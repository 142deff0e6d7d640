-- SUMMARY: Named byte transforms and their inverses.
import FormatFuzz.Digest.Checksum
import FormatFuzz.Encoding.Base64
import FormatFuzz.Error
import FormatFuzz.Text.Quoted
import FormatFuzz.Value
import FormatFuzz.Zlib.Deflate
import FormatFuzz.Zlib.Inflate

/-!
# Actions

An action is a pure transform over the concatenation of its inputs. Most yield bytes; the
measuring actions yield an integer, which the receiving field packs in its own way. Some have
an inverse (`Action.invert`).
-/

namespace FormatFuzz

inductive Action where
  | identity
  | length
  | crc32
  | reverse
  /-- Compression into a zlib stream. -/
  | deflate (level : Fin 10)
  | base64
  | nullTerminate (terminator : UInt8)
  /-- A zero byte after every byte. -/
  | widen
  | custom (name : String) (run : List Bytes → Except ActionError Value)

namespace Action

/-- Compression at the level nearest to the given one. -/
def deflateAt (level : Nat) : Action := .deflate ⟨min level 9, by omega⟩

def defaultDeflate : Action := .deflate 6

def name : Action → String
  | .identity => "identity"
  | .length => "length"
  | .crc32 => "crc32"
  | .reverse => "reverse"
  | .deflate _ => "deflate"
  | .base64 => "base64"
  | .nullTerminate _ => "null-terminate"
  | .widen => "widen"
  | .custom name _ => name

/-- The debug description. -/
def debug : Action → String
  | .identity => "Identity"
  | .length => "Length"
  | .crc32 => "Crc32"
  | .reverse => "Reverse"
  | .deflate level => Text.record "Deflate" [("level", toString level.val)]
  | .base64 => "Base64"
  | .nullTerminate terminator =>
    Text.record "NullTerminate" [("terminator", toString terminator.toNat)]
  | .widen => "Widen"
  | .custom name _ => Text.record "Custom" [("name", Text.quote name)]

def apply : Action → List Bytes → Except ActionError Value
  | .identity, inputs => .ok (.bytes inputs.flatten)
  | .length, inputs => .ok (.ofNat inputs.flatten.length)
  | .crc32, inputs => .ok (.ofNat (Checksum.crc32 inputs.flatten).toNat)
  | .reverse, inputs => .ok (.bytes inputs.flatten.reverse)
  | .deflate level, inputs => .ok (.bytes (Zlib.deflate level inputs.flatten))
  | .base64, inputs => .ok (.bytes (Base64.encode inputs.flatten))
  | .nullTerminate terminator, inputs => .ok (.bytes (inputs.flatten ++ [terminator]))
  | .widen, inputs => .ok (.bytes (inputs.flatten.flatMap fun b => [b, 0]))
  | .custom _ run, inputs => run inputs

-- ---------------------------------------------------------------------------
-- Inverses
-- ---------------------------------------------------------------------------

/-- The data without one trailing terminator, or as it is if it has none. -/
def stripTerminator (terminator : UInt8) (data : Bytes) : Bytes :=
  if data.getLast? = some terminator then data.dropLast else data

/-- Every other byte, if the bytes between them are all zero and none is missing. -/
def narrow? : Bytes → Option Bytes
  | [] => some []
  | b :: 0 :: rest => (narrow? rest).map (b :: ·)
  | _ => none

def inflate (data : Bytes) : Except ActionError Bytes :=
  match Zlib.inflate data with
  | .ok b => .ok b
  | .error .incomplete => .error (.codec "inflate" "incomplete deflate stream")
  | .error .corrupt => .error (.codec "inflate" "corrupt deflate stream")

def decodeBase64 (data : Bytes) : Except ActionError Bytes :=
  match Base64.decode data with
  | .ok b => .ok b
  | .error fault => .error (.codec "base64-decode" fault.message)

/-- The inverse of an action that has one. -/
def inverse? : Action → Option (Bytes → Except ActionError Bytes)
  | .reverse => some fun data => .ok data.reverse
  | .deflate _ => some inflate
  | .base64 => some decodeBase64
  | .nullTerminate terminator => some fun data => .ok (stripTerminator terminator data)
  | .widen => some fun data => .ok ((narrow? data).getD data)
  | .identity | .length | .crc32 | .custom .. => none

def isReversible (a : Action) : Bool := a.inverse?.isSome

def invert (a : Action) (data : Bytes) : Except ActionError Bytes :=
  match a.inverse? with
  | some inverse => inverse data
  | none => .error (.notReversible a.name)

end Action

end FormatFuzz
