-- SUMMARY: Encodings of leaves that are neither integers, texts nor truth values.
import FormatFuzz.Error
import FormatFuzz.Random.Generator
import FormatFuzz.Value

/-!
# Codecs

A codec says how a leaf of its kind encodes a value. Everything else about it is optional; a
codec that is asked for what it does not provide says so (`TreeError.notImplemented`).
-/

namespace FormatFuzz

structure Codec where
  name : String
  encode : Value → Except TreeError Bytes
  /-- The value of a field without one. -/
  defaultValue : Generator → Except TreeError Value :=
    fun _ => .error (.notImplemented name "default_value")
  /-- The length of every encoded value. -/
  fixedLength : Except TreeError Nat := .error (.notImplemented name "fixed_len")
  candidates : List Value := []

end FormatFuzz
