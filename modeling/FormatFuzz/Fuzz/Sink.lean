-- SUMMARY: Sinks, which take the trials of a run, and the dropping of repeated ones.
import FormatFuzz.Tree.Resolve

/-!
# Sinks

A sink takes one trial after the other, with the tree as the trial has changed it. It may use
the tree as it likes; the run puts the changed fields back afterwards.
-/

namespace FormatFuzz

/-- One choice of values for some of the fields. -/
structure Trial where
  number : UInt64
  /-- The node below which the run fuzzes. -/
  root : NodeId
  /-- Full names of the changed fields. -/
  fields : List String
  /-- The value of each of the fields. -/
  values : List Value
  deriving DecidableEq, Repr

inductive SinkError where
  | tree (error : TreeError)
  /-- A directory or file could not be written. -/
  | disk
  | custom (message : String)
  deriving DecidableEq, Repr

def SinkError.message : SinkError → String
  | .tree error => error.message
  | .disk => "Sink I/O error"
  | .custom message => message

/-- A sink with a state of type `σ`. -/
structure Sink (σ : Type) where
  accept : Trial → σ → Tree → Except SinkError Unit × σ × Tree
  /-- Called after the last trial of a run that has not failed. -/
  finish : σ → Except SinkError Unit × σ := fun s => (.ok (), s)

/-- The bytes of the root that a trial fuzzes below. -/
def Trial.bytes (trial : Trial) (t : Tree) : Except SinkError Bytes × Tree :=
  match (Tree.bytes trial.root).run t with
  | (.ok b, t) => (.ok b, t)
  | (.error e, t) => (.error (.tree e), t)

-- ---------------------------------------------------------------------------
-- Dropping repeated trials
-- ---------------------------------------------------------------------------

/-- What has been seen of the trials so far. -/
structure Dedup where
  /-- The digests of all bytes that have been met. -/
  seen : List Bytes := []
  /-- The number of trials dropped. -/
  skipped : Nat := 0
  deriving DecidableEq, Repr

/-- Hands on only trials whose bytes have not been met before. -/
def Sink.dedup {σ : Type} (inner : Sink σ) : Sink (Dedup × σ) where
  accept trial := fun (d, s) t =>
    match trial.bytes t with
    | (.error e, t) => (.error e, (d, s), t)
    | (.ok b, t) =>
      let digest := Md5.digest b
      if digest ∈ d.seen then
        (.ok (), ({ d with skipped := d.skipped + 1 }, s), t)
      else
        let (result, s, t) := inner.accept trial s t
        (result, ({ d with seen := digest :: d.seen }, s), t)
  finish := fun (d, s) =>
    let (result, s) := inner.finish s
    (result, (d, s))

end FormatFuzz
