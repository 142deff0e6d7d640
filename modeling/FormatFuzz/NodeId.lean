-- SUMMARY: Node identifiers and ascending lists of them.

/-! # Node identifiers -/

namespace FormatFuzz

/-- A node's place in its tree's arena. Places are never used twice. -/
structure NodeId where
  index : Nat
  deriving DecidableEq, Repr, Inhabited

namespace NodeId

def debug (id : NodeId) : String := s!"NodeId({id.index})"

/-- Puts an identifier into an ascending list, unless it is in it. -/
def insertInto (id : NodeId) : List NodeId → List NodeId
  | [] => [id]
  | other :: rest =>
    if id.index < other.index then id :: other :: rest
    else if id = other then other :: rest
    else other :: insertInto id rest

@[simp] theorem mem_insertInto {id x : NodeId} {ids : List NodeId} :
    x ∈ insertInto id ids ↔ x = id ∨ x ∈ ids := by
  induction ids with
  | nil => simp [insertInto]
  | cons other rest ih =>
    unfold insertInto
    split
    · simp
    · split
      · rename_i h
        subst h
        simp
      · simp only [List.mem_cons, ih]
        constructor
        · rintro (h | h | h) <;> simp [h]
        · rintro (h | h | h) <;> simp [h]

end NodeId

end FormatFuzz
