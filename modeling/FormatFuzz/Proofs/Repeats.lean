-- SUMMARY: Of the trials with the same bytes, the first is handed on and the others are dropped.
import FormatFuzz.Proofs.Deliveries
import FormatFuzz.Proofs.FirstOccurrences

/-!
# Repeated trials

A sink that drops repeated trials notes the digest of their bytes before it hands them on. So as long as
different bytes have different digests, the trials that are handed on are those whose bytes occur for the first
time (`Sink.dedup_feed`). If the inner sink refuses one of them, the next trial with its bytes is dropped all
the same, although none of them has been taken (`Sink.dedup_drops_untaken`).
-/

namespace FormatFuzz

variable {σ : Type}

-- ---------------------------------------------------------------------------
-- Sequences of trials
-- ---------------------------------------------------------------------------

/-- A trial for a sink, with the tree that it comes with. -/
abbrev Handed := Trial × Tree

/-- The bytes of the trial, if they can be worked out. -/
def Handed.bytes? (h : Handed) : Option Bytes := (h.1.bytes h.2).1.toOption

/-- The trial with the tree in which its bytes have been worked out. -/
def Handed.asked (h : Handed) : Handed := (h.1, (h.1.bytes h.2).2)

/-- Hands trials to a sink one after the other, whatever it says to them. -/
def Sink.feed (sink : Sink σ) : (handed : List Handed) → (s : σ) → List (Except SinkError Unit) × σ
  | [], s => ([], s)
  | h :: rest, s =>
    let (result, s, _) := sink.accept h.1 s h.2
    let (results, s) := feed sink rest s
    (result :: results, s)

/-- What a sink is handed by one that drops repeated trials, and what it says to it. -/
def Sink.deliveries (inner : Sink σ) (handed : List Handed) (s : σ) : List Delivery :=
  (inner.recorded.dedup.feed handed ({}, s, {})).2.2.2.delivered

namespace Sink

variable {inner : Sink σ} {handed rest : List Handed} {h : Handed} {d : Dedup} {s : σ} {t : Tree} {b : Bytes}

theorem feed_cons (sink : Sink σ) (h : Handed) (rest : List Handed) (s : σ) :
    sink.feed (h :: rest) s =
      let first := sink.accept h.1 s h.2
      let out := sink.feed rest first.2.1
      (first.1 :: out.1, out.2) := rfl

theorem feed_concat (sink : Sink σ) (handed : List Handed) (h : Handed) (s : σ) :
    sink.feed (handed ++ [h]) s =
      let out := sink.feed handed s
      let last := sink.accept h.1 out.2 h.2
      (out.1 ++ [last.1], last.2.1) := by
  induction handed generalizing s with
  | nil => rfl
  | cons g rest ih =>
    rw [List.cons_append, feed_cons]
    dsimp only
    rw [ih]
    rfl

/-- The record of the inner sink makes no difference to the sink around it. -/
theorem feed_recorded (inner : Sink σ) (handed : List Handed) (d : Dedup) (s : σ) (log : Record) :
    let out := inner.recorded.dedup.feed handed (d, s, log)
    inner.dedup.feed handed (d, s) = (out.1, out.2.1, out.2.2.1) := by
  induction handed generalizing d s log with
  | nil => rfl
  | cons h rest ih =>
    rw [feed_cons, feed_cons]
    rcases hbytes : h.1.bytes h.2 with ⟨e | b, t⟩
    · rw [dedup_accept_failed hbytes, dedup_accept_failed hbytes]
      dsimp only
      rw [ih d s log]
    · by_cases hmet : Md5.digest b ∈ d.seen
      · rw [dedup_accept_met hbytes hmet, dedup_accept_met hbytes hmet]
        dsimp only
        rw [ih _ s log]
      · rw [dedup_accept_new hbytes hmet, dedup_accept_new hbytes hmet]
        rw [recorded_accept]
        dsimp only
        rw [ih]

/-- Nothing is refused by a sink that takes every trial. -/
theorem feed_taken (htakes : inner.Takes) (handed : List Handed) (d : Dedup) (s : σ) {log : Record}
    (hlog : ∀ x ∈ log.delivered, x.result = .ok ()) :
    ∀ x ∈ (inner.recorded.dedup.feed handed (d, s, log)).2.2.2.delivered, x.result = .ok () := by
  induction handed generalizing d s log with
  | nil => exact hlog
  | cons h rest ih =>
    rw [feed_cons]
    rcases hbytes : h.1.bytes h.2 with ⟨e | b, t⟩
    · rw [dedup_accept_failed hbytes]
      exact ih d s hlog
    · by_cases hmet : Md5.digest b ∈ d.seen
      · rw [dedup_accept_met hbytes hmet]
        exact ih _ s hlog
      · rw [dedup_accept_new hbytes hmet, recorded_accept]
        refine ih _ _ fun x hx => ?_
        rcases List.mem_append.mp hx with hx | hx
        · exact hlog x hx
        · cases List.mem_singleton.mp hx
          exact htakes h.1 s t

end Sink

-- ---------------------------------------------------------------------------
-- First and repeated bytes
-- ---------------------------------------------------------------------------

namespace Handed

/-- The bytes of the trial at a position. -/
def bytesAt (handed : List Handed) (i : Nat) : Option Bytes := handed[i]?.bind bytes?

/-- The positions of trials whose bytes satisfy `p` with those that have occurred before. -/
def positions (p : List Bytes → Bytes → Bool) (handed : List Handed) : List Nat :=
  (List.range handed.length).filter fun i =>
    (bytesAt handed i).any (p ((handed.take i).filterMap bytes?))

/-- The positions at which bytes occur for the first time. -/
def firsts : (handed : List Handed) → List Nat := positions fun earlier b => !earlier.contains b

/-- The positions at which bytes occur that have occurred before. -/
def repeats : (handed : List Handed) → List Nat := positions fun earlier b => earlier.contains b

/-- The trial at a position as an inner sink is handed it, and the answer. -/
def deliveryAt (handed : List Handed) (results : List (Except SinkError Unit)) (i : Nat) : Option Delivery := do
  let h ← handed[i]?
  let result ← results[i]?
  return ⟨h.asked.1, h.asked.2, result⟩

variable {p : List Bytes → Bytes → Bool} {handed : List Handed} {h : Handed} {i : Nat}
  {results : List (Except SinkError Unit)}

theorem mem_positions : i ∈ positions p handed ↔
    ∃ b, bytesAt handed i = some b ∧ p ((handed.take i).filterMap bytes?) b = true := by
  unfold positions
  rw [List.mem_filter, List.mem_range, Option.any_eq_true]
  refine ⟨fun hi => hi.2, fun hi => ⟨?_, hi⟩⟩
  obtain ⟨b, hb, -⟩ := hi
  obtain ⟨h, hh, -⟩ := Option.bind_eq_some_iff.mp hb
  exact (List.getElem?_eq_some_iff.mp hh).1

theorem lt_of_mem_positions (hi : i ∈ positions p handed) : i < handed.length :=
  List.mem_range.mp (List.mem_of_mem_filter hi)

theorem bytesAt_append (hi : i < handed.length) : bytesAt (handed ++ [h]) i = bytesAt handed i := by
  rw [bytesAt, bytesAt, List.getElem?_append_left hi]

theorem positions_concat : positions p (handed ++ [h]) =
    positions p handed ++ if h.bytes?.any (p (handed.filterMap bytes?)) then [handed.length] else [] := by
  unfold positions
  rw [List.length_append, List.length_singleton, List.range_succ, List.filter_append]
  congr 1
  · refine List.filter_congr fun i hi => ?_
    have hi := List.mem_range.mp hi
    rw [bytesAt_append hi, List.take_append_of_le_length (Nat.le_of_lt hi)]
  · rw [List.filter_singleton, bytesAt, List.getElem?_concat_length, List.take_left, Option.bind_some,
      Bool.cond_eq_ite]

/-- The bytes that occur for the first time somewhere are those that occur, each of them once. -/
theorem bytes_firsts (handed : List Handed) :
    (firsts handed).filterMap (bytesAt handed) = (handed.filterMap bytes?).eraseDups := by
  induction handed using List.reverseRecOn with
  | nil => rfl
  | append_singleton handed h ih =>
    have hfront : (firsts handed).filterMap (bytesAt (handed ++ [h])) =
        (firsts handed).filterMap (bytesAt handed) :=
      List.filterMap_congr fun i hi => bytesAt_append (lt_of_mem_positions hi)
    have hlast : bytesAt (handed ++ [h]) handed.length = h.bytes? := by
      rw [bytesAt, List.getElem?_concat_length]
      rfl
    rw [firsts, positions_concat, ← firsts, List.filterMap_append, hfront, ih, List.filterMap_append]
    cases hb : h.bytes? with
    | none => simp [hb]
    | some b =>
      have hone : [h].filterMap bytes? = [b] := by simp [hb]
      rw [hone, eraseDups_concat]
      by_cases hmem : b ∈ handed.filterMap bytes?
      · simp [hmem]
      · simp [hmem, hlast, hb]

/-- What is repeated has occurred for a first time. -/
theorem exists_first (hi : i ∈ repeats handed) :
    ∃ j ∈ firsts handed, j < i ∧ bytesAt handed j = bytesAt handed i := by
  induction i using Nat.strongRecOn with
  | ind i ih =>
    obtain ⟨b, hb, hmem⟩ := mem_positions.mp hi
    obtain ⟨h, hh, hbytes⟩ := List.mem_filterMap.mp (List.contains_iff_mem.mp hmem)
    obtain ⟨k, hk, hget⟩ := List.mem_take_iff_getElem.mp hh
    have hki : k < i := by omega
    have hkb : bytesAt handed k = some b := by
      rw [bytesAt, List.getElem?_eq_getElem (by omega), hget, Option.bind_some, hbytes]
    cases hagain : ((handed.take k).filterMap bytes?).contains b with
    | true =>
      obtain ⟨j, hj, hlt, hsame⟩ := ih k hki (mem_positions.mpr ⟨b, hkb, hagain⟩)
      exact ⟨j, hj, hlt.trans hki, by rw [hsame, hkb, hb]⟩
    | false =>
      exact ⟨k, mem_positions.mpr ⟨b, hkb, by rw [hagain]; rfl⟩, hki, by rw [hkb, hb]⟩

theorem deliveryAt_append (hi : i < handed.length) (hlength : results.length = handed.length)
    (r : Except SinkError Unit) : deliveryAt (handed ++ [h]) (results ++ [r]) i = deliveryAt handed results i := by
  rw [deliveryAt, deliveryAt, List.getElem?_append_left hi, List.getElem?_append_left (hlength ▸ hi)]

-- ---------------------------------------------------------------------------
-- What becomes of a sequence
-- ---------------------------------------------------------------------------

/-- The first trials with their bytes have been handed on, and all other trials have not. -/
structure Parted (handed : List Handed) (results : List (Except SinkError Unit)) (d : Dedup)
    (log : List Delivery) : Prop where
  length : results.length = handed.length
  failed : ∀ {i : Nat} {h : Handed} {e}, handed[i]? = some h → (h.1.bytes h.2).1 = .error e →
    results[i]? = some (.error e)
  dropped : ∀ i ∈ repeats handed, results[i]? = some (.ok ())
  delivered : log = (firsts handed).filterMap (deliveryAt handed results)
  skipped : d.skipped = (repeats handed).length
  seen : ∀ x, x ∈ d.seen ↔ ∃ b ∈ handed.filterMap bytes?, Md5.digest b = x

namespace Parted

variable {d d' : Dedup} {log log' : List Delivery} {r : Except SinkError Unit}

/-- One more trial is a failed one, a repeated one or a first one. -/
theorem concat (hs : Parted handed results d log)
    (hfailed : ∀ e, (h.1.bytes h.2).1 = .error e → r = .error e)
    (hdropped : h.bytes?.any ((handed.filterMap bytes?).contains ·) → r = .ok ())
    (hlog : log' = log ++
      if h.bytes?.any (!(handed.filterMap bytes?).contains ·) then [⟨h.asked.1, h.asked.2, r⟩] else [])
    (hskipped : d'.skipped = d.skipped + if h.bytes?.any ((handed.filterMap bytes?).contains ·) then 1 else 0)
    (hseen : ∀ x, x ∈ d'.seen ↔ x ∈ d.seen ∨ ∃ b, h.bytes? = some b ∧ Md5.digest b = x) :
    Parted (handed ++ [h]) (results ++ [r]) d' log' where
  length := by simp [hs.length]
  failed := by
    intro i g e hg herror
    rcases Nat.lt_or_ge i handed.length with hlt | hge
    · rw [List.getElem?_append_left hlt] at hg
      rw [List.getElem?_append_left (hs.length ▸ hlt), hs.failed hg herror]
    · obtain ⟨hi, hg⟩ := List.getElem?_eq_some_iff.mp hg
      rw [List.length_append, List.length_singleton] at hi
      have hi : i = handed.length := by omega
      subst hi
      rw [List.getElem_concat_length rfl] at hg
      rw [← hs.length, List.getElem?_concat_length, hfailed e (hg ▸ herror)]
  dropped := by
    intro i hi
    rw [repeats, positions_concat, List.mem_append] at hi
    rcases hi with hi | hi
    · rw [List.getElem?_append_left (hs.length ▸ lt_of_mem_positions hi)]
      exact hs.dropped i hi
    · split at hi
      · next hagain =>
        cases List.mem_singleton.mp hi
        rw [← hs.length, List.getElem?_concat_length, hdropped hagain]
      · cases hi
  delivered := by
    have hfront : (firsts handed).filterMap (deliveryAt (handed ++ [h]) (results ++ [r])) =
        (firsts handed).filterMap (deliveryAt handed results) :=
      List.filterMap_congr fun i hi => deliveryAt_append (lt_of_mem_positions hi) hs.length r
    have hlast : deliveryAt (handed ++ [h]) (results ++ [r]) handed.length =
        some ⟨h.asked.1, h.asked.2, r⟩ := by
      rw [deliveryAt, List.getElem?_concat_length, ← hs.length, List.getElem?_concat_length]
      rfl
    rw [firsts, positions_concat, ← firsts, List.filterMap_append, hfront, ← hs.delivered, hlog]
    split <;> simp [hlast]
  skipped := by
    rw [repeats, positions_concat, ← repeats, List.length_append, ← hs.skipped, hskipped]
    split <;> rfl
  seen := by
    intro x
    rw [hseen, hs.seen, List.filterMap_append]
    cases hb : h.bytes? <;> simp [hb, or_and_right, exists_or]

end Parted

/-- Different bytes that occur have different digests. -/
def Collisionless (handed : List Handed) : Prop :=
  ∀ b ∈ handed.filterMap bytes?, ∀ b' ∈ handed.filterMap bytes?, Md5.digest b = Md5.digest b' → b = b'

instance (handed : List Handed) : Decidable (Collisionless handed) :=
  inferInstanceAs (Decidable
    (∀ b ∈ handed.filterMap bytes?, ∀ b' ∈ handed.filterMap bytes?, Md5.digest b = Md5.digest b' → b = b'))

end Handed

namespace Sink

open Handed

variable {inner : Sink σ} {handed : List Handed} {g h : Handed} {d : Dedup} {s : σ} {log : Record}
  {results : List (Except SinkError Unit)}

/-- As long as no digest stands for different bytes, one more trial goes the way of those before. -/
theorem accept_parted (hs : Parted handed results d log.delivered) (hinj : Collisionless (handed ++ [h])) :
    let out := inner.recorded.dedup.accept h.1 (d, s, log) h.2
    Parted (handed ++ [h]) (results ++ [out.1]) out.2.1.1 out.2.1.2.2.delivered := by
  rcases hbytes : h.1.bytes h.2 with ⟨e | b, t⟩
  · have hnone : h.bytes? = none := by rw [bytes?, hbytes]; rfl
    rw [dedup_accept_failed hbytes]
    refine hs.concat (fun e' he => ?_) ?_ ?_ ?_ ?_
    · rw [hbytes] at he
      cases he
      rfl
    all_goals simp [hnone]
  have hsome : h.bytes? = some b := by rw [bytes?, hbytes]; rfl
  have hasked : h.asked = (h.1, t) := by rw [asked, hbytes]
  have hfailed : ∀ {r : Except SinkError Unit} e, (h.1.bytes h.2).1 = .error e → r = .error e := by
    intro r e he
    rw [hbytes] at he
    cases he
  -- The digest has been seen if and only if the bytes have occurred.
  have hoccurs : Md5.digest b ∈ d.seen ↔ b ∈ handed.filterMap bytes? := by
    rw [hs.seen]
    refine ⟨?_, fun hb => ⟨b, hb, rfl⟩⟩
    rintro ⟨b', hb', hsame⟩
    rw [Collisionless, List.filterMap_append] at hinj
    have hb : b ∈ [h].filterMap bytes? := List.mem_filterMap.mpr ⟨h, List.mem_cons_self, hsome⟩
    rwa [← hinj b' (List.mem_append_left _ hb') b (List.mem_append_right _ hb) hsame]
  by_cases hmet : Md5.digest b ∈ d.seen
  · have hmem : (handed.filterMap bytes?).contains b = true := List.contains_iff_mem.mpr (hoccurs.mp hmet)
    rw [dedup_accept_met hbytes hmet]
    refine hs.concat hfailed (fun _ => rfl) ?_ ?_ fun x => ?_
    · simp only [hsome, Option.any_some, hmem, Bool.not_true, Bool.false_eq_true, if_false, List.append_nil]
    · simp only [hsome, Option.any_some, hmem, if_true]
    · simp only [hsome, Option.some.injEq, exists_eq_left', iff_self_or]
      rintro rfl
      exact hmet
  · have hmem : (handed.filterMap bytes?).contains b = false :=
      Bool.eq_false_iff.mpr fun hb => hmet (hoccurs.mpr (List.contains_iff_mem.mp hb))
    rw [dedup_accept_new hbytes hmet, recorded_accept]
    refine hs.concat hfailed (fun hagain => ?_) ?_ ?_ fun x => ?_
    · simp only [hsome, Option.any_some, hmem, Bool.false_eq_true] at hagain
    · simp only [hsome, Option.any_some, hmem, Bool.not_false, if_true, hasked]
    · simp only [hsome, Option.any_some, hmem, Bool.false_eq_true, if_false, Nat.add_zero]
    · simp only [hsome, Option.some.injEq, exists_eq_left', List.mem_cons]
      rw [or_comm, eq_comm]

theorem collisionless_front (h : Collisionless (handed ++ [g])) : Collisionless handed := by
  rw [Collisionless, List.filterMap_append] at h
  exact fun b hb b' hb' => h b (List.mem_append_left _ hb) b' (List.mem_append_left _ hb')

theorem feed_parted (inner : Sink σ) (s : σ) (hinj : Collisionless handed) :
    let out := inner.recorded.dedup.feed handed ({}, s, {})
    Parted handed out.1 out.2.1 out.2.2.2.delivered := by
  induction handed using List.reverseRecOn with
  | nil =>
    exact ⟨rfl, fun hg => by simp at hg, fun i hi => by simp [repeats, positions] at hi, rfl, rfl,
      fun x => by simp [feed]⟩
  | append_singleton handed h ih =>
    rw [feed_concat]
    exact accept_parted (ih (collisionless_front hinj)) hinj

/-- Whatever the inner sink says to the trials that it is handed, these are the first ones with their bytes, each
in its place, and all others with bytes are dropped: for each of them, a trial with its bytes has been handed on
before, and has been taken unless it has been refused. -/
theorem dedup_feed (inner : Sink σ) (s : σ) (handed : List Handed) (hinj : Collisionless handed) :
    let out := inner.dedup.feed handed ({}, s)
    let delivered := inner.deliveries handed s
    out.1.length = handed.length ∧
    (∀ (i : Nat) (h : Handed) e, handed[i]? = some h → (h.1.bytes h.2).1 = .error e →
      out.1[i]? = some (.error e)) ∧
    delivered = (firsts handed).filterMap (deliveryAt handed out.1) ∧
    (firsts handed).filterMap (bytesAt handed) = (handed.filterMap bytes?).eraseDups ∧
    (∀ i ∈ repeats handed, out.1[i]? = some (.ok ()) ∧ ∃ j ∈ firsts handed, j < i ∧
      bytesAt handed j = bytesAt handed i ∧ ((∀ e, out.1[j]? ≠ some (.error e)) →
        ∃ x ∈ delivered, deliveryAt handed out.1 j = some x ∧ x.result = .ok ())) ∧
    out.2.1.skipped = (repeats handed).length ∧
    (inner.Takes → ∀ x ∈ delivered, x.result = .ok ()) := by
  have hs := feed_parted inner s hinj
  have hsame := feed_recorded inner handed {} s {}
  dsimp only at hs hsame ⊢
  rw [hsame]
  refine ⟨hs.length, fun i h e => hs.failed, hs.delivered, bytes_firsts handed, fun i hi => ⟨hs.dropped i hi, ?_⟩,
    hs.skipped, fun htakes => feed_taken htakes handed {} s fun x hx => absurd hx List.not_mem_nil⟩
  obtain ⟨j, hj, hlt, hbytes⟩ := exists_first hi
  refine ⟨j, hj, hlt, hbytes, fun hunrefused => ?_⟩
  have hbound := lt_of_mem_positions hj
  have hget := List.getElem?_eq_getElem hbound
  obtain ⟨r, hr⟩ : ∃ r, (inner.recorded.dedup.feed handed ({}, s, {})).1[j]? = some r :=
    ⟨_, List.getElem?_eq_getElem (hs.length ▸ hbound)⟩
  cases r with
  | error e => exact absurd hr (hunrefused e)
  | ok _ =>
    have hdelivery : deliveryAt handed (inner.recorded.dedup.feed handed ({}, s, {})).1 j =
        some ⟨handed[j].asked.1, handed[j].asked.2, .ok ()⟩ := by
      rw [deliveryAt, hget, hr]
      rfl
    refine ⟨_, ?_, hdelivery, rfl⟩
    rw [deliveries, hs.delivered]
    exact List.mem_filterMap.mpr ⟨j, hj, hdelivery⟩

/-- Refuses the trial of number 1. -/
def picky : Sink Unit where
  accept trial s t := (if trial.number = 1 then .error .disk else .ok (), s, t)

/-- A flag that is not set. -/
def flagged : Template :=
  .composite { name := "record" } [(Template.boolean "flag").withCell (.literal (.bool false))]

/-- Two trials of a tree, and one after the flag has been set. -/
def flagTrials (t : Tree) : List Handed :=
  [(⟨1, ⟨0⟩, [], []⟩, t), (⟨2, ⟨0⟩, [], []⟩, t),
    (⟨3, ⟨0⟩, [], []⟩, (Tree.Call.replaceCell ⟨1⟩ (.literal (.bool true))).run t)]

theorem dedup_feed_flags : ∃ t, Tree.build flagged 7 = .ok t ∧ Collisionless (flagTrials t) ∧
    repeats (flagTrials t) = [1] ∧ (picky.dedup.feed (flagTrials t) ({}, ())).2.1.skipped = 1 ∧
    ∃ j ∈ firsts (flagTrials t), j < 1 ∧ bytesAt (flagTrials t) j = bytesAt (flagTrials t) 1 := by
  have hall : (Tree.build flagged 7).toOption.any (fun t =>
      Collisionless (flagTrials t) ∧ repeats (flagTrials t) = [1]) = true := by decide +kernel
  obtain ⟨t, hbuild, hall⟩ := Tree.exists_build hall
  obtain ⟨hinj, hrepeats⟩ := of_decide_eq_true hall
  obtain ⟨-, -, -, -, hdropped, hskipped, -⟩ := dedup_feed picky () (flagTrials t) hinj
  rw [hrepeats] at hdropped hskipped
  obtain ⟨-, j, hj, hlt, hsame, -⟩ := hdropped 1 List.mem_cons_self
  exact ⟨t, hbuild, hinj, hrepeats, hskipped, j, hj, hlt, hsame⟩

/-- A trial is dropped although the sink has taken none with its bytes. -/
theorem dedup_drops_untaken : ∃ t, Tree.build flagged 7 = .ok t ∧ Collisionless (flagTrials t) ∧
    1 ∈ repeats (flagTrials t) ∧ bytesAt (flagTrials t) 2 ≠ bytesAt (flagTrials t) 1 ∧
    (picky.deliveries (flagTrials t) ()).map (fun x => (x.trial.number, x.result)) =
      [(1, .error .disk), (3, .ok ())] := by
  have hall : (Tree.build flagged 7).toOption.any (fun t => Collisionless (flagTrials t) ∧
      1 ∈ repeats (flagTrials t) ∧ bytesAt (flagTrials t) 2 ≠ bytesAt (flagTrials t) 1 ∧
      (picky.deliveries (flagTrials t) ()).map (fun x => (x.trial.number, x.result)) =
        [(1, .error .disk), (3, .ok ())]) = true := by
    decide +kernel
  obtain ⟨t, hbuild, hall⟩ := Tree.exists_build hall
  exact ⟨t, hbuild, of_decide_eq_true hall⟩

end Sink

end FormatFuzz
