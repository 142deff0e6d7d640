-- SUMMARY: The number of subsets in the report of a run, against the subsets that trials were delivered for.
import FormatFuzz.Proofs.Coverage
import FormatFuzz.Proofs.FirstOccurrences

/-!
# Reports

A run counts a subset when it comes to it, before it asks whether another trial is allowed. So the report
counts the subsets of the trials delivered and of the one that would have come next
(`Campaign.tryAll_counts`). These are the subsets that trials were delivered for, unless the limit stands
between two subsets: then they are one more (`Campaign.run_counts_subsets`).
-/

namespace FormatFuzz

-- ---------------------------------------------------------------------------
-- Subsets of picks
-- ---------------------------------------------------------------------------

namespace Pick

/-- The subsets of the picks, each once. -/
def subsets (picks : List Pick) : List (List Nat) := (picks.map (·.subset)).eraseDups

/-- The pick behind the first `n` is for a subset that none of them is for. -/
def EndsSubset (picks : List Pick) (n : Nat) : Prop := ∃ p ∈ picks[n]?, p.subset ∉ subsets (picks.take n)

instance (picks : List Pick) (n : Nat) : Decidable (EndsSubset picks n) :=
  inferInstanceAs (Decidable (∃ p ∈ picks[n]?, p.subset ∉ subsets (picks.take n)))

variable {picks : List Pick} {plan : Plan} {targets : List Target} {n : Nat}

/-- One more pick is for one more subset if the others end one. -/
theorem subsets_take_succ (picks : List Pick) (n : Nat) :
    (¬ EndsSubset picks n → (subsets (picks.take (n + 1))).length = (subsets (picks.take n)).length) ∧
      (EndsSubset picks n → (subsets (picks.take (n + 1))).length = (subsets (picks.take n)).length + 1) := by
  cases hp : picks[n]? with
  | none =>
    refine ⟨fun _ => ?_, fun ⟨p, hsome, _⟩ => absurd (hp.symm.trans hsome) (by simp)⟩
    rw [List.take_add_one, hp, Option.toList_none, List.append_nil]
  | some p =>
    have htake : subsets (picks.take (n + 1)) = if p.subset ∈ subsets (picks.take n) then
        subsets (picks.take n) else subsets (picks.take n) ++ [p.subset] := by
      rw [List.take_add_one, hp, Option.toList_some, subsets, List.map_append, List.map_singleton,
        eraseDups_concat]
      simp only [subsets, List.mem_eraseDups]
    rw [htake]
    constructor
    · intro hnot
      have hmem : p.subset ∈ subsets (picks.take n) := by_contra fun h => hnot ⟨p, hp, h⟩
      rw [if_pos hmem]
    · rintro ⟨q, hq, hnew⟩
      cases hp.symm.trans hq
      rw [if_neg hnew, List.length_append, List.length_singleton]

end Pick

namespace Campaign

variable {σ : Type} {sink : Sink σ} {t : Tree} {targets : List Target} {c : Campaign}
  {chosen : List (Target × Value)} {left : List (List (Target × Value))} {subset : List Nat}
  {done rest : List (List Nat)} {s s' : RunState (σ × Record)} {d : Delivery} {report : Report}

/-- The subsets that a run walks, in order. -/
def itinerary (c : Campaign) (targets : List Target) : List (List Nat) :=
  unmet targets [] (c.plan.asked targets.length)

theorem nodup_itinerary (c : Campaign) (targets : List Target) : (c.itinerary targets).Nodup := by
  refine ((c.plan.asked_pairwise targets.length).sublist (unmet_sublist targets [] _)).imp ?_
  rintro u _ h rfl
  exact h.asymm h

/-- The choices for the subsets, one subset after the other. -/
def choicesFor (targets : List Target) (us : List (List Nat)) : List (List (Target × Value)) :=
  us.flatMap (choicesOf targets)

/-- Each subset has a choice if each field has a candidate. -/
theorem length_choicesOf_pos (hne : ∀ x ∈ targets, x.candidates ≠ []) (subset : List Nat) :
    0 < (choicesOf targets subset).length := by
  have hzero : 0 ∉ (members targets subset).map (·.candidates.length) := by
    intro h
    obtain ⟨x, hx, hlength⟩ := List.mem_map.mp h
    obtain ⟨i, -, hi⟩ := List.mem_filterMap.mp hx
    exact hne x (List.mem_of_getElem? hi) (List.length_eq_zero_iff.mp hlength)
  rw [choicesOf, List.length_map]
  refine List.length_pos_iff.mpr fun hnil => ?_
  have hhead := Choices.head?_all hzero
  rw [hnil] at hhead
  cases hhead

/-- Each subset as often as there are choices for it. -/
def marks (targets : List Target) (us : List (List Nat)) : List (List Nat) :=
  us.flatMap fun u => List.replicate (choicesOf targets u).length u

theorem length_marks (targets : List Target) (us : List (List Nat)) :
    (marks targets us).length = (choicesFor targets us).length := by
  simp [marks, choicesFor, List.length_flatMap]

theorem eraseDups_marks (hne : ∀ x ∈ targets, x.candidates ≠ []) (hnodup : done.Nodup) :
    (marks targets done).eraseDups = done :=
  eraseDups_flatMap_replicate hnodup fun u _ => length_choicesOf_pos hne u

/-- Some choices for one subset more. -/
theorem eraseDups_marks_append (hne : ∀ x ∈ targets, x.candidates ≠ []) (hnodup : (done ++ [subset]).Nodup)
    (n : Nat) : (marks targets done ++ List.replicate (n + 1) subset).eraseDups = done ++ [subset] := by
  obtain ⟨hdone, -, hdisjoint⟩ := List.nodup_append.mp hnodup
  have hnew : subset ∉ marks targets done := by
    rw [← List.mem_eraseDups, eraseDups_marks hne hdone]
    exact fun hmem => hdisjoint _ hmem _ List.mem_cons_self rfl
  rw [eraseDups_append_replicate, eraseDups_concat, if_neg hnew, eraseDups_marks hne hdone]

/-- There is a pick for each choice of each subset. -/
theorem subsets_take_all (c : Campaign) (targets : List Target) (n : Nat) :
    Pick.subsets ((Pick.all c.plan targets).take n) =
      ((marks targets (c.itinerary targets)).take n).eraseDups := by
  have hall : (Pick.all c.plan targets).map (·.subset) = marks targets (c.itinerary targets) := by
    rw [Pick.all, List.map_flatMap]
    refine List.flatMap_congr fun u _ => ?_
    rw [List.map_map, choicesOf, List.length_map]
    exact List.map_const' ..
  rw [Pick.subsets, List.map_take, hall]

-- ---------------------------------------------------------------------------
-- Counting
-- ---------------------------------------------------------------------------

/-- The report counts the subsets of the trials and of the one that comes next, if there is one. -/
def CountsNext (c : Campaign) (targets : List Target) (report : Report) : Prop :=
  report.subsets = (Pick.subsets ((Pick.all c.plan targets).take (report.trials + 1))).length

/-- The run has walked the subsets in front of `rest`. -/
structure Between (c : Campaign) (sink : Sink σ) (t : Tree) (targets : List Target) (rest : List (List Nat))
    (s : RunState (σ × Record)) : Prop extends Progress c sink t (c.schedule targets) s where
  counted : ∃ done, c.itinerary targets = done ++ rest ∧ s.report.subsets = done.length ∧
    s.report.trials = (choicesFor targets done).length

/-- The run walks the subset in front of `rest`, and the choices `left` are still to be tried. -/
structure Within (c : Campaign) (sink : Sink σ) (t : Tree) (targets : List Target)
    (left : List (List (Target × Value))) (rest : List (List Nat)) (s : RunState (σ × Record)) : Prop
    extends Progress c sink t (c.schedule targets) s where
  counted : ∃ done subset tried, c.itinerary targets = done ++ subset :: rest ∧
    choicesOf targets subset = tried ++ left ∧ s.report.subsets = done.length + 1 ∧
    s.report.trials = (choicesFor targets done).length + tried.length

/-- A subset counts as soon as the run comes to it. -/
theorem Between.enter (h : Between c sink t targets (subset :: rest) s) (walked : List String) :
    Within c sink t targets (choicesOf targets subset) rest
      { s with walked, report := { s.report with subsets := s.report.subsets + 1 } } where
  toHands := h.toHands
  taken := h.taken
  unfinished := h.unfinished
  trials := h.trials
  number := h.number
  rests := h.rests
  uncached := h.uncached
  counted := by
    obtain ⟨done, hsplit, hsubsets, htrials⟩ := h.counted
    exact ⟨done, subset, [], hsplit, rfl, congrArg (· + 1) hsubsets, htrials⟩

/-- When no choice is left, the subset is one of those walked. -/
theorem Within.leave (h : Within c sink t targets [] rest s) : Between c sink t targets rest s where
  toProgress := h.toProgress
  counted := by
    obtain ⟨done, subset, tried, hsplit, htried, hsubsets, htrials⟩ := h.counted
    rw [List.append_nil] at htried
    refine ⟨done ++ [subset], by rw [hsplit, List.append_assoc]; rfl, ?_, ?_⟩
    · rw [hsubsets, List.length_append, List.length_singleton]
    · rw [htrials, choicesFor, choicesFor, List.flatMap_append, List.flatMap_singleton, htried,
        List.length_append]

/-- The choices that are left are at the place of the schedule that the run has come to. -/
theorem Within.drop_schedule (h : Within c sink t targets left rest s) :
    (c.schedule targets).drop s.sink.2.delivered.length = left ++ choicesFor targets rest := by
  obtain ⟨done, subset, tried, hsplit, htried, -, htrials⟩ := h.counted
  have hschedule : c.schedule targets =
      (choicesFor targets done ++ tried) ++ (left ++ choicesFor targets rest) := by
    have hwhole : c.schedule targets = choicesFor targets (c.itinerary targets) := rfl
    rw [hwhole, hsplit, choicesFor, List.flatMap_append, List.flatMap_cons, htried]
    simp only [choicesFor, List.append_assoc]
  rw [hschedule, ← h.trials, htrials, ← List.length_append, List.drop_left]

/-- A trial that is taken is one of those counted. -/
theorem Within.next (h : Within c sink t targets (chosen :: left) rest s)
    (htried : Tried c sink t chosen s d s') (htaken : d.result = .ok ()) (hnumber : s'.number = s.number + 1)
    (hreport : s'.report = { s.report with trials := s.report.trials + 1 }) :
    Within c sink t targets left rest s' where
  toProgress := (h.toProgress.next h.drop_schedule htried htaken hnumber (congrArg Report.trials hreport)).1
  counted := by
    obtain ⟨done, subset, tried, hsplit, hchoices, hsubsets, htrials⟩ := h.counted
    refine ⟨done, subset, tried ++ [chosen], hsplit, by rw [hchoices, List.append_assoc]; rfl,
      (congrArg Report.subsets hreport).trans hsubsets, ?_⟩
    rw [congrArg Report.trials hreport, List.length_append, List.length_singleton]
    exact congrArg (· + 1) htrials

/-- If the run stops while choices are left, the next trial is for the subset counted last. -/
theorem Within.countsNext (h : Within c sink t targets (chosen :: left) rest s)
    (hne : ∀ x ∈ targets, x.candidates ≠ []) : CountsNext c targets s.report := by
  obtain ⟨done, subset, tried, hsplit, hchoices, hsubsets, htrials⟩ := h.counted
  have hroom : tried.length + 1 ≤ (choicesOf targets subset).length := by
    rw [hchoices, List.length_append, List.length_cons]
    omega
  have hnodup : (done ++ [subset]).Nodup := by
    have hwhole := c.nodup_itinerary targets
    rw [hsplit, List.append_cons] at hwhole
    exact hwhole.sublist (List.sublist_append_left _ _)
  have htake : (marks targets (c.itinerary targets)).take (s.report.trials + 1) =
      marks targets done ++ List.replicate (tried.length + 1) subset := by
    rw [hsplit, marks, List.flatMap_append, List.flatMap_cons, htrials, ← length_marks, Nat.add_assoc]
    refine (List.take_length_add_append _).trans ?_
    rw [List.take_append_of_le_length (by rwa [List.length_replicate]), List.take_replicate,
      Nat.min_eq_left hroom]
  rw [CountsNext, subsets_take_all, htake, eraseDups_marks_append hne hnodup, List.length_append,
    List.length_singleton, hsubsets]

/-- If no subset is left, no trial is. -/
theorem Between.countsNext (h : Between c sink t targets [] s)
    (hne : ∀ x ∈ targets, x.candidates ≠ []) : CountsNext c targets s.report := by
  obtain ⟨done, hsplit, hsubsets, htrials⟩ := h.counted
  rw [List.append_nil] at hsplit
  rw [CountsNext, subsets_take_all, List.take_of_length_le, eraseDups_marks hne (c.nodup_itinerary targets),
    hsubsets, hsplit]
  rw [length_marks, hsplit, htrials]
  exact Nat.le_succ _

/-- A run whose sink takes every trial counts the subsets of its trials and of the next one. -/
theorem tryAll_counts (c : Campaign) (hsel : Selected t targets) (hasks : sink.Asks) (htakes : sink.Takes)
    (hne : ∀ x ∈ targets, x.candidates ≠ []) (s : σ) :
    wp (c.tryAll sink.recorded targets) (fun r s' => match r with
        | .error (.failure _) => False
        | .error .limit | .ok _ => CountsNext c targets s'.report) (c.start (s, {}) t) := by
  refine (c.tryAll_walks (B := Between c sink t targets) (W := Within c sink t targets)
    (Q := fun e s' => match e with
      | .failure _ => False
      | .limit => CountsNext c targets s'.report)
    (fun _ _ _ walked h => h.enter walked) ?trial (fun _ _ h => h.leave) rfl
    ⟨.start c s, [], rfl, rfl, rfl⟩).mono ?ending
  case trial =>
    intro chosen left rest s h
    have hmem : chosen ∈ c.schedule targets := by
      refine List.mem_of_mem_drop (i := s.sink.2.delivered.length) ?_
      rw [h.drop_schedule]
      exact List.mem_cons_self
    refine (c.tryChoice_delivers hsel hasks (fun _ => mem_of_mem_scheduled hmem) h.rests h.uncached).mono ?_
    rintro ((_ | e) | _) s' hs'
    case error.limit =>
      obtain ⟨-, rfl⟩ := hs'
      exact h.countsNext hne
    case error.failure =>
      -- The sink would have refused the trial.
      obtain ⟨d, err, htried, hrefused, -⟩ := hs'
      rw [htried.delivers.taken htakes] at hrefused
      cases hrefused
    case ok =>
      obtain ⟨d, htried, htaken, hnumber, hreport⟩ := hs'
      exact h.next htried htaken hnumber hreport
  case ending =>
    rintro ((_ | e) | _) s' hs'
    case error.limit => exact hs'
    case error.failure => exact hs'
    case ok => exact hs'.countsNext hne

-- ---------------------------------------------------------------------------
-- Runs
-- ---------------------------------------------------------------------------

open FormatFuzz.Tree (Reaches)

variable {allowed : Tree → Tree.Call → Prop} {template : Template} {seed : UInt64} {t₀ : Tree}

/-- What a run reports has been counted while it walked its plan. -/
theorem run_counts (c : Campaign) (hselect : c.targets.run t = (.ok targets, t)) (hsel : Selected t targets)
    (hasks : sink.Asks) (htakes : sink.Takes) (hne : ∀ x ∈ targets, x.candidates ≠ []) {s : σ}
    (hrun : (c.run sink s t).1 = .ok report) : CountsNext c targets report := by
  have hall := c.tryAll_counts hsel hasks htakes hne s
  rw [c.run_recorded sink s {} t] at hrun
  unfold run at hrun
  rw [hselect] at hrun
  unfold wp start at hall
  dsimp only at hall hrun
  generalize (c.tryAll sink.recorded targets).run
    { tree := t, sink := (s, {}), number := c.plan.firstTrial } = out at hall hrun
  obtain ⟨(_ | e) | _, s'⟩ := out
  case error.failure => exact hall.elim
  all_goals
    dsimp only at hall hrun
    split at hrun
    · cases hrun
      exact hall
    · cases hrun

/-- Let a run over a tree whose groups are ready have a sink that never fails and asks questions only. It
ends with a report, and it has handed over the first picks of its plan, as many as the limit allows. If every
field has a candidate, the report has the number of subsets that trials were handed over for, unless the limit
ends such a subset and leaves out others. Then it has one more. -/
theorem run_counts_subsets (hbuild : Tree.build template seed = .ok t₀) (hreach : Reaches allowed t₀ t)
    (hs : t.Settled) (c : Campaign) (hroot : t.isLive c.root = true) (sink : Sink σ) (hasks : sink.Asks)
    (htakes : sink.Takes) (hfinish : ∀ s, (sink.finish s).1 = .ok ()) (s : σ) :
    ∃ (targets : List Target) (report : Report), c.targets.run t = (.ok targets, t) ∧
      (c.run sink s t).1 = .ok report ∧
      let picks := Pick.all c.plan targets
      report.trials = c.allowance picks.length ∧
      (c.record sink s t).delivered.map Delivery.content =
        (picks.take report.trials).map (Pick.content targets) ∧
      ((∀ x ∈ targets, x.candidates ≠ []) →
        (¬ Pick.EndsSubset picks report.trials →
          report.subsets = (Pick.subsets (picks.take report.trials)).length) ∧
        (Pick.EndsSubset picks report.trials →
          report.subsets = (Pick.subsets (picks.take report.trials)).length + 1)) := by
  obtain ⟨targets, hselect, hsel⟩ := c.exists_selected (hreach.wellFormed hbuild) hs hroot
  obtain ⟨hhands, hending⟩ := c.run_delivers hsel hselect hasks s
  have htaken : ∀ d ∈ (c.record sink s t).delivered, d.result = .ok () := hhands.taken htakes
  obtain ⟨report, hrun, htrials, -⟩ := hending.report_of_taken htaken hfinish
  have hcontents := hhands.contents
  have hlength : (Pick.all c.plan targets).length = (c.schedule targets).length := by
    rw [← List.length_map (Pick.content targets), Pick.map_content_all, List.length_map]
  refine ⟨targets, report, hselect, hrun, ?_, ?_, fun hne => ?_⟩
  · rw [htrials, hlength, hending.length_of_taken htaken]
  · rw [hcontents, htrials, List.map_take, Pick.map_content_all]
  · obtain ⟨hsame, hmore⟩ := Pick.subsets_take_succ (Pick.all c.plan targets) report.trials
    have hcounts := c.run_counts hselect hsel hasks htakes hne hrun
    exact ⟨fun h => hcounts.trans (hsame h), fun h => hcounts.trans (hmore h)⟩

theorem run_counts_subsets_flags :
    ∃ t report, Tree.build Tree.flags 7 = .ok t ∧ (threeOfFour.run observer 0 t).1 = .ok report ∧
      report.trials = 3 ∧ report.subsets = 2 := by
  have hok : ((Tree.build Tree.flags 7).toOption.any fun t => t.isLive ⟨0⟩ &&
      ((threeOfFour.targets.run t).1.toOption.any fun targets =>
        (Pick.all threeOfFour.plan targets).length = 4 ∧ (∀ x ∈ targets, x.candidates ≠ []) ∧
        ¬ Pick.EndsSubset (Pick.all threeOfFour.plan targets) 3 ∧
        (Pick.subsets ((Pick.all threeOfFour.plan targets).take 3)).length = 2)) = true := by
    decide +kernel
  obtain ⟨t, hbuild, hchecked⟩ := Tree.exists_build hok
  rw [Bool.and_eq_true] at hchecked
  obtain ⟨hlive, hchecked⟩ := hchecked
  have hunbound : Tree.flags.Every Template.Unbound := ⟨trivial, trivial⟩
  have hreach : Reaches (fun _ _ => True) t t := .refl t
  obtain ⟨targets, report, hselect, hrun, htrials, -, hsubsets⟩ :=
    run_counts_subsets hbuild hreach (Tree.build_settled hunbound hbuild).1 threeOfFour hlive observer
      observer_asks (fun _ _ _ => rfl) (fun _ => rfl) 0
  rw [hselect] at hchecked
  obtain ⟨hlength, hne, hwithin, hcount⟩ := of_decide_eq_true hchecked
  have hthree : report.trials = 3 := by
    rw [htrials, hlength]
    rfl
  rw [hthree] at hsubsets
  exact ⟨t, report, hbuild, hrun, hthree, ((hsubsets hne).1 hwithin).trans hcount⟩

/-- A run over two truth values, one at a time, with room for the two trials of the first one. -/
def twoOfFour : Campaign := { root := ⟨0⟩, plan := { maxTrials := some 2 } }

/-- The report has two subsets, and the trials handed over are all for one of them. -/
theorem run_overcounts :
    ∃ t targets report, Tree.build Tree.flags 7 = .ok t ∧ t.Settled ∧
      twoOfFour.targets.run t = (.ok targets, t) ∧ (∀ x ∈ targets, x.candidates ≠ []) ∧
      (twoOfFour.run observer 0 t).1 = .ok report ∧ report.subsets = 2 ∧
      (twoOfFour.record observer 0 t).delivered.map (·.trial.fields) = [["flags[0]"], ["flags[0]"]] := by
  have hok : ((Tree.build Tree.flags 7).toOption.any fun t => t.isLive ⟨0⟩ &&
      ((twoOfFour.targets.run t).1.toOption.any fun targets => ∀ x ∈ targets, x.candidates ≠ []) &&
      ((twoOfFour.run observer 0 t).1.toOption.any fun report => report.subsets = 2) &&
      (twoOfFour.record observer 0 t).delivered.map (·.trial.fields) = [["flags[0]"], ["flags[0]"]]) = true := by
    decide +kernel
  obtain ⟨t, hbuild, hchecked⟩ := Tree.exists_build hok
  simp only [Bool.and_eq_true] at hchecked
  obtain ⟨⟨⟨hlive, hcandidates⟩, hreport⟩, hdelivered⟩ := hchecked
  have hunbound : Tree.flags.Every Template.Unbound := ⟨trivial, trivial⟩
  have hs := (Tree.build_settled hunbound hbuild).1
  have hreach : Reaches (fun _ _ => True) t t := .refl t
  obtain ⟨targets, hselect, -⟩ := twoOfFour.exists_selected (hreach.wellFormed hbuild) hs hlive
  rw [hselect] at hcandidates
  cases hrun : (twoOfFour.run observer 0 t).1 with
  | error e =>
    rw [hrun] at hreport
    cases hreport
  | ok report =>
    rw [hrun] at hreport
    exact ⟨t, targets, report, hbuild, hs, hselect, of_decide_eq_true hcandidates, hrun,
      of_decide_eq_true hreport, of_decide_eq_true hdelivered⟩

end Campaign

end FormatFuzz
