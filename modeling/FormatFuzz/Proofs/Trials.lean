-- SUMMARY: Trials do not depend on those before them, and a limit or a failure only cuts a run short.
import FormatFuzz.Proofs.Deliveries

/-!
# Trials

A trial starts from a tree that differs from the one before the run in readers only, whatever trials have
come before it. So its bytes are those of a copy of that tree into which only its own values have been
written (`Campaign.run_isolates`).

What a run hands over is a beginning of what it would hand over without a limit and to a sink that
never fails, and its length is told by the limit and the first failure (`Campaign.run_cut_short`).
-/

namespace FormatFuzz

open TreeM

namespace Campaign

open FormatFuzz.Tree (Reaches Queried Settled Uncached)

variable {σ σ₀ : Type} {allowed : Tree → Tree.Call → Prop} {template : Template} {seed : UInt64}
  {t₀ t : Tree} {targets : List Target} {c : Campaign} {sink : Sink σ}

-- ---------------------------------------------------------------------------
-- Isolation
-- ---------------------------------------------------------------------------

/-- What is asked of the tree of a trial first is answered as on a copy of its own. -/
theorem Delivers.answer_eq {number : UInt64} {chosen : List (Target × Value)} {d : Delivery}
    (hd : Delivers c sink t number chosen d) (hs : t.Settled) (hu : t.Uncached) (r : Request) :
    ((Resolver.answerAll r).run d.tree).1 = ((Resolver.answerAll r).run (written chosen t)).1 := by
  obtain ⟨v, hrests, huncached, hv⟩ := hd.tree
  have htwins := written_twins chosen (hrests.twins hs hu (huncached hu)) hu
  have hsame := Resolver.mirrors_answerAll r _ _ htwins
  rw [hv]
  exact hsame.1

/-- The selection of a run that has handed over trials has not failed. -/
theorem exists_targets_of_mem_record (hwf : t.WellFormed) (hs : t.Settled) {s : σ} {d : Delivery}
    (hd : d ∈ (c.record sink s t).delivered) :
    ∃ targets, c.targets.run t = (.ok targets, t) ∧ Selected t targets := by
  rcases hselect : c.targets.run t with ⟨e | targets, t₁⟩
  · rw [c.record_of_error sink s hselect] at hd
    cases hd
  · exact ⟨targets, hselect ▸ c.selected_of_run hwf hs hselect⟩

/-- If all groups are ready and nothing is cached before a run, and its sink asks questions only, then
the bytes that the sink gets first for a trial, or the error, are those of a copy of the tree as it was before
the run, in which only the values of this trial have been written. -/
theorem run_isolates (hbuild : Tree.build template seed = .ok t₀) (hreach : Reaches allowed t₀ t)
    (hs : t.Settled) (hu : t.Uncached) (c : Campaign) (sink : Sink σ) (hsink : sink.Asks) (s : σ) :
    ∀ d ∈ (c.record sink s t).delivered, ∃ targets chosen copy,
      c.targets.run t = (.ok targets, t) ∧ chosen ∈ c.schedule targets ∧
      d.trial.root = c.root ∧ d.trial.fields = chosen.map (·.1.name) ∧
      d.trial.values = chosen.map (·.2) ∧
      (writeValues chosen).run t = (.ok (), copy) ∧
      ((Tree.bytes d.trial.root).run d.tree).1 = ((Tree.bytes d.trial.root).run copy).1 := by
  intro d hd
  obtain ⟨targets, hselect, hsel⟩ := exists_targets_of_mem_record (hreach.wellFormed hbuild) hs hd
  obtain ⟨hhands, -⟩ := c.run_delivers hsel hselect hsink s
  obtain ⟨j, hj⟩ := List.mem_iff_getElem?.mp hd
  obtain ⟨chosen, hchosen, hdelivers⟩ := hhands.entry j d hj
  have hmem := List.mem_of_getElem? hchosen
  have hlive : ∀ pair ∈ chosen, t.isLive pair.1.id = true :=
    fun _ hpair => hsel.isLive (mem_of_mem_scheduled hmem hpair)
  refine ⟨targets, chosen, written chosen t, hselect, hmem, ?_, ?_, ?_, run_writeValues hlive,
    hdelivers.answer_eq hs hu (.bytes d.trial.root)⟩ <;> rw [hdelivers.trial]

theorem observer_asks : observer.Asks := fun _ _ _ => .single (.inl ⟨.bytes ⟨0⟩, trivial, rfl⟩)

theorem run_isolates_flags :
    ∃ t, Tree.build Tree.flags 7 = .ok t ∧
      (({ root := ⟨0⟩ } : Campaign).record observer 0 t.invalidateAll).delivered.length = 4 ∧
      ∀ d ∈ (({ root := ⟨0⟩ } : Campaign).record observer 0 t.invalidateAll).delivered,
        ∃ targets chosen copy,
          ({ root := ⟨0⟩ } : Campaign).targets.run t.invalidateAll = (.ok targets, t.invalidateAll) ∧
          chosen ∈ ({ root := ⟨0⟩ } : Campaign).schedule targets ∧
          d.trial.root = ⟨0⟩ ∧ d.trial.fields = chosen.map (·.1.name) ∧
          d.trial.values = chosen.map (·.2) ∧
          (writeValues chosen).run t.invalidateAll = (.ok (), copy) ∧
          ((Tree.bytes d.trial.root).run d.tree).1 = ((Tree.bytes d.trial.root).run copy).1 := by
  have hok : ((Tree.build Tree.flags 7).toOption.any fun t =>
      (({ root := ⟨0⟩ } : Campaign).record observer 0 t.invalidateAll).delivered.length = 4) = true := by
    decide +kernel
  obtain ⟨t, hbuild, hlength⟩ := Tree.exists_build hok
  have hreach : Reaches (fun _ _ => True) t t.invalidateAll := .call .invalidateAll (.refl t) trivial
  have hunbound : Tree.flags.Every Template.Unbound := ⟨trivial, trivial⟩
  have hs := (Tree.build_settled hunbound hbuild).1.of_sameKinds
    (Tree.Like.of_invalidateAll (t := t)).sameKinds
  have hu : t.invalidateAll.Uncached := t.uncached_invalidateAll
  exact ⟨t, hbuild, of_decide_eq_true hlength,
    run_isolates hbuild hreach hs hu { root := ⟨0⟩ } observer observer_asks 0⟩

-- ---------------------------------------------------------------------------
-- Runs cut short
-- ---------------------------------------------------------------------------

/-- The run without a limit. -/
def unlimited (c : Campaign) : Campaign := { c with plan := { c.plan with maxTrials := none } }

/-- The fields of a choice with their values. -/
def contentOf (chosen : List (Target × Value)) : List String × List Value :=
  (chosen.map (·.1.name), chosen.map (·.2))

theorem Delivers.content {number : UInt64} {chosen : List (Target × Value)} {d : Delivery}
    (hd : Delivers c sink t number chosen d) : d.content = contentOf chosen := by
  rw [Delivery.content, hd.trial]
  rfl

/-- A sink that takes every trial has taken this one. -/
theorem Delivers.taken {number : UInt64} {chosen : List (Target × Value)} {d : Delivery}
    (hd : Delivers c sink t number chosen d) (htakes : sink.Takes) : d.result = .ok () := by
  obtain ⟨s, hresult⟩ := hd.result
  rw [hresult, htakes]

theorem Hands.taken {L : List (List (Target × Value))} {log : Record} (h : Hands c sink t L log)
    (htakes : sink.Takes) : ∀ d ∈ log.delivered, d.result = .ok () := by
  intro d hd
  obtain ⟨j, hj⟩ := List.mem_iff_getElem?.mp hd
  obtain ⟨chosen, -, hdelivers⟩ := h.entry j d hj
  exact hdelivers.taken htakes

theorem Hands.contents {L : List (List (Target × Value))} {log : Record}
    (h : Hands c sink t L log) :
    log.delivered.map Delivery.content = (L.map contentOf).take log.delivered.length := by
  refine List.ext_getElem? fun j => ?_
  rw [List.getElem?_map, List.getElem?_take]
  cases hj : log.delivered[j]? with
  | none =>
    have hge := List.getElem?_eq_none_iff.mp hj
    rw [if_neg (Nat.not_lt.mpr hge)]
    rfl
  | some d =>
    have hlt := (List.getElem?_eq_some_iff.mp hj).1
    obtain ⟨chosen, hchosen, hd⟩ := h.entry j d hj
    rw [if_pos hlt, List.getElem?_map, hchosen, Option.map_some, Option.map_some, hd.content]

theorem allowance_eq (c : Campaign) (n : Nat) :
    c.allowance n ≤ n ∧ (c.allowance n < n ↔ ∃ m, c.plan.maxTrials = some m ∧ m < n) := by
  unfold allowance
  cases c.plan.maxTrials with
  | none => simp
  | some m =>
    rw [Option.elim_some]
    refine ⟨Nat.min_le_right m n, fun h => ⟨m, rfl, by omega⟩, ?_⟩
    rintro ⟨_, ⟨⟩, hlt⟩
    omega

section

variable {L : List (List (Target × Value))} {log : Record} {r : Except CampaignError Report} {j : Nat}
  {d : Delivery}

/-- Trials are numbered in order. -/
theorem Hands.number (h : Hands c sink t L log) (hd : log.delivered[j]? = some d) :
    d.trial.number = c.plan.firstTrial + .ofNat j ∧
      (c.plan.firstTrial.toNat + log.delivered.length < UInt64.size →
        d.trial.number.toNat = c.plan.firstTrial.toNat + j) := by
  obtain ⟨chosen, -, hdelivers⟩ := h.entry j d hd
  have hlt := (List.getElem?_eq_some_iff.mp hd).1
  have hnumber : d.trial.number = c.plan.firstTrial + .ofNat j := by rw [hdelivers.trial]
  refine ⟨hnumber, fun hfits => ?_⟩
  have hsize : c.plan.firstTrial.toNat + j < UInt64.size := by omega
  have hj : j < UInt64.size := by omega
  rw [hnumber, UInt64.toNat_add, UInt64.toNat_ofNat', Nat.mod_eq_of_lt hj]
  exact Nat.mod_eq_of_lt hsize

theorem Hands.lt_allowance (h : Hands c sink t L log) (hd : log.delivered[j]? = some d) :
    j < c.allowance L.length := by
  have hlt := (List.getElem?_eq_some_iff.mp hd).1
  have hle := h.length_le
  unfold allowance
  cases hm : c.plan.maxTrials with
  | none => exact hlt.trans_le hle
  | some m =>
    have hallowed := h.allowed m hm
    exact Nat.lt_min.mpr ⟨hlt.trans_le hallowed, hlt.trans_le hle⟩

theorem Ending.report_of_taken (h : Ending c sink L log r)
    (htaken : ∀ d ∈ log.delivered, d.result = .ok ()) (hfinish : ∀ s, (sink.finish s).1 = .ok ()) :
    ∃ report, r = .ok report ∧ report.trials = log.delivered.length ∧
      (report.truncated = true ↔ ∃ m, c.plan.maxTrials = some m ∧ m < L.length) := by
  have hlength := h.length_of_taken htaken
  cases h with
  | complete s report _ _ trials truncated =>
    refine ⟨report, ?_, trials, ?_⟩
    · rw [hfinish]
    · rw [truncated, hlength]
      exact (c.allowance_eq L.length).2
  | refused front d e delivered _ result _ =>
    have hok := htaken d (delivered ▸ List.mem_append_right _ List.mem_cons_self)
    rw [result] at hok
    cases hok

/-- A trial that has been refused was the last. -/
theorem Ending.of_refused (h : Ending c sink L log r) {e : SinkError}
    (hd : log.delivered[j]? = some d) (hrefused : d.result = .error e) :
    log.delivered.length = j + 1 ∧ r = .error (.sink d.trial.number e) ∧ log.finished = false := by
  cases h with
  | complete s report taken _ _ _ =>
    have hok := taken d (List.mem_of_getElem? hd)
    rw [hrefused] at hok
    cases hok
  | refused front last e' delivered taken result unfinished =>
    rw [delivered, List.getElem?_append] at hd
    split at hd
    · have hok := taken d (List.mem_of_getElem? hd)
      rw [hrefused] at hok
      cases hok
    · obtain ⟨hlt, heq⟩ := List.getElem?_eq_some_iff.mp hd
      have hsame : last = d := by simpa using heq
      subst hsame
      rw [hrefused] at result
      cases result
      refine ⟨?_, rfl, unfinished⟩
      rw [List.length_singleton] at hlt
      rw [delivered, List.length_append, List.length_singleton]
      omega

end

/-- Without a limit, a sink that never fails is handed all choices. -/
theorem record_unlimited (hsel : Selected t targets) (hselect : c.targets.run t = (.ok targets, t))
    (hasks : sink.Asks) (htakes : sink.Takes) (hlimit : c.plan.maxTrials = none) (s : σ) :
    (c.record sink s t).delivered.map Delivery.content = (c.schedule targets).map contentOf := by
  obtain ⟨hhands, hending⟩ := c.run_delivers hsel hselect hasks s
  have hlength := hending.length_of_taken (hhands.taken htakes)
  rw [allowance, hlimit, Option.elim_none] at hlength
  rw [hhands.contents, hlength, ← List.length_map (f := contentOf), List.take_length]

/-- Let a run over a tree whose groups are ready hand over the trials `whole` without a limit and to a
sink that never fails. With a limit and with any sink that asks questions only, it hands over a beginning of
`whole`, numbered from the plan's first number on. If the sink takes all of them, there are as many as the
limit allows, and the report says so, and whether there would have been more. If the sink refuses one, this was
the last, and its number is in the error of the run, which has not finished the sink. -/
theorem run_cut_short (hbuild : Tree.build template seed = .ok t₀) (hreach : Reaches allowed t₀ t)
    (hs : t.Settled) (c : Campaign) (calm : Sink σ₀) (hcalm : calm.Asks ∧ calm.Takes) (s₀ : σ₀)
    (sink : Sink σ) (hsink : sink.Asks) (hfinish : ∀ s, (sink.finish s).1 = .ok ()) (s : σ) :
    let whole := (c.unlimited.record calm s₀ t).delivered.map Delivery.content
    let log := c.record sink s t
    log.delivered.map Delivery.content = whole.take log.delivered.length ∧
    (∀ j d, log.delivered[j]? = some d → d.trial.number = c.plan.firstTrial + .ofNat j ∧
      (c.plan.firstTrial.toNat + log.delivered.length < UInt64.size →
        d.trial.number.toNat = c.plan.firstTrial.toNat + j)) ∧
    ((∀ d ∈ log.delivered, d.result = .ok ()) →
      log.delivered.length = c.allowance whole.length ∧
      (t.isLive c.root = true → ∃ report, (c.run sink s t).1 = .ok report ∧
        report.trials = log.delivered.length ∧
        (report.truncated = true ↔ ∃ m, c.plan.maxTrials = some m ∧ m < whole.length))) ∧
    (∀ i d e, log.delivered[i]? = some d → d.result = .error e →
      log.delivered.length = i + 1 ∧ i < c.allowance whole.length ∧
      (c.run sink s t).1 = .error (.sink d.trial.number e) ∧ log.finished = false) := by
  have hwf := hreach.wellFormed hbuild
  dsimp only
  rcases hselect : c.targets.run t with ⟨e | targets, t₁⟩
  · have hwhole : c.unlimited.record calm s₀ t = {} := c.unlimited.record_of_error calm s₀ hselect
    rw [hwhole, c.record_of_error sink s hselect]
    refine ⟨rfl, fun j d hd => ?_, fun _ => ⟨?_, fun hroot => ?_⟩, fun i d e hd => ?_⟩
    · cases hd
    · exact (Nat.eq_zero_of_le_zero (c.allowance_eq 0).1).symm
    · obtain ⟨targets, hok, -⟩ := c.exists_selected hwf hs hroot
      rw [hselect] at hok
      cases hok
    · cases hd
  · obtain ⟨hselect, hsel⟩ := c.selected_of_run hwf hs hselect
    have hwhole : (c.unlimited.record calm s₀ t).delivered.map Delivery.content =
        (c.schedule targets).map contentOf :=
      record_unlimited (c := c.unlimited) hsel hselect hcalm.1 hcalm.2 rfl s₀
    obtain ⟨hhands, hending⟩ := c.run_delivers hsel hselect hsink s
    rw [hwhole, List.length_map]
    refine ⟨hhands.contents, fun j d hd => hhands.number hd, fun htaken =>
      ⟨hending.length_of_taken htaken, fun _ => hending.report_of_taken htaken hfinish⟩,
      fun i d e hd hrefused => ?_⟩
    obtain ⟨hlength, herror, hunfinished⟩ := hending.of_refused hd hrefused
    exact ⟨hlength, hhands.lt_allowance hd, herror, hunfinished⟩

/-- A run over two truth values, one at a time, with room for three of the four trials. -/
def threeOfFour : Campaign := { root := ⟨0⟩, plan := { maxTrials := some 3 } }

theorem run_cut_short_flags :
    ∃ t, Tree.build Tree.flags 7 = .ok t ∧
      (threeOfFour.unlimited.record observer 0 t).delivered.length = 4 ∧
      (threeOfFour.record observer 0 t).delivered.map Delivery.content =
        ((threeOfFour.unlimited.record observer 0 t).delivered.map Delivery.content).take 3 ∧
      ∃ report, (threeOfFour.run observer 0 t).1 = .ok report ∧ report.trials = 3 ∧
        report.truncated = true := by
  have hok : ((Tree.build Tree.flags 7).toOption.any fun t => t.isLive ⟨0⟩ &&
      (threeOfFour.unlimited.record observer 0 t).delivered.length = 4 &&
      (threeOfFour.record observer 0 t).delivered.all (·.result.isOk)) = true := by
    decide +kernel
  obtain ⟨t, hbuild, hchecked⟩ := Tree.exists_build hok
  rw [Bool.and_eq_true, Bool.and_eq_true] at hchecked
  obtain ⟨⟨hlive, hwhole⟩, htaken⟩ := hchecked
  have hwhole := of_decide_eq_true hwhole
  have hunbound : Tree.flags.Every Template.Unbound := ⟨trivial, trivial⟩
  have htakes : observer.Takes := fun _ _ _ => rfl
  have hreach : Reaches (fun _ _ => True) t t := .refl t
  obtain ⟨hcontents, -, hall, -⟩ := run_cut_short hbuild hreach
    (Tree.build_settled hunbound hbuild).1 threeOfFour observer ⟨observer_asks, htakes⟩ 0 observer
    observer_asks (fun _ => rfl) 0
  have hresults : ∀ d ∈ (threeOfFour.record observer 0 t).delivered, d.result = .ok () := by
    intro d hd
    have hd := List.all_eq_true.mp htaken d hd
    cases hresult : d.result with
    | ok _ => rfl
    | error e =>
      rw [hresult] at hd
      cases hd
  obtain ⟨hlength, hreport⟩ := hall hresults
  obtain ⟨report, hrun, htrials, htruncated⟩ := hreport hlive
  rw [List.length_map, hwhole] at hlength htruncated
  have hthree : (threeOfFour.record observer 0 t).delivered.length = 3 := hlength
  rw [hthree] at hcontents htrials
  exact ⟨t, hbuild, hwhole, hcontents, report, hrun, htrials, htruncated.mpr ⟨3, rfl, by decide⟩⟩

end Campaign

end FormatFuzz
