-- SUMMARY: What a fuzz run hands to its sink, trial by trial.
import FormatFuzz.Proofs.Resting
import FormatFuzz.Proofs.Schedule

/-!
# Deliveries

What a sink is handed is seen by a sink that keeps a record of it (`Sink.recorded`), which makes no
difference to the run (`Campaign.run_recorded`). If all groups are ready and the sink asks questions
only, the record holds the choices of the schedule from the first one on, each with a tree at rest into
which its values have been written, up to the limit of the plan or to the first trial that the sink
refuses (`Campaign.run_delivers`).
-/

namespace FormatFuzz

open TreeM

-- ---------------------------------------------------------------------------
-- Records
-- ---------------------------------------------------------------------------

/-- A trial as a sink was handed it, and what the sink said to it. -/
structure Delivery where
  trial : Trial
  tree : Tree
  result : Except SinkError Unit

/-- The changed fields with their values. -/
def Delivery.content (d : Delivery) : List String × List Value := (d.trial.fields, d.trial.values)

/-- What has been done with a sink. -/
structure Record where
  delivered : List Delivery := []
  finished : Bool := false

variable {σ : Type}

/-- The sink, with a record of what is done with it. -/
def Sink.recorded (inner : Sink σ) : Sink (σ × Record) where
  accept trial := fun (s, log) t =>
    let (result, s, t') := inner.accept trial s t
    (result, (s, { log with delivered := log.delivered ++ [⟨trial, t, result⟩] }), t')
  finish := fun (s, log) =>
    let (result, s) := inner.finish s
    (result, (s, { log with finished := true }))

/-- The sink asks questions about the tree and nothing else. -/
def Sink.Asks (sink : Sink σ) : Prop :=
  ∀ trial s (v : Tree), v.Queried (sink.accept trial s v).2.2

/-- The sink takes every trial. -/
def Sink.Takes (sink : Sink σ) : Prop := ∀ trial s v, (sink.accept trial s v).1 = .ok ()

namespace Sink

variable {inner : Sink σ} {trial : Trial} {d : Dedup} {s : σ} {v v' : Tree} {b : Bytes}

theorem recorded_accept (inner : Sink σ) (trial : Trial) (s : σ) (log : Record) (v : Tree) :
    inner.recorded.accept trial (s, log) v =
      let out := inner.accept trial s v
      (out.1, (out.2.1, { log with delivered := log.delivered ++ [⟨trial, v, out.1⟩] }), out.2.2) := rfl

theorem dedup_accept_failed {e : SinkError} (hb : trial.bytes v = (.error e, v')) :
    inner.dedup.accept trial (d, s) v = (.error e, (d, s), v') := by
  unfold Sink.dedup
  dsimp only
  rw [hb]

theorem dedup_accept_met (hb : trial.bytes v = (.ok b, v')) (hmet : Md5.digest b ∈ d.seen) :
    inner.dedup.accept trial (d, s) v = (.ok (), ({ d with skipped := d.skipped + 1 }, s), v') := by
  unfold Sink.dedup
  dsimp only
  rw [hb]
  exact if_pos hmet

theorem dedup_accept_new (hb : trial.bytes v = (.ok b, v')) (hnew : Md5.digest b ∉ d.seen) :
    inner.dedup.accept trial (d, s) v =
      ((inner.accept trial s v').1, ({ d with seen := Md5.digest b :: d.seen },
        (inner.accept trial s v').2.1), (inner.accept trial s v').2.2) := by
  unfold Sink.dedup
  dsimp only
  rw [hb]
  exact if_neg hnew

end Sink

namespace Campaign

/-- The record of a run. -/
def record (c : Campaign) (sink : Sink σ) (s : σ) (t : Tree) : Record :=
  (c.run sink.recorded (s, {}) t).2.1.2

/-- The state of a run without the record. -/
def forget (s : RunState (σ × Record)) : RunState σ := { s with sink := s.sink.1 }

/-- The operations do the same, but for the record. -/
def Erases {α : Type} (act : RunM (σ × Record) α) (act' : RunM σ α) : Prop :=
  ∀ s, wp act (fun r u => wp act' (fun r' u' => r' = r ∧ u' = forget u) (forget s)) s

namespace Erases

variable {α β : Type} {act : RunM (σ × Record) α} {act' : RunM σ α}

theorem pure {a : α} : Erases (Pure.pure a : RunM (σ × Record) α) (Pure.pure a) :=
  fun _ => ⟨rfl, rfl⟩

theorem bind {f : α → RunM (σ × Record) β} {f' : α → RunM σ β} (hact : Erases act act')
    (hf : ∀ a, Erases (f a) (f' a)) : Erases (act >>= f) (act' >>= f') := by
  intro s
  rw [wp.bind]
  refine (hact s).mono fun r u hu => ?_
  cases r with
  | error e =>
    dsimp only
    rw [wp.bind]
    refine hu.mono ?_
    rintro _ _ ⟨rfl, rfl⟩
    exact ⟨rfl, rfl⟩
  | ok a =>
    refine (hf a u).mono fun r v hv => ?_
    rw [wp.bind]
    refine hu.mono ?_
    rintro _ _ ⟨rfl, rfl⟩
    exact hv

end Erases

variable {sink : Sink σ} {targets : List Target}

theorem checkLimit_erases (c : Campaign) :
    Erases (c.checkLimit : RunM (σ × Record) Unit) c.checkLimit := by
  intro s
  unfold checkLimit
  simp only [wp.bind, wp.get]
  have hsame : (forget s).report.trials = s.report.trials := rfl
  rw [hsame]
  cases c.plan.maxTrials.any (· ≤ s.report.trials) <;> exact ⟨rfl, rfl⟩

theorem tryChoice_erases (c : Campaign) (chosen : List (Target × Value)) :
    Erases (c.tryChoice sink.recorded targets chosen) (c.tryChoice sink targets chosen) := by
  refine .bind c.checkLimit_erases fun _ s => ?_
  simp only [wp.bind, wp.get]
  have hsame : (forget s).tree = s.tree := rfl
  rw [hsame]
  rcases (writeValues chosen).run s.tree with ⟨_ | _, t⟩
  · exact ⟨rfl, rfl⟩
  · dsimp only [Sink.recorded]
    simp only [wp.bind, wp.set]
    have haccept : (forget s).sink = s.sink.1 := rfl
    have hnumber : (forget s).number = s.number := rfl
    rw [haccept, hnumber]
    cases (sink.accept ⟨s.number, c.root, chosen.map (·.1.name), chosen.map (·.2)⟩ s.sink.1 t).1 <;>
      exact ⟨rfl, rfl⟩

theorem tryChoices_erases (c : Campaign) (fields : List Target) (limit : Nat) (choices : Choices) :
    Erases (c.tryChoices sink.recorded targets fields limit choices)
      (c.tryChoices sink targets fields limit choices) := by
  induction limit generalizing choices with
  | zero => exact .pure
  | succ limit ih =>
    unfold tryChoices
    cases choices.next? with
    | none => exact .pure
    | some found => exact .bind (c.tryChoice_erases _) fun _ => ih found.2

theorem trySubset_erases (c : Campaign) (subset : List Nat) :
    Erases (c.trySubset sink.recorded targets subset) (c.trySubset sink targets subset) := by
  intro s
  unfold trySubset
  simp only [wp.bind, wp.get]
  have hsame : (forget s).walked = s.walked := rfl
  rw [hsame]
  split
  · exact ⟨rfl, rfl⟩
  · simp only [wp.bind, wp.modify]
    exact c.tryChoices_erases _ _ _ _

theorem trySubsets_erases (c : Campaign) (limit : Nat) (subsets : Subsets) :
    Erases (c.trySubsets sink.recorded targets limit subsets)
      (c.trySubsets sink targets limit subsets) := by
  induction limit generalizing subsets with
  | zero => exact .pure
  | succ limit ih =>
    unfold trySubsets
    cases subsets.next? with
    | none => exact .pure
    | some found => exact .bind (c.trySubset_erases _) fun _ => ih found.2

theorem tryAll_erases (c : Campaign) :
    Erases (c.tryAll sink.recorded targets) (c.tryAll sink targets) := by
  have hloop : ∀ sizes : List Nat, Erases
      (forIn sizes PUnit.unit fun k _ => do
        c.trySubsets sink.recorded targets (Subsets.total targets.length k) (.ofSize targets.length k)
        return .yield PUnit.unit : RunM (σ × Record) PUnit)
      (forIn sizes PUnit.unit fun k _ => do
        c.trySubsets sink targets (Subsets.total targets.length k) (.ofSize targets.length k)
        return .yield PUnit.unit : RunM σ PUnit) := by
    intro sizes
    induction sizes with
    | nil => exact .pure
    | cons k rest ih =>
      rw [List.forIn_cons, List.forIn_cons, bind_assoc, bind_assoc]
      exact .bind (c.trySubsets_erases _ _) fun _ => ih
  exact .bind (hloop _) fun _ => .pure

/-- Keeping a record makes no difference to a run. -/
theorem run_recorded (c : Campaign) (sink : Sink σ) (s : σ) (log : Record) (t : Tree) :
    c.run sink s t = ((c.run sink.recorded (s, log) t).1, (c.run sink.recorded (s, log) t).2.1.1,
      (c.run sink.recorded (s, log) t).2.2) := by
  unfold run
  rcases c.targets.run t with ⟨_ | targets, t₁⟩
  · rfl
  · dsimp only
    have hall : Erases (c.tryAll sink.recorded targets) (c.tryAll sink targets) := c.tryAll_erases
    have herases := hall { tree := t₁, sink := (s, log), number := c.plan.firstTrial }
    unfold wp at herases
    generalize (c.tryAll sink.recorded targets).run
      { tree := t₁, sink := (s, log), number := c.plan.firstTrial } = out at herases ⊢
    have hplain : (c.tryAll sink targets).run { tree := t₁, sink := s, number := c.plan.firstTrial } =
        (out.1, forget out.2) := Prod.ext herases.1 herases.2
    rw [hplain]
    obtain ⟨(_ | e) | _, u⟩ := out <;> rfl

-- ---------------------------------------------------------------------------
-- Trials
-- ---------------------------------------------------------------------------

open FormatFuzz.Tree (Rests Twins Uncached Varies Intact)

variable {t v : Tree}

/-- The sink has been handed the values of a choice, written into a tree at rest. -/
structure Delivers (c : Campaign) (sink : Sink σ) (t : Tree) (number : UInt64)
    (chosen : List (Target × Value)) (d : Delivery) : Prop where
  trial : d.trial = ⟨number, c.root, chosen.map (·.1.name), chosen.map (·.2)⟩
  tree : ∃ v, t.Rests v ∧ (t.Uncached → v.Uncached) ∧ d.tree = written chosen v
  result : ∃ s, d.result = (sink.accept d.trial s d.tree).1

/-- The targets of a run over a tree whose groups are ready. -/
structure Selected (t : Tree) (targets : List Target) : Prop where
  settled : t.Settled
  saved : ∀ x ∈ targets, ∃ n, t.node? x.id = some n ∧ n.cell = x.saved
  nodup : (targets.map (·.id)).Nodup

theorem Selected.isLive (h : Selected t targets) {x : Target} (hx : x ∈ targets) :
    t.isLive x.id = true := by
  obtain ⟨n, hn, -⟩ := h.saved x hx
  exact Tree.isLive_iff_node?.mpr ⟨n, hn⟩

/-- What a trial has done to the state of a run. -/
structure Tried (c : Campaign) (sink : Sink σ) (t : Tree) (chosen : List (Target × Value))
    (s : RunState (σ × Record)) (d : Delivery) (s' : RunState (σ × Record)) : Prop where
  allowed : ∀ m, c.plan.maxTrials = some m → s.report.trials < m
  delivers : Delivers c sink t s.number chosen d
  log : s'.sink.2 = { s.sink.2 with delivered := s.sink.2.delivered ++ [d] }
  rests : t.Rests s'.tree
  uncached : s'.tree.Uncached

theorem tryChoice_delivers (c : Campaign) (hsel : Selected t targets)
    (hsink : sink.Asks) {chosen : List (Target × Value)} (hchosen : ∀ pair ∈ chosen, pair.1 ∈ targets)
    {s : RunState (σ × Record)} (hrests : t.Rests s.tree) (huncached : t.Uncached → s.tree.Uncached) :
    wp (c.tryChoice sink.recorded targets chosen) (fun r s' => match r with
      | .ok _ => ∃ d, Tried c sink t chosen s d s' ∧ d.result = .ok () ∧
        s'.number = s.number + 1 ∧ s'.report = { s.report with trials := s.report.trials + 1 }
      | .error (.failure e) => ∃ d err, Tried c sink t chosen s d s' ∧ d.result = .error err ∧
        e = .sink s.number err
      | .error .limit => (∃ m, c.plan.maxTrials = some m ∧ m ≤ s.report.trials) ∧
        s' = { s with report := { s.report with truncated := true } }) s := by
  have hlive : ∀ pair ∈ chosen, s.tree.isLive pair.1.id = true := fun pair hpair =>
    (Tree.eq_of_outline (f := (·.isLive pair.1.id)) (fun _ => Tree.isLive_outline)
      hrests.toLike.outline).trans (hsel.isLive (hchosen pair hpair))
  have hwritten := written_varies (D := (· ∈ targets.map (·.id)))
    (fun pair hpair => List.mem_map_of_mem (hchosen pair hpair)) s.tree
  -- Whatever the sink asks, the restoration puts the tree to rest.
  have hrestored : ∀ trial s', let t' := (sink.accept trial s' (written chosen s.tree)).2.2
      t.Rests (restore targets t') ∧ (restore targets t').Uncached := by
    intro trial s'
    have hsettled := (hrests.settled hsel.settled).of_outline hwritten.1.outline
    have hasked := (hsink trial s' (written chosen s.tree)).rests hsettled
    refine rests_restore hsel.saved hsel.nodup ?_
      (hasked.resolving.trans (hwritten.2.trans hrests.resolving))
    exact ((Varies.of_intact hrests.toIntact).trans hwritten.1).trans (.of_intact hasked.toIntact)
  unfold tryChoice checkLimit
  simp only [wp.bind, wp.get]
  split
  · rename_i hlimit
    simp only [wp.bind, wp.modify, wp.throw]
    obtain ⟨m, hm, hle⟩ := (Option.any_eq_true _ _).mp hlimit
    exact ⟨⟨m, hm, of_decide_eq_true hle⟩, trivial⟩
  · rename_i hlimit
    have hallowed : ∀ m, c.plan.maxTrials = some m → s.report.trials < m := by
      intro m hm
      rw [hm, Option.any_some, decide_eq_true_iff] at hlimit
      exact Nat.lt_of_not_le hlimit
    simp only [wp.pure, run_writeValues hlive]
    dsimp only [Sink.recorded]
    simp only [wp.bind, wp.set]
    obtain ⟨hresting, hcleared⟩ :=
      hrestored ⟨s.number, c.root, chosen.map (·.1.name), chosen.map (·.2)⟩ s.sink.1
    cases hresult : (sink.1 ⟨s.number, c.root, chosen.map (·.1.name), chosen.map (·.2)⟩ s.sink.1
        (written chosen s.tree)).1 with
    | error err =>
      exact ⟨_, err, ⟨hallowed, ⟨rfl, ⟨_, hrests, huncached, rfl⟩, s.sink.1, hresult.symm⟩, rfl,
        hresting, hcleared⟩, rfl, rfl⟩
    | ok _ =>
      exact ⟨_, ⟨hallowed, ⟨rfl, ⟨_, hrests, huncached, rfl⟩, s.sink.1, hresult.symm⟩, rfl,
        hresting, hcleared⟩, rfl, rfl, rfl⟩

-- ---------------------------------------------------------------------------
-- Runs
-- ---------------------------------------------------------------------------

/-- The number of trials that the plan allows of `n`. -/
def allowance (c : Campaign) (n : Nat) : Nat := c.plan.maxTrials.elim n (min · n)

/-- The sink has been handed choices of `L` in order, from the first one on, as many as are
allowed. -/
structure Hands (c : Campaign) (sink : Sink σ) (t : Tree) (L : List (List (Target × Value)))
    (log : Record) : Prop where
  entry : ∀ j d, log.delivered[j]? = some d → ∃ chosen, L[j]? = some chosen ∧
    Delivers c sink t (c.plan.firstTrial + .ofNat j) chosen d
  allowed : ∀ m, c.plan.maxTrials = some m → log.delivered.length ≤ m

/-- How a run with the choices `L` ends. -/
inductive Ending (c : Campaign) (sink : Sink σ) (L : List (List (Target × Value))) (log : Record) :
    Except CampaignError Report → Prop where
  /-- The sink has taken all trials that are allowed. -/
  | complete (s : σ) (report : Report) (taken : ∀ d ∈ log.delivered, d.result = .ok ())
    (length : log.delivered.length = c.allowance L.length)
    (trials : report.trials = log.delivered.length)
    (truncated : report.truncated = true ↔ log.delivered.length < L.length) :
    Ending c sink L log (match (sink.finish s).1 with
      | .ok () => .ok report
      | .error e => .error (.finish e))
  /-- The sink has refused a trial. -/
  | refused (front : List Delivery) (d : Delivery) (e : SinkError)
    (delivered : log.delivered = front ++ [d]) (taken : ∀ d ∈ front, d.result = .ok ())
    (result : d.result = .error e) (unfinished : log.finished = false) :
    Ending c sink L log (.error (.sink d.trial.number e))

theorem Ending.length_of_taken {c : Campaign} {L : List (List (Target × Value))} {log : Record}
    {r : Except CampaignError Report} (h : Ending c sink L log r)
    (htaken : ∀ d ∈ log.delivered, d.result = .ok ()) :
    log.delivered.length = c.allowance L.length := by
  cases h with
  | complete s report _ length _ _ => exact length
  | refused front d e delivered _ result _ =>
    have hok := htaken d (delivered ▸ List.mem_append_right _ List.mem_cons_self)
    rw [result] at hok
    cases hok

/-- The run is between two trials, and the sink has taken those before. -/
structure Progress (c : Campaign) (sink : Sink σ) (t : Tree) (L : List (List (Target × Value)))
    (s : RunState (σ × Record)) : Prop extends Hands c sink t L s.sink.2 where
  taken : ∀ d ∈ s.sink.2.delivered, d.result = .ok ()
  unfinished : s.sink.2.finished = false
  trials : s.report.trials = s.sink.2.delivered.length
  number : s.number = c.plan.firstTrial + .ofNat s.sink.2.delivered.length
  rests : t.Rests s.tree
  uncached : t.Uncached → s.tree.Uncached

theorem Hands.length_le {c : Campaign} {L : List (List (Target × Value))} {log : Record}
    (h : Hands c sink t L log) : log.delivered.length ≤ L.length := by
  rcases Nat.eq_zero_or_pos log.delivered.length with hzero | hpos
  · rw [hzero]
    exact Nat.zero_le _
  · have hlast := List.getElem?_eq_getElem (show log.delivered.length - 1 < log.delivered.length by omega)
    obtain ⟨chosen, hchosen, -⟩ := h.entry _ _ hlast
    have hlt := (List.getElem?_eq_some_iff.mp hchosen).1
    omega

/-- One more trial. -/
theorem Hands.push {c : Campaign} {L : List (List (Target × Value))} {log : Record}
    (h : Hands c sink t L log) {chosen : List (Target × Value)} {d : Delivery}
    (hchosen : L[log.delivered.length]? = some chosen)
    (hd : Delivers c sink t (c.plan.firstTrial + .ofNat log.delivered.length) chosen d)
    (hallowed : ∀ m, c.plan.maxTrials = some m → log.delivered.length < m) :
    Hands c sink t L { log with delivered := log.delivered ++ [d] } where
  entry := by
    intro j d' hd'
    rw [List.getElem?_append] at hd'
    split at hd'
    · exact h.entry j d' hd'
    · rename_i hge
      obtain ⟨hlt, heq⟩ := List.getElem?_eq_some_iff.mp hd'
      have hj : j = log.delivered.length := by
        rw [List.length_singleton] at hlt
        omega
      subst hj
      have hsame : d = d' := by simpa using heq
      exact ⟨chosen, hchosen, hsame ▸ hd⟩
  allowed := by
    intro m hm
    rw [List.length_append, List.length_singleton]
    exact hallowed m hm

/-- As many as are allowed have been handed over if no more are allowed, or if there are no more. -/
theorem Hands.length_eq_allowance {c : Campaign} {L : List (List (Target × Value))} {log : Record}
    (h : Hands c sink t L log)
    (hfull : (∃ m, c.plan.maxTrials = some m ∧ m ≤ log.delivered.length) ∨ L.length ≤ log.delivered.length) :
    log.delivered.length = c.allowance L.length := by
  have hle := h.length_le
  unfold allowance
  cases hm : c.plan.maxTrials with
  | none =>
    obtain ⟨m, hm', -⟩ | hall := hfull
    · rw [hm] at hm'
      cases hm'
    · exact Nat.le_antisymm hle hall
  | some m =>
    have hallowed := h.allowed m hm
    rw [Option.elim_some]
    obtain ⟨m', hm', hlimit⟩ | hall := hfull
    · rw [hm] at hm'
      cases hm'
      omega
    · omega

namespace Progress

variable {c : Campaign} {L : List (List (Target × Value))} {chosen : List (Target × Value)}
  {rest : List (List (Target × Value))} {s s' : RunState (σ × Record)} {d : Delivery}

theorem start (c : Campaign) (s : σ) : Progress c sink t L (c.start (s, {}) t) where
  entry _ _ hd := by cases hd
  allowed m _ := Nat.zero_le m
  taken _ hd := by cases hd
  unfinished := rfl
  trials := rfl
  number := (UInt64.add_zero _).symm
  rests := .refl t
  uncached h := h

/-- The sink is handed the first of the choices that are left. -/
theorem hands (h : Progress c sink t L s) (hrest : L.drop s.sink.2.delivered.length = chosen :: rest)
    (htried : Tried c sink t chosen s d s') : Hands c sink t L s'.sink.2 := by
  rw [htried.log]
  refine h.toHands.push ?_ (h.number ▸ htried.delivers) (h.trials ▸ htried.allowed)
  have hhead := congrArg (·[0]?) hrest
  simpa using hhead

/-- If the sink takes the trial, the run goes on with the others. -/
theorem next (h : Progress c sink t L s) (hrest : L.drop s.sink.2.delivered.length = chosen :: rest)
    (htried : Tried c sink t chosen s d s') (htaken : d.result = .ok ()) (hnumber : s'.number = s.number + 1)
    (htrials : s'.report.trials = s.report.trials + 1) :
    Progress c sink t L s' ∧ L.drop s'.sink.2.delivered.length = rest := by
  have hlog := htried.log
  have hlength : s'.sink.2.delivered.length = s.sink.2.delivered.length + 1 := by
    rw [hlog, List.length_append, List.length_singleton]
  refine ⟨⟨h.hands hrest htried, fun d' hd' => ?_, ?_, ?_, ?_, htried.rests, fun _ => htried.uncached⟩, ?_⟩
  · rw [hlog] at hd'
    rcases List.mem_append.mp hd' with hd' | hd'
    · exact h.taken d' hd'
    · cases List.mem_singleton.mp hd'
      exact htaken
  · rw [hlog]
    exact h.unfinished
  · rw [htrials, hlength, h.trials]
  · rw [hnumber, h.number, hlength, UInt64.ofNat_add, ← UInt64.add_assoc]
    rfl
  · rw [hlength, ← List.tail_drop, hrest]
    rfl

end Progress

/-- A run hands over the choices of its schedule in order until the sink refuses one, as many as
are allowed. -/
theorem tryAll_delivers (c : Campaign) (hsel : Selected t targets) (hsink : sink.Asks)
    (s : σ) :
    wp (c.tryAll sink.recorded targets) (fun r s' =>
      Hands c sink t (c.schedule targets) s'.sink.2 ∧ match r with
        | .error (.failure e) => ∃ front d err, s'.sink.2.delivered = front ++ [d] ∧
          (∀ d ∈ front, d.result = .ok ()) ∧ d.result = .error err ∧ s'.sink.2.finished = false ∧
          e = .sink d.trial.number err
        | .error .limit | .ok _ => (∀ d ∈ s'.sink.2.delivered, d.result = .ok ()) ∧
          s'.sink.2.delivered.length = c.allowance (c.schedule targets).length ∧
          s'.report.trials = s'.sink.2.delivered.length ∧
          (s'.report.truncated = true ↔
            s'.sink.2.delivered.length < (c.schedule targets).length))
      (c.start (s, {}) t) := by
  refine (c.tryAll_rule
    (I := fun rest s => Progress c sink t (c.schedule targets) s ∧ s.report.truncated = false ∧
      (c.schedule targets).drop s.sink.2.delivered.length = rest)
    (Q := fun e s' => Hands c sink t (c.schedule targets) s'.sink.2 ∧ match e with
      | .failure e => ∃ front d err, s'.sink.2.delivered = front ++ [d] ∧
        (∀ d ∈ front, d.result = .ok ()) ∧ d.result = .error err ∧ s'.sink.2.finished = false ∧
        e = .sink d.trial.number err
      | .limit => (∀ d ∈ s'.sink.2.delivered, d.result = .ok ()) ∧
        s'.sink.2.delivered.length = c.allowance (c.schedule targets).length ∧
        s'.report.trials = s'.sink.2.delivered.length ∧ s'.report.truncated = true ∧
        s'.sink.2.delivered.length < (c.schedule targets).length)
    ?mark ?trial rfl ⟨.start c s, rfl, rfl⟩).mono ?ending
  case mark =>
    rintro rest s walked subsets ⟨h, hwhole, hrest⟩
    exact ⟨⟨h.toHands, h.taken, h.unfinished, h.trials, h.number, h.rests, h.uncached⟩, hwhole, hrest⟩
  case trial =>
    rintro chosen rest s ⟨h, hwhole, hrest⟩
    have hmem : chosen ∈ c.schedule targets :=
      List.mem_of_mem_drop (hrest ▸ List.mem_cons_self)
    refine (c.tryChoice_delivers hsel hsink (fun _ => mem_of_mem_scheduled hmem) h.rests
      h.uncached).mono ?_
    rintro ((_ | e) | _) s' hs'
    case error.limit =>
      obtain ⟨⟨m, hm, hle⟩, rfl⟩ := hs'
      have hlt : s.sink.2.delivered.length < (c.schedule targets).length := by
        have hrest := congrArg List.length hrest
        rw [List.length_drop, List.length_cons] at hrest
        omega
      exact ⟨h.toHands, h.taken, h.length_eq_allowance (.inl ⟨m, hm, h.trials ▸ hle⟩), h.trials, rfl, hlt⟩
    case error.failure =>
      obtain ⟨d, err, htried, hrefused, rfl⟩ := hs'
      refine ⟨h.hands hrest htried, s.sink.2.delivered, d, err, ?_, h.taken, hrefused, ?_, ?_⟩
      · rw [htried.log]
      · rw [htried.log]
        exact h.unfinished
      · rw [htried.delivers.trial]
    case ok =>
      obtain ⟨d, htried, htaken, hnumber, hreport⟩ := hs'
      obtain ⟨hnext, hrest⟩ := h.next hrest htried htaken hnumber (congrArg Report.trials hreport)
      exact ⟨hnext, (congrArg Report.truncated hreport).trans hwhole, hrest⟩
  case ending =>
    rintro ((_ | e) | _) s' hs'
    case error.limit =>
      obtain ⟨hhands, htaken, hlength, htrials, htruncated, hlt⟩ := hs'
      exact ⟨hhands, htaken, hlength, htrials, fun _ => hlt, fun _ => htruncated⟩
    case error.failure => exact hs'
    case ok =>
      obtain ⟨h, hwhole, hrest⟩ := hs'
      have hall : (c.schedule targets).length ≤ s'.sink.2.delivered.length := List.drop_eq_nil_iff.mp hrest
      refine ⟨h.toHands, h.taken, h.length_eq_allowance (.inr hall), h.trials, ?_⟩
      rw [hwhole]
      exact ⟨fun hfalse => absurd hfalse Bool.false_ne_true, fun hlt => absurd hall (Nat.not_le.mpr hlt)⟩

/-- What a run hands to its sink, and how it ends. -/
theorem run_delivers (c : Campaign) (hsel : Selected t targets)
    (hselect : c.targets.run t = (.ok targets, t)) (hsink : sink.Asks) (s : σ) :
    Hands c sink t (c.schedule targets) (c.record sink s t) ∧
      Ending c sink (c.schedule targets) (c.record sink s t) (c.run sink s t).1 := by
  have hall := c.tryAll_delivers hsel hsink s
  rw [c.run_recorded sink s {} t]
  unfold record run
  rw [hselect]
  unfold wp start at hall
  dsimp only at hall ⊢
  generalize (c.tryAll sink.recorded targets).run
    { tree := t, sink := (s, {}), number := c.plan.firstTrial } = out at hall ⊢
  obtain ⟨(_ | e) | _, s'⟩ := out
  case error.failure =>
    obtain ⟨hhands, front, d, err, hdelivered, htaken, hrefused, hunfinished, rfl⟩ := hall
    exact ⟨hhands, .refused front d err hdelivered htaken hrefused hunfinished⟩
  all_goals
    obtain ⟨hhands, htaken, hlength, htrials, htruncated⟩ := hall
    exact ⟨⟨hhands.entry, hhands.allowed⟩,
      .complete s'.sink.1 s'.report htaken hlength htrials htruncated⟩

end Campaign

-- ---------------------------------------------------------------------------
-- Selection
-- ---------------------------------------------------------------------------

namespace Selection

variable {t : Tree}

theorem mapM_ok {α β : Type} {xs : List α} {f : α → TreeM β}
    (h : ∀ x ∈ xs, wp (f x) (fun r t' => (∃ b, r = .ok b) ∧ t' = t) t) :
    wp (xs.mapM f) (fun r t' => (∃ bs, r = .ok bs) ∧ t' = t) t := by
  induction xs with
  | nil => exact ⟨⟨[], rfl⟩, rfl⟩
  | cons x rest ih =>
    rw [List.mapM_cons, wp.bind]
    refine (h x List.mem_cons_self).mono ?_
    rintro _ _ ⟨⟨b, rfl⟩, rfl⟩
    dsimp only
    rw [wp.bind]
    refine (ih fun y hy => h y (List.mem_cons_of_mem _ hy)).mono ?_
    rintro _ _ ⟨⟨bs, rfl⟩, rfl⟩
    exact ⟨⟨b :: bs, rfl⟩, rfl⟩

/-- Where all groups are ready, a node is left out, gives a target of its own, or those of its children. -/
theorem targetsAt_settled {patches : Patches} {filler : UInt8} {root id : NodeId} {depth : Nat} {n : Node}
    {name : String} {Q : Except TreeError (List Target) → Tree → Prop} (hs : t.Settled)
    (hn : t.node? id = some n) (hname : t.fullName id = .ok name)
    (hskip : (effectiveOptions patches name n.fuzz).enabled = false → id ≠ root → Q (.ok []) t)
    (hleaf : ∀ kind, n.kind = .leaf kind →
      ((effectiveOptions patches name n.fuzz).enabled = false → id = root) →
      Q (.ok [⟨id, name, n.cell,
        Candidates.ofLeaf (effectiveOptions patches name n.fuzz) filler kind⟩]) t)
    (hbelow : n.kind.isLeaf = false →
      ((effectiveOptions patches name n.fuzz).enabled = false → id = root) →
      wp (do return (← n.children.mapM (targetsAt patches filler root depth)).flatten) Q t) :
    wp (targetsAt patches filler root (depth + 1) id) Q t := by
  unfold targetsAt
  rw [wp.bind, wp.look, hname]
  dsimp only
  rw [wp.bind, wp.look, Tree.options, Tree.look_of_node? hn]
  dsimp only
  split
  · rename_i hout
    rw [Bool.and_eq_true, Bool.not_eq_true', decide_eq_true_iff] at hout
    exact hskip hout.1 hout.2
  · rename_i hin
    have hgo : (effectiveOptions patches name n.fuzz).enabled = false → id = root := by
      intro hdisabled
      by_contra hne
      simp [hdisabled, hne] at hin
    rw [wp.bind, wp.look, Tree.isGroup, Tree.look_of_node? hn]
    dsimp only
    cases hrep : n.kind.isRepeated
    case' false => rw [if_neg Bool.false_ne_true]
    case' true =>
      have hgroup : t.isGroup id = .ok true := by
        rw [Tree.isGroup, Tree.look_of_node? hn, hrep]
      rw [if_pos rfl, wp.bind]
      refine (Tree.touch_ok hs hgroup).mono ?_
      rintro _ _ ⟨rfl, rfl⟩
      dsimp only
    all_goals
      rw [wp.bind, wp.look, Tree.node_eq_ok.mpr hn]
      dsimp only
      cases hk : n.kind with
      | leaf kind => exact hleaf kind hk hgo
      | composite => exact hbelow (by rw [hk]; rfl) hgo
      | repeated g => exact hbelow (by rw [hk]; rfl) hgo

/-- Selecting from a live node cannot fail if all groups are ready. The nodes above it, `ids`, are not
met again, which bounds the depth by the weight of the others. -/
theorem targetsAt_ok (hwf : t.WellFormed) (hs : t.Settled) (patches : Patches) (filler : UInt8)
    (root : NodeId) (depth : Nat) {ids : List NodeId} {id : NodeId} (hlive : t.isLive id = true)
    (habove : ∀ x ∈ ids, x.index < id.index) (hdepth : (t.without ids).weight < depth) :
    wp (targetsAt patches filler root depth id) (fun r t' => (∃ targets, r = .ok targets) ∧ t' = t)
      t := by
  induction depth generalizing id ids with
  | zero => omega
  | succ depth ih =>
    obtain ⟨n, hn⟩ := Tree.isLive_iff_node?.mp hlive
    obtain ⟨name, hname⟩ := Tree.fullName_ok hwf hn
    have hnot : id ∉ ids := fun hid => Nat.lt_irrefl _ (habove id hid)
    have hweight := Tree.total_without Node.weight hn hnot
    have hpos := n.one_le_weight
    have hbelow : wp (do
        return (← n.children.mapM (targetsAt patches filler root depth)).flatten :
        TreeM (List Target)) (fun r t' => (∃ targets, r = .ok targets) ∧ t' = t) t := by
      rw [wp.bind]
      refine (mapM_ok fun c hc => @ih (id :: ids) c ?_ ?_ ?_).mono ?_
      · obtain ⟨-, m, hm, -⟩ := hwf.child hn hc
        exact Tree.isLive_iff_node?.mpr ⟨m, hm⟩
      · intro x hx
        have hlt := (hwf.child hn hc).1
        rcases List.mem_cons.mp hx with rfl | hx
        · exact hlt
        · exact (habove x hx).trans hlt
      · unfold Tree.weight at hdepth ⊢
        omega
      · rintro _ _ ⟨⟨parts, rfl⟩, rfl⟩
        exact ⟨⟨parts.flatten, rfl⟩, rfl⟩
    exact targetsAt_settled hs hn hname (fun _ _ => ⟨⟨[], rfl⟩, rfl⟩) (fun _ _ _ => ⟨⟨_, rfl⟩, rfl⟩)
      fun _ _ => hbelow

end Selection

namespace Campaign

open FormatFuzz.Tree (Reaches)

variable {t t₁ : Tree} {targets : List Target}

theorem selected_of_run (hwf : t.WellFormed) (hs : t.Settled) (c : Campaign)
    (hselect : c.targets.run t = (.ok targets, t₁)) :
    c.targets.run t = (.ok targets, t) ∧ Selected t targets := by
  obtain ⟨rfl, hsaved⟩ := (c.targets_settled hs).of_run hselect
  have hapart := (Selection.targetsAt_nodup c.patches c.plan.filler c.root _ c.root t₁).of_run hselect
  exact ⟨hselect, hs, hsaved targets rfl, (hapart.2 hwf targets rfl).1⟩

/-- A run over a tree whose groups are ready selects its targets, if its root is live. -/
theorem exists_selected (hwf : t.WellFormed) (hs : t.Settled) (c : Campaign)
    (hroot : t.isLive c.root = true) :
    ∃ targets, c.targets.run t = (.ok targets, t) ∧ Selected t targets := by
  have hnone : ∀ x ∈ ([] : List NodeId), x.index < c.root.index := fun _ hx => by cases hx
  have hok := Selection.targetsAt_ok hwf hs c.patches c.plan.filler c.root
    (nestingReserve + t.weight) hroot hnone (Nat.lt_add_of_pos_left (Nat.two_pow_pos 32))
  unfold wp at hok
  obtain ⟨⟨targets, htargets⟩, ht⟩ := hok
  have hrun : c.targets.run t = (.ok targets, t) := Prod.ext htargets ht
  exact ⟨targets, c.selected_of_run hwf hs hrun⟩

/-- A run that selects nothing hands nothing over. -/
theorem record_of_error (c : Campaign) (sink : Sink σ) (s : σ) {e : TreeError}
    (hselect : c.targets.run t = (.error e, t₁)) : c.record sink s t = {} := by
  unfold record run
  rw [hselect]

end Campaign

end FormatFuzz
