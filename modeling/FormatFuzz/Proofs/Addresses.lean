-- SUMMARY: The full name of a node is a path that leads to it, and to no other node.
import FormatFuzz.Proofs.Reachable
import FormatFuzz.Proofs.Spelling
import FormatFuzz.Proofs.Ties

/-!
# Addresses

A node's full name is put together on the way up, and a path is followed on the way down. What they have in
common is the address of a position (`Template.Address`): the fields on the way to it, with the indices of
the elements behind each. The full name is the address as it is written (`Template.Address.fullName`), and
following the address leads to the node (`Template.Address.leads`). If composites have one field of a name
each, and all names are legible, that makes the full name a path to the node
(`Tree.Reaches.lookup_fullName`).
-/

namespace FormatFuzz

open TreeM

-- ---------------------------------------------------------------------------
-- Templates that are built step by step
-- ---------------------------------------------------------------------------

namespace Template

/-- Templates that are made of new ones by adding fields and setting options. -/
inductive Built : Template → Prop where
  | int (name : String) (packing : Packing) : Built (.int name packing)
  | string (name : String) : Built (.string name)
  | boolean (name : String) : Built (.boolean name)
  | custom (name : String) (codec : Codec) : Built (.custom name codec)
  | ofFields (name : String) : Built (.ofFields name)
  | group {element : Template} (name : String) (rule : Multiplicity) : Built element →
      Built (.group name element rule)
  | addField {σ field : Template} : Built σ → Built field → Built (σ.addField field)
  | mapHeader {σ : Template} {f : Header → Header} : (∀ h, (f h).name = h.name) → Built σ →
      Built (σ.mapHeader f)
  | mapInt {σ : Template} (f : IntField → IntField) : Built σ → Built (σ.mapInt f)
  | mapStr {σ : Template} (f : TextField → TextField) : Built σ → Built (σ.mapStr f)

/-- A composite has one field of a name at most. -/
def NamesApart : Template → Prop
  | .composite _ fields => (fields.map (·.name)).Nodup
  | _ => True

/-- The fields of a composite have names that can stand in a path. -/
def Legible : Template → Prop
  | .composite _ fields => ∀ field ∈ fields, Path.Legible field.name
  | _ => True

instance : (σ : Template) → Decidable σ.Legible
  | .composite _ fields => inferInstanceAs (Decidable (∀ field ∈ fields, Path.Legible field.name))
  | .leaf .. | .repeated .. => inferInstanceAs (Decidable True)

variable {τ σ field : Template} {P : Template → Prop} {p : Position} {i : Nat}

theorem everyField_iff {τs : List Template} : EveryField P τs ↔ ∀ τ ∈ τs, τ.Every P := by
  induction τs with
  | nil => simp [EveryField]
  | cons τ rest ih => simp [EveryField, ih]

theorem mem_putField {fields : List Template} {τ : Template} (h : τ ∈ putField field fields) :
    τ = field ∨ τ ∈ fields := by
  induction fields with
  | nil => exact .inl (List.mem_singleton.mp h)
  | cons other rest ih =>
    rw [putField] at h
    split at h
    · exact (List.mem_cons.mp h).imp_right (List.mem_cons_of_mem _)
    · rcases List.mem_cons.mp h with rfl | h
      · exact .inr List.mem_cons_self
      · exact (ih h).imp_right (List.mem_cons_of_mem _)

theorem nodup_putField {fields : List Template} (h : (fields.map (·.name)).Nodup) :
    ((putField field fields).map (·.name)).Nodup := by
  induction fields with
  | nil => exact List.nodup_singleton _
  | cons other rest ih =>
    rw [putField]
    split
    · rename_i hname
      rwa [List.map_cons, ← hname]
    · rename_i hname
      rw [List.map_cons, List.nodup_cons] at h ⊢
      refine ⟨fun hmem => ?_, ih h.2⟩
      obtain ⟨τ, hτ, heq⟩ := List.mem_map.mp hmem
      rcases mem_putField hτ with rfl | hτ
      · exact hname heq.symm
      · exact h.1 (heq ▸ List.mem_map_of_mem hτ)

/-- Fields that are added one by one have names of their own. -/
theorem Built.namesApart (h : τ.Built) : τ.Every NamesApart := by
  induction h with
  | int => trivial
  | string => trivial
  | boolean => trivial
  | custom => trivial
  | ofFields => exact ⟨List.nodup_nil, trivial⟩
  | group name rule _ ih => exact ⟨trivial, ih⟩
  | @addField σ field _ _ ih ihfield =>
    cases σ with
    | leaf h kind => exact ih
    | repeated h element rule => exact ih
    | composite h fields =>
      refine ⟨nodup_putField ih.1, everyField_iff.mpr fun τ hτ => ?_⟩
      rcases mem_putField hτ with rfl | hτ
      · exact ihfield
      · exact everyField_iff.mp ih.2 τ hτ
  | @mapHeader σ f _ _ ih => cases σ <;> exact ih
  | @mapInt σ f _ ih =>
    cases σ with
    | leaf h kind => cases kind <;> trivial
    | composite h fields => exact ih
    | repeated h element rule => exact ih
  | @mapStr σ f _ ih =>
    cases σ with
    | leaf h kind => cases kind <;> trivial
    | composite h fields => exact ih
    | repeated h element rule => exact ih

/-- A field is found by its name. -/
theorem findIdx?_of_nodup {fields : List Template} (h : (fields.map (·.name)).Nodup)
    (hi : fields[i]? = some field) : fields.findIdx? (·.name = field.name) = some i := by
  induction fields generalizing i with
  | nil => cases hi
  | cons other rest ih =>
    rw [List.map_cons, List.nodup_cons] at h
    rw [List.findIdx?_cons]
    cases i with
    | zero =>
      cases hi
      simp
    | succ i =>
      have hmem : field.name ∈ rest.map (·.name) := List.mem_map_of_mem (List.mem_of_getElem? hi)
      have hne : other.name ≠ field.name := fun heq => h.1 (heq ▸ hmem)
      simp [hne, ih h.2 hi]

-- ---------------------------------------------------------------------------
-- Addresses
-- ---------------------------------------------------------------------------

/-- The address of a position, innermost step first: a field opens a step, and an element of a group adds
its index to the step that led to the group. -/
inductive Address (τ : Template) : Position → List (String × List Nat) → Prop where
  | root : Address τ [] []
  | field {p : Position} {i : Nat} {h : Header} {fields : List Template} {own : String} {field : Template}
      {steps : List (String × List Nat)} : τ.partAt p = some (.composite h fields, own) →
      fields[i]? = some field → Address τ p steps → Address τ (i :: p) ((field.name, []) :: steps)
  | element {p : Position} {i : Nat} {h : Header} {element : Template} {rule : Multiplicity}
      {own name : String} {indices : List Nat} {steps : List (String × List Nat)} :
      τ.partAt p = some (.repeated h element rule, own) → Address τ p ((name, indices) :: steps) →
      Address τ (i :: p) ((name, indices ++ [i]) :: steps)

namespace Address

variable {name own : String} {indices : List Nat} {step : String × List Nat}
  {steps : List (String × List Nat)}

theorem exists_cons (h : τ.Address (i :: p) steps) : ∃ name indices rest,
    steps = (name, indices) :: rest := by
  cases h with
  | field _ _ _ => exact ⟨_, _, _, rfl⟩
  | element _ _ => exact ⟨_, _, _, rfl⟩

/-- The nodes at a position have the last step of its address for a name. -/
theorem name_eq (h : τ.Address p ((name, indices) :: steps)) (hpart : τ.partAt p = some (σ, own)) :
    own = Path.spell name indices := by
  generalize hsteps : (name, indices) :: steps = all at h
  induction h generalizing σ own name indices steps with
  | root => cases hsteps
  | field habove hi _ _ =>
    cases hsteps
    simp only [partAt, habove, Option.bind_some, part, hi, Option.map_some] at hpart
    cases hpart
    rfl
  | element habove _ ih =>
    cases hsteps
    simp only [partAt, habove, Option.bind_some, part] at hpart
    cases hpart
    rw [ih habove rfl, Path.spell, Path.spell, List.foldl_append]
    rfl

theorem legible (h : τ.Address p steps) (hτ : τ.Every Legible) (hmem : step ∈ steps) :
    Path.Legible step.1 := by
  induction h generalizing step with
  | root => cases hmem
  | field habove hi _ ih =>
    rcases List.mem_cons.mp hmem with rfl | hmem
    · exact (hτ.partAt habove).1 _ (List.mem_of_getElem? hi)
    · exact ih hmem
  | element _ _ ih =>
    rcases List.mem_cons.mp hmem with rfl | hmem
    · have hgroup := ih List.mem_cons_self
      exact hgroup
    · exact ih (List.mem_cons_of_mem _ hmem)

end Address

/-- In a template whose root is a composite, every position that there is has an address. -/
theorem exists_address (hroot : τ.isComposite = true) {name : String} (hpart : τ.partAt p = some (σ, name)) :
    ∃ steps, τ.Address p steps := by
  induction p generalizing σ name with
  | nil => exact ⟨[], .root⟩
  | cons i p ih =>
    obtain ⟨⟨σ', own⟩, habove, hpart⟩ := Option.bind_eq_some_iff.mp hpart
    obtain ⟨steps, hsteps⟩ := ih habove
    cases σ' with
    | leaf h kind => cases hpart
    | composite h fields =>
      obtain ⟨field, hi, -⟩ := Option.map_eq_some_iff.mp hpart
      exact ⟨_, .field habove hi hsteps⟩
    | repeated h element rule =>
      cases p with
      | nil =>
        cases habove
        cases hroot
      | cons j p =>
        obtain ⟨name, indices, rest, rfl⟩ := hsteps.exists_cons
        exact ⟨_, .element habove hsteps⟩

end Template

-- ---------------------------------------------------------------------------
-- Nodes by their addresses
-- ---------------------------------------------------------------------------

theorem Tree.length_children_le {t : Tree} {id : NodeId} {n : Node} (hwf : t.WellFormed)
    (hn : t.node? id = some n) : n.children.length ≤ t.nodes.size := by
  have hsubset : n.children ⊆ (List.range t.nodes.size).map NodeId.mk := by
    intro c hc
    obtain ⟨-, m, hm, -⟩ := hwf.child hn hc
    exact List.mem_map.mpr ⟨c.index, List.mem_range.mpr (Tree.lt_size hm), rfl⟩
  have hle := (List.subperm_of_subset (hwf.nodup_children hn) hsubset).length_le
  rwa [List.length_map, List.length_range] at hle

/-- In a settled tree, the element of a group is picked by its index. -/
theorem Tree.pickWith_placed {t : Tree} {i : Nat} {group id : NodeId} {n : Node}
    {init : NodeId → TreeM Unit} (hs : t.Settled) (failure : Tree → TreeError)
    (hn : t.node? group = some n) (hrepeated : n.kind.isRepeated = true) (hi : n.children[i]? = some id) :
    wp (pickWith init failure group i) (fun r t' => r = .ok id ∧ t' = t) t := by
  obtain ⟨g, hk⟩ := NodeKind.isRepeated_iff.mp hrepeated
  have hgroup : t.group group = .ok g := Tree.group_eq_ok.mpr ⟨n, hn, hk⟩
  unfold pickWith touchWith
  simp only [wp.bind, wp.look, Tree.isGroup, Tree.children, Tree.look_of_node? hn, hrepeated, if_true, hgroup,
    hs.group hgroup, wp.pure, hi]
  exact ⟨trivial, trivial⟩

/-- The last index of a step picks an element of where the step leads without it. -/
theorem stepWith_concat (init : NodeId → TreeM Unit) (failure : Tree → TreeError) (id : NodeId)
    (name : String) (indices : List Nat) (i : Nat) :
    stepWith init failure id (.descend name (indices ++ [i])) =
      stepWith init failure id (.descend name indices) >>= fun group => pickWith init failure group i := by
  unfold stepWith
  simp only [List.foldlM_append, List.foldlM_cons, List.foldlM_nil, bind_pure]
  split
  · simp only [pure_bind]
  · rw [bind_assoc]
    refine bind_congr fun child => ?_
    cases child with
    | none => exact wp.ext fun Q t => by simp only [wp.bind, wp.get, wp.throw]
    | some child => simp only [pure_bind]

namespace Template.Address

variable {C : Cell → Prop} {τ : Template} {t : Tree} {id : NodeId} {n : Node} {p : Position}
  {name : String} {indices : List Nat} {steps : List (String × List Nat)}

/-- The indices in the address of a node are those of elements. -/
theorem index_lt (h : τ.Address p steps) (hwf : t.WellFormed) (hp : t.placed p = some id)
    {step : String × List Nat} (hmem : step ∈ steps) {i : Nat} (hi : i ∈ step.2) : i < t.nodes.size := by
  induction h generalizing id step with
  | root => cases hmem
  | field _ _ _ ih =>
    obtain ⟨above, m, hpa, -, -⟩ := Tree.placed_cons.mp hp
    rcases List.mem_cons.mp hmem with rfl | hmem
    · cases hi
    · exact ih hpa hmem hi
  | element _ _ ih =>
    obtain ⟨above, m, hpa, hm, hchild⟩ := Tree.placed_cons.mp hp
    rcases List.mem_cons.mp hmem with rfl | hmem
    · rcases List.mem_append.mp hi with hi | hi
      · exact ih hpa List.mem_cons_self hi
      · rw [List.mem_singleton.mp hi]
        exact Nat.lt_of_lt_of_le (List.getElem?_eq_some_iff.mp hchild).1 (Tree.length_children_le hwf hm)
    · exact ih hpa (List.mem_cons_of_mem _ hmem) hi

section

variable (hwf : t.WellFormed) (hm : t.Models C τ τ.name t.root)

include hwf hm

/-- The address of a node leads to it from the root, if fields are found by their names. -/
theorem leads {init : NodeId → TreeM Unit} {failure : Tree → TreeError} (h : τ.Address p steps)
    (hs : t.Settled) (hapart : τ.Every NamesApart) (hlegible : τ.Every Legible) (hp : t.placed p = some id) :
    wp ((steps.reverse.map fun s => Step.descend s.1 s.2).foldlM (stepWith init failure) t.root)
      (fun r t' => r = .ok id ∧ t' = t) t := by
  induction h generalizing id with
  | root =>
    cases hp
    exact ⟨rfl, rfl⟩
  | @field p i h fields own field steps habove hi haddress ih =>
    obtain ⟨above, m, hpa, -, -⟩ := Tree.placed_cons.mp hp
    have hfield : τ.followStep p (.descend field.name []) = some (i :: p) := by
      have hne : field.name ≠ "" := ((hlegible.partAt habove).1 _ (List.mem_of_getElem? hi)).ne_empty
      have hfound := findIdx?_of_nodup (hapart.partAt habove).1 hi
      simp [followStep, descend, habove, hne, hfound]
    simp only [List.reverse_cons, List.map_append, List.map_cons, List.map_nil, List.foldlM_append,
      List.foldlM_cons, List.foldlM_nil, bind_pure, wp.bind]
    refine (ih hpa).mono ?_
    rintro _ t ⟨rfl, rfl⟩
    have hdirect : (Step.descend field.name []).Direct := rfl
    refine (Tree.stepWith_direct hwf hm failure hpa hdirect hfield).mono ?_
    rintro _ t ⟨rfl, x, rfl, hx⟩
    rw [hp] at hx
    cases hx
    exact ⟨rfl, rfl⟩
  | @element p i h element rule own name indices steps habove haddress ih =>
    obtain ⟨above, m, hpa, hma, hi⟩ := Tree.placed_cons.mp hp
    obtain ⟨σ, own', hpart, hmodels⟩ := hm.placed hpa
    rw [habove] at hpart
    cases hpart
    have ih := ih hpa
    simp only [List.reverse_cons, List.map_append, List.map_cons, List.map_nil, List.foldlM_append,
      List.foldlM_cons, List.foldlM_nil, bind_pure, wp.bind, stepWith_concat] at ih ⊢
    refine ih.mono fun r t₁ h => ?_
    cases r with
    | error e => cases h.1
    | ok base =>
      refine wp.mono h ?_
      rintro _ t ⟨rfl, rfl⟩
      exact Tree.pickWith_placed hs failure hma (hmodels.kind hma).2 hi

/-- The names on the way up from a node, by the part of the template that the node above is made from. -/
theorem exists_above {i : Nat} {σ : Template} {own : String} (hpart : τ.partAt p = some (σ, own))
    (hp : t.placed (i :: p) = some id) (hn : t.node? id = some n) :
    ∃ above m, t.placed p = some above ∧ t.node? above = some m ∧ ∀ fuel, t.namesAbove (fuel + 1) n.parent =
      if m.parent.isNone then .ok [] else do
        let names ← t.namesAbove fuel m.parent
        return if σ.isRepeated then names else own :: names := by
  obtain ⟨above, m, hpa, hma, hi⟩ := Tree.placed_cons.mp hp
  obtain ⟨σ', own', hpart', hmodels⟩ := hm.placed hpa
  rw [hpart] at hpart'
  cases hpart'
  obtain ⟨m', hm', hbears⟩ := hmodels.live
  rw [hma] at hm'
  cases hm'
  refine ⟨above, m, hpa, hma, fun fuel => ?_⟩
  rw [hwf.parent_of_mem hma (List.mem_of_getElem? hi) hn, Tree.namesAbove, Tree.node_eq_ok.mpr hma, ok_bind,
    (hmodels.kind hma).2, hbears.name]
  rfl

/-- On the way up from a node are the steps of its address but the last. -/
theorem namesAbove (h : τ.Address p ((name, indices) :: steps)) (hp : t.placed p = some id)
    (hn : t.node? id = some n) {fuel : Nat} (hfuel : p.length ≤ fuel) :
    t.namesAbove fuel n.parent = .ok (steps.map fun s => Path.spell s.1 s.2) := by
  generalize hsteps : (name, indices) :: steps = all at h
  induction h generalizing id n name indices steps fuel with
  | root => cases hsteps
  | @field p i _ _ _ _ _ habove _ haddress ih =>
    cases hsteps
    obtain ⟨fuel, rfl⟩ : ∃ f, fuel = f + 1 := ⟨fuel - 1, by rw [List.length_cons] at hfuel; omega⟩
    obtain ⟨above, m, hpa, hma, hnames⟩ := exists_above hwf hm habove hp hn
    rw [hnames]
    cases p with
    | nil =>
      cases haddress
      cases hpa
      obtain ⟨root, hroot, hnone⟩ := hwf.root
      rw [hma] at hroot
      cases hroot
      rw [hnone]
      rfl
    | cons j p =>
      obtain ⟨name, indices, rest, rfl⟩ := haddress.exists_cons
      obtain ⟨grand, l, -, hl, hj⟩ := Tree.placed_cons.mp hpa
      rw [ih hpa hma (Nat.le_of_succ_le_succ hfuel) rfl, hwf.parent_of_mem hl (List.mem_of_getElem? hj) hma,
        haddress.name_eq habove]
      rfl
  | @element p i _ _ _ _ _ _ _ habove haddress ih =>
    cases hsteps
    obtain ⟨fuel, rfl⟩ : ∃ f, fuel = f + 1 := ⟨fuel - 1, by rw [List.length_cons] at hfuel; omega⟩
    obtain ⟨above, m, hpa, hma, hnames⟩ := exists_above hwf hm habove hp hn
    rw [hnames]
    cases p with
    | nil => cases haddress
    | cons j p =>
      obtain ⟨grand, l, -, hl, hj⟩ := Tree.placed_cons.mp hpa
      rw [ih hpa hma (Nat.le_of_succ_le_succ hfuel) rfl, hwf.parent_of_mem hl (List.mem_of_getElem? hj) hma]
      rfl

/-- The full name of a node is its address as it is written. -/
theorem fullName (h : τ.Address p steps) (hne : steps ≠ []) (hp : t.placed p = some id) :
    t.fullName id = .ok (".".intercalate (steps.reverse.map fun s => Path.spell s.1 s.2)) := by
  obtain ⟨⟨name, indices⟩, steps, rfl⟩ := List.exists_cons_of_ne_nil hne
  obtain ⟨σ, own, hpart, hmodels⟩ := hm.placed hp
  obtain ⟨n, hn, hbears⟩ := hmodels.live
  have hfuel : p.length ≤ id.index + 1 := Nat.le_succ_of_le (Tree.length_le_index hwf hp)
  rw [Tree.fullName, Tree.node_eq_ok.mpr hn, ok_bind, h.namesAbove hwf hm hp hn hfuel, ok_bind, hbears.name,
    h.name_eq hpart, List.map_reverse]
  rfl

end

end Template.Address

namespace Tree

variable {allowed : Tree → Call → Prop} {τ : Template} {seed : UInt64} {t₀ t : Tree} {id : NodeId}

/-- An address that is written as a path leads to its node. -/
theorem lookup_address {C : Cell → Prop} {p : Position} {steps : List (String × List Nat)}
    (hwf : t.WellFormed) (hm : t.Models C τ τ.name t.root) (hs : t.Settled)
    (hsize : t.nodes.size ≤ Path.indexLimit) (hapart : τ.Every Template.NamesApart)
    (hlegible : τ.Every Template.Legible) (h : τ.Address p steps) (hp : t.placed p = some id) :
    (lookup (".".intercalate (steps.reverse.map fun s => Path.spell s.1 s.2))).run t = (.ok id, t) := by
  have hlegibles : ∀ s ∈ steps.reverse, Path.Legible s.1 ∧ ∀ i ∈ s.2, i < Path.indexLimit := fun s hmem =>
    ⟨h.legible hlegible (List.mem_reverse.mp hmem),
      fun i hi => Nat.lt_of_lt_of_le (h.index_lt hwf hp (List.mem_reverse.mp hmem) hi) hsize⟩
  have hread := Path.parse_spelled hlegibles
  obtain ⟨n, hn, -⟩ := hwf.root
  suffices hwp : wp (lookup (".".intercalate (steps.reverse.map fun s => Path.spell s.1 s.2)))
      (fun r t' => r = .ok id ∧ t' = t) t from Prod.ext hwp.1 hwp.2
  unfold lookup find findWith
  simp only [wp.bind, wp.get, wp.look, hread, Bool.false_eq_true, if_false, node_eq_ok.mpr hn]
  exact h.leads hwf hm hs hapart hlegible hp

/-- Whatever has been done to a tree, while all its groups are ready and its places fit in a machine word: if
its template is a composite that has been built step by step, and the names of all fields are legible, then
the full name of every node but the root leads to it and changes nothing on the way. So no two of these
nodes have the same. -/
theorem Reaches.lookup_fullName (hbuilt : τ.Built) (hroot : τ.isComposite = true)
    (hlegible : τ.Every Template.Legible) (hbuild : build τ seed = .ok t₀) (h : Reaches allowed t₀ t)
    (hs : t.Settled) (hsize : t.nodes.size ≤ Path.indexLimit) (hlive : t.isLive id = true)
    (hne : id ≠ t.root) :
    ∃ name, t.fullName id = .ok name ∧ (lookup name).run t = (.ok id, t) ∧
      ∀ id', t.isLive id' = true → id' ≠ t.root → t.fullName id' = .ok name → id' = id := by
  have hwf : t.WellFormed := h.wellFormed hbuild
  have hm := h.models hbuild
  have hfound : ∀ {id}, t.isLive id = true → id ≠ t.root →
      ∃ name, t.fullName id = .ok name ∧ (lookup name).run t = (.ok id, t) := by
    intro id hlive hne
    obtain ⟨n, hn⟩ := isLive_iff_node?.mp hlive
    obtain ⟨p, hp⟩ := exists_position hwf hn
    obtain ⟨σ, own, hpart, -⟩ := hm.placed hp
    obtain ⟨steps, haddress⟩ := Template.exists_address hroot hpart
    have hsteps : steps ≠ [] := by
      rintro rfl
      cases haddress
      exact hne (Option.some.inj hp).symm
    exact ⟨_, haddress.fullName hwf hm hsteps hp,
      lookup_address hwf hm hs hsize hbuilt.namesApart hlegible haddress hp⟩
  obtain ⟨name, hname, hlookup⟩ := hfound hlive hne
  refine ⟨name, hname, hlookup, fun id' hlive' hne' hname' => ?_⟩
  obtain ⟨name', hname'', hlookup'⟩ := hfound hlive' hne'
  rw [hname'] at hname''
  cases hname''
  rw [hlookup] at hlookup'
  cases hlookup'
  rfl

/-- A title, and groups of flags in a group. -/
def booklet : Template :=
  (((Template.ofFields "booklet").addField (.hide (.boolean "title"))).addField
    (.group "pages" (.group "page" ((Template.ofFields "map").addField (.boolean "flag")) (.fixed 1))
      (.fixed 1)))

theorem Reaches.lookup_fullName_booklet : ∃ t₀, build booklet 7 = .ok t₀ ∧
    let t := (Call.resize ⟨2⟩ 2).run t₀
    t.Settled ∧ t.fullName ⟨11⟩ = .ok "pages[1][0].flag" ∧
      (lookup "pages[1][0].flag").run t = (.ok ⟨11⟩, t) := by
  have hchecked : (build booklet 7).toOption.any (fun t₀ =>
      let t := (Call.resize ⟨2⟩ 2).run t₀
      t.nodes.all (·.all fun n => n.kind.group?.all (·.phase = .ready)) = true ∧
        t.nodes.size ≤ Path.indexLimit ∧ t.isLive ⟨11⟩ = true ∧ (⟨11⟩ : NodeId) ≠ t.root ∧
        t.fullName ⟨11⟩ = .ok "pages[1][0].flag") = true := by
    decide +kernel
  obtain ⟨t₀, hbuild, hchecked⟩ := exists_build hchecked
  obtain ⟨hready, hsize, hlive, hne, hname⟩ := of_decide_eq_true hchecked
  have hbuilt : booklet.Built :=
    .addField (.addField (.ofFields "booklet") (.mapHeader (fun _ => rfl) (.boolean "title")))
      (.group "pages" _ (.group "page" _ (.addField (.ofFields "map") (.boolean "flag"))))
  have hlegible : booklet.Every Template.Legible :=
    ⟨by decide +kernel, trivial, ⟨trivial, trivial, by decide +kernel, trivial, trivial⟩, trivial⟩
  have hreach : Reaches (fun _ _ => True) t₀ ((Call.resize ⟨2⟩ 2).run t₀) :=
    .call (.resize ⟨2⟩ 2) (.refl t₀) trivial
  have hs := Settled.of_all hready
  obtain ⟨name, hname', hlookup, -⟩ :=
    Reaches.lookup_fullName hbuilt rfl hlegible hbuild hreach hs hsize hlive hne
  rw [hname] at hname'
  cases hname'
  exact ⟨t₀, hbuild, hs, hname, hlookup⟩

end Tree

end FormatFuzz
