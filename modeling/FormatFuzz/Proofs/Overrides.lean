-- SUMMARY: Fields added to a composite form an ordered map: one for each name, where the name came first.
import FormatFuzz.Field.Template
import FormatFuzz.Proofs.FirstOccurrences

/-!
# Overrides

A derived layout adds fields to those of a base layout, and a field of a name that is there already takes the
place of the old one. However many fields are added, and however often a name is repeated among them, the
fields stay an ordered map (`Template.addField_collects`): the names are distinct and stand in the order in
which they first came, and under each name is the field that came last.
-/

namespace FormatFuzz.Template

variable {x y f g : Template} {fs fields added : List Template} {n : String}

-- ---------------------------------------------------------------------------
-- One field
-- ---------------------------------------------------------------------------

/-- A new name comes last, and a known one keeps its place. -/
theorem names_putField (f : Template) (fs : List Template) :
    (putField f fs).map name =
      if f.name ∈ fs.map name then fs.map name else fs.map name ++ [f.name] := by
  induction fs with
  | nil => simp [putField]
  | cons other rest ih =>
    rw [putField]
    by_cases h : other.name = f.name
    · simp [h]
    · have hne : ¬ f.name = other.name := fun e => h e.symm
      simp only [if_neg h, List.map_cons, ih, List.mem_cons, hne, false_or]
      split <;> rfl

/-- The other fields are those that are not of the same name. -/
theorem mem_putField_iff (hnodup : (fs.map name).Nodup) :
    g ∈ putField f fs ↔ g = f ∨ (g ∈ fs ∧ g.name ≠ f.name) := by
  induction fs with
  | nil => simp [putField]
  | cons other rest ih =>
    obtain ⟨hnot, hnodup⟩ := List.nodup_cons.mp hnodup
    rw [putField]
    split
    · next h =>
      have hrest : g ∈ rest → g.name ≠ f.name := fun hg e => hnot (h ▸ e ▸ List.mem_map_of_mem hg)
      constructor
      · rintro (_ | ⟨_, hg⟩)
        · exact .inl rfl
        · exact .inr ⟨List.mem_cons_of_mem _ hg, hrest hg⟩
      · rintro (rfl | ⟨hg, hne⟩)
        · exact List.mem_cons_self
        · obtain rfl | hg := List.mem_cons.mp hg
          · exact absurd h hne
          · exact List.mem_cons_of_mem _ hg
    · next h =>
      rw [List.mem_cons, List.mem_cons, ih hnodup]
      constructor
      · rintro (rfl | rfl | ⟨hg, hne⟩)
        · exact .inr ⟨.inl rfl, h⟩
        · exact .inl rfl
        · exact .inr ⟨.inr hg, hne⟩
      · rintro (rfl | ⟨rfl | hg, hne⟩)
        · exact .inr (.inl rfl)
        · exact .inl rfl
        · exact .inr (.inr ⟨hg, hne⟩)

/-- Fields of different names that replace others do so in different places. -/
theorem putField_comm (hx : x.name ∈ fs.map name) (hy : y.name ∈ fs.map name) (hne : x.name ≠ y.name) :
    putField y (putField x fs) = putField x (putField y fs) := by
  induction fs with
  | nil => cases hx
  | cons other rest ih =>
    by_cases hox : other.name = x.name
    · simp [putField, hox, hne]
    · by_cases hoy : other.name = y.name
      · simp [putField, hoy, hne.symm]
      · have hx' : x.name ∈ rest.map name := (List.mem_cons.mp hx).resolve_left fun e => hox e.symm
        have hy' : y.name ∈ rest.map name := (List.mem_cons.mp hy).resolve_left fun e => hoy e.symm
        simp only [putField, if_neg hox, if_neg hoy, ih hx' hy']

/-- Where the names are distinct, a name finds the one field that has it. -/
theorem find?_name_eq_some (hnodup : (fs.map name).Nodup) :
    fs.find? (fun g => g.name = n) = some f ↔ f ∈ fs ∧ f.name = n := by
  induction fs with
  | nil => simp
  | cons other rest ih =>
    obtain ⟨hnot, hnodup⟩ := List.nodup_cons.mp hnodup
    rw [List.find?_cons]
    by_cases h : other.name = n
    · have hrest : ¬ (f ∈ rest ∧ f.name = n) :=
        fun hf => hnot ((h.trans hf.2.symm) ▸ List.mem_map_of_mem hf.1)
      simp only [h, decide_true, Option.some.injEq, List.mem_cons]
      constructor
      · rintro rfl
        exact ⟨.inl rfl, h⟩
      · rintro ⟨rfl | hf, hfn⟩
        · rfl
        · exact absurd ⟨hf, hfn⟩ hrest
    · simp only [h, decide_false, List.mem_cons, ih hnodup]
      constructor
      · exact fun hf => ⟨.inr hf.1, hf.2⟩
      · rintro ⟨rfl | hf, hfn⟩
        · exact absurd hfn h
        · exact ⟨hf, hfn⟩

-- ---------------------------------------------------------------------------
-- All fields
-- ---------------------------------------------------------------------------

/-- The fields of a layout after others have been added to them, one after another. -/
def overlay (fields added : List Template) : List Template := added.foldl (fun fs f => putField f fs) fields

theorem overlay_concat (fields added : List Template) (f : Template) :
    overlay fields (added ++ [f]) = putField f (overlay fields added) := by
  rw [overlay, List.foldl_concat]
  rfl

theorem foldl_addField_composite (h : Header) (fields added : List Template) :
    added.foldl addField (.composite h fields) = .composite h (overlay fields added) := by
  induction added generalizing fields with
  | nil => rfl
  | cons f rest ih => exact ih (putField f fields)

/-- The names stand in the order in which they first came. -/
theorem names_overlay (added : List Template) : (overlay [] added).map name = (added.map name).eraseDups := by
  induction added using List.reverseRecOn with
  | nil => rfl
  | append_singleton added f ih =>
    rw [overlay_concat, names_putField, ih, List.map_append, List.map_singleton, eraseDups_concat]
    simp only [List.mem_eraseDups]

/-- The field is the last one that was added under its name. -/
def IsLast (added : List Template) (f : Template) : Prop :=
  ∃ before after, added = before ++ f :: after ∧ ∀ later ∈ after, later.name ≠ f.name

/-- A field that is added later replaces those of its name and no others. -/
theorem isLast_concat : IsLast (added ++ [f]) g ↔ g = f ∨ (IsLast added g ∧ g.name ≠ f.name) := by
  constructor
  · rintro ⟨before, after, hsplit, hafter⟩
    cases after using List.reverseRecOn with
    | nil => exact .inl (List.singleton_inj.mp (List.append_inj' hsplit rfl).2).symm
    | append_singleton after last =>
      rw [← List.cons_append, ← List.append_assoc] at hsplit
      obtain ⟨hadded, hlast⟩ := List.append_inj' hsplit rfl
      cases hlast
      refine .inr ⟨⟨before, after, hadded, fun later hlater => ?_⟩, (hafter _ (by simp)).symm⟩
      exact hafter later (List.mem_append_left _ hlater)
  · rintro (rfl | ⟨⟨before, after, rfl, hafter⟩, hne⟩)
    · exact ⟨added, [], rfl, fun _ h => absurd h List.not_mem_nil⟩
    · refine ⟨before, after ++ [f], by simp, fun later hlater => ?_⟩
      obtain hlater | hlater := List.mem_append.mp hlater
      · exact hafter later hlater
      · cases List.mem_singleton.mp hlater
        exact hne.symm

theorem mem_overlay (added : List Template) : ∀ g, g ∈ overlay [] added ↔ IsLast added g := by
  induction added using List.reverseRecOn with
  | nil => simp [overlay, IsLast]
  | append_singleton added f ih =>
    intro g
    have hnodup : ((overlay [] added).map name).Nodup := names_overlay added ▸ nodup_eraseDups _
    rw [overlay_concat, mem_putField_iff hnodup, isLast_concat, ih g]

/-- Fields of names that came before may change places with their neighbours. -/
theorem overlay_swap {before : List Template} (after : List Template) (hx : x.name ∈ before.map name)
    (hy : y.name ∈ before.map name) (hne : x.name ≠ y.name) :
    overlay [] (before ++ y :: x :: after) = overlay [] (before ++ x :: y :: after) := by
  have hknown : ∀ n ∈ before.map name, n ∈ (overlay [] before).map name := fun n hn => by
    rwa [names_overlay, List.mem_eraseDups]
  simp only [overlay, List.foldl_append, List.foldl_cons]
  exact congrArg (overlay · after) (putField_comm (hknown _ hy) (hknown _ hx) hne.symm)

/-- Templates that are no composites have no fields and take none. -/
theorem foldl_addField_of_ne {t : Template} (ht : ∀ h fields, t ≠ .composite h fields) (added : List Template) :
    added.foldl addField t = t := by
  have hadd : ∀ f, addField t f = t := fun f => by
    cases t with
    | composite h fields => exact absurd rfl (ht h fields)
    | leaf h kind => rfl
    | repeated h element rule => rfl
  induction added with
  | nil => rfl
  | cons f rest ih => rw [List.foldl_cons, hadd, ih]

/-- The fields added to an empty composite are an ordered map. Their names are distinct and stand in the order
in which each first came, every field is the last one of its name, and a name that never came finds nothing.
Two neighbours of different names that both came before may change places. Templates that are no composites
take no fields. -/
theorem addField_collects (title : String) (added : List Template) :
    (∃ fields, added.foldl addField (ofFields title) = .composite { name := title } fields ∧
      (fields.map name).Nodup ∧
      (fields.map name).Pairwise (fun m n => (added.map name).idxOf m < (added.map name).idxOf n) ∧
      (∀ n, n ∈ fields.map name ↔ n ∈ added.map name) ∧
      ∀ f, f ∈ fields ↔ IsLast added f) ∧
    (∀ n f, (added.foldl addField (ofFields title)).child? n = some f ↔ IsLast added f ∧ f.name = n) ∧
    (∀ n, (added.foldl addField (ofFields title)).child? n = none ↔ n ∉ added.map name) ∧
    (∀ before x y after, added = before ++ x :: y :: after → x.name ∈ before.map name →
      y.name ∈ before.map name → x.name ≠ y.name →
      (before ++ y :: x :: after).foldl addField (ofFields title) = added.foldl addField (ofFields title)) ∧
    ∀ t : Template, (∀ h fields, t ≠ .composite h fields) → added.foldl addField t = t := by
  have hbuilt : ∀ added : List Template,
      added.foldl addField (ofFields title) = .composite { name := title } (overlay [] added) :=
    foldl_addField_composite _ _
  have hnodup : ((overlay [] added).map name).Nodup := names_overlay added ▸ nodup_eraseDups _
  have hnames : ∀ n, n ∈ (overlay [] added).map name ↔ n ∈ added.map name := fun n => by
    rw [names_overlay, List.mem_eraseDups]
  refine ⟨⟨_, hbuilt added, hnodup, names_overlay added ▸ eraseDups_pairwise _, hnames, mem_overlay added⟩,
    fun n f => ?_, fun n => ?_, fun before x y after hsplit hx hy hne => ?_,
    fun t ht => foldl_addField_of_ne ht added⟩
  · rw [hbuilt, child?, find?_name_eq_some hnodup, mem_overlay]
  · rw [hbuilt, child?, List.find?_eq_none, ← hnames]
    simp
  · rw [hsplit, hbuilt, hbuilt, overlay_swap after hx hy hne]

/-- A derived layout that overrides the second of three fields keeps their order. -/
example : ([boolean "a", boolean "b", boolean "c", string "b"].foldl addField (ofFields "chunk")) =
    .composite { name := "chunk" } [boolean "a", string "b", boolean "c"] := rfl

end FormatFuzz.Template
