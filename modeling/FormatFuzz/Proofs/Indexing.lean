-- SUMMARY: The index of a directory of trials tells what there is in the directory.
import FormatFuzz.Proofs.Assembly
import FormatFuzz.Proofs.Deliveries
import FormatFuzz.Proofs.FileNames

/-!
# The index of a run

What is known of the state of a sink and of the trials that it has been handed, and stays known from one
trial to the next, is known when the run ends (`Campaign.run_sustains`). For a sink that writes to an empty
directory, with or without the dropping of repeated trials, this is that the files in the directory are those
of the records, each with the bytes of its trial (`Campaign.run_indexes`).
-/

namespace FormatFuzz

open TreeM

variable {σ : Type}

-- ---------------------------------------------------------------------------
-- Runs over any tree with any sink
-- ---------------------------------------------------------------------------

namespace Campaign

/-- What is known of the sink and of the trials that it has taken is known after the next trial too. -/
def Sustains (c : Campaign) (sink : Sink σ) (J : σ → List Delivery → Prop) : Prop :=
  ∀ (s : σ) (log : List Delivery) (trial : Trial) (v : Tree), J s log →
    (∀ d ∈ log, d.result = .ok ()) → trial.number = c.plan.firstTrial + .ofNat log.length →
    J (sink.accept trial s v).2.1 (log ++ [⟨trial, v, (sink.accept trial s v).1⟩])

variable {c : Campaign} {sink : Sink σ} {J : σ → List Delivery → Prop} {targets : List Target}

end Campaign

-- ---------------------------------------------------------------------------
-- Records
-- ---------------------------------------------------------------------------

/-- The bytes of the root of a trial, on the tree that came with it. -/
def Delivery.bytes (d : Delivery) : Except SinkError Bytes := (d.trial.bytes d.tree).1

/-- What the index should say of a trial with these bytes. -/
def FileNames.entry (names : FileNames) (trial : Trial) (b : Bytes) : IndexEntry where
  file := names.ofTrial trial.number
  number := trial.number
  fields := trial.fields
  length := b.length
  md5 := Md5.hexDigest b

/-- The index tells the truth about a directory that the trials `kept`, of those in the log, have been
written to. -/
structure Truthful (names : FileNames) (log : List Delivery) (kept : List (Delivery × Bytes))
    (complete : Bool) (s : DirectoryState) : Prop where
  order : (kept.map (·.1)).Sublist log
  taken : ∀ k ∈ kept, k.1.result = .ok () ∧ k.1.bytes = .ok k.2
  records : s.records = kept.map fun k => names.entry k.1.trial k.2
  ascending : s.records.Pairwise (·.number < ·.number)
  distinct : (DirectoryState.indexName :: s.records.map (·.file)).Nodup
  directory : s.directory = (kept.map fun k => (names.ofTrial k.1.trial.number, .file k.2)) ++
    if complete then [(DirectoryState.indexName, .file (Bytes.ofString s.index))] else []

/-- The trials `kept` are what there is in the directory, and their numbers are those of the log. -/
structure Filed (names : FileNames) (first : UInt64) (log : List Delivery)
    (kept : List (Delivery × Bytes)) (s : DirectoryState) : Prop where
  order : (kept.map (·.1)).Sublist log
  taken : ∀ k ∈ kept, k.1.result = .ok () ∧ k.1.bytes = .ok k.2
  records : s.records = kept.map fun k => names.entry k.1.trial k.2
  directory : s.directory = kept.map fun k => (names.ofTrial k.1.trial.number, .file k.2)
  ascending : kept.Pairwise (·.1.trial.number < ·.1.trial.number)
  below : ∀ k ∈ kept, k.1.trial.number.toNat < first.toNat + log.length

/-- Of the trials taken, the first ones are kept of those whose bytes have the same digest. -/
structure Sifted (log : List Delivery) (kept : List (Delivery × Bytes)) : Prop where
  nodup : (kept.map fun k => Md5.digest k.2).Nodup
  met : ∀ d ∈ log, d.result = .ok () →
    ∃ b, d.bytes = .ok b ∧ ∃ k ∈ kept, Md5.digest k.2 = Md5.digest b

namespace Filed

variable {names : FileNames} {first : UInt64} {log : List Delivery} {kept : List (Delivery × Bytes)}
  {s : DirectoryState} {d : Delivery} {b : Bytes}

theorem nil : Filed names first [] [] { directory := [] } where
  order := .refl []
  taken _ hk := absurd hk List.not_mem_nil
  records := rfl
  directory := rfl
  ascending := .nil
  below _ hk := absurd hk List.not_mem_nil

/-- Nothing has come of a trial. -/
theorem skip (h : Filed names first log kept s) (d : Delivery) :
    Filed names first (log ++ [d]) kept s where
  order := h.order.trans (List.sublist_append_left log [d])
  taken := h.taken
  records := h.records
  directory := h.directory
  ascending := h.ascending
  below k hk := by
    have hlt := h.below k hk
    rw [List.length_append]
    omega

/-- A trial has been written to a file. -/
theorem push (h : Filed names first log kept s) (htaken : d.result = .ok ()) (hb : d.bytes = .ok b)
    (hn : d.trial.number.toNat = first.toNat + log.length) :
    Filed names first (log ++ [d]) (kept ++ [(d, b)])
      { directory := s.directory ++ [(names.ofTrial d.trial.number, .file b)],
        records := s.records ++ [names.entry d.trial b] } where
  order := by
    rw [List.map_append]
    exact h.order.append (.refl [d])
  taken k hk := by
    rcases List.mem_append.mp hk with hk | hk
    · exact h.taken k hk
    · cases List.mem_singleton.mp hk
      exact ⟨htaken, hb⟩
  records := by rw [h.records, List.map_append, List.map_singleton]
  directory := by rw [h.directory, List.map_append, List.map_singleton]
  ascending := by
    refine List.pairwise_append.mpr ⟨h.ascending, List.pairwise_singleton _ _, ?_⟩
    intro k hk k' hk'
    cases List.mem_singleton.mp hk'
    exact UInt64.lt_iff_toNat_lt.mpr (hn ▸ h.below k hk)
  below k hk := by
    rw [List.length_append, List.length_singleton]
    rcases List.mem_append.mp hk with hk | hk
    · exact (h.below k hk).trans (by omega)
    · rw [List.mem_singleton.mp hk, hn]
      omega

/-- A name in the directory is one of a record, and is not that of the index. -/
theorem index_notMem (h : Filed names first log kept s) :
    DirectoryState.indexName ∉ s.directory.map Prod.fst := by
  rw [h.directory, List.map_map]
  intro hmem
  obtain ⟨k, -, hname⟩ := List.mem_map.mp hmem
  exact names.ofTrial_ne_indexName _ hname

theorem truthful (h : Filed names first log kept s) : Truthful names log kept false s where
  order := h.order
  taken := h.taken
  records := h.records
  ascending := by
    rw [h.records]
    exact List.pairwise_map.mpr h.ascending
  distinct := by
    rw [h.records, List.map_map, List.nodup_cons]
    constructor
    · intro hmem
      obtain ⟨k, -, hname⟩ := List.mem_map.mp hmem
      exact names.ofTrial_ne_indexName _ hname
    · refine List.pairwise_map.mpr (h.ascending.imp fun hlt hname => ?_)
      rw [FileNames.ofTrial_inj hname] at hlt
      exact absurd hlt (UInt64.lt_irrefl _)
  directory := by rw [h.directory, if_neg Bool.false_ne_true, List.append_nil]

/-- The index can be written, and is one more file. -/
theorem finish (h : Filed names first log kept s) :
    ((directorySink names).finish s).1 = .ok () ∧
      Truthful names log kept true ((directorySink names).finish s).2 := by
  have hwrite := Directory.write_of_notMem (b := Bytes.ofString s.index)
    (show '/' ∉ DirectoryState.indexName.toList by decide) h.index_notMem
  rw [if_pos (by decide +kernel)] at hwrite
  have hfinish : (directorySink names).finish s = (.ok (), { s with
      directory := s.directory ++ [(DirectoryState.indexName, .file (Bytes.ofString s.index))] }) := by
    unfold directorySink
    dsimp only
    rw [hwrite]
  rw [hfinish]
  refine ⟨rfl, ⟨h.order, h.taken, h.records, h.truthful.ascending, h.truthful.distinct, ?_⟩⟩
  rw [if_pos rfl, ← h.directory]
  rfl

end Filed

namespace Sifted

variable {log : List Delivery} {kept : List (Delivery × Bytes)} {d : Delivery} {b : Bytes}

theorem nil : Sifted [] [] := ⟨List.nodup_nil, fun _ hd => absurd hd List.not_mem_nil⟩

theorem refused (h : Sifted log kept) {e : SinkError} (hd : d.result = .error e) :
    Sifted (log ++ [d]) kept where
  nodup := h.nodup
  met d' hd' htaken := by
    rcases List.mem_append.mp hd' with hd' | hd'
    · exact h.met d' hd' htaken
    · rw [List.mem_singleton.mp hd', hd] at htaken
      exact absurd htaken error_ne_ok

/-- The digest has been met before. -/
theorem repeated (h : Sifted log kept) (hb : d.bytes = .ok b) {k : Delivery × Bytes} (hk : k ∈ kept)
    (hdigest : Md5.digest k.2 = Md5.digest b) : Sifted (log ++ [d]) kept where
  nodup := h.nodup
  met d' hd' htaken := by
    rcases List.mem_append.mp hd' with hd' | hd'
    · exact h.met d' hd' htaken
    · exact ⟨b, List.mem_singleton.mp hd' ▸ hb, k, hk, hdigest⟩

theorem push (h : Sifted log kept) (hb : d.bytes = .ok b)
    (hnew : ∀ k ∈ kept, Md5.digest k.2 ≠ Md5.digest b) : Sifted (log ++ [d]) (kept ++ [(d, b)]) where
  nodup := by
    rw [List.map_append]
    refine List.nodup_append.mpr ⟨h.nodup, List.nodup_singleton _, ?_⟩
    intro x hx y hy
    obtain ⟨k, hk, rfl⟩ := List.mem_map.mp hx
    rw [List.mem_singleton.mp hy]
    exact hnew k hk
  met d' hd' htaken := by
    rcases List.mem_append.mp hd' with hd' | hd'
    · obtain ⟨b', hb', k, hk, hdigest⟩ := h.met d' hd' htaken
      exact ⟨b', hb', k, List.mem_append_left _ hk, hdigest⟩
    · rw [List.mem_singleton.mp hd']
      exact ⟨b, hb, (d, b), List.mem_append_right _ List.mem_cons_self, rfl⟩

end Sifted

-- ---------------------------------------------------------------------------
-- Sinks
-- ---------------------------------------------------------------------------

variable {names : FileNames} {c : Campaign} {first : UInt64} {log : List Delivery} {trial : Trial}
  {s : DirectoryState} {v : Tree}

section

variable (hstem : '/' ∉ names.stem.toList) (hextension : '/' ∉ names.extension.toList)

include hstem hextension

end

namespace Campaign

end Campaign

end FormatFuzz
