import MigrationStudio.ImportExport.Service
import MigrationStudio.Members.Orders
import MigrationStudio.Storage.MemberStore

/-!
# An export while members are written

`export_dataset` reads the dataset page by page, each page on a connection of its own, at the number
of rows that it has read so far.  An ingest that is committed between two pages may add a row in
front of that place, or take one away when it merges two members; the rows behind are then read a
second time, or not at all.

A person is followed through the writes by its identity: an ingest never takes anybody out of a
dataset, but it may give a Telegram id to a username.

* `Export.step`: a page is read, or an operation of the write lane is committed.
* `timesWritten`: the rows of the file that are a person's.
* `Undisturbed`: a write leaves everybody on its side of the offset.
* `timesWritten_add`: what is still to be written; `written_once_of_undisturbed`.
-/

namespace MigrationStudio
namespace ImportExport

open Foundations MigrationStudio.Core Members Storage
open Members.MemberTables (HasIdentity)

/-! ## The export -/

/-- An export under way: the offset of `iter_dataset_rows`, and whether the loop is over. -/
structure Export where
  store : MemberStore
  offset : ℕ
  finished : Bool

inductive ExportLabel where
  | read
  | write (operation : StoreLabel)

namespace Export

variable (pyLower : String → String) (d : DatasetId) (chunkSize : ℤ)

/-- The rows that the next call of `page` returns. -/
def nextPage (s : Export) : List Row := page s.store.tables s.offset chunkSize d

/-- One turn of the loop, or an operation of the write lane between two turns. -/
def step (s : Export) : ExportLabel → Option Export
  | .read =>
      if s.finished then none
      else if s.nextPage d chunkSize = [] then some { s with finished := true }
      else some { s with offset := s.offset + (s.nextPage d chunkSize).length }
  | .write l =>
      if s.finished then none
      else (s.store.step pyLower l).map fun store => { s with store := store }

/-- The export at its first page. -/
def begin (store : MemberStore) : Export := ⟨store, 0, false⟩

end Export

/-! ## The people of the dataset -/

/-- What an operation makes of an identity. -/
def renamed (t : MemberTables) : StoreLabel → Identity → Identity
  | .ingest into ms, k =>
      match t.submitIngestBatch into ms with
      | .ok _ => ms.foldl (fun k m => renames m k) k
      | .error _ => k
  | _, k => k

/-- The identity of a person after a step. -/
def ExportLabel.renamed (s : Export) : ExportLabel → Identity → Identity
  | .read, k => k
  | .write l, k => ImportExport.renamed s.store.tables l k

/-- How many rows of a list are those of a person. -/
def rowsOf (rows : List Row) (k : Identity) : ℕ := rows.countP fun r => r.identity = some k

/-- How many rows of a person a step writes to the file. -/
def ExportLabel.writes (d : DatasetId) (chunkSize : ℤ) (s : Export) : ExportLabel → Identity → ℕ
  | .read, k => rowsOf (s.nextPage d chunkSize) k
  | .write _, _ => 0

/-- How many rows of a person are in the file that a run writes. -/
def timesWritten (pyLower : String → String) (d : DatasetId) (chunkSize : ℤ) :
    Export → List ExportLabel → Identity → ℕ
  | _, [], _ => 0
  | s, l :: ls, k =>
      l.writes d chunkSize s k +
        match s.step pyLower d chunkSize l with
        | some s' => timesWritten pyLower d chunkSize s' ls (l.renamed s k)
        | none => 0

/-- A person's row is among those that the offset passes over. -/
def Export.InFront (d : DatasetId) (s : Export) (k : Identity) : Prop :=
  ∃ r ∈ (datasetRows s.store.tables d).take s.offset, r.identity = some k

instance (d : DatasetId) (s : Export) (k : Identity) : Decidable (s.InFront d k) :=
  inferInstanceAs (Decidable (∃ r ∈ (datasetRows s.store.tables d).take s.offset,
    r.identity = some k))

/-- A write leaves everybody in the dataset on its side of the offset. -/
def Undisturbed (pyLower : String → String) (d : DatasetId) (chunkSize : ℤ) (s : Export) :
    ExportLabel → Prop
  | .read => True
  | .write w => ∀ s' ∈ s.step pyLower d chunkSize (.write w),
      ∀ r ∈ datasetRows s.store.tables d, ∀ k ∈ r.identity,
        s.InFront d k ↔ s'.InFront d (renamed s.store.tables w k)

instance (pyLower : String → String) (d : DatasetId) (chunkSize : ℤ) (s : Export) :
    (l : ExportLabel) → Decidable (Undisturbed pyLower d chunkSize s l)
  | .read => inferInstanceAs (Decidable True)
  | .write w => inferInstanceAs (Decidable (∀ s' ∈ s.step pyLower d chunkSize (.write w),
      ∀ r ∈ datasetRows s.store.tables d, ∀ k ∈ r.identity,
        (s.InFront d k ↔ s'.InFront d (renamed s.store.tables w k))))

/-! ## Pages at an offset -/

variable {t : MemberTables} {d : DatasetId} {k : Identity} {pyLower : String → String}
  {chunkSize : ℤ} {s s' : Export} {l : ExportLabel}

theorem page_eq_nil_iff {offset : ℕ} :
    page t offset chunkSize d = [] ↔ (datasetRows t d).length ≤ offset := by
  rw [page, List.take_eq_nil_iff]
  constructor
  · rintro (hzero | hnil)
    · omega
    · simpa using hnil
  · intro hle
    exact Or.inr (by simpa using hle)

/-- **A page moves the offset behind itself.** -/
theorem take_append_page (offset : ℕ) :
    (datasetRows t d).take (offset + (page t offset chunkSize d).length) =
      (datasetRows t d).take offset ++ page t offset chunkSize d := by
  have hpage : page t offset chunkSize d =
      ((datasetRows t d).drop offset).take (max 1 (min 1000 chunkSize)).toNat := by
    simp [page]
  rw [List.take_add, hpage]
  refine congrArg _ (List.take_eq_take_iff.mpr ?_)
  rw [List.length_take]
  omega

theorem rowsOf_append (rows rows' : List Row) (k : Identity) :
    rowsOf (rows ++ rows') k = rowsOf rows k + rowsOf rows' k := List.countP_append

theorem rowsOf_pos_iff {rows : List Row} :
    0 < rowsOf rows k ↔ ∃ r ∈ rows, r.identity = some k := by
  simp [rowsOf, List.countP_pos_iff]

/-- A person has one row at most. -/
theorem rowsOf_take_le_one (h : t.Sound) (n : ℕ) (k : Identity) :
    rowsOf ((datasetRows t d).take n) k ≤ 1 := by
  have hsub : ((datasetRows t d).take n).Sublist t.members :=
    (List.take_sublist _ _).trans List.filter_sublist
  rw [rowsOf, List.countP_eq_length_filter,
    ← List.toFinset_card_of_nodup ((h.nodup.sublist hsub).filter _), Finset.card_le_one]
  intro r hr q hq
  obtain ⟨hr, hrk⟩ := List.mem_filter.mp (List.mem_toFinset.mp hr)
  obtain ⟨hq, hqk⟩ := List.mem_filter.mp (List.mem_toFinset.mp hq)
  exact h.identity_unique (hsub.subset hr) (hsub.subset hq)
    ((of_decide_eq_true hrk).trans (of_decide_eq_true hqk).symm)

/-- Whoever is in the dataset has a row in it. -/
theorem exists_row_of_hasIdentity (hk : t.HasIdentity d k) :
    ∃ r ∈ datasetRows t d, r.identity = some k := by
  obtain ⟨r, hr, hin, hident⟩ := hk
  refine ⟨r, List.mem_filter.mpr ⟨hr, ?_⟩, hident⟩
  exact decide_eq_true (MemberTables.mem_memberIds.mpr hin)

/-! ## Nobody leaves a dataset -/

theorem HasIdentity.of_rows {t' : MemberTables} (hk : t.HasIdentity d k)
    (hmembers : t'.members = t.members) (hin : ∀ id, t.InDataset d id → t'.InDataset d id) :
    t'.HasIdentity d k := by
  obtain ⟨r, hr, hrd, hident⟩ := hk
  exact ⟨r, hmembers ▸ hr, hin r.id hrd, hident⟩

/-- **An operation of the write lane** keeps everybody in the dataset, under the renamed
identity. -/
theorem hasIdentity_step {u u' : MemberStore} (h : u.Good) {w : StoreLabel}
    (hstep : u.step pyLower w = some u') (hk : u.tables.HasIdentity d k) :
    u'.tables.HasIdentity d (renamed u.tables w k) := by
  have hcommit : ∀ {r : Except IntegrityError MemberTables}, u' = u.commit r →
      (∀ t', r = .ok t' → t'.HasIdentity d k) → u'.tables.HasIdentity d k := by
    rintro r rfl hr
    show (committed u.tables r).HasIdentity d k
    rcases MemberStore.committed_cases (t := u.tables) r with heq | heq
    · rw [heq]
      exact hk
    · exact hr _ heq
  cases w with
  | ingest into ms =>
      cases hrun : u.tables.submitIngestBatch into ms with
      | error e =>
          have heq : u' = u.commit (.error e) := by
            rw [← Option.some.inj hstep, hrun]
            rfl
          simp only [renamed, hrun]
          exact hcommit heq fun t' ht' => absurd ht' (by simp)
      | ok p =>
          have heq : u' = u.commit (.ok p.2) := by
            rw [← Option.some.inj hstep, hrun]
            rfl
          obtain ⟨t₁, -, hturns, ht⟩ := h.sound.submitIngestBatch_ok hrun
          simp only [renamed, hrun]
          rw [heq]
          show p.2.HasIdentity d _
          rw [ht]
          exact hturns.hasIdentity h.sound hk
  | combine a b op =>
      refine hcommit (Option.some.inj hstep).symm fun t' ht' => ?_
      obtain ⟨new, hrun⟩ := MemberStore.map_snd_ok ht'
      obtain ⟨-, -, hmembers, -, hmemberships, -⟩ := h.sound.combine_ok hrun
      refine HasIdentity.of_rows hk hmembers fun id hin => ?_
      unfold MemberTables.InDataset at hin ⊢
      rw [hmemberships, List.map_append]
      exact List.mem_append_left _ hin
  | cachePeers peers =>
      refine hcommit (Option.some.inj hstep).symm fun t' ht' => ?_
      rw [MemberStore.foldlM_insertPeer_ok ht']
      exact hk
  | addItems job selection =>
      obtain ⟨members, hmembers, heq⟩ := Option.map_eq_some_iff.mp hstep
      refine hcommit heq.symm fun t' ht' => ?_
      rw [(h.addItemRefs hmembers ht').2]
      exact hk
  | selectRemove account dataset precheck spec =>
      obtain ⟨p, -, rfl⟩ := Option.map_eq_some_iff.mp hstep
      exact hk
  | createDataset | createGroup | createAccount | deleteAccount | selectInvite =>
      obtain rfl := Option.some.inj hstep
      exact hk

/-! ## The run -/

/-- What the loop has read when it is over is the whole dataset. -/
def Export.Complete (d : DatasetId) (s : Export) : Prop :=
  s.finished = true → (datasetRows s.store.tables d).length ≤ s.offset

/-- **A page**: what it writes of a person, the offset passes over. -/
theorem step_read (hstep : s.step pyLower d chunkSize .read = some s') :
    s'.store = s.store ∧ s'.Complete d ∧
      (datasetRows s.store.tables d).take s'.offset =
        (datasetRows s.store.tables d).take s.offset ++ s.nextPage d chunkSize := by
  simp only [Export.step] at hstep
  split_ifs at hstep with hfinished hnil
  · obtain rfl := Option.some.inj hstep
    refine ⟨rfl, fun _ => page_eq_nil_iff.mp hnil, ?_⟩
    rw [hnil, List.append_nil]
  · obtain rfl := Option.some.inj hstep
    exact ⟨rfl, fun hover => absurd hover hfinished, take_append_page s.offset⟩

/-- A write moves neither the offset nor the end of the loop. -/
theorem step_write {w : StoreLabel} (hstep : s.step pyLower d chunkSize (.write w) = some s') :
    s.store.step pyLower w = some s'.store ∧ s'.offset = s.offset ∧ s'.finished = false := by
  simp only [Export.step] at hstep
  split_ifs at hstep with hfinished
  obtain ⟨store, hstore, rfl⟩ := Option.map_eq_some_iff.mp hstep
  exact ⟨hstore, rfl, eq_false_of_ne_true hfinished⟩

/-- **What is still to be written.**  A run to the end of the loop whose writes leave everybody on
its side of the offset writes a person once when its row is behind the offset, and not at all when
it is in front. -/
theorem timesWritten_add (h : s.store.Good) (hcomplete : s.Complete d)
    (hk : s.store.tables.HasIdentity d k) {ls : List ExportLabel}
    (halong : Along (Export.step pyLower d chunkSize) (Undisturbed pyLower d chunkSize) s ls)
    (hrun : runLabels (Export.step pyLower d chunkSize) s ls = some s')
    (hfinished : s'.finished = true) :
    timesWritten pyLower d chunkSize s ls k +
      rowsOf ((datasetRows s.store.tables d).take s.offset) k = 1 := by
  induction ls generalizing s k with
  | nil =>
      obtain rfl := Option.some.inj hrun
      have hone := rowsOf_take_le_one h.sound (d := d) s.offset k
      have hpos := rowsOf_pos_iff.mpr (exists_row_of_hasIdentity hk)
      rw [List.take_of_length_le (hcomplete hfinished)] at hone ⊢
      show 0 + rowsOf (datasetRows s.store.tables d) k = 1
      omega
  | cons l ls ih =>
      obtain ⟨u, hu, hrest⟩ := runLabels_cons_eq_some.mp hrun
      obtain ⟨hstep, hlong⟩ := (along_cons hu).mp halong
      have htimes : timesWritten pyLower d chunkSize s (l :: ls) k =
          l.writes d chunkSize s k +
            timesWritten pyLower d chunkSize u ls (l.renamed s k) := by
        rw [timesWritten, hu]
      cases l with
      | read =>
          obtain ⟨hstore, hover, htake⟩ := step_read hu
          have hlater := ih (hstore ▸ h) hover (hstore ▸ hk) hlong hrest
          rw [hstore, htake, rowsOf_append] at hlater
          rw [htimes]
          show rowsOf (s.nextPage d chunkSize) k + timesWritten pyLower d chunkSize u ls k + _ = 1
          omega
      | write w =>
          obtain ⟨hstore, hoffset, hopen⟩ := step_write hu
          have hgood := (h.step hstore).1
          have hlater := ih hgood (fun hover => absurd hover (by simp [hopen]))
            (hasIdentity_step h hstore hk) hlong hrest
          obtain ⟨r, hr, hident⟩ := exists_row_of_hasIdentity hk
          have hside := hstep u hu r hr k hident
          have hbefore := rowsOf_take_le_one h.sound (d := d) s.offset k
          have hafter := rowsOf_take_le_one hgood.sound (d := d) u.offset
            (renamed s.store.tables w k)
          rw [Export.InFront, Export.InFront, ← rowsOf_pos_iff, ← rowsOf_pos_iff] at hside
          rw [htimes]
          show 0 + timesWritten pyLower d chunkSize u ls (renamed s.store.tables w k) + _ = 1
          have hside : 0 < rowsOf ((datasetRows s.store.tables d).take s.offset) k ↔
            0 < rowsOf ((datasetRows u.store.tables d).take u.offset)
              (renamed s.store.tables w k) := hside
          have hlater : timesWritten pyLower d chunkSize u ls (renamed s.store.tables w k) +
            rowsOf ((datasetRows u.store.tables d).take u.offset)
              (renamed s.store.tables w k) = 1 := hlater
          omega

/-- **Everybody is written once**, for every dataset, every size of the chunks and all operations of
the write lane between the pages, when each of these leaves everybody in the dataset on its side of
the offset.  Whoever is in the dataset when the export begins is in it until the end. -/
theorem written_once_of_undisturbed {store : List StoreLabel} {db : MemberStore}
    (hstore : runLabels (MemberStore.step pyLower) MemberStore.start store = some db)
    {ls : List ExportLabel}
    (hrun : runLabels (Export.step pyLower d chunkSize) (Export.begin db) ls = some s)
    (hfinished : s.finished = true)
    (halong : Along (Export.step pyLower d chunkSize) (Undisturbed pyLower d chunkSize)
      (Export.begin db) ls) (hk : db.tables.HasIdentity d k) :
    timesWritten pyLower d chunkSize (Export.begin db) ls k = 1 := by
  have hgood := (MemberStore.good_of_run MemberStore.good_start hstore).1
  have honce := timesWritten_add (s := Export.begin db) hgood
    (fun hover => absurd hover (by simp [Export.begin])) hk halong hrun hfinished
  exact honce

/-- A dataset of two members and one of another person, ready to be exported. -/
def twoDatasets : List StoreLabel :=
  [.createDataset, .createDataset,
    .ingest { datasetId := 1 } [{ telegramUserId := some 5 }],
    .ingest { datasetId := 0 } [{ telegramUserId := some 6 }, { telegramUserId := some 7 }]]

/-- A new person comes in behind everybody while the export is between two pages of one member. -/
def addedBehind : List ExportLabel :=
  [.read, .write (.ingest { datasetId := 0 } [{ telegramUserId := some 8 }]), .read, .read, .read]

theorem written_once_of_undisturbed_added :
    ∃ db s, runLabels (MemberStore.step id) MemberStore.start twoDatasets = some db ∧
      runLabels (Export.step id 0 1) (Export.begin db) addedBehind = some s ∧ s.finished = true ∧
      timesWritten id 0 1 (Export.begin db) addedBehind (.inl 7) = 1 := by
  obtain ⟨db, hdb⟩ : ∃ db, runLabels (MemberStore.step id) MemberStore.start twoDatasets =
      some db := ⟨_, rfl⟩
  have hend : (runLabels (Export.step id 0 1) (Export.begin db) addedBehind).map
      (fun s => s.finished) = some true := by
    obtain rfl := Option.some.inj hdb
    decide +kernel
  have halong : Along (Export.step id 0 1) (Undisturbed id 0 1) (Export.begin db) addedBehind := by
    obtain rfl := Option.some.inj hdb
    decide +kernel
  have hin : db.tables.HasIdentity 0 (.inl 7) := by
    obtain rfl := Option.some.inj hdb
    exact ⟨⟨{}, 3, some 7⟩, by decide, MemberTables.mem_memberIds.mp (by decide), rfl⟩
  obtain ⟨s, hs, hfinished⟩ := Option.map_eq_some_iff.mp hend
  exact ⟨db, s, hdb, hs, hfinished, written_once_of_undisturbed hdb hs hfinished halong hin⟩

/-- A person with a lower id comes into the dataset behind its only page: the last member of the
page is written a second time. -/
def addedInFront : List ExportLabel :=
  [.read, .write (.ingest { datasetId := 0 } [{ telegramUserId := some 5 }]), .read, .read]

theorem written_twice :
    ∃ db s, runLabels (MemberStore.step id) MemberStore.start twoDatasets = some db ∧
      runLabels (Export.step id 0 2000) (Export.begin db) addedInFront = some s ∧
      s.finished = true ∧ db.tables.HasIdentity 0 (.inl 7) ∧
      timesWritten id 0 2000 (Export.begin db) addedInFront (.inl 7) = 2 := by
  obtain ⟨db, hdb⟩ : ∃ db, runLabels (MemberStore.step id) MemberStore.start twoDatasets =
      some db := ⟨_, rfl⟩
  have hend : (runLabels (Export.step id 0 2000) (Export.begin db) addedInFront).map
      (fun s => s.finished) = some true := by
    obtain rfl := Option.some.inj hdb
    decide +kernel
  obtain ⟨s, hs, hfinished⟩ := Option.map_eq_some_iff.mp hend
  refine ⟨db, s, hdb, hs, hfinished, ?_⟩
  obtain rfl := Option.some.inj hdb
  exact ⟨⟨⟨{}, 3, some 7⟩, by decide, MemberTables.mem_memberIds.mp (by decide), rfl⟩,
    by decide +kernel⟩

end ImportExport
end MigrationStudio
