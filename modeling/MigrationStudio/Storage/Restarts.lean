import MigrationStudio.Foundations.LabelledRuns
import MigrationStudio.Storage.CompatibilityMigrations

/-!
# `storage/database.py`: a database that is started again and again

`initialize` runs the upgrade at every start.  The columns, the table and the index that it adds
first are committed one by one; the first DELETE opens a transaction that is committed at the end.
A start that is cut short leaves therefore some of what is added first, and nothing of the rest.
The schema script in front of the upgrade, which makes what is not there, is no part of the model: a
start begins with the tables of the script.

* `Addition`, `additions`: what is added first; `LegacyDatabase.addAll` adds it.
* `LegacyDatabase.cutShort k`: a start of which the first `k` statements are left.
* `LegacyDatabase.Upgraded`: a database that has all that the upgrade makes.
  `upgrade_eq_self_iff`: the upgrade leaves exactly these as they are.
* `StartLabel`, `LegacyDatabase.step`: starts, starts that are cut short, and writes that obey the
  unique indexes there are.
* `start_of_starts`: the start behind any starts, cut short or not, makes what one start makes.
* `upgrade_of_run`: behind the first start no later one changes anything.
-/

namespace MigrationStudio
namespace Storage

open MigrationStudio.Core Foundations Jobs Members

/-- What the upgrade adds first. -/
inductive Addition where
  | column (table name : String)
  | name (name : String)

/-- The statements in front of the first DELETE. -/
def additions : List Addition :=
  [.column "migration_items" "target_state", .column "accounts" "connection_state",
    .column "accounts" "operation_state", .name "account_restrictions",
    .name "idx_account_restrictions_active"]

namespace LegacyDatabase

/-! ## What is added first -/

/-- One statement. -/
def add (db : LegacyDatabase) : Addition → LegacyDatabase
  | .column table name => db.addColumn table name
  | .name name => db.addName name

/-- Several statements. -/
def addAll (db : LegacyDatabase) (as : List Addition) : LegacyDatabase := as.foldl add db

/-- What is added is there. -/
def Present (db : LegacyDatabase) : Addition → Prop
  | .column table name => (table, name) ∈ db.columns
  | .name name => name ∈ db.names

variable {db db' : LegacyDatabase} {a b : Addition} {as : List Addition}

theorem addMissing_eq (db : LegacyDatabase) : db.addMissing = db.addAll additions := rfl

theorem mem_columns_addColumn {table name : String} {c : String × String} :
    c ∈ (db.addColumn table name).columns ↔ c ∈ db.columns ∨ c = (table, name) := by
  unfold addColumn
  split_ifs with h
  · constructor
    · exact Or.inl
    · rintro (hc | rfl)
      · exact hc
      · exact h
  · show c ∈ db.columns ++ [(table, name)] ↔ _
    rw [List.mem_append, List.mem_singleton]

theorem mem_names_addName {name n : String} :
    n ∈ (db.addName name).names ↔ n ∈ db.names ∨ n = name := by
  unfold addName
  split_ifs with h
  · constructor
    · exact Or.inl
    · rintro (hn | rfl)
      · exact hn
      · exact h
  · show n ∈ db.names ++ [name] ↔ _
    rw [List.mem_append, List.mem_singleton]

theorem names_addColumn (table name : String) : (db.addColumn table name).names = db.names := by
  unfold addColumn
  split_ifs
  · rfl
  · rfl

theorem columns_addName (name : String) : (db.addName name).columns = db.columns := by
  unfold addName
  split_ifs
  · rfl
  · rfl

theorem items_addName (name : String) : (db.addName name).items = db.items :=
  (sameTables_addName db name).2.2

theorem provenance_addName (name : String) : (db.addName name).provenance = db.provenance := by
  unfold addName
  split_ifs
  · rfl
  · rfl

theorem addName_of_mem {name : String} (h : name ∈ db.names) : db.addName name = db := if_pos h

/-- What is there is not added. -/
theorem Present.add_eq (h : db.Present a) : db.add a = db := by
  cases a with
  | column table name => exact if_pos h
  | name name => exact if_pos h

theorem present_add (db : LegacyDatabase) (a : Addition) : (db.add a).Present a := by
  cases a with
  | column table name => exact mem_columns_addColumn.mpr (Or.inr rfl)
  | name name => exact mem_names_addName.mpr (Or.inr rfl)

/-- What is there stays. -/
theorem Present.add (h : db.Present a) (b : Addition) : (db.add b).Present a := by
  cases a with
  | column table name =>
    cases b with
    | column table' name' => exact mem_columns_addColumn.mpr (Or.inl h)
    | name name' =>
      show (table, name) ∈ (db.addName name').columns
      rwa [columns_addName]
  | name name =>
    cases b with
    | column table' name' =>
      show name ∈ (db.addColumn table' name').names
      rwa [names_addColumn]
    | name name' => exact mem_names_addName.mpr (Or.inl h)

theorem Present.addName (h : db.Present a) (name : String) : (db.addName name).Present a :=
  h.add (.name name)

theorem present_addName (db : LegacyDatabase) (name : String) :
    (db.addName name).Present (.name name) :=
  db.present_add (.name name)

theorem Present.addAll (h : db.Present a) (as : List Addition) : (db.addAll as).Present a := by
  induction as generalizing db with
  | nil => exact h
  | cons b as ih => exact ih (h.add b)

theorem present_addAll (h : a ∈ as) : (db.addAll as).Present a := by
  induction as generalizing db with
  | nil => exact absurd h List.not_mem_nil
  | cons b as ih =>
      rcases List.mem_cons.mp h with rfl | hmem
      · exact (present_add db a).addAll as
      · exact ih hmem

theorem addAll_of_present (h : ∀ a ∈ as, db.Present a) : db.addAll as = db := by
  induction as with
  | nil => rfl
  | cons b as ih =>
      show (db.add b).addAll as = db
      rw [(h b (List.mem_cons_self ..)).add_eq]
      exact ih fun a ha => h a (List.mem_cons_of_mem _ ha)

/-- Behind the first of the statements all of them add the others. -/
theorem addAll_addAll_take (db : LegacyDatabase) (as : List Addition) (k : ℕ) :
    (db.addAll (as.take k)).addAll as = db.addAll as := by
  have happend : ∀ (db : LegacyDatabase) (l m : List Addition),
      db.addAll (l ++ m) = (db.addAll l).addAll m := fun db l m => List.foldl_append
  have hsame : (db.addAll (as.take k)).addAll (as.take k) = db.addAll (as.take k) :=
    addAll_of_present fun a ha => present_addAll ha
  calc (db.addAll (as.take k)).addAll as
      = (db.addAll (as.take k)).addAll (as.take k ++ as.drop k) := by rw [List.take_append_drop]
    _ = (db.addAll (as.take k)).addAll (as.drop k) := by rw [happend, hsame]
    _ = db.addAll as := by rw [← happend, List.take_append_drop]

/-! ## Databases that are upgraded -/

/-- The first rows of the items, under their index. -/
def uniqueItems (db : LegacyDatabase) : LegacyDatabase :=
  db.deleteItems.addName "idx_migration_items_job_member_unique"

/-- The first rows of the provenance, under their index. -/
def uniqueProvenance (db : LegacyDatabase) : LegacyDatabase :=
  db.deleteProvenance.addName "idx_dataset_provenance_nullsafe_unique"

/-- The upgrade, which always returns. -/
def upgrade (db : LegacyDatabase) : LegacyDatabase := db.addMissing.uniqueItems.uniqueProvenance

theorem makeItemsUnique_eq (db : LegacyDatabase) : db.makeItemsUnique = .ok db.uniqueItems :=
  addUniqueIndex_of_nodup _ _ (uniqueKeys_keepFirst _ db.itemRowids)

theorem makeProvenanceUnique_eq (db : LegacyDatabase) :
    db.makeProvenanceUnique = .ok db.uniqueProvenance :=
  addUniqueIndex_of_nodup _ _ (uniqueKeys_keepFirst _ db.provenanceRowids)

theorem applyCompatibilityMigrations_eq (db : LegacyDatabase) :
    db.applyCompatibilityMigrations = .ok db.upgrade := by
  have hbind : ∀ db : LegacyDatabase, (Except.ok db >>= fun db => db.makeProvenanceUnique) =
      db.makeProvenanceUnique := fun _ => rfl
  rw [applyCompatibilityMigrations, makeItemsUnique_eq, hbind, makeProvenanceUnique_eq, upgrade]

/-- **All that the upgrade makes** is there. -/
structure Upgraded (db : LegacyDatabase) : Prop where
  present : ∀ a ∈ additions, db.Present a
  itemIndex : "idx_migration_items_job_member_unique" ∈ db.names
  provenanceIndex : "idx_dataset_provenance_nullsafe_unique" ∈ db.names
  items : UniqueKeys LegacyItem.key db.items
  provenance : UniqueKeys (fun r => r.toProvenance.key) db.provenance

theorem deleteItems_of_uniqueKeys (h : UniqueKeys LegacyItem.key db.items) :
    db.deleteItems = db := by
  have hsame : keepFirst LegacyItem.key LegacyItem.rowid db.items = db.items := keepFirst_eq_self h
  cases db
  simp only [deleteItems] at hsame ⊢
  simp only [hsame]

theorem deleteProvenance_of_uniqueKeys
    (h : UniqueKeys (fun r => r.toProvenance.key) db.provenance) : db.deleteProvenance = db := by
  have hsame : keepFirst (fun r => r.toProvenance.key) LegacyProvenance.rowid db.provenance =
      db.provenance := keepFirst_eq_self h
  cases db
  simp only [deleteProvenance] at hsame ⊢
  simp only [hsame]

/-- The upgrade leaves an upgraded database as it is. -/
theorem Upgraded.upgrade_eq (h : db.Upgraded) : db.upgrade = db := by
  have hmissing : db.addMissing = db := by
    rw [addMissing_eq]
    exact addAll_of_present h.present
  rw [upgrade, hmissing, uniqueItems, deleteItems_of_uniqueKeys h.items,
    addName_of_mem h.itemIndex, uniqueProvenance, deleteProvenance_of_uniqueKeys h.provenance,
    addName_of_mem h.provenanceIndex]

theorem Present.uniqueItems (h : db.Present a) : db.uniqueItems.Present a := by
  have hdelete : db.deleteItems.Present a := by
    cases a with
    | column table name => exact h
    | name name => exact h
  exact hdelete.addName _

theorem Present.uniqueProvenance (h : db.Present a) : db.uniqueProvenance.Present a := by
  have hdelete : db.deleteProvenance.Present a := by
    cases a with
    | column table name => exact h
    | name name => exact h
  exact hdelete.addName _

theorem uniqueKeys_uniqueItems (db : LegacyDatabase) :
    UniqueKeys LegacyItem.key db.uniqueItems.items := by
  rw [LegacyDatabase.uniqueItems, items_addName]
  exact uniqueKeys_keepFirst _ db.itemRowids

theorem items_uniqueProvenance (db : LegacyDatabase) : db.uniqueProvenance.items = db.items := by
  rw [LegacyDatabase.uniqueProvenance, items_addName]
  rfl

theorem uniqueKeys_uniqueProvenance (db : LegacyDatabase) :
    UniqueKeys (fun r => r.toProvenance.key) db.uniqueProvenance.provenance := by
  rw [LegacyDatabase.uniqueProvenance, provenance_addName]
  exact uniqueKeys_keepFirst _ db.provenanceRowids

/-- The upgrade makes an upgraded database. -/
theorem upgraded_upgrade (db : LegacyDatabase) : db.upgrade.Upgraded := by
  refine ⟨fun a ha => ?_, ?_, ?_, ?_, ?_⟩
  · have hmissing : db.addMissing.Present a := by
      rw [addMissing_eq]
      exact present_addAll ha
    exact hmissing.uniqueItems.uniqueProvenance
  · have hindex : db.addMissing.uniqueItems.Present
        (.name "idx_migration_items_job_member_unique") := by
      rw [LegacyDatabase.uniqueItems]
      exact present_addName _ "idx_migration_items_job_member_unique"
    exact hindex.uniqueProvenance
  · rw [upgrade, LegacyDatabase.uniqueProvenance]
    exact present_addName _ "idx_dataset_provenance_nullsafe_unique"
  · rw [upgrade, items_uniqueProvenance]
    exact uniqueKeys_uniqueItems db.addMissing
  · exact uniqueKeys_uniqueProvenance db.addMissing.uniqueItems

/-- **What the upgrade leaves as it is**: the upgraded databases and no others. -/
theorem upgrade_eq_self_iff : db.upgrade = db ↔ db.Upgraded := by
  constructor
  · intro h
    exact h ▸ db.upgraded_upgrade
  · exact Upgraded.upgrade_eq

/-! ## Starts that are cut short -/

/-- A start that ends behind `k` statements, or inside the transaction: what is behind the
first statements is rolled back. -/
def cutShort (k : ℕ) (db : LegacyDatabase) : LegacyDatabase := db.addAll (additions.take k)

theorem upgrade_cutShort (k : ℕ) (db : LegacyDatabase) : (db.cutShort k).upgrade = db.upgrade := by
  have hmissing : (db.cutShort k).addMissing = db.addMissing := by
    rw [addMissing_eq, addMissing_eq, cutShort, addAll_addAll_take]
  rw [upgrade, hmissing, upgrade]

theorem Upgraded.cutShort_eq (h : db.Upgraded) (k : ℕ) : db.cutShort k = db :=
  addAll_of_present fun a ha => h.present a (List.mem_of_mem_take ha)

/-! ## Runs -/

/-- The unique indexes that are there are obeyed. -/
def Obeys (db : LegacyDatabase) : Prop :=
  ("idx_migration_items_job_member_unique" ∈ db.names →
      (db.items.map LegacyItem.key).Nodup) ∧
    ("idx_dataset_provenance_nullsafe_unique" ∈ db.names →
      (db.provenance.map fun r => r.toProvenance.key).Nodup)

instance (db : LegacyDatabase) : Decidable db.Obeys := inferInstanceAs (Decidable (_ ∧ _))

/-- What happens to the database: a start, a start that is cut short, and the writes of a
transaction. -/
inductive StartLabel where
  | start
  | cutShort (k : ℕ)
  | write (db' : LegacyDatabase)

/-- A transaction changes neither the columns nor the indexes, and is refused when a unique index
is not obeyed. -/
def step (db : LegacyDatabase) : StartLabel → Option LegacyDatabase
  | .start => db.applyCompatibilityMigrations.toOption
  | .cutShort k => some (db.cutShort k)
  | .write db' =>
      if db'.columns = db.columns ∧ db'.names = db.names ∧ db'.Obeys then some db' else none

theorem Upgraded.step (h : db.Upgraded) {l : StartLabel} (hstep : db.step l = some db') :
    db'.Upgraded := by
  cases l with
  | start =>
    rw [LegacyDatabase.step, applyCompatibilityMigrations_eq] at hstep
    obtain rfl := Option.some.inj hstep
    exact db.upgraded_upgrade
  | cutShort k =>
    obtain rfl := Option.some.inj hstep
    rwa [h.cutShort_eq k]
  | write db'' =>
    rw [LegacyDatabase.step] at hstep
    split_ifs at hstep with hwrite
    obtain rfl := Option.some.inj hstep
    obtain ⟨hcolumns, hnames, hitems, hprovenance⟩ := hwrite
    have hitem : "idx_migration_items_job_member_unique" ∈ db''.names := hnames ▸ h.itemIndex
    have hprov : "idx_dataset_provenance_nullsafe_unique" ∈ db''.names := hnames ▸ h.provenanceIndex
    refine ⟨fun a ha => ?_, hitem, hprov, hitems hitem, hprovenance hprov⟩
    have hpresent := h.present a ha
    cases a with
    | column table name =>
      show (table, name) ∈ db''.columns
      exact hcolumns ▸ hpresent
    | name name =>
      show name ∈ db''.names
      exact hnames ▸ hpresent

/-- **Starts that are cut short do no harm**: behind any starts, cut short anywhere or not, a start
makes what it makes of the database as it was. -/
theorem start_of_starts {ls : List StartLabel} (hstarts : ∀ db', .write db' ∉ ls)
    (hrun : runLabels step db ls = some db') :
    db'.applyCompatibilityMigrations = db.applyCompatibilityMigrations := by
  rw [applyCompatibilityMigrations_eq, applyCompatibilityMigrations_eq]
  refine congrArg _ ?_
  induction ls generalizing db with
  | nil =>
      obtain rfl := Option.some.inj hrun
      rfl
  | cons l ls ih =>
      obtain ⟨t, ht, hrest⟩ := runLabels_cons_eq_some.mp hrun
      rw [ih (fun db' hmem => hstarts db' (List.mem_cons_of_mem _ hmem)) hrest]
      cases l with
      | start =>
        rw [step, applyCompatibilityMigrations_eq] at ht
        obtain rfl := Option.some.inj ht
        exact db.upgraded_upgrade.upgrade_eq
      | cutShort k =>
        obtain rfl := Option.some.inj ht
        exact upgrade_cutShort k db
      | write db'' => exact absurd (List.mem_cons_self ..) (hstarts db'')

/-- A start that is cut short behind three columns, one that is not, and the start behind them. -/
theorem start_of_starts_twice :
    ∃ db', runLabels step invitedTwice [.cutShort 3, .start] = some db' ∧
      db'.applyCompatibilityMigrations = invitedTwice.applyCompatibilityMigrations := by
  have hrun : runLabels step invitedTwice [.cutShort 3, .start] =
      some (invitedTwice.cutShort 3).upgrade := by
    rw [runLabels_cons, step, Option.bind_some, runLabels_cons, step,
      applyCompatibilityMigrations_eq]
    rfl
  exact ⟨_, hrun, start_of_starts (fun _ => by simp) hrun⟩

/-- **Behind the first start no later one changes anything**, cut short or not, whatever has been
written in between. -/
theorem upgrade_of_run {db₁ db₂ : LegacyDatabase} {ls : List StartLabel}
    (hstart : db.applyCompatibilityMigrations = .ok db₁)
    (hrun : runLabels step db₁ ls = some db₂) :
    db₂.applyCompatibilityMigrations = .ok db₂ ∧ ∀ k, db₂.cutShort k = db₂ := by
  rw [applyCompatibilityMigrations_eq] at hstart
  obtain rfl := Except.ok.inj hstart
  have hupgraded : db₂.Upgraded :=
    invariant_runLabels (C := fun _ _ => True) (fun _ _ _ h _ hstep => h.step hstep)
      db.upgraded_upgrade (along_of_forall_mem fun _ _ => trivial) hrun
  refine ⟨?_, hupgraded.cutShort_eq⟩
  rw [applyCompatibilityMigrations_eq, hupgraded.upgrade_eq]

/-- The start behind the first one, and behind a write that deletes the members. -/
theorem upgrade_of_run_twice :
    ∃ db₁ db₂, invitedTwice.applyCompatibilityMigrations = .ok db₁ ∧
      runLabels step db₁ [.write { db₁ with members := [] }] = some db₂ ∧
      db₂.applyCompatibilityMigrations = .ok db₂ := by
  have hupgraded := invitedTwice.upgraded_upgrade
  have hstart := applyCompatibilityMigrations_eq invitedTwice
  generalize invitedTwice.upgrade = db₁ at hupgraded hstart
  have hobeys : Obeys { db₁ with members := [] } :=
    ⟨fun _ => hupgraded.items, fun _ => hupgraded.provenance⟩
  have hrun : runLabels step db₁ [.write { db₁ with members := [] }] =
      some { db₁ with members := [] } := by
    rw [runLabels_cons, step, if_pos ⟨rfl, rfl, hobeys⟩]
    rfl
  exact ⟨db₁, _, hstart, hrun, (upgrade_of_run hstart hrun).1⟩

end LegacyDatabase

end Storage
end MigrationStudio
