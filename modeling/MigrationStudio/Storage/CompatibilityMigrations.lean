import MigrationStudio.Foundations.FirstRows
import MigrationStudio.Jobs.JobRows
import MigrationStudio.Members.Repository

/-!
# `storage/database.py`: the upgrade of an older database

`_apply_compatibility_migrations` adds the columns and tables that an older database lacks, and
leaves of the items of a job with one member, and of the provenance rows that are to be unique, the
first, so that the unique indexes can be created.  The states of the items and the counters of the
jobs are not looked at.

* `LegacyDatabase`, `applyCompatibilityMigrations`: the tables and the call.
* `LegacyDatabase.processedUserIds`, `tally`, `recount`: what the history is read for: the processed
  users of a target, and the counts of the distinct members and of the rows.
* `recount_keepFirst`: the rows that are left count the members by their first rows.
* `preserves_history_iff`: the databases whose history the upgrade preserves.
-/

namespace MigrationStudio
namespace Storage

open MigrationStudio.Core Foundations Jobs Members

/-- A row of `migration_items` with its rowid. -/
structure LegacyItem extends Item where
  rowid : ℕ
  jobId : JobId

/-- The key of `idx_migration_items_job_member_unique`. -/
def LegacyItem.key (r : LegacyItem) : JobId × MemberId := (r.jobId, r.memberId)

/-- A row of `dataset_provenance` with its rowid. -/
structure LegacyProvenance extends Provenance where
  rowid : ℕ

/-- The tables that the upgrade touches or that the history is read from, the columns
`(table, name)` and the names of the tables and indexes that it adds. -/
structure LegacyDatabase where
  jobs : List JobRow
  members : List Row
  items : List LegacyItem
  provenance : List LegacyProvenance
  columns : List (String × String)
  names : List String
  itemRowids : UniqueKeys LegacyItem.rowid items
  provenanceRowids : UniqueKeys LegacyProvenance.rowid provenance

namespace LegacyDatabase

/-- `_add_column`. -/
def addColumn (db : LegacyDatabase) (table name : String) : LegacyDatabase :=
  if (table, name) ∈ db.columns then db
  else { db with columns := db.columns ++ [(table, name)] }

/-- `CREATE ... IF NOT EXISTS` of a table or an index. -/
def addName (db : LegacyDatabase) (name : String) : LegacyDatabase :=
  if name ∈ db.names then db else { db with names := db.names ++ [name] }

/-- `CREATE UNIQUE INDEX IF NOT EXISTS` over rows with these keys. -/
def addUniqueIndex {κ : Type} [DecidableEq κ] (db : LegacyDatabase) (name : String)
    (keys : List κ) : Except IntegrityError LegacyDatabase :=
  if name ∈ db.names then .ok db
  else if keys.Nodup then .ok (db.addName name) else .error .unique

/-- The first DELETE. -/
def deleteItems (db : LegacyDatabase) : LegacyDatabase :=
  { db with
    items := keepFirst LegacyItem.key LegacyItem.rowid db.items
    itemRowids := db.itemRowids.filter _ }

/-- The second DELETE. -/
def deleteProvenance (db : LegacyDatabase) : LegacyDatabase :=
  { db with
    provenance :=
      keepFirst (fun r => r.toProvenance.key) LegacyProvenance.rowid db.provenance
    provenanceRowids := db.provenanceRowids.filter _ }

/-- The columns and tables that are missing. -/
def addMissing (db : LegacyDatabase) : LegacyDatabase :=
  ((((db.addColumn "migration_items" "target_state").addColumn "accounts"
    "connection_state").addColumn "accounts" "operation_state").addName
    "account_restrictions").addName "idx_account_restrictions_active"

/-- The first DELETE, and the index behind it. -/
def makeItemsUnique (db : LegacyDatabase) : Except IntegrityError LegacyDatabase :=
  db.deleteItems.addUniqueIndex "idx_migration_items_job_member_unique"
    (db.deleteItems.items.map LegacyItem.key)

/-- The second DELETE, and the index behind it. -/
def makeProvenanceUnique (db : LegacyDatabase) : Except IntegrityError LegacyDatabase :=
  db.deleteProvenance.addUniqueIndex "idx_dataset_provenance_nullsafe_unique"
    (db.deleteProvenance.provenance.map fun r => r.toProvenance.key)

/-- `_apply_compatibility_migrations`. -/
def applyCompatibilityMigrations (db : LegacyDatabase) : Except IntegrityError LegacyDatabase := do
  let db ← db.addMissing.makeItemsUnique
  db.makeProvenanceUnique

/-! ## The history -/

/-- `processed_user_ids_for_target`. -/
def processedUserIds (db : LegacyDatabase) (target : GroupId) : List ℤ :=
  ((db.jobs.filter fun job => job.targetGroupId = some target).flatMap fun job =>
    (db.items.filter fun item => item.jobId = job.id ∧ item.state = .success).flatMap fun item =>
      (db.members.filter fun m => m.id = item.memberId).filterMap Row.telegramUserId).dedup

/-- The members with an item of the job. -/
def membersOf (items : List LegacyItem) (job : JobId) : List MemberId :=
  ((items.filter fun r => r.jobId = job).map fun r => r.memberId).dedup

/-- The state of the first row of a job and a member. -/
def firstState (items : List LegacyItem) (job : JobId) (m : MemberId) :
    Option MigrationItemState :=
  (items.find? fun r =>
    r.key = (job, m) ∧ IsFirst LegacyItem.key LegacyItem.rowid items r).map fun r => r.state

/-- The state that a member counts with: SUCCESS wins, and otherwise it is that of the first row. -/
def winningState (items : List LegacyItem) (job : JobId) (m : MemberId) :
    Option MigrationItemState :=
  if items.any fun r => r.key = (job, m) ∧ r.state = .success then some .success
  else firstState items job m

/-- The counters from a total and the counts of the states. -/
def countersOf (total : ℕ) (count : MigrationItemState → ℕ) : Counters where
  total := total
  processed := count .success + count .skipped + count .failed
  success := count .success
  skipped := count .skipped
  failed := count .failed

/-- The counters of a job by its distinct members, each with its winning state. -/
def tally (items : List LegacyItem) (job : JobId) : Counters :=
  countersOf (membersOf items job).length fun state =>
    (membersOf items job).countP fun m => winningState items job m = some state

/-- The counters of a job by its rows. -/
def recount (items : List LegacyItem) (job : JobId) : Counters :=
  countersOf (items.filter fun r => r.jobId = job).length fun state =>
    (items.filter fun r => r.jobId = job).countP fun r => r.state = state

/-- **The history is preserved**: the processed users of every target, and the counters of every job
that were right. -/
structure PreservesHistory (db db' : LegacyDatabase) : Prop where
  processed : ∀ target uid, uid ∈ db'.processedUserIds target ↔ uid ∈ db.processedUserIds target
  jobs : db'.jobs = db.jobs
  counters : ∀ job ∈ db.jobs, job.counters = tally db.items job.id →
    job.counters = recount db'.items job.id

/-! ## The upgrade returns -/

variable {db db' : LegacyDatabase}

/-- The tables that the history is read from. -/
def SameTables (db db' : LegacyDatabase) : Prop :=
  db'.jobs = db.jobs ∧ db'.members = db.members ∧ db'.items = db.items

theorem SameTables.trans {db'' : LegacyDatabase} (h : SameTables db db')
    (h' : SameTables db' db'') : SameTables db db'' :=
  ⟨h'.1.trans h.1, h'.2.1.trans h.2.1, h'.2.2.trans h.2.2⟩

theorem sameTables_addColumn (db : LegacyDatabase) (table name : String) :
    SameTables db (db.addColumn table name) := by
  unfold addColumn
  split_ifs
  · exact ⟨rfl, rfl, rfl⟩
  · exact ⟨rfl, rfl, rfl⟩

theorem sameTables_addName (db : LegacyDatabase) (name : String) :
    SameTables db (db.addName name) := by
  unfold addName
  split_ifs
  · exact ⟨rfl, rfl, rfl⟩
  · exact ⟨rfl, rfl, rfl⟩

theorem sameTables_addMissing (db : LegacyDatabase) : SameTables db db.addMissing :=
  ((((sameTables_addColumn db _ _).trans (sameTables_addColumn _ _ _)).trans
    (sameTables_addColumn _ _ _)).trans (sameTables_addName _ _)).trans (sameTables_addName _ _)

/-- Over distinct keys a unique index can be created. -/
theorem addUniqueIndex_of_nodup {κ : Type} [DecidableEq κ] (db : LegacyDatabase) (name : String)
    {keys : List κ} (h : keys.Nodup) : db.addUniqueIndex name keys = .ok (db.addName name) := by
  unfold addUniqueIndex addName
  split_ifs
  · rfl
  · rfl

theorem makeItemsUnique_ok (db : LegacyDatabase) :
    ∃ db', db.makeItemsUnique = .ok db' ∧ SameTables db.deleteItems db' :=
  ⟨_, addUniqueIndex_of_nodup _ _ (uniqueKeys_keepFirst _ db.itemRowids), sameTables_addName _ _⟩

theorem makeProvenanceUnique_ok (db : LegacyDatabase) :
    ∃ db', db.makeProvenanceUnique = .ok db' ∧ SameTables db db' := by
  have hkeys : (db.deleteProvenance.provenance.map fun r => r.toProvenance.key).Nodup :=
    uniqueKeys_keepFirst _ db.provenanceRowids
  refine ⟨_, addUniqueIndex_of_nodup _ _ hkeys, ?_⟩
  have hsame : SameTables db db.deleteProvenance := ⟨rfl, rfl, rfl⟩
  exact hsame.trans (sameTables_addName _ _)

@[simp] theorem jobs_deleteItems (db : LegacyDatabase) : db.deleteItems.jobs = db.jobs := rfl

@[simp] theorem members_deleteItems (db : LegacyDatabase) :
    db.deleteItems.members = db.members := rfl

@[simp] theorem items_deleteItems (db : LegacyDatabase) :
    db.deleteItems.items = keepFirst LegacyItem.key LegacyItem.rowid db.items := rfl

/-- **The upgrade returns**, and leaves the first item of every job and member. -/
theorem applyCompatibilityMigrations_ok (db : LegacyDatabase) :
    ∃ db', db.applyCompatibilityMigrations = .ok db' ∧ db'.jobs = db.jobs ∧
      db'.members = db.members ∧
      db'.items = keepFirst LegacyItem.key LegacyItem.rowid db.items := by
  have hmissing := sameTables_addMissing db
  obtain ⟨db₁, hfirst, hitems⟩ := makeItemsUnique_ok db.addMissing
  obtain ⟨db₂, hsecond, hsame⟩ := makeProvenanceUnique_ok db₁
  refine ⟨db₂, ?_, ?_, ?_, ?_⟩
  · rw [applyCompatibilityMigrations, hfirst]
    exact hsecond
  · rw [hsame.1, hitems.1, jobs_deleteItems, hmissing.1]
  · rw [hsame.2.1, hitems.2.1, members_deleteItems, hmissing.2.1]
  · rw [hsame.2.2, hitems.2.2, items_deleteItems, hmissing.2.2]

/-! ## First rows -/

/-- The row is the first of its job and member. -/
def IsFirstItem (db : LegacyDatabase) (r : LegacyItem) : Prop :=
  IsFirst LegacyItem.key LegacyItem.rowid db.items r

variable {job : JobId} {m : MemberId}

theorem mem_membersOf {items : List LegacyItem} :
    m ∈ membersOf items job ↔ ∃ r ∈ items, r.jobId = job ∧ r.memberId = m := by
  simp only [membersOf, List.mem_dedup, List.mem_map, List.mem_filter, decide_eq_true_eq, and_assoc]

/-- The state of a first row is the one that is found for its job and member. -/
theorem firstState_eq {r : LegacyItem} (hr : r ∈ db.items) (hfirst : db.IsFirstItem r) :
    firstState db.items r.jobId r.memberId = some r.state := by
  have hfound : ∃ q, db.items.find? (fun q => q.key = (r.jobId, r.memberId) ∧
      IsFirst LegacyItem.key LegacyItem.rowid db.items q) = some q :=
    Option.isSome_iff_exists.mp (List.find?_isSome.mpr ⟨r, hr, decide_eq_true ⟨rfl, hfirst⟩⟩)
  obtain ⟨q, hq⟩ := hfound
  have hprop := List.find?_some hq
  simp only [decide_eq_true_eq] at hprop
  obtain rfl :=
    IsFirst.unique db.itemRowids hr (List.mem_of_find?_eq_some hq) hprop.1 hfirst hprop.2
  rw [firstState, hq]
  rfl

/-- The members of a job are those of its first rows, each once. -/
theorem map_memberId_keepFirst (db : LegacyDatabase) (job : JobId) :
    (((keepFirst LegacyItem.key LegacyItem.rowid db.items).filter fun r => r.jobId = job).map
      fun r => r.memberId).Perm (membersOf db.items job) := by
  refine (List.perm_ext_iff_of_nodup ?_ (List.nodup_dedup _)).mpr fun m => ?_
  · have hkeys := uniqueKeys_keepFirst LegacyItem.key db.itemRowids
    refine List.Nodup.map_on (fun a ha b hb hmember => ?_)
      ((List.Nodup.of_map _ hkeys).filter _)
    obtain ⟨ha, hajob⟩ := List.mem_filter.mp ha
    obtain ⟨hb, hbjob⟩ := List.mem_filter.mp hb
    simp only [decide_eq_true_eq] at hajob hbjob
    exact hkeys.eq_of_key_eq ha hb (Prod.ext (hajob.trans hbjob.symm) hmember)
  · show _ ↔ m ∈ membersOf db.items job
    rw [mem_membersOf, List.mem_map]
    constructor
    · rintro ⟨r, hr, rfl⟩
      obtain ⟨hr, hjob⟩ := List.mem_filter.mp hr
      exact ⟨r, ((mem_keepFirst db.itemRowids).mp hr).1, by simpa using hjob, rfl⟩
    · rintro ⟨r, hr, hjob, rfl⟩
      obtain ⟨q, hq, hkey, hfirst⟩ := exists_first LegacyItem.key LegacyItem.rowid hr
      obtain ⟨hqjob, hqmember⟩ := Prod.mk.inj hkey
      exact ⟨q, List.mem_filter.mpr ⟨(mem_keepFirst db.itemRowids).mpr ⟨hq, hfirst⟩,
        by simpa using hqjob.trans hjob⟩, hqmember⟩

/-- **The rows that are left** count the members by their first rows. -/
theorem recount_keepFirst (db : LegacyDatabase) (job : JobId) :
    recount (keepFirst LegacyItem.key LegacyItem.rowid db.items) job =
      countersOf (membersOf db.items job).length fun state =>
        (membersOf db.items job).countP fun m => firstState db.items job m = some state := by
  have hperm := map_memberId_keepFirst db job
  have hlength := hperm.length_eq
  rw [List.length_map] at hlength
  rw [recount, hlength]
  refine congrArg _ (funext fun state => ?_)
  rw [← hperm.countP_eq, List.countP_map]
  refine List.countP_congr fun r hmem => ?_
  obtain ⟨hkept, hjob⟩ := List.mem_filter.mp hmem
  obtain ⟨hr, hfirst⟩ := (mem_keepFirst db.itemRowids).mp hkept
  obtain rfl : r.jobId = job := by simpa using hjob
  have hstate : firstState db.items r.jobId r.memberId = some r.state := firstState_eq hr hfirst
  simp only [Function.comp_apply, hstate, decide_eq_true_eq, Option.some.injEq]

/-! ## Which histories are preserved -/

/-- The SUCCESS of a job and a member is on their first row, if there is one. -/
def FirstSucceeds (db : LegacyDatabase) (job : JobId) : Prop :=
  ∀ r ∈ db.items, r.jobId = job → r.state = .success →
    ∃ q ∈ db.items, q.key = r.key ∧ db.IsFirstItem q ∧ q.state = .success

/-- **The first rows have the history**: every SUCCESS of a job with right counters, and one SUCCESS
for every processed user of a target. -/
structure FirstRowsSucceed (db : LegacyDatabase) : Prop where
  counters : ∀ job ∈ db.jobs, job.counters = tally db.items job.id → db.FirstSucceeds job.id
  processed : ∀ target uid, uid ∈ db.processedUserIds target →
    ∃ job ∈ db.jobs, job.targetGroupId = some target ∧ ∃ q ∈ db.items, q.jobId = job.id ∧
      db.IsFirstItem q ∧ q.state = .success ∧
        ∃ m ∈ db.members, m.id = q.memberId ∧ m.telegramUserId = some uid

theorem any_success {items : List LegacyItem} :
    (items.any fun r => r.key = (job, m) ∧ r.state = .success) = true ↔
      ∃ r ∈ items, r.jobId = job ∧ r.memberId = m ∧ r.state = .success := by
  simp only [List.any_eq_true, decide_eq_true_eq, LegacyItem.key, Prod.mk.injEq, and_assoc]

theorem exists_of_firstState {state : MigrationItemState}
    (h : firstState db.items job m = some state) :
    ∃ q ∈ db.items, q.key = (job, m) ∧ db.IsFirstItem q ∧ q.state = state := by
  obtain ⟨q, hq, hstate⟩ := Option.map_eq_some_iff.mp h
  have hprop := List.find?_some hq
  simp only [decide_eq_true_eq] at hprop
  exact ⟨q, List.mem_of_find?_eq_some hq, hprop.1, hprop.2, hstate⟩

/-- A first SUCCESS wins. -/
theorem winningState_of_first (h : firstState db.items job m = some .success) :
    winningState db.items job m = some .success := by
  rw [winningState]
  split_ifs
  · rfl
  · exact h

/-- Of two counts of which one takes what the other takes, the equal ones take the same. -/
theorem of_countP_eq {α : Type*} {p q : α → Bool} {l : List α}
    (hpq : ∀ x ∈ l, p x = true → q x = true)
    (h : l.countP p = l.countP q) {x : α} (hx : x ∈ l) (hq : q x = true) : p x = true := by
  have hfilter : (l.filter q).filter p = l.filter p := by
    rw [List.filter_filter]
    refine List.filter_congr fun y hy => ?_
    cases hp : p y with
    | false => rfl
    | true => rw [hpq y hy hp, Bool.and_self]
  have hsub : (l.filter p).Sublist (l.filter q) := hfilter ▸ List.filter_sublist
  have heq : l.filter p = l.filter q := by
    refine hsub.eq_of_length ?_
    rw [← List.countP_eq_length_filter, ← List.countP_eq_length_filter, h]
  have hmem : x ∈ l.filter p := heq ▸ List.mem_filter.mpr ⟨hx, hq⟩
  exact (List.mem_filter.mp hmem).2

/-- **Right counters stay right** exactly when every SUCCESS is on a first row. -/
theorem tally_eq_recount_iff (db : LegacyDatabase) (job : JobId) :
    tally db.items job = recount (keepFirst LegacyItem.key LegacyItem.rowid db.items) job ↔
      db.FirstSucceeds job := by
  rw [recount_keepFirst]
  constructor
  · intro heq r hr hjob hsuccess
    have hm : r.memberId ∈ membersOf db.items job := mem_membersOf.mpr ⟨r, hr, hjob, rfl⟩
    have hwinning : winningState db.items job r.memberId = some .success := by
      rw [winningState, if_pos (any_success.mpr ⟨r, hr, hjob, rfl, hsuccess⟩)]
    have hcount : (membersOf db.items job).countP (fun m => firstState db.items job m =
          some .success) =
        (membersOf db.items job).countP fun m => winningState db.items job m = some .success :=
      (congrArg Counters.success heq).symm
    have hfirst := of_countP_eq (fun m _ h => decide_eq_true (winningState_of_first
      (of_decide_eq_true h))) hcount hm (decide_eq_true hwinning)
    obtain ⟨q, hq, hkey, hqfirst, hstate⟩ := exists_of_firstState (of_decide_eq_true hfirst)
    exact ⟨q, hq, hkey.trans (Prod.ext hjob.symm rfl), hqfirst, hstate⟩
  · intro hfirst
    have hsame : ∀ m, winningState db.items job m = firstState db.items job m := by
      intro m
      rw [winningState]
      split_ifs with hany
      · obtain ⟨r, hr, hjob, rfl, hsuccess⟩ := any_success.mp hany
        obtain ⟨q, hq, hkey, hqfirst, hstate⟩ := hfirst r hr hjob hsuccess
        obtain ⟨hqjob, hqmember⟩ := Prod.mk.inj hkey
        have hq' := firstState_eq hq hqfirst
        rw [hqjob, hqmember, hjob, hstate] at hq'
        exact hq'.symm
      · rfl
    rw [tally]
    simp only [hsame]

theorem mem_processedUserIds {target : GroupId} {uid : ℤ} :
    uid ∈ db.processedUserIds target ↔
      ∃ job ∈ db.jobs, job.targetGroupId = some target ∧ ∃ r ∈ db.items, r.jobId = job.id ∧
        r.state = .success ∧ ∃ m ∈ db.members, m.id = r.memberId ∧ m.telegramUserId = some uid := by
  simp only [processedUserIds, List.mem_dedup, List.mem_flatMap, List.mem_filterMap,
    List.mem_filter, decide_eq_true_eq, and_assoc]

/-- **The upgrade preserves the history** exactly when the first rows have it. -/
theorem preserves_history_iff (db : LegacyDatabase) :
    ∃ db', db.applyCompatibilityMigrations = .ok db' ∧
      (PreservesHistory db db' ↔ db.FirstRowsSucceed) := by
  obtain ⟨db', hok, hjobs, hmembers, hitems⟩ := applyCompatibilityMigrations_ok db
  refine ⟨db', hok, ?_⟩
  have hkept : ∀ r, r ∈ db'.items ↔ r ∈ db.items ∧ db.IsFirstItem r := by
    intro r
    rw [hitems]
    exact mem_keepFirst db.itemRowids
  constructor
  · intro hpreserved
    refine ⟨fun job hjob hright => ?_, fun target uid huid => ?_⟩
    · have hcounters := hpreserved.counters job hjob hright
      rw [hright, hitems] at hcounters
      exact (tally_eq_recount_iff db job.id).mp hcounters
    · obtain ⟨job, hjob, htarget, r, hr, hrjob, hstate, m, hm, hid, huid⟩ :=
        mem_processedUserIds.mp ((hpreserved.processed target uid).mpr huid)
      rw [hjobs] at hjob
      rw [hmembers] at hm
      obtain ⟨hr, hfirst⟩ := (hkept r).mp hr
      exact ⟨job, hjob, htarget, r, hr, hrjob, hfirst, hstate, m, hm, hid, huid⟩
  · intro hfirst
    refine ⟨fun target uid => ?_, hjobs, fun job hjob hright => ?_⟩
    · constructor
      · intro huid
        obtain ⟨job, hjob, htarget, r, hr, hrest⟩ := mem_processedUserIds.mp huid
        rw [hjobs] at hjob
        rw [hmembers] at hrest
        exact mem_processedUserIds.mpr ⟨job, hjob, htarget, r, ((hkept r).mp hr).1, hrest⟩
      · intro huid
        obtain ⟨job, hjob, htarget, q, hq, hqjob, hqfirst, hstate, m, hm, hid, huid⟩ :=
          hfirst.processed target uid huid
        exact mem_processedUserIds.mpr ⟨job, hjobs ▸ hjob, htarget, q, (hkept q).mpr ⟨hq, hqfirst⟩,
          hqjob, hstate, m, hmembers ▸ hm, hid, huid⟩
    · rw [hright, hitems]
      exact (tally_eq_recount_iff db job.id).mpr (hfirst.counters job hjob hright)

/-- A finished job with two rows for its only member: it failed, and later it succeeded. -/
def invitedTwice : LegacyDatabase where
  jobs :=
    [{ id := 1, jobType := .migration, state := .completed, targetGroupId := some 7
       counters := ⟨1, 1, 1, 0, 0⟩ }]
  members := [{ id := 3, telegramUserId := some 5 }]
  items :=
    [{ rowid := 1, jobId := 1, ordinal := 0, memberId := 3, state := .failed, attemptCount := 1
       lastErrorCode := none, lastErrorText := none, nextRetryAt := none },
      { rowid := 2, jobId := 1, ordinal := 1, memberId := 3, state := .success, attemptCount := 1
        lastErrorCode := none, lastErrorText := none, nextRetryAt := none }]
  provenance := []
  columns := []
  names := []
  itemRowids := by
    rw [UniqueKeys]
    decide
  provenanceRowids := List.nodup_nil

/-- The SUCCESS is deleted: the user is not processed any more, and the counters are wrong. -/
theorem success_deleted :
    ∃ db', invitedTwice.applyCompatibilityMigrations = .ok db' ∧
      invitedTwice.processedUserIds 7 = [5] ∧ db'.processedUserIds 7 = [] ∧
      ¬ PreservesHistory invitedTwice db' := by
  obtain ⟨db', hok, hjobs, hmembers, hitems⟩ := applyCompatibilityMigrations_ok invitedTwice
  have hbefore : invitedTwice.processedUserIds 7 = [5] := by decide
  have hafter : db'.processedUserIds 7 = [] := by
    unfold processedUserIds
    rw [hjobs, hmembers, hitems]
    decide
  refine ⟨db', hok, hbefore, hafter, fun hpreserved => ?_⟩
  have huid := (hpreserved.processed 7 5).mpr (by simp [hbefore])
  rw [hafter] at huid
  exact absurd huid (by simp)

end LegacyDatabase
end Storage
end MigrationStudio
