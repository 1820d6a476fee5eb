import MigrationStudio.Storage.MemberStore

/-!
# `migration/planner.py`: what a plan holds

`create_plan` and `create_remove_plan` from the reading of the rows to the return: the loop, its
counters, and the three writes of `_persist`, here all committed.

* `createPlanCall`, `createRemovePlanCall`: the two functions.
* `items_selectItems_eq`: the running sets of the loop do not show; an item is a row on its own
  merits.
* `length_selectItems`: the counters of the loop partition the rows.
* `plans_exact`: the items of a plan are the rows that its action asks for.
* `target_state_truthful_iff`: the plans whose items are tagged truthfully.
-/

namespace MigrationStudio
namespace Migration

open Foundations MigrationStudio.Core Members Telegram Jobs

/-- `MigrationPlanSummary`. -/
structure MigrationPlanSummary where
  totalSource : ℕ
  filtered : ℕ
  alreadyTarget : ℕ
  invalid : ℕ
  ready : ℕ
  deriving DecidableEq, Repr

/-- A row that `submit_add_items` inserts, with the columns that it writes. -/
structure RecordedItem where
  jobId : JobId
  ordinal : ℕ
  memberId : MemberId
  targetState : TargetMemberState
  deriving DecidableEq, Repr

/-- The tables that a plan writes; `recorded` has the target states of the items. -/
structure PlanTables where
  jobs : List Job
  recorded : List RecordedItem

/-- The arguments of a plan, but for the filter. -/
structure PlanRequest where
  accountId : AccountId
  sourceDatasetId : DatasetId
  targetGroupId : GroupId
  precheck : PrecheckResult

/-- `processed_user_ids_for_target`. -/
def processedUserIds (t : MemberTables) (jobs : List Job) (target : GroupId) : List ℤ :=
  ((jobs.filter fun job => job.targetGroupId = some target).flatMap fun job =>
    (job.items.rows.filter fun item => item.state = .success).filterMap fun item =>
      (t.members.find? fun r => r.id = item.memberId).bind Row.telegramUserId).dedup

/-- The rows that `submit_add_items` inserts for a list of items. -/
def recordItems (id : JobId) (items : List (MemberId × TargetMemberState)) : List RecordedItem :=
  items.zipIdx.map fun p => ⟨id, p.2, p.1.1, p.1.2⟩

/-- The end of a plan: the summary, and `_persist` with its three writes. -/
def finishPlan {t : MemberTables} (h : t.Sound) (q : PlanRequest) (action : Action)
    (skip : PlannerRow → ℤ → Bool) (pick : ℤ → Option TargetMemberState) (db : PlanTables) :
    (JobId × MigrationPlanSummary) × PlanTables :=
  let rows := plannerRows t q.accountId q.sourceDatasetId
  let s := selectItems skip pick rows
  let plan : Plan :=
    ⟨q.accountId, q.targetGroupId, s.items.map Prod.fst, action,
      nodup_selectItems h q.accountId q.sourceDatasetId⟩
  let id := db.jobs.length
  ((id, ⟨rows.length, s.filtered, s.already, s.invalid, s.items.length⟩),
    ⟨tableAfter plan db.jobs 3, db.recorded ++ recordItems id s.items⟩)

/-- What `create_plan` skips beyond an id that it has seen. -/
def skipInvite (pyLower : String → String) (processed : List ℤ) (spec : FilterSpec)
    (row : PlannerRow) (uid : ℤ) : Bool :=
  !valid pyLower spec row || processed.contains uid || spec.excludeProcessed.contains uid ||
    spec.excludeTarget.contains uid

/-- The tag that `create_plan` gives an id, unless it is in the target. -/
def pickInvite (precheck : PrecheckResult) (uid : ℤ) : Option TargetMemberState :=
  if uid ∈ precheck.targetIds then none
  else if precheck.coverage = .complete then some .knownAbsent
  else some .unknownTargetState

/-- The tag that `create_remove_plan` gives an id in the target. -/
def pickRemove (precheck : PrecheckResult) (uid : ℤ) : Option TargetMemberState :=
  if uid ∈ precheck.targetIds then some .knownAbsent else none

/-- `create_plan`. -/
def createPlanCall {t : MemberTables} (h : t.Sound) (pyLower : String → String) (q : PlanRequest)
    (filterSpec : Option FilterSpec) (db : PlanTables) :
    Except String (JobId × MigrationPlanSummary) × PlanTables :=
  let spec := filterSpec.getD {}
  let processed := processedUserIds t db.jobs q.targetGroupId
  let r := finishPlan h q .invite (skipInvite pyLower processed spec) (pickInvite q.precheck) db
  (.ok r.1, r.2)

/-- `create_remove_plan`. -/
def createRemovePlanCall {t : MemberTables} (h : t.Sound) (pyLower : String → String)
    (q : PlanRequest) (filterSpec : Option FilterSpec) (db : PlanTables) :
    Except String (JobId × MigrationPlanSummary) × PlanTables :=
  if q.precheck.coverage = .unavailable then
    (.error "Không thể xác minh thành viên group đích để tạo kế hoạch xóa an toàn.", db)
  else
    let spec := filterSpec.getD {}
    let r := finishPlan h q .remove (fun row _ => !valid pyLower spec row)
      (pickRemove q.precheck) db
    (.ok r.1, r.2)

/-- The plan that the action asks for. -/
def planFor {t : MemberTables} (h : t.Sound) (pyLower : String → String) :
    Action → PlanRequest → Option FilterSpec → PlanTables →
      Except String (JobId × MigrationPlanSummary) × PlanTables
  | .remove => createRemovePlanCall h pyLower
  | .invite => createPlanCall h pyLower

/-! ## The loop -/

variable {skip : PlannerRow → ℤ → Bool} {pick : ℤ → Option TargetMemberState}

/-- The item that a row gives when no row before it has its Telegram id. -/
def itemOf (skip : PlannerRow → ℤ → Bool) (pick : ℤ → Option TargetMemberState)
    (row : PlannerRow) : Option (MemberId × TargetMemberState) :=
  match row.telegramUserId, row.accessHash with
  | some uid, some _ =>
      if skip row uid then none else (pick uid).map fun state => (row.id, state)
  | _, _ => none

theorem itemOf_eq_some {row : PlannerRow} {id : MemberId} {state : TargetMemberState} :
    itemOf skip pick row = some (id, state) ↔ ∃ uid hash, row.telegramUserId = some uid ∧
      row.accessHash = some hash ∧ skip row uid = false ∧ pick uid = some state ∧ row.id = id := by
  unfold itemOf
  constructor
  · intro h
    split at h
    · rename_i uid hash huid hhash
      split_ifs at h with hskip
      obtain ⟨state', hpick, heq⟩ := Option.map_eq_some_iff.mp h
      obtain ⟨hid, rfl⟩ := Prod.mk.inj heq
      exact ⟨uid, hash, huid, hhash, Bool.eq_false_iff.mpr hskip, hpick, hid⟩
    · exact absurd h (by simp)
  · rintro ⟨uid, hash, huid, hhash, hskip, hpick, rfl⟩
    rw [huid, hhash]
    simp [hskip, hpick]

theorem itemOf_of_hash {row : PlannerRow} {uid hash : ℤ} (huid : row.telegramUserId = some uid)
    (hhash : row.accessHash = some hash) : itemOf skip pick row =
      if skip row uid then none else (pick uid).map fun state => (row.id, state) := by
  unfold itemOf
  rw [huid, hhash]

/-- Whether the id of the row has been seen. -/
def Selecting.Fresh (s : Selecting) (row : PlannerRow) : Prop :=
  ∀ uid, row.telegramUserId = some uid → uid ∉ s.seen

/-- **One turn**: the item of the row, if its id is new; only this id is seen besides. -/
theorem selectOne_of_fresh {s : Selecting} {row : PlannerRow} (h : s.Fresh row) :
    (selectOne skip pick s row).items = s.items ++ (itemOf skip pick row).toList ∧
      ∀ uid ∈ (selectOne skip pick s row).seen, uid ∈ s.seen ∨ row.telegramUserId = some uid := by
  unfold selectOne
  split
  · rename_i uid hash huid hhash
    rw [itemOf_of_hash huid hhash]
    have hseen : s.seen.contains uid = false := by simpa using h uid huid
    rw [hseen, Bool.false_or]
    split_ifs with hskip
    · exact ⟨(List.append_nil _).symm, fun x hx => Or.inl hx⟩
    · have hlast : ∀ x ∈ s.seen ++ [uid], x ∈ s.seen ∨ row.telegramUserId = some x := by
        intro x hx
        refine (List.mem_append.mp hx).imp_right fun hx => ?_
        rw [List.mem_singleton.mp hx, huid]
      split
      · rename_i hpick
        rw [hpick]
        exact ⟨(List.append_nil _).symm, hlast⟩
      · rename_i state hpick
        rw [hpick]
        exact ⟨rfl, hlast⟩
  · rename_i hnone
    have hitem : itemOf skip pick row = none := by
      unfold itemOf
      split
      · rename_i uid hash huid hhash
        exact absurd hhash (hnone uid hash huid)
      · rfl
    rw [hitem]
    exact ⟨(List.append_nil _).symm, fun x hx => Or.inl hx⟩

/-- No two rows have one Telegram id. -/
def DistinctIds (rows : List PlannerRow) : Prop :=
  rows.Pairwise fun a b => ∀ uid, a.telegramUserId = some uid → b.telegramUserId ≠ some uid

theorem items_foldl_eq (rows : List PlannerRow) (s : Selecting) (hrows : DistinctIds rows)
    (hs : ∀ row ∈ rows, s.Fresh row) :
    (rows.foldl (selectOne skip pick) s).items = s.items ++ rows.filterMap (itemOf skip pick) := by
  induction rows generalizing s with
  | nil => exact (List.append_nil _).symm
  | cons row rows ih =>
      obtain ⟨hrow, hrest⟩ := List.pairwise_cons.mp hrows
      obtain ⟨hitems, hseen⟩ :=
        @selectOne_of_fresh skip pick s row (hs row (List.mem_cons_self ..))
      have hfresh : ∀ q ∈ rows, (selectOne skip pick s row).Fresh q := by
        intro q hq uid huid hmem
        rcases hseen uid hmem with hold | hnew
        · exact hs q (List.mem_cons_of_mem _ hq) uid huid hold
        · exact hrow q hq uid hnew huid
      rw [List.foldl_cons, ih _ hrest hfresh, hitems, List.append_assoc, List.filterMap_cons]
      refine congrArg _ ?_
      cases itemOf skip pick row with
      | none => rfl
      | some item => rfl

/-- **The items of a loop** over rows with different Telegram ids. -/
theorem items_selectItems_eq {rows : List PlannerRow} (h : DistinctIds rows) :
    (selectItems skip pick rows).items = rows.filterMap (itemOf skip pick) := by
  refine (items_foldl_eq rows {} h fun row _ uid _ hmem => ?_).trans (List.nil_append _)
  exact absurd hmem (List.not_mem_nil (a := uid))

/-- The rows that the loop has counted. -/
def Selecting.counted (s : Selecting) : ℕ := s.filtered + s.already + s.invalid + s.items.length

/-- **One turn** counts its row once. -/
theorem counted_selectOne (s : Selecting) (row : PlannerRow) :
    (selectOne skip pick s row).counted = s.counted + 1 := by
  unfold selectOne
  split
  · split_ifs with hskip
    · simp only [Selecting.counted]
      omega
    · split
      · simp only [Selecting.counted]
        omega
      · simp only [Selecting.counted, List.length_append, List.length_singleton]
        omega
  · simp only [Selecting.counted]
    omega

/-- **The counters partition the rows.** -/
theorem length_selectItems (rows : List PlannerRow) :
    (selectItems skip pick rows).counted = rows.length := by
  have hfold : ∀ s : Selecting,
      (rows.foldl (selectOne skip pick) s).counted = s.counted + rows.length := by
    induction rows with
    | nil => exact fun s => rfl
    | cons row rows ih =>
        intro s
        rw [List.foldl_cons, ih, counted_selectOne, List.length_cons]
        omega
  exact (hfold {}).trans (Nat.zero_add _)

/-! ## The rows -/

/-- The row that `_rows` returns for a member. -/
def plannerRow (t : MemberTables) (account : AccountId) (d : DatasetId) (r : Row) : PlannerRow where
  id := r.id
  telegramUserId := r.telegramUserId
  username := r.username
  bot := r.bot
  deleted := r.deleted
  activityStatus := r.activityStatus
  accessHash := r.telegramUserId.bind fun uid => (t.peerCache account uid).bind PeerRow.accessHash
  sourceLabels := groupConcat t d r.id

/-- A valid row has a hash. -/
theorem isSome_hash_of_valid {pyLower : String → String} {spec : FilterSpec} {row : PlannerRow}
    (h : valid pyLower spec row = true) : row.accessHash.isSome := by
  unfold valid at h
  simp only [Bool.and_eq_true] at h
  exact h.1.1.1.1.1.2

variable {t : MemberTables} {account : AccountId} {d : DatasetId}

theorem plannerRows_eq : plannerRows t account d =
    (t.members.filter fun r => r.id ∈ t.memberIds d).map (plannerRow t account d) := rfl

theorem mem_plannerRows {row : PlannerRow} : row ∈ plannerRows t account d ↔
    ∃ r ∈ t.members, t.InDataset d r.id ∧ plannerRow t account d r = row := by
  simp only [plannerRows_eq, List.mem_map, List.mem_filter, decide_eq_true_eq,
    MemberTables.mem_memberIds, and_assoc]

theorem distinctIds_plannerRows (h : t.Sound) : DistinctIds (plannerRows t account d) := by
  have hmembers : t.members.Pairwise fun a b => a.identity ≠ b.identity :=
    List.pairwise_map.mp h.identities
  rw [plannerRows_eq, DistinctIds, List.pairwise_map]
  refine (hmembers.sublist List.filter_sublist).imp fun {a b} hne uid ha hb => hne ?_
  exact (Row.identity_of_some ha).trans (Row.identity_of_some hb).symm

theorem pairwise_plannerRows (h : t.Sound) :
    (plannerRows t account d).Pairwise fun a b => a.id < b.id := by
  rw [plannerRows_eq, List.pairwise_map]
  exact h.ids.sublist List.filter_sublist

/-- Every member of the dataset has a row. -/
theorem length_plannerRows (h : t.Sound) :
    (plannerRows t account d).length = (t.memberIds d).length := by
  have hids : ((plannerRows t account d).map PlannerRow.id).Nodup := nodup_plannerRows h account d
  have hperm : ((plannerRows t account d).map PlannerRow.id).Perm (t.memberIds d) := by
    refine (List.perm_ext_iff_of_nodup hids (h.nodup_memberIds d)).mpr fun m => ?_
    rw [List.mem_map]
    constructor
    · rintro ⟨row, hrow, rfl⟩
      obtain ⟨r, -, hin, rfl⟩ := mem_plannerRows.mp hrow
      exact MemberTables.mem_memberIds.mpr hin
    · intro hm
      have hin := MemberTables.mem_memberIds.mp hm
      obtain ⟨r, hr, rfl⟩ := h.mem_of_inDataset hin
      exact ⟨_, mem_plannerRows.mpr ⟨r, hr, hin, rfl⟩, rfl⟩
  rw [← hperm.length_eq, List.length_map]

/-- The processed ids of a target, spelled out. -/
theorem mem_processedUserIds (h : t.Sound) {jobs : List Job} {target : GroupId} {uid : ℤ} :
    uid ∈ processedUserIds t jobs target ↔
      ∃ job ∈ jobs, job.targetGroupId = some target ∧ ∃ item ∈ job.items.rows,
        item.state = .success ∧ ∃ r ∈ t.members, r.id = item.memberId ∧
          r.telegramUserId = some uid := by
  simp only [processedUserIds, List.mem_dedup, List.mem_flatMap, List.mem_filterMap,
    List.mem_filter, decide_eq_true_eq, Option.bind_eq_some_iff]
  constructor
  · rintro ⟨job, ⟨hjob, htarget⟩, item, ⟨hitem, hstate⟩, r, hfind, huid⟩
    exact ⟨job, hjob, htarget, item, hitem, hstate, r, List.mem_of_find?_eq_some hfind,
      by simpa using List.find?_some hfind, huid⟩
  · rintro ⟨job, hjob, htarget, item, hitem, hstate, r, hr, hid, huid⟩
    exact ⟨job, ⟨hjob, htarget⟩, item, ⟨hitem, hstate⟩, r, hid ▸ h.find?_row hr, huid⟩

/-! ## Exact plans -/

/-- **A plan is exact** for the rows that are wanted: it creates one job, whose items have the
ordinals `0, ..., n - 1` and are by increasing id the members of the dataset that have a Telegram
id, a hash of the account, and are wanted; `n` is in the row of the job and in the summary, and the
counters of the summary partition the dataset. -/
structure PlansExactly (t : MemberTables) (q : PlanRequest) (wanted : PlannerRow → ℤ → Prop)
    (db : PlanTables) (r : Except String (JobId × MigrationPlanSummary) × PlanTables)
    (summary : MigrationPlanSummary) (job : Job) : Prop where
  result : r.1 = .ok (db.jobs.length, summary)
  created : r.2.jobs = db.jobs ++ [job]
  ordinals : job.items.rows.map Item.ordinal = List.range summary.ready
  total : job.counters.total = summary.ready
  increasing : (job.items.rows.map Item.memberId).Pairwise (· < ·)
  exact : ∀ m, m ∈ job.items.rows.map Item.memberId ↔
    ∃ r ∈ t.members, r.id = m ∧ t.InDataset q.sourceDatasetId m ∧
      ∃ uid hash, r.telegramUserId = some uid ∧
        (plannerRow t q.accountId q.sourceDatasetId r).accessHash = some hash ∧
        wanted (plannerRow t q.accountId q.sourceDatasetId r) uid
  source : summary.totalSource = (t.memberIds q.sourceDatasetId).length
  partition : summary.totalSource =
    summary.filtered + summary.alreadyTarget + summary.invalid + summary.ready

theorem memberId_addItems (members : List MemberId) :
    (addItems members).rows.map Item.memberId = members := by
  conv_rhs => rw [← List.zipIdx_map_fst 0 members]
  rw [addItems, List.map_map]
  rfl

theorem ordinal_addItems (members : List MemberId) :
    (addItems members).rows.map Item.ordinal = List.range members.length := by
  rw [List.range_eq_range', ← List.zipIdx_map_snd 0 members, addItems, List.map_map]
  rfl

/-- **The end of a plan** is exact for the rows that the loop does not skip and picks. -/
theorem plansExactly_finishPlan (h : t.Sound) (q : PlanRequest) (action : Action)
    (db : PlanTables) {wanted : PlannerRow → ℤ → Prop}
    (hwanted : ∀ row uid, wanted row uid ↔ skip row uid = false ∧ ∃ state, pick uid = some state) :
    ∃ summary job, PlansExactly t q wanted db
      (.ok (finishPlan h q action skip pick db).1, (finishPlan h q action skip pick db).2)
      summary job := by
  let rows := plannerRows t q.accountId q.sourceDatasetId
  let s := selectItems skip pick rows
  have hitems : s.items = rows.filterMap (itemOf skip pick) :=
    items_selectItems_eq (distinctIds_plannerRows h)
  refine ⟨_, persist q.accountId q.targetGroupId (s.items.map Prod.fst) action,
    ⟨rfl, tableAfter_succ _ _ 2, ?_, ?_, ?_, fun m => ?_, length_plannerRows h, ?_⟩⟩
  · show (addItems (s.items.map Prod.fst)).rows.map Item.ordinal = List.range s.items.length
    rw [ordinal_addItems, List.length_map]
  · exact List.length_map _
  · show ((addItems (s.items.map Prod.fst)).rows.map Item.memberId).Pairwise (· < ·)
    obtain ⟨picked, hsub, -, heq⟩ := @items_selectItems skip pick rows
    rw [memberId_addItems, heq, List.pairwise_map]
    exact (pairwise_plannerRows h).sublist hsub
  · show m ∈ (addItems (s.items.map Prod.fst)).rows.map Item.memberId ↔ _
    rw [memberId_addItems, hitems]
    constructor
    · intro hm
      obtain ⟨⟨m, state⟩, hp, rfl⟩ := List.mem_map.mp hm
      obtain ⟨row, hrow, hitem⟩ := List.mem_filterMap.mp hp
      obtain ⟨uid, hash, huid, hhash, hskip, hpick, rfl⟩ := itemOf_eq_some.mp hitem
      obtain ⟨r, hr, hin, rfl⟩ := mem_plannerRows.mp hrow
      exact ⟨r, hr, rfl, hin, uid, hash, huid, hhash, (hwanted _ uid).mpr ⟨hskip, state, hpick⟩⟩
    · rintro ⟨r, hr, rfl, hin, uid, hash, huid, hhash, hw⟩
      obtain ⟨hskip, state, hpick⟩ := (hwanted _ uid).mp hw
      refine List.mem_map.mpr ⟨(r.id, state), List.mem_filterMap.mpr ?_, rfl⟩
      exact ⟨_, mem_plannerRows.mpr ⟨r, hr, hin, rfl⟩,
        itemOf_eq_some.mpr ⟨uid, hash, huid, hhash, hskip, hpick, rfl⟩⟩
  · exact (@length_selectItems skip pick rows).symm

/-- The rows that `create_plan` wants. -/
def WantsInvite (t : MemberTables) (pyLower : String → String) (q : PlanRequest)
    (spec : FilterSpec) (jobs : List Job) (row : PlannerRow) (uid : ℤ) : Prop :=
  valid pyLower spec row = true ∧ uid ∉ processedUserIds t jobs q.targetGroupId ∧
    uid ∉ spec.excludeProcessed ∧ uid ∉ spec.excludeTarget ∧ uid ∉ q.precheck.targetIds

/-- The rows that `create_remove_plan` wants. -/
def WantsRemove (pyLower : String → String) (q : PlanRequest) (spec : FilterSpec)
    (row : PlannerRow) (uid : ℤ) : Prop :=
  valid pyLower spec row = true ∧ uid ∈ q.precheck.targetIds

theorem pickInvite_eq_some {precheck : PrecheckResult} {uid : ℤ} {state : TargetMemberState} :
    pickInvite precheck uid = some state ↔ uid ∉ precheck.targetIds ∧
      state = if precheck.coverage = .complete then .knownAbsent else .unknownTargetState := by
  unfold pickInvite
  by_cases hin : uid ∈ precheck.targetIds
  · simp [hin]
  · rw [if_neg hin, and_iff_right hin]
    split_ifs with hcov
    · rw [Option.some.injEq, eq_comm]
    · rw [Option.some.injEq, eq_comm]

theorem pickRemove_eq_some {precheck : PrecheckResult} {uid : ℤ} {state : TargetMemberState} :
    pickRemove precheck uid = some state ↔
      uid ∈ precheck.targetIds ∧ state = .knownAbsent := by
  unfold pickRemove
  by_cases hin : uid ∈ precheck.targetIds
  · rw [if_pos hin, and_iff_right hin, Option.some.injEq, eq_comm]
  · simp [hin]

/-- **`create_plan` is exact** for the rows that it wants. -/
theorem plansExactly_createPlanCall (h : t.Sound) (pyLower : String → String) (q : PlanRequest)
    (filterSpec : Option FilterSpec) (db : PlanTables) :
    ∃ summary job, PlansExactly t q (WantsInvite t pyLower q (filterSpec.getD {}) db.jobs) db
      (createPlanCall h pyLower q filterSpec db) summary job := by
  refine plansExactly_finishPlan h q .invite db fun row uid => ?_
  simp only [WantsInvite, skipInvite, pickInvite_eq_some, Bool.or_eq_false_iff,
    Bool.not_eq_false', List.contains_eq_mem, decide_eq_false_iff_not, exists_and_left,
    exists_eq, and_true, and_assoc]

open Storage MemberStore

theorem sound_of_run {pyLower : String → String} {ls : List StoreLabel} {s : MemberStore}
    (hrun : runLabels (step pyLower) start ls = some s) : s.tables.Sound :=
  (good_of_run good_start hrun).1.sound

/-- **Plans are exact**, after any run and for any history of jobs.  `create_plan` plans the rows
that are valid and whose id is not processed, excluded or in the target; `create_remove_plan` plans
the valid rows in the target, and raises, without a job, when the target could not be read. -/
theorem plans_exact {pyLower : String → String} {ls : List StoreLabel} {s : MemberStore}
    (hrun : runLabels (step pyLower) start ls = some s) (q : PlanRequest)
    (filterSpec : Option FilterSpec) (db : PlanTables) :
    (∃ summary job, PlansExactly s.tables q
      (WantsInvite s.tables pyLower q (filterSpec.getD {}) db.jobs) db
      (createPlanCall (sound_of_run hrun) pyLower q filterSpec db) summary job) ∧
    (q.precheck.coverage ≠ .unavailable → ∃ summary job, PlansExactly s.tables q
      (WantsRemove pyLower q (filterSpec.getD {})) db
      (createRemovePlanCall (sound_of_run hrun) pyLower q filterSpec db) summary job) ∧
    (q.precheck.coverage = .unavailable → ∃ message,
      createRemovePlanCall (sound_of_run hrun) pyLower q filterSpec db = (.error message, db)) := by
  refine ⟨plansExactly_createPlanCall (sound_of_run hrun) pyLower q filterSpec db,
    fun hcov => ?_, fun hcov => ?_⟩
  · rw [createRemovePlanCall, if_neg hcov]
    refine plansExactly_finishPlan (sound_of_run hrun) q .remove db fun row uid => ?_
    simp only [WantsRemove, pickRemove_eq_some, Bool.not_eq_false', exists_and_left, exists_eq,
      and_true]
  · exact ⟨_, if_pos hcov⟩

/-- An account, a dataset and a scan of two members, one without Telegram id. -/
def scanned : List StoreLabel := scannedAndPlanned.take 3

/-- A plan into a target with nobody in it. -/
def intoEmpty : PlanRequest := ⟨1, 0, 0, ⟨∅, .complete⟩⟩

theorem plans_exact_scanned :
    ∃ s, runLabels (step id) start scanned = some s ∧ ∃ h : s.tables.Sound, ∃ summary job,
      PlansExactly s.tables intoEmpty (WantsInvite s.tables id intoEmpty {} []) ⟨[], []⟩
        (createPlanCall h id intoEmpty none ⟨[], []⟩) summary job := by
  have hsome : (runLabels (step id) start scanned).isSome = true := by decide +kernel
  obtain ⟨s, hs⟩ := Option.isSome_iff_exists.mp hsome
  exact ⟨s, hs, sound_of_run hs, (plans_exact hs intoEmpty none ⟨[], []⟩).1⟩

/-- A call of `_persist` that returns has written what the plan says. -/
theorem jobs_of_returned {plan : Plan} {jobs : List Job} {ls : List PlanLabel} {s : Planning}
    {id : JobId} (hrun : runLabels (Planning.step plan) (Planning.start jobs) ls = some s)
    (hreturned : s.point = .returned id) : id = jobs.length ∧ s.jobs = tableAfter plan jobs 3 := by
  have hprogress := Planning.progress_of_run (Planning.progress_start plan jobs) hrun
  rw [Nat.zero_add] at hprogress
  have hpoint : PlanPoint.after jobs.length (ls.count .commit) = .returned id := by
    rcases hprogress.point with h | h
    · rw [← h, hreturned]
    · rw [hreturned] at h
      exact absurd h (by simp)
  have htable := hprogress.table
  revert hpoint htable
  generalize ls.count .commit = n
  intro hpoint htable
  match n with
  | 0 => exact absurd hpoint (by simp [PlanPoint.after])
  | 1 => exact absurd hpoint (by simp [PlanPoint.after, PlanPoint.next])
  | 2 => exact absurd hpoint (by simp [PlanPoint.after, PlanPoint.next])
  | n + 3 =>
      rw [PlanPoint.after_add_three, PlanPoint.returned.injEq] at hpoint
      refine ⟨hpoint.symm, ?_⟩
      rw [htable, tableAfter_succ, tableAfter_succ plan jobs 2]
      rfl

/-! ## The target states -/

/-- The tag of an item says what the precheck has found. -/
def RecordedItem.Truthful (t : MemberTables) (precheck : PrecheckResult) (i : RecordedItem) :
    Prop :=
  i.targetState = .knownAbsent → precheck.coverage = .complete ∧
    ∀ r ∈ t.members, r.id = i.memberId → ∀ uid, r.telegramUserId = some uid →
      uid ∉ precheck.targetIds

/-- The rows that a plan has recorded. -/
def RecordsTruthfully (t : MemberTables) (q : PlanRequest) (db : PlanTables)
    (r : Except String (JobId × MigrationPlanSummary) × PlanTables) : Prop :=
  ∃ new, r.2.recorded = db.recorded ++ new ∧ ∀ i ∈ new, i.Truthful t q.precheck

theorem mem_recordItems {id : JobId} {items : List (MemberId × TargetMemberState)}
    {i : RecordedItem} (hi : i ∈ recordItems id items) : (i.memberId, i.targetState) ∈ items := by
  obtain ⟨p, hp, rfl⟩ := List.mem_map.mp hi
  exact List.fst_mem_of_mem_zipIdx hp

theorem exists_recordItems (id : JobId) {items : List (MemberId × TargetMemberState)}
    {m : MemberId} {state : TargetMemberState} (h : (m, state) ∈ items) :
    ∃ i ∈ recordItems id items, i.memberId = m ∧ i.targetState = state := by
  obtain ⟨k, hk, hget⟩ := List.mem_iff_getElem.mp h
  refine ⟨_, List.mem_map.mpr ⟨((m, state), k), ?_, rfl⟩, rfl, rfl⟩
  rw [List.mk_mem_zipIdx_iff_getElem?]
  exact List.getElem?_eq_some_iff.mpr ⟨hk, hget⟩

/-- **The tags of a plan** are truthful exactly when those that the loop gives are. -/
theorem recordsTruthfully_finishPlan (h : t.Sound) (q : PlanRequest) (action : Action)
    (db : PlanTables) :
    RecordsTruthfully t q db
      (.ok (finishPlan h q action skip pick db).1, (finishPlan h q action skip pick db).2) ↔
      ∀ r ∈ t.members, t.InDataset q.sourceDatasetId r.id →
        ∀ state, itemOf skip pick (plannerRow t q.accountId q.sourceDatasetId r) =
          some (r.id, state) → state = .knownAbsent →
          q.precheck.coverage = .complete ∧
            ∀ uid, r.telegramUserId = some uid → uid ∉ q.precheck.targetIds := by
  let rows := plannerRows t q.accountId q.sourceDatasetId
  let s := selectItems skip pick rows
  have hitems : s.items = rows.filterMap (itemOf skip pick) :=
    items_selectItems_eq (distinctIds_plannerRows h)
  have hmem : ∀ m state, (m, state) ∈ s.items ↔ ∃ r ∈ t.members,
      t.InDataset q.sourceDatasetId r.id ∧ r.id = m ∧
      itemOf skip pick (plannerRow t q.accountId q.sourceDatasetId r) = some (r.id, state) := by
    intro m state
    rw [hitems, List.mem_filterMap]
    constructor
    · rintro ⟨row, hrow, hitem⟩
      obtain ⟨r, hr, hin, rfl⟩ := mem_plannerRows.mp hrow
      obtain ⟨-, -, -, -, -, -, hid⟩ := itemOf_eq_some.mp hitem
      obtain rfl : r.id = m := hid
      exact ⟨r, hr, hin, rfl, hitem⟩
    · rintro ⟨r, hr, hin, rfl, hitem⟩
      exact ⟨_, mem_plannerRows.mpr ⟨r, hr, hin, rfl⟩, hitem⟩
  constructor
  · rintro ⟨new, hnew, htruthful⟩ r hr hin state hitem hstate
    obtain rfl : recordItems db.jobs.length s.items = new := List.append_cancel_left hnew
    obtain ⟨i, hi, hid, his⟩ := exists_recordItems db.jobs.length
      ((hmem r.id state).mpr ⟨r, hr, hin, rfl, hitem⟩)
    obtain ⟨hcov, hout⟩ := htruthful i hi (his.trans hstate)
    exact ⟨hcov, hout r hr hid.symm⟩
  · intro htags
    refine ⟨recordItems db.jobs.length s.items, rfl, fun i hi habsent => ?_⟩
    obtain ⟨r, hr, hin, hid, hitem⟩ := (hmem _ _).mp (mem_recordItems hi)
    obtain ⟨hcov, hout⟩ := htags r hr hin _ hitem habsent
    refine ⟨hcov, fun r' hr' hid' => ?_⟩
    obtain rfl := h.row_unique hr' hr (hid'.trans hid.symm)
    exact hout

/-- No row of the dataset that is valid, with an id and a hash, is in the target. -/
def NobodyToRemove (t : MemberTables) (pyLower : String → String) (q : PlanRequest)
    (spec : FilterSpec) : Prop :=
  ∀ r ∈ t.members, t.InDataset q.sourceDatasetId r.id →
    valid pyLower spec (plannerRow t q.accountId q.sourceDatasetId r) = true →
      ∀ uid, r.telegramUserId = some uid → uid ∉ q.precheck.targetIds

/-- **The tags of the plans.**  After any run, the plan of an action tags only items as absent from
the target that a complete precheck has not found there, if and only if the action is not to remove
members that the precheck has found there. -/
theorem target_state_truthful_iff {pyLower : String → String} {ls : List StoreLabel}
    {s : MemberStore} (hrun : runLabels (step pyLower) start ls = some s) (action : Action)
    (q : PlanRequest) (filterSpec : Option FilterSpec) (db : PlanTables) :
    RecordsTruthfully s.tables q db
        (planFor (sound_of_run hrun) pyLower action q filterSpec db) ↔
      action = .invite ∨ q.precheck.coverage = .unavailable ∨
        NobodyToRemove s.tables pyLower q (filterSpec.getD {}) := by
  cases action with
  | invite =>
      refine iff_of_true ?_ (Or.inl rfl)
      refine (recordsTruthfully_finishPlan (sound_of_run hrun) q .invite db).mpr ?_
      intro r hr hin state hitem habsent
      obtain ⟨uid, hash, huid, -, -, hpick, -⟩ := itemOf_eq_some.mp hitem
      obtain ⟨hout, hstate⟩ := pickInvite_eq_some.mp hpick
      refine ⟨?_, fun x hx => ?_⟩
      · by_contra hcov
        rw [if_neg hcov, habsent] at hstate
        exact absurd hstate (by decide)
      · have hsame : uid = x := Option.some.inj (huid.symm.trans hx)
        exact hsame ▸ hout
  | remove =>
      rw [or_iff_right (by decide)]
      show RecordsTruthfully s.tables q db (createRemovePlanCall _ pyLower q filterSpec db) ↔ _
      by_cases hcov : q.precheck.coverage = .unavailable
      · rw [createRemovePlanCall, if_pos hcov]
        exact iff_of_true ⟨[], (List.append_nil _).symm, fun i hi => absurd hi (by simp)⟩
          (Or.inl hcov)
      · rw [createRemovePlanCall, if_neg hcov, or_iff_right hcov]
        refine (recordsTruthfully_finishPlan (sound_of_run hrun) q .remove db).trans ?_
        refine forall₃_congr fun r hr hin => ?_
        constructor
        · intro htags hvalid uid huid htarget
          obtain ⟨hash, hhash⟩ := Option.isSome_iff_exists.mp (isSome_hash_of_valid hvalid)
          refine (htags _ (itemOf_eq_some.mpr ⟨uid, hash, huid, hhash, ?_,
            pickRemove_eq_some.mpr ⟨htarget, rfl⟩, rfl⟩) rfl).2 uid huid htarget
          rw [hvalid]
          rfl
        · intro hnobody state hitem habsent
          obtain ⟨uid, hash, huid, -, hskip, hpick, -⟩ := itemOf_eq_some.mp hitem
          have hvalid : valid pyLower (filterSpec.getD {})
              (plannerRow s.tables q.accountId q.sourceDatasetId r) = true := by
            simpa using hskip
          exact absurd (pickRemove_eq_some.mp hpick).1 (hnobody hvalid uid huid)

theorem target_state_truthful_scanned :
    ∃ s, runLabels (step id) start scanned = some s ∧ ∃ h : s.tables.Sound,
      RecordsTruthfully s.tables intoEmpty ⟨[], []⟩
        (planFor h id .invite intoEmpty none ⟨[], []⟩) := by
  have hsome : (runLabels (step id) start scanned).isSome = true := by decide +kernel
  obtain ⟨s, hs⟩ := Option.isSome_iff_exists.mp hsome
  exact ⟨s, hs, sound_of_run hs,
    (target_state_truthful_iff hs .invite intoEmpty none ⟨[], []⟩).mpr (Or.inl rfl)⟩

/-- A plan to remove from a target that has one of the two members. -/
def outOfOne : PlanRequest := ⟨1, 0, 0, ⟨{5}, .complete⟩⟩

/-- The member with the Telegram id 5 is known to be in the target and is recorded as absent. -/
theorem removed_member_known_absent :
    ∃ s, runLabels (step id) start scanned = some s ∧ ∃ h : s.tables.Sound,
      (planFor h id .remove outOfOne none ⟨[], []⟩).2.recorded = [⟨0, 0, 1, .knownAbsent⟩] ∧
      ¬ RecordsTruthfully s.tables outOfOne ⟨[], []⟩
        (planFor h id .remove outOfOne none ⟨[], []⟩) := by
  have hboth : (runLabels (step id) start scanned).map (fun s =>
      (recordItems 0 (selectItems (fun row _ => !valid id {} row) (pickRemove outOfOne.precheck)
        (plannerRows s.tables 1 0)).items,
        (s.tables.members.find? fun r => r.id = 1).map Row.telegramUserId)) =
      some ([⟨0, 0, 1, .knownAbsent⟩], some (some 5)) := by decide +kernel
  obtain ⟨s, hs, hpair⟩ := Option.map_eq_some_iff.mp hboth
  obtain ⟨hitems, hmember⟩ := Prod.mk.inj hpair
  have hrecorded : (planFor (sound_of_run hs) id .remove outOfOne none ⟨[], []⟩).2.recorded =
      [⟨0, 0, 1, .knownAbsent⟩] := hitems
  refine ⟨s, hs, sound_of_run hs, hrecorded, ?_⟩
  rintro ⟨new, hnew, htruthful⟩
  rw [hrecorded] at hnew
  obtain rfl : [⟨0, 0, 1, .knownAbsent⟩] = new := hnew
  obtain ⟨r, hfind, huid⟩ := Option.map_eq_some_iff.mp hmember
  have hid : r.id = 1 := by simpa using List.find?_some hfind
  have hout := (htruthful _ (List.mem_singleton_self _) rfl).2 r (List.mem_of_find?_eq_some hfind)
    hid 5 huid
  exact absurd hout (by decide)

end Migration
end MigrationStudio
