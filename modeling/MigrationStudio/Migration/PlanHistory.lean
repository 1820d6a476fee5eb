import MigrationStudio.Migration.PlanContents

/-!
# The plans of one database and what their jobs have achieved

INVITE and REMOVE jobs share the type, the items and the states of the items, so a SUCCESS does not
say whether the user was invited or removed.  `create_plan` leaves out everybody for whom a job of
the target has a SUCCESS.

* `PlanHistory`: the tables with the action that each job was planned with; plans of both kinds, any
  writes to the jobs and any operations on the members, in any order.
* `SucceededIn`: a job of the target and the action has a SUCCESS for the user.
* `mem_processedUserIds_iff`: the processed users are the invited and the removed ones.
* `excludes_invited_iff`: `create_plan` leaves out only invited users as long as the removed ones
  among its candidates have been invited too.
-/

namespace MigrationStudio
namespace Migration

open Foundations MigrationStudio.Core Members Telegram Jobs Storage

/-- The tables, and the actions that the jobs were planned with, by the index of the job. -/
structure PlanHistory where
  store : MemberStore
  good : store.Good
  plans : PlanTables
  actions : List Action

/-- A plan is made, a job is written to, or the members change. -/
inductive HistoryLabel where
  | plan (action : Action) (request : PlanRequest) (filterSpec : Option FilterSpec)
  | write (job : JobId) (w : JobWrite)
  | store (l : StoreLabel)

namespace PlanHistory

/-- One step.  The references that the members keep to the items are steps of the store. -/
def step (pyLower : String → String) (s : PlanHistory) : HistoryLabel → Option PlanHistory
  | .plan action request filterSpec =>
      let r := planFor s.good.sound pyLower action request filterSpec s.plans
      some { s with
        plans := r.2
        actions :=
          match r.1 with
          | .ok _ => s.actions ++ [action]
          | .error _ => s.actions }
  | .write job w =>
      some { s with plans := { s.plans with jobs := s.plans.jobs.modify job fun j => j.apply w } }
  | .store l =>
      match h : s.store.step pyLower l with
      | some store => some { s with store := store, good := (s.good.step h).1 }
      | none => none

/-- An empty database. -/
def start : PlanHistory where
  store := MemberStore.start
  good := MemberStore.good_start
  plans := ⟨[], []⟩
  actions := []

/-- A job of the target that was planned with the action has a SUCCESS for the user. -/
def SucceededIn (s : PlanHistory) (action : Action) (target : GroupId) (uid : ℤ) : Prop :=
  ∃ (i : JobId) (job : Job), s.plans.jobs[i]? = some job ∧ s.actions[i]? = some action ∧
    job.targetGroupId = some target ∧ ∃ item ∈ job.items.rows, item.state = .success ∧
      ∃ r ∈ s.store.tables.members, r.id = item.memberId ∧ r.telegramUserId = some uid

/-! ## Every job has an action -/

/-- Every job was planned with an action. -/
def Labelled (s : PlanHistory) : Prop := s.actions.length = s.plans.jobs.length

variable {pyLower : String → String} {s s' : PlanHistory} {l : HistoryLabel}

/-- A plan that returns has added one job; one that raises has added none. -/
theorem planFor_cases {t : MemberTables} (h : t.Sound) (action : Action) (q : PlanRequest)
    (filterSpec : Option FilterSpec) (db : PlanTables) :
    (∃ r job, (planFor h pyLower action q filterSpec db).1 = .ok r ∧
      (planFor h pyLower action q filterSpec db).2.jobs = db.jobs ++ [job]) ∨
    ∃ message, planFor h pyLower action q filterSpec db = (.error message, db) := by
  cases action with
  | invite => exact Or.inl ⟨_, _, rfl, tableAfter_succ _ _ 2⟩
  | remove =>
      by_cases hcov : q.precheck.coverage = .unavailable
      · exact Or.inr ⟨_, if_pos hcov⟩
      · have heq : planFor h pyLower .remove q filterSpec db = _ := if_neg hcov
        rw [heq]
        exact Or.inl ⟨_, _, rfl, tableAfter_succ _ _ 2⟩

theorem Labelled.step (hs : s.Labelled) (h : s.step pyLower l = some s') : s'.Labelled := by
  cases l with
  | plan action request filterSpec =>
      obtain rfl := Option.some.inj h
      rcases @planFor_cases pyLower _ s.good.sound action request filterSpec s.plans with
        ⟨r, job, hok, hjobs⟩ | ⟨message, herror⟩
      · simp only [Labelled, hok, hjobs, List.length_append, List.length_singleton]
        exact congrArg (· + 1) hs
      · simp only [Labelled, herror]
        exact hs
  | write job w =>
      obtain rfl := Option.some.inj h
      simp only [Labelled, List.length_modify]
      exact hs
  | store l =>
      simp only [PlanHistory.step] at h
      split at h
      · obtain rfl := Option.some.inj h
        exact hs
      · exact absurd h (by simp)

theorem labelled_of_run {ls : List HistoryLabel}
    (hrun : runLabels (PlanHistory.step pyLower) start ls = some s) : s.Labelled :=
  invariant_runLabels (C := fun _ _ => True) (fun _ _ _ hs _ hstep => Labelled.step hs hstep)
    (rfl : Labelled start) (along_of_forall_mem fun _ _ => trivial) hrun

/-- **The processed users** are those that an INVITE job or a REMOVE job has a SUCCESS for. -/
theorem mem_processedUserIds_iff (hs : s.Labelled) {target : GroupId} {uid : ℤ} :
    uid ∈ processedUserIds s.store.tables s.plans.jobs target ↔
      s.SucceededIn .invite target uid ∨ s.SucceededIn .remove target uid := by
  rw [mem_processedUserIds s.good.sound]
  constructor
  · rintro ⟨job, hjob, htarget, hitem⟩
    obtain ⟨i, hi, hget⟩ := List.mem_iff_getElem.mp hjob
    have hrow : s.plans.jobs[i]? = some job := List.getElem?_eq_some_iff.mpr ⟨hi, hget⟩
    have hlength : i < s.actions.length := hs ▸ hi
    obtain ⟨action, haction⟩ : ∃ action, s.actions[i]? = some action :=
      ⟨_, List.getElem?_eq_getElem hlength⟩
    cases action with
    | invite => exact Or.inl ⟨i, job, hrow, haction, htarget, hitem⟩
    | remove => exact Or.inr ⟨i, job, hrow, haction, htarget, hitem⟩
  · rintro (⟨i, job, hrow, -, htarget, hitem⟩ | ⟨i, job, hrow, -, htarget, hitem⟩)
    · exact ⟨job, List.mem_of_getElem? hrow, htarget, hitem⟩
    · exact ⟨job, List.mem_of_getElem? hrow, htarget, hitem⟩

/-! ## Who is left out as processed -/

/-- The member is a candidate of the plan but for what earlier jobs have done: it is in the dataset
with a hash of the account, it is valid and not excluded by the filter, and the precheck has not
found it in the target. -/
structure Candidate (s : PlanHistory) (pyLower : String → String) (q : PlanRequest)
    (spec : FilterSpec) (r : Row) (uid : ℤ) : Prop where
  member : r ∈ s.store.tables.members
  inDataset : s.store.tables.InDataset q.sourceDatasetId r.id
  telegramUserId : r.telegramUserId = some uid
  hash : (plannerRow s.store.tables q.accountId q.sourceDatasetId r).accessHash.isSome
  valid : valid pyLower spec (plannerRow s.store.tables q.accountId q.sourceDatasetId r) = true
  notExcluded : uid ∉ spec.excludeProcessed ∧ uid ∉ spec.excludeTarget
  absent : uid ∉ q.precheck.targetIds

/-- `create_plan` returns a job, and every candidate that it has not planned has been invited. -/
def ExcludesInvited (s : PlanHistory) (pyLower : String → String) (q : PlanRequest)
    (filterSpec : Option FilterSpec) : Prop :=
  ∃ summary job, (createPlanCall s.good.sound pyLower q filterSpec s.plans).1 =
      .ok (s.plans.jobs.length, summary) ∧
    (createPlanCall s.good.sound pyLower q filterSpec s.plans).2.jobs = s.plans.jobs ++ [job] ∧
    ∀ r uid, s.Candidate pyLower q (filterSpec.getD {}) r uid →
      r.id ∉ job.items.rows.map Item.memberId → s.SucceededIn .invite q.targetGroupId uid

/-- The candidates that have been removed from the target have been invited too. -/
def RemovedInvited (s : PlanHistory) (pyLower : String → String) (q : PlanRequest)
    (filterSpec : Option FilterSpec) : Prop :=
  ∀ r uid, s.Candidate pyLower q (filterSpec.getD {}) r uid →
    s.SucceededIn .remove q.targetGroupId uid → s.SucceededIn .invite q.targetGroupId uid

/-- A candidate is planned unless it has been processed. -/
theorem planned_iff {q : PlanRequest} {filterSpec : Option FilterSpec} {r : Row} {uid : ℤ}
    {summary : MigrationPlanSummary} {job : Job}
    (hexact : PlansExactly s.store.tables q
      (WantsInvite s.store.tables pyLower q (filterSpec.getD {}) s.plans.jobs) s.plans
      (createPlanCall s.good.sound pyLower q filterSpec s.plans) summary job)
    (hr : s.Candidate pyLower q (filterSpec.getD {}) r uid) :
    r.id ∈ job.items.rows.map Item.memberId ↔
      uid ∉ processedUserIds s.store.tables s.plans.jobs q.targetGroupId := by
  rw [hexact.exact]
  constructor
  · rintro ⟨r', hr', hid, -, uid', hash, huid', -, hwants⟩
    obtain rfl := s.good.sound.row_unique hr' hr.member hid
    obtain rfl : uid' = uid := Option.some.inj (huid'.symm.trans hr.telegramUserId)
    exact hwants.2.1
  · intro hnew
    obtain ⟨hash, hhash⟩ := Option.isSome_iff_exists.mp hr.hash
    exact ⟨r, hr.member, rfl, hr.inDataset, uid, hash, hr.telegramUserId, hhash, hr.valid, hnew,
      hr.notExcluded.1, hr.notExcluded.2, hr.absent⟩

theorem Labelled.excludesInvited_iff (hs : s.Labelled) (q : PlanRequest)
    (filterSpec : Option FilterSpec) :
    s.ExcludesInvited pyLower q filterSpec ↔ s.RemovedInvited pyLower q filterSpec := by
  obtain ⟨summary, job, hexact⟩ :=
    plansExactly_createPlanCall s.good.sound pyLower q filterSpec s.plans
  constructor
  · rintro ⟨summary', job', hresult, hcreated, hexcluded⟩ r uid hr hremoved
    obtain rfl : job = job' := by
      have hsame := hexact.created.symm.trans hcreated
      exact List.singleton_inj.mp (List.append_cancel_left hsame)
    refine hexcluded r uid hr fun hplanned => ?_
    exact (planned_iff hexact hr).mp hplanned ((mem_processedUserIds_iff hs).mpr (Or.inr hremoved))
  · intro hremoved
    refine ⟨summary, job, hexact.result, hexact.created, fun r uid hr hout => ?_⟩
    have hprocessed : uid ∈ processedUserIds s.store.tables s.plans.jobs q.targetGroupId :=
      not_not.mp fun hnew => hout ((planned_iff hexact hr).mpr hnew)
    rcases (mem_processedUserIds_iff hs).mp hprocessed with hinvited | hrem
    · exact hinvited
    · exact hremoved r uid hr hrem

/-- **Who is left out.**  After any history, `create_plan` leaves out only users for whom an INVITE
job of the target has a SUCCESS, if and only if it is so for those of its candidates for whom a
REMOVE job has one. -/
theorem excludes_invited_iff {ls : List HistoryLabel}
    (hrun : runLabels (PlanHistory.step pyLower) start ls = some s) (q : PlanRequest)
    (filterSpec : Option FilterSpec) :
    s.ExcludesInvited pyLower q filterSpec ↔ s.RemovedInvited pyLower q filterSpec :=
  (labelled_of_run hrun).excludesInvited_iff q filterSpec

/-- The only item of a job has succeeded, and the job is over. -/
def succeeded (job : JobId) : List HistoryLabel :=
  [.write job (.updateItems [{ ordinal := 0, state := .success, attempts := 1 }]
      (some { lastOrdinal := some 0 })),
    .write job (.setState .completed none none true)]

/-- A member of the target is removed. -/
def removedOnce : List HistoryLabel :=
  scanned.map .store ++ [.plan .remove outOfOne none] ++ succeeded 0

/-- The removed member is not in the target any more, was never invited, and is left out. -/
theorem removed_member_excluded :
    ∃ s, runLabels (PlanHistory.step id) start removedOnce = some s ∧
      s.actions = [.remove] ∧ ¬ s.ExcludesInvited id intoEmpty none := by
  have hall : (runLabels (PlanHistory.step id) start removedOnce).map (fun s =>
      (s.actions, s.plans.jobs[0]?.any (fun job => job.targetGroupId = some 0 &&
          job.items.rows.any fun item => item.state = .success && item.memberId = 1),
        s.store.tables.members.any fun r => r.id = 1 && r.telegramUserId = some 5 &&
          r.id ∈ s.store.tables.memberIds 0 && valid id {} (plannerRow s.store.tables 1 0 r))) =
      some ([.remove], true, true) := by decide +kernel
  obtain ⟨s, hs, hdata⟩ := Option.map_eq_some_iff.mp hall
  obtain ⟨hactions, hdata⟩ := Prod.mk.inj hdata
  obtain ⟨hjob, hmember⟩ := Prod.mk.inj hdata
  obtain ⟨r, hr, hrow⟩ := List.any_eq_true.mp hmember
  simp only [Bool.and_eq_true, decide_eq_true_eq] at hrow
  obtain ⟨⟨⟨hid, huid⟩, hin⟩, hvalid⟩ := hrow
  refine ⟨s, hs, hactions, fun hexcludes => ?_⟩
  have hcandidate : s.Candidate id intoEmpty {} r 5 :=
    ⟨hr, MemberTables.mem_memberIds.mp hin, huid, isSome_hash_of_valid hvalid, hvalid,
      ⟨by simp, by simp⟩,
      by simp [intoEmpty]⟩
  have hremoved : s.SucceededIn .remove 0 5 := by
    obtain ⟨job, hget, hjob⟩ := (Option.any_eq_true ..).mp hjob
    simp only [Bool.and_eq_true, decide_eq_true_eq, List.any_eq_true] at hjob
    obtain ⟨htarget, item, hitem, hstate, hmember⟩ := hjob
    exact ⟨0, job, hget, by rw [hactions]; rfl, htarget, item, hitem, hstate, r, hr,
      hid.trans hmember.symm, huid⟩
  obtain ⟨i, job, -, haction, -⟩ := ((labelled_of_run hs).excludesInvited_iff intoEmpty none).mp
    hexcludes r 5 hcandidate hremoved
  rw [hactions] at haction
  exact absurd (List.mem_singleton.mp (List.mem_of_getElem? haction)) (by decide)

/-- A member is invited. -/
def invitedOnce : List HistoryLabel :=
  scanned.map .store ++ [.plan .invite intoEmpty none] ++ succeeded 0

theorem excludes_invited_once :
    ∃ s, runLabels (PlanHistory.step id) start invitedOnce = some s ∧
      s.ExcludesInvited id intoEmpty none := by
  have hall : (runLabels (PlanHistory.step id) start invitedOnce).map (·.actions) =
      some [.invite] := by decide +kernel
  obtain ⟨s, hs, hactions⟩ := Option.map_eq_some_iff.mp hall
  refine ⟨s, hs, (excludes_invited_iff hs intoEmpty none).mpr ?_⟩
  rintro r uid - ⟨i, job, -, haction, -⟩
  rw [hactions] at haction
  have hmem := List.mem_of_getElem? haction
  exact absurd (List.mem_singleton.mp hmem) (by decide)

end PlanHistory
end Migration
end MigrationStudio
