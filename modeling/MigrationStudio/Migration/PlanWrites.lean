import MigrationStudio.Foundations.KeyedRows
import MigrationStudio.Foundations.LabelledRuns
import MigrationStudio.Migration.Planner

/-!
# `_persist`: a plan is three transactions

`_persist` creates the job, adds the items and writes the checkpoint.  Each of the three is a
critical task of the write lane, hence a transaction of its own, and the planner waits for it with
a timeout.  The operation of a task may raise, the planner may give up a task that the writer
executes later, and the application may stop; whatever is committed by then stays.  The row of the
job is READY, with its total, from the first transaction on.

* `PlanWrite`, `PlanWrite.apply`: the three operations on the table of jobs.
* `Planning`, `Planning.step`: the planner and its task in the lane.
* `tableAfter_succ`: the row after each of the transactions; after the third it is the job that
  the rest of the development starts from.
* `ready_jobs_planned_iff`: the READY jobs are completely planned exactly when none or all of the
  three transactions are committed.
-/

namespace MigrationStudio

open Foundations MigrationStudio.Core

namespace Jobs

/-! ## `INSERT OR IGNORE` -/

/-- A row put at its place by ordinal, unless the ordinal is taken. -/
def insertRow (r : Item) : List Item → List Item
  | [] => [r]
  | q :: rest =>
      if r.ordinal < q.ordinal then r :: q :: rest
      else if r.ordinal = q.ordinal then q :: rest
      else q :: insertRow r rest

theorem mem_insertRow {r q : Item} {rows : List Item} (h : q ∈ insertRow r rows) :
    q = r ∨ q ∈ rows := by
  induction rows with
  | nil => exact Or.inl (List.mem_singleton.mp h)
  | cons p rest ih =>
      unfold insertRow at h
      split_ifs at h with hlt heq
      · exact List.mem_cons.mp h
      · exact Or.inr h
      · rcases List.mem_cons.mp h with rfl | h
        · exact Or.inr (List.mem_cons_self ..)
        · exact (ih h).imp_right (List.mem_cons_of_mem _)

theorem pairwise_insertRow {r : Item} {rows : List Item}
    (h : rows.Pairwise fun a b => a.ordinal < b.ordinal) :
    (insertRow r rows).Pairwise fun a b => a.ordinal < b.ordinal := by
  induction rows with
  | nil => exact List.pairwise_singleton _ _
  | cons q rest ih =>
      obtain ⟨hq, hrest⟩ := List.pairwise_cons.mp h
      unfold insertRow
      split_ifs with hlt heq
      · refine List.pairwise_cons.mpr ⟨fun p hp => ?_, h⟩
        rcases List.mem_cons.mp hp with rfl | hp
        · exact hlt
        · exact hlt.trans (hq p hp)
      · exact h
      · refine List.pairwise_cons.mpr ⟨fun p hp => ?_, ih hrest⟩
        rcases mem_insertRow hp with rfl | hp
        · omega
        · exact hq p hp

/-- A row above all others comes last. -/
theorem insertRow_of_above {r : Item} {rows : List Item}
    (h : ∀ q ∈ rows, q.ordinal < r.ordinal) : insertRow r rows = rows ++ [r] := by
  induction rows with
  | nil => rfl
  | cons q rest ih =>
      have hq := h q (List.mem_cons_self ..)
      unfold insertRow
      rw [if_neg (by omega), if_neg (by omega), ih fun p hp => h p (List.mem_cons_of_mem _ hp)]
      rfl

namespace ItemTable

/-- `INSERT OR IGNORE INTO migration_items`: a job has one row for an ordinal, and by
`idx_migration_items_job_member_unique` one row for a member. -/
def insertOrIgnore (t : ItemTable) (r : Item) : ItemTable :=
  if t.rows.any fun q => q.memberId = r.memberId then t
  else ⟨insertRow r t.rows, pairwise_insertRow t.sorted⟩

end ItemTable
end Jobs

namespace Migration

open Jobs

/-- The row that `submit_add_items` inserts for the member at a position of its list. -/
def plannedItem (p : MemberId × ℕ) : Item := ⟨p.2, p.1, .ready, 0, none, none, none⟩

/-- `operation` of `submit_add_items`. -/
def submitAddItems (members : List MemberId) (job : Job) : Job :=
  { job with
    items := (members.zipIdx.map plannedItem).foldl ItemTable.insertOrIgnore job.items
    counters := { job.counters with total := members.length } }

/-- What `create_plan` and `create_remove_plan` hand to `_persist`; a dataset holds a member once,
and so does the list of items. -/
structure Plan where
  accountId : AccountId
  targetGroupId : GroupId
  readyItems : List MemberId
  action : Action
  nodup : readyItems.Nodup

/-- The row that `create` inserts for the plan. -/
def Plan.create (plan : Plan) : Job where
  jobType := .migration
  state := .ready
  accountId := some plan.accountId
  targetGroupId := some plan.targetGroupId
  counters := ⟨plan.readyItems.length, 0, 0, 0, 0⟩
  waitingUntil := none
  checkpoint := {}
  items := ⟨[], List.Pairwise.nil⟩

/-- The tasks of `_persist`. -/
inductive PlanWrite where
  | create
  | addItems (id : JobId)
  | checkpoint (id : JobId)
  deriving DecidableEq, Repr

/-- The operation of a task on the table of jobs; a new row gets the next id. -/
def PlanWrite.apply (plan : Plan) (jobs : List Job) : PlanWrite → List Job
  | create => jobs ++ [plan.create]
  | addItems id => jobs.modify id (submitAddItems plan.readyItems)
  | checkpoint id =>
      jobs.modify id fun job => { job with checkpoint := { action := some plan.action } }

/-- Where `_persist` is; each of the first three submits a task and waits for its result. -/
inductive PlanPoint where
  | creating
  | adding (id : JobId)
  | marking (id : JobId)
  | returned (id : JobId)
  | raised
  deriving DecidableEq, Repr

/-- The task that `_persist` submits at a point. -/
def PlanPoint.task : PlanPoint → Option PlanWrite
  | creating => some .create
  | adding id => some (.addItems id)
  | marking id => some (.checkpoint id)
  | returned _ | raised => none

/-- Where `_persist` goes on when its task has been committed; `lastrowid` is the id of the new
row. -/
def PlanPoint.next (lastrowid : JobId) : PlanPoint → PlanPoint
  | creating => adding lastrowid
  | adding id => marking id
  | marking id => returned id
  | p => p

/-- A call of `_persist`: where it is, whether it waits, the task of its that the writer has not
executed, and the table of jobs as committed. -/
structure Planning where
  point : PlanPoint
  waiting : Bool
  queued : Option PlanWrite
  jobs : List Job

/-- What may happen during a call: it submits its next task, the writer commits the task or the
task raises, the wait times out, the application stops. -/
inductive PlanLabel where
  | submit | commit | fail | timeout | stop
  deriving DecidableEq, Repr

namespace Planning

/-- One step of the call.  A task that is given up stays in the writer's queue. -/
def step (plan : Plan) (s : Planning) : PlanLabel → Option Planning
  | .submit =>
      if s.waiting then none
      else s.point.task.map fun w => { s with waiting := true, queued := some w }
  | .commit =>
      s.queued.map fun w =>
        { point := if s.waiting then s.point.next s.jobs.length else s.point
          waiting := false
          queued := none
          jobs := w.apply plan s.jobs }
  | .fail =>
      s.queued.map fun _ => { s with point := .raised, waiting := false, queued := none }
  | .timeout =>
      if s.waiting then some { s with point := .raised, waiting := false } else none
  | .stop => some { s with point := .raised, waiting := false, queued := none }

/-- The call before its first task. -/
def start (jobs : List Job) : Planning := ⟨.creating, false, none, jobs⟩

end Planning

/-! ## The three operations -/

theorem foldl_insertOrIgnore (rows : List Item) (t : ItemTable)
    (h : (t.rows ++ rows).Pairwise fun a b => a.ordinal < b.ordinal ∧ a.memberId ≠ b.memberId) :
    (rows.foldl ItemTable.insertOrIgnore t).rows = t.rows ++ rows := by
  induction rows generalizing t with
  | nil => exact (List.append_nil _).symm
  | cons r rows ih =>
      have hbefore := fun q hq => (List.pairwise_append.mp h).2.2 q hq r (List.mem_cons_self ..)
      have hone : (t.insertOrIgnore r).rows = t.rows ++ [r] := by
        unfold ItemTable.insertOrIgnore
        rw [if_neg]
        · exact insertRow_of_above fun q hq => (hbefore q hq).1
        · rw [List.any_eq_true]
          rintro ⟨q, hq, hsame⟩
          exact (hbefore q hq).2 (by simpa using hsame)
      have hsplit : (t.insertOrIgnore r).rows ++ rows = t.rows ++ r :: rows := by
        rw [hone, List.append_assoc]
        rfl
      rw [List.foldl_cons, ih _ (hsplit ▸ h), hsplit]

/-- Into an empty table all rows are inserted. -/
theorem items_submitAddItems (plan : Plan) :
    (submitAddItems plan.readyItems plan.create).items = addItems plan.readyItems := by
  have hmembers : (plan.readyItems.zipIdx.map plannedItem).Pairwise
      fun a b => a.memberId ≠ b.memberId := by
    have hnodup := plan.nodup
    rw [← List.zipIdx_map_fst 0 plan.readyItems] at hnodup
    exact List.pairwise_map.mpr (List.pairwise_map.mp hnodup)
  have hrows := foldl_insertOrIgnore (plan.readyItems.zipIdx.map plannedItem)
    plan.create.items ((addItems plan.readyItems).sorted.and hmembers)
  exact ItemTable.mk.injEq .. ▸ hrows

/-- Where `_persist` is when it has gone on `n` times, for the new row `id`. -/
def PlanPoint.after (id : JobId) : ℕ → PlanPoint
  | 0 => creating
  | n + 1 => (after id n).next id

/-- The table of jobs after the first `n` tasks. -/
def tableAfter (plan : Plan) (jobs : List Job) : ℕ → List Job
  | 0 => jobs
  | n + 1 =>
      match (PlanPoint.after jobs.length n).task with
      | some w => w.apply plan (tableAfter plan jobs n)
      | none => tableAfter plan jobs n

/-- The row of the planned job after the first `n + 1` tasks. -/
def rowAfter (plan : Plan) : ℕ → Job
  | 0 => plan.create
  | 1 => submitAddItems plan.readyItems plan.create
  | _ => persist plan.accountId plan.targetGroupId plan.readyItems plan.action

theorem PlanPoint.after_add_three (id : JobId) (n : ℕ) : after id (n + 3) = returned id := by
  induction n with
  | zero => rfl
  | succ n ih =>
      show (after id (n + 3)).next id = returned id
      rw [ih]
      rfl

/-- **The row grows by one transaction after the other**; the third leaves the planned job. -/
theorem tableAfter_succ (plan : Plan) (jobs : List Job) (n : ℕ) :
    tableAfter plan jobs (n + 1) = jobs ++ [rowAfter plan n] := by
  match n with
  | 0 => rfl
  | 1 => exact modify_length_append jobs plan.create _
  | 2 =>
      have htwo : tableAfter plan jobs 2 =
          jobs ++ [submitAddItems plan.readyItems plan.create] :=
        modify_length_append jobs plan.create _
      show (tableAfter plan jobs 2).modify jobs.length _ = _
      rw [htwo, modify_length_append]
      simp only [rowAfter, items_submitAddItems, persist]
      rfl
  | n + 3 =>
      have ih := tableAfter_succ plan jobs (n + 2)
      rw [tableAfter, PlanPoint.after_add_three]
      exact ih

/-! ## A call -/

namespace Planning

variable {plan : Plan} {jobs : List Job}

/-- The call after `n` commits: the table, and a task in the writer's queue only while the planner
waits for it or after it has given it up. -/
structure Progress (plan : Plan) (jobs : List Job) (n : ℕ) (s : Planning) : Prop where
  table : s.jobs = tableAfter plan jobs n
  point : s.point = PlanPoint.after jobs.length n ∨ s.point = .raised
  queued : ∀ w ∈ s.queued, (PlanPoint.after jobs.length n).task = some w
  waits : s.waiting = true → s.point = PlanPoint.after jobs.length n
  given : s.queued.isSome → s.waiting = true ∨ s.point = .raised

theorem progress_start (plan : Plan) (jobs : List Job) : Progress plan jobs 0 (start jobs) where
  table := rfl
  point := Or.inl rfl
  queued := fun w hw => absurd hw (by simp [start])
  waits := fun h => absurd h (by simp [start])
  given := fun h => absurd h (by simp [start])

/-- **One step** of the call. -/
theorem Progress.step {n : ℕ} {s s' : Planning} {l : PlanLabel} (h : Progress plan jobs n s)
    (hstep : s.step plan l = some s') :
    Progress plan jobs (n + [l].count .commit) s' := by
  cases l with
  | submit =>
      simp only [Planning.step] at hstep
      split_ifs at hstep with hwait
      obtain ⟨w, hw, rfl⟩ := Option.map_eq_some_iff.mp hstep
      have hpoint : s.point = PlanPoint.after jobs.length n := by
        rcases h.point with hp | hp
        · exact hp
        · rw [hp] at hw
          exact absurd hw (by simp [PlanPoint.task])
      refine ⟨h.table, h.point, fun v hv => ?_, fun _ => hpoint, fun _ => Or.inl rfl⟩
      obtain rfl := Option.some.inj hv
      exact hpoint ▸ hw
  | commit =>
      obtain ⟨w, hw, rfl⟩ := Option.map_eq_some_iff.mp hstep
      have htask := h.queued w hw
      have hjobs : w.apply plan s.jobs = tableAfter plan jobs (n + 1) := by
        rw [h.table, tableAfter, htask]
      refine ⟨hjobs, ?_, fun v hv => absurd hv (by simp), fun hv => absurd hv (by simp),
        fun hv => absurd hv (by simp)⟩
      simp only
      split_ifs with hwait
      · left
        show s.point.next s.jobs.length = (PlanPoint.after jobs.length n).next jobs.length
        rw [h.waits hwait]
        match n, htask with
        | 0, _ => rw [h.table]; rfl
        | 1, _ => rfl
        | 2, _ => rfl
        | n + 3, htask =>
            rw [PlanPoint.after_add_three] at htask
            exact absurd htask (by simp [PlanPoint.task])
      · exact Or.inr ((h.given (by rw [hw]; rfl)).resolve_left hwait)
  | fail =>
      obtain ⟨w, -, rfl⟩ := Option.map_eq_some_iff.mp hstep
      exact ⟨h.table, Or.inr rfl, fun v hv => absurd hv (by simp),
        fun hv => absurd hv (by simp), fun _ => Or.inr rfl⟩
  | timeout =>
      simp only [Planning.step] at hstep
      split_ifs at hstep with hwait
      obtain rfl := Option.some.inj hstep
      exact ⟨h.table, Or.inr rfl, h.queued, fun hv => absurd hv (by simp), fun _ => Or.inr rfl⟩
  | stop =>
      obtain rfl := Option.some.inj hstep
      exact ⟨h.table, Or.inr rfl, fun v hv => absurd hv (by simp),
        fun hv => absurd hv (by simp), fun _ => Or.inr rfl⟩

/-- **A whole call**: the table shows the commits and nothing else. -/
theorem progress_of_run {n : ℕ} {s s' : Planning} {ls : List PlanLabel}
    (h : Progress plan jobs n s) (hrun : runLabels (step plan) s ls = some s') :
    Progress plan jobs (n + ls.count .commit) s' := by
  induction ls generalizing n s with
  | nil =>
      obtain rfl := Option.some.inj hrun
      exact h
  | cons l ls ih =>
      obtain ⟨t, ht, hrest⟩ := runLabels_cons_eq_some.mp hrun
      have hall := ih (h.step ht) hrest
      rwa [Nat.add_assoc, ← List.count_append, List.singleton_append] at hall

end Planning

/-! ## The jobs that may be started -/

/-- The row has as many items as its total says, and its checkpoint holds the action. -/
def CompletelyPlanned (action : Action) (job : Job) : Prop :=
  job.counters.total = job.items.rows.length ∧ job.checkpoint.action = some action

/-- Every READY migration job is completely planned, for the action it was planned with. -/
def ReadyJobsPlanned (planned : JobId → Action) (jobs : List Job) : Prop :=
  ∀ id job, jobs[id]? = some job → job.jobType = .migration → job.state = .ready →
    CompletelyPlanned (planned id) job

theorem readyJobsPlanned_append {planned : JobId → Action} {jobs : List Job} {action : Action}
    {job : Job} (htype : job.jobType = .migration) (hstate : job.state = .ready) :
    ReadyJobsPlanned (Function.update planned jobs.length action) (jobs ++ [job]) ↔
      ReadyJobsPlanned planned jobs ∧ CompletelyPlanned action job := by
  constructor
  · intro h
    refine ⟨fun id row hrow ht hs => ?_, ?_⟩
    · have hlt : id < jobs.length := (List.getElem?_eq_some_iff.mp hrow).1
      have hall := h id row (by rw [List.getElem?_append_left hlt]; exact hrow) ht hs
      rwa [Function.update_of_ne (Nat.ne_of_lt hlt)] at hall
    · have hnew := h jobs.length job (by simp) htype hstate
      rwa [Function.update_self] at hnew
  · rintro ⟨hold, hnew⟩ id row hrow ht hs
    by_cases hlt : id < jobs.length
    · rw [List.getElem?_append_left hlt] at hrow
      rw [Function.update_of_ne (Nat.ne_of_lt hlt)]
      exact hold id row hrow ht hs
    · rw [List.getElem?_append_right (Nat.le_of_not_lt hlt),
        List.getElem?_singleton, ite_eq_iff] at hrow
      obtain ⟨hid, hrow⟩ := hrow.resolve_right fun h => by simpa using h.2
      obtain rfl := Option.some.inj hrow
      have hid' : id = jobs.length :=
        Nat.le_antisymm (Nat.sub_eq_zero_iff_le.mp hid) (Nat.le_of_not_lt hlt)
      rw [hid', Function.update_self]
      exact hnew

theorem completelyPlanned_rowAfter (plan : Plan) (n : ℕ) :
    CompletelyPlanned plan.action (rowAfter plan n) ↔ 2 ≤ n := by
  match n with
  | 0 => exact iff_of_false (fun h => absurd h.2 (by simp [rowAfter, Plan.create])) (by omega)
  | 1 =>
      exact iff_of_false
        (fun h => absurd h.2 (by simp [rowAfter, submitAddItems, Plan.create])) (by omega)
  | n + 2 =>
      refine iff_of_true ⟨?_, rfl⟩ (by omega)
      exact (length_addItems plan.readyItems).symm

/-- **A plan can be started before it is complete.**  Whatever fails, times out or stops during a
call, the READY jobs are completely planned exactly when they were before and either none of the
three transactions of the call is committed or all of them are. -/
theorem ready_jobs_planned_iff (plan : Plan) (planned : JobId → Action) (jobs : List Job)
    (ls : List PlanLabel) (s : Planning)
    (hrun : runLabels (Planning.step plan) (Planning.start jobs) ls = some s) :
    ReadyJobsPlanned (Function.update planned jobs.length plan.action) s.jobs ↔
      ReadyJobsPlanned planned jobs ∧ (ls.count .commit = 0 ∨ 3 ≤ ls.count .commit) := by
  have hjobs := (Planning.progress_of_run (Planning.progress_start plan jobs) hrun).table
  rw [Nat.zero_add] at hjobs
  rw [hjobs]
  generalize ls.count .commit = n
  match n with
  | 0 =>
      rw [tableAfter, and_iff_left (Or.inl rfl)]
      refine forall₃_congr fun id row hrow => ?_
      have hlt : id < jobs.length := (List.getElem?_eq_some_iff.mp hrow).1
      rw [Function.update_of_ne (Nat.ne_of_lt hlt)]
  | n + 1 =>
      have htype : (rowAfter plan n).jobType = .migration := by unfold rowAfter; split <;> rfl
      have hstate : (rowAfter plan n).state = .ready := by unfold rowAfter; split <;> rfl
      rw [tableAfter_succ, readyJobsPlanned_append htype hstate, completelyPlanned_rowAfter]
      exact and_congr_right fun _ => by omega

/-- A removal of two members whose third transaction fails: the job is READY with both items, and
`new_executor` would read `INVITE`. -/
theorem removal_without_checkpoint :
    ∃ s, runLabels (Planning.step ⟨1, 1, [1, 2], .remove, by decide⟩) (Planning.start [])
        [.submit, .commit, .submit, .commit, .submit, .fail] = some s ∧
      s.jobs.map (fun job => (job.state, job.items.rows.length, job.checkpoint.action.getD .invite))
        = [(.ready, 2, .invite)] ∧
      ¬ ReadyJobsPlanned (fun _ => .remove) s.jobs := by
  refine ⟨_, rfl, by decide, fun h => ?_⟩
  exact absurd (h 0 _ rfl rfl rfl).2 (by decide)

/-- The same removal with all three transactions. -/
theorem ready_jobs_planned_complete :
    ∃ s, runLabels (Planning.step ⟨1, 1, [1, 2], .remove, by decide⟩) (Planning.start [])
        [.submit, .commit, .submit, .commit, .submit, .commit] = some s ∧
      ReadyJobsPlanned (Function.update (fun _ => .invite) 0 .remove) s.jobs := by
  refine ⟨_, rfl, ?_⟩
  refine (ready_jobs_planned_iff ⟨1, 1, [1, 2], .remove, by decide⟩ (fun _ => .invite) []
    [.submit, .commit, .submit, .commit, .submit, .commit] _ rfl).mpr ⟨?_, Or.inr (by decide)⟩
  intro id job hjob
  exact absurd hjob (by simp)

end Migration
end MigrationStudio
