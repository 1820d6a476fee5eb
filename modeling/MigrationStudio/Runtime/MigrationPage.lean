import Mathlib.Data.List.Basic
import Mathlib.Logic.Function.Basic
import MigrationStudio.Members.Repository
import MigrationStudio.Runtime.TargetCommands

/-!
# `ui/pages/migration_page.py`

One press of KIỂM TRA is a chain of commands: the target is resolved, and when its event comes the
page sends the pre-check, and when the event of that comes it sends the plan, for the account and
the dataset that it has written down at the press.  The commands run on other threads; the page
hears of them, and of every executor at work, through events that it handles one by one.  BẮT ĐẦU
starts the job that the page calls the current one, and the events of a job at work make that job
the current one, whatever has been planned.

* `PageSession`: the page, the store and the commands under way, the rows of the migration jobs, the
  executors, and the events that the page has still to handle; `step`.
* `startGuard`: the job that BẮT ĐẦU would start.
* `announced_of_start`: that is always the job whose plan was the last to be announced.
* `Check`: how far the check is; `OneAtATime`: KIỂM TRA is pressed when nothing of a check before it
  is under way.
* `checked_of_start`: then BẮT ĐẦU starts what the last press was for.
-/

namespace MigrationStudio
namespace Runtime

open MigrationStudio.Core Foundations
open Members (DatasetId)

/-- `MigrationPage`, without its widgets. -/
structure MigrationPage where
  currentJobId : Option JobId := none
  checking : Bool := false
  checkAccount : Option AccountId := none
  checkDataset : Option DatasetId := none
  deriving DecidableEq, Repr

/-- The events by which the page goes on with a check or takes another job for the current one. -/
inductive PageEvent where
  | targetGroupResolved
  | targetPrecheckCompleted
  | migrationPlanReady (job : JobId)
  | jobStateChanged (job : JobId)
  | migrationItemCompleted (job : JobId)
  | migrationCompleted (job : JobId)
  deriving DecidableEq, Repr

/-- The job whose executor publishes the event; `none` for the events of a check. -/
def PageEvent.ofRun : PageEvent → Option JobId
  | .targetGroupResolved | .targetPrecheckCompleted | .migrationPlanReady _ => none
  | .jobStateChanged job | .migrationItemCompleted job | .migrationCompleted job => some job

/-- The row of a migration job, and what it has been planned for in this session. -/
structure MigrationRow where
  accountId : Option AccountId
  state : JobState
  planned : Option (Plan × DatasetId)
  deriving DecidableEq, Repr

/-- The page; the store with the commands that are under way on the network; the plans that a worker
makes; the rows; the executors of the handlers; the events that have been published.  Behind them
the group that has been found since the last press, and the job announced since then. -/
structure PageSession where
  page : MigrationPage := {}
  target : TargetState := {}
  planning : List (Plan × DatasetId) := []
  jobs : JobId → Option MigrationRow
  executors : List JobId := []
  events : List PageEvent := []
  found : Option GroupContext := none
  announced : Option JobId := none

/-- What happens next.  `enabled` is whether the account is enabled, `action` what the page has
selected; events are handled in any order, and may be lost. -/
inductive PageLabel where
  | check (account : AccountId) (dataset : DatasetId) (enabled : Bool)
  | resolved (i : ℕ) (telegramId : ℤ) (type : GroupType) (localId : GroupId)
  | resolveFailed (i : ℕ)
  | prechecked (i : ℕ) (targetIds : List ℤ) (coverage : TargetCoverage)
  | precheckFailed (i : ℕ)
  | planned (i : ℕ) (job : JobId)
  | planFailed (i : ℕ) (leaves : Option JobId)
  | deliver (i : ℕ) (action : Action) (enabled : Bool)
  | lose (i : ℕ)
  | start (account : AccountId) (enabled : Bool)
  | resume (job : JobId)
  | write (job : JobId) (state : JobState)
  | publish (event : PageEvent)
  | finish (job : JobId)
  | deleteAccount (account : AccountId)
  deriving DecidableEq, Repr

namespace PageSession

/-! ## The page -/

/-- A command for the target goes through the bus. -/
def command (s : PageSession) (enabled : Bool) (l : TargetLabel) : PageSession :=
  { s with target := (TargetState.step (fun _ => enabled) s.target l).getD s.target }

/-- `_check`. -/
def check (s : PageSession) (account : AccountId) (dataset : DatasetId) (enabled : Bool) :
    PageSession :=
  { s with
    page := ⟨none, true, some account, some dataset⟩
    found := none
    announced := none }.command enabled (.resolveTarget account)

/-- The page sends the pre-check. -/
def precheck (s : PageSession) (enabled : Bool) : PageSession :=
  match s.page.checkAccount with
  | some account => s.command enabled (.precheckTarget account)
  | none => s

/-- The page sends the plan, which a worker makes. -/
def plan (s : PageSession) (action : Action) : PageSession :=
  match s.page.checkAccount, s.page.checkDataset with
  | some account, some dataset =>
      match TargetState.planAction s.target.store account action with
      | some plan => { s with planning := s.planning ++ [(plan, dataset)] }
      | none => s
  | _, _ => s

/-- The current job. -/
def setCurrent (s : PageSession) (job : JobId) : PageSession :=
  { s with page := { s.page with currentJobId := some job } }

/-- `handle_event`. -/
def handleEvent (s : PageSession) (action : Action) (enabled : Bool) : PageEvent → PageSession
  | .targetGroupResolved => if s.page.checking then s.precheck enabled else s
  | .targetPrecheckCompleted => if s.page.checking then s.plan action else s
  | .migrationPlanReady job =>
      { s with
        page := { s.page with checking := false, currentJobId := some job }
        announced := some job }
  | .jobStateChanged job =>
      if s.page.currentJobId = none ∨ s.page.currentJobId = some job then s.setCurrent job else s
  | .migrationItemCompleted job | .migrationCompleted job => s.setCurrent job

/-- `_start` and the guards of `start_migration`: the job that is started. -/
def startGuard (s : PageSession) (account : AccountId) (enabled : Bool) : Option JobId :=
  match s.page.currentJobId with
  | none => none
  | some job =>
      if job ∈ s.executors then none
      else if enabled then
        match s.jobs job with
        | some row => if row.state = .ready ∧ row.accountId = some account then some job else none
        | none => none
      else none

/-! ## Steps -/

/-- The row of a job gets another state. -/
def setState (s : PageSession) (job : JobId) (state : JobState) : PageSession :=
  { s with
    jobs := Function.update s.jobs job ((s.jobs job).map fun row => { row with state := state }) }

/-- A job has a row, and is not READY. -/
def Launched (s : PageSession) (job : JobId) : Prop :=
  ∃ row, s.jobs job = some row ∧ row.state ≠ .ready

/-- A plan that a worker has made is a new row, READY. -/
def addRow (s : PageSession) (job : JobId) (plan : Plan × DatasetId) : PageSession :=
  { s with jobs := Function.update s.jobs job (some ⟨some plan.1.account, .ready, some plan⟩) }

/-- The session with one plan less under way. -/
def planEnded (s : PageSession) (i : ℕ) : PageSession :=
  { s with planning := s.planning.eraseIdx i }

/-- An event is published. -/
def emit (s : PageSession) (event : PageEvent) : PageSession :=
  { s with events := s.events ++ [event] }

/-- The session with one event less to handle. -/
def taken (s : PageSession) (i : ℕ) : PageSession := { s with events := s.events.eraseIdx i }

/-- The step of a session.  `_persist` may fail behind the row of the job; only the executor of a
job moves it, never to READY, and publishes when the row has been written. -/
def step (s : PageSession) : PageLabel → Option PageSession
  | .check account dataset enabled => some (s.check account dataset enabled)
  | .resolved i telegramId type localId =>
      (TargetState.step (fun _ => true) s.target (.resolved i telegramId type localId)).map
        fun target =>
          { s with target := target, found := target.store.targetGroup }.emit .targetGroupResolved
  | .resolveFailed i =>
      (TargetState.step (fun _ => true) s.target (.resolveFailed i)).map
        fun target => { s with target := target }
  | .prechecked i targetIds coverage =>
      (TargetState.step (fun _ => true) s.target (.prechecked i targetIds coverage)).map
        fun target => { s with target := target }.emit .targetPrecheckCompleted
  | .precheckFailed i =>
      (TargetState.step (fun _ => true) s.target (.precheckFailed i)).map
        fun target => { s with target := target }
  | .planned i job =>
      s.planning[i]?.bind fun plan =>
        if s.jobs job = none then
          some (((s.planEnded i).addRow job plan).emit (.migrationPlanReady job))
        else none
  | .planFailed i none => s.planning[i]?.map fun _ => s.planEnded i
  | .planFailed i (some job) =>
      s.planning[i]?.bind fun plan =>
        if s.jobs job = none then some ((s.planEnded i).addRow job plan) else none
  | .deliver i action enabled =>
      s.events[i]?.map fun event => (s.taken i).handleEvent action enabled event
  | .lose i => s.events[i]?.map fun _ => s.taken i
  | .start account enabled =>
      some (match s.startGuard account enabled with
        | some job => { s with executors := s.executors ++ [job] }
        | none => s)
  | .resume job =>
      match s.jobs job with
      | some row =>
          if job ∉ s.executors ∧ (row.state = .paused ∨ row.state = .waitingServer) then
            some { s with executors := s.executors ++ [job] }
          else none
      | none => none
  | .write job state =>
      if job ∈ s.executors ∧ state ≠ .ready then some (s.setState job state) else none
  | .publish event =>
      match event.ofRun with
      | some job =>
          match s.jobs job with
          | some row =>
              if job ∈ s.executors ∧ row.state ≠ .ready then some (s.emit event) else none
          | none => none
      | none => none
  | .finish job => some { s with executors := s.executors.erase job }
  | .deleteAccount account =>
      some { s with
        jobs := fun job => (s.jobs job).map fun row =>
          if row.accountId = some account then { row with accountId := none } else row }

/-! ## What a step leaves as it is -/

variable {s s' : PageSession} {l : PageLabel} {job : JobId} {account : AccountId} {enabled : Bool}

theorem precheck_eq (s : PageSession) (enabled : Bool) :
    s.precheck enabled = { s with target := (s.precheck enabled).target } := by
  unfold precheck
  split
  · rfl
  · rfl

theorem plan_eq (s : PageSession) (action : Action) :
    s.plan action = { s with planning := (s.plan action).planning } := by
  unfold plan
  split
  · split
    · rfl
    · rfl
  · rfl

@[simp] theorem jobs_handleEvent (s : PageSession) (action : Action) (enabled : Bool)
    (event : PageEvent) : (s.handleEvent action enabled event).jobs = s.jobs := by
  cases event with
  | targetGroupResolved =>
    rw [handleEvent, precheck_eq]
    split_ifs <;> rfl
  | targetPrecheckCompleted =>
    rw [handleEvent, plan_eq]
    split_ifs <;> rfl
  | jobStateChanged job =>
    rw [handleEvent]
    split_ifs <;> rfl
  | migrationPlanReady job | migrationItemCompleted job | migrationCompleted job => rfl

@[simp] theorem events_handleEvent (s : PageSession) (action : Action) (enabled : Bool)
    (event : PageEvent) : (s.handleEvent action enabled event).events = s.events := by
  cases event with
  | targetGroupResolved =>
    rw [handleEvent, precheck_eq]
    split_ifs <;> rfl
  | targetPrecheckCompleted =>
    rw [handleEvent, plan_eq]
    split_ifs <;> rfl
  | jobStateChanged job =>
    rw [handleEvent]
    split_ifs <;> rfl
  | migrationPlanReady job | migrationItemCompleted job | migrationCompleted job => rfl

/-- **What a step does to the rows**: a new one, READY; another state, but not READY; or an account
that is deleted. -/
theorem jobs_of_step (h : s.step l = some s') :
    s'.jobs = s.jobs ∨
    (∃ job plan, s.jobs job = none ∧ s'.jobs = (s.addRow job plan).jobs) ∨
    (∃ job state, state ≠ .ready ∧ s'.jobs = (s.setState job state).jobs) ∨
    ∃ account, s'.jobs = fun job => (s.jobs job).map fun row =>
      if row.accountId = some account then { row with accountId := none } else row := by
  cases l with
  | check account dataset enabled =>
    obtain rfl := Option.some.inj h
    exact .inl rfl
  | resolved i telegramId type localId =>
    obtain ⟨target, -, rfl⟩ := Option.map_eq_some_iff.mp h
    exact .inl rfl
  | prechecked i targetIds coverage =>
    obtain ⟨target, -, rfl⟩ := Option.map_eq_some_iff.mp h
    exact .inl rfl
  | resolveFailed i | precheckFailed i =>
    obtain ⟨target, -, rfl⟩ := Option.map_eq_some_iff.mp h
    exact .inl rfl
  | planned i job =>
    obtain ⟨plan, -, hrow⟩ := Option.bind_eq_some_iff.mp h
    split_ifs at hrow with hjob
    obtain rfl := Option.some.inj hrow
    exact .inr (.inl ⟨job, plan, hjob, rfl⟩)
  | planFailed i leaves =>
    cases leaves with
    | none =>
      obtain ⟨plan, -, rfl⟩ := Option.map_eq_some_iff.mp h
      exact .inl rfl
    | some job =>
      obtain ⟨plan, -, hrow⟩ := Option.bind_eq_some_iff.mp h
      split_ifs at hrow with hjob
      obtain rfl := Option.some.inj hrow
      exact .inr (.inl ⟨job, plan, hjob, rfl⟩)
  | deliver i action enabled =>
    obtain ⟨event, -, rfl⟩ := Option.map_eq_some_iff.mp h
    exact .inl (jobs_handleEvent ..)
  | lose i =>
    obtain ⟨event, -, rfl⟩ := Option.map_eq_some_iff.mp h
    exact .inl rfl
  | start account enabled =>
    rw [step] at h
    obtain rfl := Option.some.inj h
    split <;> exact .inl rfl
  | resume job =>
    rw [step] at h
    split at h
    · split_ifs at h
      obtain rfl := Option.some.inj h
      exact .inl rfl
    · cases h
  | write job state =>
    rw [step] at h
    split_ifs at h with hstate
    obtain rfl := Option.some.inj h
    exact .inr (.inr (.inl ⟨job, state, hstate.2, rfl⟩))
  | publish event =>
    rw [step] at h
    split at h
    · split at h
      · split_ifs at h
        obtain rfl := Option.some.inj h
        exact .inl rfl
      · cases h
    · cases h
  | finish job =>
    obtain rfl := Option.some.inj h
    exact .inl rfl
  | deleteAccount account =>
    obtain rfl := Option.some.inj h
    exact .inr (.inr (.inr ⟨account, rfl⟩))

/-- A job that is not READY any more never is again. -/
theorem Launched.step (h : s.Launched job) (hstep : s.step l = some s') : s'.Launched job := by
  obtain ⟨row, hrow, hstate⟩ := h
  rcases jobs_of_step hstep with hjobs | ⟨other, plan, hnone, hjobs⟩ |
    ⟨other, state, hready, hjobs⟩ | ⟨account, hjobs⟩
  · exact ⟨row, hjobs ▸ hrow, hstate⟩
  · have hne : job ≠ other := by
      rintro rfl
      exact absurd (hnone.symm.trans hrow) nofun
    refine ⟨row, ?_, hstate⟩
    rw [hjobs]
    exact (Function.update_of_ne hne ..).trans hrow
  · by_cases hjob : job = other
    · subst hjob
      refine ⟨{ row with state := state }, ?_, hready⟩
      rw [hjobs]
      show Function.update _ _ _ _ = _
      rw [Function.update_self, hrow, Option.map_some]
    · refine ⟨row, ?_, hstate⟩
      rw [hjobs]
      exact (Function.update_of_ne hjob ..).trans hrow
  · refine ⟨if row.accountId = some account then { row with accountId := none } else row, ?_, ?_⟩
    · rw [hjobs]
      show (s.jobs job).map _ = _
      rw [hrow, Option.map_some]
    · split_ifs
      · exact hstate
      · exact hstate

/-! ## The current job -/

/-- The events of executors are of jobs that are not READY, and so is the current job, if it is not
the one announced. -/
structure Pointed (s : PageSession) : Prop where
  events : ∀ event ∈ s.events, ∀ job, event.ofRun = some job → s.Launched job
  current : ∀ job, s.page.currentJobId = some job → s.announced = some job ∨ s.Launched job

/-- The session when the program has started, with the rows of earlier ones. -/
def boot (jobs : JobId → Option MigrationRow) : PageSession := { jobs := jobs }

theorem pointed_boot (jobs : JobId → Option MigrationRow) : (boot jobs).Pointed :=
  ⟨nofun, nofun⟩

/-- An event is handled: another job becomes the current one only if it is announced or at work. -/
theorem Pointed.handleEvent (h : s.Pointed) {event : PageEvent}
    (hevent : ∀ job, event.ofRun = some job → s.Launched job) (action : Action) (enabled : Bool) :
    (s.handleEvent action enabled event).Pointed := by
  have hlaunched : ∀ job, s.Launched job → (s.handleEvent action enabled event).Launched job := by
    rintro job ⟨row, hrow, hstate⟩
    exact ⟨row, (congrFun (jobs_handleEvent ..) job).trans hrow, hstate⟩
  refine ⟨fun e he job hjob => ?_, fun job hjob => ?_⟩
  · rw [events_handleEvent] at he
    exact hlaunched job (h.events e he job hjob)
  · revert hjob hlaunched
    cases event with
    | targetGroupResolved =>
      rw [PageSession.handleEvent, precheck_eq]
      split_ifs
      · exact fun _ hjob => h.current job hjob
      · exact fun _ hjob => h.current job hjob
    | targetPrecheckCompleted =>
      rw [PageSession.handleEvent, plan_eq]
      split_ifs
      · exact fun _ hjob => h.current job hjob
      · exact fun _ hjob => h.current job hjob
    | migrationPlanReady planned => exact fun _ hjob => .inl hjob
    | jobStateChanged other =>
      rw [PageSession.handleEvent]
      split_ifs
      · rintro hlaunched hjob
        obtain rfl := Option.some.inj hjob
        exact .inr (hevent _ rfl)
      · exact fun _ hjob => h.current job hjob
    | migrationItemCompleted other | migrationCompleted other =>
      rintro hlaunched hjob
      obtain rfl := Option.some.inj hjob
      exact .inr (hevent _ rfl)

/-- A step that leaves the current job as it is, and publishes only of jobs that are not READY. -/
theorem Pointed.keep (h : s.Pointed) (hlaunched : ∀ job, s.Launched job → s'.Launched job)
    (hevents : ∀ event ∈ s'.events,
      event ∈ s.events ∨ ∀ job, event.ofRun = some job → s.Launched job)
    (hcurrent : s'.page.currentJobId = s.page.currentJobId)
    (hannounced : s'.announced = s.announced) : s'.Pointed := by
  refine ⟨fun event he job hjob => hlaunched job ?_, fun job hjob => ?_⟩
  · rcases hevents event he with hold | hnew
    · exact h.events event hold job hjob
    · exact hnew job hjob
  · rw [hannounced]
    exact (h.current job (hcurrent ▸ hjob)).imp_right (hlaunched job)

theorem mem_emit {event new : PageEvent} (h : event ∈ (s.emit new).events) :
    event ∈ s.events ∨ event = new :=
  (List.mem_append.mp h).imp_right List.mem_singleton.mp

/-- The events of a check are of no job. -/
theorem mem_emit_of_check {event new : PageEvent} (hnew : new.ofRun = none)
    (h : event ∈ (s.emit new).events) :
    event ∈ s.events ∨ ∀ job, event.ofRun = some job → s.Launched job := by
  refine (mem_emit h).imp_right ?_
  rintro rfl job hjob
  exact absurd (hnew.symm.trans hjob) nofun

theorem Pointed.step (h : s.Pointed) (hstep : s.step l = some s') : s'.Pointed := by
  have hlaunched : ∀ job, s.Launched job → s'.Launched job := fun job hjob => hjob.step hstep
  cases l with
  | check account dataset enabled =>
    obtain rfl := Option.some.inj hstep
    exact ⟨h.events, nofun⟩
  | resolved i telegramId type localId =>
    obtain ⟨target, -, rfl⟩ := Option.map_eq_some_iff.mp hstep
    exact h.keep hlaunched (fun event he => mem_emit_of_check rfl he) rfl rfl
  | prechecked i targetIds coverage =>
    obtain ⟨target, -, rfl⟩ := Option.map_eq_some_iff.mp hstep
    exact h.keep hlaunched (fun event he => mem_emit_of_check rfl he) rfl rfl
  | resolveFailed i | precheckFailed i =>
    obtain ⟨target, -, rfl⟩ := Option.map_eq_some_iff.mp hstep
    exact h.keep hlaunched (fun event he => .inl he) rfl rfl
  | planned i job =>
    obtain ⟨plan, -, hrow⟩ := Option.bind_eq_some_iff.mp hstep
    split_ifs at hrow
    obtain rfl := Option.some.inj hrow
    exact h.keep hlaunched (fun event he => mem_emit_of_check rfl he) rfl rfl
  | planFailed i leaves =>
    cases leaves with
    | none =>
      obtain ⟨plan, -, rfl⟩ := Option.map_eq_some_iff.mp hstep
      exact h.keep hlaunched (fun event he => .inl he) rfl rfl
    | some job =>
      obtain ⟨plan, -, hrow⟩ := Option.bind_eq_some_iff.mp hstep
      split_ifs at hrow
      obtain rfl := Option.some.inj hrow
      exact h.keep hlaunched (fun event he => .inl he) rfl rfl
  | deliver i action enabled =>
    obtain ⟨event, hevent, rfl⟩ := Option.map_eq_some_iff.mp hstep
    have htaken : (s.taken i).Pointed :=
      h.keep (fun _ hjob => hjob) (fun e he => .inl (List.mem_of_mem_eraseIdx he)) rfl rfl
    exact htaken.handleEvent (h.events event (List.mem_of_getElem? hevent)) action enabled
  | lose i =>
    obtain ⟨event, -, rfl⟩ := Option.map_eq_some_iff.mp hstep
    exact h.keep hlaunched (fun e he => .inl (List.mem_of_mem_eraseIdx he)) rfl rfl
  | start account enabled =>
    obtain rfl := Option.some.inj hstep
    refine h.keep hlaunched ?_ ?_ ?_ <;> split
    · exact fun event he => .inl he
    · exact fun event he => .inl he
    · rfl
    · rfl
    · rfl
    · rfl
  | resume job =>
    rw [PageSession.step] at hstep
    split at hstep
    · split_ifs at hstep
      obtain rfl := Option.some.inj hstep
      exact h.keep hlaunched (fun event he => .inl he) rfl rfl
    · cases hstep
  | write job state =>
    rw [PageSession.step] at hstep
    split_ifs at hstep
    obtain rfl := Option.some.inj hstep
    exact h.keep hlaunched (fun event he => .inl he) rfl rfl
  | publish event =>
    rw [PageSession.step] at hstep
    split at hstep
    · next job hjob =>
      split at hstep
      · next row hrow =>
        split_ifs at hstep with hstate
        obtain rfl := Option.some.inj hstep
        refine h.keep hlaunched (fun e he => (mem_emit he).imp_right ?_) rfl rfl
        rintro rfl other hother
        obtain rfl := Option.some.inj (hjob.symm.trans hother)
        exact ⟨row, hrow, hstate.2⟩
      · cases hstep
    · cases hstep
  | finish job =>
    obtain rfl := Option.some.inj hstep
    exact h.keep hlaunched (fun event he => .inl he) rfl rfl
  | deleteAccount account =>
    obtain rfl := Option.some.inj hstep
    exact h.keep hlaunched (fun event he => .inl he) rfl rfl

/-- What BẮT ĐẦU starts is the current job, which is READY and of the account. -/
theorem startGuard_eq_some (h : s.startGuard account enabled = some job) :
    s.page.currentJobId = some job ∧
      ∃ row, s.jobs job = some row ∧ row.state = .ready ∧ row.accountId = some account := by
  rw [startGuard] at h
  split at h
  · cases h
  · next current hcurrent =>
    split_ifs at h
    split at h
    · next row hrow =>
      split_ifs at h with hready
      obtain rfl := Option.some.inj h
      exact ⟨hcurrent, row, hrow, hready⟩
    · cases h

/-- **BẮT ĐẦU starts the job whose plan was the last to be announced** since the last press of
KIỂM TRA, however many jobs are at work, in whatever order the page hears of them, and whichever
events it never hears of. -/
theorem announced_of_start {jobs : JobId → Option MigrationRow} {ls : List PageLabel}
    (hrun : runLabels step (boot jobs) ls = some s)
    (hstart : s.startGuard account enabled = some job) : s.announced = some job := by
  have hpointed : s.Pointed :=
    invariant_runLabels (C := fun _ _ => True) (fun _ _ _ h _ hstep => Pointed.step h hstep)
      (pointed_boot jobs) (along_of_forall_mem fun _ _ => trivial) hrun
  obtain ⟨hcurrent, row, hrow, hready, -⟩ := startGuard_eq_some hstart
  refine (hpointed.current job hcurrent).resolve_right fun hlaunched => ?_
  obtain ⟨row', hrow', hstate⟩ := hlaunched
  rw [hrow, Option.some.injEq] at hrow'
  exact hstate (hrow' ▸ hready)

/-! ## One check at a time -/

/-- The events of a check that the page has still to handle. -/
def checkEvents (s : PageSession) : List PageEvent :=
  s.events.filter fun event => event.ofRun.isNone

/-- What is under way of checks. -/
structure UnderWay (s : PageSession) (resolving : List AccountId)
    (prechecking : List (AccountId × GroupContext)) (planning : List (Plan × DatasetId))
    (events : List PageEvent) : Prop where
  resolving : s.target.resolving = resolving
  prechecking : s.target.prechecking = prechecking
  planning : s.planning = planning
  events : s.checkEvents = events

instance (s : PageSession) (resolving : List AccountId)
    (prechecking : List (AccountId × GroupContext)) (planning : List (Plan × DatasetId))
    (events : List PageEvent) : Decidable (s.UnderWay resolving prechecking planning events) :=
  decidable_of_iff (s.target.resolving = resolving ∧ s.target.prechecking = prechecking ∧
      s.planning = planning ∧ s.checkEvents = events)
    ⟨fun h => ⟨h.1, h.2.1, h.2.2.1, h.2.2.2⟩,
      fun h => ⟨h.resolving, h.prechecking, h.planning, h.events⟩⟩

/-- KIỂM TRA is pressed when nothing of a check before it is under way. -/
def OneAtATime (s : PageSession) : PageLabel → Prop
  | .check _ _ _ => s.UnderWay [] [] [] []
  | _ => True

instance (s : PageSession) : DecidablePred s.OneAtATime
  | .check _ _ _ => inferInstanceAs (Decidable (s.UnderWay [] [] [] []))
  | .resolved _ _ _ _ | .resolveFailed _ | .prechecked _ _ _ | .precheckFailed _ | .planned _ _
  | .planFailed _ _ | .deliver _ _ _ | .lose _ | .start _ _ | .resume _ | .write _ _ | .publish _
  | .finish _ | .deleteAccount _ => .isTrue trivial

/-- The plan is what the last press was for: its account and dataset, the group that has been found
since, and a pre-check of that group by that account. -/
structure Suits (s : PageSession) (plan : Plan × DatasetId) : Prop where
  account : s.page.checkAccount = some plan.1.account
  dataset : s.page.checkDataset = some plan.2
  prechecked : plan.1.precheck.account = plan.1.account
  found : s.found = some plan.1.precheck.group
  target : plan.1.precheck.group.localGroupId = some plan.1.targetGroupId

/-- The row has been planned for what the last press was for. -/
def RowSuits (s : PageSession) (job : JobId) : Prop :=
  ∃ row plan, s.jobs job = some row ∧ row.planned = some plan ∧ s.Suits plan

/-- The check has found its group, and the store holds it. -/
structure OnTarget (s : PageSession) (account : AccountId) (group : GroupContext) : Prop where
  checking : s.page.checking = true
  checkAccount : s.page.checkAccount = some account
  found : s.found = some group
  targetGroup : s.target.store.targetGroup = some group
  targetAccountId : s.target.store.targetAccountId = some account

/-- How far the check of the last press is, when it is the only one. -/
inductive Check (s : PageSession) : Prop where
  | settled (hway : s.UnderWay [] [] [] [])
  | resolving (account : AccountId) (hchecking : s.page.checking = true)
      (haccount : s.page.checkAccount = some account) (hannounced : s.announced = none)
      (hway : s.UnderWay [account] [] [] [])
  | found (account : AccountId) (group : GroupContext) (hon : s.OnTarget account group)
      (hway : s.UnderWay [] [] [] [.targetGroupResolved])
  | scanning (account : AccountId) (group : GroupContext) (hon : s.OnTarget account group)
      (hway : s.UnderWay [] [(account, group)] [] [])
  | scanned (account : AccountId) (group : GroupContext) (result : PrecheckResult)
      (hon : s.OnTarget account group) (hstored : s.target.store.precheck = some result)
      (haccount : result.account = account) (hgroup : result.group = group)
      (hway : s.UnderWay [] [] [] [.targetPrecheckCompleted])
  | planning (plan : Plan × DatasetId) (hsuits : s.Suits plan) (hway : s.UnderWay [] [] [plan] [])
  | announcing (job : JobId) (hsuits : s.RowSuits job)
      (hway : s.UnderWay [] [] [] [.migrationPlanReady job])

/-- The only check under way is that of the last press, and what has been announced is what that
press was for. -/
structure Single (s : PageSession) : Prop where
  check : s.Check
  announced : ∀ job, s.announced = some job → s.RowSuits job

/-! ### What is under way -/

theorem Check.of_resolving (h : s.Check) {i : ℕ} (hi : s.target.resolving[i]? = some account) :
    i = 0 ∧ s.page.checking = true ∧ s.page.checkAccount = some account ∧ s.announced = none ∧
      s.UnderWay [account] [] [] [] := by
  cases h with
  | resolving account' hchecking haccount hannounced hway =>
    rw [hway.resolving] at hi
    rcases i with _ | i
    · obtain rfl := Option.some.inj hi
      exact ⟨rfl, hchecking, haccount, hannounced, hway⟩
    · exact absurd hi nofun
  | settled hway
  | found _ _ _ hway
  | scanning _ _ _ hway
  | scanned _ _ _ _ _ _ _ hway
  | planning _ _ hway
  | announcing _ _ hway =>
    rw [hway.resolving] at hi
    exact absurd hi nofun

theorem Check.of_prechecking (h : s.Check) {i : ℕ} {op : AccountId × GroupContext}
    (hi : s.target.prechecking[i]? = some op) :
    i = 0 ∧ s.OnTarget op.1 op.2 ∧ s.UnderWay [] [op] [] [] := by
  cases h with
  | scanning account group hon hway =>
    rw [hway.prechecking] at hi
    rcases i with _ | i
    · obtain rfl := Option.some.inj hi
      exact ⟨rfl, hon, hway⟩
    · exact absurd hi nofun
  | settled hway
  | resolving _ _ _ _ hway
  | found _ _ _ hway
  | scanned _ _ _ _ _ _ _ hway
  | planning _ _ hway
  | announcing _ _ hway =>
    rw [hway.prechecking] at hi
    exact absurd hi nofun

theorem Check.of_planning (h : s.Check) {i : ℕ} {plan : Plan × DatasetId}
    (hi : s.planning[i]? = some plan) : i = 0 ∧ s.Suits plan ∧ s.UnderWay [] [] [plan] [] := by
  cases h with
  | planning plan' hsuits hway =>
    rw [hway.planning] at hi
    rcases i with _ | i
    · obtain rfl := Option.some.inj hi
      exact ⟨rfl, hsuits, hway⟩
    · exact absurd hi nofun
  | settled hway
  | resolving _ _ _ _ hway
  | found _ _ _ hway
  | scanning _ _ _ hway
  | scanned _ _ _ _ _ _ _ hway
  | announcing _ _ hway =>
    rw [hway.planning] at hi
    exact absurd hi nofun

/-- The events of executors are no events of a check. -/
theorem checkEvents_taken_of_run {i : ℕ} {event : PageEvent} (hi : s.events[i]? = some event)
    (hevent : event.ofRun ≠ none) : (s.taken i).checkEvents = s.checkEvents := by
  obtain ⟨hlt, rfl⟩ := List.getElem?_eq_some_iff.mp hi
  show (s.events.eraseIdx i).filter _ = s.events.filter _
  conv_rhs => rw [← List.take_append_drop i s.events, List.drop_eq_getElem_cons hlt]
  rw [List.eraseIdx_eq_take_drop_succ, List.filter_append, List.filter_append, List.filter_cons,
    if_neg (by rwa [Option.isNone_iff_eq_none])]

/-- The only event of a check is the one that is taken. -/
theorem checkEvents_taken {i : ℕ} {event new : PageEvent} (hi : s.events[i]? = some event)
    (hevent : event.ofRun = none) (h : s.checkEvents = [new]) :
    event = new ∧ (s.taken i).checkEvents = [] := by
  obtain ⟨hlt, rfl⟩ := List.getElem?_eq_some_iff.mp hi
  rw [checkEvents, ← List.take_append_drop i s.events, List.drop_eq_getElem_cons hlt,
    List.filter_append, List.filter_cons, if_pos (by rw [hevent]; rfl),
    List.append_eq_singleton_iff] at h
  rcases h with ⟨hbefore, hafter⟩ | ⟨-, hnil⟩
  · obtain ⟨hfirst, hrest⟩ := List.cons.inj hafter
    refine ⟨hfirst, ?_⟩
    show (s.events.eraseIdx i).filter _ = []
    rw [List.eraseIdx_eq_take_drop_succ, List.filter_append, hbefore, hrest, List.append_nil]
  · exact absurd hnil (List.cons_ne_nil _ _)

/-- An event of a check is taken: nothing is left under way. -/
theorem Check.of_event (h : s.Check) {i : ℕ} {event : PageEvent} (hi : s.events[i]? = some event)
    (hevent : event.ofRun = none) :
    (s.taken i).UnderWay [] [] [] [] ∧
      ((event = .targetGroupResolved ∧ ∃ account group, s.OnTarget account group) ∨
      (event = .targetPrecheckCompleted ∧ ∃ account group result, s.OnTarget account group ∧
        s.target.store.precheck = some result ∧ result.account = account ∧
          result.group = group) ∨
      ∃ job, event = .migrationPlanReady job ∧ s.RowSuits job) := by
  have hsome : s.checkEvents ≠ [] := by
    refine List.ne_nil_of_mem (List.mem_filter.mpr ⟨List.mem_of_getElem? hi, ?_⟩)
    rw [hevent]
    rfl
  cases h with
  | found account group hon hway =>
    obtain ⟨rfl, htaken⟩ := checkEvents_taken hi hevent hway.events
    exact ⟨⟨hway.resolving, hway.prechecking, hway.planning, htaken⟩,
      .inl ⟨rfl, account, group, hon⟩⟩
  | scanned account group result hon hstored haccount hgroup hway =>
    obtain ⟨rfl, htaken⟩ := checkEvents_taken hi hevent hway.events
    exact ⟨⟨hway.resolving, hway.prechecking, hway.planning, htaken⟩,
      .inr (.inl ⟨rfl, account, group, result, hon, hstored, haccount, hgroup⟩)⟩
  | announcing job hsuits hway =>
    obtain ⟨rfl, htaken⟩ := checkEvents_taken hi hevent hway.events
    exact ⟨⟨hway.resolving, hway.prechecking, hway.planning, htaken⟩,
      .inr (.inr ⟨job, rfl, hsuits⟩)⟩
  | settled hway
  | resolving _ _ _ _ hway
  | scanning _ _ _ hway
  | planning _ _ hway => exact absurd hway.events hsome

/-! ### Steps that are no part of a check -/

/-- Nothing that a check looks at has changed. -/
structure Aside (s s' : PageSession) : Prop where
  target : s'.target = s.target
  planning : s'.planning = s.planning
  events : s'.checkEvents = s.checkEvents
  checking : s'.page.checking = s.page.checking
  checkAccount : s'.page.checkAccount = s.page.checkAccount
  checkDataset : s'.page.checkDataset = s.page.checkDataset
  found : s'.found = s.found
  announced : s'.announced = s.announced
  rows : ∀ job row, s.jobs job = some row →
    ∃ row', s'.jobs job = some row' ∧ row'.planned = row.planned

theorem Suits.of_eq {plan : Plan × DatasetId} (h : s.Suits plan)
    (haccount : s'.page.checkAccount = s.page.checkAccount)
    (hdataset : s'.page.checkDataset = s.page.checkDataset) (hfound : s'.found = s.found) :
    s'.Suits plan :=
  ⟨haccount.trans h.account, hdataset.trans h.dataset, h.prechecked, hfound.trans h.found,
    h.target⟩

theorem RowSuits.of_eq (h : s.RowSuits job)
    (hrows : ∀ row, s.jobs job = some row →
      ∃ row', s'.jobs job = some row' ∧ row'.planned = row.planned)
    (haccount : s'.page.checkAccount = s.page.checkAccount)
    (hdataset : s'.page.checkDataset = s.page.checkDataset) (hfound : s'.found = s.found) :
    s'.RowSuits job := by
  obtain ⟨row, plan, hrow, hplanned, hsuits⟩ := h
  obtain ⟨row', hrow', hsame⟩ := hrows row hrow
  exact ⟨row', plan, hrow', hsame.trans hplanned, hsuits.of_eq haccount hdataset hfound⟩

theorem RowSuits.aside (h : s.RowSuits job) (haside : s.Aside s') : s'.RowSuits job :=
  h.of_eq (haside.rows job) haside.checkAccount haside.checkDataset haside.found

theorem OnTarget.aside {group : GroupContext} (h : s.OnTarget account group)
    (haside : s.Aside s') : s'.OnTarget account group where
  checking := haside.checking.trans h.checking
  checkAccount := haside.checkAccount.trans h.checkAccount
  found := haside.found.trans h.found
  targetGroup := by rw [haside.target]; exact h.targetGroup
  targetAccountId := by rw [haside.target]; exact h.targetAccountId

theorem Single.aside (h : s.Single) (haside : s.Aside s') : s'.Single := by
  refine ⟨?_, fun job hjob => (h.announced job (haside.announced ▸ hjob)).aside haside⟩
  have hunder : ∀ {r p pl e}, s.UnderWay r p pl e → s'.UnderWay r p pl e := fun hway =>
    ⟨haside.target ▸ hway.resolving, haside.target ▸ hway.prechecking,
      haside.planning.trans hway.planning, haside.events.trans hway.events⟩
  cases h.check with
  | settled hway => exact .settled (hunder hway)
  | resolving account hchecking haccount hannounced hway =>
    exact .resolving account (haside.checking.trans hchecking)
      (haside.checkAccount.trans haccount) (haside.announced.trans hannounced) (hunder hway)
  | found account group hon hway => exact .found account group (hon.aside haside) (hunder hway)
  | scanning account group hon hway =>
    exact .scanning account group (hon.aside haside) (hunder hway)
  | scanned account group result hon hstored haccount hgroup hway =>
    exact .scanned account group result (hon.aside haside) (haside.target ▸ hstored) haccount hgroup
      (hunder hway)
  | planning plan hsuits hway =>
    exact .planning plan (hsuits.of_eq haside.checkAccount haside.checkDataset haside.found)
      (hunder hway)
  | announcing job hsuits hway => exact .announcing job (hsuits.aside haside) (hunder hway)

theorem aside_setState (s : PageSession) (job : JobId) (state : JobState) :
    s.Aside (s.setState job state) := by
  refine ⟨rfl, rfl, rfl, rfl, rfl, rfl, rfl, rfl, fun other row hrow => ?_⟩
  by_cases hjob : other = job
  · subst hjob
    refine ⟨{ row with state := state }, ?_, rfl⟩
    show Function.update _ _ _ _ = _
    rw [Function.update_self, hrow, Option.map_some]
  · exact ⟨row, (Function.update_of_ne hjob ..).trans hrow, rfl⟩

/-- What an executor, or a command that is no part of a check, changes. -/
theorem aside_of_same (htarget : s'.target = s.target) (hplanning : s'.planning = s.planning)
    (hevents : s'.checkEvents = s.checkEvents) (hpage : s'.page = s.page)
    (hfound : s'.found = s.found) (hannounced : s'.announced = s.announced)
    (hjobs : s'.jobs = s.jobs) : s.Aside s' :=
  ⟨htarget, hplanning, hevents, by rw [hpage], by rw [hpage], by rw [hpage], hfound, hannounced,
    fun job row hrow => ⟨row, hjobs ▸ hrow, rfl⟩⟩

/-- The event of an executor is handled. -/
theorem aside_handleEvent {event : PageEvent} (hevent : event.ofRun ≠ none) (s : PageSession)
    (action : Action) (enabled : Bool) : s.Aside (s.handleEvent action enabled event) := by
  cases event with
  | targetGroupResolved | targetPrecheckCompleted | migrationPlanReady job =>
    exact absurd rfl hevent
  | jobStateChanged job =>
    rw [handleEvent]
    split_ifs
    · exact ⟨rfl, rfl, rfl, rfl, rfl, rfl, rfl, rfl, fun _ row hrow => ⟨row, hrow, rfl⟩⟩
    · exact aside_of_same rfl rfl rfl rfl rfl rfl rfl
  | migrationItemCompleted job | migrationCompleted job =>
    exact ⟨rfl, rfl, rfl, rfl, rfl, rfl, rfl, rfl, fun _ row hrow => ⟨row, hrow, rfl⟩⟩

/-! ### The steps of a check -/

theorem checkEvents_emit_of_check {event : PageEvent} (h : event.ofRun = none) :
    (s.emit event).checkEvents = s.checkEvents ++ [event] := by
  show (s.events ++ [event]).filter _ = _
  rw [List.filter_append, List.filter_cons, if_pos (by rw [h]; rfl), List.filter_nil]
  rfl

theorem checkEvents_emit_of_run {event : PageEvent} (h : event.ofRun ≠ none) :
    (s.emit event).checkEvents = s.checkEvents := by
  show (s.events ++ [event]).filter _ = _
  rw [List.filter_append, List.filter_cons,
    if_neg (by rwa [Option.isNone_iff_eq_none]), List.filter_nil, List.append_nil]
  rfl

/-- The press. -/
theorem single_check (hway : s.UnderWay [] [] [] []) (account : AccountId) (dataset : DatasetId)
    (enabled : Bool) : (s.check account dataset enabled).Single := by
  refine ⟨?_, nofun⟩
  cases enabled with
  | true =>
    refine .resolving account rfl rfl rfl ⟨?_, hway.prechecking, hway.planning, hway.events⟩
    show s.target.resolving ++ [account] = [account]
    rw [hway.resolving, List.nil_append]
  | false => exact .settled ⟨hway.resolving, hway.prechecking, hway.planning, hway.events⟩

/-- A row that is new changes no other. -/
theorem rows_addRow {plan : Plan × DatasetId} (hnone : s.jobs job = none) {other : JobId}
    {row : MigrationRow} (hrow : s.jobs other = some row) :
    ∃ row', (s.addRow job plan).jobs other = some row' ∧ row'.planned = row.planned := by
  have hne : other ≠ job := by
    rintro rfl
    exact absurd (hnone.symm.trans hrow) nofun
  exact ⟨row, (Function.update_of_ne hne ..).trans hrow, rfl⟩

/-- The page handles the event of a target: the pre-check is under way, or nothing is. -/
theorem Single.precheck (h : s.Single) (hway : s.UnderWay [] [] [] []) {group : GroupContext}
    (hon : s.OnTarget account group) (enabled : Bool) : (s.precheck enabled).Single := by
  have hprecheck : s.precheck enabled = s.command enabled (.precheckTarget account) := by
    rw [PageSession.precheck, hon.checkAccount]
  have hguard : TargetState.precheckGuard s.target.store account =
      if group.localGroupId = none then none else some group := by
    rw [TargetState.precheckGuard, hon.targetGroup]
    simp only [hon.targetAccountId, if_true]
  rw [hprecheck]
  cases enabled with
  | false => exact h
  | true =>
    have hcommand : s.command true (.precheckTarget account) =
        if group.localGroupId = none then s
        else
          { s with
            target := { s.target with
              prechecking := s.target.prechecking ++ [(account, group)] } } := by
      rw [command, TargetState.step, if_pos rfl, hguard]
      split_ifs
      · rfl
      · rfl
    rw [hcommand]
    split_ifs
    · exact h
    · refine ⟨.scanning account group ⟨hon.checking, hon.checkAccount, hon.found, hon.targetGroup,
        hon.targetAccountId⟩ ⟨hway.resolving, ?_, hway.planning, hway.events⟩, ?_⟩
      · show s.target.prechecking ++ [(account, group)] = _
        rw [hway.prechecking, List.nil_append]
      · exact fun job hjob => (h.announced job hjob).of_eq (fun row hrow => ⟨row, hrow, rfl⟩) rfl
          rfl rfl

/-- The page handles the event of a pre-check: a plan is under way, or nothing is. -/
theorem Single.plan (h : s.Single) (hway : s.UnderWay [] [] [] []) {group : GroupContext}
    {result : PrecheckResult} (hon : s.OnTarget account group)
    (hstored : s.target.store.precheck = some result) (haccount : result.account = account)
    (hgroup : result.group = group) (action : Action) : (s.plan action).Single := by
  rw [PageSession.plan, hon.checkAccount]
  cases hdataset : s.page.checkDataset with
  | none => exact h
  | some dataset =>
    show PageSession.Single (match TargetState.planAction s.target.store account action with
      | some plan => { s with planning := s.planning ++ [(plan, dataset)] }
      | none => s)
    cases hplan : TargetState.planAction s.target.store account action with
    | none => exact h
    | some plan =>
      obtain ⟨target, htarget, hlocal, hpre, -, hplanned⟩ := TargetState.planAction_eq_some hplan
      obtain rfl := Option.some.inj (hon.targetGroup.symm.trans htarget)
      obtain rfl := Option.some.inj (hstored.symm.trans hpre)
      refine ⟨.planning (plan, dataset) ⟨?_, hdataset, ?_, ?_, ?_⟩
        ⟨hway.resolving, hway.prechecking, ?_, hway.events⟩, ?_⟩
      · rw [hplanned]
        exact hon.checkAccount
      · rw [hplanned, haccount]
      · rw [hgroup]
        exact hon.found
      · rw [hgroup]
        exact hlocal
      · show s.planning ++ [(plan, dataset)] = _
        rw [hway.planning, List.nil_append]
      · exact fun job hjob => (h.announced job hjob).of_eq (fun row hrow => ⟨row, hrow, rfl⟩) rfl
          rfl rfl

/-- An event is handled. -/
theorem Single.deliver (h : s.Single) {i : ℕ} {event : PageEvent} (hi : s.events[i]? = some event)
    (action : Action) (enabled : Bool) : ((s.taken i).handleEvent action enabled event).Single := by
  by_cases hevent : event.ofRun = none
  · obtain ⟨hway, hcase⟩ := h.check.of_event hi hevent
    have htaken : (s.taken i).Single :=
      ⟨.settled hway, fun job hjob => (h.announced job hjob).of_eq
        (fun row hrow => ⟨row, hrow, rfl⟩) rfl rfl rfl⟩
    rcases hcase with ⟨rfl, account, group, hon⟩ |
      ⟨rfl, account, group, result, hon, hstored, haccount, hgroup⟩ | ⟨job, rfl, hsuits⟩
    · have hon' : (s.taken i).OnTarget account group := ⟨hon.1, hon.2, hon.3, hon.4, hon.5⟩
      rw [handleEvent, if_pos hon'.checking]
      exact htaken.precheck hway hon' enabled
    · have hon' : (s.taken i).OnTarget account group := ⟨hon.1, hon.2, hon.3, hon.4, hon.5⟩
      rw [handleEvent, if_pos hon'.checking]
      exact htaken.plan hway hon' hstored haccount hgroup action
    · refine ⟨.settled ⟨hway.resolving, hway.prechecking, hway.planning, hway.events⟩,
        fun other hother => ?_⟩
      obtain rfl := Option.some.inj hother
      exact hsuits.of_eq (fun row hrow => ⟨row, hrow, rfl⟩) rfl rfl rfl
  · refine Single.aside ?_ (aside_handleEvent hevent _ action enabled)
    exact h.aside (aside_of_same rfl rfl (checkEvents_taken_of_run hi hevent) rfl rfl rfl rfl)

/-- An event is lost. -/
theorem Single.lose (h : s.Single) {i : ℕ} {event : PageEvent} (hi : s.events[i]? = some event) :
    (s.taken i).Single := by
  by_cases hevent : event.ofRun = none
  · exact ⟨.settled (h.check.of_event hi hevent).1,
      fun job hjob => (h.announced job hjob).of_eq (fun row hrow => ⟨row, hrow, rfl⟩) rfl rfl rfl⟩
  · exact h.aside (aside_of_same rfl rfl (checkEvents_taken_of_run hi hevent) rfl rfl rfl rfl)

/-- **One step** of a session in which one check is under way at a time. -/
theorem Single.step (h : s.Single) (hone : s.OneAtATime l) (hstep : s.step l = some s') :
    s'.Single := by
  have hkeep : ∀ {t : PageSession}, t.jobs = s.jobs → t.page = s.page → t.found = s.found →
      t.announced = s.announced → ∀ job, t.announced = some job → t.RowSuits job := by
    intro t hjobs hpage hfound hannounced job hjob
    exact (h.announced job (hannounced ▸ hjob)).of_eq (fun row hrow => ⟨row, hjobs ▸ hrow, rfl⟩)
      (by rw [hpage]) (by rw [hpage]) hfound
  cases l with
  | check account dataset enabled =>
    obtain rfl := Option.some.inj hstep
    exact single_check hone account dataset enabled
  | resolved i telegramId type localId =>
    obtain ⟨target, htarget, rfl⟩ := Option.map_eq_some_iff.mp hstep
    obtain ⟨account, hi, rfl⟩ := Option.map_eq_some_iff.mp htarget
    obtain ⟨rfl, hchecking, haccount, hannounced, hway⟩ := h.check.of_resolving hi
    refine ⟨.found account ⟨telegramId, type, some localId⟩ ⟨hchecking, haccount, rfl, rfl, rfl⟩
      ⟨?_, hway.prechecking, hway.planning, ?_⟩, fun job hjob => ?_⟩
    · show s.target.resolving.eraseIdx 0 = []
      rw [hway.resolving, List.eraseIdx_cons_zero]
    · rw [checkEvents_emit_of_check rfl]
      show s.checkEvents ++ _ = _
      rw [hway.events, List.nil_append]
    · exact absurd (hannounced.symm.trans hjob) nofun
  | resolveFailed i =>
    obtain ⟨target, htarget, rfl⟩ := Option.map_eq_some_iff.mp hstep
    obtain ⟨account, hi, rfl⟩ := Option.map_eq_some_iff.mp htarget
    obtain ⟨rfl, -, -, -, hway⟩ := h.check.of_resolving hi
    refine ⟨.settled ⟨?_, hway.prechecking, hway.planning, hway.events⟩, hkeep rfl rfl rfl rfl⟩
    show s.target.resolving.eraseIdx 0 = []
    rw [hway.resolving, List.eraseIdx_cons_zero]
  | prechecked i targetIds coverage =>
    obtain ⟨target, htarget, rfl⟩ := Option.map_eq_some_iff.mp hstep
    obtain ⟨op, hi, rfl⟩ := Option.map_eq_some_iff.mp htarget
    obtain ⟨rfl, hon, hway⟩ := h.check.of_prechecking hi
    refine ⟨.scanned op.1 op.2 ⟨targetIds, coverage, op.1, op.2⟩
      ⟨hon.checking, hon.checkAccount, hon.found, hon.targetGroup, hon.targetAccountId⟩ rfl rfl rfl
      ⟨hway.resolving, ?_, hway.planning, ?_⟩, hkeep rfl rfl rfl rfl⟩
    · show s.target.prechecking.eraseIdx 0 = []
      rw [hway.prechecking, List.eraseIdx_cons_zero]
    · rw [checkEvents_emit_of_check rfl]
      show s.checkEvents ++ _ = _
      rw [hway.events, List.nil_append]
  | precheckFailed i =>
    obtain ⟨target, htarget, rfl⟩ := Option.map_eq_some_iff.mp hstep
    obtain ⟨op, hi, rfl⟩ := Option.map_eq_some_iff.mp htarget
    obtain ⟨rfl, -, hway⟩ := h.check.of_prechecking hi
    refine ⟨.settled ⟨hway.resolving, ?_, hway.planning, hway.events⟩, hkeep rfl rfl rfl rfl⟩
    show s.target.prechecking.eraseIdx 0 = []
    rw [hway.prechecking, List.eraseIdx_cons_zero]
  | planned i job =>
    obtain ⟨plan, hi, hrow⟩ := Option.bind_eq_some_iff.mp hstep
    split_ifs at hrow with hnone
    obtain rfl := Option.some.inj hrow
    obtain ⟨rfl, hsuits, hway⟩ := h.check.of_planning hi
    refine ⟨.announcing job ⟨_, plan, Function.update_self .., rfl, hsuits.of_eq rfl rfl rfl⟩
      ⟨hway.resolving, hway.prechecking, ?_, ?_⟩, fun other hother => ?_⟩
    · show s.planning.eraseIdx 0 = []
      rw [hway.planning, List.eraseIdx_cons_zero]
    · rw [checkEvents_emit_of_check rfl]
      show s.checkEvents ++ _ = _
      rw [hway.events, List.nil_append]
    · exact (h.announced other hother).of_eq (fun row hrow => rows_addRow hnone hrow) rfl rfl rfl
  | planFailed i leaves =>
    have hover : ∀ {plan}, s.planning[i]? = some plan → (s.planEnded i).UnderWay [] [] [] [] := by
      intro plan hi
      obtain ⟨rfl, -, hway⟩ := h.check.of_planning hi
      refine ⟨hway.resolving, hway.prechecking, ?_, hway.events⟩
      show s.planning.eraseIdx 0 = []
      rw [hway.planning, List.eraseIdx_cons_zero]
    cases leaves with
    | none =>
      obtain ⟨plan, hi, rfl⟩ := Option.map_eq_some_iff.mp hstep
      exact ⟨.settled (hover hi), hkeep rfl rfl rfl rfl⟩
    | some job =>
      obtain ⟨plan, hi, hrow⟩ := Option.bind_eq_some_iff.mp hstep
      split_ifs at hrow with hnone
      obtain rfl := Option.some.inj hrow
      have hway := hover hi
      refine ⟨.settled ⟨hway.resolving, hway.prechecking, hway.planning, hway.events⟩,
        fun other hother => ?_⟩
      exact (h.announced other hother).of_eq (fun row hrow => rows_addRow hnone hrow) rfl rfl rfl
  | deliver i action enabled =>
    obtain ⟨event, hi, rfl⟩ := Option.map_eq_some_iff.mp hstep
    exact h.deliver hi action enabled
  | lose i =>
    obtain ⟨event, hi, rfl⟩ := Option.map_eq_some_iff.mp hstep
    exact h.lose hi
  | start account enabled =>
    obtain rfl := Option.some.inj hstep
    refine h.aside ?_
    split
    · exact aside_of_same rfl rfl rfl rfl rfl rfl rfl
    · exact aside_of_same rfl rfl rfl rfl rfl rfl rfl
  | resume job =>
    rw [PageSession.step] at hstep
    split at hstep
    · split_ifs at hstep
      obtain rfl := Option.some.inj hstep
      exact h.aside (aside_of_same rfl rfl rfl rfl rfl rfl rfl)
    · cases hstep
  | write job state =>
    rw [PageSession.step] at hstep
    split_ifs at hstep
    obtain rfl := Option.some.inj hstep
    exact h.aside (aside_setState s job state)
  | publish event =>
    rw [PageSession.step] at hstep
    split at hstep
    · next job hjob =>
      split at hstep
      · split_ifs at hstep
        obtain rfl := Option.some.inj hstep
        have hevent : event.ofRun ≠ none := by
          rw [hjob]
          exact nofun
        exact h.aside (aside_of_same rfl rfl (checkEvents_emit_of_run hevent) rfl rfl rfl rfl)
      · cases hstep
    · cases hstep
  | finish job =>
    obtain rfl := Option.some.inj hstep
    exact h.aside (aside_of_same rfl rfl rfl rfl rfl rfl rfl)
  | deleteAccount account =>
    obtain rfl := Option.some.inj hstep
    refine h.aside ⟨rfl, rfl, rfl, rfl, rfl, rfl, rfl, rfl, fun job row hrow => ?_⟩
    refine ⟨if row.accountId = some account then { row with accountId := none } else row, ?_, ?_⟩
    · show (s.jobs job).map _ = _
      rw [hrow, Option.map_some]
    · split_ifs
      · rfl
      · rfl

theorem single_boot (jobs : JobId → Option MigrationRow) : (boot jobs).Single :=
  ⟨.settled ⟨rfl, rfl, rfl, rfl⟩, nofun⟩

/-- **What BẮT ĐẦU starts has been planned for what the last press of KIỂM TRA was for**, when
KIỂM TRA is pressed again only after the check before it has come to its end, well or not: the row
has been planned for the account and the dataset of the press, for the group that its command has
found, and from a pre-check of this group by this account. -/
theorem checked_of_start {jobs : JobId → Option MigrationRow} {ls : List PageLabel}
    (hrun : runLabels step (boot jobs) ls = some s) (hone : Along step OneAtATime (boot jobs) ls)
    (hstart : s.startGuard account enabled = some job) :
    ∃ row plan, s.jobs job = some row ∧ row.planned = some plan ∧ s.Suits plan := by
  have hsingle : s.Single :=
    invariant_runLabels (fun _ _ _ h hone hstep => Single.step h hone hstep) (single_boot jobs) hone
      hrun
  exact hsingle.announced job (announced_of_start hrun hstart)

/-- A job of an earlier session. -/
def pausedJob : JobId → Option MigrationRow := fun job =>
  if job = 2 then some ⟨some 1, .paused, none⟩ else none

/-- A check, while the job is at work that has been resumed; its event makes it the current one. -/
def onePress : List PageLabel :=
  [.resume 2, .write 2 .running, .check 1 7 true, .resolved 0 100 .channel 3,
    .deliver 0 .invite true, .prechecked 0 [11] .complete, .publish (.migrationItemCompleted 2),
    .deliver 0 .invite true, .deliver 0 .invite true, .planned 0 5, .deliver 0 .invite true]

theorem started_onePress :
    ∃ s, runLabels step (boot pausedJob) onePress = some s ∧ s.startGuard 1 true = some 5 :=
  Option.bind_eq_some_iff.mp (show ((runLabels step (boot pausedJob) onePress).bind
    fun s => s.startGuard 1 true) = some 5 by decide)

theorem announced_of_start_onePress :
    ∃ s, runLabels step (boot pausedJob) onePress = some s ∧ s.announced = some 5 := by
  obtain ⟨s, hrun, hstart⟩ := started_onePress
  exact ⟨s, hrun, announced_of_start hrun hstart⟩

theorem checked_of_start_onePress :
    ∃ s, runLabels step (boot pausedJob) onePress = some s ∧
      ∃ row plan, s.jobs 5 = some row ∧ row.planned = some plan ∧ s.Suits plan := by
  obtain ⟨s, hrun, hstart⟩ := started_onePress
  exact ⟨s, hrun, checked_of_start hrun (by decide) hstart⟩

/-- KIỂM TRA is pressed twice: the pre-check of the first group comes back when the second one has
been found. -/
def twoPresses : List PageLabel :=
  [.check 1 7 true, .check 1 7 true, .resolved 0 100 .channel 3, .deliver 0 .invite true,
    .resolved 0 200 .channel 4, .prechecked 0 [11] .complete, .deliver 0 .invite true,
    .deliver 0 .invite true, .planned 0 5, .deliver 0 .invite true]

/-- Then BẮT ĐẦU starts a job for the second group, planned from the members of the first. -/
theorem start_of_twoPresses :
    ∃ s, runLabels step (boot fun _ => none) twoPresses = some s ∧ s.startGuard 1 true = some 5 ∧
      ∃ row plan, s.jobs 5 = some row ∧ row.planned = some plan ∧ ¬ s.Suits plan := by
  have hrow : ((runLabels step (boot fun _ => none) twoPresses).bind fun s =>
      if s.startGuard 1 true = some 5 then s.jobs 5 else none) =
        some ⟨some 1, .ready, some (⟨1, .invite, 4, ⟨[11], .complete, 1, ⟨100, .channel, some 3⟩⟩⟩,
          7)⟩ := by decide
  obtain ⟨s, hrun, hrow⟩ := Option.bind_eq_some_iff.mp hrow
  split_ifs at hrow with hstart
  exact ⟨s, hrun, hstart, _, _, hrow, rfl, fun hsuits => absurd hsuits.target (by decide)⟩

end PageSession

end Runtime
end MigrationStudio
