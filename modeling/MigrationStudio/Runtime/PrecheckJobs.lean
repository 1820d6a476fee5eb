import Mathlib.Data.Finset.Card
import MigrationStudio.Foundations.Routines
import MigrationStudio.Migration.Precheck
import MigrationStudio.Runtime.TargetCommands

/-!
# The job of a pre-check

`precheck_target` creates a job, reads the members of the target and writes down how that went:
the state of the job with a checkpoint, a line in the log of the job at the beginning and one at the
end, and the result in the store of the program.  Each of these is a write of its own, and each but
the last may fail; the command may end between any two of them with the program, and the next start
then puts the job that is still RUNNING aside.

* `precheckTarget`: the command with its coroutine, as a routine.
* `JobFile`: the row of a job and its lines in the log; `Stage`: what a job can look like.
* `share`: each command has the file of its job for itself; `keeps_precheckTarget`.
* `filed_of_run`: in every state of every run the file of every job is one of these stages, and the
  result that the store shows is the one of a job whose row and log say so.
* `command_of_running`: a job is RUNNING only while a command runs that has still to write how it
  ended, unless the program ends or one of two writes fails; `running_of_failedStart`.
-/

namespace MigrationStudio
namespace Runtime
namespace PrecheckJobs

open MigrationStudio.Core Foundations

/-! ## The tables -/

/-- What is written into `checkpoint_json`. -/
inductive ScanMark where
  | result (coverage : TargetCoverage) (targetCount : ℕ)
  | error (text : String)
  deriving DecidableEq, Repr

/-- The row of a `TARGET_SCAN` job, and whether its checkpoint says `recovered_after_restart`. -/
structure ScanRow where
  state : JobState
  checkpoint : Option ScanMark := none
  recovered : Bool := false
  deriving DecidableEq, Repr

/-- A row of `job_events`. -/
structure EventLine where
  level : String
  eventCode : String
  message : String
  deriving DecidableEq, Repr

/-- The rows, the log, and the pre-check in the `StateStore`, with the job that has read it. -/
structure ScanStore where
  rows : JobId → Option ScanRow
  log : List (JobId × EventLine)
  precheck : Option (JobId × Migration.PrecheckResult)

/-- The writes: those of the command, `done` of a resolved target, and `normalize_after_restart`. -/
inductive ScanWrite where
  | create (job : JobId)
  | setState (job : JobId) (state : JobState) (checkpoint : ScanMark)
  | event (job : JobId) (line : EventLine)
  | storePrecheck (job : JobId) (result : Migration.PrecheckResult)
  | clearPrecheck
  | recover (job : JobId)

/-- What a write does. -/
def apply (w : ScanWrite) (s : ScanStore) : ScanStore :=
  match w with
  | .create job => { s with rows := Function.update s.rows job (some { state := .running }) }
  | .setState job state checkpoint =>
      { s with
        rows := Function.update s.rows job
          ((s.rows job).map fun _ => { state := state, checkpoint := some checkpoint }) }
  | .event job line => { s with log := s.log ++ [(job, line)] }
  | .storePrecheck job result => { s with precheck := some (job, result) }
  | .clearPrecheck => { s with precheck := none }
  | .recover job =>
      { s with
        rows := Function.update s.rows job ((s.rows job).map fun row =>
          if row.state = .running then { row with state := .paused, recovered := true } else row) }

/-! ## The command -/

/-- `precheck_target`: the id that the job gets, the account, and the target of the snapshot. -/
structure PrecheckCommand where
  job : JobId
  account : AccountId
  target : GroupContext

/-- The call that the coroutine awaits: `precheck.run`. -/
inductive PrecheckCall where
  | run (account : AccountId) (target : GroupContext)
  deriving DecidableEq

/-- A coroutine; an exception is its text. -/
abbrev PrecheckRoutine :=
  Routine ScanWrite PrecheckCall (fun _ => Migration.PrecheckResult) String

/-- `str(result.coverage)`. -/
def coverageText : TargetCoverage → String
  | .complete => "COMPLETE"
  | .partly => "PARTIAL"
  | .unavailable => "UNAVAILABLE"

def startedLine (target : GroupContext) : EventLine :=
  ⟨"INFO", "TARGET_PRECHECK_STARTED", "target=" ++ target.telegramId.repr⟩

def completedLine (result : Migration.PrecheckResult) : EventLine :=
  ⟨"INFO", "TARGET_PRECHECK_COMPLETED",
    "coverage=" ++ coverageText result.coverage ++ " target_count=" ++
      result.targetIds.card.repr⟩

def failedLine (text : String) : EventLine := ⟨"ERROR", "TARGET_PRECHECK_FAILED", text⟩

/-- The checkpoint of a result. -/
def resultMark (result : Migration.PrecheckResult) : ScanMark :=
  .result result.coverage result.targetIds.card

/-- The `except` of `operation`. -/
def operationFailed (c : PrecheckCommand) (text : String) :
    PrecheckRoutine Migration.PrecheckResult := do
  Routine.await (.setState c.job .failed (.error text))
  Routine.await (.event c.job (failedLine text))
  throw text

/-- `operation`. -/
def operation (c : PrecheckCommand) : PrecheckRoutine Migration.PrecheckResult := do
  Routine.await (.event c.job (startedLine c.target))
  tryCatch
    (do
      let result ← Routine.ask (.run c.account c.target)
      Routine.await (.setState c.job .completed (resultMark result))
      Routine.await (.event c.job (completedLine result))
      pure result)
    (operationFailed c)

/-- `precheck_target` behind its guards: `prepare` on a worker, `operation` on the network, `done`
when it has returned. -/
def precheckTarget (c : PrecheckCommand) : PrecheckRoutine Unit := do
  Routine.await (.create c.job)
  let result ← operation c
  Routine.await (.storePrecheck c.job result)

/-! ## The file of a job -/

/-- The row of a job, and its lines in the log. -/
structure JobFile where
  row : Option ScanRow
  log : List EventLine
  deriving DecidableEq, Repr

def ScanStore.file (s : ScanStore) (job : JobId) : JobFile where
  row := s.rows job
  log := s.log.filterMap fun entry => if entry.1 = job then some entry.2 else none

/-- How far the command of a job has come. -/
inductive Stage where
  | absent
  | created
  | started
  | completed (result : Migration.PrecheckResult)
  | completedTold (result : Migration.PrecheckResult)
  | failed (text : String)
  | failedTold (text : String)
  | putAside (begun : Bool)

/-- What the job of a pre-check of the target then looks like. -/
def Stage.file (target : GroupContext) : Stage → JobFile
  | .absent => ⟨none, []⟩
  | .created => ⟨some ⟨.running, none, false⟩, []⟩
  | .started => ⟨some ⟨.running, none, false⟩, [startedLine target]⟩
  | .completed result =>
      ⟨some ⟨.completed, some (resultMark result), false⟩, [startedLine target]⟩
  | .completedTold result =>
      ⟨some ⟨.completed, some (resultMark result), false⟩,
        [startedLine target, completedLine result]⟩
  | .failed text => ⟨some ⟨.failed, some (.error text), false⟩, [startedLine target]⟩
  | .failedTold text =>
      ⟨some ⟨.failed, some (.error text), false⟩, [startedLine target, failedLine text]⟩
  | .putAside begun =>
      ⟨some ⟨.paused, none, true⟩, if begun then [startedLine target] else []⟩

/-- What a write of a command does to the file of its job. -/
def JobFile.write (f : JobFile) : ScanWrite → JobFile
  | .create _ => { f with row := some { state := .running } }
  | .setState _ state checkpoint =>
      { f with row := f.row.map fun _ => { state := state, checkpoint := some checkpoint } }
  | .event _ line => { f with log := f.log ++ [line] }
  | .storePrecheck _ _ | .clearPrecheck | .recover _ => f

/-- The writes that a command may make, by the file of its job. -/
def Allowed (c : PrecheckCommand) (w : ScanWrite) (f : JobFile) : Prop :=
  match w with
  | .create job => job = c.job ∧ f = Stage.absent.file c.target
  | .setState job state checkpoint => job = c.job ∧
      ((∃ result, state = .completed ∧ checkpoint = resultMark result ∧
          f = Stage.started.file c.target) ∨
        ∃ text, state = .failed ∧ checkpoint = .error text ∧
          (f = Stage.started.file c.target ∨
            ∃ result, f = (Stage.completed result).file c.target))
  | .event job line => job = c.job ∧
      ((line = startedLine c.target ∧ f = Stage.created.file c.target) ∨
        (∃ result, line = completedLine result ∧ f = (Stage.completed result).file c.target) ∨
        ∃ text, line = failedLine text ∧ f = (Stage.failed text).file c.target)
  | .storePrecheck job result => job = c.job ∧ f = (Stage.completedTold result).file c.target
  | .clearPrecheck | .recover _ => False

/-- The contract of a command; every write but that into the store of the program may fail. -/
def contract (c : PrecheckCommand) : Contract ScanWrite JobFile where
  allowed := Allowed c
  fallible := fun w => ∀ job result, w ≠ .storePrecheck job result
  effect := fun w f => f.write w

/-! ### The steps of a command -/

section Stages

variable (target : GroupContext) (job : JobId) (result : Migration.PrecheckResult) (text : String)

theorem write_create :
    (Stage.absent.file target).write (.create job) = Stage.created.file target := rfl

theorem write_started :
    (Stage.created.file target).write (.event job (startedLine target)) =
      Stage.started.file target := rfl

theorem write_completed :
    (Stage.started.file target).write (.setState job .completed (resultMark result)) =
      (Stage.completed result).file target := rfl

theorem write_completedTold :
    ((Stage.completed result).file target).write (.event job (completedLine result)) =
      (Stage.completedTold result).file target := rfl

theorem write_failed_of_started :
    (Stage.started.file target).write (.setState job .failed (.error text)) =
      (Stage.failed text).file target := rfl

theorem write_failed_of_completed :
    ((Stage.completed result).file target).write (.setState job .failed (.error text)) =
      (Stage.failed text).file target := rfl

theorem write_failedTold :
    ((Stage.failed text).file target).write (.event job (failedLine text)) =
      (Stage.failedTold text).file target := rfl

end Stages

/-- What a coroutine that returns has written. -/
def Told (c : PrecheckCommand) (x : Except String Migration.PrecheckResult) (f : JobFile) : Prop :=
  ∀ result, x = .ok result → f = (Stage.completedTold result).file c.target

variable {c : PrecheckCommand} {f : JobFile}

/-- A coroutine that raises has nothing to tell. -/
theorem told_error (text : String) (f : JobFile) : Told c (.error text) f := by
  intro result hresult
  cases hresult

theorem keeps_operationFailed {text : String}
    (hf : f = Stage.started.file c.target ∨ ∃ result, f = (Stage.completed result).file c.target) :
    (operationFailed c text).wp (contract c) (Told c) f := by
  have hfailed : f.write (.setState c.job .failed (.error text)) =
      (Stage.failed text).file c.target := by
    rcases hf with rfl | ⟨result, rfl⟩
    · exact write_failed_of_started ..
    · exact write_failed_of_completed ..
  simp only [operationFailed, Routine.wp_bind, Routine.wp_await, Routine.wp_throw]
  refine ⟨⟨rfl, .inr ⟨text, rfl, rfl, hf⟩⟩, ⟨⟨rfl, .inr (.inr ⟨text, rfl, hfailed⟩)⟩, ?_, ?_⟩, ?_⟩
  · exact told_error text _
  · exact fun _ e => told_error e _
  · exact fun _ e => told_error e _

theorem keeps_operation :
    (operation c).wp (contract c) (Told c) (Stage.created.file c.target) := by
  simp only [operation, Routine.wp_bind, Routine.wp_await, Routine.wp_tryCatch, Routine.wp_ask,
    Routine.wp_pure]
  refine ⟨⟨rfl, .inl ⟨rfl, rfl⟩⟩, ⟨fun result => ⟨⟨rfl, .inl ⟨result, rfl, rfl, rfl⟩⟩,
    ⟨⟨rfl, .inr (.inl ⟨result, rfl, rfl⟩)⟩, ?_, ?_⟩, ?_⟩, ?_⟩, ?_⟩
  · rintro _ hresult
    obtain rfl := Except.ok.inj hresult
    rfl
  · exact fun _ text => keeps_operationFailed (.inr ⟨result, rfl⟩)
  · exact fun _ text => keeps_operationFailed (.inl rfl)
  · exact fun text => keeps_operationFailed (.inl rfl)
  · exact fun _ text => told_error text _

/-- **Every command keeps its contract**, from the state in which its job does not exist. -/
theorem keeps_precheckTarget (c : PrecheckCommand) :
    (precheckTarget c).wp (contract c) (fun _ _ => True) (Stage.absent.file c.target) := by
  simp only [precheckTarget, Routine.wp_bind, Routine.wp_await]
  refine ⟨⟨rfl, rfl⟩, Routine.wp_mono (fun x f htold => ?_) keeps_operation, fun _ _ => trivial⟩
  cases x with
  | ok result => exact ⟨⟨rfl, htold result rfl⟩, trivial, fun _ _ => trivial⟩
  | error text => trivial

/-! ## The files in the store -/

/-- The job whose file a write touches. -/
def ScanWrite.jobOf : ScanWrite → Option JobId
  | .create job | .setState job _ _ | .event job _ | .recover job => some job
  | .storePrecheck _ _ | .clearPrecheck => none

variable {w : ScanWrite} {s : ScanStore} {job : JobId} {target : GroupContext}
variable {result : Migration.PrecheckResult}

theorem file_apply_of_ne (h : w.jobOf ≠ some job) (s : ScanStore) :
    (apply w s).file job = s.file job := by
  have hrows : ∀ {other : JobId} {row : Option ScanRow}, some other ≠ some job →
      Function.update s.rows other row job = s.rows job := by
    intro other row hne
    exact Function.update_of_ne (fun hjob => hne (congrArg some hjob.symm)) ..
  cases w with
  | create other => exact congrArg (JobFile.mk · _) (hrows h)
  | setState other state checkpoint => exact congrArg (JobFile.mk · _) (hrows h)
  | recover other => exact congrArg (JobFile.mk · _) (hrows h)
  | event other line =>
    have hne : ¬ other = job := fun hjob => h (congrArg some hjob)
    show JobFile.mk _ ((s.log ++ [(other, line)]).filterMap _) = _
    rw [List.filterMap_append]
    simp only [List.filterMap_cons, List.filterMap_nil, if_neg hne, List.append_nil]
    rfl
  | storePrecheck other result => rfl
  | clearPrecheck => rfl

/-- A write that a command may make is of its own job. -/
theorem Allowed.jobOf (h : Allowed c w f) : w.jobOf = some c.job ∨ w.jobOf = none := by
  cases w with
  | create job => exact .inl (congrArg some h.1)
  | setState job state checkpoint => exact .inl (congrArg some h.1)
  | event job line => exact .inl (congrArg some h.1)
  | storePrecheck job result => exact .inr rfl
  | clearPrecheck => exact .inr rfl
  | recover job => exact absurd h id

theorem Allowed.file_apply (h : Allowed c w f) (s : ScanStore) :
    (apply w s).file c.job = (s.file c.job).write w := by
  cases w with
  | create job =>
    obtain ⟨rfl, -⟩ := h
    exact congrArg (JobFile.mk · _) (Function.update_self ..)
  | setState job state checkpoint =>
    obtain ⟨rfl, -⟩ := h
    exact congrArg (JobFile.mk · _) (Function.update_self ..)
  | event job line =>
    obtain ⟨rfl, -⟩ := h
    show JobFile.mk _ ((s.log ++ [(c.job, line)]).filterMap _) = _
    rw [List.filterMap_append]
    simp only [List.filterMap_cons, List.filterMap_nil, if_true]
    rfl
  | storePrecheck job result => rfl
  | clearPrecheck | recover job => exact absurd h id

/-- Each command has the file of its job. -/
def share : Share PrecheckCommand JobFile apply where
  view := fun c s => s.file c.job
  contract := contract
  view_apply := fun _ _ s h => Allowed.file_apply h s

/-- A write that a command may make leads to the next stage. -/
theorem Allowed.stage (h : Allowed c w f) : ∃ stage, f.write w = Stage.file c.target stage := by
  cases w with
  | create job =>
    obtain ⟨-, rfl⟩ := h
    exact ⟨.created, write_create ..⟩
  | setState job state checkpoint =>
    rcases h with ⟨-, ⟨result, rfl, rfl, rfl⟩ | ⟨text, rfl, rfl, rfl | ⟨result, rfl⟩⟩⟩
    · exact ⟨.completed result, write_completed ..⟩
    · exact ⟨.failed text, write_failed_of_started ..⟩
    · exact ⟨.failed text, write_failed_of_completed ..⟩
  | event job line =>
    rcases h with ⟨-, ⟨rfl, rfl⟩ | ⟨result, rfl, rfl⟩ | ⟨text, rfl, rfl⟩⟩
    · exact ⟨.started, write_started ..⟩
    · exact ⟨.completedTold result, write_completedTold ..⟩
    · exact ⟨.failedTold text, write_failedTold ..⟩
  | storePrecheck job result =>
    obtain ⟨-, rfl⟩ := h
    exact ⟨.completedTold result, rfl⟩
  | clearPrecheck | recover job => exact absurd h id

/-- When everything has been told, nothing is written any more but into the store of the program. -/
theorem Allowed.of_told (h : Allowed c w ((Stage.completedTold result).file target)) :
    ∃ result', w = .storePrecheck c.job result' := by
  cases w with
  | create job => simp [Allowed, Stage.file] at h
  | setState job state checkpoint => simp [Allowed, Stage.file] at h
  | event job line => simp [Allowed, Stage.file] at h
  | storePrecheck job result' => exact ⟨result', by rw [h.1]⟩
  | clearPrecheck | recover job => exact absurd h id

/-- Only the last write of a command changes what is shown. -/
theorem Allowed.precheck_apply (h : Allowed c w f)
    (hstore : ¬ ∃ other shown, w = .storePrecheck other shown) (s : ScanStore) :
    (apply w s).precheck = s.precheck := by
  cases w with
  | create job => rfl
  | setState job state checkpoint => rfl
  | event job line => rfl
  | storePrecheck other shown => exact absurd ⟨other, shown, rfl⟩ hstore
  | clearPrecheck | recover job => exact absurd h id

/-- What a start makes of the file of a job. -/
def JobFile.putAside (f : JobFile) : JobFile :=
  { f with
    row := f.row.map fun row =>
      if row.state = .running then { row with state := .paused, recovered := true } else row }

theorem file_recover (s : ScanStore) (job : JobId) :
    (apply (.recover job) s).file job = (s.file job).putAside :=
  congrArg (JobFile.mk · _) (Function.update_self ..)

/-- A start moves a job that was left RUNNING to a stage of its own, and leaves the others. -/
theorem exists_putAside (target : GroupContext) (stage : Stage) :
    ∃ stage' : Stage, (stage.file target).putAside = stage'.file target := by
  cases stage with
  | created => exact ⟨.putAside false, rfl⟩
  | started => exact ⟨.putAside true, rfl⟩
  | absent => exact ⟨.absent, rfl⟩
  | completed result => exact ⟨.completed result, rfl⟩
  | completedTold result => exact ⟨.completedTold result, rfl⟩
  | failed text => exact ⟨.failed text, rfl⟩
  | failedTold text => exact ⟨.failedTold text, rfl⟩
  | putAside begun => exact ⟨.putAside begun, rfl⟩

theorem putAside_completedTold (target : GroupContext) (result : Migration.PrecheckResult) :
    ((Stage.completedTold result).file target).putAside =
      (Stage.completedTold result).file target := rfl

/-! ## Runs -/

/-- The commands that run, side by side, on the store. -/
abbrev Prechecks (T : Type) :=
  Pool T PrecheckCommand ScanWrite PrecheckCall (fun _ => Migration.PrecheckResult) String Unit
    ScanStore

abbrev PrecheckLabel (T : Type) :=
  PoolLabel T PrecheckCommand ScanWrite PrecheckCall (fun _ => Migration.PrecheckResult) String

variable {T : Type} {p p' : Prechecks T} {l : PrecheckLabel T}

/-- No command that runs has this job. -/
def Idle (p : Prechecks T) (job : JobId) : Prop :=
  ∀ u c r, p.running u = some (c, r) → c.job ≠ job

/-- A command gets an id that no job has; every write may fail but that into the store of the
program.  Besides, the pre-check is cleared, a job is put aside that nobody works on, and a row is
written late, when its command has given up waiting for it. -/
def Admissible (p : Prechecks T) : PrecheckLabel T → Prop
  | .begin _ c => p.store.file c.job = ⟨none, []⟩ ∧ Idle p c.job
  | .fail t _ => ∀ c w next, p.running t = some (c, .write w next) →
      ∀ job result, w ≠ .storePrecheck job result
  | .other .clearPrecheck => True
  | .other (.recover job) => Idle p job
  | .other (.create job) => p.store.file job = ⟨none, []⟩ ∧ Idle p job
  | .other _ => False
  | _ => True

/-- The store is in order: the file of every job is one of the stages, and the pre-check that is
shown is the one of a job whose file says so. -/
structure Filed (s : ScanStore) : Prop where
  files : ∀ job, ∃ target stage, s.file job = Stage.file target stage
  shown : ∀ job result, s.precheck = some (job, result) →
    ∃ target, s.file job = (Stage.completedTold result).file target

/-- The commands keep their contracts, no two have the same job, and the store is in order. -/
structure Sound (p : Prechecks T) : Prop where
  kept : share.Kept p
  apart : ∀ t u c c' r r', p.running t = some (c, r) → p.running u = some (c', r') →
    c.job = c'.job → t = u
  filed : Filed p.store

/-- **A write of a command** takes its job to the next stage and touches no other. -/
theorem Sound.filed_commit (h : Sound p) {t : T} {next : Except String Unit → PrecheckRoutine Unit}
    (ht : p.running t = some (c, .write w next)) : Filed (apply w p.store) := by
  have hallowed : Allowed c w (p.store.file c.job) := h.kept.allowed ht
  have hown : ∀ job, w.jobOf = some job → c.job = job := by
    intro job hjob
    rcases hallowed.jobOf with hown | hnone
    · exact Option.some.inj (hown.symm.trans hjob)
    · exact absurd (hjob.symm.trans hnone) (Option.some_ne_none _)
  constructor
  · intro job
    by_cases hjob : w.jobOf = some job
    · obtain rfl := hown job hjob
      obtain ⟨stage, hstage⟩ := hallowed.stage
      exact ⟨c.target, stage, (hallowed.file_apply p.store).trans hstage⟩
    · rw [file_apply_of_ne hjob]
      exact h.filed.files job
  · intro job result hshown
    by_cases hstore : ∃ other shown, w = .storePrecheck other shown
    · obtain ⟨other, shown, rfl⟩ := hstore
      obtain ⟨rfl, rfl⟩ := Prod.mk.inj (Option.some.inj hshown)
      obtain ⟨rfl, hfile⟩ := hallowed
      exact ⟨c.target, hfile⟩
    · rw [hallowed.precheck_apply hstore] at hshown
      obtain ⟨target, hfile⟩ := h.filed.shown job result hshown
      have hjob : w.jobOf ≠ some job := by
        intro hjob
        obtain rfl := hown job hjob
        rw [hfile] at hallowed
        obtain ⟨shown, hw⟩ := hallowed.of_told
        exact hstore ⟨_, shown, hw⟩
      exact ⟨target, (file_apply_of_ne hjob p.store).trans hfile⟩

/-- A write to the row of a job leaves the other jobs as they are. -/
theorem file_apply_other {job' : JobId} (hw : w.jobOf = some job) (hne : job' ≠ job)
    (s : ScanStore) : (apply w s).file job' = s.file job' :=
  file_apply_of_ne (fun hjob => hne (Option.some.inj (hjob.symm.trans hw))) s

/-- A start leaves the store in order. -/
theorem Filed.recover {s : ScanStore} (h : Filed s) (job : JobId) :
    Filed (apply (.recover job) s) := by
  constructor
  · intro job'
    obtain ⟨target, stage, hfile⟩ := h.files job'
    by_cases hjob : job' = job
    · subst hjob
      obtain ⟨stage', hstage⟩ := exists_putAside target stage
      exact ⟨target, stage', by rw [file_recover, hfile, hstage]⟩
    · exact ⟨target, stage, (file_apply_other rfl hjob s).trans hfile⟩
  · intro job' result hshown
    obtain ⟨target, hfile⟩ := h.shown job' result hshown
    by_cases hjob : job' = job
    · subst hjob
      exact ⟨target, by rw [file_recover, hfile, putAside_completedTold]⟩
    · exact ⟨target, (file_apply_other rfl hjob s).trans hfile⟩

/-- So does a row that is written late. -/
theorem Filed.create {s : ScanStore} (h : Filed s) (hnew : s.file job = ⟨none, []⟩) :
    Filed (apply (.create job) s) := by
  constructor
  · intro job'
    obtain ⟨target, stage, hfile⟩ := h.files job'
    by_cases hjob : job' = job
    · subst hjob
      have hcreated : (apply (.create job') s).file job' = (s.file job').write (.create job') :=
        congrArg (JobFile.mk · _) (Function.update_self ..)
      refine ⟨target, .created, hcreated.trans ?_⟩
      rw [hnew]
      exact write_create ..
    · exact ⟨target, stage, (file_apply_other rfl hjob s).trans hfile⟩
  · intro job' result hshown
    obtain ⟨target, hfile⟩ := h.shown job' result hshown
    have hjob : job' ≠ job := by
      rintro rfl
      exact Option.some_ne_none _ (congrArg JobFile.row (hfile.symm.trans hnew))
    exact ⟨target, (file_apply_other rfl hjob s).trans hfile⟩

/-- The other commands have other jobs. -/
theorem Sound.others (h : Sound p) {t : T} {r : PrecheckRoutine Unit}
    (ht : p.running t = some (c, r)) :
    ∀ u c' r', u ≠ t → p.running u = some (c', r') → c'.job ≠ c.job :=
  fun u c' r' hut hu hjob => hut (h.apart u t c' c r' r hu ht hjob)

/-- The steps that are admissible leave every command its job. -/
theorem Sound.shares (h : Sound p) (hl : Admissible p l) : share.Apart precheckTarget p l := by
  cases l with
  | begin t c =>
    show (precheckTarget c).wp (contract c) _ (p.store.file c.job)
    rw [hl.1]
    exact keeps_precheckTarget c
  | commit t =>
    intro c w next ht u c' r' hut hu
    have hallowed : Allowed c w (p.store.file c.job) := h.kept.allowed ht
    refine file_apply_of_ne (fun hjob => ?_) p.store
    rcases hallowed.jobOf with hown | hnone
    · exact h.others ht u c' r' hut hu (Option.some.inj (hjob.symm.trans hown))
    · exact Option.some_ne_none _ (hjob.symm.trans hnone)
  | fail t e => exact hl
  | answer t q x => trivial
  | cancel t => trivial
  | other w =>
    intro u c' r' _ hu
    cases w with
    | clearPrecheck => rfl
    | recover job => exact file_apply_other rfl (hl u c' r' hu) p.store
    | create job => exact file_apply_other rfl (hl.2 u c' r' hu) p.store
    | setState job state checkpoint => exact absurd hl id
    | event job line => exact absurd hl id
    | storePrecheck job result => exact absurd hl id

variable [DecidableEq T]

/-- A routine goes on: the jobs of the commands stay apart. -/
theorem Sound.apart_goOn (h : Sound p) {t : T} {c : PrecheckCommand} {r : PrecheckRoutine Unit}
    {s : ScanStore} (hc : ∀ u c' r', u ≠ t → p.running u = some (c', r') → c'.job ≠ c.job) :
    ∀ v u c₁ c₂ r₁ r₂, ({ p with store := s }.goOn t c r).running v = some (c₁, r₁) →
      ({ p with store := s }.goOn t c r).running u = some (c₂, r₂) → c₁.job = c₂.job → v = u := by
  intro v u c₁ c₂ r₁ r₂ hv hu hjob
  rcases Pool.of_running_goOn hv with ⟨rfl, rfl, -⟩ | ⟨hvt, hv'⟩
  · rcases Pool.of_running_goOn hu with ⟨rfl, -⟩ | ⟨hut, hu'⟩
    · rfl
    · exact absurd hjob.symm (hc u c₂ r₂ hut hu')
  · rcases Pool.of_running_goOn hu with ⟨rfl, rfl, -⟩ | ⟨hut, hu'⟩
    · exact absurd hjob (hc v c₁ r₁ hvt hv')
    · exact h.apart v u c₁ c₂ r₁ r₂ hv' hu' hjob

/-- **One step** keeps the pool sound. -/
theorem Sound.step (h : Sound p) (hl : Admissible p l)
    (hstep : p.step precheckTarget apply l = some p') : Sound p' := by
  have hkept : share.Kept p' := h.kept.step (h.shares hl) hstep
  rcases Pool.step_cases hstep with ⟨t, c, rfl, -, rfl⟩ | ⟨t, c, w, next, rfl, ht, rfl⟩ |
    ⟨t, e, c, w, next, rfl, ht, rfl⟩ | ⟨t, q, x, c, next, rfl, ht, rfl⟩ | ⟨t, rfl, rfl⟩ |
    ⟨w, rfl, rfl⟩
  · exact ⟨hkept, h.apart_goOn fun u c' r' _ hu => hl.2 u c' r' hu, h.filed⟩
  · exact ⟨hkept, h.apart_goOn (h.others ht), h.filed_commit ht⟩
  · exact ⟨hkept, h.apart_goOn (h.others ht), h.filed⟩
  · exact ⟨hkept, h.apart_goOn (h.others ht), h.filed⟩
  · refine ⟨hkept, fun v u c₁ c₂ r₁ r₂ hv hu => ?_, h.filed⟩
    exact h.apart v u c₁ c₂ r₁ r₂ (Pool.of_running_cancel hv) (Pool.of_running_cancel hu)
  · cases w with
    | clearPrecheck =>
      exact ⟨hkept, h.apart, h.filed.files, fun job result hshown => by cases hshown⟩
    | recover job => exact ⟨hkept, h.apart, h.filed.recover job⟩
    | create job => exact ⟨hkept, h.apart, h.filed.create hl.1⟩
    | setState job state checkpoint => exact absurd hl id
    | event job line => exact absurd hl id
    | storePrecheck job result => exact absurd hl id

/-- Before the first pre-check. -/
def boot : Prechecks T := ⟨⟨fun _ => none, [], none⟩, fun _ => none⟩

omit [DecidableEq T] in
theorem sound_boot : Sound (boot : Prechecks T) where
  kept := fun _ _ _ ht => absurd ht.symm (Option.some_ne_none _)
  apart := fun _ _ _ _ _ _ ht => absurd ht.symm (Option.some_ne_none _)
  filed := ⟨fun _ => ⟨⟨0, .channel, none⟩, .absent, rfl⟩,
    fun _ _ hshown => absurd hshown.symm (Option.some_ne_none _)⟩

/-- **The file of every job is one of the stages, and the pre-check that is shown is the one of a
job whose row and log say so**: whichever commands run side by side, whatever their reads of the
target return or raise, whichever of their writes fail, and wherever the program ends and starts
again. -/
theorem filed_of_run {ls : List (PrecheckLabel T)}
    (hrun : runLabels (Pool.step precheckTarget apply) boot ls = some p)
    (halong : Along (Pool.step precheckTarget apply) Admissible boot ls) : Filed p.store :=
  (invariant_runLabels (fun _ _ _ h hl hstep => Sound.step h hl hstep) sound_boot halong hrun).filed

/-- A pre-check of a group with one member. -/
def oneMember : PrecheckCommand := ⟨1, 1, ⟨100, .channel, some 3⟩⟩

def oneResult : Migration.PrecheckResult := ⟨{11}, .complete⟩

/-- It runs to its end. -/
def onePrecheck : List (PrecheckLabel ℕ) :=
  [.begin 0 oneMember, .commit 0, .commit 0, .answer 0 (.run 1 oneMember.target) (.ok oneResult),
    .commit 0, .commit 0, .commit 0]

theorem filed_of_run_onePrecheck :
    ∃ p, runLabels (Pool.step precheckTarget apply) boot onePrecheck = some p ∧
      p.store.precheck = some (1, oneResult) ∧ Filed p.store := by
  have halong : Along (Pool.step precheckTarget apply) Admissible boot onePrecheck :=
    ⟨⟨rfl, fun _ _ _ hu => absurd hu.symm (Option.some_ne_none _)⟩, fun _ _ => ⟨trivial, fun _ _ =>
      ⟨trivial, fun _ _ => ⟨trivial, fun _ _ => ⟨trivial, fun _ _ => ⟨trivial, fun _ _ =>
        ⟨trivial, fun _ _ => trivial⟩⟩⟩⟩⟩⟩⟩
  obtain ⟨p, hrun, hshown⟩ : ∃ p, runLabels (Pool.step precheckTarget apply) boot onePrecheck =
      some p ∧ p.store.precheck = some (1, oneResult) := ⟨_, rfl, rfl⟩
  exact ⟨p, hrun, hshown, filed_of_run hrun halong⟩

/-! ## Jobs that are RUNNING -/

/-- The job is RUNNING. -/
def ShowsRunning (job : JobId) (s : ScanStore) : Prop :=
  ∃ row, s.rows job = some row ∧ row.state = .running

/-- The write leaves the job RUNNING. -/
def SetsRunning (job : JobId) : ScanWrite → Prop
  | .create other => other = job
  | .setState other state _ => other = job ∧ state = .running
  | .event _ _ | .storePrecheck _ _ | .clearPrecheck | .recover _ => False

/-- The write leaves the job in another state. -/
def ClearsRunning (job : JobId) : ScanWrite → Prop
  | .setState other state _ => other = job ∧ state ≠ .running
  | .recover other => other = job
  | .create _ | .event _ _ | .storePrecheck _ _ | .clearPrecheck => False

/-- The writes that may fail: not the line at the beginning, which is written outside the `try`, and
not the state FAILED, which is written in the `except`. -/
def MayFail : ScanWrite → Prop
  | .setState _ state _ => state ≠ .failed
  | .event _ line => line.eventCode ≠ "TARGET_PRECHECK_STARTED"
  | .create _ | .storePrecheck _ _ | .clearPrecheck | .recover _ => True

instance (job : JobId) : DecidablePred (SetsRunning job)
  | .create _ => inferInstanceAs (Decidable (_ = _))
  | .setState _ _ _ => inferInstanceAs (Decidable (_ ∧ _))
  | .event _ _ | .storePrecheck _ _ | .clearPrecheck | .recover _ => .isFalse id

instance (job : JobId) : DecidablePred (ClearsRunning job)
  | .setState _ _ _ => inferInstanceAs (Decidable (_ ∧ _))
  | .recover _ => inferInstanceAs (Decidable (_ = _))
  | .create _ | .event _ _ | .storePrecheck _ _ | .clearPrecheck => .isFalse id

/-- An UPDATE of the row of a job. -/
theorem showsRunning_update {other : JobId} {f : ScanRow → ScanRow}
    (h : ShowsRunning job { s with rows := Function.update s.rows other ((s.rows other).map f) }) :
    (other = job ∧ ∃ row, s.rows job = some row ∧ (f row).state = .running) ∨
      (ShowsRunning job s ∧ other ≠ job) := by
  obtain ⟨row, hrow, hstate⟩ := h
  by_cases hjob : other = job
  · subst hjob
    obtain ⟨before, hbefore, rfl⟩ :=
      Option.map_eq_some_iff.mp ((Function.update_self other _ s.rows).symm.trans hrow)
    exact .inl ⟨rfl, before, hbefore, hstate⟩
  · have hsame : s.rows job = some row :=
      (Function.update_of_ne (fun hother => hjob hother.symm) ..).symm.trans hrow
    exact .inr ⟨⟨row, hsame, hstate⟩, hjob⟩

/-- **What a write does to the jobs that are RUNNING.** -/
theorem showsRunning_apply (w : ScanWrite) (s : ScanStore) (h : ShowsRunning job (apply w s)) :
    SetsRunning job w ∨ (ShowsRunning job s ∧ ¬ ClearsRunning job w) := by
  cases w with
  | create other =>
    by_cases hjob : other = job
    · exact .inl hjob
    · obtain ⟨row, hrow, hstate⟩ := h
      have hsame : s.rows job = some row :=
        (Function.update_of_ne (fun hother => hjob hother.symm) ..).symm.trans hrow
      exact .inr ⟨⟨row, hsame, hstate⟩, id⟩
  | setState other state checkpoint =>
    rcases showsRunning_update h with ⟨hjob, -, -, hstate⟩ | ⟨hshows, hne⟩
    · exact .inl ⟨hjob, hstate⟩
    · exact .inr ⟨hshows, fun hclear => hne hclear.1⟩
  | recover other =>
    rcases showsRunning_update h with ⟨-, row, -, hstate⟩ | ⟨hshows, hne⟩
    · -- a job that was RUNNING is PAUSED, any other is as it was
      split_ifs at hstate with hrunning
      exact absurd hstate hrunning
    · exact .inr ⟨hshows, hne⟩
  | event other line => exact .inr ⟨h, id⟩
  | storePrecheck other result => exact .inr ⟨h, id⟩
  | clearPrecheck => exact .inr ⟨h, id⟩

/-- **The mark** that a job is RUNNING. -/
def running (job : JobId) : Mark PrecheckCommand apply where
  marked := ShowsRunning job
  sets := SetsRunning job
  clears := ClearsRunning job
  mine := fun c => c.job = job
  fallible := MayFail
  decSets := inferInstance
  decClears := inferInstance
  marked_apply := showsRunning_apply

/-! ### What a command owes -/

section Settles

variable {owing : Bool} {state : JobState} {checkpoint : ScanMark}

theorem owes_event (other : JobId) (line : EventLine) :
    (running job).owes (.event other line) owing = owing :=
  (if_neg id).trans (if_neg id)

/-- How a command ends is written for its own job. -/
theorem owes_setState (hstate : state ≠ .running) (howing : owing = true → c.job = job) :
    (running job).owes (.setState c.job state checkpoint) owing = false := by
  have hsets : ¬ SetsRunning job (.setState c.job state checkpoint) := fun hset => hstate hset.2
  refine (if_neg hsets).trans ?_
  by_cases hjob : c.job = job
  · exact if_pos ⟨hjob, hstate⟩
  · have hclears : ¬ ClearsRunning job (.setState c.job state checkpoint) :=
      fun hclear => hjob hclear.1
    exact (if_neg hclears).trans
      (Bool.eq_false_of_not_eq_true fun htrue => hjob (howing htrue))

theorem settles_operationFailed (text : String) (howing : owing = true → c.job = job) :
    (operationFailed c text).wp ((running job).contract c) (fun _ owing => owing = false)
      owing := by
  have howes : (running job).owes (.setState c.job .failed (.error text)) owing = false :=
    owes_setState JobState.noConfusion howing
  simp only [operationFailed, Routine.wp_bind, Routine.wp_await, Routine.wp_throw,
    Mark.effect_contract, howes, owes_event]
  exact ⟨fun hset => absurd hset.2 JobState.noConfusion,
    ⟨fun hset => absurd hset id, trivial, fun _ _ => trivial⟩, fun hfail => absurd rfl hfail⟩

theorem settles_operation (howing : owing = true → c.job = job) :
    (operation c).wp ((running job).contract c) (fun _ owing => owing = false) owing := by
  have howes : ∀ result, (running job).owes (.setState c.job .completed (resultMark result)) owing =
      false := fun _ => owes_setState JobState.noConfusion howing
  have hsettled : ∀ text, (operationFailed c text).wp ((running job).contract c)
      (fun _ owing => owing = false) false :=
    fun text => settles_operationFailed text fun hfalse => absurd hfalse Bool.false_ne_true
  simp only [operation, Routine.wp_bind, Routine.wp_await, Routine.wp_tryCatch, Routine.wp_ask,
    Routine.wp_pure, Mark.effect_contract, howes, owes_event]
  refine ⟨fun hset => absurd hset id, ⟨fun result => ⟨?_, ⟨fun hset => absurd hset id, trivial,
    fun _ text => hsettled text⟩, fun _ text => ?_⟩, fun text => ?_⟩, fun hfail => absurd rfl hfail⟩
  · exact fun hset => absurd hset.2 JobState.noConfusion
  · exact settles_operationFailed text howing
  · exact settles_operationFailed text howing

end Settles

/-- **Every command writes how it ended.** -/
theorem settles_precheckTarget (job : JobId) (c : PrecheckCommand) :
    (running job).Settles c false (precheckTarget c) := by
  have howes : (running job).owes (.create c.job) false = true → c.job = job := by
    intro howes
    by_contra hjob
    rw [Mark.owes, if_neg (show ¬ (running job).sets (.create c.job) from hjob)] at howes
    exact Bool.false_ne_true ((if_neg id).symm.trans howes)
  show (precheckTarget c).wp _ _ _
  simp only [precheckTarget, Routine.wp_bind, Routine.wp_await, Mark.effect_contract]
  refine ⟨fun hset => hset, Routine.wp_mono (fun x owing hended => ?_) (settles_operation howes),
    fun _ _ => trivial⟩
  cases x with
  | ok result =>
    have hstore : (running job).owes (.storePrecheck c.job result) owing = owing :=
      (if_neg id).trans (if_neg id)
    exact ⟨fun hset => absurd hset id, hstore.trans hended, fun _ _ => hended⟩
  | error text => exact hended

/-- No command is cancelled, only writes fail that may, and no row is written late. -/
def Undisturbed (p : Prechecks T) : PrecheckLabel T → Prop
  | .fail t _ => ∀ c w next, p.running t = some (c, .write w next) → MayFail w
  | .cancel _ => False
  | .other w => ∀ job, ¬ SetsRunning job w
  | _ => True

omit [DecidableEq T] in
theorem Undisturbed.mark (h : Undisturbed p l) : (running job).Undisturbed p l := by
  cases l with
  | fail t e => exact h
  | other w => exact h job
  | cancel t => exact h
  | begin t c => trivial
  | commit t => trivial
  | answer t q x => trivial

/-- **No job is left RUNNING**: however many pre-checks run, whatever their reads return or raise
and whichever of the other writes fail, a job is RUNNING only while a command runs that has still to
write how it ended. -/
theorem command_of_running {ls : List (PrecheckLabel T)}
    (hrun : runLabels (Pool.step precheckTarget apply) boot ls = some p)
    (halong : Along (Pool.step precheckTarget apply) Undisturbed boot ls)
    (hrunning : ShowsRunning job p.store) :
    ∃ t c r, p.running t = some (c, r) ∧ c.job = job ∧ (running job).Settles c true r := by
  have hnone : ¬ ShowsRunning job (boot : Prechecks T).store := by
    rintro ⟨row, hrow, -⟩
    exact Option.some_ne_none _ hrow.symm
  exact Mark.debtor_of_run (settles_precheckTarget job) hnone hrun
    (halong.mono fun _ _ h => h.mark) hrunning

/-- The job of a pre-check is RUNNING when its row has been written, and the command runs. -/
theorem command_of_running_created :
    ∃ p, runLabels (Pool.step precheckTarget apply) boot
        ([.begin 0 oneMember, .commit 0] : List (PrecheckLabel ℕ)) = some p ∧
      ShowsRunning 1 p.store ∧
      ∃ t c r, p.running t = some (c, r) ∧ c.job = 1 ∧ (running 1).Settles c true r := by
  have halong : Along (Pool.step precheckTarget apply) Undisturbed boot
      ([.begin 0 oneMember, .commit 0] : List (PrecheckLabel ℕ)) :=
    ⟨trivial, fun _ _ => ⟨trivial, fun _ _ => trivial⟩⟩
  obtain ⟨p, hrun, hrow⟩ : ∃ p, runLabels (Pool.step precheckTarget apply) boot
      ([.begin 0 oneMember, .commit 0] : List (PrecheckLabel ℕ)) = some p ∧
      p.store.rows 1 = some { state := .running } := ⟨_, rfl, rfl⟩
  have hrunning : ShowsRunning 1 p.store := ⟨_, hrow, rfl⟩
  exact ⟨p, hrun, hrunning, command_of_running hrun halong hrunning⟩

/-- The line at the beginning is not written: the job stays RUNNING, and no command runs. -/
theorem running_of_failedStart :
    ∃ p : Prechecks ℕ, runLabels (Pool.step precheckTarget apply) boot
        [.begin 0 oneMember, .commit 0, .fail 0 "disk I/O error"] = some p ∧
      ShowsRunning 1 p.store ∧ p.running 0 = none :=
  ⟨_, rfl, ⟨_, rfl, rfl⟩, rfl⟩

end PrecheckJobs
end Runtime
end MigrationStudio
