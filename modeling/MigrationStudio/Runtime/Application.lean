import MigrationStudio.Foundations.LabelledRuns
import MigrationStudio.Migration.Executor

/-!
# The running program

The state of the program as the migration sees it: one clock, the write lane over the database,
the executors by job, the mutation locks by account, and, after a restart, the jobs that
`normalize_after_restart` has still to look at.  A step is a command of the user, a step of one
of the executors, a step of the writer thread, a write of another component, or a crash.

Everything that may come out one way or the other is in the label: which party moves, what the
RPC in flight returns, whether an operation raises, how long nothing happens.  A command that a
handler refuses leaves the state as it is; a label that is not possible is `none`.

A crash takes the executors, the locks and the writer's queue and leaves what is committed.  The
program then runs `normalize_after_restart` before it takes any command.

* `startMigration`, `resumeMigration`: the command handlers, with `new_executor` and
  `_apply_account_server_wait`.
* `normalizeJob`: one turn of the loop of `normalize_after_restart`.
* `App.step`: one step of the program.
-/

namespace MigrationStudio
namespace Runtime

open Foundations MigrationStudio.Core Accounts Jobs Telegram Storage Migration

/-- The program. `log` is what an observer has seen of the executors, oldest first. -/
structure App where
  now : ℕ
  writer : Lane
  executors : JobId → Option Executor
  lock : AccountId → Option JobId
  recovering : List JobId
  recoveryNow : ℕ
  log : List Event

/-- Who moves, and with which outside choice. -/
inductive Label where
  | tick (d : ℕ)
  | start (job : JobId) (account : AccountId) (interval : ℕ)
  | resume (job : JobId) (interval : ℕ)
  | pause (job : JobId)
  | stop (job : JobId)
  | crash
  | normalize
  | foreign (w : LaneWrite) (critical : Bool) (fails : Option String)
  | get
  | timeout
  | execute (job : JobId) (fails : Option String)
  | resumed (job : JobId)
  | advance (job : JobId)
  | answer (job : JobId) (error : Option DomainError)
  | read (job : JobId)
  | delayed (job : JobId) (fails : Option String)
  | delayedDone (job : JobId)

/-- The writes that only the migration submits. -/
def ofMigration : LaneWrite → Bool
  | .job _ _ | .restriction _ => true
  | _ => false

/-- The task that an executor submits for a write. -/
def taskOf (w : LaneWrite) (fails : Option String) : WriteTask where
  write := w
  critical :=
    match w with
    | .job _ jw => jw.critical
    | _ => true
  fails := fails

/-- One turn of the loop of `normalize_after_restart`, with `now` the instant it began. -/
def normalizeJob (now : ℕ) (id : JobId) (db : Database) : Database :=
  match db.jobs[id]? with
  | none => db
  | some job =>
      if job.state = .waitingServer ∧ (job.waitingUntil).any (now < ·) then db
      else if job.state = .running ∨ job.state = .waitingServer then
        db.applyJob id (.setState .paused none
          (some { job.checkpoint with recoveredAfterRestart := true }) false)
      else db

namespace App

/-- What is committed. -/
def db (s : App) : Database := s.writer.database

/-- `_require_enabled_account`. -/
def enabledAccount (s : App) (account : AccountId) : Bool :=
  (s.db.accounts account).any Account.enabled

/-- `_remaining_wait(account_waiting_until(account_id))`. -/
def remainingWait (s : App) (account : AccountId) : ℕ :=
  (s.db.accountWaitingUntil account).getD 0 - s.now

/-- `_apply_account_server_wait`, on the scheduler of a new executor. -/
def accountScheduler (s : App) (account : AccountId) (scheduler : InviteScheduler) :
    InviteScheduler :=
  if 0 < s.remainingWait account then
    scheduler.applyServerWait s.now (s.remainingWait account)
  else scheduler

/-- `new_executor`: the executor of a job, with the action that its checkpoint holds. -/
def newExecutor (s : App) (job : JobId) (account : AccountId) (target : Telegram.GroupContext)
    (scheduler : InviteScheduler) : Executor where
  jobId := job
  accountId := account
  target := target
  action := (s.db.getCheckpoint job).action.getD .invite
  realClock := true
  scheduler := s.accountScheduler account scheduler

/-- `_new_executor` and the submission of its `run`; a bad interval raises. -/
def build (s : App) (job : JobId) (account : AccountId) (target : Telegram.GroupContext)
    (interval : ℕ) : App :=
  match InviteScheduler.new interval with
  | none => s
  | some scheduler =>
      let e := s.newExecutor job account target scheduler
      { s with
        executors := Function.update s.executors job (some e)
        log := s.log ++ [.built job e.action] }

/-- The guards that `start_migration` and `resume_migration` share, on the row of the job and for
an account: the target of the run. -/
def guard (s : App) (id : JobId) (row : Job) (account : AccountId) : Option Telegram.GroupContext :=
  if (s.executors id).isSome || row.jobType ≠ .migration || !s.enabledAccount account then none
  else row.targetGroupId.bind fun group => s.db.peers.getGroup group account

/-- `start_migration`. -/
def startMigration (s : App) (id : JobId) (account : AccountId) (interval : ℕ) : App :=
  match s.db.jobs[id]? with
  | none => s
  | some row =>
      if row.state = .ready ∧ row.accountId = some account then
        match s.guard id row account with
        | some target => s.build id account target interval
        | none => s
      else s

/-- `resume_migration`. -/
def resumeMigration (s : App) (id : JobId) (interval : ℕ) : App :=
  match s.db.jobs[id]? with
  | none => s
  | some row =>
      match row.accountId with
      | none => s
      | some account =>
          if row.state = .paused ∨ row.state = .waitingServer then
            match s.guard id row account with
            | some target => s.build id account target interval
            | none => s
          else s

/-- The mutation lock after the executor of a job has become `e`. -/
def relock (s : App) (job : JobId) (account : AccountId) (e : Option Executor) :
    AccountId → Option JobId :=
  if e.any Executor.holdsLock then Function.update s.lock account (some job)
  else if s.lock account = some job then Function.update s.lock account none
  else s.lock

/-- What an executor of the account reads of the program; all its clocks are the one. -/
def env (s : App) (account : AccountId) : Env where
  now := s.now
  mono := s.now
  utc := s.now
  db := s.db
  lockFree := (s.lock account).isNone
  future := s.writer.submitted.length

/-- The program after a step of the executor `e` of a job; the write that it submits raises when
`fails` says so. -/
def applyOutcome (s : App) (job : JobId) (e : Executor) (out : Outcome)
    (fails : Option String) : App :=
  { s with
    writer :=
      match out.write with
      | some w => s.writer.submit (taskOf w fails)
      | none => s.writer
    executors := Function.update s.executors job out.executor
    lock := s.relock job e.accountId out.executor
    log := s.log ++ out.event.toList }

/-- The executor's part of a label: whose step it is, the move, and whether a write that it
submits raises.  What a future holds comes from the writer. -/
def moveOf (s : App) (e : Executor) : Label → Option (Move × Option String)
  | .execute _ fails => some (.execute, fails)
  | .resumed _ =>
      e.awaiting.bind fun a => (s.writer.future a.future).map fun r => (.resumed r, none)
  | .advance _ => some (.advance, none)
  | .answer _ error => some (.answer error, none)
  | .read _ => some (.read, none)
  | .delayed _ fails => some (.delayed, fails)
  | .delayedDone _ =>
      match e.flushTask with
      | .writing future => (s.writer.future future).map fun r => (.delayedDone r, none)
      | _ => none
  | .pause _ => some (.pause, none)
  | .stop _ => some (.stop, none)
  | _ => none

/-- The executor that a label is about. -/
def jobOf : Label → Option JobId
  | .execute job _ | .resumed job | .advance job | .answer job _ | .read job
  | .delayed job _ | .delayedDone job | .pause job | .stop job => some job
  | _ => none

/-- One step of an executor in the program. -/
def stepExecutor (s : App) (l : Label) : Option App :=
  (jobOf l).bind fun job =>
    (s.executors job).bind fun e =>
      (s.moveOf e l).bind fun m =>
        (e.step (s.env e.accountId) m.1).map fun out => s.applyOutcome job e out m.2

/-- One step of the program. -/
def step (s : App) (l : Label) : Option App :=
  match l with
  | .tick d => some { s with now := s.now + d }
  | .crash =>
      some { s with
        writer := DBWriter.start s.db
        executors := fun _ => none
        lock := fun _ => none
        recovering := s.db.recoverable
        recoveryNow := s.now }
  | .normalize =>
      match s.recovering with
      | [] => none
      | id :: rest =>
          some { s with
            writer := DBWriter.start (normalizeJob s.recoveryNow id s.db)
            recovering := rest }
  | _ =>
      if s.recovering ≠ [] then none
      else
        match l with
        | .start job account interval => some (s.startMigration job account interval)
        | .resume job interval => some (s.resumeMigration job interval)
        | .foreign w critical fails =>
            if ofMigration w then none
            else some { s with writer := s.writer.submit ⟨w, critical, fails⟩ }
        | .get => (s.writer.get lane).map fun w => { s with writer := w }
        | .timeout => (s.writer.timeout lane).map fun w => { s with writer := w }
        | _ => s.stepExecutor l

/-- The program after a start on a database in which nothing is to be recovered. -/
def start (db : Database) (now : ℕ) : App where
  now := now
  writer := DBWriter.start db
  executors := fun _ => none
  lock := fun _ => none
  recovering := []
  recoveryNow := now
  log := []

/-- The RPCs that have been sent, in order. -/
def rpcs (s : App) : List Rpc :=
  s.log.filterMap fun
    | .sent rpc => some rpc
    | _ => none

/-- The executors that have been built, with their actions, in order. -/
def builds (s : App) : List (JobId × Action) :=
  s.log.filterMap fun
    | .built job action => some (job, action)
    | _ => none

theorem mem_builds {s : App} {job : JobId} {action : Action} :
    (job, action) ∈ s.builds ↔ .built job action ∈ s.log := by
  simp only [builds, List.mem_filterMap]
  constructor
  · rintro ⟨event, hevent, heq⟩
    cases event <;> simp at heq
    exact heq.1 ▸ heq.2 ▸ hevent
  · exact fun h => ⟨_, h, rfl⟩

end App

/-! ## A small program -/

/-- One enabled account 1, one channel 1, and members who are the users of their own number, each
with an access hash. -/
def smallDatabase (jobs : List Job) : Database where
  jobs := jobs
  accounts := fun a => if a = 1 then some ⟨true, .ready, .ready, .idle, none⟩ else none
  restrictions := []
  peers :=
    { members := fun m => some m
      peerCache := fun _ n => some ⟨.user, some (n + 100)⟩
      groups := [⟨1, 500, .channel⟩] }
  journal := []

/-- An executor submits a critical write, the writer commits it, the executor goes on. -/
def criticalWrite (job : JobId) : List Label := [.execute job none, .get, .resumed job]

/-- An executor submits a batch of results and waits for the writer's timeout. -/
def resultWrite (job : JobId) : List Label := [.execute job none, .get, .timeout, .resumed job]

/-- `run` up to the candidate loop. -/
def enterLoop (job : JobId) : List Label :=
  [.advance job] ++ criticalWrite job ++ criticalWrite job ++
    [.advance job, .read job, .advance job, .advance job, .advance job]

/-- One turn of the loop up to the RPC. -/
def sendRpc (job : JobId) : List Label := List.replicate 4 (.advance job)

/-- From an RPC that succeeds to the top of the loop, with a flush that is not due. -/
def keepResult (job : JobId) : List Label :=
  [.answer job none, .advance job, .advance job, .execute job none, .advance job]

/-- A pause at the top of the loop, with results to flush, to the end of `run`. -/
def pauseWithResults (job : JobId) : List Label :=
  [.pause job, .advance job] ++ resultWrite job ++ criticalWrite job ++ criticalWrite job ++
    [.advance job]

end Runtime
end MigrationStudio
