import MigrationStudio.Migration.CandidateBuffer
import MigrationStudio.Migration.Scheduler

/-!
# `migration/executor.py` and `migration/v12_executor.py`

`MigrationExecutor.run` is a coroutine: between two `await`s nothing else runs on the network
thread, and at an `await` everything else may.  The model cuts it at its awaits.  An executor is
at a `Point` of the code; what it does next there is first to go through `todo`, the statements
that each await one write, and then to `advance`.

* `execute`: the next statement submits its write (`_flush` with nothing to do submits none).
* `resumed`: the future of that write is resolved; an exception goes to the handler of `run`.
* `advance`: the code from one point to the next, with the candidate window, the mutation lock,
  the sleeps and the summary.
* `answer`: the RPC in flight returns, and `_attempt` decides what its outcome means.
* `delayedWake`, `delayedDone`: the background task of `_schedule_flush`.

`Executor.step` puts them together.  What a step reads of the program around it is an `Env`; the
clock of the scheduler is its `now`, the monotonic clock of `_flush` its `mono` and the wall clock
of `_utc_wait_until` its `utc`.  Progress events that only the user interface reads are left out.
-/

namespace MigrationStudio
namespace Migration

open MigrationStudio.Core Accounts Jobs Telegram Storage

/-- What `_control` returns. -/
inductive Control where
  | stop | pause
  deriving DecidableEq

/-- A statement that awaits one write.  `pauseAccount` is the `_set_account` of the pause branch,
whose state is computed when it runs. -/
inductive Stmt where
  | flush (force : Bool)
  | write (w : LaneWrite)
  | pauseAccount

/-- The local variables of `_attempt`. -/
structure Attempt where
  candidate : BufferedCandidate
  attempts : ℕ
  transient : ℕ
  deriving DecidableEq

/-- The update of an attempt that ended with an error. -/
def Attempt.update (a : Attempt) (state : MigrationItemState) (error : DomainError) :
    ItemUpdate where
  ordinal := a.candidate.ordinal
  state := state
  attempts := a.attempts
  errorCode := some error.code
  errorText := some error.message

/-- Which `_sleep` of `_attempt`. -/
inductive SleepFor where
  | attempt
  | serverWait
  | transient (error : DomainError)
  deriving DecidableEq

/-- Where the coroutine stands when `todo` is done: `wait` and `sleeping` are the `_sleep`s,
`returned` is the end of the base class's `_attempt` and `attempted` that of the override, `flushed`
follows the `_flush` of the main loop, `leave` the `break` of an interrupted run, `summary` the
forced flush of the natural end, and `failed` is the `except` branch. -/
inductive Point where
  | created
  | prime
  | acquire
  | loop
  | pop
  | wait (k : SleepFor) (a : Attempt)
  | sleeping (deadline : ℕ) (k : SleepFor) (a : Attempt)
  | rpc (a : Attempt)
  | returned (r : Option ItemUpdate)
  | attempted (r : Option ItemUpdate)
  | flushed
  | leave
  | summary
  | publish (summary : Counters) (final : JobState)
  | failed
  deriving DecidableEq

/-- The coroutine of `_schedule_flush`. -/
inductive FlushTask where
  | idle
  | sleeping (wakeAt : ℕ)
  | writing (future : ℕ)
  deriving DecidableEq

/-- The future that the main coroutine awaits, and whether `_flush` awaits it. -/
structure Await where
  future : ℕ
  flush : Bool
  deriving DecidableEq

/-- `V12MigrationExecutor` with the arguments of its `run`. -/
structure Executor where
  jobId : JobId
  accountId : AccountId
  target : GroupContext
  action : Action
  realClock : Bool
  scheduler : InviteScheduler
  buffer : CandidateBuffer := {}
  resultBuffer : List ItemUpdate := []
  lastFlush : ℕ := 0
  flushTask : FlushTask := .idle
  stopEvent : Bool := false
  pauseEvent : Bool := false
  todo : List Stmt := []
  awaiting : Option Await := none
  point : Point := .created

/-- A mutation RPC as it is sent: `invite_user` or `remove_user` on the target with one member. -/
structure Rpc where
  job : JobId
  account : AccountId
  action : Action
  target : GroupContext
  ordinal : ℕ
  member : Member
  sentAt : ℕ
  deriving DecidableEq

/-- What an observer of the executors sees. -/
inductive Event where
  | built (job : JobId) (action : Action)
  | sent (rpc : Rpc)
  | flooded (account : AccountId) (waitUntil : ℕ)
  | produced (job : JobId) (update : ItemUpdate)
  | completed (job : JobId) (summary : Counters) (final : JobState)
  deriving DecidableEq

/-- What a step reads of the program around it: the three clock readings, the committed database,
whether nobody holds the account's mutation lock, and the future that the writer would give to the
next submission. -/
structure Env where
  now : ℕ
  mono : ℕ
  utc : ℕ
  db : Database
  lockFree : Bool
  future : ℕ

/-- What a step leaves: the executor, unless `run` is over, the write that it submits, and what an
observer sees. -/
structure Outcome where
  executor : Option Executor
  write : Option LaneWrite := none
  event : Option Event := none

/-- Which part of an executor moves, with what it is told. -/
inductive Move where
  | execute
  | resumed (result : Except String Unit)
  | advance
  | answer (error : Option DomainError)
  | read
  | delayed
  | delayedDone (result : Except String Unit)
  | pause
  | stop

namespace Executor

/-! ## Commands and control -/

/-- `request_stop`; the event does not exist before `run`. -/
def requestStop (e : Executor) : Executor :=
  if e.point = .created then e else { e with stopEvent := true }

/-- `request_pause`. -/
def requestPause (e : Executor) : Executor :=
  if e.point = .created then e else { e with pauseEvent := true }

/-- `request_resume`; nothing in the program calls it. -/
def requestResume (e : Executor) : Executor :=
  if e.point = .created then e else { e with pauseEvent := false }

/-- `_control`. -/
def control (e : Executor) : Option Control :=
  if e.stopEvent then some .stop else if e.pauseEvent then some .pause else none

/-- `_set_job`. -/
def setJob (e : Executor) (state : JobState) (waitingUntil : Option ℕ := none)
    (checkpoint : Option Checkpoint := none) (clearWaiting : Bool := false) : Stmt :=
  .write (.job e.jobId (.setState state waitingUntil checkpoint clearWaiting))

/-- `_set_account`. -/
def setAccount (e : Executor) (state : AccountState) (error : Option String := none) : Stmt :=
  .write (.account e.accountId state error)

/-- `_handle_control`. -/
def handleControl (e : Executor) : Control → List Stmt
  | .stop => [.flush true, e.setJob .cancelled none none true, e.setAccount .ready]
  | .pause => [.flush true, e.setJob .paused, .pauseAccount]

/-! ## Writes -/

/-- `{'last_ordinal': k}`. -/
def lastOrdinal (k : ℤ) : Checkpoint := { lastOrdinal := some k }

/-- Whether `_flush` writes. -/
def flushDue (e : Executor) (mono : ℕ) (force : Bool) : Bool :=
  !e.resultBuffer.isEmpty &&
    (force || MIGRATION_DB_BATCH_SIZE ≤ e.resultBuffer.length ||
      MIGRATION_DB_MAX_FLUSH ≤ mono - e.lastFlush)

/-- The write of `_flush`: the whole buffer, with the ordinal of its last update. -/
def flushWrite (e : Executor) : LaneWrite :=
  .job e.jobId (.updateItems e.resultBuffer
    ((e.resultBuffer.getLast?).map fun u => lastOrdinal u.ordinal))

/-- The main coroutine awaits the future of its write. -/
def await (e : Executor) (future : ℕ) (flush : Bool) : Executor :=
  { e with awaiting := some ⟨future, flush⟩ }

/-- The next statement, with the write that it awaits, if any. -/
def execute (e : Executor) (env : Env) : Option Outcome :=
  match e.awaiting, e.todo with
  | none, .flush force :: todo =>
      if e.flushDue env.mono force then
        some
          { executor := some ({ e with todo := todo, resultBuffer := [] }.await env.future true)
            write := some e.flushWrite }
      else some { executor := some { e with todo := todo } }
  | none, .write w :: todo =>
      some
        { executor := some ({ e with todo := todo }.await env.future false)
          write := some w }
  | none, .pauseAccount :: todo =>
      some
        { executor := some ({ e with todo := todo }.await env.future false)
          write := some (.account e.accountId
            (if 0 < e.scheduler.serverWaitRemaining env.now then .waitingServer else .ready)
            none) }
  | _, _ => none

/-- The `except` branch of `run`.  The code before `try` and the branch itself have no handler. -/
def raise (e : Executor) (message : String) : Option Executor :=
  match e.point with
  | .created | .prime | .failed => none
  | _ =>
      some { e with
        awaiting := none
        todo := [.flush true, e.setJob .failed none none true,
          e.setAccount .error (some message)]
        point := .failed }

/-- The awaited future is resolved. -/
def resumed (e : Executor) (env : Env) (result : Except String Unit) : Option Outcome :=
  e.awaiting.map fun a =>
    match result with
    | .ok () =>
        { executor := some { e with
            awaiting := none
            lastFlush := if a.flush then env.mono else e.lastFlush } }
    | .error message => { executor := e.raise message }

/-! ## The background flush -/

/-- `_schedule_flush`. -/
def scheduleFlush (e : Executor) (mono : ℕ) : Executor :=
  if e.realClock && e.flushTask = .idle then
    { e with flushTask := .sleeping (mono + MIGRATION_DB_MAX_FLUSH) }
  else e

/-- `delayed` wakes up and runs `_flush(job_id, True)`. -/
def delayedWake (e : Executor) (env : Env) : Option Outcome :=
  match e.flushTask with
  | .sleeping wakeAt =>
      if wakeAt ≤ env.mono then
        if e.flushDue env.mono true then
          some
            { executor := some
                { e with resultBuffer := [], flushTask := .writing env.future }
              write := some e.flushWrite }
        else some { executor := some { e with flushTask := .idle } }
      else none
  | _ => none

/-- The future of its write is resolved; nobody awaits the task, so an exception is lost. -/
def delayedDone (e : Executor) (env : Env) (result : Except String Unit) : Option Outcome :=
  match e.flushTask with
  | .writing _ =>
      match result with
      | .ok () => some { executor := some { e with flushTask := .idle, lastFlush := env.mono } }
      | .error _ => some { executor := some { e with flushTask := .idle } }
  | _ => none

/-! ## `_attempt` -/

/-- `_attempt` up to its loop. -/
def enter (item : BufferedCandidate) : Point :=
  if item.member.telegramUserId.isNone || item.member.accessHash.isNone then
    .returned (some
      { ordinal := item.ordinal
        state := .failed
        attempts := item.persistedAttempts
        errorCode := some .invalidUser
        errorText := some "Candidate lacks user id/access hash" })
  else .wait .attempt ⟨item, item.persistedAttempts, 0⟩

/-- What follows a `_sleep` that no control interrupts. -/
def proceed (e : Executor) (now : ℕ) (a : Attempt) : SleepFor → Outcome
  | .attempt =>
      { executor := some { e with
          scheduler := e.scheduler.markAttempt now
          point := .rpc { a with attempts := a.attempts + 1 } }
        event := some (.sent
          { job := e.jobId
            account := e.accountId
            action := e.action
            target := e.target
            ordinal := a.candidate.ordinal
            member := a.candidate.member
            sentAt := now }) }
  | .serverWait =>
      { executor := some { e with
          todo := [e.setJob .running none none true, e.setAccount .busy]
          point := .wait .attempt a } }
  | .transient error =>
      { executor := some { e with
          point :=
            if TRANSIENT_RETRY_DELAYS.length ≤ a.transient then
              .returned (some (a.update .failed error))
            else .wait .attempt a } }

/-- `_sleep` returns a control, and `_handle_control` handles it. -/
def interrupted (e : Executor) (c : Control) : Executor :=
  { e with todo := e.handleControl c, point := .returned none }

/-- `_sleep` wakes up.  On the real clock it polls `_control` before the deadline too. -/
def wake (e : Executor) (now deadline : ℕ) (k : SleepFor) (a : Attempt) : Option Outcome :=
  match if e.realClock then e.control else none with
  | some c => some { executor := some (e.interrupted c) }
  | none =>
      if deadline ≤ now then
        match e.control with
        | some c => some { executor := some (e.interrupted c) }
        | none => some (e.proceed now a k)
      else none

/-- `int(error.wait_seconds or 0)`. -/
def waitOf (error : DomainError) : ℕ := error.waitSeconds.getD 0 * second

/-- The statements after a FLOOD_WAIT. -/
def floodScript (e : Executor) (utc : ℕ) (a : Attempt) (error : DomainError) : List Stmt :=
  [.flush true,
    .write (.job e.jobId (.markRetry a.candidate.ordinal a.attempts (some error.code)
      (some error.message) (some (utc + waitOf error)))),
    e.setAccount .waitingServer (some error.message),
    e.setJob .waitingServer (some (utc + waitOf error))
      (some (lastOrdinal ((a.candidate.ordinal : ℤ) - 1))),
    .write (.job e.jobId (.event "WARN" "FLOOD_WAIT"
      ("WAIT " ++ toString (error.waitSeconds.getD 0) ++ "s; retry same candidate")
      a.candidate.member.telegramUserId))]

/-- The statements after a rate limit without a duration. -/
def indefiniteScript (e : Executor) (a : Attempt) (error : DomainError) : List Stmt :=
  [.flush true,
    .write (.job e.jobId (.markRetry a.candidate.ordinal a.attempts (some error.code)
      (some error.message) none)),
    e.setJob .rateLimited none (some (lastOrdinal ((a.candidate.ordinal : ℤ) - 1))),
    e.setAccount .error (some "Telegram rate limit has no resume time"),
    .write (.job e.jobId (.event "WARN" "RATE_LIMIT_INDEFINITE"
      "Telegram did not provide a resume duration. Job paused safely."
      a.candidate.member.telegramUserId))]

/-- The statements after an error that pauses the job. -/
def pauseScript (e : Executor) (a : Attempt) (error : DomainError) : List Stmt :=
  [.flush true,
    .write (.job e.jobId (.markRetry a.candidate.ordinal a.attempts (some error.code)
      (some error.message) none)),
    e.setJob .paused none (some (lastOrdinal ((a.candidate.ordinal : ℤ) - 1))),
    e.setAccount (if error.code = .auth then .authRequired else .error) (some error.message)]

/-- The outcome of the RPC in flight. -/
def answerAttempt (e : Executor) (now utc : ℕ) (a : Attempt) : Option DomainError → Executor
  | none =>
      { e with
        scheduler := e.scheduler.markStableCandidate now
        point := .returned (some
          { ordinal := a.candidate.ordinal, state := .success, attempts := a.attempts }) }
  | some error =>
      if error.code = .rateLimit then
        { e with
          scheduler := e.scheduler.applyServerWait now (waitOf error)
          todo := e.floodScript utc a error
          point := .wait .serverWait a }
      else if error.code = .rateLimitIndefinite then
        { e with todo := e.indefiniteScript a error, point := .returned none }
      else if (classify (some error)).pauseJob then
        { e with todo := e.pauseScript a error, point := .returned none }
      else if (classify (some error)).retry && transientCode error.code then
        { e with
          point :=
            match TRANSIENT_RETRY_DELAYS[a.transient]? with
            | some delay =>
                .sleeping (now + delay) (.transient error)
                  { a with transient := a.transient + 1 }
            | none => .returned (some (a.update .failed error)) }
      else
        { e with
          scheduler := e.scheduler.markStableCandidate now
          point := .returned (some (a.update (classify (some error)).state error)) }

/-- `_rpc` returns or raises. -/
def answer (e : Executor) (now utc : ℕ) (error : Option DomainError) : Option Outcome :=
  match e.point with
  | .rpc a =>
      some
        { executor := some (e.answerAttempt now utc a error)
          event := error.bind fun error =>
            if error.code = .rateLimit then
              some (.flooded e.accountId (now + waitOf error))
            else none }
  | _ => none

/-! ## `run` -/

/-- The points inside `async with self.governor.mutation_lock(account_id)`. -/
def holdsLock (e : Executor) : Bool :=
  match e.point with
  | .created | .prime | .acquire | .summary | .publish _ _ | .failed => false
  | _ => true

/-- `buffer.prime()`. -/
def advancePrime (e : Executor) : Option Executor :=
  if e.buffer.queue.isEmpty && !e.buffer.exhausted then
    match e.buffer.loading with
    | none => some { e with buffer := e.buffer.submitFill }
    | some .requested => none
    | some (.ready rows) => some { e with buffer := e.buffer.receive rows }
  else some { e with point := .acquire }

/-- `buffer.pop()` and what follows it: `_attempt`, or the end of the loop. -/
def advancePop (e : Executor) : Option Executor :=
  match e.buffer.take with
  | some (item, buffer) => some { e with buffer := buffer, point := enter item }
  | none =>
      match e.buffer.loading with
      | some .requested => none
      | some (.ready rows) => some { e with buffer := e.buffer.receive rows }
      | none =>
          if e.buffer.exhausted then some { e with todo := [.flush true], point := .summary }
          else some { e with buffer := e.buffer.submitFill }

/-- `final`. -/
def finalState (summary : Counters) : JobState :=
  if summary.failed = 0 then .completed else .completedWithErrors

/-- From one point to the next, once the statements are done. -/
def advance (e : Executor) (env : Env) : Option Outcome :=
  if e.awaiting.isSome || !e.todo.isEmpty then none
  else
    match e.point with
    | .created =>
        some { executor := some { e with
          lastFlush := env.mono
          todo := [e.setJob .running, e.setAccount .busy]
          point := .prime } }
    | .prime => (e.advancePrime).map fun e => { executor := some e }
    | .acquire =>
        if env.lockFree then some { executor := some { e with point := .loop } } else none
    | .loop =>
        match e.control with
        | some c =>
            some { executor := some { e with todo := e.handleControl c, point := .leave } }
        | none => some { executor := some { e with point := .pop } }
    | .pop => (e.advancePop).map fun e => { executor := some e }
    | .wait k a =>
        some { executor := some { e with
          point := .sleeping (env.now + e.scheduler.remainingDelay env.now) k a } }
    | .sleeping deadline k a => e.wake env.now deadline k a
    | .rpc _ => none
    | .returned r =>
        some { executor := some { e with
          todo :=
            if (env.db.jobs[e.jobId]?).any fun job => job.state = .rateLimited then
              [.write (.restriction (indefiniteRestriction e.accountId e.action))]
            else []
          point := .attempted r } }
    | .attempted none => some { executor := some { e with point := .leave } }
    | .attempted (some u) =>
        some
          { executor := some { e with
              resultBuffer := e.resultBuffer ++ [u]
              todo := [.flush false]
              point := .flushed }
            event := some (.produced e.jobId u) }
    | .flushed => some { executor := some { e.scheduleFlush env.mono with point := .loop } }
    | .leave => some { executor := none }
    | .summary =>
        some { executor := some { e with
          todo := [e.setJob (finalState (env.db.summary e.jobId)) none none true,
            e.setAccount .ready]
          point := .publish (env.db.summary e.jobId) (finalState (env.db.summary e.jobId)) } }
    | .publish summary final =>
        some { executor := none, event := some (.completed e.jobId summary final) }
    | .failed => some { executor := none }

/-- The worker's read of the candidate window. -/
def read (e : Executor) (db : Database) : Option Executor :=
  (e.buffer.read db e.jobId e.accountId).map fun buffer => { e with buffer := buffer }

/-- One step of an executor. -/
def step (e : Executor) (env : Env) : Move → Option Outcome
  | .execute => e.execute env
  | .resumed result => e.resumed env result
  | .advance => e.advance env
  | .answer error => e.answer env.now env.utc error
  | .read => (e.read env.db).map fun e => { executor := some e }
  | .delayed => e.delayedWake env
  | .delayedDone result => e.delayedDone env result
  | .pause => some { executor := some e.requestPause }
  | .stop => some { executor := some e.requestStop }

end Executor

end Migration
end MigrationStudio
