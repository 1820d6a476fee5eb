import MigrationStudio.Migration.Executor

/-!
# The transitions of an executor

`Executor.step` unfolds into the finite list of things that an executor can do, and this file
writes the list down once: `Transition env e m out` has one constructor for each, with the guards
under which it happens.  `transition_of_step` is the only proof that looks into the definitions of
`Migration.Executor`; an invariant of the executors is proved by cases on a transition.
-/

namespace MigrationStudio
namespace Migration

open MigrationStudio.Core Accounts Jobs Telegram Storage

/-- The job that an event is about. -/
def Event.job : Event → Option JobId
  | .built job _ | .produced job _ | .completed job _ _ => some job
  | .sent rpc => some rpc.job
  | .flooded _ _ => none

namespace Executor

/-- The statements of the point are done: the coroutine goes on from the point itself. -/
def Settled (e : Executor) : Prop := e.awaiting = none ∧ e.todo = []

/-- What an executor of the state `e` can do. -/
inductive Transition (env : Env) (e : Executor) : Move → Outcome → Prop
  | flushWrite {force : Bool} {todo : List Stmt} (haw : e.awaiting = none)
      (htodo : e.todo = .flush force :: todo) (hdue : e.flushDue env.mono force = true) :
      Transition env e .execute
        { executor := some ({ e with todo := todo, resultBuffer := [] }.await env.future true)
          write := some e.flushWrite }
  | flushSkip {force : Bool} {todo : List Stmt} (haw : e.awaiting = none)
      (htodo : e.todo = .flush force :: todo) (hdue : e.flushDue env.mono force = false) :
      Transition env e .execute { executor := some { e with todo := todo } }
  | write {w : LaneWrite} {todo : List Stmt} (haw : e.awaiting = none)
      (htodo : e.todo = .write w :: todo) :
      Transition env e .execute
        { executor := some ({ e with todo := todo }.await env.future false), write := some w }
  | pauseAccount {todo : List Stmt} (haw : e.awaiting = none)
      (htodo : e.todo = .pauseAccount :: todo) (state : AccountState) :
      Transition env e .execute
        { executor := some ({ e with todo := todo }.await env.future false)
          write := some (.account e.accountId state none) }
  | resumed {a : Await} (haw : e.awaiting = some a) (lastFlush : ℕ) :
      Transition env e (.resumed (.ok ()))
        { executor := some { e with awaiting := none, lastFlush := lastFlush } }
  | raised {a : Await} (haw : e.awaiting = some a) (message : String) :
      Transition env e (.resumed (.error message)) { executor := e.raise message }
  | begin (hset : e.Settled) (hpoint : e.point = .created) :
      Transition env e .advance
        { executor := some { e with
            lastFlush := env.mono
            todo := [e.setJob .running, e.setAccount .busy]
            point := .prime } }
  | primeFill (hset : e.Settled) (hpoint : e.point = .prime) (hqueue : e.buffer.queue = [])
      (hexh : e.buffer.exhausted = false) (hload : e.buffer.loading = none) :
      Transition env e .advance { executor := some { e with buffer := e.buffer.submitFill } }
  | primeReceive {rows : List Database.CandidateRow} (hset : e.Settled)
      (hpoint : e.point = .prime) (hqueue : e.buffer.queue = [])
      (hload : e.buffer.loading = some (.ready rows)) :
      Transition env e .advance { executor := some { e with buffer := e.buffer.receive rows } }
  | primed (hset : e.Settled) (hpoint : e.point = .prime)
      (hload : e.buffer.queue ≠ [] ∨ e.buffer.exhausted = true) :
      Transition env e .advance { executor := some { e with point := .acquire } }
  | acquire (hset : e.Settled) (hpoint : e.point = .acquire) (hfree : env.lockFree = true) :
      Transition env e .advance { executor := some { e with point := .loop } }
  | loopControl (hset : e.Settled) (hpoint : e.point = .loop) (c : Control)
      (hc : e.control = some c) :
      Transition env e .advance
        { executor := some { e with todo := e.handleControl c, point := .leave } }
  | loopPop (hset : e.Settled) (hpoint : e.point = .loop) (hc : e.control = none) :
      Transition env e .advance { executor := some { e with point := .pop } }
  | take {item : BufferedCandidate} {buffer : CandidateBuffer} (hset : e.Settled)
      (hpoint : e.point = .pop) (htake : e.buffer.take = some (item, buffer)) :
      Transition env e .advance
        { executor := some { e with buffer := buffer, point := enter item } }
  | popReceive {rows : List Database.CandidateRow} (hset : e.Settled) (hpoint : e.point = .pop)
      (hqueue : e.buffer.queue = []) (hload : e.buffer.loading = some (.ready rows)) :
      Transition env e .advance { executor := some { e with buffer := e.buffer.receive rows } }
  | popFill (hset : e.Settled) (hpoint : e.point = .pop) (hqueue : e.buffer.queue = [])
      (hload : e.buffer.loading = none) (hexh : e.buffer.exhausted = false) :
      Transition env e .advance { executor := some { e with buffer := e.buffer.submitFill } }
  | popEnd (hset : e.Settled) (hpoint : e.point = .pop) (hqueue : e.buffer.queue = [])
      (hload : e.buffer.loading = none) (hexh : e.buffer.exhausted = true) :
      Transition env e .advance
        { executor := some { e with todo := [.flush true], point := .summary } }
  | sleep {k : SleepFor} {a : Attempt} (hset : e.Settled) (hpoint : e.point = .wait k a) :
      Transition env e .advance
        { executor := some { e with
            point := .sleeping (env.now + e.scheduler.remainingDelay env.now) k a } }
  | interrupt {deadline : ℕ} {k : SleepFor} {a : Attempt} (hset : e.Settled)
      (hpoint : e.point = .sleeping deadline k a) (c : Control) (hc : e.control = some c) :
      Transition env e .advance { executor := some (e.interrupted c) }
  | send {deadline : ℕ} {a : Attempt} (hset : e.Settled)
      (hpoint : e.point = .sleeping deadline .attempt a) (hc : e.control = none)
      (hnow : deadline ≤ env.now) :
      Transition env e .advance
        { executor := some { e with
            scheduler := e.scheduler.markAttempt env.now
            point := .rpc { a with attempts := a.attempts + 1 } }
          event := some (.sent
            { job := e.jobId
              account := e.accountId
              action := e.action
              target := e.target
              ordinal := a.candidate.ordinal
              member := a.candidate.member
              sentAt := env.now }) }
  | waited {deadline : ℕ} {a : Attempt} (hset : e.Settled)
      (hpoint : e.point = .sleeping deadline .serverWait a) (hc : e.control = none)
      (hnow : deadline ≤ env.now) :
      Transition env e .advance
        { executor := some { e with
            todo := [e.setJob .running none none true, e.setAccount .busy]
            point := .wait .attempt a } }
  | retry {deadline : ℕ} {a : Attempt} {error : DomainError} (hset : e.Settled)
      (hpoint : e.point = .sleeping deadline (.transient error) a) (hc : e.control = none)
      (hnow : deadline ≤ env.now) (htr : a.transient < TRANSIENT_RETRY_DELAYS.length) :
      Transition env e .advance { executor := some { e with point := .wait .attempt a } }
  | giveUp {deadline : ℕ} {a : Attempt} {error : DomainError} (hset : e.Settled)
      (hpoint : e.point = .sleeping deadline (.transient error) a) (hc : e.control = none)
      (hnow : deadline ≤ env.now) (htr : TRANSIENT_RETRY_DELAYS.length ≤ a.transient) :
      Transition env e .advance
        { executor := some { e with point := .returned (some (a.update .failed error)) } }
  | succeeded {a : Attempt} (hpoint : e.point = .rpc a) :
      Transition env e (.answer none)
        { executor := some { e with
            scheduler := e.scheduler.markStableCandidate env.now
            point := .returned (some
              { ordinal := a.candidate.ordinal, state := .success, attempts := a.attempts }) } }
  | flooded {a : Attempt} {error : DomainError} (hpoint : e.point = .rpc a)
      (hcode : error.code = .rateLimit) :
      Transition env e (.answer (some error))
        { executor := some { e with
            scheduler := e.scheduler.applyServerWait env.now (waitOf error)
            todo := e.floodScript env.utc a error
            point := .wait .serverWait a }
          event := some (.flooded e.accountId (env.now + waitOf error)) }
  | indefinite {a : Attempt} {error : DomainError} (hpoint : e.point = .rpc a)
      (hcode : error.code = .rateLimitIndefinite) :
      Transition env e (.answer (some error))
        { executor := some { e with
            todo := e.indefiniteScript a error, point := .returned none } }
  | pausing {a : Attempt} {error : DomainError} (hpoint : e.point = .rpc a)
      (hcode : error.code = .permission ∨ error.code = .auth) :
      Transition env e (.answer (some error))
        { executor := some { e with todo := e.pauseScript a error, point := .returned none } }
  | transient {a : Attempt} {error : DomainError} {delay : ℕ} (hpoint : e.point = .rpc a)
      (hcode : transientCode error.code = true)
      (hdelay : TRANSIENT_RETRY_DELAYS[a.transient]? = some delay) :
      Transition env e (.answer (some error))
        { executor := some { e with
            point := .sleeping (env.now + delay) (.transient error)
              { a with transient := a.transient + 1 } } }
  | exhausted {a : Attempt} {error : DomainError} (hpoint : e.point = .rpc a)
      (hcode : transientCode error.code = true)
      (hdelay : TRANSIENT_RETRY_DELAYS[a.transient]? = none) :
      Transition env e (.answer (some error))
        { executor := some { e with point := .returned (some (a.update .failed error)) } }
  | final {a : Attempt} {error : DomainError} (hpoint : e.point = .rpc a)
      (hfinal : (classify (some error)).state.pending = false)
      (hpause : (classify (some error)).pauseJob = false) :
      Transition env e (.answer (some error))
        { executor := some { e with
            scheduler := e.scheduler.markStableCandidate env.now
            point := .returned (some (a.update (classify (some error)).state error)) } }
  | returned {r : Option ItemUpdate} (hset : e.Settled) (hpoint : e.point = .returned r)
      (todo : List Stmt)
      (htodo : todo = [] ∨
        todo = [.write (.restriction (indefiniteRestriction e.accountId e.action))]) :
      Transition env e .advance
        { executor := some { e with todo := todo, point := .attempted r } }
  | stopped (hset : e.Settled) (hpoint : e.point = .attempted none) :
      Transition env e .advance { executor := some { e with point := .leave } }
  | append {u : ItemUpdate} (hset : e.Settled) (hpoint : e.point = .attempted (some u)) :
      Transition env e .advance
        { executor := some { e with
            resultBuffer := e.resultBuffer ++ [u]
            todo := [.flush false]
            point := .flushed }
          event := some (.produced e.jobId u) }
  | flushed (hset : e.Settled) (hpoint : e.point = .flushed) (task : FlushTask) :
      Transition env e .advance
        { executor := some { e with flushTask := task, point := .loop } }
  | leave (hset : e.Settled) (hpoint : e.point = .leave) :
      Transition env e .advance { executor := none }
  | summarize (hset : e.Settled) (hpoint : e.point = .summary) :
      Transition env e .advance
        { executor := some { e with
            todo := [e.setJob (finalState (env.db.summary e.jobId)) none none true,
              e.setAccount .ready]
            point := .publish (env.db.summary e.jobId)
              (finalState (env.db.summary e.jobId)) } }
  | publish {summary : Counters} {final : JobState} (hset : e.Settled)
      (hpoint : e.point = .publish summary final) :
      Transition env e .advance
        { executor := none, event := some (.completed e.jobId summary final) }
  | failed (hset : e.Settled) (hpoint : e.point = .failed) :
      Transition env e .advance { executor := none }
  | read (hload : e.buffer.loading = some .requested) :
      Transition env e .read
        { executor := some { e with
            buffer := { e.buffer with
              loading := some (.ready (env.db.pendingChunk e.jobId e.accountId
                e.buffer.lastLoaded CandidateBuffer.chunkSize)) } } }
  | delayedWrite (hdue : e.resultBuffer ≠ []) :
      Transition env e .delayed
        { executor := some { e with resultBuffer := [], flushTask := .writing env.future }
          write := some e.flushWrite }
  | delayedSkip : Transition env e .delayed { executor := some { e with flushTask := .idle } }
  | delayedDone (result : Except String Unit) (lastFlush : ℕ) :
      Transition env e (.delayedDone result)
        { executor := some { e with flushTask := .idle, lastFlush := lastFlush } }
  | pauseRequested (flag : Bool) :
      Transition env e .pause { executor := some { e with pauseEvent := flag } }
  | stopRequested (flag : Bool) :
      Transition env e .stop { executor := some { e with stopEvent := flag } }

/-! ## The list is complete -/

variable {env : Env} {e : Executor} {out : Outcome}

theorem flushDue_true (e : Executor) (mono : ℕ) :
    e.flushDue mono true = true ↔ e.resultBuffer ≠ [] := by
  simp [flushDue]

theorem transition_of_execute (h : e.execute env = some out) :
    Transition env e .execute out := by
  rw [execute] at h
  split at h
  · rename_i force todo haw htodo
    split at h
    · rename_i hdue
      exact Option.some.inj h ▸ .flushWrite haw htodo hdue
    · rename_i hdue
      exact Option.some.inj h ▸ .flushSkip haw htodo (by simpa using hdue)
  · rename_i w todo haw htodo
    exact Option.some.inj h ▸ .write haw htodo
  · rename_i todo haw htodo
    exact Option.some.inj h ▸ .pauseAccount haw htodo _
  · exact absurd h (by simp)

theorem transition_of_resumed {result : Except String Unit}
    (h : e.resumed env result = some out) : Transition env e (.resumed result) out := by
  obtain ⟨a, haw, rfl⟩ := Option.map_eq_some_iff.mp h
  cases result with
  | ok u => exact .resumed haw _
  | error message => exact .raised haw message

theorem transition_of_delayedWake (h : e.delayedWake env = some out) :
    Transition env e .delayed out := by
  rw [delayedWake] at h
  split at h
  · split_ifs at h with hwake hdue
    · exact Option.some.inj h ▸ .delayedWrite ((flushDue_true e _).mp hdue)
    · exact Option.some.inj h ▸ .delayedSkip
  · exact absurd h (by simp)

theorem transition_of_delayedDone {result : Except String Unit}
    (h : e.delayedDone env result = some out) : Transition env e (.delayedDone result) out := by
  unfold delayedDone at h
  split at h
  · split at h
    · exact Option.some.inj h ▸ .delayedDone _ env.mono
    · exact Option.some.inj h ▸ .delayedDone _ e.lastFlush
  · exact absurd h (by simp)

theorem transition_of_prime (hset : e.Settled) (hpoint : e.point = .prime) {e' : Executor}
    (h : e.advancePrime = some e') : Transition env e .advance { executor := some e' } := by
  rw [advancePrime] at h
  split at h
  · rename_i hcond
    rw [Bool.and_eq_true, List.isEmpty_iff, Bool.not_eq_true'] at hcond
    split at h
    · rename_i hload
      exact Option.some.inj h ▸ .primeFill hset hpoint hcond.1 hcond.2 hload
    · exact absurd h (by simp)
    · rename_i rows hload
      exact Option.some.inj h ▸ .primeReceive hset hpoint hcond.1 hload
  · rename_i hcond
    refine Option.some.inj h ▸ .primed hset hpoint ?_
    by_contra hnot
    rw [not_or, not_not, Bool.not_eq_true] at hnot
    exact hcond (by simp [hnot.1, hnot.2])

theorem take_eq_none {b : CandidateBuffer} (h : b.take = none) : b.queue = [] := by
  rw [CandidateBuffer.take] at h
  split at h
  · assumption
  · exact absurd h (by simp)

theorem transition_of_pop (hset : e.Settled) (hpoint : e.point = .pop) {e' : Executor}
    (h : e.advancePop = some e') : Transition env e .advance { executor := some e' } := by
  rw [advancePop] at h
  split at h
  · rename_i item buffer htake
    exact Option.some.inj h ▸ .take hset hpoint htake
  · rename_i htake
    have hqueue := take_eq_none htake
    split at h
    · exact absurd h (by simp)
    · rename_i rows hload
      exact Option.some.inj h ▸ .popReceive hset hpoint hqueue hload
    · rename_i hload
      split at h
      · rename_i hexh
        exact Option.some.inj h ▸ .popEnd hset hpoint hqueue hload hexh
      · rename_i hexh
        exact Option.some.inj h ▸ .popFill hset hpoint hqueue hload (by simpa using hexh)

theorem transition_of_wake (hset : e.Settled) {deadline : ℕ} {k : SleepFor} {a : Attempt}
    (hpoint : e.point = .sleeping deadline k a) (h : e.wake env.now deadline k a = some out) :
    Transition env e .advance out := by
  rw [wake] at h
  split at h
  · rename_i c hc
    have hcontrol : e.control = some c := by
      split at hc
      · exact hc
      · exact absurd hc (by simp)
    exact Option.some.inj h ▸ .interrupt hset hpoint c hcontrol
  · split_ifs at h with hnow
    split at h
    · rename_i c hc
      exact Option.some.inj h ▸ .interrupt hset hpoint c hc
    · rename_i hc
      obtain rfl := Option.some.inj h
      cases k with
      | attempt => exact .send hset hpoint hc hnow
      | serverWait => exact .waited hset hpoint hc hnow
      | transient error =>
          by_cases htr : TRANSIENT_RETRY_DELAYS.length ≤ a.transient
          · have hpt : Transition env e .advance _ := .giveUp hset hpoint hc hnow htr
            simpa only [proceed, if_pos htr] using hpt
          · have hpt : Transition env e .advance _ := .retry hset hpoint hc hnow (not_le.mp htr)
            simpa only [proceed, if_neg htr] using hpt

theorem transition_of_transient {a : Attempt} {error : DomainError} (hpoint : e.point = .rpc a)
    (hcode : transientCode error.code = true) :
    Transition env e (.answer (some error))
      { executor := some (e.answerAttempt env.now env.utc a (some error)) } := by
  have hbranch : error.code ≠ .rateLimit ∧ error.code ≠ .rateLimitIndefinite ∧
      ¬ (classify (some error)).pauseJob = true ∧
      ((classify (some error)).retry && transientCode error.code) = true := by
    rcases error with ⟨code, message, wait⟩
    cases code <;> first
      | exact ⟨by simp, by simp, by simp [classify], rfl⟩
      | simp [transientCode] at hcode
  obtain ⟨hlimit, hindefinite, hpause, hretry⟩ := hbranch
  rw [answerAttempt, if_neg hlimit, if_neg hindefinite, if_neg hpause, if_pos hretry]
  cases hdelay : TRANSIENT_RETRY_DELAYS[a.transient]? with
  | some delay => exact .transient hpoint hcode hdelay
  | none => exact .exhausted hpoint hcode hdelay

theorem transition_of_answer {error : Option DomainError}
    (h : e.answer env.now env.utc error = some out) : Transition env e (.answer error) out := by
  rw [answer] at h
  split at h
  · rename_i a hpoint
    obtain rfl := Option.some.inj h
    rcases error with _ | ⟨code, message, wait⟩
    · exact .succeeded hpoint
    · cases code with
      | rateLimit => exact .flooded hpoint rfl
      | rateLimitIndefinite => exact .indefinite hpoint rfl
      | permission => exact .pausing hpoint (Or.inl rfl)
      | auth => exact .pausing hpoint (Or.inr rfl)
      | networkTransient | serverTransient => exact transition_of_transient hpoint rfl
      | privacy | alreadyMember | notEligible | invalidUser | unknown =>
          exact @Transition.final env e a ⟨_, message, wait⟩ hpoint rfl rfl
  · exact absurd h (by simp)

theorem transition_of_advance (h : e.advance env = some out) :
    Transition env e .advance out := by
  rw [advance] at h
  split at h
  · exact absurd h (by simp)
  · rename_i hcond
    have hset : e.Settled := by
      rw [Bool.or_eq_true, not_or, Option.isSome_iff_ne_none, not_not, Bool.not_eq_true',
        Bool.not_eq_false, List.isEmpty_iff] at hcond
      exact hcond
    split at h
    · rename_i hpoint
      exact Option.some.inj h ▸ .begin hset hpoint
    · rename_i hpoint
      obtain ⟨e', he', rfl⟩ := Option.map_eq_some_iff.mp h
      exact transition_of_prime hset hpoint he'
    · rename_i hpoint
      split_ifs at h with hfree
      exact Option.some.inj h ▸ .acquire hset hpoint hfree
    · rename_i hpoint
      split at h
      · rename_i c hc
        exact Option.some.inj h ▸ .loopControl hset hpoint c hc
      · rename_i hc
        exact Option.some.inj h ▸ .loopPop hset hpoint hc
    · rename_i hpoint
      obtain ⟨e', he', rfl⟩ := Option.map_eq_some_iff.mp h
      exact transition_of_pop hset hpoint he'
    · rename_i k a hpoint
      exact Option.some.inj h ▸ .sleep hset hpoint
    · rename_i deadline k a hpoint
      exact transition_of_wake hset hpoint h
    · exact absurd h (by simp)
    · rename_i r hpoint
      refine Option.some.inj h ▸ .returned hset hpoint _ ?_
      split
      · exact Or.inr rfl
      · exact Or.inl rfl
    · rename_i hpoint
      exact Option.some.inj h ▸ .stopped hset hpoint
    · rename_i u hpoint
      exact Option.some.inj h ▸ .append hset hpoint
    · rename_i hpoint
      rw [scheduleFlush] at h
      split at h
      · exact Option.some.inj h ▸ .flushed hset hpoint _
      · exact Option.some.inj h ▸ .flushed hset hpoint e.flushTask
    · rename_i hpoint
      exact Option.some.inj h ▸ .leave hset hpoint
    · rename_i hpoint
      exact Option.some.inj h ▸ .summarize hset hpoint
    · rename_i summary final hpoint
      exact Option.some.inj h ▸ .publish hset hpoint
    · rename_i hpoint
      exact Option.some.inj h ▸ .failed hset hpoint

theorem transition_of_read {e' : Executor} (h : e.read env.db = some e') :
    Transition env e .read { executor := some e' } := by
  obtain ⟨b, hb, rfl⟩ := Option.map_eq_some_iff.mp h
  rw [CandidateBuffer.read] at hb
  split at hb
  · rename_i hload
    exact Option.some.inj hb ▸ .read hload
  · exact absurd hb (by simp)

/-- **An executor does nothing else.** -/
theorem transition_of_step {m : Move} (h : e.step env m = some out) :
    Transition env e m out := by
  cases m with
  | execute => exact transition_of_execute h
  | resumed result => exact transition_of_resumed h
  | advance => exact transition_of_advance h
  | answer error => exact transition_of_answer h
  | read =>
      obtain ⟨e', he', rfl⟩ := Option.map_eq_some_iff.mp h
      exact transition_of_read he'
  | delayed => exact transition_of_delayedWake h
  | delayedDone result => exact transition_of_delayedDone h
  | pause =>
      rw [step, requestPause, Option.some.injEq] at h
      split at h
      · exact h ▸ .pauseRequested e.pauseEvent
      · exact h ▸ .pauseRequested true
  | stop =>
      rw [step, requestStop, Option.some.injEq] at h
      split at h
      · exact h ▸ .stopRequested e.stopEvent
      · exact h ▸ .stopRequested true

/-! ## What a transition keeps and shows -/

/-- What an executor was built with stays the same. -/
structure Same (e e' : Executor) : Prop where
  jobId : e'.jobId = e.jobId
  accountId : e'.accountId = e.accountId
  action : e'.action = e.action
  target : e'.target = e.target

theorem Same.raise {e e' : Executor} {message : String} (h : e.raise message = some e') :
    e.Same e' := by
  rw [Executor.raise] at h
  split at h
  · exact absurd h (by simp)
  · exact absurd h (by simp)
  · exact absurd h (by simp)
  · exact Option.some.inj h ▸ ⟨rfl, rfl, rfl, rfl⟩

theorem Transition.same {m : Move} (h : Transition env e m out) {e' : Executor}
    (he' : out.executor = some e') : e.Same e' := by
  cases h with
  | raised haw message => exact .raise he'
  | _ =>
      first
        | exact Option.some.inj he' ▸ ⟨rfl, rfl, rfl, rfl⟩
        | exact absurd he' (by simp)

/-- Without an exception no transition leads to the `except` branch. -/
theorem Transition.alive {m : Move} (h : Transition env e m out)
    (hm : ∀ message, m ≠ .resumed (.error message)) (he : e.point ≠ .failed) :
    ∀ e' ∈ out.executor, e'.point ≠ .failed := by
  intro e' he'
  cases h with
  | raised haw message => exact absurd rfl (hm message)
  | leave | publish | failed => exact absurd he' (by simp)
  | flushWrite | flushSkip | write | pauseAccount | resumed | primeFill | primeReceive
  | popReceive | popFill | read | delayedWrite | delayedSkip | delayedDone | pauseRequested
  | stopRequested =>
      obtain rfl := Option.some.inj he'
      exact he
  | @take item buffer hset hpoint htake =>
      obtain rfl := Option.some.inj he'
      simp only [enter]
      split <;> simp
  | _ =>
      obtain rfl := Option.some.inj he'
      simp [interrupted]

/-- Nothing leads back to the call of `run`. -/
theorem Transition.begun {m : Move} (h : Transition env e m out) (he : e.point ≠ .created) :
    ∀ e' ∈ out.executor, e'.point ≠ .created := by
  intro e' he'
  cases h with
  | raised haw message =>
      rw [Executor.raise] at he'
      split at he'
      · exact absurd he' (by simp)
      · exact absurd he' (by simp)
      · exact absurd he' (by simp)
      · obtain rfl := Option.some.inj he'
        simp
  | leave | publish | failed => exact absurd he' (by simp)
  | flushWrite | flushSkip | write | pauseAccount | resumed | primeFill | primeReceive
  | popReceive | popFill | read | delayedWrite | delayedSkip | delayedDone | pauseRequested
  | stopRequested =>
      obtain rfl := Option.some.inj he'
      exact he
  | @take item buffer hset hpoint htake =>
      obtain rfl := Option.some.inj he'
      simp only [enter]
      split <;> simp
  | _ =>
      obtain rfl := Option.some.inj he'
      simp [interrupted]

/-- Only a request touches the two events. -/
theorem Transition.events {m : Move} (h : Transition env e m out) :
    ∀ e' ∈ out.executor, (m ≠ .stop → e'.stopEvent = e.stopEvent) ∧
      (m ≠ .pause → e'.pauseEvent = e.pauseEvent) := by
  intro e' he'
  cases h with
  | raised haw message =>
      rw [Executor.raise] at he'
      split at he'
      · exact absurd he' (by simp)
      · exact absurd he' (by simp)
      · exact absurd he' (by simp)
      · exact Option.some.inj he' ▸ ⟨fun _ => rfl, fun _ => rfl⟩
  | leave | publish | failed => exact absurd he' (by simp)
  | pauseRequested flag =>
      exact Option.some.inj he' ▸ ⟨fun _ => rfl, fun hm => absurd rfl hm⟩
  | stopRequested flag =>
      exact Option.some.inj he' ▸ ⟨fun hm => absurd rfl hm, fun _ => rfl⟩
  | _ => exact Option.some.inj he' ▸ ⟨fun _ => rfl, fun _ => rfl⟩

/-- A request stays until `request_resume` takes it back. -/
theorem events_of_step {m : Move} (h : e.step env m = some out) :
    ∀ e' ∈ out.executor, (e.stopEvent = true → e'.stopEvent = true) ∧
      (e.pauseEvent = true → e'.pauseEvent = true) := by
  intro e' he'
  obtain ⟨hstop, hpause⟩ := (transition_of_step h).events e' he'
  refine ⟨fun hset => ?_, fun hset => ?_⟩
  · by_cases hm : m = .stop
    · subst hm
      obtain rfl := Option.some.inj h
      obtain rfl := Option.some.inj he'
      rw [requestStop]
      split
      · exact hset
      · rfl
    · exact (hstop hm).trans hset
  · by_cases hm : m = .pause
    · subst hm
      obtain rfl := Option.some.inj h
      obtain rfl := Option.some.inj he'
      rw [requestPause]
      split
      · exact hset
      · rfl
    · exact (hpause hm).trans hset

/-- Without an exception, `run` returns after its last statement only. -/
theorem Transition.ends {m : Move} (h : Transition env e m out)
    (hm : ∀ message, m ≠ .resumed (.error message)) (he : e.point ≠ .failed)
    (hnone : out.executor = none) :
    e.Settled ∧ out.write = none ∧ (e.point = .leave ∨ ∃ summary final,
      e.point = .publish summary final) := by
  cases h with
  | raised haw message => exact absurd rfl (hm message)
  | failed hset hpoint => exact absurd hpoint he
  | leave hset hpoint => exact ⟨hset, rfl, Or.inl hpoint⟩
  | publish hset hpoint => exact ⟨hset, rfl, Or.inr ⟨_, _, hpoint⟩⟩
  | _ => exact absurd hnone (by simp)

/-- An event of an executor is about its job. -/
theorem Transition.event_job {m : Move} (h : Transition env e m out) :
    ∀ event ∈ out.event, ∀ j ∈ event.job, j = e.jobId := by
  intro event hevent j hj
  cases h with
  | send | append | publish =>
      obtain rfl := Option.some.inj hevent
      exact (Option.some.inj hj).symm
  | flooded hpoint hcode =>
      obtain rfl := Option.some.inj hevent
      exact absurd hj (by simp [Event.job])
  | _ => exact absurd hevent (by simp)

/-- An RPC is sent at the end of a sleep, for the candidate in hand. -/
theorem Transition.sent_eq {m : Move} (h : Transition env e m out) {rpc : Rpc}
    (hsent : out.event = some (.sent rpc)) :
    ∃ deadline a, e.point = .sleeping deadline .attempt a ∧ deadline ≤ env.now ∧
      rpc =
        { job := e.jobId
          account := e.accountId
          action := e.action
          target := e.target
          ordinal := a.candidate.ordinal
          member := a.candidate.member
          sentAt := env.now } := by
  cases h with
  | @send deadline a hset hpoint hc hnow =>
      exact ⟨deadline, a, hpoint, hnow, (Event.sent.inj (Option.some.inj hsent)).symm⟩
  | _ => simp at hsent

/-- Right before an RPC is sent, `_control` has found no request. -/
theorem Transition.sent_polled {m : Move} (h : Transition env e m out) {rpc : Rpc}
    (hsent : out.event = some (.sent rpc)) : m = .advance ∧ e.control = none := by
  cases h with
  | send hset hpoint hc hnow => exact ⟨rfl, hc⟩
  | _ => simp at hsent

/-- A result is produced when it goes to the buffer. -/
theorem Transition.produced_eq {m : Move} (h : Transition env e m out) {j : JobId}
    {u : ItemUpdate} (hproduced : out.event = some (.produced j u)) :
    j = e.jobId ∧ e.point = .attempted (some u) ∧
      ∃ e', out.executor = some e' ∧ e'.resultBuffer = e.resultBuffer ++ [u] := by
  cases h with
  | append hset hpoint =>
      obtain ⟨rfl, rfl⟩ := Event.produced.inj (Option.some.inj hproduced)
      exact ⟨rfl, hpoint, _, rfl, rfl⟩
  | _ => simp at hproduced

theorem Transition.completed_point {m : Move} (h : Transition env e m out) {j : JobId}
    {summary : Counters} {final : JobState}
    (hcompleted : out.event = some (.completed j summary final)) :
    e.point = .publish summary final := by
  cases h with
  | publish hset hpoint =>
      obtain ⟨-, rfl, rfl⟩ := Event.completed.inj (Option.some.inj hcompleted)
      exact hpoint
  | _ => simp at hcompleted

/-- Every transition flushes the whole buffer, or keeps it and perhaps adds a result to it; what
it writes without a flush is a statement of the script, or no write of a job. -/
theorem Transition.resultBuffer {m : Move} (h : Transition env e m out) :
    (out.write = some e.flushWrite ∧ out.event = none ∧
        ∃ e', out.executor = some e' ∧ e'.resultBuffer = []) ∨
      ((∀ w ∈ out.write, .write w ∈ e.todo ∨ ∀ id, w.ofJob id = none) ∧
        ∀ e' ∈ out.executor, e'.resultBuffer = e.resultBuffer ∨
          ∃ u, out.event = some (.produced e.jobId u) ∧
            e'.resultBuffer = e.resultBuffer ++ [u]) := by
  have hsame : ∀ {e' : Executor}, e'.resultBuffer = e.resultBuffer →
      ∀ e'' ∈ some e', e''.resultBuffer = e.resultBuffer ∨
        ∃ u, out.event = some (.produced e.jobId u) ∧ e''.resultBuffer = e.resultBuffer ++ [u] :=
    fun heq e'' he'' => Or.inl (Option.some.inj he'' ▸ heq)
  have hnone : ∀ w ∈ (none : Option LaneWrite), Stmt.write w ∈ e.todo ∨ ∀ id, w.ofJob id = none :=
    fun w hw => absurd hw (by simp)
  cases h with
  | flushWrite haw htodo hdue => exact Or.inl ⟨rfl, rfl, _, rfl, rfl⟩
  | delayedWrite hdue => exact Or.inl ⟨rfl, rfl, _, rfl, rfl⟩
  | write haw htodo =>
      refine Or.inr ⟨fun w hw => Or.inl ?_, hsame rfl⟩
      obtain rfl := Option.some.inj hw
      rw [htodo]
      exact List.mem_cons_self ..
  | pauseAccount haw htodo state =>
      refine Or.inr ⟨fun w hw => Or.inr ?_, hsame rfl⟩
      obtain rfl := Option.some.inj hw
      exact fun _ => rfl
  | raised haw message =>
      refine Or.inr ⟨hnone, fun e' he' => Or.inl ?_⟩
      rw [Executor.raise] at he'
      split at he'
      · exact absurd he' (by simp)
      · exact absurd he' (by simp)
      · exact absurd he' (by simp)
      · exact Option.some.inj he' ▸ rfl
  | append hset hpoint =>
      exact Or.inr ⟨hnone, fun e' he' => Or.inr ⟨_, rfl, Option.some.inj he' ▸ rfl⟩⟩
  | leave hset hpoint | publish hset hpoint | failed hset hpoint =>
      exact Or.inr ⟨hnone, fun e' he' => absurd he' (by simp)⟩
  | _ => exact Or.inr ⟨hnone, hsame rfl⟩

end Executor
end Migration
end MigrationStudio
