import MigrationStudio.Migration.Progress

/-!
# The state in which a run will leave its job

Once an executor has left the loop over its candidates, the state of the job is settled: it is in
one of the statements that are still to be executed, or it has been written.  `Executor.outlook`
reads it off, and no transition of an executor that has left the loop changes it.

* `Transition.keeps`: what the transitions that leave the point do.
* `Point.closing`: the points after the loop with their last statements.
* `Transition.outlook`: a transition that leaves the point leaves the outlook.
* `Transition.closing`: so does every transition at a closing point.
* `Transition.halted`: what an outcome that pauses the job does.
* `Transition.closes`: the ways into a closing point, with the outlook that each of them gives.
-/

namespace MigrationStudio
namespace Migration

open MigrationStudio.Core Accounts Jobs Telegram Storage

/-- The state that a write gives the job. -/
def stateOf : JobWrite → Option JobState
  | .setState state _ _ _ => some state
  | _ => none

theorem state_apply (job : Job) (w : JobWrite) :
    (job.apply w).state = (stateOf w).getD job.state := by
  cases w <;> rfl

/-- The state after several writes is that of the last one which gives one. -/
theorem state_foldl (job : Job) (ws : List JobWrite) :
    (ws.foldl Job.apply job).state = ((ws.filterMap stateOf).getLast?).getD job.state := by
  induction ws using List.reverseRecOn with
  | nil => rfl
  | append_singleton ws w ih =>
      rw [List.foldl_append, List.foldl_cons, List.foldl_nil, state_apply, List.filterMap_append,
        List.getLast?_append, ih]
      cases h : stateOf w <;> simp [h]

/-- The write of the job `id` that a statement submits; a flush submits the buffer. -/
def Stmt.jobWrite (id : JobId) : Stmt → Option JobWrite
  | .write w => w.ofJob id
  | _ => none

/-- The state that a statement gives the job `id`. -/
def Stmt.stateOf (id : JobId) : Stmt → Option JobState
  | .write w => (w.ofJob id).bind Migration.stateOf
  | _ => none

theorem Stmt.stateOf_job (id : JobId) (w : JobWrite) :
    Stmt.stateOf id (.write (.job id w)) = Migration.stateOf w := by
  rw [Stmt.stateOf, LaneWrite.ofJob, if_pos rfl, Option.bind_some]

@[simp] theorem Stmt.stateOf_setJob (e : Executor) (state : JobState) (wait : Option ℕ)
    (c : Option Checkpoint) (clear : Bool) :
    Stmt.stateOf e.jobId (e.setJob state wait c clear) = some state :=
  Stmt.stateOf_job _ _

@[simp] theorem Stmt.stateOf_setAccount (id : JobId) (e : Executor) (state : AccountState)
    (error : Option String) : Stmt.stateOf id (e.setAccount state error) = none := rfl

@[simp] theorem Stmt.stateOf_flush (id : JobId) (force : Bool) :
    Stmt.stateOf id (.flush force) = none := rfl

@[simp] theorem Stmt.stateOf_pauseAccount (id : JobId) : Stmt.stateOf id .pauseAccount = none := rfl

@[simp] theorem Stmt.stateOf_markRetry (id : JobId) (o n : ℕ) (code : Option InviteResultCode)
    (text : Option String) (nextAt : Option ℕ) :
    Stmt.stateOf id (.write (.job id (.markRetry o n code text nextAt))) = none :=
  Stmt.stateOf_job _ _

@[simp] theorem Stmt.stateOf_event (id : JobId) (level code message : String)
    (member : Option ℤ) :
    Stmt.stateOf id (.write (.job id (.event level code message member))) = none :=
  Stmt.stateOf_job _ _

/-- The points after the loop at which the last statements of the run are executed. -/
def Point.closing : Point → Bool
  | .returned none | .attempted none | .leave | .publish _ _ => true
  | _ => false

/-- A run that has left the loop has nothing in the buffer, once the last flush is done. -/
theorem Point.Ends.of_closing {p : Point} {buf rest : List ℕ} (h : p.Ends buf rest)
    (hp : p.closing = true) : buf = [] := by
  cases p with
  | returned r | attempted r => cases r with
    | none => exact h
    | some u => exact absurd hp (by simp [closing])
  | leave => exact h
  | publish summary final => exact h.1
  | _ => exact absurd hp (by simp [closing])

/-- The state in which `_handle_control` leaves the job. -/
def Control.state : Control → JobState
  | .stop => .cancelled
  | .pause => .paused

namespace Executor

variable {env : Env} {e : Executor} {m : Move} {out : Outcome}

/-- The states that the remaining statements give the job, in order. -/
def states (e : Executor) : List JobState := e.todo.filterMap (Stmt.stateOf e.jobId)

/-- The state of the job after the remaining statements, when it is `state` now. -/
def outlook (e : Executor) (state : JobState) : JobState := (e.states.getLast?).getD state

theorem outlook_of_settled (h : e.Settled) (state : JobState) : e.outlook state = state := by
  rw [outlook, states, h.2]
  rfl

/-- A move that is no `advance`, no `answer` and no exception. -/
def Keeping (m : Move) : Prop :=
  m ≠ .advance ∧ (∀ error, m ≠ .answer error) ∧ ∀ message, m ≠ .resumed (.error message)

/-- The writes of the job among the remaining statements, in order. -/
def jobStmts (e : Executor) : List JobWrite := e.todo.filterMap (Stmt.jobWrite e.jobId)

theorem states_eq (e : Executor) : e.states = e.jobStmts.filterMap stateOf := by
  rw [states, jobStmts, List.filterMap_filterMap]
  refine List.filterMap_congr fun st _ => ?_
  cases st <;> rfl

/-- **What a keeping transition does.**  It flushes the buffer, or what it submits it takes from the
statements; and it reads the next candidates, or leaves the window. -/
theorem Transition.keeps (h : Transition env e m out) (hm : Keeping m) :
    ∃ e', out.executor = some e' ∧ e'.point = e.point ∧ e'.jobId = e.jobId ∧
      ((∃ c, out.jobWrites e.jobId = [.updateItems e.resultBuffer c] ∧ e'.resultBuffer = [] ∧
          e'.jobStmts = e.jobStmts) ∨
        (e'.resultBuffer = e.resultBuffer ∧
          e.jobStmts = out.jobWrites e.jobId ++ e'.jobStmts)) ∧
      (e'.buffer = e.buffer ∨
        (m = .read ∧ e'.buffer = { e.buffer with
          loading := some (.ready (env.db.pendingChunk e.jobId e.accountId e.buffer.lastLoaded
            CandidateBuffer.chunkSize)) })) := by
  obtain ⟨hadvance, hanswer, hraise⟩ := hm
  have hflush : out.write = some e.flushWrite →
      ∃ c, out.jobWrites e.jobId = [.updateItems e.resultBuffer c] := jobWrites_flush rfl
  cases h with
  | flushWrite haw htodo hdue =>
      obtain ⟨c, hc⟩ := hflush rfl
      refine ⟨_, rfl, rfl, rfl, Or.inl ⟨c, hc, rfl, ?_⟩, Or.inl rfl⟩
      rw [jobStmts, jobStmts, htodo]
      rfl
  | delayedWrite hdue =>
      obtain ⟨c, hc⟩ := hflush rfl
      exact ⟨_, rfl, rfl, rfl, Or.inl ⟨c, hc, rfl, rfl⟩, Or.inl rfl⟩
  | flushSkip haw htodo hdue | pauseAccount haw htodo =>
      refine ⟨_, rfl, rfl, rfl, Or.inr ⟨rfl, ?_⟩, Or.inl rfl⟩
      rw [jobStmts, htodo]
      rfl
  | @write w todo haw htodo =>
      refine ⟨_, rfl, rfl, rfl, Or.inr ⟨rfl, ?_⟩, Or.inl rfl⟩
      rw [jobStmts, htodo, Outcome.jobWrites, Option.bind_some, List.filterMap_cons, Stmt.jobWrite]
      cases w.ofJob e.jobId <;> rfl
  | raised haw message => exact absurd rfl (hraise message)
  | read hload => exact ⟨_, rfl, rfl, rfl, Or.inr ⟨rfl, rfl⟩, Or.inr ⟨rfl, rfl⟩⟩
  | resumed | delayedSkip | delayedDone | pauseRequested | stopRequested =>
      exact ⟨_, rfl, rfl, rfl, Or.inr ⟨rfl, rfl⟩, Or.inl rfl⟩
  | succeeded | flooded | indefinite | pausing | transient | exhausted | final =>
      exact absurd rfl (hanswer _)
  | _ => exact absurd rfl hadvance

/-- The states that a keeping transition submits are the first ones of the statements. -/
theorem Transition.states (h : Transition env e m out) (hm : Keeping m) :
    ∃ e', out.executor = some e' ∧ e'.point = e.point ∧ e'.jobId = e.jobId ∧
      e.states = (out.jobWrites e.jobId).filterMap stateOf ++ e'.states := by
  obtain ⟨e', he', hpoint, hid, hwrites, -⟩ := h.keeps hm
  refine ⟨e', he', hpoint, hid, ?_⟩
  rw [states_eq, states_eq]
  rcases hwrites with ⟨c, hw, -, hstmts⟩ | ⟨-, hsplit⟩
  · rw [hw, hstmts]
    rfl
  · rw [hsplit, List.filterMap_append]

/-- **A keeping transition** leaves the point and the outlook. -/
theorem Transition.outlook (h : Transition env e m out) (hm : Keeping m) (job : Job) :
    ∃ e', out.executor = some e' ∧ e'.point = e.point ∧
      e'.outlook ((out.jobWrites e.jobId).foldl Job.apply job).state = e.outlook job.state := by
  obtain ⟨e', he', hpoint, -, hstates⟩ := h.states hm
  refine ⟨e', he', hpoint, ?_⟩
  rw [Executor.outlook, Executor.outlook, hstates, state_foldl, List.getLast?_append]
  cases e'.states.getLast? <;> simp

/-- A transition that is not keeping submits nothing, and finds no statement. -/
theorem Transition.settled_of_not_keeping (h : Transition env e m out) (hm : ¬ Keeping m)
    (hraise : ∀ message, m ≠ .resumed (.error message))
    (hrpc : ∀ a, e.point = .rpc a → e.Settled) : e.Settled ∧ out.write = none := by
  cases h with
  | raised haw message => exact absurd rfl (hraise message)
  | flushWrite | flushSkip | write | pauseAccount | resumed | read | delayedWrite | delayedSkip
  | delayedDone | pauseRequested | stopRequested =>
      exact absurd ⟨by simp, by simp, by simp⟩ hm
  | succeeded hpoint | flooded hpoint | indefinite hpoint | pausing hpoint | transient hpoint
  | exhausted hpoint | final hpoint => exact ⟨hrpc _ hpoint, rfl⟩
  | begin hset | primeFill hset | primeReceive hset | primed hset | acquire hset
  | loopControl hset | loopPop hset | take hset | popReceive hset | popFill hset | popEnd hset
  | sleep hset | interrupt hset | send hset | waited hset | retry hset | giveUp hset
  | returned hset | stopped hset | append hset | flushed hset | leave hset | summarize hset
  | publish hset | failed hset => exact ⟨hset, rfl⟩

/-! ## At the closing points -/

/-- **A transition at a closing point** leaves the outlook, or it is the end of the run; what is no
keeping transition leads to another closing point, and has nothing to flush there. -/
theorem Transition.closing (h : Transition env e m out)
    (hraise : ∀ message, m ≠ .resumed (.error message)) (hclosing : e.point.closing = true)
    (job : Job) :
    (∃ e', out.executor = some e' ∧ e'.point.closing = true ∧
      e'.outlook ((out.jobWrites e.jobId).foldl Job.apply job).state = e.outlook job.state ∧
      (Keeping m ∨ (e.Settled ∧ out.write = none ∧ e'.awaiting = none ∧
        ∀ force, .flush force ∉ e'.todo))) ∨
      (out.executor = none ∧ out.write = none ∧ e.Settled) := by
  have hnever : ∀ {p : Point}, e.point = p → p.closing = false → False := by
    rintro p rfl hp
    exact Bool.noConfusion (hclosing.symm.trans hp)
  by_cases hm : Keeping m
  · obtain ⟨e', he', hpoint, hout⟩ := h.outlook hm job
    exact Or.inl ⟨e', he', hpoint ▸ hclosing, hout, Or.inl hm⟩
  · have hset := h.settled_of_not_keeping hm hraise fun a ha => (hnever ha rfl).elim
    cases h with
    | raised haw message => exact absurd rfl (hraise message)
    | leave | publish => exact Or.inr ⟨rfl, rfl, hset.1⟩
    | failed hset' hpoint => exact (hnever hpoint rfl).elim
    | @returned r hset' hpoint todo htodo =>
        cases r with
        | some u => exact (hnever hpoint rfl).elim
        | none =>
            refine Or.inl ⟨_, rfl, rfl, ?_, Or.inr ⟨hset', rfl, hset'.1, fun force => ?_⟩⟩
            · rw [outlook_of_settled hset.1, Executor.outlook, Executor.states]
              rcases htodo with rfl | rfl <;> rfl
            · rcases htodo with rfl | rfl <;> simp
    | stopped hset' hpoint =>
        refine Or.inl ⟨_, rfl, rfl, ?_, Or.inr ⟨hset', rfl, hset'.1, fun force => ?_⟩⟩
        · rw [outlook_of_settled hset.1, Executor.outlook, Executor.states, hset'.2]
          rfl
        · simp [hset'.2]
    | flushWrite | flushSkip | write | pauseAccount | resumed | read | delayedWrite | delayedSkip
    | delayedDone | pauseRequested | stopRequested =>
        exact absurd ⟨by simp, by simp, by simp⟩ hm
    | succeeded hpoint | flooded hpoint | indefinite hpoint | pausing hpoint | transient hpoint
    | exhausted hpoint | final hpoint => exact (hnever hpoint rfl).elim
    | begin hset' hpoint | primeFill hset' hpoint | primeReceive hset' hpoint
    | primed hset' hpoint | acquire hset' hpoint | loopControl hset' hpoint
    | loopPop hset' hpoint | take hset' hpoint | popReceive hset' hpoint | popFill hset' hpoint
    | popEnd hset' hpoint | sleep hset' hpoint | interrupt hset' hpoint | send hset' hpoint
    | waited hset' hpoint | retry hset' hpoint | giveUp hset' hpoint | append hset' hpoint
    | flushed hset' hpoint | summarize hset' hpoint => exact (hnever hpoint rfl).elim

/-- The states of the statements of `_handle_control`. -/
theorem states_handleControl (e : Executor) (c : Control) :
    (e.handleControl c).filterMap (Stmt.stateOf e.jobId) = [c.state] := by
  cases c <;> simp [handleControl, Control.state, List.filterMap_cons]

theorem states_indefiniteScript (e : Executor) (a : Attempt) (error : DomainError) :
    (e.indefiniteScript a error).filterMap (Stmt.stateOf e.jobId) = [.rateLimited] := by
  simp [indefiniteScript, List.filterMap_cons]

theorem states_pauseScript (e : Executor) (a : Attempt) (error : DomainError) :
    (e.pauseScript a error).filterMap (Stmt.stateOf e.jobId) = [.paused] := by
  simp [pauseScript, List.filterMap_cons]

theorem states_summary (e : Executor) (final : JobState) :
    [e.setJob final none none true, e.setAccount .ready].filterMap (Stmt.stateOf e.jobId) =
      [final] := by
  simp [List.filterMap_cons]

/-- The RPC in flight has ended with an error that pauses the job. -/
def Halted : Move → Prop
  | .answer (some error) => (classify (some error)).pauseJob = true
  | _ => False

instance (m : Move) : Decidable (Halted m) :=
  match m with
  | .answer (some error) => inferInstanceAs (Decidable ((classify (some error)).pauseJob = true))
  | .answer none | .execute | .resumed _ | .advance | .read | .delayed | .delayedDone _ | .pause
  | .stop => isFalse fun h => h

/-- **An outcome that pauses the job** ends the RPC in flight and the loop. -/
theorem Transition.halted (h : Transition env e m out) (hm : Halted m) :
    (∃ a, e.point = .rpc a) ∧ ∃ e', out.executor = some e' ∧ e'.point = .returned none ∧
      (e'.states = [.rateLimited] ∨ e'.states = [.paused]) := by
  cases h with
  | @indefinite a error hpoint hcode =>
      exact ⟨⟨a, hpoint⟩, _, rfl, rfl, Or.inl (states_indefiniteScript e a error)⟩
  | @pausing a error hpoint hcode =>
      exact ⟨⟨a, hpoint⟩, _, rfl, rfl, Or.inr (states_pauseScript e a error)⟩
  | flooded hpoint hcode =>
      rw [Halted, classify, hcode] at hm
      exact Bool.noConfusion hm
  | @transient a error delay hpoint hcode hdelay | @exhausted a error hpoint hcode hdelay =>
      rcases error with ⟨code, message, wait⟩
      cases code <;> first | exact Bool.noConfusion hm | exact Bool.noConfusion hcode
  | final hpoint hfinal hpause => exact Bool.noConfusion (hpause.symm.trans hm)
  | _ => exact False.elim hm

/-- **The ways into a closing point**: a request is handled, an outcome pauses the job, or the
counters are read at the natural end. -/
theorem Transition.closes (h : Transition env e m out)
    (hraise : ∀ message, m ≠ .resumed (.error message)) {e' : Executor}
    (he' : out.executor = some e')
    (hclosing : e'.point.closing = true) (hopen : e.point.closing = false) :
    (∃ c, e.control = some c ∧ e'.states = [c.state]) ∨
      Halted m ∨
        (e.point = .summary ∧ e.Settled ∧ out.write = none ∧ ∃ summary final,
          e'.states = [final] ∧ e'.point = .publish summary final ∧ Job.Complete final) := by
  have hnever : ∀ {p : Point}, e'.point = p → p.closing = false → False := by
    rintro p rfl hp
    exact Bool.noConfusion (hclosing.symm.trans hp)
  have hwas : ∀ {p : Point}, e.point = p → p.closing = true → False := by
    rintro p rfl hp
    exact Bool.noConfusion (hopen.symm.trans hp)
  by_cases hm : Keeping m
  · obtain ⟨f, hf, hpoint, -⟩ := h.states hm
    obtain rfl := Option.some.inj (hf.symm.trans he')
    rw [hpoint, hopen] at hclosing
    exact Bool.noConfusion hclosing
  · cases h with
    | raised haw message => exact absurd rfl (hraise message)
    | loopControl hset hpoint c hc =>
        obtain rfl := Option.some.inj he'
        exact Or.inl ⟨c, hc, states_handleControl e c⟩
    | interrupt hset hpoint c hc =>
        obtain rfl := Option.some.inj he'
        exact Or.inl ⟨c, hc, states_handleControl e c⟩
    | @indefinite a error hpoint hcode =>
        obtain rfl := Option.some.inj he'
        refine Or.inr (Or.inl ?_)
        rw [Halted, classify, hcode]
    | @pausing a error hpoint hcode =>
        obtain rfl := Option.some.inj he'
        refine Or.inr (Or.inl ?_)
        rcases hcode with hcode | hcode <;> rw [Halted, classify, hcode]
    | summarize hset hpoint =>
        obtain rfl := Option.some.inj he'
        refine Or.inr (Or.inr ⟨hpoint, hset, rfl, _, _, ?_, rfl, ?_⟩)
        · exact states_summary e _
        · rw [finalState]
          split
          · exact Or.inl rfl
          · exact Or.inr rfl
    | @returned r hset hpoint todo htodo =>
        obtain rfl := Option.some.inj he'
        cases r with
        | none => exact (hwas hpoint rfl).elim
        | some u => exact (hnever rfl rfl).elim
    | stopped hset hpoint => exact (hwas hpoint rfl).elim
    | @take item buffer hset hpoint htake =>
        obtain rfl := Option.some.inj he'
        rcases enter_cases item with ⟨u, hu, -⟩ | ⟨a, ha, -⟩
        · exact (hnever hu rfl).elim
        · exact (hnever ha rfl).elim
    | leave | publish | failed => exact absurd he' (by simp)
    | flushWrite | flushSkip | write | pauseAccount | resumed | read | delayedWrite | delayedSkip
    | delayedDone | pauseRequested | stopRequested =>
        exact absurd ⟨by simp, by simp, by simp⟩ hm
    | primeFill hset hpoint | primeReceive hset hpoint | popReceive hset hpoint
    | popFill hset hpoint =>
        obtain rfl := Option.some.inj he'
        exact (hnever hpoint rfl).elim
    | _ =>
        obtain rfl := Option.some.inj he'
        exact (hnever rfl rfl).elim

/-! ## The statements that pause or cancel the job -/

/-- A statement that gives the job the state PAUSED or CANCELLED stands at a closing point. -/
def Scripted (e : Executor) : Prop :=
  ∀ st ∈ e.states, st = .paused ∨ st = .cancelled → e.point.closing = true

theorem scripted_of_nil (h : e.todo = []) : e.Scripted := by
  intro st hst
  rw [states, h] at hst
  exact absurd hst (by simp)

theorem scripted_of_states (st : JobState) (h : e.states = [st]) (hp : st ≠ .paused)
    (hc : st ≠ .cancelled) : e.Scripted := by
  intro st' hst' hhalt
  rw [h, List.mem_singleton] at hst'
  subst hst'
  rcases hhalt with hhalt | hhalt
  · exact absurd hhalt hp
  · exact absurd hhalt hc

/-- **One transition.** -/
theorem Transition.scripted (h : Transition env e m out)
    (hraise : ∀ message, m ≠ .resumed (.error message))
    (hrpc : ∀ a, e.point = .rpc a → e.Settled) (he : e.Scripted) :
    ∀ e' ∈ out.executor, e'.Scripted := by
  intro e' he'
  by_cases hm : Keeping m
  · obtain ⟨f, hf, hpoint, -, hsplit⟩ := h.states hm
    obtain rfl := Option.some.inj (hf.symm.trans he')
    intro st hst hhalt
    rw [hpoint]
    exact he st (hsplit ▸ List.mem_append_right _ hst) hhalt
  · obtain ⟨⟨-, htodo⟩, -⟩ := h.settled_of_not_keeping hm hraise hrpc
    cases h with
    | raised haw message => exact absurd rfl (hraise message)
    | leave | publish | failed => exact absurd he' (by simp)
    | flushWrite | flushSkip | write | pauseAccount | resumed | read | delayedWrite | delayedSkip
    | delayedDone | pauseRequested | stopRequested =>
        exact absurd ⟨by simp, by simp, by simp⟩ hm
    | begin hset hpoint =>
        obtain rfl := Option.some.inj he'
        exact scripted_of_states .running
          (by simp [Executor.states, List.filterMap_cons]) (by decide) (by decide)
    | waited hset hpoint hc hnow =>
        obtain rfl := Option.some.inj he'
        exact scripted_of_states .running
          (by simp [Executor.states, List.filterMap_cons]) (by decide) (by decide)
    | flooded hpoint hcode =>
        obtain rfl := Option.some.inj he'
        exact scripted_of_states .waitingServer
          (by simp [Executor.states, floodScript, List.filterMap_cons]) (by decide) (by decide)
    | popEnd | append =>
        obtain rfl := Option.some.inj he'
        intro st hst
        exact absurd hst (by simp [Executor.states])
    | loopControl | interrupt | indefinite | pausing | summarize =>
        obtain rfl := Option.some.inj he'
        exact fun _ _ _ => rfl
    | returned hset hpoint todo htodo' =>
        obtain rfl := Option.some.inj he'
        intro st hst
        rcases htodo' with rfl | rfl <;> exact absurd hst (by simp [Executor.states, Stmt.stateOf,
          LaneWrite.ofJob])
    | _ =>
        obtain rfl := Option.some.inj he'
        exact scripted_of_nil htodo

end Executor
end Migration
end MigrationStudio
