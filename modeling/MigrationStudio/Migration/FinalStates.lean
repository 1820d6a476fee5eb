import MigrationStudio.Migration.Outlook
import MigrationStudio.Runtime.Ownership

/-!
# The final states that an executor writes

`run` writes COMPLETED, COMPLETED_WITH_ERRORS, CANCELLED or FAILED as the last state of its job:
behind it stand at most other statements, and FAILED when one of them raises.

* `LaneWrite.jobState`: the state that a write gives the job.
* `Executor.Final`, `Executor.Open`: no state but final ones is to come; none of them is.
* `Transition.submits`: a state is submitted as the next of the statements, and awaited.
* `Transition.final`, `Transition.opened`: one transition keeps the executor final, or open until
  nothing of its job waits.
-/

namespace MigrationStudio

open MigrationStudio.Core Accounts Jobs Telegram Storage Migration

namespace Storage

/-- The state that a write gives the job. -/
def LaneWrite.jobState (id : JobId) (w : LaneWrite) : Option JobState :=
  (w.ofJob id).bind Migration.stateOf

@[simp] theorem LaneWrite.jobState_setState (id : JobId) (st : JobState) (wait : Option ℕ)
    (c : Option Checkpoint) (clear : Bool) :
    (LaneWrite.job id (.setState st wait c clear)).jobState id = some st := by
  rw [jobState, ofJob, if_pos rfl]
  rfl

theorem LaneWrite.jobState_of_ne {id k : JobId} (h : k ≠ id) (jw : JobWrite) :
    (LaneWrite.job k jw).jobState id = none := by
  rw [jobState, ofJob, if_neg h]
  rfl

end Storage

namespace Migration
namespace Executor

variable {env : Env} {e : Executor} {m : Move} {out : Outcome}

/-- The executor is on its last statements, and no state among them is open. -/
def Final (e : Executor) : Prop :=
  (e.point.closing = true ∨ e.point = .failed) ∧ ∀ st ∈ e.states, st.terminal = true

/-- No state among the statements is final. -/
def Open (e : Executor) : Prop := ∀ st ∈ e.states, st.terminal = false

theorem open_of_nil (h : e.todo = []) : e.Open := by
  intro st hst
  rw [states, h] at hst
  exact absurd hst (by simp)

theorem open_of_states (st : JobState) (h : e.states = [st]) (hst : st.terminal = false) :
    e.Open := by
  intro st' hst'
  rw [h, List.mem_singleton] at hst'
  exact hst' ▸ hst

theorem final_of_states (st : JobState) (h : e.states = [st]) (hst : st.terminal = true)
    (hp : e.point.closing = true ∨ e.point = .failed) : e.Final := by
  refine ⟨hp, fun st' hst' => ?_⟩
  rw [h, List.mem_singleton] at hst'
  exact hst' ▸ hst

/-- FAILED is the last state when something raises. -/
theorem final_raise {e' : Executor} {message : String} (h : e.raise message = some e') :
    e'.Final := by
  rw [Executor.raise] at h
  split at h
  · exact absurd h (by simp)
  · exact absurd h (by simp)
  · exact absurd h (by simp)
  · obtain rfl := Option.some.inj h
    exact final_of_states .failed (by simp [states, List.filterMap_cons]) rfl
      (Or.inr rfl)

/-- **A state that is submitted** is the next of the statements, and its future is awaited. -/
theorem Transition.submits (h : Transition env e m out) {w : LaneWrite} (hw : out.write = some w)
    {st : JobState} (hst : w.jobState e.jobId = some st) :
    st ∈ e.states ∧ m = .execute ∧
      ∃ flush, out.executor.bind Executor.awaiting = some ⟨env.future, flush⟩ := by
  have hflush : e.flushWrite.jobState e.jobId = none := by
    rw [LaneWrite.jobState, Executor.flushWrite, LaneWrite.ofJob, if_pos rfl]
    rfl
  cases h with
  | flushWrite | delayedWrite =>
      obtain rfl := Option.some.inj hw
      exact absurd (hflush.symm.trans hst) (by simp)
  | @write w' todo haw htodo =>
      obtain rfl := Option.some.inj hw
      have hmem : Stmt.write w' ∈ e.todo := htodo ▸ List.mem_cons_self ..
      exact ⟨List.mem_filterMap.mpr ⟨Stmt.write w', hmem, hst⟩, rfl, _, rfl⟩
  | pauseAccount =>
      obtain rfl := Option.some.inj hw
      exact absurd hst (by simp [LaneWrite.jobState, LaneWrite.ofJob])
  | _ => exact absurd hw (by simp)

/-- What is awaited stays so until its future is resolved. -/
theorem Transition.keeps_awaiting (h : Transition env e m out) {a : Await}
    (ha : e.awaiting = some a) (hm : ∀ r, m ≠ .resumed r) :
    out.executor.bind Executor.awaiting = some a := by
  have hset : ¬ e.Settled := fun hset => absurd (hset.1.symm.trans ha) (by simp)
  cases h with
  | flushWrite haw | flushSkip haw | write haw | pauseAccount haw =>
      exact absurd (haw.symm.trans ha) (by simp)
  | resumed | raised => exact absurd rfl (hm _)
  | read | delayedWrite | delayedSkip | delayedDone | pauseRequested | stopRequested | succeeded
  | flooded | indefinite | pausing | transient | exhausted | final => exact ha
  | begin hs | primeFill hs | primeReceive hs | primed hs | acquire hs | loopControl hs
  | loopPop hs | take hs | popReceive hs | popFill hs | popEnd hs | sleep hs | interrupt hs
  | send hs | waited hs | retry hs | giveUp hs | returned hs | stopped hs | append hs
  | flushed hs | leave hs | summarize hs | publish hs | failed hs => exact absurd hs hset

/-- The states that are left after a move that stays at the point. -/
theorem Transition.states_subset (h : Transition env e m out) (hm : Keeping m) :
    ∃ e', out.executor = some e' ∧ e'.point = e.point ∧ ∀ st ∈ e'.states, st ∈ e.states := by
  obtain ⟨e', he', hpoint, -, hsplit⟩ := h.states hm
  exact ⟨e', he', hpoint, fun st hst => hsplit ▸ List.mem_append_right _ hst⟩

/-- **A final executor stays final.** -/
theorem Transition.final_of_final (h : Transition env e m out) (he : e.Final) :
    ∀ e' ∈ out.executor, e'.Final := by
  intro e' he'
  by_cases hm : Keeping m
  · obtain ⟨f, hf, hpoint, hsub⟩ := h.states_subset hm
    obtain rfl := Option.some.inj (hf.symm.trans he')
    exact ⟨hpoint ▸ he.1, fun st hst => he.2 st (hsub st hst)⟩
  · cases h with
    | raised haw message => exact final_raise he'
    | leave | publish | failed => exact absurd he' (by simp)
    | flushWrite | flushSkip | write | pauseAccount | resumed | read | delayedWrite | delayedSkip
    | delayedDone | pauseRequested | stopRequested =>
        exact absurd ⟨by simp, by simp, by simp⟩ hm
    | @returned r hs hpoint todo htodo =>
        obtain rfl := Option.some.inj he'
        cases r with
        | some u => exact absurd he.1 (by simp [hpoint, Point.closing])
        | none =>
            refine ⟨Or.inl rfl, fun st hst => ?_⟩
            rcases htodo with rfl | rfl <;>
              exact absurd hst (by simp [Executor.states, Stmt.stateOf, LaneWrite.ofJob])
    | stopped hs hpoint =>
        obtain rfl := Option.some.inj he'
        exact ⟨Or.inl rfl, he.2⟩
    | succeeded hpoint | flooded hpoint | indefinite hpoint | pausing hpoint | transient hpoint
    | exhausted hpoint | final hpoint => exact absurd he.1 (by simp [hpoint, Point.closing])
    | begin hs hpoint | primeFill hs hpoint | primeReceive hs hpoint | primed hs hpoint
    | acquire hs hpoint | loopControl hs hpoint | loopPop hs hpoint | take hs hpoint
    | popReceive hs hpoint | popFill hs hpoint | popEnd hs hpoint | sleep hs hpoint
    | interrupt hs hpoint | send hs hpoint | waited hs hpoint | retry hs hpoint
    | giveUp hs hpoint | append hs hpoint | flushed hs hpoint | summarize hs hpoint =>
        exact absurd he.1 (by simp [hpoint, Point.closing])

theorem states_floodScript (e : Executor) (now : ℕ) (a : Attempt) (error : DomainError) :
    (e.floodScript now a error).filterMap (Stmt.stateOf e.jobId) = [.waitingServer] := by
  simp [floodScript, List.filterMap_cons]

/-- **An open executor** stays open, or becomes final when it awaits nothing or what it awaits has
raised. -/
theorem Transition.final_of_open (h : Transition env e m out) (he : e.Open) :
    ∀ e' ∈ out.executor, e'.Open ∨
      (e'.Final ∧ out.write = none ∧
        (e.awaiting = none ∨ ∃ message, m = .resumed (.error message))) := by
  intro e' he'
  by_cases hm : Keeping m
  · obtain ⟨f, hf, hpoint, hsub⟩ := h.states_subset hm
    obtain rfl := Option.some.inj (hf.symm.trans he')
    exact Or.inl fun st hst => he st (hsub st hst)
  · cases h with
    | raised haw message => exact Or.inr ⟨final_raise he', rfl, Or.inr ⟨message, rfl⟩⟩
    | leave | publish | failed => exact absurd he' (by simp)
    | flushWrite | flushSkip | write | pauseAccount | resumed | read | delayedWrite | delayedSkip
    | delayedDone | pauseRequested | stopRequested =>
        exact absurd ⟨by simp, by simp, by simp⟩ hm
    | begin hs =>
        obtain rfl := Option.some.inj he'
        exact Or.inl (open_of_states .running
          (by simp [Executor.states, List.filterMap_cons]) rfl)
    | waited hs =>
        obtain rfl := Option.some.inj he'
        exact Or.inl (open_of_states .running
          (by simp [Executor.states, List.filterMap_cons]) rfl)
    | @flooded a error hpoint hcode =>
        obtain rfl := Option.some.inj he'
        exact Or.inl (open_of_states _ (states_floodScript e _ a error) rfl)
    | @indefinite a error hpoint hcode =>
        obtain rfl := Option.some.inj he'
        exact Or.inl (open_of_states _ (states_indefiniteScript e a error) rfl)
    | @pausing a error hpoint hcode =>
        obtain rfl := Option.some.inj he'
        exact Or.inl (open_of_states _ (states_pauseScript e a error) rfl)
    | loopControl hs hpoint c hc | interrupt hs hpoint c hc =>
        obtain rfl := Option.some.inj he'
        cases c with
        | pause => exact Or.inl (open_of_states _ (states_handleControl e .pause) rfl)
        | stop =>
            exact Or.inr ⟨final_of_states _ (states_handleControl e .stop) rfl (Or.inl rfl), rfl,
              Or.inl hs.1⟩
    | summarize hs =>
        obtain rfl := Option.some.inj he'
        refine Or.inr ⟨final_of_states _ (states_summary e _) ?_ (Or.inl rfl), rfl,
          Or.inl hs.1⟩
        rw [finalState]
        split <;> rfl
    | popEnd | append =>
        obtain rfl := Option.some.inj he'
        exact Or.inl fun st hst => absurd hst (by simp [Executor.states])
    | returned hs hpoint todo htodo =>
        obtain rfl := Option.some.inj he'
        rcases htodo with rfl | rfl
        · exact Or.inl (open_of_nil rfl)
        · exact Or.inl fun st hst =>
            absurd hst (by simp [Executor.states, Stmt.stateOf, LaneWrite.ofJob])
    | succeeded | transient | exhausted | final =>
        obtain rfl := Option.some.inj he'
        exact Or.inl he
    | primeFill hs | primeReceive hs | primed hs | acquire hs | loopPop hs | take hs
    | popReceive hs | popFill hs | sleep hs | send hs | retry hs | giveUp hs | stopped hs
    | flushed hs =>
        obtain rfl := Option.some.inj he'
        exact Or.inl (open_of_nil hs.2)

end Executor
end Migration
end MigrationStudio
