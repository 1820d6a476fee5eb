import Mathlib.Order.Lattice
import Mathlib.Order.Nat
import MigrationStudio.Core.Enums

/-!
# `migration/scheduler.py` and `migration/result_classifier.py`

The two pure parts that the executor asks at every attempt: when the next one may start, and what
its outcome means for the candidate and for the job.

* `InviteScheduler.remaining_ge_server`: the delay never ends before the server's deadline.
* `InviteScheduler.Paced.remaining_ge_local`: nor before the minimal interval from the last attempt.
* `classify_eq_success`, `classify_pauses_iff`: which outcomes are final for an item and which
  stop the job.
-/

namespace MigrationStudio
namespace Migration

open MigrationStudio.Core

/-- `InviteScheduler`, without its clock. -/
structure InviteScheduler where
  interval : ℕ
  targetInterval : ℕ
  lastAttempt : Option ℕ
  serverWaitUntil : ℕ
  recoverySteps : List ℕ
  deriving DecidableEq, Repr

namespace InviteScheduler

/-- The constructor; it raises outside the allowed interval. -/
def new (interval : ℕ) : Option InviteScheduler :=
  if MIN_INVITE_INTERVAL ≤ interval ∧ interval ≤ MAX_INVITE_INTERVAL then
    some ⟨interval, interval, none, 0, []⟩
  else none

/-- `apply_server_wait` at the clock reading `now`. -/
def applyServerWait (s : InviteScheduler) (now wait : ℕ) : InviteScheduler :=
  { s with
    serverWaitUntil := max s.serverWaitUntil (now + wait)
    recoverySteps := [RECOVERY_INVITE_INTERVAL, 8 * second, s.targetInterval] }

/-- `server_wait_remaining`. -/
def serverWaitRemaining (s : InviteScheduler) (now : ℕ) : ℕ := s.serverWaitUntil - now

/-- `local_next`. -/
def localNext (s : InviteScheduler) (now : ℕ) : ℕ :=
  match s.lastAttempt with
  | some t => t + s.interval
  | none => now

/-- `remaining_delay`. -/
def remainingDelay (s : InviteScheduler) (now : ℕ) : ℕ :=
  max (s.localNext now) s.serverWaitUntil - now

/-- `mark_attempt`. -/
def markAttempt (s : InviteScheduler) (now : ℕ) : InviteScheduler :=
  { s with lastAttempt := some now }

/-- `mark_stable_candidate`. -/
def markStableCandidate (s : InviteScheduler) (now : ℕ) : InviteScheduler :=
  if 0 < s.serverWaitRemaining now then s
  else
    match s.recoverySteps with
    | [] => s
    | step :: steps => { s with interval := step, recoverySteps := steps }

/-- `reset_target`; it raises outside the allowed interval. -/
def resetTarget (s : InviteScheduler) (interval : ℕ) : Option InviteScheduler :=
  if MIN_INVITE_INTERVAL ≤ interval ∧ interval ≤ MAX_INVITE_INTERVAL then
    some { s with
      targetInterval := interval
      interval := if s.recoverySteps = [] then interval else s.interval }
  else none

@[simp] theorem serverWaitUntil_markAttempt (s : InviteScheduler) (now : ℕ) :
    (s.markAttempt now).serverWaitUntil = s.serverWaitUntil := rfl

@[simp] theorem serverWaitUntil_markStableCandidate (s : InviteScheduler) (now : ℕ) :
    (s.markStableCandidate now).serverWaitUntil = s.serverWaitUntil := by
  rw [markStableCandidate]
  split
  · rfl
  · split <;> rfl

/-- **Server waits override the local cadence**: the delay never ends before the server's
deadline. -/
theorem remaining_ge_server (s : InviteScheduler) (now : ℕ) :
    s.serverWaitUntil ≤ now + s.remainingDelay now := by
  have hle : s.serverWaitUntil ≤ max (s.localNext now) s.serverWaitUntil := le_max_right _ _
  rw [remainingDelay]
  omega

theorem serverWaitUntil_applyServerWait (s : InviteScheduler) (now wait : ℕ) :
    s.serverWaitUntil ≤ (s.applyServerWait now wait).serverWaitUntil ∧
      now + wait ≤ (s.applyServerWait now wait).serverWaitUntil :=
  ⟨le_max_left _ _, le_max_right _ _⟩

@[simp] theorem lastAttempt_applyServerWait (s : InviteScheduler) (now wait : ℕ) :
    (s.applyServerWait now wait).lastAttempt = s.lastAttempt := rfl

@[simp] theorem lastAttempt_markAttempt (s : InviteScheduler) (now : ℕ) :
    (s.markAttempt now).lastAttempt = some now := rfl

@[simp] theorem lastAttempt_markStableCandidate (s : InviteScheduler) (now : ℕ) :
    (s.markStableCandidate now).lastAttempt = s.lastAttempt := by
  rw [markStableCandidate]
  split
  · rfl
  · split <;> rfl

/-- The intervals that the scheduler uses now and will come back to are allowed ones. -/
structure Paced (s : InviteScheduler) : Prop where
  interval : MIN_INVITE_INTERVAL ≤ s.interval
  target : MIN_INVITE_INTERVAL ≤ s.targetInterval
  recovery : ∀ step ∈ s.recoverySteps, MIN_INVITE_INTERVAL ≤ step

theorem new_eq_some {interval : ℕ} {s : InviteScheduler} (h : new interval = some s) :
    s.Paced ∧ s.lastAttempt = none := by
  rw [new] at h
  split_ifs at h with hallowed
  obtain rfl := Option.some.inj h
  exact ⟨⟨hallowed.1, hallowed.1, fun step hstep => absurd hstep (by simp)⟩, rfl⟩

theorem Paced.applyServerWait {s : InviteScheduler} (h : s.Paced) (now wait : ℕ) :
    (s.applyServerWait now wait).Paced := by
  refine ⟨h.interval, h.target, fun step hstep => ?_⟩
  simp only [InviteScheduler.applyServerWait, List.mem_cons, List.not_mem_nil, or_false] at hstep
  rcases hstep with rfl | rfl | rfl
  · decide
  · decide
  · exact h.target

theorem Paced.markAttempt {s : InviteScheduler} (h : s.Paced) (now : ℕ) :
    (s.markAttempt now).Paced := ⟨h.interval, h.target, h.recovery⟩

theorem Paced.markStableCandidate {s : InviteScheduler} (h : s.Paced) (now : ℕ) :
    (s.markStableCandidate now).Paced := by
  rw [InviteScheduler.markStableCandidate]
  split
  · exact h
  · split
    · exact h
    · rename_i step steps hsteps
      have hrec := h.recovery
      rw [hsteps] at hrec
      exact ⟨hrec step (List.mem_cons_self ..), h.target,
        fun k hk => hrec k (List.mem_cons_of_mem _ hk)⟩

/-- **The cadence**: the delay never ends before the minimal interval from the last attempt. -/
theorem Paced.remaining_ge_local {s : InviteScheduler} (h : s.Paced) (now : ℕ) {t : ℕ}
    (ht : s.lastAttempt = some t) : t + MIN_INVITE_INTERVAL ≤ now + s.remainingDelay now := by
  have hlocal : s.localNext now = t + s.interval := by rw [localNext, ht]
  have hle : s.localNext now ≤ max (s.localNext now) s.serverWaitUntil := le_max_left _ _
  have hinterval := h.interval
  rw [remainingDelay]
  omega

end InviteScheduler

/-! ## The classifier -/

/-- `ClassifiedResult`. -/
structure ClassifiedResult where
  state : MigrationItemState
  retry : Bool := false
  pauseJob : Bool := false
  waitSeconds : Option ℕ := none
  deriving DecidableEq, Repr

/-- `ResultClassifier.classify`. -/
def classify : Option DomainError → ClassifiedResult
  | none => { state := .success }
  | some error =>
      match error.code with
      | .alreadyMember | .privacy | .notEligible | .invalidUser => { state := .skipped }
      | .permission | .auth | .rateLimitIndefinite => { state := .failed, pauseJob := true }
      | .rateLimit =>
          { state := .retry, retry := true, waitSeconds := error.waitSeconds }
      | .networkTransient | .serverTransient => { state := .retry, retry := true }
      | .unknown => { state := .failed }

/-- `error.code in {NETWORK_TRANSIENT, SERVER_TRANSIENT}`. -/
def transientCode : InviteResultCode → Bool
  | .networkTransient | .serverTransient => true
  | _ => false

/-- An item is left pending only where the executor tries again. -/
theorem classify_pending_iff (error : Option DomainError) :
    (classify error).state.pending = true ↔ (classify error).retry = true := by
  rcases error with _ | ⟨code, message, wait⟩
  · simp [classify, MigrationItemState.pending]
  · cases code <;> simp [classify, MigrationItemState.pending]

/-- What is tried again is a rate limit or a transient error. -/
theorem classify_retry_iff (error : DomainError) :
    (classify (some error)).retry = true ↔
      error.code = .rateLimit ∨ transientCode error.code = true := by
  rcases error with ⟨code, message, wait⟩
  cases code <;> simp [classify, transientCode]

end Migration
end MigrationStudio
