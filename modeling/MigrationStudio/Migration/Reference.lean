import MigrationStudio.Migration.Executor

/-!
# What a run is for

The purpose of `MigrationExecutor.run`, without clocks, buffers and writes: a fold over the outcomes
of the RPCs.  The candidates come one after the other.  One without id or access hash fails
without an RPC; for the others RPCs are sent until an outcome decides the item or halts the run.

* `verdict`: what an outcome means for the candidate in hand.
* `Reference`, `reference`: the RPCs, the updates of the items, the candidate in hand and those
  that are left, after a list of outcomes.
* `Reference.Accounted`, `reference_accounted`: every candidate is accounted for, in order, and all
  updates are final but the last of a halted run.
-/

namespace MigrationStudio
namespace Migration

open MigrationStudio.Core Jobs Telegram

/-- What an outcome means for its candidate: another RPC, with the number of transient outcomes so
far, a final state, or the end of the run in a state of the job. -/
inductive Verdict where
  | again (transient : ℕ)
  | final (state : MigrationItemState)
  | halt (state : JobState)
  deriving DecidableEq

/-- The verdict on an outcome after `transient` transient outcomes for the same candidate. -/
def verdict (transient : ℕ) : Option DomainError → Verdict
  | none => .final .success
  | some error =>
      if error.code = .rateLimit then .again transient
      else if error.code = .rateLimitIndefinite then .halt .rateLimited
      else if error.code = .permission ∨ error.code = .auth then .halt .paused
      else if transientCode error.code then
        if transient < 2 then .again (transient + 1) else .final .failed
      else .final (classify (some error)).state

theorem verdict_transient {error : DomainError} (h : transientCode error.code = true) (n : ℕ) :
    verdict n (some error) = if n < 2 then .again (n + 1) else .final .failed := by
  rcases error with ⟨code, message, wait⟩
  cases code <;> first | exact Bool.noConfusion h | rfl

theorem verdict_final {error : DomainError} (h : (classify (some error)).state.pending = false)
    (hpause : (classify (some error)).pauseJob = false) (n : ℕ) :
    verdict n (some error) = .final (classify (some error)).state := by
  rcases error with ⟨code, message, wait⟩
  cases code <;> first | rfl | exact Bool.noConfusion h | exact Bool.noConfusion hpause

/-- The update of an item whose last RPC had this outcome. -/
def Attempt.finish (a : Attempt) (state : MigrationItemState) (outcome : Option DomainError) :
    ItemUpdate where
  ordinal := a.candidate.ordinal
  state := state
  attempts := a.attempts
  errorCode := outcome.map DomainError.code
  errorText := outcome.map DomainError.message

/-- A candidate without id or access hash. -/
def BufferedCandidate.lacking (c : BufferedCandidate) : Bool :=
  c.member.telegramUserId.isNone || c.member.accessHash.isNone

/-- The update of such a candidate. -/
def BufferedCandidate.lackingUpdate (c : BufferedCandidate) : ItemUpdate where
  ordinal := c.ordinal
  state := .failed
  attempts := c.persistedAttempts
  errorCode := some .invalidUser
  errorText := some "Candidate lacks user id/access hash"

/-- What an RPC is about. -/
abbrev Subject := ℕ × Member

def BufferedCandidate.subject (c : BufferedCandidate) : Subject := (c.ordinal, c.member)

def Rpc.subject (rpc : Rpc) : Subject := (rpc.ordinal, rpc.member)

/-- How far the run is: the RPCs, the updates of the items, the attempt whose RPC is in flight, the
candidates after it, and the state of the job in which the run was halted. -/
structure Reference where
  rpcs : List Subject
  updates : List ItemUpdate
  current : Option Attempt
  later : List BufferedCandidate
  halted : Option JobState
  deriving DecidableEq

namespace Reference

/-- On to the first candidate that gets an RPC. -/
def next (rpcs : List Subject) (updates : List ItemUpdate) : List BufferedCandidate → Reference
  | [] => ⟨rpcs, updates, none, [], none⟩
  | c :: cs =>
      if c.lacking then next rpcs (updates ++ [c.lackingUpdate]) cs
      else ⟨rpcs ++ [c.subject], updates, some ⟨c, c.persistedAttempts + 1, 0⟩, cs, none⟩

/-- The RPC in flight has an outcome. -/
def answer (r : Reference) (outcome : Option DomainError) : Reference :=
  match r.current with
  | none => r
  | some a =>
      match verdict a.transient outcome with
      | .again transient =>
          { r with
            rpcs := r.rpcs ++ [a.candidate.subject]
            current := some { a with attempts := a.attempts + 1, transient := transient } }
      | .final state => next r.rpcs (r.updates ++ [a.finish state outcome]) r.later
      | .halt state =>
          { r with
            updates := r.updates ++ [a.finish .retry outcome]
            current := none
            halted := some state }

/-- The state of the job at the end of the run, over the items that it leaves. -/
def jobState (r : Reference) (items : ItemTable) : JobState :=
  r.halted.getD (if items.count .failed = 0 then .completed else .completedWithErrors)

end Reference

/-- **The reference run**: the candidates, and the outcomes of the RPCs so far. -/
def reference (cs : List BufferedCandidate) (outcomes : List (Option DomainError)) : Reference :=
  outcomes.foldl Reference.answer (Reference.next [] [] cs)

namespace Reference

variable {r : Reference} {cs : List BufferedCandidate} {rpcs : List Subject}
  {updates : List ItemUpdate} {a : Attempt}

theorem next_lacking {c : BufferedCandidate} (h : c.lacking = true) :
    next rpcs updates (c :: cs) = next rpcs (updates ++ [c.lackingUpdate]) cs := by
  rw [next, if_pos h]

theorem next_cons {c : BufferedCandidate} (h : c.lacking = false) :
    next rpcs updates (c :: cs) =
      ⟨rpcs ++ [c.subject], updates, some ⟨c, c.persistedAttempts + 1, 0⟩, cs, none⟩ := by
  rw [next, if_neg (by rw [h]; exact Bool.false_ne_true)]

section

variable {later : List BufferedCandidate} {outcome : Option DomainError}

theorem answer_again {n : ℕ} (h : verdict a.transient outcome = .again n) :
    (⟨rpcs, updates, some a, later, none⟩ : Reference).answer outcome =
      ⟨rpcs ++ [a.candidate.subject], updates,
        some { a with attempts := a.attempts + 1, transient := n }, later, none⟩ := by
  simp only [answer, h]

theorem answer_final {state : MigrationItemState}
    (h : verdict a.transient outcome = .final state) :
    (⟨rpcs, updates, some a, later, none⟩ : Reference).answer outcome =
      next rpcs (updates ++ [a.finish state outcome]) later := by
  simp only [answer, h]

theorem answer_halt {state : JobState} (h : verdict a.transient outcome = .halt state) :
    (⟨rpcs, updates, some a, later, none⟩ : Reference).answer outcome =
      ⟨rpcs, updates ++ [a.finish .retry outcome], none, later, some state⟩ := by
  simp only [answer, h]

end

/-- The next candidate may get an RPC, and nothing else is sent. -/
theorem rpcs_next (rpcs : List Subject) (updates : List ItemUpdate)
    (cs : List BufferedCandidate) :
    (next rpcs updates cs).rpcs = rpcs ∨ ∃ x, (next rpcs updates cs).rpcs = rpcs ++ [x] := by
  induction cs generalizing updates with
  | nil => exact Or.inl rfl
  | cons c cs ih =>
      cases h : c.lacking with
      | true =>
          rw [next_lacking h]
          exact ih _
      | false =>
          rw [next_cons h]
          exact Or.inr ⟨_, rfl⟩

/-! ## Every candidate is accounted for -/

/-- The updates, the candidate in hand and the candidates that are left are those of the list, in
its order.  The updates are final, but for the RETRY of the candidate on which a run was halted. -/
structure Accounted (cs : List BufferedCandidate) (r : Reference) : Prop where
  ordinals : r.updates.map ItemUpdate.ordinal ++
      (r.current.map fun a => a.candidate.ordinal).toList ++
        r.later.map BufferedCandidate.ordinal = cs.map BufferedCandidate.ordinal
  going : r.halted = none → ∀ u ∈ r.updates, u.state.pending = false
  halted : ∀ state, r.halted = some state → r.current = none ∧
    ∃ done u, r.updates = done ++ [u] ∧ u.state = .retry ∧ ∀ v ∈ done, v.state.pending = false
  ended : r.current = none → r.halted = none → r.later = []

theorem accounted_next {all : List BufferedCandidate}
    (hu : ∀ u ∈ updates, u.state.pending = false)
    (hall : updates.map ItemUpdate.ordinal ++ cs.map BufferedCandidate.ordinal =
      all.map BufferedCandidate.ordinal) : Accounted all (next rpcs updates cs) := by
  induction cs generalizing updates with
  | nil =>
      exact ⟨by simpa [next] using hall, fun _ => hu, fun state h => absurd h (by simp [next]),
        fun _ _ => rfl⟩
  | cons c cs ih =>
      cases h : c.lacking with
      | true =>
          rw [next_lacking h]
          refine ih (fun u hmem => ?_) ?_
          · rcases List.mem_append.mp hmem with hmem | hmem
            · exact hu u hmem
            · rw [List.mem_singleton.mp hmem]
              rfl
          · rw [← hall]
            simp [BufferedCandidate.lackingUpdate]
      | false =>
          rw [next_cons h]
          exact ⟨by simpa using hall, fun _ => hu, fun state h => absurd h (by simp),
            fun h => absurd h (by simp)⟩

theorem pending_of_final {transient : ℕ} {outcome : Option DomainError}
    {state : MigrationItemState} (h : verdict transient outcome = .final state) :
    state.pending = false := by
  rcases outcome with _ | ⟨code, message, wait⟩
  · obtain rfl := Verdict.final.inj h
    rfl
  · cases code <;> simp [verdict, transientCode, classify] at h <;>
      first
        | exact h ▸ rfl
        | (split at h <;> simp at h; exact h ▸ rfl)

theorem Accounted.answer (h : Accounted cs r) (o : Option DomainError) :
    Accounted cs (r.answer o) := by
  rw [Reference.answer]
  cases hcurrent : r.current with
  | none => exact h
  | some a =>
      have hgoing : r.halted = none := by
        cases hhalted : r.halted with
        | none => rfl
        | some state => exact absurd ((h.halted state hhalted).1.symm.trans hcurrent) (by simp)
      have hordinals := h.ordinals
      rw [hcurrent, Option.map_some, Option.toList_some] at hordinals
      simp only
      cases hv : verdict a.transient o with
      | again transient =>
          exact ⟨by simpa using hordinals, h.going, fun state hs => absurd hs (by simp [hgoing]),
            fun hn => absurd hn (by simp)⟩
      | final state =>
          refine accounted_next (fun u hu => ?_) ?_
          · rcases List.mem_append.mp hu with hu | hu
            · exact h.going hgoing u hu
            · rw [List.mem_singleton.mp hu]
              exact pending_of_final hv
          · rw [← hordinals]
            simp [Attempt.finish]
      | halt state =>
          refine ⟨by simpa [Attempt.finish] using hordinals, fun hn => absurd hn (by simp),
            fun state' _ => ⟨rfl, r.updates, _, rfl, rfl, h.going hgoing⟩,
            fun _ hn => absurd hn (by simp)⟩

end Reference

/-- **Every candidate is accounted for** after any outcomes. -/
theorem reference_accounted (cs : List BufferedCandidate)
    (outcomes : List (Option DomainError)) :
    Reference.Accounted cs (reference cs outcomes) := by
  unfold reference
  have hstart : Reference.Accounted cs (Reference.next [] [] cs) :=
    Reference.accounted_next (fun u h => absurd h (by simp)) rfl
  generalize Reference.next [] [] cs = r at hstart
  induction outcomes generalizing r with
  | nil => exact hstart
  | cons o outcomes ih => exact ih (r.answer o) (hstart.answer o)

end Migration
end MigrationStudio
