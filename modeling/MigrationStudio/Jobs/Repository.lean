import MigrationStudio.Jobs.Items

/-!
# `jobs/repository.py`: one job and its writes

A `Job` is a row of `jobs` with its items.  `checkpoint_json` is the dictionary it holds, `{}` for
NULL; the keys that the program writes there are `action` (by the planner), `last_ordinal` (by the
executor) and `recovered_after_restart` (by `normalize_after_restart`), and every write replaces
the whole dictionary.  Nobody else writes the column, and `json.loads` reads what `json.dumps` makes
of such a dictionary, so that the `except` of `get_checkpoint` is not met here; the column as a text
that may be refused is in `Jobs.CheckpointText`.

* `JobWrite`: the writes of one job that the executor and the recovery submit.
* `Job.apply`: the operation of each of them on the job's row and items.
* `Job.Consistent`: what the row says about the items.
-/

namespace MigrationStudio
namespace Jobs

open MigrationStudio.Core

/-- The dictionary in `checkpoint_json`. -/
structure Checkpoint where
  action : Option Action := none
  lastOrdinal : Option ℤ := none
  recoveredAfterRestart : Bool := false
  deriving DecidableEq, Repr

/-- What `JobRepository.summary` returns. -/
structure Counters where
  total : ℕ
  processed : ℕ
  success : ℕ
  skipped : ℕ
  failed : ℕ
  deriving DecidableEq, Repr

/-- A row of `jobs` with its items. -/
structure Job where
  jobType : JobType
  state : JobState
  accountId : Option AccountId
  targetGroupId : Option GroupId
  counters : Counters
  waitingUntil : Option ℕ
  checkpoint : Checkpoint
  items : ItemTable

/-- The writes of one job.  `updateItems` is `submit_update_items_batch`, the only routine one. -/
inductive JobWrite where
  | setState (state : JobState) (waitingUntil : Option ℕ) (checkpoint : Option Checkpoint)
      (clearWaiting : Bool)
  | updateItems (updates : List ItemUpdate) (checkpoint : Option Checkpoint)
  | markRetry (ordinal attempts : ℕ) (errorCode : Option InviteResultCode)
      (errorText : Option String) (nextRetryAt : Option ℕ)
  | event (level eventCode message : String) (memberId : Option ℤ)
  deriving DecidableEq, Repr

/-- `checkpoint if checkpoint else None`: the empty dictionary is falsy. -/
def truthy (c : Option Checkpoint) : Option Checkpoint := if c = some {} then none else c

namespace JobWrite

/-- The dictionary that a write puts in the place of the old one, if any. -/
def checkpoint : JobWrite → Option Checkpoint
  | setState _ _ c _ => c
  | updateItems _ c => truthy c
  | _ => none

/-- The `critical` argument that the write is submitted with. -/
def critical : JobWrite → Bool
  | updateItems _ _ => false
  | _ => true

end JobWrite

namespace Job

/-- `SELECT SUM(...)` and the counters that `submit_update_items_batch` writes. -/
def recount (total : ℕ) (items : ItemTable) : Counters where
  total := total
  processed := items.count .success + items.count .skipped + items.count .failed
  success := items.count .success
  skipped := items.count .skipped
  failed := items.count .failed

/-- The operation of a write; `COALESCE(?,checkpoint_json)` of `updateItems` keeps the old
dictionary when there is no new one. -/
def apply (job : Job) : JobWrite → Job
  | .setState state waitingUntil checkpoint clearWaiting =>
      { job with
        state := state
        waitingUntil :=
          if waitingUntil.isSome || clearWaiting then waitingUntil else job.waitingUntil
        checkpoint := checkpoint.getD job.checkpoint }
  | .updateItems updates checkpoint =>
      { job with
        items := job.items.updateItems updates
        counters := recount job.counters.total (job.items.updateItems updates)
        checkpoint := (truthy checkpoint).getD job.checkpoint }
  | .markRetry ordinal attempts errorCode errorText nextRetryAt =>
      { job with
        items := job.items.markRetry ordinal attempts errorCode errorText nextRetryAt }
  | .event _ _ _ _ => job

theorem checkpoint_apply (job : Job) (w : JobWrite) :
    (job.apply w).checkpoint = w.checkpoint.getD job.checkpoint := by
  cases w <;> rfl

/-- The ordinals of the items that are READY or RETRY. -/
def pending (job : Job) : List ℕ := job.items.pendingOrdinals

/-- Every pending ordinal is above the `last_ordinal` of the checkpoint. -/
def CheckpointBelow (c : Checkpoint) (pending : List ℕ) : Prop :=
  ∀ k ∈ c.lastOrdinal, ∀ o ∈ pending, k < (o : ℤ)

/-- The states that promise that no item is left. -/
def Complete (state : JobState) : Prop :=
  state = .completed ∨ state = .completedWithErrors

instance (state : JobState) : Decidable (Complete state) :=
  inferInstanceAs (Decidable (_ ∨ _))

/-- **What the row of a job says about its items.**  The counters are the numbers of items in the
three final states, everything up to the checkpoint's `last_ordinal` is terminal, and a completed
job has no READY or RETRY item. -/
structure Consistent (job : Job) : Prop where
  counters : job.counters = recount job.items.rows.length job.items
  checkpoint : CheckpointBelow job.checkpoint job.pending
  complete : Complete job.state → job.pending = []

/-- What is not processed is pending. -/
theorem Consistent.processed_add_pending {job : Job} (h : job.Consistent) :
    job.counters.processed + job.pending.length = job.counters.total := by
  rw [h.counters]
  exact job.items.count_add_pending

/-- Below the checkpoint every item is terminal. -/
theorem Consistent.terminal_of_le {job : Job} (h : job.Consistent) {k : ℤ}
    (hk : job.checkpoint.lastOrdinal = some k) {r : Item} (hr : r ∈ job.items.rows)
    (hle : (r.ordinal : ℤ) ≤ k) : r.state.pending = false := by
  refine ItemTable.pending_eq_false_of_not_mem hr fun hmem => ?_
  exact absurd (h.checkpoint k hk r.ordinal hmem) (by omega)

/-- A completed job has only terminal items. -/
theorem Consistent.terminal_of_complete {job : Job} (h : job.Consistent)
    (hc : Complete job.state) {r : Item} (hr : r ∈ job.items.rows) :
    r.state.pending = false := by
  refine ItemTable.pending_eq_false_of_not_mem hr fun hmem => ?_
  have hnil : job.items.pendingOrdinals = [] := h.complete hc
  rw [hnil] at hmem
  exact absurd hmem (by simp)

end Job

/-! ## Writes that keep the row truthful -/

/-- `w` may be committed when the pending ordinals are `pending`, and leaves `pending'`: a batch of
results is about the first of them and its checkpoint below the rest, a retry mark is about one of
them, a checkpoint is below all of them, and a completed state is set when none is left. -/
def Consumes (w : JobWrite) (pending pending' : List ℕ) : Prop :=
  match w with
  | .updateItems us c =>
      us ≠ [] ∧ (∀ u ∈ us, u.state.pending = false) ∧
        pending = us.map ItemUpdate.ordinal ++ pending' ∧
        ∀ c' ∈ c, Job.CheckpointBelow c' pending'
  | .markRetry o _ _ _ _ => o ∈ pending ∧ pending' = pending
  | .setState state _ c _ =>
      pending' = pending ∧ (∀ c' ∈ c, Job.CheckpointBelow c' pending) ∧
        (Job.Complete state → pending = [])
  | .event _ _ _ _ => pending' = pending

theorem Job.CheckpointBelow.of_suffix {c : Checkpoint} {l m : List ℕ}
    (h : CheckpointBelow c m) (hl : ∀ o ∈ l, o ∈ m) : CheckpointBelow c l :=
  fun k hk o ho => h k hk o (hl o ho)

theorem Consumes.pending_apply {w : JobWrite} {job : Job} {pending' : List ℕ}
    (h : Consumes w job.pending pending') : (job.apply w).pending = pending' := by
  cases w with
  | updateItems us c =>
      obtain ⟨-, hus, hpend, -⟩ := h
      exact ItemTable.pendingOrdinals_updateItems hus hpend
  | markRetry o n code text nextAt =>
      obtain ⟨ho, rfl⟩ := h
      exact ItemTable.pendingOrdinals_markRetry ho
  | setState state wait c clear => exact h.1.symm
  | event level code message member => exact h.symm

/-- A terminal item never changes under such a write. -/
theorem Consumes.terminal_apply {w : JobWrite} {job : Job} {pending' : List ℕ}
    (h : Consumes w job.pending pending') {r : Item} (hr : job.items.Terminal r) :
    (job.apply w).items.Terminal r := by
  cases w with
  | updateItems us c =>
      obtain ⟨-, hus, hpend, -⟩ := h
      exact hr.updateItems hus hpend
  | markRetry o n code text nextAt => exact hr.markRetry h.1
  | setState state wait c clear => exact hr
  | event level code message member => exact hr

theorem Consumes.eq_of_critical {w : JobWrite} {p q : List ℕ} (h : Consumes w p q)
    (hw : w.critical = true) : q = p := by
  cases w with
  | updateItems us c => exact absurd hw (by simp [JobWrite.critical])
  | markRetry o n code text nextAt => exact h.2
  | setState state wait c clear => exact h.1
  | event level code message member => exact h

theorem Consumes.suffix {w : JobWrite} {p q : List ℕ} (h : Consumes w p q) : q <:+ p := by
  cases w with
  | updateItems us c =>
      obtain ⟨-, -, rfl, -⟩ := h
      exact List.suffix_append _ _
  | _ => exact h.eq_of_critical rfl ▸ List.suffix_refl _

theorem length_updateItems (t : ItemTable) (us : List ItemUpdate) :
    (t.updateItems us).rows.length = t.rows.length := by
  induction us generalizing t with
  | nil => rfl
  | cons u us ih => exact (ih (t.updateItem u)).trans (t.length_modifyAt _ _ _)

/-- **The rows stay truthful.** -/
theorem Consumes.consistent_apply {w : JobWrite} {job : Job} {pending' : List ℕ}
    (h : Consumes w job.pending pending') (hj : job.Consistent) :
    (job.apply w).Consistent := by
  have hpend := h.pending_apply
  have hsub : ∀ o ∈ pending', o ∈ job.pending := fun o ho => h.suffix.subset ho
  refine ⟨?_, ?_, ?_⟩
  · cases w with
    | updateItems us c =>
        have htotal : job.counters.total = job.items.rows.length := by rw [hj.counters]; rfl
        simp only [Job.apply, htotal, length_updateItems]
    | markRetry o n code text nextAt =>
        have hlen : (job.items.markRetry o n code text nextAt).rows.length =
            job.items.rows.length := ItemTable.length_modifyAt _ _ _ _
        simp only [Job.apply, hj.counters, Job.recount, hlen,
          ItemTable.count_markRetry h.1 (rfl : MigrationItemState.success.pending = false),
          ItemTable.count_markRetry h.1 (rfl : MigrationItemState.skipped.pending = false),
          ItemTable.count_markRetry h.1 (rfl : MigrationItemState.failed.pending = false)]
    | setState state wait c clear => exact hj.counters
    | event level code message member => exact hj.counters
  · rw [hpend]
    have hold := hj.checkpoint.of_suffix hsub
    cases w with
    | updateItems us c =>
        rw [Job.checkpoint_apply, JobWrite.checkpoint, truthy]
        cases c with
        | none => exact hold
        | some c =>
            split
            · exact hold
            · exact h.2.2.2 c rfl
    | markRetry o n code text nextAt => exact hold
    | setState state wait c clear =>
        cases c with
        | none => exact hold
        | some c => exact h.1 ▸ h.2.1 c rfl
    | event level code message member => exact hold
  · rw [hpend]
    cases w with
    | setState state wait c clear => exact fun hc => h.1 ▸ h.2.2 hc
    | updateItems us c =>
        intro hc
        exact List.eq_nil_iff_forall_not_mem.mpr fun o ho => by
          simpa [hj.complete hc] using hsub o ho
    | markRetry o n code text nextAt =>
        intro hc
        rw [h.2]
        exact hj.complete hc
    | event level code message member =>
        intro hc
        have heq : pending' = job.pending := h
        rw [heq]
        exact hj.complete hc

end Jobs
end MigrationStudio
