import MigrationStudio.Storage.Database

/-!
# `migration/candidate_buffer.py`

The window of candidates that the executor pops from.  `_submit_fill` hands `pending_chunk` to a
worker thread; the worker reads the committed database at some moment after that, and
`_finish_fill` waits for its rows.  `loading` is the future of the read: requested, or read and
not yet received.
-/

namespace MigrationStudio
namespace Migration

open MigrationStudio.Core Telegram Storage

/-- `BufferedCandidate`. -/
structure BufferedCandidate where
  ordinal : ℕ
  member : Member
  persistedAttempts : ℕ
  deriving DecidableEq, Repr

/-- `_loading`: a read that a worker has still to do, or the rows it returned. -/
inductive Loading where
  | requested
  | ready (rows : List Database.CandidateRow)
  deriving DecidableEq, Repr

/-- `CandidateBuffer`. -/
structure CandidateBuffer where
  queue : List BufferedCandidate := []
  lastLoaded : ℤ := -1
  loading : Option Loading := none
  exhausted : Bool := false
  deriving DecidableEq, Repr

namespace CandidateBuffer

/-- `chunk_size`, for the default argument that the executor leaves. -/
def chunkSize : ℕ := max CANDIDATE_PREFETCH_MIN (min CANDIDATE_PREFETCH_MAX CANDIDATE_PREFETCH_MIN)

/-- `low_watermark`. -/
def lowWatermark : ℕ := max 50 (chunkSize / 4)

theorem chunkSize_pos : 0 < chunkSize := by decide

/-- `_submit_fill`. -/
def submitFill (b : CandidateBuffer) : CandidateBuffer :=
  if b.loading.isSome || b.exhausted then b else { b with loading := some .requested }

/-- The worker runs `pending_chunk` on the committed database. -/
def read (b : CandidateBuffer) (db : Database) (id : JobId) (account : AccountId) :
    Option CandidateBuffer :=
  match b.loading with
  | some .requested =>
      some { b with loading := some (.ready (db.pendingChunk id account b.lastLoaded chunkSize)) }
  | _ => none

/-- The candidate of a row. -/
def ofRow (row : Database.CandidateRow) : BufferedCandidate where
  ordinal := row.ordinal
  member := ⟨row.telegramUserId, row.accountAccessHash⟩
  persistedAttempts := row.attemptCount

/-- The end of `_finish_fill`, when the rows have arrived. -/
def receive (b : CandidateBuffer) (rows : List Database.CandidateRow) : CandidateBuffer :=
  match rows.getLast? with
  | none => { b with loading := none, exhausted := true }
  | some last =>
      { b with
        queue := b.queue ++ rows.map ofRow
        lastLoaded := last.ordinal
        loading := none }

/-- The candidate that `pop` returns from a queue that is not empty. -/
def take (b : CandidateBuffer) : Option (BufferedCandidate × CandidateBuffer) :=
  match b.queue with
  | [] => none
  | item :: queue =>
      let b' := { b with queue := queue }
      some (item, if queue.length ≤ lowWatermark then b'.submitFill else b')

@[simp] theorem queue_submitFill (b : CandidateBuffer) : b.submitFill.queue = b.queue := by
  rw [submitFill]
  split <;> rfl

@[simp] theorem lastLoaded_submitFill (b : CandidateBuffer) :
    b.submitFill.lastLoaded = b.lastLoaded := by
  rw [submitFill]
  split <;> rfl

@[simp] theorem exhausted_submitFill (b : CandidateBuffer) :
    b.submitFill.exhausted = b.exhausted := by
  rw [submitFill]
  split <;> rfl

/-- `submitFill` starts a read or leaves the future as it is. -/
theorem loading_submitFill (b : CandidateBuffer) :
    b.submitFill.loading = b.loading ∨
      (b.loading = none ∧ b.submitFill.loading = some .requested) := by
  rw [submitFill]
  split
  · exact Or.inl rfl
  · rename_i h
    rw [Bool.or_eq_true, not_or, Option.isSome_iff_ne_none, not_not] at h
    exact Or.inr ⟨h.1, rfl⟩

theorem take_eq_some {b b' : CandidateBuffer} {item : BufferedCandidate}
    (h : b.take = some (item, b')) :
    b.queue = item :: b'.queue ∧ b'.lastLoaded = b.lastLoaded ∧
      b'.exhausted = b.exhausted ∧
      (b'.loading = b.loading ∨ (b.loading = none ∧ b'.loading = some .requested)) := by
  rw [take] at h
  split at h
  · exact absurd h (by simp)
  · rename_i item' queue hq
    simp only [Option.some.injEq, Prod.mk.injEq] at h
    obtain ⟨rfl, rfl⟩ := h
    split
    · have hl := loading_submitFill { b with queue := queue }
      simp [hq, hl]
    · simp [hq]

end CandidateBuffer

end Migration
end MigrationStudio
