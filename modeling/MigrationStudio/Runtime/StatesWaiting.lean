import MigrationStudio.Migration.FinalStates
import MigrationStudio.Runtime.JobLane

/-!
# The states that wait

The lane of the writer holds states of many jobs.  What the row of a job can come to is decided by
those that wait for it: when only final states wait, a final state stays final, and when none waits
that is final, an open job stays open.

* `OnlyFinal`, `NoState`, `StillOpen`: what waits for a job.
* `OfType`, `OneShot`: the type of a job, which no write changes.
* `terminal_lane`: the writer thread takes no final state back.
-/

namespace MigrationStudio
namespace Runtime

open Foundations MigrationStudio.Core Accounts Jobs Telegram Storage Migration

/-! ## The states of a job in the lane -/

section States

variable {id : JobId} {db : Database} {waiting waiting' : List (ℕ × WriteTask)} {w w' : Lane}
  {wl : WriterLabel WriteTask}

/-- Only final states wait for the job. -/
def OnlyFinal (id : JobId) (waiting : List (ℕ × WriteTask)) : Prop :=
  ∀ p ∈ waiting, ∀ st, p.2.write.jobState id = some st → st.terminal = true

/-- No state waits for the job. -/
def NoState (id : JobId) (waiting : List (ℕ × WriteTask)) : Prop :=
  ∀ p ∈ waiting, p.2.write.jobState id = none

/-- The job is in no final state, and none waits. -/
structure StillOpen (id : JobId) (db : Database) (waiting : List (ℕ × WriteTask)) : Prop where
  row : ∀ row, db.jobs[id]? = some row → row.state.terminal = false
  waiting : ∀ p ∈ waiting, ∀ st, p.2.write.jobState id = some st → st.terminal = false

/-- The job is of the type. -/
def OfType (id : JobId) (type : JobType) (db : Database) : Prop :=
  ∃ row, db.jobs[id]? = some row ∧ row.jobType = type

/-- The job is an import, an export or a pre-check. -/
def OneShot (id : JobId) (db : Database) : Prop :=
  ∃ row, db.jobs[id]? = some row ∧ row.jobType ≠ .migration ∧ row.jobType ≠ .scan

theorem OfType.unique {t t' : JobType} (h : OfType id t db) (h' : OfType id t' db) : t = t' := by
  obtain ⟨row, hrow, rfl⟩ := h
  obtain ⟨row', hrow', rfl⟩ := h'
  rw [Option.some.inj (hrow.symm.trans hrow')]

theorem OneShot.not_migration (h : OneShot id db) : ¬ OfType id .migration db := by
  rintro ⟨row', hrow', htype⟩
  obtain ⟨row, hrow, hne, -⟩ := h
  rw [Option.some.inj (hrow'.symm.trans hrow)] at htype
  exact hne htype

theorem OneShot.not_scan (h : OneShot id db) : ¬ OfType id .scan db := by
  rintro ⟨row', hrow', htype⟩
  obtain ⟨row, hrow, -, hne⟩ := h
  rw [Option.some.inj (hrow'.symm.trans hrow)] at htype
  exact hne htype

theorem NoState.onlyFinal (h : NoState id waiting) : OnlyFinal id waiting :=
  fun p hp st hst => absurd ((h p hp).symm.trans hst) (by simp)

theorem NoState.stillOpen (h : NoState id waiting)
    (hrow : ∀ row, db.jobs[id]? = some row → row.state.terminal = false) :
    StillOpen id db waiting :=
  ⟨hrow, fun p hp st hst => absurd ((h p hp).symm.trans hst) (by simp)⟩

theorem OnlyFinal.submit (h : OnlyFinal id w.waiting) {t : WriteTask}
    (ht : ∀ st, t.write.jobState id = some st → st.terminal = true) :
    OnlyFinal id (w.submit t).waiting := by
  intro p hp st hst
  rw [App.waiting_submit] at hp
  rcases List.mem_append.mp hp with hp | hp
  · exact h p hp st hst
  · rw [List.mem_singleton.mp hp] at hst
    exact ht st hst

theorem StillOpen.submit (h : StillOpen id db w.waiting) {t : WriteTask}
    (ht : ∀ st, t.write.jobState id = some st → st.terminal = false) :
    StillOpen id db (w.submit t).waiting := by
  refine ⟨h.row, fun p hp st hst => ?_⟩
  rw [App.waiting_submit] at hp
  rcases List.mem_append.mp hp with hp | hp
  · exact h.waiting p hp st hst
  · rw [List.mem_singleton.mp hp] at hst
    exact ht st hst

/-- The row of a job after a write: the state is that of the write, if it gives one. -/
theorem row_apply {v : LaneWrite} {row' : Job} (h : (db.apply v).jobs[id]? = some row') :
    ∃ row, db.jobs[id]? = some row ∧ row'.jobType = row.jobType ∧
      row'.state = (v.jobState id).getD row.state := by
  rw [Database.jobs_apply] at h
  cases hv : v.ofJob id with
  | none =>
      rw [hv] at h
      exact ⟨row', h, rfl, by rw [LaneWrite.jobState, hv]; rfl⟩
  | some jw =>
      rw [hv] at h
      obtain ⟨row, hrow, rfl⟩ := Option.map_eq_some_iff.mp h
      refine ⟨row, hrow, by cases jw <;> rfl, ?_⟩
      rw [LaneWrite.jobState, hv]
      exact state_apply row jw

/-- No row disappears. -/
theorem row_apply_of_row {row : Job} (h : db.jobs[id]? = some row) (v : LaneWrite) :
    ∃ row', (db.apply v).jobs[id]? = some row' := by
  rw [Database.jobs_apply, h]
  cases v.ofJob id with
  | none => exact ⟨row, rfl⟩
  | some jw => exact ⟨row.apply jw, rfl⟩

theorem OfType.apply {t : JobType} (h : OfType id t db) (v : LaneWrite) :
    OfType id t (db.apply v) := by
  obtain ⟨row, hrow, rfl⟩ := h
  obtain ⟨row', hrow'⟩ := row_apply_of_row hrow v
  obtain ⟨row₀, hrow₀, htype, -⟩ := row_apply hrow'
  obtain rfl := Option.some.inj (hrow.symm.trans hrow₀)
  exact ⟨row', hrow', htype⟩

/-- The writer thread changes no type. -/
theorem OfType.lane {t : JobType} (h : OfType id t w.database) (hl : ∀ t, wl ≠ .submit t)
    (hstep : w.step lane wl = some w') : OfType id t w'.database := by
  refine DBWriter.step_rule (I := fun db _ => OfType id t db) ?_ hl hstep
    (fun _ _ _ _ _ _ _ h => h) h
  rintro db p rest db' r hop h
  obtain ⟨-, rfl⟩ := operation_eq_ok hop
  exact h.apply _

theorem OneShot.lane (h : OneShot id w.database) (hl : ∀ t, wl ≠ .submit t)
    (hstep : w.step lane wl = some w') : OneShot id w'.database := by
  obtain ⟨row, hrow, hmigration, hscan⟩ := h
  obtain ⟨row', hrow', htype⟩ := OfType.lane (t := row.jobType) ⟨row, hrow, rfl⟩ hl hstep
  exact ⟨row', hrow', htype ▸ hmigration, htype ▸ hscan⟩

theorem OnlyFinal.lane (h : OnlyFinal id w.waiting) (hl : ∀ t, wl ≠ .submit t)
    (hstep : w.step lane wl = some w') : OnlyFinal id w'.waiting :=
  fun p hp => h p (App.mem_waiting_step hl hstep hp)

/-- A job that is still open stays so. -/
theorem StillOpen.lane (h : StillOpen id w.database w.waiting) (hl : ∀ t, wl ≠ .submit t)
    (hstep : w.step lane wl = some w') : StillOpen id w'.database w'.waiting := by
  refine DBWriter.step_rule (I := StillOpen id) ?_ hl hstep ?_ h
  · rintro db p rest db' r hop h
    obtain ⟨-, rfl⟩ := operation_eq_ok hop
    refine ⟨fun row' hrow' => ?_, fun q hq => h.waiting q (List.mem_cons_of_mem _ hq)⟩
    obtain ⟨row, hrow, -, hstate⟩ := row_apply hrow'
    rw [hstate]
    cases hst : p.2.write.jobState id with
    | none => exact h.row row hrow
    | some st => exact h.waiting p (List.mem_cons_self ..) st hst
  · rintro b - rest db db' e - h
    exact ⟨h.row, fun q hq => h.waiting q (List.mem_append_right _ hq)⟩

/-- **A final state stays final** when only final states wait. -/
theorem terminal_lane (h : OnlyFinal id w.waiting) (hl : ∀ t, wl ≠ .submit t)
    (hstep : w.step lane wl = some w') {row row' : Job} (hrow : w.database.jobs[id]? = some row)
    (hrow' : w'.database.jobs[id]? = some row') (hterminal : row.state.terminal = true) :
    row'.state.terminal = true := by
  have hrule : (∀ row', w'.database.jobs[id]? = some row' → row'.state.terminal = true) ∧
      OnlyFinal id w'.waiting := by
    refine DBWriter.step_rule
      (I := fun db waiting => (∀ row, db.jobs[id]? = some row → row.state.terminal = true) ∧
        OnlyFinal id waiting) ?_ hl hstep ?_ ⟨fun row₀ hrow₀ => ?_, h⟩
    · rintro db p rest db' r hop ⟨hdb, hfinal⟩
      obtain ⟨-, rfl⟩ := operation_eq_ok hop
      refine ⟨fun row' hrow' => ?_, fun q hq => hfinal q (List.mem_cons_of_mem _ hq)⟩
      obtain ⟨row, hrow, -, hstate⟩ := row_apply hrow'
      rw [hstate]
      cases hst : p.2.write.jobState id with
      | none => exact hdb row hrow
      | some st => exact hfinal p (List.mem_cons_self ..) st hst
    · rintro b - rest db db' e - ⟨hdb, hfinal⟩
      exact ⟨hdb, fun q hq => hfinal q (List.mem_append_right _ hq)⟩
    · rw [← Option.some.inj (hrow.symm.trans hrow₀)]
      exact hterminal
  exact hrule.1 row' hrow'

end States

end Runtime
end MigrationStudio
