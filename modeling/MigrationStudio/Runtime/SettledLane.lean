import MigrationStudio.Runtime.JobLane

/-!
# The lane when nothing fails

A write that does not raise is committed sooner or later, and in the order of submission.  When no
waiting write raises, the writer thread can therefore be taken away: `settled` is the database once
everything that waits is committed, a submitted write acts on it at once, and the thread does not
change it.

* `nothing_rule`: the rule of the writer thread for a lane in which nothing fails.
* `settled_submit`, `settled_step`: the settled database.
* `jobs_settle`, `journal_settle`: what it shows of a job.
* `FuturesOk`: no future holds an exception.
-/

namespace MigrationStudio
namespace Runtime

open Foundations MigrationStudio.Core Accounts Jobs Telegram Storage Migration

variable {id : JobId} {w w' : Lane} {wl : WriterLabel WriteTask}

/-- No waiting write raises. -/
def NothingRaises (w : Lane) : Prop := ∀ p ∈ w.waiting, p.2.fails = none

theorem NothingRaises.submit (h : NothingRaises w) {t : WriteTask} (ht : t.fails = none) :
    NothingRaises (w.submit t) := by
  intro p hp
  rw [App.waiting_submit] at hp
  rcases List.mem_append.mp hp with hp | hp
  · exact h p hp
  · rw [List.mem_singleton.mp hp]
    exact ht

theorem NothingRaises.step (h : NothingRaises w) (hl : ∀ t, wl ≠ .submit t)
    (hstep : w.step lane wl = some w') : NothingRaises w' :=
  fun p hp => h p (App.mem_waiting_step hl hstep hp)

/-- **The rule of the writer thread when nothing fails.**  A property of the committed database and
the waiting tasks survives if it survives the commit of the first waiting task. -/
theorem nothing_rule {I : Database → List (ℕ × WriteTask) → Prop}
    (hcommit : ∀ db p rest, I db (p :: rest) → I (db.apply p.2.write) rest)
    (hnothing : NothingRaises w) (hl : ∀ t, wl ≠ .submit t)
    (hstep : w.step lane wl = some w') (h : I w.database w.waiting) :
    I w'.database w'.waiting := by
  have hrule := DBWriter.step_rule (S := lane)
    (I := fun db waiting => (∀ p ∈ waiting, p.2.fails = none) ∧ I db waiting) ?_ hl hstep ?_
    ⟨hnothing, h⟩
  · exact hrule.2
  · rintro db p rest db' r hop ⟨hall, hI⟩
    obtain ⟨-, rfl⟩ := operation_eq_ok hop
    exact ⟨fun q hq => hall q (List.mem_cons_of_mem _ hq), hcommit db p rest hI⟩
  · rintro b - rest db db' e hfail ⟨hall, -⟩
    obtain ⟨t, ht, hraise⟩ := fails_of_transaction hfail
    obtain ⟨p, hp, rfl⟩ := List.mem_map.mp ht
    exact absurd (hall p (List.mem_append_left _ hp)) hraise

/-! ## The settled database -/

/-- The database after the waiting tasks. -/
def settle (db : Database) (waiting : List (ℕ × WriteTask)) : Database :=
  waiting.foldl (fun db p => db.apply p.2.write) db

/-- The database once everything that waits is committed. -/
def settled (w : Lane) : Database := settle w.database w.waiting

/-- A submitted write acts on it at once. -/
theorem settled_submit (w : Lane) (t : WriteTask) :
    settled (w.submit t) = (settled w).apply t.write := by
  rw [settled, App.waiting_submit, settle, List.foldl_append]
  rfl

/-- **The writer thread does not change it.** -/
theorem settled_step (hnothing : NothingRaises w) (hl : ∀ t, wl ≠ .submit t)
    (hstep : w.step lane wl = some w') : settled w' = settled w :=
  nothing_rule (I := fun db waiting => settle db waiting = settled w) (fun _ _ _ h => h) hnothing hl
    hstep rfl

theorem jobs_settle (db : Database) (waiting : List (ℕ × WriteTask)) :
    (settle db waiting).jobs[id]? =
      (db.jobs[id]?).map fun job => (laneOf id waiting).foldl Job.apply job := by
  induction waiting generalizing db with
  | nil => simp [settle, laneOf]
  | cons p waiting ih =>
      have hrest := ih (db.apply p.2.write)
      rw [Database.jobs_apply] at hrest
      simp only [laneOf_cons, List.foldl_append]
      refine hrest.trans ?_
      cases hw : p.2.write.ofJob id with
      | none => rfl
      | some jw =>
          rw [Option.map_map]
          rfl

/-- When no write of the job waits, its row is the committed one. -/
theorem jobs_settled_of_nil (h : laneOf id w.waiting = []) :
    (settled w).jobs[id]? = w.database.jobs[id]? := by
  rw [settled, jobs_settle, h]
  simp

theorem journal_apply (db : Database) (v : LaneWrite) :
    ∃ later, (db.apply v).journal = db.journal ++ later := by
  cases v with
  | job k jw =>
      rw [Database.apply, Database.applyJob]
      split
      · exact ⟨[], (List.append_nil _).symm⟩
      · exact ⟨_, rfl⟩
  | _ => exact ⟨[], (List.append_nil _).symm⟩

/-- A new entry of the journal is the write, with the row after it. -/
theorem mem_drop_journal_apply {db : Database} {v : LaneWrite} {n : ℕ}
    (hn : n ≤ db.journal.length) {entry : JobId × JobWrite × Job}
    (h : entry ∈ (db.apply v).journal.drop n) :
    entry ∈ db.journal.drop n ∨ ∃ row, v.ofJob entry.1 = some entry.2.1 ∧
      db.jobs[entry.1]? = some row ∧ entry.2.2 = row.apply entry.2.1 := by
  cases v with
  | job k jw =>
      rw [Database.apply, Database.applyJob] at h
      cases hrow : db.jobs[k]? with
      | none =>
          rw [hrow] at h
          exact Or.inl h
      | some row =>
          rw [hrow, List.drop_append_of_le_length hn] at h
          refine (List.mem_append.mp h).imp_right fun hnew => ?_
          rw [List.mem_singleton.mp hnew]
          exact ⟨row, if_pos rfl, hrow, rfl⟩
  | _ => exact Or.inl h

/-- What is committed is the beginning of the settled journal. -/
theorem journal_settle (db : Database) (waiting : List (ℕ × WriteTask)) :
    ∃ later, (settle db waiting).journal = db.journal ++ later := by
  induction waiting generalizing db with
  | nil => exact ⟨[], (List.append_nil _).symm⟩
  | cons p waiting ih =>
      obtain ⟨first, hfirst⟩ := journal_apply db p.2.write
      obtain ⟨later, hlater⟩ := ih (db.apply p.2.write)
      exact ⟨first ++ later, by rw [← List.append_assoc, ← hfirst, ← hlater]; rfl⟩

/-! ## The futures of a writer in which nothing fails -/

/-- No future holds an exception. -/
def FuturesOk (w : Lane) : Prop := ∀ p ∈ w.resolved, p.2 = .ok ()

/-- A batch in which nothing raises adds results. -/
theorem exists_resolved_commitBatch {w : Lane} {b : List (ℕ × WriteTask)}
    (hb : ∀ p ∈ b, p.2.fails = none) :
    ∃ later, (w.commitBatch lane b).resolved = w.resolved ++ later ∧ ∀ p ∈ later, p.2 = .ok () := by
  rw [DBWriter.commitBatch]
  split
  · exact ⟨[], (List.append_nil _).symm, by simp⟩
  · refine ⟨_, rfl, fun p hp => ?_⟩
    rcases ht : transaction lane.operation (b.map Prod.snd) w.database with ⟨db', e | rs⟩
    · obtain ⟨t, htask, hfails⟩ := fails_of_transaction ht
      obtain ⟨q, hq, rfl⟩ := List.mem_map.mp htask
      exact absurd (hb q hq) hfails
    · rw [commitTransaction_of_ok ht] at hp
      obtain ⟨r, -, hr⟩ := List.mem_map.mp (List.of_mem_zip hp).2
      exact hr.symm

/-- **The thread adds results** while nothing that waits raises. -/
theorem exists_resolved_step {w w' : Lane} {wl : WriterLabel WriteTask} (hnothing : NothingRaises w)
    (hl : ∀ t, wl ≠ .submit t) (hstep : w.step lane wl = some w') :
    ∃ later, w'.resolved = w.resolved ++ later ∧ ∀ p ∈ later, p.2 = .ok () := by
  have hpending : ∀ p ∈ w.pending, p.2.fails = none :=
    fun p hp => hnothing p (List.mem_append_left _ hp)
  cases wl with
  | submit t => exact absurd rfl (hl t)
  | timeout =>
      rw [DBWriter.step, DBWriter.timeout] at hstep
      split at hstep
      · obtain rfl := Option.some.inj hstep
        exact exists_resolved_commitBatch hpending
      · exact absurd hstep (by simp)
  | get =>
      rw [DBWriter.step, DBWriter.get] at hstep
      split at hstep
      · exact absurd hstep (by simp)
      · rename_i item rest hqueue
        have hitem : ∀ p ∈ [item], p.2.fails = none := by
          intro p hp
          refine hnothing p (List.mem_append_right _ ?_)
          rw [hqueue, List.mem_singleton.mp hp]
          exact List.mem_cons_self ..
        split_ifs at hstep <;> obtain rfl := Option.some.inj hstep
        · obtain ⟨first, hfirst, hok⟩ := exists_resolved_commitBatch (w := w) hpending
          obtain ⟨second, hsecond, hok'⟩ :=
            exists_resolved_commitBatch (w := w.commitBatch lane w.pending) hitem
          refine ⟨first ++ second, by rw [← List.append_assoc, ← hfirst]; exact hsecond, ?_⟩
          exact fun p hp => (List.mem_append.mp hp).elim (hok p) (hok' p)
        · exact exists_resolved_commitBatch fun p hp =>
            (List.mem_append.mp hp).elim (hpending p) (hitem p)
        · exact ⟨[], (List.append_nil _).symm, by simp⟩

theorem FuturesOk.step {w w' : Lane} (h : FuturesOk w) {wl : WriterLabel WriteTask}
    (hnothing : ∀ p ∈ w.waiting, p.2.fails = none) (hl : ∀ t, wl ≠ .submit t)
    (hstep : w.step lane wl = some w') : FuturesOk w' := by
  obtain ⟨later, hlater, hok⟩ := exists_resolved_step hnothing hl hstep
  intro p hp
  rw [hlater] at hp
  exact (List.mem_append.mp hp).elim (h p) (hok p)

theorem FuturesOk.future {w : Lane} (h : FuturesOk w) {k : ℕ} {r : Except String Unit}
    (hr : w.future k = some r) : r = .ok () := by
  obtain ⟨before, after, hsplit, -⟩ := List.lookup_eq_some_iff.mp hr
  exact h (k, r) (by rw [hsplit]; simp)

end Runtime
end MigrationStudio
