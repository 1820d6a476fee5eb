import MigrationStudio.Runtime.DBWriter

/-!
# What coalescing costs

`DBWriter` coalesces routine tasks into one transaction, so the tasks of a batch are committed or
rolled back together.  This file compares the drained writer with the reference that runs each
task alone.

* `coalesced_failure`: two routine tasks, the second of which raises.  In one batch both fail and
  nothing is written; with a timeout between them the first is committed.
* `drained_writer_runs_batches`: for every placement of the boundaries the outcome is that of the
  batches, each as one transaction; and as long as no routine task raises one by one, it is the
  outcome of the tasks one by one, wherever the boundaries fall and whichever critical tasks
  raise.
-/

namespace MigrationStudio
namespace Runtime

open Foundations

variable {τ σ ε ρ : Type*}

namespace DBWriter

/-- Every submitted task has been committed or failed. -/
def Drained (w : DBWriter τ σ ε ρ) : Prop := w.waiting = []

/-- The futures of all submitted tasks, in submission order. -/
def outcomes (w : DBWriter τ σ ε ρ) : List (Option (Except ε ρ)) :=
  (List.range w.submitted.length).map w.future

end DBWriter

/-- No routine task raises when the tasks run one by one. -/
def RoutineSucceed (S : WriterSpec τ σ ε ρ) (ts : List τ) (db : σ) : Prop :=
  ∀ p ∈ ts.zip (oneByOne S.operation ts db).2, S.critical p.1 = false → Succeeded p.2

/-! ## A batch against its tasks alone -/

theorem RoutineSucceed.append {S : WriterSpec τ σ ε ρ} {ts us : List τ} {db : σ}
    (h : RoutineSucceed S (ts ++ us) db) :
    RoutineSucceed S ts db ∧ RoutineSucceed S us (oneByOne S.operation ts db).1 := by
  rw [RoutineSucceed, oneByOne_append, List.zip_append (by simp)] at h
  exact ⟨fun p hp => h p (List.mem_append_left _ hp),
    fun p hp => h p (List.mem_append_right _ hp)⟩

/-- A batch in which no routine task raises one by one is committed as its tasks alone: a
critical task is alone anyway. -/
theorem commitTransaction_of_isBatch {S : WriterSpec τ σ ε ρ} {b : List τ} {db : σ}
    (hb : S.IsBatch b) (h : RoutineSucceed S b db) :
    commitTransaction S.operation b db = oneByOne S.operation b db := by
  rcases hb with ⟨t, rfl, -⟩ | ⟨-, -, hrout⟩
  · exact (oneByOne_singleton t db).symm
  · refine commitTransaction_eq_oneByOne fun o ho => ?_
    obtain ⟨i, hi, rfl⟩ := List.mem_iff_getElem.mp ho
    have hib : i < b.length := by simpa using hi
    have hmem : (b[i], (oneByOne S.operation b db).2[i]) ∈
        b.zip (oneByOne S.operation b db).2 := by
      rw [List.mem_iff_getElem]
      exact ⟨i, by simpa using hib, by simp⟩
    exact h _ hmem (hrout _ (List.getElem_mem hib))

theorem commitBatches_eq_oneByOne {S : WriterSpec τ σ ε ρ} {bs : List (List τ)} {db : σ}
    (hbs : ∀ b ∈ bs, S.IsBatch b) (h : RoutineSucceed S bs.flatten db) :
    commitBatches S.operation bs db = oneByOne S.operation bs.flatten db := by
  induction bs generalizing db with
  | nil => rfl
  | cons b bs ih =>
      rw [List.flatten_cons] at h ⊢
      obtain ⟨hhead, htail⟩ := h.append
      have hb := commitTransaction_of_isBatch (hbs b (List.mem_cons_self ..)) hhead
      rw [oneByOne_append, commitBatches, hb,
        ih (fun c hc => hbs c (List.mem_cons_of_mem _ hc)) htail]

/-! ## The drained writer -/

theorem Committed.outcomes_eq {S : WriterSpec τ σ ε ρ} {db₀ : σ} {w : DBWriter τ σ ε ρ}
    {bs : List (List τ)} (h : Committed S db₀ w bs) (hd : w.Drained) :
    w.submitted = bs.flatten ∧
      w.outcomes = (commitBatches S.operation bs db₀).2.map some := by
  have hsub : w.submitted = bs.flatten := by
    rw [h.submitted, hd, List.map_nil, List.append_nil]
  refine ⟨hsub, List.ext_getElem (by simp [DBWriter.outcomes, hsub, length_commitBatches])
    fun i h₁ h₂ => ?_⟩
  rw [List.length_map] at h₂
  simp only [DBWriter.outcomes, List.getElem_map, List.getElem_range, h.future_eq,
    List.getElem?_eq_getElem h₂]

/-- **A drained writer has run the batches.**  The submitted tasks are cut into batches, a
critical task alone in its own; each batch is one transaction, in which either every operation is
committed or one raises, nothing is committed and every future of the batch holds that exception.
As long as no routine task raises one by one, the database and the outcomes are those of the tasks
one by one, whatever the placement of the boundaries. -/
theorem drained_writer_runs_batches (S : WriterSpec τ σ ε ρ) (db₀ : σ)
    (ls : List (WriterLabel τ)) (w : DBWriter τ σ ε ρ)
    (h : runLabels (DBWriter.step S) (DBWriter.start db₀) ls = some w) (hd : w.Drained) :
    (∃ bs : List (List τ), bs.flatten = w.submitted ∧ (∀ b ∈ bs, S.IsBatch b) ∧
        w.database = (commitBatches S.operation bs db₀).1 ∧
        w.outcomes = (commitBatches S.operation bs db₀).2.map some) ∧
      (RoutineSucceed S w.submitted db₀ →
        w.database = (oneByOne S.operation w.submitted db₀).1 ∧
        w.outcomes = (oneByOne S.operation w.submitted db₀).2.map some) := by
  obtain ⟨bs, hbs⟩ := writer_commits_batches h
  obtain ⟨hsub, hout⟩ := hbs.outcomes_eq hd
  refine ⟨⟨bs, hsub.symm, hbs.ledger.shape, hbs.ledger.database, hout⟩, fun hrout => ?_⟩
  rw [hsub] at hrout ⊢
  have heq := commitBatches_eq_oneByOne hbs.ledger.shape hrout
  rw [hout, hbs.ledger.database, heq]
  exact ⟨rfl, rfl⟩

/-! ## Two tasks, one of which raises -/

/-- **Coalescing loses the neighbour of a failing task.**  The same two routine tasks, with the
second raising: coalesced into one batch nothing is written and both futures fail; with a timeout
between them the first row is committed, as when the tasks run one by one. -/
theorem coalesced_failure :
    ∃ w₁ w₂ : DBWriter RowTask (List ℕ) Unit ℕ,
      runLabels (DBWriter.step rowWriter) (DBWriter.start [])
          [.submit (.insert 7 false), .submit (.insertAndRaise 8 false), .get, .get, .timeout] =
        some w₁ ∧
      runLabels (DBWriter.step rowWriter) (DBWriter.start [])
          [.submit (.insert 7 false), .get, .timeout, .submit (.insertAndRaise 8 false), .get,
            .timeout] = some w₂ ∧
      w₁.Drained ∧ w₂.Drained ∧ w₁.submitted = w₂.submitted ∧
      w₁.database = [] ∧ w₁.outcomes = [some (.error ()), some (.error ())] ∧
      w₂.database = [7] ∧ w₂.outcomes = [some (.ok 0), some (.error ())] ∧
      oneByOne rowWriter.operation w₁.submitted [] = ([7], [.ok 0, .error ()]) :=
  ⟨_, _, rfl, rfl, rfl, rfl, rfl, rfl, rfl, rfl, rfl, rfl⟩

/-- A critical task that raises between two routine ones: the outcome is that of the tasks one by
one. -/
theorem drained_writer_runs_batches_rows :
    ∃ w : DBWriter RowTask (List ℕ) Unit ℕ,
      runLabels (DBWriter.step rowWriter) (DBWriter.start [])
          [.submit (.insert 1 false), .submit (.insertAndRaise 2 true),
            .submit (.insert 3 false), .get, .get, .get, .timeout] = some w ∧
      w.database = [1, 3] ∧
      w.outcomes = [some (.ok 0), some (.error ()), some (.ok 1)] := by
  refine ⟨_, rfl, ?_⟩
  have h := (drained_writer_runs_batches rowWriter []
    [.submit (.insert 1 false), .submit (.insertAndRaise 2 true),
      .submit (.insert 3 false), .get, .get, .get, .timeout] _ rfl rfl).2
  have hrout : RoutineSucceed rowWriter
      [.insert 1 false, .insertAndRaise 2 true, .insert 3 false] [] := by
    intro p hp hcrit
    simp only [oneByOne, commitTransaction, transaction, rowWriter, List.zip_cons_cons,
      List.mem_cons, List.map_cons, List.map_nil, List.cons_append, List.nil_append,
      List.zip_nil_left, List.not_mem_nil, or_false] at hp
    rcases hp with rfl | rfl | rfl
    · exact succeeded_ok _
    · simp [rowWriter] at hcrit
    · exact succeeded_ok _
  exact h hrout

end Runtime
end MigrationStudio
