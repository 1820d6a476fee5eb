import Mathlib.Data.List.Basic

/-!
# Operations in transactions

An operation of type `τ` acts on the store seen by the open transaction and then returns or
raises; what it did before raising is in the store it leaves behind, and goes away with the
rollback.  Three ways of executing a list of operations are compared.

* `transaction`: all of them inside one open transaction, up to the first that raises.
* `commitTransaction`: the same with `COMMIT` or `ROLLBACK` at the end, and one outcome for each
  operation.
* `oneByOne`: each operation alone in its own transaction.

`commitBatches` runs a list of batches, each as one transaction.  `commitTransaction_eq_oneByOne`
is the rule that takes coalescing away: a batch in which nothing raises one by one is committed
with the outcomes of the operations alone.
-/

namespace MigrationStudio
namespace Foundations

variable {τ σ ε ρ : Type*}

/-! ## One transaction -/

/-- The operations inside one open transaction: the store at the end and the results in order,
or the store and the exception at the first operation that raises. -/
def transaction (op : τ → σ → σ × Except ε ρ) : List τ → σ → σ × Except ε (List ρ)
  | [], s => (s, .ok [])
  | t :: ts, s =>
      match op t s with
      | (s', .error e) => (s', .error e)
      | (s', .ok r) =>
          match transaction op ts s' with
          | (s'', .error e) => (s'', .error e)
          | (s'', .ok rs) => (s'', .ok (r :: rs))

variable {op : τ → σ → σ × Except ε ρ}

@[simp] theorem transaction_nil (s : σ) : transaction op [] s = (s, .ok []) := rfl

theorem transaction_cons_eq_ok {t : τ} {ts : List τ} {s s' : σ} {rs : List ρ} :
    transaction op (t :: ts) s = (s', .ok rs) ↔
      ∃ u r rs', op t s = (u, .ok r) ∧ transaction op ts u = (s', .ok rs') ∧
        rs = r :: rs' := by
  rw [transaction]
  rcases h : op t s with ⟨u, _ | r⟩
  · simp
  · simp only [Prod.mk.injEq, Except.ok.injEq]
    rcases h' : transaction op ts u with ⟨v, _ | rs'⟩
    · simp [h']
    · simp only [Prod.mk.injEq, Except.ok.injEq]
      constructor
      · rintro ⟨rfl, rfl⟩
        exact ⟨u, r, rs', ⟨rfl, rfl⟩, h', rfl⟩
      · rintro ⟨u', r', rs'', ⟨rfl, rfl⟩, hts, rfl⟩
        rw [h', Prod.mk.injEq, Except.ok.injEq] at hts
        exact ⟨hts.1, by rw [hts.2]⟩

/-- Two runs of operations one after the other, in which nothing raises, make one. -/
theorem transaction_append {ts us : List τ} {s t u : σ} {rs qs : List ρ}
    (h₁ : transaction op ts s = (t, .ok rs)) (h₂ : transaction op us t = (u, .ok qs)) :
    transaction op (ts ++ us) s = (u, .ok (rs ++ qs)) := by
  induction ts generalizing s rs with
  | nil =>
      rw [transaction_nil, Prod.mk.injEq, Except.ok.injEq] at h₁
      obtain ⟨rfl, rfl⟩ := h₁
      exact h₂
  | cons x ts ih =>
      obtain ⟨v, r, rs', hx, hts, rfl⟩ := transaction_cons_eq_ok.mp h₁
      rw [List.cons_append, List.cons_append]
      exact transaction_cons_eq_ok.mpr ⟨v, r, rs' ++ qs, hx, ih hts, rfl⟩

theorem length_of_transaction {ts : List τ} {s s' : σ} {rs : List ρ}
    (h : transaction op ts s = (s', .ok rs)) : rs.length = ts.length := by
  induction ts generalizing s rs with
  | nil =>
      rw [transaction_nil, Prod.mk.injEq, Except.ok.injEq] at h
      rw [← h.2]
      rfl
  | cons t ts ih =>
      obtain ⟨u, r, rs', -, hts, rfl⟩ := transaction_cons_eq_ok.mp h
      rw [List.length_cons, List.length_cons, ih hts]

/-! ## Commit and rollback -/

/-- `BEGIN`, the operations, `COMMIT`; on an exception `ROLLBACK`, and every operation of the
transaction reports that exception. -/
def commitTransaction (op : τ → σ → σ × Except ε ρ) (ts : List τ) (s : σ) :
    σ × List (Except ε ρ) :=
  match transaction op ts s with
  | (s', .ok rs) => (s', rs.map .ok)
  | (_, .error e) => (s, ts.map fun _ => .error e)

theorem commitTransaction_of_ok {ts : List τ} {s s' : σ} {rs : List ρ}
    (h : transaction op ts s = (s', .ok rs)) :
    commitTransaction op ts s = (s', rs.map .ok) := by
  rw [commitTransaction, h]

theorem commitTransaction_of_error {ts : List τ} {s s' : σ} {e : ε}
    (h : transaction op ts s = (s', .error e)) :
    commitTransaction op ts s = (s, ts.map fun _ => .error e) := by
  rw [commitTransaction, h]

@[simp] theorem length_commitTransaction (ts : List τ) (s : σ) :
    (commitTransaction op ts s).2.length = ts.length := by
  rcases h : transaction op ts s with ⟨s', e | rs⟩
  · rw [commitTransaction_of_error h, List.length_map]
  · rw [commitTransaction_of_ok h, List.length_map, length_of_transaction h]

/-- Each operation alone in its own transaction, in order. -/
def oneByOne (op : τ → σ → σ × Except ε ρ) : List τ → σ → σ × List (Except ε ρ)
  | [], s => (s, [])
  | t :: ts, s =>
      let committed := commitTransaction op [t] s
      let rest := oneByOne op ts committed.1
      (rest.1, committed.2 ++ rest.2)

/-- Batches, each as one transaction, in order. -/
def commitBatches (op : τ → σ → σ × Except ε ρ) : List (List τ) → σ → σ × List (Except ε ρ)
  | [], s => (s, [])
  | b :: bs, s =>
      let committed := commitTransaction op b s
      let rest := commitBatches op bs committed.1
      (rest.1, committed.2 ++ rest.2)

@[simp] theorem length_oneByOne (ts : List τ) (s : σ) :
    (oneByOne op ts s).2.length = ts.length := by
  induction ts generalizing s with
  | nil => rfl
  | cons t ts ih => simp [oneByOne, ih, Nat.add_comm]

theorem oneByOne_append (ts us : List τ) (s : σ) :
    oneByOne op (ts ++ us) s =
      ((oneByOne op us (oneByOne op ts s).1).1,
        (oneByOne op ts s).2 ++ (oneByOne op us (oneByOne op ts s).1).2) := by
  induction ts generalizing s with
  | nil => rfl
  | cons t ts ih => simp only [List.cons_append, oneByOne, ih, List.append_assoc]

theorem commitBatches_append (bs cs : List (List τ)) (s : σ) :
    commitBatches op (bs ++ cs) s =
      ((commitBatches op cs (commitBatches op bs s).1).1,
        (commitBatches op bs s).2 ++ (commitBatches op cs (commitBatches op bs s).1).2) := by
  induction bs generalizing s with
  | nil => rfl
  | cons b bs ih => simp only [List.cons_append, commitBatches, ih, List.append_assoc]

/-- An outcome that holds a result. -/
def Succeeded (o : Except ε ρ) : Prop := ∃ r, o = .ok r

@[simp] theorem succeeded_ok (r : ρ) : Succeeded (.ok r : Except ε ρ) := ⟨r, rfl⟩

@[simp] theorem not_succeeded_error (e : ε) : ¬ Succeeded (.error e : Except ε ρ) :=
  fun ⟨_, h⟩ => Except.noConfusion rfl rfl (heq_of_eq h)

theorem oneByOne_singleton (t : τ) (s : σ) :
    oneByOne op [t] s = commitTransaction op [t] s := by
  simp [oneByOne]

/-- When nothing raises one by one, the operations run through in one transaction, with the
same store and the same results. -/
theorem transaction_of_oneByOne {ts : List τ} {s : σ}
    (h : ∀ o ∈ (oneByOne op ts s).2, Succeeded o) :
    ∃ rs, transaction op ts s = ((oneByOne op ts s).1, .ok rs) ∧
      (oneByOne op ts s).2 = rs.map .ok := by
  induction ts generalizing s with
  | nil => exact ⟨[], rfl, rfl⟩
  | cons t ts ih =>
      rcases ht : transaction op [t] s with ⟨u, e | qs⟩
      · -- the first operation raises: its outcome is the exception
        have hmem : (.error e : Except ε ρ) ∈ (oneByOne op (t :: ts) s).2 := by
          simp [oneByOne, commitTransaction_of_error ht]
        exact absurd (h _ hmem) (not_succeeded_error e)
      · have hhead := commitTransaction_of_ok ht
        obtain ⟨rs, hrs, hout⟩ := ih (s := u) fun o ho => h o <| by
          simp only [oneByOne, hhead]
          exact List.mem_append_right _ ho
        refine ⟨qs ++ rs, ?_, ?_⟩
        · simp only [oneByOne, hhead]
          exact transaction_append ht hrs
        · simp only [oneByOne, hhead, hout, List.map_append]

/-- **Coalescing changes nothing where nothing raises.** -/
theorem commitTransaction_eq_oneByOne {ts : List τ} {s : σ}
    (h : ∀ o ∈ (oneByOne op ts s).2, Succeeded o) :
    commitTransaction op ts s = oneByOne op ts s := by
  obtain ⟨rs, hrs, hout⟩ := transaction_of_oneByOne h
  rw [commitTransaction_of_ok hrs, ← hout]

end Foundations
end MigrationStudio
