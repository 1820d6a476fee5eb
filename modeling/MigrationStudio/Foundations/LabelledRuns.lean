import Mathlib.Data.List.Basic
import Mathlib.Data.List.Induction
import Mathlib.Data.Option.Basic

/-!
# Runs of a labelled step function

A component that several parties drive is written as a step function `σ → ℓ → Option σ`: the
label names who moves and with which outside choice, and `none` says that the move is not
possible in that state.  Being a function, it can be run on a list of labels; being partial, a
list of labels is an interleaving of the parties.

* `runLabels`: the state a list of labels leads to, with its composition rules.
* `Along C`: every step of the run meets a condition `C` on the state before the step and the
  label.  `along_append` cuts it at a point of the run.
* `invariant_runLabels`: the invariant rule.  What one step preserves whenever the step meets
  `C`, every run along `C` preserves.
* `invariant_of_prefix`: the same for an invariant that also looks at the labels so far.
* `exists_first_failure`: a run that is not along `C` has a first step that fails `C`.
* `forall_prefix_iff_along`: what is exact for every step is exact for the run.
* `countAlong`: what the steps of a run add up to; `countAlong_add_le` takes it from a budget.
* `Leads C`: some run along `C` leads from one state to another.  It is reflexive and transitive,
  so a run can be put together from its parts without naming the labels.
-/

namespace MigrationStudio
namespace Foundations

variable {σ ℓ : Type*}

/-! ## Runs -/

/-- The state that a list of labels leads to from `s`; `none` when one of them is not possible
where it is taken. -/
def runLabels (step : σ → ℓ → Option σ) : σ → List ℓ → Option σ
  | s, [] => some s
  | s, l :: ls => (step s l).bind fun s' => runLabels step s' ls

variable {step : σ → ℓ → Option σ}

@[simp] theorem runLabels_nil (s : σ) : runLabels step s [] = some s := rfl

theorem runLabels_cons (s : σ) (l : ℓ) (ls : List ℓ) :
    runLabels step s (l :: ls) = (step s l).bind fun s' => runLabels step s' ls := rfl

theorem runLabels_cons_eq_some {s s' : σ} {l : ℓ} {ls : List ℓ} :
    runLabels step s (l :: ls) = some s' ↔
      ∃ t, step s l = some t ∧ runLabels step t ls = some s' := by
  rw [runLabels_cons, Option.bind_eq_some_iff]

theorem runLabels_append (s : σ) (ls ms : List ℓ) :
    runLabels step s (ls ++ ms) =
      (runLabels step s ls).bind fun t => runLabels step t ms := by
  induction ls generalizing s with
  | nil => rfl
  | cons l ls ih =>
      rw [List.cons_append, runLabels_cons, runLabels_cons, Option.bind_assoc]
      exact congrArg _ (funext fun t => ih t)

theorem runLabels_append_eq_some {s s' : σ} {ls ms : List ℓ} :
    runLabels step s (ls ++ ms) = some s' ↔
      ∃ t, runLabels step s ls = some t ∧ runLabels step t ms = some s' := by
  rw [runLabels_append, Option.bind_eq_some_iff]

/-! ## Conditions on the steps of a run -/

/-- Every step of the run from `s` along the labels meets `C`. -/
def Along (step : σ → ℓ → Option σ) (C : σ → ℓ → Prop) : σ → List ℓ → Prop
  | _, [] => True
  | s, l :: ls => C s l ∧ ∀ s', step s l = some s' → Along step C s' ls

variable {C : σ → ℓ → Prop}

@[simp] theorem along_nil (s : σ) : Along step C s [] := trivial

theorem along_cons {s t : σ} {l : ℓ} {ls : List ℓ} (h : step s l = some t) :
    Along step C s (l :: ls) ↔ C s l ∧ Along step C t ls := by
  constructor
  · rintro ⟨hC, hrest⟩
    exact ⟨hC, hrest t h⟩
  · rintro ⟨hC, hrest⟩
    refine ⟨hC, fun s' hs' => ?_⟩
    rw [h, Option.some.injEq] at hs'
    exact hs' ▸ hrest

/-- A condition that can be tested can be tested along a run. -/
instance decidableAlong [∀ s l, Decidable (C s l)] : ∀ s ls, Decidable (Along step C s ls)
  | _, [] => .isTrue trivial
  | s, l :: ls =>
      match hstep : step s l with
      | none =>
          decidable_of_iff (C s l)
            ⟨fun hC => ⟨hC, fun _ hs => absurd (hstep.symm.trans hs) (by simp)⟩, fun h => h.1⟩
      | some t =>
          haveI := decidableAlong t ls
          decidable_of_iff (C s l ∧ Along step C t ls) (along_cons hstep).symm

theorem along_append {s t : σ} {ls ms : List ℓ} (h : runLabels step s ls = some t) :
    Along step C s (ls ++ ms) ↔ Along step C s ls ∧ Along step C t ms := by
  induction ls generalizing s with
  | nil =>
      rw [runLabels_nil, Option.some.injEq] at h
      subst h
      simp
  | cons l ls ih =>
      obtain ⟨u, hu, hrun⟩ := runLabels_cons_eq_some.mp h
      rw [List.cons_append, along_cons hu, along_cons hu, ih hrun, and_assoc]

theorem Along.mono {D : σ → ℓ → Prop} (hCD : ∀ s l, C s l → D s l) {s : σ} {ls : List ℓ}
    (h : Along step C s ls) : Along step D s ls := by
  induction ls generalizing s with
  | nil => trivial
  | cons l ls ih => exact ⟨hCD s l h.1, fun s' hs' => ih (h.2 s' hs')⟩

/-- A condition that looks at the label only holds along a run as soon as every label has it. -/
theorem along_of_forall_mem {D : ℓ → Prop} {s : σ} {ls : List ℓ} (h : ∀ l ∈ ls, D l) :
    Along step (fun _ l => D l) s ls := by
  induction ls generalizing s with
  | nil => trivial
  | cons l ls ih =>
      exact ⟨h l (List.mem_cons_self ..),
        fun s' _ => ih fun m hm => h m (List.mem_cons_of_mem _ hm)⟩

/-- A condition on the labels joins a condition on the steps. -/
theorem Along.and_forall_mem {D : ℓ → Prop} {s : σ} {ls : List ℓ} (h : Along step C s ls)
    (hD : ∀ l ∈ ls, D l) : Along step (fun s l => C s l ∧ D l) s ls := by
  induction ls generalizing s with
  | nil => trivial
  | cons l ls ih =>
      exact ⟨⟨h.1, hD l (List.mem_cons_self ..)⟩,
        fun s' hs' => ih (h.2 s' hs') fun m hm => hD m (List.mem_cons_of_mem _ hm)⟩

/-! ## The invariant rule -/

/-- **The invariant rule.**  What every step that meets `C` preserves holds at the end of every
run along `C`. -/
theorem invariant_runLabels {I : σ → Prop}
    (hstep : ∀ s l s', I s → C s l → step s l = some s' → I s')
    {s s' : σ} {ls : List ℓ} (hI : I s) (hC : Along step C s ls)
    (hrun : runLabels step s ls = some s') : I s' := by
  induction ls generalizing s with
  | nil =>
      rw [runLabels_nil, Option.some.injEq] at hrun
      exact hrun ▸ hI
  | cons l ls ih =>
      obtain ⟨t, ht, hrest⟩ := runLabels_cons_eq_some.mp hrun
      exact ih (hstep s l t hI hC.1 ht) (hC.2 t ht) hrest

theorem runLabels_concat_eq_some {s s' : σ} {l : ℓ} {ls : List ℓ} :
    runLabels step s (ls ++ [l]) = some s' ↔
      ∃ t, runLabels step s ls = some t ∧ step t l = some s' := by
  rw [runLabels_append_eq_some]
  refine exists_congr fun t => and_congr_right fun _ => ?_
  rw [runLabels_cons, Option.bind_eq_some_iff]
  simp

/-- **The invariant rule with a history**: an invariant that also looks at the labels so far holds
at every point of a run. -/
theorem invariant_of_prefix {I : List ℓ → σ → Prop} {s : σ} {ls : List ℓ} (h0 : I [] s)
    (hstep : ∀ pre l t t', pre ++ [l] <+: ls → runLabels step s pre = some t → I pre t →
      step t l = some t' → I (pre ++ [l]) t') {pre : List ℓ} {t : σ} (hpre : pre <+: ls)
    (hrun : runLabels step s pre = some t) : I pre t := by
  induction pre using List.reverseRecOn generalizing t with
  | nil =>
      obtain rfl := Option.some.inj hrun
      exact h0
  | append_singleton pre l ih =>
      obtain ⟨u, hu, hl⟩ := runLabels_concat_eq_some.mp hrun
      exact hstep pre l u t hpre hu (ih ((List.prefix_append pre [l]).trans hpre) hu) hl

/-- **A run that leaves the condition leaves it somewhere first.**  The part before that step is
a run along the condition. -/
theorem exists_first_failure {s s' : σ} {ls : List ℓ} (hrun : runLabels step s ls = some s')
    (h : ¬ Along step C s ls) :
    ∃ pre l post t t', ls = pre ++ l :: post ∧ runLabels step s pre = some t ∧
      Along step C s pre ∧ ¬ C t l ∧ step t l = some t' := by
  induction ls generalizing s with
  | nil => exact absurd trivial h
  | cons l ls ih =>
      obtain ⟨t, ht, hrest⟩ := runLabels_cons_eq_some.mp hrun
      by_cases hC : C s l
      · have hnot : ¬ Along step C t ls := fun hal => h ((along_cons ht).mpr ⟨hC, hal⟩)
        obtain ⟨pre, m, post, u, u', rfl, hpre, hal, hm, hu⟩ := ih hrest hnot
        exact ⟨l :: pre, m, post, u, u', rfl, runLabels_cons_eq_some.mpr ⟨t, ht, hpre⟩,
          (along_cons ht).mpr ⟨hC, hal⟩, hm, hu⟩
      · exact ⟨[], l, ls, s, t, rfl, rfl, trivial, hC, ht⟩

/-- **A condition that is exact for every step is exact for the whole run**: the invariant holds at
every point of the run if and only if the run is along the condition. -/
theorem forall_prefix_iff_along {I : σ → Prop}
    (hstep : ∀ t l t', I t → step t l = some t' → (I t' ↔ C t l)) {s s' : σ} {ls : List ℓ}
    (hI : I s) (hrun : runLabels step s ls = some s') :
    (∀ pre post u, ls = pre ++ post → runLabels step s pre = some u → I u) ↔
      Along step C s ls := by
  constructor
  · intro hall
    by_contra hnot
    obtain ⟨pre, l, post, t, t', rfl, hpre, -, hfails, ht⟩ := exists_first_failure hrun hnot
    refine hfails ((hstep t l t' (hall pre _ t rfl hpre) ht).mp ?_)
    exact hall (pre ++ [l]) post t' (by simp) (runLabels_concat_eq_some.mpr ⟨t, hpre, ht⟩)
  · rintro halong pre post u rfl hpre
    exact invariant_runLabels (fun t l t' h hC ht => (hstep t l t' h ht).mpr hC) hI
      ((along_append hpre).mp halong).1 hpre

/-! ## Counting along a run -/

/-- The sum over the steps of a run. -/
def countAlong (step : σ → ℓ → Option σ) (count : σ → ℓ → ℕ) : σ → List ℓ → ℕ
  | _, [] => 0
  | s, l :: ls => count s l + ((step s l).map fun s' => countAlong step count s' ls).getD 0

/-- **What is counted comes out of a budget**: if each step that starts and ends in `W` takes what
it counts from `m`, so does every run that stays in `W`. -/
theorem countAlong_add_le {count : σ → ℓ → ℕ} {I W : σ → Prop} {m : σ → ℕ}
    (hI : ∀ s l s', I s → step s l = some s' → I s')
    (hm : ∀ s l s', I s → W s → step s l = some s' → W s' → count s l + m s' ≤ m s)
    {s s' : σ} {ls : List ℓ} (hs : I s) (halong : Along step (fun s _ => W s) s ls)
    (hrun : runLabels step s ls = some s') (hW : W s') :
    countAlong step count s ls + m s' ≤ m s := by
  induction ls generalizing s with
  | nil =>
      obtain rfl := Option.some.inj hrun
      exact Nat.le_of_eq (Nat.zero_add _)
  | cons l ls ih =>
      obtain ⟨t, ht, hrest⟩ := runLabels_cons_eq_some.mp hrun
      have halong' := halong.2 t ht
      have hWt : W t := by
        cases ls with
        | nil =>
            obtain rfl := Option.some.inj hrest
            exact hW
        | cons l' ls => exact halong'.1
      have hfirst := hm s l t hs halong.1 ht hWt
      have hlater := ih (hI s l t hs ht) halong' hrest
      rw [countAlong, ht, Option.map_some, Option.getD_some]
      omega

/-! ## Where a run can lead -/

/-- Some run along `C` leads from `s` to `s'`. -/
def Leads (step : σ → ℓ → Option σ) (C : σ → ℓ → Prop) (s s' : σ) : Prop :=
  ∃ ls, runLabels step s ls = some s' ∧ Along step C s ls

theorem Leads.refl (s : σ) : Leads step C s s := ⟨[], rfl, trivial⟩

theorem Leads.single {s s' : σ} {l : ℓ} (h : step s l = some s') (hC : C s l) :
    Leads step C s s' :=
  ⟨[l], runLabels_cons_eq_some.mpr ⟨s', h, rfl⟩, hC, fun _ _ => trivial⟩

theorem Leads.trans {s t u : σ} (h : Leads step C s t) (h' : Leads step C t u) :
    Leads step C s u := by
  obtain ⟨ls, hrun, hal⟩ := h
  obtain ⟨ms, hrun', hal'⟩ := h'
  exact ⟨ls ++ ms, runLabels_append_eq_some.mpr ⟨t, hrun, hrun'⟩,
    (along_append hrun).mpr ⟨hal, hal'⟩⟩

theorem Leads.mono {D : σ → ℓ → Prop} (hCD : ∀ s l, C s l → D s l) {s s' : σ}
    (h : Leads step C s s') : Leads step D s s' := by
  obtain ⟨ls, hrun, hal⟩ := h
  exact ⟨ls, hrun, hal.mono hCD⟩

end Foundations
end MigrationStudio
