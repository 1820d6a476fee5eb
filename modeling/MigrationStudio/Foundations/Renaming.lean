import Mathlib.Data.Set.Basic
import Mathlib.Data.List.Perm.Basic

/-!
# Things under labels that are renamed

Things are kept under labels.  An event renames labels, possibly two to the same, and then puts a
thing under its own label, if it has one.

* `Renaming`, `Renaming.apply`: an event, and the things under labels after it.
* `Renaming.Commutes`, `apply_comm`: two events that may be exchanged.
* `applyAll_perm`: a list of such events in any order.
-/

namespace MigrationStudio
namespace Foundations

/-- An event: the labels afterwards, and the label of the thing that it is about. -/
structure Renaming (κ : Type*) where
  rename : κ → κ
  label : Option κ

namespace Renaming

variable {ζ κ : Type*} {e e' : Renaming κ} {z z' : ζ} {S : Set (ζ × κ)} {p : ζ × κ}
  {l l' : List (ζ × Renaming κ)}

/-- The things under labels after an event about `z`. -/
def apply (e : Renaming κ) (z : ζ) (S : Set (ζ × κ)) : Set (ζ × κ) :=
  {p | (p.1 = z ∧ e.label = some p.2) ∨ ∃ k, (p.1, k) ∈ S ∧ e.rename k = p.2}

theorem mem_apply : p ∈ e.apply z S ↔
    (p.1 = z ∧ e.label = some p.2) ∨ ∃ k, (p.1, k) ∈ S ∧ e.rename k = p.2 := Iff.rfl

/-- The events may be exchanged: their renamings commute, and neither renames the label of the
other. -/
structure Commutes (e e' : Renaming κ) : Prop where
  rename : ∀ k, e.rename (e'.rename k) = e'.rename (e.rename k)
  left : ∀ k, e.label = some k → e'.rename k = k
  right : ∀ k, e'.label = some k → e.rename k = k

theorem Commutes.symm (h : Commutes e e') : Commutes e' e where
  rename := fun k => (h.rename k).symm
  left := h.right
  right := h.left

theorem apply_apply_subset (h : Commutes e e') :
    e.apply z (e'.apply z' S) ⊆ e'.apply z' (e.apply z S) := by
  rintro ⟨x, k⟩ (⟨hx, hk⟩ | ⟨k₁, (⟨hx, hk₁⟩ | ⟨k₂, hS, rfl⟩), rfl⟩)
  · exact Or.inr ⟨k, Or.inl ⟨hx, hk⟩, h.left k hk⟩
  · exact Or.inl ⟨hx, by rw [h.right k₁ hk₁, hk₁]⟩
  · exact Or.inr ⟨e.rename k₂, Or.inr ⟨k₂, hS, rfl⟩, (h.rename k₂).symm⟩

/-- **Two events exchanged.** -/
theorem apply_comm (h : Commutes e e') :
    e.apply z (e'.apply z' S) = e'.apply z' (e.apply z S) :=
  Set.Subset.antisymm (apply_apply_subset h) (apply_apply_subset h.symm)

/-- The things under labels after a list of events. -/
def applyAll (l : List (ζ × Renaming κ)) (S : Set (ζ × κ)) : Set (ζ × κ) :=
  l.foldl (fun S p => p.2.apply p.1 S) S

theorem applyAll_append (l l' : List (ζ × Renaming κ)) (S : Set (ζ × κ)) :
    applyAll (l ++ l') S = applyAll l' (applyAll l S) := List.foldl_append

/-- **Events in any order.** -/
theorem applyAll_perm (hp : l.Perm l') (h : ∀ p ∈ l, ∀ q ∈ l, Commutes p.2 q.2)
    (S : Set (ζ × κ)) : applyAll l S = applyAll l' S := by
  refine hp.foldl_eq' (fun p hpl q hql S => ?_) S
  exact (apply_comm (h p hpl q hql)).symm

end Renaming
end Foundations
end MigrationStudio
