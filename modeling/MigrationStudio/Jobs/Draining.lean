import Mathlib.Data.List.Infix
import MigrationStudio.Jobs.Repository

/-!
# The waiting writes of a job

The writes of a job wait in the lane in the order of their submission.  `Drains` says what makes
such a list of writes harmless: committed one after the other, each of them finds the pending
ordinals that it was computed for, and the batches of results among them take the pending ordinals
off the front.

* `drains_append`, `Drains.snoc`: a write that is submitted goes to the end.
* `Drains.drop`: critical writes may be lost from the front, since they consume nothing.
* `Drains.suffix`: what is left is the end of the pending ordinals.
* `Consumes.holds_apply`, `Consumes.holds_results`: no committed result is ever overwritten.
-/

namespace MigrationStudio
namespace Jobs

variable {w : JobWrite} {ws vs : List JobWrite} {job : Job} {p q r : List ℕ}

/-! ## One write -/

/-- A batch of results is not empty, so it consumes something. -/
theorem Consumes.critical_of_self (h : Consumes w p p) : w.critical = true := by
  cases w with
  | updateItems us c =>
      obtain ⟨hne, -, hpend, -⟩ := h
      rw [List.self_eq_append_left, List.map_eq_nil_iff] at hpend
      exact absurd hpend hne
  | _ => rfl

/-- What the table holds of a final update stays there. -/
theorem Consumes.holds_apply (h : Consumes w job.pending q) {u : ItemUpdate}
    (hu : u.state.pending = false) (hold : job.items.Holds u) : (job.apply w).items.Holds u := by
  cases w with
  | updateItems us c =>
      obtain ⟨-, hus, hpend, -⟩ := h
      exact ItemTable.holds_updateItems hus hpend hu (Or.inr hold)
  | markRetry o n code text nextAt =>
      have hne : u.ordinal ≠ o := fun heq => hold.terminal hu (heq ▸ h.1)
      exact show (job.items.markRetry o n code text nextAt).Holds u from hold.modifyAt hne
  | setState state wait c clear => exact hold
  | event level code message member => exact hold

/-- The results of a committed batch are in the table. -/
theorem Consumes.holds_results {us : List ItemUpdate} {c : Option Checkpoint}
    (h : Consumes (.updateItems us c) job.pending q) {u : ItemUpdate} (hu : u ∈ us) :
    (job.apply (.updateItems us c)).items.Holds u := by
  obtain ⟨-, hus, hpend, -⟩ := h
  exact ItemTable.holds_updateItems hus hpend (hus u hu) (Or.inl hu)

/-! ## Lists of writes -/

/-- The writes, one after the other, take the pending ordinals from `p` to `q`. -/
def Drains : List JobWrite → List ℕ → List ℕ → Prop
  | [], p, q => q = p
  | w :: ws, p, q => ∃ r, Consumes w p r ∧ Drains ws r q

@[simp] theorem drains_nil : Drains [] p q ↔ q = p := Iff.rfl

theorem drains_cons : Drains (w :: ws) p q ↔ ∃ r, Consumes w p r ∧ Drains ws r q := Iff.rfl

theorem drains_append : Drains (ws ++ vs) p q ↔ ∃ r, Drains ws p r ∧ Drains vs r q := by
  induction ws generalizing p with
  | nil => simp
  | cons w ws ih =>
      rw [List.cons_append, drains_cons]
      constructor
      · rintro ⟨r, hw, hrest⟩
        obtain ⟨t, ht, hvs⟩ := ih.mp hrest
        exact ⟨t, ⟨r, hw, ht⟩, hvs⟩
      · rintro ⟨t, ⟨r, hw, ht⟩, hvs⟩
        exact ⟨r, hw, ih.mpr ⟨t, ht, hvs⟩⟩

theorem Drains.snoc (h : Drains ws p q) (hw : Consumes w q r) : Drains (ws ++ [w]) p r :=
  drains_append.mpr ⟨q, h, r, hw, rfl⟩

theorem Drains.suffix (h : Drains ws p q) : q <:+ p := by
  induction ws generalizing p with
  | nil =>
      rw [drains_nil] at h
      exact h ▸ List.suffix_refl _
  | cons w ws ih =>
      obtain ⟨r, hw, hrest⟩ := h
      exact (ih hrest).trans hw.suffix

/-- The row after the writes. -/
theorem Drains.pending_foldl (h : Drains ws job.pending q) :
    (ws.foldl Job.apply job).pending = q := by
  induction ws generalizing job with
  | nil => exact h.symm
  | cons w ws ih =>
      obtain ⟨r, hw, hrest⟩ := h
      exact ih (hw.pending_apply.symm ▸ hrest)

/-- Critical writes consume nothing. -/
theorem Drains.eq_of_critical (h : Drains ws p q) (hws : ∀ w ∈ ws, w.critical = true) :
    q = p := by
  induction ws generalizing p with
  | nil => exact h
  | cons w ws ih =>
      obtain ⟨r, hw, hrest⟩ := h
      rw [ih hrest fun v hv => hws v (List.mem_cons_of_mem _ hv)]
      exact hw.eq_of_critical (hws w (List.mem_cons_self ..))

/-- Critical writes that are lost leave the others as they were. -/
theorem Drains.drop (h : Drains (vs ++ ws) p q) (hvs : ∀ w ∈ vs, w.critical = true) :
    Drains ws p q := by
  obtain ⟨r, hlost, hrest⟩ := drains_append.mp h
  exact hlost.eq_of_critical hvs ▸ hrest

/-- The writes mention final results of ordinals that they consume. -/
theorem Drains.consumed (h : Drains ws p q) :
    ∃ front, p = front ++ q ∧ ∀ us c, .updateItems us c ∈ ws → us ≠ [] ∧
      ∀ u ∈ us, u.ordinal ∈ front ∧ u.state.pending = false := by
  induction ws generalizing p with
  | nil =>
      rw [drains_nil] at h
      exact ⟨[], h.symm, fun _ _ hus => absurd hus (by simp)⟩
  | cons w ws ih =>
      obtain ⟨r, hw, hrest⟩ := h
      obtain ⟨front, rfl, hfront⟩ := ih hrest
      obtain ⟨first, rfl⟩ := hw.suffix
      refine ⟨first ++ front, (List.append_assoc ..).symm, fun us c hus => ?_⟩
      rcases List.mem_cons.mp hus with rfl | hus
      · obtain ⟨hne, hfinal, hsplit, -⟩ := hw
        obtain rfl := List.append_cancel_right hsplit
        exact ⟨hne, fun u hu =>
          ⟨List.mem_append_left _ (List.mem_map_of_mem hu), hfinal u hu⟩⟩
      · obtain ⟨hne, hall⟩ := hfront us c hus
        exact ⟨hne, fun u hu => ⟨List.mem_append_right _ (hall u hu).1, (hall u hu).2⟩⟩

/-- **No ordinal is in two results.**  What one batch of results is about, no other batch mentions,
and it is not left over. -/
theorem Drains.unique {us : List ItemUpdate} {c : Option Checkpoint} {xs ys : List JobWrite}
    (h : Drains (xs ++ .updateItems us c :: ys) p q) (hnodup : p.Nodup) {u : ItemUpdate}
    (hu : u ∈ us) : u.state.pending = false ∧ u.ordinal ∈ p ∧ u.ordinal ∉ q ∧
      ∀ vs d, .updateItems vs d ∈ xs ∨ .updateItems vs d ∈ ys →
        u.ordinal ∉ vs.map ItemUpdate.ordinal := by
  obtain ⟨r, hxs, r', ⟨-, hfinal, rfl, -⟩, hys⟩ := drains_append.mp h
  obtain ⟨before, rfl, hbefore⟩ := hxs.consumed
  obtain ⟨after, rfl, hafter⟩ := hys.consumed
  have hmem : u.ordinal ∈ us.map ItemUpdate.ordinal := List.mem_map_of_mem hu
  obtain ⟨-, hrest, hdisjoint⟩ := List.nodup_append.mp hnodup
  obtain ⟨-, -, hdisjoint'⟩ := List.nodup_append.mp hrest
  refine ⟨hfinal u hu, List.mem_append_right _ (List.mem_append_left _ hmem), fun hq => ?_,
    fun vs d hvs hv => ?_⟩
  · exact hdisjoint' _ hmem _ (List.mem_append_right _ hq) rfl
  · obtain ⟨v, hv, hord⟩ := List.mem_map.mp hv
    rcases hvs with hvs | hvs
    · exact hdisjoint _ ((hbefore vs d hvs).2 v hv).1 _ (List.mem_append_left _ hmem) hord
    · exact hdisjoint' _ hmem _ (List.mem_append_left _ ((hafter vs d hvs).2 v hv).1) hord.symm

end Jobs
end MigrationStudio
