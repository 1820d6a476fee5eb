import Mathlib.Data.List.Nodup

/-!
# Dictionaries that keep the order of their keys

A dictionary is the list of its items, oldest key first, read by `List.lookup`.  Writing to a key
that is there leaves the key in its place.

* `dictGet`, `dictSet`, `dictPop`: the reader and the two writes.
* `mem_dictSet`, `lookup_dictSet`, `lookup_dictPop`: what is there and what is read afterwards.
* `mem_keys_of_lookup`: a key that is found is among the keys.
* `nodup_keys_dictSet`, `nodup_keys_dictPop`: no key is there twice, so that an item is what is
  read at its key (`lookup_of_mem`).
* `filter_map_snd`: the values with a property that only those at one key can have.
-/

namespace MigrationStudio
namespace Foundations

variable {κ α : Type*} [DecidableEq κ] {l : List (κ × α)} {k k' : κ} {v w : α}

/-- `d.get(k)`. -/
def dictGet (l : List (κ × α)) (k : κ) : Option α := l.lookup k

/-- `d[k] = v`. -/
def dictSet (l : List (κ × α)) (k : κ) (v : α) : List (κ × α) :=
  if (l.lookup k).isSome then l.map fun p => if p.1 = k then (k, v) else p else l ++ [(k, v)]

/-- `d.pop(k, None)`. -/
def dictPop (l : List (κ × α)) (k : κ) : List (κ × α) := l.filter fun p => p.1 ≠ k

theorem lookup_cons_ne (h : k ≠ k') : ((k', v) :: l).lookup k = l.lookup k := by
  rw [List.lookup_cons, beq_false_of_ne h]

theorem lookup_map_set (h : (l.lookup k).isSome) :
    (l.map fun p => if p.1 = k then (k, v) else p).lookup k' =
      if k' = k then some v else l.lookup k' := by
  have hne : ∀ l : List (κ × α), k' ≠ k →
      (l.map fun p => if p.1 = k then (k, v) else p).lookup k' = l.lookup k' := by
    intro l hk
    induction l with
    | nil => rfl
    | cons p l ih =>
        obtain ⟨j, w⟩ := p
        rw [List.map_cons]
        by_cases hj : j = k
        · subst hj
          rw [if_pos rfl, lookup_cons_ne hk, lookup_cons_ne hk, ih]
        · rw [if_neg hj, List.lookup_cons, List.lookup_cons, ih]
  have heq : ∀ l : List (κ × α), (l.lookup k).isSome →
      (l.map fun p => if p.1 = k then (k, v) else p).lookup k = some v := by
    intro l h
    induction l with
    | nil => exact absurd h (by simp)
    | cons p l ih =>
        obtain ⟨j, w⟩ := p
        rw [List.map_cons]
        by_cases hj : j = k
        · subst hj
          rw [if_pos rfl, List.lookup_cons_self]
        · have hkj : k ≠ j := fun hkj => hj hkj.symm
          rw [lookup_cons_ne hkj] at h
          rw [if_neg hj, lookup_cons_ne hkj, ih h]
  split_ifs with hk
  · subst hk
    exact heq l h
  · exact hne l hk

/-- A new key is written behind the others. -/
theorem dictSet_of_notMem (h : k ∉ l.map Prod.fst) : dictSet l k v = l ++ [(k, v)] := by
  have hnone : l.lookup k = none := by
    refine List.lookup_eq_none_iff.mpr fun p hp => ?_
    rw [bne_iff_ne]
    rintro rfl
    exact h (List.mem_map_of_mem hp)
  rw [dictSet, hnone, if_neg (by simp)]

/-- What is written, and otherwise nothing new. -/
theorem mem_dictSet {p : κ × α} (h : p ∈ dictSet l k v) : p ∈ l ∨ p = (k, v) := by
  unfold dictSet at h
  split_ifs at h
  · obtain ⟨q, hq, heq⟩ := List.mem_map.mp h
    split_ifs at heq
    · exact Or.inr heq.symm
    · exact Or.inl (heq ▸ hq)
  · rcases List.mem_append.mp h with h | h
    · exact Or.inl h
    · exact Or.inr (List.mem_singleton.mp h)

theorem lookup_dictSet :
    (dictSet l k v).lookup k' = if k' = k then some v else l.lookup k' := by
  unfold dictSet
  split_ifs with hsome hk hk
  · rw [lookup_map_set hsome, if_pos hk]
  · rw [lookup_map_set hsome, if_neg hk]
  · subst hk
    rw [List.lookup_append, Option.not_isSome_iff_eq_none.mp hsome, Option.none_or,
      List.lookup_cons_self]
  · rw [List.lookup_append, lookup_cons_ne hk, List.lookup_nil, Option.or_none]

theorem dictGet_dictSet :
    dictGet (dictSet l k v) k' = if k' = k then some v else dictGet l k' :=
  lookup_dictSet

/-- A function of the values. -/
theorem dictGet_map {β : Type*} (f : α → β) :
    dictGet (l.map fun p => (p.1, f p.2)) k = (dictGet l k).map f := by
  unfold dictGet
  induction l with
  | nil => rfl
  | cons p l ih =>
      rw [List.map_cons, List.lookup_cons, List.lookup_cons, ih]
      cases k == p.1 with
      | true => rfl
      | false => rfl

theorem lookup_dictPop : (dictPop l k).lookup k' = if k' = k then none else l.lookup k' := by
  induction l with
  | nil => simp [dictPop]
  | cons p l ih =>
      obtain ⟨j, w⟩ := p
      unfold dictPop at ih ⊢
      by_cases hj : j = k
      · subst hj
        rw [List.filter_cons_of_neg (by simp), ih]
        by_cases hk : k' = j
        · rw [if_pos hk, if_pos hk]
        · rw [if_neg hk, if_neg hk, lookup_cons_ne hk]
      · rw [List.filter_cons_of_pos (by simpa using hj), List.lookup_cons, List.lookup_cons, ih]
        by_cases hk : k' = k
        · subst hk
          rw [beq_false_of_ne fun h => hj h.symm, if_pos rfl]
        · rw [if_neg hk, if_neg hk]

theorem mem_keys_of_lookup (h : l.lookup k = some v) : k ∈ l.map Prod.fst := by
  obtain ⟨l₁, l₂, hl, -⟩ := List.lookup_eq_some_iff.mp h
  rw [hl]
  simp

theorem lookup_of_mem (hl : (l.map Prod.fst).Nodup) (h : (k, v) ∈ l) : l.lookup k = some v := by
  induction l with
  | nil => exact absurd h (by simp)
  | cons p l ih =>
      obtain ⟨j, w⟩ := p
      obtain ⟨hj, hnodup⟩ := List.nodup_cons.mp hl
      rcases List.mem_cons.mp h with heq | h
      · obtain ⟨rfl, rfl⟩ := Prod.mk.inj heq
        exact List.lookup_cons_self
      · have hne : k ≠ j := fun heq => hj (heq ▸ List.mem_map.mpr ⟨(k, v), h, rfl⟩)
        rw [lookup_cons_ne hne, ih hnodup h]

/-- Values that are all kept under one key: at most the one that is read there. -/
theorem filter_map_snd {f : α → Bool} (hl : (l.map Prod.fst).Nodup)
    (h : ∀ p ∈ l, f p.2 = true → p.1 = k) :
    (l.map Prod.snd).filter f = (l.lookup k).toList.filter f := by
  induction l with
  | nil => rfl
  | cons p l ih =>
      obtain ⟨j, w⟩ := p
      obtain ⟨hj, hnodup⟩ := List.nodup_cons.mp hl
      have hrest : ∀ p ∈ l, f p.2 = true → p.1 = k := fun p hp => h p (List.mem_cons_of_mem _ hp)
      rw [List.map_cons]
      by_cases hk : j = k
      · subst hk
        have hnone : (l.map Prod.snd).filter f = [] := by
          refine List.filter_eq_nil_iff.mpr fun v hv hfv => ?_
          obtain ⟨p, hp, rfl⟩ := List.mem_map.mp hv
          exact hj (List.mem_map.mpr ⟨p, hp, hrest p hp hfv⟩)
        rw [List.lookup_cons_self, Option.toList_some, List.filter_cons, hnone, List.filter_cons,
          List.filter_nil]
      · have hf : ¬ f w = true := fun hfw => hk (h (j, w) (List.mem_cons_self ..) hfw)
        rw [List.filter_cons_of_neg hf, ih hnodup hrest, lookup_cons_ne (Ne.symm hk)]

theorem nodup_keys_dictSet (hl : (l.map Prod.fst).Nodup) :
    ((dictSet l k v).map Prod.fst).Nodup := by
  unfold dictSet
  split_ifs with hsome
  · have hkeys : (l.map fun p => if p.1 = k then (k, v) else p).map Prod.fst = l.map Prod.fst := by
      rw [List.map_map]
      refine List.map_congr_left fun p _ => ?_
      show (if p.1 = k then (k, v) else p).1 = p.1
      split_ifs with hp
      · exact hp.symm
      · rfl
    exact hkeys ▸ hl
  · rw [List.map_append, List.map_singleton]
    refine List.nodup_append.mpr ⟨hl, List.nodup_singleton _, ?_⟩
    rintro j hj j' hj' rfl
    rw [List.mem_singleton.mp hj'] at hj
    obtain ⟨p, hp, hpk⟩ := List.mem_map.mp hj
    obtain rfl : p.1 = k := hpk
    exact hsome (by rw [lookup_of_mem hl hp]; rfl)

theorem nodup_keys_dictPop (hl : (l.map Prod.fst).Nodup) : ((dictPop l k).map Prod.fst).Nodup :=
  hl.sublist (List.filter_sublist.map _)

end Foundations
end MigrationStudio
