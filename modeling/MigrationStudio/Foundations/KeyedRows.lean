import Mathlib.Data.Finset.Card
import Mathlib.Data.List.Nodup

/-!
# Rows with a unique key

A table with a uniqueness constraint is a list of rows whose keys are distinct.
`INSERT OR IGNORE` adds a row at the end unless its key is taken.

* `insertOrIgnore`, `insertAll`: the statement for one row and for the rows of a select.
* `UniqueKeys`: the constraint; the two statements keep it, and so does a deletion.
* `mem_map_insertAll`: the keys afterwards are the old ones and the new ones.
* `rekey`: the rows of one owner copied to another and the old ones deleted; `mem_map_rekey` says
  which keys there are afterwards.
-/

namespace MigrationStudio
namespace Foundations

variable {α κ : Type*} [DecidableEq κ] (key : α → κ)

/-- `INSERT OR IGNORE` of one row. -/
def insertOrIgnore (rows : List α) (r : α) : List α :=
  if rows.any fun q => key q = key r then rows else rows ++ [r]

/-- `INSERT OR IGNORE` of the rows of a select. -/
def insertAll (rows rs : List α) : List α := rs.foldl (insertOrIgnore key) rows

/-- No two rows have the same key. -/
def UniqueKeys (rows : List α) : Prop := (rows.map key).Nodup

variable {key} {rows rs : List α} {r : α} {k : κ}

theorem any_key_eq : (rows.any fun q => key q = key r) = true ↔ key r ∈ rows.map key := by
  simp [List.any_eq_true, List.mem_map]

theorem insertOrIgnore_of_mem (h : key r ∈ rows.map key) : insertOrIgnore key rows r = rows := by
  rw [insertOrIgnore, if_pos (any_key_eq.mpr h)]

theorem insertOrIgnore_of_notMem (h : key r ∉ rows.map key) :
    insertOrIgnore key rows r = rows ++ [r] := by
  rw [insertOrIgnore, if_neg fun hany => h (any_key_eq.mp hany)]

/-- The key of the row is there afterwards, and otherwise nothing new. -/
theorem mem_map_insertOrIgnore :
    k ∈ (insertOrIgnore key rows r).map key ↔ k ∈ rows.map key ∨ k = key r := by
  by_cases h : key r ∈ rows.map key
  · rw [insertOrIgnore_of_mem h]
    constructor
    · exact Or.inl
    · rintro (hk | rfl)
      · exact hk
      · exact h
  · rw [insertOrIgnore_of_notMem h, List.map_append, List.mem_append, List.map_singleton,
      List.mem_singleton]

theorem mem_of_mem_insertOrIgnore {q : α} (h : q ∈ insertOrIgnore key rows r) :
    q ∈ rows ∨ q = r := by
  unfold insertOrIgnore at h
  split_ifs at h
  · exact Or.inl h
  · rcases List.mem_append.mp h with h | h
    · exact Or.inl h
    · exact Or.inr (List.mem_singleton.mp h)

theorem UniqueKeys.insertOrIgnore (h : UniqueKeys key rows) (r : α) :
    UniqueKeys key (insertOrIgnore key rows r) := by
  by_cases hr : key r ∈ rows.map key
  · rwa [insertOrIgnore_of_mem hr]
  · rw [insertOrIgnore_of_notMem hr, UniqueKeys, List.map_append, List.nodup_append]
    refine ⟨h, List.nodup_singleton _, ?_⟩
    rintro a ha b hb rfl
    rw [List.map_singleton, List.mem_singleton] at hb
    exact hr (hb ▸ ha)

/-! ## Several rows -/

theorem insertAll_cons : insertAll key rows (r :: rs) =
    insertAll key (insertOrIgnore key rows r) rs := rfl

/-- **The keys after an insertion** are the old ones and the new ones. -/
theorem mem_map_insertAll :
    k ∈ (insertAll key rows rs).map key ↔ k ∈ rows.map key ∨ k ∈ rs.map key := by
  induction rs generalizing rows with
  | nil => simp [insertAll]
  | cons r rs ih =>
      rw [insertAll_cons, ih, mem_map_insertOrIgnore, List.map_cons, List.mem_cons, or_assoc]

theorem mem_of_mem_insertAll {q : α} (h : q ∈ insertAll key rows rs) : q ∈ rows ∨ q ∈ rs := by
  induction rs generalizing rows with
  | nil => exact Or.inl h
  | cons r rs ih =>
      rcases ih h with hq | hq
      · rcases mem_of_mem_insertOrIgnore hq with hq | rfl
        · exact Or.inl hq
        · exact Or.inr (List.mem_cons_self ..)
      · exact Or.inr (List.mem_cons_of_mem _ hq)

theorem UniqueKeys.insertAll (h : UniqueKeys key rows) (rs : List α) :
    UniqueKeys key (insertAll key rows rs) := by
  induction rs generalizing rows with
  | nil => exact h
  | cons r rs ih => exact ih (h.insertOrIgnore r)

/-- Rows with new keys are all inserted. -/
theorem insertAll_eq_append (h : UniqueKeys key (rows ++ rs)) :
    insertAll key rows rs = rows ++ rs := by
  induction rs generalizing rows with
  | nil => exact (List.append_nil _).symm
  | cons r rs ih =>
      have hfresh : key r ∉ rows.map key := by
        intro hmem
        rw [UniqueKeys, List.map_append, List.nodup_append] at h
        exact h.2.2 _ hmem _ (List.mem_cons_self ..) rfl
      have hsplit : rows ++ r :: rs = rows ++ [r] ++ rs := by simp
      rw [hsplit] at h ⊢
      rw [insertAll_cons, insertOrIgnore_of_notMem hfresh, ih h]

omit [DecidableEq κ] in
theorem UniqueKeys.filter (h : UniqueKeys key rows) (p : α → Bool) :
    UniqueKeys key (rows.filter p) :=
  h.sublist (List.filter_sublist.map key)

omit [DecidableEq κ] in
/-- Under unique keys a row is determined by its key. -/
theorem UniqueKeys.eq_of_key_eq (h : UniqueKeys key rows) {a b : α} (ha : a ∈ rows)
    (hb : b ∈ rows) (hab : key a = key b) : a = b :=
  List.inj_on_of_nodup_map h ha hb hab

/-- The row with a key is found. -/
theorem UniqueKeys.find?_eq_some_iff (h : UniqueKeys key rows) :
    (rows.find? fun q => key q = k) = some r ↔ r ∈ rows ∧ key r = k := by
  constructor
  · intro hfind
    exact ⟨List.mem_of_find?_eq_some hfind, by simpa using List.find?_some hfind⟩
  · rintro ⟨hr, rfl⟩
    obtain ⟨q, hq⟩ : ∃ q, (rows.find? fun q => key q = key r) = some q :=
      Option.isSome_iff_exists.mp (List.find?_isSome.mpr ⟨r, hr, by simp⟩)
    have hkey : key q = key r := by simpa using List.find?_some hq
    rw [hq, h.eq_of_key_eq (List.mem_of_find?_eq_some hq) hr hkey]

omit [DecidableEq κ] in
/-- The row that has been added last, updated at its position. -/
theorem modify_length_append (rows : List α) (r : α) (f : α → α) :
    (rows ++ [r]).modify rows.length f = rows ++ [f r] := by
  induction rows with
  | nil => rfl
  | cons q rows ih => exact congrArg (q :: ·) ih

/-! ## Moving the rows of one owner to another -/

section Rekey

variable {ι : Type*} [DecidableEq ι]

/-- The rows of the owner `f` are copied to `c` where their key is free, then deleted: a row of the
owner is one with `owner r = f`, and `move r` is its copy. -/
def rekey (key : α → κ) (owner : α → ι) (move : α → α) (f : ι) (rows : List α) : List α :=
  (insertAll key rows ((rows.filter fun r => owner r = f).map move)).filter fun r => owner r ≠ f

variable {owner : α → ι} {move : α → α} {f : ι}

theorem UniqueKeys.rekey (h : UniqueKeys key rows) : UniqueKeys key (rekey key owner move f rows) :=
  (h.insertAll _).filter _

theorem mem_of_mem_rekey {q : α} (h : q ∈ rekey key owner move f rows) :
    (q ∈ rows ∧ owner q ≠ f) ∨ ∃ r ∈ rows, owner r = f ∧ move r = q := by
  obtain ⟨hq, hne⟩ := List.mem_filter.mp h
  rcases mem_of_mem_insertAll hq with hq | hq
  · exact Or.inl ⟨hq, by simpa using hne⟩
  · obtain ⟨r, hr, rfl⟩ := List.mem_map.mp hq
    obtain ⟨hr, hf⟩ := List.mem_filter.mp hr
    exact Or.inr ⟨r, hr, by simpa using hf, rfl⟩

/-- **The keys after a move**, when the key tells the owner and no copy belongs to `f`: those of the
other owners, and those of the copies. -/
theorem mem_map_rekey (ownerOf : κ → ι) (howner : ∀ r, ownerOf (key r) = owner r)
    (hmove : ∀ r, owner (move r) ≠ f) :
    k ∈ (rekey key owner move f rows).map key ↔
      (k ∈ rows.map key ∧ ownerOf k ≠ f) ∨ ∃ r ∈ rows, owner r = f ∧ key (move r) = k := by
  constructor
  · intro h
    obtain ⟨q, hq, rfl⟩ := List.mem_map.mp h
    rcases mem_of_mem_rekey hq with ⟨hq, hne⟩ | ⟨r, hr, hf, rfl⟩
    · exact Or.inl ⟨List.mem_map.mpr ⟨q, hq, rfl⟩, howner q ▸ hne⟩
    · exact Or.inr ⟨r, hr, hf, rfl⟩
  · intro h
    have hmem : k ∈
        (insertAll key rows ((rows.filter fun r => owner r = f).map move)).map key := by
      refine mem_map_insertAll.mpr ?_
      rcases h with ⟨hk, -⟩ | ⟨r, hr, hf, rfl⟩
      · exact Or.inl hk
      · refine Or.inr (List.mem_map.mpr ⟨move r, List.mem_map.mpr ⟨r, ?_, rfl⟩, rfl⟩)
        exact List.mem_filter.mpr ⟨hr, by simpa using hf⟩
    have hne : ownerOf k ≠ f := by
      rcases h with ⟨-, hne⟩ | ⟨r, -, -, rfl⟩
      · exact hne
      · exact howner (move r) ▸ hmove r
    obtain ⟨q, hq, rfl⟩ := List.mem_map.mp hmem
    refine List.mem_map.mpr ⟨q, List.mem_filter.mpr ⟨hq, ?_⟩, rfl⟩
    simpa [howner q] using hne

end Rekey

end Foundations
end MigrationStudio
