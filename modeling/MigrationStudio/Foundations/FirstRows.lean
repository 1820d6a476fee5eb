import Mathlib.Data.List.Basic
import MigrationStudio.Foundations.KeyedRows

/-!
# The first row of every group

A table whose rows are numbered, and the clean-up that leaves of every group of rows with one key
the row with the smallest number:
`DELETE FROM t WHERE rowid NOT IN (SELECT MIN(rowid) FROM t GROUP BY key)`.

* `minRowids`, `keepFirst`: the subquery and the rows that stay.
* `IsFirst`, `mem_keepFirst`: a row stays when none of its group comes before it.
* `exists_first`: every group keeps a row.
* `uniqueKeys_keepFirst`: it keeps one.
* `keepFirst_eq_self`: a table without two rows of one group stays as it is.
-/

namespace MigrationStudio
namespace Foundations

variable {α κ : Type*} [DecidableEq κ] (key : α → κ) (rowid : α → ℕ)

/-- `SELECT MIN(rowid) FROM t GROUP BY key`, once for every row of a group. -/
def minRowids (rows : List α) : List ℕ :=
  rows.filterMap fun r => ((rows.filter fun q => key q = key r).map rowid).min?

/-- The rows that stay. -/
def keepFirst (rows : List α) : List α := rows.filter fun r => rowid r ∈ minRowids key rowid rows

/-- No row of the group comes before the row. -/
def IsFirst (rows : List α) (r : α) : Prop := ∀ q ∈ rows, key q = key r → rowid r ≤ rowid q

instance (rows : List α) (r : α) : Decidable (IsFirst key rowid rows r) :=
  inferInstanceAs (Decidable (∀ q ∈ rows, key q = key r → rowid r ≤ rowid q))

variable {key rowid} {rows : List α} {r q : α}

/-- The smallest number of a group. -/
theorem min?_group {n : ℕ} :
    ((rows.filter fun q => key q = key r).map rowid).min? = some n ↔
      (∃ q ∈ rows, key q = key r ∧ rowid q = n) ∧ ∀ q ∈ rows, key q = key r → n ≤ rowid q := by
  rw [List.min?_eq_some_iff]
  simp only [List.mem_map, List.mem_filter, decide_eq_true_eq, and_assoc, forall_exists_index,
    and_imp]
  constructor
  · rintro ⟨hmem, hle⟩
    exact ⟨hmem, fun q hq hkey => hle _ q hq hkey rfl⟩
  · rintro ⟨hmem, hle⟩
    refine ⟨hmem, ?_⟩
    rintro b q hq hkey rfl
    exact hle q hq hkey

theorem mem_minRowids {n : ℕ} :
    n ∈ minRowids key rowid rows ↔ ∃ r ∈ rows, IsFirst key rowid rows r ∧ rowid r = n := by
  rw [minRowids, List.mem_filterMap]
  constructor
  · rintro ⟨r, hr, hmin⟩
    obtain ⟨⟨q, hq, hkey, rfl⟩, hle⟩ := min?_group.mp hmin
    exact ⟨q, hq, fun p hp hpq => hle p hp (hpq.trans hkey), rfl⟩
  · rintro ⟨r, hr, hfirst, rfl⟩
    exact ⟨r, hr, min?_group.mpr ⟨⟨r, hr, rfl, rfl⟩, hfirst⟩⟩

/-- **What stays**: the first row of every group. -/
theorem mem_keepFirst (h : UniqueKeys rowid rows) :
    r ∈ keepFirst key rowid rows ↔ r ∈ rows ∧ IsFirst key rowid rows r := by
  rw [keepFirst, List.mem_filter, decide_eq_true_eq, mem_minRowids]
  refine and_congr_right fun hr => ?_
  constructor
  · rintro ⟨q, hq, hfirst, hid⟩
    obtain rfl := h.eq_of_key_eq hq hr hid
    exact hfirst
  · exact fun hfirst => ⟨r, hr, hfirst, rfl⟩

variable (key rowid) in
/-- **Every group keeps a row.** -/
theorem exists_first (hr : r ∈ rows) : ∃ q ∈ rows, key q = key r ∧ IsFirst key rowid rows q := by
  have hgroup : r ∈ rows.filter fun q => key q = key r :=
    List.mem_filter.mpr ⟨hr, by simp⟩
  have hne : (rows.filter fun q => key q = key r).map rowid ≠ [] :=
    List.ne_nil_of_mem (List.mem_map_of_mem hgroup)
  obtain ⟨n, hn⟩ := Option.isSome_iff_exists.mp (List.isSome_min?_of_ne_nil hne)
  obtain ⟨⟨q, hq, hkey, rfl⟩, hle⟩ := min?_group.mp hn
  exact ⟨q, hq, hkey, fun p hp hpq => hle p hp (hpq.trans hkey)⟩

omit [DecidableEq κ] in
/-- A group has one first row. -/
theorem IsFirst.unique (h : UniqueKeys rowid rows) (hr : r ∈ rows) (hq : q ∈ rows)
    (hkey : key q = key r) (hfirst : IsFirst key rowid rows r)
    (hfirst' : IsFirst key rowid rows q) :
    q = r :=
  h.eq_of_key_eq hq hr (le_antisymm (hfirst' r hr hkey.symm) (hfirst q hq hkey))

variable (key) in
/-- **Every group keeps one row.** -/
theorem uniqueKeys_keepFirst (h : UniqueKeys rowid rows) :
    UniqueKeys key (keepFirst key rowid rows) := by
  have hnodup : (keepFirst key rowid rows).Nodup := (List.Nodup.of_map rowid h).filter _
  refine List.Nodup.map_on (fun a ha b hb hkey => ?_) hnodup
  obtain ⟨ha, hfirst⟩ := (mem_keepFirst h).mp ha
  obtain ⟨hb, hfirst'⟩ := (mem_keepFirst h).mp hb
  exact IsFirst.unique h hb ha hkey hfirst' hfirst

/-- Where the keys are distinct already, every row stays. -/
theorem keepFirst_eq_self (hkeys : UniqueKeys key rows) : keepFirst key rowid rows = rows := by
  refine List.filter_eq_self.mpr fun r hr => decide_eq_true (mem_minRowids.mpr ⟨r, hr, ?_, rfl⟩)
  intro q hq hkey
  obtain rfl := hkeys.eq_of_key_eq hq hr hkey
  exact le_refl _

end Foundations
end MigrationStudio
