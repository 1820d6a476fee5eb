import Mathlib.Data.List.Basic
import Mathlib.Order.Lattice

/-!
# Pages of a sorted list, by the key of the last element

`SELECT ... WHERE key > after ORDER BY key LIMIT n` reads a table from one page to the next, with
the key of the last element of a page as the place to go on from.

* `keysUpTo`, `keysAbove`: the elements that have been read at a place, and those that have not.
* `keysetPage`: the next page.
* `keysUpTo_last`: at the last element of a page exactly the page has been read in addition.
-/

namespace MigrationStudio
namespace Foundations

variable {α κ : Type*} [LinearOrder κ] {key : α → κ} {l l' : List α} {a : κ} {n : ℕ} {x : α}

/-- The elements up to a place. -/
def keysUpTo (key : α → κ) (l : List α) (a : κ) : List α := l.filter fun x => key x ≤ a

/-- The elements above a place. -/
def keysAbove (key : α → κ) (l : List α) (a : κ) : List α := l.filter fun x => a < key x

/-- The next page of at most `n` elements. -/
def keysetPage (key : α → κ) (l : List α) (a : κ) (n : ℕ) : List α := (keysAbove key l a).take n

theorem length_keysetPage_le (key : α → κ) (l : List α) (a : κ) (n : ℕ) :
    (keysetPage key l a n).length ≤ n := List.length_take_le _ _

/-- A sorted list is what has been read and what has not, one after the other. -/
theorem keysUpTo_append_keysAbove (hs : l.Pairwise fun x y => key x < key y) (a : κ) :
    keysUpTo key l a ++ keysAbove key l a = l := by
  induction l with
  | nil => rfl
  | cons x l ih =>
      obtain ⟨hx, hl⟩ := List.pairwise_cons.mp hs
      have ih := ih hl
      rcases le_or_gt (key x) a with hle | hlt
      · have hup : keysUpTo key (x :: l) a = x :: keysUpTo key l a := by simp [keysUpTo, hle]
        have habove : keysAbove key (x :: l) a = keysAbove key l a := by
          simp [keysAbove, not_lt.mpr hle]
        rw [hup, habove, List.cons_append, ih]
      · have hnone : keysUpTo key l a = [] := by
          rw [keysUpTo, List.filter_eq_nil_iff]
          intro y hy
          simpa using hlt.trans (hx y hy)
        have hup : keysUpTo key (x :: l) a = [] := by simpa [keysUpTo, not_le.mpr hlt] using hnone
        have habove : keysAbove key (x :: l) a = x :: keysAbove key l a := by simp [keysAbove, hlt]
        rw [hnone, List.nil_append] at ih
        rw [hup, habove, List.nil_append, ih]

/-- A place is settled by the elements in front of it and behind it. -/
theorem keysUpTo_append {front rest : List α} (hfront : ∀ y ∈ front, key y ≤ a)
    (hrest : ∀ y ∈ rest, a < key y) : keysUpTo key (front ++ rest) a = front := by
  have hnone : keysUpTo key rest a = [] := by
    rw [keysUpTo, List.filter_eq_nil_iff]
    intro y hy
    simpa using hrest y hy
  have hall : keysUpTo key front a = front := by
    rw [keysUpTo, List.filter_eq_self]
    intro y hy
    simpa using hfront y hy
  rw [keysUpTo, List.filter_append]
  show keysUpTo key front a ++ keysUpTo key rest a = front
  rw [hnone, hall, List.append_nil]

/-- **After a page** it has been read, and nothing else. -/
theorem keysUpTo_last (hs : l.Pairwise fun x y => key x < key y)
    (hlast : (keysetPage key l a n).getLast? = some x) :
    keysUpTo key l (key x) = keysUpTo key l a ++ keysetPage key l a n := by
  have hsplit : (keysUpTo key l a ++ keysetPage key l a n) ++ (keysAbove key l a).drop n = l := by
    rw [List.append_assoc, keysetPage, List.take_append_drop, keysUpTo_append_keysAbove hs]
  obtain ⟨init, hinit⟩ := List.getLast?_eq_some_iff.mp hlast
  have hs' := hs
  rw [← hsplit, hinit, ← List.append_assoc] at hs'
  obtain ⟨hread, -, hbehind⟩ := List.pairwise_append.mp hs'
  have hfront : ∀ y ∈ keysUpTo key l a ++ keysetPage key l a n, key y ≤ key x := by
    rw [hinit, ← List.append_assoc]
    intro y hy
    rcases List.mem_append.mp hy with hy | hy
    · exact ((List.pairwise_append.mp hread).2.2 y hy x (List.mem_singleton_self x)).le
    · rw [List.mem_singleton.mp hy]
  have hrest : ∀ y ∈ (keysAbove key l a).drop n, key x < key y := fun y hy =>
    hbehind x (List.mem_append_right _ (List.mem_singleton_self x)) y hy
  calc keysUpTo key l (key x)
      = keysUpTo key ((keysUpTo key l a ++ keysetPage key l a n) ++
          (keysAbove key l a).drop n) (key x) := by rw [hsplit]
    _ = keysUpTo key l a ++ keysetPage key l a n := keysUpTo_append hfront hrest

/-- An empty page means that everything has been read. -/
theorem keysUpTo_of_page_nil (hs : l.Pairwise fun x y => key x < key y) (hn : 0 < n)
    (hnil : keysetPage key l a n = []) : keysUpTo key l a = l := by
  have hnone : keysAbove key l a = [] := by
    rcases List.take_eq_nil_iff.mp hnil with hzero | hnone
    · omega
    · exact hnone
  have hsplit := keysUpTo_append_keysAbove hs a
  rwa [hnone, List.append_nil] at hsplit

/-- What two lists have above a place they have above every later one. -/
theorem keysAbove_congr {a' : κ} (h : keysAbove key l a = keysAbove key l' a) (ha : a ≤ a') :
    keysAbove key l a' = keysAbove key l' a' := by
  have hagain : ∀ l'' : List α, keysAbove key l'' a' = keysAbove key (keysAbove key l'' a) a' := by
    intro l''
    rw [keysAbove, keysAbove, keysAbove, List.filter_filter]
    refine List.filter_congr fun x _ => ?_
    by_cases hx : a' < key x
    · simp [hx, ha.trans_lt hx]
    · simp [hx]
  rw [hagain l, hagain l', h]

/-- Every element of a page is above its place. -/
theorem lt_of_mem_keysetPage (hx : x ∈ keysetPage key l a n) : a < key x := by
  have hmem := List.mem_of_mem_take hx
  rw [keysAbove, List.mem_filter] at hmem
  simpa using hmem.2

end Foundations
end MigrationStudio
