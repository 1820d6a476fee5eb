import Mathlib.Algebra.Group.Nat.Defs
import Mathlib.Data.List.Basic
import Mathlib.Data.Nat.Notation
import Mathlib.Tactic.Common

/-!
# Numbers written with a fixed number of digits

A record of numbers is written field by field, each with as many decimal digits as its field has
and with a separator behind it.  Texts of one layout all have the same length, and are ordered as
the lists of their numbers are, first field first.

* `padded`: the digits of a number; `ofDigitChars_padded`: they are read back.
* `takeNumber`, `expect`: reading a number and a separator, with what is left.
* `writeFields`, `readFields`: whole records; `readFields_writeFields`.
* `writeFields_lt`: the order of the texts is that of the records.
-/

namespace MigrationStudio
namespace Foundations

/-- The last `k` decimal digits of a number. -/
def padded : ℕ → ℕ → List Char
  | 0, _ => []
  | k + 1, n => padded k (n / 10) ++ [Nat.digitChar (n % 10)]

/-- A number of `k` digits at the beginning of a text, and what follows it. -/
def takeNumber (k : ℕ) (cs : List Char) : Option (ℕ × List Char) :=
  if (cs.take k).length = k ∧ (cs.take k).all Char.isDigit then
    some (Nat.ofDigitChars 10 (cs.take k) 0, cs.drop k)
  else none

/-- What follows the separator. -/
def expect : List Char → List Char → Option (List Char)
  | [], cs => some cs
  | c :: separator, c' :: cs => if c = c' then expect separator cs else none
  | _ :: _, [] => none

/-- A layout: how many digits each field has, and the separator behind it. -/
abbrev Layout := List (ℕ × List Char)

def writeFields : Layout → List ℕ → List Char
  | (k, separator) :: layout, n :: ns => padded k n ++ (separator ++ writeFields layout ns)
  | _, _ => []

def readFields : Layout → List Char → Option (List ℕ × List Char)
  | [], cs => some ([], cs)
  | (k, separator) :: layout, cs => do
      let (n, cs) ← takeNumber k cs
      let cs ← expect separator cs
      let (ns, cs) ← readFields layout cs
      some (n :: ns, cs)

/-- The numbers have no more digits than their fields. -/
def Fits (layout : Layout) (ns : List ℕ) : Prop :=
  List.Forall₂ (fun field n => n < 10 ^ field.1) layout ns

/-! ## One number -/

@[simp] theorem length_padded (k n : ℕ) : (padded k n).length = k := by
  induction k generalizing n with
  | zero => rfl
  | succ k ih => rw [padded, List.length_append, ih, List.length_singleton]

theorem all_isDigit_padded (k n : ℕ) : (padded k n).all Char.isDigit = true := by
  induction k generalizing n with
  | zero => rfl
  | succ k ih =>
      rw [padded, List.all_append, ih, Bool.true_and, List.all_cons, List.all_nil, Bool.and_true,
        Nat.isDigit_digitChar]
      exact decide_eq_true (Nat.mod_lt n (by decide))

/-- **A number that fits** is read back. -/
theorem ofDigitChars_padded {k n : ℕ} (h : n < 10 ^ k) :
    Nat.ofDigitChars 10 (padded k n) 0 = n := by
  induction k generalizing n with
  | zero => exact (Nat.lt_one_iff.mp h).symm
  | succ k ih =>
      have hdiv : n / 10 < 10 ^ k := Nat.div_lt_of_lt_mul (by rwa [Nat.pow_succ'] at h)
      rw [padded, Nat.ofDigitChars_append, ih hdiv,
        Nat.ofDigitChars_cons_digitChar_of_lt_ten (Nat.mod_lt n (by decide)),
        Nat.ofDigitChars_nil]
      omega

theorem takeNumber_padded {k n : ℕ} (h : n < 10 ^ k) (cs : List Char) :
    takeNumber k (padded k n ++ cs) = some (n, cs) := by
  have htake : (padded k n ++ cs).take k = padded k n := List.take_left' (length_padded k n)
  rw [takeNumber, htake, if_pos ⟨length_padded k n, all_isDigit_padded k n⟩, ofDigitChars_padded h,
    List.drop_left' (length_padded k n)]

/-! ## The order of texts -/

/-- Texts are ordered by the first parts, when these have one length. -/
theorem append_lt_append_of_lt {a b : List Char} (hlen : a.length = b.length) (h : a < b)
    (x y : List Char) : a ++ x < b ++ y := by
  induction a generalizing b with
  | nil =>
      rw [List.eq_nil_of_length_eq_zero hlen.symm] at h
      exact absurd h (List.not_lt_nil _)
  | cons c a ih =>
      cases b with
      | nil => exact absurd hlen (by simp)
      | cons c' b =>
          rw [List.cons_append, List.cons_append, List.cons_lt_cons_iff]
          rcases List.cons_lt_cons_iff.mp h with hlt | ⟨heq, hlt⟩
          · exact Or.inl hlt
          · exact Or.inr ⟨heq, ih (Nat.succ.inj hlen) hlt⟩

theorem digitChar_lt {d d' : ℕ} (h : d < d') (h' : d' < 10) :
    Nat.digitChar d < Nat.digitChar d' := by
  have hall : ∀ d' < 10, ∀ d < d', Nat.digitChar d < Nat.digitChar d' := by decide
  exact hall d' h' d h

/-- **Numbers of one length** are ordered as their digits. -/
theorem padded_lt {k n m : ℕ} (h : n < m) (hm : m < 10 ^ k) : padded k n < padded k m := by
  induction k generalizing n m with
  | zero =>
      rw [Nat.pow_zero] at hm
      omega
  | succ k ih =>
      have hdiv : m / 10 < 10 ^ k := Nat.div_lt_of_lt_mul (by rwa [Nat.pow_succ'] at hm)
      rw [padded, padded]
      rcases Nat.lt_or_ge (n / 10) (m / 10) with hlt | hge
      · exact append_lt_append_of_lt (by simp) (ih hlt hdiv) _ _
      · have heq : n / 10 = m / 10 := by omega
        have hlast : n % 10 < m % 10 := by omega
        rw [heq]
        refine List.append_left_lt (List.cons_lt_cons_iff.mpr (Or.inl ?_))
        exact digitChar_lt hlast (Nat.mod_lt m (by decide))

/-! ## Records -/

variable {layout : Layout} {ns ms : List ℕ}

theorem expect_append (separator cs : List Char) :
    expect separator (separator ++ cs) = some cs := by
  induction separator with
  | nil => rfl
  | cons c separator ih =>
      rw [List.cons_append, expect, if_pos rfl]
      exact ih

/-- **A record that fits** is read back. -/
theorem readFields_writeFields (h : Fits layout ns) (cs : List Char) :
    readFields layout (writeFields layout ns ++ cs) = some (ns, cs) := by
  induction h with
  | nil => rfl
  | @cons field n layout ns hn _ ih =>
      rw [writeFields, List.append_assoc, List.append_assoc, readFields, takeNumber_padded hn]
      simp only [Option.bind_eq_bind, Option.bind_some, expect_append, ih]

/-- **Records of one layout** are ordered as their texts, whatever follows them. -/
theorem writeFields_lt (hns : Fits layout ns) (hms : Fits layout ms) (h : ns < ms)
    (x y : List Char) : writeFields layout ns ++ x < writeFields layout ms ++ y := by
  induction hns generalizing ms with
  | nil =>
      cases hms
      exact absurd h (List.not_lt_nil _)
  | @cons field n layout ns hn _ ih =>
      cases hms with
      | @cons _ m _ ms hm hms =>
          rw [writeFields, writeFields, List.append_assoc, List.append_assoc, List.append_assoc,
            List.append_assoc]
          rcases List.cons_lt_cons_iff.mp h with hlt | ⟨rfl, hlt⟩
          · exact append_lt_append_of_lt (by simp) (padded_lt hlt hm) _ _
          · exact List.append_left_lt (List.append_left_lt (ih hms hlt))

end Foundations
end MigrationStudio
