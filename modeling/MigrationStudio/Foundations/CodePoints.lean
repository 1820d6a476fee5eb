import Mathlib.Algebra.GroupWithZero.Nat
import Mathlib.Data.List.Basic
import Mathlib.Data.Nat.Notation
import Mathlib.Tactic.Common

/-!
# Strings of code points, and their bytes

A string of Python is a list of code points, and the surrogates are among them.  UTF-8 has bytes for
the other ones only: a string with a surrogate cannot be encoded, and no bytes are decoded to one.

* `CodePoint`, `PyStr`; `text`: the code points of characters.
* `encodeUtf8`, `decodeUtf8`: the two strict conversions.
* `isSome_encodeUtf8_iff`: what can be encoded; `decodeUtf8_of_encodeUtf8`: it is decoded again.
* `readText`, `writeText`: the text of a file, whose lines may end in one character or in two.
* `readText_of_writeText`: what is written is read again, unless it has a carriage return.
-/

namespace MigrationStudio
namespace Foundations

/-- A code point, the surrogates included. -/
abbrev CodePoint := Fin 0x110000

instance neZero_codePoints : NeZero 0x110000 := ⟨by decide⟩

abbrev PyStr := List CodePoint

/-- The code point of a character. -/
def codePoint (c : Char) : CodePoint :=
  ⟨c.toNat, by
    rcases c.valid with h | ⟨-, h⟩
    · exact Nat.lt_trans h (by decide)
    · exact h⟩

/-- The character with the code point, unless it is a surrogate. -/
def toChar (p : CodePoint) : Option Char :=
  if h : p.val.isValidChar then some (Char.ofNatAux p.val h) else none

/-- The code points of a text without surrogates. -/
def text (s : String) : PyStr := s.toList.map codePoint

def IsSurrogate (p : CodePoint) : Prop := 0xd800 ≤ p.val ∧ p.val ≤ 0xdfff

instance (p : CodePoint) : Decidable (IsSurrogate p) := inferInstanceAs (Decidable (_ ∧ _))

/-- `str.encode("utf-8")`. -/
def encodeUtf8 (s : PyStr) : Option ByteArray :=
  (s.mapM toChar).map fun cs => (String.ofList cs).toByteArray

/-- `bytes.decode("utf-8")`. -/
def decodeUtf8 (bytes : ByteArray) : Option PyStr := (String.fromUTF8? bytes).map text

/-- Where the letters of ASCII are. -/
theorem toNat_of_isAlpha {c : Char} (h : c.isAlpha = true) :
    (65 ≤ c.toNat ∧ c.toNat ≤ 90) ∨ (97 ≤ c.toNat ∧ c.toNat ≤ 122) := by
  rcases Bool.or_eq_true_iff.mp h with hupper | hlower
  · exact .inl (of_decide_eq_true hupper)
  · obtain ⟨hge, hle⟩ := Bool.and_eq_true_iff.mp hlower
    exact .inr ⟨of_decide_eq_true hge, of_decide_eq_true hle⟩

theorem codePoint_of_toChar {p : CodePoint} {c : Char} (h : toChar p = some c) :
    codePoint c = p := by
  unfold toChar at h
  by_cases hvalid : p.val.isValidChar
  · rw [dif_pos hvalid] at h
    obtain rfl := Option.some.inj h
    rfl
  · rw [dif_neg hvalid] at h
    exact absurd h nofun

theorem isSome_toChar_iff {p : CodePoint} : (toChar p).isSome ↔ ¬ IsSurrogate p := by
  have hvalid : p.val.isValidChar ↔ ¬ IsSurrogate p := by
    have hlt := p.isLt
    unfold Nat.isValidChar IsSurrogate
    omega
  rw [← hvalid, toChar]
  by_cases h : p.val.isValidChar
  · rw [dif_pos h]
    exact iff_of_true rfl h
  · rw [dif_neg h]
    exact iff_of_false nofun h

/-- **What can be encoded**: the strings without surrogates. -/
theorem isSome_encodeUtf8_iff {s : PyStr} :
    (encodeUtf8 s).isSome ↔ ∀ p ∈ s, ¬ IsSurrogate p := by
  rw [encodeUtf8, Option.isSome_map]
  induction s with
  | nil => simp
  | cons p s ih =>
      rw [List.mapM_cons, List.forall_mem_cons, ← ih, ← isSome_toChar_iff]
      cases toChar p with
      | none => simp
      | some c =>
          cases s.mapM toChar with
          | none => simp
          | some cs => simp

/-- **What is encoded is decoded again.** -/
theorem decodeUtf8_of_encodeUtf8 {s : PyStr} {bytes : ByteArray} (h : encodeUtf8 s = some bytes) :
    decodeUtf8 bytes = some s := by
  obtain ⟨cs, hcs, rfl⟩ := Option.map_eq_some_iff.mp h
  have hpoints : cs.map codePoint = s := by
    clear h
    induction s generalizing cs with
    | nil =>
        obtain rfl := Option.some.inj hcs
        rfl
    | cons p s ih =>
        rw [List.mapM_cons] at hcs
        cases hp : toChar p with
        | none =>
            rw [hp] at hcs
            exact absurd hcs (by simp)
        | some c =>
            cases hrest : s.mapM toChar with
            | none =>
                rw [hp, hrest] at hcs
                exact absurd hcs (by simp)
            | some cs' =>
                rw [hp, hrest] at hcs
                obtain rfl := Option.some.inj hcs
                rw [List.map_cons, codePoint_of_toChar hp, ih cs' hrest]
  have hread : String.fromUTF8? (String.ofList cs).toByteArray = some (String.ofList cs) := by
    rw [String.fromUTF8?, dif_pos (String.ofList cs).isValidUTF8]
    rfl
  rw [decodeUtf8, hread, Option.map_some, text, String.toList_ofList, hpoints]

/-! ## Text files -/

def lineFeed : CodePoint := 0x0a

def carriageReturn : CodePoint := 0x0d

/-- `os.linesep`. -/
inductive LineSeparator where
  | lf | crlf

def LineSeparator.chars : LineSeparator → PyStr
  | lf => [lineFeed]
  | crlf => [carriageReturn, lineFeed]

/-- The newlines of a text that is read: every end of a line becomes a line feed. -/
def readNewlines : PyStr → PyStr
  | [] => []
  | c :: cs =>
      if c = carriageReturn then
        match cs with
        | [] => [lineFeed]
        | c' :: cs' =>
            if c' = lineFeed then lineFeed :: readNewlines cs'
            else lineFeed :: readNewlines (c' :: cs')
      else c :: readNewlines cs

/-- The newlines of a text that is written. -/
def writeNewlines (separator : LineSeparator) (s : PyStr) : PyStr :=
  s.flatMap fun c => if c = lineFeed then separator.chars else [c]

/-- `Path.read_text(encoding="utf-8")`, of the bytes of the file. -/
def readText (bytes : ByteArray) : Option PyStr := (decodeUtf8 bytes).map readNewlines

/-- `Path.write_text(s, encoding="utf-8")`: the bytes of the file. -/
def writeText (separator : LineSeparator) (s : PyStr) : Option ByteArray :=
  encodeUtf8 (writeNewlines separator s)

theorem readNewlines_writeNewlines (separator : LineSeparator) {s : PyStr}
    (h : ∀ p ∈ s, p ≠ carriageReturn) : readNewlines (writeNewlines separator s) = s := by
  induction s with
  | nil => rfl
  | cons c s ih =>
      obtain ⟨hc, hs⟩ := List.forall_mem_cons.mp h
      have hrest := ih hs
      unfold writeNewlines at hrest ⊢
      rw [List.flatMap_cons]
      by_cases hline : c = lineFeed
      · rw [if_pos hline, hline]
        cases separator with
        | lf =>
            rw [LineSeparator.chars, List.singleton_append, readNewlines.eq_def]
            dsimp only
            rw [if_neg (by decide)]
            exact congrArg _ hrest
        | crlf =>
            rw [LineSeparator.chars, List.cons_append, List.singleton_append,
              readNewlines.eq_def]
            dsimp only
            rw [if_pos rfl, if_pos rfl]
            exact congrArg _ hrest
      · rw [if_neg hline, List.singleton_append, readNewlines.eq_def]
        dsimp only
        rw [if_neg hc, hrest]

/-- **What can be written**: the strings without surrogates. -/
theorem isSome_writeText_iff {separator : LineSeparator} {s : PyStr} :
    (writeText separator s).isSome ↔ ∀ p ∈ s, ¬ IsSurrogate p := by
  have hchars : ∀ c ∈ separator.chars, ¬ IsSurrogate c := by
    cases separator with
    | lf =>
        rw [LineSeparator.chars, List.forall_mem_singleton]
        decide
    | crlf =>
        rw [LineSeparator.chars, List.forall_mem_cons, List.forall_mem_singleton]
        decide
  rw [writeText, isSome_encodeUtf8_iff, writeNewlines]
  constructor
  · intro h p hp hsurrogate
    have hline : p ≠ lineFeed := by
      rintro rfl
      exact absurd hsurrogate (by decide)
    refine h p (List.mem_flatMap.mpr ⟨p, hp, ?_⟩) hsurrogate
    rw [if_neg hline]
    exact List.mem_singleton_self p
  · intro h q hq
    obtain ⟨p, hp, hq⟩ := List.mem_flatMap.mp hq
    split_ifs at hq with hline
    · exact hchars q hq
    · obtain rfl := List.mem_singleton.mp hq
      exact h q hp

/-- **What is written is read again.** -/
theorem readText_of_writeText {separator : LineSeparator} {s : PyStr} {bytes : ByteArray}
    (hs : ∀ p ∈ s, p ≠ carriageReturn) (h : writeText separator s = some bytes) :
    readText bytes = some s := by
  rw [readText, decodeUtf8_of_encodeUtf8 h, Option.map_some, readNewlines_writeNewlines _ hs]

end Foundations
end MigrationStudio
