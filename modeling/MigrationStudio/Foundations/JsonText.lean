import MigrationStudio.Foundations.FixedWidth
import MigrationStudio.Foundations.Json

/-!
# `json.dumps` of a flat object, and reading it back

`json.dumps(d, ensure_ascii=False, indent=2)` for a dictionary whose values are strings, integers,
doubles and `None`.  Strings keep every code point but the quotation mark, the backslash and the
control characters, so a surrogate stays in the text.  An integer has a text up to the limit of its
digits.  A double is written with as few decimals as are needed to read it back.

* `dumpsString`, `dumpsInt`, `dumpsFloat`, `dumpsObject`: the texts.
* `Reads`: a text that is read as a value in front of a comma or the end of a line.
* `reads_dumpsString`, `reads_dumpsInt`, `reads_dumpsFloat`: the texts are read as their values.
* `loads_dumpsObject`: the text of an object is read as the object.
* `forall_mem_dumpsObject`: which characters are written.
-/

namespace MigrationStudio
namespace Foundations

/-! ## The texts -/

/-- The escapes of `json.dumps`. -/
def escape (p : CodePoint) : PyStr :=
  if p = quotationMark then [backslash, quotationMark]
  else if p = backslash then [backslash, backslash]
  else if p = lineFeed then [backslash, codePoint 'n']
  else if p = carriageReturn then [backslash, codePoint 'r']
  else if p = 0x09 then [backslash, codePoint 't']
  else if p = 0x0c then [backslash, codePoint 'f']
  else if p = 0x08 then [backslash, codePoint 'b']
  else if p.val < 0x20 then
    [backslash, codePoint 'u', codePoint '0', codePoint '0',
      codePoint (Nat.digitChar (p.val / 16)), codePoint (Nat.digitChar (p.val % 16))]
  else [p]

def dumpsString (s : PyStr) : PyStr := quotationMark :: (s.flatMap escape ++ [quotationMark])

/-- The decimal digits of a number. -/
def decimalDigits (n : ℕ) : PyStr := (Nat.toDigits 10 n).map codePoint

/-- The integer has no more digits than may be converted. -/
def FitsLimit (limits : Limits) (n : ℤ) : Prop :=
  limits.maxStrDigits = 0 ∨ (decimalDigits n.natAbs).length ≤ limits.maxStrDigits

instance (limits : Limits) (n : ℤ) : Decidable (FitsLimit limits n) :=
  inferInstanceAs (Decidable (_ ∨ _))

/-- `int.__repr__`; `ValueError` for an integer with too many digits. -/
def dumpsInt (limits : Limits) (n : ℤ) : Option PyStr :=
  if FitsLimit limits n then
    some (if n < 0 then codePoint '-' :: decimalDigits n.natAbs else decimalDigits n.natAbs)
  else none

/-- The number of `k` decimals that is nearest to a double, without the point. -/
def nearestDecimal (d : Double) (k : ℕ) : ℕ := (roundHalfEven (d.value * 10 ^ k)).toNat

/-- The number of decimals of a double: the least that tells it from the other doubles. -/
def decimals (d : Double) : ℕ :=
  ((List.range' 1 16).find? fun k => roundDouble (nearestDecimal d k / 10 ^ k) = d.value).getD 17

/-- `float.__repr__` of a double that has its digits around the point, such as one from 3 to 10. -/
def dumpsFloat (d : Double) : PyStr :=
  decimalDigits (nearestDecimal d (decimals d) / 10 ^ decimals d) ++
    codePoint '.' :: (padded (decimals d) (nearestDecimal d (decimals d) % 10 ^ decimals d)).map
      codePoint

/-- The items of an object, each but the first on a line of its own. -/
def dumpsItems : List (PyStr × PyStr) → PyStr
  | [] => []
  | [(key, value)] => dumpsString key ++ (codePoint ':' :: 0x20 :: value)
  | (key, value) :: items =>
      dumpsString key ++ (codePoint ':' :: 0x20 :: (value ++
        (codePoint ',' :: lineFeed :: 0x20 :: 0x20 :: dumpsItems items)))

/-- An object with at least one item, whose values are given as their texts. -/
def dumpsObject (items : List (PyStr × PyStr)) : PyStr :=
  openBrace :: lineFeed :: 0x20 :: 0x20 :: (dumpsItems items ++ [lineFeed, closeBrace])

/-! ## Strings -/

/-- A character of ASCII that is no control character. -/
def IsPrintable (p : CodePoint) : Prop := 0x20 ≤ p.val ∧ p.val < 0x80

instance (p : CodePoint) : Decidable (IsPrintable p) := inferInstanceAs (Decidable (_ ∧ _))

theorem hexDigit_digitChar {n : ℕ} (h : n < 16) :
    hexDigit (codePoint (Nat.digitChar n)) = some ⟨n, h⟩ := by
  have hall : ∀ n : Fin 16, hexDigit (codePoint (Nat.digitChar n)) = some n := by decide
  exact hall ⟨n, h⟩

theorem scanUnits_plain {c : CodePoint} (hquote : c ≠ quotationMark) (hback : c ≠ backslash)
    (hcontrol : ¬ c.val < 0x20) (cs : PyStr) :
    scanUnits (c :: cs) = (scanUnits cs).map fun r => ((false, c) :: r.1, r.2) := by
  rw [scanUnits.eq_def]
  dsimp only
  rw [if_neg hquote, if_neg hback, if_neg hcontrol]

theorem scanUnits_simple {e p : CodePoint} (hu : e ≠ codePoint 'u') (hp : simpleEscape e = some p)
    (cs : PyStr) :
    scanUnits (backslash :: e :: cs) = (scanUnits cs).map fun r => ((false, p) :: r.1, r.2) := by
  rw [scanUnits.eq_def]
  dsimp only
  rw [if_neg (by decide), if_pos rfl, if_neg hu, hp, Option.bind_some]

theorem scanUnits_hex {h₁ h₂ h₃ h₄ p : CodePoint} (hp : hexCode h₁ h₂ h₃ h₄ = some p)
    (cs : PyStr) :
    scanUnits (backslash :: codePoint 'u' :: h₁ :: h₂ :: h₃ :: h₄ :: cs) =
      (scanUnits cs).map fun r => ((true, p) :: r.1, r.2) := by
  rw [scanUnits.eq_def]
  dsimp only
  rw [if_neg (by decide), if_pos rfl, if_pos rfl, hp, Option.bind_some]

/-- The digits of a control character. -/
theorem hexCode_control {p : CodePoint} (h : p.val < 0x20) :
    hexCode (codePoint '0') (codePoint '0') (codePoint (Nat.digitChar (p.val / 16)))
      (codePoint (Nat.digitChar (p.val % 16))) = some p := by
  have hzero : hexDigit (codePoint '0') = some 0 := by decide
  unfold hexCode
  rw [hzero, hexDigit_digitChar (by omega : p.val / 16 < 16),
    hexDigit_digitChar (by omega : p.val % 16 < 16)]
  simp only [Option.bind_eq_bind, Option.bind_some, Option.some.injEq, Fin.ext_iff]
  simp only [Fin.val_zero]
  omega

/-- **A code point is escaped** by a character behind the backslash, by its digits, or not. -/
theorem escape_cases (p : CodePoint) :
    (∃ e, e ≠ codePoint 'u' ∧ IsPrintable e ∧ simpleEscape e = some p ∧ p.val < 0x80 ∧
      escape p = [backslash, e]) ∨
    (p.val < 0x20 ∧ escape p = [backslash, codePoint 'u', codePoint '0', codePoint '0',
      codePoint (Nat.digitChar (p.val / 16)), codePoint (Nat.digitChar (p.val % 16))]) ∨
    (p ≠ quotationMark ∧ p ≠ backslash ∧ ¬ p.val < 0x20 ∧ escape p = [p]) := by
  unfold escape
  by_cases hquote : p = quotationMark
  · subst hquote
    exact Or.inl ⟨_, by decide, by decide, by decide, by decide, if_pos rfl⟩
  rw [if_neg hquote]
  by_cases hback : p = backslash
  · subst hback
    exact Or.inl ⟨_, by decide, by decide, by decide, by decide, if_pos rfl⟩
  rw [if_neg hback]
  by_cases hline : p = lineFeed
  · subst hline
    exact Or.inl ⟨_, by decide, by decide, by decide, by decide, if_pos rfl⟩
  rw [if_neg hline]
  by_cases hreturn : p = carriageReturn
  · subst hreturn
    exact Or.inl ⟨_, by decide, by decide, by decide, by decide, if_pos rfl⟩
  rw [if_neg hreturn]
  by_cases htab : p = 0x09
  · subst htab
    exact Or.inl ⟨_, by decide, by decide, by decide, by decide, if_pos rfl⟩
  rw [if_neg htab]
  by_cases hfeed : p = 0x0c
  · subst hfeed
    exact Or.inl ⟨_, by decide, by decide, by decide, by decide, if_pos rfl⟩
  rw [if_neg hfeed]
  by_cases hbackspace : p = 0x08
  · subst hbackspace
    exact Or.inl ⟨_, by decide, by decide, by decide, by decide, if_pos rfl⟩
  rw [if_neg hbackspace]
  by_cases hcontrol : p.val < 0x20
  · exact Or.inr (Or.inl ⟨hcontrol, if_pos hcontrol⟩)
  · exact Or.inr (Or.inr ⟨hquote, hback, hcontrol, if_neg hcontrol⟩)

/-- **An escape is read back** as its code point; as digits only if it is a control character. -/
theorem scanUnits_escape (p : CodePoint) (cs : PyStr) :
    ∃ escaped, (escaped = true → p.val < 0x20) ∧
      scanUnits (escape p ++ cs) = (scanUnits cs).map fun r => ((escaped, p) :: r.1, r.2) := by
  rcases escape_cases p with ⟨e, hu, -, hp, -, heq⟩ | ⟨hcontrol, heq⟩ | ⟨hquote, hback, hplain, heq⟩
  · rw [heq]
    exact ⟨false, nofun, scanUnits_simple hu hp cs⟩
  · rw [heq]
    exact ⟨true, fun _ => hcontrol, scanUnits_hex (hexCode_control hcontrol) cs⟩
  · rw [heq]
    exact ⟨false, nofun, scanUnits_plain hquote hback hplain cs⟩

/-- No unit that is written as digits begins a pair. -/
theorem joinPairs_cons {escaped : Bool} {p : CodePoint} (h : escaped = true → p.val < 0x20)
    (units : List (Bool × CodePoint)) :
    joinPairs ((escaped, p) :: units) = p :: joinPairs units := by
  cases escaped with
  | false => rw [joinPairs.eq_def]
  | true =>
      have hhigh : isHighSurrogate p = false := by
        have hp := h rfl
        unfold isHighSurrogate
        simp
        omega
      rcases units with - | ⟨⟨- | -, q⟩, units⟩
      · rw [joinPairs.eq_def]
      · rw [joinPairs.eq_def]
      · rw [joinPairs.eq_def]
        dsimp only
        rw [hhigh, Bool.false_and, if_neg Bool.false_ne_true]

/-- **A string is read back** from its escapes. -/
theorem scanString_escape (s rest : PyStr) :
    scanString (s.flatMap escape ++ quotationMark :: rest) = some (s, rest) := by
  induction s with
  | nil =>
      have hscan : scanUnits (quotationMark :: rest) = some ([], rest) := by
        rw [scanUnits.eq_def]
        exact if_pos rfl
      exact congrArg (Option.map _) hscan
  | cons p s ih =>
      obtain ⟨⟨units, rest'⟩, hscan, heq⟩ := Option.map_eq_some_iff.mp ih
      obtain ⟨hunits, rfl⟩ := Prod.mk.inj heq
      obtain ⟨escaped, hescaped, hcons⟩ :=
        scanUnits_escape p (s.flatMap escape ++ quotationMark :: rest')
      rw [List.flatMap_cons, List.append_assoc, scanString, hcons, hscan, Option.map_some,
        Option.map_some]
      dsimp only at hunits ⊢
      rw [joinPairs_cons hescaped, hunits]

/-! ## Digits -/

/-- No digit follows. -/
def Stops (rest : PyStr) : Prop := ∀ c ∈ rest.head?, isDigit c = false

theorem isDigit_codePoint {c : Char} (h : c.isDigit = true) : isDigit (codePoint c) = true := by
  obtain ⟨hle, hge⟩ := Char.isDigit_iff_toNat.mp h
  exact Bool.and_eq_true_iff.mpr ⟨decide_eq_true hle, decide_eq_true hge⟩

section

variable {ds : List Char} {rest : PyStr}

theorem takeWhile_digits (hds : ∀ c ∈ ds, c.isDigit = true) (hrest : Stops rest) :
    (ds.map codePoint ++ rest).takeWhile isDigit = ds.map codePoint := by
  have hstop : rest.takeWhile isDigit = [] := by
    cases rest with
    | nil => rfl
    | cons c rest => rw [List.takeWhile_cons_of_neg (by simpa using hrest c rfl)]
  rw [List.takeWhile_append_of_pos, hstop, List.append_nil]
  exact List.forall_mem_map.mpr fun c hc => isDigit_codePoint (hds c hc)

theorem dropWhile_digits (hds : ∀ c ∈ ds, c.isDigit = true) (hrest : Stops rest) :
    (ds.map codePoint ++ rest).dropWhile isDigit = rest := by
  have hstop : rest.dropWhile isDigit = rest := by
    cases rest with
    | nil => rfl
    | cons c rest => rw [List.dropWhile_cons_of_neg (by simpa using hrest c rfl)]
  rw [List.dropWhile_append_of_pos, hstop]
  exact List.forall_mem_map.mpr fun c hc => isDigit_codePoint (hds c hc)

end

theorem digitsValue_map (ds : List Char) :
    digitsValue (ds.map codePoint) = Nat.ofDigitChars 10 ds 0 := by
  rw [digitsValue, List.foldl_map]
  rfl

@[simp] theorem digitsValue_decimalDigits (n : ℕ) : digitsValue (decimalDigits n) = n := by
  rw [decimalDigits, digitsValue_map, Nat.ofDigitChars_ten_toDigits]

theorem isDigit_of_mem_toDigits {n : ℕ} {c : Char} (h : c ∈ Nat.toDigits 10 n) :
    c.isDigit = true :=
  Nat.isDigit_of_mem_toDigits (by decide) (by decide) h

/-- A number of more than one digit does not begin with a zero. -/
theorem exists_toDigits_eq_cons (n : ℕ) :
    ∃ c cs, Nat.toDigits 10 n = c :: cs ∧ (c = '0' → cs = []) := by
  induction n using Nat.strong_induction_on with
  | _ n ih =>
      rw [Nat.toDigits_eq_if (by decide)]
      split_ifs with hlt
      · exact ⟨_, [], rfl, fun _ => rfl⟩
      · obtain ⟨c, cs, hcs, hzero⟩ := ih (n / 10) (by omega)
        refine ⟨c, cs ++ [(n % 10).digitChar], by rw [hcs, List.cons_append], fun hc => ?_⟩
        have hvalue := @Nat.ofDigitChars_ten_toDigits (n / 10)
        rw [hcs, hzero hc, hc] at hvalue
        have htens : n / 10 = 0 := hvalue.symm
        omega

theorem codePoint_injective {c c' : Char} (h : codePoint c = codePoint c') : c = c' := by
  have hval := congrArg Fin.val h
  exact Char.toNat_inj.mp hval

theorem scanWhole_decimalDigits (n : ℕ) {rest : PyStr} (hrest : Stops rest) :
    scanWhole (decimalDigits n ++ rest) = some (decimalDigits n, rest) := by
  obtain ⟨c, cs, hcs, hzero⟩ := exists_toDigits_eq_cons n
  have hdigit : ∀ c' ∈ c :: cs, c'.isDigit = true := fun c' hc' =>
    isDigit_of_mem_toDigits (hcs ▸ hc')
  rw [decimalDigits, hcs, List.map_cons, List.cons_append, scanWhole]
  by_cases hc : codePoint c = codePoint '0'
  · rw [if_pos hc, hzero (codePoint_injective hc)]
    rfl
  · rw [if_neg hc, if_pos (isDigit_codePoint (hdigit c List.mem_cons_self)),
      takeWhile_digits (fun c' hc' => hdigit c' (List.mem_cons_of_mem c hc')) hrest,
      dropWhile_digits (fun c' hc' => hdigit c' (List.mem_cons_of_mem c hc')) hrest]

/-! ## Values in front of a comma or the end of a line -/

/-- What stands behind a value of an object. -/
def EndsValue (rest : PyStr) : Prop :=
  ∃ c rest', rest = c :: rest' ∧ (c = codePoint ',' ∨ c = lineFeed)

/-- The text is read as the value, as far as a comma or the end of a line. -/
structure Reads (limits : Limits) (t : PyStr) (value : JsonValue) : Prop where
  begins : ∃ c t', t = c :: t' ∧ c ≠ openBrace ∧ c ≠ codePoint '[' ∧ isJsonSpace c = false
  scalar : ∀ rest, EndsValue rest → parseScalar limits (t ++ rest) = .ok (value, rest)

variable {limits : Limits} {t rest : PyStr} {value : JsonValue}

theorem EndsValue.stops (h : EndsValue rest) : Stops rest := by
  obtain ⟨c, rest', rfl, rfl | rfl⟩ := h
  · intro c hc
    obtain rfl := Option.mem_some.mp hc
    decide
  · intro c hc
    obtain rfl := Option.mem_some.mp hc
    decide

/-- Neither a fraction nor an exponent follows. -/
theorem EndsValue.scanFraction_eq (h : EndsValue rest) : scanFraction rest = ([], rest) := by
  obtain ⟨c, rest', rfl, hc⟩ := h
  have hpoint : c ≠ codePoint '.' := by
    rcases hc with rfl | rfl
    · decide
    · decide
  rw [scanFraction, decide_eq_false hpoint, Bool.false_and, if_neg Bool.false_ne_true]

theorem EndsValue.scanExponent_eq (h : EndsValue rest) : scanExponent rest = (none, rest) := by
  obtain ⟨c, rest', rfl, hc⟩ := h
  have hletter : c ≠ codePoint 'e' ∧ c ≠ codePoint 'E' := by
    rcases hc with rfl | rfl
    · decide
    · decide
  rw [scanExponent, decide_eq_false hletter.1, decide_eq_false hletter.2, Bool.or_false,
    Bool.false_and, if_neg Bool.false_ne_true]

theorem reads_null : Reads limits (text "null") .null := by
  have hword : text "null" = codePoint 'n' :: text "ull" := by decide
  refine ⟨⟨_, _, hword, by decide, by decide, by decide⟩, fun rest _ => ?_⟩
  have hpre : (text "null").isPrefixOf (text "null" ++ rest) = true :=
    List.isPrefixOf_iff_prefix.mpr (List.prefix_append _ _)
  have hscan : scanConstant (text "null" ++ rest) = some (.null, rest) := by
    rw [scanConstant, constants, List.findSome?_cons]
    dsimp only
    rw [if_pos hpre, List.drop_left]
  have hquote : (text "null" ++ rest).head? ≠ some quotationMark := by
    rw [hword]
    simp only [List.cons_append, List.head?_cons, ne_eq, Option.some.injEq]
    decide
  rw [parseScalar, if_neg hquote, hscan]

/-- **A string is read.** -/
theorem reads_dumpsString (s : PyStr) : Reads limits (dumpsString s) (.string s) := by
  refine ⟨⟨quotationMark, _, rfl, by decide, by decide, by decide⟩, fun rest _ => ?_⟩
  have hscan := scanString_escape s rest
  rw [dumpsString, List.cons_append, List.append_assoc, List.singleton_append, parseScalar,
    List.head?_cons, if_pos rfl, List.tail_cons, hscan]

/-- No constant begins with a digit, or with a digit behind the sign. -/
theorem scanConstant_of_digit {c : CodePoint} (h : isDigit c = true) (cs : PyStr) :
    scanConstant (c :: cs) = none ∧ scanConstant (codePoint '-' :: c :: cs) = none := by
  have hall : ∀ p ∈ constants, 2 ≤ (text p.1).length ∧
      ((text p.1).take 2).all (fun c => !isDigit c) = true := by
    simp only [constants, List.forall_mem_cons]
    decide
  have hnone : ∀ cs' : PyStr, (∃ c ∈ cs'.take 2, isDigit c = true) → scanConstant cs' = none := by
    rintro cs' ⟨c, hc, hdigit⟩
    refine List.findSome?_eq_none_iff.mpr fun p hp => if_neg fun hpre => ?_
    obtain ⟨hlen, hword⟩ := hall p hp
    obtain ⟨cs'', rfl⟩ := List.isPrefixOf_iff_prefix.mp hpre
    rw [List.take_append_of_le_length hlen] at hc
    have hnot := List.all_eq_true.mp hword c hc
    rw [hdigit] at hnot
    exact absurd hnot (by decide)
  exact ⟨hnone _ ⟨c, by simp, h⟩, hnone _ ⟨c, by simp, h⟩⟩

/-- The text begins with a digit. -/
def BeginsDigit (cs : PyStr) : Prop := ∃ c cs', cs = c :: cs' ∧ isDigit c = true

theorem beginsDigit_decimalDigits (n : ℕ) (rest : PyStr) :
    BeginsDigit (decimalDigits n ++ rest) := by
  obtain ⟨c, cs, hcs, -⟩ := exists_toDigits_eq_cons n
  refine ⟨codePoint c, cs.map codePoint ++ rest, ?_, ?_⟩
  · rw [decimalDigits, hcs, List.map_cons, List.cons_append]
  · exact isDigit_codePoint (isDigit_of_mem_toDigits (hcs ▸ List.mem_cons_self))

/-- The sign of a number. -/
def signText (negative : Bool) : PyStr := if negative then [codePoint '-'] else []

theorem isJsonSpace_of_isDigit {c : CodePoint} (hc : isDigit c = true) : isJsonSpace c = false := by
  by_contra hspace
  unfold isJsonSpace at hspace
  unfold isDigit at hc
  simp only [Bool.not_eq_false, Bool.or_eq_true, decide_eq_true_eq] at hspace
  rcases hspace with ((rfl | rfl) | rfl) | rfl
  · exact absurd hc (by decide)
  · exact absurd hc (by decide)
  · exact absurd hc (by decide)
  · exact absurd hc (by decide)

theorem begins_number {cs : PyStr} (hcs : BeginsDigit cs) (negative : Bool) :
    ∃ c t', signText negative ++ cs = c :: t' ∧ c ≠ openBrace ∧ c ≠ codePoint '[' ∧
      isJsonSpace c = false := by
  obtain ⟨c, cs', rfl, hc⟩ := hcs
  cases negative with
  | false =>
      refine ⟨c, cs', rfl, ?_, ?_, isJsonSpace_of_isDigit hc⟩
      · rintro rfl
        exact absurd hc (by decide)
      · rintro rfl
        exact absurd hc (by decide)
  | true => exact ⟨codePoint '-', c :: cs', rfl, by decide, by decide, by decide⟩

/-- **A number is read** as what its literal stands for. -/
theorem parseScalar_number {cs : PyStr} (hcs : BeginsDigit cs) {l : NumberLiteral} {negative : Bool}
    (hscan : scanNumber (signText negative ++ cs) = some (l, rest)) :
    parseScalar limits (signText negative ++ cs) =
      (l.value limits).map fun value => (value, rest) := by
  obtain ⟨c, cs', rfl, hc⟩ := hcs
  have hquote : (signText negative ++ c :: cs').head? ≠ some quotationMark := by
    cases negative with
    | false =>
        rintro h
        obtain rfl := Option.some.inj h
        exact absurd hc (by decide)
    | true => exact fun h => absurd (Option.some.inj h) (by decide)
  have hconstant : scanConstant (signText negative ++ c :: cs') = none := by
    cases negative with
    | false => exact (scanConstant_of_digit hc cs').1
    | true => exact (scanConstant_of_digit hc cs').2
  rw [parseScalar, if_neg hquote, hconstant]
  dsimp only
  rw [hscan]

/-- The whole number of a literal is read up to where its digits stop. -/
theorem scanNumber_decimalDigits (negative : Bool) (n : ℕ) (hrest : Stops rest) :
    scanNumber (signText negative ++ (decimalDigits n ++ rest)) =
      some (⟨negative, decimalDigits n, (scanFraction rest).1,
        (scanExponent (scanFraction rest).2).1⟩, (scanExponent (scanFraction rest).2).2) := by
  have hsign : (signText negative ++ (decimalDigits n ++ rest)).head? = some (codePoint '-') ↔
      negative = true := by
    cases negative with
    | false =>
        obtain ⟨c, cs, hcs, hc⟩ := beginsDigit_decimalDigits n rest
        refine iff_of_false (fun h => ?_) nofun
        rw [hcs] at h
        obtain rfl := Option.some.inj h
        exact absurd hc (by decide)
    | true => exact iff_of_true rfl rfl
  have htail : (if negative = true then (signText negative ++ (decimalDigits n ++ rest)).tail
      else signText negative ++ (decimalDigits n ++ rest)) = decimalDigits n ++ rest := by
    cases negative with
    | false => rfl
    | true => rfl
  unfold scanNumber
  simp only [hsign, Bool.decide_eq_true, htail]
  rw [scanWhole_decimalDigits n hrest, Option.map_some]

/-- An integer is read, wherever no more of a number follows. -/
theorem parseScalar_dumpsInt {n : ℤ} (h : dumpsInt limits n = some t) (hstops : Stops rest)
    (hfraction : scanFraction rest = ([], rest)) (hexponent : scanExponent rest = (none, rest)) :
    parseScalar limits (t ++ rest) = .ok (.int n, rest) := by
  unfold dumpsInt at h
  by_cases hfits : FitsLimit limits n
  · rw [if_pos hfits] at h
    have ht : t = signText (n < 0) ++ decimalDigits n.natAbs := by
      obtain rfl := Option.some.inj h
      by_cases hneg : n < 0
      · rw [if_pos hneg, decide_eq_true hneg]
        rfl
      · rw [if_neg hneg, decide_eq_false hneg]
        rfl
    have hdigits := beginsDigit_decimalDigits n.natAbs
    subst ht
    have hscan := scanNumber_decimalDigits (n < 0) n.natAbs hstops
    rw [hfraction] at hscan
    dsimp only at hscan
    rw [hexponent] at hscan
    have hlimit : ¬ (limits.maxStrDigits ≠ 0 ∧
        limits.maxStrDigits < (decimalDigits n.natAbs).length) := by
      rintro ⟨hne, hlt⟩
      rcases hfits with hzero | hle
      · exact hne hzero
      · omega
    rw [List.append_assoc, parseScalar_number (hdigits rest) hscan, NumberLiteral.value,
      if_pos ⟨rfl, rfl⟩, if_neg hlimit, digitsValue_decimalDigits]
    have hvalue : (if decide (n < 0) = true then -(n.natAbs : ℤ) else n.natAbs) = n := by
      by_cases hneg : n < 0
      · rw [decide_eq_true hneg, if_pos rfl]
        omega
      · rw [decide_eq_false hneg, if_neg Bool.false_ne_true]
        omega
    rw [hvalue]
    rfl
  · rw [if_neg hfits] at h
    exact absurd h nofun

theorem begins_dumpsInt {n : ℤ} (h : dumpsInt limits n = some t) :
    ∃ c t', t = c :: t' ∧ c ≠ openBrace ∧ c ≠ codePoint '[' ∧ isJsonSpace c = false := by
  unfold dumpsInt at h
  split_ifs at h with hfits hneg
  · obtain rfl := Option.some.inj h
    have hbegins := begins_number (beginsDigit_decimalDigits n.natAbs []) true
    rwa [List.append_nil] at hbegins
  · obtain rfl := Option.some.inj h
    have hbegins := begins_number (beginsDigit_decimalDigits n.natAbs []) false
    rwa [List.append_nil] at hbegins

/-- **An integer is read** as itself. -/
theorem reads_dumpsInt {n : ℤ} (h : dumpsInt limits n = some t) : Reads limits t (.int n) :=
  ⟨begins_dumpsInt h, fun _ hrest =>
    parseScalar_dumpsInt h hrest.stops hrest.scanFraction_eq hrest.scanExponent_eq⟩

/-! ## Doubles -/

variable {d : Double}

/-- The number of `k` decimals is at most one half of the last of them away. -/
theorem abs_nearestDecimal_sub_le (hd : 0 ≤ d.value) (k : ℕ) :
    |(nearestDecimal d k : ℚ) / 10 ^ k - d.value| ≤ 1 / 2 / 10 ^ k := by
  have hpow : (0 : ℚ) < 10 ^ k := by positivity
  have hnonneg : 0 ≤ roundHalfEven (d.value * 10 ^ k) :=
    le_roundHalfEven (by simpa using mul_nonneg hd hpow.le)
  have hcast : (nearestDecimal d k : ℚ) = roundHalfEven (d.value * 10 ^ k) := by
    rw [nearestDecimal, ← Int.cast_natCast, Int.toNat_of_nonneg hnonneg]
  have hround := abs_roundHalfEven_sub_le (d.value * 10 ^ k)
  have hsub : (nearestDecimal d k : ℚ) / 10 ^ k - d.value =
      (roundHalfEven (d.value * 10 ^ k) - d.value * 10 ^ k) / 10 ^ k := by
    rw [hcast]
    field_simp
  rw [hsub, abs_div, abs_of_pos hpow]
  exact div_le_div_of_nonneg_right hround hpow.le

/-- **Sixteen decimals** are enough for a double from 1 on. -/
theorem roundDouble_nearestDecimal (hd : 1 ≤ d.value) :
    roundDouble (nearestDecimal d 16 / 10 ^ 16) = d.value := by
  have hrounded : roundMagnitude d.value = d.value := by
    have hvalue := d.rounded
    rwa [roundDouble, if_neg (by linarith)] at hvalue
  have hlast : (2 : ℚ) ^ (-52 : ℤ) ≤ 2 ^ lastExponent d.value := by
    have hlog : 0 ≤ Int.log 2 d.value :=
      (Int.zpow_le_iff_le_log (b := 2) (by norm_num) (by linarith)).mp (by simpa using hd)
    refine zpow_le_zpow_right₀ (by norm_num) ?_
    unfold lastExponent
    omega
  have hnear := abs_nearestDecimal_sub_le (d := d) (by linarith) 16
  have hnonneg : (0 : ℚ) ≤ nearestDecimal d 16 / 10 ^ 16 := by positivity
  rw [roundDouble, if_neg (not_lt.mpr hnonneg)]
  refine roundMagnitude_eq_of_near hrounded (by linarith) (hnear.trans_lt ?_)
  have hhalf : (1 : ℚ) / 2 / 10 ^ 16 < 2 ^ (-52 : ℤ) / 4 := by norm_num
  exact hhalf.trans_le (div_le_div_of_nonneg_right hlast (by norm_num))

theorem decimals_spec (hd : 1 ≤ d.value) :
    0 < decimals d ∧ roundDouble (nearestDecimal d (decimals d) / 10 ^ decimals d) = d.value := by
  have hsome : ((List.range' 1 16).find? fun k =>
      roundDouble (nearestDecimal d k / 10 ^ k) = d.value).isSome := by
    rw [List.find?_isSome]
    exact ⟨16, by decide, decide_eq_true (roundDouble_nearestDecimal hd)⟩
  obtain ⟨k, hk⟩ := Option.isSome_iff_exists.mp hsome
  have hmem := List.mem_range'_1.mp (List.mem_of_find?_eq_some hk)
  have hround := List.find?_some hk
  rw [decimals, hk, Option.getD_some]
  exact ⟨hmem.1, of_decide_eq_true hround⟩

theorem digitsValue_dumpsFloat (n k : ℕ) :
    digitsValue (decimalDigits (n / 10 ^ k) ++ (padded k (n % 10 ^ k)).map codePoint) = n := by
  rw [decimalDigits, ← List.map_append, digitsValue_map, Nat.ofDigitChars_append,
    Nat.ofDigitChars_ten_toDigits, Nat.ofDigitChars_eq_ofDigitChars_zero, length_padded,
    ofDigitChars_padded (Nat.mod_lt n (by positivity))]
  exact Nat.div_add_mod n (10 ^ k)

theorem beginsDigit_dumpsFloat (d : Double) : BeginsDigit (dumpsFloat d) :=
  beginsDigit_decimalDigits _ _

/-- A double is read, wherever no more of a number follows. -/
theorem parseScalar_dumpsFloat (hd : 1 ≤ d.value) (hbound : d.value < overflowBound)
    (hrest : Stops rest) (hexponent : scanExponent rest = (none, rest)) :
    parseScalar limits (dumpsFloat d ++ rest) = .ok (.float (.finite d), rest) := by
  obtain ⟨hpos, hround⟩ := decimals_spec hd
  unfold dumpsFloat
  generalize decimals d = k at hpos hround ⊢
  generalize nearestDecimal d k = n at hround ⊢
  have hdigits : ∀ c ∈ padded k (n % 10 ^ k), c.isDigit = true :=
    List.all_eq_true.mp (all_isDigit_padded k _)
  have hne : (padded k (n % 10 ^ k)).map codePoint ≠ [] := by
    rw [ne_eq, List.map_eq_nil_iff]
    intro hnil
    have hlen := length_padded k (n % 10 ^ k)
    rw [hnil, List.length_nil] at hlen
    omega
  have hstops : Stops (codePoint '.' :: ((padded k (n % 10 ^ k)).map codePoint ++ rest)) := by
    intro c hc
    obtain rfl := Option.mem_some.mp hc
    decide
  have hfraction : scanFraction (codePoint '.' :: ((padded k (n % 10 ^ k)).map codePoint ++ rest)) =
      ((padded k (n % 10 ^ k)).map codePoint, rest) := by
    rw [scanFraction, takeWhile_digits hdigits hrest, dropWhile_digits hdigits hrest,
      decide_eq_true rfl, decide_eq_true hne, Bool.true_and, if_pos rfl]
  have hscan := scanNumber_decimalDigits false (n / 10 ^ k) hstops
  rw [hfraction] at hscan
  dsimp only at hscan
  rw [hexponent] at hscan
  rw [List.append_assoc, List.cons_append]
  refine (parseScalar_number (beginsDigit_decimalDigits _ _) hscan).trans ?_
  have hrational : NumberLiteral.rational ⟨false, decimalDigits (n / 10 ^ k),
      (padded k (n % 10 ^ k)).map codePoint, none⟩ = n / 10 ^ k := by
    unfold NumberLiteral.rational
    dsimp only
    rw [digitsValue_dumpsFloat, List.length_map, length_padded, zero_sub, zpow_neg, zpow_natCast,
      if_neg Bool.false_ne_true, one_mul, div_eq_mul_inv]
  have habs : |d.value| < overflowBound := by
    rwa [abs_of_pos (by linarith)]
  rw [NumberLiteral.value, if_neg (fun h => hne h.1), hrational,
    Float64.ofRat_of_rounded habs hround]
  rfl

/-- **A double is read** as itself. -/
theorem reads_dumpsFloat (hd : 1 ≤ d.value) (hbound : d.value < overflowBound) :
    Reads limits (dumpsFloat d) (.float (.finite d)) :=
  ⟨begins_number (beginsDigit_dumpsFloat d) false, fun _ hrest =>
    parseScalar_dumpsFloat hd hbound hrest.stops hrest.scanExponent_eq⟩

/-! ## Objects -/

theorem skipSpace_cons {c : CodePoint} (h : isJsonSpace c = true) (cs : PyStr) :
    skipSpace (c :: cs) = skipSpace cs :=
  List.dropWhile_cons_of_pos h

theorem skipSpace_of_not {c : CodePoint} (h : isJsonSpace c = false) (cs : PyStr) :
    skipSpace (c :: cs) = c :: cs :=
  List.dropWhile_cons_of_neg (by simpa using h)

theorem Reads.skipSpace_eq (h : Reads limits t value) (rest : PyStr) :
    skipSpace (t ++ rest) = t ++ rest := by
  obtain ⟨c, t', rfl, -, -, hspace⟩ := h.begins
  exact skipSpace_of_not hspace (t' ++ rest)

theorem Reads.parseValue_eq (h : Reads limits t value) (hrest : EndsValue rest) (fuel depth : ℕ) :
    parseValue limits (fuel + 1) depth (t ++ rest) = .ok (value, rest) := by
  obtain ⟨c, t', ht, hbrace, hbracket, -⟩ := h.begins
  have hhead : (t ++ rest).head? = some c := by rw [ht, List.cons_append, List.head?_cons]
  rw [parseValue.eq_def]
  dsimp only
  rw [hhead, if_neg (fun h => hbrace (Option.some.inj h)),
    if_neg (fun h => hbracket (Option.some.inj h)), h.scalar rest hrest]

/-- **One item** of an object is read, up to what stands behind its value. -/
theorem parseMembers_item (ht : Reads limits t value) (hrest : EndsValue rest) (fuel depth : ℕ)
    (entries : List (PyStr × JsonValue)) (key : PyStr) :
    parseMembers limits (fuel + 2) depth entries
        (dumpsString key ++ (codePoint ':' :: 0x20 :: (t ++ rest))) =
      if (skipSpace rest).head? = some closeBrace then
        .ok (.object (dictSet entries key value), (skipSpace rest).tail)
      else if (skipSpace rest).head? = some (codePoint ',') then
        parseMembers limits (fuel + 1) depth (dictSet entries key value)
          (skipSpace (skipSpace rest).tail)
      else .error .decode := by
  have hscan := scanString_escape key (codePoint ':' :: 0x20 :: (t ++ rest))
  rw [dumpsString, List.cons_append, List.append_assoc, List.singleton_append, parseMembers,
    List.head?_cons, if_neg (not_not.mpr rfl), List.tail_cons, hscan]
  dsimp only
  rw [skipSpace_of_not (by decide), List.head?_cons, if_neg (not_not.mpr rfl), List.tail_cons,
    skipSpace_cons (by decide), ht.skipSpace_eq, ht.parseValue_eq hrest]

/-- Each text is read as its value, under the same key. -/
def ReadsItems (limits : Limits) (items : List (PyStr × PyStr))
    (entries : List (PyStr × JsonValue)) : Prop :=
  List.Forall₂ (fun item entry => item.1 = entry.1 ∧ Reads limits item.2 entry.2) items entries

theorem skipSpace_dumpsItems (item : PyStr × PyStr) (items : List (PyStr × PyStr)) :
    skipSpace (dumpsItems (item :: items) ++ rest) = dumpsItems (item :: items) ++ rest := by
  have hquote : isJsonSpace quotationMark = false := by decide
  cases items with
  | nil => exact skipSpace_of_not hquote _
  | cons item' items => exact skipSpace_of_not hquote _

/-- **The loop of an object** reads its items one after the other. -/
theorem parseMembers_dumpsItems {items : List (PyStr × PyStr)}
    {entries : List (PyStr × JsonValue)} (h : ReadsItems limits items entries) (hne : items ≠ [])
    (fuel depth : ℕ) (read : List (PyStr × JsonValue))
    (hkeys : ((read ++ entries).map Prod.fst).Nodup) :
    parseMembers limits (fuel + items.length + 1) depth read
        (dumpsItems items ++ lineFeed :: closeBrace :: rest) =
      .ok (.object (read ++ entries), rest) := by
  induction h generalizing read with
  | nil => exact absurd rfl hne
  | @cons item entry items entries hitem h ih =>
      obtain ⟨key, t⟩ := item
      obtain ⟨key', value⟩ := entry
      obtain ⟨rfl, ht⟩ : key = key' ∧ Reads limits t value := hitem
      have hfresh : key ∉ read.map Prod.fst := by
        rw [List.map_append, List.map_cons] at hkeys
        exact fun hmem => List.disjoint_of_nodup_append hkeys hmem List.mem_cons_self
      have hset : dictSet read key value = read ++ [(key, value)] := dictSet_of_notMem hfresh
      cases h with
      | nil =>
          have hend : EndsValue (lineFeed :: closeBrace :: rest) := ⟨_, _, rfl, Or.inr rfl⟩
          have hspace : skipSpace (lineFeed :: closeBrace :: rest) = closeBrace :: rest := by
            rw [skipSpace_cons (by decide), skipSpace_of_not (by decide)]
          have hturn := parseMembers_item ht hend fuel depth read key
          rw [hspace, List.head?_cons, if_pos rfl, List.tail_cons, hset] at hturn
          rw [dumpsItems, List.append_assoc, List.cons_append, List.cons_append]
          exact hturn
      | @cons item' entry' items entries hitem' h =>
          have hend : EndsValue (codePoint ',' :: lineFeed :: 0x20 :: 0x20 ::
              (dumpsItems (item' :: items) ++ lineFeed :: closeBrace :: rest)) :=
            ⟨_, _, rfl, Or.inl rfl⟩
          have hcomma : codePoint ',' ≠ closeBrace := by decide
          have hturn := parseMembers_item ht hend (fuel + items.length + 1) depth read key
          rw [skipSpace_of_not (by decide), List.head?_cons,
            if_neg (fun heq => hcomma (Option.some.inj heq)), if_pos rfl, List.tail_cons,
            skipSpace_cons (by decide), skipSpace_cons (by decide), skipSpace_cons (by decide),
            skipSpace_dumpsItems, hset] at hturn
          have hnext := ih (by simp) (read ++ [(key, value)]) (by simpa using hkeys)
          rw [List.append_assoc, List.singleton_append] at hnext
          refine Eq.trans ?_ (hturn.trans hnext)
          rw [dumpsItems, List.append_assoc, List.cons_append, List.cons_append, List.append_assoc]
          · rfl
          · exact nofun

theorem length_le_length_dumpsItems (items : List (PyStr × PyStr)) :
    items.length ≤ (dumpsItems items).length := by
  induction items with
  | nil => exact Nat.zero_le _
  | cons item items ih =>
      obtain ⟨key, t⟩ := item
      cases items with
      | nil =>
          rw [dumpsItems, dumpsString, List.cons_append]
          exact Nat.le_add_left 1 _
      | cons item' items =>
          rw [dumpsItems]
          · simp only [List.length_append, List.length_cons] at ih ⊢
            omega
          · exact nofun

/-- **The text of an object is read as the object**, when its keys are different. -/
theorem loads_dumpsObject {items : List (PyStr × PyStr)} {entries : List (PyStr × JsonValue)}
    (h : ReadsItems limits items entries) (hne : items ≠ [])
    (hkeys : (entries.map Prod.fst).Nodup) :
    loads limits (dumpsObject items) = .ok (.object entries) := by
  have hitems : skipSpace (lineFeed :: 0x20 :: 0x20 ::
      (dumpsItems items ++ lineFeed :: [closeBrace])) =
        dumpsItems items ++ lineFeed :: [closeBrace] := by
    rw [skipSpace_cons (by decide), skipSpace_cons (by decide), skipSpace_cons (by decide)]
    obtain ⟨item, items, rfl⟩ := List.exists_cons_of_ne_nil hne
    exact skipSpace_dumpsItems item items
  have hclose : (dumpsItems items ++ lineFeed :: [closeBrace]).head? ≠ some closeBrace := by
    obtain ⟨item, items, rfl⟩ := List.exists_cons_of_ne_nil hne
    cases items with
    | nil => exact fun h => absurd (Option.some.inj h) (by decide)
    | cons item' items => exact fun h => absurd (Option.some.inj h) (by decide)
  have hlen := length_le_length_dumpsItems items
  obtain ⟨fuel, hfuel⟩ : ∃ fuel, 2 * (dumpsObject items).length + 2 =
      fuel + items.length + 1 + 1 := by
    refine ⟨2 * (dumpsObject items).length - items.length, ?_⟩
    simp only [dumpsObject, List.length_cons, List.length_append]
    omega
  obtain ⟨depth, hdepth⟩ := Nat.exists_eq_succ_of_ne_zero limits.depth_pos.ne'
  have hread := @parseMembers_dumpsItems limits [] _ _ h hne fuel depth [] (by simpa using hkeys)
  rw [loads, hfuel, hdepth, dumpsObject, skipSpace_of_not (by decide), parseValue.eq_def]
  dsimp only
  rw [List.head?_cons, if_pos rfl, List.tail_cons, hitems, if_neg hclose, hread]
  rfl

/-! ## What is written -/

theorem isPrintable_codePoint {c : Char} (h : c.isDigit = true) : IsPrintable (codePoint c) := by
  obtain ⟨hle, hge⟩ := Char.isDigit_iff_toNat.mp h
  have hval : (codePoint c).val = c.toNat := rfl
  have hzero : '0'.toNat = 48 := rfl
  have hnine : '9'.toNat = 57 := rfl
  unfold IsPrintable
  omega

theorem isPrintable_of_mem_decimalDigits {n : ℕ} {p : CodePoint} (h : p ∈ decimalDigits n) :
    IsPrintable p := by
  obtain ⟨c, hc, rfl⟩ := List.mem_map.mp h
  exact isPrintable_codePoint (isDigit_of_mem_toDigits hc)

theorem isPrintable_of_mem_dumpsInt {n : ℤ} (h : dumpsInt limits n = some t) {p : CodePoint}
    (hp : p ∈ t) : IsPrintable p := by
  unfold dumpsInt at h
  split_ifs at h with hfits hneg
  · obtain rfl := Option.some.inj h
    rcases List.mem_cons.mp hp with rfl | hp
    · decide
    · exact isPrintable_of_mem_decimalDigits hp
  · obtain rfl := Option.some.inj h
    exact isPrintable_of_mem_decimalDigits hp

theorem isPrintable_of_mem_dumpsFloat {p : CodePoint} (hp : p ∈ dumpsFloat d) : IsPrintable p := by
  unfold dumpsFloat at hp
  rcases List.mem_append.mp hp with hp | hp
  · exact isPrintable_of_mem_decimalDigits hp
  · rcases List.mem_cons.mp hp with rfl | hp
    · decide
    · obtain ⟨c, hc, rfl⟩ := List.mem_map.mp hp
      exact isPrintable_codePoint (List.all_eq_true.mp (all_isDigit_padded _ _) c hc)

section

variable {P : CodePoint → Prop} (hprintable : ∀ p, IsPrintable p → P p)
include hprintable

theorem forall_mem_escape (p : CodePoint) :
    (∀ q ∈ escape p, P q) ↔ (0x80 ≤ p.val → P p) := by
  have hback : P backslash := hprintable _ (by decide)
  have hhex : ∀ n < 16, P (codePoint (Nat.digitChar n)) := by
    have hall : ∀ n < 16, IsPrintable (codePoint (Nat.digitChar n)) := by decide
    exact fun n hn => hprintable _ (hall n hn)
  rcases escape_cases p with ⟨e, -, he, -, hlt, heq⟩ | ⟨hcontrol, heq⟩ | ⟨-, -, hplain, heq⟩
  · rw [heq, List.forall_mem_cons, List.forall_mem_singleton]
    exact iff_of_true ⟨hback, hprintable e he⟩ fun h => absurd h (by omega)
  · rw [heq, List.forall_mem_cons, List.forall_mem_cons, List.forall_mem_cons, List.forall_mem_cons,
      List.forall_mem_cons, List.forall_mem_singleton]
    refine iff_of_true ⟨hback, hprintable _ (by decide), ?_⟩ fun h => absurd h (by omega)
    exact ⟨hprintable _ (by decide), hprintable _ (by decide), hhex _ (by omega), hhex _ (by omega)⟩
  · rw [heq, List.forall_mem_singleton]
    refine ⟨fun h _ => h, fun h => ?_⟩
    rcases Nat.lt_or_ge p.val 0x80 with hlt | hge
    · exact hprintable p ⟨not_lt.mp hplain, hlt⟩
    · exact h hge

/-- **What a string writes** is printable but for its own code points beyond ASCII. -/
theorem forall_mem_dumpsString (s : PyStr) :
    (∀ q ∈ dumpsString s, P q) ↔ ∀ p ∈ s, 0x80 ≤ p.val → P p := by
  have hquote : P quotationMark := hprintable _ (by decide)
  rw [dumpsString, List.forall_mem_cons, List.forall_mem_append, List.forall_mem_singleton]
  simp only [hquote, true_and, and_true, List.mem_flatMap]
  constructor
  · intro h p hp
    exact (forall_mem_escape hprintable p).mp fun q hq => h q ⟨p, hp, hq⟩
  · rintro h q ⟨p, hp, hq⟩
    exact (forall_mem_escape hprintable p).mpr (h p hp) q hq

theorem forall_mem_dumpsItems (hline : P lineFeed) (items : List (PyStr × PyStr)) :
    (∀ q ∈ dumpsItems items, P q) ↔
      ∀ item ∈ items, (∀ p ∈ item.1, 0x80 ≤ p.val → P p) ∧ ∀ p ∈ item.2, P p := by
  have hcolon : P (codePoint ':') := hprintable _ (by decide)
  have hcomma : P (codePoint ',') := hprintable _ (by decide)
  have hspace : P 0x20 := hprintable _ (by decide)
  induction items with
  | nil => exact iff_of_true (by simp [dumpsItems]) (by simp)
  | cons item items ih =>
      obtain ⟨key, t⟩ := item
      cases items with
      | nil =>
          rw [dumpsItems, List.forall_mem_singleton]
          simp only [List.forall_mem_append, forall_mem_dumpsString hprintable,
            List.forall_mem_cons, hcolon, hspace, true_and]
      | cons item' items =>
          rw [List.forall_mem_cons, ← propext ih, dumpsItems]
          · simp only [List.forall_mem_append, forall_mem_dumpsString hprintable,
              List.forall_mem_cons, hcolon, hcomma, hspace, hline, true_and, and_assoc]
          · exact nofun

/-- **What an object writes.** -/
theorem forall_mem_dumpsObject (hline : P lineFeed) (items : List (PyStr × PyStr)) :
    (∀ q ∈ dumpsObject items, P q) ↔
      ∀ item ∈ items, (∀ p ∈ item.1, 0x80 ≤ p.val → P p) ∧ ∀ p ∈ item.2, P p := by
  have hopen : P openBrace := hprintable _ (by decide)
  have hclose : P closeBrace := hprintable _ (by decide)
  have hspace : P 0x20 := hprintable _ (by decide)
  rw [← forall_mem_dumpsItems hprintable hline, dumpsObject, List.forall_mem_cons,
    List.forall_mem_cons, List.forall_mem_cons, List.forall_mem_cons, List.forall_mem_append,
    List.forall_mem_cons, List.forall_mem_singleton]
  simp only [hopen, hclose, hspace, hline, true_and, and_true]

end

end Foundations
end MigrationStudio
