import Mathlib.Data.List.Chain
import MigrationStudio.Foundations.JsonText

/-!
# `json.dumps` of a value, and reading it back

`json.dumps(value)` with its defaults: arrays and objects nested in any way, a comma and a space
between what they hold, and only ASCII in the strings.  A code point above `0xffff` is written as a
pair of surrogates, and the reader makes one code point of any pair that is written so.  A string in
which a high surrogate stands in front of a low one is therefore read as another string; so is a
dictionary that has such a key, and keys that are read as the same string are one key.

* `JsonValue.dumps`: the text, where a double has any text.
* `joinText`, `JsonValue.read`: what the reader makes of a string and of a value.
* `scanString_asciiEscape`: strings are read so; `joinText_of_noPairs`: without pairs as they are.
* `ReadsAs`: a text that is read as a value wherever a value may end.
* `ReadBack`: the doubles that are read back from the text that `floatRepr` gives them.
* `JsonValue.loads_dumps`: every value with such doubles is read so, up to the depth of the reader.
* `JsonValue.isPrintable_of_mem_dumps`: only printable ASCII is written.
-/

namespace MigrationStudio
namespace Foundations

/-! ## The texts -/

/-- `\uXXXX`. -/
def unicodeEscape (n : ℕ) : PyStr :=
  [backslash, codePoint 'u', codePoint (Nat.digitChar (n / 4096 % 16)),
    codePoint (Nat.digitChar (n / 256 % 16)), codePoint (Nat.digitChar (n / 16 % 16)),
    codePoint (Nat.digitChar (n % 16))]

/-- The surrogates of a code point above `0xffff`. -/
def highSurrogate (p : CodePoint) : ℕ := 0xd800 + (p.val - 0x10000) / 0x400

def lowSurrogate (p : CodePoint) : ℕ := 0xdc00 + (p.val - 0x10000) % 0x400

/-- The escapes of `ensure_ascii`. -/
def asciiEscape (p : CodePoint) : PyStr :=
  if p.val < 0x7f then escape p
  else if p.val < 0x10000 then unicodeEscape p.val
  else unicodeEscape (highSurrogate p) ++ unicodeEscape (lowSurrogate p)

def asciiString (s : PyStr) : PyStr := quotationMark :: (s.flatMap asciiEscape ++ [quotationMark])

/-- `", ".join(texts)`. -/
def joinComma : List PyStr → PyStr
  | [] => []
  | [t] => t
  | t :: ts => t ++ codePoint ',' :: 0x20 :: joinComma ts

namespace JsonValue

section

variable (floatRepr : Float64 → PyStr) (limits : Limits)

mutual

/-- `json.dumps`; `ValueError` for an integer with too many digits.  A double has the text that
`floatRepr` gives it. -/
def dumps : JsonValue → Option PyStr
  | .null => some (text "null")
  | .bool b => some (text (if b then "true" else "false"))
  | .int n => dumpsInt limits n
  | .float x => some (floatRepr x)
  | .string s => some (asciiString s)
  | .array values =>
      (dumpsAll values).map fun ts => codePoint '[' :: (joinComma ts ++ [codePoint ']'])
  | .object entries =>
      (dumpsEntries entries).map fun ts => openBrace :: (joinComma ts ++ [closeBrace])

def dumpsAll : List JsonValue → Option (List PyStr)
  | [] => some []
  | v :: vs => (dumps v).bind fun t => (dumpsAll vs).map fun ts => t :: ts

def dumpsEntries : List (PyStr × JsonValue) → Option (List PyStr)
  | [] => some []
  | entry :: entries =>
      (dumpsEntry entry).bind fun t => (dumpsEntries entries).map fun ts => t :: ts

def dumpsEntry : PyStr × JsonValue → Option PyStr
  | (key, v) => (dumps v).map fun t => asciiString key ++ codePoint ':' :: 0x20 :: t

end

end

end JsonValue

/-! ## What is read -/

/-- What the reader makes of a string: one code point of a high surrogate and a low one. -/
def joinText : PyStr → PyStr
  | p :: q :: s =>
      if isHighSurrogate p && isLowSurrogate q then joinSurrogates p q :: joinText s
      else p :: joinText (q :: s)
  | s => s

/-- No high surrogate stands in front of a low one. -/
def NoPairs (s : PyStr) : Prop :=
  s.IsChain fun p q => ¬ (isHighSurrogate p = true ∧ isLowSurrogate q = true)

instance (s : PyStr) : Decidable (NoPairs s) :=
  inferInstanceAs (Decidable (s.IsChain _))

/-- The dictionary that has the entries written to it, one after the other. -/
def dictOf (read entries : List (PyStr × JsonValue)) : List (PyStr × JsonValue) :=
  entries.foldl (fun d entry => dictSet d entry.1 entry.2) read

namespace JsonValue

mutual

/-- What the reader makes of a value. -/
def read : JsonValue → JsonValue
  | .string s => .string (joinText s)
  | .array values => .array (readAll values)
  | .object entries => .object (dictOf [] (readEntries entries))
  | v => v

def readAll : List JsonValue → List JsonValue
  | [] => []
  | v :: vs => v.read :: readAll vs

def readEntries : List (PyStr × JsonValue) → List (PyStr × JsonValue)
  | [] => []
  | entry :: entries => readEntry entry :: readEntries entries

def readEntry : PyStr × JsonValue → PyStr × JsonValue
  | (key, v) => (joinText key, v.read)

end

mutual

/-- Every double in the value has the property. -/
def Doubles (P : Float64 → Prop) : JsonValue → Prop
  | .float x => P x
  | .array values => AllDoubles P values
  | .object entries => EntriesDoubles P entries
  | _ => True

def AllDoubles (P : Float64 → Prop) : List JsonValue → Prop
  | [] => True
  | v :: vs => v.Doubles P ∧ AllDoubles P vs

def EntriesDoubles (P : Float64 → Prop) : List (PyStr × JsonValue) → Prop
  | [] => True
  | entry :: entries => EntryDoubles P entry ∧ EntriesDoubles P entries

def EntryDoubles (P : Float64 → Prop) : PyStr × JsonValue → Prop
  | (_, v) => v.Doubles P

end

mutual

/-- How deep arrays and objects are nested. -/
def height : JsonValue → ℕ
  | .array values => heightAll values + 1
  | .object entries => heightEntries entries + 1
  | _ => 0

def heightAll : List JsonValue → ℕ
  | [] => 0
  | v :: vs => max v.height (heightAll vs)

def heightEntries : List (PyStr × JsonValue) → ℕ
  | [] => 0
  | entry :: entries => max (heightEntry entry) (heightEntries entries)

def heightEntry : PyStr × JsonValue → ℕ
  | (_, v) => v.height

end

end JsonValue

/-! ## Strings -/

theorem hexCode_digits {n : ℕ} (h : n < 0x10000) :
    hexCode (codePoint (Nat.digitChar (n / 4096 % 16))) (codePoint (Nat.digitChar (n / 256 % 16)))
      (codePoint (Nat.digitChar (n / 16 % 16))) (codePoint (Nat.digitChar (n % 16))) =
        some (Fin.ofNat 0x110000 n) := by
  unfold hexCode
  rw [hexDigit_digitChar (by omega : n / 4096 % 16 < 16),
    hexDigit_digitChar (by omega : n / 256 % 16 < 16),
    hexDigit_digitChar (by omega : n / 16 % 16 < 16), hexDigit_digitChar (by omega : n % 16 < 16)]
  simp only [Option.bind_eq_bind, Option.bind_some, Option.some.injEq, Fin.ext_iff, Fin.val_ofNat]
  omega

theorem scanUnits_unicodeEscape {n : ℕ} (h : n < 0x10000) (cs : PyStr) :
    scanUnits (unicodeEscape n ++ cs) =
      (scanUnits cs).map fun r => ((true, Fin.ofNat 0x110000 n) :: r.1, r.2) :=
  scanUnits_hex (hexCode_digits h) cs

/-- The units that a code point is written as. -/
inductive Written : CodePoint → List (Bool × CodePoint) → Prop where
  | single (escaped : Bool) (p : CodePoint) : Written p [(escaped, p)]
  | pair (p : CodePoint) (h : 0x10000 ≤ p.val) :
      Written p [(true, Fin.ofNat 0x110000 (highSurrogate p)),
        (true, Fin.ofNat 0x110000 (lowSurrogate p))]

theorem scanUnits_asciiEscape (p : CodePoint) (cs : PyStr) :
    ∃ units, Written p units ∧
      scanUnits (asciiEscape p ++ cs) = (scanUnits cs).map fun r => (units ++ r.1, r.2) := by
  have hp := p.isLt
  unfold asciiEscape
  split_ifs with hascii hplane
  · obtain ⟨escaped, -, hscan⟩ := scanUnits_escape p cs
    exact ⟨_, .single escaped p, hscan⟩
  · refine ⟨_, .single true p, ?_⟩
    have hofNat : Fin.ofNat 0x110000 p.val = p := by
      ext
      exact Nat.mod_eq_of_lt hp
    rw [scanUnits_unicodeEscape hplane, hofNat]
    rfl
  · refine ⟨_, .pair p (by omega), ?_⟩
    have hhigh : highSurrogate p < 0x10000 := by
      unfold highSurrogate
      omega
    have hlow : lowSurrogate p < 0x10000 := by
      unfold lowSurrogate
      omega
    rw [List.append_assoc, scanUnits_unicodeEscape hhigh, scanUnits_unicodeEscape hlow,
      Option.map_map]
    rfl

theorem joinSurrogates_pair {p : CodePoint} (h : 0x10000 ≤ p.val) :
    isHighSurrogate (Fin.ofNat 0x110000 (highSurrogate p)) = true ∧
      isLowSurrogate (Fin.ofNat 0x110000 (highSurrogate p)) = false ∧
      isLowSurrogate (Fin.ofNat 0x110000 (lowSurrogate p)) = true ∧
      joinSurrogates (Fin.ofNat 0x110000 (highSurrogate p))
        (Fin.ofNat 0x110000 (lowSurrogate p)) = p := by
  have hp := p.isLt
  have hhigh : (Fin.ofNat 0x110000 (highSurrogate p)).val =
      0xd800 + (p.val - 0x10000) / 0x400 := by
    rw [Fin.val_ofNat, highSurrogate]
    omega
  have hlow : (Fin.ofNat 0x110000 (lowSurrogate p)).val = 0xdc00 + (p.val - 0x10000) % 0x400 := by
    rw [Fin.val_ofNat, lowSurrogate]
    omega
  refine ⟨?_, ?_, ?_, ?_⟩
  · simp only [isHighSurrogate, hhigh, Bool.and_eq_true, decide_eq_true_eq]
    omega
  · simp only [isLowSurrogate, hhigh, Bool.and_eq_false_iff, decide_eq_false_iff_not]
    omega
  · simp only [isLowSurrogate, hlow, Bool.and_eq_true, decide_eq_true_eq]
    omega
  · ext
    show (0x10000 + ((Fin.ofNat 0x110000 (highSurrogate p)).val - 0xd800) * 0x400 +
      ((Fin.ofNat 0x110000 (lowSurrogate p)).val - 0xdc00)) % 0x110000 = p.val
    rw [hhigh, hlow]
    omega

/-- A code point is read back from its units, unless it is a high surrogate before a low one. -/
theorem Written.joinPairs_eq {p : CodePoint} {units : List (Bool × CodePoint)}
    (h : Written p units) {us : List (Bool × CodePoint)}
    (hnext : isHighSurrogate p = true → ∀ u ∈ us.head?, isLowSurrogate u.2 = false) :
    joinPairs (units ++ us) = p :: joinPairs us := by
  cases h with
  | single escaped p =>
    rw [List.singleton_append]
    cases escaped with
    | false => rw [joinPairs.eq_def]
    | true =>
      rcases us with - | ⟨⟨- | -, q⟩, us⟩
      · rw [joinPairs.eq_def]
      · rw [joinPairs.eq_def]
      · rw [joinPairs.eq_def]
        dsimp only
        have hpair : (isHighSurrogate p && isLowSurrogate q) = false := by
          cases hhigh : isHighSurrogate p with
          | false => rfl
          | true => exact hnext hhigh (true, q) rfl
        rw [hpair, if_neg Bool.false_ne_true]
  | pair p hplane =>
    obtain ⟨hhigh, -, hlow, hjoin⟩ := joinSurrogates_pair hplane
    rw [List.cons_append, List.singleton_append, joinPairs.eq_def]
    dsimp only
    rw [hhigh, hlow, Bool.and_self, if_pos rfl, hjoin]

/-- The first unit of a code point that is no low surrogate is none. -/
theorem Written.head_not_low {p : CodePoint} {units : List (Bool × CodePoint)}
    (h : Written p units) (hp : isLowSurrogate p = false) (us : List (Bool × CodePoint)) :
    ∀ u ∈ (units ++ us).head?, isLowSurrogate u.2 = false := by
  cases h with
  | single escaped p =>
    intro u hu
    obtain rfl := Option.mem_some.mp hu
    exact hp
  | pair p hplane =>
    intro u hu
    obtain rfl := Option.mem_some.mp hu
    exact (joinSurrogates_pair hplane).2.1

/-- A surrogate is written as its digits. -/
theorem scanUnits_surrogate {p : CodePoint} (h : IsSurrogate p) (cs : PyStr) :
    scanUnits (asciiEscape p ++ cs) = (scanUnits cs).map fun r => ((true, p) :: r.1, r.2) := by
  obtain ⟨hlow, hhigh⟩ := h
  have hofNat : Fin.ofNat 0x110000 p.val = p := by
    ext
    exact Nat.mod_eq_of_lt p.isLt
  rw [asciiEscape, if_neg (by omega), if_pos (by omega), scanUnits_unicodeEscape (by omega), hofNat]

theorem isSurrogate_of_high {p : CodePoint} (h : isHighSurrogate p = true) : IsSurrogate p := by
  simp only [isHighSurrogate, Bool.and_eq_true, decide_eq_true_eq] at h
  exact ⟨h.1, by omega⟩

theorem isSurrogate_of_low {p : CodePoint} (h : isLowSurrogate p = true) : IsSurrogate p := by
  simp only [isLowSurrogate, Bool.and_eq_true, decide_eq_true_eq] at h
  exact ⟨by omega, h.2⟩

/-- **The units of a string**, and what the reader makes of them. -/
theorem scanUnits_asciiString (s rest : PyStr) :
    ∃ units, scanUnits (s.flatMap asciiEscape ++ quotationMark :: rest) = some (units, rest) ∧
      joinPairs units = joinText s ∧
      ((∀ p ∈ s.head?, isLowSurrogate p = false) →
        ∀ u ∈ units.head?, isLowSurrogate u.2 = false) := by
  have hend : scanUnits (quotationMark :: rest) = some ([], rest) := by
    rw [scanUnits.eq_def]
    exact if_pos rfl
  -- one more code point, which forms no pair with the next one
  have hstep : ∀ p s units, (isHighSurrogate p = true → ∀ q ∈ s.head?, isLowSurrogate q = false) →
      scanUnits (s.flatMap asciiEscape ++ quotationMark :: rest) = some (units, rest) →
      ((∀ q ∈ s.head?, isLowSurrogate q = false) →
        ∀ u ∈ units.head?, isLowSurrogate u.2 = false) →
      ∃ units', scanUnits ((p :: s).flatMap asciiEscape ++ quotationMark :: rest) =
          some (units', rest) ∧ joinPairs units' = p :: joinPairs units ∧
        (isLowSurrogate p = false → ∀ u ∈ units'.head?, isLowSurrogate u.2 = false) := by
    intro p s units hpair hscan hhead
    obtain ⟨first, hfirst, hcons⟩ :=
      scanUnits_asciiEscape p (s.flatMap asciiEscape ++ quotationMark :: rest)
    refine ⟨first ++ units, ?_, hfirst.joinPairs_eq fun hhigh => hhead (hpair hhigh), fun hp =>
      hfirst.head_not_low hp units⟩
    rw [List.flatMap_cons, List.append_assoc, hcons, hscan, Option.map_some]
  induction s using joinText.induct with
  | case1 p q s hpair ih =>
    obtain ⟨units, hscan, hjoin, -⟩ := ih
    obtain ⟨hhigh, hlow⟩ := Bool.and_eq_true_iff.mp hpair
    have hp := isSurrogate_of_high hhigh
    have hq := isSurrogate_of_low hlow
    refine ⟨(true, p) :: (true, q) :: units, ?_, ?_, fun h u hu => ?_⟩
    · rw [List.flatMap_cons, List.flatMap_cons, List.append_assoc, List.append_assoc,
        scanUnits_surrogate hp, scanUnits_surrogate hq, hscan, Option.map_some, Option.map_some]
    · rw [joinPairs.eq_def]
      dsimp only
      rw [joinText, if_pos hpair, if_pos hpair, hjoin]
    · obtain rfl := Option.mem_some.mp hu
      exact h p rfl
  | case2 p q s hpair ih =>
    obtain ⟨units, hscan, hjoin, hhead⟩ := ih
    have hnext : isHighSurrogate p = true → ∀ q' ∈ (q :: s).head?, isLowSurrogate q' = false := by
      rintro hhigh q' hq'
      obtain rfl := Option.mem_some.mp hq'
      rw [hhigh, Bool.true_and] at hpair
      exact Bool.eq_false_of_not_eq_true hpair
    obtain ⟨units', hscan', hjoin', hhead'⟩ := hstep p (q :: s) units hnext hscan hhead
    refine ⟨units', hscan', ?_, fun h => hhead' (h p rfl)⟩
    rw [hjoin', hjoin, joinText, if_neg hpair]
  | case3 s hshort =>
    cases s with
    | nil =>
      refine ⟨[], hend, ?_, fun _ u hu => absurd hu (Option.not_mem_none u)⟩
      rw [joinPairs.eq_def]
      rfl
    | cons p s =>
      obtain rfl : s = [] := by
        cases s with
        | nil => rfl
        | cons q s => exact absurd rfl (hshort p q s)
      obtain ⟨units', hscan', hjoin', hhead'⟩ :=
        hstep p [] [] (fun _ q hq => absurd hq (Option.not_mem_none q)) hend fun _ u hu =>
          absurd hu (Option.not_mem_none u)
      refine ⟨units', hscan', ?_, fun h => hhead' (h p rfl)⟩
      rw [hjoin', joinPairs.eq_def]
      rfl

/-- **A string is read** as the reader joins it. -/
theorem scanString_asciiEscape (s rest : PyStr) :
    scanString (s.flatMap asciiEscape ++ quotationMark :: rest) = some (joinText s, rest) := by
  obtain ⟨units, hscan, hjoin, -⟩ := scanUnits_asciiString s rest
  rw [scanString, hscan, Option.map_some, hjoin]

/-- **A string without pairs is read back.** -/
theorem joinText_of_noPairs {s : PyStr} (h : NoPairs s) : joinText s = s := by
  induction s using joinText.induct with
  | case1 p q s hpair ih =>
    exact absurd (Bool.and_eq_true_iff.mp hpair) (List.isChain_cons_cons.mp h).1
  | case2 p q s hpair ih =>
    rw [joinText, if_neg hpair, ih (List.isChain_cons_cons.mp h).2]
  | case3 s hshort =>
    cases s with
    | nil => rfl
    | cons p s =>
      cases s with
      | nil => rfl
      | cons q s => exact absurd rfl (hshort p q s)

/-! ## Texts that are read as values -/

/-- What stands behind a value: a comma, the end of an object or of an array, or nothing. -/
def EndsItem (rest : PyStr) : Prop :=
  ∀ c ∈ rest.head?, c = codePoint ',' ∨ c = closeBrace ∨ c = codePoint ']'

/-- The text is read as the value wherever a value may end, with two turns of the reader for each of
its characters and `height` more levels of arrays and objects. -/
structure ReadsAs (limits : Limits) (t : PyStr) (value : JsonValue) (height : ℕ) : Prop where
  begins : ∃ c t', t = c :: t' ∧ c ≠ codePoint ']' ∧ isJsonSpace c = false
  parse : ∀ fuel depth rest, 2 * t.length ≤ fuel → height ≤ depth → EndsItem rest →
    parseValue limits fuel depth (t ++ rest) = .ok (value, rest)

variable {limits : Limits} {t rest : PyStr} {value : JsonValue} {height : ℕ}

theorem ReadsAs.mono {height' : ℕ} (h : ReadsAs limits t value height) (hle : height ≤ height') :
    ReadsAs limits t value height' :=
  ⟨h.begins, fun fuel depth rest hfuel hdepth => h.parse fuel depth rest hfuel (hle.trans hdepth)⟩

theorem ReadsAs.skipSpace_eq (h : ReadsAs limits t value height) (rest : PyStr) :
    skipSpace (t ++ rest) = t ++ rest := by
  obtain ⟨c, t', rfl, -, hspace⟩ := h.begins
  exact skipSpace_of_not hspace (t' ++ rest)

/-- Scalars. -/
theorem readsAs_scalar
    (hbegins : ∃ c t', t = c :: t' ∧ c ≠ openBrace ∧ c ≠ codePoint '[' ∧ c ≠ codePoint ']' ∧
      isJsonSpace c = false)
    (hparse : ∀ rest, EndsItem rest → parseScalar limits (t ++ rest) = .ok (value, rest)) :
    ReadsAs limits t value 0 := by
  obtain ⟨c, t', rfl, hbrace, hbracket, hclose, hspace⟩ := hbegins
  refine ⟨⟨c, t', rfl, hclose, hspace⟩, fun fuel depth rest hfuel _ hrest => ?_⟩
  obtain ⟨fuel, rfl⟩ : ∃ n, fuel = n + 1 := Nat.exists_eq_add_one.mpr (by
    rw [List.length_cons] at hfuel
    omega)
  rw [parseValue.eq_def]
  dsimp only
  rw [List.cons_append, List.head?_cons, if_neg fun h => hbrace (Option.some.inj h),
    if_neg fun h => hbracket (Option.some.inj h)]
  exact hparse rest hrest

/-- A text without characters of its own stands for one of the constants. -/
theorem parseScalar_constant {cs : PyStr} {r : JsonValue × PyStr}
    (hquote : cs.head? ≠ some quotationMark) (h : scanConstant cs = some r) :
    parseScalar limits cs = .ok r := by
  rw [parseScalar, if_neg hquote, h]

theorem readsAs_null : ReadsAs limits (text "null") .null 0 :=
  readsAs_scalar ⟨codePoint 'n', text "ull", rfl, by decide, by decide, by decide, by decide⟩
    fun _ _ => parseScalar_constant (fun h => absurd (Option.some.inj h) (by decide)) rfl

theorem readsAs_bool (b : Bool) :
    ReadsAs limits (text (if b then "true" else "false")) (.bool b) 0 := by
  cases b with
  | true =>
    exact readsAs_scalar ⟨codePoint 't', text "rue", rfl, by decide, by decide, by decide,
      by decide⟩
      fun _ _ => parseScalar_constant (fun h => absurd (Option.some.inj h) (by decide)) rfl
  | false =>
    exact readsAs_scalar ⟨codePoint 'f', text "alse", rfl, by decide, by decide, by decide,
      by decide⟩
      fun _ _ => parseScalar_constant (fun h => absurd (Option.some.inj h) (by decide)) rfl

theorem readsAs_asciiString (s : PyStr) :
    ReadsAs limits (asciiString s) (.string (joinText s)) 0 := by
  refine readsAs_scalar ⟨quotationMark, _, rfl, by decide, by decide, by decide, by decide⟩
    fun rest _ => ?_
  rw [asciiString, List.cons_append, List.append_assoc, List.singleton_append, parseScalar,
    List.head?_cons, if_pos rfl, List.tail_cons, scanString_asciiEscape]

/-- Nothing that ends a value continues a number. -/
theorem EndsItem.head_ne (h : EndsItem rest) {c : CodePoint} (hcomma : c ≠ codePoint ',')
    (hbrace : c ≠ closeBrace) (hbracket : c ≠ codePoint ']') : rest.head? ≠ some c := by
  intro hhead
  rcases h c hhead with rfl | rfl | rfl
  · exact hcomma rfl
  · exact hbrace rfl
  · exact hbracket rfl

theorem EndsItem.stops (h : EndsItem rest) : Stops rest := by
  intro c hc
  rcases h c hc with rfl | rfl | rfl
  · decide
  · decide
  · decide

theorem EndsItem.scanFraction_eq (h : EndsItem rest) : scanFraction rest = ([], rest) := by
  cases rest with
  | nil => rfl
  | cons c rest =>
    have hpoint : c ≠ codePoint '.' := fun hc =>
      h.head_ne (by decide) (by decide) (by decide) (congrArg some hc)
    rw [scanFraction, decide_eq_false hpoint, Bool.false_and, if_neg Bool.false_ne_true]

theorem EndsItem.scanExponent_eq (h : EndsItem rest) : scanExponent rest = (none, rest) := by
  cases rest with
  | nil => rfl
  | cons c rest =>
    have hsmall : c ≠ codePoint 'e' := fun hc =>
      h.head_ne (by decide) (by decide) (by decide) (congrArg some hc)
    have hcapital : c ≠ codePoint 'E' := fun hc =>
      h.head_ne (by decide) (by decide) (by decide) (congrArg some hc)
    rw [scanExponent, decide_eq_false hsmall, decide_eq_false hcapital, Bool.or_false,
      Bool.false_and, if_neg Bool.false_ne_true]

/-- **An integer is read**, when it has a text. -/
theorem readsAs_int {n : ℤ} (h : dumpsInt limits n = some t) : ReadsAs limits t (.int n) 0 := by
  obtain ⟨c, t', rfl, hbrace, hbracket, hspace⟩ := begins_dumpsInt h
  have hclose : c ≠ codePoint ']' := by
    rintro rfl
    obtain ⟨d, ds, hds, hdigit⟩ := beginsDigit_decimalDigits n.natAbs []
    rw [List.append_nil] at hds
    unfold dumpsInt at h
    split_ifs at h with hfits hneg
    · exact absurd (List.cons.inj (Option.some.inj h)).1 (by decide)
    · rw [hds] at h
      obtain rfl : d = codePoint ']' := (List.cons.inj (Option.some.inj h)).1
      exact absurd hdigit (by decide)
  exact readsAs_scalar ⟨c, t', rfl, hbrace, hbracket, hclose, hspace⟩ fun rest hrest =>
    parseScalar_dumpsInt h hrest.stops hrest.scanFraction_eq hrest.scanExponent_eq

/-! ## Arrays and objects -/

theorem joinComma_cons {t : PyStr} {ts : List PyStr} (h : ts ≠ []) :
    joinComma (t :: ts) = t ++ codePoint ',' :: 0x20 :: joinComma ts := by
  obtain ⟨t', ts, rfl⟩ := List.exists_cons_of_ne_nil h
  rw [joinComma.eq_def]

theorem skipSpace_joinComma {ts : List PyStr} (hne : ts ≠ [])
    (h : ∀ t ∈ ts, ∃ c t', t = c :: t' ∧ isJsonSpace c = false) (rest : PyStr) :
    skipSpace (joinComma ts ++ rest) = joinComma ts ++ rest := by
  obtain ⟨t, ts, rfl⟩ := List.exists_cons_of_ne_nil hne
  obtain ⟨c, t', rfl, hspace⟩ := h t (List.mem_cons_self ..)
  by_cases hlast : ts = []
  · subst hlast
    exact skipSpace_of_not hspace _
  · rw [joinComma_cons hlast]
    exact skipSpace_of_not hspace _

theorem skipSpace_comma (cs : PyStr) :
    skipSpace (codePoint ',' :: cs) = codePoint ',' :: cs :=
  skipSpace_of_not (by decide) cs

theorem exists_of_forall₂ {α β : Type*} {R : α → β → Prop} {l : List α} {l' : List β}
    (h : List.Forall₂ R l l') {x : α} (hx : x ∈ l) : ∃ y ∈ l', R x y := by
  induction h with
  | nil => exact absurd hx List.not_mem_nil
  | @cons a b l l' hab h ih =>
      rcases List.mem_cons.mp hx with rfl | hmem
      · exact ⟨b, List.mem_cons_self .., hab⟩
      · obtain ⟨y, hy, hxy⟩ := ih hmem
        exact ⟨y, List.mem_cons_of_mem _ hy, hxy⟩

/-- **The loop of an array** reads its elements one after the other. -/
theorem parseElements_joinComma {ts : List PyStr} {values : List JsonValue}
    (h : List.Forall₂ (fun t value => ReadsAs limits t value height) ts values) (hne : ts ≠ [])
    {fuel depth : ℕ} (hfuel : 2 * (joinComma ts).length + 1 ≤ fuel) (hdepth : height ≤ depth)
    (read : List JsonValue) (rest : PyStr) :
    parseElements limits fuel depth read (joinComma ts ++ codePoint ']' :: rest) =
      .ok (.array (read ++ values), rest) := by
  induction h generalizing fuel read with
  | nil => exact absurd rfl hne
  | @cons t value ts values ht h ih =>
      obtain ⟨fuel, rfl⟩ : ∃ n, fuel = n + 1 := Nat.exists_eq_add_one.mpr (by omega)
      by_cases hlast : ts = []
      · subst hlast
        obtain rfl : values = [] := List.forall₂_nil_left_iff.mp h
        have hends : EndsItem (codePoint ']' :: rest) := fun c hc =>
          Or.inr (Or.inr (Option.mem_some.mp hc).symm)
        rw [joinComma] at hfuel ⊢
        rw [parseElements.eq_def]
        dsimp only
        rw [ht.parse fuel depth _ (by omega) hdepth hends]
        dsimp only
        rw [skipSpace_of_not (by decide), List.head?_cons, if_pos rfl, List.tail_cons]
      · rw [joinComma_cons hlast, List.length_append, List.length_cons, List.length_cons] at hfuel
        have hends : EndsItem (codePoint ',' :: 0x20 :: (joinComma ts ++ codePoint ']' :: rest)) :=
          fun c hc => Or.inl (Option.mem_some.mp hc).symm
        have hnext : skipSpace (joinComma ts ++ codePoint ']' :: rest) =
            joinComma ts ++ codePoint ']' :: rest := by
          refine skipSpace_joinComma hlast (fun t ht => ?_) _
          obtain ⟨v, -, hv⟩ := exists_of_forall₂ h ht
          obtain ⟨c, t', heq, -, hspace⟩ := hv.begins
          exact ⟨c, t', heq, hspace⟩
        rw [joinComma_cons hlast, List.append_assoc, List.cons_append, List.cons_append,
          parseElements.eq_def]
        dsimp only
        rw [ht.parse fuel depth _ (by omega) hdepth hends]
        dsimp only
        rw [skipSpace_comma, List.head?_cons, if_neg (by decide), if_pos rfl, List.tail_cons,
          skipSpace_cons (by decide), hnext, ih hlast (by omega) (read ++ [value]),
          List.append_assoc, List.singleton_append]

/-- The text of an item of an object: that of a key, and that of a value. -/
def ReadsItem (limits : Limits) (height : ℕ) (item : PyStr) (entry : PyStr × JsonValue) : Prop :=
  ∃ key t, item = asciiString key ++ codePoint ':' :: 0x20 :: t ∧ entry.1 = joinText key ∧
    ReadsAs limits t entry.2 height

/-- **The loop of an object** reads its items one after the other. -/
theorem parseMembers_joinComma {items : List PyStr} {entries : List (PyStr × JsonValue)}
    (h : List.Forall₂ (ReadsItem limits height) items entries) (hne : items ≠ []) {fuel depth : ℕ}
    (hfuel : 2 * (joinComma items).length + 1 ≤ fuel) (hdepth : height ≤ depth)
    (read : List (PyStr × JsonValue)) (rest : PyStr) :
    parseMembers limits fuel depth read (joinComma items ++ closeBrace :: rest) =
      .ok (.object (dictOf read entries), rest) := by
  induction h generalizing fuel read with
  | nil => exact absurd rfl hne
  | @cons item entry items entries hitem h ih =>
      obtain ⟨_, value⟩ := entry
      obtain ⟨key, t, rfl, rfl, ht⟩ := hitem
      obtain ⟨fuel, rfl⟩ : ∃ n, fuel = n + 1 := Nat.exists_eq_add_one.mpr (by omega)
      -- one turn of the loop, up to what stands behind the value
      have hturn : ∀ rest', EndsItem rest' → 2 * t.length ≤ fuel →
          parseMembers limits (fuel + 1) depth read
              (asciiString key ++ codePoint ':' :: 0x20 :: (t ++ rest')) =
            if (skipSpace rest').head? = some closeBrace then
              .ok (.object (dictSet read (joinText key) value), (skipSpace rest').tail)
            else if (skipSpace rest').head? = some (codePoint ',') then
              parseMembers limits fuel depth (dictSet read (joinText key) value)
                (skipSpace (skipSpace rest').tail)
            else .error .decode := by
        intro rest' hends hlength
        have hscan := scanString_asciiEscape key (codePoint ':' :: 0x20 :: (t ++ rest'))
        rw [asciiString, List.cons_append, List.append_assoc, List.singleton_append,
          parseMembers, List.head?_cons, if_neg (not_not.mpr rfl), List.tail_cons, hscan]
        dsimp only
        rw [skipSpace_of_not (by decide), List.head?_cons, if_neg (not_not.mpr rfl),
          List.tail_cons, skipSpace_cons (by decide), ht.skipSpace_eq,
          ht.parse fuel depth _ hlength hdepth hends]
      by_cases hlast : items = []
      · subst hlast
        obtain rfl : entries = [] := List.forall₂_nil_left_iff.mp h
        have hends : EndsItem (closeBrace :: rest) := fun c hc =>
          Or.inr (Or.inl (Option.mem_some.mp hc).symm)
        rw [joinComma, List.length_append, List.length_cons, List.length_cons] at hfuel
        rw [joinComma, List.append_assoc, List.cons_append, List.cons_append,
          hturn _ hends (by omega), skipSpace_of_not (by decide), List.head?_cons, if_pos rfl,
          List.tail_cons]
        rfl
      · rw [joinComma_cons hlast] at hfuel
        simp only [List.length_append, List.length_cons] at hfuel
        have hends : EndsItem (codePoint ',' :: 0x20 :: (joinComma items ++ closeBrace :: rest)) :=
          fun c hc => Or.inl (Option.mem_some.mp hc).symm
        have hnext : skipSpace (joinComma items ++ closeBrace :: rest) =
            joinComma items ++ closeBrace :: rest := by
          refine skipSpace_joinComma hlast (fun item hitem => ?_) _
          obtain ⟨entry, -, key, t, rfl, -⟩ := exists_of_forall₂ h hitem
          exact ⟨quotationMark, _, rfl, by decide⟩
        rw [joinComma_cons hlast, List.append_assoc, List.append_assoc, List.cons_append,
          List.cons_append, List.cons_append, List.cons_append, hturn _ hends (by omega),
          skipSpace_comma, List.head?_cons, if_neg (by decide), if_pos rfl, List.tail_cons,
          skipSpace_cons (by decide), hnext,
          ih hlast (by omega) (dictSet read (joinText key) value)]
        rfl

/-- **An array** is read. -/
theorem readsAs_array {ts : List PyStr} {values : List JsonValue}
    (h : List.Forall₂ (fun t value => ReadsAs limits t value height) ts values) :
    ReadsAs limits (codePoint '[' :: (joinComma ts ++ [codePoint ']'])) (.array values)
      (height + 1) := by
  refine ⟨⟨codePoint '[', _, rfl, by decide, by decide⟩, fun fuel depth rest hfuel hdepth _ => ?_⟩
  rw [List.length_cons, List.length_append, List.length_singleton] at hfuel
  obtain ⟨fuel, rfl⟩ : ∃ n, fuel = n + 1 := Nat.exists_eq_add_one.mpr (by omega)
  obtain ⟨depth, rfl⟩ : ∃ n, depth = n + 1 := Nat.exists_eq_add_one.mpr (by omega)
  rw [List.cons_append, List.append_assoc, List.singleton_append, parseValue.eq_def]
  dsimp only
  rw [List.head?_cons, if_neg (by decide), if_pos rfl, List.tail_cons]
  by_cases hne : ts = []
  · subst hne
    obtain rfl : values = [] := List.forall₂_nil_left_iff.mp h
    rw [joinComma, List.nil_append, skipSpace_of_not (by decide), List.head?_cons, if_pos rfl,
      List.tail_cons]
  · have hbegins : ∀ t ∈ ts, ∃ c t', t = c :: t' ∧ c ≠ codePoint ']' ∧ isJsonSpace c = false := by
      intro t ht
      obtain ⟨v, -, hv⟩ := exists_of_forall₂ h ht
      exact hv.begins
    have hspace := skipSpace_joinComma hne (fun t ht => by
      obtain ⟨c, t', heq, -, hspace⟩ := hbegins t ht
      exact ⟨c, t', heq, hspace⟩) (codePoint ']' :: rest)
    have hhead : (joinComma ts ++ codePoint ']' :: rest).head? ≠ some (codePoint ']') := by
      obtain ⟨t, ts, rfl⟩ := List.exists_cons_of_ne_nil hne
      obtain ⟨c, t', rfl, hc, -⟩ := hbegins t (List.mem_cons_self ..)
      by_cases hlast : ts = []
      · subst hlast
        exact fun heq => hc (Option.some.inj heq)
      · rw [joinComma_cons hlast]
        exact fun heq => hc (Option.some.inj heq)
    rw [hspace, if_neg hhead]
    exact parseElements_joinComma h hne (by omega) (by omega) [] rest

/-- **An object** is read as the dictionary that its items are written to. -/
theorem readsAs_object {items : List PyStr} {entries : List (PyStr × JsonValue)}
    (h : List.Forall₂ (ReadsItem limits height) items entries) :
    ReadsAs limits (openBrace :: (joinComma items ++ [closeBrace])) (.object (dictOf [] entries))
      (height + 1) := by
  refine ⟨⟨openBrace, _, rfl, by decide, by decide⟩, fun fuel depth rest hfuel hdepth _ => ?_⟩
  rw [List.length_cons, List.length_append, List.length_singleton] at hfuel
  obtain ⟨fuel, rfl⟩ : ∃ n, fuel = n + 1 := Nat.exists_eq_add_one.mpr (by omega)
  obtain ⟨depth, rfl⟩ : ∃ n, depth = n + 1 := Nat.exists_eq_add_one.mpr (by omega)
  rw [List.cons_append, List.append_assoc, List.singleton_append, parseValue.eq_def]
  dsimp only
  rw [List.head?_cons, if_pos rfl, List.tail_cons]
  by_cases hne : items = []
  · subst hne
    obtain rfl : entries = [] := List.forall₂_nil_left_iff.mp h
    rw [joinComma, List.nil_append, skipSpace_of_not (by decide), List.head?_cons, if_pos rfl,
      List.tail_cons]
    rfl
  · have hbegins : ∀ item ∈ items, ∃ item', item = quotationMark :: item' := by
      intro item hitem
      obtain ⟨entry, -, key, t, rfl, -⟩ := exists_of_forall₂ h hitem
      exact ⟨_, rfl⟩
    have hspace := skipSpace_joinComma hne (fun item hitem => by
      obtain ⟨item', rfl⟩ := hbegins item hitem
      exact ⟨quotationMark, item', rfl, by decide⟩) (closeBrace :: rest)
    have hhead : (joinComma items ++ closeBrace :: rest).head? ≠ some closeBrace := by
      obtain ⟨item, items, rfl⟩ := List.exists_cons_of_ne_nil hne
      obtain ⟨item', rfl⟩ := hbegins item (List.mem_cons_self ..)
      by_cases hlast : items = []
      · subst hlast
        exact fun heq => absurd (Option.some.inj heq) (by decide)
      · rw [joinComma_cons hlast]
        exact fun heq => absurd (Option.some.inj heq) (by decide)
    rw [hspace, if_neg hhead]
    exact parseMembers_joinComma h hne (by omega) (by omega) [] rest

/-! ## Values -/

/-- A double that is read back from its text, in printable ASCII. -/
structure ReadBack (floatRepr : Float64 → PyStr) (limits : Limits) (x : Float64) : Prop where
  reads : ReadsAs limits (floatRepr x) (.float x) 0
  printable : ∀ p ∈ floatRepr x, IsPrintable p

/-- **A double** with its digits around the point is read back. -/
theorem readBack_dumpsFloat {d : Double} {floatRepr : Float64 → PyStr} (hd : 1 ≤ d.value)
    (hbound : d.value < overflowBound) (h : floatRepr (.finite d) = dumpsFloat d) :
    ReadBack floatRepr limits (.finite d) := by
  refine ⟨h ▸ readsAs_scalar ?_ fun rest hrest =>
    parseScalar_dumpsFloat hd hbound hrest.stops hrest.scanExponent_eq, fun p hp => ?_⟩
  · obtain ⟨c, t', heq, hc⟩ := beginsDigit_dumpsFloat d
    refine ⟨c, t', heq, ?_, ?_, ?_, ?_⟩
    · rintro rfl
      exact absurd hc (by decide)
    · rintro rfl
      exact absurd hc (by decide)
    · rintro rfl
      exact absurd hc (by decide)
    · exact isJsonSpace_of_isDigit hc
  · exact isPrintable_of_mem_dumpsFloat (h ▸ hp)

/-- Entries with different keys are the dictionary. -/
theorem dictOf_of_nodup {written entries : List (PyStr × JsonValue)}
    (h : ((written ++ entries).map Prod.fst).Nodup) :
    dictOf written entries = written ++ entries := by
  induction entries generalizing written with
  | nil => exact (List.append_nil written).symm
  | cons entry entries ih =>
      obtain ⟨key, v⟩ := entry
      have hfresh : key ∉ written.map Prod.fst := by
        rw [List.map_append, List.map_cons] at h
        exact fun hmem => List.disjoint_of_nodup_append h hmem List.mem_cons_self
      have hrest : ((written ++ [(key, v)] ++ entries).map Prod.fst).Nodup := by
        rwa [List.append_assoc, List.singleton_append]
      show dictOf (dictSet written key v) entries = written ++ (key, v) :: entries
      rw [dictSet_of_notMem hfresh, ih hrest, List.append_assoc, List.singleton_append]

namespace JsonValue

variable {floatRepr : Float64 → PyStr}

mutual

/-- **Every value is read** from its text, wherever a value may end. -/
theorem readsAs_dumps : ∀ {v : JsonValue} {t : PyStr}, v.dumps floatRepr limits = some t →
    v.Doubles (ReadBack floatRepr limits) → ReadsAs limits t v.read v.height
  | .null, _, h, _ => Option.some.inj h ▸ readsAs_null
  | .bool b, _, h, _ => Option.some.inj h ▸ readsAs_bool b
  | .int _, _, h, _ => readsAs_int h
  | .float _, _, h, hx => Option.some.inj h ▸ hx.reads
  | .string s, _, h, _ => Option.some.inj h ▸ readsAs_asciiString s
  | .array values, _, h, hfloats => by
      obtain ⟨ts, hts, rfl⟩ := Option.map_eq_some_iff.mp h
      exact readsAs_array (forall₂_dumpsAll hts hfloats (le_refl _))
  | .object entries, _, h, hfloats => by
      obtain ⟨ts, hts, rfl⟩ := Option.map_eq_some_iff.mp h
      exact readsAs_object (forall₂_dumpsEntries hts hfloats (le_refl _))

theorem forall₂_dumpsAll : ∀ {vs : List JsonValue} {ts : List PyStr},
    dumpsAll floatRepr limits vs = some ts → AllDoubles (ReadBack floatRepr limits) vs →
    ∀ {height : ℕ}, heightAll vs ≤ height →
    List.Forall₂ (fun t value => ReadsAs limits t value height) ts (readAll vs)
  | [], _, h, _, _, _ => Option.some.inj h ▸ .nil
  | v :: vs, _, h, hfloats, _, hheight => by
      obtain ⟨t, ht, hrest⟩ := Option.bind_eq_some_iff.mp h
      obtain ⟨ts, hts, rfl⟩ := Option.map_eq_some_iff.mp hrest
      exact .cons ((readsAs_dumps ht hfloats.1).mono ((le_max_left _ _).trans hheight))
        (forall₂_dumpsAll hts hfloats.2 ((le_max_right _ _).trans hheight))

theorem forall₂_dumpsEntries : ∀ {entries : List (PyStr × JsonValue)} {ts : List PyStr},
    dumpsEntries floatRepr limits entries = some ts →
    EntriesDoubles (ReadBack floatRepr limits) entries → ∀ {height : ℕ},
    heightEntries entries ≤ height →
    List.Forall₂ (ReadsItem limits height) ts (readEntries entries)
  | [], _, h, _, _, _ => Option.some.inj h ▸ .nil
  | entry :: entries, _, h, hfloats, _, hheight => by
      obtain ⟨t, ht, hrest⟩ := Option.bind_eq_some_iff.mp h
      obtain ⟨ts, hts, rfl⟩ := Option.map_eq_some_iff.mp hrest
      exact .cons (readsItem_dumpsEntry ht hfloats.1 ((le_max_left _ _).trans hheight))
        (forall₂_dumpsEntries hts hfloats.2 ((le_max_right _ _).trans hheight))

theorem readsItem_dumpsEntry : ∀ {entry : PyStr × JsonValue} {item : PyStr},
    dumpsEntry floatRepr limits entry = some item →
    EntryDoubles (ReadBack floatRepr limits) entry → ∀ {height : ℕ},
    heightEntry entry ≤ height → ReadsItem limits height item (readEntry entry)
  | (key, _), _, h, hfloats, _, hheight => by
      obtain ⟨t, ht, rfl⟩ := Option.map_eq_some_iff.mp h
      exact ⟨key, t, rfl, rfl, (readsAs_dumps ht hfloats).mono hheight⟩

end

/-- **What `json.dumps` writes, `json.loads` reads**, up to the depth that it can read. -/
theorem loads_dumps {v : JsonValue} (h : v.dumps floatRepr limits = some t)
    (hfloats : v.Doubles (ReadBack floatRepr limits)) (hdepth : v.height ≤ limits.depth) :
    loads limits t = .ok v.read := by
  have hreads := readsAs_dumps h hfloats
  have hskip := hreads.skipSpace_eq []
  have hparse := hreads.parse (2 * t.length + 2) limits.depth [] (by omega) hdepth nofun
  rw [List.append_nil] at hskip hparse
  rw [loads, hskip, hparse]
  exact if_pos rfl

end JsonValue

/-! ## What is written -/

variable {floatRepr : Float64 → PyStr}

theorem isPrintable_of_mem_unicodeEscape {n : ℕ} {p : CodePoint} (h : p ∈ unicodeEscape n) :
    IsPrintable p := by
  have hhex : ∀ n < 16, IsPrintable (codePoint (Nat.digitChar n)) := by decide
  have hall : ∀ p ∈ unicodeEscape n, IsPrintable p := by
    rw [unicodeEscape, List.forall_mem_cons, List.forall_mem_cons, List.forall_mem_cons,
      List.forall_mem_cons, List.forall_mem_cons, List.forall_mem_singleton]
    exact ⟨by decide, by decide, hhex _ (Nat.mod_lt _ (by decide)),
      hhex _ (Nat.mod_lt _ (by decide)), hhex _ (Nat.mod_lt _ (by decide)),
      hhex _ (Nat.mod_lt _ (by decide))⟩
  exact hall p h

theorem isPrintable_of_mem_asciiEscape {p q : CodePoint} (h : q ∈ asciiEscape p) :
    IsPrintable q := by
  unfold asciiEscape at h
  split_ifs at h with hascii hplane
  · exact (forall_mem_escape (fun _ hp => hp) p).mpr (fun hge => absurd hge (by omega)) q h
  · exact isPrintable_of_mem_unicodeEscape h
  · rcases List.mem_append.mp h with h | h
    · exact isPrintable_of_mem_unicodeEscape h
    · exact isPrintable_of_mem_unicodeEscape h

theorem isPrintable_of_mem_asciiString {s : PyStr} {p : CodePoint} (h : p ∈ asciiString s) :
    IsPrintable p := by
  rcases List.mem_cons.mp h with rfl | h
  · decide
  rcases List.mem_append.mp h with h | h
  · obtain ⟨q, -, hq⟩ := List.mem_flatMap.mp h
    exact isPrintable_of_mem_asciiEscape hq
  · obtain rfl := List.mem_singleton.mp h
    decide

/-- The constants. -/
theorem isPrintable_of_mem_word {word : String} (h : word.toList.all Char.isAlpha = true)
    {p : CodePoint} (hp : p ∈ Foundations.text word) : IsPrintable p := by
  obtain ⟨c, hc, rfl⟩ := List.mem_map.mp hp
  have hval : (codePoint c).val = c.toNat := rfl
  have hletter := toNat_of_isAlpha (List.all_eq_true.mp h c hc)
  unfold IsPrintable
  omega

theorem forall_mem_joinComma {P : CodePoint → Prop} (hcomma : P (codePoint ',')) (hspace : P 0x20)
    {ts : List PyStr} (h : ∀ t ∈ ts, ∀ p ∈ t, P p) : ∀ p ∈ joinComma ts, P p := by
  induction ts with
  | nil => exact fun p hp => absurd hp List.not_mem_nil
  | cons t ts ih =>
      obtain ⟨ht, hts⟩ := List.forall_mem_cons.mp h
      by_cases hlast : ts = []
      · subst hlast
        exact ht
      · rw [joinComma_cons hlast, List.forall_mem_append, List.forall_mem_cons,
          List.forall_mem_cons]
        exact ⟨ht, hcomma, hspace, ih hts⟩

/-- The text of an array or of an object: its brackets, and what is between them. -/
theorem forall_mem_brackets {P : CodePoint → Prop} {opening closing : CodePoint} {t : PyStr}
    (hopening : P opening) (hclosing : P closing) (h : ∀ p ∈ t, P p) :
    ∀ p ∈ opening :: (t ++ [closing]), P p := by
  rw [List.forall_mem_cons, List.forall_mem_append, List.forall_mem_singleton]
  exact ⟨hopening, h, hclosing⟩

namespace JsonValue

mutual

/-- **Only printable ASCII is written.** -/
theorem isPrintable_of_mem_dumps : ∀ {v : JsonValue} {t : PyStr},
    v.dumps floatRepr limits = some t → v.Doubles (ReadBack floatRepr limits) →
    ∀ p ∈ t, IsPrintable p
  | .null, _, h, _ => Option.some.inj h ▸ fun _ => isPrintable_of_mem_word (by decide)
  | .bool true, _, h, _ => Option.some.inj h ▸ fun _ => isPrintable_of_mem_word (by decide)
  | .bool false, _, h, _ => Option.some.inj h ▸ fun _ => isPrintable_of_mem_word (by decide)
  | .int _, _, h, _ => fun _ => isPrintable_of_mem_dumpsInt h
  | .float _, _, h, hx => Option.some.inj h ▸ hx.printable
  | .string _, _, h, _ => Option.some.inj h ▸ fun _ => isPrintable_of_mem_asciiString
  | .array values, _, h, hfloats => by
      obtain ⟨ts, hts, rfl⟩ := Option.map_eq_some_iff.mp h
      exact forall_mem_brackets (by decide) (by decide)
        (forall_mem_joinComma (by decide) (by decide) (isPrintable_of_mem_dumpsAll hts hfloats))
  | .object entries, _, h, hfloats => by
      obtain ⟨ts, hts, rfl⟩ := Option.map_eq_some_iff.mp h
      exact forall_mem_brackets (by decide) (by decide)
        (forall_mem_joinComma (by decide) (by decide) (isPrintable_of_mem_dumpsEntries hts hfloats))

theorem isPrintable_of_mem_dumpsAll : ∀ {vs : List JsonValue} {ts : List PyStr},
    dumpsAll floatRepr limits vs = some ts → AllDoubles (ReadBack floatRepr limits) vs →
    ∀ t ∈ ts, ∀ p ∈ t, IsPrintable p
  | [], _, h, _ => Option.some.inj h ▸ fun _ ht => absurd ht List.not_mem_nil
  | v :: vs, _, h, hfloats => by
      obtain ⟨t, ht, hrest⟩ := Option.bind_eq_some_iff.mp h
      obtain ⟨ts, hts, rfl⟩ := Option.map_eq_some_iff.mp hrest
      exact List.forall_mem_cons.mpr
        ⟨isPrintable_of_mem_dumps ht hfloats.1, isPrintable_of_mem_dumpsAll hts hfloats.2⟩

theorem isPrintable_of_mem_dumpsEntries : ∀ {entries : List (PyStr × JsonValue)}
    {ts : List PyStr}, dumpsEntries floatRepr limits entries = some ts →
    EntriesDoubles (ReadBack floatRepr limits) entries → ∀ t ∈ ts, ∀ p ∈ t, IsPrintable p
  | [], _, h, _ => Option.some.inj h ▸ fun _ ht => absurd ht List.not_mem_nil
  | entry :: entries, _, h, hfloats => by
      obtain ⟨t, ht, hrest⟩ := Option.bind_eq_some_iff.mp h
      obtain ⟨ts, hts, rfl⟩ := Option.map_eq_some_iff.mp hrest
      exact List.forall_mem_cons.mpr
        ⟨isPrintable_of_mem_dumpsEntry ht hfloats.1, isPrintable_of_mem_dumpsEntries hts hfloats.2⟩

theorem isPrintable_of_mem_dumpsEntry : ∀ {entry : PyStr × JsonValue} {t : PyStr},
    dumpsEntry floatRepr limits entry = some t → EntryDoubles (ReadBack floatRepr limits) entry →
    ∀ p ∈ t, IsPrintable p
  | (key, _), _, h, hfloats => by
      obtain ⟨t, ht, rfl⟩ := Option.map_eq_some_iff.mp h
      rw [List.forall_mem_append, List.forall_mem_cons, List.forall_mem_cons]
      exact ⟨fun _ => isPrintable_of_mem_asciiString, by decide, by decide,
        isPrintable_of_mem_dumps ht hfloats⟩

end

/-- The text can be encoded. -/
theorem isSome_encodeUtf8_of_dumps {v : JsonValue} (h : v.dumps floatRepr limits = some t)
    (hfloats : v.Doubles (ReadBack floatRepr limits)) : (encodeUtf8 t).isSome := by
  rw [isSome_encodeUtf8_iff]
  intro p hp hsurrogate
  have hascii := (isPrintable_of_mem_dumps h hfloats p hp).2
  have hlow := hsurrogate.1
  omega

end JsonValue

end Foundations
end MigrationStudio
