import MigrationStudio.Foundations.Binary64
import MigrationStudio.Foundations.CodePoints
import MigrationStudio.Foundations.Dict

/-!
# `json.loads`

The reader of Python's `json`, character by character: white space, strings with their escapes,
numbers, constants, arrays and objects.  An integer may have any number of digits up to a limit of
the interpreter, a number with a fraction or an exponent becomes a double, which may be infinite,
and `NaN` and the infinities are values.  Where the text is no JSON it raises `JSONDecodeError`; it
raises other errors at an integer with too many digits and at arrays or objects that are nested too
deeply.

* `JsonValue`, `LoadsError`, `Limits`: what is returned and raised, and the two limits.
* `scanString`, `scanNumber`, `parseValue`, `loads`: the reader.
* `length_lt_of_parse`: whatever is read is taken from the text.
* `loads_ne_outOfFuel`: the recursion of the model is long enough for every text.
-/

namespace MigrationStudio
namespace Foundations

/-- What `json.loads` returns. -/
inductive JsonValue where
  | null
  | bool (b : Bool)
  | int (n : ℤ)
  | float (x : Float64)
  | string (s : PyStr)
  | array (values : List JsonValue)
  | object (entries : List (PyStr × JsonValue))

/-- What `json.loads` raises: `JSONDecodeError`, the `ValueError` of an integer that has too many
digits, and `RecursionError`.  `outOfFuel` belongs to the model alone. -/
inductive LoadsError where
  | decode | intTooLong | recursion | outOfFuel
  deriving DecidableEq, Repr

/-- The limits of the interpreter: the digits of an integer, 0 for any number of them, and the depth
of arrays and objects. -/
structure Limits where
  maxStrDigits : ℕ
  depth : ℕ
  depth_pos : 0 < depth

/-- What a reader returns, with the text that is left. -/
abbrev Read (α : Type) := Except LoadsError (α × PyStr)

/-! ## Characters -/

def quotationMark : CodePoint := 0x22

def backslash : CodePoint := 0x5c

def openBrace : CodePoint := 0x7b

def closeBrace : CodePoint := 0x7d

/-- Space, tab, line feed and carriage return. -/
def isJsonSpace (p : CodePoint) : Bool := p = 0x20 || p = 0x09 || p = 0x0a || p = 0x0d

def skipSpace (cs : PyStr) : PyStr := cs.dropWhile isJsonSpace

def isDigit (p : CodePoint) : Bool := 0x30 ≤ p.val && p.val ≤ 0x39

def hexDigit (p : CodePoint) : Option (Fin 16) :=
  if h : 0x30 ≤ p.val ∧ p.val ≤ 0x39 then some ⟨p.val - 0x30, by omega⟩
  else if h : 0x61 ≤ p.val ∧ p.val ≤ 0x66 then some ⟨p.val - 0x57, by omega⟩
  else if h : 0x41 ≤ p.val ∧ p.val ≤ 0x46 then some ⟨p.val - 0x37, by omega⟩
  else none

/-! ## Strings -/

/-- The code point of four hexadecimal digits. -/
def hexCode (a b c d : CodePoint) : Option CodePoint := do
  let a ← hexDigit a
  let b ← hexDigit b
  let c ← hexDigit c
  let d ← hexDigit d
  some ⟨((a.val * 16 + b.val) * 16 + c.val) * 16 + d.val, by omega⟩

def isHighSurrogate (p : CodePoint) : Bool := 0xd800 ≤ p.val && p.val ≤ 0xdbff

def isLowSurrogate (p : CodePoint) : Bool := 0xdc00 ≤ p.val && p.val ≤ 0xdfff

/-- The code point that a pair of surrogates stands for. -/
def joinSurrogates (high low : CodePoint) : CodePoint :=
  Fin.ofNat 0x110000 (0x10000 + (high.val - 0xd800) * 0x400 + (low.val - 0xdc00))

/-- The escapes of one character behind the backslash. -/
def simpleEscape (p : CodePoint) : Option CodePoint :=
  [(quotationMark, quotationMark), (backslash, backslash), (codePoint '/', codePoint '/'),
    (codePoint 'b', 0x08), (codePoint 'f', 0x0c), (codePoint 'n', 0x0a), (codePoint 'r', 0x0d),
    (codePoint 't', 0x09)].lookup p

/-- The code points of a string up to its closing quotation mark, each with whether it was written
as four hexadecimal digits; `none` where `scanstring` raises. -/
def scanUnits : PyStr → Option (List (Bool × CodePoint) × PyStr)
  | [] => none
  | c :: cs =>
      if c = quotationMark then some ([], cs)
      else if c = backslash then
        match cs with
        | [] => none
        | e :: cs =>
            if e = codePoint 'u' then
              match cs with
              | h₁ :: h₂ :: h₃ :: h₄ :: cs =>
                  (hexCode h₁ h₂ h₃ h₄).bind fun p =>
                    (scanUnits cs).map fun r => ((true, p) :: r.1, r.2)
              | _ => none
            else
              (simpleEscape e).bind fun p =>
                (scanUnits cs).map fun r => ((false, p) :: r.1, r.2)
      else if c.val < 0x20 then none
      else (scanUnits cs).map fun r => ((false, c) :: r.1, r.2)

/-- Two surrogates of a pair, both written as digits, are one code point. -/
def joinPairs : List (Bool × CodePoint) → PyStr
  | (true, p) :: (true, q) :: units =>
      if isHighSurrogate p && isLowSurrogate q then joinSurrogates p q :: joinPairs units
      else p :: joinPairs ((true, q) :: units)
  | (_, p) :: units => p :: joinPairs units
  | [] => []

/-- `scanstring`, behind the opening quotation mark. -/
def scanString (cs : PyStr) : Option (PyStr × PyStr) :=
  (scanUnits cs).map fun r => (joinPairs r.1, r.2)

/-! ## Numbers and constants -/

/-- A number as it is written; a fraction has at least one digit. -/
structure NumberLiteral where
  negative : Bool
  whole : PyStr
  fraction : PyStr
  exponent : Option (Bool × PyStr)

/-- A zero, or digits that do not begin with one. -/
def scanWhole : PyStr → Option (PyStr × PyStr)
  | [] => none
  | c :: cs =>
      if c = codePoint '0' then some ([c], cs)
      else if isDigit c then some (c :: cs.takeWhile isDigit, cs.dropWhile isDigit)
      else none

def scanFraction : PyStr → PyStr × PyStr
  | [] => ([], [])
  | c :: cs =>
      if c = codePoint '.' && cs.takeWhile isDigit ≠ [] then
        (cs.takeWhile isDigit, cs.dropWhile isDigit)
      else ([], c :: cs)

/-- The sign of an exponent, and what follows it. -/
def scanSign : PyStr → Bool × PyStr
  | [] => (false, [])
  | c :: cs =>
      if c = codePoint '-' then (true, cs)
      else if c = codePoint '+' then (false, cs)
      else (false, c :: cs)

def scanExponent : PyStr → Option (Bool × PyStr) × PyStr
  | [] => (none, [])
  | c :: cs =>
      let digits := (scanSign cs).2.takeWhile isDigit
      if (c = codePoint 'e' || c = codePoint 'E') && digits ≠ [] then
        (some ((scanSign cs).1, digits), (scanSign cs).2.dropWhile isDigit)
      else (none, c :: cs)

/-- `_match_number`, without the conversion. -/
def scanNumber (cs : PyStr) : Option (NumberLiteral × PyStr) :=
  let negative := cs.head? = some (codePoint '-')
  (scanWhole (if negative then cs.tail else cs)).map fun (whole, cs) =>
    let (fraction, cs) := scanFraction cs
    let (exponent, cs) := scanExponent cs
    (⟨negative, whole, fraction, exponent⟩, cs)

def digitsValue (ds : PyStr) : ℕ := ds.foldl (fun n d => 10 * n + (d.val - 0x30)) 0

/-- The number that is written. -/
def NumberLiteral.rational (l : NumberLiteral) : ℚ :=
  let exponent : ℤ :=
    match l.exponent with
    | none => 0
    | some (negative, ds) => if negative then -digitsValue ds else digitsValue ds
  (if l.negative then -1 else 1) * digitsValue (l.whole ++ l.fraction) *
    10 ^ (exponent - l.fraction.length)

/-- The value of a number: an integer, unless it has a fraction or an exponent. -/
def NumberLiteral.value (limits : Limits) (l : NumberLiteral) : Except LoadsError JsonValue :=
  if l.fraction = [] ∧ l.exponent = none then
    if limits.maxStrDigits ≠ 0 ∧ limits.maxStrDigits < l.whole.length then .error .intTooLong
    else .ok (.int (if l.negative then -digitsValue l.whole else digitsValue l.whole))
  else .ok (.float (.ofRat l.rational))

/-- The words that are values. -/
def constants : List (String × JsonValue) :=
  [("null", .null), ("true", .bool true), ("false", .bool false), ("NaN", .float .nan),
    ("Infinity", .float (.inf false)), ("-Infinity", .float (.inf true))]

def scanConstant (cs : PyStr) : Option (JsonValue × PyStr) :=
  constants.findSome? fun (word, value) =>
    if (text word).isPrefixOf cs then some (value, cs.drop (text word).length) else none

/-- A string, number or constant. -/
def parseScalar (limits : Limits) (cs : PyStr) : Read JsonValue :=
  if cs.head? = some quotationMark then
    match scanString cs.tail with
    | none => .error .decode
    | some (s, cs) => .ok (.string s, cs)
  else
    match scanConstant cs with
    | some (value, cs) => .ok (value, cs)
    | none =>
        match scanNumber cs with
        | none => .error .decode
        | some (l, cs) => (l.value limits).map fun value => (value, cs)

/-- A number is converted, or it is an integer that has too many digits. -/
theorem NumberLiteral.value_cases (limits : Limits) (l : NumberLiteral) :
    l.value limits = .error .intTooLong ∨ ∃ value, l.value limits = .ok value := by
  unfold NumberLiteral.value
  by_cases hint : l.fraction = [] ∧ l.exponent = none
  · rw [if_pos hint]
    by_cases hlong : limits.maxStrDigits ≠ 0 ∧ limits.maxStrDigits < l.whole.length
    · exact Or.inl (if_pos hlong)
    · exact Or.inr ⟨_, if_neg hlong⟩
  · exact Or.inr ⟨_, if_neg hint⟩

/-! ## Arrays and objects -/

mutual

/-- `scan_once`, with the depth that is left. -/
def parseValue (limits : Limits) : ℕ → ℕ → PyStr → Read JsonValue
  | 0, _, _ => .error .outOfFuel
  | fuel + 1, depth, cs =>
      if cs.head? = some openBrace then
        match depth with
        | 0 => .error .recursion
        | depth + 1 =>
            let cs := skipSpace cs.tail
            if cs.head? = some closeBrace then .ok (.object [], cs.tail)
            else parseMembers limits fuel depth [] cs
      else if cs.head? = some (codePoint '[') then
        match depth with
        | 0 => .error .recursion
        | depth + 1 =>
            let cs := skipSpace cs.tail
            if cs.head? = some (codePoint ']') then .ok (.array [], cs.tail)
            else parseElements limits fuel depth [] cs
      else parseScalar limits cs

/-- The loop of `_parse_object`, at a name; `entries` has been read. -/
def parseMembers (limits : Limits) :
    ℕ → ℕ → List (PyStr × JsonValue) → PyStr → Read JsonValue
  | 0, _, _, _ => .error .outOfFuel
  | fuel + 1, depth, entries, cs =>
      if cs.head? ≠ some quotationMark then .error .decode
      else
        match scanString cs.tail with
        | none => .error .decode
        | some (key, cs) =>
            let cs := skipSpace cs
            if cs.head? ≠ some (codePoint ':') then .error .decode
            else
              match parseValue limits fuel depth (skipSpace cs.tail) with
              | .error e => .error e
              | .ok (value, cs) =>
                  let entries := dictSet entries key value
                  let cs := skipSpace cs
                  if cs.head? = some closeBrace then .ok (.object entries, cs.tail)
                  else if cs.head? = some (codePoint ',') then
                    parseMembers limits fuel depth entries (skipSpace cs.tail)
                  else .error .decode

/-- The loop of `_parse_array`, at an element; `values` have been read. -/
def parseElements (limits : Limits) : ℕ → ℕ → List JsonValue → PyStr → Read JsonValue
  | 0, _, _, _ => .error .outOfFuel
  | fuel + 1, depth, values, cs =>
      match parseValue limits fuel depth cs with
      | .error e => .error e
      | .ok (value, cs) =>
          let values := values ++ [value]
          let cs := skipSpace cs
          if cs.head? = some (codePoint ']') then .ok (.array values, cs.tail)
          else if cs.head? = some (codePoint ',') then
            parseElements limits fuel depth values (skipSpace cs.tail)
          else .error .decode

end

/-- `json.loads` of a string.  A byte order mark at its beginning is no white space. -/
def loads (limits : Limits) (s : PyStr) : Except LoadsError JsonValue :=
  match parseValue limits (2 * s.length + 2) limits.depth (skipSpace s) with
  | .error e => .error e
  | .ok (value, cs) => if skipSpace cs = [] then .ok value else .error .decode

/-! ## What is read is taken from the text -/

variable {limits : Limits}

theorem length_dropWhile_le (f : CodePoint → Bool) (cs : PyStr) :
    (cs.dropWhile f).length ≤ cs.length :=
  (List.dropWhile_sublist f).length_le

theorem length_skipSpace_le (cs : PyStr) : (skipSpace cs).length ≤ cs.length :=
  length_dropWhile_le isJsonSpace cs

theorem length_tail_of_head? {c : CodePoint} {cs : PyStr} (h : cs.head? = some c) :
    cs.tail.length + 1 = cs.length := by
  cases cs with
  | nil => exact absurd h (by simp)
  | cons c cs => rfl

/-- **One turn of `scanstring`**: the end of the string, or one more code point, which stands in the
text itself unless it has been escaped. -/
theorem scanUnits_cases {cs rest : PyStr} {units : List (Bool × CodePoint)}
    (h : scanUnits cs = some (units, rest)) :
    (cs = quotationMark :: rest ∧ units = []) ∨
      ∃ cs' unit units', cs'.length < cs.length ∧ cs' ⊆ cs ∧
        (unit.1 = false → unit.2 ∈ cs ∨ ∃ e, simpleEscape e = some unit.2) ∧
        units = unit :: units' ∧ scanUnits cs' = some (units', rest) := by
  cases cs with
  | nil => exact absurd h (by simp [scanUnits])
  | cons c cs =>
      rw [scanUnits.eq_def] at h
      simp only at h
      split_ifs at h with hquote hback hcontrol
      · obtain ⟨rfl, rfl⟩ := Prod.mk.inj (Option.some.inj h)
        exact Or.inl ⟨by rw [hquote], rfl⟩
      · split at h
        · exact absurd h (by simp)
        · rename_i e cs
          split_ifs at h with hu
          · split at h
            · rename_i h₁ h₂ h₃ h₄ cs
              obtain ⟨p, -, hp⟩ := Option.bind_eq_some_iff.mp h
              obtain ⟨⟨units', rest'⟩, hscan, heq⟩ := Option.map_eq_some_iff.mp hp
              obtain ⟨rfl, rfl⟩ := Prod.mk.inj heq
              exact Or.inr ⟨cs, _, units', by simp only [List.length_cons]; omega,
                fun q hq => by simp [hq], fun hfalse => absurd hfalse (by simp), rfl, hscan⟩
            · exact absurd h (by simp)
          · obtain ⟨p, hp, hrest⟩ := Option.bind_eq_some_iff.mp h
            obtain ⟨⟨units', rest'⟩, hscan, heq⟩ := Option.map_eq_some_iff.mp hrest
            obtain ⟨rfl, rfl⟩ := Prod.mk.inj heq
            exact Or.inr ⟨cs, _, units', by simp only [List.length_cons]; omega,
              fun q hq => by simp [hq], fun _ => Or.inr ⟨e, hp⟩, rfl, hscan⟩
      · obtain ⟨⟨units', rest'⟩, hscan, heq⟩ := Option.map_eq_some_iff.mp h
        obtain ⟨rfl, rfl⟩ := Prod.mk.inj heq
        exact Or.inr ⟨cs, _, units', Nat.lt_succ_self _, List.subset_cons_self _ _,
          fun _ => Or.inl (List.mem_cons_self ..), rfl, hscan⟩

theorem length_lt_of_scanUnits {cs rest : PyStr} {units : List (Bool × CodePoint)}
    (h : scanUnits cs = some (units, rest)) : rest.length < cs.length := by
  induction units generalizing cs with
  | nil =>
      rcases scanUnits_cases h with ⟨rfl, -⟩ | ⟨cs', unit, units', -, -, -, hunits, -⟩
      · exact Nat.lt_succ_self _
      · exact absurd hunits (by simp)
  | cons unit units ih =>
      rcases scanUnits_cases h with ⟨-, hunits⟩ | ⟨cs', unit', units', hlt, -, -, hunits, hscan⟩
      · exact absurd hunits (by simp)
      · obtain ⟨-, rfl⟩ := List.cons.inj hunits
        exact Nat.lt_trans (ih hscan) hlt

theorem length_lt_of_scanString {cs s rest : PyStr} (h : scanString cs = some (s, rest)) :
    rest.length < cs.length := by
  obtain ⟨⟨units, rest'⟩, hscan, heq⟩ := Option.map_eq_some_iff.mp h
  obtain ⟨-, rfl⟩ := Prod.mk.inj heq
  exact length_lt_of_scanUnits hscan

theorem length_lt_of_scanWhole {cs whole rest : PyStr} (h : scanWhole cs = some (whole, rest)) :
    rest.length < cs.length := by
  cases cs with
  | nil => exact absurd h (by simp [scanWhole])
  | cons c cs =>
      rw [scanWhole] at h
      split_ifs at h
      · obtain ⟨-, rfl⟩ := Prod.mk.inj (Option.some.inj h)
        exact Nat.lt_succ_self _
      · obtain ⟨-, rfl⟩ := Prod.mk.inj (Option.some.inj h)
        exact Nat.lt_succ_of_le (length_dropWhile_le isDigit cs)

theorem length_scanFraction_le (cs : PyStr) : (scanFraction cs).2.length ≤ cs.length := by
  cases cs with
  | nil => exact Nat.le_refl _
  | cons c cs =>
      rw [scanFraction]
      split_ifs
      · exact Nat.le_succ_of_le (length_dropWhile_le isDigit cs)
      · exact Nat.le_refl _

theorem length_scanExponent_le (cs : PyStr) : (scanExponent cs).2.length ≤ cs.length := by
  cases cs with
  | nil => exact Nat.le_refl _
  | cons c cs =>
      have hsign : (scanSign cs).2.length ≤ cs.length := by
        cases cs with
        | nil => exact Nat.le_refl _
        | cons s cs =>
            rw [scanSign]
            split_ifs
            · exact Nat.le_succ _
            · exact Nat.le_succ _
            · exact Nat.le_refl _
      rw [scanExponent]
      split_ifs
      · exact Nat.le_succ_of_le ((length_dropWhile_le isDigit _).trans hsign)
      · exact Nat.le_refl _

theorem length_lt_of_scanNumber {cs rest : PyStr} {l : NumberLiteral}
    (h : scanNumber cs = some (l, rest)) : rest.length < cs.length := by
  obtain ⟨⟨whole, cs'⟩, hwhole, heq⟩ := Option.map_eq_some_iff.mp h
  obtain ⟨-, rfl⟩ := Prod.mk.inj heq
  have hfirst : cs'.length < cs.length := by
    refine Nat.lt_of_lt_of_le (length_lt_of_scanWhole hwhole) ?_
    split_ifs
    · exact (List.tail_sublist cs).length_le
    · exact Nat.le_refl _
  exact Nat.lt_of_le_of_lt
    (Nat.le_trans (length_scanExponent_le _) (length_scanFraction_le _)) hfirst

theorem length_lt_of_scanConstant {cs rest : PyStr} {value : JsonValue}
    (h : scanConstant cs = some (value, rest)) : rest.length < cs.length := by
  obtain ⟨⟨word, value'⟩, hmem, hword⟩ := List.exists_of_findSome?_eq_some h
  simp only at hword
  split_ifs at hword with hprefix
  obtain ⟨-, rfl⟩ := Prod.mk.inj (Option.some.inj hword)
  have hpos : 0 < (text word).length := by
    have hall : ∀ p ∈ constants, 0 < (text p.1).length := by
      simp only [constants, List.forall_mem_cons]
      decide
    exact hall _ hmem
  have hle := (List.isPrefixOf_iff_prefix.mp hprefix).length_le
  rw [List.length_drop]
  omega

theorem length_lt_of_parseScalar {cs rest : PyStr} {value : JsonValue}
    (h : parseScalar limits cs = .ok (value, rest)) : rest.length < cs.length := by
  rw [parseScalar] at h
  split_ifs at h with hquote
  · split at h
    · exact absurd h (by simp)
    · rename_i s cs' hscan
      obtain ⟨-, rfl⟩ := Prod.mk.inj (Except.ok.inj h)
      have htail := length_tail_of_head? hquote
      have hlt := length_lt_of_scanString hscan
      omega
  · split at h
    · rename_i value' cs' hscan
      obtain ⟨-, rfl⟩ := Prod.mk.inj (Except.ok.inj h)
      exact length_lt_of_scanConstant hscan
    · split at h
      · exact absurd h (by simp)
      · rename_i l cs' hscan
        rcases l.value_cases limits with hvalue | ⟨value', hvalue⟩
        · rw [hvalue] at h
          exact absurd h nofun
        · rw [hvalue] at h
          obtain ⟨-, rfl⟩ := Prod.mk.inj (Except.ok.inj h)
          exact length_lt_of_scanNumber hscan

/-- **A value** is too deep, an empty array or object, one whose loop begins, or a scalar. -/
theorem parseValue_succ_cases (limits : Limits) (fuel depth : ℕ) (cs : PyStr) :
    parseValue limits (fuel + 1) depth cs = .error .recursion ∨
      (∃ value rest, rest.length < cs.length ∧
        parseValue limits (fuel + 1) depth cs = .ok (value, rest)) ∨
      (∃ depth' cs', cs'.length < cs.length ∧
        (parseValue limits (fuel + 1) depth cs = parseMembers limits fuel depth' [] cs' ∨
          parseValue limits (fuel + 1) depth cs = parseElements limits fuel depth' [] cs')) ∨
      parseValue limits (fuel + 1) depth cs = parseScalar limits cs := by
  have hinside : ∀ c : CodePoint, cs.head? = some c → (skipSpace cs.tail).length < cs.length := by
    intro c hc
    have htail := length_tail_of_head? hc
    have hskip := length_skipSpace_le cs.tail
    omega
  have hclosed : ∀ c : CodePoint, cs.head? = some c →
      (skipSpace cs.tail).tail.length < cs.length := fun c hc =>
    Nat.lt_of_le_of_lt (List.tail_sublist _).length_le (hinside c hc)
  rw [parseValue.eq_def]
  dsimp only
  by_cases hbrace : cs.head? = some openBrace
  · rw [if_pos hbrace]
    cases depth with
    | zero => exact Or.inl rfl
    | succ depth =>
        dsimp only
        by_cases hclose : (skipSpace cs.tail).head? = some closeBrace
        · rw [if_pos hclose]
          exact Or.inr (Or.inl ⟨_, _, hclosed _ hbrace, rfl⟩)
        · rw [if_neg hclose]
          exact Or.inr (Or.inr (Or.inl ⟨depth, _, hinside _ hbrace, Or.inl rfl⟩))
  · rw [if_neg hbrace]
    by_cases hbracket : cs.head? = some (codePoint '[')
    · rw [if_pos hbracket]
      cases depth with
      | zero => exact Or.inl rfl
      | succ depth =>
          dsimp only
          by_cases hclose : (skipSpace cs.tail).head? = some (codePoint ']')
          · rw [if_pos hclose]
            exact Or.inr (Or.inl ⟨_, _, hclosed _ hbracket, rfl⟩)
          · rw [if_neg hclose]
            exact Or.inr (Or.inr (Or.inl ⟨depth, _, hinside _ hbracket, Or.inr rfl⟩))
    · rw [if_neg hbracket]
      exact Or.inr (Or.inr (Or.inr rfl))

/-- **One turn of the loop of an object**: it raises, it raises what its value raises, it ends, or
it goes on with less of the text. -/
theorem parseMembers_succ_cases (limits : Limits) (fuel depth : ℕ)
    (entries : List (PyStr × JsonValue)) (cs : PyStr) :
    parseMembers limits (fuel + 1) depth entries cs = .error .decode ∨
      ∃ cs', cs'.length < cs.length ∧
        ((∃ e, parseValue limits fuel depth cs' = .error e ∧
          parseMembers limits (fuel + 1) depth entries cs = .error e) ∨
        ∃ value rest, parseValue limits fuel depth cs' = .ok (value, rest) ∧
          (parseMembers limits (fuel + 1) depth entries cs = .error .decode ∨
          (∃ object rest', rest'.length ≤ rest.length ∧
            parseMembers limits (fuel + 1) depth entries cs = .ok (object, rest')) ∨
          ∃ entries' cs'', cs''.length ≤ rest.length ∧
            parseMembers limits (fuel + 1) depth entries cs =
              parseMembers limits fuel depth entries' cs'')) := by
  rw [parseMembers]
  split_ifs with hquote
  · exact Or.inl rfl
  · split
    · exact Or.inl rfl
    · rename_i key cs₁ hscan
      dsimp only
      split_ifs with hcolon
      · exact Or.inl rfl
      · have hcs : (skipSpace (skipSpace cs₁).tail).length < cs.length := by
          have h₁ := length_tail_of_head? (not_not.mp hquote)
          have h₂ := length_lt_of_scanString hscan
          have h₃ := length_skipSpace_le cs₁
          have h₄ := (List.tail_sublist (skipSpace cs₁)).length_le
          have h₅ := length_skipSpace_le (skipSpace cs₁).tail
          omega
        refine Or.inr ⟨_, hcs, ?_⟩
        cases hvalue : parseValue limits fuel depth (skipSpace (skipSpace cs₁).tail) with
        | error e => exact Or.inl ⟨e, rfl, rfl⟩
        | ok r =>
            obtain ⟨value, rest⟩ := r
            have h₁ := length_skipSpace_le rest
            have h₂ := (List.tail_sublist (skipSpace rest)).length_le
            have h₃ := length_skipSpace_le (skipSpace rest).tail
            refine Or.inr ⟨value, rest, rfl, ?_⟩
            dsimp only
            split_ifs
            · exact Or.inr (Or.inl ⟨_, _, h₂.trans h₁, rfl⟩)
            · exact Or.inr (Or.inr ⟨_, _, h₃.trans (h₂.trans h₁), rfl⟩)
            · exact Or.inl rfl

/-- **One turn of the loop of an array.** -/
theorem parseElements_succ_cases (limits : Limits) (fuel depth : ℕ) (values : List JsonValue)
    (cs : PyStr) :
    (∃ e, parseValue limits fuel depth cs = .error e ∧
      parseElements limits (fuel + 1) depth values cs = .error e) ∨
    ∃ value rest, parseValue limits fuel depth cs = .ok (value, rest) ∧
      (parseElements limits (fuel + 1) depth values cs = .error .decode ∨
      (∃ array rest', rest'.length ≤ rest.length ∧
        parseElements limits (fuel + 1) depth values cs = .ok (array, rest')) ∨
      ∃ values' cs', cs'.length ≤ rest.length ∧
        parseElements limits (fuel + 1) depth values cs =
          parseElements limits fuel depth values' cs') := by
  rw [parseElements]
  cases hvalue : parseValue limits fuel depth cs with
  | error e => exact Or.inl ⟨e, rfl, rfl⟩
  | ok r =>
      obtain ⟨value, rest⟩ := r
      have h₁ := length_skipSpace_le rest
      have h₂ := (List.tail_sublist (skipSpace rest)).length_le
      have h₃ := length_skipSpace_le (skipSpace rest).tail
      refine Or.inr ⟨value, rest, rfl, ?_⟩
      dsimp only
      split_ifs
      · exact Or.inr (Or.inl ⟨_, _, h₂.trans h₁, rfl⟩)
      · exact Or.inr (Or.inr ⟨_, _, h₃.trans (h₂.trans h₁), rfl⟩)
      · exact Or.inl rfl

/-- **A reader takes something from the text.** -/
theorem length_lt_of_parse (limits : Limits) (fuel : ℕ) :
    (∀ depth cs value rest, parseValue limits fuel depth cs = .ok (value, rest) →
      rest.length < cs.length) ∧
    (∀ depth entries cs value rest, parseMembers limits fuel depth entries cs = .ok (value, rest) →
      rest.length < cs.length) ∧
    (∀ depth values cs value rest, parseElements limits fuel depth values cs = .ok (value, rest) →
      rest.length < cs.length) := by
  induction fuel with
  | zero =>
      refine ⟨?_, ?_, ?_⟩
      · intro depth cs value rest h
        exact absurd h (by simp [parseValue])
      · intro depth entries cs value rest h
        exact absurd h (by simp [parseMembers])
      · intro depth values cs value rest h
        exact absurd h (by simp [parseElements])
  | succ fuel ih =>
      obtain ⟨ihValue, ihMembers, ihElements⟩ := ih
      refine ⟨?_, ?_, ?_⟩
      · intro depth cs value rest h
        rcases parseValue_succ_cases limits fuel depth cs with
          heq | ⟨value', rest', hlt, heq⟩ | ⟨depth', cs', hlt, heq | heq⟩ | heq
        · exact absurd (heq.symm.trans h) (by simp)
        · obtain ⟨-, rfl⟩ := Prod.mk.inj (Except.ok.inj (heq.symm.trans h))
          exact hlt
        · exact Nat.lt_trans (ihMembers _ _ _ _ _ (heq.symm.trans h)) hlt
        · exact Nat.lt_trans (ihElements _ _ _ _ _ (heq.symm.trans h)) hlt
        · exact length_lt_of_parseScalar (heq.symm.trans h)
      · intro depth entries cs value rest h
        rcases parseMembers_succ_cases limits fuel depth entries cs with
          heq | ⟨cs', hlt, ⟨e, -, heq⟩ | ⟨v, rest', hvalue,
            heq | ⟨object, rest'', hle, heq⟩ | ⟨entries', cs'', hle, heq⟩⟩⟩
        · exact absurd (heq.symm.trans h) (by simp)
        · exact absurd (heq.symm.trans h) (by simp)
        · exact absurd (heq.symm.trans h) (by simp)
        · obtain ⟨-, rfl⟩ := Prod.mk.inj (Except.ok.inj (heq.symm.trans h))
          have hrest := ihValue _ _ _ _ hvalue
          omega
        · have hrest := ihValue _ _ _ _ hvalue
          have hnext := ihMembers _ _ _ _ _ (heq.symm.trans h)
          omega
      · intro depth values cs value rest h
        rcases parseElements_succ_cases limits fuel depth values cs with
          ⟨e, -, heq⟩ | ⟨v, rest', hvalue,
            heq | ⟨array, rest'', hle, heq⟩ | ⟨values', cs', hle, heq⟩⟩
        · exact absurd (heq.symm.trans h) (by simp)
        · exact absurd (heq.symm.trans h) (by simp)
        · obtain ⟨-, rfl⟩ := Prod.mk.inj (Except.ok.inj (heq.symm.trans h))
          have hrest := ihValue _ _ _ _ hvalue
          omega
        · have hrest := ihValue _ _ _ _ hvalue
          have hnext := ihElements _ _ _ _ _ (heq.symm.trans h)
          omega

/-! ## The recursion is long enough -/

theorem parseScalar_ne_outOfFuel (limits : Limits) (cs : PyStr) :
    parseScalar limits cs ≠ .error .outOfFuel := by
  rw [parseScalar]
  split_ifs with hquote
  · split
    · simp
    · simp
  · split
    · simp
    · split
      · simp
      · rename_i l cs' hscan
        rcases l.value_cases limits with hvalue | ⟨value, hvalue⟩
        · rw [hvalue]
          exact nofun
        · rw [hvalue]
          exact nofun

/-- Two turns for each character are enough. -/
theorem parse_ne_outOfFuel (limits : Limits) (fuel : ℕ) :
    (∀ depth cs, 2 * cs.length + 1 ≤ fuel →
      parseValue limits fuel depth cs ≠ .error .outOfFuel) ∧
    (∀ depth entries cs, 2 * cs.length + 2 ≤ fuel →
      parseMembers limits fuel depth entries cs ≠ .error .outOfFuel) ∧
    (∀ depth values cs, 2 * cs.length + 2 ≤ fuel →
      parseElements limits fuel depth values cs ≠ .error .outOfFuel) := by
  induction fuel with
  | zero =>
      refine ⟨?_, ?_, ?_⟩
      · intro depth cs h
        omega
      · intro depth entries cs h
        omega
      · intro depth values cs h
        omega
  | succ fuel ih =>
      obtain ⟨ihValue, ihMembers, ihElements⟩ := ih
      obtain ⟨hvalueLt, -, -⟩ := length_lt_of_parse limits fuel
      refine ⟨?_, ?_, ?_⟩
      · intro depth cs h
        rcases parseValue_succ_cases limits fuel depth cs with
          heq | ⟨value', rest', hlt, heq⟩ | ⟨depth', cs', hlt, heq | heq⟩ | heq
        · simp [heq]
        · simp [heq]
        · rw [heq]
          exact ihMembers _ _ _ (by omega)
        · rw [heq]
          exact ihElements _ _ _ (by omega)
        · rw [heq]
          exact parseScalar_ne_outOfFuel limits cs
      · intro depth entries cs h
        rcases parseMembers_succ_cases limits fuel depth entries cs with
          heq | ⟨cs', hlt, ⟨e, hvalue, heq⟩ | ⟨v, rest', hvalue,
            heq | ⟨object, rest'', hle, heq⟩ | ⟨entries', cs'', hle, heq⟩⟩⟩
        · simp [heq]
        · exact fun hfuel => ihValue _ _ (by omega) (hvalue.trans (heq.symm.trans hfuel))
        · simp [heq]
        · simp [heq]
        · have hrest := hvalueLt _ _ _ _ hvalue
          rw [heq]
          exact ihMembers _ _ _ (by omega)
      · intro depth values cs h
        rcases parseElements_succ_cases limits fuel depth values cs with
          ⟨e, hvalue, heq⟩ | ⟨v, rest', hvalue,
            heq | ⟨array, rest'', hle, heq⟩ | ⟨values', cs', hle, heq⟩⟩
        · exact fun hfuel => ihValue _ _ (by omega) (hvalue.trans (heq.symm.trans hfuel))
        · simp [heq]
        · simp [heq]
        · have hrest := hvalueLt _ _ _ _ hvalue
          rw [heq]
          exact ihElements _ _ _ (by omega)

/-- **`loads` returns or raises an error of Python** on every string. -/
theorem loads_ne_outOfFuel (limits : Limits) (s : PyStr) :
    loads limits s ≠ .error .outOfFuel := by
  have hskip := length_skipSpace_le s
  have hvalue := (parse_ne_outOfFuel limits (2 * s.length + 2)).1 limits.depth (skipSpace s)
    (by omega)
  rw [loads]
  split
  · rename_i e he
    rw [he] at hvalue
    simpa using hvalue
  · split_ifs
    · simp
    · simp

end Foundations
end MigrationStudio
