import MigrationStudio.Foundations.JsonDumps

/-!
# What `json.loads` returns

A value that `json.loads` has read from a text without surrogates, such as one that was stored as
UTF-8, can be written by `json.dumps` and is then read back as the same value: its integers are not
too long, its strings have no pairs of surrogates, the keys of its dictionaries are different, and
it is not too deep.

* `JsonValue.Clean`: such a value, but for its depth.
* `noPairs_of_scanString`, `fitsLimit_of_value`: its strings and its integers.
* `clean_of_parse`, `clean_of_loads`: what is read is so.
* `exists_dumps_of_clean`: it is written and read back.
-/

namespace MigrationStudio
namespace Foundations

/-- No surrogate stands in the text. -/
def NoSurrogates (cs : PyStr) : Prop := ∀ p ∈ cs, ¬ IsSurrogate p

theorem NoSurrogates.mono {cs cs' : PyStr} (h : NoSurrogates cs) (hsub : cs' ⊆ cs) :
    NoSurrogates cs' := fun p hp => h p (hsub hp)

/-- What has been decoded has no surrogates. -/
theorem noSurrogates_of_decodeUtf8 {bytes : ByteArray} {s : PyStr} (h : decodeUtf8 bytes = some s) :
    NoSurrogates s := by
  obtain ⟨str, -, rfl⟩ := Option.map_eq_some_iff.mp h
  intro p hp
  obtain ⟨c, -, rfl⟩ := List.mem_map.mp hp
  have hvalid : (codePoint c).val.isValidChar := c.valid
  have hval : (codePoint c).val = c.toNat := rfl
  unfold Nat.isValidChar at hvalid
  unfold IsSurrogate
  omega

/-! ## Strings -/

/-- The units of a string that have not been written as digits are no surrogates. -/
def PlainUnits (units : List (Bool × CodePoint)) : Prop :=
  ∀ u ∈ units, u.1 = false → ¬ IsSurrogate u.2

theorem not_isSurrogate_of_simpleEscape {e p : CodePoint} (h : simpleEscape e = some p) :
    ¬ IsSurrogate p := by
  have hall : ∀ q ∈ ([(quotationMark, quotationMark), (backslash, backslash),
      (codePoint '/', codePoint '/'), (codePoint 'b', 0x08), (codePoint 'f', 0x0c),
      (codePoint 'n', 0x0a), (codePoint 'r', 0x0d), (codePoint 't', 0x09)] :
        List (CodePoint × CodePoint)), q.2.val < 0xd800 := by
    simp only [List.forall_mem_cons, List.not_mem_nil, false_implies, implies_true, and_true]
    decide
  obtain ⟨l₁, l₂, heq, -⟩ := List.lookup_eq_some_iff.mp h
  have hlt := hall (e, p) (heq ▸ by simp)
  exact fun hsurrogate => absurd hsurrogate.1 (by simpa using hlt)

theorem plainUnits_of_scanUnits {cs rest : PyStr} {units : List (Bool × CodePoint)}
    (h : scanUnits cs = some (units, rest)) (hcs : NoSurrogates cs) :
    PlainUnits units ∧ rest ⊆ cs := by
  induction units generalizing cs with
  | nil =>
      rcases scanUnits_cases h with ⟨rfl, -⟩ | ⟨cs', unit, units', -, -, -, hunits, -⟩
      · exact ⟨fun u hu => absurd hu List.not_mem_nil, List.subset_cons_self _ _⟩
      · exact absurd hunits (by simp)
  | cons unit units ih =>
      rcases scanUnits_cases h with ⟨-, hunits⟩ | ⟨cs', u, units', -, hsub, hu, hunits, hscan⟩
      · exact absurd hunits (by simp)
      · obtain ⟨rfl, rfl⟩ := List.cons.inj hunits
        obtain ⟨hplain, hrest⟩ := ih hscan (hcs.mono hsub)
        refine ⟨List.forall_mem_cons.mpr ⟨fun hfalse => ?_, hplain⟩,
          fun p hp => hsub (hrest hp)⟩
        rcases hu hfalse with hmem | ⟨e, he⟩
        · exact hcs _ hmem
        · exact not_isSurrogate_of_simpleEscape he

/-- A pair stands for no surrogate. -/
theorem not_isSurrogate_joinSurrogates {p q : CodePoint}
    (h : (isHighSurrogate p && isLowSurrogate q) = true) : ¬ IsSurrogate (joinSurrogates p q) := by
  simp only [isHighSurrogate, isLowSurrogate, Bool.and_eq_true, decide_eq_true_eq] at h
  have hval : (joinSurrogates p q).val =
      (0x10000 + (p.val - 0xd800) * 0x400 + (q.val - 0xdc00)) % 0x110000 := rfl
  unfold IsSurrogate
  omega

/-- A low surrogate at the beginning of a joined text was written as digits. -/
theorem head_joinPairs {units : List (Bool × CodePoint)} (h : PlainUnits units) {q : CodePoint}
    (hq : q ∈ (joinPairs units).head?) (hlow : isLowSurrogate q = true) :
    units.head? = some (true, q) := by
  rw [joinPairs.eq_def] at hq
  split at hq
  · rename_i p q' units
    split_ifs at hq with hpair
    · obtain rfl := Option.mem_some.mp hq
      exact absurd (isSurrogate_of_low hlow) (not_isSurrogate_joinSurrogates hpair)
    · obtain rfl := Option.mem_some.mp hq
      rfl
  · rename_i escaped p units _
    obtain rfl := Option.mem_some.mp hq
    cases escaped with
    | true => rfl
    | false => exact absurd (isSurrogate_of_low hlow) (h _ (List.mem_cons_self ..) rfl)
  · exact absurd hq (Option.not_mem_none q)

/-- **A joined text has no pairs.** -/
theorem noPairs_joinPairs {units : List (Bool × CodePoint)} (h : PlainUnits units) :
    NoPairs (joinPairs units) := by
  induction units using joinPairs.induct with
  | case1 p q units hpair ih =>
      rw [joinPairs.eq_def]
      dsimp only
      rw [if_pos hpair]
      refine List.isChain_cons.mpr ⟨fun r _ hboth => ?_, ih fun u hu => h u (by simp [hu])⟩
      exact not_isSurrogate_joinSurrogates hpair (isSurrogate_of_high hboth.1)
  | case2 p q units hpair ih =>
      have hrest : PlainUnits ((true, q) :: units) := fun u hu => h u (List.mem_cons_of_mem _ hu)
      rw [joinPairs.eq_def]
      dsimp only
      rw [if_neg hpair]
      refine List.isChain_cons.mpr ⟨fun r hr hboth => ?_, ih hrest⟩
      obtain rfl : q = r := (Prod.mk.inj (Option.some.inj (head_joinPairs hrest hr hboth.2))).2
      exact hpair (Bool.and_eq_true_iff.mpr hboth)
  | case3 escaped p units hnot ih =>
      have hrest : PlainUnits units := fun u hu => h u (List.mem_cons_of_mem _ hu)
      have hjoin : joinPairs ((escaped, p) :: units) = p :: joinPairs units := by
        rw [joinPairs.eq_def]
        split
        · rename_i heq
          obtain ⟨h₁, h₂⟩ := List.cons.inj heq
          exact absurd (Prod.mk.inj h₁).1 (hnot _ _ h₂)
        · rename_i heq
          obtain ⟨h₁, rfl⟩ := List.cons.inj heq
          rw [(Prod.mk.inj h₁).2]
        · rename_i heq
          exact absurd heq (List.cons_ne_nil _ _)
      rw [hjoin]
      refine List.isChain_cons.mpr ⟨fun r hr hboth => ?_, ih hrest⟩
      cases escaped with
      | false => exact h _ (List.mem_cons_self ..) rfl (isSurrogate_of_high hboth.1)
      | true =>
          obtain ⟨us, rfl⟩ : ∃ us, units = (true, r) :: us := by
            have hhead := head_joinPairs hrest hr hboth.2
            cases units with
            | nil => exact absurd hhead (by simp)
            | cons u us => exact ⟨us, by rw [Option.some.inj hhead]⟩
          exact hnot _ _ rfl rfl
  | case4 =>
      rw [joinPairs.eq_def]
      exact List.isChain_nil

/-- **A string that is read has no pairs.** -/
theorem noPairs_of_scanString {cs s rest : PyStr} (h : scanString cs = some (s, rest))
    (hcs : NoSurrogates cs) : NoPairs s ∧ rest ⊆ cs := by
  obtain ⟨⟨units, rest'⟩, hscan, heq⟩ := Option.map_eq_some_iff.mp h
  obtain ⟨rfl, rfl⟩ := Prod.mk.inj heq
  obtain ⟨hplain, hsub⟩ := plainUnits_of_scanUnits hscan hcs
  exact ⟨noPairs_joinPairs hplain, hsub⟩

/-! ## Numbers -/

variable {limits : Limits}

theorem digits_of_scanWhole {cs whole rest : PyStr} (h : scanWhole cs = some (whole, rest)) :
    whole ≠ [] ∧ (∀ d ∈ whole, isDigit d = true) ∧ rest ⊆ cs := by
  cases cs with
  | nil => exact absurd h (by simp [scanWhole])
  | cons c cs =>
      rw [scanWhole] at h
      split_ifs at h with hzero hdigit
      · obtain ⟨rfl, rfl⟩ := Prod.mk.inj (Option.some.inj h)
        refine ⟨List.cons_ne_nil _ _, fun d hd => ?_, List.subset_cons_self _ _⟩
        rw [List.mem_singleton.mp hd, hzero]
        decide
      · obtain ⟨rfl, rfl⟩ := Prod.mk.inj (Option.some.inj h)
        refine ⟨List.cons_ne_nil _ _, List.forall_mem_cons.mpr ⟨hdigit, fun d hd => ?_⟩, ?_⟩
        · exact List.all_eq_true.mp List.all_takeWhile d hd
        · exact fun p hp => List.mem_cons_of_mem _ ((List.dropWhile_sublist _).subset hp)

theorem scanFraction_subset (cs : PyStr) : (scanFraction cs).2 ⊆ cs := by
  cases cs with
  | nil => exact List.Subset.refl _
  | cons c cs =>
      rw [scanFraction]
      split_ifs
      · exact fun p hp => List.mem_cons_of_mem _ ((List.dropWhile_sublist _).subset hp)
      · exact List.Subset.refl _

theorem scanSign_subset (cs : PyStr) : (scanSign cs).2 ⊆ cs := by
  cases cs with
  | nil => exact List.Subset.refl _
  | cons c cs =>
      rw [scanSign]
      split_ifs
      · exact List.subset_cons_self _ _
      · exact List.subset_cons_self _ _
      · exact List.Subset.refl _

theorem scanExponent_subset (cs : PyStr) : (scanExponent cs).2 ⊆ cs := by
  cases cs with
  | nil => exact List.Subset.refl _
  | cons c cs =>
      rw [scanExponent]
      split_ifs
      · exact fun p hp =>
          List.mem_cons_of_mem _ (scanSign_subset cs ((List.dropWhile_sublist _).subset hp))
      · exact List.Subset.refl _

theorem digits_of_scanNumber {cs rest : PyStr} {l : NumberLiteral}
    (h : scanNumber cs = some (l, rest)) :
    l.whole ≠ [] ∧ (∀ d ∈ l.whole, isDigit d = true) ∧ rest ⊆ cs := by
  obtain ⟨⟨whole, cs'⟩, hwhole, heq⟩ := Option.map_eq_some_iff.mp h
  obtain ⟨rfl, rfl⟩ := Prod.mk.inj heq
  obtain ⟨hne, hdigits, hsub⟩ := digits_of_scanWhole hwhole
  refine ⟨hne, hdigits, fun p hp => ?_⟩
  have hp := hsub (scanFraction_subset _ (scanExponent_subset _ hp))
  split_ifs at hp
  · exact List.mem_of_mem_tail hp
  · exact hp

/-- A number has at most as many digits as are written. -/
theorem digitsValue_lt {ds : PyStr} (h : ∀ d ∈ ds, isDigit d = true) :
    digitsValue ds < 10 ^ ds.length := by
  unfold digitsValue
  induction ds using List.reverseRecOn with
  | nil => decide
  | append_singleton ds d ih =>
      have hds := ih fun e he => h e (List.mem_append_left _ he)
      have hd := h d (by simp)
      simp only [isDigit, Bool.and_eq_true, decide_eq_true_eq] at hd
      rw [List.foldl_append, List.length_append, List.length_singleton, pow_succ]
      show 10 * _ + (d.val - 0x30) < _
      omega

/-- **An integer that is read** is not too long to be written. -/
theorem fitsLimit_of_value {l : NumberLiteral} (hne : l.whole ≠ [])
    (hdigits : ∀ d ∈ l.whole, isDigit d = true) {n : ℤ} (h : l.value limits = .ok (.int n)) :
    FitsLimit limits n := by
  have hlength : (decimalDigits (digitsValue l.whole)).length ≤ l.whole.length := by
    rw [decimalDigits, List.length_map,
      Nat.length_toDigits_le_iff (by decide) (List.length_pos_iff.mpr hne)]
    exact digitsValue_lt hdigits
  have hfits : ¬ (limits.maxStrDigits ≠ 0 ∧ limits.maxStrDigits < l.whole.length) →
      n.natAbs = digitsValue l.whole → FitsLimit limits n := by
    intro hshort hn
    by_cases hzero : limits.maxStrDigits = 0
    · exact Or.inl hzero
    · have hle := not_lt.mp fun hlt => hshort ⟨hzero, hlt⟩
      exact Or.inr (hn ▸ hlength.trans hle)
  unfold NumberLiteral.value at h
  split_ifs at h with hint hlong hneg
  · exact hfits hlong (by rw [← JsonValue.int.inj (Except.ok.inj h)]; omega)
  · exact hfits hlong (by rw [← JsonValue.int.inj (Except.ok.inj h)]; omega)
  · exact absurd (Except.ok.inj h) (by simp)

/-! ## Values -/

namespace JsonValue

mutual

/-- The integers are not too long, the strings have no pairs, and the keys of the dictionaries are
different. -/
def Clean (limits : Limits) : JsonValue → Prop
  | .int n => FitsLimit limits n
  | .string s => NoPairs s
  | .array values => AllClean limits values
  | .object entries => (entries.map Prod.fst).Nodup ∧ EntriesClean limits entries
  | _ => True

def AllClean (limits : Limits) : List JsonValue → Prop
  | [] => True
  | v :: vs => v.Clean limits ∧ AllClean limits vs

def EntriesClean (limits : Limits) : List (PyStr × JsonValue) → Prop
  | [] => True
  | entry :: entries => EntryClean limits entry ∧ EntriesClean limits entries

def EntryClean (limits : Limits) : PyStr × JsonValue → Prop
  | (key, v) => NoPairs key ∧ v.Clean limits

end

theorem allClean_iff {vs : List JsonValue} : AllClean limits vs ↔ ∀ v ∈ vs, v.Clean limits := by
  induction vs with
  | nil => exact iff_of_true trivial fun v hv => absurd hv List.not_mem_nil
  | cons v vs ih => rw [AllClean, List.forall_mem_cons, ih]

theorem entriesClean_iff {entries : List (PyStr × JsonValue)} :
    EntriesClean limits entries ↔ ∀ entry ∈ entries, NoPairs entry.1 ∧ entry.2.Clean limits := by
  induction entries with
  | nil => exact iff_of_true trivial fun v hv => absurd hv List.not_mem_nil
  | cons entry entries ih =>
      obtain ⟨key, v⟩ := entry
      rw [EntriesClean, List.forall_mem_cons, ih, EntryClean]

theorem entriesDoubles_iff {P : Float64 → Prop} {entries : List (PyStr × JsonValue)} :
    EntriesDoubles P entries ↔ ∀ entry ∈ entries, entry.2.Doubles P := by
  induction entries with
  | nil => exact iff_of_true trivial fun v hv => absurd hv List.not_mem_nil
  | cons entry entries ih =>
      obtain ⟨key, v⟩ := entry
      rw [EntriesDoubles, List.forall_mem_cons, ih, EntryDoubles]

theorem heightAll_le_iff {vs : List JsonValue} {k : ℕ} :
    heightAll vs ≤ k ↔ ∀ v ∈ vs, v.height ≤ k := by
  induction vs with
  | nil => exact iff_of_true (Nat.zero_le _) fun v hv => absurd hv List.not_mem_nil
  | cons v vs ih => rw [heightAll, List.forall_mem_cons, max_le_iff, ih]

theorem heightEntries_le_iff {entries : List (PyStr × JsonValue)} {k : ℕ} :
    heightEntries entries ≤ k ↔ ∀ entry ∈ entries, entry.2.height ≤ k := by
  induction entries with
  | nil => exact iff_of_true (Nat.zero_le _) fun v hv => absurd hv List.not_mem_nil
  | cons entry entries ih =>
      obtain ⟨key, v⟩ := entry
      rw [heightEntries, List.forall_mem_cons, max_le_iff, ih, heightEntry]

/-- A value is written to a key of a dictionary. -/
theorem Clean.dictSet {entries : List (PyStr × JsonValue)} (h : (object entries).Clean limits)
    {key : PyStr} {v : JsonValue} (hkey : NoPairs key) (hv : v.Clean limits) :
    (object (Foundations.dictSet entries key v)).Clean limits := by
  refine ⟨nodup_keys_dictSet h.1, entriesClean_iff.mpr fun entry hentry => ?_⟩
  rcases mem_dictSet hentry with hmem | rfl
  · exact entriesClean_iff.mp h.2 entry hmem
  · exact ⟨hkey, hv⟩

theorem heightEntries_dictSet_le {entries : List (PyStr × JsonValue)} {k : ℕ}
    (h : heightEntries entries ≤ k) {key : PyStr} {v : JsonValue} (hv : v.height ≤ k) :
    heightEntries (Foundations.dictSet entries key v) ≤ k := by
  refine heightEntries_le_iff.mpr fun entry hentry => ?_
  rcases mem_dictSet hentry with hmem | rfl
  · exact heightEntries_le_iff.mp h entry hmem
  · exact hv

theorem entriesDoubles_dictSet {P : Float64 → Prop} {entries : List (PyStr × JsonValue)}
    (h : EntriesDoubles P entries) {key : PyStr} {v : JsonValue} (hv : v.Doubles P) :
    EntriesDoubles P (Foundations.dictSet entries key v) := by
  refine entriesDoubles_iff.mpr fun entry hentry => ?_
  rcases mem_dictSet hentry with hmem | rfl
  · exact entriesDoubles_iff.mp h entry hmem
  · exact hv

end JsonValue

/-! ## What is read -/

theorem skipSpace_subset (cs : PyStr) : skipSpace cs ⊆ cs := (List.dropWhile_sublist _).subset

theorem tail_subset (cs : PyStr) : cs.tail ⊆ cs := (List.tail_sublist cs).subset

/-- The value, behind which `rest` is left of the text, is clean and not too deep. -/
structure ReadClean (limits : Limits) (depth : ℕ) (cs : PyStr) (value : JsonValue) (rest : PyStr) :
    Prop where
  clean : value.Clean limits
  height : value.height ≤ depth
  subset : rest ⊆ cs

variable {fuel depth : ℕ} {cs rest : PyStr} {value : JsonValue}

theorem ReadClean.mono {cs' : PyStr} (h : ReadClean limits depth cs' value rest)
    (hsub : cs' ⊆ cs) : ReadClean limits depth cs value rest :=
  ⟨h.clean, h.height, fun _ hp => hsub (h.subset hp)⟩

theorem clean_of_scanConstant (h : scanConstant cs = some (value, rest)) :
    ReadClean limits depth cs value rest := by
  obtain ⟨⟨word, value'⟩, hmem, hword⟩ := List.exists_of_findSome?_eq_some h
  simp only at hword
  split_ifs at hword
  obtain ⟨rfl, rfl⟩ := Prod.mk.inj (Option.some.inj hword)
  have hall : ∀ p ∈ constants, p.2.Clean limits ∧ p.2.height = 0 := by
    simp only [constants, List.forall_mem_cons]
    exact ⟨⟨trivial, rfl⟩, ⟨trivial, rfl⟩, ⟨trivial, rfl⟩, ⟨trivial, rfl⟩, ⟨trivial, rfl⟩,
      ⟨trivial, rfl⟩, fun p hp => absurd hp List.not_mem_nil⟩
  obtain ⟨hclean, hheight⟩ := hall _ hmem
  exact ⟨hclean, hheight.le.trans (Nat.zero_le _), (List.drop_sublist _ _).subset⟩

theorem clean_of_parseScalar (h : parseScalar limits cs = .ok (value, rest))
    (hcs : NoSurrogates cs) : ReadClean limits depth cs value rest := by
  rw [parseScalar] at h
  split_ifs at h with hquote
  · split at h
    · exact absurd h (by simp)
    · rename_i s cs' hscan
      obtain ⟨rfl, rfl⟩ := Prod.mk.inj (Except.ok.inj h)
      obtain ⟨hpairs, hsub⟩ := noPairs_of_scanString hscan (hcs.mono (tail_subset cs))
      exact ⟨hpairs, Nat.zero_le _, fun p hp => tail_subset cs (hsub hp)⟩
  · split at h
    · rename_i value' cs' hscan
      obtain ⟨rfl, rfl⟩ := Prod.mk.inj (Except.ok.inj h)
      exact clean_of_scanConstant hscan
    · split at h
      · exact absurd h (by simp)
      · rename_i l cs' hscan
        obtain ⟨hne, hdigits, hsub⟩ := digits_of_scanNumber hscan
        cases hvalue : l.value limits with
        | error e => simp [hvalue, Except.map] at h
        | ok v =>
            rw [hvalue] at h
            obtain ⟨rfl, rfl⟩ := Prod.mk.inj (Except.ok.inj h)
            -- a number is an integer or a double
            cases v with
            | int n => exact ⟨fitsLimit_of_value hne hdigits hvalue, Nat.zero_le _, hsub⟩
            | float x => exact ⟨trivial, Nat.zero_le _, hsub⟩
            | null | bool _ | string _ | array _ | object _ =>
                unfold NumberLiteral.value at hvalue
                split_ifs at hvalue <;> exact absurd (Except.ok.inj hvalue) (by simp)

/-- **One turn of the loop of an object** that is read: a key and a value, and then the end, or the
loop with the value at the key. -/
theorem parseMembers_eq_ok {entries : List (PyStr × JsonValue)}
    (h : parseMembers limits (fuel + 1) depth entries cs = .ok (value, rest)) :
    ∃ key v cs₁ cs₂ cs₃, scanString cs.tail = some (key, cs₁) ∧ cs₂ ⊆ cs₁ ∧
      parseValue limits fuel depth cs₂ = .ok (v, cs₃) ∧
      ((value = .object (dictSet entries key v) ∧ rest ⊆ cs₃) ∨
        ∃ cs₄, cs₄ ⊆ cs₃ ∧
          parseMembers limits fuel depth (dictSet entries key v) cs₄ = .ok (value, rest)) := by
  rw [parseMembers] at h
  split_ifs at h with hquote
  split at h
  · exact absurd h (by simp)
  · rename_i key cs₁ hscan
    dsimp only at h
    split_ifs at h with hcolon
    have hsub : skipSpace (skipSpace cs₁).tail ⊆ cs₁ := fun p hp =>
      skipSpace_subset _ (tail_subset _ (skipSpace_subset _ hp))
    split at h
    · exact absurd h (by simp)
    · rename_i v cs₃ hvalue
      refine ⟨key, v, cs₁, _, cs₃, hscan, hsub, hvalue, ?_⟩
      split_ifs at h with hclose hcomma
      · obtain ⟨rfl, rfl⟩ := Prod.mk.inj (Except.ok.inj h)
        exact Or.inl ⟨rfl, fun p hp => skipSpace_subset _ (tail_subset _ hp)⟩
      · exact Or.inr ⟨_, fun p hp =>
          skipSpace_subset _ (tail_subset _ (skipSpace_subset _ hp)), h⟩

/-- **One turn of the loop of an array** that is read. -/
theorem parseElements_eq_ok {values : List JsonValue}
    (h : parseElements limits (fuel + 1) depth values cs = .ok (value, rest)) :
    ∃ v cs₁, parseValue limits fuel depth cs = .ok (v, cs₁) ∧
      ((value = .array (values ++ [v]) ∧ rest ⊆ cs₁) ∨
        ∃ cs₂, cs₂ ⊆ cs₁ ∧
          parseElements limits fuel depth (values ++ [v]) cs₂ = .ok (value, rest)) := by
  rw [parseElements] at h
  split at h
  · exact absurd h (by simp)
  · rename_i v cs₁ hvalue
    dsimp only at h
    refine ⟨v, cs₁, hvalue, ?_⟩
    split_ifs at h with hclose hcomma
    · obtain ⟨rfl, rfl⟩ := Prod.mk.inj (Except.ok.inj h)
      exact Or.inl ⟨rfl, fun p hp => skipSpace_subset _ (tail_subset _ hp)⟩
    · exact Or.inr ⟨_, fun p hp => skipSpace_subset _ (tail_subset _ (skipSpace_subset _ hp)), h⟩

/-- **A value** that is read: an empty array or object, one whose loop is read, or a scalar. -/
theorem parseValue_eq_ok (h : parseValue limits (fuel + 1) depth cs = .ok (value, rest)) :
    (∃ depth', depth = depth' + 1 ∧ ∃ cs', cs' ⊆ cs ∧
      ((value = .object [] ∧ rest ⊆ cs') ∨ (value = .array [] ∧ rest ⊆ cs') ∨
        parseMembers limits fuel depth' [] cs' = .ok (value, rest) ∨
        parseElements limits fuel depth' [] cs' = .ok (value, rest))) ∨
      parseScalar limits cs = .ok (value, rest) := by
  have hsub : skipSpace cs.tail ⊆ cs := fun p hp => tail_subset _ (skipSpace_subset _ hp)
  rw [parseValue.eq_def] at h
  dsimp only at h
  by_cases hbrace : cs.head? = some openBrace
  · rw [if_pos hbrace] at h
    cases depth with
    | zero => exact absurd h (by simp)
    | succ depth =>
        dsimp only at h
        refine Or.inl ⟨depth, rfl, _, hsub, ?_⟩
        split_ifs at h with hclose
        · obtain ⟨rfl, rfl⟩ := Prod.mk.inj (Except.ok.inj h)
          exact Or.inl ⟨rfl, tail_subset _⟩
        · exact Or.inr (Or.inr (Or.inl h))
  · rw [if_neg hbrace] at h
    by_cases hbracket : cs.head? = some (codePoint '[')
    · rw [if_pos hbracket] at h
      cases depth with
      | zero => exact absurd h (by simp)
      | succ depth =>
          dsimp only at h
          refine Or.inl ⟨depth, rfl, _, hsub, ?_⟩
          split_ifs at h with hclose
          · obtain ⟨rfl, rfl⟩ := Prod.mk.inj (Except.ok.inj h)
            exact Or.inr (Or.inl ⟨rfl, tail_subset _⟩)
          · exact Or.inr (Or.inr (Or.inr h))
    · rw [if_neg hbracket] at h
      exact Or.inr h

/-- **What is read is clean**, when the text has no surrogates. -/
theorem clean_of_parse (limits : Limits) (fuel : ℕ) :
    (∀ depth cs value rest, NoSurrogates cs →
      parseValue limits fuel depth cs = .ok (value, rest) →
      ReadClean limits depth cs value rest) ∧
    (∀ depth entries cs value rest, NoSurrogates cs →
      (JsonValue.object entries).Clean limits → JsonValue.heightEntries entries ≤ depth →
      parseMembers limits fuel depth entries cs = .ok (value, rest) →
      ReadClean limits (depth + 1) cs value rest) ∧
    (∀ depth values cs value rest, NoSurrogates cs →
      (JsonValue.array values).Clean limits → JsonValue.heightAll values ≤ depth →
      parseElements limits fuel depth values cs = .ok (value, rest) →
      ReadClean limits (depth + 1) cs value rest) := by
  induction fuel with
  | zero =>
      refine ⟨?_, ?_, ?_⟩
      · intro depth cs value rest _ h
        exact absurd h (by simp [parseValue])
      · intro depth entries cs value rest _ _ _ h
        exact absurd h (by simp [parseMembers])
      · intro depth values cs value rest _ _ _ h
        exact absurd h (by simp [parseElements])
  | succ fuel ih =>
      obtain ⟨ihValue, ihMembers, ihElements⟩ := ih
      refine ⟨?_, ?_, ?_⟩
      · intro depth cs value rest hcs h
        rcases parseValue_eq_ok h with
          ⟨depth', rfl, cs', hsub, ⟨rfl, hrest⟩ | ⟨rfl, hrest⟩ | h | h⟩ | h
        · exact ⟨⟨List.nodup_nil, trivial⟩, Nat.succ_le_succ (Nat.zero_le _),
            fun p hp => hsub (hrest hp)⟩
        · exact ⟨trivial, Nat.succ_le_succ (Nat.zero_le _), fun p hp => hsub (hrest hp)⟩
        · exact (ihMembers _ [] _ _ _ (hcs.mono hsub) ⟨List.nodup_nil, trivial⟩ (Nat.zero_le _)
            h).mono hsub
        · exact (ihElements _ [] _ _ _ (hcs.mono hsub) trivial (Nat.zero_le _) h).mono hsub
        · exact clean_of_parseScalar h hcs
      · intro depth entries cs value rest hcs hclean hheight h
        obtain ⟨key, v, cs₁, cs₂, cs₃, hscan, hsub, hvalue, hnext⟩ := parseMembers_eq_ok h
        obtain ⟨hkey, hsub'⟩ := noPairs_of_scanString hscan (hcs.mono (tail_subset cs))
        have hcs₂ : cs₂ ⊆ cs := fun p hp => tail_subset cs (hsub' (hsub hp))
        have hv := (ihValue _ _ _ _ (hcs.mono hcs₂) hvalue).mono hcs₂
        have hclean' := hclean.dictSet hkey hv.clean
        have hheight' : JsonValue.heightEntries (dictSet entries key v) ≤ depth :=
          JsonValue.heightEntries_dictSet_le hheight hv.height
        rcases hnext with ⟨rfl, hrest⟩ | ⟨cs₄, hsub₄, h⟩
        · exact ⟨hclean', Nat.succ_le_succ hheight', fun p hp => hv.subset (hrest hp)⟩
        · have hcs₄ : cs₄ ⊆ cs := fun p hp => hv.subset (hsub₄ hp)
          exact (ihMembers _ _ _ _ _ (hcs.mono hcs₄) hclean' hheight' h).mono hcs₄
      · intro depth values cs value rest hcs hclean hheight h
        obtain ⟨v, cs₁, hvalue, hnext⟩ := parseElements_eq_ok h
        have hv := ihValue _ _ _ _ hcs hvalue
        have hclean' : (JsonValue.array (values ++ [v])).Clean limits :=
          JsonValue.allClean_iff.mpr (List.forall_mem_append.mpr
            ⟨JsonValue.allClean_iff.mp hclean, List.forall_mem_singleton.mpr hv.clean⟩)
        have hheight' : JsonValue.heightAll (values ++ [v]) ≤ depth :=
          JsonValue.heightAll_le_iff.mpr (List.forall_mem_append.mpr
            ⟨JsonValue.heightAll_le_iff.mp hheight, List.forall_mem_singleton.mpr hv.height⟩)
        rcases hnext with ⟨rfl, hrest⟩ | ⟨cs₂, hsub₂, h⟩
        · exact ⟨hclean', Nat.succ_le_succ hheight', fun p hp => hv.subset (hrest hp)⟩
        · have hcs₂ : cs₂ ⊆ cs := fun p hp => hv.subset (hsub₂ hp)
          exact (ihElements _ _ _ _ _ (hcs.mono hcs₂) hclean' hheight' h).mono hcs₂

/-- **What `json.loads` returns** of a text without surrogates. -/
theorem clean_of_loads {s : PyStr} (h : loads limits s = .ok value) (hs : NoSurrogates s) :
    value.Clean limits ∧ value.height ≤ limits.depth := by
  rw [loads] at h
  split at h
  · exact absurd h (by simp)
  · rename_i v cs hparse
    split_ifs at h
    obtain rfl := Except.ok.inj h
    have hread := (clean_of_parse limits _).1 _ _ _ _ (hs.mono (skipSpace_subset s)) hparse
    exact ⟨hread.clean, hread.height⟩

/-! ## Writing it again -/

namespace JsonValue

variable {floatRepr : Float64 → PyStr}

mutual

/-- **A clean value is written.** -/
theorem exists_dumps : ∀ {v : JsonValue}, v.Clean limits → ∃ t, v.dumps floatRepr limits = some t
  | .null, _ => ⟨_, rfl⟩
  | .bool _, _ => ⟨_, rfl⟩
  | .int _, h => ⟨_, if_pos h⟩
  | .float _, _ => ⟨_, rfl⟩
  | .string _, _ => ⟨_, rfl⟩
  | .array _, h => by
      obtain ⟨ts, hts⟩ := exists_dumpsAll h
      exact ⟨_, by rw [dumps, hts]; rfl⟩
  | .object _, h => by
      obtain ⟨ts, hts⟩ := exists_dumpsEntries h.2
      exact ⟨_, by rw [dumps, hts]; rfl⟩

theorem exists_dumpsAll : ∀ {vs : List JsonValue}, AllClean limits vs →
    ∃ ts, dumpsAll floatRepr limits vs = some ts
  | [], _ => ⟨_, rfl⟩
  | _ :: _, h => by
      obtain ⟨t, ht⟩ := exists_dumps h.1
      obtain ⟨ts, hts⟩ := exists_dumpsAll h.2
      exact ⟨_, by rw [dumpsAll, ht, hts]; rfl⟩

theorem exists_dumpsEntries : ∀ {entries : List (PyStr × JsonValue)}, EntriesClean limits entries →
    ∃ ts, dumpsEntries floatRepr limits entries = some ts
  | [], _ => ⟨_, rfl⟩
  | _ :: _, h => by
      obtain ⟨t, ht⟩ := exists_dumpsEntry h.1
      obtain ⟨ts, hts⟩ := exists_dumpsEntries h.2
      exact ⟨_, by rw [dumpsEntries, ht, hts]; rfl⟩

theorem exists_dumpsEntry : ∀ {entry : PyStr × JsonValue}, EntryClean limits entry →
    ∃ t, dumpsEntry floatRepr limits entry = some t
  | (_, _), h => by
      obtain ⟨t, ht⟩ := exists_dumps h.2
      exact ⟨_, by rw [dumpsEntry, ht]; rfl⟩

end

mutual

/-- **A clean value is read back** as it is. -/
theorem read_of_clean : ∀ {v : JsonValue}, v.Clean limits → v.read = v
  | .null, _ => rfl
  | .bool _, _ => rfl
  | .int _, _ => rfl
  | .float _, _ => rfl
  | .string _, h => by rw [read, joinText_of_noPairs h]
  | .array _, h => by rw [read, readAll_of_clean h]
  | .object entries, h => by
      have hdict := @dictOf_of_nodup [] entries h.1
      rw [read, readEntries_of_clean h.2, hdict, List.nil_append]

theorem readAll_of_clean : ∀ {vs : List JsonValue}, AllClean limits vs → readAll vs = vs
  | [], _ => rfl
  | _ :: _, h => by rw [readAll, read_of_clean h.1, readAll_of_clean h.2]

theorem readEntries_of_clean : ∀ {entries : List (PyStr × JsonValue)},
    EntriesClean limits entries → readEntries entries = entries
  | [], _ => rfl
  | _ :: _, h => by rw [readEntries, readEntry_of_clean h.1, readEntries_of_clean h.2]

theorem readEntry_of_clean : ∀ {entry : PyStr × JsonValue}, EntryClean limits entry →
    readEntry entry = entry
  | (_, _), h => by rw [readEntry, joinText_of_noPairs h.1, read_of_clean h.2]

end

/-- **A clean value is written and read back**, when its doubles are and it is not too deep. -/
theorem exists_dumps_of_clean {v : JsonValue} (h : v.Clean limits)
    (hdoubles : v.Doubles (ReadBack floatRepr limits)) (hheight : v.height ≤ limits.depth) :
    ∃ t, v.dumps floatRepr limits = some t ∧ loads limits t = .ok v ∧
      (encodeUtf8 t).isSome := by
  obtain ⟨t, ht⟩ := @exists_dumps limits floatRepr v h
  have hloads := loads_dumps ht hdoubles hheight
  rw [read_of_clean h] at hloads
  exact ⟨t, ht, hloads, isSome_encodeUtf8_of_dumps ht hdoubles⟩

end JsonValue

end Foundations
end MigrationStudio
