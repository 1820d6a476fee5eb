import MigrationStudio.Foundations.JsonText

/-!
# `Settings.load` and `Settings.save`

`load` reads `settings.json` and two environment variables.  It falls back to no values where the
file is absent, cannot be read or is no JSON, and to the default interval where the interval is no
number or out of range.  Its `except` clauses name `OSError` and `JSONDecodeError` around the file,
`TypeError` and `ValueError` around the two conversions; what else is raised there leaves `load`.

That happens for bytes that are no UTF-8 (`UnicodeDecodeError`), for an integer with more digits
than may be converted (`ValueError` of `json.loads`), for arrays or objects nested too deeply
(`RecursionError`), for an infinite `api_id` and for an integer interval that is too large for a
double (`OverflowError`).  `save` raises for a hash with a surrogate and for an `api_id` that has
too many digits.

* `load`, `save`: the two functions; `LoadsCleanly`, `SavesCleanly`: when they do not raise.
* `load_iff`, `load_save_iff`: the conditions are exact.
* `load_and_save_iff`: both together.
-/

namespace MigrationStudio
namespace Config

open Foundations

/-! ## Settings -/

def MIN_INVITE_INTERVAL_SECONDS : ℚ := 3

def MAX_INVITE_INTERVAL_SECONDS : ℚ := 10

def DEFAULT_INVITE_INTERVAL_SECONDS : Double := ⟨5, by decide +kernel⟩

/-- The comparison with the bounds, which fails for what is no number. -/
def InRange : Float64 → Prop
  | .nan => False
  | .inf _ => False
  | .finite d => MIN_INVITE_INTERVAL_SECONDS ≤ d.value ∧ d.value ≤ MAX_INVITE_INTERVAL_SECONDS

instance : DecidablePred InRange
  | .nan => inferInstanceAs (Decidable False)
  | .inf _ => inferInstanceAs (Decidable False)
  | .finite _ => inferInstanceAs (Decidable (_ ∧ _))

/-- A double between the bounds. -/
abbrev Interval := {d : Double // InRange (.finite d)}

/-- `Settings`, with the types of the hash and of the interval: `load` takes whatever value of JSON
the hash is, and it is a result that the interval is between the bounds. -/
structure Settings (H F : Type) where
  apiId : Option ℤ
  apiHash : H
  inviteIntervalSeconds : F

/-- `settings.json`: `exists` is false, reading raises `OSError`, or there are bytes. -/
inductive SettingsFile where
  | absent
  | unreadable
  | content (bytes : ByteArray)

/-- `TMS_TELEGRAM_API_ID` and `TMS_TELEGRAM_API_HASH`. -/
structure Environment where
  apiId : Option PyStr
  apiHash : Option PyStr

/-- `int` and `float` of a string; `none` for `ValueError`. -/
structure Conversions where
  intOfText : PyStr → Option ℤ
  floatOfText : PyStr → Option Float64

/-- What leaves `load`: `UnicodeDecodeError`, an error of `json.loads`, `OverflowError`. -/
inductive LoadError where
  | unicodeDecode
  | json (e : LoadsError)
  | overflow
  deriving DecidableEq

/-! ## `load` -/

/-- `payload.get(key)`. -/
def get (payload : List (PyStr × JsonValue)) (key : PyStr) : Option JsonValue :=
  (payload.find? fun entry => entry.1 = key).map Prod.snd

def apiIdKey : PyStr := text "api_id"

def apiHashKey : PyStr := text "api_hash"

def intervalKey : PyStr := text "invite_interval_seconds"

/-- Of the errors of `json.loads` only `JSONDecodeError` is caught. -/
def payloadOf : Except LoadsError JsonValue → Except LoadError (List (PyStr × JsonValue))
  | .ok (.object entries) => .ok entries
  | .ok _ => .ok []
  | .error .decode => .ok []
  | .error e => .error (.json e)

/-- The first part of `load`. -/
def readPayload (limits : Limits) : SettingsFile → Except LoadError (List (PyStr × JsonValue))
  | .absent => .ok []
  | .unreadable => .ok []
  | .content bytes =>
      match readText bytes with
      | none => .error .unicodeDecode
      | some s => payloadOf (loads limits s)

/-- The identifier: `None` for `None`, the empty string and what raises `TypeError` or
`ValueError`; an infinite double raises `OverflowError`. -/
def loadApiId (c : Conversions) : JsonValue → Except LoadError (Option ℤ)
  | .null => .ok none
  | .bool b => .ok (some b.toInt)
  | .int n => .ok (some n)
  | .float .nan => .ok none
  | .float (.inf _) => .error .overflow
  | .float (.finite d) => .ok (some (d.value.num.tdiv d.value.den))
  | .string s => .ok (if s = [] then none else c.intOfText s)
  | .array _ => .ok none
  | .object _ => .ok none

/-- `float(interval)`; `none` for `TypeError` and `ValueError`. -/
def floatOf (c : Conversions) : JsonValue → Except LoadError (Option Float64)
  | .null => .ok none
  | .bool b => .ok (some (.ofRat b.toInt))
  | .int n => if overflowBound ≤ |roundDouble n| then .error .overflow else .ok (some (.ofRat n))
  | .float x => .ok (some x)
  | .string s => .ok (c.floatOfText s)
  | .array _ => .ok none
  | .object _ => .ok none

/-- The interval, which is the default one unless the number is between the bounds. -/
def loadInterval (c : Conversions) (payload : List (PyStr × JsonValue)) :
    Except LoadError Float64 :=
  let interval := (get payload intervalKey).getD (.float (.finite DEFAULT_INVITE_INTERVAL_SECONDS))
  (floatOf c interval).map fun number =>
    let value := number.getD (.finite DEFAULT_INVITE_INTERVAL_SECONDS)
    if InRange value then value else .finite DEFAULT_INVITE_INTERVAL_SECONDS

/-- What an environment variable or else the file has. -/
def raw (env : Option PyStr) (payload : List (PyStr × JsonValue)) (key : PyStr) : JsonValue :=
  match env with
  | some s => .string s
  | none => (get payload key).getD .null

/-- `Settings.load`. -/
def load (limits : Limits) (c : Conversions) (file : SettingsFile) (env : Environment) :
    Except LoadError (Settings JsonValue Float64) := do
  let payload ← readPayload limits file
  let apiId ← loadApiId c (raw env.apiId payload apiIdKey)
  let interval ← loadInterval c payload
  return ⟨apiId, raw env.apiHash payload apiHashKey, interval⟩

/-! ## `save` -/

/-- What leaves `save`: the `ValueError` of an integer with too many digits, and
`UnicodeEncodeError`. -/
inductive SaveError where
  | intTooLong | unicodeEncode
  deriving DecidableEq

def dumpsApiId (limits : Limits) : Option ℤ → Option PyStr
  | none => some (text "null")
  | some n => dumpsInt limits n

def dumpsApiHash : Option PyStr → PyStr
  | none => text "null"
  | some s => dumpsString s

/-- `asdict`, with the identifier as its text. -/
def items (apiId : PyStr) (s : Settings (Option PyStr) Interval) : List (PyStr × PyStr) :=
  [(apiIdKey, apiId), (apiHashKey, dumpsApiHash s.apiHash),
    (intervalKey, dumpsFloat s.inviteIntervalSeconds)]

/-- `Settings.save`: the bytes of the file. -/
def save (limits : Limits) (separator : LineSeparator) (s : Settings (Option PyStr) Interval) :
    Except SaveError ByteArray :=
  match dumpsApiId limits s.apiId with
  | none => .error .intTooLong
  | some apiId =>
      match writeText separator (dumpsObject (items apiId s)) with
      | none => .error .unicodeEncode
      | some bytes => .ok bytes

/-- The hash of settings, as `load` returns it. -/
def hashValue : Option PyStr → JsonValue
  | none => .null
  | some s => .string s

/-- The settings as `load` returns them. -/
def Settings.loaded (s : Settings (Option PyStr) Interval) : Settings JsonValue Float64 :=
  ⟨s.apiId, hashValue s.apiHash, .finite s.inviteIntervalSeconds⟩

/-! ## Conditions -/

/-- Neither conversion overflows. -/
structure Converts (env : Environment) (payload : List (PyStr × JsonValue)) : Prop where
  apiId : env.apiId = none → ∀ negative, get payload apiIdKey ≠ some (.float (.inf negative))
  interval : ∀ n : ℤ, get payload intervalKey = some (.int n) → |roundDouble n| < overflowBound

/-- The bytes are UTF-8, the text has neither an integer with too many digits nor too deep a
nesting where JSON is read, and what is found is converted. -/
def LoadsCleanly (limits : Limits) (env : Environment) : SettingsFile → Prop
  | .absent => True
  | .unreadable => True
  | .content bytes => ∃ s, readText bytes = some s ∧
      loads limits s ≠ .error .intTooLong ∧ loads limits s ≠ .error .recursion ∧
      ∀ entries, loads limits s = .ok (.object entries) → Converts env entries

/-- The identifier has a text and the hash has no surrogate. -/
structure SavesCleanly (limits : Limits) (s : Settings (Option PyStr) Interval) : Prop where
  apiId : ∀ n, s.apiId = some n → FitsLimit limits n
  apiHash : ∀ hash, s.apiHash = some hash → ∀ p ∈ hash, ¬ IsSurrogate p

/-! ## Loading -/

variable {limits : Limits} {c : Conversions} {payload : List (PyStr × JsonValue)}

theorem inRange_default : InRange (.finite DEFAULT_INVITE_INTERVAL_SECONDS) := by
  show (3 : ℚ) ≤ 5 ∧ (5 : ℚ) ≤ 10
  norm_num

/-- Only an infinite double is an identifier that raises. -/
theorem loadApiId_isOk_iff {v : JsonValue} :
    (∃ id, loadApiId c v = .ok id) ↔ ∀ negative, v ≠ .float (.inf negative) := by
  cases v with
  | float x =>
      cases x with
      | inf negative =>
          refine iff_of_false ?_ fun h => h negative rfl
          rintro ⟨id, hid⟩
          exact absurd hid nofun
      | nan => exact iff_of_true ⟨_, rfl⟩ fun _ => by simp
      | finite d => exact iff_of_true ⟨_, rfl⟩ fun _ => by simp
  | null => exact iff_of_true ⟨_, rfl⟩ fun _ => by simp
  | bool b => exact iff_of_true ⟨_, rfl⟩ fun _ => by simp
  | int n => exact iff_of_true ⟨_, rfl⟩ fun _ => by simp
  | string s => exact iff_of_true ⟨_, rfl⟩ fun _ => by simp
  | array values => exact iff_of_true ⟨_, rfl⟩ fun _ => by simp
  | object entries => exact iff_of_true ⟨_, rfl⟩ fun _ => by simp

/-- Only an integer that is too large is an interval that raises. -/
theorem floatOf_isOk_iff {v : JsonValue} :
    (∃ x, floatOf c v = .ok x) ↔ ∀ n : ℤ, v = .int n → |roundDouble n| < overflowBound := by
  cases v with
  | int n =>
      simp only [JsonValue.int.injEq, forall_eq', floatOf]
      by_cases hlarge : overflowBound ≤ |roundDouble n|
      · rw [if_pos hlarge]
        refine iff_of_false ?_ (not_lt.mpr hlarge)
        rintro ⟨x, hx⟩
        exact absurd hx nofun
      · rw [if_neg hlarge]
        exact iff_of_true ⟨_, rfl⟩ (not_le.mp hlarge)
  | null => exact iff_of_true ⟨_, rfl⟩ nofun
  | bool b => exact iff_of_true ⟨_, rfl⟩ nofun
  | float x => exact iff_of_true ⟨_, rfl⟩ nofun
  | string s => exact iff_of_true ⟨_, rfl⟩ nofun
  | array values => exact iff_of_true ⟨_, rfl⟩ nofun
  | object entries => exact iff_of_true ⟨_, rfl⟩ nofun

/-- **The interval is between the bounds** when nothing is raised. -/
theorem inRange_loadInterval {x : Float64} (h : loadInterval c payload = .ok x) : InRange x := by
  unfold loadInterval at h
  dsimp only at h
  generalize floatOf c _ = number at h
  cases number with
  | error e => exact absurd h nofun
  | ok number =>
      obtain rfl := Except.ok.inj h
      dsimp only
      split_ifs with hrange
      · exact hrange
      · exact inRange_default

theorem loadInterval_isOk_iff :
    (∃ x, loadInterval c payload = .ok x) ↔
      ∀ n : ℤ, get payload intervalKey = some (.int n) → |roundDouble n| < overflowBound := by
  have hdefault : ∀ n : ℤ, (get payload intervalKey).getD
      (.float (.finite DEFAULT_INVITE_INTERVAL_SECONDS)) = .int n ↔
        get payload intervalKey = some (.int n) := by
    intro n
    cases get payload intervalKey with
    | none => exact iff_of_false nofun nofun
    | some v => rw [Option.getD_some, Option.some.injEq]
  simp only [← hdefault]
  rw [← floatOf_isOk_iff (c := c), loadInterval]
  dsimp only
  generalize floatOf c _ = number
  cases number with
  | error e => exact iff_of_false (by rintro ⟨x, hx⟩; exact absurd hx nofun) (by simp)
  | ok number => exact iff_of_true ⟨_, rfl⟩ ⟨_, rfl⟩

/-- An identifier of the environment is a string, so that it does not raise. -/
theorem loadApiId_raw_isOk_iff {env : Option PyStr} :
    (∃ id, loadApiId c (raw env payload apiIdKey) = .ok id) ↔
      (env = none → ∀ negative, get payload apiIdKey ≠ some (.float (.inf negative))) := by
  rw [loadApiId_isOk_iff]
  cases env with
  | some s => exact iff_of_true (fun _ => nofun) nofun
  | none =>
      rw [raw]
      cases get payload apiIdKey with
      | none => exact iff_of_true (fun _ => nofun) fun _ _ => nofun
      | some v => simp only [Option.getD_some, ne_eq, Option.some.injEq, forall_const]

variable {file : SettingsFile} {env : Environment}

/-- **Loading a payload** returns settings with an interval between the bounds, unless a conversion
overflows. -/
theorem load_of_readPayload (h : readPayload limits file = .ok payload) :
    (∃ s, load limits c file env = .ok s ∧ InRange s.inviteIntervalSeconds) ↔
      Converts env payload := by
  have hid := @loadApiId_raw_isOk_iff c payload env.apiId
  have hinterval := @loadInterval_isOk_iff c payload
  have hload : load limits c file env = do
      let apiId ← loadApiId c (raw env.apiId payload apiIdKey)
      let interval ← loadInterval c payload
      return ⟨apiId, raw env.apiHash payload apiHashKey, interval⟩ := by
    rw [load, h]
    rfl
  rw [hload]
  constructor
  · rintro ⟨s, hs, -⟩
    refine ⟨hid.mp ?_, hinterval.mp ?_⟩
    · cases hval : loadApiId c (raw env.apiId payload apiIdKey) with
      | error e =>
          rw [hval] at hs
          exact absurd hs nofun
      | ok id => exact ⟨id, rfl⟩
    · cases hval : loadInterval c payload with
      | error e =>
          rw [hval] at hs
          cases hval' : loadApiId c (raw env.apiId payload apiIdKey) with
          | error e' =>
              rw [hval'] at hs
              exact absurd hs nofun
          | ok id =>
              rw [hval'] at hs
              exact absurd hs nofun
      | ok x => exact ⟨x, rfl⟩
  · rintro ⟨hapiId, hsmall⟩
    obtain ⟨id, hapiId⟩ := hid.mpr hapiId
    obtain ⟨x, hx⟩ := hinterval.mpr hsmall
    rw [hapiId, hx]
    exact ⟨_, rfl, inRange_loadInterval hx⟩

/-- No payload converts. -/
theorem converts_nil : Converts env [] := ⟨fun _ _ => nofun, fun _ => nofun⟩

/-- What becomes of the result of `json.loads`: a payload, or an error that is not caught. -/
theorem payloadOf_cases (env : Environment) {r : Except LoadsError JsonValue}
    (hr : r ≠ .error .outOfFuel) :
    (∃ payload, payloadOf r = .ok payload ∧ r ≠ .error .intTooLong ∧ r ≠ .error .recursion ∧
      (Converts env payload ↔ ∀ entries, r = .ok (.object entries) → Converts env entries)) ∨
    ∃ e, payloadOf r = .error e ∧ (r = .error .intTooLong ∨ r = .error .recursion) := by
  cases r with
  | ok v =>
      cases v with
      | object entries =>
          refine Or.inl ⟨entries, rfl, nofun, nofun, fun h entries' heq => ?_, fun h => h _ rfl⟩
          obtain rfl := JsonValue.object.inj (Except.ok.inj heq)
          exact h
      | null => exact Or.inl ⟨[], rfl, nofun, nofun, iff_of_true converts_nil fun _ => nofun⟩
      | bool b => exact Or.inl ⟨[], rfl, nofun, nofun, iff_of_true converts_nil fun _ => nofun⟩
      | int n => exact Or.inl ⟨[], rfl, nofun, nofun, iff_of_true converts_nil fun _ => nofun⟩
      | float x => exact Or.inl ⟨[], rfl, nofun, nofun, iff_of_true converts_nil fun _ => nofun⟩
      | string s => exact Or.inl ⟨[], rfl, nofun, nofun, iff_of_true converts_nil fun _ => nofun⟩
      | array vs => exact Or.inl ⟨[], rfl, nofun, nofun, iff_of_true converts_nil fun _ => nofun⟩
  | error e =>
      cases e with
      | decode => exact Or.inl ⟨[], rfl, nofun, nofun, iff_of_true converts_nil fun _ => nofun⟩
      | intTooLong => exact Or.inr ⟨_, rfl, Or.inl rfl⟩
      | recursion => exact Or.inr ⟨_, rfl, Or.inr rfl⟩
      | outOfFuel => exact absurd rfl hr

/-- **When `load` returns**: exactly for the files that load cleanly. -/
theorem load_iff (limits : Limits) (c : Conversions) (file : SettingsFile) (env : Environment) :
    (∃ s, load limits c file env = .ok s ∧ InRange s.inviteIntervalSeconds) ↔
      LoadsCleanly limits env file := by
  cases file with
  | absent => exact (load_of_readPayload rfl).trans (iff_of_true converts_nil trivial)
  | unreadable => exact (load_of_readPayload rfl).trans (iff_of_true converts_nil trivial)
  | content bytes =>
      have hraises : ∀ e, readPayload limits (.content bytes) = .error e →
          ¬ ∃ s, load limits c (.content bytes) env = .ok s ∧ InRange s.inviteIntervalSeconds := by
        rintro e he ⟨s, hs, -⟩
        rw [load, he] at hs
        exact absurd hs nofun
      rw [LoadsCleanly]
      cases hread : readText bytes with
      | none =>
          refine iff_of_false (hraises .unicodeDecode (by rw [readPayload, hread])) ?_
          rintro ⟨s, hs, -⟩
          exact absurd hs nofun
      | some s =>
          have hpayload : readPayload limits (.content bytes) = payloadOf (loads limits s) := by
            rw [readPayload, hread]
          simp only [Option.some.injEq, exists_eq_left']
          rcases payloadOf_cases env (loads_ne_outOfFuel limits s) with
            ⟨payload, hok, hint, hdepth, hconverts⟩ | ⟨e, herror, hloads⟩
          · rw [load_of_readPayload (hpayload.trans hok), hconverts]
            exact ⟨fun h => ⟨hint, hdepth, h⟩, fun h => h.2.2⟩
          · refine iff_of_false (hraises e (hpayload.trans herror)) ?_
            rintro ⟨hint, hdepth, -⟩
            rcases hloads with hloads | hloads
            · exact hint hloads
            · exact hdepth hloads

/-! ## Saving -/

variable {id : Option ℤ} {t : PyStr} {s : Settings (Option PyStr) Interval}

/-- The identifier of settings, as a value of JSON. -/
def idValue : Option ℤ → JsonValue
  | none => .null
  | some n => .int n

theorem exists_dumpsApiId_iff :
    (∃ t, dumpsApiId limits id = some t) ↔ ∀ n, id = some n → FitsLimit limits n := by
  cases id with
  | none => exact iff_of_true ⟨_, rfl⟩ nofun
  | some n =>
      simp only [dumpsApiId, dumpsInt, Option.some.injEq, forall_eq']
      by_cases hfits : FitsLimit limits n
      · rw [if_pos hfits]
        exact iff_of_true ⟨_, rfl⟩ hfits
      · rw [if_neg hfits]
        exact iff_of_false (by simp) hfits

theorem reads_dumpsApiId (h : dumpsApiId limits id = some t) : Reads limits t (idValue id) := by
  cases id with
  | none =>
      obtain rfl := Option.some.inj h
      exact reads_null
  | some n => exact reads_dumpsInt h

theorem reads_dumpsApiHash (hash : Option PyStr) :
    Reads limits (dumpsApiHash hash) (hashValue hash) := by
  cases hash with
  | none => exact reads_null
  | some s => exact reads_dumpsString s

theorem reads_interval (d : Interval) :
    Reads limits (dumpsFloat d) (.float (.finite d)) := by
  obtain ⟨d, hlow, hhigh⟩ := d
  unfold MIN_INVITE_INTERVAL_SECONDS at hlow
  unfold MAX_INVITE_INTERVAL_SECONDS at hhigh
  refine reads_dumpsFloat (by linarith) (hhigh.trans_lt ?_)
  calc (10 : ℚ) < 2 ^ 4 := by norm_num
    _ ≤ overflowBound := pow_le_pow_right₀ (by norm_num) (by norm_num)

/-- What is read of the file that is written. -/
def entries (s : Settings (Option PyStr) Interval) : List (PyStr × JsonValue) :=
  [(apiIdKey, idValue s.apiId), (apiHashKey, hashValue s.apiHash),
    (intervalKey, .float (.finite s.inviteIntervalSeconds))]

theorem keys_ne : apiIdKey ≠ apiHashKey ∧ apiIdKey ≠ intervalKey ∧ apiHashKey ≠ intervalKey := by
  decide

theorem loads_items (h : dumpsApiId limits s.apiId = some t) :
    loads limits (dumpsObject (items t s)) = .ok (.object (entries s)) := by
  obtain ⟨h₁, h₂, h₃⟩ := keys_ne
  refine loads_dumpsObject ?_ (by simp [items]) (by simp [entries, h₁, h₂, h₃])
  exact .cons ⟨rfl, reads_dumpsApiId h⟩ (.cons ⟨rfl, reads_dumpsApiHash s.apiHash⟩
    (.cons ⟨rfl, reads_interval s.inviteIntervalSeconds⟩ .nil))

/-- **What is saved is loaded**: the payload of the settings converts to the settings. -/
theorem load_of_entries {file : SettingsFile} (h : readPayload limits file = .ok (entries s)) :
    load limits c file ⟨none, none⟩ = .ok s.loaded := by
  obtain ⟨h₁, h₂, h₃⟩ := keys_ne
  have hid : get (entries s) apiIdKey = some (idValue s.apiId) := by
    simp [get, entries]
  have hhash : get (entries s) apiHashKey = some (hashValue s.apiHash) := by
    simp [get, entries, h₁]
  have hinterval : get (entries s) intervalKey =
      some (.float (.finite s.inviteIntervalSeconds)) := by
    simp [get, entries, h₂, h₃]
  have hloadId : loadApiId c (idValue s.apiId) = .ok s.apiId := by
    cases s.apiId with
    | none => rfl
    | some n => rfl
  have hloadInterval : loadInterval c (entries s) = .ok (.finite s.inviteIntervalSeconds) := by
    rw [loadInterval, hinterval]
    exact congrArg Except.ok (if_pos s.inviteIntervalSeconds.2)
  rw [load, h]
  simp only [raw, hid, hhash, Option.getD_some, bind, Except.bind, hloadId, hloadInterval]
  rfl

section

variable {P : CodePoint → Prop} (hprintable : ∀ p, IsPrintable p → P p)
include hprintable

theorem forall_mem_text {l : PyStr} (h : l.all (fun p => IsPrintable p) = true) :
    ∀ p ∈ l, P p := fun p hp =>
  hprintable p (of_decide_eq_true (List.all_eq_true.mp h p hp))

theorem forall_mem_dumpsApiId (h : dumpsApiId limits id = some t) : ∀ p ∈ t, P p := by
  cases id with
  | none =>
      obtain rfl := Option.some.inj h
      exact forall_mem_text hprintable (by decide)
  | some n => exact fun p hp => hprintable p (isPrintable_of_mem_dumpsInt h hp)

theorem forall_mem_dumpsApiHash (hash : Option PyStr) :
    (∀ p ∈ dumpsApiHash hash, P p) ↔ ∀ s, hash = some s → ∀ p ∈ s, 0x80 ≤ p.val → P p := by
  cases hash with
  | none => exact iff_of_true (forall_mem_text hprintable (by decide)) nofun
  | some s =>
      simp only [dumpsApiHash, forall_mem_dumpsString hprintable, Option.some.injEq, forall_eq']

/-- **What is written** is printable or a line feed, but for the hash beyond ASCII. -/
theorem forall_mem_items (hline : P lineFeed) (h : dumpsApiId limits s.apiId = some t) :
    (∀ q ∈ dumpsObject (items t s), P q) ↔
      ∀ hash, s.apiHash = some hash → ∀ p ∈ hash, 0x80 ≤ p.val → P p := by
  have hkeys : ∀ key ∈ [apiIdKey, apiHashKey, intervalKey], ∀ p ∈ key, 0x80 ≤ p.val → P p := by
    intro key hkey p hp _
    refine forall_mem_text hprintable ?_ p hp
    rcases List.mem_cons.mp hkey with rfl | hkey
    · decide
    · rcases List.mem_cons.mp hkey with rfl | hkey
      · decide
      · obtain rfl := List.mem_singleton.mp hkey
        decide
  have hfloat : ∀ p ∈ dumpsFloat s.inviteIntervalSeconds, P p := fun p hp =>
    hprintable p (isPrintable_of_mem_dumpsFloat hp)
  rw [forall_mem_dumpsObject hprintable hline, ← forall_mem_dumpsApiHash hprintable]
  constructor
  · intro hall
    exact (hall (apiHashKey, dumpsApiHash s.apiHash) (by simp [items])).2
  · intro hhash item hitem
    unfold items at hitem
    rcases List.mem_cons.mp hitem with rfl | hitem
    · exact ⟨hkeys _ (by simp), forall_mem_dumpsApiId hprintable h⟩
    · rcases List.mem_cons.mp hitem with rfl | hitem
      · exact ⟨hkeys _ (by simp), hhash⟩
      · obtain rfl := List.mem_singleton.mp hitem
        exact ⟨hkeys _ (by simp), hfloat⟩

end

/-- No carriage return is written, so that the newlines are read as they were. -/
theorem ne_carriageReturn_of_mem (h : dumpsApiId limits s.apiId = some t) :
    ∀ p ∈ dumpsObject (items t s), p ≠ carriageReturn := by
  have hprintable : ∀ p, IsPrintable p → p ≠ carriageReturn := by
    rintro p hp rfl
    exact absurd hp (by decide)
  refine (forall_mem_items hprintable (by decide) h).mpr fun hash _ p _ hge => ?_
  rintro rfl
  exact absurd hge (by decide)

/-- The file can be written exactly if the hash has no surrogate. -/
theorem isSome_writeText_items_iff (separator : LineSeparator)
    (h : dumpsApiId limits s.apiId = some t) :
    (writeText separator (dumpsObject (items t s))).isSome ↔
      ∀ hash, s.apiHash = some hash → ∀ p ∈ hash, ¬ IsSurrogate p := by
  have hprintable : ∀ p, IsPrintable p → ¬ IsSurrogate p := by
    intro p hp hsurrogate
    unfold IsPrintable at hp
    unfold IsSurrogate at hsurrogate
    omega
  rw [isSome_writeText_iff, forall_mem_items hprintable (by decide) h]
  refine forall₂_congr fun hash _ => forall₂_congr fun p _ => ⟨fun h hs => h ?_ hs, fun h _ => h⟩
  unfold IsSurrogate at hs
  omega

/-- `save` writes the text of the settings, or it raises. -/
theorem save_eq_ok_iff {separator : LineSeparator} {bytes : ByteArray} :
    save limits separator s = .ok bytes ↔ ∃ t, dumpsApiId limits s.apiId = some t ∧
      writeText separator (dumpsObject (items t s)) = some bytes := by
  unfold save
  cases dumpsApiId limits s.apiId with
  | none => exact iff_of_false nofun nofun
  | some t =>
      simp only [Option.some.injEq, exists_eq_left']
      cases writeText separator (dumpsObject (items t s)) with
      | none => exact iff_of_false nofun nofun
      | some bytes' => simp only [Except.ok.injEq, Option.some.injEq]

/-- **When what is saved is loaded again**: exactly for the settings that save cleanly. -/
theorem load_save_iff (limits : Limits) (c : Conversions) (separator : LineSeparator)
    (s : Settings (Option PyStr) Interval) :
    (∃ bytes, save limits separator s = .ok bytes ∧
      load limits c (.content bytes) ⟨none, none⟩ = .ok s.loaded) ↔ SavesCleanly limits s := by
  constructor
  · rintro ⟨bytes, hsave, -⟩
    obtain ⟨t, ht, hwrite⟩ := save_eq_ok_iff.mp hsave
    refine ⟨exists_dumpsApiId_iff.mp ⟨t, ht⟩, (isSome_writeText_items_iff separator ht).mp ?_⟩
    rw [hwrite]
    rfl
  · rintro ⟨hid, hhash⟩
    obtain ⟨t, ht⟩ := exists_dumpsApiId_iff.mpr hid
    obtain ⟨bytes, hbytes⟩ :=
      Option.isSome_iff_exists.mp ((isSome_writeText_items_iff separator ht).mpr hhash)
    refine ⟨bytes, save_eq_ok_iff.mpr ⟨t, ht, hbytes⟩, load_of_entries ?_⟩
    rw [readPayload, readText_of_writeText (ne_carriageReturn_of_mem ht) hbytes]
    dsimp only
    rw [loads_items ht]
    rfl

/-- **Loading and saving.**  `load` returns settings with an interval between the bounds exactly for
the files that load cleanly, in every environment; and settings with such an interval are loaded as
they were saved, without environment variables, exactly when they save cleanly. -/
theorem load_and_save_iff (limits : Limits) (c : Conversions) (separator : LineSeparator) :
    (∀ file env, (∃ s, load limits c file env = .ok s ∧ InRange s.inviteIntervalSeconds) ↔
      LoadsCleanly limits env file) ∧
    ∀ s : Settings (Option PyStr) Interval,
      (∃ bytes, save limits separator s = .ok bytes ∧
        load limits c (.content bytes) ⟨none, none⟩ = .ok s.loaded) ↔ SavesCleanly limits s :=
  ⟨load_iff limits c, load_save_iff limits c separator⟩

/-- A byte that is no UTF-8 and an infinite identifier leave `load` as exceptions, and a hash that
is a surrogate leaves `save` as one. -/
theorem load_and_save_raise :
    (load ⟨4300, 1000, by decide⟩ ⟨fun _ => none, fun _ => none⟩ (.content ⟨#[0xff]⟩)
      ⟨none, none⟩).isOk = false ∧
    (load ⟨4300, 1000, by decide⟩ ⟨fun _ => none, fun _ => none⟩
      (.content "\x7b\"api_id\": Infinity\x7d".toByteArray) ⟨none, none⟩).isOk = false ∧
    (save ⟨4300, 1000, by decide⟩ .crlf
      ⟨none, some [0xd800], ⟨DEFAULT_INVITE_INTERVAL_SECONDS, inRange_default⟩⟩).isOk = false := by
  decide +kernel

end Config
end MigrationStudio
