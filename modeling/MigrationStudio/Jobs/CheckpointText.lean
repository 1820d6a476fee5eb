import MigrationStudio.Foundations.JsonLoads

/-!
# `jobs/repository.py`: the text in `checkpoint_json`

A checkpoint is a dictionary that `json.dumps` writes into a column of the job and `json.loads`
reads from it.  SQLite keeps the text as UTF-8 and cannot keep a surrogate; `json.dumps` writes
none.  `get_checkpoint` returns `{}` for NULL, for the empty text and for one that cannot be read.

* `submitSetState`, `submitCheckpoint`, `getCheckpoint`: the column in the three functions.
* `HoldsObject`: columns with a text that is read as a dictionary; `exists_storeText`: it can be
  written to at any key and stored again.
* `Flat`: dictionaries as the program writes them, with scalars only and keys that are read back.
* `getCheckpoint_of_storeText`: such a dictionary is read key by key; only a string in it may be
  read as another one (`Flat.dictGet_readEntries`).
-/

namespace MigrationStudio
namespace Jobs

open Foundations

/-- `checkpoint_json`: NULL, or the bytes of a text. -/
abbrev CheckpointColumn := Option ByteArray

/-- A dictionary that `json.loads` returns. -/
abbrev Dictionary := List (PyStr × JsonValue)

section

variable (floatRepr : Float64 → PyStr) (limits : Limits)

/-- `json.dumps(checkpoint)`, as the parameter of a statement; `none` where it raises. -/
def storeText (checkpoint : Dictionary) : Option ByteArray :=
  ((JsonValue.object checkpoint).dumps floatRepr limits).bind encodeUtf8

/-- The column after `submit_set_state`; `none` where the operation raises and is rolled back. -/
def submitSetState (column : CheckpointColumn) : Option Dictionary → Option CheckpointColumn
  | none => some column
  | some checkpoint => (storeText floatRepr limits checkpoint).map some

/-- The column after `submit_checkpoint`; `none` where the call raises. -/
def submitCheckpoint (checkpoint : Dictionary) : Option CheckpointColumn :=
  (storeText floatRepr limits checkpoint).map some

/-- `get_checkpoint`; `none` where SQLite cannot decode the text. -/
def getCheckpoint : CheckpointColumn → Option JsonValue
  | none => some (.object [])
  | some bytes =>
      (decodeUtf8 bytes).map fun raw =>
        if raw = [] then .object []
        else
          match loads limits raw with
          | .ok v => v
          | .error _ => .object []

end

/-! ## Columns that hold a dictionary -/

/-- Neither a double nor an array nor an object. -/
def IsScalar : JsonValue → Prop
  | .null | .bool _ | .int _ | .string _ => True
  | _ => False

theorem IsScalar.doubles {P : Float64 → Prop} {v : JsonValue} (h : IsScalar v) : v.Doubles P := by
  cases v with
  | null | bool _ | int _ | string _ => trivial
  | float x => exact absurd h id
  | array _ | object _ => exact absurd h id

theorem IsScalar.height_eq {v : JsonValue} (h : IsScalar v) : v.height = 0 := by
  cases v with
  | null | bool _ | int _ | string _ | float _ => rfl
  | array _ | object _ => exact absurd h id

/-- The column is NULL, or holds a text that `json.loads` reads as the dictionary. -/
def HoldsObject (limits : Limits) (d : Dictionary) : CheckpointColumn → Prop
  | none => d = []
  | some bytes => ∃ raw, decodeUtf8 bytes = some raw ∧ loads limits raw = .ok (.object d)

section

variable {floatRepr : Float64 → PyStr} {limits : Limits} {d d' : Dictionary}
  {column : CheckpointColumn}

theorem loads_nil (limits : Limits) : loads limits [] = .error .decode := rfl

/-- `get_checkpoint` returns it. -/
theorem HoldsObject.getCheckpoint_eq (h : HoldsObject limits d column) :
    getCheckpoint limits column = some (.object d) := by
  cases column with
  | none =>
      obtain rfl : d = [] := h
      rfl
  | some bytes =>
      obtain ⟨raw, hraw, hloads⟩ := h
      have hne : raw ≠ [] := by
        rintro rfl
        rw [loads_nil] at hloads
        exact absurd hloads (by simp)
      rw [getCheckpoint, hraw, Option.map_some, if_neg hne, hloads]

theorem HoldsObject.unique (h : HoldsObject limits d column) (h' : HoldsObject limits d' column) :
    d = d' := by
  have heq := h.getCheckpoint_eq.symm.trans h'.getCheckpoint_eq
  exact JsonValue.object.inj (Option.some.inj heq)

/-- A dictionary that is held is clean and not too deep. -/
theorem HoldsObject.clean (h : HoldsObject limits d column) :
    (JsonValue.object d).Clean limits ∧ (JsonValue.object d).height ≤ limits.depth := by
  cases column with
  | none =>
      obtain rfl : d = [] := h
      exact ⟨⟨List.nodup_nil, trivial⟩, limits.depth_pos⟩
  | some bytes =>
      obtain ⟨raw, hraw, hloads⟩ := h
      exact clean_of_loads hloads (noSurrogates_of_decodeUtf8 hraw)

/-- A clean dictionary is stored. -/
theorem exists_storeText (hclean : (JsonValue.object d).Clean limits)
    (hdoubles : JsonValue.EntriesDoubles (ReadBack floatRepr limits) d)
    (hheight : (JsonValue.object d).height ≤ limits.depth) :
    ∃ bytes, storeText floatRepr limits d = some bytes ∧ HoldsObject limits d (some bytes) := by
  obtain ⟨t, ht, hloads, hencode⟩ :=
    @JsonValue.exists_dumps_of_clean limits floatRepr _ hclean hdoubles hheight
  obtain ⟨bytes, hbytes⟩ := Option.isSome_iff_exists.mp hencode
  exact ⟨bytes, by rw [storeText, ht, Option.bind_some, hbytes], t,
    decodeUtf8_of_encodeUtf8 hbytes, hloads⟩

/-- **What is held can be written to** at any key, and is then held. -/
theorem HoldsObject.exists_storeText_dictSet (h : HoldsObject limits d column)
    (hdoubles : JsonValue.EntriesDoubles (ReadBack floatRepr limits) d) {key : PyStr}
    (hkey : NoPairs key) {v : JsonValue} (hv : IsScalar v) (hclean : v.Clean limits) :
    ∃ bytes, storeText floatRepr limits (dictSet d key v) = some bytes ∧
      HoldsObject limits (dictSet d key v) (some bytes) := by
  obtain ⟨hd, hheight⟩ := h.clean
  refine exists_storeText (hd.dictSet hkey hclean)
    (JsonValue.entriesDoubles_dictSet hdoubles hv.doubles)
    ((Nat.succ_le_succ (JsonValue.heightEntries_dictSet_le (le_refl _) ?_)).trans hheight)
  rw [hv.height_eq]
  exact Nat.zero_le _

end

/-! ## Flat dictionaries -/

/-- A dictionary of scalars, whose keys are different and are read back. -/
structure Flat (d : Dictionary) : Prop where
  keys : (d.map Prod.fst).Nodup
  noPairs : ∀ entry ∈ d, NoPairs entry.1
  scalar : ∀ entry ∈ d, IsScalar entry.2

variable {floatRepr : Float64 → PyStr} {limits : Limits} {d : Dictionary}

theorem IsScalar.read {v : JsonValue} (h : IsScalar v) : IsScalar v.read := by
  cases v with
  | null | bool _ | int _ | string _ => trivial
  | float x => exact h
  | array _ | object _ => exact absurd h id

theorem Flat.dictSet (h : Flat d) {key : PyStr} {v : JsonValue} (hkey : NoPairs key)
    (hv : IsScalar v) : Flat (dictSet d key v) where
  keys := nodup_keys_dictSet h.keys
  noPairs := by
    intro entry hentry
    rcases mem_dictSet hentry with hmem | rfl
    · exact h.noPairs entry hmem
    · exact hkey
  scalar := by
    intro entry hentry
    rcases mem_dictSet hentry with hmem | rfl
    · exact h.scalar entry hmem
    · exact hv

theorem Flat.of_append {d' : Dictionary} (h : Flat (d ++ d')) : Flat d where
  keys := h.keys.sublist ((List.sublist_append_left d d').map _)
  noPairs := fun entry hentry => h.noPairs entry (List.mem_append_left d' hentry)
  scalar := fun entry hentry => h.scalar entry (List.mem_append_left d' hentry)

theorem Flat.entriesDoubles {P : Float64 → Prop} (h : Flat d) : JsonValue.EntriesDoubles P d := by
  have hscalar := h.scalar
  clear h
  induction d with
  | nil => trivial
  | cons entry d ih =>
      obtain ⟨key, v⟩ := entry
      obtain ⟨hv, hd⟩ := List.forall_mem_cons.mp hscalar
      exact ⟨hv.doubles, ih hd⟩

theorem Flat.heightEntries_eq (h : Flat d) : JsonValue.heightEntries d = 0 := by
  have hscalar := h.scalar
  clear h
  induction d with
  | nil => rfl
  | cons entry d ih =>
      obtain ⟨key, v⟩ := entry
      obtain ⟨hv, hd⟩ := List.forall_mem_cons.mp hscalar
      rw [JsonValue.heightEntries, JsonValue.heightEntry, hv.height_eq, ih hd, max_self]

/-- Each entry is read under its own key. -/
theorem Flat.readEntries_eq (h : Flat d) :
    JsonValue.readEntries d = d.map fun entry => (entry.1, entry.2.read) := by
  have hpairs := h.noPairs
  clear h
  induction d with
  | nil => rfl
  | cons entry d ih =>
      obtain ⟨hentry, hd⟩ := List.forall_mem_cons.mp hpairs
      obtain ⟨key, v⟩ := entry
      rw [JsonValue.readEntries, JsonValue.readEntry, joinText_of_noPairs hentry, ih hd,
        List.map_cons]

theorem Flat.readEntries (h : Flat d) : Flat (JsonValue.readEntries d) := by
  rw [h.readEntries_eq]
  refine ⟨?_, List.forall_mem_map.mpr h.noPairs, List.forall_mem_map.mpr fun entry hentry =>
    (h.scalar entry hentry).read⟩
  rw [List.map_map]
  exact h.keys

theorem Flat.read_object (h : Flat d) :
    (JsonValue.object d).read = .object (JsonValue.readEntries d) := by
  have hdict := @dictOf_of_nodup [] _ h.readEntries.keys
  rw [JsonValue.read, hdict, List.nil_append]

/-- **What is read at a key.** -/
theorem Flat.dictGet_readEntries (h : Flat d) (key : PyStr) :
    dictGet (JsonValue.readEntries d) key = (dictGet d key).map JsonValue.read := by
  rw [h.readEntries_eq, dictGet_map]

/-! ## The column -/

theorem IsScalar.isSome_dumps_iff {v : JsonValue} (h : IsScalar v) :
    (v.dumps floatRepr limits).isSome ↔ ∀ n, v = .int n → FitsLimit limits n := by
  cases v with
  | null | bool _ | string _ => exact iff_of_true rfl nofun
  | int n =>
    rw [JsonValue.dumps, dumpsInt]
    by_cases hfits : FitsLimit limits n
    · rw [if_pos hfits]
      refine iff_of_true rfl fun m hm => ?_
      obtain rfl := JsonValue.int.inj hm
      exact hfits
    · rw [if_neg hfits]
      exact iff_of_false nofun fun h => hfits (h n rfl)
  | float _ | array _ | object _ => exact absurd h id

/-- **When a dictionary is stored**: no integer in it has too many digits. -/
theorem Flat.isSome_storeText_iff (h : Flat d) :
    (storeText floatRepr limits d).isSome ↔
      ∀ entry ∈ d, ∀ n, entry.2 = .int n → FitsLimit limits n := by
  have hfloats : (JsonValue.object d).Doubles (ReadBack floatRepr limits) := h.entriesDoubles
  have hencode : (storeText floatRepr limits d).isSome ↔
      (JsonValue.dumpsEntries floatRepr limits d).isSome := by
    rw [storeText]
    cases ht : (JsonValue.object d).dumps floatRepr limits with
    | none =>
      rw [JsonValue.dumps, Option.map_eq_none_iff] at ht
      rw [ht]
      rfl
    | some t =>
      rw [Option.bind_some]
      refine iff_of_true (JsonValue.isSome_encodeUtf8_of_dumps ht hfloats) ?_
      rw [JsonValue.dumps] at ht
      obtain ⟨ts, hts, -⟩ := Option.map_eq_some_iff.mp ht
      rw [hts]
      rfl
  rw [hencode]
  have hscalar := h.scalar
  clear h hfloats hencode
  induction d with
  | nil => exact iff_of_true rfl fun entry hentry => absurd hentry List.not_mem_nil
  | cons entry d ih =>
      obtain ⟨key, v⟩ := entry
      obtain ⟨hv, hd⟩ := List.forall_mem_cons.mp hscalar
      rw [List.forall_mem_cons, ← propext (ih hd), ← propext hv.isSome_dumps_iff,
        JsonValue.dumpsEntries, JsonValue.dumpsEntry]
      cases v.dumps floatRepr limits with
      | none => simp
      | some t => simp

/-- **What is stored is read**, whatever strings are in it. -/
theorem getCheckpoint_of_storeText (h : Flat d) {bytes : ByteArray}
    (hstore : storeText floatRepr limits d = some bytes) :
    getCheckpoint limits (some bytes) = some (.object (JsonValue.readEntries d)) := by
  obtain ⟨t, ht, hbytes⟩ := Option.bind_eq_some_iff.mp hstore
  have hfloats : (JsonValue.object d).Doubles (ReadBack floatRepr limits) := h.entriesDoubles
  have hdepth : (JsonValue.object d).height ≤ limits.depth := by
    rw [JsonValue.height, h.heightEntries_eq]
    exact limits.depth_pos
  have hloads := JsonValue.loads_dumps ht hfloats hdepth
  have hne : t ≠ [] := by
    obtain ⟨ts, -, rfl⟩ := Option.map_eq_some_iff.mp ht
    exact List.cons_ne_nil _ _
  rw [getCheckpoint, decodeUtf8_of_encodeUtf8 hbytes, Option.map_some, if_neg hne, hloads,
    h.read_object]

end Jobs
end MigrationStudio
