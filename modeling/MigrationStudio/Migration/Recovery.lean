import Mathlib.Data.Int.Order.Basic
import MigrationStudio.Foundations.Dict
import MigrationStudio.Jobs.JobRows

/-!
# `migration/recovery.py`

`normalize_after_restart` goes over the jobs that were left RUNNING, WAITING_SERVER, PAUSED or
RATE_LIMITED, by increasing id.  A job whose deadline is later than the beginning of the call keeps
waiting; any other RUNNING or WAITING_SERVER job becomes PAUSED with a mark in its checkpoint.  The
deadline is whatever `datetime.fromisoformat` makes of the text: nothing, a naive time, read as UTC,
or an aware one.  The checkpoint is read from its text, marked, and written as a text again.

* `normalizeAfterRestart`: the loop, which stops where it raises.
* `Stored`: the rows with a checkpoint that is read as a dictionary.
* `jobs_normalizeAfterRestart`: on such rows it returns, and is `normalizeRow` on every row.
* `keeps_normalizeRow`: what it leaves alone; `normalizeRow_normalizeRow`: twice at different times
  is once at the later.
* `normalize_after_restart_law`: both for the whole call.
-/

namespace MigrationStudio
namespace Migration

open MigrationStudio.Core Foundations Jobs

/-- A `datetime`: its reading in microseconds, and the offset from UTC of an aware one. -/
structure DateTime where
  reading : ℤ
  utcoffset : Option ℤ
  deriving DecidableEq

/-- The instant that it stands for, after `replace(tzinfo=timezone.utc)` of a naive one. -/
def DateTime.instant (d : DateTime) : ℤ := d.reading - d.utcoffset.getD 0

/-- The job states that `recoverable` asks for. -/
def recoverableState (state : JobState) : Bool :=
  state = .running || state = .waitingServer || state = .paused || state = .rateLimited

/-- `recoverable`. -/
def recoverable (t : JobTables) : List JobId :=
  (t.jobs.filter fun row => recoverableState row.state).map JobRow.id

section Normalize

variable (fromisoformat : String → Option DateTime) (floatRepr : Float64 → PyStr) (limits : Limits)

/-- `wait_until > now`, for a job that has a text in `waiting_until`. -/
def waitsBeyond (now : ℤ) (row : JobRow) : Bool :=
  match row.waitingUntil with
  | none => false
  | some text =>
      -- an empty text is falsy; one that is no time counts as `now`
      text ≠ "" && now < ((fromisoformat text).map DateTime.instant).getD now

/-- `"recovered_after_restart"`. -/
def recoveredKey : PyStr := Foundations.text "recovered_after_restart"

/-- `{**checkpoint, "recovered_after_restart": True}`; `none` where it raises, because `json.loads`
has returned no dictionary. -/
def recoveredCheckpoint : JsonValue → Option Dictionary
  | .object d => some (dictSet d recoveredKey (.bool true))
  | _ => none

/-- The text of the marked checkpoint; `none` where it cannot be read, marked or written. -/
def recoveredText (row : JobRow) : Option ByteArray :=
  ((getCheckpoint limits row.checkpointJson).bind recoveredCheckpoint).bind
    (storeText floatRepr limits)

/-- One turn of the loop, with the jobs that it has recovered, or `none` when the call has raised;
`stamp` is CURRENT_TIMESTAMP. -/
def normalizeTurn (now : ℤ) (stamp : JobId → String) (s : JobTables × Option (List JobId))
    (id : JobId) : JobTables × Option (List JobId) :=
  match s.2 with
  | none => s
  | some recovered =>
      match s.1.get id with
      | none => s
      | some row =>
          -- `get` raises where SQLite cannot decode the text
          if (getCheckpoint limits row.checkpointJson).isNone then (s.1, none)
          else if row.state = .waitingServer ∧ waitsBeyond fromisoformat now row = true then
            (s.1, some (recovered ++ [id]))
          else if row.state = .running ∨ row.state = .waitingServer then
            match recoveredText floatRepr limits row with
            | none => (s.1, none)
            | some bytes =>
                (s.1.updateJob id (fun r => r.setState (stamp id) .paused none (some bytes))
                  fun _ => rfl,
                  some (recovered ++ [id]))
          else (s.1, some (recovered ++ [id]))

/-- `normalize_after_restart`, which begins at `now`. -/
def normalizeAfterRestart (now : ℤ) (stamp : JobId → String) (t : JobTables) :
    JobTables × Option (List JobId) :=
  (recoverable t).foldl (normalizeTurn fromisoformat floatRepr limits now stamp) (t, some [])

/-! ## Row by row -/

/-- The checkpoint of the row is NULL or a text that is read as a dictionary, whose doubles are read
back from what is written of them. -/
def Stored (row : JobRow) : Prop :=
  ∃ d, HoldsObject limits d row.checkpointJson ∧
    JsonValue.EntriesDoubles (ReadBack floatRepr limits) d

/-- What becomes of a row. -/
def normalizeRow (now : ℤ) (stamp : JobId → String) (row : JobRow) : JobRow :=
  if row.state = .waitingServer ∧ waitsBeyond fromisoformat now row = true then row
  else if row.state = .running ∨ row.state = .waitingServer then
    row.setState (stamp row.id) .paused none (recoveredText floatRepr limits row)
  else row

variable {fromisoformat floatRepr limits} {now now' : ℤ} {stamp stamp' : JobId → String}

/-- **The marked checkpoint** of a row is stored, and read again. -/
theorem HoldsObject.exists_recoveredText {d : Dictionary} {row : JobRow}
    (h : HoldsObject limits d row.checkpointJson)
    (hdoubles : JsonValue.EntriesDoubles (ReadBack floatRepr limits) d) :
    ∃ bytes, recoveredText floatRepr limits row = some bytes ∧
      HoldsObject limits (dictSet d recoveredKey (.bool true)) (some bytes) := by
  have hkey : NoPairs recoveredKey := by decide
  obtain ⟨bytes, hstore, hholds⟩ :=
    h.exists_storeText_dictSet hdoubles hkey (v := .bool true) trivial trivial
  refine ⟨bytes, ?_, hholds⟩
  rw [recoveredText, h.getCheckpoint_eq, Option.bind_some, recoveredCheckpoint, Option.bind_some,
    hstore]

variable (fromisoformat floatRepr limits now stamp) in
/-- **A row** is left as it is, or it was interrupted and is paused. -/
theorem normalizeRow_cases (row : JobRow) :
    (normalizeRow fromisoformat floatRepr limits now stamp row = row ∧ row.state ≠ .running ∧
      (row.state = .waitingServer → waitsBeyond fromisoformat now row = true)) ∨
    (normalizeRow fromisoformat floatRepr limits now stamp row =
        row.setState (stamp row.id) .paused none (recoveredText floatRepr limits row) ∧
      (row.state = .running ∨
        row.state = .waitingServer ∧ waitsBeyond fromisoformat now row = false)) := by
  by_cases hwaits : row.state = .waitingServer ∧ waitsBeyond fromisoformat now row = true
  · refine Or.inl ⟨if_pos hwaits, ?_, fun _ => hwaits.2⟩
    rw [hwaits.1]
    decide
  · by_cases hstate : row.state = .running ∨ row.state = .waitingServer
    · refine Or.inr ⟨?_, hstate.imp_right fun h => ⟨h, ?_⟩⟩
      · rw [normalizeRow, if_neg hwaits, if_pos hstate]
      · exact Bool.eq_false_iff.mpr fun hb => hwaits ⟨h, hb⟩
    · refine Or.inl ⟨?_, fun h => hstate (Or.inl h), fun h => absurd (Or.inr h) hstate⟩
      rw [normalizeRow, if_neg hwaits, if_neg hstate]

@[simp] theorem id_normalizeRow (row : JobRow) :
    (normalizeRow fromisoformat floatRepr limits now stamp row).id = row.id := by
  rcases normalizeRow_cases fromisoformat floatRepr limits now stamp row with ⟨h, -⟩ | ⟨h, -⟩
  · rw [h]
  · rw [h]
    rfl

/-- A row in another state is left as it is. -/
theorem normalizeRow_of_not_recoverable {row : JobRow} (h : recoverableState row.state = false) :
    normalizeRow fromisoformat floatRepr limits now stamp row = row := by
  rcases normalizeRow_cases fromisoformat floatRepr limits now stamp row with
    ⟨heq, -⟩ | ⟨-, hrun | ⟨hwait, -⟩⟩
  · exact heq
  · rw [hrun] at h
    exact absurd h (by decide)
  · rw [hwait] at h
    exact absurd h (by decide)

variable (fromisoformat now stamp) in
/-- The dictionary that a row holds afterwards. -/
theorem holdsObject_normalizeRow {d : Dictionary} {row : JobRow}
    (h : HoldsObject limits d row.checkpointJson)
    (hdoubles : JsonValue.EntriesDoubles (ReadBack floatRepr limits) d) :
    HoldsObject limits d
        (normalizeRow fromisoformat floatRepr limits now stamp row).checkpointJson ∨
      HoldsObject limits (dictSet d recoveredKey (.bool true))
        (normalizeRow fromisoformat floatRepr limits now stamp row).checkpointJson := by
  rcases normalizeRow_cases fromisoformat floatRepr limits now stamp row with ⟨heq, -⟩ | ⟨heq, -⟩
  · rw [heq]
    exact Or.inl h
  · obtain ⟨bytes, htext, hholds⟩ := HoldsObject.exists_recoveredText h hdoubles
    rw [heq, htext]
    exact Or.inr hholds

theorem Stored.normalizeRow {row : JobRow} (h : Stored floatRepr limits row) :
    Stored floatRepr limits (normalizeRow fromisoformat floatRepr limits now stamp row) := by
  obtain ⟨d, hholds, hdoubles⟩ := h
  rcases holdsObject_normalizeRow fromisoformat now stamp hholds hdoubles with hsame | hmarked
  · exact ⟨d, hsame, hdoubles⟩
  · exact ⟨_, hmarked, JsonValue.entriesDoubles_dictSet hdoubles trivial⟩

variable (fromisoformat now stamp) in
/-- **A turn that finds its row** leaves it, or pauses it with the mark in its checkpoint. -/
theorem normalizeTurn_cases {t : JobTables} {recovered : List JobId} {row : JobRow}
    (hget : t.get row.id = some row) (h : Stored floatRepr limits row) :
    (normalizeRow fromisoformat floatRepr limits now stamp row = row ∧
        normalizeTurn fromisoformat floatRepr limits now stamp (t, some recovered) row.id =
          (t, some (recovered ++ [row.id]))) ∨
      ∃ bytes, normalizeRow fromisoformat floatRepr limits now stamp row =
          row.setState (stamp row.id) .paused none (some bytes) ∧
        normalizeTurn fromisoformat floatRepr limits now stamp (t, some recovered) row.id =
          (t.updateJob row.id (fun r => r.setState (stamp row.id) .paused none (some bytes))
            fun _ => rfl, some (recovered ++ [row.id])) := by
  obtain ⟨d, hholds, hdoubles⟩ := h
  have hread : ¬ (getCheckpoint limits row.checkpointJson).isNone := by
    rw [hholds.getCheckpoint_eq]
    simp
  rcases normalizeRow_cases fromisoformat floatRepr limits now stamp row with
    ⟨heq, hrun, hwait⟩ | ⟨heq, hstate⟩
  · refine Or.inl ⟨heq, ?_⟩
    simp only [normalizeTurn, hget]
    rw [if_neg hread]
    by_cases h : row.state = .waitingServer
    · rw [if_pos ⟨h, hwait h⟩]
    · rw [if_neg fun hand => h hand.1, if_neg fun hor => hor.elim hrun h]
  · obtain ⟨bytes, htext, -⟩ := HoldsObject.exists_recoveredText hholds hdoubles
    rw [htext] at heq
    refine Or.inr ⟨bytes, heq, ?_⟩
    have hpast : ¬ (row.state = .waitingServer ∧ waitsBeyond fromisoformat now row = true) := by
      rintro ⟨hwait, hwaits⟩
      rcases hstate with hrun | ⟨-, hpast⟩
      · rw [hrun] at hwait
        exact absurd hwait (by decide)
      · rw [hpast] at hwaits
        exact absurd hwaits (by decide)
    simp only [normalizeTurn, hget]
    rw [if_neg hread, if_neg hpast, if_pos (hstate.imp_right And.left), htext]

variable (fromisoformat now stamp) in
/-- **One turn** normalizes the row with the id, and does not raise. -/
theorem normalizeTurn_spec {s : JobTables × Option (List JobId)} (hsome : s.2.isSome)
    (hs : ∀ row ∈ s.1.jobs, Stored floatRepr limits row) (id : JobId) :
    (normalizeTurn fromisoformat floatRepr limits now stamp s id).1.jobs =
        (s.1.jobs.map fun row =>
          if row.id = id then normalizeRow fromisoformat floatRepr limits now stamp row else row) ∧
      (normalizeTurn fromisoformat floatRepr limits now stamp s id).2.isSome := by
  have hsame : ∀ f : JobRow → JobRow, (∀ row ∈ s.1.jobs, row.id = id → f row = row) →
      s.1.jobs = s.1.jobs.map fun row => if row.id = id then f row else row := by
    intro f hf
    refine (List.map_id _).symm.trans (List.map_congr_left fun row hrow => ?_)
    split_ifs with hid
    · exact (hf row hrow hid).symm
    · rfl
  obtain ⟨t, r⟩ := s
  obtain ⟨recovered, rfl⟩ := Option.isSome_iff_exists.mp hsome
  cases hget : t.get id with
  | none =>
      have hturn : normalizeTurn fromisoformat floatRepr limits now stamp (t, some recovered) id =
          (t, some recovered) := by
        simp only [normalizeTurn, hget]
      rw [hturn]
      refine ⟨hsame _ fun row hrow hid => ?_, rfl⟩
      have hrow' := JobTables.get_eq_some.mpr ⟨hrow, hid⟩
      rw [hget] at hrow'
      exact absurd hrow' (by simp)
  | some row =>
      obtain ⟨hrow, rfl⟩ := JobTables.get_eq_some.mp hget
      have honly : ∀ r ∈ t.jobs, r.id = row.id → r = row :=
        fun r hr hid => t.uniqueKeys.eq_of_key_eq hr hrow hid
      rcases normalizeTurn_cases fromisoformat now stamp hget (hs row hrow) with
        ⟨heq, hturn⟩ | ⟨bytes, heq, hturn⟩
      · rw [hturn]
        exact ⟨hsame _ fun r hr hid => by rw [honly r hr hid, heq], rfl⟩
      · rw [hturn]
        refine ⟨List.map_congr_left fun r hr => ?_, rfl⟩
        split_ifs with hid
        · rw [honly r hr hid, heq]
        · rfl

theorem items_normalizeTurn (s : JobTables × Option (List JobId)) (id : JobId) :
    (normalizeTurn fromisoformat floatRepr limits now stamp s id).1.items = s.1.items := by
  rw [normalizeTurn]
  split
  · rfl
  · split
    · rfl
    · split_ifs
      · rfl
      · rfl
      · split <;> rfl
      · rfl

variable (fromisoformat now stamp) in
/-- **The loop** normalizes the rows with its ids, and does not raise. -/
theorem foldl_normalizeTurn {ids : List JobId} (hids : ids.Nodup)
    {s : JobTables × Option (List JobId)} (hsome : s.2.isSome)
    (hs : ∀ row ∈ s.1.jobs, Stored floatRepr limits row) :
    (ids.foldl (normalizeTurn fromisoformat floatRepr limits now stamp) s).1.jobs =
        (s.1.jobs.map fun row =>
          if row.id ∈ ids then normalizeRow fromisoformat floatRepr limits now stamp row
          else row) ∧
      (ids.foldl (normalizeTurn fromisoformat floatRepr limits now stamp) s).2.isSome := by
  induction ids generalizing s with
  | nil => exact ⟨by simp, hsome⟩
  | cons id ids ih =>
      obtain ⟨hfresh, hrest⟩ := List.nodup_cons.mp hids
      obtain ⟨hturn, hsome'⟩ := normalizeTurn_spec fromisoformat now stamp hsome hs id
      have hs' : ∀ row ∈ (normalizeTurn fromisoformat floatRepr limits now stamp s id).1.jobs,
          Stored floatRepr limits row := by
        intro row hrow
        rw [hturn] at hrow
        obtain ⟨r, hr, rfl⟩ := List.mem_map.mp hrow
        split_ifs
        · exact (hs r hr).normalizeRow
        · exact hs r hr
      obtain ⟨hjobs, hreturned⟩ := ih hrest hsome' hs'
      rw [List.foldl_cons]
      refine ⟨?_, hreturned⟩
      rw [hjobs, hturn, List.map_map]
      refine List.map_congr_left fun row _ => ?_
      by_cases hid : row.id = id
      · subst hid
        simp [hfresh]
      · simp [hid]

variable (fromisoformat now stamp) in
/-- **The call** returns, and normalizes every row. -/
theorem jobs_normalizeAfterRestart {t : JobTables}
    (ht : ∀ row ∈ t.jobs, Stored floatRepr limits row) :
    (normalizeAfterRestart fromisoformat floatRepr limits now stamp t).1.jobs =
        t.jobs.map (normalizeRow fromisoformat floatRepr limits now stamp) ∧
      (normalizeAfterRestart fromisoformat floatRepr limits now stamp t).2.isSome := by
  have hnodup : (recoverable t).Nodup := t.uniqueKeys.filter fun row => recoverableState row.state
  obtain ⟨hjobs, hreturned⟩ :=
    foldl_normalizeTurn fromisoformat now stamp hnodup (s := (t, some [])) rfl ht
  refine ⟨?_, hreturned⟩
  rw [normalizeAfterRestart, hjobs]
  refine List.map_congr_left fun row hrow => ?_
  split_ifs with hmem
  · rfl
  · refine (normalizeRow_of_not_recoverable (Bool.eq_false_iff.mpr fun hstate => hmem ?_)).symm
    exact List.mem_map.mpr ⟨row, List.mem_filter.mpr ⟨hrow, hstate⟩, rfl⟩

theorem items_normalizeAfterRestart (t : JobTables) :
    (normalizeAfterRestart fromisoformat floatRepr limits now stamp t).1.items = t.items := by
  unfold normalizeAfterRestart
  suffices h : ∀ (ids : List JobId) (s : JobTables × Option (List JobId)),
      (ids.foldl (normalizeTurn fromisoformat floatRepr limits now stamp) s).1.items = s.1.items
    from h _ _
  intro ids
  induction ids with
  | nil => exact fun s => rfl
  | cons id ids ih => exact fun s => (ih _).trans (items_normalizeTurn s id)

/-! ## What it leaves -/

/-- A row without its time stamp. -/
def withoutStamp (row : JobRow) : JobRow := { row with updatedAt := "" }

variable (limits) in
/-- What a call keeps of a row: the columns that are no state, checkpoint or time stamp, all but one
key of the dictionary in the checkpoint, and the whole row unless it was interrupted. -/
structure Keeps (row row' : JobRow) : Prop where
  columns : row' = { row with
    state := row'.state, checkpointJson := row'.checkpointJson, updatedAt := row'.updatedAt }
  checkpoint : ∀ d, HoldsObject limits d row.checkpointJson →
    ∃ d', HoldsObject limits d' row'.checkpointJson ∧
      ∀ key, key ≠ recoveredKey → dictGet d' key = dictGet d key
  settled : row.state ≠ .running → row.state ≠ .waitingServer → row' = row

theorem keeps_normalizeRow {row : JobRow} (h : Stored floatRepr limits row) :
    Keeps limits row (normalizeRow fromisoformat floatRepr limits now stamp row) where
  columns := by
    rcases normalizeRow_cases fromisoformat floatRepr limits now stamp row with
      ⟨heq, -⟩ | ⟨heq, -⟩
    · rw [heq]
    · rw [heq]
      rfl
  checkpoint := by
    intro d hd
    obtain ⟨d', hd', hdoubles⟩ := h
    obtain rfl := hd.unique hd'
    rcases holdsObject_normalizeRow fromisoformat now stamp hd hdoubles with hsame | hmarked
    · exact ⟨d, hsame, fun _ _ => rfl⟩
    · refine ⟨_, hmarked, fun key hkey => ?_⟩
      rw [dictGet_dictSet, if_neg hkey]
  settled := by
    intro hrun hwait
    rcases normalizeRow_cases fromisoformat floatRepr limits now stamp row with
      ⟨heq, -⟩ | ⟨-, h | ⟨h, -⟩⟩
    · exact heq
    · exact absurd h hrun
    · exact absurd h hwait

/-- A later beginning of the call ends more waits. -/
theorem waitsBeyond_of_le (h : now ≤ now') {row : JobRow}
    (hwaits : waitsBeyond fromisoformat now' row = true) :
    waitsBeyond fromisoformat now row = true := by
  unfold waitsBeyond at hwaits ⊢
  split at hwaits
  · exact hwaits
  · rename_i text htext
    simp only [Bool.and_eq_true, decide_eq_true_eq] at hwaits ⊢
    refine ⟨hwaits.1, ?_⟩
    cases hparsed : fromisoformat text with
    | none =>
        rw [hparsed] at hwaits
        exact absurd hwaits.2 (lt_irrefl now')
    | some d =>
        rw [hparsed] at hwaits
        exact h.trans_lt hwaits.2

/-- What a call leaves waiting has a deadline later than its beginning. -/
theorem deadline_of_waitsBeyond {row : JobRow}
    (h : waitsBeyond fromisoformat now row = true) :
    ∃ text d, row.waitingUntil = some text ∧ fromisoformat text = some d ∧ now < d.instant := by
  unfold waitsBeyond at h
  split at h
  · exact absurd h (by simp)
  · rename_i text htext
    simp only [Bool.and_eq_true, decide_eq_true_eq] at h
    cases hparsed : fromisoformat text with
    | none =>
        rw [hparsed] at h
        exact absurd h.2 (lt_irrefl now)
    | some d =>
        rw [hparsed] at h
        exact ⟨text, d, htext, hparsed, h.2⟩

variable (fromisoformat floatRepr limits now stamp) in
theorem state_normalizeRow (row : JobRow) :
    (normalizeRow fromisoformat floatRepr limits now stamp row).state ≠ .running ∧
      ((normalizeRow fromisoformat floatRepr limits now stamp row).state = .waitingServer →
        row.state = .waitingServer ∧ waitsBeyond fromisoformat now row = true) := by
  rcases normalizeRow_cases fromisoformat floatRepr limits now stamp row with
    ⟨heq, hrun, hwait⟩ | ⟨heq, -⟩
  · rw [heq]
    exact ⟨hrun, fun h => ⟨h, hwait h⟩⟩
  · have hpaused :
        (normalizeRow fromisoformat floatRepr limits now stamp row).state = .paused := by
      rw [heq]
      rfl
    rw [hpaused]
    exact ⟨by decide, fun h => absurd h (by decide)⟩

/-- The stamp does not show. -/
theorem withoutStamp_normalizeRow (row : JobRow) :
    withoutStamp (normalizeRow fromisoformat floatRepr limits now stamp row) =
      withoutStamp (normalizeRow fromisoformat floatRepr limits now stamp' row) := by
  unfold normalizeRow
  split_ifs
  · rfl
  · rfl
  · rfl

/-- **One row twice** is once at the later time. -/
theorem normalizeRow_normalizeRow (h : now ≤ now') (row : JobRow) :
    withoutStamp (normalizeRow fromisoformat floatRepr limits now' stamp'
        (normalizeRow fromisoformat floatRepr limits now stamp row)) =
      withoutStamp (normalizeRow fromisoformat floatRepr limits now' stamp' row) := by
  rcases normalizeRow_cases fromisoformat floatRepr limits now stamp row with
    ⟨heq, -⟩ | ⟨heq, hstate⟩
  · rw [heq]
  · have hpaused : normalizeRow fromisoformat floatRepr limits now' stamp'
        (normalizeRow fromisoformat floatRepr limits now stamp row) =
        normalizeRow fromisoformat floatRepr limits now stamp row := by
      rw [heq]
      rfl
    have hlater : ¬ (row.state = .waitingServer ∧ waitsBeyond fromisoformat now' row = true) := by
      rintro ⟨hwait, hwaits⟩
      rcases hstate with hrun | ⟨-, hpast⟩
      · rw [hrun] at hwait
        exact absurd hwait (by decide)
      · rw [waitsBeyond_of_le h hwaits] at hpast
        exact absurd hpast (by decide)
    rw [hpaused, heq, normalizeRow, if_neg hlater, if_pos (hstate.imp_right And.left)]
    rfl

/-- **The law of `normalize_after_restart`**, whatever `datetime.fromisoformat` reads, of jobs whose
checkpoints are NULL or read as dictionaries.  The call returns.  No job is left RUNNING, and one is
left WAITING_SERVER only with a deadline later than the call; every other job, the items, every
`waiting_until` and every other key of a checkpoint are kept; and a call followed by a later one,
which returns too, leaves what the later one alone leaves, but for `updated_at`. -/
theorem normalize_after_restart_law (fromisoformat : String → Option DateTime)
    {floatRepr : Float64 → PyStr} {limits : Limits} {now now' : ℤ} (h : now ≤ now')
    (stamp stamp' stamp'' : JobId → String) {t : JobTables}
    (ht : ∀ row ∈ t.jobs, Stored floatRepr limits row) :
    (normalizeAfterRestart fromisoformat floatRepr limits now stamp t).2.isSome ∧
    (∀ row' ∈ (normalizeAfterRestart fromisoformat floatRepr limits now stamp t).1.jobs,
      row'.state ≠ .running ∧
      (row'.state = .waitingServer → ∃ row ∈ t.jobs, row.id = row'.id ∧
        row.state = .waitingServer ∧ ∃ text d, row.waitingUntil = some text ∧
          fromisoformat text = some d ∧ now < d.instant)) ∧
    List.Forall₂ (Keeps limits) t.jobs
      (normalizeAfterRestart fromisoformat floatRepr limits now stamp t).1.jobs ∧
    (normalizeAfterRestart fromisoformat floatRepr limits now stamp t).1.items = t.items ∧
    (normalizeAfterRestart fromisoformat floatRepr limits now' stamp'
        (normalizeAfterRestart fromisoformat floatRepr limits now stamp t).1).2.isSome ∧
    (normalizeAfterRestart fromisoformat floatRepr limits now' stamp'
        (normalizeAfterRestart fromisoformat floatRepr limits now stamp t).1).1.jobs.map
          withoutStamp =
      (normalizeAfterRestart fromisoformat floatRepr limits now' stamp'' t).1.jobs.map
        withoutStamp := by
  obtain ⟨hjobs, hreturned⟩ := jobs_normalizeAfterRestart fromisoformat now stamp ht
  have hstored : ∀ row ∈ (normalizeAfterRestart fromisoformat floatRepr limits now stamp t).1.jobs,
      Stored floatRepr limits row := by
    intro row hrow
    rw [hjobs] at hrow
    obtain ⟨r, hr, rfl⟩ := List.mem_map.mp hrow
    exact (ht r hr).normalizeRow
  obtain ⟨hjobs', hreturned'⟩ := jobs_normalizeAfterRestart fromisoformat now' stamp' hstored
  refine ⟨hreturned, fun row' hrow' => ?_, ?_, items_normalizeAfterRestart t, hreturned', ?_⟩
  · rw [hjobs] at hrow'
    obtain ⟨row, hrow, rfl⟩ := List.mem_map.mp hrow'
    obtain ⟨hrun, hwait⟩ := state_normalizeRow fromisoformat floatRepr limits now stamp row
    refine ⟨hrun, fun hstate => ?_⟩
    obtain ⟨hwas, hwaits⟩ := hwait hstate
    exact ⟨row, hrow, (id_normalizeRow row).symm, hwas, deadline_of_waitsBeyond hwaits⟩
  · rw [hjobs, List.forall₂_map_right_iff, List.forall₂_same]
    exact fun row hrow => keeps_normalizeRow (ht row hrow)
  · rw [hjobs', hjobs, (jobs_normalizeAfterRestart fromisoformat now' stamp'' ht).1, List.map_map,
      List.map_map, List.map_map]
    refine List.map_congr_left fun row _ => ?_
    exact (normalizeRow_normalizeRow h row).trans (withoutStamp_normalizeRow row)

/-- Midnight of 2025, aware or naive; other texts are refused. -/
def readNewYear (text : String) : Option DateTime :=
  if text = "2025-01-01T00:00:00+00:00" then some ⟨1735689600000000, some 0⟩
  else if text = "2025-01-01T00:00:00" then some ⟨1735689600000000, none⟩
  else none

/-- The limits of the interpreter as it is started. -/
def defaultLimits : Limits := ⟨4300, 1000, by decide⟩

/-- `float.__repr__`, of doubles that have their digits around the point. -/
def reprAroundPoint : Float64 → PyStr
  | .nan => Foundations.text "NaN"
  | .inf negative => Foundations.text (if negative then "-Infinity" else "Infinity")
  | .finite d => dumpsFloat d

def fourAndHalf : Double := ⟨9 / 2, by decide +kernel⟩

/-- A checkpoint with an integer, a double, and a list with half a pair of surrogates. -/
def deepCheckpoint : Dictionary :=
  [(Foundations.text "last_ordinal", .int 1519),
    (Foundations.text "recovery", .object [(Foundations.text "target", .float
      (.finite fourAndHalf))]),
    (Foundations.text "names", .array [.null, .string [0xd800]])]

/-- A job that was running, two that wait for the new year, and one with a text that is no time. -/
def interrupted : JobTables where
  jobs :=
    [{ id := 1, jobType := .migration, state := .running,
        checkpointJson := storeText reprAroundPoint defaultLimits deepCheckpoint },
      { id := 2, jobType := .migration, state := .waitingServer,
        waitingUntil := some "2025-01-01T00:00:00+00:00" },
      { id := 3, jobType := .migration, state := .waitingServer,
        waitingUntil := some "2025-01-01T00:00:00" },
      { id := 4, jobType := .migration, state := .waitingServer, waitingUntil := some "soon" }]
  items := []
  sorted := by decide

theorem readBack_fourAndHalf : ReadBack reprAroundPoint defaultLimits (.finite fourAndHalf) := by
  have hvalue : fourAndHalf.value = 9 / 2 := rfl
  refine readBack_dumpsFloat (by rw [hvalue]; norm_num) ?_ rfl
  calc fourAndHalf.value < 2 ^ 4 := by rw [hvalue]; norm_num
    _ ≤ overflowBound := pow_le_pow_right₀ (by norm_num) (by norm_num)

theorem stored_interrupted :
    ∀ row ∈ interrupted.jobs, Stored reprAroundPoint defaultLimits row := by
  have hclean : (JsonValue.object deepCheckpoint).Clean defaultLimits :=
    ⟨by decide, ⟨by decide, (by decide : FitsLimit defaultLimits 1519)⟩,
      ⟨by decide, by decide, ⟨by decide, trivial⟩, trivial⟩,
      ⟨by decide, trivial, (by decide : NoPairs [0xd800]), trivial⟩, trivial⟩
  have hdoubles : JsonValue.EntriesDoubles (ReadBack reprAroundPoint defaultLimits)
      deepCheckpoint :=
    ⟨trivial, ⟨readBack_fourAndHalf, trivial⟩, ⟨trivial, trivial, trivial⟩, trivial⟩
  obtain ⟨bytes, hstore, hholds⟩ := exists_storeText hclean hdoubles (by decide)
  intro row hrow
  simp only [interrupted, List.mem_cons, List.not_mem_nil, or_false] at hrow
  rcases hrow with rfl | rfl | rfl | rfl
  · exact ⟨deepCheckpoint, hstore ▸ hholds, hdoubles⟩
  · exact ⟨[], rfl, trivial⟩
  · exact ⟨[], rfl, trivial⟩
  · exact ⟨[], rfl, trivial⟩

theorem normalize_after_restart_law_interrupted :
    List.Forall₂ (Keeps defaultLimits) interrupted.jobs (normalizeAfterRestart readNewYear
        reprAroundPoint defaultLimits 1735689590000000 (fun _ => "") interrupted).1.jobs ∧
      (normalizeAfterRestart readNewYear reprAroundPoint defaultLimits 1735689590000000
        (fun _ => "") interrupted).1.jobs.map JobRow.state =
          [.paused, .waitingServer, .waitingServer, .paused] ∧
      (normalizeAfterRestart readNewYear reprAroundPoint defaultLimits 1735689600000000
          (fun _ => "") (normalizeAfterRestart readNewYear reprAroundPoint defaultLimits
            1735689590000000 (fun _ => "") interrupted).1).1.jobs.map withoutStamp =
        (normalizeAfterRestart readNewYear reprAroundPoint defaultLimits 1735689600000000
          (fun _ => "") interrupted).1.jobs.map withoutStamp := by
  obtain ⟨-, -, hkeeps, -, -, htwice⟩ :=
    normalize_after_restart_law readNewYear
      (show (1735689590000000 : ℤ) ≤ 1735689600000000 by decide) (fun _ => "") (fun _ => "")
      (fun _ => "") stored_interrupted
  refine ⟨hkeeps, ?_, htwice⟩
  rw [(jobs_normalizeAfterRestart readNewYear _ _ stored_interrupted).1]
  decide +kernel

end Normalize
end Migration
end MigrationStudio
