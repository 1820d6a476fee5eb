import MigrationStudio.Foundations.Binary64
import MigrationStudio.Migration.IsoFormat

/-!
# The server wait of an account, from the rows of its jobs

An executor that meets a FLOOD_WAIT stores the end of the wait in the row of its job, as a text.
A new executor of the account is given the wait of the text that comes last in the order of texts,
among those of the account's jobs that still wait.

* `utcWaitUntil`: `_utc_wait_until`, the text of a wait.
* `accountWaitingUntil`: `account_waiting_until`, the text that is selected.
* `remainingWait`: `_remaining_wait`, the seconds that are left of a text.
* `accountWaitingUntil_is_latest`: the selected text denotes the latest end of the waits, and what
  is left of it is the longest of what is left of them.
-/

namespace MigrationStudio
namespace Runtime

open Foundations MigrationStudio.Core Jobs Migration

/-- `_utc_wait_until(seconds)` at the time `now`; `timedelta` are the microseconds that
`timedelta(seconds=...)` makes of a number of seconds. -/
def utcWaitUntil (timedelta : ℚ → ℤ) (now : CivilTime) (seconds : ℚ) : Option String :=
  (CivilTime.ofReading (now.reading + timedelta (max 0 seconds))).map isoformat

/-- The `waiting_until` of the jobs of the account that are WAITING_SERVER. -/
def waitingTexts (t : JobTables) (account : AccountId) : List String :=
  (t.jobs.filter fun row => row.accountId = some account && row.state = .waitingServer).filterMap
    JobRow.waitingUntil

/-- `account_waiting_until`: the first text in descending order, unless it is empty. -/
def accountWaitingUntil (t : JobTables) (account : AccountId) : Option String :=
  (waitingTexts t account).max?.filter (· ≠ "")

/-- `timedelta.total_seconds()`, a double. -/
def totalSeconds (microseconds : ℤ) : ℚ := roundDouble (microseconds / 1000000)

/-- `_remaining_wait(waiting_until)` at the instant `now`. -/
def remainingWait (now : ℤ) : Option String → ℚ
  | none => 0
  | some text =>
      if text = "" then 0
      else
        match fromisoformat text with
        | none => 0
        | some d => max 0 (totalSeconds (d.instant - now))

/-! ## What is left of a text -/

variable {timedelta : ℚ → ℤ} {now : ℤ}

theorem isoformat_ne_empty (c : CivilTime) : isoformat c ≠ "" := by
  have hnone : fromisoformat "" = none := by decide +kernel
  intro h
  have hread := fromisoformat_isoformat c
  rw [h, hnone] at hread
  exact absurd hread (by simp)

theorem remainingWait_isoformat (c : CivilTime) :
    remainingWait now (some (isoformat c)) = max 0 (totalSeconds (c.reading - now)) := by
  have hinstant : (⟨c.reading, some 0⟩ : DateTime).instant = c.reading := Int.sub_zero _
  rw [remainingWait, if_neg (isoformat_ne_empty c), fromisoformat_isoformat]
  simp only [hinstant]

theorem totalSeconds_mono {m n : ℤ} (h : m ≤ n) : totalSeconds m ≤ totalSeconds n := by
  refine roundDouble_mono (div_le_div_of_nonneg_right ?_ (by norm_num))
  exact_mod_cast h

/-- The texts of some waits are those of the times at which they end. -/
theorem exists_ends {texts : List String} {waits : List (CivilTime × ℚ)}
    (h : texts.map some = waits.map fun w => utcWaitUntil timedelta w.1 w.2) :
    ∃ ends : List CivilTime, texts = ends.map isoformat ∧
      (waits.map fun w => w.1.reading + timedelta (max 0 w.2)) = ends.map CivilTime.reading := by
  induction waits generalizing texts with
  | nil => exact ⟨[], List.map_eq_nil_iff.mp h, rfl⟩
  | cons w waits ih =>
      obtain ⟨text, texts, rfl, htext, hrest⟩ := List.map_eq_cons_iff.mp h
      obtain ⟨ends, rfl, hreadings⟩ := ih hrest
      obtain ⟨c, hc, rfl⟩ := Option.map_eq_some_iff.mp htext.symm
      refine ⟨c :: ends, rfl, ?_⟩
      rw [List.map_cons, List.map_cons, hreadings, CivilTime.reading_ofReading hc]

/-- The largest element of a list without negative ones. -/
theorem foldr_max_eq {l : List ℚ} {a : ℚ} (hmem : a ∈ l) (hle : ∀ b ∈ l, b ≤ a) (h0 : 0 ≤ a) :
    l.foldr max 0 = a := by
  have hupper : ∀ l : List ℚ, (∀ b ∈ l, b ≤ a) → l.foldr max 0 ≤ a := by
    intro l hl
    induction l with
    | nil => exact h0
    | cons b l ih =>
        exact max_le (hl b (List.mem_cons_self ..))
          (ih fun b' hb' => hl b' (List.mem_cons_of_mem _ hb'))
  have hlower : ∀ l : List ℚ, a ∈ l → a ≤ l.foldr max 0 := by
    intro l hl
    induction l with
    | nil => exact absurd hl (by simp)
    | cons b l ih =>
        rcases List.mem_cons.mp hl with rfl | hl
        · exact le_max_left _ _
        · exact (ih hl).trans (le_max_right _ _)
  exact le_antisymm (hupper l hle) (hlower l hmem)

/-! ## The wait of an account -/

/-- **The selected text is that of the longest wait.**  When the texts of the account's waiting
jobs are those of some waits, the text that comes last denotes the latest of their ends, and what
is left of it is the largest of what is left of each, or nothing when all are over. -/
theorem accountWaitingUntil_is_latest (timedelta : ℚ → ℤ) (t : JobTables) (account : AccountId)
    (now : ℤ) (waits : List (CivilTime × ℚ))
    (hwaits : (waitingTexts t account).map some =
      waits.map fun w => utcWaitUntil timedelta w.1 w.2) :
    ((accountWaitingUntil t account).map fun text => (fromisoformat text).map DateTime.instant) =
        (waits.map fun w => w.1.reading + timedelta (max 0 w.2)).max?.map some ∧
      remainingWait now (accountWaitingUntil t account) =
        ((waitingTexts t account).map fun text => remainingWait now (some text)).foldr max 0 ∧
      ((waitingTexts t account).map fun text => remainingWait now (some text)) =
        waits.map fun w =>
          max 0 (totalSeconds (w.1.reading + timedelta (max 0 w.2) - now)) := by
  obtain ⟨ends, htexts, hreadings⟩ := exists_ends hwaits
  have hleft : ((waitingTexts t account).map fun text => remainingWait now (some text)) =
      ends.map fun c => max 0 (totalSeconds (c.reading - now)) := by
    rw [htexts, List.map_map]
    refine List.map_congr_left fun c _ => ?_
    rw [Function.comp_apply, remainingWait_isoformat]
  have hlast : ((waits.map fun w => w.1.reading + timedelta (max 0 w.2)).map fun d =>
      max 0 (totalSeconds (d - now))) = ends.map fun c =>
        max 0 (totalSeconds (c.reading - now)) := by
    rw [hreadings, List.map_map]
    rfl
  have hselect : ∀ c ∈ ends, (∀ c' ∈ ends, c'.reading ≤ c.reading) →
      accountWaitingUntil t account = some (isoformat c) := by
    intro c hc hle
    have hmax : (waitingTexts t account).max? = some (isoformat c) := by
      rw [htexts, List.max?_eq_some_iff]
      refine ⟨List.mem_map_of_mem hc, fun text htext => ?_⟩
      obtain ⟨c', hc', rfl⟩ := List.mem_map.mp htext
      exact isoformat_le (hle c' hc')
    rw [accountWaitingUntil, hmax, Option.filter_some, if_pos]
    exact decide_eq_true (isoformat_ne_empty c)
  rw [hleft, hreadings]
  refine and_assoc.mp ⟨?_, by rw [← hlast, List.map_map]; rfl⟩
  cases hmax : (ends.map CivilTime.reading).max? with
  | none =>
      have hnil : ends = [] := List.map_eq_nil_iff.mp (List.max?_eq_none_iff.mp hmax)
      subst hnil
      have hnone : accountWaitingUntil t account = none := by
        rw [accountWaitingUntil, htexts]
        rfl
      rw [hnone]
      exact ⟨rfl, rfl⟩
  | some latest =>
      obtain ⟨hmem, hle⟩ := List.max?_eq_some_iff.mp hmax
      obtain ⟨c, hc, rfl⟩ := List.mem_map.mp hmem
      have hle' : ∀ c' ∈ ends, c'.reading ≤ c.reading :=
        fun c' hc' => hle _ (List.mem_map_of_mem hc')
      have hinstant : (⟨c.reading, some 0⟩ : DateTime).instant = c.reading := Int.sub_zero _
      rw [hselect c hc hle', remainingWait_isoformat]
      refine ⟨?_, (foldr_max_eq ?_ ?_ (le_max_left _ _)).symm⟩
      · rw [Option.map_some, Option.map_some, fromisoformat_isoformat, Option.map_some, hinstant]
      · exact List.mem_map.mpr ⟨c, hc, rfl⟩
      · intro b hb
        obtain ⟨c', hc', rfl⟩ := List.mem_map.mp hb
        exact max_le_max le_rfl (totalSeconds_mono (Int.sub_le_sub_right (hle' c' hc') now))

/-- The beginning of the year 2025. -/
def newYear : CivilTime where
  year := 2025
  month := 1
  day := 1
  hour := 0
  minute := 0
  second := 0
  microsecond := 0
  isDate := by decide
  year_le := by decide
  inRange := by decide

/-- Two jobs of the account 1 that wait, one of them half a second longer. -/
def twoWaits : JobTables where
  jobs :=
    [{ id := 1, jobType := .migration, state := .waitingServer, accountId := some 1,
        waitingUntil := some "2025-01-01T00:00:30+00:00" },
      { id := 2, jobType := .migration, state := .waitingServer, accountId := some 1,
        waitingUntil := some "2025-01-01T00:00:30.500000+00:00" }]
  items := []
  sorted := by decide

/-- The text with the fraction is selected, though it has a point where the other has its offset. -/
theorem accountWaitingUntil_is_latest_two :
    remainingWait newYear.reading (accountWaitingUntil twoWaits 1) =
      ((waitingTexts twoWaits 1).map fun text =>
        remainingWait newYear.reading (some text)).foldr max 0 :=
  (accountWaitingUntil_is_latest (fun seconds => roundHalfEven (seconds * 1000000)) twoWaits 1
    newYear.reading [(newYear, 30), (newYear, 61 / 2)] (by decide +kernel)).2.1

end Runtime
end MigrationStudio
