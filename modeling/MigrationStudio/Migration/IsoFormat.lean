import Mathlib.Data.List.Lex
import Mathlib.Data.String.Basic
import MigrationStudio.Foundations.Calendar
import MigrationStudio.Foundations.FixedWidth
import MigrationStudio.Migration.Recovery

/-!
# `datetime.isoformat` and `datetime.fromisoformat`

A time of UTC is written as `YYYY-MM-DDTHH:MM:SS`, with a point and six digits behind it when its
microseconds are not zero, and with the offset `+00:00` at the end.  So the texts have two lengths.
They are nevertheless ordered as the times: where a fraction ends one text and not the other, a `+`
stands against a point, which is the larger character.

* `CivilTime`: the fields of a time; `reading`: its microseconds since the beginning of the year 1.
* `CivilTime.ofReading`: the time with a reading, up to the end of the year 9999.
* `isoformat`, `fromisoformat`: writing, and reading what is written.
* `fromisoformat_isoformat`: a text denotes the time that it was written for.
* `isoformat_lt`, `isoformat_le`: a later time has a larger text.
-/

namespace MigrationStudio
namespace Migration

open Foundations

/-- The fields of a `datetime`, within their ranges. -/
structure CivilTime where
  year : ℕ
  month : ℕ
  day : ℕ
  hour : ℕ
  minute : ℕ
  second : ℕ
  microsecond : ℕ
  isDate : IsDate year month day
  year_le : year ≤ 9999
  inRange : hour < 24 ∧ minute < 60 ∧ second < 60 ∧ microsecond < 1000000

namespace CivilTime

/-- The whole seconds since the beginning of the year 1. -/
def seconds (c : CivilTime) : ℕ :=
  (toOrdinal c.year c.month c.day - 1) * 86400 + c.hour * 3600 + c.minute * 60 + c.second

/-- The microseconds since the beginning of the year 1. -/
def reading (c : CivilTime) : ℤ := (c.seconds * 1000000 + c.microsecond : ℕ)

/-- The time with a reading; `OverflowError` when there is none. -/
def ofReading (reading : ℤ) : Option CivilTime :=
  let total := reading.toNat
  let date := ofOrdinal (total / 86400000000 + 1)
  if h : 0 ≤ reading ∧ date.1 ≤ 9999 then
    some
      { year := date.1
        month := date.2.1
        day := date.2.2
        hour := total / 3600000000 % 24
        minute := total / 60000000 % 60
        second := total / 1000000 % 60
        microsecond := total % 1000000
        isDate := (ofOrdinal_spec (Nat.le_add_left 1 _)).1
        year_le := h.2
        inRange := ⟨Nat.mod_lt _ (by decide), Nat.mod_lt _ (by decide), Nat.mod_lt _ (by decide),
          Nat.mod_lt _ (by decide)⟩ }
  else none

theorem reading_ofReading {reading : ℤ} {c : CivilTime} (h : ofReading reading = some c) :
    c.reading = reading := by
  unfold ofReading at h
  simp only at h
  split_ifs at h with hvalid
  obtain rfl := Option.some.inj h
  have hordinal := (ofOrdinal_spec (Nat.le_add_left 1 (reading.toNat / 86400000000))).2
  unfold CivilTime.reading seconds
  simp only [hordinal]
  omega

/-- The fields in front of the fraction. -/
def fields (c : CivilTime) : List ℕ := [c.year, c.month, c.day, c.hour, c.minute, c.second]

/-- The time with these fields; `ValueError` when one is out of its range. -/
def ofFields (microsecond : ℕ) : List ℕ → Option CivilTime
  | [year, month, day, hour, minute, second] =>
      if h : IsDate year month day ∧ year ≤ 9999 ∧ hour < 24 ∧ minute < 60 ∧ second < 60 ∧
          microsecond < 1000000 then
        some ⟨year, month, day, hour, minute, second, microsecond, h.1, h.2.1, h.2.2⟩
      else none
  | _ => none

theorem ofFields_fields (c : CivilTime) : ofFields c.microsecond c.fields = some c :=
  dif_pos ⟨c.isDate, c.year_le, c.inRange⟩

end CivilTime

open CivilTime

/-! ## The texts -/

/-- `YYYY-MM-DDTHH:MM:SS`. -/
def isoLayout : Layout := [(4, ['-']), (2, ['-']), (2, ['T']), (2, [':']), (2, [':']), (2, [])]

/-- The fraction of a text, which is left out when it is zero. -/
def writeFraction (microsecond : ℕ) : List Char :=
  if microsecond = 0 then [] else '.' :: padded 6 microsecond

/-- `isoformat()` of a time of UTC. -/
def isoformat (c : CivilTime) : String :=
  String.ofList (writeFields isoLayout c.fields ++
    (writeFraction c.microsecond ++ ['+', '0', '0', ':', '0', '0']))

def readFraction : List Char → Option (ℕ × List Char)
  | '.' :: cs => takeNumber 6 cs
  | cs => some (0, cs)

/-- The offset of a text in microseconds; a naive time has none. -/
def readOffset : List Char → Option (Option ℤ)
  | [] => some none
  | sign :: cs =>
      match readFields [(2, [':']), (2, [])] cs with
      | some ([hours, minutes], []) =>
          let offset : ℤ := ((hours * 60 + minutes) * 60000000 : ℕ)
          if hours < 24 ∧ minutes < 60 then
            if sign = '+' then some (some offset)
            else if sign = '-' then some (some (-offset))
            else none
          else none
      | _ => none

/-- `datetime.fromisoformat`, for the texts that `isoformat` writes of naive and of aware times. -/
def fromisoformat (text : String) : Option DateTime := do
  let (fields, cs) ← readFields isoLayout text.toList
  let (microsecond, cs) ← readFraction cs
  let utcoffset ← readOffset cs
  let c ← ofFields microsecond fields
  some ⟨c.reading, utcoffset⟩

/-! ## Reading what is written -/

theorem daysInMonth_le (leap : Bool) {month : ℕ} (h : month ≤ 12) :
    daysInMonth leap month ≤ 31 := by
  have hall : ∀ leap : Bool, ∀ m ≤ 12, daysInMonth leap m ≤ 31 := by decide
  exact hall leap month h

theorem fits_fields (c : CivilTime) : Fits isoLayout c.fields := by
  have hyear := c.year_le
  obtain ⟨-, ⟨-, hmonth⟩, -, hday⟩ := c.isDate
  have hdays := daysInMonth_le (isLeap c.year) hmonth
  obtain ⟨hhour, hminute, hsecond, -⟩ := c.inRange
  exact .cons (show c.year < 10000 by omega) <| .cons (show c.month < 100 by omega) <|
    .cons (show c.day < 100 by omega) <| .cons (show c.hour < 100 by omega) <|
    .cons (show c.minute < 100 by omega) <| .cons (show c.second < 100 by omega) .nil

theorem readFraction_writeFraction {microsecond : ℕ} (h : microsecond < 1000000) {cs : List Char}
    (hcs : cs.head? ≠ some '.') :
    readFraction (writeFraction microsecond ++ cs) = some (microsecond, cs) := by
  unfold writeFraction
  split_ifs with hzero
  · subst hzero
    rw [List.nil_append]
    unfold readFraction
    split
    · exact absurd rfl hcs
    · rfl
  · exact takeNumber_padded h cs

/-- **A text denotes the time** that it was written for. -/
theorem fromisoformat_isoformat (c : CivilTime) :
    fromisoformat (isoformat c) = some ⟨c.reading, some 0⟩ := by
  have hfraction : readFraction (writeFraction c.microsecond ++ ['+', '0', '0', ':', '0', '0']) =
      some (c.microsecond, ['+', '0', '0', ':', '0', '0']) :=
    readFraction_writeFraction c.inRange.2.2.2 (by decide)
  have hoffset : readOffset ['+', '0', '0', ':', '0', '0'] = some (some 0) := by decide +kernel
  unfold fromisoformat isoformat
  rw [String.toList_ofList, readFields_writeFields (fits_fields c)]
  simp only [Option.bind_eq_bind, Option.bind_some, hfraction, hoffset, ofFields_fields]

/-! ## The order of the texts -/

/-- **Later fields, later time.** -/
theorem seconds_lt_of_fields_lt {c c' : CivilTime} (h : c.fields < c'.fields) :
    c.seconds < c'.seconds := by
  have hordinal := toOrdinal_lt c.isDate c'.isDate
  obtain ⟨hhour, hminute, hsecond, -⟩ := c.inRange
  have hpos : 1 ≤ toOrdinal c.year c.month c.day :=
    Nat.le_trans c.isDate.2.2.1 (Nat.le_add_left _ _)
  have hdate : toOrdinal c.year c.month c.day < toOrdinal c'.year c'.month c'.day ∨
      toOrdinal c.year c.month c.day = toOrdinal c'.year c'.month c'.day ∧
        (c.hour < c'.hour ∨ c.hour = c'.hour ∧ (c.minute < c'.minute ∨
          c.minute = c'.minute ∧ c.second < c'.second)) := by
    simp only [fields, List.cons_lt_cons_iff, List.not_lt_nil, and_false, or_false] at h
    rcases h with hyear | ⟨hyear, hmonth | ⟨hmonth, hday | ⟨hday, htime⟩⟩⟩
    · exact Or.inl (hordinal (Or.inl hyear))
    · exact Or.inl (hordinal (Or.inr ⟨hyear, Or.inl hmonth⟩))
    · exact Or.inl (hordinal (Or.inr ⟨hyear, Or.inr ⟨hmonth, hday⟩⟩))
    · exact Or.inr ⟨by rw [hyear, hmonth, hday], htime⟩
  unfold seconds
  omega

/-- A fraction is smaller than a larger one, and none is smaller than any. -/
theorem writeFraction_lt {m n : ℕ} (h : m < n) (hn : n < 1000000) (cs : List Char) :
    writeFraction m ++ '+' :: cs < writeFraction n ++ '+' :: cs := by
  unfold writeFraction
  rw [if_neg (by omega : n ≠ 0)]
  split_ifs with hm
  · -- the sign of the offset against the point
    exact List.cons_lt_cons_iff.mpr (Or.inl (by decide))
  · refine List.cons_lt_cons_iff.mpr (Or.inr ⟨rfl, ?_⟩)
    exact append_lt_append_of_lt (by simp) (padded_lt h hn) _ _

/-- **A later time** has a larger text. -/
theorem isoformat_lt {c c' : CivilTime} (h : c.reading < c'.reading) :
    isoformat c < isoformat c' := by
  have hreading : c.seconds * 1000000 + c.microsecond < c'.seconds * 1000000 + c'.microsecond :=
    Int.ofNat_lt.mp h
  have hmicro := c.inRange.2.2.2
  have hmicro' := c'.inRange.2.2.2
  rw [String.lt_iff, isoformat, isoformat, String.toList_ofList, String.toList_ofList]
  rcases lt_trichotomy c.fields c'.fields with hlt | heq | hgt
  · exact writeFields_lt (fits_fields c) (fits_fields c') hlt _ _
  · have hseconds : c.seconds = c'.seconds := by
      simp only [fields, List.cons.injEq, and_true] at heq
      obtain ⟨hyear, hmonth, hday, hhour, hminute, hsecond⟩ := heq
      rw [seconds, seconds, hyear, hmonth, hday, hhour, hminute, hsecond]
    rw [heq]
    exact List.append_left_lt (writeFraction_lt (by omega) hmicro' _)
  · have hseconds := seconds_lt_of_fields_lt hgt
    omega

theorem isoformat_le {c c' : CivilTime} (h : c.reading ≤ c'.reading) :
    isoformat c ≤ isoformat c' := by
  rcases h.lt_or_eq with hlt | heq
  · exact le_of_lt (isoformat_lt hlt)
  · have hreading : c.seconds * 1000000 + c.microsecond =
        c'.seconds * 1000000 + c'.microsecond := Int.ofNat_inj.mp heq
    have hmicro := c.inRange.2.2.2
    have hmicro' := c'.inRange.2.2.2
    have hfields : c.fields = c'.fields := by
      rcases lt_trichotomy c.fields c'.fields with hlt | heq | hgt
      · have hseconds := seconds_lt_of_fields_lt hlt
        omega
      · exact heq
      · have hseconds := seconds_lt_of_fields_lt hgt
        omega
    have hfraction : c.microsecond = c'.microsecond := by omega
    rw [isoformat, isoformat, hfields, hfraction]

end Migration
end MigrationStudio
