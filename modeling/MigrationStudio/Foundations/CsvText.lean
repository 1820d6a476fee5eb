import Mathlib.Data.List.Nodup
import Mathlib.Tactic.Common

/-!
# The text of a CSV file

The `csv` module of Python with its dialect `excel`, character by character.  The writer puts a
field between quotation marks when it has a character that means something to the reader, and then
doubles the quotation marks in it; a row of one empty field would be a blank line and is quoted too.
The reader is a machine with six states that is given the lines of the file one after the other,
their ends included, with a sign after each line.  A field may hold ends of lines, so one row may be
spread over several lines.  The reader refuses a field that is longer than a limit.

The characters are of any type: a `Dialect` names the four that the machine looks at.

* `writerow`, `writerows`: the writer.
* `fileLines`: the lines of a file that is opened with `newline=""`.
* `processChar`, `readLine`, `reader`: the reader.
* `scan_cons`, `scan_quoted`, `scan_end`: the turns of the reader, on a text and not on its lines.
* `reader_writerows`: what is read of the rows that were written.
-/

namespace MigrationStudio
namespace Foundations
namespace Csv

/-- The characters that the reader looks at, no two of them the same. -/
structure Dialect (α : Type*) where
  delimiter : α
  quotechar : α
  carriageReturn : α
  lineFeed : α
  nodup : [delimiter, quotechar, carriageReturn, lineFeed].Nodup

variable {α : Type*} (d : Dialect α)

namespace Dialect

theorem delimiter_ne_quotechar : d.delimiter ≠ d.quotechar := by
  have h := d.nodup
  simp only [List.nodup_cons, List.mem_cons, List.not_mem_nil, not_or] at h
  exact h.1.1

theorem carriageReturn_ne_lineFeed : d.carriageReturn ≠ d.lineFeed := by
  have h := d.nodup
  simp only [List.nodup_cons, List.mem_cons, List.not_mem_nil, not_or] at h
  exact h.2.2.1.1

variable [DecidableEq α]

def isNewline (c : α) : Bool := c = d.lineFeed || c = d.carriageReturn

/-- The characters for which a field is quoted. -/
def special (c : α) : Bool := c = d.delimiter || c = d.quotechar || d.isNewline c

theorem isNewline_delimiter : d.isNewline d.delimiter = false := by
  have h := d.nodup
  simp only [List.nodup_cons, List.mem_cons, List.not_mem_nil, not_or] at h
  simp [isNewline, h.1.2.1, h.1.2.2.1]

theorem isNewline_quotechar : d.isNewline d.quotechar = false := by
  have h := d.nodup
  simp only [List.nodup_cons, List.mem_cons, List.not_mem_nil, not_or] at h
  simp [isNewline, h.2.1.1, h.2.1.2.1]

theorem isNewline_carriageReturn : d.isNewline d.carriageReturn = true := by simp [isNewline]

theorem isNewline_lineFeed : d.isNewline d.lineFeed = true := by simp [isNewline]

theorem isNewline_eq_false_iff {c : α} :
    d.isNewline c = false ↔ c ≠ d.lineFeed ∧ c ≠ d.carriageReturn := by simp [isNewline]

theorem special_eq_false_iff {c : α} :
    d.special c = false ↔ c ≠ d.delimiter ∧ c ≠ d.quotechar ∧ d.isNewline c = false := by
  simp [special, and_assoc]

end Dialect

variable [DecidableEq α]

/-! ## The writer -/

/-- A character between quotation marks. -/
def doubled (c : α) : List α := if c = d.quotechar then [c, c] else [c]

/-- `join_append`: a field, between quotation marks when that is asked for or needed. -/
def joinField (quoted : Bool) (field : List α) : List α :=
  if quoted || field.any d.special then
    d.quotechar :: (field.flatMap (doubled d) ++ [d.quotechar])
  else field

/-- The fields of a record, with the delimiter between them. -/
def joinFields : List (List α) → List α
  | [] => []
  | [field] => joinField d false field
  | field :: fields => joinField d false field ++ d.delimiter :: joinFields fields

/-- `writerow`: a record that would be empty has its one field quoted. -/
def writerow (row : List (List α)) : List α :=
  (if row ≠ [] ∧ joinFields d row = [] then joinField d true [] else joinFields d row) ++
    [d.carriageReturn, d.lineFeed]

/-- `writerows`. -/
def writerows (rows : List (List (List α))) : List α := rows.flatMap (writerow d)

/-! ## The lines of a file -/

/-- The lines of a text file opened with `newline=""`: they keep their ends, which are a carriage
return, a line feed, or one behind the other. -/
def fileLines : List α → List (List α)
  | [] => []
  | c :: cs =>
      if c = d.carriageReturn then
        match cs with
        | [] => [[c]]
        | c' :: cs' =>
            if c' = d.lineFeed then [c, c'] :: fileLines cs' else [c] :: fileLines (c' :: cs')
      else if c = d.lineFeed then [c] :: fileLines cs
      else
        match fileLines cs with
        | [] => [[c]]
        | line :: lines => (c :: line) :: lines

/-! ## The reader -/

/-- The states of the reader of the dialect, which has no escape character. -/
inductive ParserState where
  | startRecord | startField | inField | inQuotedField | quoteInQuotedField | eatCrnl
  deriving DecidableEq, Repr

/-- The reader: its state, the characters of the field it is in, and the fields of the row. -/
structure Parser (α : Type*) where
  state : ParserState := .startRecord
  field : List α := []
  fields : List (List α) := []

/-- What the reader raises: `field larger than field limit`, and `new-line character seen in
unquoted field`. -/
inductive CsvError where
  | fieldTooLong | strayNewline
  deriving DecidableEq, Repr

namespace Parser

/-- `parse_add_char`, in the state that follows. -/
def addChar (limit : ℕ) (p : Parser α) (state : ParserState) (c : α) :
    Except CsvError (Parser α) :=
  if limit ≤ p.field.length then .error .fieldTooLong
  else .ok { p with state := state, field := p.field ++ [c] }

/-- `parse_save_field`, in the state that follows. -/
def saveField (p : Parser α) (state : ParserState) : Parser α where
  state := state
  field := []
  fields := p.fields ++ [p.field]

end Parser

section Reader

variable (limit : ℕ)

/-- The case START_FIELD of `parse_process_char`; `none` is the sign behind a line. -/
def processStartField (p : Parser α) : Option α → Except CsvError (Parser α)
  | none => .ok (p.saveField .startRecord)
  | some c =>
      if d.isNewline c then .ok (p.saveField .eatCrnl)
      else if c = d.quotechar then .ok { p with state := .inQuotedField }
      else if c = d.delimiter then .ok (p.saveField .startField)
      else p.addChar limit .inField c

/-- `parse_process_char`. -/
def processChar (p : Parser α) (input : Option α) : Except CsvError (Parser α) :=
  match p.state, input with
  | .startRecord, none => .ok p
  | .startRecord, some c =>
      if d.isNewline c then .ok { p with state := .eatCrnl }
      else processStartField d limit p (some c)
  | .startField, input => processStartField d limit p input
  | .inField, none => .ok (p.saveField .startRecord)
  | .inField, some c =>
      if d.isNewline c then .ok (p.saveField .eatCrnl)
      else if c = d.delimiter then .ok (p.saveField .startField)
      else p.addChar limit .inField c
  | .inQuotedField, none => .ok p
  | .inQuotedField, some c =>
      if c = d.quotechar then .ok { p with state := .quoteInQuotedField }
      else p.addChar limit .inQuotedField c
  | .quoteInQuotedField, none => .ok (p.saveField .startRecord)
  | .quoteInQuotedField, some c =>
      if c = d.quotechar then p.addChar limit .inQuotedField c
      else if c = d.delimiter then .ok (p.saveField .startField)
      else if d.isNewline c then .ok (p.saveField .eatCrnl)
      else p.addChar limit .inField c
  | .eatCrnl, none => .ok { p with state := .startRecord }
  | .eatCrnl, some c => if d.isNewline c then .ok p else .error .strayNewline

/-- The characters of a line, and the sign behind it. -/
def readLine (p : Parser α) : List α → Except CsvError (Parser α)
  | [] => processChar d limit p none
  | c :: cs => (processChar d limit p (some c)).bind fun p => readLine p cs

/-- `list(reader)`, in the middle of a row.  At the end of the file the row that has been begun is
kept, if it has a character or an open quotation mark. -/
def records (p : Parser α) : List (List α) → Except CsvError (List (List (List α)))
  | [] =>
      .ok (if p.field ≠ [] ∨ p.state = .inQuotedField then [(p.saveField .startRecord).fields]
        else [])
  | line :: lines =>
      (readLine d limit p line).bind fun p =>
        if p.state = .startRecord then (records {} lines).map (p.fields :: ·)
        else records p lines

/-- `list(csv.reader(lines))`. -/
def reader (lines : List (List α)) : Except CsvError (List (List (List α))) :=
  records d limit {} lines

/-! ## The turns of the reader, on a text -/

variable {d limit}

theorem fileLines_ne_nil {cs : List α} (h : cs ≠ []) : fileLines d cs ≠ [] := by
  obtain ⟨c, cs, rfl⟩ := List.exists_cons_of_ne_nil h
  rw [fileLines.eq_def]
  dsimp only
  split_ifs
  · cases cs with
    | nil => exact List.cons_ne_nil _ _
    | cons c' cs' =>
        dsimp only
        split_ifs
        · exact List.cons_ne_nil _ _
        · exact List.cons_ne_nil _ _
  · exact List.cons_ne_nil _ _
  · cases fileLines d cs with
    | nil => exact List.cons_ne_nil _ _
    | cons line lines => exact List.cons_ne_nil _ _

/-- A character that ends no line is put in front of the first line. -/
theorem fileLines_cons {c : α} {cs : List α} (hc : d.isNewline c = false) (h : cs ≠ []) :
    ∃ line lines, fileLines d cs = line :: lines ∧
      fileLines d (c :: cs) = (c :: line) :: lines := by
  obtain ⟨hfeed, hreturn⟩ := d.isNewline_eq_false_iff.mp hc
  obtain ⟨line, lines, hlines⟩ := List.exists_cons_of_ne_nil (fileLines_ne_nil (d := d) h)
  refine ⟨line, lines, hlines, ?_⟩
  rw [fileLines.eq_def]
  dsimp only
  rw [if_neg hreturn, if_neg hfeed, hlines]

variable (d limit) in
/-- What is read of the rest of a text. -/
def scan (p : Parser α) (cs : List α) : Except CsvError (List (List (List α))) :=
  records d limit p (fileLines d cs)

variable {p : Parser α}

/-- **A character that ends no line** is one turn of the machine. -/
theorem scan_cons {c : α} {cs : List α} (hc : d.isNewline c = false) (h : cs ≠ []) :
    scan d limit p (c :: cs) =
      (processChar d limit p (some c)).bind fun p => scan d limit p cs := by
  obtain ⟨line, lines, hcs, hcons⟩ := fileLines_cons hc h
  unfold scan
  rw [hcons, hcs, records, readLine]
  cases processChar d limit p (some c) with
  | error e => rfl
  | ok p' => rfl

theorem processChar_quoted {c : α} (hp : p.state = .inQuotedField) (hc : c ≠ d.quotechar) :
    processChar d limit p (some c) = p.addChar limit .inQuotedField c := by
  unfold processChar
  rw [hp]
  exact if_neg hc

omit [DecidableEq α] in
theorem state_of_addChar {p' : Parser α} {state : ParserState} {c : α}
    (h : p.addChar limit state c = .ok p') : p'.state = state := by
  unfold Parser.addChar at h
  split_ifs at h
  obtain rfl := Except.ok.inj h
  rfl

/-- Behind a line that ends in a quoted field the reader goes on with the next line. -/
theorem records_quoted {line : List α} {lines : List (List α)}
    (h : ∀ p', readLine d limit p line = .ok p' → p'.state = .inQuotedField) :
    records d limit p (line :: lines) =
      (readLine d limit p line).bind fun p => records d limit p lines := by
  rw [records]
  cases hline : readLine d limit p line with
  | error e => rfl
  | ok p' =>
      have hstate := h p' hline
      show (if p'.state = .startRecord then _ else _) = records d limit p' lines
      rw [if_neg (by rw [hstate]; decide)]

theorem fileLines_lineFeed (cs : List α) :
    fileLines d (d.lineFeed :: cs) = [d.lineFeed] :: fileLines d cs := by
  rw [fileLines.eq_def]
  dsimp only
  rw [if_neg d.carriageReturn_ne_lineFeed.symm, if_pos rfl]

theorem fileLines_carriageReturn_lineFeed (cs : List α) :
    fileLines d (d.carriageReturn :: d.lineFeed :: cs) =
      [d.carriageReturn, d.lineFeed] :: fileLines d cs := by
  rw [fileLines.eq_def]
  dsimp only
  rw [if_pos rfl, if_pos rfl]

theorem fileLines_carriageReturn {c : α} (hc : c ≠ d.lineFeed) (cs : List α) :
    fileLines d (d.carriageReturn :: c :: cs) =
      [d.carriageReturn] :: fileLines d (c :: cs) := by
  rw [fileLines.eq_def]
  dsimp only
  rw [if_pos rfl, if_neg hc]

/-- A line without a quotation mark that is read in a quoted field. -/
theorem readLine_quoted {line : List α} (hp : p.state = .inQuotedField)
    (hline : d.quotechar ∉ line) {p' : Parser α} (h : readLine d limit p line = .ok p') :
    p'.state = .inQuotedField := by
  induction line generalizing p with
  | nil =>
      rw [readLine] at h
      unfold processChar at h
      rw [hp] at h
      obtain rfl := Except.ok.inj h
      exact hp
  | cons c cs ih =>
      obtain ⟨hc, hcs⟩ := not_or.mp (mt List.mem_cons.mpr hline)
      rw [readLine, processChar_quoted hp (Ne.symm hc)] at h
      cases hadd : p.addChar limit .inQuotedField c with
      | error e =>
          rw [hadd] at h
          cases h
      | ok p₁ =>
          rw [hadd] at h
          exact ih (state_of_addChar hadd) hcs h

/-- **A character between quotation marks** is kept, whether or not it ends a line. -/
theorem scan_quoted {c : α} {cs : List α} (hp : p.state = .inQuotedField) (hc : c ≠ d.quotechar)
    (h : cs ≠ []) :
    scan d limit p (c :: cs) =
      (p.addChar limit .inQuotedField c).bind fun p => scan d limit p cs := by
  by_cases hline : d.isNewline c = false
  · rw [scan_cons hline h, processChar_quoted hp hc]
  -- a line that ends here leaves the machine where it is
  have hone : ∀ {q : Parser α}, q.state = .inQuotedField →
      readLine d limit q [c] = q.addChar limit .inQuotedField c := by
    intro q hq
    rw [readLine, processChar_quoted hq hc]
    cases hadd : q.addChar limit .inQuotedField c with
    | error e => rfl
    | ok p' =>
        show processChar d limit p' none = .ok p'
        unfold processChar
        rw [state_of_addChar hadd]
  have hquote : d.quotechar ∉ [c] := by simpa using Ne.symm hc
  have hcons : ∀ lines, records d limit p ([c] :: lines) =
      (p.addChar limit .inQuotedField c).bind fun p => records d limit p lines := by
    intro lines
    rw [records_quoted fun p' => readLine_quoted hp hquote, hone hp]
  by_cases hfeed : c = d.lineFeed
  · subst hfeed
    unfold scan
    rw [fileLines_lineFeed, hcons]
  obtain rfl : c = d.carriageReturn := by
    by_contra hreturn
    exact hline (d.isNewline_eq_false_iff.mpr ⟨hfeed, hreturn⟩)
  obtain ⟨c', cs', rfl⟩ := List.exists_cons_of_ne_nil h
  by_cases hc' : c' = d.lineFeed
  · -- the two characters are the end of one line
    subst hc'
    have hfeedQuote : d.lineFeed ≠ d.quotechar := fun he => by
      have := d.isNewline_quotechar
      rw [← he, d.isNewline_lineFeed] at this
      cases this
    have hboth : d.quotechar ∉ [d.carriageReturn, d.lineFeed] := by
      simp [Ne.symm hc, Ne.symm hfeedQuote]
    unfold scan
    rw [fileLines_carriageReturn_lineFeed, records_quoted fun p' => readLine_quoted hp hboth,
      readLine, processChar_quoted hp hc]
    cases hadd : p.addChar limit .inQuotedField d.carriageReturn with
    | error e => rfl
    | ok p' =>
        have hp' := state_of_addChar hadd
        have hlf : d.quotechar ∉ [d.lineFeed] := by simpa using Ne.symm hfeedQuote
        show (readLine d limit p' [d.lineFeed]).bind _ = records d limit p' (fileLines d _)
        rw [fileLines_lineFeed, records_quoted fun p'' => readLine_quoted hp' hlf]
  · unfold scan
    rw [fileLines_carriageReturn hc', hcons]

/-! ## One field -/

/-- The states in which a field begins. -/
def ParserState.Starts (state : ParserState) : Prop := state = .startRecord ∨ state = .startField

theorem processChar_start {c : α} (hp : p.state.Starts) (hc : d.isNewline c = false) :
    processChar d limit p (some c) = processStartField d limit p (some c) := by
  unfold processChar
  rcases hp with hp | hp
  · rw [hp]
    dsimp only
    rw [hc]
    rfl
  · rw [hp]

/-- The characters between two quotation marks, and the second of them. -/
theorem scan_doubled {field rest : List α} (hp : p.state = .inQuotedField)
    (hlimit : p.field.length ≤ limit) (hrest : rest ≠ []) :
    scan d limit p (field.flatMap (doubled d) ++ d.quotechar :: rest) =
      if p.field.length + field.length ≤ limit then
        scan d limit { p with state := .quoteInQuotedField, field := p.field ++ field } rest
      else .error .fieldTooLong := by
  induction field generalizing p with
  | nil =>
      rw [List.flatMap_nil, List.nil_append, scan_cons d.isNewline_quotechar hrest]
      unfold processChar
      rw [hp]
      dsimp only
      rw [if_pos rfl, if_pos (by simpa using hlimit), List.append_nil]
      rfl
  | cons c cs ih =>
      have htail : cs.flatMap (doubled d) ++ d.quotechar :: rest ≠ [] := by simp
      -- the mark that doubles a quotation mark only moves the machine there and back
      have hturn : scan d limit p ((c :: cs).flatMap (doubled d) ++ d.quotechar :: rest) =
          (p.addChar limit .inQuotedField c).bind fun p =>
            scan d limit p (cs.flatMap (doubled d) ++ d.quotechar :: rest) := by
        rw [List.flatMap_cons, List.append_assoc]
        by_cases hc : c = d.quotechar
        · have hquote : processChar d limit p (some c) =
              .ok { p with state := .quoteInQuotedField } := by
            unfold processChar
            rw [hp]
            exact if_pos hc
          have hagain : processChar d limit { p with state := .quoteInQuotedField } (some c) =
              p.addChar limit .inQuotedField c := if_pos hc
          have hline : d.isNewline c = false := hc ▸ d.isNewline_quotechar
          rw [doubled, if_pos hc, List.cons_append, List.singleton_append,
            scan_cons hline (List.cons_ne_nil _ _), hquote]
          show scan d limit _ (c :: _) = _
          rw [scan_cons hline htail, hagain]
        · rw [doubled, if_neg hc, List.singleton_append, scan_quoted hp hc htail]
      rw [hturn]
      unfold Parser.addChar
      by_cases hfull : limit ≤ p.field.length
      · rw [if_pos hfull, if_neg (by rw [List.length_cons]; omega)]
        rfl
      · rw [if_neg hfull]
        show scan d limit { p with state := .inQuotedField, field := p.field ++ [c] } _ = _
        rw [ih rfl (by rw [List.length_append, List.length_singleton]; omega)]
        simp only [List.length_append, List.length_cons, List.length_nil, List.append_assoc,
          List.singleton_append]
        congr 1
        rw [eq_iff_iff]
        omega

/-- The characters of a field that is not quoted, behind the first. -/
theorem scan_plain {field rest : List α} (hp : p.state = .inField)
    (hplain : ∀ c ∈ field, d.special c = false) (hlimit : p.field.length ≤ limit)
    (hrest : rest ≠ []) :
    scan d limit p (field ++ rest) =
      if p.field.length + field.length ≤ limit then
        scan d limit { p with field := p.field ++ field } rest
      else .error .fieldTooLong := by
  induction field generalizing p with
  | nil =>
      rw [if_pos (by simpa using hlimit), List.append_nil]
      rfl
  | cons c cs ih =>
      obtain ⟨hdelimiter, -, hline⟩ := d.special_eq_false_iff.mp (hplain c List.mem_cons_self)
      have hturn : processChar d limit p (some c) = p.addChar limit .inField c := by
        unfold processChar
        rw [hp]
        dsimp only
        rw [hline, if_neg hdelimiter]
        rfl
      rw [List.cons_append, scan_cons hline (by simp [hrest]), hturn]
      unfold Parser.addChar
      by_cases hfull : limit ≤ p.field.length
      · rw [if_pos hfull, if_neg (by rw [List.length_cons]; omega)]
        rfl
      · rw [if_neg hfull]
        show scan d limit { p with state := .inField, field := p.field ++ [c] } _ = _
        rw [ih rfl (fun c' hc' => hplain c' (List.mem_cons_of_mem _ hc'))
          (by rw [List.length_append, List.length_singleton]; omega)]
        simp only [List.length_append, List.length_cons, List.length_nil, List.append_assoc,
          List.singleton_append, hp]
        congr 1
        rw [eq_iff_iff]
        omega

/-- **A field that was written** is read back in front of any rest: the machine is then in one of
the states that can end a field, or has not moved when nothing was written. -/
theorem scan_joinField (quoted : Bool) (field : List α) {rest : List α} (hp : p.state.Starts)
    (hfield : p.field = []) (hrest : rest ≠ []) :
    ∃ state : ParserState,
      (state = .quoteInQuotedField ∨ state = .inField ∨
        state = p.state ∧ joinField d quoted field = []) ∧
      scan d limit p (joinField d quoted field ++ rest) =
        if field.length ≤ limit then
          scan d limit { p with state := state, field := field } rest
        else .error .fieldTooLong := by
  unfold joinField
  by_cases hquoted : (quoted || field.any d.special) = true
  · refine ⟨.quoteInQuotedField, Or.inl rfl, ?_⟩
    have hturn : processChar d limit p (some d.quotechar) =
        .ok { p with state := .inQuotedField } := by
      rw [processChar_start hp d.isNewline_quotechar]
      unfold processStartField
      dsimp only
      rw [d.isNewline_quotechar, if_pos rfl]
      rfl
    rw [if_pos hquoted, List.cons_append, List.append_assoc, List.singleton_append,
      scan_cons d.isNewline_quotechar (by simp), hturn]
    show scan d limit { p with state := .inQuotedField } _ = _
    rw [scan_doubled rfl (by simp [hfield]) hrest]
    simp [hfield]
  · rw [if_neg hquoted]
    rw [Bool.or_eq_true, not_or, List.any_eq_true] at hquoted
    have hplain : ∀ c ∈ field, d.special c = false := fun c hc => by
      by_contra h
      exact hquoted.2 ⟨c, hc, Bool.not_eq_false _ ▸ h⟩
    cases field with
    | nil =>
        refine ⟨p.state, Or.inr (Or.inr ⟨rfl, rfl⟩), ?_⟩
        have hempty : ([] : List α).length ≤ limit := Nat.zero_le limit
        rw [if_pos hempty, List.nil_append, ← hfield]
    | cons c cs =>
        refine ⟨.inField, Or.inr (Or.inl rfl), ?_⟩
        obtain ⟨hdelimiter, hquote, hline⟩ :=
          d.special_eq_false_iff.mp (hplain c List.mem_cons_self)
        have hturn : processChar d limit p (some c) = p.addChar limit .inField c := by
          rw [processChar_start hp hline]
          unfold processStartField
          dsimp only
          rw [hline, if_neg hquote, if_neg hdelimiter]
          rfl
        rw [List.cons_append, scan_cons hline (by simp [hrest]), hturn]
        unfold Parser.addChar
        rw [hfield, List.length_nil, List.nil_append]
        by_cases hfull : limit ≤ 0
        · rw [if_pos hfull, if_neg (by rw [List.length_cons]; omega)]
          rfl
        · rw [if_neg hfull]
          show scan d limit { p with state := .inField, field := [c] } _ = _
          rw [scan_plain rfl (fun c' hc' => hplain c' (List.mem_cons_of_mem _ hc'))
            (by rw [List.length_singleton]; omega) hrest]
          simp only [List.length_cons, List.length_nil, List.singleton_append]
          congr 1
          rw [eq_iff_iff]
          omega

/-! ## One row -/

/-- The end of a line that the writer writes, behind a field. -/
theorem scan_end {rest : List α}
    (hp : p.state = .quoteInQuotedField ∨ p.state = .inField ∨ p.state = .startField) :
    scan d limit p (d.carriageReturn :: d.lineFeed :: rest) =
      (scan d limit {} rest).map ((p.fields ++ [p.field]) :: ·) := by
  have hreturn : d.carriageReturn ≠ d.quotechar ∧ d.carriageReturn ≠ d.delimiter := by
    have h := d.nodup
    simp only [List.nodup_cons, List.mem_cons, List.not_mem_nil, not_or] at h
    exact ⟨Ne.symm h.2.1.1, Ne.symm h.1.2.1⟩
  have hturn : processChar d limit p (some d.carriageReturn) = .ok (p.saveField .eatCrnl) := by
    unfold processChar
    rcases hp with hp | hp | hp
    · rw [hp]
      dsimp only
      rw [if_neg hreturn.1, if_neg hreturn.2, d.isNewline_carriageReturn]
      rfl
    · rw [hp]
      dsimp only
      rw [d.isNewline_carriageReturn]
      rfl
    · rw [hp]
      unfold processStartField
      dsimp only
      rw [d.isNewline_carriageReturn]
      rfl
  have heat : readLine d limit (p.saveField .eatCrnl) [d.lineFeed] =
      .ok (p.saveField .startRecord) := by
    rw [readLine]
    unfold processChar Parser.saveField
    dsimp only
    rw [d.isNewline_lineFeed]
    rfl
  unfold scan
  rw [fileLines_carriageReturn_lineFeed, records, readLine, hturn]
  show (readLine d limit (p.saveField .eatCrnl) [d.lineFeed]).bind _ = _
  rw [heat]
  rfl

/-- A line with nothing in it is a row without fields. -/
theorem scan_blank (rest : List α) :
    scan d limit {} (d.carriageReturn :: d.lineFeed :: rest) =
      (scan d limit {} rest).map ([] :: ·) := by
  have hread : readLine d limit {} [d.carriageReturn, d.lineFeed] = .ok {} := by
    rw [readLine]
    unfold processChar
    dsimp only
    rw [d.isNewline_carriageReturn]
    show (processChar d limit { state := .eatCrnl } (some d.lineFeed)).bind _ = _
    unfold processChar
    dsimp only
    rw [d.isNewline_lineFeed]
    rfl
  unfold scan
  rw [fileLines_carriageReturn_lineFeed, records, hread]
  rfl

/-- The delimiter behind a field. -/
theorem scan_delimiter {rest : List α} (hrest : rest ≠ [])
    (hp : p.state = .quoteInQuotedField ∨ p.state = .inField ∨ p.state.Starts) :
    scan d limit p (d.delimiter :: rest) = scan d limit (p.saveField .startField) rest := by
  have hturn : processChar d limit p (some d.delimiter) = .ok (p.saveField .startField) := by
    rcases hp with hp | hp | hp
    · unfold processChar
      rw [hp]
      dsimp only
      rw [if_neg d.delimiter_ne_quotechar, if_pos rfl]
    · unfold processChar
      rw [hp]
      dsimp only
      rw [d.isNewline_delimiter, if_pos rfl]
      rfl
    · rw [processChar_start hp d.isNewline_delimiter]
      unfold processStartField
      dsimp only
      rw [d.isNewline_delimiter, if_neg d.delimiter_ne_quotechar, if_pos rfl]
      rfl
  rw [scan_cons d.isNewline_delimiter hrest, hturn]
  rfl

/-- The fields of a row, and the end of its line. -/
theorem scan_joinFields {fields : List (List α)} {rest : List α} (hne : fields ≠ [])
    (hp : p.state.Starts) (hfield : p.field = [])
    (hblank : p.state = .startRecord → joinFields d fields ≠ []) :
    scan d limit p (joinFields d fields ++ d.carriageReturn :: d.lineFeed :: rest) =
      if ∀ field ∈ fields, field.length ≤ limit then
        (scan d limit {} rest).map ((p.fields ++ fields) :: ·)
      else .error .fieldTooLong := by
  induction fields generalizing p with
  | nil => exact absurd rfl hne
  | cons field fields ih =>
      cases fields with
      | nil =>
          have hbehind : d.carriageReturn :: d.lineFeed :: rest ≠ [] := List.cons_ne_nil _ _
          obtain ⟨state, hstate, hread⟩ := scan_joinField false field hp hfield hbehind
          have hends : state = .quoteInQuotedField ∨ state = .inField ∨ state = .startField := by
            rcases hstate with h | h | ⟨h, hnil⟩
            · exact Or.inl h
            · exact Or.inr (Or.inl h)
            · rcases hp with hp | hp
              · exact absurd hnil (hblank hp)
              · exact Or.inr (Or.inr (h.trans hp))
          rw [joinFields, hread, scan_end hends]
          simp only [List.forall_mem_singleton]
      | cons field' fields' =>
          have hbehind : d.delimiter ::
              (joinFields d (field' :: fields') ++ d.carriageReturn :: d.lineFeed :: rest) ≠ [] :=
            List.cons_ne_nil _ _
          obtain ⟨state, hstate, hread⟩ := scan_joinField false field hp hfield hbehind
          have hends : state = .quoteInQuotedField ∨ state = .inField ∨ state.Starts := by
            rcases hstate with h | h | ⟨h, -⟩
            · exact Or.inl h
            · exact Or.inr (Or.inl h)
            · exact Or.inr (Or.inr (h ▸ hp))
          rw [joinFields, List.append_assoc, List.cons_append, hread,
            scan_delimiter (by simp) hends,
            ih (List.cons_ne_nil _ _) (Or.inr rfl) rfl (by rintro ⟨⟩)]
          · by_cases hlong : field.length ≤ limit
            · rw [if_pos hlong]
              simp only [List.forall_mem_cons, hlong, true_and, Parser.saveField,
                List.append_assoc, List.singleton_append]
            · rw [if_neg hlong, if_neg fun h => hlong (h field List.mem_cons_self)]
          · exact List.cons_ne_nil _ _

theorem eq_nil_of_joinFields {row : List (List α)} (h : joinFields d row = []) :
    row = [] ∨ row = [[]] := by
  match row with
  | [] => exact Or.inl rfl
  | [field] =>
      rw [joinFields, joinField] at h
      split_ifs at h
      exact Or.inr (by rw [h])
  | field :: field' :: fields => simp [joinFields] at h

/-- **One row that was written** is read back in front of any rest. -/
theorem scan_writerow (row : List (List α)) (rest : List α) :
    scan d limit {} (writerow d row ++ rest) =
      if ∀ field ∈ row, field.length ≤ limit then (scan d limit {} rest).map (row :: ·)
      else .error .fieldTooLong := by
  unfold writerow
  rw [List.append_assoc]
  by_cases hblank : joinFields d row = []
  · rcases eq_nil_of_joinFields hblank with rfl | rfl
    · rw [if_neg (by simp), if_pos (by simp)]
      exact scan_blank rest
    · -- the one empty field is between quotation marks
      rw [if_pos ⟨List.cons_ne_nil _ _, hblank⟩, if_pos (by simp)]
      have hstart : ({} : Parser α).state.Starts := Or.inl rfl
      have hbehind : d.carriageReturn :: d.lineFeed :: rest ≠ [] := List.cons_ne_nil _ _
      obtain ⟨state, hstate, hread⟩ := @scan_joinField α d _ limit _ true [] _ hstart rfl hbehind
      have hends : state = .quoteInQuotedField ∨ state = .inField ∨ state = .startField := by
        rcases hstate with h | h | ⟨-, hnil⟩
        · exact Or.inl h
        · exact Or.inr (Or.inl h)
        · exact absurd hnil (by simp [joinField])
      show scan d limit {} (joinField d true [] ++ d.carriageReturn :: d.lineFeed :: rest) = _
      have hempty : ([] : List α).length ≤ limit := Nat.zero_le limit
      rw [hread, if_pos hempty, scan_end hends]
      rfl
  · rw [if_neg fun h => hblank h.2]
    have hne : row ≠ [] := by
      rintro rfl
      exact hblank rfl
    exact scan_joinFields hne (Or.inl rfl) rfl fun _ => hblank

/-- **What is read of the rows that were written**: the rows, unless a field is longer than the
reader takes. -/
theorem reader_writerows (rows : List (List (List α))) :
    reader d limit (fileLines d (writerows d rows)) =
      if ∀ row ∈ rows, ∀ field ∈ row, field.length ≤ limit then .ok rows
      else .error .fieldTooLong := by
  show scan d limit {} (writerows d rows) = _
  induction rows with
  | nil => rw [if_pos (by simp)]; rfl
  | cons row rows ih =>
      rw [writerows, List.flatMap_cons, scan_writerow]
      show (if _ then (scan d limit {} (writerows d rows)).map _ else _) = _
      rw [ih]
      by_cases hrow : ∀ field ∈ row, field.length ≤ limit
      · have hiff : (∀ row' ∈ row :: rows, ∀ field ∈ row', field.length ≤ limit) ↔
            ∀ row' ∈ rows, ∀ field ∈ row', field.length ≤ limit :=
          List.forall_mem_cons.trans (and_iff_right hrow)
        rw [if_pos hrow, if_congr hiff rfl rfl]
        split_ifs
        · rfl
        · rfl
      · rw [if_neg hrow, if_neg fun h => hrow (h row List.mem_cons_self)]

end Reader
end Csv
end Foundations
end MigrationStudio
