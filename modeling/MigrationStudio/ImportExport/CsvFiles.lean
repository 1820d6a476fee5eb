import MigrationStudio.Foundations.CsvText
import MigrationStudio.ImportExport.Service
import MigrationStudio.Jobs.Items

/-!
# The CSV files of the import and export service

`export_dataset` and `export_job_results` open their file with the encoding `utf-8-sig` and
`newline=""` and give its rows to `csv.writer`; `import_dataset` opens it in the same way and gives
it to `csv.DictReader`.  Both use the dialect `excel` of the `csv` module.  So a name may have
commas, quotation marks and ends of lines, and a row of the file may go over several lines of it.
What does not come back is a cell that is longer than the field limit of the reader: then the whole
file is refused.

* `encodeSig`, `decodeSig`: the encoding, with its mark in front of the text.
* `writeFile`, `readFile`: the bytes of the rows, and the rows of the bytes.
* `readFile_writeFile`: what is read of the rows that were written.
* `members_of_exportFile`: the members that are imported from an exported file.
* `exportJobResults_eq_iff`: the results that a file with the results of a job can be of.
-/

namespace MigrationStudio
namespace ImportExport

open Foundations MigrationStudio.Core Members Telegram Jobs

/-! ## The encoding `utf-8-sig` -/

/-- `codecs.BOM_UTF8`. -/
def bom : ByteArray := ⟨#[0xEF, 0xBB, 0xBF]⟩

/-- `utf_8_sig.IncrementalEncoder`: the mark stands in front of what is written first. -/
def encodeSig (s : String) : ByteArray := bom ++ s.toByteArray

/-- `utf_8_sig.IncrementalDecoder`: fewer than three bytes that may be the beginning of a mark are
held back, also at the end of the file. -/
def decodeSig (bytes : ByteArray) : Option String :=
  if bytes.size < 3 ∧ bytes = bom.extract 0 bytes.size then some ""
  else if bytes.extract 0 3 = bom then String.fromUTF8? (bytes.extract 3 bytes.size)
  else String.fromUTF8? bytes

/-- The mark is taken away, and not a second one that the text begins with. -/
theorem decodeSig_encodeSig (s : String) : decodeSig (encodeSig s) = some s := by
  have hsize : (encodeSig s).size = 3 + s.toByteArray.size := ByteArray.size_append
  have hfront : (encodeSig s).extract 0 3 = bom := ByteArray.extract_append_eq_left rfl
  have hrest : (encodeSig s).extract 3 (encodeSig s).size = s.toByteArray :=
    ByteArray.extract_append_eq_right rfl ByteArray.size_append
  unfold decodeSig
  rw [if_neg fun h => by omega, if_pos hfront, hrest, String.fromUTF8?, dif_pos s.isValidUTF8]
  rfl

/-! ## Rows and bytes -/

/-- `csv.excel`, without its escape character and its other choices, which the machine has. -/
def excel : Csv.Dialect Char := ⟨',', '"', '\r', '\n', by decide⟩

/-- `csv.field_size_limit()`. -/
def fieldSizeLimit : ℕ := 131072

/-- Why a file is not read. -/
inductive FileError where
  | decode | csv (e : Csv.CsvError)
  deriving DecidableEq, Repr

/-- The bytes behind `csv.writer(f).writerows(rows)`. -/
def writeFile (rows : List (List String)) : ByteArray :=
  encodeSig (String.ofList (Csv.writerows excel (rows.map fun row => row.map String.toList)))

/-- The rows that `csv.reader` yields of the bytes. -/
def readFile (bytes : ByteArray) : Except FileError (List (List String)) :=
  match decodeSig bytes with
  | none => .error .decode
  | some s =>
      match Csv.reader excel fieldSizeLimit (Csv.fileLines excel s.toList) with
      | .error e => .error (.csv e)
      | .ok rows => .ok (rows.map fun row => row.map String.ofList)

/-- The reader takes every cell of the row. -/
def Short (row : List String) : Prop := ∀ cell ∈ row, cell.length ≤ fieldSizeLimit

instance (row : List String) : Decidable (Short row) :=
  inferInstanceAs (Decidable (∀ cell ∈ row, cell.length ≤ fieldSizeLimit))

/-- **The rows of a file come back**, whatever characters they have, and are all refused when a cell
is too long. -/
theorem readFile_writeFile (rows : List (List String)) :
    readFile (writeFile rows) =
      if ∀ row ∈ rows, Short row then .ok rows else .error (.csv .fieldTooLong) := by
  have hback : (rows.map fun row => row.map String.toList).map
      (fun row => row.map String.ofList) = rows := by
    simp only [List.map_map, Function.comp_def, String.ofList_toList, List.map_id']
  have hshort : (∀ row ∈ rows.map fun row => row.map String.toList, ∀ field ∈ row,
      field.length ≤ fieldSizeLimit) ↔ ∀ row ∈ rows, Short row := by
    simp only [List.forall_mem_map, Short, String.length_toList]
  unfold readFile writeFile
  rw [decodeSig_encodeSig]
  dsimp only
  rw [String.toList_ofList, Csv.reader_writerows, if_congr hshort rfl rfl]
  by_cases h : ∀ row ∈ rows, Short row
  · rw [if_pos h, if_pos h]
    dsimp only
    rw [hback]
  · rw [if_neg h, if_neg h]

/-! ## An exported dataset -/

/-- The file that `export_dataset` writes. -/
def exportFile (t : MemberTables) (account : Option AccountId) (d : DatasetId) : ByteArray :=
  writeFile (exportDataset t account d)

/-- The rows of a file that `import_dataset` hands to the ingest. -/
def importedMembers (bytes : ByteArray) : Except FileError (List Members.Member) :=
  (readFile bytes).map fun file => (dictReader file).filterMap importRow

/-- **The members of an exported file** are those of the dataset, each with the columns that are
read back, in the order of their ids.  A member with a cell that is too long keeps all the others
from being imported. -/
theorem members_of_exportFile (t : MemberTables) (account : Option AccountId) (d : DatasetId) :
    importedMembers (exportFile t account d) =
      if ∀ r ∈ datasetRows t d, Short (rowValues t account r).cells then
        .ok ((datasetRows t d).filterMap (importMember t account))
      else .error (.csv .fieldTooLong) := by
  have hheaders : Short headers := by decide
  have hshort : (∀ row ∈ exportDataset t account d, Short row) ↔
      ∀ r ∈ datasetRows t d, Short (rowValues t account r).cells := by
    rw [exportDataset, flatten_iterDatasetRows, List.drop_zero, List.forall_mem_cons,
      and_iff_right hheaders, List.forall_mem_map]
  unfold importedMembers exportFile
  rw [readFile_writeFile, if_congr hshort rfl rfl]
  split_ifs
  · exact congrArg Except.ok (filterMap_importRow_exportDataset t account d)
  · rfl

/-- Two files are the same when their rows are. -/
theorem writeFile_inj {rows rows' : List (List String)} (h : writeFile rows = writeFile rows') :
    rows = rows' := by
  have htext := congrArg decodeSig h
  unfold writeFile at htext
  rw [decodeSig_encodeSig, decodeSig_encodeSig, Option.some.injEq, String.ofList_inj] at htext
  -- a reader with a limit above all the cells takes both
  let cells (rows : List (List String)) := rows.map fun row => row.map String.toList
  let long (rows : List (List String)) := ((cells rows).flatten.map List.length).sum
  have hlong : ∀ rows : List (List String), ∀ row ∈ cells rows, ∀ field ∈ row,
      field.length ≤ long rows := by
    intro rows row hrow field hfield
    exact List.single_le_sum (fun _ _ => Nat.zero_le _) _
      (List.mem_map_of_mem (List.mem_flatten.mpr ⟨row, hrow, hfield⟩))
  have hread : ∀ limit, Csv.reader excel limit (Csv.fileLines excel (Csv.writerows excel
      (cells rows))) = Csv.reader excel limit (Csv.fileLines excel (Csv.writerows excel
      (cells rows'))) := fun limit => congrArg _ (congrArg _ htext)
  have h' := hread (long rows + long rows')
  rw [Csv.reader_writerows, Csv.reader_writerows,
    if_pos fun row hrow field hfield =>
      Nat.le_trans (hlong rows row hrow field hfield) (Nat.le_add_right _ _),
    if_pos fun row hrow field hfield =>
      Nat.le_trans (hlong rows' row hrow field hfield) (Nat.le_add_left _ _)] at h'
  have hinj : Function.Injective fun row : List String => row.map String.toList :=
    List.map_injective_iff.mpr fun _ _ => String.toList_inj.mp
  exact List.map_injective_iff.mpr hinj (Except.ok.inj h')

/-! ## The results of a job -/

/-- A row of the query of `export_job_results`. -/
structure JobResult where
  ordinal : ℕ
  telegramUserId : Option ℤ
  username : Option String
  state : MigrationItemState
  attemptCount : ℕ
  lastErrorCode : Option InviteResultCode
  lastErrorText : Option String
  deriving DecidableEq, Repr

/-- The query of `export_job_results`: the items of the job by their ordinal, each with its
member. -/
def jobResults (items : ItemTable) (members : List Row) : List JobResult :=
  items.rows.filterMap fun item =>
    (members.find? fun m => m.id = item.memberId).map fun m =>
      { ordinal := item.ordinal
        telegramUserId := m.telegramUserId
        username := m.username
        state := item.state
        attemptCount := item.attemptCount
        lastErrorCode := item.lastErrorCode
        lastErrorText := item.lastErrorText }

/-- The text of a state. -/
def stateText : MigrationItemState → String
  | .ready => "READY"
  | .retry => "RETRY"
  | .success => "SUCCESS"
  | .skipped => "SKIPPED"
  | .failed => "FAILED"

/-- The text of an error code. -/
def codeText : InviteResultCode → String
  | .rateLimit => "RATE_LIMIT"
  | .rateLimitIndefinite => "RATE_LIMIT_INDEFINITE"
  | .privacy => "PRIVACY"
  | .alreadyMember => "ALREADY_MEMBER"
  | .notEligible => "NOT_ELIGIBLE"
  | .permission => "PERMISSION"
  | .auth => "AUTH"
  | .invalidUser => "INVALID_USER"
  | .networkTransient => "NETWORK_TRANSIENT"
  | .serverTransient => "SERVER_TRANSIENT"
  | .unknown => "UNKNOWN"

def resultHeaders : List String :=
  ["ordinal", "telegram_user_id", "username", "state", "attempt_count", "error_code", "error_text"]

/-- The cells that `csv.writer` writes for a result. -/
def JobResult.cells (r : JobResult) : List String :=
  [Nat.repr r.ordinal, (r.telegramUserId.map Int.repr).getD "", r.username.getD "",
    stateText r.state, Nat.repr r.attemptCount, (r.lastErrorCode.map codeText).getD "",
    r.lastErrorText.getD ""]

/-- The file that `export_job_results` writes. -/
def exportJobResults (items : ItemTable) (members : List Row) : ByteArray :=
  writeFile (resultHeaders :: (jobResults items members).map JobResult.cells)

/-- The results say the same, with a missing text for an empty one. -/
structure JobResult.Same (r r' : JobResult) : Prop where
  ordinal : r.ordinal = r'.ordinal
  telegramUserId : r.telegramUserId = r'.telegramUserId
  username : r.username.getD "" = r'.username.getD ""
  state : r.state = r'.state
  attemptCount : r.attemptCount = r'.attemptCount
  lastErrorCode : r.lastErrorCode = r'.lastErrorCode
  lastErrorText : r.lastErrorText.getD "" = r'.lastErrorText.getD ""

theorem repr_getD_inj {n n' : Option ℤ}
    (h : (n.map Int.repr).getD "" = (n'.map Int.repr).getD "") : n = n' := by
  rw [← int_cell n, ← int_cell n', h]

theorem codeText_inj {c c' : InviteResultCode} (h : codeText c = codeText c') : c = c' := by
  cases c <;> cases c' <;> first | rfl | exact absurd h (by decide)

theorem codeText_getD_inj {c c' : Option InviteResultCode}
    (h : (c.map codeText).getD "" = (c'.map codeText).getD "") : c = c' := by
  have hne : ∀ c, codeText c ≠ "" := fun c => by cases c <;> decide
  cases c with
  | none =>
      cases c' with
      | none => rfl
      | some c' => exact absurd h.symm (hne c')
  | some c =>
      cases c' with
      | none => exact absurd h (hne c)
      | some c' => rw [codeText_inj h]

theorem stateText_inj {s s' : MigrationItemState} (h : stateText s = stateText s') : s = s' := by
  cases s <;> cases s' <;> first | rfl | exact absurd h (by decide)

theorem JobResult.cells_eq_iff {r r' : JobResult} : r.cells = r'.cells ↔ r.Same r' := by
  constructor
  · intro h
    simp only [JobResult.cells, List.cons.injEq, and_true] at h
    obtain ⟨hordinal, huser, hname, hstate, hattempts, hcode, htext⟩ := h
    exact ⟨Nat.repr_injective hordinal, repr_getD_inj huser, hname, stateText_inj hstate,
      Nat.repr_injective hattempts, codeText_getD_inj hcode, htext⟩
  · intro h
    rw [JobResult.cells, JobResult.cells, h.ordinal, h.telegramUserId, h.username, h.state,
      h.attemptCount, h.lastErrorCode, h.lastErrorText]

/-- **A file of results** tells the results of all the items, one row for each: two jobs have the
same file only when their items have the same results in the same order. -/
theorem exportJobResults_eq_iff (items items' : ItemTable) (members members' : List Row) :
    exportJobResults items members = exportJobResults items' members' ↔
      List.Forall₂ JobResult.Same (jobResults items members) (jobResults items' members') := by
  constructor
  · intro h
    have hcells := (List.cons.inj (writeFile_inj h)).2
    rw [← List.forall₂_eq_eq_eq, List.forall₂_map_left_iff, List.forall₂_map_right_iff] at hcells
    exact hcells.imp fun _ _ => JobResult.cells_eq_iff.mp
  · intro h
    have hcells : (jobResults items members).map JobResult.cells =
        (jobResults items' members').map JobResult.cells := by
      rw [← List.forall₂_eq_eq_eq, List.forall₂_map_left_iff, List.forall₂_map_right_iff]
      exact h.imp fun _ _ => JobResult.cells_eq_iff.mpr
    unfold exportJobResults
    rw [hcells]

end ImportExport
end MigrationStudio
