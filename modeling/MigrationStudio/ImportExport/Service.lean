import Mathlib
import MigrationStudio.Datasets.Service

/-!
# `import_export/service.py`

`export_dataset` writes the members of a dataset to a CSV file, ten columns a member, and
`import_dataset` makes a dataset of the rows of such a file.  The `csv` module writes `None` as an
empty cell and any other value as its text, and reads back the cells that it wrote.

* `page`, `iterDatasetRows`: how the members of a dataset are read; `flatten_iterDatasetRows`.
* `rowValues`, `exportDataset`, `dictReader`, `importRow`, `importDataset`: the service.
* `importRow_cells`: the member that an exported row is read back as.

That the text of an integer is read back, `Int.toInt?_repr`, comes with Mathlib as a whole only.
-/

namespace MigrationStudio
namespace ImportExport

open MigrationStudio.Core Members Telegram
open Members.MemberTables (InDataset)

variable {t : MemberTables} {d : DatasetId}

/-! ## Reading a dataset -/

/-- The members of a dataset, ordered by their id. -/
def datasetRows (t : MemberTables) (d : DatasetId) : List Row :=
  t.members.filter fun r => r.id ∈ t.memberIds d

/-- `page` of a dataset, without the total. -/
def page (t : MemberTables) (offset limit : ℤ) (d : DatasetId) : List Row :=
  ((datasetRows t d).drop (max 0 offset).toNat).take (max 1 (min 1000 limit)).toNat

theorem lt_length_of_page {offset : ℕ} {limit : ℤ} {row : Row} {rows : List Row}
    (h : page t offset limit d = row :: rows) : offset < (datasetRows t d).length := by
  by_contra hle
  have hdrop : (datasetRows t d).drop (max 0 (offset : ℤ)).toNat = [] :=
    List.drop_eq_nil_of_le (by omega)
  rw [page, hdrop, List.take_nil] at h
  exact absurd h (by simp)

/-- The pages that `iter_dataset_rows` yields from an offset on. -/
def iterDatasetRows (t : MemberTables) (d : DatasetId) (chunkSize : ℤ) (offset : ℕ) :
    List (List Row) :=
  match h : page t offset chunkSize d with
  | [] => []
  | row :: rows =>
      (row :: rows) :: iterDatasetRows t d chunkSize (offset + (rows.length + 1))
termination_by (datasetRows t d).length - offset
decreasing_by
  have hlt := lt_length_of_page h
  omega

theorem take_append_drop_length_take {α : Type*} (l : List α) (n : ℕ) :
    l.take n ++ l.drop (l.take n).length = l := by
  rw [List.length_take]
  rcases Nat.le_total n l.length with hle | hle
  · rw [Nat.min_eq_left hle, List.take_append_drop]
  · rw [Nat.min_eq_right hle, List.take_of_length_le hle, List.drop_length, List.append_nil]

/-- **The pages together** are the members from the offset on, whatever the size asked for. -/
theorem flatten_iterDatasetRows (t : MemberTables) (d : DatasetId) (chunkSize : ℤ) (offset : ℕ) :
    (iterDatasetRows t d chunkSize offset).flatten = (datasetRows t d).drop offset := by
  induction offset using iterDatasetRows.induct t d chunkSize with
  | case1 offset hpage =>
      rw [iterDatasetRows]
      split
      · rw [page, List.take_eq_nil_iff] at hpage
        rcases hpage with hzero | hnil
        · omega
        · simpa using hnil
      · rename_i heq
        rw [hpage] at heq
        exact absurd heq (by simp)
  | case2 offset row rows hpage ih =>
      rw [iterDatasetRows]
      split
      · rename_i heq
        rw [hpage] at heq
        exact absurd heq (by simp)
      · rename_i row' rows' heq
        rw [hpage] at heq
        obtain ⟨rfl, rfl⟩ := List.cons.inj heq
        rw [List.flatten_cons, ih]
        have htake : (row :: rows) = ((datasetRows t d).drop offset).take
            (max 1 (min 1000 chunkSize)).toNat := by
          rw [← hpage, page]
          simp
        have hlen : rows.length + 1 = (((datasetRows t d).drop offset).take
            (max 1 (min 1000 chunkSize)).toNat).length := by
          rw [← htake]
          rfl
        rw [← List.drop_drop, hlen, htake]
        exact take_append_drop_length_take _ _

/-! ## The export -/

/-- The values of the ten columns for a member. -/
structure ExportValues where
  userId : Option ℤ
  accessHash : Option ℤ
  username : Option String
  firstName : Option String
  lastName : Option String
  phone : Option String
  bot : Bool
  deleted : Bool
  activityStatus : Option String
  lastSeen : Option String
  deriving DecidableEq, Repr

/-- The access hash that an account has for a user. -/
def accessOf (t : MemberTables) (account : Option AccountId) (uid : Option ℤ) : Option ℤ :=
  match account, uid with
  | some a, some x => (t.peerCache a x).bind PeerRow.accessHash
  | _, _ => none

/-- `row_values`. -/
def rowValues (t : MemberTables) (account : Option AccountId) (m : Row) : ExportValues where
  userId := m.telegramUserId
  accessHash := accessOf t account m.telegramUserId
  username := m.username
  firstName := m.firstName
  lastName := m.lastName
  phone := m.phone
  bot := m.bot
  deleted := m.deleted
  activityStatus := m.activityStatus
  lastSeen := m.lastSeen

def headers : List String :=
  ["user_id", "access_hash", "username", "first_name", "last_name", "phone", "bot", "deleted",
    "activity_status", "last_seen"]

/-- The cells that `csv.writer` writes for the values. -/
def ExportValues.cells (v : ExportValues) : List String :=
  [(v.userId.map Int.repr).getD "", (v.accessHash.map Int.repr).getD "", v.username.getD "",
    v.firstName.getD "", v.lastName.getD "", v.phone.getD "", Nat.repr v.bot.toNat,
    Nat.repr v.deleted.toNat, v.activityStatus.getD "", v.lastSeen.getD ""]

/-- The rows of the file that `export_dataset` writes. -/
def exportDataset (t : MemberTables) (account : Option AccountId) (d : DatasetId) :
    List (List String) :=
  headers :: ((iterDatasetRows t d 2000 0).flatten.map fun m => (rowValues t account m).cells)

/-! ## The import -/

/-- `csv.DictReader`: the first row names the cells of the others; a blank line is no row. -/
def dictReader : List (List String) → List (List (String × String))
  | [] => []
  | names :: rows => (rows.filter (· ≠ [])).map names.zip

/-- `r.get(name)`; the last cell of a name counts. -/
def get (r : List (String × String)) (name : String) : Option String := r.reverse.lookup name

/-- `str(v or '')`. -/
def text (v : Option String) : String := v.getD ""

/-- `s or None`. -/
def orNone (s : String) : Option String := if s = "" then none else some s

/-- `int(s)` of a stripped text; the digits of other scripts, which `int` reads too, and its limit
of 4300 digits are left out. -/
def parseInt (s : String) : Option ℤ :=
  match s.toList with
  | '+' :: digits => (String.ofList digits).toNat?.map Int.ofNat
  | _ => s.toInt?

/-- `_int`. -/
def int (v : Option String) : Option ℤ :=
  if text v = "" then none else parseInt (strip (text v))

/-- The member that `import_dataset` makes of a row; one without id and username is invalid. -/
def importRow (r : List (String × String)) : Option Members.Member :=
  let uid := int (if text (get r "user_id") = "" then get r "telegram_user_id" else get r "user_id")
  let username := orNone (lstripAt (strip (text (get r "username"))))
  let access := int (get r "access_hash")
  if uid = none ∧ username = none then none
  else
    some {
      telegramUserId := uid
      username := username
      firstName := orNone (text (get r "first_name"))
      lastName := orNone (text (get r "last_name"))
      phone := orNone (text (get r "phone"))
      accessHash := access }

/-- `import_dataset` of the rows of a CSV file, whose name is the label. -/
def importDataset (t : MemberTables) (account : Option AccountId) (label : String)
    (file : List (List String)) : Except IntegrityError (DatasetId × MemberTables) := do
  let new := t.datasets.length
  let (_, t') ← t.createDataset.submitIngestBatch
    { datasetId := new, accountId := account, sourceLabel := some label }
    ((dictReader file).filterMap importRow)
  pure (new, t')

/-! ## Reading an exported row back -/

theorem isSpace_eq_false_of_isDigit {c : Char} (h : c.isDigit = true) : isSpace c = false := by
  simp only [Char.isDigit, Bool.and_eq_true, decide_eq_true_eq, ge_iff_le] at h
  have hge : 48 ≤ c.toNat := h.1
  have hle : c.toNat ≤ 57 := h.2
  simp only [isSpace, Bool.or_eq_false_iff, Bool.and_eq_false_iff, decide_eq_false_iff_not]
  omega

theorem isDigit_or_minus_of_mem_repr {n : ℤ} {c : Char} (h : c ∈ n.repr.toList) :
    c.isDigit = true ∨ c = '-' := by
  have hnat : ∀ k : ℕ, c ∈ k.repr.toList → c.isDigit = true := by
    intro k hk
    rw [Nat.repr_eq_ofList_toDigits, String.toList_ofList] at hk
    exact Nat.isDigit_of_mem_toDigits (by decide) (by decide) hk
  rw [Int.repr_eq_if] at h
  split_ifs at h
  · exact Or.inl (hnat _ h)
  · rw [String.toList_append, List.mem_append] at h
    rcases h with h | h
    · exact Or.inr (by simpa using h)
    · exact Or.inl (hnat _ h)

theorem isSpace_of_mem_repr {n : ℤ} {c : Char} (h : c ∈ n.repr.toList) : isSpace c = false := by
  rcases isDigit_or_minus_of_mem_repr h with hdigit | rfl
  · exact isSpace_eq_false_of_isDigit hdigit
  · rfl

theorem strip_repr (n : ℤ) : strip n.repr = n.repr := by
  have hfirst : n.repr.toList.dropWhile isSpace = n.repr.toList := by
    rw [List.dropWhile_eq_self_iff]
    intro hlen
    rw [isSpace_of_mem_repr (List.getElem_mem hlen)]
    exact Bool.false_ne_true
  have hlast : n.repr.toList.rdropWhile isSpace = n.repr.toList := by
    rw [List.rdropWhile_eq_self_iff]
    intro hne
    rw [isSpace_of_mem_repr (List.getLast_mem hne)]
    exact Bool.false_ne_true
  rw [strip, hfirst, hlast, String.ofList_toList]

theorem parseInt_repr (n : ℤ) : parseInt n.repr = some n := by
  unfold parseInt
  split
  · rename_i digits hplus
    have hmem : '+' ∈ n.repr.toList := by
      rw [hplus]
      exact List.mem_cons_self ..
    rcases isDigit_or_minus_of_mem_repr hmem with hdigit | hminus
    · exact absurd hdigit (by decide)
    · exact absurd hminus (by decide)
  · exact Int.toInt?_repr n

/-- **An id survives**: the text of an integer is read as the integer. -/
theorem int_repr (n : ℤ) : int (some n.repr) = some n := by
  have hne : n.repr ≠ "" := by
    rw [Int.repr_eq_if]
    split_ifs
    · exact Nat.repr_ne_empty
    · simp
  rw [int, text, Option.getD_some, if_neg hne, strip_repr, parseInt_repr]

/-- The member that an exported row is read back as. -/
def importMember (t : MemberTables) (account : Option AccountId) (r : Row) :
    Option Members.Member :=
  if r.telegramUserId = none ∧ cleanUsername r.username = none then none
  else
    some {
      telegramUserId := r.telegramUserId
      username := cleanUsername r.username
      firstName := r.firstName.filter (· ≠ "")
      lastName := r.lastName.filter (· ≠ "")
      phone := r.phone.filter (· ≠ "")
      accessHash := accessOf t account r.telegramUserId }

theorem orNone_getD (v : Option String) : orNone (v.getD "") = v.filter (· ≠ "") := by
  cases v with
  | none => rfl
  | some u => simp [orNone, Option.filter_some]

theorem orNone_strip (v : Option String) :
    orNone (lstripAt (strip (v.getD ""))) = cleanUsername v := by
  cases v with
  | none => rfl
  | some u =>
      simp only [Option.getD_some, cleanUsername]
      split_ifs with hempty hclean
      · rw [hempty]
        rfl
      · rw [hclean]
        rfl
      · rw [orNone, if_neg hclean]

theorem int_cell (v : Option ℤ) : int (some ((v.map Int.repr).getD "")) = v := by
  cases v with
  | none => rfl
  | some n => exact int_repr n

/-- **An exported row is read back** as the member with its ids and its cleaned texts; the other
four columns are not read. -/
theorem importRow_cells (account : Option AccountId) (r : Row) :
    importRow (headers.zip (rowValues t account r).cells) = importMember t account r := by
  have huser : int (if text (get (headers.zip (rowValues t account r).cells) "user_id") = "" then
      get (headers.zip (rowValues t account r).cells) "telegram_user_id"
      else get (headers.zip (rowValues t account r).cells) "user_id") = r.telegramUserId := by
    show int (if (r.telegramUserId.map Int.repr).getD "" = "" then none
      else some ((r.telegramUserId.map Int.repr).getD "")) = _
    split_ifs with hempty
    · rw [← int_cell r.telegramUserId, hempty]
      rfl
    · exact int_cell r.telegramUserId
  have hname : orNone (lstripAt (strip (text (get (headers.zip (rowValues t account r).cells)
      "username")))) = cleanUsername r.username := orNone_strip r.username
  have hhash : int (get (headers.zip (rowValues t account r).cells) "access_hash") =
      accessOf t account r.telegramUserId := int_cell _
  have hfirst : orNone (text (get (headers.zip (rowValues t account r).cells) "first_name")) =
      r.firstName.filter (· ≠ "") := orNone_getD r.firstName
  have hlast : orNone (text (get (headers.zip (rowValues t account r).cells) "last_name")) =
      r.lastName.filter (· ≠ "") := orNone_getD r.lastName
  have hphone : orNone (text (get (headers.zip (rowValues t account r).cells) "phone")) =
      r.phone.filter (· ≠ "") := orNone_getD r.phone
  simp only [importRow, importMember, huser, hname, hhash, hfirst, hlast, hphone]

/-- The members of the file that `export_dataset` writes. -/
theorem filterMap_importRow_exportDataset (t : MemberTables) (account : Option AccountId)
    (d : DatasetId) :
    (dictReader (exportDataset t account d)).filterMap importRow =
      (datasetRows t d).filterMap (importMember t account) := by
  have hrows : ((datasetRows t d).map fun m => (rowValues t account m).cells).filter (· ≠ []) =
      (datasetRows t d).map fun m => (rowValues t account m).cells := by
    rw [List.filter_eq_self]
    intro row hrow
    obtain ⟨m, -, rfl⟩ := List.mem_map.mp hrow
    rfl
  rw [exportDataset, flatten_iterDatasetRows, List.drop_zero, dictReader, hrows, List.map_map,
    List.filterMap_map]
  exact List.filterMap_congr fun r _ => importRow_cells account r

end ImportExport
end MigrationStudio
