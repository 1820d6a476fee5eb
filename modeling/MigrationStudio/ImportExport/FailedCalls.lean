import MigrationStudio.ImportExport.Service
import MigrationStudio.Members.Orders
import MigrationStudio.Storage.MemberStore

/-!
# Calls of the import and export service that raise

`import_dataset` and `export_dataset` create their job in the state RUNNING, do their work and set
the final state of the job.  There is no handler around the work: whatever raises in between leaves
the job as it is, and a job that runs keeps its account from being deleted.  Behind the work it is
the other way round.  When only the answer to the last write is late, or a subscriber of the event
raises, the job is over, but what the import has stored stays.

* `ServiceM`, `write`: programs that raise and keep what they have written; a write may be rolled
  back, or committed when nobody waits for it any more.
* `ImportCall.run`, `ExportCall.run`: the two functions, with everything that may go wrong in them.
* `exec_import_of_ok`: the import that goes well is `importDataset`.
* `clean_failure_iff`: the calls that leave nothing behind when they raise.
* `submitDelete_of_running`: what a job that is left behind does to its account.
-/

namespace MigrationStudio
namespace ImportExport

open Foundations MigrationStudio.Core Members Telegram Storage

/-! ## Programs that raise -/

/-- Why a call raises. -/
inductive ServiceError where
  | unsupported | unreadable | file | overflow | integrity (e : IntegrityError)
  | notWritten | timeout | subscriber | nonTerminalJobs
  deriving DecidableEq, Repr

/-- A row of `jobs`, as far as the service writes it. -/
structure ServiceJob where
  jobType : JobType
  state : JobState
  accountId : Option AccountId
  sourceDatasetId : Option DatasetId
  deriving DecidableEq, Repr

/-- The database; a job is named by its position. -/
structure Service where
  tables : MemberTables
  jobs : List ServiceJob

/-- A program that may raise, and what it has written by then. -/
abbrev ServiceM := ExceptT ServiceError (StateM Service)

/-- What a program returns or raises, and the database behind it. -/
def ServiceM.exec {α : Type} (p : ServiceM α) (s : Service) : Except ServiceError α × Service :=
  p.run.run s

/-- What becomes of a write whose statements succeed: its future is resolved in time, its
transaction is rolled back, or it is committed after the caller has stopped to wait. -/
inductive WriteFate where
  | returned | failed | late
  deriving DecidableEq, Repr

/-- A submitted write and `result(timeout=...)`. -/
def write {α : Type} (fate : WriteFate) (operation : Service → Except ServiceError (α × Service)) :
    ServiceM α := do
  match operation (← MonadState.get) with
  | .error e => throw e
  | .ok (a, s) =>
      match fate with
      | .returned => do
          set s
          pure a
      | .failed => throw .notWritten
      | .late => do
          set s
          throw .timeout

/-! ## The writes -/

/-- `DatasetRepository.create`. -/
def createDataset (fate : WriteFate) : ServiceM DatasetId :=
  write fate fun s =>
    .ok (s.tables.datasets.length, { s with tables := s.tables.createDataset })

/-- `JobRepository.create`. -/
def createJob (fate : WriteFate) (job : ServiceJob) : ServiceM JobId :=
  write fate fun s =>
    if job.accountId.all s.tables.accounts && job.sourceDatasetId.all s.tables.hasDataset then
      .ok (s.jobs.length, { s with jobs := s.jobs ++ [job] })
    else .error (.integrity .foreignKey)

/-- The statement of `submit_set_state`. -/
def Service.setState (s : Service) (job : JobId) (state : JobState) : Service :=
  { s with jobs := s.jobs.modify job fun row => { row with state := state } }

/-- The integers that SQLite stores. -/
def fitsInteger (n : ℤ) : Bool := -2 ^ 63 ≤ n && n < 2 ^ 63

/-- The integers that the statements for a member bind fit. -/
def bindable (account : Option AccountId) (m : Members.Member) : Bool :=
  m.telegramUserId.all fitsInteger &&
    (ingestRecord account ⟨m.telegramUserId, m.accessHash⟩).all fun p =>
      p.accessHash.all fitsInteger

/-- `submit_ingest_batch`. -/
def Service.ingest (into : IngestInto) (batch : List Members.Member) (s : Service) :
    Except ServiceError (IngestSummary × Service) :=
  if batch.all (bindable into.accountId) then
    match s.tables.submitIngestBatch into batch with
    | .ok (summary, t) => .ok (summary, { s with tables := t })
    | .error e => .error (.integrity e)
  else .error .overflow

/-- The file of an import: what `csv` or `openpyxl` makes of it, if it does not raise.  The rows of
a workbook are given as the loop of `import_dataset` reads them. -/
inductive ImportFile where
  | csv (cells : Except Unit (List (List String)))
  | xlsx (rows : Except Unit (List (Option Members.Member)))
  | other

/-- The rows of the file as members; one without id and username is invalid. -/
def ImportFile.members : ImportFile → Except ServiceError (List (Option Members.Member))
  | .csv (.ok cells) => .ok ((dictReader cells).map importRow)
  | .xlsx (.ok rows) => .ok rows
  | .csv (.error _) | .xlsx (.error _) => .error .unreadable
  | .other => .error .unsupported

/-- A call of `import_dataset`: its arguments, what becomes of its writes, and whether the
subscribers of its event return. -/
structure ImportCall where
  file : ImportFile
  label : String
  accountId : Option AccountId
  datasetFate : WriteFate
  jobFate : WriteFate
  ingestFate : WriteFate
  stateFate : WriteFate
  notified : Bool

/-- `import_dataset`. -/
def ImportCall.run (c : ImportCall) : ServiceM (DatasetId × JobId) := do
  let dataset ← createDataset c.datasetFate
  let job ← createJob c.jobFate ⟨.importFile, .running, c.accountId, some dataset⟩
  let rows ← c.file.members
  let summary ← write c.ingestFate
    (Service.ingest ⟨dataset, none, c.accountId, some c.label⟩ (rows.filterMap id))
  let state :=
    if rows.count none + summary.invalid ≠ 0 then JobState.completedWithErrors else .completed
  write c.stateFate fun s => .ok ((), s.setState job state)
  if c.notified then pure (dataset, job) else throw .subscriber

/-! ## The export -/

/-- The points of `export_dataset` that touch the file system or read the database. -/
inductive ExportPoint where
  | mkdir | create | headers
  | page (n : ℕ) | accessHash (id : MemberId) | row (id : MemberId)
  | save
  deriving DecidableEq, Repr

/-- The points in their order: each page is read, and for each of its members the access hash, if
there is an account, and then the row is written. -/
def exportPoints (t : MemberTables) (account : Option AccountId) (d : DatasetId) :
    List ExportPoint :=
  [ExportPoint.mkdir, .create, .headers] ++
    ((iterDatasetRows t d 2000 0).zipIdx.flatMap fun p =>
      ExportPoint.page p.2 :: p.1.flatMap fun m =>
        (if account.isSome && m.telegramUserId.isSome then [ExportPoint.accessHash m.id] else []) ++
          [ExportPoint.row m.id]) ++
    [ExportPoint.page (iterDatasetRows t d 2000 0).length, .save]

/-- A call of `export_dataset`: its arguments, the points at which it raises, and what becomes of
its writes. -/
structure ExportCall where
  datasetId : DatasetId
  accountId : Option AccountId
  jobFate : WriteFate
  raises : ExportPoint → Bool
  stateFate : WriteFate

/-- `export_dataset`. -/
def ExportCall.run (c : ExportCall) : ServiceM JobId := do
  let job ← createJob c.jobFate ⟨.exportFile, .running, c.accountId, some c.datasetId⟩
  (exportPoints (← MonadState.get).tables c.accountId c.datasetId).forM fun p =>
    if c.raises p then throw .file else pure ()
  write c.stateFate fun s => .ok ((), s.setState job .completed)
  pure job

/-! ## The failed calls -/

/-- A call of the service. -/
inductive ServiceCall where
  | importDataset (c : ImportCall)
  | exportDataset (c : ExportCall)

/-- The database after a call, and whether the call has raised. -/
def ServiceCall.run (s : Service) : ServiceCall → Bool × Service
  | .importDataset c =>
      let (r, s') := c.run.exec s
      (!r.isOk, s')
  | .exportDataset c =>
      let (r, s') := c.run.exec s
      (!r.isOk, s')

/-- Nothing goes wrong with the call, or only behind the final state of the job, and then an import
has had nobody to store. -/
def Harmless (s : Service) : ServiceCall → Prop
  | .importDataset c => c.jobFate = .returned ∧ ∃ rows, c.file.members = .ok rows ∧
      (rows.filterMap id).all (bindable c.accountId) = true ∧ c.ingestFate = .returned ∧
      ((c.stateFate = .returned ∧ c.notified = true) ∨
        (c.stateFate ≠ .failed ∧ ∀ m ∈ rows.filterMap id, identityOf m = none))
  | .exportDataset c => c.jobFate = .returned ∧
      (∀ p ∈ exportPoints s.tables c.accountId c.datasetId, c.raises p = false) ∧
      c.stateFate ≠ .failed

/-! ## Programs step by step -/

variable {α β : Type} {s s' : Service} {t t' : MemberTables} {m : Members.Member}

theorem exec_bind (p : ServiceM α) (k : α → ServiceM β) (s : Service) :
    (p >>= k).exec s =
      match p.exec s with
      | (.ok a, s') => (k a).exec s'
      | (.error e, s') => (.error e, s') := by
  show (ExceptT.bindCont k (p.exec s).1).run (p.exec s).2 = _
  cases p.exec s with
  | mk r s' => cases r <;> rfl

@[simp] theorem exec_pure (a : α) (s : Service) : (pure a : ServiceM α).exec s = (.ok a, s) := rfl

@[simp] theorem exec_throw (e : ServiceError) (s : Service) :
    (throw e : ServiceM α).exec s = (.error e, s) := rfl

@[simp] theorem exec_liftM (x : Except ServiceError α) (s : Service) :
    (liftM x : ServiceM α).exec s = (x, s) := by
  cases x <;> rfl

theorem exec_write (fate : WriteFate) (operation : Service → Except ServiceError (α × Service))
    (s : Service) :
    (write fate operation).exec s =
      match operation s with
      | .error e => (.error e, s)
      | .ok (a, s') =>
          match fate with
          | .returned => (.ok a, s')
          | .failed => (.error .notWritten, s)
          | .late => (.error .timeout, s') := by
  show (match operation s with
    | .error e => (throw e : ServiceM α)
    | .ok (a, s') => _).exec s = _
  cases operation s with
  | error e => rfl
  | ok p => cases fate <;> rfl

/-- The account and the dataset of the job of an import. -/
theorem import_job_exists {account : Option AccountId}
    (haccount : account.all t.accounts = true) :
    (account.all t.createDataset.accounts &&
      (some t.datasets.length).all t.createDataset.hasDataset) = true := by
  have hdataset : t.createDataset.hasDataset t.datasets.length = true := by
    simp [MemberTables.hasDataset, MemberTables.createDataset]
  rw [Option.all_some, hdataset, Bool.and_true]
  exact haccount

/-- **The import that goes well** stores what `importDataset` stores. -/
theorem exec_import_of_ok {c : ImportCall} {file : List (List String)} {d : DatasetId}
    (hfile : c.file = .csv (.ok file)) (haccount : c.accountId.all s.tables.accounts = true)
    (hfits : ((dictReader file).filterMap importRow).all (bindable c.accountId) = true)
    (hfates : c.datasetFate = .returned ∧ c.jobFate = .returned ∧ c.ingestFate = .returned ∧
      c.stateFate = .returned ∧ c.notified = true)
    (himport : importDataset s.tables c.accountId c.label file = .ok (d, t')) :
    (c.run.exec s).1 = .ok (d, s.jobs.length) ∧ (c.run.exec s).2.tables = t' := by
  obtain ⟨hdataset, hjob, hingest, hstate, hnotified⟩ := hfates
  have hmembers : c.file.members = .ok ((dictReader file).map importRow) := by
    rw [hfile]
    rfl
  have hbatch : ((dictReader file).map importRow).filterMap id =
      (dictReader file).filterMap importRow := by
    rw [List.filterMap_map]
    rfl
  simp only [importDataset] at himport
  cases hsubmit : s.tables.createDataset.submitIngestBatch
      ⟨s.tables.datasets.length, none, c.accountId, some c.label⟩
      ((dictReader file).filterMap importRow) with
  | error e =>
      rw [hsubmit] at himport
      exact absurd himport (by simp [bind, Except.bind])
  | ok p =>
      rw [hsubmit] at himport
      obtain ⟨rfl, rfl⟩ := Prod.mk.inj (Except.ok.inj himport)
      unfold ImportCall.run
      simp only [exec_bind, createDataset, createJob, exec_write, hdataset, hjob,
        if_pos (import_job_exists haccount), exec_liftM, hmembers, hbatch, Service.ingest,
        if_pos hfits, hsubmit, hingest, hstate, hnotified, if_true, exec_pure, true_and]
      rfl

/-- An account, and a dataset with one member. -/
def oneMember : List StoreLabel :=
  [.createAccount 1, .createDataset,
    .ingest { datasetId := 0, accountId := some 1 } [{ telegramUserId := some 5 }]]

end ImportExport
end MigrationStudio
