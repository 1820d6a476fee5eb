import MigrationStudio.Accounts.Repository
import MigrationStudio.Jobs.Repository
import MigrationStudio.Runtime.DBWriter
import MigrationStudio.Telegram.PeerCache

/-!
# The database, its readers and the tasks of the write lane

`Database` holds the tables that the migration reads and writes; a job is named by its position.
The readers are those that open their own connection and see what is committed.  The tasks of the
lane are the writes of the jobs and the writes of the other components, which share the lane and
its batches; a task may raise, with the text of the exception.

`journal` is no table: it is the list of the job writes committed so far, which a rollback takes
back with the rest.  Statements about what happened to a job read it.
-/

namespace MigrationStudio
namespace Storage

open MigrationStudio.Core Accounts Jobs Telegram MigrationStudio.Runtime

/-- The tables, and the journal of the committed writes of the jobs, each with the row it left. -/
structure Database where
  jobs : List Job
  accounts : AccountId → Option Account
  restrictions : List Restriction
  peers : PeerTables
  journal : List (JobId × JobWrite × Job)

/-- What a task of the lane does to the database.  `peers`, `enable` and `identity` are the writes
of the other components to what the migration reads, `other` any write to the rest. -/
inductive LaneWrite where
  | job (id : JobId) (w : JobWrite)
  | account (id : AccountId) (state : AccountState) (error : Option String)
  | restriction (r : Restriction)
  | peers (w : PeerWrite)
  | enable (id : AccountId) (enabled : Bool)
  | identity (id : AccountId)
  | other

/-- A task of the lane: the write, the `critical` argument, and the exception that its operation
raises, if it does. -/
structure WriteTask where
  write : LaneWrite
  critical : Bool
  fails : Option String

/-- The lane's tasks submitted by an executor of the job `id`. -/
def LaneWrite.ofJob (id : JobId) : LaneWrite → Option JobWrite
  | job j w => if j = id then some w else none
  | _ => none

namespace Database

/-- The row of a job after a write, and the entry in the journal. -/
def applyJob (db : Database) (id : JobId) (w : JobWrite) : Database :=
  match db.jobs[id]? with
  | none => db
  | some job =>
      { db with
        jobs := db.jobs.set id (job.apply w)
        journal := db.journal ++ [(id, w, job.apply w)] }

/-- The statements of a write. -/
def apply (db : Database) : LaneWrite → Database
  | .job id w => db.applyJob id w
  | .account id state error =>
      { db with
        accounts := Function.update db.accounts id
          ((db.accounts id).map fun a => a.setState state error) }
  | .restriction r => { db with restrictions := submitRestriction db.restrictions r }
  | .peers w => { db with peers := w.apply db.peers }
  | .enable id enabled =>
      { db with
        accounts := Function.update db.accounts id
          ((db.accounts id).map fun a => a.setEnabled enabled) }
  | .identity id =>
      { db with
        accounts := Function.update db.accounts id ((db.accounts id).map Account.signedIn) }
  | .other => db

/-! ## The readers -/

/-- A row of `pending_chunk`: the item joined with its member and the account's access hash. -/
structure CandidateRow where
  ordinal : ℕ
  attemptCount : ℕ
  telegramUserId : Option ℤ
  accountAccessHash : Option ℤ
  deriving DecidableEq, Repr

/-- `JobRepository.pending_chunk`. -/
def pendingChunk (db : Database) (id : JobId) (account : AccountId) (lastOrdinal : ℤ)
    (limit : ℕ) : List CandidateRow :=
  match db.jobs[id]? with
  | none => []
  | some job =>
      ((job.items.pendingRows.filter fun r => lastOrdinal < (r.ordinal : ℤ)).take limit).map
        fun r =>
          ⟨r.ordinal, r.attemptCount, db.peers.members r.memberId,
            db.peers.peerHash account (db.peers.members r.memberId)⟩

/-- The latest `waiting_until` of the account's jobs whose state `shows` it. -/
def waitingUntil (db : Database) (shows : JobState → Bool) (account : AccountId) : Option ℕ :=
  ((db.jobs.filter fun job => job.accountId = some account && shows job.state).filterMap
    Job.waitingUntil).max?

/-- `V12JobRepository.account_waiting_until`, which the program uses. -/
def accountWaitingUntil (db : Database) (account : AccountId) : Option ℕ :=
  db.waitingUntil (fun state => state = .waitingServer) account

/-- `JobRepository.get_checkpoint`. -/
def getCheckpoint (db : Database) (id : JobId) : Checkpoint :=
  ((db.jobs[id]?).map Job.checkpoint).getD {}

/-- `JobRepository.summary`. -/
def summary (db : Database) (id : JobId) : Counters :=
  ((db.jobs[id]?).map Job.counters).getD ⟨0, 0, 0, 0, 0⟩

/-- `JobRepository.recoverable`. -/
def recoverable (db : Database) : List JobId :=
  (List.range db.jobs.length).filter fun id =>
    (db.jobs[id]?).any fun job =>
      job.state = .running || job.state = .waitingServer || job.state = .paused ||
        job.state = .rateLimited

end Database

/-- The lane over the database, with the default batch limit. -/
def lane : WriterSpec WriteTask Database String Unit where
  operation task db :=
    match task.fails with
    | some message => (db, .error message)
    | none => (db.apply task.write, .ok ())
  critical := WriteTask.critical
  batchLimit := 250

/-- The writer of the program. -/
abbrev Lane := DBWriter WriteTask Database String Unit

/-! ## What the writes leave alone -/

namespace Database

theorem jobs_applyJob (db : Database) (id : JobId) (w : JobWrite) (j : JobId) :
    (db.applyJob id w).jobs[j]? =
      if j = id then (db.jobs[j]?).map fun job => job.apply w else db.jobs[j]? := by
  cases h : db.jobs[id]? with
  | none =>
      have hsame : db.applyJob id w = db := by rw [applyJob, h]
      rw [hsame]
      split
      · rename_i hj
        rw [hj, h]
        rfl
      · rfl
  | some job =>
      have hjobs : (db.applyJob id w).jobs = db.jobs.set id (job.apply w) := by rw [applyJob, h]
      obtain ⟨hlt, -⟩ := List.getElem?_eq_some_iff.mp h
      rw [hjobs, List.getElem?_set]
      by_cases hj : id = j
      · subst hj
        rw [if_pos rfl, if_pos hlt, if_pos rfl, h, Option.map_some]
      · rw [if_neg hj, if_neg fun h' => hj h'.symm]

/-- A write changes the row of a job exactly when it is the job's own. -/
theorem jobs_apply (db : Database) (w : LaneWrite) (j : JobId) :
    (db.apply w).jobs[j]? =
      match w.ofJob j with
      | some jw => (db.jobs[j]?).map fun job => job.apply jw
      | none => db.jobs[j]? := by
  cases w with
  | job id jw =>
      rw [apply, jobs_applyJob, LaneWrite.ofJob]
      by_cases h : j = id
      · subst h
        simp
      · rw [if_neg h, if_neg fun h' => h h'.symm]
  | _ => rfl

end Database

end Storage
end MigrationStudio
