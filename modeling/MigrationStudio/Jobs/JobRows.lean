import MigrationStudio.Foundations.KeyedRows
import MigrationStudio.Jobs.CheckpointText
import MigrationStudio.Jobs.Repository

/-!
# `jobs/repository.py`: the columns of a job

The rows of `jobs` as the columns that they are stored in: `waiting_until` is any text,
`checkpoint_json` NULL or the bytes of any text, and the time stamps are the text of
CURRENT_TIMESTAMP.  `Job` keeps of these what the executor writes there.

* `JobRow.setState`: the columns that `submit_set_state` sets.
* `JobTables.updateJob`: an UPDATE of one row, with what is read afterwards.
-/

namespace MigrationStudio
namespace Jobs

open MigrationStudio.Core Foundations

/-- A row of `jobs`. -/
structure JobRow where
  id : JobId
  jobType : JobType
  state : JobState
  accountId : Option AccountId := none
  sourceDatasetId : Option ℕ := none
  targetGroupId : Option GroupId := none
  counters : Counters := ⟨0, 0, 0, 0, 0⟩
  waitingUntil : Option String := none
  checkpointJson : CheckpointColumn := none
  createdAt : String := ""
  startedAt : Option String := none
  finishedAt : Option String := none
  updatedAt : String := ""

namespace JobRow

/-- The UPDATE of `submit_set_state`, when CURRENT_TIMESTAMP is `stamp`; `checkpoint` is what
`json.dumps` makes of a checkpoint that is given. -/
def setState (row : JobRow) (stamp : String) (state : JobState)
    (waitingUntil : Option String := none) (checkpoint : CheckpointColumn := none)
    (clearWaiting : Bool := false) : JobRow :=
  { row with
    state := state
    updatedAt := stamp
    waitingUntil := if waitingUntil.isSome || clearWaiting then waitingUntil else row.waitingUntil
    checkpointJson := if checkpoint.isSome then checkpoint else row.checkpointJson
    startedAt := if state = .running then row.startedAt.or (some stamp) else row.startedAt
    finishedAt := if state.terminal then some stamp else row.finishedAt }

end JobRow

/-- The tables `jobs`, by id, and `migration_items`. -/
structure JobTables where
  jobs : List JobRow
  items : List (JobId × Item)
  sorted : jobs.Pairwise fun a b => a.id < b.id

namespace JobTables

/-- `get`. -/
def get (t : JobTables) (id : JobId) : Option JobRow := t.jobs.find? fun row => row.id = id

/-- An UPDATE of the row with the id. -/
def updateJob (t : JobTables) (id : JobId) (f : JobRow → JobRow) (hf : ∀ row, (f row).id = row.id) :
    JobTables where
  jobs := t.jobs.map fun row => if row.id = id then f row else row
  items := t.items
  sorted := by
    rw [List.pairwise_map]
    refine t.sorted.imp fun {a b} hab => ?_
    have hid : ∀ row : JobRow, (if row.id = id then f row else row).id = row.id := by
      intro row
      split_ifs
      · exact hf row
      · rfl
    rw [hid, hid]
    exact hab

theorem uniqueKeys (t : JobTables) : UniqueKeys JobRow.id t.jobs :=
  List.pairwise_map.mpr (t.sorted.imp Nat.ne_of_lt)

theorem get_eq_some {t : JobTables} {id : JobId} {row : JobRow} :
    t.get id = some row ↔ row ∈ t.jobs ∧ row.id = id :=
  t.uniqueKeys.find?_eq_some_iff

end JobTables
end Jobs
end MigrationStudio
