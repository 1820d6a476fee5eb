import MigrationStudio.Storage.Database

/-!
# `migration/planner.py`: the job that a plan leaves

`create_plan` and `create_remove_plan` select the items and hand them to `_persist`, which creates
the job, adds the items and writes the checkpoint, each in a critical task that it waits for.  The
job is on offer to the user when all three are committed.

* `persist`: the job with its items and its checkpoint.
* `consistent_persist`, `pending_persist`: it is consistent, and all of its items are pending.
-/

namespace MigrationStudio
namespace Migration

open MigrationStudio.Core Jobs

/-- `submit_add_items`: the items by their position in the list. -/
def addItems (members : List MemberId) : ItemTable where
  rows := members.zipIdx.map fun p => ⟨p.2, p.1, .ready, 0, none, none, none⟩
  sorted := by
    rw [List.pairwise_map]
    have hidx : (members.zipIdx.map Prod.snd).Pairwise (· < ·) := by
      rw [List.zipIdx_map_snd]
      exact List.pairwise_lt_range'
    exact List.pairwise_map.mp hidx

/-- `_persist`, with the action that `create_plan` or `create_remove_plan` passes. -/
def persist (account : AccountId) (targetGroup : GroupId) (readyItems : List MemberId)
    (action : Action) : Job where
  jobType := .migration
  state := .ready
  accountId := some account
  targetGroupId := some targetGroup
  counters := ⟨readyItems.length, 0, 0, 0, 0⟩
  waitingUntil := none
  checkpoint := { action := some action }
  items := addItems readyItems

theorem state_addItems {members : List MemberId} {r : Item} (hr : r ∈ (addItems members).rows) :
    r.state = .ready := by
  obtain ⟨p, -, rfl⟩ := List.mem_map.mp hr
  rfl

@[simp] theorem length_addItems (members : List MemberId) :
    (addItems members).rows.length = members.length := by
  simp [addItems]

theorem count_addItems (members : List MemberId) {state : MigrationItemState}
    (h : state ≠ .ready) : (addItems members).count state = 0 := by
  rw [ItemTable.count, List.countP_eq_zero]
  intro r hr hstate
  rw [state_addItems hr, decide_eq_true_eq] at hstate
  exact h hstate.symm

/-- All items of a plan are pending. -/
theorem pending_persist (account : AccountId) (targetGroup : GroupId)
    (readyItems : List MemberId) (action : Action) :
    (persist account targetGroup readyItems action).pending =
      List.range readyItems.length := by
  have hall : (addItems readyItems).pendingRows = (addItems readyItems).rows := by
    rw [ItemTable.pendingRows, List.filter_eq_self]
    intro r hr
    rw [state_addItems hr]
    rfl
  have hpend : (persist account targetGroup readyItems action).pending =
      (addItems readyItems).rows.map Item.ordinal := congrArg (List.map Item.ordinal) hall
  rw [hpend, List.range_eq_range', ← List.zipIdx_map_snd 0 readyItems]
  simp only [addItems, List.map_map]
  rfl

theorem consistent_persist (account : AccountId) (targetGroup : GroupId)
    (readyItems : List MemberId) (action : Action) :
    (persist account targetGroup readyItems action).Consistent where
  counters := by
    simp [persist, Job.recount, count_addItems]
  checkpoint := fun k hk => absurd hk (by simp [persist])
  complete := fun h => absurd h (by simp [persist, Job.Complete])

end Migration
end MigrationStudio
