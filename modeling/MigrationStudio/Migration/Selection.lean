import MigrationStudio.Datasets.Service
import MigrationStudio.Migration.PlanWrites
import MigrationStudio.Migration.Precheck

/-!
# `migration/planner.py`: the selection of the items

`create_plan` and `create_remove_plan` read the members of a dataset with the account's access
hashes, drop those that cannot or should not be planned, and hand the rest to `_persist`.

* `plannerRows`, `valid`: `_rows` and `_valid`.
* `selectItems`: the loop that both plans share; `createPlan`, `createRemovePlan`: the plans.
* `selectItems_sublist`, `planned_of_mem`: an item is a row of the dataset with a Telegram id, and
  each row gives at most one.
-/

namespace MigrationStudio
namespace Migration

open MigrationStudio.Core Members Telegram

/-- `TargetMemberState`. -/
inductive TargetMemberState where
  | knownAbsent | unknownTargetState
  deriving DecidableEq, Repr

/-- `FilterSpec`; the sets are lists. -/
structure FilterSpec where
  excludeBot : Bool := true
  excludeDeleted : Bool := true
  usernameRequired : Bool := false
  activity : List String := []
  source : List String := []
  excludeProcessed : List ℤ := []
  excludeTarget : List ℤ := []

/-- A row that `_rows` returns. -/
structure PlannerRow where
  id : MemberId
  telegramUserId : Option ℤ
  username : Option String
  bot : Bool
  deleted : Bool
  activityStatus : Option String
  accessHash : Option ℤ
  sourceLabels : Option String
  deriving DecidableEq, Repr

/-- `char(31)`. -/
def unitSeparator : Char := Char.ofNat 31

/-- `GROUP_CONCAT(lower(COALESCE(source_label,'')), char(31))` over the provenance of a member. -/
def groupConcat (t : MemberTables) (d : DatasetId) (id : MemberId) : Option String :=
  match t.provenance.filter fun p => p.datasetId = d ∧ p.memberId = id with
  | [] => none
  | ps => some (String.ofList (List.intercalate [unitSeparator]
      (ps.map fun p => (lower (p.sourceLabel.getD "")).toList)))

/-- `_rows`: the members of the dataset by id, with the hashes of the account. -/
def plannerRows (t : MemberTables) (account : AccountId) (d : DatasetId) : List PlannerRow :=
  (t.members.filter fun r => r.id ∈ t.memberIds d).map fun r =>
    { id := r.id
      telegramUserId := r.telegramUserId
      username := r.username
      bot := r.bot
      deleted := r.deleted
      activityStatus := r.activityStatus
      accessHash := r.telegramUserId.bind fun uid =>
        (t.peerCache account uid).bind PeerRow.accessHash
      sourceLabels := groupConcat t d r.id }

/-- `_valid`.  `pyLower` is Python's `str.lower`. -/
def valid (pyLower : String → String) (spec : FilterSpec) (row : PlannerRow) : Bool :=
  row.telegramUserId.isSome && row.accessHash.isSome &&
    !(spec.excludeBot && row.bot) && !(spec.excludeDeleted && row.deleted) &&
    !(spec.usernameRequired && (row.username.getD "" == "")) &&
    (spec.activity.isEmpty || spec.activity.contains (row.activityStatus.getD "")) &&
    (spec.source.isEmpty ||
      let allowed := spec.source.map fun value => pyLower (strip value)
      let present := (((row.sourceLabels.getD "").toList.splitOn unitSeparator).map
        String.ofList).filter (· ≠ "")
      present.any allowed.contains)

/-- The counters of the loop, the ids it has seen and the items it has selected. -/
structure Selecting where
  seen : List ℤ := []
  invalid : ℕ := 0
  filtered : ℕ := 0
  already : ℕ := 0
  items : List (MemberId × TargetMemberState) := []
  deriving DecidableEq, Repr

/-- One turn of the loop of a plan: a row without id or hash is invalid, one whose id has been seen
or that is to be skipped is filtered, and of the others those that `pick` gives a state are
items. -/
def selectOne (skip : PlannerRow → ℤ → Bool) (pick : ℤ → Option TargetMemberState)
    (s : Selecting) (row : PlannerRow) : Selecting :=
  match row.telegramUserId, row.accessHash with
  | some uid, some _ =>
      if s.seen.contains uid || skip row uid then { s with filtered := s.filtered + 1 }
      else
        match pick uid with
        | none => { s with seen := s.seen ++ [uid], already := s.already + 1 }
        | some state =>
            { s with seen := s.seen ++ [uid], items := s.items ++ [(row.id, state)] }
  | _, _ => { s with invalid := s.invalid + 1 }

/-- The loop of a plan. -/
def selectItems (skip : PlannerRow → ℤ → Bool) (pick : ℤ → Option TargetMemberState)
    (rows : List PlannerRow) : Selecting :=
  rows.foldl (selectOne skip pick) {}

/-- The loop of `create_plan`, with the set that `processed_user_ids_for_target` returns. -/
def createPlan (pyLower : String → String) (processed : List ℤ) (precheck : PrecheckResult)
    (spec : FilterSpec) (rows : List PlannerRow) : Selecting :=
  selectItems
    (fun row uid => !valid pyLower spec row || processed.contains uid ||
      spec.excludeProcessed.contains uid || spec.excludeTarget.contains uid)
    (fun uid =>
      if uid ∈ precheck.targetIds then none
      else if precheck.coverage = .complete then some .knownAbsent
      else some .unknownTargetState)
    rows

/-- The loop of `create_remove_plan`, which raises when the target could not be read. -/
def createRemovePlan (pyLower : String → String) (precheck : PrecheckResult) (spec : FilterSpec)
    (rows : List PlannerRow) : Option Selecting :=
  if precheck.coverage = .unavailable then none
  else
    some (selectItems (fun row _ => !valid pyLower spec row)
      (fun uid => if uid ∈ precheck.targetIds then some .knownAbsent else none) rows)

/-! ## What is selected -/

variable {skip : PlannerRow → ℤ → Bool} {pick : ℤ → Option TargetMemberState}

/-- **One turn** selects the row or nothing, and only a row with a Telegram id. -/
theorem items_selectOne (s : Selecting) (row : PlannerRow) :
    (selectOne skip pick s row).items = s.items ∨
      (row.telegramUserId.isSome ∧
        ∃ state, (selectOne skip pick s row).items = s.items ++ [(row.id, state)]) := by
  unfold selectOne
  split
  · rename_i uid hash huid hhash
    split_ifs with hskip
    · exact Or.inl rfl
    · split
      · exact Or.inl rfl
      · rename_i state _
        exact Or.inr ⟨by rw [huid]; rfl, state, rfl⟩
  · exact Or.inl rfl

theorem items_foldl (rows : List PlannerRow) (s : Selecting) :
    ∃ picked : List PlannerRow, picked.Sublist rows ∧ (∀ row ∈ picked, row.telegramUserId.isSome) ∧
      (rows.foldl (selectOne skip pick) s).items.map Prod.fst =
        s.items.map Prod.fst ++ picked.map PlannerRow.id := by
  induction rows generalizing s with
  | nil => exact ⟨[], List.Sublist.slnil, by simp, by simp⟩
  | cons row rows ih =>
      obtain ⟨picked, hsub, hsome, heq⟩ := ih (selectOne skip pick s row)
      rw [List.foldl_cons]
      rcases @items_selectOne skip pick s row with hsame | ⟨hrow, state, hone⟩
      · exact ⟨picked, hsub.cons row, hsome, by rw [heq, hsame]⟩
      · refine ⟨row :: picked, hsub.cons_cons row, ?_, ?_⟩
        · intro q hq
          rcases List.mem_cons.mp hq with rfl | hq
          · exact hrow
          · exact hsome q hq
        · rw [heq, hone]
          simp

/-- **A plan selects rows with a Telegram id**, in the order of the rows and each at most once. -/
theorem items_selectItems (rows : List PlannerRow) :
    ∃ picked : List PlannerRow, picked.Sublist rows ∧ (∀ row ∈ picked, row.telegramUserId.isSome) ∧
      (selectItems skip pick rows).items.map Prod.fst = picked.map PlannerRow.id := by
  obtain ⟨picked, hsub, hsome, heq⟩ := @items_foldl skip pick rows {}
  exact ⟨picked, hsub, hsome, by simpa [selectItems] using heq⟩

/-- The rows that the planner reads have different ids. -/
theorem nodup_plannerRows {t : MemberTables} (h : t.Sound) (account : AccountId)
    (d : DatasetId) : ((plannerRows t account d).map PlannerRow.id).Nodup := by
  have hids : (t.members.map Row.id).Nodup :=
    (List.pairwise_map.mpr h.ids).imp fun hlt => Nat.ne_of_lt hlt
  simp only [plannerRows, List.map_map]
  exact hids.sublist (List.filter_sublist.map Row.id)

/-- The selected items make a plan. -/
theorem nodup_selectItems {t : MemberTables} (h : t.Sound) (account : AccountId)
    (d : DatasetId) :
    ((selectItems skip pick (plannerRows t account d)).items.map Prod.fst).Nodup := by
  obtain ⟨picked, hsub, -, heq⟩ := @items_selectItems skip pick (plannerRows t account d)
  rw [heq]
  exact (nodup_plannerRows h account d).sublist (hsub.map PlannerRow.id)

/-- A selected member has a Telegram id. -/
theorem mem_selectItems {t : MemberTables} {account : AccountId} {d : DatasetId} {id : MemberId}
    (h : id ∈ (selectItems skip pick (plannerRows t account d)).items.map Prod.fst) :
    ∃ r ∈ t.members, r.id = id ∧ r.telegramUserId.isSome := by
  obtain ⟨picked, hsub, hsome, heq⟩ := @items_selectItems skip pick (plannerRows t account d)
  rw [heq] at h
  obtain ⟨row, hrow, rfl⟩ := List.mem_map.mp h
  obtain ⟨r, hr, rfl⟩ := List.mem_map.mp (hsub.subset hrow)
  exact ⟨r, (List.mem_filter.mp hr).1, rfl, hsome _ hrow⟩

end Migration
end MigrationStudio
