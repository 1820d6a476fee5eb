import MigrationStudio.ImportExport.Service
import MigrationStudio.Migration.PlanContents

/-!
# `members/filter_engine.py`

`FilterEngine.apply` filters a list of members as `create_plan` filters the rows of a dataset.  It
takes each person once, by the Telegram id or else by the username, and looks at no access hash and
no source.  Where every member has a Telegram id of its own and an access hash, and no source is
asked for, the two keep the same members.

* `identityKey`, `filterOne`, `filterEngine`: `identity_key`, and the loop of `apply`.
* `keeps`: the checks of the loop on a member that is not a repetition.
* `result_filterEngine`, `items_createPlan`: both loops, over distinct ids, are one filter.
* `filterEngine_agrees`: the two filters keep the same members of a dataset.
-/

namespace MigrationStudio
namespace Migration

open MigrationStudio.Core Members Telegram ImportExport

/-! ## The loop over members -/

/-- `identity_key`. -/
def identityKey (pyLower : String → String) (m : Members.Member) : Option (String × String) :=
  match m.telegramUserId with
  | some uid => some ("id", uid.repr)
  | none =>
      let username := m.username.getD ""
      if username = "" then none else some ("username", lstripAt (pyLower username))

/-- The checks of `apply` behind the one for a repetition. -/
def keeps (spec : FilterSpec) (m : Members.Member) : Bool :=
  !(spec.excludeBot && m.bot) && !(spec.excludeDeleted && m.deleted) &&
    !(spec.usernameRequired && (m.username.getD "" == "")) &&
    !(!spec.activity.isEmpty && !spec.activity.contains (m.activityStatus.getD "")) &&
    m.telegramUserId.all fun uid =>
      !spec.excludeProcessed.contains uid && !spec.excludeTarget.contains uid

/-- `result` and `seen`. -/
structure Filtering where
  result : List Members.Member := []
  seen : List (String × String) := []

/-- One turn of the loop. -/
def filterOne (pyLower : String → String) (spec : FilterSpec) (s : Filtering)
    (m : Members.Member) : Filtering :=
  match identityKey pyLower m with
  | none => s
  | some key =>
      if s.seen.contains key then s
      else
        { seen := s.seen ++ [key]
          result := if keeps spec m then s.result ++ [m] else s.result }

/-- `FilterEngine.apply`. -/
def filterEngine (pyLower : String → String) (spec : FilterSpec) (members : List Members.Member) :
    List Members.Member :=
  (members.foldl (filterOne pyLower spec) {}).result

/-- `_member_from_row`. -/
def memberFromRow (r : Row) : Members.Member where
  toValues := r.toValues
  telegramUserId := r.telegramUserId

/-! ## Both loops over distinct ids -/

variable {pyLower : String → String} {spec : FilterSpec}

/-- **`apply` filters** members that have distinct keys. -/
theorem result_foldl_filterOne {members : List Members.Member}
    (hsome : ∀ m ∈ members, (identityKey pyLower m).isSome)
    (hnodup : (members.map (identityKey pyLower)).Nodup) (s : Filtering)
    (hseen : ∀ m ∈ members, ∀ key, identityKey pyLower m = some key → key ∉ s.seen) :
    (members.foldl (filterOne pyLower spec) s).result =
      s.result ++ members.filter (keeps spec) := by
  induction members generalizing s with
  | nil => simp
  | cons m members ih =>
      obtain ⟨hfresh, hnodup⟩ := List.nodup_cons.mp hnodup
      obtain ⟨key, hkey⟩ := Option.isSome_iff_exists.mp (hsome m (List.mem_cons_self ..))
      have hnot : s.seen.contains key = false := by
        simpa using hseen m (List.mem_cons_self ..) key hkey
      have hone : filterOne pyLower spec s m =
          { seen := s.seen ++ [key]
            result := if keeps spec m then s.result ++ [m] else s.result } := by
        rw [filterOne, hkey]
        simp only [hnot, Bool.false_eq_true, if_false]
      rw [List.foldl_cons, hone, ih (fun q hq => hsome q (List.mem_cons_of_mem _ hq)) hnodup]
      · rw [List.filter_cons]
        split_ifs
        · rw [List.append_assoc, List.singleton_append]
        · rfl
      · intro q hq k hk hmem
        rcases List.mem_append.mp hmem with hmem | hmem
        · exact hseen q (List.mem_cons_of_mem _ hq) k hk hmem
        · rw [List.mem_singleton.mp hmem, ← hkey] at hk
          exact hfresh (hk ▸ List.mem_map_of_mem hq)

/-- **`create_plan` filters** rows that have distinct ids and a hash, when every row that is not
skipped is picked. -/
theorem items_foldl_selectOne {skip : PlannerRow → ℤ → Bool} {pick : ℤ → Option TargetMemberState}
    (hpick : ∀ uid, (pick uid).isSome) {rows : List PlannerRow}
    (hsome : ∀ row ∈ rows, row.telegramUserId.isSome) (hhash : ∀ row ∈ rows, row.accessHash.isSome)
    (hnodup : (rows.map PlannerRow.telegramUserId).Nodup) (s : Selecting)
    (hseen : ∀ row ∈ rows, ∀ uid, row.telegramUserId = some uid → uid ∉ s.seen) :
    (rows.foldl (selectOne skip pick) s).items.map Prod.fst =
      s.items.map Prod.fst ++
        (rows.filter fun row => row.telegramUserId.any (!skip row ·)).map PlannerRow.id := by
  induction rows generalizing s with
  | nil => simp
  | cons row rows ih =>
      obtain ⟨hfresh, hnodup⟩ := List.nodup_cons.mp hnodup
      obtain ⟨uid, huid⟩ := Option.isSome_iff_exists.mp (hsome row (List.mem_cons_self ..))
      obtain ⟨hash, hrow⟩ := Option.isSome_iff_exists.mp (hhash row (List.mem_cons_self ..))
      obtain ⟨state, hstate⟩ := Option.isSome_iff_exists.mp (hpick uid)
      have hnot : s.seen.contains uid = false := by
        simpa using hseen row (List.mem_cons_self ..) uid huid
      have hrest := ih (fun q hq => hsome q (List.mem_cons_of_mem _ hq))
        (fun q hq => hhash q (List.mem_cons_of_mem _ hq)) hnodup
      have hseen' : ∀ q ∈ rows, ∀ k, q.telegramUserId = some k → k ∉ s.seen :=
        fun q hq => hseen q (List.mem_cons_of_mem _ hq)
      rw [List.foldl_cons, List.filter_cons, huid]
      cases hskip : skip row uid with
      | true =>
          have hone : selectOne skip pick s row = { s with filtered := s.filtered + 1 } := by
            rw [selectOne, huid, hrow]
            simp only [hnot, hskip, Bool.or_true, if_true]
          rw [hone]
          refine (hrest { s with filtered := s.filtered + 1 } hseen').trans ?_
          simp [hskip]
      | false =>
          have hone : selectOne skip pick s row =
              { s with seen := s.seen ++ [uid], items := s.items ++ [(row.id, state)] } := by
            rw [selectOne, huid, hrow]
            simp only [hnot, hskip, Bool.or_false, Bool.false_eq_true, if_false, hstate]
          rw [hone]
          refine (hrest { s with seen := s.seen ++ [uid], items := s.items ++ [(row.id, state)] }
            ?_).trans ?_
          · intro q hq k hk hmem
            rcases List.mem_append.mp hmem with hmem | hmem
            · exact hseen' q hq k hk hmem
            · rw [List.mem_singleton.mp hmem, ← huid] at hk
              exact hfresh (hk ▸ List.mem_map_of_mem hq)
          · simp [hskip]

/-! ## The two filters -/

/-- The hash of a row is the one that the export looks up. -/
theorem accessHash_plannerRow (t : MemberTables) (account : AccountId) (d : DatasetId) (r : Row) :
    (plannerRow t account d r).accessHash = accessOf t (some account) r.telegramUserId := by
  unfold plannerRow accessOf
  cases r.telegramUserId with
  | none => rfl
  | some uid => rfl

/-- The checks of `apply` are those of `create_plan`, for a member with an id and a hash. -/
theorem keeps_memberFromRow (hsource : spec.source = []) {t : MemberTables} {account : AccountId}
    {d : DatasetId} {r : Row} {uid : ℤ} (huid : r.telegramUserId = some uid)
    (hhash : (accessOf t (some account) r.telegramUserId).isSome) :
    keeps spec (memberFromRow r) =
      !(!valid pyLower spec (plannerRow t account d r) || ([] : List ℤ).contains uid ||
        spec.excludeProcessed.contains uid || spec.excludeTarget.contains uid) := by
  rw [← accessHash_plannerRow t account d r] at hhash
  unfold keeps valid memberFromRow
  rw [hhash, hsource]
  unfold plannerRow
  rw [huid]
  simp only [Option.isSome_some, Bool.true_and, List.isEmpty_nil, Bool.true_or, Bool.and_true,
    List.contains_nil, Bool.or_false, Option.all_some, Bool.not_or, Bool.not_and, Bool.not_not,
    Bool.and_assoc]

theorem isSome_of_accessOf {t : MemberTables} {account : Option AccountId} {uid : Option ℤ}
    (h : (accessOf t account uid).isSome) : uid.isSome := by
  unfold accessOf at h
  cases uid with
  | none => exact absurd h (by simp)
  | some uid => rfl

/-- `apply` keeps the members of distinct ids that pass its checks. -/
theorem filterEngine_map_memberFromRow {rows : List Row}
    (hids : (rows.map Row.telegramUserId).Nodup) (huid : ∀ r ∈ rows, r.telegramUserId.isSome) :
    filterEngine pyLower spec (rows.map memberFromRow) =
      (rows.filter fun r => keeps spec (memberFromRow r)).map memberFromRow := by
  have hkey : ∀ r ∈ rows, identityKey pyLower (memberFromRow r) =
      r.telegramUserId.map fun uid => ("id", uid.repr) := by
    intro r hr
    obtain ⟨uid, hr'⟩ := Option.isSome_iff_exists.mp (huid r hr)
    rw [identityKey, memberFromRow, hr', Option.map_some]
  have hkeys : (rows.map memberFromRow).map (identityKey pyLower) =
      (rows.map Row.telegramUserId).map (Option.map fun uid => ("id", uid.repr)) := by
    rw [List.map_map, List.map_map]
    exact List.map_congr_left hkey
  have hinj : Function.Injective (Option.map fun uid : ℤ => ("id", uid.repr)) :=
    Option.map_injective fun a b h => Int.repr_injective (Prod.mk.inj h).2
  rw [filterEngine, result_foldl_filterOne]
  · rw [List.nil_append, List.filter_map]
    rfl
  · intro m hm
    obtain ⟨r, hr, rfl⟩ := List.mem_map.mp hm
    rw [hkey r hr, Option.isSome_map]
    exact huid r hr
  · exact hkeys ▸ hids.map hinj
  · exact fun _ _ _ _ => List.not_mem_nil

/-- **The two filters agree.**  Of a dataset whose members have distinct Telegram ids and an access
hash of the account, and with no source asked for, `apply` keeps the members that `create_plan`
makes items of for a target without processed and present members. -/
theorem filterEngine_agrees (pyLower : String → String) (t : MemberTables) (account : AccountId)
    (d : DatasetId) (chunkSize : ℤ) (spec : FilterSpec) (precheck : PrecheckResult)
    (hids : ((datasetRows t d).map Row.telegramUserId).Nodup)
    (hhash : ∀ r ∈ datasetRows t d, (accessOf t (some account) r.telegramUserId).isSome)
    (hsource : spec.source = []) (htarget : precheck.targetIds = ∅) :
    ∃ kept : List Row, kept.Sublist (datasetRows t d) ∧
      filterEngine pyLower spec ((iterDatasetRows t d chunkSize 0).flatten.map memberFromRow) =
        kept.map memberFromRow ∧
      (createPlan pyLower [] precheck spec (plannerRows t account d)).items.map Prod.fst =
        kept.map Row.id := by
  have huid : ∀ r ∈ datasetRows t d, r.telegramUserId.isSome := fun r hr =>
    isSome_of_accessOf (hhash r hr)
  refine ⟨(datasetRows t d).filter fun r => keeps spec (memberFromRow r), List.filter_sublist,
    ?_, ?_⟩
  · rw [flatten_iterDatasetRows, List.drop_zero, filterEngine_map_memberFromRow hids huid]
  · rw [createPlan, selectItems, plannerRows_eq, items_foldl_selectOne]
    · rw [List.map_nil, List.nil_append, List.filter_map, List.map_map]
      have hfilter : ∀ r ∈ datasetRows t d, keeps spec (memberFromRow r) =
          r.telegramUserId.any fun uid =>
            !(!valid pyLower spec (plannerRow t account d r) || ([] : List ℤ).contains uid ||
              spec.excludeProcessed.contains uid || spec.excludeTarget.contains uid) := by
        intro r hr
        obtain ⟨uid, hr'⟩ := Option.isSome_iff_exists.mp (huid r hr)
        rw [hr', Option.any_some]
        exact keeps_memberFromRow hsource hr' (hhash r hr)
      rw [List.filter_congr hfilter]
      rfl
    · intro uid
      rw [htarget, if_neg (Finset.notMem_empty uid)]
      split_ifs
      · rfl
      · rfl
    · intro row hrow
      obtain ⟨r, hr, rfl⟩ := List.mem_map.mp hrow
      exact huid r hr
    · intro row hrow
      obtain ⟨r, hr, rfl⟩ := List.mem_map.mp hrow
      rw [accessHash_plannerRow]
      exact hhash r hr
    · rw [List.map_map]
      exact hids
    · exact fun _ _ _ _ => List.not_mem_nil

/-- A dataset of a user with a username and one without, both in the cache of the account 1. -/
def twoMembers : MemberTables where
  members :=
    [{ id := 1, telegramUserId := some 11, username := some "one" },
      { id := 2, telegramUserId := some 22 }]
  sequence := 2
  datasets := [{ memberCount := 2 }]
  memberships := [⟨1, 1, none⟩, ⟨1, 2, none⟩]
  provenance := []
  items := []
  groups := 0
  accounts := fun a => a = 1
  peerCache := fun a uid => if a = 1 then some ⟨.user, some (uid * 10)⟩ else none

/-- With a username required, both filters keep the first member only. -/
theorem filterEngine_agrees_two :
    ∃ kept : List Row, kept.Sublist (datasetRows twoMembers 1) ∧
      filterEngine id { usernameRequired := true }
          ((iterDatasetRows twoMembers 1 1 0).flatten.map memberFromRow) =
        kept.map memberFromRow ∧
      [1] = kept.map Row.id :=
  filterEngine_agrees id twoMembers 1 1 1 { usernameRequired := true } ⟨∅, .complete⟩
    (by decide +kernel) (by decide +kernel) rfl rfl

end Migration
end MigrationStudio
