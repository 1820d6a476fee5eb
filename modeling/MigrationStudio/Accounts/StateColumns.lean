import MigrationStudio.Accounts.Repository
import MigrationStudio.Foundations.LabelledRuns

/-!
# The state columns of the accounts

The table `accounts` with the statements of `AccountRepository` and `V12AccountRepository`.  Three
columns hold the state of an account.  `submit_set_state` writes all of them; `create`,
`submit_update_identity` and `submit_enable`, which version 1.2 inherits, write `status` alone.

* `AccountTable.step`: one operation.
* `Account.Agrees`: the two columns of version 1.2 are those of `status`.
* `Account.agrees_signedIn`, `Account.agrees_setEnabled`: when an inherited statement keeps them so.
* `state_columns_agree_iff`: the runs in which they stay so.
-/

namespace MigrationStudio
namespace Accounts

open MigrationStudio.Core Foundations

/-- A row of `accounts`. -/
structure AccountRow extends Account where
  id : AccountId
  phone : String
  sessionPath : String
  telegramUserId : Option ℤ
  username : Option String
  displayName : Option String
  deriving DecidableEq, Repr

/-- The fields of an `Account` that `create` reads, with the defaults of the class. -/
structure NewAccount where
  phone : String
  sessionPath : String
  status : AccountState := .disconnected
  enabled : Bool := true
  deriving DecidableEq, Repr

/-- The table. `sequence` is the largest id that it has ever had. -/
structure AccountTable where
  rows : List AccountRow := []
  sequence : ℕ := 0
  deriving Repr

/-- An operation of the repository.  What `submit_delete` reads of the table `jobs` is whether the
account has jobs that are not over. -/
inductive AccountWrite where
  | create (account : NewAccount)
  | setState (id : AccountId) (state : AccountState) (error : Option String)
  | updateIdentity (id : AccountId) (userId : Option ℤ) (username displayName : Option String)
  | enable (id : AccountId) (enabled : Bool)
  | delete (id : AccountId) (hasJobs : Bool)
  deriving DecidableEq, Repr

namespace AccountTable

/-- An `UPDATE` of the columns of one row. -/
def update (t : AccountTable) (id : AccountId) (f : AccountRow → AccountRow) : AccountTable :=
  { t with rows := t.rows.map fun r => if r.id = id then f r else r }

/-- The phone is in the table, which `UNIQUE` forbids to a new row. -/
def hasPhone (t : AccountTable) (phone : String) : Bool := t.rows.any fun r => r.phone = phone

/-- The row that `create` inserts; the columns that the statement leaves out have their defaults. -/
def newRow (id : AccountId) (account : NewAccount) : AccountRow where
  id := id
  phone := account.phone
  sessionPath := account.sessionPath
  telegramUserId := none
  username := none
  displayName := none
  enabled := account.enabled
  status := account.status
  connectionState := .disconnected
  operationState := .idle
  lastError := none

/-- `create`. -/
def create (t : AccountTable) (account : NewAccount) : AccountTable :=
  if t.hasPhone account.phone then t
  else
    { rows := t.rows ++ [newRow (t.sequence + 1) account]
      sequence := t.sequence + 1 }

/-- One operation; a statement that raises is rolled back. -/
def step (t : AccountTable) : AccountWrite → Option AccountTable
  | .create account => some (t.create account)
  | .setState id state error =>
      some (t.update id fun r => { r with toAccount := r.toAccount.setState state error })
  | .updateIdentity id userId username displayName =>
      some (t.update id fun r =>
        { r with
          toAccount := r.toAccount.signedIn
          telegramUserId := userId
          username := username
          displayName := displayName })
  | .enable id enabled =>
      some (t.update id fun r => { r with toAccount := r.toAccount.setEnabled enabled })
  | .delete id hasJobs =>
      some (if hasJobs then t else { t with rows := t.rows.filter fun r => r.id ≠ id })

end AccountTable

/-! ## What a statement does to the columns -/

theorem split_injective : Function.Injective split := by
  intro a b h
  cases a <;> cases b <;> first | rfl | exact absurd h (by decide)

namespace Account

variable {a : Account}

/-- The two columns of version 1.2 are those of `status`. -/
def Agrees (a : Account) : Prop := (a.connectionState, a.operationState) = split a.status

instance : Decidable a.Agrees := inferInstanceAs (Decidable (_ = _))

theorem agrees_setState (state : AccountState) (error : Option String) :
    (a.setState state error).Agrees := rfl

/-- A statement that writes `status` alone keeps the columns right exactly when it leaves it. -/
theorem agrees_iff_of_same {b : Account} (h : a.Agrees)
    (hc : b.connectionState = a.connectionState) (ho : b.operationState = a.operationState) :
    b.Agrees ↔ a.status = b.status := by
  unfold Agrees at h ⊢
  rw [hc, ho, h]
  exact split_injective.eq_iff

theorem agrees_signedIn (h : a.Agrees) : a.signedIn.Agrees ↔ a.status = .ready :=
  agrees_iff_of_same h rfl rfl

theorem agrees_setEnabled (h : a.Agrees) (enabled : Bool) :
    (a.setEnabled enabled).Agrees ↔
      a.status = if enabled then .disconnected else .disabled :=
  agrees_iff_of_same h rfl rfl

end Account

namespace AccountTable

variable {t t' : AccountTable} {w : AccountWrite} {ws : List AccountWrite}

/-- The columns of every row agree. -/
def Agree (t : AccountTable) : Prop := ∀ r ∈ t.rows, r.toAccount.Agrees

/-- The operation writes all three columns, or a `status` that the other two already show. -/
def LeavesStatus (t : AccountTable) : AccountWrite → Prop
  | .create account => t.hasPhone account.phone ∨ account.status = .disconnected
  | .updateIdentity id _ _ _ => ∀ r ∈ t.rows, r.id = id → r.status = .ready
  | .enable id enabled =>
      ∀ r ∈ t.rows, r.id = id → r.status = if enabled then .disconnected else .disabled
  | .setState _ _ _ | .delete _ _ => True

/-- An `UPDATE` keeps the columns right exactly when it does so in the rows that it is about. -/
theorem agree_update_iff (h : t.Agree) {id : AccountId} {f : AccountRow → AccountRow} :
    (t.update id f).Agree ↔ ∀ r ∈ t.rows, r.id = id → (f r).toAccount.Agrees := by
  constructor
  · intro h' r hr hid
    refine h' (f r) (List.mem_map.mpr ⟨r, hr, ?_⟩)
    rw [if_pos hid]
  · intro hf q hq
    obtain ⟨r, hr, rfl⟩ := List.mem_map.mp hq
    split_ifs with hid
    · exact hf r hr hid
    · exact h r hr

theorem agrees_newRow {id : AccountId} {account : NewAccount} :
    (newRow id account).toAccount.Agrees ↔ account.status = .disconnected := by
  show split .disconnected = split account.status ↔ _
  rw [split_injective.eq_iff]
  exact eq_comm

/-- **One operation** keeps the columns right exactly when it meets the condition. -/
theorem agree_step_iff (h : t.Agree) (hstep : t.step w = some t') :
    t'.Agree ↔ t.LeavesStatus w := by
  cases w with
  | create account =>
      obtain rfl := Option.some.inj hstep
      unfold create LeavesStatus
      by_cases hphone : t.hasPhone account.phone = true
      · rw [if_pos hphone]
        exact iff_of_true h (Or.inl hphone)
      · rw [if_neg hphone]
        constructor
        · intro h'
          have hnew := h' _ (List.mem_append_right _ (List.mem_singleton_self _))
          exact Or.inr (agrees_newRow.mp hnew)
        · intro hstatus r hr
          rcases List.mem_append.mp hr with hr | hr
          · exact h r hr
          · rw [List.mem_singleton.mp hr]
            exact agrees_newRow.mpr (hstatus.resolve_left hphone)
  | setState id state error =>
      obtain rfl := Option.some.inj hstep
      refine iff_of_true ((agree_update_iff h).mpr fun r _ _ => ?_) trivial
      exact Account.agrees_setState state error
  | updateIdentity id userId username displayName =>
      obtain rfl := Option.some.inj hstep
      rw [agree_update_iff h]
      exact forall₃_congr fun r hr _ => Account.agrees_signedIn (h r hr)
  | enable id enabled =>
      obtain rfl := Option.some.inj hstep
      rw [agree_update_iff h]
      exact forall₃_congr fun r hr _ => Account.agrees_setEnabled (h r hr) enabled
  | delete id hasJobs =>
      obtain rfl := Option.some.inj hstep
      refine iff_of_true (fun r hr => ?_) trivial
      split_ifs at hr
      · exact h r hr
      · exact h r (List.mem_filter.mp hr).1

/-- **The state columns over whole runs** of account operations on an empty table: they agree in
every row of every state if and only if every operation writes all three, or a `status` that the
other two already show. -/
theorem state_columns_agree_iff (hrun : runLabels step {} ws = some t) :
    (∀ pre post u, ws = pre ++ post → runLabels step {} pre = some u → u.Agree) ↔
      Along step LeavesStatus {} ws := by
  have hnil : ({} : AccountTable).Agree := fun r hr => absurd hr (List.not_mem_nil (a := r))
  constructor
  · intro hagree
    by_contra hnot
    obtain ⟨pre, w, post, u, u', rfl, hpre, -, hfails, hstep⟩ := exists_first_failure hrun hnot
    refine hfails ((agree_step_iff (hagree pre _ u rfl hpre) hstep).mp ?_)
    refine hagree (pre ++ [w]) post u' (by simp) ?_
    exact runLabels_append_eq_some.mpr ⟨u, hpre, runLabels_cons_eq_some.mpr ⟨u', hstep, rfl⟩⟩
  · rintro halong pre post u rfl hpre
    refine invariant_runLabels (I := Agree) ?_ hnil ((along_append hpre).mp halong).1 hpre
    exact fun u w u' h hC hstep => (agree_step_iff h hstep).mpr hC

/-- An account is added and a job occupies it. -/
theorem state_columns_agree_busy :
    ∃ t, runLabels step {}
        [.create { phone := "+10000000", sessionPath := "s" }, .setState 1 .busy none] = some t ∧
      ∀ pre post u, [.create { phone := "+10000000", sessionPath := "s" }, .setState 1 .busy none] =
        pre ++ post → runLabels step {} pre = some u → u.Agree := by
  refine ⟨_, rfl, (state_columns_agree_iff rfl).mpr ?_⟩
  exact ⟨Or.inr rfl, fun _ _ => ⟨trivial, fun _ _ => trivial⟩⟩

/-- An account is added, asked for a code and signed in: its `connection_state` still asks for the
code. -/
theorem signed_in_asks_for_code :
    ∃ t, runLabels step {}
        [.create { phone := "+10000000", sessionPath := "s" }, .setState 1 .authRequired none,
          .updateIdentity 1 (some 7) (some "u") none] = some t ∧ ¬ t.Agree := by
  refine ⟨_, rfl, fun h => ?_⟩
  exact absurd (h _ (List.mem_singleton_self _)) (by decide)

end AccountTable
end Accounts
end MigrationStudio
