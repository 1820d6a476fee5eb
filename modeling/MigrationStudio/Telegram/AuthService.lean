import MigrationStudio.Accounts.StateColumns
import MigrationStudio.Foundations.Routines
import MigrationStudio.Members.Repository

/-!
# `telegram/auth_service.py`

The coroutines that sign an account in.  `send_code` and `connect_existing` write CONNECTING before
they call Telegram, and each has then to write how the call ended.  A user may start any number of
them for one account, and executors and commands write to the accounts at the same time; nothing but
these coroutines ever takes a CONNECTING away on purpose, and an account that shows it cannot be
disabled.

* `AuthCall`, `AuthException`: what is called, and what a call raises.
* `refreshIdentity`, `sendCode`, `signIn`, `connectExisting`: the coroutines.
* `connecting a`: the mark that CONNECTING is on the account; `settles_program`: every coroutine
  takes away the one that it sets, whatever Telegram answers.
* `call_of_connecting`: in a session that begins with no account CONNECTING, an account shows
  CONNECTING only while a call for it runs.  A crash behind the write of CONNECTING leaves it to the
  next session, whose start looks at jobs only.
-/

namespace MigrationStudio
namespace Telegram
namespace AuthService

open MigrationStudio.Core Accounts Foundations

/-! ## Calls -/

/-- What `get_me` returns. -/
structure TelegramUser where
  id : Option ℤ
  firstName : Option String
  lastName : Option String
  username : Option String
  deriving DecidableEq, Repr

/-- An exception: the name of its type in lower case, and its text. -/
structure AuthException where
  name : String
  text : String
  deriving DecidableEq, Repr

/-- The calls that a coroutine awaits; `get` is `clients.get` with the lookup of the session. -/
inductive AuthCall where
  | get (account : AccountId)
  | isUserAuthorized
  | sendCodeRequest (phone : String)
  | signIn (phone code phoneCodeHash : String)
  | signInPassword (password : String)
  | getMe
  deriving DecidableEq, Repr

/-- What the calls return. -/
abbrev AuthCall.Answer : AuthCall → Type
  | .get _ | .signIn _ _ _ | .signInPassword _ => Unit
  | .isUserAuthorized => Bool
  | .sendCodeRequest _ => String
  | .getMe => Option TelegramUser

abbrev AuthRoutine := Routine AccountWrite AuthCall AuthCall.Answer AuthException

/-! ## The coroutines -/

/-- `AuthIdentity`. -/
structure AuthIdentity where
  telegramUserId : Option ℤ
  username : Option String
  displayName : Option String
  deriving DecidableEq, Repr

/-- The name that is shown of a user. -/
def displayName (me : TelegramUser) : Option String :=
  let parts := [me.firstName.getD "", me.lastName.getD ""].filter (· ≠ "")
  let name := Members.strip (" ".intercalate parts)
  if name = "" then none else some name

/-- A call. -/
def ask (q : AuthCall) : AuthRoutine q.Answer := Routine.ask q

/-- `_set_account_state`. -/
def setAccountState (account : AccountId) (state : AccountState) (error : Option String) :
    AuthRoutine Unit :=
  .await (.setState account state error)

/-- `refresh_identity`. -/
def refreshIdentity (account : AccountId) : AuthRoutine AuthIdentity := do
  ask (.get account)
  match ← ask .getMe with
  | none => throw ⟨"runtimeerror", "Telegram session has no authenticated user"⟩
  | some me =>
      let identity : AuthIdentity := ⟨me.id, me.username, displayName me⟩
      Routine.await (.updateIdentity account identity.telegramUserId identity.username
        identity.displayName)
      pure identity

/-- `send_code`; the hash is empty when the session is authorized already. -/
def sendCode (account : AccountId) (phone : String) : AuthRoutine String := do
  setAccountState account .connecting none
  let sent : Option String ← tryCatch
    (do
      ask (.get account)
      if ← ask .isUserAuthorized then
        let _ ← refreshIdentity account
        pure none
      else
        let phoneCodeHash ← ask (.sendCodeRequest phone)
        pure (some phoneCodeHash))
    fun e => do
      setAccountState account .error (some e.text)
      throw e
  match sent with
  | none => pure ""
  | some phoneCodeHash =>
      setAccountState account .authRequired none
      pure phoneCodeHash

/-- `token in name`. -/
def AuthException.named (e : AuthException) (token : String) : Bool :=
  token.toList <:+: e.name.toList

/-- The `except` of `sign_in`. -/
def signInFailed (account : AccountId) (password : Option String) (e : AuthException) :
    AuthRoutine Unit :=
  if e.named "sessionpasswordneeded" then
    if password.getD "" = "" then do
      setAccountState account .authRequired (some "Telegram 2FA password is required")
      throw ⟨"runtimeerror", "Telegram 2FA password is required"⟩
    else
      tryCatch (ask (.signInPassword (password.getD ""))) fun e => do
        setAccountState account .authRequired (some e.text)
        throw e
  else do
    let state : AccountState :=
      if ["phonecode", "password", "auth"].any e.named then .authRequired else .error
    setAccountState account state (some e.text)
    throw e

/-- `sign_in`. -/
def signIn (account : AccountId) (phone code phoneCodeHash : String) (password : Option String) :
    AuthRoutine AuthIdentity := do
  ask (.get account)
  tryCatch (ask (.signIn phone code phoneCodeHash)) (signInFailed account password)
  refreshIdentity account

/-- `connect_existing`. -/
def connectExisting (account : AccountId) : AuthRoutine (Option AuthIdentity) := do
  setAccountState account .connecting none
  tryCatch
    (do
      ask (.get account)
      if ← ask .isUserAuthorized then
        let identity ← refreshIdentity account
        pure (some identity)
      else
        setAccountState account .authRequired none
        pure none)
    fun e => do
      setAccountState account .error (some e.text)
      throw e

/-! ## The calls of the commands -/

/-- What the commands of the user start. -/
inductive AuthOperation where
  | sendCode (account : AccountId) (phone : String)
  | signIn (account : AccountId) (phone code phoneCodeHash : String) (password : Option String)
  | connectExisting (account : AccountId)
  deriving DecidableEq, Repr

def AuthOperation.account : AuthOperation → AccountId
  | .sendCode account _ | .signIn account _ _ _ _ | .connectExisting account => account

/-- The coroutine of a command. -/
def program : AuthOperation → AuthRoutine Unit
  | .sendCode account phone => do
      let _ ← sendCode account phone
  | .signIn account phone code phoneCodeHash password => do
      let _ ← signIn account phone code phoneCodeHash password
  | .connectExisting account => do
      let _ ← connectExisting account

/-- A write of the repository; no statement of it raises. -/
def apply (w : AccountWrite) (t : AccountTable) : AccountTable := (t.step w).getD t

/-! ## CONNECTING -/

/-- The account shows CONNECTING. -/
def ShowsConnecting (a : AccountId) (t : AccountTable) : Prop :=
  ∃ r ∈ t.rows, r.id = a ∧ r.status = .connecting

/-- The write leaves CONNECTING on the account. -/
def SetsConnecting (a : AccountId) : AccountWrite → Prop
  | .create account => account.status = .connecting
  | .setState id state _ => id = a ∧ state = .connecting
  | .updateIdentity _ _ _ _ | .enable _ _ | .delete _ _ => False

/-- The write leaves something else on the account, or no account. -/
def ClearsConnecting (a : AccountId) : AccountWrite → Prop
  | .create _ => False
  | .setState id state _ => id = a ∧ state ≠ .connecting
  | .updateIdentity id _ _ _ | .enable id _ => id = a
  | .delete id hasJobs => id = a ∧ hasJobs = false

/-- The writes that may fail: those of CONNECTING and of the identity, not those of how a call
ended. -/
def MayFail : AccountWrite → Prop
  | .setState _ state _ => state = .connecting
  | _ => True

instance (a : AccountId) : DecidablePred (SetsConnecting a)
  | .create _ => inferInstanceAs (Decidable (_ = _))
  | .setState _ _ _ => inferInstanceAs (Decidable (_ ∧ _))
  | .updateIdentity _ _ _ _ | .enable _ _ | .delete _ _ => .isFalse id

instance (a : AccountId) : DecidablePred (ClearsConnecting a)
  | .create _ => .isFalse id
  | .setState _ _ _ | .delete _ _ => inferInstanceAs (Decidable (_ ∧ _))
  | .updateIdentity _ _ _ _ | .enable _ _ => inferInstanceAs (Decidable (_ = _))

variable {a : AccountId} {t : AccountTable}

/-- An UPDATE leaves CONNECTING on an account only when it writes it or leaves the row alone. -/
theorem showsConnecting_update {id : AccountId} {f : AccountRow → AccountRow}
    (h : ShowsConnecting a (t.update id f)) (hid : ∀ r, (f r).id = r.id) {state : AccountState}
    (hstatus : ∀ r, (f r).status = state) :
    (id = a ∧ state = .connecting) ∨ (ShowsConnecting a t ∧ id ≠ a) := by
  obtain ⟨q, hq, hqid, hqstatus⟩ := h
  obtain ⟨r, hr, rfl⟩ := List.mem_map.mp hq
  split_ifs at hqid hqstatus with hrow
  · rw [hid, hrow] at hqid
    rw [hstatus] at hqstatus
    exact Or.inl ⟨hqid, hqstatus⟩
  · exact Or.inr ⟨⟨r, hr, hqid, hqstatus⟩, fun heq => hrow (hqid.trans heq.symm)⟩

/-- **What a write does to CONNECTING.** -/
theorem showsConnecting_apply (w : AccountWrite) (t : AccountTable)
    (h : ShowsConnecting a (apply w t)) :
    SetsConnecting a w ∨ (ShowsConnecting a t ∧ ¬ ClearsConnecting a w) := by
  cases w with
  | create account =>
    have h' : ShowsConnecting a (t.create account) := h
    unfold AccountTable.create at h'
    split_ifs at h'
    · exact Or.inr ⟨h', id⟩
    · obtain ⟨r, hr, hid, hstatus⟩ := h'
      rcases List.mem_append.mp hr with hr | hr
      · exact Or.inr ⟨⟨r, hr, hid, hstatus⟩, fun hclear => hclear⟩
      · obtain rfl := List.mem_singleton.mp hr
        exact Or.inl hstatus
  | setState id state error =>
    rcases showsConnecting_update h (fun _ => rfl) fun _ => rfl with hset | ⟨hshows, hne⟩
    · exact Or.inl hset
    · exact Or.inr ⟨hshows, fun hclear => hne hclear.1⟩
  | updateIdentity id userId username displayName =>
    rcases showsConnecting_update h (fun _ => rfl) fun _ => rfl with ⟨-, hready⟩ | ⟨hshows, hne⟩
    · exact absurd hready nofun
    · exact Or.inr ⟨hshows, hne⟩
  | enable id enabled =>
    rcases showsConnecting_update h (fun _ => rfl) fun _ => rfl with
      ⟨-, hstate⟩ | ⟨hshows, hne⟩
    · cases enabled with
      | true => exact absurd hstate nofun
      | false => exact absurd hstate nofun
    · exact Or.inr ⟨hshows, hne⟩
  | delete id hasJobs =>
    obtain ⟨r, hr, hid, hstatus⟩ := h
    cases hasJobs with
    | true => exact Or.inr ⟨⟨r, hr, hid, hstatus⟩, fun hclear => absurd hclear.2 nofun⟩
    | false =>
      obtain ⟨hr, hne⟩ := List.mem_filter.mp hr
      refine Or.inr ⟨⟨r, hr, hid, hstatus⟩, fun hclear => ?_⟩
      exact of_decide_eq_true hne (hid.trans hclear.1.symm)

/-- **The mark** that an account shows CONNECTING. -/
def connecting (a : AccountId) : Mark AuthOperation apply where
  marked := ShowsConnecting a
  sets := SetsConnecting a
  clears := ClearsConnecting a
  mine := fun op => op.account = a
  fallible := MayFail
  decSets := inferInstance
  decClears := inferInstance
  marked_apply := showsConnecting_apply

/-! ## What the coroutines owe -/

section Settles

variable {R : Type} {op : AuthOperation} {account : AccountId} {owing : Bool}
variable {post : Except AuthException R → Bool → Prop}

theorem wp_ask {q : AuthCall} {post : Except AuthException q.Answer → Bool → Prop}
    (hok : ∀ x, post (.ok x) owing) (herror : ∀ e, post (.error e) owing) :
    (ask q).wp ((connecting a).contract op) post owing :=
  Routine.wp_ask.mpr ⟨hok, herror⟩

/-- CONNECTING is written for the account of the operation, or not at all. -/
theorem wp_setConnecting {post : Except AuthException Unit → Bool → Prop}
    (hok : post (.ok ()) (decide (op.account = a))) (herror : ∀ e, post (.error e) false) :
    (setAccountState op.account .connecting none).wp ((connecting a).contract op) post false := by
  refine Routine.wp_await.mpr ⟨fun hset => hset.1, ?_, fun _ => herror⟩
  have howes : (connecting a).owes (.setState op.account .connecting none) false =
      decide (op.account = a) := by
    by_cases h : op.account = a
    · rw [Mark.owes, decide_eq_true h]
      exact if_pos ⟨h, rfl⟩
    · rw [Mark.owes, decide_eq_false h, if_neg fun hset => h hset.1,
        if_neg fun hclear => h hclear.1]
  rwa [Mark.effect_contract, howes]

/-- Nothing is owed behind a write that leaves something else on the account. -/
theorem owes_eq_false {w : AccountWrite} (hset : ¬ SetsConnecting a w)
    (hclear : owing = true → ClearsConnecting a w) : (connecting a).owes w owing = false := by
  show (if SetsConnecting a w then true else if ClearsConnecting a w then false else owing) = false
  rw [if_neg hset]
  split_ifs with h
  · rfl
  · exact Bool.eq_false_of_not_eq_true fun htrue => h (hclear htrue)

theorem error_ne_connecting : AccountState.error ≠ .connecting := nofun

theorem authRequired_ne_connecting : AccountState.authRequired ≠ .connecting := nofun

/-- How a call ended is written, and nothing is owed. -/
theorem wp_setEnded {post : Except AuthException Unit → Bool → Prop} {state : AccountState}
    (hstate : state ≠ .connecting) {error : Option String} (howing : owing = true → account = a)
    (hok : post (.ok ()) false) :
    (setAccountState account state error).wp ((connecting a).contract op) post owing := by
  refine Routine.wp_await.mpr ⟨fun hset => absurd hset.2 hstate, ?_,
    fun hfail => absurd hfail hstate⟩
  have howes : (connecting a).owes (.setState account state error) owing = false :=
    owes_eq_false (fun hset => hstate hset.2) fun htrue => ⟨howing htrue, hstate⟩
  rwa [Mark.effect_contract, howes]

/-- The identity is written, and nothing is owed, or an exception is raised. -/
theorem wp_refreshIdentity {post : Except AuthException AuthIdentity → Bool → Prop}
    (howing : owing = true → account = a) (hok : ∀ identity, post (.ok identity) false)
    (herror : ∀ e, post (.error e) owing) :
    (refreshIdentity account).wp ((connecting a).contract op) post owing := by
  refine Routine.wp_bind.mpr (wp_ask (fun _ => ?_) herror)
  refine Routine.wp_bind.mpr (wp_ask (fun me => ?_) herror)
  cases me with
  | none => exact Routine.wp_throw.mpr (herror _)
  | some me =>
    have hwritten : ∀ identity : AuthIdentity, post (.ok identity)
        (((connecting a).contract op).effect (.updateIdentity account identity.telegramUserId
          identity.username identity.displayName) owing) := by
      intro identity
      rw [Mark.effect_contract, owes_eq_false id howing]
      exact hok identity
    exact Routine.wp_bind.mpr (Routine.wp_await.mpr ⟨fun hset => absurd hset id,
      Routine.wp_pure.mpr (hwritten _), fun _ => herror⟩)

/-- An `except` that writes how the call ended and raises again. -/
theorem wp_setEnded_throw {state : AccountState} (hstate : state ≠ .connecting)
    {error : Option String} {e : AuthException} (howing : owing = true → account = a)
    (herror : post (.error e) false) :
    (do setAccountState account state error; throw e : AuthRoutine R).wp
      ((connecting a).contract op) post owing :=
  Routine.wp_bind.mpr (wp_setEnded hstate howing (Routine.wp_throw.mpr herror))

/-- The `except` of `sign_in`, where nothing is owed. -/
theorem wp_signInFailed {post : Except AuthException Unit → Bool → Prop} {password : Option String}
    {e : AuthException} (hok : post (.ok ()) false) (herror : ∀ e, post (.error e) false) :
    (signInFailed account password e).wp ((connecting a).contract op) post false := by
  have howing : false = true → account = a := fun h => absurd h Bool.false_ne_true
  unfold signInFailed
  split_ifs
  · exact wp_setEnded_throw authRequired_ne_connecting howing (herror _)
  · refine Routine.wp_tryCatch.mpr (wp_ask (fun _ => hok) fun e => ?_)
    exact wp_setEnded_throw authRequired_ne_connecting howing (herror _)
  · exact wp_setEnded_throw authRequired_ne_connecting howing (herror _)
  · exact wp_setEnded_throw error_ne_connecting howing (herror _)

variable (a)

theorem settles_sendCode (account : AccountId) (phone : String) :
    (connecting a).Settles (.sendCode account phone) false (sendCode account phone) := by
  set op : AuthOperation := .sendCode account phone with hop
  have howing : decide (op.account = a) = true → account = a := of_decide_eq_true
  have herror : ∀ e : AuthException, (do
      setAccountState account .error (some e.text)
      throw e : AuthRoutine (Option String)).wp ((connecting a).contract op)
        (fun x owing =>
          match x with
          | .ok sent => (match sent with
              | none => pure ""
              | some phoneCodeHash => do
                  setAccountState account .authRequired none
                  pure phoneCodeHash : AuthRoutine String).wp ((connecting a).contract op)
                    (fun _ owing => owing = false) owing
          | .error _ => owing = false) (decide (op.account = a)) :=
    fun e => wp_setEnded_throw error_ne_connecting howing rfl
  refine Routine.wp_bind.mpr (wp_setConnecting ?_ fun _ => rfl)
  refine Routine.wp_bind.mpr (Routine.wp_tryCatch.mpr ?_)
  refine Routine.wp_bind.mpr (wp_ask (fun _ => ?_) herror)
  refine Routine.wp_bind.mpr (wp_ask (fun authorized => ?_) herror)
  cases authorized with
  | true =>
    refine Routine.wp_bind.mpr (wp_refreshIdentity howing (fun identity => ?_) herror)
    exact Routine.wp_pure.mpr (Routine.wp_pure.mpr rfl)
  | false =>
    refine Routine.wp_bind.mpr (wp_ask (fun phoneCodeHash => ?_) herror)
    exact Routine.wp_pure.mpr (Routine.wp_bind.mpr
      (wp_setEnded authRequired_ne_connecting howing (Routine.wp_pure.mpr rfl)))

theorem settles_connectExisting (account : AccountId) :
    (connecting a).Settles (.connectExisting account) false (connectExisting account) := by
  set op : AuthOperation := .connectExisting account with hop
  have howing : decide (op.account = a) = true → account = a := of_decide_eq_true
  have herror : ∀ e : AuthException, (do
      setAccountState account .error (some e.text)
      throw e : AuthRoutine (Option AuthIdentity)).wp ((connecting a).contract op)
        (fun _ owing => owing = false) (decide (op.account = a)) :=
    fun e => wp_setEnded_throw error_ne_connecting howing rfl
  refine Routine.wp_bind.mpr (wp_setConnecting ?_ fun _ => rfl)
  refine Routine.wp_tryCatch.mpr ?_
  refine Routine.wp_bind.mpr (wp_ask (fun _ => ?_) herror)
  refine Routine.wp_bind.mpr (wp_ask (fun authorized => ?_) herror)
  cases authorized with
  | true =>
    exact Routine.wp_bind.mpr (wp_refreshIdentity howing (fun _ => Routine.wp_pure.mpr rfl) herror)
  | false =>
    exact Routine.wp_bind.mpr (wp_setEnded authRequired_ne_connecting howing
      (Routine.wp_pure.mpr rfl))

theorem settles_signIn (account : AccountId) (phone code phoneCodeHash : String)
    (password : Option String) :
    (connecting a).Settles (.signIn account phone code phoneCodeHash password) false
      (signIn account phone code phoneCodeHash password) := by
  set op : AuthOperation := .signIn account phone code phoneCodeHash password with hop
  have howing : false = true → account = a := fun h => absurd h Bool.false_ne_true
  have hidentity : (refreshIdentity account).wp ((connecting a).contract op)
      (fun _ owing => owing = false) false :=
    wp_refreshIdentity howing (fun _ => rfl) fun _ => rfl
  refine Routine.wp_bind.mpr (wp_ask (fun _ => ?_) fun _ => rfl)
  refine Routine.wp_bind.mpr (Routine.wp_tryCatch.mpr (wp_ask (fun _ => hidentity) fun e => ?_))
  exact wp_signInFailed hidentity fun _ => rfl

/-- **Every coroutine takes away the CONNECTING that it sets**, whatever is answered. -/
theorem settles_program (op : AuthOperation) : (connecting a).Settles op false (program op) := by
  have hdiscard : ∀ {R : Type} (r : AuthRoutine R), (connecting a).Settles op false r →
      (connecting a).Settles op false (do let _ ← r : AuthRoutine Unit) := fun r hr =>
    Routine.wp_bind.mpr (Routine.wp_mono (fun x _ h => by cases x <;> exact h) hr)
  cases op with
  | sendCode account phone => exact hdiscard _ (settles_sendCode a account phone)
  | signIn account phone code phoneCodeHash password =>
    exact hdiscard _ (settles_signIn a account phone code phoneCodeHash password)
  | connectExisting account => exact hdiscard _ (settles_connectExisting a account)

end Settles

/-! ## Runs -/

variable {T : Type} [DecidableEq T]

/-- The table and the coroutines that run. -/
abbrev AuthPool (T : Type) :=
  Pool T AuthOperation AccountWrite AuthCall AuthCall.Answer AuthException Unit AccountTable

abbrev AuthLabel (T : Type) :=
  PoolLabel T AuthOperation AccountWrite AuthCall AuthCall.Answer AuthException

/-- No coroutine is cancelled, no write of how a call ended fails, and no other part of the program
writes CONNECTING. -/
def Undisturbed (p : AuthPool T) : AuthLabel T → Prop
  | .fail t _ => ∀ op w next, p.running t = some (op, .write w next) → MayFail w
  | .cancel _ => False
  | .other (.create account) => account.status ≠ .connecting
  | .other (.setState _ state _) => state ≠ .connecting
  | _ => True

omit [DecidableEq T] in
theorem Undisturbed.mark {p : AuthPool T} {l : AuthLabel T} (h : Undisturbed p l) :
    (connecting a).Undisturbed p l := by
  cases l with
  | other w =>
    cases w with
    | create _ => exact h
    | setState _ _ _ => exact fun hset => h hset.2
    | updateIdentity _ _ _ _ => exact id
    | enable _ _ => exact id
    | delete _ _ => exact id
  | fail t e => exact h
  | cancel t => exact h
  | begin t op => trivial
  | commit t => trivial
  | answer t q x => trivial

/-- **No account is left CONNECTING** by a session that begins with none: however many calls run for
it at the same time, whatever Telegram answers and whatever else is written to the accounts, an
account shows CONNECTING only while a call for this account runs that has still to write how it
ended. -/
theorem call_of_connecting {accounts : AccountTable}
    (hnone : ∀ r ∈ accounts.rows, r.status ≠ .connecting) {ls : List (AuthLabel T)} {p : AuthPool T}
    (hrun : runLabels (Pool.step program apply) ⟨accounts, fun _ => none⟩ ls = some p)
    (halong : Along (Pool.step program apply) Undisturbed ⟨accounts, fun _ => none⟩ ls)
    {r : AccountRow} (hr : r ∈ p.store.rows) (hstatus : r.status = .connecting) :
    ∃ t op routine, p.running t = some (op, routine) ∧ op.account = r.id ∧
      (connecting r.id).Settles op true routine :=
  Mark.debtor_of_run (m := connecting r.id) (settles_program r.id)
    (fun ⟨q, hq, _, hconnecting⟩ => hnone q hq hconnecting) hrun
    (halong.mono fun _ _ h => h.mark) ⟨r, hr, rfl, hstatus⟩

/-- An account that has never been connected. -/
def unconnected : AccountRow where
  id := 1
  phone := "+84"
  sessionPath := "84.session"
  telegramUserId := none
  username := none
  displayName := none
  enabled := true
  status := .disconnected
  connectionState := .disconnected
  operationState := .idle
  lastError := none

/-- It shows CONNECTING when the first write of `connect_existing` has been committed, and the call
runs. -/
theorem call_of_connecting_first :
    ∃ p r, runLabels (Pool.step program apply) ⟨⟨[unconnected], 1⟩, fun _ => none⟩
        ([.begin 0 (.connectExisting 1), .commit 0] : List (AuthLabel ℕ)) = some p ∧
      r ∈ p.store.rows ∧ r.status = .connecting ∧
      ∃ t op routine, p.running t = some (op, routine) ∧ op.account = r.id ∧
        (connecting r.id).Settles op true routine := by
  have hnone : ∀ r ∈ (⟨[unconnected], 1⟩ : AccountTable).rows, r.status ≠ .connecting := by decide
  have halong : Along (Pool.step program apply) Undisturbed ⟨⟨[unconnected], 1⟩, fun _ => none⟩
      ([.begin 0 (.connectExisting 1), .commit 0] : List (AuthLabel ℕ)) :=
    ⟨trivial, fun _ _ => ⟨trivial, fun _ _ => trivial⟩⟩
  obtain ⟨p, hrun⟩ : ∃ p, runLabels (Pool.step program apply) ⟨⟨[unconnected], 1⟩, fun _ => none⟩
      ([.begin 0 (.connectExisting 1), .commit 0] : List (AuthLabel ℕ)) = some p := ⟨_, rfl⟩
  have hrow :
      ({ unconnected with toAccount := unconnected.toAccount.setState .connecting none } :
        AccountRow) ∈ p.store.rows := by
    obtain rfl := Option.some.inj hrun
    exact List.mem_singleton_self _
  exact ⟨p, _, hrun, hrow, rfl, call_of_connecting hnone hrun halong hrow rfl⟩

end AuthService
end Telegram
end MigrationStudio
