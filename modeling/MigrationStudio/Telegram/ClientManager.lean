import MigrationStudio.Core.Enums
import MigrationStudio.Foundations.Dict
import MigrationStudio.Foundations.LabelledRuns

/-!
# `telegram/client_manager.py`

The clients of the accounts, as the coroutines of the network loop see them.  A coroutine runs
alone up to its next `await`; what may happen in between is in the label of a step.  `connect()`
and `disconnect()` of a client complete by themselves and succeed; the coroutine that awaits them
goes on in a later step.  A client may also lose its connection at any time.

The idle reaper is a coroutine like any other, except that `close_all` cancels it.  A
`disconnect()` that it awaits then completes without it.

* `get`, `disconnect`, `disconnectIdle`, `closeAll`: the beginnings of the operations.
* `proceed`: the loops of `disconnect_idle` and `close_all`, from one `await` to the next.
* `ClientManager.step`: one step; `operations` are the callers of `get` that still use the client
  that they got, and `log` is what an observer has seen.
-/

namespace MigrationStudio
namespace Telegram

open MigrationStudio.Core Foundations

abbrev ClientId := ℕ
abbrev CoroutineId := ℕ

/-- A `TelegramClient`: the account whose session it has opened, and `is_connected()`. -/
structure TelegramClient where
  account : AccountId
  connected : Bool
  deriving DecidableEq, Repr

/-- `ClientSlot`. -/
structure ClientSlot where
  client : ClientId
  lastUsed : ℕ
  deriving DecidableEq, Repr

/-- What a coroutine does after the `disconnect()` of a client: `disconnect` returns, and the loops
of `disconnect_idle` and `close_all` have accounts left. -/
inductive Continuation where
  | returns
  | idle (stale : List AccountId) (reaper : Bool)
  | close (rest : List AccountId)
  deriving DecidableEq, Repr

/-- What a coroutine awaits: in `get` the connection of a new client or of the one in the table, in
the others a disconnection, and in `close_all` first the end of the reaper. -/
inductive Awaiting where
  | create (account : AccountId) (client : ClientId)
  | reconnect (account : AccountId) (client : ClientId)
  | disconnect (client : ClientId) (next : Continuation)
  | reaperEnd
  deriving DecidableEq, Repr

/-- A coroutine at an `await`, and whether what it awaits has completed. -/
structure Coroutine where
  awaiting : Awaiting
  completed : Bool
  deriving DecidableEq, Repr

/-- `_reaper_task`: it sleeps until an instant, or it is in `disconnect_idle`. -/
inductive Reaper where
  | absent
  | sleeping (wake : ℕ)
  | working (coroutine : CoroutineId)
  deriving DecidableEq, Repr

/-- A caller of `get` that has not done with the client. -/
structure Operation where
  account : AccountId
  client : ClientId
  deriving DecidableEq, Repr

/-- `get` returns a client, a slot is taken out of the table, `close_all` returns. -/
inductive ClientEvent where
  | got (account : AccountId) (client : ClientId)
  | popped (account : AccountId) (client : ClientId) (idle : Bool)
  | closed
  deriving DecidableEq, Repr

/-- The manager on its loop.  `clients` are all that have been made, `slots` the dict `_clients` in
its order. -/
structure ClientManager where
  now : ℕ := 0
  idleTimeout : ℕ
  credentials : Bool
  clients : List TelegramClient := []
  slots : List (AccountId × ClientSlot) := []
  reaper : Reaper := .absent
  coroutines : CoroutineId → Option Coroutine := fun _ => none
  nextCoroutine : CoroutineId := 0
  operations : List Operation := []
  log : List ClientEvent := []

/-- Who moves, and with which outside choice. -/
inductive ClientLabel where
  | tick (d : ℕ)
  | setCredentials
  | get (account : AccountId)
  | disconnect (account : AccountId)
  | disconnectIdle
  | wake
  | closeAll
  | complete (coroutine : CoroutineId)
  | resume (coroutine : CoroutineId)
  | drop (client : ClientId)
  | release (operation : ℕ)
  deriving DecidableEq, Repr

namespace ClientManager

/-- `ClientManager(network, api_id, api_hash, idle_timeout)`. -/
def new (credentials : Bool) (idleTimeout : ℕ) : ClientManager where
  idleTimeout := max (30 * second) idleTimeout
  credentials := credentials

/-- The slot of an account. -/
def slot (s : ClientManager) (a : AccountId) : Option ClientSlot := s.slots.lookup a

/-- `is_connected()` of a client. -/
def isConnected (s : ClientManager) (c : ClientId) : Bool :=
  (s.clients[c]?).any TelegramClient.connected

/-- The account whose session a client has opened. -/
def accountOf (s : ClientManager) (c : ClientId) : Option AccountId :=
  (s.clients[c]?).map TelegramClient.account

/-- `self._clients[account_id] = slot`. -/
def setSlot (s : ClientManager) (a : AccountId) (slot : ClientSlot) : ClientManager :=
  { s with slots := dictSet s.slots a slot }

/-- A client as `connect()` or `disconnect()` leaves it. -/
def setConnected (s : ClientManager) (c : ClientId) (connected : Bool) : ClientManager :=
  { s with clients := s.clients.modify c fun client => { client with connected := connected } }

/-- A coroutine goes on to its next `await`, or ends. -/
def setCoroutine (s : ClientManager) (k : CoroutineId) (t : Option Coroutine) : ClientManager :=
  { s with coroutines := Function.update s.coroutines k t }

/-- A coroutine awaits something. -/
def await (s : ClientManager) (k : CoroutineId) (awaiting : Awaiting) : ClientManager :=
  s.setCoroutine k (some ⟨awaiting, false⟩)

def record (s : ClientManager) (event : ClientEvent) : ClientManager :=
  { s with log := s.log ++ [event] }

/-- `get` returns, and its caller goes on with the client. -/
def hand (s : ClientManager) (a : AccountId) (c : ClientId) : ClientManager :=
  ({ s with operations := s.operations ++ [⟨a, c⟩] } : ClientManager).record (.got a c)

/-- A new coroutine. -/
def spawn (s : ClientManager) : ClientManager := { s with nextCoroutine := s.nextCoroutine + 1 }

/-- `min(60.0, max(15.0, self.idle_timeout / 2))`. -/
def reaperInterval (s : ClientManager) : ℕ :=
  min (60 * second) (max (15 * second) (s.idleTimeout / 2))

/-- The reaper goes to sleep. -/
def sleep (s : ClientManager) : ClientManager :=
  { s with reaper := .sleeping (s.now + s.reaperInterval) }

/-- The first of the accounts that has a slot, with the accounts after it. -/
def firstSlot (s : ClientManager) :
    List AccountId → Option (AccountId × ClientSlot × List AccountId)
  | [] => none
  | a :: rest =>
      match s.slot a with
      | some slot => some (a, slot, rest)
      | none => s.firstSlot rest

/-- `self._clients.pop(account_id, None)`, and the beginning of the `disconnect()` of its
client. -/
def pop (s : ClientManager) (k : CoroutineId) (a : AccountId) (slot : ClientSlot)
    (next : Continuation) : ClientManager :=
  let idle :=
    match next with
    | .idle _ _ => true
    | _ => false
  ({ s with slots := dictPop s.slots a }.await k
    (.disconnect slot.client next)).record (.popped a slot.client idle)

/-- A coroutine after a `disconnect()`.  An account whose slot is gone is passed over without an
`await`. -/
def proceed (s : ClientManager) (k : CoroutineId) : Continuation → ClientManager
  | .returns => s.setCoroutine k none
  | .idle stale reaper =>
      match s.firstSlot stale with
      | some (a, slot, rest) => s.pop k a slot (.idle rest reaper)
      | none => if reaper then (s.setCoroutine k none).sleep else s.setCoroutine k none
  | .close rest =>
      match s.firstSlot rest with
      | some (a, slot, rest) => s.pop k a slot (.close rest)
      | none => (s.setCoroutine k none).record .closed

/-- The accounts that `disconnect_idle` finds idle. -/
def stale (s : ClientManager) : List AccountId :=
  (s.slots.filter fun p => s.idleTimeout ≤ s.now - p.2.lastUsed).map Prod.fst

/-- The reaper is started when there is none. -/
def startReaper (s : ClientManager) : ClientManager :=
  if s.reaper = .absent then s.sleep else s

/-- `get`, to its first `await` or its end.  Without credentials it raises. -/
def get (s : ClientManager) (a : AccountId) : ClientManager :=
  let s := s.startReaper
  match s.slot a with
  | some slot =>
      let s := s.setSlot a { slot with lastUsed := s.now }
      if s.isConnected slot.client then s.hand a slot.client
      else s.spawn.await s.nextCoroutine (.reconnect a slot.client)
  | none =>
      if s.credentials then
        ({ s with clients := s.clients ++ [⟨a, false⟩] } : ClientManager).spawn.await
          s.nextCoroutine (.create a s.clients.length)
      else s

/-- `disconnect`, to its first `await` or its end. -/
def disconnect (s : ClientManager) (a : AccountId) : ClientManager :=
  match s.slot a with
  | some slot => s.spawn.pop s.nextCoroutine a slot .returns
  | none => s

/-- `disconnect_idle`, to its first `await` or its end. -/
def disconnectIdle (s : ClientManager) : ClientManager :=
  s.spawn.proceed s.nextCoroutine (.idle s.stale false)

/-- The reaper after its sleep. -/
def wake (s : ClientManager) : ClientManager :=
  { s.spawn with reaper := .working s.nextCoroutine }.proceed s.nextCoroutine (.idle s.stale true)

/-- The reaper without the coroutine that it was in. -/
def cancelReaper (s : ClientManager) : ClientManager :=
  match s.reaper with
  | .working k =>
      match s.coroutines k with
      | some ⟨.disconnect c _, completed⟩ =>
          { s with reaper := .absent }.setCoroutine k (some ⟨.disconnect c .returns, completed⟩)
      | _ => { s with reaper := .absent }
  | _ => { s with reaper := .absent }

/-- `close_all`, to its first `await` or its end. -/
def closeAll (s : ClientManager) : ClientManager :=
  if s.reaper = .absent then
    s.spawn.proceed s.nextCoroutine (.close (s.slots.map Prod.fst))
  else s.cancelReaper.spawn.setCoroutine s.nextCoroutine (some ⟨.reaperEnd, true⟩)

/-- What a coroutine awaits completes. -/
def complete (s : ClientManager) (k : CoroutineId) (awaiting : Awaiting) : ClientManager :=
  let s := s.setCoroutine k (some ⟨awaiting, true⟩)
  match awaiting with
  | .create _ c | .reconnect _ c => s.setConnected c true
  | .disconnect c _ => s.setConnected c false
  | .reaperEnd => s

/-- A coroutine after its `await`. -/
def resume (s : ClientManager) (k : CoroutineId) : Awaiting → ClientManager
  | .create a c => ((s.setCoroutine k none).setSlot a ⟨c, s.now⟩).hand a c
  | .reconnect a c => (s.setCoroutine k none).hand a c
  | .disconnect _ next => s.proceed k next
  | .reaperEnd => s.proceed k (.close (s.slots.map Prod.fst))

/-- One step. -/
def step (s : ClientManager) : ClientLabel → Option ClientManager
  | .tick d => some { s with now := s.now + d }
  | .setCredentials => if s.slots = [] then some { s with credentials := true } else none
  | .get a => some (s.get a)
  | .disconnect a => some (s.disconnect a)
  | .disconnectIdle => some s.disconnectIdle
  | .wake =>
      match s.reaper with
      | .sleeping t => if t ≤ s.now then some s.wake else none
      | _ => none
  | .closeAll => some s.closeAll
  | .complete k =>
      match s.coroutines k with
      | some ⟨awaiting, false⟩ => some (s.complete k awaiting)
      | _ => none
  | .resume k =>
      match s.coroutines k with
      | some ⟨awaiting, true⟩ => some (s.resume k awaiting)
      | _ => none
  | .drop c => some (s.setConnected c false)
  | .release i => some { s with operations := s.operations.eraseIdx i }

/-! ## Which steps are possible -/

variable {s s' : ClientManager} {k : CoroutineId}

theorem step_wake (h : s.step .wake = some s') :
    (∃ t, s.reaper = .sleeping t ∧ t ≤ s.now) ∧ s' = s.wake := by
  cases hr : s.reaper with
  | sleeping t =>
      simp only [step, hr] at h
      split_ifs at h with ht
      exact ⟨⟨t, rfl, ht⟩, (Option.some.inj h).symm⟩
  | absent => simp [step, hr] at h
  | working j => simp [step, hr] at h

theorem step_complete (h : s.step (.complete k) = some s') :
    ∃ awaiting, s.coroutines k = some ⟨awaiting, false⟩ ∧ s' = s.complete k awaiting := by
  cases hk : s.coroutines k with
  | none => simp [step, hk] at h
  | some t =>
      obtain ⟨awaiting, done⟩ := t
      cases done with
      | true => simp [step, hk] at h
      | false =>
          simp only [step, hk] at h
          exact ⟨awaiting, rfl, (Option.some.inj h).symm⟩

theorem step_resume (h : s.step (.resume k) = some s') :
    ∃ awaiting, s.coroutines k = some ⟨awaiting, true⟩ ∧ s' = s.resume k awaiting := by
  cases hk : s.coroutines k with
  | none => simp [step, hk] at h
  | some t =>
      obtain ⟨awaiting, done⟩ := t
      cases done with
      | false => simp [step, hk] at h
      | true =>
          simp only [step, hk] at h
          exact ⟨awaiting, rfl, (Option.some.inj h).symm⟩

/-! ## What the loops find in the table -/

theorem firstSlot_congr (h : ∀ a, s'.slot a = s.slot a) (accounts : List AccountId) :
    s'.firstSlot accounts = s.firstSlot accounts := by
  induction accounts with
  | nil => rfl
  | cons a accounts ih =>
      unfold firstSlot
      rw [h a, ih]

theorem firstSlot_some {accounts rest : List AccountId} {a : AccountId} {x : ClientSlot}
    (h : s.firstSlot accounts = some (a, x, rest)) :
    s.slot a = some x ∧ a ∈ accounts ∧
      (∀ b ∈ accounts, (s.slot b).isSome → b = a ∨ b ∈ rest) ∧ rest ⊆ accounts := by
  induction accounts with
  | nil => exact absurd h (by simp [firstSlot])
  | cons d accounts ih =>
      unfold firstSlot at h
      cases hd : s.slot d with
      | some y =>
          simp only [hd, Option.some.injEq, Prod.mk.injEq] at h
          obtain ⟨rfl, rfl, rfl⟩ := h
          exact ⟨hd, List.mem_cons_self .., fun b hb _ => List.mem_cons.mp hb,
            List.subset_cons_self ..⟩
      | none =>
          simp only [hd] at h
          obtain ⟨hslot, hmem, hrest, hsub⟩ := ih h
          refine ⟨hslot, List.mem_cons_of_mem _ hmem, fun b hb hsome => ?_,
            List.subset_cons_of_subset _ hsub⟩
          rcases List.mem_cons.mp hb with rfl | hb
          · rw [hd] at hsome
            exact absurd hsome (by simp)
          · exact hrest b hb hsome

theorem firstSlot_none {accounts : List AccountId} (h : s.firstSlot accounts = none) :
    ∀ b ∈ accounts, s.slot b = none := by
  induction accounts with
  | nil => exact fun b hb => absurd hb (by simp)
  | cons d accounts ih =>
      unfold firstSlot at h
      cases hd : s.slot d with
      | some y => simp [hd] at h
      | none =>
          simp only [hd] at h
          intro b hb
          rcases List.mem_cons.mp hb with rfl | hb
          · exact hd
          · exact ih h b hb

end ClientManager
end Telegram
end MigrationStudio
