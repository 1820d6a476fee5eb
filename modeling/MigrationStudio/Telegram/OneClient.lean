import MigrationStudio.Telegram.ClientManager

/-!
# One connected client for each account

`get` looks into the table, awaits a connection and only then writes into the table; `disconnect`
takes the slot out first and awaits afterwards.  In between the account has a client that the table
does not show, and another `get` makes a second one.

* `Apart`: the step does not meet an operation at such an `await`.
* `Held`: a client is in the table, or a `get` is about to put it there, or its disconnection is
  under way.
* `OneClient`: an account holds one client at most, and every connected client is held.
* `one_client_per_account`: what holds in every run whose steps are apart.
-/

namespace MigrationStudio
namespace Telegram

open MigrationStudio.Core Foundations

/-- The coroutine is in `close_all`. -/
def Coroutine.closes (t : Coroutine) : Prop :=
  t.awaiting = .reaperEnd ∨ ∃ c rest, t.awaiting = .disconnect c (.close rest)

namespace ClientManager

variable {s s' : ClientManager} {a b : AccountId} {c c' : ClientId} {k : CoroutineId}
  {next : Continuation} {x : ClientSlot}

/-! ## What is under way -/

/-- A `get` of the account awaits the connection of a client that it has made. -/
def Creating (s : ClientManager) (a : AccountId) (c : ClientId) : Prop :=
  ∃ k done, s.coroutines k = some ⟨.create a c, done⟩

/-- A `get` awaits the connection of a client that it has found in the table. -/
def Reconnecting (s : ClientManager) (c : ClientId) : Prop :=
  ∃ k a done, s.coroutines k = some ⟨.reconnect a c, done⟩

/-- The `disconnect()` of the client has not completed. -/
def Disconnecting (s : ClientManager) (c : ClientId) : Prop :=
  ∃ k next, s.coroutines k = some ⟨.disconnect c next, false⟩

/-- A `close_all` is under way. -/
def Closing (s : ClientManager) : Prop := ∃ k t, s.coroutines k = some t ∧ t.closes

/-- The slot that a coroutine takes out of the table when it goes on. -/
def proceedPops (s : ClientManager) : Continuation → Option (AccountId × ClientSlot)
  | .returns => none
  | .idle accounts _ | .close accounts => (s.firstSlot accounts).map fun p => (p.1, p.2.1)

/-- What a step makes a coroutine go on with, if it is one of the loops. -/
def proceeds (s : ClientManager) : ClientLabel → Option Continuation
  | .disconnectIdle => some (.idle s.stale false)
  | .wake => some (.idle s.stale true)
  | .closeAll => if s.reaper = .absent then some (.close (s.slots.map Prod.fst)) else none
  | .resume k =>
      match s.coroutines k with
      | some ⟨.disconnect _ next, true⟩ => some next
      | some ⟨.reaperEnd, true⟩ => some (.close (s.slots.map Prod.fst))
      | _ => none
  | _ => none

/-- The slot that a step takes out of the table. -/
def pops (s : ClientManager) : ClientLabel → Option (AccountId × ClientSlot)
  | .disconnect a => (s.slot a).map fun x => (a, x)
  | l => (s.proceeds l).bind s.proceedPops

/-- In the step a `close_all` has no account left. -/
def endsClose (s : ClientManager) (l : ClientLabel) : Prop :=
  ∃ rest, s.proceeds l = some (.close rest) ∧ s.firstSlot rest = none

/-- **The step meets no operation at an `await` that the table does not show**: a `get` that makes a
client meets no other one of the account, no client of the account that is being disconnected and
no `close_all`; a slot is taken out of the table when no `get` awaits the connection of its client;
and `close_all` begins when no `get` is making a client, and returns when no disconnection is under
way. -/
structure Apart (s : ClientManager) (l : ClientLabel) : Prop where
  get : ∀ a, l = .get a → s.slot a = none → s.credentials = true →
    (∀ c, ¬ s.Creating a c) ∧ (∀ c, s.accountOf c = some a → ¬ s.Disconnecting c) ∧ ¬ s.Closing
  pop : ∀ a x, s.pops l = some (a, x) → ¬ s.Reconnecting x.client
  begins : l = .closeAll → ∀ a c, ¬ s.Creating a c
  ends : s.endsClose l → ∀ c, ¬ s.Disconnecting c

/-- The client that the table shows for the account. -/
def shown (s : ClientManager) (a : AccountId) : Option ClientId :=
  (s.slot a).map ClientSlot.client

/-- The account holds the client: the table shows it, or a `get` is making it, or it is being
disconnected. -/
def Held (s : ClientManager) (a : AccountId) (c : ClientId) : Prop :=
  s.accountOf c = some a ∧
    (s.shown a = some c ∨ s.Creating a c ∨ s.Disconnecting c)

/-- A `get` of the account has returned the client, and no slot of the account has been taken out
of the table since. -/
def GotSince (log : List ClientEvent) (a : AccountId) (c : ClientId) : Prop :=
  ∃ pre post, log = pre ++ .got a c :: post ∧ ∀ d idle, .popped a d idle ∉ post

/-- The callers of `get` for an account between two disconnections receive one client. -/
def SameClient (log : List ClientEvent) : Prop :=
  ∀ pre a c c', (pre ++ [.got a c']) <+: log → GotSince pre a c → c = c'

/-- **The invariant.** -/
structure OneClient (s : ClientManager) : Prop where
  fresh : ∀ k, s.nextCoroutine ≤ k → s.coroutines k = none
  made : ∀ a c, s.shown a = some c → s.accountOf c = some a
  one : ∀ a c c', s.Held a c → s.Held a c' → c = c'
  connected : ∀ c, s.isConnected c = true → ∃ a, s.Held a c
  creating : ∀ a c, s.Creating a c → s.accountOf c = some a ∧ s.shown a = none
  creatingOnce : ∀ k k' a c c' done done', s.coroutines k = some ⟨.create a c, done⟩ →
    s.coroutines k' = some ⟨.create a c', done'⟩ → k = k'
  reconnecting : ∀ k a c done, s.coroutines k = some ⟨.reconnect a c, done⟩ →
    s.shown a = some c
  closing : s.Closing → ∀ a c, ¬ s.Creating a c
  rest : ∀ k c rest done, s.coroutines k = some ⟨.disconnect c (.close rest), done⟩ →
    ∀ a, (s.shown a).isSome → a ∈ rest
  got : ∀ a c, GotSince s.log a c → s.shown a = some c
  same : SameClient s.log

/-! ## The table -/

theorem slot_setSlot (s : ClientManager) (a b : AccountId) (x : ClientSlot) :
    (s.setSlot a x).slot b = if b = a then some x else s.slot b := lookup_dictSet

theorem slot_pop (s : ClientManager) (k : CoroutineId) (a b : AccountId) (x : ClientSlot)
    (next : Continuation) :
    (s.pop k a x next).slot b = if b = a then none else s.slot b := lookup_dictPop

theorem proceedPops_spawn (s : ClientManager) (reaper : Reaper) (next : Continuation) :
    ({ s.spawn with reaper := reaper } : ClientManager).proceedPops next = s.proceedPops next := by
  have hfirst : ∀ accounts, ({ s.spawn with reaper := reaper } : ClientManager).firstSlot accounts =
      s.firstSlot accounts := firstSlot_congr fun _ => rfl
  cases next <;> simp only [proceedPops, hfirst]

/-! ## The log -/

variable {log : List ClientEvent} {event : ClientEvent}

/-- An event that takes no slot of the account out of the table leaves what has been got. -/
theorem gotSince_append (h : GotSince (log ++ [event]) a c) :
    event = .got a c ∨ (GotSince log a c ∧ ∀ d idle, event ≠ .popped a d idle) := by
  obtain ⟨pre, post, heq, hno⟩ := h
  rcases List.eq_nil_or_concat post with rfl | ⟨post, e, rfl⟩
  · obtain ⟨-, hlast⟩ := List.append_inj' heq rfl
    exact Or.inl (List.cons.inj hlast).1
  · rw [List.concat_eq_append] at heq hno
    have hsplit : log ++ [event] = (pre ++ .got a c :: post) ++ [e] := by
      rw [heq, List.append_assoc, List.cons_append]
    obtain ⟨hlog, hlast⟩ := List.append_inj' hsplit rfl
    have he : event = e := (List.cons.inj hlast).1
    refine Or.inr ⟨⟨pre, post, hlog, fun d idle hmem => ?_⟩, fun d idle heq => ?_⟩
    · exact hno d idle (List.mem_append_left _ hmem)
    · exact hno d idle (by rw [← heq, he]; simp)

/-- One more event: if it is a `get`, the account has no other client since. -/
theorem SameClient.append (h : SameClient log)
    (hnew : ∀ a c c', event = .got a c' → GotSince log a c → c = c') :
    SameClient (log ++ [event]) := by
  intro pre a c c' hpre hgot
  rcases List.prefix_concat_iff.mp hpre with heq | hbefore
  · obtain ⟨rfl, hlast⟩ := List.append_inj' heq rfl
    exact hnew a c c' (List.cons.inj hlast).1.symm hgot
  · exact h pre a c c' hbefore hgot

/-! ## A new client -/

/-- It is the last one, and of its account. -/
theorem accountOf_made (s : ClientManager) (a : AccountId) {d : ClientId} {b : AccountId} :
    ({ s with clients := s.clients ++ [⟨a, false⟩] } : ClientManager).accountOf d = some b ↔
      (d = s.clients.length ∧ b = a) ∨ s.accountOf d = some b := by
  show ((s.clients ++ [⟨a, false⟩])[d]?).map TelegramClient.account = some b ↔ _
  rw [accountOf]
  rcases Nat.lt_trichotomy d s.clients.length with hlt | rfl | hgt
  · have hne : d ≠ s.clients.length := Nat.ne_of_lt hlt
    rw [List.getElem?_append_left hlt]
    simp [hne]
  · simp [eq_comm]
  · have hne : d ≠ s.clients.length := Nat.ne_of_gt hgt
    rw [List.getElem?_eq_none (by rw [List.length_append]; exact hgt),
      List.getElem?_eq_none (Nat.le_of_lt hgt)]
    simp [hne]

/-- It is not connected. -/
theorem isConnected_made (s : ClientManager) (a : AccountId) (d : ClientId) :
    ({ s with clients := s.clients ++ [⟨a, false⟩] } : ClientManager).isConnected d =
      s.isConnected d := by
  show ((s.clients ++ [⟨a, false⟩])[d]?).any TelegramClient.connected = _
  rw [isConnected]
  rcases Nat.lt_trichotomy d s.clients.length with hlt | rfl | hgt
  · rw [List.getElem?_append_left hlt]
  · simp
  · rw [List.getElem?_eq_none (by rw [List.length_append]; exact hgt),
      List.getElem?_eq_none (Nat.le_of_lt hgt)]

/-- The coroutine neither makes a client nor waits for a disconnection that is under way. -/
def Settled (s : ClientManager) (k : CoroutineId) : Prop :=
  ∀ t, s.coroutines k = some t →
    (∀ a c, t.awaiting ≠ .create a c) ∧
      (t.completed = true ∨ ∀ c next, t.awaiting ≠ .disconnect c next)

theorem settled_of_none (h : s.coroutines k = none) : s.Settled k := by
  intro t ht
  rw [h] at ht
  exact absurd ht (by simp)

theorem coroutines_set {t : Option Coroutine} {j : CoroutineId} {u : Coroutine}
    (h : (s.setCoroutine k t).coroutines j = some u) :
    (j = k ∧ t = some u) ∨ (j ≠ k ∧ s.coroutines j = some u) := by
  unfold setCoroutine at h
  simp only [Function.update_apply] at h
  split_ifs at h with hj
  · exact Or.inl ⟨hj, h⟩
  · exact Or.inr ⟨hj, h⟩

theorem coroutines_set_self (s : ClientManager) (k : CoroutineId) (t : Option Coroutine) :
    (s.setCoroutine k t).coroutines k = t := Function.update_self ..

theorem coroutines_set_ne (s : ClientManager) {j : CoroutineId} (h : j ≠ k) (t : Option Coroutine) :
    (s.setCoroutine k t).coroutines j = s.coroutines j := Function.update_of_ne h ..

/-- A coroutine that is settled leaves what is under way when it goes on. -/
theorem Settled.keeps_creating (hk : s.Settled k) (t : Option Coroutine) (h : s.Creating a c) :
    (s.setCoroutine k t).Creating a c := by
  obtain ⟨j, done, hj⟩ := h
  refine ⟨j, done, ?_⟩
  rw [coroutines_set_ne s (fun heq => ?_)]
  · exact hj
  · subst heq
    exact (hk _ hj).1 a c rfl

theorem Settled.keeps_disconnecting (hk : s.Settled k) (t : Option Coroutine)
    (h : s.Disconnecting c) : (s.setCoroutine k t).Disconnecting c := by
  obtain ⟨j, next, hj⟩ := h
  refine ⟨j, next, ?_⟩
  rw [coroutines_set_ne s (fun heq => ?_)]
  · exact hj
  · subst heq
    exact (hk _ hj).2.elim (by simp) fun hno => hno c next rfl

/-! ## Clients that connect -/

theorem clients_setConnected (s : ClientManager) (c d : ClientId) (connected : Bool) :
    (s.setConnected c connected).clients[d]? =
      if d = c then (s.clients[d]?).map fun client => { client with connected := connected }
      else s.clients[d]? := by
  unfold setConnected
  split_ifs with hd
  · rw [hd]
    exact List.getElem?_modify_eq ..
  · exact List.getElem?_modify_ne _ _ fun heq => hd heq.symm

theorem accountOf_setConnected (s : ClientManager) (c d : ClientId) (connected : Bool) :
    (s.setConnected c connected).accountOf d = s.accountOf d := by
  unfold accountOf
  rw [clients_setConnected]
  split_ifs
  · rw [Option.map_map]
    rfl
  · rfl

theorem isConnected_setConnected {connected : Bool} {d : ClientId}
    (h : (s.setConnected c connected).isConnected d = true) :
    (d = c ∧ connected = true) ∨ (d ≠ c ∧ s.isConnected d = true) := by
  unfold isConnected at h
  rw [clients_setConnected] at h
  split_ifs at h with hd
  · refine Or.inl ⟨hd, ?_⟩
    cases hclient : s.clients[d]? with
    | none => simp [hclient] at h
    | some client => simpa [hclient] using h
  · exact Or.inr ⟨hd, h⟩

theorem isConnected_setConnected_false (s : ClientManager) (c : ClientId) :
    (s.setConnected c false).isConnected c = false := by
  by_contra h
  rcases isConnected_setConnected (Bool.not_eq_false _ |>.mp h) with ⟨-, hf⟩ | ⟨hne, -⟩
  · exact absurd hf (by simp)
  · exact hne rfl

/-! ## What keeps the invariant -/

namespace OneClient

/-- What the invariant does not read may change. -/
theorem of_same (h : s.OneClient) (hco : s'.coroutines = s.coroutines)
    (hshown : ∀ a, s'.shown a = s.shown a) (hclients : s'.clients = s.clients)
    (hlog : s'.log = s.log) (hnext : s.nextCoroutine ≤ s'.nextCoroutine) : s'.OneClient where
  fresh := by
    intro k hk
    rw [hco]
    exact h.fresh k (Nat.le_trans hnext hk)
  made := by
    intro a c
    rw [hshown, accountOf, hclients]
    exact h.made a c
  one := by
    intro a c c'
    simp only [Held, Creating, Disconnecting, accountOf, hco, hshown, hclients]
    exact h.one a c c'
  connected := by
    intro c
    simp only [Held, Creating, Disconnecting, accountOf, isConnected, hco, hshown, hclients]
    exact h.connected c
  creating := by
    intro a c
    simp only [Creating, accountOf, hco, hshown, hclients]
    exact h.creating a c
  creatingOnce := by
    rw [hco]
    exact h.creatingOnce
  reconnecting := by
    intro k a c done
    rw [hco, hshown]
    exact h.reconnecting k a c done
  closing := by
    simp only [Closing, Creating, hco]
    exact h.closing
  rest := by
    intro k c rest done
    simp only [hco, hshown]
    exact h.rest k c rest done
  got := by
    intro a c
    rw [hlog, hshown]
    exact h.got a c
  same := hlog ▸ h.same

/-- A coroutine that holds no client ends, or waits for the end of the reaper. -/
theorem settle (h : s.OneClient) (hk : s.Settled k) {t : Option Coroutine}
    (ht : ∀ u, t = some u → u.awaiting = .reaperEnd ∧ k < s.nextCoroutine ∧
      ∀ a c, ¬ s.Creating a c) : (s.setCoroutine k t).OneClient := by
  have hold : ∀ {j : CoroutineId} {u : Coroutine}, (s.setCoroutine k t).coroutines j = some u →
      u.awaiting ≠ .reaperEnd → s.coroutines j = some u := by
    intro j u hj hne
    rcases coroutines_set hj with ⟨-, rfl⟩ | ⟨-, hj⟩
    · exact absurd (ht u rfl).1 hne
    · exact hj
  have hcreating : ∀ {a c}, (s.setCoroutine k t).Creating a c → s.Creating a c :=
    fun ⟨j, done, hj⟩ => ⟨j, done, hold hj (by simp)⟩
  have hheld : ∀ {a c}, (s.setCoroutine k t).Held a c ↔ s.Held a c := by
    intro a c
    refine and_congr_right fun _ => or_congr Iff.rfl
      (or_congr ⟨hcreating, hk.keeps_creating t⟩ ⟨?_, hk.keeps_disconnecting t⟩)
    exact fun ⟨j, next, hj⟩ => ⟨j, next, hold hj (by simp)⟩
  refine
    { fresh := fun j hj => ?_
      made := h.made
      one := fun a c c' hc hc' => h.one a c c' (hheld.mp hc) (hheld.mp hc')
      connected := fun c hc => (h.connected c hc).imp fun a => hheld.mpr
      creating := fun a c hc => h.creating a c (hcreating hc)
      creatingOnce := fun j j' a c c' done done' hj hj' =>
        h.creatingOnce j j' a c c' done done' (hold hj (by simp)) (hold hj' (by simp))
      reconnecting := fun j a c done hj => h.reconnecting j a c done (hold hj (by simp))
      closing := ?_
      rest := fun j c rest done hj => h.rest j c rest done (hold hj (by simp))
      got := h.got
      same := h.same }
  · rcases eq_or_ne j k with rfl | hne
    · rw [coroutines_set_self]
      cases t with
      | none => rfl
      | some u => exact absurd (ht u rfl).2.1 (Nat.not_lt_of_le hj)
    · rw [coroutines_set_ne s hne]
      exact h.fresh j hj
  · rintro ⟨j, u, hj, hcloses⟩ a c hc
    rcases coroutines_set hj with ⟨-, rfl⟩ | ⟨-, hj⟩
    · exact (ht u rfl).2.2 a c (hcreating hc)
    · exact h.closing ⟨j, u, hj, hcloses⟩ a c (hcreating hc)

/-- `get` returns the client that the table shows. -/
theorem hand (h : s.OneClient) (hc : s.shown a = some c) : (s.hand a c).OneClient :=
  { h with
    got := by
      intro b d hgot
      rcases gotSince_append hgot with heq | ⟨hgot, -⟩
      · obtain ⟨rfl, rfl⟩ := ClientEvent.got.inj heq
        exact hc
      · exact h.got b d hgot
    same := by
      refine h.same.append fun b d d' heq hgot => ?_
      obtain ⟨rfl, rfl⟩ := ClientEvent.got.inj heq
      exact Option.some.inj ((h.got a d hgot).symm.trans hc) }

/-- `close_all` returns. -/
theorem closed (h : s.OneClient) : (s.record .closed).OneClient :=
  { h with
    got := fun b d hgot => by
      rcases gotSince_append hgot with heq | ⟨hgot, -⟩
      · exact absurd heq (by simp)
      · exact h.got b d hgot
    same := h.same.append fun _ _ _ heq => absurd heq (by simp) }

/-- A client loses its connection, or one that is held gets it. -/
theorem setConnected (h : s.OneClient) {connected : Bool}
    (hheld : connected = true → ∃ a, s.Held a c) : (s.setConnected c connected).OneClient where
  fresh := h.fresh
  made := fun a d hd => (accountOf_setConnected ..).trans (h.made a d hd)
  one := fun a d d' hd hd' => h.one a d d' ⟨(accountOf_setConnected ..).symm.trans hd.1, hd.2⟩
    ⟨(accountOf_setConnected ..).symm.trans hd'.1, hd'.2⟩
  connected := by
    intro d hd
    have hold : ∃ a, s.Held a d := by
      obtain ⟨rfl, htrue⟩ | ⟨-, hd⟩ := isConnected_setConnected hd
      · exact hheld htrue
      · exact h.connected d hd
    obtain ⟨a, hacc, hheld⟩ := hold
    exact ⟨a, (accountOf_setConnected ..).trans hacc, hheld⟩
  creating := fun a d hd =>
    ⟨(accountOf_setConnected ..).trans (h.creating a d hd).1, (h.creating a d hd).2⟩
  creatingOnce := h.creatingOnce
  reconnecting := h.reconnecting
  closing := h.closing
  rest := h.rest
  got := h.got
  same := h.same

/-- A `get` begins to await the connection of the client that the table shows. -/
theorem reconnect (h : s.OneClient) (hk : s.coroutines k = none) (hlt : k < s.nextCoroutine)
    (hc : s.shown a = some c) : (s.await k (.reconnect a c)).OneClient := by
  have hset := settled_of_none hk
  have hold : ∀ {j : CoroutineId} {u : Coroutine},
      (s.await k (.reconnect a c)).coroutines j = some u → u.awaiting ≠ .reconnect a c →
        s.coroutines j = some u := by
    intro j u hj hne
    rcases coroutines_set hj with ⟨-, hu⟩ | ⟨-, hj⟩
    · exact absurd (congrArg Coroutine.awaiting (Option.some.inj hu)).symm hne
    · exact hj
  have hcreating : ∀ {b d}, (s.await k (.reconnect a c)).Creating b d → s.Creating b d :=
    fun ⟨j, done, hj⟩ => ⟨j, done, hold hj (by simp)⟩
  have hheld : ∀ {b d}, (s.await k (.reconnect a c)).Held b d ↔ s.Held b d := by
    intro b d
    refine and_congr_right fun _ => or_congr Iff.rfl
      (or_congr ⟨hcreating, hset.keeps_creating _⟩ ⟨?_, hset.keeps_disconnecting _⟩)
    exact fun ⟨j, next, hj⟩ => ⟨j, next, hold hj (by simp)⟩
  refine
    { fresh := fun j hj => ?_
      made := h.made
      one := fun b d d' hd hd' => h.one b d d' (hheld.mp hd) (hheld.mp hd')
      connected := fun d hd => (h.connected d hd).imp fun b => hheld.mpr
      creating := fun b d hd => h.creating b d (hcreating hd)
      creatingOnce := fun j j' b d d' done done' hj hj' =>
        h.creatingOnce j j' b d d' done done' (hold hj (by simp)) (hold hj' (by simp))
      reconnecting := fun j b d done hj => ?_
      closing := ?_
      rest := fun j d rest done hj => h.rest j d rest done (hold hj (by simp))
      got := h.got
      same := h.same }
  · have hne : j ≠ k := fun heq => absurd (heq ▸ hlt) (Nat.not_lt_of_le hj)
    exact (coroutines_set_ne s hne _).trans (h.fresh j hj)
  · rcases coroutines_set hj with ⟨-, hu⟩ | ⟨-, hj⟩
    · obtain ⟨hb, hd⟩ := Awaiting.reconnect.inj
        (congrArg Coroutine.awaiting (Option.some.inj hu))
      exact hb ▸ hd ▸ hc
    · exact h.reconnecting j b d done hj
  · rintro ⟨j, u, hj, hcloses⟩ b d hd
    refine h.closing ⟨j, u, hold hj ?_, hcloses⟩ b d (hcreating hd)
    rintro heq
    rcases hcloses with hcl | ⟨_, _, hcl⟩
    · exact absurd (heq.symm.trans hcl) (by simp)
    · exact absurd (heq.symm.trans hcl) (by simp)

/-- **A slot is taken out of the table** while no `get` awaits the connection of its client. -/
theorem pop (h : s.OneClient) (hk : s.Settled k) (hlt : k < s.nextCoroutine)
    (hx : s.slot a = some x) (hre : ¬ s.Reconnecting x.client)
    (hclose : ∀ rest, next = .close rest → (∀ b d, ¬ s.Creating b d) ∧
      ∀ b, (s.shown b).isSome → b = a ∨ b ∈ rest) : (s.pop k a x next).OneClient := by
  have hshownx : s.shown a = some x.client := by rw [shown, hx, Option.map_some]
  have hshown : ∀ b, (s.pop k a x next).shown b = if b = a then none else s.shown b := by
    intro b
    rw [shown, slot_pop, apply_ite (Option.map ClientSlot.client)]
    rfl
  have hold : ∀ {j : CoroutineId} {u : Coroutine}, (s.pop k a x next).coroutines j = some u →
      u ≠ ⟨.disconnect x.client next, false⟩ → s.coroutines j = some u := by
    intro j u hj hne
    rcases coroutines_set (s := s) hj with ⟨-, hu⟩ | ⟨-, hj⟩
    · exact absurd (Option.some.inj hu).symm hne
    · exact hj
  have hcreating : ∀ {b d}, (s.pop k a x next).Creating b d → s.Creating b d :=
    fun ⟨j, done, hj⟩ => ⟨j, done, hold hj (by simp)⟩
  have hnew : (s.pop k a x next).Disconnecting x.client :=
    ⟨k, next, coroutines_set_self s k _⟩
  have hheld : ∀ {b d}, (s.pop k a x next).Held b d → s.Held b d := by
    rintro b d ⟨hacc, hd | hd | ⟨j, n, hj⟩⟩
    · rw [hshown] at hd
      split_ifs at hd
      exact ⟨hacc, Or.inl hd⟩
    · exact ⟨hacc, Or.inr (Or.inl (hcreating hd))⟩
    · by_cases hd : d = x.client
      · subst hd
        obtain rfl := Option.some.inj (hacc.symm.trans (h.made a _ hshownx))
        exact ⟨hacc, Or.inl hshownx⟩
      · exact ⟨hacc, Or.inr (Or.inr ⟨j, n, hold hj (by simp [hd])⟩)⟩
  refine
    { fresh := fun j hj => ?_
      made := fun b d hd => ?_
      one := fun b d d' hd hd' => h.one b d d' (hheld hd) (hheld hd')
      connected := fun d hd => ?_
      creating := fun b d hd => ?_
      creatingOnce := fun j j' b d d' done done' hj hj' =>
        h.creatingOnce j j' b d d' done done' (hold hj (by simp)) (hold hj' (by simp))
      reconnecting := fun j b d done hj => ?_
      closing := ?_
      rest := fun j d rest done hj b hb => ?_
      got := fun b d hgot => ?_
      same := h.same.append fun _ _ _ heq => absurd heq (by simp) }
  · have hne : j ≠ k := fun heq => absurd (heq ▸ hlt) (Nat.not_lt_of_le hj)
    exact (coroutines_set_ne s hne _).trans (h.fresh j hj)
  · rw [hshown] at hd
    split_ifs at hd
    exact h.made b d hd
  · obtain ⟨b, hacc, hin | hin | hin⟩ := h.connected d hd
    · by_cases hb : b = a
      · have hdx : d = x.client := Option.some.inj ((hb ▸ hin).symm.trans hshownx)
        exact ⟨b, hacc, Or.inr (Or.inr (hdx ▸ hnew))⟩
      · refine ⟨b, hacc, Or.inl ?_⟩
        rw [hshown, if_neg hb]
        exact hin
    · exact ⟨b, hacc, Or.inr (Or.inl (hk.keeps_creating _ hin))⟩
    · exact ⟨b, hacc, Or.inr (Or.inr (hk.keeps_disconnecting _ hin))⟩
  · obtain ⟨hacc, hnone⟩ := h.creating b d (hcreating hd)
    refine ⟨hacc, ?_⟩
    rw [hshown, hnone]
    exact ite_self _
  · have hj' := hold hj (by simp)
    have hd := h.reconnecting j b d done hj'
    rw [hshown, if_neg fun hb => ?_]
    · exact hd
    · subst hb
      obtain rfl := Option.some.inj (hd.symm.trans hshownx)
      exact hre ⟨j, b, done, hj'⟩
  · rintro ⟨j, u, hj, hcloses⟩ b d hd
    rcases coroutines_set (s := s) hj with ⟨-, hu⟩ | ⟨-, hj⟩
    · obtain rfl := Option.some.inj hu
      rcases hcloses with hcl | ⟨_, rest, hcl⟩
      · exact absurd hcl (by simp)
      · exact (hclose rest (Awaiting.disconnect.inj hcl).2).1 b d (hcreating hd)
    · exact h.closing ⟨j, u, hj, hcloses⟩ b d (hcreating hd)
  · rw [hshown] at hb
    split_ifs at hb with hba
    · exact absurd hb (by simp)
    · rcases coroutines_set (s := s) hj with ⟨-, hu⟩ | ⟨-, hj⟩
      · have hcl := congrArg Coroutine.awaiting (Option.some.inj hu)
        exact ((hclose rest (Awaiting.disconnect.inj hcl).2).2 b hb).resolve_left hba
      · exact h.rest j d rest done hj b hb
  · rcases gotSince_append hgot with heq | ⟨hgot, hno⟩
    · exact absurd heq (by simp)
    · rw [hshown, if_neg fun hb => ?_]
      · exact h.got b d hgot
      · exact hno x.client _ (by rw [hb])

/-- What a coroutine awaits completes, or the reaper is cancelled: it awaits the same as before, and
a disconnection that is no longer under way has left its client without a connection. -/
theorem relabel (h : s.OneClient) {t u : Coroutine} (hk : s.coroutines k = some t)
    (hcreate : ∀ a c, u.awaiting = .create a c ↔ t.awaiting = .create a c)
    (hre : ∀ a c, u.awaiting = .reconnect a c → t.awaiting = .reconnect a c)
    (hend : u.awaiting = .reaperEnd → t.awaiting = .reaperEnd)
    (hclose : ∀ c rest, u.awaiting = .disconnect c (.close rest) → t.awaiting = u.awaiting)
    (hnew : ∀ c n, u = ⟨.disconnect c n, false⟩ → ∃ n', t = ⟨.disconnect c n', false⟩)
    (hgone : ∀ c n, t = ⟨.disconnect c n, false⟩ →
      (∃ n', u = ⟨.disconnect c n', false⟩) ∨ s.isConnected c = false) :
    (s.setCoroutine k (some u)).OneClient := by
  have hcreating : ∀ {a c}, (s.setCoroutine k (some u)).Creating a c ↔ s.Creating a c := by
    intro a c
    constructor
    · rintro ⟨j, done, hj⟩
      rcases coroutines_set hj with ⟨-, hu⟩ | ⟨-, hj⟩
      · have haw := (hcreate a c).mp (congrArg Coroutine.awaiting (Option.some.inj hu))
        exact ⟨k, t.completed, by rw [hk, ← haw]⟩
      · exact ⟨j, done, hj⟩
    · rintro ⟨j, done, hj⟩
      by_cases hjk : j = k
      · subst hjk
        have ht : t = ⟨.create a c, done⟩ := Option.some.inj (hk.symm.trans hj)
        have haw := (hcreate a c).mpr (by rw [ht])
        exact ⟨j, u.completed, by rw [coroutines_set_self, ← haw]⟩
      · exact ⟨j, done, (coroutines_set_ne s hjk _).trans hj⟩
  have hdis : ∀ {c}, (s.setCoroutine k (some u)).Disconnecting c → s.Disconnecting c := by
    rintro c ⟨j, n, hj⟩
    rcases coroutines_set hj with ⟨-, hu⟩ | ⟨-, hj⟩
    · obtain ⟨n', ht⟩ := hnew c n (Option.some.inj hu)
      exact ⟨k, n', ht ▸ hk⟩
    · exact ⟨j, n, hj⟩
  have hheld : ∀ {a c}, (s.setCoroutine k (some u)).Held a c → s.Held a c := fun hheld =>
    ⟨hheld.1, hheld.2.imp_right fun hu => hu.imp hcreating.mp hdis⟩
  refine
    { fresh := fun j hj => ?_
      made := h.made
      one := fun a c c' hc hc' => h.one a c c' (hheld hc) (hheld hc')
      connected := fun c hc => ?_
      creating := fun a c hc => h.creating a c (hcreating.mp hc)
      creatingOnce := ?_
      reconnecting := fun j a c done hj => ?_
      closing := ?_
      rest := fun j c rest done hj => ?_
      got := h.got
      same := h.same }
  · have hne : j ≠ k := by
      rintro rfl
      exact absurd (hk.symm.trans (h.fresh j hj)) (by simp)
    exact (coroutines_set_ne s hne _).trans (h.fresh j hj)
  · obtain ⟨a, hacc, hin | hin | ⟨j, n, hj⟩⟩ := h.connected c hc
    · exact ⟨a, hacc, Or.inl hin⟩
    · exact ⟨a, hacc, Or.inr (Or.inl (hcreating.mpr hin))⟩
    · refine ⟨a, hacc, Or.inr (Or.inr ?_)⟩
      by_cases hjk : j = k
      · subst hjk
        rcases hgone c n (Option.some.inj (hk.symm.trans hj)) with ⟨n', hu⟩ | hno
        · exact ⟨j, n', by rw [coroutines_set_self, hu]⟩
        · exact absurd (hno.symm.trans hc) (by simp)
      · exact ⟨j, n, (coroutines_set_ne s hjk _).trans hj⟩
  · have hback : ∀ {j a c done}, (s.setCoroutine k (some u)).coroutines j =
        some ⟨.create a c, done⟩ → ∃ done', s.coroutines j = some ⟨.create a c, done'⟩ := by
      intro j a c done hj
      rcases coroutines_set hj with ⟨rfl, hu⟩ | ⟨-, hj⟩
      · have haw := (hcreate a c).mp (congrArg Coroutine.awaiting (Option.some.inj hu))
        exact ⟨t.completed, by rw [hk, ← haw]⟩
      · exact ⟨done, hj⟩
    intro j j' a c c' done done' hj hj'
    obtain ⟨d, hj⟩ := hback hj
    obtain ⟨d', hj'⟩ := hback hj'
    exact h.creatingOnce j j' a c c' d d' hj hj'
  · rcases coroutines_set hj with ⟨-, hu⟩ | ⟨-, hj⟩
    · have haw := hre a c (congrArg Coroutine.awaiting (Option.some.inj hu))
      exact h.reconnecting k a c t.completed (by rw [hk, ← haw])
    · exact h.reconnecting j a c done hj
  · rintro ⟨j, v, hj, hcloses⟩ a c hc
    rcases coroutines_set hj with ⟨-, hu⟩ | ⟨-, hj⟩
    · obtain rfl := Option.some.inj hu
      refine h.closing ⟨k, t, hk, ?_⟩ a c (hcreating.mp hc)
      rcases hcloses with hcl | ⟨d, rest, hcl⟩
      · exact Or.inl (hend hcl)
      · exact Or.inr ⟨d, rest, (hclose d rest hcl).trans hcl⟩
    · exact h.closing ⟨j, v, hj, hcloses⟩ a c (hcreating.mp hc)
  · rcases coroutines_set hj with ⟨-, hu⟩ | ⟨-, hj⟩
    · have haw := congrArg Coroutine.awaiting (Option.some.inj hu)
      have hback : t.awaiting = .disconnect c (.close rest) := (hclose c rest haw).trans haw
      exact h.rest k c rest t.completed (by rw [hk, ← hback])
    · exact h.rest j c rest done hj

/-- **A `get` makes a client** for an account that holds none. -/
theorem create (h : s.OneClient) (hk : s.coroutines k = none) (hlt : k < s.nextCoroutine)
    (hshown : s.shown a = none) (hno : ∀ c, ¬ s.Creating a c)
    (hdis : ∀ c, s.accountOf c = some a → ¬ s.Disconnecting c) (hcl : ¬ s.Closing) :
    (({ s with clients := s.clients ++ [⟨a, false⟩] } : ClientManager).await k
      (.create a s.clients.length)).OneClient := by
  have hset := settled_of_none hk
  let n := s.clients.length
  let s₁ := ({ s with clients := s.clients ++ [⟨a, false⟩] } : ClientManager).await k (.create a n)
  have hco : ∀ {j : CoroutineId} {u : Coroutine}, s₁.coroutines j = some u →
      (j = k ∧ u = ⟨.create a n, false⟩) ∨ s.coroutines j = some u := by
    intro j u hj
    rcases coroutines_set (s := s) hj with ⟨hjk, hu⟩ | ⟨-, hj⟩
    · exact Or.inl ⟨hjk, (Option.some.inj hu).symm⟩
    · exact Or.inr hj
  have hold : ∀ {j : CoroutineId} {u : Coroutine}, s₁.coroutines j = some u →
      u ≠ ⟨.create a n, false⟩ → s.coroutines j = some u := fun hj hne =>
    (hco hj).resolve_left fun heq => hne heq.2
  have hmade : ∀ {d : ClientId} {b : AccountId}, s₁.accountOf d = some b ↔
      (d = n ∧ b = a) ∨ s.accountOf d = some b := accountOf_made s a
  have hfree : ∀ c, ¬ s.Held a c := by
    rintro c ⟨hc, hin | hin | hin⟩
    · exact absurd (hshown.symm.trans hin) (by simp)
    · exact hno c hin
    · exact hdis c hc hin
  have hcreating : ∀ {b d}, s₁.Creating b d → (b = a ∧ d = n) ∨ s.Creating b d := by
    rintro b d ⟨j, done, hj⟩
    rcases hco hj with ⟨-, hu⟩ | hj
    · obtain ⟨hb, hd⟩ := Awaiting.create.inj (congrArg Coroutine.awaiting hu)
      exact Or.inl ⟨hb, hd⟩
    · exact Or.inr ⟨j, done, hj⟩
  have hheld : ∀ {b d}, s₁.Held b d → (b = a ∧ d = n) ∨ s.Held b d := by
    rintro b d ⟨hd, hin⟩
    rcases hmade.mp hd with ⟨rfl, rfl⟩ | hd
    · exact Or.inl ⟨rfl, rfl⟩
    · rcases hin with hin | hin | ⟨j, m, hj⟩
      · exact Or.inr ⟨hd, Or.inl hin⟩
      · exact (hcreating hin).imp id fun hin => ⟨hd, Or.inr (Or.inl hin)⟩
      · exact Or.inr ⟨hd, Or.inr (Or.inr ⟨j, m, hold hj (by simp)⟩)⟩
  refine
    { fresh := fun j hj => ?_
      made := fun b d hd => hmade.mpr (Or.inr (h.made b d hd))
      one := fun b d d' hd hd' => ?_
      connected := fun d hd => ?_
      creating := fun b d hd => ?_
      creatingOnce := fun j j' b d d' done done' hj hj' => ?_
      reconnecting := fun j b d done hj => h.reconnecting j b d done (hold hj (by simp))
      closing := ?_
      rest := fun j d rest done hj => h.rest j d rest done (hold hj (by simp))
      got := h.got
      same := h.same }
  · have hne : j ≠ k := fun heq => absurd (heq ▸ hlt) (Nat.not_lt_of_le hj)
    exact (coroutines_set_ne s hne _).trans (h.fresh j hj)
  · rcases hheld hd with ⟨rfl, rfl⟩ | hin
    · exact ((hheld hd').resolve_right (hfree d')).2.symm
    · rcases hheld hd' with ⟨rfl, rfl⟩ | hin'
      · exact absurd hin (hfree d)
      · exact h.one b d d' hin hin'
  · have hd' : s.isConnected d = true := (isConnected_made s a d).symm.trans hd
    obtain ⟨b, hb, hin⟩ := h.connected d hd'
    exact ⟨b, hmade.mpr (Or.inr hb), hin.imp_right fun hin =>
      hin.imp (hset.keeps_creating _) (hset.keeps_disconnecting _)⟩
  · rcases hcreating hd with ⟨rfl, rfl⟩ | hd
    · exact ⟨hmade.mpr (Or.inl ⟨rfl, rfl⟩), hshown⟩
    · exact ⟨hmade.mpr (Or.inr (h.creating b d hd).1), (h.creating b d hd).2⟩
  · rcases hco hj with ⟨rfl, hu⟩ | hold₁
    · rcases hco hj' with ⟨rfl, -⟩ | hold₂
      · rfl
      · have hb := (Awaiting.create.inj (congrArg Coroutine.awaiting hu)).1
        exact absurd ⟨j', done', hb ▸ hold₂⟩ (hno d')
    · rcases hco hj' with ⟨rfl, hu⟩ | hold₂
      · have hb := (Awaiting.create.inj (congrArg Coroutine.awaiting hu)).1
        exact absurd ⟨j, done, hb ▸ hold₁⟩ (hno d)
      · exact h.creatingOnce j j' b d d' done done' hold₁ hold₂
  · rintro ⟨j, u, hj, hcloses⟩
    refine absurd ⟨j, u, hold hj ?_, hcloses⟩ hcl
    rintro rfl
    exact hcloses.elim (by simp) fun ⟨_, _, heq⟩ => absurd heq (by simp)

/-- **A `get` puts the client that it has made into the table.** -/
theorem store (h : s.OneClient) {done : Bool} (hk : s.coroutines k = some ⟨.create a c, done⟩)
    (now : ℕ) : (((s.setCoroutine k none).setSlot a ⟨c, now⟩).hand a c).OneClient := by
  let s₁ := ((s.setCoroutine k none).setSlot a ⟨c, now⟩).hand a c
  have hmine : s.Creating a c := ⟨k, done, hk⟩
  obtain ⟨hacc, hnone⟩ := h.creating a c hmine
  have hold : ∀ {j : CoroutineId} {u : Coroutine}, s₁.coroutines j = some u →
      j ≠ k ∧ s.coroutines j = some u := by
    intro j u hj
    rcases coroutines_set (s := s) hj with ⟨-, hu⟩ | hj
    · exact absurd hu (by simp)
    · exact hj
  have hshown : ∀ b, s₁.shown b = if b = a then some c else s.shown b := by
    intro b
    show ((((s.setCoroutine k none).setSlot a ⟨c, now⟩).slot b).map ClientSlot.client) = _
    rw [slot_setSlot, apply_ite (Option.map ClientSlot.client)]
    rfl
  have hne : ∀ {b d}, s.shown b = some d → b ≠ a := by
    rintro b d hd rfl
    exact absurd (hnone.symm.trans hd) (by simp)
  have hcreating : ∀ {b d}, s₁.Creating b d → s.Creating b d :=
    fun ⟨j, done, hj⟩ => ⟨j, done, (hold hj).2⟩
  have hheld : ∀ {b d}, s₁.Held b d → s.Held b d := by
    rintro b d ⟨hd, hin | hin | ⟨j, n, hj⟩⟩
    · rw [hshown] at hin
      split_ifs at hin with hb
      · exact ⟨hd, Or.inr (Or.inl (hb ▸ Option.some.inj hin ▸ hmine))⟩
      · exact ⟨hd, Or.inl hin⟩
    · exact ⟨hd, Or.inr (Or.inl (hcreating hin))⟩
    · exact ⟨hd, Or.inr (Or.inr ⟨j, n, (hold hj).2⟩)⟩
  have hclosing : ¬ s.Closing := fun hcl => h.closing hcl a c hmine
  refine
    { fresh := fun j hj => ?_
      made := fun b d hd => ?_
      one := fun b d d' hd hd' => h.one b d d' (hheld hd) (hheld hd')
      connected := fun d hd => ?_
      creating := fun b d hd => ?_
      creatingOnce := fun j j' b d d' done done' hj hj' =>
        h.creatingOnce j j' b d d' done done' (hold hj).2 (hold hj').2
      reconnecting := fun j b d done hj => ?_
      closing := fun ⟨j, u, hj, hcl⟩ => absurd ⟨j, u, (hold hj).2, hcl⟩ hclosing
      rest := fun j d rest done hj =>
        absurd ⟨j, _, (hold hj).2, Or.inr ⟨d, rest, rfl⟩⟩ hclosing
      got := fun b d hgot => ?_
      same := ?_ }
  · cases hj' : s₁.coroutines j with
    | none => rfl
    | some u => exact absurd ((h.fresh j hj).symm.trans (hold hj').2) (by simp)
  · rw [hshown] at hd
    split_ifs at hd with hb
    · show s.accountOf d = some b
      rw [← Option.some.inj hd, hb]
      exact hacc
    · exact h.made b d hd
  · obtain ⟨b, hb, hin | ⟨j, done', hj⟩ | ⟨j, n, hj⟩⟩ := h.connected d hd
    · refine ⟨b, hb, Or.inl ?_⟩
      rw [hshown, if_neg (hne hin)]
      exact hin
    · by_cases hjk : j = k
      · subst hjk
        obtain ⟨rfl, rfl⟩ := Awaiting.create.inj
          (congrArg Coroutine.awaiting (Option.some.inj (hk.symm.trans hj)))
        refine ⟨a, hb, Or.inl ?_⟩
        rw [hshown, if_pos rfl]
      · exact ⟨b, hb, Or.inr (Or.inl ⟨j, done', (coroutines_set_ne s hjk none).trans hj⟩)⟩
    · refine ⟨b, hb, Or.inr (Or.inr ⟨j, n, (coroutines_set_ne s ?_ none).trans hj⟩)⟩
      rintro rfl
      exact absurd (hk.symm.trans hj) (by simp)
  · obtain ⟨j, done', hj⟩ := hd
    obtain ⟨hjk, hback⟩ := hold hj
    obtain ⟨hb, hn⟩ := h.creating b d ⟨j, done', hback⟩
    refine ⟨hb, ?_⟩
    rw [hshown, if_neg fun hba => ?_]
    · exact hn
    · subst hba
      exact hjk (h.creatingOnce j k b d c done' done hback hk)
  · have hd := h.reconnecting j b d done (hold hj).2
    rw [hshown, if_neg (hne hd)]
    exact hd
  · rcases gotSince_append hgot with heq | ⟨hgot, -⟩
    · obtain ⟨rfl, rfl⟩ := ClientEvent.got.inj heq
      rw [hshown, if_pos rfl]
    · have hd := h.got b d hgot
      rw [hshown, if_neg (hne hd)]
      exact hd
  · refine h.same.append fun b d d' heq hgot => ?_
    obtain ⟨rfl, rfl⟩ := ClientEvent.got.inj heq
    exact absurd (hnone.symm.trans (h.got a d hgot)) (by simp)

/-- The loops of `disconnect_idle` and `close_all` keep it, from one `await` to the next. -/
theorem proceed (h : s.OneClient) (hk : s.Settled k) (hlt : k < s.nextCoroutine)
    (hre : ∀ a x, s.proceedPops next = some (a, x) → ¬ s.Reconnecting x.client)
    (hclose : ∀ rest, next = .close rest → (∀ b d, ¬ s.Creating b d) ∧
      ∀ b, (s.shown b).isSome → b ∈ rest) : (s.proceed k next).OneClient := by
  have hends : (s.setCoroutine k none).OneClient := h.settle hk (by simp)
  have hpop : ∀ {accounts rest : List AccountId} {a : AccountId} {x : ClientSlot}
      {cont : Continuation},
      s.proceedPops next = (s.firstSlot accounts).map (fun p => (p.1, p.2.1)) →
      s.firstSlot accounts = some (a, x, rest) →
      (∀ l, cont = .close l → (∀ b d, ¬ s.Creating b d) ∧
        ∀ b, (s.shown b).isSome → b = a ∨ b ∈ l) → (s.pop k a x cont).OneClient := by
    intro accounts rest a x cont hpops hfirst hcont
    refine h.pop hk hlt (firstSlot_some hfirst).1 (hre a x ?_) hcont
    rw [hpops, hfirst, Option.map_some]
  cases next with
  | returns => exact hends
  | idle stale reaper =>
      simp only [ClientManager.proceed]
      cases hfirst : s.firstSlot stale with
      | some p =>
          obtain ⟨a, x, rest⟩ := p
          exact hpop rfl hfirst (fun l hl => absurd hl (by simp))
      | none =>
          simp only
          split_ifs
          · exact hends.of_same rfl (fun _ => rfl) rfl rfl (Nat.le_refl _)
          · exact hends
  | close rest =>
      obtain ⟨hno, hmem⟩ := hclose rest rfl
      simp only [ClientManager.proceed]
      cases hfirst : s.firstSlot rest with
      | some p =>
          obtain ⟨a, x, rest'⟩ := p
          refine hpop rfl hfirst fun l hl => ⟨hno, fun b hb => ?_⟩
          have hslot : (s.slot b).isSome := by
            rwa [shown, Option.isSome_map] at hb
          rw [← Continuation.close.inj hl]
          exact (firstSlot_some hfirst).2.2.1 b (hmem b hb) hslot
      | none => exact hends.closed

theorem spawn (h : s.OneClient) : s.spawn.OneClient :=
  h.of_same rfl (fun _ => rfl) rfl rfl (Nat.le_succ _)

theorem settled_next (h : s.OneClient) : s.spawn.Settled s.nextCoroutine :=
  settled_of_none (h.fresh _ (Nat.le_refl _))

end OneClient

theorem mem_keys_of_shown (h : (s.shown a).isSome) : a ∈ s.slots.map Prod.fst := by
  rw [shown, Option.isSome_map] at h
  obtain ⟨x, hx⟩ := Option.isSome_iff_exists.mp h
  exact mem_keys_of_lookup hx

namespace OneClient

/-- `get`. -/
theorem get (h : s.OneClient)
    (hfree : s.slot a = none → s.credentials = true →
      (∀ c, ¬ s.Creating a c) ∧ (∀ c, s.accountOf c = some a → ¬ s.Disconnecting c) ∧
        ¬ s.Closing) : (s.get a).OneClient := by
  have hsleep : s.startReaper.OneClient := by
    unfold startReaper
    split_ifs
    · exact h.of_same rfl (fun _ => rfl) rfl rfl (Nat.le_refl _)
    · exact h
  have hfree' : s.startReaper.slot a = none → s.startReaper.credentials = true →
      (∀ c, ¬ s.startReaper.Creating a c) ∧
        (∀ c, s.startReaper.accountOf c = some a → ¬ s.startReaper.Disconnecting c) ∧
        ¬ s.startReaper.Closing := by
    unfold startReaper
    split_ifs
    · exact hfree
    · exact hfree
  unfold ClientManager.get
  generalize s.startReaper = u at hsleep hfree'
  cases hslot : u.slot a with
  | some x =>
      have hshown : ∀ b, (u.setSlot a { x with lastUsed := u.now }).shown b = u.shown b := by
        intro b
        unfold shown
        rw [slot_setSlot]
        split_ifs with hb
        · rw [hb, hslot]
          rfl
        · rfl
      have htouched : (u.setSlot a { x with lastUsed := u.now }).OneClient :=
        hsleep.of_same rfl hshown rfl rfl (Nat.le_refl _)
      have hx : (u.setSlot a { x with lastUsed := u.now }).shown a = some x.client := by
        rw [hshown, shown, hslot, Option.map_some]
      simp only [hslot]
      split_ifs
      · exact htouched.hand hx
      · exact htouched.spawn.reconnect (htouched.fresh _ (Nat.le_refl _)) (Nat.lt_succ_self _) hx
  | none =>
      simp only [hslot]
      split_ifs with hcred
      · obtain ⟨hno, hdis, hcl⟩ := hfree' hslot hcred
        exact hsleep.spawn.create (hsleep.fresh _ (Nat.le_refl _)) (Nat.lt_succ_self _)
          (by rw [shown]; exact congrArg _ hslot) hno hdis hcl
      · exact hsleep

/-- What a coroutine awaits completes. -/
theorem complete (h : s.OneClient) {awaiting : Awaiting}
    (hk : s.coroutines k = some ⟨awaiting, false⟩) : (s.complete k awaiting).OneClient := by
  cases awaiting with
  | create a c =>
      have hset : (s.setCoroutine k (some ⟨.create a c, true⟩)).OneClient :=
        h.relabel hk (fun _ _ => Iff.rfl) (fun _ _ => id) id (fun _ _ _ => rfl) (by simp) (by simp)
      refine hset.setConnected fun _ => ⟨a, ?_, Or.inr (Or.inl ⟨k, true, coroutines_set_self ..⟩)⟩
      exact (h.creating a c ⟨k, false, hk⟩).1
  | reconnect a c =>
      have hset : (s.setCoroutine k (some ⟨.reconnect a c, true⟩)).OneClient :=
        h.relabel hk (fun _ _ => Iff.rfl) (fun _ _ => id) id (fun _ _ _ => rfl) (by simp) (by simp)
      have hshown := h.reconnecting k a c false hk
      exact hset.setConnected fun _ => ⟨a, h.made a c hshown, Or.inl hshown⟩
  | disconnect c next =>
      have hdown : (s.setConnected c false).OneClient := h.setConnected (by simp)
      refine hdown.relabel hk (fun _ _ => Iff.rfl) (fun _ _ => id) id (fun _ _ _ => rfl)
        (by simp) ?_
      intro d n heq
      obtain ⟨rfl, -⟩ := Awaiting.disconnect.inj (congrArg Coroutine.awaiting heq)
      exact Or.inr (isConnected_setConnected_false s c)
  | reaperEnd =>
      exact h.relabel hk (fun _ _ => Iff.rfl) (fun _ _ => id) id (fun _ _ _ => rfl) (by simp)
        (by simp)

/-- The reaper is cancelled. -/
theorem cancelReaper (h : s.OneClient) : s.cancelReaper.OneClient := by
  have hsame : ({ s with reaper := .absent } : ClientManager).OneClient :=
    h.of_same rfl (fun _ => rfl) rfl rfl (Nat.le_refl _)
  unfold ClientManager.cancelReaper
  split
  · split
    · rename_i k c next done hk
      refine hsame.relabel (t := ⟨.disconnect c next, done⟩) hk (by simp) (by simp) (by simp)
        (by simp) ?_ ?_
      · intro d n heq
        obtain ⟨hd, hdone⟩ := Coroutine.mk.inj heq
        exact ⟨next, by rw [(Awaiting.disconnect.inj hd).1, hdone]⟩
      · intro d n heq
        obtain ⟨hd, hdone⟩ := Coroutine.mk.inj heq
        exact Or.inl ⟨.returns, by rw [(Awaiting.disconnect.inj hd).1, hdone]⟩
    · exact hsame
  · exact hsame

theorem creating_cancelReaper (hc : s.cancelReaper.Creating a c) : s.Creating a c := by
  unfold ClientManager.cancelReaper at hc
  split at hc
  · split at hc
    · obtain ⟨j, done, hj⟩ := hc
      rcases coroutines_set hj with ⟨-, heq⟩ | ⟨-, hj⟩
      · exact absurd (congrArg Coroutine.awaiting (Option.some.inj heq)) (by simp)
      · exact ⟨j, done, hj⟩
    · exact hc
  · exact hc

/-- `close_all`. -/
theorem closeAll (h : s.OneClient) (hno : ∀ a c, ¬ s.Creating a c)
    (hre : s.reaper = .absent → ∀ a x, s.proceedPops (.close (s.slots.map Prod.fst)) = some (a, x) →
      ¬ s.Reconnecting x.client) : s.closeAll.OneClient := by
  unfold ClientManager.closeAll
  split_ifs with hreaper
  · refine h.spawn.proceed h.settled_next (Nat.lt_succ_self _) (fun a x hpop => ?_)
      fun rest hrest => ⟨hno, fun b hb => ?_⟩
    · exact hre hreaper a x ((proceedPops_spawn s s.reaper _).symm.trans hpop)
    · rw [← Continuation.close.inj hrest]
      exact mem_keys_of_shown hb
  · have hcancel := h.cancelReaper
    have hnext : s.cancelReaper.nextCoroutine = s.nextCoroutine := by
      unfold ClientManager.cancelReaper
      split
      · split <;> rfl
      · rfl
    refine hcancel.spawn.settle ?_ fun u hu => ?_
    · exact hnext ▸ hcancel.settled_next
    · obtain rfl := Option.some.inj hu
      refine ⟨rfl, ?_, fun a c hc => hno a c (creating_cancelReaper hc)⟩
      rw [← hnext]
      exact Nat.lt_succ_self _

/-- **One step** that is apart. -/
theorem step {l : ClientLabel} (h : s.OneClient) (hapart : s.Apart l)
    (hstep : s.step l = some s') : s'.OneClient := by
  have hkeys : ∀ b, (s.shown b).isSome → b ∈ s.slots.map Prod.fst := fun b => mem_keys_of_shown
  cases l with
  | tick d =>
      obtain rfl := Option.some.inj hstep
      exact h.of_same rfl (fun _ => rfl) rfl rfl (Nat.le_refl _)
  | setCredentials =>
      unfold ClientManager.step at hstep
      split_ifs at hstep
      obtain rfl := Option.some.inj hstep
      exact h.of_same rfl (fun _ => rfl) rfl rfl (Nat.le_refl _)
  | get a =>
      obtain rfl := Option.some.inj hstep
      exact h.get (hapart.get a rfl)
  | disconnect a =>
      obtain rfl := Option.some.inj hstep
      unfold ClientManager.disconnect
      cases hx : s.slot a with
      | none => exact h
      | some x =>
          refine h.spawn.pop h.settled_next (Nat.lt_succ_self _) hx ?_ (by simp)
          exact hapart.pop a x (by simp only [pops, hx, Option.map_some])
  | disconnectIdle =>
      obtain rfl := Option.some.inj hstep
      refine h.spawn.proceed h.settled_next (Nat.lt_succ_self _) (fun a x hpop => ?_) (by simp)
      have hpop' := (proceedPops_spawn s s.reaper _).symm.trans hpop
      exact hapart.pop a x hpop'
  | wake =>
      obtain ⟨-, rfl⟩ := step_wake hstep
      have hawake : ({ s.spawn with reaper := .working s.nextCoroutine } :
          ClientManager).OneClient :=
        h.spawn.of_same rfl (fun _ => rfl) rfl rfl (Nat.le_refl _)
      refine hawake.proceed h.settled_next (Nat.lt_succ_self _) (fun a x hpop => ?_) (by simp)
      have hpop' := (proceedPops_spawn s (.working s.nextCoroutine) _).symm.trans hpop
      exact hapart.pop a x hpop'
  | closeAll =>
      obtain rfl := Option.some.inj hstep
      refine h.closeAll (hapart.begins rfl) fun hreaper a x hpop => hapart.pop a x ?_
      simp only [pops, proceeds, if_pos hreaper]
      exact hpop
  | complete k =>
      obtain ⟨awaiting, hk, rfl⟩ := step_complete hstep
      exact h.complete hk
  | resume k =>
      obtain ⟨awaiting, hk, rfl⟩ := step_resume hstep
      have hlt : k < s.nextCoroutine := by
        by_contra hle
        exact absurd ((h.fresh k (Nat.le_of_not_lt hle)).symm.trans hk) (by simp)
      have hsettled : (∀ a c, awaiting ≠ .create a c) → s.Settled k := by
        intro hne t ht
        obtain rfl := Option.some.inj (hk.symm.trans ht)
        exact ⟨hne, Or.inl rfl⟩
      cases awaiting with
      | create a c => exact h.store hk s.now
      | reconnect a c =>
          exact (h.settle (hsettled (by simp)) (by simp)).hand (h.reconnecting k a c true hk)
      | disconnect c next =>
          show (s.proceed k next).OneClient
          refine h.proceed (hsettled (by simp)) hlt (fun a x hpop => hapart.pop a x ?_)
            fun rest hrest => ?_
          · simp only [pops, proceeds, hk]
            exact hpop
          · subst hrest
            exact ⟨h.closing ⟨k, _, hk, Or.inr ⟨c, rest, rfl⟩⟩, h.rest k c rest true hk⟩
      | reaperEnd =>
          show (s.proceed k (.close (s.slots.map Prod.fst))).OneClient
          refine h.proceed (hsettled (by simp)) hlt (fun a x hpop => hapart.pop a x ?_)
            fun rest hrest => ?_
          · simp only [pops, proceeds, hk]
            exact hpop
          · rw [← Continuation.close.inj hrest]
            exact ⟨h.closing ⟨k, _, hk, Or.inl rfl⟩, hkeys⟩
  | drop c =>
      obtain rfl := Option.some.inj hstep
      exact h.setConnected (by simp)
  | release i =>
      obtain rfl := Option.some.inj hstep
      exact h.of_same rfl (fun _ => rfl) rfl rfl (Nat.le_refl _)

end OneClient

/-! ## What a step logs -/

theorem eq_of_log_append {event event' : ClientEvent} {log : List ClientEvent}
    (h : log ++ [event] = log ++ [event']) : event = event' :=
  (List.cons.inj (List.append_cancel_left h)).1

theorem log_ne_append {event : ClientEvent} {log : List ClientEvent} : ¬ log = log ++ [event] :=
  fun h => absurd (congrArg List.length h) (by simp)

/-- **What a step logs**: only the loops of `disconnect_idle` and `close_all` log that an idle slot
is taken out of the table or that `close_all` returns. -/
theorem step_log {l : ClientLabel} (hstep : s.step l = some s') :
    (∃ next k n r, s.proceeds l = some next ∧
      s' = ({ s with nextCoroutine := n, reaper := r } : ClientManager).proceed k next) ∨
    s'.log = s.log ∨
    ∃ event, s'.log = s.log ++ [event] ∧ event ≠ .closed ∧ ∀ a c, event ≠ .popped a c true := by
  cases l with
  | setCredentials =>
      unfold step at hstep
      split_ifs at hstep
      obtain rfl := Option.some.inj hstep
      exact Or.inr (Or.inl rfl)
  | get a =>
      obtain rfl := Option.some.inj hstep
      have hstart : s.startReaper.log = s.log := by
        unfold startReaper
        split_ifs <;> rfl
      rw [← hstart]
      unfold get
      generalize s.startReaper = u
      cases hslot : u.slot a with
      | some x =>
          simp only [hslot]
          split_ifs
          · exact Or.inr (Or.inr ⟨.got a x.client, rfl, by simp, by simp⟩)
          · exact Or.inr (Or.inl rfl)
      | none =>
          simp only [hslot]
          split_ifs
          · exact Or.inr (Or.inl rfl)
          · exact Or.inr (Or.inl rfl)
  | disconnect a =>
      obtain rfl := Option.some.inj hstep
      unfold disconnect
      cases hx : s.slot a with
      | none => exact Or.inr (Or.inl rfl)
      | some x => exact Or.inr (Or.inr ⟨.popped a x.client false, rfl, by simp, by simp⟩)
  | disconnectIdle =>
      obtain rfl := Option.some.inj hstep
      exact Or.inl ⟨_, s.nextCoroutine, s.nextCoroutine + 1, s.reaper, rfl, rfl⟩
  | wake =>
      obtain ⟨-, rfl⟩ := step_wake hstep
      exact Or.inl ⟨_, s.nextCoroutine, s.nextCoroutine + 1, .working s.nextCoroutine, rfl, rfl⟩
  | closeAll =>
      obtain rfl := Option.some.inj hstep
      unfold closeAll
      split_ifs with hreaper
      · refine Or.inl ⟨.close (s.slots.map Prod.fst), s.nextCoroutine, s.nextCoroutine + 1,
          s.reaper, ?_, rfl⟩
        simp only [proceeds, if_pos hreaper]
      · refine Or.inr (Or.inl ?_)
        show s.cancelReaper.log = s.log
        unfold cancelReaper
        split
        · split <;> rfl
        · rfl
  | complete k =>
      obtain ⟨awaiting, -, rfl⟩ := step_complete hstep
      cases awaiting <;> exact Or.inr (Or.inl rfl)
  | resume k =>
      obtain ⟨awaiting, hk, rfl⟩ := step_resume hstep
      cases awaiting with
      | create a c => exact Or.inr (Or.inr ⟨.got a c, rfl, by simp, by simp⟩)
      | reconnect a c => exact Or.inr (Or.inr ⟨.got a c, rfl, by simp, by simp⟩)
      | disconnect c next =>
          refine Or.inl ⟨next, k, s.nextCoroutine, s.reaper, ?_, rfl⟩
          simp only [proceeds, hk]
      | reaperEnd =>
          refine Or.inl ⟨.close (s.slots.map Prod.fst), k, s.nextCoroutine, s.reaper, ?_, rfl⟩
          simp only [proceeds, hk]
  | tick d =>
      obtain rfl := Option.some.inj hstep
      exact Or.inr (Or.inl rfl)
  | drop c =>
      obtain rfl := Option.some.inj hstep
      exact Or.inr (Or.inl rfl)
  | release i =>
      obtain rfl := Option.some.inj hstep
      exact Or.inr (Or.inl rfl)

/-- What the loops log: the slot that they take out of the table, or the return of `close_all`. -/
theorem proceed_log (s : ClientManager) (k : CoroutineId) (next : Continuation) :
    (∃ a x, s.proceedPops next = some (a, x) ∧
      (s.proceed k next).log = s.log ++
        [.popped a x.client (match next with | .idle _ _ => true | _ => false)]) ∨
    (s.proceedPops next = none ∧
      ((∃ rest, next = .close rest ∧ s.proceed k next = (s.setCoroutine k none).record .closed) ∨
        (s.proceed k next).log = s.log)) := by
  cases next with
  | returns => exact Or.inr ⟨rfl, Or.inr rfl⟩
  | idle stale reaper =>
      simp only [proceed, proceedPops]
      cases hfirst : s.firstSlot stale with
      | some p => exact Or.inl ⟨p.1, p.2.1, rfl, rfl⟩
      | none =>
          refine Or.inr ⟨rfl, Or.inr ?_⟩
          simp only
          split_ifs <;> rfl
  | close rest =>
      simp only [proceed, proceedPops]
      cases hfirst : s.firstSlot rest with
      | some p => exact Or.inl ⟨p.1, p.2.1, rfl, rfl⟩
      | none => exact Or.inr ⟨rfl, Or.inl ⟨rest, rfl, rfl⟩⟩

/-! ## The return of `close_all` -/

/-- What is left when `close_all` returns. -/
structure Closed (s : ClientManager) (l : ClientLabel) (s' : ClientManager) : Prop where
  ends : s.endsClose l
  clients : s'.clients = s.clients
  creating : ∀ a c, s'.Creating a c → s.Creating a c
  disconnecting : ∀ c, s'.Disconnecting c → s.Disconnecting c

theorem step_closed {l : ClientLabel} (hstep : s.step l = some s')
    (hlog : s'.log = s.log ++ [.closed]) : s.Closed l s' := by
  rcases step_log hstep with ⟨next, k, n, r, hnext, rfl⟩ | hsame | ⟨event, heq, hne, -⟩
  · have hfirst : ∀ accounts,
        ({ s with nextCoroutine := n, reaper := r } : ClientManager).firstSlot accounts =
          s.firstSlot accounts := firstSlot_congr (by exact fun _ => rfl)
    rcases proceed_log { s with nextCoroutine := n, reaper := r } k next with
      ⟨a, x, -, heq⟩ | ⟨hnone, ⟨rest, rfl, heq⟩ | heq⟩
    · exact absurd (eq_of_log_append (heq.symm.trans hlog)) (by simp)
    · have hold : ∀ {j : CoroutineId} {u : Coroutine},
          (({ s with nextCoroutine := n, reaper := r } : ClientManager).setCoroutine k
            none).coroutines j = some u → s.coroutines j = some u := by
        intro j u hj
        rcases coroutines_set hj with ⟨-, hu⟩ | ⟨-, hj⟩
        · exact absurd hu (by simp)
        · exact hj
      rw [heq]
      refine ⟨⟨rest, hnext, ?_⟩, rfl, fun a c ⟨j, done, hj⟩ => ⟨j, done, hold hj⟩,
        fun c ⟨j, m, hj⟩ => ⟨j, m, hold hj⟩⟩
      rw [← hfirst]
      exact Option.map_eq_none_iff.mp hnone
    · exact absurd (heq.symm.trans hlog) log_ne_append
  · exact absurd (hsame.symm.trans hlog) log_ne_append
  · exact absurd (eq_of_log_append (heq.symm.trans hlog)) hne

/-- The table is empty when `close_all` has no account left. -/
theorem OneClient.nothing_shown {l : ClientLabel} (h : s.OneClient) (hends : s.endsClose l)
    (b : AccountId) : s.shown b = none := by
  obtain ⟨rest, hrest, hfirst⟩ := hends
  have hall : ∀ b, (s.shown b).isSome → b ∈ rest := by
    cases l with
    | closeAll =>
        simp only [proceeds] at hrest
        split_ifs at hrest
        rw [← Continuation.close.inj (Option.some.inj hrest)]
        exact fun b => mem_keys_of_shown
    | resume k =>
        simp only [proceeds] at hrest
        split at hrest
        · rename_i c next hk
          obtain rfl := Option.some.inj hrest
          exact h.rest k c rest true hk
        · rw [← Continuation.close.inj (Option.some.inj hrest)]
          exact fun b => mem_keys_of_shown
        · exact absurd hrest (by simp)
    | _ => exact absurd hrest (by simp [proceeds])
  by_contra hb
  have hsome := Option.ne_none_iff_isSome.mp hb
  have hslot := firstSlot_none hfirst b (hall b hsome)
  rw [shown, hslot] at hsome
  exact absurd hsome (by simp)

/-- No client is connected when `close_all` returns. -/
theorem OneClient.none_connected {l : ClientLabel} (h : s.OneClient) (hapart : s.Apart l)
    (hclosed : s.Closed l s') (c : ClientId) : s'.isConnected c = false := by
  by_contra hc
  have hc' : s.isConnected c = true := by
    have hsome := Bool.not_eq_false _ |>.mp hc
    unfold isConnected at hsome ⊢
    rwa [hclosed.clients] at hsome
  have hno : ∀ a c, ¬ s.Creating a c := by
    obtain ⟨rest, hrest, -⟩ := hclosed.ends
    cases l with
    | closeAll => exact hapart.begins rfl
    | resume k =>
        simp only [proceeds] at hrest
        split at hrest
        · rename_i c next hk
          obtain rfl := Option.some.inj hrest
          exact h.closing ⟨k, _, hk, Or.inr ⟨c, rest, rfl⟩⟩
        · rename_i hk
          exact h.closing ⟨k, _, hk, Or.inl rfl⟩
        · exact absurd hrest (by simp)
    | _ => exact absurd hrest (by simp [proceeds])
  obtain ⟨a, -, hin | hin | hin⟩ := h.connected c hc'
  · exact absurd ((h.nothing_shown hclosed.ends a).symm.trans hin) (by simp)
  · exact hno a c hin
  · exact hapart.ends hclosed.ends c hin

/-! ## Whole runs -/

theorem oneClient_new (credentials : Bool) (idleTimeout : ℕ) :
    (new credentials idleTimeout).OneClient where
  fresh := fun _ _ => rfl
  made := fun _ _ h => absurd h (by simp [shown, slot, new])
  one := by
    rintro a c c' ⟨hacc, -⟩
    exact absurd hacc (by simp [accountOf, new])
  connected := fun c hc => absurd hc (by simp [isConnected, new])
  creating := fun a c ⟨k, done, hk⟩ => absurd hk (by simp [new])
  creatingOnce := fun k k' a c c' done done' hk => absurd hk (by simp [new])
  reconnecting := fun k a c done hk => absurd hk (by simp [new])
  closing := fun ⟨k, t, hk, _⟩ => absurd hk (by simp [new])
  rest := fun k c rest done hk => absurd hk (by simp [new])
  got := by
    rintro a c ⟨pre, post, hlog, -⟩
    exact absurd hlog (by simp [new])
  same := by
    intro pre a c c' hpre
    exact absurd hpre.length_le (by simp [new])

/-- **One client for each account.**  In every run whose steps meet no operation at an `await` that
the table does not show, an account never has two connected clients, the callers of `get` between
two disconnections of an account receive one client, and no client is connected when `close_all`
returns. -/
theorem one_client_per_account {credentials : Bool} {idleTimeout : ℕ} {ls : List ClientLabel}
    (hrun : runLabels step (new credentials idleTimeout) ls = some s)
    (hapart : Along step Apart (new credentials idleTimeout) ls) :
    (∀ c c', s.isConnected c = true → s.isConnected c' = true → s.accountOf c = s.accountOf c' →
      c = c') ∧
    SameClient s.log ∧
    ∀ pre l post u u', ls = pre ++ l :: post →
      runLabels step (new credentials idleTimeout) pre = some u → step u l = some u' →
      u'.log = u.log ++ [.closed] → ∀ c, u'.isConnected c = false := by
  have hinv : ∀ {ms : List ClientLabel} {u : ClientManager},
      runLabels step (new credentials idleTimeout) ms = some u →
      Along step Apart (new credentials idleTimeout) ms → u.OneClient := fun hms halong =>
    invariant_runLabels (fun u l u' h hC hu => h.step hC hu)
      (oneClient_new credentials idleTimeout) halong hms
  have h := hinv hrun hapart
  refine ⟨fun c c' hc hc' hacc => ?_, h.same, ?_⟩
  · obtain ⟨a, ha⟩ := h.connected c hc
    obtain ⟨b, hb⟩ := h.connected c' hc'
    obtain rfl := Option.some.inj (ha.1.symm.trans (hacc.trans hb.1))
    exact h.one a c c' ha hb
  · rintro pre l post u u' rfl hpre hu hlog
    obtain ⟨halong, hrest⟩ := (along_append hpre).mp hapart
    exact (hinv hpre halong).none_connected hrest.1 (step_closed hu hlog)

/-- No coroutine is at an `await`, or only the one that goes on. -/
def Alone (s : ClientManager) : ClientLabel → Prop
  | .complete _ => True
  | .resume k => ∀ j < s.nextCoroutine, j = k ∨ s.coroutines j = none
  | _ => ∀ j < s.nextCoroutine, s.coroutines j = none

instance (s : ClientManager) : DecidablePred s.Alone
  | .complete _ => .isTrue trivial
  | .resume k => inferInstanceAs
      (Decidable (∀ j < s.nextCoroutine, j = k ∨ s.coroutines j = none))
  | .tick _ | .setCredentials | .get _ | .disconnect _ | .disconnectIdle | .wake | .closeAll
  | .drop _ | .release _ =>
      inferInstanceAs (Decidable (∀ j < s.nextCoroutine, s.coroutines j = none))

theorem apart_of_quiet (hquiet : ∀ j, s.coroutines j = none) (l : ClientLabel) : s.Apart l where
  get := fun a _ _ _ => ⟨fun c ⟨j, done, hj⟩ => absurd (hquiet j) (by simp [hj]),
    fun c _ ⟨j, n, hj⟩ => absurd (hquiet j) (by simp [hj]),
    fun ⟨j, t, hj, _⟩ => absurd (hquiet j) (by simp [hj])⟩
  pop := fun a x _ ⟨j, b, done, hj⟩ => absurd (hquiet j) (by simp [hj])
  begins := fun _ a c ⟨j, done, hj⟩ => absurd (hquiet j) (by simp [hj])
  ends := fun _ c ⟨j, n, hj⟩ => absurd (hquiet j) (by simp [hj])

theorem apart_complete (k : CoroutineId) : s.Apart (.complete k) where
  get := fun a hl => absurd hl (by simp)
  pop := fun a x hpop => absurd hpop (by simp [pops, proceeds])
  begins := fun hl => absurd hl (by simp)
  ends := fun ⟨rest, hrest, _⟩ => absurd hrest (by simp [proceeds])

/-- The only coroutine at an `await` goes on. -/
theorem apart_resume {t : Awaiting} (hk : s.coroutines k = some ⟨t, true⟩)
    (honly : ∀ j, j ≠ k → s.coroutines j = none) : s.Apart (.resume k) where
  get := fun a hl => absurd hl (by simp)
  pop := by
    rintro a x hpop ⟨j, b, done, hj⟩
    by_cases hjk : j = k
    · subst hjk
      obtain rfl := congrArg Coroutine.awaiting (Option.some.inj (hk.symm.trans hj))
      exact absurd hpop (by simp [pops, proceeds, hj])
    · exact absurd (honly j hjk) (by simp [hj])
  begins := fun hl => absurd hl (by simp)
  ends := by
    rintro - c ⟨j, n, hj⟩
    by_cases hjk : j = k
    · subst hjk
      exact absurd (congrArg Coroutine.completed (Option.some.inj (hk.symm.trans hj))) (by simp)
    · exact absurd (honly j hjk) (by simp [hj])

/-- A manager that is used by one coroutine at a time meets no other operation. -/
theorem along_apart {ls : List ClientLabel} (h : s.OneClient) (halone : Along step Alone s ls)
    (hrun : runLabels step s ls = some s') : Along step Apart s ls := by
  induction ls generalizing s with
  | nil => trivial
  | cons l ls ih =>
      obtain ⟨u, hu, hrest⟩ := runLabels_cons_eq_some.mp hrun
      have hquiet : (∀ j < s.nextCoroutine, s.coroutines j = none) → s.Apart l := fun hnone =>
        apart_of_quiet (fun j => (Nat.lt_or_ge j s.nextCoroutine).elim (hnone j) (h.fresh j)) l
      have hapart : s.Apart l := by
        have hl := halone.1
        cases l with
        | complete k => exact apart_complete k
        | resume k =>
            obtain ⟨t, hk, -⟩ := step_resume hu
            refine apart_resume hk fun j hj => ?_
            rcases Nat.lt_or_ge j s.nextCoroutine with hlt | hge
            · exact (hl j hlt).resolve_left hj
            · exact h.fresh j hge
        | _ => exact hquiet hl
      refine ⟨hapart, fun v hv => ?_⟩
      obtain rfl := Option.some.inj (hu.symm.trans hv)
      exact ih (h.step hapart hu) (halone.2 u hu) hrest

/-- An account is connected, asked for once more, disconnected and connected again; then the
manager is closed. -/
def connectTwice : List ClientLabel :=
  [.get 1, .complete 0, .resume 0, .get 1, .disconnect 1, .complete 1, .resume 1, .get 1,
    .complete 2, .resume 2, .closeAll, .resume 3, .complete 3]

/-- The two callers before the disconnection receive one client, the one behind it another, and
neither is connected when the manager has been closed. -/
theorem one_client_per_account_get :
    ∃ s, runLabels step (new true 0) (connectTwice ++ [.resume 3]) = some s ∧
      s.log = [.got 1 0, .got 1 0, .popped 1 0 false, .got 1 1, .popped 1 1 false, .closed] ∧
      (∀ c c', s.isConnected c = true → s.isConnected c' = true →
        s.accountOf c = s.accountOf c' → c = c') ∧
      SameClient s.log ∧ ∀ c, s.isConnected c = false := by
  have hrun : runLabels step (new true 0) (connectTwice ++ [.resume 3]) = some _ := rfl
  have hbefore : runLabels step (new true 0) connectTwice = some _ := rfl
  obtain ⟨hone, hsame, hclosed⟩ := one_client_per_account hrun
    (along_apart (oneClient_new true 0) (by decide) hrun)
  exact ⟨_, hrun, rfl, hone, hsame, hclosed connectTwice (.resume 3) [] _ _ rfl hbefore rfl rfl⟩

/-- Two callers ask for the client of an account that has none. -/
theorem two_clients_of_one_account :
    ∃ s, runLabels step (new true 0) [.get 1, .get 1, .complete 0, .complete 1] = some s ∧
      ¬ ∀ c c', s.isConnected c = true → s.isConnected c' = true →
        s.accountOf c = s.accountOf c' → c = c' := by
  refine ⟨_, rfl, fun h => ?_⟩
  exact absurd (h 0 1 rfl rfl rfl) (by decide)

end ClientManager
end Telegram
end MigrationStudio
