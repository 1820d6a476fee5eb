import MigrationStudio.Telegram.OneClient

/-!
# What the idle reaper disconnects

A client is idle by the time of the last `get` for its account, not by its use.  The caller of
`get` keeps the client for as many requests as it likes, and `disconnect_idle` goes on with the
accounts that it has found idle without looking again.

* `InUse`: a caller of `get` has not done with the client.
* `InTime`: the look of `disconnect_idle` finds no client in use that is idle by the clock, and
  nobody gets the client of an account that it has found idle and not yet reached.
* `Sparing`: the invariant; `in_use_not_disconnected`: what holds in every run that is in time.
-/

namespace MigrationStudio
namespace Telegram

open MigrationStudio.Core Foundations

namespace ClientManager

variable {s s' : ClientManager} {a b : AccountId} {c : ClientId} {k : CoroutineId}
  {next : Continuation} {x : ClientSlot}

/-- A caller of `get` has the client and has not done with it, or awaits its connection. -/
def InUse (s : ClientManager) (c : ClientId) : Prop :=
  (∃ o ∈ s.operations, o.client = c) ∨ s.Reconnecting c

/-- A `disconnect_idle` that is under way has found the account idle and has not reached it. -/
def PendingStale (s : ClientManager) (a : AccountId) : Prop :=
  ∃ k c rest reaper done,
    s.coroutines k = some ⟨.disconnect c (.idle rest reaper), done⟩ ∧ a ∈ rest

/-- **The step is in time.**  When `disconnect_idle` looks for idle accounts, every client of the
table that is in use has been asked for less than `idle_timeout` ago; and a client is got, or put
into the table, for no account that a `disconnect_idle` has found idle and not reached. -/
structure InTime (s : ClientManager) (l : ClientLabel) : Prop where
  look : l = .disconnectIdle ∨ l = .wake → ∀ a x, s.slot a = some x → s.InUse x.client →
    s.now - x.lastUsed < s.idleTimeout
  get : ∀ a, l = .get a → ¬ s.PendingStale a
  store : ∀ k a c, l = .resume k → s.coroutines k = some ⟨.create a c, true⟩ → ¬ s.PendingStale a

/-- **The invariant.**  No client is in use whose account a `disconnect_idle` has found idle. -/
structure Sparing (s : ClientManager) : Prop where
  keys : (s.slots.map Prod.fst).Nodup
  made : ∀ a x, s.slot a = some x → s.accountOf x.client = some a
  creating : ∀ a c, s.Creating a c → s.accountOf c = some a
  reconnecting : ∀ k a c done, s.coroutines k = some ⟨.reconnect a c, done⟩ →
    s.accountOf c = some a
  operations : ∀ o ∈ s.operations, s.accountOf o.client = some o.account
  spared : ∀ a, s.PendingStale a → ∀ x, s.slot a = some x → ¬ s.InUse x.client

theorem setCoroutine_slot (s : ClientManager) (k : CoroutineId) (t : Option Coroutine)
    (a : AccountId) : (s.setCoroutine k t).slot a = s.slot a := rfl

namespace Sparing

/-- What the invariant does not read may change, and operations may end. -/
theorem of_same (h : s.Sparing) (hslots : s'.slots = s.slots) (hco : s'.coroutines = s.coroutines)
    (hclients : s'.clients = s.clients) (hops : s'.operations ⊆ s.operations) : s'.Sparing where
  keys := hslots ▸ h.keys
  made := by
    intro a x
    rw [slot, hslots, accountOf, hclients]
    exact h.made a x
  creating := by
    intro a c
    rw [Creating, hco, accountOf, hclients]
    exact h.creating a c
  reconnecting := by
    intro k a c done
    rw [hco, accountOf, hclients]
    exact h.reconnecting k a c done
  operations := by
    intro o ho
    rw [accountOf, hclients]
    exact h.operations o (hops ho)
  spared := by
    intro a hpending x hx huse
    rw [slot, hslots] at hx
    rw [PendingStale, hco] at hpending
    refine h.spared a hpending x hx ?_
    rcases huse with ⟨o, ho, hoc⟩ | hre
    · exact Or.inl ⟨o, hops ho, hoc⟩
    · rw [Reconnecting, hco] at hre
      exact Or.inr hre

/-- A client that a `get` hands out was in use already, or its account has not been found idle. -/
theorem hand (h : s.Sparing) (hacc : s.accountOf c = some a)
    (hfree : s.InUse c ∨ ¬ s.PendingStale a) : (s.hand a c).Sparing :=
  { h with
    operations := by
      intro o ho
      rcases List.mem_append.mp ho with ho | ho
      · exact h.operations o ho
      · rw [List.mem_singleton.mp ho]
        exact hacc
    spared := by
      intro b hpending x hx huse
      rcases huse with ⟨o, ho, hoc⟩ | hre
      · rcases List.mem_append.mp ho with ho | ho
        · exact h.spared b hpending x hx (Or.inl ⟨o, ho, hoc⟩)
        · have hxc : x.client = c := by
            rw [← hoc, List.mem_singleton.mp ho]
          rcases hfree with huse | hnot
          · exact h.spared b hpending x hx (hxc ▸ huse)
          · have hba : b = a := Option.some.inj ((h.made b x hx).symm.trans (hxc ▸ hacc))
            exact hnot (hba ▸ hpending)
      · exact h.spared b hpending x hx (Or.inr hre) }

/-- A coroutine goes on, or a new one begins. -/
theorem setCoroutine (h : s.Sparing) {t : Option Coroutine}
    (hcreate : ∀ a c done, t = some ⟨.create a c, done⟩ → s.accountOf c = some a)
    (hre : ∀ a c done, t = some ⟨.reconnect a c, done⟩ →
      s.accountOf c = some a ∧ (s.Reconnecting c ∨ ¬ s.PendingStale a))
    (hidle : ∀ c rest reaper done, t = some ⟨.disconnect c (.idle rest reaper), done⟩ →
      ∀ a ∈ rest, ∀ x, s.slot a = some x → ¬ s.InUse x.client) :
    (s.setCoroutine k t).Sparing :=
  { h with
    creating := by
      rintro a c ⟨j, done, hj⟩
      rcases coroutines_set hj with ⟨-, ht⟩ | ⟨-, hj⟩
      · exact hcreate a c done ht
      · exact h.creating a c ⟨j, done, hj⟩
    reconnecting := by
      intro j a c done hj
      rcases coroutines_set hj with ⟨-, ht⟩ | ⟨-, hj⟩
      · exact (hre a c done ht).1
      · exact h.reconnecting j a c done hj
    spared := by
      intro a hpending x hx huse
      rw [setCoroutine_slot] at hx
      have huse' : s.InUse x.client ∨ ∃ d done, t = some ⟨.reconnect d x.client, done⟩ := by
        rcases huse with hop | ⟨j, d, done, hj⟩
        · exact Or.inl (Or.inl hop)
        · rcases coroutines_set hj with ⟨-, ht⟩ | ⟨-, hj⟩
          · exact Or.inr ⟨d, done, ht⟩
          · exact Or.inl (Or.inr ⟨j, d, done, hj⟩)
      obtain ⟨j, c, rest, reaper, done, hj, hmem⟩ := hpending
      rcases coroutines_set hj with ⟨-, ht⟩ | ⟨-, hj⟩
      · rcases huse' with huse | ⟨d, done', ht'⟩
        · exact hidle c rest reaper done ht a hmem x hx huse
        · exact absurd (ht.symm.trans ht') (by simp)
      · have hpending : s.PendingStale a := ⟨j, c, rest, reaper, done, hj, hmem⟩
        rcases huse' with huse | ⟨d, done', ht'⟩
        · exact h.spared a hpending x hx huse
        · obtain ⟨hacc, hold⟩ := hre d x.client done' ht'
          rcases hold with hold | hnot
          · exact h.spared a hpending x hx (Or.inr hold)
          · have had : a = d := Option.some.inj ((h.made a x hx).symm.trans hacc)
            exact hnot (had ▸ hpending) }

/-- The slots of the table are dropped, or keep their clients. -/
theorem shrink (h : s.Sparing) {slots : List (AccountId × ClientSlot)}
    (hkeys : (slots.map Prod.fst).Nodup)
    (hslots : ∀ a x, slots.lookup a = some x → ∃ y, s.slot a = some y ∧ y.client = x.client) :
    ({ s with slots := slots } : ClientManager).Sparing :=
  { h with
    keys := hkeys
    made := by
      intro a x hx
      obtain ⟨y, hy, hyx⟩ := hslots a x hx
      exact hyx ▸ h.made a y hy
    spared := by
      intro a hpending x hx huse
      obtain ⟨y, hy, hyx⟩ := hslots a x hx
      exact h.spared a hpending y hy (hyx ▸ huse) }

/-- A client is put into the table for an account that has not been found idle. -/
theorem setSlot (h : s.Sparing) (hacc : s.accountOf x.client = some a)
    (hnot : ¬ s.PendingStale a) : (s.setSlot a x).Sparing :=
  { h with
    keys := nodup_keys_dictSet h.keys
    made := by
      intro b y hy
      rw [slot_setSlot] at hy
      split_ifs at hy with hb
      · rw [← Option.some.inj hy, hb]
        exact hacc
      · exact h.made b y hy
    spared := by
      intro b hpending y hy huse
      rw [slot_setSlot] at hy
      split_ifs at hy with hb
      · exact hnot (hb ▸ hpending)
      · exact h.spared b hpending y hy huse }

theorem setConnected (h : s.Sparing) (c : ClientId) (connected : Bool) :
    (s.setConnected c connected).Sparing :=
  { h with
    made := fun a x hx => (accountOf_setConnected ..).trans (h.made a x hx)
    creating := fun a d hd => (accountOf_setConnected ..).trans (h.creating a d hd)
    reconnecting := fun k a d done hk =>
      (accountOf_setConnected ..).trans (h.reconnecting k a d done hk)
    operations := fun o ho => (accountOf_setConnected ..).trans (h.operations o ho) }

/-- A client is made. -/
theorem addClient (h : s.Sparing) (client : TelegramClient) :
    ({ s with clients := s.clients ++ [client] } : ClientManager).Sparing := by
  have hacc : ∀ {d : ClientId} {b : AccountId}, s.accountOf d = some b →
      ({ s with clients := s.clients ++ [client] } : ClientManager).accountOf d = some b := by
    intro d b hd
    obtain ⟨old, hold, rfl⟩ := Option.map_eq_some_iff.mp hd
    show ((s.clients ++ [client])[d]?).map _ = _
    rw [List.getElem?_append_left (List.getElem?_eq_some_iff.mp hold).1, hold]
    rfl
  exact
    { h with
      made := fun a x hx => hacc (h.made a x hx)
      creating := fun a d hd => hacc (h.creating a d hd)
      reconnecting := fun k a d done hk => hacc (h.reconnecting k a d done hk)
      operations := fun o ho => hacc (h.operations o ho) }

theorem spawn (h : s.Sparing) : s.spawn.Sparing :=
  h.of_same rfl rfl rfl (List.Subset.refl _)

/-- A coroutine ends. -/
theorem ends (h : s.Sparing) : (s.setCoroutine k none).Sparing :=
  h.setCoroutine (by simp) (by simp) (by simp)

/-- A slot is taken out of the table. -/
theorem pop (h : s.Sparing) (a : AccountId) (x : ClientSlot)
    (hidle : ∀ rest reaper, next = .idle rest reaper →
      ∀ b ∈ rest, ∀ y, s.slot b = some y → ¬ s.InUse y.client) :
    (s.pop k a x next).Sparing := by
  have hread : ∀ b y, (dictPop s.slots a).lookup b = some y →
      ∃ z, s.slot b = some z ∧ z.client = y.client := by
    intro b y hy
    rw [lookup_dictPop] at hy
    split_ifs at hy
    exact ⟨y, hy, rfl⟩
  have hpopped : ({ s with slots := dictPop s.slots a } : ClientManager).Sparing :=
    h.shrink (nodup_keys_dictPop h.keys) hread
  have hset : (({ s with slots := dictPop s.slots a } : ClientManager).await k
      (.disconnect x.client next)).Sparing := by
    refine hpopped.setCoroutine (by simp) (by simp) ?_
    intro c rest reaper done heq b hb y hy
    have hnext := (Awaiting.disconnect.inj
      (congrArg Coroutine.awaiting (Option.some.inj heq))).2
    obtain ⟨z, hz, hzy⟩ := hread b y hy
    exact fun huse => hidle rest reaper hnext b hb z hz (hzy ▸ huse)
  exact hset.of_same rfl rfl rfl (List.Subset.refl _)

/-- The loops, from one `await` to the next. -/
theorem proceed (h : s.Sparing)
    (hidle : ∀ rest reaper, next = .idle rest reaper →
      ∀ b ∈ rest, ∀ y, s.slot b = some y → ¬ s.InUse y.client) :
    (s.proceed k next).Sparing := by
  cases next with
  | returns => exact h.ends
  | idle stale reaper =>
      simp only [ClientManager.proceed]
      cases hfirst : s.firstSlot stale with
      | some p =>
          obtain ⟨a, x, rest⟩ := p
          refine h.pop a x fun rest' reaper' heq b hb => hidle stale reaper rfl b ?_
          obtain ⟨rfl, -⟩ := Continuation.idle.inj heq
          exact (firstSlot_some hfirst).2.2.2 hb
      | none =>
          simp only
          split_ifs
          · exact h.ends.of_same rfl rfl rfl (List.Subset.refl _)
          · exact h.ends
  | close rest =>
      simp only [ClientManager.proceed]
      cases hfirst : s.firstSlot rest with
      | some p =>
          obtain ⟨a, x, rest'⟩ := p
          exact h.pop a x fun _ _ heq => absurd heq (by simp)
      | none => exact h.ends.of_same rfl rfl rfl (List.Subset.refl _)

/-- What `disconnect_idle` finds idle is not in use when it looks in time. -/
theorem stale_not_inUse (h : s.Sparing)
    (hlook : ∀ a x, s.slot a = some x → s.InUse x.client → s.now - x.lastUsed < s.idleTimeout)
    (ha : a ∈ s.stale) (hx : s.slot a = some x) : ¬ s.InUse x.client := by
  intro huse
  obtain ⟨⟨b, y⟩, hp, rfl⟩ := List.mem_map.mp ha
  obtain ⟨hmem, hold⟩ := List.mem_filter.mp hp
  have hy : s.slot b = some y := lookup_of_mem h.keys hmem
  obtain rfl := Option.some.inj (hy.symm.trans hx)
  have hlt := hlook b y hx huse
  have hle : s.idleTimeout ≤ s.now - y.lastUsed := of_decide_eq_true hold
  omega

/-- `get`. -/
theorem get (h : s.Sparing) (hnot : ¬ s.PendingStale a) : (s.get a).Sparing := by
  have hsleep : s.startReaper.Sparing ∧ ¬ s.startReaper.PendingStale a := by
    unfold startReaper
    split_ifs
    · exact ⟨h.of_same rfl rfl rfl (List.Subset.refl _), hnot⟩
    · exact ⟨h, hnot⟩
  unfold ClientManager.get
  generalize s.startReaper = u at hsleep
  obtain ⟨hu, hnot⟩ := hsleep
  cases hslot : u.slot a with
  | some x =>
      have hread : ∀ b y, (dictSet u.slots a { x with lastUsed := u.now }).lookup b = some y →
          ∃ z, u.slot b = some z ∧ z.client = y.client := by
        intro b y hy
        rw [lookup_dictSet] at hy
        split_ifs at hy with hb
        · exact ⟨x, hb ▸ hslot, by rw [← Option.some.inj hy]⟩
        · exact ⟨y, hy, rfl⟩
      have htouched : (u.setSlot a { x with lastUsed := u.now }).Sparing :=
        hu.shrink (nodup_keys_dictSet hu.keys) hread
      have hacc : u.accountOf x.client = some a := hu.made a x hslot
      simp only [hslot]
      split_ifs
      · exact htouched.hand hacc (Or.inr hnot)
      · refine htouched.spawn.setCoroutine (by simp) ?_ (by simp)
        intro b c done heq
        obtain ⟨rfl, rfl⟩ := Awaiting.reconnect.inj
          (congrArg Coroutine.awaiting (Option.some.inj heq))
        exact ⟨hacc, Or.inr hnot⟩
  | none =>
      simp only [hslot]
      split_ifs
      · refine (hu.addClient ⟨a, false⟩).spawn.setCoroutine ?_ (by simp) (by simp)
        intro b c done heq
        obtain ⟨rfl, rfl⟩ := Awaiting.create.inj
          (congrArg Coroutine.awaiting (Option.some.inj heq))
        show ((u.clients ++ [_])[u.clients.length]?).map _ = _
        simp
      · exact hu

/-- The reaper is cancelled. -/
theorem cancelReaper (h : s.Sparing) : s.cancelReaper.Sparing := by
  have hsame : ({ s with reaper := .absent } : ClientManager).Sparing :=
    h.of_same rfl rfl rfl (List.Subset.refl _)
  unfold ClientManager.cancelReaper
  split
  · split
    · exact hsame.setCoroutine (by simp) (by simp) (by simp)
    · exact hsame
  · exact hsame

/-- What a coroutine awaits completes. -/
theorem complete (h : s.Sparing) {awaiting : Awaiting}
    (hk : s.coroutines k = some ⟨awaiting, false⟩) : (s.complete k awaiting).Sparing := by
  have hset : (s.setCoroutine k (some ⟨awaiting, true⟩)).Sparing := by
    refine h.setCoroutine ?_ ?_ ?_
    · intro a c done heq
      obtain rfl := congrArg Coroutine.awaiting (Option.some.inj heq)
      exact h.creating a c ⟨k, false, hk⟩
    · intro a c done heq
      obtain rfl := congrArg Coroutine.awaiting (Option.some.inj heq)
      exact ⟨h.reconnecting k a c false hk, Or.inl ⟨k, a, false, hk⟩⟩
    · intro c rest reaper done heq b hb
      obtain rfl := congrArg Coroutine.awaiting (Option.some.inj heq)
      exact h.spared b ⟨k, c, rest, reaper, false, hk, hb⟩
  cases awaiting with
  | create a c => exact hset.setConnected c true
  | reconnect a c => exact hset.setConnected c true
  | disconnect c next => exact hset.setConnected c false
  | reaperEnd => exact hset

/-- **One step** that is in time. -/
theorem step {l : ClientLabel} (h : s.Sparing) (htime : s.InTime l)
    (hstep : s.step l = some s') : s'.Sparing := by
  cases l with
  | tick d =>
      obtain rfl := Option.some.inj hstep
      exact h.of_same rfl rfl rfl (List.Subset.refl _)
  | setCredentials =>
      unfold ClientManager.step at hstep
      split_ifs at hstep
      obtain rfl := Option.some.inj hstep
      exact h.of_same rfl rfl rfl (List.Subset.refl _)
  | get a =>
      obtain rfl := Option.some.inj hstep
      exact h.get (htime.get a rfl)
  | disconnect a =>
      obtain rfl := Option.some.inj hstep
      unfold ClientManager.disconnect
      cases hx : s.slot a with
      | none => exact h
      | some x => exact h.spawn.pop a x (by simp)
  | disconnectIdle =>
      obtain rfl := Option.some.inj hstep
      refine h.spawn.proceed fun rest reaper heq b hb y hy => ?_
      obtain ⟨rfl, -⟩ := Continuation.idle.inj heq
      exact h.stale_not_inUse (htime.look (Or.inl rfl)) hb hy
  | wake =>
      obtain ⟨-, rfl⟩ := step_wake hstep
      have hawake : ({ s.spawn with reaper := .working s.nextCoroutine } :
          ClientManager).Sparing := h.of_same rfl rfl rfl (List.Subset.refl _)
      refine hawake.proceed fun rest reaper heq b hb y hy => ?_
      obtain ⟨rfl, -⟩ := Continuation.idle.inj heq
      exact h.stale_not_inUse (htime.look (Or.inr rfl)) hb hy
  | closeAll =>
      obtain rfl := Option.some.inj hstep
      unfold ClientManager.closeAll
      split_ifs
      · exact h.spawn.proceed fun _ _ heq => absurd heq (by simp)
      · exact h.cancelReaper.spawn.setCoroutine (by simp) (by simp) (by simp)
  | complete k =>
      obtain ⟨awaiting, hk, rfl⟩ := step_complete hstep
      exact h.complete hk
  | resume k =>
      obtain ⟨awaiting, hk, rfl⟩ := step_resume hstep
      cases awaiting with
      | create a c =>
          have hacc := h.creating a c ⟨k, true, hk⟩
          have hnot := htime.store k a c rfl hk
          have hnot' : ¬ (s.setCoroutine k none).PendingStale a := by
            rintro ⟨j, d, rest, reaper, done, hj, hmem⟩
            rcases coroutines_set hj with ⟨-, heq⟩ | ⟨-, hj⟩
            · exact absurd heq (by simp)
            · exact hnot ⟨j, d, rest, reaper, done, hj, hmem⟩
          have hset : ((s.setCoroutine k none).setSlot a ⟨c, s.now⟩).Sparing :=
            h.ends.setSlot hacc hnot'
          exact hset.hand hacc (Or.inr hnot')
      | reconnect a c =>
          -- the client was in use while the coroutine awaited its connection
          have hacc := h.reconnecting k a c true hk
          have huse : s.InUse c := Or.inr ⟨k, a, true, hk⟩
          have hhand : (s.hand a c).Sparing := h.hand hacc (Or.inl huse)
          exact hhand.ends
      | disconnect c next =>
          refine h.proceed fun rest reaper heq b hb => ?_
          exact h.spared b ⟨k, c, rest, reaper, true, heq ▸ hk, hb⟩
      | reaperEnd =>
          show (s.proceed k (.close (s.slots.map Prod.fst))).Sparing
          exact h.proceed fun _ _ heq => absurd heq (by simp)
  | drop c =>
      obtain rfl := Option.some.inj hstep
      exact h.setConnected c false
  | release i =>
      obtain rfl := Option.some.inj hstep
      exact h.of_same rfl rfl rfl (List.eraseIdx_subset ..)

end Sparing

/-- **A slot that `disconnect_idle` takes out of the table** shows a client that is not in use. -/
theorem Sparing.step_idle {l : ClientLabel} (h : s.Sparing) (htime : s.InTime l)
    (hstep : s.step l = some s') (hlog : s'.log = s.log ++ [.popped a c true]) : ¬ s.InUse c := by
  rcases step_log hstep with ⟨next, k, n, r, hnext, rfl⟩ | hsame | ⟨event, heq, -, hne⟩
  · rcases proceed_log { s with nextCoroutine := n, reaper := r } k next with
      ⟨b, x, hpops, heq⟩ | ⟨-, ⟨rest, -, heq⟩ | heq⟩
    · obtain ⟨rfl, rfl, hidle⟩ := ClientEvent.popped.inj (eq_of_log_append (heq.symm.trans hlog))
      cases next with
      | returns => exact absurd hidle (by simp)
      | close rest => exact absurd hidle (by simp)
      | idle stale reaper =>
          obtain ⟨⟨d, y, rest⟩, hfirst, hpair⟩ := Option.map_eq_some_iff.mp hpops
          obtain ⟨rfl, rfl⟩ := Prod.mk.inj hpair
          obtain ⟨hslot, hmem, -⟩ := firstSlot_some hfirst
          have hslot' : s.slot d = some y := hslot
          have hlook : l = .disconnectIdle ∨ l = .wake → d ∈ s.stale → ¬ s.InUse y.client :=
            fun hl hd => h.stale_not_inUse (htime.look hl) hd hslot'
          cases l with
          | disconnectIdle =>
              obtain ⟨rfl, -⟩ := Continuation.idle.inj (Option.some.inj hnext)
              exact hlook (Or.inl rfl) hmem
          | wake =>
              obtain ⟨rfl, -⟩ := Continuation.idle.inj (Option.some.inj hnext)
              exact hlook (Or.inr rfl) hmem
          | resume j =>
              simp only [proceeds] at hnext
              split at hnext
              · rename_i c next hk
                obtain rfl := Option.some.inj hnext
                exact h.spared d ⟨j, c, stale, reaper, true, hk, hmem⟩ y hslot'
              · exact absurd hnext (by simp)
              · exact absurd hnext (by simp)
          | closeAll =>
              simp only [proceeds] at hnext
              split_ifs at hnext
              exact absurd hnext (by simp)
          | _ => exact absurd hnext (by simp [proceeds])
    · have hclosed : (({ s with nextCoroutine := n, reaper := r } : ClientManager).proceed k
          next).log = s.log ++ [.closed] := by
        rw [heq]
        rfl
      exact absurd (eq_of_log_append (hclosed.symm.trans hlog)) (by simp)
    · exact absurd (heq.symm.trans hlog) log_ne_append
  · exact absurd (hsame.symm.trans hlog) log_ne_append
  · exact absurd (eq_of_log_append (heq.symm.trans hlog)) (hne a c)

/-! ## Whole runs -/

theorem sparing_new (credentials : Bool) (idleTimeout : ℕ) :
    (new credentials idleTimeout).Sparing where
  keys := List.nodup_nil
  made := fun _ _ h => absurd h (by simp [slot, new])
  creating := fun a c ⟨k, done, hk⟩ => absurd hk (by simp [new])
  reconnecting := fun k a c done hk => absurd hk (by simp [new])
  operations := fun o ho => absurd ho (by simp [new])
  spared := fun a ⟨k, c, rest, reaper, done, hk, _⟩ => absurd hk (by simp [new])

/-- **The idle reaper spares the clients that are in use** in every run whose steps are in time:
when `disconnect_idle` disconnects a client, no caller of `get` has it and has requests left, or
awaits its connection. -/
theorem in_use_not_disconnected {credentials : Bool} {idleTimeout : ℕ} {ls : List ClientLabel}
    (hrun : runLabels step (new credentials idleTimeout) ls = some s)
    (htime : Along step InTime (new credentials idleTimeout) ls) :
    ∀ pre l post u u' a c, ls = pre ++ l :: post →
      runLabels step (new credentials idleTimeout) pre = some u → step u l = some u' →
      u'.log = u.log ++ [.popped a c true] →
      (∀ o ∈ u.operations, o.client ≠ c) ∧ ¬ u.Reconnecting c := by
  rintro pre l post u u' a c rfl hpre hu hlog
  obtain ⟨halong, hrest⟩ := (along_append hpre).mp htime
  have hinv : u.Sparing :=
    invariant_runLabels (fun u l u' h hC hu => h.step hC hu) (sparing_new credentials idleTimeout)
      halong hpre
  have hfree := hinv.step_idle hrest.1 hu hlog
  exact ⟨fun o ho hoc => hfree (Or.inl ⟨o, ho, hoc⟩), fun hre => hfree (Or.inr hre)⟩

/-- A client that nobody uses any more is disconnected when it has been idle for long enough. -/
theorem in_use_not_disconnected_released :
    ∃ u u', runLabels step (new true 0)
        [.get 1, .complete 0, .resume 0, .release 0, .tick (30 * second)] = some u ∧
      u.step .wake = some u' ∧ u'.log = u.log ++ [.popped 1 0 true] ∧ ¬ u.Reconnecting 0 := by
  have hrun : runLabels step (new true 0)
      [.get 1, .complete 0, .resume 0, .release 0, .tick (30 * second), .wake] = some _ := rfl
  refine ⟨_, _, rfl, rfl, rfl, (in_use_not_disconnected hrun ?_
    [.get 1, .complete 0, .resume 0, .release 0, .tick (30 * second)] .wake [] _ _ 1 0 rfl rfl rfl
    rfl).2⟩
  -- only the `get` has a coroutine, so nothing that has been found idle is pending
  have hquiet : ∀ {u : ClientManager} {l : ClientLabel}, l ≠ .disconnectIdle → l ≠ .wake →
      (∀ k t, u.coroutines k = some t → t.awaiting = .create 1 0) → u.InTime l := by
    intro u l hidle hwake hco
    have hnone : ∀ a, ¬ u.PendingStale a := fun a ⟨k, c, rest, reaper, done, hk, _⟩ =>
      absurd (hco k _ hk) (by simp)
    exact
      { look := fun hl => (hl.elim hidle hwake).elim
        get := fun a _ => hnone a
        store := fun k a c _ _ => hnone a }
  have hset : ∀ (u : ClientManager) (t : Option Coroutine),
      (∀ y, t = some y → y.awaiting = .create 1 0) →
      (∀ k x, u.coroutines k = some x → x.awaiting = .create 1 0) →
      ∀ k x, (u.setCoroutine 0 t).coroutines k = some x → x.awaiting = .create 1 0 := by
    intro u t ht hu k x hx
    rcases coroutines_set hx with ⟨-, hx⟩ | ⟨-, hx⟩
    · exact ht x hx
    · exact hu k x hx
  have hmade : ∀ done y, some (⟨.create 1 0, done⟩ : Coroutine) = some y →
      y.awaiting = .create 1 0 := fun done y hy => by rw [← Option.some.inj hy]
  have h₀ : ∀ k x, (new true 0).coroutines k = some x → x.awaiting = .create 1 0 :=
    fun k x hx => absurd hx (by simp [new])
  have h₁ := hset (new true 0) _ (hmade false) h₀
  have h₂ := hset _ _ (hmade true) h₁
  have h₃ := hset _ none (by simp) h₂
  refine ⟨hquiet (by simp) (by simp) h₀, fun u hu => ?_⟩
  obtain rfl := Option.some.inj hu
  refine ⟨hquiet (by simp) (by simp) h₁, fun u hu => ?_⟩
  obtain rfl := Option.some.inj hu
  refine ⟨hquiet (by simp) (by simp) h₂, fun u hu => ?_⟩
  obtain rfl := Option.some.inj hu
  refine ⟨hquiet (by simp) (by simp) h₃, fun u hu => ?_⟩
  obtain rfl := Option.some.inj hu
  refine ⟨hquiet (by simp) (by simp) h₃, fun u hu => ?_⟩
  obtain rfl := Option.some.inj hu
  refine ⟨?_, fun _ _ => trivial⟩
  exact
    { look := by
        rintro - a x - (⟨o, ho, -⟩ | ⟨k, d, done, hk⟩)
        · exact absurd (show o ∈ ([] : List Operation) from ho) (by simp)
        · exact absurd (h₃ k _ hk) (by simp)
      get := by simp
      store := by simp }

/-- A caller that asks for its client once and uses it for the whole of `idle_timeout`, as a scan
of many pages does. -/
theorem scan_outlives_its_client :
    ∃ u u', runLabels step (new true (300 * second))
        [.get 1, .complete 0, .resume 0, .tick (300 * second)] = some u ∧
      u.step .wake = some u' ∧ u'.log = u.log ++ [.popped 1 0 true] ∧
      ¬ ((∀ o ∈ u.operations, o.client ≠ 0) ∧ ¬ u.Reconnecting 0) := by
  refine ⟨_, _, rfl, rfl, rfl, fun h => ?_⟩
  exact h.1 ⟨1, 0⟩ (by decide) rfl

end ClientManager
end Telegram
end MigrationStudio
