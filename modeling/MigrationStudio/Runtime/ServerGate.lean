import MigrationStudio.Migration.Planner
import MigrationStudio.Runtime.Ownership

/-!
# FLOOD_WAIT and the other executors of the account

A FLOOD_WAIT is known in two places: in the scheduler of the executor that received it, and in the
`waiting_until` of its job, which `account_waiting_until` of version 1.2 shows only while the job
is WAITING_SERVER.  An executor that is built during the wait learns of it from the row; one that
was built before, and queues for the mutation lock, does not learn of it at all.

* `server_gate_respected`: no RPC of an account is sent during a wait of the account, in every run
  in which each executor built during a wait finds it in the row (or the holder of the lock knows
  it), and in which no executor leaves the lock during a wait to an executor that does not know it.
* `resumed_during_flood_wait`: a run that is paused during the wait and resumed sends at once.
-/

namespace MigrationStudio

open Foundations MigrationStudio.Core Accounts Jobs Telegram Storage Migration

namespace Migration
namespace Executor

variable {env : Env} {e : Executor} {m : Move} {out : Outcome}

/-! ## The scheduler through one transition -/

theorem scheduler_raise {e' : Executor} {message : String} (h : e.raise message = some e') :
    e'.scheduler = e.scheduler ∧ e'.point = .failed := by
  rw [Executor.raise] at h
  split at h
  · exact absurd h (by simp)
  · exact absurd h (by simp)
  · exact absurd h (by simp)
  · exact Option.some.inj h ▸ ⟨rfl, rfl⟩

/-- A scheduler never forgets a server wait. -/
theorem Transition.serverWaitUntil_le (h : Transition env e m out) :
    ∀ e' ∈ out.executor, e.scheduler.serverWaitUntil ≤ e'.scheduler.serverWaitUntil := by
  intro e' he'
  cases h with
  | raised haw message => rw [(scheduler_raise he').1]
  | flooded hpoint hcode =>
      exact Option.some.inj he' ▸ (e.scheduler.serverWaitUntil_applyServerWait _ _).1
  | succeeded hpoint | final hpoint hfinal hpause =>
      exact Option.some.inj he' ▸ (e.scheduler.serverWaitUntil_markStableCandidate _).ge
  | leave hset hpoint | publish hset hpoint | failed hset hpoint => exact absurd he' (by simp)
  | _ => exact Option.some.inj he' ▸ le_rfl

/-- The sleep before an attempt ends after the server wait that its scheduler knows. -/
def SleepsOut (e : Executor) : Prop :=
  ∀ deadline a, e.point = .sleeping deadline .attempt a →
    e.scheduler.serverWaitUntil ≤ deadline

theorem sleepsOut_of_point {p : Point} (h : e.point = p)
    (hp : ∀ deadline a, p ≠ .sleeping deadline .attempt a) : e.SleepsOut :=
  fun deadline a hpoint => absurd (h.symm.trans hpoint) (hp deadline a)

theorem Transition.sleepsOut (h : Transition env e m out) (he : e.SleepsOut) :
    ∀ e' ∈ out.executor, e'.SleepsOut := by
  intro e' he'
  cases h with
  | raised haw message => exact sleepsOut_of_point (scheduler_raise he').2 (by simp)
  | @sleep k a hset hpoint =>
      obtain rfl := Option.some.inj he'
      intro deadline b hsleep
      obtain ⟨rfl, -, -⟩ := Point.sleeping.inj hsleep
      exact e.scheduler.remaining_ge_server env.now
  | interrupt hset hpoint c hc =>
      obtain rfl := Option.some.inj he'
      exact sleepsOut_of_point (p := .returned none) rfl (by simp)
  | leave hset hpoint | publish hset hpoint | failed hset hpoint => exact absurd he' (by simp)
  | flushWrite | flushSkip | write | pauseAccount | resumed | primeFill | primeReceive
  | popReceive | popFill | read | delayedWrite | delayedSkip | delayedDone | pauseRequested
  | stopRequested =>
      obtain rfl := Option.some.inj he'
      exact he
  | @take item buffer hset hpoint htake =>
      obtain rfl := Option.some.inj he'
      refine sleepsOut_of_point rfl fun deadline a => ?_
      rw [enter]
      split <;> simp
  | _ =>
      obtain rfl := Option.some.inj he'
      exact sleepsOut_of_point rfl (by simp)

theorem Transition.of_flooded (h : Transition env e m out) {account : AccountId} {u : ℕ}
    (hev : out.event = some (.flooded account u)) :
    account = e.accountId ∧
      ∃ e', out.executor = some e' ∧ e'.holdsLock = true ∧ u ≤ e'.scheduler.serverWaitUntil := by
  cases h with
  | flooded hpoint hcode =>
      obtain ⟨rfl, rfl⟩ := Event.flooded.inj (Option.some.inj hev)
      exact ⟨rfl, _, rfl, rfl, (e.scheduler.serverWaitUntil_applyServerWait _ _).2⟩
  | _ => simp at hev

end Executor
end Migration

namespace Runtime
namespace App

/-! ## The conditions on a step -/

/-- A FLOOD_WAIT of the account that ends at `u` is still running. -/
def OpenWait (s : App) (account : AccountId) (u : ℕ) : Prop :=
  .flooded account u ∈ s.log ∧ s.now < u

/-- The executor that holds the account's mutation lock knows the wait. -/
def HolderKnows (s : App) (account : AccountId) (u : ℕ) : Prop :=
  ∃ j e, s.executors j = some e ∧ e.accountId = account ∧ e.holdsLock = true ∧
    u ≤ e.scheduler.serverWaitUntil

/-- An executor that the step builds finds every running wait of its account in the row of a
WAITING_SERVER job, or the holder of the lock knows the wait. -/
def KnownWhenBuilt (s : App) (l : Label) : Prop :=
  ∀ s' j e, s.step l = some s' → s.executors j = none → s'.executors j = some e →
    ∀ u, s.OpenWait e.accountId u →
      u ≤ (s.db.accountWaitingUntil e.accountId).getD 0 ∨ s.HolderKnows e.accountId u

/-- An executor that leaves the mutation lock in the step leaves it, during a wait, only to
executors of the account that know the wait. -/
def KnownWhenLeft (s : App) (l : Label) : Prop :=
  ∀ s' account j, s.step l = some s' → s.lock account = some j → s'.lock account ≠ some j →
    ∀ k f, s'.executors k = some f → k ≠ j → f.accountId = account →
      ∀ u, s.OpenWait account u → u ≤ f.scheduler.serverWaitUntil

/-- Both conditions. -/
def GateKept (s : App) (l : Label) : Prop := s.KnownWhenBuilt l ∧ s.KnownWhenLeft l

/-! ## The invariant -/

/-- All executors of the account know the wait. -/
def AllKnow (s : App) (account : AccountId) (u : ℕ) : Prop :=
  ∀ j e, s.executors j = some e → e.accountId = account → u ≤ e.scheduler.serverWaitUntil

/-- No RPC that has been sent was sent during a wait of its account. -/
def GateRespected (log : List Event) : Prop :=
  ∀ before rpc after, log = before ++ .sent rpc :: after →
    ∀ u, .flooded rpc.account u ∈ before → u ≤ rpc.sentAt

/-- What a run keeps: every running wait is known to all executors of its account or to the one
that holds the lock, and every sleep before an attempt outlasts the wait that its executor
knows. -/
structure Gated (s : App) : Prop where
  sound : s.Sound
  respected : GateRespected s.log
  known : ∀ account u, s.OpenWait account u → s.AllKnow account u ∨ s.HolderKnows account u
  sleeps : ∀ j e, s.executors j = some e → e.SleepsOut

theorem GateRespected.append {log : List Event} (h : GateRespected log) {event : Event}
    (hnew : ∀ rpc, event = .sent rpc → ∀ u, .flooded rpc.account u ∈ log → u ≤ rpc.sentAt) :
    GateRespected (log ++ [event]) := by
  intro before rpc after hlog u hu
  rcases List.append_eq_append_iff.mp hlog.symm with ⟨mid, hbefore, hafter⟩ | ⟨mid, hlog', hmid⟩
  · rcases List.cons_eq_append_iff.mp hafter with ⟨rfl, hrest⟩ | ⟨tail, rfl, -⟩
    · rw [List.append_nil] at hbefore
      subst hbefore
      obtain ⟨rfl, -⟩ := List.cons.inj hrest
      exact hnew rpc rfl u hu
    · exact h before rpc tail hbefore u hu
  · rcases List.append_eq_singleton_iff.mp hmid.symm with ⟨rfl, hrest⟩ | ⟨-, hrest⟩
    · rw [List.append_nil] at hlog'
      obtain ⟨rfl, -⟩ := List.cons.inj hrest
      rw [hlog'] at hu
      exact hnew rpc rfl u hu
    · exact absurd hrest (by simp)

variable {s s' : App} {l : Label}

/-- Two executors inside the lock of one account are the same. -/
theorem Sound.unique_holder (hs : s.Sound) {j k : JobId} {e f : Executor}
    (he : s.executors j = some e) (hf : s.executors k = some f)
    (hacc : e.accountId = f.accountId) (hej : e.holdsLock = true) (hfk : f.holdsLock = true) :
    j = k := by
  have hj := hs.locked j e he hej
  have hk := hs.locked k f hf hfk
  rw [hacc, hk] at hj
  exact (Option.some.inj hj).symm

/-- An executor that sends does so after every wait of its account. -/
theorem Gated.sent (hs : s.Gated) {j : JobId} {e : Executor} (he : s.executors j = some e)
    {deadline : ℕ} {a : Attempt} (hpoint : e.point = .sleeping deadline .attempt a)
    (hnow : deadline ≤ s.now) {u : ℕ} (hu : .flooded e.accountId u ∈ s.log) : u ≤ s.now := by
  by_contra hlate
  have hsleep : e.scheduler.serverWaitUntil ≤ deadline := hs.sleeps j e he deadline a hpoint
  have hlock : e.holdsLock = true := by rw [Executor.holdsLock, hpoint]
  rcases hs.known e.accountId u ⟨hu, not_le.mp hlate⟩ with hall | ⟨k, f, hf, hacc, hfl, hknow⟩
  · have hknow := hall j e he rfl
    omega
  · obtain rfl := hs.sound.unique_holder hf he hacc hfl hlock
    rw [he, Option.some.injEq] at hf
    subst hf
    omega

/-! ## One step of an executor -/

section Executor

variable {job : JobId} {e : Executor} {m : Move} {out : Outcome} {fails : Option String}

theorem executors_applyOutcome_of_ne {k : JobId} (hk : k ≠ job) :
    (s.applyOutcome job e out fails).executors k = s.executors k := by
  simp only [applyOutcome, Function.update_of_ne hk]

theorem executors_applyOutcome_self :
    (s.applyOutcome job e out fails).executors job = out.executor := by
  simp only [applyOutcome, Function.update_self]

theorem respected_applyOutcome (hs : s.Gated) (he : s.executors job = some e)
    (h : Executor.Transition (s.env e.accountId) e m out) :
    GateRespected (s.applyOutcome job e out fails).log := by
  simp only [applyOutcome]
  cases hev : out.event with
  | none =>
      rw [Option.toList_none, List.append_nil]
      exact hs.respected
  | some event =>
      rw [Option.toList_some]
      refine hs.respected.append fun rpc hrpc u hu => ?_
      subst hrpc
      obtain ⟨deadline, a, hpoint, hnow, rfl⟩ := h.sent_eq hev
      exact hs.sent he hpoint hnow hu

/-- Leaving the lock in a step of the executor. -/
theorem lock_of_left (hs : s.Sound) (he : s.executors job = some e) (hlock : e.holdsLock = true)
    (hleft : out.executor.any Executor.holdsLock = false) :
    (s.applyOutcome job e out fails).lock e.accountId ≠ some job := by
  have hmine := hs.locked job e he hlock
  simp only [applyOutcome, relock, hleft, Bool.false_eq_true, if_false, if_pos hmine,
    Function.update_self]
  exact (by simp)

theorem known_applyOutcome (hs : s.Gated) (he : s.executors job = some e)
    (h : Executor.Transition (s.env e.accountId) e m out)
    (hstep : s.step l = some (s.applyOutcome job e out fails)) (hcond : s.KnownWhenLeft l)
    (account : AccountId) (u : ℕ) (hopen : (s.applyOutcome job e out fails).OpenWait account u) :
    (s.applyOutcome job e out fails).AllKnow account u ∨
      (s.applyOutcome job e out fails).HolderKnows account u := by
  obtain ⟨hmem, hnow⟩ := hopen
  rcases List.mem_append.mp hmem with hold | hnew
  · rcases hs.known account u ⟨hold, hnow⟩ with hall | ⟨k, f, hf, hacc, hfl, hknow⟩
    · -- all executors knew it, and the one that moved still does
      refine Or.inl fun j g hg hgacc => ?_
      by_cases hj : j = job
      · subst hj
        rw [executors_applyOutcome_self] at hg
        have hsame := (h.same hg).accountId
        exact (hall j e he (hsame ▸ hgacc)).trans (h.serverWaitUntil_le g hg)
      · rw [executors_applyOutcome_of_ne hj] at hg
        exact hall j g hg hgacc
    · by_cases hk : k = job
      · subst hk
        rw [he, Option.some.injEq] at hf
        subst hf
        cases hin : out.executor.any Executor.holdsLock with
        | true =>
            obtain ⟨e', he', hl'⟩ := (Option.any_eq_true _ _).mp hin
            exact Or.inr ⟨k, e', by rw [executors_applyOutcome_self, he'],
              (h.same he').accountId.trans hacc, hl', hknow.trans (h.serverWaitUntil_le e' he')⟩
        | false =>
            -- the holder leaves: the others know the wait by the condition
            refine Or.inl fun j g hg hgacc => ?_
            by_cases hj : j = k
            · subst hj
              rw [executors_applyOutcome_self] at hg
              exact hknow.trans (h.serverWaitUntil_le g hg)
            · have hleft : (s.applyOutcome k e out fails).lock e.accountId ≠ some k :=
                lock_of_left hs.sound he hfl hin
              exact hcond _ e.accountId k hstep (hs.sound.locked k e he hfl) hleft j g hg hj
                (hgacc.trans hacc.symm) u (hacc ▸ ⟨hold, hnow⟩)
      · exact Or.inr ⟨k, f, by rw [executors_applyOutcome_of_ne hk, hf], hacc, hfl, hknow⟩
  · obtain ⟨rfl, e', he', hl', hknow⟩ := h.of_flooded (Option.mem_toList.mp hnew)
    exact Or.inr ⟨job, e', by rw [executors_applyOutcome_self, he'], (h.same he').accountId, hl',
      hknow⟩

end Executor

/-! ## One step of the program -/

/-- A new executor knows the wait that the row shows. -/
theorem serverWaitUntil_newExecutor (s : App) (id : JobId) (account : AccountId)
    (target : Telegram.GroupContext) (scheduler : InviteScheduler) :
    (s.db.accountWaitingUntil account).getD 0 ≤
        (s.newExecutor id account target scheduler).scheduler.serverWaitUntil ∨
      (s.db.accountWaitingUntil account).getD 0 ≤ s.now := by
  have hrem : s.remainingWait account =
      (s.db.accountWaitingUntil account).getD 0 - s.now := rfl
  simp only [newExecutor, accountScheduler]
  by_cases hpos : 0 < s.remainingWait account
  · have happly :=
      (scheduler.serverWaitUntil_applyServerWait s.now (s.remainingWait account)).2
    rw [if_pos hpos]
    exact Or.inl (by omega)
  · exact Or.inr (by omega)

theorem known_built (hs : s.Gated) {id : JobId} {account : AccountId}
    {target : Telegram.GroupContext} {scheduler : InviteScheduler} (hidle : s.executors id = none)
    (hstep : s.step l = some
      (s.withExecutor id (s.newExecutor id account target scheduler)))
    (hcond : s.KnownWhenBuilt l) (acc : AccountId) (u : ℕ) (hopen : s.OpenWait acc u) :
    (s.withExecutor id (s.newExecutor id account target scheduler)).AllKnow acc u ∨
      (s.withExecutor id (s.newExecutor id account target scheduler)).HolderKnows acc u := by
  have hothers : s.HolderKnows acc u →
      (s.withExecutor id (s.newExecutor id account target scheduler)).HolderKnows acc u := by
    rintro ⟨k, f, hf, hacc, hfl, hknow⟩
    have hk : k ≠ id := by
      rintro rfl
      rw [hidle] at hf
      exact absurd hf (by simp)
    exact ⟨k, f, by simp only [withExecutor, Function.update_of_ne hk, hf], hacc, hfl, hknow⟩
  rcases hs.known acc u hopen with hall | hholder
  · by_cases hacc : acc = account
    · subst hacc
      rcases hcond _ id (s.newExecutor id acc target scheduler) hstep hidle
        (by simp only [withExecutor, Function.update_self]) u hopen with hrow | hholder
      · refine Or.inl fun j e he hj => ?_
        simp only [withExecutor] at he
        by_cases hid : j = id
        · subst hid
          rw [Function.update_self, Option.some.injEq] at he
          subst he
          have hopen' := hopen.2
          have hrow' : u ≤ (s.db.accountWaitingUntil acc).getD 0 := hrow
          rcases serverWaitUntil_newExecutor s j acc target scheduler with hnew | hpast
          · exact hrow'.trans hnew
          · omega
        · rw [Function.update_of_ne hid] at he
          exact hall j e he hj
      · exact Or.inr (hothers hholder)
    · refine Or.inl fun j e he hj => ?_
      simp only [withExecutor] at he
      by_cases hid : j = id
      · subst hid
        rw [Function.update_self, Option.some.injEq] at he
        subst he
        exact absurd hj.symm hacc
      · rw [Function.update_of_ne hid] at he
        exact hall j e he hj
  · exact Or.inr (hothers hholder)

/-- **One step** that meets the conditions keeps the gate. -/
theorem Gated.step (hs : s.Gated) (hcond : s.GateKept l) (hstep : s.step l = some s') :
    s'.Gated := by
  have hcases := step_cases hstep
  have hsound := hs.sound.step hcases
  cases hcases with
  | tick d =>
      exact ⟨hsound, hs.respected,
        fun account u hopen => hs.known account u ⟨hopen.1, (Nat.le_add_right ..).trans_lt hopen.2⟩,
        hs.sleeps⟩
  | crash =>
      exact ⟨hsound, hs.respected, fun account u hopen => Or.inl fun j e he => absurd he (by simp),
        fun j e he => absurd he (by simp)⟩
  | normalize hrec => exact ⟨hsound, hs.respected, hs.known, hs.sleeps⟩
  | refused l => exact hs
  | foreign critical fails hown => exact ⟨hsound, hs.respected, hs.known, hs.sleeps⟩
  | lane hrec hl hw => exact ⟨hsound, hs.respected, hs.known, hs.sleeps⟩
  | executor hrec hjob he hm hout =>
      have htr := Executor.transition_of_step hout
      exact ⟨hsound, respected_applyOutcome hs he htr,
        known_applyOutcome hs he htr hstep hcond.2,
        update_executor hs.sleeps fun e' he' => htr.sleepsOut (hs.sleeps _ _ he) e' he'⟩
  | @built _ id row account target scheduler hl hadm =>
      refine ⟨hsound, hs.respected.append fun rpc hrpc => absurd hrpc (by simp),
        fun acc u hopen => known_built hs hadm.idle hstep hcond.1 acc u ⟨?_, hopen.2⟩,
        update_executor hs.sleeps fun e' he' => ?_⟩
      · have hmem := hopen.1
        simp only [withExecutor] at hmem
        simpa using hmem
      · obtain rfl := Option.some.inj he'
        exact Executor.sleepsOut_of_point (p := .created) rfl (by simp)

theorem gated_start (db : Database) (now : ℕ) : (App.start db now).Gated where
  sound := sound_start db now
  respected := fun before rpc after h => absurd h (by simp [App.start])
  known := fun account u h => absurd h.1 (by simp [App.start])
  sleeps := fun j e h => absurd h (by simp [App.start])

/-- **The server gate is respected.**  In every run whose steps meet the conditions, an RPC that is
sent after a FLOOD_WAIT of its account is sent after the end of the wait. -/
theorem server_gate_respected (db : Database) (now : ℕ) (ls : List Label) (s : App)
    (hrun : runLabels App.step (App.start db now) ls = some s)
    (hcond : Along App.step App.GateKept (App.start db now) ls) :
    ∀ before rpc after, s.log = before ++ .sent rpc :: after →
      ∀ u, .flooded rpc.account u ∈ before → u ≤ rpc.sentAt :=
  (invariant_runLabels (I := Gated) (fun _ _ _ hI hC hstep => hI.step hC hstep)
    (gated_start db now) hcond hrun).respected

/-! ## One job at a time -/

/-- Only the job `id` has an executor, and only it is in a lock. -/
structure Alone (id : JobId) (s : App) : Prop where
  executors : ∀ k, k ≠ id → s.executors k = none
  lock : ∀ account j, s.lock account = some j → j = id

/-- The label builds no executor of another job. -/
def startsOnly (id : JobId) : Label → Bool
  | .start k _ _ | .resume k _ => k = id
  | _ => true

theorem Alone.step {id : JobId} (hs : Alone id s) (hl : startsOnly id l = true)
    (h : s.Step l s') : Alone id s' := by
  cases h with
  | tick d => exact ⟨hs.executors, hs.lock⟩
  | crash => exact ⟨fun _ _ => rfl, fun _ _ h => absurd h (by simp)⟩
  | normalize hrec => exact ⟨hs.executors, hs.lock⟩
  | refused l => exact hs
  | foreign critical fails hown => exact ⟨hs.executors, hs.lock⟩
  | lane hrec hl hw => exact ⟨hs.executors, hs.lock⟩
  | @built _ k row account target scheduler hlabel hadm =>
      have hk : k = id := by
        obtain ⟨interval, rfl | rfl⟩ := hlabel <;> simpa [startsOnly] using hl
      subst hk
      exact ⟨fun j hj => by simp only [withExecutor, Function.update_of_ne hj, hs.executors j hj],
        hs.lock⟩
  | @executor _ job e m fails out hrec hjob he hm hout =>
      have hjob : job = id := by
        by_contra hne
        rw [hs.executors job hne] at he
        exact absurd he (by simp)
      subst hjob
      refine ⟨fun k hk => by rw [executors_applyOutcome_of_ne hk, hs.executors k hk],
        fun account j hlock => ?_⟩
      simp only [applyOutcome, relock] at hlock
      split_ifs at hlock with hin hmine
      · by_cases hacc : account = e.accountId
        · rw [hacc, Function.update_self, Option.some.injEq] at hlock
          exact hlock.symm
        · rw [Function.update_of_ne hacc] at hlock
          exact hs.lock account j hlock
      · by_cases hacc : account = e.accountId
        · rw [hacc, Function.update_self] at hlock
          exact absurd hlock (by simp)
        · rw [Function.update_of_ne hacc] at hlock
          exact hs.lock account j hlock
      · exact hs.lock account j hlock

/-- A program that runs one job at a time leaves the lock to nobody; it keeps the gate as long as it
builds no executor during a wait. -/
theorem gateKept_of_alone {id : JobId} (hs : Alone id s) (hl : startsOnly id l = true)
    (hbuild : (∀ k a i, l ≠ .start k a i) ∧ (∀ k i, l ≠ .resume k i) ∨
      ∀ account u, .flooded account u ∉ s.log) : s.GateKept l := by
  refine ⟨fun s' j e hstep hnone he u hopen => ?_,
    fun s' account j hstep hlock _ k f hf hk => ?_⟩
  · rcases hbuild with ⟨hstart, hresume⟩ | hlog
    · exfalso
      have hsame : s'.executors j = none := by
        cases step_cases hstep with
        | crash => rfl
        | @built _ k row account target scheduler hlabel hadm =>
            obtain ⟨interval, rfl | rfl⟩ := hlabel
            · exact absurd rfl (hstart k account interval)
            · exact absurd rfl (hresume k interval)
        | @executor _ job e m fails out hrec hjob hex hm hout =>
            have hne : j ≠ job := by
              rintro rfl
              rw [hnone] at hex
              exact absurd hex (by simp)
            rw [executors_applyOutcome_of_ne hne, hnone]
        | _ => exact hnone
      rw [hsame] at he
      exact absurd he (by simp)
    · exact absurd hopen.1 (hlog _ u)
  · rw [hs.lock account j hlock] at hk
    rw [(hs.step hl (step_cases hstep)).executors k hk] at hf
    exact absurd hf (by simp)

/-! ## A wait of ten minutes, and one of two seconds -/

/-- A FLOOD_WAIT of `seconds` and the writes that follow it, to the sleep. -/
def floodWait (job : JobId) (seconds : ℕ) : List Label :=
  [.answer job (some ⟨.rateLimit, "FLOOD_WAIT", some seconds⟩), .execute job none] ++
    criticalWrite job ++ criticalWrite job ++ criticalWrite job ++ criticalWrite job ++
    [.advance job]

/-- A pause during a sleep, without results to flush, to the end of `run`. -/
def pauseAsleep (job : JobId) : List Label :=
  [.pause job, .advance job, .execute job none] ++ criticalWrite job ++ criticalWrite job ++
    [.advance job, .advance job, .advance job]

/-- The first candidate of the small program is invited at time 0. -/
def firstInvitation : Rpc where
  job := 0
  account := 1
  action := .invite
  target := ⟨500, some 600, .channel, 1⟩
  ordinal := 0
  member := ⟨some 1, some 101⟩
  sentAt := 0

/-- A run that receives a FLOOD_WAIT of ten minutes, is paused and resumed: the job is PAUSED, so
the new executor does not see the wait, and its first RPC is sent at once. -/
theorem resumed_during_flood_wait :
    ∃ s before rpc after, runLabels App.step
        (App.start (smallDatabase [persist 1 1 [1, 2] .invite]) 0)
        ([.start 0 1 (3 * second)] ++ enterLoop 0 ++ sendRpc 0 ++ floodWait 0 600 ++
          pauseAsleep 0 ++ [.resume 0 (3 * second)] ++ enterLoop 0 ++ sendRpc 0) = some s ∧
      s.log = before ++ .sent rpc :: after ∧ .flooded rpc.account (600 * second) ∈ before ∧
      rpc.sentAt < 600 * second := by
  have h : ((runLabels App.step
      (App.start (smallDatabase [persist 1 1 [1, 2] .invite]) 0)
      ([.start 0 1 (3 * second)] ++ enterLoop 0 ++ sendRpc 0 ++ floodWait 0 600 ++
        pauseAsleep 0 ++ [.resume 0 (3 * second)] ++ enterLoop 0 ++ sendRpc 0)).map App.log) =
      some ([.built 0 .invite, .sent firstInvitation, .flooded 1 (600 * second),
        .built 0 .invite] ++ [.sent firstInvitation]) := by
    decide +kernel
  obtain ⟨s, hs, hlog⟩ := Option.map_eq_some_iff.mp h
  exact ⟨s, _, firstInvitation, [], hs, hlog, by decide, by decide⟩

/-- The labels of a run that waits two seconds and then repeats the RPC. -/
def twoSeconds : List Label :=
  enterLoop 0 ++ sendRpc 0 ++ floodWait 0 2 ++ [.tick (3 * second), .advance 0] ++
    criticalWrite 0 ++ criticalWrite 0 ++ [.advance 0, .advance 0]

theorem along_twoSeconds {s : App} {ls : List Label} (hs : Alone 0 s)
    (hl : ∀ l ∈ ls, startsOnly 0 l = true ∧ (∀ k a i, l ≠ .start k a i) ∧
      ∀ k i, l ≠ .resume k i) : Along App.step App.GateKept s ls := by
  induction ls generalizing s with
  | nil => trivial
  | cons l ls ih =>
      obtain ⟨hstarts, hbuild⟩ := hl l (List.mem_cons_self ..)
      exact ⟨gateKept_of_alone hs hstarts (Or.inl hbuild), fun s' hs' =>
        ih (hs.step hstarts (step_cases hs')) fun m hm => hl m (List.mem_cons_of_mem _ hm)⟩

/-- A run that waits out its FLOOD_WAIT. -/
theorem server_gate_respected_two_seconds :
    ∃ s, runLabels App.step (App.start (smallDatabase [persist 1 1 [1, 2] .invite]) 0)
        (.start 0 1 (3 * second) :: twoSeconds) = some s ∧
      s.rpcs.map Rpc.sentAt = [0, 3 * second] ∧
      ∀ before rpc after, s.log = before ++ .sent rpc :: after →
        ∀ u, .flooded rpc.account u ∈ before → u ≤ rpc.sentAt := by
  have h : ((runLabels App.step (App.start (smallDatabase [persist 1 1 [1, 2] .invite]) 0)
      (.start 0 1 (3 * second) :: twoSeconds)).map fun s => s.rpcs.map Rpc.sentAt) =
      some [0, 3 * second] := by
    decide +kernel
  obtain ⟨s, hs, hsent⟩ := Option.map_eq_some_iff.mp h
  refine ⟨s, hs, hsent, server_gate_respected _ 0 _ s hs ⟨?_, fun t ht => ?_⟩⟩
  · have halone : Alone 0 (App.start (smallDatabase [persist 1 1 [1, 2] .invite]) 0) :=
      ⟨fun _ _ => rfl, fun _ _ h => absurd h (by simp [App.start])⟩
    exact gateKept_of_alone halone rfl (Or.inr fun _ _ h => absurd h (by simp [App.start]))
  · have halone : Alone 0 (App.start (smallDatabase [persist 1 1 [1, 2] .invite]) 0) :=
      ⟨fun _ _ => rfl, fun _ _ h => absurd h (by simp [App.start])⟩
    refine along_twoSeconds (halone.step rfl (step_cases ht)) fun l hl => ?_
    have hall : twoSeconds.all fun l =>
        match l with
        | .start _ _ _ | .resume _ _ => false
        | _ => true := by decide
    have hthis := List.all_eq_true.mp hall l hl
    cases l <;> simp_all [startsOnly]

end App
end Runtime
end MigrationStudio
