import Mathlib.Data.List.Chain
import MigrationStudio.Runtime.ServerGate

/-!
# The distance between two RPCs of an account

The minimal distance of the mutation RPCs is kept by the scheduler, and every run has a scheduler of
its own: it knows when its own run sent last.  Inside one run that is enough, since the run holds
the mutation lock of the account from its first RPC to its last.  The first RPC of the next run
(the same job resumed, or another job of the account that was waiting for the lock) is sent
without a look at the last one of the account.

* `Transition.onCadence`: an executor never sleeps less than the minimal distance from its own last
  RPC.
* `rpcs_apart_iff`: the RPCs of every account are apart in a run exactly when no step sends the
  first RPC of an executor too early.
* `resumed_at_once`: a run that is paused and resumed within a second.
-/

namespace MigrationStudio

open Foundations MigrationStudio.Core Accounts Jobs Telegram Storage Migration

namespace Migration
namespace Executor

variable {env : Env} {e : Executor} {m : Move} {out : Outcome}

/-! ## The cadence of one executor -/

/-- What the executor keeps about its own RPCs: before the lock it has sent none, and a sleep before
an attempt ends the minimal distance after the last. -/
structure OnCadence (e : Executor) : Prop where
  paced : e.scheduler.Paced
  unsent : e.point = .created ∨ e.point = .prime ∨ e.point = .acquire →
    e.scheduler.lastAttempt = none
  sleeps : ∀ deadline a t, e.point = .sleeping deadline .attempt a →
    e.scheduler.lastAttempt = some t → t + MIN_INVITE_INTERVAL ≤ deadline

/-- The cadence is about the scheduler and the point only. -/
theorem OnCadence.congr {e' : Executor} (h : e.OnCadence) (hs : e'.scheduler = e.scheduler)
    (hp : e'.point = e.point) : e'.OnCadence := by
  refine ⟨hs ▸ h.paced, fun hpoint => ?_, fun deadline a t hpoint ht => ?_⟩
  · rw [hs]
    exact h.unsent (hp ▸ hpoint)
  · rw [hs] at ht
    exact h.sleeps deadline a t (hp ▸ hpoint) ht

/-- At a point inside the lock that is no sleep before an attempt, the scheduler is all there is. -/
theorem onCadence_of_point {p : Point} (hpaced : e.scheduler.Paced) (h : e.point = p)
    (hp : p ≠ .created ∧ p ≠ .prime ∧ p ≠ .acquire ∧
      ∀ deadline a, p ≠ .sleeping deadline .attempt a) : e.OnCadence := by
  obtain ⟨hcreated, hprime, hacquire, hsleep⟩ := hp
  refine ⟨hpaced, fun hpoint => ?_, fun deadline a t hpoint => ?_⟩
  · rw [h] at hpoint
    rcases hpoint with hpoint | hpoint | hpoint
    · exact absurd hpoint hcreated
    · exact absurd hpoint hprime
    · exact absurd hpoint hacquire
  · exact absurd (h.symm.trans hpoint) (hsleep deadline a)

/-- **One transition** keeps the cadence. -/
theorem Transition.onCadence (h : Transition env e m out) (he : e.OnCadence) :
    ∀ e' ∈ out.executor, e'.OnCadence := by
  intro e' he'
  have hpaced := he.paced
  cases h with
  | raised haw message =>
      obtain ⟨hs, hp⟩ := scheduler_raise he'
      exact onCadence_of_point (hs ▸ hpaced) hp (by simp)
  | @sleep k a hset hpoint =>
      obtain rfl := Option.some.inj he'
      refine ⟨hpaced, fun hp => absurd hp (by simp), fun deadline b t hsleep ht => ?_⟩
      obtain ⟨rfl, -, -⟩ := Point.sleeping.inj hsleep
      exact hpaced.remaining_ge_local env.now ht
  | begin hset hpoint =>
      obtain rfl := Option.some.inj he'
      exact ⟨hpaced, fun _ => he.unsent (Or.inl hpoint),
        fun deadline a t hp => absurd hp (by simp)⟩
  | primed hset hpoint hload =>
      obtain rfl := Option.some.inj he'
      exact ⟨hpaced, fun _ => he.unsent (Or.inr (Or.inl hpoint)),
        fun deadline a t hp => absurd hp (by simp)⟩
  | leave hset hpoint | publish hset hpoint | failed hset hpoint => exact absurd he' (by simp)
  | flushWrite | flushSkip | write | pauseAccount | resumed | primeFill | primeReceive
  | popReceive | popFill | read | delayedWrite | delayedSkip | delayedDone | pauseRequested
  | stopRequested =>
      obtain rfl := Option.some.inj he'
      exact he.congr rfl rfl
  | interrupt hset hpoint c hc =>
      obtain rfl := Option.some.inj he'
      exact onCadence_of_point (p := .returned none) hpaced rfl (by simp)
  | @take item buffer hset hpoint htake =>
      obtain rfl := Option.some.inj he'
      refine onCadence_of_point hpaced rfl ?_
      rw [enter]
      split <;> simp
  | send hset hpoint hc hnow =>
      obtain rfl := Option.some.inj he'
      exact onCadence_of_point (hpaced.markAttempt env.now) rfl (by simp)
  | flooded hpoint hcode =>
      obtain rfl := Option.some.inj he'
      exact onCadence_of_point (hpaced.applyServerWait env.now _) rfl (by simp)
  | succeeded hpoint | final hpoint hfinal hpause =>
      obtain rfl := Option.some.inj he'
      exact onCadence_of_point (hpaced.markStableCandidate env.now) rfl (by simp)
  | _ =>
      obtain rfl := Option.some.inj he'
      exact onCadence_of_point hpaced rfl (by simp)

/-- One transition moves the last attempt of the scheduler exactly when it sends an RPC. -/
theorem Transition.lastAttempt (h : Transition env e m out) :
    ∀ e' ∈ out.executor,
      (∃ rpc, out.event = some (.sent rpc) ∧ e'.scheduler.lastAttempt = some env.now) ∨
        ((∀ rpc, out.event ≠ some (.sent rpc)) ∧
          e'.scheduler.lastAttempt = e.scheduler.lastAttempt) := by
  intro e' he'
  cases h with
  | raised haw message => exact Or.inr ⟨by simp, by rw [(scheduler_raise he').1]⟩
  | send hset hpoint hc hnow =>
      obtain rfl := Option.some.inj he'
      exact Or.inl ⟨_, rfl, rfl⟩
  | leave hset hpoint | publish hset hpoint | failed hset hpoint => exact absurd he' (by simp)
  | succeeded hpoint | final hpoint hfinal hpause =>
      obtain rfl := Option.some.inj he'
      exact Or.inr ⟨by simp, InviteScheduler.lastAttempt_markStableCandidate _ _⟩
  | _ =>
      obtain rfl := Option.some.inj he'
      exact Or.inr ⟨by simp, rfl⟩

end Executor
end Migration

namespace Runtime
namespace App

/-! ## The start times of the RPCs of an account -/

/-- The start times of the RPCs of the account, in order. -/
def sentTimes (log : List Event) (account : AccountId) : List ℕ :=
  log.filterMap fun
    | .sent rpc => if rpc.account = account then some rpc.sentAt else none
    | _ => none

/-- Two consecutive RPCs of the account start the minimal interval apart. -/
def Apart (log : List Event) (account : AccountId) : Prop :=
  (sentTimes log account).IsChain fun t u => t + MIN_INVITE_INTERVAL ≤ u

/-- When the step sends the first RPC of an executor, it is the minimal interval after the last RPC
of the account, which an earlier run or another job has sent. -/
def FirstApart (s : App) (l : Label) : Prop :=
  ∀ job e deadline a, l = .advance job → s.executors job = some e →
    e.point = .sleeping deadline .attempt a → deadline ≤ s.now → e.control = none →
    e.scheduler.lastAttempt = none →
      ∀ t ∈ (sentTimes s.log e.accountId).getLast?, t + MIN_INVITE_INTERVAL ≤ s.now

theorem sentTimes_append (log later : List Event) (account : AccountId) :
    sentTimes (log ++ later) account = sentTimes log account ++ sentTimes later account :=
  List.filterMap_append ..

theorem sentTimes_sent (rpc : Rpc) (account : AccountId) :
    sentTimes [.sent rpc] account = if rpc.account = account then [rpc.sentAt] else [] := by
  by_cases h : rpc.account = account
  · simp [sentTimes, h]
  · simp [sentTimes, h]

/-- An event that is no RPC, or one of another account, leaves the start times. -/
theorem sentTimes_toList {event : Option Event} {account : AccountId}
    (h : ∀ rpc, event = some (.sent rpc) → rpc.account ≠ account) :
    sentTimes event.toList account = [] := by
  cases event with
  | none => rfl
  | some event =>
      cases event with
      | sent rpc => rw [Option.toList_some, sentTimes_sent, if_neg (h rpc rfl)]
      | _ => rfl

theorem apart_append {log : List Event} {account : AccountId} {rpc : Rpc}
    (hacc : rpc.account = account) :
    Apart (log ++ [.sent rpc]) account ↔
      Apart log account ∧
        ∀ t ∈ (sentTimes log account).getLast?, t + MIN_INVITE_INTERVAL ≤ rpc.sentAt := by
  rw [Apart, sentTimes_append, sentTimes_sent, if_pos hacc, List.isChain_append]
  simp [Apart]

theorem Apart.of_append {log later : List Event} {account : AccountId}
    (h : Apart (log ++ later) account) : Apart log account := by
  rw [Apart, sentTimes_append] at h
  exact h.left_of_append

/-! ## The invariant -/

variable {s s' : App} {l : Label}

/-- What a run keeps: the RPCs of every account are apart, and the executor that holds the lock of
an account knows the start of its last RPC, unless it has sent none itself. -/
structure KeepsApart (s : App) : Prop where
  sound : s.Sound
  apart : ∀ account, Apart s.log account
  cadence : ∀ j e, s.executors j = some e → e.OnCadence
  last : ∀ j e t, s.executors j = some e → e.holdsLock = true →
    e.scheduler.lastAttempt = some t → (sentTimes s.log e.accountId).getLast? = some t

/-- An executor that sends does so the minimal interval after the last RPC of its account. -/
theorem KeepsApart.sent (hs : s.KeepsApart) {job : JobId} {e : Executor}
    (he : s.executors job = some e) {deadline : ℕ} {a : Attempt}
    (hpoint : e.point = .sleeping deadline .attempt a) (hnow : deadline ≤ s.now)
    (hfirst : e.scheduler.lastAttempt = none →
      ∀ t ∈ (sentTimes s.log e.accountId).getLast?, t + MIN_INVITE_INTERVAL ≤ s.now) :
    ∀ t ∈ (sentTimes s.log e.accountId).getLast?, t + MIN_INVITE_INTERVAL ≤ s.now := by
  intro t ht
  have hlock : e.holdsLock = true := by rw [Executor.holdsLock, hpoint]
  cases hlast : e.scheduler.lastAttempt with
  | none => exact hfirst hlast t ht
  | some u =>
      rw [Option.mem_def, hs.last job e u he hlock hlast, Option.some.injEq] at ht
      subst ht
      exact ((hs.cadence job e he).sleeps deadline a u hpoint hlast).trans hnow

section Executor

variable {job : JobId} {e : Executor} {m : Move} {out : Outcome} {fails : Option String}

/-- The RPCs stay apart in a step of an executor. -/
theorem apart_applyOutcome (hs : s.KeepsApart) (he : s.executors job = some e)
    (h : Executor.Transition (s.env e.accountId) e m out)
    (hfirst : ∀ rpc, out.event = some (.sent rpc) → e.scheduler.lastAttempt = none →
      ∀ t ∈ (sentTimes s.log e.accountId).getLast?, t + MIN_INVITE_INTERVAL ≤ s.now)
    (account : AccountId) : Apart (s.applyOutcome job e out fails).log account := by
  show Apart (s.log ++ out.event.toList) account
  by_cases hsent : ∃ rpc, out.event = some (.sent rpc) ∧ rpc.account = account
  · obtain ⟨rpc, hev, hacc⟩ := hsent
    obtain ⟨deadline, a, hpoint, hnow, rfl⟩ := h.sent_eq hev
    obtain rfl : e.accountId = account := hacc
    rw [hev, Option.toList_some, apart_append rfl]
    exact ⟨hs.apart _, hs.sent he hpoint hnow (hfirst _ hev)⟩
  · have hnil : sentTimes out.event.toList account = [] :=
      sentTimes_toList fun rpc hev hacc => hsent ⟨rpc, hev, hacc⟩
    rw [Apart, sentTimes_append, hnil, List.append_nil]
    exact hs.apart account

/-- The holder of the lock knows the last RPC of the account after a step of an executor. -/
theorem last_applyOutcome (hs : s.KeepsApart) (he : s.executors job = some e)
    (h : Executor.Transition (s.env e.accountId) e m out) {j : JobId} {f : Executor} {t : ℕ}
    (hf : (s.applyOutcome job e out fails).executors j = some f) (hlock : f.holdsLock = true)
    (hlast : f.scheduler.lastAttempt = some t) :
    (sentTimes (s.applyOutcome job e out fails).log f.accountId).getLast? = some t := by
  show (sentTimes (s.log ++ out.event.toList) f.accountId).getLast? = some t
  rw [sentTimes_append]
  by_cases hj : j = job
  · subst hj
    rw [executors_applyOutcome_self] at hf
    have hacc : f.accountId = e.accountId := (h.same hf).accountId
    rcases h.lastAttempt f hf with ⟨rpc, hev, hnow⟩ | ⟨hsilent, hsame⟩
    · obtain ⟨deadline, a, -, -, rfl⟩ := h.sent_eq hev
      rw [hlast, Option.some.injEq] at hnow
      rw [hev, Option.toList_some, sentTimes_sent, if_pos hacc.symm, hnow]
      simp
    · rw [sentTimes_toList fun rpc hev => absurd hev (hsilent rpc), List.append_nil, hacc]
      rw [hsame] at hlast
      rcases h.entered f hf hlock with hold | ⟨hpoint, -⟩
      · exact hs.last j e t he hold hlast
      · -- it has just got the lock, and has sent nothing
        rw [(hs.cadence j e he).unsent (Or.inr (Or.inr hpoint))] at hlast
        exact absurd hlast (by simp)
  · rw [executors_applyOutcome_of_ne hj] at hf
    have hother : ∀ rpc, out.event = some (.sent rpc) → rpc.account ≠ f.accountId := by
      intro rpc hev hacc
      obtain ⟨deadline, a, hpoint, -, rfl⟩ := h.sent_eq hev
      have hmine : e.holdsLock = true := by rw [Executor.holdsLock, hpoint]
      exact hj (hs.sound.unique_holder hf he hacc.symm hlock hmine)
    rw [sentTimes_toList hother, List.append_nil]
    exact hs.last j f t hf hlock hlast

end Executor

/-- The scheduler of an executor that a command builds is new. -/
theorem scheduler_of_build {id : JobId} {account : AccountId} {target : Telegram.GroupContext}
    {interval : ℕ} {j : JobId} {e : Executor} (hnone : s.executors j = none)
    (he : (s.build id account target interval).executors j = some e) :
    e.scheduler.Paced ∧ e.scheduler.lastAttempt = none := by
  rw [build] at he
  split at he
  · rw [hnone] at he
    exact absurd he (by simp)
  · rename_i scheduler hnew
    obtain ⟨hpaced, hlast⟩ := InviteScheduler.new_eq_some hnew
    simp only at he
    by_cases hj : j = id
    · rw [hj, Function.update_self, Option.some.injEq] at he
      subst he
      simp only [newExecutor, accountScheduler]
      split
      · exact ⟨hpaced.applyServerWait _ _, hlast⟩
      · exact ⟨hpaced, hlast⟩
    · rw [Function.update_of_ne hj, hnone] at he
      exact absurd he (by simp)

theorem startMigration_cases (s : App) (id : JobId) (account : AccountId) (interval : ℕ) :
    s.startMigration id account interval = s ∨
      ∃ target, s.startMigration id account interval = s.build id account target interval := by
  rw [startMigration]
  split
  · exact Or.inl rfl
  · split_ifs
    · split
      · exact Or.inr ⟨_, rfl⟩
      · exact Or.inl rfl
    · exact Or.inl rfl

theorem resumeMigration_cases (s : App) (id : JobId) (interval : ℕ) :
    s.resumeMigration id interval = s ∨
      ∃ account target, s.resumeMigration id interval = s.build id account target interval := by
  rw [resumeMigration]
  split
  · exact Or.inl rfl
  · split
    · exact Or.inl rfl
    · split_ifs
      · split
        · exact Or.inr ⟨_, _, rfl⟩
        · exact Or.inl rfl
      · exact Or.inl rfl

/-- An executor that a step adds has a new scheduler. -/
theorem scheduler_of_built (h : s.step l = some s') {j : JobId} {e : Executor}
    (hnone : s.executors j = none) (he : s'.executors j = some e) :
    e.scheduler.Paced ∧ e.scheduler.lastAttempt = none := by
  have hsame : s'.executors j ≠ s.executors j := by
    rw [hnone, he]
    exact Option.some_ne_none e
  cases step_cases h with
  | crash => exact absurd he (by simp)
  | built hl hadm =>
      obtain ⟨interval, rfl | rfl⟩ := hl
      · rw [step, if_neg (not_not.mpr hadm.recovering)] at h
        rw [← Option.some.inj h] at he hsame
        rcases startMigration_cases s _ _ interval with heq | ⟨target, heq⟩
        · exact absurd (by rw [heq]) hsame
        · exact scheduler_of_build hnone (heq ▸ he)
      · rw [step, if_neg (not_not.mpr hadm.recovering)] at h
        rw [← Option.some.inj h] at he hsame
        rcases resumeMigration_cases s _ interval with heq | ⟨account, target, heq⟩
        · exact absurd (by rw [heq]) hsame
        · exact scheduler_of_build hnone (heq ▸ he)
  | @executor _ job f m fails out hrec hjob hf hm hout =>
      have hj : j ≠ job := by
        rintro rfl
        rw [hnone] at hf
        exact absurd hf (by simp)
      exact absurd (executors_applyOutcome_of_ne hj) hsame
  | _ => exact absurd rfl hsame

/-- A step that moves an executor on, when it is possible, is one of `Executor.step`. -/
theorem advance_of_step {job : JobId} (h : s.step (.advance job) = some s') :
    ∃ e out, s.executors job = some e ∧ e.step (s.env e.accountId) .advance = some out ∧
      s' = s.applyOutcome job e out none := by
  simp only [step] at h
  split_ifs at h with hrec
  simp only [stepExecutor, jobOf, moveOf, Option.bind_some] at h
  obtain ⟨e, he, h⟩ := Option.bind_eq_some_iff.mp h
  obtain ⟨out, hout, rfl⟩ := Option.map_eq_some_iff.mp h
  exact ⟨e, out, he, hout, rfl⟩

theorem executors_withExecutor {id j : JobId} {e f : Executor}
    (hf : (s.withExecutor id e).executors j = some f) :
    j = id ∧ f = e ∨ s.executors j = some f := by
  simp only [withExecutor] at hf
  by_cases hj : j = id
  · rw [hj, Function.update_self, Option.some.injEq] at hf
    exact Or.inl ⟨hj, hf.symm⟩
  · rw [Function.update_of_ne hj] at hf
    exact Or.inr hf

/-- **One step** that sends no first RPC too early keeps the RPCs apart. -/
theorem KeepsApart.step (hs : s.KeepsApart) (hcond : s.FirstApart l) (hstep : s.step l = some s') :
    s'.KeepsApart := by
  have hcases := step_cases hstep
  have hsound := hs.sound.step hcases
  cases hcases with
  | crash =>
      exact ⟨hsound, hs.apart, fun j e he => absurd he (by simp),
        fun j e t he => absurd he (by simp)⟩
  | @executor _ job e m fails out hrec hjob he hm hout =>
      have htr := Executor.transition_of_step hout
      refine ⟨hsound, apart_applyOutcome hs he htr fun rpc hev hnone => ?_,
        update_executor hs.cadence fun e' he' => htr.onCadence (hs.cadence job e he) e' he',
        fun j f t hf hlock hlast => last_applyOutcome hs he htr hf hlock hlast⟩
      obtain ⟨deadline, a, hpoint, hnow, -⟩ := htr.sent_eq hev
      obtain ⟨rfl, hc⟩ := htr.sent_polled hev
      exact hcond job e deadline a (label_of_advance hm hjob) he hpoint hnow hc hnone
  | @built _ id row account target scheduler hl hadm =>
      have hlog : ∀ acc, sentTimes (s.withExecutor id
          (s.newExecutor id account target scheduler)).log acc = sentTimes s.log acc := by
        intro acc
        simp only [withExecutor, sentTimes_append]
        exact List.append_nil _
      have hself : (s.withExecutor id (s.newExecutor id account target scheduler)).executors id =
          some (s.newExecutor id account target scheduler) := Function.update_self ..
      obtain ⟨hpaced, hunsent⟩ := scheduler_of_built hstep hadm.idle hself
      refine ⟨hsound, fun acc => ?_, fun j f hf => ?_, fun j f t hf hlock hlast => ?_⟩
      · rw [Apart, hlog]
        exact hs.apart acc
      · rcases executors_withExecutor hf with ⟨-, rfl⟩ | hold
        · exact ⟨hpaced, fun _ => hunsent,
            fun deadline a t hpoint => absurd hpoint (by simp [newExecutor])⟩
        · exact hs.cadence j f hold
      · rcases executors_withExecutor hf with ⟨-, rfl⟩ | hold
        · exact absurd hlock (by simp [newExecutor, Executor.holdsLock])
        · rw [hlog]
          exact hs.last j f t hold hlock hlast
  | _ => exact ⟨hsound, hs.apart, hs.cadence, hs.last⟩

theorem keepsApart_start (db : Database) (now : ℕ) : (App.start db now).KeepsApart where
  sound := sound_start db now
  apart := fun account => List.isChain_nil
  cadence := fun j e h => absurd h (by simp [App.start])
  last := fun j e t h => absurd h (by simp [App.start])

/-! ## The exact condition -/

/-- A step that sends a first RPC too early leaves two RPCs of the account too close. -/
theorem not_apart_of_step (h : s.step l = some s') (hnot : ¬ s.FirstApart l) :
    ∃ account, ¬ Apart s'.log account := by
  simp only [FirstApart, not_forall] at hnot
  obtain ⟨job, e, deadline, a, rfl, he, hpoint, hnow, hc, -, t, ht, hearly⟩ := hnot
  obtain ⟨f, out, hf, hout, rfl⟩ := advance_of_step h
  obtain rfl : e = f := Option.some.inj (he.symm.trans hf)
  refine ⟨e.accountId, fun hapart => hearly ?_⟩
  have hsent : ∃ rpc, out.event = some (.sent rpc) ∧ rpc.account = e.accountId ∧
      rpc.sentAt = s.now := by
    have htr := Executor.transition_of_step hout
    cases htr with
    | send hset hpoint' hc' hnow' => exact ⟨_, rfl, rfl, rfl⟩
    | interrupt hset hpoint' c hc' => exact absurd (hc.symm.trans hc') (by simp)
    | _ => exact absurd (hpoint.symm.trans ‹e.point = _›) (by simp)
  obtain ⟨rpc, hev, hacc, hat⟩ := hsent
  have hlog : (s.applyOutcome job e out none).log = s.log ++ [.sent rpc] := by
    simp only [applyOutcome, hev, Option.toList_some]
  rw [hlog, apart_append hacc, hat] at hapart
  exact hapart.2 t ht

/-- A step adds to the log. -/
theorem log_step (h : s.step l = some s') : ∃ later, s'.log = s.log ++ later := by
  cases step_cases h with
  | built hl hadm => exact ⟨_, rfl⟩
  | executor hrec hjob he hm hout => exact ⟨_, rfl⟩
  | _ => exact ⟨[], (List.append_nil _).symm⟩

theorem log_of_run {ls : List Label} (h : runLabels App.step s ls = some s') :
    ∃ later, s'.log = s.log ++ later := by
  induction ls generalizing s with
  | nil =>
      obtain rfl := Option.some.inj h
      exact ⟨[], (List.append_nil _).symm⟩
  | cons l ls ih =>
      obtain ⟨t, ht, hrest⟩ := runLabels_cons_eq_some.mp h
      obtain ⟨first, hfirst⟩ := log_step ht
      obtain ⟨later, hlater⟩ := ih hrest
      exact ⟨first ++ later, by rw [hlater, hfirst, List.append_assoc]⟩

/-- **The RPCs of every account are apart** at the end of a run exactly when each step of the run
that sends the first RPC of an executor does so the minimal interval after the last RPC of the
account. -/
theorem rpcs_apart_iff (db : Database) (now : ℕ) (ls : List Label) (s : App)
    (hrun : runLabels App.step (App.start db now) ls = some s) :
    (∀ account, Apart s.log account) ↔ Along App.step App.FirstApart (App.start db now) ls := by
  constructor
  · intro hapart
    by_contra hnot
    obtain ⟨pre, l, post, t, t', rfl, hpre, -, hfail, hstep⟩ := exists_first_failure hrun hnot
    obtain ⟨account, hclose⟩ := not_apart_of_step hstep hfail
    obtain ⟨u, hu, hrest⟩ := runLabels_append_eq_some.mp hrun
    obtain rfl := Option.some.inj (hpre.symm.trans hu)
    obtain ⟨v, hv, hpost⟩ := runLabels_cons_eq_some.mp hrest
    obtain rfl := Option.some.inj (hstep.symm.trans hv)
    obtain ⟨later, hlater⟩ := log_of_run hpost
    have hlast := hapart account
    rw [hlater] at hlast
    exact hclose hlast.of_append
  · intro hcond
    exact (invariant_runLabels (I := KeepsApart) (fun _ _ _ hI hC hstep => hI.step hC hstep)
      (keepsApart_start db now) hcond hrun).apart

/-! ## A pause of no length, and a run of two candidates -/

/-- The second candidate of the small program is invited at `t`. -/
def secondInvitation (t : ℕ) : Rpc where
  job := 0
  account := 1
  action := .invite
  target := ⟨500, some 600, .channel, 1⟩
  ordinal := 1
  member := ⟨some 2, some 102⟩
  sentAt := t

/-- A run that is paused and resumed one second after its first RPC sends the second one at once. -/
theorem resumed_at_once :
    ∃ s, runLabels App.step (App.start (smallDatabase [persist 1 1 [1, 2] .invite]) 0)
        ([.start 0 1 (3 * second)] ++ enterLoop 0 ++ sendRpc 0 ++ keepResult 0 ++ [.tick second] ++
          pauseWithResults 0 ++ [.resume 0 (3 * second)] ++ enterLoop 0 ++ sendRpc 0) = some s ∧
      sentTimes s.log 1 = [0, second] ∧ ¬ Apart s.log 1 := by
  have h : ((runLabels App.step (App.start (smallDatabase [persist 1 1 [1, 2] .invite]) 0)
      ([.start 0 1 (3 * second)] ++ enterLoop 0 ++ sendRpc 0 ++ keepResult 0 ++ [.tick second] ++
        pauseWithResults 0 ++ [.resume 0 (3 * second)] ++ enterLoop 0 ++ sendRpc 0)).map
          fun s => sentTimes s.log 1) = some [0, second] := by
    decide +kernel
  obtain ⟨s, hs, hsent⟩ := Option.map_eq_some_iff.mp h
  refine ⟨s, hs, hsent, ?_⟩
  rw [Apart, hsent, List.isChain_pair]
  decide

/-- A run of two candidates keeps its own cadence. -/
theorem rpcs_apart_one_run :
    ∃ s, runLabels App.step (App.start (smallDatabase [persist 1 1 [1, 2] .invite]) 0)
        ([.start 0 1 (3 * second)] ++ enterLoop 0 ++ sendRpc 0 ++ keepResult 0 ++
          [.advance 0, .advance 0, .advance 0, .tick (3 * second), .advance 0]) = some s ∧
      sentTimes s.log 1 = [0, 3 * second] ∧
      Along App.step App.FirstApart (App.start (smallDatabase [persist 1 1 [1, 2] .invite]) 0)
        ([.start 0 1 (3 * second)] ++ enterLoop 0 ++ sendRpc 0 ++ keepResult 0 ++
          [.advance 0, .advance 0, .advance 0, .tick (3 * second), .advance 0]) := by
  have h : ((runLabels App.step (App.start (smallDatabase [persist 1 1 [1, 2] .invite]) 0)
      ([.start 0 1 (3 * second)] ++ enterLoop 0 ++ sendRpc 0 ++ keepResult 0 ++
        [.advance 0, .advance 0, .advance 0, .tick (3 * second), .advance 0])).map App.log) =
      some [.built 0 .invite, .sent firstInvitation,
        .produced 0 { ordinal := 0, state := .success, attempts := 1 },
        .sent (secondInvitation (3 * second))] := by
    decide +kernel
  obtain ⟨s, hs, hlog⟩ := Option.map_eq_some_iff.mp h
  have hone : sentTimes s.log 1 = [0, 3 * second] := by
    rw [hlog]
    rfl
  refine ⟨s, hs, hone, (rpcs_apart_iff _ 0 _ s hs).mp fun account => ?_⟩
  by_cases hacc : account = 1
  · subst hacc
    rw [Apart, hone, List.isChain_pair]
    decide
  · have hnone : sentTimes s.log account = [] := by
      have hne : (1 : ℕ) ≠ account := fun heq => hacc heq.symm
      rw [hlog]
      simp [sentTimes, firstInvitation, secondInvitation, hne]
    rw [Apart, hnone]
    exact List.isChain_nil

end App
end Runtime
end MigrationStudio
