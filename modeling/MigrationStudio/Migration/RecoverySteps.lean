import MigrationStudio.Foundations.LabelledRuns
import MigrationStudio.Migration.Scheduler

/-!
# The recovery steps of `InviteScheduler`

`apply_server_wait` writes down three intervals, ten seconds, eight seconds and the target of that
moment, and every `mark_stable_candidate` behind the wait makes the first of them the interval of
the scheduler.  The list is not looked at again when the target changes, and its second entry does
not depend on the target at all.

* `SchedulerCall`, `InviteScheduler.call`: the calls that change a scheduler, in any order and at
  any reading of its clock.
* `Recovery`: what the interval and the list of steps can be at the same time.
* `interval_within_iff`: the interval stays between the target and ten seconds as long as the
  target is at most eight seconds or the second step is never taken.
* `interval_eq_target_iff`: outside a recovery the interval is the last target requested as long
  as no recovery ends with another target than it began with.
-/

namespace MigrationStudio
namespace Migration

open MigrationStudio.Core Foundations

/-- A call of one of the methods that change a scheduler. -/
inductive SchedulerCall where
  | applyServerWait (now wait : ℕ)
  | markAttempt (now : ℕ)
  | markStableCandidate (now : ℕ)
  | resetTarget (interval : ℕ)
  deriving DecidableEq

namespace SchedulerCall

/-- The calls that leave the target alone. -/
def keepsTarget : SchedulerCall → Bool
  | resetTarget _ => false
  | _ => true

/-- The target requested last, when the scheduler was made with `interval`. -/
def requestedTarget (interval : ℕ) (calls : List SchedulerCall) : ℕ :=
  calls.foldl
    (fun target c =>
      match c with
      | resetTarget t => t
      | _ => target) interval

/-- The target requested last when the last wait was applied. -/
def waitTarget (interval : ℕ) (calls : List SchedulerCall) : ℕ :=
  (calls.foldl
    (fun targets c =>
      match c with
      | resetTarget t => (t, targets.2)
      | applyServerWait _ _ => (targets.1, targets.1)
      | _ => targets) (interval, interval)).2

variable {interval : ℕ} {calls : List SchedulerCall} {c : SchedulerCall}

theorem requestedTarget_concat :
    requestedTarget interval (calls ++ [c]) =
      match c with
      | resetTarget t => t
      | _ => requestedTarget interval calls := by
  rw [requestedTarget, List.foldl_append]
  rfl

/-- The first target of the pair in `waitTarget` is the one requested last. -/
theorem fst_foldl_targets :
    (calls.foldl
      (fun (targets : ℕ × ℕ) c =>
        match c with
        | resetTarget t => (t, targets.2)
        | applyServerWait _ _ => (targets.1, targets.1)
        | _ => targets) (interval, interval)).1 = requestedTarget interval calls := by
  induction calls using List.reverseRecOn with
  | nil => rfl
  | append_singleton calls c ih =>
      rw [List.foldl_append, requestedTarget_concat]
      cases c with
      | resetTarget t => rfl
      | applyServerWait now wait => exact ih
      | markAttempt now => exact ih
      | markStableCandidate now => exact ih

theorem waitTarget_concat :
    waitTarget interval (calls ++ [c]) =
      match c with
      | applyServerWait _ _ => requestedTarget interval calls
      | _ => waitTarget interval calls := by
  rw [waitTarget, List.foldl_append]
  cases c with
  | applyServerWait now wait => exact fst_foldl_targets
  | resetTarget t => rfl
  | markAttempt now => rfl
  | markStableCandidate now => rfl

theorem requestedTarget_of_keepsTarget (h : ∀ c ∈ calls, c.keepsTarget = true) :
    requestedTarget interval calls = interval := by
  induction calls using List.reverseRecOn with
  | nil => rfl
  | append_singleton calls c ih =>
      have hc := h c (by simp)
      rw [requestedTarget_concat]
      cases c with
      | resetTarget t => exact absurd hc (by simp [keepsTarget])
      | _ => exact ih fun d hd => h d (List.mem_append_left _ hd)

theorem waitTarget_of_keepsTarget (h : ∀ c ∈ calls, c.keepsTarget = true) :
    waitTarget interval calls = interval := by
  induction calls using List.reverseRecOn with
  | nil => rfl
  | append_singleton calls c ih =>
      have hcalls : ∀ d ∈ calls, d.keepsTarget = true := fun d hd => h d (List.mem_append_left _ hd)
      rw [waitTarget_concat]
      cases c with
      | applyServerWait now wait => exact requestedTarget_of_keepsTarget hcalls
      | _ => exact ih hcalls

end SchedulerCall

namespace InviteScheduler

open SchedulerCall

/-- One call; `none` when it raises. -/
def call (s : InviteScheduler) : SchedulerCall → Option InviteScheduler
  | .applyServerWait now wait => some (s.applyServerWait now wait)
  | .markAttempt now => some (s.markAttempt now)
  | .markStableCandidate now => some (s.markStableCandidate now)
  | .resetTarget interval => s.resetTarget interval

/-! ## What the interval and the steps can be -/

/-- **The stages of a recovery** to the target `t`: no step is left, all three are, or the steps
that are left stand behind the interval of the last one taken. -/
inductive Recovery (t : ℕ) : ℕ → List ℕ → Prop
  | settled (interval : ℕ) : Recovery t interval []
  | waited (interval : ℕ) : Recovery t interval [RECOVERY_INVITE_INTERVAL, 8 * second, t]
  | slow : Recovery t RECOVERY_INVITE_INTERVAL [8 * second, t]
  | easing : Recovery t (8 * second) [t]

/-- A stable candidate that takes a step. -/
theorem markStableCandidate_of_over {s : InviteScheduler} {now : ℕ}
    (h : s.serverWaitRemaining now = 0) :
    s.markStableCandidate now =
      match s.recoverySteps with
      | [] => s
      | step :: steps => { s with interval := step, recoverySteps := steps } := by
  unfold markStableCandidate
  exact if_neg (by omega)

/-- One that takes none: the wait is not over, or no step is left. -/
theorem markStableCandidate_of_not {s : InviteScheduler} {now : ℕ}
    (h : s.serverWaitRemaining now = 0 → s.recoverySteps = []) :
    s.markStableCandidate now = s := by
  by_cases hover : s.serverWaitRemaining now = 0
  · rw [markStableCandidate_of_over hover, h hover]
  · rw [markStableCandidate, if_pos (Nat.pos_of_ne_zero hover)]

@[simp] theorem targetInterval_markStableCandidate (s : InviteScheduler) (now : ℕ) :
    (s.markStableCandidate now).targetInterval = s.targetInterval := by
  rw [markStableCandidate]
  split
  · rfl
  · split
    · rfl
    · rfl

/-- **One stable candidate** changes nothing, or it takes the first, the second or the last step
when the wait is over. -/
theorem Recovery.markStableCandidate_cases {t : ℕ} {s : InviteScheduler}
    (h : Recovery t s.interval s.recoverySteps) (now : ℕ) :
    ((s.serverWaitRemaining now = 0 → s.recoverySteps = []) ∧ s.markStableCandidate now = s) ∨
      s.serverWaitRemaining now = 0 ∧
        ((s.recoverySteps.length = 3 ∧ s.markStableCandidate now =
            { s with interval := RECOVERY_INVITE_INTERVAL, recoverySteps := [8 * second, t] }) ∨
          (s.recoverySteps.length = 2 ∧
            s.markStableCandidate now = { s with interval := 8 * second, recoverySteps := [t] }) ∨
          (s.recoverySteps.length = 1 ∧
            s.markStableCandidate now = { s with interval := t, recoverySteps := [] })) := by
  by_cases hover : s.serverWaitRemaining now = 0
  · rw [markStableCandidate_of_over hover]
    generalize s.interval = i at h
    generalize s.recoverySteps = steps at h
    cases h with
    | settled => exact Or.inl ⟨fun _ => rfl, rfl⟩
    | waited => exact Or.inr ⟨hover, Or.inl ⟨rfl, rfl⟩⟩
    | slow => exact Or.inr ⟨hover, Or.inr (Or.inl ⟨rfl, rfl⟩)⟩
    | easing => exact Or.inr ⟨hover, Or.inr (Or.inr ⟨rfl, rfl⟩)⟩
  · have hnot : s.serverWaitRemaining now = 0 → s.recoverySteps = [] := fun h => absurd h hover
    exact Or.inl ⟨hnot, markStableCandidate_of_not hnot⟩

theorem Recovery.markStableCandidate {t : ℕ} {s : InviteScheduler}
    (h : Recovery t s.interval s.recoverySteps) (now : ℕ) :
    Recovery t (s.markStableCandidate now).interval (s.markStableCandidate now).recoverySteps := by
  rcases h.markStableCandidate_cases now with
    ⟨-, heq⟩ | ⟨-, ⟨-, heq⟩ | ⟨-, heq⟩ | ⟨-, heq⟩⟩
  · rw [heq]
    exact h
  · rw [heq]
    exact .slow
  · rw [heq]
    exact .easing
  · rw [heq]
    exact .settled t

theorem resetTarget_eq_some {s s' : InviteScheduler} {t : ℕ} (h : s.resetTarget t = some s') :
    s'.targetInterval = t ∧ s'.recoverySteps = s.recoverySteps ∧
      s'.interval = if s.recoverySteps = [] then t else s.interval := by
  by_cases hallowed : MIN_INVITE_INTERVAL ≤ t ∧ t ≤ MAX_INVITE_INTERVAL
  · rw [resetTarget, if_pos hallowed] at h
    obtain rfl := Option.some.inj h
    exact ⟨rfl, rfl, rfl⟩
  · rw [resetTarget, if_neg hallowed] at h
    exact absurd h (by simp)

/-- What a scheduler is after a list of calls. -/
structure Traced (interval : ℕ) (calls : List SchedulerCall) (s : InviteScheduler) : Prop where
  target : s.targetInterval = requestedTarget interval calls
  recovery : Recovery (waitTarget interval calls) s.interval s.recoverySteps

theorem Traced.call {interval : ℕ} {calls : List SchedulerCall} {c : SchedulerCall}
    {s s' : InviteScheduler} (hs : Traced interval calls s) (h : s.call c = some s') :
    Traced interval (calls ++ [c]) s' := by
  cases c with
  | applyServerWait now wait =>
      obtain rfl := Option.some.inj h
      refine ⟨?_, ?_⟩
      · rw [requestedTarget_concat]
        exact hs.target
      · rw [waitTarget_concat]
        show Recovery _ s.interval [RECOVERY_INVITE_INTERVAL, 8 * second, s.targetInterval]
        rw [hs.target]
        exact .waited _
  | markAttempt now =>
      obtain rfl := Option.some.inj h
      refine ⟨?_, ?_⟩
      · rw [requestedTarget_concat]
        exact hs.target
      · rw [waitTarget_concat]
        exact hs.recovery
  | markStableCandidate now =>
      obtain rfl := Option.some.inj h
      refine ⟨?_, ?_⟩
      · rw [requestedTarget_concat, targetInterval_markStableCandidate]
        exact hs.target
      · rw [waitTarget_concat]
        exact hs.recovery.markStableCandidate now
  | resetTarget t =>
      obtain ⟨htarget, hsteps, hinterval⟩ := resetTarget_eq_some h
      refine ⟨?_, ?_⟩
      · rw [requestedTarget_concat]
        exact htarget
      · rw [waitTarget_concat, hinterval, hsteps]
        split_ifs with hempty
        · rw [hempty]
          exact .settled t
        · exact hs.recovery

variable {interval : ℕ} {s₀ s s' : InviteScheduler} {calls : List SchedulerCall}

theorem new_fields (h : new interval = some s₀) :
    s₀ = ⟨interval, interval, none, 0, []⟩ ∧ interval ≤ MAX_INVITE_INTERVAL := by
  rw [new] at h
  split_ifs at h with hallowed
  exact ⟨(Option.some.inj h).symm, hallowed.2⟩

theorem traced_new (h : new interval = some s₀) : Traced interval [] s₀ := by
  obtain ⟨rfl, -⟩ := new_fields h
  exact ⟨rfl, .settled interval⟩

/-- **After any calls** the scheduler is at a stage of a recovery to the target of the last wait. -/
theorem traced_of_run (h : new interval = some s₀) (hrun : runLabels call s₀ calls = some s) :
    Traced interval calls s :=
  invariant_of_prefix (I := Traced interval) (traced_new h)
    (fun _ _ _ _ _ _ hs hc => hs.call hc) (List.prefix_refl calls) hrun

/-! ## The bounds of the interval -/

/-- A stable candidate behind the wait takes the second step: one of its kind has come before. -/
def TakesSecondStep (s₀ : InviteScheduler) (calls : List SchedulerCall) : Prop :=
  ∃ pre now s, pre ++ [.markStableCandidate now] <+: calls ∧ runLabels call s₀ pre = some s ∧
    s.serverWaitRemaining now = 0 ∧ s.recoverySteps.length = 2

/-- What the interval can be while the target is left alone. -/
def Within (interval : ℕ) (s : InviteScheduler) : Prop :=
  interval ≤ s.interval ∧ s.interval ≤ max interval RECOVERY_INVITE_INTERVAL

/-- **One call** that is not the second step below the target keeps the interval within. -/
theorem Within.call {c : SchedulerCall} (hs : Within interval s)
    (hrecovery : Recovery interval s.interval s.recoverySteps)
    (hmax : interval ≤ MAX_INVITE_INTERVAL) (hc : c.keepsTarget = true)
    (hstep : 8 * second < interval → ∀ now, c = .markStableCandidate now →
      s.serverWaitRemaining now = 0 → s.recoverySteps.length ≠ 2)
    (h : s.call c = some s') : Within interval s' := by
  cases c with
  | applyServerWait now wait =>
      obtain rfl := Option.some.inj h
      exact hs
  | markAttempt now =>
      obtain rfl := Option.some.inj h
      exact hs
  | resetTarget t => exact absurd hc (by simp [keepsTarget])
  | markStableCandidate now =>
      obtain rfl := Option.some.inj h
      rcases hrecovery.markStableCandidate_cases now with
        ⟨-, heq⟩ | ⟨hover, ⟨-, heq⟩ | ⟨hlength, heq⟩ | ⟨-, heq⟩⟩
      · rw [heq]
        exact hs
      · rw [heq]
        exact ⟨hmax, le_max_right _ _⟩
      · -- the step of eight seconds
        have hlow : interval ≤ 8 * second := not_lt.mp fun hlow => hstep hlow now rfl hover hlength
        rw [heq]
        exact ⟨hlow, (by decide : 8 * second ≤ RECOVERY_INVITE_INTERVAL).trans (le_max_right _ _)⟩
      · rw [heq]
        exact ⟨le_rfl, le_max_left _ _⟩

/-- **The interval stays between the target and ten seconds** exactly when the target is at most
eight seconds or no stable candidate takes the second step of a recovery. -/
theorem interval_within_iff (interval : ℕ) (calls : List SchedulerCall)
    (hnew : new interval = some s₀)
    (hcalls : ∀ c ∈ calls, c.keepsTarget = true) (hrun : runLabels call s₀ calls = some s') :
    (∀ pre s, pre <+: calls → runLabels call s₀ pre = some s →
      interval ≤ s.interval ∧ s.interval ≤ max interval RECOVERY_INVITE_INTERVAL) ↔
      interval ≤ 8 * second ∨ ¬ TakesSecondStep s₀ calls := by
  have hkeeps : ∀ pre, pre <+: calls → ∀ c ∈ pre, c.keepsTarget = true :=
    fun pre hpre c hc => hcalls c (hpre.subset hc)
  have hrecovery : ∀ pre s, pre <+: calls → runLabels call s₀ pre = some s →
      Recovery interval s.interval s.recoverySteps := by
    intro pre s hpre hs
    have htraced := (traced_of_run hnew hs).recovery
    rwa [waitTarget_of_keepsTarget (hkeeps pre hpre)] at htraced
  constructor
  · rintro hall
    refine or_iff_not_imp_left.mpr fun hhigh => ?_
    rintro ⟨pre, now, s, hpre, hs, hover, hlength⟩
    have hstep := hall _ _ hpre (runLabels_concat_eq_some.mpr ⟨s, hs, rfl⟩)
    have hslow := hrecovery pre s ((List.prefix_append pre _).trans hpre) hs
    rcases hslow.markStableCandidate_cases now with
      ⟨hnone, -⟩ | ⟨-, ⟨hthree, -⟩ | ⟨-, heq⟩ | ⟨hone, -⟩⟩
    · rw [hnone hover] at hlength
      exact absurd hlength (by simp)
    · omega
    · rw [heq] at hstep
      exact hhigh hstep.1
    · omega
  · rintro hcond pre s hpre hs
    obtain ⟨rfl, hmax⟩ := new_fields hnew
    refine invariant_of_prefix (I := fun _ s => Within interval s)
      ⟨le_rfl, le_max_left _ _⟩ (fun before c t t' hbefore ht hwithin hc => ?_) hpre hs
    have hc' : c.keepsTarget = true := hkeeps _ hbefore c (by simp)
    refine hwithin.call (hrecovery before t ((List.prefix_append before _).trans hbefore) ht)
      hmax hc' (fun hlow now heq hover hlength => ?_) hc
    rcases hcond with hle | hnone
    · exact absurd hle (not_le.mpr hlow)
    · exact hnone ⟨before, now, t, heq ▸ hbefore, ht, hover, hlength⟩

/-- A wait of seven seconds, then two stable candidates. -/
def twoStable : List SchedulerCall :=
  [.applyServerWait 0 (7 * second), .markAttempt (7 * second),
    .markStableCandidate (7 * second), .markAttempt (17 * second),
    .markStableCandidate (17 * second)]

/-- With a target of nine seconds the second stable candidate speeds the cadence up to eight. -/
theorem interval_below_target :
    ∃ s₀ s, new (9 * second) = some s₀ ∧ runLabels call s₀ twoStable = some s ∧
      (∀ c ∈ twoStable, c.keepsTarget = true) ∧ s.interval < 9 * second :=
  ⟨_, _, rfl, rfl, by decide, by decide⟩

theorem interval_within_three :
    ∃ s, runLabels call ⟨3 * second, 3 * second, none, 0, []⟩ twoStable = some s ∧
      3 * second ≤ s.interval ∧ s.interval ≤ max (3 * second) RECOVERY_INVITE_INTERVAL :=
  ⟨_, rfl, (interval_within_iff (3 * second) twoStable rfl (by decide) rfl).mpr
    (Or.inl (by decide)) _ _ (List.prefix_refl _) rfl⟩

/-! ## The target outside a recovery -/

/-- The recoveries that the calls end are to the target requested last. -/
def EndsAtTarget (interval : ℕ) (s₀ : InviteScheduler) (calls : List SchedulerCall) : Prop :=
  ∀ pre now s, pre ++ [.markStableCandidate now] <+: calls → runLabels call s₀ pre = some s →
    s.serverWaitRemaining now = 0 → s.recoverySteps.length = 1 →
      waitTarget interval pre = requestedTarget interval pre

/-- **One call** keeps the target outside a recovery. -/
theorem Traced.settled (hs : Traced interval calls s) {c : SchedulerCall}
    (hsettled : s.recoverySteps = [] → s.interval = s.targetInterval)
    (hends : ∀ now, c = .markStableCandidate now → s.serverWaitRemaining now = 0 →
      s.recoverySteps.length = 1 → waitTarget interval calls = requestedTarget interval calls)
    (h : s.call c = some s') : s'.recoverySteps = [] → s'.interval = s'.targetInterval := by
  cases c with
  | applyServerWait now wait =>
      obtain rfl := Option.some.inj h
      exact fun hempty => absurd hempty (by simp [applyServerWait])
  | markAttempt now =>
      obtain rfl := Option.some.inj h
      exact hsettled
  | resetTarget t =>
      obtain ⟨htarget, hsteps, hinterval⟩ := resetTarget_eq_some h
      intro hempty
      rw [hinterval, htarget, if_pos (hsteps ▸ hempty)]
  | markStableCandidate now =>
      obtain rfl := Option.some.inj h
      rcases hs.recovery.markStableCandidate_cases now with
        ⟨-, heq⟩ | ⟨hover, ⟨-, heq⟩ | ⟨-, heq⟩ | ⟨hlength, heq⟩⟩
      · rw [heq]
        exact hsettled
      · rw [heq]
        exact fun hempty => absurd hempty (by simp)
      · rw [heq]
        exact fun hempty => absurd hempty (by simp)
      · rw [heq]
        intro _
        show waitTarget interval calls = s.targetInterval
        rw [hs.target]
        exact hends now rfl hover hlength

/-- **Outside a recovery the interval is the last target requested** exactly when every recovery
that the calls end is to that target: it was not changed since the wait, or it was set back. -/
theorem interval_eq_target_iff (interval : ℕ) (calls : List SchedulerCall)
    (hnew : new interval = some s₀)
    (hrun : runLabels call s₀ calls = some s') :
    (∀ pre s, pre <+: calls → runLabels call s₀ pre = some s → s.recoverySteps = [] →
      s.interval = s.targetInterval ∧ s.targetInterval = requestedTarget interval pre) ↔
      EndsAtTarget interval s₀ calls := by
  constructor
  · rintro hall pre now s hpre hs hover hlength
    have htraced := traced_of_run hnew hs
    rcases htraced.recovery.markStableCandidate_cases now with
      ⟨hnone, -⟩ | ⟨-, ⟨hthree, -⟩ | ⟨htwo, -⟩ | ⟨-, heq⟩⟩
    · rw [hnone hover] at hlength
      exact absurd hlength (by simp)
    · omega
    · omega
    · have hafter := hall _ _ hpre (runLabels_concat_eq_some.mpr ⟨s, hs, rfl⟩)
      rw [heq] at hafter
      obtain ⟨hinterval, -⟩ := hafter rfl
      rw [← htraced.target]
      exact hinterval
  · rintro hends pre s hpre hs
    have hsettled : s.recoverySteps = [] → s.interval = s.targetInterval := by
      refine invariant_of_prefix
        (I := fun _ s => s.recoverySteps = [] → s.interval = s.targetInterval) ?_
        (fun before c t t' hbefore ht hold hc => ?_) hpre hs
      · obtain ⟨rfl, -⟩ := new_fields hnew
        exact fun _ => rfl
      · exact (traced_of_run hnew ht).settled hold (fun now heq hover hlength =>
          hends before now t (heq ▸ hbefore) ht hover hlength) hc
    exact fun hempty => ⟨hsettled hempty, (traced_of_run hnew hs).target⟩

/-- A recovery from a wait of seven seconds, during which the target becomes five seconds. -/
def slowedDown : List SchedulerCall :=
  [.applyServerWait 0 (7 * second), .resetTarget (5 * second),
    .markStableCandidate (7 * second), .markStableCandidate (17 * second),
    .markStableCandidate (25 * second)]

/-- The recovery ends with the three seconds of its beginning. -/
theorem reset_during_recovery_lost :
    ∃ s₀ s, new (3 * second) = some s₀ ∧ runLabels call s₀ slowedDown = some s ∧
      s.recoverySteps = [] ∧ s.targetInterval = 5 * second ∧ s.interval = 3 * second :=
  ⟨_, _, rfl, rfl, rfl, rfl, rfl⟩

/-- A recovery to a target that is set before the wait; a change during the recovery is taken
back. -/
def takenBack : List SchedulerCall :=
  [.resetTarget (5 * second), .applyServerWait 0 (7 * second), .markStableCandidate (7 * second),
    .resetTarget (4 * second), .resetTarget (5 * second), .markStableCandidate (17 * second),
    .markStableCandidate (25 * second)]

/-- It ends with the five seconds of its beginning, which are requested again by then. -/
theorem interval_eq_target_reset_first :
    ∃ s, runLabels call ⟨3 * second, 3 * second, none, 0, []⟩ takenBack = some s ∧
      s.recoverySteps = [] ∧ s.interval = s.targetInterval ∧ s.targetInterval = 5 * second := by
  have hends : ∀ n < takenBack.length, ∀ s ∈ runLabels call ⟨3 * second, 3 * second, none, 0, []⟩
      (takenBack.take n), s.recoverySteps.length = 1 →
        waitTarget (3 * second) (takenBack.take n) =
          requestedTarget (3 * second) (takenBack.take n) := by
    decide
  have hrun : runLabels call ⟨3 * second, 3 * second, none, 0, []⟩ takenBack = some _ := rfl
  refine ⟨_, hrun, rfl, ((interval_eq_target_iff (3 * second) _ rfl hrun).mpr ?_ _ _
    (List.prefix_refl _) hrun rfl).1, rfl⟩
  rintro pre now s hpre hs - hone
  have htake : pre = takenBack.take pre.length :=
    List.prefix_iff_eq_take.mp ((List.prefix_append pre _).trans hpre)
  have hlength : pre.length < takenBack.length := by
    have := hpre.length_le
    rw [List.length_append] at this
    exact this
  rw [htake] at hs ⊢
  exact hends _ hlength s hs hone

end InviteScheduler
end Migration
end MigrationStudio
