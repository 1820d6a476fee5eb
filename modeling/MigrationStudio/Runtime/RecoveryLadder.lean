import MigrationStudio.Migration.RecoverySteps
import MigrationStudio.Runtime.Cadence

/-!
# The cadence after a FLOOD_WAIT

Behind a FLOOD_WAIT the RPCs of a run are to be ten seconds apart until a candidate is stable, then
eight, then the target.  The scheduler moves along these steps at a stable candidate only, and the
first of them is taken there too: until then it keeps the interval that it had.

* `Exchange`, `WatchedRun`: one run with the RPCs that it starts and their replies.
* `Ladder`: what the times of the starts are to keep behind a FLOOD_WAIT.
* `Exchanged`: what one transition of the executor is for the scheduler.
* `recovery_ladder`: the ladder is kept in every run in which no transient error answers the retry
  of a candidate on an interval below ten seconds.
* `transient_retry_hurries`: such an error, and the next RPC three seconds behind the retry.
-/

namespace MigrationStudio

open Foundations MigrationStudio.Core Accounts Jobs Telegram Storage Migration

namespace Migration

/-- The points of a run that has sent an RPC and of one that sends no more. -/
def Point.Closed : Point → Prop
  | .rpc _ | .returned none | .attempted none | .leave | .failed => True
  | _ => False

end Migration

namespace Runtime

/-! ## RPCs and replies -/

/-- An RPC starts at a reading of the clock, or it is answered. -/
inductive Exchange where
  | start (time : ℕ)
  | reply (error : Option DomainError)
  deriving DecidableEq

namespace Exchange

/-- The reply is a FLOOD_WAIT. -/
def limited (error : Option DomainError) : Bool := error.any fun e => e.code = .rateLimit

/-- The reply is final for the candidate and the run goes on. -/
def stable (error : Option DomainError) : Bool :=
  error.all fun e => !(classify (some e)).state.pending && !(classify (some e)).pauseJob

/-- The time of the last RPC, unless a FLOOD_WAIT has been received since. -/
def lastStart (exchanges : List Exchange) : Option ℕ :=
  exchanges.foldl
    (fun last x =>
      match x with
      | start time => some time
      | reply error => if limited error then none else last) none

/-- The stable candidates since the last FLOOD_WAIT. -/
def stableSince (exchanges : List Exchange) : Option ℕ :=
  exchanges.foldl
    (fun count x =>
      match x with
      | start _ => count
      | reply error =>
          if limited error then some 0
          else if stable error then count.map (· + 1) else count) none

/-- The gap that is due behind a FLOOD_WAIT and some stable candidates. -/
def recoveryGap (target : ℕ) : ℕ → ℕ
  | 0 | 1 => RECOVERY_INVITE_INTERVAL
  | 2 => 8 * second
  | _ => target

/-- **The ladder**: an RPC behind a FLOOD_WAIT and its retry starts the due gap after the one
before. -/
def Ladder (target : ℕ) (exchanges : List Exchange) : Prop :=
  ∀ pre time post, exchanges = pre ++ .start time :: post →
    ∀ t ∈ lastStart pre, ∀ k ∈ stableSince pre, t + recoveryGap target k ≤ time

variable {exchanges : List Exchange} {target time : ℕ} {error : Option DomainError}

-- not by `rfl`: the kernel would compute the seconds in unary
theorem recoveryGap_zero (target : ℕ) : recoveryGap target 0 = RECOVERY_INVITE_INTERVAL := by
  unfold recoveryGap
  split
  · rfl
  · rfl
  · omega
  · rename_i hne _ _
    exact absurd rfl hne

theorem recoveryGap_one (target : ℕ) : recoveryGap target 1 = RECOVERY_INVITE_INTERVAL := by
  unfold recoveryGap
  split
  · rfl
  · rfl
  · omega
  · rename_i hne _
    exact absurd rfl hne

theorem recoveryGap_two (target : ℕ) : recoveryGap target 2 = 8 * second := by
  unfold recoveryGap
  split
  · omega
  · omega
  · rfl
  · rename_i hne
    exact absurd rfl hne

theorem recoveryGap_add_three (target k : ℕ) : recoveryGap target (k + 3) = target := by
  unfold recoveryGap
  split
  · omega
  · omega
  · omega
  · rfl

theorem lastStart_start : lastStart (exchanges ++ [.start time]) = some time := by
  rw [lastStart, List.foldl_append]
  rfl

theorem lastStart_reply :
    lastStart (exchanges ++ [.reply error]) =
      if limited error then none else lastStart exchanges := by
  rw [lastStart, List.foldl_append]
  rfl

theorem stableSince_start : stableSince (exchanges ++ [.start time]) = stableSince exchanges := by
  rw [stableSince, List.foldl_append]
  rfl

theorem stableSince_reply :
    stableSince (exchanges ++ [.reply error]) =
      if limited error then some 0
      else if stable error then (stableSince exchanges).map (· + 1)
      else stableSince exchanges := by
  rw [stableSince, List.foldl_append]
  rfl

theorem not_limited_of_stable (h : stable error = true) : limited error = false := by
  rcases error with _ | ⟨code, message, wait⟩
  · rfl
  · cases code <;> simp_all [stable, limited, classify, MigrationItemState.pending]

theorem unsettled_of_transientCode {error : DomainError} (h : transientCode error.code = true) :
    limited (some error) = false ∧ stable (some error) = false := by
  rcases error with ⟨code, message, wait⟩
  cases code <;> simp_all [limited, stable, transientCode, classify, MigrationItemState.pending]

/-- A start that keeps the due gap. -/
theorem Ladder.start (h : Ladder target exchanges)
    (hgap : ∀ t ∈ lastStart exchanges, ∀ k ∈ stableSince exchanges,
      t + recoveryGap target k ≤ time) : Ladder target (exchanges ++ [.start time]) := by
  intro pre time' post heq t ht k hk
  rcases TimedRun.append_singleton_cases heq with ⟨-, hsame, rfl⟩ | ⟨post', rfl, hpre⟩
  · obtain rfl := Exchange.start.inj hsame
    exact hgap t ht k hk
  · exact h pre time' post' hpre t ht k hk

/-- A reply starts nothing. -/
theorem Ladder.reply (h : Ladder target exchanges) :
    Ladder target (exchanges ++ [.reply error]) := by
  intro pre time post heq t ht k hk
  rcases TimedRun.append_singleton_cases heq with ⟨-, hfalse, -⟩ | ⟨post', rfl, hpre⟩
  · exact absurd hfalse (by simp)
  · exact h pre time post' hpre t ht k hk

end Exchange

open Exchange

/-- A run with what it has exchanged with the server, oldest first. -/
structure WatchedRun where
  run : TimedRun
  exchanges : List Exchange

namespace WatchedRun

/-- What a move of the executor exchanges. -/
def exchangedBy (env : Env) (m : Move) (out : Outcome) : List Exchange :=
  match m with
  | .answer error => [.reply error]
  | _ =>
      match out.event with
      | some (.sent _) => [.start env.now]
      | _ => []

/-- What a step exchanges. -/
def exchanged (s : TimedRun) : TimedLabel → List Exchange
  | .move m env =>
      ((s.executor.bind fun e => e.step env m).map fun out => exchangedBy env m out).getD []
  | .resume => []

/-- One step. -/
def step (s : WatchedRun) (l : TimedLabel) : Option WatchedRun :=
  (s.run.step l).map fun run => ⟨run, s.exchanges ++ exchanged s.run l⟩

/-- `run(id, account, target)` is called. -/
def start (id : JobId) (account : AccountId) (target : Telegram.GroupContext) (action : Action)
    (realClock : Bool) (scheduler : InviteScheduler) (now : ℕ) : WatchedRun where
  run := TimedRun.start id account target action realClock scheduler now
  exchanges := []

/-- A transient error that answers an RPC finds a step of the recovery taken, or the interval at
ten seconds all the same. -/
def RetriesCalmly (s : WatchedRun) (l : TimedLabel) : Prop :=
  ∀ e error env, s.run.executor = some e → l = .move (.answer (some error)) env →
    transientCode error.code = true → e.scheduler.recoverySteps.length = 3 →
      RECOVERY_INVITE_INTERVAL ≤ e.scheduler.interval

/-! ## One transition -/

/-- **What a transition is for the scheduler.** -/
inductive Exchanged (now : ℕ) (e e' : Executor) : List Exchange → Prop
  | start {deadline : ℕ} {a b : Attempt} (hpoint : e.point = .sleeping deadline .attempt a)
      (hnow : deadline ≤ now) (hscheduler : e'.scheduler = e.scheduler.markAttempt now)
      (hafter : e'.point = .rpc b) : Exchanged now e e' [.start now]
  | limited {a : Attempt} {error : Option DomainError} {wait : ℕ} (hpoint : e.point = .rpc a)
      (hlimited : limited error = true)
      (hscheduler : e'.scheduler = e.scheduler.applyServerWait now wait)
      (hafter : e'.point = .wait .serverWait a) : Exchanged now e e' [.reply error]
  | stable {a : Attempt} {error : Option DomainError} {u : ItemUpdate} (hpoint : e.point = .rpc a)
      (hstable : stable error = true)
      (hscheduler : e'.scheduler = e.scheduler.markStableCandidate now)
      (hafter : e'.point = .returned (some u)) : Exchanged now e e' [.reply error]
  | transient {a : Attempt} {error : DomainError} (hpoint : e.point = .rpc a)
      (hcode : transientCode error.code = true) (hscheduler : e'.scheduler = e.scheduler)
      (hafter : ∀ b, e'.point ≠ .rpc b) : Exchanged now e e' [.reply (some error)]
  | ending {a : Attempt} {error : DomainError} (hpoint : e.point = .rpc a)
      (hcode : Exchange.limited (some error) = false ∧ Exchange.stable (some error) = false)
      (hscheduler : e'.scheduler = e.scheduler) (hafter : e'.point = .returned none) :
      Exchanged now e e' [.reply (some error)]
  | silent (hscheduler : e'.scheduler = e.scheduler)
      (hrpc : ∀ b, e'.point = .rpc b → e.point = .rpc b)
      (hclosed : e.point.Closed → e'.point.Closed) : Exchanged now e e' []

variable {env : Env} {e e' : Executor} {m : Move} {out : Outcome}

/-- A step that goes from an open point to one that is no RPC. -/
theorem Exchanged.of_point {now : ℕ} {p q : Point} (hscheduler : e'.scheduler = e.scheduler)
    (hp : e.point = p) (hq : e'.point = q) (hrpc : ∀ b, q ≠ .rpc b)
    (hclosed : p.Closed → q.Closed) :
    Exchanged now e e' [] :=
  .silent hscheduler (fun b hb => absurd (hq.symm.trans hb) (hrpc b)) fun h => by
    rw [hq]
    exact hclosed (hp ▸ h)

theorem exchanged_of_transition (h : Executor.Transition env e m out) :
    ∀ e' ∈ out.executor, Exchanged env.now e e' (exchangedBy env m out) := by
  intro e' he'
  cases h with
  | raised haw message =>
      obtain ⟨hscheduler, hpoint⟩ := Executor.scheduler_raise he'
      exact .of_point hscheduler rfl hpoint (by simp) fun _ => trivial
  | leave hset hpoint | publish hset hpoint | failed hset hpoint => exact absurd he' (by simp)
  | flushWrite | flushSkip | write | pauseAccount | resumed | primeFill | primeReceive
  | popReceive | popFill | read | delayedWrite | delayedSkip | delayedDone | pauseRequested
  | stopRequested =>
      obtain rfl := Option.some.inj he'
      exact .silent rfl (fun b hb => hb) fun h => h
  | @send deadline a hset hpoint hc hnow =>
      obtain rfl := Option.some.inj he'
      exact .start hpoint hnow rfl rfl
  | @succeeded a hpoint =>
      obtain rfl := Option.some.inj he'
      exact .stable hpoint rfl rfl rfl
  | @flooded a error hpoint hcode =>
      obtain rfl := Option.some.inj he'
      exact .limited hpoint (by simp [limited, hcode]) rfl rfl
  | @indefinite a error hpoint hcode =>
      obtain rfl := Option.some.inj he'
      refine .ending hpoint ?_ rfl rfl
      simp [limited, stable, classify, hcode]
  | @pausing a error hpoint hcode =>
      obtain rfl := Option.some.inj he'
      refine .ending hpoint ?_ rfl rfl
      rcases hcode with hcode | hcode
      · simp [limited, stable, classify, hcode]
      · simp [limited, stable, classify, hcode]
  | @transient a error delay hpoint hcode hdelay =>
      obtain rfl := Option.some.inj he'
      exact .transient hpoint hcode rfl (by simp)
  | @exhausted a error hpoint hcode hdelay =>
      obtain rfl := Option.some.inj he'
      exact .transient hpoint hcode rfl (by simp)
  | @final a error hpoint hfinal hpause =>
      obtain rfl := Option.some.inj he'
      exact .stable hpoint (by simp [stable, hfinal, hpause]) rfl rfl
  | @take item buffer hset hpoint htake =>
      obtain rfl := Option.some.inj he'
      refine .of_point rfl hpoint rfl (fun b => ?_) fun h => h.elim
      rw [Executor.enter]
      split
      · simp
      · simp
  | @returned r hset hpoint todo htodo =>
      obtain rfl := Option.some.inj he'
      refine .of_point rfl hpoint rfl (by simp) fun h => ?_
      cases r with
      | none => trivial
      | some u => exact h.elim
  | interrupt hset hpoint c hc =>
      obtain rfl := Option.some.inj he'
      exact .of_point (q := .returned none) rfl hpoint rfl (by simp) fun _ => trivial
  | stopped hset hpoint =>
      obtain rfl := Option.some.inj he'
      exact .of_point rfl hpoint rfl (by simp) fun _ => trivial
  | _ =>
      obtain rfl := Option.some.inj he'
      refine .of_point rfl ‹e.point = _› rfl (by simp) ?_
      exact fun h => False.elim h

/-! ## The scheduler on the ladder -/

/-- The scheduler behind a FLOOD_WAIT and `k` stable candidates. -/
structure Climbing (target k : ℕ) (s : InviteScheduler) : Prop where
  steps : s.recoverySteps = [RECOVERY_INVITE_INTERVAL, 8 * second, target].drop k
  interval : 0 < k → s.interval = recoveryGap target k

/-- **One stable candidate** takes the scheduler one step on. -/
theorem Climbing.markStableCandidate {target k now : ℕ} {s : InviteScheduler}
    (h : Climbing target k s) (hover : s.serverWaitUntil ≤ now) :
    Climbing target (k + 1) (s.markStableCandidate now) := by
  have hremaining : s.serverWaitRemaining now = 0 := Nat.sub_eq_zero_of_le hover
  rw [InviteScheduler.markStableCandidate_of_over hremaining, h.steps]
  match k, h with
  | 0, _ => exact ⟨rfl, fun _ => (recoveryGap_one target).symm⟩
  | 1, _ => exact ⟨rfl, fun _ => (recoveryGap_two target).symm⟩
  | 2, _ => exact ⟨rfl, fun _ => (recoveryGap_add_three target 0).symm⟩
  | k + 3, h =>
      have hnone : ∀ j, [RECOVERY_INVITE_INTERVAL, 8 * second, target].drop (j + 3) = [] :=
        fun j => List.drop_eq_nil_of_le (by simp)
      rw [hnone k]
      refine ⟨?_, fun _ => ?_⟩
      · show s.recoverySteps = _
        rw [h.steps, hnone k]
        exact (hnone (k + 1)).symm
      · show s.interval = _
        rw [h.interval (by omega), recoveryGap_add_three]
        exact (recoveryGap_add_three target (k + 1)).symm

theorem Climbing.of_limited {s : InviteScheduler} {target now wait : ℕ}
    (h : s.targetInterval = target) : Climbing target 0 (s.applyServerWait now wait) := by
  refine ⟨?_, fun hpos => absurd hpos (lt_irrefl 0)⟩
  rw [← h]
  rfl

/-- The scheduler that keeps its steps and its intervals. -/
theorem Climbing.congr {s s' : InviteScheduler} {target k : ℕ} (h : Climbing target k s)
    (hsteps : s'.recoverySteps = s.recoverySteps) (hinterval : s'.interval = s.interval) :
    Climbing target k s' :=
  ⟨hsteps.trans h.steps, fun hpos => hinterval.trans (h.interval hpos)⟩

theorem exchangedBy_of_none (h : Executor.Transition env e m out) (hout : out.executor = none) :
    exchangedBy env m out = [] := by
  cases h with
  | raised | leave | publish | failed => rfl
  | _ => exact absurd hout (by simp)

theorem answer_of_exchangedBy {error : Option DomainError}
    (h : exchangedBy env m out = [.reply error]) : m = .answer error := by
  cases m with
  | answer error' =>
      obtain rfl := Exchange.reply.inj (List.singleton_inj.mp h)
      rfl
  | _ =>
      simp only [exchangedBy] at h
      split at h
      · exact absurd h (by simp)
      · exact absurd h (by simp)

/-- What an executor keeps of its exchanges at a reading of the clock. -/
structure OnRung (target : ℕ) (exchanges : List Exchange) (clock : ℕ) (e : Executor) : Prop where
  aim : e.scheduler.targetInterval = target
  last : ∀ t ∈ lastStart exchanges, e.scheduler.lastAttempt = some t
  climbing : ∀ k ∈ stableSince exchanges, Climbing target k e.scheduler
  waitOver : ∀ a, e.point = .rpc a → e.scheduler.serverWaitUntil ≤ clock
  retried : 0 ∈ stableSince exchanges → ∀ t ∈ lastStart exchanges,
    e.point.Closed ∨ RECOVERY_INVITE_INTERVAL ≤ e.scheduler.interval

variable {target clock : ℕ} {exchanges new : List Exchange}

/-- The gap before an RPC: the interval of the scheduler is the one that is due. -/
theorem OnRung.due (he : OnRung target exchanges clock e) (hopen : ¬ e.point.Closed) {t k : ℕ}
    (ht : t ∈ lastStart exchanges) (hk : k ∈ stableSince exchanges) :
    recoveryGap target k ≤ e.scheduler.interval := by
  rcases Nat.eq_zero_or_pos k with rfl | hpos
  · rw [recoveryGap_zero]
    exact (he.retried hk t ht).resolve_left hopen
  · exact ((he.climbing k hk).interval hpos).ge

/-- A reply that is neither a FLOOD_WAIT nor final for the candidate. -/
theorem OnRung.unstable {error : Option DomainError} (he : OnRung target exchanges clock e)
    (hlimited : limited error = false) (hstable : stable error = false)
    (hscheduler : e'.scheduler = e.scheduler) (hrpc : ∀ b, e'.point ≠ .rpc b)
    (hzero : 0 ∈ stableSince exchanges →
      e'.point.Closed ∨ RECOVERY_INVITE_INTERVAL ≤ e.scheduler.interval) (now : ℕ) :
    OnRung target (exchanges ++ [.reply error]) now e' := by
  have hlast : lastStart (exchanges ++ [.reply error]) = lastStart exchanges := by
    rw [lastStart_reply, hlimited]
    rfl
  have hsince : stableSince (exchanges ++ [.reply error]) = stableSince exchanges := by
    rw [stableSince_reply, hlimited, hstable]
    rfl
  refine ⟨?_, ?_, ?_, fun a ha => absurd ha (hrpc a), ?_⟩
  · rw [hscheduler]
    exact he.aim
  · rw [hlast, hscheduler]
    exact he.last
  · rw [hsince, hscheduler]
    exact he.climbing
  · rw [hsince, hlast, hscheduler]
    exact fun h _ _ => hzero h

/-- **One transition** keeps what an executor keeps. -/
theorem OnRung.exchanged (he : OnRung target exchanges clock e) (hclock : clock ≤ env.now)
    (hsleeps : e.SleepsOut) (h : Exchanged env.now e e' new)
    (hcalm : ∀ error, new = [.reply (some error)] → transientCode error.code = true →
      e.scheduler.recoverySteps.length = 3 → RECOVERY_INVITE_INTERVAL ≤ e.scheduler.interval) :
    OnRung target (exchanges ++ new) env.now e' := by
  cases h with
  | @start deadline a b hpoint hnow hscheduler hafter =>
      refine ⟨?_, fun t ht => ?_, fun k hk => ?_, fun c hc => ?_, fun _ _ _ => ?_⟩
      · rw [hscheduler]
        exact he.aim
      · rw [lastStart_start] at ht
        rw [hscheduler]
        exact ht
      · rw [stableSince_start] at hk
        rw [hscheduler]
        exact (he.climbing k hk).congr rfl rfl
      · rw [hscheduler]
        exact (hsleeps deadline a hpoint).trans hnow
      · rw [hafter]
        exact Or.inl trivial
  | @limited a error wait hpoint hlimited hscheduler hafter =>
      refine ⟨?_, fun t ht => ?_, fun k hk => ?_, fun c hc => ?_, fun _ t ht => ?_⟩
      · rw [hscheduler]
        exact he.aim
      · rw [lastStart_reply, if_pos hlimited] at ht
        exact absurd ht (by simp)
      · rw [stableSince_reply, if_pos hlimited] at hk
        obtain rfl := Option.some.inj hk
        rw [hscheduler]
        exact .of_limited he.aim
      · rw [hafter] at hc
        exact absurd hc (by simp)
      · rw [lastStart_reply, if_pos hlimited] at ht
        exact absurd ht (by simp)
  | @stable a error u hpoint hstable hscheduler hafter =>
      have hnot := not_limited_of_stable hstable
      have hk : stableSince (exchanges ++ [.reply error]) =
          (stableSince exchanges).map (· + 1) := by
        rw [stableSince_reply, hnot, hstable]
        rfl
      refine ⟨?_, fun t ht => ?_, fun k hk' => ?_, fun c hc => ?_, fun hzero => ?_⟩
      · rw [hscheduler, InviteScheduler.targetInterval_markStableCandidate]
        exact he.aim
      · rw [lastStart_reply, hnot] at ht
        rw [hscheduler, InviteScheduler.lastAttempt_markStableCandidate]
        exact he.last t ht
      · rw [hk] at hk'
        obtain ⟨j, hj, rfl⟩ := Option.map_eq_some_iff.mp hk'
        rw [hscheduler]
        exact (he.climbing j hj).markStableCandidate ((he.waitOver a hpoint).trans hclock)
      · rw [hafter] at hc
        exact absurd hc (by simp)
      · rw [hk] at hzero
        obtain ⟨j, -, hj⟩ := Option.map_eq_some_iff.mp hzero
        exact absurd hj (Nat.succ_ne_zero j)
  | @transient a error hpoint hcode hscheduler hafter =>
      have hcode' := unsettled_of_transientCode hcode
      refine he.unstable hcode'.1 hcode'.2 hscheduler hafter (fun hzero => Or.inr ?_) _
      exact hcalm error rfl hcode (by rw [(he.climbing 0 hzero).steps]; rfl)
  | @ending a error hpoint hcode hscheduler hafter =>
      refine he.unstable hcode.1 hcode.2 hscheduler (by simp [hafter]) (fun _ => Or.inl ?_) _
      rw [hafter]
      trivial
  | silent hscheduler hrpc hclosed =>
      rw [List.append_nil]
      refine ⟨?_, fun t ht => ?_, fun k hk => ?_, fun c hc => ?_, fun hzero t ht => ?_⟩
      · rw [hscheduler]
        exact he.aim
      · rw [hscheduler]
        exact he.last t ht
      · rw [hscheduler]
        exact he.climbing k hk
      · rw [hscheduler]
        exact (he.waitOver c (hrpc c hc)).trans hclock
      · rw [hscheduler]
        exact (he.retried hzero t ht).imp_left hclosed

/-- What a run keeps. -/
structure OnLadder (target : ℕ) (s : WatchedRun) : Prop where
  timed : s.run.Timed
  ladder : Ladder target s.exchanges
  rung : ∀ e, s.run.executor = some e → OnRung target s.exchanges s.run.clock e

/-- What a transition exchanges is on the ladder. -/
theorem OnRung.ladder (he : OnRung target exchanges clock e) (hladder : Ladder target exchanges)
    (hsleeps : e.SleepsInterval) (h : Exchanged env.now e e' new) :
    Ladder target (exchanges ++ new) := by
  cases h with
  | @start deadline a b hpoint hnow hscheduler hafter =>
      refine hladder.start fun t ht k hk => ?_
      have hopen : ¬ e.point.Closed := by
        rw [hpoint]
        exact id
      calc t + recoveryGap target k ≤ t + e.scheduler.interval :=
            Nat.add_le_add_left (he.due hopen ht hk) t
        _ ≤ deadline := hsleeps deadline a t hpoint (he.last t ht)
        _ ≤ env.now := hnow
  | limited | stable | transient | ending => exact hladder.reply
  | silent =>
      rw [List.append_nil]
      exact hladder

variable {s s' : WatchedRun} {l : TimedLabel} {ls : List TimedLabel}

/-- **One step** of a calm run stays on the ladder. -/
theorem OnLadder.step (hs : OnLadder target s) (hcalm : s.RetriesCalmly l)
    (h : s.step l = some s') : OnLadder target s' := by
  obtain ⟨run, hrun, rfl⟩ := Option.map_eq_some_iff.mp h
  have htimed := TimedRun.Timed.step hs.timed hrun
  cases l with
  | move m env =>
      obtain ⟨e, he, hmove⟩ := Option.bind_eq_some_iff.mp hrun
      split_ifs at hmove with hclock
      obtain ⟨out, hout, rfl⟩ := Option.map_eq_some_iff.mp hmove
      have htransition := Executor.transition_of_step hout
      have hnew : exchanged s.run (.move m env) = exchangedBy env m out := by
        simp [exchanged, he, hout]
      rw [hnew]
      cases hexecutor : out.executor with
      | none =>
          rw [exchangedBy_of_none htransition hexecutor, List.append_nil]
          exact ⟨hexecutor ▸ htimed, hs.ladder, by simp⟩
      | some e' =>
          have hone := exchanged_of_transition htransition e' hexecutor
          refine ⟨hexecutor ▸ htimed, ?_, fun f hf => ?_⟩
          · exact (hs.rung e he).ladder hs.ladder (hs.timed.sleepsInterval e he) hone
          · obtain rfl := Option.some.inj hf
            refine (hs.rung e he).exchanged hclock (hs.timed.sleepsOut e he) hone
              fun error hreply hcode hlength => ?_
            exact hcalm e error env he (by rw [answer_of_exchangedBy hreply]) hcode hlength
  | resume =>
      obtain ⟨e, he, rfl⟩ := Option.map_eq_some_iff.mp hrun
      obtain ⟨hscheduler, hpoint⟩ := TimedRun.requestResume_same e
      have hrung := hs.rung e he
      rw [exchanged, List.append_nil]
      refine ⟨htimed, hs.ladder, fun f hf => ?_⟩
      obtain rfl := Option.some.inj hf
      refine ⟨?_, ?_, ?_, ?_, ?_⟩
      · rw [hscheduler]
        exact hrung.aim
      · rw [hscheduler]
        exact hrung.last
      · rw [hscheduler]
        exact hrung.climbing
      · rw [hscheduler, hpoint]
        exact hrung.waitOver
      · rw [hscheduler, hpoint]
        exact hrung.retried

theorem onLadder_start (id : JobId) (account : AccountId) (group : Telegram.GroupContext)
    (action : Action) (realClock : Bool) (scheduler : InviteScheduler) (now : ℕ) :
    OnLadder scheduler.targetInterval
      (start id account group action realClock scheduler now) where
  timed := TimedRun.timed_start id account group action realClock scheduler now
  ladder := fun pre time post heq => absurd heq (by simp [start])
  rung := by
    intro e he
    obtain rfl := Option.some.inj he
    exact ⟨rfl, by simp [start, lastStart], by simp [start, stableSince], by simp,
      by simp [start, stableSince]⟩

/-- **The ladder behind a FLOOD_WAIT**: in a run in which every transient error that answers an RPC
finds a step of the recovery taken, or the interval at ten seconds, the RPCs behind a retry are ten
seconds apart up to the first stable candidate and behind it, eight behind the second and the
target from the third on; another FLOOD_WAIT begins anew. -/
theorem recovery_ladder (id : JobId) (account : AccountId) (group : Telegram.GroupContext)
    (action : Action) (realClock : Bool) (scheduler : InviteScheduler) (now : ℕ)
    (hcalm : Along step RetriesCalmly (start id account group action realClock scheduler now) ls)
    (hrun : runLabels step (start id account group action realClock scheduler now) ls = some s) :
    Ladder scheduler.targetInterval s.exchanges :=
  (invariant_runLabels (C := RetriesCalmly) (fun _ _ _ hs hc hstep => OnLadder.step hs hc hstep)
    (onLadder_start id account group action realClock scheduler now) hcalm hrun).ladder

/-- A transient error answers an RPC. -/
def transientReply : TimedLabel → Bool
  | .move (.answer (some error)) _ => transientCode error.code
  | _ => false

/-- A run without transient errors is calm. -/
theorem calm_of_no_transient (h : ∀ l ∈ ls, transientReply l = false) :
    Along step RetriesCalmly s ls := by
  refine (along_of_forall_mem (D := fun l => transientReply l = false) h).mono ?_
  rintro s l hl e error env - rfl hcode
  exact absurd (hl.symm.trans hcode) (by simp)

/-- A stable retry at the end of the wait, and the RPC for the next candidate. -/
def stableRetry : List TimedLabel :=
  TimedRun.limitedOnce ++
    TimedRun.movesAt (8 * second) ([.answer none, .advance, .advance] ++ TimedRun.committedWrite ++
      List.replicate 4 .advance) ++
    TimedRun.movesAt (18 * second) [.advance]

theorem recovery_ladder_stable :
    ∃ s, runLabels step (start 0 1 ⟨500, some 600, .channel, 1⟩ .invite false
        ⟨3 * second, 3 * second, none, 0, []⟩ 0) stableRetry = some s ∧
      s.exchanges =
        [.start 0, .reply (some ⟨.rateLimit, "wait", some 7⟩), .start (8 * second), .reply none,
          .start (18 * second)] ∧
      Ladder (3 * second) s.exchanges := by
  have hall : (runLabels step (start 0 1 ⟨500, some 600, .channel, 1⟩ .invite false
        ⟨3 * second, 3 * second, none, 0, []⟩ 0) stableRetry).map (·.exchanges) =
      some [.start 0, .reply (some ⟨.rateLimit, "wait", some 7⟩), .start (8 * second), .reply none,
        .start (18 * second)] := by decide +kernel
  obtain ⟨s, hs, hexchanges⟩ := Option.map_eq_some_iff.mp hall
  exact ⟨s, hs, hexchanges,
    recovery_ladder 0 1 _ _ _ _ 0 (calm_of_no_transient (by decide +kernel)) hs⟩

/-- A transient error answers the retry at the end of the wait, and the candidate is tried again. -/
def transientRetry : List TimedLabel :=
  TimedRun.limitedOnce ++
    TimedRun.movesAt (8 * second) [.answer (some ⟨.networkTransient, "lost", none⟩)] ++
    TimedRun.movesAt (9 * second) [.advance, .advance] ++
    TimedRun.movesAt (11 * second) [.advance]

/-- **Three seconds behind the retry**: the interval of ten seconds is not taken at a transient
error. -/
theorem transient_retry_hurries :
    ∃ scheduler s, InviteScheduler.new (3 * second) = some scheduler ∧
      runLabels step (start 0 1 ⟨500, some 600, .channel, 1⟩ .invite false scheduler 0)
        transientRetry = some s ∧ ¬ Ladder scheduler.targetInterval s.exchanges := by
  have hall : (runLabels step (start 0 1 ⟨500, some 600, .channel, 1⟩ .invite false
        ⟨3 * second, 3 * second, none, 0, []⟩ 0) transientRetry).map (·.exchanges) =
      some ([.start 0, .reply (some ⟨.rateLimit, "wait", some 7⟩), .start (8 * second),
        .reply (some ⟨.networkTransient, "lost", none⟩)] ++ .start (11 * second) :: []) := by
    decide +kernel
  obtain ⟨s, hs, hexchanges⟩ := Option.map_eq_some_iff.mp hall
  refine ⟨_, s, rfl, hs, fun hladder => ?_⟩
  exact absurd (hladder _ _ _ hexchanges (8 * second) rfl 0 rfl) (by decide)

end WatchedRun
end Runtime
end MigrationStudio
