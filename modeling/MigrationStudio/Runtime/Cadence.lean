import MigrationStudio.Runtime.Spacing

/-!
# When the RPCs of one run start

`_attempt` computes the delay before an RPC once, from the scheduler, and then sleeps it; FLOOD_WAIT
and the back-off after a transient error have sleeps of their own, behind which the delay is
computed anew.  Nothing changes the scheduler between the computation and the RPC.

* `TimedRun.step`: one run of an executor with a clock that never goes back, in any surroundings:
  any reading of the database, any outcome of any write and any RPC, any requests.
* `Happening`: an RPC starts, or is answered by RATE_LIMIT.
* `OnTime`: what the starts keep of the scheduler and of the server.
* `rpcs_on_time`: every run is on time.
-/

namespace MigrationStudio

open Foundations MigrationStudio.Core Accounts Jobs Telegram Storage Migration

namespace Migration

/-- The delay never ends before the interval from the last attempt. -/
theorem InviteScheduler.remaining_ge_interval (s : InviteScheduler) (now : ℕ) {t : ℕ}
    (ht : s.lastAttempt = some t) : t + s.interval ≤ now + s.remainingDelay now := by
  have hlocal : s.localNext now = t + s.interval := by rw [localNext, ht]
  have hle : s.localNext now ≤ max (s.localNext now) s.serverWaitUntil := le_max_left _ _
  rw [remainingDelay]
  omega

/-- The points behind a RATE_LIMIT for the candidate, up to its next RPC, and those of a run that
sends no more. -/
def Point.Bound (c : BufferedCandidate) : Point → Prop
  | .wait .serverWait a | .sleeping _ .serverWait a | .wait .attempt a
  | .sleeping _ .attempt a => a.candidate = c
  | .returned none | .attempted none | .leave | .failed => True
  | _ => False

namespace Executor

variable {env : Env} {e : Executor} {m : Move} {out : Outcome}

/-- The sleep before an attempt ends the interval after the last one. -/
def SleepsInterval (e : Executor) : Prop :=
  ∀ deadline a t, e.point = .sleeping deadline .attempt a → e.scheduler.lastAttempt = some t →
    t + e.scheduler.interval ≤ deadline

theorem sleepsInterval_of_point {p : Point} (h : e.point = p)
    (hp : ∀ deadline a, p ≠ .sleeping deadline .attempt a) : e.SleepsInterval :=
  fun deadline a _ hpoint => absurd (h.symm.trans hpoint) (hp deadline a)

/-- **One transition** keeps the interval. -/
theorem Transition.sleepsInterval (h : Transition env e m out) (he : e.SleepsInterval) :
    ∀ e' ∈ out.executor, e'.SleepsInterval := by
  intro e' he'
  cases h with
  | raised haw message => exact sleepsInterval_of_point (scheduler_raise he').2 (by simp)
  | @sleep k a hset hpoint =>
      obtain rfl := Option.some.inj he'
      intro deadline b t hsleep ht
      obtain ⟨rfl, -, -⟩ := Point.sleeping.inj hsleep
      exact e.scheduler.remaining_ge_interval env.now ht
  | interrupt hset hpoint c hc =>
      obtain rfl := Option.some.inj he'
      exact sleepsInterval_of_point (p := .returned none) rfl (by simp)
  | leave hset hpoint | publish hset hpoint | failed hset hpoint => exact absurd he' (by simp)
  | flushWrite | flushSkip | write | pauseAccount | resumed | primeFill | primeReceive
  | popReceive | popFill | read | delayedWrite | delayedSkip | delayedDone | pauseRequested
  | stopRequested =>
      obtain rfl := Option.some.inj he'
      exact he
  | @take item buffer hset hpoint htake =>
      obtain rfl := Option.some.inj he'
      refine sleepsInterval_of_point rfl fun deadline a => ?_
      rw [enter]
      split <;> simp
  | _ =>
      obtain rfl := Option.some.inj he'
      exact sleepsInterval_of_point rfl (by simp)

/-- The executor is behind a RATE_LIMIT for the candidate, until `u` at least. -/
def Bound (c : BufferedCandidate) (u : ℕ) (e : Executor) : Prop :=
  u ≤ e.scheduler.serverWaitUntil ∧ e.point.Bound c

/-- **Behind a RATE_LIMIT** the next RPC is for the same candidate. -/
theorem Transition.bound (h : Transition env e m out) {c : BufferedCandidate} {u : ℕ}
    (he : e.Bound c u) (hsent : ∀ rpc, out.event ≠ some (.sent rpc)) :
    ∀ e' ∈ out.executor, e'.Bound c u := by
  intro e' he'
  refine ⟨he.1.trans (h.serverWaitUntil_le e' he'), ?_⟩
  have hp := he.2
  cases h with
  | raised haw message =>
      rw [(scheduler_raise he').2]
      trivial
  | @sleep k a hset hpoint =>
      obtain rfl := Option.some.inj he'
      rw [hpoint] at hp
      cases k with
      | attempt => exact hp
      | serverWait => exact hp
      | transient error => exact hp.elim
  | interrupt hset hpoint c' hc =>
      obtain rfl := Option.some.inj he'
      trivial
  | waited hset hpoint hc hnow =>
      obtain rfl := Option.some.inj he'
      rw [hpoint] at hp
      exact hp
  | send hset hpoint hc hnow => exact absurd rfl (hsent _)
  | @returned r hset hpoint todo htodo =>
      obtain rfl := Option.some.inj he'
      rw [hpoint] at hp
      cases r with
      | none => trivial
      | some u => exact hp.elim
  | stopped hset hpoint =>
      obtain rfl := Option.some.inj he'
      trivial
  | leave hset hpoint | publish hset hpoint | failed hset hpoint => exact absurd he' (by simp)
  | flushWrite | flushSkip | write | pauseAccount | resumed | read | delayedWrite | delayedSkip
  | delayedDone | pauseRequested | stopRequested =>
      obtain rfl := Option.some.inj he'
      exact hp
  | _ =>
      rw [‹e.point = _›] at hp
      exact hp.elim

/-- The candidate of an attempt. -/
def candidate (e : Executor) : Option BufferedCandidate :=
  match e.point with
  | .wait _ a | .sleeping _ _ a | .rpc a => some a.candidate
  | _ => none

end Executor
end Migration

namespace Runtime

/-! ## One run with its clock -/

/-- An RPC starts: the candidate, the reading of the clock, and the interval and the deadline of the
server that the scheduler has then. -/
structure RpcStart where
  candidate : BufferedCandidate
  time : ℕ
  interval : ℕ
  serverWaitUntil : ℕ

/-- What is seen of a run: an RPC starts, or a RATE_LIMIT reply is received. -/
inductive Happening where
  | start (r : RpcStart)
  | limited (candidate : BufferedCandidate) (time wait : ℕ)

/-- The run: the executor, until `run` has returned, the last reading of its clock, and what has
been seen, oldest first. -/
structure TimedRun where
  executor : Option Executor
  clock : ℕ
  trace : List Happening

/-- The executor moves in some surroundings, or a pause is taken back. -/
inductive TimedLabel where
  | move (m : Move) (env : Env)
  | resume

namespace TimedRun

/-- What is seen of a move. -/
def seen (e : Executor) (env : Env) (m : Move) (out : Outcome) : List Happening :=
  match out.event, m with
  | some (.sent _), _ =>
      e.candidate.toList.map fun c =>
        .start ⟨c, env.now, e.scheduler.interval, e.scheduler.serverWaitUntil⟩
  | some (.flooded _ _), .answer (some error) =>
      e.candidate.toList.map fun c => .limited c env.now (Executor.waitOf error)
  | _, _ => []

/-- One step; the clock does not go back. -/
def step (s : TimedRun) : TimedLabel → Option TimedRun
  | .move m env =>
      s.executor.bind fun e =>
        if s.clock ≤ env.now then
          (e.step env m).map fun out => ⟨out.executor, env.now, s.trace ++ seen e env m out⟩
        else none
  | .resume => s.executor.map fun e => { s with executor := some e.requestResume }

/-- `run(id, account, target)` is called, with a scheduler of any interval, to which any waits have
been applied. -/
def start (id : JobId) (account : AccountId) (target : Telegram.GroupContext) (action : Action)
    (realClock : Bool) (scheduler : InviteScheduler) (now : ℕ) : TimedRun where
  executor := some
    { jobId := id
      accountId := account
      target := target
      action := action
      realClock := realClock
      scheduler := scheduler }
  clock := now
  trace := []

/-- The starts, in order. -/
def starts (trace : List Happening) : List RpcStart :=
  trace.filterMap fun
    | .start r => some r
    | .limited _ _ _ => none

theorem starts_append (l l' : List Happening) : starts (l ++ l') = starts l ++ starts l' :=
  List.filterMap_append ..

/-- **What the starts keep**: the interval that the scheduler has, the deadline of the server, and
after a RATE_LIMIT reply the candidate and the wait. -/
structure OnTime (trace : List Happening) : Prop where
  cadence : (starts trace).IsChain fun r r' => r.time + r'.interval ≤ r'.time
  gate : ∀ r ∈ starts trace, r.serverWaitUntil ≤ r.time
  limited : ∀ pre c t wait post, trace = pre ++ .limited c t wait :: post →
    ∀ r ∈ (starts post).head?, r.candidate = c ∧ t + wait ≤ r.time

/-- A RATE_LIMIT reply with no RPC behind it. -/
def Unanswered (trace : List Happening) (c : BufferedCandidate) (u : ℕ) : Prop :=
  ∃ pre t wait post, trace = pre ++ .limited c t wait :: post ∧ starts post = [] ∧ t + wait = u

/-- The last element of a list in which an element stands. -/
theorem append_singleton_cases {α : Type*} {l pre post : List α} {x y : α}
    (h : l ++ [x] = pre ++ y :: post) :
    (post = [] ∧ x = y ∧ l = pre) ∨ ∃ post', post = post' ++ [x] ∧ l = pre ++ y :: post' := by
  rcases List.eq_nil_or_concat post with rfl | ⟨post', z, rfl⟩
  · obtain ⟨hl, hx⟩ := List.append_inj' h rfl
    exact Or.inl ⟨rfl, (List.singleton_inj.mp hx), hl⟩
  · have h' : l ++ [x] = (pre ++ y :: post') ++ [z] := by
      rw [h]
      simp
    obtain ⟨hl, hx⟩ := List.append_inj' h' rfl
    exact Or.inr ⟨post', by rw [List.singleton_inj.mp hx]; simp, hl⟩

variable {trace : List Happening} {r : RpcStart} {c c' : BufferedCandidate} {u t wait : ℕ}

/-- A start that comes in time. -/
theorem OnTime.start (h : OnTime trace)
    (hlast : ∀ r' ∈ (starts trace).getLast?, r'.time + r.interval ≤ r.time)
    (hgate : r.serverWaitUntil ≤ r.time)
    (hopen : ∀ c u, Unanswered trace c u → r.candidate = c ∧ u ≤ r.time) :
    OnTime (trace ++ [.start r]) := by
  have hstarts : starts [.start r] = [r] := rfl
  refine ⟨?_, ?_, ?_⟩
  · rw [starts_append, hstarts, List.isChain_append]
    refine ⟨h.cadence, List.isChain_singleton r, fun r' hr' r'' hr'' => ?_⟩
    obtain rfl : r = r'' := by simpa using hr''
    exact hlast r' hr'
  · intro r' hr'
    rw [starts_append, hstarts, List.mem_append, List.mem_singleton] at hr'
    rcases hr' with hr' | rfl
    · exact h.gate r' hr'
    · exact hgate
  · intro pre c t wait post heq r' hr'
    rcases append_singleton_cases heq with ⟨-, hfalse, -⟩ | ⟨post', rfl, hpre⟩
    · exact absurd hfalse (by simp)
    · rw [starts_append, hstarts] at hr'
      cases hnone : starts post' with
      | nil =>
          rw [hnone] at hr'
          obtain rfl : r = r' := by simpa using hr'
          exact hopen c (t + wait) ⟨pre, t, wait, post', hpre, hnone, rfl⟩
      | cons r₀ rest =>
          rw [hnone] at hr'
          obtain rfl : r₀ = r' := by simpa using hr'
          exact h.limited pre c t wait post' hpre r₀ (by rw [hnone]; rfl)

/-- A reply. -/
theorem OnTime.reply (h : OnTime trace) : OnTime (trace ++ [.limited c t wait]) := by
  have hstarts : starts (trace ++ [.limited c t wait]) = starts trace := by
    rw [starts_append]
    exact List.append_nil _
  refine ⟨by rw [hstarts]; exact h.cadence, by rw [hstarts]; exact h.gate, ?_⟩
  intro pre c' t' wait' post heq r hr
  rcases append_singleton_cases heq with ⟨rfl, -, -⟩ | ⟨post', rfl, hpre⟩
  · exact absurd hr (by simp [starts])
  · have hpost : starts (post' ++ [.limited c t wait]) = starts post' := by
      rw [starts_append]
      exact List.append_nil _
    rw [hpost] at hr
    exact h.limited pre c' t' wait' post' hpre r hr

theorem not_unanswered_start : ¬ Unanswered (trace ++ [.start r]) c u := by
  rintro ⟨pre, t, wait, post, heq, hnone, -⟩
  rcases append_singleton_cases heq with ⟨-, hfalse, -⟩ | ⟨post', rfl, -⟩
  · exact absurd hfalse (by simp)
  · rw [starts_append] at hnone
    exact absurd hnone (by simp [starts])

theorem unanswered_reply (h : Unanswered (trace ++ [.limited c t wait]) c' u) :
    (c' = c ∧ u = t + wait) ∨ Unanswered trace c' u := by
  obtain ⟨pre, t', wait', post, heq, hnone, rfl⟩ := h
  rcases append_singleton_cases heq with ⟨-, hsame, -⟩ | ⟨post', rfl, hpre⟩
  · obtain ⟨rfl, rfl, rfl⟩ := Happening.limited.inj hsame
    exact Or.inl ⟨rfl, rfl⟩
  · rw [starts_append] at hnone
    exact Or.inr ⟨pre, t', wait', post', hpre, (List.append_eq_nil_iff.mp hnone).1, rfl⟩

/-! ## The run -/

/-- What a run keeps. -/
structure Timed (s : TimedRun) : Prop where
  onTime : OnTime s.trace
  last : ∀ e, s.executor = some e → ∀ r ∈ (starts s.trace).getLast?,
    e.scheduler.lastAttempt = some r.time
  sleepsOut : ∀ e, s.executor = some e → e.SleepsOut
  sleepsInterval : ∀ e, s.executor = some e → e.SleepsInterval
  bound : ∀ e, s.executor = some e → ∀ c u, Unanswered s.trace c u → e.Bound c u

section Move

variable {e : Executor} {env : Env} {m : Move} {out : Outcome}

/-- A move is seen as the start of an RPC at the end of a sleep, as a RATE_LIMIT reply, or not. -/
theorem seen_cases (h : Executor.Transition env e m out) :
    (∃ deadline a rpc, e.point = .sleeping deadline .attempt a ∧ deadline ≤ env.now ∧
      out.event = some (.sent rpc) ∧ seen e env m out =
        [.start ⟨a.candidate, env.now, e.scheduler.interval, e.scheduler.serverWaitUntil⟩]) ∨
    ((∀ rpc, out.event ≠ some (.sent rpc)) ∧ ∃ a wait, e.point = .rpc a ∧
      (∀ e' ∈ out.executor, e'.Bound a.candidate (env.now + wait)) ∧
      seen e env m out = [.limited a.candidate env.now wait]) ∨
    ((∀ rpc, out.event ≠ some (.sent rpc)) ∧ seen e env m out = []) := by
  cases h with
  | @send deadline a hset hpoint hc hnow =>
      refine Or.inl ⟨deadline, a, _, hpoint, hnow, rfl, ?_⟩
      simp [seen, Executor.candidate, hpoint]
  | @flooded a error hpoint hcode =>
      refine Or.inr (Or.inl ⟨by simp, a, Executor.waitOf error, hpoint, fun e' he' => ?_, ?_⟩)
      · obtain rfl := Option.some.inj he'
        exact ⟨(e.scheduler.serverWaitUntil_applyServerWait _ _).2, rfl⟩
      · simp [seen, Executor.candidate, hpoint]
  | _ => exact Or.inr (Or.inr ⟨by simp, rfl⟩)

/-- **One move** of the executor is on time. -/
theorem Timed.move {s : TimedRun} (hs : Timed s) (he : s.executor = some e)
    (h : Executor.Transition env e m out) :
    Timed ⟨out.executor, env.now, s.trace ++ seen e env m out⟩ := by
  have hkeep : ∀ e' ∈ out.executor, e'.SleepsOut ∧ e'.SleepsInterval := fun e' he' =>
    ⟨h.sleepsOut (hs.sleepsOut e he) e' he', h.sleepsInterval (hs.sleepsInterval e he) e' he'⟩
  have hattempt : (∀ rpc, out.event ≠ some (.sent rpc)) → ∀ e' ∈ out.executor,
      e'.scheduler.lastAttempt = e.scheduler.lastAttempt := by
    intro hsilent e' he'
    rcases h.lastAttempt e' he' with ⟨rpc, hev, -⟩ | ⟨-, hsame⟩
    · exact absurd hev (hsilent rpc)
    · exact hsame
  rcases seen_cases h with ⟨deadline, a, rpc, hpoint, hnow, hev, hseen⟩ |
    ⟨hsilent, a, wait, hpoint, hbound, hseen⟩ | ⟨hsilent, hseen⟩
  · have htime : OnTime (s.trace ++ seen e env m out) := by
      rw [hseen]
      refine hs.onTime.start (fun r' hr' => ?_) ?_ fun c u hopen => ?_
      · exact (hs.sleepsInterval e he deadline a _ hpoint (hs.last e he r' hr')).trans hnow
      · exact (hs.sleepsOut e he deadline a hpoint).trans hnow
      · obtain ⟨hu, hp⟩ := hs.bound e he c u hopen
        rw [hpoint] at hp
        exact ⟨hp, hu.trans ((hs.sleepsOut e he deadline a hpoint).trans hnow)⟩
    refine ⟨htime, fun e' he' r hr => ?_, fun e' he' => (hkeep e' he').1,
      fun e' he' => (hkeep e' he').2, fun e' he' c u hopen => ?_⟩
    · have hr' : r ∈ (starts (s.trace ++ seen e env m out)).getLast? := hr
      rw [hseen, starts_append, List.getLast?_append] at hr'
      obtain rfl : _ = r := Option.some.inj hr'
      rcases h.lastAttempt e' he' with ⟨-, -, hlast⟩ | ⟨hsilent, -⟩
      · exact hlast
      · exact absurd hev (hsilent rpc)
    · have hopen' : Unanswered (s.trace ++ seen e env m out) c u := hopen
      rw [hseen] at hopen'
      exact absurd hopen' not_unanswered_start
  · refine ⟨?_, fun e' he' r hr => ?_, fun e' he' => (hkeep e' he').1,
      fun e' he' => (hkeep e' he').2, fun e' he' c u hopen => ?_⟩
    · show OnTime (s.trace ++ seen e env m out)
      rw [hseen]
      exact hs.onTime.reply
    · have hr' : r ∈ (starts (s.trace ++ seen e env m out)).getLast? := hr
      rw [hseen, starts_append] at hr'
      rw [hattempt hsilent e' he']
      exact hs.last e he r (by simpa [starts] using hr')
    · have hopen' : Unanswered (s.trace ++ seen e env m out) c u := hopen
      rw [hseen] at hopen'
      rcases unanswered_reply hopen' with ⟨rfl, rfl⟩ | hold
      · exact hbound e' he'
      · exact h.bound (hs.bound e he c u hold) hsilent e' he'
  · rw [hseen, List.append_nil]
    exact ⟨hs.onTime, fun e' he' r hr => (hattempt hsilent e' he').trans (hs.last e he r hr),
      fun e' he' => (hkeep e' he').1, fun e' he' => (hkeep e' he').2,
      fun e' he' c u hopen => h.bound (hs.bound e he c u hopen) hsilent e' he'⟩

end Move

variable {s s' : TimedRun} {l : TimedLabel} {ls : List TimedLabel}

theorem requestResume_same (e : Executor) :
    e.requestResume.scheduler = e.scheduler ∧ e.requestResume.point = e.point := by
  rw [Executor.requestResume]
  split
  · exact ⟨rfl, rfl⟩
  · exact ⟨rfl, rfl⟩

/-- **One step** is on time. -/
theorem Timed.step (hs : Timed s) (h : s.step l = some s') : Timed s' := by
  cases l with
  | move m env =>
      obtain ⟨e, he, h⟩ := Option.bind_eq_some_iff.mp h
      split_ifs at h with hclock
      obtain ⟨out, hout, rfl⟩ := Option.map_eq_some_iff.mp h
      exact hs.move he (Executor.transition_of_step hout)
  | resume =>
      obtain ⟨e, he, rfl⟩ := Option.map_eq_some_iff.mp h
      obtain ⟨hscheduler, hpoint⟩ := requestResume_same e
      refine ⟨hs.onTime, fun f hf => ?_, fun f hf => ?_, fun f hf => ?_, fun f hf => ?_⟩
      · obtain rfl := Option.some.inj hf
        rw [hscheduler]
        exact hs.last e he
      · obtain rfl := Option.some.inj hf
        rw [Executor.SleepsOut, hscheduler, hpoint]
        exact hs.sleepsOut e he
      · obtain rfl := Option.some.inj hf
        rw [Executor.SleepsInterval, hscheduler, hpoint]
        exact hs.sleepsInterval e he
      · obtain rfl := Option.some.inj hf
        intro c u hopen
        rw [Executor.Bound, hscheduler, hpoint]
        exact hs.bound e he c u hopen

theorem timed_start (id : JobId) (account : AccountId) (target : Telegram.GroupContext)
    (action : Action) (realClock : Bool) (scheduler : InviteScheduler) (now : ℕ) :
    Timed (start id account target action realClock scheduler now) where
  onTime := ⟨List.isChain_nil, fun r hr => absurd hr List.not_mem_nil,
    fun pre c t wait post heq => absurd heq (by simp [start])⟩
  last := fun e _ r hr => absurd hr (by simp [start, starts])
  sleepsOut := by
    intro e he deadline a hpoint
    obtain rfl := Option.some.inj he
    exact absurd hpoint (by simp)
  sleepsInterval := by
    intro e he deadline a t hpoint
    obtain rfl := Option.some.inj he
    exact absurd hpoint (by simp)
  bound := by
    rintro e - c u ⟨pre, t, wait, post, heq, -⟩
    exact absurd heq (by simp [start])

/-- **The RPCs of a run are on time**: each starts the interval that the scheduler has then after
the one before, not before the deadline of the server, and after a RATE_LIMIT reply the next one is
for the same candidate and starts when the wait is over. -/
theorem rpcs_on_time (id : JobId) (account : AccountId) (target : Telegram.GroupContext)
    (action : Action) (realClock : Bool) (scheduler : InviteScheduler) (now : ℕ)
    (hrun : runLabels step (start id account target action realClock scheduler now) ls = some s) :
    OnTime s.trace :=
  (invariant_runLabels (C := fun _ _ => True) (fun _ _ _ hs _ hstep => Timed.step hs hstep)
    (timed_start id account target action realClock scheduler now)
    (along_of_forall_mem fun _ _ => trivial) hrun).onTime

/-- The surroundings at `now`, with one job of two candidates. -/
def quietAt (now : ℕ) : Env where
  now := now
  mono := now
  utc := now
  db := smallDatabase [persist 1 1 [1, 2] .invite]
  lockFree := true
  future := 0

/-- Moves at one reading of the clock. -/
def movesAt (now : ℕ) (ms : List Move) : List TimedLabel := ms.map fun m => .move m (quietAt now)

/-- A statement with its write. -/
def committedWrite : List Move := [.execute, .resumed (.ok ())]

/-- A reply of seven seconds to the first RPC, on an interval of three, and the second RPC. -/
def limitedOnce : List TimedLabel :=
  movesAt 0 ([.advance] ++ committedWrite ++ committedWrite ++ [.advance, .read] ++
      List.replicate 7 .advance) ++
    movesAt second ([.answer (some ⟨.rateLimit, "wait", some 7⟩), .execute] ++ committedWrite ++
      committedWrite ++ committedWrite ++ committedWrite ++ [.advance]) ++
    movesAt (8 * second) ([.advance] ++ committedWrite ++ committedWrite ++ [.advance, .advance])

theorem rpcs_on_time_limited :
    ∃ scheduler s, InviteScheduler.new (3 * second) = some scheduler ∧
      runLabels step (start 0 1 ⟨500, some 600, .channel, 1⟩ .invite false scheduler 0)
        limitedOnce = some s ∧
      (starts s.trace).map (fun r => (r.candidate.ordinal, r.time)) =
        [(0, 0), (0, 8 * second)] ∧ OnTime s.trace := by
  have hall : (runLabels step (start 0 1 ⟨500, some 600, .channel, 1⟩ .invite false
      ⟨3 * second, 3 * second, none, 0, []⟩ 0) limitedOnce).map (fun s =>
        (starts s.trace).map fun r => (r.candidate.ordinal, r.time)) =
      some [(0, 0), (0, 8 * second)] := by decide +kernel
  obtain ⟨s, hs, hstarts⟩ := Option.map_eq_some_iff.mp hall
  exact ⟨_, s, by decide, hs, hstarts, rpcs_on_time 0 1 _ _ _ _ 0 hs⟩

end TimedRun
end Runtime
end MigrationStudio
