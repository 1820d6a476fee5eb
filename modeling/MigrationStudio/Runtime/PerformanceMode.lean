import MigrationStudio.Migration.Planner
import MigrationStudio.Migration.Transitions
import MigrationStudio.Runtime.Application

/-!
# `runtime/resource_governor.py`: Performance Mode

A call of `run` counts itself among the users of Performance Mode before its first `await`, and
takes itself out in its `finally`.  The `try` that this `finally` belongs to begins behind the two
status writes and `buffer.prime()`, and the `finally` itself awaits the background flush first.

* `Runs`: the governor and the executor objects of a session, each with its `_running_job_id` and
  with how far its call of `run` is.
* `Runs.step`: a step of a run in any surroundings, an exception at an `await`, a cancellation, the
  end of the `finally`.
* `Freed`: a call that is over has left nothing behind.
* `performance_mode_freed_iff`: every call leaves nothing behind exactly when none fails or is
  cancelled before its `try`, and none is cancelled in its `finally`.
-/

namespace MigrationStudio
namespace Runtime

open Foundations MigrationStudio.Core Storage Migration

/-- `ResourceGovernor`, without its locks. -/
structure Governor where
  performanceUsers : ℕ
  deriving DecidableEq

namespace Governor

/-- `performance_mode`. -/
def performanceMode (g : Governor) : Bool := 0 < g.performanceUsers

/-- `enable_performance_mode`. -/
def enablePerformanceMode (g : Governor) : Governor := ⟨g.performanceUsers + 1⟩

/-- `disable_performance_mode`. -/
def disablePerformanceMode (g : Governor) : Governor := ⟨g.performanceUsers - 1⟩

end Governor

/-- How far a call of `run` is: it is over or has not been made, it is in front of its `finally`, or
it awaits the cancelled background flush there. -/
inductive Stage where
  | resting
  | running (e : Executor)
  | closing

/-- A `MigrationExecutor`. -/
structure ExecutorObject where
  runningJobId : Option JobId
  stage : Stage

/-- The governor and the executors. -/
structure Runs where
  governor : Governor
  objects : List ExecutorObject

/-- An executor is made; `run` is called on one; its coroutine moves; what it awaits beside a write
raises; its task is cancelled; the background flush that its `finally` awaits is over. -/
inductive RunLabel where
  | create
  | call (i : ℕ) (id : JobId) (account : AccountId) (target : Telegram.GroupContext)
      (action : Action) (realClock : Bool) (scheduler : InviteScheduler)
  | move (i : ℕ) (m : Move) (env : Env)
  | raises (i : ℕ) (message : String)
  | cancel (i : ℕ)
  | closed (i : ℕ)

/-- A call of `run` on the executor is not over. -/
def ExecutorObject.active (o : ExecutorObject) : Bool :=
  match o.stage with
  | .resting => false
  | _ => true

/-- The part of `run` in front of its `try`. -/
def inSetup (e : Executor) : Bool :=
  match e.point with
  | .created | .prime => true
  | _ => false

/-- The coroutine awaits a read of the candidate window, or the mutation lock. -/
def awaitsOther (e : Executor) : Bool :=
  e.awaiting.isNone && e.todo.isEmpty &&
    match e.point with
    | .prime | .pop => e.buffer.loading.isSome
    | .acquire => true
    | _ => false

namespace Runs

/-- The executor after a step of its run. -/
def put (s : Runs) (i : ℕ) (o : ExecutorObject) : Runs := { s with objects := s.objects.set i o }

/-- The `finally` from `disable_performance_mode` on. -/
def release (s : Runs) (i : ℕ) : Runs where
  governor := s.governor.disablePerformanceMode
  objects := s.objects.set i ⟨none, .resting⟩

/-- The coroutine leaves the code that it is in, with the state `e`: out of `run`, or to the
`finally`, which awaits the background flush unless there is none. -/
def leaves (s : Runs) (i : ℕ) (o : ExecutorObject) (e : Executor) : Runs :=
  if inSetup e then s.put i { o with stage := .resting }
  else if e.flushTask = .idle then s.release i
  else s.put i { o with stage := .closing }

/-- The coroutine goes on, or leaves. -/
def goesOn (s : Runs) (i : ℕ) (o : ExecutorObject) (e : Executor) : Option Executor → Runs
  | some e' => s.put i { o with stage := .running e' }
  | none => s.leaves i o e

/-- One step. -/
def step (s : Runs) : RunLabel → Option Runs
  | .create => some { s with objects := s.objects ++ [⟨none, .resting⟩] }
  | .call i id account target action realClock scheduler =>
      (s.objects[i]?).map fun o =>
        if o.runningJobId.isSome then s
        else
          { governor := s.governor.enablePerformanceMode
            objects := s.objects.set i ⟨some id, .running
              { jobId := id
                accountId := account
                target := target
                action := action
                realClock := realClock
                scheduler := scheduler }⟩ }
  | .move i m env =>
      (s.objects[i]?).bind fun o =>
        match o.stage with
        | .running e => (e.step env m).map fun out => s.goesOn i o e out.executor
        | _ => none
  | .raises i message =>
      (s.objects[i]?).bind fun o =>
        match o.stage with
        | .running e => if awaitsOther e then some (s.goesOn i o e (e.raise message)) else none
        | _ => none
  | .cancel i =>
      (s.objects[i]?).bind fun o =>
        match o.stage with
        | .running e => some (s.leaves i o e)
        | .closing => some (s.put i { o with stage := .resting })
        | .resting => none
  | .closed i =>
      (s.objects[i]?).bind fun o =>
        match o.stage with
        | .closing => some (s.release i)
        | _ => none

/-- A session without executors. -/
def start : Runs := ⟨⟨0⟩, []⟩

/-- **A call that is over has left nothing behind**: the executor is free for the next call, each
call counts once as long as it lasts, and Performance Mode is off when there is none. -/
structure Freed (s : Runs) : Prop where
  ids : ∀ o ∈ s.objects, o.active = false → o.runningJobId = none
  users : s.governor.performanceUsers = s.objects.countP ExecutorObject.active
  idle : (∀ o ∈ s.objects, o.active = false) → s.governor.performanceMode = false

/-- A call fails or is cancelled in front of its `try`, or is cancelled in its `finally`. -/
def Escapes (s : Runs) : RunLabel → Prop
  | .move i m _ => ∃ o e message, s.objects[i]? = some o ∧ o.stage = .running e ∧
      inSetup e = true ∧ m = .resumed (.error message)
  | .raises i _ => ∃ o e, s.objects[i]? = some o ∧ o.stage = .running e ∧ inSetup e = true
  | .cancel i => ∃ o, s.objects[i]? = some o ∧
      ((∃ e, o.stage = .running e ∧ inSetup e = true) ∨ o.stage = .closing)
  | _ => False

variable {s s' : Runs} {l : RunLabel} {ls : List RunLabel} {i : ℕ} {o o' : ExecutorObject}
  {e : Executor}

/-! ## Counting -/

/-- What one executor more or less is among those that are active. -/
theorem countP_put (ho : s.objects[i]? = some o) (o' : ExecutorObject) :
    (s.objects.set i o').countP ExecutorObject.active + (if o.active then 1 else 0) =
      s.objects.countP ExecutorObject.active + (if o'.active then 1 else 0) := by
  obtain ⟨hlt, hget⟩ := List.getElem?_eq_some_iff.mp ho
  rw [List.countP_set hlt, hget]
  by_cases hactive : o.active = true
  · have hpos : 0 < s.objects.countP ExecutorObject.active :=
      List.countP_pos_iff.mpr ⟨o, List.mem_of_getElem? ho, hactive⟩
    rw [if_pos hactive]
    omega
  · rw [if_neg hactive]
    omega

theorem mem_put {q : ExecutorObject} (hq : q ∈ s.objects.set i o') : q ∈ s.objects ∨ q = o' :=
  List.mem_or_eq_of_mem_set hq

/-- The users and the executors that are free say the rest. -/
theorem freed_of_users (hids : ∀ o ∈ s.objects, o.active = false → o.runningJobId = none)
    (husers : s.governor.performanceUsers = s.objects.countP ExecutorObject.active) : Freed s where
  ids := hids
  users := husers
  idle := by
    intro hidle
    have hzero : s.objects.countP ExecutorObject.active = 0 :=
      List.countP_eq_zero.mpr fun o ho => by simp [hidle o ho]
    simp [Governor.performanceMode, husers, hzero]

/-! ## The steps -/

/-- An active executor has its job. -/
def Occupied (s : Runs) : Prop :=
  ∀ o ∈ s.objects, o.active = true → o.runningJobId.isSome

/-- An executor without a call has still its job. -/
def Stuck (s : Runs) : Prop :=
  ∃ (i : ℕ) (o : ExecutorObject), s.objects[i]? = some o ∧ o.stage = .resting ∧
    o.runningJobId.isSome

theorem Stuck.not_freed (h : Stuck s) : ¬ Freed s := by
  obtain ⟨i, o, ho, hrest, hsome⟩ := h
  intro hf
  rw [hf.ids o (List.mem_of_getElem? ho) (by rw [ExecutorObject.active, hrest])] at hsome
  exact absurd hsome (by simp)

/-- The steps of a session. -/
inductive Case (s : Runs) (l : RunLabel) : Runs → Prop
  | created : Case s l { s with objects := s.objects ++ [⟨none, .resting⟩] }
  | refused : Case s l s
  | called {i : ℕ} {o : ExecutorObject} {id : JobId} {e : Executor} (ho : s.objects[i]? = some o)
      (hfree : o.runningJobId = none) :
      Case s l ⟨s.governor.enablePerformanceMode, s.objects.set i ⟨some id, .running e⟩⟩
  | moved {i : ℕ} {o : ExecutorObject} {e e' : Executor} (ho : s.objects[i]? = some o)
      (hstage : o.stage = .running e) : Case s l (s.put i { o with stage := .running e' })
  | left {i : ℕ} {o : ExecutorObject} {e : Executor} (ho : s.objects[i]? = some o)
      (hstage : o.stage = .running e) (hescape : inSetup e = true → Escapes s l) :
      Case s l (s.leaves i o e)
  | abandoned {i : ℕ} {o : ExecutorObject} (ho : s.objects[i]? = some o)
      (hstage : o.stage = .closing) (hescape : Escapes s l) :
      Case s l (s.put i { o with stage := .resting })
  | closed {i : ℕ} {o : ExecutorObject} (ho : s.objects[i]? = some o)
      (hstage : o.stage = .closing) : Case s l (s.release i)

/-- In front of the `try` a coroutine ends by an exception only. -/
theorem inSetup_ends {env : Env} {m : Move} {out : Outcome} (h : e.step env m = some out)
    (hsetup : inSetup e = true) (hnone : out.executor = none) :
    ∃ message, m = .resumed (.error message) := by
  cases Executor.transition_of_step h with
  | raised haw message => exact ⟨message, rfl⟩
  | leave hset hpoint | publish hset hpoint | failed hset hpoint =>
      rw [inSetup, hpoint] at hsetup
      exact absurd hsetup (by simp)
  | _ => exact absurd hnone (by simp)

theorem raise_of_inSetup (hsetup : inSetup e = true) (message : String) :
    e.raise message = none := by
  unfold inSetup at hsetup
  unfold Executor.raise
  split at hsetup <;> simp_all

theorem Case.goesOn (ho : s.objects[i]? = some o) (hstage : o.stage = .running e)
    {next : Option Executor} (hescape : next = none → inSetup e = true → Escapes s l) :
    Case s l (s.goesOn i o e next) := by
  cases next with
  | none => exact .left ho hstage (hescape rfl)
  | some e' => exact .moved ho hstage

/-- **A session does nothing else.** -/
theorem step_cases (h : s.step l = some s') : Case s l s' := by
  cases l with
  | create => exact Option.some.inj h ▸ .created
  | call i id account target action realClock scheduler =>
      obtain ⟨o, ho, rfl⟩ := Option.map_eq_some_iff.mp h
      split
      · exact .refused
      · rename_i hfree
        exact .called ho (by simpa using hfree)
  | move i m env =>
      obtain ⟨o, ho, h⟩ := Option.bind_eq_some_iff.mp h
      split at h
      · rename_i e hstage
        obtain ⟨out, hout, rfl⟩ := Option.map_eq_some_iff.mp h
        refine Case.goesOn ho hstage fun hnone hsetup => ?_
        obtain ⟨message, rfl⟩ := inSetup_ends hout hsetup hnone
        exact ⟨o, e, message, ho, hstage, hsetup, rfl⟩
      · exact absurd h (by simp)
  | raises i message =>
      obtain ⟨o, ho, h⟩ := Option.bind_eq_some_iff.mp h
      split at h
      · rename_i e hstage
        split_ifs at h with hawaits
        exact Option.some.inj h ▸ Case.goesOn ho hstage fun _ hsetup => ⟨o, e, ho, hstage, hsetup⟩
      · exact absurd h (by simp)
  | cancel i =>
      obtain ⟨o, ho, h⟩ := Option.bind_eq_some_iff.mp h
      split at h
      · rename_i e hstage
        exact Option.some.inj h ▸
          .left ho hstage fun hsetup => ⟨o, ho, Or.inl ⟨e, hstage, hsetup⟩⟩
      · rename_i hstage
        exact Option.some.inj h ▸ .abandoned ho hstage ⟨o, ho, Or.inr hstage⟩
      · exact absurd h (by simp)
  | closed i =>
      obtain ⟨o, ho, h⟩ := Option.bind_eq_some_iff.mp h
      split at h
      · rename_i hstage
        exact Option.some.inj h ▸ .closed ho hstage
      · exact absurd h (by simp)

/-- An executor that is put has its job if it is active. -/
theorem Occupied.put (hs : Occupied s) {g : Governor}
    (ho' : o'.active = true → o'.runningJobId.isSome) : Occupied ⟨g, s.objects.set i o'⟩ := by
  intro q hq hactive
  rcases mem_put hq with hq | rfl
  · exact hs q hq hactive
  · exact ho' hactive

theorem Occupied.step (hs : Occupied s) (h : s.step l = some s') : Occupied s' := by
  have hrunning : ∀ {i : ℕ} {o : ExecutorObject} {e : Executor}, s.objects[i]? = some o →
      o.stage = .running e → o.runningJobId.isSome := by
    intro i o e ho hstage
    exact hs o (List.mem_of_getElem? ho) (by rw [ExecutorObject.active, hstage])
  cases step_cases h with
  | created =>
      intro q hq hactive
      rcases List.mem_append.mp hq with hq | hq
      · exact hs q hq hactive
      · rw [List.mem_singleton.mp hq] at hactive
        exact absurd hactive (by simp [ExecutorObject.active])
  | refused => exact hs
  | called ho hfree => exact hs.put fun _ => rfl
  | moved ho hstage =>
      have hsome := hrunning ho hstage
      exact hs.put fun _ => hsome
  | left ho hstage hescape =>
      have hsome := hrunning ho hstage
      unfold leaves
      split
      · exact hs.put fun hactive => absurd hactive (by simp [ExecutorObject.active])
      · split
        · exact hs.put fun hactive => absurd hactive (by simp [ExecutorObject.active])
        · exact hs.put fun _ => hsome
  | abandoned ho hstage hescape =>
      exact hs.put fun hactive => absurd hactive (by simp [ExecutorObject.active])
  | closed ho hstage =>
      exact hs.put fun hactive => absurd hactive (by simp [ExecutorObject.active])

/-- What a step makes of one executor and of the users. -/
theorem Freed.put (hs : Freed s) (ho : s.objects[i]? = some o) {g : Governor}
    (hfree : o'.active = false → o'.runningJobId = none)
    (husers : g.performanceUsers + (if o.active then 1 else 0) =
      s.governor.performanceUsers + (if o'.active then 1 else 0)) :
    Freed ⟨g, s.objects.set i o'⟩ := by
  refine freed_of_users (fun q hq hidle => ?_) ?_
  · rcases mem_put hq with hq | rfl
    · exact hs.ids q hq hidle
    · exact hfree hidle
  · have hcount := countP_put ho o'
    have hbefore := hs.users
    show g.performanceUsers = (s.objects.set i o').countP ExecutorObject.active
    omega

/-- The end of a `finally`. -/
theorem Freed.release (hs : Freed s) (ho : s.objects[i]? = some o) (hactive : o.active = true) :
    Freed (s.release i) := by
  have hpos : 0 < s.governor.performanceUsers := by
    rw [hs.users]
    exact List.countP_pos_iff.mpr ⟨o, List.mem_of_getElem? ho, hactive⟩
  refine hs.put ho (fun _ => rfl) ?_
  rw [if_pos hactive]
  show s.governor.performanceUsers - 1 + 1 = s.governor.performanceUsers + 0
  omega

/-- **One step** in which no call escapes its `finally`. -/
theorem Freed.step (hs : Freed s) (hocc : Occupied s) (hnot : ¬ Escapes s l)
    (h : s.step l = some s') : Freed s' := by
  cases step_cases h with
  | created =>
      refine freed_of_users (fun q hq hidle => ?_) ?_
      · rcases List.mem_append.mp hq with hq | hq
        · exact hs.ids q hq hidle
        · rw [List.mem_singleton.mp hq]
      · show s.governor.performanceUsers = _
        rw [List.countP_append, ← hs.users]
        rfl
  | refused => exact hs
  | @called i o id e ho hfree =>
      have hidle : o.active = false := by
        by_contra hactive
        have hsome := hocc o (List.mem_of_getElem? ho) (by simpa using hactive)
        rw [hfree] at hsome
        exact absurd hsome (by simp)
      refine hs.put ho (fun hactive => absurd hactive (by simp [ExecutorObject.active])) ?_
      rw [hidle]
      rfl
  | @moved i o e e' ho hstage =>
      have hactive : o.active = true := by rw [ExecutorObject.active, hstage]
      refine hs.put ho (fun hidle => absurd hidle (by simp [ExecutorObject.active])) ?_
      rw [hactive]
      rfl
  | @left i o e ho hstage hescape =>
      have hactive : o.active = true := by rw [ExecutorObject.active, hstage]
      unfold leaves
      split
      · exact absurd (hescape ‹_›) hnot
      · split
        · exact hs.release ho hactive
        · refine hs.put ho (fun hidle => absurd hidle (by simp [ExecutorObject.active])) ?_
          rw [hactive]
          rfl
  | abandoned ho hstage hescape => exact absurd hescape hnot
  | @closed i o ho hstage =>
      exact hs.release ho (by rw [ExecutorObject.active, hstage])

/-! ## What escapes stays -/

/-- A step that lets a call escape leaves its executor with the job. -/
theorem stuck_of_escapes (hocc : Occupied s) (hescapes : Escapes s l) (h : s.step l = some s') :
    Stuck s' := by
  have hstuck : ∀ {i : ℕ} {o : ExecutorObject}, s.objects[i]? = some o → o.active = true →
      Stuck (s.put i { o with stage := .resting }) := by
    intro i o ho hactive
    obtain ⟨hlt, -⟩ := List.getElem?_eq_some_iff.mp ho
    exact ⟨i, _, List.getElem?_set_self hlt, rfl, hocc o (List.mem_of_getElem? ho) hactive⟩
  cases l with
  | move i m env =>
      obtain ⟨o, e, message, ho, hstage, hsetup, rfl⟩ := hescapes
      have hactive : o.active = true := by rw [ExecutorObject.active, hstage]
      simp only [step, ho, Option.bind_some, hstage] at h
      obtain ⟨out, hout, rfl⟩ := Option.map_eq_some_iff.mp h
      obtain ⟨a, -, rfl⟩ := Option.map_eq_some_iff.mp hout
      show Stuck (s.goesOn i o e (e.raise message))
      rw [raise_of_inSetup hsetup]
      show Stuck (s.leaves i o e)
      rw [leaves, if_pos hsetup]
      exact hstuck ho hactive
  | raises i message =>
      obtain ⟨o, e, ho, hstage, hsetup⟩ := hescapes
      have hactive : o.active = true := by rw [ExecutorObject.active, hstage]
      simp only [step, ho, Option.bind_some, hstage] at h
      split_ifs at h with hawaits
      rw [← Option.some.inj h, raise_of_inSetup hsetup]
      show Stuck (s.leaves i o e)
      rw [leaves, if_pos hsetup]
      exact hstuck ho hactive
  | cancel i =>
      obtain ⟨o, ho, ⟨e, hstage, hsetup⟩ | hstage⟩ := hescapes
      · simp only [step, ho, Option.bind_some, hstage] at h
        rw [← Option.some.inj h, leaves, if_pos hsetup]
        exact hstuck ho (by rw [ExecutorObject.active, hstage])
      · simp only [step, ho, Option.bind_some, hstage] at h
        rw [← Option.some.inj h]
        exact hstuck ho (by rw [ExecutorObject.active, hstage])
  | create | call | closed => exact hescapes.elim

/-- A step that puts another executor leaves this one. -/
theorem Stuck.put {j : ℕ} (hs : ∃ o, s.objects[j]? = some o ∧ o.stage = .resting ∧
    o.runningJobId.isSome) (hne : i ≠ j) {g : Governor} : Stuck ⟨g, s.objects.set i o'⟩ := by
  obtain ⟨o, ho, hrest⟩ := hs
  exact ⟨j, o, (List.getElem?_set_ne hne).trans ho, hrest⟩

/-- **Nothing frees it.** -/
theorem Stuck.step (hs : Stuck s) (h : s.step l = some s') : Stuck s' := by
  obtain ⟨j, q, hq, hrest, hsome⟩ := hs
  have hne : ∀ {i : ℕ} {o : ExecutorObject}, s.objects[i]? = some o →
      (o.runningJobId = none ∨ o.stage ≠ .resting) → i ≠ j := by
    rintro i o ho hcase rfl
    obtain rfl := Option.some.inj (ho.symm.trans hq)
    rcases hcase with hnone | hactive
    · rw [hnone] at hsome
      exact absurd hsome (by simp)
    · exact hactive hrest
  have hself : ∃ o, s.objects[j]? = some o ∧ o.stage = .resting ∧ o.runningJobId.isSome :=
    ⟨q, hq, hrest, hsome⟩
  cases step_cases h with
  | created =>
      refine ⟨j, q, ?_, hrest, hsome⟩
      obtain ⟨hlt, -⟩ := List.getElem?_eq_some_iff.mp hq
      exact (List.getElem?_append_left hlt).trans hq
  | refused => exact ⟨j, hself⟩
  | called ho hfree => exact Stuck.put hself (hne ho (Or.inl hfree))
  | moved ho hstage => exact Stuck.put hself (hne ho (Or.inr (by simp [hstage])))
  | left ho hstage hescape =>
      have hij := hne ho (Or.inr (by simp [hstage]))
      unfold leaves
      split
      · exact Stuck.put hself hij
      · split
        · exact Stuck.put hself hij
        · exact Stuck.put hself hij
  | abandoned ho hstage hescape => exact Stuck.put hself (hne ho (Or.inr (by simp [hstage])))
  | closed ho hstage => exact Stuck.put hself (hne ho (Or.inr (by simp [hstage])))

/-! ## The exact condition -/

theorem occupied_start : Occupied start := fun _ ho => absurd ho List.not_mem_nil

theorem freed_start : Freed start := freed_of_users (fun _ ho => absurd ho List.not_mem_nil) rfl

theorem occupied_of_run (hocc : Occupied s) (hrun : runLabels step s ls = some s') : Occupied s' :=
  invariant_runLabels (C := fun _ _ => True) (fun _ _ _ ho _ hstep => ho.step hstep) hocc
    (along_of_forall_mem fun _ _ => trivial) hrun

theorem stuck_of_run (hs : Stuck s) (hrun : runLabels step s ls = some s') : Stuck s' :=
  invariant_runLabels (C := fun _ _ => True) (fun _ _ _ ho _ hstep => ho.step hstep) hs
    (along_of_forall_mem fun _ _ => trivial) hrun

/-- **Every call leaves nothing behind** at the end of a session exactly when no call has failed or
been cancelled in front of its `try`, or been cancelled in its `finally`. -/
theorem performance_mode_freed_iff (hrun : runLabels step start ls = some s) :
    Freed s ↔ Along step (fun s l => ¬ Escapes s l) start ls := by
  constructor
  · intro hfreed
    by_contra hnot
    obtain ⟨pre, l, post, t, t', rfl, hpre, -, hescapes, hstep⟩ := exists_first_failure hrun hnot
    have hstuck := stuck_of_escapes (occupied_of_run occupied_start hpre) (not_not.mp hescapes)
      hstep
    obtain ⟨u, hu, hrest⟩ := runLabels_append_eq_some.mp hrun
    obtain rfl := Option.some.inj (hpre.symm.trans hu)
    obtain ⟨v, hv, hpost⟩ := runLabels_cons_eq_some.mp hrest
    obtain rfl := Option.some.inj (hstep.symm.trans hv)
    exact (stuck_of_run hstuck hpost).not_freed hfreed
  · intro hcond
    exact (invariant_runLabels (I := fun t => Freed t ∧ Occupied t)
      (fun _ _ _ hI hC hstep => ⟨hI.1.step hI.2 hC hstep, hI.2.step hstep⟩)
      ⟨freed_start, occupied_start⟩ hcond hrun).1

/-- A database with one job of one candidate. -/
def oneCandidate : Env where
  now := 0
  mono := 0
  utc := 0
  db := smallDatabase [persist 1 1 [1] .invite]
  lockFree := true
  future := 0

/-- An executor is made and called. -/
def called : List RunLabel :=
  [.create, .call 0 0 1 ⟨500, some 600, .channel, 1⟩ .invite true ⟨0, 0, none, 0, []⟩]

/-- The moves of the only executor. -/
def movesOfFirst (ms : List Move) : List RunLabel := ms.map fun m => .move 0 m oneCandidate

/-- A call that is cancelled while it waits for the mutation lock. -/
def cancelledForLock : List RunLabel :=
  called ++ movesOfFirst [.advance, .execute, .resumed (.ok ()), .execute, .resumed (.ok ()),
    .advance, .read, .advance, .advance] ++ [.cancel 0]

theorem performance_mode_freed_for_lock :
    ∃ s, runLabels step start cancelledForLock = some s ∧
      s.governor.performanceMode = false ∧
      Along step (fun s l => ¬ Escapes s l) start cancelledForLock := by
  have hall : (runLabels step start cancelledForLock).map (fun s =>
      (s.governor.performanceUsers, s.objects.map fun o => (o.active, o.runningJobId))) =
      some (0, [(false, none)]) := by decide +kernel
  obtain ⟨s, hs, hend⟩ := Option.map_eq_some_iff.mp hall
  obtain ⟨husers, hobjects⟩ := Prod.mk.inj hend
  have hids : ∀ o ∈ s.objects, o.active = false ∧ o.runningJobId = none := by
    intro o ho
    have hmem := List.mem_map_of_mem (f := fun o => (o.active, o.runningJobId)) ho
    rw [hobjects, List.mem_singleton] at hmem
    exact Prod.mk.inj hmem
  have hcount : s.objects.countP ExecutorObject.active = 0 :=
    List.countP_eq_zero.mpr fun o ho => by simp [(hids o ho).1]
  refine ⟨s, hs, by rw [Governor.performanceMode, husers]; rfl, ?_⟩
  exact (performance_mode_freed_iff hs).mp
    (freed_of_users (fun o ho _ => (hids o ho).2) (husers.trans hcount.symm))

/-- The first status write of a call fails: the call is over, its executor has the job for ever, and
Performance Mode stays on. -/
theorem performance_mode_after_failure :
    ∃ s, runLabels step start
        (called ++ movesOfFirst [.advance, .execute, .resumed (.error "disk I/O error")]) =
        some s ∧ (∀ o ∈ s.objects, o.active = false) ∧ s.governor.performanceMode = true ∧
      ¬ Freed s := by
  have hall : (runLabels step start
      (called ++ movesOfFirst [.advance, .execute, .resumed (.error "disk I/O error")])).map
        (fun s => (s.governor.performanceUsers, s.objects.map ExecutorObject.active)) =
      some (1, [false]) := by decide +kernel
  obtain ⟨s, hs, hend⟩ := Option.map_eq_some_iff.mp hall
  obtain ⟨husers, hobjects⟩ := Prod.mk.inj hend
  have hidle : ∀ o ∈ s.objects, o.active = false := by
    intro o ho
    have hmem := List.mem_map_of_mem (f := ExecutorObject.active) ho
    rwa [hobjects, List.mem_singleton] at hmem
  have hmode : s.governor.performanceMode = true := by
    rw [Governor.performanceMode, husers]
    rfl
  refine ⟨s, hs, hidle, hmode, fun hfreed => ?_⟩
  rw [hfreed.idle hidle] at hmode
  exact absurd hmode (by simp)

end Runs
end Runtime
end MigrationStudio
