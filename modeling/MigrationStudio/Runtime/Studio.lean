import MigrationStudio.Migration.Outlook
import MigrationStudio.Runtime.Ownership

/-!
# All the jobs of the program

`App` is the program as the migrations see it.  The studio adds the other jobs, which share the
table, the write lane and the network loop with them: the calls of `ParticipantScanner.scan`, and
the imports, the exports and the pre-checks.

A command of the user hands a coroutine over to the network loop, which begins the coroutines in
that order; `resume_scan` reads the row of the job first, and in between the loop and the writer go
on.  A call of `scan` registers its event under the job and is named by that event.  Of its body
the model keeps what it awaits: the two writes before `try`, any number of ingests and checkpoints,
the final state and the last event.  A failure of the pages may come at any time in between.

The rows of the jobs to come are in the table from the beginning, in the state in which they are
created, and nothing looks at them before.  The events of the jobs, the ingests and the checkpoints
of the scans are writes of the rest of the database; a scan's checkpoint has no key that the model
keeps.

* `ScanCall.step`: one step of a call of `scan`, with what it submits.
* `Studio.step`: one step of the program.
* `CallTransition`, `Studio.Step`: the cases, with their guards.
-/

namespace MigrationStudio
namespace Runtime

open Foundations MigrationStudio.Core Accounts Jobs Telegram Storage Migration

/-! ## A call of `scan` -/

/-- Where a call of `scan` stands: RUNNING or the first event is submitted, the pages are read, or
the final state, the last event, FAILED or its event is submitted. -/
inductive CallPoint where
  | announcing | started | scanning | finishing | reporting | failing | reportingFailure
  deriving DecidableEq, Repr

/-- A call of `scan`: `awaiting` is the future that it awaits, `cancelRequested` its event. -/
structure ScanCall where
  job : JobId
  point : CallPoint
  awaiting : Option ℕ
  cancelRequested : Bool
  deriving DecidableEq, Repr

/-- What a step of a call leaves: the call, unless it is over, the write that it submits, whether
that is critical, and whether `finally` has removed an event. -/
structure CallOutcome where
  call : Option ScanCall
  write : Option LaneWrite := none
  critical : Bool := true
  pops : Bool := false

/-- How a call goes on: an awaited future is resolved, a batch is written, the pages are over, or
the task group fails. -/
inductive CallMove where
  | resumed (result : Except String Unit)
  | persist (critical : Bool)
  | finish
  | raise

/-- `submit_set_state` of a scan. -/
def scanState (job : JobId) (state : JobState) : LaneWrite :=
  .job job (.setState state none (some {}) false)

namespace ScanCall

/-- The call awaits the write that it submits. -/
def await (c : ScanCall) (future : ℕ) (p : CallPoint) : ScanCall :=
  { c with point := p, awaiting := some future }

/-- `scan` up to its first `await`. -/
def begin (job : JobId) (future : ℕ) : ScanCall := ⟨job, .announcing, some future, false⟩

/-- The `except` branch. -/
def fail (c : ScanCall) (future : ℕ) : CallOutcome :=
  { call := some (c.await future .failing), write := some (scanState c.job .failed) }

/-- `CANCELLED if cp.cancelled else COMPLETED`; the flag of the checkpoint is set only after the
event, which is never cleared. -/
def finalState (c : ScanCall) : JobState :=
  if c.cancelRequested then .cancelled else .completed

/-- The awaited future is resolved.  Before `try` an exception ends the call, and its event stays in
the dictionary. -/
def resumed (c : ScanCall) (future : ℕ) : Except String Unit → CallOutcome
  | .ok () =>
      match c.point with
      | .announcing => { call := some (c.await future .started), write := some .other }
      | .started => { call := some { c with point := .scanning, awaiting := none } }
      | .scanning => { call := some { c with awaiting := none } }
      | .finishing => { call := some (c.await future .reporting), write := some .other }
      | .failing => { call := some (c.await future .reportingFailure), write := some .other }
      | .reporting | .reportingFailure => { call := none, pops := true }
  | .error _ =>
      match c.point with
      | .announcing | .started => { call := none }
      | .scanning | .finishing | .reporting => c.fail future
      | .failing | .reportingFailure => { call := none, pops := true }

/-- One step of a call; `future` is the next future of the writer. -/
def step (c : ScanCall) (future : ℕ) : CallMove → Option CallOutcome
  | .resumed r => c.awaiting.map fun _ => c.resumed future r
  | .persist critical =>
      if c.point = .scanning ∧ c.awaiting = none then
        some
          { call := some (c.await future .scanning)
            write := some .other
            critical := critical }
      else none
  | .finish =>
      if c.point = .scanning ∧ c.awaiting = none then
        some
          { call := some (c.await future .finishing)
            write := some (scanState c.job c.finalState) }
      else none
  | .raise => if c.point = .scanning then some (c.fail future) else none

end ScanCall

/-! ## The program -/

/-- A coroutine that is handed over to the network loop and not yet begun. -/
inductive NetworkTask where
  | scan (job : JobId)
  | cancel (job : JobId)
  deriving DecidableEq, Repr

/-- The program with all its jobs.  `prepared` are the scans whose row is created and whose
coroutine is not yet handed over; `opened` the imports, exports and pre-checks under way;
`resuming` the job for which `resume_scan` has passed its checks; `calls` the calls of `scan`, by
event. -/
structure Studio where
  app : App
  coming : List JobId
  prepared : List JobId
  opened : List JobId
  resuming : Option JobId
  inbox : List NetworkTask
  calls : ℕ → Option ScanCall
  next : ℕ
  cancelEvents : JobId → Option ℕ

/-- Who moves, and with which outside choice. -/
inductive StudioLabel where
  | app (l : Label)
  | create (job : JobId)
  | scanSource (job : JobId)
  | resumeScan (job : JobId)
  | submitScan
  | cancelScan (job : JobId)
  | network (fails : Option String)
  | resumed (event : ℕ) (fails : Option String)
  | persist (event : ℕ) (critical : Bool) (fails : Option String)
  | finish (event : ℕ) (fails : Option String)
  | raise (event : ℕ) (fails : Option String)
  | close (job : JobId) (final : JobState) (fails : Option String)
  | endJob (job : JobId)

/-- The state in which a job is created. -/
def creationState : JobType → JobState
  | .migration | .scan => .ready
  | _ => .running

/-- The job of a scan that waits for the loop. -/
def NetworkTask.scanned : NetworkTask → Option JobId
  | .scan job => some job
  | .cancel _ => none

namespace Studio

/-- What is committed. -/
def db (s : Studio) : Database := s.app.db

/-- The program starts, with the rows of the jobs to come. -/
def start (db : Database) (now : ℕ) (coming : List JobId) : Studio where
  app := App.start db now
  coming := coming
  prepared := []
  opened := []
  resuming := none
  inbox := []
  calls := fun _ => none
  next := 0
  cancelEvents := fun _ => none

/-- The scans that are not begun. -/
def queued (s : Studio) : List JobId :=
  s.prepared ++ s.inbox.filterMap NetworkTask.scanned ++ s.resuming.toList

/-- A write is submitted. -/
def submit (s : Studio) (t : WriteTask) : Studio :=
  { s with app := { s.app with writer := s.app.writer.submit t } }

/-- The next future of the writer. -/
def future (s : Studio) : ℕ := s.app.writer.submitted.length

/-- `jobs.create`: the row is there, and its coroutine or worker. -/
def create (s : Studio) (job : JobId) : Option Studio :=
  if job ∈ s.coming then
    (s.db.jobs[job]?).bind fun row =>
      if row.state = creationState row.jobType then
        let s := { s with coming := s.coming.filter (· ≠ job) }
        match row.jobType with
        | .scan => some { s with prepared := s.prepared ++ [job] }
        | .migration => some s
        | .targetScan | .importFile | .exportFile => some { s with opened := s.opened ++ [job] }
        | .remove => none
      else none
  else none

/-- The checks of `resume_scan`. -/
def resumable (s : Studio) (job : JobId) : Bool :=
  job ∉ s.coming &&
    (s.db.jobs[job]?).any fun row =>
      row.jobType = .scan && row.state = .paused &&
        row.accountId.any fun account =>
          s.app.enabledAccount account &&
            row.targetGroupId.any fun group => (s.db.peers.getGroup group account).isSome

/-- `ParticipantScanner.cancel`: the event that is registered for the job is set. -/
def cancel (s : Studio) (job : JobId) : Studio :=
  match s.cancelEvents job with
  | none => s
  | some event =>
      { s with
        calls := Function.update s.calls event
          ((s.calls event).map fun c => { c with cancelRequested := true }) }

/-- `ParticipantScanner.scan` up to its first `await`. -/
def beginScan (s : Studio) (job : JobId) (fails : Option String) : Studio :=
  { s.submit (taskOf (scanState job .running) fails) with
    calls := Function.update s.calls s.next (some (.begin job s.future))
    next := s.next + 1
    cancelEvents := Function.update s.cancelEvents job (some s.next) }

/-- The program after a step of the call `c` with the event `event`. -/
def applyCall (s : Studio) (event : ℕ) (c : ScanCall) (out : CallOutcome)
    (fails : Option String) : Studio :=
  { s with
    app :=
      match out.write with
      | some w => { s.app with writer := s.app.writer.submit ⟨w, out.critical, fails⟩ }
      | none => s.app
    calls := Function.update s.calls event out.call
    cancelEvents :=
      if out.pops then Function.update s.cancelEvents c.job none else s.cancelEvents }

/-- What a call is told, and whether the write that it submits raises; what a future holds comes
from the writer. -/
def callMove (s : Studio) (c : ScanCall) : StudioLabel → Option (CallMove × Option String)
  | .resumed _ fails =>
      c.awaiting.bind fun k => (s.app.writer.future k).map fun r => (.resumed r, fails)
  | .persist _ critical fails => some (.persist critical, fails)
  | .finish _ fails => some (.finish, fails)
  | .raise _ fails => some (.raise, fails)
  | _ => none

/-- The event of the call that a label is about. -/
def callOf : StudioLabel → Option ℕ
  | .resumed event _ | .persist event _ _ | .finish event _ | .raise event _ => some event
  | _ => none

/-- One step of a call. -/
def stepCall (s : Studio) (l : StudioLabel) : Option Studio :=
  (callOf l).bind fun event =>
    (s.calls event).bind fun c =>
      (s.callMove c l).bind fun m =>
        (c.step s.future m.1).map fun out => s.applyCall event c out m.2

/-- The last write of an import, an export or a pre-check; only the pre-check has a checkpoint. -/
def closeWrite (s : Studio) (job : JobId) (final : JobState) : LaneWrite :=
  .job job (.setState final none
    (if (s.db.jobs[job]?).any fun row => row.jobType = .targetScan then some {} else none) false)

/-- A step of the migrations, of the writer or of the other components.  A crash takes everything
that is under way, and the recovery does not see the jobs to come; the user interface takes no
command while `resume_scan` runs. -/
def stepApp (s : Studio) (l : Label) : Option Studio :=
  match l with
  | .crash =>
      (s.app.step .crash).map fun a =>
        { start s.db s.app.now s.coming with
          app := { a with recovering := a.recovering.filter (· ∉ s.coming) }
          next := s.next }
  | .start job _ _ | .resume job _ =>
      if s.resuming.isSome ∨ job ∈ s.coming then none
      else (s.app.step l).map fun a => { s with app := a }
  | _ => (s.app.step l).map fun a => { s with app := a }

/-- One step of the program. -/
def step (s : Studio) (l : StudioLabel) : Option Studio :=
  match l with
  | .app l => s.stepApp l
  | _ =>
      if s.app.recovering ≠ [] then none
      else
        match l with
        | .create job => s.create job
        | .scanSource job =>
            if job ∈ s.prepared then
              some { s with
                prepared := s.prepared.erase job
                inbox := s.inbox ++ [.scan job] }
            else none
        | .resumeScan job =>
            if s.resuming.isSome then none
            else if s.resumable job then some { s with resuming := some job }
            else some s
        | .submitScan =>
            s.resuming.map fun job =>
              { s with resuming := none, inbox := s.inbox ++ [.scan job] }
        | .cancelScan job =>
            if s.resuming.isSome then none
            else some { s with inbox := s.inbox ++ [.cancel job] }
        | .network fails =>
            match s.inbox with
            | [] => none
            | .scan job :: rest => some ({ s with inbox := rest }.beginScan job fails)
            | .cancel job :: rest => some ({ s with inbox := rest }.cancel job)
        | .close job final fails =>
            if job ∈ s.opened ∧ final.terminal then
              some (s.submit (taskOf (s.closeWrite job final) fails))
            else none
        | .endJob job =>
            if job ∈ s.opened then some { s with opened := s.opened.filter (· ≠ job) } else none
        | _ => s.stepCall l

end Studio

/-! ## The cases of a step of a call -/

namespace ScanCall

/-- The future of a state that the call awaits. -/
def stating (c : ScanCall) : Option ℕ :=
  match c.point with
  | .announcing | .finishing | .failing => c.awaiting
  | .started | .scanning | .reporting | .reportingFailure => none

/-- The call has submitted its last state, or FAILED. -/
def final (c : ScanCall) : Bool :=
  match c.point with
  | .announcing | .started | .scanning => false
  | .finishing | .reporting | .failing | .reportingFailure => true

/-- The cases of `ScanCall.step`: the call submits a final state, or goes on without a state, or is
over. -/
inductive Transition (c : ScanCall) (future : ℕ) (m : CallMove) : CallOutcome → Prop
  | concludes {p : CallPoint} {state : JobState} (hp : p = .finishing ∨ p = .failing)
      (hstate : state.terminal = true) (hidle : c.stating = none ∨ ∃ r, m = .resumed r) :
      Transition c future m
        { call := some (c.await future p), write := some (scanState c.job state) }
  | goesOn {c' : ScanCall} {write : Option LaneWrite} {critical : Bool} (hjob : c'.job = c.job)
      (hcancel : c'.cancelRequested = c.cancelRequested) (hfinal : c'.final = c.final)
      (hstating : c'.stating = none) (hwrite : write = none ∨ write = some .other)
      (hidle : c.stating = none ∨ ∃ r, m = .resumed r) :
      Transition c future m { call := some c', write := write, critical := critical }
  | finished (pops : Bool) (hidle : ∃ r, m = .resumed r) :
      Transition c future m { call := none, pops := pops }

variable {c : ScanCall} {future : ℕ} {m : CallMove} {out : CallOutcome}

theorem transition_of_resumed (r : Except String Unit) :
    Transition c future (.resumed r) (c.resumed future r) := by
  have hidle : c.stating = none ∨ ∃ r', CallMove.resumed r = .resumed r' := Or.inr ⟨r, rfl⟩
  cases r with
  | ok u =>
      rw [resumed]
      cases hpoint : c.point with
      | announcing | finishing | failing =>
          exact .goesOn rfl rfl (by simp [final, await, hpoint]) rfl (Or.inr rfl) hidle
      | started =>
          exact .goesOn rfl rfl (by simp [final, hpoint]) rfl (Or.inl rfl) hidle
      | scanning =>
          exact .goesOn rfl rfl (by simp [final, hpoint]) (by simp [stating]) (Or.inl rfl) hidle
      | reporting | reportingFailure => exact .finished true ⟨_, rfl⟩
  | error message =>
      rw [resumed]
      cases hpoint : c.point with
      | announcing | started => exact .finished false ⟨_, rfl⟩
      | scanning | finishing | reporting => exact .concludes (Or.inr rfl) rfl hidle
      | failing | reportingFailure => exact .finished true ⟨_, rfl⟩

/-- **A call does nothing else.** -/
theorem transition_of_step (h : c.step future m = some out) : Transition c future m out := by
  cases m with
  | resumed r =>
      obtain ⟨k, -, rfl⟩ := Option.map_eq_some_iff.mp h
      exact transition_of_resumed r
  | persist critical =>
      rw [step] at h
      split_ifs at h with hcond
      obtain rfl := Option.some.inj h
      exact .goesOn rfl rfl (by simp [final, await, hcond.1]) rfl (Or.inr rfl)
        (Or.inl (by simp [stating, hcond.1]))
  | finish =>
      rw [step] at h
      split_ifs at h with hcond
      obtain rfl := Option.some.inj h
      refine .concludes (Or.inl rfl) ?_ (Or.inl (by simp [stating, hcond.1]))
      rw [finalState]
      split <;> rfl
  | raise =>
      rw [step] at h
      split_ifs at h with hcond
      obtain rfl := Option.some.inj h
      exact .concludes (Or.inr rfl) rfl (Or.inl (by simp [stating, hcond]))

end ScanCall

namespace Studio

/-! ## The cases of a step -/

/-- The cases of `Studio.step`. -/
inductive Step (s : Studio) : StudioLabel → Studio → Prop
  | app {l : Label} {a : App} (hl : l ≠ .crash)
      (hcommand : ∀ job, (∃ account interval, l = .start job account interval) ∨
        (∃ interval, l = .resume job interval) → s.resuming = none ∧ job ∉ s.coming)
      (h : s.app.step l = some a) : Step s (.app l) { s with app := a }
  | crash {a : App} (h : s.app.step .crash = some a) :
      Step s (.app .crash)
        { start s.db s.app.now s.coming with
          app := { a with recovering := a.recovering.filter (· ∉ s.coming) }
          next := s.next }
  | refused (l : StudioLabel) : Step s l s
  | created {job : JobId} {row : Job} {prepared opened : List JobId}
      (hrec : s.app.recovering = []) (hjob : job ∈ s.coming)
      (hrow : s.db.jobs[job]? = some row) (hstate : row.state = creationState row.jobType)
      (hlists : (row.jobType = .scan ∧ prepared = [job] ∧ opened = []) ∨
        (row.jobType = .migration ∧ prepared = [] ∧ opened = []) ∨
        ((row.jobType = .targetScan ∨ row.jobType = .importFile ∨ row.jobType = .exportFile) ∧
          prepared = [] ∧ opened = [job])) :
      Step s (.create job)
        { s with
          coming := s.coming.filter (· ≠ job)
          prepared := s.prepared ++ prepared
          opened := s.opened ++ opened }
  | scanned {job : JobId} (hrec : s.app.recovering = []) (hjob : job ∈ s.prepared) :
      Step s (.scanSource job)
        { s with prepared := s.prepared.erase job, inbox := s.inbox ++ [.scan job] }
  | looked {job : JobId} (hrec : s.app.recovering = []) (hnone : s.resuming = none)
      (hjob : s.resumable job = true) : Step s (.resumeScan job) { s with resuming := some job }
  | submitted {job : JobId} (hrec : s.app.recovering = []) (hjob : s.resuming = some job) :
      Step s .submitScan { s with resuming := none, inbox := s.inbox ++ [.scan job] }
  | requested (job : JobId) (hrec : s.app.recovering = []) :
      Step s (.cancelScan job) { s with inbox := s.inbox ++ [.cancel job] }
  | begun {job : JobId} {rest : List NetworkTask} (fails : Option String)
      (hrec : s.app.recovering = []) (h : s.inbox = .scan job :: rest) :
      Step s (.network fails) ({ s with inbox := rest }.beginScan job fails)
  | cancelled {job : JobId} {rest : List NetworkTask} (fails : Option String)
      (hrec : s.app.recovering = []) (h : s.inbox = .cancel job :: rest) :
      Step s (.network fails) ({ s with inbox := rest }.cancel job)
  | closed {job : JobId} {final : JobState} (fails : Option String) (hrec : s.app.recovering = [])
      (hjob : job ∈ s.opened) (hfinal : final.terminal = true) :
      Step s (.close job final fails) (s.submit (taskOf (s.closeWrite job final) fails))
  | ended {job : JobId} (hrec : s.app.recovering = []) (hjob : job ∈ s.opened) :
      Step s (.endJob job) { s with opened := s.opened.filter (· ≠ job) }
  | call {l : StudioLabel} {event : ℕ} {c : ScanCall} {m : CallMove} {fails : Option String}
      {out : CallOutcome} (hrec : s.app.recovering = []) (hevent : callOf l = some event)
      (hc : s.calls event = some c) (hm : s.callMove c l = some (m, fails))
      (h : c.step s.future m = some out) : Step s l (s.applyCall event c out fails)

variable {s s' : Studio} {l : StudioLabel}

theorem step_create {job : JobId} (hrec : s.app.recovering = []) (h : s.create job = some s') :
    s.Step (.create job) s' := by
  rw [create] at h
  split_ifs at h with hjob
  obtain ⟨row, hrow, h⟩ := Option.bind_eq_some_iff.mp h
  split_ifs at h with hstate
  have hcreated := fun prepared opened =>
    @Step.created s job row prepared opened hrec hjob hrow hstate
  cases htype : row.jobType with
  | scan =>
      rw [htype] at h
      obtain rfl := Option.some.inj h
      simpa using hcreated [job] [] (Or.inl ⟨htype, rfl, rfl⟩)
  | migration =>
      rw [htype] at h
      obtain rfl := Option.some.inj h
      simpa using hcreated [] [] (Or.inr (Or.inl ⟨htype, rfl, rfl⟩))
  | remove => rw [htype] at h; exact absurd h (by simp)
  | targetScan | importFile | exportFile =>
      rw [htype] at h
      obtain rfl := Option.some.inj h
      simpa using hcreated [] [job] (Or.inr (Or.inr ⟨by simp [htype], rfl, rfl⟩))

theorem step_app {l : Label} (h : s.stepApp l = some s') : s.Step (.app l) s' := by
  cases l with
  | crash =>
      rw [stepApp] at h
      obtain ⟨a, ha, rfl⟩ := Option.map_eq_some_iff.mp h
      exact .crash ha
  | start job account interval =>
      simp only [stepApp] at h
      split_ifs at h with hcommand
      obtain ⟨a, ha, rfl⟩ := Option.map_eq_some_iff.mp h
      rw [not_or] at hcommand
      refine .app (by simp) (fun k hk => ?_) ha
      rcases hk with ⟨b, i, hk⟩ | ⟨i, hk⟩
      · obtain ⟨rfl, -, -⟩ := Label.start.inj hk
        exact ⟨by simpa using hcommand.1, hcommand.2⟩
      · exact absurd hk (by simp)
  | resume job interval =>
      simp only [stepApp] at h
      split_ifs at h with hcommand
      obtain ⟨a, ha, rfl⟩ := Option.map_eq_some_iff.mp h
      rw [not_or] at hcommand
      refine .app (by simp) (fun k hk => ?_) ha
      rcases hk with ⟨b, i, hk⟩ | ⟨i, hk⟩
      · exact absurd hk (by simp)
      · obtain ⟨rfl, -⟩ := Label.resume.inj hk
        exact ⟨by simpa using hcommand.1, hcommand.2⟩
  | _ =>
      simp only [stepApp] at h
      obtain ⟨a, ha, rfl⟩ := Option.map_eq_some_iff.mp h
      exact .app (by simp) (by simp) ha

theorem step_stepCall (hrec : s.app.recovering = []) (h : s.stepCall l = some s') :
    s.Step l s' := by
  obtain ⟨event, hevent, h⟩ := Option.bind_eq_some_iff.mp h
  obtain ⟨c, hc, h⟩ := Option.bind_eq_some_iff.mp h
  obtain ⟨⟨m, fails⟩, hm, h⟩ := Option.bind_eq_some_iff.mp h
  obtain ⟨out, hout, rfl⟩ := Option.map_eq_some_iff.mp h
  exact .call hrec hevent hc hm hout

/-- **The program does nothing else.** -/
theorem step_cases (h : s.step l = some s') : s.Step l s' := by
  cases l with
  | app l => exact step_app h
  | create job =>
      simp only [step] at h
      split_ifs at h with hrec
      exact step_create (not_not.mp hrec) h
  | scanSource job =>
      simp only [step] at h
      split_ifs at h with hrec hjob
      exact Option.some.inj h ▸ .scanned (not_not.mp hrec) hjob
  | resumeScan job =>
      simp only [step] at h
      split_ifs at h with hrec hnone hjob
      · exact Option.some.inj h ▸ .looked (not_not.mp hrec) (by simpa using hnone) hjob
      · exact Option.some.inj h ▸ .refused _
  | submitScan =>
      simp only [step] at h
      split_ifs at h with hrec
      obtain ⟨job, hjob, rfl⟩ := Option.map_eq_some_iff.mp h
      exact .submitted (not_not.mp hrec) hjob
  | cancelScan job =>
      simp only [step] at h
      split_ifs at h with hrec hnone
      exact Option.some.inj h ▸ .requested job (not_not.mp hrec)
  | network fails =>
      simp only [step] at h
      split_ifs at h with hrec
      split at h
      · exact absurd h (by simp)
      · rename_i job rest hinbox
        exact Option.some.inj h ▸ .begun fails (not_not.mp hrec) hinbox
      · rename_i job rest hinbox
        exact Option.some.inj h ▸ .cancelled fails (not_not.mp hrec) hinbox
  | close job final fails =>
      simp only [step] at h
      split_ifs at h with hrec hjob
      exact Option.some.inj h ▸ .closed fails (not_not.mp hrec) hjob.1 hjob.2
  | endJob job =>
      simp only [step] at h
      split_ifs at h with hrec hjob
      exact Option.some.inj h ▸ .ended (not_not.mp hrec) hjob
  | _ =>
      simp only [step] at h
      split_ifs at h with hrec
      exact step_stepCall (not_not.mp hrec) h

end Studio
end Runtime
end MigrationStudio
