import MigrationStudio.Migration.Planner
import MigrationStudio.Runtime.SettledLane

/-!
# One run of an executor

`MigrationExecutor.run` by itself: the executor of one job, from the call of `run` to its return,
the writer thread, and what is outside of both.  The outside is free.  It answers the RPCs, and
requests a stop, a pause or the end of a pause at any moment; the readings of its clocks come with
each move, whatever they are, so that the executor may be on the real clock or on another one;
other components submit writes, which are not about the job.  No write fails.

* `Solo.step`: one step of the run.
* `Solo.Steady`: what holds in every state of every run, from `steady_of_run`.
* `Solo.row`: the row of the job once everything that waits is committed.  The writer thread does
  not change it, and `Steady.consumes` says that every write of the executor fits it.
* `running_or_starting`, `pending_row`: what the settled row says of the executor.
-/

namespace MigrationStudio
namespace Runtime

open Foundations MigrationStudio.Core Accounts Jobs Telegram Storage Migration

/-- What the outside says at a move: the readings of the scheduler's clock, of the monotonic clock
and of the wall clock, and whether nobody holds the mutation lock of the account. -/
structure Outside where
  now : ℕ
  mono : ℕ
  utc : ℕ
  lockFree : Bool

/-- The run of one executor, which is `none` once `run` has returned. -/
structure Solo where
  executor : Option Executor
  writer : Lane
  log : List Event

/-- The writer thread takes a task or times out, another component submits a write, a pause is
taken back, or the executor moves. -/
inductive SoloLabel where
  | get
  | timeout
  | foreign (w : LaneWrite) (critical : Bool)
  | resume
  | move (m : Move) (o : Outside)

namespace Solo

/-- What a move of the executor reads. -/
def env (s : Solo) (o : Outside) : Env where
  now := o.now
  mono := o.mono
  utc := o.utc
  db := s.writer.database
  lockFree := o.lockFree
  future := s.writer.submitted.length

/-- The run after a move of its executor. -/
def after (s : Solo) (out : Outcome) : Solo where
  executor := out.executor
  writer :=
    match out.write with
    | some w => s.writer.submit (taskOf w none)
    | none => s.writer
  log := s.log ++ out.event.toList

/-- What a move says of a future is what the writer says. -/
def told (s : Solo) (e : Executor) : Move → Prop
  | .resumed r => ∃ a, e.awaiting = some a ∧ s.writer.future a.future = some r
  | .delayedDone r => ∃ k, e.flushTask = .writing k ∧ s.writer.future k = some r
  | _ => True

instance (s : Solo) (e : Executor) (m : Move) : Decidable (s.told e m) :=
  match m with
  | .resumed r =>
      match h : e.awaiting with
      | none => isFalse fun ⟨a, ha, _⟩ => by simp [h] at ha
      | some a =>
          decidable_of_iff (s.writer.future a.future = some r)
            ⟨fun hr => ⟨a, h, hr⟩, fun ⟨b, hb, hr⟩ => by
              obtain rfl := Option.some.inj (h.symm.trans hb)
              exact hr⟩
  | .delayedDone r =>
      match h : e.flushTask with
      | .writing k =>
          decidable_of_iff (s.writer.future k = some r)
            ⟨fun hr => ⟨k, h, hr⟩, fun ⟨j, hj, hr⟩ => by
              obtain rfl := FlushTask.writing.inj (h.symm.trans hj)
              exact hr⟩
      | .idle => isFalse fun ⟨k, hk, _⟩ => by simp [h] at hk
      | .sleeping _ => isFalse fun ⟨k, hk, _⟩ => by simp [h] at hk
  | .execute | .advance | .answer _ | .read | .delayed | .pause | .stop => isTrue trivial

/-- One step of the run of the job `id`. -/
def step (id : JobId) (s : Solo) : SoloLabel → Option Solo
  | .get => (s.writer.get lane).map fun w => { s with writer := w }
  | .timeout => (s.writer.timeout lane).map fun w => { s with writer := w }
  | .foreign w critical =>
      if (w.ofJob id).isSome then none
      else some { s with writer := s.writer.submit ⟨w, critical, none⟩ }
  | .resume => s.executor.map fun e => { s with executor := some e.requestResume }
  | .move m o =>
      s.executor.bind fun e =>
        if s.told e m then (e.step (s.env o) m).map s.after else none

/-- `run(id, account, target)` is called, on an idle writer. -/
def start (id : JobId) (account : AccountId) (target : Telegram.GroupContext) (action : Action)
    (realClock : Bool) (scheduler : InviteScheduler) (db : Database) : Solo where
  executor := some
    { jobId := id
      accountId := account
      target := target
      action := action
      realClock := realClock
      scheduler := scheduler }
  writer := DBWriter.start db
  log := []

/-- The RPCs that have been sent, in order. -/
def rpcs (s : Solo) : List Rpc :=
  s.log.filterMap fun
    | .sent rpc => some rpc
    | _ => none

/-- The row of the job once everything that waits is committed. -/
def row (id : JobId) (s : Solo) : Option Job := (settled s.writer).jobs[id]?

/-! ## The cases of a step -/

/-- The cases of `Solo.step`. -/
inductive Case (id : JobId) (s : Solo) : SoloLabel → Solo → Prop
  | lane {l : SoloLabel} {wl : WriterLabel WriteTask} {w : Lane} (hl : ∀ m o, l ≠ .move m o)
      (hne : ∀ t, wl ≠ .submit t) (h : s.writer.step lane wl = some w) :
      Case id s l { s with writer := w }
  | foreign {w : LaneWrite} {critical : Bool} (h : w.ofJob id = none) :
      Case id s (.foreign w critical)
        { s with writer := s.writer.submit ⟨w, critical, none⟩ }
  | resume {e : Executor} (he : s.executor = some e) :
      Case id s .resume { s with executor := some e.requestResume }
  | moved {m : Move} {o : Outside} {e : Executor} {out : Outcome} (he : s.executor = some e)
      (htold : s.told e m) (h : e.step (s.env o) m = some out) : Case id s (.move m o) (s.after out)

variable {id : JobId} {s s' : Solo} {l : SoloLabel}

/-- **The run does nothing else.** -/
theorem step_cases (h : s.step id l = some s') : Case id s l s' := by
  cases l with
  | get =>
      obtain ⟨w, hw, rfl⟩ := Option.map_eq_some_iff.mp h
      have hlane : s.writer.step lane .get = some w := hw
      exact .lane (by simp) (by simp) hlane
  | timeout =>
      obtain ⟨w, hw, rfl⟩ := Option.map_eq_some_iff.mp h
      have hlane : s.writer.step lane .timeout = some w := hw
      exact .lane (by simp) (by simp) hlane
  | foreign w critical =>
      rw [step] at h
      split_ifs at h with hown
      exact Option.some.inj h ▸ .foreign (by simpa using hown)
  | resume =>
      obtain ⟨e, he, rfl⟩ := Option.map_eq_some_iff.mp h
      exact .resume he
  | move m o =>
      obtain ⟨e, he, h⟩ := Option.bind_eq_some_iff.mp h
      split_ifs at h with htold
      obtain ⟨out, hout, rfl⟩ := Option.map_eq_some_iff.mp h
      exact .moved he htold hout

/-- A pause that is taken back is a move of the executor, which sets its event. -/
theorem resume_eq (s : Solo) (e : Executor) : ∃ flag,
    ({ s with executor := some e.requestResume } : Solo) =
      s.after { executor := some { e with pauseEvent := flag } } := by
  rw [Executor.requestResume]
  split
  · exact ⟨e.pauseEvent, by simp [after]⟩
  · exact ⟨false, by simp [after]⟩

/-! ## The lane after a move -/

theorem waiting_after (s : Solo) (out : Outcome) :
    (s.after out).writer.waiting = s.writer.waiting ++
      (out.write.map fun w => (s.writer.submitted.length, taskOf w none)).toList := by
  rw [after]
  cases out.write with
  | none => simp
  | some w => exact App.waiting_submit _ _

theorem laneOf_after (s : Solo) (out : Outcome) :
    laneOf id (s.after out).writer.waiting = laneOf id s.writer.waiting ++ out.jobWrites id := by
  rw [waiting_after, laneOf_append, Outcome.jobWrites]
  cases out.write with
  | none => rfl
  | some w =>
      rw [Option.map_some, Option.toList_some, laneOf_cons, Option.bind_some]
      simp [laneOf, taskOf]

theorem database_after (s : Solo) (out : Outcome) :
    (s.after out).writer.database = s.writer.database := by
  rw [after]
  cases out.write <;> rfl

theorem settled_after (s : Solo) (out : Outcome) :
    settled (s.after out).writer =
      match out.write with
      | some w => (settled s.writer).apply w
      | none => settled s.writer := by
  rw [after]
  cases out.write with
  | none => rfl
  | some w => exact settled_submit _ _

/-- The row after a move: the write of the executor acts on it at once. -/
theorem row_after (s : Solo) (out : Outcome) :
    (s.after out).row id = (s.row id).map fun job => (out.jobWrites id).foldl Job.apply job := by
  rw [row, row, settled, settled, jobs_settle, jobs_settle, laneOf_after, database_after,
    Option.map_map]
  simp only [List.foldl_append]
  rfl

theorem row_after_of_silent {out : Outcome} (hw : out.write = none) :
    (s.after out).row id = s.row id := by
  rw [row_after, Outcome.jobWrites_of_silent hw]
  simp

/-- No write of the job that waits after a move has a number above the next one. -/
theorem upTo_after (h : Numbered lane s.writer) (out : Outcome) :
    UpTo id (s.after out).writer.waiting s.writer.submitted.length := by
  intro p hp _
  rw [waiting_after] at hp
  rcases List.mem_append.mp hp with hp | hp
  · exact (h.lt_of_waiting hp).1.le
  · obtain ⟨w, -, rfl⟩ := Option.map_eq_some_iff.mp (Option.mem_toList.mp hp)
    exact le_rfl

theorem upTo_after_of_silent {out : Outcome} (hw : out.jobWrites id = []) {k : ℕ}
    (hk : UpTo id s.writer.waiting k) : UpTo id (s.after out).writer.waiting k := by
  intro p hp hjob
  rw [waiting_after] at hp
  rcases List.mem_append.mp hp with hp | hp
  · exact hk p hp hjob
  · obtain ⟨w, hout, rfl⟩ := Option.map_eq_some_iff.mp (Option.mem_toList.mp hp)
    rw [Outcome.jobWrites, hout, Option.bind_some] at hw
    have hjob' : (w.ofJob id).isSome := hjob
    obtain ⟨jw, hjw⟩ := Option.isSome_iff_exists.mp hjob'
    rw [hjw] at hw
    exact absurd hw (by simp)

/-! ## What holds in every state -/

/-- What the job's course goes on with: the executor, or nothing while that has not begun. -/
def Follows (id : JobId) (s : Solo) (ex : Option Executor) : Prop :=
  ex = s.executor ∨ (ex = none ∧ ∃ e, s.executor = some e ∧ e.Starting (UpTo id s.writer.waiting))

/-- Nothing fails, and the executor runs on from the row of the job and its waiting writes. -/
structure Steady (id : JobId) (s : Solo) : Prop where
  numbered : Numbered lane s.writer
  nothing : NothingRaises s.writer
  futures : FuturesOk s.writer
  filed : ∀ e, s.executor = some e → e.jobId = id
  alive : ∀ e, s.executor = some e → e.point ≠ .failed
  course : ∃ ex, s.Follows id ex ∧ ∃ job, s.writer.database.jobs[id]? = some job ∧
    Executor.RunsOn job.pending (laneOf id s.writer.waiting) ex

/-- No future that a move is told about holds an exception. -/
theorem Steady.not_raised (hs : Steady id s) {e : Executor} {m : Move} (htold : s.told e m)
    (message : String) : m ≠ .resumed (.error message) := by
  rintro rfl
  obtain ⟨a, -, hfuture⟩ := htold
  exact absurd (hs.futures.future hfuture) (by simp)

/-- The executor moves. -/
theorem Steady.after (hs : Steady id s) {e : Executor} {m : Move} {o : Outside} {out : Outcome}
    (he : s.executor = some e) (htold : s.told e m)
    (ht : Executor.Transition (s.env o) e m out) : Steady id (s.after out) := by
  have hid := hs.filed e he
  obtain ⟨ex, hfollows, job, hjob, hruns⟩ := hs.course
  refine ⟨?_, ?_, ?_, fun e' he' => (ht.same he').jobId.trans hid,
    fun e' he' => ht.alive (hs.not_raised htold) (hs.alive e he) e' he', ?_⟩
  · rw [Solo.after]
    cases out.write with
    | none => exact hs.numbered
    | some w => exact hs.numbered.submit _
  · rw [Solo.after]
    cases out.write with
    | none => exact hs.nothing
    | some w => exact hs.nothing.submit rfl
  · rw [Solo.after]
    cases out.write <;> exact hs.futures
  · have hself : (s.after out).executor = out.executor := rfl
    rw [database_after, laneOf_after]
    rcases hfollows with rfl | ⟨rfl, e₁, he₁, hstart⟩
    · rw [he] at hruns
      obtain ⟨rest, hrunning⟩ := hruns
      refine ⟨_, Or.inl rfl, job, hjob, ?_⟩
      rw [hself]
      refine hid ▸ hrunning.transition job.items.pairwise_pendingOrdinals ?_ ht
      exact CandidateBuffer.ordinals_pendingChunk (hid ▸ hjob) _ _ _
    · obtain rfl := Option.some.inj (he.symm.trans he₁)
      have hup : out.write = none → ∀ k, UpTo id s.writer.waiting k →
          UpTo id (s.after out).writer.waiting k := by
        intro hw k hk
        exact upTo_after_of_silent (Outcome.jobWrites_of_silent hw id) hk
      obtain ⟨hwrites, hnext⟩ := hstart.transition hup (upTo_after hs.numbered out) ht
      rw [hid] at hwrites
      have hnone := App.runsOn_running hruns hwrites
      cases hout : out.executor with
      | none => exact ⟨none, Or.inl (hself.trans hout).symm, job, hjob, hnone⟩
      | some e' =>
          rcases hnext e' hout with hstart' | ⟨a, hmove, haw, hupto, hw, hrunning⟩
          · exact ⟨none, Or.inr ⟨rfl, e', hself.trans hout, hstart'⟩, job, hjob, hnone⟩
          · -- the future is resolved, so nothing of the job waits any more
            refine ⟨some e', Or.inl (hself.trans hout).symm, job, hjob, job.pending, ?_⟩
            subst hmove
            obtain ⟨b, hb, hfuture⟩ := htold
            obtain rfl := Option.some.inj (haw.symm.trans hb)
            have hlane : laneOf id s.writer.waiting = [] :=
              hupto.laneOf_eq_nil fun p hp => (hs.numbered.lt_of_waiting hp).2 _ _ hfuture
            rw [hlane, Outcome.jobWrites_of_silent hw]
            exact hrunning job.pending

/-- The writer thread moves. -/
theorem Steady.lane (hs : Steady id s) {wl : WriterLabel WriteTask} {w : Lane}
    (hne : ∀ t, wl ≠ .submit t) (hw : s.writer.step lane wl = some w) :
    Steady id { s with writer := w } := by
  obtain ⟨ex, hfollows, job, hjob, hruns⟩ := hs.course
  have hup : ∀ k, UpTo id s.writer.waiting k → UpTo id w.waiting k :=
    fun k hk => hk.sublist fun p hp => App.mem_waiting_step hne hw hp
  have hcourse := nothing_rule (w := s.writer)
    (I := fun db waiting => ∃ job, db.jobs[id]? = some job ∧
      Executor.RunsOn job.pending (laneOf id waiting) ex) ?_ hs.nothing hne hw ⟨job, hjob, hruns⟩
  · refine ⟨hs.numbered.step hw, hs.nothing.step hne hw, hs.futures.step hs.nothing hne hw,
      hs.filed, hs.alive, ex, ?_, hcourse⟩
    rcases hfollows with rfl | ⟨rfl, e, he, hstart⟩
    · exact Or.inl rfl
    · exact Or.inr ⟨rfl, e, he, hstart.mono hup⟩
  · rintro db p rest ⟨job, hjob, hruns⟩
    rw [laneOf_cons] at hruns
    cases hp : p.2.write.ofJob id with
    | none =>
        rw [hp, Option.toList_none, List.nil_append] at hruns
        exact ⟨job, by rw [Database.jobs_apply, hp]; exact hjob, hruns⟩
    | some jw =>
        rw [hp, Option.toList_some, List.singleton_append] at hruns
        obtain ⟨q, hconsumes, hruns'⟩ := hruns.commit job.items.nodup_pendingOrdinals
        refine ⟨job.apply jw, by rw [Database.jobs_apply, hp, hjob]; rfl, ?_⟩
        rw [hconsumes.pending_apply]
        exact hruns'

/-- **One step.** -/
theorem Steady.step (hs : Steady id s) (h : s.step id l = some s') : Steady id s' := by
  cases step_cases h with
  | lane hl hne hw => exact hs.lane hne hw
  | @foreign w critical hown =>
      obtain ⟨hlane, hup⟩ := App.waiting_submit_other (w := s.writer)
        (t := ⟨w, critical, none⟩) hown
      obtain ⟨ex, hfollows, job, hjob, hruns⟩ := hs.course
      refine ⟨hs.numbered.submit _, hs.nothing.submit rfl, hs.futures, hs.filed, hs.alive, ex, ?_,
        job, hjob, by rw [hlane]; exact hruns⟩
      rcases hfollows with rfl | ⟨rfl, e, he, hstart⟩
      · exact Or.inl rfl
      · exact Or.inr ⟨rfl, e, he, hstart.mono hup⟩
  | resume he =>
      obtain ⟨flag, heq⟩ := resume_eq s _
      rw [heq]
      exact hs.after (o := ⟨0, 0, 0, true⟩) he (m := .pause) trivial (.pauseRequested flag)
  | moved he htold hout => exact hs.after he htold (Executor.transition_of_step hout)

theorem steady_start (id : JobId) (account : AccountId) (target : Telegram.GroupContext)
    (action : Action) (realClock : Bool) (scheduler : InviteScheduler) {db : Database} {job : Job}
    (hjob : db.jobs[id]? = some job) :
    Steady id (start id account target action realClock scheduler db) where
  numbered := numbered_start db
  nothing := fun p hp => absurd hp (by simp [start, DBWriter.start, DBWriter.waiting])
  futures := fun p hp => absurd hp (by simp [start, DBWriter.start])
  filed := fun e he => by obtain rfl := Option.some.inj he; rfl
  alive := fun e he => by obtain rfl := Option.some.inj he; simp
  course := ⟨none, Or.inr ⟨rfl, _, rfl, Executor.starting_new rfl rfl rfl ⟨rfl, rfl⟩⟩, job, hjob,
    _, rfl⟩

/-- **Every state of a run is steady.** -/
theorem steady_of_run (hs : Steady id s) {ls : List SoloLabel}
    (h : runLabels (step id) s ls = some s') : Steady id s' :=
  invariant_runLabels (C := fun _ _ => True) (fun _ _ _ hI _ hstep => hI.step hstep) hs
    (along_of_forall_mem (D := fun _ => True) fun _ _ => trivial) h

/-! ## The settled row -/

/-- The settled row, from the committed one and the writes that wait. -/
theorem Steady.settled (hs : Steady id s) : ∃ job row, s.writer.database.jobs[id]? = some job ∧
    s.row id = some row ∧ Drains (laneOf id s.writer.waiting) job.pending row.pending := by
  obtain ⟨ex, -, job, hjob, hruns⟩ := hs.course
  have hdrains : ∃ q, Drains (laneOf id s.writer.waiting) job.pending q := by
    cases ex with
    | none => exact hruns
    | some e =>
        obtain ⟨rest, hrunning⟩ := hruns
        exact ⟨_, hrunning.lane⟩
  obtain ⟨q, hq⟩ := hdrains
  refine ⟨job, (laneOf id s.writer.waiting).foldl Job.apply job, hjob, ?_, ?_⟩
  · rw [row, Runtime.settled, jobs_settle, hjob]
    rfl
  · rw [hq.pending_foldl]
    exact hq

/-- **A write of the executor fits the settled row.** -/
theorem Steady.consumes {out : Outcome} (hs : Steady id (s.after out)) {r : Job}
    (hr : s.row id = some r) {jw : JobWrite} (hjw : out.jobWrites id = [jw]) :
    ∃ q, Consumes jw r.pending q := by
  obtain ⟨job, r', hjob, -, hdrains⟩ := hs.settled
  rw [laneOf_after, hjw] at hdrains
  rw [database_after] at hjob
  obtain ⟨q, hq, t, hconsumes, -⟩ := drains_append.mp hdrains
  rw [row, Runtime.settled, jobs_settle, hjob, Option.map_some, Option.some.injEq] at hr
  rw [← hr, hq.pending_foldl]
  exact ⟨t, hconsumes⟩

theorem row_after_eq (out : Outcome) {r : Job} (hr : s.row id = some r) :
    (s.after out).row id = some ((out.jobWrites id).foldl Job.apply r) := by
  rw [row_after, hr]
  rfl

theorem Steady.consumes_after {out : Outcome} (hs : Steady id (s.after out)) {r : Job}
    (hr : s.row id = some r) : ∀ jw ∈ out.jobWrites id, ∃ q, Consumes jw r.pending q := by
  intro jw hjw
  rcases out.jobWrites_cases id with hw | ⟨jw', hw⟩
  · exact absurd (hw ▸ hjw) (by simp)
  · obtain rfl := List.mem_singleton.mp (hw ▸ hjw)
    exact hs.consumes hr hw

/-- The pending ordinals after a move. -/
theorem Steady.suffix_after {out : Outcome} (hs : Steady id (s.after out)) {r : Job}
    (hr : s.row id = some r) : ((out.jobWrites id).foldl Job.apply r).pending <:+ r.pending := by
  rcases out.jobWrites_cases id with hw | ⟨jw, hw⟩
  · rw [hw]
    exact List.suffix_refl _
  · obtain ⟨q, hq⟩ := hs.consumes hr hw
    rw [hw, List.foldl_cons, List.foldl_nil, hq.pending_apply]
    exact hq.suffix

/-- The executor has had its first write committed, or it has not. -/
theorem Steady.running_or_starting (hs : Steady id s) {e : Executor} (he : s.executor = some e) :
    (∃ job rest, s.writer.database.jobs[id]? = some job ∧
      e.Running job.pending (laneOf id s.writer.waiting) rest) ∨
      e.Starting (UpTo id s.writer.waiting) := by
  obtain ⟨ex, hfollows, job, hjob, hruns⟩ := hs.course
  rcases hfollows with rfl | ⟨-, e', he', hstart⟩
  · rw [he] at hruns
    obtain ⟨rest, hrunning⟩ := hruns
    exact Or.inl ⟨job, rest, hjob, hrunning⟩
  · obtain rfl := Option.some.inj (he.symm.trans he')
    exact Or.inr hstart

/-- The executor after its first write, from the committed row. -/
theorem Steady.running (hs : Steady id s) {e : Executor} (he : s.executor = some e)
    (hcreated : e.point ≠ .created) (hprime : e.point ≠ .prime) :
    ∃ job rest, s.writer.database.jobs[id]? = some job ∧
      e.Running job.pending (laneOf id s.writer.waiting) rest := by
  refine (hs.running_or_starting he).resolve_right fun hstart => ?_
  rcases hstart.point_eq with hp | hp
  · exact hcreated hp
  · exact hprime hp

/-- What is pending in the settled row: the results in the buffer, and the rest of the run. -/
theorem pending_row {job row : Job} {e : Executor} {rest : List ℕ}
    (hjob : s.writer.database.jobs[id]? = some job)
    (hrunning : e.Running job.pending (laneOf id s.writer.waiting) rest)
    (hrow : s.row id = some row) : row.pending = e.buffered ++ rest := by
  rw [Solo.row, Runtime.settled, jobs_settle, hjob, Option.map_some, Option.some.injEq] at hrow
  rw [← hrow]
  exact hrunning.lane.pending_foldl

/-- An RPC is in flight between the statements. -/
theorem Steady.settled_of_rpc (hs : Steady id s) {e : Executor} (he : s.executor = some e)
    {a : Attempt} (hpoint : e.point = .rpc a) : e.Settled := by
  obtain ⟨job, rest, -, hrunning⟩ := hs.running he (by simp [hpoint]) (by simp [hpoint])
  exact hrunning.rpc a hpoint

/-- When `run` returns, its buffer is empty. -/
theorem Steady.resultBuffer_of_return (hs : Steady id s) {e : Executor} {m : Move} {o : Outside}
    {out : Outcome}
    (he : s.executor = some e) (htold : s.told e m)
    (htr : Executor.Transition (s.env o) e m out) (hnone : out.executor = none) :
    e.resultBuffer = [] := by
  obtain ⟨-, -, hpoint⟩ := htr.ends (hs.not_raised htold) (hs.alive e he) hnone
  have hbegun : e.point ≠ .created ∧ e.point ≠ .prime := by
    rcases hpoint with hp | ⟨summary, final, hp⟩ <;> rw [hp] <;> simp
  obtain ⟨job, rest, -, hrunning⟩ := hs.running he hbegun.1 hbegun.2
  exact hrunning.resultBuffer_of_none htr hnone

theorem row_lane (hs : Steady id s) {wl : WriterLabel WriteTask} {w : Lane}
    (hne : ∀ t, wl ≠ .submit t) (hw : s.writer.step lane wl = some w) :
    ({ s with writer := w } : Solo).row id = s.row id := by
  rw [row, row, settled_step hs.nothing hne hw]

theorem row_foreign {w : LaneWrite} {critical : Bool} (hown : w.ofJob id = none) :
    ({ s with writer := s.writer.submit ⟨w, critical, none⟩ } : Solo).row id = s.row id := by
  rw [row, row, settled_submit, Database.jobs_apply, hown]

/-! ## A small run -/

/-- All clocks read zero, and nobody holds the lock. -/
def quiet : Outside := ⟨0, 0, 0, true⟩

/-- The run of a job of the members 1 and 2, on the real clock. -/
def smallStart : Solo :=
  start 0 1 ⟨500, some 600, .channel, 1⟩ .invite true ⟨3 * second, 3 * second, none, 0, []⟩
    (smallDatabase [persist 1 1 [1, 2] .invite])

/-- A statement submits a critical write, the writer commits it, the executor goes on. -/
def criticalWrite : List SoloLabel :=
  [.move .execute quiet, .get, .move (.resumed (.ok ())) quiet]

/-- A flush submits its results and waits for the writer's timeout. -/
def resultWrite : List SoloLabel :=
  [.move .execute quiet, .get, .timeout, .move (.resumed (.ok ())) quiet]

/-- `run` up to the candidate loop. -/
def enterLoop : List SoloLabel :=
  [.move .advance quiet] ++ criticalWrite ++ criticalWrite ++
    [.move .advance quiet, .move .read quiet, .move .advance quiet, .move .advance quiet,
      .move .advance quiet]

/-- One turn of the loop up to the RPC. -/
def sendRpc : List SoloLabel := List.replicate 4 (.move .advance quiet)

/-- From an RPC that succeeds to the top of the loop, with a flush that is not due. -/
def keepResult : List SoloLabel :=
  [.move (.answer none) quiet, .move .advance quiet, .move .advance quiet, .move .execute quiet,
    .move .advance quiet]

/-- A request is found at the top of the loop, with results to flush; then `run` returns. -/
def handleRequest : List SoloLabel :=
  [.move .advance quiet] ++ resultWrite ++ criticalWrite ++ criticalWrite ++
    [.move .advance quiet]

end Solo
end Runtime
end MigrationStudio
