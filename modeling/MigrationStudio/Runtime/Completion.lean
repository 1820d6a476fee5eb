import MigrationStudio.Runtime.SettledLane
import MigrationStudio.Runtime.TerminalItems

/-!
# The natural end of a run

When the window is exhausted, `run` flushes what is in the buffer, reads the counters on a
connection of its own, and then submits the final state that follows from them.  The flush waits
for its own write only: a batch that the background task has submitted may still be waiting in the
writer while the counters are read, and is committed before the final state.

* `App.Published`: the final state is the last write of the job, and the summary and the state
  agree with the row that it left.
* `App.SummaryCurrent`: the condition on a step, that no result batch of the job waits when the
  counters are read.
* `App.Ending`: the steps from the reading to the publication, and after it.
* `App.summary_published_iff`: what is published is true exactly when the counters were current.
* `App.summary_read_too_early`: a job that completes WITH_ERRORS is reported COMPLETED.
-/

namespace MigrationStudio

open Foundations MigrationStudio.Core Accounts Jobs Telegram Storage Migration

namespace Storage

/-- The last committed write of a job, with the row that it left. -/
def Database.lastEntry (db : Database) (id : JobId) : Option (JobWrite × Job) :=
  (db.journal.filterMap fun entry => if entry.1 = id then some entry.2 else none).getLast?

theorem Database.lastEntry_applyJob {db : Database} {id : JobId} {job : Job}
    (hjob : db.jobs[id]? = some job) (w : JobWrite) :
    (db.applyJob id w).lastEntry id = some (w, job.apply w) := by
  rw [applyJob, hjob, lastEntry, List.filterMap_append]
  simp

theorem Database.lastEntry_apply_of_other {db : Database} {id : JobId} {w : LaneWrite}
    (hw : w.ofJob id = none) : (db.apply w).lastEntry id = db.lastEntry id := by
  cases w with
  | job k jw =>
      have hk : k ≠ id := by
        rintro rfl
        exact absurd hw (by simp [LaneWrite.ofJob])
      rw [apply, applyJob]
      split
      · rfl
      · rw [lastEntry, List.filterMap_append]
        simp [lastEntry, hk]
  | _ => rfl

end Storage

namespace Migration

/-- The write of `_set_job(job_id, final, clear_waiting=True)`. -/
def finalWrite (final : JobState) : JobWrite := .setState final none none true

namespace Executor

variable {env : Env} {e e' : Executor} {m : Move} {out : Outcome} {summary : Counters}
  {final : JobState}

/-- How far the statements after the reading of the counters are: the final state is still to be
submitted, or awaited, or committed. -/
def Closing (e : Executor) (final : JobState) (upTo : ℕ → Prop) (submitted committed : Prop) :
    Prop :=
  (e.todo = [e.setJob final none none true, e.setAccount .ready] ∧ e.awaiting = none) ∨
    (e.todo = [e.setAccount .ready] ∧ ∃ a, e.awaiting = some a ∧ upTo a.future ∧ submitted) ∨
      ((e.todo = [e.setAccount .ready] ∧ e.awaiting = none ∨ e.todo = []) ∧ committed)

theorem Closing.mono {upTo upTo' : ℕ → Prop} {submitted committed submitted' committed' : Prop}
    (h : e.Closing final upTo submitted committed) (hup : ∀ k, upTo k → upTo' k)
    (hsub : submitted → submitted') (hcom : committed → committed') :
    e.Closing final upTo' submitted' committed' := by
  refine h.imp_right (Or.imp ?_ (And.imp_right hcom))
  rintro ⟨htodo, a, ha, hle, hs⟩
  exact ⟨htodo, a, ha, hup _ hle, hsub hs⟩

/-- The counters are read in one transition only. -/
theorem Transition.publish_eq (ht : Transition env e m out) (he' : out.executor = some e')
    (hpoint : e'.point = .publish summary final) :
    e.point = .publish summary final ∨
      (m = .advance ∧ e.Settled ∧ e.point = .summary ∧ summary = env.db.summary e.jobId ∧
        final = finalState summary ∧ out.write = none ∧ out.event = none ∧
        e'.jobId = e.jobId ∧ e'.accountId = e.accountId ∧ e'.awaiting = none ∧
        e'.todo = [e.setJob final none none true, e.setAccount .ready]) := by
  cases ht with
  | summarize hset hpt =>
      obtain rfl := Option.some.inj he'
      obtain ⟨rfl, rfl⟩ := Point.publish.inj hpoint
      exact Or.inr ⟨rfl, hset, hpt, rfl, rfl, rfl, rfl, rfl, rfl, hset.1, rfl⟩
  | raised haw message =>
      have hfailed : e'.point = .failed := by
        rw [(scriptOk_raise [] [] he').1]
      exact absurd (hfailed.symm.trans hpoint) (by simp)
  | take hset hpt htake =>
      obtain rfl := Option.some.inj he'
      rename_i item buffer
      rcases enter_cases item with ⟨u, hu, -⟩ | ⟨a, ha, -⟩
      · exact absurd (hu.symm.trans hpoint) (by simp)
      · exact absurd (ha.symm.trans hpoint) (by simp)
  | leave | publish | failed => exact absurd he' (by simp)
  | flushWrite | flushSkip | write | pauseAccount | resumed | primeFill | primeReceive
  | popReceive | popFill | read | delayedWrite | delayedSkip | delayedDone | pauseRequested
  | stopRequested =>
      obtain rfl := Option.some.inj he'
      exact Or.inl hpoint
  | _ =>
      obtain rfl := Option.some.inj he'
      exact absurd hpoint (by simp [interrupted])

/-- **One transition at the end of a run.**  The executor submits the final state, or goes on with
the statements, or publishes when the final state is committed. -/
theorem Closing.transition {upTo upTo' : ℕ → Prop} {submitted committed : Prop}
    (h : e.Closing final upTo submitted committed) (hpoint : e.point = .publish summary final)
    (hempty : e.resultBuffer = []) (hok : ∀ message, m ≠ .resumed (.error message))
    (hresumed : ∀ a, m = .resumed (.ok ()) → e.awaiting = some a → upTo a.future → submitted →
      committed)
    (hup : out.write = none → ∀ k, upTo k → upTo' k) (ht : Transition env e m out) :
    (∃ e', out.executor = some e' ∧ e'.point = .publish summary final ∧ out.event = none ∧
      ((out.jobWrites e.jobId = [] ∧ e'.Closing final upTo' submitted committed) ∨
        (out.jobWrites e.jobId = [finalWrite final] ∧ e'.todo = [e'.setAccount .ready] ∧
          e'.awaiting = some ⟨env.future, false⟩))) ∨
      (out.executor = none ∧ out.write = none ∧ committed ∧
        out.event = some (.completed e.jobId summary final)) := by
  have hstay : ∀ {ex : Option Executor} {e' : Executor}, ex = some e' →
      out = { executor := ex } → e'.point = e.point → e'.todo = e.todo →
      e'.awaiting = e.awaiting → e'.jobId = e.jobId → e'.accountId = e.accountId →
      ∃ e', out.executor = some e' ∧ e'.point = .publish summary final ∧ out.event = none ∧
        ((out.jobWrites e.jobId = [] ∧ e'.Closing final upTo' submitted committed) ∨
          (out.jobWrites e.jobId = [finalWrite final] ∧ e'.todo = [e'.setAccount .ready] ∧
            e'.awaiting = some ⟨env.future, false⟩)) := by
    rintro ex e' rfl rfl hpt htodo haw hid hacc
    refine ⟨e', rfl, hpt.trans hpoint, rfl, Or.inl ⟨rfl, ?_⟩⟩
    have hmono := h.mono (hup rfl) id id
    simpa only [Closing, setJob, setAccount, hid, hacc, htodo, haw] using hmono
  cases ht with
  | flushWrite haw htodo hdue | flushSkip haw htodo hdue | pauseAccount haw htodo state =>
      rcases h with hs | hs | hs
      · exact absurd (htodo.symm.trans hs.1) (by simp [setJob])
      · exact absurd (htodo.symm.trans hs.1) (by simp [setAccount])
      · rcases hs.1 with ht' | ht'
        · exact absurd (htodo.symm.trans ht'.1) (by simp [setAccount])
        · exact absurd (htodo.symm.trans ht') (by simp)
  | write haw htodo =>
      refine Or.inl ⟨_, rfl, hpoint, rfl, ?_⟩
      rcases h with hs | hs | hs
      · obtain ⟨hst, rfl⟩ := List.cons.inj (htodo.symm.trans hs.1)
        obtain rfl := Stmt.write.inj hst
        refine Or.inr ⟨?_, rfl, rfl⟩
        simp [Outcome.jobWrites, LaneWrite.ofJob, finalWrite]
      · obtain ⟨a, ha, -⟩ := hs.2
        exact absurd (haw.symm.trans ha) (by simp)
      · rcases hs.1 with ht' | ht'
        · obtain ⟨hst, rfl⟩ := List.cons.inj (htodo.symm.trans ht'.1)
          obtain rfl := Stmt.write.inj hst
          exact Or.inl ⟨rfl, Or.inr (Or.inr ⟨Or.inr rfl, hs.2⟩)⟩
        · exact absurd (htodo.symm.trans ht') (by simp)
  | @resumed a haw lastFlush =>
      refine Or.inl ⟨_, rfl, hpoint, rfl, Or.inl ⟨rfl, Or.inr (Or.inr ?_)⟩⟩
      rcases h with hs | hs | hs
      · exact absurd (haw.symm.trans hs.2) (by simp)
      · obtain ⟨htodo, b, hb, hle, hsub⟩ := hs
        obtain rfl := Option.some.inj (haw.symm.trans hb)
        exact ⟨Or.inl ⟨htodo, rfl⟩, hresumed a rfl haw hle hsub⟩
      · rcases hs.1 with ht' | ht'
        · exact absurd (haw.symm.trans ht'.2) (by simp)
        · exact ⟨Or.inr ht', hs.2⟩
  | raised haw message => exact absurd rfl (hok message)
  | publish hset hpt =>
      obtain ⟨rfl, rfl⟩ := Point.publish.inj (hpt.symm.trans hpoint)
      refine Or.inr ⟨rfl, rfl, ?_, rfl⟩
      rcases h with hs | hs | hs
      · exact absurd (hset.2.symm.trans hs.1) (by simp)
      · exact absurd (hset.2.symm.trans hs.1) (by simp)
      · exact hs.2
  | read hload => exact Or.inl (hstay rfl rfl rfl rfl rfl rfl rfl)
  | delayedWrite hdue => exact absurd hempty hdue
  | delayedSkip => exact Or.inl (hstay rfl rfl rfl rfl rfl rfl rfl)
  | delayedDone result lastFlush => exact Or.inl (hstay rfl rfl rfl rfl rfl rfl rfl)
  | pauseRequested flag => exact Or.inl (hstay rfl rfl rfl rfl rfl rfl rfl)
  | stopRequested flag => exact Or.inl (hstay rfl rfl rfl rfl rfl rfl rfl)
  | succeeded hpt | flooded hpt | indefinite hpt | pausing hpt | transient hpt | exhausted hpt
  | final hpt => exact absurd (hpt.symm.trans hpoint) (by simp)
  | begin hset hpt | primeFill hset hpt | primeReceive hset hpt | primed hset hpt
  | acquire hset hpt | loopControl hset hpt | loopPop hset hpt | take hset hpt
  | popReceive hset hpt | popFill hset hpt | popEnd hset hpt | sleep hset hpt
  | interrupt hset hpt | send hset hpt | waited hset hpt | retry hset hpt | giveUp hset hpt
  | returned hset hpt | stopped hset hpt | append hset hpt | flushed hset hpt | leave hset hpt
  | summarize hset hpt | failed hset hpt => exact absurd (hpt.symm.trans hpoint) (by simp)

end Executor
end Migration

namespace Runtime

/-- The labels of a run without a crash in which no operation raises. -/
def Label.undisturbed (l : Label) : Prop := l.writesSucceed ∧ l ≠ .crash

instance (l : Label) : Decidable l.undisturbed := inferInstanceAs (Decidable (_ ∧ _))

namespace App

variable {id : JobId} {s s' : App} {l : Label} {summary : Counters} {final : JobState}

/-! ## The end of a run in the program -/

/-- The final state is the last write of the job, with this row. -/
def Committed (id : JobId) (final : JobState) (db : Database) (job : Job) : Prop :=
  db.lastEntry id = some (finalWrite final, job) ∧ job.state = final

/-- The final state is the last write of the job that waits, or it is committed. -/
def Submitted (id : JobId) (final : JobState) (db : Database) (job : Job) (ws : List JobWrite) :
    Prop :=
  ws.getLast? = some (finalWrite final) ∨ (ws = [] ∧ Committed id final db job)

/-- What holds in a run without a crash and without a failing write. -/
structure Undisturbed (id : JobId) (s : App) : Prop where
  course : OnCourse id s
  running : s.recovering = []
  nothing : s.NothingFails
  futures : FuturesOk s.writer

theorem Undisturbed.step (hs : Undisturbed id s) (hl : l.undisturbed) (h : s.Step l s') :
    Undisturbed id s' := by
  refine ⟨hs.course.step (hs.nothing.resultsCommitted id l) h, ?_, hs.nothing.step hl.1 h, ?_⟩
  · cases h.forJob id hs.course.sound with
    | quiet hq => exact hq.recovering.trans hs.running
    | crash hcrash => exact absurd hcrash hl.2
    | normalize hrec => exact absurd (hs.running.symm.trans hrec) (by simp)
    | built hadm => exact hs.running
    | lane hrec _ _ _ => exact hrec
    | executor hrec _ _ _ _ => exact hrec
  · cases h with
    | crash => exact absurd rfl hl.2
    | normalize hrec => exact absurd (hs.running.symm.trans hrec) (by simp)
    | lane hrec hlab hw => exact hs.futures.step hs.nothing (laneLabel_ne_submit hlab) hw
    | executor hrec hjob he hm hout =>
        intro p hp
        simp only [applyOutcome] at hp
        split at hp
        · exact hs.futures p hp
        · exact hs.futures p hp
    | tick d => exact hs.futures
    | refused l => exact hs.futures
    | built hadm => exact hs.futures
    | foreign critical fails hown => exact hs.futures

theorem Undisturbed.not_raised (hs : Undisturbed id s) {e : Executor} {m : Move}
    {fails : Option String} (hm : s.moveOf e l = some (m, fails)) (message : String) :
    m ≠ .resumed (.error message) := by
  rintro rfl
  obtain ⟨a, -, hfuture⟩ := future_of_resumed hm
  exact absurd (hs.futures.future hfuture) (by simp)

/-- The counters have been read, and `run` ends with them. -/
structure Ending (id : JobId) (summary : Counters) (final : JobState) (s : App) : Prop where
  undisturbed : Undisturbed id s
  state : final = Executor.finalState summary
  stage : ∃ job, s.db.jobs[id]? = some job ∧
    ((∃ e, s.executors id = some e ∧ e.point = .publish summary final ∧
        e.Closing final (UpTo id s.writer.waiting)
          (Submitted id final s.db job (laneOf id s.writer.waiting))
          (laneOf id s.writer.waiting = [] ∧ Committed id final s.db job)) ∨
      (s.executors id = none ∧ laneOf id s.writer.waiting = [] ∧
        Committed id final s.db job))
  log : ∀ summary' final', .completed id summary' final' ∈ s.log →
    summary' = summary ∧ final' = final ∧ s.executors id = none

theorem complete_finalState (summary : Counters) : Job.Complete (Executor.finalState summary) := by
  rw [Executor.finalState]
  split
  · exact Or.inl rfl
  · exact Or.inr rfl

/-- The results of a run that is about to end are not in the buffer. -/
theorem resultBuffer_of_publish (hs : OnCourse id s) {e : Executor}
    (he : s.executors id = some e) (hpoint : e.point = .publish summary final)
    {upTo : ℕ → Prop} {submitted committed : Prop}
    (h : e.Closing final upTo submitted committed) : e.resultBuffer = [] := by
  obtain ⟨ex, hfollows, job, -, -, hruns⟩ := hs.course
  rcases hfollows with rfl | ⟨-, e', he', hstart⟩
  · rw [he] at hruns
    obtain ⟨rest, hrunning⟩ := hruns
    have hends : e.point.Ends e.buffered rest := by
      have hscript := hrunning.script
      rcases h with hs | hs | hs
      · rw [hs.1] at hscript
        exact hscript.2
      · rw [hs.1] at hscript
        exact hscript.2
      · rcases hs.1 with ht | ht
        · rw [ht.1] at hscript
          exact hscript.2
        · rw [ht] at hscript
          exact hscript.2
    rw [hpoint] at hends
    exact List.map_eq_nil_iff.mp hends.1
  · obtain rfl := Option.some.inj (he.symm.trans he')
    exact hstart.results

/-- The writer thread keeps the final state at the end of the job's lane, or as its last write. -/
theorem Submitted.lane (hs : Undisturbed id s) {job : Job} (hjob : s.db.jobs[id]? = some job)
    (h : Submitted id final s.db job (laneOf id s.writer.waiting)) {wl : WriterLabel WriteTask}
    {w : Lane} (hl : ∀ t, wl ≠ .submit t) (hw : s.writer.step lane wl = some w) :
    ∃ job', w.database.jobs[id]? = some job' ∧
      Submitted id final w.database job' (laneOf id w.waiting) := by
  obtain ⟨ex, -, job₁, hjob₁, hconsistent, hruns⟩ := hs.course.course
  obtain rfl := Option.some.inj (hjob.symm.trans hjob₁)
  have hrule := lane_rule (Q := Submitted id final)
    (fun db job v ws q hjob _ _ hQ => ?_) (fun db job v ws hv hQ => ?_)
    (fun hfail => ?_) hl hw (fun b hb hfails => ?_) ⟨job, hjob, hconsistent, hruns, h⟩
  · obtain ⟨job', hjob', -, -, hQ'⟩ := hrule
    exact ⟨job', hjob', hQ'⟩
  · rcases hQ with hlast | ⟨hnil, -⟩
    · cases ws with
      | nil =>
          obtain rfl := Option.some.inj hlast
          exact Or.inr ⟨rfl, Database.lastEntry_applyJob hjob _, rfl⟩
      | cons v' ws => exact Or.inl (by rwa [List.getLast?_cons_cons] at hlast)
    · exact absurd hnil (by simp)
  · refine hQ.imp_right fun ⟨hnil, hentry, hstate⟩ => ⟨hnil, ?_, hstate⟩
    rw [Database.lastEntry_apply_of_other hv]
    exact hentry
  · obtain ⟨b, hb, p, hp, hfails⟩ := hfail
    exact absurd (hs.nothing p (mem_waiting_of_batches hb hp)) hfails
  · obtain ⟨p, hp, hraise⟩ := hfails
    exact absurd (hs.nothing p (mem_waiting_of_batches hb hp)) hraise

/-- The executor of the job moves while its run ends. -/
theorem Ending.own_executor (hs : Ending id summary final s) {e : Executor}
    (he : s.executors id = some e) {m : Move} {fails : Option String} {out : Outcome}
    (hm : s.moveOf e l = some (m, fails))
    (ht : Executor.Transition (s.env e.accountId) e m out)
    (hnext : Undisturbed id (s.applyOutcome id e out fails)) :
    Ending id summary final (s.applyOutcome id e out fails) := by
  have hund := hs.undisturbed
  have hid := hund.course.sound.filed id e he
  have hself : (s.applyOutcome id e out fails).executors id = out.executor :=
    Function.update_self ..
  obtain ⟨job, hjob, hstage⟩ := hs.stage
  rcases hstage with ⟨e₁, he₁, hpoint, hclosing⟩ | ⟨hnone, -⟩
  · obtain rfl := Option.some.inj (he.symm.trans he₁)
    have hold : ∀ summary' final', .completed id summary' final' ∉ s.log := by
      intro summary' final' hlog
      exact absurd (he.symm.trans (hs.log _ _ hlog).2.2) (by simp)
    have hresumed : ∀ a, m = .resumed (.ok ()) → e.awaiting = some a →
        UpTo id s.writer.waiting a.future →
        Submitted id final s.db job (laneOf id s.writer.waiting) →
        laneOf id s.writer.waiting = [] ∧ Committed id final s.db job := by
      rintro a rfl ha hup hsub
      obtain ⟨b, hb, hfuture⟩ := future_of_resumed hm
      obtain rfl := Option.some.inj (ha.symm.trans hb)
      have hnil : laneOf id s.writer.waiting = [] := hup.laneOf_eq_nil fun p hp =>
        (hund.course.sound.numbered.lt_of_waiting hp).2 _ _ hfuture
      rw [hnil] at hsub
      exact ⟨hnil, (hsub.resolve_left (by simp)).2⟩
    have hup : out.write = none → ∀ k, UpTo id s.writer.waiting k →
        UpTo id (s.applyOutcome id e out fails).writer.waiting k := by
      intro hw k hk
      rw [waiting_applyOutcome, hw]
      simpa using hk
    rcases hclosing.transition hpoint (resultBuffer_of_publish hund.course he hpoint hclosing)
        (hund.not_raised hm) hresumed hup ht with ⟨e', he', hpoint', hev, hwrites⟩ |
        ⟨hex, hw, ⟨hnil, hcom⟩, hev⟩
    · refine ⟨hnext, hs.state, ⟨job, by rw [db_applyOutcome]; exact hjob, Or.inl
        ⟨e', hself.trans he', hpoint', ?_⟩⟩, fun summary' final' hlog => ?_⟩
      · rw [db_applyOutcome, laneOf_applyOutcome]
        rcases hwrites with ⟨hnone, hclosing'⟩ | ⟨hone, htodo, haw⟩
        · rw [← hid, hnone, List.append_nil, hid]
          exact hclosing'
        · refine Or.inr (Or.inl ⟨htodo, _, haw, upTo_next hund.course.sound, Or.inl ?_⟩)
          rw [← hid, hone, List.getLast?_append]
          rfl
      · simp only [applyOutcome, hev, Option.toList_none, List.append_nil] at hlog
        exact absurd hlog (hold summary' final')
    · refine ⟨hnext, hs.state, ⟨job, by rw [db_applyOutcome]; exact hjob, Or.inr
        ⟨hself.trans hex, ?_, by rw [db_applyOutcome]; exact hcom⟩⟩, fun summary' final' hlog => ?_⟩
      · rw [laneOf_applyOutcome, hnil, Outcome.jobWrites_of_silent hw]
        rfl
      · simp only [applyOutcome, hev, Option.toList_some, List.mem_append, List.mem_singleton]
          at hlog
        obtain ⟨-, rfl, rfl⟩ := Event.completed.inj (hlog.resolve_left (hold summary' final'))
        exact ⟨rfl, rfl, hself.trans hex⟩
  · exact absurd (he.symm.trans hnone) (by simp)

/-- **One step** at the end of a run. -/
theorem Ending.step (hs : Ending id summary final s) (hl : l.undisturbed) (h : s.Step l s') :
    Ending id summary final s' := by
  have hund := hs.undisturbed
  have hnext := hund.step hl h
  obtain ⟨job, hjob, hstage⟩ := hs.stage
  cases h.forJob id hund.course.sound with
  | quiet hq =>
      obtain ⟨later, hlog, hothers⟩ := hq.log
      refine ⟨hnext, hs.state, ⟨job, by rw [hq.db]; exact hjob, ?_⟩, fun summary' final' hmem => ?_⟩
      · rw [hq.executor, hq.lane, hq.db]
        refine hstage.imp_left ?_
        rintro ⟨e, he, hpoint, hclosing⟩
        exact ⟨e, he, hpoint, hclosing.mono hq.upTo (fun h => h) fun h => h⟩
      · rw [hq.executor]
        rw [hlog] at hmem
        exact hs.log _ _ ((List.mem_append.mp hmem).resolve_right fun hev => hothers _ hev rfl)
  | crash hcrash => exact absurd hcrash hl.2
  | normalize hrec => exact absurd (hund.running.symm.trans hrec) (by simp)
  | built hadm =>
      -- the job is complete, and no command starts it again
      rcases hstage with ⟨e, he, -⟩ | ⟨-, -, -, hstate⟩
      · exact absurd (hadm.idle.symm.trans he) (by simp)
      · obtain rfl := Option.some.inj (hjob.symm.trans hadm.stored)
        have hcomplete := complete_finalState summary
        rw [← hs.state, ← hstate] at hcomplete
        rcases hcomplete with hc | hc <;> rcases hadm.state with ha | ha | ha <;>
          exact absurd (ha.symm.trans hc) (by simp)
  | @lane wl w hrec hlab hne hw =>
      have hup : ∀ k, UpTo id s.writer.waiting k → UpTo id w.waiting k :=
        fun k hk => hk.sublist fun p hp => mem_waiting_step hne hw hp
      have hnil : laneOf id s.writer.waiting = [] → laneOf id w.waiting = [] :=
        fun hnil => laneOf_eq_nil_of_subset hnil fun p hp => mem_waiting_step hne hw hp
      obtain ⟨ex, -, job', hjob', -⟩ := hnext.course.course
      have hsub : Submitted id final s.db job (laneOf id s.writer.waiting) →
          Submitted id final w.database job' (laneOf id w.waiting) := by
        intro hsub
        obtain ⟨job₁, hjob₁, hsub'⟩ := hsub.lane hund hjob hne hw
        obtain rfl := Option.some.inj (hjob'.symm.trans hjob₁)
        exact hsub'
      have hcom : laneOf id s.writer.waiting = [] ∧ Committed id final s.db job →
          laneOf id w.waiting = [] ∧ Committed id final w.database job' := by
        intro hcom
        have hsub' := hsub (Or.inr hcom)
        rw [hnil hcom.1] at hsub' ⊢
        exact hsub'.resolve_left (by simp)
      refine ⟨hnext, hs.state, ⟨job', hjob', ?_⟩, hs.log⟩
      rcases hstage with ⟨e, he, hpoint, hclosing⟩ | ⟨hnone, hclosed⟩
      · exact Or.inl ⟨e, he, hpoint, hclosing.mono hup hsub hcom⟩
      · exact Or.inr ⟨hnone, hcom hclosed⟩
  | executor hrec hjob' he hm ht => exact hs.own_executor he hm ht hnext

/-! ## Whether the summary is current -/

/-- The row agrees with the summary, and no item is left. -/
def Fresh (id : JobId) (summary : Counters) (s : App) : Prop :=
  ∃ job, s.db.jobs[id]? = some job ∧ job.pending = [] ∧ job.counters = summary

/-- A write of a job without pending items leaves its counters. -/
theorem counters_apply {job : Job} {w : JobWrite} {q : List ℕ}
    (h : Consumes w job.pending q) (hnil : job.pending = []) :
    (job.apply w).pending = [] ∧ (job.apply w).counters = job.counters := by
  refine ⟨?_, ?_⟩
  · rw [h.pending_apply]
    exact List.eq_nil_of_suffix_nil (hnil ▸ h.suffix)
  · cases w with
    | updateItems us c =>
        obtain ⟨hne, -, hpend, -⟩ := h
        rw [hnil, eq_comm, List.append_eq_nil_iff, List.map_eq_nil_iff] at hpend
        exact absurd hpend.1 hne
    | _ => rfl

theorem Fresh.step (hs : Undisturbed id s) (hfresh : Fresh id summary s) (hl : l.undisturbed)
    (h : s.Step l s') : Fresh id summary s' := by
  obtain ⟨job, hjob, hnil, hcounters⟩ := hfresh
  cases h.forJob id hs.course.sound with
  | quiet hq => exact ⟨job, by rw [hq.db]; exact hjob, hnil, hcounters⟩
  | crash hcrash => exact absurd hcrash hl.2
  | normalize hrec => exact absurd (hs.running.symm.trans hrec) (by simp)
  | built hadm => exact ⟨job, hjob, hnil, hcounters⟩
  | executor hrec hjob' he hm ht =>
      exact ⟨job, by rw [db_applyOutcome]; exact hjob, hnil, hcounters⟩
  | lane hrec hlab hne hw =>
      obtain ⟨ex, -, job₁, hjob₁, hconsistent, hruns⟩ := hs.course.course
      obtain rfl := Option.some.inj (hjob.symm.trans hjob₁)
      obtain ⟨job', hjob', -, -, hQ⟩ := lane_rule
        (Q := fun _ job _ => job.pending = [] ∧ job.counters = summary)
        (fun db job v ws q _ _ hconsumes hQ =>
          ⟨(counters_apply hconsumes hQ.1).1, (counters_apply hconsumes hQ.1).2.trans hQ.2⟩)
        (fun _ _ _ _ _ hQ => hQ) (fun _ _ _ _ _ _ hQ => hQ) hne hw
        (hs.nothing.resultsCommitted id _ _ hlab)
        ⟨job, hjob, hconsistent, hruns, hnil, hcounters⟩
      exact ⟨job', hjob', hQ⟩

/-- The condition on a step: when it reads the counters of the job, no result batch of the job
waits in the writer. -/
def SummaryCurrent (id : JobId) (s : App) (l : Label) : Prop :=
  l = .advance id → ∀ e, s.executors id = some e → e.Settled → e.point = .summary →
    ∀ jw ∈ laneOf id s.writer.waiting, jw.critical = true

/-- The run of the job has not come to its end. -/
structure BeforeEnd (id : JobId) (s : App) : Prop where
  undisturbed : Undisturbed id s
  point : ∀ e, s.executors id = some e → ∀ summary final, e.point ≠ .publish summary final
  log : ∀ summary final, .completed id summary final ∉ s.log

/-- The counters are read. -/
theorem BeforeEnd.ending (hs : BeforeEnd id s) {e : Executor} (he : s.executors id = some e)
    {m : Move} {fails : Option String} {out : Outcome}
    (ht : Executor.Transition (s.env e.accountId) e m out)
    (hnext : Undisturbed id (s.applyOutcome id e out fails)) {e' : Executor}
    (he' : out.executor = some e') (hpoint : e'.point = .publish summary final) :
    m = .advance ∧ e.Settled ∧ e.point = .summary ∧
      Ending id summary final (s.applyOutcome id e out fails) ∧
      ∃ job, s.db.jobs[id]? = some job ∧ job.Consistent ∧ summary = job.counters ∧
        Drains (laneOf id s.writer.waiting) job.pending [] := by
  have hund := hs.undisturbed
  have hid := hund.course.sound.filed id e he
  have hself : (s.applyOutcome id e out fails).executors id = out.executor :=
    Function.update_self ..
  rcases ht.publish_eq he' hpoint with hold | ⟨hm, hset, hpt, hsum, hfin, hw, hev, hjid, hacc, haw,
    htodo⟩
  · exact absurd hold (hs.point e he summary final)
  · obtain ⟨ex, hfollows, job, hjob, hconsistent, hruns⟩ := hund.course.course
    refine ⟨hm, hset, hpt, ⟨hnext, hfin, ⟨job, by rw [db_applyOutcome]; exact hjob, Or.inl
      ⟨e', hself.trans he', hpoint, Or.inl ⟨?_, haw⟩⟩⟩, fun summary' final' hlog => ?_⟩,
      job, hjob, hconsistent, ?_, ?_⟩
    · simpa only [Executor.setJob, Executor.setAccount, hjid, hacc] using htodo
    · simp only [applyOutcome, hev, Option.toList_none, List.append_nil] at hlog
      exact absurd hlog (hs.log summary' final')
    · rw [hsum, hid, Database.summary]
      have hrow : (s.env e.accountId).db.jobs[id]? = some job := hjob
      rw [hrow]
      rfl
    · rcases hfollows with rfl | ⟨-, e₁, he₁, hstart⟩
      · rw [he] at hruns
        obtain ⟨rest, hrunning⟩ := hruns
        have hends := hrunning.ends hset
        rw [hpt] at hends
        have hlane := hrunning.lane
        rw [hends.1, hends.2] at hlane
        exact hlane
      · obtain rfl := Option.some.inj (he.symm.trans he₁)
        rcases hstart.point_eq with hp | hp <;> exact absurd (hpt.symm.trans hp) (by simp)

/-- **One step** before the end: the run goes on, or the counters are read. -/
theorem BeforeEnd.step (hs : BeforeEnd id s) (hl : l.undisturbed) (hstep : s.step l = some s') :
    BeforeEnd id s' ∨
      ∃ summary final, Ending id summary final s' ∧
        (SummaryCurrent id s l → Fresh id summary s') ∧
        (¬ SummaryCurrent id s l → summary.processed < summary.total) := by
  have hund := hs.undisturbed
  have h := step_cases hstep
  have hnext := hund.step hl h
  cases h.forJob id hund.course.sound with
  | quiet hq =>
      obtain ⟨later, hlog, hothers⟩ := hq.log
      refine Or.inl ⟨hnext, fun e he => hs.point e (hq.executor.symm.trans he),
        fun summary final hmem => ?_⟩
      rw [hlog] at hmem
      exact hs.log _ _ ((List.mem_append.mp hmem).resolve_right fun hev => hothers _ hev rfl)
  | crash hcrash => exact absurd hcrash hl.2
  | normalize hrec => exact absurd (hund.running.symm.trans hrec) (by simp)
  | built hadm =>
      refine Or.inl ⟨hnext, fun e he => ?_, fun summary final hmem => ?_⟩
      · simp only [withExecutor, Function.update_self, Option.some.injEq] at he
        exact he ▸ fun _ _ => by simp [newExecutor]
      · exact hs.log summary final (by simpa [withExecutor] using hmem)
  | lane hrec hlab hne hw => exact Or.inl ⟨hnext, hs.point, hs.log⟩
  | @executor e m fails out hrec hlabel he hm ht =>
      have hself : (s.applyOutcome id e out fails).executors id = out.executor :=
        Function.update_self ..
      by_cases hpub : ∃ e' summary final, out.executor = some e' ∧ e'.point = .publish summary final
      · obtain ⟨e', summary, final, he', hpoint⟩ := hpub
        obtain ⟨rfl, hset, hpt, hending, job, hjob, hconsistent, hsum, hlane⟩ :=
          hs.ending he ht hnext he' hpoint
        refine Or.inr ⟨summary, final, hending, fun hcurrent => ?_, fun hnot => ?_⟩
        · have hall := hcurrent (label_of_advance hm hlabel) e he hset hpt
          refine ⟨job, by rw [db_applyOutcome]; exact hjob, ?_, hsum.symm⟩
          exact (hlane.eq_of_critical hall).symm
        · have hne : job.pending ≠ [] := by
            intro hnil
            refine hnot fun _ _ _ _ _ jw hjw => ?_
            obtain ⟨front, hfront, hconsumed⟩ := hlane.consumed
            cases jw with
            | updateItems us c =>
                obtain ⟨hus, hall⟩ := hconsumed us c hjw
                obtain ⟨u, hu⟩ := List.exists_mem_of_ne_nil us hus
                rw [hnil, eq_comm, List.append_nil] at hfront
                exact absurd (hfront ▸ (hall u hu).1) (by simp)
            | _ => rfl
          have hpos := List.length_pos_of_ne_nil hne
          have hsplit := hconsistent.processed_add_pending
          rw [hsum]
          omega
      · refine Or.inl ⟨hnext, fun e' he' summary final hpoint => ?_, fun summary final hmem => ?_⟩
        · exact hpub ⟨e', summary, final, hself.symm.trans he', hpoint⟩
        · refine (List.mem_append.mp hmem).elim (hs.log summary final) fun hev => ?_
          exact hs.point e he summary final (ht.completed_point (Option.mem_toList.mp hev))

/-! ## Over runs -/

/-- **What is published is true**: the final state is the last write of the job, it is
COMPLETED_WITH_ERRORS exactly when the row that it left has a FAILED item, and the summary is the
counters of that row. -/
def Published (id : JobId) (s : App) (summary : Counters) (final : JobState) : Prop :=
  ∃ row, s.db.lastEntry id = some (.setState final none none true, row) ∧
    final = (if row.items.rows.any fun r => r.state = .failed then .completedWithErrors
      else .completed) ∧
    summary = row.counters

theorem Ending.published (hs : Ending id summary final s) (hfresh : Fresh id summary s)
    (hnone : s.executors id = none) : Published id s summary final := by
  obtain ⟨job, hjob, hstage⟩ := hs.stage
  obtain ⟨job₁, hjob₁, -, hcounters⟩ := hfresh
  obtain rfl := Option.some.inj (hjob.symm.trans hjob₁)
  rcases hstage with ⟨e, he, -⟩ | ⟨-, -, hentry, -⟩
  · exact absurd (hnone.symm.trans he) (by simp)
  · obtain ⟨ex, -, job₂, hjob₂, hconsistent, -⟩ := hs.undisturbed.course.course
    obtain rfl := Option.some.inj (hjob.symm.trans hjob₂)
    refine ⟨job, hentry, ?_, hcounters.symm⟩
    have hfailed : summary.failed = job.items.count .failed := by
      rw [← hcounters, hconsistent.counters]
      rfl
    have hany : (job.items.rows.any fun r => r.state = .failed) = true ↔
        0 < job.items.count .failed := by
      rw [ItemTable.count_pos_iff, List.any_eq_true]
      simp
    rw [hs.state, Executor.finalState, hfailed]
    by_cases hzero : job.items.count .failed = 0
    · rw [if_pos hzero, if_neg]
      rw [hany, hzero]
      exact lt_irrefl 0
    · rw [if_neg hzero, if_pos (hany.mpr (Nat.pos_of_ne_zero hzero))]

theorem Ending.not_published (hs : Ending id summary final s)
    (hlt : summary.processed < summary.total) (hnone : s.executors id = none) :
    ¬ Published id s summary final := by
  rintro ⟨row, hentry, -, hsum⟩
  obtain ⟨job, hjob, hstage⟩ := hs.stage
  rcases hstage with ⟨e, he, -⟩ | ⟨-, -, hentry', hstate⟩
  · exact absurd (hnone.symm.trans he) (by simp)
  · obtain rfl := (Prod.mk.inj (Option.some.inj (hentry.symm.trans hentry'))).2
    obtain ⟨ex, -, job₁, hjob₁, hconsistent, -⟩ := hs.undisturbed.course.course
    obtain rfl := Option.some.inj (hjob.symm.trans hjob₁)
    have hcomplete := complete_finalState summary
    rw [← hs.state, ← hstate] at hcomplete
    have hsplit := hconsistent.processed_add_pending
    rw [hconsistent.complete hcomplete, ← hsum, List.length_nil, Nat.add_zero] at hsplit
    exact absurd hsplit (Nat.ne_of_lt hlt)

/-- The counters are read where the condition speaks. -/
theorem summaryCurrent_of_goes_on (hstep : s.step l = some s')
    (h : ∀ e, s'.executors id = some e → ∀ summary final, e.point ≠ .publish summary final) :
    SummaryCurrent id s l := by
  rintro rfl e he hset hpoint
  simp only [step] at hstep
  split_ifs at hstep with hrec
  rw [stepExecutor, jobOf, Option.bind_some, he, Option.bind_some, moveOf, Option.bind_some,
    Option.map_eq_some_iff] at hstep
  obtain ⟨out, hout, rfl⟩ := hstep
  rw [Executor.step, Executor.advance, if_neg (by simp [hset.1, hset.2]), hpoint] at hout
  obtain rfl := Option.some.inj hout
  exact absurd rfl (h _ (Function.update_self ..) _ _)

/-- What holds along a run in which the counters are current. -/
def Truthful (id : JobId) (s : App) : Prop :=
  BeforeEnd id s ∨ ∃ summary final, Ending id summary final s ∧ Fresh id summary s

theorem truthful_start {db : Database} {job : Job} (hjob : db.jobs[id]? = some job)
    (hconsistent : job.Consistent) (now : ℕ) : Truthful id (App.start db now) :=
  Or.inl
    { undisturbed :=
        { course := onCourse_start hjob hconsistent now
          running := rfl
          nothing := nothingFails_start db now
          futures := fun _ hp => absurd hp (by simp [App.start, DBWriter.start]) }
      point := fun _ he => absurd he (by simp [App.start])
      log := fun _ _ hlog => absurd hlog (by simp [App.start]) }

theorem Truthful.step (hs : Truthful id s) (hcurrent : SummaryCurrent id s l)
    (hl : l.undisturbed) (hstep : s.step l = some s') : Truthful id s' := by
  rcases hs with hbefore | ⟨summary, final, hending, hfresh⟩
  · rcases hbefore.step hl hstep with hnext | ⟨summary, final, hending, hfresh, -⟩
    · exact Or.inl hnext
    · exact Or.inr ⟨summary, final, hending, hfresh hcurrent⟩
  · exact Or.inr ⟨summary, final, hending.step hl (step_cases hstep),
      hfresh.step hending.undisturbed hl (step_cases hstep)⟩

/-- A step that reads counters that are not current comes before the end. -/
theorem Truthful.beforeEnd (hs : Truthful id s) (h : ¬ SummaryCurrent id s l) :
    BeforeEnd id s := by
  rcases hs with hbefore | ⟨summary, final, hending, -⟩
  · exact hbefore
  · refine absurd (fun _ e he hset hpoint => ?_) h
    obtain ⟨job, -, hstage⟩ := hending.stage
    rcases hstage with ⟨e', he', hpoint', -⟩ | ⟨hnone, -⟩
    · obtain rfl := Option.some.inj (he.symm.trans he')
      exact absurd (hpoint.symm.trans hpoint') (by simp)
    · exact absurd (he.symm.trans hnone) (by simp)

/-- **The summary is true when the counters were current.**  In every run from a planned job,
without a crash and without a failing write, that has published the completion of the job: the
final state and the summary agree with the row that the final state was committed on, exactly when
no result batch of the job waited in the writer at the moment the counters were read. -/
theorem summary_published_iff (id : JobId) (account : AccountId) (group : GroupId)
    (items : List MemberId) (action : Action) (db : Database) (now : ℕ)
    (hjob : db.jobs[id]? = some (persist account group items action)) (ls : List Label)
    (hls : ∀ l ∈ ls, l.undisturbed) (s : App)
    (hrun : runLabels App.step (App.start db now) ls = some s) (summary : Counters)
    (final : JobState) (hcompleted : .completed id summary final ∈ s.log) :
    Published id s summary final ↔ Along App.step (SummaryCurrent id) (App.start db now) ls := by
  have hstart : Truthful id (App.start db now) :=
    truthful_start hjob (consistent_persist account group items action) now
  have htruthful : ∀ pre t, (∀ l ∈ pre, l ∈ ls) →
      runLabels App.step (App.start db now) pre = some t →
        Along App.step (SummaryCurrent id) (App.start db now) pre → Truthful id t := by
    intro pre t hpre hrunpre hal
    exact invariant_runLabels (fun _ _ _ hI hC hstep => hI.step hC.1 hC.2 hstep) hstart
      (hal.and_forall_mem fun l hl => hls l (hpre l hl)) hrunpre
  constructor
  · intro hpublished
    by_contra hnot
    obtain ⟨pre, l, post, t, t', rfl, hpre, hal, hl, hstep⟩ := exists_first_failure hrun hnot
    have ht := htruthful pre t (fun l hl => List.mem_append_left _ hl) hpre hal
    have hbefore := ht.beforeEnd hl
    rcases hbefore.step (hls l (by simp)) hstep with hgoes | ⟨summary', final', hending, -, hlt⟩
    · exact hl (summaryCurrent_of_goes_on hstep hgoes.point)
    · obtain ⟨u, hu, hrest⟩ := runLabels_append_eq_some.mp hrun
      obtain rfl := Option.some.inj (hpre.symm.trans hu)
      obtain ⟨v, hv, hpost⟩ := runLabels_cons_eq_some.mp hrest
      obtain rfl := Option.some.inj (hstep.symm.trans hv)
      have hend : Ending id summary' final' s :=
        invariant_runLabels (fun _ _ _ hI hC hstep => hI.step hC (step_cases hstep)) hending
          (along_of_forall_mem fun m hm => hls m
            (List.mem_append_right _ (List.mem_cons_of_mem _ hm))) hpost
      obtain ⟨rfl, rfl, hnone⟩ := hend.log summary final hcompleted
      exact hend.not_published (hlt hl) hnone hpublished
  · intro hal
    rcases htruthful ls s (fun l hl => hl) hrun hal with hbefore | ⟨summary', final', hend, hfresh⟩
    · exact absurd hcompleted (hbefore.log summary final)
    · obtain ⟨rfl, rfl, hnone⟩ := hend.log summary final hcompleted
      exact hend.published hfresh hnone

/-! ## A summary that is read too early -/

/-- The only member fails, and the window is exhausted: the executor is about to flush. -/
def failedAndExhausted : List Label :=
  [.start 0 1 (3 * second)] ++ enterLoop 0 ++ sendRpc 0 ++
    [.answer 0 (some ⟨.unknown, "unexpected", none⟩), .advance 0, .advance 0, .execute 0 none,
      .advance 0, .advance 0, .read 0, .advance 0, .advance 0]

/-- The flush of the natural end finds the result in the buffer. -/
def flushedAtEnd : List Label :=
  resultWrite 0 ++ [.advance 0] ++ criticalWrite 0 ++ criticalWrite 0 ++ [.advance 0]

/-- The background task takes the result first, and its write is still in the writer's queue when
the counters are read. -/
def flushedTooLate : List Label :=
  [.tick second, .delayed 0 none, .execute 0 none, .advance 0, .execute 0 none, .get, .get,
    .resumed 0] ++ criticalWrite 0 ++ [.advance 0]

/-- The job whose only invitation failed is COMPLETED, and its summary has no processed item. -/
theorem summary_read_too_early :
    ∃ s row, runLabels App.step (App.start (smallDatabase [persist 1 1 [1] .invite]) 0)
        (failedAndExhausted ++ flushedTooLate) = some s ∧
      .completed 0 ⟨1, 0, 0, 0, 0⟩ .completed ∈ s.log ∧
      s.db.lastEntry 0 = some (.setState .completed none none true, row) ∧
      row.items.rows.map Item.state = [.failed] ∧ row.counters = ⟨1, 1, 0, 0, 1⟩ ∧
      ¬ Published 0 s ⟨1, 0, 0, 0, 0⟩ .completed := by
  have h : ((runLabels App.step (App.start (smallDatabase [persist 1 1 [1] .invite]) 0)
      (failedAndExhausted ++ flushedTooLate)).map fun s =>
        (decide (.completed 0 ⟨1, 0, 0, 0, 0⟩ .completed ∈ s.log),
          (s.db.lastEntry 0).map fun entry =>
            (entry.1, entry.2.items.rows.map Item.state, entry.2.counters))) =
      some (true, some (.setState .completed none none true, [.failed], ⟨1, 1, 0, 0, 1⟩)) := by
    decide +kernel
  obtain ⟨s, hs, hview⟩ := Option.map_eq_some_iff.mp h
  simp only [Prod.mk.injEq, decide_eq_true_eq] at hview
  obtain ⟨hlog, hentry⟩ := hview
  obtain ⟨⟨w, row⟩, hentry, hrow⟩ := Option.map_eq_some_iff.mp hentry
  simp only [Prod.mk.injEq] at hrow
  obtain ⟨rfl, hitems, hcounters⟩ := hrow
  refine ⟨s, row, hs, hlog, hentry, hitems, hcounters, ?_⟩
  rintro ⟨row', hentry', -, hsummary⟩
  obtain rfl := (Prod.mk.inj (Option.some.inj (hentry.symm.trans hentry'))).2
  rw [hcounters] at hsummary
  exact absurd hsummary (by decide)

/-- The same job when the forced flush of the end writes the result: it is COMPLETED_WITH_ERRORS,
and the counters were current. -/
theorem summary_published_with_errors :
    ∃ s, runLabels App.step (App.start (smallDatabase [persist 1 1 [1] .invite]) 0)
        (failedAndExhausted ++ flushedAtEnd) = some s ∧
      Published 0 s ⟨1, 1, 0, 0, 1⟩ .completedWithErrors ∧
      Along App.step (SummaryCurrent 0) (App.start (smallDatabase [persist 1 1 [1] .invite]) 0)
        (failedAndExhausted ++ flushedAtEnd) := by
  have h : ((runLabels App.step (App.start (smallDatabase [persist 1 1 [1] .invite]) 0)
      (failedAndExhausted ++ flushedAtEnd)).map fun s =>
        (decide (.completed 0 ⟨1, 1, 0, 0, 1⟩ .completedWithErrors ∈ s.log),
          (s.db.lastEntry 0).map fun entry =>
            (entry.1, entry.2.items.rows.map Item.state, entry.2.counters))) =
      some (true,
        some (.setState .completedWithErrors none none true, [.failed], ⟨1, 1, 0, 0, 1⟩)) := by
    decide +kernel
  obtain ⟨s, hs, hview⟩ := Option.map_eq_some_iff.mp h
  simp only [Prod.mk.injEq, decide_eq_true_eq] at hview
  obtain ⟨hlog, hentry⟩ := hview
  obtain ⟨⟨w, row⟩, hentry, hrow⟩ := Option.map_eq_some_iff.mp hentry
  simp only [Prod.mk.injEq] at hrow
  obtain ⟨rfl, hitems, hcounters⟩ := hrow
  have hany : (row.items.rows.any fun r => r.state = .failed) =
      (row.items.rows.map Item.state).any fun state => state = .failed := by
    rw [List.any_map]
    rfl
  have hpublished : Published 0 s ⟨1, 1, 0, 0, 1⟩ .completedWithErrors := by
    refine ⟨row, hentry, ?_, hcounters.symm⟩
    rw [hany, hitems]
    decide
  exact ⟨s, hs, hpublished, (summary_published_iff 0 1 1 [1] .invite
    (smallDatabase [persist 1 1 [1] .invite]) 0 rfl (failedAndExhausted ++ flushedAtEnd)
    (by decide) s hs _ _ hlog).mp hpublished⟩

end App
end Runtime
end MigrationStudio
