import MigrationStudio.Runtime.ServerGate
import MigrationStudio.Runtime.StatesWaiting
import MigrationStudio.Runtime.Studio

/-!
# The execution of a job

A job has one execution at most, and every state that waits for it is awaited by that execution.
`Studio.Sole` says so together with what carries it: the types of the jobs that are run, scanned and
open, the places in which a scan waits to be begun, the event that a call is registered with.  A job
stays open until its execution comes to its last states, and from then on only final states are
submitted.

* `Studio.Scanning`, `Studio.ResumedAlone`: the condition on a step.
* `Studio.Sole`: the invariant.
* `Sole.executor`, `Sole.app`: the steps of the migrations and of the writer.
* `Sole.enqueue`, `Sole.created`: the scans that wait to be begun.
-/

namespace MigrationStudio
namespace Runtime

open Foundations MigrationStudio.Core Accounts Jobs Telegram Storage Migration

/-! ## The invariant -/

namespace Studio

/-- A call of `scan` for the job is in progress, or waits to be begun. -/
def Scanning (s : Studio) (job : JobId) : Prop :=
  job ∈ s.queued ∨ ∃ event c, s.calls event = some c ∧ c.job = job

/-- **The job is resumed alone**: `resume_scan` passes its checks only while no call of `scan` for
the job is in progress or waits to be begun. -/
def ResumedAlone (s : Studio) (l : StudioLabel) : Prop :=
  ∀ job, l = .resumeScan job → s.resumable job = true → ¬ s.Scanning job

/-- An execution of the job awaits the state with the number `k`. -/
def Awaits (s : Studio) (job : JobId) (k : ℕ) : Prop :=
  (∃ e a, s.app.executors job = some e ∧ e.awaiting = some a ∧ a.future = k) ∨
    ∃ event c, s.calls event = some c ∧ c.job = job ∧ c.stating = some k

/-- The tasks that wait in the lane. -/
def waiting (s : Studio) : List (ℕ × WriteTask) := s.app.writer.waiting

/-- **The invariant.**  The executions of a job are one at most, and every state that waits is
awaited by it; a job is open as long as its execution has not come to its last states. -/
structure Sole (s : Studio) : Prop where
  sound : s.app.Sound
  recovered : s.app.recovering ≠ [] → (∀ j, s.app.executors j = none) ∧
    (∀ event, s.calls event = none) ∧ s.queued = [] ∧ s.opened = []
  migration : ∀ j e, s.app.executors j = some e → OfType j .migration s.db
  scan : ∀ j, s.Scanning j → OfType j .scan s.db
  opened : ∀ j ∈ s.opened, OneShot j s.db
  coming : ∀ j ∈ s.coming, s.app.executors j = none ∧ ¬ s.Scanning j
  calls : ∀ event event' c d, s.calls event = some c → s.calls event' = some d → c.job = d.job →
    event = event'
  queued : s.queued.Nodup
  apart : ∀ j ∈ s.queued, ∀ event c, s.calls event = some c → c.job ≠ j
  fresh : ∀ event, s.next ≤ event → s.calls event = none
  registered : ∀ event c, s.calls event = some c → s.cancelEvents c.job = some event
  awaited : ∀ p ∈ s.waiting, ∀ j st, p.2.write.jobState j = some st →
    s.Awaits j p.1 ∨ (OneShot j s.db ∧ st.terminal = true)
  ready : ∀ j ∈ s.queued, StillOpen j s.db s.waiting
  executors : ∀ j e, s.app.executors j = some e →
    (e.Final ∧ OnlyFinal j s.waiting) ∨ (e.Open ∧ StillOpen j s.db s.waiting)
  scans : ∀ event c, s.calls event = some c →
    (c.final = true ∧ OnlyFinal c.job s.waiting) ∨
      (c.final = false ∧ StillOpen c.job s.db s.waiting)

variable {s s' : Studio} {l : StudioLabel}

theorem sole_start (db : Database) (now : ℕ) (coming : List JobId) :
    (start db now coming).Sole where
  sound := App.sound_start db now
  recovered := fun h => absurd rfl h
  migration := fun j e he => absurd he (by simp [start, App.start])
  scan := by
    rintro j (h | ⟨event, c, hc, -⟩)
    · exact absurd h (by simp [start, queued])
    · exact absurd hc (by simp [start])
  opened := by simp [start]
  coming := by
    refine fun j _ => ⟨rfl, ?_⟩
    rintro (h | ⟨event, c, hc, -⟩)
    · exact absurd h (by simp [start, queued])
    · exact absurd hc (by simp [start])
  calls := fun event event' c d hc => absurd hc (by simp [start])
  queued := by simp [start, queued]
  apart := fun j h => absurd h (by simp [start, queued])
  fresh := fun event _ => rfl
  registered := fun event c hc => absurd hc (by simp [start])
  awaited := fun p hp => absurd hp (by
    simp [waiting, start, App.start, DBWriter.start, DBWriter.waiting])
  ready := fun j h => absurd h (by simp [start, queued])
  executors := fun j e he => absurd he (by simp [start, App.start])
  scans := fun event c hc => absurd hc (by simp [start])

/-- What is awaited by nobody does not wait. -/
theorem Sole.noState (hs : s.Sole) {j : JobId} (hshot : ¬ OneShot j s.db)
    (h : ∀ p ∈ s.waiting, ¬ s.Awaits j p.1) : NoState j s.waiting := by
  intro p hp
  by_contra hne
  obtain ⟨st, hst⟩ := Option.ne_none_iff_exists'.mp hne
  rcases hs.awaited p hp j st hst with hawaits | ⟨hone, -⟩
  · exact h p hp hawaits
  · exact hshot hone

/-- A future that is resolved does not wait. -/
theorem Sole.not_waiting (hs : s.Sole) {k : ℕ} {r : Except String Unit}
    (hk : s.app.writer.future k = some r) : ∀ p ∈ s.waiting, p.1 ≠ k := by
  intro p hp heq
  exact absurd ((hs.sound.numbered.lt_of_waiting hp).2 k r hk) (by omega)

/-- A job that is neither run nor scanned has no state waiting. -/
theorem Sole.noState_of_idle (hs : s.Sole) {j : JobId} (hshot : ¬ OneShot j s.db)
    (hexecutor : s.app.executors j = none)
    (hcalls : ∀ event c, s.calls event = some c → c.job ≠ j) :
    NoState j s.waiting := by
  refine hs.noState hshot fun p hp => ?_
  rintro (⟨e, a, he, -, -⟩ | ⟨event, c, hc, hjob, -⟩)
  · exact absurd (hexecutor.symm.trans he) (by simp)
  · exact hcalls event c hc hjob

theorem Sole.not_oneShot_of_scanning (hs : s.Sole) {j : JobId} (h : s.Scanning j) :
    ¬ OneShot j s.db :=
  fun hone => hone.not_scan (hs.scan j h)

/-- A job that is scanned has no executor. -/
theorem Sole.executor_of_scanning (hs : s.Sole) {j : JobId} (h : s.Scanning j) :
    s.app.executors j = none := by
  cases he : s.app.executors j with
  | none => rfl
  | some e => exact absurd ((hs.migration j e he).unique (hs.scan j h)) (by simp)

theorem scanning_of_call {event : ℕ} {c : ScanCall} (hc : s.calls event = some c) :
    s.Scanning c.job := Or.inr ⟨event, c, hc, rfl⟩

/-- A call that awaits no state, or one that is resolved, has none waiting. -/
theorem Sole.noState_of_call (hs : s.Sole) {event : ℕ} {c : ScanCall}
    (hc : s.calls event = some c)
    (hidle : ∀ k, c.stating = some k → ∃ r, s.app.writer.future k = some r) :
    NoState c.job s.waiting := by
  refine hs.noState (hs.not_oneShot_of_scanning (scanning_of_call hc)) fun p hp => ?_
  rintro (⟨e, a, he, -, -⟩ | ⟨event', d, hd, hjob, hstating⟩)
  · exact absurd ((hs.executor_of_scanning (scanning_of_call hc)).symm.trans he) (by simp)
  · obtain rfl := hs.calls event' event d c hd hc hjob
    obtain rfl := Option.some.inj (hc.symm.trans hd)
    obtain ⟨r, hr⟩ := hidle p.1 hstating
    exact hs.not_waiting hr p hp rfl

/-- An executor that awaits nothing, or what is resolved, has no state waiting. -/
theorem Sole.noState_of_executor (hs : s.Sole) {j : JobId} {e : Executor}
    (he : s.app.executors j = some e)
    (hidle : ∀ a, e.awaiting = some a → ∃ r, s.app.writer.future a.future = some r) :
    NoState j s.waiting := by
  refine hs.noState (fun hone => hone.not_migration (hs.migration j e he)) fun p hp => ?_
  rintro (⟨f, a, hf, haw, hk⟩ | ⟨event, c, hc, rfl, -⟩)
  · obtain rfl := Option.some.inj (he.symm.trans hf)
    obtain ⟨r, hr⟩ := hidle a haw
    exact hs.not_waiting hr p hp hk.symm
  · exact absurd ((hs.executor_of_scanning (scanning_of_call hc)).symm.trans he) (by simp)

/-! ## A write that gives no state -/

/-- The lane after a task. -/
theorem mem_waiting_submit {t : WriteTask} {p : ℕ × WriteTask} :
    p ∈ (s.submit t).waiting ↔ p ∈ s.waiting ∨ p = (s.future, t) := by
  rw [waiting, submit, App.waiting_submit, List.mem_append, List.mem_singleton]
  rfl

theorem Sole.submit (hs : s.Sole) {t : WriteTask} (hsound : (s.submit t).app.Sound)
    (ht : ∀ j st, t.write.jobState j = some st → OneShot j s.db ∧ st.terminal = true) :
    (s.submit t).Sole := by
  have hnone : ∀ j, ¬ OneShot j s.db → ∀ st, t.write.jobState j = some st → False :=
    fun j hj st hst => hj (ht j st hst).1
  refine { hs with sound := hsound, awaited := ?_, ready := ?_, executors := ?_, scans := ?_ }
  · intro p hp j st hst
    rcases mem_waiting_submit.mp hp with hp | rfl
    · exact hs.awaited p hp j st hst
    · exact Or.inr (ht j st hst)
  · exact fun j hj => (hs.ready j hj).submit fun st hst =>
      (hnone j (hs.not_oneShot_of_scanning (Or.inl hj)) st hst).elim
  · intro j e he
    have hj : ¬ OneShot j s.db := fun hone => hone.not_migration (hs.migration j e he)
    exact (hs.executors j e he).imp
      (fun h => ⟨h.1, h.2.submit fun st hst => (hnone j hj st hst).elim⟩)
      fun h => ⟨h.1, h.2.submit fun st hst => (hnone j hj st hst).elim⟩
  · intro event c hc
    have hj := hs.not_oneShot_of_scanning (scanning_of_call hc)
    exact (hs.scans event c hc).imp
      (fun h => ⟨h.1, h.2.submit fun st hst => (hnone _ hj st hst).elim⟩)
      fun h => ⟨h.1, h.2.submit fun st hst => (hnone _ hj st hst).elim⟩

/-! ## A step of the migrations, the writer or the other components -/

section Program

variable {a : App} {job : JobId} {e : Executor} {m : Move} {out : Outcome} {fails : Option String}

theorem jobState_of_foreign {w : LaneWrite} (h : ofMigration w = false) (j : JobId) :
    w.jobState j = none := by
  rw [LaneWrite.jobState, ofJob_of_foreign h]
  rfl

/-- The states that an executor of the job submits are those of its job. -/
theorem jobState_of_owns {w : LaneWrite} (h : Owns job w) {j : JobId} {st : JobState}
    (hst : w.jobState j = some st) : j = job := by
  cases w with
  | job k jw =>
      by_contra hne
      rw [LaneWrite.jobState_of_ne fun hk => hne (hk.symm.trans h.1)] at hst
      exact absurd hst (by simp)
  | _ => exact absurd hst (by simp [LaneWrite.jobState, LaneWrite.ofJob])

/-- The lane after a step of an executor. -/
theorem waiting_applyOutcome {p : ℕ × WriteTask} :
    p ∈ (s.app.applyOutcome job e out fails).writer.waiting ↔
      p ∈ s.waiting ∨ ∃ w, out.write = some w ∧ p = (s.future, taskOf w fails) := by
  rw [App.applyOutcome]
  cases out.write with
  | none => simp [waiting]
  | some w =>
      rw [App.waiting_submit, List.mem_append, List.mem_singleton]
      simp [waiting, future]

theorem db_applyOutcome : (s.app.applyOutcome job e out fails).db = s.db := by
  rw [App.db, App.applyOutcome]
  cases out.write <;> rfl

/-- What is open, or on its last states, stays so when the new states are. -/
theorem onlyFinal_applyOutcome {j : JobId} (h : OnlyFinal j s.waiting)
    (hnew : ∀ w st, out.write = some w → w.jobState j = some st → st.terminal = true) :
    OnlyFinal j (s.app.applyOutcome job e out fails).writer.waiting := by
  intro p hp st hst
  rcases waiting_applyOutcome.mp hp with hp | ⟨w, hw, rfl⟩
  · exact h p hp st hst
  · exact hnew w st hw hst

theorem stillOpen_applyOutcome {j : JobId} (h : StillOpen j s.db s.waiting)
    (hnew : ∀ w st, out.write = some w → w.jobState j = some st → st.terminal = false) :
    StillOpen j s.db (s.app.applyOutcome job e out fails).writer.waiting := by
  refine ⟨h.row, fun p hp st hst => ?_⟩
  rcases waiting_applyOutcome.mp hp with hp | ⟨w, hw, rfl⟩
  · exact h.waiting p hp st hst
  · exact hnew w st hw hst

/-- The executor after its step. -/
theorem Sole.executor_state (hs : s.Sole) (he : s.app.executors job = some e)
    {l : Label} (hm : s.app.moveOf e l = some (m, fails))
    (ht : Executor.Transition (s.app.env e.accountId) e m out) :
    ∀ f, out.executor = some f →
      (f.Final ∧ OnlyFinal job (s.app.applyOutcome job e out fails).writer.waiting) ∨
        (f.Open ∧ StillOpen job s.db (s.app.applyOutcome job e out fails).writer.waiting) := by
  intro f hf
  have hid : e.jobId = job := hs.sound.filed job e he
  have hstates : ∀ w st, out.write = some w → w.jobState job = some st → st ∈ e.states :=
    fun w st hw hst => (ht.submits hw (hid.symm ▸ hst)).1
  rcases hs.executors job e he with ⟨hfinal, honly⟩ | ⟨hopen, hstill⟩
  · exact Or.inl ⟨ht.final_of_final hfinal f hf, onlyFinal_applyOutcome honly
      fun w st hw hst => hfinal.2 st (hstates w st hw hst)⟩
  · rcases ht.final_of_open hopen f hf with hopen' | ⟨hfinal, hnone, hidle⟩
    · exact Or.inr ⟨hopen', stillOpen_applyOutcome hstill
        fun w st hw hst => hopen st (hstates w st hw hst)⟩
    · -- the last statements begin when no state of the job waits
      refine Or.inl ⟨hfinal, onlyFinal_applyOutcome
        (hs.noState_of_executor he fun a ha => ?_).onlyFinal
        fun w st hw => absurd (hnone.symm.trans hw) (by simp)⟩
      rcases hidle with hidle | ⟨message, rfl⟩
      · exact absurd (hidle.symm.trans ha) (by simp)
      · obtain ⟨b, hb, hfuture⟩ := App.future_of_resumed hm
        obtain rfl := Option.some.inj (ha.symm.trans hb)
        exact ⟨_, hfuture⟩

/-- Every state that waits is awaited after the step of an executor. -/
theorem Sole.awaited_executor (hs : s.Sole) (he : s.app.executors job = some e)
    {l : Label} (hm : s.app.moveOf e l = some (m, fails))
    (ht : Executor.Transition (s.app.env e.accountId) e m out)
    (hown : ∀ w ∈ out.write, Owns job w) :
    ∀ p ∈ (s.app.applyOutcome job e out fails).writer.waiting, ∀ j st,
      p.2.write.jobState j = some st →
        ({ s with app := s.app.applyOutcome job e out fails } : Studio).Awaits j p.1 ∨
          (OneShot j s.db ∧ st.terminal = true) := by
  intro p hp j st hst
  have hself : (s.app.applyOutcome job e out fails).executors job = out.executor :=
    App.executors_applyOutcome_self
  rcases waiting_applyOutcome.mp hp with hold | ⟨w, hw, rfl⟩
  · refine (hs.awaited p hold j st hst).imp_left fun hawaits => ?_
    rcases hawaits with ⟨f, a, hf, ha, hk⟩ | hcall
    · by_cases hj : j = job
      · subst hj
        obtain rfl := Option.some.inj (he.symm.trans hf)
        have hkeep := ht.keeps_awaiting ha fun r hr => by
          subst hr
          obtain ⟨b, hb, hfuture⟩ := App.future_of_resumed hm
          obtain rfl := Option.some.inj (ha.symm.trans hb)
          exact hs.not_waiting hfuture p hold hk.symm
        obtain ⟨g, hg, hga⟩ := Option.bind_eq_some_iff.mp hkeep
        exact Or.inl ⟨g, a, hself.trans hg, hga, hk⟩
      · exact Or.inl ⟨f, a, (App.executors_applyOutcome_of_ne hj).trans hf, ha, hk⟩
    · exact Or.inr hcall
  · obtain rfl := jobState_of_owns (hown w hw) hst
    obtain ⟨-, -, flush, hawaits⟩ := ht.submits hw ((hs.sound.filed j e he).symm ▸ hst)
    obtain ⟨g, hg, hga⟩ := Option.bind_eq_some_iff.mp hawaits
    exact Or.inl (Or.inl ⟨g, _, hself.trans hg, hga, rfl⟩)

theorem Sole.executor (hs : s.Sole) (hrec : s.app.recovering = [])
    (he : s.app.executors job = some e) {l : Label} (hm : s.app.moveOf e l = some (m, fails))
    (hout : e.step (s.app.env e.accountId) m = some out) :
    ({ s with app := s.app.applyOutcome job e out fails } : Studio).Sole := by
  have ht := Executor.transition_of_step hout
  have hid : e.jobId = job := hs.sound.filed job e he
  have hown : ∀ w ∈ out.write, Owns job w :=
    fun w hw => hid ▸ (ht.owned (hid.symm ▸ hs.sound.owned job e he)).2 w hw
  have hdb : Studio.db { s with app := s.app.applyOutcome job e out fails } = s.db :=
    db_applyOutcome
  have hrec' : (s.app.applyOutcome job e out fails).recovering = s.app.recovering := rfl
  have hothers : ∀ j, j ≠ job → ∀ w st, out.write = some w → w.jobState j = some st → False :=
    fun j hj w st hw hst => hj (jobState_of_owns (hown w hw) hst)
  have hscanned : ∀ j, s.Scanning j → j ≠ job := by
    rintro j hj rfl
    exact absurd ((hs.executor_of_scanning hj).symm.trans he) (by simp)
  refine
    { hs with
      sound := hs.sound.applyOutcome he ht
      recovered := fun h => absurd (hrec'.trans hrec) h
      migration := ?_
      scan := fun j hj => hdb.symm ▸ hs.scan j hj
      opened := fun j hj => hdb.symm ▸ hs.opened j hj
      coming := fun j hj => ?_
      awaited := fun p hp j st hst => hdb.symm ▸ hs.awaited_executor he hm ht hown p hp j st hst
      ready := fun j hj => hdb.symm ▸ stillOpen_applyOutcome (hs.ready j hj)
        fun w st hw hst => (hothers j (hscanned j (Or.inl hj)) w st hw hst).elim
      executors := ?_
      scans := fun event c hc => ?_ }
  · rw [hdb]
    exact App.update_executor (P := fun j _ => OfType j .migration s.db) hs.migration
      fun f hf => hs.migration job e he
  · obtain ⟨hnone, hscan⟩ := hs.coming j hj
    have hne : j ≠ job := by
      rintro rfl
      exact absurd (hnone.symm.trans he) (by simp)
    exact ⟨(App.executors_applyOutcome_of_ne hne).trans hnone, hscan⟩
  · intro j f hf
    by_cases hj : j = job
    · subst hj
      exact hdb.symm ▸ hs.executor_state he hm ht f (App.executors_applyOutcome_self.symm.trans hf)
    · have hf' := (App.executors_applyOutcome_of_ne hj).symm.trans hf
      exact hdb.symm ▸ (hs.executors j f hf').imp
        (fun h => ⟨h.1, onlyFinal_applyOutcome h.2
          fun w st hw hst => (hothers j hj w st hw hst).elim⟩)
        fun h => ⟨h.1, stillOpen_applyOutcome h.2
          fun w st hw hst => (hothers j hj w st hw hst).elim⟩
  · have hne := hscanned c.job (scanning_of_call hc)
    exact hdb.symm ▸ (hs.scans event c hc).imp
      (fun h => ⟨h.1, onlyFinal_applyOutcome h.2
        fun w st hw hst => (hothers _ hne w st hw hst).elim⟩)
      fun h => ⟨h.1, stillOpen_applyOutcome h.2
        fun w st hw hst => (hothers _ hne w st hw hst).elim⟩

end Program

/-! ## The other steps of the program of the migrations -/

section Program

variable {a : App} {al : Label}

/-- The recovery gives a job PAUSED, or leaves it. -/
theorem row_normalizeJob {db : Database} {now : ℕ} {id j : JobId} {row : Job}
    (h : db.jobs[j]? = some row) :
    ∃ row', (normalizeJob now id db).jobs[j]? = some row' ∧ row'.jobType = row.jobType ∧
      (row.state.terminal = true → row' = row) := by
  rw [normalizeJob]
  split
  · exact ⟨row, h, rfl, fun _ => rfl⟩
  · rename_i row₀ hrow₀
    split_ifs with hwait hstate
    · exact ⟨row, h, rfl, fun _ => rfl⟩
    · rw [Database.jobs_applyJob]
      split_ifs with hj
      · subst hj
        obtain rfl := Option.some.inj (hrow₀.symm.trans h)
        rw [h]
        refine ⟨_, rfl, rfl, fun hterminal => ?_⟩
        rcases hstate with hstate | hstate <;>
          exact absurd (hstate ▸ hterminal) (by simp [JobState.terminal])
      · exact ⟨row, h, rfl, fun _ => rfl⟩
    · exact ⟨row, h, rfl, fun _ => rfl⟩

/-- A program without executors, calls and waiting tasks. -/
theorem sole_of_idle (hsound : s.app.Sound) (hexecutors : ∀ j, s.app.executors j = none)
    (hcalls : ∀ event, s.calls event = none) (hqueued : s.queued = []) (hopened : s.opened = [])
    (hwaiting : s.waiting = []) : s.Sole := by
  have hscan : ∀ j, ¬ s.Scanning j := by
    rintro j (h | ⟨event, c, hc, -⟩)
    · exact absurd h (by simp [hqueued])
    · exact absurd ((hcalls event).symm.trans hc) (by simp)
  exact
    { sound := hsound
      recovered := fun _ => ⟨hexecutors, hcalls, hqueued, hopened⟩
      migration := fun j e he => absurd ((hexecutors j).symm.trans he) (by simp)
      scan := fun j hj => absurd hj (hscan j)
      opened := fun j hj => absurd hj (by simp [hopened])
      coming := fun j _ => ⟨hexecutors j, hscan j⟩
      calls := fun event _ c _ hc => absurd ((hcalls event).symm.trans hc) (by simp)
      queued := by simp [hqueued]
      apart := fun j hj => absurd hj (by simp [hqueued])
      fresh := fun event _ => hcalls event
      registered := fun event c hc => absurd ((hcalls event).symm.trans hc) (by simp)
      awaited := fun p hp => absurd hp (by simp [hwaiting])
      ready := fun j hj => absurd hj (by simp [hqueued])
      executors := fun j e he => absurd ((hexecutors j).symm.trans he) (by simp)
      scans := fun event c hc => absurd ((hcalls event).symm.trans hc) (by simp) }

/-- A new executor: no state of its job waits, and its row is open. -/
theorem Sole.built (hs : s.Sole) {id : JobId} {row : Job} {account : AccountId}
    {target : Telegram.GroupContext} {scheduler : InviteScheduler} (hcoming : id ∉ s.coming)
    (hadm : s.app.Admitted id row account target)
    (hsound : (s.app.withExecutor id (s.app.newExecutor id account target scheduler)).Sound) :
    ({ s with app := s.app.withExecutor id (s.app.newExecutor id account target scheduler) } :
      Studio).Sole := by
  have htype : OfType id .migration s.db := ⟨row, hadm.stored, hadm.migration⟩
  have hidle : NoState id s.waiting := by
    refine hs.noState_of_idle (fun hone => hone.not_migration htype) hadm.idle ?_
    rintro event c hc rfl
    exact absurd (htype.unique (hs.scan _ (scanning_of_call hc))) (by simp)
  have hopen : StillOpen id s.db s.waiting := by
    refine hidle.stillOpen fun row' hrow' => ?_
    rw [← Option.some.inj (hadm.stored.symm.trans hrow')]
    rcases hadm.state with h | h | h <;> rw [h] <;> rfl
  have hrec : (s.app.withExecutor id (s.app.newExecutor id account target scheduler)).recovering =
      s.app.recovering := rfl
  refine
    { hs with
      sound := hsound
      recovered := fun h => absurd (hrec.trans hadm.recovering) h
      migration := App.update_executor (P := fun j _ => OfType j .migration s.db) hs.migration
        fun f hf => htype
      coming := fun j hj => ?_
      awaited := fun p hp j st hst => ?_
      executors := App.update_executor (P := fun j e =>
        (e.Final ∧ OnlyFinal j s.waiting) ∨ (e.Open ∧ StillOpen j s.db s.waiting)) hs.executors
        fun f hf => Or.inr ⟨?_, hopen⟩ }
  · have hne : j ≠ id := fun h => hcoming (h ▸ hj)
    exact ⟨(Function.update_of_ne hne _ _).trans (hs.coming j hj).1, (hs.coming j hj).2⟩
  · refine (hs.awaited p hp j st hst).imp_left fun hawaits => hawaits.imp_left ?_
    rintro ⟨e, b, he, hb, hk⟩
    have hne : j ≠ id := by
      rintro rfl
      exact absurd (hadm.idle.symm.trans he) (by simp)
    exact ⟨e, b, (Function.update_of_ne hne _ _).trans he, hb, hk⟩
  · obtain rfl := Option.some.inj hf
    exact Executor.open_of_nil rfl

/-- The writer thread moves. -/
theorem Sole.lane (hs : s.Sole) (hrec : s.app.recovering = []) {wl : WriterLabel WriteTask}
    (hl : ∀ t, wl ≠ .submit t) {w : Lane} (hw : s.app.writer.step lane wl = some w)
    (hsound : ({ s.app with writer := w } : App).Sound) :
    ({ s with app := { s.app with writer := w } } : Studio).Sole :=
  { hs with
    sound := hsound
    recovered := fun h => absurd hrec h
    migration := fun j e he => (hs.migration j e he).lane hl hw
    scan := fun j hj => (hs.scan j hj).lane hl hw
    opened := fun j hj => (hs.opened j hj).lane hl hw
    awaited := fun p hp j st hst =>
      (hs.awaited p (App.mem_waiting_step hl hw hp) j st hst).imp_right
        fun h => ⟨h.1.lane hl hw, h.2⟩
    ready := fun j hj => (hs.ready j hj).lane hl hw
    executors := fun j e he => (hs.executors j e he).imp
      (fun h => ⟨h.1, h.2.lane hl hw⟩) fun h => ⟨h.1, h.2.lane hl hw⟩
    scans := fun event c hc => (hs.scans event c hc).imp
      (fun h => ⟨h.1, h.2.lane hl hw⟩) fun h => ⟨h.1, h.2.lane hl hw⟩ }

theorem Sole.app (hs : s.Sole) (hl : al ≠ .crash)
    (hcommand : ∀ job, (∃ account interval, al = .start job account interval) ∨
      (∃ interval, al = .resume job interval) → s.resuming = none ∧ job ∉ s.coming)
    (h : s.app.Step al a) : ({ s with app := a } : Studio).Sole := by
  have hsound := hs.sound.step h
  cases h with
  | tick d => exact { hs with sound := hsound }
  | crash => exact absurd rfl hl
  | @normalize id rest hrec =>
      obtain ⟨hexecutors, hcalls, hqueued, hopened⟩ := hs.recovered (by simp [hrec])
      exact sole_of_idle hsound hexecutors hcalls hqueued hopened rfl
  | refused => exact hs
  | @built _ id row account target scheduler hlabel hadm =>
      obtain ⟨interval, hlabel⟩ := hlabel
      refine hs.built (hcommand id ?_).2 hadm hsound
      exact hlabel.imp (fun h => ⟨account, interval, h⟩) fun h => ⟨interval, h⟩
  | foreign critical fails hown =>
      exact hs.submit hsound fun j st hst => absurd ((jobState_of_foreign hown j).symm.trans hst)
        (by simp)
  | lane hrec hlabel hw => exact hs.lane hrec (App.laneLabel_ne_submit hlabel) hw hsound
  | executor hrec hjob he hm hout => exact hs.executor hrec he hm hout

end Program

/-! ## The scans that wait to be begun -/

section Queue

variable {prepared : List JobId} {inbox : List NetworkTask} {resuming : Option JobId}

variable (prepared inbox resuming) in
/-- The same scans wait, in other places. -/
theorem Sole.requeue (hs : s.Sole)
    (hperm : (prepared ++ inbox.filterMap NetworkTask.scanned ++ resuming.toList).Perm s.queued) :
    ({ s with prepared := prepared, inbox := inbox, resuming := resuming } : Studio).Sole := by
  have hmem : ∀ j, j ∈ prepared ++ inbox.filterMap NetworkTask.scanned ++ resuming.toList ↔
      j ∈ s.queued := fun j => hperm.mem_iff
  have hscan : ∀ j, ({ s with prepared := prepared, inbox := inbox, resuming := resuming } :
      Studio).Scanning j → s.Scanning j := fun j hj => hj.imp_left (hmem j).mp
  exact
    { hs with
      recovered := fun h =>
        ⟨(hs.recovered h).1, (hs.recovered h).2.1,
          List.perm_nil.mp ((hs.recovered h).2.2.1 ▸ hperm), (hs.recovered h).2.2.2⟩
      scan := fun j hj => hs.scan j (hscan j hj)
      coming := fun j hj => ⟨(hs.coming j hj).1, fun h => (hs.coming j hj).2 (hscan j h)⟩
      queued := hperm.nodup_iff.mpr hs.queued
      apart := fun j hj => hs.apart j ((hmem j).mp hj)
      ready := fun j hj => hs.ready j ((hmem j).mp hj) }

/-- The loop takes a cancel. -/
theorem Sole.skipped (hs : s.Sole) {job : JobId} {rest : List NetworkTask}
    (h : s.inbox = .cancel job :: rest) : ({ s with inbox := rest } : Studio).Sole := by
  have hnone : NetworkTask.scanned (.cancel job) = none := rfl
  refine hs.requeue s.prepared rest s.resuming ?_
  rw [Studio.queued, h, List.filterMap_cons_none hnone]

/-- One more scan waits. -/
theorem Sole.enqueue (hs : s.Sole) (hrec : s.app.recovering = []) {job : JobId}
    {coming : List JobId} (hcoming : ∀ j ∈ coming, j ∈ s.coming ∧ j ≠ job)
    (hperm : (prepared ++ inbox.filterMap NetworkTask.scanned ++ resuming.toList).Perm
      (job :: s.queued))
    (hscan : ¬ s.Scanning job) {row : Job} (hrow : s.db.jobs[job]? = some row)
    (htype : row.jobType = .scan) (hopen : row.state.terminal = false) :
    ({ s with coming := coming, prepared := prepared, inbox := inbox, resuming := resuming } :
      Studio).Sole := by
  have hof : OfType job .scan s.db := ⟨row, hrow, htype⟩
  have hnone : s.app.executors job = none := by
    cases he : s.app.executors job with
    | none => rfl
    | some e => exact absurd ((hs.migration job e he).unique hof) (by simp)
  have hidle : NoState job s.waiting :=
    hs.noState_of_idle (fun hone => hone.not_scan hof) hnone
      fun event c hc hjob => hscan (Or.inr ⟨event, c, hc, hjob⟩)
  have hmem : ∀ j, j ∈ prepared ++ inbox.filterMap NetworkTask.scanned ++ resuming.toList ↔
      j = job ∨ j ∈ s.queued := fun j => hperm.mem_iff.trans List.mem_cons
  have hscanning : ∀ j, ({ s with
      coming := coming, prepared := prepared, inbox := inbox, resuming := resuming } :
      Studio).Scanning j → j = job ∨ s.Scanning j := by
    rintro j (hj | hj)
    · exact ((hmem j).mp hj).imp_right Or.inl
    · exact Or.inr (Or.inr hj)
  refine
    { hs with
      recovered := fun h => absurd hrec h
      scan := fun j hj => ?_
      coming := fun j hj => ⟨(hs.coming j (hcoming j hj).1).1, fun h => ?_⟩
      queued := hperm.nodup_iff.mpr
        (List.nodup_cons.mpr ⟨fun h => hscan (Or.inl h), hs.queued⟩)
      apart := fun j hj event c hc => ?_
      ready := fun j hj => ?_ }
  · rcases hscanning j hj with rfl | hj
    · exact hof
    · exact hs.scan j hj
  · rcases hscanning j h with rfl | h
    · exact (hcoming j hj).2 rfl
    · exact (hs.coming j (hcoming j hj).1).2 h
  · rcases (hmem j).mp hj with rfl | hj
    · exact fun hjob => hscan (Or.inr ⟨event, c, hc, hjob⟩)
    · exact hs.apart j hj event c hc
  · rcases (hmem j).mp hj with rfl | hj
    · refine hidle.stillOpen fun row' hrow' => ?_
      rw [← Option.some.inj (hrow.symm.trans hrow')]
      exact hopen
    · exact hs.ready j hj

/-- Fewer jobs are to come. -/
theorem Sole.of_coming (hs : s.Sole) {coming : List JobId} (hcoming : ∀ j ∈ coming, j ∈ s.coming) :
    ({ s with coming := coming } : Studio).Sole :=
  { hs with coming := fun j hj => hs.coming j (hcoming j hj) }

theorem Sole.created (hs : s.Sole) {job : JobId} {row : Job} {prepared opened : List JobId}
    (hrec : s.app.recovering = []) (hjob : job ∈ s.coming)
    (hrow : s.db.jobs[job]? = some row) (hstate : row.state = creationState row.jobType)
    (hlists : (row.jobType = .scan ∧ prepared = [job] ∧ opened = []) ∨
      (row.jobType = .migration ∧ prepared = [] ∧ opened = []) ∨
      ((row.jobType = .targetScan ∨ row.jobType = .importFile ∨ row.jobType = .exportFile) ∧
        prepared = [] ∧ opened = [job])) :
    ({ s with
      coming := s.coming.filter (· ≠ job)
      prepared := s.prepared ++ prepared
      opened := s.opened ++ opened } : Studio).Sole := by
  have hcoming : ∀ j ∈ s.coming.filter (· ≠ job), j ∈ s.coming ∧ j ≠ job := by
    intro j hj
    simpa using List.mem_filter.mp hj
  rcases hlists with ⟨htype, rfl, rfl⟩ | ⟨htype, rfl, rfl⟩ | ⟨htype, rfl, rfl⟩
  · have hopen : row.state.terminal = false := by rw [hstate, htype]; rfl
    have hperm : ((s.prepared ++ [job]) ++ s.inbox.filterMap NetworkTask.scanned ++
        s.resuming.toList).Perm (job :: s.queued) := by
      rw [Studio.queued, List.append_assoc s.prepared, List.append_assoc s.prepared,
        List.append_assoc s.prepared]
      exact List.perm_middle
    simpa using hs.enqueue hrec hcoming hperm (hs.coming job hjob).2 hrow htype hopen
  · simpa using hs.of_coming fun j hj => (hcoming j hj).1
  · have hone : OneShot job s.db := by
      refine ⟨row, hrow, ?_, ?_⟩ <;> rcases htype with h | h | h <;> simp [h]
    have hs' : ({ s with coming := s.coming.filter (· ≠ job) } : Studio).Sole :=
      hs.of_coming fun j hj => (hcoming j hj).1
    have hopened : ∀ j ∈ s.opened ++ [job], OneShot j s.db := by
      intro j hj
      rcases List.mem_append.mp hj with hj | hj
      · exact hs.opened j hj
      · rw [List.mem_singleton.mp hj]
        exact hone
    simpa using ({ hs' with recovered := fun h => absurd hrec h, opened := hopened } :
      ({ s with coming := s.coming.filter (· ≠ job), opened := s.opened ++ [job] } : Studio).Sole)

end Queue

end Studio

end Runtime
end MigrationStudio
