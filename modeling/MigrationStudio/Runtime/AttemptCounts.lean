import MigrationStudio.Migration.AttemptTallies
import MigrationStudio.Runtime.StopRequests

/-!
# The attempt counts over the runs of a job

`attempt_count` of an item is what the next run of the job starts to count from.  A run persists it
with the result of the item, and with `submit_mark_retry` when it goes into a server wait or ends
because of the RPC.  After an RPC that failed transiently it does neither: a pause or a stop that
`_sleep` finds before the next RPC for the candidate ends `_attempt` and its local variable.

* `Solo.again`: one step of the runs of a job, one after another.
* `Solo.Forgets`: a request ends a `_sleep` when the last event of the run is an RPC.
* `Solo.Counted`: what holds in every state of every sequence of runs without such a step.
* `Solo.attempts_counted`: between such runs, `attempt_count` is the number of the RPCs.
* `Solo.attempts_forgotten`: a pause in the delay after a transient failure.
-/

namespace MigrationStudio
namespace Runtime

open Foundations MigrationStudio.Core Accounts Jobs Telegram Storage Migration

/-- A step of the run that goes on or of what is around it; the next call of `run` for the job; the
program is closed, when nothing waits in the lane any more, and opened again. -/
inductive SeriesLabel where
  | solo (l : SoloLabel)
  | run (account : AccountId) (target : Telegram.GroupContext) (action : Action) (realClock : Bool)
      (scheduler : InviteScheduler)
  | reopen

namespace Solo

/-- Before the first run. -/
def idle (db : Database) : Solo where
  executor := none
  writer := DBWriter.start db
  log := []

/-- One step of the runs of the job `id`. -/
def again (id : JobId) (s : Solo) : SeriesLabel → Option Solo
  | .solo l => s.step id l
  | .run account target action realClock scheduler =>
      match s.executor with
      | some _ => none
      | none =>
          some
            { s with
              executor := some
                { jobId := id
                  accountId := account
                  target := target
                  action := action
                  realClock := realClock
                  scheduler := scheduler }
              log := s.log ++ [.built id action] }
  | .reopen =>
      match s.executor, s.writer.waiting with
      | none, [] => some { s with writer := DBWriter.start s.writer.database }
      | _, _ => none

/-- The number of the RPCs for an item so far. -/
def issued (s : Solo) (o : ℕ) : ℕ := s.rpcs.countP fun rpc => rpc.ordinal = o

/-- The last event is an RPC. -/
def sentLast (s : Solo) : Bool :=
  match s.log.getLast? with
  | some (.sent _) => true
  | _ => false

/-- A request ends a `_sleep`, and the last event of the run is an RPC, to which Telegram has not
answered with a wait. -/
def Forgets (s : Solo) : SeriesLabel → Prop
  | .solo (.move m _) => s.sentLast = true ∧ ∃ e ∈ s.executor, e.interrupts m = true
  | _ => False

instance (s : Solo) (l : SeriesLabel) : Decidable (s.Forgets l) :=
  match l with
  | .solo (.move m _) =>
      decidable_of_iff (s.sentLast = true ∧ s.executor.any (fun e => e.interrupts m) = true)
        (and_congr_right fun _ => Option.any_eq_true _ _)
  | .solo .get | .solo .timeout | .solo (.foreign _ _) | .solo .resume | .run _ _ _ _ _
  | .reopen => isFalse fun h => h

variable {id : JobId} {s s' : Solo} {l : SoloLabel}

/-! ## The log -/

theorem issued_after (s : Solo) (out : Outcome) :
    (s.after out).issued = Executor.issuedAfter s.issued out.event := by
  ext o
  rw [issued, rpcs, after, List.filterMap_append, List.countP_append]
  cases hevent : out.event with
  | none => rfl
  | some v =>
      cases v with
      | sent rpc =>
          rw [Executor.issuedAfter]
          by_cases ho : o = rpc.ordinal
          · subst ho
            rw [Function.update_self]
            simp [issued, rpcs]
          · rw [Function.update_of_ne ho]
            simp [issued, rpcs, Ne.symm ho]
      | _ => rfl

theorem sentLast_after (s : Solo) (out : Outcome) :
    (s.after out).sentLast = Event.sentAfter s.sentLast out.event := by
  rw [sentLast, after]
  cases hevent : out.event with
  | none => simp [Event.sentAfter, sentLast]
  | some v =>
      rw [Option.toList_some, List.getLast?_concat]
      cases v <;> rfl

/-! ## The rows of a job -/

/-- A row after a move has a number of the write, or is as it was. -/
theorem mem_rows_after {out : Outcome} {row row' : Job} (hrow : s.row id = some row)
    (hrow' : (s.after out).row id = some row') {r : Item} (hr : r ∈ row'.items.rows) :
    r.tally ∈ out.tallies id ∨
      (r ∈ row.items.rows ∧ ∀ t ∈ out.tallies id, t.ordinal ≠ r.ordinal) := by
  rw [row_after_eq out hrow, Option.some.injEq] at hrow'
  subst hrow'
  rw [Outcome.tallies]
  rcases out.jobWrites_cases id with hw | ⟨jw, hw⟩
  · rw [hw] at hr ⊢
    exact Or.inr ⟨hr, fun t ht => absurd ht (by simp)⟩
  · rw [hw] at hr ⊢
    rw [List.flatMap_cons, List.flatMap_nil, List.append_nil]
    refine (tally_of_mem_apply hr).imp_right fun h => ⟨h.1, fun t ht heq => h.2 ?_⟩
    rw [JobWrite.ordinals_eq, ← heq]
    exact List.mem_map_of_mem ht

/-- **What holds between the runs and in them.**  A row of the job has the number of the RPCs for
its item, or the executor owes it; the tallies of the executor are the numbers of the RPCs; and what
has not been loaded yet is not written. -/
structure Counted (id : JobId) (s : Solo) : Prop where
  rows : ∀ row, s.row id = some row → ∀ r ∈ row.items.rows, r.tally.Counts s.issued ∨
    ∃ e ∈ s.executor, ∃ t ∈ e.owed s.sentLast, t.ordinal = r.ordinal
  lined : ∀ e ∈ s.executor, e.Lined s.issued
  waits : ∀ e ∈ s.executor, ∀ jw ∈ laneOf id s.writer.waiting, ∀ o ∈ jw.ordinals,
    (o : ℤ) ≤ e.buffer.lastLoaded
  unread : ∀ e ∈ s.executor, ∀ job, s.writer.database.jobs[id]? = some job →
    ∀ r ∈ job.items.rows, e.buffer.lastLoaded < (r.ordinal : ℤ) → r.tally.Counts s.issued

/-- What has not been sent counts as before. -/
theorem counts_after {out : Outcome} {t : Tally}
    (hne : ∀ rpc, out.event = some (.sent rpc) → t.ordinal ≠ rpc.ordinal)
    (ht : t.Counts s.issued) : t.Counts (s.after out).issued := by
  rw [Tally.Counts, issued_after]
  cases hevent : out.event with
  | none => exact ht
  | some v =>
      cases v with
      | sent rpc =>
          rw [Executor.issuedAfter, Function.update_of_ne (hne rpc hevent)]
          exact ht
      | _ => exact ht

/-- A row after a move of the executor is right, or the executor still owes it. -/
theorem Counted.rows_after (hc : Counted id s) (hs : Steady id s) {e : Executor} {m : Move}
    {o : Outside} {out : Outcome} (he : s.executor = some e) (htold : s.told e m)
    (htr : Executor.Transition (s.env o) e m out)
    (hsent : e.interrupts m = true → s.sentLast = false) {row : Job}
    (hrow : (s.after out).row id = some row) {r : Item} (hr : r ∈ row.items.rows) :
    r.tally.Counts (s.after out).issued ∨ ∃ e' ∈ (s.after out).executor,
      ∃ t ∈ e'.owed (s.after out).sentLast, t.ordinal = r.ordinal := by
  have hid := hs.filed e he
  have hturn := Executor.turn_of_transition htr (hs.not_raised htold)
    fun a hpoint => hs.settled_of_rpc he hpoint
  obtain ⟨-, old, -, hold, -⟩ := hs.settled
  rcases mem_rows_after hold hrow hr with hmem | ⟨hr, hnot⟩
  · -- the row has been written
    refine Or.inl (counts_after (fun rpc hevent => ?_) ?_)
    · obtain ⟨hw, -⟩ := hturn.sent hevent
      rw [Executor.tallies_of_silent hw] at hmem
      exact absurd hmem (by simp)
    · have hin := hturn.written _ (hid.symm ▸ hmem)
      refine (hc.lined e he).counts _ ?_
      simp only [Executor.course, List.mem_append] at hin ⊢
      tauto
  · rw [sentLast_after]
    rcases hc.rows old hold r hr with hright | ⟨f, hf, t, ht, hord⟩
    · by_cases hne : ∀ rpc, out.event = some (.sent rpc) → r.tally.ordinal ≠ rpc.ordinal
      · exact Or.inl (counts_after hne hright)
      · -- its candidate is in hand
        simp only [not_forall, not_not] at hne
        obtain ⟨rpc, hevent, hord⟩ := hne
        obtain ⟨-, -, e', he', t, ht, hord'⟩ := hturn.sent hevent
        rw [hevent]
        exact Or.inr ⟨e', he', t, ht, hord'.trans hord.symm⟩
    · obtain rfl := Option.some.inj (he.symm.trans hf)
      cases hexec : out.executor with
      | none =>
          have hnil := hturn.owed_of_ends hexec
            (hs.resultBuffer_of_return he htold htr hexec) s.sentLast
          rw [hnil] at ht
          exact absurd ht (by simp)
      | some e' =>
          rcases hturn.kept hsent e' hexec t ht with hmem | ⟨t', ht', hord'⟩
          · exact absurd hord (hnot t (hid ▸ hmem))
          · exact Or.inr ⟨e', hexec, t', ht', hord'.trans hord⟩

/-- The executor moves. -/
theorem Counted.after (hc : Counted id s) (hs : Steady id s) {e : Executor} {m : Move}
    {o : Outside} {out : Outcome} (he : s.executor = some e) (htold : s.told e m)
    (htr : Executor.Transition (s.env o) e m out)
    (hsent : e.interrupts m = true → s.sentLast = false) : Counted id (s.after out) := by
  have hid := hs.filed e he
  have hturn := Executor.turn_of_transition htr (hs.not_raised htold)
    fun a hpoint => hs.settled_of_rpc he hpoint
  have hlined := hc.lined e he
  obtain ⟨job, -, hjob, -⟩ := hs.settled
  refine ⟨fun row hrow r hr => hc.rows_after hs he htold htr hsent hrow hr, fun e' he' => ?_,
    fun e' he' jw hjw o' ho' => ?_, fun e' he' job' hjob' r hr hlast => ?_⟩
  · rw [issued_after]
    exact hlined.turn hturn (hid ▸ hjob) (hc.unread e he job hjob) e' he'
  · rw [laneOf_after] at hjw
    refine le_trans ?_ (hturn.lastLoaded_le hlined e' he')
    rcases List.mem_append.mp hjw with hjw | hjw
    · exact hc.waits e he jw hjw o' ho'
    · rw [JobWrite.ordinals_eq] at ho'
      obtain ⟨t, ht, rfl⟩ := List.mem_map.mp ho'
      have hmem : t ∈ out.tallies e.jobId := List.mem_flatMap.mpr ⟨jw, hid.symm ▸ hjw, ht⟩
      exact hlined.loaded t (hturn.written t hmem)
  · rw [database_after] at hjob'
    have hbefore := lt_of_le_of_lt (hturn.lastLoaded_le hlined e' he') hlast
    refine counts_after (fun rpc hevent heq => ?_) (hc.unread e he job' hjob' r hr hbefore)
    -- the RPC is for a candidate that has been loaded
    obtain ⟨-, ⟨t, ht, hord⟩, -⟩ := hturn.sent hevent
    have hle := hlined.loaded t (by simp [ht])
    have hsame : r.ordinal = t.ordinal := heq.trans hord.symm
    omega

/-- The writer thread moves. -/
theorem Counted.lane (hc : Counted id s) (hs : Steady id s) {wl : WriterLabel WriteTask}
    {w : Lane} (hne : ∀ t, wl ≠ .submit t) (hw : s.writer.step lane wl = some w) :
    Counted id { s with writer := w } := by
  have hrule : ∀ e ∈ s.executor,
      (∀ jw ∈ laneOf id w.waiting, ∀ o ∈ jw.ordinals, (o : ℤ) ≤ e.buffer.lastLoaded) ∧
        ∀ job, w.database.jobs[id]? = some job → ∀ r ∈ job.items.rows,
          e.buffer.lastLoaded < (r.ordinal : ℤ) → r.tally.Counts s.issued := by
    intro e he
    refine nothing_rule (w := s.writer)
      (I := fun db waiting =>
        (∀ jw ∈ laneOf id waiting, ∀ o ∈ jw.ordinals, (o : ℤ) ≤ e.buffer.lastLoaded) ∧
          ∀ job, db.jobs[id]? = some job → ∀ r ∈ job.items.rows,
            e.buffer.lastLoaded < (r.ordinal : ℤ) → r.tally.Counts s.issued)
      ?_ hs.nothing hne hw ⟨hc.waits e he, hc.unread e he⟩
    rintro db p rest ⟨hlane, hunread⟩
    rw [laneOf_cons] at hlane
    refine ⟨fun jw hjw => hlane jw (List.mem_append_right _ hjw), fun job hjob r hr hlast => ?_⟩
    rw [Database.jobs_apply] at hjob
    cases hp : p.2.write.ofJob id with
    | none =>
        rw [hp] at hjob
        exact hunread job hjob r hr hlast
    | some jw =>
        rw [hp] at hjob hlane
        obtain ⟨job', hjob', rfl⟩ := Option.map_eq_some_iff.mp hjob
        refine hunread job' hjob' r (mem_rows_apply hr fun ho => ?_) hlast
        have hle := hlane jw (List.mem_append_left _ (List.mem_singleton.mpr rfl)) _ ho
        omega
  refine ⟨fun row hrow => ?_, hc.lined, fun e he => (hrule e he).1, fun e he => (hrule e he).2⟩
  rw [row_lane hs hne hw] at hrow
  exact hc.rows row hrow

/-- **One step of a run**, unless it forgets an RPC. -/
theorem Counted.step (hc : Counted id s) (hs : Steady id s) (h : s.step id l = some s')
    (hkept : ¬ s.Forgets (.solo l)) : Counted id s' := by
  cases step_cases h with
  | lane hl hne hw => exact hc.lane hs hne hw
  | @foreign w critical hown =>
      obtain ⟨hlane, -⟩ := App.waiting_submit_other (w := s.writer)
        (t := ⟨w, critical, none⟩) hown
      refine ⟨fun row hrow => ?_, hc.lined, fun e he jw hjw => ?_, hc.unread⟩
      · rw [row_foreign hown] at hrow
        exact hc.rows row hrow
      · exact hc.waits e he jw (hlane ▸ hjw)
  | resume he =>
      obtain ⟨flag, heq⟩ := resume_eq s _
      rw [heq]
      exact hc.after (o := ⟨0, 0, 0, true⟩) hs he (m := .pause) trivial (.pauseRequested flag)
        fun hint => absurd hint (by simp [Executor.interrupts])
  | @moved m o e out he htold hout =>
      refine hc.after hs he htold (Executor.transition_of_step hout) fun hint => ?_
      by_contra hlast
      exact hkept ⟨by simpa using hlast, e, he, hint⟩

/-! ## The runs, one after another -/

variable {sl : SeriesLabel} {db : Database}

/-- The cases of `Solo.again`. -/
theorem again_cases (h : s.again id sl = some s') :
    (∃ l, sl = .solo l ∧ s.step id l = some s') ∨
      (s.executor = none ∧ ∃ e action, e.jobId = id ∧ e.buffer = {} ∧ e.resultBuffer = [] ∧
        e.point = .created ∧ e.Settled ∧
        s' = { s with executor := some e, log := s.log ++ [.built id action] }) ∨
      (s.executor = none ∧ s.writer.waiting = [] ∧
        s' = { s with writer := DBWriter.start s.writer.database }) := by
  cases sl with
  | solo l => exact Or.inl ⟨l, rfl, h⟩
  | run account target action realClock scheduler =>
      rw [again] at h
      split at h
      · exact absurd h (by simp)
      · rename_i hnone
        exact Or.inr (Or.inl ⟨hnone, _, action, rfl, rfl, rfl, rfl, ⟨rfl, rfl⟩,
          (Option.some.inj h).symm⟩)
  | reopen =>
      rw [again] at h
      split at h
      · rename_i hnone hempty
        exact Or.inr (Or.inr ⟨hnone, hempty, (Option.some.inj h).symm⟩)
      · exact absurd h (by simp)

theorem steady_idle {job : Job} (hjob : db.jobs[id]? = some job) : Steady id (idle db) where
  numbered := numbered_start db
  nothing := fun p hp => absurd hp (by simp [idle, DBWriter.start, DBWriter.waiting])
  futures := fun p hp => absurd hp (by simp [idle, DBWriter.start])
  filed := fun e he => absurd he (by simp [idle])
  alive := fun e he => absurd he (by simp [idle])
  course := ⟨none, Or.inl rfl, job, hjob, _, rfl⟩

/-- While no run goes on, what waits for the job drains it. -/
theorem Steady.course_of_none (hs : Steady id s) (hnone : s.executor = none) :
    ∃ job, s.writer.database.jobs[id]? = some job ∧
      Executor.RunsOn job.pending (laneOf id s.writer.waiting) none := by
  obtain ⟨ex, hfollows, job, hjob, hruns⟩ := hs.course
  rcases hfollows with rfl | ⟨rfl, -⟩
  · exact ⟨job, hjob, hnone ▸ hruns⟩
  · exact ⟨job, hjob, hruns⟩

theorem Steady.again (hs : Steady id s) (h : s.again id sl = some s') : Steady id s' := by
  rcases again_cases h with ⟨l, -, hstep⟩ |
    ⟨hnone, e, action, hid, hbuffer, hresults, hpoint, hset, rfl⟩ | ⟨hnone, hempty, rfl⟩
  · exact hs.step hstep
  · obtain ⟨job, hjob, hruns⟩ := hs.course_of_none hnone
    refine ⟨hs.numbered, hs.nothing, hs.futures, fun f hf => ?_, fun f hf => ?_, none,
      Or.inr ⟨rfl, e, rfl, Executor.starting_new hbuffer hresults hpoint hset⟩, job, hjob, hruns⟩
    · exact Option.some.inj hf ▸ hid
    · rw [← Option.some.inj hf, hpoint]
      simp
  · obtain ⟨job, hjob, -⟩ := hs.course_of_none hnone
    have hidle := steady_idle hjob
    exact ⟨hidle.numbered, hidle.nothing, hidle.futures, hs.filed, hs.alive, none,
      Or.inl hnone.symm, job, hjob, _, rfl⟩

theorem Tidy.again (ht : Tidy id s) (hs : Steady id s) (h : s.again id sl = some s') :
    Tidy id s' := by
  rcases again_cases h with ⟨l, -, hstep⟩ |
    ⟨hnone, e, action, hid, hbuffer, hresults, hpoint, hset, rfl⟩ | ⟨hnone, hempty, rfl⟩
  · exact ht.step hs hstep
  · refine ⟨fun f hf hclosing => ?_, fun h => absurd h (by simp)⟩
    rw [← Option.some.inj hf, hpoint] at hclosing
    exact Bool.noConfusion hclosing
  · refine ⟨fun f hf => absurd (hnone.symm.trans hf) (by simp), fun _ => ?_⟩
    simp [laneOf, DBWriter.start, DBWriter.waiting]

/-- **One step of the runs**, unless it forgets an RPC. -/
theorem Counted.again (hc : Counted id s) (hs : Steady id s) (ht : Tidy id s)
    (h : s.again id sl = some s') (hkept : ¬ s.Forgets sl) : Counted id s' := by
  have hright : s.executor = none → ∀ row, s.row id = some row → ∀ r ∈ row.items.rows,
      r.tally.Counts s.issued := by
    intro hnone row hrow r hr
    refine (hc.rows row hrow r hr).resolve_right ?_
    rintro ⟨e, he, -⟩
    exact absurd (hnone.symm.trans he) (by simp)
  rcases again_cases h with ⟨l, rfl, hstep⟩ |
    ⟨hnone, e, action, hid, hbuffer, hresults, hpoint, hset, rfl⟩ | ⟨hnone, hempty, rfl⟩
  · exact hc.step hs hstep hkept
  · have hissued : issued { s with executor := some e, log := s.log ++ [.built id action] } =
        s.issued := by
      ext o
      simp [issued, rpcs]
    refine ⟨fun row hrow r hr => Or.inl ?_, fun f hf => ?_, fun f hf jw hjw => ?_,
      fun f hf job hjob r hr _ => ?_⟩
    · rw [hissued]
      exact hright hnone row hrow r hr
    · obtain rfl := Option.some.inj hf
      exact Executor.lined_new hbuffer hresults hset.2 hpoint
    · have hlane : laneOf id s.writer.waiting = [] := ht.gone hnone
      have hmem : jw ∈ laneOf id s.writer.waiting := hjw
      rw [hlane] at hmem
      exact absurd hmem (by simp)
    · rw [hissued]
      exact hright hnone job ((ht.committed hnone).symm.trans hjob) r hr
  · refine ⟨fun row hrow r hr => Or.inl ?_, fun f hf => absurd (hnone.symm.trans hf) (by simp),
      fun f hf => absurd (hnone.symm.trans hf) (by simp),
      fun f hf => absurd (hnone.symm.trans hf) (by simp)⟩
    refine hright hnone row ?_ r hr
    rw [← ht.committed hnone]
    exact hrow

/-- A job whose items have not been tried. -/
theorem counted_idle {job : Job} (hjob : db.jobs[id]? = some job)
    (hnew : ∀ r ∈ job.items.rows, r.attemptCount = 0) : Counted id (idle db) := by
  refine ⟨fun row hrow r hr => Or.inl ?_, fun e he => absurd he (by simp [idle]),
    fun e he => absurd he (by simp [idle]), fun e he => absurd he (by simp [idle])⟩
  have hcommitted : (idle db).row id = db.jobs[id]? := rfl
  obtain rfl := Option.some.inj (hjob.symm.trans (hcommitted.symm.trans hrow))
  exact hnew r hr

/-- **The runs of a job.** -/
theorem counted_of_runs {job : Job} (hjob : db.jobs[id]? = some job)
    (hnew : ∀ r ∈ job.items.rows, r.attemptCount = 0) {ls : List SeriesLabel}
    (h : runLabels (Solo.again id) (idle db) ls = some s)
    (hkept : Along (Solo.again id) (fun s l => ¬ s.Forgets l) (idle db) ls) :
    Counted id s ∧ Tidy id s := by
  have hall := invariant_runLabels
    (I := fun s => Counted id s ∧ Steady id s ∧ Tidy id s) (C := fun s l => ¬ s.Forgets l)
    (fun _ _ _ hI hC hstep => ⟨hI.1.again hI.2.1 hI.2.2 hstep hC, hI.2.1.again hstep,
      hI.2.2.again hI.2.1 hstep⟩)
    ⟨counted_idle hjob hnew, steady_idle hjob, ?_⟩ hkept h
  · exact ⟨hall.1, hall.2.2⟩
  · exact ⟨fun e he => absurd he (by simp [idle]), fun _ => rfl⟩

/-- **Between the runs of a job, `attempt_count` is the number of the RPCs** that have been issued
for the item since it was planned, as long as no pause and no stop ends a `_sleep` between an RPC
that failed transiently and the next RPC for the candidate. -/
theorem attempts_counted (id : JobId) (db : Database) (job : Job) (hjob : db.jobs[id]? = some job)
    (hnew : ∀ r ∈ job.items.rows, r.attemptCount = 0) (ls : List SeriesLabel) (s : Solo)
    (hrun : runLabels (again id) (idle db) ls = some s)
    (hkept : Along (again id) (fun s l => ¬ s.Forgets l) (idle db) ls)
    (hbetween : s.executor = none) :
    ∀ row, s.writer.database.jobs[id]? = some row → ∀ r ∈ row.items.rows,
      r.attemptCount = s.issued r.ordinal := by
  intro row hrow r hr
  obtain ⟨hc, ht⟩ := counted_of_runs hjob hnew hrun hkept
  refine (hc.rows row ((ht.committed hbetween).symm.trans hrow) r hr).resolve_right ?_
  rintro ⟨e, he, -⟩
  exact absurd (hbetween.symm.trans he) (by simp)

/-- A planned job of the members 1 and 2. -/
def planned : Database := smallDatabase [persist 1 1 [1, 2] .invite]

/-- One run of it, on the real clock. -/
def oneRun (ls : List SoloLabel) : List SeriesLabel :=
  .run 1 ⟨500, some 600, .channel, 1⟩ .invite true ⟨3 * second, 3 * second, none, 0, []⟩ ::
    ls.map .solo

/-- A pause is requested and found by `_sleep`; then `run` returns. -/
def pauseInSleep : List SoloLabel :=
  [.move .pause quiet, .move .advance quiet, .move .execute quiet] ++ criticalWrite ++
    criticalWrite ++ List.replicate 3 (.move .advance quiet)

/-- The RPC in flight is answered by a FLOOD_WAIT, which is marked in the row. -/
def floodWait : List SoloLabel :=
  [.move (.answer (some ⟨.rateLimit, "FLOOD_WAIT_5", some 5⟩)) quiet, .move .execute quiet] ++
    criticalWrite ++ criticalWrite ++ criticalWrite ++ criticalWrite ++ [.move .advance quiet]

/-- The first run is paused in a server wait.  The second one invites the candidate and is paused
at the top of the loop. -/
def twoRuns : List SeriesLabel :=
  oneRun (enterLoop ++ sendRpc ++ floodWait ++ pauseInSleep) ++ .reopen ::
    oneRun (enterLoop ++ sendRpc ++ keepResult ++ .move .pause quiet :: handleRequest)

/-- The numbers of attempts in the rows, with those of the RPCs. -/
def counts (id : JobId) (s : Solo) : Bool × Option (List (ℕ × ℕ)) :=
  (s.executor.isNone, (s.writer.database.jobs[id]?).map fun row =>
    row.items.rows.map fun r => (r.attemptCount, s.issued r.ordinal))

/-- Two RPCs for the first item, in two runs. -/
theorem attempts_counted_two_runs :
    ∃ s row, runLabels (again 0) (idle planned) twoRuns = some s ∧
      s.writer.database.jobs[0]? = some row ∧
      row.items.rows.map Item.attemptCount = [2, 0] ∧
      ∀ r ∈ row.items.rows, r.attemptCount = s.issued r.ordinal := by
  have h : (runLabels (again 0) (idle planned) twoRuns).map (counts 0) =
      some (true, some [(2, 2), (0, 0)]) := by
    decide +kernel
  have hkept : Along (again 0) (fun s l => ¬ s.Forgets l) (idle planned) twoRuns := by
    decide +kernel
  obtain ⟨s, hs, hview⟩ := Option.map_eq_some_iff.mp h
  obtain ⟨hnone, hrow⟩ := Prod.mk.inj hview
  obtain ⟨row, hrow, hcounts⟩ := Option.map_eq_some_iff.mp hrow
  refine ⟨s, row, hs, hrow, ?_, attempts_counted 0 planned _ rfl (by decide) twoRuns s hs hkept
    (Option.isNone_iff_eq_none.mp hnone) row hrow⟩
  have hfirst := congrArg (List.map Prod.fst) hcounts
  rw [List.map_map] at hfirst
  exact hfirst

/-- The only RPC of a run fails transiently, and a pause is requested in the delay after it. -/
def forgetfulRun : List SeriesLabel :=
  oneRun (enterLoop ++ sendRpc ++
    .move (.answer (some ⟨.networkTransient, "ConnectionError", none⟩)) quiet :: pauseInSleep)

/-- After that run the row of the item says that there has been no attempt. -/
theorem attempts_forgotten :
    ∃ job s row r, planned.jobs[0]? = some job ∧ (∀ r ∈ job.items.rows, r.attemptCount = 0) ∧
      runLabels (again 0) (idle planned) forgetfulRun = some s ∧ s.executor = none ∧
      s.writer.database.jobs[0]? = some row ∧ r ∈ row.items.rows ∧ r.attemptCount = 0 ∧
      s.issued r.ordinal = 1 := by
  have h : (runLabels (again 0) (idle planned) forgetfulRun).map (counts 0) =
      some (true, some [(0, 1), (0, 0)]) := by
    decide +kernel
  obtain ⟨s, hs, hview⟩ := Option.map_eq_some_iff.mp h
  obtain ⟨hnone, hrow⟩ := Prod.mk.inj hview
  obtain ⟨row, hrow, hcounts⟩ := Option.map_eq_some_iff.mp hrow
  have hmem : (0, 1) ∈ row.items.rows.map fun r => (r.attemptCount, s.issued r.ordinal) := by
    rw [hcounts]
    exact List.mem_cons_self ..
  obtain ⟨r, hr, heq⟩ := List.mem_map.mp hmem
  obtain ⟨hattempts, hissued⟩ := Prod.mk.inj heq
  exact ⟨_, s, row, r, rfl, by decide, hs, Option.isNone_iff_eq_none.mp hnone, hrow, hr, hattempts,
    hissued⟩

end Solo
end Runtime
end MigrationStudio
