import Mathlib.Data.Set.Subsingleton
import MigrationStudio.Runtime.ScanCalls

/-!
# One execution of a job

A migration is kept to one executor by the dictionary of the executors, which the commands read and
write on the thread of the user interface.  `resume_scan` reads the state of the row instead, and
the row says RUNNING only when the first write of the call is committed: in between the job can be
resumed once more.  The second call takes the place of the first one in `_cancel_events`; and when
the row has been read before the first call ends, the job goes from COMPLETED back to RUNNING.

* `Studio.executions`: the executor and the calls of a job.
* `one_execution_per_job`: what holds in every run in which a job is resumed alone.
* `two_executions`: a scan that is resumed twice.
-/

namespace MigrationStudio
namespace Runtime

open Foundations MigrationStudio.Core Accounts Jobs Telegram Storage Migration

namespace Studio

variable {s s' : Studio} {l : StudioLabel}

/-! ## Every step -/

section Run

variable {job : JobId}

/-- What `resume_scan` has read. -/
theorem resumable_row (h : s.resumable job = true) :
    job ∉ s.coming ∧ ∃ row, s.db.jobs[job]? = some row ∧ row.jobType = .scan ∧
      row.state = .paused := by
  rw [resumable, Bool.and_eq_true, Option.any_eq_true] at h
  obtain ⟨hcoming, row, hrow, hchecks⟩ := h
  rw [Bool.and_eq_true, Bool.and_eq_true] at hchecks
  exact ⟨by simpa using hcoming, row, hrow, by simpa using hchecks.1.1, by simpa using hchecks.1.2⟩

/-- An import, an export or a pre-check submits its last state. -/
theorem Sole.closed (hs : s.Sole) {final : JobState} {fails : Option String} (hjob : job ∈ s.opened)
    (hfinal : final.terminal = true) : (s.submit (taskOf (s.closeWrite job final) fails)).Sole := by
  refine hs.submit (sound_submit hs.sound (plainWrite_setState _ _ _ _ ?_)) fun j st hst => ?_
  · split
    · exact Or.inr rfl
    · exact Or.inl rfl
  · have hst' : (s.closeWrite job final).jobState j = some st := hst
    have hj : j = job := by
      by_contra hne
      rw [closeWrite, LaneWrite.jobState_of_ne (Ne.symm hne)] at hst'
      exact absurd hst' (by simp)
    subst hj
    rw [closeWrite, LaneWrite.jobState_setState, Option.some.injEq] at hst'
    exact ⟨hs.opened j hjob, hst' ▸ hfinal⟩

/-- A crash leaves nothing under way. -/
theorem Sole.crash (hs : s.Sole) {a : App} (h : s.app.step .crash = some a) :
    ({ start s.db s.app.now s.coming with
      app := { a with recovering := a.recovering.filter (· ∉ s.coming) }
      next := s.next } : Studio).Sole := by
  have hsound := hs.sound.step (App.step_cases h)
  obtain rfl := Option.some.inj h
  exact sole_of_idle
    ⟨hsound.numbered, hsound.filed, hsound.owned, hsound.plain, hsound.locked⟩
    (fun _ => rfl) (fun _ => rfl) rfl rfl rfl

/-- **The invariant is kept** when a job is resumed alone. -/
theorem Sole.step (hs : s.Sole) (halone : s.ResumedAlone l) (h : s.Step l s') : s'.Sole := by
  cases h with
  | app hl hcommand h => exact hs.app hl hcommand (App.step_cases h)
  | crash h => exact hs.crash h
  | refused => exact hs
  | created hrec hjob hrow hstate hlists => exact hs.created hrec hjob hrow hstate hlists
  | @scanned job hrec hjob =>
      refine hs.requeue (s.prepared.erase job) (s.inbox ++ [.scan job]) s.resuming ?_
      rw [Studio.queued, List.filterMap_append]
      refine List.Perm.append_right _ ?_
      have hfirst : s.prepared.Perm (job :: s.prepared.erase job) := List.perm_cons_erase hjob
      calc s.prepared.erase job ++ (s.inbox.filterMap NetworkTask.scanned ++ [job])
          = (s.prepared.erase job ++ s.inbox.filterMap NetworkTask.scanned) ++ [job] := by simp
        List.Perm _ ([job] ++ (s.prepared.erase job ++ s.inbox.filterMap NetworkTask.scanned)) :=
            List.perm_append_comm
        List.Perm _ (s.prepared ++ s.inbox.filterMap NetworkTask.scanned) :=
            hfirst.symm.append_right _
  | @looked job hrec hnone hjob =>
      obtain ⟨hcoming, row, hrow, htype, hstate⟩ := resumable_row hjob
      refine hs.enqueue hrec
        (fun j hj => ⟨hj, ne_of_mem_of_not_mem hj hcoming⟩) ?_ (halone job rfl hjob) hrow htype
        (by rw [hstate]; rfl)
      rw [Studio.queued, hnone, Option.toList_none, List.append_nil]
      exact List.perm_append_comm
  | @submitted job hrec hjob =>
      refine hs.requeue s.prepared (s.inbox ++ [.scan job]) none ?_
      rw [Studio.queued, hjob, List.filterMap_append]
      simp [NetworkTask.scanned]
  | requested job hrec =>
      refine hs.requeue s.prepared (s.inbox ++ [.cancel job]) s.resuming ?_
      have hnone : [NetworkTask.cancel job].filterMap NetworkTask.scanned = [] := rfl
      rw [Studio.queued, List.filterMap_append, hnone, List.append_nil]
  | begun fails hrec h => exact hs.begun hrec h
  | @cancelled job rest fails hrec h =>
      exact (hs.skipped h).cancel job
  | closed fails hrec hjob hfinal => exact hs.closed hjob hfinal
  | ended hrec hjob =>
      exact { hs with
        recovered := fun h => absurd hrec h
        opened := fun j hj => hs.opened j (List.mem_filter.mp hj).1 }
  | @call _ event c m fails out hrec hevent hc hm h =>
      refine hs.call hrec hc (ScanCall.transition_of_step h) ?_
      rintro r rfl k hk
      cases l <;> simp only [callMove] at hm <;> try exact absurd hm (by simp)
      obtain ⟨k', hk', hm⟩ := Option.bind_eq_some_iff.mp hm
      obtain ⟨r', hr', -⟩ := Option.map_eq_some_iff.mp hm
      obtain rfl := Option.some.inj (hk.symm.trans hk')
      exact ⟨r', hr'⟩

end Run

/-! ## What a request leaves -/

/-- The executions of a job: its executor, and its calls of `scan` by their events. -/
def executions (s : Studio) (job : JobId) : Set (Option ℕ) :=
  {x | match x with
    | none => (s.app.executors job).isSome
    | some event => ∃ c, s.calls event = some c ∧ c.job = job}

/-- A job has one execution at most. -/
theorem Sole.subsingleton_executions (hs : s.Sole) (job : JobId) :
    (s.executions job).Subsingleton := by
  have hapart : ∀ event c, s.calls event = some c → c.job = job →
      (s.app.executors job).isSome = false := by
    rintro event c hc rfl
    rw [hs.executor_of_scanning (scanning_of_call hc)]
    rfl
  intro x hx y hy
  cases x with
  | none =>
      cases y with
      | none => rfl
      | some event =>
          obtain ⟨c, hc, hjob⟩ := hy
          exact absurd ((hapart event c hc hjob).symm.trans hx) (by simp)
  | some event =>
      obtain ⟨c, hc, hjob⟩ := hx
      cases y with
      | none => exact absurd ((hapart event c hc hjob).symm.trans hy) (by simp)
      | some event' =>
          obtain ⟨d, hd, hjob'⟩ := hy
          rw [hs.calls event event' c d hc hd (hjob.trans hjob'.symm)]

/-- The event has been given out, and its call, unless it is over, is asked to stop. -/
def AskedToStop (event : ℕ) (s : Studio) : Prop :=
  event < s.next ∧ ∀ c, s.calls event = some c → c.cancelRequested = true

/-- The event is never cleared. -/
theorem AskedToStop.step {event : ℕ} (hs : s.AskedToStop event) (h : Step s l s') :
    s'.AskedToStop event := by
  cases h with
  | crash h => exact ⟨hs.1, fun c hc => absurd hc (by simp [start])⟩
  | begun fails hrec h =>
      refine ⟨Nat.lt_succ_of_lt hs.1, fun c hc => hs.2 c ?_⟩
      exact (Function.update_of_ne hs.1.ne _ _).symm.trans hc
  | @cancelled job rest fails hrec h =>
      rw [AskedToStop, Studio.cancel]
      split
      · exact hs
      · rename_i k hk
        refine ⟨hs.1, fun c hc => ?_⟩
        have hc' : Function.update s.calls k
            ((s.calls k).map fun c => { c with cancelRequested := true }) event = some c := hc
        by_cases hevent : event = k
        · subst hevent
          rw [Function.update_self] at hc'
          obtain ⟨d, -, rfl⟩ := Option.map_eq_some_iff.mp hc'
          rfl
        · exact hs.2 c ((Function.update_of_ne hevent _ _).symm.trans hc')
  | @call _ k d m fails out hrec hevent hd hm h =>
      refine ⟨hs.1, fun c hc => ?_⟩
      have hc' : Function.update s.calls k out.call event = some c := hc
      by_cases hk : event = k
      · subst hk
        rw [Function.update_self] at hc'
        cases ScanCall.transition_of_step h with
        | concludes hp hst hidle => exact Option.some.inj hc' ▸ hs.2 d hd
        | goesOn hjob hcancel hfinal hstating hnone hidle =>
            exact Option.some.inj hc' ▸ hcancel.trans (hs.2 d hd)
        | finished pops hidle => exact absurd hc' (by simp)
      · exact hs.2 c ((Function.update_of_ne hk _ _).symm.trans hc')
  | _ => exact hs

/-- The loop runs `cancel`: every call for the job is asked to stop. -/
theorem Sole.cancelled (hs : s.Sole) (job : JobId) {event : ℕ} {c : ScanCall}
    (hc : s.calls event = some c) (hjob : c.job = job) : (s.cancel job).AskedToStop event := by
  have hnext : event < s.next := by
    by_contra hge
    exact absurd ((hs.fresh event (not_lt.mp hge)).symm.trans hc) (by simp)
  have hregistered : s.cancelEvents job = some event := hjob ▸ hs.registered event c hc
  rw [AskedToStop, Studio.cancel, hregistered]
  refine ⟨hnext, fun d hd => ?_⟩
  have hd' : Function.update s.calls event
      ((s.calls event).map fun c => { c with cancelRequested := true }) event = some d := hd
  rw [Function.update_self, hc] at hd'
  exact Option.some.inj hd' ▸ rfl

/-- The loop runs `request_stop`: the executor is asked to stop. -/
theorem stop_reaches {job : JobId} {e : Executor} (he : s.app.executors job = some e)
    (hrun : e.point ≠ .created) (h : s.step (.app (.stop job)) = some s') :
    ∃ e', s'.app.executors job = some e' ∧ e'.stopEvent = true := by
  obtain ⟨a, ha, rfl⟩ := Option.map_eq_some_iff.mp h
  simp only [App.step] at ha
  split_ifs at ha
  obtain ⟨k, hk, ha⟩ := Option.bind_eq_some_iff.mp ha
  obtain rfl := Option.some.inj hk
  rw [he] at ha
  obtain rfl := Option.some.inj ha
  have hself : (s.app.applyOutcome job e { executor := some e.requestStop } none).executors job =
      some e.requestStop := App.executors_applyOutcome_self
  refine ⟨e.requestStop, hself, ?_⟩
  rw [Executor.requestStop, if_neg hrun]

/-! ## The last states -/

/-- Only final states wait for a job in a final state. -/
theorem Sole.onlyFinal (hs : s.Sole) {job : JobId} {row : Job}
    (hrow : s.db.jobs[job]? = some row) (hterminal : row.state.terminal = true) :
    OnlyFinal job s.waiting := by
  have hnot : ¬ StillOpen job s.db s.waiting := fun h =>
    absurd ((h.row row hrow).symm.trans hterminal) (by simp)
  intro p hp st hst
  rcases hs.awaited p hp job st hst with hawaits | ⟨-, h⟩
  · rcases hawaits with ⟨e, a, he, -, -⟩ | ⟨event, c, hc, rfl, -⟩
    · rcases hs.executors job e he with h | h
      · exact h.2 p hp st hst
      · exact absurd h.2 hnot
    · rcases hs.scans event c hc with h | h
      · exact h.2 p hp st hst
      · exact absurd h.2 hnot
  · exact h

/-- **A final state stays final** in every step. -/
theorem Sole.terminal (hs : s.Sole) {job : JobId} {row : Job}
    (hrow : s.db.jobs[job]? = some row) (hterminal : row.state.terminal = true)
    (h : Step s l s') : ∃ row', s'.db.jobs[job]? = some row' ∧ row'.state.terminal = true := by
  have hsame : s'.db = s.db → ∃ row', s'.db.jobs[job]? = some row' ∧ row'.state.terminal = true :=
    fun hdb => ⟨row, hdb ▸ hrow, hterminal⟩
  cases h with
  | @app l a hl hcommand h =>
      cases App.step_cases h with
      | crash => exact absurd rfl hl
      | normalize hrec =>
          obtain ⟨row', hrow', -, hkeep⟩ := row_normalizeJob hrow
          exact ⟨row', hrow', hkeep hterminal ▸ hterminal⟩
      | lane hrec hlabel hw =>
          have hl' := App.laneLabel_ne_submit hlabel
          obtain ⟨row', hrow', -⟩ := OfType.lane (t := row.jobType) ⟨row, hrow, rfl⟩ hl' hw
          exact ⟨row', hrow',
            terminal_lane (hs.onlyFinal hrow hterminal) hl' hw hrow hrow' hterminal⟩
      | executor hrec hjob he hm hout => exact hsame db_applyOutcome
      | _ => exact hsame rfl
  | crash h =>
      obtain rfl := Option.some.inj h
      exact hsame rfl
  | @cancelled job rest fails hrec h =>
      refine hsame ?_
      rw [Studio.cancel]
      split <;> rfl
  | call hrec hevent hc hm h => exact hsame db_applyCall
  | _ => exact hsame rfl

/-- **One execution per job**, in every run in which a job is resumed alone: no job has two
executions; a cancel that the loop runs is never cleared again in any call of the job, and a stop
sets the event of the executor; and a job in a final state stays in a final state in whatever
follows. -/
theorem one_execution_per_job (db : Database) (now : ℕ) (coming : List JobId)
    {ls : List StudioLabel} (hrun : runLabels step (start db now coming) ls = some s)
    (halone : Along step ResumedAlone (start db now coming) ls) :
    (∀ job, (s.executions job).Subsingleton) ∧
      (∀ job rest fails ms s' s'', s.inbox = .cancel job :: rest →
        s.step (.network fails) = some s' → runLabels step s' ms = some s'' →
          ∀ event ∈ {event | some event ∈ s.executions job}, ∀ c, s''.calls event = some c →
            c.cancelRequested = true) ∧
      (∀ job e s', s.app.executors job = some e → e.point ≠ .created →
        s.step (.app (.stop job)) = some s' →
          ∃ e', s'.app.executors job = some e' ∧ e'.stopEvent = true) ∧
      ∀ ms s', runLabels step s ms = some s' → Along step ResumedAlone s ms →
        ∀ (job : JobId) (row row' : Job), s.db.jobs[job]? = some row → row.state.terminal = true →
          s'.db.jobs[job]? = some row' → row'.state.terminal = true := by
  have hs : s.Sole :=
    invariant_runLabels (fun _ _ _ hI hC hstep => hI.step hC (step_cases hstep))
      (sole_start db now coming) halone hrun
  refine ⟨hs.subsingleton_executions, ?_, fun job e s' he hpoint h => stop_reaches he hpoint h, ?_⟩
  · rintro job rest fails ms s' s'' hinbox hstep hrest event ⟨c, hc, hjob⟩
    have hasked : s'.AskedToStop event := by
      rw [step] at hstep
      split_ifs at hstep
      rw [hinbox] at hstep
      have hidle : ({ s with inbox := rest } : Studio).Sole := hs.skipped hinbox
      exact Option.some.inj hstep ▸ hidle.cancelled job hc hjob
    exact (invariant_runLabels (C := fun _ _ => True)
      (fun _ _ _ hI _ hstep => AskedToStop.step hI (step_cases hstep)) hasked
      (along_of_forall_mem fun _ _ => trivial) hrest).2
  · intro ms s' hrest hal job row row' hrow hterminal hrow'
    have hkept : s'.Sole ∧
        ∃ row', s'.db.jobs[job]? = some row' ∧ row'.state.terminal = true := by
      refine invariant_runLabels (C := ResumedAlone)
        (I := fun s => s.Sole ∧
          ∃ row', s.db.jobs[job]? = some row' ∧ row'.state.terminal = true)
        ?_ ⟨hs, row, hrow, hterminal⟩ hal hrest
      rintro t l t' ⟨ht, row₀, hrow₀, hfinal⟩ hC hstep
      exact ⟨ht.step hC (step_cases hstep), ht.terminal hrow₀ hfinal (step_cases hstep)⟩
    obtain ⟨-, row₁, hrow₁, hfinal⟩ := hkept
    exact Option.some.inj (hrow₁.symm.trans hrow') ▸ hfinal

/-! ## A paused scan -/

/-- A scan of the small program that a restart has paused. -/
def pausedScan : Job :=
  { persist 1 1 [] .invite with jobType := .scan, state := .paused }

/-- A call of `scan` that is handed over, from its first statement to its end. -/
def scanned (event : ℕ) : List StudioLabel :=
  [.network none, .app .get, .resumed event none, .app .get, .resumed event none,
    .finish event none, .app .get, .resumed event none, .app .get, .resumed event none]

/-- Nothing but `resume_scan` can break the condition. -/
theorem along_resumedAlone {ls : List StudioLabel} (h : ∀ l ∈ ls, ∀ job, l ≠ .resumeScan job) :
    Along step ResumedAlone s ls :=
  (along_of_forall_mem h).mono fun _ _ h job hl => absurd hl (h job)

/-- A scan is resumed once and completed, and then a second resume is refused. -/
theorem one_execution_per_job_scan :
    ∃ s s' row, runLabels step (start (smallDatabase [pausedScan]) 0 [])
        (.resumeScan 0 :: .submitScan :: scanned 0) = some s ∧
      (∀ job, (s.executions job).Subsingleton) ∧
      s.db.jobs[0]? = some row ∧ row.state = .completed ∧
      runLabels step s [.resumeScan 0, .cancelScan 0, .network none] = some s' ∧
      ∀ row', s'.db.jobs[0]? = some row' → row'.state.terminal = true := by
  have h : ((runLabels step (start (smallDatabase [pausedScan]) 0 [])
      (.resumeScan 0 :: .submitScan :: scanned 0)).bind fun s =>
        (s.db.jobs[0]?).bind fun row =>
          (runLabels step s [.resumeScan 0, .cancelScan 0, .network none]).map fun _ =>
            (row.state, s.resumable 0)) = some (.completed, false) := by
    decide +kernel
  obtain ⟨s, hs, h⟩ := Option.bind_eq_some_iff.mp h
  obtain ⟨row, hrow, h⟩ := Option.bind_eq_some_iff.mp h
  obtain ⟨s', hs', h⟩ := Option.map_eq_some_iff.mp h
  have hstate : row.state = .completed := congrArg Prod.fst h
  have hrefused : s.resumable 0 = false := congrArg Prod.snd h
  have hfirst : Along step ResumedAlone (start (smallDatabase [pausedScan]) 0 [])
      (.resumeScan 0 :: .submitScan :: scanned 0) := by
    refine ⟨?_, fun t _ => along_resumedAlone (by simp [scanned])⟩
    rintro job - -
    rintro (hq | ⟨event, c, hc, -⟩)
    · exact absurd hq (by simp [start, queued])
    · exact absurd hc (by simp [start])
  have hrest : Along step ResumedAlone s [.resumeScan 0, .cancelScan 0, .network none] := by
    refine ⟨?_, fun t _ => along_resumedAlone (by simp)⟩
    rintro job hl hresumable
    obtain rfl := StudioLabel.resumeScan.inj hl
    exact absurd (hrefused.symm.trans hresumable) (by simp)
  obtain ⟨hsingle, -, -, hfinal⟩ :=
    one_execution_per_job (smallDatabase [pausedScan]) 0 [] hs hfirst
  exact ⟨s, s', row, hs, hsingle, hrow, hstate, hs', fun row' hrow' =>
    hfinal _ s' hs' hrest 0 row row' hrow (by rw [hstate]; rfl) hrow'⟩

/-- The scan is resumed twice before the first call has written RUNNING: two calls are in progress,
and a cancel reaches the second one only.  And it is resumed again by a command that has read the
row before the first call began: the first call ends, and the job goes from COMPLETED to RUNNING. -/
theorem two_executions :
    (∃ s c d, runLabels step (start (smallDatabase [pausedScan]) 0 [])
        [.resumeScan 0, .submitScan, .resumeScan 0, .submitScan, .network none, .network none,
          .cancelScan 0, .network none] = some s ∧
      s.calls 0 = some c ∧ s.calls 1 = some d ∧ c.job = 0 ∧ d.job = 0 ∧
      c.cancelRequested = false ∧ d.cancelRequested = true) ∧
    ∃ s s' row row', runLabels step (start (smallDatabase [pausedScan]) 0 [])
        ([.resumeScan 0, .submitScan, .resumeScan 0] ++ scanned 0) = some s ∧
      runLabels step s [.submitScan, .network none, .app .get] = some s' ∧
      s.db.jobs[0]? = some row ∧ row.state = .completed ∧
      s'.db.jobs[0]? = some row' ∧ row'.state = .running := by
  constructor
  · have h : ((runLabels step (start (smallDatabase [pausedScan]) 0 [])
        [.resumeScan 0, .submitScan, .resumeScan 0, .submitScan, .network none, .network none,
          .cancelScan 0, .network none]).bind fun s => (s.calls 0).bind fun c =>
            (s.calls 1).map fun d => (c.job, d.job, c.cancelRequested, d.cancelRequested)) =
        some (0, 0, false, true) := by
      decide +kernel
    obtain ⟨s, hs, h⟩ := Option.bind_eq_some_iff.mp h
    obtain ⟨c, hc, h⟩ := Option.bind_eq_some_iff.mp h
    obtain ⟨d, hd, h⟩ := Option.map_eq_some_iff.mp h
    simp only [Prod.mk.injEq] at h
    exact ⟨s, c, d, hs, hc, hd, h.1, h.2.1, h.2.2.1, h.2.2.2⟩
  · have h : ((runLabels step (start (smallDatabase [pausedScan]) 0 [])
        ([.resumeScan 0, .submitScan, .resumeScan 0] ++ scanned 0)).bind fun s =>
          (runLabels step s [.submitScan, .network none, .app .get]).bind fun s' =>
            (s.db.jobs[0]?).bind fun row => (s'.db.jobs[0]?).map fun row' =>
              (row.state, row'.state)) = some (.completed, .running) := by
      decide +kernel
    obtain ⟨s, hs, h⟩ := Option.bind_eq_some_iff.mp h
    obtain ⟨s', hs', h⟩ := Option.bind_eq_some_iff.mp h
    obtain ⟨row, hrow, h⟩ := Option.bind_eq_some_iff.mp h
    obtain ⟨row', hrow', h⟩ := Option.map_eq_some_iff.mp h
    exact ⟨s, s', row, row', hs, hs', hrow, congrArg Prod.fst h, hrow', congrArg Prod.snd h⟩

end Studio

end Runtime
end MigrationStudio
