import MigrationStudio.Runtime.DBWriter

/-!
# The end of the write lane

`stop` flushes, puts the marker `_STOP` on the queue, joins the thread and only then sets
`_stopped`.  `submit` tests `_stopped`, then tests the thread and starts a new one when there is
none, and then puts its task on the queue: three steps, with those of `stop` and of the thread in
between.  The thread ends when it takes the marker, whatever stands behind it.

The model is a started writer with any number of `submit` calls under way and one `stop`.
`start` and the `flush` of `stop` are single steps: up to the marker nobody sets `_stopped` and
the thread lives, so the tests of the `submit` in `flush` pass.

* `StoppableWriter`: the lane, the marker, the thread, the calls under way.
* `PutBeforeMarker`: a task is put on the queue only while the marker has not been.
* `Drained`: the invariant; `stop_resolves_futures`: what holds when `stop` has returned.
-/

namespace MigrationStudio
namespace Runtime

open Foundations

variable {τ σ ε ρ : Type*}

/-- A writer with the task that `flush` submits, `lambda _conn: None` as a critical task. -/
structure StopSpec (τ σ ε ρ : Type*) extends WriterSpec τ σ ε ρ where
  flush : τ
  critical_flush : critical flush = true
  operation_flush : ∀ db, ∃ r, operation flush db = (db, .ok r)

/-- A `submit` that has seen `_stopped` clear, and whether it has also seen to the thread. -/
structure SubmitCall (τ : Type*) where
  task : τ
  threaded : Bool

/-- Where `stop` stands: it waits for the future of its `flush`, has put `_STOP` on the queue, or
joins a thread. -/
inductive StopPhase where
  | uncalled
  | flushing (future : ℕ)
  | marked
  | joining (thread : ℕ)
  | returned
  deriving DecidableEq, Repr

/-- `stop` has put `_STOP` on the queue. -/
def StopPhase.isMarked : StopPhase → Bool
  | .uncalled | .flushing _ => false
  | .marked | .joining _ | .returned => true

/-- The writer with its thread.  The queue of `lane` is the one up to the marker, `behind` what
stands after it.  `thread` counts the threads that have been started; all but the last have ended.
A `submit` that sees `_stopped` set returns a future that holds an exception. -/
structure StoppableWriter (τ σ ε ρ : Type*) where
  lane : DBWriter τ σ ε ρ
  marker : Bool
  behind : List (ℕ × τ)
  thread : ℕ
  alive : Bool
  stopped : Bool
  calls : List (SubmitCall τ)
  refused : ℕ
  phase : StopPhase

/-- Who moves: a `submit` begins, or one under way tests the thread or puts its task; the thread's
`queue.get` returns or times out; or `stop` goes on. -/
inductive StopLabel (τ : Type*) where
  | submit (t : τ)
  | test (call : ℕ)
  | put (call : ℕ)
  | get
  | timeout
  | stop

namespace StoppableWriter

/-- A started writer over a database. -/
def start (db : σ) : StoppableWriter τ σ ε ρ where
  lane := DBWriter.start db
  marker := false
  behind := []
  thread := 0
  alive := true
  stopped := false
  calls := []
  refused := 0
  phase := .uncalled

/-- `self._queue.put` of a task. -/
def put (w : StoppableWriter τ σ ε ρ) (t : τ) : StoppableWriter τ σ ε ρ :=
  if w.marker then
    { w with
      lane := { w.lane with submitted := w.lane.submitted ++ [t] }
      behind := w.behind ++ [(w.lane.submitted.length, t)] }
  else { w with lane := w.lane.submit t }

/-- `start` when there is no live thread. -/
def restart (w : StoppableWriter τ σ ε ρ) : StoppableWriter τ σ ε ρ :=
  { w with thread := w.thread + 1, alive := true, stopped := false }

/-- `_run` when `queue.get` returns `_STOP`: what is pending is committed, and the thread ends. -/
def takeMarker (S : WriterSpec τ σ ε ρ) (w : StoppableWriter τ σ ε ρ) : StoppableWriter τ σ ε ρ :=
  { w with
    lane := { w.lane.commitBatch S w.lane.pending with pending := [], queue := w.behind }
    marker := false
    behind := []
    alive := false }

/-- `_run` when `queue.get` returns. -/
def get (S : WriterSpec τ σ ε ρ) (w : StoppableWriter τ σ ε ρ) :
    Option (StoppableWriter τ σ ε ρ) :=
  if w.marker ∧ w.lane.queue.isEmpty then some (w.takeMarker S)
  else (w.lane.get S).map fun lane => { w with lane := lane }

/-- `stop`, to its next step. -/
def stop (S : StopSpec τ σ ε ρ) (w : StoppableWriter τ σ ε ρ) :
    Option (StoppableWriter τ σ ε ρ) :=
  match w.phase with
  | .uncalled => some { w.put S.flush with phase := .flushing w.lane.submitted.length }
  | .flushing i =>
      if (w.lane.future i).isSome then some { w with marker := true, phase := .marked } else none
  | .marked => some { w with phase := .joining w.thread }
  | .joining thread =>
      if thread < w.thread ∨ w.alive = false then
        some { w with stopped := true, phase := .returned }
      else none
  | .returned => none

/-- One step. -/
def step (S : StopSpec τ σ ε ρ) (w : StoppableWriter τ σ ε ρ) :
    StopLabel τ → Option (StoppableWriter τ σ ε ρ)
  | .submit t =>
      if w.stopped then some { w with refused := w.refused + 1 }
      else some { w with calls := w.calls ++ [⟨t, false⟩] }
  | .test i =>
      match w.calls[i]? with
      | some ⟨t, false⟩ =>
          some { (if w.alive then w else w.restart) with calls := w.calls.set i ⟨t, true⟩ }
      | _ => none
  | .put i =>
      match w.calls[i]? with
      | some ⟨t, true⟩ => some { w.put t with calls := w.calls.eraseIdx i }
      | _ => none
  | .get => if w.alive then w.get S.toWriterSpec else none
  | .timeout =>
      if w.alive ∧ ¬ w.marker then
        (w.lane.timeout S.toWriterSpec).map fun lane => { w with lane := lane }
      else none
  | .stop => w.stop S

variable {S : StopSpec τ σ ε ρ} {db₀ : σ} {w w' : StoppableWriter τ σ ε ρ}

theorem put_phase (w : StoppableWriter τ σ ε ρ) (t : τ) : (w.put t).phase = w.phase := by
  rw [put]
  split <;> rfl

/-! ## When nothing is lost -/

/-- **The step puts no task behind the marker**: a `submit` puts its task on the queue only while
`stop` has not put `_STOP` there. -/
def PutBeforeMarker (w : StoppableWriter τ σ ε ρ) (l : StopLabel τ) : Prop :=
  ∀ i, l = .put i → w.phase.isMarked = false

/-- **The invariant.**  The lane stands between two batches, nothing stands behind the marker, and
once the thread has taken the marker no task is waiting. -/
structure Drained (S : StopSpec τ σ ε ρ) (db₀ : σ) (w : StoppableWriter τ σ ε ρ) : Prop where
  committed : ∃ bs, Committed S.toWriterSpec db₀ w.lane bs
  behind : w.behind = []
  unmarked : w.phase.isMarked = false → w.alive = true ∧ w.marker = false
  marker : w.marker = true → w.alive = true ∧ w.phase ≠ .returned ∧
    ∀ thread, w.phase = .joining thread → thread = w.thread
  taken : w.phase.isMarked = true → w.marker = false → w.lane.waiting = []

namespace Drained

theorem start : Drained S db₀ (start db₀ : StoppableWriter τ σ ε ρ) where
  committed := ⟨[], committed_start⟩
  behind := rfl
  unmarked := fun _ => ⟨rfl, rfl⟩
  marker := fun h => absurd h (by simp [StoppableWriter.start])
  taken := fun h => absurd h (by simp [StoppableWriter.start, StopPhase.isMarked])

/-- A task put on the queue before the marker. -/
theorem put (h : Drained S db₀ w) (hphase : w.phase.isMarked = false) (t : τ) :
    Drained S db₀ (w.put t) := by
  obtain ⟨bs, hbs⟩ := h.committed
  obtain ⟨halive, hmarker⟩ := h.unmarked hphase
  have hput : w.put t = { w with lane := w.lane.submit t } := by
    rw [StoppableWriter.put, hmarker]
    rfl
  rw [hput]
  exact
    { h with
      committed := ⟨bs, hbs.submit t⟩
      taken := fun hmarked => absurd (hphase.symm.trans hmarked) (by simp) }

/-- The thread takes the marker. -/
theorem takeMarker (h : Drained S db₀ w) (hphase : w.phase.isMarked = true)
    (hqueue : w.lane.queue = []) : Drained S db₀ (w.takeMarker S.toWriterSpec) := by
  obtain ⟨bs, hbs⟩ := h.committed
  -- to the lane this is a timeout of `queue.get`
  have htimeout : w.lane.timeout S.toWriterSpec =
      some (w.takeMarker S.toWriterSpec).lane := by
    simp only [DBWriter.timeout, hqueue, StoppableWriter.takeMarker, h.behind]
    rw [← hqueue, ← DBWriter.commitBatch_queue S.toWriterSpec w.lane w.lane.pending]
  exact
    { committed := hbs.timeout htimeout
      behind := rfl
      unmarked := fun hno => absurd (hphase.symm.trans hno) (by simp)
      marker := fun hmarker => absurd hmarker (by simp [StoppableWriter.takeMarker])
      taken := fun _ _ => by
        simp [StoppableWriter.takeMarker, DBWriter.waiting, h.behind] }

/-- The thread takes a task, or its `queue.get` times out. -/
theorem setLane (h : Drained S db₀ w) {lane : DBWriter τ σ ε ρ}
    (hcommitted : ∃ bs, Committed S.toWriterSpec db₀ lane bs)
    (hwaiting : w.lane.waiting = [] → lane.waiting = []) :
    Drained S db₀ { w with lane := lane } :=
  { h with
    committed := hcommitted
    taken := fun hmarked hmarker => hwaiting (h.taken hmarked hmarker) }

theorem get (h : Drained S db₀ w) (hget : w.get S.toWriterSpec = some w') :
    Drained S db₀ w' := by
  unfold StoppableWriter.get at hget
  split_ifs at hget with hmarker
  · obtain rfl := Option.some.inj hget
    have hphase : w.phase.isMarked = true := by
      by_contra hno
      have hunmarked := (h.unmarked (Bool.eq_false_iff.mpr hno)).2
      exact absurd (hmarker.1.symm.trans hunmarked) (by simp)
    exact h.takeMarker hphase (List.isEmpty_iff.mp hmarker.2)
  · obtain ⟨lane, hlane, rfl⟩ := Option.map_eq_some_iff.mp hget
    obtain ⟨bs, hbs⟩ := h.committed
    refine h.setLane (hbs.get hlane) fun hwaiting => ?_
    have hqueue : w.lane.queue = [] := (List.append_eq_nil_iff.mp hwaiting).2
    exact absurd hlane (by simp [DBWriter.get, hqueue])

theorem timeout (h : Drained S db₀ w) {lane : DBWriter τ σ ε ρ}
    (hlane : w.lane.timeout S.toWriterSpec = some lane) :
    Drained S db₀ { w with lane := lane } := by
  obtain ⟨bs, hbs⟩ := h.committed
  refine h.setLane (hbs.timeout hlane) fun hwaiting => ?_
  have hqueue : w.lane.queue = [] := (List.append_eq_nil_iff.mp hwaiting).2
  simp only [DBWriter.timeout, hqueue, Option.some.injEq] at hlane
  simp [← hlane, DBWriter.waiting, hqueue]

/-- The marker comes on the queue, whether or not the `flush` has been done. -/
theorem mark (h : Drained S db₀ w) {i : ℕ} (hphase : w.phase = .flushing i) :
    Drained S db₀ { w with marker := true, phase := .marked } :=
  have halive := (h.unmarked (by rw [hphase]; rfl)).1
  { h with
    unmarked := fun hno => absurd hno (by simp [StopPhase.isMarked])
    marker := fun _ => ⟨halive, by simp, by simp⟩
    taken := fun _ hno => absurd hno (by simp) }

/-- `stop` goes on. -/
theorem stop (h : Drained S db₀ w) (hstop : w.stop S = some w') : Drained S db₀ w' := by
  unfold StoppableWriter.stop at hstop
  cases hphase : w.phase with
  | uncalled =>
      simp only [hphase, Option.some.injEq] at hstop
      subst hstop
      have hunmarked : w.phase.isMarked = false := by rw [hphase]; rfl
      have hput := h.put hunmarked S.flush
      have hstate := hput.unmarked (by rw [put_phase, hunmarked])
      exact
        { hput with
          unmarked := fun _ => hstate
          marker := fun hyes => absurd (hstate.2.symm.trans hyes) (by simp)
          taken := fun hmarked => absurd hmarked (by simp [StopPhase.isMarked]) }
  | flushing i =>
      simp only [hphase] at hstop
      split_ifs at hstop
      obtain rfl := Option.some.inj hstop
      exact h.mark hphase
  | marked =>
      simp only [hphase, Option.some.injEq] at hstop
      subst hstop
      have hmarked : w.phase.isMarked = true := by rw [hphase]; rfl
      exact
        { h with
          unmarked := fun hno => absurd hno (by simp [StopPhase.isMarked])
          marker := fun hmarker => ⟨(h.marker hmarker).1, by simp, by simp⟩
          taken := fun _ hmarker => h.taken hmarked hmarker }
  | joining thread =>
      simp only [hphase] at hstop
      split_ifs at hstop with hended
      obtain rfl := Option.some.inj hstop
      have hmarked : w.phase.isMarked = true := by rw [hphase]; rfl
      -- the thread that is joined has not ended before it has taken the marker
      have hmarker : w.marker = false := by
        by_contra hyes
        obtain ⟨halive, -, hjoined⟩ := h.marker (by simpa using hyes)
        rcases hended with hlt | hdead
        · exact absurd (hjoined thread hphase) hlt.ne
        · exact absurd (halive.symm.trans hdead) (by simp)
      exact
        { h with
          unmarked := fun hno => absurd hno (by simp [StopPhase.isMarked])
          marker := fun hyes => absurd (hmarker.symm.trans hyes) (by simp)
          taken := fun _ _ => h.taken hmarked hmarker }
  | returned => simp [hphase] at hstop

/-- What the invariant does not read may change. -/
theorem setCalls (h : Drained S db₀ w) (calls : List (SubmitCall τ)) (refused : ℕ) :
    Drained S db₀ { w with calls := calls, refused := refused } :=
  { h with }

/-- A new thread is started when the last one has ended. -/
theorem restart (h : Drained S db₀ w) (hdead : w.alive = false) : Drained S db₀ w.restart := by
  have hmarker : w.marker = false := by
    by_contra hyes
    exact absurd ((h.marker (by simpa using hyes)).1.symm.trans hdead) (by simp)
  exact
    { h with
      unmarked := fun hno => absurd ((h.unmarked hno).1.symm.trans hdead) (by simp)
      marker := fun hyes => absurd (hmarker.symm.trans hyes) (by simp) }

/-- **One step** that puts no task behind the marker. -/
theorem step {l : StopLabel τ} (h : Drained S db₀ w) (hput : w.PutBeforeMarker l)
    (hstep : w.step S l = some w') : Drained S db₀ w' := by
  unfold StoppableWriter.step at hstep
  cases l with
  | submit t =>
      simp only at hstep
      split_ifs at hstep
      · obtain rfl := Option.some.inj hstep
        exact h.setCalls _ _
      · obtain rfl := Option.some.inj hstep
        exact h.setCalls _ _
  | test i =>
      simp only at hstep
      split at hstep
      · obtain rfl := Option.some.inj hstep
        by_cases halive : w.alive = true
        · rw [if_pos halive]
          exact h.setCalls _ _
        · rw [if_neg halive]
          exact (h.restart (by simpa using halive)).setCalls _ _
      · exact absurd hstep (by simp)
  | put i =>
      simp only at hstep
      split at hstep
      · obtain rfl := Option.some.inj hstep
        exact (h.put (hput i rfl) _).setCalls _ _
      · exact absurd hstep (by simp)
  | get =>
      simp only at hstep
      split_ifs at hstep
      exact h.get hstep
  | timeout =>
      simp only at hstep
      split_ifs at hstep
      obtain ⟨lane, hlane, rfl⟩ := Option.map_eq_some_iff.mp hstep
      exact h.timeout hlane
  | stop => exact h.stop hstep

/-- When `stop` has returned, the thread has taken the marker, and no task is waiting. -/
theorem waiting_eq_nil (h : Drained S db₀ w) (hreturned : w.phase = .returned) :
    w.lane.waiting = [] := by
  have hmarker : w.marker = false := by
    by_contra hyes
    exact (h.marker (by simpa using hyes)).2.1 hreturned
  exact h.taken (by rw [hreturned]; rfl) hmarker

end Drained

/-- **A stopped writer has resolved every future** in every run whose steps put no task behind the
marker: when `stop` has returned no task is on the queue or pending, every task ever put there has
its future resolved, and the committed database is the sequential application of exactly the
operations whose futures hold a result. -/
theorem stop_resolves_futures {ls : List (StopLabel τ)}
    (hrun : runLabels (step S) (StoppableWriter.start db₀) ls = some w)
    (hput : Along (step S) PutBeforeMarker (StoppableWriter.start db₀) ls)
    (hreturned : w.phase = .returned) :
    w.lane.waiting = [] ∧ w.behind = [] ∧
      (∀ i < w.lane.submitted.length, (w.lane.future i).isSome) ∧
      transaction S.operation (w.lane.succeeded.map Prod.fst) db₀ =
        (w.lane.database, .ok (w.lane.succeeded.map Prod.snd)) := by
  have hinv : Drained S db₀ w :=
    invariant_runLabels (fun w l w' h hC hw => h.step hC hw) Drained.start hput hrun
  have hwaiting := hinv.waiting_eq_nil hreturned
  obtain ⟨bs, hbs⟩ := hinv.committed
  refine ⟨hwaiting, hinv.behind, fun i hi => ?_, hbs.transaction_succeeded⟩
  have hsubmitted : w.lane.submitted = bs.flatten := by
    rw [hbs.submitted, hwaiting, List.map_nil, List.append_nil]
  have hlen : i < (commitBatches S.operation bs db₀).2.length := by
    rw [length_commitBatches, ← hsubmitted]
    exact hi
  rw [hbs.future_eq, List.getElem?_eq_getElem hlen]
  rfl

/-! ## A writer over rows -/

/-- A writer that inserts rows with its default batch limit; `none` is the task of `flush`. -/
def rowStop : StopSpec (Option ℕ) (List ℕ) Unit ℕ where
  operation
    | some row, rows => (rows ++ [row], .ok rows.length)
    | none, rows => (rows, .ok 0)
  critical t := t.isNone
  batchLimit := 250
  flush := none
  critical_flush := rfl
  operation_flush := fun _ => ⟨0, rfl⟩

/-- A task that is put on the queue while `stop` waits for its `flush`. -/
theorem stop_resolves_futures_rows :
    ∃ w : StoppableWriter (Option ℕ) (List ℕ) Unit ℕ,
      runLabels (step rowStop) (StoppableWriter.start [])
          [.submit (some 7), .test 0, .stop, .put 0, .get, .stop, .get, .get, .stop, .stop] =
        some w ∧ w.phase = .returned ∧ w.lane.database = [7] ∧
      ∀ i < 2, (w.lane.future i).isSome := by
  have hrun : runLabels (step rowStop) (StoppableWriter.start [])
      [.submit (some 7), .test 0, .stop, .put 0, .get, .stop, .get, .get, .stop, .stop] =
        some _ := rfl
  refine ⟨_, hrun, rfl, rfl, (stop_resolves_futures hrun ?_ rfl).2.2.1⟩
  have hother : ∀ {ls : List (StopLabel (Option ℕ))}
      {w : StoppableWriter (Option ℕ) (List ℕ) Unit ℕ},
      (∀ l ∈ ls, ∀ i, l ≠ .put i) → Along (step rowStop) PutBeforeMarker w ls := fun hls =>
    (along_of_forall_mem hls).mono fun w l hl i hi => absurd hi (hl i)
  have hbefore : runLabels (step rowStop) (StoppableWriter.start [])
      [.submit (some 7), .test 0, .stop] = some _ := rfl
  refine (along_append hbefore).mpr ⟨hother (by simp), fun _ _ => rfl, fun w _ => hother (by simp)⟩

/-- A task that is put on the queue behind the marker, by a `submit` that has seen `_stopped` clear
and the thread alive, stays there: `stop` has returned and its future is pending. -/
theorem submit_behind_marker :
    ∃ w : StoppableWriter (Option ℕ) (List ℕ) Unit ℕ,
      runLabels (step rowStop) (StoppableWriter.start [])
          [.submit (some 7), .test 0, .stop, .get, .stop, .put 0, .get, .stop, .stop] = some w ∧
      w.phase = .returned ∧ ¬ ∀ i < w.lane.submitted.length, (w.lane.future i).isSome := by
  refine ⟨_, rfl, rfl, fun h => ?_⟩
  exact absurd (h 1 (by decide)) (by decide)

end StoppableWriter
end Runtime
end MigrationStudio
