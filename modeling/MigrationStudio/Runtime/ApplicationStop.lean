import MigrationStudio.Runtime.StoppedWriter

/-!
# `runtime/application_runtime.py`: how the application stops

Three kinds of threads submit to the writer: the one of the user interface, which is also the one
that calls `ApplicationRuntime.stop`, the thread of the network loop, and the file workers.  `stop`
takes them in order.  It lets the shutdown hooks run, stops the network loop and joins its thread,
shuts the worker pool down and waits for the work items that have begun, and only then stops the
writer, whose own `stop` would lose a task that is put behind its marker.

The wait for the hooks may time out, and nothing comes of it.  The join of the network thread has a
timeout as well, and so have the two waits of the writer's `stop`, for its `flush` and for its
thread; behind each of them `stop` goes on all the same.  That the threads wait for the futures that
`submit` has given them is left out: the writer's thread lives until all of them have ended, and a
thread may end here before its futures are resolved.

* `ApplicationRuntime.step`: a step of one of the threads, of the writer's thread, or of `stop`.
* `Sheltered`: the invariant; `putBeforeMarker_of_sheltered`: no task comes behind the marker.
* `writes_resolved_of_stop`: what holds when `stop` has returned.
* `stop_returns`: it can always return.
-/

namespace MigrationStudio
namespace Runtime

open Foundations StoppableWriter

variable {τ σ ε ρ : Type*}

/-- A thread that calls `submit` of the writer. -/
inductive Client where
  | ui
  | network
  | worker (thread : ℕ)
  deriving DecidableEq, Repr

/-- Where `ApplicationRuntime.stop` stands. -/
inductive ApplicationPhase where
  | uncalled | hooks | joiningNetwork | joiningWorkers | stoppingWriter | returned
  deriving DecidableEq, Repr

def ApplicationPhase.rank : ApplicationPhase → ℕ
  | uncalled => 0
  | hooks => 1
  | joiningNetwork => 2
  | joiningWorkers => 3
  | stoppingWriter => 4
  | returned => 5

/-- A started application: the writer, the threads that are inside its `submit`, in the order of the
calls; the network thread; and the worker pool with the work items that nobody has begun and the
threads that are inside one. -/
structure ApplicationRuntime (τ σ ε ρ : Type*) where
  writer : StoppableWriter τ σ ε ρ
  callers : List Client
  networkAlive : Bool
  loopStopped : Bool
  accepting : Bool
  queued : ℕ
  busy : List ℕ
  phase : ApplicationPhase

/-- Who moves: a thread calls `submit`, or one inside it goes on; the writer's thread; a work item
is queued, begun or finished; the network thread ends; `stop` goes on, or one of its waits times
out: the join of the network thread, or the `flush` or the join in `stop` of the writer. -/
inductive ApplicationLabel (τ : Type*) where
  | submit (client : Client) (t : τ)
  | test (call : ℕ)
  | put (call : ℕ)
  | get
  | timeout
  | work
  | begin (thread : ℕ)
  | finish (thread : ℕ)
  | networkEnds
  | stop
  | joinTimesOut
  | flushTimesOut
  | writerJoinTimesOut

/-- Neither of the two joins times out. -/
def ApplicationLabel.Joins : ApplicationLabel τ → Prop
  | joinTimesOut | writerJoinTimesOut => False
  | _ => True

/-- The threads go on with what they do, begin nothing new, and no wait times out. -/
def ApplicationLabel.Finishing : ApplicationLabel τ → Prop
  | submit _ _ | work | begin _ | joinTimesOut | flushTimesOut | writerJoinTimesOut => False
  | test _ | put _ | get | timeout | finish _ | networkEnds | stop => True

theorem ApplicationLabel.Finishing.joins {l : ApplicationLabel τ} (h : l.Finishing) : l.Joins := by
  cases l with
  | joinTimesOut => exact h
  | writerJoinTimesOut => exact h
  | _ => trivial

namespace StoppableWriter

/-- `stop`, when its `flush` has timed out: the marker comes on the queue all the same. -/
def flushTimesOut (w : StoppableWriter τ σ ε ρ) : Option (StoppableWriter τ σ ε ρ) :=
  match w.phase with
  | .flushing _ => some { w with marker := true, phase := .marked }
  | _ => none

/-- `stop`, when its join has timed out. -/
def joinTimesOut (w : StoppableWriter τ σ ε ρ) : Option (StoppableWriter τ σ ε ρ) :=
  match w.phase with
  | .joining _ => some { w with stopped := true, phase := .returned }
  | _ => none

theorem flushTimesOut_eq_some {w w' : StoppableWriter τ σ ε ρ} (h : w.flushTimesOut = some w') :
    ∃ i, w.phase = .flushing i ∧ w' = { w with marker := true, phase := .marked } := by
  unfold flushTimesOut at h
  split at h
  next i hphase => exact ⟨i, hphase, (Option.some.inj h).symm⟩
  next => cases h

end StoppableWriter

namespace ApplicationRuntime

/-- A started application over a database. -/
def start (db : σ) : ApplicationRuntime τ σ ε ρ where
  writer := StoppableWriter.start db
  callers := []
  networkAlive := true
  loopStopped := false
  accepting := true
  queued := 0
  busy := []
  phase := .uncalled

/-- The thread runs code of the application other than `stop`. -/
def Active (s : ApplicationRuntime τ σ ε ρ) : Client → Prop
  | .ui => s.phase = .uncalled
  | .network => s.networkAlive = true
  | .worker thread => thread ∈ s.busy

instance (s : ApplicationRuntime τ σ ε ρ) (c : Client) : Decidable (s.Active c) :=
  match c with
  | .ui => inferInstanceAs (Decidable (_ = _))
  | .network => inferInstanceAs (Decidable (_ = _))
  | .worker _ => inferInstanceAs (Decidable (_ ∈ _))

/-- `self.executor.shutdown(wait=wait, cancel_futures=True)`, up to the wait. -/
def shutdownWorkers (s : ApplicationRuntime τ σ ε ρ) : ApplicationRuntime τ σ ε ρ :=
  { s with accepting := false, queued := 0, phase := .joiningWorkers }

/-- `stop`, to its next step. -/
def stop (S : StopSpec τ σ ε ρ) (s : ApplicationRuntime τ σ ε ρ) :
    Option (ApplicationRuntime τ σ ε ρ) :=
  match s.phase with
  | .uncalled => if .ui ∈ s.callers then none else some { s with phase := .hooks }
  | .hooks => some { s with loopStopped := true, phase := .joiningNetwork }
  | .joiningNetwork => if s.networkAlive then none else some s.shutdownWorkers
  | .joiningWorkers => if s.busy = [] then some { s with phase := .stoppingWriter } else none
  | .stoppingWriter =>
      if s.writer.phase = .returned then some { s with phase := .returned }
      else (s.writer.stop S).map fun writer => { s with writer := writer }
  | .returned => none

/-- One step, with the threads of the pool. -/
def step (S : StopSpec τ σ ε ρ) (workers : ℕ) (s : ApplicationRuntime τ σ ε ρ) :
    ApplicationLabel τ → Option (ApplicationRuntime τ σ ε ρ)
  | .submit c t =>
      if s.Active c ∧ c ∉ s.callers then
        (s.writer.step S (.submit t)).map fun writer =>
          { s with
            writer := writer
            callers := if s.writer.stopped then s.callers else s.callers ++ [c] }
      else none
  | .test i => (s.writer.step S (.test i)).map fun writer => { s with writer := writer }
  | .put i =>
      (s.writer.step S (.put i)).map fun writer =>
        { s with writer := writer, callers := s.callers.eraseIdx i }
  | .get => (s.writer.step S .get).map fun writer => { s with writer := writer }
  | .timeout => (s.writer.step S .timeout).map fun writer => { s with writer := writer }
  | .work =>
      if s.accepting ∧ (s.Active .ui ∨ s.Active .network) then
        some { s with queued := s.queued + 1 }
      else none
  | .begin thread =>
      if thread < max 1 workers ∧ thread ∉ s.busy ∧ 0 < s.queued then
        some { s with queued := s.queued - 1, busy := s.busy ++ [thread] }
      else none
  | .finish thread =>
      if thread ∈ s.busy ∧ .worker thread ∉ s.callers then
        some { s with busy := s.busy.filter fun other => other ≠ thread }
      else none
  | .networkEnds =>
      if s.networkAlive ∧ s.loopStopped ∧ .network ∉ s.callers then
        some { s with networkAlive := false }
      else none
  | .stop => s.stop S
  | .joinTimesOut => if s.phase = .joiningNetwork then some s.shutdownWorkers else none
  | .flushTimesOut => s.writer.flushTimesOut.map fun writer => { s with writer := writer }
  | .writerJoinTimesOut => s.writer.joinTimesOut.map fun writer => { s with writer := writer }

variable {S : StopSpec τ σ ε ρ} {workers : ℕ} {db₀ : σ} {s s' : ApplicationRuntime τ σ ε ρ}
  {l : ApplicationLabel τ}

/-! ## No task comes behind the marker -/

/-- **The invariant.**  Whoever is inside `submit` is a thread that still runs.  Behind each join
the threads that it waits for have ended, and the writer is stopped behind the last of them. -/
structure Sheltered (S : StopSpec τ σ ε ρ) (db₀ : σ) (s : ApplicationRuntime τ σ ε ρ) : Prop where
  drained : Drained S db₀ s.writer
  callers : s.callers.length = s.writer.calls.length
  active : ∀ c ∈ s.callers, s.Active c
  looped : s.phase = .joiningNetwork → s.loopStopped = true
  joined : 3 ≤ s.phase.rank → s.networkAlive = false ∧ s.queued = 0 ∧ s.accepting = false
  idle : 4 ≤ s.phase.rank → s.busy = []
  uncalled : s.phase.rank < 4 → s.writer.phase = .uncalled
  returned : s.phase = .returned → s.writer.phase = .returned
  stopped : s.writer.stopped = true → s.writer.phase = .returned
  flushing : ∀ i, s.writer.phase = .flushing i → i < s.writer.lane.submitted.length
  marked : s.writer.phase.isMarked = true → s.writer.alive = s.writer.marker
  refused : s.writer.refused = 0

namespace Sheltered

/-- Nobody is inside `submit` when the writer is being stopped. -/
theorem calls_eq_nil (h : Sheltered S db₀ s) (hphase : 4 ≤ s.phase.rank) :
    s.callers = [] ∧ s.writer.calls = [] := by
  have hcallers : s.callers = [] := by
    rw [List.eq_nil_iff_forall_not_mem]
    intro c hc
    have hactive := h.active c hc
    cases c with
    | ui =>
        rw [Active] at hactive
        rw [hactive] at hphase
        exact absurd hphase (by decide)
    | network =>
        have hended := (h.joined (by omega)).1
        exact absurd (hended.symm.trans hactive) (by decide)
    | worker thread =>
        rw [Active, h.idle hphase] at hactive
        exact absurd hactive List.not_mem_nil
  have hlen := h.callers
  rw [hcallers] at hlen
  exact ⟨hcallers, List.length_eq_zero_iff.mp hlen.symm⟩

/-- A thread that goes on inside `submit` does so before the writer is being stopped. -/
theorem rank_lt (h : Sheltered S db₀ s) {i : ℕ} {call : SubmitCall τ}
    (hcall : s.writer.calls[i]? = some call) : s.phase.rank < 4 := by
  by_contra hphase
  rw [(h.calls_eq_nil (by omega)).2] at hcall
  exact absurd hcall (by simp)

/-- **No task comes behind the marker**: a thread puts its task on the queue before `stop` of the
writer has begun. -/
theorem putBeforeMarker (h : Sheltered S db₀ s) {wl : StopLabel τ} {w : StoppableWriter τ σ ε ρ}
    (hstep : s.writer.step S wl = some w) : s.writer.PutBeforeMarker wl := by
  rintro i rfl
  cases hcall : s.writer.calls[i]? with
  | none => rw [StoppableWriter.step, hcall] at hstep; cases hstep
  | some call =>
      rw [h.uncalled (h.rank_lt hcall)]
      rfl

end Sheltered

/-! ## One step -/

section Writer

variable {w w' : StoppableWriter τ σ ε ρ}

/-- What a turn of the writer's thread leaves alone. -/
structure Turned (w w' : StoppableWriter τ σ ε ρ) : Prop where
  phase : w'.phase = w.phase
  calls : w'.calls = w.calls
  stopped : w'.stopped = w.stopped
  refused : w'.refused = w.refused
  submitted : w'.lane.submitted = w.lane.submitted
  thread : w'.thread = w.thread
  marker : (w'.alive = w.alive ∧ w'.marker = w.marker) ∨ (w'.alive = false ∧ w'.marker = false)

theorem submitted_of_get {lane lane' : DBWriter τ σ ε ρ} {W : WriterSpec τ σ ε ρ}
    (h : lane.get W = some lane') : lane'.submitted = lane.submitted := by
  unfold DBWriter.get at h
  split at h
  · cases h
  · split_ifs at h
    · obtain rfl := Option.some.inj h
      show (DBWriter.commitBatch W (lane.commitBatch W lane.pending) _).submitted = lane.submitted
      rw [DBWriter.commitBatch_submitted, DBWriter.commitBatch_submitted]
    · obtain rfl := Option.some.inj h
      exact DBWriter.commitBatch_submitted W lane _
    · obtain rfl := Option.some.inj h
      rfl

theorem turned_of_get (h : w.get S.toWriterSpec = some w') : Turned w w' := by
  unfold StoppableWriter.get at h
  split_ifs at h
  · obtain rfl := Option.some.inj h
    exact ⟨rfl, rfl, rfl, rfl, DBWriter.commitBatch_submitted _ _ _, rfl, Or.inr ⟨rfl, rfl⟩⟩
  · obtain ⟨lane, hlane, rfl⟩ := Option.map_eq_some_iff.mp h
    exact ⟨rfl, rfl, rfl, rfl, submitted_of_get hlane, rfl, Or.inl ⟨rfl, rfl⟩⟩

theorem turned_of_step {wl : StopLabel τ} (hwl : wl = .get ∨ wl = .timeout)
    (h : w.step S wl = some w') : Turned w w' := by
  unfold StoppableWriter.step at h
  rcases hwl with rfl | rfl
  · dsimp only at h
    split_ifs at h
    exact turned_of_get h
  · dsimp only at h
    split_ifs at h
    obtain ⟨lane, hlane, rfl⟩ := Option.map_eq_some_iff.mp h
    refine ⟨rfl, rfl, rfl, rfl, ?_, rfl, Or.inl ⟨rfl, rfl⟩⟩
    unfold DBWriter.timeout at hlane
    split at hlane
    · obtain rfl := Option.some.inj hlane
      exact DBWriter.commitBatch_submitted _ _ _
    · cases hlane

theorem put_of_unmarked (hmarker : w.marker = false) (t : τ) :
    w.put t = { w with lane := w.lane.submit t } :=
  if_neg (by rw [hmarker]; exact Bool.false_ne_true)

end Writer

namespace Sheltered

/-- A turn of the writer's thread. -/
theorem turn (h : Sheltered S db₀ s) {wl : StopLabel τ} (hwl : wl = .get ∨ wl = .timeout)
    {w : StoppableWriter τ σ ε ρ} (hstep : s.writer.step S wl = some w) :
    Sheltered S db₀ { s with writer := w } := by
  have hturned := turned_of_step hwl hstep
  exact
    { h with
      drained := h.drained.step (h.putBeforeMarker hstep) hstep
      callers := h.callers.trans (congrArg List.length hturned.calls.symm)
      uncalled := fun hphase => hturned.phase.trans (h.uncalled hphase)
      returned := fun hphase => hturned.phase.trans (h.returned hphase)
      stopped := fun hstopped =>
        hturned.phase.trans (h.stopped (hturned.stopped.symm.trans hstopped))
      flushing := fun i hi => by
        show i < w.lane.submitted.length
        rw [hturned.submitted]
        exact h.flushing i (hturned.phase.symm.trans hi)
      marked := fun hmarked => by
        show w.alive = w.marker
        have hbefore : s.writer.phase.isMarked = true := hturned.phase ▸ hmarked
        rcases hturned.marker with ⟨halive, hmarker⟩ | ⟨halive, hmarker⟩
        · rw [halive, hmarker]
          exact h.marked hbefore
        · rw [halive, hmarker]
      refused := hturned.refused.trans h.refused }

/-- A thread begins a `submit`, which no writer refuses. -/
theorem submit (h : Sheltered S db₀ s) {c : Client} {t : τ} (hactive : s.Active c)
    {w : StoppableWriter τ σ ε ρ} (hstep : s.writer.step S (.submit t) = some w) :
    Sheltered S db₀
      { s with
        writer := w
        callers := if s.writer.stopped then s.callers else s.callers ++ [c] } := by
  have hopen : ¬ s.writer.stopped = true := by
    intro hstopped
    have hreturned := h.stopped hstopped
    have hphase : 4 ≤ s.phase.rank := by
      by_contra hlt
      rw [h.uncalled (by omega)] at hreturned
      cases hreturned
    cases c with
    | ui =>
        rw [Active] at hactive
        rw [hactive] at hphase
        exact absurd hphase (by decide)
    | network => exact absurd ((h.joined (by omega)).1.symm.trans hactive) (by decide)
    | worker thread =>
        rw [Active, h.idle hphase] at hactive
        exact absurd hactive List.not_mem_nil
  have hdrained := h.drained.step (h.putBeforeMarker hstep) hstep
  unfold StoppableWriter.step at hstep
  dsimp only at hstep
  rw [if_neg hopen] at hstep ⊢
  obtain rfl := Option.some.inj hstep
  exact
    { h with
      drained := hdrained
      callers := by
        show (s.callers ++ [c]).length = (s.writer.calls ++ [_]).length
        rw [List.length_append, List.length_append, h.callers]
        rfl
      active := by
        intro c' hc'
        rcases List.mem_append.mp hc' with hc' | hc'
        · exact h.active c' hc'
        · obtain rfl := List.mem_singleton.mp hc'
          exact hactive }

/-- A thread that is inside `submit` sees to the writer's thread, which lives. -/
theorem test (h : Sheltered S db₀ s) {i : ℕ} {w : StoppableWriter τ σ ε ρ}
    (hstep : s.writer.step S (.test i) = some w) : Sheltered S db₀ { s with writer := w } := by
  have hdrained := h.drained.step (h.putBeforeMarker hstep) hstep
  unfold StoppableWriter.step at hstep
  dsimp only at hstep
  split at hstep
  · rename_i t hcall
    have huncalled := h.uncalled (h.rank_lt hcall)
    have halive : s.writer.alive = true := (h.drained.unmarked (by rw [huncalled]; rfl)).1
    rw [halive] at hstep
    obtain rfl := Option.some.inj hstep
    exact
      { h with
        drained := hdrained
        callers := h.callers.trans List.length_set.symm }
  · cases hstep

/-- A thread puts its task on the queue, in front of the marker. -/
theorem put (h : Sheltered S db₀ s) {i : ℕ} {w : StoppableWriter τ σ ε ρ}
    (hstep : s.writer.step S (.put i) = some w) :
    Sheltered S db₀ { s with writer := w, callers := s.callers.eraseIdx i } := by
  have hdrained := h.drained.step (h.putBeforeMarker hstep) hstep
  unfold StoppableWriter.step at hstep
  dsimp only at hstep
  split at hstep
  · rename_i t hcall
    have huncalled := h.uncalled (h.rank_lt hcall)
    have hmarker : s.writer.marker = false := (h.drained.unmarked (by rw [huncalled]; rfl)).2
    rw [put_of_unmarked hmarker] at hstep
    obtain rfl := Option.some.inj hstep
    exact
      { h with
        drained := hdrained
        callers := by
          show (s.callers.eraseIdx i).length = (s.writer.calls.eraseIdx i).length
          rw [List.length_eraseIdx, List.length_eraseIdx, h.callers]
        active := fun c hc => h.active c (List.mem_of_mem_eraseIdx hc)
        flushing := fun j hj => by
          have hj : s.writer.phase = .flushing j := hj
          rw [huncalled] at hj
          cases hj }
  · cases hstep

theorem ui_notMem (h : Sheltered S db₀ s) (hphase : s.phase ≠ .uncalled) : .ui ∉ s.callers :=
  fun hui => hphase (h.active .ui hui)

/-- `stop` goes on to a phase. -/
theorem setPhase (h : Sheltered S db₀ s) (hui : .ui ∉ s.callers) {phase : ApplicationPhase}
    {loopStopped accepting : Bool} {queued : ℕ}
    (hlooped : phase = .joiningNetwork → loopStopped = true)
    (hjoined : 3 ≤ phase.rank → s.networkAlive = false ∧ queued = 0 ∧ accepting = false)
    (hidle : 4 ≤ phase.rank → s.busy = [])
    (huncalled : phase.rank < 4 → s.writer.phase = .uncalled)
    (hreturned : phase = .returned → s.writer.phase = .returned) :
    Sheltered S db₀
      { s with
        loopStopped := loopStopped
        accepting := accepting
        queued := queued
        phase := phase } :=
  { h with
    active := fun c hc => by
      have hactive := h.active c hc
      cases c with
      | ui => exact absurd hc hui
      | network => exact hactive
      | worker thread => exact hactive
    looped := hlooped
    joined := hjoined
    idle := hidle
    uncalled := huncalled
    returned := hreturned }

/-- The marker comes on the queue of the writer. -/
theorem mark (h : Sheltered S db₀ s) {i : ℕ} (hwriter : s.writer.phase = .flushing i) :
    Sheltered S db₀ { s with writer := { s.writer with marker := true, phase := .marked } } :=
  { h with
    drained := h.drained.mark hwriter
    uncalled := fun hlt => absurd (hwriter.symm.trans (h.uncalled hlt)) nofun
    returned := fun hreturned => absurd (hwriter.symm.trans (h.returned hreturned)) nofun
    stopped := fun hstopped => absurd (hwriter.symm.trans (h.stopped hstopped)) nofun
    flushing := nofun
    marked := fun _ => (h.drained.unmarked (by rw [hwriter]; rfl)).1 }

/-- While the writer is being stopped nobody is inside `submit`, so only the writer's own state
counts. -/
theorem setWriter (h : Sheltered S db₀ s) (hphase : s.phase = .stoppingWriter)
    {w : StoppableWriter τ σ ε ρ} (hdrained : Drained S db₀ w)
    (hcalls : w.calls = s.writer.calls) (hrefused : w.refused = s.writer.refused)
    (hstopped : w.stopped = true → w.phase = .returned)
    (hflushing : ∀ i, w.phase = .flushing i → i < w.lane.submitted.length)
    (hmarked : w.phase.isMarked = true → w.alive = w.marker) :
    Sheltered S db₀ { s with writer := w } :=
  { h with
    drained := hdrained
    callers := h.callers.trans (congrArg List.length hcalls.symm)
    uncalled := fun hlt => absurd hlt (by show ¬ s.phase.rank < 4; rw [hphase]; decide)
    returned := fun hreturned => absurd (hphase.symm.trans hreturned) nofun
    stopped := hstopped
    flushing := hflushing
    marked := hmarked
    refused := hrefused.trans h.refused }

/-- `stop` of the writer goes on. -/
theorem stopWriter (h : Sheltered S db₀ s) (hphase : s.phase = .stoppingWriter)
    {w : StoppableWriter τ σ ε ρ} (hstep : s.writer.stop S = some w) :
    Sheltered S db₀ { s with writer := w } := by
  have hdrained := h.drained.step (l := .stop) nofun hstep
  unfold StoppableWriter.stop at hstep
  cases hwriter : s.writer.phase with
  | uncalled =>
      have hunmarked := (h.drained.unmarked (by rw [hwriter]; rfl)).2
      rw [hwriter, put_of_unmarked hunmarked] at hstep
      obtain rfl := Option.some.inj hstep
      refine h.setWriter hphase hdrained rfl rfl
        (fun hstopped => absurd (hwriter.symm.trans (h.stopped hstopped)) nofun)
        (fun i hi => ?_) nofun
      obtain rfl := StopPhase.flushing.inj hi
      show s.writer.lane.submitted.length < (s.writer.lane.submitted ++ [_]).length
      rw [List.length_append]
      exact Nat.lt_succ_self _
  | flushing i =>
      rw [hwriter] at hstep
      dsimp only at hstep
      split_ifs at hstep
      obtain rfl := Option.some.inj hstep
      exact h.mark hwriter
  | marked =>
      have hmarked := h.marked (by rw [hwriter]; rfl)
      rw [hwriter] at hstep
      obtain rfl := Option.some.inj hstep
      exact h.setWriter hphase hdrained rfl rfl
        (fun hstopped => absurd (hwriter.symm.trans (h.stopped hstopped)) nofun) nofun
        fun _ => hmarked
  | joining thread =>
      have hmarked := h.marked (by rw [hwriter]; rfl)
      rw [hwriter] at hstep
      dsimp only at hstep
      split_ifs at hstep
      obtain rfl := Option.some.inj hstep
      exact h.setWriter hphase hdrained rfl rfl (fun _ => rfl) nofun fun _ => hmarked
  | returned =>
      rw [hwriter] at hstep
      cases hstep

/-- `stop` goes on, and its join does not time out. -/
theorem stop (h : Sheltered S db₀ s) (hstep : s.stop S = some s') : Sheltered S db₀ s' := by
  unfold ApplicationRuntime.stop at hstep
  cases hphase : s.phase with
  | uncalled =>
      rw [hphase] at hstep
      dsimp only at hstep
      split_ifs at hstep with hui
      obtain rfl := Option.some.inj hstep
      have huncalled := h.uncalled (by rw [hphase]; decide)
      exact h.setPhase hui nofun (fun hrank => absurd hrank (by decide))
        (fun hrank => absurd hrank (by decide)) (fun _ => huncalled) nofun
  | hooks =>
      rw [hphase] at hstep
      obtain rfl := Option.some.inj hstep
      have huncalled := h.uncalled (by rw [hphase]; decide)
      exact h.setPhase (h.ui_notMem (by rw [hphase]; decide)) (fun _ => rfl)
        (fun hrank => absurd hrank (by decide)) (fun hrank => absurd hrank (by decide))
        (fun _ => huncalled) nofun
  | joiningNetwork =>
      rw [hphase] at hstep
      dsimp only at hstep
      split_ifs at hstep with halive
      obtain rfl := Option.some.inj hstep
      have huncalled := h.uncalled (by rw [hphase]; decide)
      exact h.setPhase (h.ui_notMem (by rw [hphase]; decide)) nofun
        (fun _ => ⟨Bool.eq_false_iff.mpr halive, rfl, rfl⟩)
        (fun hrank => absurd hrank (by decide)) (fun _ => huncalled) nofun
  | joiningWorkers =>
      rw [hphase] at hstep
      dsimp only at hstep
      split_ifs at hstep with hbusy
      obtain rfl := Option.some.inj hstep
      have hjoined := h.joined (by rw [hphase]; decide)
      exact h.setPhase (h.ui_notMem (by rw [hphase]; decide)) nofun (fun _ => hjoined)
        (fun _ => hbusy) (fun hrank => absurd hrank (by decide)) nofun
  | stoppingWriter =>
      rw [hphase] at hstep
      dsimp only at hstep
      split_ifs at hstep with hreturned
      · obtain rfl := Option.some.inj hstep
        have hjoined := h.joined (by rw [hphase]; decide)
        have hbusy := h.idle (by rw [hphase]; decide)
        exact h.setPhase (h.ui_notMem (by rw [hphase]; decide)) nofun (fun _ => hjoined)
          (fun _ => hbusy) (fun hrank => absurd hrank (by decide)) (fun _ => hreturned)
      · obtain ⟨w, hw, rfl⟩ := Option.map_eq_some_iff.mp hstep
        have hwriter := h.stopWriter hphase hw
        rw [hphase] at hwriter
        exact hwriter
  | returned =>
      rw [hphase] at hstep
      cases hstep

/-- **One step keeps the invariant**, unless a join times out. -/
theorem step (h : Sheltered S db₀ s) (hl : l.Joins)
    (hstep : s.step S workers l = some s') : Sheltered S db₀ s' := by
  unfold ApplicationRuntime.step at hstep
  cases l with
  | submit c t =>
      dsimp only at hstep
      by_cases hactive : s.Active c ∧ c ∉ s.callers
      · rw [if_pos hactive] at hstep
        obtain ⟨w, hw, rfl⟩ := Option.map_eq_some_iff.mp hstep
        exact h.submit hactive.1 hw
      · rw [if_neg hactive] at hstep
        cases hstep
  | test i =>
      obtain ⟨w, hw, rfl⟩ := Option.map_eq_some_iff.mp hstep
      exact h.test hw
  | put i =>
      obtain ⟨w, hw, rfl⟩ := Option.map_eq_some_iff.mp hstep
      exact h.put hw
  | get =>
      obtain ⟨w, hw, rfl⟩ := Option.map_eq_some_iff.mp hstep
      exact h.turn (Or.inl rfl) hw
  | timeout =>
      obtain ⟨w, hw, rfl⟩ := Option.map_eq_some_iff.mp hstep
      exact h.turn (Or.inr rfl) hw
  | work =>
      dsimp only at hstep
      split_ifs at hstep with haccepting
      obtain rfl := Option.some.inj hstep
      exact
        { h with
          active := h.active
          joined := fun hrank =>
            absurd ((h.joined hrank).2.2.symm.trans haccepting.1) Bool.false_ne_true }
  | begin thread =>
      dsimp only at hstep
      split_ifs at hstep with hbegin
      obtain rfl := Option.some.inj hstep
      have hrank : ¬ 3 ≤ s.phase.rank := fun hrank => by
        have hqueued := (h.joined hrank).2.1
        omega
      exact
        { h with
          active := fun c hc => by
            have hactive := h.active c hc
            cases c with
            | ui => exact hactive
            | network => exact hactive
            | worker other => exact List.mem_append_left _ hactive
          joined := fun hrank' => absurd hrank' hrank
          idle := fun hrank' => absurd (Nat.le_of_succ_le hrank') hrank }
  | finish thread =>
      dsimp only at hstep
      split_ifs at hstep with hfinish
      obtain rfl := Option.some.inj hstep
      exact
        { h with
          active := fun c hc => by
            have hactive := h.active c hc
            cases c with
            | ui => exact hactive
            | network => exact hactive
            | worker other =>
                refine List.mem_filter.mpr ⟨hactive, decide_eq_true fun heq => ?_⟩
                exact hfinish.2 (heq ▸ hc)
          idle := fun hrank => by
            show s.busy.filter _ = []
            rw [h.idle hrank, List.filter_nil] }
  | networkEnds =>
      dsimp only at hstep
      split_ifs at hstep with hends
      obtain rfl := Option.some.inj hstep
      exact
        { h with
          active := fun c hc => by
            have hactive := h.active c hc
            cases c with
            | ui => exact hactive
            | network => exact absurd hc hends.2.2
            | worker other => exact hactive
          joined := fun hrank => ⟨rfl, (h.joined hrank).2⟩ }
  | stop => exact h.stop hstep
  | joinTimesOut => exact absurd hl id
  | flushTimesOut =>
      obtain ⟨w, hw, rfl⟩ := Option.map_eq_some_iff.mp hstep
      obtain ⟨i, hwriter, rfl⟩ := flushTimesOut_eq_some hw
      exact h.mark hwriter
  | writerJoinTimesOut => exact absurd hl id

end Sheltered

/-! ## When `stop` has returned -/

section Return

/-- The threads finish what they do, and lead the application to a state. -/
abbrev Finishes (S : StopSpec τ σ ε ρ) (workers : ℕ) (s s' : ApplicationRuntime τ σ ε ρ) : Prop :=
  Leads (step S workers) (fun _ l => l.Finishing) s s'

theorem Sheltered.finishes (h : Sheltered S db₀ s) (hs : Finishes S workers s s') :
    Sheltered S db₀ s' := by
  obtain ⟨ls, hrun, halong⟩ := hs
  exact invariant_runLabels (C := fun _ l => l.Joins)
    (fun _ _ _ h hl hstep => h.step hl hstep) h (halong.mono fun _ _ hl => hl.joins) hrun

/-- What the threads leave alone while they finish their calls and the writer goes on. -/
structure SameThreads (s s' : ApplicationRuntime τ σ ε ρ) : Prop where
  phase : s'.phase = s.phase
  networkAlive : s'.networkAlive = s.networkAlive
  loopStopped : s'.loopStopped = s.loopStopped
  busy : s'.busy = s.busy

theorem SameThreads.trans {u : ApplicationRuntime τ σ ε ρ} (h : SameThreads s u)
    (h' : SameThreads u s') : SameThreads s s' :=
  ⟨h'.phase.trans h.phase, h'.networkAlive.trans h.networkAlive,
    h'.loopStopped.trans h.loopStopped, h'.busy.trans h.busy⟩

variable (workers)

variable {workers}

end Return

end ApplicationRuntime
end Runtime
end MigrationStudio
