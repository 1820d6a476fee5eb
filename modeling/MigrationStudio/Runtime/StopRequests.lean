import MigrationStudio.Migration.Outlook
import MigrationStudio.Runtime.SoloRun

/-!
# A stop request, and the state in which the run leaves the job

`request_stop` sets an event that the run polls at the top of the loop and around its sleeps.  What
it polls there it handles: the job becomes CANCELLED.  It does not poll after an RPC: when the RPC
in flight ends with PERMISSION, AUTH or a rate limit without a duration, `_attempt` writes the state
of the job for that outcome, and the run returns without a look at the event.

* `Solo.Tidy`: when the run has returned, nothing of the job waits in the lane.
* `Solo.Decided`: the state in which the run will leave the job, once it has left the loop.
* `Solo.stop_honoured_iff`: a stop requested in the loop leads to a terminal state exactly when no
  outcome after it pauses the job.
* `Solo.stop_lost`: an RPC that ends with PERMISSION.
-/

namespace MigrationStudio

open Foundations MigrationStudio.Core Accounts Jobs Telegram Storage Migration

namespace Migration

/-- The points in the loop over the candidates, and before it. -/
def Point.looping : Point → Bool
  | .prime | .acquire | .loop | .pop | .wait _ _ | .sleeping _ _ _ | .rpc _ | .returned (some _)
  | .attempted (some _) | .flushed => true
  | _ => false

theorem Point.looping_or_summary {p : Point} (hcreated : p ≠ .created) (hfailed : p ≠ .failed)
    (hclosing : p.closing = false) : p.looping = true ∨ p = .summary := by
  cases p with
  | created => exact absurd rfl hcreated
  | failed => exact absurd rfl hfailed
  | summary => exact Or.inr rfl
  | leave | publish => exact absurd hclosing (by simp [Point.closing])
  | returned r | attempted r => cases r with
    | none => exact absurd hclosing (by simp [Point.closing])
    | some u => exact Or.inl rfl
  | _ => exact Or.inl rfl

theorem Point.not_closing_of_looping {p : Point} (h : p.looping = true) : p.closing = false := by
  cases p with
  | returned r | attempted r => cases r with
    | none => exact absurd h (by simp [Point.looping])
    | some u => rfl
  | leave | publish => exact absurd h (by simp [Point.looping])
  | _ => rfl

namespace Executor

variable {e : Executor}

/-- From the first step of `run` on, a request sets the event. -/
theorem stopEvent_requestStop (h : e.point ≠ .created) : e.requestStop.stopEvent = true := by
  rw [requestStop, if_neg h]

theorem control_of_stopEvent (h : e.stopEvent = true) : e.control = some .stop := by
  rw [control, if_pos h]

end Executor
end Migration

namespace Runtime

/-- The RPC in flight ends with an outcome that pauses the job. -/
def SoloLabel.Halts : SoloLabel → Prop
  | .move m _ => Executor.Halted m
  | _ => False

instance (l : SoloLabel) : Decidable l.Halts :=
  match l with
  | .move m _ => inferInstanceAs (Decidable (Executor.Halted m))
  | .get | .timeout | .foreign _ _ | .resume => isFalse fun h => h

namespace Solo

variable {id : JobId} {s s' : Solo} {l : SoloLabel} {out : Outcome}

/-! ## When the run has returned -/

/-- At a closing point, once the state of the job is submitted, no flush is left, and the awaited
future is the last one of the job. -/
structure Tidy (id : JobId) (s : Solo) : Prop where
  closing : ∀ e, s.executor = some e → e.point.closing = true → e.states = [] →
    (∀ force, .flush force ∉ e.todo) ∧
      (∀ a, e.awaiting = some a → UpTo id s.writer.waiting a.future) ∧
        (e.awaiting = none → laneOf id s.writer.waiting = [])
  gone : s.executor = none → laneOf id s.writer.waiting = []

theorem laneOf_of_silent {out : Outcome} (hw : out.jobWrites id = [])
    (h : laneOf id s.writer.waiting = []) : laneOf id (s.after out).writer.waiting = [] := by
  rw [laneOf_after, h, hw]
  rfl

/-- The executor moves. -/
theorem Tidy.after (ht : Tidy id s) (hs : Steady id s) {e : Executor} {m : Move} {o : Outside}
  {out : Outcome} (he : s.executor = some e) (htold : s.told e m)
    (htr : Executor.Transition (s.env o) e m out) : Tidy id (s.after out) := by
  have hid := hs.filed e he
  have hraise := hs.not_raised htold
  have hsilent : out.write = none → out.jobWrites id = [] :=
    fun hw => Outcome.jobWrites_of_silent hw id
  refine ⟨fun e' he' hclosing hstates => ?_, fun hnone => ?_⟩
  · cases hwas : e.point.closing with
    | false =>
        -- on entry the state of the job is still to be submitted
        rcases htr.closes hraise he' hclosing hwas with ⟨c, -, h⟩ | hhalted | ⟨-, -, -, _, _, h, -⟩
        · exact absurd (hstates.symm.trans h) (by simp)
        · obtain ⟨-, f, hf, -, hset⟩ := htr.halted hhalted
          obtain rfl := Option.some.inj (hf.symm.trans he')
          rcases hset with hset | hset <;> exact absurd (hstates.symm.trans hset) (by simp)
        · exact absurd (hstates.symm.trans h) (by simp)
    | true =>
        have hne : e.point ≠ .created ∧ e.point ≠ .prime := by
          constructor <;> intro hp <;> rw [hp] at hwas <;> exact Bool.noConfusion hwas
        obtain ⟨job, rest, -, hrunning⟩ := hs.running he hne.1 hne.2
        by_cases hm : Executor.Keeping m
        · obtain ⟨f, hf, -, -, hsplit⟩ := htr.states hm
          obtain rfl := Option.some.inj (hf.symm.trans he')
          rw [hstates, List.append_nil, hid] at hsplit
          have hold := ht.closing e he hwas
          have hquiet : out.jobWrites id = [] → f.todo = e.todo → f.awaiting = e.awaiting →
              (∀ force, .flush force ∉ f.todo) ∧
                (∀ a, f.awaiting = some a → UpTo id (s.after out).writer.waiting a.future) ∧
                  (f.awaiting = none → laneOf id (s.after out).writer.waiting = []) := by
            intro hw htodo haw
            rw [hw] at hsplit
            obtain ⟨hflush, hup, hnil⟩ := hold hsplit
            rw [htodo, haw]
            exact ⟨hflush, fun a ha => upTo_after_of_silent hw (hup a ha),
              fun ha => laneOf_of_silent hw (hnil ha)⟩
          have hkept : out.jobWrites id = [] ∨
              (∃ c, out.jobWrites id = [.updateItems e.resultBuffer c]) → e.states = [] := by
            rintro (hw | ⟨c, hw⟩) <;> rw [hw] at hsplit <;> exact hsplit
          cases htr with
          | flushWrite haw htodo hdue =>
              have hw := hkept (Or.inr (Executor.jobWrites_flush hid rfl))
              exact absurd (htodo ▸ List.mem_cons_self ..) ((hold hw).1 _)
          | flushSkip haw htodo hdue =>
              exact absurd (htodo ▸ List.mem_cons_self ..) ((hold (hkept (Or.inl rfl))).1 _)
          | delayedWrite hdue =>
              have hw := hkept (Or.inr (Executor.jobWrites_flush hid rfl))
              have hempty := (hrunning.ends_of_no_flush (hold hw).1).of_closing hwas
              exact absurd (List.map_eq_nil_iff.mp hempty) hdue
          | write haw htodo | pauseAccount haw htodo =>
              obtain rfl := Option.some.inj he'
              refine ⟨hrunning.no_flush htodo, fun a ha => ?_,
                fun ha => absurd ha (by simp [Executor.await])⟩
              obtain rfl := Option.some.inj ha
              exact upTo_after hs.numbered _
          | @resumed a haw lastFlush =>
              obtain rfl := Option.some.inj he'
              obtain ⟨hflush, hup, -⟩ := hold (hkept (Or.inl rfl))
              refine ⟨hflush, fun a ha => absurd ha (by simp), fun _ => ?_⟩
              obtain ⟨b, hb, hfuture⟩ := htold
              exact laneOf_of_silent rfl ((hup b hb).laneOf_eq_nil fun p hp =>
                (hs.numbered.lt_of_waiting hp).2 _ _ hfuture)
          | raised haw message => exact absurd rfl (hraise message)
          | read | delayedSkip | delayedDone | pauseRequested | stopRequested =>
              obtain rfl := Option.some.inj he'
              exact hquiet rfl rfl rfl
          | succeeded | flooded | indefinite | pausing | transient | exhausted | final =>
              exact absurd rfl (hm.2.1 _)
          | _ => exact absurd rfl hm.1
        · obtain ⟨f, hf, -, -, hnext⟩ | ⟨hnone, -⟩ := htr.closing hraise hwas job
          · obtain rfl := Option.some.inj (hf.symm.trans he')
            obtain ⟨hset, hw, haw, hflush⟩ := hnext.resolve_left hm
            have hstates' : e.states = [] := by
              rw [Executor.states, hset.2]
              rfl
            exact ⟨hflush, fun a ha => absurd (haw.symm.trans ha) (by simp), fun _ =>
              laneOf_of_silent (hsilent hw) ((ht.closing e he hwas hstates').2.2 hset.1)⟩
          · exact absurd (hnone.symm.trans he') (by simp)
  · obtain ⟨hset, hw, hpoint⟩ := htr.ends hraise (hs.alive e he) hnone
    have hclosing : e.point.closing = true := by
      rcases hpoint with hp | ⟨summary, final, hp⟩ <;> rw [hp] <;> rfl
    have hstates : e.states = [] := by
      rw [Executor.states, hset.2]
      rfl
    exact laneOf_of_silent (hsilent hw) ((ht.closing e he hclosing hstates).2.2 hset.1)

/-- The tidiness is about the waiting writes, the point, the statements and the awaited future. -/
theorem Tidy.lane (ht : Tidy id s) {wl : WriterLabel WriteTask} {w : Lane}
    (hne : ∀ t, wl ≠ .submit t) (hw : s.writer.step lane wl = some w) :
    Tidy id { s with writer := w } := by
  have hnil : laneOf id s.writer.waiting = [] → laneOf id w.waiting = [] := by
    intro h
    rw [laneOf, List.filterMap_eq_nil_iff] at h ⊢
    exact fun p hp => h p (App.mem_waiting_step hne hw hp)
  refine ⟨fun e he hclosing hstates => ?_, fun hnone => hnil (ht.gone hnone)⟩
  obtain ⟨hflush, hup, hlane⟩ := ht.closing e he hclosing hstates
  exact ⟨hflush, fun a ha => (hup a ha).sublist fun p hp => App.mem_waiting_step hne hw hp,
    fun ha => hnil (hlane ha)⟩

/-- **One step.** -/
theorem Tidy.step (ht : Tidy id s) (hs : Steady id s) (h : s.step id l = some s') :
    Tidy id s' := by
  cases step_cases h with
  | lane hl hne hw => exact ht.lane hne hw
  | @foreign w critical hown =>
      obtain ⟨hlane, hup⟩ := App.waiting_submit_other (w := s.writer)
        (t := ⟨w, critical, none⟩) hown
      refine ⟨fun e he hclosing hstates => ?_, fun hnone => hlane.trans (ht.gone hnone)⟩
      obtain ⟨hflush, hold, hnil⟩ := ht.closing e he hclosing hstates
      exact ⟨hflush, fun a ha => hup _ (hold a ha), fun ha => hlane.trans (hnil ha)⟩
  | resume he =>
      obtain ⟨flag, heq⟩ := resume_eq s _
      rw [heq]
      exact ht.after (o := ⟨0, 0, 0, true⟩) hs he (m := .pause) trivial (.pauseRequested flag)
  | moved he htold hout => exact ht.after hs he htold (Executor.transition_of_step hout)

theorem tidy_start (id : JobId) (account : AccountId) (target : Telegram.GroupContext)
    (action : Action) (realClock : Bool) (scheduler : InviteScheduler) (db : Database) :
    Tidy id (start id account target action realClock scheduler db) where
  closing := fun e he hclosing => by
    obtain rfl := Option.some.inj he
    exact Bool.noConfusion hclosing
  gone := fun hnone => absurd hnone (by simp [start])

theorem tidy_of_run (ht : Tidy id s) (hs : Steady id s) {ls : List SoloLabel}
    (h : runLabels (step id) s ls = some s') : Tidy id s' :=
  (invariant_runLabels (I := fun s => Tidy id s ∧ Steady id s) (C := fun _ _ => True)
    (fun _ _ _ hI _ hstep => ⟨hI.1.step hI.2 hstep, hI.2.step hstep⟩) ⟨ht, hs⟩
    (along_of_forall_mem (D := fun _ => True) fun _ _ => trivial) h).1

/-- Once the run has returned, the committed row is the settled one. -/
theorem Tidy.committed (ht : Tidy id s) (hnone : s.executor = none) :
    s.writer.database.jobs[id]? = s.row id :=
  (jobs_settled_of_nil (ht.gone hnone)).symm

/-! ## After the loop -/

/-- The run has left the loop and leaves the job in the state `st`. -/
def Decided (id : JobId) (st : JobState) (s : Solo) : Prop :=
  ∃ row, s.row id = some row ∧ (Job.Complete st → row.pending = []) ∧
    (s.executor = none → row.state = st) ∧
      ∀ e, s.executor = some e → e.point.closing = true ∧ e.outlook row.state = st

/-- The executor moves. -/
theorem Decided.after {st : JobState} (hd : Decided id st s) (hs : Steady id s) {e : Executor}
    {m : Move} {o : Outside} {out : Outcome} (he : s.executor = some e) (htold : s.told e m)
    (htr : Executor.Transition (s.env o) e m out) : Decided id st (s.after out) := by
  obtain ⟨row, hrow, hcomplete, -, hexec⟩ := hd
  obtain ⟨hclosing, hout⟩ := hexec e he
  have hsuffix := (hs.after he htold htr).suffix_after hrow
  have hid := hs.filed e he
  refine ⟨_, row_after_eq out hrow, fun hst => ?_, fun hnone => ?_, fun f hf => ?_⟩
  · rw [hcomplete hst] at hsuffix
    exact List.suffix_nil.mp hsuffix
  · obtain ⟨f, hf, -⟩ | ⟨-, hw, hset⟩ := htr.closing (hs.not_raised htold) hclosing row
    · exact absurd (hnone.symm.trans hf) (by simp)
    · rw [Outcome.jobWrites_of_silent hw]
      exact (Executor.outlook_of_settled hset row.state).symm.trans hout
  · obtain ⟨f', hf', hclosing', hout', -⟩ | ⟨hnone, -⟩ :=
      htr.closing (hs.not_raised htold) hclosing row
    · obtain rfl := Option.some.inj (hf'.symm.trans hf)
      exact ⟨hclosing', hid ▸ hout'.trans hout⟩
    · exact absurd (hnone.symm.trans hf) (by simp)

/-- **One step.** -/
theorem Decided.step {st : JobState} (hd : Decided id st s) (hs : Steady id s)
    (h : s.step id l = some s') : Decided id st s' := by
  cases step_cases h with
  | lane hl hne hw =>
      rw [Decided, row_lane hs hne hw]
      exact hd
  | foreign hown =>
      rw [Decided, row_foreign hown]
      exact hd
  | resume he =>
      obtain ⟨flag, heq⟩ := resume_eq s _
      rw [heq]
      exact hd.after (o := ⟨0, 0, 0, true⟩) hs he (m := .pause) trivial (.pauseRequested flag)
  | moved he htold hout => exact hd.after hs he htold (Executor.transition_of_step hout)

theorem decided_of_run {st : JobState} (hd : Decided id st s) (hs : Steady id s)
    {ls : List SoloLabel} (h : runLabels (Solo.step id) s ls = some s') : Decided id st s' :=
  (invariant_runLabels (I := fun s => Decided id st s ∧ Steady id s) (C := fun _ _ => True)
    (fun _ _ _ hI _ hstep => ⟨hI.1.step hI.2 hstep, hI.2.step hstep⟩) ⟨hd, hs⟩
    (along_of_forall_mem (D := fun _ => True) fun _ _ => trivial) h).1

/-- A run that enters a closing point is decided there. -/
theorem decided_of_states {st : JobState} (hs : Steady id (s.after out)) {e : Executor}
    (he : out.executor = some e) (hclosing : e.point.closing = true) (hstates : e.states = [st])
    (hcomplete : Job.Complete st → ∀ row, (s.after out).row id = some row → row.pending = []) :
    Decided id st (s.after out) := by
  obtain ⟨-, row, -, hrow, -⟩ := hs.settled
  refine ⟨row, hrow, fun hst => hcomplete hst row hrow,
    fun hnone => absurd (he.symm.trans hnone) (by simp), fun f hf => ?_⟩
  obtain rfl : e = f := Option.some.inj (he.symm.trans hf)
  rw [Executor.outlook, hstates]
  exact ⟨hclosing, rfl⟩

/-- At the natural end nothing of the job is pending. -/
theorem Steady.pending_of_summary (hs : Steady id s) {e : Executor} (he : s.executor = some e)
    (hpoint : e.point = .summary) (hset : e.Settled) {row : Job} (hrow : s.row id = some row) :
    row.pending = [] := by
  obtain ⟨job, rest, hjob, hrunning⟩ := hs.running he (by simp [hpoint]) (by simp [hpoint])
  have hends := hrunning.ends_of_no_flush fun force hmem => by simp [hset.2] at hmem
  rw [hpoint] at hends
  rw [pending_row hjob hrunning hrow, hends.1, hends.2, List.append_nil]

/-! ## A stop request -/

/-- A stop is requested and will be handled, or the job will be in a terminal state anyway. -/
def Obeying (id : JobId) (s : Solo) : Prop :=
  (∃ e, s.executor = some e ∧ e.stopEvent = true ∧
    (e.point.looping = true ∨ e.point = .summary)) ∨
    ∃ st, Decided id st s ∧ (st = .cancelled ∨ Job.Complete st)

/-- An outcome has paused the job. -/
def Overruled (id : JobId) (s : Solo) : Prop :=
  ∃ st, Decided id st s ∧ (st = .paused ∨ st = .rateLimited)

/-- What a step makes of a request. -/
def Obeyed (id : JobId) (l : SoloLabel) (s' : Solo) : Prop :=
  (¬ l.Halts ∧ Obeying id s') ∨ (l.Halts ∧ Overruled id s')

/-- The executor moves while the request waits. -/
theorem obeyed_of_waiting (hs : Steady id s) {e : Executor} {m : Move} {o : Outside}
    {out : Outcome} (he : s.executor = some e) (hstop : e.stopEvent = true)
    (hpoint : e.point.looping = true ∨ e.point = .summary) (htold : s.told e m)
    (hout : e.step (s.env o) m = some out) : Obeyed id (.move m o) (s.after out) := by
  have htr := Executor.transition_of_step hout
  have hraise := hs.not_raised htold
  have hs' := hs.after he htold htr
  have hopen : e.point.closing = false := by
    rcases hpoint with hp | hp
    · exact Point.not_closing_of_looping hp
    · rw [hp]
      rfl
  by_cases hhalted : Executor.Halted m
  · obtain ⟨-, f, hf, hp, hset⟩ := htr.halted hhalted
    have hclosing : f.point.closing = true := by
      rw [hp]
      rfl
    refine Or.inr ⟨hhalted, ?_⟩
    rcases hset with hset | hset
    · exact ⟨_, decided_of_states hs' hf hclosing hset fun h => absurd h (by decide), Or.inr rfl⟩
    · exact ⟨_, decided_of_states hs' hf hclosing hset fun h => absurd h (by decide), Or.inl rfl⟩
  · refine Or.inl ⟨hhalted, ?_⟩
    cases hexec : out.executor with
    | none =>
        obtain ⟨-, -, hp⟩ := htr.ends hraise (hs.alive e he) hexec
        rcases hp with hp | ⟨summary, final, hp⟩ <;> rw [hp] at hopen <;>
          exact Bool.noConfusion hopen
    | some f =>
        cases hclosing : f.point.closing with
        | true =>
            rcases htr.closes hraise hexec hclosing hopen with
              ⟨c, hc, hset⟩ | h | ⟨hp, hset, hw, summary, final, hstates, -, hcomplete⟩
            · rw [Executor.control_of_stopEvent hstop] at hc
              obtain rfl := Option.some.inj hc
              exact Or.inr ⟨_, decided_of_states hs' hexec hclosing hset
                fun h => absurd h (by decide), Or.inl rfl⟩
            · exact absurd h hhalted
            · -- the natural end: nothing is pending
              refine Or.inr ⟨_, decided_of_states hs' hexec hclosing hstates fun _ row hrow => ?_,
                Or.inr hcomplete⟩
              rw [row_after_of_silent hw] at hrow
              exact hs.pending_of_summary he hp hset hrow
        | false =>
            have hne : f.point ≠ .created :=
              htr.begun (fun hp => by rw [hp] at hpoint; simp [Point.looping] at hpoint) f hexec
            exact Or.inl ⟨f, hexec, (Executor.events_of_step hout f hexec).1 hstop,
              Point.looping_or_summary hne (htr.alive hraise (hs.alive e he) f hexec) hclosing⟩

/-- **One step** keeps the promise, unless an outcome pauses the job. -/
theorem Obeying.step (ho : Obeying id s) (hs : Steady id s) (h : s.step id l = some s') :
    Obeyed id l s' := by
  rcases ho with ⟨e, he, hstop, hpoint⟩ | ⟨st, hd, hst⟩
  · cases step_cases h with
    | lane hl hne hw =>
        refine Or.inl ⟨fun hhalts => ?_, Or.inl ⟨e, he, hstop, hpoint⟩⟩
        cases l with
        | move m o => exact hl m o rfl
        | _ => exact hhalts
    | foreign hown => exact Or.inl ⟨fun hhalts => hhalts, Or.inl ⟨e, he, hstop, hpoint⟩⟩
    | resume he' =>
        obtain rfl := Option.some.inj (he'.symm.trans he)
        refine Or.inl ⟨fun hhalts => hhalts, Or.inl ⟨_, rfl, ?_, ?_⟩⟩ <;>
          (rw [Executor.requestResume]; split) <;> assumption
    | moved he' htold hout =>
        obtain rfl := Option.some.inj (he'.symm.trans he)
        exact obeyed_of_waiting hs he hstop hpoint htold hout
  · refine Or.inl ⟨fun hhalts => ?_, Or.inr ⟨st, hd.step hs h, hst⟩⟩
    cases step_cases h with
    | lane hl hne hw =>
        cases l with
        | move m o => exact hl m o rfl
        | _ => exact hhalts
    | foreign | resume => exact hhalts
    | @moved m o e out he htold hout =>
        -- a run that has left the loop has no RPC in flight
        obtain ⟨row, -, -, -, hexec⟩ := hd
        obtain ⟨⟨a, hrpc⟩, -⟩ := (Executor.transition_of_step hout).halted hhalts
        have hclosing := (hexec e he).1
        rw [hrpc] at hclosing
        exact Bool.noConfusion hclosing

/-- **A run** keeps the promise exactly when no outcome pauses the job. -/
theorem obeyed_of_run (ho : Obeying id s) (hs : Steady id s) {ls : List SoloLabel}
    (h : runLabels (Solo.step id) s ls = some s') :
    ((∀ l ∈ ls, ¬ l.Halts) ∧ Obeying id s') ∨ ((∃ l ∈ ls, l.Halts) ∧ Overruled id s') := by
  induction ls generalizing s with
  | nil =>
      obtain rfl := Option.some.inj h
      exact Or.inl ⟨fun l hl => absurd hl (by simp), ho⟩
  | cons l ls ih =>
      obtain ⟨t, ht, hrest⟩ := runLabels_cons_eq_some.mp h
      have hst := hs.step ht
      rcases ho.step hs ht with ⟨hl, hobey⟩ | ⟨hl, st, hd, hpaused⟩
      · rcases ih hobey hst hrest with ⟨hls, hobey'⟩ | ⟨⟨k, hk, hhalts⟩, hover⟩
        · exact Or.inl ⟨List.forall_mem_cons.mpr ⟨hl, hls⟩, hobey'⟩
        · exact Or.inr ⟨⟨k, List.mem_cons_of_mem _ hk, hhalts⟩, hover⟩
      · exact Or.inr ⟨⟨l, List.mem_cons_self .., hl⟩, st, decided_of_run hd hst hrest, hpaused⟩

/-- The job is left in a terminal state, and completed only when all its items are. -/
def Stopped (id : JobId) (s : Solo) : Prop :=
  ∃ row, s.writer.database.jobs[id]? = some row ∧
    (row.state = .cancelled ∨
      ((row.state = .completed ∨ row.state = .completedWithErrors) ∧
        ∀ r ∈ row.items.rows, r.state.pending = false))

theorem forall_pending_eq_false {row : Job} (h : row.pending = []) :
    ∀ r ∈ row.items.rows, r.state.pending = false := by
  intro r hr
  refine ItemTable.pending_eq_false_of_not_mem hr fun hmem => ?_
  rw [← Job.pending, h] at hmem
  exact absurd hmem (by simp)

/-- **A stop that is requested before the last outcome** leads to a terminal state of the job when
the run returns, exactly when no RPC that ends after the request ends with PERMISSION, AUTH or a
rate limit without a duration. -/
theorem stop_honoured_iff (id : JobId) (account : AccountId) (target : Telegram.GroupContext)
    (action : Action) (realClock : Bool) (scheduler : InviteScheduler) (db : Database) (job : Job)
    (hjob : db.jobs[id]? = some job) (before later : List SoloLabel) (o : Outside) (t s : Solo)
    (e : Executor)
    (hbefore : runLabels (step id) (start id account target action realClock scheduler db) before =
      some t)
    (he : t.executor = some e) (hloop : e.point.looping = true)
    (hlater : runLabels (step id) t (.move .stop o :: later) = some s)
    (hreturned : s.executor = none) :
    Stopped id s ↔ ∀ l ∈ later, ¬ l.Halts := by
  have hsteady := steady_start id account target action realClock scheduler hjob
  have htidy := tidy_start id account target action realClock scheduler db
  have hst := steady_of_run hsteady hbefore
  have hss := steady_of_run hst hlater
  have hrow := (tidy_of_run (tidy_of_run htidy hsteady hbefore) hst hlater).committed hreturned
  obtain ⟨u, hu, hrest⟩ := runLabels_cons_eq_some.mp hlater
  have hwaits : Obeying id u := by
    rw [step, he, Option.bind_some, if_pos (show t.told e .stop from trivial)] at hu
    obtain rfl := Option.some.inj hu
    have hbegun : e.point ≠ .created := fun hp => by
      rw [hp] at hloop
      exact Bool.noConfusion hloop
    refine Or.inl ⟨e.requestStop, rfl, Executor.stopEvent_requestStop hbegun, Or.inl ?_⟩
    rw [Executor.requestStop, if_neg hbegun]
    exact hloop
  rcases obeyed_of_run hwaits (hst.step hu) hrest with
    ⟨hno, ⟨f, hf, -⟩ | ⟨st, ⟨row, hsettled, hpending, hstate, -⟩, hend⟩⟩ |
      ⟨⟨l, hl, hhalts⟩, st, ⟨row, hsettled, -, hstate, -⟩, hend⟩
  · exact absurd (hreturned.symm.trans hf) (by simp)
  · refine iff_of_true ⟨row, hrow.trans hsettled, ?_⟩ hno
    rw [hstate hreturned]
    exact hend.imp_right fun hcomplete => ⟨hcomplete, forall_pending_eq_false (hpending hcomplete)⟩
  · refine iff_of_false ?_ fun hno => hno l hl hhalts
    rintro ⟨row', hrow', hterminal⟩
    obtain rfl := Option.some.inj ((hrow.trans hsettled).symm.trans hrow')
    rw [hstate hreturned] at hterminal
    rcases hend with rfl | rfl <;> simp at hterminal

/-- The RPC in flight is refused, and `_attempt` writes what that means; then `run` returns. -/
def refused : List SoloLabel :=
  [.move (.answer (some ⟨.permission, "CHAT_ADMIN_REQUIRED", none⟩)) quiet,
    .move .execute quiet] ++ criticalWrite ++ criticalWrite ++ criticalWrite ++
    List.replicate 3 (.move .advance quiet)

/-- What a test reads of a run that has ended. -/
def ending (id : JobId) (s : Solo) : Bool × Option JobState :=
  (s.executor.isNone, (s.writer.database.jobs[id]?).map Job.state)

theorem ending_eq {st : JobState} (h : ending id s = (true, some st)) :
    s.executor = none ∧ ∃ row, s.writer.database.jobs[id]? = some row ∧ row.state = st := by
  obtain ⟨hnone, hrow⟩ := Prod.mk.inj h
  exact ⟨Option.isNone_iff_eq_none.mp hnone, Option.map_eq_some_iff.mp hrow⟩

/-- A stop is requested while the first of two RPCs is in flight; it is refused, and the job is
PAUSED. -/
theorem stop_lost :
    ∃ t e s, runLabels (step 0) smallStart (enterLoop ++ sendRpc) = some t ∧
      t.executor = some e ∧ e.point.looping = true ∧
      runLabels (step 0) t (.move .stop quiet :: refused) = some s ∧ s.executor = none ∧
      ¬ Stopped 0 s := by
  have h : ((runLabels (step 0) smallStart (enterLoop ++ sendRpc)).bind fun t =>
      t.executor.bind fun e =>
        (runLabels (step 0) t (.move .stop quiet :: refused)).map fun s =>
          (e.point.looping, ending 0 s)) = some (true, true, some .paused) := by
    decide +kernel
  obtain ⟨t, ht, h⟩ := Option.bind_eq_some_iff.mp h
  obtain ⟨e, he, h⟩ := Option.bind_eq_some_iff.mp h
  obtain ⟨s, hs, hview⟩ := Option.map_eq_some_iff.mp h
  obtain ⟨hloop, hend⟩ := Prod.mk.inj hview
  obtain ⟨hnone, row, hrow, hstate⟩ := ending_eq hend
  refine ⟨t, e, s, ht, he, hloop, hs, hnone, ?_⟩
  rintro ⟨row', hrow', hterminal⟩
  obtain rfl := Option.some.inj (hrow.symm.trans hrow')
  rw [hstate] at hterminal
  simp at hterminal

/-- The same request, and an RPC that succeeds. -/
theorem stop_honoured_after_success :
    ∃ t s, runLabels (step 0) smallStart (enterLoop ++ sendRpc) = some t ∧
      runLabels (step 0) t (.move .stop quiet :: (keepResult ++ handleRequest)) = some s ∧
      Stopped 0 s := by
  have h : ((runLabels (step 0) smallStart (enterLoop ++ sendRpc)).bind fun t =>
      t.executor.bind fun e =>
        (runLabels (step 0) t (.move .stop quiet :: (keepResult ++ handleRequest))).map fun s =>
          (e.point.looping, ending 0 s)) = some (true, true, some .cancelled) := by
    decide +kernel
  obtain ⟨t, ht, h⟩ := Option.bind_eq_some_iff.mp h
  obtain ⟨e, he, h⟩ := Option.bind_eq_some_iff.mp h
  obtain ⟨s, hs, hview⟩ := Option.map_eq_some_iff.mp h
  obtain ⟨hloop, hend⟩ := Prod.mk.inj hview
  exact ⟨t, s, ht, hs, (stop_honoured_iff 0 1 _ .invite true _ _ _ rfl _ _ quiet t s e ht he hloop
    hs (ending_eq hend).1).mpr (by decide)⟩

end Solo
end Runtime
end MigrationStudio
