import MigrationStudio.Migration.Outlook
import MigrationStudio.Runtime.SoloRun

/-!
# What holds from a stop or pause request on

`_sleep` polls `_control` last when it wakes up, and between this poll and the RPC there is no
`await`.  An RPC is therefore never started while a request is set, on whichever clock the run
sleeps.  What is in flight at the request ends, and its result is appended; `_handle_control` then
flushes everything before it submits the new state of the job, and the lane keeps the order.

* `Solo.rpcs_of_run`: a run in which a request stays set sends nothing.
* `Solo.Accounted`: the results that the run has produced, between the buffer and the table, and the
  entries of the journal that pause or cancel the job.
* `Solo.halt_request_respected`: both together, from the request on.
-/

namespace MigrationStudio

open Foundations MigrationStudio.Core Accounts Jobs Telegram Storage Migration

namespace Migration

/-- A result in hand is kept there, or appended. -/
theorem Executor.Transition.result {env : Env} {e : Executor} {m : Move} {out : Outcome}
    (h : Transition env e m out) (hraise : ∀ message, m ≠ .resumed (.error message))
    {u : ItemUpdate} (hu : e.point.result = some u) :
    (∃ e', out.executor = some e' ∧ e'.point.result = some u) ∨
      out.event = some (.produced e.jobId u) := by
  by_cases hm : Keeping m
  · obtain ⟨e', he', hpoint, -⟩ := h.states hm
    exact Or.inl ⟨e', he', hpoint ▸ hu⟩
  · cases h with
    | raised haw message => exact absurd rfl (hraise message)
    | flushWrite | flushSkip | write | pauseAccount | resumed | read | delayedWrite | delayedSkip
    | delayedDone | pauseRequested | stopRequested =>
        exact absurd ⟨by simp, by simp, by simp⟩ hm
    | returned hset hpoint todo htodo =>
        rw [hpoint] at hu
        exact Or.inl ⟨_, rfl, hu⟩
    | append hset hpoint =>
        rw [hpoint] at hu
        obtain rfl := Option.some.inj hu
        exact Or.inr rfl
    | _ =>
        rw [‹e.point = _›] at hu
        exact absurd hu (by simp [Point.result])

end Migration

namespace Runtime
namespace Solo

variable {id : JobId} {s s' : Solo} {l : SoloLabel} {out : Outcome}

/-! ## No RPC is started -/

/-- The executor, if it is still there, has a request to handle. -/
def Requested (s : Solo) : Prop := ∀ e, s.executor = some e → e.control ≠ none

/-- While a request is set, a step sends nothing. -/
theorem rpcs_step (hr : Requested s) (h : s.step id l = some s') : s'.rpcs = s.rpcs := by
  cases step_cases h with
  | lane | foreign | resume => rfl
  | @moved m o e out he htold hout =>
      have htr := Executor.transition_of_step hout
      rw [rpcs, rpcs, after, List.filterMap_append]
      cases hev : out.event with
      | none => simp
      | some event =>
          cases event with
          | sent rpc => exact absurd (htr.sent_polled hev).2 (hr e he)
          | _ => simp

/-- **A run in which a request stays set sends nothing.** -/
theorem rpcs_of_run {I : Solo → Prop} {D : SoloLabel → Prop} (hI : ∀ s, I s → Requested s)
    (hstep : ∀ s l s', I s → D l → s.step id l = some s' → I s') (hs : I s)
    {ls : List SoloLabel} (hD : ∀ l ∈ ls, D l) (h : runLabels (step id) s ls = some s') :
    s'.rpcs = s.rpcs :=
  (invariant_runLabels (I := fun t => I t ∧ t.rpcs = s.rpcs)
    (fun t l t' ht hl hstep' => ⟨hstep t l t' ht.1 hl hstep',
      (rpcs_step (hI t ht.1) hstep').trans ht.2⟩) ⟨hs, rfl⟩ (along_of_forall_mem hD) h).2

/-- A stop is requested. -/
def StopSet (s : Solo) : Prop := ∀ e, s.executor = some e → e.stopEvent = true

/-- A pause is requested. -/
def PauseSet (s : Solo) : Prop := ∀ e, s.executor = some e → e.pauseEvent = true

theorem StopSet.requested (h : StopSet s) : Requested s := by
  intro e he
  rw [Executor.control, if_pos (h e he)]
  simp

theorem PauseSet.requested (h : PauseSet s) : Requested s := by
  intro e he
  rw [Executor.control, if_pos (h e he)]
  split <;> simp

/-- Nothing takes a stop back. -/
theorem StopSet.step (hs : StopSet s) (h : s.step id l = some s') : StopSet s' := by
  cases step_cases h with
  | lane hl hne hw => exact hs
  | foreign hown => exact hs
  | @resume e he =>
      intro f hf
      obtain rfl := Option.some.inj hf
      have hset := hs e he
      rw [Executor.requestResume]
      split <;> exact hset
  | moved he htold hout => exact fun f hf => (Executor.events_of_step hout f hf).1 (hs _ he)

/-- Only `request_resume` takes a pause back. -/
theorem PauseSet.step (hs : PauseSet s) (hl : l ≠ .resume) (h : s.step id l = some s') :
    PauseSet s' := by
  cases step_cases h with
  | lane hl hne hw => exact hs
  | foreign hown => exact hs
  | resume he => exact absurd rfl hl
  | moved he htold hout => exact fun f hf => (Executor.events_of_step hout f hf).2 (hs _ he)

/-! ## Results come first -/

/-- The result of a candidate: in the hand of `_attempt`, or appended. -/
def Obtained (id : JobId) (s : Solo) (u : ItemUpdate) : Prop :=
  .produced id u ∈ s.log ∨ ∃ e, s.executor = some e ∧ e.point.result = some u

/-- The write pauses or cancels the job. -/
def Halting (jw : JobWrite) : Prop := stateOf jw = some .paused ∨ stateOf jw = some .cancelled

/-- The executor has left the loop, and its buffer is flushed. -/
def Done (s : Solo) : Prop :=
  ∀ e, s.executor = some e → e.point.closing = true ∧ e.resultBuffer = []

/-- The results are in the buffer or in the settled row, and the new entries of the settled journal
(those from `n` on) that pause or cancel the job come last. -/
structure Accounted (id : JobId) (n : ℕ) (s : Solo) : Prop where
  scripted : ∀ e, s.executor = some e → e.Scripted
  final : ∀ u, .produced id u ∈ s.log → u.state.pending = false
  kept : ∀ u, .produced id u ∈ s.log →
    (∃ e, s.executor = some e ∧ u ∈ e.resultBuffer) ∨
      ∃ row, s.row id = some row ∧ row.items.Holds u
  grown : n ≤ (settled s.writer).journal.length
  entries : ∀ entry ∈ (settled s.writer).journal.drop n, entry.1 = id → Halting entry.2.1 →
    (∀ u, .produced id u ∈ s.log → entry.2.2.items.Holds u) ∧ Done s

/-- A write that fits the row keeps the final results that the row holds. -/
theorem Steady.holds_after (hs' : Steady id (s.after out)) {row : Job} (hrow : s.row id = some row)
    {u : ItemUpdate} (hu : u.state.pending = false) (hold : row.items.Holds u) :
    ((out.jobWrites id).foldl Job.apply row).items.Holds u := by
  rcases out.jobWrites_cases id with hw | ⟨jw, hw⟩
  · rw [hw]
    exact hold
  · obtain ⟨q, hq⟩ := hs'.consumes hrow hw
    rw [hw]
    exact hq.holds_apply hu hold

/-- At a closing point nothing is appended, and the buffer stays empty. -/
theorem Done.after (hd : Done s) (hs : Steady id s) {e : Executor} {m : Move} {o : Outside}
    (he : s.executor = some e) (htold : s.told e m)
    (htr : Executor.Transition (s.env o) e m out) :
    Done (s.after out) ∧ ∀ u, .produced id u ∉ out.event.toList := by
  obtain ⟨hclosing, hnil⟩ := hd e he
  have hquiet : ∀ {j u}, out.event ≠ some (.produced j u) := by
    intro j u hev
    obtain ⟨-, hpoint, -⟩ := htr.produced_eq hev
    rw [hpoint] at hclosing
    exact Bool.noConfusion hclosing
  refine ⟨fun f hf => ?_, fun u hu => hquiet (Option.mem_toList.mp hu)⟩
  obtain ⟨job, -, -, -⟩ := hs.settled
  obtain ⟨f', hf', hclosing', -⟩ | ⟨hnone, -⟩ := htr.closing (hs.not_raised htold) hclosing job
  · obtain rfl := Option.some.inj (hf'.symm.trans hf)
    refine ⟨hclosing', ?_⟩
    rcases htr.resultBuffer with ⟨-, -, g, hg, hempty⟩ | ⟨-, hkeep⟩
    · obtain rfl := Option.some.inj (hg.symm.trans hf)
      exact hempty
    · rcases hkeep f' hf with hsame | ⟨u, hev, -⟩
      · exact hsame.trans hnil
      · exact absurd hev hquiet
  · exact absurd (hnone.symm.trans hf) (by simp)

/-- A write that pauses or cancels the job is submitted behind the last flush. -/
theorem Steady.done_of_halting (hs : Steady id s) {e : Executor} {m : Move} {o : Outside}
    (he : s.executor = some e) (hscripted : e.Scripted)
    (htr : Executor.Transition (s.env o) e m out) {jw : JobWrite}
    (hw : out.write.bind (LaneWrite.ofJob id) = some jw) (hjw : Halting jw) : Done s := by
  intro f hf
  obtain rfl := Option.some.inj (he.symm.trans hf)
  have hid := hs.filed e he
  obtain ⟨w, hwrite, hof⟩ := Option.bind_eq_some_iff.mp hw
  have hno : out.write ≠ some e.flushWrite := by
    intro hflush
    obtain ⟨c, hc⟩ := Executor.jobWrites_flush hid hflush
    rw [Outcome.jobWrites, hw, Option.toList_some, List.singleton_inj] at hc
    rw [hc, Halting] at hjw
    simp [stateOf] at hjw
  cases htr with
  | flushWrite | delayedWrite => exact absurd rfl hno
  | @write w' todo haw htodo =>
      obtain rfl := Option.some.inj hwrite
      have hstate : ∃ st, stateOf jw = some st ∧ (st = .paused ∨ st = .cancelled) := by
        rcases hjw with hjw | hjw
        · exact ⟨_, hjw, Or.inl rfl⟩
        · exact ⟨_, hjw, Or.inr rfl⟩
      obtain ⟨st, hst, hhalt⟩ := hstate
      have hclosing : e.point.closing = true := by
        refine hscripted st ?_ hhalt
        rw [Executor.states, htodo, List.filterMap_cons, Stmt.stateOf, hid, hof,
          Option.bind_some, hst]
        exact List.mem_cons_self ..
      refine ⟨hclosing, ?_⟩
      obtain ⟨job, rest, -, hrunning⟩ := hs.running he
        (fun hp => by rw [hp] at hclosing; exact Bool.noConfusion hclosing)
        (fun hp => by rw [hp] at hclosing; exact Bool.noConfusion hclosing)
      have hflush : ∀ force, .flush force ∉ e.todo := by
        intro force hmem
        rw [htodo, List.mem_cons] at hmem
        rcases hmem with hmem | hmem
        · exact absurd hmem (by simp)
        · exact hrunning.no_flush htodo force hmem
      exact List.map_eq_nil_iff.mp ((hrunning.ends_of_no_flush hflush).of_closing hclosing)
  | pauseAccount haw htodo state =>
      obtain rfl := Option.some.inj hwrite
      exact absurd hof (by simp [LaneWrite.ofJob])
  | _ => exact absurd hwrite (by simp)

/-- A result that is appended is final. -/
theorem Steady.final_of_produced (hs : Steady id s) {e : Executor} {m : Move} {o : Outside}
    (he : s.executor = some e) (htr : Executor.Transition (s.env o) e m out) {u : ItemUpdate}
    (hu : .produced id u ∈ out.event.toList) : u.state.pending = false := by
  obtain ⟨-, hpoint, -⟩ := htr.produced_eq (Option.mem_toList.mp hu)
  obtain ⟨job, rest, -, hrunning⟩ := hs.running he (by simp [hpoint]) (by simp [hpoint])
  exact hrunning.result u (by rw [hpoint]; rfl)

/-- Every result stays in the buffer or the row. -/
theorem Accounted.kept_after {n : ℕ} (ha : Accounted id n s) (hs : Steady id s) {e : Executor}
    {m : Move} {o : Outside} (he : s.executor = some e) (htold : s.told e m)
    (htr : Executor.Transition (s.env o) e m out) {u : ItemUpdate}
    (hu : .produced id u ∈ (s.after out).log) :
    (∃ f, (s.after out).executor = some f ∧ u ∈ f.resultBuffer) ∨
      ∃ row, (s.after out).row id = some row ∧ row.items.Holds u := by
  have hs' := hs.after he htold htr
  obtain ⟨-, row, -, hrow, -⟩ := hs.settled
  have hrow' : (s.after out).row id = some ((out.jobWrites id).foldl Job.apply row) := by
    rw [row_after, hrow]
    rfl
  rcases List.mem_append.mp hu with hold | hnew
  · rcases ha.kept u hold with ⟨f, hf, hmem⟩ | ⟨row₁, hrow₁, hholds⟩
    · obtain rfl := Option.some.inj (he.symm.trans hf)
      rcases htr.resultBuffer with ⟨hw, -⟩ | ⟨-, hkeep⟩
      · obtain ⟨c, hc⟩ := Executor.jobWrites_flush (hs.filed e he) hw
        obtain ⟨q, hq⟩ := hs'.consumes hrow hc
        rw [hc] at hrow'
        exact Or.inr ⟨_, hrow', hq.holds_results hmem⟩
      · cases hout : out.executor with
        | none =>
            rw [hs.resultBuffer_of_return he htold htr hout] at hmem
            exact absurd hmem (by simp)
        | some g =>
            refine Or.inl ⟨g, hout, ?_⟩
            rcases hkeep g hout with hsame | ⟨v, -, hadd⟩
            · exact hsame ▸ hmem
            · exact hadd ▸ List.mem_append_left _ hmem
    · obtain rfl := Option.some.inj (hrow.symm.trans hrow₁)
      exact Or.inr ⟨_, hrow', hs'.holds_after hrow (ha.final u hold) hholds⟩
  · obtain ⟨-, -, g, hg, hadd⟩ := htr.produced_eq (Option.mem_toList.mp hnew)
    refine Or.inl ⟨g, hg, ?_⟩
    rw [hadd]
    exact List.mem_append_right _ (List.mem_singleton.mpr rfl)

/-- The executor moves. -/
theorem Accounted.after {n : ℕ} (ha : Accounted id n s) (hs : Steady id s) {e : Executor}
    {m : Move} {o : Outside} (he : s.executor = some e) (htold : s.told e m)
    (htr : Executor.Transition (s.env o) e m out) : Accounted id n (s.after out) := by
  have hs' := hs.after he htold htr
  have hjournal : (s.after out).log = s.log ++ out.event.toList := rfl
  refine ⟨?_, fun u hu => ?_, fun u hu => ha.kept_after hs he htold htr hu, ?_,
    fun entry hentry hid hhalt => ?_⟩
  · exact htr.scripted (hs.not_raised htold) (fun a hp => hs.settled_of_rpc he hp)
      (ha.scripted e he)
  · rcases List.mem_append.mp hu with hold | hnew
    · exact ha.final u hold
    · exact hs.final_of_produced he htr hnew
  · rw [settled_after]
    cases out.write with
    | none => exact ha.grown
    | some w =>
        obtain ⟨later, hlater⟩ := journal_apply (settled s.writer) w
        rw [hlater, List.length_append]
        exact ha.grown.trans (Nat.le_add_right _ _)
  · -- an old entry has its executor done; a new one is submitted behind the last flush
    have hentry' : (entry ∈ (settled s.writer).journal.drop n) ∨ ∃ row,
        out.write.bind (LaneWrite.ofJob id) = some entry.2.1 ∧ s.row id = some row ∧
          entry.2.2 = row.apply entry.2.1 := by
      rw [settled_after] at hentry
      cases hw : out.write with
      | none =>
          rw [hw] at hentry
          exact Or.inl hentry
      | some w =>
          rw [hw] at hentry
          rw [Option.bind_some, Solo.row, ← hid]
          exact mem_drop_journal_apply ha.grown hentry
    rcases hentry' with hold | ⟨row, hw, hrow, heq⟩
    · obtain ⟨hholds, hdone⟩ := ha.entries entry hold hid hhalt
      obtain ⟨hdone', hquiet⟩ := hdone.after hs he htold htr
      refine ⟨fun u hu => ?_, hdone'⟩
      exact hholds u ((List.mem_append.mp hu).resolve_right (hquiet u))
    · have hdone := hs.done_of_halting he (ha.scripted e he) htr hw hhalt
      obtain ⟨hdone', hquiet⟩ := hdone.after hs he htold htr
      refine ⟨fun u hu => ?_, hdone'⟩
      have hold := (List.mem_append.mp hu).resolve_right (hquiet u)
      rcases ha.kept u hold with ⟨f, hf, hmem⟩ | ⟨row₁, hrow₁, hholds⟩
      · rw [(hdone f hf).2] at hmem
        exact absurd hmem (by simp)
      · obtain rfl := Option.some.inj (hrow.symm.trans hrow₁)
        have hafter := hs'.holds_after hrow (ha.final u hold) hholds
        rw [Outcome.jobWrites, hw] at hafter
        rw [heq]
        exact hafter

/-- **One step.** -/
theorem Accounted.step {n : ℕ} (ha : Accounted id n s) (hs : Steady id s)
    (h : s.step id l = some s') : Accounted id n s' := by
  cases step_cases h with
  | @lane _ wl w hl hne hw =>
      have hsettled : settled w = settled s.writer := settled_step hs.nothing hne hw
      refine ⟨ha.scripted, ha.final, fun u hu => ?_, ?_, ?_⟩
      · rw [row_lane hs hne hw]
        exact ha.kept u hu
      · rw [hsettled]
        exact ha.grown
      · rw [hsettled]
        exact ha.entries
  | @foreign w critical hown =>
      have hsettled : settled (s.writer.submit ⟨w, critical, none⟩) = (settled s.writer).apply w :=
        settled_submit _ _
      refine ⟨ha.scripted, ha.final, fun u hu => ?_, ?_, fun entry hentry hid hhalt => ?_⟩
      · rw [row_foreign hown]
        exact ha.kept u hu
      · obtain ⟨later, hlater⟩ := journal_apply (settled s.writer) w
        rw [hsettled, hlater, List.length_append]
        exact ha.grown.trans (Nat.le_add_right _ _)
      · rw [hsettled] at hentry
        rcases mem_drop_journal_apply ha.grown hentry with hold | ⟨row, hof, -⟩
        · exact ha.entries entry hold hid hhalt
        · rw [hid, hown] at hof
          exact absurd hof (by simp)
  | resume he =>
      obtain ⟨flag, heq⟩ := resume_eq s _
      rw [heq]
      exact ha.after (o := ⟨0, 0, 0, true⟩) hs he (m := .pause) trivial (.pauseRequested flag)
  | moved he htold hout => exact ha.after hs he htold (Executor.transition_of_step hout)

theorem accounted_start (id : JobId) (account : AccountId) (target : Telegram.GroupContext)
    (action : Action) (realClock : Bool) (scheduler : InviteScheduler) (db : Database) :
    Accounted id db.journal.length (start id account target action realClock scheduler db) where
  scripted := fun e he => by
    obtain rfl := Option.some.inj he
    exact Executor.scripted_of_nil rfl
  final := fun u hu => absurd hu (by simp [start])
  kept := fun u hu => absurd hu (by simp [start])
  grown := le_rfl
  entries := fun entry hentry => by
    have hsettled : settled (start id account target action realClock scheduler db).writer = db :=
      rfl
    rw [hsettled, List.drop_length] at hentry
    exact absurd hentry (by simp)

theorem accounted_of_run {n : ℕ} (ha : Accounted id n s) (hs : Steady id s) {ls : List SoloLabel}
    (h : runLabels (step id) s ls = some s') : Accounted id n s' :=
  (invariant_runLabels (I := fun s => Accounted id n s ∧ Steady id s) (C := fun _ _ => True)
    (fun _ _ _ hI _ hstep => ⟨hI.1.step hI.2 hstep, hI.2.step hstep⟩) ⟨ha, hs⟩
    (along_of_forall_mem (D := fun _ => True) fun _ _ => trivial) h).1

/-- A result that has been obtained stays so. -/
theorem Obtained.step {u : ItemUpdate} (hu : Obtained id s u) (hs : Steady id s)
    (h : s.step id l = some s') : Obtained id s' u := by
  cases step_cases h with
  | lane | foreign => exact hu
  | resume he =>
      refine hu.imp_right fun ⟨f, hf, hpoint⟩ => ⟨_, rfl, ?_⟩
      obtain rfl := Option.some.inj (he.symm.trans hf)
      rw [Executor.requestResume]
      split <;> exact hpoint
  | @moved m o e out he htold hout =>
      rcases hu with hlog | ⟨f, hf, hpoint⟩
      · exact Or.inl (List.mem_append_left _ hlog)
      · obtain rfl := Option.some.inj (he.symm.trans hf)
        rcases (Executor.transition_of_step hout).result (hs.not_raised htold) hpoint with
          hkept | hev
        · exact Or.inr hkept
        · rw [hs.filed e he] at hev
          exact Or.inl (List.mem_append_right _ (Option.mem_toList.mpr hev))

theorem obtained_of_run {u : ItemUpdate} (hu : Obtained id s u) (hs : Steady id s)
    {ls : List SoloLabel} (h : runLabels (Solo.step id) s ls = some s') : Obtained id s' u :=
  (invariant_runLabels (I := fun s => Obtained id s u ∧ Steady id s) (C := fun _ _ => True)
    (fun _ _ _ hI _ hstep => ⟨hI.1.step hI.2 hstep, hI.2.step hstep⟩) ⟨hu, hs⟩
    (along_of_forall_mem (D := fun _ => True) fun _ _ => trivial) h).1

/-- **A committed entry that pauses or cancels the job** comes after all results. -/
theorem Accounted.committed {n : ℕ} (ha : Accounted id n s)
    {entry : JobId × JobWrite × Job} (hentry : entry ∈ s.writer.database.journal.drop n)
    (hid : entry.1 = id) (hhalt : Halting entry.2.1) {u : ItemUpdate} (hu : Obtained id s u) :
    entry.2.2.items.Holds u := by
  obtain ⟨later, hlater⟩ := journal_settle s.writer.database s.writer.waiting
  have hmem : entry ∈ (settled s.writer).journal.drop n := by
    rw [settled, hlater, List.drop_append]
    exact List.mem_append_left _ hentry
  obtain ⟨hholds, hdone⟩ := ha.entries entry hmem hid hhalt
  rcases hu with hu | ⟨e, he, hpoint⟩
  · exact hholds u hu
  · have hclosing := (hdone e he).1
    cases hp : e.point with
    | returned r | attempted r =>
        rw [hp] at hpoint hclosing
        obtain rfl : r = some u := hpoint
        exact Bool.noConfusion hclosing
    | _ =>
        rw [hp] at hpoint
        exact absurd hpoint (by simp [Point.result])

/-- **From a stop or pause request on**, unless a pause is taken back, no RPC is started, whatever
the clock; and when the state PAUSED or CANCELLED of the job is committed, the row holds every
result that has been obtained, up to the request and after it. -/
theorem halt_request_respected (id : JobId) (account : AccountId) (target : Telegram.GroupContext)
    (action : Action) (realClock : Bool) (scheduler : InviteScheduler) (db : Database) (job : Job)
    (hjob : db.jobs[id]? = some job) (before later : List SoloLabel) (t s : Solo) (e : Executor)
    (hbefore : runLabels (step id) (start id account target action realClock scheduler db) before =
      some t)
    (he : t.executor = some e) (hbegun : e.point ≠ .created) (l : SoloLabel) (o : Outside)
    (hl : l = .move .stop o ∨ (l = .move .pause o ∧ .resume ∉ later))
    (hlater : runLabels (step id) t (l :: later) = some s) :
    s.rpcs = t.rpcs ∧ (∀ u, Obtained id t u → Obtained id s u) ∧
      ∀ entry ∈ s.writer.database.journal.drop db.journal.length, entry.1 = id →
        Halting entry.2.1 → ∀ u, Obtained id s u → entry.2.2.items.Holds u := by
  have hsteady := steady_start id account target action realClock scheduler hjob
  have hst := steady_of_run hsteady hbefore
  have haccounted := accounted_of_run (accounted_of_run (accounted_start id account target action
    realClock scheduler db) hsteady hbefore) hst hlater
  refine ⟨?_, fun u hu => obtained_of_run hu hst hlater,
    fun entry hentry hid hhalt u hu => haccounted.committed hentry hid hhalt hu⟩
  obtain ⟨v, hv, hrest⟩ := runLabels_cons_eq_some.mp hlater
  rcases hl with rfl | ⟨rfl, hnone⟩
  · rw [step, he, Option.bind_some, if_pos (show t.told e .stop from trivial)] at hv
    obtain rfl := Option.some.inj hv
    have hset : StopSet (t.after { executor := some e.requestStop }) := by
      intro f hf
      obtain rfl := Option.some.inj hf
      rw [Executor.requestStop, if_neg hbegun]
    have hrpcs := rpcs_of_run (D := fun _ => True) (fun _ => StopSet.requested)
      (fun _ _ _ hI _ hstep => hI.step hstep) hset (fun _ _ => trivial) hrest
    rw [hrpcs]
    simp [rpcs, after]
  · rw [step, he, Option.bind_some, if_pos (show t.told e .pause from trivial)] at hv
    obtain rfl := Option.some.inj hv
    have hset : PauseSet (t.after { executor := some e.requestPause }) := by
      intro f hf
      obtain rfl := Option.some.inj hf
      rw [Executor.requestPause, if_neg hbegun]
    have hrpcs := rpcs_of_run (D := fun l => l ≠ .resume) (fun _ => PauseSet.requested)
      (fun _ _ _ hI hl hstep => hI.step hl hstep) hset (fun l hl heq => hnone (heq ▸ hl)) hrest
    rw [hrpcs]
    simp [rpcs, after]

/-- A pause is requested while the first of two RPCs is in flight, which then succeeds: the second
is not sent, and the row that becomes PAUSED holds the result. -/
theorem halt_request_respected_in_flight :
    ∃ t s, runLabels (step 0) smallStart (enterLoop ++ sendRpc) = some t ∧
      runLabels (step 0) t (.move .pause quiet :: (keepResult ++ handleRequest)) = some s ∧
      s.rpcs = t.rpcs ∧ ∃ entry ∈ s.writer.database.journal, Halting entry.2.1 ∧
        entry.2.2.items.Holds { ordinal := 0, state := .success, attempts := 1 } := by
  have h : ((runLabels (step 0) smallStart (enterLoop ++ sendRpc)).bind fun t =>
      t.executor.bind fun e =>
        (runLabels (step 0) t (.move .pause quiet :: (keepResult ++ handleRequest))).bind fun s =>
          (s.writer.database.journal.getLast?).map fun entry =>
            (decide (e.point ≠ .created), entry.1, stateOf entry.2.1,
              decide (.produced 0 { ordinal := 0, state := .success, attempts := 1 } ∈ s.log))) =
      some (true, 0, some .paused, true) := by
    decide +kernel
  obtain ⟨t, ht, h⟩ := Option.bind_eq_some_iff.mp h
  obtain ⟨e, he, h⟩ := Option.bind_eq_some_iff.mp h
  obtain ⟨s, hs, h⟩ := Option.bind_eq_some_iff.mp h
  obtain ⟨entry, hlast, hview⟩ := Option.map_eq_some_iff.mp h
  simp only [Prod.mk.injEq, decide_eq_true_eq] at hview
  obtain ⟨hbegun, hid, hstate, hproduced⟩ := hview
  obtain ⟨hrpcs, -, hentries⟩ := halt_request_respected 0 1 _ .invite true _ _ _ rfl _ _ t s e ht he
    hbegun (.move .pause quiet) quiet
    (Or.inr ⟨rfl, by simp [keepResult, handleRequest, resultWrite, criticalWrite]⟩) hs
  have hmem := List.mem_of_getLast? hlast
  exact ⟨t, s, ht, hs, hrpcs, entry, hmem, Or.inl hstate,
    hentries entry hmem hid (Or.inl hstate) _ (Or.inl hproduced)⟩

end Solo
end Runtime
end MigrationStudio
