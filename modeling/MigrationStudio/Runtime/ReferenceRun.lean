import MigrationStudio.Migration.Effort
import MigrationStudio.Migration.Mirroring
import MigrationStudio.Runtime.SoloRun

/-!
# A run follows the reference

A run by itself, on a clock that is not the real one and without stop or pause requests, is its
reference run.  The other components may write what they like, but for the members and the peer
cache, from which the candidates are made.

* `Undisturbed`: an executor on such a clock and without a request; no background task moves.
* `Solo.Awaited`: every write of the job that waits is awaited.
* `Solo.Readable`: what a worker may read of the candidates ahead is what was there at the
  beginning.
* `Solo.Mirror`: the executor mirrors the reference, and what its return shows of it.
* `Mirror.step`, `mirror_of_run`: one step, and a run.
-/

namespace MigrationStudio

open Foundations MigrationStudio.Core Accounts Jobs Telegram Storage Migration

namespace Migration
namespace Executor

variable {env : Env} {e : Executor} {m : Move} {out : Outcome}

/-- On another clock than the real one, with no request: no background flush is scheduled. -/
structure Undisturbed (e : Executor) : Prop where
  realClock : e.realClock = false
  stopEvent : e.stopEvent = false
  pauseEvent : e.pauseEvent = false
  flushTask : e.flushTask = .idle

theorem Undisturbed.control (h : e.Undisturbed) : e.control = none := by
  rw [Executor.control, h.stopEvent, h.pauseEvent]
  rfl

/-- There is no pause to be taken back. -/
theorem Undisturbed.requestResume (h : e.Undisturbed) : e.requestResume = e := by
  rw [Executor.requestResume]
  split
  · rfl
  · rw [← h.pauseEvent]

/-- No background task moves. -/
theorem Undisturbed.move (h : e.Undisturbed) (hstep : e.step env m = some out) :
    m ≠ .delayed ∧ ∀ result, m ≠ .delayedDone result := by
  constructor
  · rintro rfl
    rw [step, delayedWake, h.flushTask] at hstep
    exact absurd hstep (by simp)
  · rintro result rfl
    simp [Executor.step, delayedDone, h.flushTask] at hstep

/-- **One step without a request.** -/
theorem Undisturbed.step (h : e.Undisturbed) (hstep : e.step env m = some out)
    (hraise : ∀ message, m ≠ .resumed (.error message)) (hpause : m ≠ .pause)
    (hstop : m ≠ .stop) : ∀ e' ∈ out.executor, e'.Undisturbed := by
  intro e' he'
  have htr := transition_of_step hstep
  obtain ⟨hstopEvent, hpauseEvent⟩ := htr.events e' he'
  obtain ⟨hdelayed, hdone⟩ := h.move hstep
  have hsame : e'.realClock = e.realClock → e'.flushTask = e.flushTask → e'.Undisturbed :=
    fun hclock htask => ⟨hclock.trans h.realClock, (hstopEvent hstop).trans h.stopEvent,
      (hpauseEvent hpause).trans h.pauseEvent, htask.trans h.flushTask⟩
  cases htr with
  | raised haw message => exact absurd rfl (hraise message)
  | delayedWrite | delayedSkip => exact absurd rfl hdelayed
  | delayedDone result => exact absurd rfl (hdone result)
  | leave | publish | failed => exact absurd he' (by simp)
  | flushed hset hpoint task =>
      obtain rfl := Option.some.inj he'
      refine hsame rfl ?_
      rw [Executor.step, advance, hset.1, hset.2, hpoint, scheduleFlush, h.realClock] at hstep
      have heq := congrArg Outcome.executor (Option.some.inj hstep)
      exact (congrArg Executor.flushTask (Option.some.inj heq)).symm
  | _ =>
      obtain rfl := Option.some.inj he'
      exact hsame rfl rfl

end Executor

/-- The statement leaves the members and the peer cache alone. -/
def Stmt.Own : Stmt → Prop
  | .write w => ∀ pw, w ≠ .peers pw
  | _ => True

/-- All statements of an executor do. -/
def Executor.OwnStmts (e : Executor) : Prop := ∀ st ∈ e.todo, st.Own

theorem Point.current_of_inHand {p : Point} {c : List ℕ} (h : p.inHand = some c)
    (hp : p ≠ .created) : p.current = some c := by
  cases p with
  | created => exact absurd rfl hp
  | _ => exact h

namespace Executor

variable {env : Env} {e : Executor} {m : Move} {out : Outcome}

/-- **One transition** submits nothing else, and adds no other statement. -/
theorem Transition.own (h : Transition env e m out) (he : e.OwnStmts) :
    (∀ w ∈ out.write, ∀ pw, w ≠ .peers pw) ∧ ∀ e' ∈ out.executor, e'.OwnStmts := by
  have hnone : ∀ w ∈ (none : Option LaneWrite), ∀ pw, w ≠ .peers pw := fun w hw => by simp at hw
  have hflush : ∀ w ∈ some e.flushWrite, ∀ pw, w ≠ .peers pw := by
    intro w hw pw
    obtain rfl := Option.some.inj hw
    simp [Executor.flushWrite]
  have htail : ∀ {st : Stmt} {todo : List Stmt}, e.todo = st :: todo → ∀ s ∈ todo, s.Own :=
    fun htodo s hs => he s (htodo ▸ List.mem_cons_of_mem _ hs)
  have hscript : ∀ {e' : Executor} {todo : List Stmt}, e'.todo = todo → (∀ st ∈ todo, st.Own) →
      ∀ f ∈ some e', f.OwnStmts := by
    rintro e' todo htodo hown f hf
    obtain rfl := Option.some.inj hf
    exact fun st hst => hown st (htodo ▸ hst)
  have hcontrol : ∀ c, ∀ st ∈ e.handleControl c, st.Own := by
    intro c
    cases c <;> simp [handleControl, Stmt.Own, setJob, setAccount]
  cases h with
  | flushWrite haw htodo hdue => exact ⟨hflush, hscript rfl (htail htodo)⟩
  | delayedWrite hdue => exact ⟨hflush, hscript rfl he⟩
  | flushSkip haw htodo hdue => exact ⟨hnone, hscript rfl (htail htodo)⟩
  | write haw htodo =>
      refine ⟨fun w hw => ?_, hscript rfl (htail htodo)⟩
      obtain rfl := Option.some.inj hw
      exact he _ (htodo ▸ List.mem_cons_self ..)
  | pauseAccount haw htodo state =>
      refine ⟨fun w hw pw => ?_, hscript rfl (htail htodo)⟩
      obtain rfl := Option.some.inj hw
      simp
  | raised haw message =>
      refine ⟨hnone, fun e' he' => ?_⟩
      rw [Executor.raise] at he'
      split at he'
      · exact absurd he' (by simp)
      · exact absurd he' (by simp)
      · exact absurd he' (by simp)
      · obtain rfl := Option.some.inj he'
        simp [OwnStmts, Stmt.Own, setJob, setAccount]
  | begin | waited | summarize =>
      exact ⟨hnone, hscript rfl (by simp [Stmt.Own, setJob, setAccount])⟩
  | loopControl hset hpoint c hc => exact ⟨hnone, hscript rfl (hcontrol c)⟩
  | interrupt hset hpoint c hc => exact ⟨hnone, hscript rfl (hcontrol c)⟩
  | popEnd | append => exact ⟨hnone, hscript rfl (by simp [Stmt.Own])⟩
  | flooded =>
      exact ⟨hnone, hscript rfl (by
        simp [floodScript, Stmt.Own, setJob, setAccount])⟩
  | indefinite =>
      exact ⟨hnone, hscript rfl (by
        simp [indefiniteScript, Stmt.Own, setJob, setAccount])⟩
  | pausing =>
      exact ⟨hnone, hscript rfl (by simp [pauseScript, Stmt.Own, setJob, setAccount])⟩
  | returned hset hpoint todo htodo =>
      refine ⟨hnone, hscript rfl ?_⟩
      rcases htodo with rfl | rfl <;> simp [Stmt.Own]
  | leave | publish | failed => exact ⟨hnone, fun e' he' => absurd he' (by simp)⟩
  | _ => exact ⟨hnone, hscript rfl he⟩

theorem rpc_of_answer {outcome : Option DomainError}
    (h : e.step env (.answer outcome) = some out) : ∃ a, e.point = .rpc a := by
  rw [Executor.step, answer] at h
  split at h
  · exact ⟨_, ‹_›⟩
  · exact absurd h (by simp)

/-- Only `advance` sends an RPC. -/
theorem Transition.sentSubjects (h : Transition env e m out) (hm : m ≠ .advance) :
    out.sentSubjects = [] := by
  cases h with
  | flooded | delayedWrite | flushWrite => rfl
  | _ => first | rfl | exact absurd rfl hm

/-- At the end no RPC is sent. -/
theorem Transition.sentSubjects_of_none (h : Transition env e m out)
    (hnone : out.executor = none) : out.sentSubjects = [] := by
  cases h with
  | leave | publish | failed | raised => rfl
  | _ => exact absurd hnone (by simp)

theorem Transition.buffer_of_answer {outcome : Option DomainError}
    (h : Transition env e (.answer outcome) out) {e' : Executor} (he' : out.executor = some e') :
    e'.resultBuffer = e.resultBuffer := by
  cases h <;> exact Option.some.inj he' ▸ rfl

/-- A result is appended while there are candidates to come. -/
theorem Transition.buffer_of_advance (h : Transition env e .advance out) {e' : Executor}
    (he' : out.executor = some e') (hhand : e'.point.inHand = none) :
    e'.resultBuffer = e.resultBuffer := by
  cases h with
  | append =>
      obtain rfl := Option.some.inj he'
      exact absurd hhand (by simp [Point.inHand, Point.current])
  | leave | publish | failed => exact absurd he' (by simp)
  | _ => exact Option.some.inj he' ▸ rfl

/-- **What is awaited after a transition**: the write that it submits, or what was awaited before,
unless that is resolved. -/
theorem Transition.awaits (h : Transition env e m out)
    (hraise : ∀ message, m ≠ .resumed (.error message))
    (hdelayed : m ≠ .delayed ∧ ∀ result, m ≠ .delayedDone result) :
    (out.write.isSome ∧
        ∃ flush, out.executor.bind Executor.awaiting = some ⟨env.future, flush⟩) ∨
      (out.write = none ∧ out.executor.bind Executor.awaiting = e.awaiting) ∨
        (m = .resumed (.ok ()) ∧ out.write = none ∧
          out.executor.bind Executor.awaiting = none) := by
  cases h with
  | flushWrite | write | pauseAccount => exact Or.inl ⟨rfl, _, rfl⟩
  | resumed haw lastFlush => exact Or.inr (Or.inr ⟨rfl, rfl, rfl⟩)
  | raised haw message => exact absurd rfl (hraise message)
  | delayedWrite | delayedSkip => exact absurd rfl hdelayed.1
  | delayedDone result => exact absurd rfl (hdelayed.2 result)
  | leave hset | publish hset | failed hset => exact Or.inr (Or.inl ⟨rfl, hset.1.symm⟩)
  | _ => exact Or.inr (Or.inl ⟨rfl, rfl⟩)

end Executor
end Migration

namespace Runtime
namespace Solo

variable {id : JobId} {s s' : Solo} {account : AccountId} {db₀ : Database} {job : Job}
  {r : Reference} {later : ℕ → Prop}

/-! ## The labels -/

/-- There is no request, and no write on the members or the peer cache. -/
def Plain : SoloLabel → Prop
  | .foreign w _ => ∀ pw, w ≠ .peers pw
  | .move .pause _ | .move .stop _ => False
  | _ => True

instance : DecidablePred Plain := fun l =>
  match l with
  | .foreign w _ =>
      match w with
      | .peers pw => isFalse fun h => h pw rfl
      | .job _ _ | .account _ _ _ | .restriction _ | .enable _ _ | .identity _ | .other =>
          isTrue fun _ => by simp
  | .move m _ =>
      match m with
      | .pause | .stop => isFalse fun h => h
      | .execute | .resumed _ | .advance | .answer _ | .read | .delayed | .delayedDone _ =>
          isTrue trivial
  | .get | .timeout | .resume => isTrue trivial

/-- The outcome of an RPC. -/
def outcomeOf : SoloLabel → Option (Option DomainError)
  | .move (.answer o) _ => some o
  | _ => none

/-- The outcomes of the RPCs, in order. -/
def outcomes (ls : List SoloLabel) : List (Option DomainError) := ls.filterMap outcomeOf

/-- What the RPCs that have been sent are about. -/
def subjects (s : Solo) : List Subject := s.rpcs.map Rpc.subject

theorem subjects_after (s : Solo) (out : Outcome) :
    (s.after out).subjects = s.subjects ++ out.sentSubjects := by
  rw [subjects, subjects, rpcs, rpcs, after, Outcome.sentSubjects, List.filterMap_append,
    List.map_append]
  congr 1
  cases out.event with
  | none => rfl
  | some event => cases event <;> rfl

/-! ## Every write of the job is awaited -/

/-- What waits of the job is what the executor awaits. -/
def Awaited (id : JobId) (s : Solo) : Prop :=
  match s.executor.bind Executor.awaiting with
  | some a => a.future < s.writer.submitted.length ∧ UpTo id s.writer.waiting a.future
  | none => laneOf id s.writer.waiting = []

theorem Awaited.of_none (h : s.Awaited id) (hn : s.executor.bind Executor.awaiting = none) :
    laneOf id s.writer.waiting = [] := by
  rw [Awaited, hn] at h
  exact h

/-- Fewer tasks wait. -/
theorem Awaited.of_waiting (h : s.Awaited id) (hex : s'.executor = s.executor)
    (hle : s.writer.submitted.length ≤ s'.writer.submitted.length)
    (hup : ∀ k, UpTo id s.writer.waiting k → UpTo id s'.writer.waiting k)
    (hnil : laneOf id s.writer.waiting = [] → laneOf id s'.writer.waiting = []) :
    s'.Awaited id := by
  rw [Awaited, hex]
  rw [Awaited] at h
  split
  · rename_i a ha
    rw [ha] at h
    exact ⟨h.1.trans_le hle, hup a.future h.2⟩
  · rename_i ha
    rw [ha] at h
    exact hnil h

/-- The executor moves. -/
theorem Awaited.after (h : s.Awaited id) (hs : Steady id s) {e : Executor}
    (hquiet : e.Undisturbed) {m : Move} {o : Outside} {out : Outcome} (he : s.executor = some e)
    (htold : s.told e m) (hstep : e.step (s.env o) m = some out) : (s.after out).Awaited id := by
  have hself : (s.after out).executor = out.executor := rfl
  have htr := Executor.transition_of_step hstep
  rw [Awaited, he, Option.bind_some] at h
  rw [Awaited, hself]
  rcases htr.awaits (hs.not_raised htold) (hquiet.move hstep) with
    ⟨hw, flush, haw⟩ | ⟨hw, haw⟩ | ⟨rfl, hw, haw⟩
  · obtain ⟨w, hw⟩ := Option.isSome_iff_exists.mp hw
    have hlength : s.writer.submitted.length < (s.after out).writer.submitted.length := by
      rw [Solo.after, hw]
      simp [DBWriter.submit]
    rw [haw]
    exact ⟨hlength, upTo_after hs.numbered out⟩
  · have hnil := Outcome.jobWrites_of_silent hw id
    rw [haw]
    cases ha : e.awaiting with
    | some a =>
        rw [ha] at h
        refine ⟨?_, upTo_after_of_silent hnil h.2⟩
        rw [Solo.after, hw]
        exact h.1
    | none =>
        rw [ha] at h
        rw [laneOf_after, hnil, List.append_nil]
        exact h
  · obtain ⟨a, ha, hfuture⟩ := htold
    rw [ha] at h
    have hlane : laneOf id s.writer.waiting = [] :=
      h.2.laneOf_eq_nil fun p hp => (hs.numbered.lt_of_waiting hp).2 _ _ hfuture
    rw [haw, laneOf_after, hlane, Outcome.jobWrites_of_silent hw]
    rfl

/-! ## What a worker may read -/

/-- The rows `later` are what they were at the beginning, and no waiting write is about them. -/
structure Readable (id : JobId) (db₀ : Database) (job : Job) (later : ℕ → Prop) (db : Database)
    (waiting : List (ℕ × WriteTask)) : Prop where
  rows : ∃ row, db.jobs[id]? = some row ∧
    ∀ q ∈ row.items.rows, later q.ordinal → q ∈ job.items.rows
  peers : db.peers = db₀.peers
  other : ∀ p ∈ waiting, ∀ pw, p.2.write ≠ .peers pw
  marks : ∀ jw ∈ laneOf id waiting, ∀ o ∈ jw.ordinals, ¬ later o

theorem peers_apply (db : Database) {w : LaneWrite} (hw : ∀ pw, w ≠ .peers pw) :
    (db.apply w).peers = db.peers := by
  cases w with
  | job k jw =>
      rw [Database.apply, Database.applyJob]
      split <;> rfl
  | peers pw => exact absurd rfl (hw pw)
  | _ => rfl

/-- The first waiting task is committed. -/
theorem Readable.commit {db : Database} {p : ℕ × WriteTask} {rest : List (ℕ × WriteTask)}
    (h : Readable id db₀ job later db (p :: rest)) :
    Readable id db₀ job later (db.apply p.2.write) rest := by
  obtain ⟨⟨row, hrow, hrows⟩, hpeers, hother, hmarks⟩ := h
  rw [laneOf_cons] at hmarks
  refine ⟨?_, (peers_apply db (hother p (List.mem_cons_self ..))).trans hpeers,
    fun q hq => hother q (List.mem_cons_of_mem _ hq),
    fun jw hjw => hmarks jw (List.mem_append_right _ hjw)⟩
  rw [Database.jobs_apply]
  cases hp : p.2.write.ofJob id with
  | none => exact ⟨row, hrow, hrows⟩
  | some jw =>
      rw [hp] at hmarks
      refine ⟨row.apply jw, by rw [hrow]; rfl, fun q hq hlater => hrows q ?_ hlater⟩
      refine mem_rows_apply hq fun ho => ?_
      exact hmarks jw (List.mem_append_left _ (Option.mem_toList.mpr rfl)) _ ho hlater

/-- The writer thread moves. -/
theorem Readable.lane (h : Readable id db₀ job later s.writer.database s.writer.waiting)
    (hs : Steady id s) {wl : WriterLabel WriteTask} {w : Lane} (hne : ∀ t, wl ≠ .submit t)
    (hw : s.writer.step lane wl = some w) :
    Readable id db₀ job later w.database w.waiting :=
  nothing_rule (I := fun db waiting => Readable id db₀ job later db waiting)
    (fun _ _ _ hr => hr.commit) hs.nothing hne hw h

/-- A task is submitted. -/
theorem Readable.submit {w : Lane} (h : Readable id db₀ job later w.database w.waiting)
    {t : WriteTask} (hpeers : ∀ pw, t.write ≠ .peers pw)
    (hmarks : ∀ jw ∈ t.write.ofJob id, ∀ o ∈ jw.ordinals, ¬ later o) :
    Readable id db₀ job later (w.submit t).database (w.submit t).waiting := by
  refine ⟨h.rows, h.peers, fun p hp => ?_, fun jw hjw => ?_⟩
  · rw [App.waiting_submit] at hp
    rcases List.mem_append.mp hp with hp | hp
    · exact h.other p hp
    · rw [List.mem_singleton.mp hp]
      exact hpeers
  · rw [App.waiting_submit, laneOf_append, laneOf_cons] at hjw
    rcases List.mem_append.mp hjw with hjw | hjw
    · exact h.marks jw hjw
    · rcases List.mem_append.mp hjw with hjw | hjw
      · exact hmarks jw (Option.mem_toList.mp hjw)
      · exact absurd hjw (by simp [laneOf])

theorem Readable.mono (h : Readable id db₀ job later s.writer.database s.writer.waiting)
    {later' : ℕ → Prop} (hsub : ∀ o, later' o → later o) :
    Readable id db₀ job later' s.writer.database s.writer.waiting := by
  obtain ⟨⟨row, hrow, hrows⟩, hpeers, hother, hmarks⟩ := h
  exact ⟨⟨row, hrow, fun q hq ho => hrows q hq (hsub _ ho)⟩, hpeers, hother,
    fun jw hjw o ho hin => hmarks jw hjw o ho (hsub o hin)⟩

/-- What is read is a candidate. -/
theorem Readable.candidate {db : Database} {waiting : List (ℕ × WriteTask)}
    (h : Readable id db₀ job later db waiting) (hjob : db₀.jobs[id]? = some job)
    {row : Job} (hrow : db.jobs[id]? = some row) {b : CandidateBuffer}
    (hlater : ∀ o ∈ b.unread row.pending, later o) :
    ∀ x ∈ db.pendingChunk id account b.lastLoaded CandidateBuffer.chunkSize,
      CandidateBuffer.ofRow x ∈ candidates db₀ id account := by
  intro x hx
  obtain ⟨q, hq, hlast, heq⟩ := ofRow_of_mem_pendingChunk hrow hx
  obtain ⟨⟨row', hrow', hrows⟩, hpeers, -, -⟩ := h
  obtain rfl := Option.some.inj (hrow.symm.trans hrow')
  obtain ⟨hmem, hpending⟩ := List.mem_filter.mp hq
  have hunread : q.ordinal ∈ b.unread row.pending :=
    List.mem_filter.mpr ⟨List.mem_map_of_mem hq, decide_eq_true hlast⟩
  have hold := hrows q hmem (hlater _ hunread)
  rw [heq, candidates, hjob]
  have hsame : candidateOf db account q = candidateOf db₀ account q := by
    rw [candidateOf, candidateOf, hpeers]
  rw [hsame]
  exact List.mem_map_of_mem (List.mem_filter.mpr ⟨hold, hpending⟩)

/-! ## The executor mirrors the reference -/

/-- The reference run goes on with the outcome of a label. -/
def follow (r : Reference) (l : SoloLabel) : Reference :=
  match outcomeOf l with
  | some o => r.answer o
  | none => r

theorem foldl_outcomes_cons (r : Reference) (l : SoloLabel) (ls : List SoloLabel) :
    (outcomes (l :: ls)).foldl Reference.answer r =
      (outcomes ls).foldl Reference.answer (follow r l) := by
  rw [outcomes, List.filterMap_cons, follow]
  cases outcomeOf l <;> rfl

/-- What the run has not touched: the candidates ahead, and what has never been pending. -/
def Aside (job : Job) (ahead : List BufferedCandidate) (o : ℕ) : Prop :=
  o ∈ ahead.map BufferedCandidate.ordinal ∨ o ∉ job.pending

/-- The executor `e` of a run follows the reference `r`, when the row of the job is `row`, the
updates so far are `updates`, and `ahead` is still to come. -/
structure Facing (id : JobId) (account : AccountId) (db₀ : Database) (job : Job) (r : Reference)
    (s : Solo) (e : Executor) (row : Job) (updates : List ItemUpdate)
    (ahead : List BufferedCandidate) : Prop where
  stored : s.row id = some row
  mirrors : e.Mirrors s.subjects row job.items.forget (candidates db₀ id account) r updates ahead
  apart : ∀ o ∈ e.buffered, o ∉ ahead.map BufferedCandidate.ordinal
  suffix : row.pending <:+ job.pending
  aside : Readable id db₀ job (Aside job ahead) s.writer.database s.writer.waiting

/-- What the executor of a run mirrors. -/
structure Going (id : JobId) (account : AccountId) (db₀ : Database) (job : Job) (r : Reference)
    (s : Solo) (e : Executor) : Prop where
  files : e.accountId = account
  quiet : e.Undisturbed
  own : e.OwnStmts
  facing : ∃ row updates ahead, Facing id account db₀ job r s e row updates ahead

/-- What the end of a run shows of the reference. -/
structure Returned (id : JobId) (job : Job) (r : Reference) (s : Solo) : Prop where
  ended : r.current = none
  rpcs : s.subjects = r.rpcs
  row : ∃ row, s.row id = some row ∧ row.items.forget = job.items.forget.updateItems r.updates ∧
    row.state = r.jobState row.items ∧
    ∀ q ∈ row.items.rows, Aside job r.later q.ordinal → q ∈ job.items.rows

/-- **The run mirrors the reference.** -/
structure Mirror (id : JobId) (account : AccountId) (db₀ : Database) (job : Job) (r : Reference)
    (s : Solo) : Prop where
  awaited : s.Awaited id
  going : ∀ e, s.executor = some e → Going id account db₀ job r s e
  returned : s.executor = none → Returned id job r s

variable {e : Executor} {m : Move} {o : Outside} {out : Outcome} {row : Job}
  {updates : List ItemUpdate} {ahead : List BufferedCandidate} {t₀ : ItemTable}
  {cs : List BufferedCandidate}

theorem distinct_candidates (hjob : db₀.jobs[id]? = some job) (account : AccountId) :
    ((candidates db₀ id account).map BufferedCandidate.ordinal).Nodup := by
  rw [ordinals_candidates hjob]
  exact job.items.nodup_pendingOrdinals

/-- The candidates ahead, from the window. -/
theorem Facing.ahead_eq (hf : Facing id account db₀ job r s e row updates ahead) {job' : Job}
    {rest : List ℕ} (hjob' : s.writer.database.jobs[id]? = some job')
    (hrunning : e.Running job'.pending (laneOf id s.writer.waiting) rest) {c : List ℕ}
    (hc : e.point.inHand = some c) :
    ahead.map BufferedCandidate.ordinal = e.buffer.ahead job'.pending ∧
      e.buffer.Faithful job'.pending := by
  have hcurrent := Point.current_of_inHand hc hrunning.started
  obtain ⟨hrest, hfaithful⟩ := hrunning.window c hcurrent
  have horder := hf.mirrors.order c hc
  rw [pending_row hjob' hrunning hf.stored, hrest, ← List.append_assoc] at horder
  exact ⟨(List.append_cancel_left horder).symm, hfaithful⟩

/-- What the worker reads are candidates. -/
theorem Facing.candidate_of_read (hf : Facing id account db₀ job r s e row updates ahead)
    (hs : Steady id s) (he : s.executor = some e) (hjob : db₀.jobs[id]? = some job)
    (htr : Executor.Transition (s.env o) e .read out) {c : List ℕ}
    (hc : e.point.inHand = some c) :
    ∀ x ∈ s.writer.database.pendingChunk id account e.buffer.lastLoaded CandidateBuffer.chunkSize,
      CandidateBuffer.ofRow x ∈ candidates db₀ id account := by
  rcases hs.running_or_starting he with ⟨job', rest, hjob', hrunning⟩ | hstart
  · obtain ⟨hahead, -⟩ := hf.ahead_eq hjob' hrunning hc
    refine hf.aside.candidate hjob hjob' fun q hq => Or.inl ?_
    rw [hahead]
    exact List.mem_append_right _ hq
  · cases htr with
    | read hload =>
        rw [hstart.window] at hload
        exact absurd hload (by simp)

/-- What is left aside by a move. -/
theorem Facing.aside_after (hf : Facing id account db₀ job r s e row updates ahead)
    (hs : Steady id s) (hs' : Steady id (s.after out)) (he : s.executor = some e)
    (hown : e.OwnStmts) (htr : Executor.Transition (s.env o) e m out)
    (hraise : ∀ message, m ≠ .resumed (.error message)) :
    Readable id db₀ job (Aside job ahead) (s.after out).writer.database
      (s.after out).writer.waiting := by
  rw [Solo.after]
  cases hw : out.write with
  | none => exact hf.aside
  | some w =>
      refine hf.aside.submit ((htr.own hown).1 w hw) fun jw hjw ord hord haside => ?_
      have hmem : jw ∈ out.jobWrites id := by
        rw [Outcome.jobWrites, hw]
        exact Option.mem_toList.mpr hjw
      obtain ⟨q, hq⟩ := hs'.consumes_after hf.stored jw hmem
      have hlater := haside.resolve_right
        (not_not_intro (hf.suffix.subset (hq.mem_of_mem_ordinals hord)))
      by_cases hm : Executor.Keeping m
      · obtain ⟨e', -, -, -, hwrites, -⟩ := htr.keeps hm
        rw [hs.filed e he] at hwrites
        rcases hwrites with ⟨c, hflush, -⟩ | ⟨-, hsplit⟩
        · obtain rfl := List.mem_singleton.mp (hflush ▸ hmem)
          exact hf.apart ord hord hlater
        · have hmarks := hf.mirrors.marks jw (hsplit ▸ List.mem_append_left _ hmem)
          exact (hmarks.2 ord hord).2 hlater
      · obtain ⟨-, hsilent⟩ := htr.settled_of_not_keeping hm hraise
          fun a ha => hs.settled_of_rpc he ha
        exact absurd (hw.symm.trans hsilent) (by simp)

/-- While there are candidates to come, the results in the buffer are before them. -/
theorem apart_of_order {rpcs : List Subject} (hmir : e.Mirrors rpcs row t₀ cs r updates ahead)
    {c : List ℕ} (hc : e.point.inHand = some c) :
    ∀ o ∈ e.buffered, o ∉ ahead.map BufferedCandidate.ordinal := by
  intro ord hord hlater
  have hnodup : row.pending.Nodup := row.items.nodup_pendingOrdinals
  rw [hmir.order c hc, List.append_assoc] at hnodup
  exact (List.nodup_append.mp hnodup).2.2 ord hord ord (List.mem_append_right _ hlater) rfl

section

variable {e' : Executor} (hf : Facing id account db₀ job r s e row updates ahead)
  (hs : Steady id s) (hs' : Steady id (s.after out)) (he : s.executor = some e)
  (hown : e.OwnStmts) (hjob : db₀.jobs[id]? = some job) (he' : out.executor = some e')

include hf hs hs' he hown hjob he'

/-- A statement is executed, its write is resolved, or the worker reads. -/
theorem Facing.keep (htr : Executor.Transition (s.env o) e m out) (hm : Executor.Keeping m)
    (hfiles : e.accountId = account) :
    Facing id account db₀ job r (s.after out) e' ((out.jobWrites id).foldl Job.apply row) updates
      ahead := by
  have hid := hs.filed e he
  have hcons := hs'.consumes_after hf.stored
  obtain ⟨f, hexec, -, -, hwrites, -⟩ := htr.keeps hm
  obtain rfl := Option.some.inj (hexec.symm.trans he')
  refine ⟨row_after_eq out hf.stored, ?_, ?_, (hs'.suffix_after hf.stored).trans hf.suffix,
    hf.aside_after hs hs' he hown htr hm.2.2⟩
  · rw [subjects_after, htr.sentSubjects hm.1, List.append_nil, ← hid]
    refine hid ▸ hf.mirrors.keep htr hm (hid ▸ hcons) ?_ he'
    rintro rfl c hc
    rw [hid, hfiles]
    exact hf.candidate_of_read hs he hjob htr hc
  · rcases hwrites with ⟨c, -, hbuf, -⟩ | ⟨hbuf, -⟩
    · simp [Executor.buffered, hbuf]
    · rw [Executor.buffered, hbuf]
      exact hf.apart

omit hjob in
/-- The RPC in flight ends. -/
theorem Facing.answer {outcome : Option DomainError}
    (hstep : e.step (s.env o) (.answer outcome) = some out) :
    ∃ updates', Facing id account db₀ job (r.answer outcome) (s.after out) e' row updates'
      ahead := by
  have htr := Executor.transition_of_step hstep
  obtain ⟨-, hsilent⟩ := htr.settled_of_not_keeping (fun hm => hm.2.1 outcome rfl) (by simp)
    fun a => hs.settled_of_rpc he
  obtain ⟨updates', hmir⟩ := hf.mirrors.answer htr (fun a => hs.settled_of_rpc he) he'
  refine ⟨updates', (row_after_of_silent hsilent).trans hf.stored, ?_, ?_, hf.suffix,
    hf.aside_after hs hs' he hown htr (by simp)⟩
  · rw [subjects_after, htr.sentSubjects (by simp), List.append_nil]
    exact hmir
  · rw [Executor.buffered, htr.buffer_of_answer he']
    exact hf.apart

/-- The coroutine goes on. -/
theorem Facing.advance (htr : Executor.Transition (s.env o) e .advance out)
    (hquiet : e.Undisturbed) (hawaited : s.Awaited id) :
    ∃ updates' ahead', Facing id account db₀ job r (s.after out) e' row updates' ahead' := by
  obtain ⟨hset, hsilent⟩ := htr.settled_of_not_keeping (fun hm => hm.1 rfl) (by simp)
    fun a => hs.settled_of_rpc he
  have hpop : e.point = .pop → ∃ pending,
      ahead.map BufferedCandidate.ordinal = e.buffer.ahead pending ∧
        e.buffer.Faithful pending := by
    intro hpoint
    obtain ⟨job', rest, hjob', hrunning⟩ := hs.running he (by simp [hpoint]) (by simp [hpoint])
    exact ⟨_, hf.ahead_eq hjob' hrunning (c := []) (by rw [hpoint]; rfl)⟩
  have hsummary : e.point = .summary →
      (s.env o).db.jobs[e.jobId]? = some row ∧ e.resultBuffer = [] := by
    intro hpoint
    obtain ⟨job', rest, hjob', hrunning⟩ := hs.running he (by simp [hpoint]) (by simp [hpoint])
    have hends := hrunning.ends hset
    rw [hpoint] at hends
    have hlane := hawaited.of_none (by rw [he, Option.bind_some]; exact hset.1)
    have hrow := hf.stored
    rw [Solo.row, jobs_settled_of_nil hlane] at hrow
    exact ⟨hs.filed e he ▸ hrow, List.map_eq_nil_iff.mp hends.1⟩
  obtain ⟨updates', ahead', hmir, hsub⟩ := hf.mirrors.advance htr hquiet.control
    (distinct_candidates hjob account) hpop hsummary he'
  have hords : ∀ q ∈ ahead'.map BufferedCandidate.ordinal,
      q ∈ ahead.map BufferedCandidate.ordinal := by
    intro q hq
    obtain ⟨x, hx, rfl⟩ := List.mem_map.mp hq
    exact List.mem_map_of_mem (hsub x hx)
  rw [← subjects_after s out] at hmir
  refine ⟨updates', ahead', (row_after_of_silent hsilent).trans hf.stored, hmir, ?_, hf.suffix,
    (hf.aside_after hs hs' he hown htr (by simp)).mono fun q hq => hq.imp_left (hords q)⟩
  cases hhand : e'.point.inHand with
  | some c => exact apart_of_order hmir hhand
  | none =>
      rw [Executor.buffered, htr.buffer_of_advance he' hhand]
      exact fun q hq hlater => hf.apart q hq (hords q hlater)

end

/-- **The executor moves**, and is still there. -/
theorem Going.after (hg : Going id account db₀ job r s e) (hs : Steady id s)
    (hawaited : s.Awaited id) (hjob : db₀.jobs[id]? = some job) (he : s.executor = some e)
    (htold : s.told e m) (hstep : e.step (s.env o) m = some out) (hplain : Plain (.move m o))
    {e' : Executor} (he' : out.executor = some e') :
    Going id account db₀ job (follow r (.move m o)) (s.after out) e' := by
  have htr := Executor.transition_of_step hstep
  have hraise := hs.not_raised htold
  have hs' := hs.after he htold htr
  obtain ⟨row, updates, ahead, hf⟩ := hg.facing
  refine ⟨(htr.same he').accountId.trans hg.files, ?_, (htr.own hg.own).2 e' he', ?_⟩
  · refine hg.quiet.step hstep hraise ?_ ?_ e' he'
    · rintro rfl
      exact hplain
    · rintro rfl
      exact hplain
  cases m with
  | answer outcome =>
      obtain ⟨updates', hf'⟩ := hf.answer hs hs' he hg.own he' hstep
      exact ⟨row, updates', ahead, hf'⟩
  | advance =>
      obtain ⟨updates', ahead', hf'⟩ :=
        hf.advance hs hs' he hg.own hjob he' htr hg.quiet hawaited
      exact ⟨row, updates', ahead', hf'⟩
  | resumed result =>
      have hm : Executor.Keeping (.resumed result) := ⟨by simp, by simp, hraise⟩
      exact ⟨_, updates, ahead, hf.keep hs hs' he hg.own hjob he' htr hm hg.files⟩
  | execute | read | delayed | delayedDone | pause | stop =>
      exact ⟨_, updates, ahead,
        hf.keep hs hs' he hg.own hjob he' htr ⟨by simp, by simp, by simp⟩ hg.files⟩

/-- **The executor moves**, and `run` returns. -/
theorem Going.returned (hg : Going id account db₀ job r s e) (hs : Steady id s)
    (hawaited : s.Awaited id) (he : s.executor = some e) (htold : s.told e m)
    (hstep : e.step (s.env o) m = some out) (hnone : out.executor = none) :
    Returned id job (follow r (.move m o)) (s.after out) := by
  have htr := Executor.transition_of_step hstep
  obtain ⟨hset, hsilent, hpoint⟩ := htr.ends (hs.not_raised htold) (hs.alive e he) hnone
  have hfollow : follow r (.move m o) = r := by
    rw [follow]
    cases m with
    | answer outcome =>
        obtain ⟨a, hrpc⟩ := Executor.rpc_of_answer hstep
        rcases hpoint with hp | ⟨summary, final, hp⟩ <;>
          exact absurd (hrpc.symm.trans hp) (by simp)
    | _ => rfl
  obtain ⟨row, updates, ahead, hrow, hmir, -, -, hreadable⟩ := hg.facing
  obtain ⟨hover, hrpcs, hitems, hstate⟩ :=
    hmir.ended hset (hs.resultBuffer_of_return he htold htr hnone) hpoint
  have hlater : ∀ c ∈ r.later, c ∈ ahead := by
    rw [hmir.reference]
    rcases hpoint with hp | ⟨summary, final, hp⟩ <;> rw [hp]
    · exact fun c hc => hc
    · exact fun c hc => absurd hc (by simp [Point.reference, Reference.next])
  have haside : ∀ q, Aside job r.later q → Aside job ahead q := by
    rintro q (hq | hq)
    · obtain ⟨x, hx, rfl⟩ := List.mem_map.mp hq
      exact Or.inl (List.mem_map_of_mem (hlater x hx))
    · exact Or.inr hq
  have hlane := hawaited.of_none (by rw [he, Option.bind_some]; exact hset.1)
  obtain ⟨row', hrow', hrows⟩ := (hreadable.mono haside).rows
  obtain rfl : row' = row := by
    rw [Solo.row, jobs_settled_of_nil hlane, hrow'] at hrow
    exact Option.some.inj hrow
  rw [hfollow]
  refine ⟨hover, ?_, row', (row_after_of_silent hsilent).trans hrow, hitems, hstate, hrows⟩
  rw [subjects_after, htr.sentSubjects_of_none hnone, List.append_nil, hrpcs]

/-- The lane moves, or another component submits a write. -/
theorem Mirror.of_writer (h : Mirror id account db₀ job r s) {w : Lane}
    (hawaited : ({ s with writer := w } : Solo).Awaited id)
    (hrow : ({ s with writer := w } : Solo).row id = s.row id)
    (hreadable : ∀ {later : ℕ → Prop},
      Readable id db₀ job later s.writer.database s.writer.waiting →
        Readable id db₀ job later w.database w.waiting) :
    Mirror id account db₀ job r { s with writer := w } := by
  refine ⟨hawaited, fun e he => ?_, fun hnone => ?_⟩
  · obtain ⟨hfiles, hquiet, hown, row, updates, ahead, hf⟩ := h.going e he
    exact ⟨hfiles, hquiet, hown, row, updates, ahead,
      { hf with stored := hrow.trans hf.stored, aside := hreadable hf.aside }⟩
  · obtain ⟨hover, hrpcs, row, hr, hrest⟩ := h.returned hnone
    exact ⟨hover, hrpcs, row, hrow.trans hr, hrest⟩

/-- **One step of the run** is none of the reference, or the outcome of an RPC. -/
theorem Mirror.step (h : Mirror id account db₀ job r s) (hs : Steady id s)
    (hjob : db₀.jobs[id]? = some job) {l : SoloLabel} (hplain : Plain l)
    (hstep : s.step id l = some s') : Mirror id account db₀ job (follow r l) s' := by
  cases step_cases hstep with
  | @lane l wl w hl hne hw =>
      have hfollow : follow r l = r := by
        rw [follow]
        cases l with
        | move m o => exact absurd rfl (hl m o)
        | _ => rfl
      rw [hfollow]
      have hsub := fun p hp => App.mem_waiting_step (p := p) hne hw hp
      refine h.of_writer ?_ (row_lane hs hne hw) fun hread => hread.lane hs hne hw
      exact h.awaited.of_waiting rfl (congrArg List.length (DBWriter.submitted_step hne hw)).ge
        (fun k hk => hk.sublist hsub) fun hnil => laneOf_eq_nil_of_subset hnil hsub
  | @foreign w critical hown =>
      obtain ⟨hlane, hup⟩ := App.waiting_submit_other (w := s.writer)
        (t := ⟨w, critical, none⟩) hown
      refine h.of_writer ?_ (row_foreign hown) fun hread => hread.submit hplain ?_
      · exact h.awaited.of_waiting rfl (by simp [DBWriter.submit]) hup fun hnil => hlane.trans hnil
      · intro jw hjw
        rw [hown] at hjw
        exact absurd hjw (by simp)
  | @resume e he =>
      rw [(h.going e he).quiet.requestResume, ← he]
      exact h
  | @moved m o e out he htold hout =>
      have hgoing := h.going e he
      refine ⟨h.awaited.after hs hgoing.quiet he htold hout, fun e' he' => ?_, fun hnone => ?_⟩
      · exact hgoing.after hs h.awaited hjob he htold hout hplain he'
      · exact hgoing.returned hs h.awaited he htold hout hnone

/-- **A run is its reference run**, as far as the outcomes of the RPCs go. -/
theorem mirror_of_run (h : Mirror id account db₀ job r s) (hs : Steady id s)
    (hjob : db₀.jobs[id]? = some job) {ls : List SoloLabel} (hplain : ∀ l ∈ ls, Plain l)
    (hrun : runLabels (step id) s ls = some s') :
    Mirror id account db₀ job ((outcomes ls).foldl Reference.answer r) s' := by
  induction ls generalizing s r with
  | nil =>
      obtain rfl := Option.some.inj hrun
      exact h
  | cons l ls ih =>
      obtain ⟨t, ht, hrest⟩ := runLabels_cons_eq_some.mp hrun
      rw [foldl_outcomes_cons]
      exact ih (h.step hs hjob (hplain l (List.mem_cons_self ..)) ht) (hs.step ht)
        (fun l' hl' => hplain l' (List.mem_cons_of_mem _ hl')) hrest

/-- The beginning of a run. -/
theorem mirror_start (hjob : db₀.jobs[id]? = some job) (hright : FailedRight job)
    (account : AccountId) (target : Telegram.GroupContext) (action : Action)
    (scheduler : InviteScheduler) :
    Mirror id account db₀ job (reference (candidates db₀ id account) [])
      (start id account target action false scheduler db₀) := by
  refine ⟨rfl, fun e he => ?_, fun hnone => absurd hnone (by simp [start])⟩
  obtain rfl := Option.some.inj he
  refine ⟨rfl, ⟨rfl, rfl, rfl, rfl⟩, fun st hst => absurd hst (by simp), job, [], _, ⟨?_,
    Executor.mirrors_new hjob hright rfl rfl rfl rfl, fun ord hord => absurd hord (by
      simp [Executor.buffered]), List.suffix_refl _, ?_⟩⟩
  · rw [row, settled, jobs_settle]
    exact congrArg (Option.map _) hjob
  · exact ⟨⟨job, hjob, fun q hq _ => hq⟩, rfl, fun p hp => absurd hp (by simp [start,
      DBWriter.start, DBWriter.waiting]), fun jw hjw => absurd hjw (by simp [start, DBWriter.start,
      DBWriter.waiting, laneOf])⟩

end Solo
end Runtime
end MigrationStudio
