import MigrationStudio.Jobs.Fate
import MigrationStudio.Migration.Mirroring

/-!
# The attempts that an executor has in memory

`_attempt` counts the RPCs of a candidate in a local variable.  The number goes into the row of the
item with the result, by way of `_result_buffer`, or with a `submit_mark_retry`; until then it is
only in the executor.

* `Tally`: an ordinal with a number of attempts, as a row, an update, a candidate or a write has it.
* `Executor.course`: the tallies of the executor in the order of the candidates, and
  `Executor.marks` those of the `submit_mark_retry` that is still to be submitted.
* `Executor.owed`: the tallies that the rows may not have yet.
* `Executor.Turn`: the transitions as far as the tallies go, from `turn_of_transition`.
* `Executor.Lined`: every tally is the number of the RPCs, and the course is in order.
-/

namespace MigrationStudio

open MigrationStudio.Core Accounts Telegram Storage

namespace Jobs

/-- An item, by its ordinal, with a number of attempts that is noted for it. -/
structure Tally where
  ordinal : ℕ
  attempts : ℕ
  deriving DecidableEq

def Item.tally (r : Item) : Tally := ⟨r.ordinal, r.attemptCount⟩

def ItemUpdate.tally (u : ItemUpdate) : Tally := ⟨u.ordinal, u.attempts⟩

/-- The numbers that a write puts into the rows. -/
def JobWrite.tallies : JobWrite → List Tally
  | .updateItems us _ => us.map ItemUpdate.tally
  | .markRetry o n _ _ _ => [⟨o, n⟩]
  | _ => []

/-- The number is that of the RPCs. -/
def Tally.Counts (issued : ℕ → ℕ) (t : Tally) : Prop := t.attempts = issued t.ordinal

theorem JobWrite.ordinals_eq (w : JobWrite) : w.ordinals = w.tallies.map Tally.ordinal := by
  cases w with
  | updateItems us c =>
      rw [JobWrite.ordinals, JobWrite.tallies, List.map_map]
      rfl
  | _ => rfl

/-- A row after a batch of results has the number of one of them, or is as it was. -/
theorem ItemTable.tally_of_mem_updateItems {us : List ItemUpdate} {t : ItemTable} {r : Item}
    (hr : r ∈ (t.updateItems us).rows) :
    r.tally ∈ us.map ItemUpdate.tally ∨ (r ∈ t.rows ∧ r.ordinal ∉ us.map ItemUpdate.ordinal) := by
  induction us generalizing t with
  | nil => exact Or.inr ⟨hr, by simp⟩
  | cons u us ih =>
      rcases ih hr with hlater | ⟨hone, hnot⟩
      · exact Or.inl (List.mem_cons_of_mem _ hlater)
      · rw [ItemTable.updateItem, ItemTable.mem_modifyAt] at hone
        rcases hone with ⟨hold, hne⟩ | ⟨q, -, hq, rfl⟩
        · refine Or.inr ⟨hold, fun hmem => ?_⟩
          rcases List.mem_cons.mp hmem with heq | hmem
          · exact hne heq
          · exact hnot hmem
        · left
          rw [List.map_cons, List.mem_cons]
          left
          show Tally.mk q.ordinal u.attempts = ⟨u.ordinal, u.attempts⟩
          rw [hq]

/-- **A row after a write** has a number of the write, or is as it was. -/
theorem tally_of_mem_apply {job : Job} {w : JobWrite} {r : Item}
    (hr : r ∈ (job.apply w).items.rows) :
    r.tally ∈ w.tallies ∨ (r ∈ job.items.rows ∧ r.ordinal ∉ w.ordinals) := by
  cases w with
  | updateItems us c => exact ItemTable.tally_of_mem_updateItems hr
  | markRetry o n code text nextAt =>
      have hmem : r ∈ (job.items.markRetry o n code text nextAt).rows := hr
      rw [ItemTable.markRetry, ItemTable.mem_modifyAt] at hmem
      rcases hmem with ⟨hold, hne⟩ | ⟨q, -, hq, rfl⟩
      · exact Or.inr ⟨hold, fun ho => hne (List.mem_singleton.mp ho)⟩
      · left
        show Tally.mk q.ordinal n ∈ [Tally.mk o n]
        rw [hq]
        exact List.mem_singleton.mpr rfl
  | setState state wait c clear => exact Or.inr ⟨hr, by simp [JobWrite.ordinals]⟩
  | event level code message member => exact Or.inr ⟨hr, by simp [JobWrite.ordinals]⟩

end Jobs

namespace Migration

open Jobs

/-! ## Where the tallies are -/

def BufferedCandidate.tally (c : BufferedCandidate) : Tally := ⟨c.ordinal, c.persistedAttempts⟩

def Attempt.tally (a : Attempt) : Tally := ⟨a.candidate.ordinal, a.attempts⟩

/-- The candidates in the queue. -/
def CandidateBuffer.queued (b : CandidateBuffer) : List Tally :=
  b.queue.map BufferedCandidate.tally

/-- The rows that the worker has read and that have not been received. -/
def CandidateBuffer.arrived (b : CandidateBuffer) : List Tally :=
  match b.loading with
  | some (.ready rows) => rows.map fun x => (CandidateBuffer.ofRow x).tally
  | _ => []

/-- The attempt in hand, or the result that `_attempt` returns. -/
def Point.tally : Point → Option Tally
  | .wait _ a | .sleeping _ _ a | .rpc a => some a.tally
  | .returned (some u) | .attempted (some u) => some u.tally
  | _ => none

/-- What the rows may not have yet: the attempt in hand when its last RPC is the last event of the
run, and the result that `_attempt` returns. -/
def Point.owed (sent : Bool) : Point → List Tally
  | .wait _ a | .sleeping _ _ a | .rpc a => if sent then [a.tally] else []
  | .returned (some u) | .attempted (some u) => [u.tally]
  | _ => []

/-- The numbers that a statement will submit. -/
def Stmt.tallies (id : JobId) : Stmt → List Tally
  | .write w => (w.ofJob id).toList.flatMap JobWrite.tallies
  | _ => []

/-- The numbers that a transition submits. -/
def Outcome.tallies (out : Outcome) (id : JobId) : List Tally :=
  (out.jobWrites id).flatMap JobWrite.tallies

/-- Whether the last event of the run is an RPC, from the event of a transition. -/
def Event.sentAfter (sent : Bool) : Option Event → Bool
  | none => sent
  | some (.sent _) => true
  | some _ => false

namespace Executor

variable {env : Env} {e e' : Executor} {m : Move} {out : Outcome}

/-- The results in the buffer. -/
def results (e : Executor) : List Tally := e.resultBuffer.map ItemUpdate.tally

/-- The candidate in hand. -/
def hand (e : Executor) : List Tally := e.point.tally.toList

/-- From the results in the buffer to the rows that have been read. -/
def course (e : Executor) : List Tally :=
  e.results ++ e.hand ++ e.buffer.queued ++ e.buffer.arrived

/-- The numbers of the statements that remain. -/
def marks (e : Executor) : List Tally := e.todo.flatMap (Stmt.tallies e.jobId)

/-- The tallies that the rows may not have yet. -/
def owed (e : Executor) (sent : Bool) : List Tally := e.results ++ e.point.owed sent ++ e.marks

/-- A `_sleep` is over because of a request. -/
def interrupts (e : Executor) : Move → Bool
  | .advance =>
      e.control.isSome &&
        match e.point with
        | .sleeping _ _ _ => true
        | _ => false
  | _ => false

/-! ## Statements without a number -/

@[simp] theorem tallies_setJob (id : JobId) (e : Executor) (state : JobState) (wait : Option ℕ)
    (c : Option Checkpoint) (clear : Bool) : (e.setJob state wait c clear).tallies id = [] := by
  rw [setJob, Stmt.tallies, LaneWrite.ofJob]
  split <;> rfl

@[simp] theorem tallies_setAccount (id : JobId) (e : Executor) (state : AccountState)
    (error : Option String) : (e.setAccount state error).tallies id = [] := rfl

@[simp] theorem tallies_flush (id : JobId) (force : Bool) :
    (Stmt.flush force).tallies id = [] := rfl

@[simp] theorem tallies_pauseAccount (id : JobId) : Stmt.pauseAccount.tallies id = [] := rfl

@[simp] theorem tallies_handleControl (e : Executor) (c : Control) :
    (e.handleControl c).flatMap (Stmt.tallies e.jobId) = [] := by
  cases c <;> simp [handleControl]

@[simp] theorem tallies_event (id k : JobId) (level code message : String) (member : Option ℤ) :
    (Stmt.write (.job k (.event level code message member))).tallies id = [] := by
  rw [Stmt.tallies, LaneWrite.ofJob]
  split <;> rfl

@[simp] theorem tallies_markRetry (id : JobId) (o n : ℕ) (code : Option InviteResultCode)
    (text : Option String) (nextAt : Option ℕ) :
    (Stmt.write (.job id (.markRetry o n code text nextAt))).tallies id = [⟨o, n⟩] := by
  rw [Stmt.tallies, LaneWrite.ofJob, if_pos rfl]
  rfl

@[simp] theorem tallies_floodScript (e : Executor) (utc : ℕ) (a : Attempt) (error : DomainError) :
    (e.floodScript utc a error).flatMap (Stmt.tallies e.jobId) = [a.tally] := by
  simp [floodScript, Attempt.tally]

@[simp] theorem tallies_indefiniteScript (e : Executor) (a : Attempt) (error : DomainError) :
    (e.indefiniteScript a error).flatMap (Stmt.tallies e.jobId) = [a.tally] := by
  simp [indefiniteScript, Attempt.tally]

@[simp] theorem tallies_pauseScript (e : Executor) (a : Attempt) (error : DomainError) :
    (e.pauseScript a error).flatMap (Stmt.tallies e.jobId) = [a.tally] := by
  simp [pauseScript, Attempt.tally]

theorem tallies_of_silent {out : Outcome} (hw : out.write = none) (id : JobId) :
    out.tallies id = [] := by
  rw [Outcome.tallies, Outcome.jobWrites_of_silent hw]
  rfl

/-- A flush submits the results in the buffer. -/
theorem tallies_flushWrite (hw : out.write = some e.flushWrite) :
    out.tallies e.jobId = e.results := by
  obtain ⟨c, hjob⟩ := jobWrites_flush rfl hw
  rw [Outcome.tallies, hjob]
  exact List.append_nil _

theorem marks_cons {st : Stmt} {todo : List Stmt} (h : e.todo = st :: todo) :
    e.marks = st.tallies e.jobId ++ todo.flatMap (Stmt.tallies e.jobId) := by
  rw [marks, h, List.flatMap_cons]

theorem marks_of_settled (h : e.Settled) : e.marks = [] := by
  rw [marks, h.2, List.flatMap_nil]

/-- An attempt in hand is owed, or it is not. -/
theorem owed_subset_tally (p : Point) (sent : Bool) :
    ∀ t ∈ p.owed sent, t ∈ p.tally.toList := by
  intro t ht
  cases p with
  | wait k a | sleeping d k a | rpc a =>
      rw [Point.owed] at ht
      split at ht
      · exact ht
      · exact absurd ht (by simp)
  | returned r | attempted r =>
      cases r with
      | none => exact absurd ht (by simp [Point.owed])
      | some u => exact ht
  | _ => exact absurd ht (by simp [Point.owed])

end Executor

/-! ## The transitions -/

/-- The window shows the same candidates. -/
structure CandidateBuffer.SameWindow (b b' : CandidateBuffer) : Prop where
  lastLoaded : b'.lastLoaded = b.lastLoaded
  queued : b'.queued = b.queued
  arrived : b'.arrived = b.arrived

theorem CandidateBuffer.SameWindow.refl (b : CandidateBuffer) : b.SameWindow b := ⟨rfl, rfl, rfl⟩

theorem CandidateBuffer.sameWindow_submitFill (b : CandidateBuffer) :
    b.SameWindow b.submitFill := by
  refine ⟨lastLoaded_submitFill b, by rw [queued, queue_submitFill, queued], ?_⟩
  rcases loading_submitFill b with hsame | ⟨hold, hnew⟩
  · rw [arrived, hsame, arrived]
  · rw [arrived, hnew, arrived, hold]

namespace Executor

variable {env : Env} {e e' : Executor} {m : Move} {out : Outcome}

/-- No candidate moves along the course, and what is owed is written or still owed, unless a
request interrupts a `_sleep` right after an RPC. -/
structure Carries (e : Executor) (m : Move) (out : Outcome) (e' : Executor) : Prop where
  window : e.buffer.SameWindow e'.buffer
  results : e'.results.Sublist e.results
  hand : e'.hand.Sublist e.hand
  marks : ∀ t ∈ e'.marks, t ∈ e.marks ∨ t ∈ e.hand
  written : ∀ t ∈ out.tallies e.jobId, t ∈ e.results ∨ t ∈ e.marks
  silent : ∀ rpc, out.event ≠ some (.sent rpc)
  kept : ∀ sent, (e.interrupts m = true → sent = false) → ∀ t ∈ e.owed sent,
    t ∈ out.tallies e.jobId ∨ t ∈ e'.owed (Event.sentAfter sent out.event)

/-- The coroutine is at another place of the code, and has written nothing. -/
theorem carries_go (hresults : e'.resultBuffer = e.resultBuffer)
    (hwindow : e.buffer.SameWindow e'.buffer) (hmarks : e.marks = []) (hw : out.write = none)
    (hevent : ∀ rpc, out.event ≠ some (.sent rpc)) (hhand : e'.hand.Sublist e.hand)
    (hmarks' : ∀ t ∈ e'.marks, t ∈ e.hand)
    (howed : ∀ sent, (e.interrupts m = true → sent = false) → ∀ t ∈ e.point.owed sent,
      t ∈ e'.marks ∨ t ∈ e'.point.owed (Event.sentAfter sent out.event)) : Carries e m out e' := by
  have hres : e'.results = e.results := by rw [results, hresults, results]
  refine ⟨hwindow, hres ▸ List.Sublist.refl _, hhand, fun t ht => Or.inr (hmarks' t ht), ?_, hevent,
    fun sent hsent t ht => Or.inr ?_⟩
  · rw [tallies_of_silent hw]
    exact fun t ht => absurd ht (by simp)
  · rw [owed, hmarks, List.append_nil] at ht
    rw [owed, hres]
    rcases List.mem_append.mp ht with ht | ht
    · exact List.mem_append_left _ (List.mem_append_left _ ht)
    · rcases howed sent hsent t ht with h | h
      · exact List.mem_append_right _ h
      · exact List.mem_append_left _ (List.mem_append_right _ h)

/-- The coroutine goes on with the candidate that is in hand. -/
theorem carries_hold (hresults : e'.resultBuffer = e.resultBuffer) (hset : e.Settled)
    (hbuffer : e'.buffer = e.buffer) (hout : out = { executor := some e' })
    (hhand : e'.hand = e.hand) (hmarks : e'.marks = [])
    (howed : ∀ sent, ∀ t ∈ e.point.owed sent, t ∈ e'.point.owed sent) : Carries e m out e' := by
  subst hout
  refine carries_go hresults ?_ (marks_of_settled hset) rfl (by simp) ?_ ?_
    fun sent _ t ht => Or.inr (howed sent t ht)
  · rw [hbuffer]
    exact .refl _
  · rw [hhand]
  · rw [hmarks]
    exact fun t ht => absurd ht (by simp)

/-- The coroutine stands where it was. -/
theorem carries_stay (hid : e'.jobId = e.jobId) (hresults : e'.resultBuffer = e.resultBuffer)
    (hwindow : e.buffer.SameWindow e'.buffer) (hpoint : e'.point = e.point)
    (htodo : e'.todo = e.todo) (hw : out.write = none) (hevent : out.event = none) :
    Carries e m out e' := by
  have hres : e'.results = e.results := by rw [results, hresults, results]
  have hmarks : e'.marks = e.marks := by rw [marks, hid, htodo, marks]
  refine ⟨hwindow, hres ▸ List.Sublist.refl _, ?_, fun t ht => Or.inl (hmarks ▸ ht), ?_, ?_,
    fun sent _ t ht => Or.inr ?_⟩
  · rw [hand, hpoint, hand]
  · rw [tallies_of_silent hw]
    exact fun t ht => absurd ht (by simp)
  · rw [hevent]
    exact fun rpc => by simp
  · rw [owed, hres, hmarks, hpoint, hevent]
    exact ht

/-- The transitions, as far as the tallies go. -/
inductive Turn (env : Env) (e : Executor) : Move → Outcome → Prop
  | carries {m : Move} {out : Outcome} {e' : Executor} (hex : out.executor = some e')
      (h : Carries e m out e') : Turn env e m out
  | ends {m : Move} {out : Outcome} (hex : out.executor = none) (hw : out.write = none)
      (hevent : ∀ rpc, out.event ≠ some (.sent rpc)) (hset : e.Settled) (hhand : e.hand = []) :
      Turn env e m out
  | send {deadline : ℕ} {a : Attempt} (hset : e.Settled)
      (hpoint : e.point = .sleeping deadline .attempt a) :
      Turn env e .advance
        { executor := some { e with
            scheduler := e.scheduler.markAttempt env.now
            point := .rpc { a with attempts := a.attempts + 1 } }
          event := some (.sent
            { job := e.jobId
              account := e.accountId
              action := e.action
              target := e.target
              ordinal := a.candidate.ordinal
              member := a.candidate.member
              sentAt := env.now }) }
  | take {item : BufferedCandidate} {buffer : CandidateBuffer} (hset : e.Settled)
      (hpoint : e.point = .pop) (htake : e.buffer.take = some (item, buffer)) :
      Turn env e .advance { executor := some { e with buffer := buffer, point := enter item } }
  | receive {rows : List Database.CandidateRow} (hset : e.Settled)
      (hload : e.buffer.loading = some (.ready rows)) :
      Turn env e .advance { executor := some { e with buffer := e.buffer.receive rows } }
  | read (hload : e.buffer.loading = some .requested) :
      Turn env e .read
        { executor := some { e with
            buffer := { e.buffer with
              loading := some (.ready (env.db.pendingChunk e.jobId e.accountId
                e.buffer.lastLoaded CandidateBuffer.chunkSize)) } } }
  | append {u : ItemUpdate} (hset : e.Settled) (hpoint : e.point = .attempted (some u)) :
      Turn env e .advance
        { executor := some { e with
            resultBuffer := e.resultBuffer ++ [u]
            todo := [.flush false]
            point := .flushed }
          event := some (.produced e.jobId u) }

/-- The statements of a script are submitted from its front. -/
theorem carries_statement {st : Stmt} {todo : List Stmt} (htodo : e.todo = st :: todo)
    (hout : out.tallies e.jobId = st.tallies e.jobId) (hevent : out.event = none)
    {awaiting : Option Await} :
    Carries e m out { e with todo := todo, awaiting := awaiting } := by
  have hmarks := marks_cons htodo
  refine ⟨.refl _, List.Sublist.refl _, List.Sublist.refl _, fun t ht => Or.inl ?_,
    fun t ht => Or.inr ?_, fun rpc => by simp [hevent], fun sent _ t ht => ?_⟩
  · rw [hmarks]
    exact List.mem_append_right _ ht
  · rw [hmarks]
    exact List.mem_append_left _ (hout ▸ ht)
  · rw [owed, hmarks] at ht
    rw [hevent, hout]
    rcases List.mem_append.mp ht with ht | ht
    · exact Or.inr (List.mem_append_left _ ht)
    · exact (List.mem_append.mp ht).imp_right fun h => List.mem_append_right _ h

/-- A flush submits the results, and the statements from `todo` on remain. -/
theorem carries_flush {todo : List Stmt} (hmarks : e.marks = todo.flatMap (Stmt.tallies e.jobId))
    (hw : out.write = some e.flushWrite) (hevent : out.event = none) {task : FlushTask}
    {awaiting : Option Await} :
    Carries e m out { e with
      todo := todo, resultBuffer := [], flushTask := task, awaiting := awaiting } := by
  have hout := tallies_flushWrite hw
  refine ⟨.refl _, List.nil_sublist _, List.Sublist.refl _, fun t ht => Or.inl ?_,
    fun t ht => Or.inl (hout ▸ ht), fun rpc => by simp [hevent], fun sent _ t ht => ?_⟩
  · rw [hmarks]
    exact ht
  rw [owed] at ht
  rw [hevent, hout]
  rcases List.mem_append.mp ht with ht | ht
  · rcases List.mem_append.mp ht with ht | ht
    · exact Or.inl ht
    · exact Or.inr (List.mem_append_left _ (List.mem_append_right _ ht))
  · rw [hmarks] at ht
    exact Or.inr (List.mem_append_right _ ht)

/-- A point without a candidate in hand owes nothing. -/
theorem owed_of_hand (hhand : e.hand = []) (sent : Bool) : e.point.owed sent = [] := by
  refine List.eq_nil_iff_forall_not_mem.mpr fun t ht => ?_
  have hmem := owed_subset_tally e.point sent t ht
  rw [← hand, hhand] at hmem
  exact absurd hmem (by simp)

/-- **The transitions are these**, when no exception is raised and an RPC is in flight between the
statements. -/
theorem turn_of_transition (h : Transition env e m out)
    (hm : ∀ message, m ≠ .resumed (.error message)) (hrpc : ∀ a, e.point = .rpc a → e.Settled) :
    Turn env e m out := by
  cases h with
  | flushWrite haw htodo hdue =>
      exact .carries rfl (carries_flush (marks_cons htodo) rfl rfl)
  | flushSkip haw htodo hdue =>
      exact .carries rfl (carries_statement htodo (tallies_of_silent rfl _) rfl)
  | write haw htodo => exact .carries rfl (carries_statement htodo rfl rfl)
  | pauseAccount haw htodo state => exact .carries rfl (carries_statement htodo rfl rfl)
  | delayedWrite hdue => exact .carries rfl (carries_flush rfl rfl rfl)
  | raised haw message => exact absurd rfl (hm message)
  | resumed | delayedSkip | delayedDone | pauseRequested | stopRequested =>
      exact .carries rfl (carries_stay rfl rfl (.refl _) rfl rfl rfl rfl)
  | primeFill hset | popFill hset =>
      exact .carries rfl
        (carries_stay rfl rfl (CandidateBuffer.sameWindow_submitFill _) rfl rfl rfl rfl)
  | leave hset hpoint | failed hset hpoint =>
      exact .ends rfl rfl (by simp) hset (by rw [hand, hpoint]; rfl)
  | publish hset hpoint => exact .ends rfl rfl (by simp) hset (by rw [hand, hpoint]; rfl)
  | send hset hpoint hc hnow => exact .send hset hpoint
  | take hset hpoint htake => exact .take hset hpoint htake
  | primeReceive hset hpoint hqueue hload | popReceive hset hpoint hqueue hload =>
      exact .receive hset hload
  | read hload => exact .read hload
  | append hset hpoint => exact .append hset hpoint
  | begin hset hpoint | primed hset hpoint | acquire hset hpoint | loopControl hset hpoint
  | loopPop hset hpoint | popEnd hset hpoint | summarize hset hpoint | flushed hset hpoint
  | stopped hset hpoint =>
      -- no candidate is in hand
      have hhand : e.hand = [] := by rw [hand, hpoint]; rfl
      refine .carries rfl (carries_go rfl (.refl _) (marks_of_settled hset) rfl (by simp) ?_ ?_
        fun sent _ t ht => ?_)
      · exact List.nil_sublist _
      · simp [marks, hset.2]
      · rw [owed_of_hand hhand] at ht
        exact absurd ht (by simp)
  | sleep hset hpoint | waited hset hpoint | retry hset hpoint =>
      -- the same attempt is in hand
      refine .carries rfl (carries_hold rfl hset rfl rfl ?_ ?_ fun sent t ht => ?_)
      · rw [hand, hand, hpoint]
        rfl
      · simp [marks, hset.2]
      · rw [hpoint] at ht
        exact ht
  | @interrupt deadline k a hset hpoint c hc =>
      refine .carries rfl (carries_go rfl (.refl _) (marks_of_settled hset) rfl (by simp) ?_ ?_
        fun sent hsent t ht => ?_)
      · exact List.nil_sublist _
      · simp [marks, interrupted]
      · -- the run has seen something since the RPC, so the attempt is not owed
        rw [hsent (by simp [interrupts, hc, hpoint]), hpoint] at ht
        exact absurd ht (by simp [Point.owed])
  | giveUp hset hpoint hc hnow htr =>
      -- the attempt becomes a result
      refine .carries rfl (carries_hold rfl hset rfl rfl ?_ (marks_of_settled hset)
        fun sent t ht => ?_)
      · rw [hand, hand, hpoint]
        rfl
      · have hmem := owed_subset_tally e.point sent t ht
        rw [hpoint] at hmem
        exact hmem
  | succeeded hpoint | exhausted hpoint hcode hdelay | final hpoint hfinal hpause =>
      have hset := hrpc _ hpoint
      refine .carries rfl (carries_hold rfl hset rfl rfl ?_ (marks_of_settled hset)
        fun sent t ht => ?_)
      · rw [hand, hand, hpoint]
        rfl
      · have hmem := owed_subset_tally e.point sent t ht
        rw [hpoint] at hmem
        exact hmem
  | flooded hpoint hcode | indefinite hpoint hcode | pausing hpoint hcode =>
      -- the attempt goes into a `submit_mark_retry`
      have hset := hrpc _ hpoint
      refine .carries rfl (carries_go rfl (.refl _) (marks_of_settled hset) rfl (by simp) ?_ ?_
        fun sent _ t ht => Or.inl ?_)
      · rw [hand, hand, hpoint]
        first
          | exact List.Sublist.refl _
          | exact List.nil_sublist _
      · rw [hand, hpoint]
        simp [marks, Point.tally]
      · have hmem := owed_subset_tally e.point sent t ht
        rw [hpoint] at hmem
        simpa [marks, Point.tally] using hmem
  | transient hpoint hcode hdelay =>
      have hset := hrpc _ hpoint
      refine .carries rfl (carries_hold rfl hset rfl rfl ?_ (marks_of_settled hset)
        fun sent t ht => ?_)
      · rw [hand, hand, hpoint]
        rfl
      · rw [hpoint] at ht
        exact ht
  | @returned r hset hpoint todo htodo =>
      refine .carries rfl (carries_hold rfl hset rfl rfl ?_ ?_ fun sent t ht => ?_)
      · rw [hand, hand, hpoint]
        cases r <;> rfl
      · rcases htodo with rfl | rfl <;> simp [marks, Stmt.tallies, LaneWrite.ofJob]
      · rw [hpoint] at ht
        cases r <;> exact ht

/-! ## What the executor has counted -/

/-- The number of the RPCs for each item after a transition. -/
def issuedAfter (issued : ℕ → ℕ) : Option Event → ℕ → ℕ
  | some (.sent rpc) => Function.update issued rpc.ordinal (issued rpc.ordinal + 1)
  | _ => issued

theorem issuedAfter_of_silent {issued : ℕ → ℕ} {event : Option Event}
    (h : ∀ rpc, event ≠ some (.sent rpc)) : issuedAfter issued event = issued := by
  cases event with
  | none => rfl
  | some v =>
      cases v with
      | sent rpc => exact absurd rfl (h rpc)
      | _ => rfl

/-- **Every tally is the number of the RPCs**, and the candidates come in the order of their
ordinals, those that have been loaded before those that have not. -/
structure Lined (issued : ℕ → ℕ) (e : Executor) : Prop where
  counts : ∀ t ∈ e.course ++ e.marks, t.Counts issued
  sorted : (e.course.map Tally.ordinal).Pairwise (· < ·)
  loaded : ∀ t ∈ e.results ++ e.hand ++ e.buffer.queued ++ e.marks,
    (t.ordinal : ℤ) ≤ e.buffer.lastLoaded
  ahead : ∀ t ∈ e.buffer.arrived, e.buffer.lastLoaded < (t.ordinal : ℤ)

variable {issued : ℕ → ℕ}

theorem Lined.carries (h : Lined issued e) (hc : Carries e m out e') : Lined issued e' := by
  have hcourse : e'.course.Sublist e.course := by
    rw [course, course, hc.window.queued, hc.window.arrived]
    exact ((hc.results.append hc.hand).append (List.Sublist.refl _)).append (List.Sublist.refl _)
  have hhand : ∀ t ∈ e.hand, t ∈ e.course :=
    fun t ht => by simp [course, ht]
  refine ⟨fun t ht => ?_, h.sorted.sublist (hcourse.map _), fun t ht => ?_, ?_⟩
  · rcases List.mem_append.mp ht with ht | ht
    · exact h.counts t (List.mem_append_left _ (hcourse.subset ht))
    · rcases hc.marks t ht with ht | ht
      · exact h.counts t (List.mem_append_right _ ht)
      · exact h.counts t (List.mem_append_left _ (hhand t ht))
  · rw [hc.window.lastLoaded]
    refine h.loaded t ?_
    rw [hc.window.queued] at ht
    simp only [List.mem_append] at ht ⊢
    rcases ht with ((ht | ht) | ht) | ht
    · exact Or.inl (Or.inl (Or.inl (hc.results.subset ht)))
    · exact Or.inl (Or.inl (Or.inr (hc.hand.subset ht)))
    · exact Or.inl (Or.inr ht)
    · rcases hc.marks t ht with ht | ht
      · exact Or.inr ht
      · exact Or.inl (Or.inl (Or.inr ht))
  · rw [hc.window.arrived, hc.window.lastLoaded]
    exact h.ahead

/-- A transition that moves a candidate along the course, and nothing else. -/
theorem Lined.shift (h : Lined issued e) (hcourse : e'.course = e.course) (hmarks : e'.marks = [])
    (hloaded : ∀ t ∈ e'.results ++ e'.hand ++ e'.buffer.queued,
      (t.ordinal : ℤ) ≤ e'.buffer.lastLoaded)
    (hahead : ∀ t ∈ e'.buffer.arrived, e'.buffer.lastLoaded < (t.ordinal : ℤ)) :
    Lined issued e' := by
  refine ⟨fun t ht => ?_, hcourse ▸ h.sorted, fun t ht => ?_, hahead⟩
  · rw [hmarks, List.append_nil, hcourse] at ht
    exact h.counts t (List.mem_append_left _ ht)
  · rw [hmarks, List.append_nil] at ht
    exact hloaded t ht

/-- The RPC for the candidate in hand. -/
theorem Lined.send (h : Lined issued e) {a : Attempt} (hhand : e.hand = [a.tally])
    (hresults : e'.results = e.results) (hbuffer : e'.buffer = e.buffer)
    (hmarks : e'.marks = []) (hhand' : e'.hand = [⟨a.candidate.ordinal, a.attempts + 1⟩]) :
    Lined (Function.update issued a.candidate.ordinal (issued a.candidate.ordinal + 1)) e' := by
  have hcourse : e.course = e.results ++ a.tally :: (e.buffer.queued ++ e.buffer.arrived) := by
    simp [course, hhand]
  have hcourse' : e'.course = e.results ++
      ⟨a.candidate.ordinal, a.attempts + 1⟩ :: (e.buffer.queued ++ e.buffer.arrived) := by
    simp [course, hhand', hresults, hbuffer]
  have hsorted := h.sorted
  rw [hcourse, List.map_append, List.map_cons, List.pairwise_append, List.pairwise_cons] at hsorted
  obtain ⟨-, ⟨habove, -⟩, hbelow⟩ := hsorted
  have hself : a.attempts = issued a.candidate.ordinal :=
    h.counts a.tally (List.mem_append_left _ (by simp [hcourse]))
  refine ⟨fun t ht => ?_, ?_, fun t ht => ?_, ?_⟩
  · rw [hmarks, List.append_nil, hcourse'] at ht
    have hother : t ∈ e.course → t.ordinal ≠ a.candidate.ordinal → t.Counts
        (Function.update issued a.candidate.ordinal (issued a.candidate.ordinal + 1)) := by
      intro hmem hne
      rw [Tally.Counts, Function.update_of_ne hne]
      exact h.counts t (List.mem_append_left _ hmem)
    rcases List.mem_append.mp ht with ht | ht
    · refine hother (by simp [hcourse, ht]) fun heq => ?_
      exact absurd (hbelow _ (List.mem_map_of_mem ht) _ (List.mem_cons_self ..)) (by
        rw [heq]
        exact lt_irrefl _)
    · rcases List.mem_cons.mp ht with rfl | ht
      · rw [Tally.Counts, Function.update_self, hself]
      · refine hother (by simp only [hcourse, List.mem_append, List.mem_cons] at ht ⊢; tauto)
          fun heq => ?_
        exact absurd (habove _ (List.mem_map_of_mem ht)) (by
          rw [heq]
          exact lt_irrefl _)
  · have hsame : e'.course.map Tally.ordinal = e.course.map Tally.ordinal := by
      rw [hcourse', hcourse, List.map_append, List.map_append]
      rfl
    rw [hsame]
    exact h.sorted
  · rw [hmarks, List.append_nil, hresults, hhand', hbuffer] at ht
    rw [hbuffer]
    have hin : ∃ t' ∈ e.results ++ e.hand ++ e.buffer.queued ++ e.marks,
        t'.ordinal = t.ordinal := by
      simp only [hhand, List.mem_append, List.mem_singleton] at ht ⊢
      rcases ht with (ht | rfl) | ht
      · exact ⟨t, Or.inl (Or.inl (Or.inl ht)), rfl⟩
      · exact ⟨a.tally, Or.inl (Or.inl (Or.inr rfl)), rfl⟩
      · exact ⟨t, Or.inl (Or.inr ht), rfl⟩
    obtain ⟨t', ht', hord⟩ := hin
    rw [← hord]
    exact h.loaded t' ht'
  · rw [hbuffer]
    exact h.ahead

/-- `_attempt` is entered with the number that the candidate has from its row. -/
theorem tally_enter (item : BufferedCandidate) : (enter item).tally = some item.tally := by
  rw [enter]
  split <;> rfl

/-- The next candidate is popped. -/
theorem Lined.take (h : Lined issued e) (hset : e.Settled) (hhand : e.hand = [])
    {item : BufferedCandidate} {buffer : CandidateBuffer}
    (htake : e.buffer.take = some (item, buffer)) :
    Lined issued { e with buffer := buffer, point := enter item } := by
  obtain ⟨hqueue, hlast, -, hload⟩ := CandidateBuffer.take_eq_some htake
  have hqueued : e.buffer.queued = item.tally :: buffer.queued := by
    rw [CandidateBuffer.queued, hqueue]
    rfl
  have harrived : buffer.arrived = e.buffer.arrived := by
    rcases hload with hsame | ⟨hold, hnew⟩
    · rw [CandidateBuffer.arrived, hsame, CandidateBuffer.arrived]
    · rw [CandidateBuffer.arrived, hnew, CandidateBuffer.arrived, hold]
  have hhand' : ({ e with buffer := buffer, point := enter item } : Executor).hand =
      [item.tally] := by
    rw [hand, tally_enter]
    rfl
  have hresults : ({ e with buffer := buffer, point := enter item } : Executor).results =
      e.results := rfl
  refine h.shift ?_ ?_ (fun t ht => ?_) ?_
  · simp [course, hhand, hhand', hresults, hqueued, harrived]
  · simp [marks, hset.2]
  · show (t.ordinal : ℤ) ≤ buffer.lastLoaded
    rw [hlast]
    refine h.loaded t (List.mem_append_left _ ?_)
    rw [hresults, hhand'] at ht
    simpa [hhand, hqueued] using ht
  · show ∀ t ∈ buffer.arrived, buffer.lastLoaded < (t.ordinal : ℤ)
    rw [harrived, hlast]
    exact h.ahead

/-- The rows that the worker has read are received. -/
theorem Lined.receive (h : Lined issued e) (hset : e.Settled) {rows : List Database.CandidateRow}
    (hload : e.buffer.loading = some (.ready rows)) :
    Lined issued { e with buffer := e.buffer.receive rows } := by
  have harrived : e.buffer.arrived = rows.map fun x => (CandidateBuffer.ofRow x).tally := by
    rw [CandidateBuffer.arrived, hload]
  have hmarks : e.marks = [] := marks_of_settled hset
  have hold : ∀ t ∈ e.results ++ e.hand ++ e.buffer.queued,
      (t.ordinal : ℤ) ≤ e.buffer.lastLoaded := fun t ht => h.loaded t (List.mem_append_left _ ht)
  cases hlast : rows.getLast? with
  | none =>
      rw [List.getLast?_eq_none_iff] at hlast
      subst hlast
      rw [List.map_nil] at harrived
      refine h.shift ?_ hmarks hold fun t ht => absurd ht (by
        simp [CandidateBuffer.receive, CandidateBuffer.arrived])
      show e.results ++ e.hand ++ e.buffer.queued ++ [] = e.course
      rw [course, harrived]
  | some last =>
      -- the rows are in order, so the last of them is the greatest
      obtain ⟨front, rfl⟩ := List.getLast?_eq_some_iff.mp hlast
      have hsorted : (e.buffer.arrived.map Tally.ordinal).Pairwise (· < ·) := by
        have hall := h.sorted
        rw [course, List.map_append] at hall
        exact (List.pairwise_append.mp hall).2.1
      have hahead := h.ahead
      rw [harrived] at hsorted hahead
      rw [List.map_map, List.map_append, List.pairwise_append] at hsorted
      have hbelow : e.buffer.lastLoaded < (last.ordinal : ℤ) :=
        hahead _ (List.mem_map_of_mem (List.mem_append_right _ (List.mem_singleton.mpr rfl)))
      have hreceive : e.buffer.receive (front ++ [last]) =
          { e.buffer with
            queue := e.buffer.queue ++ (front ++ [last]).map CandidateBuffer.ofRow
            lastLoaded := last.ordinal
            loading := none } := by
        rw [CandidateBuffer.receive, hlast]
      rw [hreceive]
      refine h.shift ?_ hmarks (fun t ht => ?_) fun t ht => absurd ht (by
        simp [CandidateBuffer.arrived])
      · rw [course, course, harrived]
        simp [CandidateBuffer.queued, CandidateBuffer.arrived, results, hand]
      · show (t.ordinal : ℤ) ≤ (last.ordinal : ℤ)
        have hcases : t ∈ e.results ++ e.hand ++ e.buffer.queued ∨
            ∃ x ∈ front ++ [last], (CandidateBuffer.ofRow x).tally = t := by
          have hqueued : (CandidateBuffer.queued { e.buffer with
              queue := e.buffer.queue ++ (front ++ [last]).map CandidateBuffer.ofRow
              lastLoaded := last.ordinal
              loading := none }) = e.buffer.queued ++
                (front ++ [last]).map fun x => (CandidateBuffer.ofRow x).tally := by
            simp [CandidateBuffer.queued]
          rw [hqueued, ← List.append_assoc] at ht
          exact (List.mem_append.mp ht).imp_right List.mem_map.mp
        rcases hcases with hmem | ⟨x, hx, rfl⟩
        · exact (hold t hmem).trans hbelow.le
        · rcases List.mem_append.mp hx with hx | hx
          · have hlt := hsorted.2.2 _ (List.mem_map_of_mem hx) last.ordinal (by
              simp [CandidateBuffer.ofRow, BufferedCandidate.tally])
            exact Int.ofNat_le.mpr (le_of_lt hlt)
          · rw [List.mem_singleton.mp hx]
            exact le_rfl

/-- The worker reads the next rows. -/
theorem Lined.read (h : Lined issued e) {buffer : CandidateBuffer}
    (hload : e.buffer.loading = some .requested) (hqueue : buffer.queue = e.buffer.queue)
    (hlast : buffer.lastLoaded = e.buffer.lastLoaded)
    (hsorted : (buffer.arrived.map Tally.ordinal).Pairwise (· < ·))
    (hahead : ∀ t ∈ buffer.arrived, e.buffer.lastLoaded < (t.ordinal : ℤ))
    (hcounts : ∀ t ∈ buffer.arrived, t.Counts issued) :
    Lined issued { e with buffer := buffer } := by
  have harrived : e.buffer.arrived = [] := by rw [CandidateBuffer.arrived, hload]
  have hqueued : buffer.queued = e.buffer.queued := by
    rw [CandidateBuffer.queued, hqueue, CandidateBuffer.queued]
  have hcourse : ({ e with buffer := buffer } : Executor).course = e.course ++ buffer.arrived := by
    show e.results ++ e.hand ++ buffer.queued ++ buffer.arrived = e.course ++ buffer.arrived
    rw [course, harrived, List.append_nil, hqueued]
  refine ⟨fun t ht => ?_, ?_, fun t ht => ?_, ?_⟩
  · rw [hcourse] at ht
    rcases List.mem_append.mp ht with ht | ht
    · rcases List.mem_append.mp ht with ht | ht
      · exact h.counts t (List.mem_append_left _ ht)
      · exact hcounts t ht
    · exact h.counts t (List.mem_append_right _ ht)
  · rw [hcourse, List.map_append, List.pairwise_append]
    refine ⟨h.sorted, hsorted, fun o ho o' ho' => ?_⟩
    obtain ⟨t, ht, rfl⟩ := List.mem_map.mp ho
    obtain ⟨t', ht', rfl⟩ := List.mem_map.mp ho'
    rw [course, harrived, List.append_nil] at ht
    have hle := h.loaded t (List.mem_append_left _ ht)
    have hlt := hahead t' ht'
    omega
  · show (t.ordinal : ℤ) ≤ buffer.lastLoaded
    rw [hlast]
    refine h.loaded t ?_
    rw [← hqueued]
    exact ht
  · show ∀ t ∈ buffer.arrived, buffer.lastLoaded < (t.ordinal : ℤ)
    rw [hlast]
    exact hahead

/-- The result of `_attempt` goes to the buffer. -/
theorem Lined.append (h : Lined issued e) {u : ItemUpdate} (hpoint : e.point = .attempted (some u))
    {todo : List Stmt} (htodo : todo.flatMap (Stmt.tallies e.jobId) = []) :
    Lined issued { e with
      resultBuffer := e.resultBuffer ++ [u], todo := todo, point := .flushed } := by
  have hhand : e.hand = [u.tally] := by
    rw [hand, hpoint]
    rfl
  have hresults : (e.resultBuffer ++ [u]).map ItemUpdate.tally = e.results ++ e.hand := by
    rw [hhand, List.map_append]
    rfl
  refine h.shift ?_ htodo (fun t ht => ?_) h.ahead
  · show (e.resultBuffer ++ [u]).map ItemUpdate.tally ++ [] ++ e.buffer.queued ++
      e.buffer.arrived = e.course
    rw [hresults, List.append_nil, course]
  · refine h.loaded t (List.mem_append_left _ ?_)
    rw [← hresults, ← List.append_nil ((e.resultBuffer ++ [u]).map ItemUpdate.tally)]
    exact ht

/-- The rows of a page. -/
theorem arrived_page {db : Database} {job : Job} (hjob : db.jobs[e.jobId]? = some job)
    (buffer : CandidateBuffer)
    (hload : buffer.loading = some (.ready (db.pendingChunk e.jobId e.accountId
      e.buffer.lastLoaded CandidateBuffer.chunkSize))) :
    (buffer.arrived.map Tally.ordinal).Pairwise (· < ·) ∧
      ∀ t ∈ buffer.arrived, e.buffer.lastLoaded < (t.ordinal : ℤ) ∧
        ∃ r ∈ job.items.rows, r.tally = t := by
  have harrived : buffer.arrived = (db.pendingChunk e.jobId e.accountId e.buffer.lastLoaded
      CandidateBuffer.chunkSize).map fun x => (CandidateBuffer.ofRow x).tally := by
    rw [CandidateBuffer.arrived, hload]
  rw [harrived]
  refine ⟨?_, fun t ht => ?_⟩
  · have hpage := CandidateBuffer.ordinals_pendingChunk hjob e.accountId e.buffer.lastLoaded
      CandidateBuffer.chunkSize
    rw [List.map_map]
    show ((db.pendingChunk e.jobId e.accountId e.buffer.lastLoaded
      CandidateBuffer.chunkSize).map Database.CandidateRow.ordinal).Pairwise (· < ·)
    rw [hpage]
    exact (job.items.pairwise_pendingOrdinals.filter _).sublist (List.take_sublist _ _)
  · obtain ⟨x, hx, rfl⟩ := List.mem_map.mp ht
    obtain ⟨r, hr, hlast, heq⟩ := ofRow_of_mem_pendingChunk hjob hx
    show e.buffer.lastLoaded < ((CandidateBuffer.ofRow x).ordinal : ℤ) ∧
      ∃ r ∈ job.items.rows, r.tally = (CandidateBuffer.ofRow x).tally
    rw [heq]
    exact ⟨hlast, r, (List.mem_filter.mp hr).1, rfl⟩

/-- **One transition** keeps the count, when the rows that have not been loaded have it too. -/
theorem Lined.turn (h : Lined issued e) (ht : Turn env e m out) {job : Job}
    (hjob : env.db.jobs[e.jobId]? = some job)
    (hrows : ∀ r ∈ job.items.rows, e.buffer.lastLoaded < (r.ordinal : ℤ) →
      r.tally.Counts issued) : ∀ e' ∈ out.executor, Lined (issuedAfter issued out.event) e' := by
  intro e' he'
  cases ht with
  | carries hex hc =>
      obtain rfl := Option.some.inj (hex.symm.trans he')
      rw [issuedAfter_of_silent hc.silent]
      exact h.carries hc
  | ends hex => exact absurd (hex.symm.trans he') (by simp)
  | @send deadline a hset hpoint =>
      obtain rfl := Option.some.inj he'
      have hhand : e.hand = [a.tally] := by
        rw [hand, hpoint]
        rfl
      exact h.send hhand rfl rfl (marks_of_settled hset) rfl
  | take hset hpoint htake =>
      obtain rfl := Option.some.inj he'
      refine h.take hset ?_ htake
      rw [hand, hpoint]
      rfl
  | receive hset hload =>
      obtain rfl := Option.some.inj he'
      exact h.receive hset hload
  | read hload =>
      obtain rfl := Option.some.inj he'
      obtain ⟨hsorted, hpage⟩ := arrived_page (e := e) hjob { e.buffer with
        loading := some (.ready (env.db.pendingChunk e.jobId e.accountId
          e.buffer.lastLoaded CandidateBuffer.chunkSize)) } rfl
      refine h.read hload rfl rfl hsorted (fun t ht => (hpage t ht).1) fun t ht => ?_
      obtain ⟨hlast, r, hr, rfl⟩ := hpage t ht
      exact hrows r hr hlast
  | append hset hpoint =>
      obtain rfl := Option.some.inj he'
      exact h.append hpoint rfl

/-! ## What a transition does to what is owed -/

/-- What a transition submits is a tally of the executor. -/
theorem Turn.written (ht : Turn env e m out) : ∀ t ∈ out.tallies e.jobId,
    t ∈ e.results ++ e.hand ++ e.buffer.queued ++ e.marks := by
  intro t hmem
  cases ht with
  | carries hex hc =>
      simp only [List.mem_append]
      exact (hc.written t hmem).imp (fun h => Or.inl (Or.inl h)) id
  | ends hex hw =>
      rw [tallies_of_silent hw] at hmem
      exact absurd hmem (by simp)
  | _ => exact absurd hmem (by simp [tallies_of_silent])

/-- **What is owed is written or still owed**, unless a request interrupts a `_sleep` right after
an RPC. -/
theorem Turn.kept (ht : Turn env e m out) {sent : Bool}
    (hsent : e.interrupts m = true → sent = false) : ∀ e' ∈ out.executor, ∀ t ∈ e.owed sent,
      t ∈ out.tallies e.jobId ∨
        ∃ t' ∈ e'.owed (Event.sentAfter sent out.event), t'.ordinal = t.ordinal := by
  intro e' he' t hmem
  cases ht with
  | carries hex hc =>
      obtain rfl := Option.some.inj (hex.symm.trans he')
      exact (hc.kept sent hsent t hmem).imp_right fun h => ⟨t, h, rfl⟩
  | ends hex => exact absurd (hex.symm.trans he') (by simp)
  | @send deadline a hset hpoint =>
      obtain rfl := Option.some.inj he'
      rw [owed, marks_of_settled hset, List.append_nil] at hmem
      rcases List.mem_append.mp hmem with hmem | hmem
      · exact Or.inr ⟨t, List.mem_append_left _ (List.mem_append_left _ hmem), rfl⟩
      · have hhand := owed_subset_tally e.point sent t hmem
        rw [hpoint] at hhand
        obtain rfl := List.mem_singleton.mp hhand
        exact Or.inr ⟨⟨a.candidate.ordinal, a.attempts + 1⟩, List.mem_append_left _
          (List.mem_append_right _ (List.mem_singleton.mpr rfl)), rfl⟩
  | take hset hpoint htake =>
      obtain rfl := Option.some.inj he'
      rw [owed, hpoint, marks_of_settled hset, List.append_nil] at hmem
      refine Or.inr ⟨t, List.mem_append_left _ (List.mem_append_left _ ?_), rfl⟩
      have hresults : t ∈ e.results := by simpa [Point.owed] using hmem
      exact hresults
  | receive hset hload | read hload =>
      obtain rfl := Option.some.inj he'
      exact Or.inr ⟨t, hmem, rfl⟩
  | @append u hset hpoint =>
      obtain rfl := Option.some.inj he'
      rw [owed, hpoint, marks_of_settled hset, List.append_nil] at hmem
      refine Or.inr ⟨t, List.mem_append_left _ (List.mem_append_left _ ?_), rfl⟩
      rw [results, List.map_append]
      exact hmem

/-- After an RPC its candidate is owed. -/
theorem Turn.sent (ht : Turn env e m out) {rpc : Rpc} (hevent : out.event = some (.sent rpc)) :
    out.write = none ∧ (∃ t ∈ e.hand, t.ordinal = rpc.ordinal) ∧
      ∃ e' ∈ out.executor, ∃ t ∈ e'.owed true, t.ordinal = rpc.ordinal := by
  cases ht with
  | carries hex hc => exact absurd hevent (hc.silent rpc)
  | ends hex hw hsilent => exact absurd hevent (hsilent rpc)
  | @send deadline a hset hpoint =>
      obtain rfl := Event.sent.inj (Option.some.inj hevent)
      refine ⟨rfl, ⟨a.tally, ?_, rfl⟩, _, rfl, ⟨a.candidate.ordinal, a.attempts + 1⟩,
        List.mem_append_left _ (List.mem_append_right _ (List.mem_singleton.mpr rfl)), rfl⟩
      rw [hand, hpoint]
      exact List.mem_singleton.mpr rfl
  | _ => exact absurd hevent (by simp)

/-- A run that ends with an empty buffer owes nothing. -/
theorem Turn.owed_of_ends (ht : Turn env e m out) (hnone : out.executor = none)
    (hresults : e.resultBuffer = []) (sent : Bool) : e.owed sent = [] := by
  cases ht with
  | carries hex hc => exact absurd (hnone.symm.trans hex) (by simp)
  | ends hex hw hevent hset hhand =>
      rw [owed, results, hresults, owed_of_hand hhand, marks_of_settled hset]
      rfl
  | _ => exact absurd hnone (by simp)

/-- The window goes on. -/
theorem Turn.lastLoaded_le (ht : Turn env e m out) (h : Lined issued e) :
    ∀ e' ∈ out.executor, e.buffer.lastLoaded ≤ e'.buffer.lastLoaded := by
  intro e' he'
  cases ht with
  | carries hex hc =>
      obtain rfl := Option.some.inj (hex.symm.trans he')
      exact hc.window.lastLoaded.ge
  | ends hex => exact absurd (hex.symm.trans he') (by simp)
  | take hset hpoint htake =>
      obtain rfl := Option.some.inj he'
      exact (CandidateBuffer.take_eq_some htake).2.1.ge
  | @receive rows hset hload =>
      obtain rfl := Option.some.inj he'
      show e.buffer.lastLoaded ≤ (e.buffer.receive rows).lastLoaded
      rw [CandidateBuffer.receive]
      cases hlast : rows.getLast? with
      | none => exact le_rfl
      | some last =>
          refine (h.ahead (CandidateBuffer.ofRow last).tally ?_).le
          rw [CandidateBuffer.arrived, hload]
          exact List.mem_map_of_mem (List.mem_of_getLast? hlast)
  | _ =>
      obtain rfl := Option.some.inj he'
      exact le_rfl

/-- A run that begins has no tally. -/
theorem lined_new (hbuffer : e.buffer = {}) (hresults : e.resultBuffer = []) (htodo : e.todo = [])
    (hpoint : e.point = .created) : Lined issued e := by
  have hres : e.results = [] := by rw [results, hresults, List.map_nil]
  have hhand : e.hand = [] := by
    rw [hand, hpoint]
    rfl
  have hmarks : e.marks = [] := by rw [marks, htodo, List.flatMap_nil]
  have hqueued : e.buffer.queued = [] := by
    rw [hbuffer]
    rfl
  have harrived : e.buffer.arrived = [] := by
    rw [hbuffer]
    rfl
  refine ⟨?_, ?_, ?_, ?_⟩ <;> simp [course, hres, hhand, hmarks, hqueued, harrived]

end Executor
end Migration
end MigrationStudio
