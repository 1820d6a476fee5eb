import Mathlib.Data.List.Infix
import Mathlib.Data.List.TakeDrop
import MigrationStudio.Jobs.Draining
import MigrationStudio.Migration.Transitions

/-!
# What an executor has still to do

The pending ordinals of the job are, at every moment of a run and in this order, those whose
results wait in the lane, those whose results are in `_result_buffer`, the candidate in hand, the
candidates in the window, and those that have not been read yet.  `Running` states it, and
`Running.transition` proves that every transition of the executor keeps it, whatever the writer
has committed so far.

* `CandidateBuffer.ahead`: the part of the list that the window is responsible for.  The reads of
  the window may come before or after the commits of earlier results and see the same rows.
* `Stmt.Allowed`, `ScriptOk`: the statements that remain are true of the list when they run, before
  or after a background flush.
* `Executor.Starting`: the state up to the commit of RUNNING, where writes of an earlier run of the
  job may still be waiting.
-/

namespace MigrationStudio
namespace Migration

open MigrationStudio.Core Accounts Jobs Telegram Storage

/-! ## The window -/

namespace CandidateBuffer

variable {b b' : CandidateBuffer} {pending q : List ℕ}

/-- The pending ordinals that the window has not read. -/
def unread (b : CandidateBuffer) (pending : List ℕ) : List ℕ :=
  pending.filter fun o : ℕ => b.lastLoaded < (o : ℤ)

/-- The ordinals that `pop` will return, in order. -/
def ahead (b : CandidateBuffer) (pending : List ℕ) : List ℕ :=
  b.queue.map BufferedCandidate.ordinal ++ b.unread pending

/-- The rows that have been read are the next ones, and `exhausted` is true. -/
structure Faithful (b : CandidateBuffer) (pending : List ℕ) : Prop where
  ready : ∀ rows, b.loading = some (.ready rows) →
    rows.map Database.CandidateRow.ordinal = (b.unread pending).take chunkSize
  exhausted : b.exhausted = true → b.unread pending = []

theorem unread_congr (h : b'.lastLoaded = b.lastLoaded) : b'.unread pending = b.unread pending := by
  rw [unread, unread, h]

@[simp] theorem ahead_submitFill : b.submitFill.ahead pending = b.ahead pending := by
  simp [ahead, unread]

theorem Faithful.submitFill (h : b.Faithful pending) : b.submitFill.Faithful pending := by
  refine ⟨fun rows hrows => ?_, fun hexh => ?_⟩
  · rw [unread_congr (lastLoaded_submitFill b)]
    rcases loading_submitFill b with hsame | ⟨-, hnew⟩
    · exact h.ready rows (hsame ▸ hrows)
    · exact absurd (hnew.symm.trans hrows) (by simp)
  · rw [unread_congr (lastLoaded_submitFill b)]
    exact h.exhausted (exhausted_submitFill b ▸ hexh)

/-- The worker reads the next rows. -/
theorem ordinals_pendingChunk {db : Database} {id : JobId} {job : Job}
    (hjob : db.jobs[id]? = some job) (account : AccountId) (last : ℤ) (limit : ℕ) :
    (db.pendingChunk id account last limit).map Database.CandidateRow.ordinal =
      (job.pending.filter fun o : ℕ => last < (o : ℤ)).take limit := by
  rw [Database.pendingChunk, hjob]
  simp only [List.map_map, Job.pending, ItemTable.pendingOrdinals, List.filter_map, List.map_take]
  rfl

theorem Faithful.read (h : b.Faithful pending) {rows : List Database.CandidateRow}
    (hrows : rows.map Database.CandidateRow.ordinal = (b.unread pending).take chunkSize) :
    { b with loading := some (.ready rows) }.Faithful pending := by
  refine ⟨fun rows' h' => ?_, h.exhausted⟩
  obtain rfl := Loading.ready.inj (Option.some.inj h')
  exact hrows

/-- What lies above the last of the first elements of an increasing list is the rest of it. -/
theorem filter_getLast_take {l : List ℕ} (hl : l.Pairwise (· < ·)) {n last : ℕ}
    (hlast : (l.take n).getLast? = some last) : l.filter (fun o => last < o) = l.drop n := by
  obtain ⟨front, hfront⟩ := List.getLast?_eq_some_iff.mp hlast
  have hsplit : l = front ++ [last] ++ l.drop n := by
    rw [← hfront, List.take_append_drop]
  generalize l.drop n = rest at hsplit
  subst hsplit
  rw [List.append_assoc, List.pairwise_append, List.singleton_append, List.pairwise_cons] at hl
  obtain ⟨-, ⟨habove, -⟩, hbelow⟩ := hl
  have hfront' : front.filter (fun o => last < o) = [] := by
    rw [List.filter_eq_nil_iff]
    intro o ho
    simpa using (hbelow o ho last (List.mem_cons_self ..)).le
  have hrest : rest.filter (fun o => last < o) = rest := by
    rw [List.filter_eq_self]
    exact fun o ho => by simpa using habove o ho
  simp [List.filter_append, hfront', hrest]

/-- The rows arrive. -/
theorem Faithful.receive (h : b.Faithful pending) (hsorted : pending.Pairwise (· < ·))
    {rows : List Database.CandidateRow} (hload : b.loading = some (.ready rows)) :
    (b.receive rows).ahead pending = b.ahead pending ∧ (b.receive rows).Faithful pending := by
  have hrows := h.ready rows hload
  rw [CandidateBuffer.receive]
  cases hlast : rows.getLast? with
  | none =>
      rw [List.getLast?_eq_none_iff] at hlast
      subst hlast
      have hnil : b.unread pending = [] := by
        rw [List.map_nil, eq_comm, List.take_eq_nil_iff] at hrows
        exact hrows.resolve_left chunkSize_pos.ne'
      exact ⟨rfl, fun rows' h' => absurd h' (by simp), fun _ => hnil⟩
  | some last =>
      have hmap : ((b.unread pending).take chunkSize).getLast? = some last.ordinal := by
        rw [← hrows, List.getLast?_map, hlast]
        rfl
      have hmem : last.ordinal ∈ b.unread pending :=
        List.mem_of_mem_take (List.mem_of_getLast? hmap)
      have habove : b.lastLoaded < (last.ordinal : ℤ) := by
        simpa using (List.mem_filter.mp hmem).2
      have hdrop := filter_getLast_take (l := b.unread pending) (hsorted.filter _) hmap
      have hunread : pending.filter (fun o : ℕ => (last.ordinal : ℤ) < (o : ℤ)) =
          (b.unread pending).drop chunkSize := by
        rw [← hdrop, unread, List.filter_filter]
        refine List.filter_congr fun o _ => ?_
        rw [← Bool.decide_and]
        exact decide_eq_decide.mpr ⟨fun ho => ⟨by omega, by omega⟩, fun ho => by omega⟩
      refine ⟨?_, fun rows' h' => absurd h' (by simp), fun hexh => ?_⟩
      · simp only [ahead, unread, List.map_append, List.map_map, List.append_assoc]
        rw [hunread]
        have hcand : rows.map (BufferedCandidate.ordinal ∘ ofRow) =
            (b.unread pending).take chunkSize := hrows
        rw [hcand, List.take_append_drop]
        rfl
      · have hnil := h.exhausted hexh
        rw [hnil] at hmem
        exact absurd hmem (by simp)

/-- `pop` returns the first of them. -/
theorem Faithful.take (h : b.Faithful pending) {item : BufferedCandidate}
    (htake : b.take = some (item, b')) :
    b.ahead pending = item.ordinal :: b'.ahead pending ∧ b'.Faithful pending := by
  obtain ⟨hqueue, hlast, hexh, hload⟩ := take_eq_some htake
  refine ⟨?_, fun rows hrows => ?_, fun hexh' => ?_⟩
  · rw [ahead, ahead, unread_congr hlast, hqueue, List.map_cons, List.cons_append]
  · rw [unread_congr hlast]
    rcases hload with hsame | ⟨-, hnew⟩
    · exact h.ready rows (hsame ▸ hrows)
    · exact absurd (hnew.symm.trans hrows) (by simp)
  · rw [unread_congr hlast]
    exact h.exhausted (hexh ▸ hexh')

/-- A commit takes ordinals off the front, and not those ahead of the window. -/
theorem unread_of_suffix (hq : q <:+ pending) (hnodup : pending.Nodup)
    (hmem : ∀ o ∈ b.unread pending, o ∈ q) : b.unread q = b.unread pending := by
  obtain ⟨front, rfl⟩ := hq
  have hfront : front.filter (fun o : ℕ => b.lastLoaded < (o : ℤ)) = [] := by
    rw [List.filter_eq_nil_iff]
    intro o ho hlast
    have hin : o ∈ b.unread (front ++ q) :=
      List.mem_filter.mpr ⟨List.mem_append_left _ ho, hlast⟩
    exact (List.nodup_append.mp hnodup).2.2 o ho o (hmem o hin) rfl
  rw [unread, unread, List.filter_append, hfront, List.nil_append]

theorem Faithful.of_unread (h : b.Faithful pending) (heq : b.unread q = b.unread pending) :
    b.Faithful q :=
  ⟨fun rows hrows => heq ▸ h.ready rows hrows, fun hexh => heq ▸ h.exhausted hexh⟩

end CandidateBuffer

/-! ## The statements that remain -/

variable {id : JobId} {buf rest : List ℕ} {p : Point} {todo : List Stmt}

/-- What the point promises when its statements are done: a run that ends leaves no result behind,
and a run that ends naturally leaves no candidate. -/
def Point.Ends (p : Point) (buf rest : List ℕ) : Prop :=
  match p with
  | .prime | .returned none | .attempted none | .leave | .failed => buf = []
  | .summary | .publish _ _ => buf = [] ∧ rest = []
  | _ => True

theorem Point.Ends.nil (h : p.Ends buf rest) : p.Ends [] rest := by
  cases p with
  | summary | publish summary final => exact ⟨rfl, h.2⟩
  | returned r | attempted r => cases r with
    | none => exact rfl
    | some u => exact h
  | prime | leave | failed => exact rfl
  | _ => exact h

/-- The statement may run before or after the results in the buffer are flushed. -/
def Stmt.Allowed (id : JobId) (buf rest : List ℕ) : Stmt → Prop
  | .flush _ => False
  | .write w => ∀ jw ∈ w.ofJob id, Consumes jw rest rest ∧ Consumes jw (buf ++ rest) (buf ++ rest)
  | .pauseAccount => True

theorem Stmt.Allowed.nil {st : Stmt} (h : st.Allowed id buf rest) : st.Allowed id [] rest := by
  cases st with
  | flush force => exact h
  | write w => exact fun jw hjw => ⟨(h jw hjw).1, (h jw hjw).1⟩
  | pauseAccount => exact h

/-- Statements without a flush. -/
def WritesOk (id : JobId) (p : Point) (buf rest : List ℕ) (todo : List Stmt) : Prop :=
  (∀ st ∈ todo, st.Allowed id buf rest) ∧ p.Ends buf rest

/-- Statements that may begin with a flush. -/
def ScriptOk (id : JobId) (p : Point) (buf rest : List ℕ) : List Stmt → Prop
  | .flush force :: todo =>
      WritesOk id p [] rest todo ∧ (force = false → WritesOk id p buf rest todo)
  | todo => WritesOk id p buf rest todo

theorem WritesOk.nil (h : WritesOk id p buf rest todo) : WritesOk id p [] rest todo :=
  ⟨fun st hst => (h.1 st hst).nil, h.2.nil⟩

theorem WritesOk.tail {st : Stmt} (h : WritesOk id p buf rest (st :: todo)) :
    WritesOk id p buf rest todo :=
  ⟨fun st' hst => h.1 st' (List.mem_cons_of_mem _ hst), h.2⟩

theorem WritesOk.allowed {st : Stmt} (h : WritesOk id p buf rest todo) (hst : st ∈ todo) :
    st.Allowed id buf rest :=
  h.1 st hst

theorem WritesOk.script (h : WritesOk id p buf rest todo) : ScriptOk id p buf rest todo := by
  cases todo with
  | nil => exact h
  | cons st todo =>
      cases st with
      | flush force => exact (h.1 _ (List.mem_cons_self ..)).elim
      | write w => exact h
      | pauseAccount => exact h

theorem ScriptOk.nil (h : ScriptOk id p buf rest todo) : ScriptOk id p [] rest todo := by
  cases todo with
  | nil => exact WritesOk.nil h
  | cons st todo =>
      cases st with
      | flush force => exact ⟨h.1, fun _ => h.1⟩
      | write w => exact WritesOk.nil h
      | pauseAccount => exact WritesOk.nil h

theorem scriptOk_flush (h : WritesOk id p [] rest todo) :
    ScriptOk id p buf rest (.flush true :: todo) :=
  ⟨h, fun hf => absurd hf (by simp)⟩

theorem writesOk_nil (h : p.Ends buf rest) : WritesOk id p buf rest [] :=
  ⟨fun st hst => absurd hst (by simp), h⟩

theorem writesOk_cons {st : Stmt} (hst : st.Allowed id buf rest)
    (h : WritesOk id p buf rest todo) : WritesOk id p buf rest (st :: todo) := by
  refine ⟨fun st' hst' => ?_, h.2⟩
  rcases List.mem_cons.mp hst' with rfl | hst'
  · exact hst
  · exact h.1 st' hst'

/-- The writes of the executor's job among what a transition submits. -/
def Outcome.jobWrites (out : Outcome) (id : JobId) : List JobWrite :=
  (out.write.bind (LaneWrite.ofJob id)).toList

theorem Outcome.jobWrites_of_silent {out : Outcome} (h : out.write = none) (id : JobId) :
    out.jobWrites id = [] := by
  rw [jobWrites, h]
  rfl

/-- A transition submits one write at most. -/
theorem Outcome.jobWrites_cases (out : Outcome) (id : JobId) :
    out.jobWrites id = [] ∨ ∃ jw, out.jobWrites id = [jw] := by
  rw [jobWrites]
  cases out.write.bind (LaneWrite.ofJob id) with
  | none => exact Or.inl rfl
  | some jw => exact Or.inr ⟨jw, rfl⟩

/-! ## The executor -/

/-- The ordinal of the candidate in hand, while it is decided that the run goes on. -/
def Point.current : Point → Option (List ℕ)
  | .prime | .acquire | .loop | .pop | .flushed => some []
  | .wait _ a | .sleeping _ _ a | .rpc a => some [a.candidate.ordinal]
  | .returned (some u) | .attempted (some u) => some [u.ordinal]
  | _ => none

/-- The update that `_attempt` returns. -/
def Point.result : Point → Option ItemUpdate
  | .returned r | .attempted r => r
  | _ => none

namespace Executor

variable {env : Env} {e : Executor} {m : Move} {out : Outcome} {pending : List ℕ}
  {ws : List JobWrite}

/-- The ordinals of the results in the buffer. -/
def buffered (e : Executor) : List ℕ := e.resultBuffer.map ItemUpdate.ordinal

/-- **The order of the pending ordinals.**  First those of the results `ws` that wait in the lane,
then those of the result buffer, then `rest`: the candidate in hand, the window, and what has not
been read. -/
structure Running (pending : List ℕ) (ws : List JobWrite) (e : Executor) (rest : List ℕ) :
    Prop where
  lane : Drains ws pending (e.buffered ++ rest)
  script : ScriptOk e.jobId e.point e.buffered rest e.todo
  awaits : e.awaiting ≠ none → WritesOk e.jobId e.point e.buffered rest e.todo
  rpc : ∀ a, e.point = .rpc a → e.Settled
  window : ∀ c ∈ e.point.current,
    rest = c ++ e.buffer.ahead pending ∧ e.buffer.Faithful pending
  results : ∀ u ∈ e.resultBuffer, u.state.pending = false
  result : ∀ u ∈ e.point.result, u.state.pending = false
  started : e.point ≠ .created

/-- A flush submits the whole buffer. -/
theorem jobWrites_flush {id : JobId} (hid : e.jobId = id) (hw : out.write = some e.flushWrite) :
    ∃ c, out.jobWrites id = [.updateItems e.resultBuffer c] := by
  rw [Outcome.jobWrites, hw, Option.bind_some, flushWrite, LaneWrite.ofJob, if_pos hid,
    Option.toList_some]
  exact ⟨_, rfl⟩

/-! ### The statements of the executor -/

theorem allowed_setJob (e : Executor) {state : JobState} {wait : Option ℕ}
    {c : Option Checkpoint} {clear : Bool} (hc : ∀ c' ∈ c, Job.CheckpointBelow c' (buf ++ rest))
    (hs : Job.Complete state → buf ++ rest = []) :
    (e.setJob state wait c clear).Allowed e.jobId buf rest := by
  intro jw hjw
  rw [LaneWrite.ofJob, if_pos rfl] at hjw
  obtain rfl := Option.some.inj hjw
  exact ⟨⟨rfl, fun c' hc' => (hc c' hc').of_suffix fun o ho => List.mem_append_right _ ho,
    fun hcomplete => (List.append_eq_nil_iff.mp (hs hcomplete)).2⟩, rfl, hc, hs⟩

theorem allowed_setState (e : Executor) {state : JobState} {wait : Option ℕ} {clear : Bool}
    (hs : ¬ Job.Complete state) : (e.setJob state wait none clear).Allowed e.jobId buf rest :=
  allowed_setJob e (fun _ hc => absurd hc (by simp)) fun h => absurd h hs

theorem allowed_setAccount (e : Executor) (state : AccountState) (error : Option String) :
    (e.setAccount state error).Allowed e.jobId buf rest :=
  fun _ h => absurd h (by simp [LaneWrite.ofJob])

theorem allowed_markRetry {o n : ℕ} {code : Option InviteResultCode} {text : Option String}
    {nextAt : Option ℕ} (ho : o ∈ rest) :
    (Stmt.write (.job id (.markRetry o n code text nextAt))).Allowed id buf rest := by
  intro jw hjw
  rw [LaneWrite.ofJob, if_pos rfl] at hjw
  obtain rfl := Option.some.inj hjw
  exact ⟨⟨ho, rfl⟩, List.mem_append_right _ ho, rfl⟩

theorem allowed_event {level code message : String} {member : Option ℤ} :
    (Stmt.write (.job id (.event level code message member))).Allowed id buf rest := by
  intro jw hjw
  rw [LaneWrite.ofJob, if_pos rfl] at hjw
  obtain rfl := Option.some.inj hjw
  exact ⟨rfl, rfl⟩

/-- The `last_ordinal` before the first of the rest. -/
theorem checkpointBelow_cons {o : ℕ} (hsorted : (o :: rest).Pairwise (· < ·)) :
    ∀ c ∈ some (lastOrdinal ((o : ℤ) - 1)), Job.CheckpointBelow c ([] ++ o :: rest) := by
  intro c hc k hk i hi
  obtain rfl := Option.some.inj hc
  obtain rfl := Option.some.inj hk
  rcases List.mem_cons.mp hi with rfl | hi
  · omega
  · have hlt := List.rel_of_pairwise_cons hsorted hi
    omega

theorem scriptOk_handleControl (e : Executor) (c : Control) (h : p.Ends [] rest) :
    ScriptOk e.jobId p buf rest (e.handleControl c) := by
  cases c with
  | stop =>
      exact scriptOk_flush (writesOk_cons (allowed_setState e (by decide))
        (writesOk_cons (allowed_setAccount e _ _) (writesOk_nil h)))
  | pause =>
      exact scriptOk_flush (writesOk_cons (allowed_setState e (by decide))
        (writesOk_cons trivial (writesOk_nil h)))

theorem scriptOk_floodScript (e : Executor) (now : ℕ) (a : Attempt) (error : DomainError)
    (hsorted : (a.candidate.ordinal :: rest).Pairwise (· < ·)) (k : SleepFor) :
    ScriptOk e.jobId (.wait k a) buf (a.candidate.ordinal :: rest)
      (e.floodScript now a error) :=
  scriptOk_flush (writesOk_cons (allowed_markRetry (List.mem_cons_self ..))
    (writesOk_cons (allowed_setAccount e _ _)
      (writesOk_cons (allowed_setJob e (checkpointBelow_cons hsorted) fun h => absurd h (by decide))
        (writesOk_cons allowed_event (writesOk_nil trivial)))))

theorem scriptOk_indefiniteScript (e : Executor) (a : Attempt) (error : DomainError)
    (hsorted : (a.candidate.ordinal :: rest).Pairwise (· < ·)) :
    ScriptOk e.jobId (.returned none) buf (a.candidate.ordinal :: rest)
      (e.indefiniteScript a error) :=
  scriptOk_flush (writesOk_cons (allowed_markRetry (List.mem_cons_self ..))
    (writesOk_cons (allowed_setJob e (checkpointBelow_cons hsorted) fun h => absurd h (by decide))
      (writesOk_cons (allowed_setAccount e _ _)
        (writesOk_cons allowed_event (writesOk_nil rfl)))))

theorem scriptOk_pauseScript (e : Executor) (a : Attempt) (error : DomainError)
    (hsorted : (a.candidate.ordinal :: rest).Pairwise (· < ·)) :
    ScriptOk e.jobId (.returned none) buf (a.candidate.ordinal :: rest)
      (e.pauseScript a error) :=
  scriptOk_flush (writesOk_cons (allowed_markRetry (List.mem_cons_self ..))
    (writesOk_cons (allowed_setJob e (checkpointBelow_cons hsorted) fun h => absurd h (by decide))
      (writesOk_cons (allowed_setAccount e _ _) (writesOk_nil rfl))))

theorem scriptOk_raise {e' : Executor} {message : String} (buf rest : List ℕ)
    (h : e.raise message = some e') :
    e' = { e with awaiting := none, todo := e'.todo, point := .failed } ∧
      ScriptOk e.jobId .failed buf rest e'.todo := by
  rw [Executor.raise] at h
  split at h
  · exact absurd h (by simp)
  · exact absurd h (by simp)
  · exact absurd h (by simp)
  · obtain rfl := Option.some.inj h
    exact ⟨rfl, scriptOk_flush (writesOk_cons (allowed_setState e (by decide))
      (writesOk_cons (allowed_setAccount e _ _) (writesOk_nil rfl)))⟩

/-! ### One transition -/

variable {rest : List ℕ}

/-- The results in the buffer go to the lane, before everything that is left. -/
theorem Running.consumes_flush (h : Running pending ws e rest) (hsorted : pending.Pairwise (· < ·))
    (hdue : e.resultBuffer ≠ []) :
    ∃ w, e.flushWrite = .job e.jobId w ∧ Drains (ws ++ [w]) pending rest := by
  refine ⟨_, rfl, h.lane.snoc ⟨hdue, h.results, rfl, fun c hc k hk o ho => ?_⟩⟩
  obtain ⟨u, hu, rfl⟩ := Option.map_eq_some_iff.mp hc
  obtain rfl := Option.some.inj hk
  have hall := hsorted.sublist h.lane.suffix.sublist
  rw [List.pairwise_append] at hall
  exact Int.ofNat_lt.mpr
    (hall.2.2 u.ordinal (List.mem_map_of_mem (List.mem_of_getLast? hu)) o ho)

/-- A flush that is due or forced and finds nothing. -/
theorem resultBuffer_of_flushDue {mono : ℕ} {force : Bool}
    (h : e.flushDue mono force = false) (hforce : force = true) : e.resultBuffer = [] := by
  subst hforce
  by_contra hne
  rw [(flushDue_true e mono).mpr hne] at h
  exact Bool.noConfusion h

/-- The conclusion of `Running.transition`: the executor goes on, or it ends with an empty
buffer. -/
def RunsOn (pending : List ℕ) (ws : List JobWrite) : Option Executor → Prop
  | some e => ∃ rest, Running pending ws e rest
  | none => ∃ rest, Drains ws pending rest

theorem Running.ends (h : Running pending ws e rest) (hset : e.Settled) :
    e.point.Ends e.buffered rest := by
  have hscript := h.script
  rw [hset.2] at hscript
  exact hscript.2

/-- A script flushes at its beginning only. -/
theorem Running.no_flush (h : Running pending ws e rest) {st : Stmt} {todo : List Stmt}
    (htodo : e.todo = st :: todo) (force : Bool) : .flush force ∉ todo := by
  have hscript := h.script
  rw [htodo] at hscript
  have hnever : ∀ {buf : List ℕ}, (∀ st ∈ todo, st.Allowed e.jobId buf rest) →
      .flush force ∉ todo := fun hall hmem => hall _ hmem
  cases st with
  | flush force' => exact hnever hscript.1.1
  | write w => exact hnever fun st hst => hscript.1 st (List.mem_cons_of_mem _ hst)
  | pauseAccount => exact hnever fun st hst => hscript.1 st (List.mem_cons_of_mem _ hst)

/-- What the point promises holds from the last flush on. -/
theorem Running.ends_of_no_flush (h : Running pending ws e rest)
    (hnone : ∀ force, .flush force ∉ e.todo) : e.point.Ends e.buffered rest := by
  have hscript := h.script
  cases htodo : e.todo with
  | nil =>
      rw [htodo] at hscript
      exact hscript.2
  | cons st todo =>
      rw [htodo] at hscript hnone
      cases st with
      | flush force => exact absurd (List.mem_cons_self ..) (hnone force)
      | write w => exact hscript.2
      | pauseAccount => exact hscript.2

/-- A transition that goes to another point, and leaves the results and the window alone. -/
theorem Running.move (h : Running pending ws e rest) {e' : Executor} (hid : e'.jobId = e.jobId)
    (hresults : e'.resultBuffer = e.resultBuffer) (hbuffer : e'.buffer = e.buffer)
    (haw : e'.awaiting = none) (hscript : ScriptOk e.jobId e'.point e.buffered rest e'.todo)
    (hcurrent : ∀ c ∈ e'.point.current, c ∈ e.point.current)
    (hrpc : ∀ a, e'.point = .rpc a → e'.todo = [])
    (hresult : ∀ u ∈ e'.point.result, u.state.pending = false)
    (hstarted : e'.point ≠ .created) : RunsOn pending ws (some e') := by
  have hbuf : e'.buffered = e.buffered := by rw [buffered, buffered, hresults]
  exact ⟨rest, hbuf ▸ h.lane, hid ▸ hbuf ▸ hscript, fun hne => absurd haw hne,
    fun a ha => ⟨haw, hrpc a ha⟩, fun c hc => hbuffer ▸ h.window c (hcurrent c hc),
    hresults ▸ h.results, hresult, hstarted⟩

/-- A transition that only goes to another point. -/
theorem Running.goTo (h : Running pending ws e rest) (hset : e.Settled) {e' : Executor}
    (hid : e'.jobId = e.jobId) (hresults : e'.resultBuffer = e.resultBuffer)
    (hbuffer : e'.buffer = e.buffer) (haw : e'.awaiting = e.awaiting) (htodo : e'.todo = e.todo)
    (hends : e'.point.Ends e.buffered rest)
    (hcurrent : ∀ c ∈ e'.point.current, c ∈ e.point.current)
    (hresult : ∀ u ∈ e'.point.result, u.state.pending = false)
    (hstarted : e'.point ≠ .created) : RunsOn pending ws (some e') := by
  have hnil : e'.todo = [] := htodo.trans hset.2
  refine h.move hid hresults hbuffer (haw.trans hset.1) ?_ hcurrent (fun _ _ => hnil) hresult
    hstarted
  rw [hnil]
  exact writesOk_nil hends

theorem RunsOn.of_no_write (h : RunsOn pending ws out.executor) (hw : out.write = none) :
    RunsOn pending (ws ++ out.jobWrites e.jobId) out.executor := by
  rw [Outcome.jobWrites_of_silent hw, List.append_nil]
  exact h

/-- A transition of the background flush or of a command, which changes no statement. -/
theorem Running.same (h : Running pending ws e rest) {e' : Executor} (hid : e'.jobId = e.jobId)
    (hresults : e'.resultBuffer = e.resultBuffer) (hbuffer : e'.buffer = e.buffer)
    (haw : e'.awaiting = e.awaiting) (htodo : e'.todo = e.todo) (hpoint : e'.point = e.point) :
    RunsOn pending ws (some e') := by
  have hbuf : e'.buffered = e.buffered := by rw [buffered, buffered, hresults]
  refine ⟨rest, hbuf ▸ h.lane, ?_, ?_, ?_, ?_, hresults ▸ h.results, hpoint ▸ h.result,
    hpoint ▸ h.started⟩
  · rw [hid, hpoint, hbuf, htodo]
    exact h.script
  · rw [hid, hpoint, hbuf, htodo, haw]
    exact h.awaits
  · rw [hpoint, Settled, haw, htodo]
    exact h.rpc
  · rw [hpoint, hbuffer]
    exact h.window

/-- A write of the script. -/
theorem Running.writes (h : Running pending ws e rest) {st : Stmt} {todo : List Stmt}
    (htodo : e.todo = st :: todo) (hst : ∀ force, st ≠ .flush force) {w : LaneWrite}
    (hw : ∀ jw ∈ w.ofJob e.jobId, st = .write w) (future : ℕ) :
    RunsOn pending (ws ++ (w.ofJob e.jobId).toList)
      (some ({ e with todo := todo }.await future false)) := by
  have hscript : WritesOk e.jobId e.point e.buffered rest (st :: todo) := by
    have hs := h.script
    rw [htodo] at hs
    cases st with
    | flush force => exact absurd rfl (hst force)
    | write w => exact hs
    | pauseAccount => exact hs
  refine ⟨rest, ?_, hscript.tail.script, fun _ => hscript.tail, fun a ha => ?_, h.window,
    h.results, h.result, h.started⟩
  · cases hjob : w.ofJob e.jobId with
    | none =>
        rw [Option.toList_none, List.append_nil]
        exact h.lane
    | some jw =>
        have hallowed := hscript.1 st (List.mem_cons_self ..)
        rw [hw jw hjob] at hallowed
        exact h.lane.snoc (hallowed jw hjob).2
  · exact absurd (htodo.symm.trans (h.rpc a ha).2) (by simp)

/-- A new window, between the statements. -/
theorem Running.load (h : Running pending ws e rest) {b : CandidateBuffer}
    (hb : ∀ c ∈ e.point.current, e.buffer.Faithful pending →
      b.ahead pending = e.buffer.ahead pending ∧ b.Faithful pending) :
    RunsOn pending ws (some { e with buffer := b }) := by
  refine ⟨rest, h.lane, h.script, h.awaits, h.rpc, fun c hc => ?_, h.results, h.result,
    h.started⟩
  obtain ⟨hrest, hfaithful⟩ := h.window c hc
  obtain ⟨hahead, hfaithful'⟩ := hb c hc hfaithful
  exact ⟨hahead ▸ hrest, hfaithful'⟩

theorem enter_cases (item : BufferedCandidate) :
    (∃ u, enter item = .returned (some u) ∧ u.ordinal = item.ordinal ∧
      u.state.pending = false) ∨
      ∃ a, enter item = .wait .attempt a ∧ a.candidate = item := by
  rw [enter]
  split
  · exact Or.inl ⟨_, rfl, rfl, rfl⟩
  · exact Or.inr ⟨_, rfl, rfl⟩

/-- **One transition keeps the order of the pending ordinals.** -/
theorem Running.transition (h : Running pending ws e rest) (hsorted : pending.Pairwise (· < ·))
    (hread : (env.db.pendingChunk e.jobId e.accountId e.buffer.lastLoaded
        CandidateBuffer.chunkSize).map Database.CandidateRow.ordinal =
      (e.buffer.unread pending).take CandidateBuffer.chunkSize)
    (ht : Transition env e m out) :
    RunsOn pending (ws ++ out.jobWrites e.jobId) out.executor := by
  have hrest : rest.Pairwise (· < ·) :=
    hsorted.sublist (((List.suffix_append _ _).trans h.lane.suffix).sublist)
  have hrpc : ∀ {a}, e.point = .rpc a → e.Settled := fun ha => h.rpc _ ha
  have hcand : ∀ {a}, e.point = .rpc a → ∃ rest', rest = a.candidate.ordinal :: rest' := by
    intro a ha
    have hc : [a.candidate.ordinal] ∈ e.point.current := by rw [ha]; rfl
    exact ⟨_, (h.window _ hc).1⟩
  cases ht with
  | flushWrite haw htodo hdue =>
      have hscript := h.script
      rw [htodo] at hscript
      have hne : e.resultBuffer ≠ [] := by
        intro hnil
        simp [flushDue, hnil] at hdue
      obtain ⟨w, hw, hlane⟩ := h.consumes_flush hsorted hne
      refine ⟨rest, ?_, hscript.1.script, fun _ => hscript.1, fun a ha => ?_, h.window,
        fun u hu => absurd hu (by simp [await]), h.result, h.started⟩
      · rw [Outcome.jobWrites, hw]
        simpa [LaneWrite.ofJob, buffered, await] using hlane
      · exact absurd (htodo.symm.trans (hrpc ha).2) (by simp)
  | @flushSkip force todo haw htodo hdue =>
      have hscript := h.script
      rw [htodo] at hscript
      have hwrites : WritesOk e.jobId e.point e.buffered rest todo := by
        cases force with
        | false => exact hscript.2 rfl
        | true =>
            rw [buffered, resultBuffer_of_flushDue hdue rfl]
            exact hscript.1
      exact RunsOn.of_no_write (h.move rfl rfl rfl haw hwrites.script (fun _ hc => hc)
        (fun a ha => absurd (htodo.symm.trans (hrpc ha).2) (by simp)) h.result
        h.started) rfl
  | write haw htodo => exact h.writes htodo (by simp) (fun _ _ => rfl) _
  | pauseAccount haw htodo state =>
      exact h.writes (w := .account e.accountId state none) htodo (by simp)
        (fun jw hjw => absurd hjw (by simp [LaneWrite.ofJob])) _
  | resumed haw lastFlush =>
      exact RunsOn.of_no_write (h.move rfl rfl rfl rfl
        h.script (fun _ hc => hc) (fun a ha => (hrpc ha).2) h.result h.started) rfl
  | raised haw message =>
      refine RunsOn.of_no_write ?_ rfl
      cases hraise : e.raise message with
      | none => exact ⟨_, h.lane⟩
      | some e' =>
          obtain ⟨heq, hscript⟩ := scriptOk_raise e.buffered rest hraise
          rw [heq]
          exact h.move rfl rfl rfl rfl hscript (by simp [Point.current]) (by simp)
            (by simp [Point.result]) (by simp)
  | begin hset hpoint => exact absurd hpoint h.started
  | primeFill hset hpoint hqueue hexh hload =>
      exact RunsOn.of_no_write (h.load fun _ _ hf =>
        ⟨CandidateBuffer.ahead_submitFill, hf.submitFill⟩) rfl
  | primeReceive hset hpoint hqueue hload =>
      exact RunsOn.of_no_write (h.load fun _ _ hf => hf.receive hsorted hload) rfl
  | primed hset hpoint | acquire hset hpoint | loopPop hset hpoint | sleep hset hpoint
  | send hset hpoint | retry hset hpoint | flushed hset hpoint =>
      refine RunsOn.of_no_write
        (h.goTo hset rfl rfl rfl rfl rfl trivial ?_ ?_ (by simp)) rfl
      · simp [Point.current, hpoint]
      · simp [Point.result]
  | loopControl hset hpoint c hc =>
      exact RunsOn.of_no_write (h.move rfl rfl rfl hset.1
        (scriptOk_handleControl e c rfl) (by simp [Point.current]) (by simp)
        (by simp [Point.result]) (by simp)) rfl
  | @take item buffer hset hpoint htake =>
      obtain ⟨hahead, hfaithful⟩ := h.window [] (by rw [hpoint]; rfl)
      obtain ⟨htail, hfaithful'⟩ := hfaithful.take htake
      have hnew : ∀ p : Point, enter item = p → p.current = some [item.ordinal] →
          p.Ends e.buffered rest → (∀ a, p ≠ .rpc a) → (∀ u ∈ p.result, u.state.pending = false) →
          p ≠ .created →
            RunsOn pending ws (some { e with buffer := buffer, point := enter item }) := by
        rintro p rfl hcurrent hends hrpc' hresult hstarted
        refine ⟨rest, h.lane, hset.2 ▸ writesOk_nil hends, fun hne => absurd hset.1 hne,
          fun a ha => absurd ha (hrpc' a), fun c hc => ?_, h.results, hresult, hstarted⟩
        obtain rfl := Option.some.inj (hcurrent.symm.trans hc)
        exact ⟨hahead.trans htail, hfaithful'⟩
      refine RunsOn.of_no_write ?_ rfl
      rcases enter_cases item with ⟨u, hu, hord, hfinal⟩ | ⟨a, ha, rfl⟩
      · exact hnew _ hu (by simp [Point.current, hord]) trivial (by simp)
          (by simpa [Point.result] using hfinal) (by simp)
      · exact hnew _ ha rfl trivial (by simp) (by simp [Point.result]) (by simp)
  | popReceive hset hpoint hqueue hload =>
      exact RunsOn.of_no_write (h.load fun _ _ hf => hf.receive hsorted hload) rfl
  | popFill hset hpoint hqueue hload hexh =>
      exact RunsOn.of_no_write (h.load fun _ _ hf =>
        ⟨CandidateBuffer.ahead_submitFill, hf.submitFill⟩) rfl
  | popEnd hset hpoint hqueue hload hexh =>
      obtain ⟨hahead, hfaithful⟩ := h.window [] (by rw [hpoint]; rfl)
      have hnil : rest = [] := by
        rw [hahead, CandidateBuffer.ahead, hqueue, hfaithful.exhausted hexh]
        rfl
      exact RunsOn.of_no_write (h.move rfl rfl rfl hset.1
        (scriptOk_flush (writesOk_nil ⟨rfl, hnil⟩)) (by simp [Point.current]) (by simp)
        (by simp [Point.result]) (by simp)) rfl
  | interrupt hset hpoint c hc =>
      refine RunsOn.of_no_write
        (h.move rfl rfl rfl hset.1 (scriptOk_handleControl e c rfl) ?_ ?_ ?_ ?_) rfl
      · simp [Point.current, interrupted]
      · simp [interrupted]
      · simp [Point.result, interrupted]
      · simp [interrupted]
  | waited hset hpoint hc hnow =>
      exact RunsOn.of_no_write (h.move rfl rfl rfl hset.1 (writesOk_cons
        (allowed_setState e (by decide)) (writesOk_cons (allowed_setAccount e _ _)
          (writesOk_nil trivial)))
        (by simp [Point.current, hpoint]) (by simp) (by simp [Point.result]) (by simp)) rfl
  | giveUp hset hpoint =>
      refine RunsOn.of_no_write
        (h.goTo hset rfl rfl rfl rfl rfl trivial ?_ ?_ (by simp)) rfl
      · simp [Point.current, Attempt.update, hpoint]
      · simp [Point.result, Attempt.update, MigrationItemState.pending]
  | succeeded hpoint | transient hpoint | exhausted hpoint =>
      refine RunsOn.of_no_write
        (h.goTo (hrpc hpoint) rfl rfl rfl rfl rfl trivial ?_ ?_ (by simp)) rfl
      · simp [Point.current, Attempt.update, hpoint]
      · simp [Point.result, Attempt.update, MigrationItemState.pending]
  | final hpoint hfinal hpause =>
      refine RunsOn.of_no_write
        (h.goTo (hrpc hpoint) rfl rfl rfl rfl rfl trivial ?_ ?_ (by simp)) rfl
      · simp [Point.current, Attempt.update, hpoint]
      · simpa [Point.result, Attempt.update] using hfinal
  | flooded hpoint hcode =>
      obtain ⟨rest', rfl⟩ := hcand hpoint
      exact RunsOn.of_no_write (h.move rfl rfl rfl (hrpc hpoint).1
        (scriptOk_floodScript e _ _ _ hrest _) (by simp [Point.current, hpoint]) (by simp)
        (by simp [Point.result]) (by simp)) rfl
  | indefinite hpoint hcode =>
      obtain ⟨rest', rfl⟩ := hcand hpoint
      exact RunsOn.of_no_write (h.move rfl rfl rfl (hrpc hpoint).1
        (scriptOk_indefiniteScript e _ _ hrest) (by simp [Point.current, hpoint]) (by simp)
        (by simp [Point.result]) (by simp)) rfl
  | pausing hpoint hcode =>
      obtain ⟨rest', rfl⟩ := hcand hpoint
      exact RunsOn.of_no_write (h.move rfl rfl rfl (hrpc hpoint).1
        (scriptOk_pauseScript e _ _ hrest) (by simp [Point.current, hpoint]) (by simp)
        (by simp [Point.result]) (by simp)) rfl
  | @returned r hset hpoint todo htodo =>
      have hends := h.ends hset
      rw [hpoint] at hends
      refine RunsOn.of_no_write (h.move rfl rfl rfl hset.1 ?_ ?_ (by simp) ?_ (by simp)) rfl
      · have hends' : (Point.attempted r).Ends e.buffered rest := by
          cases r <;> exact hends
        rcases htodo with rfl | rfl
        · exact writesOk_nil hends'
        · exact writesOk_cons (fun _ hjw => absurd hjw (by simp [LaneWrite.ofJob]))
            (writesOk_nil hends')
      · rw [hpoint]
        cases r <;> exact fun _ hc => hc
      · have hresult := h.result
        rw [hpoint] at hresult
        exact hresult
  | stopped hset hpoint =>
      have hends := h.ends hset
      rw [hpoint] at hends
      refine RunsOn.of_no_write
        (h.goTo hset rfl rfl rfl rfl rfl hends ?_ ?_ (by simp)) rfl
      · simp [Point.current]
      · simp [Point.result]
  | @append u hset hpoint =>
      obtain ⟨hahead, hfaithful⟩ := h.window [u.ordinal] (by rw [hpoint]; rfl)
      have hresult := h.result u (by rw [hpoint]; rfl)
      refine RunsOn.of_no_write ⟨e.buffer.ahead pending, ?_,
        ⟨writesOk_nil trivial, fun _ => writesOk_nil trivial⟩, fun hne => absurd hset.1 hne,
        fun a ha => absurd ha (by simp), fun c hc => ?_, fun v hv => ?_,
        fun v hv => absurd hv (by simp [Point.result]), by simp⟩ rfl
      · have hlane := h.lane
        rw [hahead, ← List.append_assoc] at hlane
        simpa [buffered] using hlane
      · obtain rfl := Option.some.inj hc
        exact ⟨rfl, hfaithful⟩
      · rcases List.mem_append.mp hv with hv | hv
        · exact h.results v hv
        · exact List.mem_singleton.mp hv ▸ hresult
  | leave hset hpoint => exact RunsOn.of_no_write ⟨_, h.lane⟩ rfl
  | summarize hset hpoint =>
      have hends := h.ends hset
      rw [hpoint] at hends
      have hnothing : e.buffered ++ rest = [] := by rw [hends.1, hends.2]; rfl
      exact RunsOn.of_no_write (h.move rfl rfl rfl hset.1
        (writesOk_cons (allowed_setJob e (fun _ hc => absurd hc (by simp)) fun _ => hnothing)
          (writesOk_cons (allowed_setAccount e _ _) (writesOk_nil hends)))
        (by simp [Point.current]) (by simp) (by simp [Point.result]) (by simp)) rfl
  | publish hset hpoint => exact RunsOn.of_no_write ⟨_, h.lane⟩ rfl
  | failed hset hpoint => exact RunsOn.of_no_write ⟨_, h.lane⟩ rfl
  | read hload =>
      exact RunsOn.of_no_write (h.load fun _ _ hf => ⟨rfl, hf.read hread⟩) rfl
  | delayedWrite hdue =>
      obtain ⟨w, hw, hlane⟩ := h.consumes_flush hsorted hdue
      refine ⟨rest, ?_, h.script.nil, fun hne => (h.awaits hne).nil, h.rpc, h.window,
        fun u hu => absurd hu (by simp), h.result, h.started⟩
      rw [Outcome.jobWrites, hw]
      simpa [LaneWrite.ofJob, buffered] using hlane
  | delayedSkip => exact RunsOn.of_no_write (h.same rfl rfl rfl rfl rfl rfl) rfl
  | delayedDone result lastFlush => exact RunsOn.of_no_write (h.same rfl rfl rfl rfl rfl rfl) rfl
  | pauseRequested flag => exact RunsOn.of_no_write (h.same rfl rfl rfl rfl rfl rfl) rfl
  | stopRequested flag => exact RunsOn.of_no_write (h.same rfl rfl rfl rfl rfl rfl) rfl

/-- A run that ends leaves no result in the buffer. -/
theorem Running.resultBuffer_of_none (h : Running pending ws e rest) (ht : Transition env e m out)
    (hnone : out.executor = none) : e.resultBuffer = [] := by
  have hmap : e.buffered = [] → e.resultBuffer = [] := List.map_eq_nil_iff.mp
  cases ht with
  | @raised a haw message =>
      have hends := (h.awaits (by rw [haw]; simp)).2
      have hstarted := h.started
      rw [Executor.raise] at hnone
      split at hnone
      · rename_i hpoint
        exact absurd hpoint hstarted
      · rename_i hpoint
        rw [hpoint] at hends
        exact hmap hends
      · rename_i hpoint
        rw [hpoint] at hends
        exact hmap hends
      · exact absurd hnone (by simp)
  | leave hset hpoint | failed hset hpoint =>
      have hends := h.ends hset
      rw [hpoint] at hends
      exact hmap hends
  | publish hset hpoint =>
      have hends := h.ends hset
      rw [hpoint] at hends
      exact hmap hends.1
  | _ => exact absurd hnone (by simp)

/-- The candidate in hand is pending. -/
theorem Running.current_mem (h : Running pending ws e rest) {o : ℕ}
    (hpoint : e.point.current = some [o]) : o ∈ pending := by
  refine h.lane.suffix.subset (List.mem_append_right _ ?_)
  rw [(h.window [o] hpoint).1]
  exact List.mem_append_left _ (List.mem_append_left _ (List.mem_singleton.mpr rfl))

/-- No statement of the script is a batch of results. -/
theorem Running.critical_of_mem (h : Running pending ws e rest) {w : LaneWrite}
    (hw : .write w ∈ e.todo) {jw : JobWrite} (hjw : w.ofJob e.jobId = some jw) :
    jw.critical = true := by
  have hallowed : ∃ buf, (Stmt.write w).Allowed e.jobId buf rest := by
    have hscript := h.script
    cases htodo : e.todo with
    | nil => exact absurd (htodo ▸ hw) (by simp)
    | cons st todo =>
        rw [htodo] at hscript hw
        cases st with
        | flush force =>
            have hmem : Stmt.write w ∈ todo := (List.mem_cons.mp hw).resolve_left (by simp)
            exact ⟨_, hscript.1.1 _ hmem⟩
        | write v => exact ⟨_, WritesOk.allowed hscript hw⟩
        | pauseAccount => exact ⟨_, WritesOk.allowed hscript hw⟩
  obtain ⟨buf, hallowed⟩ := hallowed
  exact (hallowed jw hjw).1.critical_of_self

/-! ### The writer moves -/

/-- The first write of the job is committed. -/
theorem Running.commit {w : JobWrite} (h : Running pending (w :: ws) e rest)
    (hnodup : pending.Nodup) : ∃ q, Consumes w pending q ∧ Running q ws e rest := by
  obtain ⟨q, hw, hlane⟩ := h.lane
  refine ⟨q, hw, hlane, h.script, h.awaits, h.rpc, fun c hc => ?_, h.results, h.result,
    h.started⟩
  obtain ⟨hahead, hfaithful⟩ := h.window c hc
  have hunread : e.buffer.unread q = e.buffer.unread pending := by
    refine CandidateBuffer.unread_of_suffix hw.suffix hnodup fun o ho => ?_
    refine hlane.suffix.subset (List.mem_append_right _ ?_)
    rw [hahead, CandidateBuffer.ahead]
    exact List.mem_append_right _ (List.mem_append_right _ ho)
  refine ⟨?_, hfaithful.of_unread hunread⟩
  rw [CandidateBuffer.ahead, hunread]
  exact hahead

theorem RunsOn.commit {w : JobWrite} {ex : Option Executor} (h : RunsOn pending (w :: ws) ex)
    (hnodup : pending.Nodup) : ∃ q, Consumes w pending q ∧ RunsOn q ws ex := by
  cases ex with
  | none =>
      obtain ⟨rest, q, hw, hlane⟩ := h
      exact ⟨q, hw, rest, hlane⟩
  | some e =>
      obtain ⟨rest, hrun⟩ := h
      obtain ⟨q, hw, hrun'⟩ := hrun.commit hnodup
      exact ⟨q, hw, rest, hrun'⟩

/-- Critical writes of the job are lost with their batch. -/
theorem RunsOn.drop {vs : List JobWrite} {ex : Option Executor} (h : RunsOn pending (vs ++ ws) ex)
    (hvs : ∀ w ∈ vs, w.critical = true) : RunsOn pending ws ex := by
  cases ex with
  | none =>
      obtain ⟨rest, hlane⟩ := h
      exact ⟨rest, hlane.drop hvs⟩
  | some e =>
      obtain ⟨rest, hrun⟩ := h
      exact ⟨rest, { hrun with lane := hrun.lane.drop hvs }⟩

/-! ## The beginning of a run -/

/-- The executor has not yet seen its first write committed.  `upTo k` says that no write of the
job that waits has a number above `k`; the coroutine awaits such a number. -/
structure Starting (upTo : ℕ → Prop) (e : Executor) : Prop where
  window : e.buffer = {}
  results : e.resultBuffer = []
  phase : (e.point = .created ∧ e.Settled) ∨
    (e.point = .prime ∧ e.todo = [e.setJob .running, e.setAccount .busy] ∧ e.awaiting = none) ∨
    (e.point = .prime ∧ e.todo = [e.setAccount .busy] ∧
      ∃ a, e.awaiting = some a ∧ upTo a.future)

theorem starting_new {upTo : ℕ → Prop} (h : e.buffer = {}) (hr : e.resultBuffer = [])
    (hpoint : e.point = .created) (hset : e.Settled) : e.Starting upTo :=
  ⟨h, hr, Or.inl ⟨hpoint, hset⟩⟩

theorem Starting.mono {upTo upTo' : ℕ → Prop} (h : e.Starting upTo)
    (hle : ∀ k, upTo k → upTo' k) : e.Starting upTo' := by
  refine ⟨h.window, h.results, h.phase.imp_right (Or.imp_right ?_)⟩
  rintro ⟨hpoint, htodo, a, ha, hup⟩
  exact ⟨hpoint, htodo, a, ha, hle _ hup⟩

/-- When nothing of the job waits in the lane, the executor runs on from its first point. -/
theorem running_of_prime (hwindow : e.buffer = {}) (hresults : e.resultBuffer = [])
    (hpoint : e.point = .prime) (htodo : e.todo = [e.setAccount .busy])
    (haw : e.awaiting = none) : e.Running pending [] pending := by
  have hbuf : e.buffered = [] := by rw [buffered, hresults, List.map_nil]
  have hunread : e.buffer.unread pending = pending := by
    rw [CandidateBuffer.unread, List.filter_eq_self]
    intro o _
    rw [hwindow, decide_eq_true_eq]
    exact lt_of_lt_of_le (by decide) (Int.natCast_nonneg o)
  refine ⟨?_, ?_, fun hne => absurd haw hne, ?_, fun c hc => ?_, ?_, ?_, ?_⟩
  · rw [hbuf]
    rfl
  · rw [htodo, hpoint, hbuf]
    exact writesOk_cons (allowed_setAccount e _ _) (writesOk_nil rfl)
  · simp [hpoint]
  · rw [hpoint] at hc
    obtain rfl := Option.some.inj hc
    refine ⟨?_, ⟨fun rows hrows => ?_, fun hexh => ?_⟩⟩
    · rw [CandidateBuffer.ahead, hunread, hwindow]
      rfl
    · rw [hwindow] at hrows
      exact absurd hrows (by simp)
    · rw [hwindow] at hexh
      exact absurd hexh (by simp)
  · simp [hresults]
  · simp [hpoint, Point.result]
  · simp [hpoint]

theorem Starting.point_eq {upTo : ℕ → Prop} (h : e.Starting upTo) :
    e.point = .created ∨ e.point = .prime := by
  rcases h.phase with hp | hp | hp
  · exact Or.inl hp.1
  · exact Or.inr hp.1
  · exact Or.inr hp.1

/-- **One transition of an executor that begins.**  It submits RUNNING, the only write of the job;
it ends when that write fails; and it runs on when the future of that write is resolved. -/
theorem Starting.transition {upTo upTo' : ℕ → Prop} (h : e.Starting upTo)
    (hle : out.write = none → ∀ k, upTo k → upTo' k) (hnext : upTo' env.future)
    (ht : Transition env e m out) :
    (∀ jw ∈ out.jobWrites e.jobId, jw = .setState .running none none false) ∧
      ∀ e' ∈ out.executor, e'.Starting upTo' ∨
        (∃ a, m = .resumed (.ok ()) ∧ e.awaiting = some a ∧ upTo a.future ∧
          out.write = none ∧ ∀ pending, e'.Running pending [] pending) := by
  have hpoint' := h.point_eq
  have hcreated : e.Settled → e.point = .created := by
    rintro ⟨haw, htodo⟩
    rcases h.phase with hp | hp | hp
    · exact hp.1
    · exact absurd (htodo.symm.trans hp.2.1) (by simp)
    · exact absurd (htodo.symm.trans hp.2.1) (by simp)
  have hnone : ∀ {ex : Option Executor} {event : Option Event},
      ∀ jw ∈ ({ executor := ex, event := event } : Outcome).jobWrites e.jobId,
        jw = .setState .running none none false :=
    fun _ hjw => absurd hjw (by simp [Outcome.jobWrites])
  have hstay : ∀ {e' : Executor}, out.write = none → e'.buffer = e.buffer →
      e'.resultBuffer = e.resultBuffer → e'.point = e.point → e'.todo = e.todo →
      e'.awaiting = e.awaiting → e'.jobId = e.jobId → e'.accountId = e.accountId →
      e'.Starting upTo' := by
    intro e' hw hbuf hres hpt htodo haw hid hacc
    have hmono := h.mono (hle hw)
    refine ⟨hbuf.trans h.window, hres.trans h.results, ?_⟩
    have hphase := hmono.phase
    rw [Settled, ← hpt, ← htodo, ← haw] at hphase
    simpa only [Settled, setJob, setAccount, hid, hacc] using hphase
  cases ht with
  | flushWrite haw htodo hdue | flushSkip haw htodo hdue | pauseAccount haw htodo state =>
      rcases h.phase with hp | hp | hp
      · exact absurd (htodo.symm.trans hp.2.2) (by simp)
      · exact absurd (htodo.symm.trans hp.2.1) (by simp [setJob])
      · exact absurd (htodo.symm.trans hp.2.1) (by simp [setAccount])
  | write haw htodo =>
      rcases h.phase with hp | hp | hp
      · exact absurd (htodo.symm.trans hp.2.2) (by simp)
      · obtain ⟨hst, rfl⟩ := List.cons.inj (htodo.symm.trans hp.2.1)
        obtain rfl := Stmt.write.inj hst
        refine ⟨fun jw hjw => ?_, fun e' he' => Or.inl ?_⟩
        · simpa [Outcome.jobWrites, LaneWrite.ofJob, eq_comm] using hjw
        · obtain rfl := Option.some.inj he'
          exact ⟨h.window, h.results, Or.inr (Or.inr ⟨hp.1, rfl, _, rfl, hnext⟩)⟩
      · obtain ⟨a, ha, -⟩ := hp.2.2
        exact absurd (haw.symm.trans ha) (by simp)
  | @resumed a haw lastFlush =>
      refine ⟨hnone, fun e' he' => Or.inr ?_⟩
      obtain rfl := Option.some.inj he'
      rcases h.phase with hp | hp | hp
      · exact absurd (haw.symm.trans hp.2.1) (by simp)
      · exact absurd (haw.symm.trans hp.2.2) (by simp)
      · obtain ⟨hpt, htodo, b, hb, hup⟩ := hp
        obtain rfl := Option.some.inj (haw.symm.trans hb)
        exact ⟨a, rfl, haw, hup, rfl, fun pending =>
          running_of_prime h.window h.results hpt htodo rfl⟩
  | raised haw message =>
      refine ⟨hnone, fun e' he' => ?_⟩
      rw [Executor.raise] at he'
      rcases hpoint' with hp | hp <;> exact absurd he' (by simp [hp])
  | begin hset hpoint =>
      refine ⟨hnone, fun e' he' => Or.inl ?_⟩
      obtain rfl := Option.some.inj he'
      exact ⟨h.window, h.results, Or.inr (Or.inl ⟨rfl, rfl, hset.1⟩)⟩
  | read hload => exact absurd hload (by simp [h.window])
  | delayedWrite hdue => exact absurd h.results hdue
  | delayedSkip | delayedDone result lastFlush | pauseRequested flag | stopRequested flag =>
      refine ⟨hnone, fun e' he' => Or.inl ?_⟩
      obtain rfl := Option.some.inj he'
      exact hstay rfl rfl rfl rfl rfl rfl rfl rfl
  | succeeded hpoint | flooded hpoint | indefinite hpoint | pausing hpoint | transient hpoint
  | exhausted hpoint | final hpoint =>
      rcases hpoint' with hp | hp <;> exact absurd (hpoint.symm.trans hp) (by simp)
  | primeFill hset hpoint | primeReceive hset hpoint | primed hset hpoint | acquire hset hpoint
  | loopControl hset hpoint | loopPop hset hpoint | take hset hpoint | popReceive hset hpoint
  | popFill hset hpoint | popEnd hset hpoint | sleep hset hpoint | interrupt hset hpoint
  | send hset hpoint | waited hset hpoint | retry hset hpoint | giveUp hset hpoint
  | returned hset hpoint | stopped hset hpoint | append hset hpoint | flushed hset hpoint
  | leave hset hpoint | summarize hset hpoint | publish hset hpoint | failed hset hpoint =>
      exact absurd (hpoint.symm.trans (hcreated hset)) (by simp)

end Executor
end Migration
end MigrationStudio
