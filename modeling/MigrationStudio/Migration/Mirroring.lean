import Mathlib.Data.List.Nodup
import MigrationStudio.Jobs.Fate
import MigrationStudio.Migration.Outlook
import MigrationStudio.Migration.Reference

/-!
# An executor follows the reference

Where the reference has a list of updates, the executor has rows, a buffer, and statements that are
still to be executed; where the reference sends an RPC at once, the executor first goes through a
turn of its loop and a sleep.  `Point.reference` reads off the reference run that a point stands
for, `Executor.prospect` what will be in the rows, and `Mirrors` says that the two agree with the
reference.

* `candidates`: the candidates of a run, in order.
* `Transition.prospect`: a transition that leaves the point leaves the prospect.
* `Executor.Mirrors`: the relation.
* `Mirrors.keep`, `Mirrors.advance`, `Mirrors.answer`: every transition keeps it, and an outcome of
  the RPC in flight moves the reference run.
* `Mirrors.ended`: what it says at the end.
-/

namespace MigrationStudio
namespace Migration

open MigrationStudio.Core Accounts Jobs Telegram Storage

/-! ## The candidates -/

/-- The candidate of a pending item: its member's id, and the hash that the account has for it. -/
def candidateOf (db : Database) (account : AccountId) (r : Item) : BufferedCandidate where
  ordinal := r.ordinal
  member :=
    ⟨db.peers.members r.memberId, db.peers.peerHash account (db.peers.members r.memberId)⟩
  persistedAttempts := r.attemptCount

/-- The candidates of the job, in the order of their ordinals. -/
def candidates (db : Database) (id : JobId) (account : AccountId) : List BufferedCandidate :=
  match db.jobs[id]? with
  | none => []
  | some job => job.items.pendingRows.map (candidateOf db account)

theorem ordinals_candidates {db : Database} {id : JobId} {job : Job}
    (hjob : db.jobs[id]? = some job) (account : AccountId) :
    (candidates db id account).map BufferedCandidate.ordinal = job.pending := by
  rw [candidates, hjob, List.map_map]
  rfl

/-- A row of `pending_chunk` is the candidate of a pending item. -/
theorem ofRow_of_mem_pendingChunk {db : Database} {id : JobId} {job : Job}
    (hjob : db.jobs[id]? = some job) {account : AccountId} {last : ℤ} {limit : ℕ}
    {row : Database.CandidateRow} (hrow : row ∈ db.pendingChunk id account last limit) :
    ∃ r ∈ job.items.pendingRows, last < (r.ordinal : ℤ) ∧
      CandidateBuffer.ofRow row = candidateOf db account r := by
  rw [Database.pendingChunk, hjob] at hrow
  obtain ⟨r, hr, rfl⟩ := List.mem_map.mp hrow
  obtain ⟨hmem, hlast⟩ := List.mem_filter.mp (List.mem_of_mem_take hr)
  exact ⟨r, hmem, of_decide_eq_true hlast, rfl⟩

/-! ## The reference run of a point -/

/-- The RPC for an attempt is the next one. -/
def Attempt.sending (a : Attempt) (rpcs : List Subject) (updates : List ItemUpdate)
    (ahead : List BufferedCandidate) : Reference :=
  ⟨rpcs ++ [a.candidate.subject], updates, some { a with attempts := a.attempts + 1 }, ahead, none⟩

/-- After the sleep: the RPC, or no further RPC for this candidate. -/
def SleepFor.reference (k : SleepFor) (a : Attempt) (rpcs : List Subject)
    (updates : List ItemUpdate) (ahead : List BufferedCandidate) : Reference :=
  match k with
  | .transient error =>
      if TRANSIENT_RETRY_DELAYS.length ≤ a.transient then
        .next rpcs (updates ++ [a.update .failed error]) ahead
      else a.sending rpcs updates ahead
  | _ => a.sending rpcs updates ahead

/-- The reference run that a point stands for, with the RPCs that have been sent, the updates that
have been appended, the candidates that have not been popped, and the state that a halted run
will leave. -/
def Point.reference (p : Point) (rpcs : List Subject) (updates : List ItemUpdate)
    (ahead : List BufferedCandidate) (state : JobState) : Reference :=
  match p with
  | .wait k a | .sleeping _ k a => k.reference a rpcs updates ahead
  | .rpc a => ⟨rpcs, updates, some a, ahead, none⟩
  | .returned (some u) | .attempted (some u) => .next rpcs (updates ++ [u]) ahead
  | .returned none | .attempted none | .leave => ⟨rpcs, updates, none, ahead, some state⟩
  | .summary | .publish _ _ => .next rpcs updates []
  | _ => .next rpcs updates ahead

/-- The ordinal of the candidate in hand, while there are candidates to come. -/
def Point.inHand : Point → Option (List ℕ)
  | .created => some []
  | p => p.current

/-- The rows are those of the reference, but for a mark on the candidate in hand. -/
def Point.Agree (p : Point) (t t' : ItemTable) : Prop :=
  match p.current with
  | some [o] => ItemTable.SameBut o t t'
  | _ => t = t'

theorem Point.agree_of_eq {p : Point} {t t' : ItemTable} (h : t = t') : p.Agree t t' := by
  rw [Agree]
  split
  · exact h ▸ ItemTable.sameBut_refl _ t
  · exact h

theorem Point.Agree.of_some {p : Point} {o : ℕ} {t t' : ItemTable} (h : p.Agree t t')
    (hp : p.current = some [o]) : ItemTable.SameBut o t t' := by
  rw [Agree, hp] at h
  exact h

theorem Point.Agree.eq {p : Point} {t t' : ItemTable} (h : p.Agree t t')
    (hp : ∀ o, p.current ≠ some [o]) : t = t' := by
  rw [Agree] at h
  split at h
  · rename_i o ho
    exact absurd ho (hp o)
  · exact h

/-- What an RPC that is sent in a transition is about. -/
def Outcome.sentSubjects (out : Outcome) : List Subject :=
  out.event.toList.filterMap fun
    | .sent rpc => some rpc.subject
    | _ => none

theorem enter_eq (item : BufferedCandidate) :
    Executor.enter item =
      if item.lacking then .returned (some item.lackingUpdate)
      else .wait .attempt ⟨item, item.persistedAttempts, 0⟩ := rfl

namespace Executor

variable {env : Env} {e : Executor} {m : Move} {out : Outcome}

/-! ## What will be in the rows -/

/-- The job once the results in the buffer and the remaining statements are written. -/
def prospect (e : Executor) (f : Fate) : Fate :=
  e.jobStmts.foldl Fate.apply { f with items := f.items.updateItems e.resultBuffer }

/-- The statements are no batches of results, and they are not about the results in the buffer nor
about the candidates to come. -/
def Marks (e : Executor) (ahead : List BufferedCandidate) : Prop :=
  ∀ jw ∈ e.jobStmts, jw.critical = true ∧
    ∀ o ∈ jw.ordinals, o ∉ e.buffered ∧ o ∉ ahead.map BufferedCandidate.ordinal

theorem fate_foldl (row : Job) (ws : List JobWrite) :
    (ws.foldl Job.apply row).fate = ws.foldl Fate.apply row.fate := by
  induction ws generalizing row with
  | nil => rfl
  | cons w ws ih =>
      have hone := ih (row.apply w)
      rw [fate_apply] at hone
      exact hone

theorem foldl_apply_updateItems (f : Fate) {ws : List JobWrite} {us : List ItemUpdate}
    (h : ∀ w ∈ ws, w.critical = true ∧ ∀ o ∈ w.ordinals, o ∉ us.map ItemUpdate.ordinal) :
    ws.foldl Fate.apply { f with items := f.items.updateItems us } =
      { ws.foldl Fate.apply f with
        items := (ws.foldl Fate.apply f).items.updateItems us } := by
  induction ws generalizing f with
  | nil => rfl
  | cons w ws ih =>
      obtain ⟨hcritical, hord⟩ := h w (List.mem_cons_self ..)
      rw [List.foldl_cons, Fate.apply_updateItems f hcritical hord]
      exact ih (f.apply w) fun v hv => h v (List.mem_cons_of_mem _ hv)

/-- **A keeping transition** leaves the prospect. -/
theorem Transition.prospect (h : Transition env e m out) (hm : Keeping m)
    {ahead : List BufferedCandidate} (hmarks : e.Marks ahead) (row : Job) :
    ∀ e' ∈ out.executor,
      e'.prospect ((out.jobWrites e.jobId).foldl Job.apply row).fate = e.prospect row.fate := by
  intro e' he'
  obtain ⟨f, hf, -, -, hwrites, -⟩ := h.keeps hm
  obtain rfl := Option.some.inj (hf.symm.trans he')
  rcases hwrites with ⟨c, hw, hbuf, hstmts⟩ | ⟨hbuf, hsplit⟩
  · rw [hw, List.foldl_cons, List.foldl_nil, fate_apply, Executor.prospect, Executor.prospect,
      hstmts, hbuf]
    rfl
  · have hdisjoint : ∀ w ∈ out.jobWrites e.jobId, w.critical = true ∧
        ∀ o ∈ w.ordinals, o ∉ e.resultBuffer.map ItemUpdate.ordinal := by
      intro w hw
      obtain ⟨hcritical, hord⟩ := hmarks w (hsplit ▸ List.mem_append_left _ hw)
      exact ⟨hcritical, fun o ho => (hord o ho).1⟩
    have hcomm := foldl_apply_updateItems row.fate hdisjoint
    rw [Executor.prospect, Executor.prospect, hsplit, List.foldl_append, hbuf, fate_foldl]
    exact congrArg (f.jobStmts.foldl Fate.apply) hcomm.symm

/-! ## The relation -/

/-- The window has candidates of the run only. -/
structure WindowOf (cs : List BufferedCandidate) (b : CandidateBuffer) : Prop where
  queue : ∀ c ∈ b.queue, c ∈ cs
  ready : ∀ rows, b.loading = some (.ready rows) →
    ∀ row ∈ rows, CandidateBuffer.ofRow row ∈ cs

theorem WindowOf.submitFill {cs : List BufferedCandidate} {b : CandidateBuffer}
    (h : WindowOf cs b) : WindowOf cs b.submitFill := by
  refine ⟨fun c hc => h.queue c (b.queue_submitFill ▸ hc), fun rows hrows => ?_⟩
  rcases b.loading_submitFill with hsame | ⟨-, hnew⟩
  · exact h.ready rows (hsame ▸ hrows)
  · exact absurd (hnew.symm.trans hrows) (by simp)

theorem WindowOf.receive {cs : List BufferedCandidate} {b : CandidateBuffer}
    (h : WindowOf cs b) {rows : List Database.CandidateRow}
    (hload : b.loading = some (.ready rows)) : WindowOf cs (b.receive rows) := by
  rw [CandidateBuffer.receive]
  split
  · exact ⟨h.queue, fun rows' hrows => absurd hrows (by simp)⟩
  · refine ⟨fun c hc => ?_, fun rows' hrows => absurd hrows (by simp)⟩
    rcases List.mem_append.mp hc with hc | hc
    · exact h.queue c hc
    · obtain ⟨row, hrow, rfl⟩ := List.mem_map.mp hc
      exact h.ready rows hload row hrow

/-- **The executor follows the reference `r`** on the candidates `cs`, from the rows `t₀`, when it
has sent `rpcs` and the row of the job is `row`: the updates so far are in the prospect, and the
candidates ahead are those that are pending behind the buffer and the candidate in hand. -/
structure Mirrors (e : Executor) (rpcs : List Subject) (row : Job) (t₀ : ItemTable)
    (cs : List BufferedCandidate) (r : Reference) (updates : List ItemUpdate)
    (ahead : List BufferedCandidate) : Prop where
  reference : r = e.point.reference rpcs updates ahead (e.prospect row.fate).state
  table : e.point.Agree (e.prospect row.fate).items (t₀.updateItems updates)
  order : ∀ c, e.point.inHand = some c →
    row.pending = e.buffered ++ c ++ ahead.map BufferedCandidate.ordinal
  among : ∀ c ∈ ahead, c ∈ cs
  window : ∀ c, e.point.inHand = some c → WindowOf cs e.buffer
  marks : e.Marks ahead
  right : FailedRight row
  final : ∀ summary final, e.point = .publish summary final →
    (e.prospect row.fate).state =
      if (e.prospect row.fate).items.count .failed = 0 then .completed else .completedWithErrors

section

variable {rpcs : List Subject} {row : Job} {t₀ : ItemTable} {cs : List BufferedCandidate}
  {r : Reference} {updates : List ItemUpdate} {ahead : List BufferedCandidate}

/-- **A keeping transition.** -/
theorem Mirrors.keep (hmir : e.Mirrors rpcs row t₀ cs r updates ahead)
    (h : Transition env e m out) (hm : Keeping m)
    (hcons : ∀ jw ∈ out.jobWrites e.jobId, ∃ q, Consumes jw row.pending q)
    (hread : m = .read → ∀ c, e.point.inHand = some c → ∀ x ∈ env.db.pendingChunk e.jobId
      e.accountId e.buffer.lastLoaded CandidateBuffer.chunkSize, CandidateBuffer.ofRow x ∈ cs)
    {e' : Executor} (he' : out.executor = some e') :
    e'.Mirrors rpcs ((out.jobWrites e.jobId).foldl Job.apply row) t₀ cs r updates ahead := by
  have hprospect := h.prospect hm hmir.marks row e' he'
  obtain ⟨f, hf, hpoint, hid, hwrites, hbuffer⟩ := h.keeps hm
  obtain rfl := Option.some.inj (hf.symm.trans he')
  refine ⟨?_, ?_, fun c hc => ?_, hmir.among, fun c hc => ?_, fun jw hjw => ?_, ?_,
    fun summary final hp => ?_⟩
  · rw [hpoint, hprospect]
    exact hmir.reference
  · rw [hpoint, hprospect]
    exact hmir.table
  · rw [hpoint] at hc
    have horder := hmir.order c hc
    rcases hwrites with ⟨c', hw, hbuf, -⟩ | ⟨hbuf, hsplit⟩
    · -- the flushed results are the first of the pending ordinals
      obtain ⟨q, hq⟩ := hcons _ (hw ▸ List.mem_singleton.mpr rfl)
      rw [hw, List.foldl_cons, List.foldl_nil, hq.pending_apply, buffered, hbuf]
      obtain ⟨-, -, hpending, -⟩ := hq
      rw [hpending, List.append_assoc] at horder
      rw [List.map_nil, List.nil_append]
      exact List.append_cancel_left horder
    · have hsame : ((out.jobWrites e.jobId).foldl Job.apply row).pending = row.pending := by
        rcases out.jobWrites_cases e.jobId with hw | ⟨jw, hw⟩
        · rw [hw]
          rfl
        · obtain ⟨q, hq⟩ := hcons jw (hw ▸ List.mem_singleton.mpr rfl)
          have hcritical := (hmir.marks jw (hsplit ▸ List.mem_append_left _
            (hw ▸ List.mem_singleton.mpr rfl))).1
          rw [hw, List.foldl_cons, List.foldl_nil, hq.pending_apply, hq.eq_of_critical hcritical]
      rw [hsame, buffered, hbuf]
      exact horder
  · rw [hpoint] at hc
    obtain ⟨hqueue, hready⟩ := hmir.window c hc
    rcases hbuffer with hbuffer | ⟨hm', hbuffer⟩
    · rw [hbuffer]
      exact ⟨hqueue, hready⟩
    · rw [hbuffer]
      refine ⟨hqueue, fun rows hrows x hx => ?_⟩
      obtain rfl := Loading.ready.inj (Option.some.inj hrows)
      exact hread hm' c hc x hx
  · rcases hwrites with ⟨c', -, hbuf, hstmts⟩ | ⟨hbuf, hsplit⟩
    · obtain ⟨hcritical, hord⟩ := hmir.marks jw (hstmts ▸ hjw)
      refine ⟨hcritical, fun o ho => ⟨?_, (hord o ho).2⟩⟩
      simp [buffered, hbuf]
    · rw [buffered, hbuf]
      exact hmir.marks jw (hsplit ▸ List.mem_append_right _ hjw)
  · rcases out.jobWrites_cases e.jobId with hw | ⟨jw, hw⟩
    · rw [hw]
      exact hmir.right
    · obtain ⟨q, hq⟩ := hcons jw (hw ▸ List.mem_singleton.mpr rfl)
      rw [hw]
      exact hq.failedRight hmir.right
  · rw [hprospect]
    exact hmir.final summary final (hpoint ▸ hp)

/-- A transition between the statements that leaves the buffer of the results alone. -/
theorem Mirrors.move (hmir : e.Mirrors rpcs row t₀ cs r updates ahead) (htodo : e.todo = [])
    {e' : Executor} {rpcs' : List Subject} {r' : Reference} {updates' : List ItemUpdate}
    {ahead' : List BufferedCandidate} (hbuf : e'.resultBuffer = e.resultBuffer)
    (href : r' = e'.point.reference rpcs' updates' ahead'
      (e'.jobStmts.foldl Fate.apply (e.prospect row.fate)).state)
    (htable : e'.point.Agree (e'.jobStmts.foldl Fate.apply (e.prospect row.fate)).items
      (t₀.updateItems updates'))
    (horder : ∀ c', e'.point.inHand = some c' → ∃ c, e.point.inHand = some c ∧
      c ++ ahead.map BufferedCandidate.ordinal = c' ++ ahead'.map BufferedCandidate.ordinal)
    (hsub : ∀ c ∈ ahead', c ∈ ahead)
    (hwindow : ∀ c', e'.point.inHand = some c' → WindowOf cs e'.buffer)
    (hmarks : e'.Marks ahead')
    (hfinal : ∀ summary final, e'.point = .publish summary final →
      (e'.jobStmts.foldl Fate.apply (e.prospect row.fate)).state =
        if (e'.jobStmts.foldl Fate.apply (e.prospect row.fate)).items.count .failed = 0 then
          .completed
        else .completedWithErrors) :
    e'.Mirrors rpcs' row t₀ cs r' updates' ahead' := by
  have hprospect : e'.prospect row.fate =
      e'.jobStmts.foldl Fate.apply (e.prospect row.fate) := by
    rw [Executor.prospect, Executor.prospect, hbuf, jobStmts, jobStmts, htodo]
    rfl
  refine ⟨hprospect ▸ href, hprospect ▸ htable, fun c' hc' => ?_,
    fun c hc => hmir.among c (hsub c hc), hwindow, hmarks, hmir.right, hprospect ▸ hfinal⟩
  obtain ⟨c, hc, heq⟩ := horder c' hc'
  rw [hmir.order c hc, buffered, buffered, hbuf, List.append_assoc, List.append_assoc, heq]

theorem marks_of_nil (h : e.jobStmts = []) : e.Marks ahead := by
  intro jw hjw
  rw [h] at hjw
  exact absurd hjw (by simp)

theorem marks_of_setState {state : JobState} {wait : Option ℕ} {c : Option Checkpoint}
    {clear : Bool} (h : e.jobStmts = [.setState state wait c clear]) : e.Marks ahead := by
  intro jw hjw
  rw [h] at hjw
  rw [List.mem_singleton.mp hjw]
  exact ⟨rfl, fun o ho => absurd ho (by simp [JobWrite.ordinals])⟩

/-- A transition that only goes to another point, of the same reference run. -/
theorem Mirrors.go (hmir : e.Mirrors rpcs row t₀ cs r updates ahead) (htodo : e.todo = [])
    {e' : Executor} (hbuf : e'.resultBuffer = e.resultBuffer)
    (hbuffer : WindowOf cs e.buffer → WindowOf cs e'.buffer) (hstmts : e'.jobStmts = [])
    (href : e'.point.reference rpcs updates ahead (e.prospect row.fate).state =
      e.point.reference rpcs updates ahead (e.prospect row.fate).state)
    (hcurrent : e'.point.current = e.point.current)
    (hhand : e'.point.inHand = none ∨ e'.point.inHand = e.point.inHand)
    (hfinal : ∀ summary final, e'.point ≠ .publish summary final) :
    e'.Mirrors rpcs row t₀ cs r updates ahead := by
  have hback : ∀ c, e'.point.inHand = some c → e.point.inHand = some c := by
    intro c hc
    rcases hhand with hnone | hsame
    · exact absurd (hnone.symm.trans hc) (by simp)
    · exact hsame ▸ hc
  refine hmir.move htodo hbuf ?_ ?_ (fun c hc => ⟨c, hback c hc, rfl⟩) (fun c hc => hc)
    (fun c hc => hbuffer (hmir.window c (hback c hc))) (marks_of_nil hstmts)
    fun summary final hp => absurd hp (hfinal summary final)
  · rw [hstmts, List.foldl_nil, href]
    exact hmir.reference
  · have htable := hmir.table
    rw [Point.Agree] at htable ⊢
    rw [hstmts, hcurrent]
    exact htable

/-- The first candidate ahead is popped. -/
theorem Mirrors.pop (hmir : e.Mirrors rpcs row t₀ cs r updates ahead) (htodo : e.todo = [])
    (hpoint : e.point = .pop) {item : BufferedCandidate} {buffer : CandidateBuffer}
    (htake : e.buffer.take = some (item, buffer)) {pending : List ℕ}
    (hahead : ahead.map BufferedCandidate.ordinal = e.buffer.ahead pending)
    (hfaithful : e.buffer.Faithful pending)
    (hdistinct : (cs.map BufferedCandidate.ordinal).Nodup) :
    ∃ ahead', ({ e with buffer := buffer, point := enter item } : Executor).Mirrors rpcs row t₀ cs r
      updates ahead' ∧ ∀ c ∈ ahead', c ∈ ahead := by
  obtain ⟨hfirst, -⟩ := hfaithful.take htake
  rw [hfirst] at hahead
  obtain ⟨c, ahead', rfl, hord, -⟩ := List.map_eq_cons_iff.mp hahead
  obtain ⟨hqueue, hready⟩ := hmir.window [] (by rw [hpoint]; rfl)
  obtain ⟨hhead, -, -, hload⟩ := CandidateBuffer.take_eq_some htake
  obtain rfl : c = item := by
    refine List.inj_on_of_nodup_map hdistinct (hmir.among c (List.mem_cons_self ..)) ?_ hord
    exact hqueue item (hhead ▸ List.mem_cons_self ..)
  have hreference := hmir.reference
  have htable := hmir.table.eq (by simp [hpoint, Point.current])
  rw [hpoint] at hreference
  have hstmts : ({ e with buffer := buffer, point := enter c } : Executor).jobStmts = [] := by
    rw [jobStmts, htodo]
    rfl
  refine ⟨ahead', hmir.move htodo rfl ?_ ?_ ?_ (fun x hx => List.mem_cons_of_mem _ hx)
    (fun c' _ => ⟨fun x hx => ?_, fun rows hrows => ?_⟩) (marks_of_nil hstmts) ?_,
    fun x hx => List.mem_cons_of_mem _ hx⟩
  · rw [hreference]
    change Reference.next _ _ _ = (enter c).reference _ _ _ _
    rw [enter_eq]
    cases hlacking : c.lacking with
    | true =>
        rw [Reference.next_lacking hlacking]
        rfl
    | false =>
        rw [Reference.next_cons hlacking]
        rfl
  · rw [hstmts]
    exact Point.agree_of_eq htable
  · intro c' hc'
    refine ⟨[], by rw [hpoint]; rfl, ?_⟩
    change (enter c).inHand = some c' at hc'
    rw [enter_eq] at hc'
    split at hc' <;> (obtain rfl := Option.some.inj hc'; rfl)
  · exact hqueue x (hhead ▸ List.mem_cons_of_mem _ hx)
  · rcases hload with hsame | ⟨-, hnew⟩
    · exact hready rows (hsame ▸ hrows)
    · exact absurd (hnew.symm.trans hrows) (by simp)
  · intro summary final hp
    change enter c = _ at hp
    rw [enter_eq] at hp
    split at hp <;> exact absurd hp (by simp)

/-- A result is appended to the buffer. -/
theorem Mirrors.append (hmir : e.Mirrors rpcs row t₀ cs r updates ahead) (htodo : e.todo = [])
    {u : ItemUpdate} (hpoint : e.point = .attempted (some u)) :
    ({ e with
      resultBuffer := e.resultBuffer ++ [u]
      todo := [.flush false]
      point := .flushed } : Executor).Mirrors rpcs row t₀ cs r (updates ++ [u]) ahead := by
  have hprospect : ∀ f : Fate, (e.prospect f) = { f with
      items := f.items.updateItems e.resultBuffer } := by
    intro f
    rw [Executor.prospect, jobStmts, htodo]
    rfl
  have hsame := hmir.table.of_some (o := u.ordinal) (by rw [hpoint]; rfl)
  have hreference := hmir.reference
  have horder := hmir.order [u.ordinal] (by rw [hpoint]; rfl)
  have hwindow := hmir.window [u.ordinal] (by rw [hpoint]; rfl)
  rw [hpoint] at hreference
  refine ⟨hreference, Point.agree_of_eq ?_, fun c hc => ?_, hmir.among, fun _ _ => hwindow,
    marks_of_nil rfl, hmir.right, fun summary final hp => absurd hp (by simp)⟩
  · have happly := hsame u rfl
    rw [hprospect] at happly
    rw [ItemTable.updateItems_snoc, ← happly, ← ItemTable.updateItems_snoc]
    rfl
  · obtain rfl := Option.some.inj hc
    rw [horder, buffered, buffered, List.map_append]
    simp

/-! ## Outcomes -/

/-- The candidate in hand is neither in the buffer nor ahead. -/
theorem Mirrors.fresh (hmir : e.Mirrors rpcs row t₀ cs r updates ahead) {o : ℕ}
    (hhand : e.point.inHand = some [o]) :
    o ∉ e.buffered ∧ o ∉ ahead.map BufferedCandidate.ordinal := by
  have hnodup : row.pending.Nodup := row.items.nodup_pendingOrdinals
  rw [hmir.order [o] hhand, List.append_assoc, List.nodup_append, List.singleton_append,
    List.nodup_cons] at hnodup
  obtain ⟨-, ⟨hahead, -⟩, hbefore⟩ := hnodup
  exact ⟨fun hmem => hbefore o hmem o (List.mem_cons_self ..) rfl, hahead⟩

/-- Statements that mark the item in hand and set the state of the job. -/
theorem Mirrors.marks_of_script (hmir : e.Mirrors rpcs row t₀ cs r updates ahead) {o : ℕ}
    (hhand : e.point.inHand = some [o]) {e' : Executor}
    (hbuf : e'.resultBuffer = e.resultBuffer)
    (hstmts : ∀ jw ∈ e'.jobStmts, jw.critical = true ∧ ∀ p ∈ jw.ordinals, p = o) :
    e'.Marks ahead := by
  obtain ⟨hbuffered, hahead⟩ := hmir.fresh hhand
  intro jw hjw
  obtain ⟨hcritical, hord⟩ := hstmts jw hjw
  refine ⟨hcritical, fun p hp => ?_⟩
  rw [hord p hp, buffered, hbuf]
  exact ⟨hbuffered, hahead⟩

theorem jobStmts_eq {todo : List Stmt} (ws : List JobWrite) (htodo : e.todo = todo)
    (h : todo.filterMap (Stmt.jobWrite e.jobId) = ws) : e.jobStmts = ws := by
  rw [jobStmts, htodo, h]

/-- A state of the job, and one of the account. -/
theorem jobStmts_of_states {e' : Executor} {state : JobState} {wait : Option ℕ}
    {c : Option Checkpoint} {clear : Bool} {account : AccountState} (hid : e'.jobId = e.jobId)
    (htodo : e'.todo = [e.setJob state wait c clear, e.setAccount account]) :
    e'.jobStmts = [.setState state wait c clear] := by
  rw [jobStmts, htodo, hid]
  simp [setJob, setAccount, Stmt.jobWrite, LaneWrite.ofJob, List.filterMap_cons]

theorem foldl_apply_events {ws : List JobWrite}
    (h : ∀ w ∈ ws, ∃ level code message member, w = .event level code message member)
    (f : Fate) : ws.foldl Fate.apply f = f := by
  induction ws with
  | nil => rfl
  | cons w ws ih =>
      obtain ⟨level, code, message, member, rfl⟩ := h w (List.mem_cons_self ..)
      exact ih fun v hv => h v (List.mem_cons_of_mem _ hv)

/-- The RPC in flight has an outcome that halts the run. -/
theorem Mirrors.halt (hmir : e.Mirrors rpcs row t₀ cs r updates ahead) (htodo : e.todo = [])
    {a : Attempt} (hpoint : e.point = .rpc a) {error : DomainError} {state : JobState}
    (hverdict : verdict a.transient (some error) = .halt state) {c : Option Checkpoint}
    (later : List JobWrite) (hlater : ∀ jw ∈ later, ∃ level code message member,
      jw = .event level code message member) {e' : Executor}
    (hbuf : e'.resultBuffer = e.resultBuffer) (hpoint' : e'.point = .returned none)
    (hstmts : e'.jobStmts = [.markRetry a.candidate.ordinal a.attempts (some error.code)
      (some error.message) none, .setState state none c false] ++ later) :
    e'.Mirrors rpcs row t₀ cs (r.answer (some error))
      (updates ++ [a.finish .retry (some error)]) ahead := by
  have hhand : e.point.inHand = some [a.candidate.ordinal] := by rw [hpoint]; rfl
  have hreference := hmir.reference
  rw [hpoint] at hreference
  have hsame := hmir.table.of_some (o := a.candidate.ordinal) (by rw [hpoint]; rfl)
  have hfold : e'.jobStmts.foldl Fate.apply (e.prospect row.fate) =
      ⟨state, (e.prospect row.fate).items.updateItem (a.finish .retry (some error))⟩ := by
    rw [hstmts, List.foldl_append, foldl_apply_events hlater]
    rfl
  have hmarks : e'.Marks ahead := by
    refine hmir.marks_of_script hhand hbuf fun jw hjw => ?_
    rw [hstmts] at hjw
    simp only [List.cons_append, List.nil_append, List.mem_cons] at hjw
    rcases hjw with rfl | rfl | hjw
    · exact ⟨rfl, fun p hp => List.mem_singleton.mp hp⟩
    · exact ⟨rfl, fun p hp => absurd hp (by simp [JobWrite.ordinals])⟩
    · obtain ⟨level, code, message, member, rfl⟩ := hlater jw hjw
      exact ⟨rfl, fun p hp => absurd hp (by simp [JobWrite.ordinals])⟩
  refine hmir.move htodo hbuf ?_ ?_ (fun c' hc' => ?_) (fun c hc => hc) (fun c' hc' => ?_) hmarks
    fun summary final hp => absurd (hpoint'.symm.trans hp) (by simp)
  · rw [hpoint', hfold, hreference]
    exact Reference.answer_halt hverdict
  · rw [hfold, ItemTable.updateItems_snoc]
    exact Point.agree_of_eq (hsame _ rfl)
  · rw [hpoint'] at hc'
    exact absurd hc' (by simp [Point.inHand, Point.current])
  · rw [hpoint'] at hc'
    exact absurd hc' (by simp [Point.inHand, Point.current])

/-- The RPC in flight has an outcome that decides the item, or another RPC follows. -/
theorem Mirrors.decide (hmir : e.Mirrors rpcs row t₀ cs r updates ahead) (htodo : e.todo = [])
    {a : Attempt} (hpoint : e.point = .rpc a) {outcome : Option DomainError} {e' : Executor}
    (hbuf : e'.resultBuffer = e.resultBuffer) (hbuffer : e'.buffer = e.buffer)
    (hstmts : e'.jobStmts = [])
    (href : r.answer outcome = e'.point.reference rpcs updates ahead (e.prospect row.fate).state)
    (hcurrent : e'.point.current = some [a.candidate.ordinal])
    (hhand : e'.point.inHand = some [a.candidate.ordinal]) :
    e'.Mirrors rpcs row t₀ cs (r.answer outcome) updates ahead := by
  have hhand' : e.point.inHand = some [a.candidate.ordinal] := by rw [hpoint]; rfl
  have hsame := hmir.table.of_some (o := a.candidate.ordinal) (by rw [hpoint]; rfl)
  refine hmir.move htodo hbuf ?_ ?_ (fun c hc => ⟨c, ?_, rfl⟩) (fun c hc => hc) (fun c _ => ?_)
    (marks_of_nil hstmts) fun summary final hp => ?_
  · rw [hstmts]
    exact href
  · rw [hstmts, Point.Agree, hcurrent]
    exact hsame
  · rw [hhand', ← hc, hhand]
  · exact hbuffer ▸ hmir.window _ hhand'
  · rw [hp] at hcurrent
    exact absurd hcurrent (by simp [Point.current])

/-- **The RPC in flight ends.** -/
theorem Mirrors.answer (hmir : e.Mirrors rpcs row t₀ cs r updates ahead)
    {outcome : Option DomainError} (h : Transition env e (.answer outcome) out)
    (hrpc : ∀ a, e.point = .rpc a → e.Settled) {e' : Executor} (he' : out.executor = some e') :
    ∃ updates', e'.Mirrors rpcs row t₀ cs (r.answer outcome) updates' ahead := by
  have hreference := hmir.reference
  cases h with
  | @succeeded a hpoint =>
      obtain rfl := Option.some.inj he'
      have htodo := (hrpc a hpoint).2
      refine ⟨updates, hmir.decide htodo hpoint rfl rfl (jobStmts_eq _ htodo rfl) ?_ rfl rfl⟩
      rw [hreference, hpoint]
      rfl
  | @flooded a error hpoint hcode =>
      obtain rfl := Option.some.inj he'
      have htodo := (hrpc a hpoint).2
      have hhand : e.point.inHand = some [a.candidate.ordinal] := by rw [hpoint]; rfl
      have hsame := hmir.table.of_some (o := a.candidate.ordinal) (by rw [hpoint]; rfl)
      have hscript : (e.floodScript env.utc a error).filterMap (Stmt.jobWrite e.jobId) =
          [.markRetry a.candidate.ordinal a.attempts (some error.code) (some error.message)
              (some (env.utc + waitOf error)),
            .setState .waitingServer (some (env.utc + waitOf error))
              (some (lastOrdinal ((a.candidate.ordinal : ℤ) - 1))) false,
            .event "WARN" "FLOOD_WAIT"
              ("WAIT " ++ toString (error.waitSeconds.getD 0) ++ "s; retry same candidate")
              a.candidate.member.telegramUserId] := by
        simp [floodScript, setJob, setAccount, Stmt.jobWrite, LaneWrite.ofJob, List.filterMap_cons]
      refine ⟨updates, hmir.move htodo rfl ?_ ?_ (fun c hc => ⟨c, ?_, rfl⟩) (fun c hc => hc)
        (fun c _ => hmir.window _ hhand) (hmir.marks_of_script hhand rfl ?_)
        fun summary final hp => absurd hp (by simp)⟩
      · rw [hreference, hpoint]
        have hverdict : verdict a.transient (some error) = .again a.transient := by
          rw [verdict, if_pos hcode]
        exact Reference.answer_again hverdict
      · rw [jobStmts, hscript]
        exact hsame.updateItem (v := ⟨a.candidate.ordinal, .retry, a.attempts, some error.code,
          some error.message⟩) rfl
      · exact hhand.trans hc
      · intro jw hjw
        rw [jobStmts, hscript] at hjw
        simp only [List.mem_cons, List.not_mem_nil, or_false] at hjw
        rcases hjw with rfl | rfl | rfl
        · exact ⟨rfl, fun p hp => List.mem_singleton.mp hp⟩
        · exact ⟨rfl, fun p hp => absurd hp (by simp [JobWrite.ordinals])⟩
        · exact ⟨rfl, fun p hp => absurd hp (by simp [JobWrite.ordinals])⟩
  | @indefinite a error hpoint hcode =>
      obtain rfl := Option.some.inj he'
      have htodo := (hrpc a hpoint).2
      have hverdict : verdict a.transient (some error) = .halt .rateLimited := by
        rw [verdict, hcode]
        rfl
      refine ⟨_, hmir.halt htodo hpoint hverdict
        (c := some (lastOrdinal ((a.candidate.ordinal : ℤ) - 1)))
        [.event "WARN" "RATE_LIMIT_INDEFINITE"
          "Telegram did not provide a resume duration. Job paused safely."
          a.candidate.member.telegramUserId] ?_ rfl rfl ?_⟩
      · exact fun jw hjw => ⟨_, _, _, _, List.mem_singleton.mp hjw⟩
      · refine jobStmts_eq _ rfl ?_
        simp [indefiniteScript, setJob, setAccount, Stmt.jobWrite, LaneWrite.ofJob,
          List.filterMap_cons]
  | @pausing a error hpoint hcode =>
      obtain rfl := Option.some.inj he'
      have htodo := (hrpc a hpoint).2
      have hverdict : verdict a.transient (some error) = .halt .paused := by
        rcases hcode with hcode | hcode <;>
          (rw [verdict, hcode]; rfl)
      refine ⟨_, hmir.halt htodo hpoint hverdict
        (c := some (lastOrdinal ((a.candidate.ordinal : ℤ) - 1))) []
        (fun jw hjw => absurd hjw (by simp)) rfl rfl ?_⟩
      refine jobStmts_eq _ rfl ?_
      simp [pauseScript, setJob, setAccount, Stmt.jobWrite, LaneWrite.ofJob, List.filterMap_cons]
  | @transient a error delay hpoint hcode hdelay =>
      obtain rfl := Option.some.inj he'
      have htodo := (hrpc a hpoint).2
      have hlt : a.transient < 3 := (List.getElem?_eq_some_iff.mp hdelay).1
      refine ⟨updates, hmir.decide htodo hpoint rfl rfl (jobStmts_eq _ htodo rfl) ?_ rfl rfl⟩
      rw [hreference, hpoint]
      have hverdict := verdict_transient hcode a.transient
      change Reference.answer ⟨_, _, some a, _, none⟩ _ = (if 3 ≤ a.transient + 1 then _ else _)
      by_cases h2 : a.transient < 2
      · rw [if_pos h2] at hverdict
        rw [if_neg (by omega)]
        exact Reference.answer_again hverdict
      · rw [if_neg h2] at hverdict
        rw [if_pos (by omega)]
        exact Reference.answer_final hverdict
  | @exhausted a error hpoint hcode hdelay =>
      obtain rfl := Option.some.inj he'
      have htodo := (hrpc a hpoint).2
      have hle : 3 ≤ a.transient := List.getElem?_eq_none_iff.mp hdelay
      refine ⟨updates, hmir.decide htodo hpoint rfl rfl (jobStmts_eq _ htodo rfl) ?_ rfl rfl⟩
      have hverdict := verdict_transient hcode a.transient
      rw [if_neg (by omega)] at hverdict
      rw [hreference, hpoint]
      exact Reference.answer_final hverdict
  | @final a error hpoint hfinal hpause =>
      obtain rfl := Option.some.inj he'
      have htodo := (hrpc a hpoint).2
      refine ⟨updates, hmir.decide htodo hpoint rfl rfl (jobStmts_eq _ htodo rfl) ?_ rfl rfl⟩
      rw [hreference, hpoint]
      exact Reference.answer_final (verdict_final hfinal hpause a.transient)

/-! ## From one point to the next -/

/-- **The coroutine goes on.** -/
theorem Mirrors.advance (hmir : e.Mirrors rpcs row t₀ cs r updates ahead)
    (h : Transition env e .advance out) (hquiet : e.control = none)
    (hdistinct : (cs.map BufferedCandidate.ordinal).Nodup)
    (hpop : e.point = .pop → ∃ pending,
      ahead.map BufferedCandidate.ordinal = e.buffer.ahead pending ∧ e.buffer.Faithful pending)
    (hsummary : e.point = .summary →
      env.db.jobs[e.jobId]? = some row ∧ e.resultBuffer = [])
    {e' : Executor} (he' : out.executor = some e') :
    ∃ updates' ahead', e'.Mirrors (rpcs ++ out.sentSubjects) row t₀ cs r updates' ahead' ∧
      ∀ c ∈ ahead', c ∈ ahead := by
  have hself : ∀ c ∈ ahead, c ∈ ahead := fun c hc => hc
  have hsilent : ∀ {f : Executor} {us : List ItemUpdate} {cs' : List BufferedCandidate},
      f.Mirrors rpcs row t₀ cs r us cs' → f.Mirrors (rpcs ++ []) row t₀ cs r us cs' := by
    intro f us cs' hf
    rw [List.append_nil]
    exact hf
  have hreference := hmir.reference
  cases h with
  | begin hset hpoint =>
      obtain rfl := Option.some.inj he'
      have hstmts : ({ e with
          lastFlush := env.mono
          todo := [e.setJob .running, e.setAccount .busy]
          point := .prime } : Executor).jobStmts = [.setState .running none none false] :=
        jobStmts_of_states rfl rfl
      have htable := hmir.table.eq (by simp [hpoint, Point.current])
      refine ⟨updates, ahead, hsilent (hmir.move hset.2 rfl ?_ ?_
        (fun c hc => ⟨c, by rw [hpoint]; exact hc, rfl⟩) hself
        (fun _ _ => hmir.window [] (by rw [hpoint]; rfl)) (marks_of_setState hstmts)
        fun summary final hp => absurd hp (by simp)), hself⟩
      · rw [hreference, hpoint]
        rfl
      · rw [hstmts]
        exact Point.agree_of_eq htable
  | primeFill hset hpoint hqueue hexh hload | popFill hset hpoint hqueue hload hexh =>
      obtain rfl := Option.some.inj he'
      exact ⟨updates, ahead, hsilent (hmir.go hset.2 rfl WindowOf.submitFill
        (jobStmts_eq _ hset.2 rfl) rfl rfl (Or.inr rfl) (by simp [hpoint])), hself⟩
  | primeReceive hset hpoint hqueue hload | popReceive hset hpoint hqueue hload =>
      obtain rfl := Option.some.inj he'
      exact ⟨updates, ahead, hsilent (hmir.go hset.2 rfl (fun hw => hw.receive hload)
        (jobStmts_eq _ hset.2 rfl) rfl rfl (Or.inr rfl) (by simp [hpoint])), hself⟩
  | primed hset hpoint | acquire hset hpoint | loopPop hset hpoint | flushed hset hpoint
  | stopped hset hpoint | sleep hset hpoint =>
      obtain rfl := Option.some.inj he'
      refine ⟨updates, ahead, hsilent (hmir.go hset.2 rfl (fun hw => hw)
        (jobStmts_eq _ hset.2 rfl) ?_ ?_ (Or.inr ?_) (by simp)), hself⟩ <;> (rw [hpoint]; rfl)
  | @returned u hset hpoint todo htodo =>
      obtain rfl := Option.some.inj he'
      have hstmts : todo.filterMap (Stmt.jobWrite e.jobId) = [] := by
        rcases htodo with rfl | rfl <;> rfl
      refine ⟨updates, ahead, hsilent (hmir.go hset.2 rfl (fun hw => hw)
        hstmts ?_ ?_ (Or.inr ?_) (by simp)), hself⟩ <;> (rw [hpoint]; cases u <;> rfl)
  | @retry deadline a error hset hpoint hc hnow htr =>
      obtain rfl := Option.some.inj he'
      refine ⟨updates, ahead, hsilent (hmir.go hset.2 rfl (fun hw => hw)
        (jobStmts_eq _ hset.2 rfl) ?_ ?_ (Or.inr ?_) (by simp)), hself⟩
      · rw [hpoint]
        exact (if_neg (not_le.mpr htr)).symm
      · rw [hpoint]
        rfl
      · rw [hpoint]
        rfl
  | @giveUp deadline a error hset hpoint hc hnow htr =>
      obtain rfl := Option.some.inj he'
      refine ⟨updates, ahead, hsilent (hmir.go hset.2 rfl (fun hw => hw)
        (jobStmts_eq _ hset.2 rfl) ?_ ?_ (Or.inr ?_) (by simp)), hself⟩
      · rw [hpoint]
        exact (if_pos htr).symm
      · rw [hpoint]
        rfl
      · rw [hpoint]
        rfl
  | @take item buffer hset hpoint htake =>
      obtain rfl := Option.some.inj he'
      obtain ⟨pending, hahead, hfaithful⟩ := hpop hpoint
      obtain ⟨ahead', hmir', hsub⟩ :=
        hmir.pop hset.2 hpoint htake hahead hfaithful hdistinct
      exact ⟨updates, ahead', hsilent hmir', hsub⟩
  | @append u hset hpoint =>
      obtain rfl := Option.some.inj he'
      exact ⟨updates ++ [u], ahead, hsilent (hmir.append hset.2 hpoint), hself⟩
  | @send deadline a hset hpoint hc hnow =>
      obtain rfl := Option.some.inj he'
      have htable := hmir.table
      refine ⟨updates, ahead, hmir.move hset.2 rfl ?_ ?_
        (fun c hc => ⟨c, by rw [hpoint]; exact hc, rfl⟩) hself
        (fun c hc => hmir.window c (by rw [hpoint]; exact hc))
        (marks_of_nil (jobStmts_eq _ hset.2 rfl)) fun summary final hp => absurd hp (by simp),
        hself⟩
      · rw [hreference, hpoint]
        rfl
      · rw [hpoint] at htable
        exact (jobStmts_eq [] hset.2 rfl : e.jobStmts = []) ▸ htable
  | @waited deadline a hset hpoint hc hnow =>
      obtain rfl := Option.some.inj he'
      have htable := hmir.table
      have hstmts : ({ e with
          todo := [e.setJob .running none none true, e.setAccount .busy]
          point := .wait .attempt a } : Executor).jobStmts =
            [.setState .running none none true] := jobStmts_of_states rfl rfl
      refine ⟨updates, ahead, hsilent (hmir.move hset.2 rfl ?_ ?_
        (fun c hc => ⟨c, by rw [hpoint]; exact hc, rfl⟩) hself
        (fun c hc => hmir.window c (by rw [hpoint]; exact hc)) (marks_of_setState hstmts)
        fun summary final hp => absurd hp (by simp)), hself⟩
      · rw [hreference, hpoint]
        rfl
      · rw [hstmts]
        rw [hpoint] at htable
        exact htable
  | popEnd hset hpoint hqueue hload hexh =>
      obtain rfl := Option.some.inj he'
      obtain ⟨pending, hahead, hfaithful⟩ := hpop hpoint
      rw [CandidateBuffer.ahead, hqueue, hfaithful.exhausted hexh] at hahead
      obtain rfl : ahead = [] := List.map_eq_nil_iff.mp hahead
      have htable := hmir.table.eq (by simp [hpoint, Point.current])
      refine ⟨updates, [], hsilent (hmir.move hset.2 rfl ?_ (Point.agree_of_eq htable)
        (fun c hc => absurd hc (by simp [Point.inHand, Point.current])) hself
        (fun c hc => absurd hc (by simp [Point.inHand, Point.current])) (marks_of_nil rfl)
        fun summary final hp => absurd hp (by simp)), hself⟩
      rw [hreference, hpoint]
      rfl
  | summarize hset hpoint =>
      obtain rfl := Option.some.inj he'
      obtain ⟨hdb, hempty⟩ := hsummary hpoint
      have htable := hmir.table.eq (by simp [hpoint, Point.current])
      have hstmts : ({ e with
          todo := [e.setJob (finalState (env.db.summary e.jobId)) none none true,
            e.setAccount .ready]
          point := .publish (env.db.summary e.jobId)
            (finalState (env.db.summary e.jobId)) } : Executor).jobStmts =
          [.setState (finalState (env.db.summary e.jobId)) none none true] :=
        jobStmts_of_states rfl rfl
      refine ⟨updates, ahead, hsilent (hmir.move hset.2 rfl ?_ ?_
        (fun c hc => absurd hc (by simp [Point.inHand, Point.current])) hself
        (fun c hc => absurd hc (by simp [Point.inHand, Point.current])) (marks_of_setState hstmts)
        fun summary final hp => ?_), hself⟩
      · rw [hreference, hpoint]
        rfl
      · rw [hstmts]
        exact Point.agree_of_eq htable
      · -- the counters of the committed row are the numbers of its items
        have hprospect : (e.prospect row.fate).items = row.items.forget := by
          rw [prospect, jobStmts_eq [] hset.2 rfl, hempty]
          rfl
        have hcount : (env.db.summary e.jobId).failed =
            (e.prospect row.fate).items.count .failed := by
          rw [hprospect, ItemTable.count_forget, Database.summary, hdb]
          exact hmir.right
        rw [hstmts]
        change finalState (env.db.summary e.jobId) =
          if (e.prospect row.fate).items.count .failed = 0 then _ else _
        rw [finalState, hcount]
  | loopControl hset hpoint c hc => exact absurd (hquiet.symm.trans hc) (by simp)
  | interrupt hset hpoint c hc => exact absurd (hquiet.symm.trans hc) (by simp)
  | leave | publish | failed => exact absurd he' (by simp)

/-- **At the end** the reference run is over, and the row is what it says. -/
theorem Mirrors.ended (hmir : e.Mirrors rpcs row t₀ cs r updates ahead) (hset : e.Settled)
    (hempty : e.resultBuffer = [])
    (hpoint : e.point = .leave ∨ ∃ summary final, e.point = .publish summary final) :
    r.current = none ∧ r.rpcs = rpcs ∧ row.items.forget = t₀.updateItems r.updates ∧
      row.state = r.jobState row.items := by
  have hprospect : e.prospect row.fate = row.fate := by
    rw [prospect, jobStmts_eq [] hset.2 rfl, hempty]
    rfl
  have hreference := hmir.reference
  have htable := hmir.table.eq (by rcases hpoint with hp | ⟨summary, final, hp⟩ <;>
    simp [hp, Point.current])
  rw [hprospect] at hreference htable
  rcases hpoint with hp | ⟨summary, final, hp⟩
  · rw [hp] at hreference
    rw [hreference]
    exact ⟨rfl, rfl, htable, rfl⟩
  · have hfinal := hmir.final summary final hp
    rw [hprospect] at hfinal
    have hcount : row.fate.items.count .failed = row.items.count .failed :=
      ItemTable.count_forget _ _
    rw [hcount] at hfinal
    rw [hp] at hreference
    rw [hreference]
    exact ⟨rfl, rfl, htable, hfinal⟩

/-- The beginning of a run. -/
theorem mirrors_new {db : Database} {job : Job} {id : JobId} {account : AccountId}
    (hjob : db.jobs[id]? = some job) (hright : FailedRight job) (hpoint : e.point = .created)
    (htodo : e.todo = []) (hresults : e.resultBuffer = []) (hbuffer : e.buffer = {}) :
    e.Mirrors [] job job.items.forget (candidates db id account)
      (reference (candidates db id account) []) [] (candidates db id account) := by
  have hprospect : e.prospect job.fate = job.fate := by
    rw [prospect, jobStmts_eq [] htodo rfl, hresults]
    rfl
  refine ⟨?_, Point.agree_of_eq ?_, fun c hc => ?_, fun c hc => hc, fun c _ => ?_,
    marks_of_nil (jobStmts_eq _ htodo rfl), hright, fun summary final hp => ?_⟩
  · rw [hpoint]
    rfl
  · rw [hprospect]
    rfl
  · rw [hpoint] at hc
    obtain rfl := Option.some.inj hc
    rw [ordinals_candidates hjob, buffered, hresults]
    rfl
  · rw [hbuffer]
    exact ⟨fun c hc => absurd hc (by simp), fun rows hrows => absurd hrows (by simp)⟩
  · exact absurd (hpoint.symm.trans hp) (by simp)

end

end Executor
end Migration
end MigrationStudio
