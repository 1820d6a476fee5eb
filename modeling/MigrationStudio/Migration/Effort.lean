import MigrationStudio.Migration.Outlook

/-!
# How much an executor has still to do

Between two outcomes of its RPCs an executor makes a bounded number of moves: every statement takes
two, every turn of the loop takes a candidate, and every chunk that is read has candidates in it
or is the last.  `effort` counts what is left; every move of the executor takes something of it,
and only the outcome of an RPC adds something.

* `Transition.effort_lt`: a move takes something.
* `Transition.effort_answer`: what an outcome adds.
-/

namespace MigrationStudio
namespace Migration

open MigrationStudio.Core Accounts Jobs Telegram Storage

/-- The moves from a point on, up to the next RPC or the next turn of the loop. -/
def Point.effort : Point → ℕ
  | .created => 17
  | .prime => 12
  | .acquire => 11
  | .loop => 10
  | .pop => 9
  | .wait .attempt _ => 2
  | .sleeping _ .attempt _ => 1
  | .wait .serverWait _ => 8
  | .sleeping _ .serverWait _ => 7
  | .wait (.transient _) _ => 19
  | .sleeping _ (.transient _) _ => 18
  | .rpc _ => 0
  | .returned _ => 17
  | .attempted _ => 14
  | .flushed => 11
  | .summary => 6
  | .leave | .publish _ _ | .failed => 1

/-- The moves up to the next chunk. -/
def CandidateBuffer.effort (b : CandidateBuffer) : ℕ :=
  match b.loading with
  | some .requested => 2
  | some (.ready _) => 1
  | none => if b.exhausted then 0 else 3

namespace CandidateBuffer

variable {b b' : CandidateBuffer} {pending : List ℕ}

/-- A chunk that is asked for. -/
theorem effort_submitFill_lt (hload : b.loading = none) (hexh : b.exhausted = false) :
    b.submitFill.effort < b.effort := by
  have hfill : b.submitFill = { b with loading := some .requested } := by
    rw [submitFill, hload, hexh]
    rfl
  have hold : b.effort = 3 := by
    rw [effort, hload, hexh]
    rfl
  rw [hfill, hold]
  exact Nat.lt_succ_self 2

theorem effort_submitFill_le (b : CandidateBuffer) : b.submitFill.effort ≤ b.effort := by
  cases hload : b.loading with
  | some l =>
      have hsame : b.submitFill = b := by rw [submitFill, hload]; rfl
      rw [hsame]
  | none =>
      cases hexh : b.exhausted with
      | true =>
          have hsame : b.submitFill = b := by rw [submitFill, hexh, Bool.or_true, if_pos rfl]
          rw [hsame]
      | false => exact (effort_submitFill_lt hload hexh).le

/-- Every candidate that is read costs less in the queue. -/
theorem effort_receive_lt (hfaithful : b.Faithful pending) (hsorted : pending.Pairwise (· < ·))
    {rows : List Database.CandidateRow} (hload : b.loading = some (.ready rows)) :
    10 * (b.receive rows).queue.length + 13 * ((b.receive rows).unread pending).length +
        (b.receive rows).effort <
      10 * b.queue.length + 13 * (b.unread pending).length + b.effort := by
  obtain ⟨hahead, -⟩ := hfaithful.receive hsorted hload
  have hlength := congrArg List.length hahead
  simp only [ahead, List.length_append, List.length_map] at hlength
  have heffort : b.effort = 1 := by rw [effort, hload]
  rw [heffort]
  cases hlast : rows.getLast? with
  | none =>
      have hreceive : b.receive rows = { b with loading := none, exhausted := true } := by
        rw [receive, hlast]
      have hzero : (b.receive rows).effort = 0 := by rw [hreceive]; rfl
      rw [hzero, hreceive] at *
      exact Nat.lt_succ_self _
  | some last =>
      have hqueue : (b.receive rows).queue.length = b.queue.length + rows.length := by
        rw [receive, hlast]
        simp
      have hrows : 0 < rows.length :=
        List.length_pos_of_mem (List.mem_of_getLast? hlast)
      have hle : (b.receive rows).effort ≤ 3 := by
        rw [effort]
        split
        · omega
        · omega
        · split <;> omega
      omega

variable (pending) in
/-- A candidate that is popped. -/
theorem effort_take {item : BufferedCandidate} (htake : b.take = some (item, b')) :
    b.queue.length = b'.queue.length + 1 ∧ b'.unread pending = b.unread pending ∧
      b'.effort ≤ b.effort := by
  obtain ⟨hqueue, hlast, -, -⟩ := take_eq_some htake
  refine ⟨by rw [hqueue, List.length_cons], unread_congr hlast, ?_⟩
  rw [take, hqueue] at htake
  simp only [Option.some.injEq, Prod.mk.injEq, true_and] at htake
  have hfill := effort_submitFill_le { b with queue := b'.queue }
  split at htake
  · exact htake ▸ hfill
  · exact htake ▸ le_rfl

end CandidateBuffer

namespace Executor

variable {env : Env} {e : Executor} {m : Move} {out : Outcome} {pending : List ℕ}

/-- The moves that the executor has to make up to the outcome of an RPC, for all its candidates,
when the pending ordinals of the job are `pending`. -/
def effort (pending : List ℕ) (e : Executor) : ℕ :=
  10 * e.buffer.queue.length + 13 * (e.buffer.unread pending).length + e.buffer.effort +
    2 * e.todo.length + (if e.awaiting.isSome then 1 else 0) + e.point.effort

theorem effort_of_settled (h : e.Settled) : e.effort pending =
    10 * e.buffer.queue.length + 13 * (e.buffer.unread pending).length + e.buffer.effort +
      e.point.effort := by
  rw [effort, h.1, h.2]
  simp

/-- A move that leaves the window and the candidates alone. -/
theorem effort_lt_of_window (hset : e.Settled) {e' : Executor} (hbuffer : e'.buffer = e.buffer)
    (haw : e'.awaiting = none)
    (hlt : 2 * e'.todo.length + e'.point.effort < e.point.effort) :
    e'.effort pending < e.effort pending := by
  rw [effort_of_settled hset, effort, hbuffer, haw]
  simp only [Option.isSome_none, Bool.false_eq_true, if_false]
  omega

/-- **A move takes something** of the effort. -/
theorem Transition.effort_lt (h : Transition env e m out)
    (hm : m = .execute ∨ m = .resumed (.ok ()) ∨ m = .advance ∨ m = .read)
    (hquiet : e.control = none) (hsorted : pending.Pairwise (· < ·))
    (hfaithful : e.Settled → e.point = .prime ∨ e.point = .pop → e.buffer.Faithful pending)
    {e' : Executor} (he' : out.executor = some e') : e'.effort pending < e.effort pending := by
  have hload : ∀ {b : CandidateBuffer}, e.Settled → e'.buffer = b → e'.todo = e.todo →
      e'.awaiting = e.awaiting → e'.point = e.point →
      10 * b.queue.length + 13 * (b.unread pending).length + b.effort <
        10 * e.buffer.queue.length + 13 * (e.buffer.unread pending).length + e.buffer.effort →
      e'.effort pending < e.effort pending := by
    intro b hset hb htodo haw hpoint hlt
    rw [effort_of_settled hset, effort, hb, htodo, haw, hpoint, hset.1, hset.2]
    simp only [Option.isSome_none, Bool.false_eq_true, if_false, List.length_nil]
    omega
  cases h with
  | @flushWrite force todo haw htodo hdue =>
      obtain rfl := Option.some.inj he'
      rw [effort, effort, haw, htodo]
      simp only [await, Option.isSome_some, Option.isSome_none, if_true, Bool.false_eq_true,
        if_false, List.length_cons]
      omega
  | @write w todo haw htodo | @pauseAccount todo haw htodo =>
      obtain rfl := Option.some.inj he'
      rw [effort, effort, haw, htodo]
      simp only [await, Option.isSome_some, Option.isSome_none, if_true, Bool.false_eq_true,
        if_false, List.length_cons]
      omega
  | flushSkip haw htodo hdue =>
      obtain rfl := Option.some.inj he'
      rw [effort, effort, htodo, List.length_cons]
      simp only
      omega
  | resumed haw lastFlush =>
      obtain rfl := Option.some.inj he'
      rw [effort, effort, haw]
      simp only [Option.isSome_some, Option.isSome_none, if_true, Bool.false_eq_true, if_false]
      omega
  | read hrequested =>
      obtain rfl := Option.some.inj he'
      have hone : e.buffer.effort = 2 := by rw [CandidateBuffer.effort, hrequested]
      rw [effort, effort, hone]
      simp only [CandidateBuffer.effort]
      change 10 * e.buffer.queue.length + 13 * (e.buffer.unread pending).length + 1 + _ + _ + _ < _
      omega
  | primeFill hset hpoint hqueue hexh hnone | popFill hset hpoint hqueue hnone hexh =>
      obtain rfl := Option.some.inj he'
      refine hload (b := e.buffer.submitFill) hset rfl rfl rfl rfl ?_
      have hlt := CandidateBuffer.effort_submitFill_lt hnone hexh
      rw [CandidateBuffer.queue_submitFill,
        CandidateBuffer.unread_congr (CandidateBuffer.lastLoaded_submitFill e.buffer)]
      omega
  | primeReceive hset hpoint hqueue hready =>
      obtain rfl := Option.some.inj he'
      exact hload hset rfl rfl rfl rfl
        (CandidateBuffer.effort_receive_lt (hfaithful hset (Or.inl hpoint)) hsorted hready)
  | popReceive hset hpoint hqueue hready =>
      obtain rfl := Option.some.inj he'
      exact hload hset rfl rfl rfl rfl
        (CandidateBuffer.effort_receive_lt (hfaithful hset (Or.inr hpoint)) hsorted hready)
  | @take item buffer hset hpoint htake =>
      obtain rfl := Option.some.inj he'
      obtain ⟨hlength, hunread, hle⟩ := CandidateBuffer.effort_take pending htake
      have hpt : (enter item).effort ≤ 17 := by
        rcases enter_cases item with ⟨u, hu, -⟩ | ⟨a, ha, -⟩
        · rw [hu]
          exact le_rfl
        · rw [ha]
          simp [Point.effort]
      have hpop : e.point.effort = 9 := by rw [hpoint]; rfl
      rw [effort_of_settled hset, effort, hset.1, hset.2]
      simp only [Option.isSome_none, Bool.false_eq_true, if_false, List.length_nil, hlength,
        hunread]
      omega
  | begin hset hpoint | primed hset hpoint | acquire hset hpoint | loopPop hset hpoint
  | popEnd hset hpoint | send hset hpoint | waited hset hpoint | retry hset hpoint
  | giveUp hset hpoint | stopped hset hpoint | append hset hpoint | flushed hset hpoint
  | summarize hset hpoint =>
      obtain rfl := Option.some.inj he'
      refine effort_lt_of_window hset rfl hset.1 ?_
      simp [hpoint, hset.2, Point.effort]
  | @sleep k a hset hpoint =>
      obtain rfl := Option.some.inj he'
      refine effort_lt_of_window hset rfl hset.1 ?_
      cases k <;> simp [hpoint, hset.2, Point.effort]
  | returned hset hpoint todo htodo =>
      obtain rfl := Option.some.inj he'
      refine effort_lt_of_window hset rfl hset.1 ?_
      rcases htodo with rfl | rfl <;> simp [hpoint, Point.effort]
  | loopControl hset hpoint c hc | interrupt hset hpoint c hc =>
      exact absurd (hquiet.symm.trans hc) (by simp)
  | leave | publish | failed => exact absurd he' (by simp)
  | _ => simp at hm

variable (pending) in
/-- **An outcome adds** the statements that follow it, and the next turn of the loop. -/
theorem Transition.effort_answer {outcome : Option DomainError}
    (h : Transition env e (.answer outcome) out) (hrpc : ∀ a, e.point = .rpc a → e.Settled)
    {e' : Executor} (he' : out.executor = some e') :
    e'.effort pending ≤ e.effort pending + 27 := by
  have hbound : ∀ {a : Attempt}, e.point = .rpc a → e'.buffer = e.buffer →
      e'.awaiting = e.awaiting → 2 * e'.todo.length + e'.point.effort ≤ 27 →
      e'.effort pending ≤ e.effort pending + 27 := by
    intro a hpoint hbuffer haw hle
    have hset := hrpc a hpoint
    rw [effort_of_settled hset, effort, hbuffer, haw, hset.1]
    simp only [Option.isSome_none, Bool.false_eq_true, if_false]
    omega
  cases h with
  | flooded hpoint | indefinite hpoint | pausing hpoint =>
      obtain rfl := Option.some.inj he'
      refine hbound hpoint rfl rfl ?_
      simp [floodScript, indefiniteScript, pauseScript, Point.effort]
  | succeeded hpoint | transient hpoint | exhausted hpoint | final hpoint =>
      obtain rfl := Option.some.inj he'
      refine hbound hpoint rfl rfl ?_
      simp [(hrpc _ hpoint).2, Point.effort]

variable (e pending) in
/-- Up to its return there is something left. -/
theorem effort_pos (hpoint : ∀ a, e.point ≠ .rpc a) : 0 < e.effort pending := by
  have hpos : 0 < e.point.effort := by
    cases hp : e.point with
    | rpc a => exact absurd hp (hpoint a)
    | wait k a | sleeping deadline k a => cases k <;> simp [Point.effort]
    | _ => simp [Point.effort]
  rw [effort]
  omega

end Executor
end Migration
end MigrationStudio
