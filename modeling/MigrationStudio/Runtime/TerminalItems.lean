import MigrationStudio.Migration.Planner
import MigrationStudio.Runtime.JobLane

/-!
# The rows of a job tell the truth

What the tables say of a planned job in every state of every run in which no write fails: whoever
pauses, stops, waits or crashes, and whenever.

* `Label.writesSucceed`: no operation raises.  Nothing is then lost, and `App.OnCourse` applies.
* `App.KeepsItem`: an item in a final state keeps its row, and no later RPC is about it.
* `App.job_rows_truthful`: that, the counters, the checkpoint and the completed states together.
-/

namespace MigrationStudio
namespace Runtime

open Foundations MigrationStudio.Core Accounts Jobs Telegram Storage Migration

/-- No operation that the label submits raises. -/
def Label.writesSucceed : Label → Prop
  | .execute _ fails | .delayed _ fails | .foreign _ _ fails => fails = none
  | _ => True

instance (l : Label) : Decidable l.writesSucceed := by
  cases l <;> unfold Label.writesSucceed <;> infer_instance

instance (l : Label) : Decidable (l = .crash) := by
  cases l <;> first | exact isTrue rfl | exact isFalse (by simp)

namespace App

variable {id : JobId} {s s' : App} {l : Label}

/-! ## Nothing fails -/

/-- No waiting task raises. -/
def NothingFails (s : App) : Prop := ∀ p ∈ s.writer.waiting, p.2.fails = none

theorem fails_of_moveOf {e : Executor} {m : Move} {fails : Option String}
    (h : s.moveOf e l = some (m, fails)) (hl : l.writesSucceed) : fails = none := by
  cases l with
  | execute job f | delayed job f =>
      simp only [moveOf, Option.some.injEq, Prod.mk.injEq] at h
      exact h.2 ▸ hl
  | resumed job =>
      rw [moveOf, Option.bind_eq_some_iff] at h
      obtain ⟨a, -, h⟩ := h
      obtain ⟨r, -, heq⟩ := Option.map_eq_some_iff.mp h
      exact (Prod.mk.inj heq).2.symm
  | delayedDone job =>
      rw [moveOf] at h
      split at h
      · obtain ⟨r, -, heq⟩ := Option.map_eq_some_iff.mp h
        exact (Prod.mk.inj heq).2.symm
      · exact absurd h (by simp)
  | _ =>
      simp only [moveOf, Option.some.injEq, Prod.mk.injEq, reduceCtorEq] at h
      try exact h.2.symm

theorem NothingFails.step (hs : s.NothingFails) (hl : l.writesSucceed) (h : s.Step l s') :
    s'.NothingFails := by
  have hnil : ∀ db : Database, ∀ p ∈ (DBWriter.start db : Lane).waiting, p.2.fails = none :=
    fun db p hp => absurd hp (by simp [DBWriter.start, DBWriter.waiting])
  cases h with
  | crash => exact hnil _
  | normalize hrec => exact hnil _
  | foreign critical fails hown =>
      intro p hp
      rw [waiting_submit] at hp
      rcases List.mem_append.mp hp with hp | hp
      · exact hs p hp
      · rw [List.mem_singleton.mp hp]
        exact hl
  | lane hrec hlab hw =>
      exact fun p hp => hs p (mem_waiting_step (laneLabel_ne_submit hlab) hw hp)
  | executor hrec hk he hm hout =>
      intro p hp
      rw [waiting_applyOutcome] at hp
      rcases List.mem_append.mp hp with hp | hp
      · exact hs p hp
      · obtain ⟨w, -, rfl⟩ := Option.map_eq_some_iff.mp (Option.mem_toList.mp hp)
        exact fails_of_moveOf hm hl
  | tick d => exact hs
  | refused l => exact hs
  | built hl' hadm => exact hs

theorem mem_waiting_of_batches {τ σ ε ρ : Type*} {S : WriterSpec τ σ ε ρ}
    {w : DBWriter τ σ ε ρ} {wl : WriterLabel τ} {b : List (ℕ × τ)} (hb : b ∈ w.batches S wl)
    {p : ℕ × τ} (hp : p ∈ b) : p ∈ w.waiting := by
  cases wl with
  | submit t => exact absurd hb (by simp [DBWriter.batches])
  | timeout =>
      rw [DBWriter.batches, List.mem_singleton] at hb
      exact List.mem_append_left _ (hb ▸ hp)
  | get =>
      rw [DBWriter.batches] at hb
      split at hb
      · exact absurd hb (by simp)
      · rename_i item rest hqueue
        have hitem : p ∈ w.pending ∨ p = item → p ∈ w.waiting := by
          rw [DBWriter.waiting, hqueue, List.mem_append, List.mem_cons]
          exact Or.imp_right Or.inl
        refine hitem ?_
        split_ifs at hb
        · simp only [List.mem_cons, List.not_mem_nil, or_false] at hb
          rcases hb with rfl | rfl
          · exact Or.inl hp
          · exact Or.inr (List.mem_singleton.mp hp)
        · rw [List.mem_singleton] at hb
          subst hb
          simpa using hp
        · exact absurd hb (by simp)

/-- When nothing fails, no transaction is rolled back. -/
theorem NothingFails.resultsCommitted (hs : s.NothingFails) (id : JobId) (l : Label) :
    s.ResultsCommitted id l :=
  fun _ _ _ hb ⟨p, hp, hfails⟩ => absurd (hs p (mem_waiting_of_batches hb hp)) hfails

/-- A run in which nothing fails loses no result. -/
theorem along_resultsCommitted (hs : s.NothingFails) (id : JobId) {ls : List Label}
    (hls : ∀ l ∈ ls, l.writesSucceed) : Along App.step (ResultsCommitted id) s ls := by
  induction ls generalizing s with
  | nil => trivial
  | cons l ls ih =>
      refine ⟨hs.resultsCommitted id l, fun s' hstep => ?_⟩
      exact ih (hs.step (hls l (List.mem_cons_self ..)) (step_cases hstep))
        fun m hm => hls m (List.mem_cons_of_mem _ hm)

theorem nothingFails_of_run (hs : s.NothingFails) {ls : List Label}
    (hls : ∀ l ∈ ls, l.writesSucceed) (h : runLabels App.step s ls = some s') :
    s'.NothingFails :=
  invariant_runLabels (fun _ _ _ hI hl hstep => hI.step hl (step_cases hstep)) hs
    (along_of_forall_mem hls) h

theorem nothingFails_start (db : Database) (now : ℕ) : (App.start db now).NothingFails :=
  fun _ hp => absurd hp (by simp [App.start, DBWriter.start, DBWriter.waiting])

/-! ## Final items -/

/-- The table holds the row, in a final state. -/
def HasTerminal (s : App) (id : JobId) (r : Item) : Prop :=
  ∃ job, s.db.jobs[id]? = some job ∧ job.items.Terminal r

/-- What happened to the job between two states: the row is still there, and no RPC of the job
in between was about its ordinal. -/
def KeepsItem (id : JobId) (r : Item) (s s' : App) : Prop :=
  s'.HasTerminal id r ∧ ∃ later, s'.log = s.log ++ later ∧
    ∀ rpc, .sent rpc ∈ later → rpc.job = id → rpc.ordinal ≠ r.ordinal

theorem ordinal_not_mem {t : ItemTable} {r : Item} (h : t.Terminal r) :
    r.ordinal ∉ t.pendingOrdinals := by
  intro hmem
  obtain ⟨q, hq, hqp, hqo⟩ := ItemTable.mem_pendingOrdinals.mp hmem
  rw [ItemTable.row_unique hq h.1 hqo, h.2] at hqp
  exact Bool.noConfusion hqp

/-- An executor of the job sends RPCs for pending items only. -/
theorem OnCourse.sent_mem (hs : OnCourse id s) {e : Executor} (he : s.executors id = some e)
    {env : Env} {m : Move} {out : Outcome} (ht : Executor.Transition env e m out) {rpc : Rpc}
    (hsent : out.event = some (.sent rpc)) :
    ∃ job, s.db.jobs[id]? = some job ∧ rpc.ordinal ∈ job.pending := by
  obtain ⟨deadline, a, hpoint, -, rfl⟩ := ht.sent_eq hsent
  obtain ⟨ex, hfollows, job, hjob, -, hruns⟩ := hs.course
  rcases hfollows with rfl | ⟨-, e', he', hstart⟩
  · rw [he] at hruns
    obtain ⟨rest, hrunning⟩ := hruns
    exact ⟨job, hjob, hrunning.current_mem (by rw [hpoint]; rfl)⟩
  · obtain rfl := Option.some.inj (he.symm.trans he')
    rcases hstart.point_eq with hp | hp <;> exact absurd (hpoint.symm.trans hp) (by simp)

/-- **One step** keeps a final item, and sends no RPC for it. -/
theorem OnCourse.keepsItem (hs : OnCourse id s) (hcond : s.ResultsCommitted id l)
    (h : s.Step l s') {r : Item} (hr : s.HasTerminal id r) : KeepsItem id r s s' := by
  obtain ⟨job, hjob, hterminal⟩ := hr
  have hsilent : ∃ later, s.log = s.log ++ later ∧
      ∀ rpc, .sent rpc ∈ later → rpc.job = id → rpc.ordinal ≠ r.ordinal :=
    ⟨[], (List.append_nil _).symm, fun _ hrpc => absurd hrpc (by simp)⟩
  cases h.forJob id hs.sound with
  | quiet hq =>
      obtain ⟨later, hlog, hothers⟩ := hq.log
      exact ⟨⟨job, by rw [hq.db]; exact hjob, hterminal⟩, later, hlog,
        fun rpc hrpc hid => absurd (congrArg some hid) (hothers _ hrpc)⟩
  | crash => exact ⟨⟨job, hjob, hterminal⟩, hsilent⟩
  | built hadm =>
      exact ⟨⟨job, hjob, hterminal⟩, _, rfl, fun rpc hrpc => absurd hrpc (by simp)⟩
  | normalize hrec =>
      obtain ⟨ex, -, job₁, hjob₁, hconsistent, -⟩ := hs.course
      obtain rfl := Option.some.inj (hjob.symm.trans hjob₁)
      obtain ⟨job', hjob', -, hitems⟩ := normalizeJob_job hjob hconsistent _ _
      exact ⟨⟨job', hjob', hitems ▸ hterminal⟩, hsilent⟩
  | lane hrec hl hne hw =>
      obtain ⟨ex, -, job₁, hjob₁, hconsistent, hruns⟩ := hs.course
      obtain rfl := Option.some.inj (hjob.symm.trans hjob₁)
      obtain ⟨job', hjob', -, -, hterminal'⟩ := lane_rule
        (Q := fun _ job _ => job.items.Terminal r)
        (fun _ _ _ _ _ _ _ hconsumes hQ => hconsumes.terminal_apply hQ)
        (fun _ _ _ _ _ hQ => hQ) (fun _ _ _ _ _ _ hQ => hQ) hne hw
        (hcond _ hl) ⟨job, hjob, hconsistent, hruns, hterminal⟩
      exact ⟨⟨job', hjob', hterminal'⟩, hsilent⟩
  | @executor e m fails out hrec hk he hm ht =>
      refine ⟨⟨job, ?_, hterminal⟩, out.event.toList, rfl, fun rpc hrpc hid => ?_⟩
      · rw [db_applyOutcome]
        exact hjob
      · obtain ⟨job₁, hjob₁, hmem⟩ := hs.sent_mem he ht (Option.mem_toList.mp hrpc)
        obtain rfl := Option.some.inj (hjob.symm.trans hjob₁)
        exact fun heq => ordinal_not_mem hterminal (heq ▸ hmem)

theorem KeepsItem.trans {r : Item} {t : App} (h : KeepsItem id r s t) (h' : KeepsItem id r t s') :
    KeepsItem id r s s' := by
  obtain ⟨-, later, hlater, hrpcs⟩ := h
  obtain ⟨hterminal, later', hlater', hrpcs'⟩ := h'
  refine ⟨hterminal, later ++ later', by rw [hlater', hlater, List.append_assoc], ?_⟩
  intro rpc hrpc
  rcases List.mem_append.mp hrpc with hrpc | hrpc
  · exact hrpcs rpc hrpc
  · exact hrpcs' rpc hrpc

/-- **A run keeps a final item**, and sends no RPC for it. -/
theorem keepsItem_of_run (hs : OnCourse id s) {ls : List Label}
    (hcond : Along App.step (ResultsCommitted id) s ls) (h : runLabels App.step s ls = some s')
    {r : Item} (hr : s.HasTerminal id r) : KeepsItem id r s s' := by
  have hself : KeepsItem id r s s :=
    ⟨hr, [], (List.append_nil _).symm, fun _ hrpc => absurd hrpc (by simp)⟩
  have hrun := invariant_runLabels (I := fun t => OnCourse id t ∧ KeepsItem id r s t)
    (fun t l t' hI hC hstep => ?_) ⟨hs, hself⟩ hcond h
  · exact hrun.2
  · exact ⟨hI.1.step hC (step_cases hstep),
      hI.2.trans (hI.1.keepsItem hC (step_cases hstep) hI.2.1)⟩

/-! ## The claim about the rows -/

/-- **The rows of a job tell the truth.**  In every state of every run from a planned job in which
no write fails: (a) an item in SUCCESS, SKIPPED or FAILED is still there in every later state, and
no later RPC is about it; (b) the counters are the numbers of items in the final states; (c) up to
the checkpoint's `last_ordinal` every item is final; (d) in a completed job every item is. -/
theorem job_rows_truthful (id : JobId) (account : AccountId) (group : GroupId)
    (items : List MemberId) (action : Action) (db : Database) (now : ℕ)
    (hjob : db.jobs[id]? = some (persist account group items action)) (ls : List Label)
    (hls : ∀ l ∈ ls, l.writesSucceed) (s : App)
    (hrun : runLabels App.step (App.start db now) ls = some s) :
    ∃ job, s.db.jobs[id]? = some job ∧
      (∀ r ∈ job.items.rows, r.state.pending = false → ∀ ms s', (∀ l ∈ ms, l.writesSucceed) →
        runLabels App.step s ms = some s' → KeepsItem id r s s') ∧
      job.counters =
        { total := job.items.rows.length
          processed :=
            job.items.count .success + job.items.count .skipped + job.items.count .failed
          success := job.items.count .success
          skipped := job.items.count .skipped
          failed := job.items.count .failed } ∧
      (∀ k, job.checkpoint.lastOrdinal = some k →
        ∀ r ∈ job.items.rows, (r.ordinal : ℤ) ≤ k → r.state.pending = false) ∧
      (job.state = .completed ∨ job.state = .completedWithErrors →
        ∀ r ∈ job.items.rows, r.state.pending = false) := by
  have hstart : OnCourse id (App.start db now) :=
    onCourse_start hjob (consistent_persist account group items action) now
  have hsafe := nothingFails_start db now
  have hs := onCourse_of_run hstart (along_resultsCommitted hsafe id hls) hrun
  have hfails := nothingFails_of_run hsafe hls hrun
  obtain ⟨ex, -, job, hjob', hconsistent, -⟩ := hs.course
  refine ⟨job, hjob', fun r hr hfinal ms s' hms hrun' => ?_, hconsistent.counters,
    fun k hk r hr hle => hconsistent.terminal_of_le hk hr hle,
    fun hcomplete r hr => hconsistent.terminal_of_complete hcomplete hr⟩
  exact keepsItem_of_run hs (along_resultsCommitted hfails id hms) hrun' ⟨job, hjob', hr, hfinal⟩

/-- A job of two members that is paused after its first result. -/
def pausedAfterOne : List Label :=
  [.start 0 1 (3 * second)] ++ enterLoop 0 ++ sendRpc 0 ++ keepResult 0 ++ pauseWithResults 0

/-- A crash, the recovery, and the job resumed up to its next RPC. -/
def resumedAfterCrash : List Label :=
  [.crash, .normalize, .resume 0 (3 * second)] ++ enterLoop 0 ++ sendRpc 0

/-- That job through the crash: the item that succeeded keeps its row, and the RPC that follows is
about the other one. -/
theorem job_rows_truthful_paused :
    ∃ s s', runLabels App.step (App.start (smallDatabase [persist 1 1 [1, 2] .invite]) 0)
        pausedAfterOne = some s ∧
      runLabels App.step s resumedAfterCrash = some s' ∧
      s'.rpcs.map Rpc.ordinal = [0, 1] ∧
      ∃ r, r.ordinal = 0 ∧ r.state = .success ∧ KeepsItem 0 r s s' := by
  have h : ((runLabels App.step (App.start (smallDatabase [persist 1 1 [1, 2] .invite]) 0)
      pausedAfterOne).bind fun s => (runLabels App.step s resumedAfterCrash).map fun s' =>
        (((s.db.jobs[0]?).map fun job => (job.items.rows.map fun r => (r.ordinal, r.state))),
          s'.rpcs.map Rpc.ordinal)) =
      some (some [(0, .success), (1, .ready)], [0, 1]) := by
    decide +kernel
  obtain ⟨s, hs, h⟩ := Option.bind_eq_some_iff.mp h
  obtain ⟨s', hs', hview⟩ := Option.map_eq_some_iff.mp h
  rw [Prod.mk.injEq] at hview
  obtain ⟨job, hjob, hkeeps, -⟩ := job_rows_truthful 0 1 1 [1, 2] .invite
    (smallDatabase [persist 1 1 [1, 2] .invite]) 0 rfl pausedAfterOne (by decide) s hs
  have hrows := hview.1
  rw [hjob, Option.map_some, Option.some.injEq, List.map_eq_cons_iff] at hrows
  obtain ⟨r, rest, hrest, hr, -⟩ := hrows
  obtain ⟨hord, hstate⟩ := Prod.mk.inj hr
  refine ⟨s, s', hs, hs', hview.2, r, hord, hstate, ?_⟩
  exact hkeeps r (hrest ▸ List.mem_cons_self ..) (by rw [hstate]; rfl) resumedAfterCrash
    s' (by decide) hs'

end App
end Runtime
end MigrationStudio
