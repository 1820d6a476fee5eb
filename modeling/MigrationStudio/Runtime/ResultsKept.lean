import MigrationStudio.Runtime.TerminalItems

/-!
# What becomes of a result

`_flush` takes the results out of the buffer before their write is known to have succeeded, and
nobody puts them back.  A result that the executor has produced is therefore in the buffer, then
in a write that waits, then in the table --- unless the transaction of that write is rolled back,
for its own sake or for another task of the batch, and then it is nowhere.

* `App.Kept`: the three places.
* `App.Tracked.step`: every step that loses no batch keeps every result.
* `App.not_kept_of_rollback`: a step that loses one loses its results.
* `App.results_kept_iff`: both together, over runs.
* `App.result_lost_at_completion`: a background flush that shares a transaction with a failing
  write of another component, and the job that is completed all the same.
-/

namespace MigrationStudio
namespace Runtime

open Foundations MigrationStudio.Core Accounts Jobs Telegram Storage Migration

namespace App

/-! ## The buffer -/

variable {id : JobId} {s s' : App} {l : Label} {u : ItemUpdate}

/-- The result is in the executor's buffer, in a write that waits, or in the table. -/
def Kept (id : JobId) (s : App) (u : ItemUpdate) : Prop :=
  (∃ e, s.executors id = some e ∧ u ∈ e.resultBuffer) ∨
    (∃ us c, .updateItems us c ∈ laneOf id s.writer.waiting ∧ u ∈ us) ∨
      ∃ job, s.db.jobs[id]? = some job ∧ job.items.Holds u

/-- The results that wait in the buffer or in the lane have been produced. -/
def Logged (id : JobId) (s : App) : Prop :=
  (∀ e, s.executors id = some e → ∀ u ∈ e.resultBuffer, .produced id u ∈ s.log) ∧
    ∀ us c, .updateItems us c ∈ laneOf id s.writer.waiting → ∀ u ∈ us, .produced id u ∈ s.log

/-- What is known along a run without a crash in which no result batch of the job is lost. -/
structure Tracked (id : JobId) (s : App) : Prop where
  course : OnCourse id s
  running : s.recovering = []
  kept : ∀ u, .produced id u ∈ s.log → Kept id s u
  final : ∀ u, .produced id u ∈ s.log → u.state.pending = false
  logged : Logged id s

/-! ## Nothing is lost -/

/-- What the course says of the executor. -/
theorem OnCourse.executor (hs : OnCourse id s) {e : Executor} (he : s.executors id = some e) :
    (∀ w jw, .write w ∈ e.todo → w.ofJob id = some jw → jw.critical = true) ∧
      (∀ u ∈ e.point.result, u.state.pending = false) ∧
      ∀ env m out, Executor.Transition env e m out → out.executor = none →
        e.resultBuffer = [] := by
  have hid := hs.sound.filed id e he
  obtain ⟨ex, hfollows, job, hjob, -, hruns⟩ := hs.course
  rcases hfollows with rfl | ⟨-, e', he', hstart⟩
  · rw [he] at hruns
    obtain ⟨rest, hrunning⟩ := hruns
    exact ⟨fun w jw hw hjw => hrunning.critical_of_mem hw (hid.symm ▸ hjw), hrunning.result,
      fun env m out ht => hrunning.resultBuffer_of_none ht⟩
  · obtain rfl := Option.some.inj (he.symm.trans he')
    refine ⟨fun w jw hw hjw => ?_, fun u hu => ?_, fun _ _ _ _ _ => hstart.results⟩
    · have hmem : Stmt.write w ∈ [e.setJob .running, e.setAccount .busy] := by
        rcases hstart.phase with hp | hp | hp
        · exact absurd (hp.2.2 ▸ hw) (by simp)
        · exact hp.2.1 ▸ hw
        · exact List.mem_cons_of_mem _ (hp.2.1 ▸ hw)
      simp only [Executor.setJob, Executor.setAccount, List.mem_cons, Stmt.write.injEq,
        List.not_mem_nil, or_false] at hmem
      rcases hmem with rfl | rfl
      · rw [LaneWrite.ofJob] at hjw
        split_ifs at hjw
        exact Option.some.inj hjw ▸ rfl
      · exact absurd hjw (by simp [LaneWrite.ofJob])
    · rcases hstart.point_eq with hp | hp <;> rw [hp] at hu <;>
        exact absurd hu (by simp [Point.result])

/-- The executor of the job moves. -/
theorem Tracked.own_executor (hs : Tracked id s) {e : Executor} (he : s.executors id = some e)
    {m : Move} {fails : Option String} {out : Outcome} (hm : s.moveOf e l = some (m, fails))
    (ht : Executor.Transition (s.env e.accountId) e m out) :
    Tracked id (s.applyOutcome id e out fails) := by
  have hid := hs.course.sound.filed id e he
  obtain ⟨hscript, hresult, hend⟩ := hs.course.executor he
  have hself : (s.applyOutcome id e out fails).executors id = out.executor :=
    Function.update_self ..
  have hlog : (s.applyOutcome id e out fails).log = s.log ++ out.event.toList := rfl
  have hnew : ∀ {v}, .produced id v ∈ out.event.toList → out.event = some (.produced id v) :=
    fun hv => Option.mem_toList.mp hv
  refine ⟨hs.course.own_executor he hs.running hm ht, hs.running, fun v hv => ?_, fun v hv => ?_,
    fun e' he' v hv => ?_, fun us c hus v hv => ?_⟩
  · rw [hlog] at hv
    rcases List.mem_append.mp hv with hv | hv
    · rcases hs.kept v hv with ⟨f, hf, hbuf⟩ | ⟨us, c, hus, hvus⟩ | ⟨job, hjob, hholds⟩
      · obtain rfl := Option.some.inj (he.symm.trans hf)
        rcases ht.resultBuffer with ⟨hw, -, -⟩ | ⟨-, hkeep⟩
        · obtain ⟨c, hc⟩ := Executor.jobWrites_flush hid hw
          refine Or.inr (Or.inl ⟨e.resultBuffer, c, ?_, hbuf⟩)
          rw [laneOf_applyOutcome, hc]
          exact List.mem_append_right _ (List.mem_singleton.mpr rfl)
        · cases hout : out.executor with
          | none =>
              rw [hend _ _ _ ht hout] at hbuf
              exact absurd hbuf (by simp)
          | some e' =>
              refine Or.inl ⟨e', hself.trans hout, ?_⟩
              rcases hkeep e' hout with heq | ⟨u, -, heq⟩
              · exact heq ▸ hbuf
              · exact heq ▸ List.mem_append_left _ hbuf
      · refine Or.inr (Or.inl ⟨us, c, ?_, hvus⟩)
        rw [laneOf_applyOutcome]
        exact List.mem_append_left _ hus
      · refine Or.inr (Or.inr ⟨job, ?_, hholds⟩)
        rw [db_applyOutcome]
        exact hjob
    · obtain ⟨-, -, e', he', heq⟩ := ht.produced_eq (hnew hv)
      refine Or.inl ⟨e', hself.trans he', ?_⟩
      rw [heq]
      exact List.mem_append_right _ (List.mem_singleton.mpr rfl)
  · rw [hlog] at hv
    rcases List.mem_append.mp hv with hv | hv
    · exact hs.final v hv
    · obtain ⟨-, hpoint, -⟩ := ht.produced_eq (hnew hv)
      exact hresult v (by rw [hpoint]; rfl)
  · rw [hself] at he'
    rw [hlog]
    rcases ht.resultBuffer with ⟨-, -, f, hf, hnil⟩ | ⟨-, hkeep⟩
    · obtain rfl := Option.some.inj (he'.symm.trans hf)
      exact absurd (hnil ▸ hv) (by simp)
    · rcases hkeep e' he' with heq | ⟨u, hev, heq⟩
      · exact List.mem_append_left _ (hs.logged.1 e he v (heq ▸ hv))
      · rw [heq] at hv
        rcases List.mem_append.mp hv with hv | hv
        · exact List.mem_append_left _ (hs.logged.1 e he v hv)
        · rw [List.mem_singleton.mp hv, hev, hid]
          exact List.mem_append_right _ (List.mem_singleton.mpr rfl)
  · rw [hlog]
    rw [laneOf_applyOutcome] at hus
    refine List.mem_append_left _ ?_
    rcases List.mem_append.mp hus with hus | hus
    · exact hs.logged.2 us c hus v hv
    · rcases ht.resultBuffer with ⟨hw, -, -⟩ | ⟨hwrite, -⟩
      · obtain ⟨c', hc'⟩ := Executor.jobWrites_flush hid hw
        rw [hc', List.mem_singleton] at hus
        exact hs.logged.1 e he v ((JobWrite.updateItems.inj hus).1 ▸ hv)
      · obtain ⟨w, hw, hjw⟩ := Option.bind_eq_some_iff.mp (Option.mem_toList.mp hus)
        rcases hwrite w hw with htodo | hother
        · exact absurd (hscript w _ htodo hjw) (by simp [JobWrite.critical])
        · rw [hother id] at hjw
          exact absurd hjw (by simp)

/-- The writer thread moves. -/
theorem Tracked.lane (hs : Tracked id s) {wl : WriterLabel WriteTask} {w : Lane}
    (hcourse : OnCourse id { s with writer := w }) (hl : ∀ t, wl ≠ .submit t)
    (hw : s.writer.step Storage.lane wl = some w) (hsafe : ResultsSafe id s.writer wl) :
    Tracked id { s with writer := w } := by
  refine ⟨hcourse, hs.running, fun u hu => ?_, hs.final, hs.logged.1, fun us c hus => ?_⟩
  · rcases hs.kept u hu with hbuf | hkept
    · exact Or.inl hbuf
    · obtain ⟨ex, -, job, hjob, hconsistent, hruns⟩ := hs.course.course
      have hQ : (∃ us c, .updateItems us c ∈ laneOf id s.writer.waiting ∧ u ∈ us) ∨
          job.items.Holds u := by
        refine hkept.imp_right fun ⟨job', hjob', hholds⟩ => ?_
        obtain rfl := Option.some.inj (hjob.symm.trans hjob')
        exact hholds
      have hrule := lane_rule
        (Q := fun (_ : Database) (job : Job) (ws : List JobWrite) =>
          (∃ us c, JobWrite.updateItems us c ∈ ws ∧ u ∈ us) ∨ job.items.Holds u)
        (fun db job v ws q _ _ hconsumes hQ => ?_) (fun _ _ _ _ _ hQ => hQ)
        (fun _ db job vs ws hvs hQ => ?_) hl hw hsafe ⟨job, hjob, hconsistent, hruns, hQ⟩
      · obtain ⟨job', hjob', -, -, hQ'⟩ := hrule
        exact Or.inr (hQ'.imp_right fun hholds => ⟨job', hjob', hholds⟩)
      · rcases hQ with ⟨us, c, hus, huus⟩ | hholds
        · rcases List.mem_cons.mp hus with rfl | hus
          · exact Or.inr (hconsumes.holds_results huus)
          · exact Or.inl ⟨us, c, hus, huus⟩
        · exact Or.inr (hconsumes.holds_apply (hs.final u hu) hholds)
      · refine hQ.imp_left fun ⟨us, c, hus, huus⟩ => ⟨us, c, ?_, huus⟩
        refine (List.mem_append.mp hus).resolve_left fun hlost => ?_
        exact absurd (hvs _ hlost) (by simp [JobWrite.critical])
  · obtain ⟨p, hp, hjw⟩ := mem_laneOf.mp hus
    exact hs.logged.2 us c (mem_laneOf.mpr ⟨p, mem_waiting_step hl hw hp, hjw⟩)

/-- **One step** that loses no result batch keeps every result. -/
theorem Tracked.step (hs : Tracked id s) (hcond : s.ResultsCommitted id l) (hcrash : l ≠ .crash)
    (h : s.Step l s') : Tracked id s' := by
  have hcourse := hs.course.step hcond h
  cases h.forJob id hs.course.sound with
  | quiet hq =>
      obtain ⟨later, hlog, hothers⟩ := hq.log
      have hsame : ∀ {u : ItemUpdate}, .produced id u ∈ s'.log ↔ .produced id u ∈ s.log := by
        intro u
        rw [hlog, List.mem_append]
        exact or_iff_left fun hu => hothers _ hu rfl
      refine ⟨hcourse, hq.recovering.trans hs.running, fun u hu => ?_,
        fun u hu => hs.final u (hsame.mp hu), fun e he u hu => hsame.mpr ?_,
        fun us c hus u hu => hsame.mpr ?_⟩
      · rw [Kept, hq.executor, hq.lane, hq.db]
        exact hs.kept u (hsame.mp hu)
      · exact hs.logged.1 e (hq.executor.symm.trans he) u hu
      · exact hs.logged.2 us c (hq.lane ▸ hus) u hu
  | crash hl => exact absurd hl hcrash
  | normalize hrec => exact absurd (hs.running.symm.trans hrec) (by simp)
  | built hadm =>
      have hback : ∀ {u : ItemUpdate} {a : Action},
          .produced id u ∈ s.log ++ [.built id a] → .produced id u ∈ s.log :=
        fun hu => by simpa using hu
      refine ⟨hcourse, hs.running, fun u hu => ?_, fun u hu => hs.final u (hback hu),
        fun e he u hu => ?_, fun us c hus u hu =>
          List.mem_append_left _ (hs.logged.2 us c hus u hu)⟩
      · refine (hs.kept u (hback hu)).imp_left fun ⟨e, he, _⟩ => ?_
        exact absurd (hadm.idle.symm.trans he) (by simp)
      · simp only [withExecutor, Function.update_self, Option.some.injEq] at he
        exact absurd (he ▸ hu) (by simp [newExecutor])
  | lane hrec hl hne hw => exact hs.lane hcourse hne hw (hcond _ hl)
  | executor hrec hk he hm ht => exact hs.own_executor he hm ht

/-! ## What a rollback loses -/

/-- A write that does not mention a pending ordinal leaves it pending. -/
theorem mem_pending_apply {job : Job} {o : ℕ} (ho : o ∈ job.pending) {w : JobWrite}
    (hw : ∀ us c, w = .updateItems us c → o ∉ us.map ItemUpdate.ordinal) :
    o ∈ (job.apply w).pending := by
  cases w with
  | setState state wait c clear => exact ho
  | event level code message member => exact ho
  | markRetry k n code text nextAt =>
      exact show o ∈ (job.items.markRetry k n code text nextAt).pendingOrdinals from
        ItemTable.mem_pendingOrdinals_modifyAt ho fun _ _ => rfl
  | updateItems us c => exact ItemTable.mem_pendingOrdinals_updateItems ho (hw us c rfl)

/-- The ordinal is pending in the table. -/
def PendingIn (id : JobId) (o : ℕ) (db : Database) : Prop :=
  ∃ job, db.jobs[id]? = some job ∧ o ∈ job.pending

/-- The ordinal is pending, and no waiting batch of results mentions it. -/
def Spared (id : JobId) (o : ℕ) (db : Database) (waiting : List (ℕ × WriteTask)) : Prop :=
  (∀ us c, JobWrite.updateItems us c ∈ laneOf id waiting → o ∉ us.map ItemUpdate.ordinal) ∧
    PendingIn id o db

/-- A batch that raises changes nothing, and one that does not mention the ordinal leaves it
pending. -/
theorem pendingIn_commitBatch {o : ℕ} {w : Lane} {b : List (ℕ × WriteTask)}
    (hb : (∃ p ∈ b, p.2.fails ≠ none) ∨
      ∀ us c, .updateItems us c ∈ laneOf id b → o ∉ us.map ItemUpdate.ordinal)
    (h : PendingIn id o w.database) : PendingIn id o (w.commitBatch lane b).database := by
  rcases hb with ⟨p, hp, hfails⟩ | hb
  · have hall : ∀ (ts : List WriteTask) (db db' : Database) (rs : List Unit),
        transaction lane.operation ts db = (db', .ok rs) → ∀ t ∈ ts, t.fails = none := by
      intro ts
      induction ts with
      | nil => exact fun _ _ _ _ t ht => absurd ht (by simp)
      | cons t ts ih =>
          intro db db' rs hrun t' ht'
          obtain ⟨u, r, rs', hop, hrest, -⟩ := transaction_cons_eq_ok.mp hrun
          rcases List.mem_cons.mp ht' with rfl | ht'
          · exact (operation_eq_ok hop).1
          · exact ih u db' rs' hrest t' ht'
    rw [DBWriter.commitBatch]
    split
    · exact h
    · rcases ht : transaction lane.operation (b.map Prod.snd) w.database with ⟨db', e | rs⟩
      · rw [commitTransaction_of_error ht]
        exact h
      · exact absurd (hall _ _ _ _ ht p.2 (List.mem_map_of_mem hp)) hfails
  · have hspared : Spared id o w.database (b ++ []) := ⟨by rw [List.append_nil]; exact hb, h⟩
    refine (commitBatch_rule (S := lane) (I := Spared id o)
      (fun db t rest db' r hop hI => ?_)
      (fun db db' e _ hI => ⟨fun us c hus => absurd hus (by simp [laneOf]), hI.2⟩) hspared).2
    obtain ⟨-, rfl⟩ := operation_eq_ok hop
    obtain ⟨hnot, job, hjob, hmem⟩ := hI
    rw [laneOf_cons] at hnot
    refine ⟨fun us c hus => hnot us c (List.mem_append_right _ hus), ?_⟩
    cases hw : t.2.write.ofJob id with
    | none => exact ⟨job, by rw [Database.jobs_apply, hw]; exact hjob, hmem⟩
    | some jw =>
        refine ⟨job.apply jw, by rw [Database.jobs_apply, hw, hjob]; rfl,
          mem_pending_apply hmem ?_⟩
        rintro us c rfl
        exact hnot us c (by rw [hw]; exact List.mem_append_left _ (List.mem_singleton.mpr rfl))

theorem pendingIn_foldl {o : ℕ} {bs : List (List (ℕ × WriteTask))} {w : Lane}
    (hbs : ∀ b ∈ bs, (∃ p ∈ b, p.2.fails ≠ none) ∨
      ∀ us c, .updateItems us c ∈ laneOf id b → o ∉ us.map ItemUpdate.ordinal)
    (h : PendingIn id o w.database) :
    PendingIn id o (bs.foldl (fun w b => w.commitBatch lane b) w).database := by
  induction bs generalizing w with
  | nil => exact h
  | cons b bs ih =>
      exact ih (fun c hc => hbs c (List.mem_cons_of_mem _ hc))
        (pendingIn_commitBatch (hbs b (List.mem_cons_self ..)) h)

/-- What the course says of the lane and of the buffer behind it. -/
theorem OnCourse.lane_drains (hs : OnCourse id s) :
    ∃ job q, s.db.jobs[id]? = some job ∧ Drains (laneOf id s.writer.waiting) job.pending q ∧
      ∀ e, s.executors id = some e → ∀ u ∈ e.resultBuffer, u.ordinal ∈ q := by
  obtain ⟨ex, hfollows, job, hjob, -, hruns⟩ := hs.course
  rcases hfollows with rfl | ⟨rfl, e, he, hstart⟩
  · cases hex : s.executors id with
    | none =>
        rw [hex] at hruns
        obtain ⟨q, hlane⟩ := hruns
        exact ⟨job, q, hjob, hlane, fun e he => absurd he (by simp)⟩
    | some e =>
        rw [hex] at hruns
        obtain ⟨rest, hrunning⟩ := hruns
        refine ⟨job, _, hjob, hrunning.lane, fun f hf u hu => ?_⟩
        obtain rfl := Option.some.inj hf
        exact List.mem_append_left _ (List.mem_map_of_mem hu)
  · obtain ⟨q, hlane⟩ := hruns
    refine ⟨job, q, hjob, hlane, fun f hf u hu => ?_⟩
    obtain rfl := Option.some.inj (he.symm.trans hf)
    exact absurd (hstart.results ▸ hu) (by simp)

/-- **A rollback loses its results.**  When the writer rolls back a transaction with a result
batch of the job, one of the results that have been produced is then in no place. -/
theorem exists_lost (hs : Tracked id s) {wl : WriterLabel WriteTask} {w : Lane}
    (hl : ∀ t, wl ≠ .submit t) (hw : s.writer.step lane wl = some w)
    (hnot : ¬ ResultsSafe id s.writer wl) :
    ∃ u, .produced id u ∈ s.log ∧ ¬ Kept id { s with writer := w } u := by
  simp only [ResultsSafe, not_forall] at hnot
  obtain ⟨b, hb, hfails, jw, hjw, hroutine⟩ := hnot
  obtain ⟨us, c, rfl⟩ : ∃ us c, jw = .updateItems us c := by
    cases jw with
    | updateItems us c => exact ⟨us, c, rfl⟩
    | _ => exact absurd rfl hroutine
  obtain ⟨hdb, hwait⟩ := DBWriter.thread_step hl hw
  obtain ⟨before, after, hbatches⟩ := List.append_of_mem hb
  obtain ⟨xs, ys, hsplit⟩ := List.append_of_mem hjw
  have hlane : laneOf id s.writer.waiting =
      (laneOf id before.flatten ++ xs) ++ .updateItems us c ::
        (ys ++ laneOf id after.flatten ++ laneOf id w.waiting) := by
    rw [hwait, hbatches]
    simp only [List.flatten_append, List.flatten_cons, laneOf_append, hsplit, List.append_assoc,
      List.cons_append]
  obtain ⟨job, q, hjob, hdrains, hbuffer⟩ := hs.course.lane_drains
  have hmem : JobWrite.updateItems us c ∈ laneOf id s.writer.waiting := by
    rw [hlane]
    exact List.mem_append_right _ (List.mem_cons_self ..)
  obtain ⟨front, -, hconsumed⟩ := hdrains.consumed
  obtain ⟨u, hu⟩ := List.exists_mem_of_ne_nil us (hconsumed us c hmem).1
  rw [hlane] at hdrains
  obtain ⟨hfinal, hpending, hrest, hothers⟩ :=
    hdrains.unique job.items.nodup_pendingOrdinals hu
  refine ⟨u, hs.logged.2 us c hmem u hu, ?_⟩
  rintro (⟨e, he, hbuf⟩ | ⟨vs, d, hvs, huvs⟩ | ⟨job', hjob', hholds⟩)
  · exact hrest (hbuffer e he u hbuf)
  · exact hothers vs d (Or.inr (List.mem_append_right _ hvs)) (List.mem_map_of_mem huvs)
  · -- the other batches do not mention the ordinal, so it is still pending
    have hpend : PendingIn id u.ordinal w.database := by
      rw [hdb]
      refine pendingIn_foldl (fun b' hb' => ?_) ⟨job, hjob, hpending⟩
      rw [hbatches] at hb'
      have hflat : ∀ (bs : List (List (ℕ × WriteTask))), b' ∈ bs → ∀ v ∈ laneOf id b',
          v ∈ laneOf id bs.flatten := by
        intro bs hbs v hv
        obtain ⟨p, hp, hpv⟩ := mem_laneOf.mp hv
        exact mem_laneOf.mpr ⟨p, List.mem_flatten.mpr ⟨b', hbs, hp⟩, hpv⟩
      rcases List.mem_append.mp hb' with hb' | hb'
      · exact Or.inr fun vs d hvs =>
          hothers vs d (Or.inl (List.mem_append_left _ (hflat before hb' _ hvs)))
      · rcases List.mem_cons.mp hb' with rfl | hb'
        · exact Or.inl hfails
        · exact Or.inr fun vs d hvs => hothers vs d
            (Or.inr (List.mem_append_left _ (List.mem_append_right _ (hflat after hb' _ hvs))))
    obtain ⟨job'', hjob'', hmem''⟩ := hpend
    obtain rfl := Option.some.inj (hjob'.symm.trans hjob'')
    exact hholds.terminal hfinal hmem''

/-! ## Over runs -/

theorem tracked_start {db : Database} {job : Job} (hjob : db.jobs[id]? = some job)
    (hconsistent : job.Consistent) (now : ℕ) : Tracked id (App.start db now) where
  course := onCourse_start hjob hconsistent now
  running := rfl
  kept := fun _ h => absurd h (by simp [App.start])
  final := fun _ h => absurd h (by simp [App.start])
  logged := ⟨fun _ h => absurd h (by simp [App.start]), fun us c h =>
    absurd h (by simp [App.start, DBWriter.start, DBWriter.waiting, laneOf])⟩

theorem tracked_of_run (hs : Tracked id s) {ls : List Label}
    (hcond : Along App.step (ResultsCommitted id) s ls) (hcrash : ∀ l ∈ ls, l ≠ .crash)
    (h : runLabels App.step s ls = some s') : Tracked id s' :=
  invariant_runLabels (fun _ _ _ hI hC hstep => hI.step hC.1 hC.2 (step_cases hstep)) hs
    (hcond.and_forall_mem hcrash) h

/-- A step that is not committed in full for the job is a step of the writer thread. -/
theorem lane_of_not_committed (hstep : s.step l = some s') (hnot : ¬ s.ResultsCommitted id l) :
    ∃ wl w, laneLabel l = some wl ∧ s.writer.step lane wl = some w ∧
      s' = { s with writer := w } ∧ ¬ ResultsSafe id s.writer wl := by
  simp only [ResultsCommitted, not_forall] at hnot
  obtain ⟨wl, hwl, hsafe⟩ := hnot
  cases l with
  | get | timeout =>
      obtain rfl := Option.some.inj hwl
      simp only [step] at hstep
      split_ifs at hstep
      obtain ⟨w, hw, rfl⟩ := Option.map_eq_some_iff.mp hstep
      exact ⟨_, w, rfl, hw, rfl, hsafe⟩
  | _ => exact absurd hwl (by simp [laneLabel])

/-- **A result is kept as long as its transaction is.**  In every run from a planned job, without a
crash: every result that has been produced is, in every state of the run, in the executor's
buffer, in a waiting write or in the table, exactly when no transaction that the writer rolls
back in the run contains a result batch of the job.  Then no state of the run shows the job
completed with an item that is READY or RETRY. -/
theorem results_kept_iff (id : JobId) (account : AccountId) (group : GroupId)
    (items : List MemberId) (action : Action) (db : Database) (now : ℕ)
    (hjob : db.jobs[id]? = some (persist account group items action)) (ls : List Label)
    (hcrash : ∀ l ∈ ls, l ≠ .crash) (s : App)
    (hrun : runLabels App.step (App.start db now) ls = some s) :
    ((∀ pre post t, ls = pre ++ post → runLabels App.step (App.start db now) pre = some t →
        ∀ u, .produced id u ∈ t.log → Kept id t u) ↔
      Along App.step (ResultsCommitted id) (App.start db now) ls) ∧
    (Along App.step (ResultsCommitted id) (App.start db now) ls →
      ∀ pre post t job, ls = pre ++ post →
        runLabels App.step (App.start db now) pre = some t → t.db.jobs[id]? = some job →
          job.state = .completed ∨ job.state = .completedWithErrors →
            ∀ r ∈ job.items.rows, r.state.pending = false) := by
  have hstart : Tracked id (App.start db now) :=
    tracked_start hjob (consistent_persist account group items action) now
  have htracked : ∀ pre post t, ls = pre ++ post →
      runLabels App.step (App.start db now) pre = some t →
        Along App.step (ResultsCommitted id) (App.start db now) pre → Tracked id t := by
    rintro pre post t rfl hpre hal
    exact tracked_of_run hstart hal (fun l hl => hcrash l (List.mem_append_left _ hl)) hpre
  refine ⟨⟨fun hkept => ?_, fun hal pre post t hls hpre => ?_⟩,
    fun hal pre post t job hls hpre hjob' hcomplete r hr => ?_⟩
  · by_contra hnot
    obtain ⟨pre, l, post, t, t', hls, hpre, hal, hl, hstep⟩ := exists_first_failure hrun hnot
    have ht := htracked pre (l :: post) t hls hpre hal
    obtain ⟨wl, w, hwl, hw, rfl, hsafe⟩ := lane_of_not_committed hstep hl
    obtain ⟨u, hu, hlost⟩ := exists_lost ht (laneLabel_ne_submit hwl) hw hsafe
    refine hlost (hkept (pre ++ [l]) post _ (by rw [hls]; simp) ?_ u hu)
    exact runLabels_append_eq_some.mpr ⟨t, hpre, runLabels_cons_eq_some.mpr ⟨_, hstep, rfl⟩⟩
  · have halpre := ((along_append hpre).mp (hls ▸ hal)).1
    exact (htracked pre post t hls hpre halpre).kept
  · have halpre := ((along_append hpre).mp (hls ▸ hal)).1
    obtain ⟨ex, -, row, hrow, hconsistent, -⟩ :=
      (htracked pre post t hls hpre halpre).course.course
    obtain rfl := Option.some.inj (hjob'.symm.trans hrow)
    exact hconsistent.terminal_of_complete hcomplete hr

/-! ## A lost result -/

/-- The first of two members is done, and the executor sleeps before the second.  The background
flush submits the first result, which shares its transaction with a write of another component
that raises. -/
def flushWithFailure : List Label :=
  [.start 0 1 (3 * second)] ++ enterLoop 0 ++ sendRpc 0 ++ keepResult 0 ++
    [.advance 0, .advance 0, .advance 0, .tick (3 * second), .delayed 0 none,
      .foreign .other false (some "database is locked"), .get, .get, .timeout, .delayedDone 0]

/-- The second member, and the natural end of the run. -/
def secondAndEnd : List Label :=
  [.advance 0, .answer 0 none, .advance 0, .advance 0] ++ resultWrite 0 ++
    [.advance 0, .advance 0, .read 0, .advance 0, .advance 0, .execute 0 none, .advance 0] ++
    criticalWrite 0 ++ criticalWrite 0 ++ [.advance 0]

/-- Both invitations succeed, the first result is lost with the other component's write, and the
job is COMPLETED while the first item is READY. -/
theorem result_lost_at_completion :
    ∃ s job, runLabels App.step (App.start (smallDatabase [persist 1 1 [1, 2] .invite]) 0)
        (flushWithFailure ++ secondAndEnd) = some s ∧
      .produced 0 { ordinal := 0, state := .success, attempts := 1 } ∈ s.log ∧
      s.executors 0 = none ∧ s.writer.waiting = [] ∧ s.db.jobs[0]? = some job ∧
      job.state = .completed ∧ job.items.rows.map Item.state = [.ready, .success] := by
  have h : ((runLabels App.step (App.start (smallDatabase [persist 1 1 [1, 2] .invite]) 0)
      (flushWithFailure ++ secondAndEnd)).map fun s =>
        (decide (.produced 0 { ordinal := 0, state := .success, attempts := 1 } ∈ s.log) &&
          (s.executors 0).isNone && s.writer.waiting.isEmpty,
          (s.db.jobs[0]?).map fun job => (job.state, job.items.rows.map Item.state))) =
      some (true, some (.completed, [.ready, .success])) := by
    decide +kernel
  obtain ⟨s, hs, hview⟩ := Option.map_eq_some_iff.mp h
  simp only [Prod.mk.injEq, Bool.and_eq_true, decide_eq_true_eq, Option.isNone_iff_eq_none,
    List.isEmpty_iff] at hview
  obtain ⟨⟨⟨hlog, hexec⟩, hwait⟩, hjob⟩ := hview
  obtain ⟨job, hjob, hrow⟩ := Option.map_eq_some_iff.mp hjob
  rw [Prod.mk.injEq] at hrow
  exact ⟨s, job, hs, hlog, hexec, hwait, hjob, hrow.1, hrow.2⟩

/-- The same job when nothing fails, up to a pause after the first result. -/
theorem results_kept_paused :
    ∃ s, runLabels App.step (App.start (smallDatabase [persist 1 1 [1, 2] .invite]) 0)
        pausedAfterOne = some s ∧
      .produced 0 { ordinal := 0, state := .success, attempts := 1 } ∈ s.log ∧
      Kept 0 s { ordinal := 0, state := .success, attempts := 1 } := by
  have h : ((runLabels App.step (App.start (smallDatabase [persist 1 1 [1, 2] .invite]) 0)
      pausedAfterOne).map fun s =>
        decide (.produced 0 { ordinal := 0, state := .success, attempts := 1 } ∈ s.log)) =
      some true := by
    decide +kernel
  obtain ⟨s, hs, hlog⟩ := Option.map_eq_some_iff.mp h
  rw [decide_eq_true_eq] at hlog
  have hiff := results_kept_iff 0 1 1 [1, 2] .invite
    (smallDatabase [persist 1 1 [1, 2] .invite]) 0 rfl pausedAfterOne (by decide) s hs
  have hsucceed : ∀ l ∈ pausedAfterOne, l.writesSucceed := by decide
  have hal := along_resultsCommitted (nothingFails_start
    (smallDatabase [persist 1 1 [1, 2] .invite]) 0) 0 hsucceed
  exact ⟨s, hs, hlog, hiff.1.mpr hal pausedAfterOne [] s (List.append_nil _).symm hs _ hlog⟩

end App
end Runtime
end MigrationStudio
