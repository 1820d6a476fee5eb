import MigrationStudio.Migration.Progress
import MigrationStudio.Runtime.Ownership

/-!
# A job on its course

The rows of a job, its writes in the lane and its executor belong together: `App.OnCourse` says
that the row is consistent, that the waiting writes drain the pending ordinals, and that the
executor, if there is one, is running on from there or has not begun.  It holds along every run in
which no result batch of the job is lost, whatever else fails, stops or crashes.

* `App.ResultsCommitted`: the condition on a step, that no transaction which the writer rolls back
  contains a result batch of the job.
* `lane_rule`: what has to be checked of a property of the job's row and waiting writes, so that
  the writer thread keeps it.
* `App.OnCourse.step`: one step of the program.
-/

namespace MigrationStudio
namespace Runtime

open Foundations MigrationStudio.Core Accounts Jobs Telegram Storage Migration

/-! ## The writes of a job in the lane -/

variable {id : JobId}

/-- The writes of the job that wait, in order. -/
def laneOf (id : JobId) (waiting : List (ℕ × WriteTask)) : List JobWrite :=
  waiting.filterMap fun p => p.2.write.ofJob id

theorem laneOf_append (ws vs : List (ℕ × WriteTask)) :
    laneOf id (ws ++ vs) = laneOf id ws ++ laneOf id vs :=
  List.filterMap_append

theorem laneOf_cons (p : ℕ × WriteTask) (ws : List (ℕ × WriteTask)) :
    laneOf id (p :: ws) = (p.2.write.ofJob id).toList ++ laneOf id ws := by
  cases h : p.2.write.ofJob id <;> simp [laneOf, h]

theorem mem_laneOf {waiting : List (ℕ × WriteTask)} {jw : JobWrite} :
    jw ∈ laneOf id waiting ↔ ∃ p ∈ waiting, p.2.write.ofJob id = some jw :=
  List.mem_filterMap

/-- No write of the job that waits has a number above `k`. -/
def UpTo (id : JobId) (waiting : List (ℕ × WriteTask)) (k : ℕ) : Prop :=
  ∀ p ∈ waiting, (p.2.write.ofJob id).isSome → p.1 ≤ k

theorem UpTo.sublist {ws vs : List (ℕ × WriteTask)} {k : ℕ} (h : UpTo id ws k)
    (hsub : ∀ p ∈ vs, p ∈ ws) : UpTo id vs k :=
  fun p hp => h p (hsub p hp)

/-- When every waiting task is numbered above `k`, the job has no write left. -/
theorem UpTo.laneOf_eq_nil {waiting : List (ℕ × WriteTask)} {k : ℕ} (h : UpTo id waiting k)
    (hk : ∀ p ∈ waiting, k < p.1) : laneOf id waiting = [] := by
  rw [laneOf, List.filterMap_eq_nil_iff]
  intro p hp
  by_contra hne
  exact absurd (h p hp (Option.isSome_iff_ne_none.mpr hne)) (not_le.mpr (hk p hp))

/-- Fewer tasks wait. -/
theorem laneOf_eq_nil_of_subset {ws vs : List (ℕ × WriteTask)} (h : laneOf id ws = [])
    (hsub : ∀ p ∈ vs, p ∈ ws) : laneOf id vs = [] := by
  rw [List.eq_nil_iff_forall_not_mem] at h ⊢
  intro jw hjw
  obtain ⟨p, hp, hpw⟩ := mem_laneOf.mp hjw
  exact h jw (mem_laneOf.mpr ⟨p, hsub p hp, hpw⟩)

theorem ofJob_of_foreign {w : LaneWrite} (h : ofMigration w = false) : w.ofJob id = none := by
  cases w <;> first | rfl | exact absurd h (by simp [ofMigration])

/-! ## The writer thread -/

theorem operation_eq_ok {t : WriteTask} {db db' : Database} {r : Unit}
    (h : lane.operation t db = (db', .ok r)) : t.fails = none ∧ db' = db.apply t.write := by
  simp only [lane] at h
  split at h
  · exact absurd (congrArg Prod.snd h) (by simp)
  · rename_i hnone
    exact ⟨hnone, (Prod.mk.injEq .. ▸ h).1.symm⟩

/-- A transaction is rolled back only for an operation that raises. -/
theorem fails_of_transaction {ts : List WriteTask} {db db' : Database} {e : String}
    (h : transaction lane.operation ts db = (db', .error e)) : ∃ t ∈ ts, t.fails ≠ none := by
  by_contra hnone
  simp only [not_exists, not_and, not_not] at hnone
  have hok : ∀ (ts : List WriteTask) (db : Database), (∀ t ∈ ts, t.fails = none) →
      ∃ db' rs, transaction lane.operation ts db = (db', .ok rs) := by
    intro ts
    induction ts with
    | nil => exact fun db _ => ⟨db, [], rfl⟩
    | cons t ts ih =>
        intro db hall
        obtain ⟨db', rs, hrest⟩ :=
          ih (db.apply t.write) fun u hu => hall u (List.mem_cons_of_mem _ hu)
        have hop : lane.operation t db = (db.apply t.write, .ok ()) := by
          simp only [lane, hall t (List.mem_cons_self ..)]
        exact ⟨db', _, transaction_cons_eq_ok.mpr ⟨_, _, rs, hop, hrest, rfl⟩⟩
  obtain ⟨db'', rs, hrun⟩ := hok ts db hnone
  exact absurd (congrArg Prod.snd (h.symm.trans hrun)) (by simp)

/-- No batch of the move that is rolled back contains a result batch of the job. -/
def ResultsSafe (id : JobId) (w : Lane) (wl : WriterLabel WriteTask) : Prop :=
  ∀ b ∈ w.batches lane wl, (∃ p ∈ b, p.2.fails ≠ none) → ∀ jw ∈ laneOf id b, jw.critical = true

/-- **The rule of the lane for one job.**  `Q` is a property of the database, the row of the job
and its waiting writes that a committed write of the job keeps, that a committed write of another
component keeps, and that the loss of critical writes keeps if something fails. -/
theorem lane_rule {Q : Database → Job → List JobWrite → Prop} {ex : Option Executor}
    (hcommit : ∀ db job w ws q, db.jobs[id]? = some job → job.Consistent →
      Consumes w job.pending q → Q db job (w :: ws) → Q (db.applyJob id w) (job.apply w) ws)
    (hother : ∀ db job v ws, v.ofJob id = none → Q db job ws → Q (db.apply v) job ws)
    {w w' : Lane} {wl : WriterLabel WriteTask}
    (hdrop : (∃ b ∈ w.batches lane wl, ∃ p ∈ b, p.2.fails ≠ none) → ∀ db job vs ws,
      (∀ v ∈ vs, v.critical = true) → Q db job (vs ++ ws) → Q db job ws)
    (hl : ∀ t, wl ≠ .submit t)
    (hstep : w.step lane wl = some w') (hsafe : ResultsSafe id w wl)
    (h : ∃ job, w.database.jobs[id]? = some job ∧ job.Consistent ∧
      Executor.RunsOn job.pending (laneOf id w.waiting) ex ∧
      Q w.database job (laneOf id w.waiting)) :
    ∃ job, w'.database.jobs[id]? = some job ∧ job.Consistent ∧
      Executor.RunsOn job.pending (laneOf id w'.waiting) ex ∧
      Q w'.database job (laneOf id w'.waiting) := by
  refine DBWriter.step_rule
    (I := fun db waiting => ∃ job, db.jobs[id]? = some job ∧ job.Consistent ∧
      Executor.RunsOn job.pending (laneOf id waiting) ex ∧ Q db job (laneOf id waiting))
    (S := lane) ?_ hl hstep ?_ h
  · rintro db t rest db' r hop ⟨job, hjob, hconsistent, hruns, hQ⟩
    obtain ⟨-, rfl⟩ := operation_eq_ok hop
    rw [laneOf_cons] at hruns hQ
    cases hw : t.2.write.ofJob id with
    | none =>
        rw [hw, Option.toList_none, List.nil_append] at hruns hQ
        refine ⟨job, ?_, hconsistent, hruns, hother db job _ _ hw hQ⟩
        rw [Database.jobs_apply, hw]
        exact hjob
    | some jw =>
        rw [hw, Option.toList_some, List.singleton_append] at hruns hQ
        obtain ⟨q, hconsumes, hruns'⟩ := hruns.commit job.items.nodup_pendingOrdinals
        have hwrite : t.2.write = .job id jw := by
          revert hw
          cases t.2.write with
          | job k kw =>
              intro hw
              rw [LaneWrite.ofJob] at hw
              split_ifs at hw with hk
              rw [hk, Option.some.inj hw]
          | _ => exact fun hw => absurd hw (by simp [LaneWrite.ofJob])
        refine ⟨job.apply jw, ?_, hconsumes.consistent_apply hconsistent, ?_, ?_⟩
        · rw [Database.jobs_apply, hw, hjob]
          rfl
        · rw [hconsumes.pending_apply]
          exact hruns'
        · rw [hwrite]
          exact hcommit db job jw _ q hjob hconsistent hconsumes hQ
  · rintro b hb rest db db' e hfail ⟨job, hjob, hconsistent, hruns, hQ⟩
    obtain ⟨t, ht, hraise⟩ := fails_of_transaction hfail
    obtain ⟨p, hp, rfl⟩ := List.mem_map.mp ht
    have hcritical := hsafe b hb ⟨p, hp, hraise⟩
    rw [laneOf_append] at hruns hQ
    exact ⟨job, hjob, hconsistent, hruns.drop hcritical,
      hdrop ⟨b, hb, p, hp, hraise⟩ db job _ _ hcritical hQ⟩

namespace App

/-! ## The course of a job -/

/-- What the course of the job goes on with: its executor, or nothing while that has not begun. -/
def Follows (id : JobId) (s : App) (ex : Option Executor) : Prop :=
  ex = s.executors id ∨
    (ex = none ∧ ∃ e, s.executors id = some e ∧ e.Starting (UpTo id s.writer.waiting))

/-- **The job is on its course.**  Its row is consistent, and its waiting writes and its executor
go on from there. -/
structure OnCourse (id : JobId) (s : App) : Prop where
  sound : s.Sound
  recovered : s.recovering ≠ [] → ∀ j, s.executors j = none
  course : ∃ ex, s.Follows id ex ∧ ∃ job, s.db.jobs[id]? = some job ∧ job.Consistent ∧
    Executor.RunsOn job.pending (laneOf id s.writer.waiting) ex

/-- No transaction that the step rolls back contains a result batch of the job. -/
def ResultsCommitted (id : JobId) (s : App) (l : Label) : Prop :=
  ∀ wl, laneLabel l = some wl → ResultsSafe id s.writer wl

variable {s s' : App} {l : Label}

theorem follows_none (h : s.executors id = none) {ex : Option Executor} (hex : s.Follows id ex) :
    ex = none := by
  rcases hex with rfl | ⟨rfl, -⟩
  · exact h
  · rfl

/-- A step that leaves the job's executor, and takes no write of the job into the lane. -/
theorem Follows.of_same {ex : Option Executor} (h : s.Follows id ex)
    (hex : s'.executors id = s.executors id)
    (hup : ∀ k, UpTo id s.writer.waiting k → UpTo id s'.writer.waiting k) :
    s'.Follows id ex := by
  rcases h with rfl | ⟨rfl, e, he, hstart⟩
  · exact Or.inl hex.symm
  · exact Or.inr ⟨rfl, e, hex.trans he, hstart.mono hup⟩

theorem waiting_submit_other {w : Lane} {t : WriteTask} (ht : t.write.ofJob id = none) :
    laneOf id (w.submit t).waiting = laneOf id w.waiting ∧
      ∀ k, UpTo id w.waiting k → UpTo id (w.submit t).waiting k := by
  rw [waiting_submit]
  refine ⟨by rw [laneOf_append, laneOf_cons, ht]; simp [laneOf], fun k hk p hp hjob => ?_⟩
  rcases List.mem_append.mp hp with hp | hp
  · exact hk p hp hjob
  · rw [List.mem_singleton.mp hp, ht] at hjob
    exact absurd hjob (by simp)

/-- The recovery leaves the items of every job, and keeps its row consistent. -/
theorem normalizeJob_job {db : Database} {job : Job} (hjob : db.jobs[id]? = some job)
    (hconsistent : job.Consistent) (now : ℕ) (k : JobId) :
    ∃ job', (normalizeJob now k db).jobs[id]? = some job' ∧ job'.Consistent ∧
      job'.items = job.items := by
  rw [normalizeJob]
  split
  · exact ⟨job, hjob, hconsistent, rfl⟩
  · rename_i row hrow
    split_ifs with hwait hstate
    · exact ⟨job, hjob, hconsistent, rfl⟩
    · by_cases hk : k = id
      · subst hk
        obtain rfl := Option.some.inj (hrow.symm.trans hjob)
        have hconsumes : Consumes (.setState .paused none
            (some { row.checkpoint with recoveredAfterRestart := true }) false)
            row.pending row.pending := by
          refine ⟨rfl, fun c hc => ?_, fun h => absurd h (by decide)⟩
          obtain rfl := Option.some.inj hc
          exact hconsistent.checkpoint
        refine ⟨_, ?_, hconsumes.consistent_apply hconsistent, rfl⟩
        rw [Database.jobs_applyJob, if_pos rfl, hjob, Option.map_some]
      · refine ⟨job, ?_, hconsistent, rfl⟩
        rw [Database.jobs_applyJob, if_neg fun h => hk h.symm]
        exact hjob
    · exact ⟨job, hjob, hconsistent, rfl⟩

theorem future_of_resumed {e : Executor} {r : Except String Unit} {fails : Option String}
    (h : s.moveOf e l = some (.resumed r, fails)) :
    ∃ a, e.awaiting = some a ∧ s.writer.future a.future = some r := by
  cases l with
  | resumed job =>
      rw [moveOf, Option.bind_eq_some_iff] at h
      obtain ⟨a, ha, h⟩ := h
      obtain ⟨r', hr, heq⟩ := Option.map_eq_some_iff.mp h
      simp only [Prod.mk.injEq, Move.resumed.injEq] at heq
      exact ⟨a, ha, heq.1 ▸ hr⟩
  | delayedDone job =>
      rw [moveOf] at h
      split at h
      · obtain ⟨r', hr, heq⟩ := Option.map_eq_some_iff.mp h
        exact absurd heq (by simp)
      · exact absurd h (by simp)
  | _ => simp [moveOf] at h

/-- The waiting tasks after a step of an executor. -/
theorem waiting_applyOutcome (s : App) (job : JobId) (e : Executor) (out : Outcome)
    (fails : Option String) :
    (s.applyOutcome job e out fails).writer.waiting =
      s.writer.waiting ++ (out.write.map fun w =>
        (s.writer.submitted.length, taskOf w fails)).toList := by
  rw [applyOutcome]
  cases out.write with
  | none => simp
  | some w =>
      simp only [Option.map_some, Option.toList_some]
      rw [waiting_submit]

theorem laneOf_applyOutcome (s : App) (job : JobId) (e : Executor) (out : Outcome)
    (fails : Option String) :
    laneOf id (s.applyOutcome job e out fails).writer.waiting =
      laneOf id s.writer.waiting ++ out.jobWrites id := by
  rw [waiting_applyOutcome, laneOf_append, Outcome.jobWrites]
  cases out.write with
  | none => rfl
  | some w =>
      rw [Option.map_some, Option.toList_some, laneOf_cons, Option.bind_some]
      simp [laneOf, taskOf]

theorem db_applyOutcome (s : App) (job : JobId) (e : Executor) (out : Outcome)
    (fails : Option String) : (s.applyOutcome job e out fails).db = s.db := by
  rw [db, db, applyOutcome]
  cases out.write <;> rfl

/-! ## A step, seen from the job -/

/-- The step of another party: the tables, the job's lane and the job's executor stay, and the log
grows by events of others. -/
structure Quiet (id : JobId) (s s' : App) : Prop where
  db : s'.db = s.db
  lane : laneOf id s'.writer.waiting = laneOf id s.writer.waiting
  upTo : ∀ k, UpTo id s.writer.waiting k → UpTo id s'.writer.waiting k
  executor : s'.executors id = s.executors id
  recovering : s'.recovering = s.recovering
  idle : s.recovering ≠ [] → s'.executors = s.executors
  log : ∃ later, s'.log = s.log ++ later ∧ ∀ event ∈ later, event.job ≠ some id

/-- The cases of a step for one job. -/
inductive JobStep (id : JobId) (s : App) (l : Label) : App → Prop
  | quiet {s' : App} (h : Quiet id s s') : JobStep id s l s'
  | crash (hl : l = .crash) :
      JobStep id s l
        { s with
          writer := DBWriter.start s.db
          executors := fun _ => none
          lock := fun _ => none
          recovering := s.db.recoverable
          recoveryNow := s.now }
  | normalize {k : JobId} {rest : List JobId} (h : s.recovering = k :: rest) :
      JobStep id s l
        { s with
          writer := DBWriter.start (normalizeJob s.recoveryNow k s.db)
          recovering := rest }
  | built {row : Job} {account : AccountId} {target : Telegram.GroupContext}
      {scheduler : InviteScheduler} (h : s.Admitted id row account target) :
      JobStep id s l (s.withExecutor id (s.newExecutor id account target scheduler))
  | lane {wl : WriterLabel WriteTask} {w : Lane} (hrec : s.recovering = [])
      (hl : laneLabel l = some wl) (hne : ∀ t, wl ≠ .submit t)
      (h : s.writer.step lane wl = some w) : JobStep id s l { s with writer := w }
  | executor {e : Executor} {m : Move} {fails : Option String} {out : Outcome}
      (hrec : s.recovering = []) (hjob : jobOf l = some id) (he : s.executors id = some e)
      (hm : s.moveOf e l = some (m, fails))
      (h : Executor.Transition (s.env e.accountId) e m out) :
      JobStep id s l (s.applyOutcome id e out fails)

/-- An executor of another job submits no write of this one. -/
theorem jobWrites_of_ne (hs : s.Sound) {job : JobId} {e : Executor}
    (he : s.executors job = some e) (hne : job ≠ id) {env : Env} {m : Move} {out : Outcome}
    (h : Executor.Transition env e m out) : ∀ w ∈ out.write, w.ofJob id = none := by
  intro w hw
  have hid := hs.filed job e he
  have howns := (h.owned (hid.symm ▸ hs.owned job e he)).2 w hw
  cases w with
  | job k jw =>
      rw [LaneWrite.ofJob, if_neg]
      rw [howns.1, hid]
      exact hne
  | _ => rfl

/-- A step of another executor is quiet. -/
theorem quiet_applyOutcome (hs : s.Sound) {k : JobId} {e : Executor}
    (he : s.executors k = some e) (hk : k ≠ id) (hrec : s.recovering = []) {m : Move}
    {fails : Option String} {out : Outcome}
    (ht : Executor.Transition (s.env e.accountId) e m out) :
    Quiet id s (s.applyOutcome k e out fails) := by
  have hwrites := jobWrites_of_ne hs he hk ht
  have hnone : out.jobWrites id = [] := by
    rw [Outcome.jobWrites]
    cases hw : out.write with
    | none => rfl
    | some w => rw [Option.bind_some, hwrites w hw, Option.toList_none]
  refine ⟨db_applyOutcome .., ?_, fun n hn p hp hjob => ?_, Function.update_of_ne hk.symm .., rfl,
    fun hne => absurd hrec hne, out.event.toList, rfl, fun event hevent hjob => ?_⟩
  · rw [laneOf_applyOutcome, hnone, List.append_nil]
  · rw [waiting_applyOutcome] at hp
    rcases List.mem_append.mp hp with hp | hp
    · exact hn p hp hjob
    · obtain ⟨w, hw, rfl⟩ := Option.map_eq_some_iff.mp (Option.mem_toList.mp hp)
      have hother : (taskOf w fails).write.ofJob id = none := hwrites w hw
      rw [hother] at hjob
      exact absurd hjob (by simp)
  · exact hk ((hs.filed k e he).symm.trans
      (ht.event_job event (Option.mem_toList.mp hevent) id hjob).symm)

/-- **Seen from a job**, the program does nothing else. -/
theorem Step.forJob (id : JobId) (hs : s.Sound) (h : s.Step l s') : JobStep id s l s' := by
  have hsame : s.log = s.log ++ [] := (List.append_nil _).symm
  cases h with
  | tick d => exact .quiet ⟨rfl, rfl, fun _ h => h, rfl, rfl, fun _ => rfl, [], hsame, by simp⟩
  | refused l => exact .quiet ⟨rfl, rfl, fun _ h => h, rfl, rfl, fun _ => rfl, [], hsame, by simp⟩
  | crash => exact .crash rfl
  | normalize hrec => exact .normalize hrec
  | @foreign w critical fails hown =>
      obtain ⟨hlane, hup⟩ := waiting_submit_other (w := s.writer) (t := ⟨w, critical, fails⟩)
        (ofJob_of_foreign hown)
      exact .quiet ⟨rfl, hlane, hup, rfl, rfl, fun _ => rfl, [], hsame, by simp⟩
  | @built _ k row account target scheduler hl hadm =>
      by_cases hk : k = id
      · subst hk
        exact .built hadm
      · refine .quiet ⟨rfl, rfl, fun _ h => h, Function.update_of_ne (Ne.symm hk) .., rfl,
          fun hne => absurd hadm.recovering hne, _, rfl, fun event hevent hjob => hk ?_⟩
        rw [List.mem_singleton.mp hevent] at hjob
        exact Option.some.inj hjob
  | lane hrec hl hw => exact .lane hrec hl (laneLabel_ne_submit hl) hw
  | @executor _ k e m fails out hrec hjob he hm hout =>
      have ht := Executor.transition_of_step hout
      by_cases hk : k = id
      · subst hk
        exact .executor hrec hjob he hm ht
      · exact .quiet (quiet_applyOutcome hs he hk hrec ht)

/-! ## One step of the course -/

theorem upTo_next (hs : s.Sound) {job : JobId} {e : Executor} {out : Outcome}
    {fails : Option String} :
    UpTo id (s.applyOutcome job e out fails).writer.waiting s.writer.submitted.length := by
  intro p hp _
  rw [waiting_applyOutcome] at hp
  rcases List.mem_append.mp hp with hp | hp
  · exact (hs.numbered.lt_of_waiting hp).1.le
  · obtain ⟨w, -, rfl⟩ := Option.map_eq_some_iff.mp (Option.mem_toList.mp hp)
    exact le_rfl

/-- A RUNNING at the end of the lane. -/
theorem runsOn_running {pending : List ℕ} {ws : List JobWrite} {out : Outcome}
    (h : Executor.RunsOn pending ws none)
    (hout : ∀ jw ∈ out.jobWrites id, jw = .setState .running none none false) :
    Executor.RunsOn pending (ws ++ out.jobWrites id) none := by
  obtain ⟨rest, hlane⟩ := h
  refine ⟨rest, drains_append.mpr ⟨rest, hlane, ?_⟩⟩
  rw [Outcome.jobWrites] at hout ⊢
  cases hw : out.write.bind (LaneWrite.ofJob id) with
  | none => exact rfl
  | some jw =>
      rw [hout jw (by simp [hw])]
      exact ⟨rest, ⟨rfl, fun _ hc => absurd hc (by simp), fun hc => absurd hc (by decide)⟩, rfl⟩

/-- The executor of the job moves. -/
theorem OnCourse.own_executor (hs : OnCourse id s) {e : Executor} (he : s.executors id = some e)
    (hrec : s.recovering = []) {m : Move} {fails : Option String} {out : Outcome}
    (hm : s.moveOf e l = some (m, fails))
    (ht : Executor.Transition (s.env e.accountId) e m out) :
    OnCourse id (s.applyOutcome id e out fails) := by
  have hid := hs.sound.filed id e he
  obtain ⟨ex, hfollows, job, hjob, hconsistent, hruns⟩ := hs.course
  refine ⟨hs.sound.applyOutcome he ht, fun hne => absurd hrec hne, ?_⟩
  have hself : (s.applyOutcome id e out fails).executors id = out.executor :=
    Function.update_self ..
  rw [db_applyOutcome, laneOf_applyOutcome]
  rcases hfollows with rfl | ⟨rfl, e', he', hstart⟩
  · rw [he] at hruns
    obtain ⟨rest, hrunning⟩ := hruns
    refine ⟨_, Or.inl rfl, job, hjob, hconsistent, ?_⟩
    rw [hself]
    refine hid ▸ hrunning.transition job.items.pairwise_pendingOrdinals ?_ ht
    exact CandidateBuffer.ordinals_pendingChunk (hid ▸ hjob) _ _ _
  · obtain rfl := Option.some.inj (he.symm.trans he')
    have hup : out.write = none → ∀ k, UpTo id s.writer.waiting k →
        UpTo id (s.applyOutcome id e out fails).writer.waiting k := by
      intro hw k hk
      rw [waiting_applyOutcome, hw]
      simpa using hk
    obtain ⟨hwrites, hnext⟩ := hstart.transition hup (upTo_next hs.sound) ht
    rw [hid] at hwrites
    have hnone := runsOn_running hruns hwrites
    cases hout : out.executor with
    | none => exact ⟨none, Or.inl (hself.trans hout).symm, job, hjob, hconsistent, hnone⟩
    | some e' =>
        rcases hnext e' hout with hstart' | ⟨a, hmove, haw, hupto, hw, hrunning⟩
        · exact ⟨none, Or.inr ⟨rfl, e', hself.trans hout, hstart'⟩, job, hjob, hconsistent, hnone⟩
        · -- the future is resolved, so nothing of the job waits any more
          refine ⟨some e', Or.inl (hself.trans hout).symm, job, hjob, hconsistent,
            job.pending, ?_⟩
          subst hmove
          obtain ⟨b, hb, hfuture⟩ := future_of_resumed hm
          obtain rfl := Option.some.inj (haw.symm.trans hb)
          have hlane : laneOf id s.writer.waiting = [] :=
            hupto.laneOf_eq_nil fun p hp => (hs.sound.numbered.lt_of_waiting hp).2 _ _ hfuture
          rw [hlane, Outcome.jobWrites_of_silent hw]
          exact hrunning job.pending

/-- **One step.** -/
theorem OnCourse.step (hs : OnCourse id s) (hcond : s.ResultsCommitted id l)
    (h : s.Step l s') : OnCourse id s' := by
  have hsound := hs.sound.step h
  obtain ⟨ex, hfollows, job, hjob, hconsistent, hruns⟩ := hs.course
  have hfresh : ∀ {pending : List ℕ}, Executor.RunsOn pending [] none := ⟨_, rfl⟩
  cases h.forJob id hs.sound with
  | quiet hq =>
      refine ⟨hsound, fun hne => ?_, ex, hfollows.of_same hq.executor hq.upTo, job, ?_,
        hconsistent, ?_⟩
      · rw [hq.recovering] at hne
        rw [hq.idle hne]
        exact hs.recovered hne
      · rw [hq.db]
        exact hjob
      · rw [hq.lane]
        exact hruns
  | crash => exact ⟨hsound, fun _ _ => rfl, none, Or.inl rfl, job, hjob, hconsistent, hfresh⟩
  | normalize hrec =>
      have hnone := hs.recovered (by simp [hrec])
      obtain ⟨job', hjob', hconsistent', -⟩ := normalizeJob_job hjob hconsistent _ _
      exact ⟨hsound, fun _ => hnone, none, Or.inl (hnone id).symm, job', hjob', hconsistent',
        hfresh⟩
  | built hadm =>
      obtain rfl := follows_none hadm.idle hfollows
      exact ⟨hsound, fun hne => absurd hadm.recovering hne, none, Or.inr ⟨rfl, _,
        Function.update_self .., Executor.starting_new rfl rfl rfl ⟨rfl, rfl⟩⟩, job, hjob,
        hconsistent, hruns⟩
  | lane hrec hl hne hw =>
      obtain ⟨job', hjob', hconsistent', hruns', -⟩ := lane_rule (Q := fun _ _ _ => True)
        (fun _ _ _ _ _ _ _ _ _ => trivial) (fun _ _ _ _ _ _ => trivial)
        (fun _ _ _ _ _ _ _ => trivial) hne hw (hcond _ hl) ⟨job, hjob, hconsistent, hruns, trivial⟩
      exact ⟨hsound, hs.recovered, ex, hfollows.of_same rfl fun _ hk =>
        hk.sublist fun _ hp => mem_waiting_step hne hw hp, job', hjob', hconsistent', hruns'⟩
  | executor hrec hk he hm ht => exact hs.own_executor he hrec hm ht

theorem onCourse_start {db : Database} {job : Job} (hjob : db.jobs[id]? = some job)
    (hconsistent : job.Consistent) (now : ℕ) : OnCourse id (App.start db now) :=
  ⟨sound_start db now, fun h => absurd rfl h, none, Or.inl rfl, job, hjob, hconsistent, _, rfl⟩

/-- **Every state of a run is on course**, as long as no result batch of the job is lost. -/
theorem onCourse_of_run (hs : OnCourse id s) {ls : List Label}
    (hcond : Along App.step (ResultsCommitted id) s ls) (h : runLabels App.step s ls = some s') :
    OnCourse id s' :=
  invariant_runLabels (fun _ _ _ hI hC hstep => hI.step hC (step_cases hstep)) hs hcond h

end App
end Runtime
end MigrationStudio
