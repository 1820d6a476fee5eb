import MigrationStudio.Migration.Transitions
import MigrationStudio.Runtime.Application

/-!
# What one step of the program can do

`App.Step` is the list of the cases of `App.step`, with their guards, and `step_cases` proves it
complete.  The step of the writer thread is broken down further: `lane_rule` says what has to be
checked of a property of the committed database and of the waiting tasks so that it survives
whatever batches the thread commits.

* `Numbered`: the futures are resolved in submission order.
* `App.Sound`: the executors carry the job that they are filed under, and the mutation lock of an
  account is held by the executor that is inside it.
-/

namespace MigrationStudio
namespace Runtime

open Foundations MigrationStudio.Core Accounts Jobs Telegram Storage Migration

/-! ## The steps of the writer thread -/

section Writer

variable {τ σ ε ρ : Type*} {S : WriterSpec τ σ ε ρ}

/-- The batches that one move of the writer commits, in order. -/
def DBWriter.batches (S : WriterSpec τ σ ε ρ) (w : DBWriter τ σ ε ρ) :
    WriterLabel τ → List (List (ℕ × τ))
  | .submit _ => []
  | .timeout => [w.pending]
  | .get =>
      match w.queue with
      | [] => []
      | item :: _ =>
          if S.critical item.2 then [w.pending, [item]]
          else if S.limit ≤ (w.pending ++ [item]).length then [w.pending ++ [item]]
          else []

/-- A property of the database and the waiting tasks, through one batch. -/
theorem commitBatch_rule {I : σ → List (ℕ × τ) → Prop}
    (hok : ∀ db t rest db' r, S.operation t.2 db = (db', .ok r) → I db (t :: rest) → I db' rest)
    {w : DBWriter τ σ ε ρ} {b rest : List (ℕ × τ)}
    (hfail : ∀ db db' e, transaction S.operation (b.map Prod.snd) db = (db', .error e) →
      I db (b ++ rest) → I db rest)
    (h : I w.database (b ++ rest)) : I (w.commitBatch S b).database rest := by
  have hrun : ∀ (b : List (ℕ × τ)) db db' rs,
      transaction S.operation (b.map Prod.snd) db = (db', .ok rs) →
        I db (b ++ rest) → I db' rest := by
    intro b
    induction b with
    | nil =>
        intro db db' rs hrun hI
        rw [List.map_nil, transaction_nil, Prod.mk.injEq] at hrun
        exact hrun.1 ▸ hI
    | cons t b ih =>
        intro db db' rs hrun hI
        obtain ⟨u, r, rs', ht, hb, -⟩ := transaction_cons_eq_ok.mp hrun
        exact ih u db' rs' hb (hok db t (b ++ rest) u r ht hI)
  rw [DBWriter.commitBatch]
  split
  · rename_i hempty
    rw [List.isEmpty_iff] at hempty
    subst hempty
    exact h
  · rcases ht : transaction S.operation (b.map Prod.snd) w.database with ⟨db', e | rs⟩
    · rw [commitTransaction_of_error ht]
      exact hfail _ _ _ ht h
    · rw [commitTransaction_of_ok ht]
      exact hrun b _ _ _ ht h

/-- A move of the thread commits its batches and leaves the other waiting tasks. -/
theorem DBWriter.thread_step {w w' : DBWriter τ σ ε ρ} {l : WriterLabel τ}
    (hl : ∀ t, l ≠ .submit t) (hstep : w.step S l = some w') :
    w'.database = ((w.batches S l).foldl (fun w b => w.commitBatch S b) w).database ∧
      w.waiting = (w.batches S l).flatten ++ w'.waiting := by
  cases l with
  | submit t => exact absurd rfl (hl t)
  | timeout =>
      rw [DBWriter.step, DBWriter.timeout] at hstep
      split at hstep
      · obtain rfl := Option.some.inj hstep
        exact ⟨rfl, by simp [DBWriter.batches, DBWriter.waiting]⟩
      · exact absurd hstep (by simp)
  | get =>
      rw [DBWriter.step, DBWriter.get] at hstep
      cases hq : w.queue with
      | nil => simp [hq] at hstep
      | cons item rest =>
          rw [hq] at hstep
          simp only at hstep
          rw [DBWriter.batches, hq]
          simp only [DBWriter.waiting, hq]
          split_ifs at hstep ⊢ <;> obtain rfl := Option.some.inj hstep <;>
            exact ⟨rfl, by simp⟩

/-- A move of the thread submits nothing. -/
theorem DBWriter.submitted_step {w w' : DBWriter τ σ ε ρ} {l : WriterLabel τ}
    (hl : ∀ t, l ≠ .submit t) (hstep : w.step S l = some w') : w'.submitted = w.submitted := by
  cases l with
  | submit t => exact absurd rfl (hl t)
  | timeout =>
      rw [DBWriter.step, DBWriter.timeout] at hstep
      split at hstep
      · obtain rfl := Option.some.inj hstep
        simp
      · exact absurd hstep (by simp)
  | get =>
      rw [DBWriter.step, DBWriter.get] at hstep
      split at hstep
      · exact absurd hstep (by simp)
      · split_ifs at hstep <;> (obtain rfl := Option.some.inj hstep; simp)

/-- **The rule of the writer thread.**  A property of the committed database and the waiting tasks
survives every move of the thread if it survives the execution of the first waiting task, and the
loss of every batch that the move rolls back. -/
theorem DBWriter.step_rule {I : σ → List (ℕ × τ) → Prop}
    (hok : ∀ db t rest db' r, S.operation t.2 db = (db', .ok r) → I db (t :: rest) → I db' rest)
    {w w' : DBWriter τ σ ε ρ} {l : WriterLabel τ}
    (hl : ∀ t, l ≠ .submit t) (hstep : w.step S l = some w')
    (hfail : ∀ b ∈ w.batches S l, ∀ rest db db' e,
      transaction S.operation (b.map Prod.snd) db = (db', .error e) →
        I db (b ++ rest) → I db rest)
    (h : I w.database w.waiting) : I w'.database w'.waiting := by
  obtain ⟨hdb, hwait⟩ := DBWriter.thread_step hl hstep
  rw [hwait] at h
  rw [hdb]
  generalize w.batches S l = bs at hfail h
  clear hdb hwait hstep
  induction bs generalizing w with
  | nil => exact h
  | cons b bs ih =>
      rw [List.flatten_cons, List.append_assoc] at h
      have hfirst : I (w.commitBatch S b).database (bs.flatten ++ w'.waiting) :=
        commitBatch_rule hok (fun db db' e => hfail b (List.mem_cons_self ..) _ db db' e) h
      exact ih (fun c hc => hfail c (List.mem_cons_of_mem _ hc)) hfirst

/-- The writer has run from some database: its futures are resolved in submission order. -/
def Numbered (S : WriterSpec τ σ ε ρ) (w : DBWriter τ σ ε ρ) : Prop :=
  ∃ db₀ bs, Committed S db₀ w bs

theorem numbered_start (db : σ) : Numbered S (DBWriter.start db : DBWriter τ σ ε ρ) :=
  ⟨db, [], committed_start⟩

theorem Numbered.step {w w' : DBWriter τ σ ε ρ} (h : Numbered S w) {l : WriterLabel τ}
    (hstep : w.step S l = some w') : Numbered S w' := by
  obtain ⟨db₀, bs, hbs⟩ := h
  exact ⟨db₀, Committed.step l ⟨bs, hbs⟩ hstep⟩

theorem Numbered.submit {w : DBWriter τ σ ε ρ} (h : Numbered S w) (t : τ) :
    Numbered S (w.submit t) :=
  h.step (l := .submit t) rfl

/-- A waiting task comes after every task whose future is resolved, and before the next one. -/
theorem Numbered.lt_of_waiting {w : DBWriter τ σ ε ρ} (h : Numbered S w) {p : ℕ × τ}
    (hp : p ∈ w.waiting) :
    p.1 < w.submitted.length ∧ ∀ k o, w.future k = some o → k < p.1 := by
  obtain ⟨db₀, bs, hbs⟩ := h
  have hmem : p.1 ∈ List.range' bs.flatten.length w.waiting.length :=
    hbs.ids ▸ List.mem_map_of_mem hp
  rw [List.mem_range'_1] at hmem
  refine ⟨?_, fun k o hk => ?_⟩
  · rw [hbs.submitted, List.length_append, List.length_map]
    exact hmem.2
  · rw [hbs.future_eq, List.getElem?_eq_some_iff] at hk
    obtain ⟨hlt, -⟩ := hk
    rw [length_commitBatches] at hlt
    omega

end Writer

/-! ## The cases of a step -/

namespace App

/-- What `start_migration` and `resume_migration` have checked when they build an executor. -/
structure Admitted (s : App) (id : JobId) (row : Job) (account : AccountId)
    (target : Telegram.GroupContext) : Prop where
  recovering : s.recovering = []
  idle : s.executors id = none
  stored : s.db.jobs[id]? = some row
  migration : row.jobType = .migration
  account : row.accountId = some account
  state : row.state = .ready ∨ row.state = .paused ∨ row.state = .waitingServer

/-- The program with a new executor. -/
def withExecutor (s : App) (id : JobId) (e : Executor) : App :=
  { s with
    executors := Function.update s.executors id (some e)
    log := s.log ++ [.built id e.action] }

/-- The label of the writer thread. -/
def laneLabel : Label → Option (WriterLabel WriteTask)
  | .get => some .get
  | .timeout => some .timeout
  | _ => none

/-- The cases of `App.step`. -/
inductive Step (s : App) : Label → App → Prop
  | tick (d : ℕ) : Step s (.tick d) { s with now := s.now + d }
  | crash :
      Step s .crash
        { s with
          writer := DBWriter.start s.db
          executors := fun _ => none
          lock := fun _ => none
          recovering := s.db.recoverable
          recoveryNow := s.now }
  | normalize {id : JobId} {rest : List JobId} (h : s.recovering = id :: rest) :
      Step s .normalize
        { s with
          writer := DBWriter.start (normalizeJob s.recoveryNow id s.db)
          recovering := rest }
  | refused (l : Label) : Step s l s
  | built {l : Label} {id : JobId} {row : Job} {account : AccountId}
      {target : Telegram.GroupContext} {scheduler : InviteScheduler}
      (hl : ∃ interval, l = .start id account interval ∨ l = .resume id interval)
      (h : s.Admitted id row account target) :
      Step s l (s.withExecutor id (s.newExecutor id account target scheduler))
  | foreign {w : LaneWrite} (critical : Bool) (fails : Option String)
      (h : ofMigration w = false) :
      Step s (.foreign w critical fails)
        { s with writer := s.writer.submit ⟨w, critical, fails⟩ }
  | lane {l : Label} {wl : WriterLabel WriteTask} {w : Lane} (hrec : s.recovering = [])
      (hl : laneLabel l = some wl) (h : s.writer.step lane wl = some w) :
      Step s l { s with writer := w }
  | executor {l : Label} {job : JobId} {e : Executor} {m : Move} {fails : Option String}
      {out : Outcome} (hrec : s.recovering = []) (hjob : jobOf l = some job)
      (he : s.executors job = some e) (hm : s.moveOf e l = some (m, fails))
      (h : e.step (s.env e.accountId) m = some out) :
      Step s l (s.applyOutcome job e out fails)

theorem guard_eq_some {s : App} {id : JobId} {row : Job} {account : AccountId}
    {target : Telegram.GroupContext} (h : s.guard id row account = some target) :
    s.executors id = none ∧ row.jobType = .migration := by
  rw [guard] at h
  split at h
  · exact absurd h (by simp)
  · rename_i hcond
    rw [Bool.or_eq_true, not_or, Bool.or_eq_true, not_or] at hcond
    obtain ⟨⟨hidle, htype⟩, -⟩ := hcond
    exact ⟨by simpa using hidle, by simpa using htype⟩

theorem step_build {s : App} {l : Label} {id : JobId} {row : Job} {account : AccountId}
    {target : Telegram.GroupContext} {interval : ℕ}
    (hl : ∃ interval, l = .start id account interval ∨ l = .resume id interval)
    (h : s.Admitted id row account target) : s.Step l (s.build id account target interval) := by
  rw [build]
  cases InviteScheduler.new interval with
  | none => exact .refused l
  | some scheduler => exact .built hl h

theorem step_startMigration {s : App} (hrec : s.recovering = []) (id : JobId)
    (account : AccountId) (interval : ℕ) :
    s.Step (.start id account interval) (s.startMigration id account interval) := by
  rw [startMigration]
  split
  · exact .refused _
  · rename_i row hrow
    split_ifs with hcond
    · split
      · rename_i target hguard
        obtain ⟨hidle, htype⟩ := guard_eq_some hguard
        exact step_build ⟨interval, Or.inl rfl⟩
          ⟨hrec, hidle, hrow, htype, hcond.2, Or.inl hcond.1⟩
      · exact .refused _
    · exact .refused _

theorem step_resumeMigration {s : App} (hrec : s.recovering = []) (id : JobId) (interval : ℕ) :
    s.Step (.resume id interval) (s.resumeMigration id interval) := by
  rw [resumeMigration]
  split
  · exact .refused _
  · rename_i row hrow
    split
    · exact .refused _
    · rename_i account haccount
      split_ifs with hcond
      · split
        · rename_i target hguard
          obtain ⟨hidle, htype⟩ := guard_eq_some hguard
          exact step_build ⟨interval, Or.inr rfl⟩
            ⟨hrec, hidle, hrow, htype, haccount, Or.inr hcond⟩
        · exact .refused _
      · exact .refused _

theorem step_stepExecutor {s s' : App} {l : Label} (hrec : s.recovering = [])
    (h : s.stepExecutor l = some s') : s.Step l s' := by
  rw [stepExecutor, Option.bind_eq_some_iff] at h
  obtain ⟨job, hjob, h⟩ := h
  rw [Option.bind_eq_some_iff] at h
  obtain ⟨e, he, h⟩ := h
  rw [Option.bind_eq_some_iff] at h
  obtain ⟨⟨m, fails⟩, hm, h⟩ := h
  obtain ⟨out, hout, rfl⟩ := Option.map_eq_some_iff.mp h
  exact .executor hrec hjob he hm hout

/-- **The program does nothing else.** -/
theorem step_cases {s s' : App} {l : Label} (h : s.step l = some s') : s.Step l s' := by
  cases l with
  | tick d => exact Option.some.inj h ▸ .tick d
  | crash => exact Option.some.inj h ▸ .crash
  | normalize =>
      rw [step] at h
      split at h
      · exact absurd h (by simp)
      · rename_i id rest hrec
        exact Option.some.inj h ▸ .normalize hrec
  | start id account interval =>
      simp only [step] at h
      split_ifs at h with hrec
      exact Option.some.inj h ▸ step_startMigration (not_not.mp hrec) id account interval
  | resume id interval =>
      simp only [step] at h
      split_ifs at h with hrec
      exact Option.some.inj h ▸ step_resumeMigration (not_not.mp hrec) id interval
  | foreign w critical fails =>
      simp only [step] at h
      split_ifs at h with hrec hown
      exact Option.some.inj h ▸ .foreign critical fails (by simpa using hown)
  | get =>
      simp only [step] at h
      split_ifs at h with hrec
      obtain ⟨w, hw, rfl⟩ := Option.map_eq_some_iff.mp h
      exact .lane (not_not.mp hrec) (rfl : laneLabel .get = some .get) hw
  | timeout =>
      simp only [step] at h
      split_ifs at h with hrec
      obtain ⟨w, hw, rfl⟩ := Option.map_eq_some_iff.mp h
      exact .lane (not_not.mp hrec) (rfl : laneLabel .timeout = some .timeout) hw
  | _ =>
      simp only [step] at h
      split_ifs at h with hrec
      exact step_stepExecutor (not_not.mp hrec) h

/-- Only one label moves an executor on. -/
theorem label_of_advance {s : App} {l : Label} {id : JobId} {e : Executor} {fails : Option String}
    (hm : s.moveOf e l = some (.advance, fails)) (hl : jobOf l = some id) : l = .advance id := by
  cases l with
  | advance job => exact congrArg _ (Option.some.inj hl)
  | resumed job =>
      obtain ⟨a, -, h⟩ := Option.bind_eq_some_iff.mp hm
      obtain ⟨r, -, heq⟩ := Option.map_eq_some_iff.mp h
      exact absurd (Prod.mk.inj heq).1 (by simp)
  | delayedDone job =>
      rw [moveOf] at hm
      split at hm
      · obtain ⟨r, -, heq⟩ := Option.map_eq_some_iff.mp hm
        exact absurd (Prod.mk.inj heq).1 (by simp)
      · exact absurd hm (by simp)
  | _ => simp [moveOf] at hm

end App

end Runtime
end MigrationStudio
