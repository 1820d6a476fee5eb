import MigrationStudio.Runtime.ProgramSteps

/-!
# Which executor writes what, and who holds the lock

Facts that hold in every state of every run, whatever fails and whoever is interrupted:
`App.Sound`.  The executor of a job writes its own job only, and no checkpoint that an executor
writes names an action; the mutation lock of an account is held by the executor that is inside it,
and by no other; the futures are resolved in submission order.

* `Transition.owned`: the statements and the write of one transition.
* `Transition.entered`: one transition enters the lock only when it is free.
* `App.sound_of_run`: the invariant of runs.
-/

namespace MigrationStudio

open Foundations MigrationStudio.Core Accounts Jobs Telegram Storage Migration

namespace Migration

/-! ## The writes of an executor -/

/-- A write that the executor of the job `id` submits: to no other job, and a checkpoint that it
carries names no action. -/
def Owns (id : JobId) : LaneWrite → Prop
  | .job k w => k = id ∧ ∀ c ∈ w.checkpoint, c.action = none
  | _ => True

/-- A statement that submits such a write. -/
def Stmt.Owned (id : JobId) : Stmt → Prop
  | .write w => Owns id w
  | _ => True

namespace Executor

variable {env : Env} {e : Executor} {m : Move} {out : Outcome}

/-- All statements of a list submit such writes. -/
def AllOwned (id : JobId) (todo : List Stmt) : Prop := ∀ st ∈ todo, st.Owned id

theorem allOwned_nil (id : JobId) : AllOwned id [] := fun _ h => absurd h (by simp)

theorem allOwned_cons {id : JobId} {st : Stmt} {todo : List Stmt} :
    AllOwned id (st :: todo) ↔ st.Owned id ∧ AllOwned id todo := by
  simp [AllOwned]

theorem AllOwned.tail {id : JobId} {st : Stmt} {todo : List Stmt}
    (h : AllOwned id (st :: todo)) : AllOwned id todo :=
  (allOwned_cons.mp h).2

theorem owned_setJob (e : Executor) (state : JobState) (wait : Option ℕ)
    (checkpoint : Option Checkpoint) (clear : Bool) (h : ∀ c ∈ checkpoint, c.action = none) :
    (e.setJob state wait checkpoint clear).Owned e.jobId := ⟨rfl, h⟩

theorem owned_lastOrdinal (k : ℤ) : ∀ c ∈ some (lastOrdinal k), c.action = none := by
  intro c hc
  obtain rfl := Option.some.inj hc
  rfl

theorem owned_none : ∀ c ∈ (none : Option Checkpoint), c.action = none :=
  fun _ hc => absurd hc (by simp)

theorem allOwned_handleControl (e : Executor) (c : Control) :
    AllOwned e.jobId (e.handleControl c) := by
  cases c with
  | stop =>
      exact allOwned_cons.mpr ⟨trivial, allOwned_cons.mpr
        ⟨owned_setJob e _ _ _ _ owned_none, allOwned_cons.mpr ⟨trivial, allOwned_nil _⟩⟩⟩
  | pause =>
      exact allOwned_cons.mpr ⟨trivial, allOwned_cons.mpr
        ⟨owned_setJob e _ _ _ _ owned_none, allOwned_cons.mpr ⟨trivial, allOwned_nil _⟩⟩⟩

theorem owned_markRetry (id : JobId) (o n : ℕ) (code : Option InviteResultCode)
    (text : Option String) (nextAt : Option ℕ) :
    (Stmt.write (.job id (.markRetry o n code text nextAt))).Owned id :=
  ⟨rfl, owned_none⟩

theorem owned_event (id : JobId) (level code message : String) (member : Option ℤ) :
    (Stmt.write (.job id (.event level code message member))).Owned id :=
  ⟨rfl, owned_none⟩

theorem allOwned_floodScript (e : Executor) (now : ℕ) (a : Attempt) (error : DomainError) :
    AllOwned e.jobId (e.floodScript now a error) :=
  allOwned_cons.mpr ⟨trivial, allOwned_cons.mpr ⟨owned_markRetry _ _ _ _ _ _,
    allOwned_cons.mpr ⟨trivial, allOwned_cons.mpr
      ⟨owned_setJob e _ _ _ _ (owned_lastOrdinal _),
        allOwned_cons.mpr ⟨owned_event _ _ _ _ _, allOwned_nil _⟩⟩⟩⟩⟩

theorem allOwned_indefiniteScript (e : Executor) (a : Attempt) (error : DomainError) :
    AllOwned e.jobId (e.indefiniteScript a error) :=
  allOwned_cons.mpr ⟨trivial, allOwned_cons.mpr ⟨owned_markRetry _ _ _ _ _ _,
    allOwned_cons.mpr ⟨owned_setJob e _ _ _ _ (owned_lastOrdinal _),
      allOwned_cons.mpr ⟨trivial,
        allOwned_cons.mpr ⟨owned_event _ _ _ _ _, allOwned_nil _⟩⟩⟩⟩⟩

theorem allOwned_pauseScript (e : Executor) (a : Attempt) (error : DomainError) :
    AllOwned e.jobId (e.pauseScript a error) :=
  allOwned_cons.mpr ⟨trivial, allOwned_cons.mpr ⟨owned_markRetry _ _ _ _ _ _,
    allOwned_cons.mpr ⟨owned_setJob e _ _ _ _ (owned_lastOrdinal _),
      allOwned_cons.mpr ⟨trivial, allOwned_nil _⟩⟩⟩⟩

theorem allOwned_setJob_setAccount (e : Executor) (state : JobState) (clear : Bool)
    (account : AccountState) :
    AllOwned e.jobId [e.setJob state none none clear, e.setAccount account] :=
  allOwned_cons.mpr ⟨owned_setJob e _ _ _ _ owned_none,
    allOwned_cons.mpr ⟨trivial, allOwned_nil _⟩⟩

theorem owns_flushWrite (e : Executor) : Owns e.jobId e.flushWrite := by
  refine ⟨rfl, fun c hc => ?_⟩
  rw [JobWrite.checkpoint, truthy] at hc
  split at hc
  · exact absurd hc (by simp)
  · obtain ⟨u, -, rfl⟩ := Option.map_eq_some_iff.mp hc
    rfl

theorem allOwned_raise {e' : Executor} {message : String} (h : e.raise message = some e') :
    AllOwned e.jobId e'.todo := by
  rw [Executor.raise] at h
  split at h
  · exact absurd h (by simp)
  · exact absurd h (by simp)
  · exact absurd h (by simp)
  · obtain rfl := Option.some.inj h
    exact allOwned_cons.mpr ⟨trivial, allOwned_cons.mpr
      ⟨owned_setJob e _ _ _ _ owned_none, allOwned_cons.mpr ⟨trivial, allOwned_nil _⟩⟩⟩

/-- **An executor writes its own job.**  What one transition leaves to do, and the write that it
submits, are of the executor's job, and no checkpoint among them names an action. -/
theorem Transition.owned (h : Transition env e m out) (he : AllOwned e.jobId e.todo) :
    (∀ e' ∈ out.executor, AllOwned e.jobId e'.todo) ∧ ∀ w ∈ out.write, Owns e.jobId w := by
  have hnone : ∀ w ∈ (none : Option LaneWrite), Owns e.jobId w :=
    fun w hw => absurd hw (by simp)
  cases h with
  | flushWrite haw htodo hdue =>
      rw [htodo] at he
      refine ⟨fun e' he' => Option.some.inj he' ▸ he.tail, fun w hw => ?_⟩
      exact Option.some.inj hw ▸ owns_flushWrite e
  | flushSkip haw htodo hdue =>
      rw [htodo] at he
      exact ⟨fun e' he' => Option.some.inj he' ▸ he.tail, hnone⟩
  | write haw htodo =>
      rw [htodo] at he
      refine ⟨fun e' he' => Option.some.inj he' ▸ he.tail, fun w hw => ?_⟩
      exact Option.some.inj hw ▸ (allOwned_cons.mp he).1
  | pauseAccount haw htodo state =>
      rw [htodo] at he
      refine ⟨fun e' he' => Option.some.inj he' ▸ he.tail, fun w hw => ?_⟩
      obtain rfl := Option.some.inj hw
      trivial
  | raised haw message => exact ⟨fun e' he' => allOwned_raise he', hnone⟩
  | begin hset hpoint =>
      exact ⟨fun e' he' => Option.some.inj he' ▸ allOwned_setJob_setAccount e _ _ _, hnone⟩
  | loopControl hset hpoint c hc =>
      exact ⟨fun e' he' => Option.some.inj he' ▸ allOwned_handleControl e c, hnone⟩
  | interrupt hset hpoint c hc =>
      exact ⟨fun e' he' => Option.some.inj he' ▸ allOwned_handleControl e c, hnone⟩
  | popEnd hset hpoint hqueue hload hexh =>
      exact ⟨fun e' he' => Option.some.inj he' ▸
        allOwned_cons.mpr ⟨trivial, allOwned_nil _⟩, hnone⟩
  | waited hset hpoint hc hnow =>
      exact ⟨fun e' he' => Option.some.inj he' ▸ allOwned_setJob_setAccount e _ _ _, hnone⟩
  | flooded hpoint hcode =>
      exact ⟨fun e' he' => Option.some.inj he' ▸ allOwned_floodScript e _ _ _, hnone⟩
  | indefinite hpoint hcode =>
      exact ⟨fun e' he' => Option.some.inj he' ▸ allOwned_indefiniteScript e _ _, hnone⟩
  | pausing hpoint hcode =>
      exact ⟨fun e' he' => Option.some.inj he' ▸ allOwned_pauseScript e _ _, hnone⟩
  | returned hset hpoint todo htodo =>
      refine ⟨fun e' he' => Option.some.inj he' ▸ ?_, hnone⟩
      rcases htodo with rfl | rfl
      · exact allOwned_nil _
      · exact allOwned_cons.mpr ⟨trivial, allOwned_nil _⟩
  | append hset hpoint =>
      exact ⟨fun e' he' => Option.some.inj he' ▸
        allOwned_cons.mpr ⟨trivial, allOwned_nil _⟩, hnone⟩
  | summarize hset hpoint =>
      exact ⟨fun e' he' => Option.some.inj he' ▸ allOwned_setJob_setAccount e _ _ _, hnone⟩
  | delayedWrite hdue =>
      refine ⟨fun e' he' => Option.some.inj he' ▸ he, fun w hw => ?_⟩
      exact Option.some.inj hw ▸ owns_flushWrite e
  | leave hset hpoint | publish hset hpoint | failed hset hpoint =>
      exact ⟨fun e' he' => absurd he' (by simp), hnone⟩
  | _ => exact ⟨fun e' he' => Option.some.inj he' ▸ he, hnone⟩

/-! ## The mutation lock -/

theorem holdsLock_raise {e' : Executor} {message : String} (h : e.raise message = some e') :
    e'.holdsLock = false := by
  rw [Executor.raise] at h
  split at h
  · exact absurd h (by simp)
  · exact absurd h (by simp)
  · exact absurd h (by simp)
  · exact Option.some.inj h ▸ rfl

/-- One transition gets into the lock only from inside or at its door, when nobody holds it. -/
theorem Transition.entered (h : Transition env e m out) :
    ∀ e' ∈ out.executor, e'.holdsLock = true →
      e.holdsLock = true ∨ (e.point = .acquire ∧ env.lockFree = true) := by
  intro e' he' hlock
  cases h with
  | raised haw message => exact absurd hlock (by simp [holdsLock_raise he'])
  | acquire hset hpoint hfree => exact Or.inr ⟨hpoint, hfree⟩
  | leave hset hpoint | publish hset hpoint | failed hset hpoint =>
      exact absurd he' (by simp)
  | begin hset hpoint | primed hset hpoint hload =>
      obtain rfl := Option.some.inj he'
      exact absurd hlock (by simp [Executor.holdsLock])
  | popEnd hset hpoint hqueue hload hexh | summarize hset hpoint =>
      obtain rfl := Option.some.inj he'
      exact absurd hlock (by simp [Executor.holdsLock])
  | loopControl hset hpoint | loopPop hset hpoint | take hset hpoint
  | sleep hset hpoint | interrupt hset hpoint | send hset hpoint | waited hset hpoint
  | retry hset hpoint | giveUp hset hpoint | succeeded hpoint | flooded hpoint
  | indefinite hpoint | pausing hpoint | transient hpoint | exhausted hpoint | final hpoint
  | returned hset hpoint | stopped hset hpoint | append hset hpoint | flushed hset hpoint =>
      exact Or.inl (by rw [Executor.holdsLock, hpoint])
  | _ =>
      obtain rfl := Option.some.inj he'
      exact Or.inl hlock

theorem Transition.holdsLock (h : Transition env e m out) :
    ∀ e' ∈ out.executor, e'.holdsLock = true →
      e.holdsLock = true ∨ env.lockFree = true :=
  fun e' he' hlock => (h.entered e' he' hlock).imp_right And.right

end Executor
end Migration

/-! ## The invariant of runs -/

namespace Runtime

/-- No waiting write carries a checkpoint with an action. -/
def PlainWrite (w : LaneWrite) : Prop :=
  ∀ id jw, w = .job id jw → ∀ c ∈ jw.checkpoint, c.action = none

theorem plainWrite_of_owns {id : JobId} {w : LaneWrite} (h : Owns id w) : PlainWrite w := by
  rintro k jw rfl
  exact h.2

theorem plainWrite_of_foreign {w : LaneWrite} (h : ofMigration w = false) : PlainWrite w := by
  rintro k jw rfl
  exact absurd h (by simp [ofMigration])

/-- What holds in every state of every run. -/
structure App.Sound (s : App) : Prop where
  numbered : Numbered lane s.writer
  filed : ∀ j e, s.executors j = some e → e.jobId = j
  owned : ∀ j e, s.executors j = some e → Executor.AllOwned j e.todo
  plain : ∀ p ∈ s.writer.waiting, PlainWrite p.2.write
  locked : ∀ j e, s.executors j = some e → e.holdsLock = true → s.lock e.accountId = some j

namespace App

theorem sound_start (db : Database) (now : ℕ) : (App.start db now).Sound where
  numbered := numbered_start db
  filed := fun _ _ h => absurd h (by simp [App.start])
  owned := fun _ _ h => absurd h (by simp [App.start])
  plain := fun p hp => absurd hp (by simp [App.start, DBWriter.start, DBWriter.waiting])
  locked := fun _ _ h => absurd h (by simp [App.start])

theorem waiting_submit {τ σ ε ρ : Type*} (w : DBWriter τ σ ε ρ) (t : τ) :
    (w.submit t).waiting = w.waiting ++ [(w.submitted.length, t)] := by
  simp [DBWriter.submit, DBWriter.waiting]

/-- An executor that is replaced, among the others. -/
theorem update_executor {s : App} {job : JobId} {out : Option Executor}
    {P : JobId → Executor → Prop} (h : ∀ j e, s.executors j = some e → P j e)
    (hout : ∀ e' ∈ out, P job e') :
    ∀ j e, Function.update s.executors job out j = some e → P j e := by
  intro j e he
  by_cases hj : j = job
  · subst hj
    rw [Function.update_self] at he
    exact hout e he
  · rw [Function.update_of_ne hj] at he
    exact h j e he

theorem lock_applyOutcome {s : App} (hs : s.Sound) {job : JobId} {e : Executor}
    (he : s.executors job = some e) {m : Move} {out : Outcome} {fails : Option String}
    (h : Executor.Transition (s.env e.accountId) e m out) :
    ∀ j f, (s.applyOutcome job e out fails).executors j = some f → f.holdsLock = true →
      (s.applyOutcome job e out fails).lock f.accountId = some j := by
  intro j f hf hlock
  simp only [applyOutcome] at hf ⊢
  rw [relock]
  by_cases hj : j = job
  · subst hj
    rw [Function.update_self] at hf
    have hacc : f.accountId = e.accountId := (h.same hf).accountId
    rw [hf, Option.any_some, if_pos hlock, hacc, Function.update_self]
  · rw [Function.update_of_ne hj] at hf
    have hheld := hs.locked j f hf hlock
    split_ifs with hin hmine
    · -- the executor of `job` is in the lock, so the other one is of another account
      obtain ⟨e', he', hin'⟩ := (Option.any_eq_true _ _).mp hin
      have hne : f.accountId ≠ e.accountId := by
        intro heq
        rcases h.holdsLock e' he' hin' with hold | hfree
        · have hmine := hs.locked job e he hold
          rw [heq, hmine] at hheld
          exact hj (Option.some.inj hheld).symm
        · rw [env, Option.isNone_iff_eq_none, ← heq, hheld] at hfree
          exact absurd hfree (by simp)
      rw [Function.update_of_ne hne]
      exact hheld
    · have hne : f.accountId ≠ e.accountId := by
        intro heq
        rw [heq, hmine] at hheld
        exact hj (Option.some.inj hheld).symm
      rw [Function.update_of_ne hne]
      exact hheld
    · exact hheld

theorem Sound.applyOutcome {s : App} (hs : s.Sound) {job : JobId} {e : Executor}
    (he : s.executors job = some e) {m : Move} {out : Outcome} {fails : Option String}
    (h : Executor.Transition (s.env e.accountId) e m out) :
    (s.applyOutcome job e out fails).Sound := by
  have hid := hs.filed job e he
  obtain ⟨hown, hwrite⟩ := h.owned (hid.symm ▸ hs.owned job e he)
  refine ⟨?_, ?_, ?_, ?_, lock_applyOutcome hs he h⟩
  · simp only [App.applyOutcome]
    split
    · exact hs.numbered.submit _
    · exact hs.numbered
  · exact update_executor hs.filed fun e' he' => (h.same he').jobId.trans hid
  · exact update_executor hs.owned fun e' he' => hid ▸ hown e' he'
  · simp only [App.applyOutcome]
    split
    · rename_i w hw
      intro p hp
      rw [waiting_submit] at hp
      rcases List.mem_append.mp hp with hp | hp
      · exact hs.plain p hp
      · rw [List.mem_singleton.mp hp]
        exact plainWrite_of_owns (hwrite w hw)
    · exact hs.plain

/-- What is left in the queue was there. -/
theorem mem_waiting_step {w w' : Lane} {l : WriterLabel WriteTask} (hl : ∀ t, l ≠ .submit t)
    (h : w.step lane l = some w') {p : ℕ × WriteTask} (hp : p ∈ w'.waiting) :
    p ∈ w.waiting := by
  rw [(DBWriter.thread_step hl h).2]
  exact List.mem_append_right _ hp

theorem laneLabel_ne_submit {l : Label} {wl : WriterLabel WriteTask}
    (h : laneLabel l = some wl) : ∀ t, wl ≠ .submit t := by
  intro t ht
  subst ht
  cases l <;> simp [laneLabel] at h

/-- **One step.** -/
theorem Sound.step {s s' : App} {l : Label} (hs : s.Sound) (h : s.Step l s') : s'.Sound := by
  cases h with
  | tick d => exact ⟨hs.numbered, hs.filed, hs.owned, hs.plain, hs.locked⟩
  | crash =>
      exact ⟨numbered_start _, fun _ _ h => absurd h (by simp), fun _ _ h => absurd h (by simp),
        fun p hp => absurd hp (by simp [DBWriter.start, DBWriter.waiting]),
        fun _ _ h => absurd h (by simp)⟩
  | normalize hrec =>
      exact ⟨numbered_start _, hs.filed, hs.owned,
        fun p hp => absurd hp (by simp [DBWriter.start, DBWriter.waiting]), hs.locked⟩
  | refused l => exact hs
  | built hl hadm =>
      refine ⟨hs.numbered, update_executor hs.filed fun e' he' => ?_,
        update_executor hs.owned fun e' he' => ?_, hs.plain,
        update_executor (P := fun j e => e.holdsLock = true → s.lock e.accountId = some j)
          hs.locked fun e' he' hlock => ?_⟩
      all_goals obtain rfl := Option.some.inj he'
      · rfl
      · exact Executor.allOwned_nil _
      · exact absurd hlock (by simp [newExecutor, Executor.holdsLock])
  | foreign critical fails hown =>
      refine ⟨hs.numbered.submit _, hs.filed, hs.owned, fun p hp => ?_, hs.locked⟩
      rw [waiting_submit] at hp
      rcases List.mem_append.mp hp with hp | hp
      · exact hs.plain p hp
      · rw [List.mem_singleton.mp hp]
        exact plainWrite_of_foreign hown
  | lane hrec hl hw =>
      exact ⟨hs.numbered.step hw, hs.filed, hs.owned,
        fun p hp => hs.plain p (mem_waiting_step (laneLabel_ne_submit hl) hw hp), hs.locked⟩
  | executor hrec hjob he hm hout => exact hs.applyOutcome he (Executor.transition_of_step hout)

/-- **Every state of every run is sound.** -/
theorem sound_of_run {s s' : App} {ls : List Label} (hs : s.Sound)
    (h : runLabels App.step s ls = some s') : s'.Sound :=
  invariant_runLabels (C := fun _ _ => True) (fun _ _ _ hI _ hstep => hI.step (step_cases hstep))
    hs (along_of_forall_mem fun _ _ => trivial) h

end App
end Runtime
end MigrationStudio
