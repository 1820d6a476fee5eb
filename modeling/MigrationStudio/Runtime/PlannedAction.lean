import MigrationStudio.Migration.Planner
import MigrationStudio.Runtime.Ownership

/-!
# The action of a planned job

The action of a job is stored in one place only, the checkpoint dictionary, and `new_executor`
reads it from there with `INVITE` as the default.  A result flush, a FLOOD_WAIT and an error that
pauses the job write their `last_ordinal` into the same column and replace the dictionary.

* `planned_action_iff`: the executors built in a run all have the planned action exactly when each
  of them is built before the first such write is committed, or the job is planned as INVITE; and
  then no RPC of the job has the other action.
* `removal_becomes_invitation`: a job planned as REMOVE that is paused after one result and
  resumed invites the next candidate.
-/

namespace MigrationStudio

open Foundations MigrationStudio.Core Accounts Jobs Telegram Storage Migration

namespace Jobs

/-- The write replaces the dictionary by one without an action. -/
def JobWrite.dropsAction (w : JobWrite) : Bool := w.checkpoint.any fun c => c.action.isNone

end Jobs

namespace Storage

/-- A write that drops the action of the job has been committed. -/
def Database.actionDropped (db : Database) (id : JobId) : Bool :=
  db.journal.any fun entry => entry.1 = id && entry.2.1.dropsAction

/-- The checkpoint holds the planned action until a write drops it, and none afterwards. -/
def Database.KeepsAction (db : Database) (id : JobId) (action : Action) : Prop :=
  ∃ job, db.jobs[id]? = some job ∧
    job.checkpoint.action = if db.actionDropped id then none else some action

theorem Database.actionDropped_applyJob {db : Database} {id : JobId} {job : Job}
    (hjob : db.jobs[id]? = some job) (w : JobWrite) (j : JobId) :
    (db.applyJob id w).actionDropped j =
      (db.actionDropped j || (decide (id = j) && w.dropsAction)) := by
  rw [applyJob, hjob]
  simp [actionDropped, List.any_append]

/-- A write of the job keeps it so, when its checkpoint names no action or the one that is
stored. -/
theorem Database.KeepsAction.applyJob {db : Database} {id : JobId} {action : Action}
    (h : db.KeepsAction id action) {w : JobWrite}
    (hw : ∀ job, db.jobs[id]? = some job → ∀ c ∈ w.checkpoint,
      c.action = none ∨ c.action = job.checkpoint.action) :
    (db.applyJob id w).KeepsAction id action := by
  obtain ⟨job, hjob, haction⟩ := h
  refine ⟨job.apply w, ?_, ?_⟩
  · rw [jobs_applyJob, if_pos rfl, hjob, Option.map_some]
  · rw [actionDropped_applyJob hjob, Job.checkpoint_apply, JobWrite.dropsAction,
      decide_eq_true rfl, Bool.true_and]
    cases hc : w.checkpoint with
    | none => simpa using haction
    | some c =>
        rcases hw job hjob c hc with hnone | hsame
        · simp [hnone]
        · cases hd : db.actionDropped id <;> simp [hsame, haction, hd]

/-- A write of another job leaves it alone. -/
theorem Database.KeepsAction.applyJob_of_ne {db : Database} {id k : JobId} {action : Action}
    (h : db.KeepsAction id action) (w : JobWrite) (hk : k ≠ id) :
    (db.applyJob k w).KeepsAction id action := by
  cases hjob : db.jobs[k]? with
  | none =>
      have hsame : db.applyJob k w = db := by rw [Database.applyJob, hjob]
      rw [hsame]
      exact h
  | some job =>
      obtain ⟨row, hrow, haction⟩ := h
      refine ⟨row, ?_, ?_⟩
      · rw [jobs_applyJob, if_neg hk.symm]
        exact hrow
      · rw [actionDropped_applyJob hjob, decide_eq_false hk, Bool.false_and, Bool.or_false]
        exact haction

theorem Database.KeepsAction.apply {db : Database} {id : JobId} {action : Action}
    (h : db.KeepsAction id action) {w : LaneWrite} (hw : Runtime.PlainWrite w) :
    (db.apply w).KeepsAction id action := by
  cases w with
  | job k jw =>
      by_cases hk : k = id
      · subst hk
        exact h.applyJob fun _ _ c hc => Or.inl (hw _ jw rfl c hc)
      · exact h.applyJob_of_ne jw hk
  | _ => exact h

end Storage

namespace Runtime
namespace App

/-- What a run keeps about the job `id` planned with `action`: its checkpoint, and that every
executor and every RPC of the job has the action of an executor built for it. -/
structure Planned (id : JobId) (action : Action) (s : App) : Prop where
  sound : s.Sound
  keeps : s.db.KeepsAction id action
  built : ∀ e, s.executors id = some e → .built id e.action ∈ s.log
  sent : ∀ rpc, .sent rpc ∈ s.log → rpc.job = id → .built id rpc.action ∈ s.log

/-- The step builds an executor for the job. -/
def Builds (id : JobId) (s : App) (l : Label) : Prop :=
  s.executors id = none ∧ ∃ s' e, s.step l = some s' ∧ s'.executors id = some e

/-- The condition on a step: if it builds an executor for the job, the job is an INVITE or its
action has not been dropped. -/
def BuiltInTime (id : JobId) (action : Action) (s : App) (l : Label) : Prop :=
  Builds id s l → action = .invite ∨ s.db.actionDropped id = false

variable {id : JobId} {action : Action} {s s' : App} {l : Label}

/-! ## The checkpoint through one step -/

theorem keepsAction_normalize {db : Database} (h : db.KeepsAction id action) (now : ℕ)
    (k : JobId) : (normalizeJob now k db).KeepsAction id action := by
  rw [normalizeJob]
  split
  · exact h
  · rename_i job hjob
    split_ifs with hwait hstate
    · exact h
    · by_cases hk : k = id
      · subst hk
        refine h.applyJob fun row hrow c hc => Or.inr ?_
        rw [hjob, Option.some.injEq] at hrow
        obtain rfl := Option.some.inj hc
        rw [← hrow]
      · exact h.applyJob_of_ne _ hk
    · exact h

theorem keepsAction_lane {w w' : Lane} {wl : WriterLabel WriteTask}
    (hl : ∀ t, wl ≠ .submit t) (hstep : w.step lane wl = some w')
    (hplain : ∀ p ∈ w.waiting, PlainWrite p.2.write) (h : w.database.KeepsAction id action) :
    w'.database.KeepsAction id action := by
  have hrule := DBWriter.step_rule
    (I := fun db waiting => (∀ p ∈ waiting, PlainWrite p.2.write) ∧ db.KeepsAction id action)
    (S := lane) (fun db t rest db' r hop hI => ?_) hl hstep
    (fun b _ rest db db' e _ hI => ⟨fun p hp => hI.1 p (List.mem_append_right _ hp), hI.2⟩)
    ⟨hplain, h⟩
  · exact hrule.2
  · simp only [lane] at hop
    split at hop
    · exact absurd (congrArg Prod.snd hop) (by simp)
    · obtain rfl := (Prod.mk.injEq .. ▸ hop).1
      exact ⟨fun p hp => hI.1 p (List.mem_cons_of_mem _ hp),
        hI.2.apply (hI.1 t (List.mem_cons_self ..))⟩

/-! ## One step -/

/-- What `new_executor` reads. -/
theorem action_newExecutor (h : s.db.KeepsAction id action) (account : AccountId)
    (target : Telegram.GroupContext) (scheduler : InviteScheduler) :
    (s.newExecutor id account target scheduler).action =
      if s.db.actionDropped id then .invite else action := by
  obtain ⟨job, hjob, haction⟩ := h
  simp only [newExecutor, Database.getCheckpoint, hjob, Option.map_some, Option.getD_some, haction]
  split <;> rfl

theorem built_executor {e : Executor} {env : Env} {m : Move} {out : Outcome}
    (h : Executor.Transition env e m out) {j : JobId} {a : Action} :
    out.event ≠ some (.built j a) := by
  intro hb
  cases h <;> simp at hb

theorem Planned.executor (hs : Planned id action s) {job : JobId} {e : Executor}
    (he : s.executors job = some e) {m : Move} {out : Outcome} {fails : Option String}
    (h : Executor.Transition (s.env e.accountId) e m out) :
    Planned id action (s.applyOutcome job e out fails) := by
  have hjob := hs.sound.filed job e he
  refine ⟨hs.sound.applyOutcome he h, ?_, fun f hf => ?_, fun rpc hrpc hid => ?_⟩
  · have hdb : (s.applyOutcome job e out fails).db = s.db := by
      simp only [App.applyOutcome, db]
      split <;> rfl
    rw [hdb]
    exact hs.keeps
  · simp only [App.applyOutcome] at hf ⊢
    refine List.mem_append_left _ ?_
    by_cases hj : id = job
    · subst hj
      rw [Function.update_self] at hf
      rw [(h.same hf).action]
      exact hs.built e he
    · rw [Function.update_of_ne hj] at hf
      exact hs.built f hf
  · simp only [App.applyOutcome] at hrpc ⊢
    refine List.mem_append_left _ ?_
    rcases List.mem_append.mp hrpc with hold | hnew
    · exact hs.sent rpc hold hid
    · obtain ⟨deadline, a, -, -, rfl⟩ := h.sent_eq (Option.mem_toList.mp hnew)
      simp only at hid ⊢
      rw [hjob] at hid
      subst hid
      exact hs.built e he

/-- **One step** keeps what is known of the planned job. -/
theorem Planned.step (hs : Planned id action s) (h : s.Step l s') : Planned id action s' := by
  have hsound := hs.sound.step h
  cases h with
  | tick d => exact ⟨hsound, hs.keeps, hs.built, hs.sent⟩
  | crash => exact ⟨hsound, hs.keeps, fun e he => absurd he (by simp), hs.sent⟩
  | normalize hrec => exact ⟨hsound, keepsAction_normalize hs.keeps _ _, hs.built, hs.sent⟩
  | refused l => exact hs
  | foreign critical fails hown => exact ⟨hsound, hs.keeps, hs.built, hs.sent⟩
  | lane hrec hl hw =>
      exact ⟨hsound, keepsAction_lane (laneLabel_ne_submit hl) hw hs.sound.plain hs.keeps,
        hs.built, hs.sent⟩
  | executor hrec hjob he hm hout => exact hs.executor he (Executor.transition_of_step hout)
  | @built l k row account target scheduler hl hadm =>
      refine ⟨hsound, hs.keeps, fun e he => ?_, fun rpc hrpc hid => ?_⟩
      · simp only [withExecutor] at he ⊢
        by_cases hk : id = k
        · subst hk
          rw [Function.update_self, Option.some.injEq] at he
          rw [← he]
          exact List.mem_append_right _ (List.mem_singleton.mpr rfl)
        · rw [Function.update_of_ne hk] at he
          exact List.mem_append_left _ (hs.built e he)
      · simp only [withExecutor] at hrpc ⊢
        refine List.mem_append_left _ (hs.sent rpc ?_ hid)
        simpa using hrpc

/-- The executors built in a step: the label builds one exactly when it shows in the log. -/
theorem log_of_step (h : s.Step l s') (hstep : s.step l = some s') (a : Action) :
    .built id a ∈ s'.log ↔ .built id a ∈ s.log ∨
      (Builds id s l ∧ ∃ e, s'.executors id = some e ∧ e.action = a) := by
  have hb : Builds id s l → ∀ s'', s.step l = some s'' → ∃ e, s''.executors id = some e := by
    rintro ⟨-, t, e, ht, he⟩ s'' hs''
    rw [ht, Option.some.injEq] at hs''
    exact ⟨e, hs'' ▸ he⟩
  have hsame : s'.executors id = s.executors id ∨ s'.executors id = none →
      (.built id a ∈ s'.log ↔ .built id a ∈ s.log) →
      (.built id a ∈ s'.log ↔ .built id a ∈ s.log ∨
        (Builds id s l ∧ ∃ e, s'.executors id = some e ∧ e.action = a)) := by
    intro hex hlog
    rw [hlog]
    refine ⟨Or.inl, ?_⟩
    rintro (hold | ⟨hbuild, -⟩)
    · exact hold
    · obtain ⟨e, he⟩ := hb hbuild s' hstep
      rcases hex with hex | hex
      · rw [hex, hbuild.1] at he
        exact absurd he (by simp)
      · rw [hex] at he
        exact absurd he (by simp)
  cases h with
  | tick d => exact hsame (Or.inl rfl) Iff.rfl
  | crash => exact hsame (Or.inr rfl) Iff.rfl
  | normalize hrec => exact hsame (Or.inl rfl) Iff.rfl
  | refused l => exact hsame (Or.inl rfl) Iff.rfl
  | foreign critical fails hown => exact hsame (Or.inl rfl) Iff.rfl
  | lane hrec hl hw => exact hsame (Or.inl rfl) Iff.rfl
  | @executor _ job e m fails out hrec hjob he hm hout =>
      have htr := Executor.transition_of_step hout
      have hlog : .built id a ∈ (s.applyOutcome job e out fails).log ↔ .built id a ∈ s.log := by
        simp only [App.applyOutcome, List.mem_append, Option.mem_toList]
        exact or_iff_left (built_executor htr)
      rw [hlog]
      refine ⟨Or.inl, ?_⟩
      rintro (hold | ⟨hbuild, f, hf, -⟩)
      · exact hold
      · simp only [App.applyOutcome] at hf
        by_cases hk : id = job
        · subst hk
          rw [hbuild.1] at he
          exact absurd he (by simp)
        · rw [Function.update_of_ne hk, hbuild.1] at hf
          exact absurd hf (by simp)
  | @built _ k row account target scheduler hl hadm =>
      by_cases hk : id = k
      · subst hk
        have hbuild : Builds id s l :=
          ⟨hadm.idle, _, _, hstep, by simp only [withExecutor, Function.update_self]; rfl⟩
        simp only [withExecutor, Function.update_self, List.mem_append, List.mem_singleton,
          Event.built.injEq, true_and, Option.some.injEq, exists_eq_left']
        rw [and_iff_right hbuild]
        exact or_congr_right eq_comm
      · refine hsame (Or.inl (by simp only [withExecutor, Function.update_of_ne hk])) ?_
        simp [withExecutor, hk]

/-- The executor that a step builds has the action that `new_executor` reads. -/
theorem action_of_builds (hkeeps : s.db.KeepsAction id action) (h : s.Step l s')
    (hnone : s.executors id = none) {e : Executor} (he : s'.executors id = some e) :
    e.action = if s.db.actionDropped id then .invite else action := by
  have hsame : s'.executors id ≠ s.executors id := by
    rw [hnone, he]
    exact Option.some_ne_none e
  cases h with
  | tick d => exact absurd rfl hsame
  | crash => exact absurd he (by simp)
  | normalize hrec => exact absurd rfl hsame
  | refused l => exact absurd rfl hsame
  | foreign critical fails hown => exact absurd rfl hsame
  | lane hrec hl hw => exact absurd rfl hsame
  | @executor _ job e m fails out hrec hjob hex hm hout =>
      by_cases hk : id = job
      · subst hk
        rw [hnone] at hex
        exact absurd hex (by simp)
      · exact absurd (by simp only [applyOutcome, Function.update_of_ne hk]) hsame
  | @built _ k row account target scheduler hl hadm =>
      by_cases hk : id = k
      · subst hk
        simp only [withExecutor, Function.update_self, Option.some.injEq] at he
        rw [← he]
        exact action_newExecutor hkeeps account target scheduler
      · exact absurd (by simp only [withExecutor, Function.update_of_ne hk]) hsame

/-- One step shows only executors of the planned action exactly when it meets the condition. -/
theorem built_step_iff (hs : Planned id action s) (hstep : s.step l = some s') :
    (∀ a, .built id a ∈ s'.log → a = action) ↔
      (∀ a, .built id a ∈ s.log → a = action) ∧ BuiltInTime id action s l := by
  have hcases := step_cases hstep
  constructor
  · refine fun hall => ⟨fun a ha => hall a ((log_of_step hcases hstep a).mpr (Or.inl ha)), ?_⟩
    rintro ⟨hnone, t, e, ht, he⟩
    rw [hstep, Option.some.injEq] at ht
    subst ht
    have haction := action_of_builds hs.keeps hcases hnone he
    have hbuilt := hall e.action ((log_of_step hcases hstep e.action).mpr
      (Or.inr ⟨⟨hnone, _, e, hstep, he⟩, e, he, rfl⟩))
    rw [haction] at hbuilt
    by_cases hd : s.db.actionDropped id = true
    · rw [if_pos hd] at hbuilt
      exact Or.inl hbuilt.symm
    · exact Or.inr (by simpa using hd)
  · rintro ⟨hall, hcond⟩ a ha
    rcases (log_of_step hcases hstep a).mp ha with hold | ⟨hbuild, e, he, rfl⟩
    · exact hall a hold
    · rw [action_of_builds hs.keeps hcases hbuild.1 he]
      rcases hcond hbuild with hinvite | hkept
      · rw [hinvite, ite_self]
      · simp [hkept]

theorem built_run_iff (hs : Planned id action s) {ls : List Label}
    (hrun : runLabels App.step s ls = some s') :
    (∀ a, .built id a ∈ s'.log → a = action) ↔
      (∀ a, .built id a ∈ s.log → a = action) ∧
        Along App.step (BuiltInTime id action) s ls := by
  induction ls generalizing s with
  | nil =>
      obtain rfl := Option.some.inj hrun
      exact (and_iff_left trivial).symm
  | cons l ls ih =>
      obtain ⟨t, ht, hrest⟩ := runLabels_cons_eq_some.mp hrun
      rw [ih (hs.step (step_cases ht)) hrest, built_step_iff hs ht, along_cons ht, and_assoc]

theorem planned_of_run (hs : Planned id action s) {ls : List Label}
    (hrun : runLabels App.step s ls = some s') : Planned id action s' :=
  invariant_runLabels (C := fun _ _ => True)
    (fun _ _ _ hI _ hstep => hI.step (step_cases hstep)) hs
    (along_of_forall_mem fun _ _ => trivial) hrun

theorem planned_start {db : Database} {account : AccountId} {group : GroupId}
    {items : List MemberId} (hjob : db.jobs[id]? = some (persist account group items action))
    (hfresh : ∀ entry ∈ db.journal, entry.1 ≠ id) (now : ℕ) :
    Planned id action (App.start db now) := by
  have hkept : db.actionDropped id = false := by
    rw [Database.actionDropped, List.any_eq_false]
    intro entry hentry
    simp [hfresh entry hentry]
  refine ⟨sound_start db now, ⟨_, hjob, ?_⟩, fun e he => absurd he (by simp [App.start]),
    fun rpc hrpc => absurd hrpc (by simp [App.start])⟩
  have hdb : (App.start db now).db = db := rfl
  rw [hdb, hkept]
  rfl

/-- **A job keeps its action until a write drops it.**  In every run from a planned job, all
executors built for it have the planned action exactly when each is built for an INVITE or before
a result flush, a FLOOD_WAIT or a pausing error of the job has been committed; and in such a run
no RPC of the job has the other action. -/
theorem planned_action_iff (id : JobId) (account : AccountId) (group : GroupId)
    (items : List MemberId) (action : Action) (db : Database) (now : ℕ)
    (hjob : db.jobs[id]? = some (persist account group items action))
    (hfresh : ∀ entry ∈ db.journal, entry.1 ≠ id) (ls : List Label) (s : App)
    (hrun : runLabels App.step (App.start db now) ls = some s) :
    ((∀ a, .built id a ∈ s.log → a = action) ↔
        Along App.step (BuiltInTime id action) (App.start db now) ls) ∧
      (Along App.step (BuiltInTime id action) (App.start db now) ls →
        ∀ rpc, .sent rpc ∈ s.log → rpc.job = id → rpc.action = action) := by
  have hstart := planned_start hjob hfresh now
  have hiff : (∀ a, .built id a ∈ s.log → a = action) ↔
      Along App.step (BuiltInTime id action) (App.start db now) ls := by
    rw [built_run_iff hstart hrun]
    exact and_iff_right fun a ha => absurd ha (by simp [App.start])
  exact ⟨hiff, fun hal rpc hrpc hid =>
    hiff.mpr hal rpc.action ((planned_of_run hstart hrun).sent rpc hrpc hid)⟩

/-- A job planned as REMOVE removes one member, is paused with its result and resumed: the second
executor is built for INVITE and invites the next member. -/
theorem removal_becomes_invitation :
    ∃ s, runLabels App.step
        (App.start (smallDatabase [persist 1 1 [1, 2] .remove]) 0)
        ([.start 0 1 (3 * second)] ++ enterLoop 0 ++ sendRpc 0 ++ keepResult 0 ++
          pauseWithResults 0 ++ [.resume 0 (3 * second)] ++ enterLoop 0 ++ sendRpc 0) = some s ∧
      s.builds = [(0, .remove), (0, .invite)] ∧
      s.rpcs.map (fun rpc => (rpc.job, rpc.action, rpc.ordinal)) =
        [(0, .remove, 0), (0, .invite, 1)] := by
  have h : ((runLabels App.step
      (App.start (smallDatabase [persist 1 1 [1, 2] .remove]) 0)
      ([.start 0 1 (3 * second)] ++ enterLoop 0 ++ sendRpc 0 ++ keepResult 0 ++
        pauseWithResults 0 ++ [.resume 0 (3 * second)] ++ enterLoop 0 ++ sendRpc 0)).map
      fun s => (s.builds, s.rpcs.map fun rpc => (rpc.job, rpc.action, rpc.ordinal))) =
      some ([(0, .remove), (0, .invite)], [(0, .remove, 0), (0, .invite, 1)]) := by
    decide +kernel
  obtain ⟨s, hs, hlog⟩ := Option.map_eq_some_iff.mp h
  exact ⟨s, hs, (Prod.mk.injEq .. ▸ hlog).1, (Prod.mk.injEq .. ▸ hlog).2⟩

/-- The same job up to its first RPC. -/
theorem planned_action_first_rpc :
    ∃ s, runLabels App.step
        (App.start (smallDatabase [persist 1 1 [1, 2] .remove]) 0)
        ([.start 0 1 (3 * second)] ++ enterLoop 0 ++ sendRpc 0) = some s ∧
      s.rpcs.length = 1 ∧ ∀ rpc, .sent rpc ∈ s.log → rpc.job = 0 → rpc.action = .remove := by
  have h : ((runLabels App.step
      (App.start (smallDatabase [persist 1 1 [1, 2] .remove]) 0)
      ([.start 0 1 (3 * second)] ++ enterLoop 0 ++ sendRpc 0)).map
      fun s => (s.builds, s.rpcs.length)) = some ([(0, .remove)], 1) := by
    decide +kernel
  obtain ⟨s, hs, hlog⟩ := Option.map_eq_some_iff.mp h
  rw [Prod.mk.injEq] at hlog
  have hiff := planned_action_iff 0 1 1 [1, 2] .remove
    (smallDatabase [persist 1 1 [1, 2] .remove]) 0 rfl
    (fun _ h => absurd h (by simp [smallDatabase])) _ s hs
  refine ⟨s, hs, hlog.2, hiff.2 (hiff.1.mp fun a ha => ?_)⟩
  have hmem := mem_builds.mpr ha
  rw [hlog.1, List.mem_singleton, Prod.mk.injEq] at hmem
  exact hmem.2

end App
end Runtime
end MigrationStudio
