import MigrationStudio.Runtime.TargetCommands

/-!
# The permission to invite, from the resolved target to the executor

`bootstrap` puts `plan_action` on the command bus in the place of `plan_migration`.  It keeps the
guards on the target and the pre-check, and drops two: that the account exists and is enabled, and
that the resolved target has `can_invite`.  `start_migration` and `resume_migration` set
`can_invite` to `True` without a look, as "validated when the persisted plan was created".

The model follows the permission through the commands: a target is resolved, pre-checked and
planned for; the worker creates the job and afterwards stores its action in the checkpoint; the job
is started, with the action of the checkpoint and `INVITE` when there is none.  Executors and
recovery write the rows in any way.  `seen` are the accounts and groups for which a resolved target
had `can_invite`.

* `planMigration`: the guards of `plan_migration`; those of `plan_action` are `planAction`.
* `Validated`: the condition on a step.
* `plan_guards_agree_iff`: when the two commands agree, and what the executors act on then.
-/

namespace MigrationStudio
namespace Runtime

open MigrationStudio.Core Foundations

/-- `GroupContext` with `can_invite`. -/
structure TargetContext extends GroupContext where
  canInvite : Bool
  deriving DecidableEq, Repr

/-- What a snapshot of the `StateStore` says about the target. -/
structure TargetSnapshot where
  targetGroup : Option TargetContext := none
  targetAccountId : Option AccountId := none
  precheck : Option PrecheckResult := none
  deriving DecidableEq, Repr

/-- The snapshot without `can_invite`, as `plan_action` reads it. -/
def TargetSnapshot.store (st : TargetSnapshot) : StateStore where
  targetGroup := st.targetGroup.map TargetContext.toGroupContext
  targetAccountId := st.targetAccountId
  precheck := st.precheck

/-- The guards of `plan_migration`, `_require_enabled_account` first, and what it hands to the
planner. -/
def planMigration (enabled : Bool) (st : TargetSnapshot) (account : AccountId) : Option Plan :=
  if enabled then
    match st.targetGroup with
    | none => none
    | some target =>
        match target.localGroupId with
        | none => none
        | some id =>
            if st.targetAccountId ≠ some account then none
            else
              match st.precheck with
              | none => none
              | some pre => if target.canInvite then some ⟨account, .invite, id, pre⟩ else none
  else none

/-- A migration job: what it was planned for, and what its row says now.  `stored` is the action in
the checkpoint. -/
structure PlannedJob where
  account : AccountId
  target : GroupId
  action : Action
  owner : Option AccountId
  state : JobState
  stored : Option Action
  deriving DecidableEq, Repr

/-- An executor that has been started: its account, the group that it acts on, its action. -/
structure StartedExecutor where
  account : AccountId
  target : GroupId
  action : Action
  deriving DecidableEq, Repr

/-- The commands, the network operations and worker tasks in flight, and the jobs.  `planning` are
the plans that a worker has not created, `storing` the jobs whose action is not in the checkpoint
yet, `running` the registry of executors. -/
structure PermissionState where
  enabled : AccountId → Bool
  st : TargetSnapshot := {}
  resolving : List AccountId := []
  prechecking : List (AccountId × GroupContext) := []
  planning : List Plan := []
  jobs : List PlannedJob := []
  storing : List JobId := []
  running : List JobId := []
  started : List StartedExecutor := []
  seen : List (AccountId × GroupId) := []

/-- A command, a completion, or a write of another component.  `write` is any other write of a job
row: it leaves the owner or clears it, and leaves the stored action or drops it. -/
inductive PermissionLabel where
  | setEnabled (account : AccountId) (enabled : Bool)
  | resolveTarget (account : AccountId)
  | resolved (i : ℕ) (telegramId : ℤ) (type : GroupType) (localId : GroupId) (canInvite : Bool)
  | resolveFailed (i : ℕ)
  | precheckTarget (account : AccountId)
  | prechecked (i : ℕ) (targetIds : List ℤ) (coverage : TargetCoverage)
  | precheckFailed (i : ℕ)
  | plan (account : AccountId) (action : Action)
  | create (i : ℕ)
  | planFailed (i : ℕ)
  | storeAction (i : ℕ)
  | storeFailed (i : ℕ)
  | write (job : JobId) (state : JobState) (keepsOwner keepsAction : Bool)
  | start (job : JobId) (account : AccountId)
  | resume (job : JobId)
  | finished (job : JobId)
  | restart
  deriving DecidableEq, Repr

namespace PermissionState

/-- `executor.run`, with the action that `new_executor` reads from the checkpoint. -/
def run (s : PermissionState) (id : JobId) (account : AccountId) (job : PlannedJob) :
    PermissionState :=
  { s with
    running := id :: s.running
    started := s.started ++ [⟨account, job.target, job.stored.getD .invite⟩] }

/-- The guards of `start_migration`, in the order of the code. -/
def start (s : PermissionState) (id : JobId) (account : AccountId) : PermissionState :=
  if id ∈ s.running then s
  else if s.enabled account then
    match s.jobs[id]? with
    | none => s
    | some job =>
        if job.state = .ready ∧ job.owner = some account then s.run id account job else s
  else s

/-- The guards of `resume_migration`. -/
def resume (s : PermissionState) (id : JobId) : PermissionState :=
  if id ∈ s.running then s
  else
    match s.jobs[id]? with
    | none => s
    | some job =>
        if job.state = .paused ∨ job.state = .waitingServer then
          match job.owner with
          | none => s
          | some account => if s.enabled account then s.run id account job else s
        else s

/-- `_persist`: the row of the job. -/
def create (s : PermissionState) (p : Plan) : PermissionState :=
  { s with
    jobs := s.jobs ++ [⟨p.account, p.targetGroupId, p.action, some p.account, .ready, none⟩]
    storing := s.storing ++ [s.jobs.length] }

/-- `done` of `resolve_target`. -/
def storeTarget (s : PermissionState) (account : AccountId) (target : TargetContext) :
    PermissionState :=
  { s with
    st := { targetGroup := some target, targetAccountId := some account, precheck := none }
    seen :=
      match target.localGroupId with
      | some id => if target.canInvite then s.seen ++ [(account, id)] else s.seen
      | none => s.seen }

/-- One step.  A command whose guard raises leaves the state as it is. -/
def step (s : PermissionState) : PermissionLabel → Option PermissionState
  | .setEnabled account enabled =>
      some { s with enabled := Function.update s.enabled account enabled }
  | .resolveTarget account =>
      if s.enabled account then some { s with resolving := s.resolving ++ [account] } else some s
  | .resolved i telegramId type localId canInvite =>
      s.resolving[i]?.map fun account =>
        { s with resolving := s.resolving.eraseIdx i }.storeTarget account
          ⟨⟨telegramId, type, some localId⟩, canInvite⟩
  | .resolveFailed i =>
      s.resolving[i]?.map fun _ => { s with resolving := s.resolving.eraseIdx i }
  | .precheckTarget account =>
      if s.enabled account then
        match TargetState.precheckGuard s.st.store account with
        | some target => some { s with prechecking := s.prechecking ++ [(account, target)] }
        | none => some s
      else some s
  | .prechecked i targetIds coverage =>
      s.prechecking[i]?.map fun op =>
        { s with
          st := { s.st with precheck := some ⟨targetIds, coverage, op.1, op.2⟩ }
          prechecking := s.prechecking.eraseIdx i }
  | .precheckFailed i =>
      s.prechecking[i]?.map fun _ => { s with prechecking := s.prechecking.eraseIdx i }
  | .plan account action =>
      match TargetState.planAction s.st.store account action with
      | some p => some { s with planning := s.planning ++ [p] }
      | none => some s
  | .create i =>
      s.planning[i]?.map fun p => { s with planning := s.planning.eraseIdx i }.create p
  | .planFailed i => s.planning[i]?.map fun _ => { s with planning := s.planning.eraseIdx i }
  | .storeAction i =>
      s.storing[i]?.map fun id =>
        { s with
          jobs := s.jobs.modify id fun job => { job with stored := some job.action }
          storing := s.storing.eraseIdx i }
  | .storeFailed i => s.storing[i]?.map fun _ => { s with storing := s.storing.eraseIdx i }
  | .write id state keepsOwner keepsAction =>
      some { s with
        jobs := s.jobs.modify id fun job =>
          { job with
            state := state
            owner := if keepsOwner then job.owner else none
            stored := if keepsAction then job.stored else none } }
  | .start id account => some (s.start id account)
  | .resume id => some (s.resume id)
  | .finished id => some { s with running := s.running.erase id }
  | .restart =>
      some { s with
        st := {}, resolving := [], prechecking := [], planning := [], storing := [], running := [] }

/-! ## The guards -/

/-- The snapshot lets `plan_action` create an INVITE job: the target was resolved with the account,
pre-checked, and is no basic chat. -/
def Plannable (st : TargetSnapshot) (account : AccountId) (target : TargetContext) : Prop :=
  st.targetGroup = some target ∧ target.localGroupId.isSome ∧ st.precheck.isSome ∧
    st.targetAccountId = some account ∧ target.type ≠ .chat

/-- **What `plan_action` leaves out**: the account is enabled, and the target that it plans for has
`can_invite`. -/
def Admitted (enabled : Bool) (st : TargetSnapshot) (account : AccountId) : Prop :=
  ∀ target, Plannable st account target → enabled = true ∧ target.canInvite = true

variable {enabled : Bool} {st : TargetSnapshot} {account : AccountId} {target : TargetContext}
  {p : Plan}

theorem planAction_plannable (h : Plannable st account target) :
    ∃ id pre, target.localGroupId = some id ∧ st.precheck = some pre ∧
      TargetState.planAction st.store account .invite = some ⟨account, .invite, id, pre⟩ := by
  obtain ⟨htarget, hid, hpre, haccount, htype⟩ := h
  obtain ⟨id, hid⟩ := Option.isSome_iff_exists.mp hid
  obtain ⟨pre, hpre⟩ := Option.isSome_iff_exists.mp hpre
  refine ⟨id, pre, hid, hpre, ?_⟩
  simp [TargetState.planAction, TargetSnapshot.store, htarget, hpre, hid, haccount, htype]

theorem action_of_planAction {store : StateStore} {action : Action}
    (h : TargetState.planAction store account action = some p) : p.action = action := by
  rw [TargetState.planAction] at h
  split at h
  · split at h
    · exact absurd h (by simp)
    · split_ifs at h
      rw [← Option.some.inj h]
  · exact absurd h (by simp)

theorem plannable_of_planAction (h : TargetState.planAction st.store account .invite = some p) :
    ∃ target, Plannable st account target ∧ target.localGroupId = some p.targetGroupId ∧
      st.precheck = some p.precheck ∧ p = ⟨account, .invite, p.targetGroupId, p.precheck⟩ := by
  rw [TargetState.planAction] at h
  cases htarget : st.targetGroup with
  | none => simp [TargetSnapshot.store, htarget] at h
  | some target =>
      cases hpre : st.precheck with
      | none => simp [TargetSnapshot.store, htarget, hpre] at h
      | some pre =>
          cases hid : target.localGroupId with
          | none => simp [TargetSnapshot.store, htarget, hpre, hid] at h
          | some id =>
              simp only [TargetSnapshot.store, htarget, hpre, Option.map_some, hid] at h
              split_ifs at h with haccount hchat
              obtain rfl := Option.some.inj h
              have htype : target.type ≠ .chat := fun heq => hchat ⟨trivial, heq⟩
              exact ⟨target, ⟨htarget, by rw [hid]; rfl, by rw [hpre]; rfl, not_not.mp haccount,
                htype⟩, hid, rfl, rfl⟩

/-- What `plan_migration` does with a snapshot that `plan_action` accepts. -/
theorem planMigration_of_plannable (h : Plannable st account target) {id : GroupId}
    {pre : PrecheckResult} (hid : target.localGroupId = some id) (hpre : st.precheck = some pre) :
    planMigration enabled st account =
      if enabled = true ∧ target.canInvite = true then some ⟨account, .invite, id, pre⟩
      else none := by
  obtain ⟨htarget, -, -, haccount, -⟩ := h
  simp only [planMigration, htarget, hid, haccount, hpre, ne_eq, not_true, if_false, ite_and]

/-- `plan_migration` admits what `plan_action` does exactly when the guards in between hold. -/
theorem planMigration_iff :
    (∀ p, TargetState.planAction st.store account .invite = some p →
      planMigration enabled st account = some p) ↔ Admitted enabled st account := by
  constructor
  · intro hagree target htarget
    obtain ⟨id, pre, hid, hpre, hplan⟩ := planAction_plannable htarget
    have hadmits := hagree _ hplan
    rw [planMigration_of_plannable htarget hid hpre] at hadmits
    by_contra hno
    rw [if_neg hno] at hadmits
    exact absurd hadmits (by simp)
  · intro hadmitted p hplan
    obtain ⟨target, htarget, hid, hpre, hp⟩ := plannable_of_planAction hplan
    rw [planMigration_of_plannable htarget hid hpre, if_pos (hadmitted target htarget), ← hp]

/-! ## What the executors act on -/

/-- **The step starts nothing that was not validated.**  It plans no INVITE job that
`plan_migration` would refuse, and it starts a job that was planned as REMOVE only with that action
in the checkpoint. -/
structure Validated (s : PermissionState) (l : PermissionLabel) : Prop where
  plan : ∀ account, l = .plan account .invite → Admitted (s.enabled account) s.st account
  start : ∀ id account, l = .start id account ∨ l = .resume id → ∀ job, s.jobs[id]? = some job →
    job.action = .remove → job.stored = some .remove

/-- **The invariant.**  The permission was seen for the stored target that shows it, and for every
INVITE that is planned, created or started. -/
structure Permitted (s : PermissionState) : Prop where
  target : ∀ target account id, s.st.targetGroup = some target → target.canInvite = true →
    s.st.targetAccountId = some account → target.localGroupId = some id → (account, id) ∈ s.seen
  planning : ∀ p ∈ s.planning, p.action = .invite → (p.account, p.targetGroupId) ∈ s.seen
  jobs : ∀ job ∈ s.jobs, job.action = .invite → (job.account, job.target) ∈ s.seen
  owner : ∀ job ∈ s.jobs, ∀ account, job.owner = some account → account = job.account
  stored : ∀ job ∈ s.jobs, ∀ action, job.stored = some action → action = job.action
  started : ∀ e ∈ s.started, e.action = .invite → (e.account, e.target) ∈ s.seen

namespace Permitted

variable {s s' : PermissionState} {l : PermissionLabel}

theorem new (enabled : AccountId → Bool) :
    ({ enabled := enabled } : PermissionState).Permitted where
  target := by simp
  planning := by simp
  jobs := by simp
  owner := by simp
  stored := by simp
  started := by simp

/-- A plan of `plan_action` is for a target whose permission was seen. -/
theorem seen_of_plan (h : s.Permitted) {action : Action}
    (hadmitted : action = .invite → Admitted (s.enabled account) s.st account)
    (hplan : TargetState.planAction s.st.store account action = some p)
    (haction : p.action = .invite) : (p.account, p.targetGroupId) ∈ s.seen := by
  have hp : p.action = action := action_of_planAction hplan
  rw [hp] at haction
  subst haction
  obtain ⟨target, htarget, hid, hpre, heq⟩ := plannable_of_planAction hplan
  have hinvite := (hadmitted rfl target htarget).2
  rw [heq]
  exact h.target target account _ htarget.1 hinvite htarget.2.2.2.1 hid

/-- An executor starts. -/
theorem run (h : s.Permitted) {id : JobId} {job : PlannedJob} (hjob : s.jobs[id]? = some job)
    (howner : job.owner = some account)
    (hremove : job.action = .remove → job.stored = some .remove) :
    (s.run id account job).Permitted := by
  have hmem : job ∈ s.jobs := List.mem_of_getElem? hjob
  refine { h with started := fun e he haction => ?_ }
  rcases List.mem_append.mp he with he | he
  · exact h.started e he haction
  · obtain rfl := List.mem_singleton.mp he
    obtain rfl := h.owner job hmem account howner
    have hinvite : job.action = .invite := by
      cases hact : job.action with
      | invite => rfl
      | remove => exact absurd (haction.symm.trans (by rw [hremove hact])) (by simp)
    exact h.jobs job hmem hinvite

/-- What the invariant does not read may change. -/
theorem of_same (h : s.Permitted) (hst : s'.st = s.st) (hplanning : s'.planning ⊆ s.planning)
    (hjobs : s'.jobs = s.jobs) (hstarted : s'.started = s.started) (hseen : s'.seen = s.seen) :
    s'.Permitted where
  target := by
    rw [hst, hseen]
    exact h.target
  planning := fun p hp => hseen ▸ h.planning p (hplanning hp)
  jobs := by
    rw [hjobs, hseen]
    exact h.jobs
  owner := hjobs ▸ h.owner
  stored := hjobs ▸ h.stored
  started := by
    rw [hstarted, hseen]
    exact h.started

/-- A target is resolved. -/
theorem storeTarget (h : s.Permitted) (account : AccountId) (target : TargetContext) :
    (s.storeTarget account target).Permitted := by
  have hsub : s.seen ⊆ (s.storeTarget account target).seen := by
    rw [PermissionState.storeTarget]
    split
    · split_ifs
      · exact List.subset_append_left ..
      · exact List.Subset.refl _
    · exact List.Subset.refl _
  exact
    { target := by
        intro target' account' id htarget hinvite haccount hid
        obtain rfl := Option.some.inj htarget
        obtain rfl := Option.some.inj haccount
        simp [PermissionState.storeTarget, hid, hinvite]
      planning := fun p hp haction => hsub (h.planning p hp haction)
      jobs := fun job hjob haction => hsub (h.jobs job hjob haction)
      owner := h.owner
      stored := h.stored
      started := fun e he haction => hsub (h.started e he haction) }

/-- A plan is accepted. -/
theorem plan (h : s.Permitted) (hp : p.action = .invite → (p.account, p.targetGroupId) ∈ s.seen) :
    ({ s with planning := s.planning ++ [p] } : PermissionState).Permitted :=
  { h with
    planning := by
      intro q hq haction
      rcases List.mem_append.mp hq with hq | hq
      · exact h.planning q hq haction
      · obtain rfl := List.mem_singleton.mp hq
        exact hp haction }

/-- A job is created. -/
theorem create (h : s.Permitted) (hp : p.action = .invite → (p.account, p.targetGroupId) ∈ s.seen) :
    (s.create p).Permitted := by
  have hmem : ∀ job ∈ (s.create p).jobs, job ∈ s.jobs ∨
      job = ⟨p.account, p.targetGroupId, p.action, some p.account, .ready, none⟩ := fun job hjob =>
    (List.mem_append.mp hjob).imp_right List.mem_singleton.mp
  exact
    { h with
      jobs := by
        intro job hjob haction
        rcases hmem job hjob with hjob | rfl
        · exact h.jobs job hjob haction
        · exact hp haction
      owner := by
        intro job hjob account howner
        rcases hmem job hjob with hjob | rfl
        · exact h.owner job hjob account howner
        · exact (Option.some.inj howner).symm
      stored := by
        intro job hjob action hstored
        rcases hmem job hjob with hjob | rfl
        · exact h.stored job hjob action hstored
        · exact absurd hstored (by simp) }

/-- A row is written, with the owner and the stored action that it had, or the planned action, or
none. -/
theorem modify (h : s.Permitted) {id : JobId} {f : PlannedJob → PlannedJob} (storing : List JobId)
    (hplanned : ∀ job, (f job).account = job.account ∧ (f job).target = job.target ∧
      (f job).action = job.action)
    (howner : ∀ job account, (f job).owner = some account → job.owner = some account)
    (hstored : ∀ job action, (f job).stored = some action →
      job.stored = some action ∨ action = job.action) :
    ({ s with jobs := s.jobs.modify id f, storing := storing } : PermissionState).Permitted := by
  have hmem : ∀ job ∈ s.jobs.modify id f, ∃ old ∈ s.jobs, job = old ∨ job = f old := by
    intro job hjob
    obtain ⟨i, hi⟩ := List.mem_iff_getElem?.mp hjob
    rw [List.getElem?_modify] at hi
    obtain ⟨old, hold, rfl⟩ := Option.map_eq_some_iff.mp hi
    refine ⟨old, List.mem_of_getElem? hold, ?_⟩
    split_ifs
    · exact Or.inr rfl
    · exact Or.inl rfl
  exact
    { h with
      jobs := by
        intro job hjob haction
        obtain ⟨old, hold, rfl | rfl⟩ := hmem job hjob
        · exact h.jobs _ hold haction
        · obtain ⟨haccount, htarget, hact⟩ := hplanned old
          rw [haccount, htarget]
          exact h.jobs old hold (hact ▸ haction)
      owner := by
        intro job hjob account hacc
        obtain ⟨old, hold, rfl | rfl⟩ := hmem job hjob
        · exact h.owner _ hold account hacc
        · exact (h.owner old hold account (howner old account hacc)).trans (hplanned old).1.symm
      stored := by
        intro job hjob action hact
        obtain ⟨old, hold, rfl | rfl⟩ := hmem job hjob
        · exact h.stored _ hold action hact
        · rw [(hplanned old).2.2]
          exact (hstored old action hact).elim (h.stored old hold action) fun heq => heq }

/-- **A validated step keeps the permission.** -/
theorem step (h : s.Permitted) (hl : s.Validated l) (hstep : s.step l = some s') :
    s'.Permitted := by
  cases l with
  | setEnabled account enabled =>
      obtain rfl := Option.some.inj hstep
      exact h.of_same rfl (List.Subset.refl _) rfl rfl rfl
  | resolveTarget account =>
      rw [PermissionState.step] at hstep
      split_ifs at hstep <;> obtain rfl := Option.some.inj hstep
      · exact h.of_same rfl (List.Subset.refl _) rfl rfl rfl
      · exact h
  | resolved i telegramId type localId canInvite =>
      obtain ⟨account, -, rfl⟩ := Option.map_eq_some_iff.mp hstep
      have hquiet : ({ s with resolving := s.resolving.eraseIdx i } : PermissionState).Permitted :=
        h.of_same rfl (List.Subset.refl _) rfl rfl rfl
      exact hquiet.storeTarget account _
  | resolveFailed i =>
      obtain ⟨account, -, rfl⟩ := Option.map_eq_some_iff.mp hstep
      exact h.of_same rfl (List.Subset.refl _) rfl rfl rfl
  | precheckTarget account =>
      rw [PermissionState.step] at hstep
      split_ifs at hstep
      · split at hstep <;> obtain rfl := Option.some.inj hstep
        · exact h.of_same rfl (List.Subset.refl _) rfl rfl rfl
        · exact h
      · obtain rfl := Option.some.inj hstep
        exact h
  | prechecked i targetIds coverage =>
      obtain ⟨op, -, rfl⟩ := Option.map_eq_some_iff.mp hstep
      exact { h with }
  | precheckFailed i =>
      obtain ⟨op, -, rfl⟩ := Option.map_eq_some_iff.mp hstep
      exact h.of_same rfl (List.Subset.refl _) rfl rfl rfl
  | plan account action =>
      rw [PermissionState.step] at hstep
      split at hstep <;> obtain rfl := Option.some.inj hstep
      · rename_i p hplan
        exact h.plan (h.seen_of_plan (fun hact => hl.plan account (hact ▸ rfl)) hplan)
      · exact h
  | create i =>
      obtain ⟨p, hp, rfl⟩ := Option.map_eq_some_iff.mp hstep
      have htaken : ({ s with planning := s.planning.eraseIdx i } : PermissionState).Permitted :=
        h.of_same rfl (List.eraseIdx_subset ..) rfl rfl rfl
      exact htaken.create (h.planning p (List.mem_of_getElem? hp))
  | planFailed i =>
      obtain ⟨p, -, rfl⟩ := Option.map_eq_some_iff.mp hstep
      exact h.of_same rfl (List.eraseIdx_subset ..) rfl rfl rfl
  | storeAction i =>
      obtain ⟨id, -, rfl⟩ := Option.map_eq_some_iff.mp hstep
      exact h.modify _ (fun _ => ⟨rfl, rfl, rfl⟩) (fun _ _ howner => howner)
        fun _ _ hstored => Or.inr (Option.some.inj hstored).symm
  | storeFailed i =>
      obtain ⟨id, -, rfl⟩ := Option.map_eq_some_iff.mp hstep
      exact h.of_same rfl (List.Subset.refl _) rfl rfl rfl
  | write id state keepsOwner keepsAction =>
      obtain rfl := Option.some.inj hstep
      refine h.modify s.storing (fun _ => ⟨rfl, rfl, rfl⟩) (fun _ _ howner => ?_)
        fun _ _ hstored => Or.inl ?_
      · cases keepsOwner with
        | true => exact howner
        | false => exact absurd howner (by simp)
      · cases keepsAction with
        | true => exact hstored
        | false => exact absurd hstored (by simp)
  | start id account =>
      obtain rfl := Option.some.inj hstep
      rw [PermissionState.start]
      split_ifs
      · exact h
      · split
        · exact h
        · rename_i job hjob
          split_ifs with hguard
          · exact h.run hjob hguard.2 (hl.start id account (Or.inl rfl) job hjob)
          · exact h
      · exact h
  | resume id =>
      obtain rfl := Option.some.inj hstep
      rw [PermissionState.resume]
      split_ifs
      · exact h
      · split
        · exact h
        · rename_i job hjob
          split_ifs
          · split
            · exact h
            · rename_i account howner
              split_ifs
              · exact h.run hjob howner (hl.start id account (Or.inr rfl) job hjob)
              · exact h
          · exact h
  | finished id =>
      obtain rfl := Option.some.inj hstep
      exact h.of_same rfl (List.Subset.refl _) rfl rfl rfl
  | restart =>
      obtain rfl := Option.some.inj hstep
      exact { h with target := by simp, planning := by simp }

end Permitted

/-- **The two commands agree** exactly when the guards that `plan_action` leaves out hold; and in
every validated history, an executor invites only where the permission was seen. -/
theorem plan_guards_agree_iff (enabled : AccountId → Bool) (st : TargetSnapshot)
    (account : AccountId) :
    ((∀ p, TargetState.planAction st.store account .invite = some p →
        planMigration (enabled account) st account = some p) ↔
      Admitted (enabled account) st account) ∧
      ∀ (ls : List PermissionLabel) (s : PermissionState),
        runLabels step { enabled := enabled } ls = some s →
          Along step Validated { enabled := enabled } ls →
            ∀ e ∈ s.started, e.action = .invite → (e.account, e.target) ∈ s.seen := by
  refine ⟨planMigration_iff, fun ls s hrun hvalid => ?_⟩
  have h : s.Permitted :=
    invariant_runLabels (fun _ _ _ hI hC hstep => hI.step hC hstep) (Permitted.new enabled) hvalid
      hrun
  exact h.started

/-! ## A target with and without the permission -/

/-- A channel is resolved, pre-checked and planned for, and its job is started. -/
def inviteTo (canInvite : Bool) : List PermissionLabel :=
  [.resolveTarget 1, .resolved 0 500 .channel 7 canInvite, .precheckTarget 1,
    .prechecked 0 [11] .complete, .plan 1 .invite, .create 0, .start 0 1]

/-- The condition can be tested where no job is started. -/
theorem validated_of_ne {s : PermissionState} {l : PermissionLabel}
    (hplan : ∀ a, l ≠ .plan a .invite) (hstart : ∀ id a, l ≠ .start id a ∧ l ≠ .resume id) :
    s.Validated l where
  plan := fun account h => absurd h (hplan account)
  start := fun id account h => by
    rcases h with h | h
    · exact absurd h (hstart id account).1
    · exact absurd h (hstart id account).2

/-- The channel shows `can_invite`, and the executor invites there. -/
theorem plan_guards_agree_invite :
    ∃ s, runLabels step { enabled := fun a => a = 1 } (inviteTo true) = some s ∧
      s.started = [⟨1, 7, .invite⟩] ∧
      ∀ e ∈ s.started, e.action = .invite → (e.account, e.target) ∈ s.seen := by
  refine ⟨_, rfl, rfl, (plan_guards_agree_iff (fun a => a = 1) {} 1).2 (inviteTo true) _ rfl ?_⟩
  refine ⟨validated_of_ne (by simp) (by simp), fun s₁ h₁ => ⟨validated_of_ne (by simp) (by simp),
    fun s₂ h₂ => ⟨validated_of_ne (by simp) (by simp), fun s₃ h₃ =>
      ⟨validated_of_ne (by simp) (by simp), fun s₄ h₄ => ⟨?_, fun s₅ h₅ =>
        ⟨validated_of_ne (by simp) (by simp), fun s₆ h₆ => ⟨?_, fun _ _ => trivial⟩⟩⟩⟩⟩⟩⟩
  all_goals
    obtain rfl := Option.some.inj h₁
    obtain rfl := Option.some.inj h₂
    obtain rfl := Option.some.inj h₃
    obtain rfl := Option.some.inj h₄
  · refine ⟨fun account haccount target htarget => ?_, fun id account h => by simp at h⟩
    obtain rfl := (PermissionLabel.plan.inj haccount).1
    obtain rfl := Option.some.inj htarget.1
    exact ⟨rfl, rfl⟩
  · obtain rfl := Option.some.inj h₅
    obtain rfl := Option.some.inj h₆
    refine ⟨fun account h => by simp at h, fun id account h job hjob hremove => ?_⟩
    rcases h with h | h
    · obtain ⟨rfl, rfl⟩ := PermissionLabel.start.inj h
      obtain rfl := Option.some.inj hjob
      exact absurd hremove (by simp)
    · exact absurd h (by simp)

/-- The channel does not show `can_invite`: `plan_migration` refuses, `plan_action` plans, and the
executor invites where the permission was never seen. -/
theorem invite_without_permission :
    ∃ s s', runLabels step { enabled := fun a => a = 1 } ((inviteTo false).take 4) = some s ∧
      (∃ p, TargetState.planAction s.st.store 1 .invite = some p ∧
        planMigration true s.st 1 = none) ∧
      runLabels step s ((inviteTo false).drop 4) = some s' ∧
      s'.started = [⟨1, 7, .invite⟩] ∧ (1, 7) ∉ s'.seen := by
  exact ⟨_, _, rfl, ⟨_, rfl, rfl⟩, rfl, rfl, by decide⟩

end PermissionState
end Runtime
end MigrationStudio
