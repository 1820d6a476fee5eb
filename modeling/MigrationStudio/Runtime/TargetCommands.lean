import MigrationStudio.Core.Enums
import MigrationStudio.Foundations.LabelledRuns

/-!
# The target of a migration: resolve, pre-check, plan

`StateStore` holds the target group, the account it was resolved with and the result of the last
pre-check.  `resolve_target` replaces the target and clears the pre-check when its network
operation completes; `precheck_target` takes a snapshot of the target, scans it for as long as it
takes and writes its result when the scan completes; `plan_action` reads all three at once.

The model interleaves the commands with the completions, which may come in any order: an
operation in flight is an entry of `resolving` or `prechecking`, and a completion names its
position there.  A `PrecheckResult` of the source holds ids and a coverage only; the model also
writes down which account and which group they were read from.

* `precheck_matches_target_iff`: the stored pre-check belongs to the stored target in every state
  of a run exactly when every scan of the run completes while its own target is still stored; and
  then every plan is built from the members of its own target.
* `precheck_of_other_group`: a run in which the target is replaced during the scan.
-/

namespace MigrationStudio
namespace Runtime

open MigrationStudio.Core Foundations

/-- `GroupContext.type`, as far as the commands look at it. -/
inductive GroupType where
  | chat | channel
  deriving DecidableEq, Repr

/-- `GroupContext`: the fields that the target commands read. -/
structure GroupContext where
  telegramId : ℤ
  type : GroupType
  localGroupId : Option GroupId
  deriving DecidableEq, Repr

/-- `PrecheckResult`, with the account and the group that `TargetPrecheck.run` was called with. -/
structure PrecheckResult where
  targetIds : List ℤ
  coverage : TargetCoverage
  account : AccountId
  group : GroupContext
  deriving DecidableEq, Repr

/-- The fields of `StateSnapshot` that describe the target. -/
structure StateStore where
  targetGroup : Option GroupContext := none
  targetAccountId : Option AccountId := none
  precheck : Option PrecheckResult := none
  migrationJobId : Option JobId := none
  deriving DecidableEq, Repr

/-- What `plan_action` hands to the planner. -/
structure Plan where
  account : AccountId
  action : Action
  targetGroupId : GroupId
  precheck : PrecheckResult
  deriving DecidableEq, Repr

/-- The store, the network operations in flight and the plans built so far. -/
structure TargetState where
  store : StateStore := {}
  resolving : List AccountId := []
  prechecking : List (AccountId × GroupContext) := []
  plans : List Plan := []
  deriving DecidableEq, Repr

/-- A command of the user, or the completion of a network operation in flight. -/
inductive TargetLabel where
  | resolveTarget (account : AccountId)
  | resolved (i : ℕ) (telegramId : ℤ) (type : GroupType) (localId : GroupId)
  | resolveFailed (i : ℕ)
  | precheckTarget (account : AccountId)
  | prechecked (i : ℕ) (targetIds : List ℤ) (coverage : TargetCoverage)
  | precheckFailed (i : ℕ)
  | plan (account : AccountId) (action : Action)
  deriving DecidableEq, Repr

namespace TargetState

/-- `done` of `resolve_target`: the resolved group, with its local id from `groups.submit_upsert`,
becomes the target, and what was computed for the old one is cleared. -/
def storeTarget (st : StateStore) (account : AccountId) (group : GroupContext) : StateStore :=
  { st with
    targetGroup := some group
    targetAccountId := some account
    precheck := none
    migrationJobId := none }

/-- The guards of `precheck_target` on a snapshot; the scan runs on the target they return. -/
def precheckGuard (st : StateStore) (account : AccountId) : Option GroupContext :=
  match st.targetGroup with
  | none => none
  | some target =>
      if target.localGroupId = none then none
      else if st.targetAccountId = some account then some target
      else none

/-- The guards of `plan_action` and of `create_remove_plan` on a snapshot. -/
def planAction (st : StateStore) (account : AccountId) (action : Action) : Option Plan :=
  match st.targetGroup, st.precheck with
  | some target, some pre =>
      match target.localGroupId with
      | none => none
      | some id =>
          if st.targetAccountId ≠ some account then none
          else if action = .invite ∧ target.type = .chat then none
          else if action = .remove ∧ pre.coverage = .unavailable then none
          else some ⟨account, action, id, pre⟩
  | _, _ => none

/-- One command or completion.  A command whose guard raises leaves the state as it is. -/
def step (enabled : AccountId → Bool) (s : TargetState) : TargetLabel → Option TargetState
  | .resolveTarget account =>
      if enabled account then some { s with resolving := s.resolving ++ [account] } else some s
  | .resolved i telegramId type localId =>
      s.resolving[i]?.map fun account =>
        { s with
          store := storeTarget s.store account ⟨telegramId, type, some localId⟩
          resolving := s.resolving.eraseIdx i }
  | .resolveFailed i =>
      s.resolving[i]?.map fun _ => { s with resolving := s.resolving.eraseIdx i }
  | .precheckTarget account =>
      if enabled account then
        match precheckGuard s.store account with
        | some target => some { s with prechecking := s.prechecking ++ [(account, target)] }
        | none => some s
      else some s
  | .prechecked i targetIds coverage =>
      s.prechecking[i]?.map fun op =>
        { s with
          store := { s.store with precheck := some ⟨targetIds, coverage, op.1, op.2⟩ }
          prechecking := s.prechecking.eraseIdx i }
  | .precheckFailed i =>
      s.prechecking[i]?.map fun _ => { s with prechecking := s.prechecking.eraseIdx i }
  | .plan account action =>
      match planAction s.store account action with
      | some p => some { s with plans := s.plans ++ [p] }
      | none => some s

/-- The group and the account are those of the stored target. -/
def IsTarget (st : StateStore) (account : AccountId) (group : GroupContext) : Prop :=
  st.targetAccountId = some account ∧
    ∃ target, st.targetGroup = some target ∧ target.localGroupId = group.localGroupId

/-- A stored pre-check result was computed for the stored target. -/
def Truthful (s : TargetState) : Prop :=
  ∀ r, s.store.precheck = some r → IsTarget s.store r.account r.group

/-- Every plan is for the group, and by the account, that its pre-check was read from. -/
def PlansTruthful (s : TargetState) : Prop :=
  ∀ p ∈ s.plans, p.precheck.group.localGroupId = some p.targetGroupId ∧
    p.precheck.account = p.account

/-- The condition on a step: a scan completes while its own target is the stored one. -/
def CompletesOnTarget (s : TargetState) : TargetLabel → Prop
  | .prechecked i _ _ => ∀ op ∈ s.prechecking[i]?, IsTarget s.store op.1 op.2
  | _ => True

/-! ## What one step does -/

variable {enabled : AccountId → Bool}

theorem planAction_eq_some {st : StateStore} {account : AccountId} {action : Action} {p : Plan}
    (h : planAction st account action = some p) :
    ∃ target, st.targetGroup = some target ∧ target.localGroupId = some p.targetGroupId ∧
      st.precheck = some p.precheck ∧ st.targetAccountId = some account ∧
      p.account = account := by
  rw [planAction] at h
  split at h
  · rename_i target pre htarget hpre
    split at h
    · exact absurd h (by simp)
    · rename_i id hid
      split_ifs at h with haccount
      obtain rfl := Option.some.inj h
      exact ⟨target, htarget, hid, hpre, not_not.mp haccount, rfl⟩
  · exact absurd h (by simp)

/-- A step other than the completion of a scan writes no pre-check result; it keeps the target, or
replaces it and clears the result. -/
theorem store_of_step {s s' : TargetState} {l : TargetLabel}
    (h : step enabled s l = some s')
    (hl : ∀ i ids c, l ≠ .prechecked i ids c) :
    s'.store = s.store ∨ s'.store.precheck = none := by
  cases l with
  | prechecked i ids c => exact absurd rfl (hl i ids c)
  | resolved i tid ty lid =>
      obtain ⟨account, -, rfl⟩ := Option.map_eq_some_iff.mp h
      exact Or.inr rfl
  | resolveFailed i =>
      obtain ⟨_, -, rfl⟩ := Option.map_eq_some_iff.mp h
      exact Or.inl rfl
  | precheckFailed i =>
      obtain ⟨_, -, rfl⟩ := Option.map_eq_some_iff.mp h
      exact Or.inl rfl
  | resolveTarget account =>
      rw [step] at h
      split_ifs at h <;> exact Or.inl (by rw [← Option.some.inj h])
  | precheckTarget account =>
      rw [step] at h
      split_ifs at h
      · split at h <;> exact Or.inl (by rw [← Option.some.inj h])
      · exact Or.inl (by rw [← Option.some.inj h])
  | plan account action =>
      rw [step] at h
      split at h <;> exact Or.inl (by rw [← Option.some.inj h])

theorem prechecked_eq_some {s s' : TargetState} {i : ℕ} {ids : List ℤ} {c : TargetCoverage}
    (h : step enabled s (.prechecked i ids c) = some s') :
    ∃ op, s.prechecking[i]? = some op ∧
      s'.store = { s.store with precheck := some ⟨ids, c, op.1, op.2⟩ } ∧
      s'.plans = s.plans := by
  obtain ⟨op, hop, rfl⟩ := Option.map_eq_some_iff.mp h
  exact ⟨op, hop, rfl, rfl⟩

/-- **One step.**  From a truthful state, the next state is truthful exactly when the step
completes no scan of another target. -/
theorem truthful_step_iff {s s' : TargetState} {l : TargetLabel}
    (h : step enabled s l = some s') (hs : Truthful s) :
    Truthful s' ↔ CompletesOnTarget s l := by
  by_cases hl : ∃ i ids c, l = .prechecked i ids c
  · obtain ⟨i, ids, c, rfl⟩ := hl
    obtain ⟨op, hop, hstore, -⟩ := prechecked_eq_some h
    constructor
    · intro ht op' hop'
      rw [hop, Option.mem_some_iff] at hop'
      have := ht ⟨ids, c, op.1, op.2⟩ (by rw [hstore])
      rw [hstore] at this
      exact hop' ▸ this
    · intro hc r hr
      rw [hstore] at hr ⊢
      obtain rfl := Option.some.inj hr
      exact hc op hop
  · have hcond : CompletesOnTarget s l := by
      cases l with
      | prechecked i ids c => exact absurd ⟨i, ids, c, rfl⟩ hl
      | _ => trivial
    refine iff_of_true (fun r hr => ?_) hcond
    rcases store_of_step h (fun i ids c he => hl ⟨i, ids, c, he⟩) with hstore | hnone
    · rw [hstore] at hr ⊢
      exact hs r hr
    · exact absurd (hr.symm.trans hnone) (by simp)

/-- From a truthful state the only plan that a step builds is for the target of its pre-check. -/
theorem plansTruthful_step {s s' : TargetState} {l : TargetLabel}
    (h : step enabled s l = some s') (hs : Truthful s) (hp : PlansTruthful s) :
    PlansTruthful s' := by
  cases l with
  | plan account action =>
      rw [step] at h
      split at h
      · rename_i p hplan
        obtain rfl := Option.some.inj h
        obtain ⟨target, htarget, hid, hpre, hacc, hp'⟩ := planAction_eq_some hplan
        intro q hq
        rcases List.mem_append.mp hq with hq | hq
        · exact hp q hq
        · obtain rfl := List.mem_singleton.mp hq
          obtain ⟨hra, target', htarget', hlocal⟩ := hs q.precheck hpre
          rw [htarget, Option.some.injEq] at htarget'
          subst htarget'
          exact ⟨by rw [← hlocal, hid], by
            rw [hacc, Option.some.injEq] at hra
            rw [hp', hra]⟩
      · exact Option.some.inj h ▸ hp
  | prechecked i ids c =>
      obtain ⟨_, -, -, hplans⟩ := prechecked_eq_some h
      rw [PlansTruthful, hplans]
      exact hp
  | resolved i tid ty lid =>
      obtain ⟨_, -, rfl⟩ := Option.map_eq_some_iff.mp h
      exact hp
  | resolveFailed i =>
      obtain ⟨_, -, rfl⟩ := Option.map_eq_some_iff.mp h
      exact hp
  | precheckFailed i =>
      obtain ⟨_, -, rfl⟩ := Option.map_eq_some_iff.mp h
      exact hp
  | resolveTarget account =>
      rw [step] at h
      split_ifs at h <;> exact Option.some.inj h ▸ hp
  | precheckTarget account =>
      rw [step] at h
      split_ifs at h
      · split at h <;> exact Option.some.inj h ▸ hp
      · exact Option.some.inj h ▸ hp

/-! ## Runs -/

theorem truthful_start : Truthful {} := fun r hr => absurd hr (by simp)

theorem plansTruthful_start : PlansTruthful {} := fun p hp => absurd hp (by simp)

/-- **The stored pre-check belongs to the stored target exactly as long as no scan completes
after its target was replaced.**  In such a run no plan is built from one group's members for
another group. -/
theorem precheck_matches_target_iff (enabled : AccountId → Bool) (ls : List TargetLabel)
    (s : TargetState) (h : runLabels (step enabled) {} ls = some s) :
    ((∀ before after t, ls = before ++ after → runLabels (step enabled) {} before = some t →
        Truthful t) ↔ Along (step enabled) CompletesOnTarget {} ls) ∧
      (Along (step enabled) CompletesOnTarget {} ls → PlansTruthful s) := by
  have hinv : ∀ ms t, Along (step enabled) CompletesOnTarget {} ms →
      runLabels (step enabled) {} ms = some t → Truthful t ∧ PlansTruthful t :=
    fun ms t hal hrun => invariant_runLabels (I := fun t => Truthful t ∧ PlansTruthful t)
      (fun s l s' hI hC hs =>
        ⟨(truthful_step_iff hs hI.1).mpr hC, plansTruthful_step hs hI.1 hI.2⟩)
      ⟨truthful_start, plansTruthful_start⟩ hal hrun
  refine ⟨⟨fun hall => ?_, fun hal before after t hls hrun => ?_⟩, fun hal => (hinv ls s hal h).2⟩
  · by_contra hnot
    -- the state after the first scan that completes on another target is not truthful
    obtain ⟨pre, l, post, t, t', rfl, hpre, hal, hbad, ht'⟩ := exists_first_failure h hnot
    have htt : Truthful t := (hinv pre t hal hpre).1
    have hrun' : runLabels (step enabled) {} (pre ++ [l]) = some t' :=
      runLabels_append_eq_some.mpr ⟨t, hpre, runLabels_cons_eq_some.mpr ⟨t', ht', rfl⟩⟩
    exact hbad ((truthful_step_iff ht' htt).mp (hall (pre ++ [l]) post t' (by simp) hrun'))
  · subst hls
    exact (hinv before t ((along_append hrun).mp hal).1 hrun).1

/-- The scan of group 1 completes after group 2 has become the target: the store then holds group
1's members as the pre-check of group 2, and a plan to remove members from group 2 is built from
them. -/
theorem precheck_of_other_group :
    ∃ s, runLabels (step fun _ => true) {}
        [.resolveTarget 1, .resolved 0 100 .channel 1, .precheckTarget 1, .resolveTarget 1,
          .resolved 0 200 .channel 2, .prechecked 0 [11, 12] .complete, .plan 1 .remove] =
      some s ∧ ¬ Truthful s ∧ ¬ PlansTruthful s := by
  refine ⟨_, rfl, fun h => ?_, fun h => ?_⟩
  · obtain ⟨-, target, htarget, hlocal⟩ := h ⟨[11, 12], .complete, 1, ⟨100, .channel, some 1⟩⟩ rfl
    obtain rfl := Option.some.inj htarget
    exact absurd hlocal (by decide)
  · exact absurd (h _ (List.mem_singleton.mpr rfl)).1 (by decide)

/-- The same scan, completed before the target is replaced. -/
theorem precheck_matches_target_fresh :
    ∃ s, runLabels (step fun _ => true) {}
        [.resolveTarget 1, .resolved 0 100 .channel 1, .precheckTarget 1,
          .prechecked 0 [11, 12] .complete, .plan 1 .remove] = some s ∧ PlansTruthful s := by
  refine ⟨_, rfl, (precheck_matches_target_iff (fun _ => true)
    [.resolveTarget 1, .resolved 0 100 .channel 1, .precheckTarget 1,
      .prechecked 0 [11, 12] .complete, .plan 1 .remove] _ rfl).2 ?_⟩
  refine ⟨trivial, fun s₁ h₁ => ⟨trivial, fun s₂ h₂ => ⟨trivial, fun s₃ h₃ => ⟨?_, fun s₄ h₄ =>
    ⟨trivial, fun _ _ => trivial⟩⟩⟩⟩⟩
  obtain rfl := Option.some.inj h₁
  obtain rfl := Option.some.inj h₂
  obtain rfl := Option.some.inj h₃
  intro op hop
  obtain rfl := Option.some.inj hop
  exact ⟨rfl, _, rfl, rfl⟩

end TargetState
end Runtime
end MigrationStudio
