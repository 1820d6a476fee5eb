import MigrationStudio.Accounts.StateColumns

/-!
# The rows that refer to an account

Jobs, cached peers and restrictions refer to accounts.  The deletion of an account is one
transaction: it is refused while a job of the account is not over; otherwise the jobs lose the
account and are kept, and its peers and restrictions are deleted with it (`ON DELETE CASCADE`).  An
insertion that refers to no account is refused by the foreign key.

The deletion trusts that a job that is over stays so.  `submit_set_state` looks at no state, and a
write that brings a job back after its account has been deleted leaves a running job without an
account.

* `AccountStore.apply`: the statements; `AccountStore.step`: one of them, or its failure.
* `Referred`: no row refers to an account that is not there.
* `Kept`: a job that is not over has the account that it was created for.
* `jobs_keep_account_iff`: the first holds in every run, the second exactly in those that bring no
  job back that has lost its account.
-/

namespace MigrationStudio
namespace Accounts

open MigrationStudio.Core Foundations

/-- A row of `jobs`, as far as its account is concerned.  `createdFor` is the account that it was
created with, which the table forgets. -/
structure JobReference where
  id : JobId
  jobType : JobType
  state : JobState
  accountId : Option AccountId
  createdFor : Option AccountId
  deriving DecidableEq, Repr

/-- `UPDATE jobs SET account_id=NULL WHERE account_id=?`. -/
def JobReference.release (j : JobReference) (a : AccountId) : JobReference :=
  if j.accountId = some a then { j with accountId := none } else j

/-- The accounts and the rows that refer to them; a cached peer is its key. -/
structure AccountStore where
  accounts : AccountTable := {}
  jobs : List JobReference := []
  jobSequence : ℕ := 0
  peers : List (AccountId × ℤ) := []
  restrictions : List Restriction := []

/-- The statements.  `persistPeers` are the upserts of the peer cache and of an ingest. -/
inductive StoreWrite where
  | account (w : AccountWrite)
  | createJob (jobType : JobType) (state : JobState) (accountId : Option AccountId)
  | setState (job : JobId) (state : JobState)
  | persistPeers (peers : List (AccountId × ℤ))
  | restrict (r : Restriction)

namespace AccountStore

/-- The account is in the table. -/
def HasAccount (s : AccountStore) (a : AccountId) : Prop := ∃ r ∈ s.accounts.rows, r.id = a

instance (s : AccountStore) (a : AccountId) : Decidable (s.HasAccount a) :=
  inferInstanceAs (Decidable (∃ r ∈ s.accounts.rows, r.id = a))

/-- `any(str(r['state']) not in _TERMINAL for r in rows)`. -/
def hasLiveJobs (s : AccountStore) (a : AccountId) : Bool :=
  s.jobs.any fun j => j.accountId = some a && !j.state.terminal

/-- `submit_delete`, with what the foreign keys delete. -/
def delete (s : AccountStore) (a : AccountId) : AccountStore :=
  { s with
    accounts := { s.accounts with rows := s.accounts.rows.filter fun r => r.id ≠ a }
    jobs := s.jobs.map fun j => j.release a
    peers := s.peers.filter fun p => p.1 ≠ a
    restrictions := s.restrictions.filter fun r => r.accountId ≠ a }

/-- A statement; `none` where it raises. -/
def apply (s : AccountStore) : StoreWrite → Option AccountStore
  | .account (.delete a _) => if s.hasLiveJobs a then none else some (s.delete a)
  | .account w => (s.accounts.step w).map fun accounts => { s with accounts := accounts }
  | .createJob jobType state accountId =>
      if ∀ a ∈ accountId, s.HasAccount a then
        some { s with
          jobs := s.jobs ++ [⟨s.jobSequence + 1, jobType, state, accountId, accountId⟩]
          jobSequence := s.jobSequence + 1 }
      else none
  | .setState job state =>
      some { s with
        jobs := s.jobs.map fun j => if j.id = job then { j with state := state } else j }
  | .persistPeers peers =>
      if ∀ p ∈ peers, s.HasAccount p.1 then
        some { s with peers := peers.foldl (fun l p => if p ∈ l then l else l ++ [p]) s.peers }
      else none
  | .restrict r =>
      if s.HasAccount r.accountId then
        some { s with restrictions := submitRestriction s.restrictions r }
      else none

/-- One statement, which may also fail by itself; what raises is rolled back. -/
def step (s : AccountStore) (e : StoreWrite × Bool) : Option AccountStore :=
  some (if e.2 then s else (s.apply e.1).getD s)

/-! ## The references -/

/-- No row refers to an account that is not there. -/
structure Referred (s : AccountStore) : Prop where
  jobs : ∀ j ∈ s.jobs, ∀ a, j.accountId = some a → s.HasAccount a
  peers : ∀ p ∈ s.peers, s.HasAccount p.1
  restrictions : ∀ r ∈ s.restrictions, s.HasAccount r.accountId

/-- A job that is not over has the account that it was created for. -/
def Kept (s : AccountStore) : Prop :=
  ∀ j ∈ s.jobs, j.state.terminal = false → j.accountId = j.createdFor

/-- The step brings no job back that has lost its account. -/
def LeavesOver (s : AccountStore) (e : StoreWrite × Bool) : Prop :=
  match e with
  | (.setState job state, false) =>
      state.terminal = false → ∀ j ∈ s.jobs, j.id = job → j.accountId = j.createdFor
  | _ => True

variable {s s' : AccountStore} {w : StoreWrite} {e : StoreWrite × Bool} {a : AccountId}

/-- **What a statement does**: it deletes an account that has no live jobs, writes to the accounts
without taking one away, or leaves them. -/
inductive Statement (s : AccountStore) : StoreWrite → AccountStore → Prop
  | delete {a : AccountId} {hasJobs : Bool} (hlive : s.hasLiveJobs a = false) :
      Statement s (.account (.delete a hasJobs)) (s.delete a)
  | account {w : AccountWrite} {accounts : AccountTable}
      (hkept : ∀ r ∈ s.accounts.rows, ∃ r' ∈ accounts.rows, r'.id = r.id) :
      Statement s (.account w) { s with accounts := accounts }
  | createJob {jobType : JobType} {state : JobState} {accountId : Option AccountId}
      (hthere : ∀ a ∈ accountId, s.HasAccount a) :
      Statement s (.createJob jobType state accountId) { s with
        jobs := s.jobs ++ [⟨s.jobSequence + 1, jobType, state, accountId, accountId⟩]
        jobSequence := s.jobSequence + 1 }
  | setState {job : JobId} {state : JobState} :
      Statement s (.setState job state) { s with
        jobs := s.jobs.map fun j => if j.id = job then { j with state := state } else j }
  | persistPeers {peers : List (AccountId × ℤ)} (hthere : ∀ p ∈ peers, s.HasAccount p.1) :
      Statement s (.persistPeers peers) { s with
        peers := peers.foldl (fun l p => if p ∈ l then l else l ++ [p]) s.peers }
  | restrict {r : Restriction} (hthere : s.HasAccount r.accountId) :
      Statement s (.restrict r) { s with
        restrictions := submitRestriction s.restrictions r }

/-- The statements on the accounts alone take no account away. -/
theorem exists_row_of_step {t t' : AccountTable} {w : AccountWrite} (h : t.step w = some t')
    (hdelete : ∀ a hasJobs, w ≠ .delete a hasJobs) :
    ∀ r ∈ t.rows, ∃ r' ∈ t'.rows, r'.id = r.id := by
  have hupdate : ∀ (id : AccountId) (f : AccountRow → AccountRow), (∀ r, (f r).id = r.id) →
      ∀ r ∈ t.rows, ∃ r' ∈ (t.update id f).rows, r'.id = r.id := by
    intro id f hf r hr
    refine ⟨_, List.mem_map_of_mem hr, ?_⟩
    split_ifs
    · exact hf r
    · rfl
  cases w with
  | create account =>
      obtain rfl := Option.some.inj h
      intro r hr
      refine ⟨r, ?_, rfl⟩
      unfold AccountTable.create
      split_ifs
      · exact hr
      · exact List.mem_append_left _ hr
  | setState id state error =>
      obtain rfl := Option.some.inj h
      exact hupdate id _ fun _ => rfl
  | updateIdentity id userId username displayName =>
      obtain rfl := Option.some.inj h
      exact hupdate id _ fun _ => rfl
  | enable id enabled =>
      obtain rfl := Option.some.inj h
      exact hupdate id _ fun _ => rfl
  | delete a hasJobs => exact absurd rfl (hdelete a hasJobs)

theorem statement_of_apply (h : s.apply w = some s') : Statement s w s' := by
  cases w with
  | account w =>
      cases w with
      | delete a hasJobs =>
        rw [apply] at h
        split_ifs at h with hlive
        exact Option.some.inj h ▸ .delete (Bool.eq_false_iff.mpr hlive)
      | create _ | setState _ _ _ | updateIdentity _ _ _ _ | enable _ _ =>
        rw [apply] at h
        · obtain ⟨accounts, haccounts, rfl⟩ := Option.map_eq_some_iff.mp h
          exact .account (exists_row_of_step haccounts (by simp))
        · exact nofun
  | createJob jobType state accountId =>
      rw [apply] at h
      split_ifs at h with hthere
      exact Option.some.inj h ▸ .createJob hthere
  | setState job state => exact Option.some.inj h ▸ .setState
  | persistPeers peers =>
      rw [apply] at h
      split_ifs at h with hthere
      exact Option.some.inj h ▸ .persistPeers hthere
  | restrict r =>
      rw [apply] at h
      split_ifs at h with hthere
      exact Option.some.inj h ▸ .restrict hthere

/-- A step fails and leaves everything, or it is a statement. -/
theorem step_cases (h : s.step e = some s') :
    (s' = s ∧ (e.2 = true ∨ s.apply e.1 = none)) ∨ (e.2 = false ∧ Statement s e.1 s') := by
  obtain ⟨w, fails⟩ := e
  obtain rfl := Option.some.inj h
  cases fails with
  | true => exact Or.inl ⟨rfl, Or.inl rfl⟩
  | false =>
      dsimp only
      rw [if_neg Bool.false_ne_true]
      cases hw : s.apply w with
      | none => exact Or.inl ⟨rfl, Or.inr rfl⟩
      | some u => exact Or.inr ⟨rfl, statement_of_apply hw⟩

theorem HasAccount.mono (h : ∀ r ∈ s.accounts.rows, ∃ r' ∈ s'.accounts.rows, r'.id = r.id)
    (ha : s.HasAccount a) : s'.HasAccount a := by
  obtain ⟨r, hr, rfl⟩ := ha
  exact h r hr

theorem HasAccount.delete {a' : AccountId} (ha : s.HasAccount a) (hne : a ≠ a') :
    (s.delete a').HasAccount a := by
  obtain ⟨r, hr, rfl⟩ := ha
  exact ⟨r, List.mem_filter.mpr ⟨hr, decide_eq_true hne⟩, rfl⟩

theorem mem_foldl_insert {l l' : List (AccountId × ℤ)} {p : AccountId × ℤ}
    (h : p ∈ l'.foldl (fun l p => if p ∈ l then l else l ++ [p]) l) : p ∈ l ∨ p ∈ l' := by
  induction l' generalizing l with
  | nil => exact Or.inl h
  | cons q l' ih =>
      rcases ih h with hmem | hmem
      · dsimp only at hmem
        split_ifs at hmem
        · exact Or.inl hmem
        · rcases List.mem_append.mp hmem with hmem | hmem
          · exact Or.inl hmem
          · exact Or.inr (List.mem_singleton.mp hmem ▸ List.mem_cons_self)
      · exact Or.inr (List.mem_cons_of_mem q hmem)

theorem mem_submitRestriction {rows : List Restriction} {r q : Restriction}
    (h : q ∈ submitRestriction rows r) : q ∈ rows ∨ q = r := by
  unfold submitRestriction at h
  split_ifs at h
  · obtain ⟨q', hq', rfl⟩ := List.mem_map.mp h
    split_ifs
    · exact Or.inr rfl
    · exact Or.inl hq'
  · rcases List.mem_append.mp h with h | h
    · exact Or.inl h
    · exact Or.inr (List.mem_singleton.mp h)

/-- **A statement leaves no reference behind.** -/
theorem Referred.statement (h : s.Referred) (hw : Statement s w s') : s'.Referred := by
  cases hw with
  | @delete a hasJobs hlive =>
    refine ⟨fun j hj b hb => ?_, fun p hp => ?_, fun r hr => ?_⟩
    · obtain ⟨i, hi, rfl⟩ := List.mem_map.mp hj
      unfold JobReference.release at hb
      split_ifs at hb with ha
      refine (h.jobs i hi b hb).delete ?_
      rintro rfl
      exact ha hb
    · obtain ⟨hmem, hne⟩ := List.mem_filter.mp hp
      exact (h.peers p hmem).delete (of_decide_eq_true hne)
    · obtain ⟨hmem, hne⟩ := List.mem_filter.mp hr
      exact (h.restrictions r hmem).delete (of_decide_eq_true hne)
  | account hkept =>
    exact ⟨fun j hj b hb => (h.jobs j hj b hb).mono hkept, fun p hp => (h.peers p hp).mono hkept,
      fun r hr => (h.restrictions r hr).mono hkept⟩
  | createJob hthere =>
    refine ⟨fun j hj b hb => ?_, h.peers, h.restrictions⟩
    rcases List.mem_append.mp hj with hj | hj
    · exact h.jobs j hj b hb
    · obtain rfl := List.mem_singleton.mp hj
      exact hthere b hb
  | setState =>
    refine ⟨fun j hj b hb => ?_, h.peers, h.restrictions⟩
    obtain ⟨i, hi, rfl⟩ := List.mem_map.mp hj
    refine h.jobs i hi b ?_
    split_ifs at hb
    · exact hb
    · exact hb
  | persistPeers hthere =>
    refine ⟨h.jobs, fun p hp => ?_, h.restrictions⟩
    rcases mem_foldl_insert hp with hp | hp
    · exact h.peers p hp
    · exact hthere p hp
  | restrict hthere =>
    refine ⟨h.jobs, h.peers, fun r hr => ?_⟩
    rcases mem_submitRestriction hr with hr | rfl
    · exact h.restrictions r hr
    · exact hthere

theorem Referred.step (h : s.Referred) (hstep : s.step e = some s') : s'.Referred := by
  rcases step_cases hstep with ⟨rfl, -⟩ | ⟨-, hw⟩
  · exact h
  · exact h.statement hw

/-! ## The accounts of the jobs -/

/-- A job keeps its account when one without live jobs is deleted, unless it is over. -/
theorem release_eq_self {j : JobReference} (hlive : s.hasLiveJobs a = false) (hj : j ∈ s.jobs)
    (hstate : j.state.terminal = false) : j.release a = j := by
  refine if_neg fun ha => ?_
  have hnot := List.any_eq_false.mp hlive j hj
  rw [decide_eq_true ha, hstate] at hnot
  exact hnot rfl

theorem state_release (j : JobReference) (a : AccountId) :
    (j.release a).state = j.state := by
  unfold JobReference.release
  split_ifs
  · rfl
  · rfl

/-- **One step** keeps the accounts of the jobs exactly when it brings none back without. -/
theorem kept_step_iff (h : s.Kept) (hstep : s.step e = some s') : s'.Kept ↔ s.LeavesOver e := by
  obtain ⟨w, fails⟩ := e
  rcases step_cases hstep with ⟨rfl, hfails⟩ | ⟨hfails, hw⟩
  · refine iff_of_true h ?_
    rcases hfails with hfails | hraises
    · obtain rfl : fails = true := hfails
      cases w with
      | account _ | createJob _ _ _ | setState _ _ | persistPeers _ | restrict _ => trivial
    · cases w with
      | setState job state => exact absurd hraises nofun
      | account _ | createJob _ _ _ | persistPeers _ | restrict _ => trivial
  · obtain rfl : fails = false := hfails
    cases hw with
    | @delete a hasJobs hlive =>
      refine iff_of_true (fun j hj hstate => ?_) trivial
      obtain ⟨i, hi, rfl⟩ := List.mem_map.mp hj
      rw [state_release] at hstate
      rw [release_eq_self hlive hi hstate]
      exact h i hi hstate
    | account hkept => exact iff_of_true h trivial
    | createJob hthere =>
      refine iff_of_true (fun j hj hstate => ?_) trivial
      rcases List.mem_append.mp hj with hj | hj
      · exact h j hj hstate
      · obtain rfl := List.mem_singleton.mp hj
        rfl
    | @setState job state =>
      constructor
      · intro h' hstate j hj hid
        have hj' := h' _ (List.mem_map_of_mem hj)
        rw [if_pos hid] at hj'
        exact hj' hstate
      · intro hover j hj hstate
        obtain ⟨i, hi, rfl⟩ := List.mem_map.mp hj
        split_ifs at hstate ⊢ with hid
        · exact hover hstate i hi hid
        · exact h i hi hstate
    | persistPeers hthere => exact iff_of_true h trivial
    | restrict hthere => exact iff_of_true h trivial

/-- **The references over whole runs**: no row ever refers to an account that is not there; and the
jobs that are not over have the accounts that they were created for, in every state of the run,
exactly if no job is brought back that has lost its account. -/
theorem jobs_keep_account_iff {es : List (StoreWrite × Bool)}
    (hrun : runLabels step {} es = some s) :
    (∀ pre post u, es = pre ++ post → runLabels step {} pre = some u → u.Referred) ∧
      ((∀ pre post u, es = pre ++ post → runLabels step {} pre = some u → u.Kept) ↔
        Along step LeavesOver {} es) := by
  constructor
  · rintro pre post u rfl hpre
    refine invariant_runLabels (C := fun _ _ => True) (I := Referred)
      (fun _ _ _ h _ hstep => h.step hstep) ?_ (along_of_forall_mem fun _ _ => trivial) hpre
    exact ⟨nofun, nofun, nofun⟩
  · exact forall_prefix_iff_along (fun _ _ _ h hstep => kept_step_iff h hstep) nofun hrun

/-- A job of an account is over, the account is deleted, and the job is set to RUNNING. -/
theorem jobs_keep_account_iff_revived :
    ∃ s, runLabels step {}
        [(.account (.create { phone := "+10000000", sessionPath := "s" }), false),
          (.createJob .scan .running (some 1), false), (.setState 1 .completed, false),
          (.account (.delete 1 false), false), (.setState 1 .running, false)] = some s ∧
      ¬ s.Kept ∧ s.Referred := by
  obtain ⟨s, hs⟩ : ∃ s, runLabels step {}
      [(.account (.create { phone := "+10000000", sessionPath := "s" }), false),
        (.createJob .scan .running (some 1), false), (.setState 1 .completed, false),
        (.account (.delete 1 false), false), (.setState 1 .running, false)] = some s := ⟨_, rfl⟩
  refine ⟨s, hs, ?_, (jobs_keep_account_iff hs).1 _ [] s (List.append_nil _).symm hs⟩
  obtain rfl := Option.some.inj hs
  intro h
  exact absurd (h _ (List.mem_singleton_self _) rfl) nofun

end AccountStore
end Accounts
end MigrationStudio
