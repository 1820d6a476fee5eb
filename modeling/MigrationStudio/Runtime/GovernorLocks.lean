import Mathlib.Data.Finset.Card
import Mathlib.Data.Fintype.Basic
import MigrationStudio.Core.Enums
import MigrationStudio.Foundations.WaitQueues

/-!
# `runtime/resource_governor.py`: the locks

The governor has a mutation lock for each account and one semaphore for the reads.  The loop of
`MigrationExecutor.run` and the calls of `GroupMembershipUtility` that join and leave a group are
inside the mutation lock of their account; the producer of a scan and a precheck are inside a read
slot.  All of them are `async with`, so a task leaves whether its body returns, raises or is
cancelled, and it may be cancelled while it waits as well.

* `Call.region`: what a call is inside of.
* `ResourceGovernor.step`: one call or one turn of the loop.
* `gates_of_step`: a step is a step of the one lock that its task is about.
* `exclusive_of_run`: who is inside together.
* `free_of_run`: nobody waits in vain.
* `not_overtaken_of_run`: who comes first.
-/

namespace MigrationStudio
namespace Runtime

open MigrationStudio.Core Foundations Foundations.WaitQueues

abbrev TaskId := ℕ

/-- What `async with` of the governor is about. -/
inductive Region where
  | mutation (account : AccountId)
  | read
  deriving DecidableEq, Repr

/-- The calls that go through the governor. -/
inductive Call where
  | run (account : AccountId)
  | join (account : AccountId)
  | leave (account : AccountId)
  | scan
  | precheck
  deriving DecidableEq, Repr

def Call.region : Call → Region
  | run account | join account | leave account => .mutation account
  | scan | precheck => .read

/-- `ResourceGovernor`, without its count of Performance Mode. -/
structure ResourceGovernor where
  mutationLocks : AccountId → Lock TaskId
  readSemaphore : Semaphore TaskId

namespace ResourceGovernor

/-- The permits of `_read_semaphore`. -/
def readPermits (maxReads : ℤ) : ℕ := (max 1 maxReads).toNat

/-- `__init__`; the dictionary of the locks makes one when it is asked for. -/
def init (maxReads : ℤ) : ResourceGovernor where
  mutationLocks := fun _ => Lock.free
  readSemaphore := Semaphore.free (readPermits maxReads)

/-- The lock or the semaphore of a region. -/
def gate (g : ResourceGovernor) : Region → Gate TaskId
  | .mutation account => .lock (g.mutationLocks account)
  | .read => .semaphore g.readSemaphore

section

variable (call : TaskId → Call)

/-- The region of the task that the operation is of. -/
def regionOf : Op TaskId → Region
  | .acquire t | .cancel t | .resume t | .release t => (call t).region

/-- One call or one turn of the loop, by or for a task. -/
def step (g : ResourceGovernor) (op : Op TaskId) : Option ResourceGovernor :=
  match regionOf call op with
  | .mutation account =>
      ((g.mutationLocks account).step op).map fun lock =>
        { g with mutationLocks := Function.update g.mutationLocks account lock }
  | .read => (g.readSemaphore.step op).map fun semaphore => { g with readSemaphore := semaphore }

/-- The task is inside its `async with`. -/
def Inside (g : ResourceGovernor) (t : TaskId) : Prop := t ∈ (g.gate (call t).region).holders

/-- The task waits to get inside. -/
def Waits (g : ResourceGovernor) (t : TaskId) : Prop := (g.gate (call t).region).Waits t

instance (g : ResourceGovernor) (t : TaskId) : Decidable (g.Inside call t) :=
  inferInstanceAs (Decidable (_ ∈ _))

instance (g : ResourceGovernor) (t : TaskId) : Decidable (g.Waits call t) :=
  inferInstanceAs (Decidable (Gate.Waits _ _))

/-- A task goes into the region in the step. -/
def entries (region : Region) (g : ResourceGovernor) (op : Op TaskId) : ℕ :=
  if regionOf call op = region then (g.gate region).entries op else 0

end

/-- The permits of a region. -/
def permits (maxReads : ℤ) : Region → ℕ
  | .mutation _ => 1
  | .read => readPermits maxReads

/-- Every lock and the semaphore keep their invariants. -/
def Good (maxReads : ℤ) (g : ResourceGovernor) : Prop :=
  ∀ region, (g.gate region).Good (permits maxReads region)

variable {call : TaskId → Call} {maxReads : ℤ} {g g' : ResourceGovernor} {op : Op TaskId}
  {ops : List (Op TaskId)} {t : TaskId}

/-- **A step is a step of one lock**, that of its task, and leaves the others. -/
theorem gates_of_step (h : g.step call op = some g') :
    (g.gate (regionOf call op)).step op = some (g'.gate (regionOf call op)) ∧
      ∀ region, region ≠ regionOf call op → g'.gate region = g.gate region := by
  unfold step at h
  cases hregion : regionOf call op with
  | mutation account =>
      rw [hregion] at h
      obtain ⟨lock, hlock, rfl⟩ := Option.map_eq_some_iff.mp h
      refine ⟨?_, fun region hne => ?_⟩
      · show ((g.mutationLocks account).step op).map Gate.lock =
          some (Gate.lock (Function.update g.mutationLocks account lock account))
        rw [hlock, Function.update_self]
        rfl
      · cases region with
        | mutation other =>
            have hother : other ≠ account := fun heq => hne (heq ▸ rfl)
            exact congrArg Gate.lock (Function.update_of_ne hother _ _)
        | read => rfl
  | read =>
      rw [hregion] at h
      obtain ⟨semaphore, hsemaphore, rfl⟩ := Option.map_eq_some_iff.mp h
      refine ⟨?_, fun region hne => ?_⟩
      · show (g.readSemaphore.step op).map Gate.semaphore = some (Gate.semaphore semaphore)
        rw [hsemaphore]
        rfl
      · cases region with
        | mutation other => rfl
        | read => exact absurd rfl hne

theorem readPermits_pos (maxReads : ℤ) : 0 < readPermits maxReads := by
  unfold readPermits
  omega

theorem good_init (maxReads : ℤ) : (init maxReads).Good maxReads := by
  intro region
  cases region with
  | mutation account => exact ⟨rfl, Lock.good_free⟩
  | read => exact ⟨readPermits_pos maxReads, Semaphore.good_free _⟩

theorem Good.step (hg : g.Good maxReads) (h : g.step call op = some g') : g'.Good maxReads := by
  obtain ⟨hown, hother⟩ := gates_of_step h
  intro region
  by_cases hregion : region = regionOf call op
  · subst hregion
    exact (hg _).step hown
  · rw [hother region hregion]
    exact hg region

/-- The invariants hold in every run. -/
theorem good_of_run (hrun : runLabels (step call) (init maxReads) ops = some g) :
    g.Good maxReads :=
  invariant_runLabels (C := fun _ _ => True) (fun _ _ _ hg _ h => Good.step hg h)
    (good_init maxReads) (along_of_forall_mem fun _ _ => trivial) hrun

/-! ## Who is inside together -/

/-- **Tasks that are inside together**: whatever the tasks do and wherever they are cancelled, no
two of them are inside the mutation lock of one account, be they executors or calls that join or
leave a group, and no more of them read than there are read slots. -/
theorem exclusive_of_run (hrun : runLabels (step call) (init maxReads) ops = some g) :
    (∀ account t t', (call t).region = .mutation account → (call t').region = .mutation account →
      g.Inside call t → g.Inside call t' → t = t') ∧
    ∀ ts : Finset TaskId, (∀ t ∈ ts, (call t).region = .read ∧ g.Inside call t) →
      ts.card ≤ readPermits maxReads := by
  have hgood := good_of_run hrun
  constructor
  · intro account t t' ht ht' hin hin'
    have hle := (hgood (.mutation account)).length_holders_le
    unfold Inside at hin hin'
    rw [ht] at hin
    rw [ht'] at hin'
    show t = t'
    have hone : (g.gate (.mutation account)).holders.length ≤ 1 := hle
    rcases hholders : (g.gate (.mutation account)).holders with - | ⟨u, - | ⟨v, rest⟩⟩
    · rw [hholders] at hin
      exact absurd hin List.not_mem_nil
    · rw [hholders] at hin hin'
      rw [List.mem_singleton.mp hin, List.mem_singleton.mp hin']
    · rw [hholders] at hone
      simp at hone
  · intro ts hts
    have hle := (hgood .read).length_holders_le
    have hsub : ts ⊆ (g.gate .read).holders.toFinset := by
      intro t ht
      obtain ⟨hregion, hin⟩ := hts t ht
      unfold Inside at hin
      rw [hregion] at hin
      exact List.mem_toFinset.mpr hin
    calc ts.card ≤ (g.gate .read).holders.toFinset.card := Finset.card_le_card hsub
      _ ≤ (g.gate .read).holders.length := List.toFinset_card_le _
      _ ≤ readPermits maxReads := hle

/-- An executor and two calls of one account, and a scan. -/
def crowd : TaskId → Call
  | 0 => .run 1
  | 1 => .join 1
  | 2 => .leave 1
  | _ => .scan

/-- The first to wait is cancelled when it has been woken already, and the next one goes in. -/
def crowded : ResourceGovernor :=
  (runLabels (step crowd) (init 3) [.acquire 0, .acquire 1, .acquire 2, .acquire 3, .release 0,
    .cancel 1, .resume 1, .resume 2]).get (by decide)

theorem exclusive_of_run_crowd : crowded.Inside crowd 2 ∧ crowded.Inside crowd 3 ∧
    ∀ t, (crowd t).region = .mutation 1 → crowded.Inside crowd t → t = 2 :=
  ⟨by decide, by decide, fun t ht hin =>
    (exclusive_of_run (Option.some_get _).symm).1 1 t 2 ht rfl hin (by decide)⟩

/-! ## Nobody waits in vain -/

/-- The future that the task awaits is done, so the loop will run the task. -/
def Scheduled (g : ResourceGovernor) : Prop :=
  ∃ region, ∃ w ∈ (g.gate region).waiters, w.wait ≠ .pending

/-- **No waiting task is forgotten**: when no task is inside and the loop has none to run, every
lock and every read slot is free, and nobody waits for one. -/
theorem free_of_run (hrun : runLabels (step call) (init maxReads) ops = some g)
    (hnobody : ∀ region, (g.gate region).holders = []) (hidle : ¬ g.Scheduled) :
    g = init maxReads := by
  have hgood := good_of_run hrun
  have hfree : ∀ region, (g.gate region).Free (permits maxReads region) := fun region =>
    (hgood region).free (hnobody region) fun w hw => by
      by_contra hdone
      exact hidle ⟨region, w, hw, hdone⟩
  obtain ⟨mutationLocks, readSemaphore⟩ := g
  have hlocks : mutationLocks = fun _ => Lock.free := by
    ext1 account
    exact hfree (.mutation account)
  have hreads : readSemaphore = Semaphore.free (readPermits maxReads) := hfree .read
  rw [hlocks, hreads]
  rfl

/-- Two scans with one slot; the second is cancelled when it has been woken. -/
def emptied : ResourceGovernor :=
  (runLabels (step crowd) (init 1) [.acquire 3, .acquire 4, .release 3, .cancel 4,
    .resume 4]).get (by decide)

theorem free_of_run_emptied : emptied = init 1 := by
  refine free_of_run (Option.some_get _).symm (fun region => ?_) ?_
  · cases region with
    | mutation account => rfl
    | read => rfl
  · rintro ⟨region, w, hw, -⟩
    cases region with
    | mutation account => exact absurd hw List.not_mem_nil
    | read => exact absurd hw List.not_mem_nil

/-! ## Who comes first -/

/-- **Who waits is not overtaken**: from any state that a run leads to, as long as a task waits, no
more tasks go into its region than stood in front of it. -/
theorem not_overtaken_of_run {before : List (Op TaskId)}
    (hbefore : runLabels (step call) (init maxReads) before = some g)
    (halong : Along (step call) (fun g _ => g.Waits call t) g ops)
    (hrun : runLabels (step call) g ops = some g') (hwaits : g'.Waits call t) :
    countAlong (step call) (entries call (call t).region) g ops +
      (g'.gate (call t).region).waiters.ahead t ≤ (g.gate (call t).region).waiters.ahead t := by
  refine countAlong_add_le (I := fun g => g.Good maxReads) (W := fun g => g.Waits call t)
    (m := fun g => (g.gate (call t).region).waiters.ahead t) (fun _ _ _ hg h => Good.step hg h)
    (fun g op g' hg ht h ht' => ?_) (good_of_run hbefore) halong hrun hwaits
  obtain ⟨hown, hother⟩ := gates_of_step h
  unfold entries
  by_cases hregion : regionOf call op = (call t).region
  · rw [hregion] at hown
    rw [if_pos hregion]
    exact (hg _).entries_add_ahead_le ht hown ht'
  · rw [if_neg hregion, hother _ (Ne.symm hregion)]
    omega

/-- Two calls wait behind an executor. -/
def queued : ResourceGovernor :=
  (runLabels (step crowd) (init 3) [.acquire 0, .acquire 1, .acquire 2]).get (by decide)

/-- The first of them has gone in. -/
def advanced : ResourceGovernor :=
  (runLabels (step crowd) queued [.release 0, .resume 1]).get (by decide)

theorem not_overtaken_of_run_queued :
    countAlong (step crowd) (entries crowd (.mutation 1)) queued [.release 0, .resume 1] = 1 ∧
    countAlong (step crowd) (entries crowd (.mutation 1)) queued [.release 0, .resume 1] +
      (advanced.gate (.mutation 1)).waiters.ahead 2 ≤ (queued.gate (.mutation 1)).waiters.ahead 2 :=
  ⟨by decide, not_overtaken_of_run (t := 2) (Option.some_get _).symm (by decide)
    (Option.some_get _).symm (by decide)⟩

end ResourceGovernor
end Runtime
end MigrationStudio
