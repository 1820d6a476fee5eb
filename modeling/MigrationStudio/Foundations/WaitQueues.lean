import Mathlib.Data.List.Basic
import Mathlib.Data.List.Count
import Mathlib.Data.List.Nodup
import Mathlib.Tactic.Common
import MigrationStudio.Foundations.LabelledRuns

/-!
# The lock and the semaphore of an event loop

`asyncio.Lock` and `asyncio.Semaphore` of Python keep a queue of the tasks that wait.  Each of them
awaits a future; who leaves sets the result of a future in the queue, and its task goes on at some
later turn of the loop.  In between other tasks run: they may ask for the lock, leave it, or cancel
a task that waits, also one whose future has its result already.  The lock stays free until the
woken task runs, while the semaphore takes the permit for it at once.

Nothing is said about the order in which the loop runs the tasks that can go on.

* `Wait`: what has become of the future of a task that waits.
* `Lock.step`, `Semaphore.step`: one call or one turn of the loop.
* `Lock.Good`, `Semaphore.Good`: their invariants; `Lock.Good.step`, `Semaphore.Good.step`.
* `Gate`: either of them.  `Gate.Good.length_holders_le`: no more are inside than there are permits;
  `Gate.Good.free`: nobody waits in vain; `Gate.Good.entries_add_ahead_le`: a task that waits is
  overtaken by nobody who comes after it.
-/

namespace MigrationStudio
namespace Foundations
namespace WaitQueues

variable {τ : Type*} [DecidableEq τ]

/-! ## The queue -/

/-- The future that a task awaits: it is not done, has its result, or is cancelled; or it has its
result and the task has been cancelled since. -/
inductive Wait where
  | pending | woken | cancelled | wokenCancelled
  deriving DecidableEq, Repr

namespace Wait

/-- The future has a result. -/
def granted : Wait → Bool
  | woken | wokenCancelled => true
  | pending | cancelled => false

/-- `task.cancel()`. -/
def cancel : Wait → Wait
  | pending | cancelled => cancelled
  | woken | wokenCancelled => wokenCancelled

@[simp] theorem granted_cancel (w : Wait) : w.cancel.granted = w.granted := by cases w <;> rfl

theorem cancel_ne_pending (w : Wait) : w.cancel ≠ pending := by cases w <;> decide

end Wait

structure Waiter (τ : Type*) where
  task : τ
  wait : Wait
  deriving DecidableEq

/-- What a task does, or what is done to it: it calls `acquire`, is cancelled while it waits, goes
on behind its future, or calls `release`. -/
inductive Op (τ : Type*) where
  | acquire (t : τ)
  | cancel (t : τ)
  | resume (t : τ)
  | release (t : τ)

abbrev Queue (τ : Type*) := List (Waiter τ)

namespace Queue

def tasks (q : Queue τ) : List τ := q.map Waiter.task

/-- What the task waits for. -/
def waitOf (q : Queue τ) (t : τ) : Option Wait := (q.find? fun w => w.task = t).map Waiter.wait

/-- The task is cancelled. -/
def cancel (q : Queue τ) (t : τ) : Queue τ :=
  q.map fun w => if w.task = t then { w with wait := w.wait.cancel } else w

/-- `self._waiters.remove(fut)`. -/
def remove (q : Queue τ) (t : τ) : Queue τ := q.filter fun w => w.task ≠ t

/-- `_wake_up_first`: the first in the queue, unless its future is done. -/
def wakeUpFirst : Queue τ → Queue τ
  | [] => []
  | w :: q => if w.wait = .pending then ⟨w.task, .woken⟩ :: q else w :: q

/-- `_wake_up_next` as often as there are permits: the first of those whose futures are not done,
and the permits that are left. -/
def wakeUpNext : ℕ → Queue τ → ℕ × Queue τ
  | n, [] => (n, [])
  | 0, q => (0, q)
  | n + 1, w :: q =>
      if w.wait = .pending then ((wakeUpNext n q).1, ⟨w.task, .woken⟩ :: (wakeUpNext n q).2)
      else ((wakeUpNext (n + 1) q).1, w :: (wakeUpNext (n + 1) q).2)

/-- The futures with a result. -/
def granted (q : Queue τ) : ℕ := q.countP fun w => w.wait.granted

/-- How many stand in front of a task. -/
def ahead (q : Queue τ) (t : τ) : ℕ := q.tasks.idxOf t

variable {q : Queue τ} {t t' : τ} {n : ℕ} {wait : Wait}

theorem exists_waiter (h : q.waitOf t = some wait) : ⟨t, wait⟩ ∈ q := by
  obtain ⟨w, hfind, rfl⟩ := Option.map_eq_some_iff.mp h
  have htask : w.task = t := by simpa using List.find?_some hfind
  exact htask ▸ List.mem_of_find?_eq_some hfind

theorem mem_tasks (h : q.waitOf t = some wait) : t ∈ q.tasks :=
  List.mem_map_of_mem (exists_waiter h)

omit [DecidableEq τ] in
/-- A task waits once. -/
theorem eq_of_nodup (h : q.tasks.Nodup) {w w' : Waiter τ} (hw : w ∈ q) (hw' : w' ∈ q)
    (htask : w.task = w'.task) : w = w' :=
  List.inj_on_of_nodup_map h hw hw' htask

@[simp] theorem tasks_cancel (q : Queue τ) (t : τ) : (q.cancel t).tasks = q.tasks := by
  unfold tasks cancel
  rw [List.map_map]
  refine List.map_congr_left fun w _ => ?_
  show (if w.task = t then { w with wait := w.wait.cancel } else w).task = w.task
  split_ifs
  · rfl
  · rfl

@[simp] theorem tasks_remove (q : Queue τ) (t : τ) :
    (q.remove t).tasks = q.tasks.filter fun t' => t' ≠ t := by
  unfold tasks remove
  rw [List.filter_map]
  rfl

omit [DecidableEq τ] in
@[simp] theorem tasks_wakeUpFirst (q : Queue τ) : q.wakeUpFirst.tasks = q.tasks := by
  cases q with
  | nil => rfl
  | cons w q =>
      rw [wakeUpFirst]
      split_ifs
      · rfl
      · rfl

omit [DecidableEq τ] in
@[simp] theorem tasks_wakeUpNext (n : ℕ) (q : Queue τ) : (wakeUpNext n q).2.tasks = q.tasks := by
  induction q generalizing n with
  | nil => cases n <;> rfl
  | cons w q ih =>
      cases n with
      | zero => rfl
      | succ n =>
          rw [wakeUpNext]
          split_ifs
          · exact congrArg (w.task :: ·) (ih n)
          · exact congrArg (w.task :: ·) (ih (n + 1))

omit [DecidableEq τ] in
theorem granted_cons (w : Waiter τ) (q : Queue τ) :
    granted (w :: q) = granted q + if w.wait.granted = true then 1 else 0 :=
  List.countP_cons

omit [DecidableEq τ] in
theorem granted_pos_iff : 0 < q.granted ↔ ∃ w ∈ q, w.wait.granted = true := List.countP_pos_iff

@[simp] theorem granted_cancel (q : Queue τ) (t : τ) : (q.cancel t).granted = q.granted := by
  unfold granted cancel
  rw [List.countP_map]
  refine List.countP_congr fun w _ => ?_
  show ((if w.task = t then { w with wait := w.wait.cancel } else w).wait.granted = true ↔ _)
  split_ifs
  · rw [Wait.granted_cancel]
  · exact Iff.rfl

/-- The futures with a result, but for the one of the task. -/
theorem granted_remove (hq : q.tasks.Nodup) (h : q.waitOf t = some wait) :
    q.granted = (q.remove t).granted + if wait.granted = true then 1 else 0 := by
  have hmem := exists_waiter h
  obtain ⟨front, back, rfl⟩ := List.append_of_mem hmem
  have hnot : ∀ w ∈ front ++ back, w.task ≠ t := by
    intro w hw htask
    have hperm : (front ++ ⟨t, wait⟩ :: back).Perm (⟨t, wait⟩ :: (front ++ back)) :=
      List.perm_middle
    have hnodup := (hperm.map Waiter.task).nodup_iff.mp hq
    have hin : w.task ∈ (front ++ back).map Waiter.task := List.mem_map_of_mem hw
    rw [htask] at hin
    exact (List.nodup_cons.mp hnodup).1 hin
  have hself : ∀ l : Queue τ, (∀ w ∈ l, w.task ≠ t) → l.remove t = l := fun l hl =>
    List.filter_eq_self.mpr fun w hw => decide_eq_true (hl w hw)
  have hremove : remove (front ++ ⟨t, wait⟩ :: back) t = front ++ back := by
    have hf := hself front fun w hw => hnot w (List.mem_append_left _ hw)
    have hb := hself back fun w hw => hnot w (List.mem_append_right _ hw)
    unfold remove at hf hb ⊢
    rw [List.filter_append, List.filter_cons_of_neg (by simp), hf, hb]
  rw [hremove]
  unfold granted
  rw [List.countP_append, List.countP_append, List.countP_cons]
  dsimp only
  omega

/-! ## Who stands in front of whom -/

theorem ahead_append (h : t ∈ q.tasks) (w : Waiter τ) : ahead (q ++ [w]) t = q.ahead t := by
  unfold ahead tasks
  rw [List.map_append]
  exact List.idxOf_append_of_mem h

theorem idxOf_filter_le (l : List τ) (h : t' ≠ t) :
    (l.filter fun u => u ≠ t').idxOf t ≤ l.idxOf t := by
  induction l with
  | nil => exact Nat.le_refl _
  | cons u l ih =>
      by_cases hu : u = t'
      · subst hu
        rw [List.filter_cons_of_neg (by simp), List.idxOf_cons_ne _ h]
        omega
      · rw [List.filter_cons_of_pos (by simpa using hu)]
        by_cases ht : u = t
        · subst ht
          rw [List.idxOf_cons_self]
          exact Nat.zero_le _
        · rw [List.idxOf_cons_ne _ ht, List.idxOf_cons_ne _ ht]
          omega

theorem idxOf_filter_lt {l : List τ} (h : l.idxOf t' < l.idxOf t) :
    (l.filter fun u => u ≠ t').idxOf t + 1 ≤ l.idxOf t := by
  induction l with
  | nil => exact absurd h (Nat.lt_irrefl _)
  | cons u l ih =>
      have ht : u ≠ t := by
        rintro rfl
        rw [List.idxOf_cons_self] at h
        exact absurd h (Nat.not_lt_zero _)
      rw [List.idxOf_cons_ne _ ht] at h ⊢
      by_cases hu : u = t'
      · subst hu
        rw [List.filter_cons_of_neg (by simp)]
        have hle := idxOf_filter_le l ht
        omega
      · rw [List.idxOf_cons_ne _ hu] at h
        rw [List.filter_cons_of_pos (by simpa using hu), List.idxOf_cons_ne _ ht]
        have hrest := ih (by omega)
        omega

theorem ahead_remove_le (q : Queue τ) (h : t' ≠ t) : (q.remove t').ahead t ≤ q.ahead t := by
  unfold ahead
  rw [tasks_remove]
  exact idxOf_filter_le q.tasks h

theorem ahead_remove_lt (h : q.ahead t' < q.ahead t) : (q.remove t').ahead t + 1 ≤ q.ahead t := by
  unfold ahead at h ⊢
  rw [tasks_remove]
  exact idxOf_filter_lt h

end Queue

/-! ## The lock -/

/-- `asyncio.Lock`, and the tasks that are inside. -/
structure Lock (τ : Type*) where
  locked : Bool
  waiters : Queue τ
  holders : List τ

namespace Lock

/-- A lock that nobody has asked for. -/
def free : Lock τ := ⟨false, [], []⟩

/-- The test of `acquire` that lets a task in at once. -/
def isOpen (s : Lock τ) : Bool := !s.locked && s.waiters.all fun w => w.wait = .cancelled

/-- One call or one turn of the loop. -/
def step (s : Lock τ) : Op τ → Option (Lock τ)
  | .acquire t =>
      if t ∈ s.holders ∨ t ∈ s.waiters.tasks then none
      else if s.isOpen then some { s with locked := true, holders := t :: s.holders }
      else some { s with waiters := s.waiters ++ [⟨t, .pending⟩] }
  | .cancel t => (s.waiters.waitOf t).map fun _ => { s with waiters := s.waiters.cancel t }
  | .resume t =>
      match s.waiters.waitOf t with
      | none | some .pending => none
      | some .woken =>
          some { locked := true, waiters := s.waiters.remove t, holders := t :: s.holders }
      | some .cancelled | some .wokenCancelled =>
          some
            { s with
              waiters :=
                if s.locked then s.waiters.remove t else (s.waiters.remove t).wakeUpFirst }
  | .release t =>
      if t ∈ s.holders then
        some
          { locked := false
            waiters := s.waiters.wakeUpFirst
            holders := s.holders.erase t }
      else none

/-- One task is inside a lock that is locked and none is inside one that is not.  Only the first in
the queue can have been woken, and it has been told something when the lock is free. -/
structure Good (s : Lock τ) : Prop where
  holders : s.holders.length = if s.locked = true then 1 else 0
  nodup : s.waiters.tasks.Nodup
  behind : ∀ w ∈ s.waiters.tail, w.wait.granted = false
  inside : s.locked = true → ∀ w ∈ s.waiters, w.wait.granted = false
  told : s.locked = false → ∀ w ∈ s.waiters.head?, w.wait ≠ .pending

variable {s s' : Lock τ} {t : τ} {op : Op τ}

omit [DecidableEq τ] in
theorem good_free : (free : Lock τ).Good :=
  ⟨rfl, List.nodup_nil, fun _ h => absurd h List.not_mem_nil, fun h => absurd h Bool.false_ne_true,
    fun _ _ h => absurd h (by simp [free])⟩

/-- **What a step does**: a task goes in at once or queues, is cancelled, goes in behind its future,
goes away without the lock, or leaves it. -/
inductive Turn (s : Lock τ) : Op τ → Lock τ → Prop
  | enters (t : τ) (hnew : t ∉ s.waiters.tasks) (hopen : s.isOpen = true) :
      Turn s (.acquire t) { s with locked := true, holders := t :: s.holders }
  | queues (t : τ) (hnew : t ∉ s.waiters.tasks) (hopen : s.isOpen = false) :
      Turn s (.acquire t) { s with waiters := s.waiters ++ [⟨t, .pending⟩] }
  | cancelled (t : τ) : Turn s (.cancel t) { s with waiters := s.waiters.cancel t }
  | goesIn (t : τ) (hwait : s.waiters.waitOf t = some .woken) :
      Turn s (.resume t)
        { locked := true, waiters := s.waiters.remove t, holders := t :: s.holders }
  | goesAway (t : τ) (wait : Wait) (hwait : s.waiters.waitOf t = some wait)
      (hcancelled : wait = .cancelled ∨ wait = .wokenCancelled) :
      Turn s (.resume t)
        { s with
          waiters := if s.locked then s.waiters.remove t else (s.waiters.remove t).wakeUpFirst }
  | leaves (t : τ) (hin : t ∈ s.holders) :
      Turn s (.release t)
        { locked := false, waiters := s.waiters.wakeUpFirst, holders := s.holders.erase t }

theorem turn_of_step (h : s.step op = some s') : s.Turn op s' := by
  cases op with
  | acquire t =>
      rw [step] at h
      split_ifs at h with hnew hopen
      · obtain rfl := Option.some.inj h
        exact .enters t (not_or.mp hnew).2 hopen
      · obtain rfl := Option.some.inj h
        exact .queues t (not_or.mp hnew).2 (by simpa using hopen)
  | cancel t =>
      obtain ⟨wait, -, rfl⟩ := Option.map_eq_some_iff.mp h
      exact .cancelled t
  | resume t =>
      rw [step] at h
      cases hwait : s.waiters.waitOf t with
      | none =>
          rw [hwait] at h
          cases h
      | some wait =>
          rw [hwait] at h
          cases wait with
          | pending => cases h
          | woken =>
              obtain rfl := Option.some.inj h
              exact .goesIn t hwait
          | cancelled =>
              obtain rfl := Option.some.inj h
              exact .goesAway t _ hwait (Or.inl rfl)
          | wokenCancelled =>
              obtain rfl := Option.some.inj h
              exact .goesAway t _ hwait (Or.inr rfl)
  | release t =>
      rw [step] at h
      split_ifs at h with hin
      obtain rfl := Option.some.inj h
      exact .leaves t hin

/-! ### The invariant -/

omit [DecidableEq τ] in
/-- Who has been woken is the first in the queue. -/
theorem Good.head_of_granted (hs : s.Good) {w : Waiter τ} (hw : w ∈ s.waiters)
    (hgranted : w.wait.granted = true) : s.waiters.head? = some w := by
  have hbehind := hs.behind
  cases hq : s.waiters with
  | nil => rw [hq] at hw; exact absurd hw List.not_mem_nil
  | cons w' q =>
      rw [hq] at hw hbehind
      rcases List.mem_cons.mp hw with rfl | hw
      · rfl
      · have hfalse := hbehind w hw
        rw [hgranted] at hfalse
        cases hfalse

omit [DecidableEq τ] in
theorem forall_tail_wakeUpFirst {q : Queue τ} (h : ∀ w ∈ q.tail, w.wait.granted = false) :
    ∀ w ∈ q.wakeUpFirst.tail, w.wait.granted = false := by
  cases q with
  | nil => exact h
  | cons w q =>
      rw [Queue.wakeUpFirst]
      split_ifs
      · exact h
      · exact h

omit [DecidableEq τ] in
theorem head_wakeUpFirst (q : Queue τ) : ∀ w ∈ q.wakeUpFirst.head?, w.wait ≠ .pending := by
  cases q with
  | nil => exact fun w hw => absurd hw (by simp [Queue.wakeUpFirst])
  | cons w q =>
      rw [Queue.wakeUpFirst]
      split_ifs with hpending
      · intro w' hw'
        obtain rfl := Option.some.inj hw'
        exact nofun
      · intro w' hw'
        obtain rfl := Option.some.inj hw'
        exact hpending

/-- Whoever is behind the first is still behind it or has become the first. -/
theorem forall_tail_remove {q : Queue τ} (h : ∀ w ∈ q.tail, w.wait.granted = false) (t : τ) :
    ∀ w ∈ (q.remove t).tail, w.wait.granted = false := by
  cases q with
  | nil => exact h
  | cons w q =>
      intro w' hw'
      refine h w' ?_
      unfold Queue.remove at hw'
      by_cases hw : w.task = t
      · rw [List.filter_cons_of_neg (by simpa using hw)] at hw'
        exact List.mem_of_mem_filter (List.mem_of_mem_tail hw')
      · rw [List.filter_cons_of_pos (by simpa using hw)] at hw'
        exact List.mem_of_mem_filter hw'

/-- **One step keeps the invariant.** -/
theorem Good.step (hs : s.Good) (h : s.step op = some s') : s'.Good := by
  have hnodupRemove : ∀ t, (s.waiters.remove t).tasks.Nodup := fun t => by
    rw [Queue.tasks_remove]
    exact hs.nodup.filter _
  cases turn_of_step h with
  | enters t hnew hopen =>
      obtain ⟨hlocked, hall⟩ := Bool.and_eq_true_iff.mp hopen
      have hlocked : s.locked = false := by simpa using hlocked
      have hcancelled : ∀ w ∈ s.waiters, w.wait.granted = false := fun w hw => by
        have hwait : w.wait = .cancelled := by simpa using List.all_eq_true.mp hall w hw
        rw [hwait]
        rfl
      have hnobody := hs.holders
      rw [if_neg (by simp [hlocked])] at hnobody
      refine ⟨?_, hs.nodup, hs.behind, fun _ => hcancelled, fun h => by cases h⟩
      show s.holders.length + 1 = 1
      omega
  | queues t hnew hopen =>
      have hne : s.locked = false → s.waiters ≠ [] := by
        rintro hlocked hnil
        simp [isOpen, hlocked, hnil] at hopen
      refine ⟨hs.holders, ?_, ?_, ?_, ?_⟩
      · show ((s.waiters ++ [Waiter.mk t .pending]).map Waiter.task).Nodup
        rw [List.map_append, List.nodup_append]
        refine ⟨hs.nodup, List.nodup_singleton t, ?_⟩
        rintro u hu v hv rfl
        obtain rfl := List.mem_singleton.mp hv
        exact hnew hu
      · intro w hw
        cases hq : s.waiters with
        | nil => rw [hq] at hw; exact absurd hw List.not_mem_nil
        | cons w' q =>
            have hbehind := hs.behind
            rw [hq] at hw hbehind
            rcases List.mem_append.mp hw with hw | hw
            · exact hbehind w hw
            · obtain rfl := List.mem_singleton.mp hw
              rfl
      · intro hlocked w hw
        rcases List.mem_append.mp hw with hw | hw
        · exact hs.inside hlocked w hw
        · obtain rfl := List.mem_singleton.mp hw
          rfl
      · intro hlocked w hw
        rw [List.head?_append_of_ne_nil _ (hne hlocked)] at hw
        exact hs.told hlocked w hw
  | cancelled t =>
      have hgranted : ∀ w : Waiter τ,
          (if w.task = t then { w with wait := w.wait.cancel } else w).wait.granted =
            w.wait.granted := fun w => by
        split_ifs
        · exact w.wait.granted_cancel
        · rfl
      refine ⟨hs.holders, by rw [Queue.tasks_cancel]; exact hs.nodup, ?_, ?_, ?_⟩
      · intro w hw
        obtain ⟨w', hw', rfl⟩ := List.mem_map.mp (List.map_tail.symm ▸ hw)
        exact (hgranted w').trans (hs.behind w' hw')
      · intro hlocked w hw
        obtain ⟨w', hw', rfl⟩ := List.mem_map.mp hw
        exact (hgranted w').trans (hs.inside hlocked w' hw')
      · intro hlocked w hw
        obtain ⟨w', hw', rfl⟩ := Option.map_eq_some_iff.mp (List.head?_map.symm.trans hw)
        split_ifs
        · exact w'.wait.cancel_ne_pending
        · exact hs.told hlocked w' hw'
  | goesIn t hwait =>
      have hmem := Queue.exists_waiter hwait
      have hlocked : s.locked = false := by
        by_contra hlocked
        exact absurd (hs.inside (by simpa using hlocked) _ hmem) nofun
      have hnobody := hs.holders
      rw [if_neg (by simp [hlocked])] at hnobody
      have hhead := hs.head_of_granted hmem rfl
      have hrest : ∀ w ∈ s.waiters.remove t, w.wait.granted = false := by
        intro w hw
        obtain ⟨hw, htask⟩ := List.mem_filter.mp hw
        obtain ⟨q, hq⟩ : ∃ q, s.waiters = ⟨t, .woken⟩ :: q :=
          ⟨_, List.eq_cons_of_mem_head? hhead⟩
        have hbehind := hs.behind
        rw [hq] at hw hbehind
        rcases List.mem_cons.mp hw with rfl | hw
        · exact absurd rfl (of_decide_eq_true htask)
        · exact hbehind w hw
      refine ⟨?_, hnodupRemove t, fun w hw => hrest w (List.mem_of_mem_tail hw), fun _ => hrest,
        fun h => by cases h⟩
      show s.holders.length + 1 = 1
      omega
  | goesAway t wait hwait hcancelled =>
      by_cases hlocked : s.locked = true
      · rw [if_pos hlocked]
        exact ⟨hs.holders, hnodupRemove t, forall_tail_remove hs.behind t,
          fun _ w hw => hs.inside hlocked w (List.mem_of_mem_filter hw),
          fun h => absurd (hlocked.symm.trans h) (by decide)⟩
      · rw [if_neg hlocked]
        exact ⟨hs.holders, by rw [Queue.tasks_wakeUpFirst]; exact hnodupRemove t,
          forall_tail_wakeUpFirst (forall_tail_remove hs.behind t),
          fun h => absurd h hlocked, fun _ => head_wakeUpFirst _⟩
  | leaves t hin =>
      have hone : s.holders.length = 1 := by
        have hlen := hs.holders
        have hpos := List.length_pos_of_mem hin
        split_ifs at hlen with hlocked
        · exact hlen
        · omega
      refine ⟨?_, by rw [Queue.tasks_wakeUpFirst]; exact hs.nodup,
        forall_tail_wakeUpFirst hs.behind, nofun, fun _ => head_wakeUpFirst _⟩
      show (s.holders.erase t).length = 0
      rw [List.length_erase_of_mem hin, hone]

omit [DecidableEq τ] in
/-- **Nobody waits in vain**: when nobody is inside and nobody has anything to do, nobody waits. -/
theorem Good.queue_eq_nil (hs : s.Good) (hnobody : s.holders = [])
    (hidle : ∀ w ∈ s.waiters, w.wait = .pending) : s.waiters = [] := by
  have hlocked : s.locked = false := by
    by_contra hlocked
    have hlen := hs.holders
    rw [hnobody, if_pos (by simpa using hlocked)] at hlen
    cases hlen
  cases hq : s.waiters with
  | nil => rfl
  | cons w q =>
      exact absurd (hidle w (by simp [hq])) (hs.told hlocked w (by simp [hq]))

/-! ### Who comes first -/

/-- The step lets a task in. -/
def entries (s : Lock τ) : Op τ → ℕ
  | .acquire _ => if s.isOpen then 1 else 0
  | .resume t => if s.waiters.waitOf t = some .woken then 1 else 0
  | .cancel _ | .release _ => 0

/-- The task waits and is not cancelled. -/
def Waits (s : Lock τ) (t : τ) : Prop :=
  (s.waiters.waitOf t).any fun wait => wait ≠ .cancelled

instance (s : Lock τ) (t : τ) : Decidable (s.Waits t) := inferInstanceAs (Decidable (_ = true))

theorem Waits.exists_waiter (h : s.Waits t) :
    ∃ wait, ⟨t, wait⟩ ∈ s.waiters ∧ wait ≠ .cancelled := by
  unfold Waits at h
  cases hwait : s.waiters.waitOf t with
  | none =>
      rw [hwait] at h
      cases h
  | some wait =>
      rw [hwait, Option.any_some] at h
      exact ⟨wait, Queue.exists_waiter hwait, of_decide_eq_true h⟩

theorem Waits.mem_tasks (h : s.Waits t) : t ∈ s.waiters.tasks := by
  obtain ⟨wait, hmem, -⟩ := h.exists_waiter
  exact List.mem_map_of_mem hmem

/-- **One step lets nobody overtake** a task that waits: whoever goes in stood in front of it. -/
theorem entries_add_ahead_le (hs : s.Good) (ht : s.Waits t) (h : s.step op = some s')
    (ht' : s'.Waits t) : s.entries op + s'.waiters.ahead t ≤ s.waiters.ahead t := by
  have hmem := ht.mem_tasks
  have hmem' := ht'.mem_tasks
  cases turn_of_step h with
  | enters t' hnew hopen =>
      obtain ⟨wait, hwaiter, hne⟩ := ht.exists_waiter
      have hall := (Bool.and_eq_true_iff.mp hopen).2
      exact absurd (by simpa using List.all_eq_true.mp hall _ hwaiter) hne
  | queues t' hnew hopen =>
      show (if s.isOpen = true then 1 else 0) + Queue.ahead (s.waiters ++ [_]) t ≤ _
      rw [hopen, Queue.ahead_append hmem]
      simp
  | cancelled t' =>
      show 0 + (s.waiters.cancel t').tasks.idxOf t ≤ s.waiters.tasks.idxOf t
      rw [Queue.tasks_cancel]
      omega
  | goesIn t' hwait =>
      have hhead := hs.head_of_granted (Queue.exists_waiter hwait) rfl
      obtain ⟨q, hq⟩ : ∃ q, s.waiters = ⟨t', .woken⟩ :: q := ⟨_, List.eq_cons_of_mem_head? hhead⟩
      have hne : t' ≠ t := by
        rintro rfl
        have hin : t' ∈ (s.waiters.remove t').tasks := hmem'
        rw [Queue.tasks_remove] at hin
        exact absurd rfl (of_decide_eq_true (List.mem_filter.mp hin).2)
      have hfront : s.waiters.ahead t' < s.waiters.ahead t := by
        show s.waiters.tasks.idxOf t' < s.waiters.tasks.idxOf t
        rw [hq]
        show (t' :: Queue.tasks q).idxOf t' < (t' :: Queue.tasks q).idxOf t
        rw [List.idxOf_cons_self, List.idxOf_cons_ne _ hne]
        omega
      have hle := Queue.ahead_remove_lt hfront
      show (if s.waiters.waitOf t' = some .woken then 1 else 0) + (s.waiters.remove t').ahead t ≤ _
      rw [if_pos hwait]
      omega
  | goesAway t' wait hwait hcancelled =>
      have htasks : ∀ locked : Bool, (if locked then s.waiters.remove t' else
          (s.waiters.remove t').wakeUpFirst).tasks = (s.waiters.remove t').tasks := by
        intro locked
        split_ifs
        · rfl
        · rw [Queue.tasks_wakeUpFirst]
      have hne : t' ≠ t := by
        rintro rfl
        have hin : t' ∈ (s.waiters.remove t').tasks := by
          rw [← htasks s.locked]
          exact hmem'
        rw [Queue.tasks_remove] at hin
        exact absurd rfl (of_decide_eq_true (List.mem_filter.mp hin).2)
      have hwoken : s.waiters.waitOf t' ≠ some .woken := by
        rw [hwait]
        rcases hcancelled with rfl | rfl
        · exact nofun
        · exact nofun
      show (if s.waiters.waitOf t' = some .woken then 1 else 0) + Queue.ahead (if s.locked then _
        else _) t ≤ _
      rw [if_neg hwoken]
      unfold Queue.ahead
      rw [htasks s.locked]
      have hle := Queue.ahead_remove_le s.waiters hne
      unfold Queue.ahead at hle
      omega
  | leaves t' hin =>
      show 0 + s.waiters.wakeUpFirst.tasks.idxOf t ≤ s.waiters.tasks.idxOf t
      rw [Queue.tasks_wakeUpFirst]
      omega

end Lock

/-! ## The semaphore -/

/-- `asyncio.Semaphore`, and the tasks that are inside. -/
structure Semaphore (τ : Type*) where
  value : ℕ
  waiters : Queue τ
  holders : List τ

namespace Semaphore

/-- `asyncio.Semaphore(capacity)`. -/
def free (capacity : ℕ) : Semaphore τ := ⟨capacity, [], []⟩

/-- The test of `acquire` that lets a task in at once: the negation of `locked`. -/
def isOpen (s : Semaphore τ) : Bool := s.value ≠ 0 && s.waiters.all fun w => w.wait = .cancelled

/-- The queue and the permits after some have been given to those who wait. -/
def wake (s : Semaphore τ) (permits kept : ℕ) (q : Queue τ) : Semaphore τ :=
  { s with
    value := kept + (Queue.wakeUpNext permits q).1
    waiters := (Queue.wakeUpNext permits q).2 }

/-- One call or one turn of the loop. -/
def step (s : Semaphore τ) : Op τ → Option (Semaphore τ)
  | .acquire t =>
      if t ∈ s.holders ∨ t ∈ s.waiters.tasks then none
      else if s.isOpen then some { s with value := s.value - 1, holders := t :: s.holders }
      else some { s with waiters := s.waiters ++ [⟨t, .pending⟩] }
  | .cancel t => (s.waiters.waitOf t).map fun _ => { s with waiters := s.waiters.cancel t }
  | .resume t =>
      match s.waiters.waitOf t with
      | none | some .pending => none
      | some .woken =>
          some ({ s with holders := t :: s.holders }.wake s.value 0 (s.waiters.remove t))
      | some .cancelled => some (s.wake s.value 0 (s.waiters.remove t))
      | some .wokenCancelled => some (s.wake (s.value + 1) 0 (s.waiters.remove t))
  | .release t =>
      if t ∈ s.holders then
        some ({ s with holders := s.holders.erase t }.wake 1 s.value s.waiters)
      else none

/-- **What a step does**: a task goes in at once or queues, is cancelled, goes in behind its future,
goes away without a permit, or leaves. -/
inductive Turn (s : Semaphore τ) : Op τ → Semaphore τ → Prop
  | enters (t : τ) (hnew : t ∉ s.waiters.tasks) (hopen : s.isOpen = true) :
      Turn s (.acquire t) { s with value := s.value - 1, holders := t :: s.holders }
  | queues (t : τ) (hnew : t ∉ s.waiters.tasks) (hopen : s.isOpen = false) :
      Turn s (.acquire t) { s with waiters := s.waiters ++ [⟨t, .pending⟩] }
  | cancelled (t : τ) : Turn s (.cancel t) { s with waiters := s.waiters.cancel t }
  | goesIn (t : τ) (hwait : s.waiters.waitOf t = some .woken) :
      Turn s (.resume t)
        ({ s with holders := t :: s.holders }.wake s.value 0 (s.waiters.remove t))
  | goesAway (t : τ) (wait : Wait) (hwait : s.waiters.waitOf t = some wait)
      (hcancelled : wait = .cancelled ∨ wait = .wokenCancelled) :
      Turn s (.resume t)
        (s.wake (s.value + if wait.granted = true then 1 else 0) 0 (s.waiters.remove t))
  | leaves (t : τ) (hin : t ∈ s.holders) :
      Turn s (.release t) ({ s with holders := s.holders.erase t }.wake 1 s.value s.waiters)

variable {s s' : Semaphore τ} {t : τ} {op : Op τ} {capacity : ℕ}

theorem turn_of_step (h : s.step op = some s') : s.Turn op s' := by
  cases op with
  | acquire t =>
      rw [step] at h
      split_ifs at h with hnew hopen
      · obtain rfl := Option.some.inj h
        exact .enters t (not_or.mp hnew).2 hopen
      · obtain rfl := Option.some.inj h
        exact .queues t (not_or.mp hnew).2 (by simpa using hopen)
  | cancel t =>
      obtain ⟨wait, -, rfl⟩ := Option.map_eq_some_iff.mp h
      exact .cancelled t
  | resume t =>
      rw [step] at h
      cases hwait : s.waiters.waitOf t with
      | none =>
          rw [hwait] at h
          cases h
      | some wait =>
          rw [hwait] at h
          cases wait with
          | pending => cases h
          | woken =>
              obtain rfl := Option.some.inj h
              exact .goesIn t hwait
          | cancelled =>
              obtain rfl := Option.some.inj h
              exact .goesAway t _ hwait (Or.inl rfl)
          | wokenCancelled =>
              obtain rfl := Option.some.inj h
              exact .goesAway t _ hwait (Or.inr rfl)
  | release t =>
      rw [step] at h
      split_ifs at h with hin
      obtain rfl := Option.some.inj h
      exact .leaves t hin

/-! ### The invariant -/

/-- Every permit is free, belongs to a task inside or waits for a woken task.  Nobody is woken in
front of whom somebody still waits, and while a permit is free somebody who waits has been woken. -/
structure Good (capacity : ℕ) (s : Semaphore τ) : Prop where
  permits : s.value + s.holders.length + s.waiters.granted = capacity
  nodup : s.waiters.tasks.Nodup
  ordered : s.waiters.Pairwise fun w w' => w.wait = .pending → w'.wait.granted = false
  told : 0 < s.value → (∃ w ∈ s.waiters, w.wait = .pending) → 0 < s.waiters.granted

omit [DecidableEq τ] in
theorem good_free (capacity : ℕ) : (free capacity : Semaphore τ).Good capacity :=
  ⟨rfl, List.nodup_nil, List.Pairwise.nil, fun _ ⟨_, h, _⟩ => absurd h List.not_mem_nil⟩

section Waking

omit [DecidableEq τ]

variable {q : Queue τ} {n : ℕ}

/-- No permit is lost. -/
theorem granted_wakeUpNext (n : ℕ) (q : Queue τ) :
    (Queue.wakeUpNext n q).1 + (Queue.wakeUpNext n q).2.granted = n + q.granted := by
  induction q generalizing n with
  | nil => cases n <;> rfl
  | cons w q ih =>
      cases n with
      | zero => rfl
      | succ n =>
          rw [Queue.wakeUpNext]
          split_ifs with hpending
          · have hrest := ih n
            have hw : w.wait.granted = false := by rw [hpending]; rfl
            have hwoken : (Waiter.mk w.task .woken).wait.granted = true := rfl
            rw [Queue.granted_cons, Queue.granted_cons, hw, hwoken, if_neg Bool.false_ne_true,
              if_pos rfl]
            dsimp only
            omega
          · have hrest := ih (n + 1)
            rw [Queue.granted_cons, Queue.granted_cons]
            omega

/-- Somebody is left who waits only when all the permits have been given. -/
theorem not_pending_of_wakeUpNext (h : 0 < (Queue.wakeUpNext n q).1) :
    ∀ w ∈ (Queue.wakeUpNext n q).2, w.wait ≠ .pending := by
  induction q generalizing n with
  | nil => cases n <;> exact fun w hw => absurd hw List.not_mem_nil
  | cons w q ih =>
      cases n with
      | zero => exact absurd h (Nat.lt_irrefl 0)
      | succ n =>
          rw [Queue.wakeUpNext] at h ⊢
          split_ifs at h ⊢ with hpending
          · exact List.forall_mem_cons.mpr ⟨nofun, ih h⟩
          · exact List.forall_mem_cons.mpr ⟨hpending, ih h⟩

/-- The first in the queue are woken first. -/
theorem ordered_wakeUpNext
    (h : q.Pairwise fun w w' => w.wait = .pending → w'.wait.granted = false) (n : ℕ) :
    (Queue.wakeUpNext n q).2.Pairwise fun w w' => w.wait = .pending → w'.wait.granted = false := by
  induction h generalizing n with
  | nil => cases n <;> exact List.Pairwise.nil
  | @cons w q hw hq ih =>
      cases n with
      | zero => exact hq.cons hw
      | succ n =>
          rw [Queue.wakeUpNext]
          split_ifs with hpending
          · exact (ih n).cons fun w' _ h => absurd h nofun
          · exact (ih (n + 1)).cons fun w' _ h => absurd h hpending

end Waking

omit [DecidableEq τ] in
/-- The permits that are free are given to the queue, or one more is. -/
theorem good_wake {permits kept : ℕ} {q : Queue τ}
    (hpermits : kept + permits + s.holders.length + q.granted = capacity) (hq : q.tasks.Nodup)
    (hordered : q.Pairwise fun w w' => w.wait = .pending → w'.wait.granted = false)
    (htold : kept = 0 ∨ 0 < permits) : (s.wake permits kept q).Good capacity := by
  have hcount := granted_wakeUpNext permits q
  refine ⟨?_, ?_, ordered_wakeUpNext hordered permits, ?_⟩
  · show kept + (Queue.wakeUpNext permits q).1 + s.holders.length +
      (Queue.wakeUpNext permits q).2.granted = capacity
    omega
  · show (Queue.wakeUpNext permits q).2.tasks.Nodup
    rw [Queue.tasks_wakeUpNext]
    exact hq
  · rintro hvalue ⟨w, hw, hpending⟩
    have hvalue : 0 < kept + (Queue.wakeUpNext permits q).1 := hvalue
    have hnone : (Queue.wakeUpNext permits q).1 = 0 := by
      by_contra hsome
      exact not_pending_of_wakeUpNext (Nat.pos_of_ne_zero hsome) w hw hpending
    show 0 < (Queue.wakeUpNext permits q).2.granted
    omega

theorem nodup_remove (hs : s.Good capacity) (t : τ) : (s.waiters.remove t).tasks.Nodup := by
  rw [Queue.tasks_remove]
  exact hs.nodup.filter _

/-- **One step keeps the invariant.** -/
theorem Good.step (hs : s.Good capacity) (h : s.step op = some s') : s'.Good capacity := by
  have hpermits := hs.permits
  cases turn_of_step h with
  | enters t hnew hopen =>
      obtain ⟨hvalue, hall⟩ := Bool.and_eq_true_iff.mp hopen
      have hvalue : s.value ≠ 0 := of_decide_eq_true hvalue
      refine ⟨?_, hs.nodup, hs.ordered, ?_⟩
      · show s.value - 1 + (s.holders.length + 1) + s.waiters.granted = capacity
        omega
      · rintro - ⟨w, hw, hpending⟩
        have hwait : w.wait = .cancelled := of_decide_eq_true (List.all_eq_true.mp hall w hw)
        exact absurd (hpending.symm.trans hwait) nofun
  | queues t hnew hopen =>
      have hgranted : Queue.granted (s.waiters ++ [Waiter.mk t .pending]) = s.waiters.granted := by
        unfold Queue.granted
        rw [List.countP_append]
        rfl
      refine ⟨by rw [hgranted]; exact hpermits, ?_, ?_, ?_⟩
      · show ((s.waiters ++ [Waiter.mk t .pending]).map Waiter.task).Nodup
        rw [List.map_append, List.nodup_append]
        refine ⟨hs.nodup, List.nodup_singleton t, ?_⟩
        rintro u hu v hv rfl
        obtain rfl := List.mem_singleton.mp hv
        exact hnew hu
      · rw [List.pairwise_append]
        refine ⟨hs.ordered, List.pairwise_singleton _ _, fun w _ w' hw' _ => ?_⟩
        obtain rfl := List.mem_singleton.mp hw'
        rfl
      · -- the door is shut although a permit is free: somebody who waits is not cancelled
        intro hvalue _
        have hvalue : 0 < s.value := hvalue
        show 0 < Queue.granted (s.waiters ++ [Waiter.mk t .pending])
        rw [hgranted]
        obtain ⟨w, hw, hwait⟩ : ∃ w ∈ s.waiters, w.wait ≠ .cancelled := by
          by_contra hnone
          push Not at hnone
          have hall : (s.waiters.all fun w => w.wait = .cancelled) = true :=
            List.all_eq_true.mpr fun w hw => decide_eq_true (hnone w hw)
          have hpos : s.value ≠ 0 := by omega
          rw [isOpen, hall, decide_eq_true hpos] at hopen
          cases hopen
        cases hw' : w.wait with
        | pending => exact hs.told hvalue ⟨w, hw, hw'⟩
        | cancelled => exact absurd hw' hwait
        | woken => exact Queue.granted_pos_iff.mpr ⟨w, hw, by rw [hw']; rfl⟩
        | wokenCancelled => exact Queue.granted_pos_iff.mpr ⟨w, hw, by rw [hw']; rfl⟩
  | cancelled t =>
      refine ⟨by rw [Queue.granted_cancel]; exact hpermits, ?_, ?_, ?_⟩
      · rw [Queue.tasks_cancel]
        exact hs.nodup
      · refine List.pairwise_map.mpr (hs.ordered.imp fun {w w'} hww' => ?_)
        split_ifs
        · exact fun h => absurd h w.wait.cancel_ne_pending
        · exact fun h => absurd h w.wait.cancel_ne_pending
        · exact fun h => (Wait.granted_cancel _).trans (hww' h)
        · exact hww'
      · rintro hvalue ⟨w, hw, hpending⟩
        rw [Queue.granted_cancel]
        obtain ⟨w', hw', rfl⟩ := List.mem_map.mp hw
        refine hs.told hvalue ⟨w', hw', ?_⟩
        split_ifs at hpending
        · exact absurd hpending w'.wait.cancel_ne_pending
        · exact hpending
  | goesIn t hwait =>
      have hremove := Queue.granted_remove hs.nodup hwait
      have hwoken : Wait.woken.granted = true := rfl
      rw [if_pos hwoken] at hremove
      refine good_wake ?_ (nodup_remove hs t) (hs.ordered.filter _) (Or.inl rfl)
      show 0 + s.value + (s.holders.length + 1) + (s.waiters.remove t).granted = capacity
      omega
  | goesAway t wait hwait hcancelled =>
      have hremove := Queue.granted_remove hs.nodup hwait
      refine good_wake ?_ (nodup_remove hs t) (hs.ordered.filter _) (Or.inl rfl)
      omega
  | leaves t hin =>
      have hlen := List.length_erase_of_mem hin
      have hpos := List.length_pos_of_mem hin
      refine good_wake ?_ hs.nodup hs.ordered (Or.inr Nat.one_pos)
      show s.value + 1 + (s.holders.erase t).length + s.waiters.granted = capacity
      omega

omit [DecidableEq τ] in
/-- **Nobody waits in vain**: when nobody is inside and nobody has anything to do, nobody waits, and
every permit is free. -/
theorem Good.queue_eq_nil (hs : s.Good capacity) (hcapacity : 0 < capacity)
    (hnobody : s.holders = []) (hidle : ∀ w ∈ s.waiters, w.wait = .pending) :
    s.waiters = [] ∧ s.value = capacity := by
  have hgranted : s.waiters.granted = 0 := by
    by_contra hsome
    obtain ⟨w, hw, hwait⟩ := Queue.granted_pos_iff.mp (Nat.pos_of_ne_zero hsome)
    rw [hidle w hw] at hwait
    cases hwait
  have hpermits := hs.permits
  rw [hnobody, hgranted] at hpermits
  have hvalue : s.value = capacity := by simpa using hpermits
  refine ⟨?_, hvalue⟩
  cases hq : s.waiters with
  | nil => rfl
  | cons w q =>
      have hw : w ∈ s.waiters := by simp [hq]
      have htold := hs.told (by omega) ⟨w, hw, hidle w hw⟩
      omega

/-! ### Who comes first -/

/-- The step lets a task in. -/
def entries (s : Semaphore τ) : Op τ → ℕ
  | .acquire _ => if s.isOpen then 1 else 0
  | .resume t => if s.waiters.waitOf t = some .woken then 1 else 0
  | .cancel _ | .release _ => 0

/-- The task waits, and has no permit yet. -/
def Waits (s : Semaphore τ) (t : τ) : Prop := s.waiters.waitOf t = some .pending

instance (s : Semaphore τ) (t : τ) : Decidable (s.Waits t) := inferInstanceAs (Decidable (_ = _))

/-- Who has been woken stands in front of whoever waits without a permit. -/
theorem ahead_lt {q : Queue τ} (hq : q.tasks.Nodup)
    (hordered : q.Pairwise fun w w' => w.wait = .pending → w'.wait.granted = false) {t' : τ}
    (ht : ⟨t, .pending⟩ ∈ q) (ht' : ⟨t', .woken⟩ ∈ q) : q.ahead t' < q.ahead t := by
  induction q with
  | nil => exact absurd ht List.not_mem_nil
  | cons w q ih =>
      obtain ⟨hnew, hnodup⟩ := List.nodup_cons.mp hq
      obtain ⟨hbehind, htail⟩ := List.pairwise_cons.mp hordered
      have hcases : ∀ {u : Waiter τ}, u ∈ w :: q → u.task ≠ w.task → u ∈ q := by
        intro u hu hne
        rcases List.mem_cons.mp hu with rfl | hu
        · exact absurd rfl hne
        · exact hu
      show (w.task :: Queue.tasks q).idxOf t' < (w.task :: Queue.tasks q).idxOf t
      by_cases htask : t = w.task
      · -- the first in the queue still waits, so nobody has been woken
        have hw : w = ⟨t, .pending⟩ :=
          (Queue.eq_of_nodup hq ht List.mem_cons_self htask).symm
        rcases List.mem_cons.mp ht' with hw' | hw'
        · rw [hw] at hw'
          cases hw'
        · exact absurd (hbehind _ hw' (by rw [hw])) nofun
      · have hin : ⟨t, .pending⟩ ∈ q := hcases ht htask
        rw [List.idxOf_cons_ne _ (Ne.symm htask)]
        by_cases htask' : t' = w.task
        · rw [← htask', List.idxOf_cons_self]
          exact Nat.succ_pos _
        · rw [List.idxOf_cons_ne _ (Ne.symm htask')]
          exact Nat.succ_lt_succ (ih hnodup htail hin (hcases ht' htask'))

theorem entries_resume_of_ne {t : τ} (h : s.waiters.waitOf t ≠ some .woken) :
    s.entries (.resume t) = 0 := if_neg h

/-- **One step lets nobody overtake** a task without a permit: whoever goes in stood in front of
it. -/
theorem entries_add_ahead_le (hs : s.Good capacity) (ht : s.Waits t) (h : s.step op = some s')
    (ht' : s'.Waits t) : s.entries op + s'.waiters.ahead t ≤ s.waiters.ahead t := by
  have hmem := Queue.mem_tasks ht
  have hmem' := Queue.mem_tasks ht'
  have hahead : ∀ (permits : ℕ) (q : Queue τ),
      (Queue.wakeUpNext permits q).2.ahead t = q.ahead t := by
    intro permits q
    unfold Queue.ahead
    rw [Queue.tasks_wakeUpNext]
  have hother : ∀ {t' : τ} {permits : ℕ},
      t ∈ (Queue.wakeUpNext permits (s.waiters.remove t')).2.tasks → t' ≠ t := by
    rintro t' permits hin rfl
    rw [Queue.tasks_wakeUpNext, Queue.tasks_remove] at hin
    exact absurd rfl (of_decide_eq_true (List.mem_filter.mp hin).2)
  cases turn_of_step h with
  | enters t' hnew hopen =>
      have hall := (Bool.and_eq_true_iff.mp hopen).2
      have hwait := of_decide_eq_true (List.all_eq_true.mp hall _ (Queue.exists_waiter ht))
      cases hwait
  | queues t' hnew hopen =>
      show (if s.isOpen = true then 1 else 0) + Queue.ahead (s.waiters ++ [_]) t ≤ _
      rw [hopen, Queue.ahead_append hmem]
      simp
  | cancelled t' =>
      show 0 + (s.waiters.cancel t').tasks.idxOf t ≤ s.waiters.tasks.idxOf t
      rw [Queue.tasks_cancel]
      omega
  | goesIn t' hwait =>
      have hfront := ahead_lt hs.nodup hs.ordered (Queue.exists_waiter ht)
        (Queue.exists_waiter hwait)
      have hle := Queue.ahead_remove_lt hfront
      show (if s.waiters.waitOf t' = some .woken then 1 else 0) +
        (Queue.wakeUpNext s.value (s.waiters.remove t')).2.ahead t ≤ _
      rw [if_pos hwait, hahead]
      omega
  | goesAway t' wait hwait hcancelled =>
      have hwoken : s.waiters.waitOf t' ≠ some .woken := by
        rw [hwait]
        rcases hcancelled with rfl | rfl
        · exact nofun
        · exact nofun
      have hle := Queue.ahead_remove_le s.waiters (hother hmem')
      rw [entries_resume_of_ne hwoken]
      show 0 + (Queue.wakeUpNext _ (s.waiters.remove t')).2.ahead t ≤ _
      rw [hahead]
      omega
  | leaves t' hin =>
      show 0 + (Queue.wakeUpNext 1 s.waiters).2.ahead t ≤ s.waiters.ahead t
      rw [hahead]
      omega

end Semaphore

/-! ## Either of them -/

/-- A lock or a semaphore. -/
inductive Gate (τ : Type*) where
  | lock (l : Lock τ)
  | semaphore (s : Semaphore τ)

namespace Gate

def waiters : Gate τ → Queue τ
  | lock l => l.waiters
  | semaphore s => s.waiters

/-- The tasks that are inside. -/
def holders : Gate τ → List τ
  | lock l => l.holders
  | semaphore s => s.holders

/-- One call or one turn of the loop. -/
def step : Gate τ → Op τ → Option (Gate τ)
  | lock l, op => (l.step op).map lock
  | semaphore s, op => (s.step op).map semaphore

/-- The step lets a task in. -/
def entries : Gate τ → Op τ → ℕ
  | lock l, op => l.entries op
  | semaphore s, op => s.entries op

/-- The task waits: for a lock, until it is cancelled; for a semaphore, or until it has a permit. -/
def Waits : Gate τ → τ → Prop
  | lock l, t => l.Waits t
  | semaphore s, t => s.Waits t

instance (g : Gate τ) (t : τ) : Decidable (g.Waits t) :=
  match g with
  | lock l => inferInstanceAs (Decidable (l.Waits t))
  | semaphore s => inferInstanceAs (Decidable (s.Waits t))

/-- The invariant; a lock has one permit. -/
def Good (capacity : ℕ) : Gate τ → Prop
  | lock l => capacity = 1 ∧ l.Good
  | semaphore s => 0 < capacity ∧ s.Good capacity

/-- Nobody is inside or waits, and every permit is free. -/
def Free (capacity : ℕ) : Gate τ → Prop
  | lock l => l = Lock.free
  | semaphore s => s = Semaphore.free capacity

variable {g g' : Gate τ} {t : τ} {op : Op τ} {capacity : ℕ}

theorem Good.step (hg : g.Good capacity) (h : g.step op = some g') : g'.Good capacity := by
  cases g with
  | lock l =>
      obtain ⟨l', hl, rfl⟩ := Option.map_eq_some_iff.mp h
      exact ⟨hg.1, hg.2.step hl⟩
  | semaphore s =>
      obtain ⟨s', hs, rfl⟩ := Option.map_eq_some_iff.mp h
      exact ⟨hg.1, hg.2.step hs⟩

omit [DecidableEq τ] in
/-- **No more tasks are inside** than there are permits. -/
theorem Good.length_holders_le (hg : g.Good capacity) : g.holders.length ≤ capacity := by
  cases g with
  | lock l =>
      obtain ⟨rfl, hl⟩ := hg
      show l.holders.length ≤ 1
      rw [hl.holders]
      split_ifs
      · exact Nat.le_refl 1
      · exact Nat.zero_le 1
  | semaphore s =>
      have hpermits := hg.2.permits
      show s.holders.length ≤ capacity
      omega

omit [DecidableEq τ] in
/-- **Nobody waits in vain**: when nobody is inside and nobody has anything to do, everything is
free. -/
theorem Good.free (hg : g.Good capacity) (hnobody : g.holders = [])
    (hidle : ∀ w ∈ g.waiters, w.wait = .pending) : g.Free capacity := by
  cases g with
  | lock l =>
      have hwaiters : l.waiters = [] := hg.2.queue_eq_nil hnobody hidle
      have hlocked : l.locked = false := by
        have hlen := hg.2.holders
        have hnone : l.holders = [] := hnobody
        by_contra hlocked
        rw [hnone, if_pos (by simpa using hlocked)] at hlen
        cases hlen
      obtain ⟨locked, waiters, holders⟩ := l
      obtain rfl : locked = false := hlocked
      obtain rfl : waiters = [] := hwaiters
      obtain rfl : holders = [] := hnobody
      rfl
  | semaphore s =>
      obtain ⟨hwaiters, hvalue⟩ := hg.2.queue_eq_nil hg.1 hnobody hidle
      obtain ⟨value, waiters, holders⟩ := s
      obtain rfl : value = capacity := hvalue
      obtain rfl : waiters = [] := hwaiters
      obtain rfl : holders = [] := hnobody
      rfl

/-- **Nobody overtakes** a task that waits. -/
theorem Good.entries_add_ahead_le (hg : g.Good capacity) (ht : g.Waits t)
    (h : g.step op = some g') (ht' : g'.Waits t) :
    g.entries op + g'.waiters.ahead t ≤ g.waiters.ahead t := by
  cases g with
  | lock l =>
      obtain ⟨l', hl, rfl⟩ := Option.map_eq_some_iff.mp h
      exact Lock.entries_add_ahead_le hg.2 ht hl ht'
  | semaphore s =>
      obtain ⟨s', hs, rfl⟩ := Option.map_eq_some_iff.mp h
      exact Semaphore.entries_add_ahead_le hg.2 ht hs ht'

end Gate
end WaitQueues
end Foundations
end MigrationStudio
