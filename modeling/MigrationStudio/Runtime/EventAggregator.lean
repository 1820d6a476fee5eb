import Mathlib.Data.List.Induction
import MigrationStudio.Foundations.Dict

/-!
# `runtime/event_aggregator.py`

Every event that the program publishes is pushed into the aggregator, and the user interface drains
it from time to time.  An event whose name ends with `Progress` only replaces the one that is kept
for its job, in a dictionary; any other event is put behind the recent ones, in a queue with a
largest length.  A drain gives the queue and then the dictionary.

The events between two drains are a window.  A progress event that is kept comes out behind every
other event of its window, so a job whose last progress event is followed, in the same window, by
another of its events has the two delivered the wrong way round.

* `EventAggregator`, `push`, `drain`: the two containers and the two calls.
* `windows`, `drained`: the windows of a sequence of calls, and what its drains give.
* `NoneAfterProgress`: nothing of a job follows its last progress event in a window.
* `drains_keep_order`: the drains lose nothing but progress events, and keep the order of every
  job when every window is so; for events that can be told apart, only then.
-/

namespace MigrationStudio
namespace Runtime

open Foundations

/-- `DomainEvent`, with the values of its payload. -/
structure DomainEvent (V : Type*) where
  name : String
  payload : List (String × V) := []
  deriving DecidableEq

namespace DomainEvent

variable {V : Type*}

/-- `name.endswith("Progress")`. -/
def isProgress (event : DomainEvent V) : Bool := "Progress".toList.isSuffixOf event.name.toList

/-- The job that the event is of, if it names one. -/
def jobId (event : DomainEvent V) : Option V := event.payload.lookup "job_id"

/-- `str(payload.get("job_id", name))`, where `str` gives the text of a value. -/
def key (str : V → String) (event : DomainEvent V) : String :=
  (event.jobId.map str).getD event.name

def ofJob [DecidableEq V] (job : V) (event : DomainEvent V) : Bool := event.jobId = some job

theorem key_of_ofJob [DecidableEq V] (str : V → String) {job : V} {event : DomainEvent V}
    (h : event.ofJob job = true) : event.key str = str job := by
  rw [key, of_decide_eq_true h, Option.map_some, Option.getD_some]

end DomainEvent

/-- The queue has its largest length, and the dictionary has no key twice. -/
structure EventAggregator (V : Type*) where
  maxRecent : ℕ
  events : List (DomainEvent V)
  latestProgress : List (String × DomainEvent V)
  events_le : events.length ≤ maxRecent
  nodup : (latestProgress.map Prod.fst).Nodup

/-- `append` on a queue with a largest length, which drops from the left. -/
def dequeAppend {α : Type*} (maxlen : ℕ) (l : List α) (x : α) : List α :=
  (l ++ [x]).drop (l.length + 1 - maxlen)

theorem length_dequeAppend_le {α : Type*} (maxlen : ℕ) (l : List α) (x : α) :
    (dequeAppend maxlen l x).length ≤ maxlen := by
  rw [dequeAppend, List.length_drop, List.length_append, List.length_singleton]
  omega

namespace EventAggregator

variable {V : Type*}

/-- `EventAggregator(max_recent)`. -/
def new (maxRecent : ℕ) : EventAggregator V where
  maxRecent := maxRecent
  events := []
  latestProgress := []
  events_le := Nat.zero_le _
  nodup := List.nodup_nil

section Calls

variable (str : V → String)

def push (a : EventAggregator V) (event : DomainEvent V) : EventAggregator V :=
  if event.isProgress then
    { a with
      latestProgress := dictSet a.latestProgress (event.key str) event
      nodup := nodup_keys_dictSet a.nodup }
  else
    { a with
      events := dequeAppend a.maxRecent a.events event
      events_le := length_dequeAppend_le _ _ _ }

/-- `drain`: what it returns, and the aggregator with both containers cleared. -/
def drain (a : EventAggregator V) : List (DomainEvent V) × EventAggregator V :=
  (a.events ++ a.latestProgress.map Prod.snd, new a.maxRecent)

/-- A call of the aggregator. -/
inductive Call (V : Type*) where
  | push (event : DomainEvent V)
  | drain

/-- What the drains of the calls give, put together. -/
def drained (a : EventAggregator V) : List (Call V) → List (DomainEvent V)
  | [] => []
  | .push event :: calls => drained (a.push str event) calls
  | .drain :: calls => a.drain.1 ++ drained a.drain.2 calls

end Calls

/-- The events that the calls publish. -/
def published : List (Call V) → List (DomainEvent V)
  | [] => []
  | .push event :: calls => event :: published calls
  | .drain :: calls => published calls

/-- The events in front of each drain and behind the drain before it, `w` being those since the
last drain. -/
def windowsFrom (w : List (DomainEvent V)) : List (Call V) → List (List (DomainEvent V))
  | [] => []
  | .push event :: calls => windowsFrom (w ++ [event]) calls
  | .drain :: calls => w :: windowsFrom [] calls

def windows (calls : List (Call V)) : List (List (DomainEvent V)) := windowsFrom [] calls

/-- The windows are what is published in front of the last drain. -/
theorem flatten_windowsFrom_prefix (w : List (DomainEvent V)) (calls : List (Call V)) :
    (windowsFrom w calls).flatten <+: w ++ published calls := by
  induction calls generalizing w with
  | nil => exact List.nil_prefix
  | cons call calls ih =>
      cases call with
      | push event =>
          have hrest := ih (w ++ [event])
          rwa [List.append_assoc] at hrest
      | drain =>
          rw [windowsFrom, List.flatten_cons]
          exact (List.prefix_append_right_inj w).mpr (ih [])

/-! ## One window -/

variable (str : V → String)

/-- What a drain gives after the pushes of a window. -/
def delivery (maxRecent : ℕ) (w : List (DomainEvent V)) : List (DomainEvent V) :=
  (w.foldl (push str) (new maxRecent)).drain.1

/-- Behind the last progress event that a key has in the window comes no other event of the same
job. -/
def NoneAfterProgress : List (DomainEvent V) → Prop
  | [] => True
  | event :: w =>
      (event.isProgress = true →
        (∀ e ∈ w, e.isProgress = true → e.key str ≠ event.key str) →
        ∀ e ∈ w, e.isProgress = false → event.jobId ≠ none → e.jobId ≠ event.jobId) ∧
      NoneAfterProgress w

variable {str}

@[simp] theorem maxRecent_new (maxRecent : ℕ) :
    (new maxRecent : EventAggregator V).maxRecent = maxRecent := rfl

theorem maxRecent_push (a : EventAggregator V) (event : DomainEvent V) :
    (a.push str event).maxRecent = a.maxRecent := by
  unfold push
  split_ifs
  · rfl
  · rfl

theorem maxRecent_foldl_push (a : EventAggregator V) (w : List (DomainEvent V)) :
    (w.foldl (push str) a).maxRecent = a.maxRecent := by
  induction w generalizing a with
  | nil => rfl
  | cons event w ih => exact (ih _).trans (maxRecent_push a event)

/-- **The queue** holds the events of the window that are no progress, when they fit. -/
theorem events_foldl_push {maxRecent : ℕ} {w : List (DomainEvent V)}
    (h : (w.filter (!·.isProgress)).length ≤ maxRecent) :
    (w.foldl (push str) (new maxRecent)).events = w.filter (!·.isProgress) := by
  induction w using List.reverseRecOn with
  | nil => rfl
  | append_singleton w event ih =>
      rw [List.filter_append, List.length_append] at h
      have hw := ih (Nat.le_trans (Nat.le_add_right _ _) h)
      rw [List.foldl_append, List.foldl_cons, List.foldl_nil, List.filter_append]
      cases hprogress : event.isProgress with
      | true => simp [push, hprogress, hw]
      | false =>
          have hfit : (w.filter (!·.isProgress)).length + 1 - maxRecent = 0 := by
            rw [List.filter_cons_of_pos (by simp [hprogress]), List.length_cons] at h
            omega
          simp [push, hprogress, dequeAppend, hw, maxRecent_foldl_push, hfit]

/-- **The dictionary** holds the last progress event of the window under each key. -/
theorem lookup_foldl_push (maxRecent : ℕ) (w : List (DomainEvent V)) (k : String) :
    (w.foldl (push str) (new maxRecent)).latestProgress.lookup k =
      (w.filter fun e => e.isProgress && e.key str = k).getLast? := by
  induction w using List.reverseRecOn with
  | nil => rfl
  | append_singleton w event ih =>
      rw [List.foldl_append, List.foldl_cons, List.foldl_nil, List.filter_append]
      cases hprogress : event.isProgress with
      | false => simp [push, hprogress, ih]
      | true =>
          by_cases hk : k = event.key str
          · simp [push, hprogress, lookup_dictSet, hk]
          · have hk' : ¬ event.key str = k := fun h => hk h.symm
            simp [push, hprogress, lookup_dictSet, hk, hk', ih]

/-- What the dictionary holds is a progress event of the window, under its own key. -/
theorem mem_latestProgress_foldl_push {maxRecent : ℕ} {w : List (DomainEvent V)}
    {p : String × DomainEvent V}
    (h : p ∈ (w.foldl (push str) (new maxRecent)).latestProgress) :
    p.2 ∈ w ∧ p.2.isProgress = true ∧ p.2.key str = p.1 := by
  have hlookup := lookup_of_mem (w.foldl (push str) (new maxRecent)).nodup h
  rw [lookup_foldl_push] at hlookup
  obtain ⟨hw, hprop⟩ := List.mem_filter.mp (List.mem_of_getLast? hlookup)
  rw [Bool.and_eq_true, decide_eq_true_eq] at hprop
  exact ⟨hw, hprop⟩

/-- **A drain gives every event that is no progress**, once and in order. -/
theorem filter_not_isProgress_delivery {maxRecent : ℕ} {w : List (DomainEvent V)}
    (h : (w.filter (!·.isProgress)).length ≤ maxRecent) :
    (delivery str maxRecent w).filter (!·.isProgress) = w.filter (!·.isProgress) := by
  have hnone : ((w.foldl (push str) (new maxRecent)).latestProgress.map Prod.snd).filter
      (!·.isProgress) = [] := by
    refine List.filter_eq_nil_iff.mpr fun e he => ?_
    obtain ⟨p, hp, rfl⟩ := List.mem_map.mp he
    simp [(mem_latestProgress_foldl_push hp).2.1]
  rw [delivery, drain, events_foldl_push h, List.filter_append, hnone, List.append_nil,
    List.filter_filter]
  simp

/-! ## A job in a window -/

variable (str) in
/-- A key is kept by its last progress event. -/
theorem getLast?_progress_cons (k : String) (event : DomainEvent V) (w : List (DomainEvent V)) :
    ((event :: w).filter fun e => e.isProgress && e.key str = k).getLast? =
      (w.filter fun e => e.isProgress && e.key str = k).getLast?.or
        (if event.isProgress && event.key str = k then some event else none) := by
  rw [List.filter_cons]
  split_ifs with hevent
  · rw [List.getLast?_cons]
    cases (w.filter fun e => e.isProgress && e.key str = k).getLast? with
    | none => rfl
    | some e => rfl
  · rw [Option.or_none]

variable [DecidableEq V]

variable (str) in
/-- What a drain gives of a job: its events that are no progress, and its last progress event if no
later one has the key. -/
def jobDelivery (job : V) (w : List (DomainEvent V)) : List (DomainEvent V) :=
  (w.filter (!·.isProgress)).filter (·.ofJob job) ++
    ((w.filter fun e => e.isProgress && e.key str = str job).getLast?.toList.filter (·.ofJob job))

theorem filter_ofJob_delivery {maxRecent : ℕ} {w : List (DomainEvent V)}
    (h : (w.filter (!·.isProgress)).length ≤ maxRecent) (job : V) :
    (delivery str maxRecent w).filter (·.ofJob job) = jobDelivery str job w := by
  have hkey : ∀ p ∈ (w.foldl (push str) (new maxRecent)).latestProgress,
      p.2.ofJob job = true → p.1 = str job := by
    intro p hp hjob
    rw [← (mem_latestProgress_foldl_push hp).2.2]
    exact DomainEvent.key_of_ofJob str hjob
  rw [delivery, drain, events_foldl_push h, List.filter_append,
    filter_map_snd (w.foldl (push str) (new maxRecent)).nodup hkey, lookup_foldl_push, jobDelivery]

theorem mem_of_mem_jobDelivery {job : V} {w : List (DomainEvent V)} {e : DomainEvent V}
    (h : e ∈ jobDelivery str job w) : e ∈ w ∧ e.ofJob job = true := by
  rcases List.mem_append.mp h with h | h
  · obtain ⟨hw, hjob⟩ := List.mem_filter.mp h
    exact ⟨(List.mem_filter.mp hw).1, hjob⟩
  · obtain ⟨hlast, hjob⟩ := List.mem_filter.mp h
    have hw := List.mem_of_getLast? (Option.mem_toList.mp hlast)
    exact ⟨(List.mem_filter.mp hw).1, hjob⟩

variable (str) in
/-- **One more event in front**: it is not delivered for the job, it comes first, or it is a
progress event that no later one replaces, and comes last. -/
theorem jobDelivery_cons (job : V) (event : DomainEvent V) (w : List (DomainEvent V)) :
    (jobDelivery str job (event :: w) = jobDelivery str job w ∧
      (event.ofJob job = true → event.isProgress = true ∧
        ∃ e ∈ w, e.isProgress = true ∧ e.key str = event.key str)) ∨
    (event.ofJob job = true ∧ event.isProgress = false ∧
      jobDelivery str job (event :: w) = event :: jobDelivery str job w) ∨
    (event.ofJob job = true ∧ event.isProgress = true ∧
      (∀ e ∈ w, e.isProgress = true → e.key str ≠ event.key str) ∧
      jobDelivery str job (event :: w) = jobDelivery str job w ++ [event]) := by
  unfold jobDelivery
  rw [getLast?_progress_cons]
  cases hprogress : event.isProgress with
  | false =>
      rw [List.filter_cons_of_pos (by simp [hprogress]), Bool.false_and, if_neg (by simp),
        Option.or_none]
      by_cases hjob : event.ofJob job = true
      · rw [List.filter_cons_of_pos hjob, List.cons_append]
        exact Or.inr (Or.inl ⟨hjob, rfl, rfl⟩)
      · rw [List.filter_cons_of_neg hjob]
        exact Or.inl ⟨rfl, fun h => absurd h hjob⟩
  | true =>
      rw [List.filter_cons_of_neg (by simp [hprogress]), Bool.true_and]
      cases hlast : (w.filter fun e => e.isProgress && e.key str = str job).getLast? with
      | some e =>
          obtain ⟨he, hprop⟩ := List.mem_filter.mp (List.mem_of_getLast? hlast)
          rw [Bool.and_eq_true, decide_eq_true_eq] at hprop
          refine Or.inl ⟨rfl, fun hjob => ⟨rfl, e, he, hprop.1, ?_⟩⟩
          rw [hprop.2, DomainEvent.key_of_ofJob str hjob]
      | none =>
          by_cases hjob : event.ofJob job = true
          · have hkey := DomainEvent.key_of_ofJob str hjob
            refine Or.inr (Or.inr ⟨hjob, rfl, fun e he heprogress hekey => ?_, ?_⟩)
            · refine List.filter_eq_nil_iff.mp (List.getLast?_eq_none_iff.mp hlast) e he ?_
              simp [heprogress, hekey, hkey]
            · simp [hkey, hjob]
          · refine Or.inl ⟨?_, fun h => absurd h hjob⟩
            rw [Option.none_or]
            split_ifs
            · simp [hjob]
            · rfl

/-- **Nothing is overtaken** in a window where nothing of a job follows its last progress event. -/
theorem jobDelivery_sublist {w : List (DomainEvent V)} (h : NoneAfterProgress str w) (job : V) :
    (jobDelivery str job w).Sublist (w.filter (·.ofJob job)) := by
  induction w with
  | nil => exact List.Sublist.refl _
  | cons event w ih =>
      obtain ⟨hevent, hw⟩ := h
      rcases jobDelivery_cons str job event w with
        ⟨heq, -⟩ | ⟨hjob, -, heq⟩ | ⟨hjob, hprogress, hlast, heq⟩
      · rw [heq]
        exact (ih hw).trans ((List.sublist_cons_self event w).filter _)
      · rw [heq, List.filter_cons_of_pos hjob]
        exact (ih hw).cons_cons event
      · have hnone : jobDelivery str job w = [] := by
          refine List.eq_nil_iff_forall_not_mem.mpr fun e he => ?_
          obtain ⟨hmem, hejob⟩ := mem_of_mem_jobDelivery he
          cases heprogress : e.isProgress with
          | false =>
              refine hevent hprogress hlast e hmem heprogress ?_ ?_
              · rw [of_decide_eq_true hjob]
                simp
              · rw [of_decide_eq_true hjob, of_decide_eq_true hejob]
          | true =>
              refine hlast e hmem heprogress ?_
              rw [DomainEvent.key_of_ofJob str hejob, DomainEvent.key_of_ofJob str hjob]
        rw [heq, hnone, List.nil_append, List.filter_cons_of_pos hjob, List.singleton_sublist]
        exact List.mem_cons_self ..

/-- What comes last in one list and first in another, and nowhere else, comes alone. -/
theorem eq_nil_of_append_sublist_cons {α : Type*} {x : α} {l l' : List α} (hl : x ∉ l)
    (hl' : x ∉ l') (h : (l ++ [x]).Sublist (x :: l')) : l = [] := by
  rcases List.sublist_cons_iff.mp h with h | ⟨r, heq, -⟩
  · exact absurd (h.subset (List.mem_append_right _ (List.mem_singleton_self x))) hl'
  · cases l with
    | nil => rfl
    | cons y l =>
        rw [List.cons_append] at heq
        exact absurd ((List.cons.inj heq).1 ▸ List.mem_cons_self ..) hl

/-- **The converse**, for events that can be told apart. -/
theorem noneAfterProgress_of_sublist {w : List (DomainEvent V)} (hw : w.Nodup)
    (h : ∀ job, (jobDelivery str job w).Sublist (w.filter (·.ofJob job))) :
    NoneAfterProgress str w := by
  induction w with
  | nil => trivial
  | cons event w ih =>
      obtain ⟨hfresh, hnodup⟩ := List.nodup_cons.mp hw
      have halone : ∀ job, event.ofJob job = true →
          jobDelivery str job (event :: w) = jobDelivery str job w ++ [event] →
          jobDelivery str job w = [] := by
        intro job hjob heq
        have hsub := h job
        rw [heq, List.filter_cons_of_pos hjob] at hsub
        exact eq_nil_of_append_sublist_cons (fun hmem => hfresh (mem_of_mem_jobDelivery hmem).1)
          (fun hmem => hfresh (List.mem_filter.mp hmem).1) hsub
      refine ⟨fun hprogress hlast e he heprogress hsome hsame => ?_, ih hnodup fun job => ?_⟩
      · obtain ⟨job, hevent⟩ := Option.ne_none_iff_exists'.mp hsome
        have hjob : event.ofJob job = true := decide_eq_true hevent
        have hmem : e ∈ jobDelivery str job w :=
          List.mem_append_left _ (List.mem_filter.mpr
            ⟨List.mem_filter.mpr ⟨he, by simp [heprogress]⟩,
              decide_eq_true (hsame.trans hevent)⟩)
        rcases jobDelivery_cons str job event w with ⟨-, hlater⟩ | ⟨-, hnot, -⟩ | ⟨-, -, -, heq⟩
        · obtain ⟨-, q, hq, hqprogress, hqkey⟩ := hlater hjob
          exact hlast q hq hqprogress hqkey
        · exact absurd (hprogress.symm.trans hnot) (by decide)
        · rw [halone job hjob heq] at hmem
          exact absurd hmem (by simp)
      · have hsub := h job
        rcases jobDelivery_cons str job event w with
          ⟨heq, -⟩ | ⟨hjob, -, heq⟩ | ⟨hjob, -, -, heq⟩
        · rw [heq, List.filter_cons] at hsub
          split_ifs at hsub
          · refine (List.sublist_cons_iff.mp hsub).resolve_right ?_
            rintro ⟨r, hr, -⟩
            have hmem : event ∈ jobDelivery str job w := hr ▸ List.mem_cons_self ..
            exact hfresh (mem_of_mem_jobDelivery hmem).1
          · exact hsub
        · rw [heq, List.filter_cons_of_pos hjob] at hsub
          exact List.cons_sublist_cons.mp hsub
        · rw [halone job hjob heq]
          exact List.nil_sublist _

/-! ## A sequence of calls -/

omit [DecidableEq V] in
variable (str) in
/-- **The drains** give the deliveries of the windows. -/
theorem drained_foldl_push (maxRecent : ℕ) (w : List (DomainEvent V)) (calls : List (Call V)) :
    drained str (w.foldl (push str) (new maxRecent)) calls =
      (windowsFrom w calls).flatMap (delivery str maxRecent) := by
  induction calls generalizing w with
  | nil => rfl
  | cons call calls ih =>
      cases call with
      | push event =>
          have hnext := ih (w ++ [event])
          rw [List.foldl_append] at hnext
          exact hnext
      | drain =>
          have hnew : (w.foldl (push str) (new maxRecent)).drain.2 = new maxRecent := by
            rw [drain, maxRecent_foldl_push, maxRecent_new]
          rw [drained, hnew, windowsFrom, List.flatMap_cons]
          exact congrArg _ (ih [])

theorem flatMap_sublist {α β : Type*} {f g : α → List β} {l : List α}
    (h : ∀ x ∈ l, (f x).Sublist (g x)) : (l.flatMap f).Sublist (l.flatMap g) := by
  induction l with
  | nil => exact List.Sublist.refl _
  | cons x l ih =>
      rw [List.flatMap_cons, List.flatMap_cons]
      exact (h x (List.mem_cons_self ..)).append
        (ih fun y hy => h y (List.mem_cons_of_mem _ hy))

/-- A subsequence of two parts that a property tells apart is one in each part. -/
theorem sublist_parts {α : Type*} (p : α → Bool) {l l' m m' : List α}
    (h : (l ++ l').Sublist (m ++ m')) (hl : ∀ x ∈ l, p x = true) (hm : ∀ x ∈ m, p x = true)
    (hl' : ∀ x ∈ l', p x = false) (hm' : ∀ x ∈ m', p x = false) :
    l.Sublist m ∧ l'.Sublist m' := by
  have hpart : ∀ a b : List α, (∀ x ∈ a, p x = true) → (∀ x ∈ b, p x = false) →
      (a ++ b).filter p = a ∧ (a ++ b).filter (!p ·) = b := by
    intro a b ha hb
    constructor
    · rw [List.filter_append, List.filter_eq_self.mpr ha,
        List.filter_eq_nil_iff.mpr fun x hx => by simp [hb x hx], List.append_nil]
    · rw [List.filter_append, List.filter_eq_nil_iff.mpr fun x hx => by simp [ha x hx],
        List.filter_eq_self.mpr fun x hx => by simp [hb x hx], List.nil_append]
  obtain ⟨hl₁, hl₂⟩ := hpart l l' hl hl'
  obtain ⟨hm₁, hm₂⟩ := hpart m m' hm hm'
  constructor
  · have hsub := h.filter p
    rwa [hl₁, hm₁] at hsub
  · have hsub := h.filter (!p ·)
    rwa [hl₂, hm₂] at hsub

/-- What holds of the windows together holds of each of them, when no event is in two. -/
theorem sublist_of_flatMap_sublist {α : Type*} [DecidableEq α] {f g : List α → List α}
    {l : List (List α)} {m : List α} (hnodup : (l.flatten ++ m).Nodup)
    (hf : ∀ w ∈ l, ∀ x ∈ f w, x ∈ w) (hg : ∀ w ∈ l, ∀ x ∈ g w, x ∈ w) {m' : List α}
    (hm' : ∀ x ∈ m', x ∈ m) (h : (l.flatMap f).Sublist (l.flatMap g ++ m')) :
    ∀ w ∈ l, (f w).Sublist (g w) := by
  induction l with
  | nil => exact fun w hw => absurd hw (by simp)
  | cons w l ih =>
      rw [List.flatten_cons, List.append_assoc] at hnodup
      obtain ⟨-, hrest, hdisjoint⟩ := List.nodup_append.mp hnodup
      rw [List.flatMap_cons, List.flatMap_cons, List.append_assoc] at h
      have hout : ∀ k : List α → List α, (∀ w ∈ l, ∀ x ∈ k w, x ∈ w) →
          ∀ x ∈ l.flatMap k, x ∈ l.flatten := by
        intro k hk x hx
        obtain ⟨w', hw', hxw⟩ := List.mem_flatMap.mp hx
        exact List.mem_flatten.mpr ⟨w', hw', hk w' hw' x hxw⟩
      have hft := hout f fun w' hw' => hf w' (List.mem_cons_of_mem _ hw')
      have hgt := hout g fun w' hw' => hg w' (List.mem_cons_of_mem _ hw')
      have hnot : ∀ x ∈ l.flatten ++ m, decide (x ∈ w) = false :=
        fun x hx => decide_eq_false fun hxw => hdisjoint x hxw x hx rfl
      obtain ⟨hfirst, hothers⟩ := sublist_parts (fun x => decide (x ∈ w)) h
        (fun x hx => decide_eq_true (hf w (List.mem_cons_self ..) x hx))
        (fun x hx => decide_eq_true (hg w (List.mem_cons_self ..) x hx))
        (fun x hx => hnot x (List.mem_append_left _ (hft x hx)))
        (fun x hx => hnot x ((List.mem_append.mp hx).elim
          (fun hx => List.mem_append_left _ (hgt x hx))
          fun hx => List.mem_append_right _ (hm' x hx)))
      intro w' hw'
      rcases List.mem_cons.mp hw' with rfl | hw'
      · exact hfirst
      · exact ih hrest (fun w hw => hf w (List.mem_cons_of_mem _ hw))
          (fun w hw => hg w (List.mem_cons_of_mem _ hw)) hothers w' hw'

/-- **The drains lose nothing but progress events and keep the order of every job**, when no event
of a job follows its last progress event in a window.  For events that can be told apart that is
the only case: otherwise the progress event is delivered behind an event that was published after
it. -/
theorem drains_keep_order (str : V → String) (maxRecent : ℕ) (calls : List (Call V))
    (hfit : ∀ w ∈ windows calls, (w.filter (!·.isProgress)).length ≤ maxRecent) :
    (drained str (new maxRecent) calls).filter (!·.isProgress) =
        (windows calls).flatten.filter (!·.isProgress) ∧
      ((∀ w ∈ windows calls, NoneAfterProgress str w) → ∀ job,
        ((drained str (new maxRecent) calls).filter (·.ofJob job)).Sublist
          ((published calls).filter (·.ofJob job))) ∧
      ((published calls).Nodup →
        (∀ job, ((drained str (new maxRecent) calls).filter (·.ofJob job)).Sublist
          ((published calls).filter (·.ofJob job))) →
        ∀ w ∈ windows calls, NoneAfterProgress str w) := by
  have hdrained : drained str (new maxRecent) calls =
      (windows calls).flatMap (delivery str maxRecent) := drained_foldl_push str maxRecent [] calls
  obtain ⟨rest, hrest⟩ : (windows calls).flatten <+: published calls :=
    flatten_windowsFrom_prefix [] calls
  have hjob : ∀ job, (drained str (new maxRecent) calls).filter (·.ofJob job) =
      (windows calls).flatMap (jobDelivery str job) := by
    intro job
    rw [hdrained, List.filter_flatMap]
    exact List.flatMap_congr fun w hw => filter_ofJob_delivery (hfit w hw) job
  have hpublished : ∀ job, (published calls).filter (·.ofJob job) =
      (windows calls).flatMap (fun w => w.filter (·.ofJob job)) ++
        rest.filter (·.ofJob job) := by
    intro job
    rw [← hrest, List.filter_append, List.filter_flatten, List.flatMap_def]
  refine ⟨?_, fun h job => ?_, fun hnodup h w hw => ?_⟩
  · rw [hdrained, List.filter_flatMap, List.filter_flatten, List.flatMap_def]
    exact congrArg List.flatten (List.map_congr_left fun w hw =>
      filter_not_isProgress_delivery (hfit w hw))
  · rw [hjob, hpublished]
    exact (flatMap_sublist fun w hw => jobDelivery_sublist (h w hw) job).trans
      (List.sublist_append_left _ _)
  · rw [← hrest] at hnodup
    refine noneAfterProgress_of_sublist ?_ fun job => ?_
    · have hflat := (List.nodup_append.mp hnodup).1
      exact (List.nodup_flatten.mp hflat).1 w hw
    · have hsub := h job
      rw [hjob, hpublished] at hsub
      exact sublist_of_flatMap_sublist hnodup (fun _ _ _ hx => (mem_of_mem_jobDelivery hx).1)
        (fun _ _ _ hx => (List.mem_filter.mp hx).1) (fun _ hx => (List.mem_filter.mp hx).1)
        hsub w hw

/-- The events of a scan with the id 1: its last batch is stored, and it is completed. -/
def scanEvents : List (DomainEvent ℕ) :=
  [⟨"MemberScanProgress", [("job_id", 1), ("accepted", 7)]⟩,
    ⟨"MemberScanCompleted", [("job_id", 1), ("accepted", 7)]⟩]

/-- A drain between the two events delivers both in order. -/
theorem drains_keep_order_scan :
    ((drained Nat.repr (new 500) [.push scanEvents[0], .drain, .push scanEvents[1], .drain]).filter
      (·.ofJob 1)).Sublist scanEvents :=
  (drains_keep_order Nat.repr 500 [.push scanEvents[0], .drain, .push scanEvents[1], .drain]
    (by decide +kernel)).2.1
    (by
      intro w hw
      have hw' : w = [scanEvents[0]] ∨ w = [scanEvents[1]] := by
        simpa [windows, windowsFrom] using hw
      rcases hw' with rfl | rfl
      · exact ⟨fun _ _ _ he => absurd he (by simp), trivial⟩
      · exact ⟨fun _ _ _ he => absurd he (by simp), trivial⟩) 1

/-- **Without one the completion is overtaken**: the progress that was published before it is
delivered behind it. -/
theorem scan_progress_after_completion :
    (∀ w ∈ windows (scanEvents.map .push ++ [.drain]),
        (w.filter (!·.isProgress)).length ≤ 500) ∧
      drained Nat.repr (new 500) (scanEvents.map .push ++ [.drain]) =
        [scanEvents[1], scanEvents[0]] ∧
      ¬ ((drained Nat.repr (new 500) (scanEvents.map .push ++ [.drain])).filter
          (·.ofJob 1)).Sublist
        ((published (scanEvents.map .push ++ [.drain])).filter (·.ofJob 1)) := by
  decide +kernel

end EventAggregator

end Runtime
end MigrationStudio
