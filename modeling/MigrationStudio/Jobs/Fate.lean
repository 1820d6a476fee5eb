import MigrationStudio.Jobs.Repository

/-!
# What becomes of a job

The writes of a run decide the state of the job and the outcome of its items.  The instant of the
next retry, which only a clock decides, is left out, and then a retry mark is one more update of
the item: the next update of the same ordinal overwrites it.

* `ItemTable.forget`: the items without the instants.
* `Fate`, `Job.fate`, `fate_apply`: the state and the outcomes, and what a write does to them.
* `SameBut`: two tables that the next update of one ordinal makes equal.
* `Fate.apply_updateItems`: writes about different items come in any order.
* `mem_rows_apply`: the rows that a write leaves alone.
-/

namespace MigrationStudio
namespace Jobs

open MigrationStudio.Core

namespace ItemTable

theorem eq_of_rows {t t' : ItemTable} (h : t.rows = t'.rows) : t = t' := by
  cases t
  cases t'
  cases h
  rfl

/-- The items without the instants of the next retries. -/
def forget (t : ItemTable) : ItemTable where
  rows := t.rows.map fun r => { r with nextRetryAt := none }
  sorted := List.pairwise_map.mpr t.sorted

theorem forget_modifyAt (t : ItemTable) (o : ℕ) {f g : Item → Item}
    (hf : ∀ r, (f r).ordinal = r.ordinal) (hg : ∀ r, (g r).ordinal = r.ordinal)
    (hfg : ∀ r, { f r with nextRetryAt := none } = g { r with nextRetryAt := none }) :
    (t.modifyAt o f hf).forget = t.forget.modifyAt o g hg := by
  refine eq_of_rows ?_
  simp only [forget, modifyAt, List.map_map]
  refine List.map_congr_left fun r _ => ?_
  simp only [Function.comp_apply]
  split
  · exact hfg r
  · rfl

theorem forget_updateItem (t : ItemTable) (u : ItemUpdate) :
    (t.updateItem u).forget = t.forget.updateItem u :=
  forget_modifyAt t u.ordinal _ _ fun _ => rfl

theorem forget_updateItems (t : ItemTable) (us : List ItemUpdate) :
    (t.updateItems us).forget = t.forget.updateItems us := by
  induction us generalizing t with
  | nil => rfl
  | cons u us ih =>
      have hone := ih (t.updateItem u)
      rw [forget_updateItem] at hone
      exact hone

/-- A retry mark is an update with the state RETRY. -/
theorem forget_markRetry (t : ItemTable) (o n : ℕ) (code : Option InviteResultCode)
    (text : Option String) (nextAt : Option ℕ) :
    (t.markRetry o n code text nextAt).forget = t.forget.updateItem ⟨o, .retry, n, code, text⟩ := by
  refine eq_of_rows ?_
  simp only [forget, markRetry, updateItem, modifyAt, List.map_map]
  refine List.map_congr_left fun r _ => ?_
  simp only [Function.comp_apply]
  split <;> rfl

@[simp] theorem count_forget (t : ItemTable) (state : MigrationItemState) :
    t.forget.count state = t.count state := by
  simp only [count, forget, List.countP_map]
  rfl

theorem updateItems_append (t : ItemTable) (us vs : List ItemUpdate) :
    t.updateItems (us ++ vs) = (t.updateItems us).updateItems vs :=
  List.foldl_append

theorem updateItems_snoc (t : ItemTable) (us : List ItemUpdate) (u : ItemUpdate) :
    t.updateItems (us ++ [u]) = (t.updateItems us).updateItem u :=
  updateItems_append t us [u]

/-- An update overwrites an earlier one of the same ordinal. -/
theorem updateItem_updateItem (t : ItemTable) {u v : ItemUpdate} (h : v.ordinal = u.ordinal) :
    (t.updateItem v).updateItem u = t.updateItem u := by
  refine eq_of_rows ?_
  simp only [updateItem, modifyAt, List.map_map]
  refine List.map_congr_left fun r _ => ?_
  simp only [Function.comp_apply, h]
  by_cases hr : r.ordinal = u.ordinal
  · simp [hr]
  · simp [hr]

/-- Two tables that the next update of the ordinal makes equal. -/
def SameBut (o : ℕ) (t t' : ItemTable) : Prop :=
  ∀ u : ItemUpdate, u.ordinal = o → t.updateItem u = t'.updateItem u

theorem sameBut_refl (o : ℕ) (t : ItemTable) : SameBut o t t := fun _ _ => rfl

/-- A mark on the item does not matter. -/
theorem SameBut.updateItem {o : ℕ} {t t' : ItemTable} (h : SameBut o t t') {v : ItemUpdate}
    (hv : v.ordinal = o) : SameBut o (t.updateItem v) t' := by
  intro u hu
  rw [updateItem_updateItem t (hv.trans hu.symm)]
  exact h u hu

/-! ## Updates of different ordinals -/

theorem updateItem_comm (t : ItemTable) {u v : ItemUpdate} (h : u.ordinal ≠ v.ordinal) :
    (t.updateItem u).updateItem v = (t.updateItem v).updateItem u := by
  refine eq_of_rows ?_
  simp only [updateItem, modifyAt, List.map_map]
  refine List.map_congr_left fun r _ => ?_
  simp only [Function.comp_apply]
  by_cases hu : r.ordinal = u.ordinal
  · have hv : r.ordinal ≠ v.ordinal := fun hv => h (hu.symm.trans hv)
    simp [hu, h]
  · by_cases hv : r.ordinal = v.ordinal
    · simp [hv, h.symm]
    · simp [hu, hv]

theorem updateItems_updateItem (t : ItemTable) {us : List ItemUpdate} {v : ItemUpdate}
    (h : v.ordinal ∉ us.map ItemUpdate.ordinal) :
    (t.updateItems us).updateItem v = (t.updateItem v).updateItems us := by
  induction us generalizing t with
  | nil => rfl
  | cons u us ih =>
      rw [List.map_cons, List.mem_cons, not_or] at h
      refine (ih (t.updateItem u) h.2).trans ?_
      rw [updateItem_comm t fun heq => h.1 heq.symm]
      rfl

end ItemTable

/-! ## The fate of a job -/

/-- The state of a job and the outcomes of its items. -/
structure Fate where
  state : JobState
  items : ItemTable

/-- The fate that the row shows. -/
def Job.fate (job : Job) : Fate := ⟨job.state, job.items.forget⟩

/-- What a write does to it. -/
def Fate.apply (f : Fate) : JobWrite → Fate
  | .setState state _ _ _ => { f with state := state }
  | .updateItems us _ => { f with items := f.items.updateItems us }
  | .markRetry o n code text _ => { f with items := f.items.updateItem ⟨o, .retry, n, code, text⟩ }
  | .event _ _ _ _ => f

theorem fate_apply (job : Job) (w : JobWrite) : (job.apply w).fate = job.fate.apply w := by
  cases w with
  | setState state wait c clear => rfl
  | updateItems us c => exact congrArg (Fate.mk job.state) (ItemTable.forget_updateItems _ us)
  | markRetry o n code text nextAt =>
      exact congrArg (Fate.mk job.state) (ItemTable.forget_markRetry _ o n code text nextAt)
  | event level code message member => rfl

/-- The ordinals of the items that a write updates. -/
def JobWrite.ordinals : JobWrite → List ℕ
  | .updateItems us _ => us.map ItemUpdate.ordinal
  | .markRetry o _ _ _ _ => [o]
  | _ => []

/-- A critical write and the results in a buffer come in any order, when they are about different
items. -/
theorem Fate.apply_updateItems (f : Fate) {w : JobWrite} (hw : w.critical = true)
    {us : List ItemUpdate} (h : ∀ o ∈ w.ordinals, o ∉ us.map ItemUpdate.ordinal) :
    Fate.apply { f with items := f.items.updateItems us } w =
      { f.apply w with items := (f.apply w).items.updateItems us } := by
  cases w with
  | updateItems vs c => exact absurd hw (by simp [JobWrite.critical])
  | markRetry o n code text nextAt =>
      have hone := ItemTable.updateItems_updateItem f.items
        (v := ⟨o, .retry, n, code, text⟩) (h o (List.mem_singleton.mpr rfl))
      exact congrArg (Fate.mk f.state) hone
  | setState state wait c clear => rfl
  | event level code message member => rfl

/-- A row that a write does not update was there before it. -/
theorem mem_rows_apply {job : Job} {w : JobWrite} {r : Item} (hr : r ∈ (job.apply w).items.rows)
    (ho : r.ordinal ∉ w.ordinals) : r ∈ job.items.rows := by
  cases w with
  | setState state wait c clear => exact hr
  | event level code message member => exact hr
  | markRetry o n code text nextAt =>
      have hmem : r ∈ (job.items.markRetry o n code text nextAt).rows := hr
      rw [ItemTable.markRetry, ItemTable.mem_modifyAt] at hmem
      rcases hmem with ⟨hold, -⟩ | ⟨q, -, hq, rfl⟩
      · exact hold
      · exact absurd (List.mem_singleton.mpr hq) ho
  | updateItems us c =>
      have hall : ∀ (us : List ItemUpdate) (t : ItemTable), r ∈ (t.updateItems us).rows →
          r.ordinal ∉ us.map ItemUpdate.ordinal → r ∈ t.rows := by
        intro us
        induction us with
        | nil => exact fun t hmem _ => hmem
        | cons u us ih =>
            intro t hmem hnot
            rw [List.map_cons, List.mem_cons, not_or] at hnot
            have hone := ih (t.updateItem u) hmem hnot.2
            rw [ItemTable.updateItem, ItemTable.mem_modifyAt] at hone
            rcases hone with ⟨hold, -⟩ | ⟨q, -, hq, rfl⟩
            · exact hold
            · exact absurd hq hnot.1
      exact hall us job.items hr ho

/-- A write that fits is about pending items. -/
theorem Consumes.mem_of_mem_ordinals {w : JobWrite} {p q : List ℕ} (h : Consumes w p q) {o : ℕ}
    (ho : o ∈ w.ordinals) : o ∈ p := by
  cases w with
  | updateItems us c =>
      obtain ⟨-, -, hpending, -⟩ := h
      rw [hpending]
      exact List.mem_append_left _ ho
  | markRetry o' n code text nextAt =>
      obtain rfl := List.mem_singleton.mp ho
      exact h.1
  | setState state wait c clear => exact absurd ho (by simp [JobWrite.ordinals])
  | event level code message member => exact absurd ho (by simp [JobWrite.ordinals])

/-- The count of the failed items is right. -/
def FailedRight (job : Job) : Prop := job.counters.failed = job.items.count .failed

theorem Consumes.failedRight {w : JobWrite} {job : Job} {q : List ℕ}
    (h : Consumes w job.pending q) (hright : FailedRight job) : FailedRight (job.apply w) := by
  cases w with
  | updateItems us c => rfl
  | markRetry o n code text nextAt =>
      exact hright.trans (ItemTable.count_markRetry h.1 rfl).symm
  | setState state wait c clear => exact hright
  | event level code message member => exact hright

end Jobs
end MigrationStudio
