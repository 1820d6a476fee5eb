import Mathlib.Data.List.Basic
import Mathlib.Order.Defs.LinearOrder
import MigrationStudio.Core.Enums

/-!
# `migration_items`

The items of one job are the rows of `migration_items` with its id.  The table has primary key
`(job_id, ordinal)` and is read in the order of the ordinals, so the items of a job are a list
with strictly increasing ordinals, and the structure `ItemTable` carries that fact.

* `ItemTable.updateItem`, `ItemTable.markRetry`: the two `UPDATE` statements.
* `ItemTable.pendingOrdinals`: the ordinals that are READY or RETRY, on which everything the
  executor promises is stated.
* `ItemTable.count`: `SUM(state=...)` over the job's items.
-/

namespace MigrationStudio
namespace Jobs

open MigrationStudio.Core

/-- A row of `migration_items`, without its job id, the target state that only reports read and
its timestamps. -/
structure Item where
  ordinal : ℕ
  memberId : MemberId
  state : MigrationItemState
  attemptCount : ℕ
  lastErrorCode : Option InviteResultCode
  lastErrorText : Option String
  nextRetryAt : Option ℕ
  deriving DecidableEq, Repr

/-- What `_attempt` returns for a candidate. -/
structure ItemUpdate where
  ordinal : ℕ
  state : MigrationItemState
  attempts : ℕ
  errorCode : Option InviteResultCode := none
  errorText : Option String := none
  deriving DecidableEq, Repr

/-- The items of a job, by increasing ordinal. -/
structure ItemTable where
  rows : List Item
  sorted : rows.Pairwise fun a b => a.ordinal < b.ordinal

namespace ItemTable

/-- `UPDATE migration_items SET ... WHERE job_id=? AND ordinal=?`. -/
def modifyAt (t : ItemTable) (ordinal : ℕ) (f : Item → Item)
    (hf : ∀ r, (f r).ordinal = r.ordinal) : ItemTable where
  rows := t.rows.map fun r => if r.ordinal = ordinal then f r else r
  sorted := by
    have hord : ∀ r : Item, (if r.ordinal = ordinal then f r else r).ordinal = r.ordinal := by
      intro r
      split
      · exact hf r
      · rfl
    rw [List.pairwise_map]
    exact t.sorted.imp fun {a b} h => by rw [hord, hord]; exact h

/-- The statement of `submit_update_items_batch` for one update. -/
def updateItem (t : ItemTable) (u : ItemUpdate) : ItemTable :=
  t.modifyAt u.ordinal
    (fun r =>
      { r with
        state := u.state
        attemptCount := u.attempts
        lastErrorCode := u.errorCode
        lastErrorText := u.errorText })
    fun _ => rfl

/-- The loop of `submit_update_items_batch`. -/
def updateItems (t : ItemTable) (us : List ItemUpdate) : ItemTable := us.foldl updateItem t

/-- The statement of `submit_mark_retry`. -/
def markRetry (t : ItemTable) (ordinal attempts : ℕ) (code : Option InviteResultCode)
    (text : Option String) (nextRetryAt : Option ℕ) : ItemTable :=
  t.modifyAt ordinal
    (fun r =>
      { r with
        state := .retry
        attemptCount := attempts
        lastErrorCode := code
        lastErrorText := text
        nextRetryAt := nextRetryAt })
    fun _ => rfl

/-- `SUM(state=?)`. -/
def count (t : ItemTable) (state : MigrationItemState) : ℕ :=
  t.rows.countP fun r => r.state = state

/-- The rows that are READY or RETRY. -/
def pendingRows (t : ItemTable) : List Item := t.rows.filter fun r => r.state.pending

/-- The ordinals of the items that are READY or RETRY. -/
def pendingOrdinals (t : ItemTable) : List ℕ := t.pendingRows.map Item.ordinal

/-- An item in SUCCESS, SKIPPED or FAILED with this ordinal. -/
def Terminal (t : ItemTable) (r : Item) : Prop := r ∈ t.rows ∧ r.state.pending = false

/-- The update is in the table: the item of its ordinal has its state, attempts and error. -/
def Holds (t : ItemTable) (u : ItemUpdate) : Prop :=
  ∃ r ∈ t.rows, r.ordinal = u.ordinal ∧ r.state = u.state ∧ r.attemptCount = u.attempts ∧
    r.lastErrorCode = u.errorCode ∧ r.lastErrorText = u.errorText

/-! ## Ordinals -/

theorem pairwise_pendingRows (t : ItemTable) :
    t.pendingRows.Pairwise fun a b => a.ordinal < b.ordinal :=
  t.sorted.sublist List.filter_sublist

theorem pairwise_pendingOrdinals (t : ItemTable) : t.pendingOrdinals.Pairwise (· < ·) :=
  List.pairwise_map.mpr t.pairwise_pendingRows

theorem nodup_pendingOrdinals (t : ItemTable) : t.pendingOrdinals.Nodup :=
  t.pairwise_pendingOrdinals.imp fun h => Nat.ne_of_lt h

theorem mem_pendingOrdinals {t : ItemTable} {o : ℕ} :
    o ∈ t.pendingOrdinals ↔ ∃ r ∈ t.rows, r.state.pending = true ∧ r.ordinal = o := by
  simp only [pendingOrdinals, pendingRows, List.mem_map, List.mem_filter, and_assoc]

/-- Two rows of one ordinal are the same row. -/
theorem row_unique {t : ItemTable} {r r' : Item} (hr : r ∈ t.rows) (hr' : r' ∈ t.rows)
    (h : r.ordinal = r'.ordinal) : r = r' := by
  by_contra hne
  rcases List.mem_iff_getElem.mp hr with ⟨i, hi, rfl⟩
  rcases List.mem_iff_getElem.mp hr' with ⟨k, hk, rfl⟩
  rcases Nat.lt_trichotomy i k with hlt | rfl | hlt
  · exact absurd h (Nat.ne_of_lt (List.pairwise_iff_getElem.mp t.sorted i k hi hk hlt))
  · exact hne rfl
  · exact absurd h.symm (Nat.ne_of_lt (List.pairwise_iff_getElem.mp t.sorted k i hk hi hlt))

/-- A row whose ordinal is not pending is terminal. -/
theorem pending_eq_false_of_not_mem {t : ItemTable} {r : Item} (hr : r ∈ t.rows)
    (h : r.ordinal ∉ t.pendingOrdinals) : r.state.pending = false := by
  by_contra hp
  exact h (mem_pendingOrdinals.mpr ⟨r, hr, by simpa using hp, rfl⟩)

/-! ## What the two statements change -/

theorem mem_modifyAt {t : ItemTable} {o : ℕ} {f : Item → Item}
    {hf : ∀ r, (f r).ordinal = r.ordinal} {r' : Item} :
    r' ∈ (t.modifyAt o f hf).rows ↔
      (r' ∈ t.rows ∧ r'.ordinal ≠ o) ∨ ∃ r ∈ t.rows, r.ordinal = o ∧ f r = r' := by
  simp only [modifyAt, List.mem_map]
  constructor
  · rintro ⟨r, hr, rfl⟩
    split
    · rename_i ho
      exact Or.inr ⟨r, hr, ho, rfl⟩
    · rename_i ho
      exact Or.inl ⟨hr, ho⟩
  · rintro (⟨hr, ho⟩ | ⟨r, hr, ho, rfl⟩)
    · exact ⟨r', hr, by rw [if_neg ho]⟩
    · exact ⟨r, hr, by rw [if_pos ho]⟩

theorem length_modifyAt (t : ItemTable) (o : ℕ) (f : Item → Item)
    (hf : ∀ r, (f r).ordinal = r.ordinal) : (t.modifyAt o f hf).rows.length = t.rows.length :=
  List.length_map _

/-- An update that keeps every row pending or not keeps the pending ordinals. -/
theorem pendingOrdinals_modifyAt_of_pending {t : ItemTable} {o : ℕ} {f : Item → Item}
    {hf : ∀ r, (f r).ordinal = r.ordinal} (ho : o ∈ t.pendingOrdinals)
    (hp : ∀ r, (f r).state.pending = true) :
    (t.modifyAt o f hf).pendingOrdinals = t.pendingOrdinals := by
  have hsame : ∀ r ∈ t.rows,
      (if r.ordinal = o then f r else r).state.pending = r.state.pending := by
    intro r hr
    split
    · rename_i hro
      obtain ⟨q, hq, hqp, rfl⟩ := mem_pendingOrdinals.mp ho
      rw [row_unique hr hq hro, hqp, hp]
    · rfl
  simp only [pendingOrdinals, pendingRows, modifyAt, List.filter_map, List.map_map]
  rw [List.filter_congr fun r hr => by simpa using hsame r hr]
  refine List.map_congr_left fun r _ => ?_
  simp only [Function.comp_apply]
  split
  · exact hf r
  · rfl

/-- An ordinal stays pending when another row is updated, or its own row stays pending. -/
theorem mem_pendingOrdinals_modifyAt {t : ItemTable} {o p : ℕ} {f : Item → Item}
    {hf : ∀ r, (f r).ordinal = r.ordinal} (hp : p ∈ t.pendingOrdinals)
    (hstate : o = p → ∀ r, (f r).state.pending = true) :
    p ∈ (t.modifyAt o f hf).pendingOrdinals := by
  obtain ⟨r, hr, hpending, hord⟩ := mem_pendingOrdinals.mp hp
  refine mem_pendingOrdinals.mpr ?_
  by_cases ho : r.ordinal = o
  · exact ⟨f r, mem_modifyAt.mpr (Or.inr ⟨r, hr, ho, rfl⟩), hstate (ho.symm.trans hord) r,
      (hf r).trans hord⟩
  · exact ⟨r, mem_modifyAt.mpr (Or.inl ⟨hr, ho⟩), hpending, hord⟩

theorem mem_pendingOrdinals_updateItems {t : ItemTable} {us : List ItemUpdate} {p : ℕ}
    (hp : p ∈ t.pendingOrdinals) (hus : p ∉ us.map ItemUpdate.ordinal) :
    p ∈ (t.updateItems us).pendingOrdinals := by
  induction us generalizing t with
  | nil => exact hp
  | cons u us ih =>
      rw [List.map_cons, List.mem_cons, not_or] at hus
      have hone : p ∈ (t.updateItem u).pendingOrdinals :=
        mem_pendingOrdinals_modifyAt hp fun heq => absurd heq.symm hus.1
      exact ih hone hus.2

@[simp] theorem pendingOrdinals_markRetry {t : ItemTable} {o n : ℕ}
    {code : Option InviteResultCode} {text : Option String} {at' : Option ℕ}
    (ho : o ∈ t.pendingOrdinals) :
    (t.markRetry o n code text at').pendingOrdinals = t.pendingOrdinals :=
  pendingOrdinals_modifyAt_of_pending ho fun _ => rfl

/-- A final update takes its ordinal out of the pending ones. -/
theorem pendingOrdinals_updateItem {t : ItemTable} {u : ItemUpdate}
    (hu : u.state.pending = false) :
    (t.updateItem u).pendingOrdinals = t.pendingOrdinals.filter fun o => o ≠ u.ordinal := by
  simp only [pendingOrdinals, pendingRows, updateItem, modifyAt]
  induction t.rows with
  | nil => rfl
  | cons r rows ih =>
      rw [List.map_cons]
      by_cases ho : r.ordinal = u.ordinal
      · cases hp : r.state.pending <;> simp [ho, hu, hp, ih]
      · cases hp : r.state.pending <;> simp [ho, hp, ih]

/-- A final update of the first pending ordinal leaves the others. -/
theorem pendingOrdinals_updateItem_of_cons {t : ItemTable} {u : ItemUpdate} {rest : List ℕ}
    (hu : u.state.pending = false) (h : t.pendingOrdinals = u.ordinal :: rest) :
    (t.updateItem u).pendingOrdinals = rest := by
  have hnd := t.nodup_pendingOrdinals
  rw [h, List.nodup_cons] at hnd
  rw [pendingOrdinals_updateItem hu, h, List.filter_cons_of_neg (by simp), List.filter_eq_self]
  intro o ho
  simpa using fun heq : o = u.ordinal => hnd.1 (heq ▸ ho)

/-- Final updates of the first pending ordinals leave the others. -/
theorem pendingOrdinals_updateItems {t : ItemTable} {us : List ItemUpdate} {rest : List ℕ}
    (hus : ∀ u ∈ us, u.state.pending = false)
    (h : t.pendingOrdinals = us.map ItemUpdate.ordinal ++ rest) :
    (t.updateItems us).pendingOrdinals = rest := by
  induction us generalizing t with
  | nil => exact h
  | cons u us ih =>
      have hone : (t.updateItem u).pendingOrdinals = us.map ItemUpdate.ordinal ++ rest :=
        pendingOrdinals_updateItem_of_cons (hus u (List.mem_cons_self ..)) h
      exact ih (fun v hv => hus v (List.mem_cons_of_mem _ hv)) hone

/-- A terminal row stays as it is when a pending ordinal is updated. -/
theorem Terminal.modifyAt {t : ItemTable} {r : Item} (h : t.Terminal r) {o : ℕ} {f : Item → Item}
    {hf : ∀ r, (f r).ordinal = r.ordinal} (ho : o ∈ t.pendingOrdinals) :
    (t.modifyAt o f hf).Terminal r := by
  refine ⟨mem_modifyAt.mpr (Or.inl ⟨h.1, fun hro => ?_⟩), h.2⟩
  obtain ⟨q, hq, hqp, hqo⟩ := mem_pendingOrdinals.mp ho
  rw [row_unique hq h.1 (hqo.trans hro.symm), h.2] at hqp
  exact Bool.noConfusion hqp

theorem Terminal.markRetry {t : ItemTable} {r : Item} (h : t.Terminal r) {o n : ℕ}
    {code : Option InviteResultCode} {text : Option String} {at' : Option ℕ}
    (ho : o ∈ t.pendingOrdinals) : (t.markRetry o n code text at').Terminal r :=
  h.modifyAt ho

theorem Terminal.updateItems {t : ItemTable} {r : Item} (h : t.Terminal r)
    {us : List ItemUpdate} {rest : List ℕ} (hus : ∀ u ∈ us, u.state.pending = false)
    (hpend : t.pendingOrdinals = us.map ItemUpdate.ordinal ++ rest) :
    (t.updateItems us).Terminal r := by
  induction us generalizing t with
  | nil => exact h
  | cons u us ih =>
      have hmem : u.ordinal ∈ t.pendingOrdinals := by
        rw [hpend]
        exact List.mem_append_left _ (List.mem_cons_self ..)
      have hone : (t.updateItem u).pendingOrdinals = us.map ItemUpdate.ordinal ++ rest :=
        pendingOrdinals_updateItem_of_cons (hus u (List.mem_cons_self ..)) hpend
      exact ih (h.modifyAt hmem) (fun v hv => hus v (List.mem_cons_of_mem _ hv)) hone

theorem Holds.terminal {t : ItemTable} {u : ItemUpdate} (h : t.Holds u)
    (hu : u.state.pending = false) : u.ordinal ∉ t.pendingOrdinals := by
  intro ho
  obtain ⟨r, hr, hro, hrs, -⟩ := h
  obtain ⟨q, hq, hqp, hqo⟩ := mem_pendingOrdinals.mp ho
  rw [row_unique hq hr (hqo.trans hro.symm), hrs, hu] at hqp
  exact Bool.noConfusion hqp

/-- What is in the table stays there when other ordinals are updated. -/
theorem Holds.modifyAt {t : ItemTable} {u : ItemUpdate} (h : t.Holds u) {o : ℕ}
    {f : Item → Item} {hf : ∀ r, (f r).ordinal = r.ordinal} (ho : u.ordinal ≠ o) :
    (t.modifyAt o f hf).Holds u := by
  obtain ⟨r, hr, hro, hrest⟩ := h
  exact ⟨r, mem_modifyAt.mpr (Or.inl ⟨hr, fun heq => ho (hro ▸ heq)⟩), hro, hrest⟩

/-- An update of an existing ordinal is in the table. -/
theorem holds_updateItem {t : ItemTable} {u : ItemUpdate} (h : u.ordinal ∈ t.pendingOrdinals) :
    (t.updateItem u).Holds u := by
  obtain ⟨r, hr, -, hro⟩ := mem_pendingOrdinals.mp h
  exact ⟨_, mem_modifyAt.mpr (Or.inr ⟨r, hr, hro, rfl⟩), hro, rfl, rfl, rfl, rfl⟩

/-- A batch of final updates of the first pending ordinals: afterwards each of them is in the
table, and so is what was there before. -/
theorem holds_updateItems {t : ItemTable} {us : List ItemUpdate} {rest : List ℕ}
    (hus : ∀ u ∈ us, u.state.pending = false)
    (hpend : t.pendingOrdinals = us.map ItemUpdate.ordinal ++ rest) {u : ItemUpdate}
    (hu : u.state.pending = false) (h : u ∈ us ∨ t.Holds u) : (t.updateItems us).Holds u := by
  induction us generalizing t with
  | nil => exact h.resolve_left (by simp)
  | cons v us ih =>
      have hv : v.ordinal ∈ t.pendingOrdinals := by
        rw [hpend]
        exact List.mem_append_left _ (List.mem_cons_self ..)
      have hone : (t.updateItem v).pendingOrdinals = us.map ItemUpdate.ordinal ++ rest :=
        pendingOrdinals_updateItem_of_cons (hus v (List.mem_cons_self ..)) hpend
      refine ih (fun w hw => hus w (List.mem_cons_of_mem _ hw)) hone ?_
      rcases h with h | h
      · rcases List.mem_cons.mp h with rfl | h
        · exact Or.inr (holds_updateItem hv)
        · exact Or.inl h
      · exact Or.inr (h.modifyAt fun heq => h.terminal hu (heq ▸ hv))

/-! ## Counts -/

/-- A row that stays out of the states that are counted changes no count. -/
theorem count_markRetry {t : ItemTable} {o n : ℕ} {code : Option InviteResultCode}
    {text : Option String} {at' : Option ℕ} (ho : o ∈ t.pendingOrdinals)
    {state : MigrationItemState} (hs : state.pending = false) :
    (t.markRetry o n code text at').count state = t.count state := by
  simp only [count, markRetry, modifyAt, List.countP_map]
  refine List.countP_congr fun r hr => ?_
  simp only [Function.comp_apply, decide_eq_true_eq]
  split
  · rename_i hro
    obtain ⟨q, hq, hqp, rfl⟩ := mem_pendingOrdinals.mp ho
    obtain rfl := row_unique hr hq hro
    constructor
    · rintro rfl
      exact absurd hs (by simp [MigrationItemState.pending])
    · rintro rfl
      rw [hs] at hqp
      exact Bool.noConfusion hqp
  · exact Iff.rfl

/-- Every item is counted once, or pending. -/
theorem count_add_pending (t : ItemTable) :
    t.count .success + t.count .skipped + t.count .failed + t.pendingOrdinals.length =
      t.rows.length := by
  rw [pendingOrdinals, pendingRows, List.length_map]
  simp only [count]
  induction t.rows with
  | nil => rfl
  | cons r rows ih =>
      simp only [List.countP_cons, List.filter_cons, List.length_cons]
      cases hr : r.state with
      | ready | retry =>
          have hp : r.state.pending = true := by rw [hr]; rfl
          simp only [← hr, hp, if_true, List.length_cons]
          simp [hr]
          omega
      | success | skipped | failed =>
          have hp : r.state.pending = false := by rw [hr]; rfl
          simp only [← hr, hp, Bool.false_eq_true, if_false]
          simp [hr]
          omega

theorem count_pos_iff {t : ItemTable} {state : MigrationItemState} :
    0 < t.count state ↔ ∃ r ∈ t.rows, r.state = state := by
  simp [count, List.countP_pos_iff]

end ItemTable

end Jobs
end MigrationStudio
