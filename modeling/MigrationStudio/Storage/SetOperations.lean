import MigrationStudio.Datasets.Provenance
import MigrationStudio.Storage.MemberStore

/-!
# `combine` and set algebra

The engines of `datasets/` are the set operations on collections of member ids; `combine` is a
select over `dataset_members`.

* `union`, `intersection`, `difference`: the engines.
* `CombinesExactly`: `combine` does to the tables what the engine of its operation says.
* `toFinset_selectIds_iff`: when the select of an operation is its engine.
* `combine_exact_iff`: the datasets and operations for which `combine` is exact, after any run.
-/

namespace MigrationStudio
namespace Storage

open Foundations MigrationStudio.Core Members

/-! ## The engines -/

section Engines

variable {T : Type*} [DecidableEq T]

def union (a b : List T) : Finset T := a.toFinset ∪ b.toFinset

def intersection (a b : List T) : Finset T := a.toFinset ∩ b.toFinset

def difference (a b : List T) : Finset T := a.toFinset \ b.toFinset

/-- The engine of an operation. -/
def engine : SetOperation → List T → List T → Finset T
  | .union => union
  | .intersection => intersection
  | .difference => difference

theorem mem_engine {op : SetOperation} {a b : List T} {x : T} : x ∈ engine op a b ↔
    match op with
    | .union => x ∈ a ∨ x ∈ b
    | .intersection => x ∈ a ∧ x ∈ b
    | .difference => x ∈ a ∧ x ∉ b := by
  cases op with
  | union => simp [engine, union]
  | intersection => simp [engine, intersection]
  | difference => simp [engine, difference]

end Engines

namespace MemberStore

variable {t t' : MemberTables} {a b d new : DatasetId} {op : SetOperation}

/-! ## The selects -/

/-- `combine` commits a dataset that is new, whose members are those of the engine, each once, whose
`member_count` is their number, and leaves the rows of every other dataset. -/
def CombinesExactly (t : MemberTables) (a b : DatasetId) (op : SetOperation) : Prop :=
  ∃ new t', t.combine a b op = .ok (new, t') ∧ t.hasDataset new = false ∧
    (t'.memberIds new).Nodup ∧
    (t'.memberIds new).toFinset = engine op (t.memberIds a) (t.memberIds b) ∧
    t'.datasets[new]? = some ⟨(engine op (t.memberIds a) (t.memberIds b)).card⟩ ∧
    ∀ d, d ≠ new → (t'.memberships.filter fun r => r.datasetId = d) =
      t.memberships.filter fun r => r.datasetId = d

/-- The select of an operation is its engine, but for the intersection of a dataset with itself,
where the select finds no two datasets. -/
theorem toFinset_selectIds_iff : (t.selectIds a b op).toFinset =
      engine op (t.memberIds a) (t.memberIds b) ↔
    op ≠ .intersection ∨ a ≠ b ∨ t.memberIds a = [] := by
  cases op with
  | union =>
      refine iff_of_true ?_ (Or.inl (by decide))
      ext m
      rw [List.mem_toFinset, MemberTables.mem_selectIds, mem_engine]
      simp only [MemberTables.mem_memberIds]
  | difference =>
      refine iff_of_true ?_ (Or.inl (by decide))
      ext m
      rw [List.mem_toFinset, MemberTables.mem_selectIds, mem_engine]
      simp only [MemberTables.mem_memberIds]
  | intersection =>
      have hmem : ∀ m, m ∈ (t.selectIds a b .intersection).toFinset ↔
          a ≠ b ∧ m ∈ t.memberIds a ∧ m ∈ t.memberIds b := by
        intro m
        rw [List.mem_toFinset, MemberTables.mem_selectIds]
        simp only [MemberTables.mem_memberIds]
      rw [or_iff_right (fun hne => hne rfl)]
      constructor
      · intro heq
        by_cases hab : a = b
        · refine Or.inr (List.eq_nil_iff_forall_not_mem.mpr fun m hm => ?_)
          have hin : m ∈ engine .intersection (t.memberIds a) (t.memberIds b) :=
            mem_engine.mpr ⟨hm, hab ▸ hm⟩
          rw [← heq] at hin
          exact ((hmem m).mp hin).1 hab
        · exact Or.inl hab
      · rintro (hab | hnil)
        · ext m
          rw [hmem, mem_engine]
          exact and_iff_right hab
        · ext m
          rw [hmem, mem_engine, hnil]
          simp

/-! ## Exact combinations -/

/-- The rows of a dataset after a combination: the new one has those of the select. -/
theorem filter_combine (h : t.Sound) (hrun : t.combine a b op = .ok (new, t')) :
    (t'.memberships.filter fun r => r.datasetId = d) =
      (t.memberships.filter fun r => r.datasetId = d) ++
        if d = new then (t.selectIds a b op).map fun m => (⟨new, m, none⟩ : Membership)
        else [] := by
  obtain ⟨-, -, -, -, hms, -⟩ := h.combine_ok hrun
  rw [hms, List.filter_append]
  refine congrArg _ ?_
  split_ifs with hd
  · rw [List.filter_eq_self]
    intro r hr
    obtain ⟨m, -, rfl⟩ := List.mem_map.mp hr
    exact decide_eq_true hd.symm
  · rw [List.filter_eq_nil_iff]
    intro r hr
    obtain ⟨m, -, rfl⟩ := List.mem_map.mp hr
    simpa using fun heq => hd heq.symm

/-- The members of the new dataset are those of the select. -/
theorem memberIds_combine (h : t.Sound) (hrun : t.combine a b op = .ok (new, t')) :
    t'.memberIds new = t.selectIds a b op := by
  have hnone : (t.memberships.filter fun r => r.datasetId = new) = [] := by
    rw [List.filter_eq_nil_iff]
    intro r hr
    have hlt : r.datasetId < t.datasets.length := of_decide_eq_true (h.membershipRefs r hr).1
    rw [(h.combine_ok hrun).1]
    simpa using Nat.ne_of_lt hlt
  show (t'.memberships.filter fun r => r.datasetId = new).map Membership.memberId = _
  rw [filter_combine h hrun, hnone, List.nil_append, if_pos rfl, List.map_map]
  exact List.map_id _

/-- **Exact combinations.**  In the state after any run and for any two dataset ids, `combine`
does what the engine of its operation says if and only if it does not intersect a dataset that has
members with itself. -/
theorem combine_exact_iff {pyLower : String → String} {ls : List StoreLabel} {s : MemberStore}
    (hrun : runLabels (step pyLower) start ls = some s) (a b : DatasetId) (op : SetOperation) :
    CombinesExactly s.tables a b op ↔
      op ≠ .intersection ∨ a ≠ b ∨ s.tables.memberIds a = [] := by
  have h := (good_of_run good_start hrun).1.sound
  rw [← toFinset_selectIds_iff]
  constructor
  · rintro ⟨new, t', hok, -, -, hmembers, -⟩
    rwa [memberIds_combine h hok] at hmembers
  · intro hsel
    obtain ⟨⟨new, t'⟩, hok⟩ := h.combine_commits a b op
    obtain ⟨hnew, -, -, -, -, hds⟩ := h.combine_ok hok
    refine ⟨new, t', hok, ?_, ?_, ?_, ?_, fun d hd => ?_⟩
    · exact decide_eq_false (hnew ▸ Nat.lt_irrefl _)
    · rw [memberIds_combine h hok]
      exact h.nodup_selectIds
    · rw [memberIds_combine h hok]
      exact hsel
    · have hcard : (engine op (s.tables.memberIds a) (s.tables.memberIds b)).card =
          (s.tables.selectIds a b op).length := by
        rw [← hsel, List.toFinset_card_of_nodup h.nodup_selectIds]
      rw [hcard, hds, hnew, List.getElem?_concat_length]
    · rw [filter_combine h hok, if_neg hd, List.append_nil]

/-- Two datasets with one member in common. -/
def sharedMember : List StoreLabel :=
  [.createDataset, .createDataset,
    .ingest { datasetId := 0 } [{ telegramUserId := some 5 }, { telegramUserId := some 6 }],
    .ingest { datasetId := 1 } [{ telegramUserId := some 6 }]]

theorem combine_exact_shared :
    ∃ s, runLabels (step id) start sharedMember = some s ∧
      CombinesExactly s.tables 0 1 .intersection := by
  have hsome : (runLabels (step id) start sharedMember).isSome = true := by decide +kernel
  obtain ⟨s, hs⟩ := Option.isSome_iff_exists.mp hsome
  exact ⟨s, hs, (combine_exact_iff hs 0 1 .intersection).mpr (Or.inr (Or.inl (by decide)))⟩

/-- The intersection of the first of them with itself is an empty dataset. -/
theorem combine_with_itself :
    ∃ s, runLabels (step id) start sharedMember = some s ∧ s.tables.memberIds 0 = [1, 2] ∧
      (s.tables.combine 0 0 .intersection).toOption.map (fun p => p.2.memberIds p.1) = some [] ∧
      ¬ CombinesExactly s.tables 0 0 .intersection := by
  have hboth : (runLabels (step id) start sharedMember).map (fun s => (s.tables.memberIds 0,
      (s.tables.combine 0 0 .intersection).toOption.map fun p => p.2.memberIds p.1)) =
      some ([1, 2], some []) := by decide +kernel
  obtain ⟨s, hs, hpair⟩ := Option.map_eq_some_iff.mp hboth
  obtain ⟨hids, hnone⟩ := Prod.mk.inj hpair
  refine ⟨s, hs, hids, hnone, ?_⟩
  rintro ⟨new, t', hok, -, -, hmembers, -⟩
  rw [hok] at hnone
  have hnil : t'.memberIds new = [] := Option.some.inj hnone
  rw [hnil, hids] at hmembers
  exact absurd hmembers (by decide)

end MemberStore
end Storage
end MigrationStudio
