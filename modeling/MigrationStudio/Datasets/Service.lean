import Mathlib.Data.Finset.Card
import MigrationStudio.Members.Ingest

/-!
# `datasets/repository.py` and `datasets/service.py`

`DatasetRepository.create` adds an empty dataset; `DatasetService.combine` adds one that holds the
union, the intersection or the difference of two others, with the provenance of both.

* `createDataset`, `combine`: the operations.
* `combine_ok`: a combination that is committed leaves sound tables, a new dataset with the chosen
  members and the others as they were.
* `CountsRight`: `member_count` is the number of rows; `combine_countsRight`.
-/

namespace MigrationStudio
namespace Members

open Foundations MigrationStudio.Core

/-- The operation of `combine`. -/
inductive SetOperation where
  | union | intersection | difference
  deriving DecidableEq, Repr

namespace MemberTables

variable {t t' : MemberTables} {a b d : DatasetId} {op : SetOperation}

/-- `DatasetRepository.create`; the program creates datasets with the default `member_count`. -/
def createDataset (t : MemberTables) : MemberTables :=
  { t with datasets := t.datasets ++ [{}] }

/-- The ids of the members of a dataset, as a select returns them. -/
def memberIds (t : MemberTables) (d : DatasetId) : List MemberId :=
  (t.memberships.filter fun r => r.datasetId = d).map Membership.memberId

/-- The select of `combine`: the members in one of the two datasets, in two different ones of them,
or in the first but not in the second. -/
def selectIds (t : MemberTables) (a b : DatasetId) : SetOperation → List MemberId
  | .union =>
      ((t.memberships.filter fun r => r.datasetId = a ∨ r.datasetId = b).map
        Membership.memberId).dedup
  | .intersection =>
      ((t.memberships.filter fun r => r.datasetId = a ∨ r.datasetId = b).map
        Membership.memberId).dedup.filter fun m =>
          ((t.memberships.filter fun r => (r.datasetId = a ∨ r.datasetId = b) ∧ r.memberId = m).map
            Membership.datasetId).dedup.length = 2
  | .difference => (t.memberIds a).filter fun m => m ∉ t.memberIds b

/-- The provenance that `combine` adds for one of its sources. -/
def addSource (t : MemberTables) (new source : DatasetId) (label : String) :
    Except IntegrityError MemberTables :=
  ((t.memberIds source).map fun m =>
    (⟨new, m, some source, none, some label⟩ : Provenance)).foldlM insertProvenance t

/-- `tx` of `DatasetService.combine`. -/
def combine (t : MemberTables) (a b : DatasetId) (op : SetOperation) :
    Except IntegrityError (DatasetId × MemberTables) := do
  let new := t.datasets.length
  let ids := t.createDataset.selectIds a b op
  let t ← (ids.map fun m => (⟨new, m, none⟩ : Membership)).foldlM insertMembership t.createDataset
  let t ← t.addSource new a "A"
  let t ← t.addSource new b "B"
  pure (new, t.setMemberCount new ids.length)

/-! ## Inserting the rows of a select -/

theorem foldlM_insertMembership_ok {rs : List Membership}
    (h : rs.foldlM insertMembership t = .ok t') :
    t' = t.setMemberships (insertAll Membership.key t.memberships rs) ∧ (t.Sound → t'.Sound) := by
  induction rs generalizing t with
  | nil =>
      obtain rfl := Except.ok.inj h
      exact ⟨rfl, id⟩
  | cons r rs ih =>
      rw [List.foldlM_cons] at h
      cases hone : t.insertMembership r with
      | error e => simp [hone, bind, Except.bind] at h
      | ok t₁ =>
          simp only [hone, bind, Except.bind] at h
          obtain ⟨rfl, hsound⟩ := ih h
          refine ⟨?_, fun hs => hsound (hs.insertMembership hone)⟩
          obtain ⟨-, rfl⟩ := insertMembership_ok hone
          rfl

theorem foldlM_insertProvenance_ok {rs : List Provenance}
    (h : rs.foldlM insertProvenance t = .ok t') :
    t' = t.setProvenance (insertAll Provenance.key t.provenance rs) ∧ (t.Sound → t'.Sound) := by
  induction rs generalizing t with
  | nil =>
      obtain rfl := Except.ok.inj h
      exact ⟨rfl, id⟩
  | cons r rs ih =>
      rw [List.foldlM_cons] at h
      cases hone : t.insertProvenance r with
      | error e => simp [hone, bind, Except.bind] at h
      | ok t₁ =>
          simp only [hone, bind, Except.bind] at h
          obtain ⟨rfl, hsound⟩ := ih h
          refine ⟨?_, fun hs => hsound (hs.insertProvenance hone)⟩
          obtain ⟨-, rfl⟩ := insertProvenance_ok hone
          rfl

/-! ## A new dataset -/

theorem hasDataset_createDataset (h : t.hasDataset d = true) :
    t.createDataset.hasDataset d = true := by
  have hlt : d < t.datasets.length := of_decide_eq_true h
  refine decide_eq_true ?_
  simp only [createDataset, List.length_append, List.length_singleton]
  exact Nat.lt_succ_of_lt hlt

theorem Sound.createDataset (h : t.Sound) : t.createDataset.Sound :=
  { h with
    membershipRefs := fun r hr =>
      ⟨hasDataset_createDataset (h.membershipRefs r hr).1, (h.membershipRefs r hr).2⟩
    provenanceRefs := fun r hr => by
      obtain ⟨hd, hm, hs, hg⟩ := h.provenanceRefs r hr
      refine ⟨hasDataset_createDataset hd, hm, ?_, hg⟩
      rw [Option.all_eq_true] at hs ⊢
      exact fun s hs' => hasDataset_createDataset (hs s hs') }

theorem Sound.setMemberCount (h : t.Sound) (d : DatasetId) (n : ℕ) :
    (t.setMemberCount d n).Sound := by
  have hlen : ∀ k, (t.setMemberCount d n).hasDataset k = t.hasDataset k := by
    intro k
    unfold hasDataset MemberTables.setMemberCount
    rw [List.length_modify]
  refine { h with membershipRefs := fun r hr => ?_, provenanceRefs := fun r hr => ?_ }
  · rw [hlen]
    exact h.membershipRefs r hr
  · rw [hlen, show (t.setMemberCount d n).hasDataset = t.hasDataset from funext hlen]
    exact h.provenanceRefs r hr

theorem Sound.nodup_memberIds (h : t.Sound) (d : DatasetId) : (t.memberIds d).Nodup := by
  have hkeys := h.memberships.filter fun r => r.datasetId = d
  refine List.Nodup.of_map (fun m => (d, m)) ?_
  have hsame : (t.memberIds d).map (fun m => (d, m)) =
      (t.memberships.filter fun r => r.datasetId = d).map Membership.key := by
    unfold memberIds
    rw [List.map_map]
    refine List.map_congr_left fun r hr => ?_
    have hd : r.datasetId = d := by simpa using (List.mem_filter.mp hr).2
    rw [← hd]
    rfl
  exact hsame ▸ hkeys

theorem Sound.nodup_selectIds (h : t.Sound) : (t.selectIds a b op).Nodup := by
  cases op with
  | union => exact List.nodup_dedup _
  | intersection => exact (List.nodup_dedup _).filter _
  | difference => exact (h.nodup_memberIds a).filter _

theorem length_memberIds (t : MemberTables) (d : DatasetId) :
    (t.memberIds d).length = t.countMembers d := List.length_map _

theorem mem_memberIds {m : MemberId} : m ∈ t.memberIds d ↔ t.InDataset d m := by
  simp only [memberIds, InDataset, List.mem_map, List.mem_filter, Membership.key, Prod.mk.injEq,
    decide_eq_true_eq, and_assoc]

theorem addSource_ok {new source : DatasetId} {label : String}
    (h : t.addSource new source label = .ok t') :
    t' = t.setProvenance t'.provenance ∧ (t.Sound → t'.Sound) := by
  obtain ⟨heq, hsound⟩ := foldlM_insertProvenance_ok h
  refine ⟨?_, hsound⟩
  rw [heq]
  rfl

/-- **A combination that is committed**: the rows of the new dataset come behind the old ones. -/
theorem Sound.combine_ok (h : t.Sound) {new : DatasetId}
    (hrun : t.combine a b op = .ok (new, t')) :
    new = t.datasets.length ∧ t'.Sound ∧ t'.members = t.members ∧ t'.items = t.items ∧
      t'.memberships = t.memberships ++
        (t.selectIds a b op).map (fun m => (⟨new, m, none⟩ : Membership)) ∧
      t'.datasets = t.datasets ++ [⟨(t.selectIds a b op).length⟩] := by
  unfold combine at hrun
  have hnew := h.createDataset
  cases hms : ((t.createDataset.selectIds a b op).map fun m =>
      (⟨t.datasets.length, m, none⟩ : Membership)).foldlM MemberTables.insertMembership
        t.createDataset with
  | error e => simp [hms, bind, Except.bind] at hrun
  | ok t₁ =>
      obtain ⟨heq₁, hsound₁⟩ := foldlM_insertMembership_ok hms
      simp only [hms, bind, Except.bind] at hrun
      cases ha : t₁.addSource t.datasets.length a "A" with
      | error e => simp [ha] at hrun
      | ok t₂ =>
          obtain ⟨heq₂, hsound₂⟩ := addSource_ok ha
          simp only [ha] at hrun
          cases hb : t₂.addSource t.datasets.length b "B" with
          | error e => simp [hb] at hrun
          | ok t₃ =>
              obtain ⟨heq₃, hsound₃⟩ := addSource_ok hb
              simp only [hb] at hrun
              obtain ⟨rfl, rfl⟩ := Prod.mk.inj (Except.ok.inj hrun)
              have hkeys : UniqueKeys Membership.key (t.memberships ++
                  (t.selectIds a b op).map fun m =>
                    (⟨t.datasets.length, m, none⟩ : Membership)) := by
                rw [UniqueKeys, List.map_append, List.map_map]
                refine List.nodup_append.mpr ⟨h.memberships, ?_, ?_⟩
                · exact h.nodup_selectIds.map fun m m' heq => (Prod.mk.inj heq).2
                · rintro k hk k' hk' rfl
                  obtain ⟨r, hr, rfl⟩ := List.mem_map.mp hk
                  obtain ⟨m, -, heq⟩ := List.mem_map.mp hk'
                  have hlt : r.datasetId < t.datasets.length :=
                    of_decide_eq_true (h.membershipRefs r hr).1
                  exact absurd (Prod.mk.inj heq).1.symm (Nat.ne_of_lt hlt)
              refine ⟨rfl, (hsound₃ (hsound₂ (hsound₁ hnew))).setMemberCount _ _, ?_, ?_, ?_, ?_⟩
              · rw [heq₃, heq₂, heq₁]
                rfl
              · rw [heq₃, heq₂, heq₁]
                rfl
              · rw [heq₃, heq₂, heq₁]
                exact insertAll_eq_append hkeys
              · rw [heq₃, heq₂, heq₁]
                exact modify_length_append t.datasets ⟨0⟩ _

/-! ## `member_count` -/

/-- `member_count` of every dataset is the number of its rows. -/
def CountsRight (t : MemberTables) : Prop :=
  ∀ d row, t.datasets[d]? = some row → row.memberCount = t.countMembers d

theorem countMembers_of_length_le (h : t.Sound) (hd : t.datasets.length ≤ d) :
    t.countMembers d = 0 := by
  rw [countMembers, List.length_eq_zero_iff, List.filter_eq_nil_iff]
  intro r hr hrd
  have hlt : r.datasetId < t.datasets.length := of_decide_eq_true (h.membershipRefs r hr).1
  have heq : r.datasetId = d := by simpa using hrd
  exact absurd (heq ▸ hlt) (Nat.not_lt_of_le hd)

theorem getElem?_append_singleton {α : Type*} {l : List α} {x y : α} {n : ℕ}
    (h : (l ++ [x])[n]? = some y) : l[n]? = some y ∨ (n = l.length ∧ y = x) := by
  by_cases hlt : n < l.length
  · rw [List.getElem?_append_left hlt] at h
    exact Or.inl h
  · rw [List.getElem?_append_right (Nat.le_of_not_lt hlt), List.getElem?_singleton,
      ite_eq_iff] at h
    obtain ⟨hn, hx⟩ := h.resolve_right fun h => by simpa using h.2
    exact Or.inr ⟨Nat.le_antisymm (Nat.sub_eq_zero_iff_le.mp hn) (Nat.le_of_not_lt hlt),
      (Option.some.inj hx).symm⟩

theorem CountsRight.createDataset (hc : t.CountsRight) (h : t.Sound) :
    t.createDataset.CountsRight := by
  intro d row hrow
  rcases getElem?_append_singleton hrow with hrow | ⟨rfl, rfl⟩
  · exact hc d row hrow
  · exact (countMembers_of_length_le h (Nat.le_refl _)).symm

/-- **A combination keeps the counts right.** -/
theorem CountsRight.combine (hc : t.CountsRight) (h : t.Sound) {new : DatasetId}
    (hrun : t.combine a b op = .ok (new, t')) : t'.CountsRight := by
  obtain ⟨rfl, -, -, -, hms, hds⟩ := h.combine_ok hrun
  intro d row hrow
  rw [hds] at hrow
  have hcount : t'.countMembers d = t.countMembers d +
      if d = t.datasets.length then (t.selectIds a b op).length else 0 := by
    rw [countMembers, hms, List.filter_append, List.length_append]
    refine congrArg (t.countMembers d + ·) ?_
    split_ifs with hd
    · rw [List.filter_eq_self.mpr, List.length_map]
      intro r hr
      obtain ⟨m, -, rfl⟩ := List.mem_map.mp hr
      exact decide_eq_true hd.symm
    · rw [List.length_eq_zero_iff, List.filter_eq_nil_iff]
      intro r hr
      obtain ⟨m, -, rfl⟩ := List.mem_map.mp hr
      simpa using fun heq => hd heq.symm
  rcases getElem?_append_singleton hrow with hrow | ⟨rfl, rfl⟩
  · have hlt : d < t.datasets.length := (List.getElem?_eq_some_iff.mp hrow).1
    rw [hcount, if_neg (Nat.ne_of_lt hlt), Nat.add_zero]
    exact hc d row hrow
  · rw [hcount, if_pos rfl, countMembers_of_length_le h (Nat.le_refl _), Nat.zero_add]

/-! ## The counts after an ingest -/

/-- Two different members of the dataset are one person to the batch. -/
def Joins (t : MemberTables) (batch : List Member) (d : DatasetId) : Prop :=
  ∃ r ∈ t.members, ∃ q ∈ t.members, r ≠ q ∧ t.InDataset d r.id ∧ t.InDataset d q.id ∧
    (r.claimed batch).isSome ∧ r.claimed batch = q.claimed batch

/-- Two rows become one exactly when the batch takes them for one person. -/
theorem Settled.settle_eq_iff {t₀ : MemberTables} {ms : List Member} (hs : Settled t₀ ms t)
    (h₀ : t₀.Sound) (h : t.Sound) {r q : Row} (hr : r ∈ t₀.members) (hq : q ∈ t₀.members)
    (hne : r ≠ q) :
    t.settle ms r = t.settle ms q ↔
      (r.claimed ms).isSome ∧ r.claimed ms = q.claimed ms := by
  have hclaim : ∀ {r q : Row} {x : ℤ}, r ∈ t₀.members → q ∈ t₀.members → r.claimed ms = some x →
      q.claimed ms = none → t.settle ms r ≠ t.settle ms q := by
    intro r q x hr hq hrc hqc heq
    obtain ⟨r', hr', hx, -⟩ := hs.claimed r hr x hrc
    obtain ⟨q', hq', hqid, hident⟩ := hs.unclaimed q hq hqc
    rw [h.settle_of_claimed hr' hx hrc, settle_of_unclaimed hqc, ← hqid] at heq
    rw [← h.row_unique hr' hq' heq, Row.identity_of_some hx] at hident
    rw [Row.claimed, ← hident] at hqc
    exact absurd hqc (by simp)
  cases hrc : r.claimed ms with
  | none =>
      simp only [Option.isSome_none, Bool.false_eq_true, false_and, iff_false]
      cases hqc : q.claimed ms with
      | none =>
          rw [settle_of_unclaimed hrc, settle_of_unclaimed hqc]
          exact fun heq => hne (h₀.row_unique hr hq heq)
      | some x => exact fun heq => hclaim hq hr hqc hrc heq.symm
  | some x =>
      simp only [Option.isSome_some, true_and]
      cases hqc : q.claimed ms with
      | none => exact iff_of_false (hclaim hr hq hrc hqc) (by simp)
      | some y =>
          obtain ⟨r', hr', hx, -⟩ := hs.claimed r hr x hrc
          obtain ⟨q', hq', hy, -⟩ := hs.claimed q hq y hqc
          rw [h.settle_of_claimed hr' hx hrc, h.settle_of_claimed hq' hy hqc]
          constructor
          · intro heq
            rw [← hx, ← hy, h.row_unique hr' hq' heq]
          · intro heq
            rw [Option.some.injEq] at heq
            subst heq
            rw [h.identity_unique hr' hq'
              ((Row.identity_of_some hx).trans (Row.identity_of_some hy).symm)]

/-- A dataset other than that of the batch keeps its number of rows exactly when the batch takes no
two of its members for one person. -/
theorem Followed.count_eq_iff {into : IngestInto} {t₀ : MemberTables} {ms : List Member}
    (hf : Followed into t₀ ms t) (h₀ : t₀.Sound) (h : t.Sound) (hd : d ≠ into.datasetId) :
    t.countMembers d = t₀.countMembers d ↔ ¬ t₀.Joins ms d := by
  classical
  let φ : MemberId → MemberId := fun id =>
    (t₀.members.find? fun r => r.id = id).elim id (t.settle ms)
  have hφ : ∀ r ∈ t₀.members, φ r.id = t.settle ms r := by
    intro r hr
    simp only [φ, h₀.find?_row hr, Option.elim_some]
  have himage : (t.memberIds d).toFinset = (t₀.memberIds d).toFinset.image φ := by
    ext id
    rw [List.mem_toFinset, mem_memberIds, Finset.mem_image]
    constructor
    · intro hin
      obtain ⟨r, hr, hin₀, rfl⟩ := hf.others d hd id hin
      exact ⟨r.id, List.mem_toFinset.mpr (mem_memberIds.mpr hin₀), hφ r hr⟩
    · rintro ⟨id₀, hin, rfl⟩
      rw [List.mem_toFinset, mem_memberIds] at hin
      obtain ⟨r, hr, rfl⟩ := h₀.mem_of_inDataset hin
      rw [hφ r hr]
      exact hf.inDataset d r hr hin
  rw [← length_memberIds, ← length_memberIds,
    ← List.toFinset_card_of_nodup (h.nodup_memberIds d),
    ← List.toFinset_card_of_nodup (h₀.nodup_memberIds d), himage, Finset.card_image_iff]
  constructor
  · rintro hinj ⟨r, hr, q, hq, hne, hrin, hqin, hsome, heq⟩
    have hid : r.id = q.id := hinj (by simpa [mem_memberIds] using hrin)
      (by simpa [mem_memberIds] using hqin)
      (by rw [hφ r hr, hφ q hq]; exact (hf.settled.settle_eq_iff h₀ h hr hq hne).mpr ⟨hsome, heq⟩)
    exact hne (h₀.row_unique hr hq hid)
  · intro hno id hin id' hin' heq
    rw [List.coe_toFinset, Set.mem_ofPred_eq, mem_memberIds] at hin hin'
    obtain ⟨r, hr, rfl⟩ := h₀.mem_of_inDataset hin
    obtain ⟨q, hq, rfl⟩ := h₀.mem_of_inDataset hin'
    by_contra hne
    rw [hφ r hr, hφ q hq] at heq
    have hrq : r ≠ q := fun h => hne (congrArg Row.id h)
    obtain ⟨hsome, hsame⟩ := (hf.settled.settle_eq_iff h₀ h hr hq hrq).mp heq
    exact hno ⟨r, hr, q, hq, hrq, hin, hin', hsome, hsame⟩

theorem countMembers_setMemberCount (t : MemberTables) (d k : DatasetId) (n : ℕ) :
    (t.setMemberCount d n).countMembers k = t.countMembers k := rfl

/-- **The counts after an ingest** are right exactly when the batch takes no two members of another
dataset for one person. -/
theorem CountsRight.ingest_iff (hc : t.CountsRight) (h : t.Sound) {into : IngestInto}
    {ms : List Member} {s : IngestSummary} (hrun : t.submitIngestBatch into ms = .ok (s, t')) :
    t'.CountsRight ↔ ∀ d, d ≠ into.datasetId → ¬ t.Joins ms d := by
  obtain ⟨t₁, h₁, hturns, rfl⟩ := h.submitIngestBatch_ok hrun
  have hf := hturns.followed h h (h.followed_nil into)
  rw [List.nil_append] at hf
  have hds : t₁.datasets = t.datasets := hturns.frame.1
  constructor
  · intro hc' d hd
    rw [← hf.count_eq_iff h h₁ hd]
    cases hrow : t.datasets[d]? with
    | none =>
        have hle := List.getElem?_eq_none_iff.mp hrow
        rw [countMembers_of_length_le h hle, countMembers_of_length_le h₁ (hds ▸ hle)]
    | some row =>
        have hrow' : (t₁.setMemberCount into.datasetId
            (t₁.countMembers into.datasetId)).datasets[d]? = some row := by
          simp only [setMemberCount, hds]
          rw [List.getElem?_modify_ne _ _ hd.symm]
          exact hrow
        rw [← countMembers_setMemberCount t₁ into.datasetId d, ← hc' d row hrow', hc d row hrow]
  · intro hno d row hrow
    rw [countMembers_setMemberCount]
    simp only [setMemberCount, hds] at hrow
    by_cases hd : d = into.datasetId
    · subst hd
      rw [List.getElem?_modify_eq] at hrow
      obtain ⟨old, -, rfl⟩ := Option.map_eq_some_iff.mp hrow
      rfl
    · rw [List.getElem?_modify_ne _ _ fun heq => hd heq.symm] at hrow
      rw [(hf.count_eq_iff h h₁ hd).mpr (hno d hd)]
      exact hc d row hrow

end MemberTables
end Members
end MigrationStudio
