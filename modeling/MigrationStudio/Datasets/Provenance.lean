import MigrationStudio.Datasets.Service

/-!
# The provenance of the members of a dataset

A row of `dataset_provenance` is meant for a member of its dataset.  Ingests and merges write the
two tables side by side.  `combine` does not: it inserts the members that its select returns, and
then the provenance of every member of the two sources.

* `ProvenanceOfMembers`: every row of provenance is of a member.
* `mem_selectIds`: what the select of `combine` returns; `hasOrigin_combine`: the provenance that
  it leaves.
* `Sound.provenanceOfMembers_combine`: the combinations that keep provenance to members.
* `Turns.sourced`: a batch takes the sources of a row along to the row that it becomes.
-/

namespace MigrationStudio
namespace Members
namespace MemberTables

open Foundations MigrationStudio.Core

variable {t t' t₀ : MemberTables} {a b d new src : DatasetId} {op : SetOperation} {id m : MemberId}
  {into : IngestInto} {x : Member} {i : Option MemberId} {pre ms : List Member}

/-- Every row of `dataset_provenance` is of a member of its dataset. -/
def ProvenanceOfMembers (t : MemberTables) : Prop :=
  ∀ p ∈ t.provenance, t.InDataset p.datasetId p.memberId

/-- The member of the dataset has provenance from another dataset. -/
def HasSource (t : MemberTables) (d : DatasetId) (id : MemberId) (src : DatasetId) : Prop :=
  ∃ p ∈ t.provenance, p.datasetId = d ∧ p.memberId = id ∧ p.sourceDatasetId = some src

theorem hasSource_iff : t.HasSource d id src ↔ ∃ g l, t.HasOrigin d id (some src, g, l) := by
  constructor
  · rintro ⟨p, hp, rfl, rfl, hsrc⟩
    exact ⟨p.sourceGroupId, p.sourceLabel.getD "",
      List.mem_map.mpr ⟨p, hp, by rw [Provenance.key, hsrc]⟩⟩
  · rintro ⟨g, l, hin⟩
    obtain ⟨p, hp, hkey⟩ := List.mem_map.mp hin
    simp only [Provenance.key, Prod.mk.injEq] at hkey
    exact ⟨p, hp, hkey.1, hkey.2.1, hkey.2.2.1⟩

theorem provenanceOfMembers_iff :
    t.ProvenanceOfMembers ↔ ∀ d id o, t.HasOrigin d id o → t.InDataset d id := by
  constructor
  · rintro h d id o hin
    obtain ⟨p, hp, hkey⟩ := List.mem_map.mp hin
    simp only [Provenance.key, Prod.mk.injEq] at hkey
    have hmem := h p hp
    rwa [hkey.1, hkey.2.1] at hmem
  · exact fun h p hp => h p.datasetId p.memberId _ (List.mem_map.mpr ⟨p, hp, rfl⟩)

/-! ## The select of `combine` -/

/-- The datasets among the two that contain the member are two different ones exactly when both
do. -/
theorem length_dedup_eq_two {l : List DatasetId} (hl : ∀ d ∈ l, d = a ∨ d = b) :
    l.dedup.length = 2 ↔ a ≠ b ∧ a ∈ l ∧ b ∈ l := by
  have hcard : l.dedup.length = l.toFinset.card := (List.card_toFinset l).symm
  have hsub : l.toFinset ⊆ {a, b} := by
    intro d hd
    have hmem := hl d (List.mem_toFinset.mp hd)
    simpa using hmem
  rw [hcard]
  constructor
  · intro htwo
    have hab : a ≠ b := by
      rintro rfl
      have hle := Finset.card_le_card hsub
      rw [Finset.pair_eq_singleton, Finset.card_singleton] at hle
      omega
    have heq : l.toFinset = {a, b} :=
      Finset.eq_of_subset_of_card_le hsub (by rw [htwo, Finset.card_pair hab])
    refine ⟨hab, ?_, ?_⟩
    · exact List.mem_toFinset.mp (heq ▸ Finset.mem_insert_self a {b})
    · exact List.mem_toFinset.mp (heq ▸ Finset.mem_insert_of_mem (Finset.mem_singleton_self b))
  · rintro ⟨hab, ha, hb⟩
    have heq : l.toFinset = {a, b} := by
      ext d
      simp only [List.mem_toFinset, Finset.mem_insert, Finset.mem_singleton]
      constructor
      · exact hl d
      · rintro (rfl | rfl)
        · exact ha
        · exact hb
    rw [heq, Finset.card_pair hab]

theorem mem_either : m ∈ ((t.memberships.filter fun r => r.datasetId = a ∨ r.datasetId = b).map
      Membership.memberId).dedup ↔ t.InDataset a m ∨ t.InDataset b m := by
  simp only [List.mem_dedup, InDataset, List.mem_map, List.mem_filter, Membership.key,
    Prod.mk.injEq, decide_eq_true_eq]
  constructor
  · rintro ⟨r, ⟨hr, hd | hd⟩, hm⟩
    · exact Or.inl ⟨r, hr, hd, hm⟩
    · exact Or.inr ⟨r, hr, hd, hm⟩
  · rintro (⟨r, hr, hd, hm⟩ | ⟨r, hr, hd, hm⟩)
    · exact ⟨r, ⟨hr, Or.inl hd⟩, hm⟩
    · exact ⟨r, ⟨hr, Or.inr hd⟩, hm⟩

/-- **What the select returns.**  The intersection of a dataset with itself is empty, since it asks
for two different ids. -/
theorem mem_selectIds : m ∈ t.selectIds a b op ↔
    match op with
    | .union => t.InDataset a m ∨ t.InDataset b m
    | .intersection => a ≠ b ∧ t.InDataset a m ∧ t.InDataset b m
    | .difference => t.InDataset a m ∧ ¬ t.InDataset b m := by
  cases op with
  | union => exact mem_either
  | intersection =>
      have hin : ∀ c, (c = a ∨ c = b) →
          (c ∈ (t.memberships.filter fun r => (r.datasetId = a ∨ r.datasetId = b) ∧
            r.memberId = m).map Membership.datasetId ↔ t.InDataset c m) := by
        intro c hc
        simp only [InDataset, List.mem_map, List.mem_filter, Membership.key, Prod.mk.injEq,
          decide_eq_true_eq]
        constructor
        · rintro ⟨r, ⟨hr, -, hm⟩, hd⟩
          exact ⟨r, hr, hd, hm⟩
        · rintro ⟨r, hr, rfl, hm⟩
          exact ⟨r, ⟨hr, hc, hm⟩, rfl⟩
      have htwo := length_dedup_eq_two (a := a) (b := b)
        (l := (t.memberships.filter fun r => (r.datasetId = a ∨ r.datasetId = b) ∧
          r.memberId = m).map Membership.datasetId) (by
            intro c hc
            obtain ⟨r, hr, rfl⟩ := List.mem_map.mp hc
            exact (of_decide_eq_true (List.mem_filter.mp hr).2).1)
      rw [hin a (Or.inl rfl), hin b (Or.inr rfl)] at htwo
      rw [selectIds, List.mem_filter, mem_either, decide_eq_true_eq, htwo]
      exact ⟨fun h => h.2, fun h => ⟨Or.inl h.2.1, h⟩⟩
  | difference =>
      rw [selectIds, List.mem_filter, mem_memberIds, decide_eq_true_eq, mem_memberIds]

/-- Every member of the two datasets is among those that the select returns. -/
def SelectsBoth (t : MemberTables) (a b : DatasetId) : SetOperation → Prop
  | .union => True
  | .intersection =>
      ∀ m, t.InDataset a m ∨ t.InDataset b m → a ≠ b ∧ t.InDataset a m ∧ t.InDataset b m
  | .difference => ∀ m, ¬ t.InDataset b m

theorem selectsBoth_iff : t.SelectsBoth a b op ↔
    ∀ m, t.InDataset a m ∨ t.InDataset b m → m ∈ t.selectIds a b op := by
  cases op with
  | union => exact iff_of_true trivial fun m hm => mem_selectIds.mpr hm
  | intersection =>
      exact forall_congr' fun m => imp_congr_right fun _ =>
        (@mem_selectIds t a b .intersection m).symm
  | difference =>
      constructor
      · intro h m hm
        exact mem_selectIds.mpr ⟨hm.resolve_right (h m), h m⟩
      · exact fun h m hm => (mem_selectIds.mp (h m (Or.inr hm))).2 hm

/-! ## The provenance that `combine` leaves -/

theorem hasOrigin_addSource {label : String} {o : Origin} (h : t.addSource new src label = .ok t') :
    t'.HasOrigin d m o ↔
      t.HasOrigin d m o ∨ (d = new ∧ t.InDataset src m ∧ o = (some src, none, label)) := by
  obtain ⟨rfl, -⟩ := foldlM_insertProvenance_ok h
  show (d, m, o) ∈ (insertAll Provenance.key t.provenance _).map Provenance.key ↔ _
  rw [mem_map_insertAll]
  refine or_congr_right ?_
  simp only [List.map_map, List.mem_map, Function.comp_apply, Provenance.key, Prod.mk.injEq,
    mem_memberIds, Option.getD_some]
  constructor
  · rintro ⟨n, hn, rfl, rfl, rfl⟩
    exact ⟨rfl, hn, rfl⟩
  · rintro ⟨rfl, hin, rfl⟩
    exact ⟨m, hin, rfl, rfl, rfl⟩

theorem Sound.inDataset_combine (h : t.Sound) (hrun : t.combine a b op = .ok (new, t')) :
    t'.InDataset d m ↔ t.InDataset d m ∨ (d = new ∧ m ∈ t.selectIds a b op) := by
  obtain ⟨rfl, -, -, -, hms, -⟩ := h.combine_ok hrun
  unfold InDataset
  rw [hms, List.map_append, List.mem_append, List.map_map]
  refine or_congr_right ?_
  simp only [List.mem_map, Function.comp_apply, Membership.key, Prod.mk.injEq]
  constructor
  · rintro ⟨n, hn, rfl, rfl⟩
    exact ⟨rfl, hn⟩
  · rintro ⟨rfl, hm⟩
    exact ⟨m, hm, rfl, rfl⟩

/-- **The provenance after a combination**: to the old one comes that of every member of the two
sources, selected or not. -/
theorem hasOrigin_combine {o : Origin} (hrun : t.combine a b op = .ok (new, t')) :
    t'.HasOrigin d m o ↔ t.HasOrigin d m o ∨
      (d = new ∧ ((t'.InDataset a m ∧ o = (some a, none, "A")) ∨
        (t'.InDataset b m ∧ o = (some b, none, "B")))) := by
  unfold MemberTables.combine at hrun
  cases hms : ((t.createDataset.selectIds a b op).map fun m =>
      (⟨t.datasets.length, m, none⟩ : Membership)).foldlM MemberTables.insertMembership
        t.createDataset with
  | error e => simp [hms, bind, Except.bind] at hrun
  | ok t₁ =>
      obtain ⟨heq₁, -⟩ := foldlM_insertMembership_ok hms
      simp only [hms, bind, Except.bind] at hrun
      cases ha : t₁.addSource t.datasets.length a "A" with
      | error e => simp [ha] at hrun
      | ok t₂ =>
          obtain ⟨heq₂, -⟩ := addSource_ok ha
          simp only [ha] at hrun
          cases hb : t₂.addSource t.datasets.length b "B" with
          | error e => simp [hb] at hrun
          | ok t₃ =>
              obtain ⟨heq₃, -⟩ := addSource_ok hb
              simp only [hb] at hrun
              obtain ⟨rfl, rfl⟩ := Prod.mk.inj (Except.ok.inj hrun)
              have hin₂ : ∀ {c n}, t₂.InDataset c n ↔ t₁.InDataset c n := by
                intro c n
                rw [heq₂]
                rfl
              have hin₃ : ∀ {c n}, (t₃.setMemberCount t.datasets.length
                  (t.createDataset.selectIds a b op).length).InDataset c n ↔
                    t₁.InDataset c n := by
                intro c n
                rw [← hin₂, heq₃]
                rfl
              have hold : t₁.HasOrigin d m o ↔ t.HasOrigin d m o := by
                rw [heq₁]
                rfl
              show t₃.HasOrigin d m o ↔ _
              rw [hasOrigin_addSource hb, hasOrigin_addSource ha, hold, hin₃, hin₃, hin₂]
              constructor
              · rintro ((hin | ⟨hd, hin⟩) | ⟨hd, hin⟩)
                · exact Or.inl hin
                · exact Or.inr ⟨hd, Or.inl hin⟩
                · exact Or.inr ⟨hd, Or.inr hin⟩
              · rintro (hin | ⟨hd, hin | hin⟩)
                · exact Or.inl (Or.inl hin)
                · exact Or.inl (Or.inr ⟨hd, hin⟩)
                · exact Or.inr ⟨hd, hin⟩

/-- The provenance of the members of a dataset can always be added to a dataset that exists. -/
theorem Sound.addSource_commits (h : t.Sound) (hnew : t.hasDataset new = true) (src : DatasetId)
    (label : String) : ∃ t', t.addSource new src label = .ok t' := by
  refine ⟨_, foldlM_insertProvenance _ t fun r hr => ?_⟩
  obtain ⟨m, hm, rfl⟩ := List.mem_map.mp hr
  obtain ⟨q, hq, hkey⟩ := List.mem_map.mp (mem_memberIds.mp hm)
  obtain ⟨hd, hmem, -⟩ := h.membershipRefs q hq
  rw [(Prod.mk.inj hkey).1] at hd
  rw [(Prod.mk.inj hkey).2] at hmem
  exact ⟨hnew, hmem, hd, rfl⟩

/-- **A combination never raises.** -/
theorem Sound.combine_commits (h : t.Sound) (a b : DatasetId) (op : SetOperation) :
    ∃ p, t.combine a b op = .ok p := by
  have hnew := h.createDataset
  have hlast : t.createDataset.hasDataset t.datasets.length = true := by
    refine decide_eq_true ?_
    simp [MemberTables.createDataset]
  have hmember : ∀ {c n}, t.InDataset c n → t.createDataset.hasMember n = true := by
    intro c n hin
    obtain ⟨r, hr, hid⟩ := h.mem_of_inDataset hin
    exact hasMember_iff.mpr ⟨r, hr, hid⟩
  have hsel : ∀ m ∈ t.createDataset.selectIds a b op, t.createDataset.hasMember m = true := by
    intro m hm
    have hm' : m ∈ t.selectIds a b op := hm
    cases op with
    | union => exact (mem_selectIds.mp hm').elim hmember hmember
    | intersection => exact hmember (mem_selectIds.mp hm').2.1
    | difference => exact hmember (mem_selectIds.mp hm').1
  have hms := foldlM_insertMembership ((t.createDataset.selectIds a b op).map fun m =>
    (⟨t.datasets.length, m, none⟩ : Membership)) t.createDataset (by
      intro r hr
      obtain ⟨m, hm, rfl⟩ := List.mem_map.mp hr
      exact ⟨hlast, hsel m hm, rfl⟩)
  have h₁ := (foldlM_insertMembership_ok hms).2 hnew
  obtain ⟨t₂, ha⟩ := h₁.addSource_commits hlast a "A"
  have hlast₂ : t₂.hasDataset t.datasets.length = true := by
    rw [(addSource_ok ha).1]
    exact hlast
  obtain ⟨t₃, hb⟩ := ((addSource_ok ha).2 h₁).addSource_commits hlast₂ b "B"
  unfold MemberTables.combine
  simp only [hms, ha, hb, bind, Except.bind]
  exact ⟨_, rfl⟩

/-- **A combination** keeps provenance to members exactly when it selects every member of its two
sources. -/
theorem Sound.provenanceOfMembers_combine (h : t.Sound) (hp : t.ProvenanceOfMembers)
    (hrun : t.combine a b op = .ok (new, t')) :
    t'.ProvenanceOfMembers ↔ t.SelectsBoth a b op := by
  have hin : ∀ d m, t'.InDataset d m ↔ t.InDataset d m ∨ (d = new ∧ m ∈ t.selectIds a b op) :=
    fun d m => h.inDataset_combine hrun
  have hfresh : ∀ m, ¬ t.InDataset new m := by
    intro m hm
    obtain ⟨r, hr, hkey⟩ := List.mem_map.mp hm
    have hlt : r.datasetId < t.datasets.length := of_decide_eq_true (h.membershipRefs r hr).1
    rw [(Prod.mk.inj hkey).1, (h.combine_ok hrun).1] at hlt
    exact Nat.lt_irrefl _ hlt
  rw [provenanceOfMembers_iff] at hp ⊢
  rw [selectsBoth_iff]
  constructor
  · intro hp' m hm
    have hmem : t'.InDataset new m := by
      rcases hm with hm | hm
      · exact hp' new m _ (hasOrigin_combine hrun |>.mpr
          (Or.inr ⟨rfl, Or.inl ⟨(hin a m).mpr (Or.inl hm), rfl⟩⟩))
      · exact hp' new m _ (hasOrigin_combine hrun |>.mpr
          (Or.inr ⟨rfl, Or.inr ⟨(hin b m).mpr (Or.inl hm), rfl⟩⟩))
    exact (((hin new m).mp hmem).resolve_left (hfresh m)).2
  · intro hsel d m o ho
    -- a source with the id of the new dataset contains what has been selected
    have hnew : t'.InDataset a m ∨ t'.InDataset b m → t'.InDataset new m := by
      intro hm
      have hcases : (t.InDataset a m ∨ t.InDataset b m) ∨ m ∈ t.selectIds a b op := by
        rcases hm with hm | hm
        · exact ((hin a m).mp hm).imp Or.inl And.right
        · exact ((hin b m).mp hm).imp Or.inr And.right
      exact (hin new m).mpr (Or.inr ⟨rfl, hcases.elim (hsel m) id⟩)
    rcases (hasOrigin_combine hrun).mp ho with ho | ⟨rfl, ⟨hm, -⟩ | ⟨hm, -⟩⟩
    · exact (hin d m).mpr (Or.inl (hp d m o ho))
    · exact hnew (Or.inl hm)
    · exact hnew (Or.inr hm)

/-! ## Provenance through a batch -/

/-- A batch keeps provenance to members. -/
theorem Turns.provenanceOfMembers (hturns : Turns into t ms t') (h : t.Sound)
    (hp : t.ProvenanceOfMembers) : t'.ProvenanceOfMembers := by
  have hup : ∀ {t t' : MemberTables} {x : Member} {i : Option MemberId}, Upsert t x i t' →
      t.Sound → t.ProvenanceOfMembers → t'.ProvenanceOfMembers := by
    intro t t' x i hup h hp
    rw [provenanceOfMembers_iff] at hp ⊢
    intro d id o ho
    obtain ⟨id₀, ho₀, hid⟩ := (hup.hasOrigin h).mp ho
    exact (hup.inDataset h).mpr ⟨id₀, hp d id₀ o ho₀, hid⟩
  induction hturns with
  | nil t => exact hp
  | skipped hone _ ih => exact ih (h.upsert hone) (hup hone h hp)
  | taken hone hsound _ ih =>
      have hnext := hup hone h hp
      refine ih hsound ?_
      rw [provenanceOfMembers_iff] at hnext ⊢
      intro d id o ho
      rcases hasOrigin_attached.mp ho with ho | ⟨rfl, rfl, -⟩
      · exact inDataset_attached.mpr (Or.inl (hnext d id o ho))
      · exact inDataset_attached.mpr (Or.inr ⟨rfl, rfl⟩)

/-- The sources of the rows of `t₀` after the members `pre` of a batch are those of the rows that
have become them. -/
structure Sourced (t₀ : MemberTables) (pre : List Member) (t : MemberTables) : Prop where
  settled : Settled t₀ pre t
  sources : ∀ d src id, t.HasSource d id src ↔
    ∃ r ∈ t₀.members, t₀.HasSource d r.id src ∧ t.settle pre r = id

theorem Sound.sourced_nil (h : t₀.Sound) : Sourced t₀ [] t₀ where
  settled := settled_nil t₀
  sources := by
    intro d src id
    constructor
    · intro hs
      obtain ⟨p, hp, hd, hm, hsrc⟩ := hs
      obtain ⟨r, hr, hid⟩ := hasMember_iff.mp (h.provenanceRefs p hp).2.1
      exact ⟨r, hr, ⟨p, hp, hd, hid.symm, hsrc⟩, ((h.settle_nil hr).trans hid).trans hm⟩
    · rintro ⟨r, hr, hs, rfl⟩
      rwa [h.settle_nil hr]

theorem Sourced.upsert (hs : Sourced t₀ pre t) (h₀ : t₀.Sound) (h : t.Sound)
    (hup : Upsert t x i t') : Sourced t₀ (pre ++ [x]) t' := by
  obtain ⟨hsettled, hsettle⟩ := hs.settled.upsert h₀ h hup
  refine ⟨hsettled, fun d src id => ?_⟩
  have hmoved : t'.HasSource d id src ↔
      ∃ id₀, t.HasSource d id₀ src ∧ t.mergedId x id₀ = id := by
    simp only [hasSource_iff, hup.hasOrigin h]
    constructor
    · rintro ⟨g, l, id₀, ho, hid⟩
      exact ⟨id₀, ⟨g, l, ho⟩, hid⟩
    · rintro ⟨id₀, ⟨g, l, ho⟩, hid⟩
      exact ⟨g, l, id₀, ho, hid⟩
  rw [hmoved]
  constructor
  · rintro ⟨id₀, hsrc, rfl⟩
    obtain ⟨r, hr, hsrc₀, rfl⟩ := (hs.sources d src id₀).mp hsrc
    exact ⟨r, hr, hsrc₀, hsettle r hr⟩
  · rintro ⟨r, hr, hsrc₀, rfl⟩
    exact ⟨t.settle pre r, (hs.sources d src _).mpr ⟨r, hr, hsrc₀, rfl⟩, (hsettle r hr).symm⟩

/-- The provenance of a batch names a group and a label, but no dataset. -/
theorem Sourced.attached (hs : Sourced t₀ pre t) (id : MemberId) :
    Sourced t₀ pre (t.attached into id x) where
  settled := hs.settled.attached id
  sources := by
    intro d src id'
    have hsame : (t.attached into id x).HasSource d id' src ↔ t.HasSource d id' src := by
      simp only [hasSource_iff, hasOrigin_attached]
      simp
    rw [hsame]
    exact hs.sources d src id'

theorem Turns.sourced (hturns : Turns into t ms t') (h₀ : t₀.Sound) (h : t.Sound)
    (hs : Sourced t₀ pre t) : Sourced t₀ (pre ++ ms) t' := by
  induction hturns generalizing pre with
  | nil t => rwa [List.append_nil]
  | skipped hup _ ih =>
      have hnext := ih (h.upsert hup) (hs.upsert h₀ h hup)
      rwa [List.append_assoc] at hnext
  | @taken t t₁ t' x ms id hup hsound _ ih =>
      have hnext := ih hsound ((hs.upsert h₀ h hup).attached id)
      rwa [List.append_assoc] at hnext

end MemberTables
end Members
end MigrationStudio
