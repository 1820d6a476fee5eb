import MigrationStudio.Datasets.Service

/-!
# The people of a dataset

A dataset that only batches of one source have filled, all of whose members have Telegram ids, holds
people: each row of `dataset_members` and of `dataset_provenance` is that of one Telegram id.  The
local ids of the members do not matter, and neither does how often a batch has been repeated.

* `memberRows`, `provenanceRows`: the rows of a dataset with the Telegram id for the member.
* `HasPerson`, `OnlyPeople`: somebody is in the dataset with the origin of the batch; nobody else
  is.
* `turns_keep_person`, `turns_people`: a batch adds its people and keeps the others.
* `submitIngestBatch_counts`: its summary counts the rows that it adds to its dataset.
* `memberRows_perm`, `provenanceRows_perm`: the rows of a dataset of people.
-/

namespace MigrationStudio
namespace Members

open Foundations MigrationStudio.Core Telegram

namespace MemberTables

variable {t t' : MemberTables} {b : IngestInto} {m : Member} {ms : List Member}
  {i : Option MemberId} {x : ℤ} {P : ℤ → Prop}

/-- The Telegram id of a member. -/
def uidOf (t : MemberTables) (id : MemberId) : Option ℤ :=
  (t.members.find? fun r => r.id = id).bind Row.telegramUserId

/-- The rows of `dataset_members` of a dataset. -/
def memberRows (t : MemberTables) (d : DatasetId) : List (Option ℤ × Option GroupId) :=
  (t.memberships.filter fun q => q.datasetId = d).map fun q =>
    (t.uidOf q.memberId, q.sourceGroupId)

/-- The rows of `dataset_provenance` of a dataset. -/
def provenanceRows (t : MemberTables) (d : DatasetId) :
    List (Option ℤ × Option DatasetId × Option GroupId × Option String) :=
  (t.provenance.filter fun q => q.datasetId = d).map fun q =>
    (t.uidOf q.memberId, q.sourceDatasetId, q.sourceGroupId, q.sourceLabel)

/-- The member is a row with a Telegram id that satisfies `P`. -/
def IsPerson (t : MemberTables) (P : ℤ → Prop) (id : MemberId) : Prop :=
  ∃ r ∈ t.members, r.id = id ∧ ∃ x, r.telegramUserId = some x ∧ P x

/-- The person is in the dataset of the batch, with the origin of the batch. -/
def HasPerson (b : IngestInto) (t : MemberTables) (x : ℤ) : Prop :=
  ∃ r ∈ t.members, r.telegramUserId = some x ∧ t.InDataset b.datasetId r.id ∧
    t.HasOrigin b.datasetId r.id (none, b.sourceGroupId, b.sourceLabel.getD "")

/-- The dataset of the batch holds people who satisfy `P`, with the origin of the batch. -/
structure OnlyPeople (b : IngestInto) (t : MemberTables) (P : ℤ → Prop) : Prop where
  memberships : ∀ q ∈ t.memberships, q.datasetId = b.datasetId →
    q.sourceGroupId = b.sourceGroupId ∧ t.IsPerson P q.memberId
  provenance : ∀ q ∈ t.provenance, q.datasetId = b.datasetId →
    q.sourceDatasetId = none ∧ q.sourceGroupId = b.sourceGroupId ∧
      q.sourceLabel = b.sourceLabel ∧ t.IsPerson P q.memberId

/-! ## An upsert -/

theorem Upsert.keeps_isPerson (hup : Upsert t m i t') (h : t.Sound) {id : MemberId}
    (hid : t.IsPerson P id) : t'.IsPerson P id := by
  obtain ⟨r, hr, rfl, x, hx, hP⟩ := hid
  obtain ⟨⟨r', hr', hid', hx'⟩, -⟩ := hup.keeps_telegram h hr hx
  exact ⟨r', hr', hid', x, hx', hP⟩

theorem Upsert.keeps_person (hup : Upsert t m i t') (h : t.Sound) (hp : HasPerson b t x) :
    HasPerson b t' x := by
  obtain ⟨r, hr, hx, hin, ho⟩ := hp
  obtain ⟨⟨r', hr', hid, hx'⟩, hself⟩ := hup.keeps_telegram h hr hx
  refine ⟨r', hr', hx', ?_, ?_⟩
  · rw [hid]
    exact (hup.inDataset h).mpr ⟨r.id, hin, hself⟩
  · rw [hid]
    exact (hup.hasOrigin h).mpr ⟨r.id, ho, hself⟩

/-- The member that the upsert returns for a Telegram id is the person. -/
theorem Upsert.returned_person (hup : Upsert t m i t') (h : t.Sound)
    (hx : m.telegramUserId = some x) {id : MemberId} (hi : i = some id) :
    ∃ r ∈ t'.members, r.id = id ∧ r.telegramUserId = some x := by
  cases hup with
  | known hm hc hcuid hfree =>
      obtain rfl := Option.some.inj hi
      exact ⟨_, mem_setRow.mpr (Or.inr ⟨rfl, _, hc, rfl⟩), rfl, hm.symm.trans hx⟩
  | merged hm hc hcuid hu hf =>
      obtain rfl := Option.some.inj hi
      exact ⟨_, mem_absorb.mpr ⟨mem_setRow.mpr (Or.inr ⟨rfl, _, hc, rfl⟩),
        (h.fallback_ne hf hc hcuid).1.symm⟩, rfl, hm.symm.trans hx⟩
  | named hnew hu hf =>
      obtain rfl := Option.some.inj hi
      exact ⟨_, mem_setRow.mpr (Or.inr ⟨rfl, _, List.mem_of_find?_eq_some hf, rfl⟩), rfl, hx⟩
  | added hnew hfree hsome =>
      obtain rfl := Option.some.inj hi
      exact ⟨_, mem_addRow.mpr (Or.inr rfl), rfl, hx⟩
  | invalid hnone hu => exact absurd hi (by simp)

/-- A row of `dataset_members` after an upsert was there before, or is that of a username-only
row which the upsert has taken over. -/
theorem Upsert.mem_memberships (hup : Upsert t m i t') (h : t.Sound) {q : Membership}
    (hq : q ∈ t'.memberships) :
    q ∈ t.memberships ∨ ∃ r ∈ t.memberships, r.datasetId = q.datasetId ∧
      ∃ f ∈ t.members, f.id = r.memberId ∧ f.telegramUserId = none := by
  cases hup with
  | known | named | added | invalid => exact Or.inl hq
  | merged hm hc hcuid hu hf =>
      rcases mem_of_mem_rekey hq with ⟨hq, -⟩ | ⟨r, hr, hrf, rfl⟩
      · exact Or.inl hq
      · obtain ⟨hfmem, hfnone, -⟩ := h.fallbackRow_eq_some hf
        exact Or.inr ⟨r, hr, rfl, _, hfmem, hrf.symm, hfnone⟩

theorem Upsert.mem_provenance (hup : Upsert t m i t') (h : t.Sound) {q : Provenance}
    (hq : q ∈ t'.provenance) :
    q ∈ t.provenance ∨ ∃ r ∈ t.provenance, r.datasetId = q.datasetId ∧
      ∃ f ∈ t.members, f.id = r.memberId ∧ f.telegramUserId = none := by
  cases hup with
  | known | named | added | invalid => exact Or.inl hq
  | merged hm hc hcuid hu hf =>
      rcases mem_of_mem_rekey hq with ⟨hq, -⟩ | ⟨r, hr, hrf, rfl⟩
      · exact Or.inl hq
      · obtain ⟨hfmem, hfnone, -⟩ := h.fallbackRow_eq_some hf
        exact Or.inr ⟨r, hr, rfl, _, hfmem, hrf.symm, hfnone⟩

theorem not_isPerson_of_none (h : t.Sound) {f : Row} {id : MemberId} (hf : f ∈ t.members)
    (hid : f.id = id) (hnone : f.telegramUserId = none) : ¬ t.IsPerson P id := by
  rintro ⟨r, hr, hrid, x, hx, -⟩
  rw [h.row_unique hr hf (hrid.trans hid.symm), hnone] at hx
  exact absurd hx (by simp)

theorem OnlyPeople.upsert (ho : OnlyPeople b t P) (h : t.Sound) (hup : Upsert t m i t') :
    OnlyPeople b t' P where
  memberships := by
    intro q hq hd
    rcases hup.mem_memberships h hq with hq | ⟨r, hr, hrd, f, hf, hid, hnone⟩
    · obtain ⟨hg, hp⟩ := ho.memberships q hq hd
      exact ⟨hg, hup.keeps_isPerson h hp⟩
    · exact absurd (ho.memberships r hr (hrd.trans hd)).2 (not_isPerson_of_none h hf hid hnone)
  provenance := by
    intro q hq hd
    rcases hup.mem_provenance h hq with hq | ⟨r, hr, hrd, f, hf, hid, hnone⟩
    · obtain ⟨hs, hg, hl, hp⟩ := ho.provenance q hq hd
      exact ⟨hs, hg, hl, hup.keeps_isPerson h hp⟩
    · exact absurd (ho.provenance r hr (hrd.trans hd)).2.2.2
        (not_isPerson_of_none h hf hid hnone)

/-! ## A batch -/

theorem OnlyPeople.attached (ho : OnlyPeople b t P) {id : MemberId} (hid : t.IsPerson P id)
    (m : Member) : OnlyPeople b (t.attached b id m) P where
  memberships := by
    intro q hq hd
    rcases mem_of_mem_insertOrIgnore hq with hq | rfl
    · exact ho.memberships q hq hd
    · exact ⟨rfl, hid⟩
  provenance := by
    intro q hq hd
    rcases mem_of_mem_insertOrIgnore hq with hq | rfl
    · exact ho.provenance q hq hd
    · exact ⟨rfl, rfl, rfl, hid⟩

theorem HasPerson.attached (hp : HasPerson b t x) (id : MemberId) (m : Member) :
    HasPerson b (t.attached b id m) x := by
  obtain ⟨r, hr, hx, hin, ho⟩ := hp
  exact ⟨r, hr, hx, inDataset_attached.mpr (Or.inl hin), hasOrigin_attached.mpr (Or.inl ho)⟩

/-- A batch adds the people with Telegram ids among its members and keeps those of its dataset. -/
theorem turns_keep_person (hturns : Turns b t ms t') (h : t.Sound) :
    (∀ x, HasPerson b t x → HasPerson b t' x) ∧
      ∀ m ∈ ms, ∀ x, m.telegramUserId = some x → HasPerson b t' x := by
  induction hturns with
  | nil t => exact ⟨fun _ hp => hp, fun m hm => absurd hm (by simp)⟩
  | @skipped t t₁ t' m ms hup _ ih =>
      obtain ⟨hkeep, hnew⟩ := ih (h.upsert hup)
      refine ⟨fun y hp => hkeep y (hup.keeps_person h hp), fun q hq y hy => ?_⟩
      rcases List.mem_cons.mp hq with rfl | hq
      · have hsome := (hup.returned h).2.mpr (Or.inl (by rw [hy]; rfl))
        exact absurd hsome (by simp)
      · exact hnew q hq y hy
  | @taken t t₁ t' m ms id hup hsound _ ih =>
      obtain ⟨hkeep, hnew⟩ := ih hsound
      refine ⟨fun y hp => hkeep y ((hup.keeps_person h hp).attached id m), fun q hq y hy => ?_⟩
      rcases List.mem_cons.mp hq with rfl | hq
      · obtain ⟨r, hr, hid, hrx⟩ := hup.returned_person h hy rfl
        exact hkeep y ⟨r, hr, hrx, inDataset_attached.mpr (Or.inr ⟨rfl, hid⟩),
          hasOrigin_attached.mpr (Or.inr ⟨rfl, hid, rfl⟩)⟩
      · exact hnew q hq y hy

/-- **A batch of people** adds them and keeps the others, and its dataset holds nobody else. -/
theorem turns_people (hturns : Turns b t ms t') (h : t.Sound) (ho : OnlyPeople b t P)
    (hms : ∀ m ∈ ms, ∃ x, m.telegramUserId = some x ∧ P x) :
    OnlyPeople b t' P ∧ (∀ x, HasPerson b t x → HasPerson b t' x) ∧
      ∀ m ∈ ms, ∀ x, m.telegramUserId = some x → HasPerson b t' x := by
  refine ⟨?_, turns_keep_person hturns h⟩
  induction hturns with
  | nil t => exact ho
  | @skipped t t₁ t' m ms hup _ ih =>
      exact ih (h.upsert hup) (ho.upsert h hup) fun q hq => hms q (List.mem_cons_of_mem _ hq)
  | @taken t t₁ t' m ms id hup hsound _ ih =>
      obtain ⟨x, hx, hP⟩ := hms m (List.mem_cons_self ..)
      obtain ⟨r, hr, hid, hrx⟩ := hup.returned_person h hx rfl
      exact ih hsound ((ho.upsert h hup).attached ⟨r, hr, hid, x, hrx, hP⟩ m)
        fun q hq => hms q (List.mem_cons_of_mem _ hq)

/-! ## The counters of a batch -/

theorem OnlyPeople.isPerson (ho : OnlyPeople b t P) {id : MemberId}
    (hin : t.InDataset b.datasetId id) : t.IsPerson P id := by
  obtain ⟨q, hq, hkey⟩ := List.mem_map.mp hin
  obtain ⟨hd, rfl⟩ := Prod.mk.inj hkey
  exact (ho.memberships q hq hd).2

/-- An upsert takes nobody into a dataset of people and nobody out of it. -/
theorem OnlyPeople.countMembers_upsert (ho : OnlyPeople b t P) (h : t.Sound)
    (hup : Upsert t m i t') : t'.countMembers b.datasetId = t.countMembers b.datasetId := by
  have hself : ∀ id, t.InDataset b.datasetId id → t.mergedId m id = id := by
    intro id hin
    obtain ⟨r, hr, rfl, x, hx, -⟩ := ho.isPerson hin
    exact (hup.keeps_telegram h hr hx).2
  rw [← length_memberIds, ← length_memberIds]
  refine ((List.perm_ext_iff_of_nodup ((h.upsert hup).nodup_memberIds _)
    (h.nodup_memberIds _)).mpr fun id => ?_).length_eq
  rw [mem_memberIds, mem_memberIds, hup.inDataset h]
  constructor
  · rintro ⟨id₀, hin, hid⟩
    rw [hself id₀ hin] at hid
    exact hid ▸ hin
  · exact fun hin => ⟨id, hin, hself id hin⟩

theorem countMembers_attached (t : MemberTables) (b : IngestInto) (id : MemberId) (m : Member) :
    (t.attached b id m).countMembers b.datasetId = t.countMembers b.datasetId +
      ((t.attached b id m).memberships.length - t.memberships.length) := by
  unfold countMembers attached
  by_cases hmem : (b.datasetId, id) ∈ t.memberships.map Membership.key
  · have hold : insertOrIgnore Membership.key t.memberships ⟨b.datasetId, id, b.sourceGroupId⟩ =
        t.memberships := insertOrIgnore_of_mem hmem
    simp only [hold, Nat.sub_self, Nat.add_zero]
  · have hnew : insertOrIgnore Membership.key t.memberships ⟨b.datasetId, id, b.sourceGroupId⟩ =
        t.memberships ++ [⟨b.datasetId, id, b.sourceGroupId⟩] := insertOrIgnore_of_notMem hmem
    simp only [hnew]
    simp

/-- **The counters of the loop**: each row that the dataset gains is counted, and no member with a
Telegram id is invalid. -/
theorem foldlM_ingestOne_counts (h : t.Sound) (ho : OnlyPeople b t P)
    (hms : ∀ m ∈ ms, ∃ x, m.telegramUserId = some x ∧ P x) {s s' : IngestSummary}
    (hrun : ms.foldlM (ingestOne b) (s, t) = .ok (s', t')) :
    t'.countMembers b.datasetId + s.accepted = t.countMembers b.datasetId + s'.accepted ∧
      s'.invalid = s.invalid := by
  induction ms generalizing t s with
  | nil =>
      obtain ⟨rfl, rfl⟩ := Prod.mk.inj (Except.ok.inj hrun)
      exact ⟨rfl, rfl⟩
  | cons m ms ih =>
      obtain ⟨i, t₁, hone, hup⟩ := h.upsertOne_spec m
      obtain ⟨x, hx, hP⟩ := hms m (List.mem_cons_self ..)
      have hcount := ho.countMembers_upsert h hup
      have ho₁ := ho.upsert h hup
      rw [List.foldlM_cons] at hrun
      simp only [ingestOne, hone, bind, Except.bind] at hrun
      cases i with
      | none =>
          have hsome := (hup.returned h).2.mpr (Or.inl (by rw [hx]; rfl))
          exact absurd hsome (by simp)
      | some id =>
          simp only at hrun
          obtain ⟨r, hr, hid, hrx⟩ := hup.returned_person h hx rfl
          cases hatt : t₁.attach b id m with
          | error e => simp [hatt] at hrun
          | ok t₂ =>
              obtain ⟨h₂, rfl⟩ := (h.upsert hup).attach hatt
              simp only [hatt] at hrun
              obtain ⟨hgrowth, hinvalid⟩ := ih h₂ (ho₁.attached ⟨r, hr, hid, x, hrx, hP⟩ m)
                (fun q hq => hms q (List.mem_cons_of_mem _ hq)) hrun
              have hadded := countMembers_attached t₁ b id m
              refine ⟨?_, hinvalid⟩
              simp only at hgrowth
              omega

/-- **The summary of a batch of people** counts the rows that it adds to its dataset, and nobody as
invalid. -/
theorem submitIngestBatch_counts (h : t.Sound) (ho : OnlyPeople b t P)
    (hms : ∀ m ∈ ms, ∃ x, m.telegramUserId = some x ∧ P x) {s : IngestSummary}
    (hrun : t.submitIngestBatch b ms = .ok (s, t')) :
    t'.countMembers b.datasetId = t.countMembers b.datasetId + s.accepted ∧ s.invalid = 0 := by
  unfold submitIngestBatch at hrun
  cases hfold : ms.foldlM (ingestOne b) ({}, t) with
  | error e => simp [hfold, bind, Except.bind] at hrun
  | ok p =>
      obtain ⟨s₁, t₁⟩ := p
      simp only [hfold, bind, Except.bind] at hrun
      obtain ⟨rfl, rfl⟩ := Prod.mk.inj (Except.ok.inj hrun)
      obtain ⟨hgrowth, hinvalid⟩ := foldlM_ingestOne_counts h ho hms hfold
      rw [countMembers_setMemberCount]
      exact ⟨hgrowth, hinvalid⟩

/-! ## The rows of a dataset of people -/

theorem uidOf_eq (h : t.Sound) {r : Row} (hr : r ∈ t.members) :
    t.uidOf r.id = r.telegramUserId := by
  rw [uidOf, h.find?_row hr, Option.bind_some]

theorem uidOf_isPerson (h : t.Sound) {id : MemberId} (hid : t.IsPerson P id) :
    ∃ x, t.uidOf id = some x ∧ P x := by
  obtain ⟨r, hr, rfl, x, hx, hP⟩ := hid
  exact ⟨x, by rw [uidOf_eq h hr, hx], hP⟩

/-- Two people with one Telegram id are the same member. -/
theorem isPerson_unique (h : t.Sound) {id id' : MemberId} (hid : t.IsPerson P id)
    (hid' : t.IsPerson P id') (heq : t.uidOf id = t.uidOf id') : id = id' := by
  obtain ⟨r, hr, rfl, x, hx, -⟩ := hid
  obtain ⟨q, hq, rfl, y, hy, -⟩ := hid'
  rw [uidOf_eq h hr, uidOf_eq h hq] at heq
  rw [h.identity_unique hr hq ((Row.identity_of_some hx).trans
    (Row.identity_of_some (heq ▸ hx)).symm)]

/-- **The rows of `dataset_members`**: each person once, with the group. -/
theorem memberRows_perm (h : t.Sound) {xs : List ℤ} (ho : OnlyPeople b t (· ∈ xs))
    (hp : ∀ x ∈ xs, HasPerson b t x) :
    (t.memberRows b.datasetId).Perm (xs.dedup.map fun x => (some x, b.sourceGroupId)) := by
  refine (List.perm_ext_iff_of_nodup ?_ ?_).mpr fun row => ?_
  · refine List.Nodup.map_on ?_ ((List.Nodup.of_map _ h.memberships).filter _)
    intro q hq r hr heq
    obtain ⟨hq, hqd⟩ := List.mem_filter.mp hq
    obtain ⟨hr, hrd⟩ := List.mem_filter.mp hr
    have hqd := of_decide_eq_true hqd
    have hrd := of_decide_eq_true hrd
    have hid := isPerson_unique h (ho.memberships q hq hqd).2 (ho.memberships r hr hrd).2
      (Prod.mk.inj heq).1
    exact h.memberships.eq_of_key_eq hq hr (by rw [Membership.key, Membership.key, hqd, hrd, hid])
  · refine (List.nodup_dedup xs).map fun x y heq => ?_
    exact Option.some.inj (Prod.mk.inj heq).1
  · simp only [memberRows, List.mem_map, List.mem_filter, decide_eq_true_eq, List.mem_dedup]
    constructor
    · rintro ⟨q, ⟨hq, hd⟩, rfl⟩
      obtain ⟨hg, hperson⟩ := ho.memberships q hq hd
      obtain ⟨x, hx, hxs⟩ := uidOf_isPerson h hperson
      exact ⟨x, hxs, by rw [hx, hg]⟩
    · rintro ⟨x, hx, rfl⟩
      obtain ⟨r, hr, hrx, hin, -⟩ := hp x hx
      obtain ⟨q, hq, hkey⟩ := List.mem_map.mp hin
      obtain ⟨hd, hid⟩ := Prod.mk.inj hkey
      refine ⟨q, ⟨hq, hd⟩, ?_⟩
      rw [(ho.memberships q hq hd).1, hid, uidOf_eq h hr, hrx]

/-- **The rows of `dataset_provenance`**: each person once, with the origin of the batch. -/
theorem provenanceRows_perm (h : t.Sound) {xs : List ℤ} (ho : OnlyPeople b t (· ∈ xs))
    (hp : ∀ x ∈ xs, HasPerson b t x) :
    (t.provenanceRows b.datasetId).Perm
      (xs.dedup.map fun x => (some x, none, b.sourceGroupId, b.sourceLabel)) := by
  refine (List.perm_ext_iff_of_nodup ?_ ?_).mpr fun row => ?_
  · refine List.Nodup.map_on ?_ ((List.Nodup.of_map _ h.provenance).filter _)
    intro q hq r hr heq
    obtain ⟨hq, hqd⟩ := List.mem_filter.mp hq
    obtain ⟨hr, hrd⟩ := List.mem_filter.mp hr
    have hqd := of_decide_eq_true hqd
    have hrd := of_decide_eq_true hrd
    simp only [Prod.mk.injEq] at heq
    have hid := isPerson_unique h (ho.provenance q hq hqd).2.2.2 (ho.provenance r hr hrd).2.2.2
      heq.1
    refine h.provenance.eq_of_key_eq hq hr ?_
    rw [Provenance.key, Provenance.key, hqd, hrd, hid, heq.2.1, heq.2.2.1, heq.2.2.2]
  · refine (List.nodup_dedup xs).map fun x y heq => ?_
    exact Option.some.inj (Prod.mk.inj heq).1
  · simp only [provenanceRows, List.mem_map, List.mem_filter, decide_eq_true_eq, List.mem_dedup]
    constructor
    · rintro ⟨q, ⟨hq, hd⟩, rfl⟩
      obtain ⟨hs, hg, hl, hperson⟩ := ho.provenance q hq hd
      obtain ⟨x, hx, hxs⟩ := uidOf_isPerson h hperson
      exact ⟨x, hxs, by rw [hx, hs, hg, hl]⟩
    · rintro ⟨x, hx, rfl⟩
      obtain ⟨r, hr, hrx, -, horigin⟩ := hp x hx
      obtain ⟨q, hq, hkey⟩ := List.mem_map.mp horigin
      simp only [Provenance.key, Prod.mk.injEq] at hkey
      obtain ⟨hs, hg, hl, -⟩ := ho.provenance q hq hkey.1
      refine ⟨q, ⟨hq, hkey.1⟩, ?_⟩
      rw [hs, hg, hl, hkey.2.1, uidOf_eq h hr, hrx]

end MemberTables
end Members
end MigrationStudio
