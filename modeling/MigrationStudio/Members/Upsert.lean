import MigrationStudio.Members.Repository

/-!
# `_upsert_one` on sound tables

Every row of `members` is identified by its Telegram id or, as long as it has none, by its
lowercased username.  On tables in which the identities are distinct `_upsert_one` never raises,
and does one of five things.

* `Sound`: what the schema enforces and what the program adds to it: a row without Telegram id has
  a username, and an item refers to a row with one.
* `Upsert`: the five things; `upsertOne_spec`: `_upsert_one` succeeds and does one of them.
* `Sound.upsert`: they keep the tables sound.
-/

namespace MigrationStudio
namespace Members

open Foundations MigrationStudio.Core Telegram

/-! ## Clean usernames -/

/-- A username that `_clean_username` leaves is not blank. -/
theorem exists_ne_of_cleanUsername {value : Option String} {u : String}
    (h : cleanUsername value = some u) : ∃ c ∈ u.toList, c ≠ ' ' := by
  unfold cleanUsername at h
  split at h
  · exact absurd h (by simp)
  · rename_i s
    split_ifs at h with hempty hclean
    obtain rfl := Option.some.inj h
    unfold lstripAt strip at hclean ⊢
    simp only [String.toList_ofList] at hclean ⊢
    generalize hl : (s.toList.dropWhile isSpace).rdropWhile isSpace = l at hclean ⊢
    have hne : l.dropWhile (fun c => c = '@') ≠ [] := by
      intro hnil
      exact hclean (by rw [hnil])
    have hsuffix : l.dropWhile (fun c => c = '@') <:+ l := List.dropWhile_suffix _
    have hlne : l ≠ [] := fun hnil => hne (by rw [hnil]; rfl)
    refine ⟨(l.dropWhile fun c => c = '@').getLast hne, List.getLast_mem hne, ?_⟩
    rw [hsuffix.getLast hne]
    intro hspace
    subst hl
    exact List.rdropWhile_last_not _ _ hlne (by rw [hspace]; rfl)

/-! ## Identities -/

/-- What identifies a row: its Telegram id, or else its fallback key. -/
def Row.identity (r : Row) : Option (ℤ ⊕ String) :=
  match r.telegramUserId with
  | some uid => some (.inl uid)
  | none => r.fallbackKey.map .inr

theorem Row.identity_of_some {r : Row} {uid : ℤ} (h : r.telegramUserId = some uid) :
    r.identity = some (.inl uid) := by
  rw [identity, h]

theorem Row.identity_of_none {r : Row} (h : r.telegramUserId = none) {u : String}
    (hu : r.username = some u) (hblank : ∃ c ∈ u.toList, c ≠ ' ') :
    r.identity = some (.inr (lower u)) := by
  have hany : u.toList.any (· ≠ ' ') = true := by simpa using hblank
  simp only [identity, fallbackKey, h, hu, Option.filter_some, hany, Option.isSome_none,
    Bool.false_eq_true, if_false, if_true, Option.map_some]

theorem Row.identity_eq_inl {r : Row} {uid : ℤ} :
    r.identity = some (.inl uid) ↔ r.telegramUserId = some uid := by
  unfold identity
  cases r.telegramUserId with
  | some v => simp
  | none => simp [Option.map_eq_some_iff]

theorem Row.identity_eq_inr {r : Row} {k : String} :
    r.identity = some (.inr k) ↔ r.fallbackKey = some k := by
  unfold identity
  cases h : r.telegramUserId with
  | some v => simp [fallbackKey, h]
  | none => simp [Option.map_eq_some_iff]

theorem Row.isFallback_of_identity {r : Row} {u : String}
    (h : r.identity = some (.inr (lower u))) : r.isFallback u = true := by
  have hk := Row.identity_eq_inr.mp h
  unfold fallbackKey at hk
  split_ifs at hk with hsome
  obtain ⟨v, hv, hvu⟩ := Option.map_eq_some_iff.mp hk
  obtain ⟨hv, -⟩ := Option.filter_eq_some_iff.mp hv
  simpa [isFallback, hv, hvu] using hsome

namespace MemberTables

variable {t t' : MemberTables}

/-- **Sound tables.**  The constraints of the schema hold, a row without Telegram id has a username
that is not blank, and the items refer to rows with a Telegram id. -/
structure Sound (t : MemberTables) : Prop where
  ids : t.members.Pairwise fun a b => a.id < b.id
  sequence : ∀ r ∈ t.members, r.id ≤ t.sequence
  identified : ∀ r ∈ t.members, r.identity.isSome
  identities : (t.members.map Row.identity).Nodup
  memberships : UniqueKeys Membership.key t.memberships
  provenance : UniqueKeys Provenance.key t.provenance
  membershipRefs : ∀ r ∈ t.memberships, t.hasDataset r.datasetId ∧ t.hasMember r.memberId ∧
    t.hasGroup r.sourceGroupId
  provenanceRefs : ∀ r ∈ t.provenance, t.hasDataset r.datasetId ∧ t.hasMember r.memberId ∧
    r.sourceDatasetId.all t.hasDataset ∧ t.hasGroup r.sourceGroupId
  items : ∀ i ∈ t.items, ∃ r ∈ t.members, r.id = i.memberId ∧ r.telegramUserId.isSome

theorem hasMember_iff {id : MemberId} : t.hasMember id = true ↔ ∃ r ∈ t.members, r.id = id := by
  simp [hasMember]

theorem Sound.row_unique (h : t.Sound) {r q : Row} (hr : r ∈ t.members) (hq : q ∈ t.members)
    (hid : r.id = q.id) : r = q := by
  have hnodup : (t.members.map Row.id).Nodup :=
    (List.pairwise_map.mpr h.ids).imp fun hlt => Nat.ne_of_lt hlt
  exact List.inj_on_of_nodup_map hnodup hr hq hid

/-- A row is found by its id. -/
theorem Sound.find?_row (h : t.Sound) {r : Row} (hr : r ∈ t.members) :
    (t.members.find? fun q => q.id = r.id) = some r := by
  cases hfind : t.members.find? fun q => q.id = r.id with
  | none => simpa using List.find?_eq_none.mp hfind r hr
  | some q =>
      rw [h.row_unique (List.mem_of_find?_eq_some hfind) hr
        (by simpa using List.find?_some hfind)]

/-- Two rows of one identity are the same row. -/
theorem Sound.identity_unique (h : t.Sound) {r q : Row} (hr : r ∈ t.members)
    (hq : q ∈ t.members) (hid : r.identity = q.identity) : r = q :=
  List.inj_on_of_nodup_map h.identities hr hq hid

/-! ## What the selects find -/

theorem byTelegramId_eq_some {uid : ℤ} {r : Row} (h : t.byTelegramId uid = some r) :
    r ∈ t.members ∧ r.telegramUserId = some uid :=
  ⟨List.mem_of_find?_eq_some h, by simpa using List.find?_some h⟩

theorem byTelegramId_eq_none {uid : ℤ} (h : t.byTelegramId uid = none) {r : Row}
    (hr : r ∈ t.members) : r.identity ≠ some (.inl uid) := fun hid =>
  absurd (Row.identity_eq_inl.mp hid) (by simpa using List.find?_eq_none.mp h r hr)

theorem Sound.byTelegramId (h : t.Sound) {r : Row} {uid : ℤ} (hr : r ∈ t.members)
    (huid : r.telegramUserId = some uid) : t.byTelegramId uid = some r := by
  cases hfind : t.byTelegramId uid with
  | none => exact absurd (Row.identity_of_some huid) (byTelegramId_eq_none hfind hr)
  | some q =>
      obtain ⟨hq, hquid⟩ := byTelegramId_eq_some hfind
      rw [h.identity_unique hq hr
        ((Row.identity_of_some hquid).trans (Row.identity_of_some huid).symm)]

theorem Sound.fallbackRow_eq_some (h : t.Sound) {u : String} {r : Row}
    (hfind : t.fallbackRow u = some r) :
    r ∈ t.members ∧ r.telegramUserId = none ∧ r.identity = some (.inr (lower u)) := by
  have hr := List.mem_of_find?_eq_some hfind
  have hp := List.find?_some hfind
  simp only [Row.isFallback, Bool.and_eq_true, Option.isNone_iff_eq_none, decide_eq_true_eq] at hp
  obtain ⟨v, hv, hvu⟩ := Option.map_eq_some_iff.mp hp.2
  have hblank : ∃ c ∈ v.toList, c ≠ ' ' := by
    simpa [Row.identity, Row.fallbackKey, hp.1, hv, Option.filter_some] using h.identified r hr
  refine ⟨hr, hp.1, ?_⟩
  rw [Row.identity_of_none hp.1 hv hblank, hvu]

theorem fallbackRow_eq_none {u : String} (h : t.fallbackRow u = none) {r : Row}
    (hr : r ∈ t.members) : r.identity ≠ some (.inr (lower u)) := fun hid =>
  absurd (Row.isFallback_of_identity hid) (by simpa using List.find?_eq_none.mp h r hr)

theorem Sound.fallbackRow (h : t.Sound) {r : Row} {u : String} (hr : r ∈ t.members)
    (hid : r.identity = some (.inr (lower u))) : t.fallbackRow u = some r := by
  cases hfind : t.fallbackRow u with
  | none => exact absurd hid (fallbackRow_eq_none hfind hr)
  | some q =>
      obtain ⟨hq, -, hqid⟩ := h.fallbackRow_eq_some hfind
      rw [h.identity_unique hq hr (hqid.trans hid.symm)]

/-! ## The statements without their checks -/

/-- Another row has the identity of the row. -/
theorem conflicts_iff {r : Row} :
    t.conflicts r = true ↔
      ∃ q ∈ t.members, q.id ≠ r.id ∧ r.identity.isSome ∧ q.identity = r.identity := by
  simp only [conflicts, List.any_eq_true, Bool.and_eq_true, Bool.or_eq_true, decide_eq_true_eq]
  refine exists_congr fun q => and_congr_right fun _ => and_congr_right fun _ => ?_
  cases huid : r.telegramUserId with
  | some uid =>
      have hkey : r.fallbackKey = none := by simp [Row.fallbackKey, huid]
      rw [Row.identity_of_some huid, Row.identity_eq_inl, hkey]
      simp
  | none =>
      cases hkey : r.fallbackKey with
      | some k =>
          rw [Row.identity_eq_inr.mpr hkey, Row.identity_eq_inr]
          simp
      | none =>
          have hid : r.identity = none := by simp [Row.identity, huid, hkey]
          simp [hid]

/-- The rows of the member `f` given to the member `c`, and `f` deleted. -/
def absorb (t : MemberTables) (f c : MemberId) : MemberTables :=
  { t with
    members := t.members.filter fun r => r.id ≠ f
    memberships :=
      rekey Membership.key Membership.memberId (Membership.withMember c) f t.memberships
    provenance :=
      rekey Provenance.key Provenance.memberId (Provenance.withMember c) f t.provenance }

theorem foldlM_insertMembership (rs : List Membership) (t : MemberTables)
    (h : ∀ r ∈ rs, t.hasDataset r.datasetId ∧ t.hasMember r.memberId ∧
      t.hasGroup r.sourceGroupId) :
    rs.foldlM insertMembership t =
      .ok (t.setMemberships (insertAll Membership.key t.memberships rs)) := by
  induction rs generalizing t with
  | nil => rfl
  | cons r rs ih =>
      have hone : t.insertMembership r =
          .ok (t.setMemberships (insertOrIgnore Membership.key t.memberships r)) := by
        obtain ⟨hd, hm, hg⟩ := h r (List.mem_cons_self ..)
        rw [insertMembership, hd, hm, hg]
        simp
      rw [List.foldlM_cons, hone]
      exact ih _ fun q hq => h q (List.mem_cons_of_mem _ hq)

theorem foldlM_insertProvenance (rs : List Provenance) (t : MemberTables)
    (h : ∀ r ∈ rs, t.hasDataset r.datasetId ∧ t.hasMember r.memberId ∧
      r.sourceDatasetId.all t.hasDataset ∧ t.hasGroup r.sourceGroupId) :
    rs.foldlM insertProvenance t =
      .ok (t.setProvenance (insertAll Provenance.key t.provenance rs)) := by
  induction rs generalizing t with
  | nil => rfl
  | cons r rs ih =>
      have hone : t.insertProvenance r =
          .ok (t.setProvenance (insertOrIgnore Provenance.key t.provenance r)) := by
        obtain ⟨hd, hm, hs, hg⟩ := h r (List.mem_cons_self ..)
        rw [insertProvenance, hd, hm, hs, hg]
        simp
      rw [List.foldlM_cons, hone]
      exact ih _ fun q hq => h q (List.mem_cons_of_mem _ hq)

/-- **The merge succeeds** when no item refers to the row that goes. -/
theorem Sound.mergeFallbackRow (h : t.Sound) {f c : MemberId} (hfc : f ≠ c)
    (hc : t.hasMember c = true) (hitems : ∀ i ∈ t.items, i.memberId ≠ f) :
    t.mergeFallbackRow f c = .ok (t.absorb f c) := by
  have hms := foldlM_insertMembership
    ((t.memberships.filter fun r => r.memberId = f).map (Membership.withMember c)) t (by
      intro r hr
      obtain ⟨q, hq, rfl⟩ := List.mem_map.mp hr
      obtain ⟨hd, -, hg⟩ := h.membershipRefs q (List.mem_filter.mp hq).1
      exact ⟨hd, hc, hg⟩)
  have hps := fun rows => foldlM_insertProvenance
    ((t.provenance.filter fun r => r.memberId = f).map (Provenance.withMember c))
    (t.setMemberships rows) (by
      intro r hr
      obtain ⟨q, hq, rfl⟩ := List.mem_map.mp hr
      obtain ⟨hd, -, hs, hg⟩ := h.provenanceRefs q (List.mem_filter.mp hq).1
      exact ⟨hd, hc, hs, hg⟩)
  have hfree : (t.items.any fun i => i.memberId = f) = false := by
    rw [List.any_eq_false]
    intro i hi
    simpa using hitems i hi
  rw [MemberTables.mergeFallbackRow, if_neg hfc, hms]
  show (((t.provenance.filter fun r => r.memberId = f).map (Provenance.withMember c)).foldlM
    insertProvenance (t.setMemberships _)).bind _ = _
  rw [hps]
  show (if (t.items.any fun i => i.memberId = f) = true then _ else _) = _
  rw [hfree]
  rfl

/-! ## The statements keep the tables sound -/

theorem mem_setRow {r q : Row} :
    q ∈ (t.setRow r).members ↔
      (q ∈ t.members ∧ q.id ≠ r.id) ∨ (q = r ∧ ∃ p ∈ t.members, p.id = r.id) := by
  simp only [setRow, List.mem_map]
  constructor
  · rintro ⟨p, hp, rfl⟩
    split_ifs with hid
    · exact Or.inr ⟨rfl, p, hp, hid⟩
    · exact Or.inl ⟨hp, hid⟩
  · rintro (⟨hq, hne⟩ | ⟨rfl, p, hp, hid⟩)
    · exact ⟨q, hq, if_neg hne⟩
    · exact ⟨p, hp, if_pos hid⟩

theorem hasMember_setRow (r : Row) (id : MemberId) :
    (t.setRow r).hasMember id = t.hasMember id := by
  rw [Bool.eq_iff_iff, hasMember_iff, hasMember_iff]
  constructor
  · rintro ⟨q, hq, rfl⟩
    rcases mem_setRow.mp hq with ⟨hq, -⟩ | ⟨rfl, p, hp, hid⟩
    · exact ⟨q, hq, rfl⟩
    · exact ⟨p, hp, hid⟩
  · rintro ⟨q, hq, rfl⟩
    by_cases hid : q.id = r.id
    · exact ⟨r, mem_setRow.mpr (Or.inr ⟨rfl, q, hq, hid⟩), hid.symm⟩
    · exact ⟨q, mem_setRow.mpr (Or.inl ⟨hq, hid⟩), rfl⟩

theorem Sound.nodup (h : t.Sound) : t.members.Nodup :=
  h.identities.of_map _

/-- A row may be overwritten by one whose identity no other row has; a row with a Telegram id keeps
one. -/
theorem Sound.setRow (h : t.Sound) {r : Row} (hsome : r.identity.isSome)
    (hfree : ∀ q ∈ t.members, q.identity = r.identity → q.id = r.id)
    (hkeep : ∀ q ∈ t.members, q.id = r.id → q.telegramUserId.isSome → r.telegramUserId.isSome) :
    (t.setRow r).Sound where
  ids := by
    have hids : (t.setRow r).members.map Row.id = t.members.map Row.id := by
      simp only [MemberTables.setRow, List.map_map]
      refine List.map_congr_left fun q _ => ?_
      simp only [Function.comp_apply]
      split_ifs with hid
      · exact hid.symm
      · rfl
    exact List.pairwise_map.mp (hids ▸ List.pairwise_map.mpr h.ids)
  sequence := by
    intro q hq
    rcases mem_setRow.mp hq with ⟨hq, -⟩ | ⟨rfl, p, hp, hid⟩
    · exact h.sequence q hq
    · exact hid ▸ h.sequence p hp
  identified := by
    intro q hq
    rcases mem_setRow.mp hq with ⟨hq, -⟩ | ⟨rfl, -⟩
    · exact h.identified q hq
    · exact hsome
  identities := by
    simp only [MemberTables.setRow, List.map_map]
    refine List.Nodup.map_on (fun p hp q hq heq => ?_) h.nodup
    simp only [Function.comp_apply] at heq
    split_ifs at heq with hpid hqid hqid
    · exact h.row_unique hp hq (hpid.trans hqid.symm)
    · exact absurd (hfree q hq heq.symm) hqid
    · exact absurd (hfree p hp heq) hpid
    · exact h.identity_unique hp hq heq
  memberships := h.memberships
  provenance := h.provenance
  membershipRefs := by
    intro q hq
    rw [hasMember_setRow]
    exact h.membershipRefs q hq
  provenanceRefs := by
    intro q hq
    rw [hasMember_setRow]
    exact h.provenanceRefs q hq
  items := by
    intro i hi
    obtain ⟨q, hq, hqid, hsome'⟩ := h.items i hi
    by_cases hid : q.id = r.id
    · exact ⟨r, mem_setRow.mpr (Or.inr ⟨rfl, q, hq, hid⟩), hid.symm.trans hqid,
        hkeep q hq hid hsome'⟩
    · exact ⟨q, mem_setRow.mpr (Or.inl ⟨hq, hid⟩), hqid, hsome'⟩

theorem mem_addRow {uid : Option ℤ} {v : Values} {q : Row} :
    q ∈ (t.addRow uid v).members ↔ q ∈ t.members ∨ q = ⟨v, t.sequence + 1, uid⟩ := by
  simp [addRow]

theorem hasMember_addRow {uid : Option ℤ} {v : Values} {id : MemberId}
    (h : t.hasMember id = true) : (t.addRow uid v).hasMember id = true := by
  obtain ⟨q, hq, hid⟩ := hasMember_iff.mp h
  exact hasMember_iff.mpr ⟨q, mem_addRow.mpr (Or.inl hq), hid⟩

/-- A row whose identity no row has may be added. -/
theorem Sound.addRow (h : t.Sound) {uid : Option ℤ} {v : Values}
    (hsome : (Row.identity ⟨v, t.sequence + 1, uid⟩).isSome)
    (hfree : ∀ q ∈ t.members, q.identity ≠ Row.identity ⟨v, t.sequence + 1, uid⟩) :
    (t.addRow uid v).Sound where
  ids := by
    refine List.pairwise_append.mpr ⟨h.ids, List.pairwise_singleton _ _, fun p hp q hq => ?_⟩
    rw [List.mem_singleton.mp hq]
    exact Nat.lt_succ_of_le (h.sequence p hp)
  sequence := by
    intro q hq
    rcases mem_addRow.mp hq with hq | rfl
    · exact Nat.le_succ_of_le (h.sequence q hq)
    · exact Nat.le_refl _
  identified := by
    intro q hq
    rcases mem_addRow.mp hq with hq | rfl
    · exact h.identified q hq
    · exact hsome
  identities := by
    simp only [MemberTables.addRow, List.map_append, List.map_singleton]
    refine List.nodup_append.mpr ⟨h.identities, List.nodup_singleton _, ?_⟩
    rintro a ha b hb rfl
    obtain ⟨q, hq, rfl⟩ := List.mem_map.mp ha
    exact hfree q hq (List.mem_singleton.mp hb)
  memberships := h.memberships
  provenance := h.provenance
  membershipRefs := fun q hq =>
    ⟨(h.membershipRefs q hq).1, hasMember_addRow (h.membershipRefs q hq).2.1,
      (h.membershipRefs q hq).2.2⟩
  provenanceRefs := fun q hq =>
    ⟨(h.provenanceRefs q hq).1, hasMember_addRow (h.provenanceRefs q hq).2.1,
      (h.provenanceRefs q hq).2.2⟩
  items := by
    intro i hi
    obtain ⟨q, hq, hqid⟩ := h.items i hi
    exact ⟨q, mem_addRow.mpr (Or.inl hq), hqid⟩

theorem mem_absorb {f c : MemberId} {q : Row} :
    q ∈ (t.absorb f c).members ↔ q ∈ t.members ∧ q.id ≠ f := by
  simp [absorb]

theorem hasMember_absorb {f c id : MemberId} (h : t.hasMember id = true) (hne : id ≠ f) :
    (t.absorb f c).hasMember id = true := by
  obtain ⟨q, hq, rfl⟩ := hasMember_iff.mp h
  exact hasMember_iff.mpr ⟨q, mem_absorb.mpr ⟨hq, hne⟩, rfl⟩

/-- A row that no item refers to may go, its rows of datasets to another. -/
theorem Sound.absorb (h : t.Sound) {f c : MemberId} (hfc : f ≠ c)
    (hc : t.hasMember c = true) (hitems : ∀ i ∈ t.items, i.memberId ≠ f) :
    (t.absorb f c).Sound where
  ids := h.ids.sublist List.filter_sublist
  sequence := fun q hq => h.sequence q (mem_absorb.mp hq).1
  identified := fun q hq => h.identified q (mem_absorb.mp hq).1
  identities := h.identities.sublist (List.filter_sublist.map _)
  memberships := h.memberships.rekey
  provenance := h.provenance.rekey
  membershipRefs := by
    intro q hq
    rcases mem_of_mem_rekey hq with ⟨hq, hne⟩ | ⟨r, hr, -, rfl⟩
    · obtain ⟨hd, hm, hg⟩ := h.membershipRefs q hq
      exact ⟨hd, hasMember_absorb hm hne, hg⟩
    · obtain ⟨hd, -, hg⟩ := h.membershipRefs r hr
      exact ⟨hd, hasMember_absorb hc hfc.symm, hg⟩
  provenanceRefs := by
    intro q hq
    rcases mem_of_mem_rekey hq with ⟨hq, hne⟩ | ⟨r, hr, -, rfl⟩
    · obtain ⟨hd, hm, hs, hg⟩ := h.provenanceRefs q hq
      exact ⟨hd, hasMember_absorb hm hne, hs, hg⟩
    · obtain ⟨hd, -, hs, hg⟩ := h.provenanceRefs r hr
      exact ⟨hd, hasMember_absorb hc hfc.symm, hs, hg⟩
  items := by
    intro i hi
    obtain ⟨q, hq, hqid, hsome⟩ := h.items i hi
    exact ⟨q, mem_absorb.mpr ⟨hq, fun heq => hitems i hi (hqid.symm.trans heq)⟩, hqid, hsome⟩

/-- A drawn id may be lost. -/
theorem Sound.draw (h : t.Sound) : Sound { t with sequence := t.sequence + 1 } where
  ids := h.ids
  sequence := fun q hq => Nat.le_succ_of_le (h.sequence q hq)
  identified := h.identified
  identities := h.identities
  memberships := h.memberships
  provenance := h.provenance
  membershipRefs := h.membershipRefs
  provenanceRefs := h.provenanceRefs
  items := h.items

/-! ## The five things that `_upsert_one` does -/

/-- What `_upsert_one` does for the member `m`, with the id it returns: it updates the row of the
Telegram id, `known`; it does so and takes over the username-only row, `merged`; it updates the
username-only row, which gets the Telegram id if the member has one, `named`; it adds a row; or it
does nothing for a member without Telegram id and username. -/
inductive Upsert (t : MemberTables) (m : Member) : Option MemberId → MemberTables → Prop
  | known {uid : ℤ} {c : Row} (huid : m.telegramUserId = some uid) (hc : c ∈ t.members)
      (hcuid : c.telegramUserId = some uid)
      (hfree : ∀ u, (values m).username = some u → t.fallbackRow u = none) :
      Upsert t m (some c.id)
        ({ t with sequence := t.sequence + 1 }.setRow ⟨values m, c.id, some uid⟩)
  | merged {uid : ℤ} {c f : Row} {u : String} (huid : m.telegramUserId = some uid)
      (hc : c ∈ t.members) (hcuid : c.telegramUserId = some uid)
      (hu : (values m).username = some u) (hf : t.fallbackRow u = some f) :
      Upsert t m (some c.id)
        (({ t with sequence := t.sequence + 1 }.setRow ⟨values m, c.id, some uid⟩).absorb f.id c.id)
  | named {f : Row} {u : String} (hnew : ∀ uid, m.telegramUserId = some uid →
      t.byTelegramId uid = none) (hu : (values m).username = some u)
      (hf : t.fallbackRow u = some f) :
      Upsert t m (some f.id) (t.setRow ⟨values m, f.id, m.telegramUserId⟩)
  | added (hnew : ∀ uid, m.telegramUserId = some uid → t.byTelegramId uid = none)
      (hfree : ∀ u, (values m).username = some u → t.fallbackRow u = none)
      (hsome : m.telegramUserId.isSome ∨ (values m).username.isSome) :
      Upsert t m (some (t.sequence + 1)) (t.addRow m.telegramUserId (values m))
  | invalid (hnone : m.telegramUserId = none) (hu : (values m).username = none) :
      Upsert t m none t

/-- A row whose identity is free is written without a conflict. -/
theorem not_conflicts {r : Row}
    (h : ∀ q ∈ t.members, q.identity = r.identity → q.id = r.id) : t.conflicts r = false := by
  rw [← Bool.not_eq_true, conflicts_iff]
  rintro ⟨q, hq, hne, -, hid⟩
  exact hne (h q hq hid)

theorem identity_values {m : Member} {u : String} (hu : (values m).username = some u)
    (id : MemberId) : Row.identity ⟨values m, id, none⟩ = some (.inr (lower u)) :=
  Row.identity_of_none rfl hu (exists_ne_of_cleanUsername hu)

/-- The identity of the row written for a member without a row is free. -/
theorem Sound.identity_free (h : t.Sound) {m : Member} {id : MemberId}
    (hnew : ∀ uid, m.telegramUserId = some uid → t.byTelegramId uid = none)
    (hfree : m.telegramUserId = none → ∀ u, (values m).username = some u →
      ∀ f, t.fallbackRow u = some f → f.id = id)
    (hsome : m.telegramUserId.isSome ∨ (values m).username.isSome) {q : Row}
    (hq : q ∈ t.members)
    (hid : q.identity = Row.identity ⟨values m, id, m.telegramUserId⟩) : q.id = id := by
  cases huid : m.telegramUserId with
  | some uid =>
      have hrow : Row.identity ⟨values m, id, some uid⟩ = some (.inl uid) := rfl
      rw [huid, hrow] at hid
      exact absurd hid (byTelegramId_eq_none (hnew uid huid) hq)
  | none =>
      rw [huid, Option.isSome_none, Bool.false_eq_true, false_or] at hsome
      obtain ⟨u, hu⟩ := Option.isSome_iff_exists.mp hsome
      rw [huid, identity_values hu] at hid
      exact hfree huid u hu q (h.fallbackRow hq hid)

/-- The row of a Telegram id is written without a conflict. -/
theorem Sound.identity_known (h : t.Sound) {c : Row} {uid : ℤ} (hc : c ∈ t.members)
    (hcuid : c.telegramUserId = some uid) {v : Values} {q : Row} (hq : q ∈ t.members)
    (hid : q.identity = Row.identity ⟨v, c.id, some uid⟩) : q.id = c.id := by
  have hrow : Row.identity ⟨v, c.id, some uid⟩ = some (.inl uid) := rfl
  rw [hrow, ← Row.identity_of_some hcuid] at hid
  rw [h.identity_unique hq hc hid]

theorem Sound.known (h : t.Sound) {c : Row} {uid : ℤ} (hc : c ∈ t.members)
    (hcuid : c.telegramUserId = some uid) (v : Values) :
    ({ t with sequence := t.sequence + 1 }.setRow ⟨v, c.id, some uid⟩).Sound :=
  h.draw.setRow rfl (fun _ hq hid => h.identity_known hc hcuid hq hid) fun _ _ _ _ => rfl

/-- A username-only row is not the row of a Telegram id, and no item refers to it. -/
theorem Sound.fallback_ne (h : t.Sound) {f c : Row} {u : String} {uid : ℤ}
    (hf : t.fallbackRow u = some f) (hc : c ∈ t.members) (hcuid : c.telegramUserId = some uid) :
    f.id ≠ c.id ∧ ∀ i ∈ t.items, i.memberId ≠ f.id := by
  obtain ⟨hfmem, hfuid, -⟩ := h.fallbackRow_eq_some hf
  constructor
  · intro hid
    rw [h.row_unique hfmem hc hid, hcuid] at hfuid
    exact absurd hfuid (by simp)
  · intro i hi hid
    obtain ⟨q, hq, hqid, hsome⟩ := h.items i hi
    rw [h.row_unique hq hfmem (hqid.trans hid), hfuid] at hsome
    exact absurd hsome (by simp)

/-- **The tables stay sound.** -/
theorem Sound.upsert (h : t.Sound) {m : Member} {id : Option MemberId} (hup : Upsert t m id t') :
    t'.Sound := by
  cases hup with
  | known huid hc hcuid hfree => exact h.known hc hcuid _
  | merged huid hc hcuid hu hf =>
      obtain ⟨hne, hitems⟩ := h.fallback_ne hf hc hcuid
      exact (h.known hc hcuid _).absorb hne
        (by rw [hasMember_setRow]; exact hasMember_iff.mpr ⟨_, hc, rfl⟩) hitems
  | @named f u hnew hu hf =>
      obtain ⟨hfmem, hfuid, -⟩ := h.fallbackRow_eq_some hf
      refine h.setRow ?_ (fun q hq hid => ?_) fun q hq hid hsome => ?_
      · cases huid : m.telegramUserId with
        | some uid => rfl
        | none => rw [identity_values hu]; rfl
      · refine h.identity_free hnew (fun _ u' hu' f' hf' => ?_) (Or.inr (by rw [hu]; rfl)) hq hid
        rw [hu, Option.some.injEq] at hu'
        rw [← hu', hf, Option.some.injEq] at hf'
        rw [hf']
      · rw [h.row_unique hq hfmem hid, hfuid] at hsome
        exact absurd hsome (by simp)
  | added hnew hfree hsome =>
      refine h.addRow ?_ fun q hq hid => ?_
      · cases huid : m.telegramUserId with
        | some uid => rfl
        | none =>
            rw [huid, Option.isSome_none, Bool.false_eq_true, false_or] at hsome
            obtain ⟨u, hu⟩ := Option.isSome_iff_exists.mp hsome
            rw [identity_values hu]
            rfl
      · have hfresh := h.identity_free hnew (fun _ u hu f hf => by
          rw [hfree u hu] at hf
          exact absurd hf (by simp)) hsome hq hid
        exact absurd (h.sequence q hq) (by rw [hfresh]; exact Nat.not_succ_le_self _)
  | invalid hnone hu => exact h

/-! ## `_upsert_one` -/

theorem Sound.updateMember_known (h : t.Sound) {c : Row} {uid : ℤ} (hc : c ∈ t.members)
    (hcuid : c.telegramUserId = some uid) (v : Values) :
    t.upsertMember uid v =
      .ok ({ t with sequence := t.sequence + 1 }.setRow ⟨v, c.id, some uid⟩) := by
  have hfree := not_conflicts (t := { t with sequence := t.sequence + 1 })
    (r := ⟨v, c.id, some uid⟩) fun q hq hid => h.identity_known hc hcuid hq hid
  unfold upsertMember
  rw [h.byTelegramId hc hcuid]
  simp only [updateMember, hfree, Bool.false_eq_true, if_false]

theorem Sound.upsertTelegram_known (h : t.Sound) {m : Member} {c : Row} {uid : ℤ}
    (huid : m.telegramUserId = some uid) (hc : c ∈ t.members)
    (hcuid : c.telegramUserId = some uid) :
    ∃ id t', t.upsertTelegram uid (values m) (some c) ((values m).username.bind t.fallbackRow) =
      .ok (id, t') ∧ Upsert t m id t' := by
  have hsound := h.known hc hcuid (values m)
  have hrow : (({ t with sequence := t.sequence + 1 }).setRow
      ⟨values m, c.id, some uid⟩).byTelegramId uid = some ⟨values m, c.id, some uid⟩ :=
    hsound.byTelegramId (mem_setRow.mpr (Or.inr ⟨rfl, c, hc, rfl⟩)) rfl
  cases hf : (values m).username.bind t.fallbackRow with
  | none =>
      refine ⟨_, _, ?_, .known huid hc hcuid fun u hu => ?_⟩
      · simp only [upsertTelegram, h.updateMember_known hc hcuid, bind, Except.bind, hrow]
        rfl
      · simpa [hu] using hf
  | some f =>
      obtain ⟨u, hu, hfu⟩ := Option.bind_eq_some_iff.mp hf
      obtain ⟨hne, hitems⟩ := h.fallback_ne hfu hc hcuid
      have hmerge := hsound.mergeFallbackRow hne
        (by rw [hasMember_setRow]; exact hasMember_iff.mpr ⟨_, hc, rfl⟩) hitems
      refine ⟨_, _, ?_, .merged huid hc hcuid hu hfu⟩
      simp only [upsertTelegram, h.updateMember_known hc hcuid, bind, Except.bind, hrow, hmerge]
      rfl

theorem Sound.insertMember_added (h : t.Sound) {m : Member}
    (hnew : ∀ uid, m.telegramUserId = some uid → t.byTelegramId uid = none)
    (hfree : ∀ u, (values m).username = some u → t.fallbackRow u = none)
    (hsome : m.telegramUserId.isSome ∨ (values m).username.isSome) :
    t.insertMember m.telegramUserId (values m) =
      .ok (t.addRow m.telegramUserId (values m)) := by
  have hfresh := not_conflicts (t := t) (r := ⟨values m, t.sequence + 1, m.telegramUserId⟩)
    fun q hq hid => h.identity_free hnew (fun _ u hu f hf => by
      rw [hfree u hu] at hf
      exact absurd hf (by simp)) hsome hq hid
  simp only [insertMember, hfresh, Bool.false_eq_true, if_false]

theorem Sound.upsertTelegram_new (h : t.Sound) {m : Member} {uid : ℤ}
    (huid : m.telegramUserId = some uid) (hex : t.byTelegramId uid = none) :
    ∃ id t', t.upsertTelegram uid (values m) none ((values m).username.bind t.fallbackRow) =
      .ok (id, t') ∧ Upsert t m id t' := by
  have hnew : ∀ uid', m.telegramUserId = some uid' → t.byTelegramId uid' = none := by
    intro uid' huid'
    rw [huid, Option.some.injEq] at huid'
    rwa [← huid']
  cases hf : (values m).username.bind t.fallbackRow with
  | some f =>
      obtain ⟨u, hu, hfu⟩ := Option.bind_eq_some_iff.mp hf
      have hup : Upsert t m (some f.id) (t.setRow ⟨values m, f.id, m.telegramUserId⟩) :=
        .named hnew hu hfu
      refine ⟨_, _, ?_, hup⟩
      have hfree := not_conflicts (t := t) (r := ⟨values m, f.id, m.telegramUserId⟩)
        fun q hq hid => h.identity_free hnew (fun hnone => by
          rw [huid] at hnone
          exact absurd hnone (by simp)) (Or.inl (by rw [huid]; rfl)) hq hid
      rw [huid] at hfree ⊢
      simp only [upsertTelegram, updateMember, hfree, Bool.false_eq_true, if_false, bind,
        Except.bind]
      rfl
  | none =>
      have hfree : ∀ u, (values m).username = some u → t.fallbackRow u = none := by
        intro u hu
        simpa [hu] using hf
      have hsome : m.telegramUserId.isSome ∨ (values m).username.isSome :=
        Or.inl (by rw [huid]; rfl)
      have hup : Upsert t m (some (t.sequence + 1)) (t.addRow m.telegramUserId (values m)) :=
        .added hnew hfree hsome
      refine ⟨_, _, ?_, hup⟩
      have hinsert := h.insertMember_added hnew hfree hsome
      have hrow := (h.upsert hup).byTelegramId (r := ⟨values m, t.sequence + 1, m.telegramUserId⟩)
        (mem_addRow.mpr (Or.inr rfl)) huid
      rw [huid] at hinsert hrow ⊢
      simp only [upsertTelegram, upsertMember, hex, hinsert, bind, Except.bind, hrow]
      rfl

theorem Sound.upsertOne_username (h : t.Sound) {m : Member} (hnone : m.telegramUserId = none) :
    ∃ id t', t.upsertOne m = .ok (id, t') ∧ Upsert t m id t' := by
  have hnew : ∀ uid, m.telegramUserId = some uid → t.byTelegramId uid = none := by
    intro uid huid
    rw [hnone] at huid
    exact absurd huid (by simp)
  cases hu : (values m).username with
  | none => exact ⟨none, t, by simp only [upsertOne, hnone, hu]; rfl, .invalid hnone hu⟩
  | some u =>
      cases hf : t.fallbackRow u with
      | some f =>
          have hup : Upsert t m (some f.id) (t.setRow ⟨values m, f.id, m.telegramUserId⟩) :=
            .named hnew hu hf
          refine ⟨_, _, ?_, hup⟩
          obtain ⟨-, hfuid, -⟩ := h.fallbackRow_eq_some hf
          have hfree := not_conflicts (t := t) (r := ⟨values m, f.id, m.telegramUserId⟩)
            fun q hq hid => h.identity_free hnew (fun _ u' hu' f' hf' => by
              rw [hu, Option.some.injEq] at hu'
              rw [← hu', hf, Option.some.injEq] at hf'
              rw [hf']) (Or.inr (by rw [hu]; rfl)) hq hid
          rw [hnone] at hfree ⊢
          simp only [upsertOne, hnone, hu, hf, hfuid, updateMember, hfree, Bool.false_eq_true,
            if_false, bind, Except.bind]
          rfl
      | none =>
          have hfree : ∀ u', (values m).username = some u' → t.fallbackRow u' = none := by
            intro u' hu'
            rw [hu, Option.some.injEq] at hu'
            rwa [← hu']
          have hsome : m.telegramUserId.isSome ∨ (values m).username.isSome :=
            Or.inr (by rw [hu]; rfl)
          have hinsert := h.insertMember_added hnew hfree hsome
          refine ⟨_, _, ?_, .added hnew hfree hsome⟩
          rw [hnone] at hinsert ⊢
          simp only [upsertOne, hnone, hu, hf, hinsert, bind, Except.bind]
          rfl

/-- **`_upsert_one` succeeds on sound tables** and does one of the five things. -/
theorem Sound.upsertOne_spec (h : t.Sound) (m : Member) :
    ∃ id t', t.upsertOne m = .ok (id, t') ∧ Upsert t m id t' := by
  cases huid : m.telegramUserId with
  | none => exact h.upsertOne_username huid
  | some uid =>
      have hunfold : t.upsertOne m = t.upsertTelegram uid (values m) (t.byTelegramId uid)
          ((values m).username.bind t.fallbackRow) := by
        simp only [upsertOne, huid]
      rw [hunfold]
      cases hex : t.byTelegramId uid with
      | none => exact h.upsertTelegram_new huid hex
      | some c =>
          obtain ⟨hc, hcuid⟩ := byTelegramId_eq_some hex
          exact h.upsertTelegram_known huid hc hcuid

end MemberTables
end Members
end MigrationStudio
