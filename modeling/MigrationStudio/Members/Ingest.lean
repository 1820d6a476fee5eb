import MigrationStudio.Members.Upsert

/-!
# What an ingest does to the members and their datasets

A batch identifies people: a username-only row whose username a member of the batch carries
together with a Telegram id is the person of that id, and the first such member decides.  Rows of
one person become one row, and every dataset and every origin of a row is afterwards one of the row
it has become.

* `Turns`: the turns of the loop of `submit_ingest_batch`; `submitIngestBatch_ok`.
* `claimed`: the Telegram id by which a batch identifies a row; `settle`: the row it becomes.
* `Settled`, `Turns.settled`: what the loop keeps of the rows, the datasets and the origins.
-/

namespace MigrationStudio
namespace Members

open Foundations MigrationStudio.Core Telegram

/-- What a row of provenance says beside the dataset and the member: the source dataset, the source
group and the label. -/
abbrev Origin := Option DatasetId × Option GroupId × String

/-- What the statements for a valid member refer to exists: the dataset, the group and, when the
account records the member as a peer, the account. -/
def IngestInto.Refers (b : IngestInto) (t : MemberTables) (m : Member) : Prop :=
  m.telegramUserId.isSome ∨ (MemberTables.values m).username.isSome →
    t.hasDataset b.datasetId ∧ t.hasGroup b.sourceGroupId ∧
      ∀ p, ingestRecord b.accountId ⟨m.telegramUserId, m.accessHash⟩ = some p →
        t.accounts p.accountId

/-- The username of the member is that of the username-only row with this key. -/
def Names (m : Member) (k : String) : Prop := (MemberTables.values m).username.map lower = some k

instance (m : Member) (k : String) : Decidable (Names m k) :=
  inferInstanceAs (Decidable (_ = _))

namespace MemberTables

variable {t t' : MemberTables} {m : Member} {i : Option MemberId} {b : IngestInto}

/-- The member is in the dataset. -/
def InDataset (t : MemberTables) (d : DatasetId) (id : MemberId) : Prop :=
  (d, id) ∈ t.memberships.map Membership.key

/-- The member is in the dataset with this origin. -/
def HasOrigin (t : MemberTables) (d : DatasetId) (id : MemberId) (o : Origin) : Prop :=
  (d, id, o) ∈ t.provenance.map Provenance.key

/-! ## Rows of datasets that move -/

theorem inDataset_absorb {f c : MemberId} (hfc : f ≠ c) {d : DatasetId} {id : MemberId} :
    (t.absorb f c).InDataset d id ↔ (t.InDataset d id ∧ id ≠ f) ∨ (id = c ∧ t.InDataset d f) := by
  show (d, id) ∈ (rekey Membership.key Membership.memberId (Membership.withMember c) f
    t.memberships).map Membership.key ↔ _
  rw [mem_map_rekey Prod.snd (by exact fun _ => rfl) (by exact fun _ => hfc.symm)]
  refine or_congr_right ?_
  constructor
  · rintro ⟨r, hr, rfl, hkey⟩
    simp only [Membership.key, Membership.withMember, Prod.mk.injEq] at hkey
    exact ⟨hkey.2.symm, List.mem_map.mpr ⟨r, hr, by rw [← hkey.1]; rfl⟩⟩
  · rintro ⟨rfl, hf⟩
    obtain ⟨r, hr, hkey⟩ := List.mem_map.mp hf
    simp only [Membership.key, Prod.mk.injEq] at hkey
    exact ⟨r, hr, hkey.2, by rw [← hkey.1]; rfl⟩

theorem hasOrigin_absorb {f c : MemberId} (hfc : f ≠ c) {d : DatasetId} {id : MemberId}
    {o : Origin} :
    (t.absorb f c).HasOrigin d id o ↔
      (t.HasOrigin d id o ∧ id ≠ f) ∨ (id = c ∧ t.HasOrigin d f o) := by
  show (d, id, o) ∈ (rekey Provenance.key Provenance.memberId (Provenance.withMember c) f
    t.provenance).map Provenance.key ↔ _
  rw [mem_map_rekey (fun k => k.2.1) (by exact fun _ => rfl) (by exact fun _ => hfc.symm)]
  refine or_congr_right ?_
  constructor
  · rintro ⟨r, hr, rfl, hkey⟩
    simp only [Provenance.key, Provenance.withMember, Prod.mk.injEq] at hkey
    refine ⟨hkey.2.1.symm, List.mem_map.mpr ⟨r, hr, ?_⟩⟩
    simp only [Provenance.key, Prod.mk.injEq, true_and]
    exact ⟨hkey.1, hkey.2.2⟩
  · rintro ⟨rfl, hf⟩
    obtain ⟨r, hr, hkey⟩ := List.mem_map.mp hf
    simp only [Provenance.key, Prod.mk.injEq] at hkey
    refine ⟨r, hr, hkey.2.1, ?_⟩
    simp only [Provenance.key, Provenance.withMember, Prod.mk.injEq, true_and]
    exact ⟨hkey.1, hkey.2.2⟩

/-- The row that takes over a row when the member is upserted: the row of the Telegram id takes over
the username-only row of the username, every other row stays itself. -/
def mergedId (t : MemberTables) (m : Member) (id : MemberId) : MemberId :=
  match m.telegramUserId.bind t.byTelegramId, (values m).username.bind t.fallbackRow with
  | some c, some f => if id = f.id then c.id else id
  | _, _ => id

/-- What an upsert does to the rows of datasets: nothing, and then no row is taken over, or it
gives those of one row to another. -/
theorem Upsert.moves (hup : Upsert t m i t') (h : t.Sound) :
    (t'.memberships = t.memberships ∧ t'.provenance = t.provenance ∧ ∀ id, t.mergedId m id = id) ∨
      ∃ f c, f ≠ c ∧ t'.memberships = (t.absorb f c).memberships ∧
        t'.provenance = (t.absorb f c).provenance ∧
        ∀ id, t.mergedId m id = if id = f then c else id := by
  have hself : (m.telegramUserId.bind t.byTelegramId = none ∨
      (values m).username.bind t.fallbackRow = none) → ∀ id, t.mergedId m id = id := by
    rintro (hnone | hnone) id
    · simp [mergedId, hnone]
    · unfold mergedId
      rw [hnone]
      split
      · rename_i heq
        exact absurd heq (by simp)
      · rfl
  have hnone : (∀ u, (values m).username = some u → t.fallbackRow u = none) →
      (values m).username.bind t.fallbackRow = none := by
    intro hfree
    cases hu : (values m).username with
    | none => rfl
    | some u => exact hfree u hu
  cases hup with
  | known huid hc hcuid hfree => exact Or.inl ⟨rfl, rfl, hself (Or.inr (hnone hfree))⟩
  | @merged uid c f u huid hc hcuid hu hf =>
      refine Or.inr ⟨f.id, c.id, (h.fallback_ne hf hc hcuid).1, rfl, rfl, fun id => ?_⟩
      simp [mergedId, huid, hu, hf, h.byTelegramId hc hcuid]
  | named hnew hu hf =>
      refine Or.inl ⟨rfl, rfl, hself (Or.inl ?_)⟩
      cases huid : m.telegramUserId with
      | none => rfl
      | some uid => exact hnew uid huid
  | added hnew hfree hsome => exact Or.inl ⟨rfl, rfl, hself (Or.inr (hnone hfree))⟩
  | invalid hnone' hu => exact Or.inl ⟨rfl, rfl, hself (Or.inr (by rw [hu]; rfl))⟩

/-- **The datasets after an upsert**: each row has become the one that takes it over. -/
theorem Upsert.inDataset (hup : Upsert t m i t') (h : t.Sound) {d : DatasetId} {id : MemberId} :
    t'.InDataset d id ↔ ∃ id₀, t.InDataset d id₀ ∧ t.mergedId m id₀ = id := by
  rcases hup.moves h with ⟨hms, -, hself⟩ | ⟨f, c, hfc, hms, -, hmerge⟩
  · unfold InDataset
    rw [hms]
    simp [hself]
  · have habs : t'.InDataset d id ↔ (t.absorb f c).InDataset d id := by
      unfold InDataset
      rw [hms]
    rw [habs, inDataset_absorb hfc]
    constructor
    · rintro (⟨hin, hne⟩ | ⟨rfl, hin⟩)
      · exact ⟨id, hin, by rw [hmerge, if_neg hne]⟩
      · exact ⟨f, hin, by rw [hmerge, if_pos rfl]⟩
    · rintro ⟨id₀, hin, heq⟩
      rw [hmerge] at heq
      split_ifs at heq with hf
      · exact Or.inr ⟨heq.symm, hf ▸ hin⟩
      · exact Or.inl ⟨heq ▸ hin, fun hid => hf (heq.trans hid)⟩

/-- The origins after an upsert. -/
theorem Upsert.hasOrigin (hup : Upsert t m i t') (h : t.Sound) {d : DatasetId} {id : MemberId}
    {o : Origin} :
    t'.HasOrigin d id o ↔ ∃ id₀, t.HasOrigin d id₀ o ∧ t.mergedId m id₀ = id := by
  rcases hup.moves h with ⟨-, hps, hself⟩ | ⟨f, c, hfc, -, hps, hmerge⟩
  · unfold HasOrigin
    rw [hps]
    simp [hself]
  · have habs : t'.HasOrigin d id o ↔ (t.absorb f c).HasOrigin d id o := by
      unfold HasOrigin
      rw [hps]
    rw [habs, hasOrigin_absorb hfc]
    constructor
    · rintro (⟨hin, hne⟩ | ⟨rfl, hin⟩)
      · exact ⟨id, hin, by rw [hmerge, if_neg hne]⟩
      · exact ⟨f, hin, by rw [hmerge, if_pos rfl]⟩
    · rintro ⟨id₀, hin, heq⟩
      rw [hmerge] at heq
      split_ifs at heq with hf
      · exact Or.inr ⟨heq.symm, hf ▸ hin⟩
      · exact Or.inl ⟨heq ▸ hin, fun hid => hf (heq.trans hid)⟩

/-! ## What an upsert does to a row -/

theorem Sound.fallbackRow_of_names (h : t.Sound) {r : Row} {k : String} (hr : r ∈ t.members)
    (hk : r.identity = some (.inr k)) (hn : Names m k) {u : String}
    (hu : (values m).username = some u) : t.fallbackRow u = some r := by
  have hlower : lower u = k := by simpa [Names, hu] using hn
  exact h.fallbackRow hr (by rw [hk, hlower])

theorem Sound.names_of_fallbackRow (h : t.Sound) {f r : Row} {u k : String}
    (hu : (values m).username = some u) (hf : t.fallbackRow u = some f) (hr : r ∈ t.members)
    (hk : r.identity = some (.inr k)) (hid : r.id = f.id) : Names m k := by
  obtain ⟨hfmem, -, hfid⟩ := h.fallbackRow_eq_some hf
  rw [h.row_unique hr hfmem hid, hfid] at hk
  have hlower : lower u = k := by simpa using hk
  rw [Names, hu, Option.map_some, hlower]

theorem mem_draw_setRow {r q : Row} (hq : q ∈ t.members) (hne : q.id ≠ r.id) :
    q ∈ ({ t with sequence := t.sequence + 1 }.setRow r).members :=
  mem_setRow.mpr (Or.inl ⟨hq, hne⟩)

/-- A row with a Telegram id keeps it, and no other row takes it over. -/
theorem Upsert.keeps_telegram (hup : Upsert t m i t') (h : t.Sound) {r : Row} {x : ℤ}
    (hr : r ∈ t.members) (hx : r.telegramUserId = some x) :
    (∃ r' ∈ t'.members, r'.id = r.id ∧ r'.telegramUserId = some x) ∧ t.mergedId m r.id = r.id := by
  constructor
  · cases hup with
    | @known uid c huid hc hcuid hfree =>
        by_cases hid : r.id = c.id
        · refine ⟨_, mem_setRow.mpr (Or.inr ⟨rfl, c, hc, rfl⟩), hid.symm, ?_⟩
          rw [h.row_unique hr hc hid, hcuid] at hx
          exact hx
        · exact ⟨r, mem_draw_setRow hr hid, rfl, hx⟩
    | @merged uid c f u huid hc hcuid hu hf =>
        obtain ⟨hfc, -⟩ := h.fallback_ne hf hc hcuid
        obtain ⟨hfr, -⟩ := h.fallback_ne hf hr hx
        by_cases hid : r.id = c.id
        · refine ⟨⟨values m, c.id, some uid⟩, mem_absorb.mpr
            ⟨mem_setRow.mpr (Or.inr ⟨rfl, c, hc, rfl⟩), hfc.symm⟩, hid.symm, ?_⟩
          rw [h.row_unique hr hc hid, hcuid] at hx
          exact hx
        · exact ⟨r, mem_absorb.mpr ⟨mem_draw_setRow hr hid, hfr.symm⟩, rfl, hx⟩
    | named hnew hu hf =>
        obtain ⟨hfr, -⟩ := h.fallback_ne hf hr hx
        exact ⟨r, mem_setRow.mpr (Or.inl ⟨hr, hfr.symm⟩), rfl, hx⟩
    | added hnew hfree hsome => exact ⟨r, mem_addRow.mpr (Or.inl hr), rfl, hx⟩
    | invalid hnone hu => exact ⟨r, hr, rfl, hx⟩
  · unfold mergedId
    split
    · rename_i f _ hf
      rw [if_neg]
      intro hid
      obtain ⟨u, -, hf⟩ := Option.bind_eq_some_iff.mp hf
      exact (h.fallback_ne hf hr hx).1 hid.symm
    · rfl

/-- A username-only row that the member does not claim stays. -/
theorem Upsert.keeps_fallback (hup : Upsert t m i t') (h : t.Sound) {r : Row} {k : String}
    (hr : r ∈ t.members) (hk : r.identity = some (.inr k))
    (hfree : Names m k → m.telegramUserId = none) :
    (∃ r' ∈ t'.members, r'.id = r.id ∧ r'.identity = some (.inr k)) ∧
      t.mergedId m r.id = r.id := by
  have hnone : r.telegramUserId = none := by
    cases hx : r.telegramUserId with
    | none => rfl
    | some x =>
        rw [Row.identity_of_some hx] at hk
        exact absurd hk (by simp)
  have hother : ∀ {c : Row} {uid : ℤ}, c ∈ t.members → c.telegramUserId = some uid →
      r.id ≠ c.id := by
    intro c uid hc hcuid hid
    rw [h.row_unique hr hc hid, hcuid] at hnone
    exact absurd hnone (by simp)
  constructor
  · cases hup with
    | known huid hc hcuid hf =>
        have hne := hother hc hcuid
        exact ⟨r, mem_draw_setRow hr hne, rfl, hk⟩
    | @merged uid c f u huid hc hcuid hu hf =>
        have hne := hother hc hcuid
        refine ⟨r, mem_absorb.mpr ⟨mem_draw_setRow hr hne, fun hid => ?_⟩, rfl, hk⟩
        rw [hfree (h.names_of_fallbackRow hu hf hr hk hid)] at huid
        exact absurd huid (by simp)
    | @named f u hnew hu hf =>
        by_cases hid : r.id = f.id
        · have hn := h.names_of_fallbackRow hu hf hr hk hid
          refine ⟨⟨values m, f.id, m.telegramUserId⟩, mem_setRow.mpr (Or.inr ⟨rfl, r, hr, hid⟩),
            hid.symm, ?_⟩
          have hlower : lower u = k := by simpa [Names, hu] using hn
          rw [hfree hn, identity_values hu, hlower]
        · exact ⟨r, mem_setRow.mpr (Or.inl ⟨hr, hid⟩), rfl, hk⟩
    | added hnew hfree' hsome => exact ⟨r, mem_addRow.mpr (Or.inl hr), rfl, hk⟩
    | invalid hnone' hu => exact ⟨r, hr, rfl, hk⟩
  · unfold mergedId
    split
    · rename_i c f hc hf
      rw [if_neg]
      intro hid
      obtain ⟨u, hu, hf⟩ := Option.bind_eq_some_iff.mp hf
      obtain ⟨uid, huid, -⟩ := Option.bind_eq_some_iff.mp hc
      rw [hfree (h.names_of_fallbackRow hu hf hr hk hid)] at huid
      exact absurd huid (by simp)
    · rfl

/-- A username-only row that the member claims has become the row of the member's Telegram id. -/
theorem Upsert.claims (hup : Upsert t m i t') (h : t.Sound) {r : Row} {k : String} {x : ℤ}
    (hr : r ∈ t.members) (hk : r.identity = some (.inr k)) (hn : Names m k)
    (hx : m.telegramUserId = some x) :
    ∃ r' ∈ t'.members, r'.telegramUserId = some x ∧ t.mergedId m r.id = r'.id ∧
      (r'.id ≠ r.id → t'.hasMember r.id = false) := by
  have hfind : ∀ u, (values m).username = some u → t.fallbackRow u = some r :=
    fun u hu => h.fallbackRow_of_names hr hk hn hu
  have hnofree : ¬ ∀ u, (values m).username = some u → t.fallbackRow u = none := by
    intro hfree
    obtain ⟨u, hu, -⟩ := Option.map_eq_some_iff.mp hn
    exact absurd (hfree u hu) (by simp [hfind u hu])
  cases hup with
  | known huid hc hcuid hfree => exact absurd hfree hnofree
  | @merged uid c f u huid hc hcuid hu hf =>
      rw [hfind u hu, Option.some.injEq] at hf
      subst hf
      rw [hx, Option.some.injEq] at huid
      subst huid
      obtain ⟨hfc, -⟩ := h.fallback_ne (hfind u hu) hc hcuid
      refine ⟨⟨values m, c.id, some x⟩, mem_absorb.mpr
        ⟨mem_setRow.mpr (Or.inr ⟨rfl, c, hc, rfl⟩), hfc.symm⟩, rfl, ?_, fun _ => ?_⟩
      · simp [mergedId, hx, hu, hfind u hu, h.byTelegramId hc hcuid]
      · rw [← Bool.not_eq_true, hasMember_iff]
        rintro ⟨q, hq, hqid⟩
        exact (mem_absorb.mp hq).2 hqid
  | @named f u hnew hu hf =>
      rw [hfind u hu, Option.some.injEq] at hf
      subst hf
      refine ⟨⟨values m, r.id, m.telegramUserId⟩, mem_setRow.mpr (Or.inr ⟨rfl, r, hr, rfl⟩), hx,
        ?_, fun hne => absurd rfl hne⟩
      simp [mergedId, hx, hnew x hx]
  | added hnew hfree hsome => exact absurd hfree hnofree
  | invalid hnone hu =>
      rw [hnone] at hx
      exact absurd hx (by simp)

/-- The member is written into the row that it identifies, and the username-only row of its username
may go. -/
theorem Upsert.into_row (hup : Upsert t m i t') (h : t.Sound) {c : Row} (hc : c ∈ t.members)
    (huid : c.telegramUserId = m.telegramUserId)
    (hn : m.telegramUserId = none → ∃ k, c.identity = some (.inr k) ∧ Names m k) :
    i = some c.id ∧
      (t'.members = (t.setRow ⟨values m, c.id, m.telegramUserId⟩).members ∨
        ∃ u f, m.telegramUserId.isSome ∧ (values m).username = some u ∧
          t.fallbackRow u = some f ∧ f.id ≠ c.id ∧
          t'.members =
            ((t.setRow ⟨values m, c.id, m.telegramUserId⟩).absorb f.id c.id).members) := by
  have hsame : ∀ {q : Row} {uid : ℤ}, q ∈ t.members → q.telegramUserId = some uid →
      m.telegramUserId = some uid → q = c := fun hq hquid hm =>
    h.identity_unique hq hc ((Row.identity_of_some hquid).trans
      (Row.identity_of_some (huid.trans hm)).symm)
  have hold : (∀ uid, m.telegramUserId = some uid → t.byTelegramId uid = none) →
      m.telegramUserId = none := by
    intro hnew
    cases hm : m.telegramUserId with
    | none => rfl
    | some uid =>
        exact absurd (Row.identity_of_some (huid.trans hm)) (byTelegramId_eq_none (hnew uid hm) hc)
  cases hup with
  | known hm hq hquid hfree =>
      obtain rfl := hsame hq hquid hm
      exact ⟨rfl, Or.inl (by rw [hm]; rfl)⟩
  | @merged uid q f u hm hq hquid hu hf =>
      obtain rfl := hsame hq hquid hm
      refine ⟨rfl, Or.inr ⟨u, f, by rw [hm]; rfl, hu, hf, (h.fallback_ne hf hq hquid).1, ?_⟩⟩
      rw [hm]
      rfl
  | named hnew hu hf =>
      obtain ⟨k, hk, hname⟩ := hn (hold hnew)
      rw [h.fallbackRow_of_names hc hk hname hu, Option.some.injEq] at hf
      subst hf
      exact ⟨rfl, Or.inl rfl⟩
  | added hnew hfree hsome =>
      obtain ⟨k, hk, hname⟩ := hn (hold hnew)
      obtain ⟨u, hu, -⟩ := Option.map_eq_some_iff.mp hname
      have hfind := h.fallbackRow_of_names hc hk hname hu
      rw [hfree u hu] at hfind
      exact absurd hfind (by simp)
  | invalid hnone hu =>
      obtain ⟨k, -, hname⟩ := hn hnone
      rw [Names, hu] at hname
      exact absurd hname (by simp)

/-- The row that the member identifies has its values afterwards. -/
theorem Upsert.writes (hup : Upsert t m i t') (h : t.Sound) {c : Row} (hc : c ∈ t.members)
    (huid : c.telegramUserId = m.telegramUserId)
    (hn : m.telegramUserId = none → ∃ k, c.identity = some (.inr k) ∧ Names m k) :
    ⟨values m, c.id, m.telegramUserId⟩ ∈ t'.members := by
  have hset : (⟨values m, c.id, m.telegramUserId⟩ : Row) ∈
      (t.setRow ⟨values m, c.id, m.telegramUserId⟩).members :=
    mem_setRow.mpr (Or.inr ⟨rfl, c, hc, rfl⟩)
  rcases (hup.into_row h hc huid hn).2 with heq | ⟨u, f, -, -, -, hne, heq⟩
  · exact heq ▸ hset
  · exact heq ▸ mem_absorb.mpr ⟨hset, hne.symm⟩

/-- A row that the member neither identifies nor claims is left alone, and is not the member's. -/
theorem Upsert.leaves (hup : Upsert t m i t') (h : t.Sound) {c : Row} (hc : c ∈ t.members)
    (hx : ∀ x, c.telegramUserId = some x → m.telegramUserId ≠ some x)
    (hk : ∀ k, c.identity = some (.inr k) → ¬ Names m k) : i ≠ some c.id ∧ c ∈ t'.members := by
  have hknown : ∀ {q : Row} {uid : ℤ}, q ∈ t.members → q.telegramUserId = some uid →
      m.telegramUserId = some uid → c.id ≠ q.id := by
    intro q uid hq hquid hm hid
    exact hx uid (by rw [h.row_unique hc hq hid, hquid]) hm
  have hfall : ∀ {f : Row} {u : String}, (values m).username = some u →
      t.fallbackRow u = some f → c.id ≠ f.id := by
    intro f u hu hf hid
    obtain ⟨hfmem, -, hfid⟩ := h.fallbackRow_eq_some hf
    have hck := h.row_unique hc hfmem hid ▸ hfid
    exact hk _ hck (h.names_of_fallbackRow hu hf hc hck hid)
  cases hup with
  | known hm hq hquid hfree =>
      have hne := hknown hq hquid hm
      exact ⟨fun heq => hne (Option.some.inj heq).symm, mem_draw_setRow hc hne⟩
  | merged hm hq hquid hu hf =>
      have hne := hknown hq hquid hm
      exact ⟨fun heq => hne (Option.some.inj heq).symm,
        mem_absorb.mpr ⟨mem_draw_setRow hc hne, hfall hu hf⟩⟩
  | named hnew hu hf =>
      have hne := hfall hu hf
      exact ⟨fun heq => hne (Option.some.inj heq).symm, mem_setRow.mpr (Or.inl ⟨hc, hne⟩)⟩
  | added hnew hfree hsome =>
      refine ⟨fun heq => ?_, mem_addRow.mpr (Or.inl hc)⟩
      have hseq := h.sequence c hc
      rw [← Option.some.inj heq] at hseq
      exact Nat.not_succ_le_self _ hseq
  | invalid hnone hu => exact ⟨fun heq => absurd heq (by simp), hc⟩

/-- An upsert brings back no row that has gone. -/
theorem Upsert.hasMember (hup : Upsert t m i t') {id : MemberId} (hid : id ≤ t.sequence)
    (hgone : t.hasMember id = false) : t'.hasMember id = false := by
  rw [← Bool.not_eq_true, hasMember_iff] at hgone ⊢
  rintro ⟨q, hq, rfl⟩
  have hset : ∀ {r : Row} {s : MemberTables}, q ∈ (s.setRow r).members →
      s.members = t.members → (∃ p ∈ t.members, p.id = r.id) → False := by
    intro r s hmem hs hr
    rcases mem_setRow.mp hmem with ⟨hmem, -⟩ | ⟨rfl, -⟩
    · exact hgone ⟨q, hs ▸ hmem, rfl⟩
    · exact hgone hr
  cases hup with
  | known huid hc hcuid hfree => exact hset hq rfl ⟨_, hc, rfl⟩
  | merged huid hc hcuid hu hf => exact hset (mem_absorb.mp hq).1 rfl ⟨_, hc, rfl⟩
  | named hnew hu hf => exact hset hq rfl ⟨_, List.mem_of_find?_eq_some hf, rfl⟩
  | added hnew hfree hsome =>
      rcases mem_addRow.mp hq with hq | rfl
      · exact hgone ⟨q, hq, rfl⟩
      · exact absurd hid (Nat.not_succ_le_self _)
  | invalid hnone hu => exact hgone ⟨q, hq, rfl⟩

theorem Upsert.sequence_le (hup : Upsert t m i t') : t.sequence ≤ t'.sequence := by
  cases hup with
  | known | merged | added => exact Nat.le_succ _
  | named | invalid => exact Nat.le_refl _

/-! ## The turns of the loop -/

/-- The tables with a member attached to the dataset of the batch. -/
def attached (t : MemberTables) (b : IngestInto) (id : MemberId) (m : Member) : MemberTables :=
  { t with
    memberships :=
      insertOrIgnore Membership.key t.memberships ⟨b.datasetId, id, b.sourceGroupId⟩
    provenance :=
      insertOrIgnore Provenance.key t.provenance
        ⟨b.datasetId, id, none, b.sourceGroupId, b.sourceLabel⟩
    peerCache :=
      match ingestRecord b.accountId ⟨m.telegramUserId, m.accessHash⟩ with
      | some peer => upsertPeer t.peerCache peer
      | none => t.peerCache }

theorem insertMembership_ok {r : Membership} (h : t.insertMembership r = .ok t') :
    (r.key ∈ t.memberships.map Membership.key ∨
      (t.hasDataset r.datasetId ∧ t.hasMember r.memberId ∧ t.hasGroup r.sourceGroupId)) ∧
      t' = t.setMemberships (insertOrIgnore Membership.key t.memberships r) := by
  unfold insertMembership at h
  split_ifs at h with hcond
  refine ⟨?_, (Except.ok.inj h).symm⟩
  simpa only [Bool.or_eq_true, Bool.and_eq_true, any_key_eq, and_assoc] using hcond

theorem insertProvenance_ok {r : Provenance} (h : t.insertProvenance r = .ok t') :
    (r.key ∈ t.provenance.map Provenance.key ∨
      (t.hasDataset r.datasetId ∧ t.hasMember r.memberId ∧
        r.sourceDatasetId.all t.hasDataset ∧ t.hasGroup r.sourceGroupId)) ∧
      t' = t.setProvenance (insertOrIgnore Provenance.key t.provenance r) := by
  unfold insertProvenance at h
  split_ifs at h with hcond
  refine ⟨?_, (Except.ok.inj h).symm⟩
  simpa only [Bool.or_eq_true, Bool.and_eq_true, any_key_eq, and_assoc] using hcond

theorem Sound.insertMembership (h : t.Sound) {r : Membership}
    (hins : t.insertMembership r = .ok t') : t'.Sound := by
  obtain ⟨hrefs, rfl⟩ := insertMembership_ok hins
  refine { h with memberships := h.memberships.insertOrIgnore r, membershipRefs := ?_ }
  intro q (hq : q ∈ insertOrIgnore Membership.key t.memberships r)
  rcases hrefs with hmem | hrefs
  · rw [insertOrIgnore_of_mem hmem] at hq
    exact h.membershipRefs q hq
  · rcases mem_of_mem_insertOrIgnore hq with hq | rfl
    · exact h.membershipRefs q hq
    · exact hrefs

theorem Sound.insertProvenance (h : t.Sound) {r : Provenance}
    (hins : t.insertProvenance r = .ok t') : t'.Sound := by
  obtain ⟨hrefs, rfl⟩ := insertProvenance_ok hins
  refine { h with provenance := h.provenance.insertOrIgnore r, provenanceRefs := ?_ }
  intro q (hq : q ∈ insertOrIgnore Provenance.key t.provenance r)
  rcases hrefs with hmem | hrefs
  · rw [insertOrIgnore_of_mem hmem] at hq
    exact h.provenanceRefs q hq
  · rcases mem_of_mem_insertOrIgnore hq with hq | rfl
    · exact h.provenanceRefs q hq
    · exact hrefs

theorem Sound.attach (h : t.Sound) {id : MemberId} (ha : t.attach b id m = .ok t') :
    t'.Sound ∧ t' = t.attached b id m := by
  unfold MemberTables.attach at ha
  cases hms : t.insertMembership ⟨b.datasetId, id, b.sourceGroupId⟩ with
  | error e => simp [hms, bind, Except.bind] at ha
  | ok t₁ =>
      have h₁ := h.insertMembership hms
      obtain ⟨-, rfl⟩ := insertMembership_ok hms
      simp only [hms, bind, Except.bind] at ha
      cases hps : (t.setMemberships (insertOrIgnore Membership.key t.memberships
          ⟨b.datasetId, id, b.sourceGroupId⟩)).insertProvenance
          ⟨b.datasetId, id, none, b.sourceGroupId, b.sourceLabel⟩ with
      | error e => simp [hps] at ha
      | ok t₂ =>
          have h₂ := h₁.insertProvenance hps
          obtain ⟨-, rfl⟩ := insertProvenance_ok hps
          simp only [hps] at ha
          unfold attached
          cases hpeer : ingestRecord b.accountId ⟨m.telegramUserId, m.accessHash⟩ with
          | none =>
              simp only [hpeer] at ha
              obtain rfl := Except.ok.inj ha
              exact ⟨h₂, rfl⟩
          | some peer =>
              simp only [hpeer, insertPeer] at ha
              split_ifs at ha with hacc
              obtain rfl := Except.ok.inj ha
              exact ⟨{ h₂ with }, rfl⟩

/-- The turns of the loop over the members of a batch. -/
inductive Turns (b : IngestInto) : MemberTables → List Member → MemberTables → Prop
  | nil (t : MemberTables) : Turns b t [] t
  | skipped {t t₁ t' : MemberTables} {m : Member} {ms : List Member}
      (hup : Upsert t m none t₁) (hrest : Turns b t₁ ms t') : Turns b t (m :: ms) t'
  | taken {t t₁ t' : MemberTables} {m : Member} {ms : List Member} {id : MemberId}
      (hup : Upsert t m (some id) t₁) (hsound : (t₁.attached b id m).Sound)
      (hrest : Turns b (t₁.attached b id m) ms t') : Turns b t (m :: ms) t'

theorem Sound.turns (h : t.Sound) {ms : List Member} {s s' : IngestSummary}
    (hrun : ms.foldlM (ingestOne b) (s, t) = .ok (s', t')) : t'.Sound ∧ Turns b t ms t' := by
  induction ms generalizing t s with
  | nil =>
      obtain rfl := congrArg Prod.snd (Except.ok.inj hrun)
      exact ⟨h, .nil _⟩
  | cons m ms ih =>
      obtain ⟨i, t₁, hone, hup⟩ := h.upsertOne_spec m
      have h₁ := h.upsert hup
      rw [List.foldlM_cons] at hrun
      simp only [ingestOne, hone, bind, Except.bind] at hrun
      cases i with
      | none =>
          obtain ⟨h', hturns⟩ := ih h₁ hrun
          exact ⟨h', .skipped hup hturns⟩
      | some id =>
          simp only at hrun
          cases hatt : t₁.attach b id m with
          | error e => simp [hatt] at hrun
          | ok t₂ =>
              obtain ⟨h₂, rfl⟩ := h₁.attach hatt
              simp only [hatt] at hrun
              obtain ⟨h', hturns⟩ := ih h₂ hrun
              exact ⟨h', .taken hup h₂ hturns⟩

/-- **A batch that is committed** is its turns and the count of its dataset. -/
theorem Sound.submitIngestBatch_ok (h : t.Sound) {ms : List Member} {s : IngestSummary}
    (hrun : t.submitIngestBatch b ms = .ok (s, t')) :
    ∃ t₁, t₁.Sound ∧ Turns b t ms t₁ ∧
      t' = t₁.setMemberCount b.datasetId (t₁.countMembers b.datasetId) := by
  unfold submitIngestBatch at hrun
  cases hfold : ms.foldlM (ingestOne b) ({}, t) with
  | error e => simp [hfold, bind, Except.bind] at hrun
  | ok p =>
      obtain ⟨s₁, t₁⟩ := p
      obtain ⟨h₁, hturns⟩ := h.turns hfold
      simp only [hfold, bind, Except.bind] at hrun
      obtain ⟨-, rfl⟩ := Prod.mk.inj (Except.ok.inj hrun)
      exact ⟨t₁, h₁, hturns, rfl⟩

/-- Members and the rows of datasets are all that an upsert touches. -/
theorem Upsert.frame (hup : Upsert t m i t') :
    t'.datasets = t.datasets ∧ t'.items = t.items ∧ t'.groups = t.groups ∧
      t'.accounts = t.accounts ∧ t'.peerCache = t.peerCache := by
  cases hup <;> exact ⟨rfl, rfl, rfl, rfl, rfl⟩

theorem Turns.frame {ms : List Member} (hturns : Turns b t ms t') :
    t'.datasets = t.datasets ∧ t'.items = t.items ∧ t'.groups = t.groups := by
  induction hturns with
  | nil t => exact ⟨rfl, rfl, rfl⟩
  | skipped hup _ ih =>
      obtain ⟨hd, hi, hg, -⟩ := hup.frame
      exact ⟨ih.1.trans hd, ih.2.1.trans hi, ih.2.2.trans hg⟩
  | taken hup _ _ ih =>
      obtain ⟨hd, hi, hg, -⟩ := hup.frame
      exact ⟨ih.1.trans hd, ih.2.1.trans hi, ih.2.2.trans hg⟩

/-! ## Which batches are committed -/

/-- The member that `_upsert_one` returns is there, and it returns one for a valid member. -/
theorem Upsert.returned (hup : Upsert t m i t') (h : t.Sound) :
    (∀ id, i = some id → t'.hasMember id = true) ∧
      (i.isSome ↔ m.telegramUserId.isSome ∨ (values m).username.isSome) := by
  cases hup with
  | known huid hc hcuid hfree =>
      refine ⟨fun id hid => ?_, iff_of_true rfl (Or.inl (by rw [huid]; rfl))⟩
      obtain rfl := Option.some.inj hid
      rw [hasMember_setRow]
      exact hasMember_iff.mpr ⟨_, hc, rfl⟩
  | merged huid hc hcuid hu hf =>
      refine ⟨fun id hid => ?_, iff_of_true rfl (Or.inl (by rw [huid]; rfl))⟩
      obtain rfl := Option.some.inj hid
      refine hasMember_absorb ?_ (h.fallback_ne hf hc hcuid).1.symm
      rw [hasMember_setRow]
      exact hasMember_iff.mpr ⟨_, hc, rfl⟩
  | named hnew hu hf =>
      refine ⟨fun id hid => ?_, iff_of_true rfl (Or.inr (by rw [hu]; rfl))⟩
      obtain rfl := Option.some.inj hid
      rw [hasMember_setRow]
      exact hasMember_iff.mpr ⟨_, List.mem_of_find?_eq_some hf, rfl⟩
  | added hnew hfree hsome =>
      refine ⟨fun id hid => ?_, iff_of_true rfl hsome⟩
      obtain rfl := Option.some.inj hid
      exact hasMember_iff.mpr ⟨_, mem_addRow.mpr (Or.inr rfl), rfl⟩
  | invalid hnone hu =>
      refine ⟨fun id hid => absurd hid (by simp), ?_⟩
      simp [hnone, hu]

theorem Sound.attach_iff (h : t.Sound) {id : MemberId} (hid : t.hasMember id = true) :
    (∃ t', t.attach b id m = .ok t') ↔
      t.hasDataset b.datasetId ∧ t.hasGroup b.sourceGroupId ∧
        ∀ p, ingestRecord b.accountId ⟨m.telegramUserId, m.accessHash⟩ = some p →
          t.accounts p.accountId := by
  constructor
  · rintro ⟨t', ha⟩
    obtain ⟨h', rfl⟩ := h.attach ha
    have hms : (b.datasetId, id) ∈ (t.attached b id m).memberships.map Membership.key :=
      mem_map_insertOrIgnore.mpr (Or.inr rfl)
    have hps : (b.datasetId, id, none, b.sourceGroupId, b.sourceLabel.getD "") ∈
        (t.attached b id m).provenance.map Provenance.key :=
      mem_map_insertOrIgnore.mpr (Or.inr rfl)
    obtain ⟨q, hq, hkey⟩ := List.mem_map.mp hms
    obtain ⟨p, hp, hpkey⟩ := List.mem_map.mp hps
    simp only [Membership.key, Prod.mk.injEq] at hkey
    simp only [Provenance.key, Prod.mk.injEq] at hpkey
    refine ⟨hkey.1 ▸ (h'.membershipRefs q hq).1,
      hpkey.2.2.2.1 ▸ (h'.provenanceRefs p hp).2.2.2, fun peer hpeer => ?_⟩
    by_contra hacc
    unfold MemberTables.attach at ha
    cases hms : t.insertMembership ⟨b.datasetId, id, b.sourceGroupId⟩ with
    | error e => simp [hms, bind, Except.bind] at ha
    | ok t₁ =>
        obtain ⟨-, rfl⟩ := insertMembership_ok hms
        simp only [hms, bind, Except.bind] at ha
        cases hps : (t.setMemberships (insertOrIgnore Membership.key t.memberships
            ⟨b.datasetId, id, b.sourceGroupId⟩)).insertProvenance
            ⟨b.datasetId, id, none, b.sourceGroupId, b.sourceLabel⟩ with
        | error e => simp [hps] at ha
        | ok t₂ =>
            obtain ⟨-, rfl⟩ := insertProvenance_ok hps
            simp only [hps, hpeer, insertPeer] at ha
            split_ifs at ha with hacc'
            exact hacc hacc'
  · rintro ⟨hd, hg, hacc⟩
    have hms : t.insertMembership ⟨b.datasetId, id, b.sourceGroupId⟩ =
        .ok (t.setMemberships (insertOrIgnore Membership.key t.memberships
          ⟨b.datasetId, id, b.sourceGroupId⟩)) := by
      rw [MemberTables.insertMembership, hd, hid, hg]
      simp
    have hps : ∀ rows, (t.setMemberships rows).insertProvenance
        ⟨b.datasetId, id, none, b.sourceGroupId, b.sourceLabel⟩ =
        .ok ((t.setMemberships rows).setProvenance (insertOrIgnore Provenance.key t.provenance
          ⟨b.datasetId, id, none, b.sourceGroupId, b.sourceLabel⟩)) := by
      intro rows
      have hd' : (t.setMemberships rows).hasDataset b.datasetId = true := hd
      have hid' : (t.setMemberships rows).hasMember id = true := hid
      have hg' : (t.setMemberships rows).hasGroup b.sourceGroupId = true := hg
      rw [MemberTables.insertProvenance, hd', hid', hg']
      simp [setMemberships]
    unfold MemberTables.attach
    simp only [hms, bind, Except.bind, hps]
    cases hpeer : ingestRecord b.accountId ⟨m.telegramUserId, m.accessHash⟩ with
    | none => exact ⟨_, rfl⟩
    | some peer =>
        have hacc' : ((t.setMemberships (insertOrIgnore Membership.key t.memberships
            ⟨b.datasetId, id, b.sourceGroupId⟩)).setProvenance (insertOrIgnore Provenance.key
            t.provenance ⟨b.datasetId, id, none, b.sourceGroupId, b.sourceLabel⟩)).accounts
            peer.accountId = true := hacc peer hpeer
        simp only [insertPeer, hacc', if_true]
        exact ⟨_, rfl⟩

theorem refers_congr (hd : t'.datasets = t.datasets)
    (hg : t'.groups = t.groups) (ha : t'.accounts = t.accounts) (m : Member) :
    b.Refers t' m ↔ b.Refers t m := by
  unfold IngestInto.Refers hasDataset hasGroup
  rw [hd, hg, ha]

theorem Sound.foldlM_ingestOne_iff (h : t.Sound) (ms : List Member) (s : IngestSummary) :
    (∃ r, ms.foldlM (ingestOne b) (s, t) = .ok r) ↔ ∀ m ∈ ms, b.Refers t m := by
  induction ms generalizing t s with
  | nil => simp [pure, Except.pure]
  | cons m ms ih =>
      obtain ⟨i, t₁, hone, hup⟩ := h.upsertOne_spec m
      have h₁ := h.upsert hup
      obtain ⟨hmember, hvalid⟩ := hup.returned h
      obtain ⟨hd, -, hg, ha, -⟩ := hup.frame
      rw [List.foldlM_cons]
      simp only [ingestOne, hone, bind, Except.bind, List.forall_mem_cons]
      cases i with
      | none =>
          have hnot := mt hvalid.mpr (by simp)
          refine (ih h₁ _).trans ⟨fun hrest => ⟨fun hv => absurd hv hnot, fun q hq => ?_⟩,
            fun hrest q hq => ?_⟩
          · exact (refers_congr hd hg ha q).mp (hrest q hq)
          · exact (refers_congr hd hg ha q).mpr (hrest.2 q hq)
      | some id =>
          have hiff := h₁.attach_iff (b := b) (m := m) (hmember id rfl)
          have hself : b.Refers t m ↔ ∃ t', t₁.attach b id m = .ok t' := by
            rw [← refers_congr hd hg ha m, hiff]
            exact ⟨fun hr => hr (hvalid.mp rfl), fun hr _ => hr⟩
          rw [hself]
          simp only
          cases hatt : t₁.attach b id m with
          | error e => simp
          | ok t₂ =>
              obtain ⟨h₂, rfl⟩ := h₁.attach hatt
              refine (ih h₂ _).trans ⟨fun hrest => ⟨⟨_, rfl⟩, fun q hq => ?_⟩,
                fun hrest q hq => ?_⟩
              · exact (refers_congr hd hg ha q).mp
                  (hrest q hq)
              · exact (refers_congr hd hg ha q).mpr
                  (hrest.2 q hq)

/-- **A batch is committed** exactly when what its valid members refer to exists. -/
theorem Sound.submitIngestBatch_committed_iff (h : t.Sound) (ms : List Member) :
    (∃ r, t.submitIngestBatch b ms = .ok r) ↔ ∀ m ∈ ms, b.Refers t m := by
  rw [← h.foldlM_ingestOne_iff ms {}]
  unfold submitIngestBatch
  cases ms.foldlM (ingestOne b) ({}, t) with
  | error e => simp [bind, Except.bind]
  | ok p => simp [bind, Except.bind, pure, Except.pure]

end MemberTables

/-! ## Who a batch says the rows are -/

/-- The Telegram id of the first member of the batch that carries it together with the username. -/
def claimedKey (batch : List Member) (k : String) : Option ℤ :=
  batch.findSome? fun m => if Names m k then m.telegramUserId else none

/-- The Telegram id of the row, or the one that the batch gives to its username. -/
def Row.claimed (batch : List Member) (r : Row) : Option ℤ :=
  match r.identity with
  | some (.inl x) => some x
  | some (.inr k) => claimedKey batch k
  | none => none

theorem claimedKey_snoc (pre : List Member) (m : Member) (k : String) :
    claimedKey (pre ++ [m]) k =
      (claimedKey pre k).or (if Names m k then m.telegramUserId else none) := by
  unfold claimedKey
  rw [List.findSome?_append]
  simp

namespace MemberTables

variable {t t' t₀ : MemberTables} {m : Member} {i : Option MemberId} {b : IngestInto}
  {pre ms : List Member}

/-- The row that a row has become after the batch: that of the Telegram id by which the batch
identifies it, or itself. -/
def settle (t : MemberTables) (batch : List Member) (r : Row) : MemberId :=
  match r.claimed batch with
  | some x => ((t.byTelegramId x).map Row.id).getD r.id
  | none => r.id

theorem Sound.settle_of_claimed (h : t.Sound) {r r' : Row} {x : ℤ} (hr' : r' ∈ t.members)
    (hx : r'.telegramUserId = some x) (hc : r.claimed pre = some x) : t.settle pre r = r'.id := by
  simp only [settle, hc, h.byTelegramId hr' hx, Option.map_some, Option.getD_some]

theorem settle_of_unclaimed {r : Row} (hc : r.claimed pre = none) : t.settle pre r = r.id := by
  simp only [settle, hc]

/-- The rows of `t₀` after the members `pre` of the batch: a row that they do not claim is there as
it was identified, and one that they claim has become the row of the Telegram id. -/
structure Settled (t₀ : MemberTables) (pre : List Member) (t : MemberTables) : Prop where
  unclaimed : ∀ r ∈ t₀.members, r.claimed pre = none →
    ∃ r' ∈ t.members, r'.id = r.id ∧ r'.identity = r.identity
  claimed : ∀ r ∈ t₀.members, ∀ x, r.claimed pre = some x →
    ∃ r' ∈ t.members, r'.telegramUserId = some x ∧ (r.telegramUserId = some x → r'.id = r.id) ∧
      (r'.id ≠ r.id → t.hasMember r.id = false)
  sequence : t₀.sequence ≤ t.sequence

theorem claimed_nil {r : Row} {x : ℤ} (hc : r.claimed [] = some x) :
    r.telegramUserId = some x := by
  unfold Row.claimed at hc
  split at hc
  · rename_i y hy
    rw [← Row.identity_eq_inl, hy, Option.some.inj hc]
  · exact absurd hc (by simp [claimedKey])
  · exact absurd hc (by simp)

theorem settled_nil (t₀ : MemberTables) : Settled t₀ [] t₀ where
  unclaimed := fun r hr _ => ⟨r, hr, rfl, rfl⟩
  claimed := fun r hr _ hc => ⟨r, hr, claimed_nil hc, fun _ => rfl, fun hne => absurd rfl hne⟩
  sequence := Nat.le_refl _

theorem Sound.settle_nil (h : t₀.Sound) {r : Row} (hr : r ∈ t₀.members) :
    t₀.settle [] r = r.id := by
  cases hc : r.claimed [] with
  | none => exact settle_of_unclaimed hc
  | some x => exact h.settle_of_claimed hr (claimed_nil hc) hc

/-- **One upsert** takes a row one step further on its way. -/
theorem Settled.upsert (hs : Settled t₀ pre t) (h₀ : t₀.Sound) (h : t.Sound)
    (hup : Upsert t m i t') :
    Settled t₀ (pre ++ [m]) t' ∧
      ∀ r ∈ t₀.members, t'.settle (pre ++ [m]) r = t.mergedId m (t.settle pre r) := by
  have h' := h.upsert hup
  have hrow : ∀ r ∈ t₀.members,
      (r.claimed (pre ++ [m]) = none →
        ∃ r' ∈ t'.members, r'.id = r.id ∧ r'.identity = r.identity) ∧
      (∀ x, r.claimed (pre ++ [m]) = some x →
        ∃ r' ∈ t'.members, r'.telegramUserId = some x ∧
          (r.telegramUserId = some x → r'.id = r.id) ∧
          (r'.id ≠ r.id → t'.hasMember r.id = false)) ∧
      t'.settle (pre ++ [m]) r = t.mergedId m (t.settle pre r) := by
    intro r hr
    have hseq : r.id ≤ t.sequence := Nat.le_trans (h₀.sequence r hr) hs.sequence
    cases hpre : r.claimed pre with
    | some x =>
        -- the row has its Telegram id already: it keeps it
        have hnext : r.claimed (pre ++ [m]) = some x := by
          unfold Row.claimed at hpre ⊢
          split at hpre
          · exact hpre
          · rw [claimedKey_snoc, hpre]
            rfl
          · exact absurd hpre (by simp)
        obtain ⟨q, hq, hqx, hown, hgone⟩ := hs.claimed r hr x hpre
        obtain ⟨⟨q', hq', hid, hqx'⟩, hself⟩ := hup.keeps_telegram h hq hqx
        refine ⟨fun hnone => ?_, fun y hy => ?_, ?_⟩
        · rw [hnext] at hnone
          exact absurd hnone (by simp)
        · rw [hnext, Option.some.injEq] at hy
          subst hy
          exact ⟨q', hq', hqx', fun hx => hid.trans (hown hx),
            fun hne => hup.hasMember hseq (hgone fun heq => hne (hid.trans heq))⟩
        · rw [h'.settle_of_claimed hq' hqx' hnext, h.settle_of_claimed hq hqx hpre, hself, hid]
    | none =>
        obtain ⟨q, hq, hid, hident⟩ := hs.unclaimed r hr hpre
        obtain ⟨k, hk⟩ : ∃ k, r.identity = some (.inr k) := by
          obtain ⟨y, hy⟩ := Option.isSome_iff_exists.mp (h₀.identified r hr)
          cases y with
          | inl x =>
              rw [Row.claimed, hy] at hpre
              exact absurd hpre (by simp)
          | inr k => exact ⟨k, hy⟩
        have hkey : claimedKey pre k = none := by
          rw [Row.claimed, hk] at hpre
          exact hpre
        have hnext : r.claimed (pre ++ [m]) = if Names m k then m.telegramUserId else none := by
          rw [Row.claimed, hk]
          show claimedKey (pre ++ [m]) k = _
          rw [claimedKey_snoc, hkey, Option.none_or]
        have hnotg : r.telegramUserId = none := by
          cases hx : r.telegramUserId with
          | none => rfl
          | some x =>
              rw [Row.identity_of_some hx] at hk
              exact absurd hk (by simp)
        rw [settle_of_unclaimed hpre]
        cases hc : r.claimed (pre ++ [m]) with
        | some x =>
            -- the member claims the row
            have hn : Names m k := by
              by_contra hn
              rw [hnext, if_neg hn] at hc
              exact absurd hc (by simp)
            have hx : m.telegramUserId = some x := by
              rw [← hc, hnext, if_pos hn]
            obtain ⟨q', hq', hqx', hmerge, hgone⟩ := hup.claims h hq (hident.trans hk) hn hx
            rw [hid] at hmerge hgone
            refine ⟨fun hnone => absurd hnone (by simp), fun y hy => ?_, ?_⟩
            · obtain rfl := Option.some.inj hy
              refine ⟨q', hq', hqx', fun hown => ?_, hgone⟩
              rw [hnotg] at hown
              exact absurd hown (by simp)
            · rw [h'.settle_of_claimed hq' hqx' hc, hmerge]
        | none =>
            have hfree : Names m k → m.telegramUserId = none := by
              intro hn
              rw [← hc, hnext, if_pos hn]
            obtain ⟨⟨q', hq', hid', hident'⟩, hself⟩ :=
              hup.keeps_fallback h hq (hident.trans hk) hfree
            refine ⟨fun _ => ⟨q', hq', hid'.trans hid, hident'.trans hk.symm⟩,
              fun y hy => absurd hy (by simp), ?_⟩
            rw [settle_of_unclaimed hc, ← hid, hself]
  exact ⟨⟨fun r hr => (hrow r hr).1, fun r hr => (hrow r hr).2.1,
    Nat.le_trans hs.sequence hup.sequence_le⟩, fun r hr => (hrow r hr).2.2⟩

/-! ## The datasets of a batch -/

theorem inDataset_attached {id id' : MemberId} {d : DatasetId} :
    (t.attached b id m).InDataset d id' ↔ t.InDataset d id' ∨ (d = b.datasetId ∧ id' = id) := by
  show _ ∈ (insertOrIgnore Membership.key t.memberships _).map Membership.key ↔ _
  rw [mem_map_insertOrIgnore]
  exact or_congr_right (by simp [Membership.key])

theorem hasOrigin_attached {id id' : MemberId} {d : DatasetId} {o : Origin} :
    (t.attached b id m).HasOrigin d id' o ↔
      t.HasOrigin d id' o ∨
        (d = b.datasetId ∧ id' = id ∧ o = (none, b.sourceGroupId, b.sourceLabel.getD "")) := by
  show _ ∈ (insertOrIgnore Provenance.key t.provenance _).map Provenance.key ↔ _
  rw [mem_map_insertOrIgnore]
  exact or_congr_right (by simp [Provenance.key])

theorem Settled.attached (hs : Settled t₀ pre t) (id : MemberId) :
    Settled t₀ pre (t.attached b id m) :=
  ⟨hs.unclaimed, hs.claimed, hs.sequence⟩

/-- The datasets and the origins of the rows of `t₀` after the members `pre` of a batch: each is one
of the row that the row has become, and a dataset other than that of the batch has no others. -/
structure Followed (b : IngestInto) (t₀ : MemberTables) (pre : List Member)
    (t : MemberTables) : Prop where
  settled : Settled t₀ pre t
  inDataset : ∀ d, ∀ r ∈ t₀.members, t₀.InDataset d r.id → t.InDataset d (t.settle pre r)
  others : ∀ d, d ≠ b.datasetId → ∀ id, t.InDataset d id →
    ∃ r ∈ t₀.members, t₀.InDataset d r.id ∧ t.settle pre r = id
  origins : ∀ d o, ∀ r ∈ t₀.members, t₀.HasOrigin d r.id o → t.HasOrigin d (t.settle pre r) o

theorem Sound.mem_of_inDataset (h : t.Sound) {d : DatasetId} {id : MemberId}
    (hin : t.InDataset d id) : ∃ r ∈ t.members, r.id = id := by
  obtain ⟨q, hq, hkey⟩ := List.mem_map.mp hin
  obtain ⟨r, hr, hid⟩ := hasMember_iff.mp (h.membershipRefs q hq).2.1
  exact ⟨r, hr, hid.trans (Prod.mk.inj hkey).2⟩

theorem Sound.followed_nil (h : t₀.Sound) (b : IngestInto) : Followed b t₀ [] t₀ where
  settled := settled_nil t₀
  inDataset := by
    intro d r hr hin
    rwa [h.settle_nil hr]
  others := by
    intro d _ id hin
    obtain ⟨r, hr, rfl⟩ := h.mem_of_inDataset hin
    exact ⟨r, hr, hin, h.settle_nil hr⟩
  origins := by
    intro d o r hr hin
    rwa [h.settle_nil hr]

/-- One upsert. -/
theorem Followed.upsert (hf : Followed b t₀ pre t) (h₀ : t₀.Sound) (h : t.Sound)
    (hup : Upsert t m i t') : Followed b t₀ (pre ++ [m]) t' := by
  obtain ⟨hs, hsettle⟩ := hf.settled.upsert h₀ h hup
  refine ⟨hs, fun d r hr hin => ?_, fun d hd id hin => ?_, fun d o r hr hin => ?_⟩
  · rw [hsettle r hr]
    exact (hup.inDataset h).mpr ⟨_, hf.inDataset d r hr hin, rfl⟩
  · obtain ⟨id₀, hin₀, rfl⟩ := (hup.inDataset h).mp hin
    obtain ⟨r, hr, hin', rfl⟩ := hf.others d hd id₀ hin₀
    exact ⟨r, hr, hin', hsettle r hr⟩
  · rw [hsettle r hr]
    exact (hup.hasOrigin h).mpr ⟨_, hf.origins d o r hr hin, rfl⟩

theorem Followed.attached (hf : Followed b t₀ pre t) (id : MemberId) (m : Member) :
    Followed b t₀ pre (t.attached b id m) where
  settled := hf.settled.attached id
  inDataset := fun d r hr hin => inDataset_attached.mpr (Or.inl (hf.inDataset d r hr hin))
  others := fun d hd id' hin =>
    hf.others d hd id' ((inDataset_attached.mp hin).resolve_right fun h => hd h.1)
  origins := fun d o r hr hin => hasOrigin_attached.mpr (Or.inl (hf.origins d o r hr hin))

/-- **The whole loop.** -/
theorem Turns.followed (hturns : Turns b t ms t') (h₀ : t₀.Sound) (h : t.Sound)
    (hf : Followed b t₀ pre t) : Followed b t₀ (pre ++ ms) t' := by
  induction hturns generalizing pre with
  | nil t => rwa [List.append_nil]
  | skipped hup _ ih =>
      have hnext := ih (h.upsert hup) (hf.upsert h₀ h hup)
      rwa [List.append_assoc] at hnext
  | @taken t t₁ t' m ms id hup hsound _ ih =>
      have hnext := ih hsound ((hf.upsert h₀ h hup).attached id m)
      rwa [List.append_assoc] at hnext

end MemberTables
end Members
end MigrationStudio
