import MigrationStudio.Members.People

/-!
# Batches that are ingested again

* `overwrite`, `writePeers`: the last writer of a row wins.
* `Turns.overwrite_eq`: after a pass the last writers have won already.
* `Sound.replay_iff`: when a batch of members that are all there changes nothing.
-/

namespace MigrationStudio
namespace Members

open Foundations MigrationStudio.Core Telegram

/-! ## Last elements -/

/-- In a suffix the last element with a property is that of the list, if there is one. -/
theorem find?_suffix {α : Type*} {is is' : List α} {i : α} {p : α → Bool} (hs : is' <:+ is)
    (h : is'.reverse.find? p = some i) : is.reverse.find? p = some i := by
  obtain ⟨as, rfl⟩ := hs
  rw [List.reverse_append, List.find?_append, h]
  rfl

/-! ## The last writer -/

/-- The members with a Telegram id. -/
def hasUid (x : ℤ) (m : Member) : Bool := m.telegramUserId = some x

/-- The members that the account `a` records as the peer `x`. -/
def recordsPeer (b : IngestInto) (a : AccountId) (x : ℤ) (m : Member) : Bool :=
  b.accountId = some a && m.telegramUserId = some x && m.accessHash.isSome

/-- The row with the values of the last of the members with its Telegram id. -/
def overwrite (ms : List Member) (r : Row) : Row :=
  match r.telegramUserId with
  | none => r
  | some x =>
      match ms.reverse.find? (hasUid x) with
      | none => r
      | some m => ⟨MemberTables.values m, r.id, r.telegramUserId⟩

/-- A column of `peer_cache`, or all of them, after a batch that writes `f` of each member that it
records. -/
def writePeers {β : Type*} (b : IngestInto) (f : Member → β) (cache : AccountId → ℤ → β)
    (ms : List Member) : AccountId → ℤ → β :=
  ms.foldl
    (fun cache m =>
      match ingestRecord b.accountId ⟨m.telegramUserId, m.accessHash⟩ with
      | some p => Function.update cache p.accountId
          (Function.update (cache p.accountId) p.peerId (f m))
      | none => cache)
    cache

/-- The columns of a peer that an ingest writes beside the username. -/
def peerColumns (m : Member) : Option PeerRow := some ⟨.user, m.accessHash⟩

/-- The username of a peer that an ingest writes. -/
def peerUsername (m : Member) : Option String := (MemberTables.values m).username

theorem writePeers_cons {β : Type*} (b : IngestInto) (f : Member → β)
    (cache : AccountId → ℤ → β) (m : Member) (ms : List Member) :
    writePeers b f cache (m :: ms) = writePeers b f (writePeers b f cache [m]) ms := rfl

theorem writePeers_singleton {β : Type*} (b : IngestInto) (f : Member → β)
    (cache : AccountId → ℤ → β) (m : Member) (a : AccountId) (x : ℤ) :
    writePeers b f cache [m] a x = if recordsPeer b a x m then f m else cache a x := by
  show (match ingestRecord b.accountId ⟨m.telegramUserId, m.accessHash⟩ with
    | some p => Function.update cache p.accountId
        (Function.update (cache p.accountId) p.peerId (f m))
    | none => cache) a x = _
  unfold ingestRecord recordsPeer
  cases hacc : b.accountId with
  | none => simp
  | some a' =>
      cases huid : m.telegramUserId with
      | none => simp
      | some x' =>
          cases hhash : m.accessHash with
          | none => simp
          | some hash =>
              by_cases ha : a' = a
              · subst ha
                by_cases hx : x' = x
                · subst hx
                  simp
                · simp [Function.update_of_ne (Ne.symm hx), hx]
              · simp [Function.update_of_ne (Ne.symm ha), ha]

/-- **The last writer of a peer** wins. -/
theorem writePeers_eq {β : Type*} (b : IngestInto) (f : Member → β) (cache : AccountId → ℤ → β)
    (ms : List Member) (a : AccountId) (x : ℤ) :
    writePeers b f cache ms a x =
      ((ms.reverse.find? (recordsPeer b a x)).map f).getD (cache a x) := by
  induction ms generalizing cache with
  | nil => rfl
  | cons m ms ih =>
      rw [writePeers_cons, ih, writePeers_singleton, List.reverse_cons, List.find?_append]
      cases ms.reverse.find? (recordsPeer b a x) with
      | some q => rfl
      | none =>
          rw [Option.none_or, List.find?_singleton]
          split_ifs with hrec
          · rfl
          · rfl

theorem overwrite_of_some {ms : List Member} {r : Row} {x : ℤ} (hx : r.telegramUserId = some x) :
    overwrite ms r = ((ms.reverse.find? (hasUid x)).map fun m =>
      (⟨MemberTables.values m, r.id, some x⟩ : Row)).getD r := by
  unfold overwrite
  rw [hx]
  cases hlast : ms.reverse.find? (hasUid x) with
  | none => simp only [hlast, Option.map_none, Option.getD_none]
  | some m => simp only [hlast, Option.map_some, Option.getD_some]

theorem overwrite_singleton {m : Member} {r : Row} {x : ℤ} (hx : r.telegramUserId = some x) :
    overwrite [m] r =
      if m.telegramUserId = some x then ⟨MemberTables.values m, r.id, some x⟩ else r := by
  rw [overwrite_of_some hx, List.reverse_singleton, List.find?_singleton]
  simp only [hasUid, decide_eq_true_eq]
  split_ifs with hm
  · rfl
  · rfl

theorem overwrite_of_none {ms : List Member} {r : Row} (hx : r.telegramUserId = none) :
    overwrite ms r = r := by
  unfold overwrite
  rw [hx]

/-- The peer that is recorded for a member. -/
theorem peerColumns_eq {b : IngestInto} {m : Member} {p : CachedPeer}
    (h : ingestRecord b.accountId ⟨m.telegramUserId, m.accessHash⟩ = some p) :
    peerColumns m = some ⟨p.peerType, p.accessHash⟩ := by
  unfold ingestRecord at h
  split at h
  · rename_i hash _ _ hhash
    obtain rfl := Option.some.inj h
    exact congrArg (fun hash => (some ⟨.user, hash⟩ : Option PeerRow)) hhash
  · exact absurd h (by simp)

theorem overwrite_cons (m : Member) (ms : List Member) (r : Row) :
    overwrite (m :: ms) r = overwrite ms (overwrite [m] r) := by
  have hlast : ∀ x, (m :: ms).reverse.find? (hasUid x) =
      (ms.reverse.find? (hasUid x)).or ([m].find? (hasUid x)) := by
    intro x
    rw [List.reverse_cons, List.find?_append]
  unfold overwrite
  cases hx : r.telegramUserId with
  | none => simp [hx]
  | some x =>
      simp only [hlast, List.reverse_singleton]
      cases hm : [m].find? (hasUid x) with
      | none => simp [hx]
      | some q =>
          simp only
          cases ms.reverse.find? (hasUid x) with
          | none => rfl
          | some q' => rfl

namespace MemberTables

variable {t t' : MemberTables} {b : IngestInto} {m : Member} {ms : List Member}
  {i : Option MemberId} {x : ℤ}

/-! ## A pass -/

/-- The row of a Telegram id that the member does not have stays. -/
theorem Upsert.keeps_row (hup : Upsert t m i t') (h : t.Sound) {c : Row} (hc : c ∈ t.members)
    (hx : c.telegramUserId = some x) (hm : m.telegramUserId ≠ some x) : c ∈ t'.members := by
  refine (hup.leaves h hc (fun y hy => ?_) fun k hk => ?_).2
  · rw [hx, Option.some.injEq] at hy
    exact hy ▸ hm
  · rw [Row.identity_of_some hx] at hk
    exact absurd hk (by simp)

/-- A member with a Telegram id makes no username-only row. -/
theorem Upsert.no_fallback (hup : Upsert t m i t') (hx : m.telegramUserId = some x)
    {f : Row} (hf : f ∈ t'.members) (hnone : f.telegramUserId = none) : f ∈ t.members := by
  have hset : ∀ {s : MemberTables} {r : Row}, s.members = t.members → r.telegramUserId.isSome →
      f ∈ (s.setRow r).members → f ∈ t.members := by
    intro s r hs hr hmem
    rcases mem_setRow.mp hmem with ⟨hmem, -⟩ | ⟨rfl, -⟩
    · exact hs ▸ hmem
    · rw [hnone] at hr
      exact absurd hr (by simp)
  cases hup with
  | known hm hc hcuid hfree => exact hset rfl rfl hf
  | merged hm hc hcuid hu hfr => exact hset rfl rfl (mem_absorb.mp hf).1
  | named hnew hu hfr => exact hset rfl (by rw [hx]; rfl) hf
  | added hnew hfree hsome =>
      rcases mem_addRow.mp hf with hf | rfl
      · exact hf
      · rw [hx] at hnone
        exact absurd hnone (by simp)
  | invalid hm hu =>
      rw [hx] at hm
      exact absurd hm (by simp)

/-- The member has the only row with its username afterwards. -/
theorem Upsert.takes_username (hup : Upsert t m i t') (h : t.Sound)
    (hx : m.telegramUserId = some x) {u : String} (hu : (values m).username = some u) :
    t'.fallbackRow u = none := by
  cases hf : t'.fallbackRow u with
  | none => rfl
  | some f =>
      have h' := h.upsert hup
      obtain ⟨hfmem, hfnone, hfid⟩ := h'.fallbackRow_eq_some hf
      have hold := hup.no_fallback hx hfmem hfnone
      obtain ⟨r', hr', hx', -, hgone⟩ := hup.claims h hold hfid (by rw [Names, hu]; rfl) hx
      by_cases hid : r'.id = f.id
      · rw [h'.row_unique hr' hfmem hid, hfnone] at hx'
        exact absurd hx' (by simp)
      · have hmember := hasMember_iff.mpr ⟨f, hfmem, rfl⟩
        rw [hgone hid] at hmember
        exact absurd hmember (by simp)

/-- The row of the member's Telegram id has its values afterwards. -/
theorem Upsert.writes_values (hup : Upsert t m i t') (h : t.Sound)
    (hx : m.telegramUserId = some x) :
    ∃ c ∈ t'.members, c.telegramUserId = some x ∧ c.toValues = values m ∧ i = some c.id := by
  cases hup with
  | known hm hc hcuid hfree =>
      exact ⟨_, mem_setRow.mpr (Or.inr ⟨rfl, _, hc, rfl⟩), hm.symm.trans hx, rfl, rfl⟩
  | merged hm hc hcuid hu hf =>
      exact ⟨_, mem_absorb.mpr ⟨mem_setRow.mpr (Or.inr ⟨rfl, _, hc, rfl⟩),
        (h.fallback_ne hf hc hcuid).1.symm⟩, hm.symm.trans hx, rfl, rfl⟩
  | named hnew hu hf =>
      exact ⟨_, mem_setRow.mpr (Or.inr ⟨rfl, _, List.mem_of_find?_eq_some hf, rfl⟩), hx, rfl, rfl⟩
  | added hnew hfree hsome => exact ⟨_, mem_addRow.mpr (Or.inr rfl), hx, rfl, rfl⟩
  | invalid hm hu =>
      rw [hx] at hm
      exact absurd hm (by simp)

/-- A turn of a batch of people: the member gets a row, which is attached. -/
theorem Turns.cons_cases (hturns : Turns b t (m :: ms) t') (h : t.Sound)
    (hx : m.telegramUserId = some x) : ∃ id t₁, Upsert t m (some id) t₁ ∧
      (t₁.attached b id m).Sound ∧ Turns b (t₁.attached b id m) ms t' := by
  cases hturns with
  | skipped hup hrest =>
      have hsome := (hup.returned h).2.mpr (Or.inl (by rw [hx]; rfl))
      exact absurd hsome (by simp)
  | taken hup hsound hrest => exact ⟨_, _, hup, hsound, hrest⟩

/-- Every member of the batch has a Telegram id. -/
def AllPeople (ms : List Member) : Prop := ∀ m ∈ ms, ∃ x, m.telegramUserId = some x

theorem AllPeople.cons (h : AllPeople (m :: ms)) :
    (∃ x, m.telegramUserId = some x) ∧ AllPeople ms :=
  ⟨h m (List.mem_cons_self ..), fun q hq => h q (List.mem_cons_of_mem _ hq)⟩

theorem Turns.sound (hturns : Turns b t ms t') (h : t.Sound) : t'.Sound := by
  induction hturns with
  | nil t => exact h
  | skipped hup _ ih => exact ih (h.upsert hup)
  | taken hup hsound _ ih => exact ih hsound

/-- The row of a Telegram id that no member of the batch has stays. -/
theorem Turns.keeps_row (hturns : Turns b t ms t') (h : t.Sound) {c : Row} (hc : c ∈ t.members)
    (hx : c.telegramUserId = some x) (hms : ∀ m ∈ ms, m.telegramUserId ≠ some x) :
    c ∈ t'.members := by
  induction hturns with
  | nil t => exact hc
  | skipped hup _ ih =>
      exact ih (h.upsert hup) (hup.keeps_row h hc hx (hms _ (List.mem_cons_self ..)))
        fun q hq => hms q (List.mem_cons_of_mem _ hq)
  | taken hup hsound _ ih =>
      exact ih hsound (hup.keeps_row h hc hx (hms _ (List.mem_cons_self ..)))
        fun q hq => hms q (List.mem_cons_of_mem _ hq)

/-- **After a pass** each row has the values of the last member with its Telegram id. -/
theorem Turns.overwrite_eq (hturns : Turns b t ms t') (h : t.Sound) (hms : AllPeople ms) {r : Row}
    (hr : r ∈ t'.members) : overwrite ms r = r := by
  induction ms generalizing t with
  | nil =>
      unfold overwrite
      cases r.telegramUserId <;> rfl
  | cons m ms ih =>
      obtain ⟨⟨y, hy⟩, hrest⟩ := hms.cons
      obtain ⟨id, t₁, hup, hsound, hturns'⟩ := hturns.cons_cases h hy
      have hih := ih hturns' hsound hrest
      rw [overwrite_cons]
      by_cases hyr : r.telegramUserId = some y
      · by_cases hlater : ∃ q ∈ ms, q.telegramUserId = some y
        · -- a later member writes the row
          obtain ⟨q, hq, hqy⟩ := hlater
          obtain ⟨q', hq'⟩ : ∃ q', ms.reverse.find? (hasUid y) = some q' := by
            rw [← Option.isSome_iff_exists, List.find?_isSome]
            exact ⟨q, List.mem_reverse.mpr hq, by simp [hasUid, hqy]⟩
          have hsame : overwrite ms (overwrite [m] r) = overwrite ms r := by
            unfold overwrite
            simp [hyr, hq', hasUid, hy]
          rw [hsame, hih]
        · obtain ⟨c, hc, hcx, hcv, -⟩ := hup.writes_values h hy
          have hfinal := hturns'.keeps_row hsound (c := c) hc hcx fun q hq hqy =>
            hlater ⟨q, hq, hqy⟩
          have hcr : c = r := (hturns'.sound hsound).identity_unique hfinal hr
            ((Row.identity_of_some hcx).trans (Row.identity_of_some hyr).symm)
          have hone : overwrite [m] r = r := by
            rw [← hcr, overwrite_singleton hcx, if_pos hy, ← hcv, ← hcx]
          rw [hone, hih]
      · have hone : overwrite [m] r = r := by
          cases hx : r.telegramUserId with
          | none => exact overwrite_of_none hx
          | some z =>
              rw [overwrite_singleton hx, if_neg]
              rintro hz
              exact hyr (hx.trans (hz.symm.trans hy))
        rw [hone, hih]

/-- **After a pass** no username-only row has the username of a member. -/
theorem Turns.takes_username (hturns : Turns b t ms t') (h : t.Sound) (hms : AllPeople ms) :
    (∀ f ∈ t'.members, f.telegramUserId = none → f ∈ t.members) ∧
      ∀ m ∈ ms, ∀ u, (values m).username = some u → t'.fallbackRow u = none := by
  induction ms generalizing t with
  | nil =>
      cases hturns
      exact ⟨fun f hf _ => hf, fun m hm => absurd hm (by simp)⟩
  | cons m ms ih =>
      obtain ⟨⟨y, hy⟩, hrest⟩ := hms.cons
      obtain ⟨id, t₁, hup, hsound, hturns'⟩ := hturns.cons_cases h hy
      obtain ⟨hold, htaken⟩ := ih hturns' hsound hrest
      refine ⟨fun f hf hnone => hup.no_fallback hy (hold f hf hnone) hnone, ?_⟩
      intro q hq u hu
      rcases List.mem_cons.mp hq with rfl | hq
      · cases hf : t'.fallbackRow u with
        | none => rfl
        | some f =>
            obtain ⟨hfmem, hfnone, hfid⟩ := (hturns'.sound hsound).fallbackRow_eq_some hf
            have hfind := (h.upsert hup).fallbackRow (hold f hfmem hfnone) hfid
            rw [hup.takes_username h hy hu] at hfind
            exact absurd hfind (by simp)
      · exact htaken q hq u hu

/-- **After a pass** the peers are those of the last writers. -/
theorem Turns.peerCache_eq (hturns : Turns b t ms t') (h : t.Sound) (hms : AllPeople ms) :
    t'.peerCache = writePeers b peerColumns t.peerCache ms := by
  induction ms generalizing t with
  | nil =>
      cases hturns
      rfl
  | cons m ms ih =>
      obtain ⟨⟨y, hy⟩, hrest⟩ := hms.cons
      obtain ⟨id, t₁, hup, hsound, hturns'⟩ := hturns.cons_cases h hy
      have hone : (t₁.attached b id m).peerCache = writePeers b peerColumns t.peerCache [m] := by
        rw [← hup.frame.2.2.2.2]
        show (match ingestRecord b.accountId ⟨m.telegramUserId, m.accessHash⟩ with
          | some peer => upsertPeer t₁.peerCache peer
          | none => t₁.peerCache) = _
        unfold writePeers
        rw [List.foldl_cons, List.foldl_nil]
        cases hrec : ingestRecord b.accountId ⟨m.telegramUserId, m.accessHash⟩ with
        | none => rfl
        | some p =>
            show upsertPeer t₁.peerCache p = Function.update _ _ (Function.update _ _ _)
            rw [peerColumns_eq hrec]
            rfl
      rw [ih hturns' hsound hrest, hone, ← writePeers_cons]

/-- **After a pass** everybody of the batch is there, and so is whoever was. -/
theorem Turns.hasPerson (hturns : Turns b t ms t') (h : t.Sound) (hms : AllPeople ms) :
    (∀ x, HasPerson b t x → HasPerson b t' x) ∧
      ∀ m ∈ ms, ∀ x, m.telegramUserId = some x → HasPerson b t' x := by
  induction ms generalizing t with
  | nil =>
      cases hturns
      exact ⟨fun _ hp => hp, fun m hm => absurd hm (by simp)⟩
  | cons m ms ih =>
      obtain ⟨⟨y, hy⟩, hrest⟩ := hms.cons
      obtain ⟨id, t₁, hup, hsound, hturns'⟩ := hturns.cons_cases h hy
      obtain ⟨hkeep, hnew⟩ := ih hturns' hsound hrest
      refine ⟨fun x hp => hkeep x ((hup.keeps_person h hp).attached id m), ?_⟩
      intro q hq x hx
      rcases List.mem_cons.mp hq with rfl | hq
      · obtain ⟨r, hr, hid, hrx⟩ := hup.returned_person h hx rfl
        exact hkeep x ⟨r, hr, hrx, inDataset_attached.mpr (Or.inr ⟨rfl, hid⟩),
          hasOrigin_attached.mpr (Or.inr ⟨rfl, hid, rfl⟩)⟩
      · exact hnew q hq x hx

/-! ## A pass over members that are all there -/

/-- Every member of the batch is in the dataset already, with the origin of the batch. -/
def Familiar (b : IngestInto) (t : MemberTables) (ms : List Member) : Prop :=
  ∀ m ∈ ms, ∃ x, m.telegramUserId = some x ∧ HasPerson b t x

theorem Familiar.allPeople (h : Familiar b t ms) : AllPeople ms := by
  intro m hm
  obtain ⟨x, hx, -⟩ := h m hm
  exact ⟨x, hx⟩

/-- No username-only row has the username of a member. -/
def Unclaimed (t : MemberTables) (ms : List Member) : Prop :=
  ∀ m ∈ ms, ∀ u, (values m).username = some u → t.fallbackRow u = none

theorem Familiar.turn (hf : Familiar b t (m :: ms)) (h : t.Sound) {id : MemberId}
    {t₁ : MemberTables} (hup : Upsert t m (some id) t₁) :
    Familiar b (t₁.attached b id m) ms := by
  intro q hq
  obtain ⟨x, hx, hp⟩ := hf q (List.mem_cons_of_mem _ hq)
  exact ⟨x, hx, (hup.keeps_person h hp).attached id m⟩

theorem Unclaimed.turn (hu : Unclaimed t (m :: ms)) (h : t.Sound) (hx : m.telegramUserId = some x)
    {id : MemberId} {t₁ : MemberTables} (hup : Upsert t m (some id) t₁) :
    Unclaimed (t₁.attached b id m) ms := by
  intro q hq u hqu
  show t₁.fallbackRow u = none
  cases hf : t₁.fallbackRow u with
  | none => rfl
  | some f =>
      obtain ⟨hfmem, hfnone, hfid⟩ := (h.upsert hup).fallbackRow_eq_some hf
      have hold := h.fallbackRow (hup.no_fallback hx hfmem hfnone) hfid
      rw [hu q (List.mem_cons_of_mem _ hq) u hqu] at hold
      exact absurd hold (by simp)

/-- The rows of the dataset take no second row of a person who is there. -/
theorem attached_of_hasPerson (h : t.Sound) {c : Row} (hc : c ∈ t.members)
    (hx : c.telegramUserId = some x) (hp : HasPerson b t x) (m : Member) :
    (t.attached b c.id m).memberships = t.memberships ∧
      (t.attached b c.id m).provenance = t.provenance := by
  obtain ⟨r, hr, hrx, hin, ho⟩ := hp
  obtain rfl := h.identity_unique hr hc
    ((Row.identity_of_some hrx).trans (Row.identity_of_some hx).symm)
  exact ⟨insertOrIgnore_of_mem hin, insertOrIgnore_of_mem ho⟩

/-- **A turn for somebody who is there**, without a username-only row to take over: the row is
overwritten. -/
theorem Upsert.familiar_known (h : t.Sound) {id : MemberId} {t₁ : MemberTables}
    (hup : Upsert t m (some id) t₁) (hx : m.telegramUserId = some x) (hp : HasPerson b t x)
    (hfree : ∀ u, (values m).username = some u → t.fallbackRow u = none) :
    t₁.members = t.members.map (overwrite [m]) ∧ t₁.memberships = t.memberships ∧
      t₁.provenance = t.provenance := by
  obtain ⟨r, hr, hrx, -, -⟩ := hp
  cases hup with
  | @known uid c hm hc hcuid _ =>
      refine ⟨List.map_congr_left fun q hq => ?_, rfl, rfl⟩
      by_cases hid : q.id = c.id
      · obtain rfl := h.row_unique hq hc hid
        rw [if_pos hid, overwrite_singleton hcuid, if_pos hm]
      · rw [if_neg hid]
        cases hqx : q.telegramUserId with
        | none => exact (overwrite_of_none hqx).symm
        | some y =>
            rw [overwrite_singleton hqx, if_neg]
            intro hy
            rw [hm] at hy
            exact hid (congrArg Row.id (h.identity_unique hq hc
              ((Row.identity_of_some (hqx.trans hy.symm)).trans (Row.identity_of_some hcuid).symm)))
  | merged hm hc hcuid hu hf =>
      rw [hfree _ hu] at hf
      exact absurd hf (by simp)
  | named hnew hu hf =>
      rw [hfree _ hu] at hf
      exact absurd hf (by simp)
  | added hnew _ hsome =>
      exact absurd (Row.identity_of_some hrx) (byTelegramId_eq_none (hnew x hx) hr)

/-- **A turn for somebody who is there** adds no row, and one row less is left when it takes over a
username-only row. -/
theorem Upsert.familiar_length (h : t.Sound) {id : MemberId} {t₁ : MemberTables}
    (hup : Upsert t m (some id) t₁) (hx : m.telegramUserId = some x) (hp : HasPerson b t x) :
    t₁.members.length ≤ t.members.length ∧
      ((∃ u f, (values m).username = some u ∧ t.fallbackRow u = some f) →
        t₁.members.length < t.members.length) := by
  obtain ⟨r, hr, hrx, -, -⟩ := hp
  have hold : ¬ ∀ uid, m.telegramUserId = some uid → t.byTelegramId uid = none := fun hnew =>
    absurd (Row.identity_of_some hrx) (byTelegramId_eq_none (hnew x hx) hr)
  cases hup with
  | known hm hc hcuid hfree =>
      refine ⟨(List.length_map _).le, ?_⟩
      rintro ⟨u, f, hu, hf⟩
      rw [hfree u hu] at hf
      exact absurd hf (by simp)
  | @merged uid c f u hm hc hcuid hu hf =>
      have hlt : ((({ t with sequence := t.sequence + 1 }).setRow ⟨values m, c.id, some uid⟩).absorb
          f.id c.id).members.length < t.members.length := by
        show (List.filter _ (List.map _ t.members)).length < _
        have hlength : t.members.length = (t.members.map fun q =>
            if q.id = c.id then (⟨values m, c.id, some uid⟩ : Row) else q).length :=
          (List.length_map _).symm
        rw [hlength]
        obtain ⟨hfmem, -, -⟩ := h.fallbackRow_eq_some hf
        have hne := (h.fallback_ne hf hc hcuid).1
        refine List.length_filter_lt_length_iff_exists.mpr ⟨f, List.mem_map.mpr ⟨f, hfmem, ?_⟩, ?_⟩
        · rw [if_neg hne]
        · simp
      exact ⟨hlt.le, fun _ => hlt⟩
  | named hnew hu hf => exact absurd hnew hold
  | added hnew hfree hsome => exact absurd hnew hold

/-- **A pass over people who are there** overwrites rows, when there is no username-only row to take
over. -/
theorem Turns.familiar (hturns : Turns b t ms t') (h : t.Sound) (hf : Familiar b t ms)
    (hu : Unclaimed t ms) :
    t'.members = t.members.map (overwrite ms) ∧ t'.memberships = t.memberships ∧
      t'.provenance = t.provenance := by
  induction ms generalizing t with
  | nil =>
      cases hturns
      refine ⟨?_, rfl, rfl⟩
      have hid : overwrite [] = id := by
        funext r
        unfold overwrite
        cases r.telegramUserId <;> rfl
      rw [hid, List.map_id]
  | cons m ms ih =>
      obtain ⟨x, hx, hp⟩ := hf m (List.mem_cons_self ..)
      obtain ⟨id, t₁, hup, hsound, hturns'⟩ := hturns.cons_cases h hx
      obtain ⟨hmembers, hms, hps⟩ :=
        hup.familiar_known h hx hp (hu m (List.mem_cons_self ..))
      obtain ⟨hmembers', hms', hps'⟩ := ih hturns' hsound (hf.turn h hup) (hu.turn h hx hup)
      obtain ⟨c, hc, hcx, -, hcid⟩ := hup.writes_values h hx
      obtain rfl := Option.some.inj hcid
      obtain ⟨hatt, hatt'⟩ := attached_of_hasPerson (h.upsert hup) hc hcx (hup.keeps_person h hp) m
      refine ⟨?_, (hms'.trans hatt).trans hms, (hps'.trans hatt').trans hps⟩
      rw [hmembers']
      show t₁.members.map (overwrite ms) = _
      rw [hmembers, List.map_map]
      exact List.map_congr_left fun r _ => (overwrite_cons m ms r).symm

/-- A pass over people who are there leaves no more rows, and fewer when it takes over a
username-only row. -/
theorem Turns.familiar_length (hturns : Turns b t ms t') (h : t.Sound) (hf : Familiar b t ms) :
    t'.members.length ≤ t.members.length ∧
      (¬ Unclaimed t ms → t'.members.length < t.members.length) := by
  induction ms generalizing t with
  | nil =>
      cases hturns
      exact ⟨Nat.le_refl _, fun hnot => absurd (fun m hm => absurd hm (by simp)) hnot⟩
  | cons m ms ih =>
      obtain ⟨x, hx, hp⟩ := hf m (List.mem_cons_self ..)
      obtain ⟨id, t₁, hup, hsound, hturns'⟩ := hturns.cons_cases h hx
      obtain ⟨hle, hlt⟩ := hup.familiar_length h hx hp
      obtain ⟨hle', hlt'⟩ := ih hturns' hsound (hf.turn h hup)
      have hsame : (t₁.attached b id m).members.length = t₁.members.length := rfl
      rw [hsame] at hle' hlt'
      refine ⟨hle'.trans hle, fun hnot => ?_⟩
      by_cases hhere : ∃ u f, (values m).username = some u ∧ t.fallbackRow u = some f
      · exact hle'.trans_lt (hlt hhere)
      · refine (hlt' fun hrest => hnot ?_).trans_le hle
        intro q hq u hu
        rcases List.mem_cons.mp hq with rfl | hq
        · cases hfind : t.fallbackRow u with
          | none => rfl
          | some f => exact absurd ⟨u, f, hu, hfind⟩ hhere
        · cases hfind : t.fallbackRow u with
          | none => rfl
          | some f =>
              -- the turn has no row to take over, so the username-only rows stay
              obtain ⟨hfmem, hfnone, hfid⟩ := h.fallbackRow_eq_some hfind
              have hnames : ¬ Names m (lower u) := by
                intro hn
                obtain ⟨v, hv, hvu⟩ := Option.map_eq_some_iff.mp hn
                exact hhere ⟨v, f, hv, h.fallbackRow_of_names hfmem hfid hn hv⟩
              obtain ⟨⟨f', hf', -, hfid'⟩, -⟩ :=
                hup.keeps_fallback h hfmem hfid fun hn => absurd hn hnames
              have hfind' := (h.upsert hup).fallbackRow hf' hfid'
              have hnone : t₁.fallbackRow u = none := hrest q hq u hu
              rw [hnone] at hfind'
              exact absurd hfind' (by simp)

/-- A pass over people who are there accepts nobody. -/
theorem Sound.accepted_familiar (h : t.Sound) (hf : Familiar b t ms) {s s' : IngestSummary}
    (hrun : ms.foldlM (ingestOne b) (s, t) = .ok (s', t')) : s'.accepted = s.accepted := by
  induction ms generalizing t s with
  | nil =>
      obtain rfl := congrArg Prod.fst (Except.ok.inj hrun)
      rfl
  | cons m ms ih =>
      obtain ⟨x, hx, hp⟩ := hf m (List.mem_cons_self ..)
      obtain ⟨i, t₁, hone, hup⟩ := h.upsertOne_spec m
      have h₁ := h.upsert hup
      rw [List.foldlM_cons] at hrun
      simp only [ingestOne, hone, bind, Except.bind] at hrun
      cases i with
      | none =>
          have hsome := (hup.returned h).2.mpr (Or.inl (by rw [hx]; rfl))
          exact absurd hsome (by simp)
      | some id =>
          simp only at hrun
          cases hatt : t₁.attach b id m with
          | error e => simp [hatt] at hrun
          | ok t₂ =>
              obtain ⟨h₂, rfl⟩ := h₁.attach hatt
              simp only [hatt] at hrun
              obtain ⟨c, hc, hcx, -, hcid⟩ := hup.writes_values h hx
              obtain rfl := Option.some.inj hcid
              have hsame := (attached_of_hasPerson h₁ hc hcx (hup.keeps_person h hp) m).1
              have hrest := ih h₂ (hf.turn h hup) hrun
              rw [hsame, Nat.sub_self, Nat.add_zero] at hrest
              exact hrest

/-- The tables that an ingest touches are as they were, but for timestamps. -/
structure SameTables (t t' : MemberTables) : Prop where
  members : t'.members = t.members
  memberships : t'.memberships = t.memberships
  provenance : t'.provenance = t.provenance
  peerCache : t'.peerCache = t.peerCache
  datasets : t'.datasets = t.datasets

/-- The counts of the dataset are right. -/
def Counted (b : IngestInto) (t : MemberTables) : Prop :=
  (t.setMemberCount b.datasetId (t.countMembers b.datasetId)).datasets = t.datasets

/-- **Members who are all there** change nothing exactly when there is no username-only row to take
over and the last writers have won already. -/
theorem Sound.replay_iff (h : t.Sound) (hf : Familiar b t ms) (hrefers : ∀ m ∈ ms, b.Refers t m)
    (hcount : Counted b t) :
    (∃ s t', t.submitIngestBatch b ms = .ok (s, t') ∧ SameTables t t' ∧ s.accepted = 0) ↔
      Unclaimed t ms ∧ (∀ r ∈ t.members, overwrite ms r = r) ∧
        writePeers b peerColumns t.peerCache ms = t.peerCache := by
  constructor
  · rintro ⟨s, t', hrun, hsame, -⟩
    obtain ⟨t₁, h₁, hturns, rfl⟩ := h.submitIngestBatch_ok hrun
    have hmembers : t₁.members = t.members := hsame.members
    have hunclaimed : Unclaimed t ms := by
      by_contra hnot
      have hlt := (hturns.familiar_length h hf).2 hnot
      rw [hmembers] at hlt
      exact Nat.lt_irrefl _ hlt
    refine ⟨hunclaimed, fun r hr => ?_, ?_⟩
    · exact hturns.overwrite_eq h hf.allPeople (hmembers ▸ hr)
    · rw [← hturns.peerCache_eq h hf.allPeople]
      exact hsame.peerCache
  · rintro ⟨hunclaimed, hover, hpeers⟩
    obtain ⟨⟨s, t'⟩, hrun⟩ := (h.submitIngestBatch_committed_iff ms).mpr hrefers
    obtain ⟨t₁, h₁, hturns, rfl⟩ := h.submitIngestBatch_ok hrun
    obtain ⟨hmembers, hms, hps⟩ := hturns.familiar h hf hunclaimed
    have hdatasets : t₁.datasets = t.datasets := hturns.frame.1
    refine ⟨s, _, hrun, ⟨?_, hms, hps, ?_, ?_⟩, ?_⟩
    · exact hmembers.trans ((List.map_congr_left hover).trans (List.map_id _))
    · exact (hturns.peerCache_eq h hf.allPeople).trans hpeers
    · show t₁.datasets.modify b.datasetId _ = t.datasets
      rw [hdatasets, show t₁.countMembers b.datasetId = t.countMembers b.datasetId by
        unfold countMembers
        rw [hms]]
      exact hcount
    · unfold submitIngestBatch at hrun
      cases hfold : ms.foldlM (ingestOne b) ({}, t) with
      | error e => simp [hfold, bind, Except.bind] at hrun
      | ok p =>
          obtain ⟨s₁, t₂⟩ := p
          simp only [hfold, bind, Except.bind] at hrun
          obtain ⟨rfl, -⟩ := Prod.mk.inj (Except.ok.inj hrun)
          exact h.accepted_familiar hf hfold

end MemberTables
end Members
end MigrationStudio
