import MigrationStudio.ImportExport.Service
import MigrationStudio.Storage.MemberStore

/-!
# Exporting a dataset and importing the file

The import reads six of the ten columns, and its upsert writes the columns that it has not read as
well, into the rows that the members have already.  An empty text comes back as a missing one, a
username is cleaned twice, and a username-only row with the username of a member goes into the row
of the member's Telegram id.

* `RoundTrip`: what an import of an exported file should leave.
* `Survives`: the rows for which it does; `Sound.roundTrip_iff`.
* `round_trip_iff`: the two agree in every state that the operations of the store lead to.
-/

namespace MigrationStudio
namespace ImportExport

open Foundations MigrationStudio.Core Members Telegram Storage
open Members.MemberTables (InDataset Sound Turns Upsert Settled values)

/-! ## Cleaning a username again -/

theorem infix_of_cleanUsername {u v : String} (h : cleanUsername (some u) = some v) :
    v.toList <:+: u.toList := by
  simp only [cleanUsername] at h
  split_ifs at h
  obtain rfl := Option.some.inj h
  simp only [lstripAt, strip, String.toList_ofList]
  exact (List.dropWhile_suffix _).isInfix.trans
    ((List.rdropWhile_prefix _ _).isInfix.trans (List.dropWhile_suffix _).isInfix)

theorem length_le_of_cleanUsername {u v : String} (h : cleanUsername (some u) = some v) :
    v.toList.length ≤ u.toList.length := (infix_of_cleanUsername h).length_le

theorem eq_of_cleanUsername_of_length {u v : String} (h : cleanUsername (some u) = some v)
    (hlen : v.toList.length = u.toList.length) : v = u :=
  String.toList_inj.mp ((infix_of_cleanUsername h).eq_of_length hlen)

/-- Cleaning makes a username shorter or leaves it. -/
theorem length_lt_or_eq_of_cleanUsername_twice {u v : String}
    (h : cleanUsername (cleanUsername (some u)) = some v) :
    v.toList.length < u.toList.length ∨ (v = u ∧ cleanUsername (some u) = some u) := by
  cases hw : cleanUsername (some u) with
  | none =>
      rw [hw] at h
      exact absurd h (by simp [cleanUsername])
  | some w =>
      rw [hw] at h
      have hvw := length_le_of_cleanUsername h
      have hwu := length_le_of_cleanUsername hw
      rcases Nat.lt_or_eq_of_le (Nat.le_trans hvw hwu) with hlt | heq
      · exact Or.inl hlt
      · have hw' : w = u :=
          eq_of_cleanUsername_of_length hw (Nat.le_antisymm hwu (heq ▸ hvw))
        subst hw'
        exact Or.inr ⟨eq_of_cleanUsername_of_length h heq, rfl⟩

theorem length_lower (s : String) : (lower s).toList.length = s.toList.length := by
  simp [lower]

/-! ## The member that a row is read back as -/

/-- The columns that the upsert of an imported row writes. -/
def imported (r : Row) : Values where
  username := cleanUsername (cleanUsername r.username)
  firstName := r.firstName.filter (· ≠ "")
  lastName := r.lastName.filter (· ≠ "")
  phone := r.phone.filter (· ≠ "")

theorem values_importMember {t : MemberTables} {account : Option AccountId} {r : Row}
    {m : Members.Member} (h : importMember t account r = some m) :
    values m = imported r ∧ m.telegramUserId = r.telegramUserId ∧
      m.accessHash = accessOf t account r.telegramUserId := by
  unfold importMember at h
  split_ifs at h
  obtain rfl := Option.some.inj h
  exact ⟨rfl, rfl, rfl⟩

/-- The row comes back as it is, and takes no other row over. -/
structure Survives (t : MemberTables) (r : Row) : Prop where
  bot : r.bot = false
  deleted : r.deleted = false
  activityStatus : r.activityStatus = none
  lastSeen : r.lastSeen = none
  firstName : r.firstName ≠ some ""
  lastName : r.lastName ≠ some ""
  phone : r.phone ≠ some ""
  username : cleanUsername r.username = r.username
  alone : r.telegramUserId.isSome → ∀ u, r.username = some u → t.fallbackRow u = none

theorem filter_eq_self_iff {v : Option String} : v.filter (· ≠ "") = v ↔ v ≠ some "" := by
  cases v with
  | none => simp
  | some u =>
      by_cases hu : u = ""
      · simp [hu, Option.filter_some]
      · simp [hu, Option.filter_some]

theorem cleanUsername_of_twice {v : Option String} (h : cleanUsername (cleanUsername v) = v) :
    cleanUsername v = v := by
  cases v with
  | none => rfl
  | some u =>
      rcases length_lt_or_eq_of_cleanUsername_twice h with hlt | ⟨-, hclean⟩
      · exact absurd hlt (Nat.lt_irrefl _)
      · exact hclean

/-- **A row survives** when its columns are those that the import writes and no username-only row
has its username. -/
theorem survives_iff {t : MemberTables} {r : Row} :
    Survives t r ↔ imported r = r.toValues ∧
      (r.telegramUserId.isSome → ∀ u, r.username = some u → t.fallbackRow u = none) := by
  constructor
  · intro h
    refine ⟨?_, h.alone⟩
    have husername : cleanUsername (cleanUsername r.username) = r.username := by
      rw [h.username, h.username]
    rw [imported, husername, filter_eq_self_iff.mpr h.firstName,
      filter_eq_self_iff.mpr h.lastName, filter_eq_self_iff.mpr h.phone]
    show Values.mk r.username r.firstName r.lastName r.phone false false none none =
      Values.mk r.username r.firstName r.lastName r.phone r.bot r.deleted r.activityStatus
        r.lastSeen
    rw [h.bot, h.deleted, h.activityStatus, h.lastSeen]
  · rintro ⟨heq, halone⟩
    exact ⟨(congrArg Values.bot heq).symm, (congrArg Values.deleted heq).symm,
      (congrArg Values.activityStatus heq).symm, (congrArg Values.lastSeen heq).symm,
      filter_eq_self_iff.mp (congrArg Values.firstName heq),
      filter_eq_self_iff.mp (congrArg Values.lastName heq),
      filter_eq_self_iff.mp (congrArg Values.phone heq),
      cleanUsername_of_twice (congrArg Values.username heq), halone⟩

/-! ## A batch that repeats what is stored -/

variable {t t' t₀ t₁ : MemberTables} {b : IngestInto} {m : Members.Member}
  {ms : List Members.Member} {i : Option MemberId} {account : Option AccountId} {d : DatasetId}

/-- The member identifies the row. -/
def Hits (c : Row) (m : Members.Member) : Prop :=
  c.telegramUserId = m.telegramUserId ∧
    (m.telegramUserId = none → ∃ k, c.identity = some (.inr k) ∧ Names m k)

/-- The member says of the row what is stored already. -/
structure Repeats (t : MemberTables) (account : Option AccountId) (m : Members.Member) (r : Row) :
    Prop where
  mem : r ∈ t.members
  uid : r.telegramUserId = m.telegramUserId
  same : values m = r.toValues
  alone : r.telegramUserId.isSome → ∀ u, r.username = some u → t.fallbackRow u = none
  hash : m.accessHash = accessOf t account m.telegramUserId

theorem Repeats.hits {r : Row} (hr : Repeats t account m r) (h : t.Sound) : Hits r m := by
  refine ⟨hr.uid, fun hnone => ?_⟩
  have hident := MemberStore.username_identity (h.identified r hr.mem) (hr.uid.trans hnone)
  obtain ⟨y, hy⟩ := Option.isSome_iff_exists.mp (h.identified r hr.mem)
  rw [hy] at hident
  obtain ⟨u, hu, rfl⟩ := Option.map_eq_some_iff.mp hident.symm
  refine ⟨lower u, hy, ?_⟩
  rw [Names, hr.same, hu, Option.map_some]

theorem Repeats.unique {r q : Row} (hr : Repeats t account m r) (h : t.Sound)
    (hq : Repeats t account m q) : r = q := by
  have husername : r.username = q.username :=
    congrArg Values.username (hr.same.symm.trans hq.same)
  refine h.identity_unique hr.mem hq.mem ?_
  unfold Row.identity Row.fallbackKey
  rw [hr.uid, hq.uid, husername]

theorem setRow_self (h : t.Sound) {r : Row} (hr : r ∈ t.members) :
    (t.setRow r).members = t.members := by
  show t.members.map (fun q => if q.id = r.id then r else q) = t.members
  rw [List.map_congr_left (g := id), List.map_id]
  intro q hq
  split_ifs with hid
  · exact h.row_unique hr hq hid.symm
  · rfl

/-- **One member that repeats a row** changes no row and moves nothing. -/
theorem Repeats.upsert {r : Row} (hr : Repeats t account m r) (h : t.Sound)
    (hup : Upsert t m i t') :
    i = some r.id ∧ t'.members = t.members ∧ ∀ k id, t'.InDataset k id ↔ t.InDataset k id := by
  obtain ⟨huid, hn⟩ := hr.hits h
  obtain ⟨hi, hrow⟩ := hup.into_row h hr.mem huid hn
  have hself : (⟨values m, r.id, m.telegramUserId⟩ : Row) = r := by
    rw [hr.same, ← hr.uid]
  have hnofall : m.telegramUserId.isSome → ∀ u, (values m).username = some u →
      t.fallbackRow u = none := by
    intro hsome u hu
    rw [hr.same] at hu
    exact hr.alone (hr.uid ▸ hsome) u hu
  have hmerged : ∀ id, t.mergedId m id = id := by
    intro id
    unfold MemberTables.mergedId
    split
    · rename_i c f hc hf
      obtain ⟨uid, hm, -⟩ := Option.bind_eq_some_iff.mp hc
      obtain ⟨u, hu, hfu⟩ := Option.bind_eq_some_iff.mp hf
      rw [hnofall (by rw [hm]; rfl) u hu] at hfu
      exact absurd hfu (by simp)
    · rfl
  refine ⟨hi, ?_, fun k id => ?_⟩
  · rcases hrow with heq | ⟨u, f, hsome, hu, hf, -, -⟩
    · rw [heq, hself, setRow_self h hr.mem]
    · rw [hnofall hsome u hu] at hf
      exact absurd hf (by simp)
  · rw [hup.inDataset h]
    simp [hmerged]

theorem accessOf_attached {id : MemberId} (hhash : m.accessHash = accessOf t b.accountId
    m.telegramUserId) (a : Option AccountId) (x : Option ℤ) :
    accessOf (t.attached b id m) a x = accessOf t a x := by
  unfold MemberTables.attached ingestRecord
  split
  · rename_i peer hpeer
    split at hpeer
    · rename_i acc u hash hacc hu hh
      obtain rfl := Option.some.inj hpeer
      simp only at hacc hu hh
      cases a with
      | none => rfl
      | some a =>
          cases x with
          | none => rfl
          | some x =>
              simp only [accessOf, upsertPeer]
              by_cases ha : a = acc
              · subst ha
                rw [Function.update_self]
                by_cases hx : x = u
                · subst hx
                  rw [Function.update_self]
                  rw [hacc, hu, hh] at hhash
                  exact hhash
                · rw [Function.update_of_ne hx]
              · rw [Function.update_of_ne ha]
    · exact absurd hpeer (by simp)
  · rfl

theorem Repeats.congr {r : Row} (hr : Repeats t account m r) (hmembers : t'.members = t.members)
    (hhash : ∀ a x, accessOf t' a x = accessOf t a x) : Repeats t' account m r where
  mem := hmembers ▸ hr.mem
  uid := hr.uid
  same := hr.same
  alone := by
    have hfind : ∀ u, t'.fallbackRow u = t.fallbackRow u := by
      intro u
      unfold MemberTables.fallbackRow
      rw [hmembers]
    intro hsome u hu
    rw [hfind]
    exact hr.alone hsome u hu
  hash := by rw [hhash]; exact hr.hash

/-- **A batch of such members** changes no row, and its dataset gets their rows. -/
theorem repeats_of_turns (hturns : Turns b t ms t') (h : t.Sound)
    (hms : ∀ m ∈ ms, ∃ r, Repeats t b.accountId m r) :
    t'.members = t.members ∧ (∀ a x, accessOf t' a x = accessOf t a x) ∧
      ∀ id, t'.InDataset b.datasetId id ↔
        t.InDataset b.datasetId id ∨ ∃ m ∈ ms, ∃ r, Repeats t b.accountId m r ∧ r.id = id := by
  induction hturns with
  | nil t => exact ⟨rfl, fun _ _ => rfl, fun id => by simp⟩
  | skipped hup _ ih =>
      obtain ⟨r, hr⟩ := hms _ (List.mem_cons_self ..)
      exact absurd (hr.upsert h hup).1 (by simp)
  | @taken t t₁ t' m ms id₁ hup hsound _ ih =>
      obtain ⟨r, hr⟩ := hms m (List.mem_cons_self ..)
      obtain ⟨hid, hmembers, hin⟩ := hr.upsert h hup
      obtain rfl := Option.some.inj hid
      have hpeers : ∀ a x, accessOf t₁ a x = accessOf t a x := by
        intro a x
        unfold accessOf
        rw [hup.frame.2.2.2.2]
      have hhash : ∀ a x, accessOf (t₁.attached b r.id m) a x = accessOf t a x := by
        intro a x
        rw [accessOf_attached (by rw [hpeers]; exact hr.hash), hpeers]
      obtain ⟨hmembers', hhash', hin'⟩ := ih hsound fun q hq => by
        obtain ⟨p, hp⟩ := hms q (List.mem_cons_of_mem _ hq)
        exact ⟨p, hp.congr hmembers hhash⟩
      refine ⟨hmembers'.trans hmembers, fun a x => (hhash' a x).trans (hhash a x), fun id => ?_⟩
      rw [hin', MemberTables.inDataset_attached, hin]
      constructor
      · rintro ((hin | ⟨-, rfl⟩) | ⟨q, hq, p, hp, rfl⟩)
        · exact Or.inl hin
        · exact Or.inr ⟨m, List.mem_cons_self .., r, hr, rfl⟩
        · exact Or.inr ⟨q, List.mem_cons_of_mem _ hq, p,
            hp.congr hmembers.symm fun a x => (hhash a x).symm, rfl⟩
      · rintro (hin | ⟨q, hq, p, hp, rfl⟩)
        · exact Or.inl (Or.inl hin)
        · rcases List.mem_cons.mp hq with rfl | hq
          · refine Or.inl (Or.inr ⟨rfl, ?_⟩)
            have hident := hup.into_row h hp.mem (hp.hits h).1 (hp.hits h).2
            exact (Option.some.inj hident.1).symm
          · exact Or.inr ⟨q, hq, p, hp.congr hmembers hhash, rfl⟩

/-! ## What a batch writes -/

/-- **A row that the batch writes** holds afterwards what all members that hit it say. -/
theorem written_of_turns (hturns : Turns b t ms t') (h : t.Sound) {c : Row} (hc : c ∈ t.members)
    {v : Values} (hall : ∀ m ∈ ms, Hits c m → values m = v)
    (hfree : ∀ m ∈ ms, ∀ k, c.identity = some (.inr k) → Names m k → m.telegramUserId = none)
    (hex : (∃ m ∈ ms, Hits c m) ∨ c.toValues = v) :
    ⟨v, c.id, c.telegramUserId⟩ ∈ t'.members := by
  have hstep : ∀ {t t₁ : MemberTables} {i : Option MemberId} {m : Members.Member}
      {ms : List Members.Member} {c : Row}, t.Sound → Upsert t m i t₁ → c ∈ t.members →
      (∀ q ∈ m :: ms, Hits c q → values q = v) →
      (∀ q ∈ m :: ms, ∀ k, c.identity = some (.inr k) → Names q k → q.telegramUserId = none) →
      ((∃ q ∈ m :: ms, Hits c q) ∨ c.toValues = v) →
      ∃ c' ∈ t₁.members, c'.id = c.id ∧ c'.telegramUserId = c.telegramUserId ∧
        c'.identity = c.identity ∧ ((∃ q ∈ ms, Hits c q) ∨ c'.toValues = v) := by
    intro t t₁ i m ms c h hup hc hall hfree hex
    by_cases hhit : Hits c m
    · have hwritten := hup.writes h hc hhit.1 hhit.2
      refine ⟨_, hwritten, rfl, hhit.1.symm, ?_, Or.inr (hall m (List.mem_cons_self ..) hhit)⟩
      cases huid : m.telegramUserId with
      | some uid =>
          rw [Row.identity_of_some (hhit.1.trans huid)]
          rfl
      | none =>
          obtain ⟨k, hk, hname⟩ := hhit.2 huid
          obtain ⟨u, hu, rfl⟩ := Option.map_eq_some_iff.mp hname
          rw [MemberTables.identity_values hu, hk]
    · obtain ⟨-, hc'⟩ := hup.leaves h hc (fun x hx hm => hhit ⟨hx.trans hm.symm, fun hnone => by
          rw [hm] at hnone
          exact absurd hnone (by simp)⟩) fun k hk hname => hhit (by
        have hnone := hfree m (List.mem_cons_self ..) k hk hname
        refine ⟨?_, fun _ => ⟨k, hk, hname⟩⟩
        rw [hnone]
        cases hx : c.telegramUserId with
        | none => rfl
        | some x =>
            rw [Row.identity_of_some hx] at hk
            exact absurd hk (by simp))
      refine ⟨c, hc', rfl, rfl, rfl, ?_⟩
      rcases hex with ⟨q, hq, hhits⟩ | hv
      · rcases List.mem_cons.mp hq with rfl | hq
        · exact absurd hhits hhit
        · exact Or.inl ⟨q, hq, hhits⟩
      · exact Or.inr hv
  have hmoved : ∀ {c c' : Row} {q : Members.Member}, c'.telegramUserId = c.telegramUserId →
      c'.identity = c.identity → (Hits c' q ↔ Hits c q) := by
    intro c c' q huid hident
    unfold Hits
    rw [huid, hident]
  induction hturns generalizing c with
  | nil t =>
      rcases hex with ⟨m, hm, -⟩ | rfl
      · exact absurd hm (by simp)
      · exact hc
  | skipped hup _ ih =>
      obtain ⟨c', hc', hid, huid, hident, hex'⟩ := hstep h hup hc hall hfree hex
      rw [← hid, ← huid]
      refine ih (h.upsert hup) hc' (fun q hq hq' => ?_) (fun q hq k hk => ?_) ?_
      · exact hall q (List.mem_cons_of_mem _ hq) ((hmoved huid hident).mp hq')
      · exact hfree q (List.mem_cons_of_mem _ hq) k (hident ▸ hk)
      · exact hex'.imp_left fun ⟨q, hq, hq'⟩ => ⟨q, hq, (hmoved huid hident).mpr hq'⟩
  | taken hup hsound _ ih =>
      obtain ⟨c', hc', hid, huid, hident, hex'⟩ := hstep h hup hc hall hfree hex
      rw [← hid, ← huid]
      refine ih hsound hc' (fun q hq hq' => ?_) (fun q hq k hk => ?_) ?_
      · exact hall q (List.mem_cons_of_mem _ hq) ((hmoved huid hident).mp hq')
      · exact hfree q (List.mem_cons_of_mem _ hq) k (hident ▸ hk)
      · exact hex'.imp_left fun ⟨q, hq, hq'⟩ => ⟨q, hq, (hmoved huid hident).mpr hq'⟩

/-- A username-only row whose username no member of the batch carries gets into no dataset. -/
theorem not_inDataset_of_turns (hturns : Turns b t ms t') (h : t.Sound) {c : Row} {k : String}
    (hc : c ∈ t.members) (hk : c.identity = some (.inr k)) (hnames : ∀ m ∈ ms, ¬ Names m k)
    (hout : ¬ t.InDataset d c.id) : ¬ t'.InDataset d c.id := by
  have hnone : c.telegramUserId = none := by
    cases hx : c.telegramUserId with
    | none => rfl
    | some x =>
        rw [Row.identity_of_some hx] at hk
        exact absurd hk (by simp)
  have hstep : ∀ {t t₁ : MemberTables} {i : Option MemberId} {m : Members.Member}, t.Sound →
      Upsert t m i t₁ → c ∈ t.members → ¬ Names m k → ¬ t.InDataset d c.id →
      i ≠ some c.id ∧ c ∈ t₁.members ∧ ¬ t₁.InDataset d c.id := by
    intro t t₁ i m h hup hc hname hout
    obtain ⟨hi, hc'⟩ := hup.leaves h hc
      (fun x hx => by rw [hnone] at hx; exact absurd hx (by simp))
      fun k' hk' hname' => hname (by
        rw [hk, Option.some.injEq, Sum.inr.injEq] at hk'
        exact hk' ▸ hname')
    refine ⟨hi, hc', fun hin => ?_⟩
    obtain ⟨id₀, hin₀, hmerged⟩ := (hup.inDataset h).mp hin
    unfold MemberTables.mergedId at hmerged
    split at hmerged
    · rename_i q f hq hf
      split_ifs at hmerged with hid
      · obtain ⟨uid, -, hquid⟩ := Option.bind_eq_some_iff.mp hq
        obtain ⟨hqmem, hqx⟩ := MemberTables.byTelegramId_eq_some hquid
        rw [h.row_unique hqmem hc hmerged, hnone] at hqx
        exact absurd hqx (by simp)
      · exact hout (hmerged ▸ hin₀)
    · exact hout (hmerged ▸ hin₀)
  induction hturns with
  | nil t => exact hout
  | skipped hup _ ih =>
      obtain ⟨-, hc', hout'⟩ := hstep h hup hc (hnames _ (List.mem_cons_self ..)) hout
      exact ih (h.upsert hup) hc' (fun q hq => hnames q (List.mem_cons_of_mem _ hq)) hout'
  | taken hup hsound _ ih =>
      obtain ⟨hi, hc', hout'⟩ := hstep h hup hc (hnames _ (List.mem_cons_self ..)) hout
      refine ih hsound hc' (fun q hq => hnames q (List.mem_cons_of_mem _ hq)) fun hin => ?_
      rcases MemberTables.inDataset_attached.mp hin with hin | ⟨-, hid⟩
      · exact hout' hin
      · exact hi (congrArg some hid.symm)

/-! ## The rows that come back -/

theorem mem_datasetRows {r : Row} :
    r ∈ datasetRows t d ↔ r ∈ t.members ∧ t.InDataset d r.id := by
  rw [datasetRows, List.mem_filter, decide_eq_true_eq, MemberTables.mem_memberIds]

theorem mem_importMembers :
    m ∈ (datasetRows t d).filterMap (importMember t account) ↔
      ∃ r ∈ datasetRows t d, importMember t account r = some m := List.mem_filterMap

/-- A stored username-only row that is still there has not been claimed. -/
theorem unclaimed_of_stored (hturns : Turns b t ms t') (h : t.Sound) (h' : t'.Sound) {f : Row}
    {k : String} (hf : f ∈ t.members) (hf' : f ∈ t'.members) (hk : f.identity = some (.inr k))
    (hm : m ∈ ms) (hname : Names m k) : m.telegramUserId = none := by
  have hs := (hturns.followed h h (h.followed_nil b)).settled
  rw [List.nil_append] at hs
  have hclaimed : f.claimed ms = claimedKey ms k := by
    rw [Row.claimed, hk]
  cases hc : f.claimed ms with
  | none =>
      rw [hclaimed, claimedKey, List.findSome?_eq_none_iff] at hc
      have hnone := hc m hm
      rwa [if_pos hname] at hnone
  | some x =>
      obtain ⟨r, hr, hx, -, hgone⟩ := hs.claimed f hf x hc
      have hid : r.id = f.id := by
        by_contra hne
        have hmember := MemberTables.hasMember_iff.mpr ⟨f, hf', rfl⟩
        rw [hgone hne] at hmember
        exact absurd hmember Bool.false_ne_true
      rw [h'.row_unique hr hf' hid] at hx
      rw [Row.identity_of_some hx] at hk
      exact absurd hk (by simp)

/-- What the import of a file leaves when it keeps the stored rows and brings the members back. -/
structure Kept (b : IngestInto) (t : MemberTables) (account : Option AccountId) (d : DatasetId)
    (t' : MemberTables) : Prop where
  sound : t.Sound
  sound' : t'.Sound
  turns : Turns b t ((datasetRows t d).filterMap (importMember t account)) t'
  fresh : ∀ id, ¬ t.InDataset b.datasetId id
  stored : ∀ r ∈ t.members, r ∈ t'.members
  back : ∀ r ∈ datasetRows t d, t'.InDataset b.datasetId r.id

/-- A row whose only writer in the batch is itself holds what the import writes. -/
theorem Kept.imported_eq (hk : Kept b t account d t') {r : Row} (hr : r ∈ datasetRows t d)
    (hself : ∀ q ∈ datasetRows t d, ∀ m, importMember t account q = some m → Hits r m → q = r)
    (hex : ∃ m ∈ (datasetRows t d).filterMap (importMember t account), Hits r m) :
    imported r = r.toValues := by
  have hmem := (mem_datasetRows.mp hr).1
  have hwritten := written_of_turns hk.turns hk.sound hmem (v := imported r) (fun m hm hhit => by
      obtain ⟨q, hq, hqm⟩ := mem_importMembers.mp hm
      rw [(values_importMember hqm).1, hself q hq m hqm hhit])
    (fun m hm k hident hname =>
      unclaimed_of_stored hk.turns hk.sound hk.sound' hmem (hk.stored r hmem) hident hm hname)
    (Or.inl hex)
  exact congrArg Row.toValues (hk.sound'.row_unique hwritten (hk.stored r hmem) rfl)

/-- A username-only member comes back through a member whose cleaned username is its own. -/
theorem Kept.carrier (hk : Kept b t account d t') {r : Row} (hr : r ∈ datasetRows t d)
    (hnone : r.telegramUserId = none) :
    ∃ q ∈ datasetRows t d, ∃ m u v, importMember t account q = some m ∧
      q.telegramUserId = none ∧ Hits r m ∧ r.username = some u ∧
      cleanUsername (cleanUsername q.username) = some v ∧ lower v = lower u := by
  have hmem := (mem_datasetRows.mp hr).1
  obtain ⟨y, hy⟩ := Option.isSome_iff_exists.mp (hk.sound.identified r hmem)
  have hident := MemberStore.username_identity (hk.sound.identified r hmem) hnone
  rw [hy] at hident
  obtain ⟨u, hu, rfl⟩ := Option.map_eq_some_iff.mp hident.symm
  have hname : ∃ m ∈ (datasetRows t d).filterMap (importMember t account), Names m (lower u) := by
    by_contra hno
    exact not_inDataset_of_turns hk.turns hk.sound hmem hy (fun m hm hn => hno ⟨m, hm, hn⟩)
      (hk.fresh r.id) (hk.back r hr)
  obtain ⟨m, hm, hn⟩ := hname
  have hmnone :=
    unclaimed_of_stored hk.turns hk.sound hk.sound' hmem (hk.stored r hmem) hy hm hn
  obtain ⟨q, hq, hqm⟩ := mem_importMembers.mp hm
  obtain ⟨hvalues, huid, -⟩ := values_importMember hqm
  obtain ⟨v, hv, hlower⟩ := Option.map_eq_some_iff.mp hn
  rw [hvalues] at hv
  exact ⟨q, hq, m, u, v, hqm, huid ▸ hmnone, ⟨hnone.trans hmnone.symm, fun _ => ⟨_, hy, hn⟩⟩, hu,
    hv, hlower⟩

theorem Kept.eq_of_lower (hk : Kept b t account d t') {r q : Row} (hr : r ∈ datasetRows t d)
    (hq : q ∈ datasetRows t d) (hrnone : r.telegramUserId = none)
    (hqnone : q.telegramUserId = none) {u v : String} (hu : r.username = some u)
    (hv : q.username = some v) (hlower : lower v = lower u) : q = r := by
  have hrmem := (mem_datasetRows.mp hr).1
  have hqmem := (mem_datasetRows.mp hq).1
  refine hk.sound.identity_unique hqmem hrmem ?_
  rw [MemberStore.username_identity (hk.sound.identified q hqmem) hqnone,
    MemberStore.username_identity (hk.sound.identified r hrmem) hrnone, hu, hv, Option.map_some,
    Option.map_some, hlower]

/-- **The usernames of the username-only members are clean**: of those that are not, one with the
longest username could only come back through a longer one. -/
theorem Kept.clean (hk : Kept b t account d t') {r : Row} (hr : r ∈ datasetRows t d)
    (hnone : r.telegramUserId = none) : cleanUsername r.username = r.username := by
  by_contra hunclean
  let unclean := (datasetRows t d).toFinset.filter fun q =>
    q.telegramUserId = none ∧ cleanUsername q.username ≠ q.username
  have hne : unclean.Nonempty :=
    ⟨r, Finset.mem_filter.mpr ⟨List.mem_toFinset.mpr hr, hnone, hunclean⟩⟩
  obtain ⟨p, hp, hmax⟩ := unclean.exists_max_image
    (fun q => (q.username.getD "").toList.length) hne
  obtain ⟨hpmem, hpnone, hpunclean⟩ := Finset.mem_filter.mp hp
  have hprows := List.mem_toFinset.mp hpmem
  obtain ⟨q, hq, m, u, v, -, hqnone, -, hu, hv, hlower⟩ := hk.carrier hprows hpnone
  cases hw : q.username with
  | none =>
      rw [hw] at hv
      exact absurd hv (by simp [cleanUsername])
  | some w =>
      rw [hw] at hv
      have hvu : v.toList.length = u.toList.length := by
        rw [← length_lower v, hlower, length_lower]
      rcases length_lt_or_eq_of_cleanUsername_twice hv with hlt | ⟨rfl, hwclean⟩
      · have hqunclean : q ∈ unclean := by
          refine Finset.mem_filter.mpr ⟨List.mem_toFinset.mpr hq, hqnone, fun hclean => ?_⟩
          rw [hw] at hclean
          rw [hclean, hclean, Option.some.injEq] at hv
          exact absurd hlt (hv ▸ Nat.lt_irrefl _)
        have hle := hmax q hqunclean
        rw [hw, hu, Option.getD_some, Option.getD_some, ← hvu] at hle
        exact absurd hlt (Nat.not_lt_of_le hle)
      · rw [hk.eq_of_lower hprows hq hpnone hqnone hu hw hlower] at hw
        exact hpunclean (by rw [hw]; exact hwclean)

/-- **Every row of the dataset survives.** -/
theorem Kept.survives (hk : Kept b t account d t') {r : Row} (hr : r ∈ datasetRows t d) :
    Survives t r := by
  have hmem := (mem_datasetRows.mp hr).1
  cases huid : r.telegramUserId with
  | none =>
      have hself : ∀ q ∈ datasetRows t d, ∀ m, importMember t account q = some m → Hits r m →
          q = r := by
        intro q hq m hqm hhit
        obtain ⟨hvalues, hquid, -⟩ := values_importMember hqm
        have hmnone : m.telegramUserId = none := hhit.1.symm.trans huid
        obtain ⟨k, hident, hname⟩ := hhit.2 hmnone
        rw [MemberStore.username_identity (hk.sound.identified r hmem) huid] at hident
        obtain ⟨u, hu, hku⟩ := Option.map_eq_some_iff.mp hident
        obtain rfl := Sum.inr.inj hku
        have hqnone := hquid ▸ hmnone
        rw [Names, hvalues, imported, hk.clean hq hqnone, hk.clean hq hqnone] at hname
        obtain ⟨v, hv, hlower⟩ := Option.map_eq_some_iff.mp hname
        exact hk.eq_of_lower hr hq huid hqnone hu hv hlower
      obtain ⟨q, hq, m, u, v, hqm, -, hhit, -⟩ := hk.carrier hr huid
      refine survives_iff.mpr ⟨hk.imported_eq hr hself
        ⟨m, mem_importMembers.mpr ⟨q, hq, hqm⟩, hhit⟩, fun hsome => ?_⟩
      rw [huid] at hsome
      exact absurd hsome (by simp)
  | some x =>
      obtain ⟨m, hm⟩ : ∃ m, importMember t account r = some m := by
        unfold importMember
        rw [if_neg fun hnone => absurd (huid.symm.trans hnone.1) (by simp)]
        exact ⟨_, rfl⟩
      obtain ⟨hvalues, hmuid, -⟩ := values_importMember hm
      have hhit : Hits r m := ⟨hmuid.symm, fun hnone => by
        rw [hmuid, huid] at hnone
        exact absurd hnone (by simp)⟩
      have hself : ∀ q ∈ datasetRows t d, ∀ m, importMember t account q = some m → Hits r m →
          q = r := by
        intro q hq m hqm hhit
        have hquid := (values_importMember hqm).2.1.symm.trans (hhit.1.symm.trans huid)
        exact hk.sound.identity_unique (mem_datasetRows.mp hq).1 hmem
          ((Row.identity_of_some hquid).trans (Row.identity_of_some huid).symm)
      have hbatch := mem_importMembers.mpr ⟨r, hr, hm⟩
      have himported := hk.imported_eq hr hself ⟨m, hbatch, hhit⟩
      refine survives_iff.mpr ⟨himported, fun _ u hu => ?_⟩
      cases hf : t.fallbackRow u with
      | none => rfl
      | some f =>
          obtain ⟨hfmem, -, hfid⟩ := hk.sound.fallbackRow_eq_some hf
          have hname : Names m (lower u) := by
            rw [Names, hvalues, himported]
            show r.username.map lower = _
            rw [hu, Option.map_some]
          have hmnone := unclaimed_of_stored hk.turns hk.sound hk.sound' hfmem
            (hk.stored f hfmem) hfid hbatch hname
          rw [hmuid, huid] at hmnone
          exact absurd hmnone (by simp)

/-! ## The round trip -/

/-- The dataset `new` has the members of the dataset `d` with their ten columns, and the rows that
were stored have theirs. -/
structure RoundTrip (t : MemberTables) (account : Option AccountId) (d new : DatasetId)
    (t' : MemberTables) : Prop where
  members : (datasetRows t' new).map Row.id = (datasetRows t d).map Row.id
  columns : (datasetRows t' new).map (rowValues t' account) =
    (datasetRows t d).map (rowValues t account)
  stored : ∀ r ∈ t.members,
    ∃ r' ∈ t'.members, r'.id = r.id ∧ rowValues t' account r' = rowValues t account r

theorem row_eq_of_rowValues {r r' : Row} (hid : r'.id = r.id)
    (hv : rowValues t' account r' = rowValues t account r) : r' = r := by
  obtain ⟨⟨u', f', l', p', b', x', a', s'⟩, id', uid'⟩ := r'
  obtain ⟨⟨u, f, l, p, b, x, a, s⟩, id, uid⟩ := r
  simp only [rowValues, ExportValues.mk.injEq] at hv
  obtain ⟨rfl, -, rfl, rfl, rfl, rfl, rfl, rfl, rfl, rfl⟩ := hv
  obtain rfl : id' = id := hid
  rfl

theorem not_inDataset_createDataset (h : t.Sound) (id : MemberId) :
    ¬ t.createDataset.InDataset t.datasets.length id := by
  intro hin
  obtain ⟨q, hq, hkey⟩ := List.mem_map.mp hin
  have hlt : q.datasetId < t.datasets.length := of_decide_eq_true (h.membershipRefs q hq).1
  exact absurd (Prod.mk.inj hkey).1 (Nat.ne_of_lt hlt)

theorem survives_createDataset {r : Row} : Survives t.createDataset r ↔ Survives t r :=
  ⟨fun h => { h with }, fun h => { h with }⟩

theorem survives_importMember {r : Row} (hr : r ∈ t.members) (hs : Survives t r)
    (hm : importMember t account r = some m) : Repeats t account m r := by
  obtain ⟨hvalues, huid, hhash⟩ := values_importMember hm
  exact ⟨hr, huid.symm, hvalues.trans (survives_iff.mp hs).1, hs.alone, by rw [huid, hhash]⟩

theorem exists_importMember (h : t.Sound) {r : Row} (hr : r ∈ t.members) (hs : Survives t r) :
    ∃ m, importMember t account r = some m := by
  unfold importMember
  rw [if_neg]
  · exact ⟨_, rfl⟩
  · rintro ⟨hnone, hclean⟩
    have hident := MemberStore.username_identity (h.identified r hr) hnone
    rw [← hs.username, hclean] at hident
    have hsome := h.identified r hr
    rw [hident] at hsome
    exact absurd hsome (by simp)

/-- **A round trip on sound tables**: the import succeeds, and it is a round trip exactly when every
row of the dataset survives it. -/
theorem roundTrip_of_sound (h : t.Sound) {a : AccountId} (ha : t.accounts a) (d : DatasetId)
    (label : String) :
    ∃ new t', importDataset t (some a) label (exportDataset t (some a) d) = .ok (new, t') ∧
      (RoundTrip t (some a) d new t' ↔ ∀ r ∈ datasetRows t d, Survives t r) := by
  let b : IngestInto :=
    { datasetId := t.datasets.length, accountId := some a, sourceLabel := some label }
  let ms := (datasetRows t d).filterMap (importMember t (some a))
  have h₀ := h.createDataset
  have hrefers : ∀ m ∈ ms, b.Refers t.createDataset m := by
    refine fun m _ _ => ⟨decide_eq_true ?_, rfl, fun p hp => ?_⟩
    · simp [MemberTables.createDataset, b]
    · unfold ingestRecord at hp
      split at hp
      · rename_i acc _ _ hacc _ _
        obtain rfl := Option.some.inj hp
        obtain rfl := Option.some.inj hacc
        exact ha
      · exact absurd hp (by simp)
  obtain ⟨⟨summary, t'⟩, hrun⟩ := (h₀.submitIngestBatch_committed_iff ms).mpr hrefers
  obtain ⟨t₁, h₁, hturns, rfl⟩ := h₀.submitIngestBatch_ok hrun
  refine ⟨t.datasets.length, t₁.setMemberCount b.datasetId (t₁.countMembers b.datasetId), ?_, ?_⟩
  · rw [importDataset, filterMap_importRow_exportDataset, hrun]
    rfl
  have hfresh := not_inDataset_createDataset h
  constructor
  · intro hround r hr
    have hkept : Kept b t.createDataset (some a) d t₁ := by
      refine ⟨h₀, h₁, hturns, hfresh, fun r hr => ?_, fun r hr => ?_⟩
      · obtain ⟨r', hr', hid, hv⟩ := hround.stored r hr
        exact row_eq_of_rowValues hid hv ▸ hr'
      · have hmem : r.id ∈ (datasetRows (t₁.setMemberCount b.datasetId
            (t₁.countMembers b.datasetId)) t.datasets.length).map Row.id := by
          rw [hround.members]
          exact List.mem_map.mpr ⟨r, hr, rfl⟩
        obtain ⟨q, hq, hid⟩ := List.mem_map.mp hmem
        exact hid ▸ (mem_datasetRows.mp hq).2
    exact survives_createDataset.mp (hkept.survives hr)
  · intro hsurvive
    have hall : ∀ r ∈ datasetRows t d, Survives t.createDataset r :=
      fun r hr => survives_createDataset.mpr (hsurvive r hr)
    have hms : ∀ m ∈ ms, ∃ r, Repeats t.createDataset b.accountId m r := by
      intro m hm
      obtain ⟨r, hr, hrm⟩ := mem_importMembers.mp hm
      exact ⟨r, survives_importMember (mem_datasetRows.mp hr).1 (hall r hr) hrm⟩
    obtain ⟨hmembers, hhash, hin⟩ := repeats_of_turns hturns h₀ hms
    have hrows : datasetRows (t₁.setMemberCount b.datasetId (t₁.countMembers b.datasetId))
        t.datasets.length = datasetRows t d := by
      show t₁.members.filter (fun r => r.id ∈ t₁.memberIds t.datasets.length) =
        t.members.filter fun r => r.id ∈ t.memberIds d
      rw [hmembers]
      refine List.filter_congr fun r hr => ?_
      rw [decide_eq_decide, MemberTables.mem_memberIds, MemberTables.mem_memberIds]
      constructor
      · intro hnew
        rcases (hin r.id).mp hnew with hold | ⟨m, hm, p, hp, hid⟩
        · exact absurd hold (hfresh r.id)
        · obtain ⟨q, hq, hqm⟩ := mem_importMembers.mp hm
          have hrep : Repeats t.createDataset (some a) m q :=
            survives_importMember (mem_datasetRows.mp hq).1 (hall q hq) hqm
          rw [← hid, ← hrep.unique h₀ hp]
          exact (mem_datasetRows.mp hq).2
      · intro hold
        have hr' : r ∈ datasetRows t d := mem_datasetRows.mpr ⟨hr, hold⟩
        obtain ⟨m, hm⟩ : ∃ m, importMember t.createDataset (some a) r = some m :=
          exists_importMember h₀ hr (hall r hr')
        exact (hin r.id).mpr (Or.inr ⟨m, mem_importMembers.mpr ⟨r, hr', hm⟩, r,
          survives_importMember hr (hall r hr') hm, rfl⟩)
    have hvalues : ∀ r, rowValues (t₁.setMemberCount b.datasetId (t₁.countMembers b.datasetId))
        (some a) r = rowValues t (some a) r := by
      intro r
      have hsame := hhash (some a) r.telegramUserId
      unfold rowValues
      exact congrArg (fun hash => ExportValues.mk _ hash _ _ _ _ _ _ _ _) hsame
    refine ⟨by rw [hrows], ?_, fun r hr => ⟨r, ?_, rfl, hvalues r⟩⟩
    · rw [hrows]
      exact List.map_congr_left fun r _ => hvalues r
    · show r ∈ t₁.members
      rw [hmembers]
      exact hr

/-- **The round trip** in every state of the store: for every dataset and every account, exporting
the dataset and importing the file under the account succeeds, and brings the same members back
and leaves what was stored if and only if every row of the dataset survives. -/
theorem round_trip_iff {pyLower : String → String} {ls : List StoreLabel} {s : MemberStore}
    (hrun : runLabels (MemberStore.step pyLower) MemberStore.start ls = some s) {a : AccountId}
    (ha : s.tables.accounts a) (d : DatasetId) (label : String) :
    ∃ new t', importDataset s.tables (some a) label (exportDataset s.tables (some a) d) =
        .ok (new, t') ∧
      (RoundTrip s.tables (some a) d new t' ↔ ∀ r ∈ datasetRows s.tables d, Survives s.tables r) :=
  roundTrip_of_sound (MemberStore.good_of_run MemberStore.good_start hrun).1.sound ha d label

/-- A dataset with one member. -/
def scanned (m : Members.Member) : List StoreLabel :=
  [.createAccount 1, .createDataset, .ingest { datasetId := 0, accountId := some 1 } [m]]

theorem round_trip_of_user :
    ∃ s, runLabels (MemberStore.step id) MemberStore.start
        (scanned { telegramUserId := some 5, accessHash := some 50 }) = some s ∧
      ∃ new t', importDataset s.tables (some 1) "members.csv"
        (exportDataset s.tables (some 1) 0) = .ok (new, t') ∧
        RoundTrip s.tables (some 1) 0 new t' := by
  have hstate : (runLabels (MemberStore.step id) MemberStore.start
      (scanned { telegramUserId := some 5, accessHash := some 50 })).map
      (fun s => (s.tables.accounts 1, datasetRows s.tables 0)) =
      some (true, [⟨{}, 1, some 5⟩]) := by decide +kernel
  obtain ⟨s, hs, hpair⟩ := Option.map_eq_some_iff.mp hstate
  obtain ⟨haccount, hrows⟩ := Prod.mk.inj hpair
  obtain ⟨new, t', hok, hiff⟩ := round_trip_iff hs haccount 0 "members.csv"
  refine ⟨s, hs, new, t', hok, hiff.mpr fun r hr => ?_⟩
  rw [hrows, List.mem_singleton] at hr
  subst hr
  exact ⟨rfl, rfl, rfl, rfl, by decide, by decide, by decide, rfl,
    fun _ u hu => absurd hu (by simp)⟩

/-- The flag of a bot is lost, and not only in the new dataset. -/
theorem bot_flag_lost :
    ∃ s, runLabels (MemberStore.step id) MemberStore.start
        (scanned { telegramUserId := some 5, accessHash := some 50, bot := true }) = some s ∧
      ∃ new t', importDataset s.tables (some 1) "members.csv"
        (exportDataset s.tables (some 1) 0) = .ok (new, t') ∧
        ¬ RoundTrip s.tables (some 1) 0 new t' := by
  have hstate : (runLabels (MemberStore.step id) MemberStore.start
      (scanned { telegramUserId := some 5, accessHash := some 50, bot := true })).map
      (fun s => (s.tables.accounts 1, datasetRows s.tables 0)) =
      some (true, [⟨{ bot := true }, 1, some 5⟩]) := by decide +kernel
  obtain ⟨s, hs, hpair⟩ := Option.map_eq_some_iff.mp hstate
  obtain ⟨haccount, hrows⟩ := Prod.mk.inj hpair
  obtain ⟨new, t', hok, hiff⟩ := roundTrip_of_sound
    (MemberStore.good_of_run MemberStore.good_start hs).1.sound haccount 0 "members.csv"
  refine ⟨s, hs, new, t', hok, fun hround => ?_⟩
  have hbot := (hiff.mp hround _ (by rw [hrows]; exact List.mem_singleton.mpr rfl)).bot
  exact absurd hbot (by decide)

end ImportExport
end MigrationStudio
