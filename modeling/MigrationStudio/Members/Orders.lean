import MigrationStudio.Foundations.Renaming
import MigrationStudio.Members.People

/-!
# The members of a list in any order

What an ingest does to identities is simple: a member with a Telegram id and a username renames the
username to the id, wherever it stands for a row, and then its own row has its identity.

* `identityOf`, `event`: the identity of a member, and what it does to the others.
* `ingestTraced`, `ingestInOrder`: `submit_ingest_batch`, with a trace of the row that each input
  is in.
* `Labelled`: things kept with rows, under the identities of the rows: the rows themselves, the
  datasets that they are in, and the inputs.
* `Upsert.labelled`, `Sound.traced`: a turn is its event, and the loop its events.
-/

namespace MigrationStudio
namespace Members

open Foundations MigrationStudio.Core Telegram

/-- What a row is identified by. -/
abbrev Identity := ℤ ⊕ String

/-- The identity of a member; one without Telegram id and username is invalid. -/
def identityOf (m : Member) : Option Identity :=
  match m.telegramUserId with
  | some x => some (.inl x)
  | none => (MemberTables.values m).username.map fun u => .inr (lower u)

/-- What the identity of a row is after the upsert of a member. -/
def renames (m : Member) : Identity → Identity
  | .inl x => .inl x
  | .inr k =>
      match m.telegramUserId with
      | some x => if Names m k then .inl x else .inr k
      | none => .inr k

/-- The upsert of a member, as far as identities go. -/
def event (m : Member) : Renaming Identity where
  rename := renames m
  label := identityOf m

namespace MemberTables

variable {t t' : MemberTables} {m : Member} {b : IngestInto} {id : MemberId}

/-! ## One upsert -/

theorem mergedId_of_new
    (hnew : ∀ uid, m.telegramUserId = some uid → t.byTelegramId uid = none) (id : MemberId) :
    t.mergedId m id = id := by
  have hnone : m.telegramUserId.bind t.byTelegramId = none := by
    cases huid : m.telegramUserId with
    | none => rfl
    | some uid => exact hnew uid huid
  simp [mergedId, hnone]

theorem mergedId_of_free (hfree : ∀ u, (values m).username = some u → t.fallbackRow u = none)
    (id : MemberId) : t.mergedId m id = id := by
  have hnone : (values m).username.bind t.fallbackRow = none := by
    cases hu : (values m).username with
    | none => rfl
    | some u => exact hfree u hu
  unfold mergedId
  rw [hnone]
  split
  · rename_i heq
    exact absurd heq (by simp)
  · rfl

/-- A row after an upsert is that of the member, or has been there, and no other row is it. -/
theorem Upsert.row_cases (hup : Upsert t m (some id) t') (h : t.Sound) {r : Row}
    (hr : r ∈ t'.members) : r.id = id ∨ (r ∈ t.members ∧ t.mergedId m r.id = r.id) := by
  cases hup with
  | known huid hc hcuid hfree =>
      rcases mem_setRow.mp hr with ⟨hr, -⟩ | ⟨rfl, -⟩
      · exact Or.inr ⟨hr, mergedId_of_free hfree _⟩
      · exact Or.inl rfl
  | merged huid hc hcuid hu hf =>
      obtain ⟨hr, hne⟩ := mem_absorb.mp hr
      rcases mem_setRow.mp hr with ⟨hr, -⟩ | ⟨rfl, -⟩
      · exact Or.inr ⟨hr, by simp [mergedId, huid, hu, hf, h.byTelegramId hc hcuid, hne]⟩
      · exact Or.inl rfl
  | named hnew hu hf =>
      rcases mem_setRow.mp hr with ⟨hr, -⟩ | ⟨rfl, -⟩
      · exact Or.inr ⟨hr, mergedId_of_new hnew _⟩
      · exact Or.inl rfl
  | added hnew hfree hsome =>
      rcases mem_addRow.mp hr with hr | rfl
      · exact Or.inr ⟨hr, mergedId_of_new hnew _⟩
      · exact Or.inl rfl

/-- **The row of the member** has its identity. -/
theorem Upsert.returned_identity (hup : Upsert t m (some id) t') (h : t.Sound) :
    ∃ r ∈ t'.members, r.id = id ∧ r.identity = identityOf m ∧ (identityOf m).isSome := by
  have hvalues : ∀ {u : String} {id : MemberId}, (values m).username = some u →
      Row.identity ⟨values m, id, m.telegramUserId⟩ = identityOf m ∧ (identityOf m).isSome := by
    intro u id hu
    unfold identityOf
    cases huid : m.telegramUserId with
    | some x => exact ⟨rfl, rfl⟩
    | none =>
        rw [identity_values hu, hu]
        exact ⟨rfl, rfl⟩
  have huid' : ∀ {x : ℤ}, m.telegramUserId = some x → identityOf m = some (.inl x) := by
    intro x hx
    unfold identityOf
    rw [hx]
  cases hup with
  | known huid hc hcuid hfree =>
      exact ⟨_, mem_setRow.mpr (Or.inr ⟨rfl, _, hc, rfl⟩), rfl, (huid' huid).symm,
        by rw [huid' huid]; rfl⟩
  | merged huid hc hcuid hu hf =>
      exact ⟨_, mem_absorb.mpr ⟨mem_setRow.mpr (Or.inr ⟨rfl, _, hc, rfl⟩),
        (h.fallback_ne hf hc hcuid).1.symm⟩, rfl, (huid' huid).symm, by rw [huid' huid]; rfl⟩
  | named hnew hu hf =>
      exact ⟨_, mem_setRow.mpr (Or.inr ⟨rfl, _, List.mem_of_find?_eq_some hf, rfl⟩), rfl,
        hvalues hu⟩
  | added hnew hfree hsome =>
      refine ⟨_, mem_addRow.mpr (Or.inr rfl), rfl, ?_⟩
      cases hu : (values m).username with
      | some u => exact hvalues hu
      | none =>
          rw [hu, Option.isSome_none, Bool.false_eq_true, or_false] at hsome
          obtain ⟨x, hx⟩ := Option.isSome_iff_exists.mp hsome
          rw [huid' hx, hx]
          exact ⟨rfl, rfl⟩

/-- **Every other row** goes to the row with its identity renamed. -/
theorem Upsert.moves_identity {i : Option MemberId} (hup : Upsert t m i t') (h : t.Sound)
    {r : Row} {k : Identity} (hr : r ∈ t.members) (hk : r.identity = some k) :
    ∃ r' ∈ t'.members, r'.id = t.mergedId m r.id ∧ r'.identity = some (renames m k) := by
  cases k with
  | inl x =>
      obtain ⟨⟨r', hr', hid, hx⟩, hself⟩ := hup.keeps_telegram h hr (Row.identity_eq_inl.mp hk)
      exact ⟨r', hr', by rw [hid, hself], Row.identity_of_some hx⟩
  | inr k =>
      by_cases hclaim : Names m k ∧ m.telegramUserId.isSome
      · obtain ⟨hn, hsome⟩ := hclaim
        obtain ⟨x, hx⟩ := Option.isSome_iff_exists.mp hsome
        obtain ⟨r', hr', hx', hid, -⟩ := hup.claims h hr hk hn hx
        refine ⟨r', hr', hid.symm, ?_⟩
        simp only [renames, hx, if_pos hn]
        exact Row.identity_of_some hx'
      · have hfree : Names m k → m.telegramUserId = none := by
          intro hn
          cases hx : m.telegramUserId with
          | none => rfl
          | some x => exact absurd ⟨hn, by rw [hx]; rfl⟩ hclaim
        obtain ⟨⟨r', hr', hid, hident⟩, hself⟩ := hup.keeps_fallback h hr hk hfree
        refine ⟨r', hr', by rw [hid, hself], ?_⟩
        rw [hident]
        unfold renames
        cases hx : m.telegramUserId with
        | none => rfl
        | some x =>
            have hnot : ¬ Names m k := fun hn => by simp [hfree hn] at hx
            simp only [if_neg hnot]

/-! ## Things kept with rows -/

variable {ζ : Type*}

/-- The things that a relation keeps with rows, under the identities of the rows. -/
def Labelled (t : MemberTables) (R : ζ → MemberId → Prop) : Set (ζ × Identity) :=
  {p | ∃ r ∈ t.members, R p.1 r.id ∧ r.identity = some p.2}

/-- **An upsert is its event** for things that go with their rows, and one that is put to the row of
the member. -/
theorem Upsert.labelled (hup : Upsert t m (some id) t') (h : t.Sound) {z : ζ}
    {R S : ζ → MemberId → Prop}
    (hR : ∀ z', ∀ r' ∈ t'.members, S z' r'.id ↔
      (∃ r ∈ t.members, R z' r.id ∧ t.mergedId m r.id = r'.id) ∨ (z' = z ∧ r'.id = id)) :
    Labelled t' S = (event m).apply z (Labelled t R) := by
  have h' := h.upsert hup
  obtain ⟨own, hown, hownid, hident, -⟩ := hup.returned_identity h
  ext ⟨z', k⟩
  rw [Renaming.mem_apply]
  constructor
  · rintro ⟨r', hr', hz, hk⟩
    rcases (hR z' r' hr').mp hz with ⟨r, hr, hzr, hid⟩ | ⟨rfl, hid⟩
    · obtain ⟨k₀, hk₀⟩ := Option.isSome_iff_exists.mp (h.identified r hr)
      obtain ⟨r'', hr'', hid'', hk''⟩ := hup.moves_identity h hr hk₀
      obtain rfl := h'.row_unique hr'' hr' (hid''.trans hid)
      refine Or.inr ⟨k₀, ⟨r, hr, hzr, hk₀⟩, ?_⟩
      exact Option.some.inj (hk''.symm.trans hk)
    · obtain rfl := h'.row_unique hown hr' (hownid.trans hid.symm)
      exact Or.inl ⟨rfl, hident.symm.trans hk⟩
  · rintro (⟨rfl, hk⟩ | ⟨k₀, ⟨r, hr, hz, hk₀⟩, rfl⟩)
    · exact ⟨own, hown, (hR _ own hown).mpr (Or.inr ⟨rfl, hownid⟩), hident.trans hk⟩
    · obtain ⟨r', hr', hid', hk'⟩ := hup.moves_identity h hr hk₀
      exact ⟨r', hr', (hR _ r' hr').mpr (Or.inl ⟨r, hr, hz, hid'.symm⟩), hk'⟩

/-- A member without identity is no event. -/
theorem apply_event_of_invalid (hnone : identityOf m = none) (z : ζ) (S : Set (ζ × Identity)) :
    (event m).apply z S = S := by
  have huid : m.telegramUserId = none := by
    unfold identityOf at hnone
    cases hx : m.telegramUserId with
    | none => rfl
    | some x => simp [hx] at hnone
  have hrename : ∀ k, (event m).rename k = k := by
    intro k
    cases k with
    | inl x => rfl
    | inr k =>
        show renames m (.inr k) = .inr k
        simp only [renames, huid]
  ext ⟨z', k⟩
  rw [Renaming.mem_apply]
  constructor
  · rintro (⟨-, hk⟩ | ⟨k₀, hS, rfl⟩)
    · exact absurd (hnone.symm.trans hk) (by simp)
    · rwa [hrename]
  · exact fun hS => Or.inr ⟨k, hS, hrename k⟩

/-! ## The loop with its trace -/

/-- The inputs of a batch, by their positions, with the rows that they are in. -/
abbrev Trace := List (ℕ × MemberId)

/-- One turn of the loop of `submit_ingest_batch`.  The inputs of a row that is taken over go with
it; the input of the turn is in the row that `_upsert_one` returns. -/
def ingestTraced (b : IngestInto) (s : Trace × MemberTables) (x : Member × ℕ) :
    Except IntegrityError (Trace × MemberTables) := do
  let (id, t) ← s.2.upsertOne x.1
  let trace := s.1.map fun p => (p.1, s.2.mergedId x.1 p.2)
  match id with
  | none => pure (trace, t)
  | some id =>
      let t' ← t.attach b id x.1
      pure (trace ++ [(x.2, id)], t')

/-- `submit_ingest_batch` for the inputs in some order. -/
def ingestInOrder (t : MemberTables) (b : IngestInto) (xs : List (Member × ℕ)) :
    Except IntegrityError (Trace × MemberTables) := do
  let (trace, t) ← xs.foldlM (ingestTraced b) ([], t)
  pure (trace, t.setMemberCount b.datasetId (t.countMembers b.datasetId))

/-- The loop is that of `submit_ingest_batch`. -/
theorem foldlM_ingestTraced (xs : List (Member × ℕ)) (trace : Trace) (s : IngestSummary)
    (t : MemberTables) :
    (xs.foldlM (ingestTraced b) (trace, t)).map Prod.snd =
      ((xs.map Prod.fst).foldlM (ingestOne b) (s, t)).map Prod.snd := by
  induction xs generalizing trace s t with
  | nil => rfl
  | cons x xs ih =>
      rw [List.map_cons, List.foldlM_cons, List.foldlM_cons]
      simp only [ingestTraced, ingestOne]
      cases t.upsertOne x.1 with
      | error e => rfl
      | ok p =>
          obtain ⟨i, t₁⟩ := p
          cases i with
          | none => exact ih _ _ _
          | some id =>
              simp only [bind, Except.bind]
              cases t₁.attach b id x.1 with
              | error e => rfl
              | ok t₂ => exact ih _ _ _

theorem ingestInOrder_submit (t : MemberTables) (xs : List (Member × ℕ)) :
    (t.ingestInOrder b xs).map Prod.snd =
      (t.submitIngestBatch b (xs.map Prod.fst)).map Prod.snd := by
  have hloop := @foldlM_ingestTraced b xs [] {} t
  unfold ingestInOrder submitIngestBatch
  simp only [bind, Except.bind]
  cases htraced : xs.foldlM (ingestTraced b) ([], t) with
  | error e =>
      cases hone : (xs.map Prod.fst).foldlM (ingestOne b) ({}, t) with
      | error e' =>
          rw [htraced, hone] at hloop
          exact congrArg Except.error (Except.error.inj hloop)
      | ok q =>
          rw [htraced, hone] at hloop
          exact absurd hloop (by simp [Except.map])
  | ok p =>
      cases hone : (xs.map Prod.fst).foldlM (ingestOne b) ({}, t) with
      | error e' =>
          rw [htraced, hone] at hloop
          exact absurd hloop (by simp [Except.map])
      | ok q =>
          rw [htraced, hone] at hloop
          have hsame : p.2 = q.2 := Except.ok.inj hloop
          show Except.ok (p.2.setMemberCount _ _) = Except.ok (q.2.setMemberCount _ _)
          rw [hsame]

/-- The rows themselves. -/
def rowThere (_ : Unit) (_ : MemberId) : Prop := True

/-- The inputs that are in a row. -/
def inputIn (trace : Trace) (i : ℕ) (id : MemberId) : Prop := (i, id) ∈ trace

/-- The events of the inputs, for things that each input brings. -/
def eventsOf (bring : ℕ → ζ) (xs : List (Member × ℕ)) : List (ζ × Renaming Identity) :=
  xs.map fun x => (bring x.2, event x.1)

theorem eventsOf_append (bring : ℕ → ζ) (xs ys : List (Member × ℕ)) :
    eventsOf bring (xs ++ ys) = eventsOf bring xs ++ eventsOf bring ys := List.map_append

/-- What the loop has done to identities. -/
structure Traced (b : IngestInto) (xs : List (Member × ℕ)) (trace : Trace) (t : MemberTables)
    (trace' : Trace) (t' : MemberTables) : Prop where
  sound : t'.Sound
  there : ∀ p ∈ trace', t'.hasMember p.2 = true
  rows : Labelled t' rowThere = Renaming.applyAll (eventsOf (fun _ => ()) xs) (Labelled t rowThere)
  datasets : Labelled t' t'.InDataset =
    Renaming.applyAll (eventsOf (fun _ => b.datasetId) xs) (Labelled t t.InDataset)
  inputs : Labelled t' (inputIn trace') =
    Renaming.applyAll (eventsOf (fun i => i) xs) (Labelled t (inputIn trace))

theorem traced_nil (h : t.Sound) {trace : Trace} (hthere : ∀ p ∈ trace, t.hasMember p.2 = true) :
    Traced b [] trace t trace t := ⟨h, hthere, rfl, rfl, rfl⟩

/-- **One turn** is the event of its input. -/
theorem Upsert.traced (hup : Upsert t m (some id) t') (h : t.Sound)
    (hsound : (t'.attached b id m).Sound) {trace : Trace}
    (hthere : ∀ p ∈ trace, t.hasMember p.2 = true) (i : ℕ) :
    Traced b [(m, i)] trace t ((trace.map fun p => (p.1, t.mergedId m p.2)) ++ [(i, id)])
      (t'.attached b id m) where
  sound := hsound
  there := by
    intro p hp
    rcases List.mem_append.mp hp with hp | hp
    · obtain ⟨q, hq, rfl⟩ := List.mem_map.mp hp
      obtain ⟨r, hr, hid⟩ := hasMember_iff.mp (hthere q hq)
      obtain ⟨k, hk⟩ := Option.isSome_iff_exists.mp (h.identified r hr)
      obtain ⟨r', hr', hid', -⟩ := hup.moves_identity h hr hk
      exact hasMember_iff.mpr ⟨r', hr', by rw [hid', hid]⟩
    · rw [List.mem_singleton.mp hp]
      exact (hup.returned h).1 id rfl
  rows := by
    refine hup.labelled h (R := rowThere) (S := rowThere) fun z' r' hr' => ?_
    refine iff_of_true trivial ?_
    rcases hup.row_cases h hr' with hid | ⟨hr, hself⟩
    · exact Or.inr ⟨rfl, hid⟩
    · exact Or.inl ⟨r', hr, trivial, hself⟩
  datasets := by
    refine hup.labelled h (R := t.InDataset) (S := (t'.attached b id m).InDataset)
      fun d r' hr' => ?_
    rw [inDataset_attached, hup.inDataset h]
    refine or_congr_left ?_
    constructor
    · rintro ⟨id₀, hin, hmoved⟩
      obtain ⟨r, hr, rfl⟩ := h.mem_of_inDataset hin
      exact ⟨r, hr, hin, hmoved⟩
    · rintro ⟨r, -, hin, hmoved⟩
      exact ⟨r.id, hin, hmoved⟩
  inputs := by
    refine hup.labelled h (R := inputIn trace)
      (S := inputIn ((trace.map fun p => (p.1, t.mergedId m p.2)) ++ [(i, id)]))
      fun z' r' hr' => ?_
    unfold inputIn
    rw [List.mem_append, List.mem_map, List.mem_singleton, Prod.mk.injEq]
    refine or_congr_left ?_
    constructor
    · rintro ⟨⟨j, id₀⟩, hp, heq⟩
      obtain ⟨rfl, hmoved⟩ := Prod.mk.inj heq
      obtain ⟨r, hr, hid⟩ := hasMember_iff.mp (hthere _ hp)
      obtain rfl : r.id = id₀ := hid
      exact ⟨r, hr, hp, hmoved⟩
    · rintro ⟨r, -, hp, hmoved⟩
      exact ⟨(z', r.id), hp, by rw [hmoved]⟩

theorem Traced.trans {xs ys : List (Member × ℕ)} {trace trace' trace'' : Trace}
    {t'' : MemberTables} (hx : Traced b xs trace t trace' t')
    (hy : Traced b ys trace' t' trace'' t'') : Traced b (xs ++ ys) trace t trace'' t'' where
  sound := hy.sound
  there := hy.there
  rows := by rw [hy.rows, hx.rows, eventsOf_append, Renaming.applyAll_append]
  datasets := by rw [hy.datasets, hx.datasets, eventsOf_append, Renaming.applyAll_append]
  inputs := by rw [hy.inputs, hx.inputs, eventsOf_append, Renaming.applyAll_append]

/-- A turn for an invalid member. -/
theorem traced_invalid (h : t.Sound) (hup : Upsert t m none t') {trace : Trace}
    (hthere : ∀ p ∈ trace, t.hasMember p.2 = true) (i : ℕ) :
    Traced b [(m, i)] trace t (trace.map fun p => (p.1, t.mergedId m p.2)) t' := by
  cases hup with
  | invalid hnone hu =>
      have hself : (trace.map fun p => (p.1, t.mergedId m p.2)) = trace := by
        refine (List.map_congr_left fun p _ => ?_).trans (List.map_id _)
        rw [mergedId_of_new (by simp [hnone])]
        rfl
      have hinvalid : identityOf m = none := by simp [identityOf, hnone, hu]
      rw [hself]
      refine ⟨h, hthere, ?_, ?_, ?_⟩
      · exact (apply_event_of_invalid hinvalid _ _).symm
      · exact (apply_event_of_invalid hinvalid _ _).symm
      · exact (apply_event_of_invalid hinvalid _ _).symm

/-- **The loop** is the events of its inputs. -/
theorem Sound.traced (h : t.Sound) {xs : List (Member × ℕ)} {trace trace' : Trace}
    (hthere : ∀ p ∈ trace, t.hasMember p.2 = true)
    (hrun : xs.foldlM (ingestTraced b) (trace, t) = .ok (trace', t')) :
    Traced b xs trace t trace' t' := by
  induction xs generalizing trace t with
  | nil =>
      obtain ⟨rfl, rfl⟩ := Prod.mk.inj (Except.ok.inj hrun)
      exact traced_nil h hthere
  | cons x xs ih =>
      obtain ⟨i, t₁, hone, hup⟩ := h.upsertOne_spec x.1
      have h₁ := h.upsert hup
      rw [List.foldlM_cons] at hrun
      simp only [ingestTraced, hone, bind, Except.bind] at hrun
      cases i with
      | none =>
          have hturn := traced_invalid (b := b) h hup hthere x.2
          exact hturn.trans (ih hturn.sound hturn.there hrun)
      | some id =>
          simp only at hrun
          cases hatt : t₁.attach b id x.1 with
          | error e => simp [hatt] at hrun
          | ok t₂ =>
              obtain ⟨h₂, rfl⟩ := h₁.attach hatt
              simp only [hatt] at hrun
              have hturn := hup.traced h h₂ hthere x.2
              exact hturn.trans (ih hturn.sound hturn.there hrun)

/-! ## Outcomes -/

/-- Two inputs are in one row. -/
def Together (trace : Trace) (i j : ℕ) : Prop := ∃ id, (i, id) ∈ trace ∧ (j, id) ∈ trace

/-- A dataset has a member of this identity. -/
def HasIdentity (t : MemberTables) (d : DatasetId) (k : Identity) : Prop :=
  ∃ r ∈ t.members, t.InDataset d r.id ∧ r.identity = some k

/-- Whoever is in a dataset stays there through an upsert, under the renamed identity. -/
theorem Upsert.hasIdentity {i : Option MemberId} (hup : Upsert t m i t') (h : t.Sound)
    {d : DatasetId} {k : Identity} (hk : t.HasIdentity d k) : t'.HasIdentity d (renames m k) := by
  obtain ⟨r, hr, hin, hident⟩ := hk
  obtain ⟨r', hr', hid, hident'⟩ := hup.moves_identity h hr hident
  refine ⟨r', hr', ?_, hident'⟩
  rw [hid]
  exact (hup.inDataset h).mpr ⟨r.id, hin, rfl⟩

theorem HasIdentity.attached {d : DatasetId} {k : Identity} (hk : t.HasIdentity d k)
    (id : MemberId) (m : Member) : (t.attached b id m).HasIdentity d k := by
  obtain ⟨r, hr, hin, hident⟩ := hk
  exact ⟨r, hr, inDataset_attached.mpr (Or.inl hin), hident⟩

/-- **A batch** keeps everybody in every dataset, under the identity that its members make of the
old one. -/
theorem Turns.hasIdentity {ms : List Member} (hturns : Turns b t ms t') (h : t.Sound)
    {d : DatasetId} {k : Identity} (hk : t.HasIdentity d k) :
    t'.HasIdentity d (ms.foldl (fun k m => renames m k) k) := by
  induction hturns generalizing k with
  | nil t => exact hk
  | skipped hup _ ih => exact ih (h.upsert hup) (hup.hasIdentity h hk)
  | taken hup hsound _ ih => exact ih hsound ((hup.hasIdentity h hk).attached _ _)

/-- Two outcomes with the same identities: as many rows, the inputs grouped alike, and the same
people in the datasets. -/
structure SameIdentities (trace : Trace) (t : MemberTables) (trace' : Trace) (t' : MemberTables) :
    Prop where
  count : t.members.length = t'.members.length
  grouping : ∀ i j, Together trace i j ↔ Together trace' i j
  datasets : ∀ d k, t.HasIdentity d k ↔ t'.HasIdentity d k

theorem length_eq_of_labelled (h : t.Sound) (h' : t'.Sound)
    (hrows : Labelled t rowThere = Labelled t' rowThere) :
    t.members.length = t'.members.length := by
  have hmem : ∀ {u u' : MemberTables}, u.Sound → Labelled u rowThere = Labelled u' rowThere →
      ∀ o ∈ u.members.map Row.identity, o ∈ u'.members.map Row.identity := by
    intro u u' hu heq o ho
    obtain ⟨r, hr, rfl⟩ := List.mem_map.mp ho
    obtain ⟨k, hk⟩ := Option.isSome_iff_exists.mp (hu.identified r hr)
    have hin : ((), k) ∈ Labelled u' rowThere := heq ▸ ⟨r, hr, trivial, hk⟩
    obtain ⟨r', hr', -, hk'⟩ := hin
    exact List.mem_map.mpr ⟨r', hr', hk'.trans hk.symm⟩
  have hperm := (List.perm_ext_iff_of_nodup h.identities h'.identities).mpr
    fun o => ⟨hmem h hrows o, hmem h' hrows.symm o⟩
  simpa using hperm.length_eq

theorem together_iff (h : t.Sound) {trace : Trace} (hthere : ∀ p ∈ trace, t.hasMember p.2 = true)
    {i j : ℕ} : Together trace i j ↔
      ∃ k, (i, k) ∈ Labelled t (inputIn trace) ∧ (j, k) ∈ Labelled t (inputIn trace) := by
  constructor
  · rintro ⟨id, hi, hj⟩
    obtain ⟨r, hr, hid⟩ := hasMember_iff.mp (hthere _ hi)
    obtain rfl : r.id = id := hid
    obtain ⟨k, hk⟩ := Option.isSome_iff_exists.mp (h.identified r hr)
    exact ⟨k, ⟨r, hr, hi, hk⟩, ⟨r, hr, hj, hk⟩⟩
  · rintro ⟨k, ⟨r, hr, hi, hk⟩, ⟨r', hr', hj, hk'⟩⟩
    obtain rfl := h.identity_unique hr hr' (hk.trans hk'.symm)
    exact ⟨r.id, hi, hj⟩

/-- **Equal sets of things under identities** are the same identities. -/
theorem Traced.sameIdentities {xs ys : List (Member × ℕ)} {u u' : MemberTables}
    {trace trace' : Trace} (hx : Traced b xs [] t trace u) (hy : Traced b ys [] t trace' u')
    (hevents : ∀ {ζ : Type} (bring : ℕ → ζ) (S : Set (ζ × Identity)),
      Renaming.applyAll (eventsOf bring xs) S = Renaming.applyAll (eventsOf bring ys) S) :
    SameIdentities trace u trace' u' where
  count := by
    refine length_eq_of_labelled hx.sound hy.sound ?_
    rw [hx.rows, hy.rows, hevents]
  grouping := by
    intro i j
    rw [together_iff hx.sound hx.there, together_iff hy.sound hy.there, hx.inputs, hy.inputs,
      hevents]
  datasets := by
    intro d k
    show (d, k) ∈ Labelled u u.InDataset ↔ (d, k) ∈ Labelled u' u'.InDataset
    rw [hx.datasets, hy.datasets, hevents]

/-! ## Lists that may be exchanged -/

/-- Each username goes with at most one Telegram id. -/
def OneIdPerName (ms : List Member) : Prop :=
  ∀ m ∈ ms, ∀ m' ∈ ms, ∀ k, Names m k → Names m' k → m.telegramUserId.isSome →
    m'.telegramUserId.isSome → m.telegramUserId = m'.telegramUserId

/-- A member without Telegram id has the username of one with it. -/
def Mixes (ms : List Member) : Prop :=
  ∃ m ∈ ms, ∃ m' ∈ ms, ∃ k, Names m k ∧ Names m' k ∧ m.telegramUserId = none ∧
    m'.telegramUserId.isSome

theorem renames_claimed {k : String} {x : ℤ} (hx : m.telegramUserId = some x) (hn : Names m k) :
    renames m (.inr k) = .inl x := by
  simp only [renames, hx, if_pos hn]

theorem renames_unclaimed {k : String} (h : ¬ (Names m k ∧ m.telegramUserId.isSome)) :
    renames m (.inr k) = .inr k := by
  unfold renames
  cases hx : m.telegramUserId with
  | none => rfl
  | some x =>
      have hnot : ¬ Names m k := fun hn => h ⟨hn, by rw [hx]; rfl⟩
      simp only [if_neg hnot]

theorem identityOf_eq_inr {k : String} (h : identityOf m = some (.inr k)) :
    m.telegramUserId = none ∧ Names m k := by
  unfold identityOf at h
  cases hx : m.telegramUserId with
  | some x => simp [hx] at h
  | none =>
      simp only [hx, Option.map_eq_some_iff, Sum.inr.injEq] at h
      obtain ⟨u, hu, hk⟩ := h
      exact ⟨rfl, by rw [Names, hu, Option.map_some, hk]⟩

/-- Two members of a list whose usernames are used alike. -/
theorem commutes_event {ms : List Member} (hone : OneIdPerName ms) (hmix : ¬ Mixes ms)
    {m m' : Member} (hm : m ∈ ms) (hm' : m' ∈ ms) : (event m).Commutes (event m') := by
  have hlabel : ∀ {q q' : Member}, q ∈ ms → q' ∈ ms → ∀ k, identityOf q = some k →
      renames q' k = k := by
    intro q q' hq hq' k hk
    cases k with
    | inl x => rfl
    | inr k =>
        obtain ⟨hnone, hn⟩ := identityOf_eq_inr hk
        exact renames_unclaimed fun hc => hmix ⟨q, hq, q', hq', k, hn, hc.1, hnone, hc.2⟩
  refine ⟨fun k => ?_, hlabel hm hm', hlabel hm' hm⟩
  show renames m (renames m' k) = renames m' (renames m k)
  cases k with
  | inl x => rfl
  | inr k =>
      by_cases hc : Names m k ∧ m.telegramUserId.isSome
      · obtain ⟨x, hx⟩ := Option.isSome_iff_exists.mp hc.2
        rw [renames_claimed hx hc.1]
        by_cases hc' : Names m' k ∧ m'.telegramUserId.isSome
        · have hx' : m'.telegramUserId = some x :=
            (hone m' hm' m hm k hc'.1 hc.1 hc'.2 hc.2).trans hx
          rw [renames_claimed hx' hc'.1]
          rfl
        · rw [renames_unclaimed hc', renames_claimed hx hc.1]
          rfl
      · rw [renames_unclaimed hc]
        by_cases hc' : Names m' k ∧ m'.telegramUserId.isSome
        · obtain ⟨x, hx⟩ := Option.isSome_iff_exists.mp hc'.2
          rw [renames_claimed hx hc'.1]
          rfl
        · rw [renames_unclaimed hc', renames_unclaimed hc]

/-- **The events of a list in any order.** -/
theorem applyAll_eventsOf_perm {ms : List Member} (hone : OneIdPerName ms) (hmix : ¬ Mixes ms)
    {xs ys : List (Member × ℕ)} (hxs : xs.Perm ms.zipIdx) (hys : ys.Perm ms.zipIdx)
    (bring : ℕ → ζ) (S : Set (ζ × Identity)) :
    Renaming.applyAll (eventsOf bring xs) S = Renaming.applyAll (eventsOf bring ys) S := by
  refine Renaming.applyAll_perm ((hxs.trans hys.symm).map _) (fun p hp q hq => ?_) S
  obtain ⟨x, hx, rfl⟩ := List.mem_map.mp hp
  obtain ⟨y, hy, rfl⟩ := List.mem_map.mp hq
  exact commutes_event hone hmix (List.fst_mem_of_mem_zipIdx (hxs.subset hx))
    (List.fst_mem_of_mem_zipIdx (hxs.subset hy))

/-- The things of a list of events are those that it is about, and those from before. -/
theorem exists_of_mem_applyAll {l : List (ζ × Renaming Identity)} {S : Set (ζ × Identity)}
    {p : ζ × Identity} (h : p ∈ Renaming.applyAll l S) :
    p.1 ∈ l.map Prod.fst ∨ ∃ k, (p.1, k) ∈ S := by
  induction l generalizing S with
  | nil => exact Or.inr ⟨p.2, h⟩
  | cons q l ih =>
      rcases ih (S := q.2.apply q.1 S) h with hmem | ⟨k, hk⟩
      · exact Or.inl (List.mem_cons_of_mem _ hmem)
      · rcases Renaming.mem_apply.mp hk with ⟨heq, -⟩ | ⟨k₀, hk₀, -⟩
        · exact Or.inl (by rw [List.map_cons, List.mem_cons]; exact Or.inl heq)
        · exact Or.inr ⟨k₀, hk₀⟩

/-- **A username-only member after the one with its Telegram id** is in a row of its own. -/
theorem Traced.apart {rest : List (Member × ℕ)} {m m' : Member} {i j : ℕ} {k : String}
    {trace : Trace} {u : MemberTables}
    (ht : Traced b (rest ++ [(m', j), (m, i)]) [] t trace u)
    (hnodup : ((rest ++ [(m', j), (m, i)]).map Prod.snd).Nodup) (hn : Names m k)
    (hnone : m.telegramUserId = none) (hsome : m'.telegramUserId.isSome) :
    ¬ Together trace i j := by
  rw [List.map_append, List.nodup_append] at hnodup
  obtain ⟨-, hpair, hapart⟩ := hnodup
  have hji : j ≠ i := by simpa using hpair
  have hrest : ∀ p ∈ Renaming.applyAll (eventsOf (fun i => i) rest) (Labelled t (inputIn [])),
      p.1 ∈ rest.map Prod.snd := by
    intro p hp
    rcases exists_of_mem_applyAll hp with hmem | ⟨k, r, -, hmem, -⟩
    · rw [eventsOf, List.map_map] at hmem
      exact hmem
    · exact absurd hmem List.not_mem_nil
  have hnot : ∀ {z : ℕ}, z = i ∨ z = j → ∀ k₀,
      (z, k₀) ∉ Renaming.applyAll (eventsOf (fun i => i) rest) (Labelled t (inputIn [])) := by
    intro z hz k₀ hmem
    refine hapart z (hrest _ hmem) z ?_ rfl
    rcases hz with rfl | rfl
    · simp
    · simp
  obtain ⟨x, hx⟩ := Option.isSome_iff_exists.mp hsome
  have hm' : identityOf m' = some (.inl x) := by simp [identityOf, hx]
  rw [together_iff ht.sound ht.there, ht.inputs, eventsOf_append, Renaming.applyAll_append]
  rintro ⟨k', hi, hj⟩
  have hleft : k' = .inr k := by
    rcases Renaming.mem_apply.mp hi with ⟨-, hk'⟩ | ⟨k₀, hk₀, -⟩
    · obtain ⟨v, hv, hvk⟩ := Option.map_eq_some_iff.mp hn
      have hm : identityOf m = some (.inr (lower v)) := by simp [identityOf, hnone, hv]
      have heq : (.inr (lower v) : Identity) = k' := Option.some.inj (hm.symm.trans hk')
      rw [← heq, hvk]
    · rcases Renaming.mem_apply.mp hk₀ with ⟨heq, -⟩ | ⟨k₁, hk₁, -⟩
      · exact absurd heq.symm hji
      · exact absurd hk₁ (hnot (Or.inl rfl) k₁)
  have hright : k' = .inl x := by
    rcases Renaming.mem_apply.mp hj with ⟨heq, -⟩ | ⟨k₀, hk₀, rfl⟩
    · exact absurd heq hji
    · rcases Renaming.mem_apply.mp hk₀ with ⟨-, hk₀⟩ | ⟨k₁, hk₁, -⟩
      · have heq : (.inl x : Identity) = k₀ := Option.some.inj (hm'.symm.trans hk₀)
        rw [← heq]
        rfl
      · exact absurd hk₁ (hnot (Or.inr rfl) k₁)
  rw [hleft] at hright
  exact absurd hright (by simp)

end MemberTables
end Members
end MigrationStudio
