import MigrationStudio.Foundations.LabelledRuns
import MigrationStudio.Migration.Selection

/-!
# The members, the datasets and the plans over whole runs

The operations of the write lane that touch members, datasets and items, in any order.  An operation
that raises is rolled back.  A plan is two steps: the planner reads the rows and selects the items,
and later the items are inserted; anything may happen in between.

* `MemberStore.step`: one operation, or one selection.
* `Good`: the tables are sound and every selected member has a Telegram id; `good_of_run`.
* `upsert_one_safe`: `_upsert_one` never raises, identities stay unique, a Telegram id is never
  lost, and items refer to members with one.
* `ingest_keeps_people`: an ingest takes no person and no origin from a dataset.
* `counts_right_iff`: the runs in which `member_count` stays right.
-/

namespace MigrationStudio
namespace Storage

open Foundations MigrationStudio.Core Telegram Members Migration

/-- One row of `submit_add_items`: a row whose ordinal or whose member the job has already is
ignored. -/
def addItem (t : MemberTables) (i : ItemRef) : Except IntegrityError MemberTables :=
  if t.items.any fun q => q.jobId = i.jobId && (q.ordinal = i.ordinal || q.memberId = i.memberId)
  then .ok t
  else if t.hasMember i.memberId then .ok { t with items := t.items ++ [i] }
  else .error .foreignKey

/-- `submit_add_items`, for the rows of `migration_items`. -/
def addItemRefs (t : MemberTables) (job : JobId) (members : List MemberId) :
    Except IntegrityError MemberTables :=
  (members.zipIdx.map fun p => (⟨job, p.2, p.1⟩ : ItemRef)).foldlM addItem t

def createGroup (t : MemberTables) : MemberTables := { t with groups := t.groups + 1 }

def createAccount (t : MemberTables) (a : AccountId) : MemberTables :=
  { t with accounts := Function.update t.accounts a true }

/-- The peers of an account go with it. -/
def deleteAccount (t : MemberTables) (a : AccountId) : MemberTables :=
  { t with
    accounts := Function.update t.accounts a false
    peerCache := Function.update t.peerCache a fun _ => none }

/-- The tables, and the items that planners have selected and not yet inserted. -/
structure MemberStore where
  tables : MemberTables
  selections : List (List MemberId)

/-- An operation of the write lane, or a planner's selection. -/
inductive StoreLabel where
  | createDataset
  | createGroup
  | createAccount (account : AccountId)
  | deleteAccount (account : AccountId)
  | cachePeers (peers : List CachedPeer)
  | ingest (into : IngestInto) (members : List Members.Member)
  | combine (a b : DatasetId) (op : SetOperation)
  | selectInvite (account : AccountId) (dataset : DatasetId) (processed : List ℤ)
      (precheck : PrecheckResult) (spec : FilterSpec)
  | selectRemove (account : AccountId) (dataset : DatasetId) (precheck : PrecheckResult)
      (spec : FilterSpec)
  | addItems (job : JobId) (selection : ℕ)

/-- The tables after an operation, which is rolled back when it raises. -/
def committed (t : MemberTables) : Except IntegrityError MemberTables → MemberTables
  | .ok t' => t'
  | .error _ => t

namespace MemberStore

/-- The store after an operation. -/
def commit (s : MemberStore) (r : Except IntegrityError MemberTables) : MemberStore :=
  { s with tables := committed s.tables r }

/-- The store after a selection. -/
def select (s : MemberStore) (p : Selecting) : MemberStore :=
  { s with selections := s.selections ++ [p.items.map Prod.fst] }

/-- One step; `pyLower` is Python's `str.lower`. -/
def step (pyLower : String → String) (s : MemberStore) : StoreLabel → Option MemberStore
  | .createDataset => some (s.commit (.ok s.tables.createDataset))
  | .createGroup => some (s.commit (.ok (createGroup s.tables)))
  | .createAccount a => some (s.commit (.ok (createAccount s.tables a)))
  | .deleteAccount a => some (s.commit (.ok (deleteAccount s.tables a)))
  | .cachePeers peers => some (s.commit (peers.foldlM MemberTables.insertPeer s.tables))
  | .ingest into members =>
      some (s.commit ((s.tables.submitIngestBatch into members).map Prod.snd))
  | .combine a b op => some (s.commit ((s.tables.combine a b op).map Prod.snd))
  | .selectInvite account dataset processed precheck spec =>
      some (s.select (createPlan pyLower processed precheck spec
        (plannerRows s.tables account dataset)))
  | .selectRemove account dataset precheck spec =>
      (createRemovePlan pyLower precheck spec (plannerRows s.tables account dataset)).map s.select
  | .addItems job selection =>
      s.selections[selection]?.map fun members => s.commit (addItemRefs s.tables job members)

/-- The tables of an empty database. -/
def emptyTables : MemberTables where
  members := []
  sequence := 0
  datasets := []
  memberships := []
  provenance := []
  items := []
  groups := 0
  accounts := fun _ => false
  peerCache := fun _ _ => none

/-- The store over an empty database. -/
def start : MemberStore where
  tables := emptyTables
  selections := []

/-- The tables are sound, and what planners have selected has a Telegram id. -/
structure Good (s : MemberStore) : Prop where
  sound : s.tables.Sound
  selected : ∀ sel ∈ s.selections, ∀ id ∈ sel,
    ∃ r ∈ s.tables.members, r.id = id ∧ r.telegramUserId.isSome

/-! ## Every step keeps the store good -/

theorem sound_emptyTables : emptyTables.Sound where
  ids := List.Pairwise.nil
  sequence := fun r hr => absurd hr (by simp [emptyTables])
  identified := fun r hr => absurd hr (by simp [emptyTables])
  identities := List.nodup_nil
  memberships := List.nodup_nil
  provenance := List.nodup_nil
  membershipRefs := fun r hr => absurd hr (by simp [emptyTables])
  provenanceRefs := fun r hr => absurd hr (by simp [emptyTables])
  items := fun i hi => absurd hi (by simp [emptyTables])

theorem good_start : start.Good where
  sound := sound_emptyTables
  selected := fun sel hsel => absurd hsel (by simp [start])

/-- Every row with a Telegram id is there with its id in the other tables. -/
def KeepsTelegram (t t' : MemberTables) : Prop :=
  ∀ r ∈ t.members, ∀ x, r.telegramUserId = some x →
    ∃ r' ∈ t'.members, r'.id = r.id ∧ r'.telegramUserId = some x

theorem KeepsTelegram.of_eq {t t' : MemberTables} (h : t'.members = t.members) :
    KeepsTelegram t t' := fun r hr _ hx => ⟨r, h ▸ hr, rfl, hx⟩

theorem KeepsTelegram.trans {t t' t'' : MemberTables} (h : KeepsTelegram t t')
    (h' : KeepsTelegram t' t'') : KeepsTelegram t t'' := by
  intro r hr x hx
  obtain ⟨q, hq, hid, hqx⟩ := h r hr x hx
  obtain ⟨p, hp, hpid, hpx⟩ := h' q hq x hqx
  exact ⟨p, hp, hpid.trans hid, hpx⟩

theorem keepsTelegram_turns {into : IngestInto} {t t' : MemberTables}
    {ms : List Members.Member} (hturns : MemberTables.Turns into t ms t') (h : t.Sound) :
    KeepsTelegram t t' := by
  induction hturns with
  | nil t => exact KeepsTelegram.of_eq rfl
  | skipped hup _ ih =>
      exact KeepsTelegram.trans (fun r hr x hx => (hup.keeps_telegram h hr hx).1)
        (ih (h.upsert hup))
  | taken hup hsound _ ih =>
      exact KeepsTelegram.trans (fun r hr x hx => (hup.keeps_telegram h hr hx).1) (ih hsound)

/-- The insertion of a selection whose members have Telegram ids. -/
theorem sound_addItemRefs {t t' : MemberTables} (h : t.Sound) {items : List ItemRef}
    (hsel : ∀ i ∈ items, ∃ r ∈ t.members, r.id = i.memberId ∧ r.telegramUserId.isSome)
    (hrun : items.foldlM addItem t = .ok t') : t'.Sound ∧ t' = { t with items := t'.items } := by
  induction items generalizing t with
  | nil =>
      obtain rfl := Except.ok.inj hrun
      exact ⟨h, rfl⟩
  | cons i items ih =>
      have hrest : ∀ j ∈ items, ∃ r ∈ t.members, r.id = j.memberId ∧ r.telegramUserId.isSome :=
        fun j hj => hsel j (List.mem_cons_of_mem _ hj)
      rw [List.foldlM_cons] at hrun
      cases hone : addItem t i with
      | error e => simp [hone, bind, Except.bind] at hrun
      | ok t₁ =>
          simp only [hone, bind, Except.bind] at hrun
          have h₁ : t₁.Sound ∧ t₁ = { t with items := t₁.items } := by
            unfold addItem at hone
            split_ifs at hone
            · obtain rfl := Except.ok.inj hone
              exact ⟨h, rfl⟩
            · obtain rfl := Except.ok.inj hone
              refine ⟨{ h with items := fun j hj => ?_ }, rfl⟩
              rcases List.mem_append.mp hj with hj | hj
              · exact h.items j hj
              · rw [List.mem_singleton.mp hj]
                exact hsel i (List.mem_cons_self ..)
          obtain ⟨hsound, hsame⟩ := ih h₁.1 (by rw [h₁.2]; exact hrest) hrun
          refine ⟨hsound, hsame.trans ?_⟩
          rw [h₁.2]

theorem foldlM_insertPeer_ok {peers : List CachedPeer} {t t' : MemberTables}
    (hrun : peers.foldlM MemberTables.insertPeer t = .ok t') :
    t' = { t with peerCache := t'.peerCache } := by
  induction peers generalizing t with
  | nil =>
      obtain rfl := Except.ok.inj hrun
      rfl
  | cons p peers ih =>
      rw [List.foldlM_cons] at hrun
      cases hone : t.insertPeer p with
      | error e => simp [hone, bind, Except.bind] at hrun
      | ok t₁ =>
          simp only [hone, bind, Except.bind] at hrun
          have hrest := ih hrun
          unfold MemberTables.insertPeer at hone
          split_ifs at hone
          obtain rfl := Except.ok.inj hone
          exact hrest

/-- An operation that is committed or rolled back. -/
theorem committed_cases {t : MemberTables} (r : Except IntegrityError MemberTables) :
    committed t r = t ∨ r = .ok (committed t r) := by
  cases r with
  | ok t' => exact Or.inr rfl
  | error e => exact Or.inl rfl

theorem map_snd_ok {α : Type*} {r : Except IntegrityError (α × MemberTables)} {t : MemberTables}
    (h : r.map Prod.snd = .ok t) : ∃ a, r = .ok (a, t) := by
  cases r with
  | error e => exact absurd h (by simp [Except.map])
  | ok p => exact ⟨p.1, by rw [← Except.ok.inj h]⟩

theorem sound_createGroup {t : MemberTables} (h : t.Sound) : (createGroup t).Sound := by
  have hgroup : ∀ g, t.hasGroup g = true → (createGroup t).hasGroup g = true := by
    intro g hg
    unfold MemberTables.hasGroup at hg ⊢
    rw [Option.all_eq_true] at hg ⊢
    intro k hk
    exact decide_eq_true (Nat.lt_succ_of_lt (of_decide_eq_true (hg k hk)))
  refine { h with membershipRefs := fun r hr => ?_, provenanceRefs := fun r hr => ?_ }
  · obtain ⟨hd, hm, hg⟩ := h.membershipRefs r hr
    exact ⟨hd, hm, hgroup _ hg⟩
  · obtain ⟨hd, hm, hs, hg⟩ := h.provenanceRefs r hr
    exact ⟨hd, hm, hs, hgroup _ hg⟩

/-- What an operation that succeeds keeps, the store keeps. -/
theorem Good.commit {s : MemberStore} (h : s.Good) {r : Except IntegrityError MemberTables}
    (hr : ∀ t', r = .ok t' → t'.Sound ∧ KeepsTelegram s.tables t') :
    (s.commit r).Good ∧ KeepsTelegram s.tables (s.commit r).tables := by
  have hkeep : (committed s.tables r).Sound ∧ KeepsTelegram s.tables (committed s.tables r) := by
    rcases committed_cases (t := s.tables) r with heq | heq
    · rw [heq]
      exact ⟨h.sound, KeepsTelegram.of_eq rfl⟩
    · exact hr _ heq
  refine ⟨⟨hkeep.1, fun sel hsel id hid => ?_⟩, hkeep.2⟩
  obtain ⟨r, hr, hrid, hsome⟩ := h.selected sel hsel id hid
  obtain ⟨x, hx⟩ := Option.isSome_iff_exists.mp hsome
  obtain ⟨r', hr', hid', hx'⟩ := hkeep.2 r hr x hx
  exact ⟨r', hr', hid'.trans hrid, by rw [hx']; rfl⟩

theorem Good.select {s : MemberStore} (h : s.Good) {p : Selecting}
    (hp : ∀ id ∈ p.items.map Prod.fst,
      ∃ r ∈ s.tables.members, r.id = id ∧ r.telegramUserId.isSome) :
    (s.select p).Good ∧ KeepsTelegram s.tables (s.select p).tables := by
  refine ⟨⟨h.sound, fun sel hsel => ?_⟩, KeepsTelegram.of_eq rfl⟩
  rcases List.mem_append.mp hsel with hsel | hsel
  · exact h.selected sel hsel
  · rw [List.mem_singleton.mp hsel]
    exact hp

/-- The insertion of what a planner has selected. -/
theorem Good.addItemRefs {s : MemberStore} (h : s.Good) {job : JobId} {k : ℕ}
    {members : List MemberId} (hmembers : s.selections[k]? = some members) {t' : MemberTables}
    (hok : addItemRefs s.tables job members = .ok t') :
    t'.Sound ∧ t' = { s.tables with items := t'.items } := by
  refine sound_addItemRefs h.sound (fun i hi => ?_) hok
  obtain ⟨p, hp, rfl⟩ := List.mem_map.mp hi
  exact h.selected members (List.mem_of_getElem? hmembers) p.1 (List.fst_mem_of_mem_zipIdx hp)

/-- A step that ingests a batch. -/
theorem ingest_cases {pyLower : String → String} {s s' : MemberStore} {into : IngestInto}
    {ms : List Members.Member} (hstep : s.step pyLower (.ingest into ms) = some s') :
    s' = s ∨ ∃ summary, s.tables.submitIngestBatch into ms = .ok (summary, s'.tables) := by
  have heq : s' = s.commit ((s.tables.submitIngestBatch into ms).map Prod.snd) :=
    (Option.some.inj hstep).symm
  cases hrun : s.tables.submitIngestBatch into ms with
  | ok p =>
      rw [hrun] at heq
      exact Or.inr ⟨p.1, by rw [heq]; rfl⟩
  | error e =>
      rw [hrun] at heq
      exact Or.inl heq

/-- **One step** keeps the tables sound and every Telegram id. -/
theorem Good.step {pyLower : String → String} {s s' : MemberStore} {l : StoreLabel}
    (h : s.Good) (hstep : s.step pyLower l = some s') :
    s'.Good ∧ KeepsTelegram s.tables s'.tables := by
  have hsame : ∀ {t : MemberTables}, t.Sound → t.members = s.tables.members →
      (s.commit (.ok t)).Good ∧ KeepsTelegram s.tables (s.commit (.ok t)).tables := by
    intro t ht hmembers
    refine h.commit fun t' ht' => ?_
    obtain rfl := Except.ok.inj ht'
    exact ⟨ht, KeepsTelegram.of_eq hmembers⟩
  cases l with
  | createDataset =>
      obtain rfl := Option.some.inj hstep
      exact hsame h.sound.createDataset rfl
  | createGroup =>
      obtain rfl := Option.some.inj hstep
      exact hsame (sound_createGroup h.sound) rfl
  | createAccount a =>
      obtain rfl := Option.some.inj hstep
      exact hsame { h.sound with } rfl
  | deleteAccount a =>
      obtain rfl := Option.some.inj hstep
      exact hsame { h.sound with } rfl
  | cachePeers peers =>
      obtain rfl := Option.some.inj hstep
      refine h.commit fun t' ht' => ?_
      rw [foldlM_insertPeer_ok ht']
      exact ⟨{ h.sound with }, KeepsTelegram.of_eq rfl⟩
  | ingest into members =>
      obtain rfl := Option.some.inj hstep
      refine h.commit fun t' ht' => ?_
      obtain ⟨summary, hrun⟩ := map_snd_ok ht'
      obtain ⟨t₁, h₁, hturns, rfl⟩ := h.sound.submitIngestBatch_ok hrun
      have hkeep : KeepsTelegram s.tables t₁ := keepsTelegram_turns hturns h.sound
      exact ⟨h₁.setMemberCount _ _, hkeep⟩
  | combine a b op =>
      obtain rfl := Option.some.inj hstep
      refine h.commit fun t' ht' => ?_
      obtain ⟨new, hrun⟩ := map_snd_ok ht'
      obtain ⟨-, hsound, hmembers, -⟩ := h.sound.combine_ok hrun
      exact ⟨hsound, KeepsTelegram.of_eq hmembers⟩
  | selectInvite account dataset processed precheck spec =>
      obtain rfl := Option.some.inj hstep
      exact h.select fun id hid => mem_selectItems hid
  | selectRemove account dataset precheck spec =>
      obtain ⟨p, hp, rfl⟩ := Option.map_eq_some_iff.mp hstep
      unfold createRemovePlan at hp
      split_ifs at hp
      obtain rfl := Option.some.inj hp
      exact h.select fun id hid => mem_selectItems hid
  | addItems job selection =>
      obtain ⟨members, hmembers, rfl⟩ := Option.map_eq_some_iff.mp hstep
      refine h.commit fun t' ht' => ?_
      obtain ⟨hsound, hmem⟩ := h.addItemRefs hmembers ht'
      exact ⟨hsound, KeepsTelegram.of_eq (by rw [hmem])⟩

theorem good_of_run {pyLower : String → String} {s s' : MemberStore} {ls : List StoreLabel}
    (h : s.Good) (hrun : runLabels (step pyLower) s ls = some s') :
    s'.Good ∧ KeepsTelegram s.tables s'.tables := by
  induction ls generalizing s with
  | nil =>
      obtain rfl := Option.some.inj hrun
      exact ⟨h, KeepsTelegram.of_eq rfl⟩
  | cons l ls ih =>
      obtain ⟨t, ht, hrest⟩ := runLabels_cons_eq_some.mp hrun
      obtain ⟨hgood, hkeep⟩ := h.step ht
      obtain ⟨hgood', hkeep'⟩ := ih hgood hrest
      exact ⟨hgood', hkeep.trans hkeep'⟩

/-! ## Identities -/

theorem username_identity {r : Row} (hsome : r.identity.isSome) (hnone : r.telegramUserId = none) :
    r.identity = r.username.map fun u => .inr (lower u) := by
  obtain ⟨y, hy⟩ := Option.isSome_iff_exists.mp hsome
  cases y with
  | inl x =>
      rw [Row.identity_eq_inl, hnone] at hy
      exact absurd hy (by simp)
  | inr k =>
      have hk := Row.identity_eq_inr.mp hy
      unfold Row.fallbackKey at hk
      rw [hnone, Option.isSome_none, if_neg Bool.false_ne_true] at hk
      obtain ⟨v, hv, hvk⟩ := Option.map_eq_some_iff.mp hk
      obtain ⟨hv, -⟩ := Option.filter_eq_some_iff.mp hv
      rw [hy, hv, Option.map_some, hvk]

/-- **`_upsert_one` is safe** in every state that ingests, plans and the other operations lead to:
it raises for no member, and afterwards no two rows have one Telegram id and no two username-only
rows one lowercased username; a row with a Telegram id stays with it, here and in the rest of the
run; and every item refers to a row with a Telegram id. -/
theorem upsert_one_safe {pyLower : String → String} {ls : List StoreLabel} {s : MemberStore}
    (hrun : runLabels (step pyLower) start ls = some s) (m : Members.Member) :
    (∃ id t', s.tables.upsertOne m = .ok (id, t') ∧
      (∀ r ∈ t'.members, ∀ q ∈ t'.members, r.telegramUserId.isSome →
        r.telegramUserId = q.telegramUserId → r = q) ∧
      (∀ r ∈ t'.members, ∀ q ∈ t'.members, r.telegramUserId = none → q.telegramUserId = none →
        r.username.map lower = q.username.map lower → r = q) ∧
      KeepsTelegram s.tables t' ∧
      ∀ i ∈ t'.items, ∃ r ∈ t'.members, r.id = i.memberId ∧ r.telegramUserId.isSome) ∧
    (∀ i ∈ s.tables.items, ∃ r ∈ s.tables.members, r.id = i.memberId ∧ r.telegramUserId.isSome) ∧
    ∀ ls' s', runLabels (step pyLower) s ls' = some s' → KeepsTelegram s.tables s'.tables := by
  have hgood := (good_of_run good_start hrun).1
  refine ⟨?_, hgood.sound.items, fun ls' s' hrun' => (good_of_run hgood hrun').2⟩
  obtain ⟨id, t', hok, hup⟩ := hgood.sound.upsertOne_spec m
  have h' := hgood.sound.upsert hup
  refine ⟨id, t', hok, fun r hr q hq hsome heq => ?_, fun r hr q hq hrn hqn heq => ?_,
    fun r hr x hx => (hup.keeps_telegram hgood.sound hr hx).1, h'.items⟩
  · obtain ⟨x, hx⟩ := Option.isSome_iff_exists.mp hsome
    exact h'.identity_unique hr hq
      ((Row.identity_of_some hx).trans (Row.identity_of_some (heq ▸ hx)).symm)
  · refine h'.identity_unique hr hq ?_
    have hinr : ∀ o : Option String, (o.map fun u => (Sum.inr (lower u) : ℤ ⊕ String)) =
        (o.map lower).map Sum.inr := fun o => (Option.map_map ..).symm
    rw [username_identity (h'.identified r hr) hrn, username_identity (h'.identified q hq) hqn,
      hinr, hinr, heq]

/-- A scan of two members, one without Telegram id, and a plan for the other. -/
def scannedAndPlanned : List StoreLabel :=
  [.createAccount 1, .createDataset,
    .ingest { datasetId := 0, accountId := some 1 }
      [{ telegramUserId := some 5, accessHash := some 50 },
        { telegramUserId := none, username := some "@Alice" }],
    .selectInvite 1 0 [] ⟨∅, .complete⟩ {}, .addItems 0 0]

/-- The upsert that gives the planned member the username of the other. -/
theorem upsert_one_safe_planned :
    ∃ s, runLabels (step id) start scannedAndPlanned = some s ∧
      s.tables.items = [⟨0, 0, 1⟩] ∧
      ∃ i t', s.tables.upsertOne { telegramUserId := some 5, username := some "alice" } =
        .ok (i, t') ∧ KeepsTelegram s.tables t' := by
  have hitems : (runLabels (step id) start scannedAndPlanned).map
      (fun s => s.tables.items) = some [⟨0, 0, 1⟩] := by decide +kernel
  obtain ⟨s, hs, hsitems⟩ := Option.map_eq_some_iff.mp hitems
  obtain ⟨⟨i, t', hok, -, -, hkeep, -⟩, -⟩ :=
    upsert_one_safe hs { telegramUserId := some 5, username := some "alice" }
  exact ⟨s, hs, hsitems, i, t', hok, hkeep⟩

/-! ## What an ingest keeps -/

/-- The row of the member `id` is the row `id'` afterwards: it is still there, or it has been merged
into the row of the Telegram id that a member of the batch carries with its username. -/
def MergedInto (t t' : MemberTables) (ms : List Members.Member) (id id' : MemberId) : Prop :=
  (t'.hasMember id ∧ id' = id) ∨
    (t'.hasMember id = false ∧ ∃ r ∈ t.members, r.id = id ∧ r.telegramUserId = none ∧
      ∃ m ∈ ms, ∃ x, m.telegramUserId = some x ∧
        (MemberTables.values m).username.map lower = r.username.map lower ∧
        ∃ r' ∈ t'.members, r'.id = id' ∧ r'.telegramUserId = some x)

theorem mergedInto_settle {t t' : MemberTables} (h : t.Sound) (h' : t'.Sound)
    {ms : List Members.Member} (hs : MemberTables.Settled t ms t') {r : Row} (hr : r ∈ t.members) :
    MergedInto t t' ms r.id (t'.settle ms r) := by
  cases hc : r.claimed ms with
  | none =>
      obtain ⟨r', hr', hid, -⟩ := hs.unclaimed r hr hc
      exact Or.inl ⟨MemberTables.hasMember_iff.mpr ⟨r', hr', hid⟩,
        MemberTables.settle_of_unclaimed hc⟩
  | some x =>
      obtain ⟨r', hr', hx, hown, hgone⟩ := hs.claimed r hr x hc
      rw [h'.settle_of_claimed hr' hx hc]
      by_cases hid : r'.id = r.id
      · exact Or.inl ⟨MemberTables.hasMember_iff.mpr ⟨r', hr', hid⟩, hid⟩
      · have hnone : r.telegramUserId = none := by
          cases huid : r.telegramUserId with
          | none => rfl
          | some y =>
              rw [Row.claimed, Row.identity_of_some huid, Option.some.injEq] at hc
              exact absurd (hown (hc ▸ huid)) hid
        refine Or.inr ⟨hgone hid, r, hr, rfl, hnone, ?_⟩
        have hident := username_identity (h.identified r hr) hnone
        obtain ⟨y, hy⟩ := Option.isSome_iff_exists.mp (h.identified r hr)
        rw [hy] at hident
        obtain ⟨u, hu, rfl⟩ := Option.map_eq_some_iff.mp hident.symm
        rw [Row.claimed, hy] at hc
        obtain ⟨m, hm, hmx⟩ := List.exists_of_findSome?_eq_some hc
        split_ifs at hmx with hn
        refine ⟨m, hm, x, hmx, ?_, r', hr', rfl, hx⟩
        rw [hu, Option.map_some]
        exact hn

/-- **An ingest keeps the people and the origins** of every dataset: every row of `dataset_members`
and every row of `dataset_provenance`, by the key of its unique index, is there for the member that
its own has been merged into. -/
theorem ingest_keeps_people {pyLower : String → String} {ls : List StoreLabel} {s s' : MemberStore}
    {into : IngestInto} {ms : List Members.Member}
    (hrun : runLabels (step pyLower) start ls = some s)
    (hstep : s.step pyLower (.ingest into ms) = some s') :
    ∃ merged : MemberId → MemberId,
      (∀ id, s.tables.hasMember id → MergedInto s.tables s'.tables ms id (merged id)) ∧
      (∀ q ∈ s.tables.memberships, s.tables.hasMember q.memberId ∧
        ∃ q' ∈ s'.tables.memberships, q'.key = (q.withMember (merged q.memberId)).key) ∧
      ∀ p ∈ s.tables.provenance, s.tables.hasMember p.memberId ∧
        ∃ p' ∈ s'.tables.provenance, p'.key = (p.withMember (merged p.memberId)).key := by
  have h := (good_of_run good_start hrun).1.sound
  rcases ingest_cases hstep with rfl | ⟨summary, hok⟩
  · exact ⟨id, fun id hid => Or.inl ⟨hid, rfl⟩,
      fun q hq => ⟨(h.membershipRefs q hq).2.1, q, hq, rfl⟩,
      fun p hp => ⟨(h.provenanceRefs p hp).2.1, p, hp, rfl⟩⟩
  · obtain ⟨t₁, h₁, hturns, htables⟩ := h.submitIngestBatch_ok hok
    have hf := hturns.followed h h (h.followed_nil into)
    rw [List.nil_append] at hf
    let merged : MemberId → MemberId := fun id =>
      (s.tables.members.find? fun r => r.id = id).elim id (t₁.settle ms)
    have hmerged : ∀ r ∈ s.tables.members, merged r.id = t₁.settle ms r := by
      intro r hr
      simp only [merged, h.find?_row hr, Option.elim_some]
    refine ⟨merged, fun id hid => ?_, fun q hq => ?_, fun p hp => ?_⟩
    · obtain ⟨r, hr, rfl⟩ := MemberTables.hasMember_iff.mp hid
      rw [hmerged r hr]
      rw [htables]
      exact mergedInto_settle h h₁ hf.settled hr
    · have hmember := (h.membershipRefs q hq).2.1
      obtain ⟨r, hr, hid⟩ := MemberTables.hasMember_iff.mp hmember
      refine ⟨hmember, ?_⟩
      have hin := hf.inDataset q.datasetId r hr
        (List.mem_map.mpr ⟨q, hq, by rw [Membership.key, hid]⟩)
      rw [← hmerged r hr, hid] at hin
      obtain ⟨q', hq', hkey⟩ := List.mem_map.mp hin
      exact htables ▸ ⟨q', hq', hkey⟩
    · have hmember := (h.provenanceRefs p hp).2.1
      obtain ⟨r, hr, hid⟩ := MemberTables.hasMember_iff.mp hmember
      refine ⟨hmember, ?_⟩
      have hin := hf.origins p.datasetId (p.sourceDatasetId, p.sourceGroupId, p.sourceLabel.getD "")
        r hr (List.mem_map.mpr ⟨p, hp, by rw [Provenance.key, hid]⟩)
      rw [← hmerged r hr, hid] at hin
      obtain ⟨p', hp', hkey⟩ := List.mem_map.mp hin
      exact htables ▸ ⟨p', hp', hkey⟩

/-- Two datasets; the first has a username-only member and, as another member, the person behind
it. -/
def twoImported : List StoreLabel :=
  [.createDataset, .createDataset,
    .ingest { datasetId := 0 } [{ telegramUserId := none, username := some "alice" }],
    .ingest { datasetId := 0 } [{ telegramUserId := some 5 }]]

/-- The batch for the second dataset that shows that they are the same. -/
def sameAlice : List Members.Member := [{ telegramUserId := some 5, username := some "Alice" }]

theorem ingest_keeps_people_merged :
    ∃ s s', runLabels (step id) start twoImported = some s ∧
      s.step id (.ingest { datasetId := 1 } sameAlice) = some s' ∧
      ∃ merged : MemberId → MemberId, ∀ q ∈ s.tables.memberships,
        ∃ q' ∈ s'.tables.memberships, q'.key = (q.withMember (merged q.memberId)).key := by
  have hsome : (runLabels (step id) start twoImported).isSome = true := by decide +kernel
  obtain ⟨s, hs⟩ := Option.isSome_iff_exists.mp hsome
  refine ⟨s, _, hs, rfl, ?_⟩
  obtain ⟨merged, -, hms, -⟩ := ingest_keeps_people hs rfl
  exact ⟨merged, fun q hq => (hms q hq).2⟩

/-! ## The counts -/

/-- An ingest that is committed takes no two members of another dataset for one person. -/
def KeepsApart (s : MemberStore) : StoreLabel → Prop
  | .ingest into ms =>
      (∀ m ∈ ms, into.Refers s.tables m) → ∀ d, d ≠ into.datasetId → ¬ s.tables.Joins ms d
  | _ => True

/-- **One step** keeps the counts right exactly when it meets the condition. -/
theorem countsRight_step_iff {pyLower : String → String} {s s' : MemberStore} {l : StoreLabel}
    (h : s.Good) (hc : s.tables.CountsRight) (hstep : s.step pyLower l = some s') :
    s'.tables.CountsRight ↔ KeepsApart s l := by
  cases l with
  | createDataset =>
      obtain rfl := Option.some.inj hstep
      exact iff_of_true (hc.createDataset h.sound) trivial
  | createGroup =>
      obtain rfl := Option.some.inj hstep
      exact iff_of_true hc trivial
  | createAccount a =>
      obtain rfl := Option.some.inj hstep
      exact iff_of_true hc trivial
  | deleteAccount a =>
      obtain rfl := Option.some.inj hstep
      exact iff_of_true hc trivial
  | cachePeers peers =>
      obtain rfl := Option.some.inj hstep
      refine iff_of_true ?_ trivial
      show (committed s.tables _).CountsRight
      rcases committed_cases (t := s.tables) (peers.foldlM MemberTables.insertPeer s.tables)
        with heq | heq
      · rwa [heq]
      · rw [foldlM_insertPeer_ok heq]
        exact hc
  | ingest into ms =>
      have hiff := h.sound.submitIngestBatch_committed_iff (b := into) ms
      cases hrun : s.tables.submitIngestBatch into ms with
      | ok p =>
          obtain rfl := Option.some.inj hstep
          have hrefers := hiff.mp ⟨p, hrun⟩
          rw [hrun]
          exact (hc.ingest_iff h.sound hrun).trans
            ⟨fun hapart _ => hapart, fun hapart => hapart hrefers⟩
      | error e =>
          obtain rfl := Option.some.inj hstep
          have hrefers : ¬ ∀ m ∈ ms, into.Refers s.tables m := by
            rw [← hiff, hrun]
            simp
          rw [hrun]
          exact iff_of_true hc fun hr => absurd hr hrefers
  | combine a b op =>
      obtain rfl := Option.some.inj hstep
      refine iff_of_true ?_ trivial
      show (committed s.tables _).CountsRight
      rcases committed_cases (t := s.tables) ((s.tables.combine a b op).map Prod.snd) with heq | heq
      · rwa [heq]
      · obtain ⟨new, hok⟩ := map_snd_ok heq
        exact hc.combine h.sound hok
  | selectInvite account dataset processed precheck spec =>
      obtain rfl := Option.some.inj hstep
      exact iff_of_true hc trivial
  | selectRemove account dataset precheck spec =>
      obtain ⟨p, -, rfl⟩ := Option.map_eq_some_iff.mp hstep
      exact iff_of_true hc trivial
  | addItems job selection =>
      obtain ⟨members, hmembers, rfl⟩ := Option.map_eq_some_iff.mp hstep
      refine iff_of_true ?_ trivial
      show (committed s.tables _).CountsRight
      rcases committed_cases (t := s.tables) (addItemRefs s.tables job members) with heq | heq
      · rwa [heq]
      · rw [(h.addItemRefs hmembers heq).2]
        exact hc

/-- **The counts over whole runs.**  In every state of a run `member_count` of every dataset is the
number of its rows if and only if no ingest that is committed takes two members of a dataset other
than its own for one person. -/
theorem counts_right_iff {pyLower : String → String} {ls : List StoreLabel} {s : MemberStore}
    (hrun : runLabels (step pyLower) start ls = some s) :
    (∀ pre post u, ls = pre ++ post → runLabels (step pyLower) start pre = some u →
      u.tables.CountsRight) ↔ Along (step pyLower) KeepsApart start ls := by
  constructor
  · intro hcounts
    by_contra hnot
    obtain ⟨pre, l, post, t, t', rfl, hpre, -, hfails, hstep⟩ := exists_first_failure hrun hnot
    have hgood := (good_of_run good_start hpre).1
    refine hfails ((countsRight_step_iff hgood (hcounts pre _ t rfl hpre) hstep).mp ?_)
    refine hcounts (pre ++ [l]) post t' (by simp) ?_
    exact runLabels_append_eq_some.mpr ⟨t, hpre, runLabels_cons_eq_some.mpr ⟨t', hstep, rfl⟩⟩
  · rintro halong pre post u rfl hpre
    have hinv : u.Good ∧ u.tables.CountsRight := by
      refine invariant_runLabels (I := fun u => u.Good ∧ u.tables.CountsRight) ?_
        ⟨good_start, fun d row hrow => absurd hrow (by simp [start, emptyTables])⟩
        ((along_append hpre).mp halong).1 hpre
      rintro t l t' ⟨hgood, hc⟩ hC hstep
      exact ⟨(hgood.step hstep).1, (countsRight_step_iff hgood hc hstep).mpr hC⟩
    exact hinv.2

theorem counts_right_imported :
    ∃ s, runLabels (step id) start (twoImported.take 3) = some s ∧
      ∀ pre post u, twoImported.take 3 = pre ++ post →
        runLabels (step id) start pre = some u → u.tables.CountsRight := by
  have hsome : (runLabels (step id) start (twoImported.take 3)).isSome = true := by
    decide +kernel
  obtain ⟨s, hs⟩ := Option.isSome_iff_exists.mp hsome
  refine ⟨s, hs, (counts_right_iff hs).mpr ?_⟩
  refine ⟨trivial, fun t ht => ⟨trivial, fun u hu => ⟨?_, ?_⟩⟩⟩
  · obtain rfl := Option.some.inj ht
    obtain rfl := Option.some.inj hu
    rintro - d - ⟨r, hr, -⟩
    exact absurd hr (List.not_mem_nil (a := r))
  · exact fun _ _ => trivial

/-- The first dataset has two members on its record and one row. -/
theorem count_after_merge :
    ∃ s, runLabels (step id) start (twoImported ++ [.ingest { datasetId := 1 } sameAlice]) =
      some s ∧ ¬ s.tables.CountsRight := by
  have hcount : (runLabels (step id) start
      (twoImported ++ [.ingest { datasetId := 1 } sameAlice])).map
      (fun s => (s.tables.datasets[0]?.map Dataset.memberCount, s.tables.countMembers 0)) =
      some (some 2, 1) := by decide +kernel
  obtain ⟨s, hs, hpair⟩ := Option.map_eq_some_iff.mp hcount
  refine ⟨s, hs, fun hc => ?_⟩
  obtain ⟨hds, hms⟩ := Prod.mk.inj hpair
  obtain ⟨row, hrow, htwo⟩ := Option.map_eq_some_iff.mp hds
  have hone := hc 0 row hrow
  rw [htwo, hms] at hone
  exact absurd hone (by decide)

end MemberStore
end Storage
end MigrationStudio
