import MigrationStudio.Members.Replay
import MigrationStudio.Storage.MemberStore

/-!
# Ingests that are repeated

A batch of people, each with a Telegram id, that has been ingested, and is ingested again in whole
or from some member on.

* `Ingested`: what the first pass leaves for those who come again.
* `replay_unchanged`: the second pass changes nothing but timestamps, and accepts nobody.
-/

namespace MigrationStudio
namespace Storage

open Foundations MigrationStudio.Core Members

namespace MemberStore

/-- The usernames of `peer_cache`. -/
abbrev PeerNames := AccountId → ℤ → Option String

variable {pyLower : String → String} {ls : List StoreLabel} {s : MemberStore} {b : IngestInto}
  {t t' : MemberTables} {names : PeerNames} {ms ms' : List Members.Member}
  {summary : IngestSummary}

/-! ## After the first pass -/

/-- What a pass over the members `ms` leaves for those who come again. -/
structure Ingested (b : IngestInto) (ms : List Members.Member) (t : MemberTables)
    (names : PeerNames) : Prop where
  sound : t.Sound
  counted : MemberTables.Counted b t
  people : ∀ m ∈ ms, ∀ x, m.telegramUserId = some x → MemberTables.HasPerson b t x
  refers : ∀ m ∈ ms, t.hasDataset b.datasetId ∧ t.hasGroup b.sourceGroupId ∧
    ∀ p, Telegram.ingestRecord b.accountId ⟨m.telegramUserId, m.accessHash⟩ = some p →
      t.accounts p.accountId
  written : ∀ r ∈ t.members, overwrite ms r = r
  unclaimed : MemberTables.Unclaimed t ms
  peers : ∀ a x m, ms.reverse.find? (recordsPeer b a x) = some m →
    t.peerCache a x = peerColumns m ∧ names a x = peerUsername m

theorem accounts_turns (hturns : MemberTables.Turns b t ms t') : t'.accounts = t.accounts := by
  induction hturns with
  | nil t => rfl
  | skipped hup _ ih => exact ih.trans hup.frame.2.2.2.1
  | taken hup _ _ ih => exact ih.trans hup.frame.2.2.2.1

variable (names) in
/-- **A committed pass** over people. -/
theorem ingested_of_commit (h : t.Sound) (hms : MemberTables.AllPeople ms)
    (hrun : t.submitIngestBatch b ms = .ok (summary, t')) :
    Ingested b ms t' (writePeers b peerUsername names ms) := by
  have hrefers := (h.submitIngestBatch_committed_iff ms).mp ⟨_, hrun⟩
  obtain ⟨t₁, h₁, hturns, rfl⟩ := h.submitIngestBatch_ok hrun
  obtain ⟨hdatasets, -, hgroups⟩ := hturns.frame
  have haccounts := accounts_turns hturns
  refine ⟨h₁.setMemberCount _ _, ?_, (hturns.hasPerson h hms).2, fun m hm => ?_, fun r hr => ?_,
    (hturns.takes_username h hms).2, fun a x m hm => ⟨?_, ?_⟩⟩
  · show (t₁.datasets.modify _ _).modify _ _ = t₁.datasets.modify _ _
    rw [List.modify_modify_eq]
    rfl
  · obtain ⟨x, hx⟩ := hms m hm
    obtain ⟨hd, hg, hacc⟩ := hrefers m hm (Or.inl (by rw [hx]; rfl))
    refine ⟨?_, ?_, fun p hp => ?_⟩
    · unfold MemberTables.hasDataset at hd ⊢
      show decide (b.datasetId < (t₁.datasets.modify _ _).length) = true
      rwa [List.length_modify, hdatasets]
    · unfold MemberTables.hasGroup at hg ⊢
      show Option.all (· < t₁.groups) _ = true
      rwa [hgroups]
    · show t₁.accounts p.accountId = true
      rw [haccounts]
      exact hacc p hp
  · exact hturns.overwrite_eq h hms hr
  · show t₁.peerCache a x = _
    rw [hturns.peerCache_eq h hms, writePeers_eq, hm]
    rfl
  · rw [writePeers_eq, hm]
    rfl

/-- **Those who come again**, each with the Telegram id and the hash of one who has been there. -/
theorem Ingested.replay_iff (hi : Ingested b ms t names) (hms : MemberTables.AllPeople ms)
    (hagain : ∀ m' ∈ ms', ∃ m ∈ ms, m.telegramUserId = m'.telegramUserId ∧
      m.accessHash = m'.accessHash) :
    (∃ s t', t.submitIngestBatch b ms' = .ok (s, t') ∧ MemberTables.SameTables t t' ∧
      s.accepted = 0) ↔
      MemberTables.Unclaimed t ms' ∧ (∀ r ∈ t.members, overwrite ms' r = r) ∧
        writePeers b peerColumns t.peerCache ms' = t.peerCache := by
  refine hi.sound.replay_iff (fun m' hm' => ?_) (fun m' hm' _ => ?_) hi.counted
  · obtain ⟨m, hm, huid, -⟩ := hagain m' hm'
    obtain ⟨x, hx⟩ := hms m hm
    exact ⟨x, huid ▸ hx, hi.people m hm x hx⟩
  · obtain ⟨m, hm, huid, hhash⟩ := hagain m' hm'
    rw [← huid, ← hhash]
    exact hi.refers m hm

variable (names) in
/-- **Batches that are repeated.**  After any run a batch of people has been ingested.  Ingesting it
again, all of it or from some member on, changes nothing but timestamps and accepts nobody. -/
theorem replay_unchanged (hrun : runLabels (step pyLower) start ls = some s)
    (hms : MemberTables.AllPeople ms)
    (hfirst : s.tables.submitIngestBatch b ms = .ok (summary, t)) (hs : ms' <:+ ms) :
    (∃ s' t', t.submitIngestBatch b ms' = .ok (s', t') ∧ MemberTables.SameTables t t' ∧
      s'.accepted = 0) ∧
      writePeers b peerUsername (writePeers b peerUsername names ms) ms' =
        writePeers b peerUsername names ms := by
  have hi := ingested_of_commit names (good_of_run good_start hrun).1.sound hms hfirst
  refine ⟨(hi.replay_iff hms fun m hm => ⟨m, hs.subset hm, rfl, rfl⟩).mpr ⟨?_, ?_, ?_⟩, ?_⟩
  · exact fun m hm => hi.unclaimed m (hs.subset hm)
  · intro r hr
    have hwritten := hi.written r hr
    cases hx : r.telegramUserId with
    | none => exact overwrite_of_none hx
    | some x =>
        rw [overwrite_of_some hx] at hwritten ⊢
        cases hlast : ms'.reverse.find? (hasUid x) with
        | none => rfl
        | some m => rwa [find?_suffix hs hlast] at hwritten
  · funext a x
    rw [writePeers_eq]
    cases hlast : ms'.reverse.find? (recordsPeer b a x) with
    | none => rfl
    | some m => exact (hi.peers a x m (find?_suffix hs hlast)).1.symm
  · funext a x
    rw [writePeers_eq b peerUsername _ ms']
    cases hlast : ms'.reverse.find? (recordsPeer b a x) with
    | none => rfl
    | some m => exact (hi.peers a x m (find?_suffix hs hlast)).2.symm

/-- A username-only row, and the dataset that it is in. -/
def namedAlice : List StoreLabel :=
  [.createAccount 1, .createDataset,
    .ingest { datasetId := 0 } [{ telegramUserId := none, username := some "alice" }]]

/-- Two people, one of whom comes again under another name. -/
def aliceTwice : List Members.Member :=
  [{ telegramUserId := some 5, username := some "@Alice", accessHash := some 50 },
    { telegramUserId := some 7, username := some "bob" },
    { telegramUserId := some 5, username := some "carol", accessHash := some 51 }]

theorem ok_of_toOption {ε α : Type*} {r : Except ε α} {a : α} (h : r.toOption = some a) :
    r = .ok a := by
  cases r with
  | error e => exact absurd h (by simp [Except.toOption])
  | ok a' => exact congrArg Except.ok (Option.some.inj h)

/-- The first pass takes the username-only row over and renames it; the replay of the last two
changes nothing. -/
theorem replay_unchanged_aliceTwice :
    ∃ s summary t, runLabels (step id) start namedAlice = some s ∧
      s.tables.submitIngestBatch { datasetId := 0, accountId := some 1 } aliceTwice =
        .ok (summary, t) ∧
      t.members.map (fun r => (r.telegramUserId, r.username)) =
        [(some 5, some "carol"), (some 7, some "bob")] ∧
      ∃ s' t', t.submitIngestBatch { datasetId := 0, accountId := some 1 } aliceTwice.tail =
        .ok (s', t') ∧ MemberTables.SameTables t t' ∧ s'.accepted = 0 := by
  have hall : (runLabels (step id) start namedAlice).map (fun s =>
      (s.tables.submitIngestBatch { datasetId := 0, accountId := some 1 } aliceTwice).toOption.map
        fun p => p.2.members.map fun r => (r.telegramUserId, r.username)) =
      some (some [(some 5, some "carol"), (some 7, some "bob")]) := by decide +kernel
  obtain ⟨s, hs, hpass⟩ := Option.map_eq_some_iff.mp hall
  obtain ⟨⟨summary, t⟩, hfirst, hmembers⟩ := Option.map_eq_some_iff.mp hpass
  have hpeople : MemberTables.AllPeople aliceTwice := by
    intro m hm
    have hids : ∀ m ∈ aliceTwice, m.telegramUserId.isSome := by decide
    exact Option.isSome_iff_exists.mp (hids m hm)
  exact ⟨s, summary, t, hs, ok_of_toOption hfirst, hmembers,
    (replay_unchanged (fun _ _ => none) hs hpeople (ok_of_toOption hfirst)
      (List.tail_suffix _)).1⟩

end MemberStore
end Storage
end MigrationStudio
