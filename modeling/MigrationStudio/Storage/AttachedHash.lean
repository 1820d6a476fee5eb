import MigrationStudio.Storage.Database

/-!
# The access hash that a reader attaches

Three readers join a peer with `peer_cache`: the planner for the members of a dataset, the
candidate window for the items of a job, and `GroupRepository.get` for a group.  Each of them asks
for a peer of one kind and joins on the account and the number only, while the table has one row
for both, whatever the kind.

* `Database.Attached`: the hashes that the three readers attach for an account.
* `attached_eq_peerHash`: all of them are the one join.
* `attached_hash_iff`: an attached hash is the last one recorded for the peer exactly when no peer
  of another kind has taken its row since; what other accounts write never matters.
* `hash_of_channel_attached`: the user who gets the access hash of a channel.
-/

namespace MigrationStudio
namespace Storage

open MigrationStudio.Core Jobs Telegram

/-- The hashes that the readers attach for the account: to the user of a member, in `_rows` and in
`pending_chunk`, and to a group of its kind, in `get`. -/
inductive Database.Attached (db : Database) (account : AccountId) :
    PeerType → ℤ → Option ℤ → Prop
  | planned {dataset : List MemberId} {row : SourceRow} {u : ℤ}
      (hrow : row ∈ db.peers.rows account dataset) (hu : row.telegramUserId = some u) :
      Attached db account .user u row.accessHash
  | pending {id : JobId} {lastOrdinal : ℤ} {limit : ℕ} {row : Database.CandidateRow} {u : ℤ}
      (hrow : row ∈ db.pendingChunk id account lastOrdinal limit)
      (hu : row.telegramUserId = some u) :
      Attached db account .user u row.accountAccessHash
  | group {localId : GroupId} {g : GroupContext}
      (hg : db.peers.getGroup localId account = some g) :
      Attached db account g.type g.telegramId g.accessHash

variable {db : Database} {account : AccountId} {type : PeerType} {n : ℤ} {h h' : Option ℤ}

/-- All readers attach what the join finds. -/
theorem attached_eq_peerHash (hatt : db.Attached account type n h) :
    h = db.peers.peerHash account (some n) := by
  cases hatt with
  | planned hrow hu =>
      obtain ⟨m, -, rfl⟩ := List.mem_map.mp hrow
      show db.peers.peerHash account (db.peers.members m) = _
      rw [show db.peers.members m = some n from hu]
  | pending hrow hu =>
      unfold Database.pendingChunk at hrow
      split at hrow
      · exact absurd hrow (by simp)
      · obtain ⟨r, -, rfl⟩ := List.mem_map.mp hrow
        show db.peers.peerHash account (db.peers.members r.memberId) = _
        rw [show db.peers.members r.memberId = some n from hu]
  | group hg =>
      obtain ⟨g, -, rfl⟩ := Option.map_eq_some_iff.mp hg
      rfl

/-- A write that records nothing of the account leaves what its readers attach. -/
theorem attached_apply_ofOthers {w : PeerWrite} (hw : w.OfOthers account)
    (hatt : db.Attached account type n h)
    (hatt' : (db.apply (.peers w)).Attached account type n h') : h' = h := by
  rw [attached_eq_peerHash hatt, attached_eq_peerHash hatt']
  exact hw.peerHash db.peers (some n)

/-- **The attached hash is the peer's own** after every history of ingests, group resolutions,
loads of the joined groups and writes of the peer cache, exactly when the account's last record
for the number is the peer's, or carries the same hash.  A further write in which the account
records nothing changes neither side. -/
theorem attached_hash_iff (t : PeerTables) (ht : t.Uncached) (ws : List PeerWrite)
    (db : Database) (hdb : db.peers = replay t ws) (account : AccountId) (type : PeerType) (n : ℤ)
    (h : Option ℤ) (hatt : db.Attached account type n h) :
    (h = lastHash ws account type n ↔ KeepsHash ws account type n) ∧
      ∀ w, w.OfOthers account →
        lastHash (ws ++ [w]) account type n = lastHash ws account type n ∧
          ∀ h', (db.apply (.peers w)).Attached account type n h' → h' = h := by
  constructor
  · rw [attached_eq_peerHash hatt, hdb]
    exact peerHash_eq_lastHash_iff ht ws account type n
  · intro w hw
    exact ⟨hw.lastHash ws type n, fun h' hatt' => attached_apply_ofOthers hw hatt hatt'⟩

/-! ## Two peers of one number -/

/-- Account 1 ingests the user 7 with its hash, and resolves a group: the channel with the number
`channel`. -/
def ingestAndResolve (channel : ℤ) : List PeerWrite :=
  [.ingest (some 1) [⟨some 7, some 111⟩] (fun _ => some 7),
    .persistMany [⟨1, channel, .channel, some 222⟩], .group channel .channel]

/-- Tables without a row. -/
def noPeers : PeerTables where
  members := fun _ => none
  peerCache := fun _ _ => none
  groups := []

/-- A database with one job, of the member with the local id 5. -/
def databaseOf (ws : List PeerWrite) : Database where
  jobs :=
    [{ jobType := .migration
       state := .ready
       accountId := some 1
       targetGroupId := some 1
       counters := ⟨1, 0, 0, 0, 0⟩
       waitingUntil := none
       checkpoint := {}
       items := ⟨[⟨0, 5, .ready, 0, none, none, none⟩], List.pairwise_singleton ..⟩ }]
  accounts := fun _ => none
  restrictions := []
  peers := replay noPeers ws
  journal := []

/-- The candidate window hands out the user 7 with the access hash of the channel 7, which account
1 resolved after it had ingested the user with the hash 111. -/
theorem hash_of_channel_attached :
    (databaseOf (ingestAndResolve 7)).Attached 1 .user 7 (some 222) ∧
      lastHash (ingestAndResolve 7) 1 .user 7 = some 111 := by
  refine ⟨?_, by decide⟩
  have hrow : (⟨0, 0, some 7, some 222⟩ : Database.CandidateRow) ∈
      (databaseOf (ingestAndResolve 7)).pendingChunk 0 1 (-1) 100 := by decide
  exact .pending hrow rfl

/-- A channel with another number leaves the user's hash, in the plan and in the group. -/
theorem attached_hash_of_distinct_numbers :
    (databaseOf (ingestAndResolve 8)).Attached 1 .user 7 (some 111) ∧
      lastHash (ingestAndResolve 8) 1 .user 7 = some 111 := by
  have hrow : (⟨5, some 7, some 111⟩ : SourceRow) ∈
      (databaseOf (ingestAndResolve 8)).peers.rows 1 [5] := by decide
  have hatt : (databaseOf (ingestAndResolve 8)).Attached 1 .user 7 (some 111) := .planned hrow rfl
  have hkeeps : KeepsHash (ingestAndResolve 8) 1 .user 7 := by
    intro p hp
    have hlast : lastForNumber (ingestAndResolve 8) 1 7 = some ⟨1, 7, .user, some 111⟩ := by decide
    obtain rfl := Option.some.inj (hlast.symm.trans hp)
    exact Or.inl rfl
  have hiff := (attached_hash_iff noPeers (fun _ _ => rfl) (ingestAndResolve 8)
    (databaseOf (ingestAndResolve 8)) rfl 1 .user 7 (some 111) hatt).1
  exact ⟨hatt, (hiff.mpr hkeeps).symm⟩

end Storage
end MigrationStudio
