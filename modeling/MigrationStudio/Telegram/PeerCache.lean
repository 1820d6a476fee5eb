import Mathlib.Logic.Function.Basic
import MigrationStudio.Core.Enums

/-!
# `peer_cache`, `groups` and the access hashes read from them

Telegram gives every account its own access hash for a peer.  The program keeps them in one table
with primary key `(account_id, peer_id)`, whatever the kind of the peer, and three statements
write it: `PeerCache.submit_persist_many` (used by group resolution and by the load of the joined
groups), the upsert of `submit_ingest_batch`, and nothing else; `GroupRepository.submit_upsert`
writes the `groups` table that is joined with it.  Every reader joins on the numeric id.

* `PeerTables`: the three tables, `peerHash`: the `LEFT JOIN peer_cache` of the readers.
* `PeerWrite`: the writers, as committed operations; `PeerWrite.records`: the peers a write
  records.
* `peerHash_replay`: what a join reads is the last record for the numeric id by the account.
* `peerHash_eq_lastHash_iff`: when that is the last record for the peer itself.
* `PeerWrite.OfOthers.peerHash`: what other accounts write is not read.
-/

namespace MigrationStudio
namespace Telegram

open MigrationStudio.Core

/-- The kinds of peers, each with its own numbering on Telegram's side. -/
inductive PeerType where
  | user | chat | channel
  deriving DecidableEq, Repr

/-- A row of `peer_cache` without its key and its display columns. -/
structure PeerRow where
  peerType : PeerType
  accessHash : Option ℤ
  deriving DecidableEq, Repr

/-- `CachedPeer` without its display columns. -/
structure CachedPeer where
  accountId : AccountId
  peerId : ℤ
  peerType : PeerType
  accessHash : Option ℤ
  deriving DecidableEq, Repr

/-- `Member`: the fields that the peer upsert of an ingest reads. -/
structure Member where
  telegramUserId : Option ℤ
  accessHash : Option ℤ
  deriving DecidableEq, Repr

/-- A row of `groups`; `telegram_peer_id` is unique. -/
structure GroupRow where
  id : GroupId
  telegramPeerId : ℤ
  type : PeerType
  deriving DecidableEq, Repr

/-- `members` (its `telegram_user_id` column), `peer_cache` by its primary key, and `groups`.
Foreign keys keep the member rows that items refer to, so `members` is total. -/
structure PeerTables where
  members : MemberId → Option ℤ
  peerCache : AccountId → ℤ → Option PeerRow
  groups : List GroupRow

/-- `INSERT INTO peer_cache ... ON CONFLICT(account_id,peer_id) DO UPDATE`. -/
def upsertPeer (t : AccountId → ℤ → Option PeerRow) (p : CachedPeer) :
    AccountId → ℤ → Option PeerRow :=
  Function.update t p.accountId
    (Function.update (t p.accountId) p.peerId (some ⟨p.peerType, p.accessHash⟩))

/-- The peer that `submit_ingest_batch` records for a member: with an account, a Telegram id and an
access hash, as a `User`. -/
def ingestRecord (account : Option AccountId) (m : Member) : Option CachedPeer :=
  match account, m.telegramUserId, m.accessHash with
  | some a, some u, some h => some ⟨a, u, .user, some h⟩
  | _, _, _ => none

/-- `GroupRepository.submit_upsert`, with `id` the number a new row gets. -/
def upsertGroup (groups : List GroupRow) (telegramPeerId : ℤ) (type : PeerType) :
    List GroupRow :=
  if groups.any (·.telegramPeerId == telegramPeerId) then
    groups.map fun g => if g.telegramPeerId = telegramPeerId then { g with type := type } else g
  else groups ++ [⟨groups.length + 1, telegramPeerId, type⟩]

/-! ## The readers -/

/-- `LEFT JOIN peer_cache pc ON pc.account_id=? AND pc.peer_id=?`, the `access_hash` column. -/
def PeerTables.peerHash (t : PeerTables) (account : AccountId) (peer : Option ℤ) : Option ℤ :=
  peer.bind fun n => (t.peerCache account n).bind PeerRow.accessHash

/-- A row that `MigrationPlanner._rows` returns, as far as the hash is concerned. -/
structure SourceRow where
  id : MemberId
  telegramUserId : Option ℤ
  accessHash : Option ℤ
  deriving DecidableEq, Repr

/-- `MigrationPlanner._rows` for the member ids of a dataset. -/
def PeerTables.rows (t : PeerTables) (account : AccountId) (dataset : List MemberId) :
    List SourceRow :=
  dataset.map fun m => ⟨m, t.members m, t.peerHash account (t.members m)⟩

/-- What `GroupRepository.get` returns: the id, the type and the account's access hash. -/
structure GroupContext where
  telegramId : ℤ
  accessHash : Option ℤ
  type : PeerType
  localGroupId : GroupId
  deriving DecidableEq, Repr

/-- `GroupRepository.get(local_id, account_id)`. -/
def PeerTables.getGroup (t : PeerTables) (localId : GroupId) (account : AccountId) :
    Option GroupContext :=
  (t.groups.find? (·.id == localId)).map fun g =>
    ⟨g.telegramPeerId, t.peerHash account (some g.telegramPeerId), g.type, g.id⟩

/-! ## The writers -/

/-- A committed write of the three tables.  `persistMany` is `PeerCache.submit_persist_many`,
`ingest` the batch of `submit_ingest_batch` with what `_upsert_one` leaves in `members`, and
`group` is `GroupRepository.submit_upsert`. -/
inductive PeerWrite where
  | persistMany (peers : List CachedPeer)
  | ingest (account : Option AccountId) (batch : List Member) (members : MemberId → Option ℤ)
  | group (telegramPeerId : ℤ) (type : PeerType)

namespace PeerWrite

/-- The peers that a write records, in order. -/
def records : PeerWrite → List CachedPeer
  | persistMany peers => peers
  | ingest account batch _ => batch.filterMap (ingestRecord account)
  | group _ _ => []

/-- What a write does to the tables. -/
def apply (t : PeerTables) : PeerWrite → PeerTables
  | persistMany peers => { t with peerCache := peers.foldl upsertPeer t.peerCache }
  | ingest account batch members =>
      { t with
        members := members
        peerCache := (batch.filterMap (ingestRecord account)).foldl upsertPeer t.peerCache }
  | group telegramPeerId type => { t with groups := upsertGroup t.groups telegramPeerId type }

end PeerWrite

/-- The tables after a history of committed writes. -/
def replay (t : PeerTables) (ws : List PeerWrite) : PeerTables := ws.foldl PeerWrite.apply t

/-- Tables without a cached peer. -/
def PeerTables.Uncached (t : PeerTables) : Prop := ∀ a n, t.peerCache a n = none

/-- The last record of a history that satisfies `p`. -/
def lastRecord (ws : List PeerWrite) (p : CachedPeer → Bool) : Option CachedPeer :=
  (ws.flatMap PeerWrite.records).reverse.find? p

/-- The last hash recorded by the account for the peer of this kind and number; `none` when none
was recorded. -/
def lastHash (ws : List PeerWrite) (account : AccountId) (type : PeerType) (n : ℤ) : Option ℤ :=
  (lastRecord ws fun p => p.accountId == account && p.peerId == n && p.peerType == type).bind
    CachedPeer.accessHash

/-- The last record by the account for the number, of whatever kind. -/
def lastForNumber (ws : List PeerWrite) (account : AccountId) (n : ℤ) : Option CachedPeer :=
  lastRecord ws fun p => p.accountId == account && p.peerId == n

/-! ## What a join reads -/

@[simp] theorem upsertPeer_self (t : AccountId → ℤ → Option PeerRow) (p : CachedPeer) :
    upsertPeer t p p.accountId p.peerId = some ⟨p.peerType, p.accessHash⟩ := by
  simp [upsertPeer]

theorem upsertPeer_of_ne (t : AccountId → ℤ → Option PeerRow) (p : CachedPeer) {a : AccountId}
    {n : ℤ} (h : ¬ (p.accountId = a ∧ p.peerId = n)) : upsertPeer t p a n = t a n := by
  rw [upsertPeer]
  by_cases ha : a = p.accountId
  · subst ha
    rw [Function.update_self, Function.update_of_ne fun hn => h ⟨rfl, hn.symm⟩]
  · rw [Function.update_of_ne ha]

/-- After a list of upserts the row of a key is that of the last upsert of the key. -/
theorem foldl_upsertPeer (ps : List CachedPeer) (t : AccountId → ℤ → Option PeerRow)
    (a : AccountId) (n : ℤ) :
    ps.foldl upsertPeer t a n =
      ((ps.reverse.find? fun p => p.accountId == a && p.peerId == n).map
        fun p => (⟨p.peerType, p.accessHash⟩ : PeerRow)).or (t a n) := by
  induction ps generalizing t with
  | nil => rfl
  | cons p ps ih =>
      rw [List.foldl_cons, ih, List.reverse_cons, List.find?_append]
      cases hfind : ps.reverse.find? fun p => p.accountId == a && p.peerId == n with
      | some q => rfl
      | none =>
          by_cases hkey : p.accountId = a ∧ p.peerId = n
          · obtain ⟨rfl, rfl⟩ := hkey
            simp
          · have hb : (p.accountId == a && p.peerId == n) = false := by
              simpa using hkey
            simp [upsertPeer_of_ne t p hkey, hb]

theorem peerCache_apply (t : PeerTables) (w : PeerWrite) :
    (w.apply t).peerCache = w.records.foldl upsertPeer t.peerCache := by
  cases w <;> rfl

theorem peerCache_replay (t : PeerTables) (ws : List PeerWrite) :
    (replay t ws).peerCache = (ws.flatMap PeerWrite.records).foldl upsertPeer t.peerCache := by
  induction ws generalizing t with
  | nil => rfl
  | cons w ws ih =>
      rw [List.flatMap_cons, List.foldl_append, ← peerCache_apply]
      exact ih (w.apply t)

/-- **A join reads the last record for the number.** -/
theorem peerHash_replay {t : PeerTables} (ht : t.Uncached) (ws : List PeerWrite)
    (a : AccountId) (n : ℤ) :
    (replay t ws).peerHash a (some n) = (lastForNumber ws a n).bind CachedPeer.accessHash := by
  rw [PeerTables.peerHash, Option.bind_some, peerCache_replay, foldl_upsertPeer, ht, Option.or_none,
    lastForNumber, lastRecord]
  cases (ws.flatMap PeerWrite.records).reverse.find? fun p =>
    p.accountId == a && p.peerId == n <;> rfl

/-- No peer of another kind with the same number was recorded by the account after the peer's own
last record; or what was recorded there is the peer's own hash. -/
def KeepsHash (ws : List PeerWrite) (account : AccountId) (type : PeerType) (n : ℤ) : Prop :=
  ∀ p, lastForNumber ws account n = some p →
    p.peerType = type ∨ p.accessHash = lastHash ws account type n

theorem find?_and_of_find? {α : Type*} {l : List α} {p q : α → Bool} {x : α}
    (h : l.find? p = some x) (hq : q x = true) : (l.find? fun y => p y && q y) = some x := by
  induction l with
  | nil => simp at h
  | cons y l ih =>
      rw [List.find?_cons] at h ⊢
      cases hp : p y with
      | false =>
          rw [hp] at h
          simpa using ih h
      | true =>
          rw [hp, Option.some.injEq] at h
          subst h
          simp [hq]

/-- When the account's last record for the number is of the kind, it is the last of the kind. -/
theorem lastHash_of_lastForNumber {ws : List PeerWrite} {a : AccountId} {type : PeerType} {n : ℤ}
    {p : CachedPeer} (h : lastForNumber ws a n = some p) (htype : p.peerType = type) :
    lastHash ws a type n = p.accessHash := by
  rw [lastForNumber, lastRecord] at h
  have hfind := find?_and_of_find? (q := fun p => p.peerType == type) h (by simp [htype])
  rw [lastHash, lastRecord, hfind, Option.bind_some]

theorem lastHash_of_not_recorded {ws : List PeerWrite} {a : AccountId} {type : PeerType} {n : ℤ}
    (h : lastForNumber ws a n = none) : lastHash ws a type n = none := by
  rw [lastForNumber, lastRecord, List.find?_eq_none] at h
  have hnone : (lastRecord ws fun p =>
      p.accountId == a && p.peerId == n && p.peerType == type) = none := by
    rw [lastRecord, List.find?_eq_none]
    intro p hp hand
    rw [Bool.and_eq_true] at hand
    exact h p hp hand.1
  rw [lastHash, hnone, Option.bind_none]

/-- **The exact condition.**  A join attaches the last hash recorded for the peer exactly when no
peer of another kind with the same number has taken its row since. -/
theorem peerHash_eq_lastHash_iff {t : PeerTables} (ht : t.Uncached) (ws : List PeerWrite)
    (a : AccountId) (type : PeerType) (n : ℤ) :
    (replay t ws).peerHash a (some n) = lastHash ws a type n ↔ KeepsHash ws a type n := by
  rw [peerHash_replay ht]
  cases hlast : lastForNumber ws a n with
  | none =>
      refine iff_of_true ?_ fun p hp => absurd (hlast.symm.trans hp) (by simp)
      rw [lastHash_of_not_recorded hlast, Option.bind_none]
  | some p =>
      rw [Option.bind_some]
      constructor
      · intro heq q hq
        obtain rfl := Option.some.inj (hlast.symm.trans hq)
        exact Or.inr heq
      · intro hkeep
        rcases hkeep p hlast with htype | hhash
        · exact (lastHash_of_lastForNumber hlast htype).symm
        · exact hhash

/-! ## What other accounts write -/

/-- The account records nothing in the write. -/
def PeerWrite.OfOthers (w : PeerWrite) (account : AccountId) : Prop :=
  ∀ p ∈ w.records, p.accountId ≠ account

theorem foldl_upsertPeer_of_others {ps : List CachedPeer} {a : AccountId}
    (h : ∀ p ∈ ps, p.accountId ≠ a) (t : AccountId → ℤ → Option PeerRow) (n : ℤ) :
    ps.foldl upsertPeer t a n = t a n := by
  have hnone : (ps.reverse.find? fun p => p.accountId == a && p.peerId == n) = none := by
    rw [List.find?_eq_none]
    intro p hp hkey
    rw [Bool.and_eq_true, beq_iff_eq] at hkey
    exact h p (List.mem_reverse.mp hp) hkey.1
  rw [foldl_upsertPeer, hnone]
  rfl

/-- **Writes of other accounts** leave every join of the account as it is. -/
theorem PeerWrite.OfOthers.peerHash {w : PeerWrite} {a : AccountId} (h : w.OfOthers a)
    (t : PeerTables) (peer : Option ℤ) : (w.apply t).peerHash a peer = t.peerHash a peer := by
  unfold PeerTables.peerHash
  rw [peerCache_apply]
  congr 1
  ext1 n
  rw [foldl_upsertPeer_of_others h]

/-- And the last hash recorded by the account is another account's business neither. -/
theorem PeerWrite.OfOthers.lastHash {w : PeerWrite} {a : AccountId} (h : w.OfOthers a)
    (ws : List PeerWrite) (type : PeerType) (n : ℤ) :
    lastHash (ws ++ [w]) a type n = Telegram.lastHash ws a type n := by
  have hnone : (w.records.reverse.find? fun p =>
      p.accountId == a && p.peerId == n && p.peerType == type) = none := by
    rw [List.find?_eq_none]
    intro p hp hkey
    rw [Bool.and_eq_true, Bool.and_eq_true, beq_iff_eq] at hkey
    exact h p (List.mem_reverse.mp hp) hkey.1.1
  unfold Telegram.lastHash lastRecord
  rw [List.flatMap_append, List.flatMap_singleton, List.reverse_append, List.find?_append, hnone]
  rfl

end Telegram
end MigrationStudio
