import Mathlib.Data.List.DropRight
import MigrationStudio.Foundations.KeyedRows
import MigrationStudio.Members.Models
import MigrationStudio.Telegram.PeerCache

/-!
# `members/repository.py`

The members, the datasets with their members and provenance, and the items that refer to members,
as the statements of `MemberRepository` read and write them.  A statement checks what the schema
makes it check and raises an `IntegrityError`; an operation of the write lane that raises is rolled
back.  Datasets and groups are never deleted and are named by their position; the rows of members
are, and carry an id that is never used twice.  Texts of datasets and groups and the timestamps are
left out.

* `cleanUsername`, `lower`: the username as `_clean_username` leaves it and as SQLite compares it.
* `MemberTables`: the tables; `insertMember`, `updateMember`, `upsertMember`, `insertMembership`,
  `insertProvenance`, `deleteMember`: the statements.
* `mergeFallbackRow`, `upsertOne`, `submitIngestBatch`: the operations.
-/

namespace MigrationStudio
namespace Members

open Foundations MigrationStudio.Core Telegram

abbrev DatasetId := ℕ

/-! ## Usernames -/

/-- `str.isspace`, for one character. -/
def isSpace (c : Char) : Bool :=
  let n := c.toNat
  (9 ≤ n && n ≤ 13) || (28 ≤ n && n ≤ 32) || n = 0x85 || n = 0xa0 || n = 0x1680 ||
    (0x2000 ≤ n && n ≤ 0x200a) || n = 0x2028 || n = 0x2029 || n = 0x202f || n = 0x205f ||
    n = 0x3000

/-- `str.strip()`. -/
def strip (s : String) : String :=
  String.ofList ((s.toList.dropWhile isSpace).rdropWhile isSpace)

/-- `str.lstrip("@")`. -/
def lstripAt (s : String) : String := String.ofList (s.toList.dropWhile fun c => c = '@')

/-- SQLite's `lower()`, which folds the ASCII letters only. -/
def lower (s : String) : String := String.ofList (s.toList.map Char.toLower)

/-- `_clean_username`. -/
def cleanUsername : Option String → Option String
  | none => none
  | some value =>
      if value = "" then none
      else if lstripAt (strip value) = "" then none
      else some (lstripAt (strip value))

/-! ## The tables -/

/-- A row of `members`. -/
structure Row extends Values where
  id : MemberId
  telegramUserId : Option ℤ
  deriving DecidableEq, Repr

/-- The key of `idx_members_username_fallback_unique`: a row without Telegram id is indexed by its
username, unless that is missing or blank. -/
def Row.fallbackKey (r : Row) : Option String :=
  if r.telegramUserId.isSome then none
  else (r.username.filter fun u => u.toList.any (· ≠ ' ')).map lower

/-- The row is the username-only row of the username. -/
def Row.isFallback (username : String) (r : Row) : Bool :=
  r.telegramUserId.isNone && r.username.map lower = some (lower username)

/-- A row of `datasets`. -/
structure Dataset where
  memberCount : ℕ := 0
  deriving DecidableEq, Repr

/-- A row of `dataset_members`. -/
structure Membership where
  datasetId : DatasetId
  memberId : MemberId
  sourceGroupId : Option GroupId
  deriving DecidableEq, Repr

/-- The primary key of `dataset_members`. -/
def Membership.key (r : Membership) : DatasetId × MemberId := (r.datasetId, r.memberId)

/-- The row for another member. -/
def Membership.withMember (id : MemberId) (r : Membership) : Membership := { r with memberId := id }

/-- A row of `dataset_provenance`. -/
structure Provenance where
  datasetId : DatasetId
  memberId : MemberId
  sourceDatasetId : Option DatasetId
  sourceGroupId : Option GroupId
  sourceLabel : Option String
  deriving DecidableEq, Repr

/-- The key of `idx_dataset_provenance_nullsafe_unique`, which takes a missing label for an empty
one.  Rows that agree in the other uniqueness constraint of the table agree in this one. -/
def Provenance.key (r : Provenance) :
    DatasetId × MemberId × Option DatasetId × Option GroupId × String :=
  (r.datasetId, r.memberId, r.sourceDatasetId, r.sourceGroupId, r.sourceLabel.getD "")

/-- The row for another member. -/
def Provenance.withMember (id : MemberId) (r : Provenance) : Provenance := { r with memberId := id }

/-- A row of `migration_items`, as far as it refers to a member. -/
structure ItemRef where
  jobId : JobId
  ordinal : ℕ
  memberId : MemberId
  deriving DecidableEq, Repr

/-- The tables. `sequence` is the largest id that `members` has ever had. -/
structure MemberTables where
  members : List Row
  sequence : ℕ
  datasets : List Dataset
  memberships : List Membership
  provenance : List Provenance
  items : List ItemRef
  groups : ℕ
  accounts : AccountId → Bool
  peerCache : AccountId → ℤ → Option PeerRow

/-- The constraint of the schema that a statement violates. -/
inductive IntegrityError where
  | unique | foreignKey
  deriving DecidableEq, Repr

namespace MemberTables

/-! ## The statements -/

/-- Another row of `members` has the Telegram id or the fallback key of the row. -/
def conflicts (t : MemberTables) (r : Row) : Bool :=
  t.members.any fun q =>
    q.id ≠ r.id &&
      ((r.telegramUserId.isSome && q.telegramUserId = r.telegramUserId) ||
        (r.fallbackKey.isSome && q.fallbackKey = r.fallbackKey))

/-- `SELECT id FROM members WHERE telegram_user_id=?`. -/
def byTelegramId (t : MemberTables) (uid : ℤ) : Option Row :=
  t.members.find? fun r => r.telegramUserId = some uid

/-- `SELECT id FROM members WHERE telegram_user_id IS NULL AND lower(username)=lower(?)`. -/
def fallbackRow (t : MemberTables) (username : String) : Option Row :=
  t.members.find? (Row.isFallback username)

/-- The table with the columns of a row replaced. -/
def setRow (t : MemberTables) (r : Row) : MemberTables :=
  { t with members := t.members.map fun q => if q.id = r.id then r else q }

/-- The table with one more row. -/
def addRow (t : MemberTables) (uid : Option ℤ) (values : Values) : MemberTables :=
  { t with
    members := t.members ++ [⟨values, t.sequence + 1, uid⟩]
    sequence := t.sequence + 1 }

/-- `UPDATE members SET ... WHERE id=?`. -/
def updateMember (t : MemberTables) (r : Row) : Except IntegrityError MemberTables :=
  if t.conflicts r then .error .unique else .ok (t.setRow r)

/-- `INSERT INTO members`. -/
def insertMember (t : MemberTables) (uid : Option ℤ) (values : Values) :
    Except IntegrityError MemberTables :=
  if t.conflicts ⟨values, t.sequence + 1, uid⟩ then .error .unique
  else .ok (t.addRow uid values)

/-- `INSERT INTO members ... ON CONFLICT(telegram_user_id) DO UPDATE`.  The id of the new row is
drawn before the conflict is found. -/
def upsertMember (t : MemberTables) (uid : ℤ) (values : Values) :
    Except IntegrityError MemberTables :=
  match t.byTelegramId uid with
  | some q => { t with sequence := t.sequence + 1 }.updateMember ⟨values, q.id, some uid⟩
  | none => t.insertMember (some uid) values

def hasMember (t : MemberTables) (id : MemberId) : Bool := t.members.any fun r => r.id = id

def hasDataset (t : MemberTables) (d : DatasetId) : Bool := d < t.datasets.length

def hasGroup (t : MemberTables) (g : Option GroupId) : Bool := g.all (· < t.groups)

def setMemberships (t : MemberTables) (rows : List Membership) : MemberTables :=
  { t with memberships := rows }

def setProvenance (t : MemberTables) (rows : List Provenance) : MemberTables :=
  { t with provenance := rows }

/-- `INSERT OR IGNORE INTO dataset_members`: a row whose key is taken is ignored, any other must
refer to rows that exist. -/
def insertMembership (t : MemberTables) (r : Membership) : Except IntegrityError MemberTables :=
  if (t.memberships.any fun q => q.key = r.key) ||
      (t.hasDataset r.datasetId && t.hasMember r.memberId && t.hasGroup r.sourceGroupId) then
    .ok (t.setMemberships (insertOrIgnore Membership.key t.memberships r))
  else .error .foreignKey

/-- `INSERT OR IGNORE INTO dataset_provenance`. -/
def insertProvenance (t : MemberTables) (r : Provenance) : Except IntegrityError MemberTables :=
  if (t.provenance.any fun q => q.key = r.key) ||
      (t.hasDataset r.datasetId && t.hasMember r.memberId &&
        r.sourceDatasetId.all t.hasDataset && t.hasGroup r.sourceGroupId) then
    .ok (t.setProvenance (insertOrIgnore Provenance.key t.provenance r))
  else .error .foreignKey

/-- `DELETE FROM members WHERE id=?`: the rows of datasets go with the member, an item that refers
to it forbids it. -/
def deleteMember (t : MemberTables) (id : MemberId) : Except IntegrityError MemberTables :=
  if t.items.any fun i => i.memberId = id then .error .foreignKey
  else
    .ok { t with
      members := t.members.filter fun r => r.id ≠ id
      memberships := t.memberships.filter fun r => r.memberId ≠ id
      provenance := t.provenance.filter fun r => r.memberId ≠ id }

/-- `INSERT INTO peer_cache ... ON CONFLICT(account_id,peer_id) DO UPDATE`. -/
def insertPeer (t : MemberTables) (p : CachedPeer) : Except IntegrityError MemberTables :=
  if t.accounts p.accountId then .ok { t with peerCache := upsertPeer t.peerCache p }
  else .error .foreignKey

/-- The number of rows of a dataset. -/
def countMembers (t : MemberTables) (d : DatasetId) : ℕ :=
  (t.memberships.filter fun r => r.datasetId = d).length

/-- `UPDATE datasets SET member_count=? WHERE id=?`. -/
def setMemberCount (t : MemberTables) (d : DatasetId) (n : ℕ) : MemberTables :=
  { t with datasets := t.datasets.modify d fun r => { r with memberCount := n } }

/-! ## The operations -/

/-- `_merge_fallback_row`. -/
def mergeFallbackRow (t : MemberTables) (fallbackId canonicalId : MemberId) :
    Except IntegrityError MemberTables :=
  if fallbackId = canonicalId then .ok t
  else do
    let t ← ((t.memberships.filter fun r => r.memberId = fallbackId).map
      (Membership.withMember canonicalId)).foldlM insertMembership t
    let t ← ((t.provenance.filter fun r => r.memberId = fallbackId).map
      (Provenance.withMember canonicalId)).foldlM insertProvenance t
    t.deleteMember fallbackId

/-- The tuple `values` of `_upsert_one`. -/
def values (m : Member) : Values := { m.toValues with username := cleanUsername m.username }

/-- The statements of `_upsert_one` after the two selects, for a member with a Telegram id. -/
def upsertTelegram (t : MemberTables) (uid : ℤ) (v : Values) (existing fallback : Option Row) :
    Except IntegrityError (Option MemberId × MemberTables) :=
  match existing, fallback with
  | none, some f => do
      let t ← t.updateMember ⟨v, f.id, some uid⟩
      pure (some f.id, t)
  | _, _ => do
      let t ← t.upsertMember uid v
      match t.byTelegramId uid, fallback with
      | none, _ => pure (none, t)
      | some row, none => pure (some row.id, t)
      | some row, some f => do
          let t ← t.mergeFallbackRow f.id row.id
          pure (some row.id, t)

/-- `_upsert_one`. -/
def upsertOne (t : MemberTables) (m : Member) :
    Except IntegrityError (Option MemberId × MemberTables) :=
  match m.telegramUserId, (values m).username with
  | some uid, username =>
      t.upsertTelegram uid (values m) (t.byTelegramId uid) (username.bind t.fallbackRow)
  | none, some username =>
      match t.fallbackRow username with
      | some f => do
          let t ← t.updateMember ⟨values m, f.id, f.telegramUserId⟩
          pure (some f.id, t)
      | none => do
          let t' ← t.insertMember none (values m)
          pure (some (t.sequence + 1), t')
  | none, none => pure (none, t)

end MemberTables

/-- `IngestSummary`. -/
structure IngestSummary where
  accepted : ℕ := 0
  invalid : ℕ := 0
  localMemberIds : List MemberId := []
  deriving DecidableEq, Repr

/-- The arguments of `submit_ingest_batch` beside the members. -/
structure IngestInto where
  datasetId : DatasetId
  sourceGroupId : Option GroupId := none
  accountId : Option AccountId := none
  sourceLabel : Option String := none
  deriving DecidableEq, Repr

namespace MemberTables

/-- The statements of `submit_ingest_batch` for a member that has got its row. -/
def attach (t : MemberTables) (b : IngestInto) (id : MemberId) (m : Member) :
    Except IntegrityError MemberTables := do
  let t ← t.insertMembership ⟨b.datasetId, id, b.sourceGroupId⟩
  let t ← t.insertProvenance ⟨b.datasetId, id, none, b.sourceGroupId, b.sourceLabel⟩
  match ingestRecord b.accountId ⟨m.telegramUserId, m.accessHash⟩ with
  | some peer => t.insertPeer peer
  | none => pure t

/-- One turn of the loop of `submit_ingest_batch`. -/
def ingestOne (b : IngestInto) (s : IngestSummary × MemberTables) (m : Member) :
    Except IntegrityError (IngestSummary × MemberTables) := do
  let (id, t) ← s.2.upsertOne m
  match id with
  | none => pure ({ s.1 with invalid := s.1.invalid + 1 }, t)
  | some id =>
      let t' ← t.attach b id m
      pure
        ({ s.1 with
            accepted := s.1.accepted + (t'.memberships.length - t.memberships.length)
            localMemberIds := s.1.localMemberIds ++ [id] }, t')

/-- `operation` of `submit_ingest_batch`. -/
def submitIngestBatch (t : MemberTables) (b : IngestInto) (members : List Member) :
    Except IntegrityError (IngestSummary × MemberTables) := do
  let (summary, t) ← members.foldlM (ingestOne b) ({}, t)
  pure (summary, t.setMemberCount b.datasetId (t.countMembers b.datasetId))

end MemberTables

end Members
end MigrationStudio
