import Mathlib.Data.List.Basic
import MigrationStudio.Core.Enums

/-!
# `members/models.py` and `members/normalizer.py`

A `Member` is what a scan or an import knows of a person: the Telegram id, the columns of
`members` that an upsert overwrites, and the access hash of the account that saw the person.
-/

namespace MigrationStudio
namespace Members

/-- The columns of `members` that `_upsert_one` writes together, its tuple `values`. -/
structure Values where
  username : Option String := none
  firstName : Option String := none
  lastName : Option String := none
  phone : Option String := none
  bot : Bool := false
  deleted : Bool := false
  activityStatus : Option String := none
  lastSeen : Option String := none
  deriving DecidableEq, Repr

/-- `Member`. -/
structure Member extends Values where
  telegramUserId : Option ℤ
  accessHash : Option ℤ := none
  deriving DecidableEq, Repr

/-- The status of a Telegram user: the name of its type and, if it has one, the instant. -/
structure UserStatus where
  typeName : String
  wasOnline : Option String
  deriving DecidableEq, Repr

/-- A user of a reply of the server; an attribute that is missing is `none`. -/
structure RawUser where
  id : Option ℤ
  username : Option String := none
  firstName : Option String := none
  lastName : Option String := none
  phone : Option String := none
  bot : Option Bool := none
  deleted : Option Bool := none
  status : Option UserStatus := none
  accessHash : Option ℤ := none
  deriving DecidableEq, Repr

/-- `normalize_member`. -/
def normalizeMember (raw : RawUser) : Member where
  telegramUserId := raw.id
  username := raw.username
  firstName := raw.firstName
  lastName := raw.lastName
  phone := raw.phone
  bot := raw.bot.getD false
  deleted := raw.deleted.getD false
  activityStatus := raw.status.map UserStatus.typeName
  lastSeen := raw.status.bind UserStatus.wasOnline
  accessHash := raw.accessHash

end Members
end MigrationStudio
