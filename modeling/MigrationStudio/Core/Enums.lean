import Mathlib.Data.Int.Notation
import Mathlib.Data.List.Defs

/-!
# `core/enums.py`, `core/errors.py` and `core/constants.py`

The enumerations, the domain error and the constants that the modelled components share.  Instants
and durations are natural numbers of microseconds, the resolution of the datetimes that the program
stores; the monotonic clock and the wall clock are one reading.
-/

namespace MigrationStudio
namespace Core

/-- One second. -/
def second : ℕ := 1000000

abbrev AccountId := ℕ
abbrev JobId := ℕ
abbrev MemberId := ℕ
abbrev GroupId := ℕ

inductive AccountState where
  | disconnected | connecting | authRequired | ready | error | disabled | busy | waitingServer
  deriving DecidableEq, Repr

inductive JobState where
  | ready | preparing | running | waitingServer | paused | rateLimited
  | completed | completedWithErrors | failed | cancelled
  deriving DecidableEq, Repr

inductive JobType where
  | scan | targetScan | migration | remove | importFile | exportFile
  deriving DecidableEq, Repr

inductive MigrationItemState where
  | ready | retry | success | skipped | failed
  deriving DecidableEq, Repr

inductive InviteResultCode where
  | rateLimit | rateLimitIndefinite | privacy | alreadyMember | notEligible | permission | auth
  | invalidUser | networkTransient | serverTransient | unknown
  deriving DecidableEq, Repr

inductive TargetCoverage where
  | complete | partly | unavailable
  deriving DecidableEq, Repr

/-- What a migration job does to its candidates; `MigrationExecutor` refuses any other text. -/
inductive Action where
  | invite | remove
  deriving DecidableEq, Repr

namespace JobState

/-- The states after which a job is over. -/
def terminal : JobState → Bool
  | completed | completedWithErrors | failed | cancelled => true
  | _ => false

end JobState

namespace MigrationItemState

/-- The states that `pending_chunk` selects. -/
def pending : MigrationItemState → Bool
  | ready | retry => true
  | success | skipped | failed => false

end MigrationItemState

/-- `DomainError`: the code that `ErrorMapper.map` gave an exception, its text and, for a rate
limit, the seconds to wait. -/
structure DomainError where
  code : InviteResultCode
  message : String
  waitSeconds : Option ℕ
  deriving DecidableEq, Repr

/-! ## Constants -/

def MIN_INVITE_INTERVAL : ℕ := 3 * second
def MAX_INVITE_INTERVAL : ℕ := 10 * second
def RECOVERY_INVITE_INTERVAL : ℕ := 10 * second
def CANDIDATE_PREFETCH_MIN : ℕ := 100
def CANDIDATE_PREFETCH_MAX : ℕ := 500
def SCAN_DB_BATCH_SIZE : ℕ := 250
def SCAN_PAGE_QUEUE_MAX : ℕ := 4
def MIGRATION_DB_BATCH_SIZE : ℕ := 20
def MIGRATION_DB_MAX_FLUSH : ℕ := second
def TRANSIENT_RETRY_DELAYS : List ℕ := [second, 2 * second, 4 * second]

end Core
end MigrationStudio
