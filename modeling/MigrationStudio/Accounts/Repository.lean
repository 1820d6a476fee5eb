import MigrationStudio.Core.Enums

/-!
# `accounts/repository.py` and `accounts/v12_repository.py`

The account row as the executor and the command handlers see it: whether it is enabled, the state
that `submit_set_state` writes with the two columns that version 1.2 derives from it, and the
restrictions that `submit_restriction` records.
-/

namespace MigrationStudio
namespace Accounts

open MigrationStudio.Core

inductive ConnectionState where
  | disconnected | connecting | authRequired | ready | error | disabled
  deriving DecidableEq, Repr

inductive OperationState where
  | idle | running | waitingServer | paused
  deriving DecidableEq, Repr

/-- A row of `accounts` without its identity columns. -/
structure Account where
  enabled : Bool
  status : AccountState
  connectionState : ConnectionState
  operationState : OperationState
  lastError : Option String
  deriving DecidableEq, Repr

/-- A row of `account_restrictions` that is not cleared. -/
structure Restriction where
  accountId : AccountId
  actionType : Action
  restrictionType : InviteResultCode
  rpcCode : ℕ
  exceptionName : String
  requestType : String
  deriving DecidableEq, Repr

/-- `V12AccountRepository._split`. -/
def split : AccountState → ConnectionState × OperationState
  | .connecting => (.connecting, .idle)
  | .authRequired => (.authRequired, .idle)
  | .disabled => (.disabled, .idle)
  | .disconnected => (.disconnected, .idle)
  | .busy => (.ready, .running)
  | .waitingServer => (.ready, .waitingServer)
  | .error => (.error, .paused)
  | .ready => (.ready, .idle)

/-- The statement of `V12AccountRepository.submit_set_state`. -/
def Account.setState (a : Account) (state : AccountState) (error : Option String) : Account :=
  { a with
    status := state
    connectionState := (split state).1
    operationState := (split state).2
    lastError := error }

/-- The statement of `submit_enable`, which version 1.2 does not override. -/
def Account.setEnabled (a : Account) (enabled : Bool) : Account :=
  { a with
    enabled := enabled
    status := if enabled then .disconnected else .disabled }

/-- The statement of `submit_update_identity`, without the identity columns. -/
def Account.signedIn (a : Account) : Account := { a with status := .ready, lastError := none }

/-- `submit_restriction`: the open row of the account, action and type is refreshed, or a new one
inserted. -/
def submitRestriction (rows : List Restriction) (r : Restriction) : List Restriction :=
  if rows.any fun q =>
      q.accountId == r.accountId && q.actionType == r.actionType &&
        q.restrictionType == r.restrictionType then
    rows.map fun q =>
      if q.accountId = r.accountId ∧ q.actionType = r.actionType ∧
          q.restrictionType = r.restrictionType then r else q
  else rows ++ [r]

/-- The restriction that `V12MigrationExecutor._attempt` records. -/
def indefiniteRestriction (accountId : AccountId) (action : Action) : Restriction where
  accountId := accountId
  actionType := action
  restrictionType := .rateLimitIndefinite
  rpcCode := 420
  exceptionName := "RateLimit"
  requestType :=
    match action with
    | .invite => "InviteToChannelRequest"
    | .remove => "EditBannedRequest"

end Accounts
end MigrationStudio
