import Mathlib.Data.List.Sort
import EndlessFS.Lib.Fallible
import EndlessFS.Lib.Versioned
import EndlessFS.Format.Domain

/-!
# EndlessFS.Identity.Programs

Accounts, administrators and sessions (`auth/session.go`, `identity/repository.go`, `identity/admin.go`, and
the parts of `identity/service.go`, `identity/registration.go` and `httpapi/identity.go` that issue sessions
or change accounts).

* `identityMachine`: the identity records under a transactional store that is assumed atomic. Every read
  and every transaction is one operation; any other replica may act in between.
* `log` is ghost state: each transaction that was committed, with the records before it.
* `DisableUser`, `EnableUser`, `GrantAdmin`, `RevokeAdmin`, `Authenticate`, `Rotate` and the ceremonies are
  programs over it.
-/

namespace EndlessFS.Identity

open Conc (Prog Versioned CellChange Fallible ask attempted withError)

abbrev UserID := String

/-! ## Records -/

inductive AccountStatus where
  | accountEnabled
  | accountDisabled
  deriving DecidableEq, Repr

structure Account where
  status : AccountStatus
  authEpoch : Nat
  deriving DecidableEq, Repr

structure Token where
  owner : UserID
  secret : Nat
  deriving DecidableEq, Repr

structure Session where
  userID : UserID
  authEpoch : Nat
  expiresAt : Time
  deriving DecidableEq, Repr

inductive CeremonyFlow where
  | authentication
  | addPasskey
  | recovery
  deriving DecidableEq, Repr

/-- `consumed` is set with the operation that the ceremony ended in; that of an authentication derives the
session token, which stands for it here. -/
structure Ceremony where
  flow : CeremonyFlow
  userID : Option UserID
  bearer : String := ""
  expiresAt : Time
  consumed : Bool := false
  token : Option Token := none
  deriving DecidableEq, Repr

structure Recovery where
  used : Bool := false
  revoked : Bool := false
  expiresAt : Time
  deriving DecidableEq, Repr

inductive IdentityKey where
  | account (userID : UserID)
  | adminRoles
  | session (token : Token)
  | ceremony (ceremonyID : String)
  | credential (userID : UserID) (credentialID : String)
  | recovery (userID : UserID) (tokenHash : String)
  deriving DecidableEq, Repr

@[reducible] def IdentityRecord : IdentityKey → Type
  | .account _ => Account
  | .adminRoles => List UserID
  | .session _ => Session
  | .ceremony _ => Ceremony
  | .credential _ _ => Nat
  | .recovery _ _ => Recovery

abbrev Records := Versioned IdentityKey IdentityRecord

abbrev RecordChange := CellChange IdentityKey IdentityRecord

/-! ## The machine -/

inductive AdminAction where
  | disable
  | enable
  | grant
  | revoke
  deriving DecidableEq, Repr

/-- Which transaction of the source commits. -/
inductive CommitLabel where
  | admin (action : AdminAction) (actor target : UserID)
  | revokeSessions (userID : UserID)
  | registration (userID : UserID)
  | authentication (token : Token)
  | rotation (old new : Token)
  | logout (token : Token)
  deriving DecidableEq, Repr

structure Commit where
  before : Records
  label : CommitLabel
  changes : List RecordChange

structure IdentityState where
  records : Records
  now : Time
  log : List Commit

/-- Where an account is read: by `Rotate`, for a session of the given epoch, or elsewhere. -/
inductive ReadSite where
  | plain
  | rotation (authEpoch : Nat)
  deriving DecidableEq, Repr

inductive IdentityOp where
  | get (site : ReadSite) (key : IdentityKey)
  | sessionAndAccount (token : Token)
  | transact (label : CommitLabel) (changes : List RecordChange)
  | bearerToken
  | now

/-- A missing record is `ok none`. -/
@[reducible] def IdentityOp.Reply : IdentityOp → Type
  | .get _ key => Except Error (Option (Nat × IdentityRecord key))
  | .sessionAndAccount _ => Except Error (Option ((Nat × Session) × (Nat × Account)))
  | .transact _ _ => Except Error Unit
  | .bearerToken => Nat
  | .now => Time

/-- What happens to a request: it or its response is lost, or a retained outcome of the same transaction is
reported without applying it again. -/
inductive Delivery where
  | done
  | dropRequest
  | dropResponse
  | replayed
  deriving DecidableEq, Repr

/-- `secret` is the random token if one is drawn. -/
structure IdentityChoice where
  delivery : Delivery
  secret : Nat

def lostRequest : Error := newError .unavailable "state request failed"
def notFound : Error := newError .notFound "state record does not exist"
def changed : Error := newError .preconditionFailed "state record version does not match"

namespace IdentityState

/-- `SessionAndAccount`: both records from one snapshot. -/
def lookupSession (records : Records) (token : Token) : Option ((Nat × Session) × (Nat × Account)) := do
  let session ← records.cell (.session token)
  let account ← records.cell (.account token.owner)
  pure (session, account)

def commit (s : IdentityState) (label : CommitLabel) (changes : List RecordChange) : IdentityState :=
  { s with records := s.records.commit changes, log := { before := s.records, label, changes } :: s.log }

def transact (delivery : Delivery) (s : IdentityState) (label : CommitLabel) (changes : List RecordChange) :
    IdentityState × Except Error Unit :=
  match delivery, s.records.admits changes with
  | .dropRequest, _ => (s, .error lostRequest)
  | .replayed, _ => (s, .ok ())
  | _, false => (s, .error changed)
  | .dropResponse, true => (s.commit label changes, .error lostRequest)
  | .done, true => (s.commit label changes, .ok ())

def exec (c : IdentityChoice) (s : IdentityState) : (o : IdentityOp) → IdentityState × o.Reply
  | .get _ key => (s, if c.delivery = .done then .ok (s.records.cell key) else .error lostRequest)
  | .sessionAndAccount token =>
    (s, if c.delivery = .done then .ok (lookupSession s.records token) else .error lostRequest)
  | .transact label changes => s.transact c.delivery label changes
  | .bearerToken => (s, c.secret)
  | .now => (s, s.now)

theorem transact_le (delivery : Delivery) (s : IdentityState) (label : CommitLabel) (changes : List RecordChange) :
    s.records.Le (s.transact delivery label changes).1.records := by
  cases delivery <;> cases hadmits : s.records.admits changes <;>
    simp only [transact, hadmits, commit, Versioned.Le.refl, Versioned.le_commit]

theorem exec_le (c : IdentityChoice) (s : IdentityState) (o : IdentityOp) : s.records.Le (exec c s o).1.records := by
  cases o with
  | transact label changes => exact transact_le c.delivery s label changes
  | get _ _ => exact .refl _
  | sessionAndAccount _ => exact .refl _
  | bearerToken => exact .refl _
  | now => exact .refl _

end IdentityState

def identityMachine : Conc.Machine where
  State := IdentityState
  Op := IdentityOp
  Reply := IdentityOp.Reply
  Choice := IdentityChoice
  Drift := Nat
  exec := IdentityState.exec
  drift seconds s := { s with now := s.now + seconds }
  le s t := s.records.Le t.records
  le_refl s := .refl s.records
  le_trans h h' := h.trans h'
  exec_le := IdentityState.exec_le
  drift_le _ s := .refl s.records

abbrev Request (α : Type) := Fallible identityMachine Error α

/-! ## Store calls -/

def requireRecord {α : Type} : Except Error (Option α) → Except Error α
  | .ok (some x) => .ok x
  | .ok none => .error notFound
  | .error e => .error e

def getAt (site : ReadSite) (key : IdentityKey) : Request (Nat × IdentityRecord key) :=
  ask (M := identityMachine) (.get site key) requireRecord

/-- `getRecord`: the record and its version. -/
def getRecord (key : IdentityKey) : Request (Nat × IdentityRecord key) := getAt .plain key

def transact (label : CommitLabel) (changes : List RecordChange) : Request Unit :=
  ask (M := identityMachine) (.transact label changes) id

def clockNow : Request Time := ask (M := identityMachine) .now .ok

/-- `ids.BearerToken`, scoped to the user. -/
def bearerToken (owner : UserID) : Request Token :=
  ask (M := identityMachine) .bearerToken fun secret => .ok { owner, secret }

def setRecord (key : IdentityKey) (version : Nat) (record : IdentityRecord key) : RecordChange :=
  { key, require := some version, value := some record }

def createRecord (key : IdentityKey) (record : IdentityRecord key) : RecordChange :=
  { key, require := none, value := some record }

def deleteRecord (key : IdentityKey) (version : Nat) : RecordChange := { key, require := some version, value := none }

/-! ## Administrators -/

def effectiveAuthEpoch (value : Nat) : Nat := if value = 0 then 1 else value

def advanceAuthEpoch (account : Account) : Except Error Account := do
  rejectIf (account.authEpoch = maxUint64) (newError .invalid "account authentication epoch is exhausted")
  pure { account with authEpoch := effectiveAuthEpoch account.authEpoch + 1 }

/-- `EncodeJSON` of the role list: `AdminRoles.Validate` checks and sorts it. -/
def encodeRoles (userIDs : List UserID) : Except Error (List UserID) := do
  rejectIf userIDs.isEmpty (newError .invalid "at least one administrator is required")
  rejectIf (userIDs.any fun userID => userID = "") (newError .invalid "invalid administrator user ID")
  rejectIf (¬userIDs.Nodup) (newError .invalid "duplicate administrator user ID")
  pure (userIDs.insertionSort fun left right => left ≤ right)

/-- `adminAuthoritySnapshot`. -/
structure AdminAuthority where
  roles : List UserID
  rolesVersion : Nat
  account : Account
  accountVersion : Nat

def accessRequired : Error := newError .unauthorized "administrator access required"

def adminAuthoritySnapshot (actor : UserID) : Request AdminAuthority := do
  let account ← withError accessRequired (getRecord (.account actor))
  liftM (rejectIf (account.2.status ≠ .accountEnabled) accessRequired)
  let roles ← withError accessRequired (getRecord .adminRoles)
  liftM (rejectIf (actor ∉ roles.2) accessRequired)
  pure { roles := roles.2, rolesVersion := roles.1, account := account.2, accountVersion := account.1 }

def enabledAdminCount : List UserID → Request Nat
  | [] => pure 0
  | userID :: rest => do
    let account ← withError (newError .invalid "administrator role references a missing account")
      (getRecord (.account userID))
    let enabled ← enabledAdminCount rest
    pure (if account.2.status = .accountEnabled then enabled + 1 else enabled)

def withoutUserID (values : List UserID) (target : UserID) : List UserID := values.filter (· ≠ target)

/-- The changes of `commitAdminAccountMutation`: the roles, the target, and the actor as a guard. -/
def adminChanges (actor target : UserID) (authority : AdminAuthority) (roles : List UserID) (account : Account)
    (version : Nat) : List RecordChange :=
  [setRecord .adminRoles authority.rolesVersion roles, setRecord (.account target) version account] ++
    if actor = target then [] else [setRecord (.account actor) authority.accountVersion authority.account]

def commitAdminAccountMutation (action : AdminAction) (actor target : UserID) (authority : AdminAuthority)
    (roles : List UserID) (account : Account) (version : Nat) : Request Unit := do
  let encoded ← liftM (encodeRoles roles)
  transact (.admin action actor target) (adminChanges actor target authority encoded account version)

def retrying (retry : Error → Bool) (message : String) (attempt : Request (Except Error Unit)) : Nat → Request Unit
  | 0 => throw (newError .conflict message)
  | attempts + 1 => do
    match ← attempt with
    | .ok () => pure ()
    | .error e => if retry e then retrying retry message attempt attempts else throw e

def finalAdministrator : Error :=
  newError .preconditionFailed "the final enabled administrator cannot be removed"

def rolesWithout (roles : List UserID) (target : UserID) : Request (List UserID) := do
  let enabledAdmins ← enabledAdminCount roles
  liftM (rejectIf (enabledAdmins ≤ 1) finalAdministrator)
  pure (withoutUserID roles target)

def disableAccount (account : Account) : Except Error Account :=
  if account.status = .accountDisabled then .ok account
  else advanceAuthEpoch { account with status := .accountDisabled }

def rolesWithoutDisabled (roles : List UserID) (target : UserID) : Request (List UserID) :=
  if target ∈ roles then rolesWithout roles target else pure roles

def disableAttempt (actor target : UserID) : Request (Except Error Unit) := do
  let authority ← adminAuthoritySnapshot actor
  let account ← getRecord (.account target)
  if account.2.status = .accountDisabled ∧ target ∉ authority.roles then pure (.ok ())
  else
    let roles ← rolesWithoutDisabled authority.roles target
    let disabled ← liftM (disableAccount account.2)
    attempted (commitAdminAccountMutation .disable actor target authority roles disabled account.1)

def disableUser (actor target : UserID) : Request Unit :=
  retrying Error.isRace "account changed concurrently" (disableAttempt actor target) 8

def enableAttempt (actor target : UserID) : Request (Except Error Unit) := do
  let authority ← adminAuthoritySnapshot actor
  let account ← getRecord (.account target)
  if account.2.status = .accountEnabled then pure (.ok ())
  else attempted (commitAdminAccountMutation .enable actor target authority authority.roles
    { account.2 with status := .accountEnabled } account.1)

def enableUser (actor target : UserID) : Request Unit :=
  retrying Error.isRace "account changed concurrently" (enableAttempt actor target) 8

def onlyEnabled : Error := newError .preconditionFailed "only enabled users can become administrators"

def grantAttempt (actor target : UserID) : Request (Except Error Unit) := do
  let authority ← adminAuthoritySnapshot actor
  let account ← withError onlyEnabled (getRecord (.account target))
  liftM (rejectIf (account.2.status ≠ .accountEnabled) onlyEnabled)
  if target ∈ authority.roles then pure (.ok ())
  else
    let advanced ← liftM (advanceAuthEpoch account.2)
    attempted (commitAdminAccountMutation .grant actor target authority (authority.roles ++ [target]) advanced
      account.1)

def grantAdmin (actor target : UserID) : Request Unit :=
  retrying Error.isRace "administrator roles changed concurrently" (grantAttempt actor target) 8

def revokeAttempt (actor target : UserID) : Request (Except Error Unit) := do
  let authority ← adminAuthoritySnapshot actor
  if target ∉ authority.roles then pure (.ok ())
  else
    let roles ← rolesWithout authority.roles target
    let account ← getRecord (.account target)
    let advanced ← liftM (advanceAuthEpoch account.2)
    attempted (commitAdminAccountMutation .revoke actor target authority roles advanced account.1)

def revokeAdmin (actor target : UserID) : Request Unit :=
  retrying Error.isRace "administrator roles changed concurrently" (revokeAttempt actor target) 8

/-! ## Sessions -/

def sessionTTL : Time := 7 * 24 * 60 * 60

structure AuthenticatedSession where
  token : Token
  record : Session
  version : Nat

def invalidSession : Error := newError .unauthenticated "invalid session"

/-- The checks of `Authenticate` on what was found for a token. -/
def checkSession (now : Time) (token : Token) (found : Option ((Nat × Session) × (Nat × Account))) :
    Except Error AuthenticatedSession :=
  match found with
  | none => .error invalidSession
  | some (session, account) => do
    rejectIf (session.2.userID ≠ token.owner) invalidSession
    rejectIf (session.2.expiresAt ≤ now) (newError .unauthenticated "expired session")
    rejectIf (account.2.status ≠ .accountEnabled ||
      effectiveAuthEpoch account.2.authEpoch ≠ effectiveAuthEpoch session.2.authEpoch) invalidSession
    pure { token, record := session.2, version := session.1 }

def authenticate (token : Token) : Request AuthenticatedSession := do
  let found ← withError invalidSession (ask (M := identityMachine) (.sessionAndAccount token) id)
  let now ← clockNow
  liftM (checkSession now token found)

/-- `prepare`: a new session of the account's epoch. -/
def prepare (current : Session) : Request (Token × Session) := do
  let unavailable := newError .unauthenticated "account is unavailable"
  let account ← withError unavailable (getAt (.rotation current.authEpoch) (.account current.userID))
  liftM (rejectIf (account.2.status ≠ .accountEnabled) unavailable)
  let token ← bearerToken current.userID
  let now ← clockNow
  pure (token, { userID := current.userID, authEpoch := effectiveAuthEpoch account.2.authEpoch,
                 expiresAt := now + sessionTTL })

def rotate (current : AuthenticatedSession) : Request Token := do
  let issued ← prepare current.record
  withError (newError .unauthenticated "session rotation failed")
    (transact (.rotation current.token issued.1)
      [deleteRecord (.session current.token) current.version, createRecord (.session issued.1) issued.2])
  pure issued.1

/-- The outcome of a delete that `Logout` reports. -/
def ignoreMissing : Except Error Unit → Except Error Unit
  | .ok () => .ok ()
  | .error e => rejectIf (e.kind ≠ .notFound && e.kind ≠ .preconditionFailed) e

def logout (token : Token) : Request Unit := do
  let current ← authenticate token
  let outcome ← attempted (transact (.logout token) [deleteRecord (.session token) current.version])
  liftM (ignoreMissing outcome)

def revokeSessionsAttempt (userID : UserID) : Request (Except Error Unit) := do
  let account ← getRecord (.account userID)
  let advanced ← liftM (advanceAuthEpoch account.2)
  attempted (transact (.revokeSessions userID) [setRecord (.account userID) account.1 advanced])

def revokeUserSessions (userID : UserID) : Request Unit :=
  retrying (fun e => e.kind = .preconditionFailed) "account changed concurrently" (revokeSessionsAttempt userID) 8

/-! ## Ceremonies -/

def loadCeremony (authentication : Bool) (ceremonyID : String) : Request (Nat × Ceremony) := do
  let invalid := newError .unauthenticated "invalid ceremony"
  let ceremony ← withError invalid (getRecord (.ceremony ceremonyID))
  liftM (rejectIf (decide (ceremony.2.flow = .authentication) ≠ authentication) invalid)
  let now ← clockNow
  liftM (rejectIf (!ceremony.2.consumed && ceremony.2.expiresAt ≤ now) invalid)
  pure ceremony

def inactiveOutcome : Error := newError .unauthenticated "authentication outcome is no longer active"

/-- `resumeAuthentication`: the token once more, if its session is still stored. -/
def resumeAuthentication (ceremony : Ceremony) : Request Token :=
  match ceremony.token with
  | none => throw (newError .invalid "committed authentication ceremony is incomplete")
  | some token => do
    let _ ← withError inactiveOutcome (getRecord (.session token))
    pure token

/-- `VerifyAuthentication`; `assertion` is the user and credential that WebAuthn verified, if it did. -/
def verifyAuthentication (ceremonyID : String) (assertion : Option (UserID × String)) : Request Token := do
  let ceremony ← loadCeremony true ceremonyID
  if ceremony.2.consumed then resumeAuthentication ceremony.2
  else
    let failed := newError .unauthenticated "authentication failed"
    match assertion with
    | none => throw failed
    | some (userID, credentialID) => do
      let now ← clockNow
      let token ← bearerToken userID
      let account ← withError failed (getRecord (.account userID))
      liftM (rejectIf (account.2.status ≠ .accountEnabled) failed)
      let credential ← withError failed (getRecord (.credential userID credentialID))
      let session : Session :=
        { userID, authEpoch := effectiveAuthEpoch account.2.authEpoch, expiresAt := now + sessionTTL }
      transact (.authentication token)
        [setRecord (.ceremony ceremonyID) ceremony.1
            { ceremony.2 with consumed := true, token := some token, userID := some userID },
          setRecord (.credential userID credentialID) credential.1 (credential.2 + 1),
          setRecord (.account userID) account.1 account.2,
          createRecord (.session token) session]
      pure token

def recoveryUsable (now : Time) (recovery : Recovery) : Bool :=
  !recovery.used && !recovery.revoked && now < recovery.expiresAt

/-- What a registration ceremony of a flow changes beside the ceremony and the credential: a recovery is used
up and the account's epoch advances; an added passkey guards the account by writing it unchanged. -/
def registrationChanges (flow : CeremonyFlow) (userID : UserID) (bearer : String) (now : Time) :
    Request (List RecordChange) := do
  let unavailable := newError .unauthorized "account is unavailable"
  match flow with
  | .recovery => do
    let recovery ← withError (newError .unavailable "recovery is unavailable") (getRecord (.recovery userID bearer))
    liftM (rejectIf (!recoveryUsable now recovery.2) (newError .unavailable "recovery is unavailable"))
    let account ← withError unavailable (getRecord (.account userID))
    liftM (rejectIf (account.2.status ≠ .accountEnabled) unavailable)
    let advanced ← liftM (advanceAuthEpoch account.2)
    pure [setRecord (.recovery userID bearer) recovery.1 { recovery.2 with used := true },
      setRecord (.account userID) account.1 advanced]
  | .addPasskey => do
    let account ← withError unavailable (getRecord (.account userID))
    liftM (rejectIf (account.2.status ≠ .accountEnabled) unavailable)
    pure [setRecord (.account userID) account.1 account.2]
  | .authentication => throw (newError .invalid "unsupported registration operation")

/-- What `VerifyRegistration` reports of a completed registration. -/
structure RegistrationComplete where
  flow : CeremonyFlow
  userID : UserID
  deriving DecidableEq, Repr

/-- `VerifyRegistration` of the flows for existing users; `verified` is the credential that WebAuthn verified,
if it did. -/
def verifyRegistration (ceremonyID : String) (verified : Option String) : Request RegistrationComplete := do
  let ceremony ← loadCeremony false ceremonyID
  match ceremony.2.userID with
  | none => throw (newError .invalid "registration ceremony has no user")
  | some userID =>
    if ceremony.2.consumed then pure { flow := ceremony.2.flow, userID }
    else
      match verified with
      | none => throw (newError .unauthenticated "registration failed")
      | some credentialID => do
        let now ← clockNow
        let changes ← registrationChanges ceremony.2.flow userID ceremony.2.bearer now
        transact (.registration userID)
          ([setRecord (.ceremony ceremonyID) ceremony.1 { ceremony.2 with consumed := true },
            createRecord (.credential userID credentialID) 0] ++ changes)
        pure { flow := ceremony.2.flow, userID }

/-- `passkeyVerify`: the request is authenticated, the passkey registered, and the session rotated. -/
def passkeyVerify (token : Token) (ceremonyID : String) (verified : Option String) : Request Token := do
  let current ← authenticate token
  let complete ← verifyRegistration ceremonyID verified
  liftM (rejectIf (complete.flow ≠ .addPasskey || complete.userID ≠ current.record.userID)
    (newError .unauthorized "passkey ceremony owner mismatch"))
  rotate current

/-! ## Calls -/

inductive IdentityCall where
  | authenticate (token : Token)
  | passkeyVerify (token : Token) (ceremonyID : String) (verified : Option String)
  | verifyRegistration (ceremonyID : String) (verified : Option String)
  | verifyAuthentication (ceremonyID : String) (assertion : Option (UserID × String))
  | logout (token : Token)
  | revokeUserSessions (userID : UserID)
  | disableUser (actor target : UserID)
  | enableUser (actor target : UserID)
  | grantAdmin (actor target : UserID)
  | revokeAdmin (actor target : UserID)

@[reducible] def IdentityCall.Res : IdentityCall → Type
  | .authenticate _ => Except Error AuthenticatedSession
  | .passkeyVerify _ _ _ => Except Error Token
  | .verifyRegistration _ _ => Except Error RegistrationComplete
  | .verifyAuthentication _ _ => Except Error Token
  | _ => Except Error Unit

def IdentityCall.body : (call : IdentityCall) → Prog identityMachine call.Res
  | .authenticate token => Identity.authenticate token
  | .passkeyVerify token ceremonyID verified => Identity.passkeyVerify token ceremonyID verified
  | .verifyRegistration ceremonyID verified => Identity.verifyRegistration ceremonyID verified
  | .verifyAuthentication ceremonyID assertion => Identity.verifyAuthentication ceremonyID assertion
  | .logout token => Identity.logout token
  | .revokeUserSessions userID => Identity.revokeUserSessions userID
  | .disableUser actor target => Identity.disableUser actor target
  | .enableUser actor target => Identity.enableUser actor target
  | .grantAdmin actor target => Identity.grantAdmin actor target
  | .revokeAdmin actor target => Identity.revokeAdmin actor target

theorem reject {M : Conc.Machine} {β : Type} {I : M.State → Prop} {ok : M.State → M.Choice → M.Op → Prop}
    {ψ : M.State → β → Prop} {s : M.State} {rejected : Bool} {e : Error} {f : Unit → Fallible M Error β}
    (h : rejected = false → Conc.Yields I ok ψ (f ()) s) : Conc.Yields I ok ψ (liftM (rejectIf rejected e) >>= f) s :=
  .except_bind fun _ hx => h (rejectIf_eq_ok_iff.mp hx)

end EndlessFS.Identity
