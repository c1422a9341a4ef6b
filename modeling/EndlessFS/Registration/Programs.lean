import EndlessFS.Lib.Ledger
import EndlessFS.Identity.Programs

/-!
# EndlessFS.Registration.Programs

Registration, authentication and the tokens they consume (`identity/registration.go`, `identity/service.go`,
the parts of `identity/repository.go` they commit through, and the invites and recoveries of
`identity/admin.go`).

* The store is a `Ledger`: transactions are assumed atomic, requests and responses may be lost. All replicas
  read one clock.
* A key names what the source hashes into it (a ceremony, a credential), so that hashes do not collide.
* `foreign`: what the other services do to these records; they replace roles, accounts and profiles that
  exist, and create and delete sessions.
* Operations are only stored as committed, so that resuming one never finds it claimed.
-/

namespace EndlessFS.Registration

open Conc (Fallible Reading CellChange ask attempted withError Outcome)
open Identity (UserID AccountStatus encodeRoles lostRequest notFound accessRequired)

/-! ## Records -/

structure Account extends Identity.Account where
  userID : UserID
  deriving DecidableEq, Repr

structure Profile where
  userID : UserID
  displayName : String
  deriving DecidableEq, Repr

structure Credential where
  credentialID : String
  userID : UserID
  publicKey : String
  signCount : Nat
  backupEligible : Option Bool := none
  backupState : Option Bool := none
  label : Option String := none
  createdAt : Time := 0
  lastUsedAt : Time := 0
  deriving DecidableEq, Repr

structure CredentialIndex where
  userID : UserID
  credentialIDs : List String
  deriving DecidableEq, Repr

inductive CeremonyType where
  | ceremonyRegistration
  | ceremonyAuthentication
  deriving DecidableEq, Repr

inductive CeremonyFlow where
  | ceremonyBootstrap
  | ceremonyPublic
  | ceremonyInvite
  | ceremonyAuthenticationFlow
  | ceremonyAddPasskey
  | ceremonyRecovery
  deriving DecidableEq, Repr

structure CeremonyID where
  owner : Option UserID
  secret : String
  deriving DecidableEq, Repr

structure Ceremony where
  ceremonyID : CeremonyID
  type : CeremonyType
  flow : CeremonyFlow
  browserBindingHash : String
  userID : Option UserID := none
  displayName : Option String := none
  credentialLabel : Option String := none
  bearerTokenHash : String := ""
  librarySession : String
  expiresAt : Time
  consumedAt : Option Time := none
  operationID : String := ""
  deriving DecidableEq, Repr

inductive OperationStatus where
  | operationClaimed
  | operationCommitted
  deriving DecidableEq, Repr

structure RegistrationOperation where
  operationID : String
  flow : CeremonyFlow
  status : OperationStatus
  userID : UserID
  displayName : String
  credential : Credential
  createdAt : Time
  committedAt : Option Time := none
  deriving DecidableEq, Repr

structure AuthenticationOperation where
  operationID : String
  userID : UserID
  credentialID : String
  authEpoch : Nat
  createdAt : Time
  deriving DecidableEq, Repr

structure BootstrapState where
  operation : RegistrationOperation
  completedAt : Option Time
  deriving DecidableEq, Repr

structure FirstAccountMarker where
  flow : CeremonyFlow
  operationID : String
  userID : UserID
  createdAt : Time
  deriving DecidableEq, Repr

structure Session where
  userID : UserID
  authEpoch : Nat
  createdAt : Time
  credentialID : String
  deriving DecidableEq, Repr

structure Invite where
  inviteID : String
  tokenHash : String
  createdByUserID : UserID
  expiresAt : Option Time
  uses : Nat := 0
  usedAt : Option Time := none
  usedByUserID : Option UserID := none
  revokedAt : Option Time := none
  operationID : String := ""
  deriving DecidableEq, Repr

structure Recovery where
  recoveryID : String
  tokenHash : String
  targetUserID : UserID
  createdByUserID : UserID
  expiresAt : Time
  usedAt : Option Time := none
  revokedAt : Option Time := none
  operationID : String := ""
  deriving DecidableEq, Repr

/-- The kind of an idempotency record and the resource it retains. -/
inductive Resource where
  | invite (record : Invite)
  | recovery (record : Recovery)
  deriving DecidableEq, Repr

structure IdempotencyRecord where
  fingerprint : String
  resourceID : String
  resource : Resource
  deriving DecidableEq, Repr

inductive Key where
  | firstAccount
  | bootstrap
  | adminRoles
  | profile (userID : UserID)
  | account (userID : UserID)
  | credential (userID : UserID) (credentialID : String)
  | credentialIndex (userID : UserID)
  | ceremony (owner : Option UserID) (ceremonyID : CeremonyID)
  | operation (userID : UserID) (operationID : String)
  | authenticationOperation (userID : UserID) (operationID : String)
  | session (userID : UserID) (operationID : String)
  | invite (tokenHash : String)
  | recovery (userID : UserID) (tokenHash : String)
  | idempotency (userID : UserID) (keyHash : String)
  deriving DecidableEq, Repr

@[reducible] def Record : Key → Type
  | .firstAccount => FirstAccountMarker
  | .bootstrap => BootstrapState
  | .adminRoles => List UserID
  | .profile _ => Profile
  | .account _ => Account
  | .credential _ _ => Credential
  | .credentialIndex _ => CredentialIndex
  | .ceremony _ _ => Ceremony
  | .operation _ _ => RegistrationOperation
  | .authenticationOperation _ _ => AuthenticationOperation
  | .session _ _ => Session
  | .invite _ => Invite
  | .recovery _ _ => Recovery
  | .idempotency _ _ => IdempotencyRecord

abbrev Records := Conc.Versioned Key Record

abbrev RecordChange := CellChange Key Record

/-- Which transaction of the source commits; of a registration, when the invite or recovery it consumes was
read. -/
inductive Label where
  | startCeremony
  | labelCeremony
  | registration (flow : CeremonyFlow) (snapshot : Option Time)
  | authentication
  | removeCredential
  | createInvite
  | revokeInvite
  | createRecovery
  deriving DecidableEq, Repr

abbrev Entry := Conc.LedgerEntry Key Record Label

abbrev State := Conc.Ledger Key Record Label

def foreignChange (change : RecordChange) : Bool :=
  match change.key with
  | .adminRoles | .profile _ | .account _ => change.require.isSome && change.value.isSome
  | .session _ _ => true
  | _ => false

def foreign (changes : List RecordChange) : Bool := changes.all foreignChange

abbrev machine : Conc.Machine := Conc.ledgerMachine Key Record Label foreign

abbrev Request (α : Type) := Fallible machine Error α

/-! ## Store calls -/

/-- A record, or `none` if it does not exist. -/
def lookup (key : Key) : Request (Option (Reading (Record key))) :=
  ask (M := machine) (.get 0 key) fun reply => match reply with
    | none => .error lostRequest
    | some found => .ok found

def getRecord (key : Key) : Request (Reading (Record key)) :=
  ask (M := machine) (.get 0 key) fun reply => match reply with
    | none => .error lostRequest
    | some none => .error notFound
    | some (some found) => .ok found

/-- `refused` is the error of a requirement that does not hold. -/
def transact (refused : Error) (label : Label) (changes : List RecordChange) : Request Unit :=
  ask (M := machine) (.transact label changes) fun outcome => match outcome with
    | .committed _ => .ok ()
    | .refused => .error refused
    | .lost => .error lostRequest

def clockNow : Request Time := ask (M := machine) (.now 0) .ok

/-- `ids.OpaqueID` and `ids.BearerToken`. -/
def drawID : Request String := ask (M := machine) .draw .ok

def setRecord (key : Key) (version : Nat) (record : Record key) : RecordChange :=
  { key, require := some version, value := some record }

def createRecord (key : Key) (record : Record key) : RecordChange := { key, require := none, value := some record }

def deleteRecord (key : Key) (version : Nat) : RecordChange := { key, require := some version, value := none }

def alreadyExists : Error := newError .conflict "state record already exists"
def versionChanged : Error := newError .preconditionFailed "state record version does not match"

def isProfile : (key : Key) → Record key → Bool
  | .profile _, _ => true
  | _, _ => false

/-- `UserExists`. -/
def userExists : Request Bool :=
  ask (M := machine) (.find 0 isProfile) fun reply => match reply with
    | none => .error lostRequest
    | some found => .ok found.isSome

def hasInviteID (inviteID : String) : (key : Key) → Record key → Bool
  | .invite _, record => record.inviteID = inviteID
  | _, _ => false

/-- `InviteByID`. -/
def inviteByID (inviteID : String) : Request (Reading Invite) :=
  ask (M := machine) (.find 0 (hasInviteID inviteID)) fun reply => match reply with
    | none => .error lostRequest
    | some (some ⟨.invite _, found⟩) => .ok found
    | some _ => .error (newError .notFound "identity record not found")

/-- `ceremonyKey`. -/
def ceremonyKey (ceremonyID : CeremonyID) : Key := .ceremony ceremonyID.owner ceremonyID

/-! ## The service -/

/-- `auth.User`. -/
structure User where
  id : UserID
  displayName : String
  credentials : List Credential := []

/-- What the service is built on: hashes, parsers and the WebAuthn engine. -/
structure Service where
  hash : String → String
  protect : String → String
  scope : UserID → String → String
  formatTime : Time → String
  /-- `""` if no bootstrap token is configured. -/
  bootstrapHash : String
  parseDisplayName : String → Except Error String
  parseCredentialLabel : String → Except Error String
  beginRegistration : User → String → Except Error String
  finishRegistration : User → String → String → Except Error Credential
  beginAuthentication : String → Except Error String
  /-- The credential and the user handle that an assertion names. -/
  assertion : String → String → Except Error (String × UserID)
  finishAuthentication : User → String → String → Except Error Credential

structure RegistrationPolicy where
  allowPublic : Bool
  allowInvite : Bool

structure CeremonyStart where
  ceremonyID : CeremonyID
  browserBinding : String

/-- `CeremonyLifetime`. -/
def ceremonyLifetime : Time := 5 * 60

def bootstrapUnavailable : Error := newError .unavailable "bootstrap is unavailable"
def registrationUnavailable : Error := newError .unavailable "registration is unavailable"
def recoveryUnavailable : Error := newError .unavailable "recovery is unavailable"
def accountUnavailable : Error := newError .unauthorized "account is unavailable"

/-- `Credentials`. -/
def readCredentials (userID : UserID) : List String → Request (List Credential)
  | [] => pure []
  | credentialID :: rest => do
    let inconsistent := newError .internal "credential index is inconsistent"
    let credential ← withError inconsistent (getRecord (.credential userID credentialID))
    liftM (rejectIf (credential.value.userID ≠ userID) inconsistent)
    let others ← readCredentials userID rest
    pure (credential.value :: others)

def credentials (userID : UserID) : Request (List Credential) := do
  let index ← getRecord (.credentialIndex userID)
  readCredentials userID index.value.credentialIDs

def inviteUsable (now : Time) (invite : Invite) : Bool :=
  invite.uses = 0 && invite.revokedAt.isNone && invite.expiresAt.all (now < ·)

def recoveryUsable (now : Time) (recovery : Recovery) : Bool :=
  recovery.usedAt.isNone && recovery.revokedAt.isNone && now < recovery.expiresAt

def usableInvite (tokenHash : String) : Request (Reading Invite) := do
  let invite ← withError registrationUnavailable (getRecord (.invite tokenHash))
  let now ← clockNow
  liftM (rejectIf (!inviteUsable now invite.value) registrationUnavailable)
  pure invite

def usableRecovery (userID : UserID) (tokenHash : String) : Request (Reading Recovery) := do
  let recovery ← withError recoveryUnavailable (getRecord (.recovery userID tokenHash))
  let now ← clockNow
  liftM (rejectIf (!recoveryUsable now recovery.value) recoveryUnavailable)
  liftM (rejectIf (recovery.value.targetUserID ≠ userID) recoveryUnavailable)
  pure recovery

def enabledAccount (userID : UserID) : Request (Reading Account) := do
  let account ← withError accountUnavailable (getRecord (.account userID))
  liftM (rejectIf (account.value.status ≠ .accountEnabled) accountUnavailable)
  pure account

def bootstrapAvailable : Request Unit := do
  let bootstrap ← withError bootstrapUnavailable (lookup .bootstrap)
  liftM (rejectIf bootstrap.isSome bootstrapUnavailable)
  let marker ← withError bootstrapUnavailable (lookup .firstAccount)
  liftM (rejectIf marker.isSome bootstrapUnavailable)
  let found ← withError bootstrapUnavailable userExists
  liftM (rejectIf found bootstrapUnavailable)

/-! ## Starting a ceremony -/

def ownerMismatch : Error := newError .invalid "ceremony owner binding mismatch"

/-- `CreateCeremony`. -/
def createCeremony (record : Ceremony) : Request Unit := do
  liftM (rejectIf (record.userID ≠ record.ceremonyID.owner) ownerMismatch)
  transact alreadyExists .startCeremony [createRecord (ceremonyKey record.ceremonyID) record]

def startRegistrationCeremony (service : Service) (flow : CeremonyFlow) (user : User) (bearerHash : String) :
    Request CeremonyStart := do
  let challenge ← drawID
  let librarySession ← liftM (service.beginRegistration user challenge)
  let secret ← drawID
  let binding ← drawID
  let now ← clockNow
  let ceremonyID : CeremonyID := { owner := some user.id, secret }
  createCeremony {
    ceremonyID, type := .ceremonyRegistration, flow, browserBindingHash := service.protect binding,
    userID := some user.id, displayName := some user.displayName, bearerTokenHash := bearerHash,
    librarySession, expiresAt := now + ceremonyLifetime }
  pure { ceremonyID, browserBinding := binding }

def startNewUserRegistration (service : Service) (flow : CeremonyFlow) (displayNameValue bearerHash : String) :
    Request CeremonyStart := do
  let displayName ← liftM (service.parseDisplayName displayNameValue)
  let userID ← drawID
  startRegistrationCeremony service flow { id := userID, displayName } bearerHash

def startExistingUserRegistration (service : Service) (flow : CeremonyFlow) (profile : Profile) (bearerHash : String) :
    Request CeremonyStart := do
  let owned ← credentials profile.userID
  startRegistrationCeremony service flow { id := profile.userID, displayName := profile.displayName,
                                           credentials := owned }
    bearerHash

def startBootstrap (service : Service) (bootstrapToken displayName : String) : Request CeremonyStart := do
  liftM (rejectIf (service.bootstrapHash = "" || service.hash bootstrapToken ≠ service.bootstrapHash)
    bootstrapUnavailable)
  bootstrapAvailable
  startNewUserRegistration service .ceremonyBootstrap displayName ""

/-- `StartRegistration`; `attemptAllowed` is what the rate limiter of the replica says. -/
def startRegistration (service : Service) (policy : RegistrationPolicy) (attemptAllowed : Bool)
    (displayName inviteToken : String) : Request CeremonyStart :=
  if inviteToken = "" then do
    liftM (rejectIf (!policy.allowPublic) registrationUnavailable)
    liftM (rejectIf (!attemptAllowed) (newError .rateLimited "public registration rate limit exceeded"))
    startNewUserRegistration service .ceremonyPublic displayName ""
  else do
    liftM (rejectIf (!policy.allowInvite) registrationUnavailable)
    let invite ← usableInvite (service.hash inviteToken)
    startNewUserRegistration service .ceremonyInvite displayName invite.value.tokenHash

/-- `StartRecovery`; the token names its owner. -/
def startRecovery (service : Service) (owner : UserID) (token : String) : Request CeremonyStart := do
  let recovery ← withError recoveryUnavailable (getRecord (.recovery owner (service.hash (service.scope owner token))))
  let now ← clockNow
  liftM (rejectIf (!recoveryUsable now recovery.value) recoveryUnavailable)
  let profile ← withError recoveryUnavailable (getRecord (.profile recovery.value.targetUserID))
  startExistingUserRegistration service .ceremonyRecovery profile.value recovery.value.tokenHash

/-- `UpdateCeremony` with the label of the new passkey. -/
def labelCeremony (ceremonyID : CeremonyID) (label : String) : Request Unit := do
  let ceremony ← getRecord (ceremonyKey ceremonyID)
  liftM (rejectIf (ceremony.value.userID ≠ ceremony.value.ceremonyID.owner) ownerMismatch)
  transact versionChanged .labelCeremony
    [setRecord (ceremonyKey ceremony.value.ceremonyID) ceremony.version
      { ceremony.value with credentialLabel := some label }]

def startAddPasskey (service : Service) (userID : UserID) (sessionCreatedAt : Time) (labelValue : String) :
    Request CeremonyStart := do
  let now ← clockNow
  liftM (rejectIf (ceremonyLifetime < now - sessionCreatedAt)
    (newError .preconditionFailed "recent authentication is required"))
  let profile ← getRecord (.profile userID)
  if labelValue = "" then
    startExistingUserRegistration service .ceremonyAddPasskey profile.value ""
  else
    let label ← liftM (service.parseCredentialLabel labelValue)
    let start ← startExistingUserRegistration service .ceremonyAddPasskey profile.value ""
    labelCeremony start.ceremonyID label
    pure start

def startAuthentication (service : Service) : Request CeremonyStart := do
  let challenge ← drawID
  let librarySession ← liftM (service.beginAuthentication challenge)
  let secret ← drawID
  let binding ← drawID
  let now ← clockNow
  let ceremonyID : CeremonyID := { owner := none, secret }
  createCeremony {
    ceremonyID, type := .ceremonyAuthentication, flow := .ceremonyAuthenticationFlow,
    browserBindingHash := service.protect binding, librarySession, expiresAt := now + ceremonyLifetime }
  pure { ceremonyID, browserBinding := binding }

/-! ## Registration -/

/-- `registrationCeremony` and `authenticationCeremony`. -/
def boundCeremony (service : Service) (type : CeremonyType) (invalid : Error) (ceremonyID : CeremonyID)
    (binding : String) :
    Request (Reading Ceremony) := do
  let ceremony ← withError invalid (getRecord (ceremonyKey ceremonyID))
  liftM (rejectIf (ceremony.value.type ≠ type || service.protect binding ≠ ceremony.value.browserBindingHash) invalid)
  let now ← clockNow
  liftM (rejectIf (ceremony.value.consumedAt.isNone && ceremony.value.expiresAt ≤ now) invalid)
  pure ceremony

def registrationCeremony (service : Service) : CeremonyID → String → Request (Reading Ceremony) :=
  boundCeremony service .ceremonyRegistration (newError .unauthenticated "invalid registration ceremony")

def authenticationCeremony (service : Service) : CeremonyID → String → Request (Reading Ceremony) :=
  boundCeremony service .ceremonyAuthentication (newError .unauthenticated "invalid authentication ceremony")

/-- `EncodeJSON` of an index: `CredentialIndex.Validate` checks and sorts it. -/
def encodeIndex (index : CredentialIndex) : Except Error CredentialIndex := do
  rejectIf index.credentialIDs.isEmpty (newError .invalid "invalid credential index")
  rejectIf (¬index.credentialIDs.Nodup) (newError .invalid "duplicate indexed credential ID")
  pure { index with credentialIDs := index.credentialIDs.insertionSort fun left right => left ≤ right }

def indexCredential (userID : UserID) (credentialID : String) (found : Option (Reading CredentialIndex)) :
    Except Error RecordChange :=
  match found with
  | none => do
    let index ← encodeIndex { userID, credentialIDs := [credentialID] }
    pure (createRecord (.credentialIndex userID) index)
  | some current => do
    rejectIf (credentialID ∈ current.value.credentialIDs) (newError .conflict "credential is already registered")
    let index ← encodeIndex { current.value with credentialIDs := current.value.credentialIDs ++ [credentialID] }
    pure (setRecord (.credentialIndex userID) current.version index)

def CeremonyFlow.newAccount : CeremonyFlow → Bool
  | .ceremonyBootstrap | .ceremonyPublic | .ceremonyInvite => true
  | _ => false

/-- The changes of `commitRegistrationAtomic` that every flow makes. -/
def ownChanges (ceremony : Ceremony) (version : Nat) (operation : RegistrationOperation) (indexChange : RecordChange) :
    List RecordChange :=
  [setRecord (.ceremony (some operation.userID) ceremony.ceremonyID) version ceremony,
    createRecord (.operation operation.userID operation.operationID) operation,
    createRecord (.credential operation.userID operation.credential.credentialID) operation.credential, indexChange]

def accountChanges (operation : RegistrationOperation) (flow : CeremonyFlow) : List RecordChange :=
  if flow.newAccount then
    [createRecord (.profile operation.userID) { userID := operation.userID, displayName := operation.displayName },
      createRecord (.account operation.userID)
        { userID := operation.userID, status := .accountEnabled, authEpoch := 1 }]
  else []

def markerChanges (now : Time) (operation : RegistrationOperation) (flow : CeremonyFlow)
    (marker : Option (Reading FirstAccountMarker)) : List RecordChange :=
  if marker.isSome then []
  else [createRecord .firstAccount { flow, operationID := operation.operationID, userID := operation.userID,
                                     createdAt := now }]

structure FlowChanges where
  changes : List RecordChange
  snapshot : Option Time := none

/-- The switch on the flow in `commitRegistrationAtomic`. -/
def flowChanges (now : Time) (ceremony : Ceremony) (operation : RegistrationOperation) : Request FlowChanges :=
  match ceremony.flow with
  | .ceremonyBootstrap => pure {
      changes := [createRecord .bootstrap { operation, completedAt := some now },
        createRecord .adminRoles [operation.userID]] }
  | .ceremonyInvite => do
    let invite ← usableInvite ceremony.bearerTokenHash
    pure {
      changes := [setRecord (.invite invite.value.tokenHash) invite.version { invite.value with
        uses := 1, usedAt := some now, usedByUserID := some operation.userID, operationID := operation.operationID }],
      snapshot := some invite.time }
  | .ceremonyRecovery => do
    let recovery ← usableRecovery operation.userID ceremony.bearerTokenHash
    let account ← enabledAccount operation.userID
    let advanced ← liftM (Identity.advanceAuthEpoch account.value.toAccount)
    pure {
      changes := [setRecord (.recovery operation.userID recovery.value.tokenHash) recovery.version { recovery.value with
          usedAt := some now, operationID := operation.operationID },
        setRecord (.account operation.userID) account.version { account.value with toAccount := advanced }],
      snapshot := some recovery.time }
  | .ceremonyAddPasskey => do
    let account ← enabledAccount operation.userID
    pure { changes := [setRecord (.account operation.userID) account.version account.value] }
  | .ceremonyPublic => pure { changes := [] }
  | .ceremonyAuthenticationFlow => throw (newError .invalid "unsupported registration operation")

/-- The changes of `commitRegistrationAtomic`. -/
def registrationChanges (now : Time) (ceremony : Ceremony) (version : Nat) (operation : RegistrationOperation)
    (indexChange : RecordChange) (marker : Option (Reading FirstAccountMarker)) (flow : FlowChanges) :
    List RecordChange :=
  ownChanges ceremony version operation indexChange ++ accountChanges operation ceremony.flow ++
    markerChanges now operation ceremony.flow marker ++ flow.changes

def commitRegistrationAtomic (ceremony : Ceremony) (version : Nat) (claimed : RegistrationOperation) :
    Request Unit := do
  liftM (rejectIf (ceremony.userID ≠ some claimed.userID || ceremony.consumedAt.isSome || ceremony.operationID ≠ "")
    (newError .conflict "registration ceremony was already consumed"))
  let now ← clockNow
  let operation := { claimed with status := .operationCommitted, committedAt := some now }
  let consumed := { ceremony with consumedAt := some now, operationID := operation.operationID }
  let index ← lookup (.credentialIndex operation.userID)
  let indexChange ← liftM (indexCredential operation.userID operation.credential.credentialID index)
  let marker ← lookup .firstAccount
  liftM (rejectIf (marker.isSome && ceremony.flow = .ceremonyBootstrap)
    (newError .conflict "bootstrap was already claimed"))
  let flow ← flowChanges now ceremony operation
  transact versionChanged (.registration ceremony.flow flow.snapshot)
    (registrationChanges now consumed version operation indexChange marker flow)

/-- `verifyRegistrationPolicy`. -/
def verifyRegistrationPolicy (service : Service) (policy : RegistrationPolicy) (ceremony : Ceremony) (userID : UserID) :
    Request Unit :=
  match ceremony.flow with
  | .ceremonyBootstrap => do
    liftM (rejectIf (service.bootstrapHash = "") bootstrapUnavailable)
    bootstrapAvailable
  | .ceremonyPublic => liftM (rejectIf (!policy.allowPublic) registrationUnavailable)
  | .ceremonyInvite => do
    liftM (rejectIf (!policy.allowInvite) registrationUnavailable)
    let _ ← usableInvite ceremony.bearerTokenHash
    pure ()
  | .ceremonyRecovery => do
    let _ ← usableRecovery userID ceremony.bearerTokenHash
    pure ()
  | .ceremonyAddPasskey => do
    let _ ← enabledAccount userID
    pure ()
  | .ceremonyAuthenticationFlow => throw (newError .invalid "unsupported registration flow")

/-- `ceremonyUser`; a ceremony without a user has no registration. -/
def ceremonyUser (ceremony : Ceremony) (userID : UserID) : Request User := do
  match ceremony.displayName with
  | none => throw (newError .invalid "registration ceremony has no user")
  | some displayName =>
    if ceremony.flow = .ceremonyAddPasskey ∨ ceremony.flow = .ceremonyRecovery then
      let owned ← credentials userID
      pure { id := userID, displayName, credentials := owned }
    else pure { id := userID, displayName }

structure RegistrationComplete where
  userID : UserID
  credentialID : String
  flow : CeremonyFlow
  deriving DecidableEq, Repr

/-- `registrationClaimOwned`. -/
def registrationClaimOwned (ceremony : Ceremony) (operation : RegistrationOperation) : Request Unit :=
  match ceremony.flow with
  | .ceremonyBootstrap => do
    let unavailable := newError .conflict "bootstrap claim is unavailable"
    let marker ← withError unavailable (getRecord .firstAccount)
    let bootstrap ← withError unavailable (getRecord .bootstrap)
    liftM (rejectIf (marker.value.operationID ≠ operation.operationID ||
      bootstrap.value.operation.operationID ≠ operation.operationID) unavailable)
  | .ceremonyInvite => do
    let unavailable := newError .conflict "invite claim is unavailable"
    let invite ← withError unavailable (getRecord (.invite ceremony.bearerTokenHash))
    liftM (rejectIf (invite.value.operationID ≠ operation.operationID ||
      invite.value.usedByUserID ≠ some operation.userID) unavailable)
  | .ceremonyRecovery => do
    let unavailable := newError .conflict "recovery claim is unavailable"
    let recovery ← withError unavailable (getRecord (.recovery operation.userID ceremony.bearerTokenHash))
    liftM (rejectIf (recovery.value.operationID ≠ operation.operationID ||
      recovery.value.targetUserID ≠ operation.userID) unavailable)
  | .ceremonyPublic | .ceremonyAddPasskey => pure ()
  | .ceremonyAuthenticationFlow => throw (newError .invalid "unsupported registration flow")

/-- `resumeRegistration` of an operation that is committed. -/
def resumeRegistration (ceremony : Ceremony) (userID : UserID) : Request RegistrationComplete := do
  liftM (rejectIf (ceremony.operationID = "") (newError .conflict "registration ceremony was consumed"))
  let unavailable := newError .conflict "registration operation is unavailable"
  let operation ← withError unavailable (getRecord (.operation userID ceremony.operationID))
  liftM (rejectIf (operation.value.userID ≠ userID || operation.value.flow ≠ ceremony.flow) unavailable)
  registrationClaimOwned ceremony operation.value
  pure {
    userID := operation.value.userID, credentialID := operation.value.credential.credentialID,
    flow := operation.value.flow }

def registerCredential (service : Service) (policy : RegistrationPolicy) (ceremony : Reading Ceremony) (userID : UserID)
    (response : String) : Request RegistrationComplete := do
  verifyRegistrationPolicy service policy ceremony.value userID
  let user ← ceremonyUser ceremony.value userID
  let verified ← liftM (service.finishRegistration user ceremony.value.librarySession response)
  let now ← clockNow
  let credential : Credential := { verified with
    userID := user.id, createdAt := now, lastUsedAt := now, label := ceremony.value.credentialLabel.or verified.label }
  let operationID ← drawID
  commitRegistrationAtomic ceremony.value ceremony.version {
    operationID, flow := ceremony.value.flow, status := .operationClaimed, userID := user.id,
    displayName := user.displayName, credential, createdAt := now }
  pure { userID := user.id, credentialID := credential.credentialID, flow := ceremony.value.flow }

def verifyRegistration (service : Service) (policy : RegistrationPolicy) (ceremonyID : CeremonyID)
    (binding response : String) :
    Request RegistrationComplete := do
  let ceremony ← registrationCeremony service ceremonyID binding
  match ceremony.value.userID with
  | none => throw (newError .invalid "registration ceremony has no user")
  | some userID =>
    if ceremony.value.consumedAt.isSome then resumeRegistration ceremony.value userID
    else registerCredential service policy ceremony userID response

/-! ## Authentication -/

def authenticationFailed : Error := newError .unauthenticated "authentication failed"

/-- `resolveDiscoverable`. -/
def resolveDiscoverable (credentialID : String) (userID : UserID) : Request User := do
  let credential ← withError authenticationFailed (getRecord (.credential userID credentialID))
  liftM (rejectIf (credential.value.userID ≠ userID) authenticationFailed)
  let account ← withError authenticationFailed (getRecord (.account userID))
  liftM (rejectIf (account.value.status ≠ .accountEnabled) authenticationFailed)
  let profile ← withError authenticationFailed (getRecord (.profile userID))
  let owned ← withError authenticationFailed (credentials userID)
  pure { id := userID, displayName := profile.value.displayName, credentials := owned }

/-- The session of `PrepareForOperation`; its token is derived from the operation. -/
structure IssuedSession where
  userID : UserID
  operationID : String
  record : Session
  deriving DecidableEq, Repr

def prepareForOperation (operation : AuthenticationOperation) : Except Error IssuedSession := do
  rejectIf (operation.credentialID = "" || operation.operationID = "" || operation.authEpoch = 0)
    (newError .invalid "invalid deterministic session material")
  pure {
    userID := operation.userID, operationID := operation.operationID,
    record := {
      userID := operation.userID, authEpoch := operation.authEpoch, createdAt := operation.createdAt,
      credentialID := operation.credentialID } }

/-- The changes of `CommitAuthenticationAtomic`. -/
def authenticationChanges (ceremony : Reading Ceremony) (consumed : Ceremony) (operation : AuthenticationOperation)
    (credential : Reading Credential) (stored : Credential) (account : Reading Account) (issued : IssuedSession) :
    List RecordChange :=
  [setRecord (ceremonyKey consumed.ceremonyID) ceremony.version consumed,
    createRecord (.authenticationOperation operation.userID operation.operationID) operation,
    setRecord (.credential operation.userID operation.credentialID) credential.version stored,
    setRecord (.account operation.userID) account.version account.value,
    createRecord (.session operation.userID issued.operationID) issued.record]

def commitAuthenticationAtomic (ceremony : Reading Ceremony) (consumed : Ceremony) (operation : AuthenticationOperation)
    (credential : Reading Credential) (stored : Credential) (account : Reading Account) (issued : IssuedSession) :
    Request Unit := do
  liftM (rejectIf (consumed.type ≠ .ceremonyAuthentication || consumed.consumedAt.isNone ||
    consumed.operationID ≠ operation.operationID || consumed.userID ≠ some operation.userID ||
    operation.userID ≠ stored.userID || operation.userID ≠ account.value.userID ||
      issued.record.userID ≠ operation.userID)
    (newError .invalid "authentication transition binding mismatch"))
  transact versionChanged .authentication (authenticationChanges ceremony consumed operation credential stored
    account issued)

/-- `resumeAuthentication`. -/
def resumeAuthentication (ceremony : Ceremony) : Request IssuedSession :=
  match ceremony.userID with
  | none => throw (newError .invalid "committed authentication ceremony is incomplete")
  | some userID => do
    liftM (rejectIf (ceremony.operationID = "") (newError .invalid "committed authentication ceremony is incomplete"))
    let unavailable := newError .invalid "committed authentication outcome is unavailable"
    let operation ← withError unavailable (getRecord (.authenticationOperation userID ceremony.operationID))
    liftM (rejectIf (operation.value.userID ≠ userID) unavailable)
    let issued ← liftM (prepareForOperation operation.value)
    let _ ← withError (newError .unauthenticated "authentication outcome is no longer active")
      (getRecord (.session issued.userID issued.operationID))
    pure issued

def authenticateCeremony (service : Service) (ceremony : Reading Ceremony) (response : String) :
    Request IssuedSession := do
  let named ← liftM (service.assertion ceremony.value.librarySession response)
  let user ← resolveDiscoverable named.1 named.2
  let result ← liftM (service.finishAuthentication user ceremony.value.librarySession response)
  let now ← clockNow
  let operationID ← drawID
  let account ← withError authenticationFailed (getRecord (.account user.id))
  liftM (rejectIf (account.value.status ≠ .accountEnabled) authenticationFailed)
  let credential ← withError authenticationFailed (getRecord (.credential user.id result.credentialID))
  liftM (rejectIf (credential.value.userID ≠ user.id) authenticationFailed)
  let stored : Credential := { credential.value with
    signCount := result.signCount, backupEligible := result.backupEligible, backupState := result.backupState,
    lastUsedAt := now }
  let operation : AuthenticationOperation := {
    operationID, userID := user.id, credentialID := stored.credentialID,
    authEpoch := Identity.effectiveAuthEpoch account.value.authEpoch, createdAt := now }
  let issued ← liftM (prepareForOperation operation)
  let consumed : Ceremony := { ceremony.value with consumedAt := some now, operationID, userID := some user.id }
  commitAuthenticationAtomic ceremony consumed operation credential stored account issued
  pure issued

def verifyAuthentication (service : Service) (ceremonyID : CeremonyID) (binding response : String) :
    Request IssuedSession := do
  let ceremony ← authenticationCeremony service ceremonyID binding
  if ceremony.value.consumedAt.isSome then resumeAuthentication ceremony.value
  else authenticateCeremony service ceremony response

/-! ## Passkeys -/

def retrying {α : Type} (contended : Error) (attempt : Request (Except Error α)) : Nat → Request α
  | 0 => throw contended
  | attempts + 1 => do
    match ← attempt with
    | .ok result => pure result
    | .error e => if e.isRace then retrying contended attempt attempts else throw e

def removeAttempt (userID : UserID) (credentialID : String) : Request (Except Error Unit) := do
  let index ← getRecord (.credentialIndex userID)
  liftM (rejectIf (index.value.credentialIDs.length ≤ 1)
    (newError .preconditionFailed "the final passkey cannot be removed"))
  liftM (rejectIf (credentialID ∉ index.value.credentialIDs) (newError .notFound "passkey not found"))
  let inconsistent := newError .invalid "credential index is inconsistent"
  let credential ← withError inconsistent (getRecord (.credential userID credentialID))
  liftM (rejectIf (credential.value.userID ≠ userID) inconsistent)
  let updated ← liftM (encodeIndex { index.value with
    credentialIDs := index.value.credentialIDs.filter (· ≠ credentialID) })
  attempted (transact versionChanged .removeCredential
    [setRecord (.credentialIndex userID) index.version updated,
      deleteRecord (.credential userID credentialID) credential.version])

/-- `RemoveCredentialAtomic`. -/
def removeCredentialAtomic (userID : UserID) (credentialID : String) : Request Unit :=
  retrying (newError .conflict "passkeys changed concurrently") (removeAttempt userID credentialID) 8

def removePasskey (userID : UserID) (sessionCreatedAt : Time) (credentialID : String) : Request Unit := do
  let now ← clockNow
  liftM (rejectIf (now < sessionCreatedAt || ceremonyLifetime < now - sessionCreatedAt)
    (newError .preconditionFailed "recent authentication is required"))
  removeCredentialAtomic userID credentialID

/-! ## Invites and recoveries -/

structure AdminAuthority where
  roles : Reading (List UserID)
  account : Reading Account

def adminAuthoritySnapshot (actor : UserID) : Request AdminAuthority := do
  let account ← withError accessRequired (getRecord (.account actor))
  liftM (rejectIf (account.value.status ≠ .accountEnabled) accessRequired)
  let roles ← withError accessRequired (getRecord .adminRoles)
  liftM (rejectIf (actor ∉ roles.value) accessRequired)
  pure { roles, account }

def requireAdmin (actor : UserID) : Request Unit := do
  let _ ← adminAuthoritySnapshot actor
  pure ()

/-- `adminAuthorityChanges`: the unchanged roles and account as guards. -/
def adminAuthorityChanges (authority : AdminAuthority) : Except Error (List RecordChange) := do
  let roles ← encodeRoles authority.roles.value
  pure [setRecord .adminRoles authority.roles.version roles,
    setRecord (.account authority.account.value.userID) authority.account.version authority.account.value]

def validateIdempotencyKey (value : String) : Except Error Unit :=
  rejectIf (value.utf8ByteSize < 16 || 128 < value.utf8ByteSize ||
    value.toList.any fun c => c = '\r' || c = '\n' || c = '\x00')
    (newError .invalid "a valid idempotency key is required")

def reusedKey : Error := newError .conflict "idempotency key was reused with a different request"

/-- `replayAdminInvite`. -/
def replayAdminInvite (owner : UserID) (keyHash fingerprint : String) : Request (Option Invite) := do
  match ← lookup (.idempotency owner keyHash) with
  | none => pure none
  | some record =>
    match record.value.resource with
    | .recovery _ => throw reusedKey
    | .invite invite =>
      liftM (rejectIf (record.value.fingerprint ≠ fingerprint) reusedKey)
      liftM (rejectIf (invite.inviteID ≠ record.value.resourceID)
        (newError .invalid "invalid invite idempotency outcome"))
      let incomplete := newError .invalid "invite idempotency outcome is incomplete"
      let stored ← withError incomplete (getRecord (.invite invite.tokenHash))
      liftM (rejectIf (stored.value.inviteID ≠ invite.inviteID) incomplete)
      pure (some stored.value)

/-- `replayAdminRecovery`. -/
def replayAdminRecovery (owner : UserID) (keyHash fingerprint : String) : Request (Option Recovery) := do
  match ← lookup (.idempotency owner keyHash) with
  | none => pure none
  | some record =>
    match record.value.resource with
    | .invite _ => throw reusedKey
    | .recovery recovery =>
      liftM (rejectIf (record.value.fingerprint ≠ fingerprint) reusedKey)
      liftM (rejectIf (recovery.recoveryID ≠ record.value.resourceID)
        (newError .invalid "invalid recovery idempotency outcome"))
      let incomplete := newError .invalid "recovery idempotency outcome is incomplete"
      let stored ← withError incomplete (getRecord (.recovery recovery.targetUserID recovery.tokenHash))
      liftM (rejectIf (stored.value.recoveryID ≠ recovery.recoveryID) incomplete)
      pure (some stored.value)

def createOrReplay {α : Type} (record : α) (commit : Request Unit) (replay : Request (Option α)) :
    Request (Except Error α) := do
  match ← attempted commit with
  | .ok () => pure (.ok record)
  | .error e =>
    if e.isRace then
      match ← replay with
      | some existing => pure (.ok existing)
      | none => pure (.error e)
    else pure (.error e)

def inviteRecord (service : Service) (actor : UserID) (keyHash : String) (expiresAt : Option Time) : Invite where
  inviteID := service.protect ("admin-invite-id-v1\x00" ++ actor ++ "\x00" ++ keyHash)
  tokenHash := service.hash (service.protect ("admin-invite-token-v1\x00" ++ actor ++ "\x00" ++ keyHash))
  createdByUserID := actor
  expiresAt

def createInviteAttempt (actor : UserID) (keyHash fingerprint : String) (record : Invite) :
    Request (Except Error Invite) := do
  let authority ← adminAuthoritySnapshot actor
  let guards ← liftM (adminAuthorityChanges authority)
  createOrReplay record
    (transact versionChanged .createInvite (guards ++ [createRecord (.invite record.tokenHash) record,
      createRecord (.idempotency actor keyHash)
        { fingerprint, resourceID := record.inviteID, resource := .invite record }]))
    (replayAdminInvite actor keyHash fingerprint)

def createInvite (service : Service) (policy : RegistrationPolicy) (actor : UserID) (expiresAt : Option Time)
    (idempotencyKey : String) : Request Invite := do
  requireAdmin actor
  liftM (rejectIf (!policy.allowInvite) (newError .unavailable "invite registration is disabled"))
  let now ← clockNow
  liftM (validateIdempotencyKey idempotencyKey)
  liftM (rejectIf (expiresAt.any (· ≤ now)) (newError .invalid "invite expiry must be in the future"))
  let keyHash := service.hash idempotencyKey
  let fingerprint := service.hash ("invite\x00" ++ (expiresAt.map service.formatTime).getD "none")
  let attempt := createInviteAttempt actor keyHash fingerprint (inviteRecord service actor keyHash expiresAt)
  match ← replayAdminInvite actor keyHash fingerprint with
  | some existing => pure existing
  | none => retrying (newError .conflict "invite creation remained contended") attempt 8

def revokeInviteAttempt (actor : UserID) (inviteID : String) : Request (Except Error Unit) := do
  let authority ← adminAuthoritySnapshot actor
  let invite ← inviteByID inviteID
  if invite.value.revokedAt.isSome then pure (.ok ())
  else
    let now ← clockNow
    let guards ← liftM (adminAuthorityChanges authority)
    attempted (transact versionChanged .revokeInvite
      (guards ++ [setRecord (.invite invite.value.tokenHash) invite.version
        { invite.value with revokedAt := some now }]))

def revokeInvite (actor : UserID) (inviteID : String) : Request Unit :=
  retrying (newError .conflict "invite changed concurrently") (revokeInviteAttempt actor inviteID) 8

def recoveryRecord (service : Service) (actor target : UserID) (keyHash : String) (expiresAt : Time) : Recovery where
  recoveryID := service.protect ("admin-recovery-id-v1\x00" ++ actor ++ "\x00" ++ keyHash)
  tokenHash := service.hash (service.scope target
    (service.protect ("admin-recovery-token-v1\x00" ++ actor ++ "\x00" ++ target ++ "\x00" ++ keyHash)))
  targetUserID := target
  createdByUserID := actor
  expiresAt

def createRecoveryAttempt (actor target : UserID) (keyHash fingerprint : String) (record : Recovery) :
    Request (Except Error Recovery) := do
  let authority ← adminAuthoritySnapshot actor
  let account ← withError (newError .notFound "user not found") (getRecord (.account target))
  let guards ← liftM (adminAuthorityChanges authority)
  createOrReplay record
    (transact versionChanged .createRecovery (guards ++
      (if actor = target then [] else [setRecord (.account target) account.version account.value]) ++
      [createRecord (.recovery target record.tokenHash) record,
        createRecord (.idempotency actor keyHash)
          { fingerprint, resourceID := record.recoveryID, resource := .recovery record }]))
    (replayAdminRecovery actor keyHash fingerprint)

def createRecovery (service : Service) (actor target : UserID) (ttl : Time) (idempotencyKey : String) :
    Request Recovery := do
  requireAdmin actor
  liftM (rejectIf (ttl = 0 || 60 * 60 < ttl) (newError .invalid "recovery lifetime must be at most one hour"))
  liftM (validateIdempotencyKey idempotencyKey)
  let keyHash := service.hash idempotencyKey
  let fingerprint := service.hash ("recovery\x00" ++ target ++ "\x00" ++ service.formatTime ttl)
  let now ← clockNow
  let attempt := createRecoveryAttempt actor target keyHash fingerprint (recoveryRecord service actor target keyHash
    (now + ttl))
  match ← replayAdminRecovery actor keyHash fingerprint with
  | some existing => pure existing
  | none => retrying (newError .conflict "recovery creation remained contended") attempt 8

/-! ## Calls -/

inductive Call where
  | startBootstrap (bootstrapToken displayName : String)
  | startRegistration (policy : RegistrationPolicy) (attemptAllowed : Bool) (displayName inviteToken : String)
  | startRecovery (owner : UserID) (token : String)
  | startAddPasskey (userID : UserID) (sessionCreatedAt : Time) (label : String)
  | startAuthentication
  | verifyRegistration (policy : RegistrationPolicy) (ceremonyID : CeremonyID) (binding response : String)
  | verifyAuthentication (ceremonyID : CeremonyID) (binding response : String)
  | removePasskey (userID : UserID) (sessionCreatedAt : Time) (credentialID : String)
  | createInvite (policy : RegistrationPolicy) (actor : UserID) (expiresAt : Option Time) (idempotencyKey : String)
  | revokeInvite (actor : UserID) (inviteID : String)
  | createRecovery (actor target : UserID) (ttl : Time) (idempotencyKey : String)

@[reducible] def Call.Result : Call → Type
  | .startBootstrap _ _ | .startRegistration _ _ _ _ | .startRecovery _ _ | .startAddPasskey _ _ _
  | .startAuthentication => Except Error CeremonyStart
  | .verifyRegistration _ _ _ _ => Except Error RegistrationComplete
  | .verifyAuthentication _ _ _ => Except Error IssuedSession
  | .removePasskey _ _ _ => Except Error Unit
  | .createInvite _ _ _ _ => Except Error Invite
  | .revokeInvite _ _ => Except Error Unit
  | .createRecovery _ _ _ _ => Except Error Recovery

def Call.body (service : Service) : (call : Call) → Conc.Prog machine call.Result
  | .startBootstrap bootstrapToken displayName => (Registration.startBootstrap service bootstrapToken displayName).run
  | .startRegistration policy allowed displayName inviteToken =>
    (Registration.startRegistration service policy allowed displayName inviteToken).run
  | .startRecovery owner token => (Registration.startRecovery service owner token).run
  | .startAddPasskey userID sessionCreatedAt label =>
    (Registration.startAddPasskey service userID sessionCreatedAt label).run
  | .startAuthentication => (Registration.startAuthentication service).run
  | .verifyRegistration policy ceremonyID binding response =>
    (Registration.verifyRegistration service policy ceremonyID binding response).run
  | .verifyAuthentication ceremonyID binding response =>
    (Registration.verifyAuthentication service ceremonyID binding response).run
  | .removePasskey userID sessionCreatedAt credentialID =>
    (Registration.removePasskey userID sessionCreatedAt credentialID).run
  | .createInvite policy actor expiresAt idempotencyKey =>
    (Registration.createInvite service policy actor expiresAt idempotencyKey).run
  | .revokeInvite actor inviteID => (Registration.revokeInvite actor inviteID).run
  | .createRecovery actor target ttl idempotencyKey =>
    (Registration.createRecovery service actor target ttl idempotencyKey).run

def Reachable (service : Service) (cfg : Conc.Config machine Call.Result) : Prop :=
  ∃ clock, Conc.Reach (Call.body service) (.any machine Call)
    { state := ({ records := .empty, clock, log := [] } : State), pool := [] } cfg

/-! ## A first registration -/

namespace Founding

def service : Service where
  hash text := text
  protect text := text
  scope _ text := text
  formatTime _ := ""
  bootstrapHash := "token"
  parseDisplayName name := .ok name
  parseCredentialLabel label := .ok label
  beginRegistration _ challenge := .ok challenge
  finishRegistration user _ response := .ok { credentialID := response, userID := user.id, publicKey := response,
                                              signCount := 0 }
  beginAuthentication challenge := .ok challenge
  assertion session response := .ok (session, response)
  finishAuthentication user _ response :=
    .ok { credentialID := response, userID := user.id, publicKey := response, signCount := 1 }

def policy : RegistrationPolicy := { allowPublic := false, allowInvite := true }

/-- A call that is carried out at once. -/
def served (task : Nat) (drawn : String) (call : Call) : List (Conc.Event machine Call) :=
  .spawn call :: List.replicate 20 (.step task { drawn })

/-- The founder invites another user, and then exchanges their own passkey. -/
def events : List (Conc.Event machine Call) :=
  served 0 "u" (.startBootstrap "token" "Ada") ++
    served 1 "u" (.verifyRegistration policy { owner := some "u", secret := "u" } "u" "key") ++
    served 2 "" (.createInvite policy "u" none "0123456789abcdef") ++
    served 3 "v" (.startRegistration policy true "Bob" "admin-invite-token-v1\x00u\x000123456789abcdef") ++
    served 4 "v" (.verifyRegistration policy { owner := some "v", secret := "v" } "v" "other") ++
    served 5 "w" (.startAddPasskey "u" 0 "") ++
    served 6 "w" (.verifyRegistration policy { owner := some "u", secret := "w" } "w" "spare") ++
    served 7 "" (.removePasskey "u" 0 "key")

def start : Conc.Config machine Call.Result :=
  { state := ({ records := .empty, clock := fun _ => 0, log := [] } : State), pool := [] }

def final : Conc.Config machine Call.Result := start.run (Call.body service) events

end Founding

end EndlessFS.Registration
