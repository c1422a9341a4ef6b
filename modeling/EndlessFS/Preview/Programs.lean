import EndlessFS.Lib.Ledger
import EndlessFS.Identity.Programs

/-!
# EndlessFS.Preview.Programs

The operations of the preview service (`preview/service.go`): `Generate`, `Operation` and the cleanup of
expired operations.

* The store is a `Ledger`: `Mutate` and `CompareAndSwap` are atomic, requests and responses may be lost. Each
  call reads the clock of its replica; the zero time is `0`.
* How an item is resolved is a parameter of the call (`Resolution`); it is known when the call reads the clock
  again, however long that took.
* A key names what the source hashes into it. Schema versions are constant and left out.
* `Label.finish` says what was recorded and when.
-/

namespace EndlessFS.Preview

open Conc (Fallible Reading CellChange ask attempted)
open Identity (UserID lostRequest)

/-! ## Records -/

/-- `State`, of an item. -/
inductive ItemState where
  | disabled
  | unsupported
  | ineligible
  | missing
  | generating
  | ready
  | failed
  | unavailable
  deriving DecidableEq, Repr

inductive OperationState where
  | running
  | succeeded
  | failed
  deriving DecidableEq, Repr

structure ItemRequest where
  path : String
  version : String
  variant : Nat
  deriving DecidableEq, Repr

/-- The metadata of an artifact is its generation. -/
structure ItemResult where
  path : String
  version : String
  variant : Nat
  state : ItemState
  reason : String := ""
  artifact : Option String := none
  capability : Option String := none
  deriving DecidableEq, Repr

structure Operation where
  id : String
  state : OperationState
  errorKind : Option ErrorKind := none
  startedAt : Time
  updatedAt : Time
  result : Option ItemResult := none
  deriving DecidableEq, Repr

structure OperationRecord where
  ownerID : UserID
  fingerprint : String
  idempotencyDigest : String
  leaseEpoch : Nat
  leaseExpiresAt : Time
  waitGenerationID : String := ""
  expiresAt : Time
  operation : Operation
  deriving DecidableEq, Repr

structure IdempotencyRecord where
  fingerprint : String
  operationID : String
  expiresAt : Time
  deriving DecidableEq, Repr

structure OperationIndexEntry where
  operationID : String
  idempotencyDigest : String
  expiresAt : Time
  deriving DecidableEq, Repr

inductive Key where
  | operation (owner : UserID) (operationID : String)
  | idempotency (owner : UserID) (digest : String)
  | index (owner : UserID) (shard : Nat)
  deriving DecidableEq, Repr

@[reducible] def Record : Key → Type
  | .operation _ _ => OperationRecord
  | .idempotency _ _ => IdempotencyRecord
  | .index _ _ => List OperationIndexEntry

abbrev Records := Conc.Versioned Key Record

abbrev RecordChange := CellChange Key Record

/-- What became of the item of a claimed operation. -/
inductive Resolution where
  | error (kind : ErrorKind)
  | ready (artifact capability : String)
  | generating (waitingFor : String)
  | unresolved (state : ItemState) (reason : String) (idle : state ≠ .ready ∧ state ≠ .generating)
  deriving DecidableEq

/-- Which transaction of the source commits. -/
inductive Label where
  | claim
  | takeover
  | finish (owner : UserID) (operationID : String) (resolution : Resolution) (now : Time)
  | cleanup
  deriving DecidableEq

abbrev Entry := Conc.LedgerEntry Key Record Label

abbrev State := Conc.Ledger Key Record Label

abbrev machine : Conc.Machine := Conc.ledgerMachine Key Record Label fun _ => false

abbrev Request (α : Type) := Fallible machine Error α

/-! ## The service -/

def second : Time := 1000000000

/-- The options, as far as `validateOptions` lets them pass, and what the service hashes and parses with. -/
structure Service where
  operationTimeout : Time
  timeout_pos : 0 < operationTimeout
  timeout_le : operationTimeout ≤ 5 * 60 * second
  operationRetention : Time
  retention_ge : 60 * 60 * second ≤ operationRetention
  retention_le : operationRetention ≤ 30 * 24 * 60 * 60 * second
  resolutions : List Nat
  resolutions_ge : ∀ resolution ∈ resolutions, 64 ≤ resolution
  /-- The path is valid and not the root. -/
  validPath : String → Bool
  idempotencyDigest : UserID → String → String
  validSHA256Digest : String → Bool
  digest_valid : ∀ owner key, validSHA256Digest (idempotencyDigest owner key) = true
  digest_ne : ∀ digest, validSHA256Digest digest = true → digest ≠ ""
  operationShard : String → Nat

def maxOperationsPerShard : Nat := 128

def validIdempotencyRecord (record : IdempotencyRecord) : Bool :=
  record.fingerprint ≠ "" && record.operationID ≠ "" && record.expiresAt ≠ 0

def validGenerationID (value : String) : Bool :=
  value ≠ "" && value.utf8ByteSize ≤ 128 && !value.toList.any fun c => c = '\r' || c = '\n' || c = '\x00' || c = '/'

def validWaiting (service : Service) (waitGenerationID : String) : Option ItemResult → Bool
  | none => waitGenerationID = ""
  | some result => result.state = .generating && service.validPath result.path && result.version ≠ "" &&
      0 < result.variant && validGenerationID waitGenerationID

/-- What `validOperationRecord` asks of the state of the operation. -/
def validOperationState (service : Service) (record : OperationRecord) : Bool :=
  match record.operation.state with
  | .running => record.leaseExpiresAt ≠ 0 && record.operation.updatedAt < record.leaseExpiresAt &&
      record.operation.errorKind = none && validWaiting service record.waitGenerationID record.operation.result
  | .succeeded => record.leaseExpiresAt = 0 && record.waitGenerationID = "" && record.operation.errorKind = none &&
      record.operation.result.any fun result => result.state = .ready && result.artifact.isSome
  | .failed => record.leaseExpiresAt = 0 && record.waitGenerationID = "" && record.operation.errorKind.isSome &&
      record.operation.result.all fun result => result.state ≠ .ready && result.state ≠ .generating

def validOperationRecord (service : Service) (record : OperationRecord) (owner : UserID) (operationID : String) :
    Bool :=
  record.operation.result.all (·.capability.isNone) && record.ownerID = owner && record.fingerprint ≠ "" &&
  record.idempotencyDigest ≠ "" && record.leaseEpoch ≠ 0 && record.expiresAt ≠ 0 && record.operation.id = operationID &&
  record.operation.startedAt ≠ 0 && record.operation.updatedAt ≠ 0 &&
  record.operation.startedAt ≤ record.operation.updatedAt && record.operation.updatedAt < record.expiresAt &&
  service.validSHA256Digest record.idempotencyDigest && validOperationState service record

def validOperationIndex (entries : List OperationIndexEntry) : Bool :=
  entries.length ≤ maxOperationsPerShard &&
  entries.all (fun entry => entry.operationID ≠ "" && entry.idempotencyDigest ≠ "" && entry.expiresAt ≠ 0) &&
  (entries.map (·.operationID)).Nodup && (entries.map (·.idempotencyDigest)).Nodup

/-! ## Store calls -/

def lookup (replica : Nat) (key : Key) : Request (Option (Reading (Record key))) :=
  ask (M := machine) (.get replica key) fun reply => match reply with
    | none => .error lostRequest
    | some found => .ok found

def writtenVersion : Conc.Outcome → Except Error (Option Nat)
  | .committed version => .ok version
  | .refused => .error (newError .preconditionFailed "state record version does not match")
  | .lost => .error lostRequest

/-- `Mutate` and `CompareAndSwap`. -/
def mutate (label : Label) (changes : List RecordChange) : Request (Option Nat) :=
  ask (M := machine) (.transact label changes) writtenVersion

def clockNow (replica : Nat) : Request Time :=
  ask (M := machine) (.now replica) fun (elapsed : Nat) => .ok (elapsed + 1)

/-- `ids.OpaqueID`. -/
def drawID : Request String :=
  ask (M := machine) .draw fun (text : String) => if text =
    "" then .error (newError .internal "random source failed") else .ok text

def setRecord (key : Key) (version : Nat) (record : Record key) : RecordChange :=
  { key, require := some version, value := some record }

def createRecord (key : Key) (record : Record key) : RecordChange := { key, require := none, value := some record }

def deleteRecord (key : Key) (version : Nat) : RecordChange := { key, require := some version, value := none }

def invalidOperation : Error := newError .invalid "invalid preview operation state"
def invalidIndexBinding : Error := newError .invalid "preview operation index binding is invalid"
def omittedVersion : Error := newError .internal "atomic preview claim omitted operation version"

section

variable (service : Service) (replica : Nat) (owner : UserID)

/-- `readOperation`. -/
def readOperation (operationID : String) : Request (Reading OperationRecord) := do
  match ← lookup replica (.operation owner operationID) with
  | none => throw (newError .notFound "preview operation not found")
  | some found =>
    liftM (rejectIf (!validOperationRecord service found.value owner operationID) invalidOperation)
    pure found

/-! ## The index -/

/-- `operationIndexSnapshot`; `none` is the version of an index that does not exist. -/
structure OperationIndexSnapshot where
  entries : List OperationIndexEntry
  version : Option Nat

/-- `hasExpired`. -/
def OperationIndexSnapshot.hasExpired (index : OperationIndexSnapshot) (now : Time) : Bool :=
  index.entries.any (·.expiresAt ≤ now)

/-- `loadOperationIndex`. -/
def loadOperationIndex (operationID : String) : Request OperationIndexSnapshot := do
  match ← lookup replica (.index owner (service.operationShard operationID)) with
  | none => pure { entries := [], version := none }
  | some found =>
    liftM (rejectIf (!validOperationIndex found.value) (newError .invalid "invalid preview operation index"))
    pure { entries := found.value, version := some found.version }

/-- The entries that `cleanupExpiredPreviewBinding` keeps. For an empty index the source panics where it allocates them;
here the loop then finds no entry. -/
def retainedEntries (operation : OperationRecord) (idempotency : IdempotencyRecord) (found : Bool) :
    List OperationIndexEntry → Except Error (List OperationIndexEntry)
  | [] => if found then .ok [] else .error (newError .invalid "preview operation has no index entry")
  | entry :: rest =>
    if entry.operationID = idempotency.operationID then
      if found || entry.idempotencyDigest ≠ operation.idempotencyDigest || entry.expiresAt ≠ idempotency.expiresAt then
        .error invalidIndexBinding
      else retainedEntries operation idempotency true rest
    else (retainedEntries operation idempotency found rest).map (entry :: ·)

/-! ## Cleanup -/

def cleanupChanges (digest : String) (idempotencyVersion : Nat) (operationID : String) (operationVersion : Nat)
    (indexVersion : Nat) (retained : List OperationIndexEntry) : List RecordChange :=
  [deleteRecord (.idempotency owner digest) idempotencyVersion,
    deleteRecord (.operation owner operationID) operationVersion,
    setRecord (.index owner (service.operationShard operationID)) indexVersion retained]

/-- `cleanupExpiredPreviewBinding` of the idempotency record under the digest. -/
def cleanupExpiredPreviewBinding (digest : String) (idempotency : Reading IdempotencyRecord) : Request Unit := do
  match ← lookup replica (.operation owner idempotency.value.operationID) with
  | none => throw (newError .invalid "preview idempotency binding has no operation")
  | some operation =>
    liftM (rejectIf (!validOperationRecord service operation.value owner idempotency.value.operationID ||
      operation.value.fingerprint ≠ idempotency.value.fingerprint || operation.value.idempotencyDigest = "" ||
      operation.value.expiresAt ≠ idempotency.value.expiresAt)
      (newError .invalid "preview idempotency operation binding is invalid"))
    liftM (rejectIf (operation.value.idempotencyDigest ≠ digest)
      (newError .invalid "preview idempotency key binding is invalid"))
    let index ← loadOperationIndex service replica owner idempotency.value.operationID
    match index.version with
    | none => throw (newError .invalid "preview operation has no index binding")
    | some indexVersion =>
      let retained ← liftM (retainedEntries operation.value idempotency.value false index.entries)
      discard (mutate .cleanup (cleanupChanges service owner digest idempotency.version idempotency.value.operationID
        operation.version indexVersion retained))

/-- `cleanupExpiredOperationIndex`: one expired operation of the index. -/
def cleanupExpiredOperationIndex (index : OperationIndexSnapshot) (now : Time) : Request Unit := do
  match index.entries.find? (·.expiresAt ≤ now) with
  | none => pure ()
  | some entry =>
    match ← lookup replica (.idempotency owner entry.idempotencyDigest) with
    | none => throw (newError .invalid "preview operation index has no idempotency binding")
    | some idempotency =>
      liftM (rejectIf (!validIdempotencyRecord idempotency.value || idempotency.value.operationID ≠ entry.operationID ||
        idempotency.value.expiresAt ≠ entry.expiresAt) invalidIndexBinding)
      cleanupExpiredPreviewBinding service replica owner entry.idempotencyDigest idempotency

/-! ## Claims -/

structure OperationClaim where
  record : OperationRecord
  version : Nat
  claimed : Bool

def takenOver (record : OperationRecord) (now : Time) : OperationRecord :=
  { record with
    leaseEpoch := (record.leaseEpoch + 1) % 2 ^ 64
    leaseExpiresAt := now + service.operationTimeout
    operation := { record.operation with updatedAt := now } }

/-- `claimExistingOperation`. -/
def claimExistingOperation (digest : String) (idempotency : Reading IdempotencyRecord) : Request OperationClaim := do
  let now ← clockNow replica
  if idempotency.value.expiresAt ≤ now then
    let expired := newError .notFound "preview idempotency record expired"
    match ← attempted (cleanupExpiredPreviewBinding service replica owner digest idempotency) with
    | .ok _ => throw expired
    | .error e => if e.kind = .notFound ∨ e.kind = .preconditionFailed then throw expired else throw e
  else
    let found ← readOperation service replica owner idempotency.value.operationID
    liftM (rejectIf (found.value.fingerprint ≠ idempotency.value.fingerprint ||
      found.value.idempotencyDigest ≠ digest ||
      found.value.expiresAt ≠ idempotency.value.expiresAt)
      (newError .invalid "preview idempotency state does not match its operation"))
    if found.value.operation.state ≠ .running ∨ now < found.value.leaseExpiresAt then
      pure { record := found.value, version := found.version, claimed := false }
    else
      let taken := takenOver service found.value now
      let change := setRecord (.operation owner idempotency.value.operationID) found.version taken
      match ← attempted (mutate .takeover [change]) with
      | .ok (some version) => pure { record := taken, version, claimed := true }
      | .ok none => throw omittedVersion
      | .error e =>
        if e.kind = .preconditionFailed then
          let current ← readOperation service replica owner idempotency.value.operationID
          pure { record := current.value, version := current.version, claimed := false }
        else throw e

def newRecord (digest fingerprint operationID : String) (now : Time) : OperationRecord where
  ownerID := owner
  fingerprint := fingerprint
  idempotencyDigest := digest
  leaseEpoch := 1
  leaseExpiresAt := now + service.operationTimeout
  expiresAt := now + service.operationRetention
  operation := { id := operationID, state := .running, startedAt := now, updatedAt := now }

def OperationRecord.binding (record : OperationRecord) : IdempotencyRecord where
  fingerprint := record.fingerprint
  operationID := record.operation.id
  expiresAt := record.expiresAt

def OperationRecord.entry (record : OperationRecord) : OperationIndexEntry where
  operationID := record.operation.id
  idempotencyDigest := record.idempotencyDigest
  expiresAt := record.expiresAt

def claimChanges (record : OperationRecord) (index : OperationIndexSnapshot) : List RecordChange :=
  [createRecord (.operation owner record.operation.id) record,
    createRecord (.idempotency owner record.idempotencyDigest) record.binding,
    { key := .index owner (service.operationShard record.operation.id), require := index.version,
      value := some (index.entries ++ [record.entry]) }]

/-- A claim of an operation that has no idempotency record yet; `none` if the attempt lost a race. -/
def claimNewOperation (digest fingerprint operationID : String) : Request (Option OperationClaim) := do
  let now ← clockNow replica
  let record := newRecord service owner digest fingerprint operationID now
  let index ← loadOperationIndex service replica owner operationID
  if index.hasExpired now then
    match ← attempted (cleanupExpiredOperationIndex service replica owner index now) with
    | .ok _ => pure none
    | .error e => if e.kind = .preconditionFailed then pure none else throw e
  else
    liftM (rejectIf (maxOperationsPerShard ≤ index.entries.length)
      (newError .unavailable "preview operation retention capacity reached"))
    match ← attempted (mutate .claim (claimChanges service owner record index)) with
    | .ok (some version) => pure (some { record, version, claimed := true })
    | .ok none => throw omittedVersion
    | .error e => if e.kind = .conflict ∨ e.kind = .preconditionFailed then pure none else throw e

/-- One attempt of `claimOperation`. -/
def claimAttempt (digest fingerprint operationID : String) : Request (Option OperationClaim) := do
  match ← lookup replica (.idempotency owner digest) with
  | none => claimNewOperation service replica owner digest fingerprint operationID
  | some existing =>
    liftM (rejectIf (!validIdempotencyRecord existing.value) (newError .invalid "invalid preview idempotency state"))
    liftM (rejectIf (existing.value.fingerprint ≠ fingerprint)
      (newError .conflict "idempotency key was already used for another preview request"))
    match ← attempted (claimExistingOperation service replica owner digest existing) with
    | .ok claim => pure (some claim)
    | .error e => if e.kind = .notFound then pure none else throw e

def claimLoop (digest fingerprint operationID : String) : Nat → Request OperationClaim
  | 0 => throw (newError .unavailable "preview operation claim contention")
  | attempts + 1 => do
    match ← claimAttempt service replica owner digest fingerprint operationID with
    | some claim => pure claim
    | none => claimLoop digest fingerprint operationID attempts

/-- `claimOperation`. -/
def claimOperation (idempotencyKey fingerprint : String) : Request OperationClaim := do
  let operationID ← drawID
  claimLoop service replica owner (service.idempotencyDigest owner idempotencyKey) fingerprint operationID 16

/-! ## Generate -/

def stateErrorKind (state : ItemState) : ErrorKind := if state = .unavailable then .unavailable else .invalid

def ItemRequest.result (item : ItemRequest) (state : ItemState) : ItemResult :=
  { path := item.path, version := item.version, variant := item.variant, state }

/-- The operation with what became of its item; `Generate` leaves an earlier result in place if the item was
not resolved. -/
def Operation.resolved (operation : Operation) (item : ItemRequest) (now : Time) : Resolution → Operation
  | .error kind => { operation with state := .failed, errorKind := some kind, updatedAt := now }
  | .ready artifact capability =>
    let result := { item.result .ready with artifact := some artifact, capability := some capability }
    { operation with state := .succeeded, updatedAt := now, result := some result }
  | .generating _ => { operation with state := .running, updatedAt := now, result := some (item.result .generating) }
  | .unresolved state reason _ =>
    let result := { item.result state with reason }
    { operation with
        state := .failed, errorKind := some (stateErrorKind state), updatedAt := now, result := some result }

/-- The record that `Generate` gives to `finishOperation`. -/
def OperationRecord.waiting (record : OperationRecord) : Resolution → OperationRecord
  | .generating waitingFor => { record with waitGenerationID := waitingFor }
  | _ => record

/-- The record that `finishOperation` writes. -/
def OperationRecord.persisted (record : OperationRecord) (operation : Operation) : OperationRecord :=
  { record with
    operation := { operation with result := operation.result.map fun result => { result with capability := none } }
    leaseExpiresAt := if operation.state = .running then record.leaseExpiresAt else 0
    waitGenerationID := if operation.state = .running then record.waitGenerationID else "" }

def OperationRecord.finished (record : OperationRecord) (item : ItemRequest) (now : Time) (resolution : Resolution) :
    OperationRecord :=
  (record.waiting resolution).persisted (record.operation.resolved item now resolution)

/-- `finishOperation`. -/
def finishOperation (claim : OperationClaim) (item : ItemRequest) (now : Time) (resolution : Resolution) :
    Request Operation := do
  let change := setRecord (.operation owner claim.record.operation.id) claim.version
    (claim.record.finished item now resolution)
  match ← attempted (mutate (.finish owner claim.record.operation.id resolution now) [change]) with
  | .ok _ => pure (claim.record.operation.resolved item now resolution)
  | .error e =>
    if e.kind = .preconditionFailed then
      let current ← readOperation service replica owner claim.record.operation.id
      pure current.value.operation
    else throw e

def errInvalidIdempotency (value : String) : Bool :=
  value.utf8ByteSize < 16 || 128 < value.utf8ByteSize || value.toList.any fun c => c = '\r' || c = '\n' || c = '\x00'

def validateItem (item : ItemRequest) : Except Error Unit :=
  rejectIf (!service.validPath item.path || item.version = "" || !service.resolutions.contains item.variant)
    (newError .invalid "invalid preview item")

structure GenerateRequest extends ItemRequest where
  regenerate : Bool
  idempotencyKey : String

/-- `replayedOperation`. -/
def replayedOperation (operation : Operation) : Except Error Operation :=
  match operation.state, operation.result, operation.errorKind with
  | .failed, none, some kind => .error (newError kind "preview generation request failed")
  | _, _, _ => .ok operation

/-- `Generate`, up to what is read from the preview store for the response. -/
def generate (request : GenerateRequest) (resolution : Resolution) : Request Operation := do
  let item := request.toItemRequest
  liftM (rejectIf (errInvalidIdempotency request.idempotencyKey)
    (newError .invalid "a valid Idempotency-Key is required"))
  liftM (validateItem service item)
  let fingerprint := item.path ++ "\x00" ++ item.version ++ "\x00" ++ toString item.variant ++ "\x00" ++ toString
    request.regenerate
  let claim ← claimOperation service replica owner request.idempotencyKey fingerprint
  if claim.claimed then
    let now ← clockNow replica
    finishOperation service replica owner claim item now resolution
  else liftM (replayedOperation claim.record.operation)

/-- `Operation`, up to what is read from the preview store for the response. -/
def operation (operationID : String) : Request Operation := do
  liftM (rejectIf (operationID = "") (newError .invalid "invalid preview operation"))
  let found ← readOperation service replica owner operationID
  let now ← clockNow replica
  liftM (rejectIf (found.value.expiresAt ≤ now) (newError .notFound "preview operation expired"))
  pure found.value.operation

def cleanup (operationID : String) : Request Unit := do
  let index ← loadOperationIndex service replica owner operationID
  let now ← clockNow replica
  cleanupExpiredOperationIndex service replica owner index now

end

/-! ## Calls -/

inductive Call where
  | generate (replica : Nat) (owner : UserID) (request : GenerateRequest) (resolution : Resolution)
  | operation (replica : Nat) (owner : UserID) (operationID : String)
  | cleanup (replica : Nat) (owner : UserID) (operationID : String)

@[reducible] def Call.Result : Call → Type
  | .generate .. => Except Error Operation
  | .operation .. => Except Error Operation
  | .cleanup .. => Except Error Unit

def Call.body (service : Service) : (call : Call) → Conc.Prog machine call.Result
  | .generate replica owner request resolution => (Preview.generate service replica owner request resolution).run
  | .operation replica owner operationID => (Preview.operation service replica owner operationID).run
  | .cleanup replica owner operationID => (Preview.cleanup service replica owner operationID).run

def Reachable (service : Service) (cfg : Conc.Config machine Call.Result) : Prop :=
  ∃ clock, Conc.Reach (Call.body service) (.any machine Call)
    { state := ({ records := .empty, clock, log := [] } : State), pool := [] } cfg

end EndlessFS.Preview
