import Mathlib.Data.List.Sort
import EndlessFS.Format.Domain

/-!
# EndlessFS.Domain.Head

What `portable/domain_store.go` computes from one head, without touching the backend: lookups of
values and outcomes, the checks a mutation has to pass, and the heads that a mutation, a
materialized mutation and a compaction publish.
-/

namespace EndlessFS

/-- `consistencyDomainDeltaWindow`. -/
def consistencyDomainDeltaWindow : Nat := 32

/-- `domainPageMaximumItems`. -/
def domainPageMaximumItems : Nat := 256

/-- `terminalOperationRetention`, thirty days. -/
def terminalOperationRetention : Time := 30 * 24 * 60 * 60

def transitionLockKey : String := "__transition_lock__"

/-- `domainValueRequirement`. -/
inductive Requirement where
  | any
  | absent
  | present
  deriving DecidableEq, Repr

/-- `consistencyDomainChange`. -/
structure Change where
  key : String
  require : Requirement
  expectedVersion : String := ""
  delete : Bool := false
  value : Bytes := .nil
  deriving DecidableEq, Repr

/-- `consistencyDomainMutation`. -/
structure Mutation where
  id : String
  transitionID : String := ""
  retainUntil : Time := 0
  changes : List Change
  result : String := ""
  expectedRevision : Option Nat := none
  deriving DecidableEq, Repr

/-- `consistencyDomainOutcome`. -/
structure Outcome where
  mutationID : String
  fingerprint : String
  revision : Nat
  retainUntil : Time
  result : String
  replayed : Bool := false
  deriving DecidableEq, Repr

/-- `consistencyDomainValue`. -/
structure DomainValue where
  data : Bytes
  logicalVersion : String
  revision : Nat
  deriving DecidableEq, Repr

/-- The canonical encodings and digests the store is built on: the two intent fingerprints, the
logical version of a written value, the plain digest of a text, and which records fit the encoding. -/
structure Codec where
  fingerprint : List Change → String → String
  materializedFingerprint : List Change → String → String
  version : String → String → String → Bytes → String
  digest : String → String
  encodesMutation : Mutation → Bool
  encodesHead : DomainHead → Bool

def markedText (text : String) : String :=
  String.ofList ('#' :: text.toList.map fun c => if c = '\x00' then '0' else c)

def Codec.plain : Codec where
  fingerprint changes result := "f(" ++ String.intercalate "," (changes.map (·.key)) ++ ")" ++ result
  materializedFingerprint changes result :=
    "m(" ++ String.intercalate "," (changes.map (·.key)) ++ ")" ++ result
  version id fingerprint key _ := markedText (id ++ "/" ++ fingerprint ++ "/" ++ key)
  digest := markedText
  encodesMutation _ := true
  encodesHead _ := true

/-- `consistencyDomainLogicalVersion`. -/
def logicalVersion (codec : Codec) (mutationID fingerprint : String) (change : Change) : String :=
  if change.delete then "" else codec.version mutationID fingerprint change.key change.value

/-! ## Normalizing a mutation -/

def sortChanges (changes : List Change) : List Change :=
  changes.insertionSort fun left right => left.key ≤ right.key

/-- The checks on sorted changes; `message` is the only difference between the two callers. -/
def checkChanges (message : String) : String → List Change → Except Error Unit
  | _, [] => .ok ()
  | previous, change :: rest =>
    if change.key = "" || change.key = previous
        || change.require ≠ .present && change.expectedVersion ≠ ""
        || change.delete && change.value ≠ .nil then
      .error (newError .invalid message)
    else checkChanges message change.key rest

/-- `normalizeConsistencyDomainMutation`. -/
def normalizeMutation (codec : Codec) (m : Mutation) : Except Error (Mutation × String) := do
  if m.id = "" || m.changes.isEmpty then
    throw (newError .invalid "invalid consistency-domain mutation")
  let changes := sortChanges m.changes
  checkChanges "invalid consistency-domain change" "" changes
  if !codec.encodesMutation { m with changes } then
    throw (newError .invalid "canonical record exceeds size limit")
  return ({ m with changes }, codec.fingerprint changes m.result)

/-- `normalizeMaterializedConsistencyDomainMutation`: no bound on the whole record. -/
def normalizeMaterializedMutation (codec : Codec) (m : Mutation) : Except Error (Mutation × String) := do
  if m.id = "" || m.changes.isEmpty then
    throw (newError .invalid "invalid materialized consistency-domain mutation")
  let changes := sortChanges m.changes
  checkChanges "invalid materialized consistency-domain change" "" changes
  return ({ m with changes }, codec.materializedFingerprint changes m.result)

/-! ## Reading a head -/

/-- The newest delta that changes `key`, with the change. -/
def deltaChange (deltas : List DomainDelta) (key : String) : Option (DomainDelta × DomainChange) :=
  deltas.reverse.findSome? fun delta =>
    (delta.changes.find? fun change => change.key = key).map fun change => (delta, change)

/-- `lookupAtHeadWithSession`. -/
def lookupAtHead (head : DomainHead) (key : String) : Option DomainValue :=
  match deltaChange head.deltas key with
  | some (delta, change) =>
    if change.delete then none
    else some { data := change.value, logicalVersion := change.logicalVersion, revision := delta.revision }
  | none => (head.base.get key).map fun e => { data := e.value, logicalVersion := e.logicalVersion, revision := 0 }

def DomainDelta.outcome (delta : DomainDelta) : Outcome :=
  { mutationID := delta.mutationID, fingerprint := delta.fingerprint, revision := delta.revision
    retainUntil := delta.retainUntil, result := delta.result }

def DomainOutcome.outcome (recorded : DomainOutcome) : Outcome :=
  { mutationID := recorded.mutationID, fingerprint := recorded.fingerprint, revision := recorded.revision
    retainUntil := recorded.retainUntil, result := recorded.result }

/-- `lookupOutcomeAtHeadWithSession` at time `now`: the newest unexpired delta with the ID, or else
the unexpired recorded outcome. -/
def lookupOutcomeAtHead (now : Time) (head : DomainHead) (mutationID : String) :
    Except Error (Option Outcome) :=
  match head.deltas.reverse.find? fun d => d.mutationID = mutationID && now < d.retainUntil with
  | some delta => .ok (some delta.outcome)
  | none =>
    match head.outcomes.get mutationID with
    | none => .ok none
    | some recorded =>
      if recorded.mutationID ≠ mutationID then
        .error (newError .invalid "misbound consistency-domain outcome")
      else if now < recorded.retainUntil then .ok (some recorded.outcome)
      else .ok none

/-- `transitionLockAtHeadWithSession009`. -/
def transitionLockAtHead (ref : DomainRef) (head : DomainHead) :
    Except Error (Option (TransitionLock × DomainValue)) :=
  match lookupAtHead head transitionLockKey with
  | none => .ok none
  | some value =>
    match value.data with
    | .lock lock =>
      if !validDomainText lock.transitionID || lock.kind ≠ ref.kind || lock.domainID ≠ ref.id then
        .error (newError .invalid "invalid consistency-domain transition lock")
      else .ok (some (lock, value))
    | _ => .error (newError .invalid "invalid consistency-domain transition lock")

def checkChange (current : Option DomainValue) (change : Change) : Except Error Unit := do
  match change.require, current with
  | .absent, some _ => throw (newError .conflict "consistency-domain value already exists")
  | .present, none => throw (newError .notFound "consistency-domain value does not exist")
  | .present, some value =>
    if change.expectedVersion ≠ "" && value.logicalVersion ≠ change.expectedVersion then
      throw (newError .preconditionFailed "stale consistency-domain value version")
  | _, _ => pure ()
  if change.delete && current.isNone then
    throw (newError .notFound "consistency-domain value does not exist")

/-- `validateMutationAtHeadWithSession`. -/
def validateMutationAtHead (head : DomainHead) : List Change → Except Error Unit
  | [] => .ok ()
  | change :: rest => do
    checkChange (lookupAtHead head change.key) change
    validateMutationAtHead head rest

/-! ## The heads that are published -/

def Change.stored (codec : Codec) (m : Mutation) (fingerprint : String) (change : Change) : DomainChange :=
  { key := change.key, delete := change.delete, value := change.value
    logicalVersion := logicalVersion codec m.id fingerprint change }

def Mutation.delta (codec : Codec) (m : Mutation) (fingerprint : String) (revision : Nat) : DomainDelta :=
  { mutationID := m.id, fingerprint, revision, retainUntil := m.retainUntil
    changes := m.changes.map (Change.stored codec m fingerprint), result := m.result }

/-- The head that `mutatePrepared` publishes: one more delta. -/
def appendDelta (codec : Codec) (head : DomainHead) (m : Mutation) (fingerprint : String) : DomainHead :=
  { head with
    registered := true
    revision := head.revision + 1
    deltas := head.deltas ++ [m.delta codec fingerprint (head.revision + 1)] }

def DomainChange.entry (change : DomainChange) : Option DomainEntry :=
  if change.delete then none else some { value := change.value, logicalVersion := change.logicalVersion }

/-- `latest[change.Key] = change` for every change of a list. -/
def foldChanges (latest : SortedMap String (Option DomainEntry)) (changes : List DomainChange) :
    SortedMap String (Option DomainEntry) :=
  changes.foldl (fun latest change => latest.set change.key (some change.entry)) latest

def foldDeltas (deltas : List DomainDelta) : SortedMap String (Option DomainEntry) :=
  deltas.foldl (fun latest delta => foldChanges latest delta.changes) .empty

/-- Pending updates of the outcome tree and of the expiry tree; `none` deletes. -/
structure OutcomeBatch where
  outcomes : SortedMap String (Option DomainOutcome) := .empty
  expiries : SortedMap ExpiryKey (Option String) := .empty

def OutcomeBatch.record (batch : OutcomeBatch) (recorded : DomainOutcome) : OutcomeBatch :=
  { outcomes := batch.outcomes.set recorded.mutationID (some (some recorded))
    expiries := batch.expiries.set (expiryKey recorded.retainUntil recorded.mutationID)
      (some (some recorded.mutationID)) }

def DomainDelta.recorded (delta : DomainDelta) : DomainOutcome :=
  { mutationID := delta.mutationID, fingerprint := delta.fingerprint, revision := delta.revision
    retainUntil := delta.retainUntil, result := delta.result }

/-- The outcomes of a delta window that have not expired at `now`. -/
def foldOutcomes (now : Time) (deltas : List DomainDelta) : OutcomeBatch :=
  deltas.foldl (fun batch delta => if now < delta.retainUntil then batch.record delta.recorded else batch) {}

/-- The time of an expiry entry, `parseConsistencyDomainExpiryTime`. -/
def expiryTime (key : ExpiryKey) : Time := (ofLex key).1

/-- An expired entry is deleted, and with it the outcome stored under its mutation ID unless this
batch replaces it. -/
def OutcomeBatch.expire (batch : OutcomeBatch) (key : ExpiryKey) (mutationID : String) : OutcomeBatch :=
  { outcomes :=
      if (batch.outcomes.get mutationID).isSome then batch.outcomes
      else batch.outcomes.set mutationID (some none)
    expiries := batch.expiries.set key (some none) }

/-- The loop of `pruneExpiredOutcomes` over the earliest expiry entries. -/
def pruneEntries (now : Time) : List (ExpiryKey × String) → OutcomeBatch → Except Error OutcomeBatch
  | [], batch => .ok batch
  | (key, mutationID) :: rest, batch =>
    if expiryTime key = 0 then
      .error (newError .invalid "invalid consistency-domain outcome expiry")
    else if now < expiryTime key then .ok batch
    else if mutationID = "" || expiryKey (expiryTime key) mutationID ≠ key then
      .error (newError .invalid "invalid consistency-domain outcome expiry")
    else pruneEntries now rest (batch.expire key mutationID)

/-- `pruneExpiredOutcomes`: the new outcome tree and the new expiry tree. -/
def pruneExpiredOutcomes (now : Time) (head : DomainHead) (batch : OutcomeBatch) :
    Except Error (SortedMap String DomainOutcome × SortedMap ExpiryKey String) := do
  let pruned ← pruneEntries now (head.outcomeExpiry.entries.take domainPageMaximumItems) batch
  return (head.outcomes.apply pruned.outcomes.entries, head.outcomeExpiry.apply pruned.expiries.entries)

/-- The head that `compactSnapshot` publishes. -/
def compactHead (now : Time) (head : DomainHead) : Except Error DomainHead := do
  let (outcomes, outcomeExpiry) ← pruneExpiredOutcomes now head (foldOutcomes now head.deltas)
  return { head with
    base := head.base.apply (foldDeltas head.deltas).entries
    outcomes, outcomeExpiry
    baseRevision := head.revision
    deltas := [] }

/-- The head that `mutateMaterializedPrepared` publishes. -/
def materializedHead (codec : Codec) (now : Time) (head : DomainHead) (m : Mutation)
    (fingerprint : String) : Except Error DomainHead := do
  let delta := m.delta codec fingerprint (head.revision + 1)
  let (outcomes, outcomeExpiry) ←
    pruneExpiredOutcomes now head ((foldOutcomes now head.deltas).record delta.recorded)
  return { head with
    base := head.base.apply (foldChanges (foldDeltas head.deltas) delta.changes).entries
    outcomes, outcomeExpiry
    revision := head.revision + 1
    baseRevision := head.revision + 1
    deltas := [] }

end EndlessFS
