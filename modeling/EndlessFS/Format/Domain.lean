import Mathlib.Data.String.Basic
import Mathlib.Data.Prod.Lex
import EndlessFS.Lib.SortedMap

/-!
# EndlessFS.Format.Domain

The records of a consistency domain (`storageformat/domains.go`) and the error taxonomy
(`domain/errors.go`).

* An immutable tree is given by its entries: a `DomainTreeRoot` names exactly one sorted list of
  entries, and `apply` on the tree is the batch update of that map.
* Times are natural numbers of seconds, `0` the zero time.
* `Bytes`: an opaque byte string, or the canonical encoding of one of the two records that the
  modelled code decodes from a stored value, transition locks and uploads.
* `validateDomainHead`, `validateInitialDomainHead`: what is checked when a head is read and before
  it is written. Whether a record fits the canonical encoding is a parameter.
-/

namespace EndlessFS

abbrev Time := Nat

/-- `domain.ErrorKind`. -/
inductive ErrorKind where
  | invalid
  | unauthenticated
  | unauthorized
  | notFound
  | conflict
  | preconditionFailed
  | rateLimited
  | unavailable
  | internal
  deriving DecidableEq, Repr

/-- A domain error; `pending` marks those that wrap `errTransitionPending009`. -/
structure Error where
  kind : ErrorKind
  message : String
  pending : Bool := false
  deriving DecidableEq, Repr

/-- `domain.NewError`. -/
def newError (kind : ErrorKind) (message : String) : Error := { kind, message }

/-- `if rejected { return err }`. -/
def rejectIf (rejected : Bool) (e : Error) : Except Error Unit := if rejected then .error e else .ok ()

@[simp] theorem rejectIf_eq_ok_iff {rejected : Bool} {e : Error} {u : Unit} :
    rejectIf rejected e = .ok u ↔ rejected = false := by
  cases rejected <;> simp [rejectIf]

/-- A lost conditional write: `errors.Is(err, ErrConflict) || errors.Is(err, ErrPreconditionFailed)`. -/
def Error.isRace (e : Error) : Bool := e.kind = .conflict || e.kind = .preconditionFailed

/-- `math.MaxUint64`. -/
def maxUint64 : Nat := 2 ^ 64 - 1

/-- `ConsistencyDomainKind`. -/
inductive DomainKind where
  | domainNamespace
  | domainOwnerControl
  | domainAdmin
  | domainCapability
  | domainShare
  | domainIdentity
  | domainOwnerJobs
  deriving DecidableEq, Repr

def DomainKind.text : DomainKind → String
  | .domainNamespace => "namespace"
  | .domainOwnerControl => "owner-control"
  | .domainAdmin => "administration"
  | .domainCapability => "capability"
  | .domainShare => "share"
  | .domainIdentity => "owner-identity"
  | .domainOwnerJobs => "owner-jobs"

/-- `consistencyDomainRef`. -/
structure DomainRef where
  kind : DomainKind
  id : String
  deriving DecidableEq, Repr

/-- `TransitionLock009`. -/
structure TransitionLock where
  transitionID : String
  fingerprint : String
  kind : DomainKind
  domainID : String
  deriving DecidableEq, Repr

inductive UploadState where
  | uploadInitializing
  | uploadActive
  | uploadTerminal
  deriving DecidableEq, Repr

/-- `PortableUploadRecord`: what closing the gate reads of it. -/
structure UploadRecord where
  uploadID : String
  ownerID : String
  state : UploadState
  expiresAt : Time
  cleanupPending : Bool
  deriving DecidableEq, Repr

inductive Bytes where
  | raw (text : String)
  | lock (lock : TransitionLock)
  | upload (record : UploadRecord)
  deriving DecidableEq, Repr

def Bytes.nil : Bytes := .raw ""

structure DomainEntry where
  value : Bytes
  logicalVersion : String
  deriving DecidableEq, Repr

structure DomainChange where
  key : String
  delete : Bool
  value : Bytes
  logicalVersion : String
  deriving DecidableEq, Repr

structure DomainDelta where
  mutationID : String
  fingerprint : String
  revision : Nat
  retainUntil : Time
  changes : List DomainChange
  result : String
  deriving DecidableEq, Repr

structure DomainOutcome where
  mutationID : String
  fingerprint : String
  revision : Nat
  retainUntil : Time
  result : String
  deriving DecidableEq, Repr

/-- `consistencyDomainOutcomeExpiryKey`: ordered by time first. -/
abbrev ExpiryKey := Lex (Time × String)

def expiryKey (retainUntil : Time) (mutationID : String) : ExpiryKey := toLex (retainUntil, mutationID)

structure DomainHead where
  domainID : String
  kind : DomainKind
  registered : Bool := false
  revision : Nat := 0
  frozen : Bool := false
  freezeEpoch : Nat := 0
  baseRevision : Nat := 0
  base : SortedMap String DomainEntry := .empty
  outcomes : SortedMap String DomainOutcome := .empty
  outcomeExpiry : SortedMap ExpiryKey String := .empty
  deltas : List DomainDelta := []
  deriving DecidableEq

def initialHead (ref : DomainRef) : DomainHead := { domainID := ref.id, kind := ref.kind }

/-- The registered head with nothing in it, which preconditions are checked against before a
domain exists. -/
def emptyHead (ref : DomainRef) : DomainHead := { domainID := ref.id, kind := ref.kind, registered := true }

def isEmptyTree {K V : Type} [LinearOrder K] (m : SortedMap K V) : Bool := m.entries.isEmpty

def validDomainText (value : String) : Bool := value ≠ "" && !(value.toList.any (· = '\x00'))

def validateChanges : String → List DomainChange → Except Error Unit
  | _, [] => .ok ()
  | previousKey, change :: rest =>
    if !validDomainText change.key || previousKey ≠ "" && change.key ≤ previousKey
        || change.delete && (change.value ≠ .nil || change.logicalVersion ≠ "")
        || !change.delete && !validDomainText change.logicalVersion then
      .error (newError .invalid "invalid consistency-domain change")
    else validateChanges change.key rest

def validateDeltas : Nat → List DomainDelta → Except Error Unit
  | _, [] => .ok ()
  | previousRevision, delta :: rest =>
    if !validDomainText delta.mutationID || delta.revision ≠ previousRevision + 1
        || delta.retainUntil = 0 || delta.changes.isEmpty then
      .error (newError .invalid "invalid consistency-domain delta")
    else do
      validateChanges "" delta.changes
      validateDeltas delta.revision rest

def validateWindow (head : DomainHead) : Except Error Unit :=
  match head.deltas.getLast? with
  | some delta => rejectIf (delta.revision ≠ head.revision)
      (newError .invalid "consistency-domain revision does not bind its delta window")
  | none => rejectIf (head.baseRevision ≠ head.revision)
      (newError .invalid "consistency-domain base does not bind its revision")

/-- `ValidateDomainHead`. -/
def validateDomainHead (encodes : DomainHead → Bool) (head : DomainHead) : Except Error Unit := do
  rejectIf (head.domainID = "" || !head.registered) (newError .invalid "invalid consistency-domain head")
  rejectIf (head.frozen ≠ decide (head.freezeEpoch ≠ 0))
    (newError .invalid "invalid consistency-domain freeze binding")
  rejectIf (head.revision < head.baseRevision) (newError .invalid "invalid consistency-domain base revision")
  rejectIf (head.revision = 0 && (head.baseRevision ≠ 0 || !isEmptyTree head.base || !isEmptyTree head.outcomes
      || !isEmptyTree head.outcomeExpiry || !head.deltas.isEmpty))
    (newError .invalid "zero-revision consistency-domain head is not empty")
  validateDeltas head.baseRevision head.deltas
  validateWindow head
  rejectIf (!encodes head) (newError .invalid "canonical record exceeds size limit")

/-- `ValidateInitialDomainHead`. -/
def validateInitialDomainHead (encodes : DomainHead → Bool) (head : DomainHead) : Except Error Unit := do
  rejectIf (head.registered || head.domainID = "" || head.revision ≠ 0 || head.baseRevision ≠ 0 || head.frozen
      || head.freezeEpoch ≠ 0 || !isEmptyTree head.base || !isEmptyTree head.outcomes
      || !isEmptyTree head.outcomeExpiry || !head.deltas.isEmpty)
    (newError .invalid "invalid initial consistency-domain head")
  rejectIf (!encodes head) (newError .invalid "canonical record exceeds size limit")

end EndlessFS
