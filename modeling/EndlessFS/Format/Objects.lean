import EndlessFS.Domain.Head
import EndlessFS.Lib.ObjectStore

/-!
# EndlessFS.Format.Objects

The mutable objects of a bucket and the keys they live under: domain heads, the domain catalog, transition
plans and decisions (`storageformat/transitions009.go`). Each key determines the type of its object, so decoding never
fails for a kind mismatch.
-/

namespace EndlessFS

/-- `catalogEntryKey`. -/
abbrev CatalogKey := Lex (String × String)

def catalogEntryKey (ref : DomainRef) : CatalogKey := toLex (ref.kind.text, ref.id)

/-- `DomainCatalogHead`. -/
structure CatalogHead where
  revision : Nat := 0
  freezeEpoch : Nat := 0
  root : SortedMap CatalogKey DomainRef := .empty

/-- `TransitionParticipant009`; `TransitionChange009` has the fields of a domain change. -/
structure TransitionParticipant where
  kind : DomainKind
  domainID : String
  changes : List Change
  deriving DecidableEq, Repr

/-- `TransitionPlan009`. -/
structure TransitionPlan where
  transitionID : String
  fingerprint : String
  retainUntil : Time
  participants : List TransitionParticipant
  result : String
  deriving DecidableEq, Repr

/-- `TransitionDecision009`; an aborted transition records the kind of its failure. -/
structure TransitionDecision where
  transitionID : String
  fingerprint : String
  committed : Bool
  errorKind : Option ErrorKind
  decidedAt : Time
  deriving DecidableEq, Repr

/-- `transitionReference009`. -/
def TransitionParticipant.ref (participant : TransitionParticipant) : DomainRef :=
  { kind := participant.kind, id := participant.domainID }

def TransitionParticipant.ordering (participant : TransitionParticipant) : String :=
  participant.kind.text ++ "\x00" ++ participant.domainID

def validateTransitionChanges : String → List Change → Except Error Unit
  | _, [] => .ok ()
  | previousKey, change :: rest =>
    if !validDomainText change.key || change.key ≤ previousKey
        || change.require ≠ .present && change.expectedVersion ≠ ""
        || change.delete && (change.require ≠ .present || change.value ≠ .nil) then
      .error (newError .invalid "invalid transition change")
    else validateTransitionChanges change.key rest

def validateTransitionParticipants : String → List TransitionParticipant → Except Error Unit
  | _, [] => .ok ()
  | previous, participant :: rest =>
    if !validDomainText participant.domainID || participant.ordering ≤ previous
        || participant.changes.isEmpty then
      .error (newError .invalid "invalid transition participant")
    else do
      validateTransitionChanges "" participant.changes
      validateTransitionParticipants participant.ordering rest

/-- `ValidateTransitionPlan009`. -/
def validateTransitionPlan (plan : TransitionPlan) : Except Error Unit := do
  rejectIf (!validDomainText plan.transitionID || plan.retainUntil = 0 || plan.participants.length < 2
      || 16 < plan.participants.length)
    (newError .invalid "invalid transition plan")
  validateTransitionParticipants "" plan.participants

/-- `ValidateTransitionDecision009`. -/
def validateTransitionDecision (decision : TransitionDecision) : Except Error Unit :=
  if !validDomainText decision.transitionID || decision.decidedAt = 0
      || decision.committed && decision.errorKind ≠ none
      || !decision.committed && decision.errorKind ≠ some .conflict && decision.errorKind ≠ some .notFound
        && decision.errorKind ≠ some .preconditionFailed && decision.errorKind ≠ some .invalid then
    .error (newError .invalid "invalid transition decision")
  else .ok ()

inductive ObjectKey where
  | head (ref : DomainRef)
  | catalog
  | plan (transitionID : String)
  | decision (transitionID : String)
  deriving DecidableEq, Repr

@[reducible] def Object : ObjectKey → Type
  | .head _ => DomainHead
  | .catalog => CatalogHead
  | .plan _ => TransitionPlan
  | .decision _ => TransitionDecision

end EndlessFS
