import EndlessFS.Format.Objects

/-!
# EndlessFS.Domain.Store

The backend programs of `portable/domain_store.go` and of the registration half of
`portable/domain_catalog.go`, as programs over a shared bucket: every backend call and every clock
read is one atomic operation, and other replicas may act between any two of them.

* `Action`: such a program with the error results of the source.
* Loops that the source leaves unbounded take a `fuel`; running out of it is an error
  (`outOfFuel`) that no source function returns.
* Page and pack objects are immutable and content addressed; a head carries the trees they
  hold, so their reads and writes are not operations here.
-/

namespace EndlessFS

open Conc (PutCondition PutReply GetReply StoreOp)

/-- Places in the source that a statement refers to. -/
inductive Site where
  | plain
  /-- `prepareTransitionParticipant009` loads the participant's head. -/
  | prepareLoad (plan : TransitionPlan) (participant : TransitionParticipant)
  /-- `finalizeTransitionParticipant009` loads the participant's head. -/
  | finalizeLoad (plan : TransitionPlan) (participant : TransitionParticipant) (committed : Bool)
  /-- `mutatePrepared` and `mutateMaterializedPrepared` publish a head for this mutation. -/
  | publish (mutation : Mutation)
  /-- `consistencyDomainStore.freeze` publishes a frozen head. -/
  | freezeHead (epoch : Nat)
  /-- `consistencyDomainStore.unfreeze` publishes a thawed head. -/
  | unfreezeHead (epoch : Nat)
  /-- `domainCatalog.unfreeze` reads the catalog it is about to thaw, and publishes the thawed one. -/
  | unfreezeCatalog (epoch : Nat)
  /-- `mutatePrepared` loads the head again after it has folded a window that did not fit. -/
  | reload
  /-- `collectExpiredTransition009` deletes the decision of this plan's transition. -/
  | collectDecision (plan : TransitionPlan)
  /-- `buildStateQuerySnapshot` loads the head of one of the `domains` of its catalog; `loaded` are those it
  has loaded before, with the versions it found. -/
  | queryLoad (domains : List DomainRef) (loaded : List (DomainRef × Option Nat))
  deriving DecidableEq, Repr

abbrev Bucket := Conc.Store Site ObjectKey Object

abbrev bucketMachine : Conc.Machine := Conc.storeMachine Site ObjectKey Object

abbrev Action (α : Type) := ExceptT Error (Conc.Prog bucketMachine) α

def transportError : Error := newError .unavailable "object store request failed"

def outOfFuel : Error := newError .internal "loop bound reached"

/-! ## Backend calls -/

def perform (o : StoreOp Site ObjectKey Object) : Action o.Reply :=
  ExceptT.lift (Conc.Prog.perform (M := bucketMachine) o)

/-- The outcome of an action as a value, as when the source inspects an `err`. -/
def attempt {α : Type} (a : Action α) : Action (Except Error α) := ExceptT.lift a.run

def ignoreRace {α : Type} : Except Error α → Except Error Unit
  | .ok _ => .ok ()
  | .error e => rejectIf (!e.isRace) e

/-- `backend.Get`: `none` is `ErrNotFound`. -/
def getObject (site : Site) (k : ObjectKey) : Action (Option (Nat × Object k)) := do
  match ← perform (.get site k) with
  | .found version value => return some (version, value)
  | .missing => return none
  | .failed => throw transportError

def putError : PutReply → Except Error Nat
  | .stored version => .ok version
  | .conflict => .error (newError .conflict "object already exists")
  | .preconditionFailed => .error (newError .preconditionFailed "object version changed")
  | .notFound => .error (newError .notFound "object does not exist")
  | .failed => .error transportError

/-- `backend.Put`. -/
def putObject (site : Site) (k : ObjectKey) (value : Object k) (condition : PutCondition) : Action Nat := do
  putError (← perform (.put site k value condition))

def clockNow : Action Time := perform (.now .plain)

def putCondition : Option Nat → PutCondition
  | none => .createOnly
  | some version => .match version

/-! ## Heads -/

/-- `consistencyDomainHeadSnapshot`; `version` is `none` for a head that does not exist. -/
structure HeadSnapshot where
  head : DomainHead
  version : Option Nat

def HeadSnapshot.exists (s : HeadSnapshot) : Bool := s.version.isSome

def absentHead : DomainHead := { domainID := "", kind := .domainNamespace }

def validateConsistencyDomainRef (ref : DomainRef) : Except Error Unit :=
  rejectIf (ref.id = "") (newError .invalid "invalid consistency-domain reference")

def decodeHead (codec : Codec) (ref : DomainRef) (head : DomainHead) : Except Error Unit :=
  if head.domainID ≠ ref.id || head.kind ≠ ref.kind then
    .error (newError .invalid "consistency-domain head key binding mismatch")
  else if head.registered then validateDomainHead codec.encodesHead head
  else validateInitialDomainHead codec.encodesHead head

/-- `loadHead`, labelled by the place that calls it. -/
def loadHeadAt (codec : Codec) (site : Site) (ref : DomainRef) : Action HeadSnapshot := do
  validateConsistencyDomainRef ref
  match ← getObject site (.head ref) with
  | none => return { head := absentHead, version := none }
  | some (version, head) =>
    decodeHead codec ref head
    return { head, version := some version }

def loadHead (codec : Codec) (ref : DomainRef) : Action HeadSnapshot := loadHeadAt codec .plain ref

/-- `encodeHead` succeeds. -/
def encodeHead (codec : Codec) (head : DomainHead) : Except Error Unit :=
  validateDomainHead codec.encodesHead head

/-- The part of `consistencyDomainTreeSession` that binds a mutation in time. -/
structure Session where
  preparedAt : Time
  retainUntil : Time
  deriving DecidableEq, Repr

/-- `bindPreparedMutation`. -/
def bindPreparedMutation (retainUntil : Time) : Action Session := do
  let now ← clockNow
  let deadline := if retainUntil = 0 then now + terminalOperationRetention else retainUntil
  rejectIf (deadline ≤ now) (newError .unavailable "consistency-domain preparation deadline expired")
  return { preparedAt := now, retainUntil := deadline }

/-- `preparation`. -/
def Session.preparation (session : Session) (retainUntil : Time) : Action (Time × Time) := do
  rejectIf (session.preparedAt = 0 || session.retainUntil = 0)
    (newError .invalid "consistency-domain mutation has no preparation binding")
  rejectIf (retainUntil ≠ 0 && session.retainUntil ≠ retainUntil)
    (newError .invalid "consistency-domain preparation deadline changed")
  let now ← clockNow
  rejectIf (session.retainUntil ≤ now)
    (newError .unavailable "consistency-domain preparation deadline expired")
  return (session.preparedAt, session.retainUntil)

/-- `compactSnapshot`. -/
def compactSnapshot (codec : Codec) (ref : DomainRef) (snapshot : HeadSnapshot) : Action Unit := do
  rejectIf snapshot.head.frozen (newError .unavailable "consistency domain is frozen")
  match snapshot.version with
  | none => return ()
  | some version =>
    if snapshot.head.deltas.isEmpty && isEmptyTree snapshot.head.outcomeExpiry then return ()
    let session ← bindPreparedMutation 0
    let (now, _) ← session.preparation 0
    let next ← compactHead now snapshot.head
    encodeHead codec next
    let _ ← session.preparation 0
    let _ ← putObject .plain (.head ref) next (.match version)

/-- `compact`. -/
def compact (codec : Codec) (ref : DomainRef) : Action Unit := do
  let snapshot ← loadHead codec ref
  compactSnapshot codec ref snapshot

/-! ## Registration -/

/-- `domainCatalogSnapshot`. -/
structure CatalogSnapshot where
  head : CatalogHead
  version : Option Nat

/-- `domainCatalog.load`. -/
def loadCatalog (site : Site) : Action CatalogSnapshot := do
  match ← getObject site .catalog with
  | none => return { head := {}, version := none }
  | some (version, head) => return { head, version := some version }

/-- `domainCatalog.publish`. -/
def publishCatalog (snapshot : CatalogSnapshot) (next : CatalogHead) : Action Unit := do
  let _ ← putObject .plain .catalog next (putCondition snapshot.version)

/-- `domainCatalog.register`. -/
def registerInCatalog (ref : DomainRef) : Nat → Action Unit
  | 0 => throw outOfFuel
  | fuel + 1 => do
    validateConsistencyDomainRef ref
    let snapshot ← loadCatalog .plain
    match snapshot.head.root.get (catalogEntryKey ref) with
    | some existing =>
      rejectIf (existing ≠ ref) (newError .conflict "consistency-domain catalog identity conflict")
    | none =>
      rejectIf (snapshot.head.freezeEpoch ≠ 0)
        (newError .unavailable "consistency-domain catalog is frozen")
      let next := { snapshot.head with
        revision := snapshot.head.revision + 1
        root := snapshot.head.root.set (catalogEntryKey ref) (some ref) }
      match ← attempt (publishCatalog snapshot next) with
      | .ok _ => return ()
      | .error e => if e.isRace then registerInCatalog ref fuel else throw e

/-- `prepareRegistration`, starting from a head the caller has loaded. -/
def prepareRegistrationFrom (codec : Codec) (ref : DomainRef) : Nat → HeadSnapshot → Action HeadSnapshot
  | 0, _ => throw outOfFuel
  | fuel + 1, snapshot => do
    match snapshot.version with
    | some _ =>
      if snapshot.head.registered then return snapshot
      else
        registerInCatalog ref fuel
        return snapshot
    | none =>
      validateInitialDomainHead codec.encodesHead (initialHead ref)
      match ← attempt (putObject .plain (.head ref) (initialHead ref) .createOnly) with
      | .ok version =>
        registerInCatalog ref fuel
        return { head := initialHead ref, version := some version }
      | .error e =>
        if e.kind = .conflict then
          let again ← loadHead codec ref
          prepareRegistrationFrom codec ref fuel again
        else throw e

/-- `prepareRegistration`. -/
def prepareRegistration (codec : Codec) (fuel : Nat) (ref : DomainRef) : Action HeadSnapshot := do
  let snapshot ← loadHead codec ref
  prepareRegistrationFrom codec ref fuel snapshot

/-- The attempts of `ensureRegistered`. -/
def ensureRegisteredLoop (codec : Codec) (fuel : Nat) (ref : DomainRef) : Nat → Action Unit
  | 0 => throw (newError .unavailable "consistency-domain registration remained contended")
  | attempts + 1 => do
    let snapshot ← prepareRegistration codec fuel ref
    if snapshot.head.registered then return ()
    else
      let next := { snapshot.head with registered := true }
      encodeHead codec next
      match ← attempt (putObject .plain (.head ref) next (putCondition snapshot.version)) with
      | .ok _ => return ()
      | .error e => if e.isRace then ensureRegisteredLoop codec fuel ref attempts else throw e

/-- `ensureRegistered`. -/
def ensureRegistered (codec : Codec) (fuel : Nat) (ref : DomainRef) : Action Unit :=
  ensureRegisteredLoop codec fuel ref 8

/-! ## Mutations -/

def replayOutcome (fingerprint : String) (outcome : Outcome) : Except Error Outcome :=
  if outcome.fingerprint ≠ fingerprint then
    .error (newError .conflict "consistency-domain idempotency key was reused")
  else .ok { outcome with replayed := true }

/-- `lookupOutcomeAtHead` at the current time. -/
def lookupOutcome (head : DomainHead) (mutationID : String) : Action (Option Outcome) := do
  let now ← clockNow
  lookupOutcomeAtHead now head mutationID

def admitMutation (ref : DomainRef) (head : DomainHead) (m : Mutation) : Except Error Unit := do
  rejectIf (m.expectedRevision.isSome && m.expectedRevision ≠ some head.revision)
    (newError .conflict "consistency-domain snapshot changed")
  rejectIf head.frozen (newError .unavailable "consistency domain is frozen")
  let lock ← transitionLockAtHead ref head
  rejectIf (lock.any fun l => m.transitionID ≠ l.1.transitionID)
    { newError .unavailable "consistency domain has a pending transition" with pending := true }
  validateMutationAtHead head m.changes

def checkPreparation (session : Option Session) (retainUntil : Time) : Action Unit := do
  match session with
  | some session =>
    let _ ← session.preparation retainUntil
    return ()
  | none => return ()

def publishedOutcome (m : Mutation) (fingerprint : String) (revision : Nat) : Outcome :=
  { mutationID := m.id, fingerprint, revision, retainUntil := m.retainUntil, result := m.result }

def nextSnapshot (codec : Codec) (ref : DomainRef) : Option HeadSnapshot → Action HeadSnapshot
  | some snapshot => pure snapshot
  | none => loadHeadAt codec .reload ref

/-- The publication loop of `mutatePrepared`; `first` is a head that is already loaded. -/
def publishLoop (codec : Codec) (ref : DomainRef) (m : Mutation) (fingerprint : String)
    (session : Option Session) : Nat → Option HeadSnapshot → Action Outcome
  | 0, _ => throw outOfFuel
  | fuel + 1, first => do
    let snapshot ← nextSnapshot codec ref first
    match ← lookupOutcome snapshot.head m.id with
    | some outcome => replayOutcome fingerprint outcome
    | none =>
      admitMutation ref snapshot.head m
      let next := appendDelta codec snapshot.head m fingerprint
      match encodeHead codec next with
      | .error encodeErr =>
        -- the window is folded into the base and the publication tried again
        rejectIf snapshot.head.deltas.isEmpty encodeErr
        ignoreRace (← attempt (compact codec ref))
        publishLoop codec ref m fingerprint session fuel none
      | .ok _ =>
        checkPreparation session m.retainUntil
        match ← attempt (putObject (.publish m) (.head ref) next (putCondition snapshot.version)) with
        | .ok _ => return publishedOutcome m fingerprint (snapshot.head.revision + 1)
        | .error putErr =>
          -- the stored head, not the response, says whether the write happened
          match ← attempt (loadHead codec ref) with
          | .error _ => throw putErr
          | .ok recovered =>
            match ← lookupOutcome recovered.head m.id with
            | some outcome => replayOutcome fingerprint outcome
            | none =>
              validateMutationAtHead recovered.head m.changes
              if recovered.version ≠ snapshot.version && !recovered.head.frozen && putErr.isRace then
                publishLoop codec ref m fingerprint session fuel (some recovered)
              else throw putErr

def preflightLoop (codec : Codec) (ref : DomainRef) : Nat → HeadSnapshot → Action HeadSnapshot
  | 0, _ => throw outOfFuel
  | fuel + 1, preflight => do
    if preflight.exists && preflight.head.registered
        && consistencyDomainDeltaWindow ≤ preflight.head.deltas.length then
      ignoreRace (← attempt (compactSnapshot codec ref preflight))
      let again ← loadHead codec ref
      preflightLoop codec ref fuel again
    else return preflight

def bindRetention (m : Mutation) (session : Option Session) : Action Mutation := do
  match session with
  | some session =>
    let (_, deadline) ← session.preparation m.retainUntil
    return { m with retainUntil := deadline }
  | none =>
    if m.retainUntil = 0 then
      let now ← clockNow
      return { m with retainUntil := now + terminalOperationRetention }
    else return m

def startingHead (codec : Codec) (ref : DomainRef) : Option HeadSnapshot → Action HeadSnapshot
  | none => loadHead codec ref
  | some snapshot => do
    rejectIf (snapshot.exists && (snapshot.head.domainID ≠ ref.id || snapshot.head.kind ≠ ref.kind))
      (newError .invalid "misbound prepared consistency-domain head")
    return snapshot

/-- `mutatePrepared`. -/
def mutatePrepared (codec : Codec) (fuel : Nat) (ref : DomainRef) (mutation : Mutation)
    (initial : Option HeadSnapshot) (session : Option Session) : Action Outcome := do
  validateConsistencyDomainRef ref
  let bound ← bindRetention mutation session
  let (m, fingerprint) ← normalizeMutation codec bound
  let loaded ← startingHead codec ref initial
  let preflight ← preflightLoop codec ref fuel loaded
  if !preflight.exists || !preflight.head.registered then
    validateMutationAtHead (emptyHead ref) m.changes
    let registered ← prepareRegistrationFrom codec ref fuel preflight
    publishLoop codec ref m fingerprint session fuel (some registered)
  else publishLoop codec ref m fingerprint session fuel (some preflight)

/-- `mutateAtHead`. -/
def mutateAtHead (codec : Codec) (fuel : Nat) (ref : DomainRef) (mutation : Mutation)
    (initial : Option HeadSnapshot) : Action Outcome :=
  mutatePrepared codec fuel ref mutation initial none

/-- `mutate`. -/
def mutate (codec : Codec) (fuel : Nat) (ref : DomainRef) (mutation : Mutation) : Action Outcome :=
  mutateAtHead codec fuel ref mutation none

/-- `mutateMaterializedPrepared`. -/
def mutateMaterializedPrepared (codec : Codec) (ref : DomainRef) (mutation : Mutation)
    (snapshot : HeadSnapshot) (session : Session) : Action Outcome := do
  validateConsistencyDomainRef ref
  match snapshot.version with
  | none =>
    throw (newError .invalid "materialized consistency-domain mutation requires a bound live snapshot")
  | some version =>
    rejectIf (!snapshot.head.registered || snapshot.head.domainID ≠ ref.id || snapshot.head.kind ≠ ref.kind)
      (newError .invalid "materialized consistency-domain mutation requires a bound live snapshot")
    let (now, deadline) ← session.preparation mutation.retainUntil
    let (m, fingerprint) ← normalizeMaterializedMutation codec { mutation with retainUntil := deadline }
    match ← lookupOutcome snapshot.head m.id with
    | some outcome => replayOutcome fingerprint outcome
    | none =>
      admitMutation ref snapshot.head m
      let next ← materializedHead codec now snapshot.head m fingerprint
      encodeHead codec next
      let _ ← session.preparation m.retainUntil
      match ← attempt (putObject (.publish m) (.head ref) next (.match version)) with
      | .ok _ => return publishedOutcome m fingerprint (snapshot.head.revision + 1)
      | .error putErr =>
        match ← attempt (loadHead codec ref) with
        | .error _ => throw putErr
        | .ok recovered =>
          match ← lookupOutcome recovered.head m.id with
          | some outcome => replayOutcome fingerprint outcome
          | none => throw putErr

/-! ## Freezing -/

def freezable (ref : DomainRef) (head : DomainHead) : Except Error Unit := do
  let lock ← transitionLockAtHead ref head
  rejectIf (lock.isSome && head.frozen)
    (newError .invalid "frozen consistency domain contains a transition lock")
  rejectIf lock.isSome { newError .internal "consistency-domain transition pending" with pending := true }

/-- The loop of `freeze`. -/
def freezeLoop (codec : Codec) (ref : DomainRef) (epoch : Nat) : Nat → Action Unit
  | 0 => throw outOfFuel
  | fuel + 1 => do
    let snapshot ← loadHead codec ref
    rejectIf (!snapshot.exists || !snapshot.head.registered)
      (newError .notFound "consistency domain does not exist")
    freezable ref snapshot.head
    if snapshot.head.frozen then
      rejectIf (snapshot.head.freezeEpoch ≠ epoch)
        (newError .conflict "consistency domain is frozen at another epoch")
    else
      let next := { snapshot.head with frozen := true, freezeEpoch := epoch }
      encodeHead codec next
      match ← attempt (putObject (.freezeHead epoch) (.head ref) next (putCondition snapshot.version)) with
      | .ok _ => return ()
      | .error e => if e.isRace then freezeLoop codec ref epoch fuel else throw e

/-- `consistencyDomainStore.freeze`. -/
def freeze (codec : Codec) (fuel : Nat) (ref : DomainRef) (epoch : Nat) : Action Unit := do
  rejectIf (epoch = 0) (newError .invalid "invalid consistency-domain freeze epoch")
  ensureRegistered codec fuel ref
  freezeLoop codec ref epoch fuel

/-- The loop of `unfreeze`. -/
def unfreezeLoop (codec : Codec) (ref : DomainRef) (epoch : Nat) : Nat → Action Unit
  | 0 => throw outOfFuel
  | fuel + 1 => do
    let snapshot ← loadHead codec ref
    rejectIf (!snapshot.exists || !snapshot.head.registered)
      (newError .notFound "consistency domain does not exist")
    if !snapshot.head.frozen then return ()
    else
      rejectIf (snapshot.head.freezeEpoch ≠ epoch)
        (newError .conflict "consistency domain is frozen at another epoch")
      let next := { snapshot.head with frozen := false, freezeEpoch := 0 }
      encodeHead codec next
      match ← attempt (putObject (.unfreezeHead epoch) (.head ref) next (putCondition snapshot.version)) with
      | .ok _ => return ()
      | .error e => if e.isRace then unfreezeLoop codec ref epoch fuel else throw e

/-- `consistencyDomainStore.unfreeze`. -/
def unfreeze (codec : Codec) (fuel : Nat) (ref : DomainRef) (epoch : Nat) : Action Unit := do
  rejectIf (epoch = 0) (newError .invalid "invalid consistency-domain freeze epoch")
  unfreezeLoop codec ref epoch fuel

end EndlessFS
