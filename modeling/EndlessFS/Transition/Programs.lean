import EndlessFS.Domain.Store

/-!
# EndlessFS.Transition.Programs

Transitions across consistency domains (`portable/state_transition009.go`): an immutable plan, a lock
in each participating domain, one create-only decision, and the finalization of every participant.
Any replica can take over at any point.

* `loops` bounds the loops of the domain store, `depth` how far one transition is helped on behalf of
  another; the bounded retries of the source keep their bounds.
* The scheduler's failure points after a durable write are lost responses of that write.
-/

namespace EndlessFS

/-! ## Plans and their mutations -/

def transitionAttempts : Nat := 32

def TransitionPlan.lock (plan : TransitionPlan) (ref : DomainRef) : TransitionLock :=
  { transitionID := plan.transitionID, fingerprint := plan.fingerprint, kind := ref.kind, domainID := ref.id }

def TransitionPlan.prepareID (codec : Codec) (plan : TransitionPlan) : String :=
  "transition-prepare:" ++ codec.digest plan.transitionID

def TransitionPlan.abortID (codec : Codec) (plan : TransitionPlan) : String :=
  "transition-abort:" ++ codec.digest plan.transitionID

def TransitionPlan.prepareMutation (codec : Codec) (plan : TransitionPlan) (ref : DomainRef) : Mutation :=
  { id := plan.prepareID codec, transitionID := plan.transitionID, retainUntil := plan.retainUntil
    changes := [{ key := transitionLockKey, require := .absent, value := .lock (plan.lock ref) }] }

/-- The removal of a lock that is stored under `version`. -/
def lockRemoval (version : String) : Change :=
  { key := transitionLockKey, require := .present, expectedVersion := version, delete := true }

/-- The mutation that finalizes a participant whose lock is stored under `version`. -/
def TransitionPlan.finalMutation (codec : Codec) (plan : TransitionPlan) (participant : TransitionParticipant)
    (committed : Bool) (version : String) : Mutation :=
  if committed then
    { id := plan.transitionID, transitionID := plan.transitionID, retainUntil := plan.retainUntil
      changes := lockRemoval version :: participant.changes, result := plan.result }
  else
    { id := plan.abortID codec, transitionID := plan.transitionID, retainUntil := plan.retainUntil
      changes := [lockRemoval version] }

/-! ## Plan and decision objects -/

/-- `backend.Get` of an object that has to exist. -/
def requireObject (k : ObjectKey) : Action (Nat × Object k) := do
  match ← getObject .plain k with
  | some found => return found
  | none => throw (newError .notFound "object does not exist")

/-- `decodeTransitionPlanObject009`. -/
def decodeTransitionPlan (transitionID : String) (plan : TransitionPlan) : Except Error Unit :=
  rejectIf (!(validateTransitionPlan plan).isOk || plan.transitionID ≠ transitionID)
    (newError .invalid "invalid transition plan authority")

/-- `createOrReadTransitionPlan009`: the stored plan, and whether this call created it. -/
def createOrReadTransitionPlan (plan : TransitionPlan) : Action (TransitionPlan × Bool) := do
  match ← attempt (putObject .plain (.plan plan.transitionID) plan .createOnly) with
  | .ok _ => return (plan, true)
  | .error e =>
    rejectIf (!e.isRace) e
    let (_, existing) ← requireObject (.plan plan.transitionID)
    decodeTransitionPlan plan.transitionID existing
    rejectIf (existing.fingerprint ≠ plan.fingerprint)
      (newError .conflict "transition ID was reused with another intent")
    return (existing, false)

/-- `readTransitionPlan009`. -/
def readTransitionPlan (transitionID : String) : Action TransitionPlan := do
  let (_, plan) ← requireObject (.plan transitionID)
  decodeTransitionPlan transitionID plan
  return plan

def decodeTransitionDecision (plan : TransitionPlan) (decision : TransitionDecision) : Except Error Unit :=
  rejectIf (!(validateTransitionDecision decision).isOk || decision.transitionID ≠ plan.transitionID
      || decision.fingerprint ≠ plan.fingerprint)
    (newError .invalid "invalid transition decision authority")

/-- `readTransitionDecision009`. -/
def readTransitionDecision (plan : TransitionPlan) : Action (Option TransitionDecision) := do
  match ← getObject .plain (.decision plan.transitionID) with
  | none => return none
  | some (_, decision) =>
    decodeTransitionDecision plan decision
    return some decision

def TransitionPlan.decide (plan : TransitionPlan) (failure : Option Error) (now : Time) : TransitionDecision :=
  { transitionID := plan.transitionID, fingerprint := plan.fingerprint, committed := failure.isNone
    errorKind := failure.map (·.kind), decidedAt := now }

def confirmDecision (plan : TransitionPlan) (decision : TransitionDecision) : Action TransitionDecision := do
  match ← readTransitionDecision plan with
  | none => throw (newError .invalid "transition decision disappeared")
  | some existing =>
    rejectIf (existing.committed ≠ decision.committed || existing.errorKind ≠ decision.errorKind)
      (newError .invalid "conflicting transition decisions")
    return existing

/-- `decideTransition009`. -/
def decideTransition (plan : TransitionPlan) (failure : Option Error) : Action TransitionDecision := do
  let now ← clockNow
  let decision := plan.decide failure now
  validateTransitionDecision decision
  match ← attempt (putObject .plain (.decision plan.transitionID) decision .createOnly) with
  | .ok _ => confirmDecision plan decision
  | .error putErr =>
    if putErr.isRace then confirmDecision plan decision
    else
      -- the decision itself, not the response, says whether the write happened
      match ← attempt (readTransitionDecision plan) with
      | .ok (some recovered) => return recovered
      | _ => throw putErr

/-! ## Participants -/

def preparedLock (ref : DomainRef) (snapshot : HeadSnapshot) : Except Error (Option TransitionLock) :=
  if snapshot.exists && snapshot.head.registered then do
    rejectIf snapshot.head.frozen (newError .preconditionFailed "consistency domain is frozen")
    let lock ← transitionLockAtHead ref snapshot.head
    return lock.map (·.1)
  else .ok none

def liveHead (ref : DomainRef) (snapshot : HeadSnapshot) : DomainHead :=
  if snapshot.exists && snapshot.head.registered then snapshot.head else emptyHead ref

def TransitionPlan.owns (plan : TransitionPlan) (lock : TransitionLock) : Bool :=
  lock.transitionID = plan.transitionID && lock.fingerprint = plan.fingerprint

/-- The attempts of `prepareTransitionParticipant009`; `help` completes another transition. -/
def prepareLoop (codec : Codec) (loops : Nat) (help : String → Action Unit) (plan : TransitionPlan)
    (participant : TransitionParticipant) : Nat → Action Unit
  | 0 => throw (newError .unavailable "transition preparation remained contended")
  | attempts + 1 => do
    let snapshot ← loadHeadAt codec (.prepareLoad plan participant) participant.ref
    match ← preparedLock participant.ref snapshot with
    | some lock =>
      if plan.owns lock then return ()
      else
        help lock.transitionID
        prepareLoop codec loops help plan participant attempts
    | none =>
      validateMutationAtHead (liveHead participant.ref snapshot) participant.changes
      match ← attempt (mutateAtHead codec loops participant.ref
          (plan.prepareMutation codec participant.ref) (some snapshot)) with
      | .ok _ => return ()
      | .error e => if e.isRace then prepareLoop codec loops help plan participant attempts else throw e

/-- `prepareTransitionParticipant009`. -/
def prepareTransitionParticipant (codec : Codec) (loops : Nat) (help : String → Action Unit)
    (plan : TransitionPlan) (participant : TransitionParticipant) : Action Unit :=
  prepareLoop codec loops help plan participant transitionAttempts

def committedOutcome (plan : TransitionPlan) (committed : Bool) (head : DomainHead) : Action (Option Outcome) :=
  if committed then lookupOutcome head plan.transitionID else pure none

def missingLock (plan : TransitionPlan) (committed : Bool) : Action Unit := do
  if committed then
    let now ← clockNow
    rejectIf (now < plan.retainUntil) (newError .invalid "committed transition lock is missing")
  else return ()

/-- The attempts of `finalizeTransitionParticipant009`. -/
def finalizeLoop (codec : Codec) (loops : Nat) (plan : TransitionPlan) (participant : TransitionParticipant)
    (committed : Bool) : Nat → Action Unit
  | 0 => throw (newError .unavailable "transition finalization remained contended")
  | attempts + 1 => do
    let snapshot ← loadHeadAt codec (.finalizeLoad plan participant committed) participant.ref
    if !(snapshot.exists && snapshot.head.registered) then
      rejectIf committed (newError .invalid "committed transition participant is missing")
    else
      match ← committedOutcome plan committed snapshot.head with
      | some outcome =>
        rejectIf (outcome.result ≠ plan.result) (newError .invalid "transition outcome result is misbound")
      | none =>
        match ← transitionLockAtHead participant.ref snapshot.head with
        | none => missingLock plan committed
        | some (lock, value) =>
          rejectIf (!plan.owns lock) (newError .invalid "transition lock does not bind its decision")
          match ← attempt (mutateAtHead codec loops participant.ref
              (plan.finalMutation codec participant committed value.logicalVersion) (some snapshot)) with
          | .ok _ => return ()
          | .error e =>
            if e.isRace || e.kind = .notFound then finalizeLoop codec loops plan participant committed attempts
            else throw e

/-- `finalizeTransitionParticipant009`. -/
def finalizeTransitionParticipant (codec : Codec) (loops : Nat) (plan : TransitionPlan)
    (decision : TransitionDecision) (participant : TransitionParticipant) : Action Unit :=
  finalizeLoop codec loops plan participant decision.committed transitionAttempts

def finalizeAll (codec : Codec) (loops : Nat) (plan : TransitionPlan) (decision : TransitionDecision) :
    List TransitionParticipant → Action Unit
  | [] => return ()
  | participant :: rest => do
    finalizeTransitionParticipant codec loops plan decision participant
    finalizeAll codec loops plan decision rest

/-! ## Executing and helping -/

/-- `deterministicTransitionFailure009`. -/
def deterministicTransitionFailure (e : Error) : Bool :=
  e.kind = .conflict || e.kind = .notFound || e.kind = .preconditionFailed

def prepareAll (codec : Codec) (loops : Nat) (help : String → Action Unit) (plan : TransitionPlan) :
    List TransitionParticipant → Action (Option Error)
  | [] => return none
  | participant :: rest => do
    match ← attempt (prepareTransitionParticipant codec loops help plan participant) with
    | .ok _ => prepareAll codec loops help plan rest
    | .error e => if deterministicTransitionFailure e then return some e else throw e

/-- `executeTransition009`; `help` completes another transition. -/
def executeWith (codec : Codec) (loops : Nat) (help : String → Action Unit) (plan : TransitionPlan) :
    Action TransitionDecision := do
  match ← readTransitionDecision plan with
  | some decision =>
    finalizeAll codec loops plan decision plan.participants
    return decision
  | none =>
    let failure ← prepareAll codec loops help plan plan.participants
    let decision ← decideTransition plan failure
    finalizeAll codec loops plan decision plan.participants
    return decision

/-- `helpTransition009`. -/
def helpTransition (codec : Codec) (loops : Nat) : Nat → String → Action Unit
  | 0, _ => throw outOfFuel
  | depth + 1, transitionID => do
    let plan ← readTransitionPlan transitionID
    let _ ← executeWith codec loops (helpTransition codec loops depth) plan

/-- `executeTransition009`. -/
def executeTransition (codec : Codec) (loops depth : Nat) (plan : TransitionPlan) : Action TransitionDecision :=
  executeWith codec loops (helpTransition codec loops depth) plan

/-- The attempts of `resolveStateTransition009`. -/
def resolveLoop (codec : Codec) (loops depth : Nat) (ref : DomainRef) : Nat → Action Unit
  | 0 => throw (newError .unavailable "consistency-domain transition remained unresolved")
  | attempts + 1 => do
    let snapshot ← loadHead codec ref
    if !(snapshot.exists && snapshot.head.registered) then return ()
    else
      match ← transitionLockAtHead ref snapshot.head with
      | none => return ()
      | some (lock, _) =>
        helpTransition codec loops depth lock.transitionID
        resolveLoop codec loops depth ref attempts

/-- `resolveStateTransition009`. -/
def resolveStateTransition (codec : Codec) (loops depth : Nat) (ref : DomainRef) : Action Unit :=
  resolveLoop codec loops depth ref transitionAttempts

/-- The part of `Transact` that runs a plan: the plan is stored before anything else happens. -/
def transactPlan (codec : Codec) (loops depth : Nat) (plan : TransitionPlan) : Action Bool := do
  validateTransitionPlan plan
  let (_, created) ← createOrReadTransitionPlan plan
  let decision ← executeTransition codec loops depth plan
  rejectIf (!decision.committed)
    (newError (decision.errorKind.getD .invalid) "cross-domain transition precondition failed")
  return created

/-! ## Expired transitions -/

/-- `transitionHasLocks009`; a head that cannot be loaded is passed over. -/
def transitionHasLocks (codec : Codec) (plan : TransitionPlan) : List TransitionParticipant → Action Bool
  | [] => return false
  | participant :: rest => do
    match ← attempt (loadHead codec participant.ref) with
    | .error _ => transitionHasLocks codec plan rest
    | .ok snapshot =>
      if !(snapshot.exists && snapshot.head.registered) then transitionHasLocks codec plan rest
      else
        match ← transitionLockAtHead participant.ref snapshot.head with
        | none => transitionHasLocks codec plan rest
        | some (lock, _) =>
          rejectIf (!plan.owns lock) (newError .invalid "transition participant is locked by another plan")
          return true

def decideExpired (plan : TransitionPlan) (locked : Bool) : Option TransitionDecision →
    Action (Option TransitionDecision)
  | some decision => return some decision
  | none => do
    if locked then
      match ← attempt (decideTransition plan
          (some (newError .preconditionFailed "expired transition was aborted"))) with
      | .ok decision => return some decision
      | .error e =>
        match ← attempt (readTransitionDecision plan) with
        | .ok (some winner) => return some winner
        | _ => throw e
    else return none

/-- `backend.Delete`, passing over an object that is gone or was replaced. -/
def deleteObject (site : Site) (k : ObjectKey) (version : Nat) : Action Unit := do
  match ← perform (.delete site k version) with
  | .failed => throw transportError
  | _ => return ()

def deleteDecision (plan : TransitionPlan) : Action Unit := do
  match ← getObject .plain (.decision plan.transitionID) with
  | none => return ()
  | some (version, _) => deleteObject (.collectDecision plan) (.decision plan.transitionID) version

def finalizeLocked (codec : Codec) (loops : Nat) (plan : TransitionPlan) (decision : TransitionDecision)
    (locked : Bool) : Action Unit :=
  if locked then finalizeAll codec loops plan decision plan.participants else pure ()

/-- `collectExpiredTransition009`. -/
def collectExpiredTransition (codec : Codec) (loops : Nat) (plan : TransitionPlan) (version : Nat) :
    Action Unit := do
  let found ← readTransitionDecision plan
  let locked ← transitionHasLocks codec plan plan.participants
  match ← decideExpired plan locked found with
  | none => deleteObject .plain (.plan plan.transitionID) version
  | some decision =>
    finalizeLocked codec loops plan decision locked
    deleteDecision plan
    deleteObject .plain (.plan plan.transitionID) version

/-- One visit of `resolveAllTransitions009`. -/
def resolvePlan (codec : Codec) (loops depth : Nat) (transitionID : String) : Action Unit := do
  let (version, plan) ← requireObject (.plan transitionID)
  decodeTransitionPlan transitionID plan
  let now ← clockNow
  if now < plan.retainUntil then
    let _ ← executeTransition codec loops depth plan
  else collectExpiredTransition codec loops plan version

def resolvePlans (codec : Codec) (loops depth : Nat) : List ObjectKey → Action Unit
  | [] => return ()
  | .plan transitionID :: rest => do
    resolvePlan codec loops depth transitionID
    resolvePlans codec loops depth rest
  | _ :: rest => resolvePlans codec loops depth rest

def ObjectKey.isPlan : ObjectKey → Bool
  | .plan _ => true
  | _ => false

/-- `resolveAllTransitions009`. -/
def resolveAllTransitions (codec : Codec) (loops depth : Nat) : Action Unit := do
  match ← perform (.list .plain ObjectKey.isPlan) with
  | none => throw transportError
  | some keys => resolvePlans codec loops depth keys

end EndlessFS
