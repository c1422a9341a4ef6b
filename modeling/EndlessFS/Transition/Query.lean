import EndlessFS.Domain.Compaction
import EndlessFS.Transition.Protocol

/-!
# EndlessFS.Transition.Query

Listing state keys across consistency domains (`portable/state_query.go`): the domains of the catalog are
visited one after another, each of them is listed at the head that is found there, and the sorted listings are
merged into one snapshot by `mergeRounds`.

* `listPages`: the keys of one head, page by page.
* `buildStateQuerySnapshot`, `listStateAcrossDomains`: the query. A domain with a transition lock makes it help
  the transition and start again.
* The stored copy of the snapshot is content addressed and immutable, so writing it is not an operation here.
-/

namespace EndlessFS

/-! ## The listing of a head -/

def listPages (head : DomainHead) (start : String) : Nat → String → List (String × DomainEntry)
  | 0, _ => []
  | pages + 1, after =>
    let values := listAtHead head start after domainPageMaximumItems
    if values.length < domainPageMaximumItems then values
    else values ++ listPages head start pages ((values.getLast?.map (·.1)).getD after)

def listHead (head : DomainHead) (start : String) : List (String × DomainEntry) :=
  listPages head start (head.base.entries.length + (windowChanges head.deltas).length + 1) ""

/-! ## The query -/

/-- `StateQuerySnapshot`, with the entries of its tree. -/
structure StateQuerySnapshot where
  start : String
  entries : List (String × DomainEntry)
  expiresAt : Time
  deriving DecidableEq

/-- `errTransitionPending009`. -/
def transitionPending : Error := { newError .internal "consistency-domain transition pending" with pending := true }

def addRun (run : List (String × DomainEntry)) (runs : List (List (String × DomainEntry))) :
    List (List (String × DomainEntry)) :=
  if run.isEmpty then runs else run :: runs

section

variable (codec : Codec) (loops depth : Nat)

/-- The visits of `buildStateQuerySnapshot` to the catalog's entries. -/
def visitDomains (start : String) (domains : List DomainRef) (loaded : List (DomainRef × Option Nat)) :
    List (CatalogKey × DomainRef) → Action (List (List (String × DomainEntry)))
  | [] => return []
  | (key, ref) :: rest => do
    rejectIf (catalogEntryKey ref ≠ key) (newError .invalid "invalid consistency-domain catalog entry")
    let snapshot ← loadHeadAt codec (.queryLoad domains loaded) ref
    if !(snapshot.exists && snapshot.head.registered) then
      visitDomains start domains (loaded ++ [(ref, snapshot.version)]) rest
    else
      match ← transitionLockAtHead ref snapshot.head with
      | some (lock, _) =>
        helpTransition codec loops depth lock.transitionID
        throw transitionPending
      | none =>
        let runs ← visitDomains start domains (loaded ++ [(ref, snapshot.version)]) rest
        return addRun (listHead snapshot.head start) runs

/-- `buildStateQuerySnapshot`. -/
def buildStateQuerySnapshot (start : String) (expiresAt : Time) : Action StateQuerySnapshot := do
  match ← getObject .plain .catalog with
  | none => return { start, entries := [], expiresAt }
  | some (_, catalog) =>
    let runs ← visitDomains codec loops depth start (catalog.root.entries.map (·.2)) [] catalog.root.entries
    let entries ← mergeRounds runs.length runs
    return { start, entries, expiresAt }

/-- The attempts of `listStateAcrossDomains` without a cursor. -/
def listAttempts (start : String) (expiresAt : Time) : Nat → Action StateQuerySnapshot
  | 0 => throw transitionPending
  | attempts + 1 => do
    match ← attempt (buildStateQuerySnapshot codec loops depth start expiresAt) with
    | .ok snapshot => return snapshot
    | .error e => if e.pending && 0 < attempts then listAttempts start expiresAt attempts else throw e

/-- `listStateAcrossDomains` without a cursor: the snapshot that this page and all that follow are served from. -/
def listStateAcrossDomains (start : String) (expiresAt : Time) : Action StateQuerySnapshot :=
  listAttempts codec loops depth start expiresAt 8

end

/-! ## Calls -/

/-- What replicas call: everything that runs transitions, and listings. -/
inductive QueryCall where
  | transition (call : TransitionCall)
  | list (start : String) (expiresAt : Time)
  deriving DecidableEq

inductive QueryReply where
  | transition (reply : TransitionReply)
  | listed (snapshot : StateQuerySnapshot)
  deriving DecidableEq

def QueryCall.action (codec : Codec) (loops depth : Nat) : QueryCall → Action QueryReply
  | .transition call => do return .transition (← call.action codec loops depth)
  | .list start expiresAt => do return .listed (← listStateAcrossDomains codec loops depth start expiresAt)

abbrev QueryConfig := Conc.Config bucketMachine (fun _ : QueryCall => Except Error QueryReply)

abbrev QueryEvent := Conc.Event bucketMachine QueryCall

def QueryCall.body (codec : Codec) (loops depth : Nat) (call : QueryCall) :
    Conc.Prog bucketMachine (Except Error QueryReply) :=
  (call.action codec loops depth).run

def queryStart (now : Time) : QueryConfig := { state := bucketAt now, pool := [] }

def queryReplies (cfg : QueryConfig) : List (QueryCall × Option (Except Error QueryReply)) :=
  cfg.pool.map fun task => (task.call, task.prog.result)

end EndlessFS
