import EndlessFS.Lib.Owned
import EndlessFS.Uploads.Record

/-!
# EndlessFS.Uploads.Leases

How helpers activate uploads (`ensurePortableUploadLease`, `ensurePortableUploadLeaseSegment`): each
opens provider sessions and tries to store their leases; who finds leases stored uses those and aborts
its own sessions.

* `leaseMachine`: the lease objects, the lease segments and the provider. A stored segment stays; the
  lease object of one upload may be deleted by a cleanup (`drift`).
* `LeaseFault`: a request or a response is lost, or the transport repeats a write that was applied and
  reports the refusal of the second.
* `ensurePortableUploadLease`, `ensurePortableUploadLeaseSegment`, `activatePortableUploadBatch`: the
  programs, every backend call an operation of the machine.
-/

namespace EndlessFS

open Conc (Prog)

inductive LeaseKey where
  | own (uploadID : String)
  | segment (batchID : String) (index : Nat)
  deriving DecidableEq, Repr

@[reducible] def LeaseObject : LeaseKey → Type
  | .own _ => Lease
  | .segment _ _ => PortableUploadLeaseSegment

def leasesIn : (k : LeaseKey) → LeaseObject k → List Lease
  | .own _, lease => [lease]
  | .segment _ _, stored => stored.leases.map PortableUploadLease.lease

/-- `begun` are the leases the provider handed out, `revoked` those the helpers aborted, and `doubted` the
objects that were stored by a write that was reported as refused. -/
structure LeaseState where
  objects : (k : LeaseKey) → Option (LeaseObject k)
  begun : List Lease
  revoked : List Lease
  doubted : List LeaseKey

inductive LeaseOp where
  | get (k : LeaseKey)
  | create (k : LeaseKey) (value : LeaseObject k)
  | beginUpload (uploadID : String)
  | abortUpload (lease : Lease)
  | resumeUpload (lease : Lease)

/-- A missing object is `ok none`. -/
@[reducible] def LeaseOp.Reply : LeaseOp → Type
  | .get k => Except Error (Option (LeaseObject k))
  | .create _ _ => Except Error Unit
  | .beginUpload _ => Except Error Lease
  | .abortUpload _ => Unit
  | .resumeUpload _ => Except Error Unit

inductive LeaseFault where
  | none
  | dropRequest
  | dropResponse
  | repeated
  deriving DecidableEq, Repr

/-- What the transport does to a request, and the lease the provider hands out if it is asked for one. -/
structure LeaseChoice where
  fault : LeaseFault
  lease : Lease

namespace LeaseState

def lost : Error := newError .unavailable "object store request failed"
def exists_ : Error := newError .conflict "object already exists"

def empty : LeaseState := { objects := fun _ => none, begun := [], revoked := [], doubted := [] }

def store (s : LeaseState) (k : LeaseKey) (value : LeaseObject k) : LeaseState :=
  { s with objects := Function.update s.objects k (some value) }

def doubt (s : LeaseState) (k : LeaseKey) : LeaseState := { s with doubted := k :: s.doubted }

def hand (s : LeaseState) (lease : Lease) : LeaseState := { s with begun := lease :: s.begun }

def revoke (s : LeaseState) (lease : Lease) : LeaseState := { s with revoked := lease :: s.revoked }

def cleanup (s : LeaseState) (uploadID : String) : LeaseState :=
  { s with objects := Function.update s.objects (.own uploadID) none }

def create (fault : LeaseFault) (s : LeaseState) (k : LeaseKey) (value : LeaseObject k) :
    LeaseState × Except Error Unit :=
  match fault, (s.objects k).isSome with
  | .dropRequest, _ => (s, .error lost)
  | .dropResponse, true => (s, .error lost)
  | .dropResponse, false => (s.store k value, .error lost)
  | .none, true => (s, .error exists_)
  | .none, false => (s.store k value, .ok ())
  | .repeated, true => (s, .error exists_)
  | .repeated, false => ((s.store k value).doubt k, .error exists_)

def exec (c : LeaseChoice) (s : LeaseState) : (o : LeaseOp) → LeaseState × o.Reply
  | .get k => (s, if c.fault = .none then .ok (s.objects k) else .error lost)
  | .create k value => s.create c.fault k value
  | .beginUpload _ =>
    match c.fault with
    | .none => (s.hand c.lease, .ok c.lease)
    | .dropRequest => (s, .error lost)
    | _ => (s.hand c.lease, .error lost)
  | .abortUpload lease => (s.revoke lease, ())
  | .resumeUpload _ => (s, if c.fault = .none then .ok () else .error lost)

structure Le (s t : LeaseState) : Prop where
  segments : ∀ batchID index stored, s.objects (.segment batchID index) = some stored →
    t.objects (.segment batchID index) = some stored
  begun : s.begun ⊆ t.begun
  doubted : s.doubted ⊆ t.doubted

theorem Le.refl (s : LeaseState) : Le s s := ⟨fun _ _ _ h => h, List.Subset.refl _, List.Subset.refl _⟩

theorem Le.trans {s t u : LeaseState} (h : Le s t) (h' : Le t u) : Le s u :=
  ⟨fun b i v hv => h'.segments b i v (h.segments b i v hv), List.Subset.trans h.begun h'.begun,
    List.Subset.trans h.doubted h'.doubted⟩

theorem le_store {s : LeaseState} {k : LeaseKey} (value : LeaseObject k) (h : s.objects k = none) :
    Le s (s.store k value) := by
  refine ⟨fun batchID index stored hstored => ?_, List.Subset.refl _, List.Subset.refl _⟩
  have hne : LeaseKey.segment batchID index ≠ k := by
    rintro rfl
    rw [h] at hstored
    cases hstored
  exact (Function.update_of_ne hne _ _).trans hstored

theorem le_doubt (s : LeaseState) (k : LeaseKey) : Le s (s.doubt k) :=
  ⟨fun _ _ _ h => h, List.Subset.refl _, List.subset_cons_self _ _⟩

theorem le_hand (s : LeaseState) (lease : Lease) : Le s (s.hand lease) :=
  ⟨fun _ _ _ h => h, List.subset_cons_self _ _, List.Subset.refl _⟩

theorem le_revoke (s : LeaseState) (lease : Lease) : Le s (s.revoke lease) :=
  ⟨fun _ _ _ h => h, List.Subset.refl _, List.Subset.refl _⟩

theorem le_cleanup (s : LeaseState) (uploadID : String) : Le s (s.cleanup uploadID) := by
  refine ⟨fun batchID index stored hstored => ?_, List.Subset.refl _, List.Subset.refl _⟩
  have hne : LeaseKey.segment batchID index ≠ .own uploadID := by simp
  simpa [cleanup, Function.update_of_ne hne] using hstored

theorem le_create (fault : LeaseFault) (s : LeaseState) (k : LeaseKey) (value : LeaseObject k) :
    Le s (s.create fault k value).1 := by
  unfold create
  cases hk : s.objects k with
  | some stored => cases fault <;> exact Le.refl s
  | none =>
    have hstore := le_store value hk
    cases fault with
    | none => exact hstore
    | dropRequest => exact Le.refl s
    | dropResponse => exact hstore
    | repeated => exact hstore.trans (le_doubt _ k)

theorem le_exec (c : LeaseChoice) (s : LeaseState) (o : LeaseOp) : Le s (s.exec c o).1 := by
  cases o with
  | get k => exact Le.refl s
  | create k value => exact le_create c.fault s k value
  | beginUpload uploadID =>
    unfold exec
    cases c.fault <;> first | exact le_hand s c.lease | exact Le.refl s
  | abortUpload lease => exact le_revoke s lease
  | resumeUpload lease => exact Le.refl s

end LeaseState

abbrev leaseMachine : Conc.Machine where
  State := LeaseState
  Op := LeaseOp
  Reply := LeaseOp.Reply
  Choice := LeaseChoice
  Drift := String
  exec := LeaseState.exec
  drift d s := s.cleanup d
  le := LeaseState.Le
  le_refl := LeaseState.Le.refl
  le_trans := LeaseState.Le.trans
  exec_le := LeaseState.le_exec
  drift_le d s := LeaseState.le_cleanup s d

def getLeases (k : LeaseKey) : Prog leaseMachine (Except Error (Option (LeaseObject k))) :=
  Prog.perform (M := leaseMachine) (.get k)

def createLeases (k : LeaseKey) (value : LeaseObject k) : Prog leaseMachine (Except Error Unit) :=
  Prog.perform (M := leaseMachine) (.create k value)

def beginUpload (uploadID : String) : Prog leaseMachine (Except Error Lease) :=
  Prog.perform (M := leaseMachine) (.beginUpload uploadID)

def revokeUpload (lease : Lease) : Prog leaseMachine Unit := Prog.perform (M := leaseMachine) (.abortUpload lease)

def resumeUpload (lease : Lease) : Prog leaseMachine (Except Error Unit) :=
  Prog.perform (M := leaseMachine) (.resumeUpload lease)

/-! ## One upload -/

def emptyLease : Error := newError .invalid "empty runtime upload lease"
def absentLease : Error := newError .notFound "object does not exist"

/-- The end of `ensurePortableUploadLease`: the capability of a stored lease. -/
def resumeStoredLease (stored : Lease) : Prog leaseMachine (Except Error Lease) :=
  if stored = "" then pure (.error emptyLease)
  else do
    match ← resumeUpload stored with
    | .error e => pure (.error e)
    | .ok _ => pure (.ok stored)

/-- `ensurePortableUploadLease` after a failed write of the lease. -/
def recoverPortableUploadLease (uploadID : String) (handle : Lease) (putErr : Error) :
    Prog leaseMachine (Except Error Lease) := do
  match ← getLeases (.own uploadID) with
  | .error e => pure (.error e)
  | .ok none =>
    revokeUpload handle
    pure (.error (if putErr.isRace then absentLease else putErr))
  | .ok (some stored) =>
    if handle ≠ stored then revokeUpload handle
    resumeStoredLease stored

def ensurePortableUploadLease (uploadID : String) (leaseKnownAbsent : Bool) :
    Prog leaseMachine (Except Error Lease) := do
  let found ← if leaseKnownAbsent then pure (.ok none) else getLeases (.own uploadID)
  match found with
  | .error e => pure (.error e)
  | .ok (some stored) => resumeStoredLease stored
  | .ok none =>
    match ← beginUpload uploadID with
    | .error e => pure (.error e)
    | .ok handle =>
      match ← createLeases (.own uploadID) handle with
      | .ok _ => pure (if handle = "" then .error emptyLease else .ok handle)
      | .error putErr => recoverPortableUploadLease uploadID handle putErr

/-! ## A segment of a batch -/

/-- The kind of the backend, and whether a segment stays within the size limits of its encoding. -/
structure LeaseCodec where
  backendKind : String
  fits : PortableUploadLeaseSegment → Bool

variable (codec : LeaseCodec)

/-- What the request of a segment is about. -/
structure SegmentRequest where
  ownerID : String
  batchID : String
  segmentIndex : Nat
  items : List PortableUploadRecord
  priorLeases : List PortableUploadLease
  knownAbsent : Bool

namespace SegmentRequest

variable (request : SegmentRequest)

def firstIndex : Nat := request.segmentIndex * maxUploadLeaseSegmentItems

def misbound (totalCount offset : Nat) (item : PortableUploadRecord) : Bool :=
  item.ownerID ≠ request.ownerID || !item.isOpen || !item.batch.any fun member =>
    member.batchID = request.batchID && member.count = totalCount && member.index = request.firstIndex + offset

def check : Except Error Nat := do
  rejectIf (request.items.length < 1 || maxUploadLeaseSegmentItems < request.items.length)
    (newError .invalid "invalid upload lease segment cardinality")
  match request.items.head?.bind PortableUploadRecord.batch with
  | none => .error (newError .invalid "upload lease segment batch binding is missing")
  | some member =>
    rejectIf (request.priorLeases.length ≠ request.firstIndex
        || member.count < request.firstIndex + request.items.length)
      (newError .invalid "invalid upload lease progress")
    rejectIf (request.items.zipIdx.any fun entry => request.misbound member.count entry.2 entry.1)
      (newError .invalid "misbound upload lease segment member")
    pure member.count

end SegmentRequest

/-- `mergePortableUploadLeaseProgress`. -/
def mergePortableUploadLeaseProgress (prior : List PortableUploadLease) (stored : PortableUploadLeaseSegment)
    (firstIndex totalCount : Nat) : Except Error (List PortableUploadLease) := do
  rejectIf (stored.totalCount ≠ totalCount) (newError .invalid "upload lease progress total is misbound")
  if stored.firstIndex = 0 && stored.leases.length = totalCount then pure stored.leases
  else do
    rejectIf (prior.length ≠ firstIndex || stored.firstIndex ≠ firstIndex)
      (newError .invalid "upload lease progress is non-contiguous")
    pure (prior ++ stored.leases)

def resumedSlot (item : PortableUploadRecord) (stored : PortableUploadLeaseSegment) : Except Error Lease :=
  match item.batch with
  | none => .error (newError .invalid "upload lease segment does not match authority")
  | some member => do
    rejectIf (member.count ≠ stored.totalCount || member.index < stored.firstIndex)
      (newError .invalid "upload lease segment does not match authority")
    match stored.leases[member.index - stored.firstIndex]? with
    | none => .error (newError .invalid "upload lease segment cardinality does not match authority")
    | some slot => do
      rejectIf (slot.uploadID ≠ item.uploadID || slot.index ≠ member.index)
        (newError .invalid "upload lease segment does not match authority")
      pure slot.lease

/-- `resumePortableUploadLeaseSegment`; a capability is given by the lease it was resumed from. -/
def resumePortableUploadLeaseSegment (stored : PortableUploadLeaseSegment) :
    List PortableUploadRecord → Prog leaseMachine (Except Error (List Lease))
  | [] => pure (.ok [])
  | item :: rest =>
    match resumedSlot item stored with
    | .error e => pure (.error e)
    | .ok lease => do
      match ← resumeUpload lease with
      | .error e => pure (.error e)
      | .ok _ =>
        match ← resumePortableUploadLeaseSegment stored rest with
        | .error e => pure (.error e)
        | .ok leases => pure (.ok (lease :: leases))

def useStoredSegment (request : SegmentRequest) (totalCount : Nat) (stored : PortableUploadLeaseSegment) :
    Prog leaseMachine (Except Error (List Lease × List PortableUploadLease)) := do
  match ← resumePortableUploadLeaseSegment stored request.items with
  | .error e => pure (.error e)
  | .ok capabilities =>
    pure ((mergePortableUploadLeaseProgress request.priorLeases stored request.firstIndex totalCount).map
      fun leases => (capabilities, leases))

def beginUploads : List PortableUploadRecord → Prog leaseMachine (List (Lease × Option Error))
  | [] => pure []
  | item :: rest => do
    let handle ← match ← beginUpload item.uploadID with
      | .error e => pure ("", some e)
      | .ok lease =>
        pure (lease, if lease = "" || 2048 < lease.utf8ByteSize then
          some (newError .invalid "provider upload lease exceeds the bounded segment envelope") else none)
    let handles ← beginUploads rest
    pure (handle :: handles)

/-- `abortUploadHandles`. -/
def abortUploadHandles : List Lease → Prog leaseMachine Unit
  | [] => pure ()
  | lease :: rest => do
    if lease ≠ "" then revokeUpload lease
    abortUploadHandles rest

/-- `abortUploadHandles` and the error that called for it. -/
def abandon {α : Type} (handles : List Lease) (e : Error) : Prog leaseMachine (Except Error α) := do
  abortUploadHandles handles
  pure (.error e)

def segmentLeases (items : List PortableUploadRecord) (handles : List Lease) : List PortableUploadLease :=
  items.zipWith (fun item lease => { index := (item.batch.map (·.index)).getD 0, uploadID := item.uploadID, lease })
    handles

def newSegment (request : SegmentRequest) (totalCount : Nat) (handles : List Lease) : PortableUploadLeaseSegment :=
  let leases := segmentLeases request.items handles
  let all := request.priorLeases ++ leases
  { backendKind := codec.backendKind, ownerID := request.ownerID, batchID := request.batchID
    segment := request.segmentIndex, totalCount := totalCount
    firstIndex := if all.length = totalCount then 0 else request.firstIndex
    leases := if all.length = totalCount then all else leases }

/-- `EncodePortableUploadLeaseSegment`. -/
def encodePortableUploadLeaseSegment (stored : PortableUploadLeaseSegment) : Except Error Unit := do
  validatePortableUploadLeaseSegment stored
  rejectIf (!codec.fits stored) (newError .invalid "upload lease segment exceeds size limit")

/-- `ensurePortableUploadLeaseSegment` after its write was refused. -/
def recoverSegment (request : SegmentRequest) (totalCount : Nat) (handles : List Lease)
    (body : PortableUploadLeaseSegment) :
    Prog leaseMachine (Except Error (List Lease × List PortableUploadLease)) := do
  match ← getLeases (.segment request.batchID request.segmentIndex) with
  | .error e => abandon handles e
  | .ok none => abandon handles absentLease
  | .ok (some winner) =>
    match decodePortableUploadLeaseSegment winner codec.backendKind request.ownerID request.batchID
      request.segmentIndex with
    | .error e => abandon handles e
    | .ok winner =>
      if winner ≠ body then abortUploadHandles handles
      useStoredSegment request totalCount winner

/-- `ensurePortableUploadLeaseSegment` once the sessions are open. -/
def storeSegment (request : SegmentRequest) (totalCount : Nat) (handles : List Lease) :
    Prog leaseMachine (Except Error (List Lease × List PortableUploadLease)) :=
  let body := newSegment codec request totalCount handles
  match encodePortableUploadLeaseSegment codec body with
  | .error e => abandon handles e
  | .ok _ => do
    match ← createLeases (.segment request.batchID request.segmentIndex) body with
    | .ok _ => pure (.ok (handles, request.priorLeases ++ segmentLeases request.items handles))
    | .error e =>
      if e.isRace then recoverSegment codec request totalCount handles body
      else abandon handles e

def openSegment (request : SegmentRequest) (totalCount : Nat) :
    Prog leaseMachine (Except Error (List Lease × List PortableUploadLease)) := do
  let begun ← beginUploads request.items
  match begun.findSome? Prod.snd with
  | some e => abandon (begun.map Prod.fst) e
  | none => storeSegment codec request totalCount (begun.map Prod.fst)

def ensurePortableUploadLeaseSegment (request : SegmentRequest) :
    Prog leaseMachine (Except Error (List Lease × List PortableUploadLease)) :=
  match request.check with
  | .error e => pure (.error e)
  | .ok totalCount =>
    if request.knownAbsent then openSegment codec request totalCount
    else do
      match ← getLeases (.segment request.batchID request.segmentIndex) with
      | .error e => pure (.error e)
      | .ok none => openSegment codec request totalCount
      | .ok (some object) =>
        match decodePortableUploadLeaseSegment object codec.backendKind request.ownerID request.batchID
            request.segmentIndex with
        | .error e => pure (.error e)
        | .ok stored =>
          if stored.totalCount ≠ totalCount then
            pure (.error (newError .invalid "upload lease segment total is misbound"))
          else useStoredSegment request totalCount stored

/-- `activatePortableUploadBatch` from the segment `index` on, the segments of the batch given by their items. -/
def activateSegments (ownerID batchID : String) (knownAbsent : Bool) :
    Nat → List PortableUploadLease → List (List PortableUploadRecord) → Prog leaseMachine (Except Error (List Lease))
  | _, _, [] => pure (.ok [])
  | index, allLeases, items :: rest => do
    match ← ensurePortableUploadLeaseSegment codec
        { ownerID, batchID, segmentIndex := index, items, priorLeases := allLeases, knownAbsent } with
    | .error e => pure (.error e)
    | .ok (capabilities, leases) =>
      match ← activateSegments ownerID batchID knownAbsent (index + 1) leases rest with
      | .error e => pure (.error e)
      | .ok later => pure (.ok (capabilities ++ later))

/-- `activatePortableUploadBatch`. -/
def activatePortableUploadBatch (ownerID batchID : String) (items : List PortableUploadRecord)
    (leasesKnownAbsent : Bool) :
    Prog leaseMachine (Except Error (List Lease)) :=
  activateSegments codec ownerID batchID leasesKnownAbsent 0 [] (items.toChunks maxUploadLeaseSegmentItems)

inductive Activation where
  | single (uploadID : String) (leaseKnownAbsent : Bool)
  | batch (ownerID batchID : String) (items : List PortableUploadRecord) (leasesKnownAbsent : Bool)

def Activation.run : Activation → Prog leaseMachine (Except Error (List Lease))
  | .single uploadID leaseKnownAbsent => do
    return (← ensurePortableUploadLease uploadID leaseKnownAbsent).map fun lease => [lease]
  | .batch ownerID batchID items leasesKnownAbsent =>
    activatePortableUploadBatch codec ownerID batchID items leasesKnownAbsent

end EndlessFS
