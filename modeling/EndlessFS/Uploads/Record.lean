import EndlessFS.Namespace.Operations

/-!
# EndlessFS.Uploads.Record

The records of an upload (`storageformat/uploads.go`, `upload_batch_abort.go`,
`upload_lease_segment.go`).

* `PortableUploadRecord`: the canonical record of one upload, single or member of a batch.
* `PortableUploadBatchAbort`: the bitmap that cancels members of a batch over their records.
* `portableUploadAtView`: the record as every reader but the drain sees it, under that bitmap.
* `PortableUploadLeaseSegment`: the leases of a batch, a thousand members to an object. The last
  segment of a batch repeats the leases of the earlier ones.
-/

namespace EndlessFS

open Except

abbrev Lease := String

def maxPortableUploadBatchItems : Nat := 10000
def maxUploadLeaseSegmentItems : Nat := 1000

/-- `storageformat.UploadState`. -/
inductive PortableUploadState where
  | uploadInitializing
  | uploadActive
  | uploadCompleted
  | uploadAborted
  deriving DecidableEq, Repr

structure PortableUploadBatchMember where
  batchID : String
  index : Nat
  count : Nat
  deriving DecidableEq, Repr

structure PortableUploadCompletion where
  md5 : String
  crc32c : String
  modifiedAt : Time
  deriving DecidableEq, Repr

structure PortableUploadRecord where
  uploadID : String
  ownerID : String
  area : Area
  requestedPath : List String
  resolvedPath : List String
  blobID : String
  size : Int
  mediaType : String
  conflict : ConflictMode
  expectedVersion : String := ""
  targetExisted : Bool := false
  resumable : Bool := false
  state : PortableUploadState
  cleanupPending : Bool := false
  createdAt : Time
  expiresAt : Time
  batch : Option PortableUploadBatchMember := none
  completion : Option PortableUploadCompletion := none
  deriving DecidableEq, Repr

namespace PortableUploadRecord

variable (record : PortableUploadRecord)

/-- `State == UploadActive || State == UploadInitializing`. -/
def isOpen : Bool := record.state = .uploadActive || record.state = .uploadInitializing

/-- `State == UploadCompleted || State == UploadAborted`. -/
def isTerminal : Bool := record.state = .uploadCompleted || record.state = .uploadAborted

theorem isTerminal_eq : record.isTerminal = !record.isOpen := by
  unfold isTerminal isOpen
  cases record.state <;> rfl

end PortableUploadRecord

def checkUploadBatch : Option PortableUploadBatchMember → Except Error Unit
  | none => .ok ()
  | some member =>
    rejectIf (member.count < 1 || maxPortableUploadBatchItems < member.count || member.count ≤ member.index)
      (newError .invalid "invalid portable upload batch binding")

def checkUploadCompletion (state : PortableUploadState) : Option PortableUploadCompletion → Except Error Unit
  | none => .ok ()
  | some completion => do
    rejectIf (state ≠ .uploadCompleted || completion.modifiedAt = 0)
      (newError .invalid "invalid portable upload completion")
    rejectIf (completion.md5 = "") (newError .invalid "invalid portable upload completion md5")
    rejectIf (completion.crc32c = "") (newError .invalid "invalid portable upload completion crc32c")

def validatePortableUploadRecord (record : PortableUploadRecord) : Except Error Unit := do
  rejectIf (!validDomainText record.uploadID || !validDomainText record.ownerID || record.requestedPath = []
      || record.resolvedPath = [] || !validDomainText record.blobID || record.size < 0 || record.mediaType = ""
      || record.conflict = .unset || record.cleanupPending && !record.isTerminal || record.createdAt = 0
      || record.expiresAt ≤ record.createdAt)
    (newError .invalid "invalid portable upload record")
  checkUploadBatch record.batch
  checkUploadCompletion record.state record.completion

/-- `decodePortableUploadRecord`, on the decoded record. -/
def decodePortableUploadRecord (record : PortableUploadRecord) (ownerID uploadID : String) :
    Except Error PortableUploadRecord := do
  rejectIf (!(validatePortableUploadRecord record).toBool || record.ownerID ≠ ownerID || record.uploadID ≠ uploadID
      || record.blobID ≠ uploadID) (newError .invalid "misbound portable upload record")
  pure record

variable {record : PortableUploadRecord}

theorem cleanup_of_valid (h : validatePortableUploadRecord record = .ok ())
    (hcleanup : record.cleanupPending = true) : record.isOpen = false := by
  obtain ⟨_, hchecked, _⟩ := bind_ok h
  rw [rejectIf_eq_ok_iff] at hchecked
  simp only [Bool.or_eq_false_iff, Bool.and_eq_false_iff, hcleanup, record.isTerminal_eq, Bool.not_not,
    Bool.true_eq_false, false_or] at hchecked
  exact hchecked.1.1.2

theorem completion_of_valid (h : validatePortableUploadRecord record = .ok ())
    (hopen : record.isOpen = true) : record.completion = none := by
  obtain ⟨_, _, h⟩ := bind_ok h
  obtain ⟨_, _, h⟩ := bind_ok h
  cases hcompletion : record.completion with
  | none => rfl
  | some completion =>
    rw [hcompletion] at h
    obtain ⟨_, hstate, _⟩ := bind_ok h
    simp only [rejectIf_eq_ok_iff, Bool.or_eq_false_iff, ne_eq, decide_not, Bool.not_eq_false',
      decide_eq_true_eq] at hstate
    simp [PortableUploadRecord.isOpen, hstate.1] at hopen

theorem decodePortableUploadRecord_eq_ok_iff {ownerID uploadID : String} :
    decodePortableUploadRecord record ownerID uploadID = .ok record ↔ validatePortableUploadRecord record = .ok () ∧
      record.ownerID = ownerID ∧ record.uploadID = uploadID ∧ record.blobID = uploadID := by
  have hvalid : (validatePortableUploadRecord record).toBool = true ↔ validatePortableUploadRecord record = .ok () := by
    cases validatePortableUploadRecord record <;> simp [Except.toBool]
  unfold decodePortableUploadRecord
  rw [bind_eq_ok_iff]
  simp only [rejectIf_eq_ok_iff, Bool.or_eq_false_iff, Bool.not_eq_false', hvalid, ne_eq, decide_not, decide_eq_true_eq,
    and_assoc]
  refine ⟨?_, ?_⟩
  · rintro ⟨_, hvalid, howner, hupload, hblob, _⟩
    exact ⟨hvalid, howner, hupload, hblob⟩
  · rintro ⟨hvalid, howner, hupload, hblob⟩
    exact ⟨(), hvalid, howner, hupload, hblob, rfl⟩

theorem validate_completed {cleanupPending : Bool} {completion : Option PortableUploadCompletion}
    (h : validatePortableUploadRecord record = .ok ())
    (hcompletion : checkUploadCompletion .uploadCompleted completion = .ok ()) :
    validatePortableUploadRecord
      { record with state := .uploadCompleted, cleanupPending := cleanupPending, completion := completion } =
        .ok () := by
  obtain ⟨_, hfields, h⟩ := bind_ok h
  obtain ⟨_, hbatch, _⟩ := bind_ok h
  refine bind_eq_ok_iff.mpr ⟨(), ?_, bind_eq_ok_iff.mpr ⟨(), hbatch, hcompletion⟩⟩
  simp only [rejectIf_eq_ok_iff, Bool.or_eq_false_iff] at hfields ⊢
  exact ⟨⟨⟨hfields.1.1.1, by simp [PortableUploadRecord.isTerminal]⟩, hfields.1.2⟩, hfields.2⟩

theorem validate_cleaned (h : validatePortableUploadRecord record = .ok ()) :
    validatePortableUploadRecord { record with cleanupPending := false } = .ok () := by
  obtain ⟨_, hfields, h⟩ := bind_ok h
  refine bind_eq_ok_iff.mpr ⟨(), ?_, h⟩
  simp only [rejectIf_eq_ok_iff, Bool.or_eq_false_iff] at hfields ⊢
  exact ⟨⟨⟨hfields.1.1.1, by simp⟩, hfields.1.2⟩, hfields.2⟩

/-! ## Batch aborts -/

/-- A byte of the bitmap stands for eight members. -/
structure PortableUploadBatchAbort where
  ownerID : String
  batchID : String
  count : Nat
  aborted : List UInt8
  modifiedAt : Time
  deriving DecidableEq, Repr

def validatePortableUploadBatchAbort (value : PortableUploadBatchAbort) : Except Error Unit := do
  rejectIf (!validDomainText value.ownerID || value.count < 1 || maxPortableUploadBatchItems < value.count
      || value.modifiedAt = 0) (newError .invalid "invalid portable upload batch abort")
  rejectIf (value.aborted.length ≠ (value.count + 7) / 8)
    (newError .invalid "invalid portable upload batch abort bitmap")
  rejectIf (value.aborted.all (· = 0)) (newError .invalid "empty portable upload batch abort bitmap")
  rejectIf (value.count % 8 ≠ 0 && value.aborted.getLast?.any fun bits => 2 ^ (value.count % 8) ≤ bits.toNat)
    (newError .invalid "portable upload batch abort bitmap exceeds its member count")

/-- `PortableUploadBatchAbort.Aborts`. -/
def PortableUploadBatchAbort.aborts (value : PortableUploadBatchAbort) (index : Nat) : Bool :=
  index < value.count && ((value.aborted.getD (index / 8) 0).toNat.testBit (index % 8))

abbrev BatchAborts := String → Option PortableUploadBatchAbort

def PortableUploadRecord.overlaid (record : PortableUploadRecord) (aborts : BatchAborts) : Bool :=
  record.batch.any fun member => (aborts member.batchID).any (·.aborts member.index)

def PortableUploadRecord.underAbort (record : PortableUploadRecord) (aborts : BatchAborts) : PortableUploadRecord :=
  if record.overlaid aborts then
    { record with state := .uploadAborted, cleanupPending := false, completion := none }
  else record

/-- `portableUploadBatchAbortAtView`, on the stored overlay. -/
def portableUploadBatchAbortAtView (aborts : BatchAborts) (ownerID batchID : String) :
    Except Error (Option PortableUploadBatchAbort) :=
  match aborts batchID with
  | none => .ok none
  | some value => do
    rejectIf (!(validatePortableUploadBatchAbort value).toBool || value.ownerID ≠ ownerID || value.batchID ≠ batchID)
      (newError .invalid "invalid portable upload batch abort")
    pure (some value)

def checkAbortCount (member : PortableUploadBatchMember) : Option PortableUploadBatchAbort → Except Error Unit
  | none => .ok ()
  | some abort => rejectIf (abort.count ≠ member.count) (newError .invalid "upload batch abort count is misbound")

/-- `portableUploadAtView`, on the stored record and overlays. -/
def portableUploadAtView (aborts : BatchAborts) (ownerID uploadID : String) (stored : Option PortableUploadRecord) :
    Except Error PortableUploadRecord :=
  match stored with
  | none => .error (newError .notFound "upload does not exist")
  | some value => do
    let record ← decodePortableUploadRecord value ownerID uploadID
    match record.batch with
    | none => pure record
    | some member =>
      let abort ← portableUploadBatchAbortAtView aborts ownerID member.batchID
      checkAbortCount member abort
      pure (record.underAbort aborts)

theorem portableUploadAtView_ok {aborts : BatchAborts} {ownerID uploadID : String}
    {stored : Option PortableUploadRecord} (h : portableUploadAtView aborts ownerID uploadID stored = .ok record) :
    ∃ value, stored = some value ∧ record = value.underAbort aborts := by
  cases stored with
  | none => cases h
  | some value =>
    refine ⟨value, rfl, ?_⟩
    obtain ⟨decoded, hdecoded, h⟩ := bind_ok h
    obtain ⟨_, _, hdecoded⟩ := bind_ok hdecoded
    cases hdecoded
    cases hbatch : value.batch with
    | none =>
      simp only [hbatch] at h
      cases h
      simp [PortableUploadRecord.underAbort, PortableUploadRecord.overlaid, hbatch]
    | some member =>
      simp only [hbatch] at h
      obtain ⟨abort, _, h⟩ := bind_ok h
      obtain ⟨_, _, h⟩ := bind_ok h
      cases h
      rfl

theorem isOpen_underAbort (record : PortableUploadRecord) (aborts : BatchAborts) :
    (record.underAbort aborts).isOpen = (record.isOpen && !record.overlaid aborts) := by
  unfold PortableUploadRecord.underAbort
  split <;> simp_all [PortableUploadRecord.isOpen]

/-! ## Lease segments -/

structure PortableUploadLease where
  index : Nat
  uploadID : String
  lease : Lease
  deriving DecidableEq, Repr

structure PortableUploadLeaseSegment where
  backendKind : String
  ownerID : String
  batchID : String
  segment : Nat
  totalCount : Nat
  firstIndex : Nat
  leases : List PortableUploadLease
  deriving DecidableEq, Repr

def checkSegmentSpan (value : PortableUploadLeaseSegment) : Except Error Unit :=
  if value.leases.length = value.totalCount then
    rejectIf (value.segment ≠ (value.totalCount - 1) / maxUploadLeaseSegmentItems || value.firstIndex ≠ 0)
      (newError .invalid "invalid cumulative upload lease segment")
  else
    rejectIf ((value.totalCount - 1) / maxUploadLeaseSegmentItems ≤ value.segment
        || value.firstIndex ≠ value.segment * maxUploadLeaseSegmentItems
        || value.leases.length ≠ maxUploadLeaseSegmentItems)
      (newError .invalid "invalid partial upload lease segment")

def checkSegmentMembers : Nat → List PortableUploadLease → Except Error Unit
  | _, [] => .ok ()
  | index, lease :: rest => do
    rejectIf (lease.index ≠ index || maxPortableUploadBatchItems ≤ lease.index || !validDomainText lease.uploadID
        || lease.lease = "") (newError .invalid "invalid upload lease segment member")
    checkSegmentMembers (index + 1) rest

def validatePortableUploadLeaseSegment (value : PortableUploadLeaseSegment) : Except Error Unit := do
  rejectIf (!validDomainText value.ownerID || value.totalCount < 1 || maxPortableUploadBatchItems < value.totalCount
      || (value.totalCount - 1) / maxUploadLeaseSegmentItems < value.segment || value.leases.length < 1)
    (newError .invalid "invalid upload lease segment")
  checkSegmentSpan value
  checkSegmentMembers value.firstIndex value.leases

/-- `DecodePortableUploadLeaseSegment`, on the decoded segment. -/
def decodePortableUploadLeaseSegment (value : PortableUploadLeaseSegment) (backendKind ownerID batchID : String)
    (segment : Nat) : Except Error PortableUploadLeaseSegment := do
  rejectIf (value.backendKind ≠ backendKind || value.ownerID ≠ ownerID || value.batchID ≠ batchID
      || value.segment ≠ segment) (newError .invalid "upload lease segment key binding mismatch")
  validatePortableUploadLeaseSegment value
  pure value

def segmentSlot (record : PortableUploadRecord) (member : PortableUploadBatchMember)
    (segment : PortableUploadLeaseSegment) : Except Error Lease := do
  rejectIf (segment.totalCount ≠ member.count || member.index < segment.firstIndex)
    (newError .invalid "upload lease segment total is misbound")
  match segment.leases[member.index - segment.firstIndex]? with
  | none => .error (newError .invalid "upload lease segment member is missing or misbound")
  | some slot => do
    rejectIf (slot.index ≠ member.index || slot.uploadID ≠ record.uploadID)
      (newError .invalid "upload lease segment member is missing or misbound")
    pure slot.lease

/-! ## The smallest batch -/

namespace Batch

def upload (state : PortableUploadState) (cleanupPending : Bool) : PortableUploadRecord where
  uploadID := "u"
  ownerID := "o"
  area := .areaLive
  requestedPath := ["f"]
  resolvedPath := ["f"]
  blobID := "u"
  size := 1
  mediaType := "text/plain"
  conflict := .conflictFail
  state := state
  cleanupPending := cleanupPending
  createdAt := 1
  expiresAt := 20
  batch := some { batchID := "b", index := 0, count := 1 }

end Batch

end EndlessFS
