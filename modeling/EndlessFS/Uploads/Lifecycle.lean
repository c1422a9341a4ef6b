import EndlessFS.Uploads.Record

/-!
# EndlessFS.Uploads.Lifecycle

The lifecycle of the uploads of one owner: what each operation reads from a namespace head and the
commit it prepares.

* `OwnerHead`: the upload records, abort overlays and idempotency records of a namespace head, and the
  files that the commits up to it published.
* `UploadCommand.plan`: one attempt of an operation, on the head it loaded.
* `OwnerCommit.Admitted`: a commit prepared on one head is applied to a later one only if the records it
  writes are still as they were read; `exact` commits (`mutateMaterializedPrepared`, or a mutation with an
  `ExpectedRevision`) only to the head they were prepared on.
* `OwnerRun`: the heads of any interleaving of operations by any number of replicas, newest first.
-/

namespace EndlessFS

/-- `PortableUploadIdempotency`. -/
structure PortableUploadIdempotency where
  fingerprint : String
  uploadID : String
  deriving DecidableEq, Repr

/-- `domain.Entry`: a path and the entry found or published there. -/
structure ResolvedEntry where
  path : List String
  entry : DirectoryEntry
  deriving DecidableEq, Repr

structure UploadPublication where
  uploadID : String
  published : ResolvedEntry
  deriving DecidableEq, Repr

structure OwnerHead where
  revision : Nat
  records : String → Option PortableUploadRecord
  aborts : BatchAborts
  keys : String → Option PortableUploadIdempotency
  published : List UploadPublication

def OwnerHead.empty : OwnerHead where
  revision := 0
  records _ := none
  aborts _ := none
  keys _ := none
  published := []

def OwnerHead.observed (head : OwnerHead) (uploadID : String) : Option PortableUploadState :=
  (head.records uploadID).map fun record => (record.underAbort head.aborts).state

/-! ## Commits -/

/-- A change of an upload record: `before` is what was read, `none` for a record that must be absent. -/
structure RecordWrite where
  uploadID : String
  before : Option PortableUploadRecord
  after : PortableUploadRecord

structure OwnerCommit where
  exact : Bool
  writes : List RecordWrite := []
  overlay : Option PortableUploadBatchAbort := none
  keys : List (String × PortableUploadIdempotency) := []
  publishes : List UploadPublication := []

structure OwnerCommit.Admitted (commit : OwnerCommit) (seen head : OwnerHead) : Prop where
  exact : commit.exact = true → seen.revision = head.revision
  writes : ∀ write ∈ commit.writes, head.records write.uploadID = write.before
  keys : ∀ entry ∈ commit.keys, head.keys entry.1 = none

def OwnerCommit.apply (commit : OwnerCommit) (head : OwnerHead) : OwnerHead where
  revision := head.revision + 1
  records uploadID :=
    match commit.writes.find? (·.uploadID = uploadID) with
    | some write => some write.after
    | none => head.records uploadID
  aborts batchID :=
    match commit.overlay with
    | some overlay => if overlay.batchID = batchID then some overlay else head.aborts batchID
    | none => head.aborts batchID
  keys key :=
    match commit.keys.find? (·.1 = key) with
    | some entry => some entry.2
    | none => head.keys key
  published := commit.publishes ++ head.published

/-! ## Operations -/

/-- One attempt of an operation: whose uploads, where and when, on which head and namespace. -/
structure UploadAttempt where
  ownerID : String
  area : Area
  now : Time
  head : OwnerHead
  view : NamespaceView
  /-- No clock shows the zero time. -/
  started : now ≠ 0

variable {codec : NamespaceCodec}

/-- `uploadBatchMemberID`. -/
def uploadBatchMemberID (codec : NamespaceCodec) (batchID : String) (index : Nat) : String :=
  codec.digest ["endlessfs-upload-batch-member-v1", batchID, toString index]

/-- A request to create an upload: its idempotency key, empty for none, its fingerprint, the fresh upload ID
(of a single upload), and what was resolved for its record. -/
structure UploadCreation (codec : NamespaceCodec) where
  key : String
  fingerprint : String
  uploadID : String
  requestedPath : UserPath codec.toNormalization
  resolvedPath : UserPath codec.toNormalization
  size : Int
  mediaType : String
  conflict : ConflictMode
  expectedVersion : String
  targetExisted : Bool
  resumable : Bool
  expiresAt : Time

def UploadCreation.record (creation : UploadCreation codec) (at_ : UploadAttempt) (uploadID : String)
    (batch : Option PortableUploadBatchMember) : PortableUploadRecord where
  uploadID := uploadID
  ownerID := at_.ownerID
  area := at_.area
  requestedPath := creation.requestedPath.segments
  resolvedPath := creation.resolvedPath.segments
  blobID := uploadID
  size := creation.size
  mediaType := creation.mediaType
  conflict := creation.conflict
  expectedVersion := creation.expectedVersion
  targetExisted := creation.targetExisted
  resumable := creation.resumable
  state := .uploadInitializing
  createdAt := at_.now
  expiresAt := creation.expiresAt
  batch := batch

/-- `CompleteUploadRequest`, and what the provider says of the uploaded object. -/
structure CompleteUploadRequest where
  uploadID : String
  path : List String
  size : Int
  mediaType : String

structure UploadProgress where
  complete : Bool
  size : Int
  md5 : String
  crc32c : String

/-- An item of a batch completion with the digest that its verification found. -/
structure CompletionItem where
  uploadID : String
  crc32c : String
  md5 : String
  deriving DecidableEq

inductive UploadCommand (codec : NamespaceCodec) where
  | create (creation : UploadCreation codec)
  | admission (creations : List (UploadCreation codec))
  | createBatch (batchID : String) (creations : List (UploadCreation codec))
  | activate (uploadID : String)
  | activatePage (uploadIDs : List String)
  | complete (request : CompleteUploadRequest) (progress : Except Error UploadProgress)
  | completeBatch (recordReceipts : Bool) (items : List CompletionItem)
  | abort (uploadID : String)
  | abortBatch (recordReceipts : Bool) (uploadIDs : List String)
  | abortOverlay (batchID : String) (uploadIDs : List String)
  | cleanup (uploadID : String)
  | other

namespace UploadAttempt

variable (at_ : UploadAttempt)

/-- `portableUploadAtView`. -/
def upload (uploadID : String) : Except Error PortableUploadRecord :=
  portableUploadAtView at_.head.aborts at_.ownerID uploadID (at_.head.records uploadID)

def write (uploadID : String) (after : PortableUploadRecord) : RecordWrite :=
  { uploadID, before := at_.head.records uploadID, after }

def receipt (creation : UploadCreation codec) (uploadID : String) : List (String × PortableUploadIdempotency) :=
  if creation.key = "" then [] else [(creation.key, { fingerprint := creation.fingerprint, uploadID })]

/-- The commit of `createUpload008`. -/
def create (creation : UploadCreation codec) : OwnerCommit where
  exact := false
  writes := [{ uploadID := creation.uploadID, before := none, after := creation.record at_ creation.uploadID none }]
  keys := receipt creation creation.uploadID

/-- The commit of `admissionIntents`. -/
def admission (creations : List (UploadCreation codec)) : OwnerCommit where
  exact := true
  writes := creations.map fun creation =>
    { uploadID := creation.uploadID, before := none, after := creation.record at_ creation.uploadID none }
  keys := creations.flatMap fun creation => receipt creation creation.uploadID

/-- The commit of `createUploadBatch008`. -/
def createBatch (batchID : String) (creations : List (UploadCreation codec)) : OwnerCommit where
  exact := true
  writes := creations.zipIdx.map fun (creation, index) =>
    { uploadID := uploadBatchMemberID codec batchID index, before := none
      after := creation.record at_ (uploadBatchMemberID codec batchID index)
        (some { batchID, index, count := creations.length }) }
  keys := creations.zipIdx.flatMap fun (creation, index) => receipt creation (uploadBatchMemberID codec batchID index)

/-- The commit of `initializePortableUpload`, whose callers hand it single uploads; a record never changes
its membership. -/
def activate (uploadID : String) : Except Error (Option OwnerCommit) := do
  let record ← at_.upload uploadID
  if record.batch.isSome || !record.isOpen then .error (newError .conflict "upload initialization was superseded")
  else if record.state = .uploadActive then pure none
  else pure (some { exact := false, writes := [at_.write uploadID { record with state := .uploadActive }] })

/-- The changes of `activateAdmissionPage`. -/
def activations : List String → List RecordWrite
  | [] => []
  | uploadID :: rest =>
    match at_.upload uploadID with
    | .error _ => activations rest
    | .ok record =>
      if record.state ≠ .uploadInitializing || record.batch.isSome || record.expiresAt ≤ at_.now then activations rest
      else at_.write uploadID { record with state := .uploadActive } :: activations rest

variable (codec)

def uploadEntry (record : PortableUploadRecord) (md5 crc32c : String) (modifiedAt : Time) : ResolvedEntry :=
  let path := record.resolvedPath.map codec.nfc
  { path
    entry := ({ name := path.getLast?.getD "", kind := .entryFile, blobID := record.blobID, size := record.size
                mediaType := record.mediaType, md5 := md5, crc32c := crc32c, modifiedAt := modifiedAt } :
                  DirectoryEntry).stamped codec }

/-- `resolveEntryAtView`. -/
def resolveEntry (path : UserPath codec.toNormalization) : Except Error ResolvedEntry :=
  if path.isRoot then .ok { path := path.segments, entry := (viewRoot codec at_.ownerID at_.view at_.area).entry }
  else do
    let trail ← resolveTrail codec at_.ownerID at_.view at_.area path.parent
    let parent ← lastFrame trail
    let found ← child codec parent.entry path.name
    let entry ← requireFound "entry does not exist" found
    pure { path := path.segments, entry := entry.entry }

/-- What `completeUpload008` comes to: an entry that is returned at once, or a commit. -/
inductive Completion where
  | replayed (entry : ResolvedEntry)
  | commits (commit : OwnerCommit)

def checkProgress (record : PortableUploadRecord) (progress : UploadProgress) : Except Error Unit :=
  rejectIf (!progress.complete || progress.size ≠ record.size || !fingerprintComplete progress.md5 progress.crc32c)
    (newError .preconditionFailed "uploaded object is incomplete or has invalid provider integrity metadata")

/-- The publication of `completeUpload008`; the root is refused by `publishFileWithChangesAtView`. -/
def publishUpload (record : PortableUploadRecord) (resolved : UserPath codec.toNormalization)
    (progress : Except Error UploadProgress) : Except Error Completion := do
  rejectIf (record.state ≠ .uploadActive || record.expiresAt ≤ at_.now) (newError .conflict "upload is not active")
  let progress ← progress
  checkProgress record progress
  rejectIf resolved.isRoot (newError .invalid "invalid namespace file publication")
  pure (.commits
    { exact := false
      writes := [at_.write record.uploadID { record with state := .uploadCompleted, cleanupPending := true }]
      publishes := [{ uploadID := record.uploadID,
                      published := uploadEntry codec record progress.md5 progress.crc32c at_.now }] })

def parseResolvedPath (record : PortableUploadRecord) : Except Error (UserPath codec.toNormalization) :=
  (parseUserPath codec.toNormalization record.resolvedPath).mapError fun _ =>
    newError .invalid "stored upload path is invalid"

/-- `completeUpload008`. -/
def completeUpload008 (request : CompleteUploadRequest) (progress : Except Error UploadProgress) :
    Except Error Completion := do
  let record ← at_.upload request.uploadID
  rejectIf (record.area ≠ at_.area) (newError .notFound "upload does not exist")
  let requested ← (parseUserPath codec.toNormalization record.requestedPath).mapError fun _ =>
    newError .invalid "upload completion does not match initiation"
  rejectIf (requested.segments ≠ request.path || request.size ≠ record.size)
    (newError .invalid "upload completion does not match initiation")
  rejectIf (request.mediaType ≠ record.mediaType) (newError .invalid "upload completion media type does not match")
  let resolved ← parseResolvedPath codec record
  match record.state with
  | .uploadCompleted => do
    let entry ← at_.resolveEntry codec resolved
    pure (.replayed entry)
  | .uploadAborted => .error (newError .notFound "upload does not exist")
  | _ => at_.publishUpload codec record resolved progress

/-- An item of a batch as `load` reads it: a terminal one, or one that is still open. -/
inductive LoadedItem where
  | terminal (record : PortableUploadRecord)
  | open_ (record : PortableUploadRecord)

def completionReceipt (item : CompletionItem) (record : PortableUploadRecord) : Except Error LoadedItem := do
  rejectIf (!record.completion.any fun completion => completion.crc32c = item.crc32c)
    (newError .conflict "completed checksum differs")
  pure (.terminal record)

def loadCompletion (recordReceipts : Bool) (item : CompletionItem) : Except Error LoadedItem := do
  let record ← at_.upload item.uploadID
  rejectIf (record.area ≠ at_.area)
    (if recordReceipts then newError .notFound "upload does not exist"
      else newError .conflict "upload completion contains an inactive upload")
  if recordReceipts && record.state = .uploadCompleted then completionReceipt item record
  else do
    rejectIf (!record.isOpen || record.expiresAt ≤ at_.now)
      (newError .conflict "upload completion contains an inactive upload")
    pure (.open_ record)

/-- `completionEntriesFromRecords` for one record. -/
def completionEntryFromRecord (record : PortableUploadRecord) : Except Error ResolvedEntry :=
  match record.completion with
  | none => .error (newError .invalid "completed upload is missing its portable result")
  | some completion => do
    let _ ← (storedUploadPath codec record.resolvedPath).mapError fun _ =>
      newError .invalid "completed upload path is invalid"
    pure (uploadEntry codec record completion.md5 completion.crc32c completion.modifiedAt)

def LoadedItem.openRecord : LoadedItem → Option PortableUploadRecord
  | .terminal _ => none
  | .open_ record => some record

def completedItem (item : CompletionItem) (record : PortableUploadRecord) : RecordWrite × UploadPublication :=
  (at_.write item.uploadID
    { record with state := .uploadCompleted, cleanupPending := false
                  completion := some { md5 := item.md5, crc32c := item.crc32c, modifiedAt := at_.now } },
    { uploadID := item.uploadID, published := uploadEntry codec record item.md5 item.crc32c at_.now })

/-- `completeUploadBatchWithReceipt`: `none` if every item is completed already. -/
def completeUploadBatchWithReceipt (recordReceipts : Bool) (items : List CompletionItem) :
    Except Error (Option OwnerCommit) := do
  rejectIf (!decide (items.map CompletionItem.uploadID).Nodup)
    (newError .invalid "upload completion batch repeats an upload")
  let loaded ← items.mapM (at_.loadCompletion recordReceipts)
  let opened := loaded.filterMap LoadedItem.openRecord
  if opened.isEmpty then pure none
  else do
    rejectIf (opened.length ≠ items.length) (newError .conflict "upload completion changed concurrently")
    rejectIf (!items.all fun item => fingerprintComplete item.md5 item.crc32c)
      (newError .preconditionFailed "uploaded object has invalid provider integrity metadata")
    rejectIf (!opened.all fun record => (storedUploadPath codec record.resolvedPath).toBool)
      (newError .invalid "stored upload path is invalid")
    let changes := items.zipWith (at_.completedItem codec) opened
    pure (some { exact := true, writes := changes.map Prod.fst, publishes := changes.map Prod.snd })

/-- `abortUpload008`: `none` if the upload is aborted already. -/
def abortUpload008 (uploadID : String) : Except Error (Option OwnerCommit) := do
  let record ← at_.upload uploadID
  rejectIf (record.area ≠ at_.area) (newError .notFound "upload does not exist")
  match record.state with
  | .uploadAborted => pure none
  | .uploadCompleted => .error (newError .conflict "completed upload cannot be aborted")
  | _ => pure (some { exact := false
                      writes := [at_.write uploadID { record with state := .uploadAborted, cleanupPending := true }] })

def loadAbort (recordReceipts : Bool) (batchID : String) (count : Nat) (uploadID : String) :
    Except Error LoadedItem := do
  let record ← at_.upload uploadID
  rejectIf (record.area ≠ at_.area)
    (if recordReceipts then newError .notFound "upload does not exist"
      else newError .conflict "upload cancellation contains a terminal upload")
  if recordReceipts && record.state = .uploadAborted then pure (.terminal record)
  else do
    rejectIf (!record.isOpen) (newError .conflict "upload cancellation contains a terminal upload")
    rejectIf (batchID ≠ "" && !record.batch.any fun member => member.batchID = batchID && member.count = count)
      (newError .conflict "upload cancellation does not match one complete admitted batch")
    pure (.open_ record)

/-- `load` of `abortUploadBatchWithReceipt`: `none` if every upload is aborted already. -/
def loadAborts (recordReceipts : Bool) (batchID : String) (uploadIDs : List String) :
    Except Error (Option (List PortableUploadRecord)) := do
  rejectIf (!decide uploadIDs.Nodup) (newError .invalid "upload cancellation batch repeats an upload")
  let loaded ← uploadIDs.mapM (at_.loadAbort recordReceipts batchID uploadIDs.length)
  let opened := loaded.filterMap LoadedItem.openRecord
  if opened.isEmpty then pure none
  else do
    rejectIf (opened.length ≠ uploadIDs.length) (newError .conflict "upload cancellation changed concurrently")
    pure (some opened)

/-- `abortUploadBatchWithReceipt` without a batch ID: the records themselves are aborted. -/
def abortUploadBatchWithReceipt (recordReceipts : Bool) (uploadIDs : List String) :
    Except Error (Option OwnerCommit) := do
  let loaded ← at_.loadAborts recordReceipts "" uploadIDs
  pure (loaded.map fun records =>
    { exact := true
      writes := uploadIDs.zipWith (fun uploadID record => at_.write uploadID
        { record with state := .uploadAborted, cleanupPending := false, completion := none }) records })

/-- `bitmap[index/8] |= 1 << (index % 8)`. -/
def setMember (bitmap : List UInt8) (index : Nat) : List UInt8 :=
  bitmap.modify (index / 8) (· ||| UInt8.ofNat (2 ^ (index % 8)))

def overlayBitmap (batchID : String) (count : Nat) : Except Error (List UInt8) :=
  match at_.head.aborts batchID with
  | none => .ok (List.replicate ((count + 7) / 8) 0)
  | some overlay => do
    rejectIf (overlay.count ≠ count) (newError .invalid "upload cancellation overlay count is misbound")
    pure overlay.aborted

/-- `abortUploadBatchWithReceipt` with a batch ID: the overlay cancels the whole batch. -/
def abortBatchOverlay (batchID : String) (uploadIDs : List String) : Except Error (Option OwnerCommit) := do
  let loaded ← at_.loadAborts false batchID uploadIDs
  match loaded with
  | none => pure none
  | some records => do
    let indexes := records.filterMap fun record => record.batch.map (·.index)
    rejectIf (indexes.any (records.length ≤ ·)) (newError .invalid "upload cancellation member is misbound")
    rejectIf (!decide indexes.Nodup) (newError .invalid "upload cancellation repeats a batch member")
    let bitmap ← at_.overlayBitmap batchID records.length
    let overlay : PortableUploadBatchAbort :=
      { ownerID := at_.ownerID, batchID := batchID, count := records.length, aborted := indexes.foldl setMember bitmap
        modifiedAt := at_.now }
    validatePortableUploadBatchAbort overlay
    pure (some { exact := true, overlay := some overlay })

/-- `cleanupPortableUpload`: `none` if nothing is left to clean up. -/
def cleanupPortableUpload (uploadID : String) : Except Error (Option OwnerCommit) := do
  let record ← at_.upload uploadID
  if record.cleanupPending then
    pure (some { exact := false, writes := [at_.write uploadID { record with cleanupPending := false }] })
  else pure none

end UploadAttempt

def UploadAttempt.Completion.commit : UploadAttempt.Completion → Option OwnerCommit
  | .replayed _ => none
  | .commits commit => some commit

/-- One attempt of an operation; `none` if it returns without a commit. -/
def UploadCommand.plan (codec : NamespaceCodec) (at_ : UploadAttempt) :
    UploadCommand codec → Except Error (Option OwnerCommit)
  | .create creation => .ok (some (at_.create creation))
  | .admission creations => .ok (some (at_.admission creations))
  | .createBatch batchID creations => .ok (some (at_.createBatch batchID creations))
  | .activate uploadID => at_.activate uploadID
  | .activatePage uploadIDs => .ok (some { exact := true, writes := at_.activations uploadIDs })
  | .complete request progress => (at_.completeUpload008 codec request progress).map (·.commit)
  | .completeBatch recordReceipts items => at_.completeUploadBatchWithReceipt codec recordReceipts items
  | .abort uploadID => at_.abortUpload008 uploadID
  | .abortBatch recordReceipts uploadIDs => at_.abortUploadBatchWithReceipt recordReceipts uploadIDs
  | .abortOverlay batchID uploadIDs =>
    if batchID = "" then at_.abortUploadBatchWithReceipt false uploadIDs else at_.abortBatchOverlay batchID uploadIDs
  | .cleanup uploadID => at_.cleanupPortableUpload uploadID
  | .other => .ok (some { exact := false })

variable (codec)

/-- The heads of a run, newest first. An operation may have loaded any of them, and its commit is applied to the
newest one if that admits it; a commit whose response is lost is applied all the same. -/
inductive OwnerRun (ownerID : String) : List OwnerHead → Prop where
  | start : OwnerRun ownerID [.empty]
  | commit {head : OwnerHead} {past : List OwnerHead} {at_ : UploadAttempt} {command : UploadCommand codec}
      {commit : OwnerCommit} :
      OwnerRun ownerID (head :: past) → at_.ownerID = ownerID → at_.head ∈ head :: past →
      command.plan codec at_ = .ok (some commit) → commit.Admitted at_.head head →
      OwnerRun ownerID (commit.apply head :: head :: past)

end EndlessFS
