import Mathlib.Data.List.Sort
import EndlessFS.Namespace.Publish

/-!
# EndlessFS.Namespace.Operations

The operations of the namespace (`portable/namespace_store.go`, `portable/namespace_batch.go`), each
as one attempt on a view: the changed roots it wants to commit. Looking for a retained outcome, and
trying again after a lost race, are the business of the callers.

* `resolveDestination`: the three conflict modes.
* `createDirectory`, `publishFile`, `copyOrMoveResolved`, `deleteResolved`: single operations.
* `batchCopyOrMove`, `batchDeleteFromTrash`, `completeUploadBatch`: batches, published by one commit.
-/

namespace EndlessFS

open NamespaceEntry (name)

variable (codec : NamespaceCodec)

/-- `domain.ConflictMode`; `unset` is the empty mode of a request. -/
inductive ConflictMode where
  | unset
  | conflictFail
  | conflictReplace
  | conflictRename
  deriving DecidableEq, Repr

/-- `NormalizeConflictMode`. -/
def normalizeConflictMode : ConflictMode → ConflictMode
  | .unset => .conflictFail
  | mode => mode

/-! ## Destinations -/

def charsBytes (chars : List Char) : Nat := (chars.map Char.utf8Size).sum

def splitExtension (name : String) : List Char × List Char :=
  let chars := name.toList
  let index := chars.length - (chars.reverse.takeWhile (· ≠ '.')).length - 1
  if '.' ∈ chars ∧ 0 < index then (chars.take index, chars.drop index) else (chars, [])

/-- The base shortened by whole characters until it fits beside `extra` bytes. -/
def trimBase (extra : Nat) : Nat → List Char → List Char
  | 0, base => base
  | fuel + 1, base =>
    if maxSegmentBytes < charsBytes base + extra ∧ base ≠ [] then trimBase extra fuel base.dropLast else base

/-- The name of the `index`-th candidate. -/
def candidateName (name : String) (index : Nat) : String :=
  let parts := splitExtension name
  let suffix := (" (" ++ toString index ++ ")").toList
  let base := trimBase (charsBytes suffix + charsBytes parts.2) parts.1.length parts.1
  String.ofList (base ++ suffix ++ parts.2)

/-- The loop of `ConflictRename`, from the `index`-th candidate on. -/
def renameFrom (parent : NamespaceEntry) (requested : UserPath codec.toNormalization) :
    Nat → Nat → Except Error (UserPath codec.toNormalization)
  | _, 0 => .error (newError .conflict "unable to generate a conflict-free name")
  | index, fuel + 1 => do
    let candidate ← requested.parent.join (candidateName requested.name index)
    let found ← child codec parent candidate.name
    if found.isNone then pure candidate else renameFrom parent requested (index + 1) fuel

def resolveExisting (parent : NamespaceEntry) (requested : UserPath codec.toNormalization) (conflict : ConflictMode)
    (expected : String) (existing : NamespaceEntry) :
    Except Error (UserPath codec.toNormalization × Option NamespaceEntry) :=
  match conflict with
  | .conflictFail => .error (newError .conflict "destination already exists")
  | .conflictReplace =>
    if expected = "" ∨ expected ≠ existing.entry.logicalVersion then
      .error (newError .preconditionFailed "destination version does not match")
    else .ok (requested, some existing)
  | .conflictRename => do
    let candidate ← renameFrom codec parent requested 1 10000
    pure (candidate, none)
  | .unset => .error (newError .invalid "invalid conflict mode")

def resolveDestination (parent : NamespaceEntry) (requested : UserPath codec.toNormalization) (conflict : ConflictMode)
    (expected : String) : Except Error (UserPath codec.toNormalization × Option NamespaceEntry) := do
  let found ← child codec parent requested.name
  match found with
  | none => pure (requested, none)
  | some existing => resolveExisting codec parent requested conflict expected existing

/-! ## Grouped edits -/

/-- `grouped[key] = append(grouped[key], edit)`. -/
def addEdit (groups : List EditGroup) (pair : FrameKey × DirectoryEdit) : List EditGroup :=
  match groups with
  | [] => [{ key := pair.1, edits := [pair.2] }]
  | group :: rest =>
    if group.key = pair.1 then { group with edits := group.edits ++ [pair.2] } :: rest
    else group :: addEdit rest pair

def groupEdits (pairs : List (FrameKey × DirectoryEdit)) : List EditGroup := pairs.foldl addEdit []

/-- `trail[len(trail)-1]`. -/
def lastFrame (trail : List NamespaceFrame) : Except Error NamespaceFrame :=
  match trail.getLast? with
  | none => .error (newError .internal "empty trail")
  | some frame => .ok frame

def requireFound (message : String) : Option NamespaceEntry → Except Error NamespaceEntry
  | none => .error (newError .notFound message)
  | some found => .ok found

/-- An operation on the namespace of `owner`, tried at the time `now` on the view `view`. -/
structure Attempt where
  owner : String
  view : NamespaceView
  now : Time

def Attempt.root (at_ : Attempt) (area : Area) : NamespaceEntry := viewRoot codec at_.owner at_.view area

def Attempt.trail (at_ : Attempt) (area : Area) (path : UserPath codec.toNormalization) :
    Except Error (List NamespaceFrame) := resolveTrail codec at_.owner at_.view area path

def Attempt.publish (at_ : Attempt) (trails : List (List NamespaceFrame)) (pairs : List (FrameKey × DirectoryEdit)) :
    Except Error Changes := publishEdits codec (mergeNamespaceFrames trails) (groupEdits pairs) at_.now

/-! ## Single operations -/

/-- `CreateDirectoryRequest`, with the random mutation ID of the call. -/
structure CreateDirectoryRequest where
  area : Area
  path : UserPath codec.toNormalization
  conflict : ConflictMode
  expectedVersion : String
  mutationID : String

def createdDirectory (mutationID name : String) (now : Time) : NamespaceEntry :=
  let created := emptyDirectory codec (codec.digest ["endlessfs-namespace-directory-v1", mutationID]) name now
  .mk { created.node with entry := created.entry.stamped codec } []

/-- `createDirectory`. -/
def createDirectory (at_ : Attempt) (request : CreateDirectoryRequest codec) :
    Except Error (Changes × UserPath codec.toNormalization) := do
  rejectIf request.path.isRoot (newError .invalid "directory path is invalid")
  let trail ← at_.trail codec request.area request.path.parent
  let parent ← lastFrame trail
  let destination ← resolveDestination codec parent.entry request.path (normalizeConflictMode request.conflict)
    request.expectedVersion
  let created := createdDirectory codec request.mutationID destination.1.name at_.now
  let changes ← at_.publish codec [trail] [(parent.key, { before := destination.2, after := some created })]
  pure (changes, destination.1)

/-- The file of a publication: its mutation ID, and the entry without name and version. -/
structure PublishFileRequest where
  area : Area
  path : UserPath codec.toNormalization
  conflict : ConflictMode
  expected : String
  mutationID : String
  requestFingerprint : String
  entry : DirectoryEntry

def publishedFile (request : PublishFileRequest codec) (name : String) : NamespaceEntry :=
  let entry := { request.entry with name, directoryID := "", fileCount := 0, contentDigest := "" }
  .mk { nodeID := codec.digest ["endlessfs-namespace-file-v1", request.mutationID], entry := entry.stamped codec } []

/-- `publishFileWithChangesAtView`; its additional changes do not concern the roots. -/
def publishFile (at_ : Attempt) (request : PublishFileRequest codec) :
    Except Error (Changes × UserPath codec.toNormalization) := do
  rejectIf (request.path.isRoot || request.entry.kind ≠ .entryFile || request.entry.blobID = "" ||
    request.entry.size < 0
      || request.entry.mediaType = "" || request.entry.modifiedAt = 0 || request.mutationID = ""
      || request.requestFingerprint = "")
    (newError .invalid "invalid namespace file publication")
  let trail ← at_.trail codec request.area request.path.parent
  let parent ← lastFrame trail
  let destination ← resolveDestination codec parent.entry request.path request.conflict request.expected
  let file := publishedFile codec request destination.1.name
  let changes ← publishEdits codec (mergeNamespaceFrames [trail])
    (groupEdits [(parent.key, { before := destination.2, after := some file })]) request.entry.modifiedAt
  pure (changes, destination.1)

/-- `CopyRequest` and `MoveRequest`, with the areas of their scopes and the operation ID that the
idempotency key, or chance, gives. A request to restore has no destination. -/
structure CopyRequest where
  fromArea : Area
  toArea : Area
  source : UserPath codec.toNormalization
  destination : Option (UserPath codec.toNormalization)
  conflict : ConflictMode
  expectedSource : String
  expectedTarget : String
  operationID : String

def checkCopyRequest (restoreOriginal : Bool) (request : CopyRequest codec) : Except Error Unit := do
  rejectIf (request.source.isRoot || !restoreOriginal && !request.destination.any fun d => !d.isRoot)
    (newError .invalid "source and destination paths are required")
  rejectIf (!restoreOriginal && request.fromArea = request.toArea && request.destination.any fun d =>
      request.source = d && normalizeConflictMode request.conflict ≠ .conflictRename || d.isDescendantOf request.source)
    (newError .invalid "invalid move or copy destination")

def copyDestination (restoreOriginal : Bool) (request : CopyRequest codec) (source : NamespaceEntry)
    (sourceTrail : List NamespaceFrame) : Except Error (UserPath codec.toNormalization) :=
  if restoreOriginal then
    match source.node.trash with
    | none => .error (newError .invalid "trash entry metadata is missing")
    | some trash =>
      if sourceTrail.length ≠ 1 then .error (newError .invalid "trash entry metadata is missing")
      else
        match parseUserPath codec.toNormalization trash.originalPath with
        | .error _ => .error (newError .invalid "trash entry original path is invalid")
        | .ok path =>
          if path.isRoot then .error (newError .invalid "trash entry original path is invalid") else .ok path
  else
    match request.destination with
    | none => .error (newError .invalid "source and destination paths are required")
    | some path => .ok path

def placedTrash (move : Bool) (request : CopyRequest codec) (source : NamespaceEntry)
    (sourceTrail destinationTrail : List NamespaceFrame) (now : Time) : Except Error (Option NamespaceTrashMetadata) :=
  if move ∧ request.fromArea = .areaLive ∧ request.toArea = .areaTrash then
    if destinationTrail.length ≠ 1 ∨ source.node.trash.isSome then .error (newError .invalid "invalid move into trash")
    else .ok (some { originalPath := request.source.segments, originalVersion := source.entry.logicalVersion,
                     trashedAt := now })
  else if move ∧ request.fromArea = .areaTrash ∧ request.toArea = .areaLive then
    if sourceTrail.length ≠ 1 ∨ source.node.trash.isNone then .error (newError .invalid "invalid restore from trash")
    else .ok none
  else .ok source.node.trash

/-- The source under its new name: a copy is a new node, a move keeps the node and the occurrence
context it inherited. -/
def placedEntry (move : Bool) (source : NamespaceEntry) (sourceTrail : List NamespaceFrame) (name nodeID : String)
    (trash : Option NamespaceTrashMetadata) (now : Time) : NamespaceEntry :=
  let entry := { source.entry with name, modifiedAt := now }
  if move then
    let inherited := ((sourceTrail.find? fun f => f.entry.node.occurrenceContextID ≠ "").map
      fun f => f.entry.node.occurrenceContextID).getD ""
    .mk { source.node with
          occurrenceContextID := if source.isDirectory ∧ source.node.occurrenceContextID = "" then inherited
            else source.node.occurrenceContextID
          entry := entry.stamped codec
          trash } source.children
  else
    let copied := { entry with directoryID := if source.isDirectory then nodeID else "" }
    .mk { source.node with
          nodeID
          occurrenceContextID := if source.isDirectory then nodeID else source.node.occurrenceContextID
          entry := copied.stamped codec
          trash } source.children

def copyEdits (move : Bool) (sourceKey destinationKey : FrameKey) (source placed : NamespaceEntry)
    (existing : Option NamespaceEntry) : List (FrameKey × DirectoryEdit) :=
  if sourceKey = destinationKey then
    (if move then [(sourceKey, { before := some source })] else []) ++
      (if existing.isSome then [(sourceKey, { before := existing })] else []) ++
      [(sourceKey, { after := some placed })]
  else
    (if move then [(sourceKey, { before := some source })] else []) ++
      [(destinationKey, { before := existing, after := some placed })]

structure CopyOutcome where
  changes : Changes
  source : NamespaceEntry
  resolved : UserPath codec.toNormalization
  existing : Option NamespaceEntry

/-- `copyOrMoveResolved`. -/
def copyOrMoveResolved (at_ : Attempt) (move restoreOriginal : Bool) (request : CopyRequest codec) :
    Except Error (CopyOutcome codec) := do
  checkCopyRequest codec restoreOriginal request
  let sourceTrail ← at_.trail codec request.fromArea request.source.parent
  let sourceParent ← lastFrame sourceTrail
  let found ← child codec sourceParent.entry request.source.name
  let source ← requireFound "source does not exist" found
  rejectIf (request.expectedSource ≠ "" && request.expectedSource ≠ source.entry.logicalVersion)
    (newError .preconditionFailed "source version does not match")
  let destination ← copyDestination codec restoreOriginal request source sourceTrail
  let destinationTrail ← at_.trail codec request.toArea destination.parent
  let destinationParent ← lastFrame destinationTrail
  let target ← resolveDestination codec destinationParent.entry destination (normalizeConflictMode request.conflict)
    request.expectedTarget
  let trash ← placedTrash codec move request source sourceTrail destinationTrail at_.now
  let nodeID := codec.digest ["endlessfs-namespace-node-v1", request.operationID, "copy-root"]
  let placed := placedEntry codec move source sourceTrail target.1.name nodeID trash at_.now
  let changes ← at_.publish codec [sourceTrail, destinationTrail]
    (copyEdits move sourceParent.key destinationParent.key source placed target.2)
  pure { changes, source, resolved := target.1, existing := target.2 }

/-- `DeleteRequest`. -/
structure DeleteRequest where
  area : Area
  path : UserPath codec.toNormalization
  expectedVersion : String

/-- `deleteResolved`. -/
def deleteResolved (at_ : Attempt) (requireTrashMetadata : Bool) (request : DeleteRequest codec) :
    Except Error Changes := do
  rejectIf request.path.isRoot (newError .invalid "delete path is invalid")
  let trail ← at_.trail codec request.area request.path.parent
  let parent ← lastFrame trail
  let found ← child codec parent.entry request.path.name
  let entry ← requireFound "entry does not exist" found
  rejectIf (requireTrashMetadata && (request.area ≠ .areaTrash || trail.length ≠ 1 || entry.node.trash.isNone))
    (newError .invalid "trash entry metadata is missing")
  rejectIf (request.expectedVersion ≠ "" && request.expectedVersion ≠ entry.entry.logicalVersion)
    (newError .preconditionFailed "entry version does not match")
  at_.publish codec [trail] [(parent.key, { before := some entry })]

/-! ## Batches -/

/-- `namespaceBatchMoveSpec`. -/
structure BatchMoveSpec extends CopyRequest codec where
  trashID : String := ""
  attachTrash : Bool := false
  restoreTrash : Bool := false

/-- `namespaceBatchMovePlan`. -/
structure BatchMovePlan where
  spec : BatchMoveSpec codec
  sourceTrail : List NamespaceFrame
  destinationTrail : List NamespaceFrame
  sourceParent : NamespaceFrame
  destinationParent : NamespaceFrame
  source : NamespaceEntry
  existing : Option NamespaceEntry
  resolved : UserPath codec.toNormalization
  placed : NamespaceEntry

def checkBatchSpec (spec : BatchMoveSpec codec) : Except Error Unit := do
  rejectIf (spec.source.isRoot || !spec.restoreTrash && !spec.destination.any fun d => !d.isRoot)
    (newError .invalid "invalid namespace batch path")
  rejectIf (spec.fromArea = spec.toArea && spec.destination.any fun d =>
      spec.source = d && normalizeConflictMode spec.conflict ≠ .conflictRename || d.isDescendantOf spec.source)
    (newError .invalid "invalid namespace batch destination")

def batchDestination (spec : BatchMoveSpec codec) (source : NamespaceEntry) (sourceTrail : List NamespaceFrame) :
    Except Error (UserPath codec.toNormalization) :=
  if spec.restoreTrash ∧ (spec.fromArea ≠ .areaTrash ∨ spec.toArea ≠ .areaLive) then
    .error (newError .invalid "trash entry metadata is missing")
  else copyDestination codec spec.restoreTrash spec.toCopyRequest source sourceTrail

def batchTrash (spec : BatchMoveSpec codec) (source : NamespaceEntry) (destinationTrail : List NamespaceFrame)
    (now : Time) :
    Except Error (Option NamespaceTrashMetadata) :=
  if spec.attachTrash then
    if destinationTrail.length ≠ 1 ∨ source.node.trash.isSome then
      .error (newError .invalid "invalid namespace batch trash placement")
    else .ok (some { originalPath := spec.source.segments, originalVersion := source.entry.logicalVersion,
                     trashedAt := now })
  else if spec.restoreTrash then .ok none
  else .ok source.node.trash

def batchPlaced (move : Bool) (source : NamespaceEntry) (name nodeID : String) (trash : Option NamespaceTrashMetadata)
    (now : Time) : NamespaceEntry :=
  let entry := { source.entry with name, modifiedAt := now }
  if move then .mk { source.node with entry := entry.stamped codec, trash } source.children
  else
    let copied := { entry with directoryID := if source.isDirectory then nodeID else "" }
    .mk { source.node with nodeID, entry := copied.stamped codec, trash } source.children

/-- The body of the planning loop of `batchCopyOrMoveValidated`. -/
def planBatchItem (at_ : Attempt) (move : Bool) (index : Nat) (spec : BatchMoveSpec codec) :
    Except Error (BatchMovePlan codec) := do
  checkBatchSpec codec spec
  let sourceTrail ← at_.trail codec spec.fromArea spec.source.parent
  let sourceParent ← lastFrame sourceTrail
  let found ← child codec sourceParent.entry spec.source.name
  let source ← requireFound "namespace batch source does not exist" found
  rejectIf (spec.expectedSource ≠ "" && spec.expectedSource ≠ source.entry.logicalVersion)
    (newError .preconditionFailed "namespace batch source version does not match")
  let destination ← batchDestination codec spec source sourceTrail
  let destinationTrail ← at_.trail codec spec.toArea destination.parent
  let destinationParent ← lastFrame destinationTrail
  let target ← resolveDestination codec destinationParent.entry destination (normalizeConflictMode spec.conflict)
    spec.expectedTarget
  let trash ← batchTrash codec spec source destinationTrail at_.now
  let nodeID := codec.digest ["endlessfs-namespace-node-v1", spec.operationID, "copy-" ++ toString index]
  let placed := batchPlaced codec move source target.1.name nodeID trash at_.now
  pure { spec, sourceTrail, destinationTrail, sourceParent, destinationParent, source, existing := target.2,
         resolved := target.1, placed }

def planBatch (at_ : Attempt) (move : Bool) : Nat → List (BatchMoveSpec codec) →
    Except Error (List (BatchMovePlan codec))
  | _, [] => .ok []
  | index, spec :: rest => do
    let plan ← planBatchItem codec at_ move index spec
    let plans ← planBatch at_ move (index + 1) rest
    pure (plan :: plans)

def pathText : List String → String
  | [] => "/"
  | segments => String.join (segments.map ("/" ++ ·))

def BatchMovePlan.paths (move : Bool) (plan : BatchMovePlan codec) : List FrameKey :=
  { area := plan.spec.toArea, path := plan.resolved.segments } ::
    (if move then [{ area := plan.spec.fromArea, path := plan.spec.source.segments }] else [])

def FrameKey.text (key : FrameKey) : String := key.area.text ++ ":" ++ pathText key.path

def neighboursOverlap : List String → Bool
  | previous :: current :: rest =>
    current = previous || (previous ++ "/").toList.isPrefixOf current.toList || neighboursOverlap (current :: rest)
  | _ => false

/-- `rejectOverlappingNamespaceBatchPaths`: neighbours of the sorted paths are compared. -/
def rejectOverlapping (move : Bool) (plans : List (BatchMovePlan codec)) : Except Error Unit :=
  let texts := (plans.flatMap (BatchMovePlan.paths codec move)).map FrameKey.text
  rejectIf (neighboursOverlap (texts.insertionSort fun a b => a ≤ b))
    (newError .invalid "namespace batch contains overlapping paths")

def BatchMovePlan.edits (move : Bool) (plan : BatchMovePlan codec) : List (FrameKey × DirectoryEdit) :=
  (if move then [(plan.sourceParent.key, { before := some plan.source })] else []) ++
    [(plan.destinationParent.key, { before := plan.existing, after := some plan.placed })]

/-- `batchCopyOrMoveValidated`. -/
def batchCopyOrMove (at_ : Attempt) (move : Bool) (specs : List (BatchMoveSpec codec)) :
    Except Error (Changes × List (BatchMovePlan codec)) := do
  rejectIf (specs.length < 1 || 10000 < specs.length)
    (newError .invalid "namespace batch must contain 1 to 10000 items")
  let plans ← planBatch codec at_ move 0 specs
  rejectOverlapping codec move plans
  let changes ← at_.publish codec (plans.flatMap fun plan => [plan.sourceTrail, plan.destinationTrail])
    (plans.flatMap (BatchMovePlan.edits codec move))
  pure (changes, plans)

def trashEntries (trashRoot : NamespaceEntry) : List (UserPath codec.toNormalization) →
    Except Error (List NamespaceEntry)
  | [] => .ok []
  | path :: rest => do
    rejectIf (path.segments.length ≠ 1) (newError .invalid "invalid trash identity")
    rejectIf (path ∈ rest) (newError .invalid "trash batch contains duplicate identities")
    let found ← child codec trashRoot path.name
    let entry ← requireFound "trash entry does not exist" found
    rejectIf entry.node.trash.isNone (newError .invalid "trash entry metadata is missing")
    let entries ← trashEntries trashRoot rest
    pure (entry :: entries)

/-- `BatchDeleteFromTrash`; the trash root has nothing above it to propagate to. -/
def batchDeleteFromTrash (at_ : Attempt) (trashIDs : List (UserPath codec.toNormalization)) : Except Error Changes := do
  rejectIf (trashIDs.length < 1 || 10000 < trashIDs.length)
    (newError .invalid "namespace batch must contain 1 to 10000 items")
  let root : NamespaceFrame := { area := .areaTrash, path := [], entry := at_.root codec .areaTrash }
  let entries ← trashEntries codec root.entry trashIDs
  at_.publish codec [[root]] (entries.map fun entry => (root.key, { before := some entry }))

/-! ## Upload batches -/

/-- A verified upload of a batch: the fields of its record that the publication reads, and the checksums
of the verification. -/
structure VerifiedUpload where
  resolvedPath : List String
  targetExisted : Bool
  expectedVersion : String
  blobID : String
  size : Int
  mediaType : String
  md5 : String
  crc32c : String
  deriving DecidableEq, Repr

structure PlannedUpload where
  upload : VerifiedUpload
  path : UserPath codec.toNormalization
  trail : List NamespaceFrame
  parent : NamespaceFrame
  existing : Option NamespaceEntry
  placed : NamespaceEntry

def storedUploadPath (segments : List String) : Except Error (UserPath codec.toNormalization) :=
  match parseUserPath codec.toNormalization segments with
  | .error _ => .error (newError .invalid "stored upload path is invalid")
  | .ok path => if path.isRoot then .error (newError .invalid "stored upload path is invalid") else .ok path

def checkUploadDestination (upload : VerifiedUpload) (existing : Option NamespaceEntry) : Except Error Unit :=
  if upload.targetExisted then
    rejectIf (!existing.any fun e => e.entry.logicalVersion = upload.expectedVersion)
      (newError .preconditionFailed "upload destination changed")
  else rejectIf existing.isSome (newError .conflict "upload destination appeared during transfer")

/-- The file of the `index`-th upload of a transaction. -/
def uploadedFile (transactionID : String) (index : Nat) (upload : VerifiedUpload) (name : String) (now : Time) :
    NamespaceEntry :=
  let entry : DirectoryEntry :=
    { name, kind := .entryFile, blobID := upload.blobID, size := upload.size, mediaType := upload.mediaType,
      md5 := upload.md5, crc32c := upload.crc32c, modifiedAt := now }
  .mk { nodeID := codec.digest ["endlessfs-upload-completion-file-v1", transactionID, toString index]
        entry := entry.stamped codec } []

/-- The loop over the items in `completeUploadBatchWithReceipt`. -/
def planUploads (at_ : Attempt) (area : Area) (transactionID : String) :
    Nat → List (UserPath codec.toNormalization) → List VerifiedUpload → Except Error (List (PlannedUpload codec))
  | _, _, [] => .ok []
  | index, seen, upload :: rest => do
    let path ← storedUploadPath codec upload.resolvedPath
    rejectIf (path ∈ seen) (newError .invalid "upload completion repeats a destination")
    let trail ← at_.trail codec area path.parent
    let parent ← lastFrame trail
    let existing ← child codec parent.entry path.name
    checkUploadDestination upload existing
    let placed := uploadedFile codec transactionID index upload path.name at_.now
    let plans ← planUploads at_ area transactionID (index + 1) (path :: seen) rest
    pure ({ upload, path, trail, parent, existing, placed } :: plans)

def uploadPairs (plans : List (PlannedUpload codec)) : List (FrameKey × DirectoryEdit) :=
  plans.map fun plan => (plan.parent.key, { before := plan.existing, after := some plan.placed })

/-- The publication of `completeUploadBatchWithReceipt`, without the record changes beside it. -/
def completeUploadBatch (at_ : Attempt) (area : Area) (transactionID : String) (uploads : List VerifiedUpload) :
    Except Error Changes := do
  let plans ← planUploads codec at_ area transactionID 0 [] uploads
  at_.publish codec (plans.map PlannedUpload.trail) (uploadPairs codec plans)

/-! ## Directories on a path -/

section

open Except NamespaceFrame

variable {codec : NamespaceCodec}

/-- `directory` is reached from `e` along the names, through directories that can be read. -/
def Walks (codec : NamespaceCodec) (directory : NamespaceEntry) (e : NamespaceEntry) : List String → Prop
  | [] => e = directory
  | name :: rest => ∃ c, Edit.find NamespaceEntry.name e.children name = some c ∧ checkNamespaceEntry codec c = .ok () ∧
      c.isDirectory = true ∧ Walks codec directory c rest

theorem child_eq_ok_some_iff {parent e : NamespaceEntry} {segment : String} :
    child codec parent segment = .ok (some e) ↔
      Edit.find NamespaceEntry.name parent.children segment = some e ∧ checkNamespaceEntry codec e = .ok () := by
  refine ⟨child_some, fun h => ?_⟩
  simp only [child, h.1, h.2, ok_bind, pure_eq_ok]

theorem getLast_entry (f : NamespaceFrame) (below : List NamespaceFrame) :
    (f :: below).getLast?.map entry = some ((below.getLast?.map entry).getD f.entry) := by
  rw [List.getLast?_cons]
  cases below.getLast? <;> rfl

/-- The last directory that `resolveBelow` returns, on the way along a valid path. -/
theorem resolveBelow_walks {area : Area} {full p : UserPath codec.toNormalization} {e directory : NamespaceEntry}
    {rest : List String} (hfull : full.segments = p.segments ++ rest) :
    (∃ below, resolveBelow codec area p e rest = .ok below ∧ (below.getLast?.map entry).getD e = directory) ↔
      Walks codec directory e rest := by
  induction rest generalizing p e with
  | nil => simp [resolveBelow, Walks]
  | cons segment rest ih =>
    have hnormal : codec.nfc segment = segment := full.normal segment (by simp [hfull])
    have hassoc : full.segments = (p.segments ++ [segment]) ++ rest := by simp [hfull]
    constructor
    · rintro ⟨below, hbelow, hlast⟩
      unfold resolveBelow at hbelow
      cases hchild : child codec e segment with
      | error _ => simp [hchild] at hbelow
      | ok found =>
        cases found with
        | none => simp [hchild] at hbelow
        | some c =>
          simp only [hchild] at hbelow
          split_ifs at hbelow with hkind
          cases hjoin : p.join segment with
          | error _ => simp [hjoin] at hbelow
          | ok next =>
            simp only [hjoin] at hbelow
            obtain ⟨below', hbelow', h⟩ := bind_ok hbelow
            cases h
            have hnext : next.segments = p.segments ++ [segment] := by
              rw [UserPath.join_eq_ok_iff.mp hjoin, hnormal]
            obtain ⟨hfind, hcheck⟩ := child_some hchild
            refine ⟨c, hfind, hcheck, by simpa [NamespaceEntry.isDirectory] using hkind, ?_⟩
            refine (ih (hnext ▸ hassoc)).mp ⟨below', hbelow', ?_⟩
            rw [getLast_entry, Option.getD_some] at hlast
            exact hlast
    · rintro ⟨c, hfind, hcheck, hdirectory, hwalks⟩
      have hvalid := full.valid
      rw [hassoc] at hvalid
      let next : UserPath codec.toNormalization :=
        { segments := p.segments ++ [segment]
          normal := fun s hs => full.normal s (hassoc ▸ List.mem_append_left _ hs)
          valid := checkSegments_append hvalid }
      obtain ⟨below, hbelow, hlast⟩ := (ih (p := next) hassoc).mpr hwalks
      have hjoin : p.join segment = .ok next := UserPath.join_eq_ok_iff.mpr (by rw [hnormal])
      have hkind : c.entry.kind = .entryDirectory := by simpa [NamespaceEntry.isDirectory] using hdirectory
      refine ⟨{ area, path := next.segments, entry := c } :: below, ?_, ?_⟩
      · simp [resolveBelow, child_eq_ok_some_iff.mpr ⟨hfind, hcheck⟩, hkind, hjoin, hbelow]
      · rw [getLast_entry, Option.getD_some]
        exact hlast

/-- The directory that `resolveTrail` comes to. -/
theorem resolveTrail_walks {owner : String} {view : NamespaceView} {area : Area} {p : UserPath codec.toNormalization}
    {directory : NamespaceEntry} :
    (∃ trail parent, resolveTrail codec owner view area p = .ok trail ∧ lastFrame trail = .ok parent ∧
      parent.entry = directory) ↔ Walks codec directory (viewRoot codec owner view area) p.segments := by
  have hfull : p.segments = (UserPath.root : UserPath codec.toNormalization).segments ++ p.segments := rfl
  have hlast : ∀ below : List NamespaceFrame, ∀ parent,
      lastFrame ({ area, path := [], entry := viewRoot codec owner view area } :: below) = .ok parent →
        (below.getLast?.map entry).getD (viewRoot codec owner view area) = parent.entry := by
    intro below parent h
    have hentry := getLast_entry { area, path := [], entry := viewRoot codec owner view area } below
    unfold lastFrame at h
    cases hget : (({ area, path := [], entry := viewRoot codec owner view area } : NamespaceFrame) ::
      below).getLast? with
    | none => simp [hget] at h
    | some frame =>
      simp only [hget, ok.injEq] at h
      rw [hget, Option.map_some, Option.some.injEq, h] at hentry
      exact hentry.symm
  rw [← resolveBelow_walks hfull]
  constructor
  · rintro ⟨trail, parent, htrail, hparent, rfl⟩
    obtain ⟨below, hbelow, h⟩ := bind_ok htrail
    cases h
    exact ⟨below, hbelow, hlast below parent hparent⟩
  · rintro ⟨below, hbelow, rfl⟩
    obtain ⟨parent, hparent⟩ : ∃ parent,
        lastFrame ({ area, path := [], entry := viewRoot codec owner view area } :: below) = .ok parent := by
      exact ⟨_, rfl⟩
    exact ⟨_, parent, bind_eq_ok_iff.mpr ⟨below, hbelow, rfl⟩, hparent, (hlast below parent hparent).symm⟩

theorem walks_snoc {d root : NamespaceEntry} {names : List String} {segment : String}
    (h : Walks codec d root (names ++ [segment])) :
    ∃ p, Walks codec p root names ∧ Edit.find name p.children segment = some d ∧
      checkNamespaceEntry codec d = .ok () := by
  induction names generalizing root with
  | nil =>
    obtain ⟨c, hfind, hcheck, _, rfl⟩ := h
    exact ⟨root, rfl, hfind, hcheck⟩
  | cons first rest ih =>
    obtain ⟨c, hfind, hcheck, hkind, h⟩ := h
    obtain ⟨p, hp, hd⟩ := ih h
    exact ⟨p, ⟨c, hfind, hcheck, hkind, hp⟩, hd⟩

end

end EndlessFS
