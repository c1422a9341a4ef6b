import EndlessFS.Lib.Ledger
import EndlessFS.Identity.Programs

/-!
# EndlessFS.Preview.Durable

The durable preview store (`preview/durable/durable.go`), for one binding: claims on its head, and the
generations that are committed under them.

* The backend is a `Ledger` whose transactions are single conditional puts; the response of a put may be lost,
  whether it was carried out or not. Objects are stored decoded.
* Each call reads the clock of its process. `caller` is who calls; it is only recorded in the log.
* `Store.generationDigest` names the objects of a generation; it need not be injective.
-/

namespace EndlessFS.Preview.Durable

open Conc (Fallible Reading CellChange ask attempted)
open Identity (lostRequest)

/-! ## Records -/

structure ArtifactMetadata where
  generationID : String
  variant : Nat
  width : Nat
  height : Nat
  contentType : String
  size : Nat
  sha256 : String
  crc32c : String
  deriving DecidableEq, Repr

structure Artifact extends ArtifactMetadata where
  bytes : List UInt8
  deriving DecidableEq, Repr

structure GenerationClaim where
  id : String
  epoch : Nat
  expiresAt : Time
  deriving DecidableEq, Repr

structure HeadRecord where
  epoch : Nat
  claimID : String := ""
  claimExpires : Time := 0
  generations : List ArtifactMetadata := []
  deriving DecidableEq, Repr

inductive Key where
  | head
  | artifact (generationDigest : String)
  | manifest (generationDigest : String)
  deriving DecidableEq, Repr

@[reducible] def Record : Key → Type
  | .head => HeadRecord
  | .artifact _ => List UInt8
  | .manifest _ => ArtifactMetadata

instance : (key : Key) → DecidableEq (Record key)
  | .head => inferInstanceAs (DecidableEq HeadRecord)
  | .artifact _ => inferInstanceAs (DecidableEq (List UInt8))
  | .manifest _ => inferInstanceAs (DecidableEq ArtifactMetadata)

abbrev Records := Conc.Versioned Key Record

abbrev RecordChange := CellChange Key Record

inductive Label where
  | claim (caller : Nat) (granted : GenerationClaim)
  | release (claim : GenerationClaim)
  | immutable
  | commit (claim : GenerationClaim) (artifact : Artifact)
  deriving DecidableEq

abbrev Entry := Conc.LedgerEntry Key Record Label

abbrev State := Conc.Ledger Key Record Label

abbrev machine : Conc.Machine := Conc.ledgerMachine Key Record Label fun _ => false

abbrev Request (α : Type) := Fallible machine Error α

/-! ## The store -/

/-- The options of the store, and what it hashes and parses with. -/
structure Store where
  generationDigest : String → String
  /-- The variant of the binding. -/
  variant : Nat
  maxGenerations : Nat
  maxGenerations_pos : 0 < maxGenerations
  maxArtifactBytes : Nat
  parseSHA256 : String → Bool
  parseCRC32C : String → Bool
  checksumCRC32C : List UInt8 → String
  /-- The hash of the bytes, and that they decode to an image of the size. -/
  checkImage : Artifact → Bool

def maximumRetries : Nat := 32

def maxEpoch : Nat := 2 ^ 64 - 1

def plainText (value : String) : Bool :=
  value.utf8ByteSize ≤ 128 && !value.toList.any fun c => c = '\r' || c = '\n' || c = '\x00' || c = '/'

def GenerationClaim.valid (claim : GenerationClaim) : Bool :=
  claim.id ≠ "" && plainText claim.id && 0 < claim.epoch && claim.expiresAt ≠ 0

/-- `ArtifactMetadata.ValidFor`. -/
def ArtifactMetadata.validFor (store : Store) (metadata : ArtifactMetadata) : Bool :=
  metadata.generationID ≠ "" && plainText metadata.generationID && metadata.variant = store.variant &&
    1 ≤ metadata.width &&
  1 ≤ metadata.height && metadata.width ≤ store.variant && metadata.height ≤ store.variant &&
    metadata.contentType = "image/webp" &&
  12 ≤ metadata.size && store.parseSHA256 metadata.sha256 && store.parseCRC32C metadata.crc32c

/-- `Artifact.ValidFor`. -/
def Artifact.validFor (store : Store) (artifact : Artifact) : Bool :=
  artifact.toArtifactMetadata.validFor store && artifact.size = artifact.bytes.length && store.checkImage artifact &&
  store.checksumCRC32C artifact.bytes = artifact.crc32c

def HeadRecord.valid (store : Store) (record : HeadRecord) : Bool :=
  record.epoch ≠ 0 && record.generations.length ≤ store.maxGenerations &&
  (decide (record.claimID = "") == decide (record.claimExpires = 0)) && plainText record.claimID &&
  record.generations.all (·.validFor store) && (record.generations.map (·.generationID)).Nodup

def sameClaim (record : HeadRecord) (claim : GenerationClaim) : Bool :=
  record.claimID = claim.id && record.epoch = claim.epoch && record.claimExpires = claim.expiresAt

def findGeneration (generations : List ArtifactMetadata) (generationID : String) : Option ArtifactMetadata :=
  generations.find? (·.generationID = generationID)

/-! ## Backend calls -/

def getObject (process : Nat) (key : Key) : Request (Option (Reading (Record key))) :=
  ask (M := machine) (.get process key) fun reply => match reply with
    | none => .error lostRequest
    | some found => .ok found

def putResult : Conc.Outcome → Except Error Nat
  | .committed (some version) => .ok version
  | .committed none | .lost => .error lostRequest
  | .refused => .error (newError .preconditionFailed "object version does not match")

def putObject (label : Label) (change : RecordChange) : Request Nat :=
  ask (M := machine) (.transact label [change]) putResult

def clockNow (process : Nat) : Request Time := ask (M := machine) (.now process) .ok

def putMatch (key : Key) (version : Nat) (record : Record key) : RecordChange :=
  { key, require := some version, value := some record }

def putCreateOnly (key : Key) (record : Record key) : RecordChange := { key, require := none, value := some record }

def claimChanged : Error := newError .preconditionFailed "preview generation claim changed"
def claimExpired : Error := newError .preconditionFailed "preview generation claim changed or expired"
def artifactNotFound : Error := newError .notFound "preview artifact not found"
def artifactCorrupt : Error := newError .unavailable "preview artifact is corrupt"
def manifestCorrupt : Error := newError .unavailable "preview manifest is corrupt"
def generationExists : Error := newError .conflict "preview generation already exists"

section

variable (store : Store) (process : Nat)

/-- `readHead`; `none` if there is no head. -/
def readHead : Request (Option (Reading HeadRecord)) := do
  match ← getObject process .head with
  | none => pure none
  | some head =>
    liftM (rejectIf (!head.value.valid store) (newError .unavailable "preview store record is corrupt"))
    pure (some head)

/-- `readHead` where there has to be one. -/
def requireHead : Request (Reading HeadRecord) := do
  match ← readHead store process with
  | none => throw (newError .notFound "object does not exist")
  | some head => pure head

/-! ## Claims -/

def HeadRecord.claimed (record : HeadRecord) (claim : GenerationClaim) : HeadRecord :=
  { record with epoch := claim.epoch, claimID := claim.id, claimExpires := claim.expiresAt }

/-- One put of `Claim`; `none` if it lost a race. -/
def putClaim (caller : Nat) (claim : GenerationClaim) (change : RecordChange) : Request (Option GenerationClaim) := do
  match ← attempted (putObject (.claim caller claim) change) with
  | .ok _ => pure (some claim)
  | .error e => if e.kind = .conflict ∨ e.kind = .preconditionFailed ∨ e.kind = .notFound then pure none else throw e

/-- One attempt of `Claim`. -/
def claimAttempt (caller : Nat) (claimID : String) (expiresAt : Time) : Request (Option GenerationClaim) := do
  match ← readHead store process with
  | none =>
    let claim : GenerationClaim := { id := claimID, epoch := 1, expiresAt }
    putClaim caller claim (putCreateOnly .head (HeadRecord.claimed { epoch := 1 } claim))
  | some head =>
    let now ← clockNow process
    liftM (rejectIf (head.value.claimID ≠ "" && now < head.value.claimExpires)
      (newError .conflict "preview generation is already claimed"))
    liftM (rejectIf (head.value.epoch = maxEpoch) (newError .unavailable "preview generation claim epoch exhausted"))
    let claim : GenerationClaim := { id := claimID, epoch := head.value.epoch + 1, expiresAt }
    putClaim caller claim (putMatch .head head.version (head.value.claimed claim))

def claimLoop (caller : Nat) (claimID : String) (expiresAt : Time) : Nat → Request GenerationClaim
  | 0 => throw (newError .unavailable "preview generation claim contention exceeded")
  | attempts + 1 => do
    match ← claimAttempt store process caller claimID expiresAt with
    | some claim => pure claim
    | none => claimLoop caller claimID expiresAt attempts

/-- `Claim`. -/
def claim (caller : Nat) (claimID : String) (expiresAt : Time) : Request GenerationClaim := do
  let now ← clockNow process
  liftM (rejectIf (claimID = "" || !plainText claimID ||
    expiresAt ≤ now) (newError .invalid "invalid preview generation claim"))
  claimLoop store process caller claimID expiresAt maximumRetries

def HeadRecord.released (record : HeadRecord) : HeadRecord := { record with claimID := "", claimExpires := 0 }

/-- `Release`. -/
def release (claim : GenerationClaim) : Request Unit := do
  liftM (rejectIf (!claim.valid) (newError .invalid "invalid preview generation claim"))
  let head ← requireHead store process
  liftM (rejectIf (!sameClaim head.value claim) claimChanged)
  match ← attempted (putObject (.release claim) (putMatch .head head.version head.value.released)) with
  | .ok _ => pure ()
  | .error e =>
    if e.kind = .notFound ∨ e.kind = .conflict ∨ e.kind = .preconditionFailed then throw claimChanged else throw e

/-! ## Commits -/

/-- `putImmutableOrVerify`. -/
def putImmutableOrVerify (key : Key) (body : Record key) : Request Unit := do
  match ← attempted (putObject .immutable (putCreateOnly key body)) with
  | .ok _ => pure ()
  | .error e =>
    if e.kind = .conflict ∨ e.kind = .preconditionFailed then
      let existing ← getObject process key
      liftM (rejectIf (existing.map (·.value) ≠ some body)
        (newError .conflict "preview immutable object already exists"))
    else throw e

def HeadRecord.committed (record : HeadRecord) (metadata : ArtifactMetadata) : HeadRecord :=
  let generations := record.generations ++ [metadata]
  { record with
      claimID := "", claimExpires := 0, generations := generations.drop (generations.length - store.maxGenerations) }

/-- The head as `Commit` reads it before and after it stores the artifact. -/
def checkedHead (claim : GenerationClaim) (artifact : Artifact) : Request (Reading HeadRecord) := do
  let head ← requireHead store process
  let now ← clockNow process
  liftM (rejectIf (!sameClaim head.value claim || claim.expiresAt ≤ now) claimExpired)
  liftM (rejectIf (findGeneration head.value.generations artifact.generationID).isSome generationExists)
  pure head

/-- `Commit`. -/
def commit (claim : GenerationClaim) (artifact : Artifact) : Request Unit := do
  liftM (rejectIf (!claim.valid || !artifact.validFor store || store.maxArtifactBytes < artifact.size)
    (newError .invalid "invalid preview artifact"))
  let _ ← checkedHead store process claim artifact
  let digest := store.generationDigest artifact.generationID
  putImmutableOrVerify process (.artifact digest) artifact.bytes
  putImmutableOrVerify process (.manifest digest) artifact.toArtifactMetadata
  let head ← checkedHead store process claim artifact
  let change := putMatch .head head.version (head.value.committed store artifact.toArtifactMetadata)
  match ← attempted (putObject (.commit claim artifact) change) with
  | .ok _ => pure ()
  | .error e =>
    if e.kind = .preconditionFailed ∨ e.kind = .notFound then throw claimChanged
    else
      -- the put may have been carried out
      match ← attempted (requireHead store process) with
      | .error _ => throw e
      | .ok recovered =>
        if findGeneration recovered.value.generations artifact.generationID =
          some artifact.toArtifactMetadata then pure ()
        else throw e

/-! ## Reads -/

/-- The manifest that `validateStoredGeneration` checks. -/
def checkManifest (metadata : ArtifactMetadata) : Request Unit := do
  liftM (rejectIf (!metadata.validFor store) manifestCorrupt)
  match ← getObject process (.manifest (store.generationDigest metadata.generationID)) with
  | none => throw artifactNotFound
  | some manifest => liftM (rejectIf (manifest.value ≠ metadata) manifestCorrupt)

/-- `validateStoredGeneration` without the body: the backend verifies size and checksum. -/
def verifyStoredGeneration (metadata : ArtifactMetadata) : Request Unit := do
  checkManifest store process metadata
  match ← getObject process (.artifact (store.generationDigest metadata.generationID)) with
  | none => throw artifactNotFound
  | some object =>
    liftM (rejectIf (object.value.length ≠ metadata.size || store.checksumCRC32C object.value ≠ metadata.crc32c)
      artifactCorrupt)

/-- `validateStoredGeneration` with the body. -/
def readStoredGeneration (metadata : ArtifactMetadata) : Request Artifact := do
  checkManifest store process metadata
  match ← getObject process (.artifact (store.generationDigest metadata.generationID)) with
  | none => throw artifactNotFound
  | some object =>
    let artifact : Artifact := { toArtifactMetadata := metadata, bytes := object.value }
    liftM (rejectIf (object.value.length ≠ metadata.size || !artifact.validFor store) artifactCorrupt)
    pure artifact

/-- `Latest`. -/
def latest : Request ArtifactMetadata := do
  match ← readHead store process with
  | none => throw artifactNotFound
  | some head =>
    match head.value.generations.getLast? with
    | none => throw artifactNotFound
    | some metadata =>
      verifyStoredGeneration store process metadata
      pure metadata

/-- `Read`. -/
def read (generationID : String) : Request Artifact := do
  liftM (rejectIf (generationID = "") (newError .invalid "invalid preview artifact selection"))
  match ← readHead store process with
  | none => throw artifactNotFound
  | some head =>
    match findGeneration head.value.generations generationID with
    | none => throw artifactNotFound
    | some metadata => readStoredGeneration store process metadata

end

/-! ## Calls -/

inductive Call where
  | claim (caller process : Nat) (claimID : String) (expiresAt : Time)
  | release (process : Nat) (claim : GenerationClaim)
  | commit (process : Nat) (claim : GenerationClaim) (artifact : Artifact)
  | latest (process : Nat)
  | read (process : Nat) (generationID : String)

@[reducible] def Call.Result : Call → Type
  | .claim .. => Except Error GenerationClaim
  | .release .. => Except Error Unit
  | .commit .. => Except Error Unit
  | .latest .. => Except Error ArtifactMetadata
  | .read .. => Except Error Artifact

def Call.body (store : Store) : (call : Call) → Conc.Prog machine call.Result
  | .claim caller process claimID expiresAt => (Durable.claim store process caller claimID expiresAt).run
  | .release process held => (Durable.release store process held).run
  | .commit process held artifact => (Durable.commit store process held artifact).run
  | .latest process => (Durable.latest store process).run
  | .read process generationID => (Durable.read store process generationID).run

def Reachable (store : Store) (cfg : Conc.Config machine Call.Result) : Prop :=
  ∃ clock, Conc.Reach (Call.body store) (.any machine Call)
    { state := ({ records := .empty, clock, log := [] } : State), pool := [] } cfg

end EndlessFS.Preview.Durable
