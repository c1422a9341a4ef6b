import Mathlib.Algebra.BigOperators.Group.List.Basic
import EndlessFS.Lib.Edits
import EndlessFS.Namespace.Path

/-!
# EndlessFS.Namespace.Entry

Namespace entries (`storageformat/namespace.go`) and the content identity of a directory
(`portable/filesystem.go`).

* A children tree is given by its entries, which the source keys by their names; copying an entry
  shares its children, which is to say that the copy has the same list.
* `NamespaceCodec`: the digests of the source, and whether a record fits its canonical encoding.
* `lookup`: the entry at a path below an entry.
* `Exact`: the aggregates a directory stores are those of its direct children.
-/

namespace EndlessFS

/-- `domain.EntryKind`. -/
inductive EntryKind where
  | entryFile
  | entryDirectory
  deriving DecidableEq, Repr

/-- `domain.Area`. -/
inductive Area where
  | areaLive
  | areaTrash
  deriving DecidableEq, Repr

def Area.text : Area → String
  | .areaLive => "live"
  | .areaTrash => "trash"

/-- `storageformat.DirectoryEntry`: the fields a schema-008 writer fills. -/
structure DirectoryEntry where
  name : String
  kind : EntryKind
  directoryID : String := ""
  blobID : String := ""
  size : Int := 0
  fileCount : Int := 0
  mediaType : String := ""
  md5 : String := ""
  crc32c : String := ""
  contentDigest : String := ""
  modifiedAt : Time
  logicalVersion : String := ""
  deriving DecidableEq, Repr

/-- `NamespaceTrashMetadata`. -/
structure NamespaceTrashMetadata where
  originalPath : List String
  originalVersion : String
  trashedAt : Time
  deriving DecidableEq, Repr

/-- The content accumulator: 32 bytes under exclusive or, 32 bytes as one big-endian sum. -/
structure Accumulator where
  xored : BitVec 256
  summed : BitVec 256
  deriving DecidableEq, Repr

/-- `NamespaceEntry` without its children. -/
structure NamespaceNode where
  nodeID : String
  occurrenceContextID : String := ""
  entry : DirectoryEntry
  entryCount : Nat := 0
  contentAccumulator : Option Accumulator := none
  trash : Option NamespaceTrashMetadata := none
  deriving DecidableEq, Repr

/-- `NamespaceEntry`. -/
inductive NamespaceEntry where
  | mk (node : NamespaceNode) (children : List NamespaceEntry)

namespace NamespaceEntry

def node : NamespaceEntry → NamespaceNode
  | mk node _ => node

def children : NamespaceEntry → List NamespaceEntry
  | mk _ children => children

def entry (e : NamespaceEntry) : DirectoryEntry := e.node.entry

def name (e : NamespaceEntry) : String := e.entry.name

def isDirectory (e : NamespaceEntry) : Bool := e.entry.kind = .entryDirectory

@[simp] theorem node_mk (node : NamespaceNode) (children : List NamespaceEntry) : (mk node children).node = node := rfl
@[simp] theorem children_mk (node : NamespaceNode) (children : List NamespaceEntry) :
    (mk node children).children = children := rfl

end NamespaceEntry

/-- `directoryContentItem`. -/
structure DirectoryContentItem where
  name : String
  kind : EntryKind
  size : Int
  fileCount : Int
  md5 : String
  crc32c : String
  contentDigest : String
  deriving DecidableEq, Repr

/-- What the source leaves to hashing, normalization and the canonical encoder. -/
structure NamespaceCodec extends Normalization where
  contribution : DirectoryContentItem → BitVec 256
  accumulatorDigest : Accumulator → Nat → String
  entryVersion : DirectoryEntry → String
  digest : List String → String
  encodes : NamespaceEntry → Bool

variable (codec : NamespaceCodec)

/-- `directoryEntryVersion`. -/
def directoryEntryVersion (entry : DirectoryEntry) : String := codec.entryVersion { entry with logicalVersion := "" }

def DirectoryEntry.stamped (entry : DirectoryEntry) : DirectoryEntry :=
  { entry with logicalVersion := directoryEntryVersion codec entry }

/-- `ContentFingerprint.Complete`. -/
def fingerprintComplete (md5 crc32c : String) : Bool := md5 ≠ "" && crc32c ≠ ""

/-- `directoryContentItemFor`. -/
def directoryContentItemFor (entry : DirectoryEntry) : Except Error DirectoryContentItem :=
  match entry.kind with
  | .entryFile =>
    if !fingerprintComplete entry.md5 entry.crc32c || entry.contentDigest ≠ "" then
      .error (newError .invalid "file entry has no current provider content fingerprint")
    else .ok { name := entry.name, kind := entry.kind, size := entry.size, fileCount := entry.fileCount,
               md5 := entry.md5, crc32c := entry.crc32c, contentDigest := "" }
  | .entryDirectory =>
    if entry.contentDigest = "" || entry.md5 ≠ "" || entry.crc32c ≠ "" then
      .error (newError .invalid "directory entry has no subtree content digest")
    else .ok { name := entry.name, kind := entry.kind, size := entry.size, fileCount := entry.fileCount,
               md5 := "", crc32c := "", contentDigest := entry.contentDigest }

/-- `directoryContentContribution`. -/
def directoryContentContribution (entry : DirectoryEntry) : Except Error (BitVec 256) := do
  let item ← directoryContentItemFor entry
  pure (codec.contribution item)

/-- `applyDirectoryContentContribution`; the byte-wise carry and borrow are those of 256-bit numbers. -/
def applyDirectoryContentContribution (accumulator : Accumulator) (contribution : BitVec 256) (remove : Bool) :
    Accumulator :=
  { xored := accumulator.xored ^^^ contribution
    summed := if remove then accumulator.summed - contribution else accumulator.summed + contribution }

def applyContributions (remove : Bool) : Accumulator → List DirectoryEntry → Except Error Accumulator
  | accumulator, [] => .ok accumulator
  | accumulator, entry :: rest => do
    let contribution ← directoryContentContribution codec entry
    applyContributions remove (applyDirectoryContentContribution accumulator contribution remove) rest

def Accumulator.zero : Accumulator := { xored := 0, summed := 0 }

/-- `directoryContentIdentity`. -/
def directoryContentIdentity (entries : List DirectoryEntry) : Except Error (Accumulator × String) := do
  let accumulator ← applyContributions codec false .zero entries
  pure (accumulator, codec.accumulatorDigest accumulator entries.length)

/-- `updateDirectoryContentIdentityAtCount`. -/
def updateDirectoryContentIdentityAtCount (accumulator : Option Accumulator) (before after : List DirectoryEntry)
    (finalCount : Nat) : Except Error (Accumulator × String) :=
  match accumulator with
  | none => .error (newError .invalid "invalid directory content accumulator")
  | some accumulator => do
    let removed ← applyContributions codec true accumulator before
    let accumulator ← applyContributions codec false removed after
    pure (accumulator, codec.accumulatorDigest accumulator finalCount)

def maxInt64 : Int := 9223372036854775807

/-- `addAggregateDelta`. -/
def addAggregateDelta (value delta : Int) (label : String) : Except Error Int :=
  if 0 < delta ∧ maxInt64 - delta < value ∨ delta < 0 ∧ value < -delta then
    .error (newError .invalid (label ++ " overflows"))
  else .ok (value + delta)

def DirectoryEntry.files (entry : DirectoryEntry) : Int :=
  match entry.kind with
  | .entryFile => 1
  | .entryDirectory => entry.fileCount

/-- The trash metadata of an entry, as `ValidateNamespaceEntry` checks it. -/
def validateTrashMetadata : Option NamespaceTrashMetadata → Except Error Unit
  | none => .ok ()
  | some trash =>
    rejectIf (!((parseUserPath codec.toNormalization trash.originalPath).toOption.any fun path => !path.isRoot)
        || trash.originalVersion = "" || trash.trashedAt = 0)
      (newError .invalid "invalid namespace trash metadata")

/-- What `ValidateNamespaceEntry` checks of a file and of a directory. -/
def validateKind (e : NamespaceEntry) : Except Error Unit :=
  match e.entry.kind with
  | .entryFile =>
    rejectIf (e.node.occurrenceContextID ≠ "" || e.name = "" || e.entry.blobID = "" || e.entry.directoryID ≠ ""
        || e.entry.fileCount ≠ 0 || e.node.entryCount ≠ 0 || e.node.contentAccumulator.isSome || !e.children.isEmpty)
      (newError .invalid "invalid namespace file")
  | .entryDirectory =>
    rejectIf (e.entry.blobID ≠ "" || e.entry.directoryID ≠ e.node.nodeID || e.node.entryCount ≠ e.children.length
        || e.node.contentAccumulator.isNone || e.entry.contentDigest = "")
      (newError .invalid "invalid namespace directory")

/-- `ValidateNamespaceEntry`. -/
def validateNamespaceEntry (e : NamespaceEntry) : Except Error Unit := do
  rejectIf (!validDomainText e.node.nodeID || e.entry.logicalVersion = "" || e.entry.size < 0 || e.entry.fileCount < 0)
    (newError .invalid "invalid namespace entry")
  validateTrashMetadata codec e.node.trash
  validateKind e
  rejectIf (!codec.encodes e) (newError .invalid "canonical record exceeds its bound")

/-- `encodeNamespaceEntry` and `decodeNamespaceEntry`: an entry is checked whenever it is written or read. -/
def checkNamespaceEntry (e : NamespaceEntry) : Except Error Unit := do
  validateNamespaceEntry codec e
  rejectIf (directoryEntryVersion codec e.entry ≠ e.entry.logicalVersion)
    (newError .invalid "namespace entry logical version mismatch")

/-- `child`. -/
def child (parent : NamespaceEntry) (name : String) : Except Error (Option NamespaceEntry) :=
  match Edit.find NamespaceEntry.name parent.children name with
  | none => .ok none
  | some e => do
    checkNamespaceEntry codec e
    pure (some e)

def emptyDirectory (nodeID name : String) (modifiedAt : Time) : NamespaceEntry :=
  let digest := codec.accumulatorDigest .zero 0
  .mk { nodeID
        entry := { name, kind := .entryDirectory, directoryID := nodeID, contentDigest := digest, modifiedAt }
        contentAccumulator := some .zero } []

/-- `emptyRoot`: the one entry whose version is not that of its content. -/
def emptyRoot (owner : String) (area : Area) : NamespaceEntry :=
  let root := emptyDirectory codec ("root-" ++ area.text) "" 0
  .mk { root.node with
        entry := { root.entry with
          logicalVersion := codec.digest ["endlessfs-namespace-empty-root-v1", owner, area.text] } } []

/-! ## Entries by path -/

namespace NamespaceEntry

/-- The entry at a path below `e`. -/
def lookup (e : NamespaceEntry) : List String → Option NamespaceEntry
  | [] => some e
  | name :: rest => (Edit.find NamespaceEntry.name e.children name).bind fun c => lookup c rest

@[simp] theorem lookup_nil (e : NamespaceEntry) : e.lookup [] = some e := rfl

theorem lookup_cons (e : NamespaceEntry) (name : String) (rest : List String) :
    e.lookup (name :: rest) = (Edit.find NamespaceEntry.name e.children name).bind fun c => c.lookup rest := rfl

theorem lookup_append (e : NamespaceEntry) (path rest : List String) :
    e.lookup (path ++ rest) = (e.lookup path).bind fun c => c.lookup rest := by
  induction path generalizing e with
  | nil => rfl
  | cons name path ih =>
    rw [List.cons_append, lookup_cons, lookup_cons]
    cases Edit.find NamespaceEntry.name e.children name with
    | none => rfl
    | some c => exact ih c

variable {e : NamespaceEntry} {d : NamespaceEntry} {path : List String}

theorem lookup_snoc (h : e.lookup path = some d) (name : String) :
    e.lookup (path ++ [name]) = Edit.find NamespaceEntry.name d.children name := by
  rw [lookup_append, h, Option.bind_some, lookup_cons]
  cases Edit.find NamespaceEntry.name d.children name <;> rfl

theorem lookup_child {c : NamespaceEntry} (hnames : (e.children.map name).Nodup) (hc : c ∈ e.children) :
    e.lookup [c.name] = some c := by
  rw [lookup_cons, Edit.find_of_mem hnames hc]
  rfl

/-- Every entry at or below `e` satisfies `P`. -/
def Everywhere (P : NamespaceEntry → Prop) (e : NamespaceEntry) : Prop :=
  ∀ path d, e.lookup path = some d → P d

variable {P : NamespaceEntry → Prop}

theorem Everywhere.here (h : e.Everywhere P) : P e := h [] e rfl

theorem Everywhere.below (h : e.Everywhere P) (hd : e.lookup path = some d) : d.Everywhere P := by
  intro rest c hc
  exact h (path ++ rest) c (by rw [lookup_append, hd]; exact hc)

theorem everywhere_of_children (he : P e) (hchildren : ∀ c ∈ e.children, c.Everywhere P) : e.Everywhere P := by
  intro path d hd
  cases path with
  | nil => cases hd; exact he
  | cons name rest =>
    obtain ⟨c, hc, hd⟩ := Option.bind_eq_some_iff.mp hd
    exact hchildren c (Edit.find_some hc).1 rest d hd

end NamespaceEntry

/-! ## Exact aggregates -/

def childrenIdentity (children : List NamespaceEntry) : Except Error (Accumulator × String) :=
  directoryContentIdentity codec (children.map NamespaceEntry.entry)

/-- What a directory stores about its children is true of them, and their names are distinct. -/
structure Exact (e : NamespaceEntry) : Prop where
  names : (e.children.map NamespaceEntry.name).Nodup
  count : e.node.entryCount = e.children.length
  size : e.entry.size = (e.children.map fun c => c.entry.size).sum
  files : e.entry.fileCount = (e.children.map fun c => c.entry.files).sum
  identity : ∃ accumulator, e.node.contentAccumulator = some accumulator ∧
    childrenIdentity codec e.children = .ok (accumulator, e.entry.contentDigest)
  sizeRange : 0 ≤ e.entry.size ∧ e.entry.size ≤ maxInt64
  filesRange : 0 ≤ e.entry.fileCount ∧ e.entry.fileCount ≤ maxInt64

structure Sound (e : NamespaceEntry) : Prop where
  directory : e.isDirectory = true → Exact codec e
  file : e.isDirectory = false → e.children = [] ∧ 0 ≤ e.entry.size

end EndlessFS
