import Mathlib.Data.List.Basic
import EndlessFS.Format.Domain

/-!
# EndlessFS.Checkpoint.Keys

The keys of stored objects as texts (`storageformat/keys.go`) and the classifiers a checkpoint applies to them
(`checkpoint.go`, `checkpoint_reachability.go`, `checkpoint_gc009.go`). Three pieces of code read these keys
independently of each other: which objects are authority, which of them may be left out of a checkpoint, and
which are planned for deletion.

* `Key`: a key as its segments, which `objectstore.ParseKey` keeps nonempty and free of separators.
* `domainPageKey`, `domainPagePackKey`, …: the keys that are built.
* `isSchema008AuthorityStateKey`, `isSchema008CollectableAuthorityGarbageKey`, `stateEligible`: the classifiers.
-/

namespace EndlessFS.Garbage

/-- An object key as `strings.Split(key, "/")` gives it. -/
structure Key where
  segments : List String
  deriving DecidableEq, Repr

/-- `strings.Join(segments, "/")`. -/
def joinSegments : List String → String
  | [] => ""
  | [segment] => segment
  | segment :: next :: rest => segment ++ "/" ++ joinSegments (next :: rest)

def Key.text (key : Key) : String := joinSegments key.segments

/-- `strings.HasSuffix`. -/
def endsIn (text suffix : String) : Bool := suffix.toList.isSuffixOf text.toList

/-- `strings.HasSuffix` of a whole key, for a suffix without separators. -/
def Key.endsIn (key : Key) (suffix : String) : Bool := key.segments.getLast?.any fun last => Garbage.endsIn last suffix

/-- `strings.HasPrefix` of a key, for the segments of a directory and a separator. -/
def Key.under (key : Key) (directory : List String) : Bool :=
  directory.isPrefixOf key.segments && directory.length < key.segments.length

variable {key : Key}

theorem Key.endsIn_of_getLast {suffix : String} (last : String) (h : key.segments.getLast? = some last) :
    key.endsIn suffix = Garbage.endsIn last suffix := by
  rw [Key.endsIn, h, Option.any_some]

theorem endsIn_json_bin {text : String} (h : endsIn text ".bin" = true) : endsIn text ".json" = false := by
  rw [Bool.eq_false_iff]
  intro hjson
  have hbin := List.isSuffixOf_iff_suffix.mp h
  have hshorter : ".bin".toList <:+ ".json".toList :=
    List.suffix_of_suffix_length_le hbin (List.isSuffixOf_iff_suffix.mp hjson) (by decide)
  exact absurd (List.isSuffixOf_iff_suffix.mpr hshorter) (by decide)

theorem endsIn_append_json (name : String) : endsIn (name ++ ".json") ".json" = true := by
  rw [endsIn, String.toList_append, List.isSuffixOf_iff_suffix]
  exact List.suffix_append _ _

/-! ## Directories and keys -/

def stateQuerySnapshotDirectory : List String := ["endlessfs", "v1", "domains", "state-query-snapshots"]
def transitionDirectory : List String := ["endlessfs", "v1", "transitions"]
def projectionDirectory : List String := ["endlessfs", "v1", "projections"]
def leaseDirectory : List String := ["endlessfs", "v1", "leases"]

def fixedKey (segments : List String) : Key := ⟨["endlessfs", "v1"] ++ segments⟩

def superblockKey : Key := fixedKey ["superblock.json"]
def writerSetKey : Key := fixedKey ["control", "writer-set.json"]
def writeGateKey : Key := fixedKey ["control", "write-gate.json"]
def domainCatalogHeadKey : Key := fixedKey ["domains", "catalog", "head.json"]

section

variable (digestPart : String → String)

def domainHeadKey (kind : DomainKind) (domainID : String) : Key :=
  fixedKey ["domains", kind.text, digestPart domainID, "head.json"]

def domainPageKey (kind : DomainKind) (domainID pageID : String) : Key :=
  fixedKey ["domains", kind.text, digestPart domainID, "pages", digestPart pageID ++ ".json"]

def domainPagePackKey (kind : DomainKind) (domainID packID : String) : Key :=
  fixedKey ["domains", kind.text, digestPart domainID, "packs", digestPart packID ++ ".bin"]

end

/-! ## Classifiers -/

def domainKindTexts : List String :=
  [DomainKind.domainNamespace, .domainOwnerControl, .domainAdmin, .domainCapability, .domainShare, .domainIdentity,
    .domainOwnerJobs].map DomainKind.text

def inDomains (a b c : String) : Bool := a = "endlessfs" && b = "v1" && c = "domains"

def isFileDataKey (key : Key) : Bool :=
  match key.segments with
  | [a, b, c, user, blobs, blob] => a = "endlessfs" && b = "v1" && c = "fs" && user ≠ "" && blobs = "blobs" && blob ≠ ""
  | _ => false

def transientOrCheckpoint (key : Key) : Bool :=
  [["endlessfs", "v1", "admissions"], ["endlessfs", "v1", "staging"], leaseDirectory,
    ["endlessfs", "v1", "checkpoints"], ["endlessfs", "v1", "maintenance"]].any key.under

def isSchema008AuthorityStateKey (key : Key) : Bool :=
  key ∈ [superblockKey, writerSetKey, writeGateKey, domainCatalogHeadKey] ||
    (key.under (transitionDirectory ++ ["plans"]) || key.under (transitionDirectory ++ ["decisions"])) &&
      key.endsIn ".json" ||
    match key.segments with
    | [a, b, c, kind, id, last] =>
      inDomains a b c && (kind = "catalog" && id = "pages" && endsIn last ".json" ||
        kind ∈ domainKindTexts && id ≠ "" && last = "head.json")
    | [a, b, c, kind, id, part, last] =>
      inDomains a b c && kind ∈ domainKindTexts && id ≠ "" &&
        (part = "pages" && endsIn last ".json" || part = "packs" && endsIn last ".bin")
    | _ => false

def isSchema008CollectableAuthorityGarbageKey (key : Key) : Bool :=
  match key.segments with
  | [a, b, c, kind, id, last] => inDomains a b c && kind = "catalog" && id = "pages" && endsIn last ".json"
  | [a, b, c, kind, id, part, last] =>
    inDomains a b c && id ≠ "" && (part = "pages" && endsIn last ".json" || part = "packs" && endsIn last ".bin") &&
      kind ∈ domainKindTexts
  | _ => false

def checkpointJSONGarbageEligible (key : Key) : Bool := key.endsIn ".json"

def checkpointDomainGarbageEligible (key : Key) : Bool :=
  if key.under stateQuerySnapshotDirectory then key.endsIn ".json"
  else
    match key.segments with
    | [a, b, c, kind, id, last] =>
      inDomains a b c && (if kind = "catalog" then id = "pages" && endsIn last ".json"
        else id ≠ "" && kind ∈ domainKindTexts && last = "head.json")
    | [a, b, c, kind, id, part, last] =>
      inDomains a b c && id ≠ "" && kind ∈ domainKindTexts && (part = "pages" || part = "snapshots") &&
        endsIn last ".json"
    | _ => false

def checkpointBlobGarbageEligible (key : Key) : Bool :=
  match key.segments with
  | [a, b, c, user, blobs, blob] => a = "endlessfs" && b = "v1" && c = "fs" && user ≠ "" && blobs = "blobs" && blob ≠ ""
  | _ => false

def Key.inSweptDirectory (key : Key) : Bool :=
  key.under transitionDirectory || key.under projectionDirectory || key.under leaseDirectory

/-- `stateEligible`, which `validateCheckpointGarbageEntry` repeats. -/
def stateEligible (key : Key) : Bool :=
  checkpointDomainGarbageEligible key || key.under transitionDirectory && checkpointJSONGarbageEligible key ||
    key.under projectionDirectory && checkpointJSONGarbageEligible key || key.under leaseDirectory &&
      checkpointJSONGarbageEligible key

theorem stateEligible_of_sweptDirectory (h : key.inSweptDirectory = true) (hjson : key.endsIn ".json" = true) :
    stateEligible key = true := by
  simp only [Key.inSweptDirectory, Bool.or_eq_true] at h
  rcases h with (h | h) | h <;> simp [stateEligible, checkpointJSONGarbageEligible, h, hjson]

/-- Every key that is planned for deletion ends in `.json`. -/
theorem endsIn_of_stateEligible (h : stateEligible key = true) : key.endsIn ".json" = true := by
  simp only [stateEligible, checkpointJSONGarbageEligible, Bool.or_eq_true, Bool.and_eq_true] at h
  rcases h with ((h | h) | h) | h
  · unfold checkpointDomainGarbageEligible at h
    split at h
    · exact h
    · split at h
      · rename_i a b c kind id last hsegments
        rw [Key.endsIn_of_getLast last (by rw [hsegments]; rfl)]
        split at h
        · simp_all
        · simp only [Bool.and_eq_true, decide_eq_true_eq] at h
          obtain ⟨_, _, rfl⟩ := h
          decide
      · rename_i a b c kind id part last hsegments
        rw [Key.endsIn_of_getLast last (by rw [hsegments]; rfl)]
        simp_all
      · cases h
  · exact h.2
  · exact h.2
  · exact h.2

/-- An object that may be left out of a checkpoint is planned for deletion if its key ends in `.json`. -/
theorem stateEligible_of_collectable (h : isSchema008CollectableAuthorityGarbageKey key = true)
    (hjson : key.endsIn ".json" = true) : stateEligible key = true := by
  have hdomain : checkpointDomainGarbageEligible key = true := by
    unfold checkpointDomainGarbageEligible
    split
    · exact hjson
    · unfold isSchema008CollectableAuthorityGarbageKey at h
      split at h
      · simp_all
      · rename_i a b c kind id part last hsegments
        rw [Key.endsIn_of_getLast last (by rw [hsegments]; rfl)] at hjson
        have hpages : part = "pages" := by
          by_contra hpart
          simp only [hpart, decide_false, Bool.false_and, Bool.false_or, Bool.and_eq_true] at h
          rw [endsIn_json_bin h.1.2.2] at hjson
          cases hjson
        simp_all
      · cases h
  simp [stateEligible, hdomain]

end EndlessFS.Garbage
