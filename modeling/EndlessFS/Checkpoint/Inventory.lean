import EndlessFS.Checkpoint.GarbagePlan

/-!
# EndlessFS.Checkpoint.Inventory

Which objects a checkpoint lists (`checkpoint.go`, `checkpoint_reachability.go`). The listing of both backends is
merged with the keys that are reachable: every reachable key has to be stored, and whatever else counts as
authority has to be collectable.

* `checkpointMetadata`: the stored objects that count as authority or file data, in key order.
* `classify`: the stream that splits them into the inventory and what it leaves out.
* `classify_perm`: nothing is lost; `classify_disjoint`: and nothing is in both.
-/

namespace EndlessFS.Garbage

open Except List
open Conc (Increasing)

abbrev Metadata := ObjectInfo × Bool

def roleOf (fileData : Bool) : Role := if fileData then .files else .state

def Metadata.entry (m : Metadata) : Entry := ⟨roleOf m.2, m.1.key⟩

structure Heads where
  read : Key → Except Error DomainHead
  encodesHead : DomainHead → Bool
  digestPart : String → String

/-! ## The listing -/

def checkpointRoleIncludes (engine : Engine) (key : Key) (fileData : Bool) : Except Error Bool :=
  if transientOrCheckpoint key then .ok false
  else if engine.separateFileBackend && fileData ≠ isFileDataKey key then
    .error (newError .preconditionFailed "canonical object is stored in the wrong backend")
  else .ok (if fileData then isFileDataKey key else !isFileDataKey key && isSchema008AuthorityStateKey key)

def included (engine : Engine) (fileData : Key → Bool) : List ObjectInfo → Except Error (List Metadata)
  | [] => .ok []
  | info :: rest => do
    let includes ← checkpointRoleIncludes engine info.key (fileData info.key)
    let others ← included engine fileData rest
    pure (if includes then (info, fileData info.key) :: others else others)

def mergeMetadata : List Metadata → List Metadata → Except Error (List Metadata)
  | [], files => .ok files
  | state, [] => .ok state
  | s :: state, f :: files =>
    if s.1.key.text < f.1.key.text then (s :: ·) <$> mergeMetadata state (f :: files)
    else if f.1.key.text < s.1.key.text then (f :: ·) <$> mergeMetadata (s :: state) files
    else .error (newError .preconditionFailed "canonical object is duplicated across backend roles")

def checkpointMetadata {Body : Type} (engine : Engine) (s : Storage Body) : Except Error (List Metadata) :=
  if engine.separateFileBackend then do
    let state ← included engine (fun _ => false) (s.objects engine .state)
    let files ← included engine (fun _ => true) (s.objects engine .files)
    mergeMetadata state files
  else included engine isFileDataKey (s.objects engine .state)

/-! ## The stream -/

def Heads.inert (heads : Heads) (key : Key) (head : DomainHead) : Bool :=
  (validateInitialDomainHead heads.encodesHead head).isOk &&
    domainHeadKey heads.digestPart head.kind head.domainID = key

def collectableMetadata (heads : Heads) (m : Metadata) : Except Error Bool :=
  if m.2 || isSchema008CollectableAuthorityGarbageKey m.1.key then .ok true
  else
    match m.1.key.segments with
    | [a, b, c, kind, id, last] =>
      if inDomains a b c && kind ≠ "catalog" && id ≠ "" && last = "head.json" then
        heads.inert m.1.key <$> heads.read m.1.key
      else .ok false
    | _ => .ok false

def unenumerated : Error := newError .preconditionFailed "checkpoint contains unenumerated mutable authority"
def missingAuthority : Error := newError .preconditionFailed "checkpoint authority object is missing"

def leaveOut (heads : Heads) (m : Metadata) : Except Error Unit := do
  let collectable ← collectableMetadata heads m
  rejectIf (!collectable) unenumerated

structure Classified where
  inventory : List Metadata
  collectable : List Metadata

def Classified.keep (m : Metadata) (c : Classified) : Classified := { c with inventory := m :: c.inventory }
def Classified.leave (m : Metadata) (c : Classified) : Classified := { c with collectable := m :: c.collectable }

def classify (heads : Heads) : List Key → List Metadata → Except Error Classified
  | [], [] => .ok ⟨[], []⟩
  | _ :: _, [] => .error missingAuthority
  | [], m :: rest => do
    leaveOut heads m
    (Classified.leave m ·) <$> classify heads [] rest
  | key :: keys, m :: rest =>
    if m.1.key.text < key.text then do
      leaveOut heads m
      (Classified.leave m ·) <$> classify heads (key :: keys) rest
    else if m.1.key ≠ key then .error missingAuthority
    else (Classified.keep m ·) <$> classify heads keys rest

/-! ## What the stream keeps -/

variable {engine : Engine} {heads : Heads} {keys : List Key} {metadata : List Metadata} {c : Classified}

/-- Every object is in the inventory or left out, and what is left out is collectable. -/
theorem classify_perm (h : classify heads keys metadata = .ok c) :
    (c.inventory ++ c.collectable).Perm metadata ∧ ∀ m ∈ c.collectable, leaveOut heads m = .ok () := by
  have hleave : ∀ {m : Metadata} {rest : List Metadata} {keys : List Key} {c : Classified},
      (∀ c, classify heads keys rest = .ok c →
        (c.inventory ++ c.collectable).Perm rest ∧ ∀ m ∈ c.collectable, leaveOut heads m = .ok ()) →
      (do leaveOut heads m; (Classified.leave m ·) <$> classify heads keys rest) = .ok c →
      (c.inventory ++ c.collectable).Perm (m :: rest) ∧ ∀ m ∈ c.collectable, leaveOut heads m = .ok () := by
    intro m rest keys c ih h
    obtain ⟨⟨⟩, hleft, h⟩ := bind_ok h
    obtain ⟨c', hc', rfl⟩ := map_eq_ok_iff.mp h
    obtain ⟨hperm, hall⟩ := ih c' hc'
    refine ⟨perm_middle.trans (hperm.cons m), fun x hx => ?_⟩
    rcases mem_cons.mp hx with rfl | hx
    · exact hleft
    · exact hall x hx
  induction metadata generalizing keys c with
  | nil =>
    cases keys with
    | nil =>
      cases h
      exact ⟨.nil, fun _ h => nomatch h⟩
    | cons _ _ => cases h
  | cons m rest ih =>
    cases keys with
    | nil => exact hleave (fun c hc => ih hc) h
    | cons key keys =>
      unfold classify at h
      split at h
      · exact hleave (fun c hc => ih hc) h
      · split at h
        · cases h
        · obtain ⟨c', hc', rfl⟩ := map_eq_ok_iff.mp h
          obtain ⟨hperm, hall⟩ := ih hc'
          exact ⟨hperm.cons m, hall⟩

theorem included_ok {fileData : Key → Bool} {infos : List ObjectInfo}
    (h : included engine fileData infos = .ok metadata) :
    ∃ p : ObjectInfo → Bool, metadata = (infos.filter p).map (fun info => (info, fileData info.key)) ∧
      ∀ info ∈ infos, p info = true → checkpointRoleIncludes engine info.key (fileData info.key) = .ok true := by
  refine ⟨fun info => checkpointRoleIncludes engine info.key (fileData info.key) matches .ok true, ?_,
    fun info _ hp => ?_⟩
  · induction infos generalizing metadata with
    | nil =>
      cases h
      rfl
    | cons info rest ih =>
      obtain ⟨includes, hincludes, h⟩ := bind_ok h
      obtain ⟨others, hothers, h⟩ := bind_ok h
      cases h
      rw [ih hothers]
      cases includes <;> simp [hincludes]
  · cases hincludes : checkpointRoleIncludes engine info.key (fileData info.key) with
    | error e => simp [hincludes] at hp
    | ok includes =>
      cases includes with
      | false => simp [hincludes] at hp
      | true => rfl

theorem mergeMetadata_perm {state files : List Metadata} (h : mergeMetadata state files = .ok metadata) :
    metadata.Perm (state ++ files) := by
  induction state generalizing files metadata with
  | nil =>
    rw [mergeMetadata] at h
    cases h
    exact .refl _
  | cons s state ihstate =>
    induction files generalizing metadata with
    | nil =>
      unfold mergeMetadata at h
      cases h
      rw [append_nil]
    | cons f files ihfiles =>
      unfold mergeMetadata at h
      split at h
      · obtain ⟨rest, hrest, rfl⟩ := map_eq_ok_iff.mp h
        exact (ihstate hrest).cons s
      · split at h
        · obtain ⟨rest, hrest, rfl⟩ := map_eq_ok_iff.mp h
          exact ((ihfiles hrest).cons f).trans perm_middle.symm
        · cases h

theorem checkpointRoleIncludes_true {key : Key} {fileData : Bool}
    (h : checkpointRoleIncludes engine key fileData = .ok true) :
    (engine.separateFileBackend = true → fileData = isFileDataKey key) ∧ (fileData = true → isFileDataKey key = true) ∧
      (fileData = false → isFileDataKey key = false ∧ isSchema008AuthorityStateKey key = true) := by
  unfold checkpointRoleIncludes at h
  split at h
  · cases h
  · split at h
    · cases h
    · rename_i hbackend
      refine ⟨fun hseparate => by simpa [hseparate] using hbackend, fun hfile => ?_, fun hfile => ?_⟩ <;>
        simpa [hfile] using h

theorem nodup_entries (listing : Listing) (p : ObjectInfo → Bool) (fileData : Key → Bool) :
    (((listing.objects.filter p).map fun info => (info, fileData info.key)).map Metadata.entry).Nodup := by
  rw [map_map, List.Nodup, pairwise_map]
  refine (listing.ordered.filter p).imp fun hlt heq => ?_
  have hkey := congrArg Entry.key heq
  exact hlt.ne (congrArg Key.text hkey)

theorem checkpointMetadata_ok {Body : Type} {s : Storage Body} (h : checkpointMetadata engine s = .ok metadata) :
    (metadata.map Metadata.entry).Nodup ∧ ∀ m ∈ metadata, m.1 ∈ s.objects engine (roleOf m.2) ∧
      m.2 = isFileDataKey m.1.key ∧ (m.2 = false → isSchema008AuthorityStateKey m.1.key = true) := by
  unfold checkpointMetadata at h
  split at h
  · rename_i hseparate
    obtain ⟨state, hstate, h⟩ := bind_ok h
    obtain ⟨files, hfiles, h⟩ := bind_ok h
    have hperm := mergeMetadata_perm h
    obtain ⟨p, rfl, hp⟩ := included_ok hstate
    obtain ⟨q, rfl, hq⟩ := included_ok hfiles
    constructor
    · rw [(hperm.map _).nodup_iff, map_append, nodup_append]
      refine ⟨nodup_entries _ p fun _ => false, nodup_entries _ q fun _ => true, fun a ha b hb hab => ?_⟩
      simp only [map_map, mem_map] at ha hb
      obtain ⟨x, _, rfl⟩ := ha
      obtain ⟨y, _, rfl⟩ := hb
      cases congrArg Entry.role hab
    · intro m hm
      rcases mem_append.mp (hperm.mem_iff.mp hm) with hm | hm
      all_goals
        obtain ⟨info, hinfo, rfl⟩ := mem_map.mp hm
        obtain ⟨hmem, hincluded⟩ := mem_filter.mp hinfo
      · obtain ⟨hrole, _, hauthority⟩ := checkpointRoleIncludes_true (hp info hmem hincluded)
        exact ⟨hmem, hrole hseparate, fun hfile => (hauthority hfile).2⟩
      · obtain ⟨hrole, _, hauthority⟩ := checkpointRoleIncludes_true (hq info hmem hincluded)
        exact ⟨hmem, hrole hseparate, fun hfile => (hauthority hfile).2⟩
  · rename_i hshared
    obtain ⟨p, rfl, hp⟩ := included_ok h
    refine ⟨nodup_entries _ p isFileDataKey, fun m hm => ?_⟩
    obtain ⟨info, hinfo, rfl⟩ := mem_map.mp hm
    obtain ⟨hmem, hincluded⟩ := mem_filter.mp hinfo
    refine ⟨?_, rfl, fun hfile => ((checkpointRoleIncludes_true (hp info hmem hincluded)).2.2 hfile).2⟩
    have hbackend : ∀ role, s.objects engine role = s.objects engine .state := by
      simp [Storage.objects, Engine.backend, hshared]
    rw [hbackend]
    exact hmem

theorem classify_disjoint (h : classify heads keys metadata = .ok c) (hnodup : (metadata.map Metadata.entry).Nodup)
    {m : Metadata} (hm : m ∈ c.collectable) : m.entry ∉ c.inventory.map Metadata.entry := by
  intro hin
  have hall := ((classify_perm h).1.map Metadata.entry).nodup_iff.mpr hnodup
  rw [map_append, nodup_append] at hall
  exact hall.2.2 _ hin _ (mem_map_of_mem hm) rfl

end EndlessFS.Garbage
