import EndlessFS.Namespace.Operations

/-!
# EndlessFS.Namespace.Outcomes

What a successful attempt of an operation found and edited, in terms of the view.

* `Resolved`: the destination that `resolveDestination` settles on.
* `Commits`: the edits of an operation are published from the view.
* `createDirectory_ok`, `publishFile_ok`, `copyOrMoveResolved_ok`, `deleteResolved_ok`,
  `batchCopyOrMove_ok`, `batchDeleteFromTrash_ok`, `completeUploadBatch_ok`: one lemma for each operation.
-/

namespace EndlessFS

open Edit Except List
open NamespaceEntry (name)

variable {codec : NamespaceCodec}

/-! ## Destinations -/

variable {n : Normalization}

theorem UserPath.of_append {p q : UserPath n} {x : String}
    (h : p.segments = q.segments ++ [x]) : p.parent = q ∧ p.name = x ∧ p.isRoot = false := by
  refine ⟨UserPath.ext ?_, ?_, ?_⟩
  · simp [UserPath.parent, h]
  · simp [UserPath.name, h]
  · simp [UserPath.isRoot, h]

/-- The destination of an operation in the directory `parent`. -/
structure Resolved (codec : NamespaceCodec) (parent : NamespaceEntry)
    (requested resolved : UserPath codec.toNormalization) (conflict : ConflictMode)
    (existing : Option NamespaceEntry) : Prop where
  sibling : resolved.parent = requested.parent
  notRoot : resolved.isRoot = false
  found : Edit.find name parent.children resolved.name = existing
  replaced : existing.isSome → resolved = requested ∧ conflict = .conflictReplace
  kept : conflict ≠ .conflictRename → resolved = requested

variable {parent : NamespaceEntry} {requested : UserPath codec.toNormalization} {index : Nat}

theorem renameFrom_ok {candidate : UserPath codec.toNormalization} {fuel : Nat}
    (h : renameFrom codec parent requested index fuel = .ok candidate) :
    (∃ x, candidate.segments = requested.parent.segments ++ [x]) ∧ find name parent.children candidate.name = none := by
  induction fuel generalizing index with
  | zero => cases h
  | succ fuel ih =>
    obtain ⟨c, hjoin, h⟩ := bind_ok h
    obtain ⟨found, hfound, h⟩ := bind_ok h
    split at h
    · rename_i hnone
      cases h
      cases found with
      | none => exact ⟨⟨_, UserPath.join_eq_ok_iff.mp hjoin⟩, child_none hfound⟩
      | some e => cases hnone
    · exact ih h

variable {target : UserPath codec.toNormalization × Option NamespaceEntry}

theorem resolveDestination_ok {conflict : ConflictMode} {expected : String} (hroot : requested.isRoot = false)
    (h : resolveDestination codec parent requested conflict expected = .ok target) :
    Resolved codec parent requested target.1 conflict target.2 := by
  obtain ⟨found, hfound, h⟩ := bind_ok h
  cases found with
  | none =>
    cases h
    exact ⟨rfl, hroot, child_none hfound, by simp, fun _ => rfl⟩
  | some existing =>
    simp only [resolveExisting] at h
    cases conflict with
    | conflictFail => cases h
    | unset => cases h
    | conflictReplace =>
      simp only at h
      split at h
      · cases h
      · cases h
        exact ⟨rfl, hroot, (child_some hfound).1, fun _ => ⟨rfl, rfl⟩, fun _ => rfl⟩
    | conflictRename =>
      obtain ⟨candidate, hcandidate, h⟩ := bind_ok h
      cases h
      obtain ⟨⟨x, hx⟩, hfree⟩ := renameFrom_ok hcandidate
      obtain ⟨hparent, _, hnot⟩ := UserPath.of_append hx
      exact ⟨hparent, hnot, hfree, by simp, fun hne => absurd rfl hne⟩

/-! ## Grouping -/

/-- The edits of the directory `key`, in order. -/
def editsFor (pairs : List (FrameKey × DirectoryEdit)) (key : FrameKey) : List DirectoryEdit :=
  (pairs.filter fun pair => pair.1 = key).map Prod.snd

/-- The edits that the groups hold for `key`. -/
def heldEdits (groups : List EditGroup) (key : FrameKey) : List DirectoryEdit :=
  ((Edit.find EditGroup.key groups key).map EditGroup.edits).getD []

theorem heldEdits_addEdit (groups : List EditGroup) (pair : FrameKey × DirectoryEdit) (key : FrameKey) :
    heldEdits (addEdit groups pair) key = heldEdits groups key ++ (if pair.1 = key then [pair.2] else []) := by
  induction groups with
  | nil => by_cases h : pair.1 = key <;> simp [addEdit, heldEdits, find, h]
  | cons group rest ih =>
    unfold addEdit
    by_cases hgroup : group.key = pair.1
    · rw [if_pos hgroup]
      by_cases hkey : group.key = key
      · simp [heldEdits, find, hkey, ← hgroup]
      · have hne : ¬pair.1 = key := fun e => hkey (hgroup.trans e)
        simp [heldEdits, find, hkey, hne]
    · rw [if_neg hgroup]
      by_cases hkey : group.key = key
      · have hne : ¬pair.1 = key := fun e => hgroup (hkey.trans e.symm)
        simp [heldEdits, find, hkey, hne]
      · simpa [heldEdits, find, hkey] using ih

theorem keys_addEdit (groups : List EditGroup) (pair : FrameKey × DirectoryEdit) :
    (addEdit groups pair).map EditGroup.key =
      groups.map EditGroup.key ++ (if pair.1 ∈ groups.map EditGroup.key then [] else [pair.1]) := by
  induction groups with
  | nil => simp [addEdit]
  | cons group rest ih =>
    unfold addEdit
    by_cases hgroup : group.key = pair.1
    · simp [hgroup]
    · simp [hgroup, ih, Ne.symm hgroup]

theorem groupEdits_append (pairs : List (FrameKey × DirectoryEdit)) (pair : FrameKey × DirectoryEdit) :
    groupEdits (pairs ++ [pair]) = addEdit (groupEdits pairs) pair := by
  simp [groupEdits]

theorem groupEdits_keys (pairs : List (FrameKey × DirectoryEdit)) : ((groupEdits pairs).map EditGroup.key).Nodup ∧
      (∀ key, key ∈ (groupEdits pairs).map EditGroup.key ↔ ∃ pair ∈ pairs, pair.1 = key) ∧
      ∀ key, heldEdits (groupEdits pairs) key = editsFor pairs key := by
  induction pairs using reverseRecOn with
  | nil => simp [groupEdits, heldEdits, editsFor, find]
  | append_singleton pairs pair ih =>
    obtain ⟨hnodup, hkeys, hheld⟩ := ih
    rw [groupEdits_append, keys_addEdit]
    refine ⟨?_, fun key => ?_, fun key => ?_⟩
    · split_ifs with hmem
      · simpa using hnodup
      · rw [nodup_append]
        exact ⟨hnodup, by simp, fun a ha b hb hab => hmem (by simp_all)⟩
    · rw [mem_append, hkeys]
      constructor
      · rintro (⟨p, hp, hk⟩ | hk)
        · exact ⟨p, mem_append_left _ hp, hk⟩
        · split_ifs at hk
          · cases hk
          · exact ⟨pair, by simp, (mem_singleton.mp hk).symm⟩
      · rintro ⟨p, hp, hk⟩
        rcases mem_append.mp hp with hp | hp
        · exact .inl ⟨p, hp, hk⟩
        · obtain rfl := mem_singleton.mp hp
          by_cases hmem : p.1 ∈ (groupEdits pairs).map EditGroup.key
          · exact .inl ((hkeys key).mp (hk ▸ hmem))
          · exact .inr (by rw [if_neg hmem, hk]; exact mem_singleton_self key)
    · rw [heldEdits_addEdit, hheld]
      by_cases hk : pair.1 = key <;> simp [editsFor, hk]

variable {pairs : List (FrameKey × DirectoryEdit)} {g : EditGroup}

theorem edits_of_group (hg : g ∈ groupEdits pairs) : g.edits = editsFor pairs g.key := by
  have hkeys := groupEdits_keys pairs
  rw [← hkeys.2.2, heldEdits, find_of_mem hkeys.1 hg]
  rfl

theorem mem_editsFor {key : FrameKey} {edit : DirectoryEdit} : edit ∈ editsFor pairs key ↔ (key, edit) ∈ pairs := by
  simp only [editsFor, mem_map, mem_filter, decide_eq_true_eq]
  constructor
  · rintro ⟨⟨k, e⟩, ⟨hp, rfl⟩, rfl⟩
    exact hp
  · exact fun hp => ⟨(key, edit), ⟨hp, rfl⟩, rfl⟩

theorem group_of_pair {pair : FrameKey × DirectoryEdit} (h : pair ∈ pairs) :
    ∃ g ∈ groupEdits pairs, g.key = pair.1 := by
  obtain ⟨g, hg, hkey⟩ := mem_map.mp (((groupEdits_keys pairs).2.1 pair.1).mpr ⟨pair, h, rfl⟩)
  exact ⟨g, hg, hkey⟩

theorem pair_of_group (h : g ∈ groupEdits pairs) : ∃ pair ∈ pairs, pair.1 = g.key :=
  ((groupEdits_keys pairs).2.1 g.key).mp (mem_map_of_mem h)

def ClearPairs (pairs : List (FrameKey × DirectoryEdit)) : Prop :=
  ∀ pair ∈ pairs, ∀ n, Edit.Touches name pair.2 n →
    ∀ pair' ∈ pairs, pair'.1.area = pair.1.area → ¬pair.1.path ++ [n] <+: pair'.1.path

theorem ClearPairs.groups (h : ClearPairs pairs) : Clear (groupEdits pairs) := by
  intro g hg edit hedit n ht g' hg' harea
  rw [edits_of_group hg, mem_editsFor] at hedit
  obtain ⟨pair', hpair', hkey'⟩ := pair_of_group hg'
  rw [← hkey'] at harea ⊢
  exact h (g.key, edit) hedit n ht pair' hpair' harea

/-! ## Commits -/

/-- The edits of `pairs` are published from the view of the attempt. -/
structure Commits (codec : NamespaceCodec) (at_ : Attempt) (pairs : List (FrameKey × DirectoryEdit)) (modifiedAt : Time)
    (frames : List NamespaceFrame) (start changes : Changes) : Prop where
  published : Published codec (at_.root codec) frames (groupEdits pairs) modifiedAt start changes
  directories : ∀ f ∈ frames, f.path ≠ [] → f.entry.isDirectory = true

variable {at_ : Attempt} {changes : Changes}

theorem commits_of_publish {trails : List (List NamespaceFrame)} {modifiedAt : Time}
    (htrails : ∀ trail ∈ trails, ∃ area path, Trail (at_.root codec area) area [] path trail)
    (h : publishEdits codec (mergeNamespaceFrames trails) (groupEdits pairs) modifiedAt = .ok changes) :
    ∃ start, Commits codec at_ pairs modifiedAt (mergeNamespaceFrames trails) start changes := by
  obtain ⟨start, hpublished⟩ := publishEdits_ok (framesOf_merge htrails) (groupEdits_keys pairs).1 h
  refine ⟨start, hpublished, fun f hf hpath => ?_⟩
  rcases mem_mergeNamespaceFrames hf with hf | hf
  · cases hf
  · obtain ⟨trail, htrail, hf⟩ := mem_flatten.mp hf
    obtain ⟨area, path, ht⟩ := htrails trail htrail
    exact ht.directories f hf hpath

structure ParentFrame (codec : NamespaceCodec) (at_ : Attempt) (area : Area) (path : UserPath codec.toNormalization)
    (frames : List NamespaceFrame) (parent : NamespaceFrame) : Prop where
  trail : Trail (at_.root codec area) area [] path.segments frames
  mem : parent ∈ frames
  key : parent.key = { area, path := path.segments }
  entry : (at_.root codec area).lookup path.segments = some parent.entry

variable {area : Area} {path : UserPath codec.toNormalization} {trail : List NamespaceFrame}

theorem parent_of_trail {parent : NamespaceFrame} (htrail : at_.trail codec area path = .ok trail)
    (h : lastFrame trail = .ok parent) : ParentFrame codec at_ area path trail parent := by
  have ht := resolveTrail_ok htrail
  obtain ⟨f, hf, hpath⟩ := ht.last
  unfold lastFrame at h
  rw [hf] at h
  cases h
  have hmem : parent ∈ trail := mem_of_getLast? hf
  rw [nil_append] at hpath
  refine ⟨ht, hmem, ?_, hpath ▸ ht.entry parent hmem⟩
  rw [NamespaceFrame.key, ht.area parent hmem, hpath]

theorem singleTrail {parent : NamespaceFrame} (h : ParentFrame codec at_ area path trail parent) :
    ∀ t ∈ [trail], ∃ area path, Trail (at_.root codec area) area [] path t := by
  intro t ht
  rw [mem_singleton.mp ht]
  exact ⟨_, _, h.trail⟩

variable {found : Option NamespaceEntry}

theorem requireFound_ok {message : String} {e : NamespaceEntry} (h : requireFound message found = .ok e) :
    found = some e := by
  cases found with
  | none => cases h
  | some f => cases h; rfl

variable {resolved : UserPath codec.toNormalization}

theorem createDirectory_ok {request : CreateDirectoryRequest codec}
    (h : createDirectory codec at_ request = .ok (changes, resolved)) :
    ∃ trail parent existing frames start, ParentFrame codec at_ request.area request.path.parent trail parent ∧
      Resolved codec parent.entry request.path resolved (normalizeConflictMode request.conflict) existing ∧
      Commits codec at_ [(parent.key,
        { before := existing, after := some (createdDirectory codec request.mutationID resolved.name at_.now) })]
        at_.now frames start changes := by
  obtain ⟨_, hroot, h⟩ := bind_ok h
  obtain ⟨trail, htrail, h⟩ := bind_ok h
  obtain ⟨parent, hparent, h⟩ := bind_ok h
  obtain ⟨target, htarget, h⟩ := bind_ok h
  obtain ⟨result, hresult, h⟩ := bind_ok h
  cases h
  have hp := parent_of_trail htrail hparent
  obtain ⟨start, hcommits⟩ := commits_of_publish (singleTrail hp) hresult
  exact ⟨trail, parent, target.2, _, start, hp, resolveDestination_ok (by simpa using hroot) htarget, hcommits⟩

/-- `publishFile` edits one name of the parent of its path. -/
theorem publishFile_ok {request : PublishFileRequest codec}
    (h : publishFile codec at_ request = .ok (changes, resolved)) :
    ∃ trail parent existing frames start, ParentFrame codec at_ request.area request.path.parent trail parent ∧
      Resolved codec parent.entry request.path resolved request.conflict existing ∧
      0 ≤ request.entry.size ∧ request.entry.kind = .entryFile ∧
      Commits codec at_ [(parent.key, { before := existing,
                                        after := some (publishedFile codec request resolved.name) })]
        request.entry.modifiedAt frames start changes := by
  obtain ⟨_, hchecks, h⟩ := bind_ok h
  obtain ⟨trail, htrail, h⟩ := bind_ok h
  obtain ⟨parent, hparent, h⟩ := bind_ok h
  obtain ⟨target, htarget, h⟩ := bind_ok h
  obtain ⟨result, hresult, h⟩ := bind_ok h
  cases h
  rw [rejectIf_eq_ok_iff] at hchecks
  simp only [Bool.or_eq_false_iff, decide_eq_false_iff_not, not_not, Int.not_lt] at hchecks
  have hp := parent_of_trail htrail hparent
  obtain ⟨start, hcommits⟩ := commits_of_publish (singleTrail hp) hresult
  exact ⟨trail, parent, target.2, _, start, hp, resolveDestination_ok hchecks.1.1.1.1.1.1.1 htarget,
    hchecks.1.1.1.1.2, hchecks.1.1.1.1.1.1.2, hcommits⟩

theorem deleteResolved_ok {requireTrash : Bool} {request : DeleteRequest codec}
    (h : deleteResolved codec at_ requireTrash request = .ok changes) : ∃ trail parent entry frames start,
      request.path.isRoot = false ∧ ParentFrame codec at_ request.area request.path.parent trail parent ∧
      find name parent.entry.children request.path.name = some entry ∧
      Commits codec at_ [(parent.key, { before := some entry })] at_.now frames start changes := by
  obtain ⟨_, hroot, h⟩ := bind_ok h
  obtain ⟨trail, htrail, h⟩ := bind_ok h
  obtain ⟨parent, hparent, h⟩ := bind_ok h
  obtain ⟨found, hfound, h⟩ := bind_ok h
  obtain ⟨entry, hentry, h⟩ := bind_ok h
  obtain ⟨_, _, h⟩ := bind_ok h
  obtain ⟨_, _, h⟩ := bind_ok h
  rw [requireFound_ok hentry] at hfound
  have hp := parent_of_trail htrail hparent
  obtain ⟨start, hcommits⟩ := commits_of_publish (singleTrail hp) h
  exact ⟨trail, parent, entry, _, start, by simpa using hroot, hp, (child_some hfound).1, hcommits⟩

/-- A copy or move of the request takes `source`, as the view has it, to the path `resolved`. -/
def CopyRelocates (codec : NamespaceCodec) (at_ : Attempt) (restoreOriginal : Bool) (request : CopyRequest codec)
    (source : NamespaceEntry) (resolved : UserPath codec.toNormalization) : Prop :=
  (at_.root codec request.fromArea).lookup request.source.segments = some source ∧
    ∃ destination parent existing, (∃ trail, copyDestination codec restoreOriginal request source trail =
      .ok destination) ∧
      (at_.root codec request.toArea).lookup destination.parent.segments = some parent ∧
      resolveDestination codec parent destination (normalizeConflictMode request.conflict) request.expectedTarget =
        .ok (resolved, existing)

/-- What a copy or move found: its source and its destination. -/
structure CopyFound (codec : NamespaceCodec) (at_ : Attempt) (restoreOriginal : Bool) (request : CopyRequest codec)
    (destination resolved : UserPath codec.toNormalization) (sourceParent destinationParent : NamespaceFrame)
    (source : NamespaceEntry) (existing : Option NamespaceEntry) : Prop where
  sourceNotRoot : request.source.isRoot = false
  destinationNotRoot : destination.isRoot = false
  sourceFrame : ∃ trail, ParentFrame codec at_ request.fromArea request.source.parent trail sourceParent
  sourceFound : Edit.find name sourceParent.entry.children request.source.name = some source
  destinationFrame : ∃ trail, ParentFrame codec at_ request.toArea destination.parent trail destinationParent
  target : Resolved codec destinationParent.entry destination resolved (normalizeConflictMode request.conflict) existing
  relocates : CopyRelocates codec at_ restoreOriginal request source resolved

theorem ParentFrame.lookup_name {parent : NamespaceFrame} (h : ParentFrame codec at_ area path.parent trail parent)
    (hroot : path.isRoot = false) : (at_.root codec area).lookup path.segments =
      find name parent.entry.children path.name := by
  rw [← UserPath.parent_append_name hroot, NamespaceEntry.lookup_snoc h.entry]

variable {restoreOriginal : Bool} {request : CopyRequest codec}
  {destination : UserPath codec.toNormalization} {source : NamespaceEntry}

theorem copyFound_of {sourceTrail destinationTrail : List NamespaceFrame}
    {sourceParent destinationParent : NamespaceFrame}
    (hsroot : request.source.isRoot = false) (hdroot : destination.isRoot = false)
    (hsource : ParentFrame codec at_ request.fromArea request.source.parent sourceTrail sourceParent)
    (hfound : child codec sourceParent.entry request.source.name = .ok (some source))
    (hdestination : copyDestination codec restoreOriginal request source trail = .ok destination)
    (hparent : ParentFrame codec at_ request.toArea destination.parent destinationTrail destinationParent)
    (htarget : resolveDestination codec destinationParent.entry destination (normalizeConflictMode request.conflict)
      request.expectedTarget = .ok target) :
    CopyFound codec at_ restoreOriginal request destination target.1 sourceParent destinationParent source
    target.2 where
  sourceNotRoot := hsroot
  destinationNotRoot := hdroot
  sourceFrame := ⟨_, hsource⟩
  sourceFound := (child_some hfound).1
  destinationFrame := ⟨_, hparent⟩
  target := resolveDestination_ok hdroot htarget
  relocates := ⟨(hsource.lookup_name hsroot).trans (child_some hfound).1, destination, _, target.2, ⟨_, hdestination⟩,
    hparent.entry, htarget⟩

theorem copyDestination_ok (h : copyDestination codec restoreOriginal request source trail = .ok destination) :
    (restoreOriginal = true ∧ destination.isRoot = false) ∨
      (restoreOriginal = false ∧ request.destination = some destination) := by
  unfold copyDestination at h
  cases restoreOriginal with
  | false =>
    cases hd : request.destination with
    | none => simp [hd] at h
    | some d => simpa [hd] using h
  | true =>
    cases htrash : source.node.trash with
    | none => simp [htrash] at h
    | some trash =>
      cases hparse : parseUserPath codec.toNormalization trash.originalPath with
      | error e =>
        simp only [htrash, hparse, if_true] at h
        split_ifs at h
      | ok path =>
        simp only [htrash, hparse, if_true] at h
        split_ifs at h with hlength hroot
        cases h
        simpa using hroot

structure Separate (request : CopyRequest codec) (destination : UserPath codec.toNormalization) : Prop where
  same : request.source = destination → normalizeConflictMode request.conflict = .conflictRename
  below : destination.isDescendantOf request.source = false

theorem checkCopyRequest_ok (h : checkCopyRequest codec restoreOriginal request = .ok ()) :
    request.source.isRoot = false ∧ (restoreOriginal = false → ∀ d, request.destination = some d →
      d.isRoot = false ∧ (request.fromArea = request.toArea → Separate request d)) := by
  obtain ⟨_, hroots, hoverlap⟩ := bind_ok h
  rw [rejectIf_eq_ok_iff, Bool.or_eq_false_iff] at hroots
  rw [rejectIf_eq_ok_iff] at hoverlap
  refine ⟨hroots.1, fun hrestore d hd => ⟨by simpa [hrestore, hd] using hroots.2, fun harea => ?_⟩⟩
  simp only [hrestore, hd, harea, Bool.not_false, Bool.true_and, decide_true, Option.any_some,
    Bool.or_eq_false_iff, Bool.and_eq_false_iff, decide_eq_false_iff_not, not_not] at hoverlap
  exact ⟨fun heq => hoverlap.1.resolve_left (not_not_intro heq), hoverlap.2⟩

variable {move : Bool}

theorem copyOrMoveResolved_ok
    {outcome : CopyOutcome codec} (h : copyOrMoveResolved codec at_ move restoreOriginal request = .ok outcome) :
    ∃ destination sourceParent destinationParent sourceTrail nodeID trash frames start,
      CopyFound codec at_ restoreOriginal request destination outcome.resolved sourceParent destinationParent
        outcome.source outcome.existing ∧ (restoreOriginal = false → request.destination = some destination ∧
        (request.fromArea = request.toArea → Separate request destination)) ∧
      Commits codec at_ (copyEdits move sourceParent.key destinationParent.key outcome.source
        (placedEntry codec move outcome.source sourceTrail outcome.resolved.name nodeID trash at_.now) outcome.existing)
        at_.now frames start outcome.changes := by
  obtain ⟨_, hcheck, h⟩ := bind_ok h
  obtain ⟨sourceTrail, hsourceTrail, h⟩ := bind_ok h
  obtain ⟨sourceParent, hsourceParent, h⟩ := bind_ok h
  obtain ⟨found, hfound, h⟩ := bind_ok h
  obtain ⟨source, hsource, h⟩ := bind_ok h
  obtain ⟨_, _, h⟩ := bind_ok h
  obtain ⟨destination, hdestination, h⟩ := bind_ok h
  obtain ⟨destinationTrail, hdestinationTrail, h⟩ := bind_ok h
  obtain ⟨destinationParent, hdestinationParent, h⟩ := bind_ok h
  obtain ⟨target, htarget, h⟩ := bind_ok h
  obtain ⟨trash, _, h⟩ := bind_ok h
  obtain ⟨changes, hchanges, h⟩ := bind_ok h
  cases h
  obtain rfl := requireFound_ok hsource
  obtain ⟨hsroot, hrequest⟩ := checkCopyRequest_ok hcheck
  have hplace := copyDestination_ok hdestination
  have hdroot : destination.isRoot = false := by
    rcases hplace with ⟨_, hroot⟩ | ⟨hrestore, hd⟩
    · exact hroot
    · exact (hrequest hrestore destination hd).1
  have hsp := parent_of_trail hsourceTrail hsourceParent
  have hdp := parent_of_trail hdestinationTrail hdestinationParent
  obtain ⟨start, hcommits⟩ := commits_of_publish (fun t ht => by
    rcases mem_cons.mp ht with rfl | ht
    · exact ⟨_, _, hsp.trail⟩
    · rw [mem_singleton.mp ht]; exact ⟨_, _, hdp.trail⟩) hchanges
  refine ⟨destination, sourceParent, destinationParent, _, _, _, _, start,
    copyFound_of hsroot hdroot hsp hfound hdestination hdp htarget, fun hrestore => ?_, hcommits⟩
  rcases hplace with ⟨hother, _⟩ | ⟨_, hd⟩
  · rw [hrestore] at hother
    cases hother
  · exact ⟨hd, (hrequest hrestore destination hd).2⟩

structure PlanFound (codec : NamespaceCodec) (at_ : Attempt) (move : Bool) (plan : BatchMovePlan codec) : Prop where
  copied : ∃ destination, CopyFound codec at_ plan.spec.restoreTrash plan.spec.toCopyRequest destination plan.resolved
    plan.sourceParent plan.destinationParent plan.source plan.existing
  trails : ∀ trail ∈ [plan.sourceTrail, plan.destinationTrail],
    ∃ area path, Trail (at_.root codec area) area [] path trail
  placed : ∃ nodeID trash, plan.placed = batchPlaced codec move plan.source plan.resolved.name nodeID trash at_.now

theorem planBatchItem_ok {spec : BatchMoveSpec codec} {plan : BatchMovePlan codec}
    (h : planBatchItem codec at_ move index spec = .ok plan) : PlanFound codec at_ move plan ∧ plan.spec = spec := by
  obtain ⟨_, hcheck, h⟩ := bind_ok h
  obtain ⟨sourceTrail, hsourceTrail, h⟩ := bind_ok h
  obtain ⟨sourceParent, hsourceParent, h⟩ := bind_ok h
  obtain ⟨found, hfound, h⟩ := bind_ok h
  obtain ⟨source, hsource, h⟩ := bind_ok h
  obtain ⟨_, _, h⟩ := bind_ok h
  obtain ⟨destination, hdestination, h⟩ := bind_ok h
  obtain ⟨destinationTrail, hdestinationTrail, h⟩ := bind_ok h
  obtain ⟨destinationParent, hdestinationParent, h⟩ := bind_ok h
  obtain ⟨target, htarget, h⟩ := bind_ok h
  obtain ⟨trash, _, h⟩ := bind_ok h
  cases h
  obtain rfl := requireFound_ok hsource
  obtain ⟨_, hroots, _⟩ := bind_ok hcheck
  rw [rejectIf_eq_ok_iff, Bool.or_eq_false_iff] at hroots
  unfold batchDestination at hdestination
  split_ifs at hdestination
  have hdroot : destination.isRoot = false := by
    rcases copyDestination_ok hdestination with ⟨_, hroot⟩ | ⟨hrestore, hd⟩
    · exact hroot
    · simpa [hrestore, hd] using hroots.2
  have hsp := parent_of_trail hsourceTrail hsourceParent
  have hdp := parent_of_trail hdestinationTrail hdestinationParent
  refine ⟨⟨⟨destination, copyFound_of hroots.1 hdroot hsp hfound hdestination hdp htarget⟩,
    fun trail htrail => ?_, _, _, rfl⟩, rfl⟩
  rcases mem_cons.mp htrail with rfl | htrail
  · exact ⟨_, _, hsp.trail⟩
  · rw [mem_singleton.mp htrail]
    exact ⟨_, _, hdp.trail⟩

variable {specs : List (BatchMoveSpec codec)} {plans : List (BatchMovePlan codec)}

theorem planBatch_ok (h : planBatch codec at_ move index specs = .ok plans) :
    ∀ plan ∈ plans, PlanFound codec at_ move plan ∧ plan.spec ∈ specs := by
  induction specs generalizing index plans with
  | nil => cases h; simp
  | cons spec rest ih =>
    obtain ⟨plan, hplan, h⟩ := bind_ok h
    obtain ⟨tail, htail, h⟩ := bind_ok h
    cases h
    intro p hp
    rcases mem_cons.mp hp with rfl | hp
    · obtain ⟨hfound, hspec⟩ := planBatchItem_ok hplan
      exact ⟨hfound, hspec ▸ mem_cons_self⟩
    · exact (ih htail p hp).imp_right (mem_cons_of_mem _)

theorem batchCopyOrMove_ok (h : batchCopyOrMove codec at_ move specs = .ok (changes, plans)) :
    planBatch codec at_ move 0 specs = .ok plans ∧
      ∃ frames start, Commits codec at_ (plans.flatMap (BatchMovePlan.edits codec move)) at_.now frames start
        changes := by
  obtain ⟨_, _, h⟩ := bind_ok h
  obtain ⟨plans', hplans, h⟩ := bind_ok h
  obtain ⟨_, _, h⟩ := bind_ok h
  obtain ⟨changes', hchanges, h⟩ := bind_ok h
  cases h
  refine ⟨hplans, _, commits_of_publish (fun t ht => ?_) hchanges⟩
  obtain ⟨plan, hplan, ht⟩ := mem_flatMap.mp ht
  exact (planBatch_ok hplans plan hplan).1.trails t ht

theorem UserPath.eq_of_name {p q : UserPath n} (hp : p.segments.length = 1)
    (hq : q.segments.length = 1) (h : p.name = q.name) : p = q := by
  obtain ⟨a, ha⟩ := length_eq_one_iff.mp hp
  obtain ⟨b, hb⟩ := length_eq_one_iff.mp hq
  refine UserPath.ext ?_
  rw [ha, hb, show a = b by simpa [UserPath.name, ha, hb] using h]

theorem trashEntries_ok {trashRoot : NamespaceEntry} {paths : List (UserPath codec.toNormalization)}
    {entries : List NamespaceEntry} (h : trashEntries codec trashRoot paths = .ok entries) :
    (∀ e ∈ entries, e ∈ trashRoot.children) ∧ entries.map name = paths.map UserPath.name ∧
      (paths.map UserPath.name).Nodup ∧ ∀ path ∈ paths, path.segments.length = 1 := by
  induction paths generalizing entries with
  | nil => cases h; simp
  | cons path rest ih =>
    obtain ⟨_, hlength, h⟩ := bind_ok h
    obtain ⟨_, hduplicate, h⟩ := bind_ok h
    obtain ⟨found, hfound, h⟩ := bind_ok h
    obtain ⟨entry, hentry, h⟩ := bind_ok h
    obtain ⟨_, _, h⟩ := bind_ok h
    obtain ⟨tail, htail, h⟩ := bind_ok h
    cases h
    obtain rfl := requireFound_ok hentry
    rw [rejectIf_eq_ok_iff, decide_eq_false_iff_not] at hlength hduplicate
    obtain ⟨hmem, hnames, hnodup, hone⟩ := ih htail
    obtain ⟨hin, hname⟩ := find_some (child_some hfound).1
    have hlength' : path.segments.length = 1 := not_not.mp hlength
    refine ⟨forall_mem_cons.mpr ⟨hin, hmem⟩, by rw [map_cons, map_cons, hname, hnames], ?_,
      forall_mem_cons.mpr ⟨hlength', hone⟩⟩
    rw [map_cons, nodup_cons]
    refine ⟨fun hdup => hduplicate ?_, hnodup⟩
    obtain ⟨other, hother, heq⟩ := mem_map.mp hdup
    exact UserPath.eq_of_name (hone other hother) hlength' heq ▸ hother

theorem batchDeleteFromTrash_ok {trashIDs : List (UserPath codec.toNormalization)}
    (h : batchDeleteFromTrash codec at_ trashIDs = .ok changes) :
    ∃ (entries : List NamespaceEntry) (frames : List NamespaceFrame) (start : Changes),
    (∀ e ∈ entries, e ∈ (at_.root codec .areaTrash).children) ∧ (entries.map name).Nodup ∧
      Commits codec at_ (entries.map fun e => ({ area := .areaTrash, path := [] }, { before := some e }))
        at_.now frames start changes := by
  obtain ⟨_, _, h⟩ := bind_ok h
  obtain ⟨entries, hentries, h⟩ := bind_ok h
  obtain ⟨hmem, hnames, hnodup, _⟩ := trashEntries_ok hentries
  have htrail : Trail (at_.root codec .areaTrash) .areaTrash [] []
      [{ area := .areaTrash, path := [], entry := at_.root codec .areaTrash }] :=
    ⟨by simp, by simp, fun f hf => ⟨[], nil_prefix, by simp_all⟩,
      fun q hq => ⟨_, .head _, by simp [prefix_nil.mp hq]⟩, ⟨_, rfl, rfl⟩, rfl, by simp⟩
  obtain ⟨start, hcommits⟩ := commits_of_publish (fun t ht => by
    rw [mem_singleton.mp ht]; exact ⟨_, _, htrail⟩) h
  exact ⟨entries, _, start, hmem, hnames ▸ hnodup, hcommits⟩

/-- What the publication of an upload found. -/
structure UploadFound (codec : NamespaceCodec) (at_ : Attempt) (area : Area) (transactionID : String)
    (plan : PlannedUpload codec) : Prop where
  path : plan.path.segments = plan.upload.resolvedPath.map codec.nfc
  notRoot : plan.path.isRoot = false
  parent : ParentFrame codec at_ area plan.path.parent plan.trail plan.parent
  found : Edit.find name plan.parent.entry.children plan.path.name = plan.existing
  placed : ∃ index, plan.placed = uploadedFile codec transactionID index plan.upload plan.path.name at_.now

theorem storedUploadPath_ok {segments : List String}
    (h : storedUploadPath codec segments = .ok path) : path.segments = segments.map codec.nfc ∧
      path.isRoot = false := by
  unfold storedUploadPath at h
  cases hparse : parseUserPath codec.toNormalization segments with
  | error e => simp [hparse] at h
  | ok parsed =>
    simp only [hparse] at h
    split_ifs at h with hroot
    cases h
    exact ⟨(parseUserPath_eq_ok_iff.mp hparse).symm, by simpa using hroot⟩

theorem child_found {n : String} (h : child codec parent n = .ok found) : find name parent.children n = found := by
  cases found with
  | none => exact child_none h
  | some e => exact (child_some h).1

variable {transactionID : String} {uploads : List VerifiedUpload}

theorem planUploads_ok {seen : List (UserPath codec.toNormalization)} {plans : List (PlannedUpload codec)}
    (h : planUploads codec at_ area transactionID index seen uploads = .ok plans) :
    plans.map PlannedUpload.upload = uploads ∧ (∀ plan ∈ plans, UploadFound codec at_ area transactionID plan) ∧
      (plans.map PlannedUpload.path).Nodup ∧ ∀ plan ∈ plans, plan.path ∉ seen := by
  induction uploads generalizing index seen plans with
  | nil => cases h; simp
  | cons upload rest ih =>
    obtain ⟨path, hpath, h⟩ := bind_ok h
    obtain ⟨_, hseen, h⟩ := bind_ok h
    obtain ⟨trail, htrail, h⟩ := bind_ok h
    obtain ⟨parent, hparent, h⟩ := bind_ok h
    obtain ⟨existing, hexisting, h⟩ := bind_ok h
    obtain ⟨_, _, h⟩ := bind_ok h
    obtain ⟨tail, htail, h⟩ := bind_ok h
    cases h
    obtain ⟨huploads, hfound, hnodup, hfresh⟩ := ih htail
    obtain ⟨hsegments, hroot⟩ := storedUploadPath_ok hpath
    rw [rejectIf_eq_ok_iff, decide_eq_false_iff_not] at hseen
    refine ⟨by rw [map_cons, huploads], forall_mem_cons.mpr ⟨?_, hfound⟩, ?_, forall_mem_cons.mpr ⟨hseen, ?_⟩⟩
    · exact ⟨hsegments, hroot, parent_of_trail htrail hparent, child_found hexisting, index, rfl⟩
    · rw [map_cons, nodup_cons]
      refine ⟨fun hmem => ?_, hnodup⟩
      obtain ⟨plan, hplan, heq⟩ := mem_map.mp hmem
      exact hfresh plan hplan (heq ▸ mem_cons_self)
    · exact fun plan hplan hmem => hfresh plan hplan (.tail _ hmem)

theorem completeUploadBatch_ok (h : completeUploadBatch codec at_ area transactionID uploads = .ok changes) :
    ∃ (plans : List (PlannedUpload codec)) (frames : List NamespaceFrame) (start : Changes),
      plans.map PlannedUpload.upload = uploads ∧ (∀ plan ∈ plans, UploadFound codec at_ area transactionID plan) ∧
      (plans.map PlannedUpload.path).Nodup ∧ Commits codec at_ (uploadPairs codec plans) at_.now frames start
        changes := by
  obtain ⟨plans, hplans, h⟩ := bind_ok h
  obtain ⟨huploads, hfound, hnodup, _⟩ := planUploads_ok hplans
  obtain ⟨start, hcommits⟩ := commits_of_publish (fun t ht => by
    obtain ⟨plan, hplan, rfl⟩ := mem_map.mp ht
    exact ⟨_, _, (hfound plan hplan).parent.trail⟩) h
  exact ⟨plans, _, start, huploads, hfound, hnodup, hcommits⟩

end EndlessFS
