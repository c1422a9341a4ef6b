import EndlessFS.Namespace.Outcomes

/-!
# EndlessFS.Namespace.Runs

The namespace of one owner as a state machine whose steps are published operations.

* `NamespaceOperation`: the operations, and `NamespaceOperation.run`, one attempt of each.
* `Reachable`: the states that any interleaving of operations reaches. An operation may be computed
  on an older state than the one it is committed to; the commit demands that the roots it replaces
  are still the ones it read.
* `edits_of_run`: what every operation comes to is a publication of edits.
-/

namespace EndlessFS

open Edit Except List NamespaceEntry
open NamespaceEntry (name)

variable (codec : NamespaceCodec)

inductive NamespaceOperation where
  | createDirectory (request : CreateDirectoryRequest codec)
  | publishFile (request : PublishFileRequest codec)
  | copyOrMove (move : Bool) (request : CopyRequest codec)
  | restoreFromTrash (request : CopyRequest codec)
  | delete (requireTrashMetadata : Bool) (request : DeleteRequest codec)
  | batchCopyOrMove (move : Bool) (specs : List (BatchMoveSpec codec))
  | batchDeleteFromTrash (trashIDs : List (UserPath codec.toNormalization))
  | completeUploadBatch (area : Area) (transactionID : String) (uploads : List VerifiedUpload)

/-- `RestoreFromTrash` moves from the trash to the live tree, whatever the areas of the request. -/
def restoreRequest (request : CopyRequest codec) : CopyRequest codec :=
  { request with fromArea := .areaTrash, toArea := .areaLive }

def NamespaceOperation.run (at_ : Attempt) : NamespaceOperation codec → Except Error Changes
  | .createDirectory request => (EndlessFS.createDirectory codec at_ request).map (·.1)
  | .publishFile request => (EndlessFS.publishFile codec at_ request).map (·.1)
  | .copyOrMove move request => (copyOrMoveResolved codec at_ move false request).map (·.changes)
  | .restoreFromTrash request => (copyOrMoveResolved codec at_ true true (restoreRequest codec request)).map (·.changes)
  | .delete requireTrashMetadata request => deleteResolved codec at_ requireTrashMetadata request
  | .batchCopyOrMove move specs => (EndlessFS.batchCopyOrMove codec at_ move specs).map (·.1)
  | .batchDeleteFromTrash trashIDs => EndlessFS.batchDeleteFromTrash codec at_ trashIDs
  | .completeUploadBatch area transactionID uploads =>
    EndlessFS.completeUploadBatch codec at_ area transactionID uploads

def NamespaceView.empty : NamespaceView := { live := none, trash := none }

/-- The states of the namespace of `owner` in runs whose operations all meet `condition`. -/
inductive Reachable (owner : String) (condition : Attempt → NamespaceOperation codec → Prop) :
    NamespaceView → Prop where
  | empty : Reachable owner condition .empty
  | step {view current : NamespaceView} {now : Time} {op : NamespaceOperation codec} {changes : Changes} :
      Reachable owner condition view → Reachable owner condition current →
      condition { owner, view, now } op → op.run codec { owner, view, now } = .ok changes →
      (∀ area, (changes { area, path := [] }).isSome → current.stored area = view.stored area) →
      Reachable owner condition (current.publish changes)

def NamespaceView.after (view : NamespaceView) (owner : String) (now : Time) (op : NamespaceOperation codec) :
    NamespaceView :=
  match op.run codec { owner, view, now } with
  | .error _ => view
  | .ok changes => view.publish changes

variable {codec} {owner : String}

theorem Reachable.after {condition : Attempt → NamespaceOperation codec → Prop} {view : NamespaceView}
    (h : Reachable codec owner condition view) (now : Time) (op : NamespaceOperation codec)
    (hop : condition { owner, view, now } op) : Reachable codec owner condition (view.after codec owner now op) := by
  unfold NamespaceView.after
  split
  · exact h
  · exact .step h h hop ‹_› fun _ _ => rfl

theorem NamespaceView.stored_publish (view : NamespaceView) (changes : Changes) (area : Area) :
    (view.publish changes).stored area = (changes { area, path := [] }).or (view.stored area) := by
  cases area <;> rfl

def ApartPaths (paths : List FrameKey) : Prop :=
  paths.Pairwise fun a b => a.area = b.area → ¬a.path <+: b.path ∧ ¬b.path <+: a.path

def uploadPaths (codec : NamespaceCodec) (area : Area) (uploads : List VerifiedUpload) : List FrameKey :=
  uploads.map fun upload => { area, path := upload.resolvedPath.map codec.nfc }

/-- No path that the operation writes lies at or below another that it writes: a move does not replace
a directory that its source lies in, and the paths of a batch do not overlap. -/
def NamespaceOperation.Apart (at_ : Attempt) : NamespaceOperation codec → Prop
  | .copyOrMove move request => move = true → request.fromArea = request.toArea →
      normalizeConflictMode request.conflict = .conflictReplace →
      ∀ destination, request.destination = some destination → request.source.isDescendantOf destination = false
  | .batchCopyOrMove move specs => ∀ plans, planBatch codec at_ move 0 specs = .ok plans →
      ApartPaths (plans.flatMap (BatchMovePlan.paths codec move))
  | .completeUploadBatch area _ uploads => ApartPaths (uploadPaths codec area uploads)
  | _ => True

/-! ## Edits by path -/

def ApartPairs (pairs : List (FrameKey × DirectoryEdit)) : Prop :=
  pairs.Pairwise fun a b => ∀ n m, Edit.Touches name a.2 n → Edit.Touches name b.2 m → a.1.area = b.1.area →
    ¬a.1.path ++ [n] <+: b.1.path ++ [m] ∧ ¬b.1.path ++ [m] <+: a.1.path ++ [n]

variable {pairs : List (FrameKey × DirectoryEdit)}

theorem ApartPairs.disjoint (h : ApartPairs pairs) (key : FrameKey) : Edit.Disjoint name (editsFor pairs key) := by
  unfold editsFor Edit.Disjoint
  rw [pairwise_map]
  refine (List.Pairwise.filter _ h).imp_of_mem fun {a b} ha hb hab k hk => ?_
  have ha' : a.1 = key := by simpa using (mem_filter.mp ha).2
  have hb' : b.1 = key := by simpa using (mem_filter.mp hb).2
  rw [ha', hb'] at hab
  exact (hab k k hk.1 hk.2 rfl).1 prefix_rfl

variable {n : String}

theorem not_prefix_of_append {path : List String} : ¬path ++ [n] <+: path := by
  intro h
  have := h.length_le
  rw [length_append, length_singleton] at this
  omega

theorem ApartPairs.clear (h : ApartPairs pairs)
    (htouch : ∀ pair ∈ pairs, ∃ n, Edit.Touches name pair.2 n) : ClearPairs pairs := by
  -- of two pairs, neither is about a directory on the way to the other's
  let apart (a b : FrameKey × DirectoryEdit) : Prop :=
    (∀ n, Edit.Touches name a.2 n → b.1.area = a.1.area → ¬a.1.path ++ [n] <+: b.1.path) ∧
      ∀ n, Edit.Touches name b.2 n → a.1.area = b.1.area → ¬b.1.path ++ [n] <+: a.1.path
  have hpairwise : pairs.Pairwise apart := by
    refine List.Pairwise.imp_of_mem (fun {a b} ha hb hab => ?_) h
    obtain ⟨na, hna⟩ := htouch a ha
    obtain ⟨nb, hnb⟩ := htouch b hb
    refine ⟨fun n hn harea hbegins => ?_, fun n hn harea hbegins => ?_⟩
    · exact (hab n nb hn hnb harea.symm).1 (hbegins.trans (prefix_append _ _))
    · exact (hab na n hna hn harea).2 (hbegins.trans (prefix_append _ _))
  have hsymm : Std.Symm apart := ⟨fun _ _ hab => ⟨hab.2, hab.1⟩⟩
  have hself : ∀ a ∈ pairs, apart a a := fun a _ =>
    ⟨fun n _ _ => not_prefix_of_append, fun n _ _ => not_prefix_of_append⟩
  have hall := List.Pairwise.forall_of_forall hself hpairwise
  exact fun pair hpair n hn pair' hpair' harea => (hall hpair hpair').1 n hn harea

variable {key : FrameKey}

theorem clear_of_key (h : ∀ pair ∈ pairs, pair.1 = key) : ClearPairs pairs := by
  intro pair hpair n _ pair' hpair' _
  rw [h pair hpair, h pair' hpair']
  exact not_prefix_of_append

def FitsView (root : Area → NamespaceEntry) (pairs : List (FrameKey × DirectoryEdit)) : Prop :=
  ∀ key d, (root key.area).lookup key.path = some d → (d.children.map name).Nodup →
    Edit.Coherent name d.children (editsFor pairs key)

variable {root : Area → NamespaceEntry}

theorem fitsView_of_apart (h : ApartPairs pairs)
    (hfits : ∀ pair ∈ pairs, ∀ d, (root pair.1.area).lookup pair.1.path = some d → (d.children.map name).Nodup →
      Edit.Fits name d.children pair.2) : FitsView root pairs := by
  intro key d hd hnodup
  exact coherent_of_disjoint (fun edit hedit => hfits (key, edit) (mem_editsFor.mp hedit) d hd hnodup) (h.disjoint key)

theorem editsFor_of_key (h : ∀ pair ∈ pairs, pair.1 = key) : editsFor pairs key = pairs.map Prod.snd := by
  unfold editsFor
  rw [filter_eq_self.mpr fun pair hpair => by simpa using h pair hpair]

theorem fitsView_of_key (h : ∀ pair ∈ pairs, pair.1 = key)
    (hcoherent : ∀ d, (root key.area).lookup key.path = some d → (d.children.map name).Nodup →
      Edit.Coherent name d.children (pairs.map Prod.snd)) : FitsView root pairs := by
  intro key' d hd hnodup
  by_cases hkey : key' = key
  · subst hkey
    rw [editsFor_of_key h]
    exact hcoherent d hd hnodup
  · have hnone : editsFor pairs key' = [] := by
      unfold editsFor
      rw [map_eq_nil_iff, filter_eq_nil_iff]
      intro pair hpair
      simpa [h pair hpair] using Ne.symm hkey
    rw [hnone]
    trivial

/-! ## What the operations place -/

/-- The entries have the same content: kind, bytes and everything below. -/
structure SameContent (source placed : NamespaceEntry) : Prop where
  kind : placed.entry.kind = source.entry.kind
  blobID : placed.entry.blobID = source.entry.blobID
  size : placed.entry.size = source.entry.size
  md5 : placed.entry.md5 = source.entry.md5
  crc32c : placed.entry.crc32c = source.entry.crc32c
  mediaType : placed.entry.mediaType = source.entry.mediaType
  fileCount : placed.entry.fileCount = source.entry.fileCount
  contentDigest : placed.entry.contentDigest = source.entry.contentDigest
  entryCount : placed.node.entryCount = source.node.entryCount
  contentAccumulator : placed.node.contentAccumulator = source.node.contentAccumulator
  children : placed.children = source.children

theorem placedEntry_content (move : Bool) (source : NamespaceEntry) (trail : List NamespaceFrame) (n nodeID : String)
    (trash : Option NamespaceTrashMetadata) (now : Time) :
    SameContent source (placedEntry codec move source trail n nodeID trash now) ∧
      (placedEntry codec move source trail n nodeID trash now).name = n := by
  cases move <;> exact ⟨⟨rfl, rfl, rfl, rfl, rfl, rfl, rfl, rfl, rfl, rfl, rfl⟩, rfl⟩

theorem batchPlaced_content (move : Bool) (source : NamespaceEntry) (n nodeID : String)
    (trash : Option NamespaceTrashMetadata)
    (now : Time) : SameContent source (batchPlaced codec move source n nodeID trash now) ∧
      (batchPlaced codec move source n nodeID trash now).name = n := by
  cases move <;> exact ⟨⟨rfl, rfl, rfl, rfl, rfl, rfl, rfl, rfl, rfl, rfl, rfl⟩, rfl⟩

/-- The operation takes `source`, as the view has it, to the path `resolved`. -/
def NamespaceOperation.Relocates (at_ : Attempt) (op : NamespaceOperation codec) (source : NamespaceEntry)
    (resolved : UserPath codec.toNormalization) : Prop :=
  match op with
  | .copyOrMove _ request => CopyRelocates codec at_ false request source resolved
  | .restoreFromTrash request => CopyRelocates codec at_ true (restoreRequest codec request) source resolved
  | .batchCopyOrMove _ specs =>
    ∃ spec ∈ specs, CopyRelocates codec at_ spec.restoreTrash spec.toCopyRequest source resolved
  | _ => False

variable {op : NamespaceOperation codec} {resolved : UserPath codec.toNormalization}

theorem NamespaceOperation.Relocates.source {at_ : Attempt} {source : NamespaceEntry}
    (h : op.Relocates at_ source resolved) :
    ∃ area path, (at_.root codec area).lookup path = some source := by
  cases op with
  | copyOrMove move request => exact ⟨_, _, h.1⟩
  | restoreFromTrash request => exact ⟨_, _, h.1⟩
  | batchCopyOrMove move specs =>
    obtain ⟨spec, _, hspec⟩ := h
    exact ⟨_, _, hspec.1⟩
  | createDirectory | publishFile | delete | batchDeleteFromTrash | completeUploadBatch => cases h

/-- An entry that the operation places in the directory `key`: a new one without children, or one that
it relocates. -/
structure Places (at_ : Attempt) (op : NamespaceOperation codec) (key : FrameKey) (placed : NamespaceEntry) : Prop where
  path : ∃ resolved : UserPath codec.toNormalization, resolved.segments = key.path ++ [placed.name] ∧
    ((placed.children = [] ∧ Sound codec placed) ∨
      ∃ source, op.Relocates at_ source resolved ∧ SameContent source placed)

/-- An operation publishes edits that place entries; if no path it writes overlaps another, they speak of
the view and are clear. -/
structure Edits (at_ : Attempt) (op : NamespaceOperation codec) (changes : Changes)
    (pairs : List (FrameKey × DirectoryEdit)) : Prop where
  commits : ∃ modifiedAt frames start, Commits codec at_ pairs modifiedAt frames start changes
  places : ∀ pair ∈ pairs, ∀ after ∈ pair.2.after, Places at_ op pair.1 after
  fits : op.Apart at_ → FitsView (at_.root codec) pairs
  clear : op.Apart at_ → ClearPairs pairs

variable {e : NamespaceEntry}

theorem sound_of_empty (hkind : e.entry.kind = .entryDirectory) (hchildren : e.children = [])
    (hcount : e.node.entryCount = 0)
    (hsize : e.entry.size = 0) (hfiles : e.entry.fileCount = 0) (haccumulator : e.node.contentAccumulator = some .zero)
    (hdigest : e.entry.contentDigest = codec.accumulatorDigest .zero 0) : Sound codec e := by
  refine ⟨fun _ => ⟨?_, ?_, ?_, ?_, ⟨.zero, haccumulator, ?_⟩, ?_, ?_⟩, fun h => ?_⟩
  · simp [hchildren]
  · simp [hchildren, hcount]
  · simp [hchildren, hsize]
  · simp [hchildren, hfiles]
  · rw [hchildren, hdigest]
    rfl
  · simp [hsize, maxInt64]
  · simp [hfiles, maxInt64]
  · simp [isDirectory, hkind] at h

theorem sound_createdDirectory (mutationID n : String) (now : Time) :
    Sound codec (createdDirectory codec mutationID n now) := sound_of_empty rfl rfl rfl rfl rfl rfl rfl

theorem sound_emptyRoot (area : Area) : Sound codec (emptyRoot codec owner area) :=
  sound_of_empty rfl rfl rfl rfl rfl rfl rfl

variable {placed : NamespaceEntry}

theorem SameContent.sound {source : NamespaceEntry} (h : SameContent source placed) (hs : Sound codec source) :
    Sound codec placed := by
  have hdirectory : placed.isDirectory = source.isDirectory := by
    rw [isDirectory, isDirectory, h.kind]
  refine ⟨fun hd => ?_, fun hf => ?_⟩
  · have hexact := hs.directory (hdirectory ▸ hd)
    obtain ⟨accumulator, haccumulator, hidentity⟩ := hexact.identity
    refine ⟨?_, ?_, ?_, ?_, ⟨accumulator, ?_, ?_⟩, ?_, ?_⟩
    · rw [h.children]; exact hexact.names
    · rw [h.children, h.entryCount]; exact hexact.count
    · rw [h.children, h.size]; exact hexact.size
    · rw [h.children, h.fileCount]; exact hexact.files
    · rw [h.contentAccumulator, haccumulator]
    · rw [h.children, h.contentDigest, hidentity]
    · rw [h.size]; exact hexact.sizeRange
    · rw [h.fileCount]; exact hexact.filesRange
  · rw [h.children, h.size]
    exact hs.file (hdirectory ▸ hf)

variable {at_ : Attempt} {changes : Changes} {pair : FrameKey × DirectoryEdit}

theorem fitsView_single (h : ∀ d, (root pair.1.area).lookup pair.1.path = some d → (d.children.map name).Nodup →
      Edit.Fits name d.children pair.2) : FitsView root [pair] :=
  fitsView_of_apart (pairwise_singleton _ _) fun p hp => by rw [mem_singleton.mp hp]; exact h

variable {area : Area} {trail : List NamespaceFrame} {parent : NamespaceFrame} {d : NamespaceEntry}

theorem ParentFrame.eq_entry {path : UserPath codec.toNormalization} (h : ParentFrame codec at_ area path trail parent)
    (hd : (at_.root codec parent.key.area).lookup parent.key.path = some d) : d = parent.entry := by
  rw [h.key, h.entry] at hd
  exact (Option.some.inj hd).symm

variable {requested : UserPath codec.toNormalization} {conflict : ConflictMode} {existing : Option NamespaceEntry}

theorem Resolved.path {parent : NamespaceEntry} (h : Resolved codec parent requested resolved conflict existing) :
    resolved.segments = requested.parent.segments ++ [resolved.name] := by
  rw [← h.sibling, UserPath.parent_append_name h.notRoot]

theorem Resolved.fits (h : Resolved codec parent.entry requested resolved conflict existing)
    (hparent : ParentFrame codec at_ area requested.parent trail parent) (hname : placed.name = resolved.name)
    (hd : (at_.root codec parent.key.area).lookup parent.key.path = some d) (hnodup : (d.children.map name).Nodup) :
    Edit.Fits name d.children { before := existing, after := some placed } := by
  obtain rfl := hparent.eq_entry hd
  exact fits_of_find hnodup (hname ▸ h.found)

theorem Resolved.keyPath (h : Resolved codec parent.entry requested resolved conflict existing)
    (hparent : ParentFrame codec at_ area requested.parent trail parent) :
    resolved.segments = parent.key.path ++ [resolved.name] := by
  rw [h.path, hparent.key]

variable {frames : List NamespaceFrame} {modifiedAt : Time} {start : Changes}

theorem edits_of_new {path : UserPath codec.toNormalization}
    (hparent : ParentFrame codec at_ area path.parent trail parent)
    (hresolved : Resolved codec parent.entry path resolved conflict existing) (hname : placed.name = resolved.name)
    (hchildren : placed.children = []) (hsound : Sound codec placed)
    (hcommits : Commits codec at_ [(parent.key, { before := existing, after := some placed })] modifiedAt frames start
      changes) :
    ∃ pairs, Edits at_ op changes pairs := by
  refine ⟨_, ⟨_, frames, start, hcommits⟩, fun pair hpair after hafter => ?_, fun _ => ?_, fun _ => ?_⟩
  · rw [mem_singleton.mp hpair] at hafter ⊢
    cases hafter
    exact ⟨resolved, by rw [hname]; exact hresolved.keyPath hparent, .inl ⟨hchildren, hsound⟩⟩
  · exact fitsView_single fun d hd hnodup => hresolved.fits hparent hname hd hnodup
  · exact clear_of_key (forall_mem_singleton.mpr rfl)

theorem createDirectory_edits {request : CreateDirectoryRequest codec}
    (h : createDirectory codec at_ request = .ok (changes, resolved)) :
    ∃ pairs, Edits at_ (.createDirectory request) changes pairs := by
  obtain ⟨trail, parent, existing, frames, start, hparent, hresolved, hcommits⟩ := createDirectory_ok h
  exact edits_of_new hparent hresolved rfl rfl (sound_createdDirectory _ _ _) hcommits

theorem publishFile_edits {request : PublishFileRequest codec}
    (h : publishFile codec at_ request = .ok (changes, resolved)) :
    ∃ pairs, Edits at_ (.publishFile request) changes pairs := by
  obtain ⟨trail, parent, existing, frames, start, hparent, hresolved, hsize, hkind, hcommits⟩ := publishFile_ok h
  have hfile : (publishedFile codec request resolved.name).entry.kind = .entryFile := hkind
  have hsound : Sound codec (publishedFile codec request resolved.name) :=
    ⟨fun hd => by simp [isDirectory, hfile] at hd, fun _ => ⟨rfl, hsize⟩⟩
  exact edits_of_new hparent hresolved rfl rfl hsound hcommits

theorem deleteResolved_edits {requireTrash : Bool} {request : DeleteRequest codec}
    (h : deleteResolved codec at_ requireTrash request = .ok changes) :
    ∃ pairs, Edits at_ (.delete requireTrash request) changes pairs := by
  obtain ⟨trail, parent, entry, frames, start, _, hparent, hfound, hcommits⟩ := deleteResolved_ok h
  refine ⟨_, ⟨_, frames, start, hcommits⟩, fun pair hpair after hafter => ?_, fun _ => ?_, fun _ => ?_⟩
  · rw [mem_singleton.mp hpair] at hafter
    cases hafter
  · refine fitsView_single fun d hd _ => ?_
    rw [hparent.eq_entry hd]
    exact fits_remove (find_some hfound).1
  · exact clear_of_key (forall_mem_singleton.mpr rfl)

theorem batchDeleteFromTrash_edits {trashIDs : List (UserPath codec.toNormalization)}
    (h : batchDeleteFromTrash codec at_ trashIDs = .ok changes) :
    ∃ pairs, Edits at_ (.batchDeleteFromTrash trashIDs) changes pairs := by
  obtain ⟨entries, frames, start, hmem, hnodup, hcommits⟩ := batchDeleteFromTrash_ok h
  have hkeys : ∀ pair ∈ entries.map fun e : NamespaceEntry =>
      (({ area := .areaTrash, path := [] }, { before := some e }) : FrameKey × DirectoryEdit),
      pair.1 = { area := .areaTrash, path := [] } := by
    simp
  refine ⟨_, ⟨_, frames, start, hcommits⟩, fun pair hpair after hafter => ?_, fun _ => fitsView_of_key hkeys ?_,
    fun _ => clear_of_key hkeys⟩
  · obtain ⟨e, _, rfl⟩ := mem_map.mp hpair
    cases hafter
  · intro d hd _
    cases hd
    rw [map_map]
    refine coherent_of_disjoint (fun edit hedit => ?_) ?_
    · obtain ⟨e, he, rfl⟩ := mem_map.mp hedit
      exact fits_remove (hmem e he)
    · unfold Edit.Disjoint
      rw [pairwise_map]
      refine (pairwise_map.mp hnodup).imp fun {a b} hab k hk => hab ?_
      rcases hk with ⟨⟨_, ha, rfl⟩ | ⟨_, ha, _⟩, ⟨_, hb, hk⟩ | ⟨_, hb, _⟩⟩
      all_goals cases ha
      all_goals cases hb
      exact hk.symm

theorem touches_placed {parent : NamespaceEntry} {m : String} (hfound : find name parent.children n = existing)
    (hname : placed.name = n) : Edit.Touches name ({ before := existing, after := some placed } : DirectoryEdit) m ↔
      m = n := by
  constructor
  · rintro (⟨b, hb, rfl⟩ | ⟨a, ha, rfl⟩)
    · exact (find_some (hfound.trans hb)).2
    · cases ha
      exact hname
  · rintro rfl
    exact .inr ⟨placed, rfl, hname⟩

theorem touches_removed {source : NamespaceEntry} {m : String} :
    Edit.Touches name ({ before := some source } : DirectoryEdit) m ↔ m = source.name := by
  constructor
  · rintro (⟨b, hb, rfl⟩ | ⟨a, ha, _⟩)
    · cases hb; rfl
    · cases ha
  · rintro rfl
    exact .inl ⟨source, rfl, rfl⟩

theorem UserPath.isDescendantOf_iff {n : Normalization} {p q : UserPath n} (hp : p.isRoot = false) :
    p.isDescendantOf q = true ↔ q.segments <+: p.parent.segments := by
  have hpath := UserPath.parent_append_name hp
  rw [UserPath.isDescendantOf, Bool.and_eq_true, isPrefixOf_iff_prefix, decide_eq_true_eq, ← hpath, prefix_concat_iff]
  constructor
  · rintro ⟨heq | hbegins, hne⟩
    · exact absurd (UserPath.ext (hpath.symm.trans heq.symm)) hne
    · exact hbegins
  · refine fun hbegins => ⟨.inr hbegins, fun heq => ?_⟩
    rw [← heq] at hbegins
    rw [← hpath] at hbegins
    exact not_prefix_of_append hbegins

section

variable {restoreOriginal : Bool} {request : CopyRequest codec} {destination : UserPath codec.toNormalization}
  {sourceParent destinationParent : NamespaceFrame} {source : NamespaceEntry}
  (h : CopyFound codec at_ restoreOriginal request destination resolved sourceParent destinationParent source existing)
include h

theorem CopyFound.sourceKey : sourceParent.key =
    { area := request.fromArea, path := request.source.parent.segments } := by
  obtain ⟨trail, hparent⟩ := h.sourceFrame
  exact hparent.key

theorem CopyFound.destinationKey : destinationParent.key =
    { area := request.toArea, path := destination.parent.segments } := by
  obtain ⟨trail, hparent⟩ := h.destinationFrame
  exact hparent.key

theorem CopyFound.sourceName : source.name = request.source.name := (find_some h.sourceFound).2

theorem CopyFound.sourcePath : sourceParent.key.path ++ [source.name] = request.source.segments := by
  rw [h.sourceKey, h.sourceName, UserPath.parent_append_name h.sourceNotRoot]

theorem CopyFound.destinationPath : destinationParent.key.path ++ [resolved.name] = resolved.segments := by
  rw [h.destinationKey, ← h.target.path]

theorem CopyFound.source_fits (hd : (at_.root codec sourceParent.key.area).lookup sourceParent.key.path = some d) :
    Edit.Fits name d.children { before := some source } := by
  obtain ⟨trail, hparent⟩ := h.sourceFrame
  rw [hparent.eq_entry hd]
  exact fits_remove (find_some h.sourceFound).1

theorem CopyFound.placed_fits (hname : placed.name = resolved.name)
    (hd : (at_.root codec destinationParent.key.area).lookup destinationParent.key.path = some d)
    (hnodup : (d.children.map name).Nodup) : Edit.Fits name d.children
      { before := existing, after := some placed } := by
  obtain ⟨trail, hparent⟩ := h.destinationFrame
  exact h.target.fits hparent hname hd hnodup

theorem CopyFound.fresh_not_above (hexisting : existing = none) (hareas : request.fromArea = request.toArea) :
    ¬resolved.segments <+: request.source.parent.segments := by
  rintro ⟨rest, hrest⟩
  obtain ⟨sourceTrail, hsource⟩ := h.sourceFrame
  obtain ⟨destinationTrail, hparent⟩ := h.destinationFrame
  have hentry := hsource.entry
  rw [hareas, ← hrest, h.target.path, lookup_append, lookup_snoc hparent.entry, h.target.found, hexisting] at hentry
  cases hentry

/-- Source and destination in one directory: the removed entries go first. -/
theorem CopyFound.coherent_same {move : Bool} (hkey : sourceParent.key = destinationParent.key)
    (hseparate : move = true → existing.isSome → request.source ≠ resolved) (hname : placed.name = resolved.name)
    (hd : (at_.root codec sourceParent.key.area).lookup sourceParent.key.path = some d)
    (hnodup : (d.children.map name).Nodup) : Edit.Coherent name d.children
      ((copyEdits move sourceParent.key destinationParent.key source placed existing).map Prod.snd) := by
  obtain ⟨_, hsource⟩ := h.sourceFrame
  obtain ⟨_, hdestination⟩ := h.destinationFrame
  obtain rfl := hsource.eq_entry hd
  have hentry : destinationParent.entry = sourceParent.entry :=
    (hdestination.eq_entry (hkey ▸ hd)).symm
  have hfound := h.target.found
  rw [hentry] at hfound
  have hedits : (copyEdits move sourceParent.key destinationParent.key source placed existing).map Prod.snd =
      ((if move then [source] else []) ++ existing.toList).map (fun b => ({ before := some b } : DirectoryEdit)) ++
        [{ after := some placed }] := by
    unfold copyEdits
    cases move <;> cases existing <;> simp [hkey]
  rw [hedits]
  refine coherent_relocate (fun b hb => ?_) ?_ fun c hc hcname => ?_
  · rcases mem_append.mp hb with hb | hb
    · split_ifs at hb
      · rw [mem_singleton.mp hb]
        exact (find_some h.sourceFound).1
      · cases hb
    · exact (find_some (hfound.trans (Option.mem_toList.mp hb))).1
  · cases move with
    | false => cases existing <;> simp
    | true =>
      cases hexisting : existing with
      | none => simp
      | some e =>
        -- two entries of one name would be at one path
        have hne : source.name ≠ e.name := by
          intro heq
          refine hseparate rfl (by rw [hexisting]; rfl) (UserPath.ext ?_)
          rw [← h.sourcePath, ← h.destinationPath, hkey, heq, (find_some (hfound.trans hexisting)).2]
        simpa using hne
  · have hc' := find_of_mem hnodup hc
    rw [hcname, hname, hfound] at hc'
    rw [hc']
    simp

/-- Source and destination in different directories do not overlap, unless the destination replaces a
directory above the source. -/
theorem CopyFound.apart (hkey : sourceParent.key ≠ destinationParent.key) (hareas : request.fromArea = request.toArea)
    (hdestination : destination.isDescendantOf request.source = false)
    (hsource : existing.isSome → request.source.isDescendantOf resolved = false) :
    ¬request.source.segments <+: resolved.segments ∧ ¬resolved.segments <+: request.source.segments := by
  have hpaths : request.source.segments ≠ resolved.segments := by
    intro heq
    refine hkey ?_
    have hparents : request.source.parent.segments = resolved.parent.segments := congrArg dropLast heq
    rw [h.sourceKey, h.destinationKey, hareas, hparents, h.target.sibling]
  refine ⟨fun hbegins => ?_, fun hbegins => ?_⟩
  · rw [h.target.path, prefix_concat_iff, ← h.target.path] at hbegins
    have habove := hbegins.resolve_left hpaths
    rw [(UserPath.isDescendantOf_iff h.destinationNotRoot).mpr habove] at hdestination
    cases hdestination
  · rw [← UserPath.parent_append_name h.sourceNotRoot, prefix_concat_iff,
      UserPath.parent_append_name h.sourceNotRoot] at hbegins
    have habove := hbegins.resolve_left (Ne.symm hpaths)
    cases hexisting : existing with
    | none => exact h.fresh_not_above hexisting hareas habove
    | some e =>
      have := hsource (by rw [hexisting]; rfl)
      rw [(UserPath.isDescendantOf_iff h.sourceNotRoot).mpr habove] at this
      cases this

theorem CopyFound.places (hop : op.Relocates at_ source resolved) (hcontent : SameContent source placed)
    (hname : placed.name = resolved.name) : Places at_ op destinationParent.key placed :=
  ⟨resolved, by rw [hname, h.destinationPath], .inr ⟨source, hop, hcontent⟩⟩

end

variable {restoreOriginal : Bool} {request : CopyRequest codec} {destination : UserPath codec.toNormalization}
  {sourceParent destinationParent : NamespaceFrame}

/-- A pair of the operation `op` that edits the entry at the path of `key`, as the view has it. -/
structure PairAt (at_ : Attempt) (op : NamespaceOperation codec) (pair : FrameKey × DirectoryEdit) (key : FrameKey) :
    Prop where
  area : pair.1.area = key.area
  touches : ∃ n, pair.1.path ++ [n] = key.path ∧ ∀ m, Edit.Touches name pair.2 m ↔ m = n
  fits : ∀ d, (at_.root codec pair.1.area).lookup pair.1.path = some d → (d.children.map name).Nodup →
    Edit.Fits name d.children pair.2
  places : ∀ after ∈ pair.2.after, Places at_ op pair.1 after

theorem PairAt.path (h : PairAt at_ op pair key) (hn : Edit.Touches name pair.2 n) : pair.1.path ++ [n] = key.path := by
  obtain ⟨m, hpath, htouch⟩ := h.touches
  rw [(htouch n).mp hn, hpath]

variable {paths : List FrameKey}

theorem path_of_pair
    (h : List.Forall₂ (PairAt at_ op) pairs paths) (hpair : pair ∈ pairs) : ∃ key ∈ paths, PairAt at_ op pair key := by
  induction h with
  | nil => cases hpair
  | cons hfirst _ ih =>
    rcases mem_cons.mp hpair with rfl | hpair
    · exact ⟨_, .head _, hfirst⟩
    · obtain ⟨key, hkey, hat⟩ := ih hpair
      exact ⟨key, .tail _ hkey, hat⟩

theorem apartPairs_of_paths (h : List.Forall₂ (PairAt at_ op) pairs paths) (hapart : ApartPaths paths) :
    ApartPairs pairs := by
  induction h with
  | nil => exact .nil
  | cons hpair hrest ih =>
    obtain ⟨hfirst, htail⟩ := pairwise_cons.mp hapart
    refine pairwise_cons.mpr ⟨fun b hb n m hn hm harea => ?_, ih htail⟩
    obtain ⟨key, hkey, hb⟩ := path_of_pair hrest hb
    rw [hpair.path hn, hb.path hm]
    exact hfirst key hkey (by rw [← hpair.area, ← hb.area, harea])

theorem edits_of_pairs (h : List.Forall₂ (PairAt at_ op) pairs paths) (hapart : op.Apart at_ → ApartPaths paths)
    (hcommits : ∃ modifiedAt frames start, Commits codec at_ pairs modifiedAt frames start changes) :
    Edits at_ op changes pairs := by
  have hpair : ∀ pair ∈ pairs, ∃ key, PairAt at_ op pair key := fun pair hpair => by
    obtain ⟨key, _, hkey⟩ := path_of_pair h hpair
    exact ⟨key, hkey⟩
  refine ⟨hcommits, fun pair hmem => ?_, fun hop => ?_, fun hop => ?_⟩
  · obtain ⟨key, hkey⟩ := hpair pair hmem
    exact hkey.places
  · refine fitsView_of_apart (apartPairs_of_paths h (hapart hop)) fun pair hmem => ?_
    obtain ⟨key, hkey⟩ := hpair pair hmem
    exact hkey.fits
  · refine (apartPairs_of_paths h (hapart hop)).clear fun pair hmem => ?_
    obtain ⟨key, hkey⟩ := hpair pair hmem
    obtain ⟨n, _, htouch⟩ := hkey.touches
    exact ⟨n, (htouch n).mpr rfl⟩

def relocationEdits (move : Bool) (sourceKey destinationKey : FrameKey) (source placed : NamespaceEntry)
    (existing : Option NamespaceEntry) : List (FrameKey × DirectoryEdit) :=
  (if move then [(sourceKey, { before := some source })] else []) ++
    [(destinationKey, { before := existing, after := some placed })]

def relocationPaths (move : Bool) (request : CopyRequest codec) (resolved : UserPath codec.toNormalization) :
    List FrameKey :=
  (if move then [{ area := request.fromArea, path := request.source.segments }] else []) ++
    [{ area := request.toArea, path := resolved.segments }]

variable {move : Bool}

theorem CopyFound.paired {source : NamespaceEntry}
    (h : CopyFound codec at_ restoreOriginal request destination resolved sourceParent destinationParent
      source existing)
    (hop : op.Relocates at_ source resolved) (hcontent : SameContent source placed)
    (hname : placed.name = resolved.name) :
    List.Forall₂ (PairAt at_ op) (relocationEdits move sourceParent.key destinationParent.key source placed existing)
      (relocationPaths move request resolved) := by
  have hplaced : PairAt at_ op (destinationParent.key, { before := existing, after := some placed })
      { area := request.toArea, path := resolved.segments } := by
    refine ⟨by rw [h.destinationKey], ⟨resolved.name, h.destinationPath, fun m => touches_placed h.target.found hname⟩,
      fun d hd hnodup => h.placed_fits hname hd hnodup, fun after hafter => ?_⟩
    cases hafter
    exact h.places hop hcontent hname
  cases move with
  | false => exact .cons hplaced .nil
  | true =>
    refine .cons ⟨by rw [h.sourceKey], ⟨source.name, h.sourcePath, fun m => touches_removed⟩,
      fun d hd _ => h.source_fits hd, fun after hafter => ?_⟩ (.cons hplaced .nil)
    cases hafter

/-- A copy or move by its edits. A restore goes from one area to the other; any other request demands
that source and destination do not overlap within one area. -/
theorem copyOrMoveResolved_edits
    {outcome : CopyOutcome codec} (h : copyOrMoveResolved codec at_ move restoreOriginal request = .ok outcome)
    (hrelocates : ∀ source resolved, CopyRelocates codec at_ restoreOriginal request source resolved →
      op.Relocates at_ source resolved) (hrestore : request.fromArea = request.toArea → restoreOriginal = false)
    (hop : op.Apart at_ → restoreOriginal = false → (NamespaceOperation.copyOrMove move request).Apart at_) :
    ∃ pairs, Edits at_ op outcome.changes pairs := by
  obtain ⟨destination, sourceParent, destinationParent, sourceTrail, nodeID, trash, frames, start, hfound, hseparate,
    hcommits⟩ := copyOrMoveResolved_ok h
  obtain ⟨hcontent, hname⟩ :=
    @placedEntry_content codec move outcome.source sourceTrail outcome.resolved.name nodeID trash at_.now
  generalize placedEntry codec move outcome.source sourceTrail outcome.resolved.name nodeID trash at_.now = placed
    at hcommits hcontent hname
  have hrelocated := hrelocates _ _ hfound.relocates
  by_cases hkey : sourceParent.key = destinationParent.key
  · have hareas : request.fromArea = request.toArea := by
      rw [hfound.sourceKey, hfound.destinationKey] at hkey
      exact congrArg FrameKey.area hkey
    obtain ⟨_, hsep⟩ := hseparate (hrestore hareas)
    have hpairs : ∀ pair ∈ copyEdits move sourceParent.key destinationParent.key outcome.source placed outcome.existing,
        pair.1 = sourceParent.key ∧ ∀ after ∈ pair.2.after, after = placed := by
      unfold copyEdits
      rw [if_pos hkey]
      cases move <;> cases outcome.existing <;> simp
    have hkeys := fun pair hpair => (hpairs pair hpair).1
    refine ⟨_, ⟨_, frames, start, hcommits⟩, fun pair hpair after hafter => ?_, fun _ => fitsView_of_key hkeys
      fun d hd hnodup => ?_, fun _ => clear_of_key hkeys⟩
    · rw [hkeys pair hpair, hkey, (hpairs pair hpair).2 after hafter]
      exact hfound.places hrelocated hcontent hname
    · refine hfound.coherent_same hkey (fun _ hexisting heq => ?_) hname hd hnodup
      obtain ⟨hresolved, hreplace⟩ := hfound.target.replaced hexisting
      have hrename := (hsep hareas).same (heq.trans hresolved)
      rw [hreplace] at hrename
      cases hrename
  · rw [copyEdits, if_neg hkey] at hcommits
    refine ⟨_, edits_of_pairs (hfound.paired hrelocated hcontent hname) (fun hopApart => ?_) ⟨_, frames, start,
      hcommits⟩⟩
    cases move with
    | false => exact pairwise_singleton _ _
    | true =>
      refine pairwise_pair.mpr fun hareas => ?_
      obtain ⟨hdestination, hsep⟩ := hseparate (hrestore hareas)
      refine hfound.apart hkey hareas (hsep hareas).below fun hexisting => ?_
      obtain ⟨hresolved, hreplace⟩ := hfound.target.replaced hexisting
      rw [hresolved]
      exact hop hopApart (hrestore hareas) rfl hareas hreplace destination hdestination

theorem ApartPaths.perm {paths' : List FrameKey} (h : ApartPaths paths) (hperm : paths.Perm paths') :
    ApartPaths paths' :=
  (hperm.pairwise_iff fun {_ _} hab harea => (hab harea.symm).symm).mp h

theorem batchCopyOrMove_edits {specs : List (BatchMoveSpec codec)} {plans : List (BatchMovePlan codec)}
    (h : batchCopyOrMove codec at_ move specs = .ok (changes, plans)) :
    ∃ pairs, Edits at_ (.batchCopyOrMove move specs) changes pairs := by
  obtain ⟨hplans, frames, start, hcommits⟩ := batchCopyOrMove_ok h
  have hpairs : ∀ sub : List (BatchMovePlan codec), (∀ plan ∈ sub, PlanFound codec at_ move plan ∧ plan.spec ∈ specs) →
      List.Forall₂ (PairAt at_ (.batchCopyOrMove move specs)) (sub.flatMap (BatchMovePlan.edits codec move))
        (sub.flatMap fun plan => relocationPaths move plan.spec.toCopyRequest plan.resolved) := by
    intro sub hsub
    induction sub with
    | nil => exact .nil
    | cons plan rest ih =>
      obtain ⟨hplan, hrest⟩ := forall_mem_cons.mp hsub
      obtain ⟨⟨destination, hfound⟩, _, ⟨nodeID, trash, hplaced⟩⟩ := hplan.1
      obtain ⟨hcontent, hname⟩ := @batchPlaced_content codec move plan.source plan.resolved.name nodeID trash at_.now
      rw [← hplaced] at hcontent hname
      have hrelocates : (NamespaceOperation.batchCopyOrMove move specs).Relocates at_ plan.source plan.resolved :=
        ⟨plan.spec, hplan.2, hfound.relocates⟩
      exact rel_append (hfound.paired hrelocates hcontent hname) (ih hrest)
  refine ⟨_, edits_of_pairs (hpairs plans (planBatch_ok hplans)) (fun hop => ?_) ⟨_, frames, start, hcommits⟩⟩
  refine (hop plans hplans).perm (.flatMap_left plans fun plan _ => ?_)
  cases move with
  | false => exact .refl _
  | true => exact .swap _ _ _

theorem Commits.checked (h : Commits codec at_ pairs modifiedAt frames start changes) (hpair : pair ∈ pairs)
    {after : NamespaceEntry} (hafter : after ∈ pair.2.after) : checkNamespaceEntry codec after = .ok () := by
  obtain ⟨g, hg, hkey⟩ := group_of_pair hpair
  obtain ⟨f, _, _, updated, _, happly⟩ := h.published.group g hg
  have hedit : pair.2 ∈ g.edits := by
    rw [edits_of_group hg, mem_editsFor, hkey]
    exact hpair
  exact (applyDirectoryEdits_ok happly).placed pair.2 hedit after hafter

theorem fields_of_checked (h : checkNamespaceEntry codec e = .ok ()) :
    e.entry.logicalVersion ≠ "" ∧ 0 ≤ e.entry.size := by
  obtain ⟨_, h, _⟩ := bind_ok h
  obtain ⟨_, h, _⟩ := bind_ok h
  rw [rejectIf_eq_ok_iff] at h
  simp only [Bool.or_eq_false_iff, decide_eq_false_iff_not, Int.not_lt] at h
  exact ⟨h.1.1.2, h.1.2⟩

variable {transactionID : String}

theorem sound_uploadedFile {index : Nat} {upload : VerifiedUpload} {now : Time}
    (hsize : 0 ≤ upload.size) : Sound codec (uploadedFile codec transactionID index upload n now) :=
  ⟨fun hd => by simp [isDirectory, entry, uploadedFile, DirectoryEntry.stamped] at hd, fun _ => ⟨rfl, hsize⟩⟩

theorem completeUploadBatch_edits {uploads : List VerifiedUpload}
    (h : completeUploadBatch codec at_ area transactionID uploads = .ok changes) :
    ∃ pairs, Edits at_ (.completeUploadBatch area transactionID uploads : NamespaceOperation codec) changes pairs := by
  obtain ⟨plans, frames, start, huploads, hfound, hnodup, hcommits⟩ := completeUploadBatch_ok h
  have hpairs : List.Forall₂ (PairAt at_ (.completeUploadBatch area transactionID uploads : NamespaceOperation codec))
      (uploadPairs codec plans) (plans.map fun plan => { area, path := plan.path.segments }) := by
    rw [uploadPairs, forall₂_map_left_iff, forall₂_map_right_iff, forall₂_same]
    intro plan hplan
    have hf := hfound plan hplan
    obtain ⟨index, hplaced⟩ := hf.placed
    have hname : plan.placed.name = plan.path.name := by rw [hplaced]; rfl
    have hpair : (plan.parent.key, { before := plan.existing, after := some plan.placed }) ∈ uploadPairs codec plans :=
      mem_map_of_mem hplan
    have hchecked := hcommits.checked hpair rfl
    have hkey := hf.parent.key
    refine ⟨by rw [hkey], ⟨plan.path.name, ?_, fun m => touches_placed hf.found hname⟩, fun d hd hnd => ?_,
      fun after hafter => ?_⟩
    · rw [hkey, UserPath.parent_append_name hf.notRoot]
    · obtain rfl := hf.parent.eq_entry hd
      exact fits_of_find hnd (hname ▸ hf.found)
    · cases hafter
      refine ⟨plan.path, by rw [hname, hkey, UserPath.parent_append_name hf.notRoot], .inl ?_⟩
      have hsize := (fields_of_checked hchecked).2
      rw [hplaced] at hsize ⊢
      exact ⟨rfl, sound_uploadedFile hsize⟩
  have hpaths : (plans.map fun plan => ({ area, path := plan.path.segments } : FrameKey)) =
      uploadPaths codec area uploads := by
    rw [uploadPaths, ← huploads, map_map]
    exact map_congr_left fun plan hplan => by rw [Function.comp_apply, (hfound plan hplan).path]
  exact ⟨_, edits_of_pairs hpairs (fun hop => hpaths ▸ hop) ⟨_, frames, start, hcommits⟩⟩

theorem edits_of_run (h : op.run codec at_ = .ok changes) : ∃ pairs, Edits at_ op changes pairs := by
  cases op with
  | createDirectory request =>
    obtain ⟨⟨_, resolved⟩, hrun, rfl⟩ := map_eq_ok_iff.mp h
    exact createDirectory_edits hrun
  | publishFile request =>
    obtain ⟨⟨_, resolved⟩, hrun, rfl⟩ := map_eq_ok_iff.mp h
    exact publishFile_edits hrun
  | copyOrMove move request =>
    obtain ⟨outcome, hrun, rfl⟩ := map_eq_ok_iff.mp h
    exact copyOrMoveResolved_edits hrun (fun _ _ hr => hr) (fun _ => rfl) fun hop _ => hop
  | restoreFromTrash request =>
    obtain ⟨outcome, hrun, rfl⟩ := map_eq_ok_iff.mp h
    exact copyOrMoveResolved_edits hrun (fun _ _ hr => hr)
      (fun hareas => by cases hareas) fun _ hrestore => by cases hrestore
  | delete requireTrash request => exact deleteResolved_edits h
  | batchCopyOrMove move specs =>
    obtain ⟨⟨_, plans⟩, hrun, rfl⟩ := map_eq_ok_iff.mp h
    exact batchCopyOrMove_edits hrun
  | batchDeleteFromTrash trashIDs => exact batchDeleteFromTrash_edits h
  | completeUploadBatch area transactionID uploads => exact completeUploadBatch_edits h

end EndlessFS
