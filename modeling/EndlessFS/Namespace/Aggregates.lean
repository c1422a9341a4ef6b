import EndlessFS.Namespace.Runs

/-!
# EndlessFS.Namespace.Aggregates

Directory aggregates along runs of the namespace.

* `NamespaceEntry.filesBelow`: the files a directory is about.
* `size_eq_filesBelow`, `files_eq_filesBelow`: aggregates that are exact for the direct children of
  every directory are exact for the whole tree.
* `Reachable.sound`: operations whose paths do not overlap keep every directory exact.
-/

namespace EndlessFS

open NamespaceEntry
open NamespaceEntry (name)

/-! ## The files below a directory -/

mutual

def NamespaceEntry.filesBelow : NamespaceEntry → List DirectoryEntry
  | .mk node children =>
    match node.entry.kind with
    | .entryFile => [node.entry]
    | .entryDirectory => filesBelowAll children

def filesBelowAll : List NamespaceEntry → List DirectoryEntry
  | [] => []
  | e :: rest => e.filesBelow ++ filesBelowAll rest

end

variable {codec : NamespaceCodec} {owner : String} {e : NamespaceEntry}

theorem filesBelow_of_directory (h : e.isDirectory = true) : e.filesBelow = filesBelowAll e.children := by
  obtain ⟨node, children⟩ := e
  have hkind : node.entry.kind = .entryDirectory := of_decide_eq_true h
  rw [filesBelow, hkind]
  rfl

theorem filesBelow_of_file (h : e.isDirectory = false) : e.filesBelow = [e.entry] := by
  obtain ⟨node, children⟩ := e
  have hkind : node.entry.kind = .entryFile := by
    cases hk : node.entry.kind with
    | entryFile => rfl
    | entryDirectory => simp [isDirectory, entry, hk] at h
  rw [filesBelow, hkind]
  rfl

theorem Sound.children {c : NamespaceEntry} (h : e.Everywhere (Sound codec)) (hc : c ∈ e.children) :
    c.Everywhere (Sound codec) := by
  cases hd : e.isDirectory with
  | true => exact h.below (lookup_child (h.here.directory hd).names hc)
  | false =>
    rw [(h.here.file hd).1] at hc
    cases hc

section

variable {f g : DirectoryEntry → Int}
  (hdirectory : ∀ e, Sound codec e → e.isDirectory = true → f e.entry = (e.children.map fun c => f c.entry).sum)
  (hfile : ∀ e : NamespaceEntry, e.isDirectory = false → f e.entry = g e.entry)
include hdirectory hfile

set_option linter.unusedSectionVars false in
mutual

theorem total_filesBelow : ∀ e : NamespaceEntry, e.Everywhere (Sound codec) → f e.entry = (e.filesBelow.map g).sum
  | .mk node children, h => by
    cases hd : (mk node children).isDirectory with
    | true =>
      rw [filesBelow_of_directory hd, hdirectory _ h.here hd]
      exact total_filesBelowAll children fun c hc => Sound.children h hc
    | false => simp [filesBelow_of_file hd, hfile _ hd]

theorem total_filesBelowAll : ∀ items : List NamespaceEntry, (∀ c ∈ items, c.Everywhere (Sound codec)) →
    (items.map fun c => f c.entry).sum = ((filesBelowAll items).map g).sum
  | [], _ => rfl
  | c :: rest, h => by
    rw [filesBelowAll, List.map_cons, List.sum_cons, List.map_append, List.sum_append,
      total_filesBelow c (h c (.head _)), total_filesBelowAll rest fun d hd => h d (.tail _ hd)]

end

end

theorem size_eq_filesBelow (h : e.Everywhere (Sound codec)) :
    e.entry.size = (e.filesBelow.map DirectoryEntry.size).sum :=
  total_filesBelow (fun _ hsound hd => (hsound.directory hd).size) (fun _ _ => rfl) e h

theorem files_eq_filesBelow (h : e.Everywhere (Sound codec)) : e.entry.files = (e.filesBelow.length : Int) := by
  have htotal := total_filesBelow (f := DirectoryEntry.files) (g := fun _ => 1) (fun e hsound hd => ?_)
    (fun e hd => ?_) e h
  · simpa using htotal
  · rw [← (hsound.directory hd).files, DirectoryEntry.files, show e.entry.kind =
      .entryDirectory from of_decide_eq_true hd]
  · cases hk : e.entry.kind with
    | entryFile => rw [DirectoryEntry.files, hk]
    | entryDirectory => simp [isDirectory, hk] at hd

/-! ## Runs -/

def SoundView (codec : NamespaceCodec) (owner : String) (view : NamespaceView) : Prop :=
  ∀ area, (viewRoot codec owner view area).isDirectory = true ∧
    (viewRoot codec owner view area).Everywhere (Sound codec)

theorem soundView_empty : SoundView codec owner .empty := by
  intro area
  have hroot : viewRoot codec owner .empty area = emptyRoot codec owner area := by cases area <;> rfl
  rw [hroot]
  exact ⟨rfl, everywhere_of_children (sound_emptyRoot area) fun c hc => by cases hc⟩

theorem names_of_sound (h : Sound codec e) : (e.children.map name).Nodup := by
  cases hd : e.isDirectory with
  | true => exact (h.directory hd).names
  | false => simp [(h.file hd).1]

variable {op : NamespaceOperation codec} {at_ : Attempt}

theorem Places.sound {key : FrameKey} {placed : NamespaceEntry}
    (h : Places at_ op key placed) (hview : SoundView codec at_.owner at_.view) : placed.Everywhere (Sound codec) := by
  obtain ⟨resolved, _, ⟨hchildren, hsound⟩ | ⟨source, hsource, hcontent⟩⟩ := h.path
  · exact everywhere_of_children hsound fun c hc => by rw [hchildren] at hc; cases hc
  · obtain ⟨area, path, hlookup⟩ := hsource.source
    have hall := (hview area).2.below hlookup
    refine everywhere_of_children (hcontent.sound hall.here) fun c hc => ?_
    rw [hcontent.children] at hc
    exact Sound.children hall hc

variable {changes : Changes} {pairs : List (FrameKey × DirectoryEdit)}

theorem Edits.sound (h : Edits at_ op changes pairs) (hop : op.Apart at_)
    (hview : SoundView codec at_.owner at_.view) {area : Area} {top : NamespaceEntry}
    (htop : changes { area, path := [] } = some top) : top.isDirectory = true ∧ top.Everywhere (Sound codec) := by
  obtain ⟨modifiedAt, frames, start, hcommits⟩ := h.commits
  have hcarried := hcommits.published.carried
  have hdirectories : ∀ f ∈ frames, f.entry.isDirectory = true := by
    intro f hf
    by_cases hpath : f.path = []
    · have hentry := hcarried.view.entry f hf
      rw [hpath, lookup_nil] at hentry
      rw [← Option.some.inj hentry]
      exact (hview f.area).1
    · exact hcommits.directories f hf hpath
  have hgroups : Groups codec (at_.root codec) (groupEdits pairs) := by
    refine ⟨(groupEdits_keys pairs).1, fun g hg d hd => ?_, fun g hg edit hedit after hafter => ?_⟩
    · rw [edits_of_group hg]
      exact h.fits hop g.key d hd (names_of_sound ((hview g.key.area).2 _ _ hd))
    · rw [edits_of_group hg, mem_editsFor] at hedit
      exact (h.places _ hedit after hafter).sound hview
  refine ⟨?_, hcommits.published.sound hgroups (h.clear hop).groups (fun area => (hview area).2) hdirectories htop⟩
  obtain ⟨f, hf, hkey⟩ := hcarried.framed htop
  have hsame := (hcarried.same hf (hkey ▸ htop)).kind
  have hdir := hdirectories f hf
  simp only [isDirectory, decide_eq_true_eq] at hdir ⊢
  exact hsame.trans hdir

theorem Edits.soundView (h : Edits at_ op changes pairs) (hop : op.Apart at_)
    (hview : SoundView codec at_.owner at_.view) {current : NamespaceView}
    (hcurrent : SoundView codec at_.owner current) :
    SoundView codec at_.owner (current.publish changes) := by
  intro area
  unfold viewRoot
  rw [NamespaceView.stored_publish]
  cases htop : changes { area, path := [] } with
  | some top => exact h.sound hop hview htop
  | none => exact hcurrent area

theorem Reachable.sound {view : NamespaceView}
    (h : Reachable codec owner (fun at_ op => op.Apart at_) view) : SoundView codec owner view := by
  induction h with
  | empty => exact soundView_empty
  | @step view current now op changes _ _ hop hrun _ ihview ihcurrent =>
    obtain ⟨pairs, hedits⟩ := edits_of_run hrun
    exact hedits.soundView hop ihview ihcurrent

/-- In every run whose operations write paths that do not overlap, the aggregates of every directory are
those of the files below it and of its children. -/
theorem aggregates_exact {view : NamespaceView} (h : Reachable codec owner (fun at_ op => op.Apart at_) view)
    (area : Area) (path : List String) (d : NamespaceEntry)
    (hd : (viewRoot codec owner view area).lookup path = some d) (hdirectory : d.isDirectory = true) :
    d.entry.size = (d.filesBelow.map DirectoryEntry.size).sum ∧ d.entry.fileCount = d.filesBelow.length ∧
      d.node.entryCount = d.children.length ∧ (∃ accumulator, d.node.contentAccumulator = some accumulator ∧
        childrenIdentity codec d.children = .ok (accumulator, d.entry.contentDigest)) ∧
      (0 ≤ d.entry.size ∧ d.entry.size ≤ maxInt64) ∧ (0 ≤ d.entry.fileCount ∧ d.entry.fileCount ≤ maxInt64) := by
  have hall := (h.sound area).2.below hd
  have hexact := hall.here.directory hdirectory
  have hfiles := files_eq_filesBelow hall
  rw [DirectoryEntry.files, show d.entry.kind = .entryDirectory by simpa [NamespaceEntry.isDirectory] using hdirectory]
    at hfiles
  exact ⟨size_eq_filesBelow hall, hfiles, hexact.count, hexact.identity, hexact.sizeRange, hexact.filesRange⟩

/-! ## A move onto a directory around its source -/

namespace Overlap

def sizes : NamespaceCodec where
  nfc := id
  idempotent _ := rfl
  contribution item := BitVec.ofInt 256 item.size
  accumulatorDigest _ _ := "digest"
  entryVersion _ := "version"
  digest _ := "node"
  encodes _ := true

def pathA : UserPath sizes.toNormalization := ⟨["a"], fun _ _ => rfl, by decide +kernel⟩
def pathB : UserPath sizes.toNormalization := ⟨["b"], fun _ _ => rfl, by decide +kernel⟩
def pathAX : UserPath sizes.toNormalization := ⟨["a", "x"], fun _ _ => rfl, by decide +kernel⟩
def pathAY : UserPath sizes.toNormalization := ⟨["a", "y"], fun _ _ => rfl, by decide +kernel⟩

def makeA : NamespaceOperation sizes :=
  .createDirectory { area := .areaLive, path := pathA, conflict := .conflictFail, expectedVersion := "",
                     mutationID := "m" }

def bytes (size : Int) : DirectoryEntry :=
  { name := "", kind := .entryFile, blobID := "blob", size := size, md5 := "md5", crc32c := "crc32c",
    mediaType := "text", modifiedAt := 1 }

def putFile (path : UserPath sizes.toNormalization) (size : Int) : NamespaceOperation sizes :=
  .publishFile { area := .areaLive, path := path, conflict := .conflictFail, expected := "", mutationID := "m",
                 requestFingerprint := "f", entry := bytes size }

/-- Directory `/a` with the files `x` and `y`, and the file `/b`. -/
def tree : NamespaceView :=
  (((NamespaceView.empty.after sizes "owner" 1 makeA).after sizes "owner" 2 (putFile pathAX 1)).after sizes "owner" 3
    (putFile pathAY 2)).after sizes "owner" 4 (putFile pathB 4)

/-- Move `/a/x` to `/a`, replacing it. -/
def moveUp : NamespaceOperation sizes :=
  .copyOrMove true { fromArea := .areaLive, toArea := .areaLive, source := pathAX, destination := some pathA,
                     conflict := .conflictReplace, expectedSource := "", expectedTarget := "version",
                     operationID := "op" }

/-- Move `/a/x` onto `/b`. -/
def moveOnto : NamespaceOperation sizes :=
  .copyOrMove true { fromArea := .areaLive, toArea := .areaLive, source := pathAX, destination := some pathB,
                     conflict := .conflictReplace, expectedSource := "", expectedTarget := "version",
                     operationID := "op" }

def moved : NamespaceView := tree.after sizes "owner" 5 moveOnto

theorem reachable_tree {condition : Attempt → NamespaceOperation sizes → Prop}
    (hmake : ∀ at_, condition at_ makeA) (hput : ∀ at_ path size, condition at_ (putFile path size)) :
    Reachable sizes "owner" condition tree :=
  (((Reachable.empty.after 1 makeA (hmake _)).after 2 (putFile pathAX 1) (hput _ _ _)).after 3 (putFile pathAY 2)
    (hput _ _ _)).after 4 (putFile pathB 4) (hput _ _ _)

/-- The tree of the example has the aggregates of its files, also after a file of the directory was moved onto another.
-/
theorem aggregates_of_tree : ∃ root, moved.live = some root ∧ root.isDirectory = true ∧ root.entry.size = 3 ∧
    root.entry.size = (root.filesBelow.map DirectoryEntry.size).sum := by
  have hreachable : Reachable sizes "owner" (fun at_ op => op.Apart at_) moved := by
    refine (reachable_tree (fun _ => trivial) fun _ _ _ => trivial).after 5
      moveOnto fun _ _ _ destination hdestination => ?_
    obtain rfl := Option.some.inj hdestination
    decide +kernel
  have hroot : moved.live.isSome = true := by decide +kernel
  obtain ⟨root, hroot⟩ := Option.isSome_iff_exists.mp hroot
  have hlookup : (viewRoot sizes "owner" moved .areaLive).lookup [] = some root := by
    simp [viewRoot, NamespaceView.stored, hroot]
  have hdirectory : moved.live.map NamespaceEntry.isDirectory = some true := by decide +kernel
  have hsize : moved.live.map (fun e => e.entry.size) = some 3 := by decide +kernel
  rw [hroot] at hdirectory hsize
  have hdirectory := Option.some.inj hdirectory
  exact ⟨root, hroot, hdirectory, Option.some.inj hsize,
    (aggregates_exact hreachable .areaLive [] root hlookup hdirectory).1⟩

/-- After the move the root claims four bytes, while its files have six. -/
theorem aggregates_wrong : ∃ view, Reachable sizes "owner" (fun _ _ => True) view ∧
    view.live.map (fun root => (root.isDirectory, root.entry.size, (root.filesBelow.map DirectoryEntry.size).sum)) =
      some (true, 4, 6) := by
  refine ⟨tree.after sizes "owner" 5 moveUp, Reachable.after ?_ 5 moveUp trivial, by decide +kernel⟩
  exact reachable_tree (fun _ => trivial) fun _ _ _ => trivial

end Overlap

end EndlessFS
