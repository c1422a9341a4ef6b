import EndlessFS.Namespace.Contents
import EndlessFS.Namespace.Aggregates

/-!
# EndlessFS.Namespace.Move

What a move does to the two trees of a view.

* `CopyFound.contents_moved`: the trees after a move, path by path. The one exception to what a move
  should do is a destination that replaces a directory the source lies in: propagation puts the old
  directory, without the source, back over the placed entry.
* `Moved`, `Clobbers`: what a move should do, and when it does something else.
* `delete_deletes`, `createDirectory_creates`, `publishFile_publishes`, `copy_copies`: the paths with another subtree.
-/

namespace EndlessFS

open Edit List
open NamespaceEntry (name)

variable {codec : NamespaceCodec}

theorem prefix_cases {p q rest : List String} {a n : String} (h : p ++ [a] <+: q ++ n :: rest) :
    (p = q ∧ a = n) ∨ p ++ [a] <+: q ∨ q ++ [n] <+: p := by
  have hother : q ++ [n] <+: q ++ n :: rest := ⟨rest, by simp⟩
  have hinj : p ++ [a] = q ++ [n] → p = q ∧ a = n := by
    intro heq
    obtain ⟨hp, ha⟩ := append_inj' heq rfl
    exact ⟨hp, singleton_inj.mp ha⟩
  rcases prefix_or_prefix_of_prefix h hother with hle | hle
  · rcases prefix_concat_iff.mp hle with heq | hle
    · exact .inl (hinj heq)
    · exact .inr (.inl hle)
  · rcases prefix_concat_iff.mp hle with heq | hle
    · exact .inl (hinj heq.symm)
    · exact .inr (.inr hle)

variable {move : Bool} {sourceKey destinationKey key : FrameKey} {source placed : NamespaceEntry}
  {existing : Option NamespaceEntry} {pairs : List (FrameKey × DirectoryEdit)} {edit : DirectoryEdit} {n : String}

/-- The edits of the directory at `key` that are together one edit. -/
structure OneEdit (pairs : List (FrameKey × DirectoryEdit)) (key : FrameKey) (edit : DirectoryEdit) : Prop where
  mem : key ∈ pairs.map Prod.fst
  keys : ∀ pair ∈ pairs, pair.1 = key
  edits : ∀ items, applyAll name items (pairs.map Prod.snd) = apply name items edit

theorem OneEdit.single : OneEdit [(key, edit)] key edit := ⟨by simp, by simp, fun _ => rfl⟩

-- within one directory a copy removes what it replaces by an edit of its own
theorem OneEdit.copied : OneEdit (copyEdits false sourceKey destinationKey source placed existing) destinationKey
    { before := existing, after := some placed } := by
  by_cases hsame : sourceKey = destinationKey
  · subst hsame
    cases existing <;> exact ⟨by simp [copyEdits], by simp [copyEdits], fun _ => by simp only [copyEdits, if_true]; rfl⟩
  · rw [copyEdits, if_neg hsame]
    exact .single

theorem OneEdit.find (h : OneEdit pairs key edit) (hafter : ∀ a ∈ edit.after, a.name = n)
    (htouch : ∀ m, Touches name edit m ↔ m = n) (items : List NamespaceEntry) (k : FrameKey) (m : String) :
    find name (applyAll name items (editsFor pairs k)) m = if k = key ∧
      m = n then edit.after else find name items m := by
  by_cases hkey : k = key
  · rw [hkey, editsFor_of_key h.keys, h.edits]
    by_cases hm : m = n
    · rw [if_pos ⟨rfl, hm⟩, find_apply (hm ▸ hafter) ((htouch m).mpr hm)]
    · rw [if_neg fun hc => hm hc.2, find_apply_untouched fun ht => hm ((htouch m).mp ht)]
  · have hnone : editsFor pairs k = [] := by simp +contextual [editsFor, h.keys, Ne.symm hkey]
    rw [hnone, if_neg fun hc => hkey hc.1]
    rfl

theorem copyEdits_true : copyEdits true sourceKey destinationKey source placed existing =
    (sourceKey, { before := some source }) :: copyEdits false sourceKey destinationKey source placed existing := by
  unfold copyEdits
  split <;> rfl

/-- The children of a directory after the edits of a copy or move. -/
theorem find_copyEdits {parent : NamespaceEntry} (hfound : find name parent.children n = existing)
    (hname : placed.name = n) (items : List NamespaceEntry) (key : FrameKey) (m : String) : find name
        (applyAll name items (editsFor (copyEdits move sourceKey destinationKey source placed existing) key)) m =
      if key = destinationKey ∧ m = n then some placed
      else if move = true ∧ key = sourceKey ∧ m = source.name then none else find name items m := by
  have hcopied := @OneEdit.find _ _ _ _ (@OneEdit.copied sourceKey destinationKey source placed existing)
    (fun _ ha => Option.some.inj ha ▸ hname) fun m => touches_placed hfound hname
  cases move with
  | false => simp [hcopied]
  | true =>
    have hfirst : applyAll name items (editsFor (copyEdits true sourceKey destinationKey source placed existing) key) =
        applyAll name (if key = sourceKey then apply name items { before := some source } else items)
          (editsFor (copyEdits false sourceKey destinationKey source placed existing) key) := by
      rw [copyEdits_true]
      by_cases hkey : key = sourceKey
      · simp [editsFor, applyAll, hkey]
      · simp [editsFor, hkey, Ne.symm hkey]
    rw [hfirst, hcopied]
    by_cases hkey : key = sourceKey <;> simp [hkey, apply, putOption, eraseOption, find_erase]

theorem mem_copyEdits {pair : FrameKey × DirectoryEdit}
    (h : pair ∈ copyEdits move sourceKey destinationKey source placed existing) :
    pair.1 = destinationKey ∨ move = true ∧ pair.1 = sourceKey := by
  cases move with
  | false => exact .inl (OneEdit.copied.keys pair h)
  | true =>
    rw [copyEdits_true, mem_cons] at h
    rcases h with rfl | h
    · exact .inr ⟨rfl, rfl⟩
    · exact .inl (OneEdit.copied.keys pair h)

theorem destinationKey_mem : destinationKey ∈ (copyEdits move sourceKey destinationKey source placed existing).map
    Prod.fst := by
  cases move with
  | false => exact OneEdit.copied.mem
  | true => exact copyEdits_true ▸ .tail _ OneEdit.copied.mem

variable {at_ : Attempt} {resolved : UserPath codec.toNormalization} {modifiedAt : Time} {frames : List NamespaceFrame}
  {start changes : Changes}

theorem contents_of_root {area : Area} {path : List String} {d : NamespaceEntry}
    (h : (at_.root codec area).lookup path = some d) : contents codec at_.owner at_.view area path = some d.held :=
  congrArg (Option.map NamespaceEntry.held) h

section

variable (h : Commits codec at_ pairs modifiedAt frames start changes) {area : Area}

include h

/-- A path that no edit reaches keeps what it holds. -/
theorem Commits.contents_off {path : List String} (hsame : ∀ q n rest, path = q ++ n :: rest →
      (∀ pair ∈ pairs, pair.1.area = area → ¬q ++ [n] <+: pair.1.path) → ∀ items,
      find name (applyAll name items (editsFor pairs { area, path := q })) n = find name items n) :
    contents codec at_.owner (at_.view.publish changes) area path = contents codec at_.owner at_.view area path := by
  cases h.at_path at_.view area path with
  | outside _ hroot => rw [contents, hroot, contents]
  | through d c pair _ _ _ hd hc hheld =>
    rw [contents_of_root hd, contents, NamespaceEntry.contents, hc, Option.map_some, hheld]
  | below d q n rest _ hpath _ _ _ hd hoff hnew =>
    rw [contents, NamespaceEntry.contents, hnew, hsame q n rest hpath hoff, ← NamespaceEntry.lookup_cons, hpath]
    exact (NamespaceEntry.contents_append hd (n :: rest)).symm

/-- What is below an edited name, on no way to an edited directory. -/
theorem Commits.lookup_at (after : Option NamespaceEntry) {q rest : List String}
    (hkey : { area, path := q } ∈ pairs.map Prod.fst)
    (hclear : ∀ pair ∈ pairs, pair.1.area = area → ¬q ++ [n] <+: pair.1.path)
    (hfind : ∀ items, find name (applyAll name items (editsFor pairs { area, path := q })) n = after) :
    (viewRoot codec at_.owner (at_.view.publish changes) area).lookup (q ++ [n] ++ rest) =
      after.bind (·.lookup rest) := by
  obtain ⟨pair, hpair, hkey⟩ := mem_map.mp hkey
  cases h.at_path at_.view area (q ++ [n] ++ rest) with
  | outside hareas _ => exact absurd (by rw [hkey]) (hareas pair hpair)
  | through _ _ other hother harea hbegins =>
    exact absurd ((prefix_append _ _).trans hbegins) (hclear other hother harea)
  | below d q' m rest' other hpath hother harea hbegins _ hoff hnew =>
    rcases prefix_cases (hpath ▸ prefix_append (q ++ [n]) rest) with ⟨rfl, rfl⟩ | hle | hle
    · obtain rfl : rest = rest' := by simpa using hpath
      rw [hnew, hfind]
    · exact absurd (hle.trans hbegins) (hclear other hother harea)
    · exact absurd (by rw [hkey]; exact hle) (hoff pair hpair (by rw [hkey]))

end

/-- Every path of the trees after a move. -/
theorem CopyFound.contents_moved {restoreOriginal : Bool} {request : CopyRequest codec}
    {destination : UserPath codec.toNormalization} {sourceParent destinationParent : NamespaceFrame}
    (h : CopyFound codec at_ restoreOriginal request destination resolved sourceParent destinationParent
      source existing)
    (hcontent : SameContent source placed) (hname : placed.name = resolved.name)
    (hseparate : request.fromArea = request.toArea → ¬request.source.segments <+: destination.parent.segments)
    (hcommits : Commits codec at_ (copyEdits true sourceParent.key destinationParent.key source placed existing)
      modifiedAt
      frames start changes) (area : Area) (path : List String) :
    contents codec at_.owner (at_.view.publish changes) area path = if area = request.toArea ∧
    resolved.segments <+: path ∧
          ¬(request.fromArea = request.toArea ∧ resolved.segments <+: request.source.parent.segments) then
        source.contents (path.drop resolved.segments.length)
      else if area = request.fromArea ∧ request.source.segments <+: path then none
      else contents codec at_.owner at_.view area path := by
  rw [h.sourceKey, h.destinationKey] at hcommits
  have hskey : (⟨request.fromArea, request.source.parent.segments⟩, { before := some source }) ∈ copyEdits true
      ⟨request.fromArea, request.source.parent.segments⟩ ⟨request.toArea, destination.parent.segments⟩ source placed
        existing :=
    copyEdits_true ▸ .head _
  have hsource := UserPath.parent_append_name h.sourceNotRoot
  have hresolved := h.target.path.symm
  split_ifs with hto hfrom
  · obtain ⟨rfl, ⟨rest, rfl⟩, hclear⟩ := hto
    rw [drop_left, ← hcontent.contents rest, ← hresolved, contents, NamespaceEntry.contents,
      hcommits.lookup_at (some placed) destinationKey_mem (fun pair hpair harea hle => ?_) fun items => ?_]
    · rfl
    · rcases mem_copyEdits hpair with hkey | ⟨_, hkey⟩ <;> rw [hkey] at harea hle
      · exact not_prefix_of_append hle
      · exact hclear ⟨harea, hresolved ▸ hle⟩
    · rw [find_copyEdits h.target.found hname, if_pos ⟨rfl, rfl⟩]
  · obtain ⟨rfl, rest, rfl⟩ := hfrom
    rw [← hsource, contents, NamespaceEntry.contents, hcommits.lookup_at none (mem_map.mpr ⟨_, hskey, rfl⟩)
      (fun pair hpair harea hle => ?_) fun items => ?_]
    · rfl
    · rcases mem_copyEdits hpair with hkey | ⟨_, hkey⟩ <;> rw [hkey] at harea hle
      · exact hseparate harea.symm (hsource ▸ hle)
      · exact not_prefix_of_append hle
    · rw [find_copyEdits h.target.found hname, if_neg, if_pos ⟨rfl, rfl, h.sourceName.symm⟩]
      rintro ⟨hkey, hn⟩
      rw [FrameKey.mk.injEq] at hkey
      -- the source is where the entry is placed
      have hat : request.source.segments = resolved.segments := by rw [← hsource, ← hresolved, hn, hkey.2]
      exact hto ⟨hkey.1, hat ▸ prefix_append _ _, fun hc => not_prefix_of_append (hsource ▸ hat ▸ hc.2)⟩
  · refine hcommits.contents_off fun q n rest hpath hoff items => ?_
    rw [find_copyEdits h.target.found hname, if_neg, if_neg]
    · rintro ⟨-, hkey, rfl⟩
      cases hkey
      exact hfrom ⟨rfl, by rw [hpath, ← hsource, h.sourceName]; exact ⟨rest, by simp⟩⟩
    · rintro ⟨hkey, rfl⟩
      cases hkey
      rw [hresolved] at hoff
      exact hto ⟨rfl, ⟨rest, by rw [hpath, ← hresolved]; simp⟩, fun hc => hoff _ hskey hc.1 hc.2⟩

/-! ## Moves -/

/-- A move of the request to the path `resolved` did what a move does. -/
structure Moved (codec : NamespaceCodec) (at_ : Attempt) (request : CopyRequest codec)
    (resolved : UserPath codec.toNormalization) (moved : NamespaceView) : Prop where
  /-- The resolved path holds the subtree of the source, in place of what it held. -/
  holds : ∀ rest, contents codec at_.owner moved request.toArea (resolved.segments ++ rest) =
    contents codec at_.owner at_.view request.fromArea (request.source.segments ++ rest)
  gone : ¬(request.fromArea = request.toArea ∧ request.source = resolved) →
    contents codec at_.owner moved request.fromArea request.source.segments = none
  others : ∀ area path, ¬(area = request.fromArea ∧ request.source.segments <+: path) →
    ¬(area = request.toArea ∧ resolved.segments <+: path) →
    contents codec at_.owner moved area path = contents codec at_.owner at_.view area path

/-- The request replaces a directory that its source lies in, and that directory without the source is
another tree than the source. -/
def Clobbers (codec : NamespaceCodec) (at_ : Attempt) (request : CopyRequest codec) : Prop :=
  ∃ destination, request.destination = some destination ∧ request.fromArea = request.toArea ∧
    normalizeConflictMode request.conflict = .conflictReplace ∧ request.source.isDescendantOf destination = true ∧
    ∃ rest, contents codec at_.owner at_.view request.fromArea (request.source.segments ++ rest) ≠
      if request.source.segments <+: destination.segments ++ rest then none
      else contents codec at_.owner at_.view request.toArea (destination.segments ++ rest)

def movedRequest (restoreOriginal : Bool) (request : CopyRequest codec) : CopyRequest codec :=
  if restoreOriginal then restoreRequest codec request else request

/-- What is at each path when the subtree `source` of the request is at `resolved`, and no longer at its source. -/
def MovedContents (codec : NamespaceCodec) (at_ : Attempt) (request : CopyRequest codec)
    (resolved : UserPath codec.toNormalization) (source : NamespaceEntry) (view : NamespaceView) : Prop :=
  ∀ area path, contents codec at_.owner view area path = if area = request.toArea ∧ resolved.segments <+: path ∧
        ¬(request.fromArea = request.toArea ∧ resolved.segments <+: request.source.parent.segments) then
      source.contents (path.drop resolved.segments.length)
    else if area = request.fromArea ∧ request.source.segments <+: path then none
    else contents codec at_.owner at_.view area path

namespace MovedContents

variable {request : CopyRequest codec} {view : NamespaceView} (h : MovedContents codec at_ request resolved source view)

include h

theorem gone (hroot : request.source.isRoot = false)
    (hne : ¬(request.fromArea = request.toArea ∧ request.source = resolved)) :
    contents codec at_.owner view request.fromArea request.source.segments = none := by
  rw [h, if_neg, if_pos ⟨rfl, prefix_rfl⟩]
  rintro ⟨hto, hbegins, hclear⟩
  rw [← UserPath.parent_append_name hroot, prefix_concat_iff, UserPath.parent_append_name hroot] at hbegins
  rcases hbegins with heq | habove
  · exact hne ⟨hto, UserPath.ext heq.symm⟩
  · exact hclear ⟨hto, habove⟩

theorem others (area : Area) (path : List String)
    (hsource : ¬(area = request.fromArea ∧ request.source.segments <+: path))
    (hresolved : ¬(area = request.toArea ∧ resolved.segments <+: path)) :
    contents codec at_.owner view area path = contents codec at_.owner at_.view area path := by
  rw [h, if_neg fun hc => hresolved ⟨hc.1, hc.2.1⟩, if_neg hsource]

/-- At a path above the source is the old directory, without the source. -/
theorem left (hsame : request.fromArea = request.toArea) (habove : resolved.segments <+: request.source.parent.segments)
    (rest : List String) : contents codec at_.owner view request.toArea (resolved.segments ++ rest) =
      if request.source.segments <+: resolved.segments ++ rest then none
      else contents codec at_.owner at_.view request.toArea (resolved.segments ++ rest) := by
  rw [h, if_neg fun hc => hc.2.2 ⟨hsame, habove⟩]
  by_cases hunder : request.source.segments <+: resolved.segments ++ rest
  · rw [if_pos ⟨hsame.symm, hunder⟩, if_pos hunder]
  · rw [if_neg fun hc => hunder hc.2, if_neg hunder]

end MovedContents

/-- A move that commits is a move, unless it replaces a directory that its source lies in. -/
theorem move_moves (at_ : Attempt) (restoreOriginal : Bool) (request : CopyRequest codec) (outcome : CopyOutcome codec)
    (h : copyOrMoveResolved codec at_ true restoreOriginal (movedRequest restoreOriginal request) = .ok outcome) :
    Moved codec at_ (movedRequest restoreOriginal request) outcome.resolved (at_.view.publish outcome.changes) ↔
      ¬(restoreOriginal = false ∧ Clobbers codec at_ request) := by
  have hareas : (movedRequest restoreOriginal request).fromArea = (movedRequest restoreOriginal request).toArea →
      restoreOriginal = false := by
    cases restoreOriginal with
    | false => exact fun _ => rfl
    | true => exact fun hareas => by cases hareas
  have hplain : restoreOriginal = false → movedRequest restoreOriginal request = request := by
    rintro rfl
    rfl
  generalize movedRequest restoreOriginal request = moved at h hareas hplain ⊢
  obtain ⟨destination, sourceParent, destinationParent, sourceTrail, nodeID, trash, frames, start, hfound, hseparate,
    hcommits⟩ := copyOrMoveResolved_ok h
  obtain ⟨hcontent, hname⟩ :=
    @placedEntry_content codec true outcome.source sourceTrail outcome.resolved.name nodeID trash at_.now
  have hdestination : moved.fromArea = moved.toArea → ¬moved.source.segments <+: destination.parent.segments := by
    intro hsame habove
    have hbelow := ((hseparate (hareas hsame)).2 hsame).below
    rw [(UserPath.isDescendantOf_iff hfound.destinationNotRoot).mpr habove] at hbelow
    cases hbelow
  have hall : MovedContents codec at_ moved outcome.resolved outcome.source (at_.view.publish outcome.changes) :=
    hfound.contents_moved hcontent hname hdestination hcommits
  have hgone := hall.gone hfound.sourceNotRoot
  by_cases hclobbers : moved.fromArea = moved.toArea ∧ outcome.resolved.segments <+: moved.source.parent.segments
  · -- what is at the resolved path is the old directory without the source
    obtain ⟨hsame, habove⟩ := hclobbers
    have hrestore := hareas hsame
    obtain ⟨hrequested, hsep⟩ := hseparate hrestore
    have hexisting : outcome.existing.isSome := by
      rw [Option.isSome_iff_ne_none]
      exact fun hnone => hfound.fresh_not_above hnone hsame habove
    obtain ⟨hresolved, hreplace⟩ := hfound.target.replaced hexisting
    have hbelow : moved.source.isDescendantOf destination = true := by
      rw [UserPath.isDescendantOf_iff hfound.sourceNotRoot, ← hresolved]
      exact habove
    have hleft := hall.left hsame habove
    rw [hresolved] at hleft
    rw [← hplain hrestore]
    constructor
    · rintro hmoved ⟨_, other, hother, _, _, _, rest, hne⟩
      rw [hrequested] at hother
      cases hother
      have hholds := hmoved.holds rest
      rw [hresolved] at hholds
      exact hne (hholds.symm.trans (hleft rest))
    · intro hnot
      refine ⟨fun rest => ?_, hgone, hall.others⟩
      by_contra hne
      rw [hresolved, hleft rest] at hne
      exact hnot ⟨hrestore, destination, hrequested, hsame, hreplace, hbelow, rest, fun heq => hne heq.symm⟩
  · refine ⟨?_, fun _ => ⟨fun rest => ?_, hgone, hall.others⟩⟩
    · rintro _ ⟨hrestore, other, hother, hsame, hreplace, hbelow, _⟩
      rw [← hplain hrestore] at hother hsame hreplace hbelow
      obtain ⟨hrequested, _⟩ := hseparate hrestore
      rw [hrequested] at hother
      cases hother
      have hresolved := hfound.target.kept (by rw [hreplace]; simp)
      rw [UserPath.isDescendantOf_iff hfound.sourceNotRoot, ← hresolved] at hbelow
      exact hclobbers ⟨hsame, hbelow⟩
    · rw [hall, if_pos ⟨rfl, List.prefix_append _ _, hclobbers⟩, List.drop_left]
      exact (NamespaceEntry.contents_append hfound.relocates.1 rest).symm

/-! ## Edits of one name -/

/-- What the paths of both areas hold. -/
abbrev Paths := Area → List String → Option Held

/-- The paths with another subtree at `top`. -/
def Paths.graft (paths : Paths) (target : Area) (top : List String) (subtree : List String → Option Held) : Paths :=
  fun area path => if area = target ∧ top <+: path then subtree (path.drop top.length) else paths area path

def leaf (held : Held) : List String → Option Held
  | [] => some held
  | _ :: _ => none

section

variable (h : Commits codec at_ pairs modifiedAt frames start changes)

include h

theorem Commits.contents_edited (hpairs : OneEdit pairs key edit) (hafter : ∀ a ∈ edit.after, a.name = n)
    (htouch : ∀ m, Touches name edit m ↔ m = n) :
    contents codec at_.owner (at_.view.publish changes) = Paths.graft (contents codec at_.owner at_.view) key.area
      (key.path ++ [n]) fun rest => edit.after.bind (·.contents rest) := by
  funext area path
  rw [Paths.graft]
  split_ifs with hat
  · obtain ⟨rfl, rest, rfl⟩ := hat
    rw [drop_left, contents, NamespaceEntry.contents, h.lookup_at edit.after hpairs.mem
      (fun _ hp _ hle => not_prefix_of_append (hpairs.keys _ hp ▸ hle)) fun items => ?_]
    · cases edit.after <;> rfl
    · rw [hpairs.find hafter htouch, if_pos ⟨rfl, rfl⟩]
  · refine h.contents_off fun q m rest hpath _ items => ?_
    rw [hpairs.find hafter htouch, if_neg]
    rintro ⟨rfl, rfl⟩
    exact hat ⟨rfl, rest, by simp [hpath]⟩

theorem Commits.contents_placed {parent : NamespaceFrame} {target : Area} {conflict : ConflictMode}
    {requested : UserPath codec.toNormalization} {trail : List NamespaceFrame}
    (hpairs : OneEdit pairs parent.key { before := existing, after := some placed }) (hname : placed.name =
      resolved.name)
    (hparent : ParentFrame codec at_ target requested.parent trail parent)
    (htarget : Resolved codec parent.entry requested resolved conflict existing) :
    contents codec at_.owner (at_.view.publish changes) =
      Paths.graft (contents codec at_.owner at_.view) target resolved.segments placed.contents := by
  rw [h.contents_edited hpairs (fun _ ha => Option.some.inj ha ▸ hname) fun m => touches_placed htarget.found hname,
    hparent.key, ← htarget.sibling, UserPath.parent_append_name htarget.notRoot]
  rfl

end

theorem contents_of_childless {e : NamespaceEntry} (h : e.children = []) : e.contents = leaf e.held := by
  funext rest
  cases rest with
  | nil => rfl
  | cons n rest => rw [NamespaceEntry.contents, NamespaceEntry.lookup_cons, h]; rfl

/-- A deletion removes an entry with all that is below it, and nothing else. -/
theorem delete_deletes {requireTrash : Bool} {request : DeleteRequest codec}
    (h : deleteResolved codec at_ requireTrash request = .ok changes) :
    contents codec at_.owner (at_.view.publish changes) =
      Paths.graft (contents codec at_.owner at_.view) request.area request.path.segments fun _ => none := by
  obtain ⟨_, parent, entry, _, _, hroot, hparent, hfound, hcommits⟩ := deleteResolved_ok h
  rw [hcommits.contents_edited .single (by simp) fun m => touches_removed, hparent.key, (find_some hfound).2,
    UserPath.parent_append_name hroot]
  rfl

/-- A created directory is empty, at the resolved path, and everything else is as it was. -/
theorem createDirectory_creates {request : CreateDirectoryRequest codec}
    (h : createDirectory codec at_ request = .ok (changes, resolved)) :
    contents codec at_.owner (at_.view.publish changes) =
      Paths.graft (contents codec at_.owner at_.view) request.area resolved.segments (leaf .directory) := by
  obtain ⟨_, _, _, _, _, hparent, htarget, hcommits⟩ := createDirectory_ok h
  rw [hcommits.contents_placed .single rfl hparent htarget, contents_of_childless rfl]
  rfl

/-- A published file is at the resolved path, in place of what was there, and everything else is as it was. -/
theorem publishFile_publishes {request : PublishFileRequest codec}
    (h : publishFile codec at_ request = .ok (changes, resolved)) :
    contents codec at_.owner (at_.view.publish changes) =
      Paths.graft (contents codec at_.owner at_.view) request.area resolved.segments (leaf (.file request.entry.blobID
        request.entry.size request.entry.md5 request.entry.crc32c request.entry.mediaType)) := by
  obtain ⟨_, _, _, _, _, hparent, htarget, _, hkind, hcommits⟩ := publishFile_ok h
  have hfile : (publishedFile codec request resolved.name).entry.kind = .entryFile := hkind
  rw [hcommits.contents_placed .single rfl hparent htarget, contents_of_childless rfl,
    NamespaceEntry.held, hfile]
  rfl

/-- A copy puts what the source holds at the resolved path, and everything else is as it was. -/
theorem copy_copies {restoreOriginal : Bool} {request : CopyRequest codec} {outcome : CopyOutcome codec}
    (h : copyOrMoveResolved codec at_ false restoreOriginal request = .ok outcome) :
    contents codec at_.owner (at_.view.publish outcome.changes) = Paths.graft (contents codec at_.owner at_.view)
    request.toArea
      outcome.resolved.segments fun rest => contents codec at_.owner at_.view request.fromArea
        (request.source.segments ++ rest) := by
  obtain ⟨_, _, _, trail, nodeID, trash, _, _, hfound, _, hcommits⟩ := copyOrMoveResolved_ok h
  obtain ⟨_, hparent⟩ := hfound.destinationFrame
  obtain ⟨hcontent, hname⟩ :=
    @placedEntry_content codec false outcome.source trail outcome.resolved.name nodeID trash at_.now
  rw [hcommits.contents_placed .copied hname hparent hfound.target]
  refine congrArg (Paths.graft _ _ _) (funext fun rest => (hcontent.contents rest).trans ?_)
  exact (NamespaceEntry.contents_append hfound.relocates.1 rest).symm

namespace Overlap

def pathC : UserPath sizes.toNormalization := ⟨["c"], fun _ _ => rfl, by decide +kernel⟩

def before : Attempt := { owner := "owner", view := tree, now := 5 }

/-- Move `/a/x` to `/c`. -/
def asideRequest : CopyRequest sizes :=
  { fromArea := .areaLive, toArea := .areaLive, source := pathAX, destination := some pathC, conflict := .conflictFail,
    expectedSource := "", expectedTarget := "", operationID := "op" }

/-- Move `/a/x` to `/a`, replacing it. -/
def upRequest : CopyRequest sizes :=
  { asideRequest with destination := some pathA, conflict := .conflictReplace, expectedTarget := "version" }

theorem toOption_map {α β : Type} {x : Except Error α} {f : α → β} {b : β} (h : x.toOption.map f = some b) :
    ∃ a, x = .ok a ∧ f a = b := by
  cases x with
  | error e => cases h
  | ok a => exact ⟨a, rfl, Option.some.inj h⟩

theorem move_aside : ∃ outcome, copyOrMoveResolved sizes before true false asideRequest = .ok outcome ∧
    outcome.resolved.segments = ["c"] ∧ Moved sizes before asideRequest outcome.resolved
      (tree.publish outcome.changes) := by
  obtain ⟨outcome, hrun, hresolved⟩ : ∃ outcome, copyOrMoveResolved sizes before true false asideRequest = .ok outcome ∧
      outcome.resolved.segments = ["c"] := toOption_map (by decide +kernel)
  refine ⟨outcome, hrun, hresolved, (move_moves before false asideRequest outcome hrun).mpr ?_⟩
  rintro ⟨_, _, _, _, hreplace, _⟩
  cases hreplace

/-- The file `/a/x` should take the place of `/a`, but `/a` is still a directory afterwards. -/
theorem move_clobbered : ∃ outcome, copyOrMoveResolved sizes before true false upRequest = .ok outcome ∧
    outcome.resolved.segments = ["a"] ∧
    contents sizes "owner" tree .areaLive ["a", "x"] = some (.file "blob" 1 "md5" "crc32c" "text") ∧
    contents sizes "owner" (tree.publish outcome.changes) .areaLive ["a"] = some .directory ∧
    ¬Moved sizes before upRequest outcome.resolved (tree.publish outcome.changes) := by
  obtain ⟨outcome, hrun, hfacts⟩ : ∃ outcome, copyOrMoveResolved sizes before true false upRequest = .ok outcome ∧
      (outcome.resolved.segments, contents sizes "owner" (tree.publish outcome.changes) .areaLive ["a"]) =
        (["a"], some .directory) := toOption_map (by decide +kernel)
  obtain ⟨hresolved, hafter⟩ := Prod.mk.inj hfacts
  have hbefore : contents sizes "owner" tree .areaLive ["a", "x"] = some (.file "blob" 1 "md5" "crc32c" "text") := by
    decide +kernel
  refine ⟨outcome, hrun, hresolved, hbefore, hafter, fun hmoved => ?_⟩
  have hholds : contents sizes "owner" (tree.publish outcome.changes) .areaLive (outcome.resolved.segments ++ []) =
      contents sizes "owner" tree .areaLive ["a", "x"] := hmoved.holds []
  rw [hresolved, List.append_nil, hafter, hbefore] at hholds
  cases hholds

theorem exists_ok {α : Type} {x : Except Error α} (h : x.toOption.isSome = true) : ∃ a, x = .ok a := by
  cases x with
  | error e => cases h
  | ok a => exact ⟨a, rfl⟩

def deleteA : DeleteRequest sizes := { area := .areaLive, path := pathA, expectedVersion := "" }

theorem delete_a : ∃ changes, deleteResolved sizes before false deleteA = .ok changes ∧
    contents sizes "owner" (tree.publish changes) = Paths.graft (contents sizes "owner" tree) .areaLive ["a"] fun _ =>
    none :=
  (exists_ok (by decide +kernel)).imp fun _ hrun => ⟨hrun, delete_deletes hrun⟩

def createC : CreateDirectoryRequest sizes :=
  { area := .areaLive, path := pathC, conflict := .conflictFail, expectedVersion := "", mutationID := "m" }

theorem create_c : ∃ result, createDirectory sizes before createC = .ok result ∧
    contents sizes "owner" (tree.publish result.1) =
      Paths.graft (contents sizes "owner" tree) .areaLive result.2.segments (leaf .directory) :=
  (exists_ok (by decide +kernel)).imp fun _ hrun => ⟨hrun, createDirectory_creates hrun⟩

def publishC : PublishFileRequest sizes :=
  { area := .areaLive, path := pathC, conflict := .conflictFail, expected := "", mutationID := "m",
    requestFingerprint := "f",
    entry := bytes 1 }

theorem publish_c : ∃ result, publishFile sizes before publishC = .ok result ∧
    contents sizes "owner" (tree.publish result.1) = Paths.graft (contents sizes "owner" tree) .areaLive
    result.2.segments
      (leaf (.file "blob" 1 "md5" "crc32c" "text")) :=
  (exists_ok (by decide +kernel)).imp fun _ hrun => ⟨hrun, publishFile_publishes hrun⟩

theorem copy_aside : ∃ outcome, copyOrMoveResolved sizes before false false asideRequest = .ok outcome ∧
    contents sizes "owner" (tree.publish outcome.changes) = Paths.graft (contents sizes "owner" tree) .areaLive
      outcome.resolved.segments fun rest => contents sizes "owner" tree .areaLive (["a", "x"] ++ rest) :=
  (exists_ok (by decide +kernel)).imp fun _ hrun => ⟨hrun, copy_copies hrun⟩

end Overlap

end EndlessFS
