import EndlessFS.Namespace.Runs

/-!
# EndlessFS.Namespace.Contents

A view as two trees of files and directories, and what a publication of edits does to them.

* `NamespaceEntry.held`, `contents`: what is at a path, without names, versions and aggregates.
* `Commits.at_path`: each path of the new tree is a directory that the edits pass through, or below a
  directory with its edits applied, or in an area without edits.
-/

namespace EndlessFS

open FrameKey NamespaceEntry Option
open NamespaceEntry (name)

variable {codec : NamespaceCodec}

inductive Held where
  | file (blobID : String) (size : Int) (md5 crc32c mediaType : String)
  | directory
  deriving DecidableEq, Repr

def NamespaceEntry.held (e : NamespaceEntry) : Held :=
  match e.entry.kind with
  | .entryFile => .file e.entry.blobID e.entry.size e.entry.md5 e.entry.crc32c e.entry.mediaType
  | .entryDirectory => .directory

/-- What is below `e`, by path. -/
def NamespaceEntry.contents (e : NamespaceEntry) (path : List String) : Option Held := (e.lookup path).map held

def contents (codec : NamespaceCodec) (owner : String) (view : NamespaceView) (area : Area) (path : List String) :
    Option Held := (viewRoot codec owner view area).contents path

theorem NamespaceEntry.contents_append {e d : NamespaceEntry} {path : List String} (h : e.lookup path = some d)
    (rest : List String) : e.contents (path ++ rest) = d.contents rest := by
  rw [contents, contents, lookup_append, h, bind_some]

theorem SameContent.contents {source placed : NamespaceEntry} (h : SameContent source placed) (rest : List String) :
    placed.contents rest = source.contents rest := by
  cases rest with
  | nil =>
    simp only [NamespaceEntry.contents, NamespaceEntry.lookup_nil, Option.map_some, NamespaceEntry.held, h.kind,
      h.blobID, h.size, h.md5, h.crc32c, h.mediaType]
  | cons n rest => rw [NamespaceEntry.contents, NamespaceEntry.contents, NamespaceEntry.lookup_cons,
      NamespaceEntry.lookup_cons, h.children]

theorem SameDirectory.held {d c : NamespaceEntry} (h : SameDirectory d c) (hc : c.isDirectory = true) :
    c.held = d.held := by
  have hkind : c.entry.kind = .entryDirectory := by simpa [NamespaceEntry.isDirectory] using hc
  simp only [NamespaceEntry.held, ← h.kind, hkind]

theorem directory_of_accumulator {e : NamespaceEntry} {accumulator : Accumulator}
    (h : checkNamespaceEntry codec e = .ok ())
    (haccumulator : e.node.contentAccumulator = some accumulator) : e.isDirectory = true := by
  obtain ⟨_, h, _⟩ := Except.bind_ok h
  obtain ⟨_, _, h⟩ := Except.bind_ok h
  obtain ⟨_, _, h⟩ := Except.bind_ok h
  obtain ⟨_, h, _⟩ := Except.bind_ok h
  cases hk : e.entry.kind with
  | entryDirectory => simp [isDirectory, hk]
  | entryFile =>
    rw [validateKind, hk, rejectIf_eq_ok_iff] at h
    simp [haccumulator] at h

theorem Applied.directory {parent updated : NamespaceEntry} {edits : List DirectoryEdit} {modifiedAt : Time}
    (h : Applied codec parent edits modifiedAt updated) : updated.isDirectory = true := by
  obtain ⟨accumulator, haccumulator, _⟩ := h.identity
  exact directory_of_accumulator h.checked haccumulator

/-! ## Publications -/

section

variable {at_ : Attempt} {pairs : List (FrameKey × DirectoryEdit)} {modifiedAt : Time} {frames : List NamespaceFrame}
  {start changes : Changes} (h : Commits codec at_ pairs modifiedAt frames start changes)
include h

/-- The directories on the way to an edited one change. -/
theorem Commits.changed {pair : FrameKey × DirectoryEdit} (hpair : pair ∈ pairs) {path : List String}
    (hpath : path <+: pair.1.path) : (changes { area := pair.1.area, path }).isSome := by
  have hcarried := h.published.carried
  have hall : ∀ f ∈ frames, (changes f.key).isSome → ∀ path, path <+: f.path →
      (changes { area := f.area, path }).isSome := by
    intro f hf hsome path hbegins
    obtain ⟨rest, hrest⟩ := hbegins
    induction rest using List.reverseRecOn generalizing f with
    | nil =>
      rw [List.append_nil] at hrest
      rw [hrest]
      exact hsome
    | append_singleton rest n ih =>
      have hdepth : f.depth ≠ 0 := by
        rw [NamespaceFrame.depth, ← hrest]
        simp
      obtain ⟨g, hg, hkey⟩ := hcarried.view.parent f hf hdepth
      have hgarea : g.area = f.area := congrArg area hkey
      have hgpath : g.path = path ++ rest := by
        have := congrArg FrameKey.path hkey
        rw [NamespaceFrame.parentKey, ← hrest, ← List.append_assoc, List.dropLast_concat] at this
        exact this
      rw [← hgarea]
      exact ih g hg (hcarried.parent_some hg hf hdepth hkey.symm hsome) hgpath.symm
  obtain ⟨g, hg, hkey⟩ := group_of_pair hpair
  obtain ⟨f, hf, hfkey, updated, hupdated, _⟩ := h.published.group g hg
  have hsome : (changes f.key).isSome := by
    rcases hcarried.propagated.settled f hf with ⟨_, hkeep⟩ | ⟨updated', _, hres, _⟩
    · rw [hkeep, hfkey, hupdated]
      rfl
    · rw [hres]
      rfl
  have harea : f.area = pair.1.area := congrArg FrameKey.area (hfkey.trans hkey)
  have hfpath : f.path = pair.1.path := congrArg FrameKey.path (hfkey.trans hkey)
  rw [← harea]
  exact hall f hf hsome path (hfpath ▸ hpath)

theorem Commits.directory {key : FrameKey} {c : NamespaceEntry} (hc : changes key = some c) : c.isDirectory = true := by
  have hcarried := h.published.carried
  obtain ⟨f, hf, hkey⟩ := hcarried.framed hc
  rw [← hkey] at hc
  rcases hcarried.propagated.settled f hf with ⟨_, hkeep⟩ | ⟨updated, _, hres, happly⟩
  · rw [hkeep] at hc
    have hsome : (start f.key).isSome := by rw [hc]; rfl
    obtain ⟨g, hg, hgkey⟩ := h.published.of_start hsome
    obtain ⟨updated, hupdated, happly⟩ := h.published.edited hg hf hgkey.symm
    rw [hc] at hupdated
    cases hupdated
    exact (applyDirectoryEdits_ok happly).directory
  · rw [hres] at hc
    cases hc
    exact (applyDirectoryEdits_ok happly).directory

theorem Commits.edited {f : NamespaceFrame} (hf : f ∈ frames) (n : String) :
    Edit.find name ((start f.key).getD f.entry).children n =
      Edit.find name (Edit.applyAll name f.entry.children (editsFor pairs f.key)) n := by
  by_cases hgroup : ∃ g ∈ groupEdits pairs, g.key = f.key
  · obtain ⟨g, hg, hkey⟩ := hgroup
    obtain ⟨updated, hupdated, happly⟩ := h.published.edited hg hf hkey.symm
    rw [hupdated, getD_some, (applyDirectoryEdits_ok happly).children, edits_of_group hg, hkey]
  · have hnone : editsFor pairs f.key = [] := by
      rw [List.eq_nil_iff_forall_not_mem]
      intro edit hedit
      obtain ⟨g, hg, hkey⟩ := group_of_pair (mem_editsFor.mp hedit)
      exact hgroup ⟨g, hg, hkey⟩
    rw [h.published.ungrouped f.key fun g hg e => hgroup ⟨g, hg, e⟩, hnone]
    rfl

theorem Commits.walk {area : Area} (hroot : (changes { area, path := [] }).isSome) (path : List String) :
    (changes { area, path }).isSome ∨
      ∃ f ∈ frames, ∃ n rest, f.area = area ∧ path = f.path ++ n :: rest ∧ (changes f.key).isSome ∧
        changes { area, path := f.path ++ [n] } = none := by
  induction path using List.reverseRecOn with
  | nil => exact .inl hroot
  | append_singleton path m ih =>
    rcases ih with hsome | ⟨f, hf, n, rest, harea, hpath, hsome, hoff⟩
    · cases hm : changes { area, path := path ++ [m] } with
      | some c => exact .inl rfl
      | none =>
        obtain ⟨c, hc⟩ := isSome_iff_exists.mp hsome
        obtain ⟨f, hf, hkey⟩ := h.published.carried.framed hc
        have hfpath : f.path = path := congrArg FrameKey.path hkey
        exact .inr ⟨f, hf, m, [], congrArg FrameKey.area hkey, by rw [hfpath], hkey ▸ hsome, by rw [hfpath, hm]⟩
    · exact .inr ⟨f, hf, n, rest ++ [m], harea, by simp [hpath], hsome, hoff⟩

/-- What is at a path after the publication. -/
inductive AtPath (codec : NamespaceCodec) (at_ : Attempt) (pairs : List (FrameKey × DirectoryEdit))
    (current : NamespaceView) (changes : Changes) (area : Area) (path : List String) : Prop where
  /-- No edit is in the area. -/
  | outside : (∀ pair ∈ pairs, pair.1.area ≠ area) →
      viewRoot codec at_.owner (current.publish changes) area = viewRoot codec at_.owner current area →
      AtPath codec at_ pairs current changes area path
  /-- A directory above an edited one, or an edited one. -/
  | through (d c : NamespaceEntry) (pair : FrameKey × DirectoryEdit) : pair ∈ pairs → pair.1.area = area →
      path <+: pair.1.path → (at_.root codec area).lookup path = some d →
      (viewRoot codec at_.owner (current.publish changes) area).lookup path = some c → c.held = d.held →
      AtPath codec at_ pairs current changes area path
  /-- Below a directory that is edited, or above an edited one, on no way to an edited one. -/
  | below (d : NamespaceEntry) (q : List String) (n : String) (rest : List String) (pair : FrameKey × DirectoryEdit) :
      path = q ++ n :: rest → pair ∈ pairs → pair.1.area = area → q <+: pair.1.path →
      (at_.root codec area).lookup q = some d →
      (∀ pair ∈ pairs, pair.1.area = area → ¬q ++ [n] <+: pair.1.path) →
      (viewRoot codec at_.owner (current.publish changes) area).lookup path =
        (Edit.find name (Edit.applyAll name d.children (editsFor pairs { area, path := q })) n).bind
          (fun e => e.lookup rest) →
      AtPath codec at_ pairs current changes area path

theorem Commits.at_path (current : NamespaceView) (area : Area) (path : List String) :
    AtPath codec at_ pairs current changes area path := by
  have hcarried := h.published.carried
  cases htop : changes { area, path := [] } with
  | none =>
    refine .outside (fun pair hpair harea => ?_) ?_
    · have := h.changed hpair (List.nil_prefix (l := pair.1.path))
      rw [harea, htop] at this
      cases this
    · rw [viewRoot, NamespaceView.stored_publish, htop]
      rfl
  | some top =>
    have hnew : viewRoot codec at_.owner (current.publish changes) area = top := by
      rw [viewRoot, NamespaceView.stored_publish, htop]
      rfl
    have hpairOf : ∀ q, (changes { area, path := q }).isSome → ∃ pair ∈ pairs, pair.1.area = area ∧
        q <+: pair.1.path := by
      intro q hq
      obtain ⟨e, he⟩ := isSome_iff_exists.mp hq
      obtain ⟨g, hg, harea, hbegins⟩ := h.published.touched he
      obtain ⟨pair, hpair, hkey⟩ := pair_of_group hg
      exact ⟨pair, hpair, by rw [hkey, harea], by rw [hkey]; exact hbegins⟩
    rcases h.walk (by rw [htop]; rfl) path with hsome | ⟨f, hf, n, rest, harea, hpath, hsome, hoff⟩
    · obtain ⟨c, hc⟩ := isSome_iff_exists.mp hsome
      obtain ⟨f, hf, hkey⟩ := hcarried.framed hc
      have hfarea : f.area = area := congrArg FrameKey.area hkey
      have hfpath : f.path = path := congrArg FrameKey.path hkey
      obtain ⟨pair, hpair, hparea, hbegins⟩ := hpairOf path hsome
      obtain ⟨top', htop', hlookup⟩ := hcarried.lookup_touched hc
      rw [htop] at htop'
      cases htop'
      have hentry := hcarried.view.entry f hf
      rw [hfarea, hfpath] at hentry
      exact .through f.entry c pair hpair hparea hbegins hentry (hnew ▸ hlookup)
        ((hcarried.same hf (hkey ▸ hc)).held (h.directory hc))
    · obtain ⟨c, hc⟩ := isSome_iff_exists.mp hsome
      have hfkey : f.key = { area, path := f.path } := by rw [NamespaceFrame.key, harea]
      obtain ⟨pair, hpair, hparea, hbegins⟩ := hpairOf f.path (hfkey ▸ hsome)
      have hentry := hcarried.view.entry f hf
      rw [harea] at hentry
      refine .below f.entry f.path n rest pair hpath hpair hparea hbegins hentry
        (fun pair' hpair' harea' hbegins' => ?_) ?_
      · have := h.changed hpair' hbegins'
        rw [harea', hoff] at this
        cases this
      · obtain ⟨top', htop', hlookup⟩ := hcarried.lookup_touched (hfkey ▸ hc)
        rw [htop] at htop'
        cases htop'
        rw [hnew, hpath, lookup_append, hlookup, bind_some,
          hcarried.lookup_below hf hfkey (hfkey ▸ hc) hoff, lookup_cons, ← hfkey, h.edited hf n]

end

end EndlessFS
