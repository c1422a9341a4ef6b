import EndlessFS.Namespace.Propagate

/-!
# EndlessFS.Namespace.Publish

What the namespace operations have in common: groups of edits, each in one directory of the view, are
applied there and carried up to the roots, which are then committed together.

* `publishEdits`: the common part of the operations.
* `Groups`: groups that speak of the view; `Clear`: no edit removes or replaces a directory
  that lies on the way to another edited one.
* `Published.sound`: clear groups keep every aggregate exact.
-/

namespace EndlessFS

open NamespaceEntry (name)

variable (codec : NamespaceCodec)

structure EditGroup where
  key : FrameKey
  edits : List DirectoryEdit

def applyGroups (frames : List NamespaceFrame) (modifiedAt : Time) : List EditGroup → Changes → Except Error Changes
  | [], changes => .ok changes
  | group :: rest, changes => do
    let directory ← currentDirectory frames (fun _ => none) group.key
    let updated ← applyDirectoryEdits codec directory group.edits modifiedAt
    applyGroups frames modifiedAt rest (Function.update changes group.key (some updated))

def publishEdits (frames : List NamespaceFrame) (groups : List EditGroup) (modifiedAt : Time) :
    Except Error Changes := do
  let changes ← applyGroups codec frames modifiedAt groups fun _ => none
  propagate codec frames changes modifiedAt

/-- `commitWithAdditionalChanges` on the roots: a changed root replaces the one it was computed from. -/
def NamespaceView.publish (view : NamespaceView) (changes : Changes) : NamespaceView where
  live := (changes { area := .areaLive, path := [] }).or view.live
  trash := (changes { area := .areaTrash, path := [] }).or view.trash

variable {codec} {frames : List NamespaceFrame} {groups : List EditGroup} {modifiedAt : Time} {result : Changes}
  {root : Area → NamespaceEntry}

theorem applyGroups_ok {changes start : Changes} (hnodup : (groups.map EditGroup.key).Nodup)
    (h : applyGroups codec frames modifiedAt groups changes = .ok start) :
    (∀ key, (∀ group ∈ groups, group.key ≠ key) → start key = changes key) ∧
      ∀ group ∈ groups, ∃ f ∈ frames, f.key = group.key ∧ ∃ updated, start group.key = some updated ∧
          applyDirectoryEdits codec f.entry group.edits modifiedAt = .ok updated := by
  induction groups generalizing changes with
  | nil =>
    cases h
    simp
  | cons group rest ih =>
    obtain ⟨directory, hdirectory, h⟩ := Except.bind_ok h
    obtain ⟨updated, hupdated, h⟩ := Except.bind_ok h
    rw [List.map_cons, List.nodup_cons] at hnodup
    obtain ⟨hother, hlisted⟩ := ih hnodup.2 h
    refine ⟨fun key hkey => ?_, fun g hg => ?_⟩
    · rw [hother key fun g hg => hkey g (List.mem_cons_of_mem _ hg), Function.update_of_ne (hkey group (.head _)).symm]
    · rcases List.mem_cons.mp hg with rfl | hg
      · unfold currentDirectory at hdirectory
        cases hfind : Edit.find NamespaceFrame.key frames g.key with
        | none => simp [hfind] at hdirectory
        | some f =>
          simp only [hfind, Except.ok.injEq] at hdirectory
          obtain ⟨hf, hkey⟩ := Edit.find_some hfind
          refine ⟨f, hf, hkey, updated, ?_, hdirectory ▸ hupdated⟩
          rw [hother g.key fun g' hg' e => hnodup.1 (e ▸ List.mem_map_of_mem hg'), Function.update_self]
      · exact hlisted g hg

/-- A publication of groups of edits, from the view with the given roots. -/
structure Published (codec : NamespaceCodec) (root : Area → NamespaceEntry) (frames : List NamespaceFrame)
    (groups : List EditGroup) (modifiedAt : Time) (start result : Changes) : Prop where
  carried : Carried codec root frames start modifiedAt result
  group : ∀ g ∈ groups, ∃ f ∈ frames, f.key = g.key ∧
    ∃ updated, start g.key = some updated ∧ applyDirectoryEdits codec f.entry g.edits modifiedAt = .ok updated
  ungrouped : ∀ key, (∀ g ∈ groups, g.key ≠ key) → start key = none

theorem publishEdits_ok (hframes : FramesOf root frames) (hnodup : (groups.map EditGroup.key).Nodup)
    (h : publishEdits codec frames groups modifiedAt = .ok result) :
    ∃ start, Published codec root frames groups modifiedAt start result := by
  obtain ⟨start, hstart, h⟩ := Except.bind_ok h
  obtain ⟨hother, hlisted⟩ := applyGroups_ok hnodup hstart
  refine ⟨start, ⟨hframes, ⟨fun f hf e he => ?_, fun key e he => ?_⟩, propagate_ok hframes h⟩, hlisted, hother⟩
  · by_cases hgroup : ∃ g ∈ groups, g.key = f.key
    · obtain ⟨g, hg, hkey⟩ := hgroup
      obtain ⟨f', hf', hkey', updated, hupdated, happly⟩ := hlisted g hg
      have hff : f' = f := by
        have := find_frame hframes.nodup hf'
        rw [hkey', hkey, find_frame hframes.nodup hf] at this
        exact (Option.some.inj this).symm
      subst hff
      rw [← hkey, hupdated] at he
      cases he
      exact (applyDirectoryEdits_ok happly).same
    · rw [hother f.key fun g hg e => hgroup ⟨g, hg, e⟩] at he
      cases he
  · by_contra hnone
    refine absurd he ?_
    rw [hother key fun g hg e => ?_]
    · simp
    · obtain ⟨f, hf, hkey, _⟩ := hlisted g hg
      exact hnone ⟨f, hf, hkey.trans e⟩

/-- The groups speak of the view: each removes children its directory has and puts entries under free
names, and what they put is sound. -/
structure Groups (codec : NamespaceCodec) (root : Area → NamespaceEntry) (groups : List EditGroup) : Prop where
  nodup : (groups.map EditGroup.key).Nodup
  coherent : ∀ g ∈ groups, ∀ d, (root g.key.area).lookup g.key.path = some d → Edit.Coherent name d.children g.edits
  placed : ∀ g ∈ groups, ∀ edit ∈ g.edits, ∀ after ∈ edit.after, after.Everywhere (Sound codec)

def Clear (groups : List EditGroup) : Prop :=
  ∀ g ∈ groups, ∀ edit ∈ g.edits, ∀ n, Edit.Touches name edit n →
    ∀ g' ∈ groups, g'.key.area = g.key.area → ¬g.key.path ++ [n] <+: g'.key.path

section

variable {start : Changes} (h : Published codec root frames groups modifiedAt start result)
include h

theorem Published.of_start {key : FrameKey} (hsome : (start key).isSome) : ∃ g ∈ groups, g.key = key := by
  by_contra hnone
  rw [h.ungrouped key fun g hg e => hnone ⟨g, hg, e⟩] at hsome
  cases hsome

variable {area : Area}

theorem Published.touched {path : List String} {e : NamespaceEntry}
    (he : result { area, path } = some e) : ∃ g ∈ groups, g.key.area = area ∧ path <+: g.key.path := by
  obtain ⟨q, hq, hsome⟩ := h.carried.touched he
  obtain ⟨g, hg, hkey⟩ := h.of_start hsome
  exact ⟨g, hg, by rw [hkey], by rw [hkey]; exact hq⟩

variable {f : NamespaceFrame}

theorem Published.frame_eq {f' : NamespaceFrame} (hf : f ∈ frames) (hf' : f' ∈ frames) (hkey : f'.key = f.key) :
    f' = f := by
  have := find_frame h.carried.view.nodup hf'
  rw [hkey, find_frame h.carried.view.nodup hf] at this
  exact (Option.some.inj this).symm

theorem Published.edited {g : EditGroup} (hg : g ∈ groups) (hf : f ∈ frames) (hkey : f.key = g.key) :
    ∃ updated, start f.key = some updated ∧ applyDirectoryEdits codec f.entry g.edits modifiedAt = .ok updated := by
  obtain ⟨f', hf', hkey', updated, hupdated, happly⟩ := h.group g hg
  obtain rfl := h.frame_eq hf hf' (hkey'.trans hkey.symm)
  exact ⟨updated, hkey ▸ hupdated, happly⟩

theorem Published.find_untouched {n : String} (hf : f ∈ frames)
    (hfree : ∀ g ∈ groups, g.key = f.key → ∀ edit ∈ g.edits, ¬Edit.Touches name edit n) :
    Edit.find name ((start f.key).getD f.entry).children n = Edit.find name f.entry.children n := by
  by_cases hgroup : ∃ g ∈ groups, g.key = f.key
  · obtain ⟨g, hg, hkey⟩ := hgroup
    obtain ⟨updated, hupdated, happly⟩ := h.edited hg hf hkey.symm
    rw [hupdated, Option.getD_some, (applyDirectoryEdits_ok happly).children]
    exact Edit.find_applyAll_untouched (hfree g hg hkey)
  · rw [h.ungrouped f.key fun g hg e => hgroup ⟨g, hg, e⟩]
    rfl

theorem Published.sound (hgroups : Groups codec root groups) (hclear : Clear groups)
    (hroot : ∀ area, (root area).Everywhere (Sound codec)) (hdirectories : ∀ f ∈ frames, f.entry.isDirectory = true)
      {top : NamespaceEntry} (htop : result { area, path := [] } = some top) :
    top.Everywhere (Sound codec) := by
  obtain ⟨f, hf, hkey⟩ := h.carried.framed htop
  refine h.carried.sound hroot hdirectories (fun f hf e he => ?_) (fun f hf g hg n hkey hsome => ?_) f hf top
    (hkey ▸ htop)
  · have hsome : (start f.key).isSome := by simp [he]
    obtain ⟨group, hgroup, hgkey⟩ := h.of_start hsome
    obtain ⟨updated, hupdated, happly⟩ := h.edited hgroup hf hgkey.symm
    rw [he] at hupdated
    cases hupdated
    have hentry := h.carried.view.entry f hf
    have hsound : f.entry.Everywhere (Sound codec) := (hroot f.area).below hentry
    have hexact := hsound.here.directory (hdirectories f hf)
    have hcoherent := hgroups.coherent group hgroup f.entry (by rw [hgkey]; exact hentry)
    refine ⟨exact_applyDirectoryEdits hexact hcoherent happly, fun c hc => ?_⟩
    rw [(applyDirectoryEdits_ok happly).children] at hc
    rcases Edit.mem_applyAll hc with hc | ⟨edit, hedit, hafter⟩
    · exact hsound.below (NamespaceEntry.lookup_child hexact.names hc)
    · exact hgroups.placed group hgroup edit hedit c hafter
  · -- a changed directory lies on the way to an edited one, so no edit of its parent is about it
    obtain ⟨e, he⟩ := Option.isSome_iff_exists.mp hsome
    obtain ⟨group, hgroup, harea, hpath⟩ := h.touched (hkey ▸ he)
    rw [h.find_untouched hf fun g' hg' hg'key edit hedit ht => ?_]
    · have hga : g.area = f.area := congrArg FrameKey.area hkey
      have hgp : g.path = f.path ++ [n] := congrArg FrameKey.path hkey
      have hg' := h.carried.view.entry g hg
      rw [hga, hgp, NamespaceEntry.lookup_snoc (h.carried.view.entry f hf)] at hg'
      exact hg'
    · refine hclear g' hg' edit hedit n ht group hgroup ?_ ?_
      · rw [harea, hg'key]; rfl
      · rw [hg'key]; exact hpath

end

end EndlessFS
