import Mathlib.Data.List.Dedup
import Mathlib.Data.List.Induction
import Mathlib.Logic.Function.Basic
import EndlessFS.Namespace.Edits

/-!
# EndlessFS.Namespace.Propagate

Views, trails of directories, and `propagate` (`portable/namespace_store.go`), which carries changed
directories up to the roots, level by level.

* `Trail`: what `resolveTrail` returns.
* `Propagated`: the recursion that the final changes satisfy; `propagate_ok` says that the loop
  establishes it, and `frames_induct` is the induction from the deepest changes up.
* `Carried.lookup_touched`, `Carried.lookup_below`: what is at a path of the new tree.
-/

namespace EndlessFS

open Edit Except List NamespaceEntry
open NamespaceEntry (name)

variable (codec : NamespaceCodec)

/-- `namespaceFrameKey`. -/
structure FrameKey where
  area : Area
  path : List String
  deriving DecidableEq, Repr

/-- `namespaceFrame`. -/
structure NamespaceFrame where
  area : Area
  path : List String
  entry : NamespaceEntry

namespace NamespaceFrame

def key (f : NamespaceFrame) : FrameKey := { area := f.area, path := f.path }

def parentKey (f : NamespaceFrame) : FrameKey := { area := f.area, path := f.path.dropLast }

def depth (f : NamespaceFrame) : Nat := f.path.length

end NamespaceFrame

/-- `namespaceView`: the stored roots of one head. -/
structure NamespaceView where
  live : Option NamespaceEntry
  trash : Option NamespaceEntry

def NamespaceView.stored (view : NamespaceView) : Area → Option NamespaceEntry
  | .areaLive => view.live
  | .areaTrash => view.trash

/-- `view.roots`. -/
def viewRoot (owner : String) (view : NamespaceView) (area : Area) : NamespaceEntry :=
  (view.stored area).getD (emptyRoot codec owner area)

/-- The loop of `resolveTrail`, below the directory `entry` at `path`. -/
def resolveBelow (area : Area) (path : UserPath codec.toNormalization) (entry : NamespaceEntry) :
    List String → Except Error (List NamespaceFrame)
  | [] => .ok []
  | segment :: rest =>
    match child codec entry segment with
    | .error e => .error e
    | .ok none => .error (newError .notFound "directory does not exist")
    | .ok (some found) =>
      if found.entry.kind ≠ .entryDirectory then .error (newError .invalid "path component is not a directory")
      else
        match path.join segment with
        | .error _ => .error (newError .invalid "stored namespace name is invalid")
        | .ok nextPath => do
          let below ← resolveBelow area nextPath found rest
          pure ({ area, path := nextPath.segments, entry := found } :: below)

def resolveTrail (owner : String) (view : NamespaceView) (area : Area) (path : UserPath codec.toNormalization) :
    Except Error (List NamespaceFrame) := do
  let root := viewRoot codec owner view area
  let below ← resolveBelow codec area .root root path.segments
  pure ({ area, path := [], entry := root } :: below)

/-- `mergeNamespaceFrames`. -/
def mergeNamespaceFrames (trails : List (List NamespaceFrame)) : List NamespaceFrame :=
  trails.flatten.foldl (Edit.put NamespaceFrame.key) []

abbrev Changes := FrameKey → Option NamespaceEntry

/-- The edits that changed directories make in the directory `key`. -/
def groupedEdits (frames : List NamespaceFrame) (changes : Changes) (key : FrameKey) : List DirectoryEdit :=
  (frames.filter fun f => f.depth ≠ 0 ∧ f.parentKey = key ∧ (changes f.key).isSome).map fun f =>
    { before := some f.entry, after := changes f.key }

def changedParents (frames : List NamespaceFrame) (changes : Changes) (depth : Nat) : List FrameKey :=
  ((frames.filter fun f => f.depth = depth ∧ (changes f.key).isSome).map NamespaceFrame.parentKey).dedup

/-- The directory `key` as it stands, or the entry without accumulator that no frame leaves. -/
def currentDirectory (frames : List NamespaceFrame) (changes : Changes) (key : FrameKey) :
    Except Error NamespaceEntry :=
  match changes key with
  | some changed => .ok changed
  | none =>
    match Edit.find NamespaceFrame.key frames key with
    | some frame => .ok frame.entry
    | none => .error (newError .invalid "invalid directory content accumulator")

/-- One level of `propagate`; `grouped` are the edits of the level. -/
def propagateLevel (frames : List NamespaceFrame) (grouped : FrameKey → List DirectoryEdit) (modifiedAt : Time) :
    List FrameKey → Changes → Except Error Changes
  | [], changes => .ok changes
  | key :: rest, changes => do
    let parent ← currentDirectory frames changes key
    let updated ← applyDirectoryEdits codec parent (grouped key) modifiedAt
    propagateLevel frames grouped modifiedAt rest (Function.update changes key (some updated))

def propagateFrom (frames : List NamespaceFrame) (modifiedAt : Time) : Nat → Changes → Except Error Changes
  | 0, changes => .ok changes
  | depth + 1, changes => do
    let next ← propagateLevel codec frames (groupedEdits frames changes) modifiedAt
      (changedParents frames changes (depth + 1)) changes
    propagateFrom frames modifiedAt depth next

def maxDepth (frames : List NamespaceFrame) (changes : Changes) : Nat :=
  (frames.filter fun f => (changes f.key).isSome).foldl (fun depth f => max depth f.depth) 0

def propagate (frames : List NamespaceFrame) (changes : Changes) (modifiedAt : Time) : Except Error Changes :=
  propagateFrom codec frames modifiedAt (maxDepth frames changes) changes

/-! ## Trails -/

variable {codec} {owner : String} {view : NamespaceView} {area : Area} {e : NamespaceEntry} {segment : String}
  {parent : NamespaceEntry}

theorem child_some (h : child codec parent segment = .ok (some e)) :
    find name parent.children segment = some e ∧ checkNamespaceEntry codec e = .ok () := by
  unfold child at h
  split at h
  · cases h
  · rename_i found hfound
    obtain ⟨_, hcheck, h⟩ := bind_ok h
    cases h
    exact ⟨hfound, hcheck⟩

theorem child_none (h : child codec parent segment = .ok none) : find name parent.children segment = none := by
  unfold child at h
  split at h
  · assumption
  · obtain ⟨_, _, h⟩ := bind_ok h
    cases h

/-- The frames of the directories from `start` down to `start ++ rest`. -/
structure Trail (root : NamespaceEntry) (area : Area) (start rest : List String) (trail : List NamespaceFrame) :
    Prop where
  area : ∀ f ∈ trail, f.area = area
  entry : ∀ f ∈ trail, root.lookup f.path = some f.entry
  onPath : ∀ f ∈ trail, ∃ q, q <+: rest ∧ f.path = start ++ q
  covers : ∀ q, q <+: rest → ∃ f ∈ trail, f.path = start ++ q
  last : ∃ f, trail.getLast? = some f ∧ f.path = start ++ rest
  length : trail.length = rest.length + 1
  directories : ∀ f ∈ trail, f.path ≠ start → f.entry.isDirectory = true

variable {trail : List NamespaceFrame} {rest : List String}

theorem Trail.cons {root entry : NamespaceEntry} {start : List String} (hentry : root.lookup start = some entry)
    (h : Trail root area (start ++ [segment]) rest trail)
    (hfirst : ∀ f ∈ trail, f.path = start ++ [segment] → f.entry.isDirectory = true) :
    Trail root area start (segment :: rest) ({ area, path := start, entry } :: trail) where
  area f hf := by
    rcases mem_cons.mp hf with rfl | hf
    · rfl
    · exact h.area f hf
  entry f hf := by
    rcases mem_cons.mp hf with rfl | hf
    · exact hentry
    · exact h.entry f hf
  onPath f hf := by
    rcases mem_cons.mp hf with rfl | hf
    · exact ⟨[], nil_prefix, by simp⟩
    · obtain ⟨q, hq, hpath⟩ := h.onPath f hf
      exact ⟨segment :: q, prefix_cons_inj segment |>.mpr hq, by simp [hpath]⟩
  covers q hq := by
    cases q with
    | nil => exact ⟨_, .head _, by simp⟩
    | cons s q =>
      obtain ⟨rfl, hrest⟩ := cons_prefix_cons.mp hq
      obtain ⟨f, hf, hpath⟩ := h.covers q hrest
      exact ⟨f, .tail _ hf, by simp [hpath]⟩
  last := by
    obtain ⟨f, hf, hpath⟩ := h.last
    cases trail with
    | nil => simp at hf
    | cons g trail => exact ⟨f, by rw [getLast?_cons_cons]; exact hf, by simp [hpath]⟩
  length := by simp [h.length]
  directories f hf hne := by
    rcases mem_cons.mp hf with rfl | hf
    · exact absurd rfl hne
    · by_cases hfirstPath : f.path = start ++ [segment]
      · exact hfirst f hf hfirstPath
      · exact h.directories f hf hfirstPath

variable {path : UserPath codec.toNormalization}

theorem resolveBelow_ok {root entry : NamespaceEntry}
    {below : List NamespaceFrame} (hentry : root.lookup path.segments = some entry)
    (hnormal : ∀ s ∈ rest, codec.nfc s = s) (h : resolveBelow codec area path entry rest = .ok below) :
    Trail root area path.segments rest ({ area, path := path.segments, entry } :: below) := by
  induction rest generalizing path entry below with
  | nil =>
    cases h
    exact ⟨by simp, by simpa using hentry, fun f hf => ⟨[], nil_prefix, by simp_all⟩,
      fun q hq => ⟨_, .head _, by simp [prefix_nil.mp hq]⟩, ⟨_, rfl, by simp⟩, rfl, by simp⟩
  | cons segment rest ih =>
    unfold resolveBelow at h
    cases hchild : child codec entry segment with
    | error e => simp [hchild] at h
    | ok found =>
      cases found with
      | none => simp [hchild] at h
      | some found =>
        rw [hchild] at h
        simp only at h
        split_ifs at h with hkind
        cases hjoin : path.join segment with
        | error e => simp [hjoin] at h
        | ok nextPath =>
          rw [hjoin] at h
          obtain ⟨below', hbelow, h⟩ := bind_ok h
          cases h
          have hnext : nextPath.segments = path.segments ++ [segment] := by
            rw [UserPath.join_eq_ok_iff.mp hjoin, hnormal segment mem_cons_self]
          have hfound : root.lookup nextPath.segments = some found := by
            rw [hnext, lookup_snoc hentry, (child_some hchild).1]
          have htrail := ih hfound (fun s hs => hnormal s (.tail _ hs)) hbelow
          have hdirectory : found.isDirectory = true := by
            simpa [isDirectory] using hkind
          rw [hnext] at htrail ⊢
          refine htrail.cons hentry fun f hf hpath => ?_
          have hf' := htrail.entry f hf
          rw [hpath, ← hnext, hfound] at hf'
          cases hf'
          exact hdirectory

theorem resolveTrail_ok (h : resolveTrail codec owner view area path = .ok trail) :
    Trail (viewRoot codec owner view area) area [] path.segments trail := by
  obtain ⟨below, hbelow, h⟩ := bind_ok h
  cases h
  have hroot : (viewRoot codec owner view area).lookup (UserPath.root : UserPath codec.toNormalization).segments =
      some (viewRoot codec owner view area) := rfl
  exact resolveBelow_ok hroot path.normal hbelow

/-! ## Frames -/

structure FramesOf (root : Area → NamespaceEntry) (frames : List NamespaceFrame) : Prop where
  nodup : (frames.map NamespaceFrame.key).Nodup
  entry : ∀ f ∈ frames, (root f.area).lookup f.path = some f.entry
  parent : ∀ f ∈ frames, f.depth ≠ 0 → ∃ g ∈ frames, g.key = f.parentKey

variable {f : NamespaceFrame} {frames : List NamespaceFrame}

theorem mem_mergeNamespaceFrames (h : f ∈ trail.foldl (put NamespaceFrame.key) frames) : f ∈ frames ∨ f ∈ trail := by
  induction trail generalizing frames with
  | nil => exact .inl h
  | cons g trail ih =>
    rcases ih h with h | h
    · rcases mem_cons.mp h with rfl | h
      · exact .inr (.head _)
      · exact .inl (mem_erase.mp h).1
    · exact .inr (.tail _ h)

variable {key : FrameKey}

theorem covers_mergeNamespaceFrames (h : (∃ f ∈ frames, f.key = key) ∨ ∃ f ∈ trail, f.key = key) :
    ∃ f ∈ trail.foldl (put NamespaceFrame.key) frames, f.key = key := by
  induction trail generalizing frames with
  | nil => exact h.resolve_right (by simp)
  | cons g trail ih =>
    refine ih ?_
    by_cases hg : g.key = key
    · exact .inl ⟨g, .head _, hg⟩
    · rcases h with ⟨f, hf, hkey⟩ | ⟨f, hf, hkey⟩
      · exact .inl ⟨f, mem_cons_of_mem _ (mem_erase.mpr ⟨hf, fun e => hg (e ▸ hkey)⟩), hkey⟩
      · rcases mem_cons.mp hf with rfl | hf
        · exact absurd hkey hg
        · exact .inr ⟨f, hf, hkey⟩

theorem nodup_foldl_put (frames trail : List NamespaceFrame) (h : (frames.map NamespaceFrame.key).Nodup) :
    ((trail.foldl (put NamespaceFrame.key) frames).map NamespaceFrame.key).Nodup := by
  induction trail generalizing frames with
  | nil => exact h
  | cons g trail ih => exact ih _ (nodup_put h g)

variable {root : Area → NamespaceEntry}

theorem framesOf_merge {trails : List (List NamespaceFrame)}
    (h : ∀ trail ∈ trails, ∃ area path, Trail (root area) area [] path trail) :
    FramesOf root (mergeNamespaceFrames trails) where
  nodup := nodup_foldl_put [] _ (by simp)
  entry f hf := by
    rcases mem_mergeNamespaceFrames hf with hf | hf
    · cases hf
    · obtain ⟨trail, htrail, hf⟩ := mem_flatten.mp hf
      obtain ⟨area, path, ht⟩ := h trail htrail
      rw [ht.area f hf]
      exact ht.entry f hf
  parent f hf hdepth := by
    rcases mem_mergeNamespaceFrames hf with hf | hf
    · cases hf
    · obtain ⟨trail, htrail, hf⟩ := mem_flatten.mp hf
      obtain ⟨area, path, ht⟩ := h trail htrail
      obtain ⟨q, hq, hpath⟩ := ht.onPath f hf
      obtain ⟨g, hg, hgpath⟩ := ht.covers f.path.dropLast (by
        rw [hpath, nil_append]
        exact (List.dropLast_prefix q).trans hq)
      refine covers_mergeNamespaceFrames (.inr ⟨g, mem_flatten.mpr ⟨trail, htrail, hg⟩, ?_⟩)
      rw [NamespaceFrame.key, NamespaceFrame.parentKey, ht.area g hg, ht.area f hf, hgpath, nil_append]

/-! ## What propagation computes -/

variable {start changes result : Changes} {modifiedAt : Time}

/-- The value of the directory of `f` follows from the values of the directories below it. -/
def Settled (codec : NamespaceCodec) (frames : List NamespaceFrame) (start : Changes) (modifiedAt : Time)
    (changes : Changes) (f : NamespaceFrame) : Prop :=
  (groupedEdits frames changes f.key = [] ∧ changes f.key = start f.key) ∨
    ∃ updated, groupedEdits frames changes f.key ≠ [] ∧ changes f.key = some updated ∧
      applyDirectoryEdits codec ((start f.key).getD f.entry) (groupedEdits frames changes f.key) modifiedAt =
        .ok updated

/-- The changes `result` come from the changes `start` by carrying every changed directory up. -/
structure Propagated (codec : NamespaceCodec) (frames : List NamespaceFrame) (start : Changes) (modifiedAt : Time)
    (result : Changes) : Prop where
  settled : ∀ f ∈ frames, Settled codec frames start modifiedAt result f
  outside : ∀ key, (∀ f ∈ frames, f.key ≠ key) → result key = start key

variable {g : NamespaceFrame}

theorem depth_of_parentKey (hdepth : g.depth ≠ 0) (h : g.parentKey = f.key) : g.depth = f.depth + 1 := by
  have hlen := congrArg (fun k => k.path.length) h
  simp only [NamespaceFrame.parentKey, NamespaceFrame.key, length_dropLast] at hlen
  unfold NamespaceFrame.depth at hdepth ⊢
  omega

variable {other : Changes}

theorem groupedEdits_congr (h : ∀ g ∈ frames, g.depth = f.depth + 1 → other g.key = changes g.key) :
    groupedEdits frames other f.key = groupedEdits frames changes f.key := by
  unfold groupedEdits
  have hfilter : (frames.filter fun g => g.depth ≠ 0 ∧ g.parentKey = f.key ∧ (other g.key).isSome) =
      frames.filter fun g => g.depth ≠ 0 ∧ g.parentKey = f.key ∧ (changes g.key).isSome := by
    refine filter_congr fun g hg => ?_
    by_cases hchild : g.depth ≠ 0 ∧ g.parentKey = f.key
    · rw [h g hg (depth_of_parentKey hchild.1 hchild.2)]
    · simp only [decide_eq_decide]
      constructor <;> exact fun hc => absurd ⟨hc.1, hc.2.1⟩ hchild
  rw [hfilter]
  refine map_congr_left fun g hg => ?_
  have hg' := mem_filter.mp hg
  simp only [decide_eq_true_eq] at hg'
  rw [h g hg'.1 (depth_of_parentKey hg'.2.1 hg'.2.2.1)]

theorem Settled.congr (h : Settled codec frames start modifiedAt changes f)
    (hself : other f.key = changes f.key) (hbelow : ∀ g ∈ frames, g.depth = f.depth + 1 → other g.key = changes g.key) :
    Settled codec frames start modifiedAt other f := by
  unfold Settled
  rw [groupedEdits_congr hbelow, hself]
  exact h

theorem propagateLevel_ok {grouped : FrameKey → List DirectoryEdit} {keys : List FrameKey} (hkeys : keys.Nodup)
    (h : propagateLevel codec frames grouped modifiedAt keys changes = .ok result) :
    (∀ key ∉ keys, result key = changes key) ∧
      ∀ key ∈ keys, ∃ parent updated, currentDirectory frames changes key = .ok parent ∧
        applyDirectoryEdits codec parent (grouped key) modifiedAt = .ok updated ∧ result key = some updated := by
  induction keys generalizing changes with
  | nil =>
    cases h
    simp
  | cons key rest ih =>
    obtain ⟨parent, hparent, h⟩ := bind_ok h
    obtain ⟨updated, hupdated, h⟩ := bind_ok h
    obtain ⟨hnotin, hrest⟩ := nodup_cons.mp hkeys
    obtain ⟨hother, hlisted⟩ := ih hrest h
    refine ⟨fun k hk => ?_, fun k hk => ?_⟩
    · simp only [mem_cons, not_or] at hk
      rw [hother k hk.2, Function.update_of_ne hk.1]
    · rcases mem_cons.mp hk with rfl | hk
      · exact ⟨parent, updated, hparent, hupdated, by rw [hother k hnotin, Function.update_self]⟩
      · have hne : k ≠ key := fun e => hnotin (e ▸ hk)
        obtain ⟨p, u, hp, hu, hres⟩ := hlisted k hk
        refine ⟨p, u, ?_, hu, hres⟩
        unfold currentDirectory at hp ⊢
        rwa [Function.update_of_ne hne] at hp

theorem mem_changedParents {depth : Nat} : key ∈ changedParents frames changes depth ↔
      ∃ f ∈ frames, f.depth = depth ∧ (changes f.key).isSome ∧ f.parentKey = key := by
  simp [changedParents, and_assoc]

theorem find_frame (hnodup : (frames.map NamespaceFrame.key).Nodup) (hf : f ∈ frames) :
    find NamespaceFrame.key frames f.key = some f := find_of_mem hnodup hf

/-- The loop over the levels: what lies below the current depth is settled, what lies above it has
not been looked at. -/
theorem propagateFrom_ok (hframes : FramesOf root frames) {depth : Nat}
    (hsettled : ∀ f ∈ frames, depth ≤ f.depth → Settled codec frames start modifiedAt changes f)
    (hfresh : ∀ f ∈ frames, f.depth < depth → changes f.key = start f.key)
    (houtside : ∀ key, (∀ f ∈ frames, f.key ≠ key) → changes key = start key)
    (h : propagateFrom codec frames modifiedAt depth changes = .ok result) :
      Propagated codec frames start modifiedAt result := by
  induction depth generalizing changes with
  | zero =>
    cases h
    exact ⟨fun f hf => hsettled f hf (Nat.zero_le _), houtside⟩
  | succ depth ih =>
    obtain ⟨next, hnext, h⟩ := bind_ok h
    obtain ⟨hother, hlisted⟩ := propagateLevel_ok (nodup_dedup _) hnext
    -- the keys of the level are those of directories one level up
    have hparents : ∀ f ∈ frames, f.key ∈ changedParents frames changes (depth + 1) → f.depth = depth := by
      intro f _ hmem
      obtain ⟨g, _, hdepth, _, hkey⟩ := mem_changedParents.mp hmem
      have := depth_of_parentKey (by omega) hkey
      omega
    have hkeep : ∀ f ∈ frames, f.depth ≠ depth → next f.key = changes f.key :=
      fun f hf hne => hother f.key fun hmem => hne (hparents f hf hmem)
    refine ih (fun f hf hdepth => ?_) (fun f hf hdepth => ?_) (fun key hkey => ?_) h
    · rcases Nat.lt_or_eq_of_le hdepth with hlt | rfl
      · exact (hsettled f hf hlt).congr (hkeep f hf (by omega)) fun g hg hg' => hkeep g hg (by omega)
      · have hgroup : groupedEdits frames next f.key = groupedEdits frames changes f.key :=
          groupedEdits_congr fun g hg hg' => hkeep g hg (by omega)
        by_cases hmem : f.key ∈ changedParents frames changes (f.depth + 1)
        · obtain ⟨parent, updated, hparent, hupdated, hres⟩ := hlisted _ hmem
          refine .inr ⟨updated, ?_, hres, ?_⟩
          · obtain ⟨g, hg, hgd, hsome, hkey⟩ := mem_changedParents.mp hmem
            rw [hgroup]
            intro hnil
            have hmem : g ∈ frames.filter fun g => g.depth ≠ 0 ∧ g.parentKey = f.key ∧ (changes g.key).isSome :=
              mem_filter.mpr ⟨hg, by simp [hgd, hkey, hsome]⟩
            rw [map_eq_nil_iff.mp hnil] at hmem
            cases hmem
          · rw [hgroup]
            convert hupdated using 2
            rw [← hfresh f hf (Nat.lt_succ_self _)]
            unfold currentDirectory at hparent
            cases hc : changes f.key with
            | some c => simpa [hc] using hparent
            | none => simpa [hc, find_frame hframes.nodup hf] using hparent
        · refine .inl ⟨?_, by rw [hother _ hmem, hfresh f hf (Nat.lt_succ_self _)]⟩
          rw [hgroup]
          unfold groupedEdits
          rw [map_eq_nil_iff, filter_eq_nil_iff]
          intro g hg hg'
          simp only [decide_eq_true_eq] at hg'
          exact hmem (mem_changedParents.mpr ⟨g, hg, depth_of_parentKey hg'.1 hg'.2.1, hg'.2.2, hg'.2.1⟩)
    · rw [hkeep f hf (by omega), hfresh f hf (by omega)]
    · refine (hother key fun hmem => ?_).trans (houtside key hkey)
      obtain ⟨g, hg, hgd, _, hgkey⟩ := mem_changedParents.mp hmem
      obtain ⟨p, hp, hpkey⟩ := hframes.parent g hg (by omega)
      exact hkey p hp (hpkey.trans hgkey)

theorem le_foldl_max (items : List NamespaceFrame) (m : Nat) : m ≤ items.foldl (fun depth f => max depth f.depth) m ∧
      ∀ f ∈ items, f.depth ≤ items.foldl (fun depth f => max depth f.depth) m := by
  induction items generalizing m with
  | nil => simp
  | cons a items ih =>
    obtain ⟨hm, hall⟩ := ih (max m a.depth)
    refine ⟨le_trans (le_max_left _ _) hm, fun f hf => ?_⟩
    rcases mem_cons.mp hf with rfl | hf
    · exact le_trans (le_max_right _ _) hm
    · exact hall f hf

theorem propagate_ok (hframes : FramesOf root frames)
    (h : propagate codec frames start modifiedAt = .ok result) : Propagated codec frames start modifiedAt result := by
  refine propagateFrom_ok hframes (fun f hf hdepth => .inl ⟨?_, rfl⟩) (fun _ _ _ => rfl) (fun _ _ => rfl) h
  -- nothing is changed below the greatest depth
  unfold groupedEdits
  rw [map_eq_nil_iff, filter_eq_nil_iff]
  intro g hg hg'
  simp only [decide_eq_true_eq] at hg'
  have hle := (le_foldl_max (frames.filter fun f => (start f.key).isSome) 0).2 g (mem_filter.mpr ⟨hg, hg'.2.2⟩)
  have := depth_of_parentKey hg'.1 hg'.2.1
  unfold maxDepth at hdepth
  omega

/-! ## The new tree -/

/-- The changes propagation starts from: directories of the frames with other children. -/
structure StartsFrom (frames : List NamespaceFrame) (start : Changes) : Prop where
  same : ∀ f ∈ frames, ∀ e, start f.key = some e → SameDirectory f.entry e
  framed : ∀ key e, start key = some e → ∃ f ∈ frames, f.key = key

section

structure Carried (codec : NamespaceCodec) (root : Area → NamespaceEntry) (frames : List NamespaceFrame)
    (start : Changes) (modifiedAt : Time) (result : Changes) : Prop where
  view : FramesOf root frames
  starts : StartsFrom frames start
  propagated : Propagated codec frames start modifiedAt result

variable (h : Carried codec root frames start modifiedAt result)
include h

theorem Carried.framed (he : result key = some e) : ∃ f ∈ frames, f.key = key := by
  by_contra hnone
  rw [h.propagated.outside key fun f hf hk => hnone ⟨f, hf, hk⟩] at he
  exact hnone (h.starts.framed key e he)

theorem Carried.same (hf : f ∈ frames) (he : result f.key = some e) : SameDirectory f.entry e := by
  have hbase : SameDirectory f.entry ((start f.key).getD f.entry) := by
    cases hs : start f.key with
    | none => exact .refl _
    | some b => exact h.starts.same f hf b hs
  rcases h.propagated.settled f hf with ⟨_, hkeep⟩ | ⟨updated, _, hres, hupdated⟩
  · exact h.starts.same f hf e (hkeep ▸ he)
  · rw [hres] at he
    cases he
    exact hbase.trans (applyDirectoryEdits_ok hupdated).same

variable {path : List String} {n : String}

theorem Carried.name_eq (hf : f ∈ frames) (hpath : f.path = path ++ [n]) : f.entry.name = n := by
  have hentry := h.view.entry f hf
  rw [hpath, lookup_append] at hentry
  obtain ⟨d, _, hd⟩ := Option.bind_eq_some_iff.mp hentry
  obtain ⟨c, hc, hce⟩ := Option.bind_eq_some_iff.mp hd
  cases hce
  exact (find_some hc).2

omit h in
theorem mem_groupedEdits {edit : DirectoryEdit} : edit ∈ groupedEdits frames result key ↔
      ∃ g ∈ frames, g.depth ≠ 0 ∧ g.parentKey = key ∧ (result g.key).isSome ∧
        edit = { before := some g.entry, after := result g.key } := by
  simp only [groupedEdits, mem_map, mem_filter, decide_eq_true_eq]
  constructor
  · rintro ⟨g, ⟨hg, hd, hp, hs⟩, rfl⟩
    exact ⟨g, hg, hd, hp, hs, rfl⟩
  · rintro ⟨g, hg, hd, hp, hs, rfl⟩
    exact ⟨g, ⟨hg, hd, hp, hs⟩, rfl⟩

omit h in
theorem child_path (hdepth : g.depth ≠ 0) (hparent : g.parentKey = f.key) :
    ∃ n, g.path = f.path ++ [n] ∧ g.area = f.area := by
  simp only [NamespaceFrame.parentKey, NamespaceFrame.key, FrameKey.mk.injEq] at hparent
  have hne : g.path ≠ [] := fun e => hdepth (by simp [NamespaceFrame.depth, e])
  exact ⟨g.path.getLast hne, by rw [← hparent.2, dropLast_append_getLast], hparent.1⟩

theorem Carried.edit_names (hg : g ∈ frames) (hpath : g.path = f.path ++ [n]) :
    g.entry.name = n ∧ ∀ c, result g.key = some c → c.name = n := by
  have hname := h.name_eq hg hpath
  exact ⟨hname, fun c hc => (h.same hg hc).name.trans hname⟩

theorem Carried.disjoint (f : NamespaceFrame) : Edit.Disjoint name (groupedEdits frames result f.key) := by
  unfold groupedEdits Edit.Disjoint
  rw [pairwise_map]
  have hnodup : (frames.filter fun g => g.depth ≠ 0 ∧ g.parentKey = f.key ∧ (result g.key).isSome).Pairwise
      fun a b => a.key ≠ b.key := by
    have := (pairwise_map.mp h.view.nodup)
    exact this.filter _
  refine hnodup.imp_of_mem fun {a b} ha hb hne k hk => ?_
  have ha' := mem_filter.mp ha
  have hb' := mem_filter.mp hb
  simp only [decide_eq_true_eq] at ha' hb'
  obtain ⟨na, hna, haa⟩ := child_path ha'.2.1 ha'.2.2.1
  obtain ⟨nb, hnb, hba⟩ := child_path hb'.2.1 hb'.2.2.1
  have hnames : ∀ (g : NamespaceFrame) (n : String), g ∈ frames → g.path = f.path ++ [n] → (result g.key).isSome →
      Edit.Touches name ({ before := some g.entry, after := result g.key } : DirectoryEdit) k → k = n := by
    intro g n hg hp hs ht
    obtain ⟨hbefore, hafter⟩ := h.edit_names hg hp
    rcases ht with ⟨b, hb, rfl⟩ | ⟨c, hc, rfl⟩
    · cases hb; exact hbefore
    · exact hafter c hc
  have hka := hnames a na ha'.1 hna ha'.2.2.2 hk.1
  have hkb := hnames b nb hb'.1 hnb hb'.2.2.2 hk.2
  refine hne ?_
  simp only [NamespaceFrame.key, FrameKey.mk.injEq]
  exact ⟨haa.trans hba.symm, by rw [hna, hnb, ← hka, ← hkb]⟩

/-- A child of a changed directory: the changed directory of that name, or what the edits before
propagation left there. -/
theorem Carried.find_child (hf : f ∈ frames) (he : result f.key = some e) (n : String) : find name e.children n =
      match result { area := f.area, path := f.path ++ [n] } with
      | some c => some c
      | none => find name ((start f.key).getD f.entry).children n := by
  have hchildren : e.children = applyAll name ((start f.key).getD f.entry).children
      (groupedEdits frames result f.key) := by
    rcases h.propagated.settled f hf with ⟨hnil, hkeep⟩ | ⟨updated, _, hres, hupdated⟩
    · rw [hnil, ← hkeep, he]
      rfl
    · rw [hres] at he
      cases he
      exact (applyDirectoryEdits_ok hupdated).children
  rw [hchildren]
  cases hc : result { area := f.area, path := f.path ++ [n] } with
  | some c =>
    obtain ⟨g, hg, hkey⟩ := h.framed hc
    have harea : g.area = f.area := congrArg FrameKey.area hkey
    have hpath : g.path = f.path ++ [n] := congrArg FrameKey.path hkey
    rw [← hkey] at hc
    have hedit : ({ before := some g.entry, after := result g.key } : DirectoryEdit) ∈ groupedEdits frames result
        f.key := by
      refine mem_groupedEdits.mpr ⟨g, hg, by simp [NamespaceFrame.depth, hpath], ?_, by simp [hc], rfl⟩
      simp [NamespaceFrame.parentKey, NamespaceFrame.key, harea, hpath]
    obtain ⟨hbefore, hafter⟩ := h.edit_names hg hpath
    rw [find_applyAll hedit hafter (.inl ⟨g.entry, rfl, hbefore⟩) ((h.disjoint f).imp fun hd => hd n), hc]
  | none =>
    refine find_applyAll_untouched fun edit hedit htouch => ?_
    obtain ⟨g, hg, hdepth, hparent, hsome, rfl⟩ := mem_groupedEdits.mp hedit
    obtain ⟨m, hpath, harea⟩ := child_path hdepth hparent
    obtain ⟨hbefore, hafter⟩ := h.edit_names hg hpath
    have hm : n = m := by
      rcases htouch with ⟨b, hb, rfl⟩ | ⟨c, hafterc, rfl⟩
      · cases hb; exact hbefore
      · exact hafter c hafterc
    have hkey : g.key = { area := f.area, path := f.path ++ [n] } := by
      rw [hm, NamespaceFrame.key, harea, hpath]
    rw [hkey, hc] at hsome
    cases hsome

theorem Carried.parent_some (hf : f ∈ frames) (hg : g ∈ frames) (hdepth : g.depth ≠ 0)
    (hparent : g.parentKey = f.key) (hsome : (result g.key).isSome) : (result f.key).isSome := by
  rcases h.propagated.settled f hf with ⟨hnil, _⟩ | ⟨updated, _, hres, _⟩
  · have hedit : ({ before := some g.entry, after := result g.key } : DirectoryEdit) ∈ groupedEdits frames
        result f.key :=
      mem_groupedEdits.mpr ⟨g, hg, hdepth, hparent, hsome, rfl⟩
    rw [hnil] at hedit
    cases hedit
  · simp [hres]

variable {c : NamespaceEntry}

theorem Carried.lookup_touched {area : Area} (hc : result { area, path } = some c) :
    ∃ top, result { area, path := [] } = some top ∧ top.lookup path = some c := by
  induction path using reverseRecOn generalizing c with
  | nil => exact ⟨c, hc, rfl⟩
  | append_singleton path n ih =>
    obtain ⟨g, hg, hkey⟩ := h.framed hc
    have harea : g.area = area := congrArg FrameKey.area hkey
    have hpath : g.path = path ++ [n] := congrArg FrameKey.path hkey
    obtain ⟨f, hf, hfkey⟩ := h.view.parent g hg (by simp [NamespaceFrame.depth, hpath])
    have hfkey' : f.key = { area, path } := by
      rw [hfkey, NamespaceFrame.parentKey, harea, hpath, dropLast_concat]
    have hsome := h.parent_some hf hg (by simp [NamespaceFrame.depth, hpath]) hfkey.symm (by rw [hkey, hc]; rfl)
    obtain ⟨d, hd⟩ := Option.isSome_iff_exists.mp hsome
    obtain ⟨top, htop, hlookup⟩ := ih (hfkey' ▸ hd)
    refine ⟨top, htop, ?_⟩
    rw [lookup_snoc hlookup, h.find_child hf hd n]
    have hfa : f.area = area := congrArg FrameKey.area hfkey'
    have hfp : f.path = path := congrArg FrameKey.path hfkey'
    rw [hfa, hfp, hc]

theorem Carried.lookup_below {area : Area} (hf : f ∈ frames) (hkey : f.key = { area, path })
    (hc : result { area, path } = some c) (hoff : result { area, path := path ++ [n] } = none) :
    c.lookup (n :: rest) = ((start { area, path }).getD f.entry).lookup (n :: rest) := by
  have hfa : f.area = area := congrArg FrameKey.area hkey
  have hfp : f.path = path := congrArg FrameKey.path hkey
  rw [lookup_cons, lookup_cons, h.find_child hf (hkey ▸ hc) n, hfa, hfp, hoff, hkey]

omit h in
theorem frames_induct {P : NamespaceFrame → Prop}
    (hstep : ∀ f ∈ frames, (∀ g ∈ frames, g.depth = f.depth + 1 → P g) → P f) : ∀ f ∈ frames, P f := by
  have hbound := (le_foldl_max frames 0).2
  generalize frames.foldl (fun depth f => max depth f.depth) 0 = bound at hbound
  have hall : ∀ k, ∀ f ∈ frames, bound - f.depth < k → P f := by
    intro k
    induction k with
    | zero => intro f _ hk; omega
    | succ k ih =>
      intro f hf hk
      refine hstep f hf fun g hg hdepth => ih g hg ?_
      have := hbound g hg
      omega
  exact fun f hf => hall (bound + 1) f hf (by omega)

theorem Carried.touched {area : Area}
    (he : result { area, path } = some e) : ∃ q, path <+: q ∧ (start { area, path := q }).isSome := by
  have hall : ∀ f ∈ frames, (result f.key).isSome → ∃ q, f.path <+: q ∧
      (start { area := f.area, path := q }).isSome := by
    refine frames_induct fun f hf ih hsome => ?_
    rcases h.propagated.settled f hf with ⟨_, hkeep⟩ | ⟨updated, hne, _, _⟩
    · exact ⟨f.path, prefix_rfl, by rw [hkeep] at hsome; exact hsome⟩
    · obtain ⟨edit, hedit⟩ := exists_mem_of_ne_nil _ hne
      obtain ⟨g, hg, hdepth, hparent, hgsome, _⟩ := mem_groupedEdits.mp hedit
      obtain ⟨n, hpath, harea⟩ := child_path hdepth hparent
      obtain ⟨q, hq, hs⟩ := ih g hg (depth_of_parentKey hdepth hparent) hgsome
      exact ⟨q, (prefix_append _ [n]).trans (hpath ▸ hq), harea ▸ hs⟩
  obtain ⟨f, hf, hkey⟩ := h.framed he
  have hfa : f.area = area := congrArg FrameKey.area hkey
  have hfp : f.path = path := congrArg FrameKey.path hkey
  have hq := hall f hf (by rw [hkey, he]; rfl)
  rwa [hfa, hfp] at hq

/-- Everything in the new tree is sound if the edits were: each changed directory still has the
directories below it that changed, as they were. -/
theorem Carried.sound (hroot : ∀ area, (root area).Everywhere (Sound codec))
    (hdirectories : ∀ f ∈ frames, f.entry.isDirectory = true) (hstart : ∀ f ∈ frames, ∀ e, start f.key = some e →
      Exact codec e ∧ ∀ c ∈ e.children, c.Everywhere (Sound codec))
    (hclear : ∀ f ∈ frames, ∀ g ∈ frames, ∀ n, g.key = { area := f.area, path := f.path ++ [n] } →
      (result g.key).isSome → find name ((start f.key).getD f.entry).children n = some g.entry) :
    ∀ f ∈ frames, ∀ e, result f.key = some e → e.Everywhere (Sound codec) := by
  refine frames_induct fun f hf ih e he => ?_
  have hentry : f.entry.Everywhere (Sound codec) := (hroot f.area).below (h.view.entry f hf)
  have hbase : Exact codec ((start f.key).getD f.entry) ∧
      ∀ c ∈ ((start f.key).getD f.entry).children, c.Everywhere (Sound codec) := by
    cases hs : start f.key with
    | some b => exact hstart f hf b hs
    | none =>
      have hexact := hentry.here.directory (hdirectories f hf)
      exact ⟨hexact, fun c hc => hentry.below (lookup_child hexact.names hc)⟩
  have hdirectory : e.isDirectory = true := by
    have hkind := (h.same hf he).kind
    have := hdirectories f hf
    simp only [isDirectory, decide_eq_true_eq] at this ⊢
    exact hkind.trans this
  have hmember : ∀ edit ∈ groupedEdits frames result f.key, ∃ g ∈ frames, ∃ n,
      g.key = { area := f.area, path := f.path ++ [n] } ∧ g.depth = f.depth + 1 ∧ (result g.key).isSome ∧
        edit = { before := some g.entry, after := result g.key } := by
    intro edit hedit
    obtain ⟨g, hg, hdepth, hparent, hsome, rfl⟩ := mem_groupedEdits.mp hedit
    obtain ⟨n, hpath, harea⟩ := child_path hdepth hparent
    exact ⟨g, hg, n, by rw [NamespaceFrame.key, hpath, harea], depth_of_parentKey hdepth hparent, hsome, rfl⟩
  -- the edits made by changed directories speak of the children that the base still has
  have hcoherent : Edit.Coherent name ((start f.key).getD f.entry).children (groupedEdits frames result f.key) := by
    refine coherent_of_disjoint (fun edit hedit => ?_) (h.disjoint f)
    obtain ⟨g, hg, n, hkey, _, hsome, rfl⟩ := hmember edit hedit
    have hfind := hclear f hf g hg n hkey hsome
    obtain ⟨_, hafter⟩ := h.edit_names hg (congrArg FrameKey.path hkey)
    refine ⟨fun b hb => ?_, fun a ha c hc hname => ?_⟩
    · cases hb
      exact (find_some hfind).1
    · have hc' := find_of_mem hbase.1.names hc
      rw [hname, hafter a ha, hfind] at hc'
      exact hc'
  have hchildren : ∀ c ∈ applyAll name ((start f.key).getD f.entry).children (groupedEdits frames result f.key),
      c.Everywhere (Sound codec) := by
    intro c hc
    rcases mem_applyAll hc with hc | ⟨edit, hedit, hafter⟩
    · exact hbase.2 c hc
    · obtain ⟨g, hg, n, _, hdepth, _, rfl⟩ := hmember edit hedit
      exact ih g hg hdepth c hafter
  rcases h.propagated.settled f hf with ⟨hnil, hkeep⟩ | ⟨updated, _, hres, hupdated⟩
  · have hsome : start f.key = some e := hkeep ▸ he
    rw [hsome, Option.getD_some] at hbase
    exact everywhere_of_children ⟨fun _ => hbase.1, fun hfile => by rw [hdirectory] at hfile; cases hfile⟩ hbase.2
  · rw [hres] at he
    cases he
    refine everywhere_of_children
      ⟨fun _ => exact_applyDirectoryEdits hbase.1 hcoherent hupdated,
        fun hfile => by rw [hdirectory] at hfile; cases hfile⟩ ?_
    rw [(applyDirectoryEdits_ok hupdated).children]
    exact hchildren

end

end EndlessFS
