import EndlessFS.Namespace.Move

/-!
# EndlessFS.Namespace.Addresses

Whether every stored entry can be addressed: the names on its path make a valid path.

* `NamespaceOperation.Short`: no entry below a relocated one gets a path beyond the limit.
* `Reachable.addressable`: in runs of such operations every entry of both trees has a valid path.
-/

namespace EndlessFS

open NamespaceEntry
open NamespaceEntry (name)

variable {codec : NamespaceCodec} {owner : String}

/-- Everything below what the operation relocates still has a path within the limit. Only the path of
the relocated entry itself is checked by the operation. -/
def NamespaceOperation.Short (at_ : Attempt) (op : NamespaceOperation codec) : Prop :=
  ∀ source resolved, op.Relocates at_ source resolved →
    ∀ rest e, source.lookup rest = some e → pathBytes (resolved.segments ++ rest) ≤ maxPathBytes

def Addressable (codec : NamespaceCodec) (owner : String) (view : NamespaceView) : Prop :=
  ∀ area path e, (viewRoot codec owner view area).lookup path = some e →
    ∃ p : UserPath codec.toNormalization, p.segments = path

theorem addressable_empty : Addressable codec owner .empty := by
  intro area path e he
  have hroot : viewRoot codec owner .empty area = emptyRoot codec owner area := by cases area <;> rfl
  rw [hroot] at he
  cases path with
  | nil => exact ⟨.root, rfl⟩
  | cons n rest => cases he

variable {rest : List String}

theorem UserPath.continue {n : Normalization} {p q : UserPath n} {above : List String} (hp : p.isRoot = false)
    (hq : q.segments = above ++ rest) (hbytes : pathBytes (p.segments ++ rest) ≤ maxPathBytes) :
    ∃ r : UserPath n, r.segments = p.segments ++ rest := by
  have hne : p.segments ≠ [] := by simpa [UserPath.isRoot] using hp
  obtain ⟨_, hpsegments, hpreserved⟩ := (checkSegments_eq_ok_iff.mp p.valid).resolve_left hne
  refine ⟨⟨p.segments ++ rest, fun s hs => ?_, ?_⟩, rfl⟩
  · rcases List.mem_append.mp hs with hs | hs
    · exact p.normal s hs
    · exact q.normal s (by rw [hq]; exact List.mem_append_right _ hs)
  · refine checkSegments_eq_ok_iff.mpr (.inr ⟨hbytes, fun s hs => ?_, ?_⟩)
    · rcases List.mem_append.mp hs with hs | hs
      · exact hpsegments s hs
      · have hmem : s ∈ q.segments := by rw [hq]; exact List.mem_append_right _ hs
        exact ((checkSegments_eq_ok_iff.mp q.valid).resolve_left (List.ne_nil_of_mem hmem)).2.1 s hmem
    · rw [List.head?_append_of_ne_nil _ hne]
      exact hpreserved

variable {at_ : Attempt} {op : NamespaceOperation codec}

theorem Places.addressable {key : FrameKey} {placed e : NamespaceEntry}
    (h : Places at_ op key placed) (hshort : op.Short at_) (hview : Addressable codec at_.owner at_.view)
    (he : placed.lookup rest = some e) :
    ∃ p : UserPath codec.toNormalization, p.segments = key.path ++ placed.name :: rest := by
  obtain ⟨resolved, hresolved, ⟨hchildren, _⟩ | ⟨source, hsource, hcontent⟩⟩ := h.path
  · cases rest with
    | nil => exact ⟨resolved, hresolved⟩
    | cons n rest =>
      rw [lookup_cons, hchildren] at he
      cases he
  · have hroot : resolved.isRoot = false := by simp [UserPath.isRoot, hresolved]
    obtain ⟨area, path, hlookup⟩ := hsource.source
    obtain ⟨below, hbelow⟩ : ∃ below, source.lookup rest = some below := by
      cases rest with
      | nil => exact ⟨source, rfl⟩
      | cons n rest =>
        rw [lookup_cons, hcontent.children, ← lookup_cons] at he
        exact ⟨e, he⟩
    obtain ⟨q, hq⟩ := hview area (path ++ rest) below (by
      rw [lookup_append]
      exact (congrArg (Option.bind · _) hlookup).trans hbelow)
    obtain ⟨r, hr⟩ := UserPath.continue hroot hq (hshort source resolved hsource rest below hbelow)
    exact ⟨r, by rw [hr, hresolved]; simp⟩

theorem Edits.addressable {changes : Changes} {pairs : List (FrameKey × DirectoryEdit)} (h : Edits at_ op changes pairs)
    (hshort : op.Short at_) (hview : Addressable codec at_.owner at_.view) {current : NamespaceView}
    (hcurrent : Addressable codec at_.owner current) : Addressable codec at_.owner (current.publish changes) := by
  obtain ⟨modifiedAt, frames, start, hcommits⟩ := h.commits
  intro area path e he
  cases hcommits.at_path current area path with
  | outside _ hroot => exact hcurrent area path e (hroot ▸ he)
  | through d c pair _ _ _ hd _ _ => exact hview area path d hd
  | below d q n rest pair hpath _ _ _ hd _ hnew =>
    rw [hnew] at he
    obtain ⟨c, hc, hrest⟩ := Option.bind_eq_some_iff.mp he
    rcases Edit.find_applyAll_cases hc with hold | ⟨edit, hedit, hafter⟩
    · refine hview area path e ?_
      have hlookup : (viewRoot codec at_.owner at_.view area).lookup q = some d := hd
      rw [hpath, lookup_append, hlookup, Option.bind_some, lookup_cons, hold]
      exact hrest
    · obtain ⟨p, hp⟩ := (h.places _ (mem_editsFor.mp hedit) c hafter).addressable hshort hview hrest
      exact ⟨p, by rw [hp, hpath, (Edit.find_some hc).2]⟩

theorem Reachable.addressable {view : NamespaceView} (h : Reachable codec owner (fun at_ op => op.Short at_) view) :
    Addressable codec owner view := by
  induction h with
  | empty => exact addressable_empty
  | @step view current now op changes _ _ hop hrun _ ihview ihcurrent =>
    obtain ⟨pairs, hedits⟩ := edits_of_run hrun
    exact hedits.addressable hop ihview ihcurrent

theorem NamespaceOperation.short_of_childless
    (h : ∀ source resolved, op.Relocates at_ source resolved → source.children = []) : op.Short at_ := by
  intro source resolved hrelocates rest e he
  cases rest with
  | nil =>
    rw [List.append_nil]
    rcases checkSegments_eq_ok_iff.mp resolved.valid with hroot | ⟨hbytes, _⟩
    · rw [hroot]
      decide
    · exact hbytes
  | cons n rest =>
    rw [lookup_cons, h source resolved hrelocates] at he
    cases he

/-- In every run whose operations relocate subtrees within the limit, joining the names on the way to any
entry of either tree gives its path. -/
theorem entries_addressable {view : NamespaceView} (h : Reachable codec owner (fun at_ op => op.Short at_) view)
    (area : Area) (path : List String) (e : NamespaceEntry)
    (he : (viewRoot codec owner view area).lookup path = some e) :
    ∃ p : UserPath codec.toNormalization, UserPath.root.joinAll path = .ok p := by
  obtain ⟨p, hp⟩ := h.addressable area path e he
  rw [UserPath.joinAll_ok_iff, ← hp, p.map_nfc]
  exact p.valid

namespace Overlap

/-- The files of the example tree have paths, also the one that was moved. -/
theorem tree_addressable : (viewRoot sizes "owner" moved .areaLive).lookup ["a", "y"] ≠ none ∧
    (viewRoot sizes "owner" moved .areaLive).lookup ["a", "x"] = none ∧
    ∃ p : UserPath sizes.toNormalization, UserPath.root.joinAll ["b"] = .ok p := by
  have hreachable : Reachable sizes "owner" (fun at_ op => op.Short at_) moved := by
    refine (reachable_tree (fun _ _ _ hr => by cases hr) fun _ _ _ _ _ hr => by cases hr).after 5 moveOnto ?_
    refine NamespaceOperation.short_of_childless fun source resolved hr => ?_
    have hchildren : ((viewRoot sizes "owner" tree .areaLive).lookup ["a", "x"]).map (fun e => e.children.isEmpty) =
        some true := by decide +kernel
    have hsource : (viewRoot sizes "owner" tree .areaLive).lookup ["a", "x"] = some source := hr.1
    rw [hsource] at hchildren
    exact List.isEmpty_iff.mp (Option.some.inj hchildren)
  have hfound : ((viewRoot sizes "owner" moved .areaLive).lookup ["b"]).isSome = true := by decide +kernel
  have hkept : ((viewRoot sizes "owner" moved .areaLive).lookup ["a", "y"]).isSome = true := by decide +kernel
  have hgone : ((viewRoot sizes "owner" moved .areaLive).lookup ["a", "x"]).isNone = true := by decide +kernel
  obtain ⟨e, he⟩ := Option.isSome_iff_exists.mp hfound
  exact ⟨Option.isSome_iff_ne_none.mp hkept, Option.isNone_iff_eq_none.mp hgone,
    entries_addressable hreachable .areaLive ["b"] e he⟩

def nameS : String := "ssssssssssssssssssssssssssssssssssssssssssssssssssssssssssssssssssssssssssssssss"
def nameT : String := "tttttttttttttttttttttttttttttttttttttttttttttttttttttttttttttttttttttttttttttttt"

def pathS : UserPath sizes.toNormalization := ⟨[nameS], fun _ _ => rfl, by decide +kernel⟩
def pathT : UserPath sizes.toNormalization := ⟨[nameT], fun _ _ => rfl, by decide +kernel⟩
def pathST : UserPath sizes.toNormalization := ⟨[nameS, nameT], fun _ _ => rfl, by decide +kernel⟩
def pathTS : UserPath sizes.toNormalization := ⟨[nameT, nameS], fun _ _ => rfl, by decide +kernel⟩

def makeDirectory (path : UserPath sizes.toNormalization) : NamespaceOperation sizes :=
  .createDirectory { area := .areaLive, path := path, conflict := .conflictFail, expectedVersion := "",
                     mutationID := "m" }

def moveDirectory (source destination : UserPath sizes.toNormalization) : NamespaceOperation sizes :=
  .copyOrMove true { asideRequest with source := source, destination := some destination }

/-- Put two directories around the tree at `/S`; no path in these operations has more than two names. -/
def wrap (view : NamespaceView) : NamespaceView :=
  (((view.after sizes "owner" 1 (makeDirectory pathT)).after sizes "owner" 1 (moveDirectory pathS pathTS)).after sizes
    "owner" 1 (makeDirectory pathS)).after sizes "owner" 1 (moveDirectory pathT pathST)

def deep : Nat → NamespaceView
  | 0 => NamespaceView.empty.after sizes "owner" 1 (makeDirectory pathS)
  | n + 1 => wrap (deep n)

def deepNames : Nat → List String
  | 0 => [nameS]
  | n + 1 => nameS :: nameT :: deepNames n

theorem reachable_deep (n : Nat) : Reachable sizes "owner" (fun _ _ => True) (deep n) := by
  induction n with
  | zero => exact Reachable.empty.after 1 _ trivial
  | succ n ih => exact (((ih.after 1 _ trivial).after 1 _ trivial).after 1 _ trivial).after 1 _ trivial

/-- Moving a tree down step by step leaves a directory whose path cannot be written. -/
theorem entry_unaddressable : ∃ view, Reachable sizes "owner" (fun _ _ => True) view ∧
    ((viewRoot sizes "owner" view .areaLive).lookup (deepNames 25)).isSome = true ∧
    ¬∃ p : UserPath sizes.toNormalization, UserPath.root.joinAll (deepNames 25) = .ok p := by
  refine ⟨deep 25, reachable_deep 25, by decide +kernel, fun hjoin => ?_⟩
  rw [UserPath.joinAll_ok_iff] at hjoin
  have hlong : ¬checkSegments ((UserPath.root : UserPath sizes.toNormalization).segments ++
      (deepNames 25).map sizes.nfc) = .ok () := by decide +kernel
  exact hlong hjoin

end Overlap

end EndlessFS
