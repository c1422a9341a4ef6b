import EndlessFS.Lib.Texts
import EndlessFS.Namespace.Aggregates

/-!
# EndlessFS.Namespace.Overlaps

The overlap check of batches (`rejectOverlappingNamespaceBatchPaths`). It sorts the texts of all paths that a batch
writes and compares neighbours only. A path that continues another one with a character below the separator is sorted
between that one and what is below it, and then the two are not compared.

* `Overlapping`: two of the paths are equal, or one is below the other.
* `Exposed`: two paths are equal, or nothing is sorted between a path and the first one below it.
* `overlap_detected_iff`: the check finds the overlaps of exactly the exposed batches.
-/

namespace EndlessFS

open FrameKey List

/-! ## Texts of paths -/

namespace FrameKey

/-- `IsDescendantOf`, for paths of one area. -/
def below (key root : FrameKey) : Bool :=
  key.area = root.area && pathText key.path ≠ pathText root.path &&
    (root.path.isEmpty || (pathText root.path ++ "/").toList.isPrefixOf (pathText key.path).toList)

def separated (key root : FrameKey) : Bool :=
  key.area = root.area && (pathText root.path ++ "/").toList.isPrefixOf (pathText key.path).toList

def continues (key root : FrameKey) : Bool :=
  key.area = root.area && (pathText root.path).toList.isPrefixOf (pathText key.path).toList &&
    ((pathText key.path).toList.drop (pathText root.path).length).head?.any fun c => c < '/'

def overlaps (a b : FrameKey) : Bool := a.text = b.text || a.below b || b.below a

theorem text_toList (key : FrameKey) : key.text.toList = key.area.text.toList ++ ':' :: (pathText key.path).toList := by
  simp [text, String.toList_append]

variable {key root : FrameKey}

theorem text_begins {tail : List Char} : root.text.toList ++ tail <+: key.text.toList ↔
      key.area = root.area ∧ (pathText root.path).toList ++ tail <+: (pathText key.path).toList := by
  rw [text_toList, text_toList, append_assoc, cons_append]
  cases ha : key.area <;> cases hb : root.area <;> simp [Area.text]

theorem text_eq_append {tail : List Char} : key.text.toList = root.text.toList ++ tail ↔
      key.area = root.area ∧ (pathText key.path).toList = (pathText root.path).toList ++ tail := by
  rw [text_toList, text_toList, append_assoc, cons_append]
  cases ha : key.area <;> cases hb : root.area <;> simp [Area.text]

theorem separated_iff : key.separated root = true ↔ root.text.toList ++ ['/'] <+: key.text.toList := by
  rw [text_begins]
  simp [separated, String.toList_append, isPrefixOf_iff_prefix]

theorem continues_iff : key.continues root = true ↔ ∃ c rest, c < '/' ∧
    key.text.toList = root.text.toList ++ c :: rest := by
  simp only [text_eq_append, continues, Bool.and_eq_true, decide_eq_true_eq, isPrefixOf_iff_prefix, Option.any_eq_true]
  constructor
  · rintro ⟨⟨harea, tail, htail⟩, c, hhead, hc⟩
    rw [← htail, ← String.length_toList, drop_left] at hhead
    obtain ⟨rest, rfl⟩ := head?_eq_some_iff.mp hhead
    exact ⟨c, rest, hc, harea, htail.symm⟩
  · rintro ⟨c, rest, hc, harea, htext⟩
    refine ⟨⟨harea, c :: rest, htext.symm⟩, c, ?_, hc⟩
    rw [htext, ← String.length_toList, drop_left]
    rfl

end FrameKey

/-! ## The check -/

variable (codec : NamespaceCodec)

def batchPaths (move : Bool) (plans : List (BatchMovePlan codec)) : List FrameKey :=
  plans.flatMap (BatchMovePlan.paths codec move)

variable {codec}

def Overlapping (paths : List FrameKey) : Prop := ¬paths.Pairwise fun a b => a.overlaps b = false

instance (paths : List FrameKey) : Decidable (Overlapping paths) := inferInstanceAs (Decidable (¬_))

def Exposed (paths : List FrameKey) : Prop :=
  ¬(paths.map FrameKey.text).Nodup ∨
    ∃ root ∈ paths, (∃ key ∈ paths, key.separated root = true) ∧ ∀ key ∈ paths, key.continues root = false

instance (paths : List FrameKey) : Decidable (Exposed paths) := inferInstanceAs (Decidable (_ ∨ _))

theorem neighboursOverlap_iff {texts : List String} : neighboursOverlap texts = false ↔
      (texts.map String.toList).IsChain (fun p s => s ≠ p ∧ ¬ p ++ ['/'] <+: s) := by
  induction texts with
  | nil => simp [neighboursOverlap]
  | cons previous rest ih =>
    cases rest with
    | nil => simp [neighboursOverlap]
    | cons current rest =>
      rw [map_cons, map_cons, isChain_cons_cons, ← map_cons, ← ih]
      simp [neighboursOverlap, String.toList_append, String.toList_inj, ← isPrefixOf_iff_prefix]

theorem sorted_texts (texts : List String) : ((texts.insertionSort fun a b => a ≤ b).map String.toList).Pairwise
    (· ≤ ·) := by
  rw [pairwise_map]
  exact (pairwise_insertionSort _ texts).imp fun h => String.le_iff_toList_le.mp h

theorem rejectOverlapping_ok_iff {move : Bool} {plans : List (BatchMovePlan codec)} :
    rejectOverlapping codec move plans = .ok () ↔ ¬Exposed (batchPaths codec move plans) := by
  set paths := batchPaths codec move plans with hpaths
  unfold rejectOverlapping
  rw [rejectIf_eq_ok_iff, ← batchPaths, ← hpaths, neighboursOverlap_iff, Conc.isChain_apart_iff (sorted_texts _)]
  have hperm := (List.perm_insertionSort (fun a b : String => a ≤ b) (paths.map FrameKey.text)).map String.toList
  have hmem : ∀ text, text ∈ ((paths.map FrameKey.text).insertionSort fun a b => a ≤ b).map String.toList ↔
      ∃ key ∈ paths, key.text.toList = text := by
    intro text
    simp
  simp only [Exposed, not_or, not_not, not_exists, not_and, hmem]
  refine and_congr ?_ ?_
  · rw [hperm.nodup_iff, nodup_map_iff fun _ _ => String.toList_injective]
  · constructor
    · intro h root hroot hbelow hnone
      obtain ⟨key, hkey, hseparated⟩ := hbelow
      obtain ⟨_, ⟨between, hbetween, rfl⟩, c, rest, hc, htext⟩ :=
        h root.text.toList ⟨root, hroot, rfl⟩ ⟨_, ⟨key, hkey, rfl⟩, FrameKey.separated_iff.mp hseparated⟩
      have hcontinues := FrameKey.continues_iff.mpr ⟨c, rest, hc, htext⟩
      rw [hnone between hbetween] at hcontinues
      cases hcontinues
    · rintro h _ ⟨root, hroot, rfl⟩ ⟨_, ⟨key, hkey, rfl⟩, hbelow⟩
      by_contra hnone
      refine h root hroot ⟨key, hkey, separated_iff.mpr hbelow⟩ fun between hbetween => ?_
      by_contra hcontinues
      obtain ⟨c, rest, hc, htext⟩ := continues_iff.mp (Bool.eq_true_of_not_eq_false hcontinues)
      exact hnone ⟨_, ⟨between, hbetween, rfl⟩, c, rest, hc, htext⟩

/-- The overlaps of a batch are found exactly if there are none or the batch is exposed. -/
theorem overlap_detected_iff (move : Bool) (plans : List (BatchMovePlan codec)) :
    (Overlapping (batchPaths codec move plans) →
        rejectOverlapping codec move plans = .error (newError .invalid "namespace batch contains overlapping paths")) ↔
      (Overlapping (batchPaths codec move plans) → Exposed (batchPaths codec move plans)) := by
  have hresult : rejectOverlapping codec move plans =
    .error (newError .invalid "namespace batch contains overlapping paths") ↔
      ¬rejectOverlapping codec move plans = .ok () := by
    simp only [rejectOverlapping, rejectIf]
    split
    · simp
    · simp
  rw [hresult, rejectOverlapping_ok_iff, not_not]

/-! ## A name between a directory and its entries -/

namespace Overlap

def planTo (path : UserPath sizes.toNormalization) : BatchMovePlan sizes where
  spec := { fromArea := .areaLive, toArea := .areaLive, source := pathB, destination := some path
            conflict := .conflictReplace, expectedSource := "", expectedTarget := "", operationID := "op" }
  sourceTrail := []
  destinationTrail := []
  sourceParent := { area := .areaLive, path := [], entry := emptyRoot sizes "owner" .areaLive }
  destinationParent := { area := .areaLive, path := [], entry := emptyRoot sizes "owner" .areaLive }
  source := emptyRoot sizes "owner" .areaLive
  existing := none
  resolved := path
  placed := emptyRoot sizes "owner" .areaLive

def pathBang : UserPath sizes.toNormalization := ⟨["a!"], fun _ _ => rfl, by decide +kernel⟩

/-- Copies to `/a` and to `/a/x` are accepted if another one is to `/a!`. -/
theorem overlap_missed : Overlapping (batchPaths sizes false [planTo pathA, planTo pathBang, planTo pathAX]) ∧
    rejectOverlapping sizes false [planTo pathA, planTo pathBang, planTo pathAX] = .ok () := by
  refine ⟨by decide +kernel, rejectOverlapping_ok_iff.mpr (by decide +kernel)⟩

end Overlap

end EndlessFS
