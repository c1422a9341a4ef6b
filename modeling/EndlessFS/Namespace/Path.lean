import Mathlib.Algebra.Order.Ring.Int
import EndlessFS.Lib.Result
import EndlessFS.Format.Domain

/-!
# EndlessFS.Namespace.Path

Virtual paths (`domain/path.go`). A path is kept as its segments, the root as no segment; the text
of a path is its segments, each after a separator.

* `checkSegments`: what `ParseUserPath` checks of a normalized path.
* `UserPath`: a path that passed those checks; only `parseUserPath` and the operations on paths
  build one.
* `joinAll_eq_ok_iff`: joining names one after another succeeds exactly when the whole path is valid.
-/

namespace EndlessFS

open Except List

/-- `norm.NFC`: Unicode normalization, of which the model uses only that it is idempotent. -/
structure Normalization where
  nfc : String → String
  idempotent : ∀ s, nfc (nfc s) = nfc s

def maxPathBytes : Nat := 4096
def maxSegmentBytes : Nat := 255

/-- The characters `validatePathSegment` forbids. -/
def forbiddenCharacter (c : Char) : Bool := c = '\\' || c.toNat < 0x20 || c.toNat = 0x7f

def validatePathSegment (segment : String) : Except Error Unit := do
  rejectIf (segment = "") (newError .invalid "empty path segment")
  rejectIf (maxSegmentBytes < segment.utf8ByteSize) (newError .invalid "path segment exceeds 255 UTF-8 bytes")
  rejectIf (segment = "." || segment = "..") (newError .invalid "dot path segment")
  rejectIf (segment.toList.any forbiddenCharacter) (newError .invalid "forbidden path character")

/-- Case folding as far as `strings.EqualFold` with a text of small letters can tell: the long s and
the Kelvin sign are the only characters beyond ASCII that fold to one. -/
def foldCharacter (c : Char) : Char :=
  if c = 'ſ' then 's' else if c.toNat = 0x212a then 'k' else c.toLower

def equalFold (segment small : String) : Bool := segment.toList.map foldCharacter = small.toList

def reservedSegment (segment : String) : Bool := equalFold segment ".endlessfs" || equalFold segment ".trash"

def pathBytes (segments : List String) : Nat := (segments.map fun s => 1 + s.utf8ByteSize).sum

def validateSegments : List String → Except Error Unit
  | [] => .ok ()
  | segment :: rest => do
    validatePathSegment segment
    validateSegments rest

/-- `ParseUserPath` after normalization. -/
def checkSegments (segments : List String) : Except Error Unit :=
  match segments with
  | [] => .ok ()
  | first :: _ => do
    rejectIf (maxPathBytes < pathBytes segments) (newError .invalid "path exceeds 4096 UTF-8 bytes")
    rejectIf (segments.getLast? = some "") (newError .invalid "path must not have a trailing separator")
    validateSegments segments
    rejectIf (reservedSegment first) (newError .invalid "reserved top-level path")

/-- `UserPath`. -/
structure UserPath (n : Normalization) where
  segments : List String
  normal : ∀ s ∈ segments, n.nfc s = s
  valid : checkSegments segments = .ok ()

namespace UserPath

variable {n : Normalization}

@[ext] theorem ext {p q : UserPath n} (h : p.segments = q.segments) : p = q := by
  obtain ⟨qs, _, _⟩ := q
  cases h
  rfl

instance : DecidableEq (UserPath n) := fun p q =>
  decidable_of_iff (p.segments = q.segments) ⟨ext, fun h => h ▸ rfl⟩

def root : UserPath n := { segments := [], normal := by simp, valid := rfl }

def isRoot (p : UserPath n) : Bool := p.segments.isEmpty

/-- `Name`. -/
def name (p : UserPath n) : String := p.segments.getLast?.getD ""

def isDescendantOf (p root : UserPath n) : Bool := root.segments.isPrefixOf p.segments && p ≠ root

end UserPath

variable {segments : List String}

theorem validateSegments_eq_ok_iff : validateSegments segments = .ok () ↔ ∀ s ∈ segments,
    validatePathSegment s = .ok () := by
  induction segments with
  | nil => simp [validateSegments]
  | cons a rest ih =>
    cases ha : validatePathSegment a with
    | error e => simp [validateSegments, ha]
    | ok u => simp [validateSegments, ha, ih]

theorem checkSegments_eq_ok_iff : checkSegments segments = .ok () ↔
      segments = [] ∨ (pathBytes segments ≤ maxPathBytes ∧ (∀ s ∈ segments, validatePathSegment s = .ok ()) ∧
        ∀ first ∈ segments.head?, reservedSegment first = false) := by
  cases segments with
  | nil => simp [checkSegments]
  | cons a rest =>
    have hlast : (∀ s ∈ a :: rest, validatePathSegment s = .ok ()) → (a :: rest).getLast? ≠ some "" := by
      intro h hl
      have := h "" (mem_of_getLast? hl)
      simp [validatePathSegment, rejectIf, newError] at this
    simp only [checkSegments, bind_eq_ok_iff, rejectIf_eq_ok_iff, decide_eq_false_iff_not, Nat.not_lt, head?_cons,
      Option.mem_def, Option.some.injEq, forall_eq', reduceCtorEq, false_or]
    constructor
    · rintro ⟨_, hbytes, _, _, _, hsegments, hreserved⟩
      exact ⟨hbytes, validateSegments_eq_ok_iff.mp hsegments, hreserved⟩
    · rintro ⟨hbytes, hsegments, hreserved⟩
      exact ⟨(), hbytes, (), hlast hsegments, (), validateSegments_eq_ok_iff.mpr hsegments, hreserved⟩

theorem pathBytes_append (a b : List String) : pathBytes (a ++ b) = pathBytes a + pathBytes b := by
  simp [pathBytes]

theorem checkSegments_append {a b : List String} (h : checkSegments (a ++ b) = .ok ()) : checkSegments a = .ok () := by
  cases a with
  | nil => rfl
  | cons s rest =>
    rw [checkSegments_eq_ok_iff] at h ⊢
    obtain ⟨hbytes, hsegments, hreserved⟩ := h.resolve_left (by simp)
    refine .inr ⟨?_, fun t ht => hsegments t (mem_append_left _ ht), hreserved⟩
    rw [pathBytes_append] at hbytes
    exact le_trans (Nat.le_add_right _ _) hbytes

namespace UserPath

variable {n : Normalization}

/-- `Parent`. -/
def parent (p : UserPath n) : UserPath n where
  segments := p.segments.dropLast
  normal s hs := p.normal s (List.dropLast_subset _ hs)
  valid := by
    cases h : p.segments.getLast? with
    | none => rw [List.getLast?_eq_none_iff] at h; rw [h]; rfl
    | some s =>
      have hvalid := p.valid
      rw [← List.dropLast_append_getLast? s h] at hvalid
      exact checkSegments_append hvalid

end UserPath

/-- `ParseUserPath`, of the segments of a text. -/
def parseUserPath (n : Normalization) (segments : List String) : Except Error (UserPath n) :=
  match h : checkSegments (segments.map n.nfc) with
  | .error e => .error e
  | .ok () => .ok
      { segments := segments.map n.nfc
        normal := by
          intro s hs
          obtain ⟨t, _, rfl⟩ := List.mem_map.mp hs
          exact n.idempotent t
        valid := h }

variable {n : Normalization} {p : UserPath n}

theorem parseUserPath_eq_ok_iff : parseUserPath n segments = .ok p ↔ segments.map n.nfc = p.segments := by
  unfold parseUserPath
  constructor
  · intro h
    split at h
    · cases h
    · cases h; rfl
  · intro h
    split
    · rename_i e he
      rw [h, p.valid] at he
      cases he
    · exact congrArg ok (UserPath.ext h)

/-- `Join`. -/
def UserPath.join {n : Normalization} (p : UserPath n) (segment : String) : Except Error (UserPath n) := do
  validatePathSegment (n.nfc segment)
  rejectIf (reservedSegment (n.nfc segment) && p.isRoot) (newError .invalid "reserved top-level path")
  parseUserPath n (p.segments ++ [n.nfc segment])

theorem UserPath.map_nfc (p : UserPath n) : p.segments.map n.nfc = p.segments := by
  conv_rhs => rw [← map_id p.segments]
  exact map_congr_left fun s hs => p.normal s hs

theorem UserPath.join_eq_ok_iff {q : UserPath n} {segment : String} :
    p.join segment = .ok q ↔ q.segments = p.segments ++ [n.nfc segment] := by
  have hparse : parseUserPath n (p.segments ++ [n.nfc segment]) = .ok q ↔
      q.segments = p.segments ++ [n.nfc segment] := by
    rw [parseUserPath_eq_ok_iff, map_append, p.map_nfc, map_singleton, n.idempotent, eq_comm]
  unfold UserPath.join
  rw [bind_eq_ok_iff]
  constructor
  · rintro ⟨_, _, h⟩
    obtain ⟨_, _, h⟩ := bind_ok h
    exact hparse.mp h
  · intro h
    -- the checks made before the path is parsed are among those of the parse
    have hvalid := q.valid
    rw [h, checkSegments_eq_ok_iff] at hvalid
    obtain ⟨_, hsegments, hreserved⟩ := hvalid.resolve_left (by simp)
    refine ⟨(), hsegments _ (by simp), bind_eq_ok_iff.mpr ⟨(), ?_, hparse.mpr h⟩⟩
    rw [rejectIf_eq_ok_iff, Bool.and_eq_false_iff]
    by_cases hroot : p.segments = []
    · rw [hroot] at hreserved
      exact .inl (hreserved _ rfl)
    · exact .inr (by simp [UserPath.isRoot, hroot])

def UserPath.joinAll {n : Normalization} (p : UserPath n) : List String → Except Error (UserPath n)
  | [] => .ok p
  | segment :: rest => do
    let next ← p.join segment
    next.joinAll rest

theorem UserPath.joinAll_eq_ok_iff {names : List String} {q : UserPath n} :
    p.joinAll names = .ok q ↔ q.segments = p.segments ++ names.map n.nfc := by
  induction names generalizing p with
  | nil => simp [UserPath.joinAll, UserPath.ext_iff, eq_comm]
  | cons name rest ih =>
    have hassoc : p.segments ++ (name :: rest).map n.nfc = (p.segments ++ [n.nfc name]) ++ rest.map n.nfc := by
      simp
    rw [hassoc]
    constructor
    · intro h
      obtain ⟨next, hnext, h⟩ := bind_ok h
      rw [← UserPath.join_eq_ok_iff.mp hnext]
      exact ih.mp h
    · intro h
      have hnormal := q.normal
      have hvalid := q.valid
      rw [h] at hnormal hvalid
      let next : UserPath n :=
        ⟨p.segments ++ [n.nfc name], fun s hs => hnormal s (mem_append_left _ hs), checkSegments_append hvalid⟩
      exact bind_eq_ok_iff.mpr ⟨next, UserPath.join_eq_ok_iff.mpr rfl, ih.mpr h⟩

theorem UserPath.joinAll_ok_iff {names : List String} :
    (∃ q, p.joinAll names = .ok q) ↔ checkSegments (p.segments ++ names.map n.nfc) = .ok () := by
  refine ⟨fun ⟨q, h⟩ => UserPath.joinAll_eq_ok_iff.mp h ▸ q.valid, fun h => ?_⟩
  let q : UserPath n := ⟨p.segments ++ names.map n.nfc, fun s hs => ?_, h⟩
  · exact ⟨q, UserPath.joinAll_eq_ok_iff.mpr rfl⟩
  rcases mem_append.mp hs with hs | hs
  · exact p.normal s hs
  · obtain ⟨t, _, rfl⟩ := mem_map.mp hs
    exact n.idempotent t

theorem UserPath.parent_append_name (h : p.isRoot = false) : p.parent.segments ++ [p.name] = p.segments := by
  have hne : p.segments ≠ [] := by simpa [UserPath.isRoot] using h
  simp [UserPath.parent, UserPath.name, getLast?_eq_getLast_of_ne_nil hne, dropLast_append_getLast]

end EndlessFS
