import Mathlib.Data.List.TakeWhile
import EndlessFS.Namespace.Aggregates

/-!
# EndlessFS.Namespace.Rename

The names that the conflict mode `ConflictRename` tries (`resolveDestination`).

* `trimBase_fits`: what the trimming loop leaves of a base.
* `RenameFits`: the conditions under which a candidate is a path.
* `rename_iff`: the lowest free candidate is found exactly when every candidate up to it fits.
-/

namespace EndlessFS

open Except List
open NamespaceEntry (name)

/-- What holds of Unicode normalization: texts do not change at an ASCII character, nor by being cut. -/
structure Normalization.Unicode (n : Normalization) : Prop where
  cut : ∀ a b : List Char, n.nfc (String.ofList (a ++ b)) = String.ofList (a ++ b) →
    n.nfc (String.ofList a) = String.ofList a ∧ n.nfc (String.ofList b) = String.ofList b
  joined : ∀ (a b : List Char), n.nfc (String.ofList a) = String.ofList a → n.nfc (String.ofList b) = String.ofList b →
    (∀ c ∈ b.head?, c.toNat < 128) → n.nfc (String.ofList (a ++ b)) = String.ofList (a ++ b)
  ascii : ∀ a : List Char, (∀ c ∈ a, c.toNat < 128) → n.nfc (String.ofList a) = String.ofList a

/-! ## The trimmed base -/

@[simp] theorem charsBytes_nil : charsBytes [] = 0 := rfl

@[simp] theorem charsBytes_cons (c : Char) (a : List Char) : charsBytes (c :: a) = c.utf8Size + charsBytes a := by
  simp [charsBytes]

@[simp] theorem charsBytes_append (a b : List Char) : charsBytes (a ++ b) = charsBytes a + charsBytes b := by
  simp [charsBytes]

theorem utf8ByteSize_ofList (a : List Char) : (String.ofList a).utf8ByteSize = charsBytes a := by
  induction a with
  | nil => simp
  | cons c a ih =>
    rw [show c :: a = [c] ++ a from rfl, String.ofList_append, String.utf8ByteSize_append, ih]
    simp

/-- The loop stops as soon as what is left fits, and it does so before nothing is left if the rest fits alone. -/
theorem trimBase_fits {extra fuel : Nat} {base : List Char} (hextra : extra ≤ maxSegmentBytes)
    (hfuel : base.length ≤ fuel) :
    charsBytes (trimBase extra fuel base) + extra ≤ maxSegmentBytes := by
  induction fuel generalizing base with
  | zero =>
    obtain rfl := length_eq_zero_iff.mp (Nat.le_zero.mp hfuel)
    simpa [trimBase] using hextra
  | succ fuel ih =>
    unfold trimBase
    split
    next => exact ih (by rw [length_dropLast]; omega)
    next hshort =>
      by_cases hnil : base = []
      · simpa [hnil] using hextra
      · have := mt (fun h => ⟨h, hnil⟩) hshort
        omega

/-! ## Candidates -/

/-- The text between base and extension. -/
def renameSuffix (index : Nat) : List Char := (" (" ++ toString index ++ ")").toList

/-- The suffix and the extension fit into a segment, and the candidate into a path. -/
def RenameFits {n : Normalization} (requested : UserPath n) (index : Nat) : Prop :=
  charsBytes (renameSuffix index) + charsBytes (splitExtension requested.name).2 ≤ maxSegmentBytes ∧
    pathBytes (requested.parent.segments ++ [candidateName requested.name index]) ≤ maxPathBytes

theorem splitExtension_append (text : String) : (splitExtension text).1 ++ (splitExtension text).2 = text.toList := by
  unfold splitExtension
  dsimp only
  split <;> simp

/-- An extension starts with a dot. -/
theorem splitExtension_head (text : String) : ∀ c ∈ (splitExtension text).2.head?, c = '.' := by
  unfold splitExtension
  dsimp only
  split
  next h =>
    have hsplit := takeWhile_append_dropWhile (p := (· ≠ '.')) (l := text.toList.reverse)
    cases hrest : text.toList.reverse.dropWhile (· ≠ '.') with
    | nil =>
      rw [hrest, append_nil] at hsplit
      have hmem : '.' ∈ text.toList.reverse.takeWhile (· ≠ '.') := by rw [hsplit]; exact mem_reverse.mpr h.1
      exact absurd (mem_takeWhile_imp hmem) (by simp)
    | cons d rest =>
      have hd : d = '.' := by
        have hnot := dropWhile_get_zero_not (· ≠ '.') text.toList.reverse (by rw [hrest]; simp)
        simp only [get_eq_getElem, hrest] at hnot
        simpa using hnot
      rw [hrest, hd] at hsplit
      generalize text.toList.reverse.takeWhile (· ≠ '.') = extension at hsplit ⊢
      have htext : text.toList = rest.reverse ++ '.' :: extension.reverse := by
        rw [← reverse_reverse text.toList, ← hsplit]
        simp
      have hindex : (rest.reverse ++ '.' :: extension.reverse).length - extension.length - 1 = rest.reverse.length := by
        simp only [length_append, length_cons, length_reverse]
        omega
      rw [htext, hindex, drop_left]
      exact fun c hc => (Option.some.inj hc).symm
  next => simp

theorem renameSuffix_eq (index : Nat) : renameSuffix index = ' ' :: '(' :: (Nat.toDigits 10 index ++ [')']) := by
  simp [renameSuffix]

theorem renameSuffix_ascii (index : Nat) : ∀ c ∈ renameSuffix index, 0x20 ≤ c.toNat ∧ c.toNat < 0x7f ∧ c ≠ '\\' := by
  intro c hc
  rw [renameSuffix_eq] at hc
  simp only [mem_cons, mem_append, not_mem_nil, or_false] at hc
  rcases hc with rfl | rfl | hc | rfl
  · decide
  · decide
  · have hdigit := Nat.isDigit_of_mem_toDigits (by decide) (by decide) hc
    simp only [Char.isDigit, Bool.and_eq_true, decide_eq_true_eq, ge_iff_le, UInt32.le_iff_toNat_le] at hdigit
    refine ⟨?_, ?_, ?_⟩
    · have h : 48 ≤ c.toNat := hdigit.1; omega
    · have h : c.toNat ≤ 57 := hdigit.2; omega
    · rintro rfl
      exact absurd hdigit.2 (by decide)
  · decide

theorem candidateName_eq (text : String) (index : Nat) : candidateName text index =
    String.ofList (trimBase (charsBytes (renameSuffix index) + charsBytes (splitExtension text).2)
      (splitExtension text).1.length (splitExtension text).1 ++ renameSuffix index ++ (splitExtension text).2) := rfl

theorem trimBase_isPrefix (extra fuel : Nat) (base : List Char) : trimBase extra fuel base <+: base := by
  induction fuel generalizing base with
  | zero => exact prefix_rfl
  | succ fuel ih =>
    unfold trimBase
    split
    · exact (ih _).trans (List.dropLast_prefix base)
    · exact prefix_rfl

section

variable {n : Normalization} {requested : UserPath n} (index : Nat) {text : String}

/-- A candidate is normalized: it is cut and joined at ASCII characters. -/
theorem nfc_candidateName (hunicode : n.Unicode) (htext : n.nfc text = text) :
    n.nfc (candidateName text index) = candidateName text index := by
  obtain ⟨rest, hrest⟩ := trimBase_isPrefix (charsBytes (renameSuffix index) + charsBytes (splitExtension text).2)
    (splitExtension text).1.length (splitExtension text).1
  rw [← String.ofList_toList (s := text), ← splitExtension_append] at htext
  obtain ⟨hbase, hextension⟩ := hunicode.cut _ _ htext
  rw [← hrest] at hbase
  rw [candidateName_eq]
  refine hunicode.joined _ _ (hunicode.joined _ _ (hunicode.cut _ _ hbase).1 (hunicode.ascii _ ?_) ?_) hextension ?_
  · exact fun c hc => by have := renameSuffix_ascii index c hc; omega
  · rw [renameSuffix_eq]
    intro c hc
    obtain rfl := Option.some.inj hc
    decide
  · intro c hc
    rw [splitExtension_head text c hc]
    decide

theorem extension_candidateName (text : String) : (splitExtension text).2 <:+ (candidateName text index).toList := by
  rw [candidateName_eq, String.toList_ofList]
  exact suffix_append _ _

theorem mem_candidateName {c : Char} (hc : c ∈ (candidateName text index).toList) :
    c ∈ text.toList ∨ c ∈ renameSuffix index := by
  rw [candidateName_eq, String.toList_ofList] at hc
  simp only [mem_append] at hc
  rw [← splitExtension_append text, mem_append]
  rcases hc with (hc | hc) | hc
  · exact .inl (.inl ((trimBase_isPrefix _ _ _).subset hc))
  · exact .inr hc
  · exact .inl (.inr hc)

/-- No dot segment and no reserved name has a parenthesis. -/
theorem parenthesis_mem_candidateName (text : String) : '(' ∈ (candidateName text index).toList := by
  rw [candidateName_eq, String.toList_ofList, renameSuffix_eq]
  simp

theorem validatePathSegment_eq_ok_iff {segment : String} : validatePathSegment segment = .ok () ↔
    segment ≠ "" ∧ segment.utf8ByteSize ≤ maxSegmentBytes ∧ segment ≠ "." ∧ segment ≠ ".." ∧
      ∀ c ∈ segment.toList, forbiddenCharacter c = false := by
  simp [validatePathSegment, bind_eq_ok_iff, rejectIf_eq_ok_iff, and_assoc]

theorem validate_candidateName (htext : validatePathSegment text = .ok ()) :
    validatePathSegment (candidateName text index) = .ok () ↔
      (candidateName text index).utf8ByteSize ≤ maxSegmentBytes := by
  rw [validatePathSegment_eq_ok_iff] at htext ⊢
  have hne : ∀ other : String, '(' ∉ other.toList → candidateName text index ≠ other := fun other hother heq =>
    hother (heq ▸ parenthesis_mem_candidateName index text)
  refine ⟨fun h => h.2.1, fun h => ⟨hne _ (by decide), h, hne _ (by decide), hne _ (by decide), fun c hc => ?_⟩⟩
  rcases mem_candidateName index hc with hc | hc
  · exact htext.2.2.2.2 c hc
  · obtain ⟨hlow, hhigh, hslash⟩ := renameSuffix_ascii index c hc
    simp only [forbiddenCharacter, Bool.or_eq_false_iff, decide_eq_false_iff_not]
    exact ⟨⟨hslash, by omega⟩, by omega⟩

theorem reserved_candidateName (text : String) : reservedSegment (candidateName text index) = false := by
  have hfold : ∀ small : String, '(' ∉ small.toList → equalFold (candidateName text index) small = false := by
    intro small hsmall
    simp only [equalFold, decide_eq_false_iff_not]
    intro heq
    exact hsmall (heq ▸ mem_map.mpr ⟨'(', parenthesis_mem_candidateName index text, by decide⟩)
  simp only [reservedSegment, hfold ".endlessfs" (by decide), hfold ".trash" (by decide), Bool.or_self]

theorem candidateName_fits_iff (text : String) : (candidateName text index).utf8ByteSize ≤ maxSegmentBytes ↔
    charsBytes (renameSuffix index) + charsBytes (splitExtension text).2 ≤ maxSegmentBytes := by
  rw [candidateName_eq, utf8ByteSize_ofList, charsBytes_append, charsBytes_append]
  constructor
  · omega
  · intro hextra
    have := trimBase_fits hextra (le_refl (splitExtension text).1.length)
    omega

theorem UserPath.nfc_name (hroot : requested.isRoot = false) : n.nfc requested.name = requested.name :=
  requested.normal _ (by rw [← UserPath.parent_append_name hroot]; simp)

/-- `Join` makes a path of a candidate exactly if it fits. -/
theorem join_candidateName (hunicode : n.Unicode) (hroot : requested.isRoot = false) :
    (∃ path, requested.parent.join (candidateName requested.name index) = .ok path) ↔ RenameFits requested index := by
  have hsegments := UserPath.parent_append_name hroot
  have hvalid := requested.valid
  rw [← hsegments, checkSegments_eq_ok_iff] at hvalid
  obtain ⟨_, hall, hreserved⟩ := hvalid.resolve_left (by simp)
  have hname : validatePathSegment requested.name = .ok () := hall _ (by simp)
  have hjoin := @UserPath.joinAll_ok_iff n requested.parent [candidateName requested.name index]
  simp only [UserPath.joinAll, map_singleton, nfc_candidateName index hunicode (UserPath.nfc_name hroot)] at hjoin
  rw [RenameFits, ← candidateName_fits_iff, ← validate_candidateName index hname]
  simp only [bind_eq_ok_iff, ok.injEq, exists_eq_right] at hjoin
  rw [hjoin, checkSegments_eq_ok_iff]
  constructor
  · intro h
    obtain ⟨hbytes, hvalid, _⟩ := h.resolve_left (by simp)
    exact ⟨hvalid _ (by simp), hbytes⟩
  · rintro ⟨hcandidate, hbytes⟩
    refine .inr ⟨hbytes, ?_, ?_⟩
    · intro segment hsegment
      rcases mem_append.mp hsegment with hsegment | hsegment
      · exact hall segment (mem_append_left _ hsegment)
      · rw [mem_singleton.mp hsegment]
        exact hcandidate
    · cases hparent : requested.parent.segments with
      | nil =>
        intro first hfirst
        rw [← Option.some.inj hfirst]
        exact reserved_candidateName index _
      | cons first rest => simpa [hparent] using hreserved

end

/-! ## The search -/

/-- The directory has an entry with the name of the candidate. -/
def candidateTaken {n : Normalization} (parent : NamespaceEntry) (requested : UserPath n) (index : Nat) : Bool :=
  (Edit.find name parent.children (candidateName requested.name index)).isSome

/-- The path in the same directory with the lowest candidate from `index` on that is not taken there. -/
structure Renamed {n : Normalization} (parent : NamespaceEntry) (requested path : UserPath n) (index number : Nat) :
    Prop where
  segments : path.segments = requested.parent.segments ++ [candidateName requested.name number]
  free : Edit.find name parent.children path.name = none
  lowest : ∀ i, index ≤ i → i < number → candidateTaken parent requested i = true
  extension : (splitExtension requested.name).2 <:+ path.name.toList

variable {codec : NamespaceCodec} {parent : NamespaceEntry} {requested : UserPath codec.toNormalization}

theorem child_eq_find (hparent : ∀ e ∈ parent.children, checkNamespaceEntry codec e = .ok ()) (text : String) :
    child codec parent text = .ok (Edit.find name parent.children text) := by
  unfold child
  cases hfind : Edit.find name parent.children text with
  | none => rfl
  | some e =>
    simp only [hparent e (Edit.find_some hfind).1, ok_bind, pure_eq_ok]

theorem renameFrom_iff (hunicode : codec.toNormalization.Unicode) (hroot : requested.isRoot = false)
    (hparent : ∀ e ∈ parent.children, checkNamespaceEntry codec e = .ok ()) {index fuel : Nat}
    (hfree : ∃ i, index ≤ i ∧ i < index + fuel ∧ candidateTaken parent requested i = false) :
    (∃ path number, renameFrom codec parent requested index fuel = .ok path ∧
      Renamed parent requested path index number) ↔
      ∀ i, index ≤ i → i < index + fuel → (∀ j, index ≤ j → j < i → candidateTaken parent requested j = true) →
        RenameFits requested i := by
  induction fuel generalizing index with
  | zero => obtain ⟨i, hlow, hhigh, _⟩ := hfree; omega
  | succ fuel ih =>
    unfold renameFrom
    by_cases hfits : RenameFits requested index
    · obtain ⟨path, hjoin⟩ := (join_candidateName index hunicode hroot).mpr hfits
      have hsegments : path.segments = requested.parent.segments ++ [candidateName requested.name index] := by
        rw [UserPath.join_eq_ok_iff.mp hjoin, nfc_candidateName index hunicode (UserPath.nfc_name hroot)]
      have hname : path.name = candidateName requested.name index := by simp [UserPath.name, hsegments]
      simp only [hjoin, ok_bind, child_eq_find hparent, hname]
      cases hfind : Edit.find name parent.children (candidateName requested.name index) with
      | none =>
        -- The first candidate is free: the condition says nothing of the later ones.
        refine iff_of_true ⟨path, index, rfl, ⟨hsegments, hname ▸ hfind, fun i hlow hhigh => by omega, ?_⟩⟩
          fun i hlow _ htaken => ?_
        · rw [hname]
          exact extension_candidateName index _
        · rcases hlow.eq_or_lt with rfl | hlt
          · exact hfits
          · exact absurd (htaken index le_rfl hlt) (by simp [candidateTaken, hfind])
      | some e =>
        obtain ⟨i, hlow, hhigh, hi⟩ := hfree
        have hne : index ≠ i := by
          rintro rfl
          simp [candidateTaken, hfind] at hi
        have hfirst : candidateTaken parent requested index = true := by simp [candidateTaken, hfind]
        have hnext := @ih (index + 1) ⟨i, by omega, by omega, hi⟩
        constructor
        · rintro ⟨path, number, hpath, hrenamed⟩ i hlow hhigh htaken
          rcases hlow.eq_or_lt with rfl | hlt
          · exact hfits
          · exact hnext.mp
              ⟨path, number, hpath, hrenamed.segments, hrenamed.free, fun j hj => hrenamed.lowest j (by omega),
                hrenamed.extension⟩
              i hlt (by omega) fun j hj => htaken j (by omega)
        · intro hall
          obtain ⟨path, number, hpath, hrenamed⟩ := hnext.mpr fun i hlow hhigh htaken =>
            hall i (by omega) (by omega) fun j hj hlt => by
              rcases hj.eq_or_lt with rfl | hj
              · exact hfirst
              · exact htaken j hj hlt
          refine ⟨path, number, hpath, hrenamed.segments, hrenamed.free, fun j hj hlt => ?_, hrenamed.extension⟩
          rcases hj.eq_or_lt with rfl | hj
          · exact hfirst
          · exact hrenamed.lowest j hj hlt
    · refine iff_of_false ?_ fun hall => hfits (hall index le_rfl (by omega) fun j hlow hhigh => by omega)
      rintro ⟨path, number, hpath, _⟩
      obtain ⟨candidate, hjoin, _⟩ := bind_ok hpath
      exact hfits ((join_candidateName index hunicode hroot).mp ⟨candidate, hjoin⟩)

/-- With the name taken and one of the candidates free, a destination is found, and it is the lowest free candidate
with the extension of the name, exactly if every candidate up to it fits into a segment and into a path. -/
theorem rename_iff (hunicode : codec.toNormalization.Unicode) (hroot : requested.isRoot = false)
    (hparent : ∀ e ∈ parent.children, checkNamespaceEntry codec e = .ok ())
    (htaken : (Edit.find name parent.children requested.name).isSome)
    (hfree : ∃ i, 1 ≤ i ∧ i ≤ 10000 ∧ candidateTaken parent requested i = false) (expected : String) :
    (∃ path number, resolveDestination codec parent requested .conflictRename expected = .ok (path, none) ∧
        Renamed parent requested path 1 number) ↔
      ∀ i, 1 ≤ i → i ≤ 10000 → (∀ j, 1 ≤ j → j < i → candidateTaken parent requested j = true) →
        RenameFits requested i := by
  obtain ⟨existing, hexisting⟩ := Option.isSome_iff_exists.mp htaken
  have hresolve : ∀ path, resolveDestination codec parent requested .conflictRename expected = .ok (path, none) ↔
      renameFrom codec parent requested 1 10000 = .ok path := fun path => by
    simp [resolveDestination, child_eq_find hparent, hexisting, resolveExisting, Except.bind_eq_ok_iff]
  simp only [hresolve]
  obtain ⟨i, hlow, hhigh, hi⟩ := hfree
  rw [renameFrom_iff hunicode hroot hparent ⟨i, hlow, by omega, hi⟩]
  exact forall_congr' fun i => imp_congr_right fun _ => by rw [show i < 1 + 10000 ↔ i ≤ 10000 by omega]

/-! ## An extension that leaves no room -/

namespace Crowded

open Overlap

theorem sizes_unicode : sizes.toNormalization.Unicode := ⟨fun _ _ _ => ⟨rfl, rfl⟩, fun _ _ _ _ _ => rfl, fun _ _ => rfl⟩

/-- A name of 255 bytes, 254 of them the extension. -/
def longName : String := String.ofList ('a' :: '.' :: List.replicate 253 'x')

def longPath : UserPath sizes.toNormalization := ⟨[longName], fun _ _ => rfl, by decide +kernel⟩

/-- The live directory with the file at a path. -/
def directoryWith (path : UserPath sizes.toNormalization) : NamespaceEntry :=
  (NamespaceView.empty.after sizes "owner" 1 (putFile path 1)).live.getD (emptyDirectory sizes "" "" 0)

/-- The name is taken and its first candidate is free, but that one is no path. -/
theorem rename_fails : (Edit.find name (directoryWith longPath).children longPath.name).isSome ∧
    candidateTaken (directoryWith longPath) longPath 1 = false ∧
    (resolveDestination sizes (directoryWith longPath) longPath .conflictRename "").map (fun _ => ()) =
      .error (newError .invalid "path segment exceeds 255 UTF-8 bytes") := by
  decide +kernel

/-- A file called `a` in the way of another. -/
theorem rename_a : (∃ path number, resolveDestination sizes (directoryWith pathA) pathA .conflictRename "" =
      .ok (path, none) ∧
      Renamed (directoryWith pathA) pathA path 1 number) ↔
    ∀ i, 1 ≤ i → i ≤ 10000 → (∀ j, 1 ≤ j → j < i → candidateTaken (directoryWith pathA) pathA j = true) →
    RenameFits pathA i :=
  rename_iff sizes_unicode (by decide) (by decide +kernel) (by decide +kernel)
    ⟨1, by decide, by decide, by decide +kernel⟩ ""

end Crowded

end EndlessFS
