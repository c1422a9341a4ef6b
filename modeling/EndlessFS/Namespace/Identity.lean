import Mathlib.Data.Vector.Basic
import Mathlib.Tactic.LinearCombination
import Mathlib.Tactic.Positivity
import EndlessFS.Namespace.Aggregates

/-!
# EndlessFS.Namespace.Identity

The content identity of a directory, down to the bytes of its accumulator (`portable/filesystem.go`).

* `applyDirectoryContentContributionBytes`: the loop over the 32 bytes of a contribution, with its carry.
* `accumulatorBits_apply`: on the numbers that the bytes write, the loop is exclusive or, and addition or subtraction
  modulo `2 ^ 256`.
* `identity_incremental`: the identity is one of the set of entries, and updating it is computing it anew.
-/

namespace EndlessFS

open List

/-! ## Numbers in bytes -/

def ofBytes : List UInt8 → Nat
  | [] => 0
  | b :: bytes => 256 ^ bytes.length * b.toNat + ofBytes bytes

theorem ofBytes_lt (bytes : List UInt8) : ofBytes bytes < 256 ^ bytes.length := by
  induction bytes with
  | nil => simp [ofBytes]
  | cons b bytes ih =>
    have hb := b.toNat_lt
    calc ofBytes (b :: bytes) < 256 ^ bytes.length * b.toNat + 256 ^ bytes.length := by simpa [ofBytes] using ih
      _ = 256 ^ bytes.length * (b.toNat + 1) := (Nat.mul_succ _ _).symm
      _ ≤ 256 ^ bytes.length * 256 := Nat.mul_le_mul_left _ (by omega)
      _ = 256 ^ (b :: bytes).length := by rw [length_cons, pow_succ]

variable {a : List UInt8}

theorem ofBytes_inj {b : List UInt8} (hlength : a.length = b.length) (h : ofBytes a = ofBytes b) : a = b := by
  induction a generalizing b with
  | nil => exact (length_eq_zero_iff.mp hlength.symm).symm
  | cons x a ih =>
    obtain _ | ⟨y, b⟩ := b
    · cases hlength
    have hab : a.length = b.length := Nat.succ.inj hlength
    have ha := ofBytes_lt a
    have hb := ofBytes_lt b
    simp only [ofBytes, hab] at h ha
    have hpos : 0 < 256 ^ b.length := by positivity
    have hx : x.toNat = y.toNat := by
      have := congrArg (· / 256 ^ b.length) h
      simpa [Nat.mul_add_div hpos, Nat.div_eq_of_lt ha, Nat.div_eq_of_lt hb] using this
    rw [UInt8.toNat_inj.mp hx, ih hab (by rw [hx] at h; omega)]

theorem ofBytes_xor {c : List UInt8} (h : a.length = c.length) :
    ofBytes (zipWith (· ^^^ ·) a c) = ofBytes a ^^^ ofBytes c := by
  induction a generalizing c with
  | nil => obtain rfl := length_eq_zero_iff.mp h.symm; rfl
  | cons x a ih =>
    obtain _ | ⟨y, c⟩ := c
    · cases h
    have hac : a.length = c.length := Nat.succ.inj h
    have hpow : ∀ n, 256 ^ n = 2 ^ (8 * n) := fun n => by rw [pow_mul]; rfl
    have ha := ofBytes_lt a
    have hc := ofBytes_lt c
    have hxor : ofBytes a ^^^ ofBytes c < 2 ^ (8 * c.length) :=
      Nat.xor_lt_two_pow (by rw [← hpow, ← hac]; exact ha) (by rwa [← hpow])
    simp only [hac, hpow] at ha hc
    simp only [zipWith_cons_cons, ofBytes, length_zipWith, hac, min_self, ih hac, hpow]
    -- The bits below the first byte are those of the rest, the ones above it those of the byte.
    refine Nat.eq_of_testBit_eq fun i => ?_
    rw [Nat.testBit_xor, Nat.testBit_two_pow_mul_add _ hxor, Nat.testBit_two_pow_mul_add _ ha,
      Nat.testBit_two_pow_mul_add _ hc]
    split <;> simp

/-! ## The loop -/

def accumulateByte (remove : Bool) (a c : UInt8) (carry : Nat) : UInt8 × Nat :=
  if remove then
    let value : Int := a.toNat - c.toNat - carry
    if value < 0 then (UInt8.ofNat (value + 256).toNat, 1) else (UInt8.ofNat value.toNat, 0)
  else
    let value := a.toNat + c.toNat + carry
    (UInt8.ofNat value, value >>> 8)

def accumulateBytes (remove : Bool) : List UInt8 → List UInt8 → List UInt8 × Nat
  | a :: accumulator, c :: contribution =>
    let below := accumulateBytes remove accumulator contribution
    let this := accumulateByte remove a c below.2
    (this.1 :: below.1, this.2)
  | accumulator, _ => (accumulator, 0)

theorem accumulateBytes_length (remove : Bool) (a c : List UInt8) :
    (accumulateBytes remove a c).1.length = a.length := by
  induction a generalizing c with
  | nil => cases c <;> rfl
  | cons x a ih =>
    cases c with
    | nil => rfl
    | cons y c => simp [accumulateBytes, ih]

/-- The sign of a contribution, and of the carry that it leaves. -/
def sign (remove : Bool) : Int := if remove then -1 else 1

theorem accumulateByte_spec (remove : Bool) (a c : UInt8) (carry : Nat) (hcarry : carry ≤ 1) :
    ((accumulateByte remove a c carry).1.toNat : Int) =
        a.toNat + sign remove * (c.toNat + carry - 256 * (accumulateByte remove a c carry).2) ∧
      (accumulateByte remove a c carry).2 ≤ 1 := by
  have ha := a.toNat_lt
  have hc := c.toNat_lt
  cases remove with
  | false =>
    simp only [accumulateByte, sign, Bool.false_eq_true, if_false, UInt8.toNat_ofNat', Nat.shiftRight_eq_div_pow]
    omega
  | true =>
    simp only [accumulateByte, sign, if_true]
    split <;> simp only [UInt8.toNat_ofNat'] <;> omega

theorem accumulateBytes_spec (remove : Bool) {c : List UInt8} (h : a.length = c.length) :
    (ofBytes (accumulateBytes remove a c).1 : Int) =
        ofBytes a + sign remove * (ofBytes c - 256 ^ a.length * (accumulateBytes remove a c).2) ∧
      (accumulateBytes remove a c).2 ≤ 1 := by
  induction a generalizing c with
  | nil => obtain rfl := length_eq_zero_iff.mp h.symm; simp [accumulateBytes, ofBytes]
  | cons x a ih =>
    obtain _ | ⟨y, c⟩ := c
    · cases h
    have hac : a.length = c.length := Nat.succ.inj h
    obtain ⟨hsum, hcarry⟩ := ih hac
    obtain ⟨hbyte, hbound⟩ := accumulateByte_spec remove x y _ hcarry
    refine ⟨?_, hbound⟩
    simp only [accumulateBytes, ofBytes, accumulateBytes_length, length_cons, pow_succ, ← hac, Nat.cast_add,
      Nat.cast_mul, Nat.cast_pow, Nat.cast_ofNat]
    linear_combination hsum + 256 ^ a.length * hbyte

/-- `applyDirectoryContentContribution` on the bytes of the accumulator. -/
def applyDirectoryContentContributionBytes (accumulator : List.Vector UInt8 64) (contribution : List.Vector UInt8 32)
    (remove : Bool) : List.Vector UInt8 64 :=
  ⟨List.zipWith (· ^^^ ·) (accumulator.val.take 32) contribution.val ++
    (accumulateBytes remove (accumulator.val.drop 32) contribution.val).1,
    by simp [accumulateBytes_length, accumulator.2, contribution.2]⟩

def contributionBits (bytes : List.Vector UInt8 32) : BitVec 256 := BitVec.ofNat 256 (ofBytes bytes.val)

def accumulatorBits (bytes : List.Vector UInt8 64) : Accumulator where
  xored := BitVec.ofNat 256 (ofBytes (bytes.val.take 32))
  summed := BitVec.ofNat 256 (ofBytes (bytes.val.drop 32))

theorem accumulatorBits_injective : Function.Injective accumulatorBits := by
  intro a b h
  have hhalf : ∀ {x y : List UInt8}, x.length = 32 → y.length = 32 →
      BitVec.ofNat 256 (ofBytes x) = BitVec.ofNat 256 (ofBytes y) → x = y := by
    intro x y hx hy hxy
    have hltx := ofBytes_lt x
    have hlty := ofBytes_lt y
    rw [hx] at hltx
    rw [hy] at hlty
    have hmod := congrArg BitVec.toNat hxy
    simp only [BitVec.toNat_ofNat] at hmod
    exact ofBytes_inj (hx.trans hy.symm) (by omega)
  simp only [accumulatorBits, Accumulator.mk.injEq] at h
  refine Subtype.ext ?_
  rw [← take_append_drop 32 a.val, ← take_append_drop 32 b.val,
    hhalf (by simp [a.2]) (by simp [b.2]) h.1, hhalf (by simp [a.2]) (by simp [b.2]) h.2]

/-- The carry and borrow loop is addition and subtraction modulo `2 ^ 256`. -/
theorem accumulatorBits_apply (accumulator : List.Vector UInt8 64) (contribution : List.Vector UInt8 32)
    (remove : Bool) :
    accumulatorBits (applyDirectoryContentContributionBytes accumulator contribution remove) =
      applyDirectoryContentContribution (accumulatorBits accumulator) (contributionBits contribution) remove := by
  have htake : (accumulator.val.take 32).length = contribution.val.length := by simp [accumulator.2, contribution.2]
  have hdrop : (accumulator.val.drop 32).length = contribution.val.length := by simp [accumulator.2, contribution.2]
  have hxored : (zipWith (· ^^^ ·) (accumulator.val.take 32) contribution.val).length = 32 := by
    simp [accumulator.2, contribution.2]
  simp only [accumulatorBits, applyDirectoryContentContributionBytes, take_left' hxored, drop_left' hxored,
    applyDirectoryContentContribution, contributionBits, Accumulator.mk.injEq]
  refine ⟨by rw [ofBytes_xor htake, BitVec.ofNat_xor], ?_⟩
  have hsum := (accumulateBytes_spec remove hdrop).1
  rw [hdrop, contribution.2] at hsum
  cases remove with
  | false =>
    rw [if_neg (by decide), ← BitVec.ofNat_add]
    refine BitVec.eq_of_toNat_eq ?_
    simp only [sign, Bool.false_eq_true, if_false] at hsum
    simp only [BitVec.toNat_ofNat]
    omega
  | true =>
    rw [if_pos rfl, BitVec.eq_sub_iff_add_eq, ← BitVec.ofNat_add]
    refine BitVec.eq_of_toNat_eq ?_
    simp only [sign, if_true] at hsum
    simp only [BitVec.toNat_ofNat]
    omega

/-! ## The identity -/

variable {codec : NamespaceCodec}

def bareEntry (entry : DirectoryEntry) : NamespaceEntry := .mk { nodeID := "", entry } []

theorem map_bareEntry (entries : List DirectoryEntry) : (entries.map bareEntry).map NamespaceEntry.entry = entries := by
  simp [map_map, Function.comp_def, bareEntry, NamespaceEntry.entry]

def contributionTotal (codec : NamespaceCodec) (entries : List DirectoryEntry) : Accumulator :=
  (accumulatorTally codec).total (entries.map bareEntry)

def AllContribute (codec : NamespaceCodec) (entries : List DirectoryEntry) : Prop :=
  ∀ entry ∈ entries, ∃ contribution, directoryContentContribution codec entry = .ok contribution

variable {entries : List DirectoryEntry} {accumulator : Accumulator}

theorem applyContributions_bare {remove : Bool} {result : Accumulator} :
    applyContributions codec remove accumulator entries = .ok result ↔ AllContribute codec entries ∧
      result = (entries.map bareEntry).foldl
        (fun x e => applyDirectoryContentContribution x (contributionOf codec e) remove) accumulator := by
  have h := @applyContributions_eq_ok_iff codec remove accumulator result (entries.map bareEntry)
  rw [map_bareEntry] at h
  rw [h]
  simp [Contributes, AllContribute, bareEntry, NamespaceEntry.entry]

theorem applyContributions_append {remove : Bool} (entries others : List DirectoryEntry) :
    applyContributions codec remove accumulator (entries ++ others) =
      applyContributions codec remove accumulator entries >>= fun reached => applyContributions codec remove reached
        others := by
  induction entries generalizing accumulator with
  | nil => rfl
  | cons entry entries ih =>
    simp only [cons_append, applyContributions]
    cases directoryContentContribution codec entry with
    | error e => rfl
    | ok contribution => exact ih

theorem foldl_remove_total (removed rest : List NamespaceEntry) :
    removed.foldl (accumulatorTally codec).remove ((accumulatorTally codec).total (removed ++ rest)) =
      (accumulatorTally codec).total rest := by
  induction removed with
  | nil => rfl
  | cons e removed ih => rw [cons_append, Tally.total_cons, foldl_cons, Tally.remove_add, ih]

theorem directoryContentIdentity_eq (h : AllContribute codec entries) : directoryContentIdentity codec entries =
      .ok (contributionTotal codec entries, codec.accumulatorDigest (contributionTotal codec entries)
        entries.length) := by
  have hall : applyContributions codec false .zero entries = .ok (contributionTotal codec entries) :=
    applyContributions_bare.mpr ⟨h, rfl⟩
  rw [directoryContentIdentity, hall]
  rfl

theorem directoryContentIdentity_perm {entries' : List DirectoryEntry} (h : AllContribute codec entries)
    (hperm : entries.Perm entries') : directoryContentIdentity codec entries' =
      directoryContentIdentity codec entries := by
  have h' : AllContribute codec entries' := fun entry hentry => h entry (hperm.mem_iff.mpr hentry)
  have htotal : contributionTotal codec entries = contributionTotal codec entries' := Tally.total_perm _ (hperm.map _)
  rw [directoryContentIdentity_eq h, directoryContentIdentity_eq h', htotal, hperm.length_eq]

theorem updateDirectoryContentIdentityAtCount_eq {before rest after : List DirectoryEntry}
    {digest : String} (hidentity : directoryContentIdentity codec entries = .ok (accumulator, digest))
    (hperm : entries.Perm (before ++ rest)) : updateDirectoryContentIdentityAtCount codec (some accumulator)
    before after
        (entries.length - before.length + after.length) = directoryContentIdentity codec (rest ++ after) := by
  obtain ⟨reached, hreached, hresult⟩ := Except.bind_ok hidentity
  obtain ⟨rfl, -⟩ := Prod.mk.inj (Except.ok.inj hresult)
  obtain ⟨hall, rfl⟩ := applyContributions_bare.mp hreached
  have hparts : AllContribute codec (before ++ rest) := fun entry hentry => hall entry (hperm.mem_iff.mpr hentry)
  have hbefore : AllContribute codec before := fun entry hentry => hparts entry (mem_append_left _ hentry)
  have hrest : AllContribute codec rest := fun entry hentry => hparts entry (mem_append_right _ hentry)
  have htotal : contributionTotal codec entries = contributionTotal codec (before ++ rest) :=
    Tally.total_perm _ (hperm.map _)
  have hremoved : applyContributions codec true (contributionTotal codec entries) before =
      .ok (contributionTotal codec rest) := by
    refine applyContributions_bare.mpr ⟨hbefore, ?_⟩
    rw [htotal, contributionTotal, contributionTotal, map_append]
    exact (foldl_remove_total _ _).symm
  have hkept : applyContributions codec false .zero rest = .ok (contributionTotal codec rest) :=
    applyContributions_bare.mpr ⟨hrest, rfl⟩
  have hlength : entries.length - before.length + after.length = (rest ++ after).length := by
    rw [hperm.length_eq, length_append, length_append, Nat.add_sub_cancel_left]
  simp only [updateDirectoryContentIdentityAtCount, directoryContentIdentity, applyContributions_append, hkept, hlength]
  rw [show (map bareEntry entries).foldl
    (fun x e => applyDirectoryContentContribution x (contributionOf codec e) false) .zero =
      contributionTotal codec entries from rfl,
    hremoved]
  rfl

/-- The bytes of an accumulator determine it and follow it exactly; the identity does not depend on the order of the
entries; and updating the identity of a directory gives the identity of what it then holds. -/
theorem identity_incremental (codec : NamespaceCodec) :
    (Function.Injective accumulatorBits ∧ ∀ accumulator contribution remove,
      accumulatorBits (applyDirectoryContentContributionBytes accumulator contribution remove) =
        applyDirectoryContentContribution (accumulatorBits accumulator) (contributionBits contribution) remove) ∧
    (∀ entries entries', AllContribute codec entries → entries.Perm entries' →
      ∃ identity, directoryContentIdentity codec entries = .ok identity ∧ directoryContentIdentity codec entries' =
      .ok identity) ∧
    ∀ entries before rest after accumulator digest, directoryContentIdentity codec entries = .ok (accumulator, digest) →
      entries.Perm (before ++ rest) → updateDirectoryContentIdentityAtCount codec (some accumulator) before after
        (entries.length - before.length + after.length) = directoryContentIdentity codec (rest ++ after) :=
  ⟨⟨accumulatorBits_injective, accumulatorBits_apply⟩,
    fun _ _ h hperm => ⟨_, directoryContentIdentity_eq h, (directoryContentIdentity_perm h hperm).trans
      (directoryContentIdentity_eq h)⟩,
    fun _ _ _ _ _ _ hidentity hperm => updateDirectoryContentIdentityAtCount_eq hidentity hperm⟩

open Overlap in
/-- A file of size 1 replaced by one of size 4, beside one of size 2. -/
theorem identity_replaced : updateDirectoryContentIdentityAtCount sizes (some ⟨3, 3⟩) [bytes 1] [bytes 4] 2 =
    directoryContentIdentity sizes [bytes 2, bytes 4] :=
  (identity_incremental sizes).2.2 [bytes 1, bytes 2] [bytes 1] [bytes 2] [bytes 4] ⟨3, 3⟩ "digest" (by decide +kernel)
    (List.Perm.refl _)

end EndlessFS
