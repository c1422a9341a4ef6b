import Mathlib.Data.List.Nodup
import Mathlib.Logic.Function.Basic

/-!
# EndlessFS.Lib.Versioned

A store of versioned values with atomic transactions. Each transaction writes under a version of its own,
so a cell that is found under the version it was read with has not been written in between.

* `CellChange`, `Versioned.admits`, `Versioned.commit`: transactions that require, of each key they change, that
  it is absent or stored under a version.
* `Versioned.Le`: what later states keep of earlier ones.
* `Le.reread`, `Seen`: a value that was read under a version is still there if its key has that version.
-/

namespace Conc

variable {Key : Type} {Value : Key → Type}

/-- One change of a transaction: `require` is the version the key has to be stored under, `none` that it is
absent; `value` is what it is set to, `none` that it is removed. -/
structure CellChange (Key : Type) (Value : Key → Type) where
  key : Key
  require : Option Nat
  value : Option (Value key)

def CellChange.Writes (change : CellChange Key Value) (k : Key) (x : Value k) : Prop :=
  ∃ require, change = { key := k, require, value := some x }

/-- Versioned cells; `next` is the version of the next transaction. -/
structure Versioned (Key : Type) (Value : Key → Type) where
  cell : (k : Key) → Option (Nat × Value k)
  next : Nat
  fresh : ∀ k v x, cell k = some (v, x) → v < next

namespace Versioned

def version (s : Versioned Key Value) (k : Key) : Option Nat := (s.cell k).map Prod.fst

def admits (s : Versioned Key Value) (changes : List (CellChange Key Value)) : Bool :=
  changes.all fun change => s.version change.key = change.require

/-- What was written before stays as it was, or is gone. -/
structure Le (s t : Versioned Key Value) : Prop where
  next : s.next ≤ t.next
  kept : ∀ k v x, t.cell k = some (v, x) → v < s.next → s.cell k = some (v, x)

theorem Le.refl (s : Versioned Key Value) : Le s s := ⟨Nat.le_refl _, fun _ _ _ h _ => h⟩

variable {s : Versioned Key Value} {t : Versioned Key Value}

theorem Le.trans {u : Versioned Key Value} (h : Le s t) (h' : Le t u) : Le s u where
  next := Nat.le_trans h.next h'.next
  kept k v x hx hv := h.kept k v x (h'.kept k v x hx (Nat.lt_of_lt_of_le hv h.next)) hv

variable {k : Key} {x : Value k} {v : Nat}

theorem Le.reread (h : Le s t) (hread : s.cell k = some (v, x)) (hversion : t.version k = some v) :
    t.cell k = some (v, x) := by
  obtain ⟨⟨v', y⟩, hy, hv⟩ := Option.map_eq_some_iff.mp hversion
  obtain rfl : v' = v := hv
  have hsame := h.kept k v' y hy (s.fresh k v' x hread)
  rw [hread] at hsame
  cases hsame
  exact hy

def Seen (s : Versioned Key Value) (k : Key) (v : Nat) (x : Value k) : Prop :=
  ∀ t, Le s t → t.version k = some v → t.cell k = some (v, x)

theorem Seen.of_cell (h : s.cell k = some (v, x)) : s.Seen k v x :=
  fun _ hle => hle.reread h

theorem Seen.mono (h : s.Seen k v x) (hle : Le s t) : t.Seen k v x :=
  fun u hu => h u (hle.trans hu)

theorem version_of_admits {changes : List (CellChange Key Value)} (h : s.admits changes = true)
    {change : CellChange Key Value} (hmem : change ∈ changes) : s.version change.key = change.require :=
  of_decide_eq_true (List.all_eq_true.mp h change hmem)

end Versioned

/-! ## Transactions -/

variable [DecidableEq Key]

/-- The cells after the changes, written under the version `version`. -/
def overwrite (version : Nat) (changes : List (CellChange Key Value)) (cell : (k : Key) → Option (Nat × Value k)) :
    (k : Key) → Option (Nat × Value k) :=
  changes.foldl (fun cell change => Function.update cell change.key (change.value.map fun x => (version, x))) cell

theorem overwrite_cases (version : Nat) (changes : List (CellChange Key Value))
    (cell : (k : Key) → Option (Nat × Value k))
    (k : Key) : ((∀ change ∈ changes, change.key ≠ k) ∧ overwrite version changes cell k = cell k) ∨
      ∃ change ∈ changes, ∃ h : change.key = k,
        overwrite version changes cell k = (h ▸ change.value).map fun x => (version, x) := by
  induction changes generalizing cell with
  | nil => exact .inl ⟨fun _ h => (nomatch h), rfl⟩
  | cons change rest ih =>
    rcases ih (Function.update cell change.key (change.value.map fun x => (version, x))) with
      ⟨hrest, hcell⟩ | ⟨c, hc, h, hcell⟩
    · by_cases hk : change.key = k
      · refine .inr ⟨change, .head _, hk, ?_⟩
        subst hk
        exact hcell.trans (Function.update_self ..)
      · refine .inl ⟨fun c hc => ?_, hcell.trans (Function.update_of_ne (Ne.symm hk) ..)⟩
        rcases List.mem_cons.mp hc with rfl | hc
        · exact hk
        · exact hrest c hc
    · exact .inr ⟨c, .tail _ hc, h, hcell⟩

variable {changes : List (CellChange Key Value)} {k : Key} {x : Value k}

theorem overwrite_some {version : Nat} {cell : (k : Key) → Option (Nat × Value k)} {v : Nat}
    (h : overwrite version changes cell k = some (v, x)) :
    cell k = some (v, x) ∧ (∀ change ∈ changes, change.key ≠ k) ∨ v = version ∧ ∃ change ∈ changes,
      change.Writes k x := by
  rcases overwrite_cases version changes cell k with ⟨hnone, hcell⟩ | ⟨change, hmem, hk, hcell⟩
  · exact .inl ⟨hcell ▸ h, hnone⟩
  · rw [hcell] at h
    obtain ⟨y, hy, hpair⟩ := Option.map_eq_some_iff.mp h
    cases hpair
    refine .inr ⟨rfl, change, hmem, change.require, ?_⟩
    subst hk
    rw [← hy]

namespace Versioned

def commit (s : Versioned Key Value) (changes : List (CellChange Key Value)) : Versioned Key Value where
  cell := overwrite s.next changes s.cell
  next := s.next + 1
  fresh k v x h := by
    rcases overwrite_some h with ⟨h, _⟩ | ⟨rfl, _⟩
    · exact Nat.lt_succ_of_lt (s.fresh k v x h)
    · exact Nat.lt_succ_self _

theorem le_commit (s : Versioned Key Value) (changes : List (CellChange Key Value)) : Le s (s.commit changes) where
  next := Nat.le_succ _
  kept k v x h hv := by
    rcases overwrite_some h with ⟨h, _⟩ | ⟨rfl, _⟩
    · exact h
    · exact absurd hv (Nat.lt_irrefl _)

theorem commit_of_ne (s : Versioned Key Value)
    (h : ∀ change ∈ changes, change.key ≠ k) : (s.commit changes).cell k = s.cell k := by
  rcases overwrite_cases s.next changes s.cell k with ⟨_, hcell⟩ | ⟨change, hmem, hk, _⟩
  · exact hcell
  · exact absurd hk (h change hmem)

theorem commit_self (s : Versioned Key Value) (hnodup : (changes.map CellChange.key).Nodup)
    (change : CellChange Key Value)
    (hmem : change ∈ changes) : (s.commit changes).cell change.key = change.value.map fun x => (s.next, x) := by
  rcases overwrite_cases s.next changes s.cell change.key with ⟨hnone, _⟩ | ⟨other, hother, hk, hcell⟩
  · exact absurd rfl (hnone change hmem)
  · obtain rfl : other = change := List.inj_on_of_nodup_map hnodup hother hmem hk
    exact hcell

theorem commit_cell {s : Versioned Key Value} {v : Nat}
    (R : Value k → Prop) (hread : s.cell k = some (v, x)) (hkept : (∀ change ∈ changes, change.key ≠ k) → R x)
    (hwritten : ∀ change ∈ changes, change.key = k → ∃ y, change.Writes k y ∧ R y) :
    ∃ v' y, (s.commit changes).cell k = some (v', y) ∧ R y := by
  rcases overwrite_cases s.next changes s.cell k with ⟨hnone, hcell⟩ | ⟨change, hmem, hk, hcell⟩
  · exact ⟨v, x, hcell.trans hread, hkept hnone⟩
  · obtain ⟨y, ⟨require, rfl⟩, hR⟩ := hwritten change hmem hk
    exact ⟨s.next, y, hcell, hR⟩

end Versioned

end Conc
