import Mathlib.Order.Lattice
import Mathlib.Data.List.Nodup
import Mathlib.Data.List.Pairwise
import Mathlib.Tactic.SplitIfs

/-!
# EndlessFS.Lib.SortedMap

Finite maps as lists of entries in strictly increasing key order. The order is part of the type,
so the first entries of a map are always the ones with the least keys.

* `get`, `set`: lookup and update (`set k none` removes the key), with the equations relating them.
* `apply`: a batch of updates; `get_apply` for a batch whose keys are distinct, `get_apply_list` for any.
* `restrict`, `truncate_apply`: the keys that satisfy a predicate, and the first entries after a batch.
-/

/-- A finite map with its entries in increasing key order. -/
structure SortedMap (K V : Type) [LinearOrder K] where
  entries : List (K × V)
  sorted : entries.Pairwise fun a b => a.1 < b.1

namespace SortedMap

open List

variable {K V : Type} [LinearOrder K]

instance [DecidableEq V] : DecidableEq (SortedMap K V) := fun a b =>
  decidable_of_iff (a.entries = b.entries)
    ⟨fun h => by obtain ⟨_, _⟩ := a; obtain ⟨_, _⟩ := b; cases h; rfl, fun h => h ▸ rfl⟩

def empty : SortedMap K V := { entries := [], sorted := List.Pairwise.nil }

def get (m : SortedMap K V) (k : K) : Option V := (m.entries.find? fun e => e.1 = k).map (·.2)

/-- The entries with the key `k` removed. -/
def eraseEntries (k : K) : List (K × V) → List (K × V)
  | [] => []
  | e :: es => if e.1 = k then es else e :: eraseEntries k es

/-- The entries with `k` bound to `v`. -/
def insertEntries (k : K) (v : V) : List (K × V) → List (K × V)
  | [] => [(k, v)]
  | e :: es =>
    if k < e.1 then (k, v) :: e :: es
    else if e.1 = k then (k, v) :: es
    else e :: insertEntries k v es

variable {k : K} {es : List (K × V)}

theorem mem_eraseEntries {e : K × V} (h : e ∈ eraseEntries k es) : e ∈ es := by
  induction es with
  | nil => exact h
  | cons a as ih =>
    unfold eraseEntries at h
    split_ifs at h with hk
    · exact .tail _ h
    · rcases mem_cons.mp h with rfl | h
      · exact .head _
      · exact .tail _ (ih h)

theorem mem_insertEntries {v : V} {e : K × V} (h : e ∈ insertEntries k v es) : e = (k, v) ∨ e ∈ es := by
  induction es with
  | nil => exact .inl (mem_singleton.mp h)
  | cons a as ih =>
    unfold insertEntries at h
    split_ifs at h with hlt hk
    · rcases mem_cons.mp h with rfl | h
      · exact .inl rfl
      · exact .inr h
    · rcases mem_cons.mp h with rfl | h
      · exact .inl rfl
      · exact .inr (.tail _ h)
    · rcases mem_cons.mp h with rfl | h
      · exact .inr (.head _)
      · exact (ih h).imp id (mem_cons_of_mem _)

theorem sorted_eraseEntries (h : es.Pairwise fun a b => a.1 < b.1) :
    (eraseEntries k es).Pairwise fun a b => a.1 < b.1 := by
  induction es with
  | nil => exact h
  | cons a as ih =>
    obtain ⟨ha, has⟩ := pairwise_cons.mp h
    unfold eraseEntries
    split_ifs with hk
    · exact has
    · exact pairwise_cons.mpr ⟨fun e he => ha e (mem_eraseEntries he), ih has⟩

theorem sorted_insertEntries {v : V}
    (h : es.Pairwise fun a b => a.1 < b.1) : (insertEntries k v es).Pairwise fun a b => a.1 < b.1 := by
  induction es with
  | nil => exact pairwise_singleton _ _
  | cons a as ih =>
    obtain ⟨ha, has⟩ := pairwise_cons.mp h
    unfold insertEntries
    split_ifs with hlt hk
    · refine pairwise_cons.mpr ⟨fun e he => ?_, h⟩
      rcases mem_cons.mp he with rfl | he
      · exact hlt
      · exact lt_trans hlt (ha e he)
    · exact pairwise_cons.mpr ⟨fun e he => hk ▸ ha e he, has⟩
    · refine pairwise_cons.mpr ⟨fun e he => ?_, ih has⟩
      rcases mem_insertEntries he with rfl | he
      · exact lt_of_le_of_ne (not_lt.mp hlt) hk
      · exact ha e he

/-- The map with `k` bound to `v`, or unbound for `none`. -/
def set (m : SortedMap K V) (k : K) : Option V → SortedMap K V
  | some v => { entries := insertEntries k v m.entries, sorted := sorted_insertEntries m.sorted }
  | none => { entries := eraseEntries k m.entries, sorted := sorted_eraseEntries m.sorted }

def apply (m : SortedMap K V) (changes : List (K × Option V)) : SortedMap K V :=
  changes.foldl (fun m c => m.set c.1 c.2) m

@[simp] theorem get_empty (k : K) : (empty : SortedMap K V).get k = none := rfl

/-- In a list whose keys all exceed `k`, `k` is not found. -/
theorem find_none_of_lt (h : ∀ e ∈ es, k < e.1) : (es.find? fun e => e.1 = k) = none := by
  rw [find?_eq_none]
  intro e he
  simpa using (h e he).ne'

theorem find_eraseEntries {k' : K} (h : es.Pairwise fun a b => a.1 < b.1) :
    ((eraseEntries k es).find? fun e => e.1 = k') = if k = k' then none else es.find? fun e => e.1 = k' := by
  induction es with
  | nil => simp [eraseEntries]
  | cons a as ih =>
    obtain ⟨ha, has⟩ := pairwise_cons.mp h
    unfold eraseEntries
    split_ifs with hak hkk hkk
    · subst hak hkk
      exact find_none_of_lt ha
    · rw [find?_cons_of_neg (by simpa [hak] using hkk)]
    · rw [find?_cons_of_neg (by simpa [← hkk] using hak), ih has, if_pos hkk]
    · rw [find?_cons, find?_cons, ih has, if_neg hkk]

theorem find_insertEntries {k' : K} {v : V} : ((insertEntries k v es).find? fun e => e.1 = k') =
      if k = k' then some (k, v) else es.find? fun e => e.1 = k' := by
  induction es with
  | nil =>
    by_cases hkk : k = k' <;> simp [insertEntries, hkk]
  | cons a as ih =>
    unfold insertEntries
    by_cases hkk : k = k'
    · subst hkk
      rw [if_pos rfl] at ih ⊢
      split_ifs with hlt hak
      · simp
      · simp
      · rw [find?_cons_of_neg (by simpa using hak), ih]
    · rw [if_neg hkk]
      split_ifs with hlt hak
      · rw [find?_cons_of_neg (by simpa using hkk)]
      · rw [find?_cons_of_neg (by simpa using hkk), find?_cons_of_neg (by simpa [hak] using hkk)]
      · rw [find?_cons, find?_cons, ih, if_neg hkk]

@[simp] theorem get_set (m : SortedMap K V) (k k' : K) (o : Option V) :
    (m.set k o).get k' = if k = k' then o else m.get k' := by
  cases o with
  | none =>
    simp only [set, get, find_eraseEntries m.sorted]
    split_ifs <;> rfl
  | some v =>
    simp only [set, get, find_insertEntries]
    split_ifs <;> rfl

theorem get_eq_some_iff {m : SortedMap K V} {v : V} : m.get k = some v ↔ (k, v) ∈ m.entries := by
  constructor
  · intro h
    obtain ⟨e, he, rfl⟩ := Option.map_eq_some_iff.mp h
    have hk : e.1 = k := by simpa using find?_some he
    exact hk ▸ mem_of_find?_eq_some he
  · intro h
    have hex : ∃ e, (m.entries.find? fun e => e.1 = k) = some e := by
      rw [← Option.isSome_iff_exists, find?_isSome]
      exact ⟨_, h, by simp⟩
    obtain ⟨e, he⟩ := hex
    have hk : e.1 = k := by simpa using find?_some he
    -- two entries with one key are the same entry
    have hsame : e = (k, v) := by
      by_contra hne
      have hsymm : Std.Symm fun a b : K × V => a.1 ≠ b.1 := ⟨fun _ _ h => h.symm⟩
      have hsep : m.entries.Pairwise fun a b => a.1 ≠ b.1 := m.sorted.imp fun hab => hab.ne
      exact hsep.forall (mem_of_find?_eq_some he) h hne hk
    simp [get, he, hsame]

/-- After a batch whose keys are distinct, each key has the value the batch gives it, and keys the
batch does not name keep theirs. -/
theorem get_apply (m : SortedMap K V) (batch : SortedMap K (Option V)) (k : K) :
    (m.apply batch.entries).get k = (batch.get k).getD (m.get k) := by
  obtain ⟨es, hes⟩ := batch
  simp only [apply, get]
  induction es generalizing m with
  | nil => rfl
  | cons a as ih =>
    obtain ⟨ha, has⟩ := pairwise_cons.mp hes
    rw [foldl_cons]
    have ih' := ih (m.set a.1 a.2) has
    simp only [← get.eq_1] at ih' ⊢
    rw [ih', get_set]
    by_cases hk : a.1 = k
    · subst hk
      have hnone : (as.find? fun e => e.1 = a.1) = none := find_none_of_lt ha
      simp [hnone]
    · rw [find?_cons_of_neg (by simpa using hk), if_neg hk]

theorem get_apply_list (m : SortedMap K V) (changes : List (K × Option V)) (k : K) :
    (m.apply changes).get k = ((changes.reverse.find? fun c => c.1 = k).map (·.2)).getD (m.get k) := by
  unfold apply
  induction changes generalizing m with
  | nil => rfl
  | cons a as ih =>
    rw [foldl_cons, ih, get_set, reverse_cons, find?_append]
    cases as.reverse.find? fun c => c.1 = k with
    | some c => rfl
    | none =>
      by_cases hk : a.1 = k
      · simp [hk]
      · simp [hk]

theorem apply_append (m : SortedMap K V) (a b : List (K × Option V)) : m.apply (a ++ b) = (m.apply a).apply b :=
  foldl_append

theorem ext_get {a b : SortedMap K V} (h : ∀ k, a.get k = b.get k) : a = b := by
  have hmem : ∀ e, e ∈ a.entries ↔ e ∈ b.entries := fun e => by
    rw [← get_eq_some_iff, ← get_eq_some_iff, h]
  have hnodup : ∀ m : SortedMap K V, m.entries.Nodup := fun m => m.sorted.imp fun hlt heq =>
    hlt.ne (congrArg Prod.fst heq)
  have hperm := (perm_ext_iff_of_nodup (hnodup a) (hnodup b)).mpr hmem
  have hentries : a.entries = b.entries :=
    hperm.eq_of_pairwise (fun _ _ _ _ hxy hyx => absurd hxy hyx.asymm) a.sorted b.sorted
  obtain ⟨_, _⟩ := b
  cases hentries
  rfl

theorem apply_entries (m : SortedMap K V) : empty.apply (m.entries.map fun e => (e.1, some e.2)) = m := by
  refine ext_get fun k => ?_
  have hbatch := get_apply empty ⟨m.entries.map fun e => (e.1, some e.2), pairwise_map.mpr m.sorted⟩ k
  refine hbatch.trans ?_
  simp only [get, find?_map, Function.comp_def]
  cases m.entries.find? fun e => e.1 = k <;> rfl

/-- The entries whose keys satisfy `p`. -/
def restrict (p : K → Bool) (m : SortedMap K V) : SortedMap K V where
  entries := m.entries.filter fun e => p e.1
  sorted := m.sorted.filter _

theorem get_restrict (p : K → Bool) (m : SortedMap K V) (k : K) :
    (m.restrict p).get k = if p k then m.get k else none := by
  apply Option.ext
  intro v
  rw [get_eq_some_iff]
  by_cases hp : p k
  · rw [if_pos hp, get_eq_some_iff]
    simp [restrict, hp]
  · simp [restrict, hp]

/-- Updates of keys outside `p` do not matter. -/
theorem restrict_apply (p : K → Bool) (m : SortedMap K V) (changes : List (K × Option V)) :
    (m.apply changes).restrict p = (m.restrict p).apply (changes.filter fun c => p c.1) := by
  refine ext_get fun k => ?_
  rw [get_restrict, get_apply_list, get_apply_list, get_restrict, ← filter_reverse, find?_filter]
  by_cases hp : p k
  · rw [if_pos hp, if_pos hp]
    congr 3
    funext c
    by_cases hc : c.1 = k
    · simp [hc, hp]
    · simp [hc]
  · rw [if_neg hp, if_neg hp, find?_eq_none.mpr fun c _ => ?_]
    · rfl
    · simp only [decide_eq_true_eq, not_and]
      rintro hc rfl
      exact hp hc

/-- The first `n` entries. -/
def truncate (n : Nat) (m : SortedMap K V) : SortedMap K V where
  entries := m.entries.take n
  sorted := m.sorted.sublist (List.take_sublist _ _)

theorem take_eraseEntries (n : Nat) (k : K) (es : List (K × V)) :
    (eraseEntries k es).take n = (eraseEntries k (es.take (n + 1))).take n := by
  induction es generalizing n with
  | nil => rfl
  | cons a as ih =>
    rw [take_succ_cons]
    unfold eraseEntries
    split_ifs with hk
    · rw [take_take, Nat.min_self]
    · cases n with
      | zero => rfl
      | succ n => rw [take_succ_cons, take_succ_cons, ih n]

theorem take_insertEntries (n : Nat) (k : K) (v : V) (es : List (K × V)) :
    (insertEntries k v es).take n = (insertEntries k v (es.take (n + 1))).take n := by
  induction es generalizing n with
  | nil => rfl
  | cons a as ih =>
    rw [take_succ_cons]
    unfold insertEntries
    cases n with
    | zero => rfl
    | succ n =>
      split_ifs with hlt hk
      · rw [take_succ_cons, take_succ_cons]
        cases n with
        | zero => rfl
        | succ n =>
          rw [take_succ_cons, take_succ_cons, take_take, Nat.min_eq_left (by omega)]
      · rw [take_succ_cons, take_succ_cons, take_take, Nat.min_eq_left (by omega)]
      · rw [take_succ_cons, take_succ_cons, ih n]

theorem truncate_set (n : Nat) (m : SortedMap K V) (k : K) (o : Option V) :
    (m.set k o).truncate n = ((m.truncate (n + 1)).set k o).truncate n := by
  cases o with
  | none => simp only [truncate, set, take_eraseEntries n k m.entries]
  | some v => simp only [truncate, set, take_insertEntries n k v m.entries]

theorem truncate_apply (n : Nat) (m : SortedMap K V) (changes : List (K × Option V)) :
    (m.apply changes).truncate n = ((m.truncate (n + changes.length)).apply changes).truncate n := by
  induction changes generalizing m with
  | nil => simp [apply, truncate, take_take]
  | cons c cs ih =>
    have hstep : ∀ m : SortedMap K V, m.apply (c :: cs) = (m.set c.1 c.2).apply cs := fun _ => rfl
    rw [hstep, hstep, ih, ih ((m.truncate (n + (c :: cs).length)).set c.1 c.2), truncate_set]
    rfl

end SortedMap
