import Mathlib.Data.List.Perm.Basic
import Mathlib.Data.List.Nodup
import Mathlib.Tactic.Common

/-!
# EndlessFS.Lib.Edits

Lists of items with distinct keys, edits of such lists, and quantities kept along the edits.

* `Edit.applyAll`: each edit removes the item it names as `before` and puts the one it names as
  `after`; `find_applyAll_untouched` says which keys it leaves alone.
* `Coherent`: every edit speaks of the list it finds.
* `Tally`: a quantity to which items are added and from which they are removed in any order;
  `Tally.total_applyAll` says that keeping it incrementally is exact for coherent edits.
-/

structure Edit (α : Type) where
  before : Option α := none
  after : Option α := none

namespace Edit

variable {α K : Type} [DecidableEq K] (key : α → K)

def find (items : List α) (k : K) : Option α := items.find? fun a => key a = k

def erase (items : List α) (k : K) : List α := items.filter fun a => key a ≠ k

/-- Bind the key of `a` to `a`. -/
def put (items : List α) (a : α) : List α := a :: erase key items (key a)

def eraseOption (items : List α) : Option α → List α
  | none => items
  | some b => erase key items (key b)

def putOption (items : List α) : Option α → List α
  | none => items
  | some a => put key items a

def apply (items : List α) (e : Edit α) : List α :=
  putOption key (eraseOption key items e.before) e.after

def applyAll (items : List α) (edits : List (Edit α)) : List α := edits.foldl (apply key) items

/-- The edit removes or puts an item with the key `k`. -/
def Touches (e : Edit α) (k : K) : Prop := (∃ b ∈ e.before, key b = k) ∨ ∃ a ∈ e.after, key a = k

section

variable {key} {items : List α} {k : K} {a : α}

theorem find_some (h : find key items k = some a) : a ∈ items ∧ key a = k :=
  ⟨List.mem_of_find?_eq_some h, by simpa using List.find?_some h⟩

theorem find_of_mem (hnodup : (items.map key).Nodup) (h : a ∈ items) : find key items (key a) = some a := by
  induction items with
  | nil => cases h
  | cons b items ih =>
    obtain ⟨hb, hnodup⟩ := List.nodup_cons.mp hnodup
    rcases List.mem_cons.mp h with rfl | h
    · simp [find]
    · have hne : key b ≠ key a := fun e => hb (e ▸ List.mem_map_of_mem h)
      simpa [find, hne] using ih hnodup h

theorem mem_erase : a ∈ erase key items k ↔ a ∈ items ∧ key a ≠ k := by
  simp [erase]

theorem find_erase (k' : K) : find key (erase key items k) k' = if k' = k then none else find key items k' := by
  rw [find, erase, List.find?_filter]
  split_ifs with hk
  · simp [hk]
  · refine congrArg (List.find? · items) (funext fun a => ?_)
    by_cases ha : key a = k'
    · simp [ha, hk]
    · simp [ha]

theorem find_put (a : α) (k' : K) : find key (put key items a) k' = if k' =
    key a then some a else find key items k' := by
  by_cases hk : k' = key a
  · simp [find, put, hk]
  · have h := @find_erase α K _ key items (key a) k'
    rw [if_neg hk] at h
    rw [if_neg hk, ← h]
    simp [find, put, Ne.symm hk]

variable {e : Edit α}

theorem find_apply (hkey : ∀ a ∈ e.after, key a = k) (h : Touches key e k) :
    find key (apply key items e) k = e.after := by
  obtain ⟨before, after⟩ := e
  cases after with
  | some a =>
    have ha : key a = k := hkey a rfl
    simp only [apply, putOption, find_put, ha, if_true]
  | none =>
    rcases h with ⟨b, hb, hk⟩ | ⟨a, ha, _⟩
    · cases hb
      simp only [apply, putOption, eraseOption, find_erase, hk, if_true]
    · cases ha

theorem find_apply_untouched (h : ¬Touches key e k) : find key (apply key items e) k = find key items k := by
  obtain ⟨before, after⟩ := e
  simp only [Touches, not_or, not_exists, not_and] at h
  have herase : find key (eraseOption key items before) k = find key items k := by
    cases before with
    | none => rfl
    | some b => rw [eraseOption, find_erase, if_neg (Ne.symm (h.1 b rfl))]
  cases after with
  | none => exact herase
  | some a => rw [apply, putOption, find_put, if_neg (Ne.symm (h.2 a rfl)), herase]

variable {edits : List (Edit α)}

theorem find_applyAll_untouched (h : ∀ e ∈ edits, ¬Touches key e k) :
    find key (applyAll key items edits) k = find key items k := by
  induction edits generalizing items with
  | nil => rfl
  | cons e edits ih =>
    exact (ih fun e' he' => h e' (.tail _ he')).trans (find_apply_untouched (h e (.head _)))

theorem find_applyAll_cases {c : α} (h : find key (applyAll key items edits) k = some c) :
    find key items k = some c ∨ ∃ e ∈ edits, e.after = some c := by
  induction edits generalizing items with
  | nil => exact .inl h
  | cons e edits ih =>
    rcases ih h with h | ⟨e', he', h⟩
    · have herase : find key (eraseOption key items e.before) k = some c → find key items k = some c := by
        cases e.before with
        | none => exact id
        | some b =>
          intro hb
          rw [eraseOption, find_erase] at hb
          split_ifs at hb
          exact hb
      unfold apply at h
      cases hafter : e.after with
      | none =>
        rw [hafter] at h
        exact .inl (herase h)
      | some a =>
        rw [hafter, putOption, find_put] at h
        split_ifs at h
        · exact .inr ⟨e, .head _, hafter.trans h⟩
        · exact .inl (herase h)
    · exact .inr ⟨e', .tail _ he', h⟩

theorem applyAll_append (items : List α) (first second : List (Edit α)) :
    applyAll key items (first ++ second) = applyAll key (applyAll key items first) second := by
  simp [applyAll]

theorem find_applyAll (he : e ∈ edits) (hkey : ∀ a ∈ e.after, key a = k) (htouch : Touches key e k)
    (hothers : edits.Pairwise fun a b => ¬(Touches key a k ∧ Touches key b k)) :
    find key (applyAll key items edits) k = e.after := by
  obtain ⟨first, second, rfl⟩ := List.append_of_mem he
  have hlater : ∀ e' ∈ second, ¬Touches key e' k := by
    intro e' he' ht
    exact List.rel_of_pairwise_cons (List.pairwise_append.mp hothers).2.1 he' ⟨htouch, ht⟩
  rw [applyAll_append, applyAll, List.foldl_cons]
  exact (find_applyAll_untouched hlater).trans (find_apply hkey htouch)

end

/-! ## Distinct keys and coherent edits -/

section

variable {key} {items : List α}

section

variable (h : (items.map key).Nodup)

include h

theorem nodup_erase (k : K) : ((erase key items k).map key).Nodup :=
  (List.filter_sublist.map key).nodup h

theorem nodup_put (a : α) : ((put key items a).map key).Nodup := by
  rw [put, List.map_cons, List.nodup_cons]
  refine ⟨fun hmem => ?_, nodup_erase h _⟩
  obtain ⟨c, hc, hk⟩ := List.mem_map.mp hmem
  exact (mem_erase.mp hc).2 hk

theorem nodup_apply (e : Edit α) : ((apply key items e).map key).Nodup := by
  obtain ⟨before, after⟩ := e
  have herase : ((eraseOption key items before).map key).Nodup := by
    cases before with
    | none => exact h
    | some b => exact nodup_erase h _
  cases after with
  | none => exact herase
  | some a => exact nodup_put herase a

theorem nodup_applyAll (edits : List (Edit α)) : ((applyAll key items edits).map key).Nodup := by
  induction edits generalizing items with
  | nil => exact h
  | cons e edits ih => exact ih (nodup_apply h e)

end

variable {c : α} {e : Edit α}

theorem mem_apply (h : c ∈ apply key items e) : c ∈ items ∨ e.after = some c := by
  obtain ⟨before, after⟩ := e
  have herase : c ∈ eraseOption key items before → c ∈ items := by
    cases before with
    | none => exact id
    | some b => exact fun hc => (mem_erase.mp hc).1
  cases after with
  | none => exact .inl (herase h)
  | some a =>
    rcases List.mem_cons.mp h with rfl | h
    · exact .inr rfl
    · exact .inl (herase (mem_erase.mp h).1)

variable {edits : List (Edit α)}

theorem mem_applyAll (h : c ∈ applyAll key items edits) : c ∈ items ∨ ∃ e ∈ edits, e.after = some c := by
  induction edits generalizing items with
  | nil => exact .inl h
  | cons e edits ih =>
    rcases ih h with h | ⟨e', he', h⟩
    · exact (mem_apply h).imp_right fun ha => ⟨e, .head _, ha⟩
    · exact .inr ⟨e', .tail _ he', h⟩

theorem mem_apply_untouched (hc : c ∈ items) (h : ¬Touches key e (key c)) : c ∈ apply key items e := by
  obtain ⟨before, after⟩ := e
  simp only [Touches, not_or, not_exists, not_and] at h
  have herase : c ∈ eraseOption key items before := by
    cases before with
    | none => exact hc
    | some b => exact mem_erase.mpr ⟨hc, Ne.symm (h.1 b rfl)⟩
  cases after with
  | none => exact herase
  | some a => exact .tail _ (mem_erase.mpr ⟨herase, Ne.symm (h.2 a rfl)⟩)

variable (key) in
def Coherent : List α → List (Edit α) → Prop
  | _, [] => True
  | items, e :: edits =>
    (∀ b ∈ e.before, b ∈ items) ∧
      (∀ a ∈ e.after, ∀ c ∈ items, key c = key a → e.before = some c) ∧
      Coherent (apply key items e) edits

variable (key) in
/-- The edit is about one key and speaks of the list `items`. -/
structure Fits (items : List α) (e : Edit α) : Prop where
  before : ∀ b ∈ e.before, b ∈ items
  after : ∀ a ∈ e.after, ∀ c ∈ items, key c = key a → e.before = some c

variable (key) in
def Disjoint (edits : List (Edit α)) : Prop :=
  edits.Pairwise fun a b => ∀ k, ¬(Touches key a k ∧ Touches key b k)

theorem coherent_of_disjoint (hfits : ∀ e ∈ edits, Fits key items e)
    (hdisjoint : Disjoint key edits) : Coherent key items edits := by
  induction edits generalizing items with
  | nil => trivial
  | cons e edits ih =>
    obtain ⟨hhead, htail⟩ := List.pairwise_cons.mp hdisjoint
    have he := hfits e (.head _)
    refine ⟨he.before, he.after, ih (fun e' he' => ?_) htail⟩
    -- the later edits speak of keys that this one leaves alone
    have hfit := hfits e' (.tail _ he')
    refine ⟨fun b hb => ?_, fun a ha c hc hk => ?_⟩
    · exact mem_apply_untouched (hfit.before b hb) fun ht =>
        hhead e' he' (key b) ⟨ht, .inl ⟨b, hb, rfl⟩⟩
    · rcases mem_apply hc with hc | hc
      · exact hfit.after a ha c hc hk
      · exact absurd ⟨.inr ⟨c, hc, hk⟩, .inr ⟨a, ha, rfl⟩⟩ (hhead e' he' (key a))

theorem fits_of_find {existing : Option α} {a : α} (hnodup : (items.map key).Nodup)
    (h : find key items (key a) = existing) : Fits key items { before := existing, after := some a } := by
  refine ⟨fun b hb => ?_, fun c hc d hd hk => ?_⟩
  · exact (find_some (h.trans hb)).1
  · cases hc
    exact h ▸ hk ▸ find_of_mem hnodup hd

omit [DecidableEq K] in
theorem fits_remove {b : α} (hb : b ∈ items) : Fits key items { before := some b } :=
  ⟨fun c hc => by cases hc; exact hb, fun c hc => by cases hc⟩

theorem coherent_relocate {removed : List α} {a : α} (hmem : ∀ b ∈ removed, b ∈ items)
    (hdistinct : (removed.map key).Nodup) (hfree : ∀ c ∈ items, key c = key a → c ∈ removed) :
    Coherent key items (removed.map (fun b => { before := some b }) ++ [{ after := some a }]) := by
  induction removed generalizing items with
  | nil =>
    refine ⟨by simp, fun c hc d hd hk => ?_, trivial⟩
    cases hc
    cases hfree d hd hk
  | cons b removed ih =>
    rw [List.map_cons, List.nodup_cons] at hdistinct
    refine ⟨fun c hc => ?_, by simp, ih (fun c hc => ?_) hdistinct.2 fun c hc hk => ?_⟩
    · cases hc
      exact hmem b (.head _)
    · exact mem_erase.mpr ⟨hmem c (List.mem_cons_of_mem _ hc), fun e => hdistinct.1 (e ▸ List.mem_map_of_mem hc)⟩
    · obtain ⟨hc, hne⟩ := mem_erase.mp hc
      exact (List.mem_cons.mp (hfree c hc hk)).resolve_left fun e => hne (e ▸ rfl)

end

end Edit

/-! ## Tallies -/

/-- A quantity to which items are added and from which they are removed, in any order. -/
structure Tally (α σ : Type) where
  zero : σ
  add : σ → α → σ
  remove : σ → α → σ
  add_comm : ∀ x a b, add (add x a) b = add (add x b) a
  remove_add : ∀ x a, remove (add x a) a = x
  add_remove : ∀ x a, add (remove x a) a = x

namespace Tally

variable {α σ K : Type} [DecidableEq K] {key : α → K} (t : Tally α σ)

def total (items : List α) : σ := items.foldl t.add t.zero

theorem remove_add_comm (x : σ) (a b : α) : t.remove (t.add x a) b = t.add (t.remove x b) a := by
  calc t.remove (t.add x a) b
      = t.remove (t.add (t.add (t.remove x b) b) a) b := by rw [t.add_remove]
    _ = t.remove (t.add (t.add (t.remove x b) a) b) b := by rw [t.add_comm]
    _ = t.add (t.remove x b) a := t.remove_add _ _

variable {items : List α}

theorem total_perm {items' : List α} (h : items.Perm items') : t.total items = t.total items' := by
  have hcomm : RightCommutative t.add := ⟨t.add_comm⟩
  exact h.foldl_eq t.zero

theorem foldl_add (items : List α) (x : σ) (a : α) : items.foldl t.add (t.add x a) = t.add (items.foldl t.add x) a := by
  induction items generalizing x with
  | nil => rfl
  | cons b items ih => rw [List.foldl_cons, t.add_comm, ih, List.foldl_cons]

theorem total_cons (a : α) (items : List α) : t.total (a :: items) = t.add (t.total items) a := by
  rw [total, List.foldl_cons, foldl_add]
  rfl

theorem foldl_remove_add (items : List α) (x : σ) (a : α) :
    items.foldl t.remove (t.add x a) = t.add (items.foldl t.remove x) a := by
  induction items generalizing x with
  | nil => rfl
  | cons b items ih => rw [List.foldl_cons, remove_add_comm, ih, List.foldl_cons]

theorem total_erase {b : α} (hnodup : (items.map key).Nodup) (hb : b ∈ items) :
    t.total (Edit.erase key items (key b)) = t.remove (t.total items) b := by
  have hperm : items.Perm (b :: Edit.erase key items (key b)) := by
    induction items with
    | nil => cases hb
    | cons a items ih =>
      obtain ⟨ha, hnodup⟩ := List.nodup_cons.mp hnodup
      by_cases hk : key a = key b
      · have hab : a = b := by
          rcases List.mem_cons.mp hb with rfl | hb
          · rfl
          · exact absurd (hk ▸ List.mem_map_of_mem hb) ha
        subst hab
        have hrest : Edit.erase key items (key a) = items := by
          rw [Edit.erase, List.filter_eq_self]
          intro c hc
          have hne : key c ≠ key a := fun e => ha (e ▸ List.mem_map_of_mem hc)
          simpa using hne
        rw [show Edit.erase key (a :: items) (key a) = Edit.erase key items (key a) by simp [Edit.erase], hrest]
      · have hb' : b ∈ items := (List.mem_cons.mp hb).resolve_left fun e => hk (e ▸ rfl)
        rw [show Edit.erase key (a :: items) (key b) = a :: Edit.erase key items (key b) by simp [Edit.erase, hk]]
        exact ((ih hnodup hb').cons a).trans (List.Perm.swap b a _)
  rw [t.total_perm hperm, total_cons, t.remove_add]

def addOption (x : σ) : Option α → σ
  | none => x
  | some a => t.add x a

def removeOption (x : σ) : Option α → σ
  | none => x
  | some b => t.remove x b

def step (x : σ) (e : Edit α) : σ := t.addOption (t.removeOption x e.before) e.after

theorem total_apply {e : Edit α} (hnodup : (items.map key).Nodup) (hbefore : ∀ b ∈ e.before, b ∈ items)
    (hafter : ∀ a ∈ e.after, ∀ c ∈ items, key c = key a → e.before = some c) :
    t.total (Edit.apply key items e) = t.step (t.total items) e := by
  obtain ⟨before, after⟩ := e
  have herase : t.total (Edit.eraseOption key items before) = t.removeOption (t.total items) before := by
    cases before with
    | none => rfl
    | some b => exact t.total_erase hnodup (hbefore b rfl)
  cases after with
  | none => exact herase
  | some a =>
    -- nothing with the key of the new item is left, so putting it only adds
    have hfree : Edit.erase key (Edit.eraseOption key items before) (key a) = Edit.eraseOption key items before := by
      rw [Edit.erase, List.filter_eq_self]
      intro c hc
      have hne : key c ≠ key a := by
        intro hk
        cases before with
        | none => cases hafter a rfl c hc hk
        | some b =>
          obtain ⟨hc, hcb⟩ := Edit.mem_erase.mp hc
          have hbc : some b = some c := hafter a rfl c hc hk
          exact hcb (by cases hbc; rfl)
      simpa using hne
    rw [Edit.apply, Edit.putOption, Edit.put, hfree, total_cons, herase]
    rfl

theorem total_applyAll {edits : List (Edit α)} (hnodup : (items.map key).Nodup) (h : Edit.Coherent key items edits) :
    t.total (Edit.applyAll key items edits) = edits.foldl t.step (t.total items) := by
  induction edits generalizing items with
  | nil => rfl
  | cons e edits ih =>
    obtain ⟨hbefore, hafter, hrest⟩ := h
    have hstep := ih (Edit.nodup_apply hnodup e) hrest
    rw [t.total_apply hnodup hbefore hafter] at hstep
    exact hstep

theorem foldl_step (edits : List (Edit α)) (x : σ) : edits.foldl t.step x =
      (edits.filterMap (·.after)).foldl t.add ((edits.filterMap (·.before)).foldl t.remove x) := by
  induction edits generalizing x with
  | nil => rfl
  | cons e edits ih =>
    obtain ⟨before, after⟩ := e
    rw [List.foldl_cons, ih]
    cases before <;> cases after <;> simp [step, addOption, removeOption, foldl_remove_add]

end Tally
