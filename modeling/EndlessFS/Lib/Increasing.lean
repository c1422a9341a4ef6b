import Mathlib.Data.List.Sort

/-!
# EndlessFS.Lib.Increasing

Lists whose elements increase in some measure, as listings of a bucket do, and what a longer listing keeps of
a shorter one.

* `Increasing.take_eq_filter`: a first part is given by its last element.
* `Increasing.slices_agree_iff`: a later listing agrees with an earlier one on a range of positions just if
  everything new comes after that range.
-/

namespace Conc

open List

variable {α β : Type} [LinearOrder β]

def Increasing (f : α → β) (l : List α) : Prop := l.Pairwise fun x y => f x < f y

namespace Increasing

variable {f : α → β} {l l₁ l₂ : List α}

theorem eq_of_mem_iff (h₁ : Increasing f l₁) (h₂ : Increasing f l₂) (hmem : ∀ x, x ∈ l₁ ↔ x ∈ l₂) : l₁ = l₂ := by
  exact List.Pairwise.eq_of_mem_iff h₁ h₂ hmem

section

variable (h : Increasing f l)

include h

theorem filter (p : α → Bool) : Increasing f (l.filter p) := List.Pairwise.filter p h

theorem nodup : l.Nodup :=
  .imp (fun {x y} (hlt : f x < f y) (heq : x = y) => (heq ▸ hlt).ne rfl) h

theorem eq_of_measure_eq {x y : α} (hx : x ∈ l) (hy : y ∈ l) (hxy : f x = f y) : x = y := by
  induction l with
  | nil => cases hx
  | cons z rest ih =>
    obtain ⟨hfirst, hrest⟩ := pairwise_cons.mp h
    rcases mem_cons.mp hx with rfl | hx' <;> rcases mem_cons.mp hy with rfl | hy'
    · rfl
    · exact absurd hxy (hfirst y hy').ne
    · exact absurd hxy (hfirst x hx').ne'
    · exact ih hrest hx' hy'

theorem filter_isPrefix (c : β) : l.filter (fun x => decide (f x ≤ c)) <+: l := by
  induction l with
  | nil => exact nil_prefix
  | cons x rest ih =>
    obtain ⟨hfirst, hrest⟩ := pairwise_cons.mp h
    by_cases hx : f x ≤ c
    · rw [filter_cons_of_pos (by simpa using hx)]
      exact cons_prefix_cons.mpr ⟨rfl, ih hrest⟩
    · have hnone : rest.filter (fun y => decide (f y ≤ c)) = [] :=
        filter_eq_nil_iff.mpr fun y hy => by simpa using (lt_of_not_ge hx).trans (hfirst y hy)
      rw [filter_cons_of_neg (by simpa using hx), hnone]
      exact nil_prefix

theorem take_eq_filter {j : Nat} {z : α} (hz : l[j]? = some z) :
    l.take (j + 1) = l.filter (fun x => decide (f x ≤ f z)) := by
  induction l generalizing j with
  | nil => simp at hz
  | cons x rest ih =>
    obtain ⟨hfirst, hrest⟩ := pairwise_cons.mp h
    cases j with
    | zero =>
      obtain rfl : x = z := by simpa using hz
      have hnone : rest.filter (fun y => decide (f y ≤ f x)) = [] :=
        filter_eq_nil_iff.mpr fun y hy => by simpa using hfirst y hy
      simp [hnone]
    | succ j =>
      have hz' : rest[j]? = some z := by simpa using hz
      have hx : f x ≤ f z := (hfirst z (mem_of_getElem? hz')).le
      rw [take_succ_cons, ih hrest hz', filter_cons_of_pos (by simpa using hx)]

end

theorem take_eq_of_getElem? (h₁ : Increasing f l₁) (h₂ : Increasing f l₂) (hsub : ∀ x ∈ l₁, x ∈ l₂) {j : Nat} {z : α}
    (hz₁ : l₁[j]? = some z) (hz₂ : l₂[j]? = some z) : l₁.take (j + 1) = l₂.take (j + 1) := by
  rw [take_eq_filter h₁ hz₁, take_eq_filter h₂ hz₂]
  have hsubperm : (l₁.filter fun x => decide (f x ≤ f z)).Subperm (l₂.filter fun x => decide (f x ≤ f z)) :=
    subperm_of_subset (h₁.filter _).nodup fun x hx => by
      rw [mem_filter] at hx ⊢
      exact ⟨hsub x hx.1, hx.2⟩
  have hlength : (l₂.filter fun x => decide (f x ≤ f z)).length ≤ (l₁.filter fun x => decide (f x ≤ f z)).length := by
    rw [← take_eq_filter h₁ hz₁, ← take_eq_filter h₂ hz₂, List.length_take, List.length_take]
    have := (List.getElem?_eq_some_iff.mp hz₁).1
    omega
  refine eq_of_mem_iff (h₁.filter _) (h₂.filter _) fun x => ?_
  exact (hsubperm.perm_of_length_le hlength).mem_iff

/-- A longer listing agrees with a shorter one from position `a` up to `b` just if whatever is new in it comes
after all of the shorter one's elements up to there, and that one is long enough. -/
theorem slices_agree_iff (h₁ : Increasing f l₁) (h₂ : Increasing f l₂) (hsub : ∀ x ∈ l₁, x ∈ l₂) {a b : Nat}
    (hab : a < b) (ha : a < l₁.length) : (∀ j, a ≤ j → j < b → l₁[j]? = l₂[j]?) ↔
      ∀ e ∈ l₂, e ∉ l₁ → b ≤ l₁.length ∧ ∀ x ∈ l₁.take b, f x < f e := by
  constructor
  · intro hagree e he hnew
    obtain ⟨m, hm, hma, hmb⟩ : ∃ m, m + 1 = min b l₁.length ∧ a ≤ m ∧ m < b :=
      ⟨min b l₁.length - 1, by omega, by omega, by omega⟩
    have hz₁ : l₁[m]? = some (l₁.get ⟨m, by omega⟩) := getElem?_eq_getElem _
    have htake := h₁.take_eq_of_getElem? h₂ hsub hz₁ ((hagree m hma hmb) ▸ hz₁)
    have hlong : b ≤ l₁.length := by
      by_contra hshort
      have hend : l₂[m + 1]? = none := by
        rw [← hagree (m + 1) (by omega) (by omega)]
        exact getElem?_eq_none (by omega)
      have hl₂ : l₂.length ≤ m + 1 := by simpa using hend
      rw [take_of_length_le (by omega), take_of_length_le hl₂] at htake
      exact hnew (htake ▸ he)
    refine ⟨hlong, fun x hx => ?_⟩
    obtain rfl : b = m + 1 := by omega
    rw [htake] at hx
    have hsplit : e ∈ l₂.take (m + 1) ++ l₂.drop (m + 1) := by rwa [take_append_drop]
    have hpairs : Increasing f (l₂.take (m + 1) ++ l₂.drop (m + 1)) := by rwa [take_append_drop]
    rcases mem_append.mp hsplit with he | he
    · exact absurd (mem_of_mem_take (htake ▸ he)) hnew
    · exact (pairwise_append.mp hpairs).2.2 x hx e he
  · intro hnew j _ hj
    by_cases hsame : ∀ e ∈ l₂, e ∈ l₁
    · rw [eq_of_mem_iff h₁ h₂ fun x => ⟨hsub x, hsame x⟩]
    · obtain ⟨e, he, hout⟩ : ∃ e ∈ l₂, e ∉ l₁ := by
        by_contra hall
        exact hsame fun e he => by_contra fun hout => hall ⟨e, he, hout⟩
      obtain ⟨m, rfl⟩ : ∃ m, b = m + 1 := ⟨b - 1, by omega⟩
      have hlong := (hnew e he hout).1
      have hz : l₁[m]? = some (l₁.get ⟨m, by omega⟩) := getElem?_eq_getElem _
      have hzmem : l₁.get ⟨m, by omega⟩ ∈ l₁.take (m + 1) :=
        mem_of_getElem? (i := m) (by rw [getElem?_take_of_lt (Nat.lt_succ_self m)]; exact hz)
      have hfilter : l₁.take (m + 1) = l₂.filter (fun x => decide (f x ≤ f (l₁.get ⟨m, by omega⟩))) := by
        rw [h₁.take_eq_filter hz]
        refine eq_of_mem_iff (h₁.filter _) (h₂.filter _) fun x => ?_
        simp only [mem_filter, decide_eq_true_eq]
        refine ⟨fun hx => ⟨hsub x hx.1, hx.2⟩, fun hx => ⟨?_, hx.2⟩⟩
        by_contra hout
        exact absurd ((hnew x hx.1 hout).2 _ hzmem) (not_lt.mpr hx.2)
      have hstart : l₁.take (m + 1) <+: l₂ := hfilter ▸ h₂.filter_isPrefix _
      rw [← getElem?_take_of_lt hj]
      exact (prefix_iff_getElem?.mp hstart j (by rw [length_take]; omega)) ▸ getElem?_eq_getElem _

end Increasing

end Conc
