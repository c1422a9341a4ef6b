import Mathlib.Data.List.Chain
import Mathlib.Data.List.Lex
import Mathlib.Order.Lattice
import Mathlib.Tactic.Common

/-!
# EndlessFS.Lib.Texts

The lexicographic order of texts that continue each other.

* `isChain_apart_iff`: what comparing the neighbours of sorted texts tells about all of them.
-/

namespace Conc

open List

variable {α : Type} [LinearOrder α]

/-! ## Neighbours of sorted texts -/

/-- A text between `p` and a text below `p` continues `p` with the separator or something less. -/
theorem exists_of_between {p s q : List α} {separator : α} (hlt : p < s) (hle : ¬ q < s) (hq : p ++ [separator] <+: q) :
    ∃ c rest, s = p ++ c :: rest ∧ c ≤ separator := by
  induction p generalizing s q with
  | nil =>
    cases s with
    | nil => exact absurd hlt (not_lt_nil _)
    | cons c rest =>
      obtain ⟨below, rfl⟩ := hq
      refine ⟨c, rest, rfl, not_lt.mp fun hc => hle ?_⟩
      exact cons_lt_cons_iff.mpr (.inl hc)
  | cons a p ih =>
    obtain ⟨below, rfl⟩ := hq
    cases s with
    | nil => exact absurd hlt (not_lt_nil _)
    | cons b s =>
      have hab : ¬ a < b := fun hab => hle (cons_lt_cons_iff.mpr (.inl hab))
      obtain ⟨rfl, hps⟩ := (cons_lt_cons_iff.mp hlt).resolve_left hab
      have hsq : ¬ p ++ [separator] ++ below < s := fun h => hle (cons_lt_cons_iff.mpr (.inr ⟨rfl, h⟩))
      obtain ⟨c, rest, rfl, hc⟩ := ih hps hsq (prefix_append _ _)
      exact ⟨c, rest, rfl, hc⟩

theorem append_cons_lt {p rest below : List α} {c d : α} (h : c < d) : p ++ c :: rest < p ++ d :: below :=
  append_left_lt (cons_lt_cons_iff.mpr (.inl h))

theorem lt_append_cons (p rest : List α) (c : α) : p < p ++ c :: rest := by
  have h : p ++ [] < p ++ c :: rest := append_left_lt (nil_lt_cons c rest)
  rwa [append_nil] at h

/-- In a sorted list, no neighbour is equal to or below its predecessor exactly if the texts are distinct and, for every
text with another one below it, some text continues it with less than the separator. -/
theorem isChain_apart_iff {l : List (List α)} {separator : α} (hsorted : l.Pairwise (· ≤ ·)) :
    l.IsChain (fun p s => s ≠ p ∧ ¬ p ++ [separator] <+: s) ↔
      l.Nodup ∧ ∀ p ∈ l, (∃ q ∈ l, p ++ [separator] <+: q) → ∃ r ∈ l, ∃ c rest, c < separator ∧ r = p ++ c :: rest := by
  constructor
  · intro hchain
    have hlt : l.Pairwise (· < ·) := by
      have hboth : l.IsChain (· < ·) := by
        have hle := hsorted.isChain
        rw [isChain_iff_getElem] at hchain hle ⊢
        exact fun i hi => lt_of_le_of_ne (hle i hi) (hchain i hi).1.symm
      exact isChain_iff_pairwise.mp hboth
    refine ⟨hlt.imp fun h => h.ne, fun p hp hbelow => ?_⟩
    obtain ⟨q, hq, hpq⟩ := hbelow
    obtain ⟨before, after, rfl⟩ := append_of_mem hp
    obtain ⟨below, hbelow⟩ := hpq
    have hpq : p < q := by
      rw [← hbelow, append_assoc]
      exact lt_append_cons p below separator
    have hafter : q ∈ after := by
      rcases mem_append.mp hq with hq | hq
      · exact absurd ((pairwise_append.mp hlt).2.2 q hq p (.head _)) hpq.asymm
      · exact (mem_cons.mp hq).resolve_left hpq.ne'
    cases after with
    | nil => cases hafter
    | cons s after =>
      have htail := (pairwise_append.mp hlt).2.1
      have hps := (pairwise_cons.mp htail).1 s (.head _)
      have hsq : s ≤ q := by
        rcases mem_cons.mp hafter with rfl | hq
        · exact le_rfl
        · exact ((pairwise_cons.mp (pairwise_cons.mp htail).2).1 q hq).le
      obtain ⟨c, rest, hs, hc⟩ := exists_of_between hps (not_lt.mpr hsq) ⟨below, hbelow⟩
      have hapart : ¬ p ++ [separator] <+: s := (isChain_cons_cons.mp hchain.right_of_append).1.2
      refine ⟨s, by simp, c, rest, lt_of_le_of_ne hc ?_, hs⟩
      rintro rfl
      exact hapart ⟨rest, by rw [hs, append_assoc]; rfl⟩
  · rintro ⟨hnodup, hcontinued⟩
    rw [isChain_iff_getElem]
    intro i hi
    have hnext : l[i] ≠ l[i + 1] := pairwise_iff_getElem.mp hnodup i (i + 1) (by omega) hi (by omega)
    refine ⟨hnext.symm, fun hbelow => ?_⟩
    obtain ⟨r, hr, c, rest, hc, hrp⟩ := hcontinued l[i] (getElem_mem _) ⟨l[i + 1], getElem_mem _, hbelow⟩
    obtain ⟨j, hj, rfl⟩ := getElem_of_mem hr
    -- the continuation would have to lie between the neighbours
    have hafter : l[i] < l[j] := hrp ▸ lt_append_cons _ _ _
    have hbefore : l[j] < l[i + 1] := by
      obtain ⟨below, hbelow⟩ := hbelow
      rw [← hbelow, hrp, append_assoc]
      exact append_cons_lt hc
    rw [pairwise_iff_getElem] at hsorted
    rcases Nat.lt_trichotomy i j with hij | rfl | hji
    · rcases Nat.lt_or_eq_of_le (Nat.succ_le_of_lt hij) with hij' | rfl
      · exact absurd (hsorted (i + 1) j hi hj hij') (not_le.mpr hbefore)
      · exact lt_irrefl _ hbefore
    · exact lt_irrefl _ hafter
    · exact absurd (hsorted j i hj (by omega) hji) (not_le.mpr hafter)

end Conc
