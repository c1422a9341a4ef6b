import Mathlib.Data.Set.Basic
import EndlessFS.Lib.Prog

/-!
# EndlessFS.Lib.Owned

A program logic for interleaved programs that hold things nobody else has: a fresh identifier, a
session that only its opener can name.

* `Tokens`: what can be held, when a state knows of it, and what it means that a step leaves it alone.
* `Owned I ok Q p own s`: the program `p` holds `own` in `s`. Whatever the others do, as long as they
  keep `I` and leave `own` alone, each operation of `p` that meets `ok` keeps `I`, leaves alone what `p`
  does not hold, and takes nothing that was known before.
* `Reach.owned`: if every call is owned with nothing in its hands when it starts, the invariant holds in
  every reachable configuration.
-/

namespace Conc

open Function

structure Tokens (M : Machine) where
  Token : Type
  Known : M.State → Token → Prop
  known_mono : ∀ {s t x}, M.le s t → Known s x → Known t x
  Same : Token → M.State → M.State → Prop
  same_refl : ∀ x s, Same x s s
  same_trans : ∀ {x s t u}, Same x s t → Same x t u → Same x s u

variable {M : Machine} {α β : Type} (T : Tokens M)

def Tokens.Frame (own : Set T.Token) (s t : M.State) : Prop := ∀ x ∈ own, T.Same x s t

variable {s : M.State}

theorem Tokens.Frame.trans {T : Tokens M} {own : Set T.Token} {t u : M.State} (h : T.Frame own s t)
    (h' : T.Frame own t u) : T.Frame own s u :=
  fun x hx => T.same_trans (h x hx) (h' x hx)

/-- A step of a program that holds `own` before and `own'` after it. -/
structure Tokens.Passes (own own' : Set T.Token) (s t : M.State) : Prop where
  taken : ∀ x ∈ own', x ∈ own ∨ ¬T.Known s x ∧ T.Known t x
  others : ∀ x, x ∉ own → T.Known s x → T.Same x s t

theorem Tokens.Passes.rfl {T : Tokens M} {own : Set T.Token} : T.Passes own own s s :=
  ⟨fun _ => .inl, fun x _ _ => T.same_refl x s⟩

section

variable (I : M.State → Prop) (ok : M.State → M.Choice → M.Op → Prop)

def Owned (Q : M.State → Set T.Token → α → Prop) : Prog M α → Set T.Token → M.State → Prop
  | .ret a, own, s => ∀ s', M.le s s' → T.Frame own s s' → I s' → Q s' own a
  | .op o next, own, s => ∀ s', M.le s s' → T.Frame own s s' → I s' → ∀ c, ok s' c o →
      I (M.exec c s' o).1 ∧ ∃ own', T.Passes own own' s' (M.exec c s' o).1 ∧
        Owned Q (next (M.exec c s' o).2) own' (M.exec c s' o).1

variable {T I ok} {Q : M.State → Set T.Token → α → Prop} {own : Set T.Token}

theorem Owned.mono {p : Prog M α} {t : M.State}
    (h : Owned T I ok Q p own s) (hle : M.le s t) (hframe : T.Frame own s t) : Owned T I ok Q p own t := by
  cases p with
  | ret a => exact fun s' hs' hf => h s' (M.le_trans hle hs') (hframe.trans hf)
  | op o next => exact fun s' hs' hf => h s' (M.le_trans hle hs') (hframe.trans hf)

theorem Owned.ret {a : α} (h : ∀ s', M.le s s' → T.Frame own s s' → I s' → Q s' own a) :
    Owned T I ok Q (.ret a) own s := h

theorem Owned.perform {o : M.Op} {f : M.Reply o → Prog M α}
    (h : ∀ s', M.le s s' → T.Frame own s s' → I s' → ∀ c, ok s' c o →
      I (M.exec c s' o).1 ∧ ∃ own', T.Passes own own' s' (M.exec c s' o).1 ∧
        Owned T I ok Q (f (M.exec c s' o).2) own' (M.exec c s' o).1) : Owned T I ok Q (Prog.perform o >>= f) own s := h

theorem Owned.bind {Q' : M.State → Set T.Token → β → Prop} {p : Prog M α} {f : α → Prog M β}
    (hp : Owned T I ok Q p own s) (hf : ∀ s' own' a, M.le s s' → I s' → Q s' own' a → Owned T I ok Q' (f a) own' s') :
      Owned T I ok Q' (p >>= f) own s := by
  induction p generalizing own s with
  | ret a =>
    -- the continuation is only asked about states that satisfy the invariant
    rw [Prog.ret_bind]
    cases hfa : f a with
    | ret b =>
      intro s' hs' hframe hI
      have h := hf s' own a hs' hI (hp s' hs' hframe hI)
      rw [hfa] at h
      exact h s' (M.le_refl s') (fun x _ => T.same_refl x s') hI
    | op o next =>
      intro s' hs' hframe hI
      have h := hf s' own a hs' hI (hp s' hs' hframe hI)
      rw [hfa] at h
      exact h s' (M.le_refl s') (fun x _ => T.same_refl x s') hI
  | op o next ih =>
    intro s' hs' hframe hI c hc
    obtain ⟨hI', own', hpasses, hnext⟩ := hp s' hs' hframe hI c hc
    refine ⟨hI', own', hpasses, ih _ hnext fun t own'' a ht => hf t own'' a ?_⟩
    exact M.le_trans hs' (M.le_trans (M.exec_le c s' o) ht)

end

variable {Call : Type} {Res : Call → Type} {body : (c : Call) → Prog M (Res c)} {P : Policy M Call} {T}
  {I : M.State → Prop} {Q : (c : Call) → M.State → Set T.Token → Res c → Prop}

/-- The invariant of a configuration: nothing is in two hands. -/
structure Config.Holds (I : M.State → Prop) (P : Policy M Call) (Q : (c : Call) → M.State → Set T.Token → Res c → Prop)
    (hands : Nat → Set T.Token) (cfg : Config M Res) : Prop where
  state : I cfg.state
  apart : ∀ i j, i ≠ j → ∀ x ∈ hands i, x ∉ hands j
  known : ∀ i, ∀ x ∈ hands i, T.Known cfg.state x
  tasks : ∀ i t, cfg.pool[i]? = some t → Owned T I P.step (Q t.call) t.prog (hands i) cfg.state

variable {hands : Nat → Set T.Token} {cfg : Config M Res}

theorem Config.Holds.spawn (h : cfg.Holds I P Q hands) {c : Call}
    (hbody : Owned T I P.step (Q c) (body c) ∅ cfg.state) :
    (cfg.apply body (.spawn c)).Holds I P Q (update hands cfg.pool.length ∅) := by
  have hsub : ∀ i, ∀ x ∈ update hands cfg.pool.length ∅ i, x ∈ hands i := by
    intro i x hx
    by_cases hi : i = cfg.pool.length
    · rw [hi, update_self] at hx
      exact hx.elim
    · rwa [update_of_ne hi] at hx
  refine ⟨h.state, fun i j hij x hx hx' => h.apart i j hij x (hsub i x hx) (hsub j x hx'),
    fun i x hx => h.known i x (hsub i x hx), fun i t ht => ?_⟩
  by_cases hi : i = cfg.pool.length
  · subst hi
    rw [update_self]
    obtain rfl : t = { call := c, prog := body c } := by simpa [Config.apply, eq_comm] using ht
    exact hbody
  · rw [update_of_ne hi]
    have hlt : i < cfg.pool.length := by
      have := (List.getElem?_eq_some_iff.mp ht).1
      simp [Config.apply] at this
      omega
    refine h.tasks i t ?_
    rwa [Config.apply, List.getElem?_append_left hlt] at ht

theorem Config.Holds.step (h : cfg.Holds I P Q hands) {i : Nat} {c : M.Choice} {t : Task M Res}
    (hi : cfg.pool[i]? = some t) (hm : ∀ o ∈ t.prog.pending, P.step cfg.state c o) :
    ∃ hands', (Config.mk (t.perform c cfg.state).1 (cfg.pool.set i (t.perform c cfg.state).2)).Holds I P Q hands' := by
  have ht := h.tasks i t hi
  obtain ⟨call, prog⟩ := t
  cases prog with
  | ret a =>
    refine ⟨hands, h.state, h.apart, h.known, fun j u hu => h.tasks j u ?_⟩
    by_cases hj : j = i
    · subst hj
      rw [List.getElem?_set_self (List.getElem?_eq_some_iff.mp hi).1] at hu
      exact hi.trans hu
    · rwa [List.getElem?_set_ne (Ne.symm hj)] at hu
  | op o next =>
    obtain ⟨hI, own', hpasses, hnext⟩ := ht cfg.state (M.le_refl _) (fun x _ => T.same_refl x _) h.state c (hm o rfl)
    have hother : ∀ j, j ≠ i → T.Frame (hands j) cfg.state (M.exec c cfg.state o).1 := fun j hj x hx =>
      hpasses.others x (h.apart j i hj x hx) (h.known j x hx)
    have hapart : ∀ j, j ≠ i → ∀ x ∈ own', x ∉ hands j := fun j hj x hx hx' =>
      (hpasses.taken x hx).elim (fun hown => h.apart i j (Ne.symm hj) x hown hx') fun hnew => hnew.1 (h.known j x hx')
    refine ⟨update hands i own', hI, fun j k hjk x hx hx' => ?_, fun j x hx => ?_, fun j u hu => ?_⟩
    · by_cases hj : j = i
      · subst hj
        rw [update_self] at hx
        rw [update_of_ne (Ne.symm hjk)] at hx'
        exact hapart k (Ne.symm hjk) x hx hx'
      · rw [update_of_ne hj] at hx
        by_cases hk : k = i
        · subst hk
          rw [update_self] at hx'
          exact hapart j hj x hx' hx
        · rw [update_of_ne hk] at hx'
          exact h.apart j k hjk x hx hx'
    · by_cases hj : j = i
      · subst hj
        rw [update_self] at hx
        exact (hpasses.taken x hx).elim (fun hown => T.known_mono (M.exec_le c cfg.state o)
          (h.known j x hown)) And.right
      · rw [update_of_ne hj] at hx
        exact T.known_mono (M.exec_le c cfg.state o) (h.known j x hx)
    · by_cases hj : j = i
      · subst hj
        rw [update_self]
        obtain rfl : u = { call := call, prog := next (M.exec c cfg.state o).2 } := by
          simpa [Task.perform, (List.getElem?_eq_some_iff.mp hi).1, eq_comm] using hu
        exact hnext
      · rw [update_of_ne hj]
        rw [List.getElem?_set_ne (Ne.symm hj)] at hu
        exact (h.tasks j u hu).mono (M.exec_le c cfg.state o) (hother j hj)

theorem Reach.owned {cfg cfg' : Config M Res} (hr : Reach body P cfg cfg') (h : cfg.Holds I P Q fun _ => ∅)
    (hspawn : ∀ s c, I s → P.spawn s c → Owned T I P.step (Q c) (body c) ∅ s)
    (hdrift : ∀ s d, I s → P.drift s d → I (M.drift d s) ∧ ∀ x, T.Known s x → T.Same x s (M.drift d s)) :
    ∃ hands, cfg'.Holds I P Q hands := by
  induction hr with
  | refl => exact ⟨_, h⟩
  | @step cfg' e _ hm ih =>
    obtain ⟨hands, hholds⟩ := ih
    cases e with
    | spawn c => exact ⟨_, hholds.spawn (hspawn _ c hholds.state hm)⟩
    | step i c =>
      cases hi : cfg'.pool[i]? with
      | none => exact ⟨hands, by simpa only [Config.apply, hi] using hholds⟩
      | some t =>
        obtain ⟨hands', hstep⟩ := hholds.step hi (hm t hi)
        exact ⟨hands', by simpa only [Config.apply, hi] using hstep⟩
    | drift d =>
      obtain ⟨hI, hsame⟩ := hdrift _ d hholds.state hm
      refine ⟨hands, hI, hholds.apart, fun i x hx => T.known_mono (M.drift_le d _) (hholds.known i x hx),
        fun i t ht => ?_⟩
      exact (hholds.tasks i t ht).mono (M.drift_le d _) fun x hx => hsame x (hholds.known i x hx)

end Conc
