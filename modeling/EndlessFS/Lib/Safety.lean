import EndlessFS.Lib.Prog

/-!
# EndlessFS.Lib.Safety

A program logic for interleaved programs. `Safe I ok Q p s` says of the program `p`, started in
`s`: whatever the other programs do to the state in the meantime, as long as the state only moves
along `le` and keeps the invariant `I`, each operation of `p` that meets `ok` keeps `I` too, and a
result is returned only in a state in which `Q` holds of it.

* `Safe.bind`, `Safe.map`, `Safe.weaken`: the rules programs are proved with.
* `Reach.sound`: if every call is safe when it starts, the invariant holds in every reachable
  configuration, and every task there is still safe.
-/

namespace Conc

variable {M : Machine} {α β : Type}

section

variable (I : M.State → Prop) (ok : M.State → M.Choice → M.Op → Prop)

def Safe (Q : M.State → α → Prop) : Prog M α → M.State → Prop
  | .ret a, s => ∀ s', M.le s s' → I s' → Q s' a
  | .op o next, s => ∀ s', M.le s s' → I s' → ∀ c, ok s' c o →
      I (M.exec c s' o).1 ∧ Safe Q (next (M.exec c s' o).2) (M.exec c s' o).1

variable {I ok} {p : Prog M α} {Q : M.State → α → Prop} {s : M.State}

theorem Safe.mono {t : M.State} (h : Safe I ok Q p s) (hle : M.le s t) : Safe I ok Q p t := by
  cases p with
  | ret a => exact fun s' hs' => h s' (M.le_trans hle hs')
  | op o next => exact fun s' hs' => h s' (M.le_trans hle hs')

theorem Safe.weaken {Q' : M.State → α → Prop}
    (h : Safe I ok Q p s) (hQ : ∀ s' a, M.le s s' → I s' → Q s' a → Q' s' a) : Safe I ok Q' p s := by
  induction p generalizing s with
  | ret a => exact fun s' hs' hI => hQ s' a hs' hI (h s' hs' hI)
  | op o next ih =>
    intro s' hs' hI c hc
    obtain ⟨hI', hnext⟩ := h s' hs' hI c hc
    refine ⟨hI', ih _ hnext fun t a ht => hQ t a ?_⟩
    exact M.le_trans hs' (M.le_trans (M.exec_le c s' o) ht)

theorem Safe.bind {Q' : M.State → β → Prop} {f : α → Prog M β} (hp : Safe I ok Q p s)
    (hf : ∀ s' a, M.le s s' → I s' → Q s' a → Safe I ok Q' (f a) s') : Safe I ok Q' (p >>= f) s := by
  induction p generalizing s with
  | ret a =>
    -- the continuation is only asked about states that satisfy the invariant
    rw [Prog.ret_bind]
    cases hfa : f a with
    | ret b =>
      intro s' hs' hI
      have h := hf s' a hs' hI (hp s' hs' hI)
      rw [hfa] at h
      exact h s' (M.le_refl s') hI
    | op o next =>
      intro s' hs' hI
      have h := hf s' a hs' hI (hp s' hs' hI)
      rw [hfa] at h
      exact h s' (M.le_refl s') hI
  | op o next ih =>
    intro s' hs' hI c hc
    obtain ⟨hI', hnext⟩ := hp s' hs' hI c hc
    refine ⟨hI', ih _ hnext fun t a ht => hf t a ?_⟩
    exact M.le_trans hs' (M.le_trans (M.exec_le c s' o) ht)

theorem Safe.map {Q : M.State → β → Prop} {f : α → β} (h : Safe I ok (fun s a => Q s (f a)) p s) :
    Safe I ok Q (f <$> p) s := by
  induction p generalizing s with
  | ret a => exact h
  | op o next ih =>
    intro s' hs' hI c hc
    obtain ⟨hI', hnext⟩ := h s' hs' hI c hc
    exact ⟨hI', ih _ hnext⟩

end

variable {Call : Type} {Res : Call → Type} {body : (c : Call) → Prog M (Res c)}
  {P : Policy M Call} {I : M.State → Prop} {Q : (c : Call) → M.State → Res c → Prop}

/-- The invariant of a configuration: the state is fine and every task is still safe. -/
structure Config.Sound (I : M.State → Prop) (P : Policy M Call)
    (Q : (c : Call) → M.State → Res c → Prop) (cfg : Config M Res) : Prop where
  state : I cfg.state
  tasks : ∀ t ∈ cfg.pool, Safe I P.step (Q t.call) t.prog cfg.state

variable {cfg : Config M Res} {t : Task M Res}

theorem Config.Sound.step {i : Nat} {c : M.Choice} (h : cfg.Sound I P Q) (hi : cfg.pool[i]? = some t)
    (hm : ∀ o ∈ t.prog.pending, P.step cfg.state c o) :
    (Config.mk (t.perform c cfg.state).1 (cfg.pool.set i (t.perform c cfg.state).2)).Sound I P Q := by
  have ht : Safe I P.step (Q t.call) t.prog cfg.state := h.tasks t (List.mem_of_getElem? hi)
  obtain ⟨call, prog⟩ := t
  cases prog with
  | ret a =>
    refine ⟨h.state, fun u hu => ?_⟩
    rcases List.mem_or_eq_of_mem_set hu with hu | rfl
    · exact h.tasks u hu
    · exact ht
  | op o next =>
    obtain ⟨hI, hnext⟩ := ht cfg.state (M.le_refl _) h.state c (hm o rfl)
    refine ⟨hI, fun u hu => ?_⟩
    rcases List.mem_or_eq_of_mem_set hu with hu | rfl
    · exact (h.tasks u hu).mono (M.exec_le c cfg.state o)
    · exact hnext

theorem Config.Sound.apply {e : Event M Call} (h : cfg.Sound I P Q)
    (hm : P.Meets cfg e) (hspawn : ∀ s c, I s → P.spawn s c → Safe I P.step (Q c) (body c) s)
    (hdrift : ∀ s d, I s → P.drift s d → I (M.drift d s)) : (cfg.apply body e).Sound I P Q := by
  cases e with
  | spawn c =>
    refine ⟨h.state, fun u hu => ?_⟩
    rcases List.mem_append.mp hu with hu | hu
    · exact h.tasks u hu
    · rw [List.mem_singleton] at hu
      subst hu
      exact hspawn _ c h.state hm
  | step i c =>
    cases hi : cfg.pool[i]? with
    | none => simpa only [Config.apply, hi] using h
    | some t => simpa only [Config.apply, hi] using h.step hi (hm t hi)
  | drift d =>
    exact ⟨hdrift _ d h.state hm, fun u hu => (h.tasks u hu).mono (M.drift_le d _)⟩

theorem Reach.sound {cfg' : Config M Res} (hr : Reach body P cfg cfg') (h : cfg.Sound I P Q)
    (hspawn : ∀ s c, I s → P.spawn s c → Safe I P.step (Q c) (body c) s)
    (hdrift : ∀ s d, I s → P.drift s d → I (M.drift d s)) : cfg'.Sound I P Q := by
  induction hr with
  | refl => exact h
  | step e _ hm ih => exact ih.apply hm hspawn hdrift

theorem Config.Sound.result (h : cfg.Sound I P Q)
    (ht : t ∈ cfg.pool) {a : Res t.call} (ha : t.prog.result = some a) : Q t.call cfg.state a := by
  have hs := h.tasks t ht
  obtain ⟨call, prog⟩ := t
  cases prog with
  | ret b =>
    obtain rfl : b = a := by simpa [Prog.result] using ha
    exact hs cfg.state (M.le_refl _) h.state
  | op o next => simp [Prog.result] at ha

end Conc
