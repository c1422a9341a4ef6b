import EndlessFS.Lib.Fallible

/-!
# EndlessFS.Lib.Alone

One program that runs alone to its end, while the machine drifts between its operations.

* `Prog.alone`: the final state and the result.
* `Alone I ok c Q p s`: a logic for such runs. The invariant `I` may be assumed of every state on the
  way, since `Safe` establishes it; the rules only have to follow what the program computes.
* `Alone.sound`, `Alone.all`: what the logic says of the run.
-/

namespace Conc

variable {M : Machine} {α β : Type}

/-- The program run alone: the machine drifts before each operation, and every choice is `c`. -/
def Prog.alone (c : M.Choice) : Prog M α → (Nat → M.Drift) → M.State → M.State × α
  | .ret a, _, s => (s, a)
  | .op o next, drifts, s =>
    (next (M.exec c (M.drift (drifts 0) s) o).2).alone c (fun i => drifts (i + 1))
      (M.exec c (M.drift (drifts 0) s) o).1

def Prog.AloneMeets (c : M.Choice) (ok : M.State → M.Choice → M.Op → Prop) (tick : M.State → M.Drift → Prop) :
    Prog M α → (Nat → M.Drift) → M.State → Prop
  | .ret _, _, _ => True
  | .op o next, drifts, s => tick s (drifts 0) ∧ ok (M.drift (drifts 0) s) c o ∧
      (next (M.exec c (M.drift (drifts 0) s) o).2).AloneMeets c ok tick (fun i => drifts (i + 1))
        (M.exec c (M.drift (drifts 0) s) o).1

section

variable (I : M.State → Prop) (ok : M.State → M.Choice → M.Op → Prop) (c : M.Choice)

def Alone (Q : M.State → α → Prop) : Prog M α → M.State → Prop
  | .ret a, s => Q s a
  | .op o next, s => ∀ d, I (M.drift d s) → ok (M.drift d s) c o → I (M.exec c (M.drift d s) o).1 →
      Alone Q (next (M.exec c (M.drift d s) o).2) (M.exec c (M.drift d s) o).1

variable {I ok c} {Q : M.State → α → Prop} {p : Prog M α} {s : M.State}

theorem Alone.bind {Q' : M.State → β → Prop} {f : α → Prog M β} (hI : I s) (hp : Alone I ok c Q p s)
    (hf : ∀ t a, M.le s t → I t → Q t a → Alone I ok c Q' (f a) t) : Alone I ok c Q' (p >>= f) s := by
  induction p generalizing s with
  | ret a => exact hf s a (M.le_refl s) hI hp
  | op o next ih =>
    intro d hd hok hI'
    refine ih _ hI' (hp d hd hok hI') fun t a ht => hf t a ?_
    exact M.le_trans (M.drift_le d s) (M.le_trans (M.exec_le c _ o) ht)

theorem Alone.weaken {Q' : M.State → α → Prop} (hI : I s)
    (h : Alone I ok c Q p s) (hQ : ∀ t a, M.le s t → I t → Q t a → Q' t a) : Alone I ok c Q' p s := by
  rw [← bind_pure p]
  exact .bind hI h hQ

theorem Alone.map {Q : M.State → β → Prop} {f : α → β}
    (h : Alone I ok c (fun s a => Q s (f a)) p s) : Alone I ok c Q (f <$> p) s := by
  induction p generalizing s with
  | ret a => exact h
  | op o next ih => exact fun d hd hok hI' => ih _ (h d hd hok hI')

theorem Alone.sound {R : M.State → α → Prop} {tick : M.State → M.Drift → Prop} {drifts : Nat → M.Drift}
    (h : Alone I ok c Q p s) (hsafe : Safe I ok R p s) (hI : I s) (htick : ∀ s d, I s → tick s d → I (M.drift d s))
    (hmeets : p.AloneMeets c ok tick drifts s) : Q (p.alone c drifts s).1 (p.alone c drifts s).2 := by
  induction p generalizing s drifts with
  | ret a => exact h
  | op o next ih =>
    obtain ⟨hd, hok, hnext⟩ := hmeets
    have hI' := htick s _ hI hd
    obtain ⟨hI'', hsafe'⟩ := hsafe _ (M.drift_le _ _) hI' c hok
    exact ih _ (h _ hI' hok hI'') hsafe' hI'' hnext

theorem Alone.all {c : M.Choice} (h : Alone (fun _ => True) (fun _ _ _ => True) c Q p s) (drifts : Nat → M.Drift) :
    Q (p.alone c drifts s).1 (p.alone c drifts s).2 := by
  induction p generalizing s drifts with
  | ret a => exact h
  | op o next ih => exact ih _ (h (drifts 0) trivial trivial trivial) _

theorem Alone.then {ε : Type} {Q : M.State → Except ε β → Prop} {a : Fallible M ε α} {f : α → Fallible M ε β} (hI : I s)
    (h : Alone I ok c (fun t r => ∃ x, r = .ok x ∧ Alone I ok c Q (f x).run t) a.run s) :
      Alone I ok c Q (a >>= f).run s := by
  refine Alone.bind hI h fun t r _ _ hr => ?_
  obtain ⟨x, rfl, hf⟩ := hr
  exact hf

end

end Conc
