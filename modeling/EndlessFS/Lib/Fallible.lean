import EndlessFS.Lib.Safety

/-!
# EndlessFS.Lib.Fallible

Interleaved programs that may fail. `Yields I ok φ a s` is safety (`Lib.Safety`) of a program that returns
a result or an error: the invariant is kept on every way, and a result that is returned satisfies `φ`.

* `Yields.bind`, `Yields.except_bind`, `Yields.attempt`: one rule per way to compose such programs.
* `Yields.ask`: one operation, whose reply is read as a result or an error.
-/

namespace Conc

variable {M : Machine} {ε α β : Type}

abbrev Fallible (M : Machine) (ε α : Type) := ExceptT ε (Prog M) α

def ask (o : M.Op) (read : M.Reply o → Except ε α) : Fallible M ε α := ExceptT.mk (.op o fun r => .ret (read r))

def attempted (a : Fallible M ε α) : Fallible M ε (Except ε α) := ExceptT.lift a.run

def withError (e : ε) (a : Fallible M ε α) : Fallible M ε α := ExceptT.mk (Except.mapError (fun _ => e) <$> a.run)

def Yields (I : M.State → Prop) (ok : M.State → M.Choice → M.Op → Prop) (φ : M.State → α → Prop) (a : Fallible M ε α)
    (s : M.State) : Prop :=
  Safe I ok (fun t r => ∀ x, r = .ok x → φ t x) a.run s

namespace Yields

variable {I : M.State → Prop} {ok : M.State → M.Choice → M.Op → Prop} {φ : M.State → α → Prop}
  {ψ : M.State → β → Prop} {s t : M.State} {a : Fallible M ε α}

theorem weaken {φ' : M.State → α → Prop} (h : Yields I ok φ a s)
    (hφ : ∀ t x, M.le s t → I t → φ t x → φ' t x) : Yields I ok φ' a s :=
  Safe.weaken h fun t _ hle hI hr x hx => hφ t x hle hI (hr x hx)

theorem pure {x : α} (h : ∀ t, M.le s t → I t → φ t x) : Yields I ok φ (Pure.pure x : Fallible M ε α) s := by
  intro t hle hI y hy
  cases hy
  exact h t hle hI

theorem throw {e : ε} : Yields I ok φ (MonadExcept.throw e : Fallible M ε α) s :=
  fun _ _ _ _ h => nomatch h

variable {f : α → Fallible M ε β}

theorem bind (ha : Yields I ok φ a s)
    (hf : ∀ t x, M.le s t → I t → φ t x → Yields I ok ψ (f x) t) : Yields I ok ψ (a >>= f) s := by
  unfold Yields
  refine .bind ha fun t r hle hI hr => ?_
  cases r with
  | ok x => exact hf t x hle hI (hr x rfl)
  | error e => exact throw

variable {x : Except ε α}

theorem except_bind (h : ∀ a, x = .ok a → Yields I ok ψ (f a) s) : Yields I ok ψ (liftM x >>= f) s := by
  cases hx : x with
  | error e => exact throw
  | ok a => exact h a hx

theorem except (h : ∀ a, x = .ok a → ∀ t, M.le s t → I t → φ t a) : Yields I ok φ (liftM x : Fallible M ε α) s := by
  cases hx : x with
  | error e => exact throw
  | ok a => exact pure (h a hx)

theorem attempt (h : Yields I ok φ a s) : Yields I ok (fun t r => ∀ x, r = .ok x → φ t x) (attempted a) s := by
  unfold Yields attempted
  refine .map (.weaken h fun t r _ _ hr y hy => ?_)
  cases hy
  exact hr

theorem withError {e : ε} (h : Yields I ok φ a s) : Yields I ok φ (Conc.withError e a) s := by
  refine .map (.weaken h fun t r _ _ hr x hx => ?_)
  cases r with
  | ok y =>
    cases hx
    exact hr _ rfl
  | error _ => cases hx

theorem map {f : α → β} (h : Yields I ok (fun t x => ψ t (f x)) a s) : Yields I ok ψ (f <$> a) s := by
  unfold Yields
  rw [ExceptT.run_map]
  refine .map (.weaken h fun t r _ _ hr y hy => ?_)
  cases r with
  | ok x =>
    cases hy
    exact hr x rfl
  | error _ => cases hy

theorem ask {o : M.Op} {read : M.Reply o → Except ε α} (h : ∀ t, M.le s t → I t → ∀ c, ok t c o → I (M.exec c t o).1 ∧
      ∀ x, read (M.exec c t o).2 = .ok x → ∀ u, M.le (M.exec c t o).1 u → I u → φ u x) :
        Yields I ok φ (Conc.ask o read) s := by
  intro t hle hI c hc
  obtain ⟨hI', hread⟩ := h t hle hI c hc
  exact ⟨hI', fun u hu hIu x hx => hread x hx u hu hIu⟩

end Yields

end Conc
