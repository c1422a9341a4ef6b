import Mathlib.Tactic.Common

/-!
# EndlessFS.Lib.Prog

Programs that run against one shared machine.

* `Machine`: a state, the atomic operations on it, and the evolution order `le` that every
  operation respects (facts that are monotone along `le` are never lost).
* `Prog`: a program is a tree of operations; between two operations anything may happen.
* `Config`, `Config.apply`, `Reach`: pools of programs that take their operations in any order.
  A program that is never scheduled again is a crashed one.
-/

namespace Conc

/-- A shared machine. `Choice` resolves what an operation leaves open (a fault, for instance);
`Drift` is what the machine does on its own. -/
structure Machine where
  State : Type
  Op : Type
  Reply : Op → Type
  Choice : Type
  Drift : Type
  exec : Choice → State → (o : Op) → State × Reply o
  drift : Drift → State → State
  le : State → State → Prop
  le_refl : ∀ s, le s s
  le_trans : ∀ {s t u}, le s t → le t u → le s u
  exec_le : ∀ c s o, le s (exec c s o).1
  drift_le : ∀ d s, le s (drift d s)

/-- A program over the machine `M` with a result of type `α`. -/
inductive Prog (M : Machine) (α : Type) : Type where
  | ret (a : α)
  | op (o : M.Op) (next : M.Reply o → Prog M α)

namespace Prog

variable {M : Machine} {α β : Type}

def bind : Prog M α → (α → Prog M β) → Prog M β
  | .ret a, f => f a
  | .op o next, f => .op o fun r => (next r).bind f

instance : Monad (Prog M) where
  pure := .ret
  bind := bind

def perform (o : M.Op) : Prog M (M.Reply o) := .op o .ret

@[simp] theorem pure_eq (a : α) : (pure a : Prog M α) = .ret a := rfl
@[simp] theorem ret_bind (a : α) (f : α → Prog M β) : (Prog.ret a >>= f) = f a := rfl
@[simp] theorem op_bind (o : M.Op) (next : M.Reply o → Prog M α) (f : α → Prog M β) :
    (Prog.op o next >>= f) = .op o fun r => next r >>= f := rfl

theorem bind_ret (p : Prog M α) : (p >>= Prog.ret) = p := by
  induction p with
  | ret a => rfl
  | op o next ih => simp only [op_bind, ih]

theorem bind_assoc {γ : Type} (p : Prog M α) (f : α → Prog M β) (g : β → Prog M γ) :
    (p >>= f >>= g) = (p >>= fun a => f a >>= g) := by
  induction p with
  | ret a => rfl
  | op o next ih => simp only [op_bind, ih]

instance : LawfulMonad (Prog M) :=
  LawfulMonad.mk' (Prog M) bind_ret (fun _ _ => rfl) bind_assoc

def pending : Prog M α → Option M.Op
  | .ret _ => none
  | .op o _ => some o

def result : Prog M α → Option α
  | .ret a => some a
  | .op _ _ => none

end Prog

/-! ## Pools of programs -/

variable {M : Machine} {Call : Type} {Res : Call → Type}

/-- A call and what is left of its program. -/
structure Task (M : Machine) {Call : Type} (Res : Call → Type) where
  call : Call
  prog : Prog M (Res call)

structure Config (M : Machine) {Call : Type} (Res : Call → Type) where
  state : M.State
  pool : List (Task M Res)

/-- What a scheduler can do: start a call, let the `i`-th task perform its next operation, or
let the machine drift. -/
inductive Event (M : Machine) (Call : Type) where
  | spawn (c : Call)
  | step (i : Nat) (c : M.Choice)
  | drift (d : M.Drift)

/-- The task after its operation was performed in state `s`, with the new state. -/
def Task.perform (c : M.Choice) (s : M.State) (t : Task M Res) : M.State × Task M Res :=
  match t.prog with
  | .ret _ => (s, t)
  | .op o next => ((M.exec c s o).1, { call := t.call, prog := next (M.exec c s o).2 })

def Config.apply (body : (c : Call) → Prog M (Res c)) (cfg : Config M Res) :
    Event M Call → Config M Res
  | .spawn c => { cfg with pool := cfg.pool ++ [{ call := c, prog := body c }] }
  | .step i c =>
    match cfg.pool[i]? with
    | none => cfg
    | some t => { state := (t.perform c cfg.state).1, pool := cfg.pool.set i (t.perform c cfg.state).2 }
  | .drift d => { cfg with state := M.drift d cfg.state }

def Config.run (body : (c : Call) → Prog M (Res c)) (cfg : Config M Res)
    (events : List (Event M Call)) : Config M Res :=
  events.foldl (Config.apply body) cfg

variable {body : (c : Call) → Prog M (Res c)}

theorem Config.le_apply (cfg : Config M Res) (e : Event M Call) : M.le cfg.state (cfg.apply body e).state := by
  cases e with
  | spawn c => exact M.le_refl _
  | drift d => exact M.drift_le d _
  | step i c =>
    cases hi : cfg.pool[i]? with
    | none =>
      simp only [Config.apply, hi]
      exact M.le_refl _
    | some t =>
      obtain ⟨call, prog⟩ := t
      simp only [Config.apply, hi]
      cases prog with
      | ret a => exact M.le_refl _
      | op o next => exact M.exec_le c _ o

/-- The state only moves along `le`. -/
theorem Config.le_run (cfg : Config M Res) (events : List (Event M Call)) :
    M.le cfg.state (cfg.run body events).state := by
  induction events generalizing cfg with
  | nil => exact M.le_refl _
  | cons e es ih => exact M.le_trans (cfg.le_apply e) (ih _)

/-- What a run is allowed to do; each part sees the state before the step. -/
structure Policy (M : Machine) (Call : Type) where
  spawn : M.State → Call → Prop
  step : M.State → M.Choice → M.Op → Prop
  drift : M.State → M.Drift → Prop

def Policy.any (M : Machine) (Call : Type) : Policy M Call where
  spawn _ _ := True
  step _ _ _ := True
  drift _ _ := True

def Policy.Meets (P : Policy M Call) (cfg : Config M Res) : Event M Call → Prop
  | .spawn c => P.spawn cfg.state c
  | .step i c => ∀ t ∈ cfg.pool[i]?, ∀ o ∈ t.prog.pending, P.step cfg.state c o
  | .drift d => P.drift cfg.state d

/-- The configurations that runs of events meeting `P` reach from `cfg`. -/
inductive Reach (body : (c : Call) → Prog M (Res c)) (P : Policy M Call) (cfg : Config M Res) :
    Config M Res → Prop where
  | refl : Reach body P cfg cfg
  | step {cfg' : Config M Res} (e : Event M Call) :
      Reach body P cfg cfg' → P.Meets cfg' e → Reach body P cfg (cfg'.apply body e)

variable {P : Policy M Call}

theorem Reach.trans {a b c : Config M Res} (h₁ : Reach body P a b) (h₂ : Reach body P b c) : Reach body P a c := by
  induction h₂ with
  | refl => exact h₁
  | step e _ hm ih => exact .step e ih hm

def Policy.MeetsAll (body : (c : Call) → Prog M (Res c)) (P : Policy M Call) :
    Config M Res → List (Event M Call) → Prop
  | _, [] => True
  | cfg, e :: es => P.Meets cfg e ∧ P.MeetsAll body (cfg.apply body e) es

variable {cfg : Config M Res} {events : List (Event M Call)}

theorem Policy.MeetsAll.of_forall (h : ∀ e ∈ events, ∀ cfg : Config M Res, P.Meets cfg e) :
    P.MeetsAll body cfg events := by
  induction events generalizing cfg with
  | nil => trivial
  | cons e es ih => exact ⟨h e (.head _) cfg, ih fun e' he' => h e' (.tail _ he')⟩

def Config.stepPasses (test : M.State → M.Choice → M.Op → Bool) (cfg : Config M Res) : Event M Call → Bool
  | .step i c => cfg.pool[i]?.all fun t => t.prog.pending.all (test cfg.state c)
  | _ => true

def Config.stepsPass (body : (c : Call) → Prog M (Res c)) (test : M.State → M.Choice → M.Op → Bool) :
    Config M Res → List (Event M Call) → Bool
  | _, [] => true
  | cfg, e :: es => cfg.stepPasses test e && (cfg.apply body e).stepsPass body test es

theorem Policy.MeetsAll.of_stepsPass (test : M.State → M.Choice → M.Op → Bool)
    (htest : ∀ s c o, test s c o = true → P.step s c o)
    (hother : ∀ e ∈ events, (∀ i c, e ≠ .step i c) → ∀ cfg : Config M Res, P.Meets cfg e)
    (h : cfg.stepsPass body test events = true) : P.MeetsAll body cfg events := by
  induction events generalizing cfg with
  | nil => trivial
  | cons e es ih =>
    simp only [Config.stepsPass, Bool.and_eq_true] at h
    refine ⟨?_, ih (fun e' he' => hother e' (.tail _ he')) h.2⟩
    cases e with
    | step i c =>
      intro t ht o ho
      have hpass := h.1
      rw [Config.stepPasses, show cfg.pool[i]? = some t from ht, Option.all_some, show t.prog.pending =
        some o from ho] at hpass
      exact htest _ _ _ hpass
    | spawn c => exact hother _ (.head _) (fun _ _ h => by cases h) cfg
    | drift d => exact hother _ (.head _) (fun _ _ h => by cases h) cfg

theorem Reach.of_run (h : P.MeetsAll body cfg events) : Reach body P cfg (cfg.run body events) := by
  induction events generalizing cfg with
  | nil => exact .refl
  | cons e es ih => exact (Reach.step e .refl h.1).trans (ih h.2)

theorem Policy.any_meets (cfg : Config M Res) (e : Event M Call) : (Policy.any M Call).Meets cfg e := by
  cases e <;> simp [Policy.Meets, Policy.any]

theorem Reach.run_any (cfg : Config M Res) (events : List (Event M Call)) :
    Reach body (Policy.any M Call) cfg (cfg.run body events) := by
  induction events generalizing cfg with
  | nil => exact .refl
  | cons e es ih => exact (Reach.step e .refl (Policy.any_meets cfg e)).trans (ih _)

end Conc
