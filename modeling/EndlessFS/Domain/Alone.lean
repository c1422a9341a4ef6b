import EndlessFS.Domain.Linear
import EndlessFS.Lib.Alone

/-!
# EndlessFS.Domain.Alone

The logic of `Lib.Alone` for actions on the bucket: one replica that works alone on a backend that loses
nothing.

* `Ends I ok Q a s`: the action `a` ends with `Q`, whether it succeeds or fails.
* `Works I ok φ a s`: it succeeds with `φ`.
-/

namespace EndlessFS

open Conc (Store Fault StoreOp PutCondition)

def Ends {α : Type} (I : Bucket → Prop) (ok : OpPolicy) (Q : Bucket → Except Error α → Prop) (a : Action α)
    (s : Bucket) : Prop :=
  Conc.Alone (M := bucketMachine) I ok .none Q a.run s

def Works {α : Type} (I : Bucket → Prop) (ok : OpPolicy) (φ : Bucket → α → Prop) (a : Action α)
    (s : Bucket) : Prop :=
  Ends I ok (posts (fun _ => False) φ) a s

variable {α β : Type} {I : Bucket → Prop} {ok : OpPolicy} {Q : Bucket → Except Error β → Prop}
  {φ φ' : Bucket → α → Prop} {s : Bucket}

theorem Works.pure {x : α} (h : φ s x) : Works I ok φ (Pure.pure x) s := h

variable {a : Action α}

theorem Works.weaken (hI : I s) (h : Works I ok φ a s) (hφ : ∀ t x, Store.Le s t → I t → φ t x → φ' t x) :
    Works I ok φ' a s := by
  refine Conc.Alone.weaken hI h fun t r hle hIt hr => ?_
  cases r with
  | ok x => exact hφ t x hle hIt hr
  | error e => exact hr

variable {f : α → Action β}

theorem Ends.bind (hI : I s) (ha : Works I ok φ a s)
    (hf : ∀ t x, Store.Le s t → I t → φ t x → Ends I ok Q (f x) t) : Ends I ok Q (a >>= f) s := by
  unfold Ends
  refine Conc.Alone.bind hI ha fun t r hle hIt hr => ?_
  cases r with
  | ok x => exact hf t x hle hIt hr
  | error e => exact hr.elim

variable {ψ : Bucket → β → Prop}

theorem Works.bind (hI : I s) (ha : Works I ok φ a s)
    (hf : ∀ t x, Store.Le s t → I t → φ t x → Works I ok ψ (f x) t) : Works I ok ψ (a >>= f) s :=
  Ends.bind hI ha hf

variable {x : Except Error α} {y : α}

theorem Works.except (hx : x = .ok y) (h : φ s y) : Works I ok φ (liftM x : Action α) s := by
  subst hx
  exact h

theorem Ends.except_bind (hx : x = .ok y) (h : Ends I ok Q (f y) s) : Ends I ok Q (liftM x >>= f) s := by
  subst hx
  exact h

theorem Works.except_bind (hx : x = .ok y) (h : Works I ok ψ (f y) s) : Works I ok ψ (liftM x >>= f) s :=
  Ends.except_bind hx h

theorem Works.attempt {a : Action β} (h : Ends I ok Q a s) : Works I ok Q (EndlessFS.attempt a) s := by
  unfold Works Ends EndlessFS.attempt
  exact Conc.Alone.map h

theorem Works.attempt_ok (hI : I s) (h : Works I ok φ a s) :
    Works I ok (fun t r => ∃ x, r = .ok x ∧ φ t x) (EndlessFS.attempt a) s := by
  refine (Works.attempt h).weaken hI fun t r _ _ hr => ?_
  cases r with
  | ok x => exact ⟨x, rfl, hr⟩
  | error e => exact hr.elim

/-! ## Backend calls -/

theorem Works.clockNow : Works I ok (fun t now => t.cells = s.cells ∧ now = t.clock) EndlessFS.clockNow s :=
  fun _ _ _ _ => ⟨rfl, rfl⟩

variable {site : Site} {k : ObjectKey}

theorem Works.getObject (hI : I s) : Works I ok (fun t r => t.cells = s.cells ∧ r = (s.cells k).current ∧
      ∃ u : Bucket, u.cells = s.cells ∧ ok u .none (.get site k)) (EndlessFS.getObject site k) s := by
  refine Works.bind (φ := fun t r => t.cells = s.cells ∧ r = s.get k ∧
    ∃ u : Bucket, u.cells = s.cells ∧ ok u .none (.get site k)) hI ?_ ?_
  · exact fun d _ hok _ => ⟨rfl, rfl, s.advance d, rfl, hok⟩
  · rintro t r - - ⟨hcells, rfl, hok⟩
    unfold Store.get
    cases hc : (s.cells k).current with
    | none => exact Works.pure ⟨hcells, rfl, hok⟩
    | some p => exact Works.pure ⟨hcells, rfl, hok⟩

theorem Works.putObject (hI : I s) {value : Object k} {condition : PutCondition}
    (h : (s.cells k).refuses condition = none) :
    Works I ok (fun t version => ∃ u : Bucket, u.cells = s.cells ∧ t = u.write site k value ∧
      version = u.counter + 1) (EndlessFS.putObject site k value condition) s := by
  refine Works.bind (φ := fun t r => ∃ u : Bucket, u.cells = s.cells ∧ t = u.write site k value ∧
    r = .stored (u.counter + 1)) hI ?_ ?_
  · intro d _ _ _
    refine ⟨s.advance d, rfl, ?_⟩
    change ((s.advance d).put site k value condition).1 = _ ∧ ((s.advance d).put site k value condition).2 = _
    unfold Store.put
    rw [show ((s.advance d).cells k).refuses condition = none from h]
    exact ⟨rfl, rfl⟩
  · rintro t r - - ⟨u, hu, ht, rfl⟩
    exact Works.except rfl ⟨u, hu, ht, rfl⟩

end EndlessFS
