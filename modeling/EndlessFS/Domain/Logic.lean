import EndlessFS.Domain.History

/-!
# EndlessFS.Domain.Logic

The safety logic of `Lib.Safety` for actions on the bucket.

* `Ensures I ok E φ a s`: the action `a`, started in `s`, keeps the invariant `I` whatever the other
  replicas do that keeps it too; a successful result satisfies `φ`, and an error satisfies `E`.
* One rule per way the source composes actions, and one per backend call.
-/

namespace EndlessFS

open Conc (Store Fault StoreOp PutCondition PutReply GetReply Safe)

/-- Successful results satisfy `φ`, errors satisfy `E`. -/
def posts {α : Type} (E : Error → Prop) (φ : Bucket → α → Prop) (s : Bucket) : Except Error α → Prop
  | .ok x => φ s x
  | .error e => E e

abbrev OpPolicy := Bucket → Fault → StoreOp Site ObjectKey Object → Prop

def Ensures {α : Type} (I : Bucket → Prop) (ok : OpPolicy) (E : Error → Prop) (φ : Bucket → α → Prop)
    (a : Action α) (s : Bucket) : Prop :=
  Safe (M := bucketMachine) I ok (posts E φ) a.run s

def PutFailure (e : Error) : Prop := e.isRace = true ∨ e.kind = .unavailable

namespace Ensures

variable {α β : Type} {I : Bucket → Prop} {ok : OpPolicy} {E E' : Error → Prop} {φ : Bucket → α → Prop}
  {ψ : Bucket → β → Prop} {s t : Bucket} {a : Action α}

theorem mono (h : Ensures I ok E φ a s) (hle : Store.Le s t) : Ensures I ok E φ a t :=
  Safe.mono h hle

theorem weaken {φ' : Bucket → α → Prop} (h : Ensures I ok E φ a s)
    (hφ : ∀ s' x, Store.Le s s' → I s' → φ s' x → φ' s' x) : Ensures I ok E φ' a s := by
  refine Safe.weaken h fun s' r hle hI hr => ?_
  cases r with
  | ok x => exact hφ s' x hle hI hr
  | error e => exact hr

theorem weaken_error (h : Ensures I ok E φ a s) (hE : ∀ e, E e → E' e) : Ensures I ok E' φ a s := by
  refine Safe.weaken h fun s' r hle hI hr => ?_
  cases r with
  | ok x => exact hr
  | error e => exact hE e hr

theorem pure {x : α} (h : ∀ s', Store.Le s s' → I s' → φ s' x) : Ensures I ok E φ (Pure.pure x) s :=
  fun s' hle hI => h s' hle hI

variable {e : Error}

theorem throw (h : E e) : Ensures I ok E φ (MonadExcept.throw e) s :=
  fun _ _ _ => h

theorem bind {f : α → Action β} (ha : Ensures I ok E φ a s)
    (hf : ∀ s' x, Store.Le s s' → I s' → φ s' x → Ensures I ok E ψ (f x) s') : Ensures I ok E ψ (a >>= f) s := by
  unfold Ensures
  refine Safe.bind ha fun s' r hle hI hr => ?_
  cases r with
  | ok x => exact hf s' x hle hI hr
  | error e => exact throw hr

variable {x : Except Error α}

theorem except (he : ∀ e, x = .error e → E e)
    (h : ∀ a, x = .ok a → ∀ s', Store.Le s s' → I s' → φ s' a) : Ensures I ok E φ (liftM x : Action α) s := by
  intro s' hle hI
  cases hx : x with
  | ok a => exact h a hx s' hle hI
  | error e => exact he e hx

theorem except_bind {f : α → Action β} (he : ∀ e, x = .error e → E e)
    (h : ∀ a, x = .ok a → Ensures I ok E ψ (f a) s) : Ensures I ok E ψ (liftM x >>= f) s :=
  bind (φ := fun _ a => x = .ok a) (except he fun _ ha _ _ _ => ha) fun _ a hle _ ha => (h a ha).mono hle

variable {f : Unit → Action β}

theorem rejectIf_bind {rejected : Bool} (he : rejected = true → E e)
    (h : rejected = false → Ensures I ok E ψ (f ()) s) : Ensures I ok E ψ (liftM (rejectIf rejected e) >>= f) s := by
  refine except_bind (fun e' he' => ?_) fun _ ha => h (rejectIf_ok ha)
  cases rejected with
  | false => cases he'
  | true => cases he'; exact he rfl

theorem ignoreRace_bind {r : Except Error α} (he : ∀ e, r = .error e → e.isRace = false → E e)
    (h : Ensures I ok E ψ (f ()) s) : Ensures I ok E ψ (liftM (ignoreRace r) >>= f) s := by
  refine except_bind (fun e' he' => ?_) fun _ _ => h
  cases r with
  | ok a => cases he'
  | error e =>
    change rejectIf (!e.isRace) e = .error e' at he'
    cases hrace : e.isRace with
    | true =>
      rw [hrace] at he'
      cases he'
    | false =>
      rw [hrace] at he'
      cases he'
      exact he _ rfl hrace

theorem attempt (h : Ensures I ok E' φ a s) : Ensures I ok E (posts E' φ) (EndlessFS.attempt a) s := by
  unfold Ensures EndlessFS.attempt
  exact Safe.map h

/-! ## Backend calls -/

theorem clockNow : Ensures I ok E (fun t now => s.clock ≤ now ∧ now ≤ t.clock) EndlessFS.clockNow s := by
  intro u hle hI f _
  exact ⟨hI, fun t ht _ => ⟨hle.clock, ht.clock⟩⟩

variable {k : ObjectKey} {site : Site}

/-- `backend.Get` returns the object of some moment between the call and its return, at which the
policy allows the read. -/
theorem getObject (he : E transportError) (hnote : ∀ s read, I s → I (s.note read)) :
    Ensures I ok E (fun t r => ∃ u, Store.Le s u ∧ I u ∧ ok u .none (.get site k) ∧
        r = (u.cells k).current ∧ Store.Le (u.note (site, (u.cells k).version)) t) (EndlessFS.getObject site k) s := by
  refine bind (φ := fun t r => r = .failed ∨ ∃ u, Store.Le s u ∧ I u ∧ ok u .none (.get site k) ∧
    r = u.get k ∧ Store.Le (u.note (site, (u.cells k).version)) t) ?_ ?_
  · intro u hle hI f hok
    refine ⟨hnote u _ hI, fun t ht _ => ?_⟩
    cases f with
    | none => exact .inr ⟨u, hle, hI, hok, rfl, ht⟩
    | dropRequest => exact .inl rfl
    | dropResponse => exact .inl rfl
  · rintro t r - - (rfl | ⟨u, hsu, hI, hok, rfl, hut⟩)
    · exact throw he
    · unfold Store.get
      cases hc : (u.cells k).current with
      | none => exact pure fun v hv _ => ⟨u, hsu, hI, hok, hc.symm, hut.trans hv⟩
      | some p => exact pure fun v hv _ => ⟨u, hsu, hI, hok, hc.symm, hut.trans hv⟩

variable {condition : PutCondition}

theorem refusal_failure {u : Bucket} {reply : PutReply}
    (hheld : ∀ version, condition = .match version → (u.cells k).current ≠ none)
    (hr : (u.cells k).refuses condition = some reply) :
    reply = .conflict ∨ reply = .preconditionFailed := by
  unfold Conc.Cell.refuses at hr
  cases condition with
  | createOnly =>
    dsimp only at hr
    split at hr
    · exact .inl (Option.some.inj hr).symm
    · cases hr
  | «match» version =>
    cases hc : (u.cells k).current with
    | none => exact absurd hc (hheld version rfl)
    | some p =>
      simp only [hc] at hr
      split at hr
      · cases hr
      · exact .inr (Option.some.inj hr).symm

variable {value : Object k}

/-- `backend.Put`: the invariant has to survive the write in every state in which the condition
admits it, and a success reply says that the write happened. A key written under a version holds
something. A race is reported only where the policy allows a put that is refused. -/
theorem putObject_refused (hheld : ∀ u, Store.Le s u → I u → ∀ version, condition = .match version →
      (u.cells k).current ≠ none)
    (h : ∀ u f, Store.Le s u → I u → ok u f (.put site k value condition) →
      (u.cells k).refuses condition = none → I (u.write site k value)) :
    Ensures I ok (fun e => PutFailure e ∧ (e.isRace = true → ∃ u f, ok u f (.put site k value condition) ∧
        (u.cells k).refuses condition ≠ none)) (fun t version => ∃ u, Store.Le s u ∧ I u ∧
        (u.cells k).refuses condition = none ∧ version = u.counter + 1 ∧
        Store.Le (u.write site k value) t)
      (EndlessFS.putObject site k value condition) s := by
  refine bind (φ := fun t r => r = .failed ∨ ((r = .conflict ∨ r = .preconditionFailed) ∧ ∃ u f,
      ok u f (.put site k value condition) ∧ (u.cells k).refuses condition ≠ none) ∨ ∃ u, Store.Le s u ∧
    I u ∧ (u.cells k).refuses condition = none ∧ r = .stored (u.counter + 1) ∧
    Store.Le (u.write site k value) t) ?_ ?_
  · intro u hle hI f hok
    -- with or without its response, the write either happens or is refused
    have hput : I (u.put site k value condition).1 ∧ ∀ t, Store.Le (u.put site k value condition).1 t →
        (((u.put site k value condition).2 = .conflict ∨ (u.put site k value condition).2 = .preconditionFailed) ∧
            (u.cells k).refuses condition ≠ none ∨
          ((u.cells k).refuses condition = none ∧ (u.put site k value condition).2 = .stored (u.counter + 1) ∧
            Store.Le (u.write site k value) t)) := by
      unfold Store.put
      cases hr : (u.cells k).refuses condition with
      | some reply =>
        exact ⟨hI, fun t _ => .inl ⟨refusal_failure (hheld u hle hI) hr, by simp⟩⟩
      | none => exact ⟨h u f hle hI hok hr, fun t ht => .inr ⟨rfl, rfl, ht⟩⟩
    cases f with
    | none =>
      refine ⟨hput.1, fun t ht _ => ?_⟩
      rcases hput.2 t ht with ⟨hr, hrefused⟩ | ⟨hadmitted, hr, hw⟩
      · exact .inr (.inl ⟨hr, u, _, hok, hrefused⟩)
      · exact .inr (.inr ⟨u, hle, hI, hadmitted, hr, hw⟩)
    | dropRequest => exact ⟨hI, fun t _ _ => .inl rfl⟩
    | dropResponse => exact ⟨hput.1, fun t _ _ => .inl rfl⟩
  · rintro t r - - (rfl | ⟨rfl | rfl, hrefused⟩ | ⟨u, hsu, hI, hadmitted, rfl, hut⟩)
    · exact except (fun e he => by cases he; exact ⟨.inr rfl, fun h => nomatch h⟩) fun _ hv => by cases hv
    · exact except (fun e he => by cases he; exact ⟨.inl rfl, fun _ => hrefused⟩) fun _ hv => by cases hv
    · exact except (fun e he => by cases he; exact ⟨.inl rfl, fun _ => hrefused⟩) fun _ hv => by cases hv
    · refine except (fun e he => by cases he) fun version hv v hle _ => ?_
      cases hv
      exact ⟨u, hsu, hI, hadmitted, rfl, hut.trans hle⟩

theorem putObject (hheld : ∀ u, Store.Le s u → I u → ∀ version, condition = .match version → (u.cells k).current ≠ none)
    (h : ∀ u f, Store.Le s u → I u → ok u f (.put site k value condition) →
      (u.cells k).refuses condition = none → I (u.write site k value)) :
    Ensures I ok PutFailure (fun t version => ∃ u, Store.Le s u ∧ I u ∧ (u.cells k).refuses condition = none ∧
        version = u.counter + 1 ∧ Store.Le (u.write site k value) t) (EndlessFS.putObject site k value condition) s :=
  (putObject_refused hheld h).weaken_error fun _ he => he.1

/-- A create-only write whose result is inspected: it is lost, or afterwards the key has been written. -/
theorem createObject (hwf : ∀ {s}, I s → s.WF) (h : ∀ u f, Store.Le s u → I u → ok u f (.put site k value .createOnly) →
      (u.cells k).current = none → I (u.write site k value)) :
    Ensures I ok E (fun t r => (∃ e, r = .error e ∧ e.kind = .unavailable) ∨
        (t.cells k).writes ≠ [] ∧ ∀ e, r = .error e → e.isRace = true)
      (EndlessFS.attempt (EndlessFS.putObject site k value .createOnly)) s := by
  have hwritten : ∀ {u : Bucket}, I u → ∀ t, Store.Le (u.put site k value .createOnly).1 t →
      (t.cells k).writes ≠ [] := by
    intro u hI t ht hnil
    have hle := ht.writes k
    rw [hnil, List.suffix_nil] at hle
    unfold Store.put at hle
    cases hr : (u.cells k).refuses .createOnly with
    | some reply =>
      rw [hr] at hle
      cases hc : (u.cells k).current with
      | none => simp [Conc.Cell.refuses, hc] at hr
      | some p =>
        obtain ⟨w, rest, hw, -⟩ := (hwf hI k).current p.1 p.2 hc
        rw [hw] at hle
        cases hle
    | none =>
      rw [hr] at hle
      simp [Store.write] at hle
  have hput : ∀ {u : Bucket} {f : Fault}, Store.Le s u → I u → ok u f (.put site k value .createOnly) →
      I (u.put site k value .createOnly).1 ∧ ∀ e, putError (u.put site k value .createOnly).2 = .error e →
        e.isRace = true := by
    intro u f hle hI hok
    unfold Store.put
    cases hr : (u.cells k).refuses .createOnly with
    | some reply =>
      refine ⟨hI, fun e he => ?_⟩
      rcases refusal_failure (fun version hv => by cases hv) hr with rfl | rfl
      · cases he; rfl
      · cases he; rfl
    | none => exact ⟨h u f hle hI hok (Store.absent_of_admitted hr), fun e he => by cases he⟩
  intro u hle hI f hok
  cases f with
  | none =>
    obtain ⟨hI', hrace⟩ := hput hle hI hok
    exact ⟨hI', fun t ht _ => .inr ⟨hwritten hI t ht, hrace⟩⟩
  | dropRequest => exact ⟨hI, fun t _ _ => .inl ⟨_, rfl, rfl⟩⟩
  | dropResponse => exact ⟨(hput hle hI hok).1, fun t _ _ => .inl ⟨_, rfl, rfl⟩⟩

end Ensures

end EndlessFS
