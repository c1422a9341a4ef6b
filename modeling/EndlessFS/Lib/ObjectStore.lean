import Mathlib.Data.List.Pairwise
import EndlessFS.Lib.Safety

/-!
# EndlessFS.Lib.ObjectStore

A versioned object store as a shared machine. Objects are written conditionally: only if the key
holds nothing, or only if it still holds a given version. A request or a response may be lost;
in the second case the write has happened.

Each key remembers, besides its current object, every object ever written to it (`writes`, newest
first), and the store remembers every read (`log`). Nothing the programs do depends on these lists:
they are the history that statements are about.

* `Store.WF`: versions are handed out once, and the current object is the last one written.
* `current_of_admitted`, `WF.current_of_seen`: a conditional write that succeeds against a version finds
  exactly the object that was once seen under that version.
-/

namespace Conc

open Function List

/-- One write to a key, by the place `site` of a program. -/
structure Write (Site V : Type) where
  site : Site
  version : Nat
  value : V
  time : Nat
  deriving DecidableEq

structure Cell (Site V : Type) where
  current : Option (Nat × V) := none
  writes : List (Write Site V) := []

inductive PutCondition where
  | createOnly
  | match (version : Nat)
  deriving DecidableEq, Repr

inductive GetReply (V : Type) where
  | found (version : Nat) (value : V)
  | missing
  | failed

inductive PutReply where
  | stored (version : Nat)
  | conflict
  | preconditionFailed
  | notFound
  | failed
  deriving DecidableEq, Repr

inductive DeleteReply where
  | deleted
  | preconditionFailed
  | notFound
  | failed
  deriving DecidableEq, Repr

/-- What the transport does to one request. -/
inductive Fault where
  | none
  | dropRequest
  | dropResponse
  deriving DecidableEq, Repr

def Cell.refuses {Site V : Type} (c : Cell Site V) : PutCondition → Option PutReply
  | .createOnly => if c.current.isSome then some .conflict else none
  | .match version =>
    match c.current with
    | none => some .notFound
    | some (current, _) => if current = version then none else some .preconditionFailed

/-- The version a cell holds, `0` for none. -/
def Cell.version {Site V : Type} (c : Cell Site V) : Nat := (c.current.map (·.1)).getD 0

/-- The state of the store. `keys` lists the keys that were ever written, `log` the reads with the
version they found. -/
structure Store (Site K : Type) (Val : K → Type) where
  cells : (k : K) → Cell Site (Val k)
  keys : List K
  log : List (Site × Nat)
  counter : Nat
  clock : Nat

/-- Operations; `site` names the place in the program that performs it. -/
inductive StoreOp (Site K : Type) (Val : K → Type) where
  | get (site : Site) (k : K)
  | put (site : Site) (k : K) (value : Val k) (condition : PutCondition)
  | delete (site : Site) (k : K) (version : Nat)
  | list (site : Site) (select : K → Bool)
  | now (site : Site)

@[reducible] def StoreOp.Reply {Site K : Type} {Val : K → Type} : StoreOp Site K Val → Type
  | .get _ k => GetReply (Val k)
  | .put _ _ _ _ => PutReply
  | .delete _ _ _ => DeleteReply
  | .list _ _ => Option (List K)
  | .now _ => Nat

namespace Store

variable {Site K : Type} {Val : K → Type}

def empty : Store Site K Val := { cells := fun _ => {}, keys := [], log := [], counter := 0, clock := 0 }

variable [DecidableEq K]

/-- The store with `value` written under `k`. -/
def write (s : Store Site K Val) (site : Site) (k : K) (value : Val k) : Store Site K Val where
  cells := Function.update s.cells k
    { current := some (s.counter + 1, value)
      writes := { site, version := s.counter + 1, value, time := s.clock } :: (s.cells k).writes }
  keys := if k ∈ s.keys then s.keys else k :: s.keys
  log := s.log
  counter := s.counter + 1
  clock := s.clock

/-- The store with nothing under `k`. -/
def erase (s : Store Site K Val) (k : K) : Store Site K Val :=
  { s with cells := Function.update s.cells k { s.cells k with current := none } }

def note (s : Store Site K Val) (read : Site × Nat) : Store Site K Val := { s with log := read :: s.log }

def get (s : Store Site K Val) (k : K) : GetReply (Val k) :=
  match (s.cells k).current with
  | none => .missing
  | some (version, value) => .found version value

def put (s : Store Site K Val) (site : Site) (k : K) (value : Val k) (condition : PutCondition) :
    Store Site K Val × PutReply :=
  match (s.cells k).refuses condition with
  | some reply => (s, reply)
  | none => (s.write site k value, .stored (s.counter + 1))

def delete (s : Store Site K Val) (k : K) (version : Nat) : Store Site K Val × DeleteReply :=
  match (s.cells k).current with
  | none => (s, .notFound)
  | some (current, _) => if current = version then (s.erase k, .deleted) else (s, .preconditionFailed)

def exec (f : Fault) (s : Store Site K Val) : (o : StoreOp Site K Val) → Store Site K Val × o.Reply
  | .get site k => (s.note (site, (s.cells k).version), if f = .none then s.get k else .failed)
  | .put site k value condition =>
    match f with
    | .none => s.put site k value condition
    | .dropRequest => (s, .failed)
    | .dropResponse => ((s.put site k value condition).1, .failed)
  | .delete _ k version =>
    match f with
    | .none => s.delete k version
    | .dropRequest => (s, .failed)
    | .dropResponse => ((s.delete k version).1, .failed)
  | .list _ select =>
    (s, if f = .none then some (s.keys.filter fun k => select k && (s.cells k).current.isSome) else none)
  | .now _ => (s, s.clock)

omit [DecidableEq K] in
@[simp] theorem empty_cells (k : K) : (empty : Store Site K Val).cells k = {} := rfl

section

variable (s : Store Site K Val)

@[simp] theorem write_cells_self (site : Site) (k : K) (value : Val k) : (s.write site k value).cells k =
      { current := some (s.counter + 1, value)
        writes := { site, version := s.counter + 1, value, time := s.clock } :: (s.cells k).writes } :=
  update_self ..

theorem write_cells_of_ne {site : Site} {k k' : K} (value : Val k) (h : k' ≠ k) :
    (s.write site k value).cells k' = s.cells k' :=
  update_of_ne h ..

theorem erase_cells_of_ne {k k' : K} (h : k' ≠ k) : (s.erase k).cells k' = s.cells k' :=
  update_of_ne h ..

@[simp] theorem erase_writes (k k' : K) : ((s.erase k).cells k').writes = (s.cells k').writes := by
  by_cases h : k' = k
  · subst h
    simp [erase]
  · rw [erase_cells_of_ne s h]

end

theorem mem_writes_write {s : Store Site K Val} {site : Site} {k k' : K} {value : Val k} {w : Write Site (Val k')}
    (h : w ∈ ((s.write site k value).cells k').writes) : w ∈ (s.cells k').writes ∨ k' = k ∧ w.site = site := by
  by_cases hk : k' = k
  · subst hk
    rw [write_cells_self] at h
    rcases mem_cons.mp h with rfl | h
    · exact .inr ⟨rfl, rfl⟩
    · exact .inl h
  · rw [write_cells_of_ne s value hk] at h
    exact .inl h

/-! ## Evolution -/

/-- Histories grow, and neither the clock nor the version counter goes back. -/
structure Le (s t : Store Site K Val) : Prop where
  writes : ∀ k, (s.cells k).writes <:+ (t.cells k).writes
  log : s.log <:+ t.log
  clock : s.clock ≤ t.clock
  counter : s.counter ≤ t.counter

omit [DecidableEq K] in
theorem Le.refl (s : Store Site K Val) : Le s s := ⟨fun _ => suffix_rfl, suffix_rfl, Nat.le_refl _, Nat.le_refl _⟩

omit [DecidableEq K] in
theorem Le.trans {s t u : Store Site K Val} (h₁ : Le s t) (h₂ : Le t u) : Le s u :=
  ⟨fun k => (h₁.writes k).trans (h₂.writes k), h₁.log.trans h₂.log, Nat.le_trans h₁.clock h₂.clock,
    Nat.le_trans h₁.counter h₂.counter⟩

theorem le_write (s : Store Site K Val) (site : Site) (k : K) (value : Val k) : Le s (s.write site k value) := by
  refine ⟨fun k' => ?_, suffix_rfl, Nat.le_refl _, Nat.le_succ _⟩
  by_cases hk : k' = k
  · subst hk
    simp [write]
  · simp [write, update_of_ne hk]

theorem le_erase (s : Store Site K Val) (k : K) : Le s (s.erase k) := by
  refine ⟨fun k' => ?_, suffix_rfl, Nat.le_refl _, Nat.le_refl _⟩
  by_cases hk : k' = k
  · subst hk
    simp [erase]
  · simp [erase, update_of_ne hk]

omit [DecidableEq K] in
theorem le_note (s : Store Site K Val) (read : Site × Nat) : Le s (s.note read) :=
  ⟨fun _ => suffix_rfl, suffix_cons _ _, Nat.le_refl _, Nat.le_refl _⟩

theorem le_put (s : Store Site K Val) (site : Site) (k : K) (value : Val k) (condition : PutCondition) :
    Le s (s.put site k value condition).1 := by
  unfold put
  split
  · exact Le.refl s
  · exact le_write s site k value

theorem le_delete (s : Store Site K Val) (k : K) (version : Nat) : Le s (s.delete k version).1 := by
  unfold delete
  split
  · exact Le.refl s
  · split
    · exact le_erase s k
    · exact Le.refl s

theorem le_exec (f : Fault) (s : Store Site K Val) (o : StoreOp Site K Val) : Le s (s.exec f o).1 := by
  cases o with
  | get site k => exact le_note s _
  | put site k value condition =>
    cases f
    · exact le_put s site k value condition
    · exact Le.refl s
    · exact le_put s site k value condition
  | delete site k version =>
    cases f
    · exact le_delete s k version
    · exact Le.refl s
    · exact le_delete s k version
  | list site select => exact Le.refl s
  | now site => exact Le.refl s

def advance (d : Nat) (s : Store Site K Val) : Store Site K Val := { s with clock := s.clock + d }

omit [DecidableEq K] in
theorem le_advance (d : Nat) (s : Store Site K Val) : Le s (s.advance d) :=
  ⟨fun _ => suffix_rfl, suffix_rfl, Nat.le_add_right _ _, Nat.le_refl _⟩

end Store

/-! ## Well-formed stores -/

/-- A cell whose versions and times are consistent with the store's counter and clock. -/
structure Cell.WF {Site V : Type} (c : Cell Site V) (counter clock : Nat) : Prop where
  current : ∀ version value, c.current = some (version, value) →
    ∃ w rest, c.writes = w :: rest ∧ w.version = version ∧ w.value = value
  ordered : c.writes.Pairwise fun a b => b.version < a.version ∧ b.time ≤ a.time
  bounded : ∀ w ∈ c.writes, w.version ≤ counter ∧ w.time ≤ clock

namespace Store

variable {Site K : Type} {Val : K → Type} {s t : Store Site K Val}

def WF (s : Store Site K Val) : Prop := ∀ k, (s.cells k).WF s.counter s.clock

/-- `value` was written under `k` with this version at some time. -/
def Seen (s : Store Site K Val) (k : K) (version : Nat) (value : Val k) : Prop :=
  ∃ w ∈ (s.cells k).writes, w.version = version ∧ w.value = value

variable {version : Nat} {k : K} {value : Val k}

theorem Seen.mono (h : s.Seen k version value) (hle : Le s t) : t.Seen k version value := by
  obtain ⟨w, hw, hv⟩ := h
  exact ⟨w, (hle.writes k).subset hw, hv⟩

theorem WF.empty : (Store.empty : Store Site K Val).WF :=
  fun _ => ⟨fun _ _ h => by simp [Store.empty] at h, .nil, fun w hw => by
    simp [Store.empty] at hw⟩

theorem WF.seen_of_current (h : s.WF) (hc : (s.cells k).current = some (version, value)) : s.Seen k version value := by
  obtain ⟨w, rest, hw, hv⟩ := (h k).current _ _ hc
  exact ⟨w, by simp [hw], hv⟩

theorem WF.seen_unique (h : s.WF) {a b : Val k} (ha : s.Seen k version a) (hb : s.Seen k version b) : a = b := by
  obtain ⟨w, hw, hwv, rfl⟩ := ha
  obtain ⟨u, hu, huv, rfl⟩ := hb
  by_contra hne
  have hsymm : Std.Symm fun a b : Write Site (Val k) => a.version ≠ b.version := ⟨fun _ _ h => h.symm⟩
  have hsep : (s.cells k).writes.Pairwise fun a b => a.version ≠ b.version :=
    (h k).ordered.imp fun hab => by omega
  exact hsep.forall hw hu (fun e => hne (by rw [e])) (by rw [hwv, huv])

/-- If the key still holds a version that was seen with `value`, it holds `value`. -/
theorem WF.current_of_seen (h : s.WF) {current : Val k}
    (hs : s.Seen k version value) (hc : (s.cells k).current = some (version, current)) : current = value :=
  h.seen_unique (h.seen_of_current hc) hs

theorem current_of_admitted (h : (s.cells k).refuses (.match version) = none) :
    ∃ value, (s.cells k).current = some (version, value) := by
  unfold Cell.refuses at h
  cases hc : (s.cells k).current with
  | none => simp [hc] at h
  | some p =>
    simp only [hc] at h
    split at h
    · rename_i hp
      exact ⟨p.2, by rw [← hp]⟩
    · cases h

theorem absent_of_admitted (h : (s.cells k).refuses .createOnly = none) : (s.cells k).current = none := by
  unfold Cell.refuses at h
  cases hc : (s.cells k).current with
  | none => rfl
  | some p => simp [hc] at h

theorem WF.advance (h : s.WF) (d : Nat) : (s.advance d).WF := by
  intro k
  refine ⟨(h k).current, (h k).ordered, fun w hw => ?_⟩
  have hb := (h k).bounded w hw
  exact ⟨hb.1, Nat.le_add_right_of_le hb.2⟩

variable [DecidableEq K]

theorem WF.write (h : s.WF) (site : Site) (k : K) (value : Val k) : (s.write site k value).WF := by
  intro k'
  by_cases hk : k' = k
  · subst hk
    refine ⟨fun version v hc => ?_, ?_, fun w hw => ?_⟩
    · simp only [Store.write, update_self, Option.some.injEq, Prod.mk.injEq] at hc
      refine ⟨_, _, by simp only [Store.write, update_self]; rfl, hc⟩
    · simp only [Store.write, update_self, pairwise_cons]
      refine ⟨fun w hw => ?_, (h k').ordered⟩
      have hb := (h k').bounded w hw
      exact ⟨Nat.lt_succ_of_le hb.1, hb.2⟩
    · simp only [Store.write, update_self, mem_cons] at hw
      rcases hw with rfl | hw
      · exact ⟨Nat.le_refl _, Nat.le_refl _⟩
      · have hb := (h k').bounded w hw
        exact ⟨Nat.le_succ_of_le hb.1, hb.2⟩
  · have hcell : (s.write site k value).cells k' = s.cells k' := update_of_ne hk _ _
    rw [hcell]
    refine ⟨(h k').current, (h k').ordered, fun w hw => ?_⟩
    have hb := (h k').bounded w hw
    exact ⟨Nat.le_succ_of_le hb.1, hb.2⟩

theorem WF.erase (h : s.WF) (k : K) : (s.erase k).WF := by
  intro k'
  by_cases hk : k' = k
  · subst hk
    refine ⟨fun version v hc => ?_, ?_, fun w hw => ?_⟩
    · simp [Store.erase] at hc
    · simpa [Store.erase] using (h k').ordered
    · exact (h k').bounded w (by simpa [Store.erase] using hw)
  · have hcell : (s.erase k).cells k' = s.cells k' := update_of_ne hk _ _
    rw [hcell]
    exact ⟨(h k').current, (h k').ordered, (h k').bounded⟩

end Store

abbrev storeMachine (Site K : Type) [DecidableEq K] (Val : K → Type) : Machine where
  State := Store Site K Val
  Op := StoreOp Site K Val
  Reply := StoreOp.Reply
  Choice := Fault
  Drift := Nat
  exec := Store.exec
  drift := Store.advance
  le := Store.Le
  le_refl := Store.Le.refl
  le_trans := Store.Le.trans
  exec_le := Store.le_exec
  drift_le := Store.le_advance

end Conc
