import EndlessFS.Lib.Fallible
import EndlessFS.Lib.Versioned

/-!
# EndlessFS.Lib.Ledger

Programs over a transactional record store. Reads, listings and transactions are single operations of a
shared machine; requests and responses may be lost, and transactions of other services happen on their own.

* `Ledger`: the records, the clocks and, as ghost state, the log of the committed transactions.
* `History Spec`: every transaction of the log met `Spec` on the records it was committed on.
* `History.persists`, `History.written_of_cell`: what transactions that meet `Spec` keep, along the whole log.
* `Logged`: programs that commit such transactions only, and `reach_history`, the rule for whole runs.
-/

namespace Conc

section

variable {Key : Type} {Value : Key → Type} [DecidableEq Key]

theorem overwrite_filter (version : Nat) (p : Key → Bool) (changes : List (CellChange Key Value))
    (cell : (k : Key) → Option (Nat × Value k)) {k : Key} (hk : p k = true) :
    overwrite version changes cell k = overwrite version (changes.filter fun change => p change.key) cell k := by
  -- the two runs agree on all keys of the group
  have hgroup : ∀ cell' : (k : Key) → Option (Nat × Value k), (∀ k, p k = true → cell k = cell' k) →
      ∀ k, p k = true → overwrite version changes cell k =
        overwrite version (changes.filter fun change => p change.key) cell' k := by
    induction changes generalizing cell with
    | nil => exact fun cell' h => h
    | cons change rest ih =>
      intro cell' h k hk
      by_cases hp : p change.key = true
      · rw [List.filter_cons, if_pos hp]
        refine ih _ _ (fun k' hk' => ?_) k hk
        by_cases hkey : k' = change.key
        · subst hkey
          simp
        · simpa only [Function.update_of_ne hkey] using h k' hk'
      · rw [List.filter_cons, if_neg hp]
        refine ih _ _ (fun k' hk' => ?_) k hk
        have hne : k' ≠ change.key := fun hkey => hp (hkey ▸ hk')
        simpa only [Function.update_of_ne hne] using h k' hk'
  exact hgroup cell (fun _ _ => rfl) k hk

theorem Versioned.commit_filter (s : Versioned Key Value) (p : Key → Bool)
    (changes : List (CellChange Key Value)) {k : Key}
    (hk : p k = true) : (s.commit changes).cell k = (s.commit (changes.filter fun change => p change.key)).cell k :=
  overwrite_filter s.next p changes s.cell hk

def Versioned.empty : Versioned Key Value where
  cell _ := none
  next := 0
  fresh _ _ _ h := nomatch h

end

/-! ## The machine -/

/-- A committed transaction and the records before it; transactions of other services have no label. -/
structure LedgerEntry (Key : Type) (Value : Key → Type) (Label : Type) where
  before : Versioned Key Value
  label : Option Label
  changes : List (CellChange Key Value)

structure Ledger (Key : Type) (Value : Key → Type) (Label : Type) where
  records : Versioned Key Value
  /-- The clock of each replica. -/
  clock : Nat → Nat
  log : List (LedgerEntry Key Value Label)

/-- A record that was read, and when. Programs use the time only to label their transactions. -/
structure Reading (α : Type) where
  version : Nat
  value : α
  time : Nat
  deriving DecidableEq

inductive LedgerOp (Key : Type) (Value : Key → Type) (Label : Type) where
  | get (replica : Nat) (key : Key)
  | find (replica : Nat) (accepts : (k : Key) → Value k → Bool)
  | transact (label : Label) (changes : List (CellChange Key Value))
  | draw
  | now (replica : Nat)

/-- What became of a transaction, as far as its program is told. A commit is reported with the version it wrote
under, unless it is the one of an earlier, equal transaction. -/
inductive Outcome where
  | committed (version : Option Nat)
  | refused
  | lost
  deriving DecidableEq, Repr

/-- The reply of a read is `none` if it was lost. -/
@[reducible] def LedgerOp.Reply {Key : Type} {Value : Key → Type} {Label : Type} : LedgerOp Key Value Label → Type
  | .get _ key => Option (Option (Reading (Value key)))
  | .find _ _ => Option (Option ((key : Key) × Reading (Value key)))
  | .transact _ _ => Outcome
  | .draw => String
  | .now _ => Nat

/-- A request or its response is lost, or the outcome of an earlier, equal transaction is reported. -/
inductive Transport where
  | done
  | dropRequest
  | dropResponse
  | replayed
  deriving DecidableEq, Repr

/-- `drawn` is the random text if one is drawn. -/
structure LedgerChoice where
  transport : Transport := .done
  drawn : String := ""

inductive LedgerDrift (Key : Type) (Value : Key → Type) where
  | tick (replica seconds : Nat)
  | foreign (changes : List (CellChange Key Value))

namespace LedgerEntry

variable {Key : Type} {Value : Key → Type} {Label : Type} [DecidableEq Key]

def after (e : LedgerEntry Key Value Label) : Versioned Key Value := e.before.commit e.changes

def Touches (e : LedgerEntry Key Value Label) (k : Key) : Prop := ∃ change ∈ e.changes, change.key = k

omit [DecidableEq Key] in
theorem touches_of_writes {e : LedgerEntry Key Value Label} {k : Key} {x : Value k}
    (h : ∃ change ∈ e.changes, change.Writes k x) :
    e.Touches k := by
  obtain ⟨change, hmem, require, rfl⟩ := h
  exact ⟨_, hmem, rfl⟩

end LedgerEntry

namespace Ledger

variable {Key : Type} {Value : Key → Type} {Label : Type} [DecidableEq Key]

def commit (s : Ledger Key Value Label) (label : Option Label) (changes : List (CellChange Key Value)) :
    Ledger Key Value Label :=
  { s with records := s.records.commit changes, log := { before := s.records, label, changes } :: s.log }

def read (s : Ledger Key Value Label) (replica : Nat) (k : Key) : Option (Reading (Value k)) :=
  (s.records.cell k).map fun x => { version := x.1, value := x.2, time := s.clock replica }

def written (s : Ledger Key Value Label) : List Key := s.log.flatMap fun e => e.changes.map CellChange.key

def search (s : Ledger Key Value Label) (replica : Nat) (accepts : (k : Key) → Value k → Bool) :
    Option ((k : Key) × Reading (Value k)) :=
  s.written.findSome? fun k => (s.read replica k).bind fun r => if accepts k r.value then some ⟨k, r⟩ else none

def transact (transport : Transport) (s : Ledger Key Value Label) (label : Label)
    (changes : List (CellChange Key Value)) : Ledger Key Value Label × Outcome :=
  match transport, s.records.admits changes with
  | .dropRequest, _ => (s, .lost)
  | .replayed, _ => (s, .committed none)
  | _, false => (s, .refused)
  | .dropResponse, true => (s.commit (some label) changes, .lost)
  | .done, true => (s.commit (some label) changes, .committed (some s.records.next))

def exec (c : LedgerChoice) (s : Ledger Key Value Label) :
    (o : LedgerOp Key Value Label) → Ledger Key Value Label × o.Reply
  | .get replica key => (s, if c.transport = .done then some (s.read replica key) else none)
  | .find replica accepts => (s, if c.transport = .done then some (s.search replica accepts) else none)
  | .transact label changes => s.transact c.transport label changes
  | .draw => (s, c.drawn)
  | .now replica => (s, s.clock replica)

def drift (foreign : List (CellChange Key Value) → Bool) (s : Ledger Key Value Label) :
    LedgerDrift Key Value → Ledger Key Value Label
  | .tick replica seconds => { s with clock := Function.update s.clock replica (s.clock replica + seconds) }
  | .foreign changes => if foreign changes && s.records.admits changes then s.commit none changes else s

end Ledger

namespace Ledger

variable {Key : Type} {Value : Key → Type} {Label : Type}

/-- What later states keep. -/
structure Le (s t : Ledger Key Value Label) : Prop where
  records : s.records.Le t.records
  clock : ∀ replica, s.clock replica ≤ t.clock replica
  log : s.log <:+ t.log

theorem Le.refl (s : Ledger Key Value Label) : Le s s := ⟨.refl _, fun _ => Nat.le_refl _, List.suffix_refl _⟩

theorem Le.trans {s t u : Ledger Key Value Label} (h : Le s t) (h' : Le t u) : Le s u :=
  ⟨h.records.trans h'.records, fun replica => Nat.le_trans (h.clock replica) (h'.clock replica), h.log.trans h'.log⟩

variable [DecidableEq Key]

theorem le_commit (s : Ledger Key Value Label) (label : Option Label) (changes : List (CellChange Key Value)) :
    Le s (s.commit label changes) :=
  ⟨s.records.le_commit changes, fun _ => Nat.le_refl _, List.suffix_cons _ _⟩

theorem exec_le (c : LedgerChoice) (s : Ledger Key Value Label) (o : LedgerOp Key Value Label) :
    Le s (exec c s o).1 := by
  cases o with
  | transact label changes =>
    change Le s (s.transact c.transport label changes).1
    unfold transact
    split
    · exact .refl s
    · exact .refl s
    · exact .refl s
    · exact le_commit s _ _
    · exact le_commit s _ _
  | get _ _ => exact .refl s
  | find _ _ => exact .refl s
  | draw => exact .refl s
  | now _ => exact .refl s

theorem drift_le (foreign : List (CellChange Key Value) → Bool) (d : LedgerDrift Key Value)
    (s : Ledger Key Value Label) :
    Le s (drift foreign s d) := by
  cases d with
  | tick replica seconds =>
    refine ⟨.refl _, fun other => ?_, List.suffix_refl _⟩
    by_cases hsame : other = replica
    · subst hsame
      simp [drift]
    · simp [drift, hsame]
  | foreign changes =>
    simp only [drift]
    split
    · exact le_commit s _ _
    · exact .refl s

end Ledger

variable {Key : Type} {Value : Key → Type} {Label : Type} [DecidableEq Key]

/-- The machine; `foreign` are the transactions that other services may commit. -/
def ledgerMachine (Key : Type) (Value : Key → Type) (Label : Type) [DecidableEq Key]
    (foreign : List (CellChange Key Value) → Bool) : Machine where
  State := Ledger Key Value Label
  Op := LedgerOp Key Value Label
  Reply := LedgerOp.Reply
  Choice := LedgerChoice
  Drift := LedgerDrift Key Value
  exec := Ledger.exec
  drift d s := Ledger.drift foreign s d
  le := Ledger.Le
  le_refl := Ledger.Le.refl
  le_trans := Ledger.Le.trans
  exec_le := Ledger.exec_le
  drift_le := Ledger.drift_le foreign

/-! ## What the log says -/

/-- Every transaction met `Spec` on the records it was committed on, beginning with none. -/
inductive History (Spec : Versioned Key Value → Option Label → List (CellChange Key Value) → Prop) :
    List (LedgerEntry Key Value Label) → Versioned Key Value → Prop where
  | nil : History Spec [] .empty
  | cons {log : List (LedgerEntry Key Value Label)} {before : Versioned Key Value} {label : Option Label}
      {changes : List (CellChange Key Value)} :
      History Spec log before → Spec before label changes →
      History Spec ({ before, label, changes } :: log) (before.commit changes)

namespace History

variable {Spec : Versioned Key Value → Option Label → List (CellChange Key Value) → Prop}
  {log : List (LedgerEntry Key Value Label)} {records : Versioned Key Value} {P : Versioned Key Value → Prop}

theorem invariant (h : History Spec log records) (hempty : P .empty)
    (hstep : ∀ before label changes, Spec before label changes → P before → P (before.commit changes)) : P records := by
  induction h with
  | nil => exact hempty
  | cons _ hspec ih => exact hstep _ _ _ hspec ih

variable {e : LedgerEntry Key Value Label}

theorem at_entry {later earlier : List (LedgerEntry Key Value Label)}
    (h : History Spec (later ++ e :: earlier) records) : History Spec earlier e.before ∧
      Spec e.before e.label e.changes := by
  induction later generalizing records with
  | nil => cases h with | cons h hspec => exact ⟨h, hspec⟩
  | cons _ later ih => cases h with | cons h _ => exact ih h

section

variable (h : History Spec log records)

include h

theorem of_mem (he : e ∈ log) : ∃ earlier, History Spec earlier e.before ∧ Spec e.before e.label e.changes := by
  obtain ⟨later, earlier, rfl⟩ := List.append_of_mem he
  exact ⟨earlier, h.at_entry⟩

theorem persists (hstep : ∀ before label changes, Spec before label changes → P before → P (before.commit changes))
    (he : e ∈ log) (hP : P e.after) : P records := by
  induction h with
  | nil => cases he
  | cons _ hspec ih =>
    rcases List.mem_cons.mp he with rfl | he
    · exact hP
    · exact hstep _ _ _ hspec (ih he)

theorem written_of_cell {k : Key} {x : Nat × Value k} (hcell : records.cell k = some x) :
    ∃ e ∈ log, ∃ change ∈ e.changes, change.Writes k x.2 := by
  induction h generalizing x with
  | nil => cases hcell
  | @cons log before label changes _ _ ih =>
    rcases overwrite_some (v := x.1) (x := x.2) hcell with ⟨hkept, _⟩ | ⟨_, change, hmem, hwrites⟩
    · obtain ⟨e, he, hwritten⟩ := ih hkept
      exact ⟨e, .tail _ he, hwritten⟩
    · exact ⟨_, .head _, change, hmem, hwrites⟩

theorem touched_of_cell {k : Key} {x : Nat × Value k} (hcell : records.cell k = some x) : ∃ e ∈ log, e.Touches k := by
  obtain ⟨e, he, hwritten⟩ := h.written_of_cell hcell
  exact ⟨e, he, LedgerEntry.touches_of_writes hwritten⟩

end

end History

variable {s : Ledger Key Value Label}

theorem History.drift {Spec : Versioned Key Value → Option Label → List (CellChange Key Value) → Prop}
    {foreign : List (CellChange Key Value) → Bool} (h : History Spec s.log s.records)
    (hforeign : ∀ (records : Versioned Key Value) changes, foreign changes = true → records.admits changes = true →
      Spec records none changes) (d : LedgerDrift Key Value) :
    History Spec (s.drift foreign d).log (s.drift foreign d).records := by
  cases d with
  | tick replica seconds => exact h
  | foreign changes =>
    simp only [Ledger.drift]
    split
    · rename_i hboth
      obtain ⟨hmay, hadmits⟩ := Bool.and_eq_true_iff.mp hboth
      exact .cons h (hforeign _ _ hmay hadmits)
    · exact h

/-! ## Programs -/

section

variable {foreign : List (CellChange Key Value) → Bool} {ε α β : Type}
  {Spec : Versioned Key Value → Option Label → List (CellChange Key Value) → Prop}
  {ok : Ledger Key Value Label → LedgerChoice → LedgerOp Key Value Label → Prop}

/-- The program commits transactions that meet `Spec` only; `φ` holds of its result. -/
abbrev Logged (foreign : List (CellChange Key Value) → Bool)
    (Spec : Versioned Key Value → Option Label → List (CellChange Key Value) → Prop)
    (ok : Ledger Key Value Label → LedgerChoice → LedgerOp Key Value Label → Prop)
    (φ : Ledger Key Value Label → α → Prop) (a : Fallible (ledgerMachine Key Value Label foreign) ε α)
    (s : Ledger Key Value Label) : Prop :=
  Yields (M := ledgerMachine Key Value Label foreign) (fun s => History Spec s.log s.records) ok φ a s

/-- What is known of a record that was read. -/
structure Ledger.Knows (Spec : Versioned Key Value → Option Label → List (CellChange Key Value) → Prop)
    (replica : Nat) (s : Ledger Key Value Label) (k : Key) (r : Reading (Value k)) : Prop where
  seen : s.records.Seen k r.version r.value
  time : r.time ≤ s.clock replica
  written : ∃ e ∈ s.log, ∃ change ∈ e.changes, change.Writes k r.value
  source : ∃ (log : List (LedgerEntry Key Value Label)) (records : Versioned Key Value),
    History Spec log records ∧ log <:+ s.log ∧ records.cell k = some (r.version, r.value)

variable {replica : Nat} {k : Key} {r : Reading (Value k)} {t : Ledger Key Value Label}

theorem Ledger.Knows.mono (h : Knows Spec replica s k r) (hle : Ledger.Le s t) : Knows Spec replica t k r where
  seen := h.seen.mono hle.records
  time := Nat.le_trans h.time (hle.clock replica)
  written := by
    obtain ⟨e, he, hwritten⟩ := h.written
    exact ⟨e, hle.log.subset he, hwritten⟩
  source := by
    obtain ⟨log, records, hhistory, hlog, hcell⟩ := h.source
    exact ⟨log, records, hhistory, hlog.trans hle.log, hcell⟩

theorem Ledger.Knows.touched (h : Knows Spec replica s k r) : ∃ e ∈ s.log, e.Touches k := by
  obtain ⟨e, he, hwritten⟩ := h.written
  exact ⟨e, he, LedgerEntry.touches_of_writes hwritten⟩

variable {changes : List (CellChange Key Value)} {change : CellChange Key Value}

theorem Ledger.Knows.cell (h : Knows Spec replica s k r) (hle : Ledger.Le s t)
    (hadmits : t.records.admits changes = true) (hmem : change ∈ changes)
    (hkey : change.key = k) (hrequire : change.require = some r.version) :
      t.records.cell k = some (r.version, r.value) := by
  subst hkey
  exact h.seen t.records hle.records ((Versioned.version_of_admits hadmits hmem).trans hrequire)

omit [DecidableEq Key] in
theorem Versioned.cell_eq_none {s : Versioned Key Value} (hadmits : s.admits changes = true) (hmem : change ∈ changes)
    (hrequire : change.require = none) : s.cell change.key = none := by
  have hversion := Versioned.version_of_admits hadmits hmem
  rw [hrequire] at hversion
  exact Option.map_eq_none_iff.mp hversion

omit [DecidableEq Key] in
theorem Versioned.cell_ne_none {s : Versioned Key Value} (hadmits : s.admits changes = true) (hmem : change ∈ changes)
    {v : Nat} (hrequire : change.require = some v) : s.cell change.key ≠ none := by
  intro hnone
  have hversion := Versioned.version_of_admits hadmits hmem
  rw [hrequire, Versioned.version, hnone] at hversion
  cases hversion

theorem Ledger.knows_of_read (h : History Spec s.log s.records)
    (hread : s.read replica k = some r) : Knows Spec replica s k r := by
  obtain ⟨x, hcell, rfl⟩ := Option.map_eq_some_iff.mp hread
  exact ⟨.of_cell hcell, Nat.le_refl _, h.written_of_cell hcell, _, _, h, List.suffix_refl _, hcell⟩

namespace Logged

variable {φ : Ledger Key Value Label → α → Prop}

theorem get {key : Key} {read : Option (Option (Reading (Value key))) → Except ε α}
    (h : ∀ t reply x, Ledger.Le s t → (∀ r, reply = some (some r) → Ledger.Knows Spec replica t key r) →
      read reply = .ok x → φ t x) :
    Logged foreign Spec ok φ (ask (M := ledgerMachine Key Value Label foreign) (.get replica key) read) s := by
  refine .ask fun t hle hI c _ => ⟨hI, fun x hx u hu _ => ?_⟩
  refine h u _ x (hle.trans hu) (fun r hr => ?_) hx
  refine Ledger.Knows.mono ?_ hu
  change (if c.transport = .done then some (t.read replica key) else none) = some (some r) at hr
  split at hr
  · exact Ledger.knows_of_read hI (Option.some.inj hr)
  · cases hr

theorem find {accepts : (k : Key) → Value k → Bool}
    {read : Option (Option ((k : Key) × Reading (Value k))) → Except ε α}
    (h : ∀ t reply x, Ledger.Le s t → (∀ k r, reply = some (some ⟨k, r⟩) → Ledger.Knows Spec replica t k r ∧
      accepts k r.value = true) →
      read reply = .ok x → φ t x) :
    Logged foreign Spec ok φ (ask (M := ledgerMachine Key Value Label foreign) (.find replica accepts) read) s := by
  refine .ask fun t hle hI c _ => ⟨hI, fun x hx u hu _ => ?_⟩
  refine h u _ x (hle.trans hu) (fun k r hr => ?_) hx
  change (if c.transport = .done then some (t.search replica accepts) else none) = some (some ⟨k, r⟩) at hr
  split at hr
  · obtain ⟨k', _, hfound⟩ := List.exists_of_findSome?_eq_some (Option.some.inj hr)
    obtain ⟨r', hread, hif⟩ := Option.bind_eq_some_iff.mp hfound
    split at hif
    · cases hif
      rename_i haccepts
      exact ⟨(Ledger.knows_of_read hI hread).mono hu, haccepts⟩
    · cases hif
  · cases hr

theorem draw {read : String → Except ε α} (h : ∀ t text x, Ledger.Le s t → read text = .ok x → φ t x) :
    Logged foreign Spec ok φ (ask (M := ledgerMachine Key Value Label foreign) .draw read) s :=
  .ask fun _ hle hI _ _ => ⟨hI, fun x hx u hu _ => h u _ x (hle.trans hu) hx⟩

theorem now {read : Nat → Except ε α}
    (h : ∀ t time x, Ledger.Le s t → s.clock replica ≤ time → time ≤ t.clock replica → read time = .ok x → φ t x) :
    Logged foreign Spec ok φ (ask (M := ledgerMachine Key Value Label foreign) (.now replica) read) s :=
  .ask fun _ hle hI _ _ => ⟨hI, fun x hx u hu _ => h u _ x (hle.trans hu) (hle.clock replica) (hu.clock replica) hx⟩

/-- A transaction that meets the specification wherever it is admitted. If its version is reported, it was
committed. -/
theorem transact {label : Label} {read : Outcome → Except ε α}
    (h : ∀ t, Ledger.Le s t → History Spec t.log t.records → t.records.admits changes = true →
      Spec t.records (some label) changes) (hφ : ∀ t u outcome x, Ledger.Le s t → Ledger.Le t u →
      (∀ v, outcome = .committed (some v) → v = t.records.next ∧ Ledger.Le (t.commit (some label) changes) u) →
      read outcome = .ok x → φ u x) :
    Logged foreign Spec ok φ (ask (M := ledgerMachine Key Value Label foreign) (.transact label changes) read) s := by
  refine .ask fun t hle hI c _ => ⟨?_, fun x hx u hu _ => ?_⟩
  · change History Spec (t.transact c.transport label changes).1.log (t.transact c.transport label changes).1.records
    unfold Ledger.transact
    split
    · exact hI
    · exact hI
    · exact hI
    · exact .cons hI (h t hle hI (by assumption))
    · exact .cons hI (h t hle hI (by assumption))
  · refine hφ t u _ x hle ((Ledger.exec_le c t (.transact label changes)).trans hu) (fun v hv => ?_) hx
    change (t.transact c.transport label changes).2 = .committed (some v) at hv
    change Ledger.Le (t.transact c.transport label changes).1 u at hu
    unfold Ledger.transact at hv hu
    split at hv
    · cases hv
    · cases hv
    · cases hv
    · cases hv
    · rename_i hdone hadmits
      rw [hdone, hadmits] at hu
      cases hv
      exact ⟨rfl, hu⟩

end Logged

theorem reach_history {Call : Type} {Res : Call → Type}
    {body : (c : Call) → Prog (ledgerMachine Key Value Label foreign) (Res c)}
    {P : Policy (ledgerMachine Key Value Label foreign) Call}
    (hbody : ∀ s c, Safe (M := ledgerMachine Key Value Label foreign) (fun s : Ledger Key Value Label =>
      History Spec s.log s.records)
      P.step (fun _ _ => True) (body c) s)
    (hforeign : ∀ (records : Versioned Key Value) changes, foreign changes = true → records.admits changes = true →
      Spec records none changes)
    {clock : Nat → Nat} {cfg : Config (ledgerMachine Key Value Label foreign) Res}
    (hr : Reach body P { state := ({ records := .empty, clock, log := [] } : Ledger Key Value Label), pool := [] }
      cfg) :
    History Spec (Ledger.log cfg.state) (Ledger.records cfg.state) := by
  refine (Reach.sound (I := fun s : Ledger Key Value Label => History Spec s.log s.records) (Q := fun _ _ _ => True) hr
    ⟨.nil, fun _ h => nomatch h⟩ (fun s c _ _ => hbody s c) fun s d hI _ => ?_).state
  exact hI.drift hforeign d

end

end Conc
