import EndlessFS.Lib.Alone
import EndlessFS.Preview.Calls

/-!
# EndlessFS.Preview.Health

Whether the preview service poisons its own state. Records are written without the check that every reader
makes, so that a record may turn out invalid when it is read.

* `Healthy`: every operation record that was written is valid, operations and their bindings are there together,
  and what is stored can be read and cleaned up.
* `InTime`: an operation is finished only when its record stays valid (`MayFinish`).
* `healthy_iff`: the state is healthy just as long as every operation was finished in time.
* `Waiting.result_poisons`: an operation that waits for a generation is taken over, and its item cannot be
  resolved; its record is invalid from then on, and its shard cannot be cleaned up.
-/

namespace EndlessFS.Preview

open List OperationRecord
open Conc (Versioned Reading Ledger History)
open Identity (UserID)

/-! ## Runs alone -/

section

variable {α β : Type} {replica : Nat} {s : State} {drifts : Nat → Conc.LedgerDrift Key Record}

abbrev runAlone (a : Request α) (drifts : Nat → Conc.LedgerDrift Key Record) (s : State) : State × Except Error α :=
  Conc.Prog.alone (M := machine) {} a.run drifts s

theorem drift_records (d : Conc.LedgerDrift Key Record) : (Ledger.drift (fun _ => false) s d).records = s.records := by
  cases d <;> rfl

variable {key : Key} {version : Nat} {x : Record key}

theorem read_drift (h : s.records.cell key = some (version, x))
    (d : Conc.LedgerDrift Key Record) : Ledger.read (Ledger.drift (fun _ => false) s d) replica key =
      some { version, value := x, time := (Ledger.drift (fun _ => false) s d).clock replica } := by
  rw [Ledger.read, drift_records, h]
  rfl

variable {changes : List RecordChange}

theorem transact_drift (label : Label) (h : s.records.admits changes = true)
    (d : Conc.LedgerDrift Key Record) : Ledger.transact .done (Ledger.drift (fun _ => false) s d) label changes =
      (Ledger.commit (Ledger.drift (fun _ => false) s d) (some label) changes, .committed (some s.records.next)) := by
  simp only [Ledger.transact, drift_records, h]

abbrev Ends (Q : State → Except Error α → Prop) (a : Request α) (s : State) : Prop :=
  Conc.Alone (M := machine) (fun _ => True) (fun _ _ _ => True) {} Q a.run s

namespace Ends

variable {Q : State → Except Error β → Prop}

theorem lookup {f : Option (Reading (Record key)) → Request β} (hcell : s.records.cell key = some (version, x))
    (h : ∀ time t, t.records = s.records → Ends Q (f (some { version, value := x, time })) t) :
    Ends Q (Preview.lookup replica key >>= f) s := by
  refine Conc.Alone.then trivial fun d _ _ _ => ?_
  exact ⟨_, congrArg Except.ok (read_drift hcell d), h _ _ (drift_records d)⟩

theorem mutate {label : Label} {f : Option Nat → Request β}
    (hadmits : s.records.admits changes = true) (h : ∀ version t, t.records = s.records.commit changes →
      Ends Q (f version) t) :
    Ends Q (Preview.mutate label changes >>= f) s := by
  refine Conc.Alone.then trivial fun d _ _ _ => ?_
  have htransact := transact_drift label hadmits d
  refine ⟨_, congrArg (fun result => writtenVersion result.2) htransact, h _ _ ?_⟩
  refine (congrArg (fun result : State × Conc.Outcome => result.1.records) htransact).trans ?_
  exact congrArg (Versioned.commit · changes) (drift_records d)

theorem reject {rejected : Bool} {e : Error} {f : Unit → Request β} (hpass : rejected = false) (h : Ends Q (f ()) s) :
    Ends Q (liftM (rejectIf rejected e) >>= f) s := by
  subst hpass
  exact h

theorem except {x : Except Error α} {a : α} {f : α → Request β} (hx : x = .ok a) (h : Ends Q (f a) s) :
    Ends Q (liftM x >>= f) s := by
  subst hx
  exact h

end Ends

end

/-! ## Health -/

def PersistsValid (service : Service) (e : Entry) : Prop :=
  ∀ change ∈ e.changes, ∀ owner operationID record, change.Writes (.operation owner operationID) record →
    validOperationRecord service record owner operationID = true

def InTime (e : Entry) : Prop :=
  match e.label with
  | some (.finish owner operationID resolution now) =>
    ∀ x ∈ e.before.cell (.operation owner operationID), MayFinish x.2 now resolution
  | _ => True

instance (e : Entry) : Decidable (InTime e) :=
  match h : e.label with
  | some (.finish owner operationID resolution now) =>
    decidable_of_iff (∀ x ∈ e.before.cell (.operation owner operationID), MayFinish x.2 now resolution)
      (by rw [InTime, h])
  | some .claim | some .takeover | some .cleanup | none => .isTrue (by rw [InTime, h]; trivial)

/-- Nothing is left of the operation of an index entry. -/
structure Gone (service : Service) (owner : UserID) (entry : OperationIndexEntry) (records : Records) : Prop where
  operation : records.cell (.operation owner entry.operationID) = none
  idempotency : records.cell (.idempotency owner entry.idempotencyDigest) = none
  index : ∀ version entries, records.cell (.index owner (service.operationShard entry.operationID)) =
    some (version, entries) →
    entry ∉ entries

/-- The state is not poisoned. -/
structure Healthy (service : Service) (s : State) : Prop where
  persisted : ∀ e ∈ s.log, PersistsValid service e
  bound : Bound service s.records
  /-- No stored operation is reported as invalid. -/
  readable : ∀ owner operationID version record, s.records.cell (.operation owner operationID) =
    some (version, record) →
    ∀ replica drifts, ∃ time, (runAlone (readOperation service replica owner operationID) drifts s).2 =
      .ok { version, value := record, time }
  /-- An index with an expired entry can be cleaned up. -/
  cleanable : ∀ owner shard version entries now, s.records.cell (.index owner shard) = some (version, entries) →
    (∃ entry ∈ entries, entry.expiresAt ≤ now) → ∀ replica drifts,
      (runAlone (cleanupExpiredOperationIndex service replica owner { entries, version := some version } now) drifts
        s).2 = .ok () ∧
      ∃ entry ∈ entries, entry.expiresAt ≤ now ∧ Gone service owner entry
        (runAlone (cleanupExpiredOperationIndex service replica owner { entries, version := some version } now) drifts
          s).1.records

section

variable {service : Service} {log : List Entry} {s : State} {owner : UserID} {operationID : String} {version : Nat}
  {record : OperationRecord} {replica : Nat}

/-- The transaction of an entry writes valid records just if it was in time. -/
theorem persistsValid_iff {e : Entry} (hspec : CommitSpec service e.before e.label e.changes)
    (hbound : Bound service e.before) :
    PersistsValid service e ↔ InTime e := by
  obtain ⟨before, label, changes⟩ := e
  -- of a transaction that writes one operation record, only that record matters
  have hone : ∀ {owner operationID version record}, PersistsValid service
      { before, label, changes := [setRecord (.operation owner operationID) version record] } ↔
        validOperationRecord service record owner operationID = true := by
    refine ⟨fun h => h _ (.head _) _ _ _ ⟨_, rfl⟩, fun h change hmem owner' id r hwrites => ?_⟩
    cases mem_singleton.mp hmem
    obtain ⟨_, hchange⟩ := hwrites
    cases hchange
    exact h
  cases hspec with
  | claim _ hvalid _ _ _ =>
    refine iff_of_true (fun change hmem owner' id r hwrites => ?_) trivial
    obtain ⟨_, hchange⟩ := hwrites
    simp only [mem_cons, not_mem_nil, or_false] at hmem
    rcases hmem with rfl | rfl | rfl
    · cases hchange
      exact hvalid
    · cases hchange
    · cases hchange
  | takeover hcell hmay =>
    exact iff_of_true (hone.mpr ((hbound.filed _ _ _ _ hcell).takenOver_valid hmay)) trivial
  | @finish _ _ _ _ _ _ resolution hcell hvalid hrunning hnow hitem =>
    refine hone.trans (((hbound.filed _ _ _ _ hcell).finished_valid_iff hvalid hrunning hnow hitem resolution).trans ?_)
    refine ⟨fun h x hx => ?_, fun h => h _ hcell⟩
    cases hcell.symm.trans hx
    exact h
  | cleanup _ _ _ =>
    refine iff_of_true (fun change hmem owner' id r hwrites => ?_) trivial
    obtain ⟨_, hchange⟩ := hwrites
    simp only [mem_cons, not_mem_nil, or_false] at hmem
    rcases hmem with rfl | rfl | rfl <;> cases hchange

theorem valid_of_persisted {records : Records} (h : History (CommitSpec service) log records)
    (hpersisted : ∀ e ∈ log, PersistsValid service e)
    (hcell : records.cell (.operation owner operationID) = some (version, record)) :
    validOperationRecord service record owner operationID = true := by
  induction h generalizing version record with
  | nil => cases hcell
  | @cons log before label changes _ _ ih =>
    rcases Conc.overwrite_some (k := Key.operation owner operationID) hcell with ⟨hkept, _⟩ | ⟨_, change, hmem, hwrites⟩
    · exact ih (fun e he => hpersisted e (.tail _ he)) hkept
    · exact hpersisted _ (.head _) change hmem _ _ _ hwrites

/-! ## Reading and cleaning up -/

theorem readOperation_alone (hcell : s.records.cell (.operation owner operationID) = some (version, record))
    (hvalid : validOperationRecord service record owner operationID = true) :
    Ends (fun _ r => ∃ time, r = .ok { version, value := record, time })
      (readOperation service replica owner operationID) s :=
  Ends.lookup hcell fun time _ _ => Ends.reject (by simp [hvalid]) ⟨time, rfl⟩

variable {entries : List OperationIndexEntry}

theorem retainedEntries_ok (idempotency : IdempotencyRecord)
    (hnodup : (entries.map (·.operationID)).Nodup) (hmem : record.entry ∈ entries)
    (hid : idempotency.operationID = record.operation.id) (hexpires : idempotency.expiresAt = record.expiresAt) :
    ∃ retained, retainedEntries record idempotency false entries = .ok retained := by
  -- after the entry of the operation there is none with its ID
  have hafter : ∀ entries : List OperationIndexEntry, idempotency.operationID ∉ entries.map (·.operationID) →
      retainedEntries record idempotency true entries = .ok entries := by
    intro entries hnone
    induction entries with
    | nil => rfl
    | cons entry rest ih =>
      simp only [map_cons, mem_cons, not_or] at hnone
      simp [retainedEntries, Ne.symm hnone.1, ih hnone.2, Except.map]
  induction entries with
  | nil => cases hmem
  | cons entry rest ih =>
    rw [map_cons, nodup_cons] at hnodup
    rcases mem_cons.mp hmem with rfl | hmem
    · refine ⟨rest, ?_⟩
      have hentry : record.entry.operationID = idempotency.operationID := hid.symm
      rw [hentry] at hnodup
      simp [retainedEntries, entry, hid, hexpires, hafter rest hnodup.1]
    · obtain ⟨retained, hretained⟩ := ih hnodup.2 hmem
      have hne : entry.operationID ≠ idempotency.operationID := by
        intro h
        refine hnodup.1 (mem_map.mpr ⟨record.entry, hmem, ?_⟩)
        exact (h.trans hid).symm
      exact ⟨entry :: retained, by simp [retainedEntries, hne, hretained, Except.map]⟩

theorem cleanupExpiredPreviewBinding_alone (hbound : Bound service s.records)
    (hcell : s.records.cell (.operation owner record.operation.id) = some (version, record))
    (hvalid : validOperationRecord service record owner record.operation.id = true) {w time : Nat}
    (hidempotency : s.records.cell (.idempotency owner record.idempotencyDigest) = some (w, record.binding)) :
    Ends (fun t r => r = .ok () ∧ Gone service owner record.entry t.records)
      (cleanupExpiredPreviewBinding service replica owner record.idempotencyDigest
        { version := w, value := record.binding, time }) s := by
  have hfiled := hbound.filed _ _ _ _ hcell
  obtain ⟨indexVersion, entries, hindex, hmem⟩ := hbound.entry _ _ _ _ hcell
  have hentries := hbound.index _ _ _ _ hindex
  have hnodup : (entries.map (·.operationID)).Nodup := by
    simp only [validOperationIndex, Bool.and_eq_true, decide_eq_true_eq] at hentries
    exact hentries.1.2
  obtain ⟨retained, hretained⟩ := retainedEntries_ok record.binding hnodup hmem rfl rfl
  refine Ends.lookup hcell fun _ t ht => Ends.reject ?_ (Ends.reject (by simp) ?_)
  · simp [hvalid, binding, service.digest_ne _ hfiled.digest]
  · refine Conc.Alone.then trivial (Ends.lookup (ht ▸ hindex) fun _ u hu => Ends.reject (by simp [hentries])
      ⟨_, rfl, ?_⟩)
    refine Ends.except hretained (Ends.mutate ?_ fun _ v hv => ⟨rfl, ?_⟩)
    · rw [hu, ht]
      simp [Versioned.admits, cleanupChanges, deleteRecord, setRecord, Versioned.version, hcell, hindex,
        hidempotency, binding]
    · rw [hv, retainedEntries_eq hretained]
      refine ⟨Bound.cell_cleanup_operation, Bound.cell_cleanup_idempotency, fun _ rest hrest hentry => ?_⟩
      cases Bound.cell_cleanup_index.symm.trans hrest
      exact of_decide_eq_true (mem_filter.mp hentry).2 rfl

theorem cleanupExpiredOperationIndex_alone (hbound : Bound service s.records)
    (hvalid : ∀ owner operationID version record, s.records.cell (.operation owner operationID) =
      some (version, record) →
      validOperationRecord service record owner operationID = true) {shard : Nat} {now : Time}
    (hindex : s.records.cell (.index owner shard) = some (version, entries))
    (hexpired : ∃ entry ∈ entries, entry.expiresAt ≤ now) :
    Ends (fun t r => r = .ok () ∧ ∃ entry ∈ entries, entry.expiresAt ≤ now ∧ Gone service owner entry t.records)
      (cleanupExpiredOperationIndex service replica owner { entries, version := some version } now) s := by
  obtain ⟨entry, hfind⟩ : ∃ entry, entries.find? (·.expiresAt ≤ now) = some entry := by
    obtain ⟨entry, hmem, hle⟩ := hexpired
    exact Option.isSome_iff_exists.mp (find?_isSome.mpr ⟨entry, hmem, decide_eq_true hle⟩)
  have hmem := mem_of_find?_eq_some hfind
  have hle : entry.expiresAt ≤ now := by simpa using find?_some hfind
  obtain ⟨_, w, record, hcell, hentry⟩ := hbound.indexed _ _ _ _ hindex entry hmem
  have hid : entry.operationID = record.operation.id := congrArg OperationIndexEntry.operationID hentry.symm
  rw [hid] at hcell
  obtain ⟨w', hbinding⟩ := hbound.binding _ _ _ _ hcell
  have hfiled := hbound.filed _ _ _ _ hcell
  unfold cleanupExpiredOperationIndex
  rw [hfind, ← hentry]
  refine Ends.lookup hbinding fun time t ht => Ends.reject ?_ ?_
  · simp [validIdempotencyRecord, OperationRecord.binding, OperationRecord.entry, hfiled.fingerprint, hfiled.expires,
      hfiled.id_ne]
  · rw [← ht] at hbound hcell hbinding
    refine (cleanupExpiredPreviewBinding_alone hbound hcell (hvalid _ _ _ _ (ht ▸ hcell)) hbinding).weaken trivial ?_
    exact fun u r _ _ h => ⟨h.1, record.entry, hentry ▸ hmem, hentry ▸ hle, h.2⟩

end

/-! ## Whole runs -/

/-- The service keeps its state healthy just as long as it finishes operations in time. -/
theorem healthy_iff (service : Service) (cfg : Conc.Config machine Call.Result) (hreach : Reachable service cfg) :
    Healthy service cfg.state ↔ ∀ e ∈ Ledger.log cfg.state, InTime e := by
  have hhistory := history_of_reachable hreach
  have hentries : ∀ e ∈ Ledger.log cfg.state, (PersistsValid service e ↔ InTime e) := by
    intro e he
    obtain ⟨earlier, hearlier, hspec⟩ := hhistory.of_mem he
    exact persistsValid_iff hspec (bound_of_history hearlier)
  refine ⟨fun h e he => (hentries e he).mp (h.persisted e he), fun h => ?_⟩
  have hpersisted : ∀ e ∈ Ledger.log cfg.state, PersistsValid service e := fun e he => (hentries e he).mpr (h e he)
  have hbound := bound_of_history hhistory
  refine ⟨hpersisted, hbound, fun owner id v record hcell replica drifts => ?_,
    fun owner shard v entries now hcell hexpired replica drifts => ?_⟩
  · exact (readOperation_alone hcell (valid_of_persisted hhistory hpersisted hcell)).all drifts
  · exact (cleanupExpiredOperationIndex_alone hbound (fun _ _ _ _ => valid_of_persisted hhistory hpersisted) hcell
      hexpired).all drifts

/-! ## An operation that waits -/

namespace Waiting

def service : Service where
  operationTimeout := 60 * second
  timeout_pos := by decide
  timeout_le := by decide
  operationRetention := 60 * 60 * second
  retention_ge := by decide
  retention_le := by decide
  resolutions := [64]
  resolutions_ge := by decide
  validPath _ := true
  idempotencyDigest _ key := "digest of " ++ key
  validSHA256Digest digest := digest ≠ ""
  digest_valid _ key := by simp
  digest_ne digest h := of_decide_eq_true h
  operationShard _ := 0

def request : GenerateRequest where
  path := "/photo"
  version := "v"
  variant := 64
  regenerate := false
  idempotencyKey := "0123456789abcdef"

def waiting : List (Conc.Event machine Call) :=
  .spawn (.generate 0 "u" request (.generating "g")) :: List.replicate 7 (.step 0 { drawn := "op" })

def takeover : List (Conc.Event machine Call) :=
  .drift (.tick 0 (60 * second)) :: .spawn (.generate 0 "u" request (.error .unavailable)) ::
    List.replicate 7 (.step 1 { drawn := "other" })

def start : Conc.Config machine Call.Result :=
  { state := ({ records := .empty, clock := fun _ => 0, log := [] } : State), pool := [] }

def waits : Conc.Config machine Call.Result := start.run (Call.body service) waiting

def final : Conc.Config machine Call.Result := waits.run (Call.body service) takeover

def idle : Nat → Conc.LedgerDrift Key Record := fun _ => .tick 0 0
def later : Nat → Conc.LedgerDrift Key Record := fun _ => .tick 0 (60 * 60 * second)

end Waiting

/-- The operation that waits is finished in time. -/
theorem Waiting.waits_healthy :
    (Ledger.log waits.state).map (fun e => e.label) = [some (.finish "u" "op" (.generating "g") 1), some .claim] ∧
      Healthy service waits.state :=
  ⟨by decide +kernel, (healthy_iff service waits ⟨_, Conc.Reach.run_any _ _⟩).mpr (by decide +kernel)⟩

/-- The record that is written after the takeover is invalid: reading the operation reports it, and so does the
cleanup once it has expired. -/
theorem Waiting.result_poisons : Reachable service final ∧ ¬Healthy service final.state ∧
      (runAlone (operation service 0 "u" "op") idle final.state).2 = .error invalidOperation ∧
      (runAlone (cleanup service 0 "u" "op") later final.state).2 =
        .error (newError .invalid "preview idempotency operation binding is invalid") := by
  have hread : (runAlone (readOperation service 0 "u" "op") idle final.state).2 = .error invalidOperation := by
    decide +kernel
  have hcell : (Ledger.records final.state).cell (.operation "u" "op") ≠ none := by decide +kernel
  refine ⟨⟨fun _ => 0, (Conc.Reach.run_any start waiting).trans (Conc.Reach.run_any waits takeover)⟩,
    fun h => ?_, ?_, ?_⟩
  · obtain ⟨⟨version, record⟩, hrecord⟩ := Option.ne_none_iff_exists'.mp hcell
    obtain ⟨_, hok⟩ := h.readable _ _ _ _ hrecord 0 idle
    cases hread.symm.trans hok
  · decide +kernel
  · decide +kernel

/-- Operations, their bindings and their index entries are there together, also where a record is invalid. -/
theorem operations_bound {service : Service} {cfg : Conc.Config machine Call.Result} (h : Reachable service cfg) :
    Bound service (Ledger.records cfg.state) :=
  bound_of_history (history_of_reachable h)

/-- The record of the takeover is invalid, and bound all the same. -/
theorem Waiting.waits_bound : (runAlone (readOperation service 0 "u" "op") idle final.state).2 =
    .error invalidOperation ∧
    Bound service (Ledger.records final.state) :=
  ⟨by decide +kernel, operations_bound ⟨_, (Conc.Reach.run_any start waiting).trans
    (Conc.Reach.run_any waits takeover)⟩⟩

end EndlessFS.Preview
