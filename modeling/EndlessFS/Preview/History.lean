import EndlessFS.Lib.Result
import EndlessFS.Preview.Programs

/-!
# EndlessFS.Preview.History

What the transactions of the preview service do to the records they are committed on.

* `Filed`: what holds of every operation record, whether it is valid or not.
* `MayFinish`: when the record of a claimed operation stays valid as the operation is finished
  (`Filed.finished_valid_iff`).
* `CommitSpec`: the transactions as the service prepares them.
* `Bound`: operation, idempotency record and index entry are there together, and agree. Every transaction
  keeps this (`CommitSpec.bound`).
-/

namespace EndlessFS.Preview

open List OperationRecord
open Conc (Versioned)
open Identity (UserID)

/-! ## Records -/

/-- What holds of an operation record, whether it is valid or not. -/
structure Filed (service : Service) (owner : UserID) (operationID : String) (record : OperationRecord) : Prop where
  owner : record.ownerID = owner
  id : record.operation.id = operationID
  id_ne : operationID ≠ ""
  fingerprint : record.fingerprint ≠ ""
  digest : service.validSHA256Digest record.idempotencyDigest = true
  started : 0 < record.operation.startedAt
  updated : record.operation.startedAt ≤ record.operation.updatedAt
  expiry : record.expiresAt = record.operation.startedAt + service.operationRetention
  epoch_pos : 0 < record.leaseEpoch
  -- a takeover moves the update by at least one tick, so that the epoch does not wrap around
  epoch_le : record.leaseEpoch ≤ 1 + (record.operation.updatedAt - record.operation.startedAt)
  capability : record.operation.result.all (·.capability.isNone) = true

variable {service : Service} {owner : UserID} {operationID : String} {record : OperationRecord} {now : Time}

theorem Filed.expires (h : Filed service owner operationID record) : record.expiresAt ≠ 0 := by
  have := h.expiry
  have := h.started
  unfold Time at *
  omega

theorem Filed.valid_iff (h : Filed service owner operationID record) :
    validOperationRecord service record owner operationID = true ↔
      record.operation.updatedAt < record.expiresAt ∧ validOperationState service record = true := by
  have hexpires := h.expires
  have hdigest := service.digest_ne _ h.digest
  have hstarted : record.operation.startedAt ≠ 0 := Nat.ne_of_gt h.started
  have hupdated : record.operation.updatedAt ≠ 0 := Nat.ne_of_gt (Nat.lt_of_lt_of_le h.started h.updated)
  have hepoch : record.leaseEpoch ≠ 0 := Nat.ne_of_gt h.epoch_pos
  simp [validOperationRecord, h.capability, h.owner, h.fingerprint, hdigest, hepoch, hexpires, h.id, hstarted, hupdated,
    h.updated, h.digest]

theorem validOperationState_running (hrunning : record.operation.state = .running) :
    validOperationState service record = true ↔
      record.leaseExpiresAt ≠ 0 ∧ record.operation.updatedAt < record.leaseExpiresAt ∧
      record.operation.errorKind = none ∧
        validWaiting service record.waitGenerationID record.operation.result = true := by
  simp [validOperationState, hrunning, and_assoc]

theorem validWaiting_none {wait : String} : validWaiting service wait none = true ↔ wait = "" := by simp [validWaiting]

theorem validWaiting_some {wait : String} {result : ItemResult} (h : validWaiting service wait (some result) = true) :
    result.state = .generating := by
  simp only [validWaiting, Bool.and_eq_true, decide_eq_true_eq] at h
  exact h.1.1.1.1

theorem newRecord_filed {digest fingerprint : String} (hdigest : service.validSHA256Digest digest = true)
    (hfingerprint : fingerprint ≠ "") (hid : operationID ≠ "") (hnow : 0 < now) :
    Filed service owner operationID (newRecord service owner digest fingerprint operationID now) where
  owner := rfl
  id := rfl
  id_ne := hid
  fingerprint := hfingerprint
  digest := hdigest
  started := hnow
  updated := Nat.le_refl _
  expiry := rfl
  epoch_pos := Nat.one_pos
  epoch_le := by simp [newRecord]
  capability := rfl

theorem newRecord_valid {digest fingerprint : String} (hdigest : service.validSHA256Digest digest = true)
    (hfingerprint : fingerprint ≠ "") (hid : operationID ≠ "") (hnow : 0 < now) :
    validOperationRecord service (newRecord service owner digest fingerprint operationID now) owner operationID =
      true := by
  rw [(newRecord_filed hdigest hfingerprint hid hnow).valid_iff, validOperationState_running rfl]
  have hretention := service.retention_ge
  have htimeout := service.timeout_pos
  refine ⟨?_, ?_, ?_, rfl, validWaiting_none.mpr rfl⟩
  · simp only [newRecord, second] at hretention ⊢
    unfold Time at *
    omega
  · simp only [newRecord]
    unfold Time at *
    omega
  · simp only [newRecord]
    unfold Time at *
    omega

/-- A takeover is made of a running operation whose lease is over and whose record has not expired. -/
structure MayTakeOver (service : Service) (owner : UserID) (operationID : String) (record : OperationRecord)
    (now : Time) : Prop where
  valid : validOperationRecord service record owner operationID = true
  running : record.operation.state = .running
  lease : record.leaseExpiresAt ≤ now
  alive : now < record.expiresAt

theorem Filed.takenOver (h : Filed service owner operationID record)
    (hmay : MayTakeOver service owner operationID record now) :
    Filed service owner operationID (takenOver service record now) := by
  obtain ⟨_, hstate⟩ := h.valid_iff.mp hmay.valid
  obtain ⟨_, hupdated, _, _⟩ := (validOperationState_running hmay.running).mp hstate
  have hlater : record.operation.updatedAt < now := Nat.lt_of_lt_of_le hupdated hmay.lease
  have hstarted := h.updated
  have hepoch := h.epoch_le
  have hexpiry := h.expiry
  have hretention := service.retention_le
  -- an epoch for each tick of the retention is far from the last one
  have hnowrap : (record.leaseEpoch + 1) % 2 ^ 64 = record.leaseEpoch + 1 := by
    simp only [second] at hretention
    unfold Time at *
    omega
  refine ⟨h.owner, h.id, h.id_ne, h.fingerprint, h.digest, h.started, ?_, h.expiry, ?_, ?_, h.capability⟩
  · exact Nat.le_of_lt (Nat.lt_of_le_of_lt hstarted hlater)
  · change 0 < (record.leaseEpoch + 1) % 2 ^ 64
    omega
  · change (record.leaseEpoch + 1) % 2 ^ 64 ≤ 1 + (now - record.operation.startedAt)
    unfold Time at *
    omega

theorem Filed.takenOver_valid (h : Filed service owner operationID record)
    (hmay : MayTakeOver service owner operationID record now) :
    validOperationRecord service (Preview.takenOver service record now) owner operationID = true := by
  obtain ⟨_, hstate⟩ := h.valid_iff.mp hmay.valid
  obtain ⟨_, _, herror, hwaiting⟩ := (validOperationState_running hmay.running).mp hstate
  have htimeout := service.timeout_pos
  have hrunning : (Preview.takenOver service record now).operation.state = .running := hmay.running
  rw [(h.takenOver hmay).valid_iff, validOperationState_running hrunning]
  refine ⟨hmay.alive, ?_, ?_, herror, hwaiting⟩
  · simp only [Preview.takenOver]
    unfold Time at *
    omega
  · simp only [Preview.takenOver]
    unfold Time at *
    omega

/-! ## Finishing -/

/-- When a claimed operation can be finished with its record valid: before the record expires, and, if the item
is still generating, before the lease is over and waiting for a generation with a valid ID; a failed resolution
leaves the result of the record in place, so that there must be none. -/
def MayFinish (record : OperationRecord) (now : Time) : Resolution → Prop
  | .error _ => now < record.expiresAt ∧ record.operation.result = none
  | .generating waitingFor => now < record.expiresAt ∧ now < record.leaseExpiresAt ∧ validGenerationID waitingFor = true
  | .ready _ _ | .unresolved _ _ _ => now < record.expiresAt

instance (record : OperationRecord) (now : Time) :
    (resolution : Resolution) → Decidable (MayFinish record now resolution)
  | .error _ => inferInstanceAs (Decidable (_ ∧ _))
  | .generating _ => inferInstanceAs (Decidable (_ ∧ _))
  | .ready _ _ | .unresolved _ _ _ => inferInstanceAs (Decidable (now < record.expiresAt))

theorem Filed.finished (h : Filed service owner operationID record) (hnow : record.operation.updatedAt ≤ now)
    (item : ItemRequest)
    (resolution : Resolution) : Filed service owner operationID (record.finished item now resolution) := by
  have hupdated : (record.finished item now resolution).operation.updatedAt = now := by cases resolution <;> rfl
  have hstarted : (record.finished item now resolution).operation.startedAt = record.operation.startedAt := by
    cases resolution <;> rfl
  have hepoch : (record.finished item now resolution).leaseEpoch = record.leaseEpoch := by cases resolution <;> rfl
  refine ⟨?_, ?_, h.id_ne, ?_, ?_, hstarted ▸ h.started, ?_, ?_, hepoch ▸ h.epoch_pos, ?_, ?_⟩
  · cases resolution <;> exact h.owner
  · cases resolution <;> exact h.id
  · cases resolution <;> exact h.fingerprint
  · cases resolution <;> exact h.digest
  · rw [hstarted, hupdated]
    exact Nat.le_trans h.updated hnow
  · rw [hstarted]
    cases resolution <;> exact h.expiry
  · rw [hepoch, hstarted, hupdated]
    have := h.epoch_le
    unfold Time at *
    omega
  · unfold OperationRecord.finished OperationRecord.persisted
    cases (record.operation.resolved item now resolution).result <;> rfl

/-- The record of an operation that is finished is valid just if it could be finished then. -/
theorem Filed.finished_valid_iff (h : Filed service owner operationID record)
    (hvalid : validOperationRecord service record owner operationID = true)
    (hrunning : record.operation.state = .running)
    (hnow : record.operation.updatedAt ≤ now) {item : ItemRequest} (hitem : validateItem service item = .ok ())
    (resolution : Resolution) :
    validOperationRecord service (record.finished item now resolution) owner operationID = true ↔
      MayFinish record now resolution := by
  obtain ⟨_, hstate⟩ := h.valid_iff.mp hvalid
  obtain ⟨hlease, hupdated, herror, hwaiting⟩ := (validOperationState_running hrunning).mp hstate
  rw [(h.finished hnow item resolution).valid_iff, OperationRecord.finished, OperationRecord.persisted]
  cases resolution with
  | error kind =>
    cases hresult : record.operation.result with
    | none =>
      simp [MayFinish, OperationRecord.waiting, Operation.resolved, validOperationState, hresult]
    | some result =>
      rw [hresult] at hwaiting
      simp [MayFinish, OperationRecord.waiting, Operation.resolved, validOperationState, hresult,
        validWaiting_some hwaiting]
  | ready artifact capability =>
    simp [MayFinish, OperationRecord.waiting, Operation.resolved, validOperationState, herror, ItemRequest.result]
  | generating waitingFor =>
    have hvariant : 0 < item.variant ∧ service.validPath item.path = true ∧ item.version ≠ "" := by
      simp only [validateItem, rejectIf_eq_ok_iff, Bool.or_eq_false_iff, Bool.not_eq_false', decide_eq_false_iff_not,
        List.contains_eq_mem, decide_eq_true_eq] at hitem
      have := service.resolutions_ge _ hitem.2
      exact ⟨by omega, hitem.1.1, hitem.1.2⟩
    simp [MayFinish, OperationRecord.waiting, Operation.resolved, validOperationState, herror, ItemRequest.result,
      validWaiting, hvariant, hlease]
  | unresolved state reason idle =>
    simp [MayFinish, OperationRecord.waiting, Operation.resolved, validOperationState, ItemRequest.result,
      idle.1, idle.2]

/-! ## Transactions -/

def OperationIndexSnapshot.StoredIn (index : OperationIndexSnapshot) (records : Records) (owner : UserID)
    (shard : Nat) : Prop :=
  match index.version with
  | none => index.entries = []
  | some version => records.cell (.index owner shard) = some (version, index.entries)

/-- A transaction as the service prepares it, on the records it is committed on. -/
inductive CommitSpec (service : Service) (before : Records) : Option Label → List RecordChange → Prop where
  | claim {owner : UserID} {record : OperationRecord} {index : OperationIndexSnapshot} :
      Filed service owner record.operation.id record →
        validOperationRecord service record owner record.operation.id = true →
      index.StoredIn before owner (service.operationShard record.operation.id) →
        index.entries.length < maxOperationsPerShard →
      before.admits (claimChanges service owner record index) = true →
      CommitSpec service before (some .claim) (claimChanges service owner record index)
  | takeover {owner : UserID} {operationID : String} {version : Nat} {record : OperationRecord} {now : Time} :
      before.cell (.operation owner operationID) = some (version, record) →
        MayTakeOver service owner operationID record now →
      CommitSpec service before (some .takeover) [setRecord (.operation owner operationID) version
        (takenOver service record now)]
  | finish {owner : UserID} {operationID : String} {version : Nat} {record : OperationRecord} {item : ItemRequest}
    {now : Time}
      {resolution : Resolution} :
      before.cell (.operation owner operationID) = some (version, record) →
      validOperationRecord service record owner operationID = true → record.operation.state = .running →
      record.operation.updatedAt ≤ now → validateItem service item = .ok () →
      CommitSpec service before (some (.finish owner operationID resolution now))
        [setRecord (.operation owner operationID) version (record.finished item now resolution)]
  | cleanup {owner : UserID} {digest operationID : String} {idempotencyVersion operationVersion indexVersion : Nat}
      {record : OperationRecord} {entries : List OperationIndexEntry} :
      before.cell (.operation owner operationID) = some (operationVersion, record) → record.idempotencyDigest = digest →
      before.cell (.index owner (service.operationShard operationID)) = some (indexVersion, entries) →
      CommitSpec service before (some .cleanup) (cleanupChanges service owner digest idempotencyVersion operationID
        operationVersion
        indexVersion (entries.filter fun entry => entry.operationID ≠ operationID))

variable {entries : List OperationIndexEntry}

theorem retainedEntries_eq {operation : OperationRecord} {idempotency : IdempotencyRecord} {found : Bool}
    {retained : List OperationIndexEntry} (h : retainedEntries operation idempotency found entries = .ok retained) :
    retained = entries.filter fun entry => entry.operationID ≠ idempotency.operationID := by
  induction entries generalizing found retained with
  | nil =>
    simp only [retainedEntries] at h
    split at h
    · cases h
      rfl
    · cases h
  | cons entry rest ih =>
    simp only [retainedEntries] at h
    split at h
    · rename_i hid
      split at h
      · cases h
      · rw [ih h]
        simp [hid]
    · rename_i hid
      obtain ⟨tail, htail, rfl⟩ := Except.map_eq_ok_iff.mp h
      rw [ih htail]
      simp [hid]

/-! ## Bindings -/

/-- Operation, idempotency record and index entry are there together, and agree. -/
structure Bound (service : Service) (records : Records) : Prop where
  filed : ∀ owner operationID version record, records.cell (.operation owner operationID) = some (version, record) →
    Filed service owner operationID record
  binding : ∀ owner operationID version record, records.cell (.operation owner operationID) = some (version, record) →
    ∃ w, records.cell (.idempotency owner record.idempotencyDigest) = some (w, record.binding)
  entry : ∀ owner operationID version record, records.cell (.operation owner operationID) = some (version, record) →
    ∃ w entries, records.cell (.index owner (service.operationShard operationID)) = some (w, entries) ∧
      record.entry ∈ entries
  owned : ∀ owner digest version idempotency, records.cell (.idempotency owner digest) = some (version, idempotency) →
    ∃ w record, records.cell (.operation owner idempotency.operationID) = some (w, record) ∧
      record.idempotencyDigest = digest
  index : ∀ owner shard version entries, records.cell (.index owner shard) = some (version, entries) →
    validOperationIndex entries = true
  indexed : ∀ owner shard version entries, records.cell (.index owner shard) = some (version, entries) →
    ∀ entry ∈ entries, service.operationShard entry.operationID = shard ∧
      ∃ w record, records.cell (.operation owner entry.operationID) = some (w, record) ∧ record.entry = entry

namespace Bound

variable {records : Records} {version : Nat}

theorem empty : Bound service .empty where
  filed _ _ _ _ h := nomatch h
  binding _ _ _ _ h := nomatch h
  entry _ _ _ _ h := nomatch h
  owned _ _ _ _ h := nomatch h
  index _ _ _ _ h := nomatch h
  indexed _ _ _ _ h := nomatch h

theorem digest_injective (h : Bound service records) {id id' : String} {v v' : Nat} {r r' : OperationRecord}
    (hcell : records.cell (.operation owner id) = some (v, r))
    (hcell' : records.cell (.operation owner id') = some (v', r'))
    (hdigest : r.idempotencyDigest = r'.idempotencyDigest) : id = id' := by
  obtain ⟨w, hbinding⟩ := h.binding _ _ _ _ hcell
  obtain ⟨w', hbinding'⟩ := h.binding _ _ _ _ hcell'
  rw [hdigest, hbinding'] at hbinding
  have hsame : r'.binding.operationID = r.binding.operationID :=
    congrArg (fun x => x.2.operationID) (Option.some.inj hbinding)
  exact ((h.filed _ _ _ _ hcell).id.symm.trans hsame.symm).trans (h.filed _ _ _ _ hcell').id

/-! ### Replacing an operation -/

variable {record' : OperationRecord}

theorem cell_set (key : Key) (x : Record key) :
    (records.commit [setRecord key version x]).cell key = some (records.next, x) := Function.update_self ..

theorem cell_set_of_ne {key other : Key} (x : Record key) (h : key ≠ other) :
    (records.commit [setRecord key version x]).cell other = records.cell other :=
  records.commit_of_ne fun _ hmem => by
    cases mem_singleton.mp hmem
    exact h

/-- An operation that is replaced by one with the same binding stays bound. -/
theorem replace (h : Bound service records) (hcell : records.cell (.operation owner operationID) =
      some (version, record))
    (hfiled : Filed service owner operationID record') (hbinding : record'.binding = record.binding)
    (hentry : record'.entry = record.entry) :
    Bound service (records.commit [setRecord (.operation owner operationID) version record']) := by
  -- an operation after the transaction has the binding of one before it
  have hbefore : ∀ owner' id v r, (records.commit [setRecord (.operation owner operationID) version record']).cell
      (.operation owner' id) = some (v, r) → Filed service owner' id r ∧
        ∃ v' r', records.cell (.operation owner' id) = some (v', r') ∧ r.binding = r'.binding ∧ r.entry = r'.entry := by
    intro owner' id v r hr
    by_cases hsame : Key.operation owner operationID = .operation owner' id
    · cases hsame
      rw [cell_set] at hr
      cases hr
      exact ⟨hfiled, _, _, hcell, hbinding, hentry⟩
    · rw [cell_set_of_ne _ hsame] at hr
      exact ⟨h.filed _ _ _ _ hr, _, _, hr, rfl, rfl⟩
  have hafter : ∀ owner' id v r, records.cell (.operation owner' id) = some (v, r) →
      ∃ v' r', (records.commit [setRecord (.operation owner operationID) version record']).cell (.operation owner' id) =
        some (v', r') ∧ r'.entry = r.entry := by
    intro owner' id v r hr
    by_cases hsame : Key.operation owner operationID = .operation owner' id
    · cases hsame
      rw [hcell] at hr
      cases hr
      exact ⟨_, _, cell_set _ _, hentry⟩
    · exact ⟨v, r, (cell_set_of_ne _ hsame).trans hr, rfl⟩
  refine ⟨fun owner' id v r hr => (hbefore owner' id v r hr).1, fun owner' id v r hr => ?_, fun owner' id v r hr => ?_,
    fun owner' digest v r hr => ?_, fun owner' shard v entries hr => ?_, fun owner' shard v entries hr entry hmem => ?_⟩
  · obtain ⟨_, v', r', hr', hb, he⟩ := hbefore owner' id v r hr
    rw [cell_set_of_ne _ (by simp), hb, show r.idempotencyDigest = r'.idempotencyDigest from congrArg
      (·.idempotencyDigest) he]
    exact h.binding _ _ _ _ hr'
  · obtain ⟨_, v', r', hr', _, he⟩ := hbefore owner' id v r hr
    rw [cell_set_of_ne _ (by simp), he]
    exact h.entry _ _ _ _ hr'
  · rw [cell_set_of_ne _ (by simp)] at hr
    obtain ⟨w, r', hr', hd⟩ := h.owned _ _ _ _ hr
    obtain ⟨w', r'', hr'', he⟩ := hafter _ _ _ _ hr'
    exact ⟨w', r'', hr'', (congrArg OperationIndexEntry.idempotencyDigest he).trans hd⟩
  · rw [cell_set_of_ne _ (by simp)] at hr
    exact h.index _ _ _ _ hr
  · rw [cell_set_of_ne _ (by simp)] at hr
    obtain ⟨hshard, w, r', hr', he⟩ := h.indexed _ _ _ _ hr entry hmem
    obtain ⟨w', r'', hr'', he'⟩ := hafter _ _ _ _ hr'
    exact ⟨hshard, w', r'', hr'', he'.trans he⟩

/-! ### Adding an operation -/

variable {index : OperationIndexSnapshot}

theorem claimChanges_nodup : ((claimChanges service owner record index).map Conc.CellChange.key).Nodup := by
  simp [claimChanges, createRecord]

theorem cell_claim_operation : (records.commit (claimChanges service owner record index)).cell
    (.operation owner record.operation.id) = some (records.next, record) :=
  records.commit_self claimChanges_nodup (createRecord (.operation owner record.operation.id) record) (.head _)

theorem cell_claim_idempotency : (records.commit (claimChanges service owner record index)).cell
    (.idempotency owner record.idempotencyDigest) = some (records.next, record.binding) :=
  records.commit_self claimChanges_nodup (createRecord (.idempotency owner record.idempotencyDigest) record.binding)
    (.tail _ (.head _))

theorem cell_claim_index : (records.commit (claimChanges service owner record index)).cell
    (.index owner (service.operationShard record.operation.id)) =
    some (records.next, index.entries ++ [record.entry]) :=
  records.commit_self claimChanges_nodup
    ⟨.index owner (service.operationShard record.operation.id), index.version, some (index.entries ++ [record.entry])⟩
    (.tail _ (.tail _ (.head _)))

theorem cell_claim_of_ne {key : Key} (hoperation : Key.operation owner record.operation.id ≠ key)
    (hidempotency : Key.idempotency owner record.idempotencyDigest ≠ key)
    (hindex : Key.index owner (service.operationShard record.operation.id) ≠ key) :
    (records.commit (claimChanges service owner record index)).cell key = records.cell key := by
  refine records.commit_of_ne fun change hmem => ?_
  simp only [claimChanges, mem_cons, not_mem_nil, or_false] at hmem
  rcases hmem with rfl | rfl | rfl
  · exact hoperation
  · exact hidempotency
  · exact hindex

theorem valid_append {entry : OperationIndexEntry} (h : validOperationIndex entries = true)
    (hlength : entries.length < maxOperationsPerShard) (hid : entry.operationID ≠ "")
    (hdigest : entry.idempotencyDigest ≠ "")
    (hexpires : entry.expiresAt ≠ 0) (hnewID : ∀ old ∈ entries, old.operationID ≠ entry.operationID)
    (hnewDigest : ∀ old ∈ entries, old.idempotencyDigest ≠ entry.idempotencyDigest) :
    validOperationIndex (entries ++ [entry]) = true := by
  simp only [validOperationIndex, Bool.and_eq_true, decide_eq_true_eq, all_eq_true] at h ⊢
  obtain ⟨⟨⟨_, heach⟩, hids⟩, hdigests⟩ := h
  refine ⟨⟨⟨?_, fun old hold => ?_⟩, ?_⟩, ?_⟩
  · simpa using Nat.succ_le_of_lt hlength
  · rcases mem_append.mp hold with hold | hold
    · exact heach old hold
    · cases mem_singleton.mp hold
      exact ⟨⟨hid, hdigest⟩, hexpires⟩
  · simpa [nodup_append, hids] using hnewID
  · simpa [nodup_append, hdigests] using hnewDigest

section

variable (hadmits : records.admits (claimChanges service owner record index) = true)

include hadmits

theorem unclaimed_operation : records.cell (.operation owner record.operation.id) = none :=
  Versioned.cell_eq_none hadmits
    (show createRecord (.operation owner record.operation.id) record ∈ claimChanges service owner record
      index from .head _) rfl

theorem unclaimed_idempotency : records.cell (.idempotency owner record.idempotencyDigest) = none :=
  Versioned.cell_eq_none hadmits
    (show createRecord (.idempotency owner record.idempotencyDigest) record.binding ∈ claimChanges service owner record
      index from
      .tail _ (.head _)) rfl

theorem operation_kept {owner' : UserID} {id : String} {v : Nat} {r : OperationRecord}
    (hr : records.cell (.operation owner' id) = some (v, r)) :
    (records.commit (claimChanges service owner record index)).cell (.operation owner' id) = some (v, r) := by
  refine (cell_claim_of_ne (fun hsame => ?_) (by simp) (by simp)).trans hr
  cases hsame
  rw [unclaimed_operation hadmits] at hr
  cases hr

variable (hstored : index.StoredIn records owner (service.operationShard record.operation.id))

include hstored

/-- What the shard held before the transaction is what was loaded. -/
theorem loaded_index {w : Nat} {entries : List OperationIndexEntry}
    (hcell : records.cell (.index owner (service.operationShard record.operation.id)) = some (w, entries)) :
    entries = index.entries := by
  have hversion := Versioned.version_of_admits hadmits (.tail _ (.tail _ (.head _)))
  unfold OperationIndexSnapshot.StoredIn at hstored
  cases hv : index.version with
  | none => simp [Versioned.version, hcell, hv] at hversion
  | some v =>
    rw [hv] at hstored
    exact (congrArg Prod.snd (Option.some.inj (hstored.symm.trans hcell))).symm

omit hadmits in
theorem loaded_entries (h : Bound service records) : validOperationIndex index.entries = true ∧ ∀ entry ∈ index.entries,
    service.operationShard entry.operationID = service.operationShard record.operation.id ∧
      ∃ w r, records.cell (.operation owner entry.operationID) = some (w, r) ∧ r.entry = entry := by
  unfold OperationIndexSnapshot.StoredIn at hstored
  cases hv : index.version with
  | none =>
    rw [hv] at hstored
    rw [hstored]
    exact ⟨rfl, fun _ hmem => by cases hmem⟩
  | some v =>
    rw [hv] at hstored
    exact ⟨h.index _ _ _ _ hstored, h.indexed _ _ _ _ hstored⟩

theorem valid_claimed (h : Bound service records) (hfiled : Filed service owner record.operation.id record)
    (hlength : index.entries.length < maxOperationsPerShard) :
    validOperationIndex (index.entries ++ [record.entry]) = true := by
  obtain ⟨hvalid, hentries⟩ := loaded_entries hstored h
  refine valid_append hvalid hlength hfiled.id_ne (service.digest_ne _ hfiled.digest) hfiled.expires ?_ ?_
  · intro old hold hid
    obtain ⟨_, w, r, hr, _⟩ := hentries old hold
    rw [hid] at hr
    cases (unclaimed_operation hadmits).symm.trans hr
  · intro old hold hdigest
    obtain ⟨_, w, r, hr, he⟩ := hentries old hold
    obtain ⟨w', hw'⟩ := h.binding _ _ _ _ hr
    have hsameDigest : r.idempotencyDigest = record.idempotencyDigest :=
      (congrArg OperationIndexEntry.idempotencyDigest he).trans hdigest
    rw [hsameDigest, unclaimed_idempotency hadmits] at hw'
    cases hw'

end

/-- Besides the new operation there are those from before. -/
theorem operation_cases {owner' : UserID} {id : String} {v : Nat} {r : OperationRecord}
    (hr : (records.commit (claimChanges service owner record index)).cell (.operation owner' id) = some (v, r)) :
    owner = owner' ∧ record.operation.id = id ∧ record = r ∨ records.cell (.operation owner' id) = some (v, r) := by
  by_cases hsame : Key.operation owner record.operation.id = .operation owner' id
  · cases hsame
    rw [cell_claim_operation] at hr
    cases hr
    exact .inl ⟨rfl, rfl, rfl⟩
  · rw [cell_claim_of_ne hsame (by simp) (by simp)] at hr
    exact .inr hr

/-- A new operation appears with its binding. -/
theorem add (h : Bound service records) (hfiled : Filed service owner record.operation.id record)
    (hstored : index.StoredIn records owner (service.operationShard record.operation.id))
    (hlength : index.entries.length < maxOperationsPerShard)
    (hadmits : records.admits (claimChanges service owner record index) = true) :
    Bound service (records.commit (claimChanges service owner record index)) where
  filed owner' id v r hr := by
    rcases operation_cases hr with ⟨rfl, rfl, rfl⟩ | hr
    · exact hfiled
    · exact h.filed _ _ _ _ hr
  binding owner' id v r hr := by
    rcases operation_cases hr with ⟨rfl, rfl, rfl⟩ | hr
    · exact ⟨_, cell_claim_idempotency⟩
    · obtain ⟨w, hw⟩ := h.binding _ _ _ _ hr
      refine ⟨w, (cell_claim_of_ne (by simp) (fun hdigest => ?_) (by simp)).trans hw⟩
      injection hdigest with howner hdigest
      rw [← hdigest, ← howner, unclaimed_idempotency hadmits] at hw
      cases hw
  entry owner' id v r hr := by
    rcases operation_cases hr with ⟨rfl, rfl, rfl⟩ | hr
    · exact ⟨_, _, cell_claim_index, mem_append_right _ (.head _)⟩
    · obtain ⟨w, entries, hw, hmem⟩ := h.entry _ _ _ _ hr
      by_cases hshard : Key.index owner (service.operationShard record.operation.id) =
        .index owner' (service.operationShard id)
      · injection hshard with howner hshard
        rw [← hshard, ← howner] at hw ⊢
        exact ⟨_, _, cell_claim_index, mem_append_left _ (loaded_index hadmits hstored hw ▸ hmem)⟩
      · exact ⟨w, entries, (cell_claim_of_ne (by simp) (by simp) hshard).trans hw, hmem⟩
  owned owner' digest v r hr := by
    by_cases hsame : Key.idempotency owner record.idempotencyDigest = .idempotency owner' digest
    · cases hsame
      rw [cell_claim_idempotency] at hr
      cases hr
      exact ⟨_, record, cell_claim_operation, rfl⟩
    · rw [cell_claim_of_ne (by simp) hsame (by simp)] at hr
      obtain ⟨w, r', hr', hd⟩ := h.owned _ _ _ _ hr
      exact ⟨w, r', operation_kept hadmits hr', hd⟩
  index owner' shard v entries hr := by
    by_cases hsame : Key.index owner (service.operationShard record.operation.id) = .index owner' shard
    · cases hsame
      rw [cell_claim_index] at hr
      cases hr
      exact valid_claimed hadmits hstored h hfiled hlength
    · rw [cell_claim_of_ne (by simp) (by simp) hsame] at hr
      exact h.index _ _ _ _ hr
  indexed owner' shard v entries hr entry hmem := by
    by_cases hsame : Key.index owner (service.operationShard record.operation.id) = .index owner' shard
    · cases hsame
      rw [cell_claim_index] at hr
      cases hr
      rcases mem_append.mp hmem with hmem | hmem
      · obtain ⟨hshard, w, r, hr, he⟩ := (loaded_entries hstored h).2 entry hmem
        exact ⟨hshard, w, r, operation_kept hadmits hr, he⟩
      · cases mem_singleton.mp hmem
        exact ⟨rfl, _, record, cell_claim_operation, rfl⟩
    · rw [cell_claim_of_ne (by simp) (by simp) hsame] at hr
      obtain ⟨hshard, w, r, hr, he⟩ := h.indexed _ _ _ _ hr entry hmem
      exact ⟨hshard, w, r, operation_kept hadmits hr, he⟩

/-! ### Removing an operation -/

variable {digest : String} {idempotencyVersion operationVersion indexVersion : Nat}
  {retained : List OperationIndexEntry}

theorem cleanupChanges_nodup : ((cleanupChanges service owner digest idempotencyVersion operationID operationVersion
      indexVersion
    retained).map Conc.CellChange.key).Nodup := by
  simp [cleanupChanges, deleteRecord, setRecord]

theorem cell_cleanup_idempotency : (records.commit (cleanupChanges service owner digest idempotencyVersion operationID
    operationVersion indexVersion retained)).cell (.idempotency owner digest) = none :=
  records.commit_self cleanupChanges_nodup (deleteRecord (.idempotency owner digest) idempotencyVersion) (.head _)

theorem cell_cleanup_operation : (records.commit (cleanupChanges service owner digest idempotencyVersion operationID
    operationVersion indexVersion retained)).cell (.operation owner operationID) = none :=
  records.commit_self cleanupChanges_nodup (deleteRecord (.operation owner operationID) operationVersion)
    (.tail _ (.head _))

theorem cell_cleanup_index : (records.commit (cleanupChanges service owner digest idempotencyVersion operationID
    operationVersion indexVersion retained)).cell (.index owner (service.operationShard operationID)) =
    some (records.next, retained) :=
  records.commit_self cleanupChanges_nodup (setRecord (.index owner (service.operationShard operationID))
    indexVersion retained)
    (.tail _ (.tail _ (.head _)))

theorem cell_cleanup_of_ne {key : Key} (hidempotency : Key.idempotency owner digest ≠ key)
    (hoperation : Key.operation owner operationID ≠ key)
    (hindex : Key.index owner (service.operationShard operationID) ≠ key) :
    (records.commit (cleanupChanges service owner digest idempotencyVersion operationID operationVersion indexVersion
      retained)).cell key = records.cell key := by
  refine records.commit_of_ne fun change hmem => ?_
  simp only [cleanupChanges, mem_cons, not_mem_nil, or_false] at hmem
  rcases hmem with rfl | rfl | rfl
  · exact hidempotency
  · exact hoperation
  · exact hindex

theorem valid_filter (h : validOperationIndex entries = true) (p : OperationIndexEntry → Bool) :
    validOperationIndex (entries.filter p) = true := by
  simp only [validOperationIndex, Bool.and_eq_true, decide_eq_true_eq, all_eq_true] at h ⊢
  obtain ⟨⟨⟨hlength, heach⟩, hids⟩, hdigests⟩ := h
  refine ⟨⟨⟨Nat.le_trans (length_filter_le _ _) hlength, fun entry hmem => heach entry (mem_of_mem_filter hmem)⟩, ?_⟩,
    ?_⟩
  · exact hids.sublist (filter_sublist.map _)
  · exact hdigests.sublist (filter_sublist.map _)

/-- An operation disappears with its binding. -/
theorem remove (h : Bound service records) (hcell : records.cell (.operation owner operationID) =
      some (operationVersion, record))
    (hdigest : record.idempotencyDigest = digest)
    (hindex : records.cell (.index owner (service.operationShard operationID)) = some (indexVersion, entries)) :
    Bound service (records.commit (cleanupChanges service owner digest idempotencyVersion operationID operationVersion
      indexVersion
      (entries.filter fun entry => entry.operationID ≠ operationID))) := by
  -- the other operations are there as before, and no others
  have hcases : ∀ owner' id v r, (records.commit (cleanupChanges service owner digest idempotencyVersion operationID
    operationVersion
      indexVersion (entries.filter fun entry => entry.operationID ≠ operationID))).cell (.operation owner' id) =
        some (v, r) →
      Key.operation owner operationID ≠ .operation owner' id ∧ records.cell (.operation owner' id) = some (v, r) := by
    intro owner' id v r hr
    by_cases hsame : Key.operation owner operationID = .operation owner' id
    · cases hsame
      rw [cell_cleanup_operation] at hr
      cases hr
    · rw [cell_cleanup_of_ne (by simp) hsame (by simp)] at hr
      exact ⟨hsame, hr⟩
  refine ⟨fun owner' id v r hr => h.filed _ _ _ _ (hcases _ _ _ _ hr).2, fun owner' id v r hr => ?_,
    fun owner' id v r hr => ?_, fun owner' other v r hr => ?_, fun owner' shard v others hr => ?_,
    fun owner' shard v others hr entry hmem => ?_⟩
  · obtain ⟨hne, hr⟩ := hcases _ _ _ _ hr
    obtain ⟨w, hw⟩ := h.binding _ _ _ _ hr
    refine ⟨w, (cell_cleanup_of_ne (fun hsame => hne ?_) (by simp) (by simp)).trans hw⟩
    injection hsame with howner hsame
    subst howner
    rw [h.digest_injective hcell hr (hdigest.trans hsame)]
  · obtain ⟨hne, hr⟩ := hcases _ _ _ _ hr
    obtain ⟨w, others, hw, hmem⟩ := h.entry _ _ _ _ hr
    by_cases hsame : Key.index owner (service.operationShard operationID) = .index owner' (service.operationShard id)
    · injection hsame with howner hshard
      subst howner
      rw [← hshard] at hw ⊢
      cases hindex.symm.trans hw
      refine ⟨_, _, cell_cleanup_index, mem_filter.mpr ⟨hmem, decide_eq_true fun hid => hne ?_⟩⟩
      exact congrArg _ (hid.symm.trans (h.filed _ _ _ _ hr).id)
    · exact ⟨w, others, (cell_cleanup_of_ne (by simp) (by simp) hsame).trans hw, hmem⟩
  · by_cases hsame : Key.idempotency owner digest = .idempotency owner' other
    · cases hsame
      rw [cell_cleanup_idempotency] at hr
      cases hr
    · rw [cell_cleanup_of_ne hsame (by simp) (by simp)] at hr
      obtain ⟨w, r', hr', hd⟩ := h.owned _ _ _ _ hr
      refine ⟨w, r', (cell_cleanup_of_ne (by simp) (fun hop => hsame ?_) (by simp)).trans hr', hd⟩
      injection hop with howner hid
      rw [← hid, ← howner, hcell] at hr'
      cases hr'
      rw [howner, ← hdigest, hd]
  · by_cases hsame : Key.index owner (service.operationShard operationID) = .index owner' shard
    · cases hsame
      rw [cell_cleanup_index] at hr
      cases hr
      exact valid_filter (h.index _ _ _ _ hindex) _
    · rw [cell_cleanup_of_ne (by simp) (by simp) hsame] at hr
      exact h.index _ _ _ _ hr
  · by_cases hsame : Key.index owner (service.operationShard operationID) = .index owner' shard
    · cases hsame
      rw [cell_cleanup_index] at hr
      cases hr
      obtain ⟨hmem, hid⟩ := mem_filter.mp hmem
      obtain ⟨hshard, w, r, hr, he⟩ := h.indexed _ _ _ _ hindex entry hmem
      refine ⟨hshard, w, r, (cell_cleanup_of_ne (by simp) (fun hop => of_decide_eq_true hid ?_) (by simp)).trans hr, he⟩
      injection hop with _ hop
      exact hop.symm
    · rw [cell_cleanup_of_ne (by simp) (by simp) hsame] at hr
      obtain ⟨hshard, w, r, hr, he⟩ := h.indexed _ _ _ _ hr entry hmem
      refine ⟨hshard, w, r, (cell_cleanup_of_ne (by simp) (fun hop => hsame ?_) (by simp)).trans hr, he⟩
      injection hop with howner hop
      rw [howner, hop, hshard]

end Bound

theorem CommitSpec.bound {service : Service} {before : Records} {label : Option Label} {changes : List RecordChange}
    (h : CommitSpec service before label changes) (hbound : Bound service before) :
      Bound service (before.commit changes) := by
  cases h with
  | claim hfiled _ hstored hlength hadmits => exact hbound.add hfiled hstored hlength hadmits
  | takeover hcell hmay =>
    exact hbound.replace hcell ((hbound.filed _ _ _ _ hcell).takenOver hmay) rfl rfl
  | @finish _ _ _ record item now resolution hcell _ _ hnow _ =>
    refine hbound.replace hcell ((hbound.filed _ _ _ _ hcell).finished hnow item resolution) ?_ ?_
    · cases resolution <;> rfl
    · cases resolution <;> rfl
  | cleanup hcell hdigest hindex => exact hbound.remove hcell hdigest hindex

theorem bound_of_history {service : Service} {log : List Entry} {records : Records}
    (h : Conc.History (CommitSpec service) log records) : Bound service records :=
  h.invariant .empty fun _ _ _ hspec => hspec.bound

end EndlessFS.Preview
