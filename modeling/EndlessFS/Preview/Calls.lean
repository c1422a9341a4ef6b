import EndlessFS.Preview.History

/-!
# EndlessFS.Preview.Calls

Every call of the preview service commits only transactions as specified (`CommitSpec`), whatever happens
between its operations.

* `Claimed`: what a call knows of an operation it has claimed; the record is as the claim wrote it if it still
  has the version of the claim.
* `Recorded`: one rule per program.
* `history_of_reachable`: the rule for whole runs.
-/

namespace EndlessFS.Preview

open Conc (Versioned Yields Reading Ledger History)
open Identity (UserID reject)

variable {ok : State → Conc.LedgerChoice → Conc.LedgerOp Key Record Label → Prop} {α β : Type} {service : Service}
  {replica : Nat} {owner : UserID}

/-- The program commits transactions as specified only; `φ` holds of its result. -/
abbrev Recorded (service : Service) (ok : State → Conc.LedgerChoice → Conc.LedgerOp Key Record Label → Prop)
    (φ : State → α → Prop) (a : Request α) (s : State) : Prop :=
  Conc.Logged (fun _ => false) (CommitSpec service) ok φ a s

abbrev Knows (service : Service) (replica : Nat) (s : State) (key : Key) (r : Reading (Record key)) : Prop :=
  Ledger.Knows (CommitSpec service) replica s key r

variable {operationID : String}

theorem Knows.filed {s : State} {r : Reading OperationRecord}
    (h : Knows service replica s (.operation owner operationID) r) : Filed service owner operationID r.value := by
  obtain ⟨log, records, hhistory, _, hcell⟩ := h.source
  exact (bound_of_history hhistory).filed _ _ _ _ hcell

structure OperationIndexSnapshot.Loaded (index : OperationIndexSnapshot) (s : State) (owner : UserID) (shard : Nat) :
    Prop where
  absent : index.version = none → index.entries = []
  seen : ∀ version, index.version = some version → s.records.Seen (.index owner shard) version index.entries

/-- The operation was claimed: it is running, with a valid record that the claim wrote. -/
structure Claimed (service : Service) (replica : Nat) (owner : UserID) (s : State) (claim : OperationClaim) : Prop where
  seen : s.records.Seen (.operation owner claim.record.operation.id) claim.version claim.record
  valid : validOperationRecord service claim.record owner claim.record.operation.id = true
  running : claim.record.operation.state = .running
  updated : claim.record.operation.updatedAt ≤ s.clock replica + 1

variable {claim : OperationClaim}

theorem Claimed.mono {s t : State} (h : Claimed service replica owner s claim) (hle : Ledger.Le s t) :
    Claimed service replica owner t claim where
  seen := h.seen.mono hle.records
  valid := h.valid
  running := h.running
  updated := Nat.le_trans h.updated (Nat.succ_le_succ (hle.clock replica))

namespace Recorded

variable {φ : State → α → Prop} {ψ : State → β → Prop} {s : State}

theorem bind {a : Request α} {f : α → Request β} (ha : Recorded service ok φ a s)
    (hf : ∀ t x, Ledger.Le s t → φ t x → Recorded service ok ψ (f x) t) : Recorded service ok ψ (a >>= f) s :=
  Yields.bind ha fun t x hle _ hx => hf t x hle hx

theorem done {x : α} : Recorded service ok (fun _ _ => True) (pure x : Request α) s := .pure fun _ _ _ => trivial

theorem lookup {key : Key} : Recorded service ok (fun t found => ∀ r, found = some r → Knows service replica t key r)
    (Preview.lookup replica key) s := by
  refine .get fun t reply x _ hknows hx r hr => ?_
  cases reply with
  | none => cases hx
  | some found =>
    cases hx
    exact hknows r (congrArg some hr)

theorem clockNow : Recorded service ok (fun t now => s.clock replica + 1 ≤ now ∧ now ≤ t.clock replica + 1 ∧ 0 < now)
    (Preview.clockNow replica) s := by
  refine .now fun t time x _ hs ht hx => ?_
  cases hx
  exact ⟨Nat.succ_le_succ hs, Nat.succ_le_succ ht, Nat.succ_pos _⟩

theorem drawID : Recorded service ok (fun _ text => text ≠ "") Preview.drawID s := by
  refine .draw fun t text x _ hx => ?_
  split at hx
  · cases hx
  · cases hx
    assumption

theorem mutate {label : Label} {changes : List RecordChange}
    (h : ∀ t : State, Ledger.Le s t → t.records.admits changes = true →
      CommitSpec service t.records (some label) changes) :
    Recorded service ok (fun u version => ∀ v, version = some v → ∃ t : State, Ledger.Le s t ∧ Ledger.Le t u ∧
      v = t.records.next ∧ Ledger.Le (t.commit (some label) changes) u) (Preview.mutate label changes) s := by
  refine .transact (fun t hle _ => h t hle) fun t u outcome x hst htu hcommitted hx v hv => ?_
  rcases outcome with version | _ | _
  · cases hx
    cases hv
    exact ⟨t, hst, htu, hcommitted v rfl⟩
  · cases hx
  · cases hx

theorem readOperation : Recorded service ok (fun t r => Knows service replica t (.operation owner operationID) r ∧
      validOperationRecord service r.value owner operationID =
        true) (Preview.readOperation service replica owner operationID) s := by
  refine bind lookup fun t found _ hfound => ?_
  cases found with
  | none => exact .throw
  | some r =>
    refine reject fun hvalid => .pure fun u hle _ => ⟨(hfound r rfl).mono hle, ?_⟩
    simpa using hvalid

theorem loadOperationIndex : Recorded service ok (fun t index =>
      index.Loaded t owner (service.operationShard operationID))
      (Preview.loadOperationIndex service replica owner operationID) s := by
  refine bind lookup fun t found _ hfound => ?_
  cases found with
  | none => exact .pure fun _ _ _ => ⟨fun _ => rfl, fun _ h => nomatch h⟩
  | some r =>
    refine reject fun _ => .pure fun u hle _ => ⟨fun h => (nomatch h), fun v hv => ?_⟩
    cases hv
    exact ((hfound r rfl).mono hle).seen

/-! ## Cleanup -/

variable {digest : String} {idempotency : Reading IdempotencyRecord}

theorem cleanupExpiredPreviewBinding :
    Recorded service ok (fun _ _ => True) (Preview.cleanupExpiredPreviewBinding service replica owner digest
      idempotency) s := by
  refine bind lookup fun t found _ hfound => ?_
  cases found with
  | none => exact .throw
  | some operation =>
    refine reject fun _ => reject fun hdigest => bind loadOperationIndex fun u index htu hindex => ?_
    obtain ⟨entries, version⟩ := index
    cases version with
    | none => exact .throw
    | some indexVersion =>
      refine .except_bind fun retained hretained => ?_
      refine bind (mutate fun w huw hadmits => ?_) fun _ _ _ _ => done
      obtain rfl := retainedEntries_eq hretained
      have hoperation : w.records.cell (.operation owner idempotency.value.operationID) =
          some (operation.version, operation.value) :=
        (hfound operation rfl).seen w.records (htu.trans huw).records (Versioned.version_of_admits hadmits
          (show deleteRecord (.operation owner idempotency.value.operationID) operation.version ∈
            _ by simp [cleanupChanges]))
      have hshard : w.records.cell (.index owner (service.operationShard idempotency.value.operationID)) =
          some (indexVersion, entries) :=
        hindex.seen indexVersion rfl w.records huw.records (Versioned.version_of_admits hadmits
          (show setRecord (.index owner (service.operationShard idempotency.value.operationID)) indexVersion
            (entries.filter fun entry => entry.operationID ≠ idempotency.value.operationID) ∈
              _ by simp [cleanupChanges]))
      exact .cleanup hoperation (by simpa using hdigest) hshard

variable {now : Time}

theorem cleanupExpiredOperationIndex {index : OperationIndexSnapshot} :
    Recorded service ok (fun _ _ => True) (Preview.cleanupExpiredOperationIndex service replica owner index now) s := by
  unfold Preview.cleanupExpiredOperationIndex
  split
  · exact done
  · refine bind lookup fun t found _ _ => ?_
    cases found with
    | none => exact .throw
    | some idempotency => exact reject fun _ => cleanupExpiredPreviewBinding

/-! ## Claims -/

theorem claimExistingOperation : Recorded service ok (fun t claim => claim.claimed = true →
      Claimed service replica owner t claim)
      (Preview.claimExistingOperation service replica owner digest idempotency) s := by
  refine bind clockNow fun t now _ hnow => ?_
  split
  · refine bind (.attempt cleanupExpiredPreviewBinding) fun _ r _ _ => ?_
    cases r with
    | ok _ => exact .throw
    | error e =>
      dsimp only
      split <;> exact .throw
  · rename_i hexpired
    refine bind readOperation fun u found htu hfound => reject fun hsame => ?_
    obtain ⟨hknows, hvalid⟩ := hfound
    have hfiled := hknows.filed
    have hid := hfiled.id
    split
    · exact .pure fun _ _ _ h => by cases h
    · rename_i hidle
      -- the lease is over and the record is as the idempotency record says
      have hmay : MayTakeOver service owner idempotency.value.operationID found.value now := by
        simp only [Bool.or_eq_false_iff, decide_eq_false_iff_not, not_not] at hsame
        obtain ⟨hrunning, hlease⟩ := not_or.mp hidle
        exact ⟨hvalid, not_not.mp hrunning, Nat.le_of_not_lt hlease, by rw [hsame.2]; exact Nat.lt_of_not_le hexpired⟩
      refine bind (.attempt (mutate fun w huw hadmits => ?_)) fun w r huw hcommitted => ?_
      · refine .takeover ?_ hmay
        exact hknows.cell huw hadmits (.head _) rfl rfl
      · rcases r with e | _ | version
        · dsimp only
          split
          · exact bind readOperation fun _ _ _ _ => .pure fun _ _ _ h => by cases h
          · exact .throw
        · exact .throw
        · obtain ⟨before, _, hle, rfl, hcommit⟩ := hcommitted _ rfl version rfl
          refine .pure fun x hwx _ _ => ?_
          have hcell : (before.records.commit [setRecord (.operation owner idempotency.value.operationID) found.version
              (takenOver service found.value now)]).cell (.operation owner idempotency.value.operationID) =
                some (before.records.next, takenOver service found.value now) := Bound.cell_set _ _
          have hvalid' := hfiled.takenOver_valid hmay
          have hrecords := hcommit.records.trans hwx.records
          rw [← hid] at hcell hrecords hvalid'
          refine ⟨(Versioned.Seen.of_cell hcell).mono hrecords, hvalid', hmay.running, ?_⟩
          exact Nat.le_trans hnow.2.1 (Nat.succ_le_succ ((htu.trans (huw.trans hwx)).clock replica))

variable {fingerprint : String}

theorem claimNewOperation (hdigest : service.validSHA256Digest digest = true)
    (hfingerprint : fingerprint ≠ "") (hid : operationID ≠ "") :
    Recorded service ok (fun t r => ∀ claim, r = some claim → Claimed service replica owner t claim)
      (Preview.claimNewOperation service replica owner digest fingerprint operationID) s := by
  refine bind clockNow fun t now _ hnow => bind loadOperationIndex fun u index htu hindex => ?_
  split
  · refine bind (.attempt cleanupExpiredOperationIndex) fun _ r _ _ => ?_
    cases r with
    | ok _ => exact .pure fun _ _ _ _ h => nomatch h
    | error e =>
      dsimp only
      split
      · exact .pure fun _ _ _ _ h => nomatch h
      · exact .throw
  · refine reject fun hfull => ?_
    have hvalid : validOperationRecord service (newRecord service owner digest fingerprint operationID now) owner
        operationID = true :=
      newRecord_valid hdigest hfingerprint hid hnow.2.2
    refine bind (.attempt (mutate fun w huw hadmits => ?_)) fun w r huw hcommitted => ?_
    · refine .claim (newRecord_filed hdigest hfingerprint hid hnow.2.2) hvalid ?_ ?_ hadmits
      · have hversion := Versioned.version_of_admits hadmits (.tail _ (.tail _ (.head _)))
        unfold OperationIndexSnapshot.StoredIn
        cases hv : index.version with
        | none => exact hindex.absent hv
        | some v => exact hindex.seen v hv w.records huw.records (hversion.trans hv)
      · exact Nat.lt_of_not_le (of_decide_eq_false hfull)
    · rcases r with e | _ | version
      · dsimp only
        split
        · exact .pure fun _ _ _ _ h => nomatch h
        · exact .throw
      · exact .throw
      · obtain ⟨before, _, hle, rfl, hcommit⟩ := hcommitted _ rfl version rfl
        refine .pure fun x hwx _ claim hclaim => ?_
        cases hclaim
        refine ⟨(Versioned.Seen.of_cell Bound.cell_claim_operation).mono (hcommit.trans hwx).records, hvalid, rfl, ?_⟩
        exact Nat.le_trans hnow.2.1 (Nat.succ_le_succ ((htu.trans (huw.trans hwx)).clock replica))

theorem claimAttempt (hdigest : service.validSHA256Digest digest = true)
    (hfingerprint : fingerprint ≠ "") (hid : operationID ≠ "") :
    Recorded service ok (fun t r => ∀ claim, r = some claim → claim.claimed = true →
      Claimed service replica owner t claim)
      (Preview.claimAttempt service replica owner digest fingerprint operationID) s := by
  refine bind lookup fun t found _ _ => ?_
  cases found with
  | none => exact (claimNewOperation hdigest hfingerprint hid).weaken fun _ _ _ _ h claim hclaim _ => h claim hclaim
  | some existing =>
    refine reject fun _ => reject fun _ => bind (.attempt claimExistingOperation) fun u r _ hr => ?_
    cases r with
    | ok claim =>
      refine .pure fun v huv _ c hc hclaimed => ?_
      cases hc
      exact (hr claim rfl hclaimed).mono huv
    | error e =>
      dsimp only
      split
      · exact .pure fun _ _ _ _ h => nomatch h
      · exact .throw

theorem claimOperation {idempotencyKey : String} (hfingerprint : fingerprint ≠ "") :
    Recorded service ok (fun t claim => claim.claimed = true → Claimed service replica owner t claim)
      (Preview.claimOperation service replica owner idempotencyKey fingerprint) s := by
  refine bind drawID fun t operationID hst hid => ?_
  generalize 16 = attempts
  induction attempts generalizing t with
  | zero => exact .throw
  | succ attempts ih =>
    refine bind (claimAttempt (service.digest_valid _ _) hfingerprint hid) fun u r htu hr => ?_
    cases r with
    | none => exact ih u (hst.trans htu)
    | some claim =>
      exact .pure fun v huv _ hclaimed => (hr claim rfl hclaimed).mono huv

/-! ## Calls -/

variable {resolution : Resolution}

theorem finishOperation {item : ItemRequest} (hclaim : Claimed service replica owner s claim)
    (hnow : claim.record.operation.updatedAt ≤ now) (hitem : validateItem service item = .ok ()) :
    Recorded service ok (fun _ _ => True) (Preview.finishOperation service replica owner claim item now resolution)
      s := by
  refine bind (.attempt (mutate fun w hsw hadmits => ?_)) fun _ r _ _ => ?_
  · refine .finish ?_ hclaim.valid hclaim.running hnow hitem
    exact hclaim.seen w.records hsw.records (Versioned.version_of_admits hadmits (.head _))
  · cases r with
    | ok _ => exact done
    | error e =>
      dsimp only
      split
      · exact bind readOperation fun _ _ _ _ => done
      · exact .throw

theorem generate {request : GenerateRequest} :
    Recorded service ok (fun _ _ => True) (Preview.generate service replica owner request resolution) s := by
  refine reject fun _ => .except_bind fun _ hitem => bind (claimOperation ?_) fun t claim _ hclaim => ?_
  · intro h
    have := congrArg String.length h
    simp [String.length_append] at this
  · split
    · rename_i hclaimed
      have h := hclaim hclaimed
      exact bind clockNow fun u now htu hnow => finishOperation (h.mono htu) (Nat.le_trans h.updated hnow.1) hitem
    · exact .except fun _ _ _ _ _ => trivial

end Recorded

/-! ## Whole runs -/

theorem Call.keeps_history (call : Call) (s : State) :
    Conc.Safe (M := machine) (fun s : State => History (CommitSpec service) s.log s.records) ok (fun _ _ => True)
      (call.body service) s := by
  have hany : ∀ {α : Type} {a : Request α}, Recorded service ok (fun _ _ => True) a s →
      Conc.Safe (M := machine) (fun s : State => History (CommitSpec service) s.log s.records) ok (fun _ _ => True)
        a.run s :=
    fun h => .weaken h fun _ _ _ _ _ => trivial
  cases call with
  | generate replica owner request resolution => exact hany .generate
  | operation replica owner operationID =>
    exact hany (reject fun _ => Recorded.bind .readOperation fun _ _ _ _ =>
      Recorded.bind .clockNow fun _ _ _ _ => reject fun _ => Recorded.done)
  | cleanup replica owner operationID =>
    exact hany (.bind .loadOperationIndex fun _ _ _ _ =>
      .bind .clockNow fun _ _ _ _ => .cleanupExpiredOperationIndex)

theorem history_of_reachable {cfg : Conc.Config machine Call.Result} (h : Reachable service cfg) :
    History (CommitSpec service) (Ledger.log cfg.state) (Ledger.records cfg.state) := by
  obtain ⟨clock, hr⟩ := h
  exact Conc.reach_history (fun s c => Call.keeps_history c s) (fun _ _ h => nomatch h) hr

end EndlessFS.Preview
