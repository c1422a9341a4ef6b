import EndlessFS.Uploads.Record

/-!
# EndlessFS.Uploads.Drain

The drain of the uploads before a checkpoint closes (`drainExpiredSchema008Uploads`).

* `UploadRuntime`: the lease objects, the lease segments and the provider sessions that were aborted.
* `drainExpiredSchema008Uploads`: every upload record of every namespace, in order.
* `Closing`: records and leases as the upload code writes them.
* `Closing.drain_ok`, `Closing.drain_error`: the drain succeeds if no record blocks it, and then has aborted
  exactly the sessions its records make it abort.
* `Closing.drains_iff_agrees`: when that agrees with the uploads that are really live. The drain reads the
  records without the abort overlays, and an expired batch member's lease only in an object of its own,
  where it never is.
-/

namespace EndlessFS

open List

/-- The transfer backend: its kind, and the session a sealed lease opens. `AbortUpload` fails on a lease it
cannot open, with `NotFound` if the session is gone. -/
structure Transfers (Session : Type) where
  backendKind : String
  openLease : Lease → Except Error Session
  parseUserID : String → Bool

structure UploadRuntime (Session : Type) where
  leases : String → Option Lease
  segments : String → Nat → Option PortableUploadLeaseSegment
  aborted : List Session

variable {Session : Type} (transfers : Transfers Session)

/-- `AbortUpload`, where `NotFound` counts as done. -/
def abortUpload (runtime : UploadRuntime Session) (lease : Lease) : Except Error (UploadRuntime Session) :=
  match transfers.openLease lease with
  | .ok session => .ok { runtime with aborted := session :: runtime.aborted }
  | .error e => if e.kind = .notFound then .ok runtime else .error e

def UploadRuntime.deleteLease (runtime : UploadRuntime Session) (uploadID : String) : UploadRuntime Session :=
  { runtime with leases := Function.update runtime.leases uploadID none }

/-- `runtimeUploadLease`. -/
def runtimeUploadLease (runtime : UploadRuntime Session) (uploadID : String) : Except Error Lease :=
  match runtime.leases uploadID with
  | none => .error (newError .notFound "object not found")
  | some lease => if lease = "" then .error (newError .invalid "empty runtime upload lease") else .ok lease

/-- The segment that holds a member's lease: the last one of the batch, or the member's own if an
admission stopped before the last. -/
def memberSegment (runtime : UploadRuntime Session) (member : PortableUploadBatchMember) :
    Option (Nat × PortableUploadLeaseSegment) :=
  let last := (member.count - 1) / maxUploadLeaseSegmentItems
  let own := member.index / maxUploadLeaseSegmentItems
  match runtime.segments member.batchID last with
  | some segment => some (last, segment)
  | none => (runtime.segments member.batchID own).map fun segment => (own, segment)

def runtimeUploadLeaseForRecord (runtime : UploadRuntime Session) (record : PortableUploadRecord) :
    Except Error Lease :=
  match record.batch with
  | none => runtimeUploadLease runtime record.uploadID
  | some member =>
    match memberSegment runtime member with
    | none => .error (newError .notFound "object not found")
    | some (index, stored) => do
      let segment ← decodePortableUploadLeaseSegment stored transfers.backendKind record.ownerID member.batchID index
      segmentSlot record member segment

/-- The lease of a cancelled batch member, the empty one if there is none: `AbortUpload` is called either way. -/
def cancelledLease (runtime : UploadRuntime Session) (record : PortableUploadRecord) : Except Error Lease :=
  match runtimeUploadLeaseForRecord transfers runtime record with
  | .ok lease => .ok lease
  | .error e => if e.kind = .notFound then .ok "" else .error e

def abortAndDeleteRuntimeUploadLease (runtime : UploadRuntime Session) (uploadID : String) :
    Except Error (UploadRuntime Session) :=
  match runtimeUploadLease runtime uploadID with
  | .error e => if e.kind = .notFound then .ok runtime else .error e
  | .ok lease => do
    let runtime ← abortUpload transfers runtime lease
    pure (runtime.deleteLease uploadID)

/-- `cleanupPortableUploadProviderEffects` with no known lease. -/
def cleanupPortableUploadProviderEffects (record : PortableUploadRecord) (runtime : UploadRuntime Session) :
    Except Error (UploadRuntime Session) :=
  match record.state with
  | .uploadCompleted => if record.batch.isSome then .ok runtime else .ok (runtime.deleteLease record.uploadID)
  | .uploadAborted =>
    if record.batch.isSome then do
      let lease ← cancelledLease transfers runtime record
      abortUpload transfers runtime lease
    else abortAndDeleteRuntimeUploadLease transfers runtime record.uploadID
  | _ => .error (newError .invalid "non-terminal upload requested provider cleanup")

def drainExpired (record : PortableUploadRecord) (runtime : UploadRuntime Session) :
    Except Error (UploadRuntime Session) :=
  match runtime.leases record.uploadID with
  | none => .ok runtime
  | some lease => do
    let runtime ← abortUpload transfers runtime lease
    pure (runtime.deleteLease record.uploadID)

/-- A value under `upload/` of a namespace domain. -/
structure StoredUpload where
  ownerID : String
  key : String
  record : PortableUploadRecord
  deriving DecidableEq

def uploadRecordKey (uploadID : String) : String := "upload/" ++ uploadID

def drainUpload (now : Time) (runtime : UploadRuntime Session) (value : StoredUpload) :
    Except Error (UploadRuntime Session) := do
  let record := value.record
  rejectIf (!(validatePortableUploadRecord record).toBool || record.ownerID ≠ value.ownerID
      || uploadRecordKey record.uploadID ≠ value.key)
    (newError .invalid "invalid portable upload while closing checkpoint")
  if record.cleanupPending then do
    rejectIf (!transfers.parseUserID record.ownerID) (newError .invalid "invalid upload cleanup owner")
    let record ← decodePortableUploadRecord record record.ownerID record.uploadID
    cleanupPortableUploadProviderEffects transfers record runtime
  else if !record.isOpen then .ok runtime
  else if now < record.expiresAt then
    .error (newError .unavailable "active upload capability prevents checkpoint closure")
  else drainExpired transfers record runtime

/-- A namespace domain: its upload records by key, and its abort overlays. -/
structure UploadDomain where
  ownerID : String
  records : List (String × PortableUploadRecord)
  aborts : BatchAborts

def UploadDomain.stored (domain : UploadDomain) : List StoredUpload :=
  domain.records.map fun entry => { ownerID := domain.ownerID, key := entry.1, record := entry.2 }

def drainExpiredSchema008Uploads (now : Time) (domains : List UploadDomain) (runtime : UploadRuntime Session) :
    Except Error (UploadRuntime Session) :=
  domains.foldlM (fun runtime domain => domain.stored.foldlM (drainUpload transfers now) runtime) runtime

/-! ## What a record makes the drain do -/

variable {transfers} {runtime : UploadRuntime Session} {record : PortableUploadRecord} {now : Time}

def StoredLease (transfers : Transfers Session) (runtime : UploadRuntime Session) (record : PortableUploadRecord)
    (lease : Lease) : Prop :=
  runtime.leases record.uploadID = some lease ∨
    record.batch.isSome ∧ runtimeUploadLeaseForRecord transfers runtime record = .ok lease

def Stuck (transfers : Transfers Session) (runtime : UploadRuntime Session) (record : PortableUploadRecord) : Prop :=
  record.cleanupPending = true ∧ record.state = .uploadAborted ∧
    ∃ member, record.batch = some member ∧ memberSegment runtime member = none ∧
      ∃ e, transfers.openLease "" = .error e ∧ e.kind ≠ .notFound

def Unexpired (now : Time) (record : PortableUploadRecord) : Prop := record.isOpen = true ∧ now < record.expiresAt

def Revokes (transfers : Transfers Session) (runtime : UploadRuntime Session) (record : PortableUploadRecord)
    (session : Session) : Prop :=
  ∃ lease, transfers.openLease lease = .ok session ∧
    if record.cleanupPending then
      record.state = .uploadAborted ∧
        if record.batch.isSome then cancelledLease transfers runtime record = .ok lease
        else runtime.leases record.uploadID = some lease
    else record.isOpen = true ∧ runtime.leases record.uploadID = some lease

/-- The record and what is stored for it, as the upload code writes them. -/
structure Bound (transfers : Transfers Session) (runtime : UploadRuntime Session) (value : StoredUpload) : Prop where
  valid : validatePortableUploadRecord value.record = .ok ()
  owner : value.record.ownerID = value.ownerID
  user : transfers.parseUserID value.ownerID = true
  key : value.key = uploadRecordKey value.record.uploadID
  blob : value.record.blobID = value.record.uploadID
  opens : ∀ lease, StoredLease transfers runtime value.record lease → lease ≠ "" ∧
    ∃ session, transfers.openLease lease = .ok session
  /-- A member's slot is bound to its record, and a member has no lease object of its own. -/
  slot : ∀ member, value.record.batch = some member → runtime.leases value.record.uploadID = none ∧
    (memberSegment runtime member = none ∨ ∃ lease, runtimeUploadLeaseForRecord transfers runtime value.record =
      .ok lease)

/-! ### What is stored for another upload does not matter -/

def SameFor (record : PortableUploadRecord) (runtime runtime' : UploadRuntime Session) : Prop :=
  runtime'.leases record.uploadID = runtime.leases record.uploadID ∧ runtime'.segments = runtime.segments

section

variable {runtime' : UploadRuntime Session} (hsame : SameFor record runtime runtime')
include hsame

theorem SameFor.memberSegment (member : PortableUploadBatchMember) :
    memberSegment runtime' member = memberSegment runtime member := by
  simp only [EndlessFS.memberSegment, hsame.2]

theorem SameFor.lease :
    runtimeUploadLeaseForRecord transfers runtime' record = runtimeUploadLeaseForRecord transfers runtime record := by
  unfold runtimeUploadLeaseForRecord
  cases record.batch with
  | none => simp only [runtimeUploadLease, hsame.1]
  | some member => simp only [hsame.memberSegment]

theorem SameFor.stored {lease : Lease} :
    StoredLease transfers runtime' record lease ↔ StoredLease transfers runtime record lease := by
  simp only [StoredLease, hsame.1, hsame.lease]

theorem SameFor.stuck : Stuck transfers runtime' record ↔ Stuck transfers runtime record := by
  simp only [Stuck, hsame.memberSegment]

theorem SameFor.revokes {session : Session} :
    Revokes transfers runtime' record session ↔ Revokes transfers runtime record session := by
  simp only [Revokes, cancelledLease, hsame.1, hsame.lease]

end

theorem Bound.of_same {value : StoredUpload} {runtime' : UploadRuntime Session} (h : Bound transfers runtime value)
    (hsame : SameFor value.record runtime runtime') : Bound transfers runtime' value where
  valid := h.valid
  owner := h.owner
  user := h.user
  key := h.key
  blob := h.blob
  opens lease hlease := h.opens lease (hsame.stored.mp hlease)
  slot member hmember := by
    rw [hsame.1, hsame.memberSegment, hsame.lease]
    exact h.slot member hmember

/-! ### One record -/

structure Drained (transfers : Transfers Session) (record : PortableUploadRecord)
    (runtime result : UploadRuntime Session) : Prop where
  segments : result.segments = runtime.segments
  leases : ∀ uploadID, uploadID ≠ record.uploadID → result.leases uploadID = runtime.leases uploadID
  aborted : ∀ session, session ∈ result.aborted ↔ session ∈ runtime.aborted ∨ Revokes transfers runtime record session

variable {session : Session}

theorem abortUpload_opens {lease : Lease} (h : transfers.openLease lease = .ok session) :
    abortUpload transfers runtime lease = .ok { runtime with aborted := session :: runtime.aborted } := by
  simp [abortUpload, h]

variable {result : UploadRuntime Session}

theorem Drained.idle (hsegments : result.segments = runtime.segments)
    (hleases : ∀ uploadID, uploadID ≠ record.uploadID → result.leases uploadID = runtime.leases uploadID)
    (haborted : result.aborted = runtime.aborted) (hidle : ∀ session, ¬Revokes transfers runtime record session) :
    Drained transfers record runtime result :=
  ⟨hsegments, hleases, fun session => by simp [haborted, hidle session]⟩

theorem Drained.revoke {revoked : Session} (hsegments : result.segments = runtime.segments)
    (hleases : ∀ uploadID, uploadID ≠ record.uploadID → result.leases uploadID = runtime.leases uploadID)
    (haborted : result.aborted = revoked :: runtime.aborted)
    (honly : ∀ session, Revokes transfers runtime record session ↔ session = revoked) :
    Drained transfers record runtime result :=
  ⟨hsegments, hleases, fun session => by rw [haborted, mem_cons, honly, or_comm]⟩

theorem deleteLease_other {uploadID : String} (h : uploadID ≠ record.uploadID) :
    (runtime.deleteLease record.uploadID).leases uploadID = runtime.leases uploadID :=
  Function.update_of_ne h _ _

variable {value : StoredUpload} (hbound : Bound transfers runtime value)
  (hempty : ∀ session, transfers.openLease "" ≠ .ok session)

theorem own_revoked (hopens : ∀ lease, runtime.leases record.uploadID = some lease →
      ∃ session, transfers.openLease lease = .ok session)
    (hrevokes : ∀ session, Revokes transfers runtime record session ↔
      ∃ lease, transfers.openLease lease = .ok session ∧ runtime.leases record.uploadID = some lease) :
    ∃ result, drainExpired transfers record runtime = .ok result ∧ Drained transfers record runtime result := by
  unfold drainExpired
  cases hlease : runtime.leases record.uploadID with
  | none =>
    exact ⟨runtime, rfl, .idle rfl (fun _ _ => rfl) rfl fun session h => by simp [hrevokes, hlease] at h⟩
  | some lease =>
    obtain ⟨revoked, hrevoked⟩ := hopens lease hlease
    refine ⟨({ runtime with aborted := revoked :: runtime.aborted }).deleteLease record.uploadID, ?_, ?_⟩
    · simp only [abortUpload_opens hrevoked, Except.ok_bind, Except.pure_eq_ok]
    · refine .revoke rfl (fun _ => deleteLease_other) rfl fun session => ?_
      simp only [hrevokes, hlease, Option.some.injEq, exists_eq_right', hrevoked, Except.ok.injEq, eq_comm]

include hbound in
theorem abortAndDelete_eq :
    abortAndDeleteRuntimeUploadLease transfers runtime value.record.uploadID =
      drainExpired transfers value.record runtime := by
  unfold abortAndDeleteRuntimeUploadLease drainExpired runtimeUploadLease
  cases hlease : runtime.leases value.record.uploadID with
  | none => simp [newError]
  | some lease => simp [(hbound.opens lease (.inl hlease)).1]

include hbound hempty in
theorem cancelled_drained (hcleanup : value.record.cleanupPending = true) (hstate : value.record.state = .uploadAborted)
    (hbatch : value.record.batch.isSome) (hfree : ¬Stuck transfers runtime value.record) :
    ∃ result, (cancelledLease transfers runtime value.record >>= abortUpload transfers runtime) = .ok result ∧
      Drained transfers value.record runtime result := by
  obtain ⟨member, hmember⟩ := Option.isSome_iff_exists.mp hbatch
  rcases (hbound.slot member hmember).2 with hnone | ⟨lease, hlease⟩
  · -- no segment: the backend is asked to abort the empty lease
    have hcancelled : cancelledLease transfers runtime value.record = .ok "" := by
      simp [cancelledLease, runtimeUploadLeaseForRecord, hmember, hnone, newError]
    cases hopen : transfers.openLease "" with
    | ok session => exact absurd hopen (hempty session)
    | error e =>
      have hkind : e.kind = .notFound := by
        by_contra hkind
        exact hfree ⟨hcleanup, hstate, member, hmember, hnone, e, hopen, hkind⟩
      refine ⟨runtime, by simp [hcancelled, abortUpload, hopen, hkind],
        .idle rfl (fun _ _ => rfl) rfl fun session h => ?_⟩
      simp [Revokes, hcleanup, hstate, hbatch, hcancelled, hempty] at h
  · have hcancelled : cancelledLease transfers runtime value.record = .ok lease := by simp [cancelledLease, hlease]
    obtain ⟨_, revoked, hrevoked⟩ := hbound.opens lease (.inr ⟨hbatch, hlease⟩)
    refine ⟨{ runtime with aborted := revoked :: runtime.aborted }, ?_, ?_⟩
    · rw [hcancelled, Except.ok_bind, abortUpload_opens hrevoked]
    refine .revoke rfl (fun _ _ => rfl) rfl fun session => ?_
    simp only [Revokes, hcleanup, if_true, hstate, true_and, hbatch, hcancelled, Except.ok.injEq,
      exists_eq_right', hrevoked, eq_comm]

include hbound in
theorem drainUpload_eq : drainUpload transfers now runtime value =
    if value.record.cleanupPending then cleanupPortableUploadProviderEffects transfers value.record runtime
    else if !value.record.isOpen then .ok runtime else if now < value.record.expiresAt then
      .error (newError .unavailable "active upload capability prevents checkpoint closure")
    else drainExpired transfers value.record runtime := by
  have hvalid : (validatePortableUploadRecord value.record).toBool = true := by rw [hbound.valid]; rfl
  simp [drainUpload, decodePortableUploadRecord, hvalid, hbound.owner, hbound.user, hbound.key, hbound.blob, rejectIf]

include hbound hempty in
theorem drainUpload_drains (hunexpired : ¬Unexpired now value.record) (hfree : ¬Stuck transfers runtime value.record) :
    ∃ result, drainUpload transfers now runtime value = .ok result ∧ Drained transfers value.record runtime result := by
  have hown : ∀ lease, runtime.leases value.record.uploadID = some lease → ∃ session, transfers.openLease lease =
      .ok session :=
    fun lease hlease => (hbound.opens lease (.inl hlease)).2
  rw [drainUpload_eq hbound]
  cases hcleanup : value.record.cleanupPending with
  | true =>
    unfold cleanupPortableUploadProviderEffects
    have hclosed := cleanup_of_valid hbound.valid hcleanup
    cases hstate : value.record.state with
    | uploadInitializing => simp [PortableUploadRecord.isOpen, hstate] at hclosed
    | uploadActive => simp [PortableUploadRecord.isOpen, hstate] at hclosed
    | uploadCompleted =>
      have hidle : ∀ session, ¬Revokes transfers runtime value.record session := by simp [Revokes, hcleanup, hstate]
      by_cases hbatch : value.record.batch.isSome
      · exact ⟨runtime, by simp [hbatch], .idle rfl (fun _ _ => rfl) rfl hidle⟩
      · exact ⟨runtime.deleteLease value.record.uploadID, by simp [hbatch],
          .idle rfl (fun _ => deleteLease_other) rfl hidle⟩
    | uploadAborted =>
      by_cases hbatch : value.record.batch.isSome
      · simpa [hbatch] using cancelled_drained hbound hempty hcleanup hstate hbatch hfree
      · have hsingle : value.record.batch = none := by simpa using hbatch
        simp only [if_true, hbatch, abortAndDelete_eq hbound]
        exact own_revoked hown fun session => by simp [Revokes, hcleanup, hstate, hsingle]
  | false =>
    cases hopen : value.record.isOpen with
    | false => exact ⟨runtime, by simp, .idle rfl (fun _ _ => rfl) rfl (by simp [Revokes, hcleanup, hopen])⟩
    | true =>
      have htime : ¬now < value.record.expiresAt := fun h => hunexpired ⟨hopen, h⟩
      simp only [Bool.not_true, htime, if_false, Bool.false_eq_true]
      exact own_revoked hown fun session => by simp [Revokes, hcleanup, hopen]

include hbound in
theorem drainUpload_blocked (h : Unexpired now value.record ∨ Stuck transfers runtime value.record) :
    ∃ e, drainUpload transfers now runtime value = .error e := by
  rw [drainUpload_eq hbound]
  rcases h with ⟨hopen, htime⟩ | ⟨hcleanup, hstate, member, hmember, hnone, e, hopen, hkind⟩
  · have hcleanup : value.record.cleanupPending = false := by
      by_contra hcleanup
      rw [cleanup_of_valid hbound.valid (by simpa using hcleanup)] at hopen
      cases hopen
    exact ⟨_, by simp [hcleanup, hopen, htime]; rfl⟩
  · refine ⟨e, ?_⟩
    simp [hcleanup, cleanupPortableUploadProviderEffects, hstate, hmember, cancelledLease, runtimeUploadLeaseForRecord,
      hnone, newError, abortUpload, hopen, hkind]

/-! ### The whole drain -/

variable {values : List StoredUpload}

theorem Drained.sameFor (h : Drained transfers value.record runtime result)
    (hdistinct : ((value :: values).map fun v => v.record.uploadID).Nodup) {other : StoredUpload}
    (hother : other ∈ values) :
    SameFor other.record runtime result := by
  rw [map_cons, nodup_cons] at hdistinct
  refine ⟨h.leases _ fun e => hdistinct.1 ?_, h.segments⟩
  exact e ▸ mem_map_of_mem hother

theorem drained_run (hempty : ∀ session, transfers.openLease "" ≠ .ok session)
    (hdistinct : (values.map fun v => v.record.uploadID).Nodup) (hbound : ∀ v ∈ values, Bound transfers runtime v)
    (hfree : ∀ v ∈ values, ¬Unexpired now v.record ∧ ¬Stuck transfers runtime v.record) :
    ∃ result, values.foldlM (drainUpload transfers now) runtime = .ok result ∧ ∀ session, session ∈ result.aborted ↔
        session ∈ runtime.aborted ∨ ∃ v ∈ values, Revokes transfers runtime v.record session := by
  induction values generalizing runtime with
  | nil => exact ⟨runtime, rfl, by simp⟩
  | cons v rest ih =>
    obtain ⟨hunexpired, hstuck⟩ := hfree v (.head _)
    obtain ⟨next, hnext, hdrained⟩ := drainUpload_drains (hbound v (.head _)) hempty hunexpired hstuck
    have hsame : ∀ w ∈ rest, SameFor w.record runtime next := fun w hw => hdrained.sameFor hdistinct hw
    obtain ⟨result, hresult, haborted⟩ := ih (nodup_cons.mp hdistinct).2
      (fun w hw => (hbound w (.tail _ hw)).of_same (hsame w hw))
      fun w hw => ⟨(hfree w (.tail _ hw)).1, (hsame w hw).stuck.not.mpr (hfree w (.tail _ hw)).2⟩
    refine ⟨result, by rw [foldlM_cons, hnext]; exact hresult, fun session => ?_⟩
    have hrest : (∃ w ∈ rest, Revokes transfers next w.record session) ↔
        ∃ w ∈ rest, Revokes transfers runtime w.record session :=
      exists_congr fun w => and_congr_right fun hw => (hsame w hw).revokes
    rw [haborted, hdrained.aborted, hrest, exists_mem_cons_iff, or_assoc]

theorem blocked_run (hempty : ∀ session, transfers.openLease "" ≠ .ok session)
    (hdistinct : (values.map fun v => v.record.uploadID).Nodup) (hbound : ∀ v ∈ values, Bound transfers runtime v)
    (hblocked : ∃ v ∈ values, Unexpired now v.record ∨ Stuck transfers runtime v.record) :
    ∃ e, values.foldlM (drainUpload transfers now) runtime = .error e := by
  induction values generalizing runtime with
  | nil => simp at hblocked
  | cons v rest ih =>
    have hhead := hbound v (.head _)
    by_cases hfirst : Unexpired now v.record ∨ Stuck transfers runtime v.record
    · obtain ⟨e, he⟩ := drainUpload_blocked hhead hfirst
      exact ⟨e, by rw [foldlM_cons, he]; rfl⟩
    · rw [not_or] at hfirst
      obtain ⟨next, hnext, hdrained⟩ := drainUpload_drains hhead hempty hfirst.1 hfirst.2
      have hsame : ∀ w ∈ rest, SameFor w.record runtime next := fun w hw => hdrained.sameFor hdistinct hw
      obtain ⟨w, hw, hblocks⟩ := hblocked
      rcases mem_cons.mp hw with rfl | hw
      · exact absurd hblocks (not_or.mpr hfirst)
      · obtain ⟨e, he⟩ := ih (nodup_cons.mp hdistinct).2 (fun w hw => (hbound w (.tail _ hw)).of_same (hsame w hw))
          ⟨w, hw, hblocks.imp_right (hsame w hw).stuck.mpr⟩
        exact ⟨e, by rw [foldlM_cons, hnext]; exact he⟩

theorem drainExpiredSchema008Uploads_eq (domains : List UploadDomain) :
    drainExpiredSchema008Uploads transfers now domains runtime =
      (domains.flatMap UploadDomain.stored).foldlM (drainUpload transfers now) runtime := by
  unfold drainExpiredSchema008Uploads
  induction domains generalizing runtime with
  | nil => rfl
  | cons domain rest ih =>
    rw [foldlM_cons, flatMap_cons, foldlM_append]
    exact congrArg _ (funext fun runtime => ih)

/-- The namespaces and the leases a drain finds, as the upload code writes them: upload IDs are fresh, and
no session is stored for two uploads. -/
structure Closing (transfers : Transfers Session) where
  domains : List UploadDomain
  runtime : UploadRuntime Session
  bound : ∀ value ∈ domains.flatMap UploadDomain.stored, Bound transfers runtime value
  distinct : ((domains.flatMap UploadDomain.stored).map fun value => value.record.uploadID).Nodup
  empty : ∀ session, transfers.openLease "" ≠ .ok session
  sessions : ∀ value ∈ domains.flatMap UploadDomain.stored, ∀ value' ∈ domains.flatMap UploadDomain.stored,
    ∀ lease lease' session, StoredLease transfers runtime value.record lease → transfers.openLease lease = .ok session →
      StoredLease transfers runtime value'.record lease' → transfers.openLease lease' = .ok session → value = value'

namespace Closing

variable (closing : Closing transfers) (now)

def uploads : List (BatchAborts × PortableUploadRecord) :=
  closing.domains.flatMap fun domain => domain.records.map fun entry => (domain.aborts, entry.2)

def drain : Except Error (UploadRuntime Session) :=
  drainExpiredSchema008Uploads transfers now closing.domains closing.runtime

def SomeLive : Prop := ∃ u ∈ closing.uploads, (u.2.underAbort u.1).isOpen = true ∧ now < u.2.expiresAt

/-- The drain succeeds exactly if no upload is live, and then every upload that is open past its time has
had its session aborted. -/
def DrainsLive : Prop :=
  ((∃ result, closing.drain now = .ok result) ↔ ¬closing.SomeLive now) ∧
    ∀ result, closing.drain now = .ok result → ∀ u ∈ closing.uploads, (u.2.underAbort u.1).isOpen = true →
      u.2.expiresAt ≤ now → ∀ lease session, StoredLease transfers closing.runtime u.2 lease →
        transfers.openLease lease = .ok session → session ∈ result.aborted

def SomeBlocking : Prop :=
  ∃ u ∈ closing.uploads, Unexpired now u.2 ∨ Stuck transfers closing.runtime u.2

/-- No record stops the drain but where an upload is live, and where none does, no open batch member holds a
session that is not aborted yet. -/
structure Agrees : Prop where
  blocking : closing.SomeBlocking now → closing.SomeLive now
  members : ¬closing.SomeBlocking now → ∀ u ∈ closing.uploads, (u.2.underAbort u.1).isOpen = true → u.2.batch.isSome →
    ∀ lease session, StoredLease transfers closing.runtime u.2 lease → transfers.openLease lease = .ok session →
      session ∈ closing.runtime.aborted

variable {closing now} {u : BatchAborts × PortableUploadRecord}

theorem exists_stored (hu : u ∈ closing.uploads) :
    ∃ value ∈ closing.domains.flatMap UploadDomain.stored, value.record = u.2 := by
  simp only [uploads, mem_flatMap, mem_map] at hu
  obtain ⟨domain, hdomain, entry, hentry, rfl⟩ := hu
  exact ⟨_, mem_flatMap.mpr ⟨domain, hdomain, mem_map_of_mem hentry⟩, rfl⟩

theorem exists_upload {value : StoredUpload} (hvalue : value ∈ closing.domains.flatMap UploadDomain.stored) :
    ∃ u ∈ closing.uploads, u.2 = value.record := by
  simp only [UploadDomain.stored, mem_flatMap, mem_map] at hvalue
  obtain ⟨domain, hdomain, entry, hentry, rfl⟩ := hvalue
  exact ⟨_, mem_flatMap.mpr ⟨domain, hdomain, mem_map_of_mem hentry⟩, rfl⟩

theorem SomeLive.blocking (h : closing.SomeLive now) : closing.SomeBlocking now := by
  obtain ⟨u, hu, hopen, htime⟩ := h
  rw [isOpen_underAbort, Bool.and_eq_true] at hopen
  exact ⟨u, hu, .inl ⟨hopen.1, htime⟩⟩

theorem drain_ok (h : ¬closing.SomeBlocking now) :
    ∃ result, closing.drain now = .ok result ∧ ∀ session, session ∈ result.aborted ↔
      session ∈ closing.runtime.aborted ∨ ∃ u ∈ closing.uploads, Revokes transfers closing.runtime u.2 session := by
  have hfree : ∀ value ∈ closing.domains.flatMap UploadDomain.stored,
      ¬Unexpired now value.record ∧ ¬Stuck transfers closing.runtime value.record := by
    intro value hvalue
    obtain ⟨u, hu, hrecord⟩ := exists_upload hvalue
    rw [← hrecord, ← not_or]
    exact fun hblocks => h ⟨u, hu, hblocks⟩
  obtain ⟨result, hresult, haborted⟩ := drained_run closing.empty closing.distinct closing.bound hfree
  refine ⟨result, by rw [drain, drainExpiredSchema008Uploads_eq]; exact hresult, fun session => ?_⟩
  rw [haborted]
  refine or_congr_right ⟨?_, ?_⟩
  · rintro ⟨value, hvalue, hrevokes⟩
    obtain ⟨u, hu, hrecord⟩ := exists_upload hvalue
    exact ⟨u, hu, hrecord ▸ hrevokes⟩
  · rintro ⟨u, hu, hrevokes⟩
    obtain ⟨value, hvalue, hrecord⟩ := exists_stored hu
    exact ⟨value, hvalue, hrecord ▸ hrevokes⟩

theorem drain_error (h : closing.SomeBlocking now) : ∃ e, closing.drain now = .error e := by
  obtain ⟨u, hu, hblocks⟩ := h
  obtain ⟨value, hvalue, hrecord⟩ := exists_stored hu
  rw [drain, drainExpiredSchema008Uploads_eq]
  exact blocked_run closing.empty closing.distinct closing.bound ⟨value, hvalue, hrecord ▸ hblocks⟩

theorem drain_ok_iff : (∃ result, closing.drain now = .ok result) ↔ ¬closing.SomeBlocking now := by
  refine ⟨fun ⟨result, hresult⟩ h => ?_, fun h => ?_⟩
  · obtain ⟨e, he⟩ := drain_error h
    rw [hresult] at he
    cases he
  · obtain ⟨result, hresult, _⟩ := drain_ok h
    exact ⟨result, hresult⟩

theorem open_pending (hu : u ∈ closing.uploads) (hopen : u.2.isOpen = true) : u.2.cleanupPending = false := by
  obtain ⟨value, hvalue, hrecord⟩ := exists_stored hu
  by_contra hcleanup
  rw [cleanup_of_valid (hrecord ▸ (closing.bound value hvalue).valid) (by simpa using hcleanup)] at hopen
  cases hopen

theorem member_slot (hu : u ∈ closing.uploads) (hbatch : u.2.batch.isSome) :
    closing.runtime.leases u.2.uploadID = none := by
  obtain ⟨value, hvalue, hrecord⟩ := exists_stored hu
  obtain ⟨member, hmember⟩ := Option.isSome_iff_exists.mp hbatch
  exact hrecord ▸ ((closing.bound value hvalue).slot member (hrecord ▸ hmember)).1

theorem Revokes.stored (h : Revokes transfers closing.runtime u.2 session) :
    ∃ lease, StoredLease transfers closing.runtime u.2 lease ∧ transfers.openLease lease = .ok session := by
  obtain ⟨lease, hopens, h⟩ := h
  refine ⟨lease, ?_, hopens⟩
  split at h
  · obtain ⟨_, h⟩ := h
    split at h
    · rename_i hbatch
      refine .inr ⟨hbatch, ?_⟩
      unfold cancelledLease at h
      split at h
      · rename_i hlease
        rw [hlease, h]
      · -- no lease was found, and the empty one opens no session
        split_ifs at h
        cases h
        exact absurd hopens (closing.empty session)
    · exact .inl h
  · exact .inl h.2

theorem member_kept {u' : BatchAborts × PortableUploadRecord} (hu : u ∈ closing.uploads) (hu' : u' ∈ closing.uploads)
    (hopen : u.2.isOpen = true) (hbatch : u.2.batch.isSome) {lease : Lease}
    (hlease : StoredLease transfers closing.runtime u.2 lease) (hopens : transfers.openLease lease = .ok session) :
    ¬Revokes transfers closing.runtime u'.2 session := by
  intro hrevokes
  obtain ⟨lease', hlease', hopens'⟩ := Revokes.stored hrevokes
  obtain ⟨value, hvalue, hrecord⟩ := exists_stored hu
  obtain ⟨value', hvalue', hrecord'⟩ := exists_stored hu'
  have hsame : value = value' := closing.sessions value hvalue value' hvalue' lease lease' session
    (hrecord ▸ hlease) hopens (hrecord' ▸ hlease') hopens'
  have hrecords : u'.2 = u.2 := by rw [← hrecord, ← hrecord', hsame]
  rw [hrecords] at hrevokes
  obtain ⟨_, _, hrevokes⟩ := hrevokes
  simp [open_pending hu hopen, member_slot hu hbatch] at hrevokes

theorem drains_iff_agrees (closing : Closing transfers) (now : Time) : closing.DrainsLive now ↔ closing.Agrees now := by
  constructor
  · rintro ⟨hsucceeds, haborted⟩
    rw [drain_ok_iff, not_iff_not] at hsucceeds
    refine ⟨hsucceeds.mp, fun hfree u hu hopen hbatch lease session hlease hopens => ?_⟩
    obtain ⟨result, hresult, hsessions⟩ := drain_ok hfree
    have hrecord : u.2.isOpen = true := by
      rw [isOpen_underAbort, Bool.and_eq_true] at hopen
      exact hopen.1
    have htime : u.2.expiresAt ≤ now := not_lt.mp fun htime => hfree ⟨u, hu, .inl ⟨hrecord, htime⟩⟩
    rcases (hsessions session).mp (haborted result hresult u hu hopen htime lease session hlease hopens) with h | ⟨u',
      hu', h⟩
    · exact h
    · exact absurd h (member_kept hu hu' hrecord hbatch hlease hopens)
  · intro hagrees
    refine ⟨?_, fun result hresult u hu hopen htime lease session hlease hopens => ?_⟩
    · rw [drain_ok_iff, not_iff_not]
      exact ⟨hagrees.blocking, SomeLive.blocking⟩
    · have hfree : ¬closing.SomeBlocking now := drain_ok_iff.mp ⟨result, hresult⟩
      obtain ⟨result', hresult', hsessions⟩ := drain_ok hfree
      rw [hresult] at hresult'
      cases hresult'
      rw [hsessions]
      by_cases hbatch : u.2.batch.isSome
      · exact .inl (hagrees.members hfree u hu hopen hbatch lease session hlease hopens)
      · rw [isOpen_underAbort, Bool.and_eq_true] at hopen
        have hown : closing.runtime.leases u.2.uploadID = some lease := hlease.resolve_right fun h => hbatch h.1
        exact .inr ⟨u, hu, lease, hopens, by simp [open_pending hu hopen.1, hopen.1, hown]⟩

/-! ### One upload -/

def single (upload : PortableUploadRecord) (aborts : BatchAborts) (runtime : UploadRuntime Session)
    (hbound : Bound transfers runtime ⟨upload.ownerID, uploadRecordKey upload.uploadID, upload⟩)
    (hempty : ∀ session, transfers.openLease "" ≠ .ok session) : Closing transfers where
  domains := [{ ownerID := upload.ownerID, records := [(uploadRecordKey upload.uploadID, upload)], aborts := aborts }]
  runtime := runtime
  bound value hvalue := by
    obtain rfl : value = ⟨upload.ownerID, uploadRecordKey upload.uploadID, upload⟩ := by
      simpa [UploadDomain.stored] using hvalue
    exact hbound
  distinct := by simp [UploadDomain.stored]
  empty := hempty
  sessions value hvalue value' hvalue' := by
    simp only [UploadDomain.stored, List.map_cons, List.map_nil, List.flatMap_cons, List.flatMap_nil, List.append_nil,
      List.mem_singleton] at hvalue hvalue'
    simp [hvalue, hvalue']

end Closing

namespace Batch

/-- A backend whose leases are the names of their sessions; `refusal` is its answer to an empty lease. -/
def named (refusal : Error) : Transfers String where
  backendKind := "memory"
  openLease lease := if lease = "" then .error refusal else .ok lease
  parseUserID _ := true

theorem named_empty (refusal : Error) (session : String) : (named refusal).openLease "" ≠ .ok session := by
  simp [named]

def segment : PortableUploadLeaseSegment where
  backendKind := "memory"
  ownerID := "o"
  batchID := "b"
  segment := 0
  totalCount := 1
  firstIndex := 0
  leases := [{ index := 0, uploadID := "u", lease := "s" }]

def leases (segment : Option PortableUploadLeaseSegment) : UploadRuntime String where
  leases _ := none
  segments _ _ := segment
  aborted := []

def cancelled : PortableUploadBatchAbort where
  ownerID := "o"
  batchID := "b"
  count := 1
  aborted := [1]
  modifiedAt := 5

def gone : Error := newError .notFound "upload not found"
def unreadable : Error := newError .invalid "invalid upload lease"

theorem bound_leased : Bound (named gone) (leases (some segment)) ⟨"o", uploadRecordKey "u",
      upload .uploadInitializing false⟩ where
  valid := by decide +kernel
  owner := rfl
  user := rfl
  key := rfl
  blob := rfl
  opens lease hlease := by
    have hslot : runtimeUploadLeaseForRecord (named gone) (leases (some segment)) (upload .uploadInitializing false) =
        .ok "s" := by
      decide +kernel
    rcases hlease with h | ⟨_, h⟩
    · cases h
    · rw [hslot] at h
      cases h
      exact ⟨by decide, "s", rfl⟩
  slot _ _ := ⟨rfl, .inr ⟨"s", by decide +kernel⟩⟩

theorem bound_unleased : Bound (named unreadable) (leases none) ⟨"o", uploadRecordKey "u",
      upload .uploadAborted true⟩ where
  valid := by decide +kernel
  owner := rfl
  user := rfl
  key := rfl
  blob := rfl
  opens lease hlease := by
    rcases hlease with h | ⟨_, h⟩
    · cases h
    · cases h
  slot _ _ := ⟨rfl, .inl rfl⟩

def leased (aborts : BatchAborts) : Closing (named gone) :=
  .single (upload .uploadInitializing false) aborts (leases (some segment)) bound_leased (named_empty gone)

def unleased : Closing (named unreadable) :=
  .single (upload .uploadAborted true) (fun _ => none) (leases none) bound_unleased (named_empty unreadable)

/-- After its time an open member's session is left, its lease being in a segment; a member that its batch
cancelled stops the drain as long as its record has time; and so does, at any time, a member that was
cancelled without a lease. -/
theorem drain_differs :
    ¬(leased fun _ => none).DrainsLive 30 ∧ ¬(leased fun _ => some cancelled).DrainsLive 10 ∧
      ¬unleased.DrainsLive 30 := by
  refine ⟨fun h => ?_, fun h => ?_, fun h => ?_⟩
  · have hdrained : (leased fun _ => none).drain 30 = .ok (leases (some segment)) := by rfl
    have := h.2 _ hdrained (fun _ => none, upload .uploadInitializing false)
      (by simp [Closing.uploads, leased, Closing.single])
      (by decide) (by decide) "s" "s" (.inr ⟨rfl, by decide +kernel⟩) rfl
    cases this
  · have hfails : (leased fun _ => some cancelled).drain 10 =
        .error (newError .unavailable "active upload capability prevents checkpoint closure") := by rfl
    have hnone : ¬(leased fun _ => some cancelled).SomeLive 10 := by
      rintro ⟨u, hu, hopen, _⟩
      obtain rfl : u = (fun _ => some cancelled, upload .uploadInitializing false) := by
        simpa [Closing.uploads, leased, Closing.single] using hu
      revert hopen
      decide
    obtain ⟨result, hresult⟩ := h.1.mpr hnone
    cases hresult
  · have hfails : unleased.drain 30 = .error unreadable := by rfl
    have hnone : ¬unleased.SomeLive 30 := by
      simp [Closing.SomeLive, Closing.uploads, unleased, Closing.single, upload]
    obtain ⟨result, hresult⟩ := h.1.mpr hnone
    cases hresult

end Batch

end EndlessFS
