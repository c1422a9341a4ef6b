import EndlessFS.Uploads.Commits
import EndlessFS.Namespace.Aggregates

/-!
# EndlessFS.Uploads.Exclusive

The lifecycle of an upload is exclusive.

* `LifecycleInv`: a completed upload is not cancelled by its batch, every published upload is completed,
  and no upload was published twice. A member of a batch is never active, so that no completion of a
  single upload meets an overlay.
* `LifecycleInv.step`, `observed_step`: what one commit keeps.
* `uploads_exclusive`: the lifecycle along every run.
-/

namespace EndlessFS

open List Option PortableUploadRecord UploadAttempt

variable {codec : NamespaceCodec}

def FirstMember (codec : NamespaceCodec) (head : OwnerHead) (batchID : String) (count : Nat) : Prop :=
  ∃ first, head.records (uploadBatchMemberID codec batchID 0) = some first ∧
    first.batch = some { batchID, index := 0, count }

/-- An overlay that readers of the batch accept. -/
structure OverlayBound (codec : NamespaceCodec) (ownerID : String) (head : OwnerHead) (batchID : String)
    (overlay : PortableUploadBatchAbort) : Prop where
  valid : validatePortableUploadBatchAbort overlay = .ok ()
  owner : overlay.ownerID = ownerID
  batch : overlay.batchID = batchID
  first : FirstMember codec head batchID overlay.count

structure LifecycleInv (codec : NamespaceCodec) (ownerID : String) (head : OwnerHead) : Prop where
  id : ∀ id record, head.records id = some record → record.uploadID = id
  requested : ∀ id record, head.records id = some record → Requested codec record
  member : ∀ id record member, head.records id = some record → record.batch = some member →
    id = uploadBatchMemberID codec member.batchID member.index ∧ FirstMember codec head member.batchID member.count
  single : ∀ id record, head.records id = some record → record.state = .uploadActive → record.batch = none
  overlay : ∀ batchID overlay, head.aborts batchID = some overlay → OverlayBound codec ownerID head batchID overlay
  completed : ∀ id record, head.records id = some record → record.state = .uploadCompleted →
    record.overlaid head.aborts = false ∧ Readable codec ownerID id record
  published : ∀ publication ∈ head.published, ∃ record, head.records publication.uploadID = some record ∧
    record.state = .uploadCompleted ∧ PublishedAs codec record publication.published
  distinct : (head.published.map UploadPublication.uploadID).Nodup

theorem LifecycleInv.empty {ownerID : String} : LifecycleInv codec ownerID .empty where
  id _ _ h := by cases h
  requested _ _ h := by cases h
  member _ _ _ h := by cases h
  single _ _ h := by cases h
  overlay _ _ h := by cases h
  completed _ _ h := by cases h
  published _ h := by cases h
  distinct := nodup_nil

/-! ## One commit -/

section

variable {at_ : UploadAttempt} {head : OwnerHead} {commit : OwnerCommit} {record : PortableUploadRecord}
  (hspec : CommitSpec codec at_ commit)
  (hadmitted : commit.Admitted at_.head head) (hexact : commit.exact = true → at_.head = head)

include hspec hadmitted in
theorem record_cases {id : String} (h : (commit.apply head).records id = some record) :
    (head.records id = none ∧ record.uploadID = id ∧ record.state = .uploadInitializing ∧
        Joins codec commit id record.batch ∧ Requested codec record) ∨
      (∃ before, head.records id = some before ∧ record.uploadID = id ∧ record.batch = before.batch ∧
        record.requestedPath = before.requestedPath ∧
        RecordStep codec at_ commit.exact (commit.publishes.any (·.uploadID = id)) before record) ∨
      head.records id = some record := by
  unfold OwnerCommit.apply at h
  cases hfind : commit.writes.find? (·.uploadID = id) with
  | none =>
    simp only [hfind] at h
    exact .inr (.inr h)
  | some write =>
    simp only [hfind, some.injEq] at h
    subst h
    have hmem := mem_of_find?_eq_some hfind
    have hid : write.uploadID = id := by
      have hfound := find?_some hfind
      exact of_decide_eq_true hfound
    subst hid
    have hbefore := hadmitted.writes write hmem
    obtain ⟨hafter, hcreated, hchanged⟩ := hspec.writes write hmem
    cases hwrite : write.before with
    | none =>
      obtain ⟨hstate, hmember⟩ := hcreated hwrite
      exact .inl ⟨hbefore.trans hwrite, hafter, hstate, hmember⟩
    | some before =>
      obtain ⟨_, hbatch, hpath, hstep⟩ := hchanged before hwrite
      exact .inr (.inl ⟨before, hbefore.trans hwrite, hafter, hbatch, hpath, hstep⟩)

include hspec hadmitted in
theorem record_kept {id : String} {before : PortableUploadRecord} (h : head.records id = some before) :
    ∃ record, (commit.apply head).records id = some record ∧ record.batch = before.batch ∧
      (record = before ∨ RecordStep codec at_ commit.exact (commit.publishes.any (·.uploadID = id)) before record) := by
  have hsome : ∃ record, (commit.apply head).records id = some record := by
    unfold OwnerCommit.apply
    dsimp only
    cases commit.writes.find? (·.uploadID = id) with
    | none => exact ⟨before, h⟩
    | some write => exact ⟨write.after, rfl⟩
  obtain ⟨record, hrecord⟩ := hsome
  refine ⟨record, hrecord, ?_⟩
  rcases record_cases hspec hadmitted hrecord with ⟨hnone, _⟩ | ⟨before', hbefore', _, hbatch, _, hstep⟩ | hsame
  · rw [h] at hnone
    cases hnone
  · rw [h] at hbefore'
    cases hbefore'
    exact ⟨hbatch, .inr hstep⟩
  · rw [h] at hsame
    cases hsame
    exact ⟨rfl, .inl rfl⟩

/-- Of a closed record only the cleanup remains. -/
theorem RecordStep.of_closed {exact published : Bool} {before after : PortableUploadRecord}
    (h : RecordStep codec at_ exact published before after) (hclosed : before.isOpen = false) :
    after = { before with cleanupPending := false } := by
  cases h with
  | activated hinit => simp [isOpen, hinit] at hclosed
  | completed hopen => simp [hclosed] at hopen
  | aborted hopen => simp [hclosed] at hopen
  | cleaned _ hafter => exact hafter

theorem aborts_apply (hnone : commit.overlay = none) : (commit.apply head).aborts = head.aborts := by
  funext batchID
  simp [OwnerCommit.apply, hnone]

include hspec hexact in
theorem overlaid_kept (h : record.overlaid head.aborts = true) : record.overlaid (commit.apply head).aborts = true := by
  cases hoverlay : commit.overlay with
  | none => rwa [aborts_apply hoverlay]
  | some overlay =>
    obtain ⟨hcommit, _, hcancels⟩ := hspec.overlay overlay hoverlay
    obtain rfl := hexact hcommit
    unfold overlaid at h ⊢
    cases hbatch : record.batch with
    | none => simp [hbatch] at h
    | some member =>
      simp only [hbatch, any_some] at h ⊢
      unfold OwnerCommit.apply
      simp only [hoverlay]
      split_ifs with hsame
      · cases hold : at_.head.aborts member.batchID with
        | none => simp [hold] at h
        | some old =>
          rw [hold, any_some] at h
          exact hcancels.keeps old (hsame ▸ hold) member.index h
      · exact h

include hspec hadmitted hexact in
theorem not_overlaid_of_completed (hinv : LifecycleInv codec at_.ownerID head) {id : String}
    (h : (commit.apply head).records id = some record) (hstate : record.state = .uploadCompleted) :
    record.overlaid (commit.apply head).aborts = false := by
  cases hoverlay : commit.overlay with
  | none =>
    rw [aborts_apply hoverlay]
    rcases record_cases hspec hadmitted h with ⟨_, _, hinit, _⟩ | ⟨before, hbefore, _, hbatch, _, hstep⟩ | hsame
    · simp [hinit] at hstate
    · have hoverlaid : record.overlaid head.aborts = before.overlaid head.aborts := by
        simp [overlaid, hbatch]
      rw [hoverlaid]
      cases hstep with
      | activated _ _ hactive => simp [hactive] at hstate
      | completed _ hhow hseen =>
        rcases hhow with hactive | hcommit
        · simp [overlaid, hinv.single id before hbefore hactive]
        · rw [← hexact hcommit]
          exact hseen
      | aborted _ haborted => simp [haborted] at hstate
      | cleaned _ hafter => exact (hinv.completed id before hbefore (by simpa [hafter] using hstate)).1
    · exact (hinv.completed id record hsame hstate).1
  | some overlay =>
    obtain ⟨hcommit, hwrites, hcancels⟩ := hspec.overlay overlay hoverlay
    obtain rfl := hexact hcommit
    have hsame : at_.head.records id = some record := by simpa [OwnerCommit.apply, hwrites] using h
    have hbefore := (hinv.completed id record hsame hstate).1
    unfold overlaid at hbefore ⊢
    cases hbatch : record.batch with
    | none => rfl
    | some member =>
      simp only [hbatch, any_some] at hbefore ⊢
      unfold OwnerCommit.apply
      simp only [hoverlay]
      split_ifs with hbatchID
      · rw [any_some]
        by_contra hcancelled
        rw [Bool.not_eq_false] at hcancelled
        rcases hcancels.cancels member.index hcancelled with
          ⟨old, hold, haborts⟩ | ⟨id', record', member', hrecord', hopen, hbatch', hb, hi⟩
        · rw [← hbatchID, hold, any_some, haborts] at hbefore
          cases hbefore
        · -- an open record with the same membership is the same record
          have hids : id' = id := by
            rw [(hinv.member id' record' member' hrecord' hbatch').1, (hinv.member id record member hsame hbatch).1, hb,
              hi, hbatchID]
          subst hids
          rw [hsame] at hrecord'
          cases hrecord'
          simp [isOpen, hstate] at hopen
      · exact hbefore

theorem Readable.cleaned {ownerID id : String} (h : Readable codec ownerID id record) :
    Readable codec ownerID id { record with cleanupPending := false } := by
  obtain ⟨hvalid, hbound⟩ := decodePortableUploadRecord_eq_ok_iff.mp h.decoded
  exact ⟨decodePortableUploadRecord_eq_ok_iff.mpr ⟨validate_cleaned hvalid, hbound⟩, h.path⟩

include hspec hadmitted in
theorem readable_of_completed (hinv : LifecycleInv codec at_.ownerID head) {id : String}
    (h : (commit.apply head).records id = some record) (hstate : record.state = .uploadCompleted) :
    Readable codec at_.ownerID id record := by
  rcases record_cases hspec hadmitted h with ⟨_, _, hinit, _⟩ | ⟨before, hbefore, hid, _, _, hstep⟩ | hsame
  · simp [hinit] at hstate
  · cases hstep with
    | activated _ _ hactive => simp [hactive] at hstate
    | completed _ _ _ _ _ hreadable => exact hid ▸ hreadable
    | aborted _ haborted => simp [haborted] at hstate
    | cleaned _ hafter =>
      rw [hafter]
      exact (hinv.completed id before hbefore (by simpa [hafter] using hstate)).2.cleaned
  · exact (hinv.completed id record hsame hstate).2

include hspec hadmitted in
theorem firstMember_kept {batchID : String} {count : Nat} (h : FirstMember codec head batchID count) :
    FirstMember codec (commit.apply head) batchID count := by
  obtain ⟨first, hfirst, hmember⟩ := h
  obtain ⟨record, hrecord, hbatch, _⟩ := record_kept hspec hadmitted hfirst
  exact ⟨record, hrecord, hbatch.trans hmember⟩

theorem PublishedAs.cleaned {entry : ResolvedEntry} (h : PublishedAs codec record entry) :
    PublishedAs codec { record with cleanupPending := false } entry := by
  cases h with
  | single hcompletion => exact @PublishedAs.single codec { record with cleanupPending := false } _ _ _ hcompletion
  | batch hcompletion => exact @PublishedAs.batch codec { record with cleanupPending := false } _ hcompletion

include hspec hadmitted hexact in
theorem overlay_step (hinv : LifecycleInv codec at_.ownerID head) {batchID : String}
    {overlay : PortableUploadBatchAbort} (h : (commit.apply head).aborts batchID = some overlay) :
    OverlayBound codec at_.ownerID (commit.apply head) batchID overlay := by
  have hkeep : head.aborts batchID = some overlay →
      OverlayBound codec at_.ownerID (commit.apply head) batchID overlay := by
    intro hold
    obtain ⟨hvalid, howner, hbatch, hfirst⟩ := hinv.overlay batchID overlay hold
    exact ⟨hvalid, howner, hbatch, firstMember_kept hspec hadmitted hfirst⟩
  cases hoverlay : commit.overlay with
  | none => exact hkeep (aborts_apply hoverlay ▸ h)
  | some new =>
    simp only [OwnerCommit.apply, hoverlay] at h
    split_ifs at h with hbatchID
    · cases h
      obtain ⟨hcommit, _, hcancels⟩ := hspec.overlay overlay hoverlay
      obtain rfl := hexact hcommit
      obtain ⟨id, record, member, hrecord, hmember, hb, hcount⟩ := hcancels.member
      have hfirst := (hinv.member id record member hrecord hmember).2
      rw [hb, hbatchID, hcount] at hfirst
      exact ⟨hcancels.valid, hcancels.owner, hbatchID, firstMember_kept hspec hadmitted hfirst⟩
    · exact hkeep h

include hspec hadmitted hexact in
theorem LifecycleInv.step (hinv : LifecycleInv codec at_.ownerID head) :
    LifecycleInv codec at_.ownerID (commit.apply head) where
  id id record h := by
    rcases record_cases hspec hadmitted h with ⟨_, hid, _⟩ | ⟨_, _, hid, _⟩ | hsame
    · exact hid
    · exact hid
    · exact hinv.id id record hsame
  requested id record h := by
    rcases record_cases hspec hadmitted h with ⟨_, _, _, _, hpath⟩ | ⟨before, hbefore, _, _, hkept, _⟩ | hsame
    · exact hpath
    · obtain ⟨path, hpath⟩ := hinv.requested id before hbefore
      exact ⟨path, hkept.trans hpath⟩
    · exact hinv.requested id record hsame
  member id record member h hbatch := by
    have hkeep : ∀ before, head.records id = some before → before.batch = some member →
        id = uploadBatchMemberID codec member.batchID member.index ∧
          FirstMember codec (commit.apply head) member.batchID member.count := by
      intro before hbefore hbatch
      obtain ⟨hid, hfirst⟩ := hinv.member id before member hbefore hbatch
      exact ⟨hid, firstMember_kept hspec hadmitted hfirst⟩
    rcases record_cases hspec hadmitted h with ⟨_, _, _, hjoins, _⟩ | ⟨before, hbefore, _, hkept, _⟩ | hsame
    · obtain ⟨hid, first, hfirst, hmember⟩ := hjoins member hbatch
      exact ⟨hid, first.after, by simp [OwnerCommit.apply, hfirst], hmember⟩
    · exact hkeep before hbefore (hkept ▸ hbatch)
    · exact hkeep record hsame hbatch
  single id record h hstate := by
    rcases record_cases hspec hadmitted h with ⟨_, _, hinit, _⟩ | ⟨before, hbefore, _, hkept, _, hstep⟩ | hsame
    · simp [hinit] at hstate
    · rw [hkept]
      cases hstep with
      | activated _ hbatch _ => exact hbatch
      | completed _ _ _ _ hcompleted => simp [hcompleted] at hstate
      | aborted _ haborted => simp [haborted] at hstate
      | cleaned _ hafter => exact hinv.single id before hbefore (by simpa [hafter] using hstate)
    · exact hinv.single id record hsame hstate
  overlay batchID overlay h := overlay_step hspec hadmitted hexact hinv h
  completed id record h hstate :=
    ⟨not_overlaid_of_completed hspec hadmitted hexact hinv h hstate,
      readable_of_completed hspec hadmitted hinv h hstate⟩
  published publication hpublication := by
    rcases mem_append.mp hpublication with hnew | hold
    · obtain ⟨write, hfind, hstate, hpublished, _⟩ := hspec.published publication hnew
      exact ⟨write.after, by simp [OwnerCommit.apply, hfind], hstate, hpublished⟩
    · obtain ⟨before, hbefore, hstate, hpublished⟩ := hinv.published publication hold
      obtain ⟨record, hrecord, _, hkept⟩ := record_kept hspec hadmitted hbefore
      refine ⟨record, hrecord, ?_⟩
      rcases hkept with rfl | hstep
      · exact ⟨hstate, hpublished⟩
      · rw [hstep.of_closed (by simp [isOpen, hstate])]
        exact ⟨hstate, hpublished.cleaned⟩
  distinct := by
    rw [OwnerCommit.apply, map_append, nodup_append]
    refine ⟨hspec.distinct, hinv.distinct, ?_⟩
    rintro _ hnew _ hold rfl
    obtain ⟨publication, hpublication, hid⟩ := mem_map.mp hnew
    obtain ⟨older, holder, hid'⟩ := mem_map.mp hold
    -- what is published anew was open, what was published is completed
    obtain ⟨write, hfind, _, _, before, hwrite, hopen⟩ := hspec.published publication hpublication
    obtain ⟨record, hrecord, hstate, _⟩ := hinv.published older holder
    have hfound : write.uploadID = publication.uploadID := by
      have hfound := find?_some hfind
      exact of_decide_eq_true hfound
    have hbefore := hadmitted.writes write (mem_of_find?_eq_some hfind)
    rw [hfound, hid, ← hid', hrecord, hwrite] at hbefore
    cases hbefore
    simp [isOpen, hstate] at hopen

include hspec hadmitted hexact in
theorem observed_step (hinv : LifecycleInv codec at_.ownerID head) (id : String) :
    (head.observed id = some .uploadCompleted → (commit.apply head).observed id = some .uploadCompleted) ∧
      (head.observed id = some .uploadAborted → (commit.apply head).observed id = some .uploadAborted) := by
  have hinv' := LifecycleInv.step hspec hadmitted hexact hinv
  refine ⟨fun h => ?_, fun h => ?_⟩
  · obtain ⟨before, hbefore, hstate⟩ := map_eq_some_iff.mp h
    have hcompleted : before.state = .uploadCompleted := by
      unfold underAbort at hstate
      split_ifs at hstate
      exact hstate
    obtain ⟨record, hrecord, _, hkept⟩ := record_kept hspec hadmitted hbefore
    have hrecordState : record.state = .uploadCompleted := by
      rcases hkept with rfl | hstep
      · exact hcompleted
      · rw [hstep.of_closed (by simp [isOpen, hcompleted])]
        exact hcompleted
    simp [OwnerHead.observed, hrecord, underAbort, (hinv'.completed id record hrecord hrecordState).1, hrecordState]
  · obtain ⟨before, hbefore, hstate⟩ := map_eq_some_iff.mp h
    obtain ⟨record, hrecord, hbatch, hkept⟩ := record_kept hspec hadmitted hbefore
    rw [OwnerHead.observed, hrecord, map_some, underAbort]
    split_ifs with hoverlaid
    · rfl
    · -- the batch did not cancel the upload before either, so its record says so
      have hnot : ¬before.overlaid head.aborts = true := by
        intro hbeforeOverlaid
        refine hoverlaid ?_
        have hkeptOverlaid := overlaid_kept hspec hexact hbeforeOverlaid
        simpa [overlaid, hbatch] using hkeptOverlaid
      rw [underAbort, if_neg hnot] at hstate
      rcases hkept with rfl | hstep
      · rw [hstate]
      · rw [hstep.of_closed (by simp [isOpen, hstate])]
        exact congrArg some hstate

end

/-! ## Runs -/

variable {ownerID : String} {heads : List OwnerHead}

/-- What each commit keeps of the head it is applied to, a later head keeps of every earlier one. -/
theorem OwnerRun.pairwise {R : OwnerHead → OwnerHead → Prop} (htrans : ∀ {a b c}, R a b → R b c → R a c)
    (hstep : ∀ {head past at_ commit} {command : UploadCommand codec}, OwnerRun codec ownerID (head :: past) →
      at_.ownerID = ownerID → at_.head ∈ head :: past → command.plan codec at_ = .ok (some commit) →
      commit.Admitted at_.head head → R (commit.apply head) head) (h : OwnerRun codec ownerID heads) :
        heads.Pairwise R := by
  induction h with
  | start => exact pairwise_singleton _ _
  | commit hrun howner hseen hplan hadmitted ih =>
    have hnext := hstep hrun howner hseen hplan hadmitted
    refine pairwise_cons.mpr ⟨fun earlier hearlier => ?_, ih⟩
    rcases mem_cons.mp hearlier with rfl | hearlier
    · exact hnext
    · exact htrans hnext ((pairwise_cons.mp ih).1 earlier hearlier)

theorem OwnerRun.revisions (h : OwnerRun codec ownerID heads) :
    heads.Pairwise fun later earlier => earlier.revision < later.revision :=
  h.pairwise (fun hab hbc => hbc.trans hab) fun _ _ _ _ _ => Nat.lt_succ_self _

theorem eq_of_revision {head seen : OwnerHead} {past : List OwnerHead} (h : OwnerRun codec ownerID (head :: past))
    (hseen : seen ∈ head :: past) (hrevision : seen.revision = head.revision) : seen = head := by
  rcases mem_cons.mp hseen with rfl | hseen
  · rfl
  · have := (pairwise_cons.mp h.revisions).1 seen hseen
    omega

theorem OwnerRun.inv (h : OwnerRun codec ownerID heads) : ∀ head ∈ heads, LifecycleInv codec ownerID head := by
  induction h with
  | start =>
    intro head hhead
    rw [mem_singleton.mp hhead]
    exact .empty
  | @commit head past at_ command commit hrun howner hseen hplan hadmitted ih =>
    subst howner
    intro later hlater
    rcases mem_cons.mp hlater with rfl | hlater
    · exact LifecycleInv.step (plan_spec hplan) hadmitted (fun hexact => eq_of_revision hrun hseen
        (hadmitted.exact hexact))
        (ih head (.head _))
    · exact ih later hlater

def KeepsTerminal (later earlier : OwnerHead) : Prop :=
  ∀ id, (earlier.observed id = some .uploadCompleted → later.observed id = some .uploadCompleted) ∧
    (earlier.observed id = some .uploadAborted → later.observed id = some .uploadAborted)

theorem KeepsTerminal.trans {a b c : OwnerHead} (h : KeepsTerminal a b) (h' : KeepsTerminal b c) : KeepsTerminal a c :=
  fun id =>
  ⟨fun hc => (h id).1 ((h' id).1 hc), fun hc => (h id).2 ((h' id).2 hc)⟩

theorem OwnerRun.keepsTerminal (h : OwnerRun codec ownerID heads) : heads.Pairwise KeepsTerminal := by
  refine h.pairwise .trans fun hrun howner hseen hplan hadmitted id => ?_
  subst howner
  exact observed_step (plan_spec hplan) hadmitted (fun hexact => eq_of_revision hrun hseen (hadmitted.exact hexact))
    (hrun.inv _ (.head _)) id

/-! ## One upload -/

namespace Single

def creation : UploadCreation Overlap.sizes where
  key := "key"
  fingerprint := "fingerprint"
  uploadID := "upload"
  requestedPath := Overlap.pathA
  resolvedPath := Overlap.pathA
  size := 3
  mediaType := "text/plain"
  conflict := .conflictFail
  expectedVersion := ""
  targetExisted := false
  resumable := false
  expiresAt := 100

def attempt (head : OwnerHead) : UploadAttempt where
  ownerID := "owner"
  area := .areaLive
  now := 1
  head := head
  view := { live := none, trash := none }
  started := by decide

def record : PortableUploadRecord := creation.record (attempt .empty) "upload" none

def request : CompleteUploadRequest := { uploadID := "upload", path := ["a"], size := 3, mediaType := "text/plain" }

def progress : UploadProgress := { complete := true, size := 3, md5 := "md5", crc32c := "crc32c" }

def entry : ResolvedEntry := UploadAttempt.uploadEntry Overlap.sizes record "md5" "crc32c" 1

def created : OwnerHead := ((attempt .empty).create creation).apply .empty

def activation : OwnerCommit :=
  { exact := false, writes := [(attempt created).write "upload" { record with state := .uploadActive }] }

def active : OwnerHead := activation.apply created

def publication : OwnerCommit :=
  { exact := false
    writes := [(attempt active).write "upload" { record with state := .uploadCompleted, cleanupPending := true }]
    publishes := [{ uploadID := "upload", published := entry }] }

def completed : OwnerHead := publication.apply active

/-- An abort of the active upload. -/
def abortion : OwnerCommit :=
  { exact := false
    writes := [(attempt active).write "upload" { record with state := .uploadAborted, cleanupPending := true }] }

theorem run : OwnerRun Overlap.sizes "owner" [completed, active, created, .empty] := by
  have hcreated : OwnerRun Overlap.sizes "owner" [created, .empty] :=
    @OwnerRun.commit _ _ _ _ (attempt .empty) (.create creation) _ .start rfl (.head _) rfl
      ⟨by simp [create], by simp [create, OwnerHead.empty], by simp [OwnerHead.empty]⟩
  have hactive : OwnerRun Overlap.sizes "owner" [active, created, .empty] :=
    @OwnerRun.commit _ _ _ _ (attempt created) (.activate "upload") activation hcreated rfl (.head _) rfl
      ⟨by simp [activation], by simp [activation, write, attempt], by simp [activation]⟩
  exact @OwnerRun.commit _ _ _ _ (attempt active) (.complete request (.ok progress)) publication hactive rfl
    (.head _) rfl
    ⟨by simp [publication], by simp [publication, write, attempt], by simp [publication]⟩

end Single

/-- In every run: no published upload is aborted in its record or by its batch, no upload is published twice, and
an upload that was seen completed or aborted is seen so in every later head. -/
theorem uploads_exclusive (h : OwnerRun codec ownerID heads) :
    (∀ head ∈ heads, ∀ publication ∈ head.published, ∃ record, head.records publication.uploadID = some record ∧
        record.state ≠ .uploadAborted ∧ record.overlaid head.aborts = false) ∧
      (∀ head ∈ heads, (head.published.map UploadPublication.uploadID).Nodup) ∧ heads.Pairwise KeepsTerminal := by
  refine ⟨fun head hhead publication hpublication => ?_, fun head hhead => (h.inv head hhead).distinct, h.keepsTerminal⟩
  obtain ⟨record, hrecord, hstate, _⟩ := (h.inv head hhead).published publication hpublication
  exact ⟨record, hrecord, by simp [hstate], ((h.inv head hhead).completed _ record hrecord hstate).1⟩

/-- An abort that was planned before the completion is not admitted after it. -/
theorem Single.run_exclusive : Single.completed.published = [{ uploadID := "upload", published := Single.entry }] ∧
    ((Single.attempt Single.active).abortUpload008 "upload" = .ok (some Single.abortion) ∧
      ¬Single.abortion.Admitted Single.active Single.completed) ∧
    (∃ record, Single.completed.records "upload" = some record ∧ record.state ≠ .uploadAborted ∧
      record.overlaid Single.completed.aborts = false) ∧
    [Single.completed, Single.active, Single.created, .empty].Pairwise KeepsTerminal := by
  refine ⟨rfl, ⟨rfl, fun hadmitted => ?_⟩, (uploads_exclusive Single.run).1 Single.completed (.head _) _ (.head _),
    (uploads_exclusive Single.run).2.2⟩
  have hstate := congrArg (Option.map PortableUploadRecord.state) (hadmitted.writes _ (.head _))
  exact absurd hstate (by decide)

end EndlessFS
