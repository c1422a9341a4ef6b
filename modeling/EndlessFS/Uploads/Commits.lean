import EndlessFS.Uploads.Lifecycle

/-!
# EndlessFS.Uploads.Commits

What the commits of the upload operations do.

* `RecordStep`: how a commit may change a stored record.
* `CommitSpec`: what every commit keeps to, and one lemma for each operation that says so.
* `plan_spec`: every attempt that comes to a commit.
-/

namespace EndlessFS

open Except List PortableUploadRecord UploadAttempt

variable {codec : NamespaceCodec}

/-! ## What a reader finds -/

namespace UploadAttempt

variable {at_ : UploadAttempt} {uploadID : String} {record : PortableUploadRecord}

section

variable (h : at_.upload uploadID = .ok record)

include h

theorem upload_ok : ∃ stored, at_.head.records uploadID = some stored ∧ record = stored.underAbort at_.head.aborts ∧
      stored.uploadID = uploadID ∧ record.uploadID = uploadID := by
  obtain ⟨stored, hstored, hrecord⟩ := portableUploadAtView_ok h
  have hid : stored.uploadID = uploadID := by
    unfold upload portableUploadAtView at h
    simp only [hstored] at h
    obtain ⟨decoded, hdecoded, _⟩ := bind_ok h
    obtain ⟨_, hbound, _⟩ := bind_ok hdecoded
    simp only [rejectIf_eq_ok_iff, Bool.or_eq_false_iff, ne_eq, decide_not, Bool.not_eq_false',
      decide_eq_true_eq] at hbound
    exact hbound.1.2
  refine ⟨stored, hstored, hrecord, hid, ?_⟩
  rw [hrecord, underAbort]
  split <;> exact hid

theorem upload_stored (hstate : record.state ≠ .uploadAborted ∨ record.cleanupPending = true) :
    at_.head.records uploadID = some record ∧ record.overlaid at_.head.aborts = false ∧ record.uploadID = uploadID := by
  obtain ⟨stored, hstored, hrecord, _, hid⟩ := upload_ok h
  cases hoverlaid : stored.overlaid at_.head.aborts with
  | true =>
    rw [underAbort, if_pos hoverlaid] at hrecord
    simp [hrecord] at hstate
  | false =>
    rw [underAbort, if_neg (by simp [hoverlaid])] at hrecord
    subst hrecord
    exact ⟨hstored, hoverlaid, hid⟩

theorem upload_decoded (hstored : at_.head.records uploadID = some record) :
    decodePortableUploadRecord record at_.ownerID uploadID = .ok record := by
  unfold upload portableUploadAtView at h
  simp only [hstored] at h
  obtain ⟨decoded, hdecoded, _⟩ := bind_ok h
  have hsame : decoded = record := by
    obtain ⟨_, _, hdecoded⟩ := bind_ok hdecoded
    cases hdecoded
    rfl
  rwa [hsame] at hdecoded

theorem upload_valid (hstored : at_.head.records uploadID = some record) :
    validatePortableUploadRecord record = .ok () :=
  (decodePortableUploadRecord_eq_ok_iff.mp (upload_decoded h hstored)).1

theorem upload_open (hopen : record.isOpen = true) :
    at_.head.records uploadID = some record ∧ record.overlaid at_.head.aborts = false ∧ record.uploadID = uploadID :=
  upload_stored h (.inl fun hstate => by simp [isOpen, hstate] at hopen)

end

end UploadAttempt

/-! ## What a commit does -/

structure Readable (codec : NamespaceCodec) (ownerID uploadID : String) (record : PortableUploadRecord) : Prop where
  decoded : decodePortableUploadRecord record ownerID uploadID = .ok record
  path : ∃ path, storedUploadPath codec record.resolvedPath = .ok path

/-- How a commit of the attempt may change a stored record; `published` says whether it publishes its file. -/
inductive RecordStep (codec : NamespaceCodec) (at_ : UploadAttempt) (exact published : Bool)
    (before after : PortableUploadRecord) : Prop where
  | activated : before.state = .uploadInitializing → before.batch = none → after.state = .uploadActive →
      RecordStep codec at_ exact published before after
  | completed : before.isOpen = true → before.state = .uploadActive ∨ exact = true →
    before.overlaid at_.head.aborts = false →
      published = true → after.state = .uploadCompleted → Readable codec at_.ownerID after.uploadID after →
      RecordStep codec at_ exact published before after
  | aborted : before.isOpen = true → after.state = .uploadAborted → RecordStep codec at_ exact published before after
  | cleaned : before.isOpen = false → after = { before with cleanupPending := false } →
      RecordStep codec at_ exact published before after

def Joins (codec : NamespaceCodec) (commit : OwnerCommit) (uploadID : String)
    (batch : Option PortableUploadBatchMember) : Prop :=
  ∀ member, batch = some member → uploadID = uploadBatchMemberID codec member.batchID member.index ∧
    ∃ first, commit.writes.find? (·.uploadID = uploadBatchMemberID codec member.batchID 0) = some first ∧
      first.after.batch = some { member with index := 0 }

def Requested (codec : NamespaceCodec) (record : PortableUploadRecord) : Prop :=
  ∃ path : UserPath codec.toNormalization, record.requestedPath = path.segments

/-- A change of a record: a new one is initializing. -/
structure WriteSpec (codec : NamespaceCodec) (at_ : UploadAttempt) (commit : OwnerCommit) (write : RecordWrite) :
    Prop where
  id : write.after.uploadID = write.uploadID
  created : write.before = none → write.after.state = .uploadInitializing ∧
    Joins codec commit write.uploadID write.after.batch ∧ Requested codec write.after
  changed : ∀ before, write.before = some before → at_.head.records write.uploadID = some before ∧
    write.after.batch = before.batch ∧ write.after.requestedPath = before.requestedPath ∧
    RecordStep codec at_ commit.exact (commit.publishes.any (·.uploadID = write.uploadID)) before write.after

/-- The entry that was published for a completed record: a batch keeps its digests and its time in the record, a
single completion keeps nothing. -/
inductive PublishedAs (codec : NamespaceCodec) (record : PortableUploadRecord) : ResolvedEntry → Prop where
  | single {md5 crc32c : String} {modifiedAt : Time} : record.completion = none →
      PublishedAs codec record (UploadAttempt.uploadEntry codec record md5 crc32c modifiedAt)
  | batch {completion : PortableUploadCompletion} : record.completion = some completion →
      PublishedAs codec record (UploadAttempt.uploadEntry codec record completion.md5 completion.crc32c
        completion.modifiedAt)

/-- An overlay is bound to the owner and to the members it cancels, which were cancelled or are open. -/
structure OverlaySpec (at_ : UploadAttempt) (overlay : PortableUploadBatchAbort) : Prop where
  valid : validatePortableUploadBatchAbort overlay = .ok ()
  owner : overlay.ownerID = at_.ownerID
  member : ∃ uploadID record member, at_.head.records uploadID = some record ∧ record.batch = some member ∧
    member.batchID = overlay.batchID ∧ member.count = overlay.count
  cancels : ∀ index, overlay.aborts index = true →
    (∃ old, at_.head.aborts overlay.batchID = some old ∧ old.aborts index = true) ∨
      ∃ uploadID record member, at_.head.records uploadID = some record ∧ record.isOpen = true ∧
        record.batch = some member ∧ member.batchID = overlay.batchID ∧ member.index = index
  keeps : ∀ old, at_.head.aborts overlay.batchID = some old → ∀ index, old.aborts index = true →
    overlay.aborts index = true

structure CommitSpec (codec : NamespaceCodec) (at_ : UploadAttempt) (commit : OwnerCommit) : Prop where
  writes : ∀ write ∈ commit.writes, WriteSpec codec at_ commit write
  distinct : (commit.publishes.map UploadPublication.uploadID).Nodup
  published : ∀ publication ∈ commit.publishes, ∃ write, commit.writes.find? (·.uploadID = publication.uploadID) =
    some write ∧
    write.after.state = .uploadCompleted ∧ PublishedAs codec write.after publication.published ∧
    ∃ before, write.before = some before ∧ before.isOpen = true
  overlay : ∀ overlay, commit.overlay = some overlay → commit.exact = true ∧ commit.writes = [] ∧
    OverlaySpec at_ overlay

variable {at_ : UploadAttempt} {commit : OwnerCommit}

theorem CommitSpec.of_writes (hpublishes : commit.publishes = [])
    (hoverlay : commit.overlay = none) (hwrites : ∀ write ∈ commit.writes, WriteSpec codec at_ commit write) :
    CommitSpec codec at_ commit where
  writes := hwrites
  distinct := by simp [hpublishes]
  published := by simp [hpublishes]
  overlay := by simp [hoverlay]

namespace UploadAttempt

variable {uploadID : String} {record : PortableUploadRecord}

theorem created_spec {creation : UploadCreation codec} {batch : Option PortableUploadBatchMember}
    (hbatch : Joins codec commit uploadID batch) :
    WriteSpec codec at_ commit { uploadID, before := none, after := creation.record at_ uploadID batch } :=
  ⟨rfl, fun _ => ⟨rfl, hbatch, creation.requestedPath, rfl⟩, fun _ h => by cases h⟩

theorem written_spec {after : PortableUploadRecord} (hstored : at_.head.records uploadID = some record)
    (hid : after.uploadID = uploadID) (hbatch : after.batch = record.batch)
    (hpath : after.requestedPath = record.requestedPath)
    (hstep : RecordStep codec at_ commit.exact (commit.publishes.any (·.uploadID = uploadID)) record after) :
    WriteSpec codec at_ commit (at_.write uploadID after) := by
  refine ⟨hid, fun h => ?_, fun before h => ?_⟩
  · simp [write, hstored] at h
  · obtain rfl : record = before := by simpa [write, hstored] using h
    exact ⟨hstored, hbatch, hpath, hstep⟩

theorem readable_completed {cleanupPending : Bool} {completion : Option PortableUploadCompletion}
    (hupload : at_.upload uploadID = .ok record) (hstored : at_.head.records uploadID = some record)
    (hpath : ∃ path, storedUploadPath codec record.resolvedPath = .ok path)
    (hcompletion : checkUploadCompletion .uploadCompleted completion = .ok ()) :
    Readable codec at_.ownerID record.uploadID
      { record with state := .uploadCompleted, cleanupPending := cleanupPending, completion := completion } := by
  obtain ⟨hvalid, howner, hid, hblob⟩ := decodePortableUploadRecord_eq_ok_iff.mp (upload_decoded hupload hstored)
  exact ⟨decodePortableUploadRecord_eq_ok_iff.mpr ⟨validate_completed hvalid hcompletion, howner, rfl,
    hblob.trans hid.symm⟩,
    hpath⟩

variable {path : UserPath codec.toNormalization}

theorem parseResolvedPath_eq_ok_iff :
    parseResolvedPath codec record = .ok path ↔ record.resolvedPath.map codec.nfc = path.segments := by
  rw [← parseUserPath_eq_ok_iff, parseResolvedPath]
  cases parseUserPath codec.toNormalization record.resolvedPath <;> simp [Except.mapError]

theorem storedUploadPath_eq_ok_iff : storedUploadPath codec record.resolvedPath = .ok path ↔
      record.resolvedPath.map codec.nfc = path.segments ∧ path.isRoot = false := by
  rw [← parseUserPath_eq_ok_iff, storedUploadPath]
  cases parseUserPath codec.toNormalization record.resolvedPath with
  | error e => simp
  | ok parsed =>
    cases hroot : parsed.isRoot with
    | true =>
      simp only [hroot, if_true, reduceCtorEq, ok.injEq, false_iff, not_and]
      rintro rfl
      simp [hroot]
    | false =>
      simp only [hroot, Bool.false_eq_true, if_false, ok.injEq]
      exact ⟨fun h => ⟨h, h ▸ hroot⟩, And.left⟩

theorem activate_spec (h : at_.activate uploadID = .ok (some commit)) : CommitSpec codec at_ commit := by
  obtain ⟨record, hrecord, h⟩ := bind_ok h
  split_ifs at h with hclosed hactive
  · cases h
  · cases h
    simp only [Bool.or_eq_true, not_or, Bool.not_eq_true, Option.isSome_eq_false_iff, Option.isNone_iff_eq_none,
      Bool.not_eq_false'] at hclosed
    obtain ⟨hstored, _, hid⟩ := upload_open hrecord hclosed.2
    refine .of_writes rfl rfl fun write hwrite => ?_
    obtain rfl := mem_singleton.mp hwrite
    refine written_spec hstored hid rfl rfl (.activated ?_ hclosed.1 rfl)
    simpa [isOpen, hactive] using hclosed.2

variable {uploadIDs : List String}

theorem activations_spec : ∀ write ∈ at_.activations uploadIDs, WriteSpec codec at_ commit write := by
  induction uploadIDs with
  | nil => simp [activations]
  | cons id rest ih =>
    unfold activations
    cases hrecord : at_.upload id with
    | error e => exact ih
    | ok record =>
      dsimp only
      split_ifs with hskip
      · exact ih
      · intro write hwrite
        rcases mem_cons.mp hwrite with rfl | hwrite
        · simp only [ne_eq, decide_not, Bool.or_eq_true, Bool.not_eq_true', decide_eq_false_iff_not, decide_eq_true_eq,
            not_or, not_not, Bool.not_eq_true, Option.isSome_eq_false_iff, Option.isNone_iff_eq_none] at hskip
          obtain ⟨hstored, _, hid⟩ := upload_open hrecord (by simp [isOpen, hskip.1.1])
          exact written_spec hstored hid rfl rfl (.activated hskip.1.1 hskip.1.2 rfl)
        · exact ih write hwrite

theorem complete_spec {request : CompleteUploadRequest} {progress : Except Error UploadProgress}
    (h : at_.completeUpload008 codec request progress = .ok (.commits commit)) : CommitSpec codec at_ commit := by
  obtain ⟨record, hrecord, h⟩ := bind_ok h
  obtain ⟨_, _, h⟩ := bind_ok h
  obtain ⟨_, _, h⟩ := bind_ok h
  obtain ⟨_, _, h⟩ := bind_ok h
  obtain ⟨_, _, h⟩ := bind_ok h
  obtain ⟨resolved, hresolved, h⟩ := bind_ok h
  have hpublish : at_.publishUpload codec record resolved progress = .ok (.commits commit) := by
    cases hstate : record.state with
    | uploadInitializing => simpa [hstate] using h
    | uploadActive => simpa [hstate] using h
    | uploadCompleted =>
      simp only [hstate] at h
      obtain ⟨_, _, h⟩ := bind_ok h
      cases h
    | uploadAborted =>
      simp only [hstate] at h
      cases h
  obtain ⟨_, hactive, hpublish⟩ := bind_ok hpublish
  obtain ⟨progress, _, hpublish⟩ := bind_ok hpublish
  obtain ⟨_, _, hpublish⟩ := bind_ok hpublish
  obtain ⟨_, hroot, hpublish⟩ := bind_ok hpublish
  cases hpublish
  simp only [rejectIf_eq_ok_iff, Bool.or_eq_false_iff, ne_eq, decide_not, Bool.not_eq_false',
    decide_eq_true_eq] at hactive hroot
  have hopen : record.isOpen = true := by simp [isOpen, hactive.1]
  obtain ⟨hstored, hoverlaid, hid⟩ := upload_open hrecord hopen
  have hcompletion : record.completion = none := completion_of_valid (upload_valid hrecord hstored) hopen
  have hreadable : Readable codec at_.ownerID record.uploadID
      { record with state := .uploadCompleted, cleanupPending := true } :=
    readable_completed hrecord hstored ⟨resolved,
      storedUploadPath_eq_ok_iff.mpr ⟨parseResolvedPath_eq_ok_iff.mp hresolved, hroot⟩⟩ (by rw [hcompletion]; rfl)
  rw [← hid] at hstored
  refine ⟨fun write hwrite => ?_, by simp, fun publication hpublication => ?_, by simp⟩
  · obtain rfl := mem_singleton.mp hwrite
    exact written_spec hstored rfl rfl rfl (.completed hopen (.inl hactive.1) hoverlaid (by simp) rfl hreadable)
  · obtain rfl := mem_singleton.mp hpublication
    exact ⟨_, find?_cons_of_pos (by simp [write]), rfl, .single hcompletion, record, hstored, hopen⟩

theorem abort_spec (h : at_.abortUpload008 uploadID = .ok (some commit)) : CommitSpec codec at_ commit := by
  obtain ⟨record, hrecord, h⟩ := bind_ok h
  obtain ⟨_, _, h⟩ := bind_ok h
  have hopen : record.isOpen = true := by
    cases hstate : record.state <;> simp [hstate] at h <;> simp [isOpen, hstate]
  have hcommit : commit = ({ exact := false, writes := [at_.write uploadID
      { record with state := .uploadAborted, cleanupPending := true }] } : OwnerCommit) := by
    cases hstate : record.state <;> simp [hstate] at h <;> exact h.symm
  subst hcommit
  obtain ⟨hstored, _, hid⟩ := upload_open hrecord hopen
  refine .of_writes rfl rfl fun write hwrite => ?_
  obtain rfl := mem_singleton.mp hwrite
  exact written_spec hstored hid rfl rfl (.aborted hopen rfl)

theorem cleanup_spec (h : at_.cleanupPortableUpload uploadID = .ok (some commit)) : CommitSpec codec at_ commit := by
  obtain ⟨record, hrecord, h⟩ := bind_ok h
  cases hpending : record.cleanupPending with
  | false =>
    simp only [hpending] at h
    cases h
  | true =>
  simp only [hpending, if_true] at h
  cases h
  obtain ⟨hstored, _, hid⟩ := upload_stored hrecord (.inr hpending)
  have hclosed := cleanup_of_valid (upload_valid hrecord hstored) hpending
  refine .of_writes rfl rfl fun write hwrite => ?_
  obtain rfl := mem_singleton.mp hwrite
  exact written_spec hstored hid rfl rfl (.cleaned hclosed rfl)

variable {α : Type} {xs : List α}

theorem forall₂_opened {loaded : List LoadedItem} {f : α → Except Error LoadedItem}
    (h : List.Forall₂ (fun x item => f x = .ok item) xs loaded)
    (hlength : (loaded.filterMap LoadedItem.openRecord).length = xs.length) :
    List.Forall₂ (fun x record => f x = .ok (.open_ record)) xs (loaded.filterMap LoadedItem.openRecord) := by
  induction h with
  | nil => exact .nil
  | @cons x item xs loaded hx hrest ih =>
    cases item with
    | terminal record =>
      have hle := length_filterMap_le LoadedItem.openRecord loaded
      have hsame := hrest.length_eq
      rw [filterMap_cons_none rfl, length_cons] at hlength
      omega
    | open_ record =>
      simp only [filterMap_cons, LoadedItem.openRecord, length_cons, Nat.add_right_cancel_iff] at hlength ⊢
      exact .cons hx (ih hlength)

variable {β : Type} {R : α → β → Prop} {ys : List β} {γ : Type} {f : α → β → γ}

theorem exists_of_mem_zipWith
    (h : List.Forall₂ R xs ys) {z : γ} (hz : z ∈ zipWith f xs ys) : ∃ x ∈ xs, ∃ y ∈ ys, R x y ∧ z = f x y := by
  induction h with
  | nil => simp at hz
  | @cons x y xs ys hxy _ ih =>
    rcases mem_cons.mp hz with rfl | hz
    · exact ⟨x, .head _, y, .head _, hxy, rfl⟩
    · obtain ⟨x', hx', y', hy', hxy', rfl⟩ := ih hz
      exact ⟨x', .tail _ hx', y', .tail _ hy', hxy', rfl⟩

theorem mem_zipWith_of_mem (h : List.Forall₂ R xs ys) {x : α} (hx : x ∈ xs) : ∃ y, R x y ∧ f x y ∈ zipWith f xs ys := by
  induction h with
  | nil => simp at hx
  | @cons x' y xs ys hxy _ ih =>
    rcases mem_cons.mp hx with rfl | hx
    · exact ⟨y, hxy, .head _⟩
    · obtain ⟨y', hxy', hmem⟩ := ih hx
      exact ⟨y', hxy', .tail _ hmem⟩

theorem exists_left_of_mem (h : List.Forall₂ R xs ys) {y : β} (hy : y ∈ ys) : ∃ x, R x y := by
  induction h with
  | nil => simp at hy
  | @cons x y' _ _ hxy _ ih =>
    rcases mem_cons.mp hy with rfl | hy
    · exact ⟨x, hxy⟩
    · exact ih hy

theorem map_zipWith_left {δ : Type} {g : γ → δ} {k : α → δ}
    (h : List.Forall₂ R xs ys) (hg : ∀ x y, g (f x y) = k x) : (zipWith f xs ys).map g = xs.map k := by
  induction h with
  | nil => rfl
  | cons _ _ ih => rw [zipWith_cons_cons, map_cons, map_cons, ih, hg]

variable {recordReceipts : Bool}

theorem loadCompletion_open {item : CompletionItem} (h : at_.loadCompletion recordReceipts item = .ok (.open_ record)) :
    at_.upload item.uploadID = .ok record ∧ record.isOpen = true := by
  obtain ⟨read, hread, h⟩ := bind_ok h
  obtain ⟨_, _, h⟩ := bind_ok h
  split_ifs at h with hreceipt
  · unfold completionReceipt at h
    obtain ⟨_, _, h⟩ := bind_ok h
    cases h
  · obtain ⟨_, hopen, h⟩ := bind_ok h
    cases h
    simp only [rejectIf_eq_ok_iff, Bool.or_eq_false_iff, Bool.not_eq_false'] at hopen
    exact ⟨hread, hopen.1⟩

theorem completeBatch_spec {items : List CompletionItem}
    (h : at_.completeUploadBatchWithReceipt codec recordReceipts items = .ok (some commit)) :
      CommitSpec codec at_ commit := by
  obtain ⟨_, hnodup, h⟩ := bind_ok h
  obtain ⟨loaded, hloaded, h⟩ := bind_ok h
  dsimp only at h
  split_ifs at h with hempty
  · cases h
  obtain ⟨_, hlength, h⟩ := bind_ok h
  obtain ⟨_, hverified, h⟩ := bind_ok h
  obtain ⟨_, hpaths, h⟩ := bind_ok h
  cases h
  simp only [rejectIf_eq_ok_iff, Bool.not_eq_false', decide_eq_true_eq, ne_eq, decide_not] at hnodup hlength
  simp only [rejectIf_eq_ok_iff, Bool.not_eq_false', all_eq_true] at hverified hpaths
  have hopened := forall₂_opened (forall₂_of_mapM hloaded) hlength
  generalize loaded.filterMap LoadedItem.openRecord = records at hlength hpaths hopened ⊢
  have hwritten : ∀ change ∈ zipWith (at_.completedItem codec) items records,
      ∃ item ∈ items, ∃ record ∈ records, at_.loadCompletion recordReceipts item = .ok (.open_ record) ∧
        change = at_.completedItem codec item record := fun change hchange => exists_of_mem_zipWith hopened hchange
  have hpublishes : ∀ item ∈ items, (map Prod.snd (zipWith (at_.completedItem codec) items records)).any (·.uploadID =
      item.uploadID) = true := by
    intro item hitem
    obtain ⟨record, _, hmem⟩ := mem_zipWith_of_mem (f := at_.completedItem codec) hopened hitem
    exact any_eq_true.mpr ⟨_, mem_map_of_mem hmem, by simp [completedItem]⟩
  refine ⟨fun write hwrite => ?_, ?_, fun publication hpublication => ?_, by simp⟩
  · obtain ⟨change, hchange, rfl⟩ := mem_map.mp hwrite
    obtain ⟨item, hitem, record, hrecord, hload, rfl⟩ := hwritten change hchange
    obtain ⟨hupload, hopen⟩ := loadCompletion_open hload
    obtain ⟨hstored, hoverlaid, hid⟩ := upload_open hupload hopen
    have hfingerprint := hverified item hitem
    simp only [fingerprintComplete, ne_eq, decide_not, Bool.and_eq_true, Bool.not_eq_true',
      decide_eq_false_iff_not] at hfingerprint
    have hpath : ∃ path, storedUploadPath codec record.resolvedPath = .ok path := by
      have hpath := hpaths record hrecord
      cases hstoredPath : storedUploadPath codec record.resolvedPath with
      | error e => simp [hstoredPath, Except.toBool] at hpath
      | ok path => exact ⟨path, rfl⟩
    have hcompletion : checkUploadCompletion .uploadCompleted
        (some { md5 := item.md5, crc32c := item.crc32c, modifiedAt := at_.now }) = .ok () := by
      simp [checkUploadCompletion, rejectIf, at_.started, hfingerprint.1, hfingerprint.2, bind, Except.bind]
    have hreadable : Readable codec at_.ownerID record.uploadID
        { record with state := .uploadCompleted, cleanupPending := false
                      completion := some { md5 := item.md5, crc32c := item.crc32c, modifiedAt := at_.now } } :=
      readable_completed hupload hstored hpath hcompletion
    exact written_spec hstored hid rfl rfl (.completed hopen (.inr rfl) hoverlaid (hpublishes item hitem) rfl hreadable)
  · have hids : map UploadPublication.uploadID (map Prod.snd (zipWith (at_.completedItem codec) items records)) =
        items.map CompletionItem.uploadID := by
      rw [map_map]
      exact map_zipWith_left hopened fun _ _ => rfl
    rw [hids]
    exact hnodup
  · obtain ⟨change, hchange, rfl⟩ := mem_map.mp hpublication
    obtain ⟨item, hitem, record, _, hload, rfl⟩ := hwritten change hchange
    have hsome : ((map Prod.fst (zipWith (at_.completedItem codec) items records)).find? (·.uploadID =
        item.uploadID)).isSome := by
      rw [find?_isSome]
      exact ⟨_, mem_map_of_mem hchange, by simp [completedItem, write]⟩
    obtain ⟨write, hwrite⟩ := Option.isSome_iff_exists.mp hsome
    refine ⟨write, hwrite, ?_⟩
    obtain ⟨change', hchange', rfl⟩ := mem_map.mp (mem_of_find?_eq_some hwrite)
    obtain ⟨item', hitem', record', _, hload', rfl⟩ := hwritten change' hchange'
    have hsame : item'.uploadID = item.uploadID := by
      have hfound := find?_some hwrite
      exact of_decide_eq_true hfound
    obtain rfl : item' = item := inj_on_of_nodup_map hnodup hitem' hitem hsame
    obtain rfl : record' = record := by
      rw [hload] at hload'
      cases hload'
      rfl
    obtain ⟨hupload, hopen⟩ := loadCompletion_open hload
    obtain ⟨hstored, _, _⟩ := upload_open hupload hopen
    refine ⟨rfl, ?_, record', hstored, hopen⟩
    have hentry : (at_.completedItem codec item' record').2.published =
        uploadEntry codec (at_.completedItem codec item' record').1.after item'.md5 item'.crc32c at_.now := rfl
    have hcompletion : (at_.completedItem codec item' record').1.after.completion =
        some { md5 := item'.md5, crc32c := item'.crc32c, modifiedAt := at_.now } := rfl
    exact PublishedAs.batch hcompletion

variable {batchID : String}

theorem loadAbort_open {count : Nat} (h : at_.loadAbort recordReceipts batchID count uploadID = .ok (.open_ record)) :
    at_.upload uploadID = .ok record ∧ record.isOpen = true ∧
      (batchID ≠ "" → ∃ member, record.batch = some member ∧ member.batchID = batchID ∧ member.count = count) := by
  obtain ⟨read, hread, h⟩ := bind_ok h
  obtain ⟨_, _, h⟩ := bind_ok h
  split_ifs at h with hreceipt
  · cases h
  · obtain ⟨_, hopen, h⟩ := bind_ok h
    obtain ⟨_, hmember, h⟩ := bind_ok h
    cases h
    simp only [rejectIf_eq_ok_iff, Bool.not_eq_false', ne_eq, decide_not] at hopen hmember
    refine ⟨hread, hopen, fun hbatch => ?_⟩
    cases hmembership : record.batch with
    | none => simp [hmembership, hbatch] at hmember
    | some member =>
      simp only [hmembership, Option.any_some, hbatch, decide_false, Bool.not_false, Bool.true_and, Bool.not_eq_false',
        Bool.and_eq_true, decide_eq_true_eq] at hmember
      exact ⟨member, rfl, hmember⟩

theorem loadAborts_ok {records : List PortableUploadRecord}
    (h : at_.loadAborts recordReceipts batchID uploadIDs = .ok (some records)) :
    records ≠ [] ∧ List.Forall₂ (fun uploadID record => at_.upload uploadID = .ok record ∧ record.isOpen = true ∧
      (batchID ≠ "" → ∃ member, record.batch = some member ∧ member.batchID = batchID ∧ member.count = records.length))
      uploadIDs records := by
  obtain ⟨_, _, h⟩ := bind_ok h
  obtain ⟨loaded, hloaded, h⟩ := bind_ok h
  dsimp only at h
  split_ifs at h with hempty
  · cases h
  obtain ⟨_, hlength, h⟩ := bind_ok h
  cases h
  simp only [rejectIf_eq_ok_iff, ne_eq, decide_not, Bool.not_eq_false', decide_eq_true_eq] at hlength
  refine ⟨by simpa using hempty, ?_⟩
  rw [hlength]
  exact (forall₂_opened (forall₂_of_mapM hloaded) hlength).imp fun _ _ hopen => loadAbort_open hopen

theorem abortBatch_spec
    (h : at_.abortUploadBatchWithReceipt recordReceipts uploadIDs = .ok (some commit)) :
      CommitSpec codec at_ commit := by
  obtain ⟨loaded, hloaded, h⟩ := bind_ok h
  cases loaded with
  | none => cases h
  | some records =>
    cases h
    refine .of_writes rfl rfl fun write hwrite => ?_
    obtain ⟨id, _, record, _, ⟨hupload, hopen, _⟩, rfl⟩ := exists_of_mem_zipWith (loadAborts_ok hloaded).2 hwrite
    obtain ⟨hstored, _, hid⟩ := upload_open hupload hopen
    exact written_spec hstored hid rfl rfl (.aborted hopen rfl)

/-! ### The bitmap -/

theorem getD_setMember (bitmap : List UInt8) (index i : Nat) : ((setMember bitmap index).getD i 0).toNat =
      if i = index / 8 ∧ i < bitmap.length then (bitmap.getD i 0).toNat ||| 2 ^ (index % 8) else
        (bitmap.getD i 0).toNat := by
  have hbit : (UInt8.ofNat (2 ^ (index % 8))).toNat = 2 ^ (index % 8) := by
    have hlt : index % 8 < 8 := Nat.mod_lt _ (by decide)
    have hpow : 2 ^ (index % 8) < 2 ^ 8 := Nat.pow_lt_pow_right (by decide) hlt
    exact UInt8.toNat_ofNat_of_lt' hpow
  unfold setMember
  by_cases hi : index / 8 = i
  · by_cases hlt : i < bitmap.length
    · simp [hi, hlt, hbit]
    · simp [hi, hlt]
  · simp [hi, Ne.symm hi]

variable {bitmap : List UInt8} {i : Nat} {index : Nat}

theorem testBit_setMember (h : ((setMember bitmap index).getD (i / 8) 0).toNat.testBit (i % 8) = true) :
    ((bitmap.getD (i / 8) 0).toNat.testBit (i % 8) = true) ∨ i = index := by
  rw [getD_setMember] at h
  split_ifs at h with hbyte
  · rw [Nat.testBit_or, Bool.or_eq_true, Nat.testBit_two_pow] at h
    rcases h with h | h
    · exact .inl h
    · refine .inr ?_
      have hsame : index % 8 = i % 8 := by simpa using h
      omega
  · exact .inl h

theorem testBit_setMember_of (h : (bitmap.getD (i / 8) 0).toNat.testBit (i % 8) = true) :
    ((setMember bitmap index).getD (i / 8) 0).toNat.testBit (i % 8) = true := by
  rw [getD_setMember]
  split_ifs
  · rw [Nat.testBit_or, h, Bool.true_or]
  · exact h

variable {indexes : List Nat}

theorem testBit_foldl (h : ((indexes.foldl setMember bitmap).getD (i / 8) 0).toNat.testBit (i % 8) = true) :
    ((bitmap.getD (i / 8) 0).toNat.testBit (i % 8) = true) ∨ i ∈ indexes := by
  induction indexes generalizing bitmap with
  | nil => exact .inl h
  | cons index rest ih =>
    rcases ih h with h | h
    · rcases testBit_setMember h with h | h
      · exact .inl h
      · exact .inr (h ▸ mem_cons_self)
    · exact .inr (.tail _ h)

theorem testBit_foldl_of (h : (bitmap.getD (i / 8) 0).toNat.testBit (i % 8) = true) :
    ((indexes.foldl setMember bitmap).getD (i / 8) 0).toNat.testBit (i % 8) = true := by
  induction indexes generalizing bitmap with
  | nil => exact h
  | cons index rest ih => exact ih (testBit_setMember_of h)

theorem overlay_spec (hbatch : batchID ≠ "")
    (h : at_.abortBatchOverlay batchID uploadIDs = .ok (some commit)) : CommitSpec codec at_ commit := by
  obtain ⟨loaded, hloaded, h⟩ := bind_ok h
  cases loaded with
  | none => cases h
  | some records =>
    obtain ⟨_, _, h⟩ := bind_ok h
    obtain ⟨_, _, h⟩ := bind_ok h
    obtain ⟨bitmap, hbitmap, h⟩ := bind_ok h
    obtain ⟨_, hvalid, h⟩ := bind_ok h
    cases h
    obtain ⟨hsome, hmembers⟩ := loadAborts_ok hloaded
    have hbound : ∀ record ∈ records, ∃ id member, at_.head.records id = some record ∧ record.isOpen = true ∧
        record.batch = some member ∧ member.batchID = batchID ∧ member.count = records.length := by
      intro record hrecord
      obtain ⟨id, hupload, hopen, hmember⟩ := exists_left_of_mem hmembers hrecord
      obtain ⟨hstored, _, _⟩ := upload_open hupload hopen
      obtain ⟨member, hmember⟩ := hmember hbatch
      exact ⟨id, member, hstored, hopen, hmember⟩
    refine ⟨by simp, by simp, by simp, fun overlay hoverlay => ?_⟩
    obtain rfl := Option.some.inj hoverlay
    refine ⟨rfl, rfl, hvalid, rfl, ?_, fun index hindex => ?_, fun old hold index hindex => ?_⟩
    · obtain ⟨record, hrecord⟩ := exists_mem_of_ne_nil records hsome
      obtain ⟨id, member, hstored, _, hmember⟩ := hbound record hrecord
      exact ⟨id, record, member, hstored, hmember⟩
    · simp only [PortableUploadBatchAbort.aborts, Bool.and_eq_true, decide_eq_true_eq] at hindex
      rcases testBit_foldl hindex.2 with hbit | hmember
      · -- the bit was set before
        refine .inl ?_
        unfold overlayBitmap at hbitmap
        cases hold : at_.head.aborts batchID with
        | none =>
          simp only [hold, ok.injEq] at hbitmap
          subst hbitmap
          rw [getD_eq_getElem?_getD, getElem?_replicate] at hbit
          split_ifs at hbit <;> simp at hbit
        | some old =>
          simp only [hold] at hbitmap
          obtain ⟨_, hcount, hbitmap⟩ := bind_ok hbitmap
          cases hbitmap
          simp only [rejectIf_eq_ok_iff, ne_eq, decide_not, Bool.not_eq_false', decide_eq_true_eq] at hcount
          refine ⟨old, rfl, ?_⟩
          simp only [PortableUploadBatchAbort.aborts, Bool.and_eq_true, decide_eq_true_eq]
          exact ⟨hcount ▸ hindex.1, hbit⟩
      · refine .inr ?_
        obtain ⟨record, hrecord, hmember⟩ := mem_filterMap.mp hmember
        obtain ⟨member, hmembership, rfl⟩ := Option.map_eq_some_iff.mp hmember
        obtain ⟨id, member', hstored, hopen, hmembership', hbatchID, _⟩ := hbound record hrecord
        rw [hmembership] at hmembership'
        cases hmembership'
        exact ⟨id, record, member, hstored, hopen, hmembership, hbatchID, rfl⟩
    · unfold overlayBitmap at hbitmap
      simp only [hold] at hbitmap
      obtain ⟨_, hcount, hbitmap⟩ := bind_ok hbitmap
      cases hbitmap
      simp only [rejectIf_eq_ok_iff, ne_eq, decide_not, Bool.not_eq_false', decide_eq_true_eq] at hcount
      simp only [PortableUploadBatchAbort.aborts, Bool.and_eq_true, decide_eq_true_eq] at hindex ⊢
      exact ⟨hcount ▸ hindex.1, testBit_foldl_of hindex.2⟩

end UploadAttempt

theorem plan_spec {command : UploadCommand codec}
    (h : command.plan codec at_ = .ok (some commit)) : CommitSpec codec at_ commit := by
  cases command with
  | create creation =>
    cases h
    refine .of_writes rfl rfl fun write hwrite => ?_
    obtain rfl := mem_singleton.mp hwrite
    exact created_spec fun _ hmember => by cases hmember
  | admission creations =>
    cases h
    refine .of_writes rfl rfl fun write hwrite => ?_
    obtain ⟨creation, _, rfl⟩ := mem_map.mp hwrite
    exact created_spec fun _ hmember => by cases hmember
  | createBatch batchID creations =>
    cases h
    refine .of_writes rfl rfl fun write hwrite => ?_
    obtain ⟨⟨creation, index⟩, hcreation, rfl⟩ := mem_map.mp hwrite
    refine created_spec fun member hmember => ?_
    cases hmember
    refine ⟨rfl, ?_⟩
    cases creations with
    | nil => simp at hcreation
    | cons creation rest => exact ⟨_, find?_cons_of_pos (by simp), rfl⟩
  | activate uploadID => exact activate_spec h
  | activatePage uploadIDs =>
    cases h
    exact .of_writes rfl rfl activations_spec
  | complete request progress =>
    unfold UploadCommand.plan at h
    cases hcompletion : at_.completeUpload008 codec request progress with
    | error e => simp [hcompletion, Except.map] at h
    | ok completion =>
      cases completion with
      | replayed entry => simp [hcompletion, Except.map, UploadAttempt.Completion.commit] at h
      | commits prepared =>
        obtain rfl : prepared = commit := by simpa [hcompletion, Except.map, UploadAttempt.Completion.commit] using h
        exact UploadAttempt.complete_spec hcompletion
  | completeBatch recordReceipts items => exact completeBatch_spec h
  | abort uploadID => exact abort_spec h
  | abortBatch recordReceipts uploadIDs => exact abortBatch_spec h
  | abortOverlay batchID uploadIDs =>
    by_cases hbatch : batchID = ""
    · exact abortBatch_spec ((if_pos hbatch).symm.trans h)
    · exact overlay_spec hbatch ((if_neg hbatch).symm.trans h)
  | cleanup uploadID => exact cleanup_spec h
  | other =>
    cases h
    exact .of_writes rfl rfl (by simp)

end EndlessFS
