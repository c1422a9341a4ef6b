import EndlessFS.Uploads.Exclusive

/-!
# EndlessFS.Uploads.Repeat

Completing an upload again, after it was published.

* `publications_stay`: what was published stays so, and its record stays readable.
* `completeAction`: `UploadActions` on one upload that is to be completed.
* `FileAt`: what the namespace holds at a path.
* `completion_repeated_iff`: which of the two ways to repeat a completion returns the entry that was
  published. `completeUpload008` reads the path again, `UploadActions` needs the receipt that only a batch
  leaves in the record.
-/

namespace EndlessFS

open Except NamespaceFrame UploadAttempt

variable {codec : NamespaceCodec}

/-! ## Reading a path -/

def FileAt (codec : NamespaceCodec) (root : NamespaceEntry) (published : ResolvedEntry) : Prop :=
  ∃ directory file, Walks codec directory root published.path.dropLast ∧
    Edit.find NamespaceEntry.name directory.children (published.path.getLast?.getD "") = some file ∧
    checkNamespaceEntry codec file = .ok () ∧ file.entry = published.entry

variable {at_ : UploadAttempt}

theorem UploadAttempt.resolveEntry_eq_ok_iff {path : UserPath codec.toNormalization}
    (hroot : path.isRoot = false) {published : ResolvedEntry} (hpath : published.path = path.segments) :
    at_.resolveEntry codec path = .ok published ↔
      FileAt codec (viewRoot codec at_.ownerID at_.view at_.area) published := by
  unfold resolveEntry FileAt
  rw [if_neg (by simp [hroot]), hpath]
  constructor
  · intro h
    obtain ⟨trail, htrail, h⟩ := bind_ok h
    obtain ⟨parent, hparent, h⟩ := bind_ok h
    obtain ⟨found, hfound, h⟩ := bind_ok h
    obtain ⟨file, hfile, h⟩ := bind_ok h
    cases h
    cases found with
    | none => cases hfile
    | some c =>
      cases hfile
      obtain ⟨hfind, hcheck⟩ := child_some hfound
      exact ⟨parent.entry, file, resolveTrail_walks.mp ⟨trail, parent, htrail, hparent, rfl⟩, hfind, hcheck, rfl⟩
  · rintro ⟨directory, file, hwalks, hfind, hcheck, hentry⟩
    obtain ⟨trail, parent, htrail, hparent, rfl⟩ := resolveTrail_walks (p := path.parent).mpr hwalks
    refine bind_eq_ok_iff.mpr ⟨trail, htrail, bind_eq_ok_iff.mpr ⟨parent, hparent, ?_⟩⟩
    refine bind_eq_ok_iff.mpr ⟨some file, child_eq_ok_some_iff.mpr ⟨hfind, hcheck⟩, ?_⟩
    rw [requireFound, ok_bind, hentry, ← hpath]
    rfl

/-! ## Reading a completed record -/

theorem FirstMember.count_eq {head : OwnerHead} {batchID : String} {m n : Nat} (h : FirstMember codec head batchID m)
    (h' : FirstMember codec head batchID n) : m = n := by
  obtain ⟨first, hfirst, hbatch⟩ := h
  obtain ⟨first', hfirst', hbatch'⟩ := h'
  rw [hfirst] at hfirst'
  cases hfirst'
  rw [hbatch] at hbatch'
  cases hbatch'
  rfl

theorem LifecycleInv.upload_completed (hinv : LifecycleInv codec at_.ownerID at_.head) {uploadID : String}
    {record : PortableUploadRecord} (hrecord : at_.head.records uploadID = some record)
    (hstate : record.state = .uploadCompleted) :
    at_.upload uploadID = .ok record := by
  obtain ⟨hoverlaid, hreadable⟩ := hinv.completed uploadID record hrecord hstate
  have hunder : record.underAbort at_.head.aborts = record := if_neg (by simp [hoverlaid])
  unfold UploadAttempt.upload portableUploadAtView
  simp only [hrecord, hreadable.decoded, Except.ok_bind]
  cases hbatch : record.batch with
  | none => rfl
  | some member =>
    have hfirst := (hinv.member uploadID record member hrecord hbatch).2
    have habort : portableUploadBatchAbortAtView at_.head.aborts at_.ownerID member.batchID =
        .ok (at_.head.aborts member.batchID) := by
      unfold portableUploadBatchAbortAtView
      cases haborts : at_.head.aborts member.batchID with
      | none => rfl
      | some overlay =>
        have hbound := hinv.overlay member.batchID overlay haborts
        simp [hbound.valid, hbound.owner, hbound.batch, Except.toBool, rejectIf]
    have hcount : checkAbortCount member (at_.head.aborts member.batchID) = .ok () := by
      cases haborts : at_.head.aborts member.batchID with
      | none => rfl
      | some overlay =>
        have hbound := hinv.overlay member.batchID overlay haborts
        simp [checkAbortCount, rejectIf, hbound.first.count_eq hfirst]
    simp [habort, hcount, hunder]

/-- In every run: a published upload stays published, and whoever reads its record from any head finds it completed,
with the entry that was published. -/
theorem publications_stay {ownerID : String} {heads : List OwnerHead} (hrun : OwnerRun codec ownerID heads) :
    (heads.Pairwise fun later earlier => earlier.published ⊆ later.published) ∧
      ∀ at_ : UploadAttempt, at_.ownerID = ownerID → at_.head ∈ heads → ∀ publication ∈ at_.head.published,
        ∃ record, at_.upload publication.uploadID = .ok record ∧ record.state = .uploadCompleted ∧
          PublishedAs codec record publication.published := by
  refine ⟨hrun.pairwise (fun hab hbc => List.Subset.trans hbc hab) fun _ _ _ _ _ => List.subset_append_right _ _, ?_⟩
  rintro at_ rfl hhead publication hpublication
  have hinv := hrun.inv at_.head hhead
  obtain ⟨record, hrecord, hstate, hpublished⟩ := hinv.published publication hpublication
  exact ⟨record, hinv.upload_completed hrecord hstate, hstate, hpublished⟩

theorem Single.publication_read : ∃ record, (attempt completed).upload "upload" = .ok record ∧
    record.state = .uploadCompleted ∧ PublishedAs Overlap.sizes record entry :=
  (publications_stay run).2 (attempt completed) rfl (.head _) _ (.head _)

/-! ## Repeating a completion -/

namespace UploadAttempt

/-- What `UploadActions` comes to for an upload to complete: the entry of a completed one, or what the batch of
this one upload came to. -/
inductive ActionResult where
  | alreadyApplied (entry : ResolvedEntry)
  | applied (commit : Option OwnerCommit)

/-- `UploadActions`, on one upload that is to be completed. -/
def completeAction (codec : NamespaceCodec) (at_ : UploadAttempt) (item : CompletionItem) :
    Except Error ActionResult := do
  let record ← at_.upload item.uploadID
  rejectIf (record.area ≠ at_.area) (newError .notFound "upload does not exist")
  let _ ← (parseUserPath codec.toNormalization record.requestedPath).mapError fun _ =>
    newError .invalid "stored upload path is invalid"
  match record.state with
  | .uploadCompleted => do
    rejectIf (!record.completion.any fun completion => completion.crc32c = item.crc32c)
      (newError .conflict "completed checksum differs")
    let entry ← completionEntryFromRecord codec record
    pure (.alreadyApplied entry)
  | .uploadAborted => .error (newError .conflict "upload was cancelled")
  | _ => do
    rejectIf (record.expiresAt ≤ at_.now) (newError .conflict "upload expired")
    let commit ← at_.completeUploadBatchWithReceipt codec true [item]
    pure (.applied commit)

end UploadAttempt

def PortableUploadRecord.completionRequest (record : PortableUploadRecord) : CompleteUploadRequest :=
  { uploadID := record.uploadID, path := record.requestedPath, size := record.size, mediaType := record.mediaType }

def UploadPublication.completionItem (publication : UploadPublication) : CompletionItem :=
  { uploadID := publication.uploadID, crc32c := publication.published.entry.crc32c, md5 := "" }

section

variable {record : PortableUploadRecord} {publication : UploadPublication}
  (hinv : LifecycleInv codec at_.ownerID at_.head) (hpublication : publication ∈ at_.head.published)
  (hrecord : at_.head.records publication.uploadID = some record) (harea : at_.area = record.area)

include hinv hpublication hrecord in
theorem LifecycleInv.published_record : record.state = .uploadCompleted ∧
    PublishedAs codec record publication.published := by
  obtain ⟨stored, hstored, hstate, hpublished⟩ := hinv.published publication hpublication
  rw [hrecord] at hstored
  cases hstored
  exact ⟨hstate, hpublished⟩

include hinv hrecord in
theorem LifecycleInv.parse_requested : ∃ path, parseUserPath codec.toNormalization record.requestedPath = .ok path ∧
    path.segments = record.requestedPath := by
  obtain ⟨path, hpath⟩ := hinv.requested publication.uploadID record hrecord
  exact ⟨path, parseUserPath_eq_ok_iff.mpr (by rw [hpath, path.map_nfc]), hpath.symm⟩

variable {entry : ResolvedEntry}

theorem PublishedAs.path (h : PublishedAs codec record entry) : entry.path = record.resolvedPath.map codec.nfc := by
  cases h <;> rfl

theorem PublishedAs.of_completion {completion : PortableUploadCompletion}
    (h : PublishedAs codec record entry) (hcompletion : record.completion = some completion) :
    entry = uploadEntry codec record completion.md5 completion.crc32c completion.modifiedAt := by
  cases h with
  | single hnone =>
    rw [hcompletion] at hnone
    cases hnone
  | batch hsome =>
    rw [hcompletion] at hsome
    cases hsome
    rfl

include hinv hpublication hrecord harea in
theorem LifecycleInv.completeUpload008_again (progress : Except Error UploadProgress) :
    ∃ path, path.isRoot = false ∧ publication.published.path = path.segments ∧
      at_.completeUpload008 codec record.completionRequest progress =
        (at_.resolveEntry codec path).map UploadAttempt.Completion.replayed := by
  obtain ⟨hstate, hpublished⟩ := hinv.published_record hpublication hrecord
  have hupload := hinv.upload_completed hrecord hstate
  have hid := hinv.id publication.uploadID record hrecord
  obtain ⟨requested, hparse, hsegments⟩ := hinv.parse_requested hrecord
  obtain ⟨path, hpath⟩ := (hinv.completed publication.uploadID record hrecord hstate).2.path
  obtain ⟨hsame, hroot⟩ := storedUploadPath_eq_ok_iff.mp hpath
  have hresolved : parseResolvedPath codec record = .ok path :=
    parseResolvedPath_eq_ok_iff.mpr hsame
  refine ⟨path, hroot, hpublished.path.trans hsame, ?_⟩
  unfold UploadAttempt.completeUpload008
  simp only [PortableUploadRecord.completionRequest, hid, hupload, Except.ok_bind, harea, hparse, Except.mapError,
    hsegments, hresolved, hstate, rejectIf]
  cases at_.resolveEntry codec path <;> simp [Except.map]

include hinv hpublication hrecord harea in
theorem LifecycleInv.completeAction_again : at_.completeAction codec publication.completionItem =
      if record.completion.isSome then .ok (.alreadyApplied publication.published)
      else .error (newError .conflict "completed checksum differs") := by
  obtain ⟨hstate, hpublished⟩ := hinv.published_record hpublication hrecord
  have hupload := hinv.upload_completed hrecord hstate
  obtain ⟨requested, hparse, _⟩ := hinv.parse_requested hrecord
  obtain ⟨path, hpath⟩ := (hinv.completed publication.uploadID record hrecord hstate).2.path
  unfold UploadAttempt.completeAction
  simp only [UploadPublication.completionItem, hupload, Except.ok_bind, harea, hparse, Except.mapError,
    hstate, rejectIf]
  cases hcompletion : record.completion with
  | none => simp
  | some completion =>
    have hentry := hpublished.of_completion hcompletion
    have hcrc : (uploadEntry codec record completion.md5 completion.crc32c completion.modifiedAt).entry.crc32c =
        completion.crc32c := rfl
    simp [hcrc, UploadAttempt.completionEntryFromRecord, hcompletion, hpath, Except.mapError, hentry]

end

/-- After any run, for every upload that was published: repeating its completion through `completeUpload008` returns the
published entry exactly if the namespace still holds it at its path, repeating it through `UploadActions` exactly if
its record has a completion, and neither prepares a commit. -/
theorem completion_repeated_iff {ownerID : String} {heads : List OwnerHead} {at_ : UploadAttempt}
    {publication : UploadPublication} {record : PortableUploadRecord} (hrun : OwnerRun codec ownerID heads)
    (howner : at_.ownerID = ownerID) (hhead : at_.head ∈ heads) (hpublication : publication ∈ at_.head.published)
    (hrecord : at_.head.records publication.uploadID = some record) (harea : at_.area = record.area)
    (progress : Except Error UploadProgress) :
    (at_.completeUpload008 codec record.completionRequest progress = .ok (.replayed publication.published) ↔
        FileAt codec (viewRoot codec at_.ownerID at_.view at_.area) publication.published) ∧
      (at_.completeAction codec publication.completionItem = .ok (.alreadyApplied publication.published) ↔
        record.completion.isSome = true) ∧
      (∀ commit, at_.completeUpload008 codec record.completionRequest progress ≠ .ok (.commits commit)) ∧
      ∀ commit, at_.completeAction codec publication.completionItem ≠ .ok (.applied commit) := by
  have hinv : LifecycleInv codec at_.ownerID at_.head := howner ▸ hrun.inv at_.head hhead
  obtain ⟨path, hroot, hpath, hagain⟩ := hinv.completeUpload008_again hpublication hrecord harea progress
  have haction := hinv.completeAction_again hpublication hrecord harea
  refine ⟨?_, ?_, fun commit h => ?_, fun commit h => ?_⟩
  · rw [hagain, ← UploadAttempt.resolveEntry_eq_ok_iff hroot hpath]
    cases at_.resolveEntry codec path <;> simp [Except.map]
  · rw [haction]
    cases record.completion.isSome <;> simp
  · rw [hagain] at h
    cases hentry : at_.resolveEntry codec path <;> simp [hentry, Except.map] at h
  · rw [haction] at h
    cases hsome : record.completion.isSome <;> simp [hsome] at h

namespace Single

def stored : PortableUploadRecord := { record with state := .uploadCompleted, cleanupPending := true }

def withFile (file : DirectoryEntry) : UploadAttempt :=
  { attempt completed with
    view := { live := some (.mk (emptyRoot Overlap.sizes "owner" .areaLive).node [.mk { nodeID := "node",
                                                                                        entry := file } []])
              trash := none } }

theorem completion_repeated :
    ((withFile entry.entry).completeUpload008 Overlap.sizes stored.completionRequest (.ok progress) =
      .ok (.replayed entry) ↔
      FileAt Overlap.sizes (viewRoot Overlap.sizes "owner" (withFile entry.entry).view .areaLive) entry) ∧
    (withFile entry.entry).completeUpload008 Overlap.sizes stored.completionRequest (.ok progress) =
    .ok (.replayed entry) :=
  ⟨(@completion_repeated_iff _ _ _ (withFile entry.entry) { uploadID := "upload", published := entry } stored run rfl
    (.head _) (.head _) rfl rfl (.ok progress)).1, rfl⟩

def other : DirectoryEntry := { entry.entry with blobID := "other" }

/-- After the file was deleted `completeUpload008` finds nothing, after its path was used again it returns the other
file, and `UploadActions` takes the matching checksum for another one. -/
theorem completion_not_repeated : OwnerRun Overlap.sizes "owner" [completed, active, created, .empty] ∧
      completed.published = [{ uploadID := "upload", published := entry }] ∧
      (attempt completed).completeUpload008 Overlap.sizes request (.ok progress) =
        .error (newError .notFound "entry does not exist") ∧
      (withFile other).completeUpload008 Overlap.sizes request (.ok progress) =
        .ok (.replayed { path := ["a"], entry := other }) ∧
      (attempt completed).completeAction Overlap.sizes { uploadID := "upload", crc32c := entry.entry.crc32c, md5 := "" }
        =
        .error (newError .conflict "completed checksum differs") :=
  ⟨run, rfl, rfl, rfl, rfl⟩

end Single

end EndlessFS
