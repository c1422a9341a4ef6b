import EndlessFS.Namespace.Move

/-!
# EndlessFS.Namespace.UploadBatch

What the completion of a batch of uploads publishes.

* `BatchPublished`: every upload of the batch is the file at its path, everything else is as before.
* `uploads_published`: that is so exactly if no destination lies inside another. A destination below a
  directory that another upload replaces brings that directory back.
-/

namespace EndlessFS

open List
open NamespaceEntry (name)

variable {codec : NamespaceCodec}

def VerifiedUpload.path (codec : NamespaceCodec) (upload : VerifiedUpload) : List String :=
  upload.resolvedPath.map codec.nfc

def VerifiedUpload.file (upload : VerifiedUpload) : Held :=
  .file upload.blobID upload.size upload.md5 upload.crc32c upload.mediaType

/-- The batch is in the published namespace, as its result reports. -/
structure BatchPublished (codec : NamespaceCodec) (at_ : Attempt) (area : Area) (uploads : List VerifiedUpload)
    (published : NamespaceView) : Prop where
  holds : ∀ upload ∈ uploads, contents codec at_.owner published area (upload.path codec) = some upload.file
  replaced : ∀ upload ∈ uploads, ∀ n rest, contents codec at_.owner published area (upload.path codec ++ n :: rest) =
    none
  others : ∀ area' path, (area' = area → ∀ upload ∈ uploads, ¬upload.path codec <+: path) →
    contents codec at_.owner published area' path = contents codec at_.owner at_.view area' path
  aggregates : SoundView codec at_.owner at_.view → SoundView codec at_.owner published

def NestedUploads (codec : NamespaceCodec) (uploads : List VerifiedUpload) : Prop :=
  ∃ outer ∈ uploads, ∃ inner ∈ uploads, outer.path codec ≠ inner.path codec ∧ outer.path codec <+: inner.path codec

theorem uploadedFile_contents (transactionID n : String) (index : Nat) (upload : VerifiedUpload) (now : Time) :
    (uploadedFile codec transactionID index upload n now).contents [] = some upload.file ∧
      ∀ m rest, (uploadedFile codec transactionID index upload n now).contents (m :: rest) = none := by
  refine ⟨rfl, fun m rest => ?_⟩
  rfl

section

variable {at_ : Attempt} {area : Area} {transactionID : String} {plans : List (PlannedUpload codec)}
  {plan : PlannedUpload codec}

section

variable (h : UploadFound codec at_ area transactionID plan)

include h

theorem UploadFound.key : plan.parent.key = { area, path := plan.path.parent.segments } := h.parent.key

theorem UploadFound.placedName : plan.placed.name = plan.path.name := by
  obtain ⟨index, hplaced⟩ := h.placed
  rw [hplaced]
  rfl

theorem UploadFound.placed_contents :
    plan.placed.contents [] = some plan.upload.file ∧ ∀ m rest, plan.placed.contents (m :: rest) = none := by
  obtain ⟨index, hplaced⟩ := h.placed
  rw [hplaced]
  exact uploadedFile_contents _ _ _ _ _

end

variable (hfound : ∀ plan ∈ plans, UploadFound codec at_ area transactionID plan)
include hfound

theorem find_uploaded (hnodup : (plans.map PlannedUpload.path).Nodup) (hplan : plan ∈ plans)
    (items : List NamespaceEntry) : Edit.find name (Edit.applyAll name items
      (editsFor (uploadPairs codec plans) { area, path := plan.path.parent.segments })) plan.path.name =
        some plan.placed := by
  have hf := hfound plan hplan
  refine Edit.find_applyAll (e := { before := plan.existing, after := some plan.placed }) ?_ (fun a ha => ?_)
    ((touches_placed hf.found hf.placedName).mpr rfl) ?_
  · rw [mem_editsFor, ← hf.key]
    exact mem_map_of_mem hplan
  · cases ha
    exact hf.placedName
  · -- two edits of one name in one directory would be of one path
    unfold editsFor uploadPairs
    rw [pairwise_map, filter_map, pairwise_map]
    refine .imp_of_mem (fun {a b} ha hb hne ht => ?_) (.filter _ (pairwise_map.mp hnodup))
    obtain ⟨ha, hakey⟩ := mem_filter.mp ha
    obtain ⟨hb, hbkey⟩ := mem_filter.mp hb
    simp only [Function.comp_apply, decide_eq_true_eq] at hakey hbkey ht
    have hfa := hfound a ha
    have hfb := hfound b hb
    rw [hfa.key, FrameKey.mk.injEq] at hakey
    rw [hfb.key, FrameKey.mk.injEq] at hbkey
    have hna := (touches_placed hfa.found hfa.placedName).mp ht.1
    have hnb := (touches_placed hfb.found hfb.placedName).mp ht.2
    refine hne (UserPath.ext ?_)
    rw [← UserPath.parent_append_name hfa.notRoot, ← UserPath.parent_append_name hfb.notRoot, hakey.2,
      hbkey.2, ← hna, ← hnb]

theorem find_not_uploaded {q : List String} {n : String} (hother : ∀ plan ∈ plans, plan.path.segments ≠ q ++ [n])
    (items : List NamespaceEntry) :
    Edit.find name (Edit.applyAll name items (editsFor (uploadPairs codec plans) { area, path := q })) n =
      Edit.find name items n := by
  refine Edit.find_applyAll_untouched fun edit hedit ht => ?_
  obtain ⟨plan, hplan, heq⟩ := mem_map.mp (mem_editsFor.mp hedit)
  obtain ⟨hkey, rfl⟩ := Prod.mk.inj heq
  have hf := hfound plan hplan
  rw [hf.key, FrameKey.mk.injEq] at hkey
  refine hother plan hplan ?_
  rw [← UserPath.parent_append_name hf.notRoot, hkey.2, (touches_placed hf.found hf.placedName).mp ht]

theorem above_upload {pair : FrameKey × DirectoryEdit} {path : List String} (hpair : pair ∈ uploadPairs codec plans)
    (hpath : path <+: pair.1.path) : ∃ plan ∈ plans, pair.1 = plan.parent.key ∧ path <+: plan.path.parent.segments := by
  obtain ⟨plan, hplan, rfl⟩ := mem_map.mp hpair
  refine ⟨plan, hplan, rfl, ?_⟩
  have hkey := (hfound plan hplan).key
  rwa [hkey] at hpath

end

/-- What a completed batch comes to: the plans of its uploads, and the publication of their edits. -/
structure BatchCommitted (codec : NamespaceCodec) (at_ : Attempt) (area : Area) (transactionID : String)
    (uploads : List VerifiedUpload) (plans : List (PlannedUpload codec)) (changes : Changes) : Prop where
  uploads : plans.map PlannedUpload.upload = uploads
  found : ∀ plan ∈ plans, UploadFound codec at_ area transactionID plan
  nodup : (plans.map PlannedUpload.path).Nodup
  commits : ∃ frames start, Commits codec at_ (uploadPairs codec plans) at_.now frames start changes

namespace BatchCommitted

variable {at_ : Attempt} {area : Area} {transactionID : String} {uploads : List VerifiedUpload}
  {plans : List (PlannedUpload codec)} {plan : PlannedUpload codec} {changes : Changes}
  (h : BatchCommitted codec at_ area transactionID uploads plans changes)

include h

theorem plan_of_upload {upload : VerifiedUpload} (hupload : upload ∈ uploads) :
    ∃ plan ∈ plans, plan.upload = upload ∧ plan.path.segments = upload.path codec := by
  rw [← h.uploads] at hupload
  obtain ⟨plan, hplan, rfl⟩ := mem_map.mp hupload
  exact ⟨plan, hplan, rfl, (h.found plan hplan).path⟩

theorem upload_of_plan (hplan : plan ∈ plans) : plan.upload ∈ uploads ∧ plan.path.segments = plan.upload.path codec :=
  ⟨h.uploads ▸ mem_map_of_mem hplan, (h.found plan hplan).path⟩

theorem pair_of_plan (hplan : plan ∈ plans) :
    ∃ pair ∈ uploadPairs codec plans, pair.1 = { area, path := plan.path.parent.segments } :=
  ⟨_, mem_map_of_mem hplan, (h.found plan hplan).key⟩

/-- An upload into another one's destination: there is a directory, and not the file. -/
theorem not_published (hnested : NestedUploads codec uploads) :
    ¬BatchPublished codec at_ area uploads (at_.view.publish changes) := by
  intro hpublished
  obtain ⟨outer, houter, inner, hinner, hne, hbegins⟩ := hnested
  obtain ⟨plan, hmem, rfl, hinnerPath⟩ := h.plan_of_upload hinner
  have hf := h.found plan hmem
  rw [← hinnerPath] at hne hbegins
  have habove : outer.path codec <+: plan.path.parent.segments := by
    rw [← UserPath.parent_append_name hf.notRoot, prefix_concat_iff, UserPath.parent_append_name hf.notRoot] at hbegins
    exact hbegins.resolve_left hne
  obtain ⟨pair, hmemPair, hkey⟩ := h.pair_of_plan hmem
  obtain ⟨frames, start, hcommits⟩ := h.commits
  have hholds := hpublished.holds outer houter
  cases hcommits.at_path at_.view area (outer.path codec) with
  | outside hareas _ => exact hareas pair hmemPair (by rw [hkey])
  | through d c _ _ _ _ hd hc hheld =>
    -- the directory is on the way to the inner destination
    obtain ⟨f, hfmem, hfpath⟩ := hf.parent.trail.covers _ habove
    rw [nil_append] at hfpath
    have hentry := hf.parent.trail.entry f hfmem
    obtain ⟨outerPlan, houterMem, _, houterPath⟩ := h.plan_of_upload houter
    have hnotRoot := (h.found outerPlan houterMem).notRoot
    have hdirectory := hf.parent.trail.directories f hfmem (by
      rw [hfpath, ← houterPath]
      simpa [UserPath.isRoot] using hnotRoot)
    rw [hfpath, hd] at hentry
    cases hentry
    rw [contents, NamespaceEntry.contents, hc, Option.map_some, hheld, NamespaceEntry.held,
      show f.entry.entry.kind = .entryDirectory by simpa [NamespaceEntry.isDirectory] using hdirectory] at hholds
    cases hholds
  | below d q n rest _ hpath _ _ _ _ hoff _ =>
    refine hoff pair hmemPair (by rw [hkey]) ?_
    rw [hkey]
    exact IsPrefix.trans ⟨rest, by rw [hpath]; simp⟩ habove

/-- Elsewhere the namespace is as it was. -/
theorem contents_elsewhere {area' : Area} {path : List String}
    (hoff : area' = area → ∀ upload ∈ uploads, ¬upload.path codec <+: path) :
    contents codec at_.owner (at_.view.publish changes) area' path = contents codec at_.owner at_.view area' path := by
  obtain ⟨frames, start, hcommits⟩ := h.commits
  cases hcommits.at_path at_.view area' path with
  | outside _ hroot => rw [contents, hroot, contents]
  | through d c pair hpair' _ _ hd hc hheld =>
    have hold : (viewRoot codec at_.owner at_.view area').lookup path = some d := hd
    rw [contents, contents, NamespaceEntry.contents, NamespaceEntry.contents, hc, hold, Option.map_some,
      Option.map_some, hheld]
  | below d q n rest pair hpath hpair' harea _ hd _ hnew =>
    obtain ⟨plan, hmem, heq⟩ := mem_map.mp hpair'
    have hareaEq : area' = area := by
      rw [← harea, ← heq]
      exact congrArg FrameKey.area (h.found plan hmem).key
    subst hareaEq
    have hother : ∀ plan ∈ plans, plan.path.segments ≠ q ++ [n] := by
      intro other hotherMem hotherPath
      obtain ⟨hotherUpload, hotherEq⟩ := h.upload_of_plan hotherMem
      refine hoff rfl other.upload hotherUpload ?_
      rw [← hotherEq, hotherPath, hpath]
      exact ⟨rest, by simp⟩
    have hold : (viewRoot codec at_.owner at_.view area').lookup q = some d := hd
    rw [contents, contents, NamespaceEntry.contents, NamespaceEntry.contents, hnew,
      find_not_uploaded h.found hother, hpath, NamespaceEntry.lookup_append, hold, Option.bind_some,
      NamespaceEntry.lookup_cons]

variable (hflat : ¬NestedUploads codec uploads)

include hflat

theorem not_above {outer : VerifiedUpload} (houter : outer ∈ uploads) (hplan : plan ∈ plans) {path : List String}
    (hle : outer.path codec <+: path) : ¬path <+: plan.path.parent.segments := by
  intro habove
  obtain ⟨hinner, hinnerPath⟩ := h.upload_of_plan hplan
  have hnotRoot := (h.found plan hplan).notRoot
  have hbegins := hle.trans habove
  refine hflat ⟨outer, houter, plan.upload, hinner, fun heq => ?_, ?_⟩
  · rw [heq, ← hinnerPath, ← UserPath.parent_append_name hnotRoot] at hbegins
    exact not_prefix_of_append hbegins
  · rw [← hinnerPath, ← UserPath.parent_append_name hnotRoot]
    exact hbegins.trans (prefix_append _ _)

/-- At and below a destination is what was placed there. -/
theorem contents_at {upload : VerifiedUpload} (hupload : upload ∈ uploads) (rest : List String) :
    ∃ plan ∈ plans, plan.upload = upload ∧
      contents codec at_.owner (at_.view.publish changes) area (upload.path codec ++ rest) =
        plan.placed.contents rest := by
  obtain ⟨plan, hmem, hplanUpload, hpathEq⟩ := h.plan_of_upload hupload
  have hf := h.found plan hmem
  refine ⟨plan, hmem, hplanUpload, ?_⟩
  obtain ⟨pair, hmemPair, hkey⟩ := h.pair_of_plan hmem
  obtain ⟨frames, start, hcommits⟩ := h.commits
  cases hcommits.at_path at_.view area (upload.path codec ++ rest) with
  | outside hareas _ => exact absurd (by rw [hkey]) (hareas pair hmemPair)
  | through d c pair' hpair' _ hbegins _ _ _ =>
    obtain ⟨other, hother, _, habove⟩ := above_upload h.found hpair' hbegins
    exact absurd habove (h.not_above hflat hupload hother (prefix_append _ _))
  | below d q n rest' pair' hpath hpair' _ hbegins hd hoff hnew =>
    have hle : plan.path.parent.segments ++ [plan.path.name] <+: q ++ n :: rest' := by
      rw [UserPath.parent_append_name hf.notRoot, hpathEq, ← hpath]
      exact prefix_append _ _
    rcases prefix_cases hle with ⟨rfl, rfl⟩ | hbelow | habove
    · have hrest : rest = rest' := by
        rw [← hpathEq, ← UserPath.parent_append_name hf.notRoot, append_assoc] at hpath
        exact cons_injective (append_cancel_left hpath)
      subst hrest
      rw [contents, NamespaceEntry.contents, hnew, find_uploaded h.found h.nodup hmem]
      rfl
    · obtain ⟨other, hother, _, habove⟩ := above_upload h.found hpair' hbegins
      rw [UserPath.parent_append_name hf.notRoot, hpathEq] at hbelow
      exact absurd habove (h.not_above hflat hupload hother hbelow)
    · exact absurd (by rw [hkey]; exact habove) (hoff pair hmemPair (by rw [hkey]))

theorem apart : ApartPaths (uploadPaths codec area uploads) := by
  have hpaths : uploadPaths codec area uploads =
      plans.map fun plan => ({ area, path := plan.path.segments } : FrameKey) := by
    rw [uploadPaths, ← h.uploads, map_map]
    exact map_congr_left fun plan hmem => by rw [Function.comp_apply, (h.found plan hmem).path]
  rw [hpaths, ApartPaths, pairwise_map]
  refine Pairwise.imp_of_mem (fun {a b} ha hb hne _ => ?_) (pairwise_map.mp h.nodup)
  obtain ⟨haUpload, haPath⟩ := h.upload_of_plan ha
  obtain ⟨hbUpload, hbPath⟩ := h.upload_of_plan hb
  have hpathsNe : a.path.segments ≠ b.path.segments := fun heq => hne (UserPath.ext heq)
  rw [haPath, hbPath] at hpathsNe ⊢
  exact ⟨fun hle => hflat ⟨_, haUpload, _, hbUpload, hpathsNe, hle⟩,
    fun hle => hflat ⟨_, hbUpload, _, haUpload, hpathsNe.symm, hle⟩⟩

end BatchCommitted

/-- The completion of a batch publishes every file that it reports, exactly if no destination of the
batch lies inside another one. -/
theorem uploads_published (at_ : Attempt) (area : Area) (transactionID : String) (uploads : List VerifiedUpload)
    (changes : Changes) (h : completeUploadBatch codec at_ area transactionID uploads = .ok changes) :
    BatchPublished codec at_ area uploads (at_.view.publish changes) ↔ ¬NestedUploads codec uploads := by
  obtain ⟨edited, hedits⟩ := completeUploadBatch_edits h
  obtain ⟨plans, frames, start, huploads, hfound, hnodup, hcommits⟩ := completeUploadBatch_ok h
  have hbatch : BatchCommitted codec at_ area transactionID uploads plans changes :=
    ⟨huploads, hfound, hnodup, frames, start, hcommits⟩
  refine ⟨fun hpublished hnested => hbatch.not_published hnested hpublished, fun hflat => ?_⟩
  refine ⟨fun upload hmem => ?_, fun upload hmem n rest => ?_, fun _ _ hoff => hbatch.contents_elsewhere hoff,
    fun hview => hedits.soundView (hbatch.apart hflat) hview hview⟩
  · obtain ⟨plan, hplan, rfl, heq⟩ := hbatch.contents_at hflat hmem []
    rw [List.append_nil] at heq
    rw [heq, (hfound plan hplan).placed_contents.1]
  · obtain ⟨plan, hplan, rfl, heq⟩ := hbatch.contents_at hflat hmem (n :: rest)
    rw [heq, (hfound plan hplan).placed_contents.2]

namespace Overlap

def upload (resolvedPath : List String) (targetExisted : Bool) : VerifiedUpload :=
  { resolvedPath, targetExisted, expectedVersion := if targetExisted then "version" else "", blobID := "upload",
    size := 3,
    mediaType := "text", md5 := "md5", crc32c := "crc32c" }

/-- Uploads to `/c` and, in place of the file there, to `/a/x`. -/
theorem uploads_beside : ∃ changes,
    completeUploadBatch sizes before .areaLive "tx" [upload ["c"] false, upload ["a", "x"] true] = .ok changes ∧
    BatchPublished sizes before .areaLive [upload ["c"] false, upload ["a", "x"] true] (tree.publish changes) := by
  obtain ⟨changes, hrun⟩ := exists_ok (x := completeUploadBatch sizes before .areaLive "tx"
    [upload ["c"] false, upload ["a", "x"] true]) (by decide +kernel)
  refine ⟨changes, hrun, (uploads_published before .areaLive "tx" _ changes hrun).mpr ?_⟩
  rintro ⟨outer, houter, inner, hinner, hne, hbegins⟩
  have hall : ∀ a ∈ [upload ["c"] false, upload ["a", "x"] true], ∀ b ∈ [upload ["c"] false, upload ["a", "x"] true],
      a.path sizes ≠ b.path sizes → ¬a.path sizes <+: b.path sizes := by decide +kernel
  exact hall outer houter inner hinner hne hbegins

/-- An upload in place of the directory `/a` and one into it: `/a` is still the directory. -/
theorem uploads_nested : ∃ changes,
    completeUploadBatch sizes before .areaLive "tx" [upload ["a"] true, upload ["a", "z"] false] = .ok changes ∧
    contents sizes "owner" (tree.publish changes) .areaLive ["a"] = some .directory ∧
    ¬BatchPublished sizes before .areaLive [upload ["a"] true, upload ["a", "z"] false] (tree.publish changes) := by
  obtain ⟨changes, hrun, hafter⟩ : ∃ changes,
      completeUploadBatch sizes before .areaLive "tx" [upload ["a"] true, upload ["a", "z"] false] = .ok changes ∧
      contents sizes "owner" (tree.publish changes) .areaLive ["a"] = some .directory :=
        toOption_map (by decide +kernel)
  refine ⟨changes, hrun, hafter, fun hpublished => ?_⟩
  have hholds : contents sizes "owner" (tree.publish changes) .areaLive ["a"] = some (upload ["a"] true).file :=
    hpublished.holds (upload ["a"] true) (.head _)
  rw [hafter] at hholds
  cases hholds

end Overlap

end EndlessFS
