import EndlessFS.Namespace.Entry

/-!
# EndlessFS.Namespace.Edits

`applyDirectoryEdits` (`portable/namespace_store.go`): the edits of one directory, with its
aggregates kept incrementally.

* `applyDirectoryEdits_ok`: what a successful call leaves of the directory.
* `exact_applyDirectoryEdits`: edits that speak of the directory's children keep it exact.
-/

namespace EndlessFS

open Except List
open NamespaceEntry (name)

variable (codec : NamespaceCodec)

/-- `namespaceDirectoryEdit`. -/
abbrev DirectoryEdit := Edit NamespaceEntry

structure EditSums where
  count : Int
  bytes : Int
  files : Int

def EditSums.without (sums : EditSums) : Option NamespaceEntry → Except Error EditSums
  | none => .ok sums
  | some before => do
    let bytes ← addAggregateDelta sums.bytes (-before.entry.size) "namespace recursive bytes"
    let files ← addAggregateDelta sums.files (-before.entry.files) "namespace recursive file count"
    pure { count := sums.count - 1, bytes := bytes, files := files }

def EditSums.having (sums : EditSums) : Option NamespaceEntry → Except Error EditSums
  | none => .ok sums
  | some after => do
    checkNamespaceEntry codec after
    let bytes ← addAggregateDelta sums.bytes after.entry.size "namespace recursive bytes"
    let files ← addAggregateDelta sums.files after.entry.files "namespace recursive file count"
    pure { count := sums.count + 1, bytes := bytes, files := files }

/-- The loop of `applyDirectoryEdits`. -/
def editSums (sums : EditSums) : List DirectoryEdit → Except Error EditSums
  | [] => .ok sums
  | edit :: rest => do
    let removed ← sums.without edit.before
    let added ← removed.having codec edit.after
    editSums added rest

def applyDirectoryEdits (parent : NamespaceEntry) (edits : List DirectoryEdit) (modifiedAt : Time) :
    Except Error NamespaceEntry := do
  rejectIf (maxInt64 < parent.node.entryCount) (newError .invalid "namespace entry count overflows")
  let start : EditSums := { count := parent.node.entryCount, bytes := parent.entry.size,
                            files := parent.entry.fileCount }
  let sums ← editSums codec start edits
  rejectIf (sums.count < 0) (newError .invalid "namespace entry count underflows")
  let beforeRecords := (edits.filterMap (·.before)).map NamespaceEntry.entry
  let afterRecords := (edits.filterMap (·.after)).map NamespaceEntry.entry
  let identity ← updateDirectoryContentIdentityAtCount codec parent.node.contentAccumulator
    beforeRecords afterRecords sums.count.toNat
  let entry := { parent.entry with
    size := sums.bytes, fileCount := sums.files, modifiedAt, contentDigest := identity.2 }
  let updated := NamespaceEntry.mk
    { parent.node with
      entry := entry.stamped codec, entryCount := sums.count.toNat, contentAccumulator := some identity.1 }
    (Edit.applyAll name parent.children edits)
  validateNamespaceEntry codec updated
  pure updated

/-! ## What a call leaves -/

/-- The fields of a directory that editing its children does not touch. -/
structure SameDirectory (e e' : NamespaceEntry) : Prop where
  nodeID : e'.node.nodeID = e.node.nodeID
  occurrenceContextID : e'.node.occurrenceContextID = e.node.occurrenceContextID
  trash : e'.node.trash = e.node.trash
  name : e'.name = e.name
  kind : e'.entry.kind = e.entry.kind
  directoryID : e'.entry.directoryID = e.entry.directoryID
  blobID : e'.entry.blobID = e.entry.blobID
  mediaType : e'.entry.mediaType = e.entry.mediaType
  md5 : e'.entry.md5 = e.entry.md5
  crc32c : e'.entry.crc32c = e.entry.crc32c

theorem SameDirectory.refl (e : NamespaceEntry) : SameDirectory e e :=
  ⟨rfl, rfl, rfl, rfl, rfl, rfl, rfl, rfl, rfl, rfl⟩

theorem SameDirectory.trans {a b c : NamespaceEntry} (h : SameDirectory a b) (h' : SameDirectory b c) :
    SameDirectory a c :=
  ⟨h'.nodeID.trans h.nodeID, h'.occurrenceContextID.trans h.occurrenceContextID, h'.trash.trans h.trash,
    h'.name.trans h.name, h'.kind.trans h.kind, h'.directoryID.trans h.directoryID, h'.blobID.trans h.blobID,
    h'.mediaType.trans h.mediaType, h'.md5.trans h.md5, h'.crc32c.trans h.crc32c⟩

variable {codec} {parent updated : NamespaceEntry} {edits : List DirectoryEdit} {modifiedAt : Time}

theorem addAggregateDelta_ok {value delta result : Int} {label : String}
    (h : addAggregateDelta value delta label = .ok result) :
    result = value + delta ∧ (0 ≤ value ∧ value ≤ maxInt64 → 0 ≤ result ∧ result ≤ maxInt64) := by
  unfold addAggregateDelta at h
  split at h
  · cases h
  · rename_i hrange
    cases h
    omega

def sumTally (f : NamespaceEntry → Int) : Tally NamespaceEntry Int where
  zero := 0
  add x e := x + f e
  remove x e := x - f e
  add_comm x a b := by omega
  remove_add x a := by omega
  add_remove x a := by omega

theorem sumTally_total (f : NamespaceEntry → Int) (items : List NamespaceEntry) :
    (sumTally f).total items = (items.map f).sum := by
  induction items with
  | nil => rfl
  | cons a items ih =>
    rw [Tally.total_cons, ih, map_cons, sum_cons]
    exact Int.add_comm _ _

/-- The three sums of a directory step with the entries that come and go, and stay in range. -/
structure EditSums.Steps (sums result : EditSums) (kept : (t : Tally NamespaceEntry Int) → Int → Int) : Prop where
  count : result.count = kept (sumTally fun _ => 1) sums.count
  bytes : result.bytes = kept (sumTally fun c => c.entry.size) sums.bytes
  files : result.files = kept (sumTally fun c => c.entry.files) sums.files
  bytesRange : 0 ≤ sums.bytes ∧ sums.bytes ≤ maxInt64 → 0 ≤ result.bytes ∧ result.bytes ≤ maxInt64
  filesRange : 0 ≤ sums.files ∧ sums.files ≤ maxInt64 → 0 ≤ result.files ∧ result.files ≤ maxInt64

variable {sums result : EditSums}

theorem without_ok {before : Option NamespaceEntry}
    (h : sums.without before = .ok result) : sums.Steps result fun t x => t.removeOption x before := by
  cases before with
  | none => cases h; exact ⟨rfl, rfl, rfl, id, id⟩
  | some before =>
    obtain ⟨bytes, hbytes, h⟩ := bind_ok h
    obtain ⟨files, hfiles, h⟩ := bind_ok h
    cases h
    obtain ⟨hb, hbrange⟩ := addAggregateDelta_ok hbytes
    obtain ⟨hf, hfrange⟩ := addAggregateDelta_ok hfiles
    exact ⟨rfl, hb, hf, hbrange, hfrange⟩

theorem having_ok {after : Option NamespaceEntry} (h : sums.having codec after = .ok result) :
    (∀ a ∈ after, checkNamespaceEntry codec a = .ok ()) ∧ sums.Steps result fun t x => t.addOption x after := by
  cases after with
  | none => cases h; exact ⟨by simp, rfl, rfl, rfl, id, id⟩
  | some after =>
    obtain ⟨_, hcheck, h⟩ := bind_ok h
    obtain ⟨bytes, hbytes, h⟩ := bind_ok h
    obtain ⟨files, hfiles, h⟩ := bind_ok h
    cases h
    obtain ⟨hb, hbrange⟩ := addAggregateDelta_ok hbytes
    obtain ⟨hf, hfrange⟩ := addAggregateDelta_ok hfiles
    exact ⟨fun a ha => by cases ha; exact hcheck, rfl, hb, hf, hbrange, hfrange⟩

theorem editSums_ok (h : editSums codec sums edits = .ok result) :
    (∀ e ∈ edits, ∀ after ∈ e.after, checkNamespaceEntry codec after = .ok ()) ∧
      sums.Steps result fun t x => edits.foldl t.step x := by
  induction edits generalizing sums with
  | nil =>
    cases h
    exact ⟨by simp, rfl, rfl, rfl, id, id⟩
  | cons edit rest ih =>
    obtain ⟨removed, hremoved, h⟩ := bind_ok h
    obtain ⟨added, hadded, h⟩ := bind_ok h
    obtain ⟨hchecks, hrest⟩ := ih h
    have hout := without_ok hremoved
    obtain ⟨hcheck, hin⟩ := having_ok hadded
    refine ⟨?_, ?_, ?_, ?_, fun hr => hrest.bytesRange (hin.bytesRange (hout.bytesRange hr)),
      fun hr => hrest.filesRange (hin.filesRange (hout.filesRange hr))⟩
    · intro e he a ha
      rcases mem_cons.mp he with rfl | he
      · exact hcheck a ha
      · exact hchecks e he a ha
    · rw [hrest.count, hin.count, hout.count]; rfl
    · rw [hrest.bytes, hin.bytes, hout.bytes]; rfl
    · rw [hrest.files, hin.files, hout.files]; rfl

/-- What a successful call leaves: the edited children, the checked entries it put, and the
directory itself with new aggregates only. -/
structure Applied (codec : NamespaceCodec) (parent : NamespaceEntry) (edits : List DirectoryEdit) (modifiedAt : Time)
    (updated : NamespaceEntry) : Prop where
  children : updated.children = Edit.applyAll name parent.children edits
  same : SameDirectory parent updated
  modified : updated.entry.modifiedAt = modifiedAt
  checked : checkNamespaceEntry codec updated = .ok ()
  placed : ∀ e ∈ edits, ∀ after ∈ e.after, checkNamespaceEntry codec after = .ok ()
  sums : ∃ sums, editSums codec
      { count := parent.node.entryCount, bytes := parent.entry.size, files := parent.entry.fileCount } edits =
        .ok sums ∧
    0 ≤ sums.count ∧ updated.node.entryCount = sums.count.toNat ∧ updated.entry.size = sums.bytes ∧
    updated.entry.fileCount = sums.files
  identity : ∃ accumulator, updated.node.contentAccumulator = some accumulator ∧
    updateDirectoryContentIdentityAtCount codec parent.node.contentAccumulator
      ((edits.filterMap (·.before)).map NamespaceEntry.entry) ((edits.filterMap (·.after)).map NamespaceEntry.entry)
      updated.node.entryCount = .ok (accumulator, updated.entry.contentDigest)

theorem directoryEntryVersion_stamped (entry : DirectoryEntry) :
    directoryEntryVersion codec (entry.stamped codec) = (entry.stamped codec).logicalVersion := rfl

theorem applyDirectoryEdits_ok (h : applyDirectoryEdits codec parent edits modifiedAt = .ok updated) :
    Applied codec parent edits modifiedAt updated := by
  obtain ⟨_, _, h⟩ := bind_ok h
  obtain ⟨sums, hsums, h⟩ := bind_ok h
  obtain ⟨_, hcount, h⟩ := bind_ok h
  obtain ⟨⟨accumulator, digest⟩, hidentity, h⟩ := bind_ok h
  obtain ⟨_, hvalid, h⟩ := bind_ok h
  cases h
  refine ⟨rfl, ⟨rfl, rfl, rfl, rfl, rfl, rfl, rfl, rfl, rfl, rfl⟩, rfl, ?_, (editSums_ok hsums).1,
    ⟨sums, hsums, ?_, rfl, rfl, rfl⟩, accumulator, rfl, hidentity⟩
  · unfold checkNamespaceEntry
    rw [hvalid, ok_bind, rejectIf_eq_ok_iff, decide_eq_false_iff_not, not_not]
    exact directoryEntryVersion_stamped _
  · simpa using hcount

/-! ## Exactness -/

def contributionOf (codec : NamespaceCodec) (e : NamespaceEntry) : BitVec 256 :=
  (directoryContentContribution codec e.entry).toOption.getD 0

def accumulatorTally (codec : NamespaceCodec) : Tally NamespaceEntry Accumulator where
  zero := .zero
  add x e := applyDirectoryContentContribution x (contributionOf codec e) false
  remove x e := applyDirectoryContentContribution x (contributionOf codec e) true
  add_comm x a b := by
    simp only [applyDirectoryContentContribution, Accumulator.mk.injEq, Bool.false_eq_true, if_false]
    exact ⟨by rw [BitVec.xor_assoc, BitVec.xor_comm (contributionOf codec a), BitVec.xor_assoc],
      by rw [BitVec.add_assoc, BitVec.add_comm (contributionOf codec a), BitVec.add_assoc]⟩
  remove_add x a := by
    obtain ⟨xored, summed⟩ := x
    simp only [applyDirectoryContentContribution, Accumulator.mk.injEq, Bool.false_eq_true, if_false, if_true]
    exact ⟨by rw [BitVec.xor_assoc, BitVec.xor_self, BitVec.xor_zero], BitVec.add_sub_cancel ..⟩
  add_remove x a := by
    obtain ⟨xored, summed⟩ := x
    simp only [applyDirectoryContentContribution, Accumulator.mk.injEq, Bool.false_eq_true, if_false, if_true]
    exact ⟨by rw [BitVec.xor_assoc, BitVec.xor_self, BitVec.xor_zero], BitVec.sub_add_cancel ..⟩

def Contributes (codec : NamespaceCodec) (e : NamespaceEntry) : Prop :=
  ∃ contribution, directoryContentContribution codec e.entry = .ok contribution

theorem contributionOf_eq {e : NamespaceEntry} {contribution : BitVec 256}
    (h : directoryContentContribution codec e.entry = .ok contribution) : contributionOf codec e = contribution := by
  simp [contributionOf, h, Except.toOption]

theorem applyContributions_eq_ok_iff {remove : Bool} {accumulator result : Accumulator} {items : List NamespaceEntry} :
    applyContributions codec remove accumulator (items.map NamespaceEntry.entry) = .ok result ↔
      (∀ e ∈ items, Contributes codec e) ∧
        result = items.foldl (fun x e => applyDirectoryContentContribution x (contributionOf codec e) remove)
          accumulator := by
  induction items generalizing accumulator with
  | nil => simp [applyContributions, eq_comm]
  | cons a items ih =>
    simp only [map_cons, applyContributions, bind_eq_ok_iff, ih, forall_mem_cons, foldl_cons]
    constructor
    · rintro ⟨contribution, hc, hitems, hresult⟩
      exact ⟨⟨⟨contribution, hc⟩, hitems⟩, by rw [hresult, contributionOf_eq hc]⟩
    · rintro ⟨⟨⟨contribution, hc⟩, hitems⟩, hresult⟩
      exact ⟨contribution, hc, hitems, by rw [hresult, contributionOf_eq hc]⟩

theorem childrenIdentity_eq_ok_iff {children : List NamespaceEntry} {accumulator : Accumulator} {digest : String} :
    childrenIdentity codec children = .ok (accumulator, digest) ↔
      (∀ e ∈ children, Contributes codec e) ∧ accumulator = (accumulatorTally codec).total children ∧
        digest = codec.accumulatorDigest accumulator children.length := by
  unfold childrenIdentity directoryContentIdentity
  simp only [bind_eq_ok_iff, applyContributions_eq_ok_iff, length_map, pure_eq_ok, ok.injEq, Prod.mk.injEq]
  constructor
  · rintro ⟨acc, ⟨hc, rfl⟩, rfl, rfl⟩
    exact ⟨hc, rfl, rfl⟩
  · rintro ⟨hc, rfl, rfl⟩
    exact ⟨_, ⟨hc, rfl⟩, rfl, rfl⟩

theorem sumTally_one (items : List NamespaceEntry) : (sumTally fun _ => 1).total items = (items.length : Int) := by
  rw [sumTally_total]
  simp

/-- Edits that speak of the directory's children keep its aggregates exact. -/
theorem exact_applyDirectoryEdits (hexact : Exact codec parent) (hcoherent : Edit.Coherent name parent.children edits)
    (h : applyDirectoryEdits codec parent edits modifiedAt = .ok updated) : Exact codec updated := by
  obtain ⟨hchildren, _, _, _, _, ⟨sums, hsums, hnonneg, hcount, hsize, hfiles⟩, accumulator, hacc, hidentity⟩ :=
    applyDirectoryEdits_ok h
  obtain ⟨_, hsc, hsb, hsf, hbrange, hfrange⟩ := editSums_ok hsums
  -- each sum that the loop keeps is the sum over the edited children
  have htally : ∀ f : NamespaceEntry → Int,
      edits.foldl (sumTally f).step ((parent.children.map f).sum) = (updated.children.map f).sum := by
    intro f
    rw [← sumTally_total, ← sumTally_total, hchildren, (sumTally f).total_applyAll hexact.names hcoherent]
  have hlength : sums.count = (updated.children.length : Int) := by
    have := htally fun _ => 1
    rw [← sumTally_total, ← sumTally_total, sumTally_one, sumTally_one, ← hexact.count] at this
    rw [hsc, this]
  have hentryCount : updated.node.entryCount = updated.children.length := by rw [hcount, hlength]; rfl
  obtain ⟨parentAcc, hparentAcc, hparentIdentity⟩ := hexact.identity
  obtain ⟨hparentContributes, hparentTotal, _⟩ := childrenIdentity_eq_ok_iff.mp hparentIdentity
  rw [hparentAcc] at hidentity
  obtain ⟨removed, hremoved, hidentity⟩ := bind_ok hidentity
  obtain ⟨added, hadded, hidentity⟩ := bind_ok hidentity
  rw [applyContributions_eq_ok_iff] at hremoved hadded
  simp only [pure_eq_ok, ok.injEq, Prod.mk.injEq] at hidentity
  obtain ⟨rfl, hdigest⟩ := hidentity
  refine ⟨?_, hentryCount, ?_, ?_, ⟨added, hacc, ?_⟩, ?_, ?_⟩
  · rw [hchildren]
    exact Edit.nodup_applyAll hexact.names edits
  · rw [hsize, hsb, hexact.size, htally]
  · rw [hfiles, hsf, hexact.files, htally]
  · rw [childrenIdentity_eq_ok_iff]
    refine ⟨fun e he => ?_, ?_, by rw [← hdigest, hentryCount]⟩
    · rw [hchildren] at he
      rcases Edit.mem_applyAll he with he | ⟨edit, hedit, hafter⟩
      · exact hparentContributes e he
      · exact hadded.1 e (mem_filterMap.mpr ⟨edit, hedit, hafter⟩)
    · rw [hadded.2, hremoved.2, hparentTotal, hchildren,
        (accumulatorTally codec).total_applyAll hexact.names hcoherent, Tally.foldl_step]
      rfl
  · rw [hsize]
    exact hbrange hexact.sizeRange
  · rw [hfiles]
    exact hfrange hexact.filesRange

end EndlessFS
