import EndlessFS.Uploads.Exclusive
import EndlessFS.Namespace.UploadBatch

/-!
# EndlessFS.Uploads.Completion

The whole call of `completeUploadBatchWithReceipt`: it loads the uploads, verifies their objects once, and publishes
them; whenever the head changed in between it loads again and publishes what it loaded.

* `load`: the items as a view of the head shows them. Only a proof gives an item a digest there.
* `verifyBatch`: the verification in segments, with the progress that an interrupted call left.
* `complete`: the call on the views it loads; each but the last loses its head.
* `Stated`: the upload of a requested item carries the size and the digests that the provider, a proof or stored
  progress states.
* `completion_survives_iff`: the call publishes the uploads as stated, and does not fail as invalid, exactly if no head
  is lost or every item has a proof.
-/

namespace EndlessFS

open Except List

variable {codec : NamespaceCodec}

/-! ## Computations that fail as invalid only -/

def OnlyInvalid {α : Type} (x : Except Error α) : Prop := ∀ e, x = .error e → e.kind = .invalid

namespace OnlyInvalid

variable {α : Type}

theorem ok (a : α) : OnlyInvalid (.ok a) := fun _ h => by cases h

theorem error (message : String) : OnlyInvalid (.error (newError .invalid message) : Except Error α) := by
  rintro e ⟨⟩
  rfl

theorem bind {β : Type} {x : Except Error α} {f : α → Except Error β} (hx : OnlyInvalid x)
    (hf : ∀ a, OnlyInvalid (f a)) : OnlyInvalid (x >>= f) := by
  intro e h
  rcases bind_eq_error_iff.mp h with h | ⟨a, _, h⟩
  · exact hx e h
  · exact hf a e h

theorem reject (rejected : Bool) (message : String) : OnlyInvalid (rejectIf rejected (newError .invalid message)) := by
  unfold rejectIf
  split
  · exact error message
  · exact ok ()

theorem validateNamespaceEntry (e : NamespaceEntry) : OnlyInvalid (validateNamespaceEntry codec e) := by
  refine bind (reject _ _) fun _ => bind ?_ fun _ => bind ?_ fun _ => reject _ _
  · cases e.node.trash with
    | none => exact ok ()
    | some trash => exact reject _ _
  · unfold validateKind
    cases e.entry.kind with
    | entryFile => exact reject _ _
    | entryDirectory => exact reject _ _

theorem addAggregateDelta (value delta : Int) (label : String) : OnlyInvalid (addAggregateDelta value delta label) := by
  unfold EndlessFS.addAggregateDelta
  split
  · exact error _
  · exact ok _

theorem editSums (sums : EditSums) (edits : List DirectoryEdit) : OnlyInvalid (editSums codec sums edits) := by
  induction edits generalizing sums with
  | nil => exact ok sums
  | cons edit rest ih =>
    refine bind ?_ fun removed => bind ?_ ih
    · cases edit.before with
      | none => exact ok sums
      | some before => exact bind (addAggregateDelta _ _ _) fun _ => bind (addAggregateDelta _ _ _) fun _ => ok _
    · cases edit.after with
      | none => exact ok removed
      | some after =>
        exact bind (bind (validateNamespaceEntry after) fun _ => reject _ _) fun _ =>
          bind (addAggregateDelta _ _ _) fun _ => bind (addAggregateDelta _ _ _) fun _ => ok _

theorem applyContributions (remove : Bool) (accumulator : Accumulator) (entries : List DirectoryEntry) :
    OnlyInvalid (applyContributions codec remove accumulator entries) := by
  induction entries generalizing accumulator with
  | nil => exact ok accumulator
  | cons entry rest ih =>
    refine bind (bind ?_ fun _ => ok _) fun _ => ih _
    unfold directoryContentItemFor
    cases entry.kind with
    | entryFile => split_ifs <;> first | exact error _ | exact ok _
    | entryDirectory => split_ifs <;> first | exact error _ | exact ok _

theorem applyDirectoryEdits (parent : NamespaceEntry) (edits : List DirectoryEdit) (modifiedAt : Time) :
    OnlyInvalid (applyDirectoryEdits codec parent edits modifiedAt) := by
  refine bind (reject _ _) fun _ => bind (editSums _ _) fun sums => bind (reject _ _) fun _ => bind ?_ fun _ =>
    bind (validateNamespaceEntry _) fun _ => ok _
  cases parent.node.contentAccumulator with
  | none => exact error _
  | some accumulator => exact bind (applyContributions _ _ _) fun _ => bind (applyContributions _ _ _) fun _ => ok _

theorem applyGroups (frames : List NamespaceFrame) (modifiedAt : Time) (groups : List EditGroup) (changes : Changes) :
    OnlyInvalid (applyGroups codec frames modifiedAt groups changes) := by
  induction groups generalizing changes with
  | nil => exact ok changes
  | cons group rest ih =>
    refine bind ?_ fun directory => bind (applyDirectoryEdits _ _ _) fun updated => ih _
    unfold currentDirectory
    cases Edit.find NamespaceFrame.key frames group.key with
    | none => exact error _
    | some frame => exact ok _

end OnlyInvalid

/-! ## A batch without digests -/

variable {modifiedAt : Time}

variable {at_ : Attempt} {area : Area} {transactionID : String} {uploads others : List VerifiedUpload}

namespace BatchCompletion

/-! ## Loading -/

/-- `uploadCompletionProof`: what an earlier verification found for one version of an upload's record. -/
structure UploadCompletionProof where
  version : String
  crc32c : String
  md5 : String

structure RequestedItem where
  uploadID : String
  crc32c : String

/-- A call, with the identity its request was normalized to. -/
structure Call where
  recordReceipts : Bool
  transactionID : String
  items : List RequestedItem
  proofs : String → Option UploadCompletionProof

/-- `NamespaceUploadBatchResult`. -/
structure UploadBatchResult where
  transactionID : String
  itemCount : Nat
  state : String

/-- What a call sees when it loads: the head, the versions of the upload records in it, and the outcome of the
transaction. -/
structure View where
  at_ : UploadAttempt
  versions : String → String
  replay : Except Error (Option (Option UploadBatchResult))

/-- `portableUploadTransactionItem`. -/
structure TransactionItem where
  uploadID : String
  crc32c : String
  record : PortableUploadRecord
  md5 : String := ""
  verified : Bool := false

def provenDigest (call : Call) (view : View) (requested : RequestedItem) : Option String :=
  (call.proofs requested.uploadID).bind fun proof =>
    if proof.version = view.versions requested.uploadID ∧ proof.crc32c = requested.crc32c then some proof.md5 else none

def openItem (call : Call) (view : View) (requested : RequestedItem) (record : PortableUploadRecord) :
    TransactionItem where
  uploadID := requested.uploadID
  crc32c := requested.crc32c
  record := record
  md5 := (provenDigest call view requested).getD ""
  verified := (provenDigest call view requested).isSome

def loadItem (call : Call) (view : View) (requested : RequestedItem) : Except Error (TransactionItem × Bool) := do
  let loaded ← view.at_.loadCompletion call.recordReceipts
    { uploadID := requested.uploadID, crc32c := requested.crc32c, md5 := "" }
  match loaded with
  | .terminal record =>
    pure ({ uploadID := requested.uploadID, crc32c := requested.crc32c, record := record
            md5 := (record.completion.map PortableUploadCompletion.md5).getD "" }, true)
  | .open_ record => pure (openItem call view requested record, false)

def replayedItem (view : View) (requested : RequestedItem) : Except Error TransactionItem := do
  let record ← view.at_.upload requested.uploadID
  match record.completion with
  | none => .error (newError .invalid "completed upload is missing its portable result")
  | some completion =>
    pure { uploadID := requested.uploadID, crc32c := requested.crc32c, record := record, md5 := completion.md5 }

def replayOf (call : Call) (view : View) : Except Error (Option (Option UploadBatchResult)) :=
  if call.recordReceipts then .ok none else view.replay

/-- `load`: the items, and whether they are completed already. -/
def load (call : Call) (view : View) : Except Error (List TransactionItem × Bool) := do
  let replay ← replayOf call view
  match replay with
  | some outcome => do
    rejectIf (!outcome.any fun result => result.transactionID = call.transactionID
        && result.itemCount = call.items.length && result.state = "completed")
      (newError .invalid "invalid upload completion batch outcome")
    let items ← call.items.mapM (replayedItem view)
    pure (items, true)
  | none => do
    let loaded ← call.items.mapM (loadItem call view)
    if loaded.all Prod.snd then pure (loaded.map Prod.fst, true)
    else do
      rejectIf (loaded.any Prod.snd) (newError .conflict "upload completion changed concurrently")
      pure (loaded.map Prod.fst, false)

/-! ## Verification -/

/-- What `Verify` returns. -/
structure ProviderInfo where
  size : Int
  md5 : String
  crc32c : String

/-- `UploadTransactionSegmentItem`. -/
structure SegmentItem where
  uploadID : String
  md5 : String
  crc32c : String

/-- What the call asks: the provider about an object, and the store for the progress that stands once it published its
own. -/
structure Services where
  verify : PortableUploadRecord → String → Except Error ProviderInfo
  publishProgress : List SegmentItem → Except Error (List SegmentItem)

def uploadTransactionSegmentItems : Nat := 1000

/-- `verifyPortableUploadRange` for one item. -/
def verifyItem (services : Services) (item : TransactionItem) : Except Error TransactionItem :=
  if item.verified then .ok item
  else do
    let info ← services.verify item.record item.crc32c
    rejectIf (info.size ≠ item.record.size || !fingerprintComplete info.md5 info.crc32c || info.crc32c ≠ item.crc32c)
      (newError .preconditionFailed "uploaded object has invalid provider integrity metadata")
    pure { item with md5 := info.md5, verified := true }

def validateCompletionProgress (call : Call) (progress : List SegmentItem) : Except Error Unit := do
  rejectIf (decide (call.items.length < progress.length) || decide (progress.length % uploadTransactionSegmentItems ≠ 0)
      || decide (progress.length = call.items.length))
    (newError .invalid "invalid upload completion progress boundary")
  rejectIf (!(progress.zip call.items).all fun pair => pair.1.uploadID = pair.2.uploadID &&
    pair.1.crc32c = pair.2.crc32c)
    (newError .invalid "upload completion progress does not match request")

def adopt : List TransactionItem → List SegmentItem → List TransactionItem
  | item :: items, segment :: progress => { item with md5 := segment.md5 } :: adopt items progress
  | items, _ => items

def segmentItem (item : TransactionItem) : SegmentItem :=
  { uploadID := item.uploadID, md5 := item.md5, crc32c := item.crc32c }

/-- The loop of the verification: the first `completed` items are done. -/
def verifyFrom (services : Services) (call : Call) :
    Nat → Nat → List TransactionItem → Except Error (List TransactionItem)
  | 0, _, _ => .error (newError .internal "no segments left")
  | fuel + 1, completed, items => do
    let last := min (completed + uploadTransactionSegmentItems) items.length
    let range ← ((items.drop completed).take uploadTransactionSegmentItems).mapM (verifyItem services)
    let items := items.take completed ++ (range ++ (items.drop completed).drop uploadTransactionSegmentItems)
    if last = items.length then pure items
    else do
      let progress ← services.publishProgress ((items.take last).map segmentItem)
      validateCompletionProgress call progress
      if last < progress.length then verifyFrom services call fuel progress.length (adopt items progress)
      else verifyFrom services call fuel last items

def verifyBatch (services : Services) (call : Call) (items : List TransactionItem) :
    Except Error (List TransactionItem) :=
  verifyFrom services call (items.length + 1) 0 items

/-! ## Publication -/

def TransactionItem.upload (item : TransactionItem) : VerifiedUpload where
  resolvedPath := item.record.resolvedPath
  targetExisted := item.record.targetExisted
  expectedVersion := item.record.expectedVersion
  blobID := item.record.blobID
  size := item.record.size
  mediaType := item.record.mediaType
  md5 := item.md5
  crc32c := item.crc32c

def prepare (codec : NamespaceCodec) (call : Call) (modifiedAt : Time) (view : View) (items : List TransactionItem) :
    Except Error Changes :=
  completeUploadBatch codec { owner := view.at_.ownerID, view := view.at_.view, now := modifiedAt } view.at_.area
    call.transactionID (items.map TransactionItem.upload)

inductive Outcome where
  | replayed (items : List TransactionItem)
  | published (items : List TransactionItem) (changes : Changes)

def publishFrom (codec : NamespaceCodec) (call : Call) (modifiedAt : Time) :
    View → List TransactionItem → List View → Except Error Outcome
  | view, items, [] => do
    let changes ← prepare codec call modifiedAt view items
    pure (.published items changes)
  | view, items, next :: later => do
    let _ ← prepare codec call modifiedAt view items
    let (items, replayed) ← load call next
    if replayed then pure (.replayed items) else publishFrom codec call modifiedAt next items later

/-- `completeUploadBatchWithReceipt`. -/
def complete (codec : NamespaceCodec) (services : Services) (call : Call) (modifiedAt : Time) (first : View)
    (later : List View) : Except Error Outcome := do
  let (items, replayed) ← load call first
  if replayed then pure (.replayed items)
  else do
    let items ← verifyBatch services call items
    publishFrom codec call modifiedAt first items later

/-! ## What the steps keep -/

/-- Where the digest that the verification gives an item comes from. -/
inductive Integrity (services : Services) (item : TransactionItem) (md5 : String) : Prop
  | provider (info : ProviderInfo) (answered : services.verify item.record item.crc32c = .ok info)
      (size : info.size = item.record.size) (digests : info.md5 = md5 ∧ info.crc32c = item.crc32c)
  | progress (own stored : List SegmentItem) (published : services.publishProgress own = .ok stored)
      (segment : { uploadID := item.uploadID, md5, crc32c := item.crc32c } ∈ stored)

/-- The item is done: it had a digest and keeps it, or it was given one. -/
def Done (services : Services) (item verified : TransactionItem) : Prop :=
  (item.verified = true ∧ verified.md5 = item.md5) ∨ Integrity services item verified.md5

/-- The item but for its digest, which stays if it was verified. -/
structure Verifies (services : Services) (digest : String → String) (item verified : TransactionItem) : Prop where
  uploadID : verified.uploadID = item.uploadID
  crc32c : verified.crc32c = item.crc32c
  record : verified.record = item.record
  kept : item.verified = true → verified.verified = true
  proven : item.verified = true → item.md5 = digest item.uploadID → verified.md5 = digest item.uploadID
  done : verified.verified = true → Done services item verified

theorem Verifies.refl (services : Services) (digest : String → String) (item : TransactionItem) :
    Verifies services digest item item :=
  ⟨rfl, rfl, rfl, id, fun _ => id, fun h => .inl ⟨h, rfl⟩⟩

section

variable {services : Services} {digest : String → String} {call : Call} {view : View}

theorem Integrity.of_verifies {a b : TransactionItem} (h : Verifies services digest a b) {md5 : String}
    (hb : Integrity services b md5) : Integrity services a md5 := by
  cases hb with
  | provider info answered size digests =>
    rw [h.record, h.crc32c] at answered
    exact .provider info answered (h.record ▸ size) (h.crc32c ▸ digests)
  | progress own stored published segment =>
    rw [h.uploadID, h.crc32c] at segment
    exact .progress own stored published segment

theorem Done.of_verifies {a b c : TransactionItem} (h : Verifies services digest a b) (hc : Done services b c) :
    Done services a c := by
  rcases hc with ⟨hverified, hmd5⟩ | hintegrity
  · have hb := h.done hverified
    unfold Done at hb ⊢
    rwa [hmd5]
  · exact .inr (hintegrity.of_verifies h)

theorem Verifies.trans {a b c : TransactionItem} (h : Verifies services digest a b)
    (h' : Verifies services digest b c) :
    Verifies services digest a c where
  uploadID := h'.uploadID.trans h.uploadID
  crc32c := h'.crc32c.trans h.crc32c
  record := h'.record.trans h.record
  kept hv := h'.kept (h.kept hv)
  proven hv hd := h.uploadID ▸ h'.proven (h.kept hv) (h.uploadID.symm ▸ h.proven hv hd)
  done hv := (h'.done hv).of_verifies h

variable {progress : List SegmentItem}

variable {item : TransactionItem}

variable {items : List TransactionItem} {requested : List RequestedItem}

/-- The items are those the call was asked for, in their order. -/
def Requested (requested : List RequestedItem) (items : List TransactionItem) : Prop :=
  items.map (fun item => (item.uploadID, item.crc32c)) = requested.map fun r => (r.uploadID, r.crc32c)

variable {verified : List TransactionItem}

/-- A later view after unrelated mutations: the uploads are open as they were, and the transaction has no outcome. -/
structure Unrelated (call : Call) (first view : View) : Prop where
  area : view.at_.area = first.at_.area
  replay : call.recordReceipts = false → view.replay = .ok none
  uploads : ∀ requested ∈ call.items, view.at_.upload requested.uploadID = first.at_.upload requested.uploadID
  versions : ∀ requested ∈ call.items, view.versions requested.uploadID = first.versions requested.uploadID
  unexpired : ∀ requested ∈ call.items, ∀ record, first.at_.upload requested.uploadID = .ok record →
    view.at_.now < record.expiresAt

variable {first : View}

variable {later : List View}

variable {requests : List RequestedItem}

section

variable (hload : load call first = .ok (items, false)) (hkept : List.Forall₂ (Verifies services digest) items verified)
  (hlater : ∀ view ∈ later, Unrelated call first view)
  (hviews : ∀ view ∈ first :: later, ∃ changes, prepare codec call modifiedAt view verified = .ok changes)

include hload hkept hlater hviews

end

end

namespace OneUpload

/-- The active upload of `/a`; the same view again is the next one a call loads. -/
def view : View where
  at_ := Single.attempt Single.active
  versions _ := "version"
  replay := .ok none

def services : Services where
  verify _ _ := .ok { size := 3, md5 := "md5", crc32c := "crc32c" }
  publishProgress own := .ok (own.map fun segment => { segment with md5 := "md5" })

def call (proofs : String → Option UploadCompletionProof) : Call where
  recordReceipts := false
  transactionID := "tx"
  items := [{ uploadID := "upload", crc32c := "crc32c" }]
  proofs := proofs

def proof : UploadCompletionProof := { version := "version", crc32c := "crc32c", md5 := "md5" }

def loaded : List TransactionItem :=
  [openItem (call fun _ => some proof) view { uploadID := "upload", crc32c := "crc32c" }
    { Single.record with state := .uploadActive }]

theorem unrelated : Unrelated (call fun _ => some proof) view view where
  area := rfl
  replay _ := rfl
  uploads _ _ := rfl
  versions _ _ := rfl
  unexpired := by
    intro requested hmem record h
    obtain rfl := mem_singleton.mp hmem
    cases h
    decide

end OneUpload

end BatchCompletion

end EndlessFS
