import EndlessFS.Lib.Fallible
import EndlessFS.Namespace.Operations

/-!
# EndlessFS.Shares.Public

What a visitor with a share token can ask for (`PublicShare`, `PublicStat` and `PublicDownload` of `drive/service.go`).
A share is bound to the version that its root had when it was created; each request first authorizes the token and then
reads the owner's namespace, one request to the storage at a time.

* `World`: the namespaces with all their past states, the stored blobs, the shares and the accounts. The states of a
  namespace are numbered; a page cursor names the one it was issued in.
* `authorizeShare`, `sharedPath`, `publicShare`, `publicStat`, `publicDownload`: the programs. Besides its result, a
  request returns the share it was authorized by and the states of the namespace it was authorized in and read last
  (`Opened`); no program reads these.
* `Drift`: what others do meanwhile. The owner's namespace may change in any way.
-/

namespace EndlessFS.Shares

open Conc (Fallible ask withError)

variable (codec : NamespaceCodec)

abbrev Path := UserPath codec.toNormalization

/-- `model.Share`. -/
structure Share where
  shareID : String
  tokenHash : String
  ownerUserID : String
  rootPath : Path codec
  rootVersion : String
  kind : EntryKind
  expiresAt : Option Time := none
  revokedAt : Option Time := none

/-- `domain.Entry`, without the identity of a file's content. -/
structure Entry where
  path : Path codec
  name : String
  kind : EntryKind
  size : Int
  fileCount : Int
  mediaType : String
  modifiedAt : Time
  version : String
  deriving DecidableEq

def domainEntry (path : Path codec) (entry : DirectoryEntry) : Entry codec :=
  { path, name := entry.name, kind := entry.kind, size := entry.size, fileCount := entry.files,
    mediaType := entry.mediaType
    modifiedAt := entry.modifiedAt, version := entry.logicalVersion }

/-- What a page cursor seals. -/
structure NamespaceListCursor where
  ownerID : String
  area : Area
  directory : List String
  sortedByName : Bool
  descending : Bool
  pageSize : Nat
  snapshot : Nat
  bound : String
  expiresAt : Time
  deriving DecidableEq

/-- The text of a cursor: empty, not one that the service sealed, or opened. -/
inductive CursorText where
  | empty
  | invalid
  | opened (cursor : NamespaceListCursor)
  deriving DecidableEq

structure ListRequest where
  directory : Path codec
  pageSize : Int
  cursor : CursorText

structure ListPage where
  current : Entry codec
  entries : List (Entry codec)
  nextCursor : CursorText

inductive Disposition where
  | attachment
  | inline
  deriving DecidableEq, Repr

/-- `objectstore.DownloadRequest`; its key is made of the owner and the blob. -/
structure DownloadRequest where
  ownerID : String
  blobID : String
  version : String
  filename : String
  mediaType : String
  disposition : Disposition
  expiresAt : Time
  deriving DecidableEq, Repr

/-- A download capability: the URL, with the request it was signed for. -/
structure DownloadCapability where
  request : DownloadRequest
  url : String
  deriving DecidableEq, Repr

/-! ## Reading a namespace -/

/-- `resolveEntryAtView` in the live area. -/
def resolveEntry (owner : String) (view : NamespaceView) (path : Path codec) : Except Error NamespaceEntry :=
  if path.isRoot then .ok (viewRoot codec owner view .areaLive)
  else do
    let trail ← resolveTrail codec owner view .areaLive path.parent
    let frame ← lastFrame trail
    let found ← child codec frame.entry path.name
    requireFound "entry does not exist" found

def stat (owner : String) (view : NamespaceView) (path : Path codec) : Except Error (Entry codec) :=
  (resolveEntry codec owner view path).map fun e => domainEntry codec path e.entry

/-- The entries of a directory by name, after `bound`. -/
def collectOrdered (directory : NamespaceEntry) (bound : String) : List NamespaceEntry :=
  (((directory.children.map NamespaceEntry.name).dedup.insertionSort (· ≤ ·)).filter fun name => bound < name).filterMap
    (Edit.find NamespaceEntry.name directory.children)

def pageEntries (directory : Path codec) : List NamespaceEntry → Except Error (List (Entry codec))
  | [] => .ok []
  | e :: rest => do
    checkNamespaceEntry codec e
    let path ← directory.join e.name
    let entries ← pageEntries directory rest
    pure (domainEntry codec path e.entry :: entries)

def normalizeFilePageSize (size : Int) : Except Error Nat :=
  if size = 0 then .ok 200
  else if size < 1 || 10000 < size then .error (newError .invalid "page size must be between 1 and 10000")
  else .ok size.toNat

/-! ## The world -/

structure Tree where
  view : NamespaceView
  normal : ∀ owner path e, (viewRoot codec owner view .areaLive).lookup path = some e → ∀ s ∈ path, codec.nfc s = s

theorem lookup_emptyRoot {owner : String} {path : List String} {e : NamespaceEntry}
    (h : (viewRoot codec owner { live := none, trash := none } .areaLive).lookup path = some e) : path = [] := by
  cases path with
  | nil => rfl
  | cons name rest => cases h

def Tree.empty : Tree codec :=
  { view := { live := none, trash := none }
    normal := fun _ _ _ h s hs => by simp [lookup_emptyRoot codec h] at hs }

/-- `history owner` are the states of the owner's namespace, newest first, and `blobs owner` the versions of the stored
blobs. A share is stored with the number of the state that its owner's namespace was in when it was created. -/
structure World where
  history : String → List (Tree codec)
  blobs : String → String → Option String
  shares : String → String → Option (Share codec × Nat)
  accounts : String → Option Bool
  clock : Time

namespace World

variable {codec} (w : World codec)

def states (owner : String) : Nat := (w.history owner).length

def treeAt (owner : String) (n : Nat) : Tree codec := ((w.history owner).drop (w.states owner - n)).headD (.empty codec)

def stateAt (owner : String) (n : Nat) : NamespaceView := (w.treeAt owner n).view

def view (owner : String) : NamespaceView := w.stateAt owner (w.states owner)

end World

/-- The settings and secrets of a service: how long cursors and downloads live, how a token is taken apart and hashed,
which texts are previewed, and the `CreateDownload` of the file backend, if it has one. -/
structure Service where
  cursorTTL : Time
  downloadTTL : Time
  transferBackend : Except Error (DownloadRequest → Except Error String)
  textPreviewMax : Int
  parseScopedCapabilityToken : String → Option (String × String)
  hash : String → String

structure Noted (α : Type) where
  value : α
  state : Nat

inductive Op where
  | shareByID (owner shareID : String)
  | account (owner : String)
  | now
  | stat (owner : String) (path : Path codec)
  | list (owner : String) (request : ListRequest codec)
  | resolve (owner : String) (path : Path codec)
  | head (owner blobID : String)

@[reducible] def Op.Reply : Op codec → Type
  | .shareByID _ _ => Except Error (Share codec)
  | .account _ => Except Error Bool
  | .now => Time
  | .stat _ _ => Except Error (Noted (Entry codec))
  | .list _ _ => Except Error (ListPage codec)
  | .resolve _ _ => Except Error (Noted DirectoryEntry)
  | .head _ _ => Except Error String

/-- What others do: the owner's namespace changes, a blob is stored or deleted, a share is created for the root as it is
or revoked, an account is enabled or disabled, time passes. -/
inductive Drift where
  | mutate (owner : String) (tree : Tree codec)
  | setBlob (owner blobID : String) (version : Option String)
  | createShare (share : Share codec)
  | revokeShare (owner shareID : String)
  | setAccount (owner : String) (enabled : Bool)
  | tick (seconds : Nat)

namespace World

variable {codec} (svc : Service) (w : World codec)

/-- The cursor check of `list`. -/
def openCursor (owner : String) (directory : Path codec) (pageSize : Nat) (cursor : NamespaceListCursor) :
    Except Error Unit :=
  rejectIf (cursor.ownerID ≠ owner || cursor.area ≠ .areaLive || cursor.directory ≠ directory.segments ||
      !cursor.sortedByName || cursor.descending || cursor.pageSize ≠ pageSize || cursor.expiresAt ≤ w.clock)
    (newError .invalid "invalid or out-of-scope namespace cursor")

def page (owner : String) (directory : Path codec) (pageSize snapshot : Nat) (bound : String) (expiresAt : Time) :
    Except Error (ListPage codec) := do
  let trail ← resolveTrail codec owner (w.stateAt owner snapshot) .areaLive directory
  let frame ← lastFrame trail
  let found := (collectOrdered frame.entry bound).take (pageSize + 1)
  let entries ← pageEntries codec directory (found.take pageSize)
  let next : NamespaceListCursor :=
    { ownerID := owner, area := .areaLive, directory := directory.segments, sortedByName := true, descending := false
      pageSize, snapshot, bound := ((found.take pageSize).getLast?.map NamespaceEntry.name).getD "", expiresAt }
  pure { current := domainEntry codec directory frame.entry.entry, entries
         nextCursor := if pageSize < found.length then .opened next else .empty }

/-- `list` by name: a cursor continues the page of the state it was issued in. -/
def list (owner : String) (request : ListRequest codec) : Except Error (ListPage codec) := do
  let pageSize ← normalizeFilePageSize request.pageSize
  match request.cursor with
  | .empty => w.page owner request.directory pageSize (w.states owner) "" (w.clock + svc.cursorTTL)
  | .invalid => .error (newError .invalid "invalid or out-of-scope namespace cursor")
  | .opened cursor => do
    w.openCursor owner request.directory pageSize cursor
    w.page owner request.directory pageSize cursor.snapshot cursor.bound cursor.expiresAt

def answer : (o : Op codec) → o.Reply
  | .shareByID owner shareID => ((w.shares owner shareID).map (·.1)).elim
    (.error (newError .notFound "record not found")) .ok
  | .account owner => (w.accounts owner).elim (.error (newError .notFound "record not found")) .ok
  | .now => w.clock
  | .stat owner path =>
    (EndlessFS.Shares.stat codec owner (w.view owner) path).map fun entry => { value := entry, state := w.states owner }
  | .list owner request => w.list svc owner request
  | .resolve owner path =>
    (resolveEntry codec owner (w.view owner) path).map fun e => { value := e.entry, state := w.states owner }
  | .head owner blobID => (w.blobs owner blobID).elim (.error (newError .notFound "object not found")) .ok

def lostReply : (o : Op codec) → o.Reply
  | .shareByID _ _ => .error (newError .unavailable "request failed")
  | .account _ => .error (newError .unavailable "request failed")
  | .now => w.clock
  | .stat _ _ => .error (newError .unavailable "request failed")
  | .list _ _ => .error (newError .unavailable "request failed")
  | .resolve _ _ => .error (newError .unavailable "request failed")
  | .head _ _ => .error (newError .unavailable "request failed")

/-- The shares with `stored` at the given place. -/
def putShare (owner shareID : String) (stored : Option (Share codec × Nat)) :
    String → String → Option (Share codec × Nat) :=
  Function.update w.shares owner (Function.update (w.shares owner) shareID stored)

def drift : Drift codec → World codec
  | .mutate owner tree => { w with history := Function.update w.history owner (tree :: w.history owner) }
  | .setBlob owner blobID version =>
    { w with blobs := Function.update w.blobs owner (Function.update (w.blobs owner) blobID version) }
  | .createShare share =>
    if (w.shares share.ownerUserID share.shareID).isSome then w
    else { w with shares := w.putShare share.ownerUserID share.shareID (some (share, w.states share.ownerUserID)) }
  | .revokeShare owner shareID =>
    let revoked := (w.shares owner shareID).map fun stored => ({ stored.1 with revokedAt := some w.clock }, stored.2)
    { w with shares := w.putShare owner shareID revoked }
  | .setAccount owner enabled => { w with accounts := Function.update w.accounts owner (some enabled) }
  | .tick seconds => { w with clock := w.clock + seconds }

def SameBinding (a b : Share codec) : Prop := a.rootPath = b.rootPath ∧ a.rootVersion = b.rootVersion ∧ a.kind = b.kind

structure Le (s t : World codec) : Prop where
  history : ∀ owner, s.history owner <:+ t.history owner
  shares : ∀ owner shareID share created, s.shares owner shareID = some (share, created) →
    ∃ later, t.shares owner shareID = some (later, created) ∧ SameBinding share later

theorem Le.refl (s : World codec) : Le s s :=
  ⟨fun _ => List.suffix_rfl, fun _ _ share _ h => ⟨share, h, rfl, rfl, rfl⟩⟩

theorem Le.trans {s t u : World codec} (h : Le s t) (h' : Le t u) : Le s u := by
  refine ⟨fun owner => (h.history owner).trans (h'.history owner), fun owner shareID share created hshare => ?_⟩
  obtain ⟨later, hlater, hpath, hversion, hkind⟩ := h.shares _ _ _ _ hshare
  obtain ⟨latest, hlatest, hpath', hversion', hkind'⟩ := h'.shares _ _ _ _ hlater
  exact ⟨latest, hlatest, hpath.trans hpath', hversion.trans hversion', hkind.trans hkind'⟩

theorem le_drift (w : World codec) (d : Drift codec) : Le w (w.drift d) := by
  cases d with
  | mutate owner tree =>
    refine ⟨fun other => ?_, fun _ _ share _ h => ⟨share, h, rfl, rfl, rfl⟩⟩
    by_cases hsame : other = owner
    · subst hsame
      simp [drift]
    · simp [drift, hsame]
  | createShare share =>
    by_cases hstored : (w.shares share.ownerUserID share.shareID).isSome
    · simpa [drift, hstored] using Le.refl w
    simp only [drift, hstored, Bool.false_eq_true, if_false]
    refine ⟨fun _ => List.suffix_rfl, fun owner shareID old created hold => ⟨old, ?_, rfl, rfl, rfl⟩⟩
    by_cases howner : owner = share.ownerUserID
    · subst howner
      by_cases hid : shareID = share.shareID
      · subst hid
        exact absurd (Option.isSome_of_eq_some hold) hstored
      · simp [putShare, hid, hold]
    · simp [putShare, howner, hold]
  | revokeShare owner shareID =>
    refine ⟨fun _ => List.suffix_rfl, fun other otherID old created hold => ?_⟩
    by_cases howner : other = owner
    · subst howner
      by_cases hid : otherID = shareID
      · subst hid
        exact ⟨{ old with revokedAt := some w.clock }, by simp [drift, putShare, hold], rfl, rfl, rfl⟩
      · exact ⟨old, by simp [drift, putShare, hid, hold], rfl, rfl, rfl⟩
    · exact ⟨old, by simp [drift, putShare, howner, hold], rfl, rfl, rfl⟩
  | setBlob owner blobID version => exact ⟨fun _ => List.suffix_rfl, fun _ _ share _ h => ⟨share, h, rfl, rfl, rfl⟩⟩
  | setAccount owner enabled => exact ⟨fun _ => List.suffix_rfl, fun _ _ share _ h => ⟨share, h, rfl, rfl, rfl⟩⟩
  | tick seconds => exact ⟨fun _ => List.suffix_rfl, fun _ _ share _ h => ⟨share, h, rfl, rfl, rfl⟩⟩

end World

def machine (svc : Service) : Conc.Machine where
  State := World codec
  Op := Op codec
  Reply := Op.Reply codec
  Choice := Bool
  Drift := Drift codec
  exec lost w o := (w, if lost then w.lostReply o else w.answer svc o)
  drift d w := w.drift d
  le := World.Le
  le_refl := World.Le.refl
  le_trans := World.Le.trans
  exec_le _ w _ := World.Le.refl w
  drift_le d w := World.le_drift w d

/-! ## The requests -/

section

variable {codec} (svc : Service)

abbrev Request (codec : NamespaceCodec) (svc : Service) (α : Type) := Fallible (machine codec svc) Error α

def publicShareError : Error := newError .notFound "shared content is unavailable"

def shareByID (owner shareID : String) : Request codec svc (Share codec) :=
  ask (M := machine codec svc) (.shareByID owner shareID) id
def accountEnabled (owner : String) : Request codec svc Bool := ask (M := machine codec svc) (.account owner) id
def clockNow : Request codec svc Time := ask (M := machine codec svc) .now .ok
def statEntry (owner : String) (path : Path codec) : Request codec svc (Noted (Entry codec)) :=
  ask (M := machine codec svc) (.stat owner path) id
def listEntries (owner : String) (request : ListRequest codec) : Request codec svc (ListPage codec) :=
  ask (M := machine codec svc) (.list owner request) id
def resolveFile (owner : String) (path : Path codec) : Request codec svc (Noted DirectoryEntry) :=
  ask (M := machine codec svc) (.resolve owner path) id
def headBlob (owner blobID : String) : Request codec svc String := ask (M := machine codec svc) (.head owner blobID) id

/-- `createDownload008`. -/
def createDownload (owner : String) (path : Path codec) (version : String) (disposition : Disposition) :
    Request codec svc (Noted DownloadCapability) := do
  liftM (rejectIf path.isRoot (newError .invalid "download path is invalid"))
  let found ← resolveFile svc owner path
  liftM (rejectIf (found.value.kind ≠ .entryFile) (newError .notFound "downloadable file does not exist"))
  liftM (rejectIf (version = "" || version ≠ found.value.logicalVersion)
    (newError .preconditionFailed "download version does not match"))
  let sign ← liftM svc.transferBackend
  let blobVersion ← headBlob svc owner found.value.blobID
  let now ← clockNow svc
  let request : DownloadRequest :=
    { ownerID := owner, blobID := found.value.blobID, version := blobVersion, filename := found.value.name
      mediaType := found.value.mediaType, disposition, expiresAt := now + svc.downloadTTL }
  let url ← liftM (sign request)
  pure { value := { request, url }, state := found.state }

/-- A result, with the share it was authorized by, the state it was authorized in and the last one that was read. -/
structure Opened (codec : NamespaceCodec) (α : Type) where
  share : Share codec
  since : Nat
  upTo : Nat
  value : α

def authorizeShare (token : String) : Request codec svc (Opened codec (Entry codec)) :=
  match svc.parseScopedCapabilityToken token with
  | none => throw publicShareError
  | some (owner, shareID) => do
    let share ← shareByID svc owner shareID
    liftM (rejectIf (share.ownerUserID ≠ owner || svc.hash token ≠ share.tokenHash) publicShareError)
    let now ← clockNow svc
    liftM (rejectIf (share.revokedAt.isSome || share.expiresAt.any fun expiresAt => expiresAt ≤ now) publicShareError)
    let enabled ← accountEnabled svc share.ownerUserID
    liftM (rejectIf (!enabled) publicShareError)
    let root ← statEntry svc share.ownerUserID share.rootPath
    liftM (rejectIf (root.value.version ≠ share.rootVersion || root.value.kind ≠ share.kind) publicShareError)
    pure { share, since := root.state, upTo := root.state, value := root.value }

/-- `sharedPath`, of the segments of the relative path; `plain` says that its text has neither a percent sign nor a
backslash. -/
def sharedPath (share : Share codec) (plain : Bool) (relative : List String) : Except Error (Path codec) := do
  rejectIf (!plain) (newError .invalid "invalid shared path")
  let parsed ← parseUserPath codec.toNormalization relative
  if parsed.isRoot then pure share.rootPath
  else do
    rejectIf (share.kind ≠ .entryDirectory) (newError .notFound "shared path unavailable")
    let target ← share.rootPath.joinAll parsed.segments
    rejectIf (target ≠ share.rootPath && !target.isDescendantOf share.rootPath)
      (newError .unauthorized "shared path escape")
    pure target

structure Relative where
  plain : Bool
  segments : List String

structure PublicEntry where
  path : List String
  name : String
  kind : EntryKind
  size : Int
  fileCount : Int
  mediaType : String
  modifiedAt : Time
  version : String
  deriving DecidableEq

def publicEntry (rootPath : Path codec) (entry root : Entry codec) : PublicEntry :=
  { path := entry.path.segments.drop rootPath.segments.length,
    name := if entry.path = rootPath then root.name else entry.name
    kind := entry.kind, size := entry.size, fileCount := entry.fileCount, mediaType := entry.mediaType
    modifiedAt := entry.modifiedAt, version := entry.version }

structure PublicPage where
  root : PublicEntry
  current : PublicEntry
  entries : List PublicEntry
  nextCursor : CursorText
  deriving DecidableEq

def recheck (opened : Opened codec (Entry codec)) : Request codec svc Nat := do
  let again ← statEntry svc opened.share.ownerUserID opened.share.rootPath
  liftM (rejectIf (again.value.version ≠ opened.value.version || again.value.kind ≠ opened.value.kind) publicShareError)
  pure again.state

def publicShare (token : String) (relative : Relative) (limit : Int) (cursor : CursorText) :
    Request codec svc (Opened codec PublicPage) :=
  withError publicShareError do
    let opened ← authorizeShare svc token
    let target ← liftM (sharedPath opened.share relative.plain relative.segments)
    let root := publicEntry opened.share.rootPath opened.value opened.value
    if opened.share.kind = .entryFile then do
      liftM (rejectIf (target ≠ opened.share.rootPath) publicShareError)
      let shown := { root, current := root, entries := [], nextCursor := .empty }
      pure { share := opened.share, since := opened.since, upTo := opened.since, value := shown }
    else do
      let page ← listEntries svc opened.share.ownerUserID { directory := target, pageSize := limit, cursor }
      liftM (rejectIf (page.current.kind ≠ .entryDirectory || page.current.size < 0 || page.current.fileCount < 0 ||
        page.current.mediaType ≠ "") publicShareError)
      let upTo ← recheck svc opened
      let visible := fun entry => publicEntry opened.share.rootPath entry opened.value
      let shown := { root, current := visible page.current, entries := page.entries.map visible,
                     nextCursor := page.nextCursor }
      pure { share := opened.share, since := opened.since, upTo, value := shown }

def publicStat (token : String) (relative : Relative) : Request codec svc (Opened codec PublicEntry) :=
  withError publicShareError do
    let opened ← authorizeShare svc token
    let path ← liftM (sharedPath opened.share relative.plain relative.segments)
    let entry ← statEntry svc opened.share.ownerUserID path
    let upTo ← recheck svc opened
    let shown := publicEntry opened.share.rootPath entry.value opened.value
    pure { share := opened.share, since := opened.since, upTo, value := shown }

/-- `previewKind`: what is shown in place. -/
def previewKind (entry : Entry codec) : Except Error String :=
  if ["image/png", "image/jpeg", "image/gif", "image/webp"].contains entry.mediaType then .ok "image"
  else if entry.mediaType = "application/pdf" then .ok "pdf"
  else if entry.mediaType = "text/plain" && entry.size ≤ svc.textPreviewMax then .ok "text"
  else .error (newError .invalid "this file type is download-only")

def dispositionOf (preview : Bool) (entry : Entry codec) : Except Error (Disposition × String) :=
  if preview then (previewKind svc entry).map fun kind => (.inline, kind) else .ok (.attachment, "download")

/-- A granted download: the file it is for, and the kind of preview. -/
structure Granted (codec : NamespaceCodec) where
  path : Path codec
  version : String
  capability : DownloadCapability
  previewKind : String

def publicDownload (token : String) (relative : Relative) (version : String) (preview : Bool) :
    Request codec svc (Opened codec (Granted codec)) :=
  withError publicShareError do
    let opened ← authorizeShare svc token
    let path ← liftM (sharedPath opened.share relative.plain relative.segments)
    let entry ← statEntry svc opened.share.ownerUserID path
    liftM (rejectIf (entry.value.kind ≠ .entryFile || version = "" || entry.value.version ≠ version) publicShareError)
    let shownAs ← liftM (dispositionOf svc preview entry.value)
    let capability ← createDownload svc opened.share.ownerUserID path version shownAs.1
    let granted := { path, version, capability := capability.value, previewKind := shownAs.2 }
    pure { share := opened.share, since := opened.since, upTo := capability.state, value := granted }

end

inductive Call where
  | share (token : String) (relative : Relative) (limit : Int) (cursor : CursorText)
  | stat (token : String) (relative : Relative)
  | download (token : String) (relative : Relative) (version : String) (preview : Bool)

inductive Disclosed (codec : NamespaceCodec) where
  | page (page : Opened codec PublicPage)
  | entry (entry : Opened codec PublicEntry)
  | download (granted : Opened codec (Granted codec))

def Call.run (svc : Service) : Call → Conc.Prog (machine codec svc) (Except Error (Disclosed codec))
  | .share token relative limit cursor => (Disclosed.page <$> publicShare svc token relative limit cursor :
      Request codec svc _).run
  | .stat token relative => (Disclosed.entry <$> publicStat svc token relative : Request codec svc _).run
  | .download token relative version preview =>
    (Disclosed.download <$> publicDownload svc token relative version preview : Request codec svc _).run

end EndlessFS.Shares
