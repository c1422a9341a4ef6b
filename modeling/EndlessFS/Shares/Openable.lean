import EndlessFS.Shares.Confinement

/-!
# EndlessFS.Shares.Openable

Whether what a share shows can be opened. Public paths are relative to the shared root, and are parsed like whole paths
when they come back.

* `reply`: the answer to a request while the world does not change.
* `Opens`: an entry can be opened by its public path, which leads to the owner's entry that it was made from.
* `shown_opens_iff`: this holds of the entries whose public path has no percent sign and does not begin with a reserved
  name; what a directory shows must also be valid and have paths, and the blob of a file be stored.
-/

namespace EndlessFS.Shares

open Except List

variable {codec : NamespaceCodec} {svc : Service} {w : World codec}

/-! ## Requests to a world at rest -/

def replies (w : World codec) {α : Type} : Conc.Prog (machine codec svc) α → α
  | .ret a => a
  | .op o next => replies w (next (w.answer svc o))

def serve (w : World codec) {α : Type} (a : Request codec svc α) : Except Error α := replies w a.run

def reply (w : World codec) {α : Type} (a : Request codec svc (Opened codec α)) : Except Error α :=
  (serve w a).map (·.value)

/-- What the owner finds at a path. -/
def World.sees (w : World codec) (share : Share codec) (path : Path codec) : Except Error (Entry codec) :=
  stat codec share.ownerUserID (w.view share.ownerUserID) path

def Opened.visible (opened : Opened codec (Entry codec)) (entry : Entry codec) : PublicEntry :=
  publicEntry opened.share.rootPath entry opened.value

section

variable {α β : Type} (a : Request codec svc α)

theorem replies_bind (p : Conc.Prog (machine codec svc) α) (f : α → Conc.Prog (machine codec svc) β) :
    replies w (p >>= f) = replies w (f (replies w p)) := by
  induction p with
  | ret a => rfl
  | op o next ih => exact ih _

theorem serve_bind (f : α → Request codec svc β) : serve w (a >>= f) = serve w a >>= fun x => serve w (f x) := by
  unfold serve
  rw [ExceptT.run_bind, replies_bind]
  cases replies w a.run <;> rfl

theorem reply_bind (f : α → Request codec svc (Opened codec β)) :
    reply w (a >>= f) = serve w a >>= fun x => reply w (f x) := by
  unfold reply
  rw [serve_bind]
  cases serve w a <;> rfl

theorem reply_withError {e : Error} {a : Request codec svc (Opened codec α)} {x : α} :
    reply w (Conc.withError e a) = .ok x ↔ reply w a = .ok x := by
  unfold reply serve Conc.withError
  rw [← bind_pure_comp, ExceptT.run_mk, replies_bind]
  cases replies w a.run with
  | ok y => rfl
  | error e => simp [replies, Except.mapError, Except.map]

theorem serve_except (x : Except Error α) : serve w (liftM x : Request codec svc α) = x := rfl

theorem reply_pure (x : Opened codec α) : reply w (pure x : Request codec svc (Opened codec α)) = .ok x.value := rfl

theorem serve_statEntry (share : Share codec) (path : Path codec) :
    serve w (statEntry svc share.ownerUserID path) =
      (w.sees share path).map fun entry => { value := entry, state := w.states share.ownerUserID } := rfl

end

/-! ## The property -/

/-- What a visitor sends for a public path. -/
def Relative.of (segments : List String) : Relative :=
  { plain := segments.all fun s => !s.toList.contains '%' && !s.toList.contains '\\', segments }

def Plain (relative : List String) : Prop :=
  (∀ s ∈ relative, '%' ∉ s.toList) ∧ ∀ first ∈ relative.head?, reservedSegment first = false

/-- The owner can list the directory: it is a sound one, and the entries of its first page are valid and have paths. -/
def Listable (w : World codec) (owner : String) (target : Path codec) (e : PublicEntry) : Prop :=
  (0 ≤ e.size ∧ 0 ≤ e.fileCount ∧ e.mediaType = "") ∧
    ∀ d, located codec owner (w.view owner) target.segments = some d →
      ∀ c ∈ (collectOrdered d "").take 200, checkNamespaceEntry codec c = .ok () ∧ ∃ path, target.join c.name = .ok path

/-- What is to be signed for the file, whose blob is stored in the version. -/
def World.downloadOf (svc : Service) (w : World codec) (owner : String) (e : DirectoryEntry) (version : String) :
    DownloadRequest where
  ownerID := owner
  blobID := e.blobID
  version := version
  filename := e.name
  mediaType := e.mediaType
  disposition := .attachment
  expiresAt := w.clock + svc.downloadTTL

/-- The capability is one that the backend signed for the stored blob of the file. -/
def Signed (svc : Service) (w : World codec) (owner : String) (e : DirectoryEntry) (capability : DownloadCapability) :
    Prop :=
  ∃ sign version, svc.transferBackend = .ok sign ∧ w.blobs owner e.blobID = some version ∧
    sign (w.downloadOf svc owner e version) = .ok capability.url ∧ capability.request = w.downloadOf svc owner e version

/-- The file backend signs a download of the file, whose blob is stored. -/
def Downloadable (svc : Service) (w : World codec) (owner : String) (target : Path codec) : Prop :=
  ∀ found, located codec owner (w.view owner) target.segments = some found →
    ∃ capability, Signed svc w owner found.entry capability

structure Opens (svc : Service) (w : World codec) (token : String) (share : Share codec) (target : Path codec)
    (e : PublicEntry) : Prop where
  leads : sharedPath share (Relative.of e.path).plain e.path = .ok target
  stat : reply w (publicStat svc token (.of e.path)) = .ok e
  directory : e.kind = .entryDirectory →
    ∃ page, reply w (publicShare svc token (.of e.path) 0 .empty) = .ok page ∧ page.current = e
  file : e.kind = .entryFile → ∃ granted, reply w (publicDownload svc token (.of e.path) e.version false) =
    .ok granted ∧
    granted.path = target ∧ ∃ found, located codec share.ownerUserID (w.view share.ownerUserID) target.segments =
      some found ∧
      Signed svc w share.ownerUserID found.entry granted.capability

/-- What is at or below the path now, it was in the state of the cursor. -/
def Unchanged (w : World codec) (owner : String) (top : Path codec) (cursor : CursorText) : Prop :=
  ∀ c, cursor = .opened c → ∀ path : Path codec, top.segments <+: path.segments →
    stat codec owner (w.stateAt owner c.snapshot) path = stat codec owner (w.view owner) path

/-! ## Public paths -/

/-- A public path leads back to the path it was made from, or nowhere. -/
theorem sharedPath_of {share : Share codec} (hkind : share.kind = .entryDirectory) {target : Path codec}
    {names : List String} (htarget : target.segments = share.rootPath.segments ++ names) :
    (Plain names → sharedPath share (Relative.of names).plain names = .ok target) ∧
      ∀ found, sharedPath share (Relative.of names).plain names = .ok found → Plain names := by
  have hmap : names.map codec.nfc = names := by
    have hsegments := target.map_nfc
    rw [htarget, map_append, share.rootPath.map_nfc] at hsegments
    exact append_cancel_left hsegments
  have hparse : ∀ parsed, parseUserPath codec.toNormalization names = .ok parsed ↔
    parsed.segments = names := fun parsed => by
    rw [parseUserPath_eq_ok_iff, hmap, eq_comm]
  by_cases hne : names = []
  · subst hne
    obtain rfl : target = share.rootPath := UserPath.ext (by simp [htarget])
    refine ⟨fun _ => ?_, fun _ _ => by simp [Plain]⟩
    simp [sharedPath, Relative.of, (hparse .root).mpr rfl, UserPath.isRoot, UserPath.root, rejectIf]
  have hvalid := target.valid
  rw [htarget] at hvalid
  obtain ⟨hbytes, hsegments, -⟩ := (checkSegments_eq_ok_iff.mp hvalid).resolve_left (by simp [hne])
  have hbackslash : ∀ s ∈ names, '\\' ∉ s.toList := by
    intro s hs hmem
    have hsegment := hsegments s (mem_append_right _ hs)
    obtain ⟨_, _, hsegment⟩ := bind_ok hsegment
    obtain ⟨_, _, hsegment⟩ := bind_ok hsegment
    obtain ⟨_, _, hsegment⟩ := bind_ok hsegment
    exact any_eq_false.mp (rejectIf_eq_ok_iff.mp hsegment) _ hmem rfl
  have hplain : (Relative.of names).plain = true ↔ ∀ s ∈ names, '%' ∉ s.toList := by
    simp only [Relative.of, all_eq_true, Bool.and_eq_true, Bool.not_eq_true', contains_eq_mem, decide_eq_false_iff_not]
    exact forall₂_congr fun s hs => and_iff_left (hbackslash s hs)
  constructor
  · intro h
    have hcheck : checkSegments names = .ok () := by
      refine checkSegments_eq_ok_iff.mpr (.inr ⟨?_, fun s hs => hsegments s (mem_append_right _ hs), h.2⟩)
      rw [pathBytes_append] at hbytes
      omega
    let parsed : Path codec := ⟨names, fun s hs => target.normal s (htarget ▸ mem_append_right _ hs), hcheck⟩
    have hfound : share.rootPath.joinAll names = .ok target := UserPath.joinAll_eq_ok_iff.mpr (hmap.symm ▸ htarget)
    have hroot : parsed.isRoot = false := by simpa [UserPath.isRoot, parsed] using hne
    have hinside : target.isDescendantOf share.rootPath = true := by
      have hother : target ≠ share.rootPath := fun hsame => hne (by simpa [hsame] using htarget)
      simp [UserPath.isDescendantOf, htarget, hother]
    simp [sharedPath, hplain.mpr h.1, (hparse parsed).mpr rfl, hroot, hkind, hfound, hinside, rejectIf, parsed]
  · intro found h
    obtain ⟨_, hmarked, h⟩ := bind_ok h
    obtain ⟨parsed, hparsed, -⟩ := bind_ok h
    have hreserved := parsed.valid
    rw [(hparse parsed).mp hparsed] at hreserved
    exact ⟨hplain.mp (by simpa [rejectIf_eq_ok_iff] using hmarked),
      ((checkSegments_eq_ok_iff.mp hreserved).resolve_left hne).2.2⟩

/-! ## Opening what was shown -/

theorem World.list_stat {owner : String} {request : ListRequest codec} {page : ListPage codec}
    (h : w.list svc owner request = .ok page) (hsame : Unchanged w owner request.directory request.cursor) :
    page.current.path = request.directory ∧ ∀ entry ∈ page.current :: page.entries,
      request.directory.segments <+: entry.path.segments ∧ stat codec owner (w.view owner) entry.path = .ok entry := by
  obtain ⟨pageSize, _, h⟩ := bind_ok h
  split at h
  · exact World.page_stat h
  · cases h
  · rename_i cursor hcursor
    obtain ⟨_, _, h⟩ := bind_ok h
    obtain ⟨hcurrent, hentries⟩ := World.page_stat h
    refine ⟨hcurrent, fun entry hentry => ?_⟩
    obtain ⟨hbelow, hstat⟩ := hentries entry hentry
    exact ⟨hbelow, hsame cursor hcursor _ hbelow ▸ hstat⟩

theorem resolveEntry_checked {owner : String} {view : NamespaceView} {path : Path codec} {e : NamespaceEntry}
    (hroot : path.isRoot = false) (h : resolveEntry codec owner view path = .ok e) : checkNamespaceEntry codec e =
      .ok () := by
  rw [resolveEntry, if_neg (by simp [hroot])] at h
  obtain ⟨trail, _, h⟩ := bind_ok h
  obtain ⟨frame, _, h⟩ := bind_ok h
  obtain ⟨found, hfound, h⟩ := bind_ok h
  cases found with
  | none => cases h
  | some found =>
    cases h
    exact (child_some hfound).2

theorem walks_concat {d p root : NamespaceEntry} {names : List String} {segment : String} (h : Walks codec p root names)
    (hfind : Edit.find NamespaceEntry.name p.children segment = some d) (hcheck : checkNamespaceEntry codec d = .ok ())
    (hkind : d.isDirectory = true) : Walks codec d root (names ++ [segment]) := by
  induction names generalizing root with
  | nil =>
    cases h
    exact ⟨d, hfind, hcheck, hkind, rfl⟩
  | cons first rest ih =>
    obtain ⟨c, hc, hchecked, hdirectory, h⟩ := h
    exact ⟨c, hc, hchecked, hdirectory, ih h⟩

theorem resolveEntry_walks {owner : String} {view : NamespaceView} {path : Path codec} {e : NamespaceEntry}
    (h : resolveEntry codec owner view path = .ok e) (hkind : e.isDirectory = true) :
    Walks codec e (viewRoot codec owner view .areaLive) path.segments := by
  unfold resolveEntry at h
  split_ifs at h with hroot
  · cases h
    rw [isEmpty_iff.mp hroot]
    rfl
  · obtain ⟨trail, htrail, h⟩ := bind_ok h
    obtain ⟨frame, hframe, h⟩ := bind_ok h
    obtain ⟨found, hfound, h⟩ := bind_ok h
    cases found with
    | none => cases h
    | some found =>
      cases h
      rw [← UserPath.parent_append_name (Bool.eq_false_iff.mpr hroot)]
      obtain ⟨hfind, hcheck⟩ := child_some hfound
      exact walks_concat (resolveTrail_walks.mp ⟨trail, frame, htrail, hframe, rfl⟩) hfind hcheck hkind

theorem exists_pageEntries_iff {directory : Path codec} {found : List NamespaceEntry} :
    (∃ entries, pageEntries codec directory found = .ok entries) ↔
      ∀ c ∈ found, checkNamespaceEntry codec c = .ok () ∧ ∃ path, directory.join c.name = .ok path := by
  induction found with
  | nil => simp [pageEntries]
  | cons c rest ih =>
    rw [forall_mem_cons, ← ih]
    simp only [pageEntries, bind_eq_ok_iff, pure_eq_ok, ok.injEq]
    constructor
    · rintro ⟨_, _, hcheck, path, hpath, entries, hentries, rfl⟩
      exact ⟨⟨hcheck, path, hpath⟩, entries, hentries⟩
    · rintro ⟨⟨hcheck, path, hpath⟩, entries, hentries⟩
      exact ⟨_, (), hcheck, path, hpath, entries, hentries, rfl⟩

/-- The first page of a directory that can be reached. -/
theorem World.exists_list_iff {owner : String} {target : Path codec} {d : NamespaceEntry}
    (h : Walks codec d (viewRoot codec owner (w.view owner) .areaLive) target.segments) :
    (∃ page, w.list svc owner { directory := target, pageSize := 0, cursor := .empty } = .ok page) ↔
      ∀ c ∈ (collectOrdered d "").take 200, checkNamespaceEntry codec c = .ok () ∧
        ∃ path, target.join c.name = .ok path := by
  obtain ⟨trail, frame, htrail, hframe, rfl⟩ := resolveTrail_walks.mpr h
  have hview : w.stateAt owner (w.states owner) = w.view owner := rfl
  rw [← exists_pageEntries_iff]
  simp [World.list, World.page, normalizeFilePageSize, hview, htrail, hframe, bind_eq_ok_iff, take_take]

section

variable {token : String} {opened : Opened codec (Entry codec)}

variable (h : serve w (authorizeShare svc token) = .ok opened)

include h

theorem authorizeShare_root :
    w.sees opened.share opened.share.rootPath = .ok opened.value ∧ opened.value.kind = opened.share.kind := by
  unfold authorizeShare at h
  split at h
  · cases h
  simp only [serve_bind] at h
  obtain ⟨share, _, h⟩ := bind_ok h
  obtain ⟨_, _, h⟩ := bind_ok h
  obtain ⟨now, _, h⟩ := bind_ok h
  obtain ⟨_, _, h⟩ := bind_ok h
  obtain ⟨enabled, _, h⟩ := bind_ok h
  obtain ⟨_, _, h⟩ := bind_ok h
  obtain ⟨root, hroot, h⟩ := bind_ok h
  obtain ⟨_, hsame, h⟩ := bind_ok h
  cases h
  obtain ⟨entry, hentry, rfl⟩ := map_eq_ok_iff.mp hroot
  exact ⟨hentry, by simpa using (Bool.or_eq_false_iff.mp (rejectIf_eq_ok_iff.mp hsame)).2⟩

theorem recheck_served : serve w (recheck svc opened) = .ok (w.states opened.share.ownerUserID) := by
  simp only [recheck, serve_bind, serve_statEntry, serve_except, (authorizeShare_root h).1, Except.map, ok_bind, ne_eq,
    not_true_eq_false, decide_false, Bool.or_self, rejectIf]
  rfl

variable {relative : Relative} {e : PublicEntry} (hkind : opened.share.kind = .entryDirectory)

theorem publicStat_served : reply w (publicStat svc token relative) = .ok e ↔
    ∃ path, sharedPath opened.share relative.plain relative.segments = .ok path ∧
      ∃ entry, w.sees opened.share path = .ok entry ∧ opened.visible entry = e := by
  simp only [publicStat, reply_withError, reply_bind, reply_pure, serve_except, serve_statEntry, h,
    recheck_served h, ok_bind, bind_eq_ok_iff, map_eq_ok_iff, ok.injEq, exists_exists_and_eq_and, Opened.visible]

include hkind

theorem publicShare_served {limit : Int} {cursor : CursorText} {page : PublicPage} :
    reply w (publicShare svc token relative limit cursor) = .ok page ↔
      ∃ target, sharedPath opened.share relative.plain relative.segments = .ok target ∧
        ∃ listed, serve w (listEntries svc opened.share.ownerUserID { directory := target, pageSize := limit, cursor })
          = .ok listed ∧
          (((listed.current.kind = .entryDirectory ∧ 0 ≤ listed.current.size) ∧ 0 ≤ listed.current.fileCount) ∧
            listed.current.mediaType = "") ∧
          { root := opened.visible opened.value, current := opened.visible listed.current
            entries := listed.entries.map opened.visible, nextCursor := listed.nextCursor } = page := by
  simp only [publicShare, reply_withError, reply_bind, reply_pure, serve_except, h, hkind, recheck_served h, ok_bind,
    bind_eq_ok_iff, ok.injEq, reduceCtorEq, if_false, rejectIf_eq_ok_iff, Bool.or_eq_false_iff,
      decide_eq_false_iff_not, not_lt,
    not_not, exists_const]
  rfl

omit h hkind in
theorem createDownload_served {owner : String} {path : Path codec} {found : NamespaceEntry}
    (hroot : path.isRoot = false)
    (hfound : resolveEntry codec owner (w.view owner) path = .ok found) (hfile : found.entry.kind = .entryFile)
    (hversion : found.entry.logicalVersion ≠ "") {c : Noted DownloadCapability} :
    serve w (createDownload svc owner path found.entry.logicalVersion .attachment) = .ok c ↔
      c.state = w.states owner ∧ Signed svc w owner found.entry c.value := by
  have hresolved : serve w (resolveFile svc owner path) = .ok { value := found.entry, state := w.states owner } :=
    congrArg (Except.map _) hfound
  have hclock : serve w (clockNow svc : Request codec svc Time) = .ok w.clock := rfl
  have hhead : serve w (headBlob svc owner found.entry.blobID : Request codec svc String) =
      (w.blobs owner found.entry.blobID).elim (.error (newError .notFound "object not found")) .ok := rfl
  simp only [createDownload, serve_bind, serve_except, hroot, hresolved, hclock, hhead, hfile, hversion,
    ok_bind, rejectIf, ne_eq, not_true_eq_false, decide_false, Bool.or_self, Bool.false_eq_true, if_false,
    bind_eq_ok_iff, Signed]
  constructor
  · rintro ⟨sign, hsign, version, hblob, url, hurl, hc⟩
    cases hc
    cases hstored : w.blobs owner found.entry.blobID with
    | none => simp [hstored] at hblob
    | some stored =>
      obtain rfl : stored = version := by simpa [hstored] using hblob
      exact ⟨rfl, sign, stored, hsign, rfl, hurl, rfl⟩
  · obtain ⟨⟨request, url⟩, state⟩ := c
    rintro ⟨rfl, sign, version, hsign, hblob, hurl, rfl⟩
    exact ⟨sign, hsign, version, by rw [hblob]; rfl, url, hurl, rfl⟩

variable {entry : Entry codec} (hbelow : opened.share.rootPath.segments <+: entry.path.segments)
  (hstat : w.sees opened.share entry.path = .ok entry)

include hbelow hstat

theorem publicDownload_served (hpath : sharedPath opened.share relative.plain relative.segments = .ok entry.path)
    (hfile : entry.kind = .entryFile) : ∃ found,
      located codec opened.share.ownerUserID (w.view opened.share.ownerUserID) entry.path.segments = some found ∧
        ∀ granted, reply w (publicDownload svc token relative entry.version false) = .ok granted ↔
          granted.path = entry.path ∧ granted.version = entry.version ∧ granted.previewKind = "download" ∧
            Signed svc w opened.share.ownerUserID found.entry granted.capability := by
  -- the shared root is a directory, so that the file is not at the root of the namespace
  have hroot : entry.path.isRoot = false := by
    by_contra hroot
    have hempty := List.isEmpty_iff.mp (Bool.not_eq_false _ ▸ hroot)
    have hsame : opened.share.rootPath = entry.path :=
      UserPath.ext ((prefix_nil.mp (hempty ▸ hbelow)).trans hempty.symm)
    obtain ⟨hshared, hdirectory⟩ := authorizeShare_root h
    rw [hsame, hstat] at hshared
    cases hshared
    simp [hfile, hkind] at hdirectory
  obtain ⟨found, hfound, hentry⟩ := map_eq_ok_iff.mp hstat
  have hkind : found.entry.kind = .entryFile := by rw [← hfile, ← hentry]; rfl
  have hsame : found.entry.logicalVersion = entry.version := by rw [← hentry]; rfl
  have hversion : found.entry.logicalVersion ≠ "" := (fields_of_checked (resolveEntry_checked hroot hfound)).1
  have hserved (c) : serve w (createDownload svc _ _ found.entry.logicalVersion .attachment) = .ok c ↔ _ :=
    createDownload_served hroot hfound hkind hversion
  rw [hsame] at hserved hversion
  refine ⟨found, resolveEntry_located hfound, fun granted => ?_⟩
  rw [publicDownload, reply_withError, reply_bind, h, ok_bind, reply_bind, serve_except, hpath, ok_bind, reply_bind,
    serve_statEntry, hstat]
  simp only [Except.map, ok_bind, reply_bind, serve_except, hfile, hversion, dispositionOf, rejectIf, reply_pure, ne_eq,
    not_true_eq_false, decide_false, Bool.or_self, Bool.false_eq_true, if_false, bind_eq_ok_iff, hserved, ok.injEq]
  constructor
  · rintro ⟨c, ⟨_, hsigned⟩, rfl⟩
    exact ⟨rfl, rfl, rfl, hsigned⟩
  · obtain ⟨path, version, capability, preview⟩ := granted
    rintro ⟨rfl, rfl, rfl, hsigned⟩
    exact ⟨{ value := capability, state := w.states opened.share.ownerUserID }, ⟨rfl, hsigned⟩, rfl⟩

theorem opens_iff (he : opened.visible entry = e) : Opens svc w token opened.share entry.path e ↔
    Plain e.path ∧ (e.kind = .entryDirectory → Listable w opened.share.ownerUserID entry.path e) ∧
      (e.kind = .entryFile → Downloadable svc w opened.share.ownerUserID entry.path) := by
  have htarget : entry.path.segments = opened.share.rootPath.segments ++ e.path := by
    obtain ⟨rest, hrest⟩ := hbelow
    simp [← he, Opened.visible, publicEntry, ← hrest]
  obtain ⟨hplain, hback⟩ := sharedPath_of hkind htarget
  obtain ⟨found, hfound, hentry⟩ := map_eq_ok_iff.mp hstat
  have hlocated := resolveEntry_located hfound
  have hlists : e.kind = .entryDirectory → ((∃ listed, w.list svc opened.share.ownerUserID
      { directory := entry.path, pageSize := 0, cursor := .empty } = .ok listed) ↔
        ∀ c ∈ (collectOrdered found "").take 200,
        checkNamespaceEntry codec c = .ok () ∧ ∃ path, entry.path.join c.name = .ok path) := by
    intro hdirectory
    have hdirectory : found.isDirectory = true := by
      rw [← he, ← hentry] at hdirectory
      exact decide_eq_true hdirectory
    exact World.exists_list_iff (resolveEntry_walks hfound hdirectory)
  constructor
  · intro hopens
    have hpath := hback _ hopens.leads
    refine ⟨hpath, fun hdirectory => ?_, fun hfile d hd => ?_⟩
    · obtain ⟨page, hpage, hcurrent⟩ := hopens.directory hdirectory
      obtain ⟨target, htarget, listed, hlisted, ⟨⟨⟨_, hsize⟩, hcount⟩, hmedia⟩, rfl⟩ :=
        (publicShare_served h hkind).mp hpage
      cases htarget.symm.trans (hplain hpath)
      refine ⟨by rw [← hcurrent]; exact ⟨hsize, hcount, hmedia⟩, fun d hd => ?_⟩
      cases hlocated.symm.trans hd
      exact (hlists hdirectory).mp ⟨listed, hlisted⟩
    · obtain ⟨granted, _, _, found, hfound, hsigned⟩ := hopens.file hfile
      cases hfound.symm.trans hd
      exact ⟨granted.capability, hsigned⟩
  · rintro ⟨hpath, hlist, hdownload⟩
    have hshared := hplain hpath
    refine ⟨hshared, (publicStat_served h).mpr ⟨_, hshared, _, hstat, he⟩, fun hdirectory => ?_, fun hfile => ?_⟩
    · obtain ⟨⟨hsize, hcount, hmedia⟩, hchildren⟩ := hlist hdirectory
      obtain ⟨listed, hlisted⟩ := (hlists hdirectory).mpr (hchildren found hlocated)
      obtain ⟨hcurrent, hentries⟩ := World.list_stat hlisted fun _ hc => by cases hc
      have hsame := hstat.symm.trans (hcurrent ▸ (hentries _ (.head _)).2)
      cases hsame
      subst he
      exact ⟨_, (publicShare_served h hkind).mpr ⟨_, hshared, listed, hlisted, ⟨⟨⟨hdirectory, hsize⟩, hcount⟩, hmedia⟩,
        rfl⟩, rfl⟩
    · subst he
      obtain ⟨d, hd, hserved⟩ := publicDownload_served h hkind hbelow hstat hshared hfile
      obtain ⟨capability, hsigned⟩ := hdownload hfile d hd
      exact ⟨{ path := entry.path, version := entry.version, capability, previewKind := "download" },
        (hserved _).mpr ⟨rfl, rfl, rfl, hsigned⟩, rfl, d, hd, hsigned⟩

end

/-- What is shown can be opened if its public path is plain, and only then: each shown entry is one of the owner's, and
its public path leads back to it. -/
theorem shown_opens_iff {token : String} {opened : Opened codec (Entry codec)} {relative : Relative} {limit : Int}
    {cursor : CursorText} {page : PublicPage} (h : serve w (authorizeShare svc token) = .ok opened)
    (hkind : opened.share.kind = .entryDirectory)
    (hpage : reply w (publicShare svc token relative limit cursor) = .ok page)
    (hsame : Unchanged w opened.share.ownerUserID opened.share.rootPath cursor) :
    (∀ e ∈ page.root :: page.current :: page.entries, ∃ entry : Entry codec, w.sees opened.share entry.path =
      .ok entry ∧
      opened.share.rootPath.segments <+: entry.path.segments ∧
      publicEntry opened.share.rootPath entry opened.value = e ∧
      (Opens svc w token opened.share entry.path e ↔ Plain e.path ∧
        (e.kind = .entryDirectory → Listable w opened.share.ownerUserID entry.path e) ∧
        (e.kind = .entryFile → Downloadable svc w opened.share.ownerUserID entry.path))) ∧
      ∀ entry other : Entry codec, opened.share.rootPath.segments <+: entry.path.segments →
        opened.share.rootPath.segments <+: other.path.segments →
          let shown := (publicEntry opened.share.rootPath entry opened.value).path
          (sharedPath opened.share (Relative.of shown).plain shown = .ok entry.path ↔ Plain shown) ∧
            (shown = (publicEntry opened.share.rootPath other opened.value).path → entry.path = other.path) := by
  refine ⟨fun e he => ?_, fun entry other hentry hother => ?_⟩
  · obtain ⟨target, htarget, listed, hlisted, _, rfl⟩ := (publicShare_served h hkind).mp hpage
    have hbelow := sharedPath_below htarget
    obtain ⟨_, hentries⟩ := World.list_stat hlisted fun c hc path hpath => hsame c hc path (hbelow.trans hpath)
    rcases mem_cons.mp he with rfl | he
    · obtain ⟨hroot, _⟩ := authorizeShare_root h
      have hpath := (stat_at hroot).1
      have hinside : opened.share.rootPath.segments <+: opened.value.path.segments := hpath ▸ prefix_rfl
      have hstat : w.sees opened.share opened.value.path = .ok opened.value := hpath.symm ▸ hroot
      exact ⟨opened.value, hstat, hinside, rfl, opens_iff h hkind hinside hstat rfl⟩
    · obtain ⟨entry, hentry, he⟩ := mem_map.mp (map_cons ▸ he : e ∈ (listed.current :: listed.entries).map
        opened.visible)
      obtain ⟨hinside, hstat⟩ := hentries entry hentry
      exact ⟨entry, hstat, hbelow.trans hinside, he, opens_iff h hkind (hbelow.trans hinside) hstat he⟩
  · have hpath : ∀ x : Entry codec, opened.share.rootPath.segments <+: x.path.segments →
        x.path.segments = opened.share.rootPath.segments ++ (publicEntry opened.share.rootPath x
          opened.value).path := by
      rintro x ⟨rest, hrest⟩
      simp [publicEntry, ← hrest]
    obtain ⟨hplain, hback⟩ := sharedPath_of hkind (hpath entry hentry)
    exact ⟨⟨hback entry.path, hplain⟩, fun hshown =>
      UserPath.ext (by rw [hpath entry hentry, hpath other hother, hshown])⟩

namespace Stale

/-- A share of `/d`. -/
def shared (view : NamespaceView) : World versions :=
  { world with history := fun _ => [treeOf view], shares := fun _ _ => some (shareOf "s" view, 1) }

/-- Directory `/d` with the files `100%` and `.trash`. -/
def marked : NamespaceView :=
  ((NamespaceView.empty.after versions "owner" 1 makeD).after versions "owner" 2
    (putFile ⟨["d", "100%"], fun _ _ => rfl, by decide +kernel⟩)).after versions "owner" 3
    (putFile ⟨["d", ".trash"], fun _ _ => rfl, by decide +kernel⟩)

end Stale

theorem Stale.both_open : ∃ page, reply (shared both) (publicShare service "s" everything 0 .empty) = .ok page ∧
    page.entries.map (fun e => (e.path, e.kind)) = [(["a"], .entryFile), (["b"], .entryFile)] ∧
    ∀ e ∈ page.entries, ∃ target, Opens service (shared both) "s" (shareOf "s" both) target e := by
  obtain ⟨opened, h, hshare⟩ : ∃ opened, serve (shared both) (authorizeShare service "s") = .ok opened ∧
      opened.share = shareOf "s" both := by
    refine ⟨_, rfl, rfl⟩
  obtain ⟨page, hpage, hshown⟩ := map_eq_ok_iff.mp
    (show (reply (shared both) (publicShare service "s" everything 0 .empty)).map
    (fun page => page.entries.map fun e => (e.path, e.kind)) = .ok [(["a"], .entryFile),
      (["b"], .entryFile)] by decide +kernel)
  refine ⟨page, hpage, hshown, fun e he => ?_⟩
  obtain ⟨entry, _, _, _, hiff⟩ := (shown_opens_iff h (by rw [hshare]; rfl) hpage nofun).1 e (.tail _ (.tail _ he))
  have hmem : (e.path, e.kind) ∈ [(["a"], EntryKind.entryFile), (["b"], .entryFile)] :=
    hshown ▸ mem_map.mpr ⟨e, he, rfl⟩
  simp only [mem_cons, not_mem_nil, or_false, Prod.mk.injEq] at hmem
  rw [hshare] at hiff
  refine ⟨entry.path, hiff.mpr ⟨?_, fun hdirectory => ?_, fun _ found _ => ?_⟩⟩
  · rcases hmem with ⟨hpath, _⟩ | ⟨hpath, _⟩
    all_goals exact hpath ▸ ⟨by decide, by decide +kernel⟩
  · simp [hdirectory] at hmem
  · exact ⟨⟨_, _⟩, _, "stored", rfl, rfl, rfl, rfl⟩

/-- Both files are shown, and neither can be opened. -/
theorem Stale.marked_closed : ((reply (shared marked) (publicShare service "s" everything 0 .empty)).map fun page =>
    page.entries.map fun e => (e.path, (reply (shared marked) (publicStat service "s" (.of e.path))).isOk,
      (reply (shared marked) (publicDownload service "s" (.of e.path) e.version false)).isOk)) =
    .ok [([".trash"], false, false), (["100%"], false, false)] := by
  decide +kernel

end EndlessFS.Shares
