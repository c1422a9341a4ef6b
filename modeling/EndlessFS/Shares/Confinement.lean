import EndlessFS.Namespace.Runs
import EndlessFS.Shares.Public

/-!
# EndlessFS.Shares.Confinement

What visitors can see through a share. A disclosed entry should be part of the recorded version of the shared root:
there should be one state of the owner's namespace, between the authorization and the end of the request, in which the
root has the version and kind that the share recorded and the entry lies at or below it.

* `partOf`, `Disclosed.confined`: the property.
* `Steady`: a shared root that was changed does not come back as it was recorded, and gets no new files.
* `pages_confined`: the property in the runs whose cursors continue pages of directories that are as they were, and in
  which the owners' changes keep their shared roots steady.
* `Stale`: a cursor of one share that discloses a deleted file through another share.
-/

namespace EndlessFS.Shares

open Except List NamespaceEntry World
open Conc (Fallible Yields Policy Config Reach)

variable {codec : NamespaceCodec} {svc : Service}

/-! ## The property -/

def located (codec : NamespaceCodec) (owner : String) (view : NamespaceView) (segments : List String) :
    Option NamespaceEntry :=
  (viewRoot codec owner view .areaLive).lookup segments

def Share.intact (share : Share codec) (view : NamespaceView) : Bool :=
  (located codec share.ownerUserID view share.rootPath.segments).any fun root =>
    root.entry.logicalVersion = share.rootVersion && root.entry.kind = share.kind

def PublicEntry.shows (seen : PublicEntry) (e : DirectoryEntry) : Bool :=
  seen.kind = e.kind && seen.size = e.size && seen.fileCount = e.files && seen.mediaType = e.mediaType &&
    seen.modifiedAt = e.modifiedAt && seen.version = e.logicalVersion && (seen.path = [] || seen.name = e.name)

def Share.partOf (share : Share codec) (view : NamespaceView) (seen : PublicEntry) : Bool :=
  share.intact view &&
    (located codec share.ownerUserID view (share.rootPath.segments ++ seen.path)).any fun e => seen.shows e.entry

/-- The request is for the blob of the file. -/
def DownloadRequest.serves (request : DownloadRequest) (e : DirectoryEntry) : Bool :=
  e.kind = .entryFile && request.blobID = e.blobID && request.filename = e.name && request.mediaType = e.mediaType

def Share.grants (share : Share codec) (view : NamespaceView) (granted : Granted codec) : Bool :=
  share.intact view && (share.rootPath.segments.isPrefixOf granted.path.segments) &&
    (located codec share.ownerUserID view granted.path.segments).any fun e =>
      e.entry.logicalVersion = granted.version && granted.capability.request.serves e.entry

def Opened.during {α : Type} (w : World codec) (opened : Opened codec α) (holds : NamespaceView → Bool) : Bool :=
  (List.range (opened.upTo + 1)).any fun n => opened.since ≤ n && holds (w.stateAt opened.share.ownerUserID n)

def Disclosed.confined (w : World codec) : Disclosed codec → Bool
  | .page opened => (opened.value.root :: opened.value.current :: opened.value.entries).all fun seen =>
      opened.during w (opened.share.partOf · seen)
  | .entry opened => opened.during w (opened.share.partOf · opened.value)
  | .download opened =>
      opened.value.capability.request.ownerID = opened.share.ownerUserID &&
        opened.during w (opened.share.grants · opened.value)

/-! ## The condition -/

def sameDirectory (w : World codec) (owner : String) (request : ListRequest codec) : Prop :=
  ∀ cursor, request.cursor = .opened cursor →
    located codec owner (w.stateAt owner cursor.snapshot) request.directory.segments =
      located codec owner (w.view owner) request.directory.segments

/-- Each file at or below the shared root was there before, as it is. -/
def Share.KeepsFiles (share : Share codec) (before after : NamespaceView) : Prop :=
  ∀ segments e, share.rootPath.segments <+: segments → located codec share.ownerUserID after segments = some e →
    e.entry.kind = .entryFile → ∃ e', located codec share.ownerUserID before segments = some e' ∧ e'.entry = e.entry

/-- Changes of the owner's namespace that do not bring the shared root back as it was recorded, and put no file there.
-/
def Share.KeptBy (share : Share codec) (before after : NamespaceView) : Prop :=
  (share.intact after = true → share.intact before = true) ∧ share.KeepsFiles before after

/-- Runs in which cursors continue pages of directories that did not change, and no change brings a shared root back as
it was recorded after it had another version, or puts a new or changed file at or below it. -/
def settled (codec : NamespaceCodec) (svc : Service) : Policy (machine codec svc) Call where
  spawn _ _ := True
  step w _ o :=
    match o with
    | .list owner request => sameDirectory w owner request
    | _ => True
  drift w d :=
    match d with
    | .mutate owner tree => ∀ shareID share created, w.shares owner shareID = some (share, created) →
        share.ownerUserID = owner → share.KeptBy (w.view owner) tree.view
    | _ => True

/-! ## States of the world -/

namespace World

variable {s t : World codec}

theorem le_states (h : Le s t) (owner : String) : s.states owner ≤ t.states owner :=
  (h.history owner).length_le

theorem stateAt_of_le (h : Le s t) {owner : String} {n : Nat} (hn : n ≤ s.states owner) :
    t.stateAt owner n = s.stateAt owner n := by
  obtain ⟨newer, hnewer⟩ := h.history owner
  have hlength : t.states owner - n = newer.length + (s.states owner - n) := by
    unfold states at hn ⊢
    rw [← hnewer, length_append]
    omega
  unfold stateAt treeAt
  rw [hlength, ← drop_drop, ← hnewer, drop_left]

theorem view_of_le (h : Le s t) (owner : String) : t.stateAt owner (s.states owner) = s.view owner :=
  stateAt_of_le h le_rfl

def Steady (w : World codec) : Prop :=
  ∀ owner shareID share created, w.shares owner shareID = some (share, created) →
    share.ownerUserID = owner ∧ created ≤ w.states owner ∧
      ∀ n, created ≤ n → n < w.states owner → share.KeptBy (w.stateAt owner n) (w.stateAt owner (n + 1))

end World

theorem Share.intact_congr {a b : Share codec} (howner : a.ownerUserID = b.ownerUserID) (h : World.SameBinding a b)
    (view : NamespaceView) : a.intact view = b.intact view := by
  obtain ⟨hpath, hversion, hkind⟩ := h
  unfold Share.intact
  rw [howner, hpath, hversion, hkind]

theorem Share.keptBy_congr {a b : Share codec} (howner : a.ownerUserID = b.ownerUserID) (h : World.SameBinding a b)
    {before after : NamespaceView} (hkept : a.KeptBy before after) : b.KeptBy before after := by
  unfold Share.KeptBy Share.KeepsFiles at hkept ⊢
  rwa [Share.intact_congr howner h, Share.intact_congr howner h, howner, h.1] at hkept

variable {owner : String} {w : World codec}

section

variable (h : w.Steady)

include h

theorem World.Steady.mutate {tree : Tree codec} (hback : ∀ shareID share created, w.shares owner shareID =
      some (share, created) →
      share.ownerUserID = owner → share.KeptBy (w.view owner) tree.view) : (w.drift (.mutate owner tree)).Steady := by
  have hle := le_drift w (.mutate owner tree)
  intro other shareID share created hshare
  obtain ⟨howner, hcreated, hkeeps⟩ := h other shareID share created hshare
  have hgrown := le_states hle other
  refine ⟨howner, hcreated.trans hgrown, fun n hn hlt => ?_⟩
  by_cases hold : n < w.states other
  · rw [stateAt_of_le hle hold.le, stateAt_of_le hle hold]
    exact hkeeps n hn hold
  · -- only the owner's history grew, by the new state
    have hsame : other = owner := by
      by_contra hne
      refine hold ?_
      simpa [states, drift, hne] using hlt
    subst hsame
    have hstates : (w.drift (.mutate other tree)).states other = w.states other + 1 := by
      simp [states, drift]
    obtain rfl : n = w.states other := by omega
    have hnew : (w.drift (.mutate other tree)).stateAt other (w.states other + 1) = tree.view := by
      simp [stateAt, treeAt, drift, states]
    rw [view_of_le hle, hnew]
    exact hback shareID share created hshare howner

theorem World.Steady.of_shares {w' : World codec} (hhistory : w'.history = w.history)
    (hshares : ∀ owner shareID share created, w'.shares owner shareID = some (share, created) →
      (share.ownerUserID = owner ∧ created = w.states owner) ∨
        ∃ old, w.shares owner shareID = some (old, created) ∧ share.ownerUserID = old.ownerUserID ∧
          World.SameBinding old share) : w'.Steady := by
  have hstates : ∀ owner, w'.states owner = w.states owner := fun owner => by simp [states, hhistory]
  have hstate : ∀ owner n, w'.stateAt owner n = w.stateAt owner n := fun owner n => by
    simp [stateAt, treeAt, hstates, hhistory]
  intro owner shareID share created hshare
  rcases hshares owner shareID share created hshare with ⟨howner, rfl⟩ | ⟨old, hold, howner, hbinding⟩
  · refine ⟨howner, (hstates owner).ge, fun n hn hlt => ?_⟩
    rw [hstates] at hlt
    omega
  · obtain ⟨howner', hcreated, hkeeps⟩ := h owner shareID old created hold
    refine ⟨howner.trans howner', by rw [hstates]; exact hcreated, fun n hn hlt => ?_⟩
    rw [hstate, hstate]
    exact Share.keptBy_congr howner.symm hbinding (hkeeps n hn (hstates owner ▸ hlt))

theorem World.Steady.createShare (share : Share codec) : (w.drift (.createShare share)).Steady := by
  by_cases hstored : (w.shares share.ownerUserID share.shareID).isSome
  · simpa [drift, hstored] using h
  simp only [drift, hstored, Bool.false_eq_true, if_false]
  refine h.of_shares rfl fun owner shareID found created hfound => ?_
  by_cases hplace : owner = share.ownerUserID ∧ shareID = share.shareID
  · obtain ⟨rfl, rfl⟩ := hplace
    simp only [putShare, Function.update_self, Option.some.injEq, Prod.mk.injEq] at hfound
    exact .inl ⟨by rw [← hfound.1], hfound.2.symm⟩
  · refine .inr ⟨found, ?_, rfl, rfl, rfl, rfl⟩
    by_cases howner : owner = share.ownerUserID
    · subst howner
      have hid : shareID ≠ share.shareID := fun hid => hplace ⟨rfl, hid⟩
      simpa [putShare, hid] using hfound
    · simpa [putShare, howner] using hfound

theorem World.Steady.revokeShare (owner shareID : String) : (w.drift (.revokeShare owner shareID)).Steady := by
  refine h.of_shares rfl fun other otherID found created hfound => .inr ?_
  by_cases howner : other = owner
  · subst howner
    by_cases hid : otherID = shareID
    · subst hid
      simp only [drift, putShare, Function.update_self, Option.map_eq_some_iff, Prod.mk.injEq] at hfound
      obtain ⟨⟨old, _⟩, hold, rfl, rfl⟩ := hfound
      exact ⟨old, hold, rfl, rfl, rfl, rfl⟩
    · exact ⟨found, by simpa [drift, putShare, hid] using hfound, rfl, rfl, rfl, rfl⟩
  · exact ⟨found, by simpa [drift, putShare, howner] using hfound, rfl, rfl, rfl, rfl⟩

theorem World.Steady.drift {d : Drift codec} (hd : (settled codec svc).drift w d) : (w.drift d).Steady := by
  cases d with
  | mutate owner tree => exact h.mutate hd
  | createShare share => exact h.createShare share
  | revokeShare owner shareID => exact h.revokeShare owner shareID
  | setBlob owner blobID version =>
    exact h.of_shares rfl fun _ _ share _ hshare => .inr ⟨share, hshare, rfl, rfl, rfl, rfl⟩
  | setAccount owner enabled => exact h.of_shares rfl fun _ _ share _ hshare => .inr ⟨share, hshare, rfl, rfl, rfl, rfl⟩
  | tick seconds => exact h.of_shares rfl fun _ _ share _ hshare => .inr ⟨share, hshare, rfl, rfl, rfl, rfl⟩

end

variable {share : Share codec} {n : Nat} {shareID : String}

theorem World.Steady.intact_of_later (h : w.Steady) {created m : Nat}
    (hshare : w.shares owner shareID = some (share, created))
    (hcreated : created ≤ n) (hle : n ≤ m) (hm : m ≤ w.states owner)
    (hintact : share.intact (w.stateAt owner m) = true) :
    share.intact (w.stateAt owner n) = true := by
  obtain ⟨_, _, hkeeps⟩ := h owner shareID share created hshare
  induction m, hle using Nat.le_induction with
  | base => exact hintact
  | succ m hnm ih => exact ih (by omega) ((hkeeps m (hcreated.trans hnm) (by omega)).1 hintact)

variable {view : NamespaceView} {path : Path codec}

theorem lastFrame_located {trail : List NamespaceFrame}
    {frame : NamespaceFrame} (htrail : resolveTrail codec owner view .areaLive path = .ok trail)
    (hframe : lastFrame trail = .ok frame) : located codec owner view path.segments = some frame.entry := by
  have hon := resolveTrail_ok htrail
  obtain ⟨last, hlast, hpath⟩ := hon.last
  unfold lastFrame at hframe
  rw [hlast] at hframe
  cases hframe
  have hentry := hon.entry frame (mem_of_getLast? hlast)
  rwa [hpath, nil_append] at hentry

variable {e : NamespaceEntry}

theorem resolveEntry_located
    (h : resolveEntry codec owner view path = .ok e) : located codec owner view path.segments = some e := by
  unfold resolveEntry at h
  split_ifs at h with hroot
  · cases h
    rw [isEmpty_iff.mp hroot]
    rfl
  · obtain ⟨trail, htrail, h⟩ := bind_ok h
    obtain ⟨frame, hframe, h⟩ := bind_ok h
    obtain ⟨found, hfound, h⟩ := bind_ok h
    cases found with
    | none => cases h
    | some found =>
      cases h
      have hparent := lastFrame_located htrail hframe
      unfold located at hparent ⊢
      rw [← UserPath.parent_append_name (Bool.eq_false_iff.mpr hroot), lookup_snoc hparent]
      exact (child_some hfound).1

def At (owner : String) (view : NamespaceView) (entry : Entry codec) : Prop :=
  ∃ e, located codec owner view entry.path.segments = some e ∧ entry = domainEntry codec entry.path e.entry

variable {entry : Entry codec}

theorem stat_at (h : stat codec owner view path = .ok entry) : entry.path = path ∧ At owner view entry := by
  obtain ⟨e, he, rfl⟩ := map_eq_ok_iff.mp h
  exact ⟨rfl, e, resolveEntry_located he, rfl⟩

variable {bound : String}

theorem mem_collectOrdered {directory : NamespaceEntry} (h : e ∈ collectOrdered directory bound) :
    Edit.find name directory.children e.name = some e := by
  obtain ⟨name, _, hfound⟩ := mem_filterMap.mp h
  rwa [(Edit.find_some hfound).2]

variable {directory : Path codec} {d : NamespaceEntry} {page : ListPage codec}

theorem stat_child (hwalks : Walks codec d (viewRoot codec owner view .areaLive) directory.segments)
    (hpath : path.segments = directory.segments ++ [e.name]) (hfind : Edit.find name d.children e.name = some e)
    (hcheck : checkNamespaceEntry codec e = .ok ()) :
      stat codec owner view path = .ok (domainEntry codec path e.entry) := by
  have hroot : path.isRoot = false := by simp [UserPath.isRoot, hpath]
  have hparent : path.parent = directory := UserPath.ext (by simp [UserPath.parent, hpath])
  have hname : path.name = e.name := by simp [UserPath.name, hpath]
  obtain ⟨trail, frame, htrail, hframe, rfl⟩ := resolveTrail_walks.mpr hwalks
  have hchild := child_eq_ok_some_iff.mpr ⟨hfind, hcheck⟩
  simp [stat, resolveEntry, hroot, hparent, hname, htrail, hframe, hchild, requireFound, Except.map]

theorem stat_directory (hwalks : Walks codec d (viewRoot codec owner view .areaLive) path.segments) :
    stat codec owner view path = .ok (domainEntry codec path d.entry) := by
  by_cases hroot : path.isRoot = true
  · rw [isEmpty_iff.mp hroot] at hwalks
    cases hwalks
    simp [stat, resolveEntry, hroot, Except.map]
  · have hpath := UserPath.parent_append_name (Bool.eq_false_iff.mpr hroot)
    rw [← hpath] at hwalks
    obtain ⟨p, hp, hfind, hcheck⟩ := walks_snoc hwalks
    have hname := (Edit.find_some hfind).2
    exact stat_child hp (hname ▸ hpath.symm) (hname ▸ hfind) hcheck

theorem pageEntries_stat (tree : Tree codec) (hwalks : Walks codec d (viewRoot codec owner tree.view .areaLive)
      directory.segments)
    {found : List NamespaceEntry} (hfound : ∀ e ∈ found, Edit.find name d.children e.name = some e)
    {entries : List (Entry codec)} (h : pageEntries codec directory found = .ok entries) :
    ∀ entry ∈ entries, directory.segments <+: entry.path.segments ∧ stat codec owner tree.view entry.path =
      .ok entry := by
  induction found generalizing entries with
  | nil =>
    cases h
    simp
  | cons e rest ih =>
    obtain ⟨_, hcheck, h⟩ := bind_ok h
    obtain ⟨path, hpath, h⟩ := bind_ok h
    obtain ⟨others, hothers, h⟩ := bind_ok h
    cases h
    intro entry hentry
    rcases mem_cons.mp hentry with rfl | hentry
    · obtain ⟨trail, frame, htrail, hframe, rfl⟩ := resolveTrail_walks.mpr hwalks
      have hfind := hfound e (.head _)
      have hlookup := (lookup_snoc (lastFrame_located htrail hframe) e.name).trans hfind
      have hsegments := UserPath.join_eq_ok_iff.mp hpath
      rw [tree.normal owner _ e hlookup e.name (by simp)] at hsegments
      exact ⟨⟨[e.name], hsegments.symm⟩, stat_child hwalks hsegments hfind hcheck⟩
    · exact ih (fun e he => hfound e (.tail _ he)) hothers entry hentry

theorem World.page_stat {pageSize snapshot : Nat} {expiresAt : Time}
    (h : w.page owner directory pageSize snapshot bound expiresAt = .ok page) :
    page.current.path = directory ∧ ∀ entry ∈ page.current :: page.entries,
      directory.segments <+: entry.path.segments ∧ stat codec owner (w.stateAt owner snapshot) entry.path =
        .ok entry := by
  obtain ⟨trail, htrail, h⟩ := bind_ok h
  obtain ⟨frame, hframe, h⟩ := bind_ok h
  obtain ⟨entries, hentries, h⟩ := bind_ok h
  cases h
  have hwalks := resolveTrail_walks.mp ⟨trail, frame, htrail, hframe, rfl⟩
  refine ⟨rfl, fun entry hentry => ?_⟩
  rcases mem_cons.mp hentry with rfl | hentry
  · exact ⟨prefix_rfl, stat_directory hwalks⟩
  · refine pageEntries_stat (w.treeAt owner snapshot) hwalks (fun e he => ?_) hentries entry hentry
    exact mem_collectOrdered (mem_of_mem_take (mem_of_mem_take he))

variable {request : ListRequest codec}

theorem sharedPath_below {plain : Bool} {relative : List String} {target : Path codec}
    (h : sharedPath share plain relative = .ok target) : share.rootPath.segments <+: target.segments := by
  obtain ⟨_, _, h⟩ := bind_ok h
  obtain ⟨parsed, _, h⟩ := bind_ok h
  split_ifs at h
  · cases h
    exact prefix_rfl
  · obtain ⟨_, _, h⟩ := bind_ok h
    obtain ⟨target', _, h⟩ := bind_ok h
    obtain ⟨_, hinside, h⟩ := bind_ok h
    cases h
    have hinside := rejectIf_eq_ok_iff.mp hinside
    by_cases hroot : target = share.rootPath
    · exact hroot ▸ prefix_rfl
    · simp only [hroot, ne_eq, not_false_eq_true, decide_true, Bool.true_and, Bool.not_eq_false'] at hinside
      exact isPrefixOf_iff_prefix.mp (Bool.and_eq_true_iff.mp hinside).1

/-! ## Requests -/

variable {s : World codec}

/-- What authorizing a request tells. -/
structure Authorized (t : World codec) (opened : Opened codec (Entry codec)) : Prop where
  stored : ∃ shareID later created, t.shares opened.share.ownerUserID shareID = some (later, created) ∧
    World.SameBinding opened.share later ∧ created ≤ opened.since
  since_le : opened.since ≤ t.states opened.share.ownerUserID
  path : opened.value.path = opened.share.rootPath
  root : At opened.share.ownerUserID (t.stateAt opened.share.ownerUserID opened.since) opened.value
  version : opened.value.version = opened.share.rootVersion
  kind : opened.value.kind = opened.share.kind

variable {t : World codec} {opened : Opened codec (Entry codec)}

theorem Authorized.mono {u : World codec} (h : Authorized t opened) (hle : World.Le t u) : Authorized u opened := by
  obtain ⟨shareID, later, created, hlater, hbinding, hcreated⟩ := h.stored
  obtain ⟨latest, hlatest, hpath, hversion, hkind⟩ := hle.shares _ _ _ _ hlater
  obtain ⟨hpath', hversion', hkind'⟩ := hbinding
  have hstate := stateAt_of_le hle h.since_le
  exact ⟨⟨shareID, latest, created, hlatest, ⟨hpath'.trans hpath, hversion'.trans hversion, hkind'.trans hkind⟩,
    hcreated⟩,
    h.since_le.trans (le_states hle _), h.path, hstate ▸ h.root, h.version, h.kind⟩

theorem intact_of_at (hpath : entry.path = share.rootPath) (hat : At share.ownerUserID view entry)
    (hversion : entry.version = share.rootVersion) (hkind : entry.kind = share.kind) : share.intact view = true := by
  obtain ⟨e, he, hentry⟩ := hat
  rw [hpath] at he
  rw [hentry] at hversion hkind
  unfold Share.intact
  rw [he]
  simpa [domainEntry] using ⟨hversion, hkind⟩

theorem Authorized.intact_of_later (h : Authorized t opened) (hsteady : t.Steady) {m : Nat}
    (hn : opened.since ≤ n) (hle : n ≤ m) (hm : m ≤ t.states opened.share.ownerUserID)
    (hintact : opened.share.intact (t.stateAt opened.share.ownerUserID m) = true) :
    opened.share.intact (t.stateAt opened.share.ownerUserID n) = true := by
  obtain ⟨shareID, later, created, hlater, hbinding, hcreated⟩ := h.stored
  have howner := (hsteady _ _ _ _ hlater).1.symm
  rw [Share.intact_congr howner hbinding] at hintact ⊢
  exact hsteady.intact_of_later hlater (hcreated.trans hn) hle hm hintact

variable {token : String}

variable {root : Entry codec}

theorem partOf_of_at (hintact : share.intact view = true) (hbelow : share.rootPath.segments <+: entry.path.segments)
    (hat : At share.ownerUserID view entry) : share.partOf view (publicEntry share.rootPath entry root) = true := by
  obtain ⟨e, he, hentry⟩ := hat
  obtain ⟨rest, hrest⟩ := hbelow
  have hpath : (publicEntry share.rootPath entry root).path = rest := by
    simp [publicEntry, ← hrest]
  have hname : rest = [] ∨ (publicEntry share.rootPath entry root).name = e.entry.name := by
    by_cases hroot : entry.path = share.rootPath
    · exact .inl (by simpa [hroot] using hrest)
    · refine .inr ?_
      rw [hentry]
      simp [publicEntry, hroot, domainEntry]
  unfold Share.partOf
  rw [hintact, hpath, hrest, he, Bool.true_and, Option.any_some]
  unfold PublicEntry.shows
  rw [hpath]
  rw [hentry] at hname ⊢
  simp only [publicEntry, domainEntry] at hname ⊢
  simp only [decide_true, Bool.true_and, Bool.or_eq_true, decide_eq_true_eq]
  exact hname.imp_right decide_eq_true

variable {α : Type}

theorem Opened.during_of {opened : Opened codec α} {holds : NamespaceView → Bool} (hsince : opened.since ≤ n)
    (hupTo : n ≤ opened.upTo) (h : holds (w.stateAt opened.share.ownerUserID n) = true) :
    opened.during w holds = true :=
  any_eq_true.mpr ⟨n, mem_range.mpr (by omega), by simp [hsince, h]⟩

theorem Authorized.confined (h : Authorized t opened) (hsteady : t.Steady) (value : α) {upTo : Nat}
    (hsince : opened.since ≤ n) (hn : n ≤ upTo) (hupTo : upTo ≤ t.states opened.share.ownerUserID)
    (hintact : opened.share.intact (t.stateAt opened.share.ownerUserID upTo) = true)
    (hbelow : opened.share.rootPath.segments <+: entry.path.segments)
    (hat : At opened.share.ownerUserID (t.stateAt opened.share.ownerUserID n) entry) :
    Opened.during t { share := opened.share, since := opened.since, upTo, value }
      (opened.share.partOf · (publicEntry opened.share.rootPath entry root)) = true :=
  Opened.during_of hsince hn (partOf_of_at (h.intact_of_later hsteady hsince hn hupTo hintact) hbelow hat)

theorem Authorized.intact (h : Authorized t opened) :
    opened.share.intact (t.stateAt opened.share.ownerUserID opened.since) = true :=
  intact_of_at h.path h.root h.version h.kind

variable {relative : Relative}

variable {version : String}

namespace Stale

def versions : NamespaceCodec where
  nfc := id
  idempotent := id_eq
  contribution item := BitVec.ofInt 256 item.size
  accumulatorDigest _ _ := "digest"
  entryVersion entry := entry.name ++ String.ofList (List.replicate entry.modifiedAt '+')
  digest _ := "node"
  encodes _ := true

def pathD : Path versions := ⟨["d"], fun _ _ => rfl, by decide +kernel⟩
def pathDA : Path versions := ⟨["d", "a"], fun _ _ => rfl, by decide +kernel⟩
def pathDB : Path versions := ⟨["d", "b"], fun _ _ => rfl, by decide +kernel⟩

def makeD : NamespaceOperation versions :=
  .createDirectory { area := .areaLive, path := pathD, conflict := .conflictFail, expectedVersion := "",
                     mutationID := "m" }

def bytes : DirectoryEntry :=
  { name := "", kind := .entryFile, blobID := "blob", size := 1, md5 := "md5", crc32c := "crc32c", mediaType := "text",
    modifiedAt := 1 }

def putFile (path : Path versions) : NamespaceOperation versions :=
  .publishFile { area := .areaLive, path := path, conflict := .conflictFail, expected := "", mutationID := "m",
                 requestFingerprint := "f", entry := bytes }

def deleteB : NamespaceOperation versions := .delete false { area := .areaLive, path := pathDB, expectedVersion := "" }

/-- Directory `/d` with the files `a` and `b`. -/
def both : NamespaceView :=
  ((NamespaceView.empty.after versions "owner" 1 makeD).after versions "owner" 2 (putFile pathDA)).after
    versions "owner" 3
    (putFile pathDB)

def without : NamespaceView := both.after versions "owner" 4 deleteB

def treeOf (view : NamespaceView) : Tree versions := { view, normal := fun _ _ _ _ _ _ => rfl }

def service : Service where
  cursorTTL := 100
  downloadTTL := 10
  transferBackend := .ok fun request => .ok ("https://" ++ request.blobID)
  textPreviewMax := 0
  parseScopedCapabilityToken token := some ("owner", token)
  hash := id

/-- The share of `/d` as it is in the view. -/
def shareOf (shareID : String) (view : NamespaceView) : Share versions where
  shareID := shareID
  tokenHash := shareID
  ownerUserID := "owner"
  rootPath := pathD
  rootVersion := ((located versions "owner" view ["d"]).map fun e => e.entry.logicalVersion).getD ""
  kind := .entryDirectory

def world : World versions where
  history _ := [treeOf both]
  blobs _ _ := some "stored"
  shares _ _ := none
  accounts _ := some true
  clock := 0

abbrev Result := fun _ : Call => Except Error (Disclosed versions)

def start : Config (machine versions service) Result := { state := world, pool := [] }

def everything : Relative := { plain := true, segments := [] }

def cursor : NamespaceListCursor where
  ownerID := "owner"
  area := .areaLive
  directory := ["d"]
  sortedByName := true
  descending := false
  pageSize := 1
  snapshot := 1
  bound := "a"
  expiresAt := 100

def firstPage : List (Conc.Event (machine versions service) Call) :=
  .drift (.createShare (shareOf "first" both)) :: .spawn (.share "first" everything 1 .empty) ::
    List.replicate 6 (.step 0 false)

/-- The file that the page shows is downloaded. -/
def download : List (Conc.Event (machine versions service) Call) :=
  .spawn (.download "first" { plain := true, segments := ["a"] } "a+" false) :: List.replicate 8 (.step 1 false)

def secondPage : List (Conc.Event (machine versions service) Call) :=
  .drift (.mutate "owner" (treeOf without)) :: .drift (.createShare (shareOf "second" without)) ::
    .spawn (.share "second" everything 1 (.opened cursor)) :: List.replicate 6 (.step 1 false)

def afterFirst : Config (machine versions service) Result := start.run (Call.run versions service) firstPage

def final : Config (machine versions service) Result := afterFirst.run (Call.run versions service) secondPage

def pages (cfg : Config (machine versions service) Result) : List (Option (List String × CursorText × Bool)) :=
  cfg.pool.map fun t =>
    match t.prog.result with
    | some (.ok (.page opened)) =>
      some (opened.value.entries.map (·.name), opened.value.nextCursor, (Disclosed.page opened).confined cfg.state)
    | _ => none

end Stale

end EndlessFS.Shares
