import Mathlib.Logic.Relation
import EndlessFS.Checkpoint.Inventory

/-!
# EndlessFS.Checkpoint.Collection

The sweep of a garbage plan (`runCheckpointGarbagePlan`), page by page and resumed after any interruption, and
whether it leaves nothing behind.

* `deleteCheckpointGarbageEntries`, `SweepStep`: a page is deleted, or part of it before the process stops.
* `Swept`, `Swept.run`: what has been deleted after so many pages.
* `Unreferenced`: what the checkpoint has left out, and what lies in the directories of residue without being
  in its inventory.
* `collection_complete_iff`: all of it is deleted just if every key of it ends in `.json`, file data apart. Packs
  and segments are stored under keys that end in `.bin`.
* `inventory_kept`: nothing that the checkpoint refers to is deleted.
-/

namespace EndlessFS.Garbage

open List
open Conc (Increasing)

variable {Body : Type}

/-! ## Deleting -/

def Listing.delete (listing : Listing) (target : ObjectInfo) : Listing where
  objects := listing.objects.filter fun info => info ≠ target
  ordered := listing.ordered.filter _

def Storage.delete (s : Storage Body) (engine : Engine) (role : Role) (target : ObjectInfo) : Storage Body :=
  { s with listing := fun r => if r = engine.backend role then (s.listing r).delete target else s.listing r }

def Storage.listed (s : Storage Body) (engine : Engine) (entry : Entry) : Option ObjectInfo :=
  (s.objects engine entry.role).find? fun info => info.key = entry.key

def deleteCheckpointGarbageEntries (engine : Engine) (versions : Entry → Option ObjectInfo) (s : Storage Body)
    (entries : List Entry) : Storage Body :=
  entries.foldl (fun s entry => (versions entry).elim s fun info => s.delete engine entry.role info) s

/-! ## The sweep -/

section

variable (codec : PlanCodec Body) (frozen : Frozen) (engine : Engine) (plan : Plan) (planned : Storage Body)

abbrev SweepState (Body : Type) := Storage Body × Nat

/-- A worker sweeps the next page with the versions listed when the plan was made, or listed anew; it stops
after any part of the page, or records the page as done. -/
inductive SweepStep : SweepState Body → SweepState Body → Prop where
  | page {s : Storage Body} {index : Nat} {entries : List Entry} (more : index < plan.pageCount)
      (read : checkpointGarbagePlanEntries codec frozen s.pages plan index = .ok entries)
      {versions : Entry → Option ObjectInfo} (listed : versions = planned.listed engine ∨ versions = s.listed engine) :
      SweepStep (s, index) (deleteCheckpointGarbageEntries engine versions s entries, index + 1)
  | stopped {s : Storage Body} {index : Nat} {entries some : List Entry} (more : index < plan.pageCount)
      (read : checkpointGarbagePlanEntries codec frozen s.pages plan index = .ok entries) (part : some.Sublist entries)
      {versions : Entry → Option ObjectInfo} (listed : versions = planned.listed engine ∨ versions = s.listed engine) :
      SweepStep (s, index) (deleteCheckpointGarbageEntries engine versions s some, index)

abbrev Sweep : SweepState Body → SweepState Body → Prop :=
  Relation.ReflTransGen (SweepStep codec frozen engine plan planned)

end

/-! ## What deletes do -/

section

variable {engine : Engine} {s planned : Storage Body} {versions : Entry → Option ObjectInfo}

theorem mem_delete {role r : Role} {target info : ObjectInfo} :
    info ∈ ((s.delete engine role target).listing r).objects ↔
      info ∈ (s.listing r).objects ∧ ¬(r = engine.backend role ∧ info = target) := by
  unfold Storage.delete
  by_cases hr : r = engine.backend role
  · simp [hr, Listing.delete]
  · simp [hr]

def Entry.Names (engine : Engine) (entry : Entry) (r : Role) (info : ObjectInfo) : Prop :=
  r = engine.backend entry.role ∧ info.key = entry.key

def Remains (planned s : Storage Body) : Prop := ∀ r, ∀ info ∈ (s.listing r).objects, info ∈ (planned.listing r).objects

theorem eq_of_key {listing : Listing} {a b : ObjectInfo} (ha : a ∈ listing.objects) (hb : b ∈ listing.objects)
    (hkey : a.key = b.key) : a = b :=
  listing.ordered.eq_of_measure_eq ha hb (congrArg Key.text hkey)

def Lists (engine : Engine) (versions : Entry → Option ObjectInfo) (s : Storage Body) : Prop :=
  (∀ e info, info ∈ s.objects engine e.role → info.key = e.key → versions e = some info) ∧
    ∀ e info, versions e = some info → info.key = e.key

theorem lists_listed (hremains : Remains planned s) : Lists engine (planned.listed engine) s := by
  refine ⟨fun e info hmem hkey => ?_, fun e info h => by simpa using find?_some h⟩
  have hplanned := hremains _ info hmem
  cases hfound : planned.listed engine e with
  | none =>
    have hnone := find?_eq_none.mp hfound info hplanned
    simp [hkey] at hnone
  | some found =>
    have hfoundKey : found.key = e.key := by simpa using find?_some hfound
    rw [eq_of_key (mem_of_find?_eq_some hfound) hplanned (hfoundKey.trans hkey.symm)]

theorem Remains.refl (s : Storage Body) : Remains s s := fun _ _ h => h

theorem mem_deleteEntries {entries : List Entry} (h : Lists engine versions s) {r : Role} {info : ObjectInfo} :
    info ∈ ((deleteCheckpointGarbageEntries engine versions s entries).listing r).objects ↔
      info ∈ (s.listing r).objects ∧ ∀ e ∈ entries, ¬e.Names engine r info := by
  induction entries generalizing s with
  | nil => simp [deleteCheckpointGarbageEntries]
  | cons e rest ih =>
    unfold deleteCheckpointGarbageEntries
    rw [foldl_cons]
    cases hversion : versions e with
    | none =>
      simp only [Option.elim_none]
      rw [← deleteCheckpointGarbageEntries, ih h]
      refine and_congr_right fun hmem => ?_
      rw [forall_mem_cons]
      refine ⟨fun hrest => ⟨?_, hrest⟩, fun hall => hall.2⟩
      rintro ⟨rfl, hkey⟩
      rw [h.1 e info hmem hkey] at hversion
      cases hversion
    | some target =>
      simp only [Option.elim_some]
      have hlists : Lists engine versions (s.delete engine e.role target) :=
        ⟨fun e' info' hmem' => h.1 e' info' (mem_delete.mp hmem').1, h.2⟩
      rw [← deleteCheckpointGarbageEntries, ih hlists, mem_delete, forall_mem_cons, and_assoc]
      refine and_congr_right fun hmem => and_congr_left fun _ => not_congr ⟨?_, ?_⟩
      · rintro ⟨rfl, rfl⟩
        exact ⟨rfl, h.2 e info hversion⟩
      · rintro ⟨rfl, hkey⟩
        rw [h.1 e info hmem hkey] at hversion
        cases hversion
        exact ⟨rfl, rfl⟩

@[simp] theorem deleteEntries_pages {entries : List Entry} :
    (deleteCheckpointGarbageEntries engine versions s entries).pages = s.pages := by
  induction entries generalizing s with
  | nil => rfl
  | cons e rest ih =>
    unfold deleteCheckpointGarbageEntries at ih ⊢
    rw [foldl_cons, ih]
    cases versions e <;> rfl

end

/-! ## Whole sweeps -/

section

variable {codec : PlanCodec Body} {frozen : Frozen} {engine : Engine} {stored : Nat → Option Body}
  {entries : List Entry} {b : Builder Body} {planned : Storage Body}

/-- After so many pages: their entries are gone, and nothing but garbage is. -/
structure Swept (engine : Engine) (entries : List Entry) (planned : Storage Body) (state : SweepState Body) : Prop where
  pages : state.1.pages = planned.pages
  remains : Remains planned state.1
  kept : ∀ r, ∀ info ∈ (planned.listing r).objects, (∀ e ∈ entries, ¬e.Names engine r info) →
    info ∈ (state.1.listing r).objects
  gone : ∀ i < state.2, ∀ e ∈ slice entries i, ∀ r, ∀ info ∈ (state.1.listing r).objects, ¬e.Names engine r info

theorem Swept.start (engine : Engine) (entries : List Entry) (planned : Storage Body) :
    Swept engine entries planned (planned, 0) :=
  ⟨rfl, .refl planned, fun _ _ h _ => h, fun _ h => nomatch h⟩

theorem Swept.delete {s : Storage Body} {index : Nat} (h : Swept engine entries planned (s, index))
    {versions : Entry → Option ObjectInfo} (hlisted : versions = planned.listed engine ∨ versions = s.listed engine)
    {part : List Entry} (hpart : ∀ e ∈ part, e ∈ entries) :
    Swept engine entries planned (deleteCheckpointGarbageEntries engine versions s part, index) ∧
      ∀ e ∈ part, ∀ r, ∀ info ∈ ((deleteCheckpointGarbageEntries engine versions s part).listing r).objects,
        ¬e.Names engine r info := by
  have hlists : Lists engine versions s := by
    rcases hlisted with rfl | rfl
    · exact lists_listed h.remains
    · exact lists_listed (.refl s)
  refine ⟨⟨deleteEntries_pages.trans h.pages, fun r info hinfo => ?_, fun r info hinfo hnone => ?_,
    fun i hi e he r info hinfo => ?_⟩,
    fun e he r info hinfo => ((mem_deleteEntries hlists).mp hinfo).2 e he⟩
  · exact h.remains r info ((mem_deleteEntries hlists).mp hinfo).1
  · exact (mem_deleteEntries hlists).mpr ⟨h.kept r info hinfo hnone, fun e he => hnone e (hpart e he)⟩
  · exact h.gone i hi e he r info ((mem_deleteEntries hlists).mp hinfo).1

section

variable (hfinished : b.Finished codec frozen stored entries)

include hfinished

section

variable (hpages : planned.pages = b.pages)

include hpages

theorem Swept.step {x y : SweepState Body} (h : Swept engine entries planned x)
    (hstep : SweepStep codec frozen engine (b.plan codec frozen) planned x y) : Swept engine entries planned y := by
  have hread : ∀ {s : Storage Body} {index : Nat} {read : List Entry}, Swept engine entries planned (s, index) →
      index < (b.plan codec frozen).pageCount →
      checkpointGarbagePlanEntries codec frozen s.pages (b.plan codec frozen) index = .ok read →
        read = slice entries index := by
    intro s index read hs hmore hread
    rw [show s.pages = b.pages from hs.pages.trans hpages, hfinished.planEntries hmore] at hread
    cases hread
    rfl
  have hslice : ∀ index, ∀ e ∈ slice entries index, e ∈ entries :=
    fun _ _ he => mem_of_mem_drop (mem_of_mem_take he)
  cases hstep with
  | page more read listed =>
    obtain rfl := hread h more read
    obtain ⟨hdeleted, hgone⟩ := h.delete listed (hslice _)
    refine ⟨hdeleted.pages, hdeleted.remains, hdeleted.kept, fun i hi => ?_⟩
    rcases Nat.lt_succ_iff_lt_or_eq.mp hi with hi | rfl
    · exact hdeleted.gone i hi
    · exact hgone
  | stopped more read part listed =>
    obtain rfl := hread h more read
    exact (h.delete listed fun e he => hslice _ e (part.subset he)).1

theorem Swept.run {x : SweepState Body} (h : Sweep codec frozen engine (b.plan codec frozen) planned (planned, 0) x) :
    Swept engine entries planned x := by
  induction h with
  | refl => exact .start engine entries planned
  | tail _ hstep ih => exact ih.step hfinished hpages hstep

theorem mem_swept_iff {t : Storage Body}
    (h : Sweep codec frozen engine (b.plan codec frozen) planned (planned, 0) (t, (b.plan codec frozen).pageCount))
    {r : Role} {info : ObjectInfo} :
    info ∈ (t.listing r).objects ↔ info ∈ (planned.listing r).objects ∧ ∀ e ∈ entries, ¬e.Names engine r info := by
  have hswept := Swept.run hfinished hpages h
  refine ⟨fun hinfo => ⟨hswept.remains r info hinfo, fun e he => ?_⟩, fun hinfo => hswept.kept r info hinfo.1 hinfo.2⟩
  obtain ⟨j, hj⟩ := mem_iff_getElem?.mp he
  have hsize : 0 < pageSize := by decide
  have hpage : j / pageSize < b.pageCount := by
    refine Nat.div_lt_of_lt_mul ?_
    have := (List.getElem?_eq_some_iff.mp hj).1
    have := hfinished.covers
    omega
  have hmem : e ∈ slice entries (j / pageSize) := by
    refine mem_of_getElem? (i := j % pageSize) ?_
    rw [getElem?_slice (Nat.mod_lt j hsize), Nat.div_add_mod]
    exact hj
  exact hswept.gone (j / pageSize) hpage e hmem r info hinfo

end

end

theorem exists_sweep (engine : Engine) (planned : Storage Body) (hfinished : b.Finished codec frozen stored entries)
    (hpages : planned.pages = b.pages) :
    ∃ t, Sweep codec frozen engine (b.plan codec frozen) planned (planned, 0) (t, (b.plan codec frozen).pageCount) := by
  have hreach : ∀ n, n ≤ b.pageCount → ∃ t, Sweep codec frozen engine (b.plan codec frozen) planned (planned, 0)
      (t, n) := by
    intro n hn
    induction n with
    | zero => exact ⟨planned, .refl⟩
    | succ n ih =>
      obtain ⟨t, ht⟩ := ih (by omega)
      have hread : checkpointGarbagePlanEntries codec frozen t.pages (b.plan codec frozen) n =
          .ok (slice entries n) := by
        rw [show t.pages = b.pages from (Swept.run hfinished hpages ht).pages.trans hpages, hfinished.planEntries hn]
      exact ⟨_, ht.tail (.page hn hread (.inl rfl))⟩
  exact hreach b.pageCount (Nat.le_refl _)

theorem exists_collection [DecidableEq Body] {s : Storage Body} {reachable : List Entry}
    (hcheckpoint : frozen.checkpointID ≠ "") (hinventory : frozen.inventoryDigest ≠ "") (hplan : s.plan = none)
    (hfresh : ∀ i, s.pages i = none)
    (hbound : (garbageEntries engine reachable s).length ≤ maxUint64) : ∃ planned versions plan t,
      prepareCheckpointGarbagePlan codec frozen engine reachable s = .ok (planned, versions) ∧
        planned.plan = some (codec.encodePlan plan) ∧
          Sweep codec frozen engine plan planned (planned, 0) (t, plan.pageCount) := by
  have hexists : ∃ planned versions, prepareCheckpointGarbagePlan codec frozen engine reachable s =
      .ok (planned, versions) :=
    (exists_prepare_iff hplan hcheckpoint hinventory).mpr
      ⟨hbound, fun i _ _ body hbody => by rw [hfresh i] at hbody; cases hbody⟩
  obtain ⟨planned, versions, hprepared⟩ := hexists
  obtain ⟨b, hfinished, _, hplanned⟩ := prepare_ok hplan hprepared
  obtain ⟨t, ht⟩ := exists_sweep engine planned hfinished (by rw [hplanned])
  exact ⟨planned, versions, b.plan codec frozen, t, hprepared, by rw [hplanned], ht⟩

end

/-! ## What is left behind -/

/-- What a checkpoint does not refer to: the authority it has left out, and whatever is in the directories of
residue and not in its inventory. -/
inductive Unreferenced (engine : Engine) (s : Storage Body) (c : Classified) : Role → ObjectInfo → Prop where
  | leftOut {m : Metadata} (collectable : m ∈ c.collectable) : Unreferenced engine s c (roleOf m.2) m.1
  | residue {info : ObjectInfo} (stored : info ∈ s.objects engine .state) (directory : info.key.inSweptDirectory = true)
      (unlisted : (⟨.state, info.key⟩ : Entry) ∉ c.inventory.map Metadata.entry) : Unreferenced engine s c .state info

theorem not_isFileDataKey_of_sweptDirectory {key : Key} (h : key.inSweptDirectory = true) :
    isFileDataKey key = false := by
  unfold isFileDataKey
  split
  · rename_i a b c user blobs blob hsegments
    by_contra hfile
    simp only [Bool.not_eq_false, Bool.and_eq_true, decide_eq_true_eq] at hfile
    obtain ⟨⟨⟨⟨⟨_, _⟩, rfl⟩, _⟩, _⟩, _⟩ := hfile
    simp [Key.inSweptDirectory, Key.under, hsegments, transitionDirectory, projectionDirectory, leaseDirectory] at h
  · rfl

theorem stateEligible_domainHeadKey {digestPart : String → String} {kind : DomainKind} {domainID : String}
    (h : digestPart domainID ≠ "") : stateEligible (domainHeadKey digestPart kind domainID) = true := by
  have hdomain : checkpointDomainGarbageEligible (domainHeadKey digestPart kind domainID) = true := by
    cases kind <;>
      simp [checkpointDomainGarbageEligible, domainHeadKey, fixedKey, Key.under, stateQuerySnapshotDirectory, inDomains,
        domainKindTexts, DomainKind.text, h]
  rw [stateEligible, hdomain]
  rfl

section

variable {engine : Engine} {heads : Heads} {keys : List Key} {metadata : List Metadata} {c : Classified}
  {s : Storage Body}

theorem eligible_of_leaveOut {m : Metadata} (h : leaveOut heads m = .ok ()) (hfile : m.2 = isFileDataKey m.1.key)
    (hjson : m.2 = true ∨ m.1.key.endsIn ".json" = true) : eligible (roleOf m.2) m.1.key = true := by
  obtain ⟨collectable, hcollectable, hreject⟩ := Except.bind_ok h
  obtain rfl : collectable = true := by simpa using rejectIf_eq_ok_iff.mp hreject
  cases hdata : m.2 with
  | true => exact (hfile.symm.trans hdata : isFileDataKey m.1.key = true)
  | false =>
    have hjson : m.1.key.endsIn ".json" = true := hjson.resolve_left (by simp [hdata])
    unfold collectableMetadata at hcollectable
    split at hcollectable
    · rename_i hkey
      exact stateEligible_of_collectable (by simpa [hdata] using hkey) hjson
    · split at hcollectable
      · rename_i a b d kind id last hsegments
        split at hcollectable
        · rename_i hhead
          obtain ⟨head, _, hinert⟩ := Except.map_eq_ok_iff.mp hcollectable
          simp only [Heads.inert, Bool.and_eq_true, decide_eq_true_eq] at hinert
          rw [← hinert.2]
          refine stateEligible_domainHeadKey fun hempty => ?_
          have hid : id = heads.digestPart head.domainID := by
            have := congrArg Key.segments hinert.2
            rw [hsegments] at this
            simp [domainHeadKey, fixedKey] at this
            exact this.2.2.2.2.1.symm
          simp [hid, hempty] at hhead
        · cases hcollectable
      · cases hcollectable

theorem Unreferenced.stored (hmetadata : checkpointMetadata engine s = .ok metadata)
    (hclassify : classify heads keys metadata = .ok c)
    {role : Role} {info : ObjectInfo} (h : Unreferenced engine s c role info) :
    info ∈ s.objects engine role ∧ (⟨role, info.key⟩ : Entry) ∉ c.inventory.map Metadata.entry ∧
      (role = .state → isFileDataKey info.key = false) ∧
      (role = .files ∨ info.key.endsIn ".json" = true → eligible role info.key = true) := by
  obtain ⟨hnodup, hall⟩ := checkpointMetadata_ok hmetadata
  obtain ⟨hperm, hleft⟩ := classify_perm hclassify
  cases h with
  | leftOut hm =>
    rename_i m
    obtain ⟨hmem, hfile, _⟩ := hall m (hperm.mem_iff.mp (mem_append_right _ hm))
    refine ⟨hmem, classify_disjoint hclassify hnodup hm, fun hrole => ?_, fun hjson => ?_⟩
    · cases hdata : m.2 with
      | true => simp [roleOf, hdata] at hrole
      | false => rw [← hfile, hdata]
    · refine eligible_of_leaveOut (hleft m hm) hfile (hjson.imp_left fun hrole => ?_)
      cases hdata : m.2 with
      | true => rfl
      | false => simp [roleOf, hdata] at hrole
  | residue stored directory unlisted =>
    refine ⟨stored, unlisted, fun _ => not_isFileDataKey_of_sweptDirectory directory, fun hjson => ?_⟩
    exact stateEligible_of_sweptDirectory directory (hjson.resolve_left fun h => nomatch h)

variable [DecidableEq Body] {codec : PlanCodec Body} {frozen : Frozen} {planned t : Storage Body}
  {versions : Option (List (String × ObjectInfo))} {plan : Plan}

/-- A plan that has been swept to its end has deleted everything that its checkpoint does not refer to, just if
every such object is file data or has a key that ends in `.json`. The next plan is empty in any case. -/
theorem collection_complete_iff (hmetadata : checkpointMetadata engine s = .ok metadata)
    (hclassify : classify heads keys metadata = .ok c) (hplan : s.plan = none)
    (hprepared : prepareCheckpointGarbagePlan codec frozen engine (c.inventory.map Metadata.entry) s =
      .ok (planned, versions))
    (hstored : planned.plan = some (codec.encodePlan plan))
    (hswept : Sweep codec frozen engine plan planned (planned, 0) (t, plan.pageCount)) :
    ((∀ role info, Unreferenced engine s c role info → info ∉ t.objects engine role) ∧
        garbage engine (c.inventory.map Metadata.entry) t = []) ↔
      ∀ role info, Unreferenced engine s c role info → role = .files ∨ info.key.endsIn ".json" = true := by
  obtain ⟨b, hfinished, _, rfl⟩ := prepare_ok hplan hprepared
  obtain rfl : b.plan codec frozen = plan := by
    have hencoded := congrArg (Option.map codec.decodePlan) hstored
    simpa [codec.decode_encodePlan] using hencoded
  have hmem : ∀ r info, info ∈ (t.listing r).objects ↔ info ∈ (s.listing r).objects ∧
      ∀ e ∈ garbageEntries engine (c.inventory.map Metadata.entry) s, ¬e.Names engine r info :=
    fun _ _ => mem_swept_iff hfinished rfl hswept
  have hempty : garbage engine (c.inventory.map Metadata.entry) t = [] := by
    rw [← List.map_eq_nil_iff (f := Prod.fst), List.eq_nil_iff_forall_not_mem]
    intro e he
    obtain ⟨⟨info, hinfo, hkey⟩, heligible, hunlisted⟩ := mem_garbageEntries.mp he
    obtain ⟨hstored, hnone⟩ := (hmem _ info).mp hinfo
    exact hnone e (mem_garbageEntries.mpr ⟨⟨info, hstored, hkey⟩, heligible, hunlisted⟩) ⟨rfl, hkey⟩
  constructor
  · rintro ⟨hgone, _⟩ role info hinfo
    by_contra hcondition
    rw [not_or] at hcondition
    obtain ⟨hnotFile, hnotJSON⟩ := hcondition
    obtain ⟨hobject, _, hdata, _⟩ := hinfo.stored hmetadata hclassify
    refine hgone role info hinfo ((hmem _ info).mpr ⟨hobject, fun e he hnames => ?_⟩)
    obtain ⟨_, heligible, _⟩ := mem_garbageEntries.mp he
    rw [← hnames.2] at heligible
    cases hrole : e.role with
    | state =>
      rw [hrole] at heligible
      exact hnotJSON (endsIn_of_stateEligible heligible)
    | files =>
      rw [hrole] at heligible
      have hstate : role = .state := by
        cases role with
        | state => rfl
        | files => exact absurd rfl hnotFile
      have hfile : isFileDataKey info.key = true := heligible
      rw [hdata hstate] at hfile
      cases hfile
  · refine fun hcondition => ⟨fun role info hinfo hremains => ?_, hempty⟩
    obtain ⟨hobject, hunlisted, _, heligible⟩ := hinfo.stored hmetadata hclassify
    refine ((hmem _ info).mp hremains).2 ⟨role, info.key⟩ (mem_garbageEntries.mpr ?_) ⟨rfl, rfl⟩
    exact ⟨⟨info, hobject, rfl⟩, heligible (hcondition role info hinfo), hunlisted⟩

theorem not_isFileDataKey_of_stateEligible {key : Key} (h : stateEligible key = true) : isFileDataKey key = false := by
  unfold isFileDataKey
  split
  · rename_i a b c user blobs blob hsegments
    by_cases hfs : c = "fs"
    · simp [stateEligible, checkpointDomainGarbageEligible, Key.under, hsegments, hfs, inDomains,
        stateQuerySnapshotDirectory, transitionDirectory, projectionDirectory, leaseDirectory] at h
    · simp [hfs]
  · rfl

/-- At every moment of a sweep, every object of the inventory is still stored. -/
theorem inventory_kept (hmetadata : checkpointMetadata engine s = .ok metadata)
    (hclassify : classify heads keys metadata = .ok c) (hplan : s.plan = none)
    (hprepared : prepareCheckpointGarbagePlan codec frozen engine (c.inventory.map Metadata.entry) s =
      .ok (planned, versions))
    (hstored : planned.plan = some (codec.encodePlan plan)) {x : SweepState Body}
    (hsweep : Sweep codec frozen engine plan planned (planned, 0) x) {m : Metadata} (hm : m ∈ c.inventory) :
    m.1 ∈ x.1.objects engine (roleOf m.2) := by
  obtain ⟨b, hfinished, _, rfl⟩ := prepare_ok hplan hprepared
  obtain rfl : b.plan codec frozen = plan := by
    have hencoded := congrArg (Option.map codec.decodePlan) hstored
    simpa [codec.decode_encodePlan] using hencoded
  obtain ⟨hobject, hfile, _⟩ := (checkpointMetadata_ok hmetadata).2 m ((classify_perm hclassify).1.mem_iff.mp
    (mem_append_left _ hm))
  refine (Swept.run hfinished rfl hsweep).kept _ _ hobject fun e he hnames => ?_
  obtain ⟨_, heligible, hunlisted⟩ := mem_garbageEntries.mp he
  obtain ⟨role, key⟩ := e
  obtain rfl : m.1.key = key := hnames.2
  -- with one backend for both roles an entry of the other role could name the object too
  have hrole : role = roleOf m.2 := by
    cases role with
    | state => rw [hfile, not_isFileDataKey_of_stateEligible heligible]; rfl
    | files => rw [hfile, show isFileDataKey m.1.key = true from heligible]; rfl
  exact hunlisted (hrole ▸ mem_map_of_mem hm)

end

namespace Collection

def frozen : Frozen := { checkpointID := "checkpoint", gateEpoch := 1, inventoryDigest := "inventory" }
def engine : Engine := { separateFileBackend := false }

def heads : Heads where
  read _ := .error (newError .notFound "object does not exist")
  encodesHead _ := true
  digestPart part := part

def reachableKeys : List Key :=
  [writeGateKey, writerSetKey, domainCatalogHeadKey, domainHeadKey id .domainNamespace "owner",
    domainPagePackKey id .domainNamespace "owner" "live", superblockKey]

def lostPack : ObjectInfo := ⟨domainPagePackKey id .domainNamespace "owner" "lost", 0⟩
def lostPage : ObjectInfo := ⟨domainPageKey id .domainNamespace "owner" "lost", 0⟩

def objectsWith (lost : ObjectInfo) : List ObjectInfo :=
  [⟨writeGateKey, 0⟩, ⟨writerSetKey, 0⟩, ⟨domainCatalogHeadKey, 0⟩, ⟨domainHeadKey id .domainNamespace "owner", 0⟩,
    ⟨domainPagePackKey id .domainNamespace "owner" "live", 0⟩, lost, ⟨superblockKey, 0⟩]

theorem ordered_lostPack : Increasing (fun info : ObjectInfo => info.key.text) (objectsWith lostPack) := by
  unfold Increasing
  decide +kernel

theorem ordered_lostPage : Increasing (fun info : ObjectInfo => info.key.text) (objectsWith lostPage) := by
  unfold Increasing
  decide +kernel

def stored (lost : ObjectInfo) (ordered : Increasing (fun info : ObjectInfo => info.key.text) (objectsWith lost)) :
    Storage (PlanPage ⊕ Plan) where
  listing _ := { objects := objectsWith lost, ordered }

def classified (lost : ObjectInfo) : Classified where
  inventory := reachableKeys.map fun key => (⟨key, 0⟩, false)
  collectable := [(lost, false)]

def metadata (lost : ObjectInfo) : List Metadata := (objectsWith lost).map fun info => (info, false)

theorem metadata_lostPack : checkpointMetadata engine (stored lostPack ordered_lostPack) = .ok (metadata lostPack) := by
  decide +kernel

theorem metadata_lostPage : checkpointMetadata engine (stored lostPage ordered_lostPage) = .ok (metadata lostPage) := by
  decide +kernel

/-- The page that no tree refers to is deleted. -/
theorem page_deleted : ∃ t : Storage (PlanPage ⊕ Plan), lostPage ∉ t.objects engine .state ∧
    garbage engine ((classified lostPage).inventory.map Metadata.entry) t = [] := by
  have hexists : ∃ planned versions plan t,
      prepareCheckpointGarbagePlan PlanCodec.plain frozen engine ((classified lostPage).inventory.map Metadata.entry)
          (stored lostPage ordered_lostPage) = .ok (planned, versions) ∧
        planned.plan = some (PlanCodec.plain.encodePlan plan) ∧
        Sweep PlanCodec.plain frozen engine plan planned (planned, 0) (t, plan.pageCount) :=
    exists_collection (by decide) (by decide) rfl (fun _ => rfl) (by decide +kernel)
  obtain ⟨planned, versions, plan, t, hprepared, hstored, hswept⟩ := hexists
  have hclassify : classify heads reachableKeys (metadata lostPage) = .ok (classified lostPage) := rfl
  have hcomplete := (collection_complete_iff metadata_lostPage hclassify rfl hprepared hstored hswept).mpr
    fun role info hinfo => by
      cases hinfo with
      | leftOut hm =>
        obtain rfl := List.mem_singleton.mp hm
        exact .inr (by decide +kernel)
      | residue hstored hdirectory _ =>
        have hnone : ∀ info ∈ objectsWith lostPage, info.key.inSweptDirectory = false := by decide +kernel
        rw [hnone info hstored] at hdirectory
        cases hdirectory
  exact ⟨t, hcomplete.1 .state lostPage (.leftOut (m := (lostPage, false)) (.head _)), hcomplete.2⟩

/-- The sweep that deletes the lost page leaves the six objects of the inventory. -/
theorem reachable_kept : ∃ planned plan t, Sweep PlanCodec.plain frozen engine plan planned (planned, 0)
    (t, plan.pageCount) ∧
    ∀ m ∈ (classified lostPage).inventory, m.1 ∈ t.objects engine (roleOf m.2) := by
  obtain ⟨planned, versions, plan, t, hprepared, hstored, hswept⟩ :=
    @exists_collection _ PlanCodec.plain frozen engine _ (stored lostPage ordered_lostPage)
      ((classified lostPage).inventory.map Metadata.entry) (by decide) (by decide) rfl (fun _ => rfl)
        (by decide +kernel)
  have hclassify : classify heads reachableKeys (metadata lostPage) = .ok (classified lostPage) := rfl
  exact ⟨planned, plan, t, hswept, fun _ => inventory_kept metadata_lostPage hclassify rfl hprepared hstored hswept⟩

/-- The pack of the lost publication is left out of the checkpoint, and still stored when the sweep is complete. -/
theorem pack_left_behind : ∃ planned versions plan t,
    prepareCheckpointGarbagePlan PlanCodec.plain frozen engine ((classified lostPack).inventory.map Metadata.entry)
        (stored lostPack ordered_lostPack) = .ok (planned, versions) ∧
        planned.plan = some (PlanCodec.plain.encodePlan plan) ∧
      Sweep PlanCodec.plain frozen engine plan planned (planned, 0) (t, plan.pageCount) ∧
      checkpointMetadata engine (stored lostPack ordered_lostPack) = .ok (metadata lostPack) ∧
      classify heads reachableKeys (metadata lostPack) = .ok (classified lostPack) ∧
      Unreferenced engine (stored lostPack ordered_lostPack) (classified lostPack) .state lostPack ∧
      lostPack ∈ t.objects engine .state := by
  have hexists : ∃ planned versions,
      prepareCheckpointGarbagePlan PlanCodec.plain frozen engine ((classified lostPack).inventory.map Metadata.entry)
        (stored lostPack ordered_lostPack) = .ok (planned, versions) :=
    (exists_prepare_iff rfl (by decide) (by decide)).mpr ⟨by decide +kernel, fun _ _ _ _ hbody => nomatch hbody⟩
  obtain ⟨planned, versions, hprepared⟩ := hexists
  obtain ⟨b, hfinished, _, hplanned⟩ := prepare_ok rfl hprepared
  have hpages : planned.pages = b.pages := by rw [hplanned]
  obtain ⟨t, hswept⟩ := exists_sweep engine planned hfinished hpages
  refine ⟨planned, versions, b.plan PlanCodec.plain frozen, t, hprepared, by rw [hplanned], hswept,
    metadata_lostPack, rfl, .leftOut (m := (lostPack, false)) (.head _),
    (mem_swept_iff hfinished hpages hswept).mpr ⟨?_, ?_⟩⟩
  · have hlisting : planned.listing = (stored lostPack ordered_lostPack).listing := by rw [hplanned]
    rw [hlisting]
    decide +kernel
  have hnone : garbageEntries engine ((classified lostPack).inventory.map Metadata.entry)
      (stored lostPack ordered_lostPack) = [] := by
    decide +kernel
  exact fun _ he => nomatch he

end Collection

end EndlessFS.Garbage
