import Mathlib.Logic.Function.Basic
import EndlessFS.Checkpoint.Keys
import EndlessFS.Lib.Increasing
import EndlessFS.Lib.Result

/-!
# EndlessFS.Checkpoint.GarbagePlan

The garbage plan of a checkpoint (`checkpoint_gc_plan009.go`): which objects are to be deleted, in pages of 128
entries of which the first is part of the plan itself.

* `garbage`: the eligible objects of both backends that the checkpoint does not list.
* `Builder.add`, `Builder.flushPage`: pages are stored as they fill up, each only if there is none under its
  number or the same one.
* `prepareCheckpointGarbagePlan`, `validateCheckpointGarbagePlan`.
* `Builder.Progress`: what a builder has done after some entries; `exists_prepare_iff`: when a plan is made.
-/

namespace EndlessFS.Garbage

open Except Function List
open Conc (Increasing)

/-! ## Objects -/

inductive Role where
  | state
  | files
  deriving DecidableEq, Repr

def Role.order : Role → String
  | .state => "0"
  | .files => "1"

structure ObjectInfo where
  key : Key
  version : Nat
  deriving DecidableEq, Repr

structure Listing where
  objects : List ObjectInfo
  ordered : Increasing (fun info => info.key.text) objects

/-- `GarbageCollectionEntry`. -/
structure Entry where
  role : Role
  key : Key
  deriving DecidableEq, Repr

/-- The objects of both backends, and the plan of the checkpoint at hand: its pages by number, and its root.
They are kept apart from the listing, since no classifier accepts their keys. -/
structure Storage (Body : Type) where
  listing : Role → Listing
  pages : Nat → Option Body := fun _ => none
  plan : Option Body := none

structure Engine where
  separateFileBackend : Bool

def Engine.backend (engine : Engine) (role : Role) : Role := if engine.separateFileBackend then role else .state

variable {Body : Type}

def Storage.objects (s : Storage Body) (engine : Engine) (role : Role) : List ObjectInfo :=
  (s.listing (engine.backend role)).objects

structure Frozen where
  checkpointID : String
  gateEpoch : Nat
  inventoryDigest : String
  deriving DecidableEq, Repr

/-- `GarbageCollectionPlanPage`. -/
structure PlanPage where
  schemaVersion : Nat := 1
  frozen : Frozen
  index : Nat
  entries : List Entry
  deriving DecidableEq, Repr

/-- `GarbageCollectionPlan`. -/
structure Plan where
  schemaVersion : Nat := 1
  frozen : Frozen
  pageCount : Nat
  entryCount : Nat
  entriesDigest : String
  entries : List Entry
  deriving DecidableEq, Repr

/-- Envelopes of plans and pages, and the digest of a list of entries. -/
structure PlanCodec (Body : Type) where
  encodePage : PlanPage → Body
  decodePage : Body → Except Error PlanPage
  encodePlan : Plan → Body
  decodePlan : Body → Except Error Plan
  entriesDigest : List Entry → String
  decode_encodePage : ∀ page, decodePage (encodePage page) = .ok page
  decode_encodePlan : ∀ plan, decodePlan (encodePlan plan) = .ok plan
  entriesDigest_ne : ∀ entries, entriesDigest entries ≠ ""

def PlanCodec.plain : PlanCodec (PlanPage ⊕ Plan) where
  encodePage := .inl
  decodePage
    | .inl page => .ok page
    | .inr _ => .error (newError .invalid "invalid envelope")
  encodePlan := .inr
  decodePlan
    | .inl _ => .error (newError .invalid "invalid envelope")
    | .inr plan => .ok plan
  entriesDigest _ := "digest"
  decode_encodePage _ := rfl
  decode_encodePlan _ := rfl
  entriesDigest_ne _ := by decide

/-- `checkpointGarbagePlanPageEntries`. -/
def pageSize : Nat := 128

/-! ## Discovery -/

def eligible : Role → Key → Bool
  | .state => stateEligible
  | .files => checkpointBlobGarbageEligible

/-- `collect` on one backend; `reachable` is what the inventory lists. -/
def collect (engine : Engine) (reachable : List Entry) (s : Storage Body) (role : Role) : List (Entry × ObjectInfo) :=
  ((s.objects engine role).filter fun info => eligible role info.key &&
    decide ((⟨role, info.key⟩ : Entry) ∉ reachable)).map
    fun info => (⟨role, info.key⟩, info)

def garbage (engine : Engine) (reachable : List Entry) (s : Storage Body) : List (Entry × ObjectInfo) :=
  collect engine reachable s .state ++ collect engine reachable s .files

def checkpointGarbageEntryIdentity (entry : Entry) : String := entry.role.order ++ "\x00" ++ entry.key.text

def validateCheckpointGarbageEntry (entry : Entry) : Except Error Unit :=
  match entry.role with
  | .state => rejectIf (!stateEligible entry.key)
      (newError .invalid "checkpoint garbage plan contains an ineligible state object")
  | .files => rejectIf (!checkpointBlobGarbageEligible entry.key)
      (newError .invalid "checkpoint garbage plan contains an ineligible file object")

def notOrdered : Error := newError .preconditionFailed "checkpoint garbage plan is not ordered"

/-! ## The builder -/

/-- `checkpointGarbagePlanBuilder`; `digested` is what its digest was fed, `pages` the stored pages. -/
structure Builder (Body : Type) where
  rootEntries : List Entry
  pageEntries : List Entry
  pageCount : Nat
  entryCount : Nat
  previous : String
  digested : List Entry
  versions : Option (List (String × ObjectInfo))
  pages : Nat → Option Body

def Builder.start (pages : Nat → Option Body) : Builder Body where
  rootEntries := []
  pageEntries := []
  pageCount := 1
  entryCount := 0
  previous := ""
  digested := []
  versions := some []
  pages := pages

section

variable [DecidableEq Body] (codec : PlanCodec Body) (frozen : Frozen)

def Builder.pageBody (b : Builder Body) : Body :=
  codec.encodePage { frozen, index := b.pageCount, entries := b.pageEntries }

def Builder.flushPage (b : Builder Body) : Except Error (Builder Body) :=
  if b.pageEntries = [] then .ok b
  else do
    rejectIf ((b.pages b.pageCount).any fun stored => stored ≠ b.pageBody codec frozen)
      (newError .preconditionFailed "checkpoint garbage plan page conflict")
    rejectIf (b.pageCount = maxUint64) (newError .preconditionFailed "checkpoint garbage plan page count overflow")
    pure { b with
      pages := Function.update b.pages b.pageCount (some (b.pageBody codec frozen))
      pageCount := b.pageCount + 1
      pageEntries := [] }

def Builder.place (b : Builder Body) (entry : Entry) : Except Error (Builder Body) :=
  if b.rootEntries.length < pageSize then .ok { b with rootEntries := b.rootEntries ++ [entry] }
  else if b.pageEntries.length + 1 = pageSize then
    Builder.flushPage codec frozen { b with pageEntries := b.pageEntries ++ [entry] }
  else .ok { b with pageEntries := b.pageEntries ++ [entry] }

def Builder.remember (b : Builder Body) (entry : Entry) (info : ObjectInfo) : Option (List (String × ObjectInfo)) :=
  if b.entryCount > pageSize then none
  else b.versions.map fun versions => (checkpointGarbageEntryIdentity entry, info) :: versions

def Builder.add (b : Builder Body) (item : Entry × ObjectInfo) : Except Error (Builder Body) := do
  validateCheckpointGarbageEntry item.1
  rejectIf (b.previous ≠ "" && checkpointGarbageEntryIdentity item.1 ≤ b.previous) notOrdered
  rejectIf (b.entryCount = maxUint64) (newError .preconditionFailed "checkpoint garbage plan count overflow")
  let placed ← Builder.place codec frozen
    { b with
      previous := checkpointGarbageEntryIdentity item.1
      digested := b.digested ++ [item.1]
      entryCount := b.entryCount + 1 } item.1
  pure { placed with versions := placed.remember item.1 item.2 }

/-! ## Validation -/

def decodeCheckpointGarbagePlan (body : Body) : Except Error Plan := do
  let plan ← codec.decodePlan body
  rejectIf (plan.schemaVersion ≠ 1 || plan.frozen ≠ frozen || plan.pageCount = 0 ||
    plan.entryCount < plan.entries.length ||
      plan.entriesDigest = "" || plan.entries.length > pageSize)
    (newError .invalid "invalid checkpoint garbage plan")
  pure plan

def decodePlanPage (index : Nat) (body : Body) : Except Error (List Entry) := do
  let page ← codec.decodePage body
  rejectIf (page.schemaVersion ≠ 1 || page.frozen ≠ frozen || page.index ≠ index || page.entries = [] ||
      page.entries.length > pageSize)
    (newError .invalid "invalid checkpoint garbage plan page")
  pure page.entries

def checkpointGarbagePlanEntries (pages : Nat → Option Body) (plan : Plan) (index : Nat) : Except Error (List Entry) :=
  if index = 0 then .ok plan.entries
  else
    match pages index with
    | none => .error (newError .notFound "object does not exist")
    | some body => decodePlanPage codec frozen index body

/-- How far the validation has come; `digested` is what its digest was fed. -/
structure Check where
  previous : String := ""
  count : Nat := 0
  digested : List Entry := []

def cardinalityMismatch : Error := newError .preconditionFailed "checkpoint garbage plan page cardinality mismatch"

def Check.entry (plan : Plan) (check : Check) (entry : Entry) : Except Error Check := do
  rejectIf (plan.entryCount ≤ check.count) cardinalityMismatch
  validateCheckpointGarbageEntry entry
  rejectIf (check.previous ≠ "" && checkpointGarbageEntryIdentity entry ≤ check.previous) notOrdered
  pure { previous := checkpointGarbageEntryIdentity entry, count := check.count + 1,
         digested := check.digested ++ [entry] }

def Check.page (pages : Nat → Option Body) (plan : Plan) (check : Check) (index : Nat) : Except Error Check := do
  let entries ← checkpointGarbagePlanEntries codec frozen pages plan index
  rejectIf (index + 1 < plan.pageCount && entries.length ≠ pageSize) cardinalityMismatch
  entries.foldlM (Check.entry plan) check

def validateCheckpointGarbagePlan (pages : Nat → Option Body) (plan : Plan) : Except Error Unit := do
  let check ← (List.range plan.pageCount).foldlM (Check.page codec frozen pages plan) {}
  rejectIf (check.count ≠ plan.entryCount || codec.entriesDigest check.digested ≠ plan.entriesDigest)
    (newError .preconditionFailed "checkpoint garbage plan digest mismatch")

/-! ## Planning -/

def Builder.plan (b : Builder Body) : Plan where
  frozen := frozen
  pageCount := b.pageCount
  entryCount := b.entryCount
  entriesDigest := codec.entriesDigest b.digested
  entries := b.rootEntries

/-- The plan that is stored is validated; otherwise a new one is made of the garbage there is. The result is the
storage after it, and the versions listed. -/
def prepareCheckpointGarbagePlan (engine : Engine) (reachable : List Entry) (s : Storage Body) :
    Except Error (Storage Body × Option (List (String × ObjectInfo))) := do
  rejectIf (frozen.checkpointID = "" || frozen.inventoryDigest = "")
    (newError .invalid "checkpoint garbage plan requires a frozen inventory")
  match s.plan with
  | some body => do
    let plan ← decodeCheckpointGarbagePlan codec frozen body
    validateCheckpointGarbagePlan codec frozen s.pages plan
    pure (s, none)
  | none => do
    let collected ← (garbage engine reachable s).foldlM (Builder.add codec frozen) (.start s.pages)
    let built ← collected.flushPage codec frozen
    pure ({ s with pages := built.pages, plan := some (codec.encodePlan (built.plan codec frozen)) }, built.versions)

end

/-! ## Garbage is listed in order -/

variable {role : Role}

theorem identity_lt_of_key {a b : Key} (h : a.text < b.text) :
    checkpointGarbageEntryIdentity ⟨role, a⟩ < checkpointGarbageEntryIdentity ⟨role, b⟩ := by
  unfold checkpointGarbageEntryIdentity
  rw [String.lt_iff_toList_lt] at h ⊢
  simp only [String.toList_append]
  exact append_left_lt h

theorem identity_lt_of_role (a b : Key) :
    checkpointGarbageEntryIdentity ⟨.state, a⟩ < checkpointGarbageEntryIdentity ⟨.files, b⟩ := by
  unfold checkpointGarbageEntryIdentity
  rw [String.lt_iff_toList_lt]
  simp only [Role.order, String.toList_append, append_assoc]
  exact cons_lt_cons_iff.mpr (.inl (by decide))

def garbageEntries (engine : Engine) (reachable : List Entry) (s : Storage Body) : List Entry :=
  (garbage engine reachable s).map Prod.fst

variable {item : Entry × ObjectInfo} {reachable : List Entry} {engine : Engine} {s : Storage Body}

theorem mem_collect :
    item ∈ collect engine reachable s role ↔ item.2 ∈ s.objects engine role ∧ item.1 = ⟨role, item.2.key⟩ ∧
      eligible role item.2.key = true ∧ item.1 ∉ reachable := by
  obtain ⟨entry, info⟩ := item
  simp only [collect, mem_map, mem_filter, Bool.and_eq_true, decide_eq_true_eq, Prod.mk.injEq]
  constructor
  · rintro ⟨found, ⟨hmem, heligible, hout⟩, rfl, rfl⟩
    exact ⟨hmem, rfl, heligible, hout⟩
  · rintro ⟨hmem, rfl, heligible, hout⟩
    exact ⟨info, ⟨hmem, heligible, hout⟩, rfl, rfl⟩

theorem mem_garbageEntries {entry : Entry} :
    entry ∈ garbageEntries engine reachable s ↔ (∃ info ∈ s.objects engine entry.role, info.key = entry.key) ∧
      eligible entry.role entry.key = true ∧ entry ∉ reachable := by
  simp only [garbageEntries, garbage, mem_map, mem_append, mem_collect]
  constructor
  · rintro ⟨⟨entry', info⟩, h | h, rfl⟩ <;> dsimp only at h ⊢ <;> obtain ⟨hmem, hentry, heligible, hout⟩ := h <;>
      subst hentry <;> exact ⟨⟨info, hmem, rfl⟩, heligible, hout⟩
  · rintro ⟨⟨info, hmem, hkey⟩, heligible, hout⟩
    obtain ⟨role, key⟩ := entry
    obtain rfl : info.key = key := hkey
    cases role with
    | state => exact ⟨(⟨.state, info.key⟩, info), .inl ⟨hmem, rfl, heligible, hout⟩, rfl⟩
    | files => exact ⟨(⟨.files, info.key⟩, info), .inr ⟨hmem, rfl, heligible, hout⟩, rfl⟩

theorem garbage_increasing (engine : Engine) (reachable : List Entry) (s : Storage Body) :
    Increasing checkpointGarbageEntryIdentity (garbageEntries engine reachable s) := by
  have hrole : ∀ role, Increasing (fun item => checkpointGarbageEntryIdentity item.1)
      (collect engine reachable s role) := by
    intro role
    unfold collect Increasing
    rw [pairwise_map]
    exact ((s.listing (engine.backend role)).ordered.filter _).imp fun h => identity_lt_of_key h
  unfold Increasing garbageEntries garbage
  rw [pairwise_map, pairwise_append]
  refine ⟨hrole .state, hrole .files, fun a ha b hb => ?_⟩
  rw [(mem_collect.mp ha).2.1, (mem_collect.mp hb).2.1]
  exact identity_lt_of_role _ _

theorem validate_garbageEntry {entry : Entry}
    (h : entry ∈ garbageEntries engine reachable s) : validateCheckpointGarbageEntry entry = .ok () := by
  obtain ⟨_, heligible, _⟩ := mem_garbageEntries.mp h
  obtain ⟨role, key⟩ := entry
  cases role <;> simp_all [validateCheckpointGarbageEntry, eligible]

/-! ## What the builder does -/

section

variable (codec : PlanCodec Body) (frozen : Frozen)

def slice (entries : List Entry) (i : Nat) : List Entry := (entries.drop (pageSize * i)).take pageSize

variable {entries : List Entry} {i : Nat}

theorem getElem?_slice {m : Nat} (h : m < pageSize) : (slice entries i)[m]? = entries[pageSize * i + m]? := by
  rw [slice, getElem?_take_of_lt h, getElem?_drop]

def pageText (entries : List Entry) (i : Nat) : Body :=
  codec.encodePage { frozen, index := i, entries := slice entries i }

theorem slice_append (h : pageSize * (i + 1) ≤ entries.length) (more : List Entry) :
    slice (entries ++ more) i = slice entries i := by
  unfold slice
  rw [Nat.mul_succ] at h
  rw [drop_append_of_le_length (by omega), take_append_of_le_length (by rw [length_drop]; omega)]

theorem pageText_append (h : pageSize * (i + 1) ≤ entries.length) (more : List Entry) :
    pageText codec frozen (entries ++ more) i = pageText codec frozen entries i := by
  rw [pageText, slice_append h, pageText]

namespace Builder

/-- After the entries `done`, on pages of which `stored` were there before. -/
structure Progress (stored : Nat → Option Body) (done : List Entry) (b : Builder Body) : Prop where
  digested : b.digested = done
  count : b.entryCount = done.length
  bound : done.length ≤ maxUint64
  previous : b.previous = (done.getLast?.map checkpointGarbageEntryIdentity).getD ""
  root : b.rootEntries = done.take pageSize
  current : b.pageEntries = done.drop (pageSize * b.pageCount)
  positive : 1 ≤ b.pageCount
  started : b.pageCount ≠ 1 → pageSize * b.pageCount ≤ done.length
  unfilled : done.length < pageSize * (b.pageCount + 1)
  pages : ∀ i, b.pages i = if 1 ≤ i ∧ i < b.pageCount then some (pageText codec frozen done i) else stored i
  agrees : ∀ i, 1 ≤ i → i < b.pageCount → ∀ body ∈ stored i, body = pageText codec frozen done i

theorem progress_start (stored : Nat → Option Body) : Progress codec frozen stored [] (start stored) where
  digested := rfl
  count := rfl
  bound := Nat.zero_le _
  previous := rfl
  root := rfl
  current := drop_nil.symm
  positive := Nat.le_refl _
  started h := absurd rfl h
  unfilled := Nat.mul_pos (by decide) (Nat.succ_pos _)
  pages i := (if_neg (by simp only [start]; omega)).symm
  agrees i h h' := by simp only [start] at h'; omega

variable {codec frozen}

theorem flushPage_ok_iff [DecidableEq Body] {b b' : Builder Body} : b.flushPage codec frozen = .ok b' ↔
    b.pageEntries = [] ∧ b' = b ∨ b.pageEntries ≠ [] ∧ (∀ body ∈ b.pages b.pageCount, body = b.pageBody codec frozen) ∧
      b.pageCount ≠ maxUint64 ∧ b' = { b with
        pages := update b.pages b.pageCount (some (b.pageBody codec frozen))
        pageCount := b.pageCount + 1
        pageEntries := [] } := by
  unfold flushPage
  by_cases hempty : b.pageEntries = []
  · simp [hempty, eq_comm]
  · simp only [hempty, if_false, false_and, not_false_eq_true, true_and, false_or, bind_eq_ok_iff, rejectIf_eq_ok_iff,
      exists_and_left, pure_eq_ok, ok.injEq, exists_const, ne_eq, decide_eq_false_iff_not]
    constructor
    · rintro ⟨hstored, hcount, rfl⟩
      refine ⟨fun body hbody => ?_, hcount, rfl⟩
      rw [Option.mem_def] at hbody
      simpa [hbody] using hstored
    · rintro ⟨hstored, hcount, rfl⟩
      refine ⟨?_, hcount, rfl⟩
      cases hpage : b.pages b.pageCount with
      | none => rfl
      | some body => simpa using hstored body hpage

theorem add_ok_iff [DecidableEq Body] {b b' : Builder Body} : b.add codec frozen item = .ok b' ↔
    validateCheckpointGarbageEntry item.1 = .ok () ∧
    (b.previous = "" ∨ b.previous < checkpointGarbageEntryIdentity item.1) ∧
      b.entryCount ≠ maxUint64 ∧ ∃ placed, Builder.place codec frozen { b with
          previous := checkpointGarbageEntryIdentity item.1
          digested := b.digested ++ [item.1]
          entryCount := b.entryCount + 1 } item.1 = .ok placed ∧
        b' = { placed with versions := placed.remember item.1 item.2 } := by
  unfold add
  simp only [bind_eq_ok_iff, rejectIf_eq_ok_iff, pure_eq_ok, ok.injEq, exists_and_left, exists_const,
    Bool.and_eq_false_iff, decide_eq_false_iff_not, not_not, ne_eq, not_le]
  constructor
  · rintro ⟨⟨⟩, hvalid, hordered, hcount, placed, hplaced, rfl⟩
    exact ⟨hvalid, hordered, hcount, placed, hplaced, rfl⟩
  · rintro ⟨hvalid, hordered, hcount, placed, hplaced, rfl⟩
    exact ⟨(), hvalid, hordered, hcount, placed, hplaced, rfl⟩

namespace Progress

variable {stored : Nat → Option Body} {done : List Entry} {b b' : Builder Body}

theorem previous_append (entries : List Entry) (e : Entry) :
    checkpointGarbageEntryIdentity e = ((entries ++ [e]).getLast?.map checkpointGarbageEntryIdentity).getD "" := by
  simp

section

variable (h : Progress codec frozen stored done b)

include h

theorem root_length : b.rootEntries.length = min pageSize done.length := by
  rw [h.root, length_take]

theorem pageCount_eq_one (hroot : done.length < pageSize) : b.pageCount = 1 := by
  by_contra hne
  have hstarted := h.started hne
  have : pageSize * 1 ≤ pageSize * b.pageCount := Nat.mul_le_mul_left _ h.positive
  omega

theorem current_length : b.pageEntries.length = done.length - pageSize * b.pageCount := by
  rw [h.current, length_drop]

theorem page_begun (hroot : pageSize ≤ done.length) : pageSize * b.pageCount ≤ done.length := by
  by_cases hone : b.pageCount = 1
  · rw [hone]
    exact hroot
  · exact h.started hone

theorem current_append (hroot : pageSize ≤ done.length) (e : Entry) :
    (done ++ [e]).drop (pageSize * b.pageCount) = b.pageEntries ++ [e] := by
  rw [drop_append_of_le_length (h.page_begun hroot), h.current]

theorem page_full (hpos : 1 ≤ i) (hi : i < b.pageCount) : pageSize * (i + 1) ≤ done.length := by
  have hbegun := h.started (by omega)
  have : pageSize * (i + 1) ≤ pageSize * b.pageCount := Nat.mul_le_mul_left _ hi
  omega

theorem body_full (hroot : pageSize ≤ done.length) {e : Entry} (hlast : b.pageEntries.length + 1 = pageSize) :
    codec.encodePage { frozen, index := b.pageCount, entries := b.pageEntries ++ [e] } =
      pageText codec frozen (done ++ [e]) b.pageCount := by
  have hslice : slice (done ++ [e]) b.pageCount = b.pageEntries ++ [e] := by
    rw [slice, h.current_append hroot, take_of_length_le]
    rw [length_append, length_singleton]
    omega
  rw [pageText, hslice]

theorem text_append (hpos : 1 ≤ i) (hi : i < b.pageCount) (e : Entry) :
    pageText codec frozen (done ++ [e]) i = pageText codec frozen done i :=
  pageText_append codec frozen (h.page_full hpos hi) _

theorem pages_append (e : Entry) (i : Nat) : b.pages i =
    if 1 ≤ i ∧ i < b.pageCount then some (pageText codec frozen (done ++ [e]) i) else stored i := by
  rw [h.pages i]
  split
  · rename_i hi
    rw [h.text_append hi.1 hi.2]
  · rfl

theorem agrees_append (e : Entry) (i : Nat) (hpos : 1 ≤ i) (hi : i < b.pageCount) (body : Body)
    (hbody : body ∈ stored i) :
    body = pageText codec frozen (done ++ [e]) i :=
  (h.agrees i hpos hi body hbody).trans (h.text_append hpos hi e).symm

section

variable {e : Entry} (hbound : (done ++ [e]).length ≤ maxUint64)

include hbound

/-- The root takes the entry. -/
theorem add_root (hspace : done.length < pageSize) : Progress codec frozen stored (done ++ [e])
    { b with
      previous := checkpointGarbageEntryIdentity e
      digested := b.digested ++ [e]
      entryCount := b.entryCount + 1
      rootEntries := b.rootEntries ++ [e] } := by
  have hone := h.pageCount_eq_one hspace
  have hlength : (done ++ [e]).length = done.length + 1 := by simp
  refine ⟨congrArg (· ++ [e]) h.digested, by simp [h.count], hbound, previous_append done e, ?_, ?_, h.positive,
    fun hne => absurd hone hne, ?_, h.pages_append e, h.agrees_append e⟩
  · change b.rootEntries ++ [e] = _
    rw [h.root, take_of_length_le hspace.le, take_of_length_le (by omega)]
  · change b.pageEntries = _
    rw [h.current, hone, drop_of_length_le (by omega), drop_of_length_le (by omega)]
  · change (done ++ [e]).length < pageSize * (b.pageCount + 1)
    rw [hone]
    omega

variable (hspace : pageSize ≤ done.length)

include hspace

/-- The page goes on. -/
theorem add_open (hlast : b.pageEntries.length + 1 ≠ pageSize) : Progress codec frozen stored (done ++ [e])
    { b with
      previous := checkpointGarbageEntryIdentity e
      digested := b.digested ++ [e]
      entryCount := b.entryCount + 1
      pageEntries := b.pageEntries ++ [e] } := by
  have hbegun := h.page_begun hspace
  have hcurrent := h.current_length
  have hunfilled := h.unfilled
  rw [Nat.mul_succ] at hunfilled
  have hlength : (done ++ [e]).length = done.length + 1 := by simp
  refine ⟨congrArg (· ++ [e]) h.digested, by simp [h.count], hbound, previous_append done e, ?_,
    (h.current_append hspace e).symm, h.positive, fun _ => ?_, ?_, h.pages_append e, h.agrees_append e⟩
  · change b.rootEntries = _
    rw [h.root, take_append_of_le_length hspace]
  · change pageSize * b.pageCount ≤ _
    omega
  · change _ < pageSize * (b.pageCount + 1)
    rw [Nat.mul_succ]
    omega

/-- The page is full and stored. -/
theorem add_full (hlast : b.pageEntries.length + 1 = pageSize)
    (hstored : ∀ body ∈ b.pages b.pageCount, body = pageText codec frozen (done ++ [e]) b.pageCount) :
    Progress codec frozen stored (done ++ [e])
      { b with
        previous := checkpointGarbageEntryIdentity e
        digested := b.digested ++ [e]
        entryCount := b.entryCount + 1
        pages := update b.pages b.pageCount (some (pageText codec frozen (done ++ [e]) b.pageCount))
        pageCount := b.pageCount + 1
        pageEntries := [] } := by
  have hbegun := h.page_begun hspace
  have hcurrent := h.current_length
  have hlength : (done ++ [e]).length = done.length + 1 := by simp
  refine ⟨congrArg (· ++ [e]) h.digested, by simp [h.count], hbound, previous_append done e, ?_, ?_, by simp,
    fun _ => ?_, ?_, fun i => ?_, fun i hpos hi body hmem => ?_⟩
  · change b.rootEntries = _
    rw [h.root, take_append_of_le_length hspace]
  · change [] = _
    rw [drop_of_length_le]
    rw [Nat.mul_succ]
    omega
  · change pageSize * (b.pageCount + 1) ≤ _
    rw [Nat.mul_succ]
    omega
  · change _ < pageSize * (b.pageCount + 1 + 1)
    rw [Nat.mul_succ, Nat.mul_succ]
    omega
  · simp only
    by_cases hi : i = b.pageCount
    · subst hi
      rw [update_self, if_pos ⟨h.positive, Nat.lt_succ_self _⟩]
    · rw [update_of_ne hi, h.pages_append e i]
      congr 1
      exact propext ⟨fun hlt => ⟨hlt.1, by omega⟩, fun hlt => ⟨hlt.1, by omega⟩⟩
  · simp only at hi
    by_cases heq : i = b.pageCount
    · subst heq
      refine hstored body ?_
      rw [h.pages, if_neg (by omega)]
      exact hmem
    · exact h.agrees_append e i hpos (by omega) body hmem

end

theorem remembers (versions : Option (List (String × ObjectInfo))) :
    Progress codec frozen stored done { b with versions } :=
  ⟨h.digested, h.count, h.bound, h.previous, h.root, h.current, h.positive, h.started, h.unfilled, h.pages, h.agrees⟩

variable [DecidableEq Body]

/-- One entry is added. -/
theorem add (hok : b.add codec frozen item = .ok b') : Progress codec frozen stored (done ++ [item.1]) b' := by
  obtain ⟨_, _, hcount, placed, hplaced, rfl⟩ := add_ok_iff.mp hok
  have hbound : (done ++ [item.1]).length ≤ maxUint64 := by
    have := h.bound
    have := h.count
    rw [length_append, length_singleton]
    omega
  have hroot := h.root_length
  refine remembers ?_ _
  unfold place at hplaced
  split at hplaced
  · rename_i hspace
    cases hplaced
    exact h.add_root hbound (by simp only at hspace; omega)
  · rename_i hspace
    have hspace : pageSize ≤ done.length := by simp only at hspace; omega
    split at hplaced
    · rename_i hlast
      have hbody := h.body_full (e := item.1) hspace hlast
      rcases flushPage_ok_iff.mp hplaced with ⟨hempty, _⟩ | ⟨_, hstored, _, rfl⟩
      · simp at hempty
      · simp only [pageBody, hbody] at hstored ⊢
        exact h.add_full hbound hspace hlast hstored
    · rename_i hlast
      cases hplaced
      exact h.add_open hbound hspace hlast

/-- An entry can be added, unless it completes a page and another one is stored under its number. -/
theorem exists_add (hvalid : validateCheckpointGarbageEntry item.1 = .ok ())
    (hordered : ∀ x ∈ done, checkpointGarbageEntryIdentity x < checkpointGarbageEntryIdentity item.1)
    (hbound : done.length < maxUint64) (hagrees : pageSize * (b.pageCount + 1) = done.length + 1 →
      ∀ body ∈ stored b.pageCount, body = pageText codec frozen (done ++ [item.1]) b.pageCount) :
    ∃ b', b.add codec frozen item = .ok b' := by
  have hprevious : b.previous = "" ∨ b.previous < checkpointGarbageEntryIdentity item.1 := by
    rw [h.previous]
    cases hlast : done.getLast? with
    | none => exact .inl rfl
    | some x => exact .inr (hordered x (mem_of_getLast? hlast))
  have hcount := h.count
  refine (fun ⟨placed, hplaced⟩ => ⟨_, add_ok_iff.mpr ⟨hvalid, hprevious, by omega, placed, hplaced, rfl⟩⟩ :
    (∃ placed, Builder.place codec frozen _ item.1 = .ok placed) → _) ?_
  unfold place
  split
  · exact ⟨_, rfl⟩
  · rename_i hspace
    have hroot := h.root_length
    have hspace : pageSize ≤ done.length := by simp only at hspace; omega
    split
    · rename_i hlast
      have hbegun := h.page_begun hspace
      have hcurrent := h.current_length
      refine ⟨_, flushPage_ok_iff.mpr (.inr ⟨by simp, fun body hbody => ?_, ?_, rfl⟩)⟩
      · simp only [pageBody, h.body_full (e := item.1) hspace hlast]
        refine hagrees ?_ body ?_
        · rw [Nat.mul_succ]
          simp only at hlast
          omega
        · simp only at hbody
          rwa [h.pages, if_neg (by omega)] at hbody
      · have : 1 * b.pageCount ≤ pageSize * b.pageCount := Nat.mul_le_mul_right _ (by decide)
        simp only
        omega
    · exact ⟨_, rfl⟩

variable {items : List (Entry × ObjectInfo)}

theorem foldlM_add (hok : items.foldlM (Builder.add codec frozen) b = .ok b') :
    Progress codec frozen stored (done ++ items.map Prod.fst) b' := by
  induction items generalizing done b with
  | nil =>
    cases hok
    simpa using h
  | cons item rest ih =>
    obtain ⟨next, hnext, hok⟩ := bind_ok hok
    simpa using ih (h.add hnext) hok

theorem exists_foldlM (hentries : entries = done ++ items.map Prod.fst)
    (hvalid : ∀ e ∈ entries, validateCheckpointGarbageEntry e = .ok ())
    (hincreasing : Increasing checkpointGarbageEntryIdentity entries) (hbound : entries.length ≤ maxUint64)
    (hagrees : ∀ i, 1 ≤ i → pageSize * (i + 1) ≤ entries.length →
      ∀ body ∈ stored i, body = pageText codec frozen entries i) :
    ∃ b', items.foldlM (Builder.add codec frozen) b = .ok b' := by
  induction items generalizing done b with
  | nil => exact ⟨b, rfl⟩
  | cons item rest ih =>
    have hsplit : entries = (done ++ [item.1]) ++ rest.map Prod.fst := by simp [hentries]
    have hlength := congrArg length hsplit
    simp only [length_append, length_map, length_singleton] at hlength
    obtain ⟨next, hnext⟩ : ∃ next, b.add codec frozen item = .ok next := by
      refine h.exists_add (hvalid item.1 (by simp [hentries])) (fun x hx => ?_) (by omega) fun hfull body hbody => ?_
      · exact (pairwise_append.mp (hentries ▸ hincreasing)).2.2 x hx item.1 (by simp)
      · rw [hagrees b.pageCount h.positive (by omega) body hbody, hsplit, pageText_append]
        rw [length_append, length_singleton]
        omega
    rw [foldlM_cons, hnext]
    exact ih (h.add hnext) hsplit

end

end Progress

/-- The builder after all entries, its last page stored. -/
structure Finished (codec : PlanCodec Body) (frozen : Frozen) (stored : Nat → Option Body) (entries : List Entry)
    (b : Builder Body) : Prop where
  digested : b.digested = entries
  count : b.entryCount = entries.length
  root : b.rootEntries = entries.take pageSize
  positive : 1 ≤ b.pageCount
  covers : entries.length ≤ pageSize * b.pageCount
  needed : ∀ i, 1 ≤ i → i < b.pageCount → pageSize * i < entries.length
  pages : ∀ i, b.pages i = if 1 ≤ i ∧ i < b.pageCount then some (pageText codec frozen entries i) else stored i
  agrees : ∀ i, 1 ≤ i → i < b.pageCount → ∀ body ∈ stored i, body = pageText codec frozen entries i

section

variable {stored : Nat → Option Body} {b b' : Builder Body}

section

variable (h : Progress codec frozen stored entries b)

include h

theorem Progress.body_last : b.pageBody codec frozen = pageText codec frozen entries b.pageCount := by
  have hunfilled := h.unfilled
  rw [Nat.mul_succ] at hunfilled
  rw [pageBody, pageText, slice, h.current, take_of_length_le]
  rw [length_drop]
  omega

variable [DecidableEq Body]

theorem Progress.flush (hok : b.flushPage codec frozen = .ok b') : Finished codec frozen stored entries b' := by
  have hcurrent := h.current_length
  have hunfilled := h.unfilled
  rw [Nat.mul_succ] at hunfilled
  have hneeded : ∀ i, 1 ≤ i → i < b.pageCount → pageSize * i < entries.length := by
    intro i hpos hi
    have hfull := h.page_full hpos hi
    rw [Nat.mul_succ] at hfull
    have : 0 < pageSize := by decide
    omega
  rcases flushPage_ok_iff.mp hok with ⟨hempty, rfl⟩ | ⟨hnonempty, hstored, _, rfl⟩
  · have hcovers : entries.length ≤ pageSize * b'.pageCount := by
      rw [hempty, length_nil] at hcurrent
      omega
    exact ⟨h.digested, h.count, h.root, h.positive, hcovers, hneeded, h.pages, h.agrees⟩
  · rw [h.body_last] at hstored
    have hbegun : pageSize * b.pageCount < entries.length := by
      have := length_pos_iff.mpr hnonempty
      omega
    refine ⟨h.digested, h.count, h.root, by simp, ?_, fun i hpos hi => ?_, fun i => ?_, fun i hpos hi body hbody => ?_⟩
    · simp only
      rw [Nat.mul_succ]
      omega
    · simp only at hi
      by_cases heq : i = b.pageCount
      · rw [heq]
        exact hbegun
      · exact hneeded i hpos (by omega)
    · simp only [h.body_last]
      by_cases heq : i = b.pageCount
      · subst heq
        rw [update_self, if_pos ⟨h.positive, Nat.lt_succ_self _⟩]
      · rw [update_of_ne heq, h.pages i]
        congr 1
        exact propext ⟨fun hlt => ⟨hlt.1, by omega⟩, fun hlt => ⟨hlt.1, by omega⟩⟩
    · simp only at hi
      by_cases heq : i = b.pageCount
      · subst heq
        refine hstored body ?_
        rwa [h.pages, if_neg (by omega)]
      · exact h.agrees i hpos (by omega) body hbody

theorem Progress.exists_flush (hagrees : pageSize * b.pageCount < entries.length →
      ∀ body ∈ stored b.pageCount, body = pageText codec frozen entries b.pageCount) :
    ∃ b', b.flushPage codec frozen = .ok b' := by
  by_cases hempty : b.pageEntries = []
  · exact ⟨b, flushPage_ok_iff.mpr (.inl ⟨hempty, rfl⟩)⟩
  · have hcurrent := h.current_length
    have hbound := h.bound
    have := length_pos_iff.mpr hempty
    refine ⟨_, flushPage_ok_iff.mpr (.inr ⟨hempty, fun body hbody => ?_, ?_, rfl⟩)⟩
    · rw [h.pages, if_neg (by omega)] at hbody
      rw [h.body_last]
      exact hagrees (by omega) body hbody
    · have : 1 * b.pageCount ≤ pageSize * b.pageCount := Nat.mul_le_mul_right _ (by decide)
      omega

end

end

end Builder

/-! ## Every plan that is made is valid -/

section

variable {codec frozen} {stored : Nat → Option Body} {b : Builder Body}

def Check.after (done : List Entry) : Check where
  previous := (done.getLast?.map checkpointGarbageEntryIdentity).getD ""
  count := done.length
  digested := done

theorem Check.foldlM_entry {plan : Plan} {done more : List Entry} (hcount : (done ++ more).length ≤ plan.entryCount)
    (hvalid : ∀ e ∈ more, validateCheckpointGarbageEntry e = .ok ())
    (hincreasing : Increasing checkpointGarbageEntryIdentity (done ++ more)) :
    more.foldlM (Check.entry plan) (Check.after done) = .ok (Check.after (done ++ more)) := by
  induction more generalizing done with
  | nil => rw [append_nil]; rfl
  | cons e rest ih =>
    rw [append_cons] at hcount hincreasing ⊢
    have hstep : Check.entry plan (Check.after done) e = .ok (Check.after (done ++ [e])) := by
      have hprevious : ((Check.after done).previous ≠ "" &&
          checkpointGarbageEntryIdentity e ≤ (Check.after done).previous) = false := by
        unfold Check.after
        cases hlast : done.getLast? with
        | none => rfl
        | some x =>
          have hlt := (pairwise_append.mp (pairwise_append.mp hincreasing).1).2.2 x (mem_of_getLast? hlast) e (by simp)
          simpa using fun _ => hlt
      have hroom : decide (plan.entryCount ≤ (Check.after done).count) = false := by
        simp only [length_append, length_singleton] at hcount
        exact decide_eq_false (by simp only [Check.after]; omega)
      unfold Check.entry
      rw [hvalid e mem_cons_self, hprevious, hroom]
      simp [Check.after, rejectIf]
    rw [foldlM_cons, hstep]
    exact ih hcount (fun x hx => hvalid x (.tail _ hx)) hincreasing

theorem length_slice (entries : List Entry) (i : Nat) :
    (slice entries i).length = min pageSize (entries.length - pageSize * i) := by
  rw [slice, length_take, length_drop]

theorem Builder.Finished.planEntries (h : Finished codec frozen stored entries b) (hi : i < b.pageCount) :
    checkpointGarbagePlanEntries codec frozen b.pages (b.plan codec frozen) i = .ok (slice entries i) := by
  unfold checkpointGarbagePlanEntries
  split
  · rename_i hzero
    rw [hzero, slice, Nat.mul_zero, drop_zero]
    exact congrArg ok h.root
  · rename_i hpos
    rw [h.pages i, if_pos ⟨by omega, hi⟩]
    have hneeded := h.needed i (by omega) hi
    have hlength := length_slice entries i
    have hsize : 0 < pageSize := by decide
    have hnonempty : slice entries i ≠ [] := by
      intro hnil
      rw [hnil, length_nil] at hlength
      omega
    change decodePlanPage codec frozen i (codec.encodePage _) = _
    unfold decodePlanPage
    rw [codec.decode_encodePage]
    simp [rejectIf, hnonempty, hlength]

theorem Builder.Finished.validates (h : Finished codec frozen stored entries b)
    (hvalid : ∀ e ∈ entries, validateCheckpointGarbageEntry e = .ok ())
    (hincreasing : Increasing checkpointGarbageEntryIdentity entries) :
    validateCheckpointGarbagePlan codec frozen b.pages (b.plan codec frozen) = .ok () := by
  have hpages : ∀ n, n ≤ b.pageCount → (range n).foldlM (Check.page codec frozen b.pages (b.plan codec frozen)) {} =
      .ok (Check.after (entries.take (pageSize * n))) := by
    intro n hn
    induction n with
    | zero => rfl
    | succ n ih =>
      rw [range_succ, foldlM_append, ih (by omega)]
      have htake : entries.take (pageSize * (n + 1)) = entries.take (pageSize * n) ++ slice entries n := by
        rw [Nat.mul_succ, take_add, slice]
      have hfull : (decide (n + 1 < b.pageCount) && decide ((slice entries n).length ≠ pageSize)) = false := by
        rw [Bool.and_eq_false_iff, decide_eq_false_iff_not, decide_eq_false_iff_not, not_not]
        by_cases hlast : n + 1 < b.pageCount
        · have hneeded := h.needed (n + 1) (by omega) hlast
          rw [Nat.mul_succ] at hneeded
          exact .inr (by rw [length_slice]; omega)
        · exact .inl hlast
      have hentries : (slice entries n).foldlM (Check.entry (b.plan codec frozen))
        (Check.after (entries.take (pageSize * n))) =
          .ok (Check.after (entries.take (pageSize * (n + 1)))) := by
        rw [htake]
        refine Check.foldlM_entry ?_ (fun e he => hvalid e (mem_of_mem_drop (mem_of_mem_take he))) ?_
        · rw [← htake, length_take]
          change _ ≤ b.entryCount
          rw [h.count]
          omega
        · rw [← htake]
          exact .sublist (take_sublist _ _) hincreasing
      simp only [ok_bind, foldlM_cons, foldlM_nil]
      unfold Check.page
      rw [h.planEntries (by omega)]
      simp only [ok_bind]
      rw [show (b.plan codec frozen).pageCount = b.pageCount from rfl, hfull]
      simp [rejectIf, hentries]
  unfold validateCheckpointGarbagePlan
  rw [show (b.plan codec frozen).pageCount = b.pageCount from rfl, hpages b.pageCount (Nat.le_refl _),
    take_of_length_le h.covers]
  simp [Check.after, Builder.plan, h.count, h.digested, rejectIf]

end

/-! ## When a plan is made -/

section

variable {codec frozen} [DecidableEq Body]

theorem prepare_ok {t : Storage Body} {versions : Option (List (String × ObjectInfo))} (hplan : s.plan = none)
    (h : prepareCheckpointGarbagePlan codec frozen engine reachable s = .ok (t, versions)) :
    ∃ b : Builder Body, b.Finished codec frozen s.pages (garbageEntries engine reachable s) ∧
      (garbageEntries engine reachable s).length ≤ maxUint64 ∧
      t = { s with pages := b.pages, plan := some (codec.encodePlan (b.plan codec frozen)) } := by
  unfold prepareCheckpointGarbagePlan at h
  rw [hplan] at h
  obtain ⟨_, _, h⟩ := bind_ok h
  obtain ⟨collected, hcollected, h⟩ := bind_ok h
  obtain ⟨built, hbuilt, h⟩ := bind_ok h
  cases h
  have hprogress := (Builder.progress_start codec frozen s.pages).foldlM_add hcollected
  exact ⟨built, hprogress.flush hbuilt, hprogress.bound, rfl⟩

theorem exists_prepare_iff (hplan : s.plan = none) (hcheckpoint : frozen.checkpointID ≠ "")
    (hinventory : frozen.inventoryDigest ≠ "") :
    (∃ t versions, prepareCheckpointGarbagePlan codec frozen engine reachable s = .ok (t, versions)) ↔
      (garbageEntries engine reachable s).length ≤ maxUint64 ∧
        ∀ i, 1 ≤ i → pageSize * i < (garbageEntries engine reachable s).length →
          ∀ body ∈ s.pages i, body = pageText codec frozen (garbageEntries engine reachable s) i := by
  constructor
  · rintro ⟨t, versions, h⟩
    obtain ⟨b, hb, hbound, _⟩ := prepare_ok hplan h
    refine ⟨hbound, fun i hpos hi => hb.agrees i hpos ?_⟩
    have hcovers := hb.covers
    by_contra hle
    have : pageSize * b.pageCount ≤ pageSize * i := Nat.mul_le_mul_left _ (by omega)
    omega
  · rintro ⟨hbound, hagrees⟩
    have hstart := Builder.progress_start codec frozen s.pages
    obtain ⟨collected, hcollected⟩ := hstart.exists_foldlM (nil_append _).symm (fun _ => validate_garbageEntry)
      (garbage_increasing engine reachable s) hbound fun i hpos hfull => hagrees i hpos (by
        change _ ≤ (garbageEntries engine reachable s).length at hfull
        rw [Nat.mul_succ] at hfull
        have : 0 < pageSize := by decide
        omega)
    have hprogress := hstart.foldlM_add hcollected
    obtain ⟨built, hbuilt⟩ := hprogress.exists_flush fun hlast => hagrees collected.pageCount hprogress.positive hlast
    refine ⟨{ s with pages := built.pages, plan := some (codec.encodePlan (built.plan codec frozen)) },
      built.versions, ?_⟩
    unfold prepareCheckpointGarbagePlan
    rw [hplan, hcollected]
    simp only [ok_bind, hbuilt]
    simp only [hcheckpoint, hinventory, decide_false, Bool.or_self, rejectIf]
    rfl

end

end

end EndlessFS.Garbage
