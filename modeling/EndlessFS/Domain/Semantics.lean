import Mathlib.Data.List.Induction
import EndlessFS.Lib.Result
import EndlessFS.Domain.Store

/-!
# EndlessFS.Domain.Semantics

What a head means: the map from keys to values and versions it denotes, what one mutation does to
that map, and the outcomes it records. The functions of `Domain.Head` are related to these notions
here, once, so that later proofs never look inside the delta window or the trees.

* `denote`, `Mutation.effect`, `Change.HoldsIn`: the abstract layer.
* `denote_appendDelta`, `denote_compactHead`, `denote_materializedHead`: the three ways to publish.
* `validateMutationAtHead_iff`: the source's checks are exactly the preconditions.
-/

namespace EndlessFS

open Except List

abbrev ValueMap := String → Option DomainEntry

def denote (head : DomainHead) : ValueMap := fun key =>
  (lookupAtHead head key).map fun v => { value := v.data, logicalVersion := v.logicalVersion }

def Mutation.effect (codec : Codec) (m : Mutation) (fingerprint : String) (before : ValueMap) : ValueMap :=
  fun key =>
    match m.changes.find? fun change => change.key = key with
    | none => before key
    | some change =>
      if change.delete then none
      else some { value := change.value, logicalVersion := codec.version m.id fingerprint change.key change.value }

/-- The precondition of a change: its requirement, its expected version, and that a deleted key
is there. -/
structure Change.HoldsIn (map : ValueMap) (change : Change) : Prop where
  absent : change.require = .absent → map change.key = none
  present : change.require = .present →
    ∃ e, map change.key = some e ∧ (change.expectedVersion ≠ "" → e.logicalVersion = change.expectedVersion)
  delete : change.delete = true → map change.key ≠ none

/-! ## Sorted changes -/

/-- Changes in strictly increasing key order, as `sortChanges` and the checks leave them. -/
def SortedChanges (changes : List Change) : Prop := changes.Pairwise fun a b => a.key < b.key

def SortedDeltas (deltas : List DomainDelta) : Prop :=
  ∀ delta ∈ deltas, delta.changes.Pairwise fun a b => a.key < b.key

variable {changes : List Change}

theorem checkChanges_distinct {message previous : String} (h : checkChanges message previous changes = .ok ()) :
    changes.IsChain fun a b => a.key ≠ b.key := by
  induction changes generalizing previous with
  | nil => exact .nil
  | cons a rest ih =>
    unfold checkChanges at h
    split at h
    · cases h
    · cases rest with
      | nil => exact .singleton a
      | cons b rest =>
        refine .cons_cons ?_ (ih h)
        unfold checkChanges at h
        split at h
        · cases h
        · rename_i hb
          simp only [Bool.or_eq_true, decide_eq_true_eq, not_or] at hb
          exact fun e => hb.1.1.2 e.symm

theorem sortedChanges_of_check {message previous : String}
    (h : checkChanges message previous (sortChanges changes) = .ok ()) : SortedChanges (sortChanges changes) := by
  have hle : (sortChanges changes).Pairwise fun a b => a.key ≤ b.key := by
    have := pairwise_insertionSort (fun a b : Change => a.key ≤ b.key) changes
    exact this
  have hne := checkChanges_distinct h
  -- neighbours differ, so the order is strict between neighbours and hence everywhere
  have hchain : (sortChanges changes).IsChain fun a b => a.key < b.key := by
    have hboth := hle.isChain
    revert hne hboth
    generalize sortChanges changes = l
    intro hne hboth
    induction l with
    | nil => exact .nil
    | cons a l ih =>
      cases l with
      | nil => exact .singleton a
      | cons b l =>
        rw [isChain_cons_cons] at hne hboth ⊢
        exact ⟨lt_of_le_of_ne hboth.1 hne.1, ih hne.2 hboth.2⟩
  exact hchain.pairwise

structure Mutation.Normal (m : Mutation) : Prop where
  id : m.id ≠ ""
  nonempty : m.changes ≠ []
  sorted : SortedChanges m.changes

theorem sortChanges_ne_nil (h : changes ≠ []) : sortChanges changes ≠ [] := by
  intro hnil
  have hlen := congrArg length hnil
  simp only [sortChanges, length_insertionSort, length_nil, length_eq_zero_iff] at hlen
  exact h hlen

variable {codec : Codec} {m : Mutation} {fingerprint : String}

theorem normalizeMutation_ok {raw : Mutation} (h : normalizeMutation codec raw = .ok (m, fingerprint)) :
    m = { raw with changes := sortChanges raw.changes } ∧ m.Normal ∧
      fingerprint = codec.fingerprint m.changes m.result := by
  unfold normalizeMutation at h
  split at h
  · cases h
  · rename_i hid
    simp only [Bool.or_eq_true, decide_eq_true_eq, List.isEmpty_iff, not_or] at hid
    obtain ⟨u, hc, h⟩ := Except.bind_ok h
    split at h
    · cases h
    · simp only [pure_eq_ok, ok.injEq, Prod.mk.injEq] at h
      obtain ⟨rfl, rfl⟩ := h
      exact ⟨rfl, ⟨hid.1, sortChanges_ne_nil hid.2, sortedChanges_of_check hc⟩, rfl⟩

theorem normalizeMaterializedMutation_ok {raw : Mutation}
    (h : normalizeMaterializedMutation codec raw = .ok (m, fingerprint)) :
    m = { raw with changes := sortChanges raw.changes } ∧ m.Normal ∧
      fingerprint = codec.materializedFingerprint m.changes m.result := by
  unfold normalizeMaterializedMutation at h
  split at h
  · cases h
  · rename_i hid
    simp only [Bool.or_eq_true, decide_eq_true_eq, List.isEmpty_iff, not_or] at hid
    obtain ⟨u, hc, h⟩ := Except.bind_ok h
    obtain ⟨rfl, rfl⟩ := h
    exact ⟨rfl, ⟨hid.1, sortChanges_ne_nil hid.2, sortedChanges_of_check hc⟩, rfl⟩

theorem sorted_stored {revision : Nat} (h : SortedChanges m.changes) :
    (m.delta codec fingerprint revision).changes.Pairwise fun a b => a.key < b.key := by
  exact pairwise_map.mpr h

/-! ## The delta window -/

@[simp] theorem deltaChange_nil (key : String) : deltaChange [] key = none := rfl

theorem deltaChange_append (deltas : List DomainDelta) (delta : DomainDelta) (key : String) :
    deltaChange (deltas ++ [delta]) key =
      match delta.changes.find? fun change => change.key = key with
      | some change => some (delta, change)
      | none => deltaChange deltas key := by
  unfold deltaChange
  rw [reverse_append, reverse_singleton, singleton_append, findSome?_cons]
  cases delta.changes.find? fun change => change.key = key <;> rfl

theorem denote_eq (head : DomainHead) (key : String) : denote head key =
      ((deltaChange head.deltas key).map fun p => p.2.entry).getD (head.base.get key) := by
  unfold denote lookupAtHead DomainChange.entry
  cases deltaChange head.deltas key with
  | none => cases head.base.get key <;> simp
  | some p => cases hd : p.2.delete <;> simp [hd]

theorem get_foldChanges {latest : SortedMap String (Option DomainEntry)} {changes : List DomainChange}
    (h : changes.Pairwise fun a b => a.key < b.key) (key : String) :
    (foldChanges latest changes).get key =
      match changes.find? fun change => change.key = key with
      | some change => some change.entry
      | none => latest.get key := by
  induction changes generalizing latest with
  | nil => rfl
  | cons a rest ih =>
    obtain ⟨ha, hrest⟩ := pairwise_cons.mp h
    have ih' := @ih (latest.set a.key (some a.entry)) hrest
    unfold foldChanges at ih' ⊢
    rw [foldl_cons, ih', find?_cons]
    by_cases hk : a.key = key
    · -- later changes have other keys, so the first one stays
      have hnone : (rest.find? fun change => change.key = key) = none := by
        rw [find?_eq_none]
        intro c hc
        simpa using (hk ▸ ha c hc).ne'
      simp [hnone, hk]
    · simp [hk]

theorem get_foldDeltas {deltas : List DomainDelta} (h : SortedDeltas deltas) (key : String) :
    (foldDeltas deltas).get key = (deltaChange deltas key).map fun p => p.2.entry := by
  induction deltas using reverseRecOn with
  | nil => rfl
  | append_singleton deltas delta ih =>
    have hsplit : foldDeltas (deltas ++ [delta]) = foldChanges (foldDeltas deltas) delta.changes := by
      simp [foldDeltas, foldl_append]
    rw [hsplit, get_foldChanges (h delta (by simp)), deltaChange_append,
      ih fun d hd => h d (by simp [hd])]
    cases delta.changes.find? fun change => change.key = key <;> rfl

/-! ## Published heads -/

theorem find_stored {key : String} :
    (m.changes.map (Change.stored codec m fingerprint)).find? (fun change => change.key = key) =
      (m.changes.find? fun change => change.key = key).map (Change.stored codec m fingerprint) := by
  rw [find?_map]
  rfl

theorem stored_entry (codec : Codec) (m : Mutation) (fingerprint : String) (change : Change) :
    (change.stored codec m fingerprint).entry =
      if change.delete then none
      else some { value := change.value
                  logicalVersion := codec.version m.id fingerprint change.key change.value } := by
  unfold Change.stored DomainChange.entry logicalVersion
  cases change.delete <;> rfl

theorem denote_appendDelta (codec : Codec) (head : DomainHead) (m : Mutation) (fingerprint : String) :
    denote (appendDelta codec head m fingerprint) = m.effect codec fingerprint (denote head) := by
  funext key
  rw [denote_eq, appendDelta, deltaChange_append, Mutation.delta, find_stored, Mutation.effect]
  cases m.changes.find? fun change => change.key = key with
  | none => rw [denote_eq]; rfl
  | some change => exact stored_entry codec m fingerprint change

variable {now : Time} {head next : DomainHead}

theorem compactHead_ok (h : compactHead now head = .ok next) :
    ∃ outcomes expiry, pruneExpiredOutcomes now head (foldOutcomes now head.deltas) = .ok (outcomes, expiry) ∧
      next = { head with
        base := head.base.apply (foldDeltas head.deltas).entries
        outcomes := outcomes, outcomeExpiry := expiry
        baseRevision := head.revision
        deltas := [] } := by
  obtain ⟨p, hp, h⟩ := bind_ok h
  simp only [pure_eq_ok, ok.injEq] at h
  exact ⟨p.1, p.2, hp, h.symm⟩

theorem materializedHead_ok (h : materializedHead codec now head m fingerprint = .ok next) : ∃ outcomes expiry,
      pruneExpiredOutcomes now head ((foldOutcomes now head.deltas).record
        (m.delta codec fingerprint (head.revision + 1)).recorded) = .ok (outcomes, expiry) ∧ next = { head with
        base := head.base.apply (foldChanges (foldDeltas head.deltas)
          (m.delta codec fingerprint (head.revision + 1)).changes).entries
        outcomes := outcomes, outcomeExpiry := expiry
        revision := head.revision + 1
        baseRevision := head.revision + 1
        deltas := [] } := by
  obtain ⟨p, hp, h⟩ := bind_ok h
  simp only [pure_eq_ok, ok.injEq] at h
  exact ⟨p.1, p.2, hp, h.symm⟩

theorem denote_compactHead (h : compactHead now head = .ok next)
    (hs : SortedDeltas head.deltas) : denote next = denote head := by
  obtain ⟨outcomes, expiry, -, rfl⟩ := compactHead_ok h
  funext key
  rw [denote_eq, denote_eq, deltaChange_nil, SortedMap.get_apply, get_foldDeltas hs]
  rfl

theorem denote_materializedHead (h : materializedHead codec now head m fingerprint = .ok next)
    (hs : SortedDeltas head.deltas) (hm : SortedChanges m.changes) :
    denote next = m.effect codec fingerprint (denote head) := by
  obtain ⟨outcomes, expiry, -, rfl⟩ := materializedHead_ok h
  funext key
  rw [denote_eq, deltaChange_nil, SortedMap.get_apply, get_foldChanges (sorted_stored hm),
    Mutation.delta, find_stored, Mutation.effect]
  cases m.changes.find? fun change => change.key = key with
  | none =>
    rw [denote_eq, get_foldDeltas hs]
    rfl
  | some change => exact stored_entry codec m fingerprint change

/-! ## Preconditions -/

theorem checkChange_iff (head : DomainHead) (change : Change) :
    checkChange (lookupAtHead head change.key) change = .ok () ↔ change.HoldsIn (denote head) := by
  have hden : denote head change.key = (lookupAtHead head change.key).map fun v =>
    { value := v.data, logicalVersion := v.logicalVersion } := rfl
  cases hl : lookupAtHead head change.key with
  | none =>
    rw [hl, Option.map_none] at hden
    constructor
    · intro h
      refine ⟨fun _ => hden, fun hr => ?_, fun hd => ?_⟩
      · simp [checkChange, hr] at h
      · cases hr : change.require <;> simp [checkChange, hr, hd] at h
    · intro h
      have hd : change.delete = false := by
        by_contra hne
        exact h.delete (by simpa using hne) hden
      have hr : change.require ≠ .present := fun hr => by
        obtain ⟨e, he, -⟩ := h.present hr
        rw [hden] at he
        cases he
      cases hr' : change.require with
      | any => simp [checkChange, hr', hd]
      | absent => simp [checkChange, hr', hd]
      | present => exact absurd hr' hr
  | some v =>
    rw [hl, Option.map_some] at hden
    have hne : denote head change.key ≠ none := by rw [hden]; exact Option.some_ne_none _
    constructor
    · intro h
      refine ⟨fun hr => ?_, fun hr => ⟨_, hden, fun hv => ?_⟩, fun _ => hne⟩
      · simp [checkChange, hr] at h
      · by_contra hstale
        simp [checkChange, hr, hv, hstale] at h
    · intro h
      cases hr : change.require with
      | any => simp [checkChange, hr]
      | absent => exact absurd (h.absent hr) hne
      | present =>
        obtain ⟨e, he, hv⟩ := h.present hr
        obtain rfl : e = { value := v.data, logicalVersion := v.logicalVersion } := by
          rw [hden] at he
          exact (Option.some.inj he).symm
        simpa [checkChange, hr] using hv

theorem validateMutationAtHead_iff (head : DomainHead) (changes : List Change) :
    validateMutationAtHead head changes = .ok () ↔ ∀ change ∈ changes, change.HoldsIn (denote head) := by
  induction changes with
  | nil => simp [validateMutationAtHead]
  | cons a rest ih =>
    rw [forall_mem_cons, ← ih, ← checkChange_iff, validateMutationAtHead, bind_eq_ok_iff]
    exact ⟨fun ⟨_, ha, hrest⟩ => ⟨ha, hrest⟩, fun ⟨ha, hrest⟩ => ⟨(), ha, hrest⟩⟩

end EndlessFS
