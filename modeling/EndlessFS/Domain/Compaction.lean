import EndlessFS.Domain.Retention
import EndlessFS.Projection.Merge

/-!
# EndlessFS.Domain.Compaction

What folding a delta window into the trees keeps. The values, and every list of them, are the same before and after. The
outcomes are, if the head has no record that the fold drops although it is, or will be, found in the head: an expiry
entry that is left over from an earlier use of an ID, or records of one ID with different retentions.

* `listAtHead`: the entries of a range, from the first entries of the base and the whole window.
* `SameState`, `SameOutcome`: a head denotes the same as another one.
* `OutcomeKept`: the condition for one ID.
* `compaction_keeps_iff`: compaction, and a materialized mutation apart from what it adds, keep the meaning of a head
  exactly if the condition holds for every ID.
-/

namespace EndlessFS

open Except List SortedMap

/-! ## Lists -/

/-- The first entries of a range of a tree; the walk over its pages is `PageTree.collect`. -/
def collect (tree : SortedMap String DomainEntry) (start after : String) (limit : Nat) :
    SortedMap String DomainEntry where
  entries := (tree.entries.filter fun e => inRange start after e.1).take limit
  sorted := tree.sorted.sublist ((List.take_sublist _ _).trans List.filter_sublist)

def windowChanges (deltas : List DomainDelta) : List DomainChange := deltas.flatMap (·.changes)

/-- `listAtHead`: enough of the base is collected that the window cannot remove too many of its entries. -/
def listAtHead (head : DomainHead) (start after : String) (limit : Nat) : List (String × DomainEntry) :=
  let relevant := (windowChanges head.deltas).filter fun change => inRange start after change.key
  let values := (collect head.base start after (limit + relevant.length)).apply
    (relevant.map fun change => (change.key, change.entry))
  values.entries.take limit

def windowEdits (deltas : List DomainDelta) : List (String × Option DomainEntry) :=
  (windowChanges deltas).map fun change => (change.key, change.entry)

def foldedBase (head : DomainHead) : SortedMap String DomainEntry := head.base.apply (windowEdits head.deltas)

theorem listAtHead_eq (head : DomainHead) (start after : String) (limit : Nat) :
    listAtHead head start after limit = (((foldedBase head).restrict (inRange start after)).truncate
      limit).entries := by
  have hrelevant : ((windowChanges head.deltas).filter fun change => inRange start after change.key).map
      (fun change => (change.key, change.entry)) = (windowEdits head.deltas).filter fun edit =>
        inRange start after edit.1 := by
    simp [windowEdits, filter_map, Function.comp_def]
  have hlength := congrArg length hrelevant
  rw [length_map] at hlength
  unfold listAtHead foldedBase
  dsimp only
  rw [hrelevant, hlength]
  change (truncate limit (apply (truncate _ (head.base.restrict (inRange start after))) _)).entries = _
  rw [restrict_apply, truncate_apply limit (head.base.restrict (inRange start after))]

theorem foldDeltas_eq (deltas : List DomainDelta) :
    foldDeltas deltas = empty.apply ((windowEdits deltas).map fun change => (change.1, some change.2)) := by
  unfold foldDeltas
  generalize (empty : SortedMap String (Option DomainEntry)) = latest
  induction deltas generalizing latest with
  | nil => rfl
  | cons delta deltas ih =>
    have hchanges : foldChanges latest delta.changes =
        latest.apply (delta.changes.map fun change => (change.key, some change.entry)) := by
      simp [foldChanges, apply, foldl_map]
    rw [foldl_cons, ih, hchanges, ← apply_append]
    simp [windowEdits, windowChanges, Function.comp_def]

theorem apply_foldDeltas (base : SortedMap String DomainEntry) (deltas : List DomainDelta) :
    base.apply (foldDeltas deltas).entries = base.apply (windowEdits deltas) := by
  refine ext_get fun key => ?_
  rw [get_apply, get_apply_list, foldDeltas_eq, get_apply_list, ← map_reverse, find?_map,
    Function.comp_def]
  cases (windowEdits deltas).reverse.find? fun change => change.1 = key <;> simp

theorem foldedBase_appendDelta (codec : Codec) (head : DomainHead) (m : Mutation) (fingerprint : String) :
    foldedBase (appendDelta codec head m fingerprint) = head.base.apply (foldChanges (foldDeltas head.deltas)
        (m.delta codec fingerprint (head.revision + 1)).changes).entries := by
  have hfold : foldChanges (foldDeltas head.deltas) (m.delta codec fingerprint (head.revision + 1)).changes =
      foldDeltas (head.deltas ++ [m.delta codec fingerprint (head.revision + 1)]) := by
    simp [foldDeltas, foldl_append]
  rw [hfold, apply_foldDeltas]
  rfl

/-! ## Meanings -/

structure SameState (head next : DomainHead) : Prop where
  revision : next.revision = head.revision
  values : ∀ key, (lookupAtHead next key).map (fun v => (v.data, v.logicalVersion)) =
    (lookupAtHead head key).map fun v => (v.data, v.logicalVersion)
  lists : ∀ start after limit, listAtHead next start after limit = listAtHead head start after limit

/-- From `now` on, the outcome of an ID is the same. -/
def SameOutcome (now : Time) (head next : DomainHead) (id : String) : Prop :=
  ∀ t, now ≤ t → lookupOutcomeAtHead t next id = lookupOutcomeAtHead t head id

variable {head next : DomainHead}

theorem values_of_denote (h : denote next = denote head) (key : String) :
    (lookupAtHead next key).map (fun v => (v.data, v.logicalVersion)) =
      (lookupAtHead head key).map fun v => (v.data, v.logicalVersion) := by
  have hkey := congrFun h key
  unfold denote at hkey
  cases hnext : lookupAtHead next key <;> cases hhead : lookupAtHead head key <;> simp_all

theorem lists_of_base (hdeltas : next.deltas = []) (hbase : next.base = foldedBase head)
    (start after : String) (limit : Nat) : listAtHead next start after limit = listAtHead head start after limit := by
  rw [listAtHead_eq, listAtHead_eq]
  have hnext : foldedBase next = foldedBase head := by
    rw [foldedBase, hdeltas, hbase]
    rfl
  rw [hnext]

/-! ## The condition -/

/-- The newest delta of an ID that is retained at `now`. -/
def liveDelta (now : Time) (head : DomainHead) (id : String) : Option DomainDelta :=
  head.deltas.reverse.find? fun d => d.mutationID = id && now < d.retainUntil

/-- An expiry entry of the ID is consumed at `now`. -/
def consumed (now : Time) (head : DomainHead) (id : String) : Bool :=
  (head.outcomeExpiry.entries.take domainPageMaximumItems).any fun e => e.2 = id && expiryTime e.1 ≤ now

/-- The stored outcome of the ID is its own, and past its retention at `t`. -/
def storedExpired (head : DomainHead) (id : String) (t : Time) : Bool :=
  (head.outcomes.get id).all fun o => o.mutationID = id && o.retainUntil ≤ t

/-- If a delta of the ID is retained, then no other record of the ID is retained longer; if none is and the fold
consumes an expiry entry of the ID, then the stored outcome is past its retention. -/
def OutcomeKept (now : Time) (head : DomainHead) (id : String) : Bool :=
  match liveDelta now head id with
  | some d =>
    (head.deltas.all fun d' => d'.mutationID ≠ id || d'.retainUntil ≤ d.retainUntil) &&
      storedExpired head id d.retainUntil
  | none => !consumed now head id || storedExpired head id now

/-! ## What a fold does to the outcomes -/

variable {now : Time} {id : String}

theorem pruneEntries_get_expired {entries : List (ExpiryKey × String)} {batch pruned : OutcomeBatch}
    (h : pruneEntries now entries batch = .ok pruned) (hsorted : entries.Pairwise fun a b => a.1 < b.1)
    (hb : batch.outcomes.get id = none) {key : ExpiryKey} (hmem : (key, id) ∈ entries)
    (hexpired : expiryTime key ≤ now) :
    pruned.outcomes.get id = some none := by
  induction entries generalizing batch with
  | nil => cases hmem
  | cons e rest ih =>
    obtain ⟨hfirst, hsorted⟩ := pairwise_cons.mp hsorted
    have htime : expiryTime e.1 ≤ now := by
      rcases mem_cons.mp hmem with heq | hmem
      · rw [← heq]
        exact hexpired
      · exact (Prod.Lex.monotone_fst _ _ (hfirst _ hmem).le).trans hexpired
    unfold pruneEntries at h
    split at h
    · cases h
    · rw [if_neg (not_lt.mpr htime)] at h
      split at h
      · cases h
      by_cases hid : e.2 = id
      · refine pruneEntries_get_some h ?_
        simp [OutcomeBatch.expire, hid, hb]
      · refine ih h hsorted ?_ ((mem_cons.mp hmem).resolve_left fun heq => hid (by rw [← heq]))
        unfold OutcomeBatch.expire
        split
        · exact hb
        · rw [get_set, if_neg hid, hb]

/-- The outcome tree after a fold, for an ID that only the window and the trees speak of. -/
theorem get_pruned {batch : OutcomeBatch} {outcomes : SortedMap String DomainOutcome}
    {expiry : SortedMap ExpiryKey String}
    (hbatch : batch.outcomes.get id = (foldOutcomes now head.deltas).outcomes.get id)
    (hp : pruneExpiredOutcomes now head batch = .ok (outcomes, expiry)) :
    outcomes.get id = match liveDelta now head id with
      | some d => some d.recorded
      | none => if consumed now head id then none else head.outcomes.get id := by
  obtain ⟨pruned, hprune, hp⟩ := bind_ok hp
  obtain ⟨rfl, -⟩ := hp
  rw [get_apply]
  rw [get_foldOutcomes] at hbatch
  unfold liveDelta
  cases hlive : head.deltas.reverse.find? fun d => d.mutationID = id && now < d.retainUntil with
  | some d =>
    rw [hlive] at hbatch
    rw [pruneEntries_get_some hprune hbatch]
    rfl
  | none =>
    rw [hlive] at hbatch
    by_cases hconsumed : consumed now head id = true
    · obtain ⟨e, he, hentry⟩ := any_eq_true.mp hconsumed
      simp only [Bool.and_eq_true, decide_eq_true_eq] at hentry
      obtain ⟨rfl, hexpired⟩ := hentry
      have hsorted := head.outcomeExpiry.sorted.sublist (take_sublist domainPageMaximumItems _)
      rw [pruneEntries_get_expired hprune hsorted hbatch he hexpired]
      simp [hconsumed]
    · rw [pruneEntries_get_none hprune hbatch fun key hkey hexpired => hconsumed ?_]
      · simp [hconsumed]
      · exact any_eq_true.mpr ⟨(key, id), hkey, by simp [hexpired]⟩

theorem find_of_imp {α : Type} {p q : α → Bool} {l : List α} {x : α} (h : l.find? p = some x)
    (hqp : ∀ y, q y = true → p y = true) (hx : q x = true) : l.find? q = some x := by
  obtain ⟨_, before, after, rfl, hbefore⟩ := find?_eq_some_iff_append.mp h
  refine find?_eq_some_iff_append.mpr ⟨hx, before, after, rfl, fun y hy => ?_⟩
  have hp := hbefore y hy
  cases hq : q y with
  | false => rfl
  | true => simp [hqp y hq] at hp

theorem live_of_later {t : Time} (hle : now ≤ t) (d : DomainDelta)
    (h : (decide (d.mutationID = id) && decide (t < d.retainUntil)) = true) :
    (decide (d.mutationID = id) && decide (now < d.retainUntil)) = true := by
  simp only [Bool.and_eq_true, decide_eq_true_eq] at h ⊢
  exact ⟨h.1, hle.trans_lt h.2⟩

theorem lookup_none_iff {t : Time} :
    lookupOutcomeAtHead t head id = .ok none ↔ liveDelta t head id = none ∧ storedExpired head id t = true := by
  unfold lookupOutcomeAtHead storedExpired liveDelta
  cases head.deltas.reverse.find? fun d => d.mutationID = id && t < d.retainUntil with
  | some d => simp
  | none =>
    cases head.outcomes.get id with
    | none => simp
    | some o =>
      by_cases hid : o.mutationID = id
      · by_cases hlive : t < o.retainUntil
        · simp [hid, hlive]
        · simp [hid, hlive, not_lt.mp hlive]
      · simp [hid]

theorem liveDelta_none_iff {t : Time} :
    liveDelta t head id = none ↔ ∀ d ∈ head.deltas, d.mutationID = id → d.retainUntil ≤ t := by
  simp [liveDelta, find?_eq_none]

theorem lookup_of_tree (hdeltas : next.deltas = []) (id : String) (t : Time) : lookupOutcomeAtHead t next id =
      match next.outcomes.get id with
      | none => .ok none
      | some recorded =>
        if recorded.mutationID ≠ id then .error (newError .invalid "misbound consistency-domain outcome")
        else if t < recorded.retainUntil then .ok (some recorded.outcome) else .ok none := by
  unfold lookupOutcomeAtHead
  rw [hdeltas]
  rfl

theorem storedExpired_mono {t u : Time} (h : storedExpired head id t = true) (hle : t ≤ u) :
    storedExpired head id u = true := by
  unfold storedExpired at h ⊢
  cases hget : head.outcomes.get id with
  | none => rfl
  | some o =>
    rw [hget] at h
    simp only [Option.all_some, Bool.and_eq_true, decide_eq_true_eq] at h ⊢
    exact ⟨h.1, h.2.trans hle⟩

/-- A fold keeps the outcome of an ID from `now` on exactly under the condition. -/
theorem sameOutcome_iff (hdeltas : next.deltas = []) (htree : next.outcomes.get id = match liveDelta now head id with
      | some d => some d.recorded
      | none => if consumed now head id then none else head.outcomes.get id) :
    SameOutcome now head next id ↔ OutcomeKept now head id = true := by
  unfold SameOutcome OutcomeKept
  simp only [lookup_of_tree hdeltas, htree]
  cases hlive : liveDelta now head id with
  | some d =>
    have hd := find?_some hlive
    simp only [Bool.and_eq_true, decide_eq_true_eq] at hd
    have hrecorded : d.recorded.mutationID = id := hd.1
    simp only [hrecorded, ne_eq, not_true_eq_false, if_false, Bool.and_eq_true]
    have hcondition : (head.deltas.all fun d' => decide (d'.mutationID ≠ id) ||
      decide (d'.retainUntil ≤ d.retainUntil)) = true ↔
        liveDelta d.retainUntil head id = none := by
      rw [liveDelta_none_iff]
      simp only [all_eq_true, Bool.or_eq_true, decide_eq_true_eq]
      exact forall₂_congr fun d' _ => by rw [ne_eq, ← imp_iff_not_or]
    rw [hcondition, ← lookup_none_iff]
    constructor
    · intro h
      have hend := h d.retainUntil hd.2.le
      rw [show d.recorded.retainUntil = d.retainUntil from rfl, if_neg (lt_irrefl _)] at hend
      exact hend.symm
    · intro hend t ht
      by_cases hlater : t < d.retainUntil
      · have hfound : liveDelta t head id = some d :=
          find_of_imp hlive (fun d' => live_of_later ht d') (by simp [hd.1, hlater])
        unfold liveDelta at hfound
        unfold lookupOutcomeAtHead
        rw [if_pos (show t < d.recorded.retainUntil from hlater), hfound]
        rfl
      · rw [if_neg (show ¬ t < d.recorded.retainUntil from hlater)]
        obtain ⟨hnone, hstored⟩ := lookup_none_iff.mp hend
        refine (lookup_none_iff.mpr ⟨liveDelta_none_iff.mpr fun d' hd' hid => ?_, ?_⟩).symm
        · exact (liveDelta_none_iff.mp hnone d' hd' hid).trans (not_lt.mp hlater)
        · exact storedExpired_mono hstored (not_lt.mp hlater)
  | none =>
    have hlater : ∀ t, now ≤ t → liveDelta t head id = none := fun t ht =>
      liveDelta_none_iff.mpr fun d hd hid => (liveDelta_none_iff.mp hlive d hd hid).trans ht
    by_cases hconsumed : consumed now head id = true
    · simp only [hconsumed, if_true, Bool.not_true, Bool.false_or]
      constructor
      · intro h
        exact (lookup_none_iff.mp (h now le_rfl).symm).2
      · intro hstored t ht
        exact (lookup_none_iff.mpr ⟨hlater t ht, storedExpired_mono hstored ht⟩).symm
    · simp only [hconsumed, Bool.false_eq_true, if_false, Bool.not_false, Bool.true_or, iff_true]
      intro t ht
      have hnone := hlater t ht
      unfold liveDelta at hnone
      cases hget : head.outcomes.get id <;> simp [lookupOutcomeAtHead, hnone, hget]

/-! ## Valid heads -/

theorem sortedChanges_of_validate {previous : String} {changes : List DomainChange}
    (h : validateChanges previous changes = .ok ()) :
    (changes.Pairwise fun a b => a.key < b.key) ∧ (previous ≠ "" → ∀ c ∈ changes, previous < c.key) := by
  induction changes generalizing previous with
  | nil => simp
  | cons c rest ih =>
    unfold validateChanges at h
    split_ifs at h with hbad
    obtain ⟨hsorted, hlater⟩ := ih h
    simp only [Bool.or_eq_true, Bool.and_eq_true, Bool.not_eq_true', decide_eq_true_eq, not_or, not_and] at hbad
    obtain ⟨⟨⟨hkey, horder⟩, _⟩, _⟩ := hbad
    have hnonempty : c.key ≠ "" := by
      intro hempty
      simp [validDomainText, hempty] at hkey
    refine ⟨pairwise_cons.mpr ⟨hlater hnonempty, hsorted⟩, fun hprevious => ?_⟩
    have hfirst : previous < c.key := not_le.mp (horder hprevious)
    intro c' hc'
    rcases mem_cons.mp hc' with rfl | hc'
    · exact hfirst
    · exact hfirst.trans (hlater hnonempty c' hc')

theorem sortedDeltas_of_validate {previous : Nat} {deltas : List DomainDelta}
    (h : validateDeltas previous deltas = .ok ()) :
    SortedDeltas deltas := by
  induction deltas generalizing previous with
  | nil => simp [SortedDeltas]
  | cons d rest ih =>
    unfold validateDeltas at h
    split_ifs at h
    obtain ⟨_, hchanges, hrest⟩ := bind_ok h
    intro d' hd'
    rcases mem_cons.mp hd' with rfl | hd'
    · exact (sortedChanges_of_validate hchanges).1
    · exact ih hrest d' hd'

theorem sortedDeltas_of_valid {encodes : DomainHead → Bool} (h : validateDomainHead encodes head = .ok ()) :
    SortedDeltas head.deltas := by
  obtain ⟨_, _, h⟩ := bind_ok h
  obtain ⟨_, _, h⟩ := bind_ok h
  obtain ⟨_, _, h⟩ := bind_ok h
  obtain ⟨_, _, h⟩ := bind_ok h
  obtain ⟨_, hdeltas, _⟩ := bind_ok h
  exact sortedDeltas_of_validate hdeltas

/-! ## Compaction -/

theorem sameState_compactHead (hsorted : SortedDeltas head.deltas)
    (h : compactHead now head = .ok next) : SameState head next := by
  have hdenote := denote_compactHead h hsorted
  obtain ⟨outcomes, expiry, _, rfl⟩ := compactHead_ok h
  exact ⟨rfl, values_of_denote hdenote, lists_of_base rfl (apply_foldDeltas head.base head.deltas)⟩

theorem compaction_outcomes (h : compactHead now head = .ok next) :
    (∀ id, SameOutcome now head next id) ↔ ∀ id, OutcomeKept now head id = true := by
  obtain ⟨outcomes, expiry, hp, rfl⟩ := compactHead_ok h
  exact forall_congr' fun id => sameOutcome_iff rfl (get_pruned rfl hp)

theorem sameState_materializedHead {codec : Codec} {m : Mutation} {fingerprint : String}
    (hsorted : SortedDeltas head.deltas) (hnormal : m.Normal)
    (h : materializedHead codec now head m fingerprint = .ok next) :
    SameState (appendDelta codec head m fingerprint) next := by
  have hdenote : denote next = denote (appendDelta codec head m fingerprint) := by
    rw [denote_appendDelta, denote_materializedHead h hsorted hnormal.sorted]
  obtain ⟨outcomes, expiry, _, rfl⟩ := materializedHead_ok h
  exact ⟨rfl, values_of_denote hdenote, lists_of_base rfl (foldedBase_appendDelta codec head m fingerprint).symm⟩

/-- For every valid registered head and every time: the head that compaction publishes has the revision, the values and
the lists of the old one, and finds the same outcomes from then on exactly if no record of any ID is lost. The head of a
materialized mutation is that of the mutation as one more delta, and for the other IDs the same holds. -/
theorem compaction_keeps_iff {codec : Codec} {head : DomainHead}
    (hvalid : validateDomainHead codec.encodesHead head = .ok ())
    (now : Time) : (∀ next, compactHead now head = .ok next →
      SameState head next ∧ ((∀ id, SameOutcome now head next id) ↔ ∀ id, OutcomeKept now head id = true)) ∧
    ∀ m fingerprint next, m.Normal → materializedHead codec now head m fingerprint = .ok next →
      SameState (appendDelta codec head m fingerprint) next ∧
        ((∀ id, id ≠ m.id → SameOutcome now head next id) ↔ ∀ id, id ≠ m.id → OutcomeKept now head id = true) := by
  have hsorted := sortedDeltas_of_valid hvalid
  refine ⟨fun next hnext => ⟨sameState_compactHead hsorted hnext, compaction_outcomes hnext⟩,
    fun m fingerprint next hnormal hnext => ⟨sameState_materializedHead hsorted hnormal hnext,
      forall₂_congr fun id hid => ?_⟩⟩
  obtain ⟨outcomes, expiry, hp, rfl⟩ := materializedHead_ok hnext
  refine sameOutcome_iff rfl (get_pruned ?_ hp)
  rw [OutcomeBatch.get_record]
  exact if_neg hid.symm

/-- The head with one retained delta keeps its meaning when it is folded at time one. -/
theorem usedHead_kept : SameState usedHead storedHead ∧ ∀ id, SameOutcome 1 usedHead storedHead id := by
  have hvalid : validateDomainHead Codec.plain.encodesHead usedHead = .ok () := by decide +kernel
  obtain ⟨hstate, houtcomes⟩ := (compaction_keeps_iff hvalid 1).1 storedHead (by decide +kernel)
  refine ⟨hstate, houtcomes.mpr fun id => ?_⟩
  have hdelta : ∀ d ∈ usedHead.deltas, d.retainUntil = 10 := by decide +kernel
  have hstored : usedHead.outcomes.get id = none := rfl
  unfold OutcomeKept
  cases hlive : liveDelta 1 usedHead id with
  | none => rfl
  | some d =>
    have hd := hdelta d (List.mem_reverse.mp (List.mem_of_find?_eq_some hlive))
    simp only [storedExpired, hstored, Option.all_none, Bool.and_true, List.all_eq_true]
    intro d' hd'
    simp [hdelta d' hd', hd]

/-- The outcome of the second use is retained until 100, but the fold at 20 consumes the expiry entry of the first use
and drops it. -/
theorem reusedHead_lost : validateDomainHead Codec.plain.encodesHead reusedHead = .ok () ∧ reusedHead.frozen = false ∧
    compactHead 20 reusedHead = .ok prunedHead ∧
    lookupOutcomeAtHead 20 reusedHead "m" = .ok (some (publishedOutcome secondUse "m(k)" 2)) ∧
    lookupOutcomeAtHead 20 prunedHead "m" = .ok none := by
  decide +kernel

end EndlessFS
