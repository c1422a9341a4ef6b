import EndlessFS.Domain.Semantics

/-!
# EndlessFS.Domain.History

The abstract life of one domain head. `HeadAction.Step` lists everything that may replace a head by
another one, with all the checks the source makes before it; `Linear` says of the heads stored under
one key that each was made from the one before it by such an action.

* `Step.classify`: an action either keeps the map and the revision, or raises the revision by one
  and applies one mutation whose preconditions hold.
* `Linear.published`: every outcome a head records comes from a mutation in the history.
-/

namespace EndlessFS

open Except List SortedMap
open Conc (Write)

/-- What a replica can do to a head. The times are the clock readings the action was based on. -/
inductive HeadAction where
  | register
  | freeze (epoch : Nat)
  | unfreeze (epoch : Nat)
  | compact (now : Time)
  | append (m : Mutation) (fingerprint : String) (now : Time)
  | materialize (m : Mutation) (fingerprint : String) (preparedAt now : Time)

def HeadAction.site : HeadAction → Site
  | .append m _ _ => .publish m
  | .materialize m _ _ _ => .publish m
  | .freeze epoch => .freezeHead epoch
  | .unfreeze epoch => .unfreezeHead epoch
  | _ => .plain

def HeadAction.mutation : HeadAction → Option (Mutation × String)
  | .append m fingerprint _ => some (m, fingerprint)
  | .materialize m fingerprint _ _ => some (m, fingerprint)
  | _ => none

variable {action : HeadAction} {m : Mutation} {fingerprint : String}

theorem HeadAction.site_of_mutation (h : action.mutation = some (m, fingerprint)) : action.site = .publish m := by
  cases action <;> cases h <;> rfl

theorem HeadAction.mutation_of_site (h : action.site = .publish m) :
    ∃ fingerprint, action.mutation = some (m, fingerprint) := by
  cases action <;> cases h <;> exact ⟨_, rfl⟩

def HeadAction.Within (before after : Time) : HeadAction → Prop
  | .compact now => before ≤ now ∧ now ≤ after
  | .append _ _ now => before ≤ now ∧ now ≤ after
  | .materialize _ _ preparedAt now => preparedAt ≤ now ∧ before ≤ now ∧ now ≤ after
  | _ => True

/-- The action is possible on the first head and gives the second one. -/
inductive HeadAction.Step (codec : Codec) (ref : DomainRef) : HeadAction → DomainHead → DomainHead → Prop where
  | register {head : DomainHead} (unregistered : head.registered = false) :
      Step codec ref .register head { head with registered := true }
  | freeze {head : DomainHead} {epoch : Nat} (registered : head.registered = true)
      (unlocked : transitionLockAtHead ref head = .ok none) (thawed : head.frozen = false)
      (positive : epoch ≠ 0) :
      Step codec ref (.freeze epoch) head { head with frozen := true, freezeEpoch := epoch }
  | unfreeze {head : DomainHead} {epoch : Nat} (frozen : head.frozen = true)
      (bound : head.freezeEpoch = epoch) :
      Step codec ref (.unfreeze epoch) head { head with frozen := false, freezeEpoch := 0 }
  | compact {head next : DomainHead} {now : Time} (thawed : head.frozen = false)
      (folded : compactHead now head = .ok next) : Step codec ref (.compact now) head next
  | append {head : DomainHead} {m : Mutation} {fingerprint : String} {now : Time}
      (normal : m.Normal) (retained : m.retainUntil ≠ 0) (intent : fingerprint = codec.fingerprint m.changes m.result)
      (unrecorded : lookupOutcomeAtHead now head m.id = .ok none)
      (admitted : admitMutation ref head m = .ok ()) :
      Step codec ref (.append m fingerprint now) head (appendDelta codec head m fingerprint)
  | materialize {head next : DomainHead} {m : Mutation} {fingerprint : String} {preparedAt now : Time}
      (normal : m.Normal) (retained : m.retainUntil ≠ 0) (intent : fingerprint =
        codec.materializedFingerprint m.changes m.result)
      (registered : head.registered = true)
      (unrecorded : lookupOutcomeAtHead now head m.id = .ok none)
      (admitted : admitMutation ref head m = .ok ())
      (folded : materializedHead codec preparedAt head m fingerprint = .ok next) :
      Step codec ref (.materialize m fingerprint preparedAt now) head next

/-! ## One step -/

structure Keeps (head next : DomainHead) : Prop where
  revision : next.revision = head.revision
  map : denote next = denote head

/-- One mutation is applied to a map in which all its preconditions hold. -/
structure Publishes (codec : Codec) (m : Mutation) (fingerprint : String) (head next : DomainHead) : Prop where
  revision : next.revision = head.revision + 1
  preconditions : ∀ change ∈ m.changes, change.HoldsIn (denote head)
  map : denote next = m.effect codec fingerprint (denote head)
  intent : fingerprint = codec.fingerprint m.changes m.result ∨
    fingerprint = codec.materializedFingerprint m.changes m.result

theorem rejectIf_ok {rejected : Bool} {e : Error} {u : Unit} (h : rejectIf rejected e = .ok u) : rejected = false :=
  rejectIf_eq_ok_iff.mp h

structure Admitted (ref : DomainRef) (head : DomainHead) (m : Mutation) : Prop where
  revision : m.expectedRevision.isSome → m.expectedRevision = some head.revision
  thawed : head.frozen = false
  lock : ∃ o, transitionLockAtHead ref head = .ok o ∧ ∀ l ∈ o, m.transitionID = l.1.transitionID
  valid : validateMutationAtHead head m.changes = .ok ()

variable {ref : DomainRef} {head : DomainHead}

theorem admitMutation_ok (h : admitMutation ref head m = .ok ()) : Admitted ref head m := by
  obtain ⟨_, hrev, h⟩ := bind_ok h
  obtain ⟨_, hfrozen, h⟩ := bind_ok h
  obtain ⟨o, ho, h⟩ := bind_ok h
  obtain ⟨_, hlock, hvalid⟩ := bind_ok h
  refine ⟨fun hsome => ?_, rejectIf_ok hfrozen, ⟨o, ho, fun l hl => ?_⟩, hvalid⟩
  · simpa [hsome] using rejectIf_ok hrev
  · obtain rfl : o = some l := hl
    simpa using rejectIf_ok hlock

variable {codec : Codec} {next : DomainHead}

section

variable (h : action.Step codec ref head next)

include h

theorem HeadAction.Step.classify (hs : SortedDeltas head.deltas) : (action.mutation = none ∧ Keeps head next) ∨
      ∃ m fingerprint, action.mutation = some (m, fingerprint) ∧ Publishes codec m fingerprint head next := by
  cases h with
  | register => exact .inl ⟨rfl, rfl, rfl⟩
  | freeze => exact .inl ⟨rfl, rfl, rfl⟩
  | unfreeze => exact .inl ⟨rfl, rfl, rfl⟩
  | compact thawed folded =>
    refine .inl ⟨rfl, ?_, denote_compactHead folded hs⟩
    obtain ⟨outcomes, expiry, -, rfl⟩ := compactHead_ok folded
    rfl
  | append normal retained intent unrecorded admitted =>
    refine .inr ⟨_, _, rfl, rfl, ?_, denote_appendDelta codec head _ _, .inl intent⟩
    exact (validateMutationAtHead_iff head _).mp (admitMutation_ok admitted).valid
  | materialize normal retained intent registered unrecorded admitted folded =>
    refine .inr ⟨_, _, rfl, ?_, ?_, denote_materializedHead folded hs normal.sorted, .inr intent⟩
    · obtain ⟨outcomes, expiry, -, rfl⟩ := materializedHead_ok folded
      rfl
    · exact (validateMutationAtHead_iff head _).mp (admitMutation_ok admitted).valid

theorem HeadAction.Step.sortedDeltas (hs : SortedDeltas head.deltas) : SortedDeltas next.deltas := by
  cases h with
  | register => exact hs
  | freeze => exact hs
  | unfreeze => exact hs
  | compact thawed folded =>
    obtain ⟨outcomes, expiry, -, rfl⟩ := compactHead_ok folded
    exact fun d hd => by cases hd
  | append normal retained intent unrecorded admitted =>
    intro d hd
    rcases mem_append.mp hd with hd | hd
    · exact hs d hd
    · rw [mem_singleton.mp hd]
      exact sorted_stored normal.sorted
  | materialize normal retained intent registered unrecorded admitted folded =>
    obtain ⟨outcomes, expiry, -, rfl⟩ := materializedHead_ok folded
    exact fun d hd => by cases hd

/-- What both ways to publish a mutation check. -/
theorem HeadAction.Step.checked (hm : action.mutation = some (m, fingerprint)) :
    (m.Normal ∧ m.retainUntil ≠ 0) ∧ admitMutation ref head m = .ok () ∧ ∀ t t', action.Within t t' →
      ∃ now ≤ t', lookupOutcomeAtHead now head m.id = .ok none := by
  cases h with
  | register => cases hm
  | freeze => cases hm
  | unfreeze => cases hm
  | compact thawed folded => cases hm
  | append normal retained intent unrecorded admitted =>
    cases hm
    exact ⟨⟨normal, retained⟩, admitted, fun t t' hwithin => ⟨_, hwithin.2, unrecorded⟩⟩
  | materialize normal retained intent registered unrecorded admitted folded =>
    cases hm
    exact ⟨⟨normal, retained⟩, admitted, fun t t' hwithin => ⟨_, hwithin.2.2, unrecorded⟩⟩

end

/-! ## Recorded outcomes -/

def Records (head : DomainHead) (id fingerprint : String) : Prop :=
  (∃ d ∈ head.deltas, d.mutationID = id ∧ d.fingerprint = fingerprint) ∨
    ∃ k o, head.outcomes.get k = some o ∧ o.mutationID = id ∧ o.fingerprint = fingerprint

variable {now : Time} {id : String}

theorem records_of_lookup {outcome : Outcome}
    (h : lookupOutcomeAtHead now head id = .ok (some outcome)) : Records head id outcome.fingerprint := by
  unfold lookupOutcomeAtHead at h
  split at h
  · rename_i d hd
    cases h
    have hid := find?_some hd
    simp only [Bool.and_eq_true, decide_eq_true_eq] at hid
    exact .inl ⟨d, mem_reverse.mp (mem_of_find?_eq_some hd), hid.1, rfl⟩
  · split at h
    · cases h
    · rename_i recorded hr
      split at h
      · cases h
      · rename_i hid
        split at h
        · cases h
          exact .inr ⟨_, recorded, hr, by simpa using hid, rfl⟩
        · cases h

/-- Every update of a batch that stores something stores an outcome that satisfies `P` under its own
ID, or the expiry of such an outcome. -/
structure OutcomeBatch.All (P : DomainOutcome → Prop) (batch : OutcomeBatch) : Prop where
  outcomes : ∀ k o, batch.outcomes.get k = some (some o) → P o ∧ o.mutationID = k
  expiries : ∀ k id, batch.expiries.get k = some (some id) →
    ∃ o, P o ∧ o.mutationID = id ∧ k = expiryKey o.retainUntil id

variable {P : DomainOutcome → Prop} {batch : OutcomeBatch}

theorem OutcomeBatch.All.record
    {recorded : DomainOutcome} (h : batch.All P) (hr : P recorded) : (batch.record recorded).All P := by
  constructor
  · intro k o hk
    simp only [OutcomeBatch.record, get_set] at hk
    split at hk
    · rename_i hid
      simp only [Option.some.injEq] at hk
      exact hk ▸ ⟨hr, hid⟩
    · exact h.outcomes k o hk
  · intro k id hk
    simp only [OutcomeBatch.record, get_set] at hk
    split at hk
    · rename_i hkey
      simp only [Option.some.injEq] at hk
      exact ⟨recorded, hr, hk, by rw [← hk, hkey]⟩
    · exact h.expiries k id hk

theorem foldOutcomes_all {deltas : List DomainDelta} :
    (foldOutcomes now deltas).All fun o => ∃ d ∈ deltas, d.recorded = o := by
  have hgeneral : ∀ l : List DomainDelta, (∀ d ∈ l, d ∈ deltas) →
      (l.foldl (fun batch delta => if now < delta.retainUntil then batch.record delta.recorded else batch)
        ({} : OutcomeBatch)).All fun o => ∃ d ∈ deltas, d.recorded = o := by
    intro l hl
    induction l using reverseRecOn with
    | nil => exact ⟨fun k o hk => by simp at hk, fun k id hk => by simp at hk⟩
    | append_singleton l delta ih =>
      have ih' := ih fun d hd => hl d (by simp [hd])
      rw [foldl_append, foldl_cons, foldl_nil]
      split
      · exact ih'.record ⟨delta, hl delta (by simp), rfl⟩
      · exact ih'
  exact hgeneral deltas fun d hd => hd

theorem OutcomeBatch.All.expire (h : batch.All P)
    (key : ExpiryKey) (mutationID : String) : (batch.expire key mutationID).All P := by
  constructor
  · intro k o hk
    simp only [OutcomeBatch.expire] at hk
    split at hk
    · exact h.outcomes k o hk
    · rw [get_set] at hk
      split at hk
      · cases hk
      · exact h.outcomes k o hk
  · intro k id hk
    simp only [OutcomeBatch.expire, get_set] at hk
    split at hk
    · cases hk
    · exact h.expiries k id hk

theorem pruneEntries_all {entries : List (ExpiryKey × String)}
    {pruned : OutcomeBatch} (h : pruneEntries now entries batch = .ok pruned) (hb : batch.All P) : pruned.All P := by
  induction entries generalizing batch with
  | nil => cases h; exact hb
  | cons e rest ih =>
    unfold pruneEntries at h
    split at h
    · cases h
    · split at h
      · cases h; exact hb
      · split at h
        · cases h
        · exact ih h (hb.expire e.1 e.2)

theorem get_apply_some {K V : Type} [LinearOrder K] {m : SortedMap K V} {batch : SortedMap K (Option V)}
    {k : K} {v : V} (h : (m.apply batch.entries).get k = some v) : m.get k = some v ∨ batch.get k = some (some v) := by
  rw [get_apply] at h
  cases hb : batch.get k with
  | none => exact .inl (by simpa [hb] using h)
  | some u =>
    rw [hb, Option.getD_some] at h
    exact .inr (by rw [h])

def HeadAction.Carries (codec : Codec) (action : HeadAction) (head : DomainHead) (d : DomainDelta) : Prop :=
  d ∈ head.deltas ∨
    ∃ m fingerprint, action.mutation = some (m, fingerprint) ∧
      m.delta codec fingerprint (head.revision + 1) = d

/-- What a step can leave in the window and in the two trees of outcomes. -/
structure HeadAction.Tables (codec : Codec) (action : HeadAction) (head next : DomainHead) : Prop where
  deltas : ∀ d ∈ next.deltas, action.Carries codec head d
  outcomes : ∀ k o, next.outcomes.get k = some o → head.outcomes.get k = some o ∨
    ∃ d, action.Carries codec head d ∧ d.recorded = o ∧ d.mutationID = k
  expiry : ∀ k id, next.outcomeExpiry.get k = some id → head.outcomeExpiry.get k = some id ∨
    ∃ d, action.Carries codec head d ∧ d.mutationID = id ∧ k = expiryKey d.retainUntil id

theorem HeadAction.Tables.of_prune (h : pruneExpiredOutcomes now head batch = .ok (next.outcomes, next.outcomeExpiry))
    (hb : batch.All fun o => ∃ d, action.Carries codec head d ∧ d.recorded = o) (hd : next.deltas = []) :
    action.Tables codec head next := by
  obtain ⟨pruned, hp, h⟩ := bind_ok h
  simp only [pure_eq_ok, ok.injEq, Prod.mk.injEq] at h
  have hall := pruneEntries_all hp hb
  refine ⟨fun d hmem => absurd hmem (by simp [hd]), fun k o hk => ?_, fun k id hk => ?_⟩
  · rw [← h.1] at hk
    rcases get_apply_some hk with hk | hk
    · exact .inl hk
    · obtain ⟨⟨d, hcarries, rfl⟩, hid⟩ := hall.outcomes k o hk
      exact .inr ⟨d, hcarries, rfl, hid⟩
  · rw [← h.2] at hk
    rcases get_apply_some hk with hk | hk
    · exact .inl hk
    · obtain ⟨o, ⟨d, hcarries, rfl⟩, hid, rfl⟩ := hall.expiries k id hk
      exact .inr ⟨d, hcarries, hid, rfl⟩

theorem HeadAction.Step.tables (h : action.Step codec ref head next) : action.Tables codec head next := by
  have hwindow : ∀ (action : HeadAction) {now : Time}, (foldOutcomes now head.deltas).All fun o =>
      ∃ d, action.Carries codec head d ∧ d.recorded = o := by
    intro action now
    have hall := @foldOutcomes_all now head.deltas
    refine ⟨fun k o hk => ?_, fun k id hk => ?_⟩
    · obtain ⟨⟨d, hd, ho⟩, hid⟩ := hall.outcomes k o hk
      exact ⟨⟨d, .inl hd, ho⟩, hid⟩
    · obtain ⟨o, ⟨d, hd, ho⟩, hid⟩ := hall.expiries k id hk
      exact ⟨o, ⟨d, .inl hd, ho⟩, hid⟩
  cases h with
  | register => exact ⟨fun _ => .inl, fun _ _ => .inl, fun _ _ => .inl⟩
  | freeze => exact ⟨fun _ => .inl, fun _ _ => .inl, fun _ _ => .inl⟩
  | unfreeze => exact ⟨fun _ => .inl, fun _ _ => .inl, fun _ _ => .inl⟩
  | compact thawed folded =>
    obtain ⟨outcomes, expiry, hp, rfl⟩ := compactHead_ok folded
    exact .of_prune hp (hwindow _) rfl
  | append normal retained intent unrecorded admitted =>
    refine ⟨fun d hd => ?_, fun _ _ => .inl, fun _ _ => .inl⟩
    rcases mem_append.mp hd with hd | hd
    · exact .inl hd
    · exact .inr ⟨_, _, rfl, (mem_singleton.mp hd).symm⟩
  | materialize normal retained intent registered unrecorded admitted folded =>
    obtain ⟨outcomes, expiry, hp, rfl⟩ := materializedHead_ok folded
    exact .of_prune hp ((hwindow _).record ⟨_, .inr ⟨_, _, rfl, rfl⟩, rfl⟩) rfl

theorem HeadAction.Step.records (h : action.Step codec ref head next) (hr : Records next id fingerprint) :
    Records head id fingerprint ∨ ∃ m, action.mutation = some (m, fingerprint) ∧ m.id = id := by
  have hcarries : ∀ d, action.Carries codec head d → d.mutationID = id → d.fingerprint = fingerprint →
      Records head id fingerprint ∨ ∃ m, action.mutation = some (m, fingerprint) ∧ m.id = id := by
    rintro d (hd | ⟨m, fp, hm, rfl⟩) hid hfp
    · exact .inl (.inl ⟨d, hd, hid, hfp⟩)
    · obtain rfl : fp = fingerprint := hfp
      exact .inr ⟨m, hm, hid⟩
  rcases hr with ⟨d, hd, hid, hfp⟩ | ⟨k, o, hk, hid, hfp⟩
  · exact hcarries d (h.tables.deltas d hd) hid hfp
  · rcases h.tables.outcomes k o hk with hk | ⟨d, hd, rfl, -⟩
    · exact .inl (.inr ⟨k, o, hk, hid, hfp⟩)
    · exact hcarries d hd hid hfp

/-! ## Whole histories -/

/-- The heads stored under one key, newest first: the first is the inert head of registration, and
every other one was made from its predecessor by an action. -/
def Linear (codec : Codec) (ref : DomainRef) : List (Write Site DomainHead) → Prop
  | [] => True
  | [w] => w.value = initialHead ref ∧ w.site = .plain
  | w' :: w :: rest =>
    (∃ action : HeadAction, action.Step codec ref w.value w'.value ∧ action.Within w.time w'.time ∧
      w'.site = action.site) ∧ Linear codec ref (w :: rest)

def PublishedIn (codec : Codec) (m : Mutation) (fingerprint : String) (writes : List (Write Site DomainHead)) :
    Prop :=
  ∃ newer w' w older, writes = newer ++ w' :: w :: older ∧ w'.site = .publish m ∧
    Publishes codec m fingerprint w.value w'.value

variable {writes : List (Write Site DomainHead)}

theorem PublishedIn.mono {writes' : List (Write Site DomainHead)} (h : PublishedIn codec m fingerprint writes)
    (hs : writes <:+ writes') : PublishedIn codec m fingerprint writes' := by
  obtain ⟨newer, w', w, older, rfl, hp⟩ := h
  obtain ⟨front, rfl⟩ := hs
  exact ⟨front ++ newer, w', w, older, by simp, hp⟩

theorem Linear.sortedDeltas (h : Linear codec ref writes) : ∀ w ∈ writes, SortedDeltas w.value.deltas := by
  induction writes with
  | nil => exact fun w hw => by cases hw
  | cons w' rest ih =>
    cases rest with
    | nil =>
      intro w hw
      rw [mem_singleton.mp hw, h.1]
      exact fun d hd => by cases hd
    | cons w rest =>
      obtain ⟨⟨action, hstep, -⟩, hrest⟩ := h
      intro u hu
      rcases mem_cons.mp hu with rfl | hu
      · exact hstep.sortedDeltas (ih hrest w (.head _))
      · exact ih hrest u hu

/-- Every outcome that a head of the history records comes from a mutation of the history. -/
theorem Linear.published (h : Linear codec ref writes) {w : Write Site DomainHead} (hw : w ∈ writes)
    (hr : Records w.value id fingerprint) : ∃ m, m.id = id ∧ PublishedIn codec m fingerprint writes := by
  induction writes generalizing w with
  | nil => cases hw
  | cons w' rest ih =>
    cases rest with
    | nil =>
      rw [mem_singleton.mp hw, h.1] at hr
      rcases hr with ⟨d, hd, -⟩ | ⟨k, o, hk, -⟩
      · cases hd
      · cases hk
    | cons v rest =>
      have hall := h.sortedDeltas
      obtain ⟨⟨action, hstep, -, hsite⟩, hrest⟩ := h
      have hold : ∀ u ∈ v :: rest, Records u.value id fingerprint →
          ∃ m, m.id = id ∧ PublishedIn codec m fingerprint (w' :: v :: rest) := by
        intro u hu hru
        obtain ⟨m, hm, hp⟩ := ih hrest hu hru
        exact ⟨m, hm, hp.mono (suffix_cons _ _)⟩
      rcases mem_cons.mp hw with rfl | hw
      · rcases hstep.records hr with hr | ⟨m, hm, hid⟩
        · exact hold v (.head _) hr
        · -- the last action published it itself
          rcases hstep.classify (hall v (by simp)) with ⟨hnone, -⟩ | ⟨m', fp', hm', hp⟩
          · rw [hnone] at hm
            cases hm
          · rw [hm'] at hm
            cases hm
            exact ⟨m, hid, [], w, v, rest, rfl, hsite.trans (action.site_of_mutation hm'), hp⟩
      · exact hold w hw hr

end EndlessFS
