import EndlessFS.Domain.Retention
import EndlessFS.Transition.Atomic

/-!
# EndlessFS.Transition.Locks

Who holds the lock of a domain. The history of the domain determines it: a plan holds the lock from the
publication of its prepare mutation to the publication of its commit or abort mutation.

* `TransitionPlan.effect_prepared`, `TransitionPlan.effect_final`: what the mutations of a plan do to the lock.
* `Holds`: the plan has been prepared in a history and not been finalized.
-/

namespace EndlessFS

open List TransitionPlan
open Conc (Store Write)

variable {codec : Codec} {ref : DomainRef} {q : TransitionPlan} {m : Mutation}

theorem prepareID_mem (codec : Codec) (q : TransitionPlan) : q.prepareID codec ∈ q.reserved codec := by
  simp [reserved]

theorem transitionID_mem (codec : Codec) (q : TransitionPlan) : q.transitionID ∈ q.reserved codec := by
  simp [reserved]

theorem abortID_mem (codec : Codec) (q : TransitionPlan) : q.abortID codec ∈ q.reserved codec := by
  simp [reserved]

/-! ## Effects on the lock -/

theorem find_of_sorted {changes : List Change} {change : Change} (hs : SortedChanges changes)
    (hmem : change ∈ changes) : (changes.find? fun c => c.key = change.key) = some change := by
  induction changes with
  | nil => cases hmem
  | cons c rest ih =>
    obtain ⟨hfirst, hrest⟩ := pairwise_cons.mp hs
    rw [find?_cons]
    rcases mem_cons.mp hmem with rfl | hmem
    · simp
    · rw [show decide (c.key = change.key) = false from decide_eq_false (hfirst change hmem).ne]
      exact ih hrest hmem

variable {fingerprint : String} {map : ValueMap}

theorem Mutation.effect_lock_of_keys (h : ∀ change ∈ m.changes, change.key ≠ transitionLockKey) :
    m.effect codec fingerprint map transitionLockKey = map transitionLockKey := by
  unfold Mutation.effect
  rw [find?_eq_none.mpr fun c hc => by simpa using h c hc]

def TransitionPlan.lockChange (q : TransitionPlan) (ref : DomainRef) : Change :=
  { key := transitionLockKey, require := .absent, value := .lock (q.lock ref) }

theorem TransitionPlan.prepared_changes (codec : Codec) (q : TransitionPlan) (ref : DomainRef) :
    (q.prepared codec ref).changes = [q.lockChange ref] := rfl

def TransitionPlan.lockEntry (codec : Codec) (q : TransitionPlan) (ref : DomainRef) (fingerprint : String) :
    DomainEntry where
  value := .lock (q.lock ref)
  logicalVersion := codec.version (q.prepareID codec) fingerprint transitionLockKey (.lock (q.lock ref))

theorem TransitionPlan.effect_prepared : (q.prepared codec ref).effect codec fingerprint map transitionLockKey =
      some (q.lockEntry codec ref fingerprint) := by
  unfold Mutation.effect
  rfl

theorem TransitionPlan.lockRemoval_mem_final (codec : Codec) (q : TransitionPlan) (a : TransitionParticipant)
    (committed : Bool) (version : String) : lockRemoval version ∈ (q.final codec a committed version).changes := by
  cases committed with
  | true => exact (perm_insertionSort _ _).symm.subset (.head _)
  | false => exact .head _

variable {version : String} {a : TransitionParticipant} {committed : Bool}

theorem TransitionPlan.effect_final (hs : SortedChanges (q.final codec a committed version).changes) :
    (q.final codec a committed version).effect codec fingerprint map transitionLockKey = none := by
  unfold Mutation.effect
  have hfind := find_of_sorted hs (q.lockRemoval_mem_final codec a committed version)
  rw [show (lockRemoval version).key = transitionLockKey from rfl] at hfind
  rw [hfind]
  rfl

variable {head : DomainHead}

theorem transitionLockAtHead_none (h : denote head transitionLockKey = none) :
    transitionLockAtHead ref head = .ok none := by
  unfold transitionLockAtHead
  rw [Option.map_eq_none_iff.mp h]

theorem transitionLockAtHead_some (h : denote head transitionLockKey = some (q.lockEntry codec ref fingerprint))
    (hid : validDomainText q.transitionID = true) :
    ∃ value, transitionLockAtHead ref head = .ok (some (q.lock ref, value)) ∧
      value.logicalVersion = (q.lockEntry codec ref fingerprint).logicalVersion := by
  obtain ⟨value, hvalue, he⟩ := Option.map_eq_some_iff.mp h
  have hdata : value.data = .lock (q.lock ref) := congrArg DomainEntry.value he
  refine ⟨value, ?_, congrArg DomainEntry.logicalVersion he⟩
  unfold transitionLockAtHead
  simp only [hvalue, hdata]
  simp [lock, hid]

/-! ## The history of the lock -/

/-- The plan has been prepared in this history and not been finalized. -/
structure Holds (codec : Codec) (q : TransitionPlan) (writes : List (Write Site DomainHead)) : Prop where
  prepared : IDPublished (q.prepareID codec) writes
  uncommitted : ¬ IDPublished q.transitionID writes
  unaborted : ¬ IDPublished (q.abortID codec) writes

variable {id : String} {w : Write Site DomainHead} {writes : List (Write Site DomainHead)}

theorem IDPublished.cons_iff
    (hsite : w.site = .publish m) : IDPublished id (w :: writes) ↔ m.id = id ∨ IDPublished id writes := by
  unfold IDPublished
  simp [hsite, Site.publishes]

theorem IDPublished.cons_quiet {action : HeadAction} (hsite : w.site = action.site) (hquiet : action.mutation = none) :
    IDPublished id (w :: writes) ↔ IDPublished id writes := by
  have hnot : w.site.publishes id = false := by
    rw [hsite]
    cases action with
    | append m fingerprint now => cases hquiet
    | materialize m fingerprint preparedAt now => cases hquiet
    | _ => rfl
  unfold IDPublished
  simp [hnot]

variable {writes' : List (Write Site DomainHead)}

theorem Holds.congr (h : ∀ id ∈ q.reserved codec, (IDPublished id writes' ↔ IDPublished id writes)) :
    Holds codec q writes' ↔ Holds codec q writes := by
  have h₁ := h _ (prepareID_mem codec q)
  have h₂ := h _ (transitionID_mem codec q)
  have h₃ := h _ (abortID_mem codec q)
  exact ⟨fun h => ⟨h₁.mp h.1, fun hp => h.2 (h₂.mpr hp), fun hp => h.3 (h₃.mpr hp)⟩,
    fun h => ⟨h₁.mpr h.1, fun hp => h.2 (h₂.mp hp), fun hp => h.3 (h₃.mp hp)⟩⟩

theorem IDPublished.cons_other (hsite : w.site = .publish m) (hid : m.id ∉ q.reserved codec) :
    ∀ id ∈ q.reserved codec, (IDPublished id (w :: writes) ↔ IDPublished id writes) := by
  intro id hmem
  rw [IDPublished.cons_iff hsite]
  exact ⟨fun h => h.resolve_left fun heq => hid (heq ▸ hmem), .inr⟩

/-! ## Registered heads -/

theorem HeadAction.Step.registered {action : HeadAction} {head next : DomainHead} (h : action.Step codec ref head next)
    (hreg : head.registered = true ∨ action.mutation ≠ none) : next.registered = true := by
  cases h with
  | register => rfl
  | freeze registered => exact registered
  | unfreeze => exact hreg.resolve_right fun h => h rfl
  | compact thawed folded =>
    obtain ⟨outcomes, expiry, -, rfl⟩ := compactHead_ok folded
    exact hreg.resolve_right fun h => h rfl
  | append normal retained intent unrecorded admitted => rfl
  | materialize normal retained intent registered unrecorded admitted folded =>
    obtain ⟨outcomes, expiry, -, rfl⟩ := materializedHead_ok folded
    exact registered

variable {rest : List (Write Site DomainHead)}

theorem Linear.registered (h : Linear codec ref (w :: rest)) (hp : IDPublished id (w :: rest)) :
    w.value.registered = true := by
  induction rest generalizing w with
  | nil =>
    obtain ⟨v, hv, hp⟩ := hp
    rw [mem_singleton.mp hv, h.2] at hp
    cases hp
  | cons v rest ih =>
    obtain ⟨⟨action, hstep, -, hsite⟩, hrest⟩ := h
    refine hstep.registered ?_
    by_cases hm : action.mutation = none
    · exact .inl (ih hrest ((IDPublished.cons_quiet hsite hm).mp hp))
    · exact .inr hm

variable {s t : Bucket}

theorem PublishedID.mono (h : PublishedID s ref id) (hle : Store.Le s t) : PublishedID t ref id := by
  obtain ⟨w, hw, hp⟩ := h
  exact ⟨w, (hle.writes _).subset hw, hp⟩

theorem Histories.current_of_published (h : Histories codec s) (hp : PublishedID s ref id) :
    ∃ w rest, (s.cells (.head ref)).writes = w :: rest ∧ w.value.registered = true ∧
      currentSnapshot s ref = { head := w.value, version := some w.version } := by
  cases hc : (s.cells (.head ref)).current with
  | none =>
    obtain ⟨w, hw, -⟩ := hp
    rw [h.undeleted (.head ref) rfl hc] at hw
    cases hw
  | some p =>
    obtain ⟨w, rest, hw, hversion, hvalue⟩ := (h.wf _).current p.1 p.2 hc
    have hlinear := h.linear ref
    unfold PublishedID at hp
    rw [hw] at hlinear hp
    refine ⟨w, rest, hw, hlinear.registered hp, ?_⟩
    rw [currentSnapshot, hc, hversion, hvalue]

end EndlessFS
