import EndlessFS.Transition.Locks
import EndlessFS.Transition.Query

/-!
# EndlessFS.Transition.Snapshot

What a listing across domains shows of the transitions that run beside it. The query loads one head after
another and only reacts to locks. A transition that locks, commits and releases its domains between two of the
loads shows up in the second one alone.

* `Transitions`: the transitions of a run. Calls that bring the same one may differ in its retention.
* `LockState`: without any assumption on retention, a prepared transition keeps its lock until it is finalized.
* `unsplit`: what a run has to promise. `snapshot_unsplit`: then every snapshot shows transitions as a whole.
* `listing_splits_transition`: a run that does not, and a snapshot with one of two changes.
-/

namespace EndlessFS

open IDPublished List TransitionPlan
open Conc (Store Fault StoreOp PutCondition Write Policy Reach)

/-! ## The transitions of a run -/

/-- The plans that calls bring. -/
structure Transitions (codec : Codec) where
  Mem : TransitionPlan → Prop
  valid : ∀ {q : TransitionPlan}, Mem q → validateTransitionPlan q = .ok ()
  keys : ∀ {q : TransitionPlan}, Mem q → ∀ a ∈ q.participants, ∀ change ∈ a.changes, change.key ≠ transitionLockKey
  ownIDs : ∀ {q : TransitionPlan}, Mem q → q.OwnIDs codec
  /-- Plans that share an ID are the same transition. -/
  distinct : ∀ {q r : TransitionPlan}, Mem q → Mem r → ∀ id ∈ q.reserved codec, id ∈ r.reserved codec →
    q.transitionID = r.transitionID ∧ q.participants = r.participants

variable {codec : Codec} {F : Transitions codec} {s t : Bucket} {ref : DomainRef} {q r : TransitionPlan} {m : Mutation}

structure Transitions.Unrelated (F : Transitions codec) (m : Mutation) : Prop where
  id : ∀ {q : TransitionPlan}, F.Mem q → m.id ∉ q.reserved codec
  transitionID : m.transitionID = ""
  keys : ∀ change ∈ m.changes, change.key ≠ transitionLockKey

/-- What is published in a domain while the transitions are run. -/
inductive Transitions.Legit (F : Transitions codec) (s : Bucket) (ref : DomainRef) : Mutation → Prop where
  | unrelated {m : Mutation} (h : F.Unrelated m) : F.Legit s ref m
  | prepared {q : TransitionPlan} {a : TransitionParticipant} (hq : F.Mem q) (ha : a ∈ q.participants)
      (href : a.ref = ref) : F.Legit s ref (q.prepared codec ref)
  | final {q : TransitionPlan} {a : TransitionParticipant} {d : TransitionDecision} (version : String)
      (hq : F.Mem q) (ha : a ∈ q.participants) (href : a.ref = ref) (decided : Decided s q d) :
      F.Legit s ref (q.final codec a d.committed version)

theorem Transitions.Legit.mono (h : F.Legit s ref m) (hle : Store.Le s t) : F.Legit t ref m := by
  cases h with
  | unrelated h => exact .unrelated h
  | prepared hq ha href => exact .prepared hq ha href
  | final version hq ha href decided => exact .final version hq ha href (decided.mono hle)

theorem TransitionPlan.prepareID_congr (h : q.transitionID = r.transitionID) :
    q.prepareID codec = r.prepareID codec := by
  unfold prepareID
  rw [h]

theorem TransitionPlan.abortID_congr (h : q.transitionID = r.transitionID) : q.abortID codec = r.abortID codec := by
  unfold abortID
  rw [h]

variable {d : TransitionDecision}

theorem Decided.congr (h : Decided s q d) (hid : q.transitionID = r.transitionID) : Decided s r d := by
  unfold Decided at h ⊢
  rwa [← hid]

theorem Transitions.validID (F : Transitions codec) (hq : F.Mem q) : validDomainText q.transitionID = true := by
  obtain ⟨_, hfirst, -⟩ := Except.bind_ok (F.valid hq)
  simp only [rejectIf_eq_ok_iff, Bool.or_eq_false_iff, Bool.not_eq_false'] at hfirst
  exact hfirst.1.1.1

theorem Transitions.foreign (F : Transitions codec) (hq : F.Mem q) (hr : F.Mem r)
    (hne : r.transitionID ≠ q.transitionID) : ∀ id ∈ r.reserved codec, id ∉ q.reserved codec :=
  fun id hid hid' => hne (F.distinct hr hq id hid hid').1

theorem Transitions.participants_eq (F : Transitions codec) (hq : F.Mem q) (hr : F.Mem r)
    (h : q.transitionID = r.transitionID) : q.participants = r.participants :=
  (F.distinct hq hr q.transitionID (transitionID_mem codec q) (h ▸ transitionID_mem codec r)).2

/-- Under an identifier of the transition, other than that of its preparation, stands a final mutation of it. -/
theorem Transitions.Legit.final_id (h : F.Legit s ref m) (hq : F.Mem q) (hmem : m.id ∈ q.reserved codec)
    (hprepare : q.prepareID codec ≠ m.id) : (∃ a ∈ q.participants, a.ref = ref) ∧
      ∃ d, Decided s q d ∧ m.id = if d.committed then q.transitionID else q.abortID codec := by
  cases h with
  | unrelated h => exact absurd hmem (h.id hq)
  | prepared hr ha href =>
    rename_i r a
    have hsame := F.distinct hr hq _ (prepareID_mem codec r) hmem
    exact absurd (prepareID_congr hsame.1).symm hprepare
  | final version hr ha href decided =>
    rename_i r a d
    have hsame := F.distinct hr hq _ (r.final_id_mem codec a d.committed version) hmem
    refine ⟨⟨a, hsame.2 ▸ ha, href⟩, d, decided.congr hsame.1, ?_⟩
    rw [final_id, hsame.1, abortID_congr hsame.1]

theorem Transitions.Legit.committed (h : F.Legit s ref m) (hq : F.Mem q) (hid : m.id = q.transitionID) :
    (∃ a ∈ q.participants, a.ref = ref) ∧ ∃ d, Decided s q d ∧ d.committed = true := by
  obtain ⟨ha, d, hd, hfinal⟩ := h.final_id hq (hid ▸ transitionID_mem codec q) (hid ▸ (F.ownIDs hq).prepare.symm)
  refine ⟨ha, d, hd, ?_⟩
  split at hfinal
  · assumption
  · exact absurd (hid.symm.trans hfinal) (F.ownIDs hq).abort

theorem Transitions.Legit.aborted (h : F.Legit s ref m) (hq : F.Mem q) (hid : m.id = q.abortID codec) :
    ∃ d, Decided s q d ∧ d.committed = false := by
  obtain ⟨_, d, hd, hfinal⟩ := h.final_id hq (hid ▸ abortID_mem codec q) (hid ▸ q.prepareID_ne_abortID codec)
  refine ⟨d, hd, ?_⟩
  split at hfinal
  · exact absurd (hfinal.symm.trans hid) (F.ownIDs hq).abort
  · simpa using ‹¬ d.committed = true›

/-! ## Locks -/

/-- The lock of the newest head of a history. -/
structure LockState (F : Transitions codec) (ref : DomainRef) (writes : List (Write Site DomainHead))
    (head : DomainHead) : Prop where
  held : ∀ {q : TransitionPlan}, F.Mem q → Holds codec q writes → ∃ r fingerprint, F.Mem r ∧
    r.transitionID = q.transitionID ∧ denote head transitionLockKey = some (r.lockEntry codec ref fingerprint)
  origin : ∀ {e : DomainEntry}, denote head transitionLockKey = some e → ∃ r fingerprint, F.Mem r ∧
    IDPublished (r.prepareID codec) writes ∧ e = r.lockEntry codec ref fingerprint

variable {writes writes' : List (Write Site DomainHead)} {w : Write Site DomainHead} {head head' : DomainHead}

theorem LockState.unchanged (h : LockState F ref writes head)
    (hids : ∀ {q : TransitionPlan}, F.Mem q → ∀ id ∈ q.reserved codec, (IDPublished id writes' ↔ IDPublished id writes))
    (hlock : denote head' transitionLockKey = denote head transitionLockKey) : LockState F ref writes' head' := by
  refine ⟨fun hq hholds => ?_, fun he => ?_⟩
  · rw [hlock]
    exact h.held hq ((Holds.congr (hids hq)).mp hholds)
  · rw [hlock] at he
    obtain ⟨r, fingerprint, hr, hp, rfl⟩ := h.origin he
    exact ⟨r, fingerprint, hr, (hids hr _ (prepareID_mem codec r)).mpr hp, rfl⟩

variable {fingerprint : String}

theorem LockState.prepare (h : LockState F ref writes head) (hr : F.Mem r)
    (hsite : w.site = .publish (r.prepared codec ref)) (hfree : denote head transitionLockKey = none)
    (hmap : denote w.value = (r.prepared codec ref).effect codec fingerprint (denote head)) :
    LockState F ref (w :: writes) w.value := by
  have hlock : denote w.value transitionLockKey = some (r.lockEntry codec ref fingerprint) := by
    rw [hmap, effect_prepared]
  refine ⟨fun {q} hq hholds => ?_, fun he => ?_⟩
  · by_cases hid : r.transitionID = q.transitionID
    · exact ⟨r, fingerprint, hr, hid, hlock⟩
    · have hother := F.foreign hq hr hid _ (prepareID_mem codec r)
      obtain ⟨_, _, -, -, he⟩ := h.held hq ((Holds.congr (cons_other hsite hother)).mp hholds)
      rw [hfree] at he
      cases he
  · rw [hlock, Option.some.injEq] at he
    exact ⟨r, fingerprint, hr, (cons_iff hsite).mpr (.inl rfl), he.symm⟩

theorem LockState.finalize (h : LockState F ref writes head) (hr : F.Mem r) {a : TransitionParticipant}
    {committed : Bool} {version : String} (hsite : w.site = .publish (r.final codec a committed version))
    (hsorted : SortedChanges (r.final codec a committed version).changes)
    (hadmitted : Admitted ref head (r.final codec a committed version))
    (hmap : denote w.value = (r.final codec a committed version).effect codec fingerprint (denote head)) :
    LockState F ref (w :: writes) w.value := by
  refine ⟨fun {q} hq hholds => ?_, fun he => ?_⟩
  · exfalso
    by_cases hid : r.transitionID = q.transitionID
    · have hpub : ∀ id, (r.final codec a committed version).id = id → IDPublished id (w :: writes) :=
        fun id hid => (cons_iff hsite).mpr (.inl hid)
      cases committed with
      | true => exact hholds.uncommitted (hpub _ hid)
      | false => exact hholds.unaborted (hpub _ (abortID_congr hid))
    · have hother := F.foreign hq hr hid _ (r.final_id_mem codec a committed version)
      obtain ⟨holder, _, hholder, hsame, he⟩ :=
        h.held hq ((Holds.congr (cons_other hsite hother)).mp hholds)
      obtain ⟨value, hvalue, -⟩ := transitionLockAtHead_some he (F.validID hholder)
      obtain ⟨o, ho, howner⟩ := hadmitted.lock
      rw [hvalue] at ho
      cases ho
      refine hid (Eq.trans ?_ ((howner _ rfl).trans hsame))
      cases committed <;> rfl
  · rw [hmap, effect_final hsorted] at he
    cases he

theorem Linear.lockState (h : Linear codec ref (w :: writes))
    (hlegit : ∀ v ∈ w :: writes, ∀ m, v.site = .publish m → F.Legit s ref m) :
      LockState F ref (w :: writes) w.value := by
  induction writes generalizing w with
  | nil =>
    refine ⟨fun _ hholds => ?_, fun he => ?_⟩
    · obtain ⟨v, hv, hp⟩ := hholds.prepared
      rw [mem_singleton.mp hv, h.2] at hp
      cases hp
    · rw [h.1] at he
      cases he
  | cons v rest ih =>
    have hall := h.sortedDeltas v (by simp)
    obtain ⟨⟨action, hstep, -, hsite⟩, hrest⟩ := h
    have hstate := ih hrest fun u hu => hlegit u (.tail _ hu)
    rcases hstep.classify hall with ⟨hquiet, hkeeps⟩ | ⟨m, fingerprint, hm, hpub⟩
    · exact hstate.unchanged (fun _ _ _ => cons_quiet hsite hquiet) (by rw [hkeeps.map])
    · have hpublish : w.site = .publish m := hsite.trans (action.site_of_mutation hm)
      cases hlegit w (.head _) m hpublish with
      | unrelated hother =>
        refine hstate.unchanged (fun hq => cons_other hpublish (hother.id hq)) ?_
        rw [hpub.map, Mutation.effect_lock_of_keys hother.keys]
      | prepared hr ha href =>
        rename_i r a
        refine hstate.prepare hr hpublish ?_ hpub.map
        exact (hpub.preconditions _ (by rw [r.prepared_changes]; exact mem_singleton_self _)).absent rfl
      | final version hr ha href decided =>
        exact hstate.finalize hr hpublish (hstep.checked hm).1.1.sorted
          (admitMutation_ok (hstep.checked hm).2.1) hpub.map

/-! ## The invariant -/

/-- The decisions of a transition: at most one, never deleted, and a commit follows the locks of all. -/
structure SoleDecision (s : Bucket) (codec : Codec) (q : TransitionPlan) : Prop where
  once : (s.cells (.decision q.transitionID)).writes.length ≤ 1
  kept : (s.cells (.decision q.transitionID)).current = none → (s.cells (.decision q.transitionID)).writes = []
  prepared : ∀ d, Decided s q d → d.committed = true → ∀ a ∈ q.participants, PublishedID s a.ref (q.prepareID codec)

structure QueryInv (F : Transitions codec) (s : Bucket) : Prop extends Histories codec s where
  published : ∀ ref, ∀ w ∈ (s.cells (.head ref)).writes, ∀ m, w.site = .publish m → F.Legit s ref m
  decision : ∀ {q : TransitionPlan}, F.Mem q → SoleDecision s codec q
  plans : ∀ id, ∀ w ∈ (s.cells (.plan id)).writes, F.Mem w.value

theorem SoleDecision.frame (h : SoleDecision s codec q) (hle : Store.Le s t)
    (hcell : t.cells (.decision q.transitionID) = s.cells (.decision q.transitionID)) : SoleDecision t codec q := by
  refine ⟨by rw [hcell]; exact h.once, by rw [hcell]; exact h.kept, fun d hd hcommitted a ha => ?_⟩
  unfold Decided at hd
  rw [hcell] at hd
  exact (h.prepared d hd hcommitted a ha).mono hle

theorem QueryInv.start (now : Time) : QueryInv F (bucketAt now) := by
  refine ⟨histories_bucketAt now, fun _ w hw => (by cases hw), fun _ => ⟨Nat.zero_le _, fun _ => rfl, ?_⟩,
    fun _ w hw => (by cases hw)⟩
  rintro d ⟨w, hw, -⟩
  cases hw

section

variable (h : QueryInv F s)

include h

theorem QueryInv.note (read : Site × Nat) : QueryInv F (s.note read) :=
  ⟨⟨h.wf, h.linear, h.undeleted⟩, fun ref w hw m hm => (h.published ref w hw m hm).mono (Store.le_note s read),
    fun hq => (h.decision hq).frame (Store.le_note s read) rfl, h.plans⟩

theorem QueryInv.advance (d : Nat) : QueryInv F (s.advance d) :=
  ⟨⟨h.wf.advance d, h.linear, h.undeleted⟩, fun ref w hw m hm => (h.published ref w hw m hm).mono
    (Store.le_advance d s), fun hq => (h.decision hq).frame (Store.le_advance d s) rfl, h.plans⟩

variable {site : Site}

theorem QueryInv.write {k : ObjectKey} {value : Object k} (hhistories : Histories codec (s.write site k value))
    (hnew : ∀ ref m, k = .head ref → site = .publish m → F.Legit s ref m)
    (hdecision : ∀ {q : TransitionPlan}, F.Mem q → k = .decision q.transitionID →
      SoleDecision (s.write site k value) codec q)
    (hplans : ∀ id, ∀ w ∈ ((s.write site k value).cells (.plan id)).writes, F.Mem w.value) :
    QueryInv F (s.write site k value) := by
  have hle := Store.le_write s site k value
  refine ⟨hhistories, published_write h.published Transitions.Legit.mono hnew, fun {q} hq => ?_, hplans⟩
  by_cases hk : k = .decision q.transitionID
  · exact hdecision hq hk
  · exact (h.decision hq).frame hle (Store.write_cells_of_ne _ _ (Ne.symm hk))

theorem QueryInv.write_head {next : DomainHead}
    (hw : HeadWrite codec F.Legit s site ref next) : QueryInv F (s.write site (.head ref) next) := by
  refine h.write (h.toHistories.write_head hw) (fun ref' m hk hsite => ?_) (fun _ hk => by cases hk) fun id => ?_
  · cases hk
    exact hw.published hsite
  · rw [Store.write_cells_of_ne _ _ (by simp)]
    exact h.plans id

theorem QueryInv.write_catalog (site : Site) (head : CatalogHead) : QueryInv F (s.write site .catalog head) := by
  refine h.write (k := .catalog) (h.toHistories.write_other (k := .catalog) head fun _ hk => by cases hk)
    (fun _ _ hk => by cases hk) (fun _ hk => by cases hk) fun id => ?_
  exact h.plans id

theorem QueryInv.write_plan (hq : F.Mem q) : QueryInv F (s.write .plain (.plan q.transitionID) q) := by
  refine h.write (k := .plan q.transitionID) (h.toHistories.write_other (k :=
    .plan q.transitionID) q fun _ hk => by cases hk)
    (fun _ _ hk => by cases hk) (fun _ hk => by cases hk) fun id w hw => ?_
  by_cases hid : id = q.transitionID
  · subst hid
    rw [Store.write_cells_self] at hw
    rcases mem_cons.mp hw with rfl | hw
    · exact hq
    · exact h.plans _ w hw
  · rw [Store.write_cells_of_ne _ _ (by simpa using hid)] at hw
    exact h.plans id w hw

theorem QueryInv.write_decision (hq : F.Mem q) {failure : Option Error} {now : Time}
    (habsent : (s.cells (.decision q.transitionID)).current = none)
    (hprepared : failure = none → ∀ a ∈ q.participants, PublishedID s a.ref (q.prepareID codec)) :
    QueryInv F (s.write .plain (.decision q.transitionID) (q.decide failure now)) := by
  refine h.write (k := .decision q.transitionID)
    (h.toHistories.write_other (k := .decision q.transitionID) _ fun _ hk => by cases hk) (fun _ _ hk => by cases hk)
    (fun {r} hr hk => ?_) fun id => ?_
  · have hid : q.transitionID = r.transitionID := ObjectKey.decision.inj hk
    have hnil := (h.decision hq).kept habsent
    refine ⟨by rw [← hid, Store.write_cells_self, hnil]; exact Nat.le_refl 1, fun hnone => ?_, ?_⟩
    · rw [← hid, Store.write_cells_self] at hnone
      cases hnone
    · rintro d ⟨w, hw, rfl⟩ hcommitted a ha
      rw [← hid, Store.write_cells_self, hnil, mem_singleton] at hw
      subst hw
      have hnone : failure = none := by simpa [TransitionPlan.decide] using hcommitted
      rw [← TransitionPlan.prepareID_congr hid]
      exact (hprepared hnone a (F.participants_eq hq hr hid ▸ ha)).mono (Store.le_write s _ _ _)
  · rw [Store.write_cells_of_ne _ _ (by simp)]
    exact h.plans id

theorem QueryInv.erase_plan (id : String) : QueryInv F (s.erase (.plan id)) := by
  have hle := Store.le_erase s (.plan id)
  have hcell : ∀ k, k ≠ .plan id → (s.erase (.plan id)).cells k = s.cells k := fun k hk => Store.erase_cells_of_ne _ hk
  refine ⟨⟨h.wf.erase _, fun ref => ?_, fun k hk hnone => ?_⟩, fun ref w hw m hm => ?_, fun {q} hq => ?_,
    fun id' w hw => ?_⟩
  · rw [hcell _ (by simp)]
    exact h.linear ref
  · have hne : k ≠ .plan id := by
      rintro rfl
      cases hk
    rw [hcell k hne] at hnone ⊢
    exact h.undeleted k hk hnone
  · rw [hcell _ (by simp)] at hw
    exact (h.published ref w hw m hm).mono hle
  · exact (h.decision hq).frame hle (hcell _ (by simp))
  · rw [Store.erase_writes] at hw
    exact h.plans id' w hw

/-! ## What the invariant says -/

theorem QueryInv.committed (hq : F.Mem q) (hp : PublishedID s ref q.transitionID) :
    (∃ a ∈ q.participants, a.ref = ref) ∧ ∃ d, Decided s q d ∧ d.committed = true := by
  obtain ⟨w, hw, hpub⟩ := hp
  obtain ⟨m, hm, hid⟩ := Site.publishes_iff.mp hpub
  exact (h.published ref w hw m hm).committed hq hid

theorem QueryInv.aborted (hq : F.Mem q) (hp : PublishedID s ref (q.abortID codec)) :
    ∃ d, Decided s q d ∧ d.committed = false := by
  obtain ⟨w, hw, hpub⟩ := hp
  obtain ⟨m, hm, hid⟩ := Site.publishes_iff.mp hpub
  exact (h.published ref w hw m hm).aborted hq hid

theorem QueryInv.exclusive (hq : F.Mem q) (hd : Decided s q d)
    (hcommitted : d.committed = true) : ¬ PublishedID s ref (q.abortID codec) := by
  intro hp
  obtain ⟨d', hd', haborted⟩ := h.aborted hq hp
  rw [hd.unique (h.decision hq).once hd', haborted] at hcommitted
  cases hcommitted

theorem QueryInv.lockState (hsuffix : w :: writes <:+ (s.cells (.head ref)).writes) :
    LockState F ref (w :: writes) w.value := by
  have hlinear := h.linear ref
  obtain ⟨newer, hsplit⟩ := hsuffix
  rw [← hsplit] at hlinear
  refine (linear_append hlinear).lockState (s := s) fun v hv m hm => h.published ref v ?_ m hm
  rw [← hsplit]
  exact mem_append_right _ hv

end

/-! ## The protocol -/

def CommittedIn (s : Bucket) (q : TransitionPlan) : Prop :=
  ∃ w ∈ (s.cells (.decision q.transitionID)).writes, w.value.committed = true

def LockedBy (codec : Codec) (s : Bucket) (q : TransitionPlan) (ref : DomainRef) (version : Option Nat) : Prop :=
  ∃ w ∈ (s.cells (.head ref)).writes, w.site.publishes (q.prepareID codec) = true ∧ ∃ v ∈ version, w.version ≤ v

/-- What a run promises: decisions are not collected, and no transition is committed between two loads of a query
that belong to it. When a query loads a domain, each committed transition with changes there had locked its other
domains before the query loaded them, and the query's catalog has all of them. -/
def unsplit (F : Transitions codec) : OpPolicy := fun s _ op =>
  match op with
  | .delete _ (.decision _) _ => False
  | .get (.queryLoad domains loaded) (.head ref) => ∀ q, F.Mem q → CommittedIn s q →
      (∃ b ∈ q.participants, b.ref = ref) → ∀ a ∈ q.participants, a.ref ∈ domains ∧
        ∀ version, (a.ref, version) ∈ loaded → LockedBy codec s q a.ref version
  | _ => True

/-- The transitions of a run, in the course of it. -/
def queryProtocol (F : Transitions codec) : TransitionProtocol codec where
  Inv := QueryInv F
  ok := unsplit F
  Legit := F.Legit
  legit_mono := fun hle h => h.mono hle
  wf := fun h => h.wf
  linear := fun h => h.linear
  undeleted := fun h => h.undeleted
  head := fun h _ hw _ => h.write_head hw
  register := fun h _ _ _ _ => h.write_catalog _ _
  note := fun _ read h => h.note read
  Given := F.Mem
  given_valid := fun hq => validateTransitionPlan_retained (F.valid hq)
  Plan := fun _ => F.Mem
  plan_mono := fun _ h => h
  plan_given := fun h => h
  Prepared := fun s q ref => PublishedID s ref (q.prepareID codec)
  prepared_mono := fun hle h => h.mono hle
  Passes := fun _ _ => True
  Fails := fun _ _ _ => True
  passes := fun _ _ _ _ _ => trivial
  prepare_legit := by
    rintro s plan participant before after - hq hsplit - -
    exact .prepared hq (by simp [hsplit]) rfl
  prepared_of_recorded := by
    rintro s plan participant fingerprint - - - ⟨m, hid, newer, w', w, older, hwrites, hsite, -⟩
    refine ⟨w', ?_, Site.publishes_iff.mpr ⟨m, hsite, hid⟩⟩
    rw [hwrites]
    simp
  prepared_of_lock := by
    rintro s plan participant version head lock value h hq - ⟨w, hw, -, rfl⟩ hlock howns
    obtain ⟨newer, older, hsplit⟩ := List.append_of_mem hw
    have hsuffix : w :: older <:+ (s.cells (.head participant.ref)).writes := ⟨newer, hsplit.symm⟩
    cases hd : denote w.value transitionLockKey with
    | none =>
      rw [transitionLockAtHead_none hd] at hlock
      cases hlock
    | some e =>
      obtain ⟨r, fingerprint, hr, hp, rfl⟩ := (h.lockState hsuffix).origin hd
      obtain ⟨value', hvalue, -⟩ := transitionLockAtHead_some hd (F.validID hr)
      rw [hvalue] at hlock
      cases hlock
      simp only [TransitionPlan.owns, Bool.and_eq_true, decide_eq_true_eq] at howns
      rw [← TransitionPlan.prepareID_congr (show r.transitionID = plan.transitionID from howns.1)]
      obtain ⟨v, hv, hpub⟩ := hp
      exact ⟨v, hsuffix.subset hv, hpub⟩
  final_legit := fun _ hq hmem hd => .final _ hq hmem rfl hd
  decide := by
    rintro s plan failure now h hq habsent hverdict - -
    refine h.write_decision hq habsent fun hnone => ?_
    subst hnone
    rcases hverdict with hverdict | ⟨-, hsome⟩
    · exact hverdict
    · cases hsome
  create := fun h hq _ => h.write_plan hq
  created := fun _ hq _ => hq
  stored := by
    rintro s id version plan h ⟨w, hw, -, rfl⟩
    exact h.plans id w hw
  collect := fun h _ _ => ⟨fun hok => hok.elim, fun _ => h.erase_plan _⟩

theorem queryProtocol_executes (F : Transitions codec) (loops : Nat) : (queryProtocol F).Executes loops :=
  fun hhelp hplan => TransitionProtocol.executeWith _ (TransitionProtocol.ExecuteErrors.any _ fun _ _ _ => trivial)
    hhelp hplan

/-! ## The domains that a query has loaded -/

/-- A domain as a query finds it: its history up to the moment of the load. -/
structure Source where
  ref : DomainRef
  writes : List (Write Site DomainHead)

def Source.version (source : Source) : Option Nat := source.writes.head?.map (·.version)

def Source.listing (start : String) (source : Source) : List (String × DomainEntry) :=
  match source.writes with
  | [] => []
  | w :: _ => if w.value.registered then listHead w.value start else []

def Source.Shows (source : Source) (q : TransitionPlan) : Prop := IDPublished q.transitionID source.writes

/-- The loads of a query, in the state of the last one. -/
structure Visited (F : Transitions codec) (s : Bucket) (domains : List DomainRef) (sources : List Source) : Prop where
  moment : ∀ source ∈ sources, source.writes <:+ (s.cells (.head source.ref)).writes
  settled : ∀ source ∈ sources, ∀ q, F.Mem q → IDPublished (q.prepareID codec) source.writes →
    source.Shows q ∨ IDPublished (q.abortID codec) source.writes
  agree : ∀ source ∈ sources, ∀ other ∈ sources, ∀ q, F.Mem q → source.Shows q →
    (∃ a ∈ q.participants, a.ref = other.ref) → other.Shows q
  covered : ∀ source ∈ sources, ∀ q, F.Mem q → source.Shows q → ∀ a ∈ q.participants, a.ref ∈ domains

variable {domains : List DomainRef} {sources : List Source} {u : Bucket}

theorem Visited.mono (h : Visited F s domains sources) (hle : Store.Le s t) : Visited F t domains sources :=
  ⟨fun source hs => (h.moment source hs).trans (hle.writes _), h.settled, h.agree, h.covered⟩

theorem Source.mem_of_version {source : Source} (hwf : u.WF)
    (hmoment : source.writes <:+ (u.cells (.head source.ref)).writes)
    (hw : w ∈ (u.cells (.head source.ref)).writes) {version : Nat} (hversion : version ∈ source.version)
    (hle : w.version ≤ version) : w ∈ source.writes := by
  obtain ⟨newer, hsplit⟩ := hmoment
  have hordered := (hwf (.head source.ref)).ordered
  rw [← hsplit] at hw hordered
  rcases mem_append.mp hw with hnew | hold
  · obtain ⟨first, hfirst, rfl⟩ := Option.map_eq_some_iff.mp (show source.version = some version from hversion)
    have hafter := (pairwise_append.mp hordered).2.2 w hnew first (mem_of_head? hfirst)
    omega
  · exact hold

theorem QueryInv.settled (h : QueryInv F s) (hq : F.Mem q) (hp : PublishedID s ref (q.prepareID codec))
    (hfree : ((currentSnapshot s ref).exists && (currentSnapshot s ref).head.registered) = true →
      transitionLockAtHead ref (currentSnapshot s ref).head = .ok none) :
    PublishedID s ref q.transitionID ∨ PublishedID s ref (q.abortID codec) := by
  obtain ⟨w, rest, hw, hregistered, hcurrent⟩ := h.current_of_published hp
  by_contra hopen
  obtain ⟨huncommitted, hunaborted⟩ := not_or.mp hopen
  have hsuffix : w :: rest <:+ (s.cells (.head ref)).writes := hw ▸ suffix_rfl
  have hholds : Holds codec q (w :: rest) := hw ▸ ⟨hp, huncommitted, hunaborted⟩
  obtain ⟨r, fingerprint, hr, -, he⟩ := (h.lockState hsuffix).held hq hholds
  obtain ⟨value, hvalue, -⟩ := transitionLockAtHead_some he (F.validID hr)
  rw [hcurrent] at hfree
  have hnone := hfree (by simpa [HeadSnapshot.exists] using hregistered)
  rw [show transitionLockAtHead ref w.value = _ from hvalue] at hnone
  cases hnone

/-- One more domain is loaded, without a lock. -/
theorem Visited.load (h : Visited F s domains sources) (hle : Store.Le s u) (hI : QueryInv F u)
    (hok : unsplit F u .none (.get (.queryLoad domains (sources.map fun source => (source.ref, source.version)))
      (.head ref))) (hfree : ((currentSnapshot u ref).exists && (currentSnapshot u ref).head.registered) = true →
      transitionLockAtHead ref (currentSnapshot u ref).head = .ok none) :
    Visited F u domains (sources ++ [⟨ref, (u.cells (.head ref)).writes⟩]) := by
  have hmem : ∀ {source}, source ∈ sources ++ [⟨ref, (u.cells (.head ref)).writes⟩] →
      source ∈ sources ∨ source = ⟨ref, (u.cells (.head ref)).writes⟩ := fun hs => by
    simpa using hs
  have hmoment : ∀ source ∈ sources ++ [⟨ref, (u.cells (.head ref)).writes⟩],
      source.writes <:+ (u.cells (.head source.ref)).writes := by
    intro source hs
    rcases hmem hs with hs | rfl
    · exact (h.mono hle).moment source hs
    · exact suffix_rfl
  -- a transition that shows up anywhere has been committed, and nowhere aborted
  have hcommitted : ∀ source ∈ sources ++ [⟨ref, (u.cells (.head ref)).writes⟩], ∀ q, F.Mem q → source.Shows q →
      (∃ a ∈ q.participants, a.ref = source.ref) ∧ ∃ d, Decided u q d ∧ d.committed = true := by
    rintro source hs q hq ⟨w, hw, hpub⟩
    exact hI.committed hq ⟨w, (hmoment source hs).subset hw, hpub⟩
  have hshows : ∀ source ∈ sources ++ [⟨ref, (u.cells (.head ref)).writes⟩], ∀ q, F.Mem q → ∀ d, Decided u q d →
      d.committed = true → source.Shows q ∨ IDPublished (q.abortID codec) source.writes → source.Shows q := by
    rintro source hs q hq d hd hd' (hshow | ⟨w, hw, hpub⟩)
    · exact hshow
    · exact absurd ⟨w, (hmoment source hs).subset hw, hpub⟩ (hI.exclusive hq hd hd')
  refine ⟨hmoment, fun source hs q hq hp => ?_, fun source hs other ho q hq hshow ha => ?_,
    fun source hs q hq hshow => ?_⟩
  · rcases hmem hs with hs | rfl
    · exact h.settled source hs q hq hp
    · exact hI.settled hq hp hfree
  · obtain ⟨hb, d, hd, hd'⟩ := hcommitted source hs q hq hshow
    rcases hmem ho with hold | rfl
    · rcases hmem hs with hs | rfl
      · exact h.agree source hs other hold q hq hshow ha
      · -- the lock had been placed before the earlier load, which found none
        obtain ⟨a, ha, haref⟩ := ha
        obtain ⟨w, hw, hwd⟩ := hd
        have hlocked := (hok q hq ⟨w, hw, by rw [hwd]; exact hd'⟩ hb a ha).2 other.version
          (mem_map.mpr ⟨other, hold, by rw [haref]⟩)
        rw [haref] at hlocked
        obtain ⟨v, hv, hpub, version, hversion, hbefore⟩ := hlocked
        have hin := Source.mem_of_version hI.wf (hmoment other ho) hv hversion hbefore
        exact hshows other ho q hq d ⟨w, hw, hwd⟩ hd' (h.settled other hold q hq ⟨v, hin, hpub⟩)
    · obtain ⟨a, ha, rfl⟩ := ha
      exact hshows _ ho q hq d hd hd' (hI.settled hq ((hI.decision hq).prepared d hd hd' a ha) hfree)
  · rcases hmem hs with hold | rfl
    · exact h.covered source hold q hq hshow
    · obtain ⟨hb, d, ⟨w, hw, hwd⟩, hd'⟩ := hcommitted _ hs q hq hshow
      exact fun a ha => (hok q hq ⟨w, hw, by rw [hwd]; exact hd'⟩ hb a ha).1

/-! ## The programs -/

theorem Source.version_current (h : Histories codec u) (ref : DomainRef) :
    (currentSnapshot u ref).version = Source.version ⟨ref, (u.cells (.head ref)).writes⟩ := by
  unfold currentSnapshot Source.version
  cases hc : (u.cells (.head ref)).current with
  | none => rw [h.undeleted (.head ref) rfl hc]; rfl
  | some p =>
    obtain ⟨version, value⟩ := p
    obtain ⟨w, rest, hw, rfl, -⟩ := (h.wf _).current version value hc
    rw [hw]
    rfl

theorem Source.listing_current (h : Histories codec u) (ref : DomainRef) (start : String) :
    Source.listing start ⟨ref, (u.cells (.head ref)).writes⟩ =
      if (currentSnapshot u ref).exists && (currentSnapshot u ref).head.registered
      then listHead (currentSnapshot u ref).head start else [] := by
  unfold currentSnapshot Source.listing
  cases hc : (u.cells (.head ref)).current with
  | none => rw [h.undeleted (.head ref) rfl hc]; rfl
  | some p =>
    obtain ⟨version, value⟩ := p
    obtain ⟨w, rest, hw, -, rfl⟩ := (h.wf _).current version value hc
    rw [hw]
    simp [HeadSnapshot.exists]

def runsOf (start : String) (sources : List Source) : List (List (String × DomainEntry)) :=
  (sources.map (Source.listing start)).filter fun run => !run.isEmpty

theorem runsOf_cons (start : String) (source : Source) (rest : List Source) :
    runsOf start (source :: rest) = addRun (source.listing start) (runsOf start rest) := by
  unfold runsOf addRun
  rw [map_cons, filter_cons]
  cases (source.listing start).isEmpty <;> rfl

variable {loops depth : Nat} {start : String}

theorem visitDomains_ensures {rest : List (CatalogKey × DomainRef)} (h : Visited F s domains sources) :
    Ensures (QueryInv F) (unsplit F) (fun _ => True) (fun t runs => ∃ later,
        later.map Source.ref = rest.map Prod.snd ∧ runs = runsOf start later ∧ Visited F t domains (sources ++ later))
      (visitDomains codec loops depth start domains (sources.map fun source => (source.ref, source.version))
        rest) s := by
  induction rest generalizing sources s with
  | nil => exact .pure fun t ht _ => ⟨[], rfl, rfl, by simpa using h.mono ht⟩
  | cons entry rest ih =>
    obtain ⟨key, ref⟩ := entry
    refine .rejectIf_bind (fun _ => trivial) fun _ => ?_
    refine .bind ((queryProtocol F).loadHeadAt (Protocol.Errors.any _ ref).toReadErrors) ?_
    rintro t snapshot - - ⟨-, u, hsu, hI, hok, rfl, hut⟩
    -- the rest of the visits, once the load is known to have met no lock
    have hlater : (((currentSnapshot u ref).exists && (currentSnapshot u ref).head.registered) = true →
        transitionLockAtHead ref (currentSnapshot u ref).head = .ok none) →
        Ensures (QueryInv F) (unsplit F) (fun _ => True) (fun t runs => ∃ later, later.map Source.ref =
          rest.map Prod.snd ∧
            runs = runsOf start later ∧
            Visited F t domains (sources ++ ⟨ref, (u.cells (.head ref)).writes⟩ :: later))
          (visitDomains codec loops depth start domains
            (sources.map (fun source => (source.ref, source.version)) ++ [(ref, (currentSnapshot u ref).version)]) rest)
          t := by
      intro hfree
      have hnext := ih ((h.load hsu hI hok hfree).mono hut)
      rw [map_append, map_singleton, ← Source.version_current hI.toHistories ref] at hnext
      refine hnext.weaken ?_
      rintro v runs - - ⟨later, hrefs, hruns, hvisited⟩
      exact ⟨later, hrefs, hruns, by simpa using hvisited⟩
    have hlisting := Source.listing_current hI.toHistories ref start
    split
    · rename_i hdead
      have hdead : ¬ ((currentSnapshot u ref).exists && (currentSnapshot u ref).head.registered) = true := by
        simpa only [Bool.not_eq_true', Bool.not_eq_true] using hdead
      refine (hlater fun hlive => absurd hlive hdead).weaken ?_
      rintro v runs - - ⟨later, hrefs, rfl, hvisited⟩
      refine ⟨_ :: later, by simp [hrefs], ?_, hvisited⟩
      rw [runsOf_cons, hlisting, if_neg hdead]
      rfl
    · rename_i hlive
      have hlive : ((currentSnapshot u ref).exists && (currentSnapshot u ref).head.registered) = true := by
        simpa using hlive
      refine .except_bind (fun _ _ => trivial) fun lock hlock => ?_
      cases lock with
      | some lock =>
        exact .bind ((queryProtocol F).helpTransition (queryProtocol_executes F loops) depth _ _) fun _ _ _ _ _ =>
          .throw trivial
      | none =>
        refine .bind (hlater fun _ => hlock) ?_
        rintro v runs - - ⟨later, hrefs, rfl, hvisited⟩
        refine .pure fun z hz _ => ⟨_ :: later, by simp [hrefs], ?_, hvisited.mono hz⟩
        rw [runsOf_cons, hlisting, if_pos hlive]

/-! ## Whole transitions -/

def WholeOrNone (q : TransitionPlan) (sources : List Source) : Prop :=
  (∀ a ∈ q.participants, ∃ source ∈ sources, source.ref = a.ref ∧ source.Shows q) ∨
    ∀ source ∈ sources, ¬ source.Shows q

def Unsplit (F : Transitions codec) (s : Bucket) (snapshot : StateQuerySnapshot) : Prop :=
  ∃ sources : List Source, (∀ source ∈ sources, source.writes <:+ (s.cells (.head source.ref)).writes) ∧
    mergeRounds (runsOf snapshot.start sources).length (runsOf snapshot.start sources) = .ok snapshot.entries ∧
    ∀ q, F.Mem q → WholeOrNone q sources

theorem Visited.wholeOrNone {domains : List DomainRef} {sources : List Source} (h : Visited F s domains sources)
    (hall : sources.map Source.ref = domains) (hq : F.Mem q) : WholeOrNone q sources := by
  by_cases hshow : ∃ source ∈ sources, source.Shows q
  · obtain ⟨source, hs, hshow⟩ := hshow
    refine .inl fun a ha => ?_
    have hdomain := h.covered source hs q hq hshow a ha
    rw [← hall] at hdomain
    obtain ⟨other, ho, href⟩ := mem_map.mp hdomain
    exact ⟨other, ho, href, h.agree source hs other ho q hq hshow ⟨a, ha, href.symm⟩⟩
  · exact .inr fun source hs hs' => hshow ⟨source, hs, hs'⟩

variable {expiresAt : Time}

theorem buildStateQuerySnapshot_ensures :
    Ensures (QueryInv F) (unsplit F) (fun _ => True) (fun t snapshot => Unsplit F t snapshot)
      (buildStateQuerySnapshot codec loops depth start expiresAt) s := by
  refine .bind (.getObject trivial (queryProtocol F).note) fun t found _ _ _ => ?_
  cases found with
  | none =>
    exact .pure fun u _ _ => ⟨[], fun _ hs => (by cases hs), rfl, fun q _ => .inr fun _ hs => (by cases hs)⟩
  | some found =>
    obtain ⟨version, catalog⟩ := found
    have hnone : Visited F t (catalog.root.entries.map Prod.snd) [] :=
      ⟨fun _ hs => (by cases hs), fun _ hs => (by cases hs), fun _ hs => (by cases hs), fun _ hs => (by cases hs)⟩
    refine .bind (visitDomains_ensures hnone) ?_
    rintro u runs - - ⟨sources, hrefs, rfl, hvisited⟩
    refine .except_bind (fun _ _ => trivial) fun entries hmerged => .pure fun v hv _ => ?_
    exact ⟨sources, (hvisited.mono hv).moment, hmerged, fun q hq => hvisited.wholeOrNone hrefs hq⟩

theorem listAttempts_ensures {attempts : Nat} :
    Ensures (QueryInv F) (unsplit F) (fun _ => True) (fun t snapshot => Unsplit F t snapshot)
      (listAttempts codec loops depth start expiresAt attempts) s := by
  induction attempts generalizing s with
  | zero => exact .throw trivial
  | succ attempts ih =>
    refine .bind (.attempt buildStateQuerySnapshot_ensures) fun t r _ _ hr => ?_
    cases r with
    | ok snapshot =>
      refine .pure fun u hu _ => ?_
      obtain ⟨sources, hmoment, hrest⟩ := hr
      exact ⟨sources, fun source hs => (hmoment source hs).trans (hu.writes _), hrest⟩
    | error e =>
      dsimp only
      split
      · exact ih
      · exact .throw trivial

/-! ## Runs -/

def Transitions.Admits (F : Transitions codec) : QueryCall → Prop
  | .transition (.domain call) => ∀ ref m fingerprint, call.intent codec = some (ref, m, fingerprint) → F.Unrelated m
  | .transition (.transact plan) => validateTransitionPlan plan = .ok () → F.Mem plan
  | .transition (.executeTransition plan) => F.Mem plan
  | _ => True

def queryPolicy (F : Transitions codec) : Policy bucketMachine QueryCall where
  spawn _ call := F.Admits call
  step s f op := unsplit F s f op
  drift _ _ := True

def QueryCall.Answers (F : Transitions codec) (s : Bucket) : QueryReply → Prop
  | .listed snapshot => Unsplit F s snapshot
  | _ => True

theorem QueryCall.safe (loops depth : Nat) {call : QueryCall} (h : F.Admits call) :
    Ensures (QueryInv F) (unsplit F) (fun _ => True) (QueryCall.Answers F) (call.action codec loops depth) s := by
  cases call with
  | transition call =>
    have hallowed : call.Allowed (queryProtocol F) s := by
      cases call with
      | domain call =>
        intro ref m fingerprint hint retainUntil
        have hother := h ref m fingerprint hint
        exact .unrelated ⟨fun hq => hother.id hq, hother.transitionID,
          fun change hchange => hother.keys change ((perm_insertionSort _ _).mem_iff.mp hchange)⟩
      | transact plan => exact h
      | executeTransition plan => exact h
      | helpTransition id => trivial
      | resolveStateTransition ref => trivial
      | resolveAllTransitions => trivial
    exact .bind (call.safe (queryProtocol F) (queryProtocol_executes F loops) hallowed)
      fun _ _ _ _ _ => .pure fun _ _ _ => trivial
  | list start expiresAt =>
    refine .bind listAttempts_ensures fun t snapshot _ _ hr => .pure fun u hu _ => ?_
    obtain ⟨sources, hmoment, hrest⟩ := hr
    exact ⟨sources, fun source hs => (hmoment source hs).trans (hu.writes _), hrest⟩

/-- In every run in which no transition is committed between two loads of a query that belong to it, every
snapshot that a listing returns shows each transition in all of its domains or in none. -/
theorem snapshot_unsplit (codec : Codec) (F : Transitions codec) (loops depth : Nat) (now : Time) (cfg : QueryConfig)
    (hreach : Reach (QueryCall.body codec loops depth) (queryPolicy F) (queryStart now) cfg) :
    ∀ task ∈ cfg.pool, ∀ snapshot, task.prog.result = some (.ok (.listed snapshot)) → Unsplit F cfg.state snapshot := by
  have hsound := hreach.sound (I := QueryInv F) (Q := fun _ => posts (fun _ => True) (QueryCall.Answers F))
    ⟨QueryInv.start now, fun t ht => by cases ht⟩ (fun s call _ hspawn => ?_) fun s d hI _ => hI.advance d
  · exact fun task htask snapshot hresult => hsound.result htask hresult
  · exact QueryCall.safe loops depth hspawn

/-! ## A split transition -/

def splitPlan : TransitionPlan :=
  { transitionID := "x", fingerprint := "intent", retainUntil := 100, result := "done"
    participants :=
      [{ kind := .domainOwnerControl, domainID := "owner"
         changes := [{ key := "k/a", require := .absent, value := .raw "1" }] },
       { kind := .domainShare, domainID := "share"
         changes := [{ key := "k/b", require := .absent, value := .raw "2" }] }] }

def splitOnly : Transitions Codec.plain where
  Mem q := q = splitPlan
  valid := by
    rintro q rfl
    decide +kernel
  keys := by
    rintro q rfl
    decide +kernel
  ownIDs := by
    rintro q rfl
    exact ⟨by decide +kernel, by decide +kernel⟩
  distinct := by
    rintro q r rfl rfl - - -
    exact ⟨rfl, rfl⟩

def querySteps (task n : Nat) : List QueryEvent := List.replicate n (.step task .none)

def runQueries (events : List QueryEvent) : QueryConfig :=
  (queryStart 1).run (QueryCall.body Codec.plain 5 3) events

def registeredRun : List QueryEvent :=
  [.spawn (.transition (.domain (.ensureRegistered ⟨.domainOwnerControl, "owner"⟩))),
    .spawn (.transition (.domain (.ensureRegistered ⟨.domainShare, "share"⟩)))] ++ querySteps 0 12 ++ querySteps 1 12

def orderlyRun : List QueryEvent :=
  registeredRun ++ [.spawn (.transition (.transact splitPlan))] ++ querySteps 2 30 ++ [.spawn (.list "k/" 50)] ++
    querySteps 3 10

def splitRun : List QueryEvent :=
  registeredRun ++ [.spawn (.list "k/" 50)] ++ querySteps 2 2 ++ [.spawn (.transition (.transact splitPlan))] ++
    querySteps 3 30 ++ querySteps 2 10

def splitTest (s : Bucket) (_ : Fault) : StoreOp Site ObjectKey Object → Bool
  | .delete _ (.decision _) _ => false
  | .get (.queryLoad domains loaded) (.head ref) =>
    !((s.cells (.decision splitPlan.transitionID)).writes.any (·.value.committed) &&
        splitPlan.participants.any (·.ref = ref)) ||
      splitPlan.participants.all fun a => domains.contains a.ref && loaded.all fun load =>
        load.1 ≠ a.ref || (s.cells (.head a.ref)).writes.any fun w =>
          w.site.publishes (splitPlan.prepareID Codec.plain) && load.2.any (w.version ≤ ·)
  | _ => true

theorem splitTest_sound {s : Bucket} {f : Fault} {op : StoreOp Site ObjectKey Object} (h : splitTest s f op = true) :
    unsplit splitOnly s f op := by
  unfold splitTest at h
  split at h
  · cases h
  · rintro q rfl ⟨w, hw, hcommitted⟩ ⟨b, hb, rfl⟩ a ha
    have hspans : ((s.cells (.decision splitPlan.transitionID)).writes.any (·.value.committed) &&
        splitPlan.participants.any (·.ref = b.ref)) = true := by
      simp only [Bool.and_eq_true, any_eq_true]
      exact ⟨⟨w, hw, hcommitted⟩, b, hb, decide_eq_true rfl⟩
    rw [hspans, Bool.not_true, Bool.false_or, all_eq_true] at h
    obtain ⟨hdomain, hloads⟩ := Bool.and_eq_true_iff.mp (h a ha)
    refine ⟨contains_iff_mem.mp hdomain, fun version hload => ?_⟩
    have hlocked := all_eq_true.mp hloads _ hload
    simp only [ne_eq, not_true_eq_false, decide_false, Bool.false_or, any_eq_true, Bool.and_eq_true,
      Option.any_eq_true, decide_eq_true_eq] at hlocked
    obtain ⟨v, hv, hpub, found, hfound, hle⟩ := hlocked
    exact ⟨v, hv, hpub, found, hfound, hle⟩
  · rename_i hdelete hload
    unfold unsplit
    split
    · exact absurd rfl (hdelete _ _ _)
    · exact absurd rfl (hload _ _ _)
    · trivial

theorem orderlyRun_meets : (queryPolicy splitOnly).MeetsAll (QueryCall.body Codec.plain 5 3) (queryStart 1)
    orderlyRun := by
  refine .of_stepsPass splitTest (fun s f op h => splitTest_sound h) (fun e he hstep cfg => ?_) (by decide +kernel)
  simp only [orderlyRun, registeredRun, querySteps, mem_append, mem_cons, not_mem_nil, or_false, mem_replicate] at he
  rcases he with ((((((rfl | rfl) | ⟨-, rfl⟩) | ⟨-, rfl⟩) | rfl) | ⟨-, rfl⟩) | rfl) | ⟨-, rfl⟩
  · exact fun _ _ _ hint => nomatch hint
  · exact fun _ _ _ hint => nomatch hint
  · exact absurd rfl (hstep _ _)
  · exact absurd rfl (hstep _ _)
  · exact fun _ => rfl
  · exact absurd rfl (hstep _ _)
  · trivial
  · exact absurd rfl (hstep _ _)

theorem orderlyRun_end : (queryReplies (runQueries orderlyRun)).getLast? =
    some (.list "k/" 50, some (.ok (.listed { start := "k/", expiresAt := 50, entries :=
      [("k/a", { value := .raw "1", logicalVersion := "#x/f(__transition_lock__,k/a)done/k/a" }),
       ("k/b", { value := .raw "2", logicalVersion := "#x/f(__transition_lock__,k/b)done/k/b" })] }))) := by
  decide +kernel

theorem orderly_unsplit : ∃ task ∈ (runQueries orderlyRun).pool, ∃ snapshot,
    task.prog.result = some (.ok (.listed snapshot)) ∧ snapshot.entries.map Prod.fst = ["k/a", "k/b"] ∧
      Unsplit splitOnly (runQueries orderlyRun).state snapshot := by
  obtain ⟨task, htask, heq⟩ := List.mem_map.mp (List.mem_of_getLast? orderlyRun_end)
  have hresult := congrArg Prod.snd heq
  exact ⟨task, htask, _, hresult, rfl,
    snapshot_unsplit Codec.plain splitOnly 5 3 1 _ (.of_run orderlyRun_meets) task htask _ hresult⟩

/-- The transition is committed, and everything that was called keeps to it. The snapshot has the change of the
second domain and not that of the first. -/
theorem listing_splits_transition :
    Reach (QueryCall.body Codec.plain 5 3) { queryPolicy splitOnly with step := fun _ _ _ => True } (queryStart 1)
        (runQueries splitRun) ∧
      CommittedIn (runQueries splitRun).state splitPlan ∧
      (∀ a ∈ splitPlan.participants, ∀ change ∈ a.changes, hasPrefix change.key "k/" = true ∧
        (denote (currentSnapshot (runQueries splitRun).state a.ref).head change.key).isSome) ∧
      ∃ snapshot, (.list "k/" 50, some (.ok (.listed snapshot))) ∈ queryReplies (runQueries splitRun) ∧
        snapshot.entries.map Prod.fst = ["k/b"] := by
  refine ⟨.of_run ?_, ?_, ?_, ?_⟩
  · refine .of_stepsPass (fun _ _ _ => true) (fun _ _ _ _ => trivial) (fun e he hstep cfg => ?_) (by decide +kernel)
    simp only [splitRun, registeredRun, querySteps, List.mem_append, List.mem_cons, List.not_mem_nil, or_false,
      List.mem_replicate] at he
    rcases he with (((((((rfl | rfl) | ⟨-, rfl⟩) | ⟨-, rfl⟩) | rfl) | ⟨-, rfl⟩) | rfl) | ⟨-, rfl⟩) | ⟨-, rfl⟩
    · exact fun _ _ _ hint => nomatch hint
    · exact fun _ _ _ hint => nomatch hint
    · exact absurd rfl (hstep _ _)
    · exact absurd rfl (hstep _ _)
    · trivial
    · exact absurd rfl (hstep _ _)
    · exact fun _ => rfl
    · exact absurd rfl (hstep _ _)
    · exact absurd rfl (hstep _ _)
  · unfold CommittedIn
    decide +kernel
  · decide +kernel
  · refine ⟨{ start := "k/", expiresAt := 50, entries :=
      [("k/b", { value := .raw "2", logicalVersion := "#x/f(__transition_lock__,k/b)done/k/b" })] }, ?_, rfl⟩
    decide +kernel

end EndlessFS
