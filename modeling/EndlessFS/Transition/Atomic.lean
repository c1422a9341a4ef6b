import EndlessFS.Domain.Retention
import EndlessFS.Transition.Protocol

/-!
# EndlessFS.Transition.Atomic

Atomicity of one transition across its participants, in every interleaving with other transitions,
mutations and compactions.

* `OnePlan`: all calls that name the transition run the same plan, retention included, and nothing else
  uses the mutation IDs it reserves.
* `transition_atomic`: in runs of such calls a transition is never applied in one participant and
  aborted in another, its decision never changes, and each participant applies it at most once and
  where its preconditions hold.
* `transition_repeated`: a retry that brings a shorter retention makes a participant apply it twice.
-/

namespace EndlessFS

open List TransitionPlan
open Conc (Store Fault StoreOp Write Policy Reach)

def TransitionPlan.reserved (codec : Codec) (plan : TransitionPlan) : List String :=
  [plan.transitionID, plan.prepareID codec, plan.abortID codec]

def TransitionPlan.Foreign (codec : Codec) (plan other : TransitionPlan) : Prop :=
  ∀ id ∈ other.reserved codec, id ∉ plan.reserved codec

def OnePlan (codec : Codec) (plan : TransitionPlan) : TransitionCall → Prop
  | .domain call => ∀ ref m fingerprint, call.intent codec = some (ref, m, fingerprint) →
      m.id ∉ plan.reserved codec
  | .transact other => other = plan ∨ plan.Foreign codec other
  | .executeTransition other => validateTransitionPlan other = .ok () ∧ (other = plan ∨ plan.Foreign codec other)
  | _ => True

def onePlanPolicy (codec : Codec) (plan : TransitionPlan) : Policy bucketMachine TransitionCall where
  spawn _ call := OnePlan codec plan call
  step _ _ _ := True
  drift _ _ := True

def PublishedID (s : Bucket) (ref : DomainRef) (id : String) : Prop :=
  IDPublished id (s.cells (.head ref)).writes

/-- One transition as its participants see it. -/
structure TransitionAtomic (codec : Codec) (plan : TransitionPlan) (s : Bucket) : Prop where
  exclusive : ∀ a ∈ plan.participants, ∀ b ∈ plan.participants, PublishedID s a.ref plan.transitionID →
    ¬ PublishedID s b.ref (plan.abortID codec)
  decided : (s.cells (.decision plan.transitionID)).writes.length ≤ 1 ∧
    ∀ w ∈ (s.cells (.decision plan.transitionID)).writes,
      (s.cells (.decision plan.transitionID)).current = some (w.version, w.value)
  once : ∀ a ∈ plan.participants,
    (s.cells (.head a.ref)).writes.countP (fun w => w.site.publishes plan.transitionID) ≤ 1
  applied : ∀ a ∈ plan.participants, ∀ (newer older : List (Write Site DomainHead)) (w' w : Write Site DomainHead),
    (s.cells (.head a.ref)).writes = newer ++ w' :: w :: older → w'.site.publishes plan.transitionID = true →
    ∃ m fingerprint version, Publishes codec m fingerprint w.value w'.value ∧ m.id = plan.transitionID ∧
      m.result = plan.result ∧ m.changes.Perm (lockRemoval version :: a.changes) ∧
      ∀ change ∈ a.changes, change.HoldsIn (denote w.value)

/-! ## The invariant -/

def AtomicLegit (codec : Codec) (plan : TransitionPlan) (s : Bucket) (ref : DomainRef) (m : Mutation) : Prop :=
  m.id ∉ plan.reserved codec ∨ ∃ a ∈ plan.participants, a.ref = ref ∧
    (m = plan.prepared codec ref ∨ ∃ decision version, Decided s plan decision ∧
      m = plan.final codec a decision.committed version)

variable {ref : DomainRef} {m : Mutation}

theorem AtomicLegit.mono {codec : Codec} {plan : TransitionPlan} {s t : Bucket} (h : AtomicLegit codec plan s ref m)
    (hle : Store.Le s t) : AtomicLegit codec plan t ref m := by
  rcases h with h | ⟨a, ha, href, h | ⟨decision, version, hd, h⟩⟩
  · exact .inl h
  · exact .inr ⟨a, ha, href, .inl h⟩
  · exact .inr ⟨a, ha, href, .inr ⟨decision, version, hd.mono hle, h⟩⟩

def Beside (codec : Codec) (plan other : TransitionPlan) : Prop :=
  validateTransitionPlan other = .ok () ∧ (other = plan ∨ plan.Foreign codec other)

structure AtomicInv (codec : Codec) (plan : TransitionPlan) (s : Bucket) : Prop extends Histories codec s where
  published : ∀ ref, ∀ w ∈ (s.cells (.head ref)).writes, ∀ m, w.site = .publish m →
    AtomicLegit codec plan s ref m
  decision : s.clock < plan.retainUntil → (s.cells (.decision plan.transitionID)).writes.length ≤ 1 ∧
    ((s.cells (.decision plan.transitionID)).current = none →
      (s.cells (.decision plan.transitionID)).writes = [])
  plans : ∀ id, ∀ w ∈ (s.cells (.plan id)).writes, Beside codec plan w.value

variable {codec : Codec} {plan : TransitionPlan} {s : Bucket}

theorem AtomicInv.start (now : Time) : AtomicInv codec plan (bucketAt now) := by
  exact ⟨histories_bucketAt now, fun _ w hw => (by cases hw), fun _ => ⟨Nat.zero_le _, fun _ => rfl⟩, fun _ w hw =>
    (by cases hw)⟩

section

variable (h : AtomicInv codec plan s)

include h

theorem AtomicInv.note (read : Site × Nat) : AtomicInv codec plan (s.note read) :=
  ⟨⟨h.wf, h.linear, h.undeleted⟩, h.published, h.decision, h.plans⟩

theorem AtomicInv.advance (d : Nat) : AtomicInv codec plan (s.advance d) :=
  ⟨⟨h.wf.advance d, h.linear, h.undeleted⟩, h.published,
    fun hclock => h.decision (Nat.lt_of_le_of_lt (Nat.le_add_right _ _) hclock), h.plans⟩

theorem AtomicInv.write_head {site : Site} {next : DomainHead}
    (hw : HeadWrite codec (AtomicLegit codec plan) s site ref next) :
    AtomicInv codec plan (s.write site (.head ref) next) := by
  refine ⟨h.toHistories.write_head hw, published_write h.published AtomicLegit.mono fun ref' m hk hsite => ?_,
    fun hclock => ?_, fun id => ?_⟩
  · cases hk
    exact hw.published hsite
  · rw [Store.write_cells_of_ne _ _ (by simp)]
    exact h.decision hclock
  · rw [Store.write_cells_of_ne _ _ (by simp)]
    exact h.plans id

theorem AtomicInv.write_catalog (site : Site) (head : CatalogHead) :
    AtomicInv codec plan (s.write site .catalog head) := by
  refine ⟨h.toHistories.write_other (k := .catalog) head fun _ hk => (by cases hk),
    published_write h.published AtomicLegit.mono fun _ _ hk => (by cases hk), fun hclock => ?_, fun id => ?_⟩
  · rw [Store.write_cells_of_ne _ _ (by simp)]
    exact h.decision hclock
  · rw [Store.write_cells_of_ne _ _ (by simp)]
    exact h.plans id

theorem AtomicInv.write_decision {id : String} (value : TransitionDecision)
    (habsent : (s.cells (.decision id)).current = none) :
      AtomicInv codec plan (s.write .plain (.decision id) value) := by
  refine ⟨h.toHistories.write_other (k := .decision id) value fun _ hk => (by cases hk),
    published_write h.published AtomicLegit.mono fun _ _ hk => (by cases hk), fun hclock => ?_, fun id => ?_⟩
  · by_cases hid : plan.transitionID = id
    · subst hid
      have hnil := (h.decision hclock).2 habsent
      simp [hnil]
    · rw [Store.write_cells_of_ne _ _ (by simpa using hid)]
      exact h.decision hclock
  · rw [Store.write_cells_of_ne _ _ (by simp)]
    exact h.plans id

theorem AtomicInv.write_plan {other : TransitionPlan} (hother : Beside codec plan other) :
    AtomicInv codec plan (s.write .plain (.plan other.transitionID) other) := by
  refine ⟨h.toHistories.write_other (k := .plan _) other fun _ hk => (by cases hk),
    published_write h.published AtomicLegit.mono fun _ _ hk => (by cases hk), fun hclock => ?_, fun id w hw => ?_⟩
  · rw [Store.write_cells_of_ne _ _ (by simp)]
    exact h.decision hclock
  · by_cases hid : id = other.transitionID
    · subst hid
      rw [Store.write_cells_self] at hw
      rcases mem_cons.mp hw with rfl | hw
      · exact hother
      · exact h.plans _ w hw
    · rw [Store.write_cells_of_ne _ _ (by simpa using hid)] at hw
      exact h.plans id w hw

theorem AtomicInv.erase {k : ObjectKey} (hk : k.permanent = false)
    (hdecision : k = .decision plan.transitionID → plan.retainUntil ≤ s.clock) : AtomicInv codec plan (s.erase k) := by
  refine ⟨⟨h.wf.erase k, fun ref => ?_, fun k' hk' hnone => ?_⟩, fun ref w hw m hm => ?_, fun hclock => ?_,
    fun id w hw => ?_⟩
  · rw [Store.erase_writes]
    exact h.linear ref
  · have hne : k' ≠ k := by
      rintro rfl
      rw [hk] at hk'
      cases hk'
    rw [Store.erase_cells_of_ne _ hne] at hnone ⊢
    exact h.undeleted k' hk' hnone
  · rw [Store.erase_writes] at hw
    exact (h.published ref w hw m hm).mono (Store.le_erase s k)
  · by_cases hkey : ObjectKey.decision plan.transitionID = k
    · exact absurd hclock (not_lt.mpr (hdecision hkey.symm))
    · rw [Store.erase_cells_of_ne _ hkey]
      exact h.decision hclock
  · rw [Store.erase_writes] at hw
    exact h.plans id w hw

end

/-! ## The protocol -/

theorem validateTransitionPlan_retained {plan : TransitionPlan} (h : validateTransitionPlan plan = .ok ()) :
    plan.retainUntil ≠ 0 := by
  obtain ⟨_, hfirst, -⟩ := Except.bind_ok h
  simp only [rejectIf_eq_ok_iff, Bool.or_eq_false_iff, decide_eq_false_iff_not] at hfirst
  exact hfirst.1.1.2

theorem TransitionPlan.final_id_mem (codec : Codec) (plan : TransitionPlan) (participant : TransitionParticipant)
    (committed : Bool) (version : String) : (plan.final codec participant committed version).id ∈ plan.reserved
      codec := by
  cases committed <;> simp [final, finalMutation, Protocol.boundMutation, reserved]

/-- Plans run beside others that share nothing with them. -/
def atomicProtocol (codec : Codec) (plan : TransitionPlan) : TransitionProtocol codec where
  Inv := AtomicInv codec plan
  ok := fun _ _ _ => True
  Legit := AtomicLegit codec plan
  legit_mono := fun hle h => h.mono hle
  wf := fun h => h.wf
  linear := fun h => h.linear
  undeleted := fun h => h.undeleted
  head := fun h _ hw _ => h.write_head hw
  register := fun h _ _ _ _ => h.write_catalog _ _
  note := fun _ read h => h.note read
  Given := Beside codec plan
  given_valid := fun h => validateTransitionPlan_retained h.1
  Plan := fun _ => Beside codec plan
  plan_mono := fun _ h => h
  plan_given := fun h => h
  Prepared := fun _ _ _ => True
  prepared_mono := fun _ h => h
  Passes := fun _ _ => True
  Fails := fun _ _ _ => True
  passes := fun _ _ _ _ _ => trivial
  prepare_legit := by
    rintro s other participant before after - ⟨-, rfl | hforeign⟩ hsplit - -
    · exact .inr ⟨participant, by simp [hsplit], rfl, .inl rfl⟩
    · exact .inl (hforeign _ (by simp [TransitionPlan.reserved, TransitionPlan.prepared,
        TransitionPlan.prepareMutation, Protocol.boundMutation]))
  prepared_of_recorded := fun _ _ _ _ => trivial
  prepared_of_lock := fun _ _ _ _ _ _ => trivial
  final_legit := by
    rintro s other participant decision version - ⟨-, rfl | hforeign⟩ hmem hd
    · exact .inr ⟨participant, hmem, rfl, .inr ⟨decision, version, hd, rfl⟩⟩
    · exact .inl (hforeign _ (other.final_id_mem codec participant decision.committed version))
  decide := fun h _ habsent _ _ _ => h.write_decision _ habsent
  create := fun h hgiven _ => h.write_plan hgiven
  created := fun _ hgiven _ => hgiven
  stored := by
    rintro s id version other h ⟨w, hw, -, rfl⟩
    exact h.plans id w hw
  collect := by
    rintro s f site version other h ⟨-, hother⟩ hexpired
    refine ⟨fun _ => h.erase rfl fun hk => ?_, fun _ => h.erase rfl fun hk => by cases hk⟩
    rcases hother with rfl | hforeign
    · exact hexpired
    · -- the decision of another transition is another object
      refine absurd ?_ (hforeign other.transitionID (by simp [TransitionPlan.reserved]))
      rw [ObjectKey.decision.inj hk]
      simp [TransitionPlan.reserved]

theorem OnePlan.allowed {call : TransitionCall} (h : OnePlan codec plan call) :
    call.Allowed (atomicProtocol codec plan) s := by
  cases call with
  | domain call => exact fun ref m fingerprint hint retainUntil => .inl (h ref m fingerprint hint)
  | transact other => exact fun hvalid => ⟨hvalid, h⟩
  | executeTransition other => exact h
  | helpTransition id => trivial
  | resolveStateTransition ref => trivial
  | resolveAllTransitions => trivial

theorem atomicProtocol_executes (loops : Nat) : (atomicProtocol codec plan).Executes loops :=
  fun hhelp hplan => TransitionProtocol.executeWith _ (TransitionProtocol.ExecuteErrors.any _ fun _ _ _ => trivial)
    hhelp hplan

theorem reach_atomicInv {loops depth : Nat} {now : Time} {cfg : TransitionConfig}
    (h : Reach (TransitionCall.body codec loops depth) (onePlanPolicy codec plan) (startConfig now) cfg) :
    AtomicInv codec plan cfg.state := by
  have hsound := h.sound (I := AtomicInv codec plan) (Q := fun _ => posts (fun _ => True) fun _ _ => True)
    ⟨AtomicInv.start now, fun t ht => by cases ht⟩ (fun s call _ hspawn => ?_) fun s d hI _ => hI.advance d
  · exact hsound.state
  · exact TransitionCall.safe (atomicProtocol codec plan) (atomicProtocol_executes loops) call hspawn.allowed

/-! ## Atomicity -/

theorem TransitionPlan.prepareID_ne_abortID (codec : Codec) (plan : TransitionPlan) :
    plan.prepareID codec ≠ plan.abortID codec := by
  intro h
  have hlength := congrArg String.length h
  have hprepare : "transition-prepare:".length = 19 := by decide +kernel
  have habort : "transition-abort:".length = 17 := by decide +kernel
  unfold prepareID abortID at hlength
  rw [String.length_append, String.length_append, hprepare, habort] at hlength
  omega

structure TransitionPlan.OwnIDs (codec : Codec) (plan : TransitionPlan) : Prop where
  prepare : plan.transitionID ≠ plan.prepareID codec
  abort : plan.transitionID ≠ plan.abortID codec

theorem TransitionPlan.final_id (codec : Codec) (plan : TransitionPlan) (participant : TransitionParticipant)
    (committed : Bool) (version : String) : (plan.final codec participant committed version).id =
      if committed then plan.transitionID else plan.abortID codec := by
  cases committed <;> rfl

theorem AtomicLegit.committed (hids : plan.OwnIDs codec) (h : AtomicLegit codec plan s ref m)
    (hid : m.id = plan.transitionID) :
    ∃ a ∈ plan.participants, a.ref = ref ∧ ∃ decision version, Decided s plan decision ∧
      decision.committed = true ∧ m = plan.final codec a true version := by
  rcases h with h | ⟨a, ha, href, rfl | ⟨decision, version, hd, rfl⟩⟩
  · exact absurd (by simp [hid, reserved]) h
  · exact absurd hid.symm hids.prepare
  · cases hc : decision.committed with
    | true => exact ⟨a, ha, href, decision, version, hd, hc, rfl⟩
    | false =>
      rw [final_id, hc] at hid
      exact absurd hid.symm hids.abort

theorem AtomicLegit.aborted (hids : plan.OwnIDs codec) (h : AtomicLegit codec plan s ref m)
    (hid : m.id = plan.abortID codec) :
    ∃ decision, Decided s plan decision ∧ decision.committed = false := by
  rcases h with h | ⟨a, ha, href, rfl | ⟨decision, version, hd, rfl⟩⟩
  · exact absurd (by simp [hid, reserved]) h
  · exact absurd hid (plan.prepareID_ne_abortID codec)
  · refine ⟨decision, hd, ?_⟩
    cases hc : decision.committed with
    | false => rfl
    | true =>
      rw [final_id, hc] at hid
      exact absurd hid hids.abort

theorem Decided.unique {d d' : TransitionDecision} (honce : (s.cells (.decision plan.transitionID)).writes.length ≤ 1)
    (hd : Decided s plan d) (hd' : Decided s plan d') : d = d' := by
  obtain ⟨w, hw, rfl⟩ := hd
  obtain ⟨w', hw', rfl⟩ := hd'
  obtain ⟨v, hv⟩ : ∃ v, (s.cells (.decision plan.transitionID)).writes = [v] := by
    rw [← length_eq_one_iff]
    have := length_pos_of_mem hw
    omega
  rw [hv, mem_singleton] at hw hw'
  rw [hw, hw']

theorem participants_sorted {previous : String} {participants : List TransitionParticipant}
    (h : validateTransitionParticipants previous participants = .ok ()) : (∀ a ∈ participants, previous < a.ordering) ∧
      participants.Pairwise fun a b => a.ordering < b.ordering := by
  induction participants generalizing previous with
  | nil => exact ⟨fun a ha => (by cases ha), .nil⟩
  | cons a rest ih =>
    unfold validateTransitionParticipants at h
    split at h
    · cases h
    · rename_i hfirst
      simp only [Bool.or_eq_true, decide_eq_true_eq, not_or, not_le] at hfirst
      obtain ⟨_, -, h⟩ := Except.bind_ok h
      obtain ⟨hlow, hrest⟩ := ih h
      refine ⟨fun b hb => ?_, pairwise_cons.mpr ⟨hlow, hrest⟩⟩
      rcases mem_cons.mp hb with rfl | hb
      · exact hfirst.1.2
      · exact hfirst.1.2.trans (hlow b hb)

theorem participants_unique (h : validateTransitionPlan plan = .ok ()) {a b : TransitionParticipant}
    (ha : a ∈ plan.participants) (hb : b ∈ plan.participants) (href : a.ref = b.ref) : a = b := by
  obtain ⟨_, -, h⟩ := Except.bind_ok h
  by_contra hne
  have hordering : a.ordering = b.ordering := by
    have hkind := congrArg DomainRef.kind href
    have hid := congrArg DomainRef.id href
    simp only [TransitionParticipant.ref] at hkind hid
    rw [TransitionParticipant.ordering, TransitionParticipant.ordering, hkind, hid]
  have hsymm : Std.Symm fun a b : TransitionParticipant => a.ordering ≠ b.ordering := ⟨fun _ _ h => h.symm⟩
  have hapart : plan.participants.Pairwise fun a b => a.ordering ≠ b.ordering :=
    (participants_sorted h).2.imp fun hlt => hlt.ne
  exact hapart.forall ha hb hne hordering

theorem AtomicInv.atomic (h : AtomicInv codec plan s) (hvalid : validateTransitionPlan plan = .ok ())
    (hids : plan.OwnIDs codec) (hclock : s.clock < plan.retainUntil) : TransitionAtomic codec plan s := by
  have hpublished : ∀ {ref : DomainRef} {w : Write Site DomainHead} {id : String},
      w ∈ (s.cells (.head ref)).writes → w.site.publishes id = true →
      ∃ m, w.site = .publish m ∧ m.id = id ∧ AtomicLegit codec plan s ref m := by
    intro ref w id hw hpub
    obtain ⟨m, hsite, hid⟩ := Site.publishes_iff.mp hpub
    exact ⟨m, hsite, hid, h.published ref w hw m hsite⟩
  refine ⟨?_, ⟨(h.decision hclock).1, fun w hw => ?_⟩, fun a ha => ?_, ?_⟩
  · rintro a - b - ⟨w, hw, hpub⟩ ⟨w', hw', hpub'⟩
    obtain ⟨m, -, hid, hlegit⟩ := hpublished hw hpub
    obtain ⟨m', -, hid', hlegit'⟩ := hpublished hw' hpub'
    obtain ⟨-, -, -, decision, -, hd, hcommitted, -⟩ := hlegit.committed hids hid
    obtain ⟨decision', hd', haborted⟩ := hlegit'.aborted hids hid'
    rw [hd.unique (h.decision hclock).1 hd', haborted] at hcommitted
    cases hcommitted
  · -- the only decision that was written is still there
    cases hc : (s.cells (.decision plan.transitionID)).current with
    | none =>
      rw [(h.decision hclock).2 hc] at hw
      cases hw
    | some p =>
      obtain ⟨v, rest, hv, hversion, hvalue⟩ := (h.wf _).current p.1 p.2 hc
      have hlength := (h.decision hclock).1
      rw [hv, length_cons] at hlength
      obtain rfl : rest = [] := length_eq_zero_iff.mp (by omega)
      rw [hv, mem_singleton] at hw
      rw [hw, hversion, hvalue]
  · have hordered : (s.cells (.head a.ref)).writes.Pairwise fun a b => b.time ≤ a.time :=
      (h.wf _).ordered.imp fun hab => hab.2
    refine (h.linear a.ref).published_once hordered (T := plan.retainUntil) ?_ ?_
    · intro w hw m hsite hid
      obtain ⟨-, -, -, -, -, -, -, rfl⟩ := (h.published a.ref w hw m hsite).committed hids hid
      rfl
    · exact fun w hw => ((h.wf (.head a.ref)).bounded w hw).2.trans_lt hclock
  · intro a ha newer older w' w hwrites hpub
    have hmem : w' ∈ (s.cells (.head a.ref)).writes := by simp [hwrites]
    obtain ⟨m, hsite, hid, hlegit⟩ := hpublished hmem hpub
    obtain ⟨b, hb, href, -, version, -, -, rfl⟩ := hlegit.committed hids hid
    obtain rfl : b = a := participants_unique hvalid hb ha href
    have hlinear := h.linear b.ref
    have hsorted := hlinear.sortedDeltas w (by simp [hwrites])
    rw [hwrites] at hlinear
    obtain ⟨⟨action, hstep, -, hlabel⟩, -⟩ := linear_consecutive hlinear
    obtain ⟨fingerprint, hm⟩ := action.mutation_of_site (hlabel.symm.trans hsite)
    rcases hstep.classify hsorted with ⟨hnone, -⟩ | ⟨m', fingerprint', hm', hpublishes⟩
    · rw [hnone] at hm
      cases hm
    · rw [hm'] at hm
      cases hm
      have hperm : (plan.final codec b true version).changes.Perm (lockRemoval version :: b.changes) :=
        perm_insertionSort _ _
      refine ⟨_, fingerprint, version, hpublishes, rfl, rfl, hperm, fun change hchange => ?_⟩
      exact hpublishes.preconditions change (hperm.symm.subset (.tail _ hchange))

/-- In every run in which all calls that name a transition run the same plan, and nothing else uses its
mutation IDs, the transition is atomic as long as it is retained. -/
theorem transition_atomic (codec : Codec) (loops depth : Nat) (now : Time) (plan : TransitionPlan)
    (hvalid : validateTransitionPlan plan = .ok ()) (hids : plan.OwnIDs codec) (cfg : TransitionConfig)
    (hreach : Reach (TransitionCall.body codec loops depth) (onePlanPolicy codec plan) (startConfig now) cfg)
    (hclock : cfg.state.clock < plan.retainUntil) : TransitionAtomic codec plan cfg.state :=
  (reach_atomicInv hreach).atomic hvalid hids hclock

/-! ## A transition in two domains -/

def pairPlan : TransitionPlan :=
  { transitionID := "x", fingerprint := "intent", retainUntil := 100, result := "done"
    participants :=
      [{ kind := .domainOwnerControl, domainID := "owner"
         changes := [{ key := "k", require := .any, value := .raw "1" }] },
       { kind := .domainShare, domainID := "share"
         changes := [{ key := "k", require := .any, value := .raw "2" }] }] }

theorem pairPlan_valid : validateTransitionPlan pairPlan = .ok () := by decide +kernel

theorem pairPlan_ownIDs : pairPlan.OwnIDs Codec.plain := ⟨by decide +kernel, by decide +kernel⟩

def transitionSteps (task n : Nat) : List TransitionEvent := List.replicate n (.step task .none)

def runTransitions (events : List TransitionEvent) : TransitionConfig :=
  (startConfig 1).run (TransitionCall.body Codec.plain 5 3) events

def helpedRun : List TransitionEvent :=
  [.spawn (.transact pairPlan)] ++ transitionSteps 0 19 ++
    [.spawn (.helpTransition "x")] ++ transitionSteps 1 20

theorem helpedRun_meets : (onePlanPolicy Codec.plain pairPlan).MeetsAll
    (TransitionCall.body Codec.plain 5 3) (startConfig 1) helpedRun := by
  refine .of_forall fun e he cfg => ?_
  simp only [helpedRun, transitionSteps, mem_append, mem_singleton, mem_replicate] at he
  rcases he with ((rfl | ⟨-, rfl⟩) | rfl) | ⟨-, rfl⟩
  · exact .inl rfl
  · exact fun _ _ _ _ => trivial
  · trivial
  · exact fun _ _ _ _ => trivial

theorem helpedRun_end : (runTransitions helpedRun).state.clock < pairPlan.retainUntil ∧
    ∀ a ∈ pairPlan.participants, PublishedID (runTransitions helpedRun).state a.ref "x" := by
  unfold PublishedID IDPublished
  decide +kernel

theorem transition_atomic_helpedRun : TransitionAtomic Codec.plain pairPlan (runTransitions helpedRun).state ∧
      ∀ a ∈ pairPlan.participants, PublishedID (runTransitions helpedRun).state a.ref "x" :=
  ⟨transition_atomic Codec.plain 5 3 1 pairPlan pairPlan_valid pairPlan_ownIDs _ (.of_run helpedRun_meets)
    helpedRun_end.1, helpedRun_end.2⟩

def hastyPlan : TransitionPlan := { pairPlan with retainUntil := 10 }

/-- The first replica has read that there is no decision and pauses. The retry runs the transition to
its end with outcomes that are retained until 10 only. After that the first replica goes on: it finds
neither lock nor outcome, and the transition is applied once more. -/
def repeatedRun : List TransitionEvent :=
  [.spawn (.transact pairPlan)] ++ transitionSteps 0 2 ++
    [.spawn (.transact hastyPlan)] ++ transitionSteps 1 30 ++
    [.drift 10] ++ transitionSteps 0 30

theorem transition_repeated : validateTransitionPlan pairPlan = .ok () ∧ validateTransitionPlan hastyPlan = .ok () ∧
      Reach (TransitionCall.body Codec.plain 5 3) (Policy.any bucketMachine TransitionCall) (startConfig 1)
        (runTransitions repeatedRun) ∧ (runTransitions repeatedRun).state.clock < pairPlan.retainUntil ∧
      ¬ TransitionAtomic Codec.plain pairPlan (runTransitions repeatedRun).state := by
  have hend : (runTransitions repeatedRun).state.clock < pairPlan.retainUntil ∧
      ¬ ∀ a ∈ pairPlan.participants, ((runTransitions repeatedRun).state.cells (.head a.ref)).writes.countP
        (fun w => w.site.publishes pairPlan.transitionID) ≤ 1 := by
    decide +kernel
  exact ⟨pairPlan_valid, by decide +kernel, Reach.run_any _ _, hend.1, fun h => hend.2 h.once⟩

end EndlessFS
