import EndlessFS.Domain.Linear
import EndlessFS.Transition.Programs

/-!
# EndlessFS.Transition.Protocol

What the programs of `Transition.Programs` do to a bucket, proved once for any invariant that survives
their writes (`TransitionProtocol`), in the way of `Domain.Protocol`.

* `Decided`: a decision that was written for a plan; histories never forget it.
* A decision rests on a `Verdict`: all participants are prepared, or one of them fails. A participant
  is finalized only after a decision.
-/

namespace EndlessFS

open Conc (Store Fault StoreOp PutCondition Write)

def Decided (s : Bucket) (plan : TransitionPlan) (decision : TransitionDecision) : Prop :=
  ∃ w ∈ (s.cells (.decision plan.transitionID)).writes, w.value = decision

variable {decision : TransitionDecision} {s : Bucket} {plan : TransitionPlan}

theorem Decided.mono {t : Bucket} (h : Decided s plan decision) (hle : Store.Le s t) : Decided t plan decision := by
  obtain ⟨w, hw, hd⟩ := h
  exact ⟨w, (hle.writes _).subset hw, hd⟩

def TransitionPlan.prepared (codec : Codec) (plan : TransitionPlan) (ref : DomainRef) : Mutation :=
  Protocol.boundMutation (plan.prepareMutation codec ref) plan.retainUntil

def TransitionPlan.final (codec : Codec) (plan : TransitionPlan) (participant : TransitionParticipant)
    (committed : Bool) (version : String) : Mutation :=
  Protocol.boundMutation (plan.finalMutation codec participant committed version) plan.retainUntil

theorem TransitionPlan.finalMutation_retainUntil (codec : Codec) (plan : TransitionPlan)
    (participant : TransitionParticipant) (committed : Bool) (version : String) :
    (plan.finalMutation codec participant committed version).retainUntil = plan.retainUntil := by
  cases committed <;> rfl

theorem TransitionPlan.finalMutation_expectedRevision (codec : Codec) (plan : TransitionPlan)
    (participant : TransitionParticipant) (committed : Bool) (version : String) :
    (plan.finalMutation codec participant committed version).expectedRevision = none := by
  cases committed <;> rfl

def Verdict (Prepared : TransitionPlan → DomainRef → Prop)
    (Fails : TransitionPlan → TransitionParticipant → Error → Prop) (plan : TransitionPlan) :
    Option Error → Prop
  | none => ∀ participant ∈ plan.participants, Prepared plan participant.ref
  | some e => deterministicTransitionFailure e = true ∧ ∃ before participant after,
      plan.participants = before ++ participant :: after ∧
        (∀ p ∈ before, Prepared plan p.ref) ∧ Fails plan participant e

theorem Verdict.weaken {Prepared Prepared' : TransitionPlan → DomainRef → Prop}
    {Fails : TransitionPlan → TransitionParticipant → Error → Prop} {q : TransitionPlan} {failure : Option Error}
    (h : Verdict Prepared Fails q failure) (himp : ∀ r, Prepared q r → Prepared' q r) :
      Verdict Prepared' Fails q failure := by
  cases failure with
  | none => exact fun p hp => himp _ (h p hp)
  | some e =>
    obtain ⟨hdet, before, participant, after, hsplit, hbefore, hfails⟩ := h
    exact ⟨hdet, before, participant, after, hsplit, fun p hp => himp _ (hbefore p hp), hfails⟩

/-- `prepareTransitionParticipant009` loads this snapshot of the participant in state `u`. -/
structure PrepareVisit (Inv : Bucket → Prop) (ok : OpPolicy) (plan : TransitionPlan)
    (participant : TransitionParticipant) (u : Bucket) (snapshot : HeadSnapshot) : Prop where
  inv : Inv u
  allowed : ok u .none (.get (.prepareLoad plan participant) (.head participant.ref))
  current : currentSnapshot u participant.ref = snapshot

/-- The same for `finalizeTransitionParticipant009`. -/
structure FinalizeVisit (Inv : Bucket → Prop) (ok : OpPolicy) (plan : TransitionPlan)
    (participant : TransitionParticipant) (committed : Bool) (u : Bucket) (snapshot : HeadSnapshot) : Prop where
  inv : Inv u
  allowed : ok u .none (.get (.finalizeLoad plan participant committed) (.head participant.ref))
  current : currentSnapshot u participant.ref = snapshot
  decided : ∃ decision, Decided u plan decision ∧ decision.committed = committed

/-- An invariant of the bucket that the writes of transitions keep as well. -/
structure TransitionProtocol (codec : Codec) extends Protocol codec where
  /-- The plans that callers hand in. -/
  Given : TransitionPlan → Prop
  given_valid : ∀ {plan : TransitionPlan}, Given plan → plan.retainUntil ≠ 0
  /-- The plan is being run. -/
  Plan : Bucket → TransitionPlan → Prop
  plan_mono : ∀ {s t : Bucket} {plan : TransitionPlan}, Store.Le s t → Plan s plan → Plan t plan
  plan_given : ∀ {s : Bucket} {plan : TransitionPlan}, Plan s plan → Given plan
  /-- The participant holds, or held, the plan's lock. -/
  Prepared : Bucket → TransitionPlan → DomainRef → Prop
  prepared_mono : ∀ {s t : Bucket} {plan : TransitionPlan} {ref : DomainRef}, Store.Le s t →
    Prepared s plan ref → Prepared t plan ref
  /-- The participant's preconditions were seen to hold. -/
  Passes : TransitionPlan → TransitionParticipant → Prop
  /-- The participant cannot be prepared, for this reason. -/
  Fails : TransitionPlan → TransitionParticipant → Error → Prop
  passes : ∀ {u : Bucket} {plan : TransitionPlan} {participant : TransitionParticipant}
    {snapshot : HeadSnapshot}, Plan u plan → participant ∈ plan.participants →
    PrepareVisit Inv ok plan participant u snapshot → preparedLock participant.ref snapshot = .ok none →
    validateMutationAtHead (liveHead participant.ref snapshot) participant.changes = .ok () →
    Passes plan participant
  prepare_legit : ∀ {s : Bucket} {plan : TransitionPlan} {participant : TransitionParticipant}
    {before after : List TransitionParticipant}, Inv s → Plan s plan →
    plan.participants = before ++ participant :: after → (∀ p ∈ before, Prepared s plan p.ref) →
    Passes plan participant → Legit s participant.ref (plan.prepared codec participant.ref)
  prepared_of_recorded : ∀ {s : Bucket} {plan : TransitionPlan} {participant : TransitionParticipant}
    {fingerprint : String}, Inv s → Plan s plan → participant ∈ plan.participants →
    Recorded codec s participant.ref (plan.prepareID codec) fingerprint → Prepared s plan participant.ref
  prepared_of_lock : ∀ {s : Bucket} {plan : TransitionPlan} {participant : TransitionParticipant}
    {version : Nat} {head : DomainHead} {lock : TransitionLock} {value : DomainValue}, Inv s →
    Plan s plan → participant ∈ plan.participants → s.Seen (.head participant.ref) version head →
    transitionLockAtHead participant.ref head = .ok (some (lock, value)) → plan.owns lock = true →
    Prepared s plan participant.ref
  final_legit : ∀ {s : Bucket} {plan : TransitionPlan} {participant : TransitionParticipant}
    {decision : TransitionDecision} {version : String}, Inv s → Plan s plan →
    participant ∈ plan.participants → Decided s plan decision →
    Legit s participant.ref (plan.final codec participant decision.committed version)
  decide : ∀ {s : Bucket} {plan : TransitionPlan} {failure : Option Error} {now : Time}, Inv s →
    Plan s plan → (s.cells (.decision plan.transitionID)).current = none →
    Verdict (Prepared s) Fails plan failure ∨ plan.retainUntil ≤ s.clock ∧ failure.isSome → now ≤ s.clock →
    validateTransitionDecision (plan.decide failure now) = .ok () →
    Inv (s.write .plain (.decision plan.transitionID) (plan.decide failure now))
  create : ∀ {s : Bucket} {plan : TransitionPlan}, Inv s → Given plan →
    (s.cells (.plan plan.transitionID)).current = none →
    Inv (s.write .plain (.plan plan.transitionID) plan)
  created : ∀ {s : Bucket} {plan : TransitionPlan}, Inv s → Given plan →
    (s.cells (.plan plan.transitionID)).writes ≠ [] → Plan s plan
  stored : ∀ {s : Bucket} {transitionID : String} {version : Nat} {plan : TransitionPlan}, Inv s →
    s.Seen (.plan transitionID) version plan → Plan s plan
  collect : ∀ {s : Bucket} {f : Fault} {site : Site} {version : Nat} {plan : TransitionPlan}, Inv s → Plan s plan →
    plan.retainUntil ≤ s.clock →
    (ok s f (.delete site (.decision plan.transitionID) version) → Inv (s.erase (.decision plan.transitionID))) ∧
      (ok s f (.delete site (.plan plan.transitionID) version) → Inv (s.erase (.plan plan.transitionID)))

namespace TransitionProtocol

variable {codec : Codec} (T : TransitionProtocol codec) {t : Bucket} {E : Error → Prop}

/-! ## Plan and decision objects -/

variable {k : ObjectKey}

theorem requireObject (hun : E transportError)
    (hmissing : ∀ u, Store.Le s u → T.Inv u → (u.cells k).current = none → ∀ e, e.kind = .notFound → E e) :
    Ensures T.Inv T.ok E (fun t p => t.Seen k p.1 p.2) (requireObject k) s := by
  refine .bind (.getObject hun T.note) ?_
  rintro t r - - ⟨u, hsu, hI, -, rfl, hut⟩
  have hut := (Store.le_note u _).trans hut
  cases hc : (u.cells k).current with
  | none => exact .throw (hmissing u hsu hI hc _ rfl)
  | some p => exact .pure fun v hv _ => ((T.wf hI).seen_of_current hc).mono (hut.trans hv)

theorem createOrReadTransitionPlan (hgiven : T.Given plan) :
    Ensures T.Inv T.ok (fun _ => True) (fun t _ => T.Plan t plan) (createOrReadTransitionPlan plan) s := by
  refine .bind (.createObject (fun h => T.wf h) fun u f _ hI _ habsent =>
    T.create hI hgiven habsent) fun t r _ hI hr => ?_
  cases r with
  | ok version =>
    rcases hr with ⟨e, he, -⟩ | ⟨hwritten, -⟩
    · cases he
    · exact .pure fun v hv _ => T.plan_mono hv (T.created hI hgiven hwritten)
  | error e =>
    refine .rejectIf_bind (fun _ => trivial) fun hrace => ?_
    have hplan : T.Plan t plan := by
      rcases hr with ⟨e', he, hkind⟩ | ⟨hwritten, -⟩
      · cases he
        simp [Error.isRace, hkind] at hrace
      · exact T.created hI hgiven hwritten
    refine .bind (T.requireObject trivial fun _ _ _ _ _ _ => trivial) fun u found hle _ _ => ?_
    refine .except_bind (fun _ _ => trivial) fun _ _ => ?_
    refine .rejectIf_bind (fun _ => trivial) fun _ => ?_
    exact .pure fun v hv _ => T.plan_mono (hle.trans hv) hplan

structure DecisionErrors (E : Error → Prop) (plan : TransitionPlan) : Prop where
  unavailable : ∀ e, e.kind = .unavailable → E e
  decode : ∀ s decision, T.Inv s → Decided s plan decision →
    ∀ e, decodeTransitionDecision plan decision = .error e → E e

theorem readTransitionDecision (hE : T.DecisionErrors E plan) :
    Ensures T.Inv T.ok E (fun t o => (∀ d ∈ o, Decided t plan d) ∧ (o = none → ∃ u, Store.Le s u ∧
      T.Inv u ∧ (u.cells (.decision plan.transitionID)).current = none)) (readTransitionDecision plan) s := by
  refine .bind (.getObject (hE.unavailable _ rfl) T.note) ?_
  rintro t r - - ⟨u, hsu, hI, -, rfl, hut⟩
  have hut := (Store.le_note u _).trans hut
  cases hc : (u.cells (.decision plan.transitionID)).current with
  | none => exact .pure fun v hv _ => ⟨fun d hd => (by cases hd), fun _ => ⟨u, hsu, hI, hc⟩⟩
  | some p =>
    obtain ⟨w, hw, -, hval⟩ := (T.wf hI).seen_of_current hc
    have hdecided : Decided u plan p.2 := ⟨w, hw, hval⟩
    refine .except_bind (hE.decode u p.2 hI hdecided) fun _ _ => .pure fun v hv _ => ?_
    refine ⟨fun d hd => ?_, fun h => by cases h⟩
    cases hd
    exact hdecided.mono (hut.trans hv)

/-- What deciding may report after a verdict. -/
structure VerdictErrors (E : Error → Prop) (plan : TransitionPlan) (failure : Option Error) : Prop
    extends T.DecisionErrors E plan where
  validate : ∀ s now, T.Inv s → s.clock ≤ now →
    ∀ e, validateTransitionDecision (plan.decide failure now) = .error e → E e
  gone : ∀ s, T.Inv s → (s.cells (.decision plan.transitionID)).writes ≠ [] →
    (s.cells (.decision plan.transitionID)).current = none → ∀ e, E e
  disagrees : ∀ s decision, T.Inv s → Decided s plan decision →
    decision.committed ≠ failure.isNone ∨ decision.errorKind ≠ failure.map (·.kind) → ∀ e, E e

variable {failure : Option Error}

theorem confirmDecision {now : Time} (hE : T.VerdictErrors E plan failure)
    (hwritten : (s.cells (.decision plan.transitionID)).writes ≠ []) :
    Ensures T.Inv T.ok E (fun t d => Decided t plan d) (confirmDecision plan (plan.decide failure now)) s := by
  refine .bind (T.readTransitionDecision hE.toDecisionErrors) fun t o hle hI ho => ?_
  cases o with
  | none =>
    obtain ⟨u, hsu, hIu, hnone⟩ := ho.2 rfl
    refine .throw (hE.gone u hIu (fun hnil => hwritten ?_) hnone _)
    exact List.suffix_nil.mp (hnil ▸ hsu.writes _)
  | some existing =>
    have hd := ho.1 existing rfl
    refine .rejectIf_bind (fun hdis => ?_) fun _ => .pure fun v hv _ => hd.mono hv
    simp only [Bool.or_eq_true, decide_eq_true_eq] at hdis
    exact hE.disagrees t existing hI hd hdis _

theorem decideTransition (hI : T.Inv s) (hplan : T.Plan s plan) (hE : T.VerdictErrors E plan failure)
    (hverdict : Verdict (T.Prepared s) T.Fails plan failure ∨ plan.retainUntil ≤ s.clock ∧ failure.isSome) :
    Ensures T.Inv T.ok E (fun t d => Decided t plan d) (decideTransition plan failure) s := by
  refine .bind .clockNow fun s₁ now hle₁ hI₁ hnow => ?_
  refine .except_bind (hE.validate s now hI hnow.1) fun _ hvalid => ?_
  refine .bind (.createObject (fun h => T.wf h) fun u f hle hIu _ habsent => ?_) fun s₂ r hle₂ hI₂ hr => ?_
  · have hle' := hle₁.trans hle
    refine T.decide hIu (T.plan_mono hle' hplan) habsent ?_ (hnow.2.trans hle.clock) hvalid
    exact hverdict.imp (fun h => h.weaken fun _ => T.prepared_mono hle') fun h => ⟨h.1.trans hle'.clock, h.2⟩
  cases r with
  | ok version =>
    rcases hr with ⟨e, he, -⟩ | ⟨hwritten, -⟩
    · cases he
    · exact T.confirmDecision hE hwritten
  | error putErr =>
    dsimp only
    split
    · rename_i hrace
      rcases hr with ⟨e, he, hkind⟩ | ⟨hwritten, -⟩
      · cases he
        simp [Error.isRace, hkind] at hrace
      · exact T.confirmDecision hE hwritten
    · rename_i hrace
      have hputErr : E putErr := by
        rcases hr with ⟨e, he, hkind⟩ | ⟨-, hall⟩
        · cases he
          exact hE.unavailable _ hkind
        · exact absurd (hall _ rfl) hrace
      refine .bind (.attempt (T.readTransitionDecision hE.toDecisionErrors)) fun s₃ r hle₃ hI₃ hr => ?_
      cases r with
      | error e => exact .throw hputErr
      | ok o =>
        cases o with
        | none => exact .throw hputErr
        | some recovered => exact .pure fun v hv _ => (hr.1 recovered rfl).mono hv

/-! ## Participants -/

/-- What preparing a participant may report; `E'` are the errors of the mutation that places the lock. -/
structure PrepareErrors (E' E : Error → Prop) (plan : TransitionPlan) (participant : TransitionParticipant) :
    Prop where
  read : T.ReadErrors E participant.ref
  mutate : T.Errors E' participant.ref
  mutation : T.MutationErrors E' participant.ref (plan.prepared codec participant.ref)
  normalize : ∀ e, normalizeMutation codec (plan.prepareMutation codec participant.ref) = .error e → E' e
  retry : ∀ e, E' e → e.isRace = false → E e
  lock : ∀ u snapshot, PrepareVisit T.Inv T.ok plan participant u snapshot →
    ∀ e, preparedLock participant.ref snapshot = .error e → E e
  other : ∀ u snapshot lock, PrepareVisit T.Inv T.ok plan participant u snapshot →
    preparedLock participant.ref snapshot = .ok (some lock) → plan.owns lock = false → ∀ e, E e
  validate : ∀ u snapshot, PrepareVisit T.Inv T.ok plan participant u snapshot →
    preparedLock participant.ref snapshot = .ok none →
    ∀ e, validateMutationAtHead (liveHead participant.ref snapshot) participant.changes = .error e → E e

def Helps (help : String → Action Unit) : Prop :=
  ∀ (s : Bucket) (transitionID : String),
    Ensures T.Inv T.ok (fun _ => True) (fun _ _ => True) (help transitionID) s

variable {participant : TransitionParticipant} {loops : Nat} {help : String → Action Unit} {E' : Error → Prop}
  {ref : DomainRef} {snapshot : HeadSnapshot}

theorem mutatePlan (plan : TransitionPlan) (loops : Nat) {mutation : Mutation}
    (hE : T.Errors E' ref) (hretain : mutation.retainUntil = plan.retainUntil)
    (hbound : mutation.retainUntil ≠ 0) (hrev : mutation.expectedRevision = none) (hs : snapshot.Valid codec ref s)
    (hlegit : T.Legit s ref (Protocol.boundMutation mutation plan.retainUntil))
    (hmutation : T.MutationErrors E' ref (Protocol.boundMutation mutation plan.retainUntil))
    (hnormalize : ∀ e, normalizeMutation codec mutation = .error e → E' e) :
    Ensures T.Inv T.ok E' (fun t _ => Recorded codec t ref mutation.id
        (codec.fingerprint (sortChanges mutation.changes) mutation.result))
      (mutateAtHead codec loops ref mutation (some snapshot)) s := by
  refine T.toProtocol.mutatePrepared hE (fun h => by cases h) (fun h => ?_) (fun x hx => ?_) fun retainUntil hret => ?_
  · rw [hrev] at h
    cases h
  · cases hx
    exact hs
  · obtain rfl : retainUntil = plan.retainUntil := (hret rfl hbound).trans hretain
    refine ⟨hlegit, hmutation, fun e he => hnormalize e ?_⟩
    rw [← he, ← hretain]

theorem preparedLock_some {lock : TransitionLock} (h : preparedLock ref snapshot = .ok (some lock))
    (hs : snapshot.Valid codec ref s) : ∃ version value, s.Seen (.head ref) version snapshot.head ∧
      transitionLockAtHead ref snapshot.head = .ok (some (lock, value)) := by
  unfold preparedLock at h
  split at h
  · rename_i hlive
    simp only [Bool.and_eq_true] at hlive
    obtain ⟨_, -, h⟩ := Except.bind_ok h
    obtain ⟨o, ho, h⟩ := Except.bind_ok h
    obtain ⟨head, version⟩ := snapshot
    cases version with
    | none => cases hlive.1
    | some version =>
      cases o with
      | none => cases h
      | some p =>
        cases h
        exact ⟨version, p.2, hs.1, ho⟩
  · cases h

variable {attempts : Nat}

theorem prepareLoop (hE : T.PrepareErrors E' E plan participant) (hhelp : T.Helps help) (hplan : T.Plan s plan)
    {before after : List TransitionParticipant} (hsplit : plan.participants = before ++ participant :: after)
    (hbefore : ∀ p ∈ before, T.Prepared s plan p.ref) :
    Ensures T.Inv T.ok E (fun t _ => T.Prepared t plan participant.ref)
      (prepareLoop codec loops help plan participant attempts) s := by
  have hmem : participant ∈ plan.participants := by simp [hsplit]
  induction attempts generalizing s with
  | zero => exact .throw (hE.read.unavailable _ rfl)
  | succ attempts ih =>
    have hagain : ∀ {t : Bucket}, Store.Le s t → Ensures T.Inv T.ok E (fun t _ => T.Prepared t plan participant.ref)
        (EndlessFS.prepareLoop codec loops help plan participant attempts) t := fun hle =>
      ih (T.plan_mono hle hplan) fun p hp => T.prepared_mono hle (hbefore p hp)
    refine .bind (T.loadHeadAt hE.read) ?_
    rintro s₁ snapshot hle₁ hI₁ ⟨hs, u, hsu, hIu, hok, hcur, hut⟩
    have hvisit : PrepareVisit T.Inv T.ok plan participant u snapshot := ⟨hIu, hok, hcur⟩
    refine .except_bind (hE.lock u snapshot hvisit) fun o hlock => ?_
    cases o with
    | some lock =>
      dsimp only
      split
      · rename_i howns
        obtain ⟨version, value, hseen, hl⟩ := preparedLock_some hlock hs
        refine .pure fun t ht _ => T.prepared_mono ht ?_
        exact T.prepared_of_lock hI₁ (T.plan_mono hle₁ hplan) hmem hseen hl howns
      · rename_i howns
        have hany := hE.other u snapshot lock hvisit hlock (by simpa using howns)
        refine .bind ((hhelp s₁ lock.transitionID).weaken_error fun e _ => hany e) fun t _ hle _ _ => ?_
        exact hagain (hle₁.trans hle)
    | none =>
      refine .except_bind (hE.validate u snapshot hvisit hlock) fun _ hvalid => ?_
      have hpasses := T.passes (T.plan_mono hsu hplan) hmem hvisit hlock hvalid
      have hplan₁ := T.plan_mono hle₁ hplan
      have hlegit := T.prepare_legit hI₁ hplan₁ hsplit (fun p hp => T.prepared_mono hle₁ (hbefore p hp)) hpasses
      have hmutate := T.mutatePlan plan loops hE.mutate rfl
        (T.given_valid (T.plan_given hplan)) rfl hs hlegit hE.mutation hE.normalize
      refine .bind (.attempt hmutate) fun t r hle hI hr => ?_
      cases r with
      | ok o =>
        refine .pure fun v hv hIv => T.prepared_mono hv ?_
        exact T.prepared_of_recorded hI (T.plan_mono hle hplan₁) hmem hr
      | error e =>
        dsimp only
        split
        · exact hagain (hle₁.trans hle)
        · rename_i hrace
          exact .throw (hE.retry e hr (by simpa using hrace))

/-- What finalizing a participant may report; `E'` are the errors of the mutation that releases it. -/
structure FinalizeErrors (E' E : Error → Prop) (plan : TransitionPlan) (participant : TransitionParticipant)
    (committed : Bool) : Prop where
  read : T.ReadErrors E participant.ref
  mutate : T.Errors E' participant.ref
  mutation : ∀ version, T.MutationErrors E' participant.ref (plan.final codec participant committed version)
  normalize : ∀ version e,
    normalizeMutation codec (plan.finalMutation codec participant committed version) = .error e → E' e
  retry : ∀ e, E' e → e.isRace = false → e.kind ≠ .notFound → E e
  missing : ∀ u snapshot, FinalizeVisit T.Inv T.ok plan participant committed u snapshot →
    (snapshot.exists && snapshot.head.registered) = false → committed = true → ∀ e, E e
  lookup : ∀ u snapshot now, FinalizeVisit T.Inv T.ok plan participant committed u snapshot → committed = true →
    ∀ e, lookupOutcomeAtHead now snapshot.head plan.transitionID = .error e → E e
  misbound : ∀ u snapshot now outcome, FinalizeVisit T.Inv T.ok plan participant committed u snapshot →
    lookupOutcomeAtHead now snapshot.head plan.transitionID = .ok (some outcome) →
    outcome.result ≠ plan.result → ∀ e, E e
  lock : ∀ u snapshot, FinalizeVisit T.Inv T.ok plan participant committed u snapshot →
    ∀ e, transitionLockAtHead participant.ref snapshot.head = .error e → E e
  absent : ∀ u snapshot now, FinalizeVisit T.Inv T.ok plan participant committed u snapshot →
    committed = true → u.clock ≤ now → now < plan.retainUntil →
    lookupOutcomeAtHead now snapshot.head plan.transitionID = .ok none →
    transitionLockAtHead participant.ref snapshot.head = .ok none → ∀ e, E e
  other : ∀ u snapshot lock, FinalizeVisit T.Inv T.ok plan participant committed u snapshot →
    transitionLockAtHead participant.ref snapshot.head = .ok (some lock) → plan.owns lock.1 = false → ∀ e, E e

variable {committed : Bool}

theorem committedOutcome {head : DomainHead}
    (he : committed = true → ∀ now e, lookupOutcomeAtHead now head plan.transitionID = .error e → E e) :
    Ensures T.Inv T.ok E (fun t o => (committed = false ∧ o = none) ∨ ∃ now, s.clock ≤ now ∧ now ≤ t.clock ∧
      lookupOutcomeAtHead now head plan.transitionID = .ok o) (committedOutcome plan committed head) s := by
  cases committed with
  | false => exact .pure fun _ _ _ => .inl ⟨rfl, rfl⟩
  | true => exact (T.lookupOutcome (he rfl)).weaken fun _ _ _ _ h => .inr h

theorem missingLock (he : committed = true → ∀ now, s.clock ≤ now → now < plan.retainUntil →
    ∀ e, E e) : Ensures T.Inv T.ok E (fun _ _ => True) (missingLock plan committed) s := by
  cases committed with
  | false => exact .pure fun _ _ _ => trivial
  | true =>
    refine .bind .clockNow fun t now _ _ hnow => ?_
    refine .except (fun e hrej => ?_) fun _ _ _ _ _ => trivial
    unfold rejectIf at hrej
    split at hrej
    · rename_i hlt
      exact he rfl now hnow.1 (by simpa using hlt) e
    · cases hrej

theorem finalizeLoop (hE : T.FinalizeErrors E' E plan participant decision.committed) (hplan : T.Plan s plan)
    (hmem : participant ∈ plan.participants) (hdecided : Decided s plan decision) :
    Ensures T.Inv T.ok E (fun _ _ => True)
      (finalizeLoop codec loops plan participant decision.committed attempts) s := by
  induction attempts generalizing s with
  | zero => exact .throw (hE.read.unavailable _ rfl)
  | succ attempts ih =>
    refine .bind (T.loadHeadAt hE.read) ?_
    rintro s₁ snapshot hle₁ hI₁ ⟨hs, u, hsu, hIu, hok, hcur, hut⟩
    have hvisit : FinalizeVisit T.Inv T.ok plan participant decision.committed u snapshot :=
      ⟨hIu, hok, hcur, decision, hdecided.mono hsu, rfl⟩
    split
    · rename_i hdead
      refine .except (fun e he => ?_) fun _ _ _ _ _ => trivial
      unfold rejectIf at he
      split at he
      · rename_i hcommitted
        exact hE.missing u snapshot hvisit (by simpa only [Bool.not_eq_true'] using hdead) hcommitted e
      · cases he
    refine .bind (T.committedOutcome fun hc now => hE.lookup u snapshot now hvisit hc) fun s₂ o hle₂ hI₂ ho => ?_
    cases o with
    | some outcome =>
      refine .except (fun e he => ?_) fun _ _ _ _ _ => trivial
      unfold rejectIf at he
      split at he
      · rename_i hresult
        rcases ho with ⟨-, ho⟩ | ⟨now, -, -, ho⟩
        · cases ho
        · exact hE.misbound u snapshot now outcome hvisit ho (by simpa using hresult) e
      · cases he
    | none =>
      refine .except_bind (hE.lock u snapshot hvisit) fun lock hlock => ?_
      cases lock with
      | none =>
        refine T.missingLock fun hcommitted now hlo hnow => ?_
        rcases ho with ⟨hc, -⟩ | ⟨now', hlo', hhi', ho⟩
        · rw [hc] at hcommitted
          cases hcommitted
        · exact hE.absent u snapshot now' hvisit hcommitted (hut.clock.trans hlo')
            ((hhi'.trans hlo).trans_lt hnow) ho hlock
      | some found =>
        obtain ⟨lock, value⟩ := found
        refine .rejectIf_bind (fun hown => ?_) fun _ => ?_
        · exact hE.other u snapshot (lock, value) hvisit hlock (by simpa using hown) _
        have hplan₂ := T.plan_mono (hle₁.trans hle₂) hplan
        have hdecided₂ := hdecided.mono (hle₁.trans hle₂)
        have hlegit : T.Legit s₂ participant.ref (plan.final codec participant decision.committed
            value.logicalVersion) :=
          T.final_legit hI₂ hplan₂ hmem hdecided₂
        have hmutate := T.mutatePlan plan loops hE.mutate
          (plan.finalMutation_retainUntil codec participant decision.committed value.logicalVersion)
          (by rw [plan.finalMutation_retainUntil]; exact T.given_valid (T.plan_given hplan))
          (plan.finalMutation_expectedRevision codec participant decision.committed value.logicalVersion)
          (hs.mono hle₂) hlegit (hE.mutation _) (hE.normalize _)
        refine .bind (.attempt hmutate) fun t r hle hI hr => ?_
        cases r with
        | ok o => exact .pure fun _ _ _ => trivial
        | error e =>
          dsimp only
          split
          · exact ih (T.plan_mono hle hplan₂) (hdecided₂.mono hle)
          · rename_i hretry
            simp only [Bool.or_eq_true, decide_eq_true_eq, not_or, Bool.not_eq_true] at hretry
            exact .throw (hE.retry e hr hretry.1 hretry.2)

variable {participants : List TransitionParticipant}

theorem finalizeAll (hE : ∀ p ∈ plan.participants, ∃ E', T.FinalizeErrors E' E plan p decision.committed)
    (hplan : T.Plan s plan) (hmem : ∀ p ∈ participants, p ∈ plan.participants) (hdecided : Decided s plan decision) :
    Ensures T.Inv T.ok E (fun _ _ => True) (finalizeAll codec loops plan decision participants) s := by
  induction participants generalizing s with
  | nil => exact .pure fun _ _ _ => trivial
  | cons participant rest ih =>
    have hp := hmem participant (.head _)
    obtain ⟨E', hE'⟩ := hE participant hp
    refine .bind (T.finalizeLoop hE' hplan hp hdecided) fun t _ hle _ _ => ?_
    exact ih (T.plan_mono hle hplan) (fun p hp => hmem p (.tail _ hp)) (hdecided.mono hle)

/-! ## Executing and helping -/

def PrepareFailure (E : Error → Prop) (plan : TransitionPlan) (participant : TransitionParticipant)
    (e : Error) : Prop :=
  if deterministicTransitionFailure e then T.Fails plan participant e else E e

/-- What executing a plan may report. -/
structure ExecuteErrors (E : Error → Prop) (plan : TransitionPlan) : Prop where
  decision : T.DecisionErrors E plan
  prepare : ∀ participant ∈ plan.participants,
    ∃ E', T.PrepareErrors E' (T.PrepareFailure E plan participant) plan participant
  verdict : ∀ s failure, T.Inv s → T.Plan s plan → Verdict (T.Prepared s) T.Fails plan failure →
    T.VerdictErrors E plan failure
  finalize : ∀ participant ∈ plan.participants, ∀ committed,
    ∃ E', T.FinalizeErrors E' E plan participant committed

theorem prepareAll (hE : T.ExecuteErrors E plan) (hhelp : T.Helps help) (hplan : T.Plan s plan)
    (before : List TransitionParticipant) {rest : List TransitionParticipant}
    (hsplit : plan.participants = before ++ rest) (hbefore : ∀ p ∈ before, T.Prepared s plan p.ref) :
    Ensures T.Inv T.ok E (fun t failure => Verdict (T.Prepared t) T.Fails plan failure)
      (prepareAll codec loops help plan rest) s := by
  induction rest generalizing s before with
  | nil =>
    refine .pure fun t ht _ p hp => T.prepared_mono ht (hbefore p ?_)
    rwa [hsplit, List.append_nil] at hp
  | cons participant rest ih =>
    obtain ⟨E', hE'⟩ := hE.prepare participant (by simp [hsplit])
    refine .bind (.attempt (T.prepareLoop hE' hhelp hplan hsplit hbefore)) fun t r hle hI hr => ?_
    have hbefore' : ∀ p ∈ before, T.Prepared t plan p.ref := fun p hp => T.prepared_mono hle (hbefore p hp)
    cases r with
    | ok _ =>
      refine ih (T.plan_mono hle hplan) (before ++ [participant]) (by simp [hsplit]) fun p hp => ?_
      rcases List.mem_append.mp hp with hp | hp
      · exact hbefore' p hp
      · rw [List.mem_singleton.mp hp]
        exact hr
    | error e =>
      dsimp only
      change T.PrepareFailure E plan participant e at hr
      unfold PrepareFailure at hr
      split
      · rename_i hdet
        rw [if_pos hdet] at hr
        refine .pure fun v hv _ => .weaken ?_ fun _ => T.prepared_mono hv
        exact ⟨hdet, before, participant, rest, hsplit, hbefore', hr⟩
      · rename_i hdet
        rw [if_neg hdet] at hr
        exact .throw hr

theorem executeWith (hE : T.ExecuteErrors E plan) (hhelp : T.Helps help) (hplan : T.Plan s plan) :
    Ensures T.Inv T.ok E (fun t decision => Decided t plan decision) (executeWith codec loops help plan) s := by
  have hfinish : ∀ {t : Bucket} {decision : TransitionDecision}, Store.Le s t → Decided t plan decision →
      Ensures T.Inv T.ok E (fun t decision => Decided t plan decision)
        (EndlessFS.finalizeAll codec loops plan decision plan.participants >>= fun _ => pure decision) t := by
    intro t decision hle hd
    refine .bind (T.finalizeAll (fun p hp => hE.finalize p hp _) (T.plan_mono hle hplan) (fun p hp => hp)
      hd) fun u _ hu _ _ => ?_
    exact .pure fun v hv _ => hd.mono (hu.trans hv)
  refine .bind (T.readTransitionDecision hE.decision) fun s₁ o hle₁ hI₁ ho => ?_
  cases o with
  | some decision => exact hfinish hle₁ (ho.1 decision rfl)
  | none =>
    have hplan₁ := T.plan_mono hle₁ hplan
    refine .bind (T.prepareAll hE hhelp hplan₁ [] rfl fun p hp => by cases hp) fun s₂ failure hle₂ hI₂ hverdict => ?_
    have hplan₂ := T.plan_mono hle₂ hplan₁
    refine .bind (T.decideTransition hI₂ hplan₂ (hE.verdict s₂ failure hI₂ hplan₂ hverdict) (.inl hverdict))
      fun s₃ decision hle₃ _ hd => ?_
    exact hfinish (hle₁.trans (hle₂.trans hle₃)) hd

def Executes (loops : Nat) : Prop :=
  ∀ {help : String → Action Unit} {s : Bucket} {plan : TransitionPlan}, T.Helps help → T.Plan s plan →
    Ensures T.Inv T.ok (fun _ => True) (fun t decision => Decided t plan decision)
      (EndlessFS.executeWith codec loops help plan) s

theorem DecisionErrors.any (plan : TransitionPlan) : T.DecisionErrors (fun _ => True) plan :=
  ⟨fun _ _ => trivial, fun _ _ _ _ _ _ => trivial⟩

theorem VerdictErrors.any (plan : TransitionPlan) (failure : Option Error) :
    T.VerdictErrors (fun _ => True) plan failure :=
  ⟨DecisionErrors.any T plan, fun _ _ _ _ _ _ => trivial, fun _ _ _ _ _ => trivial, fun _ _ _ _ _ _ => trivial⟩

theorem FinalizeErrors.any (plan : TransitionPlan) (participant : TransitionParticipant) (committed : Bool) :
    T.FinalizeErrors (fun _ => True) (fun _ => True) plan participant committed where
  read := (Protocol.Errors.any T.toProtocol participant.ref).toReadErrors
  mutate := Protocol.Errors.any T.toProtocol participant.ref
  mutation _ := Protocol.MutationErrors.any T.toProtocol participant.ref _
  normalize _ _ _ := trivial
  retry _ _ _ _ := trivial
  missing _ _ _ _ _ _ := trivial
  lookup _ _ _ _ _ _ _ := trivial
  misbound _ _ _ _ _ _ _ _ := trivial
  lock _ _ _ _ _ := trivial
  absent _ _ _ _ _ _ _ _ _ _ := trivial
  other _ _ _ _ _ _ _ := trivial

theorem ExecuteErrors.any {plan : TransitionPlan}
    (hfails : ∀ participant ∈ plan.participants, ∀ e, T.Fails plan participant e) :
    T.ExecuteErrors (fun _ => True) plan where
  decision := DecisionErrors.any T plan
  verdict _ failure _ _ _ := VerdictErrors.any T plan failure
  finalize participant _ committed := ⟨_, FinalizeErrors.any T plan participant committed⟩
  prepare participant hp := by
    have hall : ∀ e, T.PrepareFailure (fun _ => True) plan participant e := by
      intro e
      unfold PrepareFailure
      split
      · exact hfails participant hp e
      · trivial
    have hany := Protocol.Errors.any T.toProtocol participant.ref
    exact ⟨fun _ => True, ⟨fun e _ => hall e, fun e _ => hall e, fun _ _ _ _ _ e _ => hall e⟩, hany,
      Protocol.MutationErrors.any T.toProtocol participant.ref _, fun _ _ => trivial, fun e _ _ => hall e,
      fun _ _ _ e _ => hall e, fun _ _ _ _ _ _ e => hall e, fun _ _ _ _ e _ => hall e⟩

section

variable (hexec : T.Executes loops)
include hexec

theorem helpTransition (depth : Nat) : T.Helps (helpTransition codec loops depth) := by
  induction depth with
  | zero => exact fun s _ => .throw trivial
  | succ depth ih =>
    intro s transitionID
    refine .bind (φ := fun t plan => T.Plan t plan) ?_ fun t plan _ _ hplan => ?_
    · refine .bind (T.requireObject trivial fun _ _ _ _ _ _ => trivial) fun t found _ hI hseen => ?_
      refine .except_bind (fun _ _ => trivial) fun _ _ => .pure fun u hu hIu => ?_
      exact T.stored hIu (hseen.mono hu)
    · exact .bind (hexec ih hplan) fun _ _ _ _ _ => .pure fun _ _ _ => trivial

variable {depth : Nat}

theorem executeTransition (hplan : T.Plan s plan) :
    Ensures T.Inv T.ok (fun _ => True) (fun t decision => Decided t plan decision)
      (executeTransition codec loops depth plan) s :=
  hexec (T.helpTransition hexec depth) hplan

theorem resolveLoop : Ensures T.Inv T.ok (fun _ => True) (fun _ _ => True)
    (resolveLoop codec loops depth ref attempts) s := by
  induction attempts generalizing s with
  | zero => exact .throw trivial
  | succ attempts ih =>
    refine .bind (T.loadHead (Protocol.Errors.any T.toProtocol ref)) fun s₁ snapshot _ _ _ => ?_
    split
    · exact .pure fun _ _ _ => trivial
    refine .except_bind (fun _ _ => trivial) fun lock _ => ?_
    cases lock with
    | none => exact .pure fun _ _ _ => trivial
    | some lock => exact .bind (T.helpTransition hexec depth s₁ _) fun _ _ _ _ _ => ih

theorem transactPlan (hgiven : validateTransitionPlan plan = .ok () → T.Given plan) :
    Ensures T.Inv T.ok (fun _ => True) (fun _ _ => True) (transactPlan codec loops depth plan) s := by
  refine .except_bind (fun _ _ => trivial) fun _ hvalid => ?_
  refine .bind (T.createOrReadTransitionPlan (hgiven hvalid)) fun s₁ _ _ _ hplan => ?_
  refine .bind (T.executeTransition hexec hplan) fun s₂ decision _ _ _ => ?_
  exact .rejectIf_bind (fun _ => trivial) fun _ => .pure fun _ _ _ => trivial

end

/-! ## Expired transitions -/

theorem transitionHasLocks :
    Ensures T.Inv T.ok (fun _ => True) (fun _ _ => True) (transitionHasLocks codec plan participants) s := by
  induction participants generalizing s with
  | nil => exact .pure fun _ _ _ => trivial
  | cons participant rest ih =>
    refine .bind (.attempt (T.loadHead (Protocol.Errors.any T.toProtocol participant.ref))) fun t r _ _ _ => ?_
    cases r with
    | error e => exact ih
    | ok snapshot =>
      dsimp only
      split
      · exact ih
      refine .except_bind (fun _ _ => trivial) fun lock _ => ?_
      cases lock with
      | none => exact ih
      | some lock => exact .rejectIf_bind (fun _ => trivial) fun _ => .pure fun _ _ _ => trivial

theorem decideExpired (hI : T.Inv s) (hplan : T.Plan s plan) (hexpired : plan.retainUntil ≤ s.clock)
    {locked : Bool} {found : Option TransitionDecision} (hfound : ∀ d ∈ found, Decided s plan d) :
    Ensures T.Inv T.ok (fun _ => True) (fun t o => ∀ d ∈ o, Decided t plan d) (decideExpired plan locked found) s := by
  cases found with
  | some decision =>
    refine .pure fun t ht _ d hd => ?_
    cases hd
    exact (hfound decision rfl).mono ht
  | none =>
    cases locked with
    | false => exact .pure fun _ _ _ d hd => by cases hd
    | true =>
      refine .bind (.attempt (T.decideTransition hI hplan (VerdictErrors.any T plan _)
        (.inr ⟨hexpired, rfl⟩))) fun s₁ r _ _ hr => ?_
      cases r with
      | ok decision =>
        refine .pure fun t ht _ d hd => ?_
        cases hd
        exact Decided.mono hr ht
      | error e =>
        refine .bind (.attempt (T.readTransitionDecision (DecisionErrors.any T plan))) fun s₂ r _ _ hr => ?_
        cases r with
        | error e => exact .throw trivial
        | ok o =>
          cases o with
          | none => exact .throw trivial
          | some winner =>
            refine .pure fun t ht _ d hd => ?_
            cases hd
            exact (hr.1 winner rfl).mono ht

variable {version : Nat}

theorem deleteObject {site : Site} (h : ∀ u f, Store.Le s u → T.Inv u → T.ok u f (.delete site k version) →
      T.Inv (u.erase k)) :
    Ensures T.Inv T.ok (fun _ => True) (fun _ _ => True) (deleteObject site k version) s := by
  refine .bind (φ := fun _ _ => True) ?_ fun t r _ _ _ => ?_
  · intro u hle hI f hok
    have hdelete : T.Inv (u.delete k version).1 := by
      unfold Store.delete
      split
      · exact hI
      · split
        · exact h u f hle hI hok
        · exact hI
    cases f with
    | none => exact ⟨hdelete, fun _ _ _ => trivial⟩
    | dropRequest => exact ⟨hI, fun _ _ _ => trivial⟩
    | dropResponse => exact ⟨hdelete, fun _ _ _ => trivial⟩
  · cases r with
    | failed => exact .throw trivial
    | deleted => exact .pure fun _ _ _ => trivial
    | preconditionFailed => exact .pure fun _ _ _ => trivial
    | notFound => exact .pure fun _ _ _ => trivial

theorem deleteDecision (hplan : T.Plan s plan) (hexpired : plan.retainUntil ≤ s.clock) :
    Ensures T.Inv T.ok (fun _ => True) (fun _ _ => True) (deleteDecision plan) s := by
  refine .bind (.getObject trivial T.note) fun t r hle _ _ => ?_
  cases r with
  | none => exact .pure fun _ _ _ => trivial
  | some p =>
    refine T.deleteObject fun u f hu hI hok => (T.collect hI (T.plan_mono (hle.trans hu) hplan) ?_).1 hok
    exact hexpired.trans (hle.trans hu).clock

theorem collectExpiredTransition (hplan : T.Plan s plan) (hexpired : plan.retainUntil ≤ s.clock) :
    Ensures T.Inv T.ok (fun _ => True) (fun _ _ => True) (collectExpiredTransition codec loops plan version) s := by
  have hdeletePlan : ∀ {t : Bucket}, Store.Le s t → Ensures T.Inv T.ok (fun _ => True) (fun _ _ => True)
      (EndlessFS.deleteObject .plain (.plan plan.transitionID) version) t := fun hle =>
    T.deleteObject fun u f hu hI hok => (T.collect hI (T.plan_mono (hle.trans hu) hplan)
      (hexpired.trans (hle.trans hu).clock)).2 hok
  refine .bind (T.readTransitionDecision (DecisionErrors.any T plan)) fun s₁ found hle₁ _ hfound => ?_
  refine .bind T.transitionHasLocks fun s₂ locked hle₂ hI₂ _ => ?_
  have hle := hle₁.trans hle₂
  refine .bind (T.decideExpired hI₂ (T.plan_mono hle hplan) (hexpired.trans hle.clock)
    fun d hd => (hfound.1 d hd).mono hle₂) fun s₃ o hle₃ _ ho => ?_
  have hle := hle.trans hle₃
  cases o with
  | none => exact hdeletePlan hle
  | some decision =>
    refine .bind (φ := fun _ _ => True) ?_ fun s₄ _ hle₄ _ _ => ?_
    · unfold finalizeLocked
      split
      · exact T.finalizeAll (fun p _ => ⟨_, FinalizeErrors.any T plan p decision.committed⟩)
          (T.plan_mono hle hplan) (fun p hp => hp) (ho decision rfl)
      · exact .pure fun _ _ _ => trivial
    have hle := hle.trans hle₄
    refine .bind (T.deleteDecision (T.plan_mono hle hplan) (hexpired.trans hle.clock))
      fun s₅ _ hle₅ _ _ => hdeletePlan (hle.trans hle₅)

section

variable (hexec : T.Executes loops)
include hexec

variable {depth : Nat}

theorem resolvePlan {transitionID : String} :
    Ensures T.Inv T.ok (fun _ => True) (fun _ _ => True) (resolvePlan codec loops depth transitionID) s := by
  refine .bind (T.requireObject trivial fun _ _ _ _ _ _ => trivial) fun s₁ found _ hI₁ hseen => ?_
  have hplan := T.stored hI₁ hseen
  refine .except_bind (fun _ _ => trivial) fun _ _ => ?_
  refine .bind .clockNow fun s₂ now hle₂ _ hnow => ?_
  have hplan₂ := T.plan_mono hle₂ hplan
  split
  · exact .bind (T.executeTransition hexec hplan₂) fun _ _ _ _ _ => .pure fun _ _ _ => trivial
  · rename_i hexpired
    exact T.collectExpiredTransition hplan₂ ((not_lt.mp hexpired).trans hnow.2)

theorem resolvePlans {keys : List ObjectKey} :
    Ensures T.Inv T.ok (fun _ => True) (fun _ _ => True) (resolvePlans codec loops depth keys) s := by
  induction keys generalizing s with
  | nil => exact .pure fun _ _ _ => trivial
  | cons k rest ih =>
    cases k with
    | plan transitionID => exact .bind (T.resolvePlan hexec) fun _ _ _ _ _ => ih
    | _ => exact ih

theorem resolveAllTransitions :
    Ensures T.Inv T.ok (fun _ => True) (fun _ _ => True) (resolveAllTransitions codec loops depth) s := by
  refine .bind (φ := fun _ _ => True) ?_ fun t keys _ _ _ => ?_
  · exact fun u _ hI f _ => ⟨hI, fun _ _ _ => trivial⟩
  · cases keys with
    | none => exact .throw trivial
    | some keys => exact T.resolvePlans hexec

end

end TransitionProtocol

/-! ## Calls -/

/-- What replicas call: the domain store, and everything that runs or finishes a transition. -/
inductive TransitionCall where
  | domain (call : DomainCall)
  | transact (plan : TransitionPlan)
  | executeTransition (plan : TransitionPlan)
  | helpTransition (transitionID : String)
  | resolveStateTransition (ref : DomainRef)
  | resolveAllTransitions
  deriving DecidableEq

inductive TransitionReply where
  | domain (reply : DomainReply)
  | decision (decision : TransitionDecision)
  | done
  deriving DecidableEq

def TransitionCall.action (codec : Codec) (loops depth : Nat) : TransitionCall → Action TransitionReply
  | .domain call => do return .domain (← call.action codec loops)
  | .transact plan => do let _ ← transactPlan codec loops depth plan; return .done
  | .executeTransition plan => do return .decision (← EndlessFS.executeTransition codec loops depth plan)
  | .helpTransition transitionID => do EndlessFS.helpTransition codec loops depth transitionID; return .done
  | .resolveStateTransition ref => do EndlessFS.resolveStateTransition codec loops depth ref; return .done
  | .resolveAllTransitions => do EndlessFS.resolveAllTransitions codec loops depth; return .done

abbrev TransitionConfig := Conc.Config bucketMachine (fun _ : TransitionCall => Except Error TransitionReply)

abbrev TransitionEvent := Conc.Event bucketMachine TransitionCall

def TransitionCall.body (codec : Codec) (loops depth : Nat) (call : TransitionCall) :
    Conc.Prog bucketMachine (Except Error TransitionReply) :=
  (call.action codec loops depth).run

def bucketAt (now : Time) : Bucket := { (Store.empty : Bucket) with clock := now }

variable {codec : Codec}

theorem histories_bucketAt (now : Time) : Histories codec (bucketAt now) :=
  ⟨fun k => ⟨fun _ _ h => (by cases h), .nil, fun w hw => (by cases hw)⟩, fun _ => trivial, fun _ _ _ => rfl⟩

def startConfig (now : Time) : TransitionConfig := { state := bucketAt now, pool := [] }

def TransitionCall.Allowed {codec : Codec} (T : TransitionProtocol codec) (s : Bucket) : TransitionCall → Prop
  | .domain call => call.Legit T.toProtocol s
  | .transact plan => validateTransitionPlan plan = .ok () → T.Given plan
  | .executeTransition plan => T.Plan s plan
  | _ => True

theorem TransitionCall.safe (T : TransitionProtocol codec) {loops depth : Nat} (hexec : T.Executes loops)
    (call : TransitionCall) (h : call.Allowed T s) : Ensures T.Inv T.ok (fun _ => True) (fun _ _ => True)
      (call.action codec loops depth) s := by
  cases call with
  | domain call =>
    exact .bind (call.safe T.toProtocol loops h) fun _ _ _ _ _ => .pure fun _ _ _ => trivial
  | transact plan =>
    exact .bind (T.transactPlan hexec h) fun _ _ _ _ _ => .pure fun _ _ _ => trivial
  | executeTransition plan =>
    exact .bind (T.executeTransition hexec h) fun _ _ _ _ _ => .pure fun _ _ _ => trivial
  | helpTransition transitionID =>
    exact .bind (T.helpTransition hexec depth s transitionID) fun _ _ _ _ _ =>
      .pure fun _ _ _ => trivial
  | resolveStateTransition ref =>
    exact .bind (T.resolveLoop hexec) fun _ _ _ _ _ => .pure fun _ _ _ => trivial
  | resolveAllTransitions =>
    exact .bind (T.resolveAllTransitions hexec) fun _ _ _ _ _ => .pure fun _ _ _ => trivial

end EndlessFS
