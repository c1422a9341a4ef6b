import EndlessFS.Domain.Protocol

/-!
# EndlessFS.Domain.Linear

Any number of replicas, calling anything the domain store offers on any domains, in any
interleaving and with any requests and responses lost: the heads stored under one key form one
linear history, what it publishes are mutations of these calls, and a mutation that is reported as
successful is in it.
-/

namespace EndlessFS

open Conc (Store Fault StoreOp PutCondition Write Config Event Policy Reach)

/-- The entry points of the domain store. The prepared and the materialized mutation work on a head
the caller has loaded and a session it has bound to a deadline. -/
inductive DomainCall where
  | mutate (ref : DomainRef) (m : Mutation)
  | mutateAtHead (ref : DomainRef) (m : Mutation)
  | mutatePrepared (ref : DomainRef) (m : Mutation)
  | mutateMaterializedPrepared (ref : DomainRef) (m : Mutation)
  | compact (ref : DomainRef)
  | ensureRegistered (ref : DomainRef)
  | freeze (ref : DomainRef) (epoch : Nat)
  | unfreeze (ref : DomainRef) (epoch : Nat)
  deriving DecidableEq

inductive DomainReply where
  | outcome (o : Outcome)
  | done
  deriving DecidableEq

def DomainCall.action (codec : Codec) (fuel : Nat) : DomainCall → Action DomainReply
  | .mutate ref m => do return .outcome (← EndlessFS.mutate codec fuel ref m)
  | .mutateAtHead ref m => do
    let snapshot ← loadHead codec ref
    return .outcome (← EndlessFS.mutateAtHead codec fuel ref m (some snapshot))
  | .mutatePrepared ref m => do
    let snapshot ← loadHead codec ref
    let session ← bindPreparedMutation m.retainUntil
    return .outcome (← EndlessFS.mutatePrepared codec fuel ref m (some snapshot) (some session))
  | .mutateMaterializedPrepared ref m => do
    let snapshot ← loadHead codec ref
    let session ← bindPreparedMutation m.retainUntil
    return .outcome (← EndlessFS.mutateMaterializedPrepared codec ref m snapshot session)
  | .compact ref => do EndlessFS.compact codec ref; return .done
  | .ensureRegistered ref => do EndlessFS.ensureRegistered codec fuel ref; return .done
  | .freeze ref epoch => do EndlessFS.freeze codec fuel ref epoch; return .done
  | .unfreeze ref epoch => do EndlessFS.unfreeze codec fuel ref epoch; return .done

def DomainCall.intent (codec : Codec) : DomainCall → Option (DomainRef × Mutation × String)
  | .mutate ref m | .mutateAtHead ref m | .mutatePrepared ref m =>
    some (ref, m, codec.fingerprint (sortChanges m.changes) m.result)
  | .mutateMaterializedPrepared ref m =>
    some (ref, m, codec.materializedFingerprint (sortChanges m.changes) m.result)
  | _ => none

abbrev DomainConfig := Config bucketMachine (fun _ : DomainCall => Except Error DomainReply)

abbrev DomainEvent := Event bucketMachine DomainCall

def emptyConfig : DomainConfig := { state := Store.empty, pool := [] }

def runDomain (codec : Codec) (fuel : Nat) (events : List DomainEvent) : DomainConfig :=
  emptyConfig.run (fun call => (call.action codec fuel).run) events

structure Codec.CollisionFree (codec : Codec) : Prop where
  fingerprint : ∀ {c c' r r'}, codec.fingerprint c r = codec.fingerprint c' r' → c = c' ∧ r = r'
  materialized : ∀ {c c' r r'},
    codec.materializedFingerprint c r = codec.materializedFingerprint c' r' → c = c' ∧ r = r'
  disjoint : ∀ {c c' r r'}, codec.fingerprint c r ≠ codec.materializedFingerprint c' r'

def headHistory (s : Bucket) (ref : DomainRef) : List DomainHead :=
  (s.cells (.head ref)).writes.map (·.value)

/-! ## The invariant -/

/-- Every history of heads is linear, and no head is ever deleted. -/
structure Histories (codec : Codec) (s : Bucket) : Prop where
  wf : s.WF
  linear : ∀ ref, Linear codec ref (s.cells (.head ref)).writes
  undeleted : ∀ k, k.permanent = true → (s.cells k).current = none → (s.cells k).writes = []

variable {codec : Codec} {s : Bucket}

theorem Histories.empty : Histories codec Store.empty :=
  ⟨Store.WF.empty, fun _ => trivial, fun _ _ _ => rfl⟩

variable {site : Site}

theorem Histories.write_undeleted (h : Histories codec s) (k : ObjectKey) (value : Object k) :
    ∀ k', k'.permanent = true → ((s.write site k value).cells k').current = none →
      ((s.write site k value).cells k').writes = [] := by
  intro k' hk' hnone
  by_cases hk : k' = k
  · subst hk
    rw [Store.write_cells_self] at hnone
    cases hnone
  · rw [Store.write_cells_of_ne _ _ hk] at hnone ⊢
    exact h.undeleted k' hk' hnone

variable {k : ObjectKey}

theorem Histories.write_other (h : Histories codec s) (value : Object k)
    (hk : ∀ ref, k ≠ .head ref) : Histories codec (s.write site k value) := by
  refine ⟨h.wf.write site k value, fun ref => ?_, h.write_undeleted k value⟩
  rw [Store.write_cells_of_ne _ _ (hk ref).symm]
  exact h.linear ref

/-- What holds of every published mutation is kept by a write. -/
theorem published_write {Legit : Bucket → DomainRef → Mutation → Prop}
    (h : ∀ ref, ∀ w ∈ (s.cells (.head ref)).writes, ∀ m, w.site = .publish m → Legit s ref m)
    (hmono : ∀ {s t ref m}, Legit s ref m → Store.Le s t → Legit t ref m) {value : Object k}
    (hnew : ∀ ref m, k = .head ref → site = .publish m → Legit s ref m) :
    ∀ ref, ∀ w ∈ ((s.write site k value).cells (.head ref)).writes, ∀ m, w.site = .publish m →
      Legit (s.write site k value) ref m := by
  intro ref w hw m hm
  refine hmono ?_ (Store.le_write s site k value)
  rcases Store.mem_writes_write hw with hw | ⟨hk, hsite⟩
  · exact h ref w hw m hm
  · exact hnew ref m hk.symm (hsite.symm.trans hm)

variable {ref : DomainRef} {next : DomainHead}

theorem Histories.write_head (h : Histories codec s) {Legit : Bucket → DomainRef → Mutation → Prop}
    (hw : HeadWrite codec Legit s site ref next) : Histories codec (s.write site (.head ref) next) := by
  have hlinear : Linear codec ref ((s.write site (.head ref) next).cells (.head ref)).writes := by
    rw [Store.write_cells_self]
    cases hw with
    | create absent valid =>
      rw [h.undeleted (.head ref) rfl absent]
      exact ⟨rfl, rfl⟩
    | action writes current step within encodes legit =>
      have hold := h.linear ref
      rw [writes] at hold ⊢
      exact ⟨⟨_, step, within, rfl⟩, hold⟩
  refine ⟨h.wf.write _ _ _, fun ref' => ?_, h.write_undeleted (.head ref) next⟩
  by_cases hr : ref' = ref
  · rw [hr]
    exact hlinear
  · rw [Store.write_cells_of_ne _ _ (by simpa using hr)]
    exact h.linear ref'

variable {w : Write Site DomainHead}

theorem mem_writes_head {ref' : DomainRef} (hw : w ∈ ((s.write site (.head ref) next).cells (.head ref')).writes) :
    w ∈ (s.cells (.head ref')).writes ∨ (ref' = ref ∧ w.value = next ∧ w.site = site) := by
  by_cases href : ref' = ref
  · subst href
    rw [Store.write_cells_self] at hw
    rcases List.mem_cons.mp hw with rfl | hw
    · exact .inr ⟨rfl, rfl, rfl⟩
    · exact .inl hw
  · rw [Store.write_cells_of_ne _ _ (by simpa using href)] at hw
    exact .inl hw

/-- The mutation of a call of the run, as the call publishes it: its changes sorted, its retention bound. -/
def Issued (codec : Codec) (events : List DomainEvent) (ref : DomainRef) (m : Mutation) : Prop :=
  ∃ call mutation fingerprint retainUntil, .spawn call ∈ events ∧
    call.intent codec = some (ref, mutation, fingerprint) ∧ m = Protocol.boundMutation mutation retainUntil

structure IssuedHistories (codec : Codec) (events : List DomainEvent) (s : Bucket) : Prop
    extends Histories codec s where
  published : ∀ ref, ∀ w ∈ (s.cells (.head ref)).writes, ∀ m, w.site = .publish m → Issued codec events ref m

variable {events : List DomainEvent}

theorem IssuedHistories.write (h : IssuedHistories codec events s) {value : Object k}
    (hhistories : Histories codec (s.write site k value))
    (hnew : ∀ ref m, k = .head ref → site = .publish m → Issued codec events ref m) :
    IssuedHistories codec events (s.write site k value) :=
  ⟨hhistories, @published_write s site k (fun _ => Issued codec events) h.published (fun h _ => h) value hnew⟩

def linearProtocol (codec : Codec) (events : List DomainEvent) : Protocol codec where
  Inv := IssuedHistories codec events
  ok := fun _ _ _ => True
  Legit := fun _ => Issued codec events
  legit_mono := fun _ h => h
  wf := fun h => h.wf
  linear := fun h => h.linear
  undeleted := fun h => h.undeleted
  head := fun h _ hw _ => h.write (h.write_head hw) fun _ _ hk hsite => by
    cases hk
    exact hw.published hsite
  register := fun h _ _ _ _ => h.write (h.write_other _ fun _ h => by cases h) fun _ _ hk => by cases hk
  note := fun _ _ h => ⟨⟨h.wf, h.linear, h.undeleted⟩, h.published⟩

def DomainCall.Legit (P : Protocol codec) (s : Bucket) (call : DomainCall) : Prop :=
  ∀ ref m fingerprint, call.intent codec = some (ref, m, fingerprint) →
    ∀ retainUntil, P.Legit s ref (Protocol.boundMutation m retainUntil)

def DomainCall.Answers (codec : Codec) (call : DomainCall) (s : Bucket) (reply : DomainReply) : Prop :=
  ∀ o, reply = .outcome o → ∀ ref m fingerprint, call.intent codec = some (ref, m, fingerprint) →
    Recorded codec s ref m.id fingerprint

theorem DomainCall.safe (P : Protocol codec) (fuel : Nat) (call : DomainCall) (hlegit : call.Legit P s) :
    Ensures P.Inv P.ok (fun _ => True) (call.Answers codec) (call.action codec fuel) s := by
  have hdone : ∀ {t : Bucket} (u : Unit), Ensures P.Inv P.ok (fun _ => True)
      (call.Answers codec) ((fun _ => Pure.pure .done) u) t :=
    fun _ => .pure fun _ _ _ o ho => by cases ho
  have hanswer : ∀ {t : Bucket} {ref : DomainRef} {m : Mutation} {fingerprint : String} (o : Outcome),
      call.intent codec = some (ref, m, fingerprint) → Recorded codec t ref m.id fingerprint →
      Ensures P.Inv P.ok (fun _ => True) (call.Answers codec) (Pure.pure (.outcome o)) t := by
    intro t ref m fingerprint o hint hrec
    refine .pure fun u hu _ o' _ ref' m' fp' hint' => ?_
    rw [hint] at hint'
    cases hint'
    exact hrec.mono hu
  have hany : ∀ {ref : DomainRef}, P.Errors (fun _ => True) ref := Protocol.Errors.any P _
  have hmutate : ∀ {t : Bucket} {ref : DomainRef} {m : Mutation} {initial : Option HeadSnapshot}
      {session : Option Session}, (∀ snapshot ∈ initial, snapshot.Valid codec ref t) →
      (∀ retainUntil, P.Legit t ref (Protocol.boundMutation m retainUntil)) →
      Ensures P.Inv P.ok (fun _ => True) (fun t _ => Recorded codec t ref m.id
        (codec.fingerprint (sortChanges m.changes) m.result))
        (EndlessFS.mutatePrepared codec fuel ref m initial session) t := fun hinit hl =>
    P.mutatePrepared hany (fun _ _ => trivial) (fun _ _ => trivial) hinit fun retainUntil _ =>
      ⟨hl retainUntil, Protocol.MutationErrors.any P _ _, fun _ _ => trivial⟩
  cases call with
  | mutate ref m =>
    refine .bind (hmutate (fun _ h => by cases h) (hlegit ref m _ rfl)) ?_
    exact fun t o _ _ h => hanswer o rfl h
  | mutateAtHead ref m =>
    refine .bind (P.loadHead hany) fun s₁ snapshot hle₁ _ hs => ?_
    refine .bind (hmutate (fun x h => by cases h; exact hs.1)
      fun retainUntil => P.legit_mono hle₁ (hlegit ref m _ rfl retainUntil)) ?_
    exact fun t o _ _ h => hanswer o rfl h
  | mutatePrepared ref m =>
    refine .bind (P.loadHead hany) fun s₁ snapshot hle₁ _ hs => ?_
    refine .bind (P.bindPreparedMutation fun _ _ => trivial) fun s₂ session hle₂ _ _ => ?_
    refine .bind (hmutate (fun x h => by cases h; exact hs.1.mono hle₂)
      fun retainUntil => P.legit_mono (hle₁.trans hle₂) (hlegit ref m _ rfl retainUntil)) ?_
    exact fun t o _ _ h => hanswer o rfl h
  | mutateMaterializedPrepared ref m =>
    refine .bind (P.loadHead hany) fun s₁ snapshot hle₁ _ hs => ?_
    refine .bind (P.bindPreparedMutation fun _ _ => trivial) fun s₂ session hle₂ _ hsession => ?_
    refine .bind (P.mutateMaterializedPrepared (hs.1.mono hle₂) hsession.2.1
      fun retainUntil => P.legit_mono (hle₁.trans hle₂) (hlegit ref m _ rfl retainUntil)) ?_
    exact fun t o _ _ h => hanswer o rfl h
  | compact ref => exact .bind (P.compact hany) fun _ u _ _ _ => hdone u
  | ensureRegistered ref => exact .bind P.ensureRegistered fun _ u _ _ _ => hdone u
  | freeze ref epoch => exact .bind P.freeze fun _ u _ _ _ => hdone u
  | unfreeze ref epoch => exact .bind P.unfreeze fun _ u _ _ _ => hdone u

def spawning (events : List DomainEvent) : Policy bucketMachine DomainCall :=
  { Policy.any bucketMachine DomainCall with spawn := fun _ call => .spawn call ∈ events }

theorem runDomain_sound (codec : Codec) (fuel : Nat) (events : List DomainEvent) :
    (runDomain codec fuel events).Sound (IssuedHistories codec events) (spawning events)
      (fun call => posts (fun _ => True) (call.Answers codec)) := by
  have hmeets : ∀ e ∈ events, ∀ cfg : DomainConfig, (spawning events).Meets cfg e := by
    intro e he cfg
    cases e with
    | spawn call => exact he
    | step i c => exact fun _ _ _ _ => trivial
    | drift d => trivial
  refine (Reach.of_run (.of_forall hmeets)).sound ⟨⟨Histories.empty, fun _ _ hw => by cases hw⟩,
    fun t ht => by cases ht⟩ ?_ ?_
  · intro s call _ hcall
    exact call.safe (linearProtocol codec events) fuel fun ref m fingerprint hintent retainUntil =>
      show Issued codec events ref _ from ⟨call, m, fingerprint, retainUntil, hcall, hintent, rfl⟩
  · intro s d h _
    exact ⟨⟨h.wf.advance d, h.linear, h.undeleted⟩, h.published⟩

/-! ## Linearizability -/

variable {newer older : List (Write Site DomainHead)}

theorem linear_append (h : Linear codec ref (newer ++ older)) : Linear codec ref older := by
  induction newer with
  | nil => exact h
  | cons w newer ih =>
    refine ih ?_
    rw [List.cons_append] at h
    cases hrest : newer ++ older with
    | nil => trivial
    | cons v rest =>
      rw [hrest] at h
      exact h.2

theorem linear_consecutive
    {w' : Write Site DomainHead} (h : Linear codec ref (newer ++ w' :: w :: older)) :
    Linear codec ref (w' :: w :: older) :=
  linear_append h

theorem linear_first {writes : List (Write Site DomainHead)}
    (h : Linear codec ref writes) (hw : writes.getLast? = some w) : w.value = initialHead ref := by
  induction writes with
  | nil => cases hw
  | cons a rest ih =>
    cases rest with
    | nil =>
      simp only [List.getLast?_singleton, Option.some.injEq] at hw
      exact hw ▸ h.1
    | cons b rest => exact ih h.2 (by simpa [List.getLast?_cons_cons] using hw)

/-- The heads of a domain form a linear history. It starts from the empty map at revision zero; each
step keeps the map and the revision, or raises the revision by one and applies exactly one mutation, that of
a call of the run, all of whose preconditions hold in the map just before. Every call that reports success has its
mutation, ID and intent, in that history; where fingerprints are free of collisions, the mutation
there has the very changes and result of the call. -/
theorem single_head_linearizable (codec : Codec) (fuel : Nat) (ref : DomainRef) (events : List DomainEvent) :
    (∀ first, (headHistory (runDomain codec fuel events).state ref).getLast? = some first →
      first.revision = 0 ∧ denote first = fun _ => none) ∧ (∀ newer next head older,
      headHistory (runDomain codec fuel events).state ref = newer ++ next :: head :: older →
      Keeps head next ∨ ∃ m fingerprint, Publishes codec m fingerprint head next ∧ Issued codec events ref m) ∧
    ∀ t ∈ (runDomain codec fuel events).pool, ∀ o, t.prog.result = some (.ok (.outcome o)) →
      ∀ m fingerprint, t.call.intent codec = some (ref, m, fingerprint) → ∃ m' newer next head older, m'.id = m.id ∧
        headHistory (runDomain codec fuel events).state ref = newer ++ next :: head :: older ∧
        Publishes codec m' fingerprint head next ∧
        (codec.CollisionFree → m'.changes = sortChanges m.changes ∧ m'.result = m.result) := by
  have hsound := runDomain_sound codec fuel events
  have hlinear := hsound.state.linear ref
  refine ⟨fun first hfirst => ?_, fun newer next head older hh => ?_, fun t ht o ho m fp hint => ?_⟩
  · rw [headHistory, List.getLast?_map, Option.map_eq_some_iff] at hfirst
    obtain ⟨w, hw, rfl⟩ := hfirst
    rw [linear_first hlinear hw]
    exact ⟨rfl, rfl⟩
  · obtain ⟨l, l', hl, -, hl'⟩ := List.map_eq_append_iff.mp hh
    obtain ⟨w', l'', rfl, rfl, hl''⟩ := List.map_eq_cons_iff.mp hl'
    obtain ⟨w, l''', rfl, rfl, -⟩ := List.map_eq_cons_iff.mp hl''
    have hsorted := hlinear.sortedDeltas w (by simp [hl])
    rw [hl] at hlinear
    obtain ⟨⟨action, hstep, -, hsite⟩, -⟩ := linear_consecutive hlinear
    rcases hstep.classify hsorted with ⟨-, hkeeps⟩ | ⟨m, fp, hm, hpub⟩
    · exact .inl hkeeps
    · exact .inr ⟨m, fp, hpub, hsound.state.published ref w' (by simp [hl]) m
        (hsite.trans (action.site_of_mutation hm))⟩
  · obtain ⟨m', hid, newer, w', w, older, hwrites, -, hpub⟩ :=
      hsound.result ht ho o rfl ref m fp hint
    refine ⟨m', newer.map (·.value), w'.value, w.value, older.map (·.value), hid,
      by simp [headHistory, hwrites], hpub, fun hfree => ?_⟩
    -- both fingerprints name the intent of the published mutation
    rcases t with ⟨call, prog⟩
    cases call <;> simp only [DomainCall.intent, Option.some.injEq, Prod.mk.injEq, reduceCtorEq] at hint
    case mutateMaterializedPrepared =>
      obtain ⟨-, rfl, rfl⟩ := hint
      rcases hpub.intent with hi | hi
      · exact absurd hi.symm hfree.disjoint
      · obtain ⟨hc, hr⟩ := hfree.materialized hi
        exact ⟨hc.symm, hr.symm⟩
    all_goals
      obtain ⟨-, rfl, rfl⟩ := hint
      rcases hpub.intent with hi | hi
      · obtain ⟨hc, hr⟩ := hfree.fingerprint hi
        exact ⟨hc.symm, hr.symm⟩
      · exact absurd hi hfree.disjoint

end EndlessFS
