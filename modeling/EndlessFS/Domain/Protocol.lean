import EndlessFS.Domain.Logic

/-!
# EndlessFS.Domain.Protocol

Every program of the domain store only ever performs the writes listed in `HeadWrite` and
those of the catalog. This is proved once, for any invariant that survives those writes (`Protocol`), so
that a property of all interleavings needs a proof about single writes only.

A `Protocol` may also restrict which mutations are published (`Legit`, known when the call starts
and never lost) and which operations a run performs (`ok`).
-/

namespace EndlessFS

open Except List
open Conc (Store Fault StoreOp PutCondition Write)

def Catalogued (s : Bucket) (ref : DomainRef) : Prop :=
  ∃ w ∈ (s.cells .catalog).writes, w.value.root.get (catalogEntryKey ref) = some ref

variable {s : Bucket} {ref : DomainRef} {t : Bucket}

theorem Catalogued.mono (h : Catalogued s ref) (hle : Store.Le s t) : Catalogued t ref := by
  obtain ⟨w, hw, hget⟩ := h
  exact ⟨w, (hle.writes _).subset hw, hget⟩

def Entered (s : Bucket) (ref : DomainRef) : Prop :=
  (∃ w ∈ (s.cells (.head ref)).writes, w.value.registered = true) ∨ Catalogued s ref

theorem Entered.mono (h : Entered s ref) (hle : Store.Le s t) : Entered t ref := by
  rcases h with ⟨w, hw, hreg⟩ | hcat
  · exact .inl ⟨w, (hle.writes _).subset hw, hreg⟩
  · exact .inr (hcat.mono hle)

/-- The writes to head keys: the inert head of a new domain, or an action on the head that is
current at the moment of the write. -/
inductive HeadWrite (codec : Codec) (Legit : Bucket → DomainRef → Mutation → Prop) (s : Bucket) :
    Site → DomainRef → DomainHead → Prop where
  | create {ref : DomainRef} (absent : (s.cells (.head ref)).current = none)
      (valid : validateInitialDomainHead codec.encodesHead (initialHead ref) = .ok ()) :
      HeadWrite codec Legit s .plain ref (initialHead ref)
  | action {ref : DomainRef} {w : Write Site DomainHead} {rest : List (Write Site DomainHead)}
      {action : HeadAction} {next : DomainHead}
      (writes : (s.cells (.head ref)).writes = w :: rest)
      (current : (s.cells (.head ref)).current = some (w.version, w.value))
      (step : action.Step codec ref w.value next) (within : action.Within w.time s.clock)
      (encodes : encodeHead codec next = .ok ())
      (legit : ∀ m fingerprint, action.mutation = some (m, fingerprint) → Legit s ref m)
      (entered : next.registered = true → Entered s ref) :
      HeadWrite codec Legit s action.site ref next

variable {next : DomainHead} {m : Mutation} {site : Site} {codec : Codec}

theorem HeadWrite.published {Legit : Bucket → DomainRef → Mutation → Prop} (h : HeadWrite codec Legit s site ref next)
    (hsite : site = .publish m) : Legit s ref m := by
  cases h with
  | create => cases hsite
  | action _ _ _ _ _ legit =>
    obtain ⟨fingerprint, hm⟩ := HeadAction.mutation_of_site hsite
    exact legit m fingerprint hm

def currentCatalog (s : Bucket) : CatalogHead :=
  match (s.cells .catalog).current with
  | none => {}
  | some (_, head) => head

/-- The changes of the catalog head. -/
inductive CatalogStep : CatalogHead → CatalogHead → Prop where
  | register {head : CatalogHead} {ref : DomainRef} (absent : head.root.get (catalogEntryKey ref) = none)
      (thawed : head.freezeEpoch = 0) :
      CatalogStep head { head with
        revision := head.revision + 1
        root := head.root.set (catalogEntryKey ref) (some ref) }
  | freeze {head : CatalogHead} {epoch : Nat} (thawed : head.freezeEpoch = 0) (positive : epoch ≠ 0) :
      CatalogStep head { head with revision := head.revision + 1, freezeEpoch := epoch }
  | unfreeze {head : CatalogHead} (frozen : head.freezeEpoch ≠ 0) :
      CatalogStep head { head with revision := head.revision + 1, freezeEpoch := 0 }

def ObjectKey.permanent : ObjectKey → Bool
  | .head _ | .catalog => true
  | _ => false

def Recorded (codec : Codec) (s : Bucket) (ref : DomainRef) (id fingerprint : String) : Prop :=
  ∃ m, m.id = id ∧ PublishedIn codec m fingerprint (s.cells (.head ref)).writes

variable {id fingerprint : String}

theorem Recorded.mono (h : Recorded codec s ref id fingerprint) (hle : Store.Le s t) :
    Recorded codec t ref id fingerprint := by
  obtain ⟨m, hm, hp⟩ := h
  exact ⟨m, hm, hp.mono (hle.writes _)⟩

def HeadSnapshot.Valid (codec : Codec) (ref : DomainRef) (s : Bucket) (snapshot : HeadSnapshot) : Prop :=
  match snapshot.version with
  | none => snapshot.head = absentHead
  | some version => s.Seen (.head ref) version snapshot.head ∧ decodeHead codec ref snapshot.head = .ok ()

variable {snapshot : HeadSnapshot}

theorem HeadSnapshot.Valid.mono (h : snapshot.Valid codec ref s) (hle : Store.Le s t) : snapshot.Valid codec ref t := by
  unfold HeadSnapshot.Valid at h ⊢
  cases hv : snapshot.version with
  | none => simpa only [hv] using h
  | some version =>
    simp only [hv] at h ⊢
    exact ⟨h.1.mono hle, h.2⟩

def currentSnapshot (s : Bucket) (ref : DomainRef) : HeadSnapshot :=
  match (s.cells (.head ref)).current with
  | none => { head := absentHead, version := none }
  | some (version, head) => { head, version := some version }

def CatalogSnapshot.Valid (s : Bucket) (snapshot : CatalogSnapshot) : Prop :=
  match snapshot.version with
  | none => snapshot.head = {}
  | some version => s.Seen .catalog version snapshot.head

def HeadExists (s : Bucket) (ref : DomainRef) : Prop := (s.cells (.head ref)).writes ≠ []

theorem HeadExists.mono (h : HeadExists s ref) (hle : Store.Le s t) : HeadExists t ref :=
  fun hnil => h (suffix_nil.mp (hnil ▸ hle.writes _))

variable {head : DomainHead} {version : Nat}

theorem HeadSnapshot.Valid.exists (h : (HeadSnapshot.mk head (some version)).Valid codec ref s) : HeadExists s ref := by
  obtain ⟨⟨w, hw, -⟩, -⟩ := h
  exact ne_nil_of_mem hw

theorem HeadSnapshot.Valid.entered (h : snapshot.Valid codec ref s) (hexists : snapshot.exists = true)
    (hreg : snapshot.head.registered = true) : Entered s ref := by
  obtain ⟨head, version⟩ := snapshot
  cases version with
  | none => cases hexists
  | some version =>
    obtain ⟨⟨w, hw, -, hvalue⟩, -⟩ := h
    exact .inl ⟨w, hw, hvalue.symm ▸ hreg⟩

theorem HeadAction.Within.weaken {action : HeadAction} {b b' a a' : Time} (h : action.Within b a)
    (hb : b' ≤ b) (ha : a ≤ a') : action.Within b' a' := by
  cases action with
  | register => trivial
  | freeze epoch => trivial
  | unfreeze epoch => trivial
  | compact now => exact ⟨hb.trans h.1, h.2.trans ha⟩
  | append m fingerprint now => exact ⟨hb.trans h.1, h.2.trans ha⟩
  | materialize m fingerprint preparedAt now => exact ⟨h.1, hb.trans h.2.1, h.2.2.trans ha⟩

/-- A publication is about to start again: its put or the creation of the head loses the race, or the window it
appended to did not fit. -/
def restarts (s : Bucket) : StoreOp Site ObjectKey Object → Bool
  | .put (.publish _) (.head ref) _ condition => ((s.cells (.head ref)).refuses condition).isSome
  | .put .plain (.head ref) _ .createOnly => ((s.cells (.head ref)).refuses .createOnly).isSome
  | .get .reload (.head _) => true
  | _ => false

/-- An invariant of the bucket that the writes of the domain store keep. `Base` is what a publication knows of the
head it appends to: that its window has room, while it has not started again. -/
structure Protocol (codec : Codec) where
  Inv : Bucket → Prop
  ok : OpPolicy
  Base : DomainHead → Prop := fun _ => True
  room : ∀ {head : DomainHead}, head.deltas.length < consistencyDomainDeltaWindow → Base head := by
    exact fun _ => trivial
  restarted : ∀ {s : Bucket} {f : Fault} {o : StoreOp Site ObjectKey Object}, ok s f o → restarts s o = true →
    ∀ head, Base head := by exact fun _ _ _ => trivial
  Legit : Bucket → DomainRef → Mutation → Prop
  legit_mono : ∀ {s t : Bucket} {ref : DomainRef} {m : Mutation}, Store.Le s t → Legit s ref m → Legit t ref m
  wf : ∀ {s : Bucket}, Inv s → s.WF
  linear : ∀ {s : Bucket}, Inv s → ∀ ref, Linear codec ref (s.cells (.head ref)).writes
  undeleted : ∀ {s : Bucket}, Inv s → ∀ k, k.permanent = true → (s.cells k).current = none →
    (s.cells k).writes = []
  head : ∀ {s : Bucket} {f : Fault} {site : Site} {ref : DomainRef} {next : DomainHead}
    {condition : PutCondition}, Inv s → ok s f (.put site (.head ref) next condition) →
    HeadWrite codec Legit s site ref next →
    (∀ m, site = .publish m → next.deltas ≠ [] → Base (currentSnapshot s ref).head) →
      Inv (s.write site (.head ref) next)
  register : ∀ {s : Bucket} {ref : DomainRef} {head : CatalogHead}, Inv s →
    head = currentCatalog s → head.root.get (catalogEntryKey ref) = none → head.freezeEpoch = 0 →
    HeadExists s ref →
    Inv (s.write .plain .catalog { head with
      revision := head.revision + 1
      root := head.root.set (catalogEntryKey ref) (some ref) })
  note : ∀ (s : Bucket) (read : Site × Nat), Inv s → Inv (s.note read)

/-- Which errors loading a head may return: outages always, those of a head that does not decode
only as far as the invariant leaves room. -/
structure Protocol.ReadErrors {codec : Codec} (P : Protocol codec) (E : Error → Prop) (ref : DomainRef) :
    Prop where
  unavailable : ∀ e, e.kind = .unavailable → E e
  reference : ∀ e, validateConsistencyDomainRef ref = .error e → E e
  decode : ∀ s version head, P.Inv s → s.Seen (.head ref) version head →
    ∀ e, decodeHead codec ref head = .error e → E e

/-- Which errors the store's programs may return on a domain: races, outages and exhausted loops
always; the errors of checks that fail on a stored head only as far as the invariant leaves room. -/
structure Protocol.Errors {codec : Codec} (P : Protocol codec) (E : Error → Prop) (ref : DomainRef) : Prop
    extends P.ReadErrors E ref where
  internal : ∀ e, e.kind = .internal → E e
  race : ∀ e, e.isRace = true → E e
  initial : ∀ e, validateInitialDomainHead codec.encodesHead (initialHead ref) = .error e → E e
  clock : ∀ s, P.Inv s → s.clock = 0 → ∀ e, E e
  lookup : ∀ s version head, P.Inv s → s.Seen (.head ref) version head →
    ∀ now id e, lookupOutcomeAtHead now head id = .error e → E e
  lock : ∀ s version head, P.Inv s → s.Seen (.head ref) version head →
    ∀ e, transitionLockAtHead ref head = .error e → E e
  compact : ∀ s version head, P.Inv s → s.Seen (.head ref) version head →
    (head.deltas.isEmpty && isEmptyTree head.outcomeExpiry) = false →
    ∀ now e, compactHead now head = .error e → E e
  compacted : ∀ s version head, P.Inv s → s.Seen (.head ref) version head →
    (head.deltas.isEmpty && isEmptyTree head.outcomeExpiry) = false →
    ∀ now next e, compactHead now head = .ok next → encodeHead codec next = .error e → E e

/-- The errors that the checks of one mutation may return. -/
structure Protocol.MutationErrors {codec : Codec} (P : Protocol codec) (E : Error → Prop) (ref : DomainRef)
    (m : Mutation) : Prop where
  validate : ∀ head e, validateMutationAtHead head m.changes = .error e → E e
  encode : ∀ s version head, P.Inv s → s.Seen (.head ref) version head → ∀ e,
    encodeHead codec (appendDelta codec head m (codec.fingerprint m.changes m.result)) = .error e → E e

theorem Protocol.Errors.any (P : Protocol codec) (ref : DomainRef) : P.Errors (fun _ => True) ref := by
  refine ⟨⟨?_, ?_, ?_⟩, ?_, ?_, ?_, ?_, ?_, ?_, ?_, ?_⟩ <;> intros <;> trivial

theorem Protocol.MutationErrors.any (P : Protocol codec) (ref : DomainRef) (m : Mutation) :
    P.MutationErrors (fun _ => True) ref m := by
  constructor <;> intros <;> trivial

namespace Protocol

variable (P : Protocol codec) {E : Error → Prop}

variable {P} in
theorem Errors.put (hE : P.Errors E ref) {e : Error} (h : PutFailure e) : E e :=
  h.elim (hE.race e) (hE.unavailable e)

/-! ## Reading -/

theorem loadHeadAt (hE : P.ReadErrors E ref) :
    Ensures P.Inv P.ok E (fun t snapshot => snapshot.Valid codec ref t ∧ ∃ u, Store.Le s u ∧ P.Inv u ∧
      P.ok u .none (.get site (.head ref)) ∧ currentSnapshot u ref = snapshot ∧
        Store.Le u t) (loadHeadAt codec site ref) s := by
  refine .except_bind hE.reference fun _ _ => ?_
  refine .bind (.getObject (hE.unavailable _ rfl) P.note) ?_
  rintro t r - - ⟨u, hsu, hI, hok, rfl, hut⟩
  have hut := (Store.le_note u _).trans hut
  cases hc : (u.cells (.head ref)).current with
  | none => exact .pure fun v hv _ => ⟨rfl, u, hsu, hI, hok, by rw [currentSnapshot, hc], hut.trans hv⟩
  | some p =>
    have hseen := (P.wf hI).seen_of_current hc
    refine .except_bind (hE.decode u p.1 p.2 hI hseen) fun _ hdec => .pure fun v hv _ => ?_
    exact ⟨⟨hseen.mono (hut.trans hv), hdec⟩, u, hsu, hI, hok, by rw [currentSnapshot, hc], hut.trans hv⟩

theorem exists_of_current (hI : P.Inv s) (h : HeadExists s ref) : (currentSnapshot s ref).exists = true := by
  unfold currentSnapshot
  cases hc : (s.cells (.head ref)).current with
  | none => exact absurd (P.undeleted hI (.head ref) rfl hc) h
  | some p => rfl

theorem loadHead (hE : P.Errors E ref) : Ensures P.Inv P.ok E (fun t snapshot => snapshot.Valid codec ref t ∧
      (HeadExists s ref → snapshot.exists = true)) (loadHead codec ref) s := by
  refine (P.loadHeadAt hE.toReadErrors).weaken ?_
  rintro t snapshot - - ⟨hvalid, u, hsu, hI, -, rfl, -⟩
  exact ⟨hvalid, fun h => P.exists_of_current hI (h.mono hsu)⟩

theorem lookupOutcome (he : ∀ now e, lookupOutcomeAtHead now head id = .error e → E e) :
    Ensures P.Inv P.ok E (fun t o => ∃ now, s.clock ≤ now ∧ now ≤ t.clock ∧
      lookupOutcomeAtHead now head id = .ok o) (lookupOutcome head id) s := by
  refine .bind .clockNow fun t now _ _ hnow => ?_
  exact .except (he now) fun o ho v hv _ => ⟨now, hnow.1, hnow.2.trans hv.clock, ho⟩

variable {P} in
theorem Errors.lookupSnapshot (hE : P.Errors E ref) (hI : P.Inv s) (hs : snapshot.Valid codec ref s) (now : Time)
    (id : String) (e : Error) (h : lookupOutcomeAtHead now snapshot.head id = .error e) : E e := by
  obtain ⟨head, version⟩ := snapshot
  cases version with
  | none =>
    rw [show head = absentHead from hs] at h
    cases h
  | some version => exact hE.lookup s version head hI hs.1 now id e h

variable {now : Time} {outcome : Outcome}

theorem recorded_of_lookup (hI : P.Inv s) (hs : snapshot.Valid codec ref s)
    (h : lookupOutcomeAtHead now snapshot.head id = .ok (some outcome)) :
      Recorded codec s ref id outcome.fingerprint := by
  have hr := records_of_lookup h
  unfold HeadSnapshot.Valid at hs
  cases hv : snapshot.version with
  | none =>
    simp only [hv] at hs
    rw [hs] at hr
    rcases hr with ⟨d, hd, -⟩ | ⟨k, o, hk, -⟩
    · cases hd
    · cases hk
  | some version =>
    simp only [hv] at hs
    obtain ⟨⟨w, hw, -, hval⟩, -⟩ := hs
    exact (P.linear hI ref).published hw (hval ▸ hr)

theorem replayOutcome (hE : P.Errors E ref) (hI : P.Inv s) (hs : snapshot.Valid codec ref s)
    (h : lookupOutcomeAtHead now snapshot.head id = .ok (some outcome)) :
    Ensures P.Inv P.ok E (fun t _ => Recorded codec t ref id fingerprint)
      (liftM (replayOutcome fingerprint outcome)) s := by
  unfold EndlessFS.replayOutcome
  split
  · exact .except (fun e he => by cases he; exact hE.race _ rfl) fun _ ha => by cases ha
  · rename_i hfp
    have hfp : outcome.fingerprint = fingerprint := by simpa using hfp
    refine .except (fun e he => by cases he) fun a ha t hle _ => ?_
    exact hfp ▸ (P.recorded_of_lookup hI hs h).mono hle

/-! ## Publishing -/

/-- A successful conditional write replaces exactly the head that was read under that version. -/
theorem putHead {s₀ : Bucket} (action : HeadAction)
    (hle₀ : Store.Le s₀ s) (hI₀ : P.Inv s₀) (hseen : s₀.Seen (.head ref) version head)
    (hstep : action.Step codec ref head next) (hwithin : action.Within s₀.clock s.clock)
    (henc : encodeHead codec next = .ok ())
    (hlegit : ∀ m fingerprint, action.mutation = some (m, fingerprint) → P.Legit s ref m)
    (hentered : head.registered = false → next.registered = true → Entered s ref)
    (hbase : ∀ m, action.site = .publish m → next.deltas ≠ [] → P.Base head) :
    Ensures P.Inv P.ok (fun e => PutFailure e ∧ (e.isRace = true → ∀ m, action.site = .publish m → ∀ head, P.Base head))
      (fun t _ => (∃ w ∈ (t.cells (.head ref)).writes, w.value = next) ∧
        ∀ m fingerprint, action.mutation = some (m, fingerprint) →
        PublishedIn codec m fingerprint (t.cells (.head ref)).writes)
      (putObject action.site (.head ref) next (.match version)) s := by
  have hfind : ∀ u : Bucket, Store.Le s u → P.Inv u → (u.cells (.head ref)).refuses (.match version) = none →
      ∃ w rest, (u.cells (.head ref)).writes = w :: rest ∧ w.value = head ∧
        (u.cells (.head ref)).current = some (w.version, w.value) ∧ w.time ≤ s₀.clock := by
    intro u hle hI hr
    obtain ⟨x, hcur⟩ := Store.current_of_admitted hr
    have hseen' : u.Seen (.head ref) version head := hseen.mono (hle₀.trans hle)
    obtain rfl : x = head := (P.wf hI).current_of_seen hseen' hcur
    obtain ⟨w, rest, hw, hver, hval⟩ := (P.wf hI (.head ref)).current _ _ hcur
    refine ⟨w, rest, hw, hval, by rw [hcur, hver, hval], ?_⟩
    obtain ⟨w₀, hw₀, hver₀, -⟩ := hseen
    -- the write seen at `s₀` and the current one have the same version
    have hmem : w₀ ∈ w :: rest := hw ▸ ((hle₀.trans hle).writes _).subset hw₀
    rcases mem_cons.mp hmem with rfl | hmem
    · exact ((P.wf hI₀ (.head ref)).bounded w₀ hw₀).2
    · have hord := (P.wf hI (.head ref)).ordered
      rw [hw, pairwise_cons] at hord
      have := (hord.1 w₀ hmem).1
      omega
  refine ((Ensures.putObject_refused (fun u hle hI version' _ hnone => ?_) fun u f hle hI hok hr => ?_).weaken
    ?_).weaken_error fun e he => he.imp_right fun hraced hrace m hsite => ?_
  · obtain ⟨w₀, hw₀, -⟩ := hseen.mono (hle₀.trans hle)
    rw [P.undeleted hI (.head ref) rfl hnone] at hw₀
    cases hw₀
  · obtain ⟨w, rest, hw, rfl, hcur, htime⟩ := hfind u hle hI hr
    refine P.head hI hok (.action hw hcur hstep (hwithin.weaken htime hle.clock) henc
      (fun m fp hm => P.legit_mono hle (hlegit m fp hm)) fun hnext => ?_) fun m hsite hdeltas => ?_
    rotate_left
    · rw [currentSnapshot, hcur]
      exact hbase m hsite hdeltas
    cases hreg : w.value.registered with
    | true => exact .inl ⟨w, hw ▸ mem_cons_self, hreg⟩
    | false => exact (hentered hreg hnext).mono hle
  · rintro t v - - ⟨u, hle, hI, hr, -, hut⟩
    have hstored : ∃ w ∈ ((u.write action.site (.head ref) next).cells (.head ref)).writes, w.value = next :=
      ⟨_, by rw [Store.write_cells_self]; exact .head _, rfl⟩
    obtain ⟨v, hv, hvalue⟩ := hstored
    refine ⟨⟨v, (hut.writes _).subset hv, hvalue⟩, fun m fp hm => ?_⟩
    obtain ⟨w, rest, hw, rfl, hcur, -⟩ := hfind u hle hI hr
    have hsorted := (P.linear hI ref).sortedDeltas w (by simp [hw])
    have hp : PublishedIn codec m fp ((u.write action.site (.head ref) next).cells (.head ref)).writes := by
      rcases hstep.classify hsorted with ⟨hnone, -⟩ | ⟨m', fp', hm', hp⟩
      · rw [hnone] at hm
        cases hm
      · rw [hm'] at hm
        cases hm
        refine ⟨[], ⟨action.site, u.counter + 1, next, u.clock⟩, w, rest, ?_, action.site_of_mutation hm', hp⟩
        simp only [Store.write, Function.update_self, hw, nil_append]
    exact hp.mono (hut.writes _)
  · obtain ⟨u, f, hok, hr⟩ := hraced hrace
    exact P.restarted hok (by rw [hsite]; exact Option.isSome_iff_ne_none.mpr hr)

variable {retainUntil : Time}

theorem bindPreparedMutation (hun : ∀ e, e.kind = .unavailable → E e) :
    Ensures P.Inv P.ok E (fun t session => s.clock ≤ session.preparedAt ∧ session.preparedAt ≤ t.clock ∧
      (retainUntil = 0 → session.retainUntil ≠ 0)) (bindPreparedMutation retainUntil) s := by
  refine .bind .clockNow fun t now hle _ hnow => ?_
  refine .rejectIf_bind (fun _ => hun _ rfl) fun _ => .pure fun v hv _ => ?_
  refine ⟨hnow.1, hnow.2.trans hv.clock, fun hzero => ?_⟩
  simp [hzero, terminalOperationRetention]

theorem preparation (hun : ∀ e, e.kind = .unavailable → E e) {session : Session}
    (he : session.preparedAt = 0 ∨ session.retainUntil = 0 ∨ retainUntil ≠ 0 → ∀ e, E e) :
    Ensures P.Inv P.ok E (fun _ p => p.1 = session.preparedAt ∧ p.2 ≠ 0) (session.preparation retainUntil) s := by
  refine .rejectIf_bind (fun h => he ?_ _) fun hbound => .rejectIf_bind (fun h => he ?_ _) fun _ => ?_
  · simp only [Bool.or_eq_true, decide_eq_true_eq] at h
    exact h.elim .inl fun h => .inr (.inl h)
  · simp only [Bool.and_eq_true, decide_eq_true_eq] at h
    exact .inr (.inr h.1)
  refine .bind .clockNow fun t now _ _ _ => ?_
  refine .rejectIf_bind (fun _ => hun _ rfl) fun _ => .pure fun _ _ _ => ⟨rfl, ?_⟩
  simp only [Bool.or_eq_false_iff, decide_eq_false_iff_not] at hbound
  exact hbound.2

theorem compactSnapshot (hE : P.Errors E ref) (hI : P.Inv s) (hs : snapshot.Valid codec ref s) :
    Ensures P.Inv P.ok E (fun _ _ => True) (compactSnapshot codec ref snapshot) s := by
  refine .rejectIf_bind (fun _ => hE.unavailable _ rfl) fun hthawed => ?_
  obtain ⟨head, version⟩ := snapshot
  cases version with
  | none => exact .pure fun _ _ _ => trivial
  | some version =>
    dsimp only
    split
    · exact .pure fun _ _ _ => trivial
    rename_i hfull
    have hfull : (head.deltas.isEmpty && isEmptyTree head.outcomeExpiry) = false := by simpa using hfull
    refine .bind (P.bindPreparedMutation hE.unavailable) fun s₁ session hle₁ _ hprep => ?_
    have hbound : session.preparedAt = 0 ∨ session.retainUntil = 0 ∨ (0 : Time) ≠ 0 → ∀ e, E e := by
      rintro (h | h | h)
      · exact hE.clock s hI (Nat.le_zero.mp (h ▸ hprep.1))
      · exact absurd h (hprep.2.2 rfl)
      · exact absurd rfl h
    refine .bind (P.preparation hE.unavailable hbound) fun s₂ p hle₂ _ hp => ?_
    refine .except_bind (hE.compact s version head hI hs.1 hfull _) fun next hnext => ?_
    refine .except_bind (fun e he => hE.compacted s version head hI hs.1 hfull _ next e hnext he) fun _ henc => ?_
    refine .bind (P.preparation hE.unavailable hbound) fun s₃ _ hle₃ _ _ => ?_
    have hnow : s.clock ≤ p.1 ∧ p.1 ≤ s₃.clock := by
      rw [hp.1]
      exact ⟨hprep.1, hprep.2.1.trans (hle₂.clock.trans hle₃.clock)⟩
    have hput := P.putHead (.compact p.1) (hle₁.trans (hle₂.trans hle₃)) hI hs.1
      (.compact hthawed hnext) hnow henc (fun _ _ h => by cases h)
      (fun hreg hreg' => by
        obtain ⟨_, _, _, rfl⟩ := compactHead_ok hnext
        exact Bool.noConfusion (hreg.symm.trans hreg')) (fun _ h => nomatch h)
    exact .bind (hput.weaken_error fun _ h => hE.put h.1) fun _ _ _ _ _ => .pure fun _ _ _ => trivial

theorem compact (hE : P.Errors E ref) : Ensures P.Inv P.ok E (fun _ _ => True) (compact codec ref) s := by
  exact .bind (P.loadHead hE) fun t snapshot _ hI hs => P.compactSnapshot hE hI hs.1

/-! ## Registration -/

theorem loadCatalog (hun : E transportError) :
    Ensures P.Inv P.ok E (fun t snapshot => snapshot.Valid t ∧ ∃ u, Store.Le s u ∧ P.Inv u ∧
      snapshot.version = (u.cells .catalog).current.map (·.1) ∧ currentCatalog u = snapshot.head ∧
      Store.Le (u.note (site, (u.cells .catalog).version)) t) (loadCatalog site) s := by
  refine .bind (.getObject hun P.note) ?_
  rintro t r - - ⟨u, hsu, hI, -, rfl, hut⟩
  have hle := (Store.le_note u _).trans hut
  cases hc : (u.cells .catalog).current with
  | none =>
    refine .pure fun v hv _ => ⟨rfl, u, hsu, hI, by rw [hc]; rfl, ?_, hut.trans hv⟩
    rw [currentCatalog, hc]
  | some p =>
    refine .pure fun v hv _ => ⟨?_, u, hsu, hI, by rw [hc]; rfl, ?_, hut.trans hv⟩
    · exact ((P.wf hI).seen_of_current hc).mono (hle.trans hv)
    · rw [currentCatalog, hc]

theorem currentCatalog_of_admitted {snapshot : CatalogSnapshot} (hs : snapshot.Valid s) (hle : Store.Le s t)
    (hI : P.Inv t)
    (hr : (t.cells .catalog).refuses (putCondition snapshot.version) = none) : currentCatalog t = snapshot.head := by
  obtain ⟨head, version⟩ := snapshot
  cases version with
  | none =>
    rw [show head = {} from hs, currentCatalog, Store.absent_of_admitted hr]
  | some version =>
    obtain ⟨x, hcur⟩ := Store.current_of_admitted hr
    obtain rfl : x = head := (P.wf hI).current_of_seen (Store.Seen.mono hs hle) hcur
    rw [currentCatalog, hcur]

theorem catalog_held {snapshot : CatalogSnapshot} (hs : snapshot.Valid s) (u : Bucket)
    (hle : Store.Le s u) (hI : P.Inv u) (version : Nat)
    (hv : putCondition snapshot.version = .match version) : (u.cells .catalog).current ≠ none := by
  intro hnone
  obtain ⟨head, v⟩ := snapshot
  cases v with
  | none => cases hv
  | some v =>
    obtain ⟨w, hw, -⟩ := Store.Seen.mono hs hle
    rw [P.undeleted hI .catalog rfl hnone] at hw
    cases hw

theorem publishCatalog {snapshot : CatalogSnapshot} {next : CatalogHead} (hs : snapshot.Valid s)
    (h : ∀ u, Store.Le s u → P.Inv u → currentCatalog u = snapshot.head →
      (u.cells .catalog).current.map (·.1) = snapshot.version → P.Inv (u.write .plain .catalog next)) :
    Ensures P.Inv P.ok PutFailure (fun t _ => ∃ w ∈ (t.cells .catalog).writes, w.value = next)
      (publishCatalog snapshot next) s := by
  refine .bind (.putObject (P.catalog_held hs) fun u f hle hI _ hr => ?_) ?_
  · refine h u hle hI (P.currentCatalog_of_admitted hs hle hI hr) ?_
    cases hv : snapshot.version with
    | none =>
      rw [hv] at hr
      rw [Store.absent_of_admitted hr, Option.map_none]
    | some version =>
      rw [hv] at hr
      obtain ⟨x, hcur⟩ := Store.current_of_admitted hr
      rw [hcur, Option.map_some]
  · rintro t version - - ⟨u, -, -, -, -, hut⟩
    have hstored : ∃ w ∈ ((u.write .plain .catalog next).cells .catalog).writes, w.value = next :=
      ⟨_, by rw [Store.write_cells_self]; exact .head _, rfl⟩
    obtain ⟨w, hw, hvalue⟩ := hstored
    exact .pure fun v hv _ => ⟨w, ((hut.trans hv).writes _).subset hw, hvalue⟩

omit P in
theorem catalogued_of_snapshot {snapshot : CatalogSnapshot} (hs : snapshot.Valid s) (hle : Store.Le s t)
    (hget : snapshot.head.root.get (catalogEntryKey ref) = some ref) : Catalogued t ref := by
  obtain ⟨head, version⟩ := snapshot
  cases version with
  | none =>
    rw [show head = {} from hs] at hget
    cases hget
  | some version =>
    obtain ⟨w, hw, -, hvalue⟩ := hs
    exact ⟨w, (hle.writes _).subset hw, hvalue.symm ▸ hget⟩

variable {fuel : Nat}

theorem registerInCatalog (hE : P.Errors E ref) (hexists : HeadExists s ref) :
    Ensures P.Inv P.ok E (fun t _ => Catalogued t ref) (registerInCatalog ref fuel) s := by
  induction fuel generalizing s with
  | zero => exact .throw (hE.internal _ rfl)
  | succ fuel ih =>
    refine .except_bind hE.reference fun _ _ => ?_
    refine .bind (P.loadCatalog (hE.unavailable _ rfl)) fun s₁ snapshot hle₁ hI₁ hs => ?_
    cases hget : snapshot.head.root.get (catalogEntryKey ref) with
    | some existing =>
      refine .except (fun e he => ?_) fun _ hfound t ht _ => ?_
      · unfold rejectIf at he
        split at he
        · cases he
          exact hE.race _ rfl
        · cases he
      · obtain rfl : existing = ref := by simpa using hfound
        exact catalogued_of_snapshot hs.1 ht hget
    | none =>
      refine .rejectIf_bind (fun _ => hE.unavailable _ rfl) fun hthawed => ?_
      have hpublish := P.publishCatalog hs.1 fun u hle hI hcurrent _ =>
        P.register hI hcurrent.symm hget (by simpa using hthawed) (hexists.mono (hle₁.trans hle))
      refine .bind (.attempt hpublish) fun s₂ r hle₂ hI₂ hr => ?_
      cases r with
      | ok _ =>
        obtain ⟨w, hw, hvalue⟩ := hr
        refine .pure fun t ht _ => ⟨w, (ht.writes _).subset hw, ?_⟩
        rw [hvalue, SortedMap.get_set, if_pos rfl]
      | error e =>
        dsimp only
        split
        · exact ih (hexists.mono (hle₁.trans hle₂))
        · exact .throw (hE.put hr)

theorem decodeHead_initialHead (h : validateInitialDomainHead codec.encodesHead (initialHead ref) = .ok ()) :
    decodeHead codec ref (initialHead ref) = .ok () := by
  simpa [decodeHead, initialHead] using h

theorem createHead (hinit : validateInitialDomainHead codec.encodesHead (initialHead ref) = .ok ()) :
    Ensures P.Inv P.ok (fun e => PutFailure e ∧ (e.isRace = true → ∀ head, P.Base head))
      (fun t version => t.Seen (.head ref) version (initialHead ref))
      (putObject .plain (.head ref) (initialHead ref) .createOnly) s := by
  refine ((Ensures.putObject_refused (fun u _ _ version h => by cases h) fun u f _ hI hok hr => ?_).weaken
    ?_).weaken_error fun e he => he.imp_right fun hraced hrace => ?_
  · exact P.head hI hok (.create (Store.absent_of_admitted hr) hinit) fun _ h => nomatch h
  · rintro t version - - ⟨u, -, -, -, rfl, hut⟩
    have hseen : (u.write .plain (.head ref) (initialHead ref)).Seen (.head ref) (u.counter + 1) (initialHead ref) :=
      ⟨⟨.plain, u.counter + 1, initialHead ref, u.clock⟩, by simp [Store.write], rfl, rfl⟩
    exact hseen.mono hut
  · obtain ⟨u, f, hok, hr⟩ := hraced hrace
    exact P.restarted hok (Option.isSome_iff_ne_none.mpr hr)

theorem prepareRegistrationFrom (hE : P.Errors E ref) (hs : snapshot.Valid codec ref s) :
    Ensures P.Inv P.ok E (fun t r => r.Valid codec ref t ∧ r.exists = true ∧ Entered t ref ∧
        ((snapshot.exists = true → P.Base snapshot.head) → P.Base r.head))
      (prepareRegistrationFrom codec ref fuel snapshot) s := by
  induction fuel generalizing s snapshot with
  | zero => exact .throw (hE.internal _ rfl)
  | succ fuel ih =>
    unfold EndlessFS.prepareRegistrationFrom
    obtain ⟨head, version⟩ := snapshot
    cases version with
    | some version =>
      dsimp only
      split
      · rename_i hreg
        exact .pure fun t ht _ => ⟨hs.mono ht, rfl, (hs.mono ht).entered rfl hreg, fun h => h rfl⟩
      · refine .bind (P.registerInCatalog hE hs.exists) fun t _ ht _ hcat => ?_
        exact .pure fun u hu _ => ⟨hs.mono (ht.trans hu), rfl, Entered.mono (.inr hcat) hu, fun h => h rfl⟩
    | none =>
      refine .except_bind hE.initial fun _ hinit => ?_
      refine .bind (.attempt (P.createHead hinit)) fun t r ht hI hr => ?_
      cases r with
      | ok version =>
        have hvalid : (HeadSnapshot.mk (initialHead ref) (some version)).Valid codec ref t :=
          ⟨hr, decodeHead_initialHead hinit⟩
        refine .bind (P.registerInCatalog hE hvalid.exists) fun u _ hu _ hcat => ?_
        refine .pure fun v hv _ => ⟨hvalid.mono (hu.trans hv), rfl, Entered.mono (.inr hcat) hv, fun _ => P.room ?_⟩
        exact Nat.succ_pos _
      | error e =>
        dsimp only
        split
        · rename_i hconflict
          have hall := hr.2 (by rw [Error.isRace, hconflict]; rfl)
          refine .bind (P.loadHead hE) fun u again _ _ hagain => (ih hagain.1).weaken fun _ r _ _ h => ?_
          exact ⟨h.1, h.2.1, h.2.2.1, fun _ => hall r.head⟩
        · exact .throw (hE.put hr.1)

theorem prepareRegistration (hE : P.Errors E ref) :
    Ensures P.Inv P.ok E (fun t r => r.Valid codec ref t ∧ r.exists = true ∧ Entered t ref)
      (prepareRegistration codec fuel ref) s := by
  exact .bind (P.loadHead hE) fun t snapshot _ _ hs =>
    (P.prepareRegistrationFrom hE hs.1).weaken fun _ _ _ _ h => ⟨h.1, h.2.1, h.2.2.1⟩

/-! ## Mutations -/

variable {session : Option Session}

theorem checkPreparation (hsession : session.isSome → ∀ e, E e) :
    Ensures P.Inv P.ok E (fun _ _ => True) (checkPreparation session retainUntil) s := by
  cases session with
  | none => exact .pure fun _ _ _ => trivial
  | some session =>
    have hall := hsession rfl
    exact .bind (P.preparation (fun e _ => hall e) fun _ => hall) fun _ _ _ _ _ =>
      .pure fun _ _ _ => trivial

variable {P} in
theorem Errors.admission (hE : P.Errors E ref) (hm : P.MutationErrors E ref m)
    (hrev : m.expectedRevision.isSome → ∀ e, E e)
    (hI : P.Inv s) (hs : snapshot.Valid codec ref s) (e : Error) (h : admitMutation ref snapshot.head m = .error e) :
      E e := by
  rcases bind_eq_error_iff.mp h with h | ⟨_, -, h⟩
  · unfold rejectIf at h
    split at h
    · rename_i hsome
      simp only [Bool.and_eq_true, decide_eq_true_eq] at hsome
      exact hrev hsome.1 e
    · cases h
  rcases bind_eq_error_iff.mp h with h | ⟨_, -, h⟩
  · unfold rejectIf at h
    split at h
    · cases h
      exact hE.unavailable _ rfl
    · cases h
  rcases bind_eq_error_iff.mp h with h | ⟨lock, -, h⟩
  · obtain ⟨head, version⟩ := snapshot
    cases version with
    | none =>
      rw [show head = absentHead from hs] at h
      cases h
    | some version => exact hE.lock s version head hI hs.1 e h
  rcases bind_eq_error_iff.mp h with h | ⟨_, -, h⟩
  · unfold rejectIf at h
    split at h
    · cases h
      exact hE.unavailable _ rfl
    · cases h
  · exact hm.validate snapshot.head e h

theorem publishLoop (hE : P.Errors E ref) (hm : P.MutationErrors E ref m) (hrev : m.expectedRevision.isSome → ∀ e, E e)
    (hsession : session.isSome → ∀ e, E e) {first : Option HeadSnapshot} (hnormal : m.Normal)
    (hretained : m.retainUntil ≠ 0)
    (hintent : fingerprint = codec.fingerprint m.changes m.result) (hlegit : P.Legit s ref m)
    (hexists : HeadExists s ref) (hentered : Entered s ref)
    (hfirst : ∀ snapshot ∈ first, snapshot.Valid codec ref s ∧ snapshot.exists = true ∧ P.Base snapshot.head) :
    Ensures P.Inv P.ok E (fun t _ => Recorded codec t ref m.id fingerprint)
      (publishLoop codec ref m fingerprint session fuel first) s := by
  induction fuel generalizing s first with
  | zero => exact .throw (hE.internal _ rfl)
  | succ fuel ih =>
    refine .bind (φ := fun t (r : HeadSnapshot) => r.Valid codec ref t ∧ r.exists = true ∧ P.Base r.head) ?_
      fun s₁ snapshot hle₁ hI₁ hs => ?_
    · cases first with
      | none =>
        refine (P.loadHeadAt hE.toReadErrors).weaken ?_
        rintro t snapshot - - ⟨hvalid, u, hsu, hI, hok, rfl, -⟩
        exact ⟨hvalid, P.exists_of_current hI (hexists.mono hsu), P.restarted hok rfl _⟩
      | some snapshot =>
        exact .pure fun t ht _ => ⟨(hfirst snapshot rfl).1.mono ht, (hfirst snapshot rfl).2⟩
    obtain ⟨hs, hsome, hbase⟩ := hs
    have hlegit₁ := P.legit_mono hle₁ hlegit
    refine .bind (P.lookupOutcome fun now e => hE.lookupSnapshot hI₁ hs now m.id e) fun s₂ o hle₂ hI₂ hnow => ?_
    obtain ⟨now, hlo, hhi, hlookup⟩ := hnow
    cases o with
    | some outcome => exact P.replayOutcome hE hI₂ (hs.mono hle₂) hlookup
    | none =>
      refine .except_bind (hE.admission hm hrev hI₁ hs) fun _ hadmitted => ?_
      have hlegit₂ := P.legit_mono hle₂ hlegit₁
      obtain ⟨head, version⟩ := snapshot
      cases version with
      | none => cases hsome
      | some version =>
      dsimp only
      cases henc : encodeHead codec (appendDelta codec head m fingerprint) with
      | error encodeErr =>
        -- the window is full: fold it and start again from a fresh head
        refine .rejectIf_bind (fun _ => ?_) fun _ => ?_
        · exact hm.encode s₁ version head hI₁ hs.1 _ (hintent ▸ henc)
        refine .bind (.attempt (P.compact hE)) fun s₃ r hle₃ _ hr => ?_
        refine .ignoreRace_bind (fun e he _ => by rw [he] at hr; exact hr) ?_
        exact ih (P.legit_mono hle₃ hlegit₂) (hexists.mono (hle₁.trans (hle₂.trans hle₃)))
          (hentered.mono (hle₁.trans (hle₂.trans hle₃))) fun _ h => by cases h
      | ok u =>
        refine .bind (P.checkPreparation hsession) fun s₃ _ hle₃ _ _ => ?_
        have hlegit₃ := P.legit_mono hle₃ hlegit₂
        have hput := P.putHead (.append m fingerprint now) (hle₂.trans hle₃) hI₁ hs.1
          (.append hnormal hretained hintent hlookup hadmitted) ⟨hlo, hhi.trans hle₃.clock⟩ henc
          (fun m' fp h => by cases h; exact hlegit₃) (fun _ _ => hentered.mono (hle₁.trans (hle₂.trans hle₃)))
          (fun _ _ _ => hbase)
        refine .bind (.attempt hput) fun s₄ r hle₄ _ hr => ?_
        have hexists₄ := hexists.mono (hle₁.trans (hle₂.trans (hle₃.trans hle₄)))
        cases r with
        | ok version' =>
          refine .pure fun t ht _ => ?_
          exact .mono ⟨m, rfl, hr.2 m fingerprint rfl⟩ ht
        | error putErr =>
          refine .bind (.attempt (P.loadHead hE)) fun s₅ r' hle₅ _ hr' => ?_
          cases r' with
          | error e => exact .throw (hE.put hr.1)
          | ok recovered =>
            obtain ⟨hrec, hsome'⟩ := hr'
            refine .bind (P.lookupOutcome fun now e => hE.lookupSnapshot ‹P.Inv s₅› hrec now m.id
              e) fun s₆ o hle₆ hI₆ hnow => ?_
            obtain ⟨now', -, -, hlookup'⟩ := hnow
            cases o with
            | some outcome => exact P.replayOutcome hE hI₆ (hrec.mono hle₆) hlookup'
            | none =>
              refine .except_bind (hm.validate recovered.head) fun _ _ => ?_
              split
              · rename_i hretry
                simp only [Bool.and_eq_true] at hretry
                refine ih (P.legit_mono (hle₄.trans (hle₅.trans hle₆)) hlegit₃) (hexists₄.mono (hle₅.trans hle₆))
                  (hentered.mono (hle₁.trans (hle₂.trans (hle₃.trans (hle₄.trans (hle₅.trans hle₆)))))) fun x hx => ?_
                cases hx
                exact ⟨hrec.mono hle₆, hsome' hexists₄, hr.2 hretry.2 m rfl _⟩
              · exact .throw (hE.put hr.1)

/-- A head that is not registered yet has no deltas, and the window of any other was checked. -/
theorem HeadSnapshot.Valid.room (hs : snapshot.Valid codec ref s) (hexists : snapshot.exists = true)
    (hchecked : (snapshot.exists && snapshot.head.registered &&
      decide (consistencyDomainDeltaWindow ≤ snapshot.head.deltas.length)) = false) :
    snapshot.head.deltas.length < consistencyDomainDeltaWindow := by
  obtain ⟨head, version⟩ := snapshot
  cases version with
  | none => cases hexists
  | some version =>
    have hdec : decodeHead codec ref head = .ok () := hs.2
    cases hreg : head.registered with
    | true => simpa [hexists, hreg] using hchecked
    | false =>
      rw [decodeHead] at hdec
      split at hdec
      · cases hdec
      rw [hreg] at hdec
      obtain ⟨_, hinitial, -⟩ := Except.bind_ok hdec
      have hempty := rejectIf_ok hinitial
      simp only [Bool.or_eq_false_iff, Bool.not_eq_false', List.isEmpty_iff] at hempty
      rw [show head.deltas = [] from hempty.2]
      exact Nat.succ_pos _

theorem preflightLoop (hE : P.Errors E ref) (hI : P.Inv s) (hs : snapshot.Valid codec ref s) :
    Ensures P.Inv P.ok E (fun t r => r.Valid codec ref t ∧ (r.exists = true → P.Base r.head))
      (preflightLoop codec ref fuel snapshot) s := by
  induction fuel generalizing s snapshot with
  | zero => exact .throw (hE.internal _ rfl)
  | succ fuel ih =>
    unfold EndlessFS.preflightLoop
    split
    · refine .bind (.attempt (P.compactSnapshot hE hI hs)) fun s₁ r _ _ hr => ?_
      refine .ignoreRace_bind (fun e he _ => by rw [he] at hr; exact hr) ?_
      exact .bind (P.loadHead hE) fun t again _ hI' hagain => ih hI' hagain.1
    · rename_i hchecked
      exact .pure fun t ht _ => ⟨hs.mono ht, fun hexists =>
        P.room (HeadSnapshot.Valid.room hs hexists (by simpa using hchecked))⟩

/-- The retention that `bindRetention` chooses for a mutation. -/
def RetentionOf (mutation : Mutation) (session : Option Session) (retainUntil : Time) : Prop :=
  session = none → mutation.retainUntil ≠ 0 → retainUntil = mutation.retainUntil

variable {mutation : Mutation}

theorem bindRetention (hsession : session.isSome → ∀ e, E e) :
    Ensures P.Inv P.ok E (fun _ b => ∃ retainUntil, RetentionOf mutation session retainUntil ∧
      retainUntil ≠ 0 ∧ b = { mutation with retainUntil }) (bindRetention mutation session) s := by
  unfold EndlessFS.bindRetention
  cases session with
  | some session =>
    have hall := hsession rfl
    refine .bind (P.preparation (fun e _ => hall e) fun _ => hall) fun t p _ _ hp =>
      .pure fun _ _ _ => ?_
    exact ⟨p.2, (fun h => nomatch h), hp.2, rfl⟩
  | none =>
    dsimp only
    split
    · rename_i hzero
      refine .bind .clockNow fun t now _ _ _ => .pure fun _ _ _ => ?_
      exact ⟨_, fun _ hne => absurd hzero hne, by simp [terminalOperationRetention], rfl⟩
    · rename_i hbound
      exact .pure fun _ _ _ => ⟨mutation.retainUntil, fun _ _ => rfl, hbound, rfl⟩

theorem decodeHead_binding (h : decodeHead codec ref head = .ok ()) :
    head.domainID = ref.id ∧ head.kind = ref.kind := by
  unfold decodeHead at h
  split at h
  · cases h
  · rename_i hb
    simpa using hb

variable {initial : Option HeadSnapshot}

theorem startingHead (hE : P.Errors E ref) (hinit : ∀ snapshot ∈ initial, snapshot.Valid codec ref s) :
    Ensures P.Inv P.ok E (fun t r => r.Valid codec ref t) (startingHead codec ref initial) s := by
  cases initial with
  | none => exact (P.loadHead hE).weaken fun _ _ _ _ h => h.1
  | some snapshot =>
    have hs := hinit snapshot rfl
    refine .rejectIf_bind (fun hmis => ?_) fun _ => .pure fun t ht _ => hs.mono ht
    obtain ⟨head, version⟩ := snapshot
    cases version with
    | none => cases hmis
    | some version =>
      obtain ⟨hid, hkind⟩ : head.domainID = ref.id ∧ head.kind = ref.kind := decodeHead_binding hs.2
      simp [HeadSnapshot.exists, hid, hkind] at hmis

def boundMutation (mutation : Mutation) (retainUntil : Time) : Mutation :=
  { mutation with retainUntil, changes := sortChanges mutation.changes }

theorem mutatePrepared (hE : P.Errors E ref) (hsession : session.isSome → ∀ e, E e)
    (hrev : mutation.expectedRevision.isSome → ∀ e, E e) (hinit : ∀ snapshot ∈ initial, snapshot.Valid codec ref s)
    (hm : ∀ retainUntil, RetentionOf mutation session retainUntil → P.Legit s ref (boundMutation mutation retainUntil) ∧
      P.MutationErrors E ref (boundMutation mutation retainUntil) ∧
      ∀ e, normalizeMutation codec { mutation with retainUntil } = .error e → E e) : Ensures P.Inv P.ok E
      (fun t _ => Recorded codec t ref mutation.id (codec.fingerprint (sortChanges mutation.changes) mutation.result))
      (mutatePrepared codec fuel ref mutation initial session) s := by
  refine .except_bind hE.reference fun _ _ => ?_
  refine .bind (P.bindRetention hsession) fun s₁ bound hle₁ _ hb => ?_
  obtain ⟨retainUntil, hret, hretained, rfl⟩ := hb
  obtain ⟨hlegit, herrors, hnorm_error⟩ := hm retainUntil hret
  refine .except_bind hnorm_error fun p hnorm => ?_
  obtain ⟨m, fingerprint⟩ := p
  obtain ⟨rfl, hnormal, hfp⟩ := normalizeMutation_ok hnorm
  have hinit₁ : ∀ snapshot ∈ initial, snapshot.Valid codec ref s₁ := fun x hx => (hinit x hx).mono hle₁
  refine .bind (P.startingHead hE hinit₁) fun s₂ loaded hle₂ hI₂ hloaded => ?_
  refine .bind (P.preflightLoop hE hI₂ hloaded) fun s₃ preflight hle₃ _ hpre => ?_
  have hlegit₃ : P.Legit s₃ ref (boundMutation mutation retainUntil) :=
    P.legit_mono (hle₁.trans (hle₂.trans hle₃)) hlegit
  have hpublish : ∀ {u : Bucket} {snapshot : HeadSnapshot}, Store.Le s₃ u → snapshot.Valid codec ref u →
      snapshot.exists = true → Entered u ref → P.Base snapshot.head →
        Ensures P.Inv P.ok E (fun t _ => Recorded codec t ref mutation.id
          (codec.fingerprint (sortChanges mutation.changes) mutation.result))
        (EndlessFS.publishLoop codec ref (boundMutation mutation retainUntil) fingerprint session fuel
          (some snapshot)) u := by
    intro u snapshot hle hvalid hsome hentered hbase
    have hheadExists : HeadExists u ref := by
      obtain ⟨head, version⟩ := snapshot
      cases version with
      | none => cases hsome
      | some version => exact hvalid.exists
    refine (P.publishLoop hE herrors hrev hsession hnormal hretained hfp (P.legit_mono hle hlegit₃) hheadExists hentered
      fun x hx => ?_).weaken fun _ _ _ _ h => hfp ▸ h
    cases hx
    exact ⟨hvalid, hsome, hbase⟩
  obtain ⟨hpre, hroom⟩ := hpre
  split
  · refine .except_bind (herrors.validate (emptyHead ref)) fun _ _ => ?_
    refine .bind (P.prepareRegistrationFrom hE hpre) fun s₄ registered hle₄ _ hreg => ?_
    exact hpublish hle₄ hreg.1 hreg.2.1 hreg.2.2.1 (hreg.2.2.2 hroom)
  · rename_i hsome
    simp only [Bool.or_eq_true, Bool.not_eq_true', not_or, Bool.not_eq_false] at hsome
    exact hpublish (.refl _) hpre hsome.1 (hpre.entered hsome.1 hsome.2) (hroom hsome.1)

theorem mutateMaterializedPrepared {session : Session} (hs : snapshot.Valid codec ref s)
    (hsession : session.preparedAt ≤ s.clock) (hlegit : ∀ retainUntil, P.Legit s ref
      (boundMutation mutation retainUntil)) :
    Ensures P.Inv P.ok (fun _ => True) (fun t _ => Recorded codec t ref mutation.id
        (codec.materializedFingerprint (sortChanges mutation.changes) mutation.result))
      (mutateMaterializedPrepared codec ref mutation snapshot session) s := by
  have hE := Errors.any P ref
  have hprepare : ∀ {s : Bucket} {retainUntil : Time}, Ensures P.Inv P.ok (fun _ => True)
      (fun _ p => p.1 = session.preparedAt ∧ p.2 ≠ 0) (session.preparation retainUntil) s :=
    P.preparation (fun _ _ => trivial) fun _ _ => trivial
  refine .except_bind (fun _ _ => trivial) fun _ _ => ?_
  obtain ⟨head, version⟩ := snapshot
  cases version with
  | none => exact .throw trivial
  | some version =>
    refine .rejectIf_bind (fun _ => trivial) fun hbound => ?_
    refine .bind hprepare fun s₁ p hle₁ hI₁ hp => .except_bind (fun _ _ => trivial) fun q hnorm => ?_
    obtain ⟨m, fingerprint⟩ := q
    obtain ⟨rfl, hnormal, hfp⟩ := normalizeMaterializedMutation_ok hnorm
    have hs₁ := hs.mono hle₁
    refine .bind (P.lookupOutcome fun _ _ _ => trivial) fun s₂ o hle₂ hI₂ hnow => ?_
    obtain ⟨now, hlo, hhi, hlookup⟩ := hnow
    cases o with
    | some outcome => exact (P.replayOutcome hE hI₂ (hs₁.mono hle₂) hlookup).weaken fun _ _ _ _ h => hfp ▸ h
    | none =>
      refine .except_bind (fun _ _ => trivial) fun _ hadmitted => ?_
      refine .except_bind (fun _ _ => trivial) fun next hnext => ?_
      refine .except_bind (fun _ _ => trivial) fun _ henc => ?_
      refine .bind hprepare fun s₃ _ hle₃ _ _ => ?_
      have hregistered : head.registered = true := by
        simp only [Bool.or_eq_false_iff, Bool.not_eq_false'] at hbound
        exact hbound.1.1
      have hprep : p.1 ≤ now := hp.1 ▸ hsession.trans (hle₁.clock.trans hlo)
      have hput := P.putHead (.materialize (boundMutation mutation p.2) fingerprint p.1 now) (hle₂.trans hle₃) hI₁ hs₁.1
        (.materialize hnormal hp.2 hfp hregistered hlookup hadmitted hnext) ⟨hprep, hlo, hhi.trans hle₃.clock⟩ henc
        (fun m' fp h => by
          cases h
          exact P.legit_mono (hle₁.trans (hle₂.trans hle₃)) (hlegit p.2))
        (fun hunreg _ => by rw [hregistered] at hunreg; cases hunreg) (fun _ _ hdeltas => by
          obtain ⟨_, _, -, rfl⟩ := materializedHead_ok hnext
          exact absurd rfl hdeltas)
      refine .bind (.attempt hput) fun s₄ r hle₄ _ hr => ?_
      cases r with
      | ok version' =>
        refine .pure fun t ht _ => ?_
        exact .mono ⟨boundMutation mutation p.2, rfl, hfp ▸ hr.2 _ fingerprint rfl⟩ ht
      | error putErr =>
        refine .bind (.attempt (P.loadHead hE)) fun s₅ r hle₅ _ hr => ?_
        cases r with
        | error e => exact .throw trivial
        | ok recovered =>
          refine .bind (P.lookupOutcome fun _ _ _ => trivial) fun s₆ o hle₆ hI₆ hnow => ?_
          obtain ⟨now', -, -, hlookup'⟩ := hnow
          cases o with
          | some outcome =>
            exact (P.replayOutcome hE hI₆ (hr.1.mono hle₆) hlookup').weaken fun _ _ _ _ h => hfp ▸ h
          | none => exact .throw trivial

/-! ## Registration and freezing of a head -/

theorem putAction (action : HeadAction) (hI : P.Inv s) (hs : snapshot.Valid codec ref s)
    (hexists : snapshot.exists = true)
    (hstep : action.Step codec ref snapshot.head next) (hquiet : action.mutation = none)
    (hwithin : action.Within s.clock s.clock)
    (henc : encodeHead codec next = .ok ()) (hentered : snapshot.head.registered = false → next.registered = true →
      Entered s ref) :
    Ensures P.Inv P.ok PutFailure (fun t _ => ∃ w ∈ (t.cells (.head ref)).writes, w.value = next)
      (putObject action.site (.head ref) next (putCondition snapshot.version)) s := by
  obtain ⟨head, version⟩ := snapshot
  cases version with
  | none => cases hexists
  | some version =>
    refine ((P.putHead action (.refl s) hI hs.1 hstep hwithin henc (fun m fp h => ?_) hentered fun m hsite _ =>
      ?_).weaken
      fun _ _ _ _ h => h.1).weaken_error fun _ h => h.1
    · rw [hquiet] at h
      cases h
    · obtain ⟨fingerprint, hmutation⟩ := HeadAction.mutation_of_site hsite
      cases hquiet.symm.trans hmutation

theorem ensureRegisteredLoop {attempts : Nat} :
    Ensures P.Inv P.ok (fun _ => True) (fun _ _ => True) (ensureRegisteredLoop codec fuel ref attempts) s := by
  induction attempts generalizing s with
  | zero => exact .throw trivial
  | succ attempts ih =>
    refine .bind (P.prepareRegistration (Errors.any P ref)) fun s₁ snapshot _ hI hs => ?_
    split
    · exact .pure fun _ _ _ => trivial
    rename_i hreg
    refine .except_bind (fun _ _ => trivial) fun _ henc => ?_
    have hput := P.putAction .register hI hs.1 hs.2.1 (.register (by simpa using hreg)) rfl trivial henc fun _ _ =>
      hs.2.2
    refine .bind (.attempt hput) fun s₂ r _ _ _ => ?_
    cases r with
    | ok _ => exact .pure fun _ _ _ => trivial
    | error e =>
      dsimp only
      split
      · exact ih
      · exact .throw trivial

theorem ensureRegistered : Ensures P.Inv P.ok (fun _ => True) (fun _ _ => True) (ensureRegistered codec fuel ref) s :=
  P.ensureRegisteredLoop

theorem freezable_ok (h : freezable ref head = .ok ()) : transitionLockAtHead ref head = .ok none := by
  obtain ⟨o, ho, h⟩ := bind_ok h
  obtain ⟨_, -, h⟩ := bind_ok h
  rw [ho, Option.isSome_eq_false_iff.mp (rejectIf_ok h) |> Option.isNone_iff_eq_none.mp]

def FrozenAt (s : Bucket) (ref : DomainRef) (epoch : Nat) : Prop :=
  ∃ w ∈ (s.cells (.head ref)).writes,
    w.value.registered = true ∧ w.value.frozen = true ∧ w.value.freezeEpoch = epoch

variable {epoch : Nat}

theorem FrozenAt.mono (h : FrozenAt s ref epoch) (hle : Store.Le s t) : FrozenAt t ref epoch := by
  obtain ⟨w, hw, hfrozen⟩ := h
  exact ⟨w, (hle.writes _).subset hw, hfrozen⟩

theorem freezeLoop (hepoch : epoch ≠ 0) :
    Ensures P.Inv P.ok (fun _ => True) (fun t _ => FrozenAt t ref epoch) (freezeLoop codec ref epoch fuel) s := by
  induction fuel generalizing s with
  | zero => exact .throw trivial
  | succ fuel ih =>
    refine .bind (P.loadHead (Errors.any P ref)) fun s₁ snapshot _ hI hs => ?_
    refine .rejectIf_bind (fun _ => trivial) fun hreg => ?_
    refine .except_bind (fun _ _ => trivial) fun _ hfree => ?_
    simp only [Bool.or_eq_false_iff, Bool.not_eq_false'] at hreg
    split
    · rename_i hfrozen
      refine .except (fun _ _ => trivial) fun _ hat t ht _ => ?_
      have hvalid := hs.1.mono ht
      obtain ⟨head, version⟩ := snapshot
      cases version with
      | none => exact absurd hreg.1 Bool.false_ne_true
      | some version =>
        obtain ⟨⟨w, hw, -, rfl⟩, -⟩ := hvalid
        exact ⟨w, hw, hreg.2, hfrozen, by simpa using rejectIf_ok hat⟩
    rename_i hthawed
    refine .except_bind (fun _ _ => trivial) fun _ henc => ?_
    have hput := P.putAction (.freeze epoch) hI hs.1 hreg.1
      (.freeze hreg.2 (freezable_ok hfree) (by simpa using hthawed) hepoch) rfl trivial henc
      fun hunreg _ => by rw [hreg.2] at hunreg; cases hunreg
    refine .bind (.attempt hput) fun s₂ r _ _ hr => ?_
    cases r with
    | ok _ =>
      obtain ⟨w, hw, hvalue⟩ := hr
      exact .pure fun t ht _ => ⟨w, (ht.writes _).subset hw, by rw [hvalue]; exact ⟨hreg.2, rfl, rfl⟩⟩
    | error e =>
      dsimp only
      split
      · exact ih
      · exact .throw trivial

theorem freeze : Ensures P.Inv P.ok (fun _ => True) (fun t _ => FrozenAt t ref epoch)
    (freeze codec fuel ref epoch) s := by
  refine .rejectIf_bind (fun _ => trivial) fun hepoch => ?_
  exact .bind P.ensureRegistered fun _ _ _ _ _ => P.freezeLoop (by simpa using hepoch)

theorem unfreezeLoop : Ensures P.Inv P.ok (fun _ => True) (fun _ _ => True) (unfreezeLoop codec ref epoch fuel) s := by
  induction fuel generalizing s with
  | zero => exact .throw trivial
  | succ fuel ih =>
    refine .bind (P.loadHead (Errors.any P ref)) fun s₁ snapshot _ hI hs => ?_
    refine .rejectIf_bind (fun _ => trivial) fun hreg => ?_
    simp only [Bool.or_eq_false_iff, Bool.not_eq_false'] at hreg
    split
    · exact .pure fun _ _ _ => trivial
    rename_i hfrozen
    refine .rejectIf_bind (fun _ => trivial) fun hepoch => ?_
    refine .except_bind (fun _ _ => trivial) fun _ henc => ?_
    have hput := P.putAction (.unfreeze epoch) hI hs.1 hreg.1
      (.unfreeze (by simpa using hfrozen) (by simpa using hepoch)) rfl trivial henc
      fun hunreg _ => by rw [hreg.2] at hunreg; cases hunreg
    refine .bind (.attempt hput) fun s₂ r _ _ _ => ?_
    cases r with
    | ok _ => exact .pure fun _ _ _ => trivial
    | error e =>
      dsimp only
      split
      · exact ih
      · exact .throw trivial

theorem unfreeze : Ensures P.Inv P.ok (fun _ => True) (fun _ _ => True) (unfreeze codec fuel ref epoch) s := by
  exact .rejectIf_bind (fun _ => trivial) fun _ => P.unfreezeLoop

end Protocol

end EndlessFS
