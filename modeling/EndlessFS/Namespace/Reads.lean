import EndlessFS.Domain.Alone
import EndlessFS.Domain.Compaction
import EndlessFS.Domain.Window
import EndlessFS.Namespace.Propagate

/-!
# EndlessFS.Namespace.Reads

Reads of a namespace and replays of mutations. Both fold a full delta window before they look at anything
(`loadView`, `mutatePrepared`), and a frozen head is not folded: whether a frozen head can be read depends on how many
deltas happened to be pending when it was frozen.

* `viewHead`, `viewAtHead`: `loadView`. `readNamespace` is any read of the view (`stat` and `list` differ in what they
  compute from it), `getOperation` a read of the outcomes.
* `Answers`: what a call that is not disturbed returns, however time passes meanwhile.
* `reads_answered_iff`: on a stored head that can be folded, everything is answered from what the head denotes exactly
  if the head is not frozen with a full window.
-/

namespace EndlessFS

open Works
open Conc (Store Fault StoreOp PutCondition)

/-! ## The programs -/

/-- The loop of `loadView`. -/
def viewHead (codec : Codec) (ref : DomainRef) : Nat → Action HeadSnapshot
  | 0 => throw outOfFuel
  | fuel + 1 => do
    let snapshot ← loadHead codec ref
    if snapshot.exists && snapshot.head.registered && consistencyDomainDeltaWindow ≤ snapshot.head.deltas.length then
      ignoreRace (← attempt (compactSnapshot codec ref snapshot))
      viewHead codec ref fuel
    else return snapshot

def namespaceRootKey (area : Area) : String := "root/" ++ area.text

/-- How stored values and results are decoded. The result of a mutation may hold no operation. -/
structure NamespaceFormat (Operation : Type) where
  decodeNamespaceEntry : Bytes → Except Error NamespaceEntry
  decodeResult : String → Option (Option Operation)

variable {Operation α : Type} (format : NamespaceFormat Operation)

def checkWindow : List (String × Option DomainEntry) → Except Error Unit
  | [] => .ok ()
  | (key, entry) :: rest =>
    match entry with
    | some entry =>
      if key = namespaceRootKey .areaLive ∨ key = namespaceRootKey .areaTrash then do
        let _ ← format.decodeNamespaceEntry entry.value
        checkWindow rest
      else checkWindow rest
    | none => checkWindow rest

def rootAt (values : String → Option Bytes) (area : Area) : Except Error (Option NamespaceEntry) :=
  match values (namespaceRootKey area) with
  | none => .ok none
  | some value =>
    match format.decodeNamespaceEntry value with
    | .error _ => .error (newError .invalid "invalid namespace root")
    | .ok entry => if entry.name = "" then .ok (some entry) else .error (newError .invalid "invalid namespace root")

def viewOf (values : String → Option Bytes) : Except Error NamespaceView := do
  let live ← rootAt format values .areaLive
  let trash ← rootAt format values .areaTrash
  pure { live, trash }

/-- The part of `loadView` that reads the head. -/
def viewAtHead (head : DomainHead) : Except Error NamespaceView := do
  checkWindow format (windowEdits head.deltas)
  viewOf format fun key => (lookupAtHead head key).map fun v => v.data

def readNamespace (codec : Codec) (fuel : Nat) (ref : DomainRef) (read : NamespaceView → Except Error α) :
    Action α := do
  let snapshot ← viewHead codec ref fuel
  let view ← viewAtHead format snapshot.head
  read view

/-- The operation in an outcome, as `operationReplay` and `getOperation` find it. -/
def operationIn : Option Outcome → Except Error Operation
  | none => .error (newError .notFound "operation does not exist")
  | some outcome =>
    match format.decodeResult outcome.result with
    | none => .error (newError .invalid "invalid namespace mutation outcome")
    | some none => .error (newError .notFound "operation does not exist")
    | some (some operation) => .ok operation

/-- `getOperation`. -/
def getOperation (codec : Codec) (fuel : Nat) (ref : DomainRef) (operationID : String) : Action Operation := do
  let snapshot ← viewHead codec ref fuel
  let _ ← viewAtHead format snapshot.head
  let outcome ← lookupOutcome snapshot.head operationID
  operationIn format outcome

/-! ## Calls that are not disturbed -/

/-- The program runs alone on a backend that loses nothing, and ends before `limit`. -/
def Undisturbed {β : Type} (limit : Time) (s : Bucket) (a : Action β) (drifts : Nat → Time) : Prop :=
  Conc.Prog.AloneMeets (M := bucketMachine) .none (fun _ _ _ => True) (fun t d => t.clock + d < limit) a.run drifts s

/-- However time passes up to `limit`, the call returns `r`. -/
def Answers {β : Type} (limit : Time) (s : Bucket) (a : Action β) (r : Except Error β) : Prop :=
  ∀ drifts, Undisturbed limit s a drifts → (Conc.Prog.alone (M := bucketMachine) .none a.run drifts s).2 = r

abbrev EndsBefore (limit : Time) (t : Bucket) : Prop := t.clock < limit

theorem exec_clock (f : Fault) (s : Bucket) (o : StoreOp Site ObjectKey Object) :
    (Store.exec f s o).1.clock = s.clock := by
  have hput : ∀ site k value condition, (s.put site k value condition).1.clock = s.clock := by
    intro site k value condition
    unfold Store.put
    split <;> rfl
  have hdelete : ∀ k version, (s.delete k version).1.clock = s.clock := by
    intro k version
    unfold Store.delete
    split
    · rfl
    · split <;> rfl
  cases o with
  | get site k => rfl
  | put site k value condition => cases f with
    | none => exact hput site k value condition
    | dropRequest => rfl
    | dropResponse => exact hput site k value condition
  | delete site k version => cases f with
    | none => exact hdelete k version
    | dropRequest => rfl
    | dropResponse => exact hdelete k version
  | list site select => rfl
  | now site => rfl

variable {β : Type} {limit : Time} {s : Bucket} {a : Action β} {r : Except Error β}

theorem answers_of_ends
    (hs : EndsBefore limit s) (h : Ends (EndsBefore limit) (fun _ _ _ => True) (fun _ x => x = r) a s) :
      Answers limit s a r := by
  intro drifts hmeets
  have hsafe : ∀ (p : Conc.Prog bucketMachine (Except Error β)) (s : Bucket),
      Conc.Safe (M := bucketMachine) (EndsBefore limit) (fun _ _ _ => True) (fun _ _ => True) p s := by
    intro p
    induction p with
    | ret x => exact fun _ _ _ _ => trivial
    | op o next ih =>
      intro s t _ ht c _
      exact ⟨(exec_clock c t o).trans_lt ht, ih _ _⟩
  exact Conc.Alone.sound h (hsafe a.run s) hs (fun _ _ _ hd => hd) hmeets

theorem undisturbed_of_still (hs : EndsBefore limit s) (a : Action β) : Undisturbed limit s a fun _ => 0 := by
  unfold Undisturbed
  generalize a.run = p
  induction p generalizing s with
  | ret x => trivial
  | op o next ih =>
    refine ⟨hs, trivial, ih _ ?_⟩
    exact (exec_clock .none (s.advance 0) o).trans_lt hs

theorem Answers.unique {r' : Except Error β}
    (hs : EndsBefore limit s) (h : Answers limit s a r) (h' : Answers limit s a r') : r = r' :=
  (h _ (undisturbed_of_still hs a)).symm.trans (h' _ (undisturbed_of_still hs a))

variable {I : Bucket → Prop} {ok : OpPolicy} {φ : Bucket → α → Prop}

/-- The action fails with `e`. -/
abbrev Fails (I : Bucket → Prop) (ok : OpPolicy) (e : Error) (a : Action α) (s : Bucket) : Prop :=
  Ends I ok (fun _ r => r = .error e) a s

variable {f : α → Action β} {e : Error}

theorem Fails.bind {a : Action α} (hI : I s) (h : Fails I ok e a s) : Fails I ok e (a >>= f) s := by
  unfold Fails Ends
  refine Conc.Alone.bind hI h fun t r _ _ hr => ?_
  subst hr
  rfl

theorem Fails.except_bind {x : Except Error α} (hx : x = .error e) : Fails I ok e (liftM x >>= f) s := by
  subst hx
  rfl

/-! ## Stored heads -/

/-- The head of the domain is stored, passes its checks and is registered; the clock runs. -/
structure StoredAt (codec : Codec) (ref : DomainRef) (head : DomainHead) (s : Bucket) : Prop where
  named : ref.id ≠ ""
  clock : s.clock ≠ 0
  current : ∃ version, (s.cells (.head ref)).current = some (version, head)
  decodes : decodeHead codec ref head = .ok ()
  registered : head.registered = true

def FullWindow (head : DomainHead) : Prop := consistencyDomainDeltaWindow ≤ head.deltas.length

def Foldable (codec : Codec) (head : DomainHead) (start limit : Time) : Prop :=
  ∀ now, start ≤ now → now < limit →
    (∃ next, compactHead now head = .ok next ∧ encodeHead codec next = .ok ()) ∧ ∀ id, OutcomeKept now head id = true

/-- From `now` on, `next` is read as `head`. -/
structure ReadsAs (head next : DomainHead) (now : Time) : Prop where
  state : SameState head next
  outcomes : ∀ id, SameOutcome now head next id
  window : next.deltas = head.deltas ∨ next.deltas = []

theorem ReadsAs.refl (head : DomainHead) (now : Time) : ReadsAs head head now :=
  ⟨⟨rfl, fun _ => rfl, fun _ _ _ => rfl⟩, fun _ _ _ => rfl, .inl rfl⟩

variable {next : DomainHead}

theorem ReadsAs.later {head : DomainHead} {now now' : Time} (h : ReadsAs head next now) (hle : now ≤ now') :
    ReadsAs head next now' :=
  ⟨h.state, fun id t ht => h.outcomes id t (hle.trans ht), h.window⟩

/-- The error of `compactSnapshot` on a frozen head. -/
def frozenError : Error := newError .unavailable "consistency domain is frozen"

variable {codec : Codec} {ref : DomainRef} {head : DomainHead}

abbrev Succeeds {β : Type} (limit : Time) (φ : Bucket → β → Prop) (a : Action β) (s : Bucket) : Prop :=
  Works (EndsBefore limit) (fun _ _ _ => True) φ a s

theorem StoredAt.valid (h : StoredAt codec ref head s) : validateDomainHead codec.encodesHead head = .ok () := by
  have hdecodes := h.decodes
  unfold decodeHead at hdecodes
  split at hdecodes
  · cases hdecodes
  · rwa [if_pos h.registered] at hdecodes

theorem StoredAt.later {t : Bucket} (h : StoredAt codec ref head s) (hcells : t.cells = s.cells)
    (hle : s.clock ≤ t.clock) :
    StoredAt codec ref head t :=
  ⟨h.named, fun h0 => h.clock (Nat.le_zero.mp (h0 ▸ hle)), hcells ▸ h.current, h.decodes, h.registered⟩

def snapshotOf (s : Bucket) (ref : DomainRef) (head : DomainHead) : HeadSnapshot :=
  { head, version := (s.cells (.head ref)).current.map (·.1) }

theorem StoredAt.snapshot_exists (h : StoredAt codec ref head s) : (snapshotOf s ref head).exists = true := by
  obtain ⟨version, hcurrent⟩ := h.current
  unfold snapshotOf HeadSnapshot.exists
  rw [hcurrent]
  rfl

theorem succeeds_loadHead (h : StoredAt codec ref head s) (hs : EndsBefore limit s) :
    Succeeds limit (fun t r => StoredAt codec ref head t ∧ r = snapshotOf t ref head) (loadHead codec ref) s := by
  obtain ⟨version, hcurrent⟩ := h.current
  refine Works.except_bind (y := ()) (by simp [validateConsistencyDomainRef, rejectIf, h.named]) ?_
  refine Works.bind hs (Works.getObject hs) fun t r hle _ hr => ?_
  obtain ⟨hcells, rfl, _⟩ := hr
  rw [hcurrent]
  refine except_bind h.decodes ?_
  refine pure ⟨h.later hcells hle.clock, ?_⟩
  unfold snapshotOf
  rw [hcells, hcurrent]
  rfl

/-! ## Folding -/

theorem decodeHead_of_registered (h : decodeHead codec ref head = .ok ())
    (hid : next.domainID = head.domainID) (hkind : next.kind = head.kind) (hreg : next.registered = true)
    (hencode : encodeHead codec next = .ok ()) : decodeHead codec ref next = .ok () := by
  unfold decodeHead at h ⊢
  split at h
  · cases h
  · rename_i hbound
    rw [hid, hkind, if_neg hbound, if_pos hreg]
    exact hencode

theorem succeeds_preparation (hs : EndsBefore limit s) {session : Session} (hprepared : session.preparedAt ≠ 0)
    (hdeadline : limit ≤ session.retainUntil) :
    Succeeds limit (fun t r => t.cells = s.cells ∧ r.1 = session.preparedAt) (session.preparation 0) s := by
  have hretain : session.retainUntil ≠ 0 := fun h0 => by
    rw [h0] at hdeadline
    exact absurd hs (Nat.not_lt.mpr (hdeadline.trans (Nat.zero_le _)))
  refine except_bind (y := ()) (by simp [rejectIf, hprepared, hretain]) ?_
  refine Works.except_bind (y := ()) rfl ?_
  refine Works.bind hs Works.clockNow fun t now _ hIt hnow => ?_
  obtain ⟨hcells, rfl⟩ := hnow
  refine Works.except_bind (y := ()) ?_ (Works.pure ⟨hcells, rfl⟩)
  rw [rejectIf_eq_ok_iff]
  exact decide_eq_false (not_le.mpr (hIt.trans_le hdeadline))

theorem succeeds_bindPreparedMutation (h : s.clock ≠ 0) (hs : EndsBefore limit s)
    (hsoon : limit ≤ s.clock + terminalOperationRetention) :
    Succeeds limit (fun t session => t.cells = s.cells ∧ session.preparedAt = t.clock ∧ session.preparedAt ≠ 0 ∧
      limit ≤ session.retainUntil) (bindPreparedMutation 0) s := by
  refine Works.bind hs Works.clockNow fun t now hle hIt hnow => ?_
  obtain ⟨hcells, rfl⟩ := hnow
  refine Works.except_bind (y := ()) ?_ (Works.pure ⟨hcells, rfl, ?_, ?_⟩)
  · rw [rejectIf_eq_ok_iff, if_pos rfl]
    exact decide_eq_false (Nat.not_le.mpr (Nat.lt_add_of_pos_right (by decide)))
  · exact fun h0 => h (Nat.le_zero.mp (h0 ▸ hle.clock))
  · rw [if_pos rfl]
    exact hsoon.trans (Nat.add_le_add_right hle.clock _)

/-- The fold of a full window that is not frozen is stored. -/
theorem succeeds_compactSnapshot (h : StoredAt codec ref head s) (hs : EndsBefore limit s)
    (hsoon : limit ≤ s.clock + terminalOperationRetention) (hfull : FullWindow head) (hthawed : head.frozen = false)
    (hfold : Foldable codec head s.clock limit) :
    Succeeds limit (fun t _ => ∃ next, ReadsAs head next t.clock ∧ StoredAt codec ref next t ∧ next.deltas = [])
      (compactSnapshot codec ref (snapshotOf s ref head)) s := by
  obtain ⟨version, hcurrent⟩ := h.current
  have hdeltas : head.deltas.isEmpty = false := by
    cases hd : head.deltas with
    | nil => simp [FullWindow, hd, consistencyDomainDeltaWindow] at hfull
    | cons d rest => rfl
  unfold compactSnapshot snapshotOf
  rw [hcurrent]
  refine except_bind (y := ()) (by rw [rejectIf_eq_ok_iff]; exact hthawed) ?_
  dsimp only [Option.map_some]
  rw [if_neg (by simp [hdeltas])]
  refine bind hs (succeeds_bindPreparedMutation h.clock hs hsoon) fun s₁ session hle₁ hs₁ hsession => ?_
  obtain ⟨hcells₁, hnow, hprepared, hdeadline⟩ := hsession
  refine bind hs₁ (succeeds_preparation hs₁ hprepared hdeadline) fun s₂ binding hle₂ hs₂ hbinding => ?_
  obtain ⟨hcells₂, hbound⟩ := hbinding
  have hnow' : binding.1 = s₁.clock := hbound.trans hnow
  obtain ⟨⟨next, hnext, hencode⟩, hkept⟩ := hfold binding.1 (hnow' ▸ hle₁.clock) (hnow' ▸ hs₁)
  refine except_bind hnext (except_bind hencode ?_)
  refine bind hs₂ (succeeds_preparation hs₂ hprepared hdeadline) fun s₃ _ hle₃ hs₃ hcells₃ => ?_
  have hcells : s₃.cells = s.cells := hcells₃.1.trans (hcells₂.trans hcells₁)
  refine Works.bind hs₃ (Works.putObject hs₃ ?_) fun t _ hle _ ht => Works.pure ⟨next, ?_, ?_, ?_⟩
  · rw [hcells, Conc.Cell.refuses, hcurrent]
    simp
  · have hsorted := sortedDeltas_of_valid h.valid
    have hoften := ((compaction_outcomes hnext).mpr (hkept ·))
    have hlater : binding.1 ≤ t.clock := hnow' ▸ (hle₂.clock.trans (hle₃.clock.trans hle.clock))
    refine ReadsAs.later ⟨sameState_compactHead hsorted hnext, hoften, .inr ?_⟩ hlater
    obtain ⟨outcomes, expiry, -, rfl⟩ := compactHead_ok hnext
    rfl
  · obtain ⟨u, hu, rfl, -⟩ := ht
    have hle' : s.clock ≤ _ := hle₁.clock.trans (hle₂.clock.trans (hle₃.clock.trans hle.clock))
    refine ⟨h.named, fun h0 => h.clock (Nat.le_zero.mp (h0 ▸ hle')), ⟨u.counter + 1, ?_⟩, ?_, ?_⟩
    · rw [Store.write_cells_self]
    · obtain ⟨outcomes, expiry, -, rfl⟩ := compactHead_ok hnext
      exact decodeHead_of_registered h.decodes rfl rfl h.registered hencode
    · obtain ⟨outcomes, expiry, -, rfl⟩ := compactHead_ok hnext
      exact h.registered
  · obtain ⟨outcomes, expiry, -, rfl⟩ := compactHead_ok hnext
    rfl

theorem fails_compactSnapshot {snapshot : HeadSnapshot} (hfrozen : snapshot.head.frozen = true) :
    Fails (EndsBefore limit) (fun _ _ _ => True) frozenError (compactSnapshot codec ref snapshot) s :=
  Fails.except_bind (by rw [hfrozen]; rfl)

/-! ## The loops -/

variable {fuel : Nat}

theorem succeeds_viewHead (h : StoredAt codec ref head s) (hs : EndsBefore limit s)
    (hsoon : limit ≤ s.clock + terminalOperationRetention)
    (hfold : FullWindow head → head.frozen = false ∧ Foldable codec head s.clock limit) :
    Succeeds limit (fun t r => ReadsAs head r.head t.clock) (viewHead codec ref (fuel + 2)) s := by
  refine bind hs (succeeds_loadHead h hs) fun t snapshot hle ht hsnapshot => ?_
  obtain ⟨hstored, rfl⟩ := hsnapshot
  split
  · rename_i hfull
    simp only [Bool.and_eq_true, decide_eq_true_eq] at hfull
    obtain ⟨hthawed, hfold⟩ := hfold hfull.2
    refine bind ht (attempt_ok ht (succeeds_compactSnapshot hstored ht
      (hsoon.trans (Nat.add_le_add_right hle.clock _)) hfull.2 hthawed fun now hnow =>
        hfold now (hle.clock.trans hnow))) ?_
    rintro u _ hle' hu ⟨x, rfl, next, hreads, hstored', hempty⟩
    refine except_bind (y := ()) rfl ?_
    -- the window is empty now
    refine bind hu (succeeds_loadHead hstored' hu) fun v again hle'' hv hagain => ?_
    obtain ⟨hstored'', rfl⟩ := hagain
    rw [if_neg (by simp [snapshotOf, hempty, consistencyDomainDeltaWindow])]
    exact pure (hreads.later hle''.clock)
  · exact pure (ReadsAs.refl head _)

theorem fails_viewHead (h : StoredAt codec ref head s) (hs : EndsBefore limit s) (hfull : FullWindow head)
    (hfrozen : head.frozen = true) :
    Fails (EndsBefore limit) (fun _ _ _ => True) frozenError (viewHead codec ref (fuel + 1)) s := by
  refine Ends.bind hs (succeeds_loadHead h hs) fun t snapshot hle ht hsnapshot => ?_
  obtain ⟨hstored, rfl⟩ := hsnapshot
  rw [if_pos (by rw [hstored.snapshot_exists, show (snapshotOf t ref head).head.registered = true from h.registered]
                 exact decide_eq_true hfull)]
  refine Ends.bind ht (Works.attempt (fails_compactSnapshot hfrozen)) fun u r _ _ hr => ?_
  subst hr
  exact Fails.except_bind rfl

theorem succeeds_preflightLoop (h : StoredAt codec ref head s) (hs : EndsBefore limit s)
    (hsoon : limit ≤ s.clock + terminalOperationRetention)
    (hfold : FullWindow head → head.frozen = false ∧ Foldable codec head s.clock limit) :
    Succeeds limit (fun t r => ReadsAs head r.head t.clock ∧ r.exists = true ∧ r.head.registered = true)
      (preflightLoop codec ref (fuel + 2) (snapshotOf s ref head)) s := by
  unfold preflightLoop
  split
  · rename_i hfull
    simp only [Bool.and_eq_true, decide_eq_true_eq] at hfull
    obtain ⟨hthawed, hfold⟩ := hfold hfull.2
    refine bind hs (attempt_ok hs (succeeds_compactSnapshot h hs hsoon hfull.2 hthawed hfold)) ?_
    rintro u _ hle' hu ⟨x, rfl, next, hreads, hstored', hempty⟩
    refine except_bind (y := ()) rfl ?_
    refine bind hu (succeeds_loadHead hstored' hu) fun v again hle'' hv hagain => ?_
    obtain ⟨hstored'', rfl⟩ := hagain
    unfold preflightLoop
    rw [if_neg (by simp [snapshotOf, hempty, consistencyDomainDeltaWindow])]
    exact pure ⟨hreads.later hle''.clock, hstored''.snapshot_exists, hstored''.registered⟩
  · exact pure ⟨ReadsAs.refl head _, h.snapshot_exists, h.registered⟩

/-! ## What the head denotes -/

def valuesOf (head : DomainHead) (key : String) : Option Bytes := (lookupAtHead head key).map fun v => v.data

variable {format}

theorem viewAtHead_of_readsAs {head : DomainHead} {now : Time} (h : ReadsAs head next now)
    (hwindow : checkWindow format (windowEdits head.deltas) = .ok ()) :
    viewAtHead format next = viewOf format (valuesOf head) := by
  have hnext : checkWindow format (windowEdits next.deltas) = .ok () := by
    rcases h.window with hsame | hempty
    · rwa [hsame]
    · rw [hempty]
      rfl
  have hvalues : (fun key => (lookupAtHead next key).map fun v => v.data) = valuesOf head := by
    funext key
    have hkey := congrArg (Option.map Prod.fst) (h.state.values key)
    simpa [Option.map_map, Function.comp_def, valuesOf] using hkey
  unfold viewAtHead
  rw [hnext, hvalues]
  rfl

variable {values : String → Option Bytes}

theorem rootAt_error {area : Area} (h : rootAt format values area = .error e) :
    e = newError .invalid "invalid namespace root" := by
  unfold rootAt at h
  split at h
  · cases h
  · split at h
    · cases h
      rfl
    · split at h
      · cases h
      · cases h
        rfl

theorem viewOf_error (h : viewOf format values = .error e) : e = newError .invalid "invalid namespace root" := by
  unfold viewOf at h
  cases hlive : rootAt format values .areaLive with
  | error e' =>
    rw [hlive] at h
    cases h
    exact rootAt_error hlive
  | ok live =>
    rw [hlive] at h
    cases htrash : rootAt format values .areaTrash with
    | error e' =>
      rw [htrash] at h
      cases h
      exact rootAt_error htrash
    | ok trash =>
      rw [htrash] at h
      cases h

/-! ## Answers -/

def Intends (codec : Codec) (m : Mutation) (fingerprint : String) : Prop :=
  ∀ deadline, (m.retainUntil ≠ 0 → deadline = m.retainUntil) →
    ∃ n, normalizeMutation codec { m with retainUntil := deadline } = .ok (n, fingerprint)

/-- During the call the head answers the ID with `answer`. -/
def Retains (head : DomainHead) (start limit : Time) (id : String) (answer : Option Outcome) : Prop :=
  ∀ t, start ≤ t → t < limit → lookupOutcomeAtHead t head id = .ok answer

/-- Reads are answered from the map that the head denotes, and mutations it retains an outcome of are replayed. -/
structure Answered (format : NamespaceFormat Operation) (codec : Codec) (fuel : Nat) (ref : DomainRef)
    (head : DomainHead) (limit : Time) (s : Bucket) : Prop where
  reads : ∀ {α : Type} (read : NamespaceView → Except Error α),
    Answers limit s (readNamespace format codec fuel ref read) (viewOf format (valuesOf head) >>= read)
  operations : ∀ id answer, Retains head s.clock limit id answer →
    Answers limit s (getOperation format codec fuel ref id) (viewOf format (valuesOf head) >>= fun _ =>
      operationIn format answer)
  replays : ∀ m fingerprint outcome, Intends codec m fingerprint → Retains head s.clock limit m.id (some outcome) →
    outcome.fingerprint = fingerprint → Answers limit s (mutate codec fuel ref m)
      (.ok { outcome with replayed := true })

theorem Ends.result {I : Bucket → Prop} {ok : OpPolicy} {x y : Except Error β} (h : x = y) :
    Ends I ok (fun _ r => r = y) (liftM x : Action β) s := h

theorem succeeds_bindRetention (hs : EndsBefore limit s) (m : Mutation) : Succeeds limit (fun t n => t.cells = s.cells ∧
      ∃ deadline, (m.retainUntil ≠ 0 → deadline = m.retainUntil) ∧ n = { m with retainUntil := deadline })
      (bindRetention m none) s := by
  unfold bindRetention
  dsimp only
  split
  · rename_i hzero
    refine Works.bind hs Works.clockNow fun t now _ _ hnow => Works.pure ⟨hnow.1, _, fun h => absurd hzero h, rfl⟩
  · exact Works.pure ⟨rfl, m.retainUntil, fun _ => rfl, rfl⟩

theorem succeeds_lookup {id : String} {answer : Option Outcome} (hs : EndsBefore limit s)
    (hreads : ReadsAs head next s.clock) (hrecords : Retains head s.clock limit id answer) :
    Succeeds limit (fun _ found => found = answer) (lookupOutcome next id) s := by
  refine Works.bind hs Works.clockNow fun t now hle ht hnow => ?_
  obtain ⟨-, rfl⟩ := hnow
  refine Works.except ((hreads.outcomes id t.clock hle.clock).trans (hrecords t.clock hle.clock ht)) rfl

theorem answered_of_readable (h : StoredAt codec ref head s) (hs : EndsBefore limit s)
    (hsoon : limit ≤ s.clock + terminalOperationRetention)
    (hwindow : checkWindow format (windowEdits head.deltas) = .ok ())
    (hfold : FullWindow head → head.frozen = false ∧ Foldable codec head s.clock limit) (fuel : Nat) :
    Answered format codec (fuel + 2) ref head limit s where
  reads read := by
    refine answers_of_ends hs ?_
    refine Ends.bind hs (succeeds_viewHead h hs hsoon hfold) fun t snapshot _ _ hreads => ?_
    rw [viewAtHead_of_readsAs hreads hwindow]
    cases viewOf format (valuesOf head) with
    | error e => exact Fails.except_bind rfl
    | ok view => exact Ends.except_bind rfl (Ends.result rfl)
  operations id answer hrecords := by
    refine answers_of_ends hs ?_
    refine Ends.bind hs (succeeds_viewHead h hs hsoon hfold) fun t snapshot hle ht hreads => ?_
    rw [viewAtHead_of_readsAs hreads hwindow]
    cases viewOf format (valuesOf head) with
    | error e => exact Fails.except_bind rfl
    | ok view =>
      refine Ends.except_bind rfl ?_
      refine Ends.bind ht (succeeds_lookup ht hreads fun u hu hu' => hrecords u (hle.clock.trans hu) hu')
        fun u found _ _ hfound => ?_
      subst hfound
      exact Ends.result rfl
  replays m fingerprint outcome hintends hrecords hfingerprint := by
    refine answers_of_ends hs ?_
    refine Ends.except_bind (y := ()) (by simp [validateConsistencyDomainRef, rejectIf, h.named]) ?_
    refine Ends.bind hs (succeeds_bindRetention hs m) fun s₁ bound hle₁ hs₁ hbound => ?_
    obtain ⟨hcells, deadline, hdeadline, rfl⟩ := hbound
    obtain ⟨n, hn⟩ := hintends deadline hdeadline
    refine Ends.except_bind hn ?_
    have h₁ := h.later hcells hle₁.clock
    refine Ends.bind hs₁ (succeeds_loadHead h₁ hs₁) fun s₂ loaded hle₂ hs₂ hloaded => ?_
    obtain ⟨h₂, rfl⟩ := hloaded
    have hle := hle₁.clock.trans hle₂.clock
    refine Ends.bind hs₂ (succeeds_preflightLoop h₂ hs₂ (hsoon.trans (Nat.add_le_add_right hle _)) fun hfull =>
      ⟨(hfold hfull).1, fun now hnow => (hfold hfull).2 now (hle.trans hnow)⟩) fun s₃ preflight hle₃ hs₃ hpreflight =>
        ?_
    obtain ⟨hreads, hexists, hregistered⟩ := hpreflight
    rw [if_neg (by simp [hexists, hregistered])]
    refine Ends.bind hs₃ (pure (φ := fun t r => t = s₃ ∧ r = preflight) ⟨rfl, rfl⟩) fun t snapshot _ _ hsame => ?_
    obtain ⟨rfl, rfl⟩ := hsame
    have hid : n.id = m.id := by rw [(normalizeMutation_ok hn).1]
    rw [hid]
    refine Ends.bind hs₃ (succeeds_lookup hs₃ hreads fun u hu hu' => hrecords u (hle.trans (hle₃.clock.trans hu)) hu')
      fun u found _ _ hfound => ?_
    subst hfound
    exact Ends.result (by simp [replayOutcome, hfingerprint])

theorem not_answered_of_frozen (h : StoredAt codec ref head s) (hs : EndsBefore limit s) (hfull : FullWindow head)
    (hfrozen : head.frozen = true) (fuel : Nat) : ¬ Answered format codec (fuel + 1) ref head limit s := by
  intro hanswered
  have hfails : Answers limit s (readNamespace format codec (fuel + 1) ref fun _ => .ok ()) (.error frozenError) :=
    answers_of_ends hs (Fails.bind hs (fails_viewHead h hs hfull hfrozen))
  have heq := (hanswered.reads fun _ => .ok ()).unique hs hfails
  cases hview : viewOf format (valuesOf head) with
  | ok view =>
    rw [hview] at heq
    cases heq
  | error e =>
    rw [hview] at heq
    cases heq
    exact absurd (viewOf_error hview) (by decide)

/-- For every stored registered head, frozen or not, with any number of deltas: where a full window that is not frozen
can be folded without losing outcomes, all reads are answered from the map the head denotes and all retained mutations
are replayed, exactly if the head is not frozen with a full window. -/
theorem reads_answered_iff (format : NamespaceFormat Operation) {codec : Codec} {ref : DomainRef} {head : DomainHead}
    {s : Bucket} {limit : Time} (h : StoredAt codec ref head s) (hs : s.clock < limit)
    (hsoon : limit ≤ s.clock + terminalOperationRetention)
    (hwindow : checkWindow format (windowEdits head.deltas) = .ok ())
    (hfold : FullWindow head → head.frozen = false → Foldable codec head s.clock limit) (fuel : Nat) :
    Answered format codec (fuel + 2) ref head limit s ↔ ¬ (head.frozen = true ∧ FullWindow head) := by
  refine ⟨fun hanswered hbad => not_answered_of_frozen h hs hbad.2 hbad.1 (fuel + 1) hanswered, fun hgood => ?_⟩
  refine answered_of_readable h hs hsoon hwindow (fun hfull => ?_) fuel
  have hthawed : head.frozen = false := by
    rw [← Bool.not_eq_true]
    exact fun hfrozen => hgood ⟨hfrozen, hfull⟩
  exact ⟨hthawed, hfold hfull hthawed⟩

/-! ## A frozen head -/

namespace Racing

def blank : NamespaceFormat Unit where
  decodeNamespaceEntry _ := .error (newError .invalid "invalid namespace entry")
  decodeResult _ := some (some ())

/-- A frozen head after `n` mutations. -/
def frozenHead (n : Nat) : DomainHead :=
  { (List.range n).foldl (fun head i => appendDelta short head (numbered i) "f") (emptyHead racingRef) with
    registered := true, frozen := true, freezeEpoch := 1 }

def frozenBucket (n : Nat) : Bucket := (Store.empty.advance 1).write (.freezeHead 1) (.head racingRef) (frozenHead n)

theorem frozenHead_stored {n : Nat} (h : decodeHead short racingRef (frozenHead n) = .ok ()) :
    StoredAt short racingRef (frozenHead n) (frozenBucket n) :=
  ⟨by decide, Nat.one_ne_zero, ⟨1, by rw [frozenBucket, Store.write_cells_self]; rfl⟩, h, rfl⟩

/-- The head with a full window, before it is frozen. -/
def fullHead : DomainHead := { frozenHead 32 with frozen := false, freezeEpoch := 0 }

def fullBucket : Bucket := (Store.empty.advance 1).write (.publish (numbered 31)) (.head racingRef) fullHead

theorem fullHead_foldable : Foldable short fullHead 1 10 := by
  intro now _ hnow
  have hfolds : ∀ now < 10, (compactHead now fullHead >>= encodeHead short) = .ok () := by decide +kernel
  obtain ⟨next, hnext, hencode⟩ := Except.bind_ok (hfolds now hnow)
  refine ⟨⟨next, hnext, hencode⟩, fun id => ?_⟩
  -- all deltas are retained equally long, and no outcomes are stored
  have hretained : ∀ d ∈ fullHead.deltas, d.retainUntil = 100 := by decide +kernel
  have hstored : fullHead.outcomes.entries = [] ∧ fullHead.outcomeExpiry.entries = [] := by decide +kernel
  have hexpired : ∀ t, storedExpired fullHead id t = true := fun t => by
    simp [storedExpired, SortedMap.get, hstored.1]
  unfold OutcomeKept
  split
  · rename_i d hd
    have hmem := List.mem_reverse.mp (List.mem_of_find?_eq_some hd)
    rw [hexpired, Bool.and_true, List.all_eq_true]
    intro d' hd'
    rw [hretained d hmem, hretained d' hd']
    simp
  · simp [consumed, hstored.2]

end Racing

open Racing in
/-- With one delta the frozen head is read, and with thirty-two one that is not frozen. -/
theorem Racing.frozen_answered : Answered blank short 2 racingRef (frozenHead 1) 10 (frozenBucket 1) ∧
    FullWindow fullHead ∧ Answered blank short 2 racingRef fullHead 10 fullBucket := by
  have hshort : ¬ FullWindow (frozenHead 1) := by unfold FullWindow; decide +kernel
  refine ⟨?_, by unfold FullWindow; decide +kernel, ?_⟩
  · exact (reads_answered_iff blank (frozenHead_stored (by decide +kernel)) (by decide) (by decide +kernel)
      (by decide +kernel)
      (fun hfull => absurd hfull hshort) 0).mpr fun hbad => hshort hbad.2
  · have hstored : StoredAt short racingRef fullHead fullBucket :=
      ⟨by decide, Nat.one_ne_zero, ⟨1, by rw [fullBucket, Store.write_cells_self]; rfl⟩, by decide +kernel, rfl⟩
    exact (reads_answered_iff blank hstored (by decide) (by decide +kernel) (by decide +kernel)
      (fun _ _ => fullHead_foldable) 0).mpr fun hbad => by cases hbad.1

open Racing in
/-- With thirty-two deltas nothing is read, and the mutation that the head records is not replayed. -/
theorem Racing.frozen_unavailable : decodeHead short racingRef (frozenHead 32) = .ok () ∧
    lookupOutcomeAtHead 1 (frozenHead 32) "A" = .ok (some (publishedOutcome (numbered 0) "f" 1)) ∧
    (Conc.Prog.alone (M := bucketMachine) .none (mutate short 2 racingRef (numbered 0)).run (fun _ => 0)
      (frozenBucket 32)).2
      = .error (newError .unavailable "consistency domain is frozen") ∧
    (Conc.Prog.alone (M := bucketMachine) .none (readNamespace blank short 2 racingRef fun _ => .ok ()).run (fun _ => 0)
      (frozenBucket 32)).2 = .error (newError .unavailable "consistency domain is frozen") ∧
    (Conc.Prog.alone (M := bucketMachine) .none (getOperation blank short 2 racingRef "A").run (fun _ => 0)
      (frozenBucket 32)).2 = .error (newError .unavailable "consistency domain is frozen") := by
  decide +kernel

end EndlessFS
