import Mathlib.Tactic.DeriveEncodable
import Mathlib.Data.List.Dedup
import Mathlib.Logic.Equiv.List
import EndlessFS.Transition.Locks

/-!
# EndlessFS.Transition.Versions

The versions that a transaction across domains reports.

* `transitionPlan`: the plan of a state mutation (`Transact`, `transitionPlan009`).
* `transitionOutcome`: the versions as they are computed once more for the caller. The removal of the lock is
  reconstructed without the version that the finalization expects, and the fingerprint covers it.
* `Finalized`: what the finalization of a participant stores.
* `versions_reported_iff`: the reported versions are the stored ones only if nothing is written.
-/

namespace EndlessFS

open Except List TransitionPlan

/-! ## From a state mutation to its plan -/

/-- Where the values of state keys are stored, and how. -/
structure StateRouting where
  reference : String → DomainRef
  encodeStateValue : String → Bytes → Bytes
  intent : List Change → String → String
  digest : String → String

/-- The checks of `state.NormalizeMutation` on the sorted changes. -/
def checkStateChanges : String → List Change → Except Error Unit
  | _, [] => .ok ()
  | previous, change :: rest => do
    rejectIf (change.key = previous) (newError .invalid "atomic state mutation contains a duplicate key")
    rejectIf (change.require ≠ .present && change.expectedVersion ≠ "")
      (newError .invalid "atomic state version requires a present precondition")
    rejectIf (change.delete && (change.require ≠ .present || change.value ≠ .nil))
      (newError .invalid "invalid atomic state deletion")
    checkStateChanges change.key rest

/-- `state.NormalizeMutation`. -/
def normalizeStateMutation (mutation : Mutation) : Except Error Mutation := do
  rejectIf (mutation.id = "" || mutation.changes.isEmpty) (newError .invalid "invalid atomic state mutation")
  let changes := sortChanges mutation.changes
  checkStateChanges "" changes
  pure { mutation with changes := changes }

section

variable (routing : StateRouting)

/-- `encodeStateValue009` on every change that writes. -/
def wrapChange (change : Change) : Change :=
  if change.delete then change else { change with value := routing.encodeStateValue change.key change.value }

def participantOf (changes : List Change) (ref : DomainRef) : TransitionParticipant where
  kind := ref.kind
  domainID := ref.id
  changes := sortChanges (changes.filter fun change => routing.reference change.key = ref)

/-- `transitionPlan009` at the time `now`. -/
def transitionPlan (now : Time) (wrapped : Mutation) : Except Error TransitionPlan := do
  let references := (wrapped.changes.map fun change => routing.reference change.key).dedup
  rejectIf (references.length < 2) (newError .invalid "transition does not span consistency domains")
  let plan : TransitionPlan :=
    { transitionID := wrapped.id, fingerprint := routing.digest (routing.intent wrapped.changes wrapped.result)
      retainUntil := if wrapped.retainUntil = 0 then now + terminalOperationRetention else wrapped.retainUntil
      participants := (references.map (participantOf routing wrapped.changes)).insertionSort fun a b =>
        a.ordering ≤ b.ordering
      result := wrapped.result }
  validateTransitionPlan plan
  pure plan

/-- The plan of `Transact`. -/
def transactionPlan (now : Time) (mutation : Mutation) : Except Error (Mutation × TransitionPlan) := do
  let normalized ← normalizeStateMutation mutation
  let wrapped ← normalizeStateMutation { normalized with changes := normalized.changes.map (wrapChange routing) }
  let plan ← transitionPlan routing now wrapped
  pure (normalized, plan)

end

/-! ## The reported versions -/

/-- The versions of one participant in `transitionOutcome009`. -/
def reportedVersions (codec : Codec) (plan : TransitionPlan) (participant : TransitionParticipant) :
    Except Error (List (String × String)) := do
  let canonical ← normalizeMutation codec
    { id := plan.transitionID, retainUntil := plan.retainUntil, changes := participant.changes ++ [lockRemoval ""]
      result := plan.result }
  pure ((canonical.1.changes.filter fun change => change.key ≠ transitionLockKey && !change.delete).map fun change =>
    (change.key, logicalVersion codec plan.transitionID canonical.2 change))

/-- `transitionOutcome009`: each key of the mutation with its version, empty if none was computed. A later
participant's version of a key replaces an earlier one's. -/
def transitionOutcome (codec : Codec) (normalized : Mutation) (plan : TransitionPlan) :
    Except Error (List (String × String)) := do
  let versions ← plan.participants.mapM (reportedVersions codec plan)
  pure (normalized.changes.map fun change => (change.key, (versions.flatten.reverse.lookup change.key).getD ""))

/-! ## The stored versions -/

/-- The version under which `prepareTransitionParticipant009` stores the lock. -/
def Prepared (codec : Codec) (plan : TransitionPlan) (ref : DomainRef) (version : String) : Prop :=
  ∃ m fingerprint, normalizeMutation codec (plan.prepareMutation codec ref) = .ok (m, fingerprint) ∧
    version = codec.version m.id fingerprint transitionLockKey (.lock (plan.lock ref))

/-- A head that `finalizeTransitionParticipant009` publishes for a committed participant. -/
def Finalized (codec : Codec) (plan : TransitionPlan) (participant : TransitionParticipant) (published : DomainHead) :
    Prop :=
  ∃ version m fingerprint head, Prepared codec plan participant.ref version ∧
    normalizeMutation codec (plan.finalMutation codec participant true version) = .ok (m, fingerprint) ∧
    published = appendDelta codec head m fingerprint

structure Codec.Digests (codec : Codec) : Prop where
  fingerprint : ∀ {c c' r r'}, codec.fingerprint c r = codec.fingerprint c' r' → c = c' ∧ r = r'
  version : ∀ {i i' f f' k k' v v'}, codec.version i f k v = codec.version i' f' k' v' → f = f'
  nonempty : ∀ {i f k v}, codec.version i f k v ≠ ""

section

variable {codec : Codec} {plan : TransitionPlan} {participant : TransitionParticipant} {published : DomainHead}

theorem Finalized.stored (hdigests : codec.Digests) (h : Finalized codec plan participant published) {change : Change}
    (hchange : change ∈ participant.changes) (hwrites : change.delete = false) {value : DomainValue}
    (hvalue : lookupAtHead published change.key = some value) :
    ∃ version, version ≠ "" ∧ value.logicalVersion = codec.version plan.transitionID
      (codec.fingerprint (sortChanges (lockRemoval version :: participant.changes)) plan.result) change.key
        change.value := by
  obtain ⟨version, m, fingerprint, head, ⟨_, _, _, hversion⟩, hnormal, rfl⟩ := h
  obtain ⟨hm, hsorted, rfl⟩ := normalizeMutation_ok hnormal
  have hmem : change ∈ m.changes := by
    rw [hm]
    exact (perm_insertionSort _ _).mem_iff.mpr (.tail _ hchange)
  have hfind : m.changes.find? (fun c => c.key = change.key) = some change := find_of_sorted hsorted.sorted hmem
  refine ⟨version, hversion ▸ hdigests.nonempty, ?_⟩
  unfold lookupAtHead appendDelta Mutation.delta at hvalue
  simp only [deltaChange_append, find_stored, hfind, Option.map_some, Change.stored, hwrites,
    Bool.false_eq_true, if_false, Option.some.injEq] at hvalue
  rw [← hvalue, hm]
  simp [logicalVersion, hwrites, finalMutation]

theorem planned_change {routing : StateRouting} {now : Time} {mutation normalized : Mutation}
    (hplan : transactionPlan routing now mutation = .ok (normalized, plan)) {change : Change}
    (hchange : change ∈ normalized.changes) (hwrites : change.delete = false) :
    ∃ a ∈ plan.participants, a.ref = routing.reference change.key ∧ ∃ written ∈ a.changes, written.key = change.key ∧
      written.delete = false := by
  obtain ⟨normalized', hnormal, hplan⟩ := bind_ok hplan
  obtain ⟨wrapped, hwrapped, hplan⟩ := bind_ok hplan
  obtain ⟨plan', hplan', hplan⟩ := bind_ok hplan
  cases hplan
  have hmem : wrapChange routing change ∈ wrapped.changes := by
    obtain ⟨_, _, hwrapped⟩ := bind_ok hwrapped
    obtain ⟨_, _, hwrapped⟩ := bind_ok hwrapped
    cases hwrapped
    exact (perm_insertionSort _ _).mem_iff.mpr (mem_map_of_mem hchange)
  have hkey : (wrapChange routing change).key = change.key := by simp [wrapChange, hwrites]
  have hdelete : (wrapChange routing change).delete = false := by simp [wrapChange, hwrites]
  obtain ⟨_, _, hplan'⟩ := bind_ok hplan'
  obtain ⟨_, _, hplan'⟩ := bind_ok hplan'
  cases hplan'
  refine ⟨participantOf routing wrapped.changes (routing.reference change.key), ?_, rfl, wrapChange routing change, ?_,
    hkey, hdelete⟩
  · refine (perm_insertionSort _ _).mem_iff.mpr (mem_map_of_mem ?_)
    rw [mem_dedup]
    exact mem_map.mpr ⟨_, hmem, by rw [hkey]⟩
  · refine (perm_insertionSort _ _).mem_iff.mpr (mem_filter.mpr ⟨hmem, ?_⟩)
    simp [hkey]

/-- Every version that is reported, with the changes it was computed from. -/
theorem reported_of_mem {normalized : Mutation} {reported : List (String × String)} {key version : String}
    (h : transitionOutcome codec normalized plan = .ok reported) (hmem : (key, version) ∈ reported)
    (hne : version ≠ "") :
    ∃ a ∈ plan.participants, ∃ change : Change, SortedChanges (sortChanges (a.changes ++ [lockRemoval ""])) ∧
      version = codec.version plan.transitionID
        (codec.fingerprint (sortChanges (a.changes ++ [lockRemoval ""])) plan.result) change.key change.value := by
  obtain ⟨versions, hversions, h⟩ := bind_ok h
  cases h
  obtain ⟨change, _, hentry⟩ := mem_map.mp hmem
  cases hlookup : versions.flatten.reverse.lookup change.key with
  | none =>
    rw [hlookup] at hentry
    cases hentry
    exact absurd rfl hne
  | some found =>
    rw [hlookup] at hentry
    cases hentry
    obtain ⟨before, after, hsplit, _⟩ := lookup_eq_some_iff.mp hlookup
    have hfound : (change.key, found) ∈ versions.flatten := by
      rw [← mem_reverse, hsplit]
      exact mem_append_right _ (.head _)
    obtain ⟨list, hlist, hfound⟩ := mem_flatten.mp hfound
    obtain ⟨a, ha, hreported⟩ := exists_of_mem_mapM hversions hlist
    obtain ⟨⟨m, fingerprint⟩, hnormal, hreported⟩ := bind_ok hreported
    cases hreported
    obtain ⟨hm, hsorted, rfl⟩ := normalizeMutation_ok hnormal
    obtain ⟨written, hwritten, hentry⟩ := mem_map.mp hfound
    have hwrites : written.delete = false := by
      have hkept := (mem_filter.mp hwritten).2
      simp only [Bool.and_eq_true, Bool.not_eq_true'] at hkept
      exact hkept.2
    have hversion := congrArg Prod.snd hentry
    subst hm
    refine ⟨a, ha, written, hsorted.sorted, ?_⟩
    simpa [logicalVersion, hwrites] using hversion.symm

end

variable {change : Change}

theorem stored_not_reported {codec : Codec} {routing : StateRouting} {now : Time} {mutation normalized : Mutation}
    {plan : TransitionPlan} {reported : List (String × String)} {published : DomainRef → DomainHead}
    (hdigests : codec.Digests) (hplan : transactionPlan routing now mutation = .ok (normalized, plan))
    (hreported : transitionOutcome codec normalized plan = .ok reported)
    (hfinal : ∀ participant ∈ plan.participants, Finalized codec plan participant (published participant.ref))
    (hchange : change ∈ normalized.changes) (hwrites : change.delete = false) {value : DomainValue}
    (hvalue : lookupAtHead (published (routing.reference change.key)) change.key = some value) :
    (change.key, value.logicalVersion) ∉ reported := by
  intro hmem
  obtain ⟨participant, hparticipant, href, written, hwritten, hkey, hwrites⟩ := planned_change hplan hchange hwrites
  rw [← href, ← hkey] at hvalue
  obtain ⟨version, hversion, hstored⟩ := (hfinal participant hparticipant).stored hdigests hwritten hwrites hvalue
  have hne : value.logicalVersion ≠ "" := hstored ▸ hdigests.nonempty
  obtain ⟨a, _, other, hsorted, hother⟩ := reported_of_mem hreported hmem hne
  have hfingerprint := hdigests.version (hstored.symm.trans hother)
  have hchanges := (hdigests.fingerprint hfingerprint).1
  have hremoval : lockRemoval version ∈ sortChanges (a.changes ++ [lockRemoval ""]) := by
    rw [← hchanges]
    exact (perm_insertionSort _ _).mem_iff.mpr (.head _)
  have hempty : lockRemoval "" ∈ sortChanges (a.changes ++ [lockRemoval ""]) :=
    (perm_insertionSort _ _).mem_iff.mpr (mem_append_right _ (.head _))
  have hfirst := find_of_sorted hsorted hremoval
  have hsecond := find_of_sorted hsorted hempty
  rw [show (lockRemoval version).key = (lockRemoval "").key from rfl, hsecond] at hfirst
  exact hversion (congrArg Change.expectedVersion (Option.some.inj hfirst)).symm

def ReportsStored (routing : StateRouting) (normalized : Mutation) (reported : List (String × String))
    (published : DomainRef → DomainHead) : Prop :=
  ∀ change ∈ normalized.changes, change.delete = false → ∃ value,
    lookupAtHead (published (routing.reference change.key)) change.key = some value ∧
      (change.key, value.logicalVersion) ∈ reported

/-- For every mutation across domains: the versions that `Transact` reports are those under which the finalized
participants store the values if and only if the mutation writes no value. -/
theorem versions_reported_iff {codec : Codec} {routing : StateRouting} {now : Time} {mutation normalized : Mutation}
    {plan : TransitionPlan} {reported : List (String × String)} {published : DomainRef → DomainHead}
    (hdigests : codec.Digests) (hplan : transactionPlan routing now mutation = .ok (normalized, plan))
    (hreported : transitionOutcome codec normalized plan = .ok reported)
    (hfinal : ∀ participant ∈ plan.participants, Finalized codec plan participant (published participant.ref)) :
    ReportsStored routing normalized reported published ↔ ∀ change ∈ normalized.changes, change.delete = true := by
  refine ⟨fun h change hchange => ?_, fun h change hchange hwrites => ?_⟩
  · by_contra hdelete
    rw [Bool.not_eq_true] at hdelete
    obtain ⟨value, hvalue, hmem⟩ := h change hchange hdelete
    exact stored_not_reported hdigests hplan hreported hfinal hchange hdelete hvalue hmem
  · rw [h change hchange] at hwrites
    cases hwrites

/-! ## A mutation of two domains -/

namespace Versions

instance encodableChar : Encodable Char := .ofLeftInverse Char.toNat Char.ofNat Char.ofNat_toNat
instance encodableString : Encodable String := .ofLeftInverse String.toList String.ofList fun _ => String.ofList_toList

deriving instance Encodable for DomainKind
deriving instance Encodable for TransitionLock
deriving instance Encodable for UploadState
deriving instance Encodable for UploadRecord
deriving instance Encodable for Bytes
deriving instance Encodable for Requirement
deriving instance Encodable for Change

def tally (n : Nat) : String := String.ofList (List.replicate n '1')

theorem tally_injective {m n : Nat} (h : tally m = tally n) : m = n := by
  have hlength := congrArg (fun s => s.toList.length) h
  simpa [tally] using hlength

def numbered : Codec where
  fingerprint changes result := tally (Encodable.encode (changes, result))
  materializedFingerprint changes result := tally (Encodable.encode (changes, result))
  version id fingerprint key value := tally (Encodable.encode (id, fingerprint, key, value) + 1)
  digest text := text
  encodesMutation _ := true
  encodesHead _ := true

theorem numbered_digests : numbered.Digests where
  fingerprint h := by
    have hpair := Encodable.encode_injective (tally_injective h)
    exact ⟨congrArg Prod.fst hpair, congrArg Prod.snd hpair⟩
  version h := by
    have hpair := Encodable.encode_injective (Nat.succ_injective (tally_injective h))
    exact congrArg (fun t => t.2.1) hpair
  nonempty h := by
    have hlength := congrArg (fun s => s.toList.length) h
    simp [numbered, tally] at hlength

def routing : StateRouting where
  reference key := if key = "a" then { kind := .domainOwnerControl, id := "owner" } else
    { kind := .domainShare, id := "share" }
  encodeStateValue _ value := value
  intent _ _ := "intent"
  digest text := text

def mutation (change : String → Change) : Mutation :=
  { id := "x", retainUntil := 100, changes := [change "a", change "b"], result := "done" }

def write (key : String) : Change := { key, require := .any, value := .raw "1" }

def remove (key : String) : Change := { key, require := .present, delete := true }

def ownerPart (change : String → Change) : TransitionParticipant :=
  { kind := .domainOwnerControl, domainID := "owner", changes := [change "a"] }

def sharePart (change : String → Change) : TransitionParticipant :=
  { kind := .domainShare, domainID := "share", changes := [change "b"] }

def plan (change : String → Change) : TransitionPlan :=
  { transitionID := "x", fingerprint := "intent", retainUntil := 100, result := "done"
    participants := [ownerPart change, sharePart change] }

theorem plan_write : transactionPlan routing 1 (mutation write) = .ok (mutation write, plan write) := by decide +kernel

theorem plan_remove : transactionPlan routing 1 (mutation remove) = .ok (mutation remove, plan remove) := by
  decide +kernel

theorem normalizes {m : Mutation} {changes : List Change} (hid : m.id ≠ "") (hnonempty : m.changes ≠ [])
    (hsort : sortChanges m.changes = changes) (hcheck : checkChanges "invalid consistency-domain change" "" changes =
      .ok ()) :
    normalizeMutation numbered m = .ok ({ m with changes }, numbered.fingerprint changes m.result) := by
  simp [normalizeMutation, hid, hnonempty, hsort, hcheck, numbered, bind, Except.bind, pure, Except.pure]

structure Follows (change : Change) : Prop where
  sorted : ∀ version, sortChanges [lockRemoval version, change] = [lockRemoval version, change] ∧
    sortChanges [change, lockRemoval version] = [lockRemoval version, change]
  valid : ∀ version, checkChanges "invalid consistency-domain change" "" [lockRemoval version, change] = .ok ()

theorem follows (hle : transitionLockKey ≤ change.key) (hgt : ¬change.key ≤ transitionLockKey)
    (hvalid : checkChanges "invalid consistency-domain change" transitionLockKey [change] = .ok ()) :
    Follows change where
  sorted version := by simp [sortChanges, orderedInsert, lockRemoval, hle, hgt]
  valid version := by
    unfold checkChanges
    simpa [lockRemoval, show transitionLockKey ≠ "" by decide] using hvalid

theorem follows_write : Follows (write "a") ∧ Follows (write "b") :=
  ⟨follows (by decide +kernel) (by decide +kernel) (by decide +kernel),
    follows (by decide +kernel) (by decide +kernel) (by decide +kernel)⟩

theorem follows_remove : Follows (remove "a") ∧ Follows (remove "b") :=
  ⟨follows (by decide +kernel) (by decide +kernel) (by decide +kernel),
    follows (by decide +kernel) (by decide +kernel) (by decide +kernel)⟩

theorem prepared {plan : TransitionPlan} (ref : DomainRef) (hid : plan.prepareID numbered ≠ "") :
    ∃ version, Prepared numbered plan ref version := by
  refine ⟨_, _, _, normalizes hid (by simp [prepareMutation]) rfl ?_, rfl⟩
  simp [prepareMutation, sortChanges, checkChanges, show transitionLockKey ≠ "" by decide]

theorem finalized {plan : TransitionPlan} (participant : TransitionParticipant)
    (hid : plan.transitionID ≠ "") (hprepare : plan.prepareID numbered ≠ "") (hchanges : participant.changes = [change])
    (hchange : Follows change) : ∃ published, Finalized numbered plan participant published := by
  obtain ⟨version, hversion⟩ := prepared participant.ref hprepare
  refine ⟨_, version, _, _, emptyHead participant.ref, hversion, normalizes ?_ ?_ ?_ (hchange.valid version), rfl⟩
  · exact hid
  · simp [finalMutation]
  · simpa [finalMutation, hchanges] using (hchange.sorted version).1

theorem reported {plan : TransitionPlan} (participant : TransitionParticipant)
    (hid : plan.transitionID ≠ "") (hchanges : participant.changes = [change]) (hchange : Follows change) :
    ∃ versions, reportedVersions numbered plan participant = .ok versions := by
  unfold reportedVersions
  rw [normalizes hid (by simp) (by simpa [hchanges] using (hchange.sorted "").2) (hchange.valid "")]
  exact ⟨_, rfl⟩

theorem plan_runs {change : String → Change} (h : Follows (change "a") ∧ Follows (change "b")) :
    ∃ versions, transitionOutcome numbered (mutation change) (plan change) = .ok versions ∧
      ∃ published : DomainRef → DomainHead, ∀ participant ∈ (plan change).participants,
        Finalized numbered (plan change) participant (published participant.ref) := by
  have hid : (plan change).transitionID ≠ "" := show "x" ≠ "" by decide
  have hprepare : (plan change).prepareID numbered ≠ "" := show "transition-prepare:" ++ "x" ≠ "" by decide
  obtain ⟨first, hfirst⟩ := reported (ownerPart change) hid rfl h.1
  obtain ⟨second, hsecond⟩ := reported (sharePart change) hid rfl h.2
  obtain ⟨owner, howner⟩ := finalized (ownerPart change) hid hprepare rfl h.1
  obtain ⟨share, hshare⟩ := finalized (sharePart change) hid hprepare rfl h.2
  have hversions : (plan change).participants.mapM (reportedVersions numbered (plan change)) = .ok [first, second] := by
    rw [show (plan change).participants = [ownerPart change, sharePart change] from rfl, mapM_cons, mapM_cons,
      mapM_nil, hfirst, hsecond]
    rfl
  refine ⟨(mutation change).changes.map fun c => (c.key, ([first, second].flatten.reverse.lookup c.key).getD ""), ?_,
    fun ref => if ref.kind = .domainShare then share else owner, ?_⟩
  · unfold transitionOutcome
    rw [hversions]
    rfl
  · intro participant hparticipant
    simp only [plan, mem_cons, not_mem_nil, or_false] at hparticipant
    rcases hparticipant with rfl | rfl
    · exact howner
    · exact hshare

/-- A mutation that only deletes is reported as it is stored. -/
theorem removal_reported : ∃ versions published, ReportsStored routing (mutation remove) versions published := by
  obtain ⟨versions, hversions, published, hfinal⟩ := plan_runs follows_remove
  exact ⟨versions, published, (versions_reported_iff numbered_digests plan_remove hversions hfinal).mpr (by decide)⟩

/-- A mutation that writes in two domains reports versions that no domain stores. -/
theorem writes_misreported : ∃ normalized p versions published, transactionPlan routing 1 (mutation write) =
    .ok (normalized, p) ∧
    transitionOutcome numbered normalized p = .ok versions ∧
    (∀ participant ∈ p.participants, Finalized numbered p participant (published participant.ref)) ∧
    ¬ReportsStored routing normalized versions published := by
  obtain ⟨versions, hversions, published, hfinal⟩ := plan_runs follows_write
  refine ⟨_, _, versions, published, plan_write, hversions, hfinal, fun h => ?_⟩
  obtain ⟨value, hvalue, hmem⟩ := h (write "a") (.head _) rfl
  exact stored_not_reported numbered_digests plan_write hversions hfinal (.head _) rfl hvalue hmem

end Versions

end EndlessFS
