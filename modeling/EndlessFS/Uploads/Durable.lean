import EndlessFS.Uploads.Leases

/-!
# EndlessFS.Uploads.Durable

A helper aborts only sessions whose leases are not stored.

* `leaseTokens`: a helper holds the leases it was handed, as long as the provider hands out every lease
  once; nobody else stores or aborts them.
* `Trusted`: the steps of the runs in which this is enough. No write of a segment is applied and reported
  as failed, and the read after a refused write that was applied does not fail.
* `durable_leases_kept`: in these runs no stored lease is ever aborted.
-/

namespace EndlessFS

open Except Function LeaseState List
open Conc (Prog Owned Tokens Reach Policy Config)

namespace LeaseState

def StoredAt (s : LeaseState) (k : LeaseKey) (lease : Lease) : Prop :=
  ∃ value, s.objects k = some value ∧ lease ∈ leasesIn k value

def InSegment (s : LeaseState) (lease : Lease) : Prop := ∃ batchID index, s.StoredAt (.segment batchID index) lease

def Loose (s : LeaseState) (lease : Lease) : Prop := (∀ k, ¬s.StoredAt k lease) ∧ lease ∈ s.begun

structure Inv (s : LeaseState) : Prop where
  begun : ∀ k lease, s.StoredAt k lease → lease ∈ s.begun
  kept : ∀ k lease, s.StoredAt k lease → lease ∉ s.revoked
  revoked : ∀ lease ∈ s.revoked, lease ∈ s.begun

variable {lease : Lease} {s t : LeaseState}

theorem InSegment.mono (h : s.InSegment lease) (hle : Le s t) : t.InSegment lease := by
  obtain ⟨batchID, index, stored, hstored, hlease⟩ := h
  exact ⟨batchID, index, stored, hle.segments _ _ _ hstored, hlease⟩

def NotStored (lease : Lease) (s t : LeaseState) : Prop :=
  ∀ k, t.StoredAt k lease → s.StoredAt k lease ∨ (∃ batchID index, k = .segment batchID index) ∧ s.InSegment lease

theorem NotStored.trans {u : LeaseState} (h : NotStored lease s t) (h' : NotStored lease t u) :
    NotStored lease s u := by
  have hsegment : t.InSegment lease → s.InSegment lease := by
    rintro ⟨batchID, index, hstored⟩
    rcases h _ hstored with hstored | ⟨_, hin⟩
    · exact ⟨batchID, index, hstored⟩
    · exact hin
  intro k hk
  rcases h' k hk with hk | ⟨hkey, hin⟩
  · exact h k hk
  · exact .inr ⟨hkey, hsegment hin⟩

theorem Loose.of_notStored (h : s.Loose lease) (hle : Le s t) (hnot : NotStored lease s t) : t.Loose lease := by
  refine ⟨fun k hk => ?_, hle.begun h.2⟩
  rcases hnot k hk with hk | ⟨_, batchID, index, hk⟩
  · exact h.1 k hk
  · exact h.1 _ hk

theorem storedAt_store {k k' : LeaseKey} {value : LeaseObject k}
    (h : (s.store k value).StoredAt k' lease) : k' = k ∧ lease ∈ leasesIn k value ∨ s.StoredAt k' lease := by
  obtain ⟨stored, hstored, hlease⟩ := h
  by_cases hk : k' = k
  · subst hk
    simp only [store, update_self, Option.some.injEq] at hstored
    exact .inl ⟨rfl, hstored ▸ hlease⟩
  · simp only [store, update_of_ne hk] at hstored
    exact .inr ⟨stored, hstored, hlease⟩

end LeaseState

open LeaseState

def leaseTokens : Tokens leaseMachine where
  Token := Lease
  Known s lease := lease ∈ s.begun
  known_mono h hx := h.begun hx
  Same lease s t := NotStored lease s t ∧ (lease ∈ t.revoked → lease ∈ s.revoked)
  same_refl _ _ := ⟨fun _ h => .inl h, id⟩
  same_trans h h' := ⟨h.1.trans h'.1, fun hx => h.2 (h'.2 hx)⟩

/-- The provider hands out a lease once; a write of a segment that is applied is not reported as failed;
and a segment that was stored by a write reported as refused can be read. -/
def Trusted (s : LeaseState) (c : LeaseChoice) : LeaseOp → Prop
  | .get (.own _) => True
  | .get (.segment batchID index) => .segment batchID index ∈ s.doubted → c.fault = .none
  | .create (.own _) _ => True
  | .create (.segment batchID index) _ => c.fault = .dropResponse → (s.objects (.segment batchID index)).isSome
  | .beginUpload _ => c.fault ≠ .dropRequest → c.lease ∉ s.begun
  | .abortUpload _ => True
  | .resumeUpload _ => True

/-- The program holds the leases `own`. -/
abbrev Holding {α : Type} (Q : LeaseState → Set Lease → α → Prop) (p : Prog leaseMachine α) (own : Set Lease)
    (s : LeaseState) : Prop :=
  Owned leaseTokens LeaseState.Inv Trusted Q p own s

variable {α : Type} {Q : LeaseState → Set Lease → α → Prop} {own : Set Lease} {s : LeaseState} {lease : Lease}

/-! ## The operations -/

variable {k : LeaseKey}

theorem Holding.get {f : Except Error (Option (LeaseObject k)) → Prog leaseMachine α}
    (h : ∀ s', Le s s' → leaseTokens.Frame own s s' → s'.Inv → Holding Q (f (.ok (s'.objects k))) own s' ∧
      ∀ e, (∀ batchID index, k = .segment batchID index → k ∉ s'.doubted) → Holding Q (f (.error e)) own s') :
    Holding Q (getLeases k >>= f) own s := by
  refine Owned.perform fun s' hle hframe hI c hc => ⟨hI, own, .rfl, ?_⟩
  obtain ⟨hfound, hfailed⟩ := h s' hle hframe hI
  by_cases hfault : c.fault = .none
  · simpa [exec, hfault] using hfound
  · simp only [exec, hfault, if_false]
    refine hfailed _ fun batchID index hk hdoubted => hfault ?_
    subst hk
    exact hc hdoubted

variable {f : Except Error Unit → Prog leaseMachine α}

theorem Holding.resume (h : ∀ s' r, Le s s' → leaseTokens.Frame own s s' → s'.Inv → Holding Q (f r) own s') :
    Holding Q (resumeUpload lease >>= f) own s :=
  Owned.perform fun s' hle hframe hI _ _ => ⟨hI, own, .rfl, h s' _ hle hframe hI⟩

theorem Holding.abort {f : Unit → Prog leaseMachine α} (hown : lease ∈ own) (hloose : s.Loose lease)
    (h : ∀ s', Le s s' → (∀ l ∈ own, NotStored l s s') → Holding Q (f ()) own s') :
    Holding Q (revokeUpload lease >>= f) own s := by
  refine Owned.perform fun s' hle hframe hI c _ =>
    ⟨?_, own, ⟨fun _ => .inl, fun x hx _ => ⟨fun _ hk => .inl hk, ?_⟩⟩, ?_⟩
  · have hloose' := hloose.of_notStored hle (hframe lease hown).1
    refine ⟨hI.begun, fun k l hk => ?_, fun l hl => ?_⟩
    · rintro (_ | ⟨_, hl⟩)
      · exact hloose'.1 k hk
      · exact hI.kept k l hk hl
    · rcases mem_cons.mp hl with rfl | hl
      · exact hloose'.2
      · exact hI.revoked l hl
  · intro hrevoked
    rcases mem_cons.mp hrevoked with rfl | hrevoked
    · exact absurd hown hx
    · exact hrevoked
  · exact h _ (hle.trans (le_revoke s' lease)) fun l hl k hk => (hframe l hl).1 k hk

variable {uploadID : String}

theorem Holding.begin {f : Except Error Lease → Prog leaseMachine α}
    (h : ∀ s', Le s s' → leaseTokens.Frame own s s' → s'.Inv → (∀ e, Holding Q (f (.error e)) own s') ∧
      ∀ lease, (s'.hand lease).Loose lease → lease ∉ s'.revoked →
      Holding Q (f (.ok lease)) (insert lease own) (s'.hand lease)) :
    Holding Q (beginUpload uploadID >>= f) own s := by
  refine Owned.perform fun s' hle hframe hI c hc => ?_
  obtain ⟨hfailed, hhanded⟩ := h s' hle hframe hI
  have hInv : ∀ l, (s'.hand l).Inv := fun l =>
    ⟨fun k x hx => .tail _ (hI.begun k x hx), hI.kept, fun x hx => .tail _ (hI.revoked x hx)⟩
  have hsame : ∀ l x, leaseTokens.Same x s' (s'.hand l) := fun l x => ⟨fun _ hk => .inl hk, id⟩
  have hlost : ∀ l e, Holding Q (f (.error e)) own (s'.hand l) := fun l e =>
    (hfailed e).mono (le_hand s' l) fun x _ => hsame l x
  cases hfault : c.fault with
  | none =>
    have hnew : c.lease ∉ s'.begun := hc (by simp [hfault])
    simp only [exec, hfault]
    refine ⟨hInv _, insert c.lease own, ⟨fun x hx => ?_, fun x _ _ => hsame _ x⟩, ?_⟩
    · rcases hx with rfl | hx
      · exact .inr ⟨hnew, .head _⟩
      · exact .inl hx
    · refine hhanded c.lease ⟨fun k hk => hnew (hI.begun k _ hk), .head _⟩ fun hrevoked => ?_
      exact hnew (hI.revoked _ hrevoked)
  | dropRequest =>
    simp only [exec, hfault]
    exact ⟨hI, own, .rfl, hfailed _⟩
  | dropResponse =>
    simp only [exec, hfault]
    exact ⟨hInv _, own, ⟨fun _ => .inl, fun x _ _ => hsame _ x⟩, hlost _ _⟩
  | repeated =>
    simp only [exec, hfault]
    exact ⟨hInv _, own, ⟨fun _ => .inl, fun x _ _ => hsame _ x⟩, hlost _ _⟩

/-- What a helper may write: leases of its own that are stored nowhere and not aborted, and in a segment also
leases of other segments. -/
def Writable (own : Set Lease) (s : LeaseState) (k : LeaseKey) (value : LeaseObject k) : Prop :=
  ∀ l ∈ leasesIn k value, (l ∈ own ∧ s.Loose l ∧ l ∉ s.revoked) ∨ (∃ batchID index, k = .segment batchID index) ∧
    s.InSegment l

variable {value : LeaseObject k}

theorem Writable.inv (h : Writable own s k value) (hI : s.Inv) : (s.store k value).Inv := by
  refine ⟨fun k' l hk => ?_, fun k' l hk => ?_, hI.revoked⟩
  · rcases storedAt_store hk with ⟨_, hl⟩ | hk
    · rcases h l hl with ⟨_, hloose, _⟩ | ⟨_, batchID, index, hin⟩
      · exact hloose.2
      · exact hI.begun _ l hin
    · exact hI.begun k' l hk
  · rcases storedAt_store hk with ⟨_, hl⟩ | hk
    · rcases h l hl with ⟨_, _, hkept⟩ | ⟨_, batchID, index, hin⟩
      · exact hkept
      · exact hI.kept _ l hin
    · exact hI.kept k' l hk

theorem Writable.same (h : Writable own s k value) {x : Lease} (hx : x ∉ own) :
    leaseTokens.Same x s (s.store k value) := by
  refine ⟨fun k' hk => ?_, id⟩
  rcases storedAt_store hk with ⟨rfl, hl⟩ | hk
  · rcases h x hl with ⟨hown, _⟩ | hin
    · exact absurd hown hx
    · exact .inr hin
  · exact .inl hk

theorem Holding.create (h : ∀ s', Le s s' → leaseTokens.Frame own s s' → s'.Inv → Writable own s' k value ∧
      (s'.objects k = none → Holding Q (f (.ok ())) own (s'.store k value) ∧
        Holding Q (f (.error exists_)) own ((s'.store k value).doubt k) ∧
        ((∀ batchID index, k ≠ .segment batchID index) → Holding Q (f (.error lost)) own (s'.store k value))) ∧
      ∀ e, Holding Q (f (.error e)) own s') : Holding Q (createLeases k value >>= f) own s := by
  refine Owned.perform fun s' hle hframe hI c hc => ?_
  obtain ⟨hwritable, happlied, hrefused⟩ := h s' hle hframe hI
  have hpasses : leaseTokens.Passes own own s' (s'.store k value) :=
    ⟨fun _ => .inl, fun x hx _ => hwritable.same hx⟩
  cases hk : s'.objects k with
  | some stored =>
    have hkept : s'.create c.fault k value = (s', .error lost) ∨ s'.create c.fault k value = (s', .error exists_) := by
      cases hfault : c.fault <;> simp [LeaseState.create, hk]
    rcases hkept with hkept | hkept <;> simp only [LeaseState.exec, hkept] <;> exact ⟨hI, own, .rfl, hrefused _⟩
  | none =>
    obtain ⟨hok, hrepeated, hlost⟩ := happlied hk
    cases hfault : c.fault with
    | none =>
      simp only [LeaseState.exec, LeaseState.create, hfault, hk, Option.isSome_none]
      exact ⟨hwritable.inv hI, own, hpasses, hok⟩
    | dropRequest =>
      simp only [LeaseState.exec, LeaseState.create, hfault, hk, Option.isSome_none]
      exact ⟨hI, own, .rfl, hrefused _⟩
    | dropResponse =>
      simp only [LeaseState.exec, LeaseState.create, hfault, hk, Option.isSome_none]
      refine ⟨hwritable.inv hI, own, hpasses, hlost fun batchID index hsegment => ?_⟩
      subst hsegment
      have := hc hfault
      simp [hk] at this
    | repeated =>
      simp only [LeaseState.exec, LeaseState.create, hfault, hk, Option.isSome_none]
      obtain ⟨hbegun, hkept, hrevoked⟩ := hwritable.inv hI
      exact ⟨⟨hbegun, hkept, hrevoked⟩, own, ⟨fun _ => .inl, fun x hx _ => hwritable.same hx⟩, hrepeated⟩

/-! ## One upload -/

abbrev Anything {α : Type} : LeaseState → Set Lease → α → Prop := fun _ _ _ => True

theorem Holding.pure {a : α} : Holding Anything (pure a) own s := Owned.ret fun _ _ _ _ => trivial

theorem holding_resumeStoredLease (stored : Lease) : Holding Anything (resumeStoredLease stored) own s := by
  unfold resumeStoredLease
  split
  · exact .pure
  · refine Holding.resume fun s' r _ _ _ => ?_
    cases r <;> exact .pure

def OnlyAt (s : LeaseState) (uploadID : String) (lease : Lease) : Prop := ∀ k, s.StoredAt k lease → k = .own uploadID

variable {t : LeaseState}

theorem OnlyAt.of_notStored (h : OnlyAt s uploadID lease) (hnot : NotStored lease s t) : OnlyAt t uploadID lease := by
  intro k hk
  rcases hnot k hk with hk | ⟨_, batchID, index, hk⟩
  · exact h k hk
  · cases h _ hk

theorem holding_recover {putErr : Error} (hown : lease ∈ own) (honly : OnlyAt s uploadID lease)
    (hbegun : lease ∈ s.begun) : Holding Anything (recoverPortableUploadLease uploadID lease putErr) own s := by
  refine Holding.get fun s' hle hframe _ => ⟨?_, fun e _ => .pure⟩
  have honly' := honly.of_notStored (hframe lease hown).1
  cases hfound : s'.objects (.own uploadID) with
  | none =>
    -- the lease could only be stored in the object that is missing
    have hloose : s'.Loose lease := by
      refine ⟨fun k hk => ?_, hle.begun hbegun⟩
      obtain rfl := honly' k hk
      obtain ⟨value, hvalue, _⟩ := hk
      rw [hfound] at hvalue
      cases hvalue
    exact Holding.abort hown hloose fun _ _ _ => .pure
  | some stored =>
    by_cases hequal : lease = stored
    · simp only [hequal, ne_eq, not_true_eq_false, if_false]
      exact holding_resumeStoredLease stored
    · have hloose : s'.Loose lease := by
        refine ⟨fun k hk => ?_, hle.begun hbegun⟩
        obtain rfl := honly' k hk
        obtain ⟨value, hvalue, hin⟩ := hk
        rw [hfound] at hvalue
        cases hvalue
        exact hequal (by simpa [leasesIn] using hin)
      simp only [ne_eq, hequal, not_false_eq_true, if_true]
      exact Holding.abort hown hloose fun _ _ _ => holding_resumeStoredLease stored

theorem holding_begun : Holding Anything (do
      match ← beginUpload uploadID with
      | .error e => pure (.error e)
      | .ok handle =>
        match ← createLeases (.own uploadID) handle with
        | .ok _ => pure (if handle = "" then .error emptyLease else .ok handle)
        | .error putErr => recoverPortableUploadLease uploadID handle putErr) own s := by
  refine Holding.begin fun s₁ _ _ _ => ⟨fun e => .pure, fun handle hloose hkept => ?_⟩
  have hown : handle ∈ insert handle own := Set.mem_insert _ _
  refine Holding.create fun s₂ hle hframe _ => ?_
  have hloose₂ : s₂.Loose handle := hloose.of_notStored hle (hframe handle hown).1
  have hkept₂ : handle ∉ s₂.revoked := fun h => hkept ((hframe handle hown).2 h)
  have honly : OnlyAt (s₂.store (.own uploadID) handle) uploadID handle := by
    intro k hk
    rcases storedAt_store hk with ⟨rfl, _⟩ | hk
    · rfl
    · exact absurd hk (hloose₂.1 k)
  refine ⟨fun l hl => ?_, fun _ => ⟨.pure, ?_, fun _ => ?_⟩, fun e => ?_⟩
  · obtain rfl : l = handle := by simpa [leasesIn] using hl
    exact .inl ⟨hown, hloose₂, hkept₂⟩
  · exact holding_recover hown honly hloose₂.2
  · exact holding_recover hown honly hloose₂.2
  · exact holding_recover hown (fun k hk => absurd hk (hloose₂.1 k)) hloose₂.2

theorem holding_ensurePortableUploadLease (uploadID : String) (leaseKnownAbsent : Bool) :
    Holding Anything (ensurePortableUploadLease uploadID leaseKnownAbsent) own s := by
  cases leaseKnownAbsent with
  | true => exact holding_begun
  | false =>
    refine Holding.get fun s' _ _ _ => ⟨?_, fun e _ => .pure⟩
    cases s'.objects (.own uploadID) with
    | none => exact holding_begun
    | some stored => exact holding_resumeStoredLease stored

/-! ## A segment -/

def Progress (s : LeaseState) (_ : Set Lease) (result : Except Error (List Lease × List PortableUploadLease)) : Prop :=
  ∀ capabilities leases, result = .ok (capabilities, leases) → ∀ l ∈ leases, s.InSegment l.lease

variable {e : Error}

theorem holding_error : Holding Progress (pure (.error e)) own s :=
  Owned.ret fun _ _ _ _ _ _ h => by cases h

def Disposable (own : Set Lease) (s : LeaseState) (handles : List Lease) : Prop :=
  ∀ l ∈ handles, l ≠ "" → l ∈ own ∧ s.Loose l

variable {handles : List Lease}

theorem Disposable.of_notStored (h : Disposable own s handles) (hle : Le s t)
    (hnot : ∀ l ∈ own, NotStored l s t) : Disposable own t handles := fun l hl hne =>
  ⟨(h l hl hne).1, (h l hl hne).2.of_notStored hle (hnot l (h l hl hne).1)⟩

theorem holding_abortUploadHandles (h : Disposable own s handles) :
    Holding Anything (abortUploadHandles handles) own s := by
  induction handles generalizing s with
  | nil => exact .pure
  | cons l rest ih =>
    have hrest : Disposable own s rest := fun x hx => h x (.tail _ hx)
    unfold abortUploadHandles
    by_cases hempty : l = ""
    · simp only [hempty, ne_eq, not_true_eq_false, if_false]
      exact ih hrest
    · simp only [ne_eq, hempty, not_false_eq_true, if_true]
      obtain ⟨hown, hloose⟩ := h l (.head _) hempty
      exact Holding.abort hown hloose fun s' hle hnot => ih (hrest.of_notStored hle hnot)

theorem holding_abandon (h : Disposable own s handles) : Holding Progress (abandon handles e) own s :=
  (holding_abortUploadHandles h).bind fun _ _ _ _ _ _ => holding_error

theorem holding_resumeSegment (stored : PortableUploadLeaseSegment) (items : List PortableUploadRecord) :
    Holding Anything (resumePortableUploadLeaseSegment stored items) own s := by
  induction items generalizing s with
  | nil => exact .pure
  | cons item rest ih =>
    unfold resumePortableUploadLeaseSegment
    cases resumedSlot item stored with
    | error e => exact .pure
    | ok lease =>
      refine Holding.resume fun s' r _ _ _ => ?_
      cases r with
      | error e => exact .pure
      | ok _ =>
        refine ih.bind fun s'' own' r _ _ _ => ?_
        cases r <;> exact Holding.pure

variable {stored : PortableUploadLeaseSegment} {l : PortableUploadLease} {totalCount : Nat}

theorem mem_merged {prior leases : List PortableUploadLease} {firstIndex : Nat}
    (h : mergePortableUploadLeaseProgress prior stored firstIndex totalCount = .ok leases)
    (hl : l ∈ leases) : l ∈ prior ∨ l ∈ stored.leases := by
  obtain ⟨_, _, h⟩ := bind_ok h
  split at h
  · cases h
    exact .inr hl
  · obtain ⟨_, _, h⟩ := bind_ok h
    cases h
    exact mem_append.mp hl

theorem holding_useStoredSegment {request : SegmentRequest}
    (hprior : ∀ l ∈ request.priorLeases, s.InSegment l.lease) (hstored : ∀ l ∈ stored.leases, s.InSegment l.lease) :
    Holding Progress (useStoredSegment request totalCount stored) own s := by
  refine (holding_resumeSegment stored request.items).bind fun s' own' r hle _ _ => ?_
  cases r with
  | error e => exact holding_error
  | ok capabilities =>
    refine Owned.ret fun s'' hle' _ _ capabilities' leases hresult l hl => ?_
    cases hmerged : mergePortableUploadLeaseProgress request.priorLeases stored request.firstIndex totalCount with
    | error e => simp [hmerged, Except.map] at hresult
    | ok merged =>
      obtain ⟨_, rfl⟩ : capabilities = capabilities' ∧ merged = leases := by simpa [hmerged, Except.map] using hresult
      rcases mem_merged hmerged hl with hl | hl
      · exact ((hprior l hl).mono hle).mono hle'
      · exact ((hstored l hl).mono hle).mono hle'

variable {codec : LeaseCodec} {request : SegmentRequest}

theorem mem_newSegment (h : l ∈ (newSegment codec request totalCount handles).leases) :
    l ∈ request.priorLeases ∨ l ∈ segmentLeases request.items handles := by
  unfold newSegment at h
  dsimp only at h
  split at h
  · exact mem_append.mp h
  · exact .inr h

theorem newSegment_mem (h : l ∈ segmentLeases request.items handles) :
    l ∈ (newSegment codec request totalCount handles).leases := by
  unfold newSegment
  dsimp only
  split
  · exact mem_append_right _ h
  · exact h

theorem mem_segmentLeases {items : List PortableUploadRecord} (h : l ∈ segmentLeases items handles) :
    l.lease ∈ handles := by
  unfold segmentLeases at h
  induction items generalizing handles with
  | nil => simp at h
  | cons item rest ih =>
    cases handles with
    | nil => simp at h
    | cons handle handles =>
      rcases mem_cons.mp h with rfl | h
      · exact .head _
      · exact .tail _ (ih h)

theorem decode_newSegment (h : encodePortableUploadLeaseSegment codec (newSegment codec request totalCount handles) =
      .ok ()) :
    decodePortableUploadLeaseSegment (newSegment codec request totalCount handles) codec.backendKind request.ownerID
      request.batchID request.segmentIndex = .ok (newSegment codec request totalCount handles) := by
  obtain ⟨_, hvalid, _⟩ := bind_ok h
  unfold decodePortableUploadLeaseSegment
  rw [hvalid]
  simp [newSegment, rejectIf]

variable {batchID : String} {index : Nat}

theorem decode_eq {decoded : PortableUploadLeaseSegment} {backendKind ownerID : String}
    (h : decodePortableUploadLeaseSegment stored backendKind ownerID batchID index = .ok decoded) :
      decoded = stored := by
  obtain ⟨_, _, h⟩ := bind_ok h
  obtain ⟨_, _, h⟩ := bind_ok h
  cases h
  rfl

theorem inSegment_of_object
    (h : s.objects (.segment batchID index) = some stored) : ∀ l ∈ stored.leases, s.InSegment l.lease := fun _ hl =>
  ⟨batchID, index, stored, h, mem_map_of_mem hl⟩

/-- After a refused write: either it was not applied, or the segment is there and will be read. -/
theorem holding_recoverSegment {body : PortableUploadLeaseSegment}
    (hprior : ∀ l ∈ request.priorLeases, s.InSegment l.lease)
    (hdecodes : decodePortableUploadLeaseSegment body codec.backendKind request.ownerID request.batchID
      request.segmentIndex = .ok body)
    (h : Disposable own s handles ∨ s.objects (.segment request.batchID request.segmentIndex) = some body ∧
      .segment request.batchID request.segmentIndex ∈ s.doubted) :
    Holding Progress (recoverSegment codec request totalCount handles body) own s := by
  refine Holding.get fun s' hle hframe _ => ⟨?_, fun e hfailed => ?_⟩
  · have hprior' : ∀ l ∈ request.priorLeases, s'.InSegment l.lease := fun l hl => (hprior l hl).mono hle
    rcases h with hdisposable | ⟨hbody, _⟩
    · have hdisposable' := hdisposable.of_notStored hle fun l hl => (hframe l hl).1
      cases hfound : s'.objects (.segment request.batchID request.segmentIndex) with
      | none => exact holding_abandon hdisposable'
      | some winner =>
        dsimp only
        cases hdecoded : decodePortableUploadLeaseSegment winner codec.backendKind request.ownerID request.batchID
            request.segmentIndex with
        | error e => exact holding_abandon hdisposable'
        | ok decoded =>
          obtain rfl := decode_eq hdecoded
          have hstored := inSegment_of_object hfound
          dsimp only
          split
          · refine (holding_abortUploadHandles hdisposable').bind fun s'' own' _ hle' _ _ => ?_
            exact holding_useStoredSegment (fun l hl => (hprior' l hl).mono hle') fun l hl => (hstored l hl).mono hle'
          · exact holding_useStoredSegment hprior' hstored
    · have hfound := hle.segments _ _ _ hbody
      simp only [hfound, hdecodes, ne_eq, not_true_eq_false, if_false]
      exact holding_useStoredSegment hprior' (inSegment_of_object hfound)
  · rcases h with hdisposable | ⟨_, hdoubted⟩
    · exact holding_abandon (hdisposable.of_notStored hle fun l hl => (hframe l hl).1)
    · exact absurd (hle.doubted hdoubted) (hfailed _ _ rfl)

theorem holding_storeSegment (hprior : ∀ l ∈ request.priorLeases, s.InSegment l.lease)
    (hhandles : ∀ l ∈ handles, l ∈ own ∧ s.Loose l ∧ l ∉ s.revoked) :
    Holding Progress (storeSegment codec request totalCount handles) own s := by
  have hdisposable : Disposable own s handles := fun l hl _ => ⟨(hhandles l hl).1, (hhandles l hl).2.1⟩
  unfold storeSegment
  dsimp only
  cases hencoded : encodePortableUploadLeaseSegment codec (newSegment codec request totalCount handles) with
  | error e => exact holding_abandon hdisposable
  | ok _ =>
    have hdecodes := decode_newSegment hencoded
    refine Holding.create fun s' hle hframe _ => ?_
    have hprior' : ∀ l ∈ request.priorLeases, s'.InSegment l.lease := fun l hl => (hprior l hl).mono hle
    have hdisposable' := hdisposable.of_notStored hle fun l hl => (hframe l hl).1
    refine ⟨fun l hl => ?_, fun hnone => ⟨?_, ?_, fun hne => absurd rfl (hne _ _)⟩, fun e => ?_⟩
    · obtain ⟨slot, hslot, rfl⟩ := mem_map.mp hl
      rcases mem_newSegment hslot with hslot | hslot
      · exact .inr ⟨⟨_, _, rfl⟩, hprior' slot hslot⟩
      · obtain ⟨hown, hloose, hkept⟩ := hhandles slot.lease (mem_segmentLeases hslot)
        exact .inl ⟨hown, hloose.of_notStored hle (hframe _ hown).1, fun h => hkept ((hframe _ hown).2 h)⟩
    · refine Owned.ret fun s'' hle' _ _ _ leases hresult l hl => ?_
      obtain rfl : request.priorLeases ++ segmentLeases request.items handles = leases := by
        simpa using (Prod.mk.inj (ok.inj hresult)).2
      rcases mem_append.mp hl with hl | hl
      · exact ((hprior' l hl).mono (le_store _ hnone)).mono hle'
      · have hobject : (s'.store (.segment request.batchID request.segmentIndex)
          (newSegment codec request totalCount handles)).objects
            (.segment request.batchID request.segmentIndex) = some (newSegment codec request totalCount handles) :=
          update_self ..
        exact (inSegment_of_object hobject l (newSegment_mem hl)).mono hle'
    · simp only [show exists_.isRace = true from rfl, if_true]
      refine holding_recoverSegment ?_ hdecodes (.inr ⟨?_, .head _⟩)
      · exact fun l hl => ((hprior' l hl).mono (le_store _ hnone)).mono (le_doubt _ _)
      · exact update_self ..
    · dsimp only
      split
      · exact holding_recoverSegment hprior' hdecodes (.inl hdisposable')
      · exact holding_abandon hdisposable'

theorem holding_beginUploads (items : List PortableUploadRecord) (got : List Lease)
    (hgot : ∀ l ∈ got, l ∈ own ∧ s.Loose l ∧ l ∉ s.revoked) :
    Holding (fun s' own' begun => (∀ l ∈ got, l ∈ own' ∧ s'.Loose l ∧ l ∉ s'.revoked) ∧
      ∀ h ∈ begun, h.1 ≠ "" ∨ h.2 = none → h.1 ∈ own' ∧ s'.Loose h.1 ∧
        h.1 ∉ s'.revoked) (beginUploads items) own s := by
  have hkeeps : ∀ (own : Set Lease) (s t : LeaseState) (l : Lease), Le s t → leaseTokens.Frame own s t →
      l ∈ own ∧ s.Loose l ∧ l ∉ s.revoked → l ∈ own ∧ t.Loose l ∧ l ∉ t.revoked := fun own s t l hle hframe h =>
    ⟨h.1, h.2.1.of_notStored hle (hframe l h.1).1, fun hl => h.2.2 ((hframe l h.1).2 hl)⟩
  induction items generalizing got own s with
  | nil =>
    refine Owned.ret fun s' hle hframe _ => ⟨fun l hl => hkeeps own s s' l hle hframe (hgot l hl), by simp⟩
  | cons item rest ih =>
    refine Holding.begin fun s₁ hle hframe hI => ⟨fun e => ?_, fun lease hloose hkept => ?_⟩
    · refine (ih got fun l hl => hkeeps own s s₁ l hle hframe (hgot l hl)).bind fun s₂ own₂ begun _ _ h => ?_
      refine Owned.ret fun s₃ hle₃ hframe₃ _ => ⟨fun l hl => hkeeps own₂ s₂ s₃ l hle₃ hframe₃ (h.1 l hl),
        fun x hx hne => ?_⟩
      rcases mem_cons.mp hx with rfl | hx
      · simp at hne
      · exact hkeeps own₂ s₂ s₃ x.1 hle₃ hframe₃ (h.2 x hx hne)
    · have hgot' : ∀ l ∈ lease :: got, l ∈ insert lease own ∧ (s₁.hand lease).Loose l ∧
          l ∉ (s₁.hand lease).revoked := by
        intro l hl
        rcases mem_cons.mp hl with rfl | hl
        · exact ⟨Set.mem_insert _ _, hloose, hkept⟩
        · obtain ⟨hown, hloose', hkept'⟩ := hkeeps own s s₁ l hle hframe (hgot l hl)
          exact ⟨Set.mem_insert_of_mem _ hown, ⟨hloose'.1, .tail _ hloose'.2⟩, hkept'⟩
      refine (ih (lease :: got) hgot').bind fun s₂ own₂ begun _ _ h => ?_
      refine Owned.ret fun s₃ hle₃ hframe₃ _ => ⟨fun l hl => ?_, fun x hx hne => ?_⟩
      · exact hkeeps own₂ s₂ s₃ l hle₃ hframe₃ (h.1 l (.tail _ hl))
      · rcases mem_cons.mp hx with rfl | hx
        · exact hkeeps own₂ s₂ s₃ _ hle₃ hframe₃ (h.1 lease (.head _))
        · exact hkeeps own₂ s₂ s₃ x.1 hle₃ hframe₃ (h.2 x hx hne)

theorem holding_openSegment (hprior : ∀ l ∈ request.priorLeases, s.InSegment l.lease) :
    Holding Progress (openSegment codec request totalCount) own s := by
  refine (holding_beginUploads request.items [] (by simp)).bind fun s' own' begun hle _ h => ?_
  cases hfailed : begun.findSome? Prod.snd with
  | some e =>
    refine holding_abandon fun l hl hne => ?_
    obtain ⟨x, hx, rfl⟩ := mem_map.mp hl
    exact ⟨(h.2 x hx (.inl hne)).1, (h.2 x hx (.inl hne)).2.1⟩
  | none =>
    refine holding_storeSegment (fun l hl => (hprior l hl).mono hle) fun l hl => ?_
    obtain ⟨x, hx, rfl⟩ := mem_map.mp hl
    exact h.2 x hx (.inr (by simpa using findSome?_eq_none_iff.mp hfailed x hx))

theorem holding_ensurePortableUploadLeaseSegment (hprior : ∀ l ∈ request.priorLeases, s.InSegment l.lease) :
    Holding Progress (ensurePortableUploadLeaseSegment codec request) own s := by
  unfold ensurePortableUploadLeaseSegment
  cases request.check with
  | error e => exact holding_error
  | ok totalCount =>
    dsimp only
    split
    · exact holding_openSegment hprior
    · refine Holding.get fun s' hle _ _ => ⟨?_, fun e _ => holding_error⟩
      have hprior' : ∀ l ∈ request.priorLeases, s'.InSegment l.lease := fun l hl => (hprior l hl).mono hle
      cases hfound : s'.objects (.segment request.batchID request.segmentIndex) with
      | none => exact holding_openSegment hprior'
      | some object =>
        dsimp only
        cases hdecoded : decodePortableUploadLeaseSegment object codec.backendKind request.ownerID request.batchID
            request.segmentIndex with
        | error e => exact holding_error
        | ok stored =>
          obtain rfl := decode_eq hdecoded
          dsimp only
          split
          · exact holding_error
          · exact holding_useStoredSegment hprior' (inSegment_of_object hfound)

theorem holding_activateSegments (ownerID batchID : String) (knownAbsent : Bool)
    (segments : List (List PortableUploadRecord))
    (index : Nat) (allLeases : List PortableUploadLease) (hall : ∀ l ∈ allLeases, s.InSegment l.lease) :
    Holding Anything (activateSegments codec ownerID batchID knownAbsent index allLeases segments) own s := by
  induction segments generalizing index allLeases own s with
  | nil => exact .pure
  | cons items rest ih =>
    refine (holding_ensurePortableUploadLeaseSegment hall).bind fun s' own' r _ _ hprogress => ?_
    cases r with
    | error e => exact Holding.pure
    | ok result =>
      refine (ih (index + 1) result.2 (hprogress result.1 result.2 rfl)).bind fun s'' own'' later _ _ _ => ?_
      cases later <;> exact Holding.pure

theorem holding_activation (activation : Activation) : Holding Anything (activation.run codec) own s := by
  cases activation with
  | single uploadID leaseKnownAbsent =>
    exact (holding_ensurePortableUploadLease uploadID leaseKnownAbsent).bind fun _ _ _ _ _ _ => Holding.pure
  | batch ownerID batchID items leasesKnownAbsent =>
    exact holding_activateSegments ownerID batchID leasesKnownAbsent _ 0 [] (by simp)

/-! ## Runs -/

def trustedPolicy : Policy leaseMachine Activation where
  spawn _ _ := True
  step := Trusted
  drift _ _ := True

def noLeases : Config leaseMachine fun _ : Activation => Except Error (List Lease) := { state := .empty, pool := [] }

theorem NotStored.cleanup (s : LeaseState) (uploadID : String) (lease : Lease) :
    NotStored lease s (s.cleanup uploadID) := by
  rintro k ⟨value, hvalue, hlease⟩
  by_cases hk : k = .own uploadID
  · subst hk
    simp [LeaseState.cleanup] at hvalue
  · exact .inl ⟨value, by simpa [LeaseState.cleanup, Function.update_of_ne hk] using hvalue, hlease⟩

theorem Inv.cleanup (h : s.Inv) (uploadID : String) : (s.cleanup uploadID).Inv := by
  have hstored : ∀ k lease, (s.cleanup uploadID).StoredAt k lease → ∃ k', s.StoredAt k' lease := fun k lease hk =>
    (NotStored.cleanup s uploadID lease k hk).elim (fun h => ⟨k, h⟩) fun ⟨_, _, _, h⟩ => ⟨_, h⟩
  refine ⟨fun k lease hk => ?_, fun k lease hk => ?_, h.revoked⟩
  · obtain ⟨k', hk'⟩ := hstored k lease hk
    exact h.begun k' lease hk'
  · obtain ⟨k', hk'⟩ := hstored k lease hk
    exact h.kept k' lease hk'

/-- In a run of trusted steps no helper ever aborts a session whose lease is stored, nor stores an aborted one. -/
theorem durable_leases_kept (codec : LeaseCodec)
    {cfg : Config leaseMachine fun _ : Activation => Except Error (List Lease)}
    (h : Reach (fun activation => activation.run codec) trustedPolicy noLeases cfg) :
    ∀ k lease, cfg.state.StoredAt k lease → lease ∉ cfg.state.revoked := by
  have hstart : noLeases.Holds LeaseState.Inv trustedPolicy (fun _ => Anything) (T := leaseTokens) fun _ => ∅ := by
    refine ⟨⟨?_, ?_, by simp [noLeases, LeaseState.empty]⟩, by simp, by simp, by simp [noLeases]⟩
    · rintro k lease ⟨value, hvalue, _⟩
      cases hvalue
    · rintro k lease ⟨value, hvalue, _⟩
      cases hvalue
  obtain ⟨hands, hholds⟩ := h.owned hstart (fun _ activation _ _ => holding_activation activation)
    fun s d hI _ => ⟨Inv.cleanup hI d, fun lease _ => ⟨NotStored.cleanup s d lease, id⟩⟩
  exact hholds.state.kept

/-! ## Helpers that meet -/

namespace Batch

instance (s : LeaseState) (c : LeaseChoice) (o : LeaseOp) : Decidable (Trusted s c o) :=
  match o with
  | .get (.own _) => inferInstanceAs (Decidable True)
  | .get (.segment batchID index) => inferInstanceAs (Decidable (.segment batchID index ∈ s.doubted → c.fault = .none))
  | .create (.own _) _ => inferInstanceAs (Decidable True)
  | .create (.segment batchID index) _ =>
    inferInstanceAs (Decidable (c.fault = .dropResponse → (s.objects (.segment batchID index)).isSome))
  | .beginUpload _ => inferInstanceAs (Decidable (c.fault ≠ .dropRequest → c.lease ∉ s.begun))
  | .abortUpload _ => inferInstanceAs (Decidable True)
  | .resumeUpload _ => inferInstanceAs (Decidable True)

def memory : LeaseCodec := { backendKind := "memory", fits := fun _ => true }

def activation : Activation := .batch "o" "b" [upload .uploadInitializing false] true

/-- The helper `i` makes its next call. -/
def call (i : Nat) (fault : LeaseFault) (lease : Lease) : Conc.Event leaseMachine Activation := .step i { fault, lease }

def after (events : List (Conc.Event leaseMachine Activation)) :
    Config leaseMachine fun _ : Activation => Except Error (List Lease) :=
  noLeases.run (fun activation => activation.run memory) events

def meeting : List (Conc.Event leaseMachine Activation) :=
  [.spawn activation, .spawn activation, call 0 .none "s", call 1 .none "t", call 0 .none "", call 1 .none "",
    call 1 .none "", call 1 .none "", call 1 .none ""]

theorem meeting_kept : (after meeting).state.revoked = ["t"] ∧ (after meeting).state.begun = ["t", "s"] ∧
    ∀ k lease, (after meeting).state.StoredAt k lease → lease ∉ (after meeting).state.revoked := by
  refine ⟨by decide +kernel, by decide +kernel, durable_leases_kept memory (Reach.of_run ?_)⟩
  have htest : ∀ s c o, decide (Trusted s c o) = true → trustedPolicy.step s c o := fun s c o h =>
    of_decide_eq_true (p := Trusted s c o) h
  refine Policy.MeetsAll.of_stepsPass (fun s c o => decide (Trusted s c o)) htest ?_ (by decide +kernel)
  intro e _ hstep cfg
  cases e with
  | spawn c => trivial
  | step i c => exact absurd rfl (hstep i c)
  | drift d => trivial

def lostResponse : List (Conc.Event leaseMachine Activation) :=
  [.spawn activation, call 0 .none "s", call 0 .dropResponse "", call 0 .none ""]

def lostRead : List (Conc.Event leaseMachine Activation) :=
  [.spawn activation, call 0 .none "s", call 0 .repeated "", call 0 .dropRequest "", call 0 .none ""]

/-- A provider that hands out the same lease to two helpers of one upload; the second stores it after the
first found nothing stored. -/
def sharedSession : List (Conc.Event leaseMachine Activation) :=
  [.spawn (.single "u" true), .spawn (.single "u" true), call 0 .none "s", call 0 .dropRequest "", call 0 .none "",
    call 1 .none "s", call 1 .none "", call 0 .none ""]

theorem stored_lease_revoked :
    (∀ events ∈ [lostResponse, lostRead], (after events).state.StoredAt (.segment "b" 0) "s" ∧
      "s" ∈ (after events).state.revoked) ∧
      (after sharedSession).state.StoredAt (.own "u") "s" ∧ "s" ∈ (after sharedSession).state.revoked := by
  have hsegment : ∀ events ∈ [lostResponse, lostRead],
      ((after events).state.objects (.segment "b" 0)).map (leasesIn (.segment "b" 0)) = some ["s"] ∧
        (after events).state.revoked = ["s"] := by decide +kernel
  refine ⟨fun events hevents => ?_, ⟨"s", by decide +kernel, by decide⟩, by decide +kernel⟩
  obtain ⟨hstored, hrevoked⟩ := hsegment events hevents
  obtain ⟨value, hvalue, hleases⟩ := Option.map_eq_some_iff.mp hstored
  exact ⟨⟨value, hvalue, by simp [hleases]⟩, by simp [hrevoked]⟩

end Batch

end EndlessFS
