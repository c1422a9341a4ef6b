import EndlessFS.Domain.Window

/-!
# EndlessFS.Domain.Catalog

The catalog names every domain that is in use, and freezing it fixes the set of domains (`portable/domain_catalog.go`).

* `freezeCatalog`, `freezeDomains`, `unfreezeCatalog`: the programs over the catalog.
* `CompleteInv`: a registered head is named by a catalog that was stored, and the stored catalogs follow from each
  other.
* `catalog_complete`: what holds in every interleaving of these programs with the calls of the domain store.
-/

namespace EndlessFS

open List
open Conc (Store Write Config Event Policy Reach)

/-! ## Programs -/

/-- `domainCatalog.entries`. The keys of the catalog are in the order of kinds and IDs already. -/
def catalogEntries (head : CatalogHead) : Except Error (List DomainRef) := do
  rejectIf (!head.root.entries.all fun entry => catalogEntryKey entry.2 = entry.1)
    (newError .invalid "invalid consistency-domain catalog entry")
  pure (head.root.entries.map Prod.snd)

/-- The loop of `domainCatalog.freeze`. -/
def freezeCatalogLoop (epoch : Nat) : Nat → Action (List DomainRef)
  | 0 => throw outOfFuel
  | fuel + 1 => do
    let snapshot ← loadCatalog .plain
    if snapshot.head.freezeEpoch ≠ 0 then
      rejectIf (snapshot.head.freezeEpoch ≠ epoch)
        (newError .conflict "consistency-domain catalog is frozen at another epoch")
      catalogEntries snapshot.head
    else
      let next := { snapshot.head with revision := snapshot.head.revision + 1, freezeEpoch := epoch }
      match ← attempt (publishCatalog snapshot next) with
      | .ok _ => catalogEntries next
      | .error e => if e.isRace then freezeCatalogLoop epoch fuel else throw e

/-- `domainCatalog.freeze`. -/
def freezeCatalog (fuel epoch : Nat) : Action (List DomainRef) := do
  rejectIf (epoch = 0) (newError .invalid "invalid consistency-domain catalog freeze epoch")
  freezeCatalogLoop epoch fuel

/-- `for _, entry := range entries`, up to the first error. -/
def eachDomain (act : DomainRef → Action Unit) : List DomainRef → Action Unit
  | [] => pure ()
  | ref :: rest => do
    act ref
    eachDomain act rest

def freezeEntry (codec : Codec) (fuel epoch : Nat) (ref : DomainRef) : Action Unit := do
  match ← attempt (freeze codec fuel ref epoch) with
  | .ok _ => return ()
  | .error e => throw { newError e.kind ("freeze registered consistency domain " ++ ref.id) with pending := e.pending }

/-- `domainCatalog.freezeDomains`. -/
def freezeDomains (codec : Codec) (fuel epoch : Nat) : Action (List DomainRef) := do
  let refs ← freezeCatalog fuel epoch
  eachDomain (freezeEntry codec fuel epoch) refs
  return refs

/-- The loop of `domainCatalog.unfreeze`. -/
def unfreezeCatalogLoop (codec : Codec) (epoch : Nat) : Nat → Action Unit
  | 0 => throw outOfFuel
  | fuel + 1 => do
    let snapshot ← loadCatalog (.unfreezeCatalog epoch)
    if snapshot.head.freezeEpoch = 0 then return ()
    else
      rejectIf (snapshot.head.freezeEpoch ≠ epoch)
        (newError .conflict "consistency-domain catalog is frozen at another epoch")
      let refs ← catalogEntries snapshot.head
      eachDomain (fun ref => unfreeze codec fuel ref epoch) refs
      let next := { snapshot.head with revision := snapshot.head.revision + 1, freezeEpoch := 0 }
      match ← attempt (publishCatalog snapshot next) with
      | .ok _ => return ()
      | .error e => if e.isRace then unfreezeCatalogLoop codec epoch fuel else throw e

/-- `domainCatalog.unfreeze`. -/
def unfreezeCatalog (codec : Codec) (fuel epoch : Nat) : Action Unit := do
  rejectIf (epoch = 0) (newError .invalid "invalid consistency-domain catalog freeze epoch")
  unfreezeCatalogLoop codec epoch fuel

inductive CatalogCall where
  | domain (call : DomainCall)
  | prepareRegistration (ref : DomainRef)
  | freeze (epoch : Nat)
  | freezeDomains (epoch : Nat)
  | unfreeze (epoch : Nat)

inductive CatalogReply where
  | domain (reply : DomainReply)
  | entries (refs : List DomainRef)
  | done
  deriving DecidableEq

def CatalogCall.action (codec : Codec) (fuel : Nat) : CatalogCall → Action CatalogReply
  | .domain call => do return .domain (← call.action codec fuel)
  | .prepareRegistration ref => do let _ ← EndlessFS.prepareRegistration codec fuel ref; return .done
  | .freeze epoch => do return .entries (← freezeCatalog fuel epoch)
  | .freezeDomains epoch => do return .entries (← EndlessFS.freezeDomains codec fuel epoch)
  | .unfreeze epoch => do unfreezeCatalog codec fuel epoch; return .done

abbrev CatalogConfig := Config bucketMachine (fun _ : CatalogCall => Except Error CatalogReply)

abbrev CatalogEvent := Event bucketMachine CatalogCall

def runCatalog (codec : Codec) (fuel : Nat) (events : List CatalogEvent) : CatalogConfig :=
  Config.run (fun call => (call.action codec fuel).run) { state := Store.empty, pool := [] } events

/-! ## Histories of the catalog -/

variable {codec : Codec} {s t : Bucket} {ref : DomainRef} {epoch : Nat} {log : List (Site × Nat)}
  {w c : Write Site CatalogHead} {newer older : List (Write Site CatalogHead)}

/-- The catalogs that were stored, newest first. What replaces a frozen one was written by an `unfreeze` of its epoch
that has read it. -/
def CatalogLinear (log : List (Site × Nat)) : List (Write Site CatalogHead) → Prop
  | [] => True
  | [w] => CatalogStep {} w.value
  | w' :: w :: rest => CatalogStep w.value w'.value ∧
    (w.value.freezeEpoch ≠ 0 → (Site.unfreezeCatalog w.value.freezeEpoch, w.version) ∈ log) ∧
      CatalogLinear log (w :: rest)

theorem CatalogLinear.mono {log' : List (Site × Nat)} {writes : List (Write Site CatalogHead)}
    (h : CatalogLinear log writes) (hlog : log ⊆ log') : CatalogLinear log' writes := by
  induction writes with
  | nil => trivial
  | cons w' rest ih =>
    cases rest with
    | nil => exact h
    | cons w rest => exact ⟨h.1, fun hfrozen => hlog (h.2.1 hfrozen), ih h.2.2⟩

theorem CatalogLinear.of_append (h : CatalogLinear log (newer ++ older)) : CatalogLinear log older := by
  induction newer with
  | nil => exact h
  | cons w newer ih =>
    rw [cons_append] at h
    cases hrest : newer ++ older with
    | nil => exact ih (hrest ▸ trivial)
    | cons v rest =>
      rw [hrest] at h
      exact ih (hrest ▸ h.2.2)

variable {head next : CatalogHead} {key : CatalogKey}

theorem CatalogStep.get (h : CatalogStep head next) {entry : DomainRef}
    (hget : head.root.get key = some entry) : next.root.get key = some entry := by
  cases h with
  | freeze => exact hget
  | unfreeze => exact hget
  | register absent =>
    rw [SortedMap.get_set, if_neg fun heq => ?_]
    · exact hget
    · rw [heq, hget] at absent
      cases absent

theorem CatalogLinear.get (h : CatalogLinear log (w :: older)) (hc : c ∈ w :: older) {entry : DomainRef}
    (hget : c.value.root.get key = some entry) : w.value.root.get key = some entry := by
  induction older generalizing w with
  | nil => exact mem_singleton.mp hc ▸ hget
  | cons v older ih =>
    rcases mem_cons.mp hc with rfl | hc
    · exact hget
    · exact h.1.get (ih h.2.2 hc)

theorem CatalogLinear.newest (h : CatalogLinear log (newer ++ c :: older)) (hfrozen : c.value.freezeEpoch ≠ 0)
    (hunread : (Site.unfreezeCatalog c.value.freezeEpoch, c.version) ∉ log) : newer = [] := by
  rcases eq_nil_or_concat newer with rfl | ⟨newer, v, rfl⟩
  · rfl
  · rw [concat_eq_append, append_assoc] at h
    exact absurd (h.of_append.2.1 hfrozen) hunread

theorem Linear.newest {newer older : List (Write Site DomainHead)} {w : Write Site DomainHead}
    (h : Linear codec ref (newer ++ w :: older)) (hreg : w.value.registered = true) (hfrozen : w.value.frozen = true)
    (hnewer : ∀ w' ∈ newer, w'.site ≠ .unfreezeHead w.value.freezeEpoch) : newer = [] := by
  rcases eq_nil_or_concat newer with rfl | ⟨newer, v, rfl⟩
  · rfl
  · rw [concat_eq_append, append_assoc] at h
    obtain ⟨⟨action, hstep, -, hsite⟩, -⟩ := linear_consecutive h
    have hne := hnewer v (by simp)
    have hthawed : w.value.frozen ≠ false := by simp [hfrozen]
    generalize v.value = next at hstep
    cases hstep with
    | register unregistered => exact absurd hreg (by simp [unregistered])
    | freeze _ _ thawed => exact absurd thawed hthawed
    | unfreeze _ bound => exact absurd (hsite.trans (congrArg Site.unfreezeHead bound.symm)) hne
    | compact thawed => exact absurd thawed hthawed
    | append _ _ _ _ admitted => exact absurd (admitMutation_ok admitted).thawed hthawed
    | materialize _ _ _ _ _ admitted => exact absurd (admitMutation_ok admitted).thawed hthawed

theorem HeadAction.Step.fresh {action : HeadAction} {head next : DomainHead} (h : action.Step codec ref head next)
    (hhead : head.registered = false → head.revision = 0) (hnext : next.registered = false) : next.revision = 0 := by
  cases h with
  | register => cases hnext
  | append => cases hnext
  | freeze => exact hhead hnext
  | unfreeze => exact hhead hnext
  | compact _ folded =>
    obtain ⟨_, _, -, rfl⟩ := compactHead_ok folded
    exact hhead hnext
  | materialize _ _ _ registered _ _ folded =>
    obtain ⟨_, _, -, rfl⟩ := materializedHead_ok folded
    exact absurd (registered.symm.trans hnext) (by decide)

/-! ## The invariant -/

def Accounted (s : Bucket) (ref : DomainRef) (head : DomainHead) : Prop :=
  (head.registered = true → Catalogued s ref) ∧ (head.registered = false → head.revision = 0)

structure CompleteInv (codec : Codec) (s : Bucket) : Prop extends Histories codec s where
  heads : ∀ ref, ∀ w ∈ (s.cells (.head ref)).writes, Accounted s ref w.value
  catalogs : CatalogLinear s.log (s.cells .catalog).writes

theorem Accounted.mono {head : DomainHead} (h : Accounted s ref head) (hle : Store.Le s t) : Accounted t ref head :=
  ⟨fun hreg => (h.1 hreg).mono hle, h.2⟩

namespace CompleteInv

section

variable (h : CompleteInv codec s)

include h

theorem current : ((s.cells .catalog).writes = [] ∧ currentCatalog s = {}) ∨
    ∃ w rest, (s.cells .catalog).writes = w :: rest ∧ (s.cells .catalog).version = w.version ∧
      currentCatalog s = w.value := by
  unfold currentCatalog Conc.Cell.version
  cases hc : (s.cells .catalog).current with
  | none => exact .inl ⟨h.undeleted .catalog rfl hc, rfl⟩
  | some p =>
    obtain ⟨w, rest, hw, hversion, hvalue⟩ := (h.wf .catalog).current _ _ hc
    exact .inr ⟨w, rest, hw, hversion.symm, hvalue.symm⟩

theorem entry (hc : c ∈ (s.cells .catalog).writes) {entry : DomainRef}
    (hget : c.value.root.get key = some entry) : (currentCatalog s).root.get key = some entry := by
  rcases h.current with ⟨hnil, -⟩ | ⟨w, rest, hwrites, -, hcurrent⟩
  · rw [hnil] at hc
    cases hc
  · have hcatalogs := h.catalogs
    rw [hwrites] at hc hcatalogs
    exact hcurrent ▸ hcatalogs.get hc hget

theorem write_catalog (hstep : CatalogStep (currentCatalog s) next) (hread : (currentCatalog s).freezeEpoch ≠ 0 →
      (Site.unfreezeCatalog (currentCatalog s).freezeEpoch, (s.cells .catalog).version) ∈ s.log) :
    CompleteInv codec (s.write .plain .catalog next) := by
  refine ⟨h.toHistories.write_other _ (fun _ h => by cases h), fun ref w hw => ?_, ?_⟩
  · rw [Store.write_cells_of_ne _ _ (by simp)] at hw
    exact (h.heads ref w hw).mono (Store.le_write _ _ _ _)
  · rw [Store.write_cells_self]
    have hcatalogs := h.catalogs
    rcases h.current with ⟨hnil, hcurrent⟩ | ⟨w, rest, hwrites, hversion, hcurrent⟩
    · rw [hnil]
      rwa [hcurrent] at hstep
    · rw [hwrites] at hcatalogs ⊢
      rw [hcurrent] at hstep hread
      exact ⟨hstep, fun hfrozen => hversion ▸ hread hfrozen, hcatalogs⟩

theorem write_head {Legit : Bucket → DomainRef → Mutation → Prop} {site : Site} {next : DomainHead}
    (hw : HeadWrite codec Legit s site ref next) : CompleteInv codec (s.write site (.head ref) next) := by
  have hle := Store.le_write s site (.head ref) next
  have hnew : Accounted s ref next := by
    cases hw with
    | create => exact ⟨(fun hreg => nomatch hreg), fun _ => rfl⟩
    | action writes current step within encodes legit entered =>
      refine ⟨fun hreg => ?_, step.fresh (h.heads ref _ (writes ▸ mem_cons_self)).2⟩
      rcases entered hreg with ⟨v, hv, hreg⟩ | hcat
      · exact (h.heads ref v hv).1 hreg
      · exact hcat
  refine ⟨h.toHistories.write_head hw, fun ref' w hw' => ?_, ?_⟩
  · rcases mem_writes_head hw' with hold | ⟨rfl, hvalue, -⟩
    · exact (h.heads ref' w hold).mono hle
    · exact hvalue ▸ hnew.mono hle
  · rw [Store.write_cells_of_ne _ _ (by simp)]
    exact h.catalogs

end

end CompleteInv

def catalogProtocol (codec : Codec) : Protocol codec where
  Inv := CompleteInv codec
  ok := fun _ _ _ => True
  Legit := fun _ _ _ => True
  legit_mono := fun _ h => h
  wf := fun h => h.wf
  linear := fun h => h.linear
  undeleted := fun h => h.undeleted
  head := fun h _ hw _ => h.write_head hw
  register := fun h hhead habsent hthawed _ => by
    subst hhead
    exact h.write_catalog (.register habsent hthawed) fun hfrozen => absurd hthawed hfrozen
  note := fun s read h => ⟨⟨h.wf, h.linear, h.undeleted⟩, h.heads, h.catalogs.mono (List.subset_cons_self _ _)⟩

/-- A catalog was frozen at this epoch, and the domains it names are among `refs`. -/
def FrozenCatalog (s : Bucket) (epoch : Nat) (refs : List DomainRef) : Prop :=
  epoch ≠ 0 ∧ ∃ c ∈ (s.cells .catalog).writes, c.value.freezeEpoch = epoch ∧
    ∀ ref, c.value.root.get (catalogEntryKey ref) = some ref → ref ∈ refs

variable {refs : List DomainRef}

theorem FrozenCatalog.mono (h : FrozenCatalog s epoch refs) (hle : Store.Le s t) : FrozenCatalog t epoch refs := by
  obtain ⟨hepoch, c, hc, hfrozen⟩ := h
  exact ⟨hepoch, c, (hle.writes _).subset hc, hfrozen⟩

theorem mem_catalogEntries (h : catalogEntries head = .ok refs)
    (hget : head.root.get (catalogEntryKey ref) = some ref) : ref ∈ refs := by
  obtain ⟨_, -, h⟩ := Except.bind_ok h
  cases h
  exact mem_map_of_mem (f := Prod.snd) (SortedMap.get_eq_some_iff.mp hget)

/-! ## The programs keep it -/

variable {fuel : Nat}

theorem eachDomain_ensures (P : Protocol codec) {act : DomainRef → Action Unit} {φ : Bucket → DomainRef → Prop}
    (hmono : ∀ {s t ref}, φ s ref → Store.Le s t → φ t ref)
    (hact : ∀ s ref, Ensures P.Inv P.ok (fun _ => True) (fun t _ => φ t ref) (act ref) s) (refs : List DomainRef)
    (s : Bucket) :
    Ensures P.Inv P.ok (fun _ => True) (fun t _ => ∀ ref ∈ refs, φ t ref) (eachDomain act refs) s := by
  induction refs generalizing s with
  | nil => exact .pure fun _ _ _ _ h => nomatch h
  | cons ref rest ih =>
    refine .bind (hact s ref) fun s₁ _ _ _ hfirst => (ih s₁).weaken fun t _ hle _ hrest => ?_
    exact forall_mem_cons.mpr ⟨hmono hfirst hle, hrest⟩

theorem CatalogSnapshot.Valid.mono {snapshot : CatalogSnapshot} (h : snapshot.Valid s) (hle : Store.Le s t) :
    snapshot.Valid t := by
  obtain ⟨head, version⟩ := snapshot
  cases version with
  | none => exact h
  | some version => exact Store.Seen.mono h hle

theorem freezeCatalog_ensures (hepoch : epoch ≠ 0) :
    Ensures (CompleteInv codec) (fun _ _ _ => True) (fun _ => True) (fun t refs => FrozenCatalog t epoch refs)
      (freezeCatalogLoop epoch fuel) s := by
  induction fuel generalizing s with
  | zero => exact .throw trivial
  | succ fuel ih =>
    refine .bind ((catalogProtocol codec).loadCatalog trivial) fun s₁ snapshot _ _ hs => ?_
    split
    · rename_i hfrozen
      refine .rejectIf_bind (fun _ => trivial) fun hat => .except (fun _ _ => trivial) fun refs hrefs t ht _ => ?_
      obtain ⟨head, version⟩ := snapshot
      cases version with
      | none => exact absurd (congrArg CatalogHead.freezeEpoch (show head = {} from hs.1)) hfrozen
      | some version =>
        obtain ⟨c, hc, -, rfl⟩ := Store.Seen.mono hs.1 ht
        exact ⟨hepoch, c, hc, by simpa using hat, fun _ => mem_catalogEntries hrefs⟩
    · rename_i hthawed
      have hthawed : snapshot.head.freezeEpoch = 0 := by simpa using hthawed
      refine .bind (.attempt ((catalogProtocol codec).publishCatalog hs.1 fun u _ hI hcurrent _ => ?_))
        fun s₂ r _ _ hr => ?_
      · rw [← hcurrent] at hthawed ⊢
        exact CompleteInv.write_catalog hI (.freeze hthawed hepoch) fun hfrozen => absurd hthawed hfrozen
      cases r with
      | ok _ =>
        obtain ⟨c, hc, hvalue⟩ := hr
        refine .except (fun _ _ => trivial) fun refs hrefs t ht _ => ?_
        exact ⟨hepoch, c, (ht.writes _).subset hc, by rw [hvalue], fun _ hget => mem_catalogEntries hrefs
          (hvalue ▸ hget)⟩
      | error e =>
        dsimp only
        split
        · exact ih
        · exact .throw trivial

theorem unfreezeCatalog_ensures : Ensures (CompleteInv codec) (fun _ _ _ => True) (fun _ => True) (fun _ _ => True)
      (unfreezeCatalogLoop codec epoch fuel) s := by
  induction fuel generalizing s with
  | zero => exact .throw trivial
  | succ fuel ih =>
    refine .bind ((catalogProtocol codec).loadCatalog trivial) ?_
    rintro s₁ snapshot - - ⟨hs, u, -, -, hversion, -, hlog⟩
    split
    · exact .pure fun _ _ _ => trivial
    rename_i hfrozen
    refine .rejectIf_bind (fun _ => trivial) fun hat => .except_bind (fun _ _ => trivial) fun refs _ => ?_
    refine .bind (eachDomain_ensures (catalogProtocol codec) (φ := fun _ _ => True) (fun h _ => h)
      (fun _ _ => (catalogProtocol codec).unfreeze) refs s₁) fun s₂ _ hle _ _ => ?_
    refine .bind (.attempt ((catalogProtocol codec).publishCatalog (CatalogSnapshot.Valid.mono hs hle)
      fun v hv hI hcurrent hsame => ?_)) fun s₃ r _ _ _ => ?_
    · -- the version that is replaced is the one that was read
      have hread : (v.cells .catalog).version = (u.cells .catalog).version := by
        rw [Conc.Cell.version, hsame, hversion, Conc.Cell.version]
      rw [← hcurrent] at hfrozen hat ⊢
      refine CompleteInv.write_catalog hI (.unfreeze hfrozen) fun _ => ?_
      rw [show (currentCatalog v).freezeEpoch = epoch by simpa using hat, hread]
      exact (hlog.trans (hle.trans hv)).log.subset (.head _)
    cases r with
    | ok _ => exact .pure fun _ _ _ => trivial
    | error e =>
      dsimp only
      split
      · exact ih
      · exact .throw trivial

theorem freezeDomains_ensures : Ensures (CompleteInv codec) (fun _ _ _ => True) (fun _ => True)
      (fun t refs => FrozenCatalog t epoch refs ∧ ∀ ref ∈ refs, Protocol.FrozenAt t ref epoch)
      (freezeDomains codec fuel epoch) s := by
  refine .bind (φ := fun t refs => FrozenCatalog t epoch refs) ?_ fun s₁ refs _ _ hcatalog => ?_
  · refine .rejectIf_bind (fun _ => trivial) fun hepoch => freezeCatalog_ensures (by simpa using hepoch)
  refine .bind (eachDomain_ensures (catalogProtocol codec) (φ := fun t ref => Protocol.FrozenAt t ref epoch)
    (fun h hle => h.mono hle) (fun s ref => ?_) refs s₁) fun s₂ _ hle _ hall =>
    .pure fun t ht _ => ⟨hcatalog.mono (hle.trans ht), fun ref hr => (hall ref hr).mono ht⟩
  refine .bind (.attempt (catalogProtocol codec).freeze) fun s₁ r _ _ hr => ?_
  cases r with
  | ok _ => exact .pure fun _ ht _ => hr.mono ht
  | error e => exact .throw trivial

/-- What a finished `freezeDomains` guarantees. -/
def CatalogCall.Answers (call : CatalogCall) (s : Bucket) (reply : CatalogReply) : Prop :=
  ∀ epoch refs, call = .freezeDomains epoch → reply = .entries refs →
    FrozenCatalog s epoch refs ∧ ∀ ref ∈ refs, Protocol.FrozenAt s ref epoch

theorem CatalogCall.safe (call : CatalogCall) : Ensures (CompleteInv codec) (fun _ _ _ => True) (fun _ => True)
    call.Answers (call.action codec fuel) s := by
  cases call with
  | domain call =>
    exact .bind (call.safe (catalogProtocol codec) fuel fun _ _ _ _ _ => trivial) fun _ _ _ _ _ =>
      .pure fun _ _ _ _ _ h => nomatch h
  | prepareRegistration ref =>
    exact .bind ((catalogProtocol codec).prepareRegistration (.any _ _)) fun _ _ _ _ _ =>
      .pure fun _ _ _ _ _ h => nomatch h
  | freeze epoch =>
    refine .bind (.rejectIf_bind (fun _ => trivial) fun hepoch =>
      freezeCatalog_ensures (by simpa using hepoch)) fun _ _ _ _ _ => .pure fun _ _ _ _ _ h => nomatch h
  | freezeDomains epoch =>
    refine .bind freezeDomains_ensures fun s₁ refs _ _ h => .pure fun t ht _ => ?_
    rintro _ _ ⟨⟩ ⟨⟩
    exact ⟨h.1.mono ht, fun ref hr => (h.2 ref hr).mono ht⟩
  | unfreeze epoch =>
    exact .bind (.rejectIf_bind (fun _ => trivial) fun _ => unfreezeCatalog_ensures) fun _ _ _ _ _ =>
      .pure fun _ _ _ _ _ h => nomatch h

theorem runCatalog_sound (codec : Codec) (fuel : Nat) (events : List CatalogEvent) :
    (runCatalog codec fuel events).Sound (CompleteInv codec) (Policy.any bucketMachine CatalogCall)
      (fun call => posts (fun _ => True) call.Answers) := by
  refine (Reach.run_any _ events).sound ⟨⟨Histories.empty, (fun _ _ hw => nomatch hw), trivial⟩,
    fun t ht => by cases ht⟩ ?_ ?_
  · exact fun s call _ _ => call.safe
  · exact fun s d h _ => ⟨⟨h.wf.advance d, h.linear, h.undeleted⟩, h.heads, h.catalogs⟩

/-! ## Completeness -/

def After (codec : Codec) (fuel : Nat) (events : List CatalogEvent) (s : Bucket) : Prop :=
  ∃ more, s = (runCatalog codec fuel (events ++ more)).state

def InUse (s : Bucket) (ref : DomainRef) : Prop :=
  ∃ version head, (s.cells (.head ref)).current = some (version, head) ∧ (head.registered = true ∨ 0 < head.revision)

def Named (s : Bucket) (ref : DomainRef) : Prop := (currentCatalog s).root.get (catalogEntryKey ref) = some ref

theorem After.le {fuel : Nat} {events : List CatalogEvent} (h : After codec fuel events t) :
    Store.Le (runCatalog codec fuel events).state t := by
  obtain ⟨more, rfl⟩ := h
  unfold runCatalog Config.run
  rw [foldl_append]
  exact Config.le_run _ more

theorem CompleteInv.named (h : CompleteInv codec s) (huse : InUse s ref) : Named s ref := by
  obtain ⟨version, head, hcurrent, hhead⟩ := huse
  obtain ⟨w, rest, hw, -, rfl⟩ := (h.wf (.head ref)).current _ _ hcurrent
  have haccounted := h.heads ref w (hw ▸ mem_cons_self)
  have hreg : w.value.registered = true := by
    by_contra hreg
    have hzero := haccounted.2 (by simpa using hreg)
    exact hhead.elim hreg (by omega)
  obtain ⟨c, hc, hget⟩ := haccounted.1 hreg
  exact h.entry hc hget

theorem CompleteInv.current_of_unread (h : CompleteInv codec s) (hc : c ∈ (s.cells .catalog).writes)
    (hfrozen : c.value.freezeEpoch ≠ 0) (hunread : (Site.unfreezeCatalog c.value.freezeEpoch, c.version) ∉ s.log) :
    currentCatalog s = c.value := by
  obtain ⟨newer, older, hsplit⟩ := append_of_mem hc
  obtain rfl := (hsplit ▸ h.catalogs : CatalogLinear _ _).newest hfrozen hunread
  rcases h.current with ⟨hnil, -⟩ | ⟨w, rest, hwrites, -, hcurrent⟩
  · rw [hnil] at hc
    cases hc
  · rw [hsplit] at hwrites
    cases hwrites
    exact hcurrent

theorem Histories.current_of_frozen (h : Histories codec s) {w : Write Site DomainHead}
    (hw : w ∈ (s.cells (.head ref)).writes) (hreg : w.value.registered = true) (hfrozen : w.value.frozen = true)
    (hkept : ∀ w' ∈ (s.cells (.head ref)).writes, w.version < w'.version →
      w'.site ≠ .unfreezeHead w.value.freezeEpoch) :
    (s.cells (.head ref)).current = some (w.version, w.value) := by
  obtain ⟨newer, older, hsplit⟩ := append_of_mem hw
  have hordered := (h.wf (.head ref)).ordered
  rw [hsplit, pairwise_append] at hordered
  obtain rfl := (hsplit ▸ h.linear ref : Linear codec ref _).newest hreg hfrozen fun w' hw' =>
    hkept w' (by simp [hsplit, hw']) (hordered.2.2 w' hw' w (.head _)).1
  cases hc : (s.cells (.head ref)).current with
  | none => exact absurd hw (h.undeleted (.head ref) rfl hc ▸ not_mem_nil)
  | some p =>
    obtain ⟨v, rest, hv, hversion, hvalue⟩ := (h.wf (.head ref)).current _ _ hc
    rw [hsplit] at hv
    cases hv
    rw [hversion, hvalue]

/-- A domain in use is named by the catalog at every moment, and entries stay as they are. Once `freezeDomains` has
returned, only domains that it returned are in use until an `unfreeze` of its epoch has read the catalog, and the head
of each of them stays as it was frozen until an `unfreeze` of the epoch replaces it. -/
theorem catalog_complete (codec : Codec) (fuel : Nat) (events : List CatalogEvent) :
    (∀ ref, InUse (runCatalog codec fuel events).state ref → Named (runCatalog codec fuel events).state ref) ∧
    (∀ s, After codec fuel events s → ∀ key entry,
      (currentCatalog (runCatalog codec fuel events).state).root.get key = some entry →
      (currentCatalog s).root.get key = some entry) ∧
    ∀ task ∈ (runCatalog codec fuel events).pool, ∀ epoch refs, task.call = .freezeDomains epoch →
      task.prog.result = some (.ok (.entries refs)) →
      (∃ c ∈ ((runCatalog codec fuel events).state.cells .catalog).writes, c.value.freezeEpoch = epoch ∧
        ∀ s, After codec fuel events s → (Site.unfreezeCatalog epoch, c.version) ∉ s.log → ∀ ref, InUse s ref →
        ref ∈ refs) ∧
      ∀ ref ∈ refs, ∃ w ∈ ((runCatalog codec fuel events).state.cells (.head ref)).writes,
        w.value.frozen = true ∧ w.value.freezeEpoch = epoch ∧ ∀ s, After codec fuel events s →
          (∀ w' ∈ (s.cells (.head ref)).writes, w.version < w'.version → w'.site ≠ .unfreezeHead epoch) →
          (s.cells (.head ref)).current = some (w.version, w.value) := by
  have hsound := runCatalog_sound codec fuel events
  have hafter : ∀ {s}, After codec fuel events s → CompleteInv codec s := by
    rintro s ⟨more, rfl⟩
    exact (runCatalog_sound codec fuel (events ++ more)).state
  refine ⟨fun ref => hsound.state.named, fun s hs key entry hget => ?_, fun task ht epoch refs hcall hresult => ?_⟩
  · rcases hsound.state.current with ⟨-, hcurrent⟩ | ⟨w, rest, hwrites, -, hcurrent⟩
    · rw [hcurrent] at hget
      cases hget
    · refine (hafter hs).entry ((hs.le.writes _).subset (hwrites ▸ List.mem_cons_self)) ?_
      rwa [← hcurrent]
  · obtain ⟨⟨hepoch, c, hc, rfl, hrefs⟩, hheads⟩ := hsound.result ht hresult epoch refs hcall rfl
    refine ⟨⟨c, hc, rfl, fun s hs hunread ref huse => hrefs ref ?_⟩, fun ref hr => ?_⟩
    · have hnamed := (hafter hs).named huse
      rwa [Named, (hafter hs).current_of_unread ((hs.le.writes _).subset hc) hepoch hunread] at hnamed
    · obtain ⟨w, hw, hreg, hfrozen, hat⟩ := hheads ref hr
      refine ⟨w, hw, hfrozen, hat, fun s hs hkept => ?_⟩
      rw [← hat] at hkept
      exact (hafter hs).current_of_frozen ((hs.le.writes _).subset hw) hreg hfrozen hkept

def Racing.freezing : List CatalogEvent :=
  [.drift 1, .spawn (.domain (.ensureRegistered racingRef)), .spawn (.freezeDomains 1)] ++
    List.replicate 5 (.step 0 .none) ++ List.replicate 9 (.step 1 .none)

/-- The freeze returns the domain, which is named from then on. -/
theorem Racing.freezing_named :
    ((runCatalog short 5 freezing).pool.map fun t => t.prog.result).getLast? =
    some (some (.ok (.entries [racingRef]))) ∧
    ∀ s, After short 5 freezing s → Named s racingRef := by
  refine ⟨by decide +kernel, fun s hs => (catalog_complete short 5 freezing).2.1 s hs _ _ ?_⟩
  decide +kernel

end EndlessFS
