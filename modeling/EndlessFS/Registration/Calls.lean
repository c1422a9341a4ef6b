import EndlessFS.Registration.History

/-!
# EndlessFS.Registration.Calls

Every call of the services commits only transactions as specified (`CommitSpec`), whatever happens between
its operations: what a transaction was prepared from is still there if the versions it requires are.

* `Recorded`: the rules for the reads and checks of the programs.
* `Recorded.commitRegistrationAtomic`, `Recorded.commitAuthenticationAtomic`: the transactions that consume.
* `history_of_reachable`: the rule for whole runs.
-/

namespace EndlessFS.Registration

open Except List Registration
open Conc (Versioned Yields Reading Ledger History)
open Identity (UserID encodeRoles reject)

/-! ## Specifications of whole transactions -/

variable {changes : List RecordChange} {before : Records}

theorem CommitSpec.of_each {label : Label}
    (admitted : before.admits changes = true) (each : ∀ change ∈ changes, ChangeSpec (some label) before change)
    (hcredentials : credentialChanges changes = [])
    (haccounts : ∀ userID record, createRecord (.account userID) record ∉ changes)
    (hlabel : label.consumes = false) : CommitSpec before (some label) changes where
  admitted := admitted
  each := each
  credentials := hcredentials ▸ .none
  accounts userID record h := absurd h (haccounts userID record)
  bootstrap snapshot h := by
    cases h
    cases hlabel
  consumed kind h hkind := by
    cases h
    cases hlabel.symm.trans hkind

theorem firstAccount_of_touched {log : List Entry} {records : Records} (h : History CommitSpec log records)
    (htouched : ∃ e ∈ log, e.Touches .firstAccount) : records.cell .firstAccount ≠ none := by
  obtain ⟨e, he, change, hmem, hk⟩ := htouched
  have hstep : ∀ (before : Records) label changes, CommitSpec before label changes →
      ((∃ change ∈ changes, change.key = .firstAccount) ∨ before.cell .firstAccount ≠ none) →
      (before.commit changes).cell .firstAccount ≠ none := by
    intro before label changes hspec hbefore
    rcases Conc.overwrite_cases before.next changes before.cell .firstAccount with ⟨hnone, hcell⟩ | ⟨change, hmem,
      hk, hcell⟩
    · rcases hbefore with ⟨change, hmem, hk⟩ | hbefore
      · exact absurd hk (hnone change hmem)
      · exact fun h => hbefore (hcell.symm.trans h)
    · obtain ⟨record, rfl⟩ := (hspec.each change hmem).at_firstAccount hk
      exact fun h => nomatch hcell.symm.trans h
  obtain ⟨_, _, hspec⟩ := h.of_mem he
  exact h.persists (P := fun records : Records => records.cell Key.firstAccount ≠ none)
    (fun before label changes hspec hbefore => hstep before label changes hspec (.inr hbefore)) he
    (hstep _ _ _ hspec (.inl ⟨change, hmem, hk⟩))

theorem CommitSpec.of_foreign (hforeign : foreign changes = true)
    (hadmits : before.admits changes = true) : CommitSpec before none changes := by
  have heach : ∀ change ∈ changes, foreignChange change = true := all_eq_true.mp hforeign
  refine ⟨hadmits, fun change hmem => ?_, ?_, fun userID record hmem => ?_, by simp, by simp⟩
  · have h := heach change hmem
    obtain ⟨key, require, value⟩ := change
    cases key with
    | adminRoles =>
      match require, value, h with
      | some version, some roles, _ => exact .roles version roles
    | account userID =>
      match require, value, h with
      | some version, some record, _ => exact .account userID version record
    | profile userID => exact .plain rfl
    | session userID operationID => exact .plain rfl
    | _ => cases h
  · have hnone : credentialChanges changes = [] := by
      refine filter_eq_nil_iff.mpr fun change hmem h => ?_
      have hmay := heach change hmem
      obtain ⟨key, require, value⟩ := change
      cases key <;> first | cases h; done | cases hmay
    exact hnone ▸ .none
  · cases heach _ hmem

/-! ## The transaction of a registration -/

variable {now : Time} {ceremony : Ceremony} {version : Nat} {operation : RegistrationOperation}
  {indexChange : RecordChange} {marker : Option (Reading FirstAccountMarker)} {fc : FlowChanges}

theorem mem_registrationChanges_ceremony : setRecord (.ceremony (some operation.userID) ceremony.ceremonyID) version
    ceremony ∈
      registrationChanges now ceremony version operation indexChange marker fc := by
  simp [registrationChanges, ownChanges]

theorem mem_registrationChanges_index :
    indexChange ∈ registrationChanges now ceremony version operation indexChange marker fc := by
  simp [registrationChanges, ownChanges]

theorem mem_registrationChanges_marker :
    ∃ record, createRecord .firstAccount record ∈ registrationChanges now ceremony version operation indexChange
    none fc :=
  ⟨_, mem_append_left _ (mem_append_right _ (.head _))⟩

variable {change : RecordChange} {flow : CeremonyFlow}

theorem mem_accountChanges (h : change ∈ accountChanges operation flow) :
    (∃ record, change = createRecord (.profile operation.userID) record) ∨
      ∃ record, change = createRecord (.account operation.userID) record := by
  unfold accountChanges at h
  split at h
  · simp only [mem_cons, not_mem_nil, or_false] at h
    rcases h with rfl | rfl
    · exact .inl ⟨_, rfl⟩
    · exact .inr ⟨_, rfl⟩
  · cases h

theorem mem_markerChanges (h : change ∈ markerChanges now operation flow marker) :
    ∃ record, change = createRecord .firstAccount record := by
  unfold markerChanges at h
  split at h
  · cases h
  · exact ⟨_, mem_singleton.mp h⟩

theorem mem_registrationChanges (h : change ∈ registrationChanges now ceremony version operation indexChange
      marker fc) :
    change ∈ ownChanges ceremony version operation indexChange ∨
      (∃ record, change = createRecord (.profile operation.userID) record) ∨
      (∃ record, change = createRecord (.account operation.userID) record) ∨
      (∃ record, change = createRecord .firstAccount record) ∨ change ∈ fc.changes := by
  simp only [registrationChanges, mem_append] at h
  rcases h with ((h | h) | h) | h
  · exact .inl h
  · exact .inr ((mem_accountChanges h).imp_right .inl)
  · exact .inr (.inr (.inr (.inl (mem_markerChanges h))))
  · exact .inr (.inr (.inr (.inr h)))

theorem credentialChanges_registration (hkey : indexChange.key = .credentialIndex operation.userID)
    (hfc : credentialChanges fc.changes = []) :
    credentialChanges (registrationChanges now ceremony version operation indexChange marker fc) =
      [createRecord (.credential operation.userID operation.credential.credentialID) operation.credential,
        indexChange] := by
  have haccount : credentialChanges (accountChanges operation ceremony.flow) = [] := by
    unfold accountChanges
    split <;> rfl
  have hmarker : credentialChanges (markerChanges now operation ceremony.flow marker) = [] := by
    unfold markerChanges
    split <;> rfl
  have hown : credentialChanges (ownChanges ceremony version operation indexChange) =
      [createRecord (.credential operation.userID operation.credential.credentialID) operation.credential,
        indexChange] := by
    simp [credentialChanges, ownChanges, hkey, Key.ofCredentials, createRecord, setRecord]
  unfold credentialChanges at *
  simp only [registrationChanges, filter_append, haccount, hmarker, hown, hfc, append_nil]

/-- A registration is as specified if its parts are. -/
theorem CommitSpec.registration
    (hadmits : before.admits (registrationChanges now ceremony version operation indexChange marker fc) = true)
    (hceremony : ChangeSpec (some (.registration ceremony.flow fc.snapshot)) before
      (setRecord (.ceremony (some operation.userID) ceremony.ceremonyID) version ceremony))
    (howner : operation.credential.userID = operation.userID)
    (hindexKey : indexChange.key = .credentialIndex operation.userID)
    (hindex : ChangeSpec (some (.registration ceremony.flow fc.snapshot)) before indexChange)
    (hcredentials : CredentialEffect before
      [createRecord (.credential operation.userID operation.credential.credentialID) operation.credential, indexChange])
    (hmarked : marker = none ∨ before.cell .firstAccount ≠ none)
    (hfirst : ceremony.flow = .ceremonyBootstrap → marker = none)
    (heach : ∀ change ∈ fc.changes, ChangeSpec (some (.registration ceremony.flow fc.snapshot)) before change)
    (hfc : credentialChanges fc.changes = []) (haccounts : ∀ userID record, createRecord (.account userID) record ∉
      fc.changes)
    {ceremonyID : CeremonyID} {read : Ceremony} (hconsumed : Consumed before (.registration ceremony.flow fc.snapshot)
      (registrationChanges now ceremony version operation indexChange marker fc) ceremonyID read) :
    CommitSpec before (some (.registration ceremony.flow fc.snapshot))
      (registrationChanges now ceremony version operation indexChange marker fc) := by
  refine ⟨hadmits, fun change hmem => ?_, ?_, fun userID record hmem => ?_, fun snapshot hlabel => ?_,
    fun kind hlabel _ => ?_⟩
  · rcases mem_registrationChanges hmem with hmem | ⟨_, rfl⟩ | ⟨_, rfl⟩ | ⟨_, rfl⟩ | hmem
    · simp only [ownChanges, mem_cons, not_mem_nil, or_false] at hmem
      rcases hmem with rfl | rfl | rfl | rfl
      · exact hceremony
      · exact .plain rfl
      · refine .credential rfl fun record hrecord => ?_
        cases hrecord
        exact ⟨rfl, howner⟩
      · exact hindex
    · exact .plain rfl
    · exact .newAccount _ _
    · exact .marker _
    · exact heach change hmem
  · exact credentialChanges_registration hindexKey hfc ▸ hcredentials
  · have hself : userID = operation.userID := by
      rcases mem_registrationChanges hmem with hmem | ⟨_, h⟩ | ⟨_, h⟩ | ⟨_, h⟩ | hmem
      · simp only [ownChanges, mem_cons, not_mem_nil, or_false] at hmem
        rcases hmem with h | h | h | rfl
        · cases h
        · cases h
        · cases h
        · cases hindexKey
      · cases h
      · cases h
        rfl
      · cases h
      · exact absurd hmem (haccounts userID record)
    refine ⟨⟨indexChange, mem_registrationChanges_index, hself ▸ hindexKey⟩, ?_⟩
    rcases hmarked with rfl | hpresent
    · exact .inr mem_registrationChanges_marker
    · exact .inl hpresent
  · have hflow : ceremony.flow = .ceremonyBootstrap := by
      injection hlabel with hlabel
      injection hlabel
    obtain rfl := hfirst hflow
    exact mem_registrationChanges_marker
  · cases hlabel
    exact ⟨ceremonyID, read, hconsumed⟩

/-! ## Reads and checks -/

variable {ok : State → Conc.LedgerChoice → Conc.LedgerOp Key Record Label → Prop} {α β : Type}

/-- The program commits transactions as specified only; `φ` holds of its result. -/
abbrev Recorded (ok : State → Conc.LedgerChoice → Conc.LedgerOp Key Record Label → Prop) (φ : State → α → Prop)
    (a : Request α) (s : State) : Prop :=
  Conc.Logged foreign CommitSpec ok φ a s

abbrev Knows (s : State) (key : Key) (r : Reading (Record key)) : Prop := Ledger.Knows CommitSpec 0 s key r

variable {key : Key}

theorem Knows.filed {s : State} {r : Reading (Record key)} (h : Knows s key r) : Filed key r.value := by
  obtain ⟨log, records, hhistory, _, hcell⟩ := h.source
  exact filed_of_history hhistory hcell

namespace Recorded

variable {φ : State → α → Prop} {ψ : State → β → Prop} {s : State}

theorem lookup : Recorded ok (fun t found => ∀ r, found = some r → Knows t key r) (lookup key) s := by
  refine .get fun t reply x _ hknows hx r hr => ?_
  cases reply with
  | none => cases hx
  | some found =>
    cases hx
    exact hknows r (congrArg some hr)

theorem getRecord : Recorded ok (fun t r => Knows t key r) (getRecord key) s := by
  refine .get fun t reply x _ hknows hx => ?_
  rcases reply with _ | _ | found
  · cases hx
  · cases hx
  · cases hx
    exact hknows _ rfl

theorem clockNow : Recorded ok (fun _ now => s.clock 0 ≤ now) clockNow s := by
  refine .now fun t time x _ htime _ hx => ?_
  cases hx
  exact htime

theorem drawID : Recorded ok (fun _ _ => True) drawID s := .draw fun _ _ _ _ _ => trivial

theorem userExists : Recorded ok (fun _ _ => True) userExists s := .find fun _ _ _ _ _ _ => trivial

variable {inviteID : String}

theorem inviteByID : Recorded ok (fun t r => ∃ tokenHash, Knows t (.invite tokenHash) r) (inviteByID inviteID) s := by
  refine .find fun t reply x _ hknows hx => ?_
  rcases reply with _ | _ | ⟨key, found⟩
  · cases hx
  · cases hx
  · cases key with
    | invite tokenHash =>
      cases hx
      exact ⟨tokenHash, (hknows _ _ rfl).1⟩
    | _ => cases hx

theorem transact {refused : Error} {label : Label}
    (h : ∀ t : State, Ledger.Le s t → History CommitSpec t.log t.records → t.records.admits changes = true →
      CommitSpec t.records (some label) changes) : Recorded ok (fun _ _ => True) (transact refused label changes) s :=
  Conc.Logged.transact h fun _ _ _ _ _ _ _ _ => trivial

variable {a : Request α} {f : α → Request β}

theorem bind (ha : Recorded ok φ a s) (hf : ∀ t x, Ledger.Le s t → φ t x → Recorded ok ψ (f x) t) :
    Recorded ok ψ (a >>= f) s :=
  Yields.bind ha fun t x hle _ hx => hf t x hle hx

theorem getting {e : Error} {f : Reading (Record key) → Request β}
    (h : ∀ t r, Ledger.Le s t → Knows t key r → Recorded ok ψ (f r) t) :
    Recorded ok ψ (Conc.withError e (Registration.getRecord key) >>= f) s :=
  bind (.withError getRecord) h

theorem skip (ha : Recorded ok (fun _ _ => True) a s)
    (hf : ∀ t x, Ledger.Le s t → Recorded ok ψ (f x) t) : Recorded ok ψ (a >>= f) s :=
  bind ha fun t x hle _ => hf t x hle

theorem done {x : α} : Recorded ok (fun _ _ => True) (pure x : Request α) s := .pure fun _ _ _ => trivial

theorem retrying {contended : Error} {attempt : Request (Except Error α)} {attempts : Nat}
    (h : ∀ t, Recorded ok (fun _ _ => True) attempt t) :
    Recorded ok (fun _ _ => True) (retrying contended attempt attempts) s := by
  induction attempts generalizing s with
  | zero => exact .throw
  | succ attempts ih =>
    refine skip (h s) fun t r _ => ?_
    cases r with
    | ok _ => exact done
    | error e =>
      dsimp only
      split
      · exact ih
      · exact .throw

theorem attempting (h : Recorded ok (fun _ _ => True) a s) : Recorded ok (fun _ _ => True) (Conc.attempted a) s :=
  .weaken (.attempt h) fun _ _ _ _ _ => trivial

variable {userID : UserID}

theorem readCredentials {ids : List String} : Recorded ok (fun _ _ => True) (readCredentials userID ids) s := by
  induction ids generalizing s with
  | nil => exact done
  | cons credentialID rest ih => exact getting fun t _ _ _ => reject fun _ => skip ih fun _ _ _ => done

theorem credentials : Recorded ok (fun _ _ => True) (credentials userID) s :=
  bind getRecord fun _ _ _ _ => readCredentials

variable {tokenHash : String}

theorem usableInvite : Recorded ok (fun t r => Knows t (.invite tokenHash) r ∧ ChangeSpec.UsableInvite r.time r.value)
      (usableInvite tokenHash) s := by
  refine getting fun t r _ hknows => bind clockNow fun u now hle hnow => reject fun husable => ?_
  refine .pure fun w hw _ => ⟨hknows.mono (hle.trans hw), ?_⟩
  have htime : r.time ≤ now := Nat.le_trans hknows.time hnow
  simp only [inviteUsable, Bool.not_eq_false', Bool.and_eq_true, decide_eq_true_eq, Option.isNone_iff_eq_none,
    Option.all_eq_true] at husable
  exact ⟨husable.1.1, husable.1.2, fun t ht => Nat.lt_of_le_of_lt htime (husable.2 t ht)⟩

theorem usableRecovery :
    Recorded ok (fun t r => Knows t (.recovery userID tokenHash) r ∧ ChangeSpec.UsableRecovery r.time r.value)
      (Registration.usableRecovery userID tokenHash) s := by
  refine getting fun t r _ hknows => bind clockNow fun u now hle hnow => reject fun husable => reject fun _ => ?_
  refine .pure fun w hw _ => ⟨hknows.mono (hle.trans hw), ?_⟩
  have htime : r.time ≤ now := Nat.le_trans hknows.time hnow
  simp only [recoveryUsable, Bool.not_eq_false', Bool.and_eq_true, decide_eq_true_eq,
    Option.isNone_iff_eq_none] at husable
  exact ⟨husable.1.1, husable.1.2, Nat.lt_of_le_of_lt htime husable.2⟩

theorem enabledAccount : Recorded ok (fun t r => Knows t (.account userID) r) (enabledAccount userID) s :=
  getting fun _ _ _ hknows => reject fun _ => .pure fun _ hle _ => hknows.mono hle

theorem bootstrapAvailable : Recorded ok (fun _ _ => True) bootstrapAvailable s := by
  refine bind (.withError lookup) fun t _ _ _ => reject fun _ => ?_
  refine bind (.withError lookup) fun u _ _ _ => reject fun _ => ?_
  exact skip (.withError userExists) fun w _ _ => .except fun _ _ _ _ _ => trivial

/-! ## Ceremonies -/

theorem createCeremony {record : Ceremony} (hunused : record.consumedAt = none) :
    Recorded ok (fun _ _ => True) (createCeremony record) s := by
  refine reject fun howner => transact fun t _ _ hadmits => ?_
  have howner : record.userID = record.ceremonyID.owner := by simpa using howner
  refine .of_each hadmits (fun change hmem => ?_) rfl (fun userID _ hmem => ?_) rfl
  · obtain rfl := mem_singleton.mp hmem
    exact .newCeremony rfl hunused ⟨rfl, rfl, fun _ => howner⟩
  · cases mem_singleton.mp hmem

variable {service : Service} {bearerHash : String}

theorem startRegistrationCeremony {user : User} :
    Recorded ok (fun _ _ => True) (startRegistrationCeremony service flow user bearerHash) s :=
  skip drawID fun _ _ _ => .except_bind fun _ _ => skip drawID fun _ _ _ => skip drawID fun _ _ _ =>
    bind clockNow fun _ _ _ _ => skip (createCeremony rfl) fun _ _ _ => done

variable {displayName : String}

theorem startNewUserRegistration :
    Recorded ok (fun _ _ => True) (startNewUserRegistration service flow displayName bearerHash) s :=
  .except_bind fun _ _ => skip drawID fun _ _ _ => startRegistrationCeremony

theorem startExistingUserRegistration {profile : Profile} :
    Recorded ok (fun _ _ => True) (startExistingUserRegistration service flow profile bearerHash) s :=
  skip credentials fun _ _ _ => startRegistrationCeremony

theorem startBootstrap {bootstrapToken : String} :
    Recorded ok (fun _ _ => True) (startBootstrap service bootstrapToken displayName) s :=
  reject fun _ => skip bootstrapAvailable fun _ _ _ => startNewUserRegistration

variable {policy : RegistrationPolicy}

theorem startRegistration {allowed : Bool} {inviteToken : String} :
    Recorded ok (fun _ _ => True) (Registration.startRegistration service policy allowed displayName inviteToken)
      s := by
  unfold Registration.startRegistration
  split
  · exact reject fun _ => reject fun _ => startNewUserRegistration
  · exact reject fun _ => bind usableInvite fun _ _ _ _ => startNewUserRegistration

variable {owner : UserID}

theorem startRecovery {token : String} : Recorded ok (fun _ _ => True) (startRecovery service owner token) s :=
  getting fun _ _ _ _ => bind clockNow fun _ _ _ _ => reject fun _ => getting fun _ _ _ _ =>
    startExistingUserRegistration

variable {ceremonyID : CeremonyID} {label : String}

theorem labelCeremony : Recorded ok (fun _ _ => True) (labelCeremony ceremonyID label) s := by
  refine bind getRecord fun t r _ hknows => reject fun _ => transact fun u hle _ hadmits => ?_
  obtain ⟨hid, _, howner⟩ := hknows.filed
  have hkey : ceremonyKey r.value.ceremonyID = ceremonyKey ceremonyID := congrArg ceremonyKey hid
  refine .of_each hadmits (fun change hmem => ?_) rfl (fun userID _ hmem => ?_) rfl
  · obtain rfl := mem_singleton.mp hmem
    have hcell := hknows.cell hle hadmits (.head _) hkey rfl
    rw [← hid] at hcell howner
    exact .relabel rfl hcell rfl ⟨rfl, rfl, howner⟩
  · cases mem_singleton.mp hmem

variable {createdAt : Time}

theorem startAddPasskey : Recorded ok (fun _ _ => True) (startAddPasskey service userID createdAt label) s := by
  refine bind clockNow fun _ _ _ _ => reject fun _ => bind getRecord fun _ _ _ _ => ?_
  split
  · exact startExistingUserRegistration
  · exact .except_bind fun _ _ => skip startExistingUserRegistration fun _ _ _ => skip labelCeremony fun _ _ _ => done

theorem startAuthentication : Recorded ok (fun _ _ => True) (startAuthentication service) s :=
  skip drawID fun _ _ _ => .except_bind fun _ _ => skip drawID fun _ _ _ => skip drawID fun _ _ _ =>
    bind clockNow fun _ _ _ _ => skip (createCeremony rfl) fun _ _ _ => done

variable {binding : String}

theorem boundCeremony {type : CeremonyType} {invalid : Error} :
    Recorded ok (fun t r => Knows t (ceremonyKey ceremonyID) r ∧ r.value.type = type)
      (Registration.boundCeremony service type invalid ceremonyID binding) s := by
  refine getting fun t r _ hknows => reject fun htype => bind clockNow fun u _ hle _ => reject fun _ => ?_
  refine .pure fun w hw _ => ⟨hknows.mono (hle.trans hw), ?_⟩
  simp only [Bool.or_eq_false_iff, decide_eq_false_iff_not, not_not] at htype
  exact htype.1

/-! ## Registration -/

/-- What the changes of a flow are, wherever they are committed. -/
structure FlowSpec (ceremony : Ceremony) (userID : UserID) (fc : FlowChanges) (s : State) : Prop where
  each : ∀ (t : State) (changes : List RecordChange), Ledger.Le s t → t.records.admits changes = true →
    (∀ change ∈ fc.changes, change ∈ changes) → ∀ change ∈ fc.changes,
      ChangeSpec (some (.registration ceremony.flow fc.snapshot)) t.records change
  invite : ceremony.flow = .ceremonyInvite → ∃ change ∈ fc.changes, change.key = .invite ceremony.bearerTokenHash
  recovery : ceremony.flow = .ceremonyRecovery →
    ∃ change ∈ fc.changes, change.key = .recovery userID ceremony.bearerTokenHash
  credentials : credentialChanges fc.changes = []
  accounts : ∀ userID record, createRecord (.account userID) record ∉ fc.changes

theorem flowChanges {now : Time} :
    Recorded ok (fun t fc => FlowSpec ceremony operation.userID fc t)
      (Registration.flowChanges now ceremony operation) s := by
  unfold Registration.flowChanges
  split
  case h_1 hflow =>
    refine .pure fun t _ _ => ⟨fun u changes _ _ _ change hmem => ?_, by simp [hflow], by simp [hflow],
      rfl, fun userID record hmem => ?_⟩
    · simp only [mem_cons, not_mem_nil, or_false] at hmem
      rcases hmem with rfl | rfl
      · exact .plain rfl
      · exact .firstRoles (by rw [hflow]) _
    · simp [createRecord] at hmem
  case h_2 hflow =>
    refine bind usableInvite fun t invite _ hinvite => .pure fun u hu _ =>
      ⟨?_, fun _ => ⟨_, .head _, congrArg Key.invite hinvite.1.filed⟩, by simp [hflow],
        rfl, fun userID record hmem => ?_⟩
    · intro w changes hw hadmits hsub change hmem
      obtain rfl := mem_singleton.mp hmem
      obtain ⟨hknows, husable⟩ := hinvite
      have hhash : invite.value.tokenHash = ceremony.bearerTokenHash := hknows.filed
      have hcell := hknows.cell (hu.trans hw) hadmits (hsub _ hmem) (congrArg Key.invite hhash) rfl
      rw [← hhash] at hcell
      exact .consumeInvite rfl hcell husable.unused husable.unrevoked husable.unexpired rfl rfl
    · cases mem_singleton.mp hmem
  case h_3 hflow =>
    refine bind usableRecovery fun t recovery _ hrecovery => bind enabledAccount fun u account hu _ =>
      .except_bind fun advanced _ => .pure fun w hw _ => ⟨?_, by simp [hflow],
        fun _ => ⟨_, .head _, congrArg (Key.recovery operation.userID) hrecovery.1.filed.1⟩,
          rfl, fun userID record hmem => ?_⟩
    · intro x changes hx hadmits hsub change hmem
      have hsub := hsub change hmem
      simp only [mem_cons, not_mem_nil, or_false] at hmem
      rcases hmem with rfl | rfl
      · obtain ⟨hknows, husable⟩ := hrecovery
        obtain ⟨hhash, htarget⟩ := hknows.filed
        have hcell := hknows.cell (hu.trans (hw.trans hx)) hadmits hsub
          (congrArg (Key.recovery operation.userID) hhash) rfl
        rw [← hhash] at hcell
        exact .consumeRecovery rfl hcell husable.unused husable.unrevoked husable.unexpired rfl ⟨rfl, htarget⟩
      · exact .account _ _ _
    · simp [createRecord, setRecord] at hmem
  case h_4 hflow =>
    refine bind enabledAccount fun t account _ _ => .pure fun u _ _ =>
      ⟨?_, by simp [hflow], by simp [hflow], rfl, fun userID record hmem => ?_⟩
    · intro w changes _ _ _ change hmem
      obtain rfl := mem_singleton.mp hmem
      exact .account _ _ _
    · simp [createRecord, setRecord] at hmem
  case h_5 hflow =>
    exact .pure fun t _ _ => ⟨fun _ _ _ _ _ _ hmem => (nomatch hmem), by simp [hflow], by simp [hflow], rfl,
      fun _ _ hmem => (nomatch hmem)⟩
  case h_6 hflow => exact .throw


theorem encodeIndex_ok {index encoded : CredentialIndex} (h : encodeIndex index = .ok encoded) :
    encoded.userID = index.userID ∧ encoded.credentialIDs.Perm index.credentialIDs := by
  obtain ⟨_, _, h⟩ := bind_ok h
  obtain ⟨_, _, h⟩ := bind_ok h
  cases h
  exact ⟨rfl, perm_insertionSort _ _⟩

variable {credentialID : String} {found : Option (Reading CredentialIndex)}

theorem indexCredential_ok (h : indexCredential userID credentialID found = .ok change) :
    (∃ index : CredentialIndex, change = createRecord (.credentialIndex userID) index ∧ index.userID = userID ∧
      index.credentialIDs.Perm [credentialID]) ∨
    ∃ (current : Reading CredentialIndex) (index : CredentialIndex), found = some current ∧
      change = setRecord (.credentialIndex userID) current.version index ∧ index.userID = current.value.userID ∧
      credentialID ∉ current.value.credentialIDs ∧
        index.credentialIDs.Perm (current.value.credentialIDs ++ [credentialID]) := by
  cases found with
  | none =>
    obtain ⟨index, hindex, h⟩ := bind_ok h
    cases h
    obtain ⟨howner, hids⟩ := encodeIndex_ok hindex
    exact .inl ⟨index, rfl, howner, hids⟩
  | some current =>
    obtain ⟨_, hlisted, h⟩ := bind_ok h
    obtain ⟨index, hindex, h⟩ := bind_ok h
    cases h
    obtain ⟨howner, hids⟩ := encodeIndex_ok hindex
    have hlisted : credentialID ∉ current.value.credentialIDs := by simpa using hlisted
    exact .inr ⟨current, index, rfl, rfl, howner, hlisted, hids⟩

theorem index_effect {credential : Credential} (hfound : ∀ r, found = some r → Knows s (.credentialIndex userID) r)
    (h : indexCredential userID credential.credentialID found = .ok change) (howner : credential.userID = userID)
    {t : State} (hle : Ledger.Le s t) (hadmits : t.records.admits changes = true) (hmem : change ∈ changes) :
    change.key = .credentialIndex userID ∧ (∀ label, ChangeSpec label t.records change) ∧
      CredentialEffect t.records [createRecord (.credential userID credential.credentialID) credential, change] := by
  rcases indexCredential_ok h with ⟨index, rfl, hfiled, hids⟩ | ⟨current, index, rfl, rfl, hsame, hunlisted, hids⟩
  · refine ⟨rfl, fun label => .credential rfl fun record hrecord => ?_, .first howner hfiled hids⟩
    cases hrecord
    exact hfiled
  · have hknows := hfound current rfl
    have hfiled : index.userID = userID := hsame.trans hknows.filed
    refine ⟨rfl, fun label => .credential rfl fun record hrecord => ?_,
      .another (hknows.cell hle hadmits hmem rfl rfl) howner hfiled hunlisted hids⟩
    cases hrecord
    exact hfiled

theorem commitRegistrationAtomic {ceremony : Reading Ceremony} (hknows : Knows s (ceremonyKey ceremonyID) ceremony)
    (htype : ceremony.value.type = .ceremonyRegistration) (howner : operation.credential.userID = operation.userID) :
    Recorded ok (fun _ _ => True) (commitRegistrationAtomic ceremony.value ceremony.version operation) s := by
  obtain ⟨hid, _, huser⟩ := hknows.filed
  refine reject fun hclaim => bind clockNow fun t now ht _ => bind lookup fun u index hu hindex => ?_
  refine .except_bind fun indexChange hchange => bind lookup fun w marker hw hmarker => reject fun hfirst => ?_
  refine bind flowChanges fun x fc hx hfc => transact fun y hy hhistory hadmits => ?_
  simp only [Bool.or_eq_false_iff, decide_eq_false_iff_not, not_not] at hclaim
  obtain ⟨⟨hclaimed, hunused⟩, _⟩ := hclaim
  have hunused : ceremony.value.consumedAt = none := by simpa using hunused
  -- the key of the ceremony is the one it was read under
  have hscoped : ceremonyID.owner = some operation.userID := (huser htype).symm.trans hclaimed
  have hkey : Key.ceremony (some operation.userID) ceremony.value.ceremonyID = ceremonyKey ceremonyID := by
    rw [ceremonyKey, hscoped, hid]
  have hle := hw.trans (hx.trans hy)
  have hcell := hknows.cell (ht.trans (hu.trans hle)) hadmits mem_registrationChanges_ceremony hkey rfl
  have hread := hcell
  unfold ceremonyKey at hcell
  rw [hscoped, ← hid] at hcell
  obtain ⟨hindexKey, hindexSpec, hcredentials⟩ :=
    index_effect hindex hchange howner hle hadmits mem_registrationChanges_index
  refine .registration hadmits (.consumeCeremony hcell hunused rfl ⟨rfl, ?_, fun _ => hclaimed⟩) howner hindexKey
    (hindexSpec _) hcredentials ?_ ?_ (hfc.each y _ hy hadmits fun _ => mem_append_right _) hfc.credentials hfc.accounts
    ⟨⟨_, hread⟩, ⟨_, mem_registrationChanges_ceremony, hkey⟩, fun flow snapshot h => ?_, fun snapshot h => ?_,
      fun snapshot h => ?_⟩
  · rw [← hscoped, ← hid]
  · cases marker with
    | none => exact .inl rfl
    | some r => exact .inr (firstAccount_of_touched hhistory ((hmarker r rfl).mono (hx.trans hy)).touched)
  · intro hflow
    cases marker with
    | none => rfl
    | some r => simp [show ceremony.value.flow = .ceremonyBootstrap from hflow] at hfirst
  · cases h
    rfl
  · injection h with hflow
    obtain ⟨change, hmem, htoken⟩ := hfc.invite hflow
    exact ⟨change, mem_append_right _ hmem, htoken⟩
  · injection h with hflow
    obtain ⟨change, hmem, htoken⟩ := hfc.recovery hflow
    exact ⟨operation.userID, hclaimed, change, mem_append_right _ hmem, htoken⟩

theorem verifyRegistrationPolicy :
    Recorded ok (fun _ _ => True) (Registration.verifyRegistrationPolicy service policy ceremony userID) s := by
  unfold Registration.verifyRegistrationPolicy
  split
  · exact reject fun _ => bootstrapAvailable
  · exact .except fun _ _ _ _ _ => trivial
  · exact reject fun _ => bind usableInvite fun _ _ _ _ => done
  · exact bind usableRecovery fun _ _ _ _ => done
  · exact bind enabledAccount fun _ _ _ _ => done
  · exact .throw

theorem ceremonyUser : Recorded ok (fun _ user => user.id = userID) (Registration.ceremonyUser ceremony userID) s := by
  unfold Registration.ceremonyUser
  split
  · exact .throw
  · split
    · exact skip credentials fun _ _ _ => .pure fun _ _ _ => rfl
    · exact .pure fun _ _ _ => rfl

theorem registrationClaimOwned : Recorded ok (fun _ _ => True) (Registration.registrationClaimOwned ceremony operation)
    s := by
  unfold Registration.registrationClaimOwned
  split
  · exact getting fun _ _ _ _ => getting fun _ _ _ _ => .except fun _ _ _ _ _ => trivial
  · exact getting fun _ _ _ _ => .except fun _ _ _ _ _ => trivial
  · exact getting fun _ _ _ _ => .except fun _ _ _ _ _ => trivial
  · exact done
  · exact done
  · exact .throw

theorem resumeRegistration : Recorded ok (fun _ _ => True) (resumeRegistration ceremony userID) s :=
  reject fun _ => getting fun _ _ _ _ => reject fun _ => skip registrationClaimOwned fun _ _ _ => done

variable {response : String}

theorem verifyRegistration : Recorded ok (fun _ _ => True) (verifyRegistration service policy ceremonyID binding
      response) s := by
  refine bind boundCeremony fun t ceremony _ hceremony => ?_
  split
  · exact .throw
  · split
    · exact resumeRegistration
    · refine skip verifyRegistrationPolicy fun u _ hu => bind ceremonyUser fun w user hw _ => ?_
      refine .except_bind fun verified _ => bind clockNow fun x _ hx _ => skip drawID fun y operationID hy => ?_
      exact skip (commitRegistrationAtomic (hceremony.1.mono (hu.trans (hw.trans (hx.trans hy)))) hceremony.2 rfl)
        fun _ _ _ => done

/-! ## Authentication -/

theorem resolveDiscoverable : Recorded ok (fun _ _ => True) (resolveDiscoverable credentialID userID) s :=
  getting fun _ _ _ _ => reject fun _ => getting fun _ _ _ _ => reject fun _ => getting fun _ _ _ _ =>
    skip (.withError credentials) fun _ _ _ => done

theorem resumeAuthentication : Recorded ok (fun _ _ => True) (Registration.resumeAuthentication ceremony) s := by
  unfold Registration.resumeAuthentication
  split
  · exact .throw
  · exact reject fun _ => getting fun _ _ _ _ => reject fun _ => .except_bind fun _ _ => getting fun _ _ _ _ => done

theorem commitAuthenticationAtomic {ceremony : Reading Ceremony} {consumed : Ceremony}
    {operation : AuthenticationOperation} {credential : Reading Credential} {stored : Credential}
    {account : Reading Account} {issued : IssuedSession} (hknows : Knows s (ceremonyKey ceremonyID) ceremony)
    (hunused : ceremony.value.consumedAt = none) (hsame : consumed.ceremonyID = ceremony.value.ceremonyID)
    (hcredential : operation.credentialID = stored.credentialID) :
    Recorded ok (fun _ _ => True)
      (commitAuthenticationAtomic ceremony consumed operation credential stored account issued) s := by
  obtain ⟨hid, _, _⟩ := hknows.filed
  refine reject fun hbound => transact fun t hle _ hadmits => ?_
  simp only [Bool.or_eq_false_iff, decide_eq_false_iff_not, not_not] at hbound
  obtain ⟨⟨⟨⟨⟨⟨htype, hused⟩, _⟩, _⟩, howner⟩, _⟩, _⟩ := hbound
  have hkey : ceremonyKey consumed.ceremonyID = ceremonyKey ceremonyID := congrArg ceremonyKey (hsame.trans hid)
  have hcell := hknows.cell hle hadmits (.head _) hkey rfl
  have hread := hcell
  rw [← hid, ← hsame] at hcell
  refine ⟨hadmits, fun change hmem => ?_, ?_, fun userID record hmem => ?_, by simp, fun kind hlabel _ => ?_⟩
  · simp only [authenticationChanges, mem_cons, not_mem_nil, or_false] at hmem
    rcases hmem with rfl | rfl | rfl | rfl | rfl
    · refine .consumeCeremony hcell hunused ?_ ⟨rfl, rfl, fun h => absurd (htype.symm.trans h) (by decide)⟩
      simpa using hused
    · exact .plain rfl
    · refine .credential rfl fun record hrecord => ?_
      cases hrecord
      exact ⟨hcredential.symm, howner.symm⟩
    · exact .account _ _ _
    · exact .plain rfl
  · change CredentialEffect _ [setRecord (.credential operation.userID operation.credentialID)
      credential.version stored]
    rw [hcredential]
    exact .use howner.symm
  · simp [authenticationChanges, createRecord, setRecord] at hmem
  · cases hlabel
    exact ⟨ceremonyID, ceremony.value, ⟨_, hread⟩, ⟨_, .head _, hkey⟩, by simp, by simp, by simp⟩

theorem verifyAuthentication : Recorded ok (fun _ _ => True) (verifyAuthentication service ceremonyID binding response)
    s := by
  refine bind boundCeremony fun t ceremony _ hceremony => ?_
  split
  · exact resumeAuthentication
  · rename_i hconsumed
    refine .except_bind fun named _ => skip resolveDiscoverable fun u user hu => ?_
    refine .except_bind fun result _ => bind clockNow fun w _ hw _ => skip drawID fun x _ hx => ?_
    refine getting fun y account hy _ => reject fun _ => getting fun z credential hz _ => reject fun _ => ?_
    refine .except_bind fun issued _ => skip ?_ fun _ _ _ => done
    have hle := hu.trans (hw.trans (hx.trans (hy.trans hz)))
    exact commitAuthenticationAtomic (hceremony.1.mono hle) (by simpa using hconsumed) rfl rfl

/-! ## Passkeys -/

theorem removeAttempt : Recorded ok (fun _ _ => True) (removeAttempt userID credentialID) s := by
  refine bind getRecord fun t index _ hindex => reject fun hothers => reject fun hlisted => ?_
  refine getting fun u credential hu _ => reject fun _ => .except_bind fun updated hupdated => ?_
  refine attempting (transact fun w hw _ hadmits => ?_)
  obtain ⟨howner, hids⟩ := encodeIndex_ok hupdated
  have hfiled : updated.userID = userID := howner.trans hindex.filed
  refine ⟨hadmits, fun change hmem => ?_, ?_, fun userID record hmem => ?_, by simp, by simp [Label.consumes]⟩
  · simp only [mem_cons, not_mem_nil, or_false] at hmem
    rcases hmem with rfl | rfl
    · refine .credential rfl fun record hrecord => ?_
      cases hrecord
      exact hfiled
    · exact .credential rfl fun record hrecord => nomatch hrecord
  · refine .remove (hindex.cell (hu.trans hw) hadmits (.head _) rfl rfl) hfiled ?_ ?_ hids
    · simpa using hothers
    · simpa using hlisted
  · simp [createRecord, setRecord, deleteRecord] at hmem

theorem removePasskey : Recorded ok (fun _ _ => True) (removePasskey userID createdAt credentialID) s :=
  bind clockNow fun _ _ _ _ => reject fun _ => retrying fun _ => removeAttempt

/-! ## Invites and recoveries -/

variable {actor : UserID}

theorem adminAuthoritySnapshot : Recorded ok (fun _ _ => True) (adminAuthoritySnapshot actor) s :=
  getting fun _ _ _ _ => reject fun _ => getting fun _ _ _ _ => reject fun _ => done

theorem requireAdmin : Recorded ok (fun _ _ => True) (requireAdmin actor) s :=
  skip adminAuthoritySnapshot fun _ _ _ => done

theorem adminAuthorityChanges_ok {authority : AdminAuthority} {guards : List RecordChange}
    (h : adminAuthorityChanges authority = .ok guards) :
    ∃ roles, guards = [setRecord .adminRoles authority.roles.version roles,
      setRecord (.account authority.account.value.userID) authority.account.version authority.account.value] := by
  obtain ⟨roles, _, h⟩ := bind_ok h
  cases h
  exact ⟨roles, rfl⟩

variable {keyHash fingerprint : String}

theorem replayAdminInvite : Recorded ok (fun _ _ => True) (replayAdminInvite owner keyHash fingerprint) s := by
  refine bind lookup fun t found _ _ => ?_
  split
  · exact done
  · split
    · exact .throw
    · exact reject fun _ => reject fun _ => getting fun _ _ _ _ => reject fun _ => done

theorem replayAdminRecovery : Recorded ok (fun _ _ => True) (replayAdminRecovery owner keyHash fingerprint) s := by
  refine bind lookup fun t found _ _ => ?_
  split
  · exact done
  · split
    · exact .throw
    · exact reject fun _ => reject fun _ => getting fun _ _ _ _ => reject fun _ => done

theorem createOrReplay {record : α} {commit : Request Unit} {replay : Request (Option α)}
    (hcommit : Recorded ok (fun _ _ => True) commit s) (hreplay : ∀ t, Recorded ok (fun _ _ => True) replay t) :
    Recorded ok (fun _ _ => True) (createOrReplay record commit replay) s := by
  refine skip (attempting hcommit) fun t r _ => ?_
  cases r with
  | ok _ => exact done
  | error e =>
    dsimp only
    split
    · refine skip (hreplay t) fun u found _ => ?_
      cases found <;> exact done
    · exact done

theorem createInviteAttempt {record : Invite} (hunused : record.uses = 0) :
    Recorded ok (fun _ _ => True) (createInviteAttempt actor keyHash fingerprint record) s := by
  refine skip adminAuthoritySnapshot fun t authority _ => .except_bind fun guards hguards => ?_
  obtain ⟨roles, rfl⟩ := adminAuthorityChanges_ok hguards
  refine createOrReplay (transact fun u _ _ hadmits => ?_) fun _ => replayAdminInvite
  refine .of_each hadmits (fun change hmem => ?_) rfl (fun userID _ hmem => ?_) rfl
  · simp only [cons_append, nil_append, mem_cons, not_mem_nil, or_false] at hmem
    rcases hmem with rfl | rfl | rfl | rfl
    · exact .roles _ _
    · exact .account _ _ _
    · exact .newInvite rfl hunused rfl
    · exact .plain rfl
  · simp [createRecord, setRecord] at hmem

variable {idempotencyKey : String}

theorem createInvite {expiresAt : Option Time} :
    Recorded ok (fun _ _ => True) (createInvite service policy actor expiresAt idempotencyKey) s := by
  refine skip requireAdmin fun _ _ _ => reject fun _ => bind clockNow fun _ _ _ _ => .except_bind fun _ _ => ?_
  refine reject fun _ => skip replayAdminInvite fun _ found _ => ?_
  cases found with
  | some existing => exact done
  | none => exact retrying fun _ => createInviteAttempt rfl

theorem revokeInviteAttempt : Recorded ok (fun _ _ => True) (revokeInviteAttempt actor inviteID) s := by
  refine skip adminAuthoritySnapshot fun t authority _ => bind inviteByID fun u invite _ hinvite => ?_
  split
  · exact done
  · refine bind clockNow fun w now hw _ => .except_bind fun guards hguards =>
      attempting (transact fun x hx _ hadmits => ?_)
    obtain ⟨roles, rfl⟩ := adminAuthorityChanges_ok hguards
    obtain ⟨tokenHash, hknows⟩ := hinvite
    have hhash : invite.value.tokenHash = tokenHash := hknows.filed
    have hcell := hknows.cell (hw.trans hx) hadmits (mem_append_right _ (.head _)) (congrArg Key.invite hhash) rfl
    rw [← hhash] at hcell
    refine .of_each hadmits (fun change hmem => ?_) rfl (fun userID _ hmem => ?_) rfl
    · simp only [cons_append, nil_append, mem_cons, not_mem_nil, or_false] at hmem
      rcases hmem with rfl | rfl | rfl
      · exact .roles _ _
      · exact .account _ _ _
      · exact .revokeInvite rfl hcell rfl rfl rfl
    · simp [createRecord, setRecord] at hmem

variable {target : UserID}

theorem createRecoveryAttempt {record : Recovery} (htarget : record.targetUserID = target) :
    Recorded ok (fun _ _ => True) (createRecoveryAttempt actor target keyHash fingerprint record) s := by
  refine skip adminAuthoritySnapshot fun t authority _ => getting fun u account _ _ =>
    .except_bind fun guards hguards => ?_
  obtain ⟨roles, rfl⟩ := adminAuthorityChanges_ok hguards
  refine createOrReplay (transact fun w _ _ hadmits => ?_) fun _ => replayAdminRecovery
  refine .of_each hadmits (fun change hmem => ?_) ?_ (fun userID _ hmem => ?_) rfl
  · simp only [mem_append, mem_cons, not_mem_nil, or_false, mem_ite_nil_left] at hmem
    rcases hmem with ((rfl | rfl) | ⟨_, rfl⟩) | (rfl | rfl)
    · exact .roles _ _
    · exact .account _ _ _
    · exact .account _ _ _
    · exact .newRecovery rfl ⟨rfl, htarget⟩
    · exact .plain rfl
  · split <;> rfl
  · simp [createRecord, setRecord] at hmem

theorem createRecovery {ttl : Time} :
    Recorded ok (fun _ _ => True) (createRecovery service actor target ttl idempotencyKey) s := by
  refine skip requireAdmin fun _ _ _ => reject fun _ => .except_bind fun _ _ => bind clockNow fun _ _ _ _ => ?_
  refine skip replayAdminRecovery fun _ found _ => ?_
  cases found with
  | some existing => exact done
  | none => exact retrying fun _ => createRecoveryAttempt rfl

end Recorded

/-! ## Whole runs -/

theorem Call.keeps_history (service : Service) (call : Call) (s : State) :
    Conc.Safe (M := machine) (fun s : State => History CommitSpec s.log s.records) ok (fun _ _ => True)
      (call.body service) s := by
  have hany : ∀ {α : Type} {a : Request α}, Recorded ok (fun _ _ => True) a s →
      Conc.Safe (M := machine) (fun s : State => History CommitSpec s.log s.records) ok (fun _ _ => True) a.run s :=
    fun h => .weaken h fun _ _ _ _ _ => trivial
  cases call with
  | startBootstrap token displayName => exact hany .startBootstrap
  | startRegistration policy allowed displayName token => exact hany .startRegistration
  | startRecovery owner token => exact hany .startRecovery
  | startAddPasskey userID createdAt label => exact hany .startAddPasskey
  | startAuthentication => exact hany .startAuthentication
  | verifyRegistration policy ceremonyID binding response => exact hany .verifyRegistration
  | verifyAuthentication ceremonyID binding response => exact hany .verifyAuthentication
  | removePasskey userID createdAt credentialID => exact hany .removePasskey
  | createInvite policy actor expiresAt key => exact hany .createInvite
  | revokeInvite actor inviteID => exact hany (.retrying fun _ => .revokeInviteAttempt)
  | createRecovery actor target ttl key => exact hany .createRecovery

theorem history_of_reachable {service : Service} {cfg : Conc.Config machine Call.Result} (h : Reachable service cfg) :
    History CommitSpec (Ledger.log cfg.state) (Ledger.records cfg.state) := by
  obtain ⟨clock, hr⟩ := h
  exact Conc.reach_history (fun s c => Call.keeps_history service c s) (fun _ _ => CommitSpec.of_foreign) hr

end EndlessFS.Registration
