import EndlessFS.Lib.Result
import EndlessFS.Identity.Programs

/-!
# EndlessFS.Identity.History

What the transactions of the identity services do to the records they are committed on.

* `CommitSpec`: each kind of transaction, in terms of the records before it: what was read is still there,
  since the transaction requires the versions it was read under.
* `History`: the records are those of the start, changed by such transactions only.
* `IdentityCall.keeps_history`: every call commits only such transactions, whatever happens in between.
-/

namespace EndlessFS.Identity

open Identity List
open Conc (Versioned Yields Policy Reach Config Safe)

/-! ## What a transaction does -/

def effectiveEpoch (account : Account) : Nat := effectiveAuthEpoch account.authEpoch

def CommitLabel.issues : CommitLabel → Option Token
  | .authentication token => some token
  | .rotation _ new => some new
  | _ => none

def issued (log : List Commit) : List Token := log.filterMap fun commit => commit.label.issues

/-- The new roles and the new account of the target. -/
inductive AdminEffect (target : UserID) (ids : List UserID) (account : Account) :
    AdminAction → List UserID → Account → Prop where
  | disable {account' : Account} (disabled : disableAccount account = .ok account') :
      AdminEffect target ids account .disable (if target ∈ ids then withoutUserID ids target else ids) account'
  | enable : AdminEffect target ids account .enable ids { account with status := .accountEnabled }
  | grant {account' : Account} (enabled : account.status = .accountEnabled)
      (advanced : advanceAuthEpoch account = .ok account') :
      AdminEffect target ids account .grant (ids ++ [target]) account'
  | revoke {account' : Account} (advanced : advanceAuthEpoch account = .ok account') :
      AdminEffect target ids account .revoke (withoutUserID ids target) account'

/-- A change that leaves roles and sessions alone, and of accounts at most advances the epoch of one. -/
inductive PlainChange (before : Records) (userID : UserID) : RecordChange → Prop where
  | account {version : Nat} {account account' : Account} (read : before.cell (.account userID) =
    some (version, account))
      (advances : account' = account ∨ advanceAuthEpoch account = .ok account') :
      PlainChange before userID (setRecord (.account userID) version account')
  | ceremony (ceremonyID : String) (version : Nat) (record : Ceremony) :
      PlainChange before userID (setRecord (.ceremony ceremonyID) version record)
  | credential (credentialID : String) (count : Nat) :
      PlainChange before userID (createRecord (.credential userID credentialID) count)
  | recovery (bearer : String) (version : Nat) (record : Recovery) :
      PlainChange before userID (setRecord (.recovery userID bearer) version record)

/-- A transaction as the services prepare it, on the records it is committed on. If `strict`, tokens are not
issued twice and a session is only rotated by a request that read the epoch of that session. -/
inductive CommitSpec (strict : Prop) (log : List Commit) (before : Records) :
    CommitLabel → List RecordChange → Prop where
  | admin {action : AdminAction} {actor target : UserID} {authority : AdminAuthority} {roles encoded : List UserID}
      {account account' : Account} {version : Nat}
      (roles_read : before.cell .adminRoles = some (authority.rolesVersion, authority.roles))
      (member : actor ∈ authority.roles)
      (target_read : before.cell (.account target) = some (version, account))
      (actor_read : actor ≠ target → before.cell (.account actor) = some (authority.accountVersion, authority.account))
      (effect : AdminEffect target authority.roles account action roles account')
      (encodes : encodeRoles roles = .ok encoded) :
      CommitSpec strict log before (.admin action actor target)
        (adminChanges actor target authority encoded account' version)
  | revokeSessions {userID : UserID} {changes : List RecordChange}
    (plain : ∀ c ∈ changes, PlainChange before userID c) :
      CommitSpec strict log before (.revokeSessions userID) changes
  | registration {userID : UserID} {changes : List RecordChange} (plain : ∀ c ∈ changes, PlainChange before userID c) :
      CommitSpec strict log before (.registration userID) changes
  | authentication {token : Token} {ceremonyID credentialID : String} {ceremony : Ceremony} {account : Account}
      {session : Session} {ceremonyVersion credentialVersion version count : Nat}
      (read : before.cell (.account token.owner) = some (version, account))
      (fresh : strict → token ∉ issued log) (owner : session.userID = token.owner)
      (epoch : session.authEpoch = effectiveEpoch account) :
      CommitSpec strict log before (.authentication token)
        [setRecord (.ceremony ceremonyID) ceremonyVersion ceremony,
          setRecord (.credential token.owner credentialID) credentialVersion count,
          setRecord (.account token.owner) version account, createRecord (.session token) session]
  | rotation {old new : Token} {current session : Session} {version : Nat}
      (read : before.cell (.session old) = some (version, current))
      (fresh : strict → new ∉ issued log) (owner : session.userID = new.owner) (same_owner : new.owner = current.userID)
      (current_owner : current.userID = old.owner)
      (epoch : strict → session.authEpoch = effectiveAuthEpoch current.authEpoch) :
      CommitSpec strict log before (.rotation old new)
        [deleteRecord (.session old) version, createRecord (.session new) session]
  | logout {token : Token} {version : Nat} :
      CommitSpec strict log before (.logout token) [deleteRecord (.session token) version]

inductive History (strict : Prop) (start : Records) : List Commit → Records → Prop where
  | nil : History strict start [] start
  | cons {log : List Commit} {before : Records} {label : CommitLabel} {changes : List RecordChange} :
      History strict start log before → CommitSpec strict log before label changes →
      History strict start ({ before, label, changes } :: log) (before.commit changes)

/-! ## Which operations a run may perform -/

/-- `strict` runs issue no token twice, and rotate a session only while the account has its epoch. -/
def Allowed (strict : Prop) (s : IdentityState) : IdentityOp → Prop
  | .get (.rotation epoch) (.account userID) => strict → ∀ version account,
      s.records.cell (.account userID) = some (version, account) → effectiveEpoch account = effectiveAuthEpoch epoch
  | .transact label _ => strict → ∀ token ∈ label.issues, token ∉ issued s.log
  | _ => True

section

variable {strict : Prop} {start : Records} {ok : IdentityState → IdentityChoice → IdentityOp → Prop}
  (hok : ∀ s c o, ok s c o → Allowed strict s o)

/-- The program keeps the history; `φ` holds of its result. -/
abbrev Recorded (strict : Prop) (start : Records) (ok : IdentityState → IdentityChoice → IdentityOp → Prop) {α : Type}
    (φ : IdentityState → α → Prop) (a : Request α) (s : IdentityState) : Prop :=
  Yields (M := identityMachine) (fun s => History strict start s.log s.records) ok φ a s

variable {α β : Type} {φ : IdentityState → α → Prop} {ψ : IdentityState → β → Prop} {s : IdentityState}

namespace Recorded

variable {key : IdentityKey}

theorem getAt {site : ReadSite} : Recorded strict start ok (fun t r => t.records.Seen key r.1 r.2 ∧
      ∃ u, u.records.cell key = some r ∧ ∃ c, ok u c (.get site key)) (getAt site key) s := by
  refine .ask fun t _ hI c hc => ⟨hI, fun x hx u hu _ => ?_⟩
  have hcell : t.records.cell key = some x := by
    by_cases hdone : c.delivery = .done
    · cases hfound : t.records.cell key with
      | none => simp [identityMachine, IdentityState.exec, hdone, hfound, requireRecord] at hx
      | some y =>
        simp only [identityMachine, IdentityState.exec, hdone, if_true, hfound, requireRecord, Except.ok.injEq] at hx
        rw [hx]
    · simp [identityMachine, IdentityState.exec, hdone, requireRecord] at hx
  exact ⟨(Versioned.Seen.of_cell (v := x.1) (x := x.2) hcell).mono hu, t, hcell, c, hc⟩

theorem getRecord : Recorded strict start ok (fun t r => t.records.Seen key r.1 r.2) (getRecord key) s :=
  .weaken getAt fun _ _ _ _ h => h.1

theorem clockNow : Recorded strict start ok (fun _ _ => True) clockNow s :=
  .ask fun _ _ hI _ _ => ⟨hI, fun _ _ _ _ _ => trivial⟩

theorem bearerToken {owner : UserID} : Recorded strict start ok (fun _ token => token.owner = owner)
    (bearerToken owner) s := by
  refine .ask fun _ _ hI _ _ => ⟨hI, fun x hx _ _ _ => ?_⟩
  cases hx
  rfl

include hok in
theorem transact {label : CommitLabel} {changes : List RecordChange}
    (h : ∀ t : IdentityState, s.records.Le t.records → t.records.admits changes = true →
      (strict → ∀ token ∈ label.issues, token ∉ issued t.log) → CommitSpec strict t.log t.records label changes) :
    Recorded strict start ok (fun _ _ => True) (transact label changes) s := by
  refine .ask fun t hle hI c hc => ⟨?_, fun _ _ _ _ _ => trivial⟩
  have hcommit : t.records.admits changes = true →
      History strict start (t.commit label changes).log (t.commit label changes).records :=
    fun hadmits => .cons hI (h t hle hadmits (hok t c _ hc))
  change History strict start (t.transact c.delivery label changes).1.log
    (t.transact c.delivery label changes).1.records
  unfold IdentityState.transact
  split
  · exact hI
  · exact hI
  · exact hI
  · exact hcommit (by assumption)
  · exact hcommit (by assumption)

variable {f : Nat × IdentityRecord key → Request β}

theorem getting {e : Error}
    (h : ∀ t r, s.records.Le t.records → t.records.Seen key r.1 r.2 → Recorded strict start ok ψ (f r) t) :
    Recorded strict start ok ψ (Conc.withError e (Identity.getRecord key) >>= f) s :=
  .bind (.withError getRecord) fun t r hle _ hr => h t r hle hr

theorem reading
    (h : ∀ t r, s.records.Le t.records → t.records.Seen key r.1 r.2 → Recorded strict start ok ψ (f r) t) :
    Recorded strict start ok ψ (Identity.getRecord key >>= f) s :=
  .bind getRecord fun t r hle _ hr => h t r hle hr

theorem retrying {retry : Error → Bool} {message : String} {attempt : Request (Except Error Unit)} {attempts : Nat}
    (h : ∀ t, Recorded strict start ok (fun _ _ => True) attempt t) :
    Recorded strict start ok (fun _ _ => True) (retrying retry message attempt attempts) s := by
  induction attempts generalizing s with
  | zero => exact .throw
  | succ attempts ih =>
    refine .bind (h s) fun t r _ _ _ => ?_
    cases r with
    | ok _ => exact .pure fun _ _ _ => trivial
    | error e =>
      dsimp only
      split
      · exact ih
      · exact .throw

/-! ## Administrators -/

structure Authority (actor : UserID) (authority : AdminAuthority) (s : IdentityState) : Prop where
  roles : s.records.Seen .adminRoles authority.rolesVersion authority.roles
  account : s.records.Seen (.account actor) authority.accountVersion authority.account
  member : actor ∈ authority.roles

variable {actor : UserID}

theorem Authority.mono {authority : AdminAuthority} {t : IdentityState} (h : Authority actor authority s)
    (hle : s.records.Le t.records) : Authority actor authority t :=
  ⟨h.roles.mono hle, h.account.mono hle, h.member⟩

theorem authorized {f : AdminAuthority → Request β}
    (h : ∀ t authority, s.records.Le t.records → Authority actor authority t →
      Recorded strict start ok ψ (f authority) t) :
    Recorded strict start ok ψ (adminAuthoritySnapshot actor >>= f) s := by
  have hsnapshot : Recorded strict start ok (fun t authority => Authority actor authority t)
      (adminAuthoritySnapshot actor) s := by
    refine getting fun t account _ haccount => reject fun _ => getting fun u roles hle hroles =>
      reject fun hmember => ?_
    refine .pure fun w hw _ => ⟨hroles.mono hw, haccount.mono (hle.trans hw), ?_⟩
    simpa using hmember
  exact .bind hsnapshot fun t authority hle _ hauthority => h t authority hle hauthority

variable {ids : List UserID}

theorem enabledAdminCount : Recorded strict start ok (fun _ _ => True) (enabledAdminCount ids) s := by
  induction ids generalizing s with
  | nil => exact .pure fun _ _ _ => trivial
  | cons userID rest ih =>
    exact getting fun t _ _ _ => .bind ih fun _ _ _ _ _ => .pure fun _ _ _ => trivial

variable {target : UserID}

theorem rolesWithout : Recorded strict start ok (fun _ roles => roles = withoutUserID ids target)
    (rolesWithout ids target) s :=
  .bind enabledAdminCount fun _ _ _ _ _ => reject fun _ => .pure fun _ _ _ => rfl

theorem rolesWithoutDisabled :
    Recorded strict start ok (fun _ roles => roles = if target ∈ ids then withoutUserID ids target else ids)
      (Identity.rolesWithoutDisabled ids target) s := by
  unfold Identity.rolesWithoutDisabled
  split
  · exact rolesWithout
  · exact .pure fun _ _ _ => rfl

include hok in
theorem commitAdmin {action : AdminAction} {authority : AdminAuthority} {roles : List UserID}
    {account account' : Account} {version : Nat} (hauthority : Authority actor authority s)
    (htarget : s.records.Seen (.account target) version account)
    (heffect : AdminEffect target authority.roles account action roles account') :
    Recorded strict start ok (fun _ _ => True)
      (Conc.attempted (commitAdminAccountMutation action actor target authority roles account' version)) s := by
  refine .weaken (.attempt (φ := fun _ _ => True) ?_) fun _ _ _ _ _ => trivial
  refine .except_bind fun encoded hencoded => transact hok fun t hle hadmits _ => ?_
  have hversion : ∀ c ∈ adminChanges actor target authority encoded account' version, t.records.version c.key =
      c.require :=
    fun c hc => Versioned.version_of_admits hadmits hc
  refine .admin (hauthority.roles t.records hle (hversion (setRecord .adminRoles authority.rolesVersion encoded)
    (.head _)))
    hauthority.member
    (htarget t.records hle (hversion (setRecord (.account target) version account') (.tail _ (.head _))))
    (fun hne => hauthority.account t.records hle ?_) heffect hencoded
  exact hversion (setRecord (.account actor) authority.accountVersion authority.account) (by simp [adminChanges, hne])

include hok in
theorem disableAttempt : Recorded strict start ok (fun _ _ => True) (disableAttempt actor target) s := by
  refine authorized fun t authority _ hauthority => reading fun u account hle haccount => ?_
  have hauthority' := hauthority.mono hle
  split
  · exact .pure fun _ _ _ => trivial
  · refine .bind rolesWithoutDisabled fun w roles hw _ hr => .except_bind fun disabled hdisabled => ?_
    subst hr
    exact commitAdmin hok (hauthority'.mono hw) (haccount.mono hw) (.disable hdisabled)

include hok in
theorem enableAttempt : Recorded strict start ok (fun _ _ => True) (enableAttempt actor target) s := by
  refine authorized fun t authority _ hauthority => reading fun u account hle haccount => ?_
  split
  · exact .pure fun _ _ _ => trivial
  · exact commitAdmin hok (hauthority.mono hle) haccount .enable

include hok in
theorem grantAttempt : Recorded strict start ok (fun _ _ => True) (grantAttempt actor target) s := by
  refine authorized fun t authority _ hauthority => getting fun u account hle haccount => reject fun henabled => ?_
  split
  · exact .pure fun _ _ _ => trivial
  · refine .except_bind fun advanced hadvanced => commitAdmin hok (hauthority.mono hle) haccount (.grant ?_ hadvanced)
    simpa using henabled

include hok in
theorem revokeAttempt : Recorded strict start ok (fun _ _ => True) (revokeAttempt actor target) s := by
  refine authorized fun t authority _ hauthority => ?_
  split
  · exact .pure fun _ _ _ => trivial
  · refine .bind rolesWithout fun u roles hu _ hr => reading fun w account hw haccount =>
      .except_bind fun advanced hadvanced => ?_
    subst hr
    exact commitAdmin hok (hauthority.mono (hu.trans hw)) haccount (.revoke hadvanced)

/-! ## Sessions -/

/-- What `Authenticate` has found. -/
structure Authenticated (token : Token) (current : AuthenticatedSession) (s : IdentityState) : Prop where
  session : s.records.Seen (.session token) current.version current.record
  same : current.token = token
  owner : current.record.userID = token.owner

variable {token : Token} {current : AuthenticatedSession}

theorem Authenticated.mono {t : IdentityState}
    (h : Authenticated token current s) (hle : s.records.Le t.records) : Authenticated token current t :=
  ⟨h.session.mono hle, h.same, h.owner⟩

theorem checkSession_ok {now : Time} {found : Option ((Nat × Session) × (Nat × Account))}
    (h : checkSession now token found = .ok current) :
    ∃ session account, found = some (session, account) ∧ session.2.userID = token.owner ∧
      effectiveEpoch account.2 = effectiveAuthEpoch session.2.authEpoch ∧
      current = { token, record := session.2, version := session.1 } := by
  cases found with
  | none => cases h
  | some found =>
    obtain ⟨session, account⟩ := found
    obtain ⟨_, howner, h⟩ := Except.bind_ok h
    obtain ⟨_, _, h⟩ := Except.bind_ok h
    obtain ⟨_, hepoch, h⟩ := Except.bind_ok h
    have howner := rejectIf_eq_ok_iff.mp howner
    have hepoch := rejectIf_eq_ok_iff.mp hepoch
    simp only [Bool.or_eq_false_iff, decide_eq_false_iff_not, not_not] at howner hepoch
    cases h
    exact ⟨session, account, rfl, howner, hepoch.2, rfl⟩

theorem authenticate : Recorded strict start ok (fun t current => Authenticated token current t)
    (authenticate token) s := by
  have hfound : Recorded strict start ok (fun t found => ∀ session account, found = some (session, account) →
        t.records.Seen (.session token) session.1 session.2)
      (Conc.ask (M := identityMachine) (.sessionAndAccount token) id) s := by
    refine .ask fun t _ hI c _ => ⟨hI, fun found hx u hu _ session account hsome => ?_⟩
    by_cases hdone : c.delivery = .done
    · simp only [identityMachine, IdentityState.exec, hdone, if_true, id, Except.ok.injEq] at hx
      rw [hsome] at hx
      obtain ⟨stored, hstored, hx⟩ := Option.bind_eq_some_iff.mp hx
      obtain ⟨_, _, hx⟩ := Option.bind_eq_some_iff.mp hx
      cases hx
      exact (Versioned.Seen.of_cell (k := .session token) (v := session.1) (x := session.2) hstored).mono hu
    · simp [identityMachine, IdentityState.exec, hdone] at hx
  refine .bind (.withError hfound) fun t found _ _ hseen => .bind clockNow fun u now hu _ _ => ?_
  refine .except fun current hcurrent w hw _ => ?_
  obtain ⟨session, account, hsome, howner, _, rfl⟩ := checkSession_ok hcurrent
  exact ⟨(hseen session account hsome).mono (hu.trans hw), rfl, howner⟩

/-- A session as `prepare` makes it for another one. -/
structure Prepared (strict : Prop) (current : Session) (token : Token) (session : Session) : Prop where
  token_owner : token.owner = current.userID
  owner : session.userID = current.userID
  epoch : strict → session.authEpoch = effectiveAuthEpoch current.authEpoch

include hok in
theorem prepare {current : Session} :
    Recorded strict start ok (fun _ issued => Prepared strict current issued.1 issued.2) (prepare current) s := by
  refine .bind (.withError getAt) fun t account _ _ haccount => reject fun _ => ?_
  obtain ⟨_, u, hread, c, hc⟩ := haccount
  refine .bind bearerToken fun _ token _ _ howner => .bind clockNow fun _ now _ _ _ => ?_
  exact .pure fun _ _ _ => ⟨howner, rfl, fun hstrict => hok u c _ hc hstrict account.1 account.2 hread⟩

include hok in
theorem rotate (hcurrent : Authenticated token current s) :
    Recorded strict start ok (fun _ _ => True) (rotate current) s := by
  refine .bind (prepare hok) fun t issued ht _ hissued => ?_
  have hcurrent' := hcurrent.mono ht
  refine .bind (φ := fun _ _ => True) (.withError (transact hok fun u hle hadmits hfresh => ?_))
    fun _ _ _ _ _ => .pure fun _ _ _ => trivial
  have hread := hcurrent'.session u.records hle (hcurrent'.same ▸ Versioned.version_of_admits hadmits mem_cons_self)
  rw [← hcurrent'.same] at hread
  exact .rotation hread (fun hstrict => hfresh hstrict issued.1 rfl) (hissued.owner.trans hissued.token_owner.symm)
    hissued.token_owner (hcurrent'.same ▸ hcurrent'.owner) hissued.epoch

include hok in
theorem logout : Recorded strict start ok (fun _ _ => True) (logout token) s := by
  refine .bind authenticate fun t current _ _ _ => ?_
  refine .bind (.attempt (φ := fun _ _ => True) (transact hok fun _ _ _ _ => .logout)) fun _ _ _ _ _ => ?_
  exact .except fun _ _ _ _ _ => trivial

include hok in
theorem revokeUserSessions {userID : UserID} : Recorded strict start ok (fun _ _ => True)
    (revokeUserSessions userID) s := by
  refine retrying fun t => reading fun u account _ haccount => .except_bind fun advanced hadvanced => ?_
  refine .weaken (.attempt (φ := fun _ _ => True) ?_) fun _ _ _ _ _ => trivial
  refine transact hok fun w hle hadmits _ => .revokeSessions fun c hc => ?_
  obtain rfl := mem_singleton.mp hc
  exact .account (haccount w.records hle (Versioned.version_of_admits hadmits hc)) (.inr hadvanced)

/-! ## Ceremonies -/

variable {ceremonyID : String}

theorem loadCeremony {authentication : Bool} :
    Recorded strict start ok (fun _ _ => True) (loadCeremony authentication ceremonyID) s :=
  getting fun _ _ _ _ => reject fun _ => .bind clockNow fun _ _ _ _ _ => reject fun _ => .pure fun _ _ _ => trivial

theorem resumeAuthentication {ceremony : Ceremony} :
    Recorded strict start ok (fun _ _ => True) (Identity.resumeAuthentication ceremony) s := by
  unfold Identity.resumeAuthentication
  split
  · exact .throw
  · exact getting fun _ _ _ _ => .pure fun _ _ _ => trivial

include hok in
theorem verifyAuthentication {assertion : Option (UserID × String)} :
    Recorded strict start ok (fun _ _ => True) (verifyAuthentication ceremonyID assertion) s := by
  refine .bind loadCeremony fun t ceremony _ _ _ => ?_
  split
  · exact resumeAuthentication
  · cases assertion with
    | none => exact .throw
    | some assertion =>
      obtain ⟨userID, credentialID⟩ := assertion
      refine .bind clockNow fun _ now _ _ _ => .bind bearerToken fun _ token _ _ howner => ?_
      subst howner
      refine getting fun u account _ haccount => reject fun _ => getting fun w credential hw _ => ?_
      refine .bind (φ := fun _ _ => True) (transact hok fun v hle hadmits hfresh => ?_)
        fun _ _ _ _ _ => .pure fun _ _ _ => trivial
      have hversion : v.records.version (.account token.owner) = some account.1 :=
        Versioned.version_of_admits hadmits
          (show setRecord (.account token.owner) account.1 account.2 ∈ _ from .tail _ (.tail _ (.head _)))
      have hread := (haccount.mono hw) v.records hle hversion
      exact .authentication hread (fun hstrict => hfresh hstrict token rfl) rfl rfl

def PlainWhenAdmitted (userID : UserID) (changes : List RecordChange) (s : IdentityState) : Prop :=
  ∀ t : IdentityState, s.records.Le t.records → (∀ c ∈ changes, t.records.version c.key = c.require) →
    ∀ c ∈ changes, PlainChange t.records userID c

theorem registrationChanges {flow : CeremonyFlow} {userID : UserID} {bearer : String} {now : Time} :
    Recorded strict start ok (fun t changes => PlainWhenAdmitted userID changes t)
      (registrationChanges flow userID bearer now) s := by
  cases flow with
  | authentication => exact .throw
  | addPasskey =>
    refine getting fun t account _ haccount => reject fun _ => .pure fun u hu _ w hw hversion c hc => ?_
    obtain rfl := List.mem_singleton.mp hc
    exact .account ((haccount.mono hu) w.records hw (hversion _ hc)) (.inl rfl)
  | recovery =>
    refine getting fun t recovery _ _ => reject fun _ => getting fun t' account _ haccount => reject fun _ => ?_
    refine .except_bind fun advanced hadvanced => .pure fun u hu _ w hw hversion c hc => ?_
    rcases mem_pair.mp hc with rfl | rfl
    · exact .recovery bearer _ _
    · exact .account ((haccount.mono hu) w.records hw (hversion _ hc)) (.inr hadvanced)

include hok in
theorem verifyRegistration {verified : Option String} :
    Recorded strict start ok (fun _ _ => True) (verifyRegistration ceremonyID verified) s := by
  refine .bind loadCeremony fun t ceremony _ _ _ => ?_
  split
  · exact .throw
  · rename_i userID _
    split
    · exact .pure fun _ _ _ => trivial
    · cases verified with
      | none => exact .throw
      | some credentialID =>
        refine .bind clockNow fun _ now _ _ _ => .bind registrationChanges fun u changes _ _ hplain => ?_
        refine .bind (φ := fun _ _ => True) (transact hok fun w hle hadmits _ => .registration fun c hc => ?_)
          fun _ _ _ _ _ => .pure fun _ _ _ => trivial
        rcases mem_append.mp hc with hc | hc
        · rcases mem_pair.mp hc with rfl | rfl
          · exact .ceremony ceremonyID _ _
          · exact .credential credentialID 0
        · exact hplain w hle (fun c hc => Versioned.version_of_admits hadmits (mem_append_right _ hc)) c hc

include hok in
theorem passkeyVerify {verified : Option String} :
    Recorded strict start ok (fun _ _ => True) (passkeyVerify token ceremonyID verified) s :=
  .bind authenticate fun _ _ _ _ hcurrent => .bind (verifyRegistration hok) fun _ _ hle _ _ =>
    reject fun _ => rotate hok (hcurrent.mono hle)

end Recorded

/-! ## Every call -/

include hok in
theorem IdentityCall.keeps_history (call : IdentityCall) :
    Safe (M := identityMachine) (fun s => History strict start s.log s.records) ok (fun _ _ => True) call.body s := by
  have hany : ∀ {α : Type} {φ : IdentityState → α → Prop} {a : Request α}, Recorded strict start ok φ a s →
      Safe (M := identityMachine) (fun s => History strict start s.log s.records) ok (fun _ _ => True) a.run s :=
    fun h => .weaken h fun _ _ _ _ _ => trivial
  cases call with
  | authenticate token => exact hany .authenticate
  | passkeyVerify token ceremonyID verified => exact hany (.passkeyVerify hok)
  | verifyRegistration ceremonyID verified => exact hany (.verifyRegistration hok)
  | verifyAuthentication ceremonyID assertion => exact hany (.verifyAuthentication hok)
  | logout token => exact hany (.logout hok)
  | revokeUserSessions userID => exact hany (.revokeUserSessions hok)
  | disableUser actor target => exact hany (.retrying fun _ => .disableAttempt hok)
  | enableUser actor target => exact hany (.retrying fun _ => .enableAttempt hok)
  | grantAdmin actor target => exact hany (.retrying fun _ => .grantAttempt hok)
  | revokeAdmin actor target => exact hany (.retrying fun _ => .revokeAttempt hok)

end

theorem Reach.history {strict : Prop} {P : Policy identityMachine IdentityCall} {s : IdentityState}
    {cfg : Config identityMachine IdentityCall.Res} (hP : ∀ s c o, P.step s c o → Allowed strict s o)
    (hlog : s.log = [])
    (h : Reach IdentityCall.body P ⟨s, []⟩ cfg) : History strict s.records cfg.state.log cfg.state.records := by
  have hstart : Config.Sound (fun t : IdentityState => History strict s.records t.log t.records) P (fun _ _ _ => True)
      (⟨s, []⟩ : Config identityMachine IdentityCall.Res) :=
    ⟨hlog ▸ .nil, fun _ ht => nomatch ht⟩
  exact (h.sound hstart (fun _ call _ _ => call.keeps_history hP) fun _ _ hI _ => hI).state

/-! ## What a transaction leaves -/

/-- How a transaction changes an account that is stored. -/
inductive AccountStep (label : CommitLabel) (userID : UserID) (account : Account) : Account → Prop where
  | same : AccountStep label userID account account
  | admin {action : AdminAction} {actor : UserID} {ids roles : List UserID} {account' : Account}
      (by_admin : label = .admin action actor userID) (effect : AdminEffect userID ids account action roles account') :
      AccountStep label userID account account'
  | advance {account' : Account} (not_admin : ∀ action actor target, label ≠ .admin action actor target)
      (advanced : advanceAuthEpoch account = .ok account') : AccountStep label userID account account'

variable {userID : UserID} {c : RecordChange}

theorem PlainChange.key_ne_adminRoles {before : Records} (h : PlainChange before userID c) : c.key ≠ .adminRoles := by
  cases h <;> exact IdentityKey.noConfusion

theorem PlainChange.key_ne_session {before : Records} (h : PlainChange before userID c)
    (token : Token) : c.key ≠ .session token := by
  cases h <;> exact IdentityKey.noConfusion

variable {account : Account} {version : Nat}

theorem PlainChange.account_step {before : Records} {owner : UserID} {label : CommitLabel}
    (h : PlainChange before userID c) (hlabel : ∀ action actor target, label ≠ .admin action actor target)
    (hread : before.cell (.account owner) = some (version, account)) (hk : c.key = .account owner) :
    ∃ account' : Account, c.Writes (.account owner) account' ∧ AccountStep label owner account account' := by
  cases h with
  | account read advances =>
    cases hk
    rw [hread] at read
    cases read
    refine ⟨_, ⟨_, rfl⟩, ?_⟩
    rcases advances with rfl | hadvanced
    · exact .same
    · exact .advance hlabel hadvanced
  | ceremony _ _ _ => cases hk
  | credential _ _ => cases hk
  | recovery _ _ _ => cases hk

variable {strict : Prop} {log : List Commit} {before : Records} {label : CommitLabel} {changes : List RecordChange}

/-- Every change of an account is a step of it. -/
theorem CommitSpec.account_written (h : CommitSpec strict log before label changes)
    (hread : before.cell (.account userID) = some (version, account)) :
    ∀ change ∈ changes, change.key = .account userID →
      ∃ account' : Account, change.Writes (.account userID) account' ∧ AccountStep label userID account account' := by
  intro change hmem hk
  cases h with
  | @admin action actor target authority roles encoded old new targetVersion _ _ target_read actor_read effect _ =>
    have hcases : change = setRecord .adminRoles authority.rolesVersion encoded ∨
        change = setRecord (.account target) targetVersion new ∨
        actor ≠ target ∧ change = setRecord (.account actor) authority.accountVersion authority.account := by
      by_cases hsame : actor = target <;> simpa [adminChanges, hsame] using hmem
    rcases hcases with rfl | rfl | ⟨hne, rfl⟩
    · cases hk
    · cases hk
      rw [hread] at target_read
      cases target_read
      exact ⟨new, ⟨_, rfl⟩, .admin rfl effect⟩
    · cases hk
      have hactor := actor_read hne
      rw [hread] at hactor
      cases hactor
      exact ⟨authority.account, ⟨_, rfl⟩, .same⟩
  | revokeSessions plain => exact (plain change hmem).account_step (fun _ _ _ => CommitLabel.noConfusion) hread hk
  | registration plain => exact (plain change hmem).account_step (fun _ _ _ => CommitLabel.noConfusion) hread hk
  | @authentication token _ _ _ old _ _ _ _ _ read _ _ _ =>
    simp only [mem_cons, not_mem_nil, or_false] at hmem
    rcases hmem with rfl | rfl | rfl | rfl
    · cases hk
    · cases hk
    · cases hk
      rw [hread] at read
      cases read
      exact ⟨account, ⟨_, rfl⟩, .same⟩
    · cases hk
  | rotation _ _ _ _ _ _ => rcases mem_pair.mp hmem with rfl | rfl <;> cases hk
  | logout =>
    obtain rfl := mem_singleton.mp hmem
    cases hk

theorem CommitSpec.account_after (h : CommitSpec strict log before label changes)
    (hread : before.cell (.account userID) = some (version, account)) :
    ∃ version' account', (before.commit changes).cell (.account userID) = some (version', account') ∧
      AccountStep label userID account account' :=
  Versioned.commit_cell (AccountStep label userID account) hread (fun _ => .same) (h.account_written hread)

end EndlessFS.Identity
