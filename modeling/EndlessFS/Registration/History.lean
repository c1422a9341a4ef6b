import EndlessFS.Lib.Result
import EndlessFS.Registration.Programs

/-!
# EndlessFS.Registration.History

What the transactions of registration and authentication do to the records they are committed on.

* `ChangeSpec`: each change of a transaction, in terms of the record before it.
* `CommitSpec`: what holds of the changes of one transaction together: who creates an account marks the
  first account, and credentials change with their index.
* `Call.keeps_history`: every call commits only such transactions, whatever happens in between.
-/

namespace EndlessFS.Registration

open Conc (Versioned Yields Reading Ledger History)
open Identity (UserID encodeRoles)

/-! ## Changes -/

def Filed : (key : Key) → Record key → Prop
  | .ceremony owner ceremonyID, record =>
    record.ceremonyID = ceremonyID ∧ owner = ceremonyID.owner ∧
      (record.type = .ceremonyRegistration → record.userID = owner)
  | .invite tokenHash, record => record.tokenHash = tokenHash
  | .recovery userID tokenHash, record => record.tokenHash = tokenHash ∧ record.targetUserID = userID
  | .credential userID credentialID, record => record.credentialID = credentialID ∧ record.userID = userID
  | .credentialIndex userID, record => record.userID = userID
  | _, _ => True

def Key.plain : Key → Bool
  | .bootstrap | .profile _ | .operation _ _ | .authenticationOperation _ _ | .session _ _ | .idempotency _ _ => true
  | _ => false

def Key.ofCredentials : Key → Bool
  | .credential _ _ | .credentialIndex _ => true
  | _ => false

def Label.consumes : Label → Bool
  | .registration _ _ | .authentication => true
  | _ => false

/-- A change as the services prepare it, on the records it is committed on. -/
inductive ChangeSpec (label : Option Label) (before : Records) : RecordChange → Prop where
  | plain {change : RecordChange} (h : change.key.plain = true) : ChangeSpec label before change
  | marker (record : FirstAccountMarker) : ChangeSpec label before (createRecord .firstAccount record)
  | firstRoles {snapshot : Option Time} (h : label = some (.registration .ceremonyBootstrap snapshot))
    (roles : List UserID) :
      ChangeSpec label before (createRecord .adminRoles roles)
  | roles (version : Nat) (roles : List UserID) : ChangeSpec label before (setRecord .adminRoles version roles)
  | newAccount (userID : UserID) (record : Account) : ChangeSpec label before (createRecord (.account userID) record)
  | account (userID : UserID) (version : Nat) (record : Account) :
      ChangeSpec label before (setRecord (.account userID) version record)
  | credential {change : RecordChange} (h : change.key.ofCredentials = true)
      (filed : ∀ record, change.value = some record → Filed change.key record) : ChangeSpec label before change
  | newCeremony {record : Ceremony} (h : label = some .startCeremony) (unused : record.consumedAt = none)
      (filed : Filed (ceremonyKey record.ceremonyID) record) :
      ChangeSpec label before (createRecord (ceremonyKey record.ceremonyID) record)
  | relabel {owner : Option UserID} {ceremonyID : CeremonyID} {version : Nat} {record record' : Ceremony}
      (h : label = some .labelCeremony) (read : before.cell (.ceremony owner ceremonyID) = some (version, record))
      (same : record'.consumedAt = record.consumedAt) (filed : Filed (.ceremony owner ceremonyID) record') :
      ChangeSpec label before (setRecord (.ceremony owner ceremonyID) version record')
  | consumeCeremony {owner : Option UserID} {ceremonyID : CeremonyID} {version : Nat} {record record' : Ceremony}
      (read : before.cell (.ceremony owner ceremonyID) = some (version, record)) (unused : record.consumedAt = none)
      (used : record'.consumedAt.isSome = true) (filed : Filed (.ceremony owner ceremonyID) record') :
      ChangeSpec label before (setRecord (.ceremony owner ceremonyID) version record')
  | newInvite {tokenHash : String} {record : Invite} (h : label = some .createInvite) (unused : record.uses = 0)
      (filed : Filed (.invite tokenHash) record) : ChangeSpec label before (createRecord (.invite tokenHash) record)
  | revokeInvite {tokenHash : String} {version : Nat} {record record' : Invite} (h : label = some .revokeInvite)
      (read : before.cell (.invite tokenHash) = some (version, record)) (same : record'.uses = record.uses)
      (revoked : record'.revokedAt.isSome = true) (filed : Filed (.invite tokenHash) record') :
      ChangeSpec label before (setRecord (.invite tokenHash) version record')
  | consumeInvite {tokenHash : String} {version : Nat} {record record' : Invite} {flow : CeremonyFlow} {snapshot : Time}
      (h : label = some (.registration flow (some snapshot)))
      (read : before.cell (.invite tokenHash) = some (version, record)) (unused : record.uses = 0)
      (unrevoked : record.revokedAt = none) (unexpired : ∀ t ∈ record.expiresAt, snapshot < t)
      (used : record'.uses = 1) (filed : Filed (.invite tokenHash) record') :
      ChangeSpec label before (setRecord (.invite tokenHash) version record')
  | newRecovery {userID : UserID} {tokenHash : String} {record : Recovery} (h : label = some .createRecovery)
      (filed : Filed (.recovery userID tokenHash) record) :
      ChangeSpec label before (createRecord (.recovery userID tokenHash) record)
  | consumeRecovery {userID : UserID} {tokenHash : String} {version : Nat} {record record' : Recovery}
    {flow : CeremonyFlow}
      {snapshot : Time} (h : label = some (.registration flow (some snapshot)))
      (read : before.cell (.recovery userID tokenHash) = some (version, record)) (unused : record.usedAt = none)
      (unrevoked : record.revokedAt = none) (unexpired : snapshot < record.expiresAt)
      (used : record'.usedAt.isSome = true) (filed : Filed (.recovery userID tokenHash) record') :
      ChangeSpec label before (setRecord (.recovery userID tokenHash) version record')

/-- The changes of a transaction to credentials and their indexes. -/
inductive CredentialEffect (before : Records) : List RecordChange → Prop where
  | none : CredentialEffect before []
  | first {userID : UserID} {credential : Credential} {index : CredentialIndex} (owner : credential.userID = userID)
      (filed : index.userID = userID) (ids : index.credentialIDs.Perm [credential.credentialID]) :
      CredentialEffect before [createRecord (.credential userID credential.credentialID) credential,
        createRecord (.credentialIndex userID) index]
  | another {userID : UserID} {credential : Credential} {version : Nat} {current index : CredentialIndex}
      (read : before.cell (.credentialIndex userID) = some (version, current)) (owner : credential.userID = userID)
      (filed : index.userID = userID) (unlisted : credential.credentialID ∉ current.credentialIDs)
      (ids : index.credentialIDs.Perm (current.credentialIDs ++ [credential.credentialID])) :
      CredentialEffect before [createRecord (.credential userID credential.credentialID) credential,
        setRecord (.credentialIndex userID) version index]
  | use {userID : UserID} {credential : Credential} {version : Nat} (owner : credential.userID = userID) :
      CredentialEffect before [setRecord (.credential userID credential.credentialID) version credential]
  | remove {userID : UserID} {credentialID : String} {version credentialVersion : Nat} {current index : CredentialIndex}
      (read : before.cell (.credentialIndex userID) = some (version, current)) (filed : index.userID = userID)
      (others : 1 < current.credentialIDs.length) (listed : credentialID ∈ current.credentialIDs)
      (ids : index.credentialIDs.Perm (current.credentialIDs.filter (· ≠ credentialID))) :
      CredentialEffect before [setRecord (.credentialIndex userID) version index,
        deleteRecord (.credential userID credentialID) credentialVersion]

def credentialChanges (changes : List RecordChange) : List RecordChange :=
  changes.filter fun change => change.key.ofCredentials

/-- The transaction spends a ceremony, and the invite or recovery that the ceremony was started with. -/
structure Consumed (before : Records) (label : Label) (changes : List RecordChange) (ceremonyID : CeremonyID)
    (ceremony : Ceremony) : Prop where
  read : ∃ version, before.cell (ceremonyKey ceremonyID) = some (version, ceremony)
  spends : ∃ change ∈ changes, change.key = ceremonyKey ceremonyID
  flow : ∀ flow snapshot, label = .registration flow snapshot → ceremony.flow = flow
  invite : ∀ snapshot, label = .registration .ceremonyInvite snapshot →
    ∃ change ∈ changes, change.key = .invite ceremony.bearerTokenHash
  recovery : ∀ snapshot, label = .registration .ceremonyRecovery snapshot →
    ∃ userID ∈ ceremony.userID, ∃ change ∈ changes, change.key = .recovery userID ceremony.bearerTokenHash

/-- A transaction as the services prepare it, on the records it is committed on. -/
structure CommitSpec (before : Records) (label : Option Label) (changes : List RecordChange) : Prop where
  admitted : before.admits changes = true
  each : ∀ change ∈ changes, ChangeSpec label before change
  credentials : CredentialEffect before (credentialChanges changes)
  /-- Who creates an account gives it a credential, and leaves the first-account marker. -/
  accounts : ∀ userID record, createRecord (.account userID) record ∈ changes →
    (∃ change ∈ changes, change.key = .credentialIndex userID) ∧
      (before.cell .firstAccount ≠ none ∨ ∃ marker, createRecord .firstAccount marker ∈ changes)
  bootstrap : ∀ snapshot, label = some (.registration .ceremonyBootstrap snapshot) →
    ∃ marker, createRecord .firstAccount marker ∈ changes
  consumed : ∀ kind, label = some kind → kind.consumes = true →
    ∃ ceremonyID ceremony, Consumed before kind changes ceremonyID ceremony

/-! ## The changes of one key -/

namespace ChangeSpec

variable {label : Option Label} {before : Records} {change : RecordChange}

section

variable (h : ChangeSpec label before change)

include h

theorem at_firstAccount (hk : change.key = .firstAccount) : ∃ record, change = createRecord .firstAccount record := by
  cases h with
  | marker record => exact ⟨record, rfl⟩
  | plain h | credential h _ => simp [hk, Key.plain, Key.ofCredentials] at h
  | _ => cases hk

theorem at_adminRoles (hk : change.key = .adminRoles) :
    ∃ roles, change = createRecord .adminRoles roles ∧
    (∃ snapshot, label = some (.registration .ceremonyBootstrap snapshot)) ∨
      ∃ version, change = setRecord .adminRoles version roles := by
  cases h with
  | firstRoles h roles => exact ⟨roles, .inl ⟨rfl, _, h⟩⟩
  | roles version roles => exact ⟨roles, .inr ⟨version, rfl⟩⟩
  | plain h | credential h _ => simp [hk, Key.plain, Key.ofCredentials] at h
  | _ => cases hk

theorem at_account {userID : UserID} (hk : change.key = .account userID) :
    ∃ record, change = createRecord (.account userID) record ∨
      ∃ version, change = setRecord (.account userID) version record := by
  cases h with
  | newAccount _ record =>
    cases hk
    exact ⟨record, .inl rfl⟩
  | account _ version record =>
    cases hk
    exact ⟨record, .inr ⟨version, rfl⟩⟩
  | plain h | credential h _ => simp [hk, Key.plain, Key.ofCredentials] at h
  | _ => cases hk

theorem at_ceremony {owner : Option UserID} {ceremonyID : CeremonyID} (hk : change.key = .ceremony owner ceremonyID) :
    ∃ record, change.Writes (.ceremony owner ceremonyID) record ∧ Filed (.ceremony owner ceremonyID) record ∧
      (change.require = none ∧ label = some .startCeremony ∨
        ∃ version current, before.cell (.ceremony owner ceremonyID) = some (version, current) ∧
          (label = some .labelCeremony ∧ record.consumedAt = current.consumedAt ∨
            current.consumedAt = none ∧ record.consumedAt.isSome = true)) := by
  cases h with
  | newCeremony h _ filed =>
    cases hk
    exact ⟨_, ⟨none, rfl⟩, filed, .inl ⟨rfl, h⟩⟩
  | relabel h read same filed =>
    cases hk
    exact ⟨_, ⟨_, rfl⟩, filed, .inr ⟨_, _, read, .inl ⟨h, same⟩⟩⟩
  | consumeCeremony read unused used filed =>
    cases hk
    exact ⟨_, ⟨_, rfl⟩, filed, .inr ⟨_, _, read, .inr ⟨unused, used⟩⟩⟩
  | plain h | credential h _ => simp [hk, Key.plain, Key.ofCredentials] at h
  | _ => cases hk

end

/-- An invite that a registration may consume, read at the given time. -/
structure UsableInvite (snapshot : Time) (record : Invite) : Prop where
  unused : record.uses = 0
  unrevoked : record.revokedAt = none
  unexpired : ∀ t ∈ record.expiresAt, snapshot < t

theorem at_invite (h : ChangeSpec label before change) {tokenHash : String} (hk : change.key = .invite tokenHash) :
    ∃ record, change.Writes (.invite tokenHash) record ∧ Filed (.invite tokenHash) record ∧
      (change.require = none ∧ label = some .createInvite ∨
        ∃ version current, before.cell (.invite tokenHash) = some (version, current) ∧
          (label = some .revokeInvite ∧ record.uses = current.uses ∧ record.revokedAt.isSome = true ∨
            ∃ flow snapshot, label = some (.registration flow (some snapshot)) ∧ UsableInvite snapshot current ∧
              record.uses = 1)) := by
  cases h with
  | newInvite h _ filed =>
    cases hk
    exact ⟨_, ⟨none, rfl⟩, filed, .inl ⟨rfl, h⟩⟩
  | revokeInvite h read same revoked filed =>
    cases hk
    exact ⟨_, ⟨_, rfl⟩, filed, .inr ⟨_, _, read, .inl ⟨h, same, revoked⟩⟩⟩
  | consumeInvite h read unused unrevoked unexpired used filed =>
    cases hk
    exact ⟨_, ⟨_, rfl⟩, filed, .inr ⟨_, _, read, .inr ⟨_, _, h, ⟨unused, unrevoked, unexpired⟩, used⟩⟩⟩
  | plain h | credential h _ => simp [hk, Key.plain, Key.ofCredentials] at h
  | _ => cases hk

/-- A recovery that a registration may consume, read at the given time. -/
structure UsableRecovery (snapshot : Time) (record : Recovery) : Prop where
  unused : record.usedAt = none
  unrevoked : record.revokedAt = none
  unexpired : snapshot < record.expiresAt

theorem at_recovery (h : ChangeSpec label before change) {userID : UserID} {tokenHash : String}
    (hk : change.key = .recovery userID tokenHash) :
    ∃ record, change.Writes (.recovery userID tokenHash) record ∧ Filed (.recovery userID tokenHash) record ∧
      (change.require = none ∧ label = some .createRecovery ∨
        ∃ version current, before.cell (.recovery userID tokenHash) = some (version, current) ∧
          ∃ flow snapshot, label = some (.registration flow (some snapshot)) ∧ UsableRecovery snapshot current ∧
            record.usedAt.isSome = true) := by
  cases h with
  | newRecovery h filed =>
    cases hk
    exact ⟨_, ⟨none, rfl⟩, filed, .inl ⟨rfl, h⟩⟩
  | consumeRecovery h read unused unrevoked unexpired used filed =>
    cases hk
    exact ⟨_, ⟨_, rfl⟩, filed, .inr ⟨_, _, read, _, _, h, ⟨unused, unrevoked, unexpired⟩, used⟩⟩
  | plain h | credential h _ => simp [hk, Key.plain, Key.ofCredentials] at h
  | _ => cases hk

theorem filed (h : ChangeSpec label before change) {k : Key} {record : Record k} (hwrites : change.Writes k record) :
    Filed k record := by
  obtain ⟨require, rfl⟩ := hwrites
  cases k with
  | ceremony owner ceremonyID =>
    obtain ⟨_, ⟨_, hsame⟩, hfiled, _⟩ := h.at_ceremony rfl
    cases hsame
    exact hfiled
  | invite tokenHash =>
    obtain ⟨_, ⟨_, hsame⟩, hfiled, _⟩ := h.at_invite rfl
    cases hsame
    exact hfiled
  | recovery userID tokenHash =>
    obtain ⟨_, ⟨_, hsame⟩, hfiled, _⟩ := h.at_recovery rfl
    cases hsame
    exact hfiled
  | credential userID credentialID =>
    cases h with
    | credential _ filed => exact filed record rfl
    | plain h => cases h
  | credentialIndex userID =>
    cases h with
    | credential _ filed => exact filed record rfl
    | plain h => cases h
  | _ => trivial

end ChangeSpec

theorem filed_of_history {log : List Entry} {records : Records} (h : History CommitSpec log records) {k : Key} {v : Nat}
    {record : Record k} (hcell : records.cell k = some (v, record)) : Filed k record := by
  revert hcell
  revert k v
  refine h.invariant (P := fun records => ∀ {k : Key} {v : Nat} {record : Record k}, records.cell k = some (v, record) →
    Filed k record) (fun h => nomatch h) fun before label changes hspec ih k v record hcell => ?_
  rcases Conc.overwrite_some hcell with ⟨hkept, _⟩ | ⟨_, change, hmem, hwrites⟩
  · exact ih hkept
  · exact (hspec.each change hmem).filed hwrites

end EndlessFS.Registration
