import EndlessFS.Identity.History

/-!
# EndlessFS.Identity.Administrators

There is always an enabled administrator. The enabled administrators are counted by separate reads, and no
transaction requires what was counted; the role list alone carries the invariant, since each transaction
requires its version and keeps or disables one account, its target.

* `Governed`: the roles name somebody, and only users whose accounts are enabled.
* `CommitSpec.governed`: every transaction keeps it.
* `governed_since_bootstrap`: it holds in every run, and only enabled administrators commit changes of roles or
  accounts.
-/

namespace EndlessFS.Identity

open List
open Conc (Versioned Policy Reach Config)

/-! ## Roles and accounts -/

def Enabled (records : Records) (userID : UserID) : Prop :=
  ∃ version account, records.cell (.account userID) = some (version, account) ∧ account.status = .accountEnabled

def Listed (records : Records) (ids : List UserID) : Prop := ∃ version, records.cell .adminRoles = some (version, ids)

variable {ids : List UserID} {records : Records} {version : Nat}

theorem Listed.eq {ids' : List UserID} (h : Listed records ids)
    (hread : records.cell .adminRoles = some (version, ids')) : ids' = ids := by
  obtain ⟨_, hlisted⟩ := h
  rw [hlisted] at hread
  cases hread
  rfl

structure GovernedBy (records : Records) (ids : List UserID) : Prop where
  listed : Listed records ids
  nonempty : ids ≠ []
  enabled : ∀ userID ∈ ids, Enabled records userID

def Governed (records : Records) : Prop := ∃ ids, GovernedBy records ids

variable {encoded : List UserID}

theorem encodeRoles_ok (h : encodeRoles ids = .ok encoded) :
    encoded ≠ [] ∧ ∀ userID, userID ∈ encoded ↔ userID ∈ ids := by
  obtain ⟨_, hempty, h⟩ := Except.bind_ok h
  obtain ⟨_, _, h⟩ := Except.bind_ok h
  obtain ⟨_, _, h⟩ := Except.bind_ok h
  cases h
  have hids : ids ≠ [] := by simpa using rejectIf_eq_ok_iff.mp hempty
  have hmem : ∀ userID, userID ∈ ids.insertionSort (fun left right => left ≤ right) ↔ userID ∈ ids :=
    fun _ => mem_insertionSort _
  refine ⟨fun hnil => ?_, hmem⟩
  obtain ⟨userID, huser⟩ := exists_mem_of_ne_nil ids hids
  exact not_mem_nil (hnil ▸ (hmem userID).mpr huser)

variable {account account' : Account}

theorem advanceAuthEpoch_ok (h : advanceAuthEpoch account = .ok account') :
    account' = { account with authEpoch := effectiveEpoch account + 1 } := by
  obtain ⟨_, _, h⟩ := Except.bind_ok h
  cases h
  rfl

variable {userID : UserID} {target : UserID}

theorem AdminEffect.listed {roles : List UserID}
    {action : AdminAction} (h : AdminEffect target ids account action roles account') (hmem : userID ∈ roles) :
    (userID ∈ ids ∨ userID = target ∧ account.status = .accountEnabled) ∧ (action = .disable → userID ≠ target) := by
  cases h with
  | disable _ =>
    by_cases htarget : target ∈ ids
    · have hkept : userID ∈ ids ∧ userID ≠ target := by simpa [htarget, withoutUserID] using hmem
      exact ⟨.inl hkept.1, fun _ => hkept.2⟩
    · rw [if_neg htarget] at hmem
      exact ⟨.inl hmem, fun _ hsame => htarget (hsame ▸ hmem)⟩
  | enable => exact ⟨.inl hmem, AdminAction.noConfusion⟩
  | grant enabled _ =>
    refine ⟨?_, AdminAction.noConfusion⟩
    rcases mem_append.mp hmem with hmem | hmem
    · exact .inl hmem
    · exact .inr ⟨mem_singleton.mp hmem, enabled⟩
  | revoke _ => exact ⟨.inl (mem_filter.mp hmem).1, AdminAction.noConfusion⟩

theorem AccountStep.enabled {label : CommitLabel}
    (h : AccountStep label userID account account') (henabled : account.status = .accountEnabled)
    (hlabel : ∀ actor, label ≠ .admin .disable actor userID) : account'.status = .accountEnabled := by
  cases h with
  | same => exact henabled
  | advance _ advanced => exact advanceAuthEpoch_ok advanced ▸ henabled
  | admin by_admin effect =>
    cases effect with
    | disable _ => exact absurd by_admin (hlabel _)
    | enable => rfl
    | grant _ advanced => exact advanceAuthEpoch_ok advanced ▸ henabled
    | revoke advanced => exact advanceAuthEpoch_ok advanced ▸ henabled

/-! ## Transactions -/

variable {strict : Prop} {log : List Commit} {before : Records} {label : CommitLabel} {changes : List RecordChange}

theorem CommitSpec.enabled (h : CommitSpec strict log before label changes) (henabled : Enabled before userID)
    (hlabel : ∀ actor, label ≠ .admin .disable actor userID) : Enabled (before.commit changes) userID := by
  obtain ⟨version, account, hread, hstatus⟩ := henabled
  obtain ⟨version', account', hafter, hstep⟩ := h.account_after hread
  exact ⟨version', account', hafter, hstep.enabled hstatus hlabel⟩

theorem GovernedBy.of_unlisted (hbefore : GovernedBy before ids)
    (h : CommitSpec strict log before label changes) (hkeys : ∀ c ∈ changes, c.key ≠ .adminRoles)
    (hlabel : ∀ action actor target, label ≠ .admin action actor target) : GovernedBy (before.commit changes) ids where
  listed := by
    obtain ⟨version, hroles⟩ := hbefore.listed
    exact ⟨version, (before.commit_of_ne hkeys).trans hroles⟩
  nonempty := hbefore.nonempty
  enabled userID hmem := h.enabled (hbefore.enabled userID hmem) fun actor => hlabel .disable actor userID

theorem listed_adminChanges {actor : UserID} {authority : AdminAuthority}
    (hread : before.cell .adminRoles = some (authority.rolesVersion, authority.roles)) :
    Listed (before.commit (adminChanges actor target authority encoded account version)) encoded := by
  have hafter : ∃ version' roles,
      (before.commit (adminChanges actor target authority encoded account version)).cell .adminRoles =
        some (version', roles) ∧
        roles = encoded := by
    refine Versioned.commit_cell (· = encoded) hread
      (fun hnone => (hnone (setRecord .adminRoles authority.rolesVersion encoded) (.head _) rfl).elim)
      fun change hchange hk => ?_
    rcases mem_cons.mp hchange with rfl | hchange
    · exact ⟨encoded, ⟨_, rfl⟩, rfl⟩
    · by_cases hsame : actor = target
      · obtain rfl : change = setRecord (.account target) version account := by simpa [hsame] using hchange
        cases hk
      · obtain rfl | rfl : change = setRecord (.account target) version account ∨
            change = setRecord (.account actor) authority.accountVersion authority.account := by
          simpa [hsame] using hchange
        · cases hk
        · cases hk
  obtain ⟨version', _, hafter, rfl⟩ := hafter
  exact ⟨version', hafter⟩

theorem CommitSpec.governed (h : CommitSpec strict log before label changes) (hbefore : Governed before) :
    Governed (before.commit changes) := by
  obtain ⟨ids, hids⟩ := hbefore
  have hspec := h
  cases h with
  | @admin action actor target authority roles encoded account account' version roles_read _ target_read _ effect
    encodes =>
    obtain ⟨hnonempty, hmem⟩ := encodeRoles_ok encodes
    obtain rfl := hids.listed.eq roles_read
    refine ⟨encoded, listed_adminChanges roles_read, hnonempty, fun userID huser => ?_⟩
    obtain ⟨hlisted, hkept⟩ := effect.listed ((hmem userID).mp huser)
    have henabled : Enabled before userID := by
      rcases hlisted with hlisted | ⟨rfl, hstatus⟩
      · exact hids.enabled userID hlisted
      · exact ⟨version, account, target_read, hstatus⟩
    refine hspec.enabled henabled fun actor' hlabel => ?_
    cases hlabel
    exact hkept rfl rfl
  | revokeSessions plain =>
    exact ⟨ids, hids.of_unlisted hspec (fun c hc => (plain c hc).key_ne_adminRoles) fun _ _ _ =>
      CommitLabel.noConfusion⟩
  | registration plain =>
    exact ⟨ids, hids.of_unlisted hspec (fun c hc => (plain c hc).key_ne_adminRoles) fun _ _ _ =>
      CommitLabel.noConfusion⟩
  | authentication _ _ _ _ =>
    refine ⟨ids, hids.of_unlisted hspec (fun c hc => ?_) fun _ _ _ => CommitLabel.noConfusion⟩
    simp only [mem_cons, not_mem_nil, or_false] at hc
    rcases hc with rfl | rfl | rfl | rfl <;> exact IdentityKey.noConfusion
  | rotation _ _ _ _ _ _ =>
    refine ⟨ids, hids.of_unlisted hspec (fun c hc => ?_) fun _ _ _ => CommitLabel.noConfusion⟩
    rcases mem_pair.mp hc with rfl | rfl <;> exact IdentityKey.noConfusion
  | logout =>
    refine ⟨ids, hids.of_unlisted hspec (fun c hc => ?_) fun _ _ _ => CommitLabel.noConfusion⟩
    obtain rfl := mem_singleton.mp hc
    exact IdentityKey.noConfusion

/-! ## Runs -/

def Commit.Authorized (commit : Commit) : Prop :=
  ∀ action actor target, commit.label = .admin action actor target →
    ∃ ids, Listed commit.before ids ∧ actor ∈ ids ∧ Enabled commit.before actor

theorem History.governed {strict : Prop} {start : Records} {log : List Commit} (h : History strict start log records)
    (hstart : Governed start) : Governed records ∧ ∀ commit ∈ log, commit.Authorized := by
  induction h with
  | nil => exact ⟨hstart, fun _ h => nomatch h⟩
  | @cons log before label changes _ hspec ih =>
    obtain ⟨hbefore, hlog⟩ := ih
    refine ⟨hspec.governed hbefore, fun commit hcommit => ?_⟩
    rcases mem_cons.mp hcommit with rfl | hcommit
    · intro action actor target hlabel
      obtain ⟨ids, hids⟩ := hbefore
      obtain rfl : label = .admin action actor target := hlabel
      cases hspec with
      | admin roles_read member _ _ _ _ =>
        obtain rfl := hids.listed.eq roles_read
        exact ⟨_, hids.listed, member, hids.enabled actor member⟩
    · exact hlog commit hcommit

/-- The records right after the bootstrap: its user is the only administrator. -/
structure Bootstrapped (s : IdentityState) (administrator : UserID) : Prop where
  roles : Listed s.records [administrator]
  enabled : Enabled s.records administrator
  log : s.log = []

theorem Bootstrapped.governed {s : IdentityState} {administrator : UserID} (h : Bootstrapped s administrator) :
    Governed s.records :=
  ⟨[administrator], h.roles, cons_ne_nil _ _, fun _ hmem => mem_singleton.mp hmem ▸ h.enabled⟩

/-- In every run after a bootstrap, of any number of concurrent callers, the roles name an enabled administrator
and nobody whose account is missing or disabled, and only an enabled administrator has committed anything. -/
theorem governed_since_bootstrap {s : IdentityState} {administrator : UserID}
    {cfg : Config identityMachine IdentityCall.Res} (hstart : Bootstrapped s administrator)
    (h : Reach IdentityCall.body (Policy.any identityMachine IdentityCall) ⟨s, []⟩ cfg) :
    (∃ ids, Listed cfg.state.records ids ∧ (∃ userID ∈ ids, Enabled cfg.state.records userID) ∧
      ∀ userID ∈ ids, Enabled cfg.state.records userID) ∧
    ∀ commit ∈ cfg.state.log, ∀ action actor target, commit.label = .admin action actor target →
      ∃ ids, Listed commit.before ids ∧ actor ∈ ids ∧ Enabled commit.before actor := by
  have hallowed : ∀ s c o, (Policy.any identityMachine IdentityCall).step s c o → Allowed False s o := by
    intro s c o _
    cases o with
    | get site key => cases site <;> cases key <;> first | trivial | exact False.elim
    | transact _ _ => exact False.elim
    | sessionAndAccount _ => trivial
    | bearerToken => trivial
    | now => trivial
  obtain ⟨⟨ids, hids⟩, hlog⟩ := (Reach.history hallowed hstart.log h).governed hstart.governed
  obtain ⟨userID, huser⟩ := List.exists_mem_of_ne_nil ids hids.nonempty
  exact ⟨⟨ids, hids.listed, ⟨userID, huser, hids.enabled userID huser⟩, hids.enabled⟩, hlog⟩

namespace Administrators

def record : (key : IdentityKey) → Option (Nat × IdentityRecord key)
  | .account userID => if userID ∈ ["ada", "bo"] then some (0, { status := .accountEnabled, authEpoch := 1 }) else none
  | .adminRoles => some (0, ["ada"])
  | _ => none

def bootstrapped : IdentityState where
  records :=
    { cell := record
      next := 1
      fresh := by
        intro k v x h
        cases k <;> simp [record] at h <;> omega }
  now := 0
  log := []

def served : IdentityChoice := { delivery := .done, secret := 0 }

def events : List (Conc.Event identityMachine IdentityCall) :=
  [.spawn (.grantAdmin "ada" "bo")] ++ List.replicate 4 (.step 0 served) ++
  [.spawn (.disableUser "ada" "bo"), .spawn (.disableUser "bo" "ada")] ++
  (List.replicate 8 [.step 1 served, .step 2 served]).flatten

def reached : Config identityMachine IdentityCall.Res := Config.run IdentityCall.body ⟨bootstrapped, []⟩ events

/-- One of the two wins and stays an administrator. -/
theorem rivals_governed :
    reached.state.log.length = 2 ∧ ∃ ids, Listed reached.state.records ids ∧
      ∃ userID ∈ ids, Enabled reached.state.records userID := by
  have hstart : Bootstrapped bootstrapped "ada" := ⟨⟨0, rfl⟩, ⟨0, _, rfl, rfl⟩, rfl⟩
  have hreach : Reach IdentityCall.body (Policy.any identityMachine IdentityCall) ⟨bootstrapped, []⟩ reached :=
    Reach.run_any _ _
  obtain ⟨ids, hlisted, hsome, _⟩ := (governed_since_bootstrap hstart hreach).1
  exact ⟨by decide +kernel, ids, hlisted, hsome⟩

end Administrators

end EndlessFS.Identity
