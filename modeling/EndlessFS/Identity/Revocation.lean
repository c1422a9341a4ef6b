import EndlessFS.Identity.Administrators

/-!
# EndlessFS.Identity.Revocation

Whether revoked sessions stay revoked. A session is only compared with the epoch of its account, so a token is
revoked by every transaction that advances the epoch; `Rotate` gives the new session the epoch that the account
has by then.

* `revoked`: the tokens issued before an epoch advanced, and those rotated from them.
* `Epochs`: a stored session has at most the epoch of its account, and a smaller one if it is revoked.
* `revoked_stay_revoked`: in runs where `Rotate` finds the epoch of the session that it rotates.
* `Revocation.rotated_past_revocation`: where the epoch advances between the authentication of a request and
  its rotation, the new token is valid.
-/

namespace EndlessFS.Identity

open Conc (Versioned Policy Reach Config)

/-! ## Epochs -/

theorem effectiveAuthEpoch_idem (value : Nat) : effectiveAuthEpoch (effectiveAuthEpoch value) =
    effectiveAuthEpoch value := by
  unfold effectiveAuthEpoch
  split <;> simp_all

variable {account account' : Account}

theorem effectiveEpoch_advanced (h : advanceAuthEpoch account = .ok account') :
    effectiveEpoch account < effectiveEpoch account' := by
  obtain rfl := advanceAuthEpoch_ok h
  simp [effectiveEpoch, effectiveAuthEpoch]

theorem AccountStep.epoch_le {label : CommitLabel} {userID : UserID}
    (h : AccountStep label userID account account') : effectiveEpoch account ≤ effectiveEpoch account' := by
  cases h with
  | same => exact Nat.le_refl _
  | advance _ advanced => exact (effectiveEpoch_advanced advanced).le
  | admin _ effect =>
    cases effect with
    | enable => exact Nat.le_refl _
    | grant _ advanced => exact (effectiveEpoch_advanced advanced).le
    | revoke advanced => exact (effectiveEpoch_advanced advanced).le
    | disable disabled =>
      unfold disableAccount at disabled
      split at disabled
      · cases disabled
        exact Nat.le_refl _
      · exact (effectiveEpoch_advanced disabled).le

def epochOf (records : Records) (userID : UserID) : Option Nat :=
  (records.cell (.account userID)).map fun found => effectiveEpoch found.2

def Commit.advances (commit : Commit) (userID : UserID) : Bool :=
  epochOf commit.before userID ≠ epochOf (commit.before.commit commit.changes) userID

def CommitLabel.rotatesTo (tokens : List Token) : CommitLabel → List Token
  | .rotation old new => if old ∈ tokens then [new] else []
  | _ => []

def revoked : List Commit → List Token
  | [] => []
  | commit :: log =>
    (issued log).filter (fun token => commit.advances token.owner) ++ commit.label.rotatesTo (revoked log) ++
      revoked log

theorem issued_cons (commit : Commit) (log : List Commit) (token : Token) :
    token ∈ issued (commit :: log) ↔ commit.label.issues = some token ∨ token ∈ issued log := by
  cases hissues : commit.label.issues with
  | none => simp [issued, hissues]
  | some new => simp [issued, hissues, eq_comm]

variable {log : List Commit}

theorem mem_revoked_cons {commit : Commit} {token : Token} (h : token ∈ revoked (commit :: log)) :
    token ∈ issued log ∧ commit.advances token.owner = true ∨
      (∃ old, commit.label = .rotation old token ∧ old ∈ revoked log) ∨ token ∈ revoked log := by
  rcases List.mem_append.mp h with h | h
  · rcases List.mem_append.mp h with h | h
    · exact .inl (List.mem_filter.mp h)
    · cases hlabel : commit.label with
      | rotation old new =>
        by_cases hold : old ∈ revoked log
        · obtain rfl : token = new := by simpa [hlabel, CommitLabel.rotatesTo, hold] using h
          exact .inr (.inl ⟨old, rfl, hold⟩)
        · simp [hlabel, CommitLabel.rotatesTo, hold] at h
      | _ => simp [hlabel, CommitLabel.rotatesTo] at h
  · exact .inr (.inr h)

theorem revoked_subset_issued : ∀ log : List Commit, ∀ token ∈ revoked log, token ∈ issued log
  | [], _, h => nomatch h
  | commit :: log, token, h => by
    rw [issued_cons]
    rcases mem_revoked_cons h with ⟨hissued, _⟩ | ⟨old, hlabel, _⟩ | hrevoked
    · exact .inr hissued
    · exact .inl (by rw [hlabel]; rfl)
    · exact .inr (revoked_subset_issued log token hrevoked)

/-! ## The invariant -/

structure SessionEpoch (log : List Commit) (records : Records) (token : Token) (session : Session) : Prop where
  issued : token ∈ issued log
  owner : session.userID = token.owner
  epoch : ∃ version account, records.cell (.account token.owner) = some (version, account) ∧
    effectiveAuthEpoch session.authEpoch ≤ effectiveEpoch account ∧
    (token ∈ revoked log → effectiveAuthEpoch session.authEpoch < effectiveEpoch account)

def Epochs (log : List Commit) (records : Records) : Prop :=
  ∀ token version session, records.cell (.session token) = some (version, session) →
    SessionEpoch log records token session

section

variable {before : Records} {label : CommitLabel} {changes : List RecordChange} {token : Token} {session : Session}
  {change : RecordChange}

theorem CommitSpec.session_written (h : CommitSpec True log before label changes) (hmem : change ∈ changes)
    (hwrites : change.Writes (.session token) session) :
    token ∉ issued log ∧ session.userID = token.owner ∧ label.issues = some token ∧
    ((∃ version account, before.cell (.account token.owner) = some (version, account) ∧
        session.authEpoch = effectiveEpoch account ∧ label = .authentication token) ∨
      ∃ old version current, before.cell (.session old) = some (version, current) ∧ label = .rotation old token ∧
        token.owner = old.owner ∧ session.authEpoch = effectiveAuthEpoch current.authEpoch) := by
  obtain ⟨require, rfl⟩ := hwrites
  cases h with
  | @admin _ actor target _ _ _ _ _ _ _ _ _ _ _ _ =>
    by_cases hsame : actor = target <;> simp [adminChanges, hsame, setRecord] at hmem
  | revokeSessions plain => exact absurd rfl ((plain _ hmem).key_ne_session token)
  | registration plain => exact absurd rfl ((plain _ hmem).key_ne_session token)
  | authentication read fresh owner epoch =>
    simp only [List.mem_cons, List.not_mem_nil, or_false] at hmem
    rcases hmem with hmem | hmem | hmem | hmem <;> cases hmem
    exact ⟨fresh trivial, owner, rfl, .inl ⟨_, _, read, epoch, rfl⟩⟩
  | rotation read fresh owner same_owner current_owner epoch =>
    rcases List.mem_pair.mp hmem with hmem | hmem <;> cases hmem
    exact ⟨fresh trivial, owner, rfl, .inr ⟨_, _, _, read, rfl, same_owner.trans current_owner, epoch trivial⟩⟩
  | logout => cases List.mem_singleton.mp hmem

theorem SessionEpoch.kept (h : SessionEpoch log before token session)
    (hspec : CommitSpec True log before label changes) :
    SessionEpoch ({ before, label, changes } :: log) (before.commit changes) token session := by
  obtain ⟨version, account, hread, hle, hlt⟩ := h.epoch
  obtain ⟨version', account', hafter, hstep⟩ := hspec.account_after hread
  refine ⟨(issued_cons _ _ _).mpr (.inr h.issued), h.owner, version', account', hafter,
    hle.trans hstep.epoch_le, fun hmem => ?_⟩
  rcases mem_revoked_cons hmem with ⟨_, hadvances⟩ | ⟨old, hlabel, _⟩ | hrevoked
  · have hne : effectiveEpoch account ≠ effectiveEpoch account' := by
      simpa [Commit.advances, epochOf, hread, hafter] using hadvances
    exact hle.trans_lt (hstep.epoch_le.lt_of_ne hne)
  · obtain rfl : label = .rotation old token := hlabel
    cases hspec with
    | rotation _ fresh _ _ _ _ => exact absurd h.issued (fresh trivial)
  · exact (hlt hrevoked).trans_le hstep.epoch_le

theorem CommitSpec.new_session (h : CommitSpec True log before label changes) (hbefore : Epochs log before)
    (hmem : change ∈ changes) (hwrites : change.Writes (.session token) session) :
    SessionEpoch ({ before, label, changes } :: log) (before.commit changes) token session := by
  obtain ⟨hfresh, howner, hissues, hnew⟩ := h.session_written hmem hwrites
  -- A token that was not issued before can be revoked only by its rotation.
  have hrotated : token ∈ revoked ({ before, label, changes } :: log) →
      ∃ old, label = .rotation old token ∧ old ∈ revoked log := by
    intro hrevoked
    rcases mem_revoked_cons hrevoked with ⟨hissued, _⟩ | hrotated | hrevoked
    · exact absurd hissued hfresh
    · exact hrotated
    · exact absurd (revoked_subset_issued log token hrevoked) hfresh
  refine ⟨(issued_cons _ _ _).mpr (.inl hissues), howner, ?_⟩
  rcases hnew with ⟨version, account, hread, hepoch, rfl⟩ | ⟨old, version, current, hold, rfl, hsame, hepoch⟩
  · obtain ⟨version', account', hafter, hstep⟩ := h.account_after hread
    refine ⟨version', account', hafter, ?_, fun hrevoked => ?_⟩
    · rw [hepoch, effectiveEpoch, effectiveAuthEpoch_idem]
      exact hstep.epoch_le
    · obtain ⟨_, hlabel, _⟩ := hrotated hrevoked
      cases hlabel
  · obtain ⟨accountVersion, account, hread, hle, hlt⟩ := (hbefore old version current hold).epoch
    rw [← hsame] at hread
    obtain ⟨version', account', hafter, hstep⟩ := h.account_after hread
    rw [hepoch, effectiveAuthEpoch_idem]
    refine ⟨version', account', hafter, hle.trans hstep.epoch_le, fun hrevoked => ?_⟩
    obtain ⟨_, hlabel, hold⟩ := hrotated hrevoked
    cases hlabel
    exact (hlt hold).trans_le hstep.epoch_le

theorem CommitSpec.epochs (h : CommitSpec True log before label changes) (hbefore : Epochs log before) :
    Epochs ({ before, label, changes } :: log) (before.commit changes) := by
  intro token version session hstored
  rcases Conc.overwrite_some hstored with ⟨hstored, _⟩ | ⟨_, change, hmem, hwrites⟩
  · exact (hbefore token version session hstored).kept h
  · exact h.new_session hbefore hmem hwrites

end

variable {records : Records}

theorem History.epochs {start : Records} (h : History True start log records)
    (hstart : ∀ token, start.cell (.session token) = none) : Epochs log records := by
  induction h with
  | nil =>
    intro token version session hstored
    rw [hstart token] at hstored
    cases hstored
  | cons _ hspec ih => exact hspec.epochs ih

theorem Epochs.rejects (h : Epochs log records) {token : Token} (hrevoked : token ∈ revoked log) (now : Time)
    (current : AuthenticatedSession) : checkSession now token (IdentityState.lookupSession records token) ≠
      .ok current := by
  intro hok
  obtain ⟨session, account, hfound, _, hepoch, _⟩ := Recorded.checkSession_ok hok
  obtain ⟨stored, hstored, hfound⟩ := Option.bind_eq_some_iff.mp hfound
  obtain ⟨found, haccount, hfound⟩ := Option.bind_eq_some_iff.mp hfound
  cases hfound
  obtain ⟨version, account', hread, _, hlt⟩ := (h token session.1 session.2 hstored).epoch
  rw [hread] at haccount
  cases haccount
  exact absurd hepoch.symm (hlt hrevoked).ne

/-! ## Runs -/

/-- No token is issued twice, and where `Rotate` reads the account, it has the epoch of the rotated session. -/
def steadyRotations : Policy identityMachine IdentityCall where
  spawn _ _ := True
  step s _ o := Allowed True s o
  drift _ _ := True

/-- In every run in which no epoch advances between the authentication of a request and its rotation, no
revoked token authenticates. -/
theorem revoked_stay_revoked {s : IdentityState} {cfg : Config identityMachine IdentityCall.Res} (hlog : s.log = [])
    (hsessions : ∀ token, s.records.cell (.session token) = none)
    (h : Reach IdentityCall.body steadyRotations ⟨s, []⟩ cfg) : ∀ token ∈ revoked cfg.state.log, ∀ now current,
      checkSession now token (IdentityState.lookupSession cfg.state.records token) ≠ .ok current :=
  fun _ hrevoked => ((Reach.history (fun _ _ _ hstep => hstep) hlog h).epochs hsessions).rejects hrevoked

namespace Revocation

def record : (key : IdentityKey) → Option (Nat × IdentityRecord key)
  | .account "ada" => some (0, { status := .accountEnabled, authEpoch := 1 })
  | .credential "ada" "laptop" => some (0, 0)
  | .ceremony "login" => some (0, { flow := .authentication, userID := none, expiresAt := 100 })
  | .ceremony "passkey" => some (0, { flow := .addPasskey, userID := some "ada", expiresAt := 100 })
  | _ => none

theorem record_version (key : IdentityKey) (version : Nat) (x : IdentityRecord key)
    (h : record key = some (version, x)) :
    version < 1 := by
  unfold record at h
  split at h <;> cases h <;> decide

def start : IdentityState where
  records := { cell := record, next := 1, fresh := record_version }
  now := 0
  log := []

def served (secret : Nat) : IdentityChoice := { delivery := .done, secret }

def token (secret : Nat) : Token := { owner := "ada", secret }

def login : List (Conc.Event identityMachine IdentityCall) :=
  .spawn (.verifyAuthentication "login" (some ("ada", "laptop"))) :: List.replicate 7 (.step 0 (served 1))

def addPasskey : Conc.Event identityMachine IdentityCall := .spawn (.passkeyVerify (token 1) "passkey" (some "phone"))
def revokeSessions : Conc.Event identityMachine IdentityCall := .spawn (.revokeUserSessions "ada")

def orderly : List (Conc.Event identityMachine IdentityCall) :=
  login ++ addPasskey :: List.replicate 11 (.step 1 (served 2)) ++ revokeSessions :: List.replicate 2
    (.step 2 (served 0))

def interleaved : List (Conc.Event identityMachine IdentityCall) :=
  login ++ addPasskey :: List.replicate 2 (.step 1 (served 2)) ++ revokeSessions :: List.replicate 2
    (.step 2 (served 0)) ++
    List.replicate 9 (.step 1 (served 2))

def started : Config identityMachine IdentityCall.Res := ⟨start, []⟩

def reached (events : List (Conc.Event identityMachine IdentityCall)) : IdentityState :=
  (started.run IdentityCall.body events).state

/-- A test for what `steadyRotations` allows. -/
def steady (s : IdentityState) (_ : IdentityChoice) : IdentityOp → Bool
  | .get (.rotation epoch) (.account userID) =>
    (s.records.cell (.account userID)).all fun found => effectiveEpoch found.2 = effectiveAuthEpoch epoch
  | .transact label _ => label.issues.all fun token => token ∉ issued s.log
  | _ => true

theorem allowed_of_steady (s : IdentityState) (c : IdentityChoice) (o : IdentityOp) (h : steady s c o = true) :
    Allowed True s o := by
  cases o with
  | get site key =>
    cases site with
    | plain => cases key <;> trivial
    | rotation epoch =>
      cases key with
      | account userID =>
        intro _ version account hread
        simpa [steady, hread] using h
      | _ => trivial
  | transact label changes =>
    intro _ token htoken
    rw [Option.mem_def] at htoken
    simpa [steady, htoken] using h
  | sessionAndAccount _ => trivial
  | bearerToken => trivial
  | now => trivial

/-- The token that the first was rotated to is revoked like it, and refused. -/
theorem orderly_revoked : token 2 ∈ revoked (reached orderly).log ∧ ∀ now current,
    checkSession now (token 2) (IdentityState.lookupSession (reached orderly).records (token 2)) ≠ .ok current := by
  have hrevoked : token 2 ∈ revoked (reached orderly).log := by decide +kernel
  have hmeets : steadyRotations.MeetsAll IdentityCall.body started orderly := by
    refine Policy.MeetsAll.of_stepsPass (M := identityMachine) steady allowed_of_steady (fun e _ hother cfg => ?_)
      (by decide +kernel)
    cases e with
    | spawn _ => trivial
    | step i c => exact absurd rfl (hother i c)
    | drift _ => trivial
  exact ⟨hrevoked, revoked_stay_revoked rfl (fun _ => rfl) (Reach.of_run hmeets) (token 2) hrevoked⟩

/-- The first token is revoked while its session is being rotated; the new one is accepted. -/
theorem rotated_past_revocation : token 2 ∈ revoked (reached interleaved).log ∧ ∃ current,
    checkSession 1 (token 2) (IdentityState.lookupSession (reached interleaved).records (token 2)) = .ok current := by
  have haccepted : (checkSession 1 (token 2) (IdentityState.lookupSession (reached interleaved).records (token 2))).isOk
      = true := by
    decide +kernel
  refine ⟨by decide +kernel, ?_⟩
  cases hchecked : checkSession 1 (token 2) (IdentityState.lookupSession (reached interleaved).records (token 2)) with
  | ok current => exact ⟨current, rfl⟩
  | error e =>
    rw [hchecked] at haccepted
    cases haccepted

end Revocation

end EndlessFS.Identity
