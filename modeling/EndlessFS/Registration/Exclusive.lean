import EndlessFS.Registration.Calls

/-!
# EndlessFS.Registration.Exclusive

One bootstrap, and one use of each ceremony, invite and recovery. The log holds every transaction that was
committed, newest first; what a later one finds spent it does not consume.

* `Spent`, `Revoked`: kept by every transaction from then on.
* `Consumes`: a registration or authentication that writes the record of a token and leaves it spent.
* `tokens_used_once`: what the log of every reachable configuration says.
-/

namespace EndlessFS.Registration

open Option
open Conc (Versioned History Ledger)
open Identity (UserID)

/-! ## Tokens -/

inductive Consumable where
  | ceremony (ceremonyID : CeremonyID)
  | invite (tokenHash : String)
  | recovery (userID : UserID) (tokenHash : String)
  deriving DecidableEq, Repr

def Consumable.key : Consumable → Key
  | .ceremony ceremonyID => ceremonyKey ceremonyID
  | .invite tokenHash => .invite tokenHash
  | .recovery userID tokenHash => .recovery userID tokenHash

def Spent (records : Records) : Consumable → Prop
  | .ceremony ceremonyID => ∃ version record, records.cell (ceremonyKey ceremonyID) = some (version, record) ∧
      record.consumedAt.isSome = true
  | .invite tokenHash => ∃ version record, records.cell (.invite tokenHash) = some (version, record) ∧ record.uses = 1
  | .recovery userID tokenHash => ∃ version record, records.cell (.recovery userID tokenHash) = some (version, record) ∧
      record.usedAt.isSome = true

def Revoked (records : Records) : Consumable → Prop
  | .ceremony _ => False
  | .invite tokenHash => ∃ version record, records.cell (.invite tokenHash) = some (version, record) ∧
      record.revokedAt.isSome = true
  | .recovery userID tokenHash => ∃ version record, records.cell (.recovery userID tokenHash) = some (version, record) ∧
      record.revokedAt.isSome = true

def Expired (records : Records) (now : Time) : Consumable → Prop
  | .ceremony _ => False
  | .invite tokenHash => ∃ version record, records.cell (.invite tokenHash) = some (version, record) ∧
      ∃ expiresAt ∈ record.expiresAt, expiresAt ≤ now
  | .recovery userID tokenHash => ∃ version record, records.cell (.recovery userID tokenHash) = some (version, record) ∧
      record.expiresAt ≤ now

def IsBootstrap (e : Entry) : Prop := ∃ snapshot, e.label = some (.registration .ceremonyBootstrap snapshot)

def snapshot (e : Entry) : Option Time :=
  match e.label with
  | some (.registration _ snapshot) => snapshot
  | _ => none

def Consumes (e : Entry) (token : Consumable) : Prop :=
  (∃ label, e.label = some label ∧ label.consumes = true) ∧ e.Touches token.key ∧ Spent e.after token

/-! ## What one transaction does to a token -/

variable {before : Records} {label : Option Label} {changes : List RecordChange}

theorem record_unique {k : Key} {v w : Nat} {x y : Record k} (h : before.cell k = some (v, x))
    (h' : before.cell k = some (w, y)) :
    x = y :=
  congrArg Prod.snd (some.inj (h.symm.trans h'))

section

variable (h : CommitSpec before label changes)

include h

theorem CommitSpec.require_ne_none {change : RecordChange} (hmem : change ∈ changes)
    {k : Key} (hk : change.key = k) {x : Nat × Record k} (hcell : before.cell k = some x) : change.require ≠ none := by
  intro hrequire
  subst hk
  exact nomatch hcell.symm.trans (Versioned.cell_eq_none h.admitted hmem hrequire)

variable {token : Consumable}

theorem CommitSpec.spent (hspent : Spent before token) : Spent (before.commit changes) token := by
  cases token with
  | ceremony ceremonyID =>
    obtain ⟨version, record, hcell, hused⟩ := hspent
    refine Versioned.commit_cell (fun record : Ceremony => record.consumedAt.isSome = true) hcell (fun _ => hused)
      fun change hmem hk => ?_
    obtain ⟨written, hwrites, _, ⟨hnone, _⟩ | ⟨_, current, hread, hcase⟩⟩ := (h.each change hmem).at_ceremony hk
    · exact absurd hnone (h.require_ne_none hmem hk hcell)
    · obtain rfl := record_unique hread hcell
      refine ⟨written, hwrites, ?_⟩
      rcases hcase with ⟨_, hsame⟩ | ⟨_, hused'⟩
      · exact hsame ▸ hused
      · exact hused'
  | invite tokenHash =>
    obtain ⟨version, record, hcell, hused⟩ := hspent
    refine Versioned.commit_cell (fun record : Invite => record.uses = 1) hcell
      (fun _ => hused) fun change hmem hk => ?_
    obtain ⟨written, hwrites, _, ⟨hnone, _⟩ | ⟨_, current, hread, hcase⟩⟩ := (h.each change hmem).at_invite hk
    · exact absurd hnone (h.require_ne_none hmem hk hcell)
    · obtain rfl := record_unique hread hcell
      refine ⟨written, hwrites, ?_⟩
      rcases hcase with ⟨_, hsame, _⟩ | ⟨_, _, _, _, hused'⟩
      · exact hsame.trans hused
      · exact hused'
  | recovery userID tokenHash =>
    obtain ⟨version, record, hcell, hused⟩ := hspent
    refine Versioned.commit_cell (fun record : Recovery => record.usedAt.isSome = true) hcell (fun _ => hused)
      fun change hmem hk => ?_
    obtain ⟨written, hwrites, _, ⟨hnone, _⟩ | ⟨_, current, hread, _, _, _, _, hused'⟩⟩ :=
      (h.each change hmem).at_recovery hk
    · exact absurd hnone (h.require_ne_none hmem hk hcell)
    · exact ⟨written, hwrites, hused'⟩

theorem CommitSpec.revoked (hrevoked : Revoked before token) : Revoked (before.commit changes) token := by
  cases token with
  | ceremony ceremonyID => exact hrevoked
  | invite tokenHash =>
    obtain ⟨version, record, hcell, hrevoked⟩ := hrevoked
    refine Versioned.commit_cell (fun record : Invite => record.revokedAt.isSome = true) hcell (fun _ => hrevoked)
      fun change hmem hk => ?_
    obtain ⟨written, hwrites, _, ⟨hnone, _⟩ | ⟨_, current, hread, hcase⟩⟩ := (h.each change hmem).at_invite hk
    · exact absurd hnone (h.require_ne_none hmem hk hcell)
    · obtain rfl := record_unique hread hcell
      rcases hcase with ⟨_, _, hrevoked'⟩ | ⟨_, _, _, husable, _⟩
      · exact ⟨written, hwrites, hrevoked'⟩
      · simp [husable.unrevoked] at hrevoked
  | recovery userID tokenHash =>
    obtain ⟨version, record, hcell, hrevoked⟩ := hrevoked
    refine Versioned.commit_cell (fun record : Recovery => record.revokedAt.isSome = true) hcell (fun _ => hrevoked)
      fun change hmem hk => ?_
    obtain ⟨written, _, _, ⟨hnone, _⟩ | ⟨_, current, hread, _, _, _, husable, _⟩⟩ := (h.each change hmem).at_recovery hk
    · exact absurd hnone (h.require_ne_none hmem hk hcell)
    · obtain rfl := record_unique hread hcell
      simp [husable.unrevoked] at hrevoked

end

structure Usable (e : Entry) (token : Consumable) : Prop where
  unspent : ¬Spent e.before token
  unrevoked : ¬Revoked e.before token
  /-- The invite or recovery was not expired when it was read. -/
  unexpired : (∃ ceremonyID, token = .ceremony ceremonyID) ∨ ∃ time, snapshot e = some time ∧
    ¬Expired e.before time token

theorem Usable.of_consumes {e : Entry} {token : Consumable} (h : CommitSpec e.before e.label e.changes)
    (hconsumes : Consumes e token) :
    Usable e token := by
  obtain ⟨⟨label, hlabel, hkind⟩, ⟨change, hmem, hk⟩, _⟩ := hconsumes
  have hnot : ∀ label', e.label = some label' → label'.consumes = true := fun label' h' => by
    rw [hlabel] at h'
    cases h'
    exact hkind
  cases token with
  | ceremony ceremonyID =>
    obtain ⟨_, _, _, ⟨_, hstart⟩ | ⟨_, current, hread, ⟨hrelabel, _⟩ | ⟨hunused, _⟩⟩⟩ :=
      (h.each change hmem).at_ceremony hk
    · cases hnot _ hstart
    · cases hnot _ hrelabel
    · refine ⟨fun ⟨_, record, hcell, hused⟩ => ?_, id, .inl ⟨_, rfl⟩⟩
      obtain rfl := record_unique hread hcell
      simp [hunused] at hused
  | invite tokenHash =>
    obtain ⟨_, _, _, ⟨_, hcreate⟩ | ⟨_, current, hread, ⟨hrevoke, _⟩ | ⟨_, time, htime, husable, _⟩⟩⟩ :=
      (h.each change hmem).at_invite hk
    · cases hnot _ hcreate
    · cases hnot _ hrevoke
    · have hsame : ∀ version record, e.before.cell (.invite tokenHash) = some (version, record) → record = current :=
        fun _ _ hcell => record_unique hcell hread
      refine ⟨fun ⟨_, record, hcell, hused⟩ => ?_, fun ⟨_, record, hcell, hrevoked⟩ => ?_, .inr ⟨time, ?_, ?_⟩⟩
      · rw [hsame _ _ hcell, husable.unused] at hused
        cases hused
      · rw [hsame _ _ hcell, husable.unrevoked] at hrevoked
        cases hrevoked
      · rw [snapshot, htime]
      · rintro ⟨_, record, hcell, expiresAt, hexpires, hle⟩
        rw [hsame _ _ hcell] at hexpires
        exact absurd (husable.unexpired expiresAt hexpires) (Nat.not_lt.mpr hle)
  | recovery userID tokenHash =>
    obtain ⟨_, _, _, ⟨_, hcreate⟩ | ⟨_, current, hread, _, time, htime, husable, _⟩⟩ :=
      (h.each change hmem).at_recovery hk
    · cases hnot _ hcreate
    · have hsame : ∀ version record, e.before.cell (.recovery userID tokenHash) = some (version, record) →
          record = current :=
        fun _ _ hcell => record_unique hcell hread
      refine ⟨fun ⟨_, record, hcell, hused⟩ => ?_, fun ⟨_, record, hcell, hrevoked⟩ => ?_, .inr ⟨time, ?_, ?_⟩⟩
      · simp [hsame _ _ hcell, husable.unused] at hused
      · simp [hsame _ _ hcell, husable.unrevoked] at hrevoked
      · rw [snapshot, htime]
      · rintro ⟨_, record, hcell, hle⟩
        rw [hsame _ _ hcell] at hle
        exact absurd husable.unexpired (Nat.not_lt.mpr hle)

/-- What a registration or authentication writes of a token leaves it spent. -/
theorem Consumes.of_touches {e : Entry} {token : Consumable} (h : CommitSpec e.before e.label e.changes) {kind : Label}
    (hlabel : e.label = some kind) (hkind : kind.consumes = true) (htouches : e.Touches token.key) :
      Consumes e token := by
  refine ⟨⟨kind, hlabel, hkind⟩, htouches, ?_⟩
  have hnot : ∀ kind', e.label = some kind' → kind'.consumes = true := fun kind' h' => by
    cases hlabel.symm.trans h'
    exact hkind
  rcases Conc.overwrite_cases e.before.next e.changes e.before.cell token.key with ⟨hnone, _⟩ | ⟨change, hmem,
    hk, hcell⟩
  · obtain ⟨change, hmem, hk⟩ := htouches
    exact absurd hk (hnone change hmem)
  · cases token with
    | ceremony ceremonyID =>
      obtain ⟨record, ⟨_, rfl⟩, _, ⟨_, hstart⟩ | ⟨_, _, _, ⟨hrelabel, _⟩ | ⟨_, hused⟩⟩⟩ :=
        (h.each change hmem).at_ceremony hk
      · cases hnot _ hstart
      · cases hnot _ hrelabel
      · exact ⟨_, record, hcell, hused⟩
    | invite tokenHash =>
      obtain ⟨record, ⟨_, rfl⟩, _, ⟨_, hcreate⟩ | ⟨_, _, _, ⟨hrevoke, _⟩ | ⟨_, _, _, _, hused⟩⟩⟩ :=
        (h.each change hmem).at_invite hk
      · cases hnot _ hcreate
      · cases hnot _ hrevoke
      · exact ⟨_, record, hcell, hused⟩
    | recovery userID tokenHash =>
      obtain ⟨record, ⟨_, rfl⟩, _, ⟨_, hcreate⟩ | ⟨_, _, _, _, _, _, _, hused⟩⟩ := (h.each change hmem).at_recovery hk
      · cases hnot _ hcreate
      · exact ⟨_, record, hcell, hused⟩

/-! ## Accounts -/

variable {log : List Entry} {records : Records}

theorem firstAccount_of_account (h : History CommitSpec log records) {userID : UserID}
    (haccount : ∃ e ∈ log, e.Touches (.account userID)) : ∃ e ∈ log, e.Touches .firstAccount := by
  induction h generalizing userID with
  | nil =>
    obtain ⟨_, he, _⟩ := haccount
    cases he
  | @cons log before label changes hhistory hspec ih =>
    have hearlier : (∃ e ∈ log, e.Touches .firstAccount) →
        ∃ e ∈ ({ before, label, changes } : Entry) :: log, e.Touches .firstAccount :=
      fun ⟨e, he, ht⟩ => ⟨e, .tail _ he, ht⟩
    obtain ⟨e, he, ht⟩ := haccount
    rcases List.mem_cons.mp he with rfl | he
    · obtain ⟨change, hmem, hk⟩ := ht
      obtain ⟨record, rfl | ⟨version, rfl⟩⟩ := (hspec.each change hmem).at_account hk
      · rcases (hspec.accounts userID record hmem).2 with hpresent | ⟨marker, hmarker⟩
        · obtain ⟨x, hx⟩ := ne_none_iff_exists'.mp hpresent
          exact hearlier (hhistory.touched_of_cell hx)
        · exact ⟨_, .head _, _, hmarker, rfl⟩
      · obtain ⟨x, hx⟩ := ne_none_iff_exists'.mp (Versioned.cell_ne_none hspec.admitted hmem rfl)
        exact hearlier (ih (hhistory.touched_of_cell hx))
    · exact hearlier (ih ⟨e, he, ht⟩)

/-! ## The whole log -/

/-- One bootstrap and one use per token, in a log that is read from its newest transaction. -/
structure OneUse (log : List Entry) : Prop where
  /-- A bootstrap comes first: before it there is none, and no account was created. -/
  bootstrap : ∀ later e earlier, log = later ++ e :: earlier → IsBootstrap e →
    (∀ e' ∈ earlier, ¬IsBootstrap e' ∧ ∀ userID, ¬e'.Touches (.account userID)) ∧
      ∀ userID, e.before.cell (.account userID) = none
  /-- The administrator roles are created by the bootstrap only. -/
  roles : ∀ e ∈ log, e.Touches .adminRoles → e.before.cell .adminRoles = none → IsBootstrap e
  /-- A token is consumed once. -/
  once : ∀ token later e earlier, log = later ++ e :: earlier → Consumes e token → ∀ e' ∈ earlier, ¬Consumes e' token
  /-- What is consumed was usable, and never revoked before. -/
  usable : ∀ token later e earlier, log = later ++ e :: earlier → Consumes e token →
    Usable e token ∧ ∀ e' ∈ earlier, ¬Revoked e'.after token
  /-- A registration consumes its ceremony, and the invite or recovery that the ceremony was started with; an
  authentication consumes its ceremony. -/
  consumed : ∀ e ∈ log, ∀ kind, e.label = some kind → kind.consumes = true → ∃ ceremonyID version ceremony,
    e.before.cell (ceremonyKey ceremonyID) = some (version, ceremony) ∧ Consumes e (.ceremony ceremonyID) ∧
      ∀ flow snapshot, kind = .registration flow snapshot → ceremony.flow = flow ∧
        (flow = .ceremonyInvite → Consumes e (.invite ceremony.bearerTokenHash)) ∧
        (flow = .ceremonyRecovery → ∃ userID ∈ ceremony.userID, Consumes e (.recovery userID ceremony.bearerTokenHash))

theorem oneUse_of_history (h : History CommitSpec log records) : OneUse log where
  bootstrap := by
    rintro later e earlier rfl ⟨snapshot, hlabel⟩
    obtain ⟨hhistory, hspec⟩ := h.at_entry
    obtain ⟨marker, hmarker⟩ := hspec.bootstrap snapshot hlabel
    have hnone : e.before.cell .firstAccount = none := Versioned.cell_eq_none hspec.admitted hmarker rfl
    have hfirst : ¬∃ e' ∈ earlier, e'.Touches .firstAccount := fun ht => firstAccount_of_touched hhistory ht hnone
    have haccount : ∀ userID, ¬∃ e' ∈ earlier, e'.Touches (.account userID) :=
      fun userID ht => hfirst (firstAccount_of_account hhistory ht)
    refine ⟨fun e' he' => ⟨fun ⟨snapshot', hlabel'⟩ => hfirst ?_, fun userID ht => haccount userID ⟨e', he', ht⟩⟩,
      fun userID => ?_⟩
    · obtain ⟨_, _, hspec'⟩ := hhistory.of_mem he'
      obtain ⟨marker', hmarker'⟩ := hspec'.bootstrap snapshot' hlabel'
      exact ⟨e', he', _, hmarker', rfl⟩
    · by_contra hpresent
      obtain ⟨x, hx⟩ := ne_none_iff_exists'.mp hpresent
      exact haccount userID (hhistory.touched_of_cell hx)
  roles := by
    rintro e he ⟨change, hmem, hk⟩ hnone
    obtain ⟨_, _, hspec⟩ := h.of_mem he
    obtain ⟨roles, ⟨_, hboot⟩ | ⟨version, rfl⟩⟩ := (hspec.each change hmem).at_adminRoles hk
    · exact hboot
    · exact absurd hnone (Versioned.cell_ne_none hspec.admitted hmem rfl)
  once := by
    rintro token later e earlier rfl hconsumes e' he' hconsumes'
    obtain ⟨hhistory, hspec⟩ := h.at_entry
    refine (Usable.of_consumes hspec hconsumes).unspent ?_
    exact hhistory.persists (P := fun records => Spent records token) (fun _ _ _ hs => hs.spent) he' hconsumes'.2.2
  usable := by
    rintro token later e earlier rfl hconsumes
    obtain ⟨hhistory, hspec⟩ := h.at_entry
    have husable := Usable.of_consumes hspec hconsumes
    refine ⟨husable, fun e' he' hrevoked => husable.unrevoked ?_⟩
    exact hhistory.persists (P := fun records => Revoked records token) (fun _ _ _ hs => hs.revoked) he' hrevoked
  consumed := by
    intro e he kind hlabel hkind
    obtain ⟨_, _, hspec⟩ := h.of_mem he
    obtain ⟨ceremonyID, ceremony, hconsumed⟩ := hspec.consumed kind hlabel hkind
    obtain ⟨version, hread⟩ := hconsumed.read
    refine ⟨ceremonyID, version, ceremony, hread, .of_touches hspec hlabel hkind hconsumed.spends,
      fun flow snapshot hflow => ?_⟩
    refine ⟨hconsumed.flow flow snapshot hflow, fun hinvite => ?_, fun hrecovery => ?_⟩
    · exact .of_touches hspec hlabel hkind (hconsumed.invite snapshot (hinvite ▸ hflow))
    · obtain ⟨userID, huser, htouches⟩ := hconsumed.recovery snapshot (hrecovery ▸ hflow)
      exact ⟨userID, huser, .of_touches hspec hlabel hkind htouches⟩

/-- In any interleaving of registrations, authentications and administration, with lost requests and responses:
one bootstrap at most, before every account; and each ceremony, invite and recovery is used once, while usable. -/
theorem tokens_used_once (service : Service) (cfg : Conc.Config machine Call.Result) (h : Reachable service cfg) :
    OneUse (Ledger.log cfg.state) :=
  oneUse_of_history (history_of_reachable h)

/-- A bootstrap, a registration by invite and one for another passkey. -/
theorem Founding.invite_used_once :
    (Ledger.log final.state).map (fun e => e.label) = [some .removeCredential,
        some (.registration .ceremonyAddPasskey none), some .startCeremony,
        some (.registration .ceremonyInvite (some 0)), some .startCeremony, some .createInvite,
        some (.registration .ceremonyBootstrap none), some .startCeremony] ∧ OneUse (Ledger.log final.state) :=
  ⟨by decide +kernel, tokens_used_once service final ⟨fun _ => 0, Conc.Reach.run_any _ _⟩⟩

/-- Since the first transaction that left it so, each token has stayed spent, and each has stayed revoked. -/
def StayUsed (s : State) : Prop :=
  ∀ e ∈ s.log, ∀ token, (Spent e.after token → Spent s.records token) ∧
    (Revoked e.after token → Revoked s.records token)

theorem tokens_stay_used {service : Service} {cfg : Conc.Config machine Call.Result} (h : Reachable service cfg) :
    StayUsed cfg.state := fun _ he token =>
  ⟨(history_of_reachable h).persists (P := fun records => Spent records token) (fun _ _ _ hs => hs.spent) he,
    (history_of_reachable h).persists (P := fun records => Revoked records token) (fun _ _ _ hs => hs.revoked) he⟩

/-- The invite is spent by a registration that others follow. -/
theorem Founding.stays_used : ((Ledger.records final.state).cell (.invite
      "admin-invite-token-v1\x00u\x000123456789abcdef")).map (fun x => x.2.uses) = some 1 ∧ StayUsed final.state :=
  ⟨by decide +kernel, tokens_stay_used ⟨fun _ => 0, Conc.Reach.run_any _ _⟩⟩

end EndlessFS.Registration
