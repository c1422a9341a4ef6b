import EndlessFS.Registration.Calls

/-!
# EndlessFS.Registration.Passkeys

The credential index of a user agrees with the credential records. A transaction changes an index and the
credential it names together (`CredentialEffect`), so that neither is ever seen without the other.

* `Agrees`: what holds of the index, the credentials and the account of a user.
* `CommitSpec.agrees`: one transaction keeps it.
* `credentials_indexed`: so every reachable configuration has it.
-/

namespace EndlessFS.Registration

open List
open Conc (Versioned History Ledger)
open Identity (UserID)

/-- The index lists the stored credentials, each once, and an account has one at least. -/
structure Agrees (records : Records) (userID : UserID) : Prop where
  unlisted : records.cell (.credentialIndex userID) = none →
    ∀ credentialID, records.cell (.credential userID credentialID) = none
  listed : ∀ version index, records.cell (.credentialIndex userID) = some (version, index) →
    index.credentialIDs.Nodup ∧ index.credentialIDs ≠ [] ∧
      ∀ credentialID, credentialID ∈ index.credentialIDs ↔ records.cell (.credential userID credentialID) ≠ none
  owned : records.cell (.account userID) ≠ none → records.cell (.credentialIndex userID) ≠ none

theorem filter_ne_nil {ids : List String} (hnodup : ids.Nodup) (hlength : 1 < ids.length) (x : String) :
    ids.filter (· ≠ x) ≠ [] := by
  intro hnil
  have hall : ∀ y ∈ ids, y = x := by
    intro y hy
    by_contra hne
    exact not_mem_nil (hnil ▸ mem_filter.mpr ⟨hy, by simpa using hne⟩)
  rw [eq_replicate_of_mem hall] at hnodup
  exact absurd (nodup_replicate.mp hnodup) (Nat.not_le.mpr hlength)

variable {before : Records} {label : Option Label} {changes : List RecordChange} {userID : UserID}

theorem Agrees.of_same {after : Records} (h : Agrees before userID)
    (hindex : after.cell (.credentialIndex userID) = before.cell (.credentialIndex userID))
    (hcredentials : ∀ credentialID, (after.cell (.credential userID credentialID) ≠ none ↔
      before.cell (.credential userID credentialID) ≠ none))
    (howned : after.cell (.account userID) ≠ none → after.cell (.credentialIndex userID) ≠ none) :
    Agrees after userID where
  unlisted hnone credentialID := by
    by_contra hpresent
    exact (hcredentials credentialID).mp hpresent (h.unlisted (hindex ▸ hnone) credentialID)
  listed version index hcell := by
    obtain ⟨hnodup, hne, hids⟩ := h.listed version index (hindex ▸ hcell)
    exact ⟨hnodup, hne, fun credentialID => (hids credentialID).trans (hcredentials credentialID).symm⟩
  owned := howned

theorem Agrees.of_index {after : Records} {version : Nat} {index : CredentialIndex}
    (hindex : after.cell (.credentialIndex userID) = some (version, index)) (hnodup : index.credentialIDs.Nodup)
    (hne : index.credentialIDs ≠ [])
    (hids : ∀ credentialID, credentialID ∈ index.credentialIDs ↔ after.cell (.credential userID credentialID) ≠ none) :
    Agrees after userID where
  unlisted hnone := nomatch hindex.symm.trans hnone
  listed version' index' hcell := by
    obtain ⟨rfl, rfl⟩ := Prod.mk.inj (Option.some.inj (hindex.symm.trans hcell))
    exact ⟨hnodup, hne, hids⟩
  owned _ := fun hnone => nomatch hindex.symm.trans hnone

theorem CommitSpec.index_present (h : CommitSpec before label changes)
    (hpresent : before.cell (.credentialIndex userID) ≠ none ∨
      ∃ change ∈ changes, change.key = .credentialIndex userID) :
    (before.commit changes).cell (.credentialIndex userID) ≠ none := by
  rcases Conc.overwrite_cases before.next changes before.cell (.credentialIndex userID) with
    ⟨huntouched, hcell⟩ | ⟨change, hmem, hk, hcell⟩
  · rcases hpresent with hpresent | ⟨change, hmem, hk⟩
    · exact fun hnone => hpresent (hcell.symm.trans hnone)
    · exact absurd hk (huntouched change hmem)
  · have hwritten : change.value.isSome = true := by
      have hin : change ∈ credentialChanges changes := mem_filter.mpr ⟨hmem, by rw [hk]; rfl⟩
      have heffect := h.credentials
      generalize credentialChanges changes = l at hin heffect
      cases heffect with
      | none => cases hin
      | first _ _ _ | another _ _ _ _ _ | use _ | remove _ _ _ _ _ =>
        simp only [mem_cons, not_mem_nil, or_false] at hin
        rcases hin with rfl | rfl
        all_goals first | rfl | cases hk
    obtain ⟨key, require, value⟩ := change
    cases hk
    cases value with
    | none => cases hwritten
    | some record => exact fun hnone => nomatch hcell.symm.trans hnone

theorem CommitSpec.owned (h : CommitSpec before label changes) (hagrees : Agrees before userID)
    (haccount : (before.commit changes).cell (.account userID) ≠ none) :
    (before.commit changes).cell (.credentialIndex userID) ≠ none := by
  refine h.index_present ?_
  rcases Conc.overwrite_cases before.next changes before.cell (.account userID) with ⟨_, hcell⟩ | ⟨change, hmem, hk, _⟩
  · exact .inl (hagrees.owned fun hnone => haccount (hcell.trans hnone))
  · obtain ⟨record, rfl | ⟨version, rfl⟩⟩ := (h.each change hmem).at_account hk
    · exact .inr (h.accounts userID record hmem).1
    · exact .inl (hagrees.owned (Versioned.cell_ne_none h.admitted hmem rfl))

theorem cells_of_create (before : Records) (userID : UserID) (credential : Credential) (index : CredentialIndex)
    (require : Option Nat) :
    let after := before.commit [createRecord (.credential userID credential.credentialID) credential,
      { key := .credentialIndex userID, require, value := some index }]
    after.cell (.credentialIndex userID) = some (before.next, index) ∧
      (∀ credentialID, after.cell (.credential userID credentialID) ≠ none ↔
        credentialID = credential.credentialID ∨ before.cell (.credential userID credentialID) ≠ none) ∧
      ∀ other, other ≠ userID → after.cell (.credentialIndex other) = before.cell (.credentialIndex other) ∧
        ∀ credentialID, after.cell (.credential other credentialID) = before.cell (.credential other credentialID) := by
  refine ⟨?_, fun credentialID => ?_, fun other hne => ⟨?_, fun credentialID => ?_⟩⟩
  · simp [Versioned.commit, Conc.overwrite, createRecord]
  · by_cases hsame : credentialID = credential.credentialID
    · subst hsame
      simp [Versioned.commit, Conc.overwrite, createRecord]
    · simp [Versioned.commit, Conc.overwrite, createRecord, hsame]
  · simp [Versioned.commit, Conc.overwrite, createRecord, hne]
  · simp [Versioned.commit, Conc.overwrite, createRecord, hne]

theorem cells_of_remove (before : Records) (userID : UserID) (credentialID : String) (index : CredentialIndex)
    (version credentialVersion : Nat) :
    let after := before.commit [setRecord (.credentialIndex userID) version index,
      deleteRecord (.credential userID credentialID) credentialVersion]
    after.cell (.credentialIndex userID) = some (before.next, index) ∧
      (∀ other, after.cell (.credential userID other) ≠ none ↔
        other ≠ credentialID ∧ before.cell (.credential userID other) ≠ none) ∧
      ∀ other, other ≠ userID → after.cell (.credentialIndex other) = before.cell (.credentialIndex other) ∧
        ∀ credentialID, after.cell (.credential other credentialID) = before.cell (.credential other credentialID) := by
  refine ⟨?_, fun other => ?_, fun other hne => ⟨?_, fun credentialID => ?_⟩⟩
  · simp [Versioned.commit, Conc.overwrite, setRecord, deleteRecord]
  · by_cases hsame : other = credentialID
    · subst hsame
      simp [Versioned.commit, Conc.overwrite, setRecord, deleteRecord]
    · simp [Versioned.commit, Conc.overwrite, setRecord, deleteRecord, hsame]
  · simp [Versioned.commit, Conc.overwrite, setRecord, deleteRecord, hne]
  · simp [Versioned.commit, Conc.overwrite, setRecord, deleteRecord, hne]

theorem CommitSpec.agrees_of_other (h : CommitSpec before label changes) (hagrees : Agrees before userID)
    {l : List RecordChange} (hcells : ∀ {k : Key}, k.ofCredentials = true →
      (before.commit changes).cell k = (before.commit l).cell k)
    (hother : (before.commit l).cell (.credentialIndex userID) = before.cell (.credentialIndex userID) ∧
      ∀ credentialID, (before.commit l).cell (.credential userID credentialID) =
      before.cell (.credential userID credentialID)) :
    Agrees (before.commit changes) userID := by
  refine hagrees.of_same ((hcells rfl).trans hother.1) (fun credentialID => ?_) (h.owned hagrees)
  rw [hcells rfl, hother.2 credentialID]

/-- One transaction keeps the indexes in agreement. -/
theorem CommitSpec.agrees (h : CommitSpec before label changes) (hagrees : ∀ userID, Agrees before userID)
    (userID : UserID) :
    Agrees (before.commit changes) userID := by
  have hcells : ∀ {k : Key}, k.ofCredentials = true → (before.commit changes).cell k =
      (before.commit (credentialChanges changes)).cell k :=
    fun hk => before.commit_filter Key.ofCredentials changes hk
  have hmem : ∀ change ∈ credentialChanges changes, change ∈ changes := fun change hc => (mem_filter.mp hc).1
  have heffect := h.credentials
  generalize credentialChanges changes = l at hcells hmem heffect
  cases heffect with
  | none => exact h.agrees_of_other (hagrees userID) hcells ⟨rfl, fun _ => rfl⟩
  | @use user credential version howner =>
    refine (hagrees userID).of_same ?_ (fun credentialID => ?_) (h.owned (hagrees userID))
    · rw [hcells rfl]
      simp [Versioned.commit, Conc.overwrite, setRecord]
    · rw [hcells rfl]
      by_cases hsame : Key.credential userID credentialID = .credential user credential.credentialID
      · cases hsame
        have hpresent := Versioned.cell_ne_none h.admitted (hmem _ (.head _)) rfl
        simpa [Versioned.commit, Conc.overwrite, setRecord] using hpresent
      · simp only [Versioned.commit, Conc.overwrite, setRecord, foldl_cons, foldl_nil, Function.update_of_ne hsame]
  | @first user credential index howner hfiled hids =>
    obtain ⟨hindex, hcredential, hother⟩ := cells_of_create before user credential index none
    by_cases hu : userID = user
    · subst hu
      have hnone : before.cell (.credentialIndex userID) = none :=
        Versioned.cell_eq_none h.admitted (hmem (createRecord (.credentialIndex userID) index) (by simp)) rfl
      refine .of_index ((hcells rfl).trans hindex) (hids.nodup_iff.mpr (nodup_singleton _))
        (fun hnil => ?_) fun id => ?_
      · exact absurd (hnil ▸ hids).length_eq (by simp)
      · rw [hcells rfl]
        refine Iff.trans ?_ (hcredential id).symm
        simp [hids.mem_iff, (hagrees userID).unlisted hnone id]
    · exact h.agrees_of_other (hagrees userID) hcells (hother userID hu)
  | @another user credential version current index hread howner hfiled hunlisted hids =>
    obtain ⟨hindex, hcredential, hother⟩ := cells_of_create before user credential index (some version)
    by_cases hu : userID = user
    · subst hu
      obtain ⟨hnodup, _, hlisted⟩ := (hagrees userID).listed version current hread
      refine .of_index ((hcells rfl).trans hindex) (hids.nodup_iff.mpr ?_) (fun hnil => ?_) fun id => ?_
      · exact hnodup.append (nodup_singleton _) (by simpa using hunlisted)
      · exact absurd (hnil ▸ hids).length_eq (by simp)
      · rw [hcells rfl]
        refine Iff.trans ?_ (hcredential id).symm
        rw [hids.mem_iff, mem_append, mem_singleton, hlisted id, or_comm]
    · exact h.agrees_of_other (hagrees userID) hcells (hother userID hu)
  | @remove user credentialID version credentialVersion current index hread hfiled hothers hlisted hids =>
    obtain ⟨hindex, hcredential, hother⟩ := cells_of_remove before user credentialID index version credentialVersion
    by_cases hu : userID = user
    · subst hu
      obtain ⟨hnodup, _, hstored⟩ := (hagrees userID).listed version current hread
      refine .of_index ((hcells rfl).trans hindex) (hids.nodup_iff.mpr (hnodup.filter _)) (fun hnil => ?_) fun id => ?_
      · exact filter_ne_nil hnodup hothers credentialID (List.Perm.eq_nil (hnil ▸ hids).symm)
      · rw [hcells rfl]
        refine Iff.trans ?_ (hcredential id).symm
        rw [hids.mem_iff, mem_filter, hstored id, and_comm, decide_eq_true_eq]
    · exact h.agrees_of_other (hagrees userID) hcells (hother userID hu)

theorem agrees_of_history {log : List Entry} {records : Records} (h : History CommitSpec log records) :
    ∀ userID, Agrees records userID := by
  refine h.invariant (P := fun records => ∀ userID, Agrees records userID) (fun userID => ?_) fun _ _ _ hspec =>
    hspec.agrees
  exact ⟨fun _ _ => rfl, fun _ _ h => (nomatch h), fun h => absurd rfl h⟩

/-- In any interleaving of registrations, removals and authentications: the index of a user lists exactly the
stored credentials, each once, and it is not empty if there is an account. -/
theorem credentials_indexed (service : Service) (cfg : Conc.Config machine Call.Result) (h : Reachable service cfg)
    (userID : UserID) :
    (∀ credentialID, (∃ version index, (Ledger.records cfg.state).cell (.credentialIndex userID) =
      some (version, index) ∧
        credentialID ∈ index.credentialIDs) ↔
      ∃ version record, (Ledger.records cfg.state).cell (.credential userID credentialID) = some (version, record) ∧
        record.credentialID = credentialID ∧ record.userID = userID) ∧
    (∀ version index, (Ledger.records cfg.state).cell (.credentialIndex userID) = some (version, index) →
      index.credentialIDs.Nodup) ∧ ((Ledger.records cfg.state).cell (.account userID) ≠ none →
      ∃ version index, (Ledger.records cfg.state).cell (.credentialIndex userID) = some (version, index) ∧
        index.credentialIDs ≠ []) := by
  have hhistory := history_of_reachable h
  have hagrees := agrees_of_history hhistory userID
  generalize Ledger.records cfg.state = records at hhistory hagrees ⊢
  refine ⟨fun credentialID => ⟨fun ⟨version, index, hcell, hmem⟩ => ?_, fun ⟨version, record, hcell, _⟩ => ?_⟩,
    fun version index hcell => (hagrees.listed version index hcell).1, fun haccount => ?_⟩
  · obtain ⟨⟨version', record⟩, hx⟩ :=
      Option.ne_none_iff_exists'.mp (((hagrees.listed version index hcell).2.2 credentialID).mp hmem)
    exact ⟨version', record, hx, filed_of_history hhistory hx⟩
  · cases hindex : records.cell (.credentialIndex userID) with
    | none => exact nomatch hcell.symm.trans (hagrees.unlisted hindex credentialID)
    | some x =>
      refine ⟨x.1, x.2, rfl, ((hagrees.listed x.1 x.2 hindex).2.2 credentialID).mpr fun hnone => ?_⟩
      exact nomatch hcell.symm.trans hnone
  · obtain ⟨x, hx⟩ := Option.ne_none_iff_exists'.mp (hagrees.owned haccount)
    exact ⟨x.1, x.2, hx, (hagrees.listed x.1 x.2 hx).2.1⟩

/-- The founder has exchanged the passkey of the bootstrap for another one. -/
theorem Founding.passkey_indexed :
    ((Ledger.records final.state).cell (.credentialIndex "u")).map (fun x => x.2.credentialIDs) = some ["spare"] ∧
      ((Ledger.records final.state).cell (.account "u") ≠ none →
        ∃ version index, (Ledger.records final.state).cell (.credentialIndex "u") = some (version, index) ∧
          index.credentialIDs ≠ []) :=
  ⟨by decide +kernel, (credentials_indexed service final ⟨fun _ => 0, Conc.Reach.run_any _ _⟩ "u").2.2⟩

end EndlessFS.Registration
