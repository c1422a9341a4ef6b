import EndlessFS.Preview.Fencing

/-!
# EndlessFS.Preview.Generations

What the calls of the durable preview store come to, in any interleaving.

* `Recorded`: one rule per program; each carries out only puts as specified (`CommitSpec`).
* `Call.Post`: what a call that returned without an error has done or found.
* `Fenced`, `generations_fenced`: claims fence stale workers.
-/

namespace EndlessFS.Preview.Durable

open Conc (Versioned Yields Reading Ledger History)
open Identity (reject)

section

variable {ok : State → Conc.LedgerChoice → Conc.LedgerOp Key Record Label → Prop} {α β : Type} {store : Store}
  {process : Nat}

/-- The program carries out puts as specified only; `φ` holds of its result. -/
abbrev Recorded (store : Store) (ok : State → Conc.LedgerChoice → Conc.LedgerOp Key Record Label → Prop)
    (φ : State → α → Prop) (a : Request α) (s : State) : Prop :=
  Conc.Logged (fun _ => false) (CommitSpec store) ok φ a s

abbrev Knows (store : Store) (process : Nat) (s : State) (key : Key) (r : Reading (Record key)) : Prop :=
  Ledger.Knows (CommitSpec store) process s key r

variable {key : Key} {body : Record key}

theorem Put.mono {s t : State} (h : Put s.log key body) (hle : Ledger.Le s t) : Put t.log key body := by
  obtain ⟨e, he, hwritten⟩ := h
  exact ⟨e, hle.log.subset he, hwritten⟩

theorem Artifact.ext_of (a b : Artifact) (hmetadata : a.toArtifactMetadata = b.toArtifactMetadata)
    (hbytes : a.bytes = b.bytes) :
    a = b := by
  cases b
  cases hmetadata
  cases hbytes
  rfl

variable {metadata : ArtifactMetadata}

theorem committed_of_head {s : State} {head : Reading HeadRecord} (h : Knows store process s .head head)
    (hmem : metadata ∈ head.value.generations) :
    ∃ e ∈ s.log, ∃ claim artifact, e.label = some (.commit claim artifact) ∧
      artifact.toArtifactMetadata = metadata := by
  obtain ⟨log, records, hhistory, hlog, hcell⟩ := h.source
  obtain ⟨e, he, hcommit⟩ := committed_of_visible hhistory (visible_eq hcell ▸ hmem)
  exact ⟨e, hlog.subset he, hcommit⟩

namespace Recorded

variable {φ : State → α → Prop} {ψ : State → β → Prop} {s : State}

theorem bind {a : Request α} {f : α → Request β} (ha : Recorded store ok φ a s)
    (hf : ∀ t x, Ledger.Le s t → φ t x → Recorded store ok ψ (f x) t) : Recorded store ok ψ (a >>= f) s :=
  Yields.bind ha fun t x hle _ hx => hf t x hle hx

theorem getObject : Recorded store ok (fun t found => ∀ r, found = some r → Knows store process t key r)
    (Durable.getObject process key) s := by
  refine .get fun t reply x _ hknows hx r hr => ?_
  cases reply with
  | none => cases hx
  | some found =>
    cases hx
    exact hknows r (congrArg some hr)

theorem clockNow : Recorded store ok (fun _ _ => True) (Durable.clockNow process) s :=
  .now fun _ _ _ _ _ _ _ => trivial

variable {change : RecordChange}

theorem putObject {label : Label}
    (h : ∀ t : State, Ledger.Le s t → History (CommitSpec store) t.log t.records → t.records.admits [change] = true →
      CommitSpec store t.records (some label) [change]) :
    Recorded store ok (fun u _ => ∃ e ∈ u.log, e.label = some label ∧
      e.changes = [change]) (Durable.putObject label change) s := by
  refine .transact h fun t u outcome x _ _ hcommitted hx => ?_
  rcases outcome with (_ | version) | _ | _
  · cases hx
  · obtain ⟨_, hle⟩ := hcommitted version rfl
    exact ⟨_, hle.log.subset (.head _), rfl, rfl⟩
  · cases hx
  · cases hx

theorem readHead : Recorded store ok (fun t found => ∀ r, found = some r → Knows store process t .head r)
    (Durable.readHead store process) s := by
  refine bind getObject fun t found _ hfound => ?_
  cases found with
  | none => exact .pure fun _ _ _ _ h => nomatch h
  | some head =>
    refine reject fun _ => .pure fun u hle _ r hr => ?_
    cases hr
    exact (hfound head rfl).mono hle

theorem requireHead : Recorded store ok (fun t head => Knows store process t .head head)
    (Durable.requireHead store process) s := by
  refine bind readHead fun t found _ hfound => ?_
  cases found with
  | none => exact .throw
  | some head => exact .pure fun u hle _ => (hfound head rfl).mono hle

/-! ## Claims -/

variable {caller : Nat}

theorem putClaim {claim : GenerationClaim}
    (h : ∀ t : State, Ledger.Le s t → History (CommitSpec store) t.log t.records → t.records.admits [change] = true →
      CommitSpec store t.records (some (.claim caller claim)) [change]) :
    Recorded store ok (fun u r => ∀ granted, r = some granted → ∃ e ∈ u.log, e.label = some (.claim caller granted))
      (Durable.putClaim caller claim change) s := by
  refine bind (.attempt (putObject h)) fun t r _ hr => ?_
  cases r with
  | ok version =>
    refine .pure fun u hle _ granted hgranted => ?_
    cases hgranted
    obtain ⟨e, he, hlabel, _⟩ := hr version rfl
    exact ⟨e, hle.log.subset he, hlabel⟩
  | error e =>
    dsimp only
    split
    · exact .pure fun _ _ _ _ h => nomatch h
    · exact .throw

variable {claimID : String} {expiresAt : Time}

theorem claimAttempt (hid : claimID ≠ "") :
    Recorded store ok (fun u r => ∀ granted, r = some granted → ∃ e ∈ u.log, e.label = some (.claim caller granted))
      (Durable.claimAttempt store process caller claimID expiresAt) s := by
  refine bind readHead fun t found _ hfound => ?_
  cases found with
  | none =>
    refine putClaim fun u _ _ hadmits => .create ?_ rfl hid
    exact Versioned.cell_eq_none hadmits (.head _) rfl
  | some head =>
    refine bind clockNow fun u _ htu _ => reject fun _ => reject fun _ => putClaim fun w huw _ hadmits =>
      .claim ?_ rfl hid
    exact (hfound head rfl).cell (htu.trans huw) hadmits (.head _) rfl rfl

theorem claim : Recorded store ok (fun u granted => ∃ e ∈ u.log, e.label = some (.claim caller granted))
      (Durable.claim store process caller claimID expiresAt) s := by
  refine bind clockNow fun t _ hst _ => reject fun hvalid => ?_
  have hid : claimID ≠ "" := by
    simp only [Bool.or_eq_false_iff, decide_eq_false_iff_not] at hvalid
    exact hvalid.1.1
  generalize maximumRetries = attempts
  induction attempts generalizing t with
  | zero => exact .throw
  | succ attempts ih =>
    refine bind (claimAttempt hid) fun u r htu hr => ?_
    cases r with
    | none => exact ih u (hst.trans htu)
    | some granted =>
      refine .pure fun w huw _ => ?_
      obtain ⟨e, he, hlabel⟩ := hr granted rfl
      exact ⟨e, huw.log.subset he, hlabel⟩

variable {held : GenerationClaim}

theorem release : Recorded store ok (fun u _ => ∃ e ∈ u.log, e.label = some (.release held))
    (Durable.release store process held) s := by
  refine reject fun _ => bind requireHead fun t head _ hhead => reject fun hsame => ?_
  refine bind (.attempt (putObject fun u htu _ hadmits => .release ?_ (by simpa using hsame))) fun _ r _ hr => ?_
  · exact hhead.cell htu hadmits (.head _) rfl rfl
  · cases r with
    | ok version =>
      refine .pure fun u hle _ => ?_
      obtain ⟨e, he, hlabel, _⟩ := hr version rfl
      exact ⟨e, hle.log.subset he, hlabel⟩
    | error e =>
      dsimp only
      split <;> exact .throw

/-! ## Commits -/

theorem putImmutableOrVerify (hkey : key ≠ .head) :
    Recorded store ok (fun u _ => Put u.log key body) (Durable.putImmutableOrVerify process key body) s := by
  refine bind (.attempt (putObject fun t _ _ hadmits => .immutable hkey ?_)) fun t r _ hr => ?_
  · exact Versioned.cell_eq_none hadmits (.head _) rfl
  · cases r with
    | ok version =>
      refine .pure fun u hle _ => ?_
      obtain ⟨e, he, _, hchanges⟩ := hr version rfl
      exact ⟨e, hle.log.subset he, _, hchanges ▸ List.mem_cons_self, none, rfl⟩
    | error e =>
      dsimp only
      split
      · refine bind getObject fun u existing _ hexisting => .except fun _ hsame w huw _ => ?_
        have hvalue : existing.map (·.value) = some body := by
          by_contra hne
          simp [rejectIf, hne] at hsame
        obtain ⟨r, rfl, rfl⟩ := Option.map_eq_some_iff.mp hvalue
        exact ((hexisting r rfl).mono huw).written
      · exact .throw

theorem checkedHead {artifact : Artifact} :
    Recorded store ok (fun t head => Knows store process t .head head ∧ sameClaim head.value held = true)
      (Durable.checkedHead store process held artifact) s := by
  refine bind requireHead fun t head _ hhead => bind clockNow fun u _ htu _ => reject fun hsame => reject fun _ => ?_
  refine .pure fun w huw _ => ⟨hhead.mono (htu.trans huw), ?_⟩
  simp only [Bool.or_eq_false_iff, Bool.not_eq_false'] at hsame
  exact hsame.1

theorem commit {artifact : Artifact} :
    Recorded store ok (fun u _ => ∃ e ∈ u.log, ∃ claim, e.label = some (.commit claim artifact))
      (Durable.commit store process held artifact) s := by
  refine reject fun hvalid => bind checkedHead fun _ _ _ _ => ?_
  refine bind (putImmutableOrVerify (by simp)) fun t₁ _ _ hbytes =>
    bind (putImmutableOrVerify (by simp)) fun t₂ _ h₁₂ hmanifest => ?_
  refine bind checkedHead fun t₃ head h₂₃ hhead => ?_
  have hid : held.id ≠ "" := by
    simp only [GenerationClaim.valid, Bool.or_eq_false_iff, Bool.not_eq_false', Bool.and_eq_true,
      decide_eq_true_eq] at hvalid
    exact hvalid.1.1.1.1.1
  refine bind (.attempt (putObject fun u hu hhistory hadmits => ?_)) fun u r hu hr => ?_
  · refine .commit ?_ hhead.2 hid ?_ ?_
    · exact hhead.1.cell hu hadmits (.head _) rfl rfl
    · exact cell_of_put hhistory (by simp) (hbytes.mono (h₁₂.trans (h₂₃.trans hu)))
    · exact cell_of_put hhistory (by simp) (hmanifest.mono (h₂₃.trans hu))
  · cases r with
    | ok version =>
      refine .pure fun w hw _ => ?_
      obtain ⟨e, he, hlabel, _⟩ := hr version rfl
      exact ⟨e, hw.log.subset he, held, hlabel⟩
    | error e =>
      dsimp only
      split
      · exact .throw
      · refine bind (.attempt requireHead) fun w r huw hr => ?_
        cases r with
        | error _ => exact .throw
        | ok recovered =>
          dsimp only
          split
          · -- whoever committed the generation stored the same bytes
            rename_i hfound
            refine .pure fun x hwx hhistory => ?_
            obtain ⟨e, he, claim, other, hlabel, hmetadata⟩ :=
              committed_of_head ((hr recovered rfl).mono hwx) (List.mem_of_find?_eq_some hfound)
            obtain ⟨_, hstored⟩ := (committed_of_mem hhistory he hlabel).bytes
            obtain ⟨_, hown⟩ := cell_of_put hhistory (by simp)
              (hbytes.mono (h₁₂.trans (h₂₃.trans (hu.trans (huw.trans hwx)))))
            have hgeneration : other.generationID = artifact.generationID :=
              congrArg ArtifactMetadata.generationID hmetadata
            rw [hgeneration, hown] at hstored
            have hsame : other = artifact := other.ext_of artifact hmetadata
              (congrArg Prod.snd (Option.some.inj hstored)).symm
            exact ⟨e, he, claim, hsame ▸ hlabel⟩
          · exact .throw

/-! ## Reads -/

theorem checkManifest : Recorded store ok (fun _ _ => True) (Durable.checkManifest store process metadata) s := by
  refine reject fun _ => bind getObject fun _ found _ _ => ?_
  cases found with
  | none => exact .throw
  | some _ => exact .except fun _ _ _ _ _ => trivial

theorem latest : Recorded store ok (fun u metadata => ∃ artifact, artifact.toArtifactMetadata = metadata ∧
    Committed store u.log u.records artifact) (Durable.latest store process) s := by
  refine bind readHead fun t found _ hfound => ?_
  cases found with
  | none => exact .throw
  | some head =>
    dsimp only
    split
    · exact .throw
    · rename_i metadata hlast
      refine bind (φ := fun _ _ => True) ?_ fun u _ htu _ => .pure fun w huw hhistory => ?_
      · refine bind checkManifest fun _ _ _ _ => bind getObject fun _ object _ _ => ?_
        cases object with
        | none => exact .throw
        | some _ => exact .except fun _ _ _ _ _ => trivial
      · obtain ⟨e, he, claim, artifact, hlabel, hmetadata⟩ :=
          committed_of_head ((hfound head rfl).mono (htu.trans huw)) (List.mem_of_getLast? hlast)
        exact ⟨artifact, hmetadata, committed_of_mem hhistory he hlabel⟩

theorem read {generationID : String} : Recorded store ok (fun u artifact => artifact.generationID = generationID ∧
    Committed store u.log u.records artifact) (Durable.read store process generationID) s := by
  refine reject fun _ => bind readHead fun t found _ hfound => ?_
  cases found with
  | none => exact .throw
  | some head =>
    dsimp only
    split
    · exact .throw
    · rename_i metadata hgeneration
      refine bind checkManifest fun u _ htu _ => bind getObject fun w object huw hobject => ?_
      cases object with
      | none => exact .throw
      | some object =>
        refine reject fun _ => .pure fun x hwx hhistory => ⟨by simpa using List.find?_some hgeneration, ?_⟩
        obtain ⟨e, he, claim, artifact, hlabel, hmetadata⟩ :=
          committed_of_head ((hfound head rfl).mono (htu.trans (huw.trans hwx))) (List.mem_of_find?_eq_some hgeneration)
        have hcommitted := committed_of_mem hhistory he hlabel
        obtain ⟨_, hstored⟩ := hcommitted.bytes
        obtain ⟨_, hread⟩ := cell_of_put hhistory (by simp) ((hobject object rfl).mono hwx).written
        rw [show artifact.generationID = metadata.generationID from congrArg ArtifactMetadata.generationID hmetadata,
          hread] at hstored
        -- what was read is the artifact that was committed
        have hsame : artifact = { toArtifactMetadata := metadata, bytes := object.value } :=
          artifact.ext_of _ hmetadata (congrArg Prod.snd (Option.some.inj hstored)).symm
        exact hsame ▸ hcommitted

end Recorded

/-! ## Whole runs -/

def Call.Post (store : Store) : (call : Call) → State → call.Result → Prop
  | .claim caller _ _ _, s, r => ∀ granted, r = .ok granted → ∃ e ∈ s.log, e.label = some (.claim caller granted)
  | .release _ held, s, r => r = .ok () → ∃ e ∈ s.log, e.label = some (.release held)
  | .commit _ _ artifact, s, r => r = .ok () → ∃ e ∈ s.log, ∃ claim, e.label = some (.commit claim artifact)
  | .latest _, s, r => ∀ metadata, r = .ok metadata →
      ∃ artifact, artifact.toArtifactMetadata = metadata ∧ Committed store s.log s.records artifact
  | .read _ generationID, s, r => ∀ artifact, r = .ok artifact →
      artifact.generationID = generationID ∧ Committed store s.log s.records artifact

theorem Call.sound (call : Call) (s : State) :
    Conc.Safe (M := machine) (fun s : State => History (CommitSpec store) s.log s.records) ok (call.Post store)
      (call.body store) s := by
  cases call with
  | claim caller process claimID expiresAt => exact Recorded.claim
  | release process held => exact Conc.Safe.weaken Recorded.release fun _ _ _ _ h hr => h () hr
  | commit process held artifact => exact Conc.Safe.weaken Recorded.commit fun _ _ _ _ h hr => h () hr
  | latest process => exact Recorded.latest
  | read process generationID => exact Recorded.read

theorem sound_of_reachable {cfg : Conc.Config machine Call.Result} (h : Reachable store cfg) :
    cfg.Sound (fun s : State => History (CommitSpec store) s.log s.records) (.any machine Call) (Call.Post store) := by
  obtain ⟨clock, hr⟩ := h
  refine Conc.Reach.sound hr ⟨.nil, fun _ h => nomatch h⟩ (fun s c _ _ => c.sound s) fun (s : State) d hI _ => ?_
  have hforeign : ∀ (records : Records) changes, (fun _ : List RecordChange => false) changes = true →
      records.admits changes = true → CommitSpec store records none changes := fun _ _ h => nomatch h
  exact .drift hI hforeign d

def Returned (cfg : Conc.Config machine Call.Result) (call : Call) (result : call.Result) : Prop :=
  ({ call, prog := .ret result } : Conc.Task machine Call.Result) ∈ cfg.pool

/-- Claims fence stale workers. -/
structure Fenced (store : Store) (cfg : Conc.Config machine Call.Result) : Prop where
  /-- An epoch is granted to one caller. -/
  one_caller : ∀ caller process id expiresAt granted caller' process' id' expiresAt' granted',
    Returned cfg (.claim caller process id expiresAt) (.ok granted) →
    Returned cfg (.claim caller' process' id' expiresAt') (.ok granted') → granted.epoch = granted'.epoch →
      caller = caller'
  /-- Generations become visible by commits only, each under a claim that was granted before. -/
  by_commit : ∀ later e earlier, Ledger.log cfg.state = later ++ e :: earlier → ∀ metadata ∈ visible e.after,
    metadata ∈ visible e.before ∨ ∃ claim artifact, e.label = some (.commit claim artifact) ∧
      artifact.toArtifactMetadata = metadata ∧ ∃ g ∈ earlier, ∃ caller, g.label = some (.claim caller claim)
  /-- They become visible in increasing order of the epochs, at most one under each. -/
  increasing : (Ledger.log cfg.state).Pairwise fun newer older => ∀ epoch epoch', commitsAt newer = some epoch →
    commitsAt older = some epoch' → epoch' < epoch
  /-- Nothing is committed under a claim that is over. -/
  outlived : ∀ later e earlier, Ledger.log cfg.state = later ++ e :: earlier → ∀ epoch, EndsClaim e epoch →
    ∀ newer ∈ later, commitsAt newer ≠ some epoch
  /-- A release that returned without an error took its claim off the head. -/
  released : ∀ process held, Returned cfg (.release process held) (.ok ()) →
    ∃ e ∈ Ledger.log cfg.state, e.label = some (.release held) ∧ EndsClaim e held.epoch ∧
      ∃ version head, e.after.cell .head = some (version, head) ∧ head.epoch = held.epoch ∧ head.claimID = ""
  /-- A commit that returned without an error made its artifact the latest generation. -/
  committed : ∀ process held artifact, Returned cfg (.commit process held artifact) (.ok ()) →
    ∃ e ∈ Ledger.log cfg.state, (∃ claim, e.label = some (.commit claim artifact)) ∧
      (visible e.after).getLast? = some artifact.toArtifactMetadata
  latest : ∀ process metadata, Returned cfg (.latest process) (.ok metadata) → ∃ artifact,
    artifact.toArtifactMetadata = metadata ∧ Committed store (Ledger.log cfg.state) (Ledger.records cfg.state) artifact
  read : ∀ process generationID artifact, Returned cfg (.read process generationID) (.ok artifact) →
    artifact.generationID = generationID ∧ Committed store (Ledger.log cfg.state) (Ledger.records cfg.state) artifact

section

variable {log : List Entry} {records : Records}

section

variable (h : History (CommitSpec store) log records)

include h

theorem grants_increasing :
    log.Pairwise fun newer older => ∀ epoch epoch', grants newer = some epoch → grants older = some epoch' →
      epoch' < epoch := by
  induction h with
  | nil => exact .nil
  | cons hearlier hspec ih =>
    exact .cons (fun e he _ _ hnewer holder => hspec.grant_above (fence_of_history hearlier) hnewer he holder) ih

theorem commits_increasing :
    log.Pairwise fun newer older => ∀ epoch epoch', commitsAt newer = some epoch → commitsAt older = some epoch' →
      epoch' < epoch := by
  induction h with
  | nil => exact .nil
  | cons hearlier hspec ih =>
    exact .cons (fun e he _ _ hnewer holder => hspec.commit_above (fence_of_history hearlier) hnewer he holder) ih

theorem grant_unique {e e' : Entry} (he : e ∈ log) (he' : e' ∈ log) (epoch : Nat)
    (hgrants : grants e = some epoch) (hgrants' : grants e' = some epoch) : e = e' := by
  have hpairs := grants_increasing h
  clear h
  induction hpairs with
  | nil => cases he
  | @cons newest rest hnewest _ ih =>
    rcases List.mem_cons.mp he with rfl | hold
    · rcases List.mem_cons.mp he' with rfl | hold'
      · rfl
      · exact absurd (hnewest e' hold' _ _ hgrants hgrants') (Nat.lt_irrefl _)
    · rcases List.mem_cons.mp he' with rfl | hold'
      · exact absurd (hnewest e hold _ _ hgrants' hgrants) (Nat.lt_irrefl _)
      · exact ih hold hold'

theorem granted_of_commit {claim : GenerationClaim} {artifact : Artifact}
    {changes : List RecordChange} (hspec : CommitSpec store records (some (.commit claim artifact)) changes) :
    ∃ g ∈ log, ∃ caller, g.label = some (.claim caller claim) := by
  cases hspec with
  | commit hcell hsame hid _ _ =>
    obtain ⟨hclaim, hepoch, hexpires⟩ := sameClaim_iff.mp hsame
    obtain ⟨g, hg, caller, hlabel⟩ := (fence_of_history h).held _ _ hcell (hclaim ▸ hid)
    rw [hclaim, hepoch, hexpires] at hlabel
    exact ⟨g, hg, caller, hlabel⟩

end

end

/-- In every interleaving of calls, claims fence stale workers. -/
theorem generations_fenced (store : Store) (cfg : Conc.Config machine Call.Result) (hreach : Reachable store cfg) :
    Fenced store cfg := by
  have hsound := sound_of_reachable hreach
  have hhistory : History (CommitSpec store) (Ledger.log cfg.state) (Ledger.records cfg.state) := hsound.state
  have hpost : ∀ {call : Call} {result : call.Result}, Returned cfg call result → call.Post store cfg.state result :=
    fun h => hsound.result h rfl
  refine ⟨?_, ?_, commits_increasing hhistory, ?_, ?_, ?_, fun process metadata h => hpost h metadata rfl,
    fun process generationID artifact h => hpost h artifact rfl⟩
  · intro caller process id expiresAt granted caller' process' id' expiresAt' granted' hclaim hclaim' hepoch
    obtain ⟨e, he, hlabel⟩ := hpost hclaim granted rfl
    obtain ⟨e', he', hlabel'⟩ := hpost hclaim' granted' rfl
    have hsame : e = e' := by
      refine grant_unique hhistory he he' granted.epoch ?_ ?_
      · simp [grants, hlabel]
      · simp [grants, hlabel', hepoch]
    rw [← hsame, hlabel] at hlabel'
    cases hlabel'
    rfl
  · intro later e earlier hlog metadata hmem
    rw [hlog] at hhistory
    obtain ⟨hearlier, hspec⟩ := hhistory.at_entry
    refine (hspec.appears hmem).imp_right ?_
    rintro ⟨claim, artifact, hlabel, hmetadata⟩
    exact ⟨claim, artifact, hlabel, hmetadata, granted_of_commit hearlier (hlabel ▸ hspec)⟩
  · intro later e earlier hlog epoch hends newer hnewer hcommits
    obtain ⟨latest, between, rfl⟩ := List.append_of_mem hnewer
    rw [hlog, List.append_assoc, List.cons_append] at hhistory
    obtain ⟨hbefore, hspec⟩ := hhistory.at_entry
    exact hspec.not_over (fence_of_history hbefore) hcommits (List.mem_append_right _ (.head _)) hends
  · intro process held hrelease
    obtain ⟨e, he, hlabel⟩ := hpost hrelease rfl
    obtain ⟨_, _, hspec⟩ := hhistory.of_mem he
    refine ⟨e, he, hlabel, ?_, (hlabel ▸ hspec).released⟩
    rw [EndsClaim, hlabel]
  · intro process held artifact hcommit
    obtain ⟨e, he, claim, hlabel⟩ := hpost hcommit rfl
    obtain ⟨_, _, hspec⟩ := hhistory.of_mem he
    exact ⟨e, he, ⟨claim, hlabel⟩, (hlabel ▸ hspec).latest⟩

end

/-! ## A claim that expired, and one that was released -/

namespace Reclaimed

def store : Store where
  generationDigest generationID := generationID
  variant := 64
  maxGenerations := 1
  maxGenerations_pos := by decide
  maxArtifactBytes := 100
  parseSHA256 _ := true
  parseCRC32C _ := true
  checksumCRC32C _ := ""
  checkImage _ := true

def artifact (generationID : String) : Artifact where
  generationID := generationID
  variant := 64
  width := 1
  height := 1
  contentType := "image/webp"
  size := 12
  sha256 := ""
  crc32c := ""
  bytes := List.replicate 12 0

def events : List (Conc.Event machine Call) :=
  .spawn (.claim 1 0 "a" 10) :: List.replicate 3 (.step 0 {}) ++
    .drift (.tick 1 10) :: .spawn (.claim 2 1 "b" 20) :: List.replicate 4 (.step 1 {}) ++
    .spawn (.commit 1 { id := "b", epoch := 2, expiresAt := 20 } (artifact "g")) :: List.replicate 7 (.step 2 {}) ++
    .spawn (.commit 0 { id := "a", epoch := 1, expiresAt := 10 } (artifact "h")) :: List.replicate 2 (.step 3 {}) ++
    .spawn (.claim 3 1 "c" 30) :: List.replicate 4 (.step 4 {}) ++
    .spawn (.release 1 { id := "c", epoch := 3, expiresAt := 30 }) :: List.replicate 2 (.step 5 {}) ++
    .spawn (.commit 1 { id := "c", epoch := 3, expiresAt := 30 } (artifact "h")) :: List.replicate 2 (.step 6 {})

def start : Conc.Config machine Call.Result :=
  { state := ({ records := .empty, clock := fun _ => 0, log := [] } : State), pool := [] }

def final : Conc.Config machine Call.Result := start.run (Call.body store) events

end Reclaimed

theorem Reclaimed.latecomer_fenced : (Ledger.log final.state).map (fun e => e.label) =
      [some (.release { id := "c", epoch := 3, expiresAt := 30 }),
        some (.claim 3 { id := "c", epoch := 3, expiresAt := 30 }),
        some (.commit { id := "b", epoch := 2, expiresAt := 20 } (artifact "g")), some .immutable, some .immutable,
        some (.claim 2 { id := "b", epoch := 2, expiresAt := 20 }),
          some (.claim 1 { id := "a", epoch := 1, expiresAt := 10 })] ∧
      Fenced store final :=
  ⟨by decide +kernel, generations_fenced store final ⟨_, Conc.Reach.run_any _ _⟩⟩

end EndlessFS.Preview.Durable
