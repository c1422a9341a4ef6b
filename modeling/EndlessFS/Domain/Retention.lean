import EndlessFS.Domain.Linear

/-!
# EndlessFS.Domain.Retention

How long the outcome of a mutation can be found again. Outcomes move from the delta window into the
outcome tree when the window is folded, and each fold consumes at most one page of the expiry tree.
An expiry entry carries no more than a time and a mutation ID, so a stale entry of an earlier use of
an ID speaks about the outcome of a later use as well.

* `HeadAction.PruneSound`: a fold consumes no entry whose ID has an outcome that is still retained.
* `outcome_retained`: in runs of such folds every outcome is found until its retention ends.
* `outcome_lost`: without the condition it is not.
-/

namespace EndlessFS

open List SortedMap
open Conc (Write)

/-! ## Folds -/

def HeadAction.fold (codec : Codec) (head : DomainHead) : HeadAction → Option (Time × OutcomeBatch)
  | .compact now => some (now, foldOutcomes now head.deltas)
  | .materialize m fingerprint preparedAt _ =>
    some (preparedAt, (foldOutcomes preparedAt head.deltas).record
      (m.delta codec fingerprint (head.revision + 1)).recorded)
  | _ => none

/-- Each expiry entry that a fold published at `t` consumes either names an ID that the fold itself
records anew, or an ID whose stored outcome is past its own retention too. -/
def HeadAction.PruneSound (codec : Codec) (t : Time) (action : HeadAction) (head : DomainHead) : Prop :=
  ∀ fold ∈ action.fold codec head,
    ∀ e ∈ head.outcomeExpiry.entries.take domainPageMaximumItems, expiryTime e.1 ≤ fold.1 →
      (fold.2.outcomes.get e.2).isSome ∨ ∀ o ∈ head.outcomes.get e.2, o.retainUntil ≤ t

instance (codec : Codec) (t : Time) (action : HeadAction) (head : DomainHead) :
    Decidable (action.PruneSound codec t head) := by
  unfold HeadAction.PruneSound
  infer_instance

def HeadAction.PruneSoundFor (codec : Codec) (id : String) (t : Time) (action : HeadAction)
    (head : DomainHead) : Prop :=
  ∀ fold ∈ action.fold codec head,
    ∀ e ∈ head.outcomeExpiry.entries.take domainPageMaximumItems, e.2 = id → expiryTime e.1 ≤ fold.1 →
      (fold.2.outcomes.get id).isSome ∨ ∀ o ∈ head.outcomes.get id, o.retainUntil ≤ t

/-! ## What a fold does to one outcome -/

variable {now : Time} {id : String} {batch : OutcomeBatch} {entries : List (ExpiryKey × String)} {pruned : OutcomeBatch}

theorem pruneEntries_get_some {u : Option DomainOutcome} (h : pruneEntries now entries batch = .ok pruned)
    (hb : batch.outcomes.get id = some u) : pruned.outcomes.get id = some u := by
  induction entries generalizing batch with
  | nil => cases h; exact hb
  | cons e rest ih =>
    unfold pruneEntries at h
    split at h
    · cases h
    · split at h
      · cases h; exact hb
      · split at h
        · cases h
        · refine ih h ?_
          unfold OutcomeBatch.expire
          split
          · exact hb
          · rename_i hnone
            rw [get_set, if_neg, hb]
            rintro rfl
            simp [hb] at hnone

theorem pruneEntries_get_none (h : pruneEntries now entries batch = .ok pruned) (hb : batch.outcomes.get id = none)
    (hkeep : ∀ key, (key, id) ∈ entries → ¬ expiryTime key ≤ now) : pruned.outcomes.get id = none := by
  induction entries generalizing batch with
  | nil => cases h; exact hb
  | cons e rest ih =>
    unfold pruneEntries at h
    split at h
    · cases h
    · split at h
      · cases h; exact hb
      · rename_i hexpired
        split at h
        · cases h
        · have hne : e.2 ≠ id := fun heq =>
            hkeep e.1 (by rw [← heq]; exact .head _) (not_lt.mp hexpired)
          refine ih h ?_ fun key hkey => hkeep key (.tail _ hkey)
          unfold OutcomeBatch.expire
          split
          · exact hb
          · rw [get_set, if_neg hne, hb]

theorem OutcomeBatch.get_record (batch : OutcomeBatch) (recorded : DomainOutcome) (id : String) :
    (batch.record recorded).outcomes.get id = if recorded.mutationID =
    id then some (some recorded) else batch.outcomes.get id :=
  get_set ..

variable {deltas : List DomainDelta}

theorem get_foldOutcomes : (foldOutcomes now deltas).outcomes.get id =
      (deltas.reverse.find? fun d => d.mutationID = id && now < d.retainUntil).map fun d => some d.recorded := by
  unfold foldOutcomes
  induction deltas using reverseRecOn with
  | nil => rfl
  | append_singleton deltas delta ih =>
    rw [foldl_append, foldl_cons, foldl_nil, reverse_append, reverse_singleton, singleton_append, find?_cons]
    by_cases hlive : now < delta.retainUntil
    · rw [if_pos hlive, OutcomeBatch.get_record, ih]
      by_cases hid : delta.mutationID = id
      · rw [if_pos (show delta.recorded.mutationID = id from hid)]
        simp [hid, hlive]
      · rw [if_neg (show ¬ delta.recorded.mutationID = id from hid)]
        simp [hid]
    · rw [if_neg hlive, ih]
      simp [hlive]

/-! ## The invariant -/

/-- Where a head keeps an outcome: in its newest delta with that ID, or in the outcome tree while no
delta has the ID. -/
def Keeping (head : DomainHead) (o : DomainOutcome) : Prop :=
  (∃ older d newer, head.deltas = older ++ d :: newer ∧ d.recorded = o ∧
      ∀ x ∈ newer, x.mutationID ≠ o.mutationID) ∨
    ((∀ d ∈ head.deltas, d.mutationID ≠ o.mutationID) ∧ head.outcomes.get o.mutationID = some o)

theorem find_newest (older : List DomainDelta) {newer : List DomainDelta} {d : DomainDelta}
    (hnewer : ∀ x ∈ newer, x.mutationID ≠ d.mutationID) (hlive : now < d.retainUntil) :
    ((older ++ d :: newer).reverse.find? fun x => x.mutationID = d.mutationID && now < x.retainUntil) = some d := by
  rw [reverse_append, reverse_cons, append_assoc, find?_append,
    find?_eq_none.mpr fun x hx => by simp [hnewer x (mem_reverse.mp hx)]]
  simp [hlive]

theorem find_absent (h : ∀ d ∈ deltas, d.mutationID ≠ id) :
    (deltas.reverse.find? fun x => x.mutationID = id && now < x.retainUntil) = none :=
  find?_eq_none.mpr fun x hx => by simp [h x (mem_reverse.mp hx)]

variable {head : DomainHead} {o : DomainOutcome}

theorem Keeping.lookup (h : Keeping head o)
    (hlive : now < o.retainUntil) : lookupOutcomeAtHead now head o.mutationID = .ok (some o.outcome) := by
  rcases h with ⟨older, d, newer, hd, rfl, hnewer⟩ | ⟨hnone, hget⟩
  · have hfind := find_newest older hnewer hlive
    rw [← hd] at hfind
    unfold lookupOutcomeAtHead
    rw [show d.recorded.mutationID = d.mutationID from rfl, hfind]
    rfl
  · simp [lookupOutcomeAtHead, find_absent hnone, hget, hlive]

variable {t : Time}

theorem Keeping.fold (h : Keeping head o) {outcomes : SortedMap String DomainOutcome}
    {expiry : SortedMap ExpiryKey String}
    (hbatch : batch.outcomes.get o.mutationID = (foldOutcomes now head.deltas).outcomes.get o.mutationID)
    (hp : pruneExpiredOutcomes now head batch = .ok (outcomes, expiry))
    (hsound : ∀ e ∈ head.outcomeExpiry.entries.take domainPageMaximumItems, e.2 = o.mutationID →
      expiryTime e.1 ≤ now → (batch.outcomes.get o.mutationID).isSome ∨ ∀ o' ∈ head.outcomes.get o.mutationID,
      o'.retainUntil ≤ t)
    (hnow : now < o.retainUntil) (ht : t < o.retainUntil) : outcomes.get o.mutationID = some o := by
  obtain ⟨pruned, hprune, hp⟩ := Except.bind_ok hp
  obtain ⟨rfl, -⟩ := hp
  rw [get_apply]
  rw [get_foldOutcomes] at hbatch
  rcases h with ⟨older, d, newer, hd, rfl, hnewer⟩ | ⟨hnone, hget⟩
  · have hfind := find_newest older hnewer hnow
    rw [← hd] at hfind
    rw [pruneEntries_get_some hprune (hbatch.trans (by rw [DomainDelta.recorded, hfind]; rfl))]
    rfl
  · rw [find_absent hnone] at hbatch
    rw [pruneEntries_get_none hprune hbatch fun key hkey hexp => ?_]
    · exact hget
    · -- the entry would be consumed although the stored outcome is live
      rcases hsound (key, o.mutationID) hkey rfl hexp with hsome | hstored
      · rw [hbatch] at hsome
        cases hsome
      · exact absurd (hstored o hget) (not_le.mpr ht)

variable {codec : Codec} {ref : DomainRef} {action : HeadAction} {next : DomainHead}

theorem Keeping.step {t' : Time} (h : Keeping head o) (hstep : action.Step codec ref head next)
    (hwithin : action.Within t t')
    (hsound : action.PruneSoundFor codec o.mutationID t' head) (ht : t' < o.retainUntil) : Keeping next o := by
  have hother : ∀ {m : Mutation} {fingerprint : String}, action.mutation = some (m, fingerprint) →
      m.id ≠ o.mutationID := by
    intro m fingerprint hm heq
    obtain ⟨now, hnow, hnone⟩ := (hstep.checked hm).2.2 _ _ hwithin
    rw [heq, h.lookup (hnow.trans_lt ht)] at hnone
    cases hnone
  cases hstep with
  | register => exact h
  | freeze => exact h
  | unfreeze => exact h
  | compact thawed folded =>
    obtain ⟨outcomes, expiry, hp, rfl⟩ := compactHead_ok folded
    refine .inr ⟨fun d hd => (by cases hd), ?_⟩
    exact h.fold rfl hp (hsound _ rfl) (hwithin.2.trans_lt ht) ht
  | append normal retained intent unrecorded admitted =>
    have hne := hother rfl
    rcases h with ⟨older, d, newer, hd, ho, hnewer⟩ | ⟨hnone, hget⟩
    · refine .inl ⟨older, d, newer ++ [_], by rw [appendDelta, hd]; simp; rfl, ho, fun x hx => ?_⟩
      rcases mem_append.mp hx with hx | hx
      · exact hnewer x hx
      · rw [mem_singleton.mp hx]
        exact hne
    · refine .inr ⟨fun x hx => ?_, hget⟩
      rcases mem_append.mp hx with hx | hx
      · exact hnone x hx
      · rw [mem_singleton.mp hx]
        exact hne
  | materialize normal retained intent registered unrecorded admitted folded =>
    have hne := hother rfl
    obtain ⟨outcomes, expiry, hp, rfl⟩ := materializedHead_ok folded
    refine .inr ⟨fun d hd => (by cases hd), ?_⟩
    refine h.fold ?_ hp (hsound _ rfl) ((hwithin.1.trans hwithin.2.2).trans_lt ht) ht
    rw [OutcomeBatch.get_record]
    exact if_neg hne

variable {m : Mutation}

theorem HeadAction.Step.keeping {fingerprint : String} (hstep : action.Step codec ref head next)
    (hm : action.mutation = some (m, fingerprint)) :
      Keeping next (m.delta codec fingerprint (head.revision + 1)).recorded := by
  cases hstep with
  | register => cases hm
  | freeze => cases hm
  | unfreeze => cases hm
  | compact thawed folded => cases hm
  | append normal retained intent unrecorded admitted =>
    cases hm
    exact .inl ⟨head.deltas, _, [], rfl, rfl, fun x hx => by cases hx⟩
  | materialize normal retained intent registered unrecorded admitted folded =>
    rename_i preparedAt now
    cases hm
    obtain ⟨outcomes, expiry, hp, rfl⟩ := materializedHead_ok folded
    refine .inr ⟨fun d hd => (by cases hd), ?_⟩
    obtain ⟨pruned, hprune, hp⟩ := Except.bind_ok hp
    obtain ⟨rfl, -⟩ := hp
    have hbatch : ((foldOutcomes preparedAt head.deltas).record
        (m.delta codec fingerprint (head.revision + 1)).recorded).outcomes.get m.id =
          some (some (m.delta codec fingerprint (head.revision + 1)).recorded) := by
      rw [OutcomeBatch.get_record]
      exact if_pos rfl
    rw [show (m.delta codec fingerprint (head.revision + 1)).recorded.mutationID = m.id from rfl,
      get_apply, pruneEntries_get_some hprune hbatch]
    rfl

/-! ## Whole histories -/

/-- Every step of a history, newest first, is made by an action that meets `ok` in the head it
replaces and at the time it is published. -/
def StepsMeet (codec : Codec) (ref : DomainRef) (ok : Time → HeadAction → DomainHead → Prop) :
    List (Write Site DomainHead) → Prop
  | w' :: w :: rest =>
    (∃ action : HeadAction, action.Step codec ref w.value w'.value ∧ action.Within w.time w'.time ∧
      ok w'.time action w.value) ∧ StepsMeet codec ref ok (w :: rest)
  | _ => True

def FoldsSound (codec : Codec) (ref : DomainRef) : List (Write Site DomainHead) → Prop :=
  StepsMeet codec ref fun t action head => action.PruneSound codec t head

def Publication (codec : Codec) (ref : DomainRef) (w w' : Write Site DomainHead) (m : Mutation)
    (fingerprint : String) : Prop :=
  ∃ action : HeadAction, action.Step codec ref w.value w'.value ∧ action.Within w.time w'.time ∧
    action.mutation = some (m, fingerprint)

/-- Exactly once until retention ends: the outcome of a published mutation is found in every later
head at every time before its retention ends, and until then no step publishes its ID again. -/
structure Retained (codec : Codec) (ref : DomainRef) (writes : List (Write Site DomainHead)) : Prop where
  found : ∀ {newer older : List (Write Site DomainHead)} {w' w : Write Site DomainHead} {m : Mutation}
    {fingerprint : String}, writes = newer ++ w' :: w :: older → Publication codec ref w w' m fingerprint →
    ∀ v ∈ newer ++ [w'], ∀ now, v.time ≤ now → now < m.retainUntil →
      lookupOutcomeAtHead now v.value m.id =
        .ok (some (publishedOutcome m fingerprint (w.value.revision + 1)))
  once : ∀ {newer older : List (Write Site DomainHead)} {w' w : Write Site DomainHead} {m : Mutation}
    {fingerprint : String}, writes = newer ++ w' :: w :: older → Publication codec ref w w' m fingerprint →
    ∀ {newer' between : List (Write Site DomainHead)} {v' v : Write Site DomainHead} {m' : Mutation}
      {fingerprint' : String}, newer ++ [w'] = newer' ++ v' :: v :: between →
      Publication codec ref v v' m' fingerprint' → v'.time < m.retainUntil → m'.id ≠ m.id

variable {w : Write Site DomainHead} {older : List (Write Site DomainHead)} {ok : Time → HeadAction → DomainHead → Prop}

theorem StepsMeet.tail (h : StepsMeet codec ref ok (w :: older)) : StepsMeet codec ref ok older := by
  cases older with
  | nil => trivial
  | cons v rest => exact h.2

variable {newer : List (Write Site DomainHead)}

theorem StepsMeet.keeping (h : StepsMeet codec ref ok (newer ++ w :: older))
    (hok : ∀ t action head, t < o.retainUntil → ok t action head → action.PruneSoundFor codec o.mutationID t head)
    (hordered : (newer ++ w :: older).Pairwise fun a b => b.time ≤ a.time) (hw : Keeping w.value o) :
    ∀ v ∈ newer ++ [w], v.time < o.retainUntil → Keeping v.value o := by
  induction newer with
  | nil =>
    intro v hv _
    rw [mem_singleton.mp hv]
    exact hw
  | cons a newer ih =>
    rw [cons_append] at h hordered
    obtain ⟨ha, hordered⟩ := pairwise_cons.mp hordered
    have ih := ih h.tail hordered
    intro v hv ht
    rcases mem_cons.mp hv with rfl | hv
    · -- the newest head is made from the one before it, which keeps the outcome
      obtain ⟨b, rest, hb, hmem⟩ : ∃ b rest, newer ++ w :: older = b :: rest ∧ b ∈ newer ++ [w] := by
        cases newer with
        | nil => exact ⟨w, older, rfl, mem_singleton_self w⟩
        | cons b newer => exact ⟨b, newer ++ w :: older, rfl, .head _⟩
      have hbt : b.time < o.retainUntil :=
        (ha b (by rw [hb]; exact .head _)).trans_lt ht
      rw [hb] at h
      obtain ⟨⟨action, hstep, hwithin, hsound⟩, -⟩ := h
      exact (ih b hmem hbt).step hstep hwithin (hok _ _ _ ht hsound) ht
    · exact ih v hv ht

variable {writes : List (Write Site DomainHead)}

theorem FoldsSound.retained (h : FoldsSound codec ref writes) (hordered : writes.Pairwise fun a b => b.time ≤ a.time) :
    Retained codec ref writes := by
  have hkeeping : ∀ {newer older : List (Write Site DomainHead)} {w' w : Write Site DomainHead} {m : Mutation}
      {fingerprint : String}, writes = newer ++ w' :: w :: older →
      Publication codec ref w w' m fingerprint → ∀ v ∈ newer ++ [w'], v.time < m.retainUntil →
      Keeping v.value (m.delta codec fingerprint (w.value.revision + 1)).recorded := by
    rintro newer older w' w m fingerprint rfl ⟨action, hstep, -, hm⟩
    refine StepsMeet.keeping h (fun t action head _ hsound => ?_) hordered (hstep.keeping hm)
    intro fold hfold e he hid hexp
    exact hid ▸ hsound fold hfold e he hexp
  refine ⟨fun hw hp v hv now hv' hnow => ?_, fun {newer older w' w m fingerprint} hw hp => ?_⟩
  · exact (hkeeping hw hp v hv (hv'.trans_lt hnow)).lookup hnow
  · rintro newer' between v' v m' fingerprint' hsplit ⟨action, hstep, hwithin, hm⟩ ht hid
    -- the ID is looked up before a mutation is published
    have hle : v.time ≤ v'.time := by
      have hpair := hordered
      rw [hw, ← singleton_append, ← append_assoc, hsplit] at hpair
      exact (pairwise_cons.mp (pairwise_append.mp (pairwise_append.mp hpair).1).2.1).1 v (.head _)
    obtain ⟨now, hnow, hnone⟩ := (hstep.checked hm).2.2 _ _ hwithin
    have hkept := (hkeeping hw hp v (by simp [hsplit]) (hle.trans_lt ht)).lookup (hnow.trans_lt ht)
    rw [hid] at hnone
    cases hkept.symm.trans hnone

/-- In every run in which no fold consumes an expiry entry of an ID whose outcome is still retained,
every mutation happens exactly once until its retention ends. -/
theorem outcome_retained (codec : Codec) (fuel : Nat) (ref : DomainRef) (events : List DomainEvent)
    (hfolds : FoldsSound codec ref ((runDomain codec fuel events).state.cells (.head ref)).writes) :
    Retained codec ref ((runDomain codec fuel events).state.cells (.head ref)).writes :=
  hfolds.retained
    (((runDomain_sound codec fuel events).state.wf (.head ref)).ordered.imp fun h => h.2)

/-! ## An ID that is always retained until the same time -/

def Site.publishes (id : String) : Site → Bool
  | .publish m => m.id = id
  | _ => false

def IDPublished (id : String) (writes : List (Write Site DomainHead)) : Prop :=
  ∃ w ∈ writes, w.site.publishes id = true

/-- Everything a head knows of the ID is retained until `T`. -/
structure RetainedUntil (id : String) (T : Time) (head : DomainHead) : Prop where
  deltas : ∀ d ∈ head.deltas, d.mutationID = id → d.retainUntil = T
  expiry : ∀ k, head.outcomeExpiry.get k = some id → expiryTime k = T

variable {T : Time}

theorem HeadAction.Step.retainedUntil (h : action.Step codec ref head next) (hr : RetainedUntil id T head)
    (hm : ∀ m fingerprint, action.mutation = some (m, fingerprint) → m.id = id → m.retainUntil = T) :
    RetainedUntil id T next := by
  have hcarries : ∀ d, action.Carries codec head d → d.mutationID = id → d.retainUntil = T := by
    rintro d (hd | ⟨m, fp, hmut, rfl⟩) hid
    · exact hr.deltas d hd hid
    · exact hm m fp hmut hid
  refine ⟨fun d hd => hcarries d (h.tables.deltas d hd), fun k hk => ?_⟩
  rcases h.tables.expiry k id hk with hk | ⟨d, hd, hid, rfl⟩
  · exact hr.expiry k hk
  · exact hcarries d hd hid

/-- Every publication of the ID in the history is retained until `T`. -/
def UsesRetain (id : String) (T : Time) (writes : List (Write Site DomainHead)) : Prop :=
  ∀ w ∈ writes, ∀ m, w.site = .publish m → m.id = id → m.retainUntil = T

theorem Linear.retainedUntil (h : Linear codec ref writes) (hu : UsesRetain id T writes) :
    ∀ w ∈ writes, RetainedUntil id T w.value := by
  induction writes with
  | nil => exact fun w hw => by cases hw
  | cons w' rest ih =>
    cases rest with
    | nil =>
      intro w hw
      rw [mem_singleton.mp hw, h.1]
      exact ⟨fun d hd => (by cases hd), fun k hk => (by cases hk)⟩
    | cons v rest =>
      obtain ⟨⟨action, hstep, -, hsite⟩, hrest⟩ := h
      have ih := ih hrest fun w hw => hu w (.tail _ hw)
      intro w hw
      rcases mem_cons.mp hw with rfl | hw
      · refine hstep.retainedUntil (ih v (.head _)) fun m fp hm hid => ?_
        exact hu w (.head _) m (hsite.trans (action.site_of_mutation hm)) hid
      · exact ih w hw

theorem HeadAction.Within.fold {t' : Time} (h : action.Within t t') : ∀ fold ∈ action.fold codec head, fold.1 ≤ t' := by
  intro fold hfold
  cases action with
  | compact now => cases hfold; exact h.2
  | materialize m fp preparedAt now => cases hfold; exact h.1.trans h.2.2
  | register => cases hfold
  | freeze epoch => cases hfold
  | unfreeze epoch => cases hfold
  | append m fp now => cases hfold

theorem Linear.stepsMeet (h : Linear codec ref writes) (hu : UsesRetain id T writes) :
    StepsMeet codec ref (fun t action head => RetainedUntil id T head ∧ ∀ fold ∈ action.fold codec head, fold.1 ≤ t)
      writes := by
  have hall := h.retainedUntil hu
  clear hu
  induction writes with
  | nil => trivial
  | cons w' rest ih =>
    cases rest with
    | nil => trivial
    | cons v rest =>
      obtain ⟨⟨action, hstep, hwithin, -⟩, hrest⟩ := h
      exact ⟨⟨action, hstep, hwithin, hall v (by simp), hwithin.fold⟩, ih hrest fun w hw => hall w (.tail _ hw)⟩

variable {w' : Write Site DomainHead}

/-- Before `T`, the outcome of the ID is kept by every head after its publication. -/
theorem Linear.kept (h : Linear codec ref (newer ++ w' :: w :: older))
    (hordered : (newer ++ w' :: w :: older).Pairwise fun a b => b.time ≤ a.time)
    (hu : UsesRetain m.id T (newer ++ w' :: w :: older)) (hsite : w'.site = .publish m) :
    ∃ fingerprint, ∀ v ∈ newer ++ [w'], v.time < T →
      Keeping v.value (m.delta codec fingerprint (w.value.revision + 1)).recorded := by
  have hT : m.retainUntil = T := hu w' (by simp) m hsite rfl
  obtain ⟨⟨action, hstep, -, hlabel⟩, -⟩ := linear_consecutive h
  obtain ⟨fingerprint, hm⟩ := action.mutation_of_site (hlabel.symm.trans hsite)
  refine ⟨fingerprint, fun v hv ht => ?_⟩
  have ht' : v.time < m.retainUntil := by rw [hT]; exact ht
  refine (h.stepsMeet hu).keeping ?_ hordered (hstep.keeping hm) v hv ht'
  -- the only expiry time of the ID is `T`, which no fold before `T` reaches
  rintro t action head ht ⟨hretained, hfold⟩ fold hf e he hid hexp
  have hget : head.outcomeExpiry.get e.1 = some m.id := by
    rw [get_eq_some_iff]
    exact (show e.2 = m.id from hid) ▸ mem_of_mem_take he
  have hlate : T ≤ t := (hretained.expiry e.1 hget) ▸ hexp.trans (hfold fold hf)
  exact absurd (show t < m.retainUntil from ht) (not_lt.mpr (hT ▸ hlate))

theorem Site.publishes_iff {site : Site} : site.publishes id = true ↔ ∃ m, site = .publish m ∧ m.id = id := by
  cases site <;> simp [Site.publishes]

theorem Linear.predecessor (h : Linear codec ref writes) (hw : w' ∈ writes)
    (hsite : w'.site = .publish m) : ∃ newer w older, writes = newer ++ w' :: w :: older := by
  induction writes with
  | nil => cases hw
  | cons a rest ih =>
    cases rest with
    | nil =>
      rw [mem_singleton.mp hw, h.2] at hsite
      cases hsite
    | cons b rest =>
      rcases mem_cons.mp hw with rfl | hw
      · exact ⟨[], b, rest, rfl⟩
      · obtain ⟨newer, w, older, hsplit⟩ := ih h.2 hw
        exact ⟨a :: newer, w, older, by rw [hsplit]; rfl⟩

/-- Before `T`, the ID is published at most once. -/
theorem Linear.published_once (h : Linear codec ref writes) (hordered : writes.Pairwise fun a b => b.time ≤ a.time)
    (hu : UsesRetain id T writes) (htime : ∀ w ∈ writes, w.time < T) :
      writes.countP (fun w => w.site.publishes id) ≤ 1 := by
  induction writes with
  | nil => exact Nat.zero_le _
  | cons v' rest ih =>
    have hu' : UsesRetain id T rest := fun w hw => hu w (.tail _ hw)
    have hordered' := (pairwise_cons.mp hordered).2
    cases rest with
    | nil => exact countP_le_length
    | cons v rest =>
      obtain ⟨⟨action, hstep, hwithin, hlabel⟩, hrest⟩ := h
      have ih := ih hrest hordered' hu' fun w hw => htime w (.tail _ hw)
      rw [countP_cons]
      split
      · rename_i hv'
        suffices hnone : (v :: rest).countP (fun w => w.site.publishes id) = 0 by omega
        rw [countP_eq_zero]
        intro w' hw' hpub
        -- the head that the second publication replaces would still keep the first outcome
        obtain ⟨m, hsite, hid⟩ := Site.publishes_iff.mp hpub
        obtain ⟨m', hsite', hid'⟩ := Site.publishes_iff.mp hv'
        obtain ⟨newer, w, older, hsplit⟩ := hrest.predecessor hw' hsite
        have hv : v ∈ newer ++ [w'] := by
          cases newer with
          | nil => simp [(cons.inj hsplit).1]
          | cons a newer => simp [(cons.inj hsplit).1]
        rw [hsplit] at hrest hordered' hu'
        obtain ⟨fp, hkept⟩ := hrest.kept hordered' (hid.symm ▸ hu') hsite
        have hvT : v'.time < T := htime v' (.head _)
        have hvle : v.time ≤ v'.time := (pairwise_cons.mp hordered).1 v (.head _)
        obtain ⟨fp', hm'⟩ := action.mutation_of_site (hlabel.symm.trans hsite')
        obtain ⟨now, hnow, hun⟩ := (hstep.checked hm').2.2 _ _ hwithin
        have hT : m.retainUntil = T := hu' w' (by simp) m hsite hid
        have hfound := (hkept v hv (hvle.trans_lt hvT)).lookup (show now < m.retainUntil from hT ▸ hnow.trans_lt hvT)
        rw [hid', ← hid] at hun
        cases hfound.symm.trans hun
      · exact ih

/-! ## Two uses of one ID -/

def retentionRef : DomainRef := { kind := .domainOwnerControl, id := "owner" }

def firstUse : Mutation :=
  { id := "m", retainUntil := 10, changes := [{ key := "k", require := .any, value := .raw "1" }] }

def secondUse : Mutation :=
  { id := "m", retainUntil := 100, changes := [{ key := "k", require := .any, value := .raw "2" }] }

theorem firstUse_normal : firstUse.Normal := ⟨by decide, by decide, pairwise_singleton _ _⟩

theorem secondUse_normal : secondUse.Normal := ⟨by decide, by decide, pairwise_singleton _ _⟩

def stepsOf (task n : Nat) : List DomainEvent := List.replicate n (.step task .none)

def foldedOr (head : DomainHead) (folded : Except Error DomainHead) : DomainHead := folded.toOption.getD head

def usedHead : DomainHead := appendDelta Codec.plain (initialHead retentionRef) firstUse "f(k)"

def storedHead : DomainHead := foldedOr usedHead (compactHead 1 usedHead)

theorem usedHead_step : (HeadAction.append firstUse "f(k)" 1).Step Codec.plain retentionRef (initialHead retentionRef)
    usedHead :=
  .append firstUse_normal (by decide) (by decide +kernel) (by decide +kernel) (by decide +kernel)

theorem storedHead_step : (HeadAction.compact 1).Step Codec.plain retentionRef usedHead storedHead :=
  .compact (by decide +kernel) (by decide +kernel)

def foldedRun : List DomainEvent :=
  [.drift 1, .spawn (.mutate retentionRef firstUse)] ++ stepsOf 0 6 ++
    [.spawn (.compact retentionRef)] ++ stepsOf 1 5 ++
    [.drift 19, .spawn (.compact retentionRef)] ++ stepsOf 2 5

def expiredHead : DomainHead := foldedOr storedHead (compactHead 20 storedHead)

theorem foldedRun_sound : FoldsSound Codec.plain retentionRef
      ((runDomain Codec.plain 5 foldedRun).state.cells (.head retentionRef)).writes := by
  have hwrites : ((runDomain Codec.plain 5 foldedRun).state.cells (.head retentionRef)).writes =
      [⟨.plain, 5, expiredHead, 20⟩, ⟨.plain, 4, storedHead, 1⟩, ⟨.publish firstUse, 3, usedHead, 1⟩,
        ⟨.plain, 1, initialHead retentionRef, 1⟩] := by
    decide +kernel
  rw [hwrites]
  refine ⟨⟨.compact 20, .compact (by decide +kernel) (by decide +kernel), ?_, by decide +kernel⟩,
    ⟨.compact 1, storedHead_step, ?_, by decide +kernel⟩,
    ⟨.append firstUse "f(k)" 1, usedHead_step, ?_, by decide +kernel⟩, trivial⟩
  all_goals exact ⟨by decide, by decide⟩

theorem outcome_retained_foldedRun : FoldsSound Codec.plain retentionRef
        ((runDomain Codec.plain 5 foldedRun).state.cells (.head retentionRef)).writes ∧
      Retained Codec.plain retentionRef ((runDomain Codec.plain 5 foldedRun).state.cells (.head retentionRef)).writes :=
  ⟨foldedRun_sound, outcome_retained Codec.plain 5 retentionRef foldedRun foldedRun_sound⟩

/-- The second use is prepared at 9, just before the first one expires, and published at 10: its fold
leaves the expiry entry of the first use. The fold at 20 consumes that entry and drops the outcome of
the second use, and a retry applies its changes again. -/
def lostRun : List DomainEvent :=
  [.drift 1, .spawn (.mutate retentionRef firstUse)] ++ stepsOf 0 6 ++
    [.spawn (.compact retentionRef)] ++ stepsOf 1 5 ++
    [.drift 8, .spawn (.mutateMaterializedPrepared retentionRef secondUse)] ++ stepsOf 2 2 ++
    [.drift 1] ++ stepsOf 2 4 ++
    [.drift 10, .spawn (.compact retentionRef)] ++ stepsOf 3 5 ++
    [.spawn (.mutateMaterializedPrepared retentionRef secondUse)] ++ stepsOf 4 6

def reusedHead : DomainHead :=
  foldedOr storedHead (materializedHead Codec.plain 9 storedHead secondUse "m(k)")

def prunedHead : DomainHead := foldedOr reusedHead (compactHead 20 reusedHead)

def repeatedHead : DomainHead :=
  foldedOr prunedHead (materializedHead Codec.plain 20 prunedHead secondUse "m(k)")

/-- The outcome of the second use is retained until 100, but at 20 it is gone, and the retry is
published as another revision. -/
theorem outcome_lost : ¬ Retained Codec.plain retentionRef
        ((runDomain Codec.plain 5 lostRun).state.cells (.head retentionRef)).writes ∧
      lookupOutcomeAtHead 10 reusedHead "m" = .ok (some (publishedOutcome secondUse "m(k)" 2)) ∧
      lookupOutcomeAtHead 20 prunedHead "m" = .ok none ∧ repeatedHead.revision = 3 := by
  refine ⟨fun h => ?_, by decide +kernel, by decide +kernel, by decide +kernel⟩
  have hwrites : ((runDomain Codec.plain 5 lostRun).state.cells (.head retentionRef)).writes =
      [⟨.publish secondUse, 7, repeatedHead, 20⟩, ⟨.plain, 6, prunedHead, 20⟩] ++
        ⟨.publish secondUse, 5, reusedHead, 10⟩ :: ⟨.plain, 4, storedHead, 1⟩ ::
        [⟨.publish firstUse, 3, usedHead, 1⟩, ⟨.plain, 1, initialHead retentionRef, 1⟩] := by
    decide +kernel
  have hstep : (HeadAction.materialize secondUse "m(k)" 9 10).Step Codec.plain retentionRef storedHead
      reusedHead :=
    .materialize secondUse_normal (by decide) (by decide +kernel) (by decide +kernel) (by decide +kernel)
      (by decide +kernel) (by decide +kernel)
  have hfound := h.found hwrites ⟨_, hstep, ⟨by decide, by decide, by decide⟩, rfl⟩ ⟨.plain, 6, prunedHead, 20⟩
    (by simp) 20 (by decide) (by decide)
  exact absurd hfound (by decide +kernel)

end EndlessFS
