import EndlessFS.Checkpoint.GarbagePlan

/-!
# EndlessFS.Checkpoint.Resumption

Whether a garbage plan can be made again after a crash. Pages are numbered by the position of their entries
among all garbage, and the gate does not keep readers from creating objects: sorted listings and state queries
of other replicas store projections, pages and snapshots that are garbage for the checkpoint.

* `Interrupted`: how far an attempt has come when it stops, before its root is stored.
* `Grown`: readers only add objects.
* `History`: any number of interrupted attempts, with reads in between; which storage each stored page was made from.
* `planning_resumes_iff`: a later attempt succeeds, with a valid plan, just if everything that has become garbage
  since a page was made sorts after that page, and the page is full.
* `Resumption.page_conflict`: one object created by a reader makes the plan fail.
-/

namespace EndlessFS.Garbage

open List
open Conc (Increasing)

/-! ## Pages and positions -/

theorem slice_eq_iff {first second : List Entry} {i : Nat} : slice first i = slice second i ↔
      ∀ j, pageSize * i ≤ j → j < pageSize * (i + 1) → first[j]? = second[j]? := by
  constructor
  · intro h j hj hlast
    obtain ⟨m, rfl⟩ := Nat.exists_eq_add_of_le hj
    rw [Nat.mul_succ] at hlast
    have hpage := congrArg (·[m]?) h
    simpa only [getElem?_slice (show m < pageSize by omega)] using hpage
  · intro h
    refine ext_getElem? fun m => ?_
    by_cases hm : m < pageSize
    · rw [getElem?_slice hm, getElem?_slice hm]
      exact h _ (Nat.le_add_right _ _) (by rw [Nat.mul_succ]; omega)
    · rw [getElem?_eq_none (by rw [length_slice]; omega), getElem?_eq_none (by rw [length_slice]; omega)]

/-- Something comes after a full page just if it comes after everything up to it. -/
theorem after_slice_iff {entries : List Entry} (h : Increasing checkpointGarbageEntryIdentity entries) {i : Nat}
    (hbegun : pageSize * i < entries.length) {e : Entry} : (pageSize * (i + 1) ≤ entries.length ∧
        ∀ x ∈ entries.take (pageSize * (i + 1)), checkpointGarbageEntryIdentity x < checkpointGarbageEntryIdentity e) ↔
      (slice entries i).length = pageSize ∧
        ∀ x ∈ slice entries i, checkpointGarbageEntryIdentity x < checkpointGarbageEntryIdentity e := by
  rw [Nat.mul_succ, take_add]
  constructor
  · rintro ⟨hlong, hbefore⟩
    exact ⟨by rw [length_slice]; omega, fun x hx => hbefore x (mem_append_right _ hx)⟩
  · rintro ⟨hfull, hbefore⟩
    rw [length_slice] at hfull
    refine ⟨by omega, fun x hx => ?_⟩
    rcases mem_append.mp hx with hx | hx
    · -- what stands before the page comes before its first entry
      have hfirst : entries.get ⟨pageSize * i, hbegun⟩ ∈ slice entries i := by
        refine mem_of_getElem? (i := 0) ?_
        rw [getElem?_slice (by decide)]
        exact List.getElem?_eq_getElem _
      have hpairs : Increasing checkpointGarbageEntryIdentity (entries.take (pageSize * i) ++ entries.drop
          (pageSize * i)) := by
        rwa [take_append_drop]
      exact ((pairwise_append.mp hpairs).2.2 x hx _ (mem_of_mem_take hfirst)).trans (hbefore _ hfirst)
    · exact hbefore x hx

/-! ## Interrupted attempts -/

section

variable {Body : Type} {codec : PlanCodec Body} {frozen : Frozen} {engine : Engine} {reachable : List Entry}

variable (engine) in
def Grown (s t : Storage Body) : Prop :=
  ∀ role, ∀ info ∈ s.objects engine role, ∃ info' ∈ t.objects engine role, info'.key = info.key

theorem Grown.garbage {s t : Storage Body} (h : Grown engine s t) {e : Entry}
    (he : e ∈ garbageEntries engine reachable s) :
    e ∈ garbageEntries engine reachable t := by
  obtain ⟨⟨info, hmem, hkey⟩, heligible, hout⟩ := mem_garbageEntries.mp he
  obtain ⟨info', hmem', hkey'⟩ := h e.role info hmem
  exact mem_garbageEntries.mpr ⟨⟨info', hmem', hkey'.trans hkey⟩, heligible, hout⟩

theorem Grown.refl (s : Storage Body) : Grown engine s s := fun _ info hinfo => ⟨info, hinfo, rfl⟩

theorem Grown.trans {s t u : Storage Body} (h : Grown engine s t) (h' : Grown engine t u) : Grown engine s u := by
  intro role info hinfo
  obtain ⟨info', hinfo', hkey⟩ := h role info hinfo
  obtain ⟨info'', hinfo'', hkey'⟩ := h' role info' hinfo'
  exact ⟨info'', hinfo'', hkey'.trans hkey⟩

theorem pageText_inj {first second : List Entry} {i : Nat} :
    pageText codec frozen first i = pageText codec frozen second i ↔ slice first i = slice second i := by
  refine ⟨fun h => ?_, fun h => by rw [pageText, h, pageText]⟩
  have hdecoded := congrArg codec.decodePage h
  rw [pageText, pageText, codec.decode_encodePage, codec.decode_encodePage] at hdecoded
  simpa using hdecoded

variable (codec frozen engine reachable) in
/-- Page `i` of the storage `t` was made from the storage `s`. -/
structure MadeFrom (i : Nat) (s t : Storage Body) : Prop where
  stored : t.pages i = some (pageText codec frozen (garbageEntries engine reachable s) i)
  positive : 1 ≤ i
  begun : pageSize * i < (garbageEntries engine reachable s).length
  grown : Grown engine s t

variable {s t : Storage Body}

/-- A page is found as it is made again just if everything new comes after it, and it is full. -/
theorem MadeFrom.agrees_iff {i : Nat} (h : MadeFrom codec frozen engine reachable i s t) :
    (pageSize * i < (garbageEntries engine reachable t).length →
        ∀ body ∈ t.pages i, body = pageText codec frozen (garbageEntries engine reachable t) i) ↔
      ∀ e ∈ garbageEntries engine reachable t, e ∉ garbageEntries engine reachable s → ∀ body page,
      t.pages i = some body →
        codec.decodePage body = .ok page → page.entries.length = pageSize ∧
          ∀ x ∈ page.entries, checkpointGarbageEntryIdentity x < checkpointGarbageEntryIdentity e := by
  have hfirst := garbage_increasing engine reachable s
  have hsub : ∀ e ∈ garbageEntries engine reachable s, e ∈ garbageEntries engine reachable t := fun _ => h.grown.garbage
  have hbegun : pageSize * i < (garbageEntries engine reachable t).length :=
    h.begun.trans_le (List.subperm_of_subset hfirst.nodup hsub).length_le
  have hsize : 0 < pageSize := by decide
  calc (pageSize * i < (garbageEntries engine reachable t).length →
          ∀ body ∈ t.pages i, body = pageText codec frozen (garbageEntries engine reachable t) i)
      ↔ slice (garbageEntries engine reachable s) i = slice (garbageEntries engine reachable t) i := by
        simp only [hbegun, true_imp_iff, h.stored, Option.mem_some_iff, forall_eq', pageText_inj]
    _ ↔ ∀ e ∈ garbageEntries engine reachable t, e ∉ garbageEntries engine reachable s →
          (slice (garbageEntries engine reachable s) i).length = pageSize ∧
            ∀ x ∈ slice (garbageEntries engine reachable s) i,
            checkpointGarbageEntryIdentity x < checkpointGarbageEntryIdentity e := by
        rw [slice_eq_iff, hfirst.slices_agree_iff (garbage_increasing engine reachable t) hsub
          (by rw [Nat.mul_succ]; omega) h.begun]
        exact forall₃_congr fun e _ _ => after_slice_iff hfirst h.begun
    _ ↔ _ := by
        refine forall₃_congr fun e _ _ => ⟨fun hafter body page hbody hpage => ?_, fun hafter => ?_⟩
        · rw [h.stored, Option.some.injEq] at hbody
          rw [← hbody, pageText, codec.decode_encodePage, Except.ok.injEq] at hpage
          exact hpage ▸ hafter
        · exact hafter _ _ h.stored (codec.decode_encodePage _)

variable [DecidableEq Body]

variable (codec frozen engine reachable) in
/-- An attempt that stops in the middle of the listing, or right before its root is stored. -/
inductive Interrupted (s : Storage Body) : Builder Body → Prop where
  | collecting (n : Nat) {b : Builder Body}
      (collected : ((garbage engine reachable s).take n).foldlM (Builder.add codec frozen) (.start s.pages) = .ok b) :
      Interrupted s b
  | flushed {b b' : Builder Body}
      (collected : (garbage engine reachable s).foldlM (Builder.add codec frozen) (.start s.pages) = .ok b)
      (stored : b.flushPage codec frozen = .ok b') : Interrupted s b'

/-- An attempt stores pages where there are none, and leaves the others. -/
theorem Interrupted.pages {b : Builder Body} (h : Interrupted codec frozen engine reachable s b) (i : Nat) :
    b.pages i = s.pages i ∨ s.pages i = none ∧
      b.pages i = some (pageText codec frozen (garbageEntries engine reachable s) i) ∧ 1 ≤ i ∧
      pageSize * i < (garbageEntries engine reachable s).length := by
  obtain ⟨count, hpages, hneeded, hagrees⟩ : ∃ count,
      (∀ i, b.pages i = if 1 ≤ i ∧ i < count then some (pageText codec frozen (garbageEntries engine reachable s) i)
        else s.pages i) ∧
      (∀ i, 1 ≤ i → i < count → pageSize * i < (garbageEntries engine reachable s).length) ∧
      ∀ i, 1 ≤ i → i < count → ∀ body ∈ s.pages i,
        body = pageText codec frozen (garbageEntries engine reachable s) i := by
    have hstart := Builder.progress_start codec frozen s.pages
    cases h with
    | collecting n collected =>
      have hprogress := hstart.foldlM_add collected
      have hsplit : garbageEntries engine reachable s =
          ((garbage engine reachable s).take n).map Prod.fst ++ ((garbage engine reachable s).drop n).map Prod.fst := by
        rw [← map_append, take_append_drop]
        rfl
      rw [nil_append] at hprogress
      have htext : ∀ i, 1 ≤ i → i < b.pageCount → pageText codec frozen (garbageEntries engine reachable s) i =
          pageText codec frozen (((garbage engine reachable s).take n).map Prod.fst) i := by
        intro i hpos hi
        rw [hsplit, pageText_append codec frozen (hprogress.page_full hpos hi)]
      refine ⟨b.pageCount, fun i => ?_, fun i hpos hi => ?_, fun i hpos hi body hbody => ?_⟩
      · rw [hprogress.pages i]
        split
        · rename_i hi
          rw [htext i hi.1 hi.2]
        · rfl
      · have hfull := hprogress.page_full hpos hi
        rw [hsplit, length_append]
        rw [Nat.mul_succ] at hfull
        have : 0 < pageSize := by decide
        omega
      · rw [htext i hpos hi]
        exact hprogress.agrees i hpos hi body hbody
    | flushed collected stored =>
      have hfinished := (hstart.foldlM_add collected).flush stored
      exact ⟨b.pageCount, hfinished.pages, hfinished.needed, hfinished.agrees⟩
  rw [hpages i]
  split
  · rename_i hi
    cases hstored : s.pages i with
    | none => exact .inr ⟨rfl, rfl, hi.1, hneeded i hi.1 hi.2⟩
    | some body => exact .inl (congrArg some (hagrees i hi.1 hi.2 body hstored).symm)
  · exact .inl rfl

variable (codec frozen engine reachable) in
/-- What interrupted attempts and reads by others lead to; `origin i` is the storage that was listed by the attempt that
stored page `i`. -/
inductive History : (Nat → Option (Storage Body)) → Storage Body → Prop where
  | fresh {s : Storage Body} (pages : ∀ i, s.pages i = none) (plan : s.plan = none) : History (fun _ => none) s
  | read {origin : Nat → Option (Storage Body)} {s t : Storage Body} (before : History origin s)
    (grown : Grown engine s t)
      (pages : t.pages = s.pages) (plan : t.plan = s.plan) : History origin t
  | interrupted {origin : Nat → Option (Storage Body)} {s : Storage Body} {b : Builder Body} (before : History origin s)
      (stopped : Interrupted codec frozen engine reachable s b) :
      History (fun i => if (s.pages i).isNone && (b.pages i).isSome then some s else origin i)
        { s with pages := b.pages }

variable {origin : Nat → Option (Storage Body)}

theorem History.origins (h : History codec frozen engine reachable origin t) :
    t.plan = none ∧ ∀ i, t.pages i = none ∧ origin i = none ∨
      ∃ s, origin i = some s ∧ MadeFrom codec frozen engine reachable i s t := by
  induction h with
  | fresh pages plan => exact ⟨plan, fun i => .inl ⟨pages i, rfl⟩⟩
  | read _ grown pages plan ih =>
    refine ⟨plan.trans ih.1, fun i => (ih.2 i).imp (fun h => ⟨pages ▸ h.1, h.2⟩) ?_⟩
    rintro ⟨s, horigin, hmade⟩
    exact ⟨s, horigin, pages ▸ hmade.stored, hmade.positive, hmade.begun, hmade.grown.trans grown⟩
  | @interrupted origin s b _ stopped ih =>
    refine ⟨ih.1, fun i => ?_⟩
    rcases stopped.pages i with hkept | ⟨hnone, hstored, hpos, hbegun⟩
    · have hold : (if (s.pages i).isNone && (b.pages i).isSome then some s else origin i) = origin i := by
        rw [hkept]
        cases s.pages i <;> rfl
      simp only [hold]
      refine (ih.2 i).imp (fun h => ⟨hkept.trans h.1, h.2⟩) ?_
      rintro ⟨s', horigin, hmade⟩
      exact ⟨s', horigin, hkept.trans hmade.stored, hmade.positive, hmade.begun, hmade.grown⟩
    · exact .inr ⟨s, by simp [hnone, hstored], hstored, hpos, hbegun, .refl s⟩

/-- Making the plan after any number of interrupted attempts, and of reads by others, succeeds with a valid plan just if
there are not too many objects, and everything that has become garbage since a stored page was made comes after all
entries of that page, which is full. -/
theorem planning_resumes_iff (hcheckpoint : frozen.checkpointID ≠ "") (hinventory : frozen.inventoryDigest ≠ "")
    (hhistory : History codec frozen engine reachable origin t) :
    (∃ t' versions plan, prepareCheckpointGarbagePlan codec frozen engine reachable t = .ok (t', versions) ∧
      t'.plan = some (codec.encodePlan plan) ∧ validateCheckpointGarbagePlan codec frozen t'.pages plan = .ok ()) ↔
    (garbageEntries engine reachable t).length ≤ maxUint64 ∧ ∀ i s, origin i = some s →
      ∀ e ∈ garbageEntries engine reachable t, e ∉ garbageEntries engine reachable s →
        ∀ body page, t.pages i = some body → codec.decodePage body = .ok page → page.entries.length = pageSize ∧
          ∀ x ∈ page.entries, checkpointGarbageEntryIdentity x < checkpointGarbageEntryIdentity e := by
  obtain ⟨hplan, horigins⟩ := hhistory.origins
  have hagrees : (∀ i, 1 ≤ i → pageSize * i < (garbageEntries engine reachable t).length →
        ∀ body ∈ t.pages i, body = pageText codec frozen (garbageEntries engine reachable t) i) ↔
      ∀ i s, origin i = some s → ∀ e ∈ garbageEntries engine reachable t, e ∉ garbageEntries engine reachable s →
        ∀ body page, t.pages i = some body → codec.decodePage body = .ok page → page.entries.length = pageSize ∧
          ∀ x ∈ page.entries, checkpointGarbageEntryIdentity x < checkpointGarbageEntryIdentity e := by
    refine forall_congr' fun i => ?_
    rcases horigins i with ⟨hnone, horigin⟩ | ⟨s, horigin, hmade⟩
    · simp [hnone, horigin]
    · simp only [horigin, Option.some.injEq, forall_eq', hmade.positive, true_imp_iff]
      exact hmade.agrees_iff
  rw [← hagrees, ← exists_prepare_iff hplan hcheckpoint hinventory]
  constructor
  · rintro ⟨t', versions, _, h, _⟩
    exact ⟨t', versions, h⟩
  · rintro ⟨t', versions, h⟩
    obtain ⟨built, hbuilt, _, rfl⟩ := prepare_ok hplan h
    exact ⟨_, versions, built.plan codec frozen, h, rfl,
      hbuilt.validates (fun _ => validate_garbageEntry) (garbage_increasing engine reachable t)⟩

end

namespace Resumption

def frozen : Frozen := { checkpointID := "checkpoint", gateEpoch := 1, inventoryDigest := "inventory" }
def engine : Engine := { separateFileBackend := true }

def pageKey (name : String) : Key :=
  ⟨["endlessfs", "v1", "projections", "owner", "namespace-size", "pages", name ++ ".json"]⟩

def pageName (n : Nat) : String := String.ofList (List.replicate (n + 1) 'b')

theorem eligible_pageKey (name : String) : eligible .state (pageKey name) = true := by
  refine stateEligible_of_sweptDirectory (by simp [Key.inSweptDirectory, Key.under, pageKey, projectionDirectory]) ?_
  exact endsIn_append_json name

theorem pageKey_text_lt {a b : String} (h : (a ++ ".json").toList < (b ++ ".json").toList) :
    (pageKey a).text < (pageKey b).text := by
  unfold Key.text pageKey
  rw [String.lt_iff_toList_lt]
  simp only [joinSegments, String.toList_append, append_assoc] at h ⊢
  iterate 6 refine append_left_lt (append_left_lt ?_)
  exact h

theorem replicate_lt {n m : Nat} (h : n < m) : replicate n 'b' ++ ".json".toList < replicate m 'b' ++
    ".json".toList := by
  obtain ⟨k, rfl⟩ := Nat.exists_eq_add_of_lt h
  rw [Nat.add_assoc, replicate_add, append_assoc]
  refine append_left_lt ?_
  exact cons_lt_cons_iff.mpr (.inl (by decide))

def infos (names : List String) : List ObjectInfo := names.map fun name => { key := pageKey name, version := 0 }

def leftNames (n : Nat) : List String := (List.range n).map pageName

theorem pageName_lt {n m : Nat} (h : n < m) : (pageKey (pageName n)).text < (pageKey (pageName m)).text := by
  refine pageKey_text_lt ?_
  simp only [pageName, String.toList_append, String.toList_ofList]
  exact replicate_lt (Nat.succ_lt_succ h)

theorem increasing_leftNames (n : Nat) : Increasing (fun info : ObjectInfo => info.key.text) (infos (leftNames n)) := by
  unfold Increasing infos leftNames
  rw [pairwise_map, pairwise_map]
  exact pairwise_lt_range.imp pageName_lt

theorem increasing_created (n : Nat) : Increasing
    (fun info : ObjectInfo => info.key.text) (infos ("a" :: leftNames n)) := by
  refine pairwise_cons.mpr ⟨fun info hinfo => ?_, increasing_leftNames n⟩
  obtain ⟨name, hname, rfl⟩ := mem_map.mp hinfo
  obtain ⟨n, _, rfl⟩ := mem_map.mp hname
  refine pageKey_text_lt ?_
  simp only [pageName, String.toList_append, String.toList_ofList]
  exact cons_lt_cons_iff.mpr (.inl (by decide))

def noFiles : Listing := { objects := [], ordered := .nil }

def storage (names : List String) (ordered : Increasing (fun info : ObjectInfo => info.key.text) (infos names)) :
    Storage (PlanPage ⊕ Plan) where
  listing
    | .state => { objects := infos names, ordered }
    | .files => noFiles

def left (n : Nat) : Storage (PlanPage ⊕ Plan) := storage (leftNames n) (increasing_leftNames n)
def after : Storage (PlanPage ⊕ Plan) := storage ("a" :: leftNames (pageSize + 1)) (increasing_created _)

theorem garbageEntries_storage {names : List String}
    (ordered : Increasing (fun info : ObjectInfo => info.key.text) (infos names)) :
    garbageEntries engine [] (storage names ordered) = names.map fun name => ⟨.state, pageKey name⟩ := by
  have hstate : collect engine [] (storage names ordered) .state = (infos names).map fun info =>
      (⟨.state, info.key⟩, info) := by
    unfold collect
    rw [filter_eq_self.mpr]
    · rfl
    · intro info hinfo
      obtain ⟨name, _, rfl⟩ := mem_map.mp hinfo
      simp [eligible_pageKey]
  have hfiles : collect engine [] (storage names ordered) .files = [] := rfl
  unfold garbageEntries garbage
  rw [hstate, hfiles, append_nil, infos, map_map, map_map]
  rfl

theorem garbageEntries_left (n : Nat) :
    garbageEntries engine [] (left n) = (List.range n).map fun i => ⟨.state, pageKey (pageName i)⟩ := by
  rw [left, garbageEntries_storage, leftNames, map_map]
  rfl

theorem length_left (n : Nat) : (garbageEntries engine [] (left n)).length = n := by
  simp [garbageEntries_left]

theorem length_after : (garbageEntries engine [] after).length = pageSize + 2 := by
  rw [after, garbageEntries_storage]
  simp [leftNames]

theorem left_grown (n : Nat) : Grown engine (left n) (left (n + 1)) := by
  intro role info hinfo
  cases role with
  | state =>
    obtain ⟨name, hname, rfl⟩ := mem_map.mp hinfo
    obtain ⟨i, hi, rfl⟩ := mem_map.mp hname
    refine ⟨_, mem_map_of_mem (mem_map_of_mem (mem_range.mpr ((mem_range.mp hi).trans (Nat.lt_succ_self n)))), rfl⟩
  | files => cases hinfo

/-- The first attempt adds all that is left. -/
theorem exists_collected {n : Nat} (h : n ≤ maxUint64) : ∃ b,
    (garbage engine [] (left n)).foldlM (Builder.add PlanCodec.plain frozen) (.start (left n).pages) = .ok b ∧
      Builder.Progress PlanCodec.plain frozen (left n).pages (garbageEntries engine [] (left n)) b := by
  have hstart := Builder.progress_start PlanCodec.plain frozen (left n).pages
  obtain ⟨b, hb⟩ := hstart.exists_foldlM (List.nil_append _).symm (fun _ => validate_garbageEntry)
    (garbage_increasing engine [] (left n))
    (by change (garbageEntries engine [] (left n)).length ≤ _; rwa [length_left])
    fun _ _ _ _ hbody => nomatch hbody
  exact ⟨b, hb, hstart.foldlM_add hb⟩

/-- An attempt stops when its first page is full and stored, and then one more object is created behind the others. The
plan is made. -/
theorem full_page_resumed : ∃ b, Interrupted PlanCodec.plain frozen engine [] (left (pageSize * 2)) b ∧
    (b.pages 1).isSome = true ∧ ∃ t' versions plan,
      prepareCheckpointGarbagePlan PlanCodec.plain frozen engine [] { left (pageSize * 2 + 1) with pages := b.pages } =
          .ok (t', versions) ∧
        t'.plan = some (PlanCodec.plain.encodePlan plan) ∧
        validateCheckpointGarbagePlan PlanCodec.plain frozen t'.pages plan = .ok () := by
  have hroom : pageSize * 2 + 1 ≤ maxUint64 := by decide
  generalize hn : pageSize * 2 = n at hroom
  obtain ⟨b, hcollected, hprogress⟩ := exists_collected (n := n) (by omega)
  have hlength := length_left n
  have hstopped : Interrupted PlanCodec.plain frozen engine [] (left (n)) b :=
    .collecting (garbage engine [] (left (n))).length (by rwa [List.take_length])
  refine ⟨b, hstopped, ?_, ?_⟩
  · have hunfilled := hprogress.unfilled
    rw [hlength, ← hn] at hunfilled
    have hcount : 2 < b.pageCount + 1 := Nat.lt_of_mul_lt_mul_left hunfilled
    rw [hprogress.pages 1, if_pos ⟨Nat.le_refl _, by omega⟩]
    rfl
  have hgrown : Grown engine { left n with pages := b.pages } { left (n + 1) with pages := b.pages } := left_grown n
  refine (planning_resumes_iff (by decide) (by decide)
    (.read (.interrupted (.fresh (fun _ => rfl) rfl) hstopped) hgrown rfl rfl)).mpr ⟨?_, ?_⟩
  · change (garbageEntries engine [] (left (n + 1))).length ≤ _
    rwa [length_left]
  · intro i s horigin e he hnew body page hbody hpage
    obtain rfl : left (n) = s := by
      split at horigin
      · simpa using horigin
      · cases horigin
    -- the new entry is the last one, and the page is a full one of those before
    change e ∈ garbageEntries engine [] (left (n + 1)) at he
    rw [garbageEntries_left, List.range_succ, List.map_append, ← garbageEntries_left, List.mem_append] at he
    obtain rfl : e = ⟨.state, pageKey (pageName (n))⟩ := by simpa using he.resolve_left hnew
    change b.pages i = some body at hbody
    rw [hprogress.pages i] at hbody
    split at hbody
    · rename_i hi
      cases hbody
      cases hpage
      have hfull := hprogress.page_full hi.1 hi.2
      rw [hlength, Nat.mul_succ] at hfull
      refine ⟨by rw [length_slice, hlength]; omega, fun x hx => ?_⟩
      have hx : x ∈ garbageEntries engine [] (left (n)) := List.mem_of_mem_drop (List.mem_of_mem_take hx)
      rw [garbageEntries_left] at hx
      obtain ⟨j, hj, rfl⟩ := List.mem_map.mp hx
      exact identity_lt_of_key (pageName_lt (List.mem_range.mp hj))
    · cases hbody

/-- An attempt stops right before its root is stored; then a reader creates one object. No later attempt
succeeds. -/
theorem page_conflict : ∃ b, Interrupted PlanCodec.plain frozen engine [] (left (pageSize + 1)) b ∧
    ∀ t' versions, prepareCheckpointGarbagePlan PlanCodec.plain frozen engine [] { after with pages := b.pages } ≠
      .ok (t', versions) := by
  obtain ⟨collected, hcollected, hprogress⟩ := exists_collected (n := pageSize + 1) (by decide)
  obtain ⟨b, hb⟩ := hprogress.exists_flush fun _ _ hbody => nomatch hbody
  have hfinished := hprogress.flush hb
  refine ⟨b, .flushed hcollected hb, fun t' versions hok => ?_⟩
  have hlength := length_left (pageSize + 1)
  have hcount : 1 < b.pageCount := by
    have hcovers := hfinished.covers
    by_contra hle
    have : pageSize * b.pageCount ≤ pageSize * 1 := Nat.mul_le_mul_left _ (by omega)
    omega
  have hagrees := ((exists_prepare_iff rfl (by decide) (by decide)).mp ⟨t', versions, hok⟩).2 1 (Nat.le_refl _)
    (by change _ < (garbageEntries engine [] after).length; rw [length_after]; omega) _
    ((hfinished.pages 1).trans (if_pos ⟨Nat.le_refl _, hcount⟩))
  have hslices := congrArg List.length (pageText_inj.mp hagrees)
  rw [length_slice, length_slice, hlength] at hslices
  change _ = min pageSize ((garbageEntries engine [] after).length - pageSize * 1) at hslices
  rw [length_after] at hslices
  have : 2 ≤ pageSize := by decide
  omega

end Resumption

end EndlessFS.Garbage
