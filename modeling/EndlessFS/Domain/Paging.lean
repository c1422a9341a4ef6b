import EndlessFS.Domain.PageTree

/-!
# EndlessFS.Domain.Paging

Listing a head page by page, as a checkpoint does with the values of a control domain (`portable/checkpoint008.go`).

* `listAtHeadWithSession`: one listing, from the page tree of the base and the window.
* `listRange`: the loop over listings, each after the last key of the one before.
* `listing_exact`: a page is the first entries of the range of the map that the head denotes, and the pages together are
  the whole range.
-/

namespace EndlessFS

open List

/-- `listAtHeadWithSession`; `base` is the page tree of the head's base. -/
def listAtHeadWithSession (base : PageTree) (deltas : List DomainDelta) (start after : String) (limit : Nat) :
    Except Error (List KeyedEntry) := do
  let relevant := (windowChanges deltas).filter fun change => inRange start after change.key
  let collected ← base.collect start after (limit + relevant.length)
  let values := (SortedMap.empty.apply (collected.map fun e => (e.1, some e.2))).apply
    (relevant.map fun change => (change.key, change.entry))
  return values.entries.take limit

/-- The loop over the pages of a range; it ends with a page that is not full. -/
def listRange (base : PageTree) (deltas : List DomainDelta) (start : String) (limit : Nat) :
    Nat → String → Except Error (List KeyedEntry)
  | 0, _ => .error outOfFuel
  | fuel + 1, after => do
    let values ← listAtHeadWithSession base deltas start after limit
    match values.getLast? with
    | none => return values
    | some last =>
      if values.length < limit then return values
      else
        let rest ← listRange base deltas start limit fuel last.1
        return values ++ rest

variable {V : Type} {entries : List (String × V)} {start after : String}

/-- What comes after the last key of a page is what the page leaves over. -/
theorem filter_inRange_last (hsorted : entries.Pairwise fun a b => a.1 < b.1) {limit : Nat} {last : String × V}
    (hlast : ((entries.filter fun e => inRange start after e.1).take limit).getLast? = some last) :
    (entries.filter fun e => inRange start last.1 e.1) = (entries.filter fun e => inRange start after e.1).drop
      limit := by
  have hnarrow : (entries.filter fun e => inRange start last.1 e.1) =
      (entries.filter fun e => inRange start after e.1).filter fun e => last.1 < e.1 := by
    have hmem := mem_of_mem_take (mem_of_getLast? hlast)
    have hafter : after < last.1 := by
      have := (mem_filter.mp hmem).2
      simp only [inRange, Bool.and_eq_true, decide_eq_true_eq] at this
      exact this.1
    rw [filter_filter]
    refine filter_congr fun e _ => ?_
    simp only [inRange]
    by_cases h : last.1 < e.1
    · simp [h, hafter.trans h]
    · simp [h]
  rw [hnarrow]
  have hrange : (entries.filter fun e => inRange start after e.1).Pairwise fun a b => a.1 < b.1 := hsorted.filter _
  generalize entries.filter (fun e => inRange start after e.1) = range at hlast hrange
  -- Before the end of the page keys are at most its last one, behind it they are larger.
  obtain ⟨page, hpage⟩ := getLast?_eq_some_iff.mp hlast
  have hsplit := take_append_drop limit range
  rw [← hsplit, hpage, append_assoc, singleton_append] at hrange
  rw [pairwise_append] at hrange
  obtain ⟨_, hrest, hbefore⟩ := hrange
  have hdropped : (range.take limit).filter (fun e => last.1 < e.1) = [] := by
    rw [hpage, filter_eq_nil_iff]
    intro e he
    rcases mem_append.mp he with he | he
    · rw [decide_eq_true_eq]
      exact (hbefore e he last (.head _)).asymm
    · rw [mem_singleton.mp he, decide_eq_true_eq]
      exact lt_irrefl _
  have hkept : (range.drop limit).filter (fun e => last.1 < e.1) = range.drop limit :=
    filter_eq_self.mpr fun e he => decide_eq_true ((pairwise_cons.mp hrest).1 e he)
  calc range.filter (fun e => last.1 < e.1)
      = (range.take limit).filter (fun e => last.1 < e.1) ++ (range.drop limit).filter (fun e => last.1 < e.1) := by
        rw [← filter_append, hsplit]
    _ = range.drop limit := by rw [hdropped, hkept, nil_append]

variable {head : DomainHead} {base : PageTree}

theorem listAtHeadWithSession_eq (hvalid : base.Valid) (hbase : base.entries = head.base.entries) (start after : String)
    (limit : Nat) : listAtHeadWithSession base head.deltas start after limit =
      .ok (((foldedBase head).entries.filter fun e => inRange start after e.1).take limit) := by
  have hlist : ((foldedBase head).entries.filter fun e => inRange start after e.1).take limit =
      listAtHead head start after limit := (listAtHead_eq head start after limit).symm
  rw [hlist, listAtHeadWithSession, base.collect_eq hvalid, hbase]
  exact congrArg (fun m : SortedMap String DomainEntry => Except.ok ((m.apply _).entries.take limit))
    (SortedMap.apply_entries (collect head.base start after _))

theorem listRange_eq (hvalid : base.Valid) (hbase : base.entries = head.base.entries) (start : String) {limit : Nat}
    (hlimit : 1 ≤ limit) {fuel : Nat} {after : String}
    (hfuel : ((foldedBase head).entries.filter fun e => inRange start after e.1).length < fuel) :
    listRange base head.deltas start limit fuel after =
      .ok ((foldedBase head).entries.filter fun e => inRange start after e.1) := by
  induction fuel generalizing after with
  | zero => cases hfuel
  | succ fuel ih =>
    rw [listRange, listAtHeadWithSession_eq hvalid hbase, Except.ok_bind]
    cases hlast : (((foldedBase head).entries.filter fun e => inRange start after e.1).take limit).getLast? with
    | none =>
      have hnil := getLast?_eq_none_iff.mp hlast
      rcases take_eq_nil_iff.mp hnil with hzero | hempty
      · omega
      · rw [hempty, take_nil]
        rfl
    | some last =>
      have hrest := filter_inRange_last (foldedBase head).sorted hlast
      dsimp only
      split
      next hshort =>
        rw [length_take] at hshort
        exact congrArg Except.ok (take_of_length_le (by omega))
      next hfull =>
        rw [length_take] at hfull
        rw [ih (by rw [hrest, length_drop]; omega), hrest, Except.ok_bind]
        exact congrArg Except.ok (take_append_drop ..)

theorem get_foldedBase (hs : SortedDeltas head.deltas) (key : String) :
    (foldedBase head).get key = denote head key := by
  rw [foldedBase, ← apply_foldDeltas, SortedMap.get_apply, get_foldDeltas hs, denote_eq]

/-- Over any page tree of the base: the map that a head denotes has its entries in order, and a page lists the first
ones of its range; the pages, each after the last key of the one before, list the range once and end. -/
theorem listing_exact (hs : SortedDeltas head.deltas) (hvalid : base.Valid) (hbase : base.entries = head.base.entries) :
    ∃ values : SortedMap String DomainEntry, (∀ key, values.get key = denote head key) ∧ ∀ start after limit,
    1 ≤ limit →
        listAtHeadWithSession base head.deltas start after limit =
          .ok ((values.entries.filter fun e => inRange start after e.1).take limit) ∧
        ∀ fuel, values.entries.length < fuel → listRange base head.deltas start limit fuel after =
          .ok (values.entries.filter fun e => inRange start after e.1) :=
  ⟨foldedBase head, get_foldedBase hs, fun start after limit hlimit =>
    ⟨listAtHeadWithSession_eq hvalid hbase start after limit,
    fun _ hfuel => listRange_eq hvalid hbase start hlimit ((List.length_filter_le _ _).trans_lt hfuel)⟩⟩

/-! ## A tree of two leaves -/

def pagedEntry (text : String) : DomainEntry := { value := .raw text, logicalVersion := "v" }

def pagedLeaf (firstKey lastKey : String) (entries : List KeyedEntry) : PageChild (Page 0) :=
  { firstKey, lastKey, entryCount := entries.length, page := entries }

def pagedTree : PageTree :=
  some ⟨1, { entryCount := 3, page := ([pagedLeaf "a" "b" [("a", pagedEntry "1"), ("b", pagedEntry "2")],
    pagedLeaf "c" "c" [("c", pagedEntry "3")]] : List (PageChild (Page 0))) }⟩

/-- The window of `usedHead` over the tree. -/
def pagedHead : DomainHead :=
  { usedHead with base := { entries := [("a", pagedEntry "1"), ("b", pagedEntry "2"), ("c", pagedEntry "3")],
                            sorted := by decide } }

theorem pagedTree_valid : pagedTree.Valid := by
  intro root hroot
  cases hroot
  refine ⟨_, rfl, fun child hchild => ?_⟩
  rcases mem_cons.mp hchild with rfl | hchild
  · exact ⟨_, rfl⟩
  · cases mem_singleton.mp hchild
    exact ⟨_, rfl⟩

theorem listing_pagedHead : ∃ values : SortedMap String DomainEntry, (∀ key, values.get key = denote pagedHead key) ∧
    listAtHeadWithSession pagedTree pagedHead.deltas "" "a" 2 =
      .ok ((values.entries.filter fun e => inRange "" "a" e.1).take 2) ∧
    listRange pagedTree pagedHead.deltas "" 2 (values.entries.length + 1) "a" =
      .ok (values.entries.filter fun e => inRange "" "a" e.1) := by
  have hs : SortedDeltas pagedHead.deltas := by
    unfold SortedDeltas
    decide +kernel
  obtain ⟨values, hvalues, hlists⟩ := listing_exact hs pagedTree_valid rfl
  obtain ⟨hpage, hpages⟩ := hlists "" "a" 2 (by decide)
  exact ⟨values, hvalues, hpage, hpages _ (Nat.lt_succ_self _)⟩

end EndlessFS
