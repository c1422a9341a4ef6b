import EndlessFS.Domain.Compaction

/-!
# EndlessFS.Domain.PageTree

The page tree of a domain and the walk that collects a range of it (`portable/domain_tree.go`).

* `Page`: a leaf holds entries, a branch describes its children. Pages are immutable and named by their digests, so a
  child carries the page that its digest names; packs, byte counts and key filters are left out.
* `collect`: the walk, which skips the children that lie outside of the range.
* `PageTree.collect_eq`: on a tree whose pages can be read, it returns the first entries of the range.
-/

namespace EndlessFS

open List

/-! ## Pages -/

abbrev KeyedEntry := String × DomainEntry

/-- `DomainPageChild`, and `domainPageRef`; at the root there are no keys. -/
structure PageChild (P : Type) where
  firstKey : String := ""
  lastKey : String := ""
  entryCount : Nat
  page : P

/-- `DomainPage`, by its level. -/
def Page : Nat → Type
  | 0 => List KeyedEntry
  | level + 1 => List (PageChild (Page level))

/-- The entries of a leaf as `ValidateDomainPage` checks them. -/
def orderedEntries : String → List KeyedEntry → Bool
  | _, [] => true
  | previous, e :: rest =>
    validDomainText e.1 && validDomainText e.2.logicalVersion && (previous = "" || previous < e.1) &&
      orderedEntries e.1 rest

/-- The children of a branch as `ValidateDomainPage` checks them. -/
def orderedChildren {P : Type} : String → List (PageChild P) → Bool
  | _, [] => true
  | previous, child :: rest =>
    validDomainText child.firstKey && child.firstKey ≤ child.lastKey && validDomainText child.lastKey &&
      child.entryCount ≠ 0 && (previous = "" || previous < child.firstKey) && orderedChildren child.lastKey rest

/-- The keys of `verifyConsistencyDomainPageRef`, where they are expected. -/
def describedBy {P : Type} (expected : PageChild P) (firstKey lastKey : Option String) (entryCount : Nat) : Bool :=
  (expected.firstKey = "" || firstKey = some expected.firstKey) &&
    (expected.lastKey = "" || lastKey = some expected.lastKey) &&
    expected.entryCount = entryCount

def invalidPage : Error := newError .invalid "invalid consistency-domain page"

def descriptorMismatch : Error := newError .invalid "consistency-domain child descriptor mismatch"

def readLeaf (expected : PageChild (Page 0)) : Except Error (List KeyedEntry) := do
  let entries : List KeyedEntry := expected.page
  rejectIf (!orderedEntries "" entries) invalidPage
  rejectIf (!describedBy expected (entries.head?.map (·.1)) (entries.getLast?.map (·.1)) entries.length)
    descriptorMismatch
  return entries

def readBranch {level : Nat} (expected : PageChild (Page (level + 1))) :
    Except Error (List (PageChild (Page level))) := do
  let children : List (PageChild (Page level)) := expected.page
  rejectIf (children.isEmpty || !orderedChildren "" children) invalidPage
  rejectIf (!describedBy expected (children.head?.map (·.firstKey)) (children.getLast?.map (·.lastKey))
    (children.map (·.entryCount)).sum) descriptorMismatch
  return children

/-! ## Ranges -/

section

variable (start after : String) (limit : Nat)

/-- The loop over the entries of a leaf. -/
def visitEntries : List KeyedEntry → List KeyedEntry → List KeyedEntry
  | [], result => result
  | e :: rest, result =>
    if e.1 ≤ after then visitEntries rest result
    else if start ≠ "" && !hasPrefix e.1 start then
      if start < e.1 then result else visitEntries rest result
    else if (result ++ [e]).length = limit then result ++ [e]
    else visitEntries rest (result ++ [e])

/-- The loop over the children of a branch. -/
def visitChildren {P : Type} (visit : PageChild P → List KeyedEntry → Except Error (List KeyedEntry)) :
    List (PageChild P) → List KeyedEntry → Except Error (List KeyedEntry)
  | [], result => .ok result
  | child :: rest, result =>
    if result.length = limit then .ok result
    else if child.lastKey ≤ after || start ≠ "" && child.lastKey < start then visitChildren visit rest result
    else if start ≠ "" && start < child.firstKey && !hasPrefix child.firstKey start then .ok result
    else do
      let visited ← visit child result
      visitChildren visit rest visited

def visit : (level : Nat) → PageChild (Page level) → List KeyedEntry → Except Error (List KeyedEntry)
  | 0, reference, result =>
    if limit ≤ result.length || reference.lastKey ≠ "" && reference.lastKey ≤ after then .ok result
    else do
      let entries ← readLeaf reference
      return visitEntries start after limit entries result
  | level + 1, reference, result =>
    if limit ≤ result.length || reference.lastKey ≠ "" && reference.lastKey ≤ after then .ok result
    else do
      let children ← readBranch reference
      visitChildren start after limit (visit level) children result

end

/-- `DomainTreeRoot`; `none` is the root of the empty tree. -/
abbrev PageTree := Option ((level : Nat) × PageChild (Page level))

/-- `consistencyDomainTreeSession.collect`. -/
def PageTree.collect (tree : PageTree) (start after : String) (limit : Nat) : Except Error (List KeyedEntry) :=
  match tree with
  | none => .ok []
  | some ⟨level, root⟩ => if limit = 0 then .ok [] else visit start after limit level root []

/-! ## What a tree holds -/

def pageEntries : (level : Nat) → Page level → List KeyedEntry
  | 0, entries => entries
  | level + 1, children => List.flatMap (fun child => pageEntries level child.page) children

/-- Every page can be read. -/
def PageReadable : (level : Nat) → PageChild (Page level) → Prop
  | 0, reference => ∃ entries, readLeaf reference = .ok entries
  | level + 1, reference =>
    ∃ children, readBranch reference = .ok children ∧ ∀ child ∈ children, PageReadable level child

def PageTree.entries (tree : PageTree) : List KeyedEntry := tree.elim [] fun root => pageEntries root.1 root.2.page

def PageTree.Valid (tree : PageTree) : Prop := ∀ root ∈ tree, PageReadable root.1 root.2

/-! ## Order -/

theorem validDomainText_ne {value : String} (h : validDomainText value = true) : value ≠ "" := by
  simp only [validDomainText, Bool.and_eq_true, decide_eq_true_eq] at h
  exact h.1

theorem sorted_of_orderedEntries {previous : String} {entries : List KeyedEntry}
    (h : orderedEntries previous entries = true) :
    (∀ e ∈ entries, previous = "" ∨ previous < e.1) ∧ entries.Pairwise fun a b => a.1 < b.1 := by
  induction entries generalizing previous with
  | nil => simp
  | cons e rest ih =>
    simp only [orderedEntries, Bool.and_eq_true, Bool.or_eq_true, decide_eq_true_eq] at h
    obtain ⟨hrest, hsorted⟩ := ih h.2
    have habove : ∀ x ∈ rest, e.1 < x.1 := fun x hx => (hrest x hx).resolve_left (validDomainText_ne h.1.1.1)
    refine ⟨fun x hx => ?_, .cons habove hsorted⟩
    rcases mem_cons.mp hx with rfl | hx
    · exact h.1.2
    · exact h.1.2.imp_right fun hlt => hlt.trans (habove x hx)

variable {P : Type} {children : List (PageChild P)}

theorem sorted_of_orderedChildren {previous : String} (h : orderedChildren previous children = true) :
    (∀ c ∈ children, previous = "" ∨ previous < c.firstKey) ∧ children.Pairwise (fun a b => a.lastKey < b.firstKey) ∧
      ∀ c ∈ children, c.firstKey ≠ "" ∧ c.lastKey ≠ "" ∧ c.firstKey ≤ c.lastKey := by
  induction children generalizing previous with
  | nil => simp
  | cons c rest ih =>
    simp only [orderedChildren, Bool.and_eq_true, Bool.or_eq_true, decide_eq_true_eq] at h
    obtain ⟨⟨⟨⟨⟨hfirst, hle⟩, hlast⟩, -⟩, hprevious⟩, hordered⟩ := h
    obtain ⟨hrest, hsorted, hkeys⟩ := ih hordered
    have habove : ∀ x ∈ rest, c.lastKey < x.firstKey := fun x hx => (hrest x hx).resolve_left (validDomainText_ne hlast)
    refine ⟨fun x hx => ?_, .cons habove hsorted, fun x hx => ?_⟩
    · rcases mem_cons.mp hx with rfl | hx
      · exact hprevious
      · exact hprevious.imp_right fun hlt => hlt.trans (hle.trans_lt (habove x hx))
    · rcases mem_cons.mp hx with rfl | hx
      · exact ⟨validDomainText_ne hfirst, validDomainText_ne hlast, hle⟩
      · exact hkeys x hx

theorem keys_of_describedBy {expected : PageChild P} {firstKey lastKey : Option String} {entryCount : Nat}
    (h : describedBy expected firstKey lastKey entryCount = true) :
    (expected.firstKey = "" ∨ firstKey = some expected.firstKey) ∧
      (expected.lastKey = "" ∨ lastKey = some expected.lastKey) := by
  simp only [describedBy, Bool.and_eq_true, Bool.or_eq_true, decide_eq_true_eq] at h
  exact h.1

theorem readLeaf_ok {reference : PageChild (Page 0)} {entries : List KeyedEntry}
    (h : readLeaf reference = .ok entries) :
    entries = reference.page ∧ entries.Pairwise (fun a b => a.1 < b.1) ∧
      (reference.lastKey = "" ∨ entries.getLast?.map (·.1) = some reference.lastKey) ∧
      (reference.firstKey = "" ∨ entries.head?.map (·.1) = some reference.firstKey) := by
  obtain ⟨_, hordered, h⟩ := Except.bind_ok h
  obtain ⟨_, hdescribed, h⟩ := Except.bind_ok h
  cases h
  have hkeys := keys_of_describedBy (by simpa using rejectIf_ok hdescribed)
  exact ⟨rfl, (sorted_of_orderedEntries (by simpa using rejectIf_ok hordered)).2, hkeys.2, hkeys.1⟩

theorem readBranch_ok {level : Nat} {reference : PageChild (Page (level + 1))}
    {children : List (PageChild (Page level))} (h : readBranch reference = .ok children) : children = reference.page ∧
      children.Pairwise (fun a b => a.lastKey < b.firstKey) ∧
      (∀ c ∈ children, c.firstKey ≠ "" ∧ c.lastKey ≠ "" ∧ c.firstKey ≤ c.lastKey) ∧
      (reference.lastKey = "" ∨ children.getLast?.map (·.lastKey) = some reference.lastKey) ∧
      (reference.firstKey = "" ∨ children.head?.map (·.firstKey) = some reference.firstKey) := by
  obtain ⟨_, hordered, h⟩ := Except.bind_ok h
  obtain ⟨_, hdescribed, h⟩ := Except.bind_ok h
  cases h
  have hkeys := keys_of_describedBy (by simpa using rejectIf_ok hdescribed)
  have hordered := rejectIf_ok hordered
  simp only [Bool.or_eq_false_iff, Bool.not_eq_false'] at hordered
  obtain ⟨-, hsorted, hbounds⟩ := sorted_of_orderedChildren hordered.2
  exact ⟨rfl, hsorted, hbounds, hkeys.2, hkeys.1⟩

/-- The keys of a page lie between those that its parent names. -/
structure Between (reference : PageChild P) (entries : List KeyedEntry) : Prop where
  sorted : entries.Pairwise fun a b => a.1 < b.1
  first : ∀ e ∈ entries, reference.firstKey = "" ∨ reference.firstKey ≤ e.1
  last : ∀ e ∈ entries, reference.lastKey = "" ∨ e.1 ≤ reference.lastKey

theorem head_le {α : Type} {l : List α} {f g : α → String} (hsorted : l.Pairwise fun a b => f a < f b)
    (hle : ∀ a ∈ l, f a ≤ g a) {first : String} (h : l.head?.map f = some first) : ∀ a ∈ l, first ≤ g a := by
  cases l with
  | nil => cases h
  | cons x rest =>
    cases h
    intro a ha
    rcases mem_cons.mp ha with rfl | hrest
    · exact hle a ha
    · exact ((pairwise_cons.mp hsorted).1 a hrest).le.trans (hle a ha)

theorem le_last {α : Type} {l : List α} {f g : α → String} (hsorted : l.Pairwise fun a b => f a < f b)
    (hle : ∀ a ∈ l, g a ≤ f a) {last : String} (h : l.getLast?.map f = some last) : ∀ a ∈ l, g a ≤ last := by
  obtain ⟨x, hx, rfl⟩ := Option.map_eq_some_iff.mp h
  obtain ⟨rest, rfl⟩ := getLast?_eq_some_iff.mp hx
  intro a ha
  rcases mem_append.mp ha with hrest | ha'
  · exact (hle a ha).trans ((pairwise_append.mp hsorted).2.2 a hrest x (.head _)).le
  · obtain rfl := mem_singleton.mp ha'
    exact hle a ha

theorem between_of_pageReadable {level : Nat} {reference : PageChild (Page level)} (h : PageReadable level reference) :
    Between reference (pageEntries level reference.page) := by
  induction level with
  | zero =>
    obtain ⟨entries, hread⟩ := h
    obtain ⟨rfl, hsorted, hlast, hfirst⟩ := readLeaf_ok hread
    refine ⟨hsorted, fun e he => hfirst.imp_right fun hfirst => ?_, fun e he => hlast.imp_right fun hlast => ?_⟩
    · exact head_le hsorted (fun _ _ => le_rfl) hfirst e he
    · exact le_last hsorted (fun _ _ => le_rfl) hlast e he
  | succ level ih =>
    obtain ⟨children, hread, hchildren⟩ := h
    obtain ⟨hpage, hsorted, hbounds, hlast, hfirst⟩ := readBranch_ok hread
    have hentries : pageEntries (level + 1) reference.page = children.flatMap fun c => pageEntries level c.page := by
      rw [hpage]
      rfl
    have hwithin : ∀ c ∈ children, ∀ e ∈ pageEntries level c.page, c.firstKey ≤ e.1 ∧
      e.1 ≤ c.lastKey := fun c hc e he =>
      ⟨((ih (hchildren c hc)).first e he).resolve_left (hbounds c hc).1,
        ((ih (hchildren c hc)).last e he).resolve_left (hbounds c hc).2.1⟩
    have hfirsts : children.Pairwise fun a b => a.firstKey < b.firstKey :=
      hsorted.imp_of_mem fun ha _ hlt => (hbounds _ ha).2.2.trans_lt hlt
    have hlasts : children.Pairwise fun a b => a.lastKey < b.lastKey :=
      hsorted.imp_of_mem fun _ hb hlt => hlt.trans_le (hbounds _ hb).2.2
    rw [hentries]
    refine ⟨?_, fun e he => hfirst.imp_right fun hfirst => ?_, fun e he => hlast.imp_right fun hlast => ?_⟩
    · rw [pairwise_flatMap]
      refine ⟨fun c hc => (ih (hchildren c hc)).sorted, hsorted.imp_of_mem fun ha hb hlt x hx y hy => ?_⟩
      exact (hwithin _ ha x hx).2.trans_lt (hlt.trans_le (hwithin _ hb y hy).1)
    · obtain ⟨c, hc, he⟩ := mem_flatMap.mp he
      exact (head_le hfirsts (fun _ _ => le_rfl) hfirst c hc).trans (hwithin c hc e he).1
    · obtain ⟨c, hc, he⟩ := mem_flatMap.mp he
      exact (hwithin c hc e he).2.trans (le_last hlasts (fun _ _ => le_rfl) hlast c hc)

/-! ## The walk -/

variable {start after key : String}

theorem le_of_hasPrefix (h : hasPrefix key start = true) : start ≤ key := by
  obtain ⟨rest, hrest⟩ := isPrefixOf_iff_prefix.mp h
  rw [← not_lt, String.lt_iff_toList_lt, ← hrest]
  exact List.le_append_left (α := Char)

/-- The texts that begin with `start` stand together. -/
theorem not_hasPrefix_of_le {later : String} (hlt : start < key) (hno : hasPrefix key start = false)
    (hle : key ≤ later) :
    hasPrefix later start = false := by
  by_contra hyes
  obtain ⟨below, hbelow⟩ := isPrefixOf_iff_prefix.mp (by simpa using hyes : hasPrefix later start = true)
  refine absurd hle (not_le.mpr ?_)
  have hno : ¬start.toList <+: key.toList := fun h => by simp [hasPrefix, isPrefixOf_iff_prefix.mpr h] at hno
  rw [String.lt_iff_toList_lt] at hlt ⊢
  rw [← hbelow]
  clear hbelow hle hyes
  generalize start.toList = p at hlt hno ⊢
  generalize key.toList = q at hlt hno ⊢
  induction p generalizing q with
  | nil => exact absurd nil_prefix hno
  | cons a p ih =>
    cases q with
    | nil => exact absurd hlt (not_lt_nil _)
    | cons b q =>
      rcases cons_lt_cons_iff.mp hlt with hab | ⟨rfl, hpq⟩
      · exact cons_lt_cons_iff.mpr (.inl hab)
      · exact cons_lt_cons_iff.mpr (.inr ⟨rfl, ih q hpq fun h => hno (cons_prefix_cons.mpr ⟨rfl, h⟩)⟩)

variable {limit : Nat}

def ranged (start after : String) (entries : List KeyedEntry) : List KeyedEntry :=
  entries.filter fun e => inRange start after e.1

theorem ranged_eq_nil {entries : List KeyedEntry} (h : ∀ e ∈ entries, e.1 ≤ after ∨ hasPrefix e.1 start = false) :
    ranged start after entries = [] := by
  refine filter_eq_nil_iff.mpr fun e he => ?_
  rcases h e he with hle | hno
  · simp [inRange, not_lt.mpr hle]
  · simp [inRange, hno]

/-- The result so far, and the first entries of a range that it has room for. -/
def extended (limit : Nat) (result more : List KeyedEntry) : List KeyedEntry :=
  result ++ more.take (limit - result.length)

theorem visitEntries_eq {entries result : List KeyedEntry} (hsorted : entries.Pairwise fun a b => a.1 < b.1)
    (hroom : result.length < limit) :
    visitEntries start after limit entries result = extended limit result (ranged start after entries) := by
  induction entries generalizing result with
  | nil => simp [visitEntries, extended, ranged]
  | cons e rest ih =>
    obtain ⟨habove, hrest⟩ := pairwise_cons.mp hsorted
    have hskip : inRange start after e.1 = false → ranged start after (e :: rest) = ranged start after rest :=
      fun h => by
      simp [ranged, h]
    rw [visitEntries]
    split_ifs with hafter hother hover hfull
    · rw [hskip (by simp [inRange, not_lt.mpr hafter]), ih hrest hroom]
    · simp only [Bool.and_eq_true, Bool.not_eq_true'] at hother
      have hlater : ranged start after (e :: rest) = [] := by
        refine ranged_eq_nil fun x hx => .inr ?_
        rcases mem_cons.mp hx with rfl | hx
        · exact hother.2
        · exact not_hasPrefix_of_le hover hother.2 (habove x hx).le
      simp [extended, hlater]
    · simp only [Bool.and_eq_true, Bool.not_eq_true'] at hother
      rw [hskip (by simp [inRange, hother.2]), ih hrest hroom]
    all_goals
      have hmatch : inRange start after e.1 = true := by
        have hstarts : hasPrefix e.1 start = true := by
          by_contra hno
          have hempty : start = "" := by simpa [hno] using hother
          exact hno (by rw [hempty]; rfl)
        simp [inRange, not_le.mp hafter, hstarts]
      have hhead : ranged start after (e :: rest) = e :: ranged start after rest := by simp [ranged, hmatch]
      rw [length_append, length_singleton] at hfull
      rw [hhead, extended]
    · rw [show limit - result.length = 1 by omega]
      rfl
    · rw [ih hrest (by rw [length_append, length_singleton]; omega), extended, length_append, length_singleton,
        append_assoc, show limit - result.length = (limit - (result.length + 1)) + 1 by omega]
      rfl

theorem length_extended {result more : List KeyedEntry} (h : result.length ≤ limit) :
    (extended limit result more).length ≤ limit := by
  rw [extended, length_append, length_take]
  omega

theorem extended_append {result a b : List KeyedEntry} (h : result.length ≤ limit) :
    extended limit (extended limit result a) b = extended limit result (a ++ b) := by
  simp only [extended, take_append, append_assoc, length_append, length_take]
  congr 3
  omega

theorem extended_full {result more : List KeyedEntry} (h : limit ≤ result.length) :
    extended limit result more = result := by
  rw [extended, Nat.sub_eq_zero_of_le h, take_zero, append_nil]

theorem extended_nil {result : List KeyedEntry} : extended limit result [] = result := by simp [extended]

/-- The children that the loop skips, or does not reach, hold nothing of the range. -/
theorem visitChildren_eq {visit : PageChild P → List KeyedEntry → Except Error (List KeyedEntry)}
    {entries : PageChild P → List KeyedEntry} {result : List KeyedEntry}
    (hvisit : ∀ c ∈ children, ∀ result, result.length ≤ limit →
      visit c result = .ok (extended limit result (ranged start after (entries c))))
    (hwithin : ∀ c ∈ children, ∀ e ∈ entries c, c.firstKey ≤ e.1 ∧ e.1 ≤ c.lastKey)
    (hsorted : children.Pairwise fun a b => a.firstKey < b.firstKey) (hroom : result.length ≤ limit) :
    visitChildren start after limit visit children result =
      .ok (extended limit result (ranged start after (children.flatMap entries))) := by
  induction children generalizing result with
  | nil => simp [visitChildren, extended, ranged]
  | cons c rest ih =>
    obtain ⟨habove, hrest⟩ := pairwise_cons.mp hsorted
    have ih := fun {result} => @ih result (fun d hd => hvisit d (.tail _ hd)) (fun d hd => hwithin d (.tail _ hd)) hrest
    have hsplit : ranged start after ((c :: rest).flatMap entries) =
        ranged start after (entries c) ++ ranged start after (rest.flatMap entries) := by
      simp [ranged, flatMap_cons]
    rw [visitChildren]
    split_ifs with hfull hskip hover
    · rw [extended_full hfull.ge]
    · have hnone : ranged start after (entries c) = [] := by
        refine ranged_eq_nil fun e he => ?_
        have hlast := (hwithin c (.head _) e he).2
        simp only [Bool.or_eq_true, Bool.and_eq_true, decide_eq_true_eq] at hskip
        refine hskip.imp hlast.trans fun hbelow => ?_
        by_contra hyes
        exact absurd (le_of_hasPrefix (by simpa using hyes)) (not_le.mpr (hlast.trans_lt hbelow.2))
      rw [hsplit, hnone, nil_append, ih hroom]
    · simp only [Bool.and_eq_true, Bool.not_eq_true', decide_eq_true_eq] at hover
      have hnone : ranged start after ((c :: rest).flatMap entries) = [] := by
        refine ranged_eq_nil fun e he => .inr ?_
        obtain ⟨d, hd, he⟩ := mem_flatMap.mp he
        refine not_hasPrefix_of_le hover.1.2 hover.2 (le_trans ?_ (hwithin d hd e he).1)
        rcases mem_cons.mp hd with rfl | hd
        · exact le_rfl
        · exact (habove d hd).le
      rw [hnone, extended_nil]
    · rw [hvisit c (.head _) result hroom]
      change visitChildren start after limit visit rest _ = _
      rw [ih (length_extended hroom), hsplit, extended_append hroom]

/-- A page that the walk does not read holds nothing that it still looks for. -/
theorem extended_skipped {level : Nat} {reference : PageChild (Page level)} (h : PageReadable level reference)
    {result : List KeyedEntry} (hskip : (limit ≤ result.length || reference.lastKey ≠ "" &&
      reference.lastKey ≤ after) = true) :
    extended limit result (ranged start after (pageEntries level reference.page)) = result := by
  simp only [Bool.or_eq_true, Bool.and_eq_true, decide_eq_true_eq] at hskip
  rcases hskip with hfull | ⟨hkey, hle⟩
  · exact extended_full hfull
  · rw [ranged_eq_nil fun e he => .inl ?_, extended_nil]
    exact (((between_of_pageReadable h).last e he).resolve_left hkey).trans hle

theorem visit_eq {level : Nat} {reference : PageChild (Page level)} (h : PageReadable level reference)
    {result : List KeyedEntry} (hroom : result.length ≤ limit) : visit start after limit level reference result =
      .ok (extended limit result (ranged start after (pageEntries level reference.page))) := by
  induction level generalizing result with
  | zero =>
    rw [visit]
    split_ifs with hskip
    · rw [extended_skipped h hskip]
    · obtain ⟨entries, hread⟩ := h
      obtain ⟨rfl, hsorted, -⟩ := readLeaf_ok hread
      have hlt : result.length < limit := by
        simp only [Bool.or_eq_true, decide_eq_true_eq, not_or] at hskip
        omega
      rw [hread]
      exact congrArg Except.ok (visitEntries_eq hsorted hlt)
  | succ level ih =>
    rw [visit]
    split_ifs with hskip
    · rw [extended_skipped h hskip]
    · obtain ⟨children, hread, hchildren⟩ := h
      obtain ⟨rfl, hsorted, hbounds, -⟩ := readBranch_ok hread
      rw [hread]
      refine visitChildren_eq (fun c hc result hroom => ih (hchildren c hc) hroom) (fun c hc e he => ?_) ?_ hroom
      · have hbetween := between_of_pageReadable (hchildren c hc)
        exact ⟨(hbetween.first e he).resolve_left (hbounds c hc).1,
          (hbetween.last e he).resolve_left (hbounds c hc).2.1⟩
      · exact hsorted.imp_of_mem fun ha _ hlt => (hbounds _ ha).2.2.trans_lt hlt

variable {tree : PageTree}

/-- The walk returns the first entries of the range, in order. -/
theorem PageTree.collect_eq (h : tree.Valid) (start after : String) (limit : Nat) :
    tree.collect start after limit = .ok ((tree.entries.filter fun e => inRange start after e.1).take limit) := by
  cases tree with
  | none => simp [PageTree.collect, PageTree.entries]
  | some root =>
    rw [PageTree.collect]
    split_ifs with hzero
    · simp [hzero]
    · rw [visit_eq (h root rfl) (Nat.zero_le _)]
      rfl

end EndlessFS
