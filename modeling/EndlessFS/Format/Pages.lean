import Mathlib.Data.List.Chain
import EndlessFS.Domain.Head
import EndlessFS.Format.Envelope

/-!
# EndlessFS.Format.Pages

How many members a page of a domain tree takes (`portable/domain_tree.go`, `portable/domain_tree_stream.go`). The size
of a page is followed member by member, without encoding each candidate anew.

* `Encoder`: how `encoding/json` writes scalars; objects and arrays are put together from their parts.
* `canonicalDomainPagePrefix`, `Builder.add`: the two places that follow the size.
* `Builder.Split`: the leaves that a builder has filled.
* `page_sizing_exact`: both take a member exactly if the page with it can be encoded.
-/

namespace EndlessFS.Format.Pages

open List

/-! ## The encoding -/

structure Encoder where
  quote : Text → Text
  number : Int → Text
  /-- A byte slice in base 64; a nil slice is `null`. -/
  blob : Option Text → Text

def commas : List Text → Text
  | [] => []
  | first :: rest => first ++ rest.flatMap fun text => ascii "," ++ text

def array (members : List Text) : Text := ascii "[" ++ (commas members ++ ascii "]")

/-- Fields without a text are omitted. -/
def object (fields : List (String × Option Text)) : Text :=
  ascii "\x7b" ++ (commas (fields.filterMap fun field => field.2.map fun text =>
    ascii ("\"" ++ field.1 ++ "\":") ++ text) ++ ascii "\x7d")

/-- An empty list is omitted. -/
def arrayOrNone (members : List Text) : Option Text := if members = [] then none else some (array members)

structure DomainEntry where
  key : Text
  value : Option Text
  logicalVersion : Text

structure DomainPageChild where
  firstKey : Text
  lastKey : Text
  digest : Text
  packID : Text
  leafKeyFilter : Text
  level : Int
  entryCount : Nat
  byteCount : Nat

structure DomainPage where
  schemaVersion : Int
  domainID : Text
  kind : Text
  level : Int
  entries : List DomainEntry
  children : List DomainPageChild

namespace Encoder

variable (enc : Encoder)

def quoteOrNone (text : Text) : Option Text := if text = [] then none else some (enc.quote text)

def entry (e : DomainEntry) : Text :=
  object [("key", enc.quote e.key), ("value", enc.blob e.value), ("logicalVersion", enc.quote e.logicalVersion)]

def child (c : DomainPageChild) : Text :=
  object [("firstKey", enc.quote c.firstKey), ("lastKey", enc.quote c.lastKey), ("digest", enc.quote c.digest),
    ("packID", enc.quoteOrNone c.packID), ("leafKeyFilter", enc.quoteOrNone c.leafKeyFilter),
      ("level", enc.number c.level),
    ("entryCount", enc.number c.entryCount), ("byteCount", if c.byteCount =
      0 then none else some (enc.number c.byteCount))]

def header (p : DomainPage) : List (String × Option Text) :=
  [("schemaVersion", enc.number p.schemaVersion), ("domainID", enc.quote p.domainID), ("kind", enc.quote p.kind),
    ("level", enc.number p.level)]

def page (p : DomainPage) : Text :=
  object (enc.header p ++
    [("entries", arrayOrNone (p.entries.map enc.entry)), ("children", arrayOrNone (p.children.map enc.child))])

end Encoder

/-- `EncodeCanonical` on an encoded value. -/
def canonical (text : Text) : Option Text := if text = [] || maxCanonicalBytes < text.length then none else some text

/-! ## Following the size -/

section

variable {α : Type} (member : α → Text) (page : List α → Text)

/-- The loop of `canonicalDomainPagePrefix`. -/
def countFrom : Nat → Nat → List α → Nat
  | _, index, [] => index
  | encodedSize, index, item :: rest =>
    match canonical (member item) with
    | none => index
    | some text =>
      if maxCanonicalBytes < encodedSize + 1 + text.length then index else countFrom (encodedSize + 1 + text.length)
        (index + 1) rest

def canonicalDomainPagePrefix : List α → Nat
  | [] => 0
  | first :: rest =>
    match canonical (page [first]) with
    | none => 0
    | some body => countFrom member body.length 1 rest

/-- The first `n` items are the most that a page can hold. -/
def Greatest (items : List α) (n : Nat) : Prop :=
  n ≤ items.length ∧ ∀ k, 1 ≤ k → k ≤ items.length → (k ≤ n ↔ (canonical (page (items.take k))).isSome)

/-- A page grows by a comma and the text of the member. -/
structure Grows : Prop where
  member_ne : ∀ x, member x ≠ []
  page_ne : ∀ xs, page xs ≠ []
  length : ∀ xs x, xs ≠ [] → (page (xs ++ [x])).length = (page xs).length + 1 + (member x).length

end

/-- `consistencyDomainTreeBuilder`, up to the leaves that it hands to `writePage`. -/
structure Builder where
  leaf : List DomainEntry
  leafCanonicalBytes : Nat
  flushed : List (List DomainEntry)

namespace Builder

def empty : Builder := { leaf := [], leafCanonicalBytes := 0, flushed := [] }

variable (enc : Encoder) (p : DomainPage)

def leafPage (leaf : List DomainEntry) : Text := enc.page { p with entries := leaf }

def flushLeaf (b : Builder) : Builder :=
  if b.leaf = [] then b else { leaf := [], leafCanonicalBytes := 0, flushed := b.flushed ++ [b.leaf] }

def start (b : Builder) (entry : DomainEntry) : Except Error Builder :=
  match canonical (leafPage enc p [entry]) with
  | none => .error (newError .invalid "consistency-domain entry cannot fit in a canonical page")
  | some body => .ok { b with leaf := [entry], leafCanonicalBytes := body.length }

def add (b : Builder) (entry : DomainEntry) : Except Error Builder :=
  if b.leaf = [] then b.start enc p entry
  else
    match if b.leaf.length < domainPageMaximumItems then canonical (enc.entry entry) else none with
    | none => b.flushLeaf.start enc p entry
    | some text =>
      if (text.length : Int) ≤ maxCanonicalBytes - b.leafCanonicalBytes - 1 then
        .ok { b with leaf := b.leaf ++ [entry], leafCanonicalBytes := b.leafCanonicalBytes + (1 + text.length) }
      else b.flushLeaf.start enc p entry

/-- The same with the whole candidate encoded anew. -/
def addEncoding (b : Builder) (entry : DomainEntry) : Except Error Builder :=
  match if b.leaf ≠ [] ∧ b.leaf.length < domainPageMaximumItems then canonical
    (leafPage enc p (b.leaf ++ [entry])) else none with
  | none => b.flushLeaf.start enc p entry
  | some body => .ok { b with leaf := b.leaf ++ [entry], leafCanonicalBytes := body.length }

/-- The count is the size of the leaf. -/
def Sized (b : Builder) : Prop :=
  b.leaf ≠ [] → (leafPage enc p b.leaf).length ≤ maxCanonicalBytes ∧
    b.leafCanonicalBytes = (leafPage enc p b.leaf).length

end Builder

/-! ## Sizes -/

theorem canonical_some {text body : Text} (h : canonical text = some body) :
    text.length ≤ maxCanonicalBytes ∧ text = body := by
  simp [canonical] at h
  exact ⟨h.1.2, h.2⟩

theorem canonical_eq {text : Text} (hne : text ≠ []) :
    canonical text = if text.length ≤ maxCanonicalBytes then some text else none := by
  simp only [canonical, hne, decide_false, Bool.false_or, decide_eq_true_eq, ← not_le, ite_not]

theorem length_array {members : List Text} (h : members ≠ []) (text : Text) :
    (array (members ++ [text])).length = (array members).length + (1 + text.length) := by
  obtain ⟨first, rest, rfl⟩ := exists_cons_of_ne_nil h
  simp [array, commas, ascii]
  omega

/-- An object grows with the text of a field. -/
theorem length_object (before after : List (String × Option Text)) (name : String) {text longer : Text} {n : Nat}
    (h : longer.length = text.length + n) :
    (object (before ++ (name, some longer) :: after)).length =
      (object (before ++ (name, some text) :: after)).length + n := by
  simp only [object, filterMap_append, filterMap_cons, Option.map_some, length_append]
  cases before.filterMap fun field => field.2.map fun text => ascii ("\"" ++ field.1 ++ "\":") ++ text with
  | nil =>
    simp only [commas, nil_append, length_append, h]
    omega
  | cons first rest =>
    simp only [commas, cons_append, flatMap_append, flatMap_cons, length_append, h]
    omega

theorem object_ne (fields : List (String × Option Text)) : object fields ≠ [] := by simp [object, ascii]

variable {α : Type} {member : α → Text} {page : List α → Text} {done rest : List α} {item : α}

theorem grows_object (before after : List (String × Option Text)) (name : String) (hmember : ∀ x, member x ≠ []) :
    Grows member fun xs => object (before ++ (name, arrayOrNone (xs.map member)) :: after) := by
  refine ⟨hmember, fun _ => object_ne _, fun xs x hne => ?_⟩
  have hmembers : xs.map member ≠ [] := by simpa using hne
  simp only [map_append, map_cons, map_nil, arrayOrNone, if_neg hmembers,
    if_neg (append_ne_nil_of_left_ne_nil hmembers _), Nat.add_assoc]
  exact length_object before after name (length_array hmembers _)

section

variable (h : Grows member page)

include h

theorem Grows.length_le (hdone : done ≠ []) (more : List α) : (page done).length ≤ (page (done ++ more)).length := by
  induction more generalizing done with
  | nil => simp
  | cons x more ih =>
    have hstep := h.length done x hdone
    have hrest := ih (by simp : done ++ [x] ≠ [])
    rw [append_assoc, singleton_append] at hrest
    omega

/-- The loop goes on exactly if the page with the next member is not too large. -/
theorem Grows.countFrom_cons (hdone : done ≠ []) : countFrom member (page done).length done.length (item :: rest) =
      if (page (done ++ [item])).length ≤ maxCanonicalBytes then
        countFrom member (page (done ++ [item])).length (done ++ [item]).length rest else done.length := by
  rw [h.length done item hdone, length_append, length_singleton, countFrom, canonical_eq (h.member_ne item)]
  by_cases hmember : (member item).length ≤ maxCanonicalBytes
  · simp only [if_pos hmember, ← not_le, ite_not]
  · rw [if_neg hmember, if_neg (by omega)]

theorem Grows.countFrom_iff (hdone : done ≠ []) (hfits : (page done).length ≤ maxCanonicalBytes) :
    countFrom member (page done).length done.length rest ≤ done.length + rest.length ∧ ∀ k ≤ rest.length,
      (done.length + k ≤ countFrom member (page done).length done.length rest ↔
        (page (done ++ rest.take k)).length ≤ maxCanonicalBytes) := by
  induction rest generalizing done with
  | nil => exact ⟨le_rfl, fun k hk => by simpa [countFrom, Nat.le_zero.mp hk] using hfits⟩
  | cons item rest ih =>
    have hlength : (done ++ [item]).length = done.length + 1 := length_append
    have hlonger : ∀ k, done ++ (item :: rest).take (k + 1) = done ++ [item] ++ rest.take k := fun k => by simp
    rw [h.countFrom_cons hdone, length_cons]
    split
    next hmore =>
      obtain ⟨hupper, hiff⟩ := ih (by simp : done ++ [item] ≠ []) hmore
      rw [hlength] at hupper hiff ⊢
      refine ⟨by omega, fun k hk => ?_⟩
      cases k with
      | zero =>
        have hnext := (hiff 0 (Nat.zero_le _)).mpr (by simpa using hmore)
        exact iff_of_true (by omega) (by simpa using hfits)
      | succ k => rw [hlonger, ← hiff k (by omega), Nat.add_right_comm, Nat.add_assoc]
    next hstop =>
      refine ⟨by omega, fun k _ => ?_⟩
      cases k with
      | zero => exact iff_of_true le_rfl (by simpa using hfits)
      | succ k =>
        have hlarger := h.length_le (by simp : done ++ [item] ≠ []) (rest.take k)
        exact iff_of_false (by omega) (by rw [hlonger]; omega)

theorem Grows.greatest (items : List α) : Greatest page items (canonicalDomainPagePrefix member page items) := by
  have hsome : ∀ xs, (canonical (page xs)).isSome ↔ (page xs).length ≤ maxCanonicalBytes := fun xs => by
    simp [canonical_eq (h.page_ne xs)]
  cases items with
  | nil => exact ⟨le_rfl, fun k hk hk' => absurd (hk.trans hk') (by simp)⟩
  | cons first rest =>
    rw [Greatest, canonicalDomainPagePrefix, length_cons, canonical_eq (h.page_ne _)]
    by_cases hfits : (page [first]).length ≤ maxCanonicalBytes
    · rw [if_pos hfits]
      obtain ⟨hupper, hiff⟩ := h.countFrom_iff (cons_ne_nil first []) hfits
      refine ⟨hupper.trans_eq (Nat.add_comm _ _), fun k hk hk' => ?_⟩
      obtain ⟨k, rfl⟩ := Nat.exists_eq_add_of_le hk
      rw [hsome, Nat.add_comm, take_succ_cons, Nat.add_comm]
      exact hiff k (by omega)
    · rw [if_neg hfits]
      refine ⟨Nat.zero_le _, fun k hk _ => iff_of_false (by simp only; omega) ?_⟩
      obtain ⟨k, rfl⟩ := Nat.exists_eq_add_of_le' hk
      have hlarger := h.length_le (cons_ne_nil first []) (rest.take k)
      rw [hsome]
      exact fun hle => hfits (hlarger.trans hle)

end

/-! ## The builder -/

namespace Builder

variable {enc : Encoder} {p : DomainPage} {b b' : Builder} {entry : DomainEntry}

theorem grows (enc : Encoder) (p : DomainPage) : Grows enc.entry (leafPage enc p) :=
  grows_object (enc.header p) [("children", arrayOrNone (p.children.map enc.child))] "entries" fun _ => object_ne _

theorem Sized.start (h : b.start enc p entry = .ok b') : b'.Sized enc p := by
  unfold Builder.start at h
  split at h
  · cases h
  next hbody =>
    cases h
    obtain ⟨hfits, rfl⟩ := canonical_some hbody
    exact fun _ => ⟨hfits, rfl⟩

theorem add_eq (h : b.Sized enc p) (entry : DomainEntry) : b.add enc p entry = b.addEncoding enc p entry := by
  unfold add addEncoding
  by_cases hleaf : b.leaf = []
  · simp [hleaf, flushLeaf]
  by_cases hfull : b.leaf.length < domainPageMaximumItems
  · have hlength := (grows enc p).length b.leaf entry hleaf
    simp only [if_neg hleaf, if_pos hfull, if_pos (And.intro hleaf hfull), (h hleaf).2,
      canonical_eq ((grows enc p).page_ne _), canonical_eq ((grows enc p).member_ne _)]
    by_cases hpage : (leafPage enc p (b.leaf ++ [entry])).length ≤ maxCanonicalBytes
    · rw [if_pos hpage, if_pos (by omega)]
      simp only [hlength, Nat.add_assoc]
      exact if_pos (by omega)
    · rw [if_neg hpage]
      by_cases hmember : (enc.entry entry).length ≤ maxCanonicalBytes
      · rw [if_pos hmember]
        exact if_neg (by omega)
      · rw [if_neg hmember]
  · simp [hleaf, hfull]

/-- The next leaf begins with an entry that there was no room for. -/
def Closed (enc : Encoder) (p : DomainPage) (leaf next : List DomainEntry) : Prop :=
  ∃ entry rest, next = entry :: rest ∧
    (leaf.length = domainPageMaximumItems ∨ canonical (leafPage enc p (leaf ++ [entry])) = none)

/-- The leaves hold the entries in order, and each was closed because it was full. -/
structure Split (enc : Encoder) (p : DomainPage) (entries : List DomainEntry) (b : Builder) : Prop where
  entries : b.flushed.flatten ++ b.leaf = entries
  sized : b.Sized enc p
  started : b.leaf = [] → b.flushed = []
  short : ∀ leaf ∈ b.flushed ++ [b.leaf], leaf.length ≤ domainPageMaximumItems
  fits : ∀ leaf ∈ b.flushed ++ [b.leaf], leaf ≠ [] → (leafPage enc p leaf).length ≤ maxCanonicalBytes
  closed : (b.flushed ++ [b.leaf]).IsChain (Closed enc p)

variable {entries : List DomainEntry}

theorem Split.empty : Split enc p [] .empty :=
  ⟨rfl, fun h => absurd rfl h, fun _ => rfl, by simp [Builder.empty], by simp [Builder.empty], .singleton _⟩

theorem Split.extend (h : Split enc p entries b) (hshort : b.leaf.length < domainPageMaximumItems)
    (hfits : (leafPage enc p (b.leaf ++ [entry])).length ≤ maxCanonicalBytes) :
    Split enc p (entries ++ [entry])
      { b with leaf := b.leaf ++ [entry], leafCanonicalBytes := (leafPage enc p (b.leaf ++ [entry])).length } := by
  have hmem : ∀ {leaf}, leaf ∈ b.flushed ++ [b.leaf ++ [entry]] → leaf ∈ b.flushed ++ [b.leaf] ∨
      leaf = b.leaf ++ [entry] := by
    intro leaf hmem
    rcases mem_append.mp hmem with hold | hnew
    · exact .inl (mem_append_left _ hold)
    · exact .inr (mem_singleton.mp hnew)
  refine ⟨by rw [← append_assoc, h.entries], fun _ => ⟨hfits, rfl⟩, fun hnil =>
    absurd hnil (by simp), fun leaf hl => ?_, fun leaf hl hne => ?_, ?_⟩
  · rcases hmem hl with hold | rfl
    · exact h.short leaf hold
    · rw [length_append, length_singleton]
      omega
  · rcases hmem hl with hold | rfl
    · exact h.fits leaf hold hne
    · exact hfits
  · obtain ⟨hflushed, -, hlast⟩ := isChain_append.mp h.closed
    refine isChain_append.mpr ⟨hflushed, .singleton _, fun leaf hl next hnext => ?_⟩
    cases hnext
    obtain ⟨first, rest, hfirst, hfull⟩ := hlast leaf hl b.leaf rfl
    exact ⟨first, rest ++ [entry], by rw [hfirst]; rfl, hfull⟩

theorem Split.start (h : Split enc p entries b) (hfull : b.leaf ≠ [] → Closed enc p b.leaf [entry])
    (hstart : b.flushLeaf.start enc p entry = .ok b') : Split enc p (entries ++ [entry]) b' := by
  have hsized := Sized.start hstart
  unfold Builder.start at hstart
  split at hstart
  · cases hstart
  next hbody =>
    cases hstart
    obtain ⟨hfits, -⟩ := canonical_some hbody
    by_cases hleaf : b.leaf = []
    · have hflush : b.flushLeaf = b := if_pos hleaf
      have hentries : entries = [] := by rw [← h.entries, hleaf, h.started hleaf]; rfl
      simp only [hflush, h.started hleaf, hentries, nil_append] at hsized ⊢
      exact ⟨rfl, hsized, by simp, by simp [domainPageMaximumItems], by simpa using hfits, .singleton _⟩
    · have hflush : b.flushLeaf = ⟨[], 0, b.flushed ++ [b.leaf]⟩ := if_neg hleaf
      rw [hflush] at hsized ⊢
      refine ⟨by simp [← h.entries], hsized, by simp, fun leaf hl => ?_, fun leaf hl hne => ?_, ?_⟩
      · rcases mem_append.mp hl with hold | hnew
        · exact h.short leaf hold
        · rw [mem_singleton.mp hnew]
          simp [domainPageMaximumItems]
      · rcases mem_append.mp hl with hold | hnew
        · exact h.fits leaf hold hne
        · rw [mem_singleton.mp hnew]
          exact hfits
      · refine isChain_append.mpr ⟨h.closed, .singleton _, fun leaf hl next hnext => ?_⟩
        cases hnext
        rw [getLast?_concat] at hl
        cases hl
        exact hfull hleaf

theorem Split.add (h : Split enc p entries b) (hadd : b.add enc p entry = .ok b') :
    Split enc p (entries ++ [entry]) b' := by
  rw [add_eq h.sized] at hadd
  unfold Builder.addEncoding at hadd
  split at hadd
  next hnone =>
    refine h.start (fun hleaf => ⟨entry, [], rfl, ?_⟩) hadd
    rcases Nat.lt_or_ge b.leaf.length domainPageMaximumItems with hlt | hge
    · exact .inr (by simpa [hleaf, hlt] using hnone)
    · exact .inl (le_antisymm (h.short _ (by simp)) hge)
  next hbody =>
    cases hadd
    obtain ⟨⟨-, hshort⟩, hbody⟩ := Option.ite_none_right_eq_some.mp hbody
    obtain ⟨hfits, rfl⟩ := canonical_some hbody
    exact h.extend hshort hfits

theorem Split.foldlM (h : Split enc p entries b) {more : List DomainEntry}
    (hadd : more.foldlM (Builder.add enc p) b = .ok b') :
    Split enc p (entries ++ more) b' := by
  induction more generalizing entries b with
  | nil =>
    cases hadd
    rwa [append_nil]
  | cons entry more ih =>
    rw [foldlM_cons] at hadd
    obtain ⟨b₁, hfirst, hrest⟩ := Except.bind_ok hadd
    rw [← singleton_append, ← append_assoc]
    exact ih (h.add hfirst) hrest

/-- Every leaf holds as many of the entries that are left as a page can hold. -/
theorem Split.greatest (h : Split enc p entries b) {done later : List (List DomainEntry)} {leaf : List DomainEntry}
    (hleaves : b.flushed ++ [b.leaf] = done ++ leaf :: later) : leaf = ((leaf :: later).flatten).take
      (min domainPageMaximumItems (canonicalDomainPagePrefix enc.entry (leafPage enc p) (leaf :: later).flatten)) := by
  have hmem : leaf ∈ b.flushed ++ [b.leaf] := hleaves ▸ mem_append_right _ (.head _)
  have hshort := h.short leaf hmem
  obtain ⟨hupper, hiff⟩ := (grows enc p).greatest (leaf :: later).flatten
  rw [flatten_cons] at hupper hiff ⊢
  generalize canonicalDomainPagePrefix enc.entry (leafPage enc p) (leaf ++ later.flatten) = n at hupper hiff
  have hsome : ∀ xs, (canonical (leafPage enc p xs)).isSome ↔ (leafPage enc p xs).length ≤ maxCanonicalBytes :=
    fun xs => by
    simp [canonical_eq ((grows enc p).page_ne xs)]
  have hlength : leaf.length ≤ n := by
    by_cases hleaf : leaf = []
    · simp [hleaf]
    · refine (hiff leaf.length (length_pos_iff.mpr hleaf) (by simp)).mpr ?_
      rw [take_left, hsome]
      exact h.fits leaf hmem hleaf
  have hmin : later = [] ∨ min domainPageMaximumItems n = leaf.length := by
    cases later with
    | nil => exact .inl rfl
    | cons next later =>
      have hclosed := h.closed
      rw [hleaves, isChain_append, isChain_cons_cons] at hclosed
      obtain ⟨entry, rest, rfl, hfull⟩ := hclosed.2.1.1
      rcases hfull with hfull | hnone
      · exact .inr (by omega)
      · have hstop := hiff (leaf.length + 1) (by omega) (by simp)
        rw [show leaf ++ ((entry :: rest) :: later).flatten = (leaf ++ [entry]) ++ (rest ++ later.flatten) by simp,
          take_left' (by simp), hnone] at hstop
        exact .inr (by simp at hstop; omega)
  rcases hmin with rfl | hmin
  · rw [flatten_nil, append_nil, take_of_length_le (by omega)]
  · rw [hmin, take_left]

/-- Only an entry that does not fit in a page of its own is refused. -/
theorem exists_add (h : b.Sized enc p) (hentry : (canonical (leafPage enc p [entry])).isSome) :
    ∃ b', b.add enc p entry = .ok b' := by
  have hstart : ∀ b : Builder, ∃ b', b.start enc p entry = .ok b' := fun b => by
    obtain ⟨body, hbody⟩ := Option.isSome_iff_exists.mp hentry
    exact ⟨_, by rw [Builder.start, hbody]⟩
  rw [add_eq h]
  unfold addEncoding
  split
  · exact hstart _
  · exact ⟨_, rfl⟩

theorem exists_foldlM (h : Split enc p entries b) {more : List DomainEntry}
    (hmore : ∀ entry ∈ more, (canonical (leafPage enc p [entry])).isSome) : ∃ b', more.foldlM (add enc p) b =
      .ok b' := by
  induction more generalizing entries b with
  | nil => exact ⟨b, rfl⟩
  | cons entry more ih =>
    obtain ⟨b₁, hfirst⟩ := exists_add h.sized (hmore entry (.head _))
    rw [foldlM_cons, hfirst]
    exact ih (h.add hfirst) fun e he => hmore e (.tail _ he)

end Builder

/-- For every page header: the count is the greatest number of members, entries or children, with which the page can be
encoded. The builder accepts every list whose entries each fit in a page; its leaves hold them in order, its count is
the size of the open leaf, and every leaf takes as many of the entries that are left as the count says. -/
theorem page_sizing_exact (enc : Encoder) (p : DomainPage) : (∀ entries, Greatest (Builder.leafPage enc p) entries
      (canonicalDomainPagePrefix enc.entry (Builder.leafPage enc p) entries)) ∧
    (∀ children, Greatest (fun l => enc.page { p with children := l }) children
      (canonicalDomainPagePrefix enc.child (fun l => enc.page { p with children := l }) children)) ∧
    ∀ entries : List DomainEntry,
      ((∀ entry ∈ entries, (canonical (Builder.leafPage enc p [entry])).isSome) →
        ∃ b, entries.foldlM (Builder.add enc p) .empty = .ok b) ∧
      ∀ b, entries.foldlM (Builder.add enc p) .empty = .ok b → b.flushed.flatten ++ b.leaf = entries ∧
        (b.leaf ≠ [] → b.leafCanonicalBytes = (Builder.leafPage enc p b.leaf).length) ∧
        ∀ done leaf later, b.flushed ++ [b.leaf] = done ++ leaf :: later → leaf = ((leaf :: later).flatten).take
          (min domainPageMaximumItems (canonicalDomainPagePrefix enc.entry (Builder.leafPage enc p)
            (leaf :: later).flatten)) := by
  have hchildren : Grows enc.child fun l => enc.page { p with children := l } :=
    grows_object (enc.header p ++ [("entries", arrayOrNone (p.entries.map enc.entry))]) [] "children" fun _ =>
      object_ne _
  refine ⟨(Builder.grows enc p).greatest, hchildren.greatest, fun entries =>
    ⟨Builder.exists_foldlM .empty, fun b hb => ?_⟩⟩
  have hsplit := Builder.Split.empty.foldlM hb
  exact ⟨hsplit.entries, fun hleaf => (hsplit.sized hleaf).2, fun _ _ _ => hsplit.greatest⟩

end EndlessFS.Format.Pages
