import Mathlib.Data.List.Sort
import EndlessFS.Lib.Result
import EndlessFS.Format.Domain

/-!
# EndlessFS.Checkpoint.VisitSet

The set of identities that a checkpoint has visited (`portable/checkpoint_visit_set.go`): a buffer in
memory, and sorted runs on disk, at most one for each level. A file is the list of the digests in it.

* `checkpointVisitRunContains`: the binary search in a run.
* `mergeCheckpointVisitRuns`, `insertRun`: a run that finds its level taken is merged into the next one.
* `seen`: whether an identity was given before.
* `seen_exact`: every answer of a sequence of calls is right.
-/

namespace EndlessFS

open List

variable {D : Type} [LinearOrder D]

/-! ## Searching a run -/

/-- The loop of `checkpointVisitRunContains`; `fuel` bounds the length of the range. -/
def searchRun (run : List D) (value : D) : Nat → Nat → Nat → Nat
  | 0, left, _ => left
  | fuel + 1, left, right =>
    if left < right then
      let middle := left + (right - left) / 2
      if run[middle]?.any (· < value) then searchRun run value fuel (middle + 1) right
      else searchRun run value fuel left middle
    else left

/-- `checkpointVisitRunContains`; a search that ends behind the last digest finds nothing. -/
def checkpointVisitRunContains (run : List D) (value : D) : Bool :=
  run[searchRun run value run.length 0 run.length]? = some value

/-- What the search knows of the range that is left: smaller digests before it, no smaller ones behind it. -/
structure Bracket (run : List D) (value : D) (left right : Nat) : Prop where
  before : ∀ {i x}, i < left → run[i]? = some x → x < value
  behind : ∀ {i x}, right ≤ i → run[i]? = some x → value ≤ x

variable {run : List D} {value : D}

section

variable (hrun : run.Pairwise (· < ·))

include hrun

theorem Bracket.narrow {left right middle : Nat} (h : Bracket run value left right) (hmiddle : middle < run.length) :
    if run[middle]?.any (· < value) then Bracket run value (middle + 1) right else Bracket run value left middle := by
  have hget : ∀ {i j : Nat} {x y : D}, i < j → run[i]? = some x → run[j]? = some y → x < y := by
    intro i j x y hij hx hy
    obtain ⟨hi, rfl⟩ := List.getElem?_eq_some_iff.mp hx
    obtain ⟨hj, rfl⟩ := List.getElem?_eq_some_iff.mp hy
    exact pairwise_iff_getElem.mp hrun i j hi hj hij
  have hm : run[middle]? = some run[middle] := getElem?_eq_getElem hmiddle
  simp only [hm, Option.any_some, decide_eq_true_eq]
  split
  next hlt =>
    refine ⟨fun {i x} hi hx => ?_, h.behind⟩
    rcases Nat.lt_succ_iff_lt_or_eq.mp hi with hi | rfl
    · exact (hget hi hx hm).trans hlt
    · obtain rfl := Option.some.inj (hm.symm.trans hx)
      exact hlt
  next hle =>
    refine ⟨h.before, fun {i x} hi hx => ?_⟩
    rcases hi.lt_or_eq with hi | rfl
    · exact (not_lt.mp hle).trans (hget hi hm hx).le
    · obtain rfl := Option.some.inj (hm.symm.trans hx)
      exact not_lt.mp hle

theorem searchRun_bracket {fuel left right : Nat}
    (hfuel : right ≤ left + fuel) (hright : right ≤ run.length) (h : Bracket run value left right) :
    Bracket run value (searchRun run value fuel left right) (searchRun run value fuel left right) := by
  induction fuel generalizing left right with
  | zero => exact ⟨h.before, fun hi => h.behind (by simp only [searchRun] at hi; omega)⟩
  | succ fuel ih =>
    unfold searchRun
    split
    next hlt =>
      have hnarrow := h.narrow hrun (by omega : left + (right - left) / 2 < run.length)
      split at hnarrow
      next hsmaller =>
        rw [if_pos hsmaller]
        exact ih (by omega) hright hnarrow
      next hsmaller =>
        rw [if_neg hsmaller]
        exact ih (by omega) (by omega) hnarrow
    next hle => exact ⟨h.before, fun hi => h.behind (by omega)⟩

theorem checkpointVisitRunContains_iff : checkpointVisitRunContains run value = true ↔ value ∈ run := by
  simp only [checkpointVisitRunContains, decide_eq_true_eq]
  constructor
  · exact mem_of_getElem?
  · intro hmem
    obtain ⟨i, hi⟩ := mem_iff_getElem?.mp hmem
    have hwhole : Bracket run value 0 run.length :=
      ⟨fun h => absurd h (Nat.not_lt_zero _), fun {i x} h hx => absurd hx (by simp [h])⟩
    have hbracket := searchRun_bracket hrun (Nat.le_add_left run.length 0) le_rfl hwhole
    generalize searchRun run value run.length 0 run.length = found at hbracket
    -- The digest is not before the place found, and if it were behind it, the one there would be smaller.
    rcases lt_trichotomy i found with hlt | rfl | hlt
    · exact absurd (hbracket.before hlt hi) (lt_irrefl _)
    · exact hi
    · obtain ⟨hlength, rfl⟩ := List.getElem?_eq_some_iff.mp hi
      have hfound : run[found]? = some run[found] := List.getElem?_eq_getElem (by omega)
      exact absurd (pairwise_iff_getElem.mp hrun found i (by omega) hlength hlt)
        (not_lt.mpr (hbracket.behind le_rfl hfound))

/-! ## Merging runs -/

end

/-- The digest that `mergeCheckpointVisitRuns` takes next, and what is then left of the two inputs. -/
def nextDigest : List D → List D → Option (D × List D × List D)
  | [], [] => none
  | a :: left, [] => some (a, left, [])
  | [], b :: right => some (b, [], right)
  | a :: left, b :: right =>
    if a < b then some (a, left, b :: right) else if b < a then some (b, a :: left, right) else some (a, left, right)

/-- The loop of `mergeCheckpointVisitRuns`; a digest equal to the one written last is not written again. -/
def mergeRunsFrom : Nat → Option D → List D → List D → List D
  | 0, _, _, _ => []
  | fuel + 1, previous, left, right =>
    match nextDigest left right with
    | none => []
    | some (value, left, right) =>
      if previous = some value then mergeRunsFrom fuel previous left right
      else value :: mergeRunsFrom fuel (some value) left right

def mergeCheckpointVisitRuns (left right : List D) : List D :=
  mergeRunsFrom (left.length + right.length) none left right

variable {left right : List D}

theorem nextDigest_eq_none (h : nextDigest left right = none) : left = [] ∧ right = [] := by
  unfold nextDigest at h
  split at h
  · exact ⟨rfl, rfl⟩
  · cases h
  · cases h
  · split_ifs at h

section

variable (hleft : left.Pairwise (· < ·))

include hleft

theorem nextDigest_eq_some {rest rest' : List D}
    (hright : right.Pairwise (· < ·)) (h : nextDigest left right = some (value, rest, rest')) :
    (∀ x, x ∈ left ∨ x ∈ right ↔ x = value ∨ x ∈ rest ∨ x ∈ rest') ∧ (∀ x, x ∈ rest ∨ x ∈ rest' → value < x) ∧
      rest.Pairwise (· < ·) ∧ rest'.Pairwise (· < ·) ∧ rest.length + rest'.length < left.length + right.length := by
  unfold nextDigest at h
  split at h
  · cases h
  · cases h
    simp_all
  · cases h
    simp_all
  · simp only [pairwise_cons] at hleft hright
    split_ifs at h with hab hba <;> cases h
    · refine ⟨by simp [or_assoc], ?_, hleft.2, pairwise_cons.mpr hright, by simp⟩
      rintro x (hx | hx)
      · exact hleft.1 x hx
      · rcases mem_cons.mp hx with rfl | hx
        exacts [hab, hab.trans (hright.1 x hx)]
    · refine ⟨by simp [or_left_comm], ?_, pairwise_cons.mpr hleft, hright.2, by simp⟩
      rintro x (hx | hx)
      · rcases mem_cons.mp hx with rfl | hx
        exacts [hba, hba.trans (hleft.1 x hx)]
      · exact hright.1 x hx
    · obtain rfl := le_antisymm (not_lt.mp hba) (not_lt.mp hab)
      refine ⟨fun x => by simp only [mem_cons]; tauto, ?_, hleft.2, hright.2, by simp only [length_cons]; omega⟩
      rintro x (hx | hx)
      exacts [hleft.1 x hx, hright.1 x hx]

theorem mergeRunsFrom_spec {fuel : Nat} {previous : Option D} (hright : right.Pairwise (· < ·))
    (hfuel : left.length + right.length ≤ fuel) (hprevious : ∀ p ∈ previous, ∀ x, x ∈ left ∨ x ∈ right → p < x) :
    (mergeRunsFrom fuel previous left right).Pairwise (· < ·) ∧
      ∀ x, x ∈ mergeRunsFrom fuel previous left right ↔ x ∈ left ∨ x ∈ right := by
  induction fuel generalizing previous left right with
  | zero =>
    obtain ⟨rfl, rfl⟩ : left = [] ∧ right = [] := ⟨length_eq_zero_iff.mp (by omega), length_eq_zero_iff.mp (by omega)⟩
    simp [mergeRunsFrom]
  | succ fuel ih =>
    unfold mergeRunsFrom
    cases hnext : nextDigest left right with
    | none =>
      obtain ⟨rfl, rfl⟩ := nextDigest_eq_none hnext
      simp
    | some next =>
      obtain ⟨value, rest, rest'⟩ := next
      obtain ⟨hmem, hleast, hrest, hrest', hlength⟩ := nextDigest_eq_some hleft hright hnext
      have hnew : previous ≠ some value := fun heq =>
        absurd (hprevious value heq value ((hmem value).mpr (.inl rfl))) (lt_irrefl _)
      obtain ⟨hsorted, hall⟩ := ih hrest hrest' (by omega)
        fun p (hp : some value = some p) x hx => by obtain rfl := Option.some.inj hp; exact hleast x hx
      simp only [if_neg hnew, pairwise_cons, mem_cons, hall]
      exact ⟨⟨hleast, hsorted⟩, fun x => (hmem x).symm⟩

theorem mergeCheckpointVisitRuns_spec (hright : right.Pairwise (· < ·)) :
    (mergeCheckpointVisitRuns left right).Pairwise (· < ·) ∧
      ∀ x, x ∈ mergeCheckpointVisitRuns left right ↔ x ∈ left ∨ x ∈ right :=
  mergeRunsFrom_spec hleft hright le_rfl (fun _ h => nomatch h)

end

/-- `insertRun`, on the levels from the given one on. -/
def insertRun : List (Option (List D)) → List D → List (Option (List D))
  | [], run => [some run]
  | none :: levels, run => some run :: levels
  | some old :: levels, run => none :: insertRun levels (mergeCheckpointVisitRuns old run)

theorem insertRun_spec {levels : List (Option (List D))} (hlevels : ∀ old, some old ∈ levels → old.Pairwise (· < ·))
    (hrun : run.Pairwise (· < ·)) : (∀ stored, some stored ∈ insertRun levels run → stored.Pairwise (· < ·)) ∧
      ∀ x, (∃ stored, some stored ∈ insertRun levels run ∧ x ∈ stored) ↔ (∃ old, some old ∈ levels ∧ x ∈ old) ∨
        x ∈ run := by
  induction levels generalizing run with
  | nil => simpa [insertRun] using hrun
  | cons level levels ih =>
    have htail : ∀ old, some old ∈ levels → old.Pairwise (· < ·) := fun old h => hlevels old (.tail _ h)
    cases level with
    | none =>
      simp only [insertRun, mem_cons, Option.some.injEq, reduceCtorEq, false_or, or_and_right, exists_or,
        exists_eq_left]
      refine ⟨?_, fun x => or_comm⟩
      rintro stored (rfl | h)
      exacts [hrun, htail stored h]
    | some old =>
      obtain ⟨hsorted, hmem⟩ := mergeCheckpointVisitRuns_spec (hlevels old (.head _)) hrun
      obtain ⟨hstored, hall⟩ := ih htail hsorted
      simp only [insertRun, mem_cons, reduceCtorEq, false_or, Option.some.injEq, or_and_right, exists_or,
        exists_eq_left]
      refine ⟨hstored, fun x => ?_⟩
      rw [hall x, hmem x, or_left_comm, or_assoc]

/-! ## The set -/

/-- `checkpointVisitSet`: the buffer, and the run of each level. -/
structure CheckpointVisitSet (D : Type) where
  buffer : List D := []
  levels : List (Option (List D)) := []
  limit : Nat

namespace CheckpointVisitSet

def Holds (visited : CheckpointVisitSet D) (digest : D) : Prop :=
  digest ∈ visited.buffer ∨ ∃ run, some run ∈ visited.levels ∧ digest ∈ run

def flush (visited : CheckpointVisitSet D) : CheckpointVisitSet D :=
  if visited.buffer = [] then visited
  else { visited with buffer := [], levels := insertRun visited.levels (visited.buffer.mergeSort (· ≤ ·)) }

/-- `Seen`, for the digest `sum`. -/
def seen (sum : String → D) (visited : CheckpointVisitSet D) (value : String) :
    Except Error (Bool × CheckpointVisitSet D) := do
  rejectIf (value = "") (newError .invalid "invalid checkpoint visited identity")
  let digest := sum value
  if digest ∈ visited.buffer then pure (true, visited)
  else if visited.levels.any (·.any (checkpointVisitRunContains · digest)) then pure (true, visited)
  else
    let visited := { visited with buffer := digest :: visited.buffer }
    pure (false, if visited.limit ≤ visited.buffer.length then visited.flush else visited)

def seenAll (sum : String → D) (visited : CheckpointVisitSet D) :
    List String → Except Error (List Bool × CheckpointVisitSet D)
  | [] => pure ([], visited)
  | value :: rest => do
    let first ← visited.seen sum value
    let others ← first.2.seenAll sum rest
    pure (first.1 :: others.1, others.2)

structure WellFormed (visited : CheckpointVisitSet D) : Prop where
  sorted : ∀ run, some run ∈ visited.levels → run.Pairwise (· < ·)
  nodup : visited.buffer.Nodup

variable {visited : CheckpointVisitSet D} {sum : String → D}

theorem WellFormed.flush (h : visited.WellFormed) :
    visited.flush.WellFormed ∧ ∀ d, visited.flush.Holds d ↔ visited.Holds d := by
  unfold CheckpointVisitSet.flush
  split
  · exact ⟨h, fun _ => Iff.rfl⟩
  · have hsorted : (visited.buffer.mergeSort (· ≤ ·)).Pairwise (· < ·) := by
      have htrans (a b c : D) : decide (a ≤ b) = true → decide (b ≤ c) = true → decide (a ≤ c) = true := by
        simpa using le_trans
      have htotal (a b : D) : (decide (a ≤ b) || decide (b ≤ a)) = true := by simpa using le_total a b
      have hle : (visited.buffer.mergeSort (· ≤ ·)).Pairwise (· ≤ ·) := by
        simpa using pairwise_mergeSort htrans htotal visited.buffer
      have hnodup : (visited.buffer.mergeSort (· ≤ ·)).Nodup := (mergeSort_perm _ _).nodup_iff.mpr h.nodup
      exact (hle.and hnodup).imp fun h => lt_of_le_of_ne h.1 h.2
    obtain ⟨hruns, hmem⟩ := insertRun_spec h.sorted hsorted
    refine ⟨⟨hruns, nodup_nil⟩, fun d => ?_⟩
    simp only [Holds, not_mem_nil, false_or, hmem, mem_mergeSort]
    exact or_comm

theorem WellFormed.seen (h : visited.WellFormed) {value : String} (hvalue : value ≠ "") :
    ∃ answer next, visited.seen sum value = .ok (answer, next) ∧ (answer = true ↔ visited.Holds (sum value)) ∧
    next.WellFormed ∧
      ∀ d, next.Holds d ↔ d = sum value ∨ visited.Holds d := by
  have hruns : visited.levels.any (·.any (checkpointVisitRunContains · (sum value))) = true ↔
      ∃ run, some run ∈ visited.levels ∧ sum value ∈ run := by
    simp only [any_eq_true, Option.any_eq_true]
    constructor
    · rintro ⟨_, hlevel, run, rfl, hfound⟩
      exact ⟨run, hlevel, (checkpointVisitRunContains_iff (h.sorted run hlevel)).mp hfound⟩
    · rintro ⟨run, hlevel, hmem⟩
      exact ⟨_, hlevel, run, rfl, (checkpointVisitRunContains_iff (h.sorted run hlevel)).mpr hmem⟩
  have hkeep : visited.Holds (sum value) → ∀ d, visited.Holds d ↔ d = sum value ∨ visited.Holds d := by
    intro hheld d
    constructor
    · exact .inr
    · rintro (rfl | hd)
      exacts [hheld, hd]
  simp only [CheckpointVisitSet.seen, rejectIf, hvalue, decide_false, Bool.false_eq_true, if_false]
  by_cases hbuffer : sum value ∈ visited.buffer
  · rw [if_pos hbuffer]
    exact ⟨true, visited, rfl, by simp [Holds, hbuffer], h, hkeep (.inl hbuffer)⟩
  rw [if_neg hbuffer]
  by_cases hstored : ∃ run, some run ∈ visited.levels ∧ sum value ∈ run
  · rw [if_pos (hruns.mpr hstored)]
    exact ⟨true, visited, rfl, by simp [Holds, hstored], h, hkeep (.inr hstored)⟩
  rw [if_neg (mt hruns.mp hstored)]
  have hadded : ({ visited with buffer := sum value :: visited.buffer } : CheckpointVisitSet D).WellFormed :=
    ⟨h.sorted, nodup_cons.mpr ⟨hbuffer, h.nodup⟩⟩
  refine ⟨false, _, rfl, by simp [Holds, hbuffer, hstored], ?_⟩
  split
  · refine ⟨hadded.flush.1, fun d => ?_⟩
    rw [hadded.flush.2 d]
    simp [Holds, or_assoc]
  · exact ⟨hadded, fun d => by simp [Holds, or_assoc]⟩

theorem WellFormed.seenAll (hsum : Function.Injective sum) {history values : List String} (h : visited.WellFormed)
    (hheld : ∀ v, visited.Holds (sum v) ↔ v ∈ history) (hvalues : ∀ v ∈ values, v ≠ "") :
    ∃ answers final, visited.seenAll sum values = .ok (answers, final) ∧ answers.length = values.length ∧
      (∀ earlier v later, values = earlier ++ v :: later →
        answers[earlier.length]? = some (decide (v ∈ history ++ earlier))) ∧
      final.WellFormed ∧ ∀ v, final.Holds (sum v) ↔ v ∈ history ++ values := by
  induction values generalizing visited history with
  | nil => exact ⟨[], visited, rfl, rfl, fun _ _ _ hsplit => by simp at hsplit, h, by simpa using hheld⟩
  | cons value rest ih =>
    obtain ⟨answer, next, hseen, hanswer, hnext, hholds⟩ := h.seen (hvalues value (.head _))
    have hheld' : ∀ v, next.Holds (sum v) ↔ v ∈ history ++ [value] := fun v => by
      rw [hholds, hheld, hsum.eq_iff, mem_append, mem_singleton, or_comm]
    obtain ⟨answers, final, hrun, hlength, hright, hfinal, hall⟩ := ih hnext hheld' fun v hv => hvalues v (.tail _ hv)
    refine ⟨answer :: answers, final, ?_, by simp [hlength], ?_, hfinal, by simpa using hall⟩
    · simp [CheckpointVisitSet.seenAll, hseen, hrun, pure, Except.pure, bind, Except.bind]
    · rintro (_ | ⟨first, earlier⟩) v later hsplit
      · obtain ⟨rfl, rfl⟩ := cons.inj hsplit
        rw [hheld] at hanswer
        simp [← hanswer]
      · obtain ⟨rfl, hrest⟩ := cons.inj hsplit
        simpa using hright earlier v later hrest

/-- Each call answers whether its identity was given before, whatever was flushed and merged in between; and
after every sequence of calls the runs are strictly sorted and exactly the identities given are held. -/
theorem seen_exact (hsum : Function.Injective sum) (limit : Nat) {values : List String}
    (hvalues : ∀ v ∈ values, v ≠ "") :
    ∃ answers final, seenAll sum { limit } values = .ok (answers, final) ∧ answers.length = values.length ∧
      (∀ earlier v later, values = earlier ++ v :: later → answers[earlier.length]? = some (decide (v ∈ earlier))) ∧
      (∀ run, some run ∈ final.levels → run.Pairwise (· < ·)) ∧ ∀ v, final.Holds (sum v) ↔ v ∈ values := by
  have hempty : ({ limit } : CheckpointVisitSet D).WellFormed := ⟨(fun _ h => nomatch h), List.nodup_nil⟩
  have hnone : ∀ v, ({ limit } : CheckpointVisitSet D).Holds (sum v) ↔ v ∈ [] := by simp [Holds]
  obtain ⟨answers, final, hrun, hlength, hright, hfinal, hall⟩ := WellFormed.seenAll hsum hempty hnone hvalues
  exact ⟨answers, final, hrun, hlength, hright, hfinal.sorted, hall⟩

/-- With a buffer of two, each two new identities are flushed; the second run is merged with the first one, and an
identity of that one is found. -/
theorem seen_twice : (seenAll id { limit := 2 } ["c", "a"]).map (fun result =>
      (result.2.buffer.length, result.2.levels.map Option.isSome)) = .ok (0, [true]) ∧
    ∃ answers final, seenAll id { limit := 2 } ["c", "a", "d", "b", "c"] = .ok (answers, final) ∧
      answers[3]? = some false ∧ answers[4]? = some true ∧ ∀ run, some run ∈ final.levels → run.Pairwise (· < ·) := by
  obtain ⟨answers, final, hrun, _, hright, hsorted, _⟩ := seen_exact Function.injective_id 2
    (by decide : ∀ v ∈ ["c", "a", "d", "b", "c"], v ≠ "")
  exact ⟨by decide +kernel, answers, final, hrun, hright ["c", "a", "d"] "b" ["c"] rfl,
    hright ["c", "a", "d", "b"] "c" [] rfl, hsorted⟩

end CheckpointVisitSet

end EndlessFS
