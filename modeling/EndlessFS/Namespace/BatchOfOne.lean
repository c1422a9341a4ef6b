import EndlessFS.Namespace.Move
import EndlessFS.Namespace.Overlaps

/-!
# EndlessFS.Namespace.BatchOfOne

A batch of one item beside the single operation. `batchCopyOrMove` and `copyOrMoveResolved` resolve a request alike, but
they do not place the same directory: the single operation gives a copied directory an occurrence context and keeps the
context that a moved one inherits, the batch does neither. The batch also checks for overlaps.

* `TransferKind`: the requests that both offer.
* `copyOrMoveAs`, `batchOfOneAs`: the two operations, with the identifier of a copied node as an argument.
* `Alike`: the same result, or errors of one kind.
* `batch_of_one_iff`: the operations are alike where the context is kept and the batch finds no overlap; and for
  requests that the single operation carries out, only there.
-/

namespace EndlessFS

open Edit Except List
open NamespaceEntry (name)

/-! ## Results -/

/-- The same result up to `R`, or errors of one kind. -/
def Alike {α β : Type} (R : α → β → Prop) : Except Error α → Except Error β → Prop
  | .ok x, .ok y => R x y
  | .error e, .error e' => e.kind = e'.kind
  | _, _ => False

variable {α β γ δ : Type} {R : α → β → Prop} {S : γ → δ → Prop}

theorem Alike.refl (a : Except Error α) : Alike Eq a a := by
  cases a <;> rfl

variable {a : Except Error α}

theorem Alike.of_eq {b : Except Error α} (h : a = b) : Alike Eq a b := h ▸ Alike.refl a

variable {f : α → Except Error γ}

theorem Alike.bind {b : Except Error β} {g : β → Except Error δ}
    (h : Alike R a b) (hf : ∀ x y, a = .ok x → R x y → Alike S (f x) (g y)) : Alike S (a >>= f) (b >>= g) := by
  cases a with
  | ok x => cases b with
    | ok y => exact hf x y rfl h
    | error e => exact h.elim
  | error e => cases b with
    | ok y => exact h.elim
    | error e' => exact h

theorem Alike.same_bind (a : Except Error α) {g : α → Except Error δ}
    (hf : ∀ x, a = .ok x → Alike S (f x) (g x)) : Alike S (a >>= f) (a >>= g) :=
  (Alike.refl a).bind fun x _ hx heq => heq ▸ hf x hx

theorem Alike.trans_eq {b c : Except Error α} (h : Alike Eq a b) (hbc : Alike Eq b c) : Alike Eq a c := by
  cases a <;> cases b <;> cases c <;> simp_all [Alike]

theorem alike_rejectIf {condition condition' : Bool} {e e' : Error} (hcondition : condition = condition')
    (h : e.kind = e'.kind) : Alike Eq (rejectIf condition e) (rejectIf condition' e') := by
  subst hcondition
  cases condition with
  | true => exact h
  | false => rfl

theorem alike_requireFound (message message' : String) (found : Option NamespaceEntry) :
    Alike Eq (requireFound message found) (requireFound message' found) := by
  cases found <;> rfl

/-! ## Requests -/

variable (codec : NamespaceCodec)

/-- The requests that the single operations and the batches offer. -/
inductive TransferKind where
  | copy
  | move
  | moveToTrash
  | restore
  deriving DecidableEq, Repr

namespace TransferKind

def moves : TransferKind → Bool
  | .copy => false
  | _ => true

def restores (kind : TransferKind) : Bool := kind = .restore

def Fits (request : CopyRequest codec) : TransferKind → Prop
  | .copy => True
  | .move => request.fromArea = request.toArea
  | .moveToTrash => request.fromArea = .areaLive ∧ request.toArea = .areaTrash
  | .restore => request.fromArea = .areaTrash ∧ request.toArea = .areaLive

def spec (kind : TransferKind) (request : CopyRequest codec) : BatchMoveSpec codec :=
  { request with attachTrash := kind = .moveToTrash, restoreTrash := kind.restores }

end TransferKind

/-! ## The operations -/

/-- `copyOrMoveResolved` with the identifier of a copied node. -/
def copyOrMoveAs (nodeID : String) (at_ : Attempt) (move restoreOriginal : Bool) (request : CopyRequest codec) :
    Except Error Changes := do
  checkCopyRequest codec restoreOriginal request
  let sourceTrail ← at_.trail codec request.fromArea request.source.parent
  let sourceParent ← lastFrame sourceTrail
  let found ← child codec sourceParent.entry request.source.name
  let source ← requireFound "source does not exist" found
  rejectIf (request.expectedSource ≠ "" && request.expectedSource ≠ source.entry.logicalVersion)
    (newError .preconditionFailed "source version does not match")
  let destination ← copyDestination codec restoreOriginal request source sourceTrail
  let destinationTrail ← at_.trail codec request.toArea destination.parent
  let destinationParent ← lastFrame destinationTrail
  let target ← resolveDestination codec destinationParent.entry destination (normalizeConflictMode request.conflict)
    request.expectedTarget
  let trash ← placedTrash codec move request source sourceTrail destinationTrail at_.now
  let placed := placedEntry codec move source sourceTrail target.1.name nodeID trash at_.now
  at_.publish codec [sourceTrail, destinationTrail]
    (copyEdits move sourceParent.key destinationParent.key source placed target.2)

def BatchMovePlan.named (nodeID : String) (at_ : Attempt) (move : Bool) (plan : BatchMovePlan codec) :
    BatchMovePlan codec :=
  { plan with placed := batchPlaced codec move plan.source plan.resolved.name nodeID plan.placed.node.trash at_.now }

/-- `batchCopyOrMove` of one item with the identifier of a copied node. -/
def batchOfOneAs (nodeID : String) (at_ : Attempt) (move : Bool) (spec : BatchMoveSpec codec) :
    Except Error Changes := do
  let found ← planBatchItem codec at_ move 0 spec
  let plan := found.named codec nodeID at_ move
  rejectOverlapping codec move [plan]
  at_.publish codec [plan.sourceTrail, plan.destinationTrail] (plan.edits codec move)

variable {codec} {at_ : Attempt} {move : Bool} {nodeID : String}

theorem copyOrMoveResolved_as (restoreOriginal : Bool) (request : CopyRequest codec) :
    CopyOutcome.changes <$> copyOrMoveResolved codec at_ move restoreOriginal request =
      copyOrMoveAs codec (codec.digest ["endlessfs-namespace-node-v1", request.operationID, "copy-root"]) at_ move
        restoreOriginal request := by
  simp only [copyOrMoveResolved, copyOrMoveAs, map_bind, map_pure, bind_pure]

theorem batchPlaced_trash (source : NamespaceEntry) (name : String) (trash : Option NamespaceTrashMetadata)
    (now : Time) :
    (batchPlaced codec move source name nodeID trash now).node.trash = trash := by
  cases move <;> rfl

variable {plan : BatchMovePlan codec}

theorem planBatchItem_placed {index : Nat} {spec : BatchMoveSpec codec}
    (h : planBatchItem codec at_ move index spec = .ok plan) :
    plan.named codec (codec.digest ["endlessfs-namespace-node-v1", spec.operationID, "copy-" ++ toString index])
    at_ move =
      plan := by
  obtain ⟨_, _, h⟩ := bind_ok h
  obtain ⟨_, _, h⟩ := bind_ok h
  obtain ⟨_, _, h⟩ := bind_ok h
  obtain ⟨_, _, h⟩ := bind_ok h
  obtain ⟨_, _, h⟩ := bind_ok h
  obtain ⟨_, _, h⟩ := bind_ok h
  obtain ⟨_, _, h⟩ := bind_ok h
  obtain ⟨_, _, h⟩ := bind_ok h
  obtain ⟨_, _, h⟩ := bind_ok h
  obtain ⟨_, _, h⟩ := bind_ok h
  obtain ⟨_, _, h⟩ := bind_ok h
  cases h
  unfold BatchMovePlan.named
  rw [batchPlaced_trash]

theorem batchCopyOrMove_as (spec : BatchMoveSpec codec) : Prod.fst <$> batchCopyOrMove codec at_ move [spec] =
      batchOfOneAs codec (codec.digest ["endlessfs-namespace-node-v1", spec.operationID, "copy-0"]) at_ move spec := by
  unfold batchCopyOrMove batchOfOneAs
  rw [show rejectIf (decide ([spec].length < 1) || decide (10000 < [spec].length)) _ = .ok () from rfl]
  simp only [planBatch, ok_bind, bind_assoc, pure_bind, map_bind, map_pure, bind_pure, flatMap_cons, flatMap_nil,
    append_nil]
  cases hplan : planBatchItem codec at_ move 0 spec with
  | error e => rfl
  | ok plan =>
    have hnamed := planBatchItem_placed hplan
    simp only [ok_bind]
    rw [show "copy-0" = "copy-" ++ toString 0 from rfl, hnamed]

/-! ## Resolution -/

variable {kind : TransferKind} {request : CopyRequest codec} {source : NamespaceEntry}
  {sourceTrail destinationTrail : List NamespaceFrame}

theorem alike_check (hfits : kind.Fits codec request) :
    Alike Eq (checkCopyRequest codec kind.restores request) (checkBatchSpec codec (kind.spec codec request)) := by
  refine Alike.bind (R := Eq) (by exact alike_rejectIf rfl rfl) fun _ _ _ _ => ?_
  cases kind with
  | copy => exact alike_rejectIf rfl rfl
  | move => exact alike_rejectIf rfl rfl
  | moveToTrash => exact alike_rejectIf rfl rfl
  | restore =>
    -- a restore is between two areas
    obtain ⟨hfrom, hto⟩ := hfits
    refine Alike.of_eq ?_
    simp [rejectIf, TransferKind.restores, TransferKind.spec, hfrom, hto]

theorem batchDestination_eq (hfits : kind.Fits codec request) :
    batchDestination codec (kind.spec codec request) source sourceTrail =
      copyDestination codec kind.restores request source sourceTrail := by
  unfold batchDestination
  rw [if_neg]
  · rfl
  · rintro ⟨hrestore, harea⟩
    obtain rfl : kind = .restore := of_decide_eq_true hrestore
    exact harea.elim (fun h => h hfits.1) fun h => h hfits.2

variable {destination : UserPath codec.toNormalization}

theorem restorable (h : copyDestination codec true request source sourceTrail = .ok destination) :
    sourceTrail.length = 1 ∧ source.node.trash.isSome := by
  unfold copyDestination at h
  cases htrash : source.node.trash with
  | none => simp [htrash] at h
  | some trash =>
    by_cases hlength : sourceTrail.length = 1
    · exact ⟨hlength, rfl⟩
    · simp [htrash, hlength] at h

theorem alike_trash (hfits : kind.Fits codec request) {now : Time}
    (h : copyDestination codec kind.restores request source sourceTrail = .ok destination) :
    Alike Eq (placedTrash codec kind.moves request source sourceTrail destinationTrail now)
      (batchTrash codec (kind.spec codec request) source destinationTrail now) := by
  unfold placedTrash batchTrash
  cases kind with
  | copy => exact Alike.of_eq (by simp [TransferKind.moves, TransferKind.spec, TransferKind.restores])
  | move =>
    have hsame : request.fromArea = request.toArea := hfits
    refine Alike.of_eq ?_
    cases hto : request.toArea <;> simp [TransferKind.moves, TransferKind.spec, TransferKind.restores, hsame, hto]
  | moveToTrash =>
    have hattach : (TransferKind.moveToTrash.spec codec request).attachTrash = true := rfl
    rw [if_pos ⟨rfl, hfits⟩, if_pos hattach]
    split
    · rfl
    · rfl
  | restore =>
    obtain ⟨hlength, hsome⟩ := restorable h
    obtain ⟨hfrom, hto⟩ := hfits
    refine Alike.of_eq ?_
    simp [TransferKind.moves, TransferKind.spec, TransferKind.restores, hfrom, hto, hlength, ← Option.not_isSome, hsome]

variable (codec) in
def BatchMovePlan.single (nodeID : String) (at_ : Attempt) (move : Bool) (plan : BatchMovePlan codec) :
    Except Error Changes :=
  at_.publish codec [plan.sourceTrail, plan.destinationTrail]
    (copyEdits move plan.sourceParent.key plan.destinationParent.key plan.source
      (placedEntry codec move plan.source plan.sourceTrail plan.resolved.name nodeID plan.placed.node.trash at_.now)
      plan.existing)

theorem copyOrMoveAs_alike (hfits : kind.Fits codec request) :
    Alike Eq (copyOrMoveAs codec nodeID at_ kind.moves kind.restores request)
      (planBatchItem codec at_ kind.moves 0 (kind.spec codec request) >>=
        fun plan => plan.single codec nodeID at_ kind.moves) := by
  unfold copyOrMoveAs planBatchItem
  simp only [bind_assoc, pure_bind]
  refine (alike_check hfits).bind fun _ _ _ _ => ?_
  refine Alike.same_bind _ fun sourceTrail _ => ?_
  refine Alike.same_bind _ fun sourceParent _ => ?_
  refine Alike.same_bind _ fun found _ => ?_
  refine (alike_requireFound _ _ found).bind fun source _ _ heq => ?_
  subst heq
  refine Alike.bind (R := Eq) (by exact alike_rejectIf rfl rfl) fun _ _ _ _ => ?_
  rw [batchDestination_eq hfits]
  refine Alike.same_bind _ fun destination hdestination => ?_
  refine Alike.same_bind _ fun destinationTrail _ => ?_
  refine Alike.same_bind _ fun destinationParent _ => ?_
  refine Alike.same_bind _ fun target _ => ?_
  refine (alike_trash hfits hdestination).bind fun trash _ _ heq => ?_
  subst heq
  unfold BatchMovePlan.single
  rw [batchPlaced_trash]
  exact Alike.refl _

/-! ## Edits of one directory -/

abbrev apartEdits (front : List DirectoryEdit) (before after : Option NamespaceEntry) : List DirectoryEdit :=
  front ++ [{ before := before }, { after := after }]

abbrev joinedEdits (front : List DirectoryEdit) (before after : Option NamespaceEntry) : List DirectoryEdit :=
  front ++ [{ before := before, after := after }]

theorem editSums_apart (sums : EditSums) (front : List DirectoryEdit) (before after : Option NamespaceEntry) :
    editSums codec sums (apartEdits front before after) = editSums codec sums (joinedEdits front before after) := by
  induction front generalizing sums with
  | nil =>
    cases hbefore : sums.without before with
    | error e => simp [editSums, hbefore]
    | ok removed => simp [editSums, EditSums.without, EditSums.having]
  | cons edit front ih =>
    simp only [apartEdits, joinedEdits, cons_append, editSums] at ih ⊢
    simp only [ih]

theorem applyDirectoryEdits_apart (parent : NamespaceEntry) (front : List DirectoryEdit)
    (before after : Option NamespaceEntry)
    (modifiedAt : Time) : applyDirectoryEdits codec parent (apartEdits front before after) modifiedAt =
      applyDirectoryEdits codec parent (joinedEdits front before after) modifiedAt := by
  have hbefore : (apartEdits front before after).filterMap (·.before) = (joinedEdits front before after).filterMap
      (·.before) := by
    cases before <;> simp
  have hafter : (apartEdits front before after).filterMap (·.after) = (joinedEdits front before after).filterMap
      (·.after) := by
    cases after <;> simp
  have hchildren : applyAll name parent.children (apartEdits front before after) =
      applyAll name parent.children (joinedEdits front before after) := by
    simp [applyAll, apply, eraseOption, putOption]
  unfold applyDirectoryEdits
  simp only [editSums_apart, hbefore, hafter, hchildren]

theorem publish_edits (trails : List (List NamespaceFrame)) (plan : BatchMovePlan codec) :
    at_.publish codec trails (plan.edits codec move) =
      at_.publish codec trails (copyEdits move plan.sourceParent.key plan.destinationParent.key plan.source plan.placed
        plan.existing) := by
  unfold BatchMovePlan.edits copyEdits
  by_cases hsame : plan.sourceParent.key = plan.destinationParent.key
  · rw [if_pos hsame, hsame]
    cases hexisting : plan.existing with
    | none => cases move <;> rfl
    | some existing =>
      cases move with
      | false =>
        have hapart := fun d => @applyDirectoryEdits_apart codec d [] (some existing) (some plan.placed) at_.now
        simp only [apartEdits, joinedEdits, nil_append] at hapart
        simp [Attempt.publish, publishEdits, groupEdits, addEdit, applyGroups, hapart]
      | true =>
        have hapart := fun d => @applyDirectoryEdits_apart codec d [{ before := some plan.source }] (some existing)
          (some plan.placed) at_.now
        simp only [apartEdits, joinedEdits, singleton_append] at hapart
        simp [Attempt.publish, publishEdits, groupEdits, addEdit, applyGroups, hapart]
  · rw [if_neg hsame]

/-! ## Occurrence contexts -/

def inheritedContext (trail : List NamespaceFrame) : String :=
  ((trail.find? fun f => f.entry.node.occurrenceContextID ≠ "").map fun f => f.entry.node.occurrenceContextID).getD ""

/-- The placed directory has the context it would have without any handling of contexts: a copied one is named like the
node itself, and a moved one has its own or inherits none. -/
def ContextKept (nodeID : String) (move : Bool) (plan : BatchMovePlan codec) : Prop :=
  plan.source.isDirectory = true →
    if move then plan.source.node.occurrenceContextID = "" → inheritedContext plan.sourceTrail = ""
    else plan.source.node.occurrenceContextID = nodeID

theorem placed_eq_iff {trash : Option NamespaceTrashMetadata} {now : Time} :
    placedEntry codec move plan.source plan.sourceTrail plan.resolved.name nodeID trash now =
      batchPlaced codec move plan.source plan.resolved.name nodeID trash now ↔ ContextKept nodeID move plan := by
  unfold placedEntry batchPlaced ContextKept
  cases move with
  | false =>
    by_cases hdirectory : plan.source.isDirectory = true
    · simp [hdirectory, eq_comm]
    · simp [hdirectory]
  | true =>
    by_cases hdirectory : plan.source.isDirectory = true ∧ plan.source.node.occurrenceContextID = ""
    · simp [hdirectory.1, hdirectory.2, inheritedContext]
    · simp only [if_true, if_neg hdirectory, true_iff]
      exact fun h1 h2 => absurd ⟨h1, h2⟩ hdirectory

/-! ## What is placed -/

variable {placed : NamespaceEntry}

variable {changes : Changes}

/-- Where the source does not lie below what is replaced, the placed entry is found under its path. -/
theorem placed_of_publish (hfound : PlanFound codec at_ move plan) (hname : placed.name = plan.resolved.name)
    (hclear : ¬(move = true ∧ plan.spec.fromArea = plan.spec.toArea ∧
      plan.resolved.segments <+: plan.spec.source.parent.segments))
    (h : at_.publish codec [plan.sourceTrail, plan.destinationTrail] (copyEdits move plan.sourceParent.key
      plan.destinationParent.key plan.source placed plan.existing) = .ok changes) :
    (viewRoot codec at_.owner (at_.view.publish changes) plan.spec.toArea).lookup plan.resolved.segments =
      some placed := by
  obtain ⟨destination, hcopy⟩ := hfound.copied
  obtain ⟨start, hcommits⟩ := commits_of_publish hfound.trails h
  have hresolved := hcopy.target.path
  rw [hcopy.sourceKey, hcopy.destinationKey] at hcommits
  rw [hresolved, ← append_nil (_ ++ [_])]
  refine hcommits.lookup_at (some placed) destinationKey_mem (fun pair hpair harea hle => ?_) fun items => ?_
  · rcases mem_copyEdits hpair with hkey | ⟨hmove, hkey⟩ <;> rw [hkey] at harea hle
    · exact not_prefix_of_append hle
    · exact hclear ⟨hmove, harea, hresolved ▸ hle⟩
  · rw [find_copyEdits hcopy.target.found hname, if_pos ⟨rfl, rfl⟩]

/-! ## Overlaps -/

theorem join_toList (texts : List String) : (String.join texts).toList = texts.flatMap String.toList := by
  induction texts with
  | nil => rfl
  | cons text texts ih => rw [String.join_cons, String.toList_append, ih, flatMap_cons]

variable {path : List String}

theorem pathText_toList (h : path ≠ []) : (pathText path).toList = path.flatMap fun segment =>
    '/' :: segment.toList := by
  cases path with
  | nil => exact absurd rfl h
  | cons segment path =>
    change (String.join ((segment :: path).map ("/" ++ ·))).toList = _
    rw [join_toList, flatMap_map]
    simp [String.toList_append]

theorem pathText_below {rest : List String} (h : path ≠ []) (hrest : rest ≠ []) :
    ∃ tail, (pathText (path ++ rest)).toList = (pathText path).toList ++ '/' :: tail := by
  cases rest with
  | nil => exact absurd rfl hrest
  | cons segment rest =>
    rw [pathText_toList (by simp), pathText_toList h]
    simp

theorem clear_of_rejectOverlapping (hroot : plan.resolved.isRoot = false)
    (hsource : plan.spec.source.isRoot = false) (h : rejectOverlapping codec move [plan] = .ok ()) :
    ¬(move = true ∧ plan.spec.fromArea = plan.spec.toArea ∧
      plan.resolved.segments <+: plan.spec.source.parent.segments) := by
  rintro ⟨rfl, harea, rest, hrest⟩
  refine rejectOverlapping_ok_iff.mp h (.inr ?_)
  have hne : plan.resolved.segments ≠ [] := by simpa [UserPath.isRoot] using hroot
  have hmore : rest ++ [plan.spec.source.name] ≠ [] := by simp
  obtain ⟨tail, htail⟩ := pathText_below hne hmore
  rw [← append_assoc, hrest, UserPath.parent_append_name hsource] at htail
  refine ⟨{ area := plan.spec.toArea, path := plan.resolved.segments }, by simp [batchPaths, BatchMovePlan.paths],
    ⟨{ area := plan.spec.fromArea, path := plan.spec.source.segments }, by simp [batchPaths, BatchMovePlan.paths], ?_⟩,
      ?_⟩
  · refine FrameKey.separated_iff.mpr (FrameKey.text_begins.mpr ⟨harea, tail, ?_⟩)
    simpa using htail.symm
  · intro key hkey
    by_contra hcontinues
    obtain ⟨c, below, hc, htext⟩ := FrameKey.continues_iff.mp (Bool.eq_true_of_not_eq_false hcontinues)
    obtain ⟨-, htext⟩ := FrameKey.text_eq_append.mp htext
    have hpaths : key = { area := plan.spec.toArea, path := plan.resolved.segments } ∨
        key = { area := plan.spec.fromArea, path := plan.spec.source.segments } := by
      simpa [batchPaths, BatchMovePlan.paths] using hkey
    rcases hpaths with rfl | rfl
    · simp at htext
    · rw [htail, append_cancel_left_eq] at htext
      obtain rfl := (cons.inj htext).1
      exact absurd hc (lt_irrefl _)

/-! ## The operations compared -/

def Agreeing (codec : NamespaceCodec) (nodeID : String) (at_ : Attempt) (kind : TransferKind)
    (request : CopyRequest codec) : Prop :=
  ∀ plan, planBatchItem codec at_ kind.moves 0 (kind.spec codec request) = .ok plan →
    ContextKept nodeID kind.moves plan ∧ rejectOverlapping codec kind.moves [plan] = .ok ()

theorem batchOfOneAs_eq (spec : BatchMoveSpec codec) :
    batchOfOneAs codec nodeID at_ move spec = (planBatchItem codec at_ move 0 spec >>= fun plan =>
      rejectOverlapping codec move [plan] >>= fun _ =>
        at_.publish codec [plan.sourceTrail, plan.destinationTrail] (copyEdits move plan.sourceParent.key
          plan.destinationParent.key plan.source (batchPlaced codec move plan.source plan.resolved.name nodeID
            plan.placed.node.trash at_.now) plan.existing)) := by
  unfold batchOfOneAs
  simp only [publish_edits]
  rfl

theorem alike_of_agreeing (hfits : kind.Fits codec request) (h : Agreeing codec nodeID at_ kind request) :
    Alike Eq (copyOrMoveAs codec nodeID at_ kind.moves kind.restores request)
      (batchOfOneAs codec nodeID at_ kind.moves (kind.spec codec request)) := by
  refine (copyOrMoveAs_alike hfits).trans_eq ?_
  rw [batchOfOneAs_eq]
  refine Alike.same_bind _ fun plan hplan => ?_
  obtain ⟨hcontext, hoverlap⟩ := h plan hplan
  unfold BatchMovePlan.single
  rw [hoverlap, placed_eq_iff.mpr hcontext]
  exact Alike.refl _

theorem agreeing_of_alike (hfits : kind.Fits codec request)
    (hrun : copyOrMoveAs codec nodeID at_ kind.moves kind.restores request = .ok changes)
    (h : Alike Eq (copyOrMoveAs codec nodeID at_ kind.moves kind.restores request)
      (batchOfOneAs codec nodeID at_ kind.moves (kind.spec codec request))) :
        Agreeing codec nodeID at_ kind request := by
  intro plan hplan
  have hsingle : Alike Eq (copyOrMoveAs codec nodeID at_ kind.moves kind.restores request) _ := copyOrMoveAs_alike hfits
  rw [batchOfOneAs_eq, hplan, ok_bind, hrun] at h
  rw [hplan, ok_bind, hrun] at hsingle
  cases hoverlap : rejectOverlapping codec kind.moves [plan] with
  | error e =>
    rw [hoverlap] at h
    exact h.elim
  | ok _ =>
    rw [hoverlap, ok_bind] at h
    refine ⟨?_, rfl⟩
    obtain ⟨hfound, hspec⟩ := planBatchItem_ok hplan
    obtain ⟨destination, hcopy⟩ := hfound.copied
    have hclear := clear_of_rejectOverlapping hcopy.target.notRoot hcopy.sourceNotRoot hoverlap
    have hbatch : at_.publish codec [plan.sourceTrail, plan.destinationTrail]
      (copyEdits kind.moves plan.sourceParent.key
        plan.destinationParent.key plan.source (batchPlaced codec kind.moves plan.source plan.resolved.name nodeID
          plan.placed.node.trash at_.now) plan.existing) = .ok changes := by
      revert h
      generalize at_.publish codec _ _ = result
      cases result with
      | error e => exact fun h => h.elim
      | ok x => exact fun h => congrArg _ (Eq.symm h)
    have hown : plan.single codec nodeID at_ kind.moves = .ok changes := by
      revert hsingle
      generalize plan.single codec nodeID at_ kind.moves = result
      cases result with
      | error e => exact fun h => h.elim
      | ok x => exact fun h => congrArg _ (Eq.symm h)
    have hsame := (placed_of_publish hfound (by cases kind.moves <;> rfl) hclear hown).symm.trans
      (placed_of_publish hfound (by cases kind.moves <;> rfl) hclear hbatch)
    exact placed_eq_iff.mp (Option.some.inj hsame)

/-- For every view and every request to copy, move, trash or restore: the single operation and the batch of one are the
same function of the identifier that they derive for a copied node where the context is kept and the batch sees no
overlap; and on requests that the single operation carries out, only there. -/
theorem batch_of_one_iff (codec : NamespaceCodec) (at_ : Attempt) (kind : TransferKind) (request : CopyRequest codec)
    (hfits : kind.Fits codec request) : CopyOutcome.changes <$> copyOrMoveResolved codec at_ kind.moves
    kind.restores request =
        copyOrMoveAs codec (codec.digest ["endlessfs-namespace-node-v1", request.operationID, "copy-root"]) at_
        kind.moves
          kind.restores request ∧ Prod.fst <$> batchCopyOrMove codec at_ kind.moves [kind.spec codec request] =
        batchOfOneAs codec (codec.digest ["endlessfs-namespace-node-v1", request.operationID, "copy-0"]) at_ kind.moves
          (kind.spec codec request) ∧ ∀ nodeID, (Agreeing codec nodeID at_ kind request →
          Alike Eq (copyOrMoveAs codec nodeID at_ kind.moves kind.restores request)
            (batchOfOneAs codec nodeID at_ kind.moves (kind.spec codec request))) ∧
        ∀ changes, copyOrMoveAs codec nodeID at_ kind.moves kind.restores request = .ok changes →
          (Alike Eq (copyOrMoveAs codec nodeID at_ kind.moves kind.restores request)
              (batchOfOneAs codec nodeID at_ kind.moves (kind.spec codec request)) ↔
            Agreeing codec nodeID at_ kind request) := by
  refine ⟨copyOrMoveResolved_as _ _, batchCopyOrMove_as _, fun nodeID =>
    ⟨alike_of_agreeing hfits, fun changes hrun => ?_⟩⟩
  exact ⟨agreeing_of_alike hfits hrun, alike_of_agreeing hfits⟩

/-! ## A copied directory -/

namespace Overlap

/-- Copy `/a` to `/c`. -/
def copyA : CopyRequest sizes := { asideRequest with source := pathA }

end Overlap

open Overlap in
/-- The file `/a/x` is copied to `/c` alike. -/
theorem Overlap.file_alike : (copyOrMoveAs sizes "id" before false false asideRequest).toOption.isSome = true ∧
    Alike Eq (copyOrMoveAs sizes "id" before false false asideRequest)
      (batchOfOneAs sizes "id" before false (TransferKind.copy.spec sizes asideRequest)) := by
  refine ⟨by decide +kernel, ((batch_of_one_iff sizes before .copy asideRequest trivial).2.2
    "id").1 fun plan hplan => ?_⟩
  obtain ⟨plan', hplan', hfacts⟩ : ∃ plan, planBatchItem sizes before false 0
    (TransferKind.copy.spec sizes asideRequest) = .ok plan ∧
      (plan.source.isDirectory, (rejectOverlapping sizes false [plan]).toOption) = (false, some ()) :=
    toOption_map (by decide +kernel)
  obtain rfl : plan = plan' := Except.ok.inj (hplan.symm.trans hplan')
  obtain ⟨hfile, hoverlap⟩ := Prod.mk.inj hfacts
  refine ⟨fun hdirectory => absurd hdirectory (by simp [hfile]), ?_⟩
  cases h : rejectOverlapping sizes false [plan] with
  | error e => simp [h, Except.toOption] at hoverlap
  | ok _ => rfl

open Overlap in
/-- The directory `/a` is copied to `/c`. The single operation gives the copy a context, the batch does not. -/
theorem Overlap.context_dropped : (copyOrMoveResolved sizes before false false copyA).toOption.map (fun outcome =>
        ((viewRoot sizes "owner" (tree.publish outcome.changes) .areaLive).lookup ["c"]).map
          fun e => e.node.occurrenceContextID) = some (some "node") ∧
      (batchCopyOrMove sizes before false [TransferKind.copy.spec sizes copyA]).toOption.map (fun outcome =>
        ((viewRoot sizes "owner" (tree.publish outcome.1) .areaLive).lookup ["c"]).map
          fun e => e.node.occurrenceContextID) = some (some "") := by
  decide +kernel

end EndlessFS
