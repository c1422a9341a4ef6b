import EndlessFS.Domain.Linear

/-!
# EndlessFS.Domain.Window

The bound of the delta window. A mutation folds a full window before it starts, but not when it loses the race for the
head and tries again on the head that won: then it may append to a window that is full by now.

* `window_bounded`: in the runs in which no publication starts again, no head has more than thirty-two deltas.
* `window_overrun`: two racing writers leave a head with thirty-three.
-/

namespace EndlessFS

open Conc (Store Fault StoreOp PutCondition Write Policy Reach)

variable {codec : Codec}

/-- No publication starts again. -/
def windowPolicy : Policy bucketMachine DomainCall where
  spawn _ _ := True
  step s _ o := restarts s o = false
  drift _ _ := True

def Windowed (s : Bucket) : Prop :=
  ∀ ref, ∀ w ∈ (s.cells (.head ref)).writes, w.value.deltas.length ≤ consistencyDomainDeltaWindow

variable {ref : DomainRef} {next : DomainHead}

theorem HeadAction.Step.window {action : HeadAction} {head : DomainHead}
    (h : action.Step codec ref head next) : next.deltas.length ≤ head.deltas.length ∨
      next.deltas ≠ [] ∧ next.deltas.length = head.deltas.length + 1 ∧ ∃ m, action.site = .publish m := by
  cases h with
  | register => exact .inl le_rfl
  | freeze => exact .inl le_rfl
  | unfreeze => exact .inl le_rfl
  | compact thawed folded =>
    obtain ⟨_, _, -, rfl⟩ := compactHead_ok folded
    exact .inl (Nat.zero_le _)
  | append => exact .inr ⟨by simp [appendDelta], by simp [appendDelta], _, rfl⟩
  | materialize normal retained intent registered unrecorded admitted folded =>
    obtain ⟨_, _, -, rfl⟩ := materializedHead_ok folded
    exact .inl (Nat.zero_le _)

variable {s : Bucket} {site : Site}

theorem Windowed.write_other (h : Windowed s) {k : ObjectKey} (value : Object k)
    (hk : ∀ ref, k ≠ .head ref) : Windowed (s.write site k value) := by
  intro ref w hw
  rw [Store.write_cells_of_ne _ _ (hk ref).symm] at hw
  exact h ref w hw

theorem Windowed.write_head (h : Windowed s) {Legit : Bucket → DomainRef → Mutation → Prop}
    (hw : HeadWrite codec Legit s site ref next) (hbase : ∀ m, site = .publish m → next.deltas ≠ [] →
      (currentSnapshot s ref).head.deltas.length < consistencyDomainDeltaWindow) :
    Windowed (s.write site (.head ref) next) := by
  have hnext : next.deltas.length ≤ consistencyDomainDeltaWindow := by
    cases hw with
    | create absent valid => exact Nat.zero_le _
    | @action _ w rest action _ writes current step within encodes legit =>
      have hold := h ref w (by simp [writes])
      rcases step.window with hle | ⟨hdeltas, hlength, m, hsite⟩
      · exact hle.trans hold
      · have hlt := hbase m hsite hdeltas
        rw [currentSnapshot, current] at hlt
        dsimp only at hlt
        omega
  intro ref' w hw'
  by_cases hr : ref' = ref
  · subst hr
    rw [Store.write_cells_self] at hw'
    rcases List.mem_cons.mp hw' with rfl | hw'
    · exact hnext
    · exact h ref' w hw'
  · rw [Store.write_cells_of_ne _ _ (by simpa using hr)] at hw'
    exact h ref' w hw'

def windowProtocol (codec : Codec) : Protocol codec where
  Inv s := Histories codec s ∧ Windowed s
  ok s _ o := restarts s o = false
  Base head := head.deltas.length < consistencyDomainDeltaWindow
  room := id
  restarted hok hrestarts := by cases hok.symm.trans hrestarts
  Legit := fun _ _ _ => True
  legit_mono := fun _ h => h
  wf := fun h => h.1.wf
  linear := fun h => h.1.linear
  undeleted := fun h => h.1.undeleted
  head := fun h _ hw hbase => ⟨h.1.write_head hw, h.2.write_head hw hbase⟩
  register := fun h _ _ _ _ => ⟨h.1.write_other _ (fun _ h => nomatch h), h.2.write_other _ fun _ h => nomatch h⟩
  note := fun _ _ h => ⟨⟨h.1.wf, h.1.linear, h.1.undeleted⟩, h.2⟩

/-- Any number of replicas, calling anything the domain store offers: while no publication starts again, every head
that is ever published has at most thirty-two deltas. -/
theorem window_bounded (codec : Codec) (fuel : Nat) {cfg : DomainConfig}
    (hr : Reach (fun call : DomainCall => (call.action codec fuel).run) windowPolicy emptyConfig cfg)
    (ref : DomainRef) :
    ∀ head ∈ headHistory cfg.state ref, head.deltas.length ≤ consistencyDomainDeltaWindow := by
  have hsound : cfg.Sound (windowProtocol codec).Inv windowPolicy
      (fun call => posts (fun _ => True) (call.Answers codec)) := by
    refine hr.sound ⟨⟨Histories.empty, fun _ _ h => nomatch h⟩, fun t ht => by cases ht⟩ ?_ ?_
    · exact fun s call _ _ => call.safe (windowProtocol codec) fuel fun _ _ _ _ _ => trivial
    · exact fun s d h _ => ⟨⟨h.1.wf.advance d, h.1.linear, h.1.undeleted⟩, h.2⟩
  intro head hhead
  obtain ⟨w, hw, rfl⟩ := List.mem_map.mp hhead
  exact hsound.state.2 ref w hw

/-! ## Racing writers -/

namespace Racing

def racingRef : DomainRef := { kind := .domainOwnerControl, id := "owner" }

def short : Codec where
  fingerprint _ _ := "f"
  materializedFingerprint _ _ := "m"
  version _ _ _ _ := "v"
  digest := id
  encodesMutation _ := true
  encodesHead _ := true

def numbered (n : Nat) : Mutation :=
  { id := String.ofList [Char.ofNat (n + 65)], retainUntil := 100,
    changes := [{ key := "k", require := .any, value := .raw "" }] }

def steps (task n : Nat) : List DomainEvent := List.replicate n (.step task .none)

def firstMutation : List DomainEvent := .drift 1 :: .spawn (.mutate racingRef (numbered 0)) :: steps 0 6

def sequential : List DomainEvent :=
  (List.range 30).flatMap fun i => .spawn (.mutate racingRef (numbered (i + 1))) :: steps (i + 1) 3

def race : List DomainEvent :=
  [.spawn (.mutate racingRef (numbered 31)), .spawn (.mutate racingRef (numbered 32))] ++ steps 31 2 ++ steps 32 2 ++
    steps 31 1 ++ steps 32 5

/-- The window is full, and the next mutation folds it. -/
def folding : List DomainEvent :=
  firstMutation ++ sequential ++ (.spawn (.mutate racingRef (numbered 31)) :: steps 31 3 ++
    .spawn (.mutate racingRef (numbered 32)) :: steps 32 9)

end Racing

theorem Racing.folding_bounded :
    ((headHistory (runDomain short 5 folding).state racingRef).take 3).map (fun head => head.deltas.length) =
    [1, 0, 32] ∧
    ∀ head ∈ headHistory (runDomain short 5 folding).state racingRef,
      head.deltas.length ≤ consistencyDomainDeltaWindow := by
  refine ⟨by decide +kernel, window_bounded short 5 (Reach.of_run ?_) racingRef⟩
  refine Policy.MeetsAll.of_stepsPass (fun s _ o => !restarts s o) (fun s f o ho => ?_) (fun e _ _ cfg => ?_)
    (by decide +kernel)
  · simpa [windowPolicy] using ho
  · cases e with
    | spawn c => trivial
    | step i c => rename_i hstep; exact absurd rfl (hstep i c)
    | drift d => trivial

/-- The second writer appends a thirty-third delta. -/
theorem Racing.window_overrun :
    (headHistory (runDomain short 5 (firstMutation ++ sequential ++ race)).state racingRef).head?.map
      (fun head => head.deltas.length) = some 33 := by
  decide +kernel

end EndlessFS
