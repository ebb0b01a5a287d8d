import QuorumStore.BatchCoordinator

set_option autoImplicit false

/-!
# Remote fragments, peer by peer

`handle_fragment` keeps one `BatchAggregator` per sender in `remote_batch_aggregators`, made on
the sender's first fragment by `entry(source).or_insert_with(..)`. What it does with a fragment
depends only on the sender's aggregator, the epoch and `max_batch_bytes`, and it touches no other
peer's aggregator; `AppendToBatch` and `EndBatch` touch only the local aggregator and the
fragment counter, and persist under our own id.

So for a peer `p` other than ourselves, the loop sends the `Persist` commands for `p`'s batches
that it would send if `p`'s fragments were its only commands, and `p`'s aggregator ends as it
would there: other peers' fragments and our own batches can neither delay, drop nor change them.

No command removes an aggregator, and one is made for every sender, also for a fragment then
dropped for its epoch: the map's keys are exactly the peers that ever sent a fragment.
-/

namespace QuorumStore

def BatchCoordinatorCommand.isFrom (p : PeerId) : BatchCoordinatorCommand → Bool
  | .remoteFragment fragment => fragment.source == p
  | _ => false

theorem BatchCoordinatorCommand.isFrom_of_isLocal {c : BatchCoordinatorCommand} (hc : c.isLocal)
    (p : PeerId) : c.isFrom p = false := by
  cases c <;> first | rfl | cases hc

def Effect.isPersistBy (p : PeerId) : Effect → Bool
  | .persist request => request.author == p
  | _ => false

namespace BatchCoordinator

variable {A E : Type} (agg : BatchAggregatorOps A E)

/-! ## `handle_fragment` on the sender's aggregator -/

/-- The sender's aggregator as `entry(source).or_insert_with(..)` returns it. -/
def remoteEntry (s : BatchCoordinator A) (source : PeerId) : A :=
  (s.remoteBatchAggregators source).getD (agg.new s.maxBatchBytes)

/-- The body of `handle_fragment` once the sender's aggregator `entry` is found: that aggregator
after the fragment, and the `Persist` sent for a completed batch. -/
def remoteStep (epoch : Nat) (entry : A) (fragment : Fragment) : A × List Effect :=
  match fragment.maybeExpiration with
  | some expiration =>
    if expiration.epoch = epoch then
      match agg.endBatch entry fragment.batchId fragment.fragmentId fragment.payload with
      | (a, .ok (numBytes, payload, digest)) =>
        (a, [.persist ⟨fragment.source, payload, digest, numBytes, expiration⟩])
      | (a, .error _) => (a, [])
    else (entry, [])
  | none =>
    ((agg.appendTransactions entry fragment.batchId fragment.fragmentId fragment.payload).1, [])

theorem handleFragment_eq (s : BatchCoordinator A) (fragment : Fragment) :
    handleFragment agg s fragment =
      (s.setRemote fragment.source
          (remoteStep agg s.epoch (remoteEntry agg s fragment.source) fragment).1,
        (remoteStep agg s.epoch (remoteEntry agg s fragment.source) fragment).2) := by
  obtain ⟨epoch, batchId, fragmentId, payload, _ | expiration, source⟩ := fragment
  · rfl
  · simp only [handleFragment, remoteStep, remoteEntry]
    split_ifs
    · split <;> simp_all
    · rfl

theorem remoteStep_persist (epoch : Nat) (entry : A) (fragment : Fragment) :
    ∀ e ∈ (remoteStep agg epoch entry fragment).2, ∃ r : PersistRequest,
      e = .persist r ∧ r.author = fragment.source := by
  unfold remoteStep
  split
  · split
    · split <;> simp
    · simp
  · simp

theorem handleFragment_filter_isPersistBy (s : BatchCoordinator A) (fragment : Fragment)
    (p : PeerId) :
    (handleFragment agg s fragment).2.filter (Effect.isPersistBy p) =
      if fragment.source = p then (handleFragment agg s fragment).2 else [] := by
  have hpersist := remoteStep_persist agg s.epoch (remoteEntry agg s fragment.source) fragment
  rw [handleFragment_eq]
  split_ifs with hf
  · refine List.filter_eq_self.mpr fun e he => ?_
    obtain ⟨r, rfl, hr⟩ := hpersist e he
    simp [Effect.isPersistBy, hr, hf]
  · refine List.filter_eq_nil_iff.mpr fun e he => ?_
    obtain ⟨r, rfl, hr⟩ := hpersist e he
    simp [Effect.isPersistBy, hr, hf]

theorem handleFragment_myPeerId (s : BatchCoordinator A) (fragment : Fragment) :
    (handleFragment agg s fragment).1.myPeerId = s.myPeerId := by
  rw [handleFragment_eq]
  rfl

/-! ## What `p`'s fragments read -/

/-- Two coordinators that `p`'s fragments cannot tell apart: the same epoch, the same
`max_batch_bytes` and the same aggregator for `p`. -/
structure AgreeOn (p : PeerId) (s t : BatchCoordinator A) : Prop where
  epoch : s.epoch = t.epoch
  maxBatchBytes : s.maxBatchBytes = t.maxBatchBytes
  remote : s.remoteBatchAggregators p = t.remoteBatchAggregators p

section AgreeOn

variable {agg} {p : PeerId} {s t : BatchCoordinator A} (h : AgreeOn p s t)
include h

theorem AgreeOn.handleFragment_of_source {fragment : Fragment} (hf : fragment.source = p) :
    (handleFragment agg s fragment).2 = (handleFragment agg t fragment).2 ∧
      AgreeOn p (handleFragment agg s fragment).1 (handleFragment agg t fragment).1 := by
  have hr : remoteStep agg s.epoch (remoteEntry agg s fragment.source) fragment =
      remoteStep agg t.epoch (remoteEntry agg t fragment.source) fragment := by
    rw [remoteEntry, remoteEntry, hf, h.epoch, h.remote, h.maxBatchBytes]
  rw [handleFragment_eq, handleFragment_eq, hr]
  exact ⟨rfl, h.epoch, h.maxBatchBytes, by simp [setRemote, hf]⟩

theorem AgreeOn.handleFragment_of_ne {fragment : Fragment} (hf : fragment.source ≠ p) :
    AgreeOn p (handleFragment agg s fragment).1 t := by
  rw [handleFragment_eq]
  exact ⟨h.epoch, h.maxBatchBytes, by simp [setRemote, Function.update_noteq (Ne.symm hf), h.remote]⟩

end AgreeOn

/-! ## The loop, peer by peer -/

theorem start_cons_isLocal (s : BatchCoordinator A) {c : BatchCoordinatorCommand}
    (hc : c.isLocal) (cmds : List BatchCoordinatorCommand) :
    ∃ es : List Effect, (∀ p, p ≠ s.myPeerId → es.filter (Effect.isPersistBy p) = []) ∧
      ((∃ e, start agg s (c :: cmds) = (es, .error e)) ∨
        ∃ a n, start agg s (c :: cmds) =
          (es ++ (start agg { s with localBatchAggregator := a, localFragmentId := n } cmds).1,
            (start agg { s with localBatchAggregator := a, localFragmentId := n } cmds).2)) := by
  match c, hc with
  | .appendToBatch fragmentPayload batchId, _ =>
    match h : agg.appendTransactions s.localBatchAggregator batchId s.localFragmentId
      fragmentPayload with
    | (a, .error _) =>
      exact ⟨[], fun _ _ => rfl, .inl ⟨_, by simp only [start, handleAppendToBatch, h]; rfl⟩⟩
    | (a, .ok ()) =>
      match hn : addChecked s.localFragmentId 1 with
      | .error e =>
        exact ⟨[.broadcastFragment _], fun _ _ => rfl,
          .inl ⟨e, by simp only [start, handleAppendToBatch, h, hn]; rfl⟩⟩
      | .ok n =>
        exact ⟨[.broadcastFragment _], fun _ _ => rfl,
          .inr ⟨a, n, by simp only [start, handleAppendToBatch, h, hn]; rfl⟩⟩
  | .endBatch fragmentPayload batchId expiration, _ =>
    match h : agg.endBatch s.localBatchAggregator batchId s.localFragmentId fragmentPayload with
    | (a, .error _) =>
      exact ⟨[], fun _ _ => rfl, .inl ⟨_, by simp only [start, handleEndBatch, h]; rfl⟩⟩
    | (a, .ok (numBytes, payload, digest)) =>
      refine ⟨[.initProof _ _, .broadcastFragment _, .persist ⟨s.myPeerId, _, _, _, _⟩],
        fun p hp => ?_, .inr ⟨a, 0, by simp only [start, handleEndBatch, h]; rfl⟩⟩
      simp [Effect.isPersistBy, Ne.symm hp]

/-- The run lemma: from coordinators `s` and `t` that `p ≠ s.my_peer_id` cannot tell apart, the
`Persist`s for `p`'s batches that a run from `s` sends are a prefix of what a run of `p`'s
fragments alone from `t` sends, and, when the first run has no shutdown and no panic, all of it,
with end states again indistinguishable to `p`. -/
theorem start_filter_isPersistBy {p : PeerId} (cmds : List BatchCoordinatorCommand) :
    ∀ {s t : BatchCoordinator A}, p ≠ s.myPeerId → AgreeOn p s t →
      (start agg s cmds).1.filter (Effect.isPersistBy p) <+:
          (start agg t (cmds.filter (BatchCoordinatorCommand.isFrom p))).1 ∧
        (BatchCoordinatorCommand.shutdown ∉ cmds → ∀ s', (start agg s cmds).2 = .ok s' →
          ∃ t', (start agg t (cmds.filter (BatchCoordinatorCommand.isFrom p))).2 = .ok t' ∧
            (start agg s cmds).1.filter (Effect.isPersistBy p) =
              (start agg t (cmds.filter (BatchCoordinatorCommand.isFrom p))).1 ∧
            AgreeOn p s' t') := by
  induction cmds with
  | nil =>
    intro s t _ h
    exact ⟨List.nil_prefix, fun _ s' hs => by cases hs; exact ⟨t, rfl, rfl, h⟩⟩
  | cons c cmds ih =>
    intro s t hp h
    by_cases hc : c.isLocal
    · have hskip : (c :: cmds).filter (BatchCoordinatorCommand.isFrom p) =
          cmds.filter (BatchCoordinatorCommand.isFrom p) :=
        List.filter_cons_of_neg (by simp [BatchCoordinatorCommand.isFrom_of_isLocal hc])
      obtain ⟨es, hes, ⟨e, hr⟩ | ⟨a, n, hr⟩⟩ := start_cons_isLocal agg s hc cmds
      · rw [hr, hes p hp]
        exact ⟨List.nil_prefix, fun _ _ h => by cases h⟩
      · obtain ⟨ih₁, ih₂⟩ := ih (s := { s with localBatchAggregator := a, localFragmentId := n })
          hp ⟨h.epoch, h.maxBatchBytes, h.remote⟩
        rw [hr, hskip, List.filter_append, hes p hp, List.nil_append]
        exact ⟨ih₁, fun hsd => ih₂ fun hm => hsd (List.mem_cons_of_mem _ hm)⟩
    · cases c with
      | appendToBatch | endBatch => exact absurd rfl hc
      | shutdown => exact ⟨List.nil_prefix, fun hsd => absurd (List.mem_cons_self _ _) hsd⟩
      | remoteFragment fragment =>
        have hp₁ : p ≠ (handleFragment agg s fragment).1.myPeerId := by
          rwa [handleFragment_myPeerId]
        by_cases hf : fragment.source = p
        · obtain ⟨he, h₁⟩ := h.handleFragment_of_source hf
          obtain ⟨ih₁, ih₂⟩ := ih hp₁ h₁
          simp only [start, List.filter_cons_of_pos (show (BatchCoordinatorCommand.remoteFragment
            fragment).isFrom p by simp [BatchCoordinatorCommand.isFrom, hf]), List.filter_append,
            handleFragment_filter_isPersistBy, hf, if_true, he, List.prefix_append_right_inj]
          refine ⟨ih₁, fun hsd s' hs' => ?_⟩
          obtain ⟨t', ht', heq, hag⟩ := ih₂ (fun hm => hsd (List.mem_cons_of_mem _ hm)) s' hs'
          exact ⟨t', ht', by rw [heq], hag⟩
        · obtain ⟨ih₁, ih₂⟩ := ih hp₁ (h.handleFragment_of_ne hf)
          simp only [start, List.filter_cons_of_neg (show ¬(BatchCoordinatorCommand.remoteFragment
            fragment).isFrom p by simp [BatchCoordinatorCommand.isFrom, hf]), List.filter_append,
            handleFragment_filter_isPersistBy, hf, if_false, List.nil_append]
          exact ⟨ih₁, fun hsd => ih₂ fun hm => hsd (List.mem_cons_of_mem _ hm)⟩

/-- For a peer `p` other than ourselves: the `Persist`s the loop sends for `p`'s batches are, in
order, those it would send if `p`'s fragments were its only commands, up to a panic or a
shutdown; when neither comes, all of them, and `p`'s aggregator ends as it would there. Other
peers' fragments and our own batches can neither delay, drop nor change them. -/
theorem start_peer_persists (s : BatchCoordinator A) {p : PeerId} (hp : p ≠ s.myPeerId)
    (cmds : List BatchCoordinatorCommand) :
    (start agg s cmds).1.filter (Effect.isPersistBy p) <+:
        (start agg s (cmds.filter (BatchCoordinatorCommand.isFrom p))).1 ∧
      (BatchCoordinatorCommand.shutdown ∉ cmds → ∀ s', (start agg s cmds).2 = .ok s' →
        ∃ t', (start agg s (cmds.filter (BatchCoordinatorCommand.isFrom p))).2 = .ok t' ∧
          (start agg s cmds).1.filter (Effect.isPersistBy p) =
            (start agg s (cmds.filter (BatchCoordinatorCommand.isFrom p))).1 ∧
          s'.remoteBatchAggregators p = t'.remoteBatchAggregators p) := by
  obtain ⟨h₁, h₂⟩ := start_filter_isPersistBy agg cmds hp ⟨rfl, rfl, rfl⟩
  refine ⟨h₁, fun hsd s' hs' => ?_⟩
  obtain ⟨t', ht', heq, hag⟩ := h₂ hsd s' hs'
  exact ⟨t', ht', heq, hag.remote⟩

theorem start_peer_persists_interleaved :
    let s := new countingAggregator 1 0 100
    let cmds : List BatchCoordinatorCommand :=
      [.remoteFragment ⟨1, ⟨4⟩, 0, [], none, 2⟩, .remoteFragment ⟨1, ⟨9⟩, 0, [], some ⟨1, 7⟩, 3⟩,
        .endBatch [] ⟨3⟩ ⟨1, 5⟩, .remoteFragment ⟨1, ⟨4⟩, 1, [], some ⟨1, 8⟩, 2⟩]
    2 ≠ s.myPeerId ∧
      ((start countingAggregator s cmds).1.filter (Effect.isPersistBy 2) <+:
          (start countingAggregator s (cmds.filter (BatchCoordinatorCommand.isFrom 2))).1 ∧
        (BatchCoordinatorCommand.shutdown ∉ cmds → ∀ s', (start countingAggregator s cmds).2 = .ok s' →
          ∃ t', (start countingAggregator s (cmds.filter (BatchCoordinatorCommand.isFrom 2))).2 =
              .ok t' ∧
            (start countingAggregator s cmds).1.filter (Effect.isPersistBy 2) =
              (start countingAggregator s (cmds.filter (BatchCoordinatorCommand.isFrom 2))).1 ∧
            s'.remoteBatchAggregators 2 = t'.remoteBatchAggregators 2)) :=
  ⟨by decide, start_peer_persists countingAggregator _ (by decide) _⟩

/-! ## Which peers have an aggregator -/

def senders (cmds : List BatchCoordinatorCommand) : List PeerId :=
  cmds.filterMap fun
    | .remoteFragment fragment => some fragment.source
    | _ => none

theorem senders_cons_of_isLocal {c : BatchCoordinatorCommand} (hc : c.isLocal)
    (cmds : List BatchCoordinatorCommand) : senders (c :: cmds) = senders cmds := by
  cases c <;> first | rfl | cases hc

theorem setRemote_isSome (s : BatchCoordinator A) (source p : PeerId) (a : A) :
    ((s.setRemote source a).remoteBatchAggregators p).isSome ↔
      (s.remoteBatchAggregators p).isSome ∨ p = source := by
  by_cases h : p = source
  · simp [setRemote, h]
  · simp [setRemote, Function.update_noteq h, h]

/-- `entry(source).or_insert_with(..)` makes the sender's aggregator before the epoch is checked,
and nothing removes one: after a run without shutdown or panic, the peers with an aggregator are
those that had one before and every sender of a fragment, also of one dropped for its epoch. -/
theorem start_remoteBatchAggregators_isSome (cmds : List BatchCoordinatorCommand)
    (hsd : BatchCoordinatorCommand.shutdown ∉ cmds) :
    ∀ {s s' : BatchCoordinator A}, (start agg s cmds).2 = .ok s' → ∀ p,
      (s'.remoteBatchAggregators p).isSome ↔
        (s.remoteBatchAggregators p).isSome ∨ p ∈ senders cmds := by
  induction cmds with
  | nil =>
    intro s s' h p
    cases h
    simp [senders]
  | cons c cmds ih =>
    intro s s' h p
    have hsd' : BatchCoordinatorCommand.shutdown ∉ cmds := fun hm => hsd (List.mem_cons_of_mem _ hm)
    by_cases hc : c.isLocal
    · obtain ⟨es, -, ⟨e, hr⟩ | ⟨a, n, hr⟩⟩ := start_cons_isLocal agg s hc cmds
      · rw [hr] at h
        cases h
      · rw [hr] at h
        rw [ih hsd' h p, senders_cons_of_isLocal hc]
    · cases c with
      | appendToBatch | endBatch => exact absurd rfl hc
      | shutdown => exact absurd (List.mem_cons_self _ _) hsd
      | remoteFragment fragment =>
        rw [ih hsd' h p, handleFragment_eq, setRemote_isSome]
        simp only [senders, List.filterMap_cons, List.mem_cons, or_assoc]

theorem start_remoteBatchAggregators_isSome_dropped :
    let cmds : List BatchCoordinatorCommand :=
      [.remoteFragment ⟨2, ⟨9⟩, 0, [], some ⟨2, 7⟩, 3⟩, .appendToBatch [] ⟨1⟩]
    BatchCoordinatorCommand.shutdown ∉ cmds ∧
      ∃ s', (start countingAggregator (new countingAggregator 1 0 100) cmds).2 = .ok s' ∧
        (start countingAggregator (new countingAggregator 1 0 100) cmds).1 =
          [.broadcastFragment ⟨1, ⟨1⟩, 0, [], none, 0⟩] ∧
        ((s'.remoteBatchAggregators 3).isSome ↔
          ((new countingAggregator 1 0 100).remoteBatchAggregators 3).isSome ∨ 3 ∈ senders cmds) :=
  ⟨by decide, _, rfl, rfl, @start_remoteBatchAggregators_isSome _ _ countingAggregator
    [.remoteFragment ⟨2, ⟨9⟩, 0, [], some ⟨2, 7⟩, 3⟩, .appendToBatch [] ⟨1⟩] (by decide)
    (new countingAggregator 1 0 100) _ rfl 3⟩

end BatchCoordinator

end QuorumStore
