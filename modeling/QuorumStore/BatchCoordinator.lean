import QuorumStore.Types

set_option autoImplicit false

/-!
# `BatchCoordinator`

The actor that turns the batch generator's commands into fragments (`batch_coordinator.rs`).
Each `AppendToBatch` and `EndBatch` builds a fragment numbered by `local_fragment_id`, feeds it
to the local `BatchAggregator` and broadcasts it; `EndBatch` also sends `InitProof` to the proof
coordinator and `Persist` to the batch store, and resets the counter. Remote fragments go to a
per-peer aggregator.

`BatchAggregator` is not in the sources, so the coordinator is parametric in its operations. The
channels are the effects `start` emits, in order; sends are assumed to succeed. The main result:
when the local commands form whole batches, the broadcast fragments of each batch are numbered
`0, 1, …, k`, only the last carries the expiration, and the local aggregator was fed exactly
those fragments, whatever remote fragments are interleaved.
-/

namespace QuorumStore

/-- The calls of `BatchAggregator` the coordinator makes, on an aggregator state `A` with
errors `E`. -/
structure BatchAggregatorOps (A E : Type) where
  new : Nat → A
  appendTransactions : A → BatchId → Nat → List SerializedTransaction → A × Except E Unit
  endBatch : A → BatchId → Nat → List SerializedTransaction →
    A × Except E (Nat × List SerializedTransaction × HashValue)

inductive BatchCoordinatorCommand
  | appendToBatch (fragmentPayload : List SerializedTransaction) (batchId : BatchId)
  | endBatch (fragmentPayload : List SerializedTransaction) (batchId : BatchId)
      (expiration : LogicalTime)
  | shutdown
  | remoteFragment (fragment : Fragment)
  deriving DecidableEq, Repr

/-- What the coordinator sends: to the network, to the proof coordinator, to the batch store,
and the shutdown acknowledgement. -/
inductive Effect
  | broadcastFragment (fragment : Fragment)
  | initProof (info : SignedDigestInfo) (batchId : BatchId)
  | persist (request : PersistRequest)
  | shutdownAck
  deriving DecidableEq, Repr

structure BatchCoordinator (A : Type) where
  epoch : Nat
  myPeerId : PeerId
  maxBatchBytes : Nat
  remoteBatchAggregators : PeerId → Option A
  localBatchAggregator : A
  localFragmentId : Nat

namespace BatchCoordinator

variable {A E : Type} (agg : BatchAggregatorOps A E)

def new (epoch : Nat) (myPeerId : PeerId) (maxBatchBytes : Nat) : BatchCoordinator A :=
  ⟨epoch, myPeerId, maxBatchBytes, fun _ => none, agg.new maxBatchBytes, 0⟩

def aggregationFailed : Panic :=
  .unreachable "[QuorumStore] Aggregation failed for own fragments with error"

def handleAppendToBatch (s : BatchCoordinator A) (fragmentPayload : List SerializedTransaction)
    (batchId : BatchId) : Except Panic (BatchCoordinator A × Fragment) :=
  match agg.appendTransactions s.localBatchAggregator batchId s.localFragmentId fragmentPayload with
  | (a, .ok ()) =>
    .ok ({ s with localBatchAggregator := a },
      ⟨s.epoch, batchId, s.localFragmentId, fragmentPayload, none, s.myPeerId⟩)
  | (_, .error _) => .error aggregationFailed

def handleEndBatch (s : BatchCoordinator A) (fragmentPayload : List SerializedTransaction)
    (batchId : BatchId) (expiration : LogicalTime) :
    Except Panic (BatchCoordinator A × Effect × PersistRequest × Fragment) :=
  match agg.endBatch s.localBatchAggregator batchId s.localFragmentId fragmentPayload with
  | (a, .ok (numBytes, payload, digest)) =>
    let fragment : Fragment :=
      ⟨s.epoch, batchId, s.localFragmentId, fragmentPayload, some expiration, s.myPeerId⟩
    .ok ({ s with localBatchAggregator := a },
      .initProof ⟨digest, expiration, payload.length, numBytes⟩ fragment.batchId,
      ⟨s.myPeerId, payload, digest, numBytes, expiration⟩, fragment)
  | (_, .error _) => .error aggregationFailed

/-- The per-peer aggregator after `entry(source).or_insert_with(..)` is updated to `a`. -/
def setRemote (s : BatchCoordinator A) (source : PeerId) (a : A) : BatchCoordinator A :=
  { s with remoteBatchAggregators := Function.update s.remoteBatchAggregators source (some a) }

def handleFragment (s : BatchCoordinator A) (fragment : Fragment) :
    BatchCoordinator A × List Effect :=
  let source := fragment.source
  let entry := (s.remoteBatchAggregators source).getD (agg.new s.maxBatchBytes)
  match fragment.maybeExpiration with
  | some expiration =>
    if expiration.epoch = s.epoch then
      match agg.endBatch entry fragment.batchId fragment.fragmentId fragment.payload with
      | (a, .ok (numBytes, payload, digest)) =>
        (s.setRemote source a, [.persist ⟨source, payload, digest, numBytes, expiration⟩])
      | (a, .error _) => (s.setRemote source a, [])
    else (s.setRemote source entry, [])
  | none =>
    (s.setRemote source
      (agg.appendTransactions entry fragment.batchId fragment.fragmentId fragment.payload).1, [])

/-- The command loop: the effects in the order they are sent, and the final state, or the panic
that ended it. `Shutdown` acknowledges and leaves the loop. -/
def start : BatchCoordinator A → List BatchCoordinatorCommand →
    List Effect × Except Panic (BatchCoordinator A)
  | s, [] => ([], .ok s)
  | s, .shutdown :: _ => ([.shutdownAck], .ok s)
  | s, .appendToBatch fragmentPayload batchId :: cmds =>
    match handleAppendToBatch agg s fragmentPayload batchId with
    | .ok (s, msg) =>
      match addChecked s.localFragmentId 1 with
      | .ok n =>
        let r := start { s with localFragmentId := n } cmds
        (.broadcastFragment msg :: r.1, r.2)
      | .error p => ([.broadcastFragment msg], .error p)
    | .error p => ([], .error p)
  | s, .endBatch fragmentPayload batchId logicalTime :: cmds =>
    match handleEndBatch agg s fragmentPayload batchId logicalTime with
    | .ok (s, initProof, persistRequest, fragment) =>
      let r := start { s with localFragmentId := 0 } cmds
      (initProof :: .broadcastFragment fragment :: .persist persistRequest :: r.1, r.2)
    | .error p => ([], .error p)
  | s, .remoteFragment fragment :: cmds =>
    let h := handleFragment agg s fragment
    let r := start h.1 cmds
    (h.2 ++ r.1, r.2)

/-! ## The local fragments -/

/-- The fragments the coordinator builds for the local commands of a sequence, numbered from
`fragmentId`: remote fragments are skipped, `EndBatch` restarts the numbering and `Shutdown`
ends the sequence. -/
def localFragments (epoch : Nat) (myPeerId : PeerId) :
    Nat → List BatchCoordinatorCommand → List Fragment
  | _, [] => []
  | _, .shutdown :: _ => []
  | j, .appendToBatch fragmentPayload batchId :: cmds =>
    ⟨epoch, batchId, j, fragmentPayload, none, myPeerId⟩ :: localFragments epoch myPeerId (j + 1) cmds
  | j, .endBatch fragmentPayload batchId expiration :: cmds =>
    ⟨epoch, batchId, j, fragmentPayload, some expiration, myPeerId⟩ ::
      localFragments epoch myPeerId 0 cmds
  | j, .remoteFragment _ :: cmds => localFragments epoch myPeerId j cmds

def feed (a : A) (fragments : List Fragment) : A :=
  fragments.foldl (fun a f => match f.maybeExpiration with
    | none => (agg.appendTransactions a f.batchId f.fragmentId f.payload).1
    | some _ => (agg.endBatch a f.batchId f.fragmentId f.payload).1) a

def broadcasts (effects : List Effect) : List Fragment :=
  effects.filterMap fun
    | .broadcastFragment fragment => some fragment
    | _ => none

@[simp] theorem broadcasts_nil : broadcasts [] = [] := rfl

@[simp] theorem broadcasts_cons_broadcastFragment (f : Fragment) (effects : List Effect) :
    broadcasts (.broadcastFragment f :: effects) = f :: broadcasts effects := rfl

@[simp] theorem broadcasts_cons_initProof (info : SignedDigestInfo) (batchId : BatchId)
    (effects : List Effect) : broadcasts (.initProof info batchId :: effects) = broadcasts effects :=
  rfl

@[simp] theorem broadcasts_cons_persist (request : PersistRequest) (effects : List Effect) :
    broadcasts (.persist request :: effects) = broadcasts effects := rfl

@[simp] theorem broadcasts_append (e₁ e₂ : List Effect) :
    broadcasts (e₁ ++ e₂) = broadcasts e₁ ++ broadcasts e₂ := List.filterMap_append _ _ _

theorem handleFragment_frame (s : BatchCoordinator A) (fragment : Fragment) :
    (∃ r, (handleFragment agg s fragment).1 = { s with remoteBatchAggregators := r }) ∧
      broadcasts (handleFragment agg s fragment).2 = [] := by
  unfold handleFragment
  dsimp only
  split
  · split
    · split <;> exact ⟨⟨_, rfl⟩, rfl⟩
    · exact ⟨⟨_, rfl⟩, rfl⟩
  · exact ⟨⟨_, rfl⟩, rfl⟩

theorem start_localFragments : ∀ (cmds : List BatchCoordinatorCommand) (s : BatchCoordinator A),
    broadcasts (start agg s cmds).1 <+: localFragments s.epoch s.myPeerId s.localFragmentId cmds ∧
    ∀ s', (start agg s cmds).2 = .ok s' →
      broadcasts (start agg s cmds).1 = localFragments s.epoch s.myPeerId s.localFragmentId cmds ∧
      s'.localBatchAggregator =
        feed agg s.localBatchAggregator (localFragments s.epoch s.myPeerId s.localFragmentId cmds)
  | [], s => ⟨List.prefix_refl _, fun s' h => by cases h; exact ⟨rfl, rfl⟩⟩
  | .shutdown :: _, s => ⟨List.nil_prefix, fun s' h => by cases h; exact ⟨rfl, rfl⟩⟩
  | .appendToBatch fragmentPayload batchId :: cmds, s => by
    match h : agg.appendTransactions s.localBatchAggregator batchId s.localFragmentId
      fragmentPayload with
    | (a, .error _) =>
      simp only [start, handleAppendToBatch, h]
      exact ⟨List.nil_prefix, fun _ h => by cases h⟩
    | (a, .ok ()) =>
      simp only [start, handleAppendToBatch, localFragments, h]
      match hn : addChecked s.localFragmentId 1 with
      | .error p => exact ⟨by simp, fun _ h => by cases h⟩
      | .ok n =>
        obtain ⟨-, rfl⟩ := addChecked_eq_ok_iff.mp hn
        obtain ⟨ih₁, ih₂⟩ := start_localFragments cmds
          { s with localBatchAggregator := a, localFragmentId := s.localFragmentId + 1 }
        refine ⟨by simpa using ih₁, fun s' h' => ?_⟩
        obtain ⟨hb, ha⟩ := ih₂ s' h'
        exact ⟨by simpa using hb, by simpa [feed, h] using ha⟩
  | .endBatch fragmentPayload batchId expiration :: cmds, s => by
    match h : agg.endBatch s.localBatchAggregator batchId s.localFragmentId fragmentPayload with
    | (a, .error _) =>
      simp only [start, handleEndBatch, h]
      exact ⟨List.nil_prefix, fun _ h => by cases h⟩
    | (a, .ok (numBytes, payload, digest)) =>
      simp only [start, handleEndBatch, localFragments, h]
      obtain ⟨ih₁, ih₂⟩ := start_localFragments cmds
        { s with localBatchAggregator := a, localFragmentId := 0 }
      refine ⟨by simpa using ih₁, fun s' h' => ?_⟩
      obtain ⟨hb, ha⟩ := ih₂ s' h'
      exact ⟨by simpa using hb, by simpa [feed, h] using ha⟩
  | .remoteFragment fragment :: cmds, s => by
    obtain ⟨⟨r, hs⟩, hb⟩ := handleFragment_frame agg s fragment
    obtain ⟨ih₁, ih₂⟩ := start_localFragments cmds (handleFragment agg s fragment).1
    simp only [start, localFragments, broadcasts_append, hb, List.nil_append]
    rw [hs] at ih₁ ih₂ ⊢
    exact ⟨ih₁, ih₂⟩

theorem handleFragment_localFragmentId (s : BatchCoordinator A) (fragment : Fragment) :
    (handleFragment agg s fragment).1.localFragmentId = s.localFragmentId := by
  obtain ⟨⟨r, hs⟩, -⟩ := handleFragment_frame agg s fragment
  rw [hs]

end BatchCoordinator

def BatchCoordinatorCommand.isLocal : BatchCoordinatorCommand → Bool
  | .appendToBatch _ _ | .endBatch _ _ _ => true
  | .shutdown | .remoteFragment _ => false

/-- One batch as the batch generator sends it: an `AppendToBatch` per fragment payload, then an
`EndBatch` with the last payload and the expiration. -/
structure LocalBatch where
  batchId : BatchId
  fragmentPayloads : List (List SerializedTransaction)
  lastPayload : List SerializedTransaction
  expiration : LogicalTime

namespace LocalBatch

def commands (b : LocalBatch) : List BatchCoordinatorCommand :=
  b.fragmentPayloads.map (fun p => .appendToBatch p b.batchId) ++
    [.endBatch b.lastPayload b.batchId b.expiration]

/-- The fragments a batch is to be sent as: ids `0, 1, …, k` with batch id `b.batchId`,
expiration `None` on all but the last, `Some b.expiration` on the last. -/
def fragments (epoch : Nat) (myPeerId : PeerId) (b : LocalBatch) : List Fragment :=
  (b.fragmentPayloads.enum.map fun (i, p) => ⟨epoch, b.batchId, i, p, none, myPeerId⟩) ++
    [⟨epoch, b.batchId, b.fragmentPayloads.length, b.lastPayload, some b.expiration, myPeerId⟩]

end LocalBatch

namespace BatchCoordinator

variable {A E : Type} (agg : BatchAggregatorOps A E)

theorem localFragments_filter_isLocal (epoch : Nat) (myPeerId : PeerId) :
    ∀ (j : Nat) (cmds : List BatchCoordinatorCommand),
      localFragments epoch myPeerId j cmds <+:
        localFragments epoch myPeerId j (cmds.filter BatchCoordinatorCommand.isLocal) ∧
      (BatchCoordinatorCommand.shutdown ∉ cmds → localFragments epoch myPeerId j cmds =
        localFragments epoch myPeerId j (cmds.filter BatchCoordinatorCommand.isLocal))
  | _, [] => ⟨List.prefix_refl _, fun _ => rfl⟩
  | _, .shutdown :: _ => ⟨List.nil_prefix, fun h => absurd (List.mem_cons_self _ _) h⟩
  | j, .appendToBatch p b :: cmds => by
    obtain ⟨h₁, h₂⟩ := localFragments_filter_isLocal epoch myPeerId (j + 1) cmds
    simp only [List.filter_cons, BatchCoordinatorCommand.isLocal, if_true, localFragments,
      List.mem_cons, reduceCtorEq, false_or]
    exact ⟨List.prefix_cons_inj _ |>.mpr h₁, fun h => by rw [h₂ h]⟩
  | j, .endBatch p b exp :: cmds => by
    obtain ⟨h₁, h₂⟩ := localFragments_filter_isLocal epoch myPeerId 0 cmds
    simp only [List.filter_cons, BatchCoordinatorCommand.isLocal, if_true, localFragments,
      List.mem_cons, reduceCtorEq, false_or]
    exact ⟨List.prefix_cons_inj _ |>.mpr h₁, fun h => by rw [h₂ h]⟩
  | j, .remoteFragment f :: cmds => by
    obtain ⟨h₁, h₂⟩ := localFragments_filter_isLocal epoch myPeerId j cmds
    simp only [List.filter_cons, BatchCoordinatorCommand.isLocal, Bool.false_eq_true, if_false,
      localFragments, List.mem_cons, reduceCtorEq, false_or]
    exact ⟨h₁, h₂⟩

theorem localFragments_appends (epoch : Nat) (myPeerId : PeerId) (b : LocalBatch)
    (rest : List BatchCoordinatorCommand) :
    ∀ (ps : List (List SerializedTransaction)) (j : Nat),
      localFragments epoch myPeerId j
          (ps.map (fun p => .appendToBatch p b.batchId) ++
            .endBatch b.lastPayload b.batchId b.expiration :: rest) =
        ((ps.enumFrom j).map fun (i, p) => ⟨epoch, b.batchId, i, p, none, myPeerId⟩) ++
          ⟨epoch, b.batchId, j + ps.length, b.lastPayload, some b.expiration, myPeerId⟩ ::
            localFragments epoch myPeerId 0 rest
  | [], j => rfl
  | p :: ps, j => by
    have hid : j + 1 + ps.length = j + (ps.length + 1) := by omega
    rw [List.map_cons, List.cons_append, localFragments,
      localFragments_appends epoch myPeerId b rest ps (j + 1), List.enumFrom_cons, List.map_cons,
      List.cons_append, List.length_cons, hid]

theorem localFragments_batches (epoch : Nat) (myPeerId : PeerId) :
    ∀ batches : List LocalBatch,
      localFragments epoch myPeerId 0 (batches.map LocalBatch.commands).flatten =
        (batches.map (LocalBatch.fragments epoch myPeerId)).flatten
  | [] => rfl
  | b :: batches => by
    simp only [List.map_cons, List.flatten_cons, LocalBatch.commands, List.append_assoc,
      List.singleton_append, localFragments_appends, localFragments_batches epoch myPeerId batches,
      LocalBatch.fragments, List.enum, Nat.zero_add]

/-- For any commands whose local ones form whole batches, with remote fragments interleaved
anywhere: the fragments broadcast are those of the batches, each numbered `0, 1, …, k` with the
expiration on the last only, up to a panic or shutdown; without either, all of them are broadcast
and the local aggregator was fed exactly them. Handling a remote fragment keeps the counter. -/
theorem start_broadcasts_batch_fragments (s : BatchCoordinator A) (batches : List LocalBatch)
    (cmds : List BatchCoordinatorCommand) (h0 : s.localFragmentId = 0)
    (hgroups : cmds.filter BatchCoordinatorCommand.isLocal = (batches.map LocalBatch.commands).flatten) :
    broadcasts (start agg s cmds).1 <+: (batches.map (LocalBatch.fragments s.epoch s.myPeerId)).flatten ∧
      (BatchCoordinatorCommand.shutdown ∉ cmds → ∀ s', (start agg s cmds).2 = .ok s' →
        broadcasts (start agg s cmds).1 = (batches.map (LocalBatch.fragments s.epoch s.myPeerId)).flatten ∧
        s'.localBatchAggregator =
          feed agg s.localBatchAggregator (batches.map (LocalBatch.fragments s.epoch s.myPeerId)).flatten) ∧
      ∀ (t : BatchCoordinator A) (fragment : Fragment),
        (handleFragment agg t fragment).1.localFragmentId = t.localFragmentId := by
  obtain ⟨hpre, hok⟩ := start_localFragments agg cmds s
  obtain ⟨hfilter, hfilter'⟩ := localFragments_filter_isLocal s.epoch s.myPeerId 0 cmds
  rw [h0] at hpre hok
  rw [hgroups, localFragments_batches] at hfilter hfilter'
  refine ⟨hpre.trans hfilter, fun hsd s' h => ?_, handleFragment_localFragmentId agg⟩
  rw [← hfilter' hsd]
  exact hok s' h

/-- An aggregator that accepts every fragment and counts them; its digest is the count. -/
def countingAggregator : BatchAggregatorOps Nat Unit :=
  ⟨fun _ => 0, fun a _ _ _ => (a + 1, .ok ()), fun a _ _ payload => (a + 1, .ok (0, payload, a))⟩

theorem start_broadcasts_batch_fragments_interleaved :
    let s := new countingAggregator 1 0 100
    let batches : List LocalBatch := [⟨⟨3⟩, [[]], [], ⟨1, 5⟩⟩]
    let cmds : List BatchCoordinatorCommand :=
      [.appendToBatch [] ⟨3⟩, .remoteFragment ⟨1, ⟨9⟩, 0, [], some ⟨1, 7⟩, 2⟩, .endBatch [] ⟨3⟩ ⟨1, 5⟩]
    broadcasts (start countingAggregator s cmds).1 <+:
        (batches.map (LocalBatch.fragments s.epoch s.myPeerId)).flatten ∧
      (BatchCoordinatorCommand.shutdown ∉ cmds → ∀ s', (start countingAggregator s cmds).2 = .ok s' →
        broadcasts (start countingAggregator s cmds).1 =
          (batches.map (LocalBatch.fragments s.epoch s.myPeerId)).flatten ∧
        s'.localBatchAggregator = feed countingAggregator s.localBatchAggregator
          (batches.map (LocalBatch.fragments s.epoch s.myPeerId)).flatten) ∧
      ∀ (t : BatchCoordinator Nat) (fragment : Fragment),
        (handleFragment countingAggregator t fragment).1.localFragmentId = t.localFragmentId :=
  start_broadcasts_batch_fragments countingAggregator _ _ _ rfl rfl

end BatchCoordinator

end QuorumStore
