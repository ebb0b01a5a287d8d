import QuorumStore.BatchCoordinatorRemote

set_option autoImplicit false

/-!
# From `EndBatch` to a proof of store

The actors a locally authored batch passes through, as a message-passing system. The
`BatchCoordinator` makes the sends of `start` one at a time, in order. The local `BatchStore` takes
`Persist` commands off `batch_store_tx` and, for its own batches, sends its signature share to the
`ProofCoordinator`. Each peer signs a batch's digest once it has the final fragment. The
`ProofCoordinator` takes `InitProof` off its channel, and resolves the proof of a digest once the
shares it holds carry a quorum of voting power. A run is any interleaving of these actions.

The `BatchStore`, the `ProofCoordinator` and the peers are not in the sources and are modelled
from the spec: a share is a digest with its signer, the store may reject a request, and a peer
signs the digest of the coordinator's last `InitProof`, which is what the same aggregator computes
from the same fragments. The local channels are FIFO; network messages and shares arrive in any
order.

`EndBatch` sends `InitProof`, broadcasts the final fragment, and only then sends `Persist`. So
when the peers alone hold a quorum, the proof can resolve before the store has the batch
(`proof_resolved_before_persist`). The `Persist` is not lost, though: `start` follows every
`InitProof` with our `Persist` for the same digest, so at every point of every interleaving it is
still to be sent, waiting in `batch_store_tx`, or delivered, and once both local channels are
empty the store has it (`resolved_persist_never_lost`).
-/

namespace QuorumStore

/-- The validators as the proof coordinator counts them: us, the other validators, voting power
and the quorum threshold. -/
structure ValidatorSet where
  me : PeerId
  peers : List PeerId
  power : PeerId → Nat
  quorum : Nat
  nodup : (me :: peers).Nodup

/-- Modelled from the spec: a signature share on a digest. -/
structure SignedDigest where
  digest : HashValue
  signer : PeerId
  deriving DecidableEq, Repr

structure ProofPipeline where
  /-- The sends the coordinator has still to make, in order. -/
  coordinator : List Effect
  lastInitProof : Option HashValue
  proofCoordinatorTx : List HashValue
  batchStoreTx : List PersistRequest
  /-- Final fragments in flight to each peer, with the digest the peer computes. -/
  network : List (PeerId × HashValue)
  shares : List SignedDigest
  /-- The `Persist` commands the local `BatchStore` has received. -/
  delivered : List PersistRequest
  /-- The proof coordinator's pending proofs: the signers so far, by digest. -/
  signers : HashValue → Option (List PeerId)
  resolved : List HashValue

inductive Action
  | coordinatorSend
  | batchStoreReceive (accept : Bool)
  | peerReceive (i : Nat)
  | proofCoordinatorInit
  | proofCoordinatorShare (i : Nat)
  deriving DecidableEq, Repr

namespace ProofPipeline

variable (vs : ValidatorSet)

def init (effects : List Effect) : ProofPipeline :=
  ⟨effects, none, [], [], [], [], [], fun _ => none, []⟩

/-- One send of the coordinator: `InitProof` to the proof coordinator, a final fragment to every
peer, `Persist` to the batch store. -/
def send (sys : ProofPipeline) : Effect → ProofPipeline
  | .initProof info _ =>
    { sys with proofCoordinatorTx := sys.proofCoordinatorTx ++ [info.digest],
               lastInitProof := some info.digest }
  | .broadcastFragment fragment =>
    match fragment.maybeExpiration, sys.lastInitProof with
    | some _, some digest => { sys with network := sys.network ++ vs.peers.map fun p => (p, digest) }
    | _, _ => sys
  | .persist request => { sys with batchStoreTx := sys.batchStoreTx ++ [request] }
  | .shutdownAck => sys

/-- A share reaches the proof coordinator: unknown digests and repeated signers are dropped, and
the proof resolves once the signers carry a quorum. -/
def addShare (sys : ProofPipeline) (share : SignedDigest) : ProofPipeline :=
  match sys.signers share.digest with
  | none => sys
  | some signers =>
    if share.signer ∈ signers then sys
    else if vs.quorum ≤ ((share.signer :: signers).map vs.power).sum then
      { sys with signers := Function.update sys.signers share.digest none,
                 resolved := sys.resolved ++ [share.digest] }
    else
      { sys with signers := Function.update sys.signers share.digest (some (share.signer :: signers)) }

def step (sys : ProofPipeline) : Action → Option ProofPipeline
  | .coordinatorSend =>
    match sys.coordinator with
    | [] => none
    | effect :: rest => some (send vs { sys with coordinator := rest } effect)
  | .batchStoreReceive accept =>
    match sys.batchStoreTx with
    | [] => none
    | request :: rest =>
      let sys := { sys with batchStoreTx := rest, delivered := sys.delivered ++ [request] }
      if accept ∧ request.author = vs.me then
        some { sys with shares := sys.shares ++ [⟨request.digest, vs.me⟩] }
      else some sys
  | .peerReceive i =>
    match sys.network[i]? with
    | none => none
    | some (peer, digest) =>
      some { sys with network := sys.network.eraseIdx i, shares := sys.shares ++ [⟨digest, peer⟩] }
  | .proofCoordinatorInit =>
    match sys.proofCoordinatorTx with
    | [] => none
    | digest :: rest =>
      some { sys with proofCoordinatorTx := rest,
                      signers := Function.update sys.signers digest (some []) }
  | .proofCoordinatorShare i =>
    match sys.shares[i]? with
    | none => none
    | some share => some (addShare vs { sys with shares := sys.shares.eraseIdx i } share)

def run (sys : ProofPipeline) : List Action → Option ProofPipeline
  | [] => some sys
  | a :: as => (step vs sys a).bind fun sys => run sys as

def Persisted (sys : ProofPipeline) (digest : HashValue) : Prop :=
  ∃ request ∈ sys.delivered, request.author = vs.me ∧ request.digest = digest

/-! ## The proof can resolve first -/

/-- The system started from the sends of one `EndBatch` of a fresh coordinator. -/
theorem proof_resolved_before_persist :
    let vs : ValidatorSet := ⟨0, [1, 2, 3], fun _ => 1, 3, by decide⟩
    let effects := (BatchCoordinator.start BatchCoordinator.countingAggregator
      (BatchCoordinator.new BatchCoordinator.countingAggregator 1 0 100)
      [.endBatch [] ⟨0⟩ ⟨1, 5⟩]).1
    (run vs (init effects) [.coordinatorSend, .proofCoordinatorInit, .coordinatorSend,
        .peerReceive 0, .peerReceive 0, .peerReceive 0, .proofCoordinatorShare 0,
        .proofCoordinatorShare 0, .proofCoordinatorShare 0, .coordinatorSend]).map
      (fun sys => (sys.resolved, sys.delivered, sys.batchStoreTx.map PersistRequest.digest)) =
      some ([0], [], [0]) := rfl

/-! ## Our `Persist` is never lost -/

/-- Every `InitProof` among the sends is followed by our own `Persist` for its digest. -/
def Paired (me : PeerId) : List Effect → Prop
  | [] => True
  | effect :: rest =>
    (∀ info batchId, effect = .initProof info batchId →
      ∃ request, .persist request ∈ rest ∧ request.author = me ∧ request.digest = info.digest) ∧
    Paired me rest

theorem Paired.append {me : PeerId} {l₂ : List Effect} (h₂ : Paired me l₂) :
    ∀ {l₁ : List Effect}, Paired me l₁ → Paired me (l₁ ++ l₂)
  | [], _ => h₂
  | _ :: _, ⟨hhead, hrest⟩ => ⟨fun info batchId he => by
      obtain ⟨request, hr, ha, hd⟩ := hhead info batchId he
      exact ⟨request, List.mem_append_left _ hr, ha, hd⟩, Paired.append h₂ hrest⟩

theorem Paired.of_persist {me : PeerId} :
    ∀ {l : List Effect}, (∀ e ∈ l, ∃ request, e = .persist request) → Paired me l
  | [], _ => trivial
  | e :: _, h => ⟨(fun info batchId he => by
      obtain ⟨request, hr⟩ := h e (List.mem_cons_self _ _)
      rw [he] at hr
      cases hr), Paired.of_persist fun e' he' => h e' (List.mem_cons_of_mem _ he')⟩

/-- `start` pairs every `InitProof` with our `Persist` for the same digest: `EndBatch` sends
both, and a remote fragment sends only `Persist`s. -/
theorem start_paired {A E : Type} (agg : BatchAggregatorOps A E) :
    ∀ (cmds : List BatchCoordinatorCommand) (s : BatchCoordinator A),
      Paired s.myPeerId (BatchCoordinator.start agg s cmds).1
  | [], _ => trivial
  | .shutdown :: _, _ => ⟨(fun _ _ h => by cases h), trivial⟩
  | .appendToBatch fragmentPayload batchId :: cmds, s => by
    match h : agg.appendTransactions s.localBatchAggregator batchId s.localFragmentId
      fragmentPayload with
    | (a, .error _) =>
      simp only [BatchCoordinator.start, BatchCoordinator.handleAppendToBatch, h]
      trivial
    | (a, .ok ()) =>
      match hn : addChecked s.localFragmentId 1 with
      | .error _ =>
        simp only [BatchCoordinator.start, BatchCoordinator.handleAppendToBatch, h, hn]
        exact ⟨(fun _ _ h => by cases h), trivial⟩
      | .ok n =>
        simp only [BatchCoordinator.start, BatchCoordinator.handleAppendToBatch, h, hn]
        exact ⟨(fun _ _ h => by cases h),
          start_paired agg cmds { s with localBatchAggregator := a, localFragmentId := n }⟩
  | .endBatch fragmentPayload batchId expiration :: cmds, s => by
    match h : agg.endBatch s.localBatchAggregator batchId s.localFragmentId fragmentPayload with
    | (a, .error _) =>
      simp only [BatchCoordinator.start, BatchCoordinator.handleEndBatch, h]
      trivial
    | (a, .ok (numBytes, payload, digest)) =>
      simp only [BatchCoordinator.start, BatchCoordinator.handleEndBatch, h]
      exact ⟨fun _ _ he => by
          cases he
          exact ⟨_, List.mem_cons_of_mem _ (List.mem_cons_self _ _), rfl, rfl⟩,
        (fun _ _ he => by cases he), (fun _ _ he => by cases he),
        start_paired agg cmds { s with localBatchAggregator := a, localFragmentId := 0 }⟩
  | .remoteFragment fragment :: cmds, s => by
    simp only [BatchCoordinator.start]
    refine Paired.append ?_ (Paired.of_persist fun e he => ?_)
    · rw [← BatchCoordinator.handleFragment_myPeerId agg s fragment]
      exact start_paired agg cmds _
    · rw [BatchCoordinator.handleFragment_eq] at he
      obtain ⟨request, rfl, -⟩ := BatchCoordinator.remoteStep_persist agg _ _ _ e he
      exact ⟨request, rfl⟩

/-- A digest the proof coordinator knows of: on its channel, pending, or resolved. -/
def Known (sys : ProofPipeline) (digest : HashValue) : Prop :=
  digest ∈ sys.proofCoordinatorTx ∨ sys.signers digest ≠ none ∨ digest ∈ sys.resolved

/-- Our `Persist` for `digest` is not lost: it is still among the coordinator's sends, waiting in
`batch_store_tx`, or delivered. -/
def Owed (sys : ProofPipeline) (digest : HashValue) : Prop :=
  ∃ request : PersistRequest, request.author = vs.me ∧ request.digest = digest ∧
    (Effect.persist request ∈ sys.coordinator ∨ request ∈ sys.batchStoreTx ∨
      request ∈ sys.delivered)

/-- The coordinator's remaining sends are paired, and every digest the proof coordinator knows of
has our `Persist` owed. -/
structure Announced (sys : ProofPipeline) : Prop where
  paired : Paired vs.me sys.coordinator
  owed : ∀ d, Known sys d → Owed vs sys d

section Announced

variable {vs}

@[simp] theorem send_coordinator (sys : ProofPipeline) (effect : Effect) :
    (send vs sys effect).coordinator = sys.coordinator := by
  cases effect with
  | broadcastFragment fragment => simp only [send]; split <;> rfl
  | _ => rfl

@[simp] theorem send_delivered (sys : ProofPipeline) (effect : Effect) :
    (send vs sys effect).delivered = sys.delivered := by
  cases effect with
  | broadcastFragment fragment => simp only [send]; split <;> rfl
  | _ => rfl

theorem mem_send_batchStoreTx (sys : ProofPipeline) (effect : Effect) (request : PersistRequest)
    (h : request ∈ sys.batchStoreTx ∨ effect = .persist request) :
    request ∈ (send vs sys effect).batchStoreTx := by
  cases effect with
  | broadcastFragment fragment =>
    simp only [send]
    split <;> exact h.resolve_right (by simp)
  | persist r =>
    rcases h with h | h
    · exact List.mem_append_left _ h
    · cases h; exact List.mem_append_right _ (List.mem_singleton_self _)
  | _ => exact h.resolve_right (by simp)

theorem known_send {sys : ProofPipeline} {effect : Effect} {d : HashValue}
    (h : Known (send vs sys effect) d) :
    Known sys d ∨ ∃ info batchId, effect = .initProof info batchId ∧ d = info.digest := by
  cases effect with
  | initProof info batchId =>
    rcases h with h | h | h
    · rcases List.mem_append.mp h with h | h
      · exact .inl (.inl h)
      · exact .inr ⟨info, batchId, rfl, List.mem_singleton.mp h⟩
    · exact .inl (.inr (.inl h))
    · exact .inl (.inr (.inr h))
  | broadcastFragment fragment =>
    simp only [send] at h
    split at h <;> exact .inl h
  | _ => exact .inl h

theorem Owed.send {sys : ProofPipeline} {effect : Effect} {rest : List Effect} {d : HashValue}
    (hc : sys.coordinator = effect :: rest) (h : Owed vs sys d) :
    Owed vs (send vs { sys with coordinator := rest } effect) d := by
  obtain ⟨request, ha, hd, hr⟩ := h
  refine ⟨request, ha, hd, ?_⟩
  rw [send_coordinator, send_delivered]
  rcases hr with hr | hr | hr
  · rw [hc] at hr
    rcases List.mem_cons.mp hr with he | hr
    · exact .inr (.inl (mem_send_batchStoreTx _ _ _ (.inr he.symm)))
    · exact .inl hr
  · exact .inr (.inl (mem_send_batchStoreTx _ _ _ (.inl hr)))
  · exact .inr (.inr hr)

theorem Owed.receive {sys : ProofPipeline} {request : PersistRequest}
    {rest : List PersistRequest} {d : HashValue} (hc : sys.batchStoreTx = request :: rest)
    (h : Owed vs sys d) :
    Owed vs { sys with batchStoreTx := rest, delivered := sys.delivered ++ [request] } d := by
  obtain ⟨r, ha, hd, hr⟩ := h
  refine ⟨r, ha, hd, ?_⟩
  rcases hr with hr | hr | hr
  · exact .inl hr
  · rw [hc] at hr
    rcases List.mem_cons.mp hr with rfl | hr
    · exact .inr (.inr (List.mem_append_right _ (List.mem_singleton_self _)))
    · exact .inr (.inl hr)
  · exact .inr (.inr (List.mem_append_left _ hr))

theorem addShare_eq (sys : ProofPipeline) (share : SignedDigest) :
    ∃ signers resolved, addShare vs sys share = { sys with signers, resolved } ∧
      ∀ d, Known (addShare vs sys share) d → Known sys d := by
  unfold addShare
  split
  · exact ⟨_, _, rfl, fun _ h => h⟩
  · rename_i signers hsig
    have hpending : ∀ v d, Function.update sys.signers share.digest v d ≠ none →
        sys.signers d ≠ none := fun v d h => by
      by_cases hd : d = share.digest
      · rw [hd, hsig]; simp
      · rwa [Function.update_noteq hd] at h
    split_ifs
    · exact ⟨_, _, rfl, fun _ h => h⟩
    · refine ⟨_, _, rfl, fun d h => ?_⟩
      rcases h with h | h | h
      · exact .inl h
      · exact .inr (.inl (hpending _ d h))
      · rcases List.mem_append.mp h with h | h
        · exact .inr (.inr h)
        · exact .inr (.inl (by rw [List.mem_singleton.mp h, hsig]; simp))
    · exact ⟨_, _, rfl, fun d h => h.imp_right (Or.imp_left (hpending _ d))⟩

theorem Announced.step {sys sys' : ProofPipeline} (h : Announced vs sys) :
    ∀ a : Action, step vs sys a = some sys' → Announced vs sys'
  | .coordinatorSend, hs => by
    simp only [ProofPipeline.step] at hs
    split at hs
    · cases hs
    · rename_i effect rest hc
      obtain rfl := Option.some.inj hs
      obtain ⟨hhead, hrest⟩ : Paired vs.me (effect :: rest) := hc ▸ h.paired
      refine ⟨by rw [send_coordinator]; exact hrest, fun d hd => ?_⟩
      rcases known_send hd with hd | ⟨info, batchId, rfl, rfl⟩
      · exact (h.owed d hd).send hc
      · obtain ⟨request, hr, ha, hdig⟩ := hhead info batchId rfl
        exact ⟨request, ha, hdig, .inl (by rw [send_coordinator]; exact hr)⟩
  | .batchStoreReceive accept, hs => by
    simp only [ProofPipeline.step] at hs
    split at hs
    · cases hs
    · rename_i request rest hc
      have hs' : ∀ d, Known sys d →
          Owed vs { sys with batchStoreTx := rest, delivered := sys.delivered ++ [request] } d :=
        fun d hd => (h.owed d hd).receive hc
      split_ifs at hs <;> (obtain rfl := Option.some.inj hs; exact ⟨h.paired, hs'⟩)
  | .peerReceive i, hs => by
    simp only [ProofPipeline.step] at hs
    split at hs
    · cases hs
    · obtain rfl := Option.some.inj hs
      exact ⟨h.paired, h.owed⟩
  | .proofCoordinatorInit, hs => by
    simp only [ProofPipeline.step] at hs
    split at hs
    · cases hs
    · rename_i d₀ rest hc
      obtain rfl := Option.some.inj hs
      refine ⟨h.paired, fun d hd => h.owed d ?_⟩
      rcases hd with hd | hd | hd
      · exact .inl (by rw [hc]; exact List.mem_cons_of_mem _ hd)
      · by_cases hdd : d = d₀
        · exact .inl (by rw [hc, hdd]; exact List.mem_cons_self _ _)
        · exact .inr (.inl (by simpa [Function.update_noteq hdd] using hd))
      · exact .inr (.inr hd)
  | .proofCoordinatorShare i, hs => by
    simp only [ProofPipeline.step] at hs
    split at hs
    · cases hs
    · rename_i share _
      obtain rfl := Option.some.inj hs
      obtain ⟨signers, resolved, heq, hknown⟩ :=
        @addShare_eq vs { sys with shares := sys.shares.eraseIdx i } share
      refine ⟨by rw [heq]; exact h.paired, fun d hd => ?_⟩
      rw [heq]
      exact h.owed d (hknown d hd)

theorem Announced.run {sys : ProofPipeline} (h : Announced vs sys) :
    ∀ (as : List Action) {sys' : ProofPipeline}, run vs sys as = some sys' → Announced vs sys'
  | [], _, hr => (Option.some.inj hr) ▸ h
  | a :: as, _, hr => by
    simp only [ProofPipeline.run] at hr
    cases hs : ProofPipeline.step vs sys a with
    | none => rw [hs] at hr; cases hr
    | some sys₁ =>
      rw [hs] at hr
      exact (h.step a hs).run as hr

end Announced

/-- In every interleaving of the system started from the sends of `BatchCoordinator::start` under
our own peer id, our `Persist` for a resolved digest is never lost: it is still to be sent,
waiting in `batch_store_tx`, or delivered. So once the coordinator has made all its sends and the
store has taken every `Persist`, the store has our `Persist` for every resolved digest. -/
theorem resolved_persist_never_lost {A E : Type} (agg : BatchAggregatorOps A E)
    (s : BatchCoordinator A) (hme : s.myPeerId = vs.me) (cmds : List BatchCoordinatorCommand)
    (as : List Action) (sys : ProofPipeline)
    (hrun : run vs (init (BatchCoordinator.start agg s cmds).1) as = some sys) :
    (∀ d ∈ sys.resolved, Owed vs sys d) ∧
      (sys.coordinator = [] → sys.batchStoreTx = [] → ∀ d ∈ sys.resolved, Persisted vs sys d) := by
  have hinit : Announced vs (init (BatchCoordinator.start agg s cmds).1) :=
    ⟨hme ▸ start_paired agg cmds s, fun d hd => by simp [Known, init] at hd⟩
  have h := hinit.run as hrun
  refine ⟨fun d hd => h.owed d (.inr (.inr hd)), fun hc ht d hd => ?_⟩
  obtain ⟨request, ha, hdig, hr⟩ := h.owed d (.inr (.inr hd))
  rw [hc, ht] at hr
  rcases hr with hr | hr | hr
  · cases hr
  · cases hr
  · exact ⟨request, hr, ha, hdig⟩

theorem resolved_persist_delivered_after_resolution :
    let vs : ValidatorSet := ⟨0, [1, 2, 3], fun _ => 1, 3, by decide⟩
    let as : List Action := [.coordinatorSend, .proofCoordinatorInit, .coordinatorSend,
      .peerReceive 0, .peerReceive 0, .peerReceive 0, .proofCoordinatorShare 0,
      .proofCoordinatorShare 0, .proofCoordinatorShare 0, .coordinatorSend, .batchStoreReceive true]
    ∃ sys, run vs (init (BatchCoordinator.start BatchCoordinator.countingAggregator
        (BatchCoordinator.new BatchCoordinator.countingAggregator 1 0 100)
        [.endBatch [] ⟨0⟩ ⟨1, 5⟩]).1) as = some sys ∧
      sys.resolved = [0] ∧ sys.coordinator = [] ∧ sys.batchStoreTx = [] ∧
      (∀ d ∈ sys.resolved, Owed vs sys d) ∧
      (sys.coordinator = [] → sys.batchStoreTx = [] → ∀ d ∈ sys.resolved, Persisted vs sys d) :=
  ⟨_, (Option.some_get (by decide)).symm, rfl, rfl, rfl,
    resolved_persist_never_lost _ BatchCoordinator.countingAggregator
      (BatchCoordinator.new BatchCoordinator.countingAggregator 1 0 100) rfl
      [.endBatch [] ⟨0⟩ ⟨1, 5⟩] _ _ (Option.some_get _).symm⟩

end ProofPipeline

end QuorumStore
