import QuorumStore.ProofQueueLocal

set_option autoImplicit false

/-!
# `ProofManager`

The actor that owns the `ProofQueue` (`proof_manager.rs`). It pushes local and remote proofs,
answers block proposal requests with `pull_proofs` at `(epoch, round)`, and on a commit
notification marks the digests committed, recounts the local proofs with `clean_local_proofs` and
signals backpressure to the proposer when the count crosses its limit. Its `select!` loop takes
proposal requests and commands in any interleaving; a run is one such sequence of events.

The commit notification asserts that logical time never decreases. So every local proof that
`clean_local_proofs` has dropped expired before the latest commit, and after each commit
`remaining_local_proof_num` is the number of local proofs, counted with multiplicity, that are
unexpired and uncommitted (`start_commit_counts_local_proofs`). The loop's `back_pressure`
always equals `qs_back_pressure()` of its state, so after every commit the last value the proposer
received says whether that count exceeds the limit (`start_backPressure_after_commit`).
-/

namespace QuorumStore

inductive ProofManagerCommand
  | localProof (proof : ProofOfStore)
  | remoteProof (proof : ProofOfStore)
  | commitNotification (logicalTime : LogicalTime) (digests : List HashValue)
  | shutdown
  deriving DecidableEq, Repr

/-- Modelled from the spec: the filter a block request carries. -/
inductive PayloadFilter
  | empty
  | directMempool
  | inQuorumStore (proofs : List HashValue)
  deriving DecidableEq, Repr

/-- The digests a block request excludes; a `DirectMempool` filter is `unreachable!()`. -/
def PayloadFilter.excludedProofs : PayloadFilter → Except Panic (List HashValue)
  | .empty => .ok []
  | .directMempool => .error (.unreachable "internal error: entered unreachable code")
  | .inQuorumStore proofs => .ok proofs

/-- `BlockProposalCommand::GetBlockRequest(round, max_txns, max_bytes, filter, callback)`; the
response goes to the request's callback. -/
structure GetBlockRequest where
  round : Nat
  maxTxns : Nat
  maxBytes : Nat
  filter : PayloadFilter
  deriving DecidableEq, Repr

inductive ProofManagerEvent
  | proposal (msg : GetBlockRequest)
  | command (cmd : ProofManagerCommand)
  deriving DecidableEq, Repr

/-- What the manager sends: a local proof to the network, a block response, a backpressure
update, the shutdown acknowledgement. An empty block response is `Payload::empty(true)`. -/
inductive ProofManagerEffect
  | broadcastProofOfStore (proof : ProofOfStore)
  | getBlockResponse (proofs : List ProofOfStore)
  | backPressure (backPressure : Bool)
  | shutdownAck
  deriving DecidableEq, Repr

structure ProofManager where
  proofsForConsensus : ProofQueue
  latestLogicalTime : LogicalTime
  backPressureLocalBatchLimit : Nat
  remainingLocalProofNum : Nat

namespace ProofManager

def new (epoch backPressureLocalBatchLimit : Nat) : ProofManager :=
  ⟨ProofQueue.new, ⟨epoch, 0⟩, backPressureLocalBatchLimit, 0⟩

def handleLocalProof (m : ProofManager) (proof : ProofOfStore) :
    ProofManager × ProofManagerEffect :=
  ({ m with proofsForConsensus := m.proofsForConsensus.push proof true }, .broadcastProofOfStore proof)

def handleRemoteProof (m : ProofManager) (proof : ProofOfStore) : ProofManager :=
  { m with proofsForConsensus := m.proofsForConsensus.push proof false }

def handleCommitNotification (m : ProofManager) (logicalTime : LogicalTime)
    (digests : List HashValue) : Except Panic ProofManager :=
  if m.latestLogicalTime.epoch = logicalTime.epoch then
    if m.latestLogicalTime ≤ logicalTime then
      .ok { m with latestLogicalTime := logicalTime,
                   proofsForConsensus := m.proofsForConsensus.markCommitted digests }
    else .error (.assert "Decreasing logical time")
  else .error (.assert "Wrong epoch")

def handleProposalRequest (m : ProofManager) (msg : GetBlockRequest) :
    Except Panic (ProofManager × ProofManagerEffect) := do
  let excludedProofs ← msg.filter.excludedProofs
  let (proofBlock, q) ← m.proofsForConsensus.pullProofs excludedProofs
    ⟨m.latestLogicalTime.epoch, msg.round⟩ msg.maxTxns msg.maxBytes
  pure ({ m with proofsForConsensus := q }, .getBlockResponse proofBlock)

def qsBackPressure (m : ProofManager) : Bool :=
  decide (m.backPressureLocalBatchLimit < m.remainingLocalProofNum)

/-- The commit arm of `start`: handle the notification, recount the local proofs and report the
new backpressure. -/
def commit (m : ProofManager) (logicalTime : LogicalTime) (digests : List HashValue) :
    Except Panic ProofManager := do
  let m ← m.handleCommitNotification logicalTime digests
  let r := m.proofsForConsensus.cleanLocalProofs logicalTime
  pure { m with remainingLocalProofNum := r.1, proofsForConsensus := r.2 }

/-- The loop of `start`, over the manager and its `back_pressure` variable: the effects in order,
and the final state or the panic that ended it. `Shutdown` acknowledges and leaves the loop. -/
def loop : ProofManager → Bool → List ProofManagerEvent →
    List ProofManagerEffect × Except Panic (ProofManager × Bool)
  | m, backPressure, [] => ([], .ok (m, backPressure))
  | m, backPressure, .proposal msg :: evs =>
    match m.handleProposalRequest msg with
    | .ok (m, response) =>
      let r := loop m backPressure evs
      (response :: r.1, r.2)
    | .error p => ([], .error p)
  | m, backPressure, .command .shutdown :: _ => ([.shutdownAck], .ok (m, backPressure))
  | m, backPressure, .command (.localProof proof) :: evs =>
    let r := loop (m.handleLocalProof proof).1 backPressure evs
    ((m.handleLocalProof proof).2 :: r.1, r.2)
  | m, backPressure, .command (.remoteProof proof) :: evs =>
    loop (m.handleRemoteProof proof) backPressure evs
  | m, backPressure, .command (.commitNotification logicalTime digests) :: evs =>
    match m.commit logicalTime digests with
    | .ok m =>
      if m.qsBackPressure ≠ backPressure then
        let r := loop m m.qsBackPressure evs
        (.backPressure m.qsBackPressure :: r.1, r.2)
      else loop m backPressure evs
    | .error p => ([], .error p)

def start (m : ProofManager) (evs : List ProofManagerEvent) :
    List ProofManagerEffect × Except Panic ProofManager :=
  let r := loop m false evs
  (r.1, r.2.map Prod.fst)

/-! ## Backpressure -/

def backPressureSignals (effects : List ProofManagerEffect) : List Bool :=
  effects.filterMap fun
    | .backPressure backPressure => some backPressure
    | _ => none

@[simp] theorem backPressureSignals_nil : backPressureSignals [] = [] := rfl

@[simp] theorem backPressureSignals_cons_backPressure (b : Bool) (effects : List ProofManagerEffect) :
    backPressureSignals (.backPressure b :: effects) = b :: backPressureSignals effects := rfl

@[simp] theorem backPressureSignals_cons_getBlockResponse (proofs : List ProofOfStore)
    (effects : List ProofManagerEffect) :
    backPressureSignals (.getBlockResponse proofs :: effects) = backPressureSignals effects := rfl

@[simp] theorem backPressureSignals_cons_broadcastProofOfStore (proof : ProofOfStore)
    (effects : List ProofManagerEffect) :
    backPressureSignals (.broadcastProofOfStore proof :: effects) = backPressureSignals effects := rfl

/-! ## The run invariant -/

def localProofs (evs : List ProofManagerEvent) : List (HashValue × LogicalTime) :=
  evs.filterMap fun
    | .command (.localProof proof) => some (proof.digest, proof.expiration)
    | _ => none

theorem localProofs_append (evs evs' : List ProofManagerEvent) :
    localProofs (evs ++ evs') = localProofs evs ++ localProofs evs' := List.filterMap_append _ _ _

/-- What holds after a sequence of events of a manager created for `epoch`: the latest time stays
in the epoch, the queue keeps the `ProofQueue` invariant, and `local_digest_queue` holds every
local proof but a prefix that expired before the latest commit. -/
structure Inv (epoch : Nat) (m : ProofManager) (evs : List ProofManagerEvent) : Prop where
  epoch_eq : m.latestLogicalTime.epoch = epoch
  queue : ProofQueue.Inv m.proofsForConsensus
  log : ∃ dropped, localProofs evs = dropped ++ m.proofsForConsensus.localDigestQueue ∧
    ∀ x ∈ dropped, x.2 < m.latestLogicalTime

theorem new_inv (epoch backPressureLocalBatchLimit : Nat) :
    Inv epoch (new epoch backPressureLocalBatchLimit) [] :=
  ⟨rfl, ProofQueue.new_inv, [], rfl, by simp⟩

section Inv

variable {epoch : Nat}

theorem Inv.localProof {m : ProofManager} {evs : List ProofManagerEvent} (h : Inv epoch m evs)
    (proof : ProofOfStore) :
    Inv epoch (m.handleLocalProof proof).1 (evs ++ [.command (.localProof proof)]) := by
  obtain ⟨he, hq, dropped, hlocal, hdrop⟩ := h
  refine ⟨he, ProofQueue.push_inv hq proof true, dropped, ?_, hdrop⟩
  rw [localProofs_append, hlocal]
  simp [localProofs, handleLocalProof]

theorem Inv.remoteProof {m : ProofManager} {evs : List ProofManagerEvent} (h : Inv epoch m evs)
    (proof : ProofOfStore) :
    Inv epoch (m.handleRemoteProof proof) (evs ++ [.command (.remoteProof proof)]) := by
  obtain ⟨he, hq, dropped, hlocal, hdrop⟩ := h
  refine ⟨he, ProofQueue.push_inv hq proof false, dropped, ?_, hdrop⟩
  rw [localProofs_append, hlocal]
  simp [localProofs, handleRemoteProof]

theorem handleProposalRequest_eq {m m' : ProofManager} {msg : GetBlockRequest}
    {e : ProofManagerEffect} (h : m.handleProposalRequest msg = .ok (m', e)) :
    ∃ excludedProofs proofs q, msg.filter.excludedProofs = .ok excludedProofs ∧
      m.proofsForConsensus.pullProofs excludedProofs ⟨m.latestLogicalTime.epoch, msg.round⟩
        msg.maxTxns msg.maxBytes = .ok (proofs, q) ∧
      m' = { m with proofsForConsensus := q } ∧ e = .getBlockResponse proofs := by
  simp only [handleProposalRequest, except_bind_eq_ok] at h
  obtain ⟨excludedProofs, hex, ⟨proofs, q⟩, hpull, h⟩ := h
  obtain ⟨rfl, rfl⟩ := Prod.mk.inj (Except.ok.inj h).symm
  exact ⟨excludedProofs, proofs, q, hex, hpull, rfl, rfl⟩

theorem Inv.proposal {m m' : ProofManager} {evs : List ProofManagerEvent} {msg : GetBlockRequest}
    {e : ProofManagerEffect} (h : Inv epoch m evs) (hreq : m.handleProposalRequest msg = .ok (m', e)) :
    Inv epoch m' (evs ++ [.proposal msg]) := by
  obtain ⟨excludedProofs, proofs, q, -, hpull, rfl, -⟩ := handleProposalRequest_eq hreq
  obtain ⟨he, hq, dropped, hlocal, hdrop⟩ := h
  refine ⟨he, ProofQueue.step_inv hq (ProofQueue.step_pullProofs_eq_ok.mpr ⟨proofs, hpull, rfl⟩),
    dropped, ?_, hdrop⟩
  rw [localProofs_append, ProofQueue.pullProofs_localDigestQueue hpull, ← hlocal]
  simp [localProofs]

theorem Inv.commit {m m' : ProofManager} {evs : List ProofManagerEvent}
    {logicalTime : LogicalTime} {digests : List HashValue} (h : Inv epoch m evs)
    (hc : m.commit logicalTime digests = .ok m') :
    Inv epoch m' (evs ++ [.command (.commitNotification logicalTime digests)]) ∧
      m'.remainingLocalProofNum = (localProofs evs).countP fun x =>
        decide (logicalTime ≤ x.2) && ProofQueue.uncommitted m'.proofsForConsensus.digestProof x.1 := by
  obtain ⟨he, hq, dropped, hlocal, hdrop⟩ := h
  simp only [ProofManager.commit, handleCommitNotification, except_bind_eq_ok] at hc
  obtain ⟨m₁, h₁, hc⟩ := hc
  cases hc
  split_ifs at h₁ with hepoch hle
  obtain rfl := (Except.ok.inj h₁).symm
  have hdrop' : ∀ x ∈ dropped, x.2 < logicalTime := fun x hx => lt_of_lt_of_le (hdrop x hx) hle
  refine ⟨⟨hepoch ▸ he, (ProofQueue.markCommitted_inv hq digests).of_eq rfl rfl,
      dropped ++ (m.proofsForConsensus.localDigestQueue.take
        (ProofQueue.numExpired m.proofsForConsensus.localDigestQueue logicalTime)), ?_, ?_⟩,
    ProofQueue.cleanLocalProofs_count_eq hlocal hdrop'⟩
  · rw [localProofs_append, hlocal]
    simp [localProofs]
  · intro x hx
    rcases List.mem_append.mp hx with hx | hx
    · exact hdrop' x hx
    · exact ProofQueue.lt_of_mem_take_numExpired hx

theorem loop_inv : ∀ (evs : List ProofManagerEvent) (m : ProofManager) (backPressure : Bool)
    (pre : List ProofManagerEvent) (m' : ProofManager) (backPressure' : Bool),
    Inv epoch m pre → ProofManagerEvent.command .shutdown ∉ evs →
    (loop m backPressure evs).2 = .ok (m', backPressure') → Inv epoch m' (pre ++ evs)
  | [], _, _, pre, _, _, hinv, _, h => by
    obtain ⟨rfl, -⟩ := Prod.mk.inj (Except.ok.inj h)
    simpa using hinv
  | .proposal msg :: evs, m, backPressure, pre, m', backPressure', hinv, hsd, h => by
    simp only [loop] at h
    split at h
    · rename_i m₁ response hreq
      simpa using loop_inv evs m₁ backPressure _ m' backPressure' (hinv.proposal hreq)
        (mt (List.mem_cons_of_mem _) hsd) h
    · cases h
  | .command .shutdown :: _, _, _, _, _, _, _, hsd, _ => absurd (List.mem_cons_self _ _) hsd
  | .command (.localProof proof) :: evs, m, backPressure, pre, m', backPressure', hinv, hsd, h => by
    dsimp only [loop] at h
    simpa using loop_inv evs _ backPressure _ m' backPressure' (hinv.localProof proof)
      (mt (List.mem_cons_of_mem _) hsd) h
  | .command (.remoteProof proof) :: evs, m, backPressure, pre, m', backPressure', hinv, hsd, h => by
    dsimp only [loop] at h
    simpa using loop_inv evs _ backPressure _ m' backPressure' (hinv.remoteProof proof)
      (mt (List.mem_cons_of_mem _) hsd) h
  | .command (.commitNotification logicalTime digests) :: evs, m, backPressure, pre, m',
      backPressure', hinv, hsd, h => by
    simp only [loop] at h
    split at h
    · rename_i m₁ hc
      split_ifs at h <;>
        simpa using loop_inv evs m₁ _ _ m' backPressure' (hinv.commit hc).1
          (mt (List.mem_cons_of_mem _) hsd) h
    · cases h

end Inv

theorem start_inv {epoch backPressureLocalBatchLimit : Nat} {evs : List ProofManagerEvent}
    (hsd : ProofManagerEvent.command .shutdown ∉ evs) {m : ProofManager}
    (h : (start (new epoch backPressureLocalBatchLimit) evs).2 = .ok m) : Inv epoch m evs := by
  simp only [start] at h
  cases hl : (loop (new epoch backPressureLocalBatchLimit) false evs).2 with
  | error p => rw [hl] at h; cases h
  | ok r =>
    rw [hl] at h
    obtain rfl := Except.ok.inj h
    simpa using loop_inv evs _ false [] r.1 r.2 (new_inv epoch backPressureLocalBatchLimit) hsd hl

/-- After any sequence of events without a shutdown, a commit notification for `logicalTime`
that does not panic sets `remaining_local_proof_num` to the number of `LocalProof` commands, with
multiplicity, whose proof expires no earlier than `logicalTime` and is uncommitted. -/
theorem start_commit_counts_local_proofs (epoch backPressureLocalBatchLimit : Nat)
    (evs : List ProofManagerEvent) (hsd : ProofManagerEvent.command .shutdown ∉ evs)
    (m : ProofManager) (h : (start (new epoch backPressureLocalBatchLimit) evs).2 = .ok m)
    (logicalTime : LogicalTime) (digests : List HashValue) (m' : ProofManager)
    (hc : m.commit logicalTime digests = .ok m') :
    m'.remainingLocalProofNum = (localProofs evs).countP fun x =>
      decide (logicalTime ≤ x.2) && ProofQueue.uncommitted m'.proofsForConsensus.digestProof x.1 :=
  ((start_inv hsd h).commit hc).2

/-- After any sequence of events without a shutdown, a proposal request panics only on an
overflow of the byte or transaction sums or on a `DirectMempool` filter, and its block response
holds proofs with distinct digests, none that the filter excludes, each expiring no earlier than
`(epoch, round)`. -/
theorem start_proposal_safe (epoch backPressureLocalBatchLimit : Nat)
    (evs : List ProofManagerEvent) (hsd : ProofManagerEvent.command .shutdown ∉ evs)
    (m : ProofManager) (h : (start (new epoch backPressureLocalBatchLimit) evs).2 = .ok m)
    (msg : GetBlockRequest) :
    (∀ e, m.handleProposalRequest msg = .error e → e = .addOverflow ∨ msg.filter = .directMempool) ∧
    ∀ m' proofs, m.handleProposalRequest msg = .ok (m', .getBlockResponse proofs) →
      (proofs.map ProofOfStore.digest).Nodup ∧
      ∀ p ∈ proofs, (∀ excludedProofs, msg.filter.excludedProofs = .ok excludedProofs →
        p.digest ∉ excludedProofs) ∧ (⟨epoch, msg.round⟩ : LogicalTime) ≤ p.expiration := by
  have hinv := start_inv hsd h
  refine ⟨fun e he => ?_, fun m' proofs hreq => ?_⟩
  · simp only [handleProposalRequest, except_bind_eq_error] at he
    rcases he with he | ⟨excludedProofs, -, he⟩
    · cases hf : msg.filter <;> rw [hf] at he <;> cases he
      exact .inr rfl
    · rcases he with he | ⟨_, _, he⟩
      · exact .inl (ProofQueue.pullProofs_error hinv.queue he)
      · cases he
  · obtain ⟨excludedProofs, ps, q, hex, hpull, -, he⟩ := handleProposalRequest_eq hreq
    obtain rfl : ps = proofs := (ProofManagerEffect.getBlockResponse.inj he).symm
    refine ⟨ProofQueue.pullProofs_digests_nodup hinv.queue hpull, fun p hp => ?_⟩
    obtain ⟨_, _, _, _, hnot, _, hle⟩ := ProofQueue.pullProofs_mem hinv.queue hpull hp
    refine ⟨fun excludedProofs' hex' => ?_, hinv.epoch_eq ▸ hle⟩
    rw [hex] at hex'
    exact (Except.ok.inj hex') ▸ hnot

theorem proposal_safe_after_local_proof :
    ∃ m, (start (new 1 0) [.command (.localProof ⟨⟨1, ⟨1, 10⟩, 1, 1⟩⟩)]).2 = .ok m ∧
      (∀ e, m.handleProposalRequest ⟨3, 100, 100, .empty⟩ = .error e →
        e = .addOverflow ∨ PayloadFilter.empty = .directMempool) ∧
      ∀ m' proofs, m.handleProposalRequest ⟨3, 100, 100, .empty⟩ = .ok (m', .getBlockResponse proofs) →
        (proofs.map ProofOfStore.digest).Nodup ∧
        ∀ p ∈ proofs, (∀ excludedProofs, PayloadFilter.empty.excludedProofs = .ok excludedProofs →
          p.digest ∉ excludedProofs) ∧ (⟨1, 3⟩ : LogicalTime) ≤ p.expiration :=
  ⟨_, rfl, start_proposal_safe 1 0 [.command (.localProof ⟨⟨1, ⟨1, 10⟩, 1, 1⟩⟩)] (by decide) _ rfl
    ⟨3, 100, 100, .empty⟩⟩

theorem commit_counts_local_proofs_twice :
    ∃ m m', (start (new 1 0) [.command (.localProof ⟨⟨1, ⟨1, 10⟩, 1, 1⟩⟩),
        .command (.localProof ⟨⟨1, ⟨1, 10⟩, 1, 1⟩⟩), .command (.remoteProof ⟨⟨2, ⟨1, 10⟩, 1, 1⟩⟩)]).2 =
        .ok m ∧ m.commit ⟨1, 5⟩ [] = .ok m' ∧ m'.remainingLocalProofNum = 2 ∧
      m'.remainingLocalProofNum = (localProofs [.command (.localProof ⟨⟨1, ⟨1, 10⟩, 1, 1⟩⟩),
        .command (.localProof ⟨⟨1, ⟨1, 10⟩, 1, 1⟩⟩),
        .command (.remoteProof ⟨⟨2, ⟨1, 10⟩, 1, 1⟩⟩)]).countP fun x =>
          decide (⟨1, 5⟩ ≤ x.2) && ProofQueue.uncommitted m'.proofsForConsensus.digestProof x.1 :=
  ⟨_, _, rfl, rfl, rfl, start_commit_counts_local_proofs 1 0 [.command (.localProof ⟨⟨1, ⟨1, 10⟩, 1, 1⟩⟩),
    .command (.localProof ⟨⟨1, ⟨1, 10⟩, 1, 1⟩⟩), .command (.remoteProof ⟨⟨2, ⟨1, 10⟩, 1, 1⟩⟩)]
    (by decide) _ rfl ⟨1, 5⟩ [] _ rfl⟩

/-! ## Backpressure -/

theorem commit_backPressureLocalBatchLimit {m m' : ProofManager} {logicalTime : LogicalTime}
    {digests : List HashValue} (hc : m.commit logicalTime digests = .ok m') :
    m'.backPressureLocalBatchLimit = m.backPressureLocalBatchLimit := by
  simp only [ProofManager.commit, handleCommitNotification, except_bind_eq_ok] at hc
  obtain ⟨m₁, h₁, hc⟩ := hc
  cases hc
  split_ifs at h₁
  obtain rfl := (Except.ok.inj h₁).symm
  rfl

theorem getLastD_backPressureSignals_append (es es' : List ProofManagerEffect) (b : Bool) :
    (backPressureSignals (es ++ es')).getLastD b =
      (backPressureSignals es').getLastD ((backPressureSignals es).getLastD b) := by
  simp only [backPressureSignals, List.filterMap_append, List.getLastD_eq_getLast?,
    List.getLast?_append]
  cases (List.filterMap _ es').getLast? <;> rfl

/-- One event other than `Shutdown`, whatever follows it: it panics, or it sends `es` and the loop
goes on from `(m₁, b₁)`, with the limit unchanged, `back_pressure` still tracking
`qs_back_pressure`, and `b₁` the last value `es` signals. -/
theorem loop_cons (m : ProofManager) (b : Bool) {ev : ProofManagerEvent}
    (hev : ev ≠ .command .shutdown) :
    (∃ p, ∀ evs, loop m b (ev :: evs) = ([], .error p)) ∨
    ∃ m₁ b₁ es, (∀ evs, loop m b (ev :: evs) = (es ++ (loop m₁ b₁ evs).1, (loop m₁ b₁ evs).2)) ∧
      m₁.backPressureLocalBatchLimit = m.backPressureLocalBatchLimit ∧
      (b = m.qsBackPressure → b₁ = m₁.qsBackPressure) ∧ (backPressureSignals es).getLastD b = b₁ := by
  match ev with
  | .proposal msg =>
    cases hreq : m.handleProposalRequest msg with
    | error p => exact .inl ⟨p, fun _ => by simp only [loop, hreq]⟩
    | ok r =>
      obtain ⟨m₁, e⟩ := r
      obtain ⟨_, ps, q, -, -, rfl, rfl⟩ := handleProposalRequest_eq hreq
      exact .inr ⟨{ m with proofsForConsensus := q }, b, [.getBlockResponse ps],
        fun _ => by simp only [loop, hreq]; rfl, rfl, id, rfl⟩
  | .command .shutdown => exact absurd rfl hev
  | .command (.localProof proof) => exact .inr ⟨_, b, [_], fun _ => rfl, rfl, id, rfl⟩
  | .command (.remoteProof proof) => exact .inr ⟨_, b, [], fun _ => rfl, rfl, id, rfl⟩
  | .command (.commitNotification logicalTime digests) =>
    cases hc : m.commit logicalTime digests with
    | error p => exact .inl ⟨p, fun _ => by simp only [loop, hc]⟩
    | ok m₁ =>
      have hlim := commit_backPressureLocalBatchLimit hc
      by_cases hne : m₁.qsBackPressure ≠ b
      · exact .inr ⟨m₁, _, [.backPressure m₁.qsBackPressure],
          fun _ => by simp only [loop, hc, if_pos hne]; rfl, hlim, fun _ => rfl, rfl⟩
      · exact .inr ⟨m₁, b, [], fun _ => by simp only [loop, hc, if_neg hne]; rfl, hlim,
          fun _ => (not_not.mp hne).symm, rfl⟩

theorem loop_backPressure_eq : ∀ (evs : List ProofManagerEvent) (m : ProofManager) (b : Bool),
    b = m.qsBackPressure → ∀ m' b', (loop m b evs).2 = .ok (m', b') →
      m'.backPressureLocalBatchLimit = m.backPressureLocalBatchLimit ∧ b' = m'.qsBackPressure ∧
        (backPressureSignals (loop m b evs).1).getLastD b = b'
  | [], m, b, hb, m', b', h => by
    obtain ⟨rfl, rfl⟩ := Prod.mk.inj (Except.ok.inj h)
    exact ⟨rfl, hb, rfl⟩
  | ev :: evs, m, b, hb, m', b', h => by
    by_cases hev : ev = .command .shutdown
    · subst hev
      obtain ⟨rfl, rfl⟩ := Prod.mk.inj (Except.ok.inj h)
      exact ⟨rfl, hb, rfl⟩
    rcases loop_cons m b hev with ⟨p, hp⟩ | ⟨m₁, b₁, es, heq, hlim, hb₁, hlast⟩
    · rw [hp] at h; cases h
    · rw [heq] at h ⊢
      obtain ⟨h₁, h₂, h₃⟩ := loop_backPressure_eq evs m₁ b₁ (hb₁ hb) m' b' h
      exact ⟨h₁.trans hlim, h₂, by rw [getLastD_backPressureSignals_append, hlast, h₃]⟩

theorem loop_append_eq_ok {evs' : List ProofManagerEvent} :
    ∀ (evs : List ProofManagerEvent) (m : ProofManager) (b : Bool) (r : ProofManager × Bool),
      ProofManagerEvent.command .shutdown ∉ evs → (loop m b (evs ++ evs')).2 = .ok r →
      ∃ m₁ b₁, (loop m b evs).2 = .ok (m₁, b₁) ∧ (loop m₁ b₁ evs').2 = .ok r ∧
        (loop m b (evs ++ evs')).1 = (loop m b evs).1 ++ (loop m₁ b₁ evs').1
  | [], m, b, _, _, h => ⟨m, b, rfl, h, rfl⟩
  | ev :: evs, m, b, r, hsd, h => by
    rcases loop_cons m b (fun he => hsd (he ▸ List.mem_cons_self ev evs)) with
      ⟨p, hp⟩ | ⟨m₁, b₁, es, heq, -, -, -⟩
    · rw [List.cons_append, hp] at h; cases h
    · rw [List.cons_append, heq] at h ⊢
      rw [heq]
      obtain ⟨m₂, b₂, h₁, h₂, h₃⟩ := loop_append_eq_ok evs m₁ b₁ r (mt (List.mem_cons_of_mem _) hsd) h
      exact ⟨m₂, b₂, h₁, h₂, by rw [h₃, List.append_assoc]⟩

/-- After any sequence of events without a shutdown, a commit notification for `logicalTime`
that does not panic leaves as the last backpressure value sent to the proposer (`false` if none
was sent) whether the local proofs that expire no earlier than `logicalTime` and are uncommitted,
counted with multiplicity, exceed `back_pressure_local_batch_limit`. -/
theorem start_backPressure_after_commit (epoch backPressureLocalBatchLimit : Nat)
    (evs : List ProofManagerEvent) (hsd : ProofManagerEvent.command .shutdown ∉ evs)
    (logicalTime : LogicalTime) (digests : List HashValue) (m' : ProofManager)
    (h : (start (new epoch backPressureLocalBatchLimit)
      (evs ++ [.command (.commitNotification logicalTime digests)])).2 = .ok m') :
    (backPressureSignals (start (new epoch backPressureLocalBatchLimit)
        (evs ++ [.command (.commitNotification logicalTime digests)])).1).getLastD false =
      decide (backPressureLocalBatchLimit < (localProofs evs).countP fun x =>
        decide (logicalTime ≤ x.2) &&
          ProofQueue.uncommitted m'.proofsForConsensus.digestProof x.1) := by
  obtain ⟨⟨m'', b'⟩, hl, rfl⟩ := except_map_eq_ok.mp h
  obtain ⟨hlim, hb', hlast⟩ :=
    loop_backPressure_eq _ (new epoch backPressureLocalBatchLimit) false rfl _ _ hl
  obtain ⟨m₁, b₁, h₁, h₂, -⟩ := loop_append_eq_ok evs _ false _ hsd hl
  have hinv : Inv epoch m₁ evs := by
    simpa using loop_inv evs _ false [] m₁ b₁ (new_inv epoch backPressureLocalBatchLimit) hsd h₁
  have hc : m₁.commit logicalTime digests = .ok m'' := by
    cases hc : m₁.commit logicalTime digests with
    | error p => simp [loop, hc] at h₂
    | ok m₂ =>
      simp only [loop, hc] at h₂
      split_ifs at h₂ <;> (obtain ⟨rfl, -⟩ := Prod.mk.inj (Except.ok.inj h₂); rfl)
  show (backPressureSignals (loop _ false _).1).getLastD false = _
  rw [hlast, hb', qsBackPressure, hlim, (hinv.commit hc).2]
  rfl

/-- Limit 1: two local proofs raise backpressure at the first commit, and committing one of them
lowers it at the second. -/
theorem start_backPressure_raised_then_lowered :
    ∃ m', (start (new 1 1) ([.command (.localProof ⟨⟨1, ⟨1, 10⟩, 1, 1⟩⟩),
        .command (.localProof ⟨⟨2, ⟨1, 10⟩, 1, 1⟩⟩), .command (.commitNotification ⟨1, 2⟩ [])] ++
        [.command (.commitNotification ⟨1, 3⟩ [1])])).2 = .ok m' ∧
      backPressureSignals (start (new 1 1) ([.command (.localProof ⟨⟨1, ⟨1, 10⟩, 1, 1⟩⟩),
        .command (.localProof ⟨⟨2, ⟨1, 10⟩, 1, 1⟩⟩), .command (.commitNotification ⟨1, 2⟩ [])] ++
        [.command (.commitNotification ⟨1, 3⟩ [1])])).1 = [true, false] ∧
      (backPressureSignals (start (new 1 1) ([.command (.localProof ⟨⟨1, ⟨1, 10⟩, 1, 1⟩⟩),
        .command (.localProof ⟨⟨2, ⟨1, 10⟩, 1, 1⟩⟩), .command (.commitNotification ⟨1, 2⟩ [])] ++
        [.command (.commitNotification ⟨1, 3⟩ [1])])).1).getLastD false =
        decide (1 < (localProofs [.command (.localProof ⟨⟨1, ⟨1, 10⟩, 1, 1⟩⟩),
          .command (.localProof ⟨⟨2, ⟨1, 10⟩, 1, 1⟩⟩),
          .command (.commitNotification ⟨1, 2⟩ [])]).countP fun x =>
            decide (⟨1, 3⟩ ≤ x.2) && ProofQueue.uncommitted m'.proofsForConsensus.digestProof x.1) :=
  ⟨_, rfl, rfl, start_backPressure_after_commit 1 1 [.command (.localProof ⟨⟨1, ⟨1, 10⟩, 1, 1⟩⟩),
    .command (.localProof ⟨⟨2, ⟨1, 10⟩, 1, 1⟩⟩), .command (.commitNotification ⟨1, 2⟩ [])]
    (by decide) ⟨1, 3⟩ [1] _ rfl⟩

end ProofManager

end QuorumStore
