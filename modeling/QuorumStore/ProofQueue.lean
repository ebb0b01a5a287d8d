import QuorumStore.Types

set_option autoImplicit false

/-!
# `ProofQueue`

The proofs of store that `ProofManager` holds for the proposer (`utils.rs`). `digest_queue` lists
every known proof's digest with the expiration it was first pushed with; `local_digest_queue` does
the same for locally authored proofs; `digest_proof` maps a digest to its proof, or to `None` once
it is committed. The `HashMap` is a function into `Option`: `none` is a missing key.

The metrics `pull_proofs` records (expired counts, block sizes) change neither the state nor the
result and are left out.
-/

namespace QuorumStore

structure ProofQueue where
  digestQueue : List (HashValue × LogicalTime)
  localDigestQueue : List (HashValue × LogicalTime)
  digestProof : HashValue → Option (Option ProofOfStore)

namespace ProofQueue

def new : ProofQueue := ⟨[], [], fun _ => none⟩

/-- The entry `push` finds for a digest is replaced only by a proof that expires later. -/
def replaces (entry : Option ProofOfStore) (proof : ProofOfStore) : Bool :=
  match entry with
  | some existing => decide (existing.expiration < proof.expiration)
  | none => false

def push (q : ProofQueue) (proof : ProofOfStore) (isLocal : Bool) : ProofQueue :=
  let q : ProofQueue :=
    match q.digestProof proof.digest with
    | none =>
      { q with
        digestQueue := q.digestQueue ++ [(proof.digest, proof.expiration)]
        digestProof := Function.update q.digestProof proof.digest (some (some proof)) }
    | some entry =>
      if replaces entry proof then
        { q with digestProof := Function.update q.digestProof proof.digest (some (some proof)) }
      else q
  if isLocal then
    { q with localDigestQueue := q.localDigestQueue ++ [(proof.digest, proof.expiration)] }
  else q

/-- The drain loop of `pull_proofs`: each drained digest's entry is read with
`expect("Entry for unexpired digest must exist")`, then removed under `assert_some!`. -/
def drainExpired (digestProof : HashValue → Option (Option ProofOfStore)) :
    List (HashValue × LogicalTime) → Except Panic (HashValue → Option (Option ProofOfStore))
  | [] => .ok digestProof
  | (digest, _) :: rest =>
    match digestProof digest with
    | none => .error (.expect "Entry for unexpired digest must exist")
    | some _ =>
      match digestProof digest with
      | none => .error .assertSome
      | some _ => drainExpired (Function.update digestProof digest none) rest

/-- The selection loop of `pull_proofs`, from the accumulators `cur_bytes` and `cur_txns`: it
skips expired, excluded and committed entries and stops at the first proof over budget. -/
def collect (excludedProofs : List HashValue) (currentTime : LogicalTime) (maxTxns maxBytes : Nat)
    (digestProof : HashValue → Option (Option ProofOfStore)) :
    List (HashValue × LogicalTime) → Nat → Nat → Except Panic (List ProofOfStore)
  | [], _, _ => .ok []
  | (digest, expiration) :: rest, curBytes, curTxns =>
    if currentTime ≤ expiration ∧ digest ∉ excludedProofs then
      match digestProof digest with
      | none => .error (.expect "Entry for unexpired digest must exist")
      | some none => collect excludedProofs currentTime maxTxns maxBytes digestProof rest curBytes curTxns
      | some (some proof) => do
        let curBytes ← addChecked curBytes proof.info.numBytes
        let curTxns ← addChecked curTxns proof.info.numTxns
        if maxBytes < curBytes ∨ maxTxns < curTxns then
          pure []
        else
          let ret ← collect excludedProofs currentTime maxTxns maxBytes digestProof rest curBytes curTxns
          pure (proof :: ret)
    else collect excludedProofs currentTime maxTxns maxBytes digestProof rest curBytes curTxns

def numExpired (queue : List (HashValue × LogicalTime)) (currentTime : LogicalTime) : Nat :=
  (queue.takeWhile fun entry => entry.2 < currentTime).length

def pullProofs (q : ProofQueue) (excludedProofs : List HashValue) (currentTime : LogicalTime)
    (maxTxns maxBytes : Nat) : Except Panic (List ProofOfStore × ProofQueue) := do
  let n := numExpired q.digestQueue currentTime
  let digestProof ← drainExpired q.digestProof (q.digestQueue.take n)
  let digestQueue := q.digestQueue.drop n
  let ret ← collect excludedProofs currentTime maxTxns maxBytes digestProof digestQueue 0 0
  pure (ret, { q with digestQueue, digestProof })

def uncommitted (digestProof : HashValue → Option (Option ProofOfStore)) (digest : HashValue) :
    Bool :=
  match digestProof digest with
  | some (some _) => true
  | _ => false

def cleanLocalProofs (q : ProofQueue) (currentTime : LogicalTime) : Nat × ProofQueue :=
  let localDigestQueue := q.localDigestQueue.drop (numExpired q.localDigestQueue currentTime)
  (localDigestQueue.countP fun entry =>
      decide (currentTime ≤ entry.2) && uncommitted q.digestProof entry.1,
    { q with localDigestQueue })

def markCommitted (q : ProofQueue) (digests : List HashValue) : ProofQueue :=
  { q with
    digestProof := digests.foldl (fun digestProof digest =>
      Function.update digestProof digest (some none)) q.digestProof }

inductive Op
  | push (proof : ProofOfStore) (isLocal : Bool)
  | markCommitted (digests : List HashValue)
  | pullProofs (excludedProofs : List HashValue) (currentTime : LogicalTime) (maxTxns maxBytes : Nat)
  | cleanLocalProofs (currentTime : LogicalTime)
  deriving DecidableEq, Repr

inductive Output
  | unit
  | proofs (ps : List ProofOfStore)
  | count (n : Nat)
  deriving DecidableEq, Repr

def step (q : ProofQueue) : Op → Except Panic (ProofQueue × Output)
  | .push proof isLocal => .ok (q.push proof isLocal, .unit)
  | .markCommitted digests => .ok (q.markCommitted digests, .unit)
  | .pullProofs excludedProofs currentTime maxTxns maxBytes =>
    (fun r => (r.2, .proofs r.1)) <$> q.pullProofs excludedProofs currentTime maxTxns maxBytes
  | .cleanLocalProofs currentTime =>
    let r := q.cleanLocalProofs currentTime
    .ok (r.2, .count r.1)

theorem step_pullProofs_eq_ok {q q' : ProofQueue} {excludedProofs : List HashValue}
    {t : LogicalTime} {maxTxns maxBytes : Nat} {out : Output} :
    q.step (.pullProofs excludedProofs t maxTxns maxBytes) = .ok (q', out) ↔
      ∃ ps, q.pullProofs excludedProofs t maxTxns maxBytes = .ok (ps, q') ∧ out = .proofs ps := by
  simp only [step, except_map_eq_ok, Prod.exists, Prod.mk.injEq]
  exact ⟨fun ⟨ps, _, h, hq, ho⟩ => ⟨ps, hq ▸ h, ho.symm⟩,
    fun ⟨ps, h, ho⟩ => ⟨ps, q', h, rfl, ho.symm⟩⟩

def run (q : ProofQueue) : List Op → Except Panic (ProofQueue × List Output)
  | [] => .ok (q, [])
  | op :: ops => do
    let (q, out) ← q.step op
    let (q, outs) ← q.run ops
    pure (q, out :: outs)

/-- The states some sequence of calls reaches from `ProofQueue::new()`. -/
inductive Reachable : ProofQueue → Prop
  | new : Reachable new
  | step {q q' : ProofQueue} {op : Op} {out : Output} :
      Reachable q → q.step op = .ok (q', out) → Reachable q'

/-! ## Runs -/

theorem run_cons_eq_ok {q q' : ProofQueue} {op : Op} {ops : List Op} {outs : List Output} :
    q.run (op :: ops) = .ok (q', outs) ↔
      ∃ q₁ out outs', q.step op = .ok (q₁, out) ∧ q₁.run ops = .ok (q', outs') ∧
        outs = out :: outs' := by
  simp only [run, except_bind_eq_ok]
  constructor
  · rintro ⟨⟨q₁, out⟩, h₁, ⟨q₂, outs'⟩, h₂, h⟩
    cases h
    exact ⟨q₁, out, outs', h₁, h₂, rfl⟩
  · rintro ⟨q₁, out, outs', h₁, h₂, rfl⟩
    exact ⟨_, h₁, _, h₂, rfl⟩

/-- The run lemma of every invariant of the queue: a property `P` of the calls so far and the
queue, kept by each call that `R` allows with `Q` of its output, holds after a run of such calls,
with `Q` of every output. -/
theorem run_keeps {P : List Op → ProofQueue → Prop} {R : Op → Prop} {Q : Output → Prop}
    (hstep : ∀ {pre q q' op out}, P pre q → R op → q.step op = .ok (q', out) →
      P (pre ++ [op]) q' ∧ Q out) (ops : List Op) :
    ∀ {pre : List Op} {q q' : ProofQueue} {outs : List Output}, P pre q → (∀ op ∈ ops, R op) →
      q.run ops = .ok (q', outs) → P (pre ++ ops) q' ∧ ∀ out ∈ outs, Q out := by
  induction ops with
  | nil =>
    intro pre q q' outs h _ hr
    cases hr
    exact ⟨by simpa using h, by simp⟩
  | cons op ops ih =>
    intro pre q q' outs h hR hr
    obtain ⟨q₁, out, outs', h₁, h₂, rfl⟩ := run_cons_eq_ok.mp hr
    obtain ⟨hP₁, hQ⟩ := hstep h (hR op (List.mem_cons_self _ _)) h₁
    obtain ⟨hP₂, hQs⟩ := ih hP₁ (fun o ho => hR o (List.mem_cons_of_mem _ ho)) h₂
    exact ⟨by simpa using hP₂, List.forall_mem_cons.mpr ⟨hQ, hQs⟩⟩

theorem run_keeps_state {P : ProofQueue → Prop} {R : Op → Prop} {Q : Output → Prop}
    (hstep : ∀ {q q' op out}, P q → R op → q.step op = .ok (q', out) → P q' ∧ Q out)
    (ops : List Op) {q q' : ProofQueue} {outs : List Output} (h : P q) (hR : ∀ op ∈ ops, R op)
    (hr : q.run ops = .ok (q', outs)) : P q' ∧ ∀ out ∈ outs, Q out :=
  @run_keeps (fun _ q => P q) R Q (fun h hR hs => hstep h hR hs) ops [] q q' outs h hR hr

theorem Reachable.run {q q' : ProofQueue} {ops : List Op} {outs : List Output} (hq : Reachable q)
    (hr : q.run ops = .ok (q', outs)) : Reachable q' :=
  (@run_keeps_state Reachable (fun _ => True) (fun _ => True)
    (fun h _ hs => ⟨.step h hs, trivial⟩) ops q q' outs hq (fun _ _ => trivial) hr).1

@[simp] theorem push_digestQueue (q : ProofQueue) (proof : ProofOfStore) (isLocal : Bool) :
    (q.push proof isLocal).digestQueue =
      if q.digestProof proof.digest = none then
        q.digestQueue ++ [(proof.digest, proof.expiration)]
      else q.digestQueue := by
  unfold push
  cases h : q.digestProof proof.digest <;> cases isLocal <;> simp [h] <;> split <;> rfl

/-- A push stores its proof unless a committed or later-expiring entry is there. -/
def admits (entry : Option (Option ProofOfStore)) (proof : ProofOfStore) : Bool :=
  match entry with
  | none => true
  | some entry => replaces entry proof

@[simp] theorem push_digestProof (q : ProofQueue) (proof : ProofOfStore) (isLocal : Bool) :
    (q.push proof isLocal).digestProof =
      if admits (q.digestProof proof.digest) proof then
        Function.update q.digestProof proof.digest (some (some proof))
      else q.digestProof := by
  unfold push
  cases h : q.digestProof proof.digest <;> cases isLocal <;> simp [h, admits] <;> split <;> rfl

@[simp] theorem push_localDigestQueue (q : ProofQueue) (proof : ProofOfStore) (isLocal : Bool) :
    (q.push proof isLocal).localDigestQueue =
      if isLocal then q.localDigestQueue ++ [(proof.digest, proof.expiration)]
      else q.localDigestQueue := by
  unfold push
  cases h : q.digestProof proof.digest <;> cases isLocal <;> simp [h] <;> split <;> rfl

@[simp] theorem markCommitted_digestQueue (q : ProofQueue) (digests : List HashValue) :
    (q.markCommitted digests).digestQueue = q.digestQueue := rfl

@[simp] theorem markCommitted_localDigestQueue (q : ProofQueue) (digests : List HashValue) :
    (q.markCommitted digests).localDigestQueue = q.localDigestQueue := rfl

theorem foldl_commit (digests : List HashValue) (m : HashValue → Option (Option ProofOfStore))
    (d : HashValue) :
    digests.foldl (fun m digest => Function.update m digest (some none)) m d =
      if d ∈ digests then some none else m d := by
  induction digests generalizing m with
  | nil => simp
  | cons digest digests ih =>
    rw [List.foldl_cons, ih]
    by_cases h : d = digest
    · subst h; simp
    · simp [h]

@[simp] theorem markCommitted_digestProof (q : ProofQueue) (digests : List HashValue)
    (d : HashValue) :
    (q.markCommitted digests).digestProof d = if d ∈ digests then some none else q.digestProof d :=
  foldl_commit digests q.digestProof d

@[simp] theorem cleanLocalProofs_digestQueue (q : ProofQueue) (t : LogicalTime) :
    (q.cleanLocalProofs t).2.digestQueue = q.digestQueue := rfl

@[simp] theorem cleanLocalProofs_digestProof (q : ProofQueue) (t : LogicalTime) :
    (q.cleanLocalProofs t).2.digestProof = q.digestProof := rfl

@[simp] theorem cleanLocalProofs_localDigestQueue (q : ProofQueue) (t : LogicalTime) :
    (q.cleanLocalProofs t).2.localDigestQueue =
      q.localDigestQueue.drop (numExpired q.localDigestQueue t) := rfl

theorem pullProofs_localDigestQueue {q q' : ProofQueue} {excludedProofs : List HashValue}
    {t : LogicalTime} {maxTxns maxBytes : Nat} {ps : List ProofOfStore}
    (h : q.pullProofs excludedProofs t maxTxns maxBytes = .ok (ps, q')) :
    q'.localDigestQueue = q.localDigestQueue := by
  simp only [pullProofs, except_bind_eq_ok] at h
  obtain ⟨_, -, _, -, h⟩ := h
  cases h
  rfl

theorem drainExpired_eq (m : HashValue → Option (Option ProofOfStore))
    (l : List (HashValue × LogicalTime)) (hnd : (l.map Prod.fst).Nodup)
    (hp : ∀ x ∈ l, m x.1 ≠ none) :
    drainExpired m l = .ok fun d => if d ∈ l.map Prod.fst then none else m d := by
  induction l generalizing m with
  | nil => simp [drainExpired]
  | cons x l ih =>
    obtain ⟨digest, expiration⟩ := x
    simp only [List.map_cons, List.nodup_cons] at hnd
    obtain ⟨v, hv⟩ := Option.ne_none_iff_exists'.mp (hp _ (List.mem_cons_self _ _))
    have hrest : ∀ x ∈ l, Function.update m digest none x.1 ≠ none := by
      intro x hx
      have hne : x.1 ≠ digest := fun h => hnd.1 (h ▸ List.mem_map_of_mem Prod.fst hx)
      simpa [Function.update_noteq hne] using hp x (List.mem_cons_of_mem _ hx)
    simp only [drainExpired, hv, ih _ hnd.2 hrest, Except.ok.injEq]
    funext d
    by_cases h : d = digest
    · subst h; simp [hnd.1]
    · simp only [List.map_cons, List.mem_cons, h, false_or, Function.update_noteq h]

theorem lt_of_mem_take_numExpired {queue : List (HashValue × LogicalTime)} {t : LogicalTime}
    {x : HashValue × LogicalTime} (hx : x ∈ queue.take (numExpired queue t)) : x.2 < t := by
  rw [numExpired, ← List.prefix_iff_eq_take.mp (List.takeWhile_prefix _)] at hx
  simpa using List.mem_takeWhile_imp hx

theorem not_mem_take_of_mem_drop {queue : List (HashValue × LogicalTime)} {n : Nat}
    (hnd : (queue.map Prod.fst).Nodup) {x : HashValue × LogicalTime} (hx : x ∈ queue.drop n) :
    x.1 ∉ (queue.take n).map Prod.fst := by
  rw [← List.take_append_drop n queue, List.map_append, List.nodup_append] at hnd
  exact fun h => hnd.2.2 h (List.mem_map_of_mem Prod.fst hx)

def remaining (q : ProofQueue) (t : LogicalTime) : List (HashValue × LogicalTime) :=
  q.digestQueue.drop (numExpired q.digestQueue t)

def drained (q : ProofQueue) (t : LogicalTime) : HashValue → Option (Option ProofOfStore) :=
  fun d => if d ∈ (q.digestQueue.take (numExpired q.digestQueue t)).map Prod.fst then none
    else q.digestProof d

theorem pullProofs_eq (q : ProofQueue) (excludedProofs : List HashValue) (t : LogicalTime)
    (maxTxns maxBytes : Nat) (hnd : (q.digestQueue.map Prod.fst).Nodup)
    (hp : ∀ x ∈ q.digestQueue, q.digestProof x.1 ≠ none) :
    q.pullProofs excludedProofs t maxTxns maxBytes =
      collect excludedProofs t maxTxns maxBytes (q.drained t) (q.remaining t) 0 0 >>= fun ret =>
        pure (ret, { q with digestQueue := q.remaining t, digestProof := q.drained t }) := by
  have hnd' : ((q.digestQueue.take (numExpired q.digestQueue t)).map Prod.fst).Nodup := by
    rw [List.map_take]; exact hnd.sublist (List.take_sublist _ _)
  rw [pullProofs, drainExpired_eq _ _ hnd' fun x hx => hp x (List.mem_of_mem_take hx)]
  rfl

end ProofQueue

end QuorumStore
