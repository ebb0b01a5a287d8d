import QuorumStore.Types

set_option autoImplicit false

/-!
# `BatchBuilder`

The generator's accumulator for the batch in progress (`utils.rs`). It accepts a transaction
while the batch stays within `max_txns` transactions and `max_bytes` serialized bytes,
`take_serialized_txns` hands the accepted bytes over as a fragment, and `take_summaries` closes
the batch. Over any run, `summaries` lists the transactions accepted since the last
`take_summaries`, their bytes are the fragments taken since then followed by `data`, and the
counters agree with both and stay within the limits.
-/

namespace QuorumStore

/-- Modelled from the spec: what `BatchBuilder` reads of a `SignedTransaction`, its sender, its
sequence number and its serialized bytes. -/
structure SignedTransaction where
  sender : Nat
  sequenceNumber : Nat
  bytes : List UInt8
  deriving DecidableEq, Repr

structure TransactionSummary where
  sender : Nat
  sequenceNumber : Nat
  deriving DecidableEq, Repr

def SignedTransaction.summary (txn : SignedTransaction) : TransactionSummary :=
  ⟨txn.sender, txn.sequenceNumber⟩

/-- Modelled from the spec: `SerializedTransaction::from_signed_txn`, the transaction's bytes. -/
def SerializedTransaction.fromSignedTxn (txn : SignedTransaction) : SerializedTransaction :=
  ⟨txn.bytes⟩

structure BatchBuilder where
  id : BatchId
  summaries : List TransactionSummary
  data : List SerializedTransaction
  numTxns : Nat
  maxTxns : Nat
  numBytes : Nat
  maxBytes : Nat
  deriving DecidableEq, Repr

namespace BatchBuilder

def new (batchId : BatchId) (maxTxns maxBytes : Nat) : BatchBuilder :=
  ⟨batchId, [], [], 0, maxTxns, 0, maxBytes⟩

def appendTransaction (b : BatchBuilder) (txn : SignedTransaction) :
    Except Panic (Bool × BatchBuilder) := do
  let serializedTxn := SerializedTransaction.fromSignedTxn txn
  let total ← addChecked b.numBytes serializedTxn.len
  if total ≤ b.maxBytes ∧ b.numTxns < b.maxTxns then
    let numTxns ← addChecked b.numTxns 1
    let numBytes ← addChecked b.numBytes serializedTxn.len
    pure (true, { b with
      numTxns, numBytes
      summaries := b.summaries ++ [txn.summary]
      data := b.data ++ [serializedTxn] })
  else
    pure (false, b)

def takeSerializedTxns (b : BatchBuilder) : List SerializedTransaction × BatchBuilder :=
  (b.data, { b with data := [] })

def takeSummaries (b : BatchBuilder) : Except Panic (List TransactionSummary × BatchBuilder) :=
  if b.data = [] then
    .ok (b.summaries, { b with id := b.id.increment, numBytes := 0, numTxns := 0, summaries := [] })
  else .error (.assert "self.data.is_empty()")

inductive Op
  | appendTransaction (txn : SignedTransaction)
  | takeSerializedTxns
  | takeSummaries
  deriving DecidableEq, Repr

inductive Output
  | appended (accepted : Bool)
  | serialized (txns : List SerializedTransaction)
  | summaries (summaries : List TransactionSummary)
  deriving DecidableEq, Repr

def step (b : BatchBuilder) : Op → Except Panic (BatchBuilder × Output)
  | .appendTransaction txn => (fun r => (r.2, .appended r.1)) <$> b.appendTransaction txn
  | .takeSerializedTxns => .ok (b.takeSerializedTxns.2, .serialized b.takeSerializedTxns.1)
  | .takeSummaries => (fun r => (r.2, .summaries r.1)) <$> b.takeSummaries

def run (b : BatchBuilder) : List Op → Except Panic (BatchBuilder × List (Op × Output))
  | [] => .ok (b, [])
  | op :: ops => do
    let (b, out) ← b.step op
    let (b, trace) ← b.run ops
    pure (b, (op, out) :: trace)

def sinceLastTake (trace : List (Op × Output)) : List (Op × Output) :=
  (trace.reverse.takeWhile fun e => e.1 != .takeSummaries).reverse

def accepted (trace : List (Op × Output)) : List SignedTransaction :=
  trace.filterMap fun
    | (.appendTransaction txn, .appended true) => some txn
    | _ => none

def taken (trace : List (Op × Output)) : List SerializedTransaction :=
  (trace.filterMap fun
    | (_, .serialized txns) => some txns
    | _ => none).flatten

/-- The builder agrees with the calls made since the last `take_summaries`. -/
structure Inv (maxTxns maxBytes : Nat) (b : BatchBuilder) (since : List (Op × Output)) : Prop where
  max_txns : b.maxTxns = maxTxns
  max_bytes : b.maxBytes = maxBytes
  num_txns : b.numTxns = b.summaries.length
  txns_le : b.numTxns ≤ maxTxns
  bytes_le : b.numBytes ≤ maxBytes
  summaries : b.summaries = (accepted since).map SignedTransaction.summary
  serialized : (accepted since).map SerializedTransaction.fromSignedTxn = taken since ++ b.data
  num_bytes : ((taken since ++ b.data).map SerializedTransaction.len).sum = b.numBytes

theorem sinceLastTake_snoc (trace : List (Op × Output)) (e : Op × Output) :
    sinceLastTake (trace ++ [e]) =
      if e.1 = .takeSummaries then [] else sinceLastTake trace ++ [e] := by
  by_cases h : e.1 = .takeSummaries <;> simp [sinceLastTake, List.takeWhile_cons, h]

@[simp] theorem accepted_append (trace trace' : List (Op × Output)) :
    accepted (trace ++ trace') = accepted trace ++ accepted trace' := List.filterMap_append _ _ _

@[simp] theorem taken_append (trace trace' : List (Op × Output)) :
    taken (trace ++ trace') = taken trace ++ taken trace' := by
  simp [taken, List.filterMap_append]

@[simp] theorem accepted_appended (txn : SignedTransaction) (acc : Bool) :
    accepted [(.appendTransaction txn, .appended acc)] = if acc then [txn] else [] := by
  cases acc <;> rfl

@[simp] theorem taken_appended (txn : SignedTransaction) (acc : Bool) :
    taken [(.appendTransaction txn, .appended acc)] = [] := rfl

@[simp] theorem accepted_serialized (txns : List SerializedTransaction) :
    accepted [(.takeSerializedTxns, .serialized txns)] = [] := rfl

@[simp] theorem taken_serialized (txns : List SerializedTransaction) :
    taken [(.takeSerializedTxns, .serialized txns)] = txns := by
  simp [taken]

@[simp] theorem accepted_nil : accepted [] = [] := rfl

@[simp] theorem taken_nil : taken [] = [] := rfl

theorem appendTransaction_cases {b b' : BatchBuilder} {txn : SignedTransaction} {accepted : Bool}
    (h : b.appendTransaction txn = .ok (accepted, b')) :
    (accepted = false ∧ b' = b) ∨
      (accepted = true ∧ b.numBytes + (SerializedTransaction.fromSignedTxn txn).len ≤ b.maxBytes ∧
        b.numTxns < b.maxTxns ∧
        b' = { b with
          numTxns := b.numTxns + 1
          numBytes := b.numBytes + (SerializedTransaction.fromSignedTxn txn).len
          summaries := b.summaries ++ [txn.summary]
          data := b.data ++ [SerializedTransaction.fromSignedTxn txn] }) := by
  obtain ⟨total, htotal, h⟩ := except_bind_eq_ok.mp h
  obtain ⟨-, rfl⟩ := addChecked_eq_ok_iff.mp htotal
  split_ifs at h with hc
  · obtain ⟨n, hn, h⟩ := except_bind_eq_ok.mp h
    obtain ⟨m, hm, h⟩ := except_bind_eq_ok.mp h
    obtain ⟨-, rfl⟩ := addChecked_eq_ok_iff.mp hn
    obtain ⟨-, rfl⟩ := addChecked_eq_ok_iff.mp hm
    cases h
    exact .inr ⟨rfl, hc.1, hc.2, rfl⟩
  · cases h
    exact .inl ⟨rfl, rfl⟩

theorem step_inv {maxTxns maxBytes : Nat} {b b' : BatchBuilder} {pre : List (Op × Output)}
    {op : Op} {out : Output} (h : Inv maxTxns maxBytes b (sinceLastTake pre))
    (hs : b.step op = .ok (b', out)) :
    Inv maxTxns maxBytes b' (sinceLastTake (pre ++ [(op, out)])) := by
  rw [sinceLastTake_snoc]
  obtain ⟨h1, h2, h3, h4, h5, h6, h7, h8⟩ := h
  cases op with
  | appendTransaction txn =>
    obtain ⟨⟨acc, b₁⟩, ha, hs⟩ := except_map_eq_ok.mp hs
    cases hs
    rcases appendTransaction_cases ha with ⟨rfl, rfl⟩ | ⟨rfl, hb, ht, rfl⟩
    · exact ⟨h1, h2, h3, h4, h5, by simpa using h6, by simpa using h7, by simpa using h8⟩
    · refine ⟨h1, h2, by simp [h3], by dsimp only; omega, by dsimp only; omega,
        by simp [h6], by simp [h7], ?_⟩
      simp only [reduceCtorEq, if_false, taken_append, taken_appended, List.append_nil,
        List.map_append, List.sum_append, List.map_singleton, List.sum_singleton] at h8 ⊢
      omega
  | takeSerializedTxns =>
    cases hs
    exact ⟨h1, h2, h3, h4, h5, by simpa using h6, by simpa [takeSerializedTxns] using h7,
      by simpa [takeSerializedTxns] using h8⟩
  | takeSummaries =>
    simp only [step, takeSummaries] at hs
    split_ifs at hs with hd
    · cases hs
      exact ⟨h1, h2, rfl, Nat.zero_le _, Nat.zero_le _, rfl, by simp [hd], by simp [hd]⟩
    · cases hs

theorem run_inv_from {maxTxns maxBytes : Nat} (ops : List Op) :
    ∀ {b b' : BatchBuilder} {pre trace : List (Op × Output)},
      Inv maxTxns maxBytes b (sinceLastTake pre) → b.run ops = .ok (b', trace) →
      Inv maxTxns maxBytes b' (sinceLastTake (pre ++ trace)) := by
  induction ops with
  | nil => intro b b' pre trace h hr; cases hr; simpa using h
  | cons op ops ih =>
    intro b b' pre trace h hr
    simp only [run, except_bind_eq_ok] at hr
    obtain ⟨⟨b₁, out⟩, h1, ⟨b₂, trace'⟩, h2, hr⟩ := hr
    cases hr
    simpa using ih (step_inv h h1) h2

/-- From `BatchBuilder::new`, every run that does not panic (`take_summaries` is only called on
empty `data`) ends in a builder that agrees with the calls since the last `take_summaries`, so
that batch stays within `max_txns` transactions and `max_bytes` bytes; and a refused
`append_transaction` changes nothing. -/
theorem run_inv (batchId : BatchId) (maxTxns maxBytes : Nat) (ops : List Op) (b : BatchBuilder)
    (trace : List (Op × Output)) (h : (new batchId maxTxns maxBytes).run ops = .ok (b, trace)) :
    Inv maxTxns maxBytes b (sinceLastTake trace) ∧
      (accepted (sinceLastTake trace)).length ≤ maxTxns ∧
      ((accepted (sinceLastTake trace)).map fun txn =>
        (SerializedTransaction.fromSignedTxn txn).len).sum ≤ maxBytes ∧
      ∀ (b₀ b₁ : BatchBuilder) (txn : SignedTransaction),
        b₀.appendTransaction txn = .ok (false, b₁) → b₁ = b₀ := by
  have hi := @run_inv_from maxTxns maxBytes ops (new batchId maxTxns maxBytes) b [] trace
    ⟨rfl, rfl, rfl, Nat.zero_le _, Nat.zero_le _, rfl, rfl, rfl⟩ h
  rw [List.nil_append] at hi
  refine ⟨hi, ?_, ?_, fun b₀ b₁ txn ha => ?_⟩
  · have hl := congrArg List.length hi.summaries
    rw [List.length_map, ← hi.num_txns] at hl
    exact hl ▸ hi.txns_le
  · have hs := congrArg (fun l => (l.map SerializedTransaction.len).sum) hi.serialized
    simp only [List.map_map] at hs
    exact (hs.trans hi.num_bytes).le.trans hi.bytes_le
  · rcases appendTransaction_cases ha with ⟨-, rfl⟩ | ⟨h', -⟩
    · rfl
    · cases h'

theorem run_inv_append_take :
    Inv 2 10 ⟨⟨1⟩, [⟨7, 0⟩], [], 1, 2, 3, 10⟩
        (sinceLastTake [(.appendTransaction ⟨7, 0, [1, 2, 3]⟩, .appended true),
          (.takeSerializedTxns, .serialized [⟨[1, 2, 3]⟩])]) ∧
      (accepted (sinceLastTake [(.appendTransaction ⟨7, 0, [1, 2, 3]⟩, .appended true),
          (.takeSerializedTxns, .serialized [⟨[1, 2, 3]⟩])])).length ≤ 2 ∧
      ((accepted (sinceLastTake [(.appendTransaction ⟨7, 0, [1, 2, 3]⟩, .appended true),
          (.takeSerializedTxns, .serialized [⟨[1, 2, 3]⟩])])).map fun txn =>
        (SerializedTransaction.fromSignedTxn txn).len).sum ≤ 10 ∧
      ∀ (b₀ b₁ : BatchBuilder) (txn : SignedTransaction),
        b₀.appendTransaction txn = .ok (false, b₁) → b₁ = b₀ :=
  run_inv ⟨1⟩ 2 10 [.appendTransaction ⟨7, 0, [1, 2, 3]⟩, .takeSerializedTxns] _ _ rfl

end BatchBuilder

end QuorumStore
