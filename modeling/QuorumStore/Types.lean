import Mathlib

set_option autoImplicit false

/-!
# The quorum store's data model

The values the quorum store actors pass to one another. `LogicalTime`, `ProofOfStore`,
`Fragment`, `BatchId` and `PersistRequest` are declared in `aptos_consensus_types` and in
`quorum_store/types.rs`, neither of which is in the sources: they are modelled from the spec's
data model, with only the fields the modelled functions read. Digests and peer ids are opaque
and only compared, so they are natural numbers.

Fixed-width arithmetic is checked: the workspace builds with overflow checks, so `a + b` on a
`u64` or `usize` panics past `2 ^ 64` (`addChecked`).
-/

namespace QuorumStore

/-- Modelled from the spec: `LogicalTime := (epoch, round)`, totally ordered by epoch, then round. -/
structure LogicalTime where
  epoch : Nat
  round : Nat
  deriving DecidableEq, Repr

def LogicalTime.lex (t : LogicalTime) : Nat ×ₗ Nat := toLex (t.epoch, t.round)

theorem LogicalTime.lex_injective : Function.Injective LogicalTime.lex := by
  rintro ⟨a, b⟩ ⟨c, d⟩ h
  simpa [LogicalTime.lex] using h

instance : LinearOrder LogicalTime := LinearOrder.lift' LogicalTime.lex LogicalTime.lex_injective

abbrev HashValue := Nat

abbrev PeerId := Nat

/-- Modelled from the spec: a `BatchId` is a counter that `increment` advances. -/
structure BatchId where
  id : Nat
  deriving DecidableEq, Repr

def BatchId.increment (b : BatchId) : BatchId := ⟨b.id + 1⟩

structure SerializedTransaction where
  bytes : List UInt8
  deriving DecidableEq, Repr

def SerializedTransaction.len (txn : SerializedTransaction) : Nat := txn.bytes.length

/-- Modelled from the spec: the tuple `(digest, expiration, num_txns, num_bytes)` a share signs. -/
structure SignedDigestInfo where
  digest : HashValue
  expiration : LogicalTime
  numTxns : Nat
  numBytes : Nat
  deriving DecidableEq, Repr

/-- Modelled from the spec: a `SignedDigestInfo` with its aggregate signature, which no modelled
function reads. -/
structure ProofOfStore where
  info : SignedDigestInfo
  deriving DecidableEq, Repr

def ProofOfStore.digest (proof : ProofOfStore) : HashValue := proof.info.digest

def ProofOfStore.expiration (proof : ProofOfStore) : LogicalTime := proof.info.expiration

/-- Modelled from the spec: `Fragment{epoch, source, batch_id, fragment_id, payload,
maybe_expiration}`; `Some` expiration marks the final fragment of a batch. -/
structure Fragment where
  epoch : Nat
  batchId : BatchId
  fragmentId : Nat
  payload : List SerializedTransaction
  maybeExpiration : Option LogicalTime
  source : PeerId
  deriving DecidableEq, Repr

/-- Modelled from the spec: what `BatchStoreCommand::Persist` asks the batch store to save. -/
structure PersistRequest where
  author : PeerId
  payload : List SerializedTransaction
  digest : HashValue
  numBytes : Nat
  expiration : LogicalTime
  deriving DecidableEq, Repr

/-- The panics of the modelled code, by the macro or call that raises them. -/
inductive Panic
  | expect (msg : String)
  | assert (msg : String)
  | assertSome
  | unreachable (msg : String)
  | addOverflow
  deriving DecidableEq, Repr

/-- `a + b` on a 64-bit integer, built with overflow checks. -/
def addChecked (a b : Nat) : Except Panic Nat :=
  if a + b < 2 ^ 64 then .ok (a + b) else .error .addOverflow

theorem addChecked_eq_ok {a b : Nat} (h : a + b < 2 ^ 64) : addChecked a b = .ok (a + b) :=
  if_pos h

theorem addChecked_eq_error {a b : Nat} (h : 2 ^ 64 ≤ a + b) :
    addChecked a b = .error .addOverflow :=
  if_neg (Nat.not_lt.mpr h)

theorem addChecked_error {a b : Nat} {e : Panic} (h : addChecked a b = .error e) :
    e = .addOverflow := by
  unfold addChecked at h
  split_ifs at h
  cases h
  rfl

theorem addChecked_eq_ok_iff {a b c : Nat} :
    addChecked a b = .ok c ↔ a + b < 2 ^ 64 ∧ c = a + b := by
  unfold addChecked
  by_cases h : a + b < 2 ^ 64
  · rw [if_pos h]
    exact ⟨fun he => ⟨h, (Except.ok.inj he).symm⟩, fun hc => hc.2 ▸ rfl⟩
  · rw [if_neg h]
    exact ⟨fun he => Except.noConfusion he, fun hc => absurd hc.1 h⟩

theorem except_bind_eq_ok {ε α β : Type} {x : Except ε α} {f : α → Except ε β} {b : β} :
    x >>= f = .ok b ↔ ∃ a, x = .ok a ∧ f a = .ok b := by
  cases x <;> simp [bind, Except.bind]

theorem except_map_eq_ok {ε α β : Type} {f : α → β} {x : Except ε α} {b : β} :
    f <$> x = .ok b ↔ ∃ a, x = .ok a ∧ f a = b := by
  cases x <;> simp [Functor.map, Except.map]

theorem except_bind_eq_error {ε α β : Type} {x : Except ε α} {f : α → Except ε β} {e : ε} :
    x >>= f = .error e ↔ x = .error e ∨ ∃ a, x = .ok a ∧ f a = .error e := by
  cases x <;> simp [bind, Except.bind]

end QuorumStore
