import QuorumStore.Types

set_option autoImplicit false

/-!
# `RoundExpirations`

`RoundExpirations<I>` keeps `(Reverse(expiry_round), item)` entries in a `std` `BinaryHeap`, a
max-heap, so its top entry has the smallest round. `expire(round)` pops entries while the top
one's round is at most `round` and returns the set of their items.

`BinaryHeap` is not part of the sources. It is modelled by its documented contract: `peek` and
`pop` give a greatest element. From that alone, every `expire` returns exactly the items of the
pending entries due by `round` and removes exactly those entries, so a run of `add_item` and
`expire` calls acts on the multiset of pending `(expiry_round, item)` entries as intended. An
item's later entry stays pending when an earlier one expires.
-/

namespace QuorumStore

/-- `std::collections::BinaryHeap`, by its documented contract: the elements, held in no
particular order. Its array layout is not modelled. -/
structure BinaryHeap (α : Type) where
  data : List α

namespace BinaryHeap

section Contents

variable {α : Type}

def new : BinaryHeap α := ⟨[]⟩

def len (h : BinaryHeap α) : Nat := h.data.length

def push (h : BinaryHeap α) (item : α) : BinaryHeap α := ⟨item :: h.data⟩

def toMultiset (h : BinaryHeap α) : Multiset α := h.data

@[simp] theorem toMultiset_new : (new : BinaryHeap α).toMultiset = 0 := rfl

@[simp] theorem toMultiset_push (h : BinaryHeap α) (item : α) :
    (h.push item).toMultiset = item ::ₘ h.toMultiset := rfl

theorem card_toMultiset (h : BinaryHeap α) : Multiset.card h.toMultiset = h.len := rfl

end Contents

variable {α : Type} [LinearOrder α]

def peek (h : BinaryHeap α) : Option α := h.data.max?

def pop (h : BinaryHeap α) : Option α × BinaryHeap α :=
  match h.peek with
  | some item => (some item, ⟨h.data.erase item⟩)
  | none => (none, h)

theorem peek_eq_none {h : BinaryHeap α} : h.peek = none ↔ h.toMultiset = 0 := by
  simp [peek, toMultiset]

theorem le_of_peek {h : BinaryHeap α} {x : α} (hx : h.peek = some x) :
    x ∈ h.toMultiset ∧ ∀ y ∈ h.toMultiset, y ≤ x :=
  ⟨List.max?_mem max_choice hx,
    fun y hy => (List.max?_le_iff (fun _ _ _ => max_le_iff) hx).mp le_rfl y hy⟩

theorem pop_of_peek {h : BinaryHeap α} {x : α} (hx : h.peek = some x) :
    ∃ h', h.pop = (some x, h') ∧ x ::ₘ h'.toMultiset = h.toMultiset := by
  refine ⟨⟨h.data.erase x⟩, by simp only [pop, hx], ?_⟩
  rw [toMultiset, toMultiset, ← Multiset.coe_erase]
  exact Multiset.cons_erase (le_of_peek hx).1

end BinaryHeap

abbrev Round := Nat

/-- `RoundExpirations<I>`: `(Reverse(expiry_round), item)` entries in a max-heap. Rust orders the
pair by its first component and then its second, and `Reverse` turns the order of rounds
around. -/
structure RoundExpirations (I : Type) where
  expiries : BinaryHeap (Roundᵒᵈ ×ₗ I)

namespace RoundExpirations

open OrderDual

variable {I : Type} [LinearOrder I]

def new : RoundExpirations I := ⟨.new⟩

def addItem (s : RoundExpirations I) (item : I) (expiryRound : Round) : RoundExpirations I :=
  ⟨s.expiries.push (toLex (toDual expiryRound, item))⟩

/-- The `while let` loop of `expire`, for at most `fuel` iterations: while the top entry's round
is at most `round`, pop it and insert its item into `ret`. `pop().unwrap()` panics (`none`) if
the peeked heap has nothing to pop. `expire` allows one iteration per entry, which
`expireLoop_eq` shows is always enough. -/
def expireLoop (round : Round) : Nat → BinaryHeap (Roundᵒᵈ ×ₗ I) → Finset I →
    Option (BinaryHeap (Roundᵒᵈ ×ₗ I) × Finset I)
  | 0, expiries, ret => some (expiries, ret)
  | fuel + 1, expiries, ret =>
    match expiries.peek with
    | some top =>
      if ofDual (ofLex top).1 ≤ round then
        match expiries.pop with
        | (some entry, expiries) => expireLoop round fuel expiries (insert (ofLex entry).2 ret)
        | (none, _) => none
      else some (expiries, ret)
    | none => some (expiries, ret)

def expire (s : RoundExpirations I) (round : Round) : Option (Finset I × RoundExpirations I) :=
  (expireLoop round s.expiries.len s.expiries ∅).map fun r => (r.2, ⟨r.1⟩)

inductive Op (I : Type)
  | addItem (item : I) (expiryRound : Round)
  | expire (round : Round)

inductive Output (I : Type)
  | unit
  | expired (items : Finset I)
  deriving DecidableEq

def step (s : RoundExpirations I) : Op I → Option (RoundExpirations I × Output I)
  | .addItem item expiryRound => some (s.addItem item expiryRound, .unit)
  | .expire round => (s.expire round).map fun r => (r.2, .expired r.1)

def run (s : RoundExpirations I) : List (Op I) → Option (RoundExpirations I × List (Output I))
  | [] => some (s, [])
  | op :: ops => do
    let (s, out) ← s.step op
    let (s, outs) ← s.run ops
    pure (s, out :: outs)

/-! ## The pending entries -/

def pending (s : RoundExpirations I) : Multiset (Round × I) :=
  s.expiries.toMultiset.map fun e => (ofDual (ofLex e).1, (ofLex e).2)

/-- What `expire(round)` is for: the set of items of the pending entries with
`expiry_round ≤ round`, and the entries with a later round, which stay pending. -/
def expireSpec (pending : Multiset (Round × I)) (round : Round) :
    Finset I × Multiset (Round × I) :=
  (((pending.filter fun x => x.1 ≤ round).map Prod.snd).toFinset,
    pending.filter fun x => round < x.1)

def stepSpec (pending : Multiset (Round × I)) : Op I → Multiset (Round × I) × Output I
  | .addItem item expiryRound => ((expiryRound, item) ::ₘ pending, .unit)
  | .expire round => ((expireSpec pending round).2, .expired (expireSpec pending round).1)

def runSpec (pending : Multiset (Round × I)) :
    List (Op I) → Multiset (Round × I) × List (Output I)
  | [] => (pending, [])
  | op :: ops =>
    let r := runSpec (stepSpec pending op).1 ops
    (r.1, (stepSpec pending op).2 :: r.2)

/-! ## `expire` against the pending entries -/

theorem round_le_of_peek {expiries : BinaryHeap (Roundᵒᵈ ×ₗ I)} {top : Roundᵒᵈ ×ₗ I}
    (h : expiries.peek = some top) :
    ∀ e ∈ expiries.toMultiset, ofDual (ofLex top).1 ≤ ofDual (ofLex e).1 :=
  fun e he => Prod.Lex.monotone_fst e top ((BinaryHeap.le_of_peek h).2 e he)

theorem expireLoop_eq (round : Round) :
    ∀ (fuel : Nat) (expiries : BinaryHeap (Roundᵒᵈ ×ₗ I)) (ret : Finset I), expiries.len ≤ fuel →
      ∃ expiries', expireLoop round fuel expiries ret = some (expiries', ret ∪
          ((expiries.toMultiset.filter fun e => ofDual (ofLex e).1 ≤ round).map
            fun e => (ofLex e).2).toFinset) ∧
        expiries'.toMultiset = expiries.toMultiset.filter fun e => round < ofDual (ofLex e).1
  | 0, expiries, ret, hlen => by
    have h0 : expiries.toMultiset = 0 :=
      Multiset.card_eq_zero.mp (by rw [BinaryHeap.card_toMultiset]; omega)
    exact ⟨expiries, by simp [expireLoop, h0], by simp [h0]⟩
  | fuel + 1, expiries, ret, hlen => by
    cases hp : expiries.peek with
    | none =>
      have h0 := BinaryHeap.peek_eq_none.mp hp
      exact ⟨expiries, by simp [expireLoop, hp, h0], by simp [h0]⟩
    | some top =>
      by_cases hdue : ofDual (ofLex top).1 ≤ round
      · obtain ⟨rest, hpop, hcons⟩ := BinaryHeap.pop_of_peek hp
        have hlen' : rest.len ≤ fuel := by
          have hcard := congrArg Multiset.card hcons
          rw [Multiset.card_cons, BinaryHeap.card_toMultiset, BinaryHeap.card_toMultiset] at hcard
          omega
        obtain ⟨expiries', hloop, hrest⟩ :=
          expireLoop_eq round fuel rest (insert (ofLex top).2 ret) hlen'
        refine ⟨expiries', ?_, ?_⟩
        · simp only [expireLoop, hp, hdue, if_true, hpop, hloop, ← hcons,
            Multiset.filter_cons_of_pos, Multiset.map_cons, Multiset.toFinset_cons,
            Finset.union_insert, Finset.insert_union]
        · simp only [hrest, ← hcons, Multiset.filter_cons_of_neg, not_lt.mpr hdue,
            not_false_eq_true]
      · have hlate : ∀ e ∈ expiries.toMultiset, round < ofDual (ofLex e).1 :=
          fun e he => lt_of_lt_of_le (not_le.mp hdue) (round_le_of_peek hp e he)
        refine ⟨expiries, ?_, (Multiset.filter_eq_self.mpr hlate).symm⟩
        rw [Multiset.filter_eq_nil.mpr fun e he => not_le.mpr (hlate e he)]
        simp [expireLoop, hp, hdue]

theorem expire_eq (s : RoundExpirations I) (round : Round) :
    ∃ s', s.expire round = some ((expireSpec s.pending round).1, s') ∧
      s'.pending = (expireSpec s.pending round).2 := by
  obtain ⟨expiries', hloop, hrest⟩ := expireLoop_eq round s.expiries.len s.expiries ∅ le_rfl
  refine ⟨⟨expiries'⟩, ?_, ?_⟩
  · simp only [expire, hloop, Option.map_some', Finset.empty_union, expireSpec, pending,
      Multiset.filter_map, Multiset.map_map]
    rfl
  · simp only [pending, hrest, expireSpec, Multiset.filter_map]
    rfl

omit [LinearOrder I] in
theorem addItem_pending (s : RoundExpirations I) (item : I) (expiryRound : Round) :
    (s.addItem item expiryRound).pending = (expiryRound, item) ::ₘ s.pending := by
  simp [addItem, pending]

theorem step_eq_stepSpec (s : RoundExpirations I) (op : Op I) :
    ∃ s', s.step op = some (s', (stepSpec s.pending op).2) ∧
      s'.pending = (stepSpec s.pending op).1 := by
  cases op with
  | addItem item expiryRound => exact ⟨_, rfl, addItem_pending s item expiryRound⟩
  | expire round =>
    obtain ⟨s', hexp, hs'⟩ := expire_eq s round
    exact ⟨s', by simp [step, hexp, stepSpec], hs'⟩

/-- Over any sequence of `add_item` and `expire` calls, from any state, no call panics, each
`expire(round)` returns exactly the set of items of the pending entries with
`expiry_round ≤ round` and removes exactly those entries, and the entries with a later round,
an item's second entry among them, stay pending. -/
theorem run_eq_runSpec (s : RoundExpirations I) (ops : List (Op I)) :
    ∃ s', s.run ops = some (s', (runSpec s.pending ops).2) ∧
      s'.pending = (runSpec s.pending ops).1 := by
  induction ops generalizing s with
  | nil => exact ⟨s, rfl, rfl⟩
  | cons op ops ih =>
    obtain ⟨s₁, hstep, hs₁⟩ := step_eq_stepSpec s op
    obtain ⟨s₂, hrun, hs₂⟩ := ih s₁
    refine ⟨s₂, ?_, ?_⟩
    · simp only [run, hstep, Option.bind_eq_bind, Option.some_bind, runSpec, ← hs₁, hrun]
      rfl
    · simp only [runSpec, hs₂, hs₁]

example : ((new : RoundExpirations Nat).run [.addItem 1 2, .addItem 1 5, .expire 3]).map
    (fun r => (r.1.pending, r.2)) = some ({(5, 1)}, [.unit, .unit, .expired {1}]) := by decide

end RoundExpirations

end QuorumStore
