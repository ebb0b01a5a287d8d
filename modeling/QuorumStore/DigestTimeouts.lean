import QuorumStore.Types

set_option autoImplicit false

/-!
# `DigestTimeouts`

The wall-clock queue of digests waiting for their proof (`utils.rs`). `add_digest` appends the
digest with the deadline `now + timeout as i64`; `expire` returns the longest prefix of the
queue whose deadlines have passed. Only when deadlines are added in non-decreasing order, as with
one timeout for every digest and a non-decreasing clock, is that prefix every due digest: then
the queue refines the model in which `expire` returns all due digests. With per-call timeouts a
due digest waits behind an earlier one with a later deadline.

The clock reading of each call (`Utc::now().naive_utc().timestamp_millis()`) is an argument.
-/

namespace QuorumStore

/-- `timeout as i64`: the `usize`'s 64 bits read as a two's complement `i64`. -/
def asI64 (n : Nat) : Int :=
  if n % 2 ^ 64 < 2 ^ 63 then (n % 2 ^ 64 : Nat) else (n % 2 ^ 64 : Nat) - 2 ^ 64

/-- `a + b` on `i64`, built with overflow checks. -/
def addCheckedI64 (a b : Int) : Except Panic Int :=
  if -2 ^ 63 ≤ a + b ∧ a + b < 2 ^ 63 then .ok (a + b) else .error .addOverflow

theorem addCheckedI64_eq_ok {a b c : Int} (h : addCheckedI64 a b = .ok c) : c = a + b := by
  unfold addCheckedI64 at h
  split_ifs at h
  · exact (Except.ok.inj h).symm

structure DigestTimeouts where
  timeouts : List (Int × HashValue)
  deriving DecidableEq, Repr

namespace DigestTimeouts

def new : DigestTimeouts := ⟨[]⟩

def addDigest (s : DigestTimeouts) (digest : HashValue) (timeout : Nat) (now : Int) :
    Except Panic DigestTimeouts := do
  let expiry ← addCheckedI64 now (asI64 timeout)
  pure ⟨s.timeouts ++ [(expiry, digest)]⟩

def numExpired (timeouts : List (Int × HashValue)) (curTime : Int) : Nat :=
  (timeouts.takeWhile fun e => decide (e.1 ≤ curTime)).length

def expire (s : DigestTimeouts) (curTime : Int) : List HashValue × DigestTimeouts :=
  ((s.timeouts.take (numExpired s.timeouts curTime)).map Prod.snd,
    ⟨s.timeouts.drop (numExpired s.timeouts curTime)⟩)

inductive Op
  | addDigest (digest : HashValue) (timeout : Nat) (now : Int)
  | expire (now : Int)
  deriving DecidableEq, Repr

inductive Output
  | unit
  | expired (digests : List HashValue)
  deriving DecidableEq, Repr

def step (s : DigestTimeouts) : Op → Except Panic (DigestTimeouts × Output)
  | .addDigest digest timeout now => (·, .unit) <$> s.addDigest digest timeout now
  | .expire now => .ok ((s.expire now).2, .expired (s.expire now).1)

def run (s : DigestTimeouts) : List Op → Except Panic (DigestTimeouts × List Output)
  | [] => .ok (s, [])
  | op :: ops => do
    let (s, out) ← s.step op
    let (s, outs) ← s.run ops
    pure (s, out :: outs)

def addDeadlines (ops : List Op) : List Int :=
  ops.filterMap fun
    | .addDigest _ timeout now => some (now + asI64 timeout)
    | .expire _ => none

/-! ## What `expire` is for -/

/-- The intended `expire`: every pending digest whose deadline is at most `curTime`, in
insertion order, and the pending entries that stay. -/
def expireDue (pending : List (Int × HashValue)) (curTime : Int) :
    List HashValue × List (Int × HashValue) :=
  ((pending.filter fun e => decide (e.1 ≤ curTime)).map Prod.snd,
    pending.filter fun e => !decide (e.1 ≤ curTime))

def stepDue (pending : List (Int × HashValue)) : Op →
    Except Panic (List (Int × HashValue) × Output)
  | .addDigest digest timeout now => do
    let expiry ← addCheckedI64 now (asI64 timeout)
    pure (pending ++ [(expiry, digest)], .unit)
  | .expire now => .ok ((expireDue pending now).2, .expired (expireDue pending now).1)

def runDue (pending : List (Int × HashValue)) :
    List Op → Except Panic (List (Int × HashValue) × List Output)
  | [] => .ok (pending, [])
  | op :: ops => do
    let (pending, out) ← stepDue pending op
    let (pending, outs) ← runDue pending ops
    pure (pending, out :: outs)

@[simp] theorem addDeadlines_addDigest (digest : HashValue) (timeout : Nat) (now : Int)
    (ops : List Op) :
    addDeadlines (.addDigest digest timeout now :: ops) = (now + asI64 timeout) :: addDeadlines ops :=
  rfl

@[simp] theorem addDeadlines_expire (now : Int) (ops : List Op) :
    addDeadlines (.expire now :: ops) = addDeadlines ops := rfl

theorem expire_due_of_sorted (curTime : Int) :
    ∀ {l : List (Int × HashValue)}, l.Sorted (fun a b => a.1 ≤ b.1) →
      l.take (numExpired l curTime) = l.filter (fun e => decide (e.1 ≤ curTime)) ∧
      l.drop (numExpired l curTime) = l.filter (fun e => !decide (e.1 ≤ curTime))
  | [], _ => by simp [numExpired]
  | a :: l, hl => by
    rw [List.sorted_cons] at hl
    obtain ⟨ih1, ih2⟩ := expire_due_of_sorted curTime hl.2
    by_cases ha : a.1 ≤ curTime
    · simp only [numExpired] at ih1 ih2
      simp [numExpired, List.takeWhile_cons, ha, ih1, ih2]
    · have hlate : ∀ b ∈ l, ¬ b.1 ≤ curTime := fun b hb hb' => ha (le_trans (hl.1 b hb) hb')
      have hnone : l.filter (fun e => decide (e.1 ≤ curTime)) = [] :=
        List.filter_eq_nil_iff.mpr (by simpa using hlate)
      have hall : l.filter (fun e => !decide (e.1 ≤ curTime)) = l :=
        List.filter_eq_self.mpr (by simpa using hlate)
      simp [numExpired, List.takeWhile_cons, ha, hnone, hall]

theorem step_eq_stepDue (s : DigestTimeouts) (hs : s.timeouts.Sorted (fun a b => a.1 ≤ b.1))
    (op : Op) : s.step op = (stepDue s.timeouts op).map fun r => (⟨r.1⟩, r.2) := by
  cases op with
  | addDigest digest timeout now =>
    simp only [step, addDigest, stepDue]
    cases addCheckedI64 now (asI64 timeout) <;> rfl
  | expire now =>
    obtain ⟨htake, hdrop⟩ := expire_due_of_sorted now hs
    simp only [step, expire, stepDue, expireDue, htake, hdrop]
    rfl

/-- What the intended model keeps: the pending entries are sorted by deadline, and none is later
than a deadline still to be added. -/
def DueInv (pending : List (Int × HashValue)) (ops : List Op) : Prop :=
  pending.Sorted (fun a b => a.1 ≤ b.1) ∧ (∀ e ∈ pending, ∀ d ∈ addDeadlines ops, e.1 ≤ d) ∧
    (addDeadlines ops).Sorted (· ≤ ·)

theorem stepDue_inv {pending pending' : List (Int × HashValue)} {op : Op} {ops : List Op}
    {out : Output} (h : DueInv pending (op :: ops)) (hstep : stepDue pending op = .ok (pending', out)) :
    DueInv pending' ops := by
  obtain ⟨hs, hle, hd⟩ := h
  cases op with
  | addDigest digest timeout now =>
    rw [addDeadlines_addDigest, List.sorted_cons] at hd
    simp only [addDeadlines_addDigest, List.mem_cons] at hle
    simp only [stepDue, except_bind_eq_ok] at hstep
    obtain ⟨E, hE, hstep⟩ := hstep
    obtain rfl := addCheckedI64_eq_ok hE
    cases hstep
    refine ⟨List.pairwise_append.mpr ⟨hs, List.pairwise_singleton _ _, fun e he b hb => ?_⟩,
      fun e he d hd' => ?_, hd.2⟩
    · rw [List.mem_singleton.mp hb]; exact hle e he _ (.inl rfl)
    · rcases List.mem_append.mp he with he | he
      · exact hle e he d (.inr hd')
      · rw [List.mem_singleton.mp he]; exact hd.1 d hd'
  | expire now =>
    cases hstep
    exact ⟨List.Pairwise.sublist (List.filter_sublist _) hs,
      fun e he => hle e (List.mem_of_mem_filter he), hd⟩

theorem run_eq_runDue : ∀ (ops : List Op) (s : DigestTimeouts), DueInv s.timeouts ops →
    s.run ops = (runDue s.timeouts ops).map fun r => (⟨r.1⟩, r.2)
  | [], _, _ => rfl
  | op :: ops, s, h => by
    simp only [run, runDue, step_eq_stepDue s h.1 op]
    cases hstep : stepDue s.timeouts op with
    | error e => rfl
    | ok r =>
      have ih := run_eq_runDue ops ⟨r.1⟩ (stepDue_inv h hstep)
      simp only [Except.map, bind, Except.bind, ih]
      cases runDue r.1 ops <;> rfl

/-- When deadlines are added in non-decreasing order, `expire` returns exactly the due digests
that no earlier `expire` returned, in insertion order. -/
theorem new_run_eq_runDue (ops : List Op) (hsorted : (addDeadlines ops).Sorted (· ≤ ·)) :
    new.run ops = (runDue [] ops).map fun r => (⟨r.1⟩, r.2) :=
  run_eq_runDue ops new ⟨List.sorted_nil, by simp [new], hsorted⟩

theorem new_run_eq_runDue_same_timeout :
    (addDeadlines [.addDigest 1 10 0, .addDigest 2 10 1, .expire 20]).Sorted (· ≤ ·) ∧
      new.run [.addDigest 1 10 0, .addDigest 2 10 1, .expire 20] =
        (runDue [] [.addDigest 1 10 0, .addDigest 2 10 1, .expire 20]).map fun r => (⟨r.1⟩, r.2) :=
  ⟨by decide, new_run_eq_runDue _ (by decide)⟩

/-- A non-decreasing clock is not enough: digest 2 is due at 11 but waits behind digest 1, due
at 100, while the intended model returns it at 20. -/
theorem expire_holds_back_due_digest :
    (new.run [.addDigest 1 100 0, .addDigest 2 10 1, .expire 20]).map Prod.snd =
        .ok [.unit, .unit, .expired []] ∧
      (runDue [] [.addDigest 1 100 0, .addDigest 2 10 1, .expire 20]).map Prod.snd =
        .ok [.unit, .unit, .expired [2]] :=
  ⟨rfl, rfl⟩

def clockReadings (ops : List Op) : List Int :=
  ops.map fun
    | .addDigest _ _ now => now
    | .expire now => now

theorem mem_addDeadlines {ops : List Op} {d : Int} (h : d ∈ addDeadlines ops) :
    ∃ digest timeout now, .addDigest digest timeout now ∈ ops ∧ d = now + asI64 timeout := by
  obtain ⟨op, hop, hd⟩ := List.mem_filterMap.mp h
  cases op with
  | addDigest digest timeout now => exact ⟨digest, timeout, now, hop, (Option.some.inj hd).symm⟩
  | expire now => cases hd

theorem addDeadlines_sorted_of_timeout_eq (timeout : Nat) : ∀ (ops : List Op),
    (clockReadings ops).Sorted (· ≤ ·) →
    (∀ digest timeout' now, .addDigest digest timeout' now ∈ ops → timeout' = timeout) →
    (addDeadlines ops).Sorted (· ≤ ·)
  | [], _, _ => List.sorted_nil
  | op :: ops, hclock, htimeout => by
    rw [clockReadings, List.map_cons, List.sorted_cons] at hclock
    have ih := addDeadlines_sorted_of_timeout_eq timeout ops hclock.2
      fun d τ now h => htimeout d τ now (List.mem_cons_of_mem _ h)
    cases op with
    | expire now => exact ih
    | addDigest digest τ now =>
      refine List.sorted_cons.mpr ⟨fun d hd => ?_, ih⟩
      obtain ⟨_, τ', now', hmem, rfl⟩ := mem_addDeadlines hd
      have hτ : τ = τ' := (htimeout _ _ _ (List.mem_cons_self _ _)).trans
        (htimeout _ _ _ (List.mem_cons_of_mem _ hmem)).symm
      have hnow : now ≤ now' := hclock.1 now' (List.mem_map_of_mem _ hmem)
      rw [hτ]
      exact Int.add_le_add_right hnow _

/-- With one timeout for every digest and a non-decreasing clock, `DigestTimeouts` runs as the
intended model. -/
theorem new_run_eq_runDue_of_timeout_eq (ops : List Op) (timeout : Nat)
    (hclock : (clockReadings ops).Sorted (· ≤ ·))
    (htimeout : ∀ digest timeout' now, .addDigest digest timeout' now ∈ ops → timeout' = timeout) :
    new.run ops = (runDue [] ops).map fun r => (⟨r.1⟩, r.2) :=
  run_eq_runDue ops new
    ⟨List.sorted_nil, by simp [new], addDeadlines_sorted_of_timeout_eq timeout ops hclock htimeout⟩

theorem new_run_eq_runDue_of_timeout_eq_ten :
    (clockReadings [.addDigest 1 10 0, .addDigest 2 10 1, .expire 20]).Sorted (· ≤ ·) ∧
      (∀ digest timeout' now, Op.addDigest digest timeout' now ∈
        [.addDigest 1 10 0, .addDigest 2 10 1, .expire 20] → timeout' = 10) ∧
      new.run [.addDigest 1 10 0, .addDigest 2 10 1, .expire 20] =
        (runDue [] [.addDigest 1 10 0, .addDigest 2 10 1, .expire 20]).map fun r => (⟨r.1⟩, r.2) :=
  have hclock : (clockReadings [.addDigest 1 10 0, .addDigest 2 10 1, .expire 20]).Sorted (· ≤ ·) := by
    decide
  have htimeout : ∀ digest timeout' now, Op.addDigest digest timeout' now ∈
      [.addDigest 1 10 0, .addDigest 2 10 1, .expire 20] → timeout' = 10 := by
    intro digest timeout' now h
    simp at h
    omega
  ⟨hclock, htimeout, new_run_eq_runDue_of_timeout_eq _ 10 hclock htimeout⟩

end DigestTimeouts

end QuorumStore
