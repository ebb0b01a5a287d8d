import QuorumStore.ProofQueuePull

set_option autoImplicit false

/-!
# The local proof count behind backpressure

`clean_local_proofs(t)` drops the expired front of `local_digest_queue` and counts the remaining
entries that expire no earlier than `t` and whose digest still holds an uncommitted proof. The
queue gets one entry per `push(p, true)`, whether or not the digest was already known, so the
count is of local pushes, with multiplicity: a digest pushed locally twice counts twice. With
non-decreasing clean times, the dropped entries are exactly ones no later clean would count.
-/

namespace QuorumStore

namespace ProofQueue

def localPushes (ops : List Op) : List (HashValue × LogicalTime) :=
  ops.filterMap fun
    | .push proof true => some (proof.digest, proof.expiration)
    | _ => none

def cleanTimes (ops : List Op) : List LogicalTime :=
  ops.filterMap fun
    | .cleanLocalProofs t => some t
    | _ => none

@[simp] theorem localPushes_append (ops ops' : List Op) :
    localPushes (ops ++ ops') = localPushes ops ++ localPushes ops' := List.filterMap_append _ _ _

@[simp] theorem cleanTimes_append (ops ops' : List Op) :
    cleanTimes (ops ++ ops') = cleanTimes ops ++ cleanTimes ops' := List.filterMap_append _ _ _

@[simp] theorem localPushes_push (proof : ProofOfStore) (isLocal : Bool) :
    localPushes [.push proof isLocal] = if isLocal then [(proof.digest, proof.expiration)] else [] := by
  cases isLocal <;> rfl

@[simp] theorem localPushes_markCommitted (digests : List HashValue) :
    localPushes [.markCommitted digests] = [] := rfl

@[simp] theorem localPushes_pullProofs (excludedProofs : List HashValue) (t : LogicalTime)
    (maxTxns maxBytes : Nat) : localPushes [.pullProofs excludedProofs t maxTxns maxBytes] = [] := rfl

@[simp] theorem localPushes_cleanLocalProofs (t : LogicalTime) :
    localPushes [.cleanLocalProofs t] = [] := rfl

@[simp] theorem cleanTimes_cleanLocalProofs (t : LogicalTime) :
    cleanTimes [.cleanLocalProofs t] = [t] := rfl

/-- `local_digest_queue` is what is left of the local pushes once a prefix, each entry of which
expired before some clean time, has been dropped. -/
def LocalLog (q : ProofQueue) (ops : List Op) : Prop :=
  ∃ dropped, localPushes ops = dropped ++ q.localDigestQueue ∧
    ∀ x ∈ dropped, ∃ t ∈ cleanTimes ops, x.2 < t

theorem localLog_step {q q' : ProofQueue} {op : Op} {out : Output} {pre : List Op}
    (h : LocalLog q pre) (hs : q.step op = .ok (q', out)) : LocalLog q' (pre ++ [op]) := by
  obtain ⟨dropped, hlog, hdrop⟩ := h
  have hold : ∀ x ∈ dropped, ∃ t ∈ cleanTimes (pre ++ [op]), x.2 < t := fun x hx => by
    obtain ⟨t, ht, hlt⟩ := hdrop x hx
    exact ⟨t, by simp [ht], hlt⟩
  cases op with
  | push proof isLocal =>
    cases hs
    refine ⟨dropped, ?_, hold⟩
    cases isLocal <;> simp [hlog]
  | markCommitted digests =>
    cases hs
    exact ⟨dropped, by simpa using hlog, hold⟩
  | pullProofs excludedProofs t maxTxns maxBytes =>
    obtain ⟨ps, hps, -⟩ := step_pullProofs_eq_ok.mp hs
    exact ⟨dropped, by simpa [pullProofs_localDigestQueue hps] using hlog, hold⟩
  | cleanLocalProofs t =>
    cases hs
    refine ⟨dropped ++ q.localDigestQueue.take (numExpired q.localDigestQueue t), ?_, ?_⟩
    · simp [hlog]
    · intro x hx
      rcases List.mem_append.mp hx with hx | hx
      · exact hold x hx
      · exact ⟨t, by simp, lt_of_mem_take_numExpired hx⟩

theorem cleanLocalProofs_count_eq {q : ProofQueue} {t : LogicalTime}
    {log dropped : List (HashValue × LogicalTime)} (hlog : log = dropped ++ q.localDigestQueue)
    (hdrop : ∀ x ∈ dropped, x.2 < t) :
    (q.cleanLocalProofs t).1 =
      log.countP fun x => decide (t ≤ x.2) && uncommitted q.digestProof x.1 := by
  have hnone : ∀ l : List (HashValue × LogicalTime), (∀ x ∈ l, x.2 < t) →
      l.countP (fun x => decide (t ≤ x.2) && uncommitted q.digestProof x.1) = 0 :=
    fun l hl => List.countP_eq_zero.mpr fun x hx => by simp [not_le.mpr (hl x hx)]
  rw [hlog, List.countP_append, hnone dropped hdrop]
  conv_rhs => rw [← List.take_append_drop (numExpired q.localDigestQueue t) q.localDigestQueue]
  rw [List.countP_append, hnone _ fun x hx => lt_of_mem_take_numExpired hx, Nat.zero_add,
    Nat.zero_add]
  rfl

/-- With every earlier clean time at most `t`, `clean_local_proofs(t)` counts the local pushes,
with multiplicity, that expire no earlier than `t` and whose digest holds an uncommitted proof. -/
theorem cleanLocalProofs_counts_local_pushes (ops : List Op) (q : ProofQueue) (outs : List Output)
    (hrun : new.run ops = .ok (q, outs)) (t : LogicalTime) (ht : ∀ t' ∈ cleanTimes ops, t' ≤ t) :
    (q.cleanLocalProofs t).1 = (localPushes ops).countP fun x =>
      decide (t ≤ x.2) && uncommitted q.digestProof x.1 := by
  obtain ⟨⟨dropped, hlog, hdrop⟩, -⟩ := @run_keeps (fun pre q => LocalLog q pre) (fun _ => True)
    (fun _ => True) (fun h _ hs => ⟨localLog_step h hs, trivial⟩) ops [] new q outs
    ⟨[], rfl, by simp⟩ (fun _ _ => trivial) hrun
  rw [List.nil_append] at hlog hdrop
  exact cleanLocalProofs_count_eq hlog fun x hx => by
    obtain ⟨t', ht', hlt⟩ := hdrop x hx
    exact lt_of_lt_of_le hlt (ht t' ht')

theorem local_pushes_counted :
    (((new.push ⟨⟨1, ⟨0, 10⟩, 1, 1⟩⟩ true).push ⟨⟨1, ⟨0, 10⟩, 1, 1⟩⟩ true).cleanLocalProofs
      ⟨0, 5⟩).1 =
      (localPushes [.push ⟨⟨1, ⟨0, 10⟩, 1, 1⟩⟩ true, .push ⟨⟨1, ⟨0, 10⟩, 1, 1⟩⟩ true]).countP
        fun x => decide (⟨0, 5⟩ ≤ x.2) && uncommitted
          ((new.push ⟨⟨1, ⟨0, 10⟩, 1, 1⟩⟩ true).push ⟨⟨1, ⟨0, 10⟩, 1, 1⟩⟩ true).digestProof x.1 :=
  cleanLocalProofs_counts_local_pushes [.push ⟨⟨1, ⟨0, 10⟩, 1, 1⟩⟩ true,
    .push ⟨⟨1, ⟨0, 10⟩, 1, 1⟩⟩ true] _ [.unit, .unit] rfl ⟨0, 5⟩ (by simp [cleanTimes])

/-- One digest, pushed locally twice, unexpired and uncommitted, is counted twice. -/
theorem local_push_counted_twice :
    (new.run [.push ⟨⟨1, ⟨0, 10⟩, 1, 1⟩⟩ true, .push ⟨⟨1, ⟨0, 10⟩, 1, 1⟩⟩ true,
      .cleanLocalProofs ⟨0, 5⟩]).map Prod.snd = .ok [.unit, .unit, .count 2] := rfl

end ProofQueue

end QuorumStore
