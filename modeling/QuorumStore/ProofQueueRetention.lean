import QuorumStore.ProofQueuePull

set_option autoImplicit false

/-!
# What the proof queue keeps across calls

`pull_proofs` is the only call that frees anything: it drains the front of `digest_queue` while
entries expire before its time, and removes their digests from `digest_proof`. Two facts about
that, over every reachable queue:

* A pull hides nothing from later pulls at no earlier time: a pull at `t' ≥ t` after a pull at
  `t` returns what it would have returned alone and leaves the same queue, since the two drains
  remove what one drain at `t'` removes.
* `mark_committed` writes `None` for every digest it is given, also for one the queue holds no
  entry for. No drain reaches such a marker, so it stays for good: the digest is never queued
  again and no pull returns it.
-/

namespace QuorumStore

namespace ProofQueue

/-! ## Drains compose -/

theorem numExpired_add (queue : List (HashValue × LogicalTime)) {t t' : LogicalTime}
    (h : t ≤ t') :
    numExpired queue t + numExpired (queue.drop (numExpired queue t)) t' = numExpired queue t' := by
  induction queue with
  | nil => rfl
  | cons x queue ih =>
    by_cases hx : x.2 < t
    · have hx' : x.2 < t' := lt_of_lt_of_le hx h
      simp only [numExpired, List.takeWhile_cons, hx, hx', decide_True, if_true,
        List.length_cons, List.drop_succ_cons] at ih ⊢
      omega
    · simp [numExpired, List.takeWhile_cons, hx]

theorem remaining_remaining (q : ProofQueue) {t t' : LogicalTime} (h : t ≤ t') :
    ({ q with digestQueue := q.remaining t, digestProof := q.drained t } : ProofQueue).remaining t' =
      q.remaining t' := by
  simp only [remaining, List.drop_drop, Nat.add_comm, numExpired_add q.digestQueue h]

theorem drained_drained (q : ProofQueue) {t t' : LogicalTime} (h : t ≤ t') :
    ({ q with digestQueue := q.remaining t, digestProof := q.drained t } : ProofQueue).drained t' =
      q.drained t' := by
  have htake : q.digestQueue.take (numExpired q.digestQueue t') =
      q.digestQueue.take (numExpired q.digestQueue t) ++
        (q.remaining t).take (numExpired (q.remaining t) t') := by
    rw [← numExpired_add q.digestQueue h, List.take_add]
    rfl
  funext d
  simp only [drained, htake, List.map_append, List.mem_append]
  split_ifs <;> first | rfl | tauto

/-- A pull that succeeds at `t` is invisible to every later pull at a time no earlier: that pull
returns what it would have returned without the first one, and leaves the same queue. -/
theorem pullProofs_pullProofs {q q₁ : ProofQueue} (hq : Reachable q)
    {excludedProofs : List HashValue} {t : LogicalTime} {maxTxns maxBytes : Nat}
    {ps : List ProofOfStore} (hps : q.pullProofs excludedProofs t maxTxns maxBytes = .ok (ps, q₁))
    {t' : LogicalTime} (ht : t ≤ t') (excludedProofs' : List HashValue) (maxTxns' maxBytes' : Nat) :
    q₁.pullProofs excludedProofs' t' maxTxns' maxBytes' =
      q.pullProofs excludedProofs' t' maxTxns' maxBytes' := by
  have h := reachable_inv hq
  obtain rfl := pullProofs_state h hps
  have h₁ := drained_inv h t
  rw [pullProofs_eq _ _ _ _ _ h₁.nodup h₁.present, pullProofs_eq q _ _ _ _ h.nodup h.present,
    remaining_remaining q ht, drained_drained q ht]

theorem pullProofs_pullProofs_later :
    ∃ ps q₁, (new.push ⟨⟨1, ⟨0, 5⟩, 1, 1⟩⟩ false).pullProofs [] ⟨0, 6⟩ 10 10 = .ok (ps, q₁) ∧
      q₁.pullProofs [] ⟨0, 8⟩ 10 10 = (new.push ⟨⟨1, ⟨0, 5⟩, 1, 1⟩⟩ false).pullProofs [] ⟨0, 8⟩ 10 10 :=
  ⟨_, _, rfl, @pullProofs_pullProofs _ _
    (@Reachable.step new _ (.push ⟨⟨1, ⟨0, 5⟩, 1, 1⟩⟩ false) _ .new rfl) [] ⟨0, 6⟩ 10 10 _ rfl
    ⟨0, 8⟩ (by decide) [] 10 10⟩

/-! ## Commit markers with no queue entry -/

/-- `d` is committed and the queue holds no entry for it, so no drain removes its marker. -/
structure Orphaned (d : HashValue) (q : ProofQueue) : Prop where
  inv : Inv q
  committed : q.digestProof d = some none
  not_queued : d ∉ q.digestQueue.map Prod.fst

section Orphaned

variable {d : HashValue} {q : ProofQueue} (h : Orphaned d q)
include h

theorem Orphaned.push (proof : ProofOfStore) (isLocal : Bool) :
    Orphaned d (q.push proof isLocal) := by
  refine ⟨push_inv h.inv proof isLocal, ?_, ?_⟩
  · by_cases hp : proof.digest = d
    · subst hp; simp [h.committed, admits, replaces]
    · simp only [push_digestProof]
      split_ifs
      · rw [Function.update_noteq (Ne.symm hp)]; exact h.committed
      · exact h.committed
  · simp only [push_digestQueue]
    split_ifs with hn
    · have hp : proof.digest ≠ d := fun hp => by rw [hp, h.committed] at hn; cases hn
      simpa [Ne.symm hp, -List.mem_map] using h.not_queued
    · exact h.not_queued

theorem Orphaned.markCommitted (digests : List HashValue) :
    Orphaned d (q.markCommitted digests) := by
  refine ⟨markCommitted_inv h.inv digests, ?_, h.not_queued⟩
  simp only [markCommitted_digestProof]
  split_ifs
  · rfl
  · exact h.committed

theorem Orphaned.pullProofs {excludedProofs : List HashValue} {t : LogicalTime}
    {maxTxns maxBytes : Nat} {ps : List ProofOfStore} {q' : ProofQueue}
    (hps : q.pullProofs excludedProofs t maxTxns maxBytes = .ok (ps, q')) :
    Orphaned d q' ∧ d ∉ ps.map ProofOfStore.digest := by
  have hinv := step_inv h.inv (step_pullProofs_eq_ok.mpr ⟨ps, hps, rfl⟩)
  have hmem : ∀ x ∈ q.remaining t, x.1 ≠ d := fun x hx hxd =>
    h.not_queued (hxd ▸ List.mem_map_of_mem Prod.fst (List.mem_of_mem_drop hx))
  refine ⟨?_, fun hd => ?_⟩
  · obtain rfl := pullProofs_state h.inv hps
    refine ⟨hinv, ?_, fun hd => ?_⟩
    · simp only [drained]
      rw [if_neg fun hd => h.not_queued ((List.map_take Prod.fst _ _ ▸ hd) |> List.mem_of_mem_take)]
      exact h.committed
    · obtain ⟨x, hx, rfl⟩ := List.mem_map.mp hd
      exact hmem x hx rfl
  · obtain ⟨p, hp, rfl⟩ := List.mem_map.mp hd
    obtain ⟨x, hx, hxd, -⟩ := pullProofs_mem h.inv hps hp
    exact hmem x hx hxd

end Orphaned

theorem Orphaned.step {d : HashValue} {q q' : ProofQueue} {op : Op} {out : Output}
    (h : Orphaned d q) (hs : q.step op = .ok (q', out)) : Orphaned d q' ∧ d ∉ out.digests := by
  cases op with
  | push proof isLocal => cases hs; exact ⟨h.push proof isLocal, by simp [Output.digests]⟩
  | markCommitted digests => cases hs; exact ⟨h.markCommitted digests, by simp [Output.digests]⟩
  | pullProofs excludedProofs t maxTxns maxBytes =>
    obtain ⟨ps, hps, rfl⟩ := step_pullProofs_eq_ok.mp hs
    exact h.pullProofs hps
  | cleanLocalProofs t =>
    cases hs
    exact ⟨⟨h.inv.of_eq rfl rfl, h.committed, h.not_queued⟩, by simp [Output.digests]⟩

/-- A digest committed while a reachable queue holds no entry for it, as `mark_committed` does for
a digest never pushed, keeps its `None` for good: over every later sequence of calls that does
not panic, its marker is never removed, it is never queued again, and no pull returns a proof
for it. -/
theorem orphaned_commit_kept {q : ProofQueue} (hq : Reachable q) {d : HashValue}
    (hc : q.digestProof d = some none) (hnq : d ∉ q.digestQueue.map Prod.fst) (ops : List Op)
    {q' : ProofQueue} {outs : List Output} (hr : q.run ops = .ok (q', outs)) :
    q'.digestProof d = some none ∧ d ∉ q'.digestQueue.map Prod.fst ∧
      ∀ out ∈ outs, d ∉ out.digests := by
  obtain ⟨⟨-, hc', hnq'⟩, houts⟩ := @run_keeps_state (Orphaned d) (fun _ => True)
    (fun out => d ∉ out.digests) (fun h _ hs => h.step hs) ops q q' outs ⟨reachable_inv hq, hc, hnq⟩
    (fun _ _ => trivial) hr
  exact ⟨hc', hnq', houts⟩

theorem orphaned_commit_kept_after_push :
    ((new.markCommitted [1]).run [.push ⟨⟨1, ⟨0, 10⟩, 1, 1⟩⟩ false,
        .pullProofs [] ⟨0, 20⟩ 10 10]).map Prod.snd = .ok [.unit, .proofs []] ∧
      (∃ q' outs, (new.markCommitted [1]).run [.push ⟨⟨1, ⟨0, 10⟩, 1, 1⟩⟩ false,
          .pullProofs [] ⟨0, 20⟩ 10 10] = .ok (q', outs) ∧
        q'.digestProof 1 = some none ∧ 1 ∉ q'.digestQueue.map Prod.fst ∧
        ∀ out ∈ outs, 1 ∉ out.digests) :=
  ⟨rfl, _, _, rfl, orphaned_commit_kept (@Reachable.step new _ (.markCommitted [1]) _ .new rfl)
    (by simp [new]) (by simp [new])
    [.push ⟨⟨1, ⟨0, 10⟩, 1, 1⟩⟩ false, .pullProofs [] ⟨0, 20⟩ 10 10] rfl⟩

end ProofQueue

end QuorumStore
