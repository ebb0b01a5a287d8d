import QuorumStore.ProofQueueInvariant

set_option autoImplicit false

/-!
# What `pull_proofs` returns

From a reachable queue, `pull_proofs(excluded, t, max_txns, max_bytes)` returns the longest
prefix of the eligible proofs within budget, as long as the sums fit in `u64`; past that the
accumulators overflow and the call panics. Every returned proof is outside `excluded` and
expires no earlier than `t`. A committed digest is never returned while its queue entry is
kept, that is, until a pull past its expiration drains it; after that a later proof for the
same digest is a new entry. The queue keeps the expiration a digest was first pushed with, so a
later-expiring duplicate is dropped at the first one's expiration.
-/

namespace QuorumStore

namespace ProofQueue

theorem mem_eligible {excludedProofs : List HashValue} {t : LogicalTime}
    {m : HashValue → Option (Option ProofOfStore)} {l : List (HashValue × LogicalTime)}
    {p : ProofOfStore} :
    p ∈ eligible excludedProofs t m l ↔
      ∃ x ∈ l, t ≤ x.2 ∧ x.1 ∉ excludedProofs ∧ m x.1 = some (some p) := by
  simp only [eligible, List.mem_filterMap]
  refine exists_congr fun x => and_congr_right fun _ => ?_
  by_cases h : t ≤ x.2 ∧ x.1 ∉ excludedProofs
  · rw [if_pos h, and_iff_right h.1, and_iff_right h.2]
    cases m x.1 with
    | none => simp
    | some v => cases v <;> simp
  · rw [if_neg h]
    simp only [reduceCtorEq, false_iff, not_and]
    exact fun h1 h2 _ => h ⟨h1, h2⟩

theorem pullProofs_state {q : ProofQueue} (h : Inv q) {excludedProofs : List HashValue}
    {t : LogicalTime} {maxTxns maxBytes : Nat} {ps : List ProofOfStore} {q' : ProofQueue}
    (hps : q.pullProofs excludedProofs t maxTxns maxBytes = .ok (ps, q')) :
    q' = { q with digestQueue := q.remaining t, digestProof := q.drained t } := by
  rw [pullProofs_eq q _ _ _ _ h.nodup h.present, except_bind_eq_ok] at hps
  obtain ⟨ret, -, hq⟩ := hps
  cases hq
  rfl

theorem pullProofs_mem {q : ProofQueue} (h : Inv q) {excludedProofs : List HashValue}
    {t : LogicalTime} {maxTxns maxBytes : Nat} {ps : List ProofOfStore} {q' : ProofQueue}
    (hps : q.pullProofs excludedProofs t maxTxns maxBytes = .ok (ps, q')) {p : ProofOfStore}
    (hp : p ∈ ps) :
    ∃ x ∈ q.remaining t, x.1 = p.digest ∧ t ≤ x.2 ∧ p.digest ∉ excludedProofs ∧
      q.drained t x.1 = some (some p) ∧ t ≤ p.expiration := by
  rw [pullProofs_eq q _ _ _ _ h.nodup h.present, except_bind_eq_ok] at hps
  obtain ⟨ret, hret, hps⟩ := hps
  cases hps
  have hd := drained_inv h t
  obtain ⟨x, hx, ht, hex, hm⟩ :=
    mem_eligible.mp ((collect_isPrefix_eligible _ _ _ _ _ _ _ _ hret).sublist.subset hp)
  have hk : p.digest = x.1 := hd.keyed _ _ hm
  exact ⟨x, hx, hk.symm, ht, hk ▸ hex, hm, le_trans ht (hd.expiration_le x hx p hm)⟩

def Output.digests : Output → List HashValue
  | .proofs ps => ps.map ProofOfStore.digest
  | _ => []

/-! ## After a commit -/

/-- `d` is committed, and its queue entry, if it has one, expires no earlier than `bound`. -/
structure HeldUntil (d : HashValue) (bound : LogicalTime) (q : ProofQueue) : Prop where
  inv : Inv q
  committed : q.digestProof d = some none
  entry_ge : ∀ x ∈ q.digestQueue, x.1 = d → bound ≤ x.2

/-- No proof is stored for `d`: its `digest_proof` entry is `None` or missing. -/
structure NoProof (d : HashValue) (q : ProofQueue) : Prop where
  inv : Inv q
  no_proof : ∀ p, q.digestProof d ≠ some (some p)

theorem HeldUntil.drained {d : HashValue} {bound : LogicalTime} {q : ProofQueue}
    (h : HeldUntil d bound q) {t : LogicalTime} (ht : t ≤ bound) :
    q.drained t d = some none := by
  rw [ProofQueue.drained, if_neg]
  · exact h.committed
  · simp only [List.mem_map, not_exists, not_and]
    intro x hx hxd
    exact absurd (lt_of_le_of_lt (le_trans ht (h.entry_ge x (List.mem_of_mem_take hx) hxd))
      (lt_of_mem_take_numExpired hx)) (lt_irrefl _)

theorem digest_not_pulled {q q' : ProofQueue} {excludedProofs : List HashValue} {t : LogicalTime}
    {maxTxns maxBytes : Nat} {ps : List ProofOfStore} {d : HashValue} (hinv : Inv q)
    (hps : q.pullProofs excludedProofs t maxTxns maxBytes = .ok (ps, q'))
    (hd : ∀ p, q.drained t d ≠ some (some p)) : d ∉ ps.map ProofOfStore.digest := fun hmem => by
  obtain ⟨p, hp, rfl⟩ := List.mem_map.mp hmem
  obtain ⟨x, -, hx, -, -, hm, -⟩ := pullProofs_mem hinv hps hp
  rw [hx] at hm
  exact hd p hm

section Held

variable {d : HashValue} {bound : LogicalTime} {q : ProofQueue} (h : HeldUntil d bound q)
include h

theorem HeldUntil.push (proof : ProofOfStore) (isLocal : Bool) :
    HeldUntil d bound (q.push proof isLocal) := by
  refine ⟨push_inv h.inv proof isLocal, ?_, fun x hx hxd => ?_⟩
  · by_cases hp : proof.digest = d
    · subst hp; simp [h.committed, admits, replaces]
    · simp only [push_digestProof]
      split_ifs
      · rw [Function.update_noteq (Ne.symm hp)]; exact h.committed
      · exact h.committed
  · simp only [push_digestQueue] at hx
    split_ifs at hx with hn
    · rcases List.mem_append.mp hx with hx | hx
      · exact h.entry_ge x hx hxd
      · have hpd : proof.digest = d := by rw [← hxd, List.mem_singleton.mp hx]
        have hc := h.committed
        rw [← hpd, hn] at hc
        cases hc
    · exact h.entry_ge x hx hxd

theorem HeldUntil.markCommitted (digests : List HashValue) :
    HeldUntil d bound (q.markCommitted digests) := by
  refine ⟨markCommitted_inv h.inv digests, ?_, h.entry_ge⟩
  simp only [markCommitted_digestProof]
  split_ifs
  · rfl
  · exact h.committed

theorem HeldUntil.pullProofs {excludedProofs : List HashValue} {t : LogicalTime}
    {maxTxns maxBytes : Nat} {ps : List ProofOfStore} {q' : ProofQueue}
    (hps : q.pullProofs excludedProofs t maxTxns maxBytes = .ok (ps, q')) (ht : t ≤ bound) :
    HeldUntil d bound q' ∧ d ∉ ps.map ProofOfStore.digest := by
  have hinv := step_inv h.inv (step_pullProofs_eq_ok.mpr ⟨ps, hps, rfl⟩)
  obtain rfl := pullProofs_state h.inv hps
  refine ⟨⟨hinv, h.drained ht, fun x hx => h.entry_ge x (List.mem_of_mem_drop hx)⟩, ?_⟩
  exact digest_not_pulled h.inv hps fun p hp => by rw [h.drained ht] at hp; cases hp

end Held

theorem HeldUntil.step {d : HashValue} {bound : LogicalTime} {q q' : ProofQueue} {op : Op}
    {out : Output} (h : HeldUntil d bound q)
    (ht : ∀ excludedProofs t maxTxns maxBytes, op = .pullProofs excludedProofs t maxTxns maxBytes →
      t ≤ bound)
    (hs : q.step op = .ok (q', out)) : HeldUntil d bound q' ∧ d ∉ out.digests := by
  cases op with
  | push proof isLocal => cases hs; exact ⟨h.push proof isLocal, by simp [Output.digests]⟩
  | markCommitted digests => cases hs; exact ⟨h.markCommitted digests, by simp [Output.digests]⟩
  | pullProofs excludedProofs t maxTxns maxBytes =>
    obtain ⟨ps, hps, rfl⟩ := step_pullProofs_eq_ok.mp hs
    exact h.pullProofs hps (ht _ t _ _ rfl)
  | cleanLocalProofs t =>
    cases hs
    exact ⟨⟨h.inv.of_eq rfl rfl, h.committed, h.entry_ge⟩, by simp [Output.digests]⟩

theorem NoProof.step {d : HashValue} {q q' : ProofQueue} {op : Op} {out : Output}
    (h : NoProof d q) (hpush : ∀ proof isLocal, op = .push proof isLocal → proof.digest ≠ d)
    (hs : q.step op = .ok (q', out)) : NoProof d q' ∧ d ∉ out.digests := by
  cases op with
  | push proof isLocal =>
    cases hs
    refine ⟨⟨push_inv h.inv proof isLocal, fun p => ?_⟩, by simp [Output.digests]⟩
    simp only [push_digestProof]
    split_ifs
    · rw [Function.update_noteq (Ne.symm (hpush proof isLocal rfl))]; exact h.no_proof p
    · exact h.no_proof p
  | markCommitted digests =>
    cases hs
    refine ⟨⟨markCommitted_inv h.inv digests, fun p => ?_⟩, by simp [Output.digests]⟩
    simp only [markCommitted_digestProof]
    split_ifs
    · simp
    · exact h.no_proof p
  | pullProofs excludedProofs t maxTxns maxBytes =>
    obtain ⟨ps, hps, rfl⟩ := step_pullProofs_eq_ok.mp hs
    have hd : ∀ p, q.drained t d ≠ some (some p) := fun p => by
      simp only [drained]
      split_ifs
      · simp
      · exact h.no_proof p
    have hinv := step_inv h.inv hs
    obtain rfl := pullProofs_state h.inv hps
    exact ⟨⟨hinv, hd⟩, digest_not_pulled h.inv hps hd⟩
  | cleanLocalProofs t =>
    cases hs
    exact ⟨⟨h.inv.of_eq rfl rfl, h.no_proof⟩, by simp [Output.digests]⟩

def WithinBudget (maxTxns maxBytes : Nat) (ps : List ProofOfStore) : Prop :=
  (ps.map (·.info.numTxns)).sum ≤ maxTxns ∧ (ps.map (·.info.numBytes)).sum ≤ maxBytes

section Longest

variable (excludedProofs : List HashValue) (t : LogicalTime) (maxTxns maxBytes : Nat)
  (m : HashValue → Option (Option ProofOfStore))

theorem collect_longest (l : List (HashValue × LogicalTime)) (hp : ∀ x ∈ l, m x.1 ≠ none)
    (curBytes curTxns : Nat) (hcb : curBytes ≤ maxBytes) (hct : curTxns ≤ maxTxns)
    (hb : curBytes + ((eligible excludedProofs t m l).map (·.info.numBytes)).sum < 2 ^ 64)
    (htx : curTxns + ((eligible excludedProofs t m l).map (·.info.numTxns)).sum < 2 ^ 64) :
    ∃ ps, collect excludedProofs t maxTxns maxBytes m l curBytes curTxns = .ok ps ∧
      ps <+: eligible excludedProofs t m l ∧
      curBytes + (ps.map (·.info.numBytes)).sum ≤ maxBytes ∧
      curTxns + (ps.map (·.info.numTxns)).sum ≤ maxTxns ∧
      ∀ ps', ps' <+: eligible excludedProofs t m l →
        curBytes + (ps'.map (·.info.numBytes)).sum ≤ maxBytes →
        curTxns + (ps'.map (·.info.numTxns)).sum ≤ maxTxns → ps'.length ≤ ps.length := by
  induction l generalizing curBytes curTxns with
  | nil => exact ⟨[], rfl, List.nil_prefix, by simpa using hcb, by simpa using hct,
      fun ps' h _ _ => by simp [eligible, List.prefix_nil.mp h]⟩
  | cons x l ih =>
    have hl : ∀ x ∈ l, m x.1 ≠ none := fun y hy => hp y (List.mem_cons_of_mem _ hy)
    rcases collect_cons excludedProofs t maxTxns maxBytes m x l curBytes curTxns with
      ⟨hm, -⟩ | ⟨he, hc⟩ | ⟨proof, he, hc⟩
    · exact absurd hm (hp _ (List.mem_cons_self _ _))
    · rw [he] at hb htx ⊢
      exact hc ▸ ih hl curBytes curTxns hcb hct hb htx
    · rw [he] at hb htx ⊢
      simp only [List.map_cons, List.sum_cons] at hb htx
      rw [hc, addChecked_eq_ok (show curBytes + proof.info.numBytes < 2 ^ 64 by omega),
        addChecked_eq_ok (show curTxns + proof.info.numTxns < 2 ^ 64 by omega)]
      by_cases hover : maxBytes < curBytes + proof.info.numBytes ∨
          maxTxns < curTxns + proof.info.numTxns
      · refine ⟨[], by simp [hover, bind, Except.bind, pure, Except.pure], List.nil_prefix,
          by simpa using hcb, by simpa using hct, fun ps' h hb' ht' => ?_⟩
        rcases List.prefix_cons_iff.mp h with rfl | ⟨ps'', rfl, -⟩
        · rfl
        · simp only [List.map_cons, List.sum_cons] at hb' ht'
          omega
      · obtain ⟨ret, hret, hpre, hb', ht', hlong⟩ := ih hl (curBytes + proof.info.numBytes)
          (curTxns + proof.info.numTxns) (by omega) (by omega) (by omega) (by omega)
        refine ⟨proof :: ret, ?_, List.cons_prefix_cons.mpr ⟨rfl, hpre⟩, ?_, ?_, ?_⟩
        · simp [hover, hret, bind, Except.bind, pure, Except.pure]
        · simp only [List.map_cons, List.sum_cons]; omega
        · simp only [List.map_cons, List.sum_cons]; omega
        · intro ps' h hb'' ht''
          rcases List.prefix_cons_iff.mp h with rfl | ⟨ps'', rfl, hpre'⟩
          · exact Nat.zero_le _
          · simp only [List.map_cons, List.sum_cons] at hb'' ht''
            simpa using hlong ps'' hpre' (by omega) (by omega)

end Longest

theorem eligible_drained {q : ProofQueue} (h : Inv q) (excludedProofs : List HashValue)
    (t : LogicalTime) :
    eligible excludedProofs t q.digestProof q.digestQueue =
      eligible excludedProofs t (q.drained t) (q.remaining t) := by
  conv_lhs => rw [← List.take_append_drop (numExpired q.digestQueue t) q.digestQueue]
  rw [eligible, List.filterMap_append, List.filterMap_eq_nil_iff.mpr, List.nil_append]
  · refine List.filterMap_congr fun x hx => ?_
    rw [drained, if_neg (not_mem_take_of_mem_drop h.nodup hx)]
  · intro x hx
    rw [if_neg fun hc => absurd (lt_of_le_of_lt hc.1 (lt_of_mem_take_numExpired hx)) (lt_irrefl _)]

/-- From a reachable queue, as long as the sums of `E` fit in `u64`, `pull_proofs` returns the
longest prefix of `E` within both budgets; `E` is read from the queue before the drain. -/
theorem pullProofs_longest_within_budget {q : ProofQueue} (hq : Reachable q)
    (excludedProofs : List HashValue) (t : LogicalTime) (maxTxns maxBytes : Nat)
    (hb : ((eligible excludedProofs t q.digestProof q.digestQueue).map
      (·.info.numBytes)).sum < 2 ^ 64)
    (htx : ((eligible excludedProofs t q.digestProof q.digestQueue).map
      (·.info.numTxns)).sum < 2 ^ 64) :
    ∃ ps q', q.pullProofs excludedProofs t maxTxns maxBytes = .ok (ps, q') ∧
      ps <+: eligible excludedProofs t q.digestProof q.digestQueue ∧
      WithinBudget maxTxns maxBytes ps ∧
      ∀ ps', ps' <+: eligible excludedProofs t q.digestProof q.digestQueue →
        WithinBudget maxTxns maxBytes ps' → ps'.length ≤ ps.length := by
  have h := reachable_inv hq
  rw [eligible_drained h] at hb htx ⊢
  obtain ⟨ps, hps, hpre, hb', ht', hlong⟩ := collect_longest excludedProofs t maxTxns maxBytes
    (q.drained t) (q.remaining t) (drained_inv h t).present 0 0 (Nat.zero_le _) (Nat.zero_le _)
    (by simpa using hb) (by simpa using htx)
  refine ⟨ps, { q with digestQueue := q.remaining t, digestProof := q.drained t }, ?_, hpre,
    ⟨by simpa using ht', by simpa using hb'⟩,
    fun ps' h' hw => hlong ps' h' (by simpa using hw.2) (by simpa using hw.1)⟩
  rw [pullProofs_eq q _ _ _ _ h.nodup h.present, hps]
  rfl

/-- Three proofs of 2, 5 and 1 bytes under a budget of 4 bytes: the pull returns the first and
stops at the second, although the third would fit. -/
theorem pullProofs_longest_stops_at_budget :
    let q := ((new.push ⟨⟨1, ⟨0, 10⟩, 1, 2⟩⟩ false).push ⟨⟨2, ⟨0, 10⟩, 1, 5⟩⟩ false).push
      ⟨⟨3, ⟨0, 10⟩, 1, 1⟩⟩ false
    (q.pullProofs [] ⟨0, 1⟩ 10 4).map Prod.fst = .ok [⟨⟨1, ⟨0, 10⟩, 1, 2⟩⟩] ∧
      ∃ ps q', q.pullProofs [] ⟨0, 1⟩ 10 4 = .ok (ps, q') ∧
        ps <+: eligible [] ⟨0, 1⟩ q.digestProof q.digestQueue ∧ WithinBudget 10 4 ps ∧
        ∀ ps', ps' <+: eligible [] ⟨0, 1⟩ q.digestProof q.digestQueue →
          WithinBudget 10 4 ps' → ps'.length ≤ ps.length :=
  ⟨rfl, pullProofs_longest_within_budget
    (@Reachable.run new _ [.push ⟨⟨1, ⟨0, 10⟩, 1, 2⟩⟩ false, .push ⟨⟨2, ⟨0, 10⟩, 1, 5⟩⟩ false,
      .push ⟨⟨3, ⟨0, 10⟩, 1, 1⟩⟩ false] _ .new rfl) [] ⟨0, 1⟩ 10 4 (by decide) (by decide)⟩

/-- A duplicate with a later expiration replaces the stored proof, but the queue keeps the first
expiration: a pull between the two expirations drains the digest and returns nothing. -/
theorem replaced_proof_drained_early :
    ((new.push ⟨⟨1, ⟨0, 10⟩, 1, 1⟩⟩ false).push ⟨⟨1, ⟨0, 20⟩, 1, 1⟩⟩ false).digestProof 1 =
        some (some ⟨⟨1, ⟨0, 20⟩, 1, 1⟩⟩) ∧
      (((new.push ⟨⟨1, ⟨0, 10⟩, 1, 1⟩⟩ false).push ⟨⟨1, ⟨0, 20⟩, 1, 1⟩⟩ false).pullProofs []
        ⟨0, 15⟩ 100 100).map Prod.fst = .ok [] :=
  ⟨rfl, rfl⟩

/-- Two proofs of `2 ^ 63` bytes each: `cur_bytes` overflows on the second, where the intended
longest prefix within `max_bytes = 2 ^ 63` is the first proof alone. -/
theorem pullProofs_accumulator_overflow :
    (((new.push ⟨⟨1, ⟨0, 10⟩, 1, 2 ^ 63⟩⟩ false).push ⟨⟨2, ⟨0, 10⟩, 1, 2 ^ 63⟩⟩ false).pullProofs []
      ⟨0, 1⟩ 100 (2 ^ 63)).map Prod.fst = .error .addOverflow := rfl

end ProofQueue

end QuorumStore
