import QuorumStore.ProofQueue

set_option autoImplicit false

/-!
# The `ProofQueue` invariant

Every reachable queue lists each digest at most once, keeps an entry in `digest_proof` for each
listed digest, files each proof under its own digest, and never lists a digest with an
expiration later than its stored proof's. From this, neither `expect("Entry for unexpired digest
must exist")` nor `assert_some!` in `pull_proofs` can fail, and a pull never returns two proofs
with one digest. The only panic left in `pull_proofs` is an overflow of its `u64` accumulators.
-/

namespace QuorumStore

namespace ProofQueue

/-- What every reachable `ProofQueue` satisfies. -/
structure Inv (q : ProofQueue) : Prop where
  nodup : (q.digestQueue.map Prod.fst).Nodup
  present : ∀ x ∈ q.digestQueue, q.digestProof x.1 ≠ none
  keyed : ∀ d p, q.digestProof d = some (some p) → p.digest = d
  expiration_le : ∀ x ∈ q.digestQueue, ∀ p, q.digestProof x.1 = some (some p) → x.2 ≤ p.expiration

theorem Inv.of_eq {q q' : ProofQueue} (h : Inv q) (h1 : q'.digestQueue = q.digestQueue)
    (h2 : q'.digestProof = q.digestProof) : Inv q' := by
  obtain ⟨a, b, c, d⟩ := h
  exact ⟨h1 ▸ a, h1 ▸ h2 ▸ b, h2 ▸ c, h1 ▸ h2 ▸ d⟩

theorem new_inv : Inv new := ⟨List.nodup_nil, by simp [new], by simp [new], by simp [new]⟩

theorem not_mem_of_none {q : ProofQueue} (h : Inv q) {d : HashValue}
    (hn : q.digestProof d = none) : d ∉ q.digestQueue.map Prod.fst := by
  simp only [List.mem_map, not_exists, not_and]
  exact fun x hx hd => h.present x hx (hd ▸ hn)

theorem Inv.store {q q' : ProofQueue} (h : Inv q) {proof : ProofOfStore}
    (hnodup : (q'.digestQueue.map Prod.fst).Nodup)
    (hmem : ∀ x ∈ q'.digestQueue, x.1 ≠ proof.digest → x ∈ q.digestQueue)
    (hle : ∀ x ∈ q'.digestQueue, x.1 = proof.digest → x.2 ≤ proof.expiration)
    (h2 : q'.digestProof = Function.update q.digestProof proof.digest (some (some proof))) :
    Inv q' := by
  refine ⟨hnodup, fun x hx => ?_, fun d p hd => ?_, fun x hx p hp => ?_⟩
  · rw [h2, Function.update_apply]
    split_ifs with he
    · simp
    · exact h.present x (hmem x hx he)
  · rw [h2, Function.update_apply] at hd
    split_ifs at hd with he
    · cases hd; exact he.symm
    · exact h.keyed d p hd
  · rw [h2, Function.update_apply] at hp
    split_ifs at hp with he
    · cases hp; exact hle x hx he
    · exact h.expiration_le x (hmem x hx he) p hp

theorem Inv.push_new {q q' : ProofQueue} (h : Inv q) {proof : ProofOfStore}
    (hn : q.digestProof proof.digest = none)
    (h1 : q'.digestQueue = q.digestQueue ++ [(proof.digest, proof.expiration)])
    (h2 : q'.digestProof = Function.update q.digestProof proof.digest (some (some proof))) :
    Inv q' := by
  have hfresh := not_mem_of_none h hn
  refine h.store ?_ (fun x hx he => ?_) (fun x hx he => ?_) h2
  · rw [h1, List.map_append, List.map_singleton]
    exact h.nodup.append (List.nodup_singleton _) (List.disjoint_singleton.mpr hfresh)
  all_goals rw [h1, List.mem_append, List.mem_singleton] at hx
  · exact hx.resolve_right fun hx => he (hx ▸ rfl)
  · rcases hx with hx | rfl
    · exact absurd (he ▸ List.mem_map_of_mem Prod.fst hx) hfresh
    · exact le_refl _

theorem Inv.push_replace {q q' : ProofQueue} (h : Inv q) {proof old : ProofOfStore}
    (hold : q.digestProof proof.digest = some (some old)) (hlt : old.expiration < proof.expiration)
    (h1 : q'.digestQueue = q.digestQueue)
    (h2 : q'.digestProof = Function.update q.digestProof proof.digest (some (some proof))) :
    Inv q' :=
  h.store (h1 ▸ h.nodup) (fun _ hx _ => h1 ▸ hx)
    (fun x hx he => le_of_lt (lt_of_le_of_lt (h.expiration_le x (h1 ▸ hx) old (he ▸ hold)) hlt)) h2

theorem push_inv {q : ProofQueue} (h : Inv q) (proof : ProofOfStore) (isLocal : Bool) :
    Inv (q.push proof isLocal) := by
  cases hd : q.digestProof proof.digest with
  | none => exact h.push_new hd (by simp [hd]) (by simp [hd, admits])
  | some entry =>
    cases hr : replaces entry proof with
    | true =>
      obtain ⟨old, rfl⟩ : ∃ old, entry = some old := by
        cases entry with
        | none => simp [replaces] at hr
        | some old => exact ⟨old, rfl⟩
      exact h.push_replace hd (by simpa [replaces] using hr) (by simp [hd])
        (by simp [hd, admits, hr])
    | false => exact h.of_eq (by simp [hd]) (by simp [hd, admits, hr])

theorem markCommitted_inv {q : ProofQueue} (h : Inv q) (digests : List HashValue) :
    Inv (q.markCommitted digests) := by
  refine ⟨h.nodup, ?_, ?_, ?_⟩
  · intro x hx
    simp only [markCommitted_digestProof]
    split_ifs
    · simp
    · exact h.present x hx
  · intro d p hd
    simp only [markCommitted_digestProof] at hd
    split_ifs at hd
    · cases hd
    · exact h.keyed d p hd
  · intro x hx p hp
    simp only [markCommitted_digestProof] at hp
    split_ifs at hp
    · cases hp
    · exact h.expiration_le x hx p hp

theorem drained_inv {q : ProofQueue} (h : Inv q) (t : LogicalTime) :
    Inv { q with digestQueue := q.remaining t, digestProof := q.drained t } := by
  have hkeep : ∀ x ∈ q.remaining t, q.drained t x.1 = q.digestProof x.1 := fun x hx => by
    rw [drained, if_neg (not_mem_take_of_mem_drop h.nodup hx)]
  refine ⟨?_, ?_, ?_, ?_⟩
  · simpa [remaining, List.map_drop] using h.nodup.sublist (List.drop_sublist _ _)
  · intro x hx
    show q.drained t x.1 ≠ none
    rw [hkeep x hx]
    exact h.present x (List.mem_of_mem_drop hx)
  · intro d p hd
    simp only [drained] at hd
    split_ifs at hd
    exact h.keyed d p hd
  · intro x hx p hp
    exact h.expiration_le x (List.mem_of_mem_drop hx) p (hkeep x hx ▸ hp)

/-- The sequence `E` a pull selects from: in queue order, the stored proofs of the entries that
expire no earlier than `currentTime` and whose digest is not excluded. -/
def eligible (excludedProofs : List HashValue) (currentTime : LogicalTime)
    (digestProof : HashValue → Option (Option ProofOfStore))
    (queue : List (HashValue × LogicalTime)) : List ProofOfStore :=
  queue.filterMap fun x =>
    if currentTime ≤ x.2 ∧ x.1 ∉ excludedProofs then (digestProof x.1).join else none

section Collect

variable (excludedProofs : List HashValue) (t : LogicalTime) (maxTxns maxBytes : Nat)
  (m : HashValue → Option (Option ProofOfStore))

theorem collect_cons (x : HashValue × LogicalTime) (l : List (HashValue × LogicalTime))
    (curBytes curTxns : Nat) :
    (m x.1 = none ∧ collect excludedProofs t maxTxns maxBytes m (x :: l) curBytes curTxns =
        .error (.expect "Entry for unexpired digest must exist")) ∨
    (eligible excludedProofs t m (x :: l) = eligible excludedProofs t m l ∧
      collect excludedProofs t maxTxns maxBytes m (x :: l) curBytes curTxns =
        collect excludedProofs t maxTxns maxBytes m l curBytes curTxns) ∨
    ∃ proof, eligible excludedProofs t m (x :: l) = proof :: eligible excludedProofs t m l ∧
      collect excludedProofs t maxTxns maxBytes m (x :: l) curBytes curTxns = (do
        let curBytes ← addChecked curBytes proof.info.numBytes
        let curTxns ← addChecked curTxns proof.info.numTxns
        if maxBytes < curBytes ∨ maxTxns < curTxns then pure [] else do
          let ret ← collect excludedProofs t maxTxns maxBytes m l curBytes curTxns
          pure (proof :: ret)) := by
  obtain ⟨digest, expiration⟩ := x
  by_cases hc : t ≤ expiration ∧ digest ∉ excludedProofs
  · cases hm : m digest with
    | none => exact .inl ⟨rfl, by simp only [collect, if_pos hc, hm]⟩
    | some v =>
      cases v with
      | none =>
        exact .inr (.inl ⟨by simp [eligible, hc, hm], by simp only [collect, if_pos hc, hm]⟩)
      | some proof =>
        exact .inr (.inr ⟨proof, by simp [eligible, hc, hm], by simp only [collect, if_pos hc, hm]⟩)
  · exact .inr (.inl ⟨by simp [eligible, hc], by simp only [collect, if_neg hc]⟩)

theorem collect_error_addOverflow (l : List (HashValue × LogicalTime))
    (hp : ∀ x ∈ l, m x.1 ≠ none) (curBytes curTxns : Nat) {e : Panic}
    (he : collect excludedProofs t maxTxns maxBytes m l curBytes curTxns = .error e) :
    e = .addOverflow := by
  induction l generalizing curBytes curTxns with
  | nil => simp [collect] at he
  | cons x l ih =>
    have hl : ∀ x ∈ l, m x.1 ≠ none := fun y hy => hp y (List.mem_cons_of_mem _ hy)
    rcases collect_cons excludedProofs t maxTxns maxBytes m x l curBytes curTxns with
      ⟨hm, -⟩ | ⟨-, hc⟩ | ⟨proof, -, hc⟩
    · exact absurd hm (hp _ (List.mem_cons_self _ _))
    · exact ih hl _ _ (hc ▸ he)
    · rw [hc, except_bind_eq_error] at he
      rcases he with he | ⟨b, -, he⟩
      · exact addChecked_error he
      rcases except_bind_eq_error.mp he with he | ⟨c, -, he⟩
      · exact addChecked_error he
      split_ifs at he
      · cases he
      rcases except_bind_eq_error.mp he with he | ⟨_, _, he⟩
      · exact ih hl _ _ he
      · cases he

theorem collect_isPrefix_eligible (l : List (HashValue × LogicalTime)) (curBytes curTxns : Nat)
    {ps : List ProofOfStore}
    (hps : collect excludedProofs t maxTxns maxBytes m l curBytes curTxns = .ok ps) :
    ps <+: eligible excludedProofs t m l := by
  induction l generalizing curBytes curTxns ps with
  | nil => simp only [collect, Except.ok.injEq] at hps; simp [← hps]
  | cons x l ih =>
    rcases collect_cons excludedProofs t maxTxns maxBytes m x l curBytes curTxns with
      ⟨-, hc⟩ | ⟨he, hc⟩ | ⟨proof, he, hc⟩
    · cases hc ▸ hps
    · exact he ▸ ih _ _ (hc ▸ hps)
    · rw [he]
      rw [hc, except_bind_eq_ok] at hps
      obtain ⟨b, -, hps⟩ := hps
      obtain ⟨c, -, hps⟩ := except_bind_eq_ok.mp hps
      split_ifs at hps
      · cases hps; exact List.nil_prefix
      · obtain ⟨ret, hret, hps⟩ := except_bind_eq_ok.mp hps
        cases hps
        exact List.cons_prefix_cons.mpr ⟨rfl, ih _ _ hret⟩

theorem eligible_digests_sublist (hkeyed : ∀ d p, m d = some (some p) → p.digest = d)
    (l : List (HashValue × LogicalTime)) :
    ((eligible excludedProofs t m l).map ProofOfStore.digest).Sublist (l.map Prod.fst) := by
  induction l with
  | nil => simp [eligible]
  | cons x l ih =>
    simp only [eligible, List.filterMap_cons, List.map_cons] at ih ⊢
    split_ifs
    · cases hm : m x.1 with
      | none => exact ih.cons _
      | some v =>
        cases v with
        | none => exact ih.cons _
        | some p => simpa [hkeyed _ _ hm] using ih.cons₂ x.1
    · exact ih.cons _

end Collect

theorem step_inv {q q' : ProofQueue} {op : Op} {out : Output} (h : Inv q)
    (hs : q.step op = .ok (q', out)) : Inv q' := by
  cases op with
  | push proof isLocal => cases hs; exact push_inv h proof isLocal
  | markCommitted digests => cases hs; exact markCommitted_inv h digests
  | pullProofs excludedProofs t maxTxns maxBytes =>
    obtain ⟨ps, hps, -⟩ := step_pullProofs_eq_ok.mp hs
    rw [pullProofs_eq q _ _ _ _ h.nodup h.present, except_bind_eq_ok] at hps
    obtain ⟨ret, -, hq⟩ := hps
    cases hq
    exact drained_inv h t
  | cleanLocalProofs t => cases hs; exact h.of_eq rfl rfl

theorem reachable_inv {q : ProofQueue} (hq : Reachable q) : Inv q := by
  induction hq with
  | new => exact new_inv
  | step _ hs ih => exact step_inv ih hs

theorem pullProofs_error {q : ProofQueue} (h : Inv q) {excludedProofs : List HashValue}
    {t : LogicalTime} {maxTxns maxBytes : Nat} {e : Panic}
    (he : q.pullProofs excludedProofs t maxTxns maxBytes = .error e) : e = .addOverflow := by
  rw [pullProofs_eq q _ _ _ _ h.nodup h.present, except_bind_eq_error] at he
  rcases he with he | ⟨_, _, he⟩
  · exact collect_error_addOverflow _ _ _ _ _ _ (drained_inv h t).present _ _ he
  · cases he

theorem pullProofs_digests_nodup {q : ProofQueue} (h : Inv q) {excludedProofs : List HashValue}
    {t : LogicalTime} {maxTxns maxBytes : Nat} {ps : List ProofOfStore} {q' : ProofQueue}
    (hps : q.pullProofs excludedProofs t maxTxns maxBytes = .ok (ps, q')) :
    (ps.map ProofOfStore.digest).Nodup := by
  rw [pullProofs_eq q _ _ _ _ h.nodup h.present, except_bind_eq_ok] at hps
  obtain ⟨ret, hret, hps⟩ := hps
  cases hps
  have hd := drained_inv h t
  have hsub := eligible_digests_sublist excludedProofs t (q.drained t) hd.keyed (q.remaining t)
  exact (hd.nodup.sublist hsub).sublist
    ((collect_isPrefix_eligible _ _ _ _ _ _ _ _ hret).sublist.map ProofOfStore.digest)

/-- From every reachable queue, `pull_proofs` hits neither `expect` nor `assert_some!` (its only
possible panic is an overflow of `cur_bytes` or `cur_txns`), returns proofs with distinct
digests, and the queue lists distinct digests, each a key of `digest_proof`. -/
theorem reachable_pullProofs_safe {q : ProofQueue} (hq : Reachable q) :
    ((q.digestQueue.map Prod.fst).Nodup ∧ ∀ x ∈ q.digestQueue, q.digestProof x.1 ≠ none) ∧
    ∀ (excludedProofs : List HashValue) (t : LogicalTime) (maxTxns maxBytes : Nat),
      (∀ e, q.pullProofs excludedProofs t maxTxns maxBytes = .error e → e = .addOverflow) ∧
      (∀ ps q', q.pullProofs excludedProofs t maxTxns maxBytes = .ok (ps, q') →
        (ps.map ProofOfStore.digest).Nodup) := by
  have h := reachable_inv hq
  exact ⟨⟨h.nodup, h.present⟩, fun _ _ _ _ =>
    ⟨fun _ he => pullProofs_error h he, fun _ _ hps => pullProofs_digests_nodup h hps⟩⟩

/-- A queue reached by a duplicate push with a later expiration, a commit of a known and of an
unknown digest, a pull that drains both entries, and one more push. -/
theorem pullProofs_safe_after_commits :
    ∃ q outs, new.run [.push ⟨⟨1, ⟨0, 10⟩, 1, 1⟩⟩ false, .push ⟨⟨1, ⟨0, 20⟩, 1, 1⟩⟩ true,
        .push ⟨⟨2, ⟨0, 5⟩, 1, 1⟩⟩ false, .markCommitted [2, 7], .pullProofs [] ⟨0, 11⟩ 100 100,
        .push ⟨⟨3, ⟨0, 30⟩, 1, 1⟩⟩ false] = .ok (q, outs) ∧
      ((q.digestQueue.map Prod.fst).Nodup ∧ ∀ x ∈ q.digestQueue, q.digestProof x.1 ≠ none) ∧
      ∀ (excludedProofs : List HashValue) (t : LogicalTime) (maxTxns maxBytes : Nat),
        (∀ e, q.pullProofs excludedProofs t maxTxns maxBytes = .error e → e = .addOverflow) ∧
        (∀ ps q', q.pullProofs excludedProofs t maxTxns maxBytes = .ok (ps, q') →
          (ps.map ProofOfStore.digest).Nodup) :=
  ⟨_, _, rfl, reachable_pullProofs_safe (@Reachable.run new _ [.push ⟨⟨1, ⟨0, 10⟩, 1, 1⟩⟩ false,
    .push ⟨⟨1, ⟨0, 20⟩, 1, 1⟩⟩ true, .push ⟨⟨2, ⟨0, 5⟩, 1, 1⟩⟩ false, .markCommitted [2, 7],
    .pullProofs [] ⟨0, 11⟩ 100 100, .push ⟨⟨3, ⟨0, 30⟩, 1, 1⟩⟩ false] _ .new rfl)⟩

end ProofQueue

end QuorumStore
