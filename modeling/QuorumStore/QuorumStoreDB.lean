import QuorumStore.Types

set_option autoImplicit false

/-!
# `QuorumStoreDB`: the batch id column family

`save_batch_id` puts the row for an epoch; `clean_and_get_batch_id(current_epoch)` collects every
row into a `HashMap`, asserts that no row is newer than `current_epoch`, deletes the older rows and
returns the id stored for `current_epoch`. The `HashMap` has no specified order, so the loop is
modelled over every permutation of the rows, and a call sequence is a run of a relation that
picks one.

A clean for a newer epoch deletes the row, so the id returned for an epoch is the last one saved
for it since the last clean for another epoch, not the last one ever saved. Database errors are
not modelled; the batch column family is not read by these calls.
-/

namespace QuorumStore

/-- The rows of the `BatchIdSchema` column family: one batch id per epoch. -/
@[ext]
structure QuorumStoreDB where
  batchIds : List (Nat × BatchId)
  nodup : (batchIds.map Prod.fst).Nodup

namespace QuorumStoreDB

def empty : QuorumStoreDB := ⟨[], List.nodup_nil⟩

def get (db : QuorumStoreDB) (epoch : Nat) : Option BatchId := db.batchIds.lookup epoch

def retain (db : QuorumStoreDB) (keep : Nat → Bool) : QuorumStoreDB :=
  ⟨db.batchIds.filter (fun r => keep r.1), db.nodup.sublist ((List.filter_sublist _).map _)⟩

def deleteBatchId (db : QuorumStoreDB) (epoch : Nat) : QuorumStoreDB :=
  db.retain fun e => e ≠ epoch

def saveBatchId (db : QuorumStoreDB) (epoch : Nat) (batchId : BatchId) : QuorumStoreDB :=
  ⟨(epoch, batchId) :: (db.deleteBatchId epoch).batchIds,
    List.nodup_cons.mpr ⟨by simp [deleteBatchId, retain], (db.deleteBatchId epoch).nodup⟩⟩

/-- The loop of `clean_and_get_batch_id` over the collected rows, in iteration order. -/
def cleanRows (currentEpoch : Nat) :
    List (Nat × BatchId) → QuorumStoreDB → Option BatchId →
      Except Panic (Option BatchId × QuorumStoreDB)
  | [], db, ret => .ok (ret, db)
  | (epoch, batchId) :: rows, db, ret =>
    if epoch ≤ currentEpoch then
      if epoch < currentEpoch then cleanRows currentEpoch rows (db.deleteBatchId epoch) ret
      else cleanRows currentEpoch rows db (some batchId)
    else .error (.assert "current_epoch >= epoch")

/-- `clean_and_get_batch_id`, where `epochBatchId` is the order in which the `HashMap` of the
collected rows is iterated. -/
def cleanAndGetBatchId (db : QuorumStoreDB) (currentEpoch : Nat)
    (epochBatchId : List (Nat × BatchId)) : Except Panic (Option BatchId × QuorumStoreDB) :=
  cleanRows currentEpoch epochBatchId db none

inductive Op
  | saveBatchId (epoch : Nat) (batchId : BatchId)
  | cleanAndGetBatchId (currentEpoch : Nat)
  deriving DecidableEq, Repr

inductive Output
  | unit
  | batchId (ret : Option BatchId)
  deriving DecidableEq, Repr

/-- One call. A clean iterates the rows in any order, and a run continues only past calls that
do not panic. -/
inductive Step : QuorumStoreDB → Op → QuorumStoreDB → Output → Prop
  | saveBatchId (db : QuorumStoreDB) (epoch : Nat) (batchId : BatchId) :
    Step db (.saveBatchId epoch batchId) (db.saveBatchId epoch batchId) .unit
  | cleanAndGetBatchId (db : QuorumStoreDB) (currentEpoch : Nat) (order : List (Nat × BatchId))
    (ret : Option BatchId) (db' : QuorumStoreDB) : order.Perm db.batchIds →
    db.cleanAndGetBatchId currentEpoch order = .ok (ret, db') →
    Step db (.cleanAndGetBatchId currentEpoch) db' (.batchId ret)

inductive Run : QuorumStoreDB → List Op → QuorumStoreDB → List Output → Prop
  | nil (db : QuorumStoreDB) : Run db [] db []
  | cons {db db₁ db₂ : QuorumStoreDB} {op : Op} {ops : List Op} {out : Output}
    {outs : List Output} : Step db op db₁ out → Run db₁ ops db₂ outs →
    Run db (op :: ops) db₂ (out :: outs)

/-- The id a call leaves stored for `epoch`, from the one stored before it: a save for `epoch`
stores its id, and a clean for another epoch removes the row. -/
def liveAfter (epoch : Nat) (stored : Option BatchId) : Op → Option BatchId
  | .saveBatchId e batchId => if e = epoch then some batchId else stored
  | .cleanAndGetBatchId e => if e = epoch then stored else none

/-- The id stored for `epoch` after a sequence of calls from the empty column family: the last
one saved for it since the last clean for another epoch. -/
def liveBatchId (epoch : Nat) (ops : List Op) : Option BatchId :=
  ops.foldl (liveAfter epoch) none

/-- The id of the last `save_batch_id(epoch, b)` of a sequence, as the spec states it. -/
def lastSavedBatchId (epoch : Nat) (ops : List Op) : Option BatchId :=
  ops.foldl (fun stored op => match op with
    | .saveBatchId e batchId => if e = epoch then some batchId else stored
    | .cleanAndGetBatchId _ => stored) none

/-! ## Lookups in rows with distinct epochs -/

theorem lookup_filter (keep : Nat → Bool) (epoch : Nat) :
    ∀ rows : List (Nat × BatchId),
      (rows.filter fun r => keep r.1).lookup epoch = if keep epoch then rows.lookup epoch else none
  | [] => by simp
  | (e, b) :: rows => by
    by_cases he : epoch = e
    · subst he; by_cases hk : keep epoch <;> simp [List.filter_cons, hk, lookup_filter]
    · have hne : (epoch == e) = false := beq_false_of_ne he
      by_cases hk : keep e <;> simp [List.filter_cons, List.lookup_cons, hk, hne, lookup_filter]

theorem lookup_eq_some_iff_mem {epoch : Nat} {batchId : BatchId} :
    ∀ {rows : List (Nat × BatchId)}, (rows.map Prod.fst).Nodup →
      (rows.lookup epoch = some batchId ↔ (epoch, batchId) ∈ rows)
  | [], _ => by simp
  | (e, b) :: rows, hnd => by
    rw [List.map_cons, List.nodup_cons] at hnd
    by_cases he : epoch = e
    · subst he
      have hnot : (epoch, batchId) ∉ rows := fun h => hnd.1 (List.mem_map.mpr ⟨_, h, rfl⟩)
      simp [hnot, eq_comm]
    · simp [List.lookup_cons, beq_false_of_ne he, he, lookup_eq_some_iff_mem hnd.2]

theorem lookup_eq_of_perm {rows rows' : List (Nat × BatchId)} (hp : rows.Perm rows')
    (hnd : (rows.map Prod.fst).Nodup) (epoch : Nat) : rows.lookup epoch = rows'.lookup epoch := by
  have hnd' : (rows'.map Prod.fst).Nodup := (hp.map Prod.fst).nodup_iff.mp hnd
  ext batchId
  rw [Option.mem_def, Option.mem_def, lookup_eq_some_iff_mem hnd, lookup_eq_some_iff_mem hnd']
  exact hp.mem_iff

@[simp] theorem get_retain (db : QuorumStoreDB) (keep : Nat → Bool) (epoch : Nat) :
    (db.retain keep).get epoch = if keep epoch then db.get epoch else none :=
  lookup_filter keep epoch db.batchIds

@[simp] theorem get_saveBatchId (db : QuorumStoreDB) (e epoch : Nat) (batchId : BatchId) :
    (db.saveBatchId e batchId).get epoch = if e = epoch then some batchId else db.get epoch := by
  by_cases he : epoch = e
  · subst he; simp [get, saveBatchId]
  · simp only [get, saveBatchId, deleteBatchId, retain, List.lookup_cons, beq_false_of_ne he]
    exact (lookup_filter (fun x => decide (x ≠ e)) epoch db.batchIds).trans (by simp [he, Ne.symm he])

theorem retain_retain (db : QuorumStoreDB) (keep keep' : Nat → Bool) :
    (db.retain keep).retain keep' = db.retain fun e => keep e && keep' e := by
  ext1; simp [retain, List.filter_filter, Bool.and_comm]

theorem retain_congr (db : QuorumStoreDB) {keep keep' : Nat → Bool}
    (h : ∀ r ∈ db.batchIds, keep r.1 = keep' r.1) : db.retain keep = db.retain keep' := by
  ext1; exact List.filter_congr h

/-! ## `clean_and_get_batch_id` in every iteration order -/

theorem cleanRows_eq (currentEpoch : Nat) :
    ∀ (rows : List (Nat × BatchId)) (db : QuorumStoreDB) (ret : Option BatchId),
      (rows.map Prod.fst).Nodup → (∀ r ∈ rows, r.1 ≤ currentEpoch) →
      cleanRows currentEpoch rows db ret =
        .ok ((rows.lookup currentEpoch).or ret,
          db.retain fun e => !(decide (e < currentEpoch) && decide (e ∈ rows.map Prod.fst)))
  | [], db, ret, _, _ => by
    simp only [cleanRows, List.lookup_nil, Option.none_or, List.map_nil]
    congr; ext1; simp [retain]
  | (e, b) :: rows, db, ret, hnd, hle => by
    rw [List.map_cons, List.nodup_cons] at hnd
    have hrows : ∀ r ∈ rows, r.1 ≤ currentEpoch := fun r hr => hle r (List.mem_cons_of_mem _ hr)
    have he : e ≤ currentEpoch := hle (e, b) (List.mem_cons_self _ _)
    rw [cleanRows, if_pos he]
    by_cases hlt : e < currentEpoch
    · rw [if_pos hlt, cleanRows_eq currentEpoch rows _ ret hnd.2 hrows, deleteBatchId,
        retain_retain]
      simp only [List.lookup_cons, beq_false_of_ne (Nat.ne_of_gt hlt)]
      congr 3; funext x
      by_cases hx : x = e <;> simp [hx, hlt, beq_false_of_ne, -List.mem_map]
    · obtain rfl : e = currentEpoch := by omega
      have hnone : rows.lookup e = none := by
        cases h : rows.lookup e with
        | none => rfl
        | some b' => exact absurd (List.mem_map.mpr ⟨_, (lookup_eq_some_iff_mem hnd.2).mp h, rfl⟩) hnd.1
      rw [if_neg hlt, cleanRows_eq e rows db _ hnd.2 hrows]
      simp only [List.lookup_cons_self, hnone, Option.none_or, Option.or_some]
      congr 3; funext x
      by_cases hx : x = e <;> simp [hx, beq_false_of_ne, -List.mem_map]

theorem cleanAndGetBatchId_eq (db : QuorumStoreDB) (currentEpoch : Nat)
    (order : List (Nat × BatchId)) (hperm : order.Perm db.batchIds)
    (hle : ∀ r ∈ db.batchIds, r.1 ≤ currentEpoch) :
    db.cleanAndGetBatchId currentEpoch order =
      .ok (db.get currentEpoch, db.retain fun e => e = currentEpoch) := by
  have hnd : (order.map Prod.fst).Nodup := (hperm.map Prod.fst).nodup_iff.mpr db.nodup
  rw [cleanAndGetBatchId, cleanRows_eq currentEpoch order db none hnd
    (fun r hr => hle r (hperm.subset hr)), Option.or_none, lookup_eq_of_perm hperm hnd]
  congr 2
  refine retain_congr db fun r hr => ?_
  have hmem : r.1 ∈ order.map Prod.fst := List.mem_map_of_mem _ (hperm.symm.subset hr)
  have hr' := hle r hr
  by_cases hlt : r.1 < currentEpoch
  · simp [hmem, hlt, Nat.ne_of_lt hlt]
  · simp [hmem, hlt]; omega

theorem cleanRows_error (currentEpoch : Nat) :
    ∀ (rows : List (Nat × BatchId)) (db : QuorumStoreDB) (ret : Option BatchId),
      (∃ r ∈ rows, currentEpoch < r.1) →
      cleanRows currentEpoch rows db ret = .error (.assert "current_epoch >= epoch")
  | [], _, _, ⟨_, hr, _⟩ => absurd hr (List.not_mem_nil _)
  | (e, b) :: rows, db, ret, ⟨r, hr, hlt⟩ => by
    rw [cleanRows]
    by_cases he : e ≤ currentEpoch
    · have hrest : ∃ r ∈ rows, currentEpoch < r.1 := by
        rcases List.mem_cons.mp hr with rfl | hr
        · exact absurd he (Nat.not_le.mpr hlt)
        · exact ⟨r, hr, hlt⟩
      rw [if_pos he]
      split_ifs <;> exact cleanRows_error currentEpoch rows _ _ hrest
    · rw [if_neg he]

theorem le_of_cleanAndGetBatchId_ok {db : QuorumStoreDB} {currentEpoch : Nat}
    {order : List (Nat × BatchId)} {ret : Option BatchId} {db' : QuorumStoreDB}
    (hperm : order.Perm db.batchIds)
    (h : db.cleanAndGetBatchId currentEpoch order = .ok (ret, db')) :
    ∀ r ∈ db.batchIds, r.1 ≤ currentEpoch := by
  intro r hr
  by_contra hlt
  rw [cleanAndGetBatchId, cleanRows_error currentEpoch order db none
    ⟨r, hperm.symm.subset hr, Nat.lt_of_not_le hlt⟩] at h
  cases h

/-! ## Runs -/

theorem Step.get_eq {db db' : QuorumStoreDB} {op : Op} {out : Output}
    (hstep : Step db op db' out) (epoch : Nat) : db'.get epoch = liveAfter epoch (db.get epoch) op := by
  cases hstep with
  | saveBatchId => simp [liveAfter]
  | cleanAndGetBatchId currentEpoch order ret _ hperm h =>
    rw [cleanAndGetBatchId_eq db currentEpoch order hperm (le_of_cleanAndGetBatchId_ok hperm h)]
      at h
    obtain ⟨-, rfl⟩ := Prod.mk.inj (Except.ok.inj h).symm
    simp [liveAfter, eq_comm]

theorem Run.get_eq {db db' : QuorumStoreDB} {ops : List Op} {outs : List Output}
    (hrun : Run db ops db' outs) (epoch : Nat) :
    db'.get epoch = ops.foldl (liveAfter epoch) (db.get epoch) := by
  induction hrun with
  | nil => rfl
  | cons hstep _ ih => rw [ih, List.foldl_cons, hstep.get_eq]

theorem mem_retain {db : QuorumStoreDB} {keep : Nat → Bool} {r : Nat × BatchId} :
    r ∈ (db.retain keep).batchIds ↔ r ∈ db.batchIds ∧ keep r.1 := by
  simp [retain]

theorem mem_saveBatchId {db : QuorumStoreDB} {epoch : Nat} {batchId : BatchId}
    {r : Nat × BatchId} :
    r ∈ (db.saveBatchId epoch batchId).batchIds ↔ r = (epoch, batchId) ∨ r ∈ db.batchIds ∧ r.1 ≠ epoch := by
  simp [saveBatchId, deleteBatchId, mem_retain]

/-- From a run from the empty column family that leaves no row newer than `epoch`, a clean for
`epoch`, in any iteration order, returns the id saved for it since the last clean for another
epoch and leaves only its row; a save for `epoch` followed by a clean then returns the saved id. -/
theorem cleanAndGetBatchId_returns_live (ops : List Op) (db : QuorumStoreDB) (outs : List Output)
    (hrun : Run empty ops db outs) (epoch : Nat) (hle : ∀ r ∈ db.batchIds, r.1 ≤ epoch)
    (order : List (Nat × BatchId)) (hperm : order.Perm db.batchIds) :
    ∃ db', db.cleanAndGetBatchId epoch order = .ok (liveBatchId epoch ops, db') ∧
      (∀ e, db'.get e = if e = epoch then liveBatchId epoch ops else none) ∧
      ∀ (batchId : BatchId) (order' : List (Nat × BatchId)),
        order'.Perm (db'.saveBatchId epoch batchId).batchIds →
        ∃ db'', (db'.saveBatchId epoch batchId).cleanAndGetBatchId epoch order' =
          .ok (some batchId, db'') := by
  have hlive : db.get epoch = liveBatchId epoch ops := hrun.get_eq epoch
  refine ⟨db.retain fun e => e = epoch, ?_, fun e => ?_, fun batchId order' hperm' => ?_⟩
  · rw [cleanAndGetBatchId_eq db epoch order hperm hle, hlive]
  · split_ifs with he <;> simp [he, hlive]
  · have hle' : ∀ r ∈ ((db.retain fun e => e = epoch).saveBatchId epoch batchId).batchIds,
        r.1 ≤ epoch := by
      intro r hr
      rcases mem_saveBatchId.mp hr with rfl | ⟨hr, -⟩
      · exact le_refl _
      · exact le_of_eq (by simpa using (mem_retain.mp hr).2)
    rw [cleanAndGetBatchId_eq _ epoch order' hperm' hle', get_saveBatchId, if_pos rfl]
    exact ⟨_, rfl⟩

theorem save_then_clean_returns_live :
    ∃ db', (empty.saveBatchId 5 ⟨7⟩).cleanAndGetBatchId 5 [(5, ⟨7⟩)] =
        .ok (liveBatchId 5 [.saveBatchId 5 ⟨7⟩], db') ∧
      (∀ e, db'.get e = if e = 5 then liveBatchId 5 [.saveBatchId 5 ⟨7⟩] else none) ∧
      ∀ (batchId : BatchId) (order' : List (Nat × BatchId)),
        order'.Perm (db'.saveBatchId 5 batchId).batchIds →
        ∃ db'', (db'.saveBatchId 5 batchId).cleanAndGetBatchId 5 order' = .ok (some batchId, db'') :=
  cleanAndGetBatchId_returns_live [.saveBatchId 5 ⟨7⟩] _ [.unit]
    (.cons (.saveBatchId empty 5 ⟨7⟩) (.nil _)) 5
    (fun r hr => by simp [mem_saveBatchId, empty] at hr; simp [hr]) [(5, ⟨7⟩)] (List.Perm.refl _)

/-- A clean for epoch 6 deletes the row saved for epoch 5, so the next clean for epoch 5 finds no
row and returns `None`, though the last save for epoch 5 saved id 7. -/
theorem clean_for_newer_epoch_drops_saved_id :
    Run empty [.saveBatchId 5 ⟨7⟩, .cleanAndGetBatchId 6, .cleanAndGetBatchId 5] empty
        [.unit, .batchId none, .batchId none] ∧
      lastSavedBatchId 5 [.saveBatchId 5 ⟨7⟩, .cleanAndGetBatchId 6, .cleanAndGetBatchId 5] =
        some ⟨7⟩ :=
  ⟨.cons (.saveBatchId empty 5 ⟨7⟩)
    (.cons (.cleanAndGetBatchId _ 6 [(5, ⟨7⟩)] none empty (List.Perm.refl _) rfl)
      (.cons (.cleanAndGetBatchId empty 5 [] none empty (List.Perm.refl _) rfl) (.nil _))), rfl⟩

end QuorumStoreDB

end QuorumStore
