import LumioNode.Accumulator.FrozenNodes
import LumioNode.Library.SortedMap

/-! # The accumulators agree

After every batch the accumulators in storage and in memory have the root of the padded
tree over all leaves so far. -/

namespace LumioNode

open Library PaddedScheme MerkleAccumulatorView Position InMemoryAccumulator List

abbrev AccumulatorStore := SortedMap Nat HashValue

namespace AccumulatorStore

def reader (store : AccumulatorStore) : HashReader := fun position =>
  expect (.error s!"Pos({position.inorder}) does not exist.") (store.get? position.inorder)

def write (store : AccumulatorStore) (nodes : List AccumulatorNode) : AccumulatorStore :=
  (nodes.map fun node => (node.1.inorder, node.2)).foldl
    (fun store entry => store.insert entry.1 entry.2) store

end AccumulatorStore

open AccumulatorStore

/-- Both accumulators after some batches, and what the one in storage has returned. -/
structure AccumulatorRun where
  store : AccumulatorStore
  numLeaves : Nat
  rootHash : HashValue
  frozen : List AccumulatorNode
  memory : InMemoryAccumulator

namespace AccumulatorRun

section Definitions

variable (hasher : PaddedScheme HashValue)

def start : Except Fault AccumulatorRun := do
  let memory ← default hasher
  return ⟨.empty, 0, hasher.pad, [], memory⟩

def appendBatch (run : AccumulatorRun) (batch : List HashValue) : Except Fault AccumulatorRun := do
  let (rootHash, nodes) ← append hasher ⟨AccumulatorStore.reader run.store, run.numLeaves⟩ batch
  let memory ← run.memory.append hasher batch
  return ⟨write run.store nodes,
    run.numLeaves + batch.length, rootHash, run.frozen ++ nodes, memory⟩

def appendBatches (batches : List (List HashValue)) : Except Fault AccumulatorRun := do
  let begun ← start hasher
  runAll (appendBatch hasher) begun batches

/-- What both accumulators hold for a list of leaves. -/
structure Represents (leaves : List HashValue) (run : AccumulatorRun) : Prop where
  numLeaves : run.numLeaves = leaves.length
  stored : ∀ entry, entry ∈ run.store.entries ↔ ∃ level index,
    (index + 1) * 2 ^ level ≤ leaves.length ∧ entry = ((atNode level index).inorder,
        hasher.nodeAt leaves level index)
  rootHash : run.rootHash = hasher.root leaves
  frozen : run.frozen = placed hasher leaves (completedBy 0 leaves.length)
  memory : run.memory = ofLeaves hasher leaves

end Definitions

def Reservable (numLeaves : Nat) (batch : List HashValue) : Prop :=
  (batch.length * 2 + rootLevel (numLeaves + batch.length)) * 40 ≤ 2 ^ 63 - 1

variable {hasher : PaddedScheme HashValue} {leaves batch : List HashValue} {run : AccumulatorRun}

theorem start_represents : ∃ begun, start hasher = .ok begun ∧ Represents hasher [] begun := by
  refine ⟨⟨.empty, 0, hasher.pad, [], ofLeaves hasher []⟩, ?_, ?_⟩
  · rw [start, default_eq, ok_bind]
    rfl
  · refine ⟨rfl, ?_, ?_, rfl, rfl⟩
    · intro entry
      constructor
      · nofun
      · rintro ⟨level, index, full, _⟩
        have positive : 0 < (index + 1) * 2 ^ level :=
          Nat.mul_pos (Nat.succ_pos _) (Nat.two_pow_pos _)
        rw [length_nil] at full
        omega
    · rw [root, padded_nil]

theorem Represents.hasFrozen (represents : Represents hasher leaves run) :
    MerkleAccumulatorView.HasFrozen hasher (AccumulatorStore.reader run.store) leaves := by
  intro level index full
  rw [AccumulatorStore.reader, expect_eq_ok, SortedMap.get?_eq_some_iff, represents.stored]
  exact ⟨level, index, full, rfl⟩

theorem completed_nodup {first count : Nat} (few : first + count < 2 ^ 63) :
    ((completedBy first count).map fun node => (atNode node.1 node.2).inorder).Nodup := by
  have numbered := toPostorderIndex_completedBy few
  have byKey : (completedBy first count).map (fun node => (atNode node.1 node.2).toPostorderIndex) =
      ((completedBy first count).map fun node => (atNode node.1 node.2).inorder).map
        inorderToPostorder := by
    rw [map_map]
    rfl
  have injective : Function.Injective (Except.ok : Nat → Except Fault Nat) := by
    intro left right same
    exact Except.ok.inj same
  apply List.Nodup.of_map inorderToPostorder
  rw [← byKey, numbered]
  exact List.Nodup.map injective nodup_range'

theorem mem_write {entry : Nat × HashValue} (few : (leaves ++ batch).length < 2 ^ 63)
    (represents : Represents hasher leaves run) :
    entry ∈ (write run.store (placed hasher (leaves ++ batch)
          (completedBy leaves.length batch.length))).entries ↔
      ∃ level index, (index + 1) * 2 ^ level ≤ (leaves ++ batch).length ∧
        entry = ((atNode level index).inorder, hasher.nodeAt (leaves ++ batch) level index) := by
  have isTotal : (leaves ++ batch).length = leaves.length + batch.length := length_append
  have keys : (((placed hasher (leaves ++ batch) (completedBy leaves.length batch.length)).map
        fun node => (node.1.inorder, node.2)).map Prod.fst) =
      (completedBy leaves.length batch.length).map fun node => (atNode node.1 node.2).inorder := by
    simp [placed]
  have nodup := @completed_nodup leaves.length batch.length (by omega)
  rw [← keys] at nodup
  rw [write, SortedMap.mem_foldl_insert nodup, keys]
  have added : entry ∈ (placed hasher (leaves ++ batch)
      (completedBy leaves.length batch.length)).map (fun node => (node.1.inorder, node.2)) ↔
      ∃ level index, leaves.length < (index + 1) * 2 ^ level ∧
        (index + 1) * 2 ^ level ≤ (leaves ++ batch).length ∧
        entry = ((atNode level index).inorder, hasher.nodeAt (leaves ++ batch) level index) := by
    simp only [placed, map_map, mem_map, mem_completedBy, Prod.exists, isTotal, Function.comp_apply,
      and_assoc, eq_comm]
  rw [added, represents.stored]
  constructor
  · rintro (⟨level, index, _, full, isEntry⟩ | ⟨⟨level, index, full, isEntry⟩, _⟩)
    · exact ⟨level, index, full, isEntry⟩
    · exact ⟨level, index, by omega, by rw [isEntry, nodeAt_append full]⟩
  · rintro ⟨level, index, full, isEntry⟩
    by_cases isNew : leaves.length < (index + 1) * 2 ^ level
    · exact .inl ⟨level, index, isNew, full, isEntry⟩
    · have wasFull : (index + 1) * 2 ^ level ≤ leaves.length := by omega
      refine .inr ⟨⟨level, index, wasFull, ?_⟩, ?_⟩
      · rw [isEntry, nodeAt_append wasFull]
      · intro member
        obtain ⟨node, isCompleted, sameKey⟩ := mem_map.mp member
        obtain ⟨above, atMost⟩ := mem_completedBy.mp isCompleted
        rw [isEntry] at sameKey
        have inTree := (walkable_of_full few full).inTree
        have nodeInTree : Position.InTree node.1 node.2 :=
          (walkable_of_full few (isTotal ▸ atMost)).inTree
        obtain ⟨sameLevel, sameIndex⟩ := atNode_injective nodeInTree inTree sameKey
        rw [sameLevel, sameIndex] at above
        omega

theorem appendBatch_represents (few : (leaves ++ batch).length < 2 ^ 63)
    (reservable : Reservable leaves.length batch) (represents : Represents hasher leaves run) :
    ∃ after, appendBatch hasher run batch = .ok after ∧
      Represents hasher (leaves ++ batch) after := by
  have isTotal : (leaves ++ batch).length = leaves.length + batch.length := length_append
  have stored : append hasher ⟨AccumulatorStore.reader run.store, leaves.length⟩ batch =
      .ok (hasher.root (leaves ++ batch), placed hasher (leaves ++ batch)
          (completedBy leaves.length batch.length)) := by
    by_cases isEmpty : batch = []
    · subst isEmpty
      rw [List.append_nil] at few ⊢
      exact append_nil represents.hasFrozen few
    · apply append_eq represents.hasFrozen few isEmpty
      rw [isTotal]
      exact reservable
  have inMemory := @append_eq hasher leaves batch (by omega)
  refine ⟨⟨write run.store (placed hasher (leaves ++ batch)
        (completedBy leaves.length batch.length)),
    leaves.length + batch.length, hasher.root (leaves ++ batch),
    run.frozen ++ placed hasher (leaves ++ batch) (completedBy leaves.length batch.length),
    ofLeaves hasher (leaves ++ batch)⟩, ?_, ?_⟩
  · simp only [appendBatch, represents.numLeaves, represents.memory, stored, inMemory, ok_bind]
    rfl
  · refine ⟨isTotal.symm, ?_, rfl, ?_, rfl⟩
    · intro entry
      exact mem_write few represents
    · simp only
      rw [represents.frozen, isTotal, completedBy_add, Nat.zero_add]
      simp only [placed, map_append]
      congr 1
      apply map_congr_left
      intro node member
      have full := (mem_completedBy.mp member).2
      rw [Nat.zero_add] at full
      rw [nodeAt_append full]

variable {batches : List (List HashValue)}

theorem runAll_represents (few : (leaves ++ batches.flatten).length < 2 ^ 63)
    (reservable : ∀ done batch rest, batches = done ++ batch :: rest → Reservable
      (leaves ++ done.flatten).length batch) (represents : Represents hasher leaves run) :
    ∃ after, runAll (appendBatch hasher) run batches = .ok after ∧
      Represents hasher (leaves ++ batches.flatten) after := by
  induction batches generalizing leaves run with
  | nil =>
    rw [flatten_nil, List.append_nil]
    exact ⟨run, rfl, represents⟩
  | cons batch rest inductionHypothesis =>
    rw [flatten_cons, ← append_assoc] at few ⊢
    have fewBatch : (leaves ++ batch).length < 2 ^ 63 := by
      rw [length_append] at few
      omega
    have firstReservable := reservable [] batch rest rfl
    rw [flatten_nil, List.append_nil] at firstReservable
    obtain ⟨middle, appended, middleRepresents⟩ :=
      appendBatch_represents fewBatch firstReservable represents
    rw [runAll, appended, ok_bind]
    apply inductionHypothesis few _ middleRepresents
    intro done next others isRest
    have isBatches : batch :: rest = (batch :: done) ++ next :: others := by
      rw [isRest]
      rfl
    have nextReservable := reservable (batch :: done) next others isBatches
    rwa [flatten_cons, ← append_assoc] at nextReservable

theorem appendBatches_ok (few : batches.flatten.length < 2 ^ 63)
    (reservable : ∀ done batch rest, batches = done ++ batch :: rest →
      Reservable done.flatten.length batch) :
    ∃ run, appendBatches hasher batches = .ok run ∧ Represents hasher batches.flatten run := by
  obtain ⟨begun, started, beginsEmpty⟩ := @start_represents hasher
  have fromEmpty := @runAll_represents hasher [] begun batches
  obtain ⟨run, ran, represents⟩ := fromEmpty few reservable beginsEmpty
  refine ⟨run, ?_, represents⟩
  rw [appendBatches, started, ok_bind, ran]

theorem reservable_of_length (few : batches.flatten.length < 2 ^ 63)
    (short : ∀ batch ∈ batches, batch.length ≤ 2 ^ 56) :
    ∀ done batch rest, batches = done ++ batch :: rest → Reservable done.flatten.length batch := by
  intro done batch rest isBatches
  have total : done.flatten.length + batch.length < 2 ^ 63 := by
    rw [isBatches, flatten_append, flatten_cons,
      ← append_assoc, length_append, length_append] at few
    omega
  have low := rootLevel_le total.le
  have atMost : batch.length ≤ 2 ^ 56 := by
    apply short
    rw [isBatches]
    simp
  unfold Reservable
  omega

theorem appendBatch_represents_of_ok {after : AccumulatorRun} (few : leaves.length < 2 ^ 63)
    (represents : Represents hasher leaves run)
    (appended : appendBatch hasher run batch = .ok after) :
    Represents hasher (leaves ++ batch) after ∧ (leaves ++ batch).length < 2 ^ 63 := by
  have stored := appended
  rw [appendBatch, represents.numLeaves] at stored
  obtain ⟨result, isResult, _⟩ := of_bind stored
  obtain ⟨fewAfter, reservable⟩ := bounds_of_append few isResult
  have fewTotal : (leaves ++ batch).length < 2 ^ 63 := by
    rw [length_append]
    exact fewAfter
  obtain ⟨other, isOther, represented⟩ := appendBatch_represents fewTotal reservable represents
  rw [appended] at isOther
  cases isOther
  exact ⟨represented, fewTotal⟩

/-- What was written to the store is what the leaves determine. -/
theorem appendBatches_represents (ran : appendBatches hasher batches = .ok run) :
    Represents hasher batches.flatten run ∧ batches.flatten.length < 2 ^ 63 := by
  obtain ⟨begun, started, beginsEmpty⟩ := @start_represents hasher
  rw [appendBatches, started, ok_bind] at ran
  have general : ∀ (rest : List (List HashValue)) (leaves : List HashValue)
      (current : AccumulatorRun), leaves.length < 2 ^ 63 →
      Represents hasher leaves current →
      runAll (appendBatch hasher) current rest = .ok run →
      Represents hasher (leaves ++ rest.flatten) run ∧
        (leaves ++ rest.flatten).length < 2 ^ 63 := by
    intro rest
    induction rest with
    | nil =>
      intro leaves current few represents ended
      cases ended
      rw [flatten_nil, List.append_nil]
      exact ⟨represents, few⟩
    | cons batch rest inductionHypothesis =>
      intro leaves current few represents ended
      obtain ⟨middle, appended, later⟩ := of_bind ended
      obtain ⟨middleRepresents, middleFew⟩ := appendBatch_represents_of_ok few represents appended
      rw [flatten_cons, ← append_assoc]
      exact inductionHypothesis _ middle middleFew middleRepresents later
  exact general batches [] begun (by simp) beginsEmpty ran

/-- After every batch the three roots are the same, the frozen nodes returned so far are the
full subtrees in post-order, and the hashes read from the store are those in memory. -/
theorem accumulators_agree (hasher : PaddedScheme HashValue) (batches : List (List HashValue))
    (few : batches.flatten.length ≤ 2 ^ 63 - 1)
    (reservable : ∀ done batch rest, batches = done ++ batch :: rest →
      Reservable done.flatten.length batch)
    (done rest : List (List HashValue)) (isPrefix : batches = done ++ rest) :
    ∃ run, appendBatches hasher done = .ok run ∧ run.rootHash = hasher.root done.flatten ∧
      run.memory.rootHash = hasher.root done.flatten ∧
      run.frozen.map (fun node => node.1.toPostorderIndex) =
        (List.range run.frozen.length).map .ok ∧
      (∀ node, node ∈ run.frozen ↔ ∃ level index, (index + 1) * 2 ^ level ≤ done.flatten.length ∧
          node = (atNode level index, hasher.nodeAt done.flatten level index)) ∧
      getFrozenSubtreeHashes ⟨AccumulatorStore.reader run.store, run.numLeaves⟩ =
        .ok run.memory.frozenSubtreeRoots := by
  have fewDone : done.flatten.length < 2 ^ 63 := by
    rw [isPrefix, flatten_append, length_append] at few
    omega
  have doneReservable : ∀ earlier batch later, done = earlier ++ batch :: later →
      Reservable earlier.flatten.length batch := by
    intro earlier batch later isDone
    apply reservable earlier batch (later ++ rest)
    rw [isPrefix, isDone, append_assoc, cons_append]
  obtain ⟨run, ran, represents⟩ := @appendBatches_ok hasher done fewDone doneReservable
  refine ⟨run, ran, represents.rootHash, ?_, ?_, ?_, ?_⟩
  · rw [represents.memory]
    rfl
  · have numbered := @toPostorderIndex_completedBy 0 done.flatten.length (by omega)
    have isZero : postorderNumber 0 0 = 0 := rfl
    rw [isZero, ← range_eq_range'] at numbered
    rw [represents.frozen, placed, map_map, length_map]
    exact numbered
  · intro node
    rw [represents.frozen, placed, mem_map]
    constructor
    · rintro ⟨completedNode, member, isNode⟩
      have full := (mem_completedBy.mp member).2
      rw [Nat.zero_add] at full
      exact ⟨completedNode.1, completedNode.2, full, isNode.symm⟩
    · rintro ⟨level, index, full, isNode⟩
      refine ⟨(level, index), mem_completedBy.mpr ⟨?_, ?_⟩, isNode.symm⟩
      · exact Nat.mul_pos (Nat.succ_pos _) (Nat.two_pow_pos _)
      · rw [Nat.zero_add]
        exact full
  · rw [represents.numLeaves, represents.memory]
    exact getFrozenSubtreeHashes_eq represents.hasFrozen fewDone

namespace Batches

def toyScheme : PaddedScheme HashValue := ⟨fun left right => 3 * left + 5 * right + 1, 0⟩

theorem two_batches_agree : ∃ run, appendBatches toyScheme [[7], [8, 9]] = .ok run ∧
    run.rootHash = toyScheme.root [7, 8, 9] ∧
    run.memory.rootHash = toyScheme.root [7, 8, 9] ∧
    run.frozen.map (fun node => node.1.toPostorderIndex) =
      (List.range run.frozen.length).map .ok ∧
    (∀ node, node ∈ run.frozen ↔ ∃ level index,
      (index + 1) * 2 ^ level ≤ 3 ∧ node = (atNode level index,
        toyScheme.nodeAt [7, 8, 9] level index)) ∧
    getFrozenSubtreeHashes ⟨AccumulatorStore.reader run.store, run.numLeaves⟩ =
      .ok run.memory.frozenSubtreeRoots := by
  exact accumulators_agree toyScheme [[7], [8, 9]] (by decide)
    (reservable_of_length (by decide) (by decide)) _ []
    (List.append_nil _).symm

/-- A batch for whose frozen nodes no vector can be reserved. -/
theorem oversized_batch_panics : (List.replicate (2 ^ 58 - 1) (7 : HashValue)).length ≤ 2 ^ 63 - 1 ∧
    appendBatches toyScheme [List.replicate (2 ^ 58 - 1) 7] = .error .panic := by
  have counted : (List.replicate (2 ^ 58 - 1) (7 : HashValue)).length =
      2 ^ 58 - 1 := length_replicate
  obtain ⟨begun, started, represents⟩ := @start_represents toyScheme
  have noLeaves : begun.numLeaves = 0 := represents.numLeaves
  have refused : append toyScheme ⟨AccumulatorStore.reader begun.store, begun.numLeaves⟩
      (List.replicate (2 ^ 58 - 1) 7) = .error .panic := by
    apply append_oversized
    · simp only [counted, noLeaves]
      omega
    · rw [counted]
      omega
    · rw [counted]
      omega
  constructor
  · rw [counted]
    omega
  · rw [appendBatches, started, ok_bind, runAll, appendBatch, refused, error_bind, error_bind]

end Batches

end AccumulatorRun

end LumioNode
