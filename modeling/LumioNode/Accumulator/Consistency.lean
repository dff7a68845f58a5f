import LumioNode.Accumulator.FrozenNodes

/-! # Consistency proofs

`append_subtrees`, and the summary that a light client extends with the subtrees the
store chooses. -/

namespace LumioNode

open List

open Library PaddedScheme InMemoryAccumulator Word64

namespace InMemoryAccumulator

/-- The variables of `append_subtrees`; the roots are a stack, the last one on top. -/
structure SubtreeLoop where
  currentSubtreeRoots : List HashValue
  currentNumLeaves : Nat
  remainingNewLeaves : Nat
  subtreeIter : List HashValue
  rightmostFrozenSubtreeSize : Nat

section Definitions

variable (hasher : PaddedScheme HashValue)

/-- The inner loop of `append_subtrees`: merge while the mask meets a frozen subtree. -/
def carry (currentNumLeaves : Nat) : Nat → Nat → HashValue →
    List HashValue → Except Fault (HashValue × List HashValue × Nat)
  | 0, mask, currentHash, stack => .ok (currentHash, stack, mask)
  | bits + 1, mask, currentHash, stack =>
    if currentNumLeaves &&& mask ≠ 0 then
      match stack with
      | [] => .error .panic
      | leftHash :: rest =>
        carry currentNumLeaves bits (shiftLeft mask 1) (hasher.node leftHash currentHash) rest
    else .ok (currentHash, stack, mask)

def SubtreeLoop.step (state : SubtreeLoop) : Except Fault SubtreeLoop := do
  match state.subtreeIter with
  | [] => .error (.error "Too few subtrees.")
  | subtree :: rest =>
    let (currentHash, stack, mask) ← carry hasher state.currentNumLeaves 64
      state.rightmostFrozenSubtreeSize subtree state.currentSubtreeRoots
    let currentNumLeaves ← expect Fault.panic
      (checkedAdd state.currentNumLeaves state.rightmostFrozenSubtreeSize)
    return ⟨currentHash :: stack, currentNumLeaves,
      state.remainingNewLeaves - state.rightmostFrozenSubtreeSize, rest,
      mask⟩

/-- The outer loop; the size at least doubles each time, so 64 rounds are enough. -/
def SubtreeLoop.run : Nat → SubtreeLoop → Except Fault SubtreeLoop
  | 0, _ => .error .panic
  | rounds + 1, state =>
    if state.rightmostFrozenSubtreeSize ≤ state.remainingNewLeaves then do
      let next ← state.step hasher
      run rounds next
    else .ok state

variable (accumulator : InMemoryAccumulator)

def SubtreeLoop.start
    (subtrees : List HashValue) (numNewLeaves : Nat) : SubtreeLoop :=
  ⟨accumulator.frozenSubtreeRoots.reverse, accumulator.numLeaves,
    numNewLeaves, subtrees, 1 <<< trailingZeros accumulator.numLeaves⟩

def appendSubtrees (subtrees : List HashValue)
    (numNewLeaves : Nat) : Except Fault InMemoryAccumulator := do
  ensure (accumulator.numLeaves ≤ maxAccumulatorLeaves) .panic
  ensure (numNewLeaves ≤ maxAccumulatorLeaves - accumulator.numLeaves)
    (.error <| "Too many new leaves. self.num_leaves: " ++
      s!"{accumulator.numLeaves}. num_new_leaves: {numNewLeaves}.")
  if accumulator.numLeaves = 0 then new hasher subtrees numNewLeaves
  else
    let last ← (SubtreeLoop.start accumulator subtrees numNewLeaves).run hasher 65
    let currentNumLeaves ← expect Fault.panic
      (checkedAdd last.currentNumLeaves last.remainingNewLeaves)
    new hasher (last.currentSubtreeRoots.reverse ++ last.subtreeIter) currentNumLeaves

def version : Nat :=
  if accumulator.numLeaves = 0 then 0 else accumulator.numLeaves - 1

def isEmpty : Bool := accumulator.numLeaves == 0

end Definitions

end InMemoryAccumulator

structure AccumulatorConsistencyProof where
  subtrees : List HashValue

structure TransactionAccumulatorSummary where
  accumulator : InMemoryAccumulator
deriving DecidableEq

namespace TransactionAccumulatorSummary

def new (accumulator : InMemoryAccumulator) : Except Fault TransactionAccumulatorSummary := do
  ensure (!accumulator.isEmpty) (.error <| "empty accumulator: we can't " ++
    "verify consistency proofs from an empty accumulator")
  return ⟨accumulator⟩

variable (summary : TransactionAccumulatorSummary)

def version : Nat := summary.accumulator.version

def rootHash : HashValue := summary.accumulator.rootHash

def verifyConsistency (ledgerInfo : LedgerInfo) : Except Fault Unit := do
  ensure (ledgerInfo.version = summary.version)
    (.error <| "ledger info and accumulator must be at the same version: " ++
      s!"ledger info version={ledgerInfo.version}, " ++
      s!"accumulator version={summary.version}")
  ensure (ledgerInfo.transactionAccumulatorHash = summary.rootHash)
    (.error <| "ledger info root hash and accumulator root hash must match: " ++
      "ledger info root hash=" ++
      HashValue.display ledgerInfo.transactionAccumulatorHash ++
      ", accumulator root hash=" ++ HashValue.display summary.rootHash)

/-- The outermost text that `context` puts in front of an error. -/
def notConsistent : Fault → Fault
  | .panic => .panic
  | .error _ => .error ("accumulator is not consistent with the target " ++
      "ledger info after applying consistency proof")

def tryExtendWithProof (hasher : PaddedScheme HashValue)
    (consistencyProof : AccumulatorConsistencyProof) (target : LedgerInfo) :
    Except Fault TransactionAccumulatorSummary := do
  ensure (summary.version ≤ target.version)
    (.error <| s!"target ledger info version ({target.version}) must be " ++
      "newer than our current accumulator summary version " ++
      s!"({summary.version})")
  let numNewTxns := target.version - summary.version
  let accumulator ← summary.accumulator.appendSubtrees hasher consistencyProof.subtrees numNewTxns
  let newAccumulator : TransactionAccumulatorSummary := ⟨accumulator⟩
  (newAccumulator.verifyConsistency target).mapError notConsistent
  return newAccumulator

end TransactionAccumulatorSummary

variable {half rounds : Nat} {hash : HashValue}

namespace InMemoryAccumulator

variable {hasher : PaddedScheme HashValue} {leaves : List HashValue} {level index : Nat}

theorem numLeaves_ofLeaves : (ofLeaves hasher leaves).numLeaves = leaves.length := by
  rfl

section Carry

variable {numLeaves bits : Nat} {currentHash leftHash : HashValue} {stack : List HashValue}
  (isIndex : numLeaves / 2 ^ level = index)

include isIndex

theorem carry_stop (even : index % 2 = 0) :
    carry hasher numLeaves (bits + 1) (2 ^ level) currentHash stack =
      .ok (currentHash, stack, 2 ^ level) := by
  have clear : ¬ numLeaves &&& 2 ^ level ≠ 0 := by
    rw [and_two_pow_ne_zero, isIndex]
    omega
  simp only [carry, clear, if_false]

theorem and_mask_ne_zero (odd : index % 2 = 1) : numLeaves &&& 2 ^ level ≠ 0 := by
  rwa [and_two_pow_ne_zero, isIndex]

theorem carry_empty (odd : index % 2 = 1) :
    carry hasher numLeaves (bits + 1) (2 ^ level) currentHash [] = .error .panic := by
  simp [carry, and_mask_ne_zero isIndex odd]

theorem carry_merge (odd : index % 2 = 1) (low : level < 63) :
    carry hasher numLeaves (bits + 1) (2 ^ level) currentHash (leftHash :: stack) =
      carry hasher numLeaves bits (2 ^ (level + 1)) (hasher.node leftHash currentHash) stack := by
  simp [carry, and_mask_ne_zero isIndex odd, Position.shiftLeft_two_pow low]

end Carry

variable {state : SubtreeLoop}

theorem SubtreeLoop.run_stop
    (notEnough : ¬ state.rightmostFrozenSubtreeSize ≤ state.remainingNewLeaves) :
    state.run hasher (rounds + 1) = .ok state := by
  rw [run, if_neg notEnough]

theorem SubtreeLoop.run_step
    (enough : state.rightmostFrozenSubtreeSize ≤ state.remainingNewLeaves) :
    state.run hasher (rounds + 1) = state.step hasher >>= run hasher rounds := by
  rw [run, if_pos enough]

/-- Where the carry ends when a subtree is added to a number of leaves. -/
theorem exists_carry (few : (2 * half + 1) * 2 ^ level + 2 ^ level ≤ 2 ^ 63) :
    ∃ count odd, 2 * half + 1 + 1 = (2 * odd + 1) * 2 ^ count ∧ 0 < count ∧ level + count < 64 ∧
      (2 * half + 1) * 2 ^ level + 2 ^ level = (2 * odd + 1) * 2 ^ (level + count) := by
  obtain ⟨count, odd, carries⟩ : ∃ count odd, 2 * half + 1 + 1 = (2 * odd + 1) * 2 ^ count :=
    exists_shifted_odd (Nat.succ_pos (2 * half + 1))
  have merged : (2 * half + 1) * 2 ^ level + 2 ^ level = (2 * odd + 1) * 2 ^ (level + count) := by
    calc (2 * half + 1) * 2 ^ level + 2 ^ level
        = (2 * half + 1 + 1) * 2 ^ level := by ring
      _ = (2 * odd + 1) * 2 ^ count * 2 ^ level := by rw [carries]
      _ = (2 * odd + 1) * 2 ^ (level + count) := by
          rw [pow_add]
          ring
  have grows : 0 < count := by
    apply Nat.pos_of_ne_zero
    intro isZero
    rw [isZero, pow_zero] at carries
    omega
  have highest : level + count < 64 := shift_lt (merged ▸ few)
  exact ⟨count, odd, carries, grows, highest, merged⟩

/-- One merge for every trailing one of the index; the mask is left where the carry ends. -/
theorem carry_eq_ok {numLeaves bits count mask : Nat} {currentHash : HashValue}
    {stack rest : List HashValue} (isIndex : numLeaves / 2 ^ level = index)
    (carries : index + 1 = (2 * half + 1) * 2 ^ count) (inside : level + count < 64)
    (enough : count < bits) :
    carry hasher numLeaves bits (2 ^ level) currentHash stack = .ok (hash, rest, mask) ↔
      mergeLast hasher count (currentHash :: stack) = .ok (hash :: rest) ∧
        mask = 2 ^ (level + count) := by
  induction count generalizing level index bits currentHash stack with
  | zero =>
    obtain ⟨bits, rfl⟩ : ∃ less, bits = less + 1 := ⟨bits - 1, by omega⟩
    rw [carry_stop isIndex (by omega), mergeLast, Nat.add_zero]
    simp only [Except.ok.injEq, Prod.mk.injEq, List.cons.injEq]
    tauto
  | succ count inductionHypothesis =>
    obtain ⟨bits, rfl⟩ : ∃ less, bits = less + 1 := ⟨bits - 1, by omega⟩
    have double : (2 * half + 1) * 2 ^ (count + 1) = 2 * ((2 * half + 1) * 2 ^ count) := by ring
    have halved : numLeaves / 2 ^ (level + 1) = index / 2 := by
      rw [← Position.div_two_pow_succ, isIndex]
    have sum : level + (count + 1) = level + 1 + count := by omega
    cases stack with
    | nil =>
      rw [carry_empty isIndex (by omega)]
      simp [mergeLast]
    | cons leftHash below =>
      rw [carry_merge isIndex (by omega) (by omega), mergeLast, sum]
      exact inductionHypothesis halved (by omega) (by omega) (by omega)

end InMemoryAccumulator

namespace FrozenSubtreeSiblingIterator

theorem le_of_two_pow_dvd {power shift : Nat} (divides : 2 ^ power ∣ (2 * half + 1) * 2 ^ shift) :
    power ≤ shift := by
  have coprime : Nat.Coprime (2 ^ power) (2 * half + 1) := Nat.Coprime.pow_left _ (by simp)
  exact (Nat.pow_dvd_pow_iff_le_right (by omega)).mp (coprime.dvd_of_dvd_mul_left divides)

/-- While there are enough new leaves, the next subtree is the sibling of the last one. -/
theorem next_sibling {level remaining : Nat} (low : level < 64) (enough : 2 ^ level ≤ remaining) :
    next ⟨(2 * half + 1) * 2 ^ level, remaining⟩ = some (Position.atNode level (2 * half + 1),
        ⟨(2 * half + 1) * 2 ^ level + 2 ^ level, remaining - 2 ^ level⟩) := by
  have positive : 0 < 2 ^ level := Nat.two_pow_pos level
  have notZero : remaining ≠ 0 := by omega
  have notEmpty : 0 < (2 * half + 1) * 2 ^ level := Nat.mul_pos (by omega) positive
  have size : nextSubtreeLeaves ⟨(2 * half + 1) * 2 ^ level, remaining⟩ = 2 ^ level := by
    simp only [nextSubtreeLeaves, notEmpty, if_true,
      trailingZeros_eq low, Nat.one_shiftLeft, enough]
  simp only [next, notZero, if_false, size, Position.position_eq]

theorem next_rest {bit rest : Nat} (small : rest < 2 ^ bit)
    (few : 2 * half * 2 ^ bit + (2 ^ bit + rest) ≤ 2 ^ 63) :
    next ⟨2 * half * 2 ^ bit, 2 ^ bit + rest⟩ = some (Position.atNode bit (2 * half),
        ⟨(2 * half + 1) * 2 ^ bit, rest⟩) := by
  have notZero : 2 ^ bit + rest ≠ 0 := by omega
  have low : bit < 64 := @shift_lt 0 bit (by omega)
  have batch : nextNewLeafBatch ⟨2 * half * 2 ^ bit, 2 ^ bit + rest⟩ = 2 ^ bit := by
    have exponent : 63 - (64 - (bit + 1)) = bit := by omega
    simp only [nextNewLeafBatch, leadingZeros, size_two_pow_add small,
      maxAccumulatorProofDepth, exponent, Nat.one_shiftLeft]
  have size : nextSubtreeLeaves ⟨2 * half * 2 ^ bit, 2 ^ bit + rest⟩ = 2 ^ bit := by
    by_cases isEmpty : 0 < 2 * half * 2 ^ bit
    · obtain ⟨shift, odd, isCurrent⟩ := exists_shifted_odd isEmpty
      have divides : 2 ^ (bit + 1) ∣ (2 * odd + 1) * 2 ^ shift := ⟨half, by rw [← isCurrent]; ring⟩
      have larger : 2 ^ (bit + 1) ≤ 2 ^ shift :=
        Nat.pow_le_pow_right (by omega) (le_of_two_pow_dvd divides)
      have inside : shift < 64 := @shift_lt odd shift (by omega)
      have trailing : trailingZeros (2 * half * 2 ^ bit) = shift := by
        rw [isCurrent, trailingZeros_eq inside]
      have notEnough : ¬ 2 ^ shift ≤ 2 ^ bit + rest := by omega
      simp only [nextSubtreeLeaves, isEmpty, if_true, trailing,
        Nat.one_shiftLeft, notEnough, if_false, batch]
    · simp only [nextSubtreeLeaves, isEmpty, if_false, batch]
  have current : 2 * half * 2 ^ bit + 2 ^ bit = (2 * half + 1) * 2 ^ bit := by ring
  have left : 2 ^ bit + rest - 2 ^ bit = rest := by omega
  simp only [next, notZero, if_false, size, Position.position_eq, left]
  rw [current]

end FrozenSubtreeSiblingIterator

namespace MerkleAccumulatorView

variable {hasher : PaddedScheme HashValue} {reader : HashReader} {leaves : List HashValue}
  {steps : Nat}

theorem readSiblings_some {view : MerkleAccumulatorView}
    {iterator rest : FrozenSubtreeSiblingIterator} {position : Position}
    (next : iterator.next = some (position, rest)) (read : view.reader position = .ok hash) :
    readSiblings view (steps + 1) iterator = do
      let hashes ← readSiblings view steps rest
      return hash :: hashes := by
  simp only [readSiblings, next, read, ok_bind]

/-- When fewer leaves are left, the remaining maximal full subtrees are read. -/
theorem readSiblings_rest {current remaining : Nat} (hasFrozen : HasFrozen hasher reader leaves)
    (few : leaves.length ≤ 2 ^ 63) (isTotal : current + remaining = leaves.length)
    (aligned : 2 ^ remaining.size ∣ current) (enough : remaining.size < steps) :
    readSiblings ⟨reader, leaves.length⟩ steps ⟨current, remaining⟩ = .ok (hasher.nodesAt leaves
        (fullAbove current 0 leaves.length)).reverse := by
  induction steps generalizing current remaining with
  | zero => omega
  | succ steps inductionHypothesis =>
    by_cases isZero : remaining = 0
    · subst isZero
      rw [fullAbove_of_le (by omega)]
      rfl
    · obtain ⟨bit, rest, half, isRest, small, isBit, isCurrent, restAligned,
        restTotal, highest⟩ := fullAbove_highest isTotal aligned isZero
      have restSize : rest.size ≤ bit := Nat.size_le.mpr small
      have full : (2 * half + 1) * 2 ^ bit ≤ leaves.length := by omega
      have next := @FrozenSubtreeSiblingIterator.next_rest half bit rest small (by omega)
      rw [← isCurrent, ← isRest] at next
      rw [readSiblings_some next (hasFrozen bit (2 * half) full),
        inductionHypothesis restTotal restAligned (by omega), ok_bind, highest]
      simp [nodesAt]

/-- Store and memory go together: each subtree that is read is merged, until the rest is smaller
than the last one. -/
theorem run_of_readSiblings {level : Nat} (hasFrozen : HasFrozen hasher reader leaves)
    (few : leaves.length ≤ 2 ^ 63) (inside : (2 * half + 1) * 2 ^ level ≤ leaves.length)
    (enoughRounds : 64 - level < rounds)
    (enoughSteps : (leaves.length - (2 * half + 1) * 2 ^ level).size + (64 - level) < steps) :
    ∃ subtrees last, readSiblings ⟨reader, leaves.length⟩ steps ⟨(2 * half + 1) * 2 ^ level,
        leaves.length - (2 * half + 1) * 2 ^ level⟩ = .ok subtrees ∧
      InMemoryAccumulator.SubtreeLoop.run hasher rounds
        ⟨hasher.nodesAt leaves (fullAbove 0 level (2 * half + 1)), (2 * half + 1) * 2 ^ level,
          leaves.length - (2 * half + 1) * 2 ^ level, subtrees,
          2 ^ level⟩ = .ok last ∧
      last.currentSubtreeRoots.reverse ++ last.subtreeIter = frozenRoots hasher leaves ∧
      last.currentNumLeaves + last.remainingNewLeaves = leaves.length := by
  induction rounds generalizing steps level half with
  | zero => omega
  | succ rounds inductionHypothesis =>
    have positive : 0 < 2 ^ level := Nat.two_pow_pos level
    have low : level < 64 := shift_lt (inside.trans few)
    by_cases goes : 2 ^ level ≤ leaves.length - (2 * half + 1) * 2 ^ level
    · obtain ⟨count, odd, carries, grows, highest, merged⟩ := @exists_carry half level (by omega)
      have full : (2 * half + 1 + 1) * 2 ^ level ≤ leaves.length := by
        rw [Nat.add_mul, Nat.one_mul]
        omega
      have remaining : leaves.length - (2 * half + 1) * 2 ^ level - 2 ^ level =
          leaves.length - (2 * odd + 1) * 2 ^ (level + count) := by
        omega
      have smaller : (leaves.length - (2 * odd + 1) * 2 ^ (level + count)).size ≤
          (leaves.length - (2 * half + 1) * 2 ^ level).size :=
        Nat.size_le_size (by omega)
      obtain ⟨steps, rfl⟩ : ∃ less, steps = less + 1 := ⟨steps - 1, by omega⟩
      obtain ⟨subtrees, last, read, ran, isFrozen, isTotal⟩ :=
        @inductionHypothesis odd steps (level + count) (by omega) (by omega) (by omega)
      have next := @FrozenSubtreeSiblingIterator.next_sibling half level _ low goes
      rw [merged, remaining] at next
      refine ⟨hasher.nodeAt leaves level (2 * half + 1) :: subtrees, last,
        ?_, ?_, isFrozen, isTotal⟩
      · rw [readSiblings_some next (hasFrozen level (2 * half + 1) full), read]
        rfl
      · have shifted : fullAbove 0 level (2 * half + 1 + 1) =
            fullAbove 0 (level + count) (2 * odd + 1) := by
          rw [carries, fullAbove_shift]
        have isIndex : (2 * half + 1) * 2 ^ level / 2 ^ level =
            2 * half + 1 := Nat.mul_div_cancel _ positive
        have merges := @mergeLast_eq hasher leaves level (2 * half + 1) count odd carries full
        rw [shifted, nodesAt_odd (by omega : (2 * odd + 1) % 2 = 1)] at merges
        have carried := (carry_eq_ok isIndex carries
          highest (show count < 64 by omega)).mpr ⟨merges, rfl⟩
        have added : checkedAdd ((2 * half + 1) * 2 ^ level) (2 ^ level) =
            some ((2 * odd + 1) * 2 ^ (level + count)) := by
          rw [checkedAdd, u64Max, merged, if_pos (by omega)]
        rw [nodesAt_odd (by omega)] at ran
        rw [InMemoryAccumulator.SubtreeLoop.run_step goes]
        simp only [InMemoryAccumulator.SubtreeLoop.step, carried, ok_bind, added, expect, remaining]
        exact ran
    · have less : leaves.length - (2 * half + 1) * 2 ^ level < 2 ^ level := by omega
      have aligned : 2 ^ (leaves.length - (2 * half + 1) * 2 ^ level).size ∣
          (2 * half + 1) * 2 ^ level :=
        Dvd.dvd.mul_left (Nat.pow_dvd_pow 2 (Nat.size_le.mpr less)) _
      have read := readSiblings_rest hasFrozen few (by omega) aligned (show _ < steps by omega)
      have above : leaves.length < (2 * half + 1 + 1) * 2 ^ level := by
        rw [Nat.add_mul _ 1, Nat.one_mul]
        omega
      have split := @fullAbove_split 0 leaves.length level (2 * half + 1) inside above
      rw [Nat.zero_add] at split
      refine ⟨_, _, read, InMemoryAccumulator.SubtreeLoop.run_stop goes, ?_, ?_⟩
      · simp only [frozenRoots, split, nodesAt, map_append, reverse_append]
      · simp only []
        omega

/-- The subtrees of the store's proof lead to the accumulator of all leaves. -/
theorem appendSubtrees_of_getConsistencyProof {known : Nat}
    (hasFrozen : HasFrozen hasher reader leaves)
    (few : leaves.length ≤ 2 ^ 63) (atMost : known ≤ leaves.length) :
    ∃ subtrees, getConsistencyProof ⟨reader, leaves.length⟩ known = .ok subtrees ∧
      (ofLeaves hasher (leaves.take known)).appendSubtrees hasher subtrees (leaves.length - known) =
          .ok (ofLeaves hasher leaves) := by
  have isLimit : maxAccumulatorLeaves = 2 ^ 63 := by
    rw [maxAccumulatorLeaves, maxAccumulatorProofDepth, Nat.one_shiftLeft]
  have isLength : (leaves.take known).length = known := by
    rw [length_take]
    omega
  have asked (subtrees : List HashValue) (read : readSiblings ⟨reader, leaves.length⟩ 128
        ⟨known, leaves.length - known⟩ = .ok subtrees) :
      getConsistencyProof ⟨reader, leaves.length⟩ known = .ok subtrees := by
    have fits : leaves.length ≤ maxAccumulatorLeaves := by omega
    simp only [getConsistencyProof, ensure_of atMost, FrozenSubtreeSiblingIterator.new,
      ensure_of fits, ok_bind, pure_bind, read]
  have fits : (ofLeaves hasher (leaves.take known)).numLeaves ≤ maxAccumulatorLeaves := by
    rw [numLeaves_ofLeaves, isLength]
    omega
  have notTooMany : leaves.length - known ≤ maxAccumulatorLeaves -
      (ofLeaves hasher (leaves.take known)).numLeaves := by
    rw [numLeaves_ofLeaves, isLength]
    omega
  by_cases isZero : known = 0
  · subst isZero
    have sizeAtMost : leaves.length.size ≤ 64 := Nat.size_le.mpr (by omega)
    have read := @readSiblings_rest hasher reader leaves 128 0 leaves.length
      hasFrozen few (by omega) (Nat.dvd_zero _) (by omega)
    refine ⟨_, asked _ read, ?_⟩
    have noLeaves : (ofLeaves hasher (leaves.take 0)).numLeaves = 0 := rfl
    rw [appendSubtrees, ensure_of fits, ok_bind, ensure_of notTooMany, ok_bind, if_pos noLeaves]
    exact new_eq few
  · obtain ⟨level, half, isKnown⟩ := exists_shifted_odd (Nat.pos_of_ne_zero isZero)
    have low : level < 64 := @shift_lt half level (by omega)
    have sizeAtMost : (leaves.length - known).size ≤ 63 := Nat.size_le.mpr (by omega)
    obtain ⟨subtrees, last, read, ran, isFrozen, isTotal⟩ :=
      @run_of_readSiblings half 65 hasher reader leaves 128 level hasFrozen few
        (by omega) (by omega) (by rw [← isKnown]; omega)
    rw [← isKnown] at read ran
    refine ⟨subtrees, asked _ read, ?_⟩
    have stack : (frozenRoots hasher (leaves.take known)).reverse =
        hasher.nodesAt leaves (fullAbove 0 level (2 * half + 1)) := by
      have appended := @nodesAt_append _ hasher (leaves.take known) (leaves.drop known) 0
      rw [take_append_drop, isLength] at appended
      rw [frozenRoots, reverse_reverse, isLength,
        ← appended, isKnown, fullAbove_shift, Nat.zero_add]
    have trailing : trailingZeros known = level := by rw [isKnown, trailingZeros_eq low]
    have notEmpty : (ofLeaves hasher (leaves.take known)).numLeaves ≠ 0 := by
      rwa [numLeaves_ofLeaves, isLength]
    have start : InMemoryAccumulator.SubtreeLoop.start
        (ofLeaves hasher (leaves.take known)) subtrees
        (leaves.length - known) =
        ⟨hasher.nodesAt leaves (fullAbove 0 level (2 * half + 1)), known,
          leaves.length - known, subtrees, 2 ^ level⟩ := by
      rw [InMemoryAccumulator.SubtreeLoop.start, ofLeaves, stack, isLength, trailing,
        Nat.one_shiftLeft]
    have added : checkedAdd last.currentNumLeaves last.remainingNewLeaves = some leaves.length := by
      rw [checkedAdd, u64Max, isTotal, if_pos (by omega)]
    rw [appendSubtrees, ensure_of fits, ok_bind, ensure_of notTooMany, ok_bind, if_neg notEmpty,
      start, ran, ok_bind, added, expect, ok_bind, isFrozen]
    exact new_eq few

end MerkleAccumulatorView

end LumioNode
