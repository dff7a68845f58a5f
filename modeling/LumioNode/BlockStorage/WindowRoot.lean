import LumioNode.BlockStorage.NoLeak

/-! # The window root

Pruning by window roots removes no block that a later window needs. -/

namespace LumioNode

open Library Relation

namespace BlockTree

section Windows

variable {hash : ConsensusHash} {tree : BlockTree} {size : Nat}

theorem RoundsIncrease.findWindowRoot_eq_ok {block : Block} {id root : HashValue}
    (increase : tree.RoundsIncrease hash) (found : tree.getBlock id = some block)
    (isRoot : tree.findWindowRoot hash id (some size) = .ok root) :
    ∃ walked, tree.Collects (block.round + 1 - size) block walked ∧ 0 < size ∧
      (walked.reverse.head?.getD block).id hash = root := by
  simp only [findWindowRoot, found, bind_eq_ok, ensure_eq_ok, expect_eq_ok] at isRoot
  obtain ⟨_, notZero, _, ⟨⟩, outcome, isOutcome, isRoot⟩ := isRoot
  have positive : 0 < size := Nat.pos_of_ne_zero fun isZero => notZero (congrArg some isZero)
  obtain ⟨commitRoot, isCommitRoot, isLater⟩ := of_bind isOutcome
  split at isLater
  · cases isLater
    cases isRoot
  · rename_i notBelow
    replace notBelow := Nat.not_lt.mp notBelow
    by_cases notLast : block.round < u64Max
    · rcases increase.window_ok (increase.follows _ _ found) isCommitRoot notBelow notLast
        positive with ⟨child, _, failed⟩ | ⟨walked, collects, isWindow⟩
      · cases isOutcome.symm.trans failed
        cases isRoot
      · cases isOutcome.symm.trans isWindow
        exact ⟨walked, collects, positive, Except.ok.inj isRoot⟩
    · cases isOutcome.symm.trans (window_overflows isCommitRoot notBelow notLast positive)

theorem RoundsIncrease.windowRoot_first {block first : Block} {id root : HashValue}
    (increase : tree.RoundsIncrease hash) (found : tree.getBlock id = some block)
    (isRoot : tree.findWindowRoot hash id (some size) = .ok root)
    (isFirst : tree.getBlock root = some first) :
    block.round + 1 - size ≤ first.round ∧
      ∀ earlier, TransGen tree.Parent first earlier → earlier.round < block.round + 1 - size := by
  obtain ⟨walked, collects, _, rfl⟩ := increase.findWindowRoot_eq_ok found isRoot
  obtain ⟨reaches, bounds⟩ :=
    Collects.first increase (increase.follows _ _ found) collects (by omega)
  have isThere : ∃ id, tree.getBlock id = some (walked.reverse.head?.getD block) := by
    rcases ReflTransGen.cases_tail reaches with same | ⟨_, _, isParent⟩
    · exact ⟨id, found.trans (congrArg some same.symm)⟩
    · exact ⟨_, isParent.2⟩
  obtain ⟨id, isThere⟩ := isThere
  rw [increase.keyed _ _ isThere, isThere] at isFirst
  cases isFirst
  exact bounds

/-- The window of a block holds its ancestors from the start round on, unless one is missing,
and the window root of a descendant is not before that of its ancestor. -/
theorem block_window_exact {commitRoot : Block} (increase : tree.RoundsIncrease hash)
    (isCommitRoot : tree.commitRoot = .ok commitRoot) (positive : 0 < size) :
    (∀ block, tree.FollowsParent block → commitRoot.round ≤ block.round → block.round < u64Max →
      (∃ child, tree.LacksParent (block.round + 1 - size) block child ∧
        tree.getOrderedBlockWindow hash block (some size) =
          .ok (.error (parentNotFound hash child))) ∨
      ∃ window, tree.getOrderedBlockWindow hash block (some size) = .ok (.ok window) ∧
        (∀ ancestor, ancestor ∈ window ↔
          TransGen tree.Parent block ancestor ∧ block.round + 1 - size ≤ ancestor.round) ∧
        window.Pairwise fun earlier later => earlier.round < later.round) ∧
    ∀ descendantId ancestorId descendant ancestor, tree.getBlock descendantId = some descendant →
      tree.getBlock ancestorId = some ancestor → TransGen tree.Parent descendant ancestor →
      ∀ laterId earlierId, tree.findWindowRoot hash descendantId (some size) = .ok laterId →
        tree.findWindowRoot hash ancestorId (some size) = .ok earlierId →
        ∀ later earlier, tree.getBlock laterId = some later →
          tree.getBlock earlierId = some earlier → ¬ TransGen tree.Parent earlier later := by
  constructor
  · intro block follows notBelow notLast
    rcases increase.window_ok follows isCommitRoot notBelow notLast positive with
      lacks | ⟨walked, collects, isWindow⟩
    · exact .inl lacks
    · exact .inr ⟨_, isWindow, fun ancestor => List.mem_reverse.trans (collects.mem_iff ancestor),
        List.pairwise_reverse.mpr collects.decreases⟩
  · intro descendantId ancestorId descendant ancestor isDescendant isAncestor descends
      laterId earlierId isLaterId isEarlierId later earlier isLater isEarlier before
    have lower := increase.ancestor_round_lt (increase.follows _ _ isDescendant) descends
    have atLeast := (increase.windowRoot_first isDescendant isLaterId isLater).1
    have below := (increase.windowRoot_first isAncestor isEarlierId isEarlier).2 later before
    omega

end Windows

namespace LateChild

theorem first_roundsIncrease : first.RoundsIncrease hash := by
  have blocks (id : HashValue) (stored : Block) (found : first.getBlock id = some stored) :
      id = 2 ∧ stored = block 1 0 ∨ id = 1 ∧ stored = genesis := by
    obtain ⟨linkable, isFound, rfl⟩ := getBlock_eq_some.mp found
    rw [first, linkBlock_found] at isFound
    split at isFound
    · rename_i isBlock
      cases isFound
      exact .inl ⟨isBlock, rfl⟩
    · split at isFound
      · rename_i isParent
        cases isFound
        exact .inr ⟨isParent, rfl⟩
      · obtain ⟨isRoot, rfl⟩ := (new_found isNew).mp isFound
        exact .inr ⟨isRoot, rfl⟩
  constructor
  · intro id stored found
    rcases blocks id stored found with ⟨rfl, rfl⟩ | ⟨rfl, rfl⟩ <;> rfl
  · intro id stored found
    rcases blocks id stored found with ⟨rfl, rfl⟩ | ⟨rfl, rfl⟩
    · refine fun _ => ⟨by decide, ?_⟩
      rintro _ ⟨⟩
      rfl
    · exact nofun

/-- The window of two rounds that ends with a block of round 2. -/
theorem window_of_second_block :
    first.getOrderedBlockWindow hash (block 2 1) (some 2) = .ok (.ok [block 1 0]) ∧
      TransGen first.Parent (block 2 1) (block 1 0) := by
  have follows : first.FollowsParent (block 2 1) := by
    refine fun _ => ⟨by decide, ?_⟩
    rintro _ ⟨⟩
    rfl
  have isWindow : first.getOrderedBlockWindow hash (block 2 1) (some 2) = .ok (.ok [block 1 0]) :=
    rfl
  have isCommitRoot : first.commitRoot = .ok genesis := rfl
  rcases (block_window_exact first_roundsIncrease isCommitRoot (Nat.succ_pos 1)).1 (block 2 1)
    follows (by decide) (by decide) with ⟨_, _, failed⟩ | ⟨window, isOther, members, _⟩
  · cases isWindow.symm.trans failed
  · cases isWindow.symm.trans isOther
    exact ⟨isWindow, ((members (block 1 0)).mp List.mem_cons_self).1⟩

end LateChild

end BlockTree

end LumioNode
