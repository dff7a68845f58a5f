import LumioNode.BlockStorage.Links

/-! # The window of recent blocks

A block's ancestors from a start round on, unless one is missing. -/

namespace LumioNode

open Library Relation List

namespace BlockTree

def Parent (tree : BlockTree) (child parent : Block) : Prop :=
  child.isGenesisBlock = false ∧ tree.getBlock child.parentId = some parent

/-- The certificate of a block states its parent's round, which is below its own. -/
def FollowsParent (tree : BlockTree) (child : Block) : Prop :=
  child.isGenesisBlock = false → child.certifiedRound < child.round ∧
    ∀ parent, tree.getBlock child.parentId = some parent → parent.round = child.certifiedRound

/-- Blocks are stored under their ids, and rounds increase from parents. -/
structure RoundsIncrease (hash : ConsensusHash) (tree : BlockTree) : Prop where
  keyed : ∀ id block, tree.getBlock id = some block → block.id hash = id
  follows : ∀ id block, tree.getBlock id = some block → tree.FollowsParent block

/-- An ancestor of the block, or it itself, lacks its parent in the tree. -/
structure LacksParent (tree : BlockTree) (start : Nat) (block child : Block) : Prop where
  isAncestor : ReflTransGen tree.Parent block child
  notGenesis : child.isGenesisBlock = false
  inWindow : start ≤ child.certifiedRound
  missing : tree.getBlock child.parentId = none

structure Collects (tree : BlockTree) (start : Nat) (block : Block) (walked : List Block) :
    Prop where
  mem_iff : ∀ ancestor, ancestor ∈ walked ↔
    TransGen tree.Parent block ancestor ∧ start ≤ ancestor.round
  noneLacks : ∀ child, ¬ tree.LacksParent start block child
  decreases : walked.Pairwise fun later earlier => earlier.round < later.round
  length : start ≤ block.round → walked.length + start ≤ block.round

def parentNotFound (hash : ConsensusHash) (child : Block) : String :=
  "Parent block not found for block " ++ (child.id hash).display

/-- The number of blocks below a round, which bounds a walk to the root. -/
def countBelow (tree : BlockTree) (round : Nat) : Nat := tree.idToBlock.entries.countP fun entry =>
    decide (entry.2.executedBlock.round < round)

variable {hash : ConsensusHash} {tree : BlockTree} {block ancestor : Block} {start : Nat}
  {commitRoot : Block} {id : HashValue} {size : Nat}

theorem countBelow_lt {linkable : LinkableBlock}
    (found : tree.getLinkableBlock id = some linkable) {round : Nat}
    (lower : linkable.executedBlock.round < round) :
    tree.countBelow linkable.executedBlock.round < tree.countBelow round := by
  apply countP_lt_of_mem (SortedMap.get?_eq_some_iff.mp found)
  · intro other isLower
    have := of_decide_eq_true isLower
    exact decide_eq_true (by omega)
  · exact decide_eq_true lower
  · simp

theorem countBelow_lt_loopBound (round : Nat) : tree.countBelow round < tree.loopBound :=
  Nat.lt_succ_of_le countP_le_length

section

variable (increase : tree.RoundsIncrease hash) (follows : tree.FollowsParent block)

include increase follows

theorem RoundsIncrease.follows_of_reaches (reaches : ReflTransGen tree.Parent block ancestor) :
    tree.FollowsParent ancestor := by
  rcases ReflTransGen.cases_tail reaches with rfl | ⟨_, _, isParent⟩
  · exact follows
  · exact increase.follows _ _ isParent.2

theorem RoundsIncrease.ancestor_round_le (isAncestor : TransGen tree.Parent block ancestor) :
    ancestor.round ≤ block.certifiedRound ∧ block.isGenesisBlock = false := by
  induction isAncestor with
  | single isParent => exact ⟨((follows isParent.1).2 _ isParent.2).le, isParent.1⟩
  | tail reaches isParent inductionHypothesis =>
    obtain ⟨less, sameRound⟩ :=
      increase.follows_of_reaches follows reaches.to_reflTransGen isParent.1
    have := sameRound _ isParent.2
    exact ⟨by omega, inductionHypothesis.2⟩

theorem RoundsIncrease.ancestor_round_lt (isAncestor : TransGen tree.Parent block ancestor) :
    ancestor.round < block.round := by
  obtain ⟨atMost, notGenesis⟩ := increase.ancestor_round_le follows isAncestor
  exact atMost.trans_lt (follows notGenesis).1

theorem Collects.nil (ends : ¬ (block.isGenesisBlock = false ∧ start ≤ block.certifiedRound)) :
    tree.Collects start block [] := by
  have none (ancestor : Block) (isAncestor : TransGen tree.Parent block ancestor) :
      ¬ start ≤ ancestor.round := by
    intro atLeast
    obtain ⟨atMost, notGenesis⟩ := increase.ancestor_round_le follows isAncestor
    exact ends ⟨notGenesis, atLeast.trans atMost⟩
  refine ⟨fun ancestor => ⟨nofun, fun isThere => absurd isThere.2 (none _ isThere.1)⟩, ?_, .nil,
    by simp⟩
  intro child lacks
  rcases reflTransGen_iff_eq_or_transGen.mp lacks.isAncestor with rfl | isAncestor
  · exact ends ⟨lacks.notGenesis, lacks.inWindow⟩
  · have follows := increase.follows_of_reaches follows lacks.isAncestor
    exact none child isAncestor (lacks.inWindow.trans (follows lacks.notGenesis).1.le)

variable {walked : List Block}

theorem Collects.cons {parent : Block} (isParent : tree.Parent block parent)
    (inWindow : start ≤ parent.round) (collects : tree.Collects start parent walked) :
    tree.Collects start block (parent :: walked) := by
  have parentFollows := increase.follows _ _ isParent.2
  refine ⟨?_, ?_, ?_, ?_⟩
  · intro ancestor
    rw [mem_cons, collects.mem_iff]
    constructor
    · rintro (rfl | ⟨isAncestor, atLeast⟩)
      · exact ⟨.single isParent, inWindow⟩
      · exact ⟨.head isParent isAncestor, atLeast⟩
    · rintro ⟨isAncestor, atLeast⟩
      obtain ⟨other, isOther, isAncestor⟩ := TransGen.head'_iff.mp isAncestor
      cases Option.some.inj (isParent.2.symm.trans isOther.2)
      rcases reflTransGen_iff_eq_or_transGen.mp isAncestor with same | isAncestor
      · exact .inl same
      · exact .inr ⟨isAncestor, atLeast⟩
  · intro child lacks
    rcases ReflTransGen.cases_head lacks.isAncestor with rfl | ⟨other, isOther, isAncestor⟩
    · exact absurd (isParent.2.symm.trans lacks.missing) nofun
    · cases Option.some.inj (isParent.2.symm.trans isOther.2)
      exact collects.noneLacks child { lacks with isAncestor := isAncestor }
  · refine List.Pairwise.cons ?_ collects.decreases
    intro earlier isEarlier
    exact increase.ancestor_round_lt parentFollows ((collects.mem_iff _).mp isEarlier).1
  · intro _
    have := collects.length inWindow
    have := increase.ancestor_round_lt follows (.single isParent)
    rw [length_cons]
    omega

/-- The window root is in the window, and what comes before it is not. -/
theorem Collects.first (collects : tree.Collects start block walked)
    (atMost : start ≤ block.round) :
    ReflTransGen tree.Parent block (walked.reverse.head?.getD block) ∧
      start ≤ (walked.reverse.head?.getD block).round ∧
      ∀ earlier, TransGen tree.Parent (walked.reverse.head?.getD block) earlier →
        earlier.round < start := by
  have mem_iff (other : Block) := mem_reverse.trans (collects.mem_iff other)
  have increases := pairwise_reverse.mpr collects.decreases
  cases isWindow : walked.reverse with
  | nil =>
    refine ⟨.refl, atMost, fun earlier isAncestor => Nat.not_le.mp fun atLeast => ?_⟩
    have isThere := (mem_iff earlier).mpr ⟨isAncestor, atLeast⟩
    rw [isWindow] at isThere
    cases isThere
  | cons first rest =>
    rw [isWindow] at mem_iff increases
    obtain ⟨isAncestor, atLeast⟩ := (mem_iff first).mp mem_cons_self
    have firstFollows := increase.follows_of_reaches follows isAncestor.to_reflTransGen
    refine ⟨isAncestor.to_reflTransGen, atLeast, fun earlier isEarlier => Nat.not_le.mp ?_⟩
    intro least
    have lower := increase.ancestor_round_lt firstFollows isEarlier
    rcases mem_cons.mp ((mem_iff earlier).mpr ⟨isAncestor.trans isEarlier, least⟩) with
      rfl | isLater
    · exact lt_irrefl _ lower
    · exact lt_asymm lower (rel_of_pairwise_cons increases isLater)

theorem RoundsIncrease.windowLoop_ok {fuel : Nat} (enough : tree.countBelow block.round < fuel) :
    (∃ child, tree.LacksParent start block child ∧
      tree.windowLoop hash start fuel block = .ok (.error (parentNotFound hash child))) ∨
    ∃ walked, tree.Collects start block walked ∧
      tree.windowLoop hash start fuel block = .ok (.ok walked) := by
  induction fuel generalizing block with
  | zero => omega
  | succ fuel inductionHypothesis =>
    by_cases goesOn : block.isGenesisBlock = false ∧ start ≤ block.certifiedRound
    · rw [windowLoop, if_pos goesOn]
      cases found : tree.getBlock block.parentId with
      | none => exact .inl ⟨block, ⟨.refl, goesOn.1, goesOn.2, found⟩, rfl⟩
      | some parent =>
        have isParent : tree.Parent block parent := ⟨goesOn.1, found⟩
        have lower := increase.ancestor_round_lt follows (.single isParent)
        obtain ⟨linkable, isFound, rfl⟩ := getBlock_eq_some.mp found
        have fewer := countBelow_lt isFound lower
        rcases inductionHypothesis (increase.follows _ _ found) (by omega) with
          ⟨child, lacks, isOutcome⟩ | ⟨walked, collects, isOutcome⟩
        · refine .inl ⟨child, { lacks with isAncestor := .head isParent lacks.isAncestor }, ?_⟩
          simp only [isOutcome]
          rfl
        · have inWindow := ((follows goesOn.1).2 _ found).symm ▸ goesOn.2
          refine .inr ⟨_, Collects.cons increase follows isParent inWindow collects, ?_⟩
          simp only [isOutcome]
          rfl
    · rw [windowLoop, if_neg goesOn]
      exact .inr ⟨[], Collects.nil increase follows goesOn, rfl⟩

theorem RoundsIncrease.window_ok (isCommitRoot : tree.commitRoot = .ok commitRoot)
    (notBelow : commitRoot.round ≤ block.round) (notLast : block.round < u64Max)
    (positive : 0 < size) :
    (∃ child, tree.LacksParent (block.round + 1 - size) block child ∧
      tree.getOrderedBlockWindow hash block (some size) =
        .ok (.error (parentNotFound hash child))) ∨
    ∃ walked, tree.Collects (block.round + 1 - size) block walked ∧
      tree.getOrderedBlockWindow hash block (some size) = .ok (.ok walked.reverse) := by
  have isStart : calculateWindowStartRound block.round size = .ok (block.round + 1 - size) := by
    simp only [calculateWindowStartRound, ensure_of positive, ok_bind, checkedAdd]
    rw [if_pos (by omega)]
    rfl
  simp only [getOrderedBlockWindow, isCommitRoot, ok_bind, if_neg (Nat.not_lt.mpr notBelow),
    isStart]
  rcases increase.windowLoop_ok follows (countBelow_lt_loopBound block.round) with
    ⟨child, lacks, isOutcome⟩ | ⟨walked, collects, isOutcome⟩
  · refine .inl ⟨child, lacks, ?_⟩
    rw [isOutcome, ok_bind, ensure_of (Nat.succ_pos _)]
    rfl
  · refine .inr ⟨walked, collects, ?_⟩
    have short := collects.length (by omega)
    rw [isOutcome, ok_bind, ensure_of (Nat.succ_pos _), ok_bind, ok_bind, ensure_of (by omega)]
    rfl

end

theorem window_overflows (isCommitRoot : tree.commitRoot = .ok commitRoot)
    (notBelow : commitRoot.round ≤ block.round) (isLast : ¬ block.round < u64Max)
    (positive : 0 < size) :
    tree.getOrderedBlockWindow hash block (some size) = .error .attemptToAddWithOverflow := by
  simp only [getOrderedBlockWindow, isCommitRoot, ok_bind, if_neg (Nat.not_lt.mpr notBelow),
    calculateWindowStartRound, ensure_of positive, checkedAdd]
  rw [if_neg (by omega)]
  rfl

theorem findWindowRoot_of_window {windowSize : Option Nat} {window : List Block}
    (found : tree.getBlock id = some block) (positive : windowSize ≠ some 0)
    (isWindow : tree.getOrderedBlockWindow hash block windowSize = .ok (.ok window)) :
    tree.findWindowRoot hash id windowSize = .ok ((window.head?.getD block).id hash) := by
  simp only [findWindowRoot, ensure_of positive, found, expect, ok_bind, isWindow]
  rfl

end BlockTree

end LumioNode
