import Mathlib.Data.Finset.Basic

/-! # The 2-chain protocol

What votes, order votes and timeouts of honest members satisfy so that decided blocks
lie on one chain, in whatever order they are cast. -/

namespace LumioNode.Library

/-- Blocks with their rounds and parents, and who signed what. -/
structure TwoChain (ν β : Type) where
  honest : ν → Prop
  IsQuorum : Finset ν → Prop
  round : β → Nat
  parent : β → β
  voted : ν → β → Prop
  orderVoted : ν → β → Prop
  timedOut : ν → (round highest : Nat) → Prop

namespace TwoChain

variable {ν β : Type} (chain : TwoChain ν β)

def QuorumOf (act : ν → Prop) : Prop := ∃ quorum, chain.IsQuorum quorum ∧
    ∀ member ∈ quorum, chain.honest member → act member

def Certified (block : β) : Prop := chain.QuorumOf fun member => chain.voted member block

/-- A quorum timed out in a round, none with a higher certificate. -/
def TimeoutCertified (round highest : Nat) : Prop := chain.QuorumOf fun member =>
    ∃ seen ≤ highest, chain.timedOut member round seen

/-- Ordered by a quorum, or the parent of a certified block of the next round. -/
def Decided (block : β) : Prop := (chain.QuorumOf fun member => chain.orderVoted member block) ∨
    ∃ child, chain.Certified child ∧ chain.parent child = block ∧
      chain.round child = chain.round block + 1

/-- Reflexive: every block is an ancestor of itself. -/
def Ancestor : β → β → Prop := Relation.ReflTransGen fun parent child =>
    (∃ member, chain.honest member ∧ chain.voted member child) ∧ chain.parent child = parent

/-- The rules every honest member keeps. -/
structure Rules : Prop where
  common : ∀ {first second : Finset ν}, chain.IsQuorum first → chain.IsQuorum second →
      ∃ member ∈ first, member ∈ second ∧ chain.honest member
  voteUnique : ∀ {member : ν} {first second : β}, chain.honest member →
    chain.voted member first → chain.voted member second →
      chain.round first = chain.round second → first = second
  parentRound : ∀ {member : ν} {block : β}, chain.honest member → chain.voted member block →
      chain.round (chain.parent block) < chain.round block
  safeToVote : ∀ {member : ν} {block : β}, chain.honest member → chain.voted member block →
      chain.round block = chain.round (chain.parent block) + 1 ∨
        ∃ round highest, chain.TimeoutCertified round highest ∧ chain.round block = round + 1 ∧
          highest ≤ chain.round (chain.parent block)
  parentCertified : ∀ {member : ν} {block : β}, chain.honest member →
    chain.voted member block → 0 < chain.round (chain.parent block) →
      chain.Certified (chain.parent block)
  orderCertified : ∀ {member : ν} {block : β}, chain.honest member →
    chain.orderVoted member block → 0 < chain.round block → chain.Certified block
  orderedTimeout : ∀ {member : ν} {block : β} {round highest : Nat},
    chain.honest member → chain.orderVoted member block →
      chain.timedOut member round highest → chain.round block ≤ round → chain.round block ≤ highest
  votedTimeout : ∀ {member : ν} {block : β} {round highest : Nat},
    chain.honest member → chain.voted member block →
      chain.timedOut member round highest → chain.round block ≤ round →
        chain.round (chain.parent block) ≤ highest

variable {chain}

namespace Rules

variable (rules : chain.Rules)
include rules

theorem meet {act other : ν → Prop} (first : chain.QuorumOf act) (second : chain.QuorumOf other) :
    ∃ member, chain.honest member ∧ act member ∧ other member := by
  obtain ⟨quorum, isQuorum, acted⟩ := first
  obtain ⟨quorum', isQuorum', acted'⟩ := second
  obtain ⟨member, inFirst, inSecond, isHonest⟩ := rules.common isQuorum isQuorum'
  exact ⟨member, isHonest, acted member inFirst isHonest, acted' member inSecond isHonest⟩

theorem certified_unique {first second : β} (firstCertified : chain.Certified first)
    (secondCertified : chain.Certified second)
    (sameRound : chain.round first = chain.round second) : first = second := by
  obtain ⟨member, isHonest, votedFirst, votedSecond⟩ := rules.meet firstCertified secondCertified
  exact rules.voteUnique isHonest votedFirst votedSecond sameRound

theorem decided_certified {block : β} (decided : chain.Decided block)
    (positive : 0 < chain.round block) : chain.Certified block := by
  rcases decided with ordered | ⟨child, certified, parentEq, _⟩
  · obtain ⟨member, isHonest, orderVoted, _⟩ := rules.meet ordered ordered
    exact rules.orderCertified isHonest orderVoted positive
  · obtain ⟨member, isHonest, voted, _⟩ := rules.meet certified certified
    subst parentEq
    exact rules.parentCertified isHonest voted positive

theorem decided_le_parent {block other : β} {member : ν} (decided : chain.Decided block)
    (certified : chain.Certified other) (isHonest : chain.honest member)
    (voted : chain.voted member other) (later : chain.round block < chain.round other) :
    chain.round block ≤ chain.round (chain.parent other) := by
  rcases decided with ordered | ⟨child, childCertified, parentEq, childRound⟩
  · rcases rules.safeToVote isHonest voted with
      follows | ⟨round, highest, timedOut, follows, highestLe⟩
    · omega
    · obtain ⟨member, isHonest, orderVoted, seen, seenLe, expired⟩ := rules.meet ordered timedOut
      have bound := rules.orderedTimeout isHonest orderVoted expired (by omega)
      exact (bound.trans seenLe).trans highestLe
  · by_cases sameRound : chain.round child = chain.round other
    · have same := rules.certified_unique childCertified certified sameRound
      rw [← same, parentEq]
    · rcases rules.safeToVote isHonest voted with
        follows | ⟨round, highest, timedOut, follows, highestLe⟩
      · omega
      · obtain ⟨member, isHonest, voted, seen, seenLe, expired⟩ :=
          rules.meet childCertified timedOut
        have bound := rules.votedTimeout isHonest voted expired (by omega)
        rw [parentEq] at bound
        exact (bound.trans seenLe).trans highestLe

/-- Decided blocks are ancestors of certified blocks that are not of earlier rounds. -/
theorem decided_ancestor {block : β} (decided : chain.Decided block)
    (positive : 0 < chain.round block) (other : β) (certified : chain.Certified other)
    (later : chain.round block ≤ chain.round other) : chain.Ancestor block other := by
  have blockCertified := rules.decided_certified decided positive
  induction size : chain.round other using Nat.strong_induction_on generalizing other with
  | _ round inductionHypothesis =>
    obtain ⟨member, isHonest, voted, _⟩ := rules.meet certified certified
    by_cases sameRound : chain.round block = chain.round other
    · have same := rules.certified_unique blockCertified certified sameRound
      subst same
      exact Relation.ReflTransGen.refl
    · have strictlyLater : chain.round block < chain.round other := lt_of_le_of_ne later sameRound
      have parentLater := rules.decided_le_parent decided certified isHonest voted strictlyLater
      have parentPositive : 0 < chain.round (chain.parent other) :=
        Nat.lt_of_lt_of_le positive parentLater
      have parentCertified := rules.parentCertified isHonest voted parentPositive
      have parentRound := rules.parentRound isHonest voted
      have toParent := inductionHypothesis _ (size ▸ parentRound) _ parentCertified parentLater rfl
      exact Relation.ReflTransGen.tail toParent ⟨⟨member, isHonest, voted⟩, rfl⟩

/-- Two decided blocks lie on one chain. -/
theorem agreement {first second : β} (firstDecided : chain.Decided first)
    (secondDecided : chain.Decided second) (firstPositive : 0 < chain.round first)
    (secondPositive : 0 < chain.round second) :
    chain.Ancestor first second ∨ chain.Ancestor second first := by
  rcases Nat.le_total (chain.round first) (chain.round second) with
    firstLe | secondLe
  · exact .inl (rules.decided_ancestor firstDecided firstPositive second
      (rules.decided_certified secondDecided secondPositive) firstLe)
  · exact .inr (rules.decided_ancestor secondDecided secondPositive first
      (rules.decided_certified firstDecided firstPositive) secondLe)

end Rules

end TwoChain

end LumioNode.Library
