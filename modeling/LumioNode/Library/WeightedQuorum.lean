import Mathlib.Algebra.Order.BigOperators.Group.Finset

/-! # Weighted quorums

When a quorum needs more than two thirds and the faulty members hold at most the rest,
two quorums share a member that is not faulty. -/

namespace LumioNode.Library

open Finset

variable {ν : Type} [DecidableEq ν]

/-- Members with weights, and a threshold that tolerates the faulty ones. -/
structure WeightedQuorum (ν : Type) [DecidableEq ν] where
  members : Finset ν
  weight : ν → Nat
  threshold : Nat
  faulty : Finset ν
  twoThirds : 2 * ∑ member ∈ members, weight member < 3 * threshold
  faultyBound : (∑ member ∈ members ∩ faulty, weight member) + threshold ≤
        ∑ member ∈ members, weight member ∨
      ∑ member ∈ members, weight member < threshold

namespace WeightedQuorum

variable (system : WeightedQuorum ν)

def total : Nat := ∑ member ∈ system.members, system.weight member

def IsQuorum (quorum : Finset ν) : Prop := quorum ⊆ system.members ∧
    system.threshold ≤ ∑ member ∈ quorum, system.weight member

/-- Two quorums share a member that is not faulty. -/
theorem exists_common {first second : Finset ν} (firstQuorum : system.IsQuorum first)
    (secondQuorum : system.IsQuorum second) :
    ∃ member ∈ first, member ∈ second ∧ member ∉ system.faulty := by
  by_contra none
  have common : first ∩ second ⊆ system.members ∩ system.faulty := by
    intro member inBoth
    obtain ⟨inFirst, inSecond⟩ := mem_inter.mp inBoth
    refine mem_inter.mpr ⟨firstQuorum.1 inFirst, ?_⟩
    by_contra notFaulty
    exact none ⟨member, inFirst, inSecond, notFaulty⟩
  have commonWeight : ∑ member ∈ first ∩ second, system.weight member ≤
      ∑ member ∈ system.members ∩ system.faulty, system.weight member :=
    sum_le_sum_of_subset common
  have unionWeight : ∑ member ∈ first ∪ second, system.weight member ≤ system.total :=
    sum_le_sum_of_subset (union_subset firstQuorum.1 secondQuorum.1)
  have firstWeight : ∑ member ∈ first, system.weight member ≤ system.total :=
    sum_le_sum_of_subset firstQuorum.1
  have inclusionExclusion : (∑ member ∈ first ∪ second, system.weight member) +
        ∑ member ∈ first ∩ second, system.weight member =
      (∑ member ∈ first, system.weight member) + ∑ member ∈ second, system.weight member :=
    sum_union_inter
  have reached := firstQuorum.2
  have reachedToo := secondQuorum.2
  have majority := system.twoThirds
  have bound := system.faultyBound
  unfold total at unionWeight firstWeight
  omega

end WeightedQuorum

end LumioNode.Library
