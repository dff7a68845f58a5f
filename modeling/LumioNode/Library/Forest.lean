import Mathlib.Data.Finset.Card
import LumioNode.Library.Fallible

/-! # Forests and their traversal

Links in which a node has at most one parent, what is cut off when the root moves down,
and the stack loop that collects a tree. -/

namespace LumioNode.Library

open Relation List

section Links

variable {ι : Type} {link : ι → ι → Prop}

/-- Every node has at most one parent. -/
def UniqueParent (link : ι → ι → Prop) : Prop :=
  ∀ first second child, link first child → link second child → first = second

/-- Some rank grows along every link. -/
def Ranked (rank : ι → Nat) (link : ι → ι → Prop) : Prop :=
  ∀ parent child, link parent child → rank parent < rank child

def Avoiding (link : ι → ι → Prop) (avoided parent child : ι) : Prop :=
  link parent child ∧ child ≠ avoided

variable {rank : ι → Nat} {root node child : ι}

theorem Ranked.le (ranked : Ranked rank link)
    (reaches : ReflTransGen link root node) : rank root ≤ rank node := by
  induction reaches with
  | refl => exact le_refl _
  | tail _ isLink =>
    have grows := ranked _ _ isLink
    omega

theorem Ranked.lt (ranked : Ranked rank link) (reaches : ReflTransGen link root node)
    (different : root ≠ node) : rank root < rank node := by
  rcases ReflTransGen.cases_tail reaches with same | ⟨last, before, isLink⟩
  · exact absurd same.symm different
  · have atMost := ranked.le before
    have grows := ranked _ _ isLink
    omega

theorem UniqueParent.reaches_parent (unique : UniqueParent link)
    (reaches : ReflTransGen link root child) (different : child ≠ root)
    (isLink : link node child) : ReflTransGen link root node := by
  rcases ReflTransGen.cases_tail reaches with same | ⟨last, before, lastLink⟩
  · exact absurd same different
  · rw [unique node last child isLink lastLink]
    exact before

/-- When the root moves to `avoided`, a node is cut off or below it. -/
theorem avoiding_or_below (avoided : ι) (reaches : ReflTransGen link root node) :
    ReflTransGen (Avoiding link avoided) root node ∨ ReflTransGen link avoided node := by
  induction reaches with
  | refl => exact .inl .refl
  | @tail last node _ isLink inductionHypothesis =>
    rcases inductionHypothesis with cutOff | below
    · by_cases isAvoided : node = avoided
      · subst isAvoided
        exact .inr .refl
      · exact .inl (cutOff.tail ⟨isLink, isAvoided⟩)
    · exact .inr (below.tail isLink)

theorem not_below_of_avoiding (unique : UniqueParent link) (ranked : Ranked rank link) {avoided : ι}
    (isBelow : ReflTransGen link root avoided) (moved : root ≠ avoided)
    (cutOff : ReflTransGen (Avoiding link avoided) root node) :
    ¬ ReflTransGen link avoided node := by
  induction cutOff with
  | refl =>
    intro below
    have grows := ranked.lt isBelow moved
    have atMost := ranked.le below
    omega
  | @tail last node _ isLink inductionHypothesis =>
    intro below
    exact inductionHypothesis (unique.reaches_parent below isLink.2 isLink.1)

theorem UniqueParent.total (unique : UniqueParent link) {first second : ι}
    (firstAbove : ReflTransGen link first node) (secondAbove : ReflTransGen link second node) :
    ReflTransGen link first second ∨ ReflTransGen link second first := by
  have rightUnique : Relator.RightUnique (Function.swap link) :=
    fun child parent other isLink otherLink =>
      unique parent other child isLink otherLink
  have total := ReflTransGen.total_of_right_unique rightUnique firstAbove.swap secondAbove.swap
  rcases total with reaches | reaches
  · exact .inr reaches.swap
  · exact .inl reaches.swap

end Links

section Traverse

variable {ε ι : Type}

/-- Take a node from the stack and push its expansion, until the stack is empty. -/
def traverse (outOfFuel : ε) (expand : ι → Except ε (List ι)) : Nat → List ι → Except ε (List ι)
  | _, [] => .ok []
  | 0, _ :: _ => .error outOfFuel
  | fuel + 1, node :: stack => do
      let pushed ← expand node
      let rest ← traverse outOfFuel expand fuel (pushed.reverse ++ stack)
      return node :: rest

def ExpandsTo (expand : ι → Except ε (List ι)) (node child : ι) : Prop :=
  ∃ pushed, expand node = .ok pushed ∧ child ∈ pushed

variable {outOfFuel : ε} {expand : ι → Except ε (List ι)} {fuel : Nat}
  {stack out : List ι} {node : ι}

theorem mem_traverse (traversed : traverse outOfFuel expand fuel stack = .ok out) : node ∈ out ↔
    ∃ start ∈ stack, ReflTransGen (ExpandsTo expand) start node := by
  fun_induction traverse outOfFuel expand fuel stack generalizing out with
  | case1 =>
    cases traversed
    simp
  | case2 => cases traversed
  | case3 fuel top stack inductionHypothesis =>
    obtain ⟨pushed, expanded, traversed⟩ := of_bind traversed
    obtain ⟨rest, restTraversed, isOut⟩ := of_bind traversed
    cases isOut
    rw [mem_cons, inductionHypothesis pushed restTraversed]
    constructor
    · rintro (rfl | ⟨start, member, reaches⟩)
      · exact ⟨node, mem_cons_self, .refl⟩
      · rcases mem_append.mp member with isPushed | inStack
        · exact ⟨top, mem_cons_self, .head
            ⟨pushed, expanded, mem_reverse.mp isPushed⟩ reaches⟩
        · exact ⟨start, mem_cons_of_mem _ inStack, reaches⟩
    · intro ⟨start, member, reaches⟩
      rcases mem_cons.mp member with rfl | inStack
      · rcases ReflTransGen.cases_head reaches with
          same | ⟨child, ⟨others, isOk, isChild⟩, below⟩
        · exact .inl same.symm
        · rw [expanded] at isOk
          cases isOk
          exact .inr ⟨child, mem_append_left _ (mem_reverse.mpr isChild), below⟩
      · exact .inr ⟨start, mem_append_right _ inStack, reaches⟩

theorem parent_before_of_traverse (traversed : traverse outOfFuel expand fuel stack = .ok out)
    {before after : List ι} (split : out = before ++ node :: after) :
    node ∈ stack ∨ ∃ parent ∈ before, ExpandsTo expand parent node := by
  fun_induction traverse outOfFuel expand fuel stack generalizing out before with
  | case1 =>
    cases traversed
    simp at split
  | case2 => cases traversed
  | case3 fuel top stack inductionHypothesis =>
    obtain ⟨pushed, expanded, traversed⟩ := of_bind traversed
    obtain ⟨rest, restTraversed, isOut⟩ := of_bind traversed
    cases isOut
    cases before with
    | nil =>
      cases split
      exact .inl mem_cons_self
    | cons first before =>
      injection split with isTop isRest
      subst isTop
      rcases inductionHypothesis pushed restTraversed isRest with
        onStack | ⟨parent, isBefore, expands⟩
      · rcases mem_append.mp onStack with isPushed | inStack
        · exact .inr ⟨top, mem_cons_self, pushed, expanded, mem_reverse.mp isPushed⟩
        · exact .inl (mem_cons_of_mem _ inStack)
      · exact .inr ⟨parent, mem_cons_of_mem _ isBefore, expands⟩

/-- The stack holds roots of different trees. -/
structure Apart (link : ι → ι → Prop) (stack : List ι) : Prop where
  nodup : stack.Nodup
  alone : ∀ first ∈ stack, ∀ second ∈ stack, ReflTransGen link first second → first = second

variable {rank : ι → Nat}

theorem Apart.taken_not_below (ranked : Ranked rank (ExpandsTo expand))
    (apart : Apart (ExpandsTo expand) (node :: stack)) {pushed : List ι}
    (expanded : expand node = .ok pushed) {start : ι} (member : start ∈ pushed.reverse ++ stack) :
    ¬ ReflTransGen (ExpandsTo expand) start node := by
  intro reaches
  rcases mem_append.mp member with isPushed | inStack
  · have grows := ranked node start ⟨pushed, expanded, mem_reverse.mp isPushed⟩
    have atMost := ranked.le reaches
    omega
  · have same := apart.alone start (mem_cons_of_mem _ inStack) node mem_cons_self reaches
    subst same
    exact (nodup_cons.mp apart.nodup).1 inStack

theorem Apart.replace_root (unique : UniqueParent (ExpandsTo expand))
    (ranked : Ranked rank (ExpandsTo expand)) (apart : Apart (ExpandsTo expand) (node :: stack))
    {pushed : List ι} (expanded : expand node = .ok pushed) (pushedNodup : pushed.Nodup) :
    Apart (ExpandsTo expand) (pushed.reverse ++ stack) := by
  have isChild : ∀ child ∈ pushed.reverse, ExpandsTo expand node child :=
    fun child member => ⟨pushed, expanded, mem_reverse.mp member⟩
  obtain ⟨notInStack, stackNodup⟩ := nodup_cons.mp apart.nodup
  have notBelow : ∀ other ∈ stack, ¬ ReflTransGen (ExpandsTo expand) node other := by
    intro other member reaches
    have same := apart.alone node mem_cons_self other (mem_cons_of_mem _ member) reaches
    exact notInStack (same ▸ member)
  constructor
  · refine nodup_append.mpr ⟨nodup_reverse.mpr pushedNodup, stackNodup, ?_⟩
    intro child childMember other otherMember same
    subst same
    exact notBelow child otherMember (.single (isChild child childMember))
  · intro first firstMember second secondMember reaches
    rcases mem_append.mp secondMember with isPushed | inStack
    · by_cases same : second = first
      · exact same.symm
      · have above := unique.reaches_parent reaches same (isChild second isPushed)
        exact absurd above (apart.taken_not_below ranked expanded firstMember)
    · rcases mem_append.mp firstMember with isPushed | firstInStack
      · exact absurd (ReflTransGen.head (isChild first isPushed) reaches) (notBelow second inStack)
      · exact apart.alone first (mem_cons_of_mem _ firstInStack)
          second (mem_cons_of_mem _ inStack) reaches

section

variable (unique : UniqueParent (ExpandsTo expand)) (ranked : Ranked rank (ExpandsTo expand))
  (pushedNodup : ∀ node pushed, expand node = .ok pushed → pushed.Nodup)
  (apart : Apart (ExpandsTo expand) stack)

include unique ranked pushedNodup apart

/-- In a forest no node is taken twice. -/
theorem traverse_nodup (traversed : traverse outOfFuel expand fuel stack = .ok out) :
    out.Nodup := by
  fun_induction traverse outOfFuel expand fuel stack generalizing out with
  | case1 =>
    cases traversed
    exact nodup_nil
  | case2 => cases traversed
  | case3 fuel top stack inductionHypothesis =>
    obtain ⟨pushed, expanded, traversed⟩ := of_bind traversed
    obtain ⟨rest, restTraversed, isOut⟩ := of_bind traversed
    cases isOut
    have restApart := apart.replace_root unique ranked expanded (pushedNodup top pushed expanded)
    refine nodup_cons.mpr ⟨?_, inductionHypothesis pushed restApart restTraversed⟩
    intro again
    obtain ⟨start, member, reaches⟩ := (mem_traverse restTraversed).mp again
    exact apart.taken_not_below ranked expanded member reaches

/-- In a forest the loop ends after as many rounds as there are nodes. -/
theorem traverse_ok [DecidableEq ι] (nodes : Finset ι)
    (bounded : ∀ start ∈ stack, ∀ node, ReflTransGen (ExpandsTo expand) start node → node ∈ nodes)
    (expands : ∀ start ∈ stack, ∀ node, ReflTransGen (ExpandsTo expand) start node → ∃ pushed,
      expand node = .ok pushed) (enough : nodes.card ≤ fuel) :
    ∃ out, traverse outOfFuel expand fuel stack = .ok out := by
  fun_induction traverse outOfFuel expand fuel stack generalizing nodes with
  | case1 => exact ⟨[], rfl⟩
  | case2 top =>
    have isNode := bounded top mem_cons_self top .refl
    have positive := Finset.card_pos.mpr ⟨top, isNode⟩
    omega
  | case3 fuel top stack inductionHypothesis =>
    obtain ⟨pushed, expanded⟩ := expands top mem_cons_self top .refl
    have isNode := bounded top mem_cons_self top .refl
    have fromTop : ∀ start ∈ pushed.reverse ++ stack, ∀ node,
        ReflTransGen (ExpandsTo expand) start node → ∃ origin ∈ top :: stack,
            ReflTransGen (ExpandsTo expand) origin node := by
      intro start member node reaches
      rcases mem_append.mp member with isPushed | inStack
      · exact ⟨top, mem_cons_self, .head
          ⟨pushed, expanded, mem_reverse.mp isPushed⟩ reaches⟩
      · exact ⟨start, mem_cons_of_mem _ inStack, reaches⟩
    obtain ⟨rest, restOk⟩ := inductionHypothesis pushed (apart.replace_root unique ranked expanded
        (pushedNodup top pushed expanded))
      (nodes.erase top) (by
        intro start member node reaches
        obtain ⟨origin, isOrigin, below⟩ := fromTop start member node reaches
        refine Finset.mem_erase.mpr ⟨?_, bounded origin isOrigin node below⟩
        intro same
        subst same
        exact apart.taken_not_below ranked expanded member reaches)
      (by
        intro start member node reaches
        obtain ⟨origin, isOrigin, below⟩ := fromTop start member node reaches
        exact expands origin isOrigin node below)
      (by
        rw [Finset.card_erase_of_mem isNode]
        omega)
    exact ⟨top :: rest, by rw [expanded, ok_bind, restOk]; rfl⟩

end

end Traverse

end LumioNode.Library
