import LumioNode.Dag.Cluster

/-! # Strong votes

The store finds a parent by round and author and adds the power for every occurrence, so
it is backed only while nodes name distinct parents by their true digests. -/

namespace LumioNode.Dag

open Library List Function Option Finset ValidatorVerifier

namespace NodeStatus

variable {B : Type}

theorem asNode_iterate_addVote (votingPower : Nat) (updateLinkPower : Bool)
    (times : Nat) (status : NodeStatus B) :
    ((addVote votingPower updateLinkPower)^[times] status).asNode =
      status.asNode := by
  induction times with
  | zero => rfl
  | succ times inductionHypothesis =>
    rw [iterate_succ_apply', asNode_addVote, inductionHypothesis]

theorem iterate_addVote_unordered (votingPower times weak strong : Nat) (node : CertifiedNode B) :
    (addVote votingPower true)^[times] (.unordered node weak strong) =
      .unordered node weak (strong + times * votingPower) := by
  induction times with
  | zero => simp
  | succ times inductionHypothesis =>
    rw [iterate_succ_apply', inductionHypothesis, Nat.succ_mul, ← Nat.add_assoc]
    rfl

theorem iterate_addVote_ordered (votingPower times : Nat)
    (updateLinkPower : Bool) (node : CertifiedNode B) :
    (addVote votingPower updateLinkPower)^[times] (.ordered node) = .ordered node := by
  induction times with
  | zero => rfl
  | succ times inductionHypothesis =>
    rw [iterate_succ_apply', inductionHypothesis]
    rfl

theorem strong_of_iterate_weak {votingPower times weak strong : Nat}
    {status : NodeStatus B} {node : CertifiedNode B}
    (isStatus : (addVote votingPower false)^[times] status = .unordered node weak strong) :
    ∃ before, status = .unordered node before strong := by
  induction times generalizing status with
  | zero => exact ⟨weak, isStatus⟩
  | succ times inductionHypothesis =>
    obtain ⟨middle, isMiddle⟩ := inductionHypothesis isStatus
    cases status with
    | unordered stored before =>
      cases isMiddle
      exact ⟨before, rfl⟩
    | ordered => cases isMiddle

end NodeStatus

open NodeStatus

namespace InMemDag

variable {B : Type}

def names (dag : InMemDag B) (round : Nat) (digest : HashValue) (author : Author) : Bool :=
  (dag.getNodeRef round author).any fun status =>
    status.asNode.parentsMetadata.any fun parent =>
      decide (parent.digest = digest)

/-- The distinct authors of stored nodes of a round that name a digest. -/
def namers (dag : InMemDag B) (round : Nat) (digest : HashValue) : Finset Author :=
  dag.verifier.members.filter fun author => dag.names round digest author

/-- Nodes are stored in their places, with at most the strong voting power of the authors that
name their digests. -/
structure Backed (dag : InMemDag B) : Prop where
  slots : ∀ round author status, dag.getNodeRef round author = some status →
    status.asNode.round = round ∧ status.asNode.author = author
  strong_le : ∀ round author node weak strong,
    dag.getNodeRef round author = some (.unordered node weak strong) →
      strong ≤ ∑ voter ∈ dag.namers (round + 1) node.digest, dag.verifier.power voter

/-- The parents have distinct authors and the digests of the nodes stored in their places. -/
def WellNamed (dag : InMemDag B) (node : Node B) : Prop := dag.lowestRound < node.round →
    (node.parentsMetadata.map NodeMetadata.author).Nodup ∧ ∀ parent ∈ node.parentsMetadata,
        (dag.getNodeRefByMetadata parent).all (fun status =>
          decide (status.asNode.digest = parent.digest)) = true

instance (dag : InMemDag B) (node : Node B) : Decidable (dag.WellNamed node) :=
  inferInstanceAs (Decidable (_ → _))

section Names

variable {dag after : InMemDag B} {round : Nat} {digest : HashValue} {author : Author}

theorem mem_members_of_getNodeRef {status : NodeStatus B}
    (isStored : dag.getNodeRef round author = some status) : author ∈ dag.verifier.members := by
  obtain ⟨index, nodes, isSlot, _⟩ := slot_of_getNodeRef isStored
  have isAddress := address_of_index (slot_eq_some.mp isSlot).1
  obtain ⟨info, isInfo, sameAddress⟩ := map_eq_some_iff.mp isAddress
  exact mem_members.mpr ⟨info, mem_of_getElem? isInfo, sameAddress⟩

theorem names_eq_true : dag.names round digest author = true ↔
    ∃ status, dag.getNodeRef round author = some status ∧
      ∃ parent ∈ status.asNode.parentsMetadata, parent.digest = digest := by
  simp [names, Option.any_eq_true]

theorem mem_namers : author ∈ dag.namers round digest ↔ dag.names round digest author = true := by
  refine ⟨fun isNamer => (Finset.mem_filter.mp isNamer).2, ?_⟩
  intro isNamed
  obtain ⟨status, isStored, _⟩ := names_eq_true.mp isNamed
  exact Finset.mem_filter.mpr ⟨mem_members_of_getNodeRef isStored, isNamed⟩

theorem namers_subset (keeps : ∀ voter status, dag.getNodeRef round voter = some status →
      ∃ other, after.getNodeRef round voter = some other ∧ other.asNode = status.asNode) :
    dag.namers round digest ⊆ after.namers round digest := by
  intro voter isNamer
  obtain ⟨status, isStored, parent, isParent, isDigest⟩ := names_eq_true.mp (mem_namers.mp isNamer)
  obtain ⟨other, isOther, sameNode⟩ := keeps voter status isStored
  refine mem_namers.mpr (names_eq_true.mpr ⟨other, isOther, parent, ?_, isDigest⟩)
  rw [sameNode]
  exact isParent

variable {parents : List NodeMetadata}

theorem timesNamed_le_one (nodup : (parents.map NodeMetadata.author).Nodup) (round : Nat)
    (author : Author) : timesNamed parents round author ≤ 1 := by
  have atMost : timesNamed parents round author ≤
      (parents.map NodeMetadata.author).count author := by
    rw [List.count, countP_map]
    refine countP_mono_left ?_
    intro parent _ isNamed
    simp only [decide_eq_true_eq] at isNamed
    simp [isNamed.2]
  exact atMost.trans (nodup_iff_count_le_one.mp nodup author)

theorem exists_of_timesNamed (isNamed : 0 < timesNamed parents round author) :
    ∃ parent ∈ parents, parent.round = round ∧ parent.author = author := by
  obtain ⟨parent, isParent, isSlot⟩ := countP_pos_iff.mp isNamed
  exact ⟨parent, isParent, of_decide_eq_true isSlot⟩

end Names

section Calls

variable {dag after : InMemDag B} {node : CertifiedNode B}

/-- Calls that add no strong votes and drop no node above one that is kept. -/
theorem Backed.transfer
    (backed : dag.Backed)
    (sameVerifier : after.verifier = dag.verifier)
    (stored : ∀ round author status, after.getNodeRef round author = some status →
      ∃ before, dag.getNodeRef round author = some before ∧
        before.asNode = status.asNode ∧
        ∀ node weak strong, status = .unordered node weak strong →
          ∃ old, before = .unordered node old strong)
    (keeps : ∀ round author status, after.getNodeRef round author = some status →
      ∀ voter before, dag.getNodeRef (round + 1) voter = some before →
        ∃ other, after.getNodeRef (round + 1) voter = some other ∧
          other.asNode = before.asNode) :
    after.Backed where
  slots := by
    intro round author status isStored
    obtain ⟨before, wasStored, sameNode, _⟩ := stored round author status isStored
    rw [← sameNode]
    exact backed.slots round author before wasStored
  strong_le := by
    intro round author node weak strong isStored
    obtain ⟨before, wasStored, _, sameStrong⟩ := stored round author _ isStored
    obtain ⟨old, rfl⟩ := sameStrong node weak strong rfl
    rw [sameVerifier]
    exact (backed.strong_le round author node old strong wasStored).trans
      (sum_le_sum_of_subset (namers_subset (keeps round author _ isStored)))

theorem newEmpty_backed (epoch : Nat) (verifier : ValidatorVerifier) (startRound windowSize : Nat) :
    (newEmpty epoch verifier startRound windowSize : InMemDag B).Backed := by
  have noNode : ∀ round author,
      (newEmpty epoch verifier startRound windowSize : InMemDag B).getNodeRef
        round author = none := by
    intro round author
    simp only [getNodeRef, newEmpty, SortedMap.get?_empty]
    cases verifier.addressToValidatorIndex author <;> rfl
  refine ⟨?_, ?_⟩
  · intro round author status isStored
    rw [noNode] at isStored
    cases isStored
  · intro round author node weak strong isStored
    rw [noNode] at isStored
    cases isStored

theorem Backed.updateVotes_weak (backed : dag.Backed) {node : Node B}
    (voted : dag.updateVotes node false = .ok after) : after.Backed := by
  rcases updateVotes_addsVotes voted with ⟨_, rfl⟩ | ⟨_, power, _, votes⟩
  · exact backed
  · refine backed.transfer votes.verifier ?_ ?_
    · intro round author status isStored
      rw [votes.statuses] at isStored
      obtain ⟨before, wasStored, rfl⟩ := map_eq_some_iff.mp isStored
      refine ⟨before, wasStored, (asNode_iterate_addVote _ _ _ _).symm, ?_⟩
      intro stored weak strong isStatus
      exact strong_of_iterate_weak isStatus
    · intro round author status _ voter before wasStored
      rw [votes.statuses, wasStored]
      exact ⟨_, rfl, asNode_iterate_addVote _ _ _ _⟩

variable {round : Nat} {author : Author}

theorem Backed.markAsOrdered (backed : dag.Backed)
    (marked : dag.markAsOrdered round author = .ok after) : after.Backed := by
  obtain ⟨index, nodes, status, isSlot, isStatus, rfl⟩ := markAsOrdered_eq_ok marked
  have wasStored : dag.getNodeRef round author = some status := by
    rw [getNodeRef_of_slot isSlot, isStatus]
  refine backed.transfer rfl ?_ ?_
  · intro otherRound other found isStored
    rw [getNodeRef_setSlot isSlot] at isStored
    split at isStored
    · rename_i isMarked
      obtain ⟨rfl, rfl⟩ := isMarked
      cases isStored
      refine ⟨status, wasStored, rfl, ?_⟩
      intro _ _ _ isUnordered
      cases isUnordered
    · refine ⟨found, isStored, rfl, ?_⟩
      intro node weak strong isFound
      exact ⟨weak, isFound⟩
  · intro otherRound _ _ _ voter before otherStored
    rw [getNodeRef_setSlot isSlot]
    split
    · rename_i isMarked
      obtain ⟨sameRound, rfl⟩ := isMarked
      rw [sameRound, wasStored] at otherStored
      cases otherStored
      exact ⟨_, rfl, rfl⟩
    · exact ⟨before, otherStored, rfl⟩

theorem Backed.withRound (backed : dag.Backed) (newRound : Nat) :
    (dag.withRound newRound).Backed := by
  refine backed.transfer rfl ?_ ?_
  · intro round author status isStored
    rw [getNodeRef_withRound] at isStored
    exact ⟨status, isStored, rfl, fun _ weak _ isStatus => ⟨weak, isStatus⟩⟩
  · intro round _ _ _ voter before wasStored
    rw [getNodeRef_withRound]
    exact ⟨before, wasStored, rfl⟩

theorem Backed.prune (backed : dag.Backed) (newStartRound : Nat) :
    (dag.prune newStartRound).Backed := by
  refine backed.transfer rfl ?_ ?_
  · intro round author status isStored
    exact ⟨status, (getNodeRef_of_prune isStored).2, rfl, fun _ weak _ isStatus => ⟨weak, isStatus⟩⟩
  · intro round author status isStored voter before wasStored
    have isKept := (getNodeRef_of_prune isStored).1
    rw [getNodeRef_prune dag (by omega)]
    exact ⟨before, wasStored, rfl⟩

/-- How often the new node votes for a slot. -/
def votesOf (dag : InMemDag B) (node : Node B) (round : Nat) (author : Author) : Nat :=
  if dag.lowestRound < node.round then
    timesNamed node.parentsMetadata round author
  else 0

theorem WellNamed.exists_parent {node : Node B} (wellNamed : dag.WellNamed node)
    {status : NodeStatus B} (isStored : dag.getNodeRef round author = some status)
    (isVoted : 0 < dag.votesOf node round author) :
    ∃ parent ∈ node.parentsMetadata, parent.round = round ∧
      parent.digest = status.asNode.digest := by
  unfold votesOf at isVoted
  split at isVoted
  · rename_i isHigh
    obtain ⟨parent, isParent, rfl, rfl⟩ := exists_of_timesNamed isVoted
    have isDigest := (wellNamed isHigh).2 parent isParent
    rw [getNodeRefByMetadata, isStored] at isDigest
    exact ⟨parent, isParent, rfl, (of_decide_eq_true isDigest).symm⟩
  · cases isVoted

section

variable (added : dag.addValidatedNode node = .ok after)

include added

/-- The node takes a free slot, and its author's power is added whenever it names a slot. -/
theorem addValidatedNode_spec :
    dag.getNodeRef node.round node.author = none ∧ after.verifier = dag.verifier ∧
      ∀ round author, after.getNodeRef round author =
        (if round = node.round ∧ author = node.author then
            some (.unordered node 0 0)
          else dag.getNodeRef round author).map
          ((addVote (dag.verifier.power node.author) true)^[
            dag.votesOf node.toNode round author]) := by
  obtain ⟨index, nodes, isSlot, isFree, voted⟩ := addValidatedNode_eq_ok added
  refine ⟨by rw [getNodeRef_of_slot isSlot, isFree], ?_⟩
  rcases updateVotes_addsVotes voted with
    ⟨isLow, rfl⟩ | ⟨isHigh, power, isPower, votes⟩
  · refine ⟨rfl, ?_⟩
    intro round author
    have noVotes : dag.votesOf node.toNode round author = 0 := if_neg (Nat.not_lt.mpr isLow)
    rw [getNodeRef_setSlot isSlot, noVotes]
    exact Option.map_id.symm ▸ rfl
  · refine ⟨votes.verifier, ?_⟩
    intro round author
    have isVotes : dag.votesOf node.toNode round author =
        timesNamed node.parentsMetadata round author := if_pos isHigh
    have isAuthor : dag.verifier.power node.author = power := by
      rw [ValidatorVerifier.power]
      exact (congrArg (·.getD 0) isPower)
    rw [votes.statuses, getNodeRef_setSlot isSlot, isVotes, isAuthor]

/-- A well named node adds its author's power at most once, to nodes it names by digest. -/
theorem WellNamed.addValidatedNode_strong {stored : CertifiedNode B}
    (wellNamed : dag.WellNamed node.toNode) {weak strong : Nat}
    (isStored : dag.getNodeRef round author = some (.unordered stored weak strong)) :
    ∃ raised, after.getNodeRef round author = some (.unordered stored weak raised) ∧
      (raised = strong ∨ (raised = strong + dag.verifier.power node.author ∧
          ∃ parent ∈ node.parentsMetadata, parent.round = round ∧
            parent.digest = stored.digest)) := by
  obtain ⟨isFree, _, statuses⟩ := addValidatedNode_spec added
  have isOther : ¬(round = node.round ∧ author = node.author) := by
    rintro ⟨rfl, rfl⟩
    rw [isFree] at isStored
    cases isStored
  refine ⟨strong + dag.votesOf node.toNode round author * dag.verifier.power node.author, ?_, ?_⟩
  · rw [statuses, if_neg isOther, isStored, map_some, iterate_addVote_unordered]
  · have atMost : dag.votesOf node.toNode round author ≤ 1 := by
      unfold votesOf
      split
      · rename_i isHigh
        exact timesNamed_le_one (wellNamed isHigh).1 round author
      · exact Nat.zero_le 1
    rcases Nat.le_one_iff_eq_zero_or_eq_one.mp atMost with isZero | isOne
    · exact .inl (by rw [isZero, Nat.zero_mul, Nat.add_zero])
    · refine .inr ⟨by rw [isOne, Nat.one_mul], ?_⟩
      exact wellNamed.exists_parent isStored (by omega)

theorem addValidatedNode_keeps {voter : Author} {before : NodeStatus B}
    (wasStored : dag.getNodeRef round voter = some before) :
    ∃ other, after.getNodeRef round voter = some other ∧ other.asNode = before.asNode := by
  obtain ⟨isFree, _, statuses⟩ := addValidatedNode_spec added
  have isOther : ¬(round = node.round ∧ voter = node.author) := by
    rintro ⟨rfl, rfl⟩
    rw [isFree] at wasStored
    cases wasStored
  rw [statuses, if_neg isOther, wasStored]
  exact ⟨_, rfl, asNode_iterate_addVote _ _ _ _⟩

theorem insert_namers_subset {digest : HashValue} {parent : NodeMetadata}
    (isParent : parent ∈ node.parentsMetadata) (isDigest : parent.digest = digest) :
    node.author ∉ dag.namers node.round digest ∧ insert node.author (dag.namers node.round digest) ⊆
        after.namers node.round digest := by
  obtain ⟨isFree, _, statuses⟩ := addValidatedNode_spec added
  refine ⟨?_, ?_⟩
  · intro isNamer
    obtain ⟨status, isStored, _⟩ := names_eq_true.mp (mem_namers.mp isNamer)
    rw [isFree] at isStored
    cases isStored
  · refine insert_subset ?_ (namers_subset fun voter status => addValidatedNode_keeps added)
    refine mem_namers.mpr (names_eq_true.mpr ⟨_, statuses _ _ |>.trans
      (by rw [if_pos ⟨rfl, rfl⟩, map_some]), parent, ?_, isDigest⟩)
    rw [asNode_iterate_addVote]
    exact isParent

theorem Backed.addValidatedNode (backed : dag.Backed)
    (wellNamed : dag.WellNamed node.toNode)
    (rounds : ∀ parent ∈ node.parentsMetadata, parent.round + 1 = node.round) :
    after.Backed := by
  obtain ⟨isFree, sameVerifier, statuses⟩ := addValidatedNode_spec added
  refine ⟨?_, ?_⟩
  · intro round author status isStored
    rw [statuses] at isStored
    obtain ⟨before, isBefore, rfl⟩ := map_eq_some_iff.mp isStored
    rw [asNode_iterate_addVote]
    split at isBefore
    · rename_i isNew
      cases isBefore
      exact ⟨isNew.1.symm, isNew.2.symm⟩
    · exact backed.slots round author before isBefore
  · intro round author stored weak strong isStored
    rw [sameVerifier]
    by_cases isNew : round = node.round ∧ author = node.author
    · obtain ⟨rfl, rfl⟩ := isNew
      have noVotes : dag.votesOf node.toNode node.round node.author = 0 := by
        by_contra isVoted
        unfold votesOf at isVoted
        split at isVoted
        · obtain ⟨parent, isParent, sameRound, _⟩ :=
            exists_of_timesNamed (Nat.pos_of_ne_zero isVoted)
          have isPrevious := rounds parent isParent
          omega
        · exact isVoted rfl
      rw [statuses, if_pos ⟨rfl, rfl⟩, noVotes] at isStored
      cases isStored
      exact Nat.zero_le _
    · have wasStored := statuses round author
      rw [isStored, if_neg isNew] at wasStored
      obtain ⟨before, isBefore, isStatus⟩ := map_eq_some_iff.mp wasStored.symm
      cases before with
      | ordered =>
        rw [iterate_addVote_ordered] at isStatus
        cases isStatus
      | unordered other oldWeak oldStrong =>
        have old := backed.strong_le round author other oldWeak oldStrong isBefore
        obtain ⟨raised, isRaised, change⟩ := wellNamed.addValidatedNode_strong added isBefore
        rw [isStored] at isRaised
        cases isRaised
        rcases change with rfl | ⟨rfl, parent, isParent, rfl, isDigest⟩
        · exact old.trans (sum_le_sum_of_subset
            (namers_subset fun voter status => addValidatedNode_keeps added))
        · rw [rounds parent isParent] at old ⊢
          obtain ⟨isNewNamer, areNamers⟩ := insert_namers_subset added isParent isDigest
          have total := sum_le_sum_of_subset areNamers (f := dag.verifier.power)
          rw [sum_insert isNewNamer] at total
          exact (Nat.add_le_add_right old _).trans ((Nat.add_comm _ _).le.trans total)

end

end Calls

end InMemDag

namespace Committee

variable {B : Type} {committee : Committee B} {cluster after : Cluster B} {moves : List (Move B)}

/-- The nodes that are added name distinct parents by their digests. -/
def AddsWellNamed (cluster : Cluster B) (move : Move B) : Prop :=
  ∀ added ∈ move.added, (cluster added.1).dag.WellNamed added.2.toNode

instance (cluster : Cluster B) (move : Move B) : Decidable (AddsWellNamed cluster move) :=
  inferInstanceAs (Decidable (∀ added ∈ _, _))

/-- Every vote has been vouched for, and every strong vote is backed. -/
structure Sound (committee : Committee B) (moves : List (Move B)) (cluster : Cluster B) : Prop where
  vouches : ∀ author, (cluster author).Vouches (committee.Signable moves author)
  backed : ∀ author, (cluster author).dag.Backed

theorem initial_sound (startRound windowSize : Nat) :
    committee.Sound moves (committee.initial startRound windowSize) where
  vouches := initial_vouches startRound windowSize
  backed := fun _ => InMemDag.newEmpty_backed _ _ _ _

theorem Sound.callStore_backed (sound : committee.Sound moves cluster)
    (collisionFree : committee.CollisionFree moves) {author : Author} {call : StoreCall B}
    {dag : InMemDag B} (honest : committee.Honest author)
    (isMove : .handle author (.callStore call) ∈ moves)
    (isAdmitted : committee.admits (.callStore call) = true)
    (unforgeable : committee.Unforgeable cluster (.handle author (.callStore call)))
    (wellNamed : AddsWellNamed cluster (.handle author (.callStore call)))
    (performed : (cluster author).dag.perform call = .ok dag) : dag.Backed := by
  have backed := sound.backed author
  cases call with
  | validateNewNode node =>
    rw [InMemDag.validateNewNode_eq_ok performed]
    exact backed.withRound node.round
  | addValidatedNode node =>
    refine backed.addValidatedNode performed (wellNamed (author, node) rfl) ?_
    intro parent isParent
    exact round_of_added collisionFree isMove honest
      (of_decide_eq_true isAdmitted) unforgeable sound.vouches isParent
  | voteWeakly => exact backed.updateVotes_weak performed
  | markAsOrdered => exact backed.markAsOrdered performed
  | commitCallback commitRound =>
    cases performed
    rcases InMemDag.commitCallback_cases (cluster author).dag commitRound
      with isSame | ⟨newStartRound, _, isPruned⟩
    · rw [isSame]
      exact backed
    · rw [isPruned]
      exact backed.prune newStartRound

theorem Sound.step (sound : committee.Sound moves cluster)
    (collisionFree : committee.CollisionFree moves) {move : Move B} (isMove : move ∈ moves)
    (unforgeable : committee.Unforgeable cluster move) (wellNamed : AddsWellNamed cluster move)
    (performed : committee.step cluster move = .ok after) : committee.Sound moves after := by
  refine ⟨step_vouches sound.vouches isMove performed, ?_⟩
  obtain ⟨actor, handler, honest, rfl, handled⟩ := step_eq_ok performed
  intro author
  by_cases isActor : author = actor
  · subst isActor
    rw [update_self]
    rcases handled with
      ⟨action, rfl, isAdmitted, handled⟩ | ⟨startRound, windowSize, _, handled⟩
    · rcases Handler.dag_perform handled with
        isSame | ⟨node, voted⟩ | ⟨call, rfl, stored⟩ | ⟨dag, rfl, _⟩
      · rw [isSame]
        exact sound.backed author
      · exact (sound.backed author).updateVotes_weak voted
      · exact sound.callStore_backed collisionFree honest isMove isAdmitted
          unforgeable wellNamed stored
      · cases isAdmitted
    · simp only [Handler.restart, bind_eq_ok] at handled
      obtain ⟨_, _, changed⟩ := handled
      cases changed
      exact InMemDag.newEmpty_backed _ _ _ _
  · rw [update_of_ne isActor]
    exact sound.backed author

/-- Strong votes are not forged while nodes name distinct parents by their digests: what is
counted is at most the power of the distinct authors that name the digest, and a node adds its
author's power at most once, to nodes it names. -/
theorem strong_votes_backed {startRound windowSize : Nat}
    (collisionFree : committee.CollisionFree moves)
    (meets : RunMeets committee.step (fun cluster move => committee.Unforgeable cluster move ∧
      AddsWellNamed cluster move) (committee.initial startRound windowSize) moves)
    {reached : Cluster B}
    (ran : runAll committee.step (committee.initial startRound windowSize) moves = .ok reached)
    (author : Author) :
    (∀ round voted node weak strong, (reached author).dag.getNodeRef round voted =
          some (.unordered node weak strong) →
        strong ≤ ∑ voter ∈ (reached author).dag.namers (round + 1) node.digest,
            (reached author).dag.verifier.power voter) ∧
    ∀ node after, (reached author).dag.WellNamed node.toNode →
      (reached author).dag.addValidatedNode node = .ok after → ∀ round voted stored weak strong,
          (reached author).dag.getNodeRef round voted = some (.unordered stored weak strong) →
            ∃ raised, after.getNodeRef round voted = some (.unordered stored weak raised) ∧
              (raised = strong ∨ (raised = strong +
                    (reached author).dag.verifier.power node.author ∧
                  ∃ parent ∈ node.parentsMetadata, parent.round = round ∧
                    parent.digest = stored.digest)) := by
  have sound : committee.Sound moves reached := by
    refine meets.invariant_of_ok (initial_sound startRound windowSize) ?_ ran
    intro before move isMove sound holds after performed
    exact sound.step collisionFree isMove holds.1 holds.2 performed
  refine ⟨(sound.backed author).strong_le, ?_⟩
  intro node after wellNamed added round voted stored weak strong isStored
  exact wellNamed.addValidatedNode_strong added isStored

/-- Through restarts and collections, an honest validator returns votes only for nodes that were
sent to it and that it verified. -/
theorem returned_votes_verified {startRound windowSize : Nat} {reached : Cluster B}
    (ran : runAll committee.step (committee.initial startRound windowSize) moves = .ok reached)
    (author : Author) : ∀ vote ∈ (reached author).returned,
      committee.Signable moves author vote.metadata := by
  have vouches := runAll_keeps
    (fun cluster => ∀ author, (cluster author).Vouches (committee.Signable moves author))
    (initial_vouches startRound windowSize)
    (fun _ _ isMove vouches _ performed => step_vouches vouches isMove performed) ran
  exact (vouches author).returned

end Committee

namespace Committee.Toy

open Handler.Toy (node)

/-- An honest validator with three quarters of the power, and a faulty one. -/
def infos : List ValidatorConsensusInfo := [⟨0, [], 3⟩, ⟨1, [], 1⟩]

def committee : Committee Unit where
  infos := infos
  byzantine := {1}
  shared := { Handler.Toy.env with verifier := .new infos }
  signerOf := fun _ => []
  distinct := by decide
  byzantineBound := by decide
  sameVerifier := rfl

def signature : AggregateSignature := ⟨(ValidatorBitVec.withNumBits 2).set 0, some []⟩

def accepts (node : Node Unit) : List (Move Unit) :=
  [.receive 0 node.author node false, .validateNode 0, .lookUpVote 0,
    .saveVote 0 true, .recordVote 0, .countVote 0, .returnVote 0,
    .callStore (.validateNewNode ⟨node, signature⟩),
    .callStore (.addValidatedNode ⟨node, signature⟩)].map (.handle 0)

def first : Node Unit := node 1 0 10 []

def certificate : NodeCertificate := ⟨first.metadata, signature⟩

def misnamed : NodeCertificate := ⟨(node 1 0 11 []).metadata, .empty⟩

/-- The strong power counted for the first node, and that of the authors that name it. -/
def countedAndBacking (cluster : Cluster Unit) : Option (Nat × Nat) :=
  match (cluster 0).dag.getNodeRef 1 0 with
  | some (.unordered node _ strong) =>
    some (strong, ∑ voter ∈ (cluster 0).dag.namers 2 node.digest,
      (cluster 0).dag.verifier.power voter)
  | _ => none

def votesFor (parents : List NodeCertificate) : List (Move Unit) :=
  accepts first ++ accepts (node 2 1 20 parents)

/-- More is counted for the first node than backs it. -/
def OverCounts (parents : List NodeCertificate) : Prop :=
  committee.CollisionFree (votesFor parents) ∧
    RunMeets committee.step committee.Unforgeable (committee.initial 1 1) (votesFor parents) ∧
    ∃ counted backing, (runAll committee.step (committee.initial 1 1)
        (votesFor parents)).map countedAndBacking =
          .ok (some (counted, backing)) ∧ backing < counted

/-- A parent named twice is counted twice; one with a wrong digest counts for the stored node. -/
theorem strong_votes_forged : OverCounts [certificate, certificate] ∧ OverCounts [misnamed] :=
  ⟨⟨by decide +kernel, by decide +kernel, 2, 1, rfl, by decide⟩,
    ⟨by decide +kernel, by decide +kernel, 1, 0, rfl, by decide⟩⟩

theorem one_parent_meets : RunMeets committee.step (fun cluster move =>
        committee.Unforgeable cluster move ∧ AddsWellNamed cluster move)
      (committee.initial 1 1) (votesFor [certificate]) := by
  decide +kernel

/-- With one true parent the vote is backed by its author. -/
theorem one_parent_backed : ∃ reached, runAll committee.step (committee.initial 1 1)
      (votesFor [certificate]) = .ok reached ∧
    ∀ round voted node weak strong, (reached 0).dag.getNodeRef round voted =
          some (.unordered node weak strong) →
        strong ≤ ∑ voter ∈ (reached 0).dag.namers (round + 1) node.digest,
          (reached 0).dag.verifier.power voter :=
  ⟨_, rfl, (strong_votes_backed (by decide +kernel) one_parent_meets rfl 0).1⟩

theorem two_votes_verified : ∃ reached, runAll committee.step (committee.initial 1 1)
      (votesFor [certificate]) = .ok reached ∧ (reached 0).returned.length = 2 ∧
    ∀ vote ∈ (reached 0).returned, committee.Signable (votesFor [certificate]) 0 vote.metadata :=
  ⟨_, rfl, rfl, @returned_votes_verified _ _ _ 1 1 _ rfl 0⟩

end Committee.Toy

end LumioNode.Dag
