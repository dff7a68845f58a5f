import LumioNode.Library.SortedMap
import LumioNode.Types.ValidatorQuorum

/-! # The in-memory DAG

Certified nodes by round and validator index.  An unordered node has strong power from
certified nodes, and weak power from nodes voted for. -/

namespace LumioNode.Dag

open Library List Option ValidatorVerifier

structure NodeId where
  epoch : Nat
  round : Nat
  author : Author
deriving DecidableEq

structure NodeMetadata where
  epoch : Nat
  round : Nat
  author : Author
  timestamp : Nat
  digest : HashValue
deriving DecidableEq

structure NodeCertificate where
  metadata : NodeMetadata
  signatures : AggregateSignature
deriving DecidableEq

structure NodeWithoutDigest (B : Type) where
  epoch : Nat
  round : Nat
  author : Author
  timestamp : Nat
  body : B
  parents : List NodeCertificate
deriving DecidableEq

structure Node (B : Type) where
  metadata : NodeMetadata
  body : B
  parents : List NodeCertificate

structure CertifiedNode (B : Type) extends Node B where
  signatures : AggregateSignature

structure Vote where
  metadata : NodeMetadata
  signature : Signature
deriving DecidableEq

def NodeCertificate.verify (bls : Bls NodeMetadata) (verifier : ValidatorVerifier)
    (certificate : NodeCertificate) : Except VerifyError Unit :=
  verifier.verifyMultiSignatures bls certificate.metadata certificate.signatures

namespace Node

variable {B : Type}

variable (node : Node B)

def epoch : Nat := node.metadata.epoch

def round : Nat := node.metadata.round

def author : Author := node.metadata.author

def digest : HashValue := node.metadata.digest

def id : NodeId := ⟨node.metadata.epoch, node.metadata.round, node.metadata.author⟩

def parentsMetadata : List NodeMetadata := node.parents.map NodeCertificate.metadata

def calculateDigest (hash : NodeWithoutDigest B → HashValue) (node : Node B) : HashValue :=
  hash ⟨node.metadata.epoch, node.metadata.round, node.metadata.author,
    node.metadata.timestamp, node.body, node.parents⟩

/-- `Node::verify`.  The certificates of the parents are not verified here. -/
def verify (hash : NodeWithoutDigest B → HashValue) (node : Node B) (sender : Author)
    (verifier : ValidatorVerifier) : Except Fault Unit := do
  ensure (sender = node.author) (.error "Author doesn't match sender")
  ensure (node.digest = node.calculateDigest hash) (.error "invalid digest")
  ensure (0 < node.round) (.error "current round cannot be zero")
  if node.round = 1 then
    ensure (node.parents = []) (.error "invalid parents for round 1")
  else do
    ensure (∀ parent ∈ node.parents, parent.metadata.round = node.round - 1)
      (.error "invalid parent round")
    let _ ← (verifier.checkVotingPower
      (node.parents.map fun parent => parent.metadata.author) true).mapError
        fun _ => Fault.error "not enough parents to satisfy voting power"
    return ()

theorem round_of_verify {hash : NodeWithoutDigest B → HashValue} {node : Node B} {sender : Author}
    {verifier : ValidatorVerifier} (verified : node.verify hash sender verifier = .ok ())
    {parent : NodeMetadata} (isParent : parent ∈ node.parentsMetadata) :
    parent.round + 1 = node.round := by
  obtain ⟨certificate, inParents, rfl⟩ := List.mem_map.mp isParent
  simp only [verify, bind_eq_ok, ensure_eq_ok] at verified
  obtain ⟨_, _, _, _, _, positive, rest⟩ := verified
  split at rest
  · rw [ensure_eq_ok.mp rest] at inParents
    cases inParents
  · have isPrevious := (of_ensure_bind rest).1 certificate inParents
    omega

end Node

namespace CertifiedNode

variable {B : Type}

def certificate (node : CertifiedNode B) : NodeCertificate := ⟨node.metadata, node.signatures⟩

def verify (hash : NodeWithoutDigest B → HashValue) (bls : Bls NodeMetadata)
    (verifier : ValidatorVerifier) (node : CertifiedNode B) : Except Fault Unit := do
  ensure (node.digest = node.calculateDigest hash) (.error "invalid digest")
  (verifier.verifyMultiSignatures bls node.metadata node.signatures).mapError
    fun failure => .error failure.message

end CertifiedNode

inductive NodeStatus (B : Type) where
  | unordered (node : CertifiedNode B)
      (aggregatedWeakVotingPower aggregatedStrongVotingPower : Nat)
  | ordered (node : CertifiedNode B)

namespace NodeStatus

variable {B : Type}

def asNode : NodeStatus B → CertifiedNode B
  | unordered node _ _ => node
  | ordered node => node

def isUnordered : NodeStatus B → Bool
  | unordered _ _ _ => true
  | ordered _ => false

def addVote (votingPower : Nat) (updateLinkPower : Bool) : NodeStatus B → NodeStatus B
  | unordered node weak strong =>
    if updateLinkPower then unordered node weak (strong + votingPower)
    else unordered node (weak + votingPower) strong
  | ordered node => ordered node

@[simp]
theorem asNode_addVote (votingPower : Nat) (updateLinkPower : Bool) (status : NodeStatus B) :
    (status.addVote votingPower updateLinkPower).asNode = status.asNode := by
  cases status with
  | unordered => cases updateLinkPower <;> rfl
  | ordered => rfl

end NodeStatus

abbrev RoundNodes (B : Type) := Nat → Option (NodeStatus B)

structure InMemDag (B : Type) where
  nodesByRound : SortedMap Nat (RoundNodes B)
  startRound : Nat
  epoch : Nat
  verifier : ValidatorVerifier
  windowSize : Nat

namespace InMemDag

variable {B : Type}

def newEmpty (epoch : Nat) (verifier : ValidatorVerifier)
    (startRound windowSize : Nat) : InMemDag B :=
  ⟨.empty, startRound, epoch, verifier, windowSize⟩

section Reads

variable (dag : InMemDag B)

def lowestRound : Nat := dag.startRound

def highestRound : Nat := max (dag.nodesByRound.lastKey.getD dag.startRound) dag.startRound

def getNodeRef (round : Nat) (author : Author) : Option (NodeStatus B) := do
  let index ← dag.verifier.addressToValidatorIndex author
  let nodes ← dag.nodesByRound.get? round
  nodes index

def getNodeRefByMetadata (metadata : NodeMetadata) : Option (NodeStatus B) :=
  dag.getNodeRef metadata.round metadata.author

/-- A node is looked up by round and author, not by digest. -/
def «exists» (metadata : NodeMetadata) : Bool := (dag.getNodeRefByMetadata metadata).isSome

end Reads

variable (dag : InMemDag B)

/-- The index and the nodes of the round of `get_node_ref_mut`. -/
def slot (round : Nat) (author : Author) : Option (Nat × RoundNodes B) := do
  let index ← dag.verifier.addressToValidatorIndex author
  let nodes ← dag.nodesByRound.get? round
  return (index, nodes)

def setSlot (round index : Nat) (nodes : RoundNodes B)
    (status : NodeStatus B) : InMemDag B :=
  let changed := Function.update nodes index (some status)
  { dag with nodesByRound := dag.nodesByRound.insert round changed }

def voteFor (votingPower : Nat) (updateLinkPower : Bool) (dag : InMemDag B)
    (parent : NodeMetadata) : Except Fault (InMemDag B) := do
  let (index, nodes) ← expect .panic (dag.slot parent.round parent.author)
  let status ← expect .panic (nodes index)
  return dag.setSlot parent.round index nodes (status.addVote votingPower updateLinkPower)

def updateVotes (node : Node B) (updateLinkPower : Bool) :
    Except Fault (InMemDag B) :=
  if node.round ≤ dag.lowestRound then .ok dag
  else do
    let votingPower ← expect .panic (dag.verifier.getVotingPower node.author)
    node.parentsMetadata.foldlM (voteFor votingPower updateLinkPower) dag

def withRound (round : Nat) : InMemDag B :=
  { dag with
    nodesByRound := dag.nodesByRound.orInsert round fun _ => none }

def validateNewNode (node : CertifiedNode B) : Except Fault (InMemDag B) := do
  ensure (node.epoch = dag.epoch) (.error "different epoch")
  let index ← expect (.error "unknown author") (dag.verifier.addressToValidatorIndex node.author)
  ensure (dag.lowestRound ≤ node.round) (.error "round too low")
  ensure (node.round ≤ dag.highestRound + 1) (.error "round too high")
  ensure (dag.lowestRound < node.round → ∀ parent ∈ node.parentsMetadata, dag.exists parent = true)
      (.error "parent not exist")
  let created := dag.withRound node.round
  ensure (((created.nodesByRound.get? node.round).bind (· index)).isNone) (.error "duplicate node")
  return created

def addValidatedNode (node : CertifiedNode B) : Except Fault (InMemDag B) := do
  ensure (dag.lowestRound ≤ node.round) (.error "dag was pruned")
  let (index, nodes) ← expect .panic (dag.slot node.round node.author)
  ensure ((nodes index).isNone) (.error "race during insertion")
  (dag.setSlot node.round index nodes (.unordered node 0 0)).updateVotes node.toNode true

def prune (newStartRound : Nat) : InMemDag B :=
  { dag with
    startRound := newStartRound
    nodesByRound := dag.nodesByRound.atLeast newStartRound }

def commitCallback (commitRound : Nat) : InMemDag B :=
  if dag.startRound < commitRound - 3 * dag.windowSize then
    dag.prune (commitRound - 3 * dag.windowSize)
  else dag

/-- `mark_as_ordered` of a stored node, which must be unordered. -/
def markAsOrdered (round : Nat) (author : Author) :
    Except Fault (InMemDag B) := do
  let (index, nodes) ← expect .panic (dag.slot round author)
  let status ← expect .panic (nodes index)
  ensure (status.isUnordered = true) .panic
  return dag.setSlot round index nodes (.ordered status.asNode)

section Slots

variable {dag : InMemDag B} {round index : Nat} {author : Author} {nodes : RoundNodes B}

theorem slot_eq_some : dag.slot round author = some (index, nodes) ↔
    dag.verifier.addressToValidatorIndex author = some index ∧
      dag.nodesByRound.get? round = some nodes := by
  simp [slot, bind_eq_some_iff]

theorem getNodeRef_of_slot (isSlot : dag.slot round author = some (index, nodes)) :
    dag.getNodeRef round author = nodes index := by
  obtain ⟨isIndex, isRound⟩ := slot_eq_some.mp isSlot
  simp [getNodeRef, isIndex, isRound]

theorem slot_of_getNodeRef {status : NodeStatus B}
    (isStored : dag.getNodeRef round author = some status) :
    ∃ index nodes, dag.slot round author = some (index, nodes) ∧ nodes index = some status := by
  simp only [getNodeRef, bind_eq_bind, bind_eq_some_iff] at isStored
  obtain ⟨index, isIndex, nodes, isRound, isStatus⟩ := isStored
  exact ⟨index, nodes, slot_eq_some.mpr ⟨isIndex, isRound⟩, isStatus⟩

theorem getNodeRef_setSlot (isSlot : dag.slot round author = some (index, nodes))
    (status : NodeStatus B) (otherRound : Nat) (other : Author) :
    (dag.setSlot round index nodes status).getNodeRef otherRound other =
      if otherRound = round ∧ other = author then some status
      else dag.getNodeRef otherRound other := by
  obtain ⟨isIndex, isRound⟩ := slot_eq_some.mp isSlot
  simp only [getNodeRef, setSlot, SortedMap.get?_insert]
  cases otherIndex : dag.verifier.addressToValidatorIndex other with
  | none =>
    have different : other ≠ author := by
      rintro rfl
      rw [isIndex] at otherIndex
      cases otherIndex
    simp [different]
  | some position =>
    by_cases sameRound : otherRound = round
    · subst sameRound
      by_cases same : other = author
      · subst same
        rw [isIndex] at otherIndex
        cases otherIndex
        simp
      · have otherSlot : position ≠ index := by
          rintro rfl
          have otherAt := address_of_index otherIndex
          rw [address_of_index isIndex] at otherAt
          exact same (Option.some.inj otherAt).symm
        simp [same, isRound, Function.update_of_ne otherSlot]
    · simp [sameRound]

end Slots

/-- The DAG after votes: how often each slot was voted for. -/
structure AddsVotes (votingPower : Nat) (updateLinkPower : Bool)
    (times : Nat → Author → Nat) (dag after : InMemDag B) : Prop where
  startRound : after.startRound = dag.startRound
  epoch : after.epoch = dag.epoch
  verifier : after.verifier = dag.verifier
  windowSize : after.windowSize = dag.windowSize
  statuses : ∀ round author, after.getNodeRef round author = (dag.getNodeRef round author).map
      ((NodeStatus.addVote votingPower updateLinkPower)^[times round author])

/-- How often a list of parents names a slot. -/
def timesNamed (parents : List NodeMetadata) (round : Nat) (author : Author) : Nat :=
  parents.countP fun parent =>
    decide (parent.round = round ∧ parent.author = author)

section Votes

variable {votingPower : Nat} {updateLinkPower : Bool} {dag after : InMemDag B}

theorem AddsVotes.none (dag : InMemDag B) :
    AddsVotes votingPower updateLinkPower (fun _ _ => 0) dag dag where
  startRound := rfl
  epoch := rfl
  verifier := rfl
  windowSize := rfl
  statuses := by simp

variable {parents : List NodeMetadata} {parent : NodeMetadata}

theorem voteFor_addsVotes (voted : voteFor votingPower updateLinkPower dag parent = .ok after) :
    AddsVotes votingPower updateLinkPower (timesNamed [parent]) dag after := by
  simp only [voteFor, bind_eq_ok, expect_eq_ok] at voted
  obtain ⟨⟨index, nodes⟩, isSlot, status, isStatus, changed⟩ := voted
  cases changed
  dsimp only at isStatus
  refine ⟨rfl, rfl, rfl, rfl, ?_⟩
  intro round author
  rw [getNodeRef_setSlot isSlot]
  by_cases isNamed : round = parent.round ∧ author = parent.author
  · obtain ⟨rfl, rfl⟩ := isNamed
    simp [timesNamed, getNodeRef_of_slot isSlot, isStatus]
  · have notNamed : ¬(parent.round = round ∧ parent.author = author) := by
      rintro ⟨rfl, rfl⟩
      exact isNamed ⟨rfl, rfl⟩
    simp [timesNamed, isNamed, notNamed]

theorem voteFor_isOk (isStored : dag.exists parent = true) :
    ∃ after, voteFor votingPower updateLinkPower dag parent = .ok after := by
  obtain ⟨status, isStatus⟩ := isSome_iff_exists.mp isStored
  obtain ⟨index, nodes, isSlot, isStatus⟩ := slot_of_getNodeRef isStatus
  exact ⟨_, by simp [voteFor, isSlot, isStatus, expect, ok_bind]; rfl⟩

theorem AddsVotes.trans {first second : Nat → Author → Nat} {middle : InMemDag B}
    (votes : AddsVotes votingPower updateLinkPower first dag middle)
    (more : AddsVotes votingPower updateLinkPower second middle after) :
    AddsVotes votingPower updateLinkPower
      (fun round author => second round author + first round author) dag after where
  startRound := more.startRound.trans votes.startRound
  epoch := more.epoch.trans votes.epoch
  verifier := more.verifier.trans votes.verifier
  windowSize := more.windowSize.trans votes.windowSize
  statuses := by
    intro round author
    rw [more.statuses, votes.statuses, Option.map_map, Function.iterate_add]

theorem foldlM_voteFor_addsVotes
    (voted : parents.foldlM (voteFor votingPower updateLinkPower) dag = .ok after) :
    AddsVotes votingPower updateLinkPower (timesNamed parents) dag after := by
  induction parents generalizing dag with
  | nil =>
    cases voted
    exact AddsVotes.none _
  | cons parent rest inductionHypothesis =>
    obtain ⟨middle, first, others⟩ := of_bind voted
    have votes := (voteFor_addsVotes first).trans (inductionHypothesis others)
    convert votes using 1
    funext round author
    simp only [timesNamed, countP_cons, countP_nil, Nat.zero_add]

theorem AddsVotes.exists_eq {times : Nat → Author → Nat}
    (votes : AddsVotes votingPower updateLinkPower times dag after) (metadata : NodeMetadata) :
    after.exists metadata = dag.exists metadata := by
  simp [InMemDag.exists, getNodeRefByMetadata, votes.statuses]

theorem foldlM_voteFor_isOk (areStored : ∀ parent ∈ parents, dag.exists parent = true) :
    ∃ after, parents.foldlM (voteFor votingPower updateLinkPower) dag = .ok after := by
  induction parents generalizing dag with
  | nil => exact ⟨dag, rfl⟩
  | cons parent rest inductionHypothesis =>
    have firstOk : ∃ middle, voteFor votingPower updateLinkPower dag parent = .ok middle :=
      voteFor_isOk (areStored parent mem_cons_self)
    obtain ⟨middle, first⟩ := firstOk
    have stillStored : ∀ other ∈ rest, middle.exists other = true := by
      intro other isOther
      rw [(voteFor_addsVotes first).exists_eq]
      exact areStored other (mem_cons_of_mem _ isOther)
    obtain ⟨after, others⟩ := inductionHypothesis stillStored
    exact ⟨after, by rw [foldlM_cons, first, ok_bind, others]⟩

/-- What `update_votes` does when it does not panic. -/
theorem updateVotes_addsVotes {node : Node B}
    (voted : dag.updateVotes node updateLinkPower = .ok after) :
    (node.round ≤ dag.lowestRound ∧ after = dag) ∨ (dag.lowestRound < node.round ∧ ∃ votingPower,
        dag.verifier.getVotingPower node.author = some votingPower ∧
        AddsVotes votingPower updateLinkPower (timesNamed node.parentsMetadata) dag after) := by
  unfold updateVotes at voted
  split at voted
  · rename_i isLow
    cases voted
    exact .inl ⟨isLow, rfl⟩
  · rename_i isHigh
    obtain ⟨power, isPower, votes⟩ := of_bind voted
    exact .inr ⟨Nat.lt_of_not_le isHigh, power, expect_eq_ok.mp isPower,
      foldlM_voteFor_addsVotes votes⟩

/-- `update_votes` does not panic for a known author with stored parents, or at low rounds. -/
theorem updateVotes_isOk {node : Node B}
    (isKnown : (dag.verifier.getVotingPower node.author).isSome)
    (areStored : dag.lowestRound < node.round → ∀ parent ∈ node.parentsMetadata, dag.exists parent =
      true) : ∃ after, dag.updateVotes node updateLinkPower = .ok after := by
  unfold updateVotes
  split
  · exact ⟨dag, rfl⟩
  · rename_i isHigh
    obtain ⟨power, isPower⟩ := isSome_iff_exists.mp isKnown
    rw [isPower]
    exact foldlM_voteFor_isOk (areStored (Nat.lt_of_not_le isHigh))

end Votes

end InMemDag

/-- What the tasks of a validator do with its DAG, each under its lock. -/
inductive StoreCall (B : Type) where
  | validateNewNode (node : CertifiedNode B)
  | addValidatedNode (node : CertifiedNode B)
  | voteWeakly (node : Node B)
  | markAsOrdered (round : Nat) (author : Author)
  | commitCallback (commitRound : Nat)

namespace InMemDag

variable {B : Type}

def perform (dag : InMemDag B) : StoreCall B → Except Fault (InMemDag B)
  | .validateNewNode node => dag.validateNewNode node
  | .addValidatedNode node => dag.addValidatedNode node
  | .voteWeakly node => dag.updateVotes node false
  | .markAsOrdered round author => dag.markAsOrdered round author
  | .commitCallback commitRound => .ok (dag.commitCallback commitRound)

variable {author : Author} {round : Nat}

section Calls

variable {dag after : InMemDag B}

theorem markAsOrdered_eq_ok (marked : dag.markAsOrdered round author = .ok after) :
    ∃ index nodes status, dag.slot round author = some (index, nodes) ∧ nodes index = some status ∧
      after = dag.setSlot round index nodes (.ordered status.asNode) := by
  simp only [markAsOrdered, bind_eq_ok, expect_eq_ok] at marked
  obtain ⟨⟨index, nodes⟩, isSlot, status, isStatus, _, _, changed⟩ := marked
  cases changed
  exact ⟨index, nodes, status, isSlot, isStatus, rfl⟩

variable {node : CertifiedNode B} {newStartRound : Nat}

theorem addValidatedNode_eq_ok (added : dag.addValidatedNode node = .ok after) :
    ∃ index nodes, dag.slot node.round node.author = some (index, nodes) ∧ nodes index = none ∧
      (dag.setSlot node.round index nodes (.unordered node 0 0)).updateVotes
        node.toNode true = .ok after := by
  simp only [addValidatedNode, bind_eq_ok, expect_eq_ok, ensure_eq_ok] at added
  obtain ⟨_, _, ⟨index, nodes⟩, isSlot, _, isFree, voted⟩ := added
  exact ⟨index, nodes, isSlot, isNone_iff_eq_none.mp isFree, voted⟩

theorem validateNewNode_eq_ok (validated : dag.validateNewNode node = .ok after) :
    after = dag.withRound node.round := by
  simp only [validateNewNode, bind_eq_ok] at validated
  obtain ⟨_, _, _, _, _, _, _, _, _, _, _, _, changed⟩ := validated
  cases changed
  rfl

theorem getNodeRef_withRound (dag : InMemDag B) (newRound round : Nat) (author : Author) :
    (dag.withRound newRound).getNodeRef round author = dag.getNodeRef round author := by
  simp only [getNodeRef, withRound, SortedMap.get?_orInsert]
  cases dag.verifier.addressToValidatorIndex author with
  | none => rfl
  | some =>
    by_cases isNew : round = newRound
    · subst isNew
      cases dag.nodesByRound.get? round <;> simp
    · simp [isNew]

theorem getNodeRef_prune (dag : InMemDag B) (isKept : newStartRound ≤ round) (author : Author) :
    (dag.prune newStartRound).getNodeRef round author = dag.getNodeRef round author := by
  simp [getNodeRef, prune, SortedMap.get?_atLeast, Nat.not_lt.mpr isKept]

theorem getNodeRef_of_prune {status : NodeStatus B}
    (isStored : (dag.prune newStartRound).getNodeRef round author = some status) :
    newStartRound ≤ round ∧ dag.getNodeRef round author = some status := by
  have isKept : newStartRound ≤ round := by
    by_contra isPruned
    simp [getNodeRef, prune, SortedMap.get?_atLeast, Nat.lt_of_not_le isPruned] at isStored
  exact ⟨isKept, by rw [← isStored, getNodeRef_prune dag isKept]⟩

theorem commitCallback_cases (dag : InMemDag B) (commitRound : Nat) :
    dag.commitCallback commitRound = dag ∨ ∃ newStartRound, dag.startRound < newStartRound ∧
        dag.commitCallback commitRound = dag.prune newStartRound := by
  unfold commitCallback
  split
  · rename_i isPruned
    exact .inr ⟨_, isPruned, rfl⟩
  · exact .inl rfl

end Calls

/-- Nodes are stored until they are pruned. -/
structure Keeps (dag after : InMemDag B) : Prop where
  epoch : after.epoch = dag.epoch
  verifier : after.verifier = dag.verifier
  startRound_le : dag.startRound ≤ after.startRound
  stored : ∀ metadata, dag.exists metadata = true →
    after.startRound ≤ metadata.round → after.exists metadata = true

section Keeps

variable {dag after : InMemDag B}

theorem Keeps.refl (dag : InMemDag B) : dag.Keeps dag :=
  ⟨rfl, rfl, le_rfl, fun _ isStored _ => isStored⟩

theorem Keeps.trans {last : InMemDag B} (keeps : dag.Keeps after)
    (more : after.Keeps last) : dag.Keeps last where
  epoch := more.epoch.trans keeps.epoch
  verifier := more.verifier.trans keeps.verifier
  startRound_le := keeps.startRound_le.trans more.startRound_le
  stored := by
    intro metadata isStored isKept
    exact more.stored metadata (keeps.stored metadata isStored (more.startRound_le.trans isKept))
      isKept

theorem updateVotes_keeps {node : Node B} {updateLinkPower : Bool}
    (voted : dag.updateVotes node updateLinkPower = .ok after) : dag.Keeps after := by
  rcases updateVotes_addsVotes voted with ⟨_, rfl⟩ | ⟨_, _, _, votes⟩
  · exact .refl _
  · refine ⟨votes.epoch, votes.verifier, votes.startRound.ge, ?_⟩
    intro metadata isStored _
    rw [votes.exists_eq]
    exact isStored

theorem setSlot_keeps {index : Nat} {nodes : RoundNodes B}
    (isSlot : dag.slot round author = some (index, nodes)) (status : NodeStatus B) :
    dag.Keeps (dag.setSlot round index nodes status) where
  epoch := rfl
  verifier := rfl
  startRound_le := le_rfl
  stored := by
    intro metadata isStored _
    simp only [InMemDag.exists, getNodeRefByMetadata, getNodeRef_setSlot isSlot]
    split
    · rfl
    · exact isStored

theorem perform_keeps {call : StoreCall B}
    (performed : dag.perform call = .ok after) : dag.Keeps after := by
  cases call with
  | validateNewNode =>
    rw [validateNewNode_eq_ok performed]
    refine ⟨rfl, rfl, le_rfl, ?_⟩
    intro metadata isStored _
    rw [InMemDag.exists, getNodeRefByMetadata, getNodeRef_withRound]
    exact isStored
  | addValidatedNode =>
    obtain ⟨index, nodes, isSlot, _, voted⟩ := addValidatedNode_eq_ok performed
    exact (setSlot_keeps isSlot _).trans (updateVotes_keeps voted)
  | voteWeakly => exact updateVotes_keeps performed
  | markAsOrdered =>
    obtain ⟨index, nodes, status, isSlot, _, rfl⟩ := markAsOrdered_eq_ok performed
    exact setSlot_keeps isSlot _
  | commitCallback commitRound =>
    cases performed
    rcases commitCallback_cases dag commitRound with
      isSame | ⟨newStartRound, isRaised, isPruned⟩
    · rw [isSame]
      exact .refl _
    · rw [isPruned]
      refine ⟨rfl, rfl, isRaised.le, ?_⟩
      intro metadata isStored isKept
      have same := getNodeRef_prune dag isKept metadata.author
      simp only [InMemDag.exists, getNodeRefByMetadata] at isStored ⊢
      exact same ▸ isStored

end Keeps

end InMemDag

end LumioNode.Dag
