import LumioNode.Dag.SingleVote

/-! # Validators of one epoch

A certified node reaches a DAG after `CertifiedNode::verify`: a quorum has signed it,
and its honest signers have verified a node with that metadata. -/

namespace LumioNode.Dag

open Library ValidatorVerifier List Function

/-! ## What a handler does with its DAG -/

namespace Handler

variable {B : Type} {env : HandlerEnv B} {handler after : Handler B}

theorem dag_release {call : Nat} {stage : CallStage B}
    (released : handler.release call stage = .ok after) : after.dag = handler.dag := by
  simp only [release, bind_eq_ok] at released
  obtain ⟨_, _, changed⟩ := released
  cases changed
  rfl

theorem dag_perform {action : Action B} (performed : handler.perform env action = .ok after) :
    after.dag = handler.dag ∨ (∃ node, handler.dag.updateVotes node false = .ok after.dag) ∨
      (∃ call, action = .callStore call ∧ handler.dag.perform call = .ok after.dag) ∨
      ∃ dag, action = .restart dag ∧ after.dag = dag := by
  cases action with
  | receive =>
    simp only [perform, receive, bind_eq_ok] at performed
    obtain ⟨_, _, received⟩ := performed
    split at received <;> cases received <;> exact .inl rfl
  | validateNode =>
    simp only [perform, validateNode] at performed
    split at performed
    · split at performed
      · cases performed
        exact .inl rfl
      · exact .inl (dag_release performed)
    · cases performed
  | lookUpVote =>
    simp only [perform, lookUpVote] at performed
    split at performed
    · split at performed
      · exact .inl ((dag_release performed).trans rfl)
      · cases performed
        exact .inl rfl
    · cases performed
  | saveVote =>
    simp only [perform, saveVote] at performed
    split at performed
    · split at performed
      · cases performed
        exact .inl rfl
      · exact .inl (dag_release performed)
    · cases performed
  | recordVote =>
    simp only [perform, recordVote] at performed
    split at performed
    · obtain ⟨_, _, changed⟩ := of_bind performed
      cases changed
      exact .inl rfl
    · cases performed
  | countVote call =>
    simp only [perform, countVote] at performed
    split at performed
    · rename_i node vote _
      obtain ⟨dag, voted, changed⟩ := of_bind performed
      cases changed
      exact .inr (.inl ⟨node, voted⟩)
    · cases performed
  | returnVote =>
    simp only [perform, returnVote] at performed
    split at performed
    · exact .inl ((dag_release performed).trans rfl)
    · cases performed
  | readLowestRound =>
    simp only [perform, readLowestRound] at performed
    split at performed <;> cases performed
    exact .inl rfl
  | splitOffVotes =>
    simp only [perform, splitOffVotes] at performed
    split at performed <;> cases performed
    exact .inl rfl
  | deleteVotes =>
    simp only [perform, deleteVotes] at performed
    split at performed <;> cases performed
    exact .inl rfl
  | callStore call =>
    simp only [perform, callStore] at performed
    split at performed
    · rename_i dag stored
      cases performed
      exact .inr (.inr (.inl ⟨call, rfl, stored⟩))
    · cases performed
  | restart dag =>
    simp only [perform, restart, bind_eq_ok] at performed
    obtain ⟨_, _, changed⟩ := performed
    cases changed
    exact .inr (.inr (.inr ⟨dag, rfl, rfl⟩))

end Handler

/-! ## What a handler vouches for -/

def CallStage.vote? {B : Type} : CallStage B → Option Vote
  | .received _ => none
  | .validated _ => none
  | .unvoted _ => none
  | .saved _ vote => some vote
  | .recorded _ vote => some vote
  | .counted _ vote => some vote

namespace Handler

variable {B : Type}

/-- What is voted for, and votes that may be returned, meet a condition. -/
structure Vouches (meets : NodeMetadata → Prop) (handler : Handler B) : Prop where
  nodes : ∀ call stage, handler.calls call = some stage → meets stage.node.metadata
  signed : ∀ call stage vote, handler.calls call = some stage →
    stage.vote? = some vote → meets vote.metadata
  recorded : ∀ round author vote, handler.voteFor round author = some vote → meets vote.metadata
  stored : ∀ nodeId vote, handler.storage.lookup nodeId = some vote → meets vote.metadata
  returned : ∀ vote ∈ handler.returned, meets vote.metadata

section Vouches

variable {meets : NodeMetadata → Prop} {env : HandlerEnv B} {handler after : Handler B}

variable {call : Nat}

section

variable (vouches : handler.Vouches meets)

include vouches

theorem Vouches.setCall {next : Option (CallStage B)}
    (isNode : ∀ stage ∈ next, meets stage.node.metadata)
    (isVote : ∀ stage ∈ next, ∀ vote, stage.vote? = some vote → meets vote.metadata) :
    (handler.setCall call next).Vouches meets := by
  refine ⟨?_, ?_, vouches.recorded, vouches.stored, vouches.returned⟩
  · intro other stage isStage
    simp only [Handler.setCall, update_apply] at isStage
    split at isStage
    · exact isNode stage isStage
    · exact vouches.nodes other stage isStage
  · intro other stage vote isStage
    simp only [Handler.setCall, update_apply] at isStage
    split at isStage
    · exact isVote stage isStage vote
    · exact vouches.signed other stage vote isStage

theorem Vouches.release {stage : CallStage B} (released : handler.release call stage = .ok after) :
    after.Vouches meets := by
  simp only [Handler.release, bind_eq_ok, ensure_eq_ok] at released
  obtain ⟨_, _, changed⟩ := released
  cases changed
  have cleared : (handler.setCall call none).Vouches meets := vouches.setCall nofun nofun
  exact { cleared with }

theorem Vouches.advance (call : Nat) (stage : CallStage B) (isNode : meets stage.node.metadata)
    (isVote : ∀ vote, stage.vote? = some vote → meets vote.metadata) :
    (handler.setCall call (some stage)).Vouches meets :=
  vouches.setCall (by simpa using isNode) (by simpa using isVote)

theorem Vouches.answer {vote : Vote} (isVote : meets vote.metadata) :
    (handler.answer vote).Vouches meets :=
  { vouches with returned := forall_mem_cons.mpr ⟨isVote, vouches.returned⟩ }

theorem Vouches.receive {sender : Author} {node : Node B} {stopVoting : Bool}
    (isVerified : node.verify env.hash sender env.verifier = .ok () → meets node.metadata)
    (performed : handler.receive env call sender node stopVoting = .ok after) :
    after.Vouches meets := by
  simp only [Handler.receive, bind_eq_ok] at performed
  obtain ⟨_, _, received⟩ := performed
  split at received
  · rename_i accepted
    cases received
    exact { vouches.advance call (.received node) (isVerified accepted.1) nofun with }
  · cases received
    exact vouches

theorem Vouches.validateNode (performed : handler.validateNode env call = .ok after) :
    after.Vouches meets := by
  unfold Handler.validateNode at performed
  split at performed
  · rename_i node isStage
    have isNode : meets node.metadata := vouches.nodes call _ isStage
    split at performed
    · cases performed
      exact vouches.advance call (.validated node) isNode nofun
    · exact vouches.release performed
  · cases performed

theorem Vouches.lookUpVote (performed : handler.lookUpVote call = .ok after) :
    after.Vouches meets := by
  unfold Handler.lookUpVote at performed
  split at performed
  · rename_i node isStage
    have created : (handler.withRound node.round).Vouches meets := by
      refine { vouches with recorded := ?_ }
      rw [voteFor_withRound]
      exact vouches.recorded
    dsimp only at performed
    split at performed
    · rename_i ack isAck
      exact (created.answer (created.recorded _ _ ack isAck)).release performed
    · cases performed
      have isNode : meets node.metadata := vouches.nodes call _ isStage
      exact created.advance call (.unvoted node) isNode nofun
  · cases performed

theorem Vouches.saveVote {isSaved : Bool}
    (performed : handler.saveVote env call isSaved = .ok after) : after.Vouches meets := by
  unfold Handler.saveVote at performed
  split at performed
  · rename_i node isStage
    split at performed
    · rename_i _ signature _
      cases performed
      have isNode : meets node.metadata := vouches.nodes call _ isStage
      have advanced := vouches.advance call (.saved node ⟨node.metadata, signature⟩) isNode
          (by simpa [CallStage.vote?] using isNode)
      refine { advanced with stored := ?_ }
      intro nodeId vote isVote
      rw [Table.lookup_insert_eq] at isVote
      split at isVote
      · cases isVote
        exact isNode
      · exact vouches.stored nodeId vote isVote
    · exact vouches.release performed
  · cases performed

theorem Vouches.recordVote (performed : handler.recordVote call = .ok after) :
    after.Vouches meets := by
  unfold Handler.recordVote at performed
  split at performed
  · rename_i node vote isStage
    obtain ⟨ofRound, isRound, changed⟩ := of_bind performed
    cases changed
    have isNode : meets node.metadata := vouches.nodes call _ isStage
    have isVote : meets vote.metadata := vouches.signed call _ vote isStage rfl
    have advanced := vouches.advance call (.recorded node vote) isNode
      (by simpa [CallStage.vote?] using isVote)
    refine { advanced with recorded := ?_ }
    intro round author other isOther
    simp only [Handler.voteFor, SortedMap.get?_insert] at isOther
    split at isOther
    · rename_i sameRound
      rw [Option.bind_some, SortedMap.get?_insert] at isOther
      split at isOther
      · cases isOther
        exact isVote
      · refine vouches.recorded node.round author other ?_
        rw [Handler.voteFor, expect_eq_ok.mp isRound]
        exact isOther
    · exact vouches.recorded round author other isOther
  · cases performed

theorem Vouches.countVote (performed : handler.countVote call = .ok after) :
    after.Vouches meets := by
  unfold Handler.countVote at performed
  split at performed
  · rename_i node vote isStage
    obtain ⟨dag, _, changed⟩ := of_bind performed
    cases changed
    have isNode : meets node.metadata := vouches.nodes call _ isStage
    have isVote : meets vote.metadata := vouches.signed call _ vote isStage rfl
    exact { vouches.advance call (.counted node vote) isNode
      (by simpa [CallStage.vote?] using isVote) with }
  · cases performed

theorem Vouches.returnVote (performed : handler.returnVote call = .ok after) :
    after.Vouches meets := by
  unfold Handler.returnVote at performed
  split at performed
  · rename_i node vote isStage
    have isVote : meets vote.metadata := vouches.signed call _ vote isStage rfl
    exact (vouches.answer isVote).release performed
  · cases performed

theorem Vouches.splitOffVotes {epoch : Nat} (performed : handler.splitOffVotes epoch = .ok after) :
    after.Vouches meets := by
  unfold Handler.splitOffVotes at performed
  split at performed
  · rename_i minRound _
    cases performed
    refine { vouches with recorded := ?_ }
    intro round author vote isVote
    simp only [Handler.voteFor, SortedMap.get?_atLeast] at isVote
    split at isVote
    · cases isVote
    · exact vouches.recorded round author vote isVote
  · cases performed

theorem Vouches.deleteVotes {isDeleted : Bool}
    (performed : handler.deleteVotes isDeleted = .ok after) : after.Vouches meets := by
  unfold Handler.deleteVotes at performed
  split at performed
  · rename_i nodeIds _
    cases performed
    refine { vouches with stored := ?_ }
    intro nodeId vote isVote
    cases isDeleted with
    | false => exact vouches.stored nodeId vote isVote
    | true =>
      simp only [if_true, lookup_foldl_erase] at isVote
      split at isVote
      · cases isVote
      · exact vouches.stored nodeId vote isVote
  · cases performed

theorem Vouches.restart {dag : InMemDag B} (performed : handler.restart dag = .ok after) :
    after.Vouches meets := by
  simp only [Handler.restart, bind_eq_ok] at performed
  obtain ⟨_, _, changed⟩ := performed
  cases changed
  refine ⟨nofun, nofun, ?_, ?_, vouches.returned⟩
  · intro round author vote isVote
    have isStored := (voteFor_new dag handler.storage round author).symm
    exact vouches.stored _ vote (isStored.trans isVote)
  · intro nodeId vote isVote
    simp only [new, Table.lookup_retain] at isVote
    obtain ⟨isStored, _⟩ := Option.filter_eq_some_iff.mp isVote
    exact vouches.stored nodeId vote isStored

/-- What verified messages meet, everything the handler signs meets. -/
theorem Vouches.perform {action : Action B}
    (isVerified : ∀ call sender node stopVoting, action = .receive call sender node stopVoting →
      node.verify env.hash sender env.verifier = .ok () → meets node.metadata)
    (performed : handler.perform env action = .ok after) : after.Vouches meets := by
  cases action with
  | receive call sender node stopVoting =>
    exact vouches.receive (isVerified call sender node stopVoting rfl) performed
  | validateNode => exact vouches.validateNode performed
  | lookUpVote => exact vouches.lookUpVote performed
  | saveVote => exact vouches.saveVote performed
  | recordVote => exact vouches.recordVote performed
  | countVote => exact vouches.countVote performed
  | returnVote => exact vouches.returnVote performed
  | readLowestRound =>
    simp only [Handler.perform, readLowestRound] at performed
    split at performed
    · cases performed
      exact { vouches with }
    · cases performed
  | splitOffVotes => exact vouches.splitOffVotes performed
  | deleteVotes => exact vouches.deleteVotes performed
  | callStore =>
    simp only [Handler.perform, callStore] at performed
    split at performed
    · cases performed
      exact { vouches with }
    · cases performed
  | restart => exact vouches.restart performed

end

end Vouches

end Handler

/-! ## The cluster -/

def Node.withoutDigest {B : Type} (node : Node B) : NodeWithoutDigest B :=
  ⟨node.metadata.epoch, node.metadata.round, node.metadata.author,
    node.metadata.timestamp, node.body, node.parents⟩

/-- The validators of an epoch, what they share, and those that are faulty. -/
structure Committee (B : Type) where
  infos : List ValidatorConsensusInfo
  byzantine : Finset AccountAddress
  shared : HandlerEnv B
  signerOf : Author → PrivateKey
  distinct : (new infos).Distinct
  byzantineBound : ∑ author ∈ (new infos).members ∩ byzantine, (new infos).power author ≤
      (new infos).totalVotingPower - (new infos).quorumVotingPower
  sameVerifier : shared.verifier = .new infos

abbrev Cluster (B : Type) := Author → Handler B

inductive Move (B : Type) where
  | handle (author : Author) (action : Handler.Action B)
  /-- The nodes of the storage are added again to an empty DAG. -/
  | restart (author : Author) (startRound windowSize : Nat)

namespace Move

variable {B : Type}

/-- The nodes that are sent to honest validators. -/
def received : Move B → List (Node B)
  | .handle _ (.receive _ _ node _) => [node]
  | _ => []

def added : Move B → Option (Author × CertifiedNode B)
  | .handle author (.callStore (.addValidatedNode node)) => some (author, node)
  | _ => none

def hashed (move : Move B) : List (NodeWithoutDigest B) := move.received.map Node.withoutDigest ++
    (move.added.map fun added => added.2.withoutDigest).toList

end Move

namespace Committee

variable {B : Type} (committee : Committee B)

def verifier : ValidatorVerifier := committee.shared.verifier

def Honest (author : Author) : Prop :=
  author ∈ committee.verifier.members ∧ author ∉ committee.byzantine

instance (author : Author) : Decidable (committee.Honest author) :=
  inferInstanceAs (Decidable (_ ∧ _))

def env (author : Author) : HandlerEnv B :=
  { committee.shared with signer := committee.signerOf author }

def verified (node : CertifiedNode B) : Prop :=
  node.verify committee.shared.hash committee.shared.bls committee.verifier = .ok ()

instance (node : CertifiedNode B) : Decidable (committee.verified node) :=
  inferInstanceAs (Decidable (_ = _))

/-- Certified nodes are verified before they are added. -/
def admits : Handler.Action B → Bool
  | .callStore (.validateNewNode node) => committee.verified node
  | .callStore (.addValidatedNode node) => committee.verified node
  | .restart _ => false
  | _ => true

def emptyDag (startRound windowSize : Nat) : InMemDag B :=
  .newEmpty committee.shared.epoch committee.verifier startRound windowSize

def step (cluster : Cluster B) : Move B → Except Fault (Cluster B)
  | .handle author action => do
      ensure (committee.Honest author ∧ committee.admits action = true) (.error "not enabled")
      let after ← (cluster author).perform (committee.env author) action
      return update cluster author after
  | .restart author startRound windowSize => do
      ensure (committee.Honest author) (.error "not enabled")
      let after ← (cluster author).restart (committee.emptyDag startRound windowSize)
      return update cluster author after

def initial (startRound windowSize : Nat) : Cluster B :=
  fun _ => .new (committee.emptyDag startRound windowSize) ∅

/-- Honest validators that signed the certificate of an added node returned a vote for it. -/
def Unforgeable (cluster : Cluster B) (move : Move B) : Prop := ∀ added ∈ move.added, ∀ signer ∈
        committee.verifier.aggregateSignatureAuthors added.2.signatures,
      committee.Honest signer → ∃ vote ∈ (cluster signer).returned, vote.metadata = added.2.metadata

instance (cluster : Cluster B) (move : Move B) : Decidable (committee.Unforgeable cluster move) :=
  @Option.decidableForallMem _ _ (fun _ => List.decidableBAll _ _) move.added

def CollisionFree (moves : List (Move B)) : Prop :=
  ∀ first ∈ moves.flatMap Move.hashed, ∀ second ∈ moves.flatMap Move.hashed,
    committee.shared.hash first = committee.shared.hash second → first = second

instance [DecidableEq B] (moves : List (Move B)) : Decidable (committee.CollisionFree moves) :=
  inferInstanceAs (Decidable (∀ first ∈ _, ∀ second ∈ _, _ → _))

/-- The metadata of a message that was sent to the validator and verified. -/
def Signable (moves : List (Move B)) (author : Author) (metadata : NodeMetadata) : Prop :=
  ∃ call sender node stopVoting, .handle author (.receive call sender node stopVoting) ∈ moves ∧
    node.metadata = metadata ∧
    node.verify committee.shared.hash sender committee.verifier = .ok ()

variable {committee} {moves : List (Move B)} {cluster after : Cluster B}

variable {author : Author}

theorem infos_ne_nil (honest : committee.Honest author) : committee.infos ≠ [] := by
  intro isEmpty
  have isMember := honest.1
  rw [verifier, committee.sameVerifier, isEmpty] at isMember
  obtain ⟨info, isInfo, _⟩ := mem_members.mp isMember
  cases isInfo

/-- Some honest validator is among the signers of a verified node. -/
theorem exists_honest_signer {node : CertifiedNode B} (honest : committee.Honest author)
    (isVerified : committee.verified node) :
    ∃ signer ∈ committee.verifier.aggregateSignatureAuthors node.signatures,
      committee.Honest signer := by
  obtain ⟨_, _, accepted⟩ := of_bind isVerified
  obtain ⟨signers, _, _, isQuorum, _⟩ := verifyMultiSignatures_eq_ok (mapError_eq_ok.mp accepted)
  rw [verifier, committee.sameVerifier] at isQuorum ⊢
  obtain ⟨_, areMembers, reached⟩ := quorumSigners_eq_ok committee.distinct isQuorum
  obtain ⟨signer, isSigner, _, notFaulty⟩ := WeightedQuorum.exists_common
    (quorumSystem (infos_ne_nil honest) committee.distinct
      committee.byzantine committee.byzantineBound)
    ⟨areMembers, reached⟩ ⟨areMembers, reached⟩
  refine ⟨signer, mem_toFinset.mp isSigner, ?_, notFaulty⟩
  rw [verifier, committee.sameVerifier]
  exact areMembers isSigner

theorem step_eq_ok {move : Move B} (performed : committee.step cluster move = .ok after) :
    ∃ author handler, committee.Honest author ∧ after = update cluster author handler ∧
      ((∃ action, move = .handle author action ∧ committee.admits action = true ∧
          (cluster author).perform (committee.env author) action = .ok handler) ∨
        ∃ startRound windowSize, move = .restart author startRound windowSize ∧
          (cluster author).restart (committee.emptyDag startRound windowSize) = .ok handler) := by
  cases move with
  | handle author action =>
    simp only [step, bind_eq_ok, ensure_eq_ok] at performed
    obtain ⟨_, ⟨honest, isAdmitted⟩, handler, handled, changed⟩ := performed
    cases changed
    exact ⟨author, handler, honest, rfl, .inl ⟨action, rfl, isAdmitted, handled⟩⟩
  | restart author startRound windowSize =>
    simp only [step, bind_eq_ok, ensure_eq_ok] at performed
    obtain ⟨_, honest, handler, handled, changed⟩ := performed
    cases changed
    exact ⟨author, handler, honest, rfl, .inr ⟨startRound, windowSize, rfl, handled⟩⟩

theorem initial_vouches (startRound windowSize : Nat) (author : Author) :
    (committee.initial startRound windowSize author).Vouches (committee.Signable moves author) := by
  refine ⟨nofun, nofun, ?_, nofun, nofun⟩
  intro round voter vote isVote
  cases (Handler.voteFor_new _ ∅ round voter).symm.trans isVote

/-- Honest validators sign only what they have verified. -/
theorem step_vouches {move : Move B}
    (vouches : ∀ author, (cluster author).Vouches (committee.Signable moves author))
    (isMove : move ∈ moves) (performed : committee.step cluster move = .ok after)
    (author : Author) : (after author).Vouches (committee.Signable moves author) := by
  obtain ⟨actor, handler, _, rfl, handled⟩ := step_eq_ok performed
  by_cases isActor : author = actor
  · subst isActor
    rw [update_self]
    rcases handled with ⟨action, rfl, _, handled⟩ | ⟨_, _, _, handled⟩
    · refine (vouches author).perform ?_ handled
      intro call sender node stopVoting isReceive isVerified
      subst isReceive
      exact ⟨call, sender, node, stopVoting, isMove, rfl, isVerified⟩
    · exact (vouches author).restart handled
  · rw [update_of_ne isActor]
    exact vouches author

/-- A certified node has the parents of a node that an honest validator verified. -/
theorem round_of_added {node : CertifiedNode B} (collisionFree : committee.CollisionFree moves)
    (isMove : .handle author (.callStore (.addValidatedNode node)) ∈ moves)
    (honest : committee.Honest author) (isVerified : committee.verified node)
    (unforgeable : committee.Unforgeable cluster (.handle author
      (.callStore (.addValidatedNode node))))
    (vouches : ∀ author, (cluster author).Vouches (committee.Signable moves author))
    {parent : NodeMetadata} (isParent : parent ∈ node.parentsMetadata) :
    parent.round + 1 = node.round := by
  obtain ⟨signer, isSigner, signerHonest⟩ := exists_honest_signer honest isVerified
  obtain ⟨vote, isReturned, sameMetadata⟩ :=
    unforgeable (author, node) rfl signer isSigner signerHonest
  obtain ⟨_, sender, signed, _, isSigned, signedMetadata, signedVerified⟩ :=
    (vouches signer).returned vote isReturned
  rw [sameMetadata] at signedMetadata
  have isDigest : node.digest = committee.shared.hash node.withoutDigest :=
    (of_ensure_bind isVerified).1
  have signedDigest : signed.digest = committee.shared.hash signed.withoutDigest := by
    simp only [Node.verify, bind_eq_ok, ensure_eq_ok] at signedVerified
    obtain ⟨_, _, _, isDigest, _⟩ := signedVerified
    exact isDigest
  have sameHash : committee.shared.hash node.withoutDigest =
      committee.shared.hash signed.withoutDigest := by
    rw [← isDigest, ← signedDigest, Node.digest, Node.digest, signedMetadata]
  have isHashed : node.withoutDigest ∈ moves.flatMap Move.hashed :=
    mem_flatMap.mpr ⟨_, isMove, by simp [Move.hashed, Move.added]⟩
  have signedHashed : signed.withoutDigest ∈ moves.flatMap Move.hashed :=
    mem_flatMap.mpr ⟨_, isSigned, by simp [Move.hashed, Move.received]⟩
  have same := collisionFree _ isHashed _ signedHashed sameHash
  have sameParents : node.parents = signed.parents := congrArg NodeWithoutDigest.parents same
  have isSignedParent : parent ∈ signed.parentsMetadata := by
    rw [Node.parentsMetadata, ← sameParents]
    exact isParent
  have isPrevious := Node.round_of_verify signedVerified isSignedParent
  rw [Node.round, signedMetadata] at isPrevious
  exact isPrevious

end Committee

end LumioNode.Dag
