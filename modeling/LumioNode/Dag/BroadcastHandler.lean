import LumioNode.Dag.Store
import LumioNode.Library.Table

/-! # Voting for nodes

At most one vote for a round and an author.  An action is what happens under one lock;
calls, collections, insertions, pruning and restarts are interleaved. -/

namespace LumioNode.Dag

open Library

/-- What the vote handler reads of the configuration and of a node's body. -/
structure HandlerEnv (B : Type) where
  epoch : Nat
  verifier : ValidatorVerifier
  hash : NodeWithoutDigest B → HashValue
  bls : Bls NodeMetadata
  signer : PrivateKey
  numValidatorTxns : B → Nat
  /-- Every validator transaction is expected and verifies. -/
  validatorTxnsValid : B → Bool
  validatorTxnBytes : B → Nat
  payloadLen : B → Nat
  payloadSize : B → Nat
  perBlockLimitTxnCount : Nat
  perBlockLimitTotalBytes : Nat
  maxReceivingTxnsPerRound : Nat
  maxReceivingSizePerRoundBytes : Nat

namespace HandlerEnv

variable {B : Type} (env : HandlerEnv B)

/-- The part of `validate` that reads only the node. -/
def validateBody (node : Node B) : Except Fault Unit := do
  ensure (node.epoch = env.epoch) (.error "different epoch")
  ensure (env.numValidatorTxns node.body ≤ env.perBlockLimitTxnCount)
    (.error "too many validator transactions")
  ensure (env.validatorTxnsValid node.body = true) (.error "unexpected validator transaction")
  ensure (env.validatorTxnBytes node.body ≤ env.perBlockLimitTotalBytes)
    (.error "too many bytes of validator transactions")
  ensure (env.numValidatorTxns node.body + env.payloadLen node.body ≤
    env.maxReceivingTxnsPerRound) (.error "too many transactions")
  ensure (env.validatorTxnBytes node.body + env.payloadSize node.body ≤
    env.maxReceivingSizePerRoundBytes) (.error "too many bytes")

/-- `NodeBroadcastHandler::validate`; a node whose parents are missing is given up. -/
def validate (dag : InMemDag B) (node : Node B) : Except Fault Unit := do
  env.validateBody node
  ensure (dag.lowestRound ≤ node.round) (.error "StaleRound")
  let missingParents := node.parents.filter fun parent =>
    !dag.exists parent.metadata
  ensure (∀ parent ∈ missingParents,
    parent.verify env.bls env.verifier = .ok ()) (.error "InvalidParent")
  ensure (missingParents ≠ [] → node.round ≤ dag.lowestRound) (.error "MissingParents")

/-- A validated node is not above the lowest round, or its parents are stored. -/
theorem exists_of_validate {dag : InMemDag B} {node : Node B}
    (validated : env.validate dag node = .ok ()) :
    dag.lowestRound ≤ node.round ∧ (dag.lowestRound < node.round →
      ∀ parent ∈ node.parentsMetadata, dag.exists parent = true) := by
  simp only [validate, bind_eq_ok, ensure_eq_ok] at validated
  obtain ⟨_, _, _, isRecent, _, _, complete⟩ := validated
  refine ⟨isRecent, ?_⟩
  intro isAbove parent isParent
  obtain ⟨certificate, inParents, rfl⟩ := List.mem_map.mp isParent
  by_contra isMissing
  have hasMissing : node.parents.filter (fun parent =>
      !dag.exists parent.metadata) ≠ [] := by
    intro noneMissing
    have notKept := List.filter_eq_nil_iff.mp noneMissing certificate inParents
    simp [isMissing] at notKept
  have isLow := complete hasMissing
  omega

end HandlerEnv

/-- How far a call of `process` has come, and its node. -/
inductive CallStage (B : Type) where
  /-- The call holds the fine grained lock. -/
  | received (node : Node B)
  | validated (node : Node B)
  /-- There was no vote for the round and the author. -/
  | unvoted (node : Node B)
  | saved (node : Node B) (vote : Vote)
  | recorded (node : Node B) (vote : Vote)
  | counted (node : Node B) (vote : Vote)

/-- The task that collects votes: `gc` with `gc_before_round`. -/
inductive CollectorStage where
  | idle
  | readLowest (minRound : Nat)
  | deleting (nodeIds : List NodeId)

structure Handler (B : Type) where
  dag : InMemDag B
  votesByRoundPeer : SortedMap Nat (SortedMap Author Vote)
  votesFineGrainedLock : Finset (Nat × Author)
  storage : Table NodeId Vote
  calls : Nat → Option (CallStage B)
  collector : CollectorStage
  /-- All votes returned and the round below which votes were collected; no action reads them. -/
  returned : List Vote
  collectedBelow : Nat

namespace CallStage

variable {B : Type}

def node : CallStage B → Node B
  | received node => node
  | validated node => node
  | unvoted node => node
  | saved node _ => node
  | recorded node _ => node
  | counted node _ => node

/-- The lowest round has been compared with the round of the node. -/
def isPastValidation : CallStage B → Bool
  | received _ => false
  | _ => true

def key (stage : CallStage B) : Nat × Author := (stage.node.round, stage.node.author)

end CallStage

namespace Handler

variable {B : Type}

def readVote (epoch : Nat) (votes : SortedMap Nat (SortedMap Author Vote))
    (entry : (_ : NodeId) × Vote) : SortedMap Nat (SortedMap Author Vote) :=
  if entry.1.epoch = epoch then
    votes.insert entry.1.round
      (((votes.get? entry.1.round).getD .empty).insert entry.1.author entry.2)
  else votes

/-- The read is taken to succeed; after a failed one the source goes on without votes. -/
def readVotesFromStorage (storage : Table NodeId Vote) (epoch : Nat) :
    SortedMap Nat (SortedMap Author Vote) :=
  storage.entries.foldl (readVote epoch) .empty

def new (dag : InMemDag B) (storage : Table NodeId Vote) : Handler B where
  dag := dag
  votesByRoundPeer := readVotesFromStorage storage dag.epoch
  votesFineGrainedLock := ∅
  storage := storage.retain fun nodeId _ => nodeId.epoch == dag.epoch
  calls := fun _ => none
  collector := .idle
  returned := []
  collectedBelow := 0

variable (handler : Handler B)

def voteFor (round : Nat) (author : Author) : Option Vote :=
  (handler.votesByRoundPeer.get? round).bind (·.get? author)

def withRound (round : Nat) : Handler B :=
  { handler with
    votesByRoundPeer := handler.votesByRoundPeer.orInsert round .empty }

def setCall (call : Nat) (stage : Option (CallStage B)) : Handler B :=
  { handler with calls := Function.update handler.calls call stage }

/-- The call ends: the deferred removal of its key from the lock. -/
def release (call : Nat) (stage : CallStage B) :
    Except Fault (Handler B) := do
  ensure (stage.key ∈ handler.votesFineGrainedLock) .panic
  return { handler.setCall call none with
    votesFineGrainedLock := handler.votesFineGrainedLock.erase stage.key }

def answer (vote : Vote) : Handler B :=
  { handler with returned := vote :: handler.returned }

def notEnabled {α : Type} : Except Fault α := .error (.error "not enabled")

section Process

variable (env : HandlerEnv B) (handler : Handler B)

variable (call : Nat)

/-- A verified message arrives; the call takes the lock of its key. -/
def receive (sender : Author) (node : Node B)
    (stopVoting : Bool) : Except Fault (Handler B) := do
  ensure ((handler.calls call).isNone) (.error "not enabled")
  if node.verify env.hash sender env.verifier = .ok () ∧ stopVoting = false ∧
      (node.round, node.author) ∉ handler.votesFineGrainedLock then
    return { handler.setCall call (some (.received node)) with
      votesFineGrainedLock := insert (node.round, node.author) handler.votesFineGrainedLock }
  else return handler

def validateNode : Except Fault (Handler B) := match handler.calls call with
  | some (.received node) =>
    if env.validate handler.dag node = .ok () then
      .ok (handler.setCall call (some (.validated node)))
    else handler.release call (.received node)
  | _ => notEnabled

/-- An earlier vote is returned again, and the entry of the round is created. -/
def lookUpVote : Except Fault (Handler B) := match handler.calls call with
  | some (.validated node) =>
    let created := handler.withRound node.round
    match created.voteFor node.round node.author with
    | some ack => (created.answer ack).release call (.validated node)
    | none => .ok (created.setCall call (some (.unvoted node)))
  | _ => notEnabled

/-- The vote is signed and saved; either may fail. -/
def saveVote (isSaved : Bool) : Except Fault (Handler B) :=
  match handler.calls call with
  | some (.unvoted node) =>
    match env.bls.sign env.signer node.metadata, isSaved with
    | some signature, true =>
      let vote : Vote := ⟨node.metadata, signature⟩
      .ok { handler.setCall call (some (.saved node vote)) with
        storage := handler.storage.insert node.id vote }
    | _, _ => handler.release call (.unvoted node)
  | _ => notEnabled

/-- The second use of the votes, which expects the entry of the round. -/
def recordVote : Except Fault (Handler B) := match handler.calls call with
  | some (.saved node vote) => do
      let ofRound ← expect .panic (handler.votesByRoundPeer.get? node.round)
      return { handler.setCall call (some (.recorded node vote)) with
        votesByRoundPeer := handler.votesByRoundPeer.insert node.round
          (ofRound.insert node.author vote) }
  | _ => notEnabled

def countVote : Except Fault (Handler B) := match handler.calls call with
  | some (.recorded node vote) => do
      let dag ← handler.dag.updateVotes node false
      return { handler.setCall call (some (.counted node vote)) with
        dag := dag }
  | _ => notEnabled

def returnVote : Except Fault (Handler B) := match handler.calls call with
  | some (.counted node vote) =>
    (handler.answer vote).release call (.counted node vote)
  | _ => notEnabled

end Process

section Collection

variable (handler : Handler B)

/-- `gc` reads the lowest round of the DAG. -/
def readLowestRound : Except Fault (Handler B) := match handler.collector with
  | .idle => .ok { handler with
      collector := .readLowest handler.dag.lowestRound }
  | _ => notEnabled

/-- `gc_before_round` removes the rounds from memory. -/
def splitOffVotes (epoch : Nat) : Except Fault (Handler B) := match handler.collector with
  | .readLowest minRound =>
    let toDelete := (handler.votesByRoundPeer.below minRound).entries.flatMap
      fun entry => entry.2.keys.map fun author =>
        (⟨epoch, entry.1, author⟩ : NodeId)
    .ok { handler with
      votesByRoundPeer := handler.votesByRoundPeer.atLeast minRound
      collector := .deleting toDelete
      collectedBelow := max handler.collectedBelow minRound }
  | _ => notEnabled

/-- The votes are deleted from storage, which may fail. -/
def deleteVotes (isDeleted : Bool) : Except Fault (Handler B) := match handler.collector with
  | .deleting nodeIds => .ok { handler with
      collector := .idle
      storage := if isDeleted then
          nodeIds.foldl (fun storage nodeId => storage.erase nodeId) handler.storage
        else handler.storage }
  | _ => notEnabled

end Collection

section Runs

def callStore (call : StoreCall B) : Except Fault (Handler B) :=
  match handler.dag.perform call with
  | .ok dag => .ok { handler with dag := dag }
  | .error _ => notEnabled

/-- A restart in the same epoch, with the persisted votes and a new DAG. -/
def restart (dag : InMemDag B) : Except Fault (Handler B) := do
  ensure (dag.epoch = handler.dag.epoch ∧
    dag.verifier = handler.dag.verifier) (.error "not enabled")
  return { new dag handler.storage with
    returned := handler.returned
    collectedBelow := handler.collectedBelow }

inductive Action (B : Type) where
  | receive (call : Nat) (sender : Author) (node : Node B)
      (stopVoting : Bool)
  | validateNode (call : Nat)
  | lookUpVote (call : Nat)
  | saveVote (call : Nat) (isSaved : Bool)
  | recordVote (call : Nat)
  | countVote (call : Nat)
  | returnVote (call : Nat)
  | readLowestRound
  | splitOffVotes
  | deleteVotes (isDeleted : Bool)
  | callStore (call : StoreCall B)
  | restart (dag : InMemDag B)

def perform (env : HandlerEnv B) (handler : Handler B) : Action B → Except Fault (Handler B)
  | .receive call sender node stopVoting =>
    handler.receive env call sender node stopVoting
  | .validateNode call => handler.validateNode env call
  | .lookUpVote call => handler.lookUpVote call
  | .saveVote call isSaved => handler.saveVote env call isSaved
  | .recordVote call => handler.recordVote call
  | .countVote call => handler.countVote call
  | .returnVote call => handler.returnVote call
  | .readLowestRound => handler.readLowestRound
  | .splitOffVotes => handler.splitOffVotes env.epoch
  | .deleteVotes isDeleted => handler.deleteVotes isDeleted
  | .callStore call => handler.callStore call
  | .restart dag => handler.restart dag

end Runs

end Handler

end LumioNode.Dag
