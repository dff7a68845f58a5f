import LumioNode.Dag.BroadcastHandler

/-! # One vote for a round and an author

If the collection overtakes no call past its comparison with the lowest round, and
restarts do not go back, votes for one round and author have one digest. -/

namespace LumioNode.Dag

open Library SortedMap RunMeets List Function InMemDag Option

namespace Handler

variable {B : Type}

def storedVote (env : HandlerEnv B) (handler : Handler B) (round : Nat)
    (author : Author) : Option Vote :=
  handler.storage.lookup ⟨env.epoch, round, author⟩

def Progress (env : HandlerEnv B) (handler : Handler B) : CallStage B → Prop
  | .received _ => True
  | .validated _ => True
  | .unvoted node =>
    (handler.votesByRoundPeer.get? node.round).isSome ∧
      handler.voteFor node.round node.author = none
  | .saved node vote =>
    (handler.votesByRoundPeer.get? node.round).isSome ∧
      handler.voteFor node.round node.author = none ∧
      vote.metadata = node.metadata ∧
      handler.storedVote env node.round node.author = some vote
  | .recorded node vote => vote.metadata = node.metadata ∧
      handler.voteFor node.round node.author = some vote
  | .counted node vote => vote.metadata = node.metadata ∧
      handler.voteFor node.round node.author = some vote

/-- What holds of a call in progress. -/
structure CallFacts (env : HandlerEnv B) (handler : Handler B) (stage : CallStage B) : Prop where
  locked : stage.key ∈ handler.votesFineGrainedLock
  isKnown : (env.verifier.getVotingPower stage.node.author).isSome
  rounds : ∀ parent ∈ stage.node.parentsMetadata, parent.round + 1 = stage.node.round
  epoch : stage.isPastValidation = true → stage.node.epoch = env.epoch
  recent : stage.isPastValidation = true → handler.collectedBelow ≤ stage.node.round
  parents : stage.isPastValidation = true → handler.dag.lowestRound < stage.node.round →
      ∀ parent ∈ stage.node.parentsMetadata, handler.dag.exists parent = true
  progress : Progress env handler stage

/-- The rounds that the collection of votes has reached or is about to. -/
structure CollectorFacts (handler : Handler B) : Prop where
  collected_le : handler.collectedBelow ≤ handler.dag.startRound
  read_le : ∀ minRound, handler.collector = .readLowest minRound → minRound ≤ handler.dag.startRound
  deleting : ∀ nodeIds, handler.collector = .deleting nodeIds →
    ∀ nodeId ∈ nodeIds, nodeId.round < handler.collectedBelow

/-- Above the collected rounds, votes in memory, storage and answers agree. -/
structure VoteFacts (env : HandlerEnv B) (handler : Handler B) : Prop where
  storedEpoch : ∀ nodeId vote, handler.storage.lookup nodeId = some vote → nodeId.epoch = env.epoch
  metadata : ∀ round author vote, handler.storedVote env round author = some vote →
      vote.metadata.round = round ∧ vote.metadata.author = author
  remembered : ∀ round author vote, handler.collectedBelow ≤ round →
    handler.voteFor round author = some vote → handler.storedVote env round author = some vote
  persisted : ∀ round author vote, handler.collectedBelow ≤ round →
    handler.storedVote env round author = some vote → handler.voteFor round author = some vote ∨
        ∃ call node, handler.calls call = some (.saved node vote) ∧
          node.round = round ∧ node.author = author
  returned : ∀ vote ∈ handler.returned, handler.collectedBelow ≤ vote.metadata.round →
      handler.voteFor vote.metadata.round vote.metadata.author = some vote
  single : ∀ vote ∈ handler.returned, ∀ other ∈ handler.returned,
    vote.metadata.round = other.metadata.round → vote.metadata.author = other.metadata.author →
        vote.metadata.digest = other.metadata.digest

structure Consistent (env : HandlerEnv B) (handler : Handler B) : Prop where
  epoch : handler.dag.epoch = env.epoch
  verifier : handler.dag.verifier = env.verifier
  collector : handler.CollectorFacts
  votes : handler.VoteFacts env
  calls : ∀ call stage, handler.calls call = some stage → handler.CallFacts env stage
  distinct : ∀ call stage other otherStage, handler.calls call = some stage →
      handler.calls other = some otherStage → stage.key = otherStage.key → call = other

/-- Only the votes of one key have changed, if any. -/
structure ChangesOnly (env : HandlerEnv B) (handler after : Handler B)
    (key : Nat × Author) : Prop where
  keeps : handler.dag.Keeps after.dag
  collectedBelow : after.collectedBelow = handler.collectedBelow
  collector : after.collector = handler.collector
  rounds : ∀ round, (handler.votesByRoundPeer.get? round).isSome →
    (after.votesByRoundPeer.get? round).isSome
  voteFor : ∀ round author, (round, author) ≠ key →
    after.voteFor round author = handler.voteFor round author
  stored : ∀ round author, (round, author) ≠ key →
    after.storedVote env round author = handler.storedVote env round author

variable {dag : InMemDag B}

section Frames

variable {env : HandlerEnv B} {handler after : Handler B} {key : Nat × Author} {stage : CallStage B}

structure SameVote (env : HandlerEnv B) (handler after : Handler B)
    (round : Nat) (author : Author) : Prop where
  hasRound : (handler.votesByRoundPeer.get? round).isSome →
    (after.votesByRoundPeer.get? round).isSome
  voteFor : after.voteFor round author = handler.voteFor round author
  stored : after.storedVote env round author = handler.storedVote env round author

theorem Progress.frame (progress : Progress env handler stage)
    (same : stage.isPastValidation = true → SameVote env handler after stage.node.round
      stage.node.author) : Progress env after stage := by
  cases stage with
  | received | validated => trivial
  | unvoted =>
    exact ⟨(same rfl).hasRound progress.1, (same rfl).voteFor.trans progress.2⟩
  | saved =>
    obtain ⟨hasRound, unvoted, sameMetadata, isStored⟩ := progress
    exact ⟨(same rfl).hasRound hasRound, (same rfl).voteFor.trans unvoted,
      sameMetadata, (same rfl).stored.trans isStored⟩
  | recorded | counted =>
    exact ⟨progress.1, (same rfl).voteFor.trans progress.2⟩

theorem CallFacts.parents_keeps (facts : handler.CallFacts env stage)
    (keeps : handler.dag.Keeps dag) (isPast : stage.isPastValidation = true)
    (isAbove : dag.lowestRound < stage.node.round) :
    ∀ parent ∈ stage.node.parentsMetadata, dag.exists parent = true := by
  intro parent isParent
  have wasAbove : handler.dag.lowestRound < stage.node.round := keeps.startRound_le.trans_lt isAbove
  have isPrevious := facts.rounds parent isParent
  apply keeps.stored parent (facts.parents isPast wasAbove parent isParent)
  unfold InMemDag.lowestRound at isAbove
  omega

theorem CallFacts.frame
    (facts : handler.CallFacts env stage)
    (keeps : handler.dag.Keeps after.dag)
    (locked : stage.key ∈ after.votesFineGrainedLock)
    (same : stage.isPastValidation = true →
      after.collectedBelow ≤ stage.node.round ∧
        SameVote env handler after stage.node.round stage.node.author) :
    after.CallFacts env stage where
  locked := locked
  isKnown := facts.isKnown
  rounds := facts.rounds
  epoch := facts.epoch
  recent := fun isPast => (same isPast).1
  parents := facts.parents_keeps keeps
  progress := facts.progress.frame fun isPast => (same isPast).2

theorem CollectorFacts.frame (facts : handler.CollectorFacts)
    (changes : ChangesOnly env handler after key) : after.CollectorFacts where
  collected_le := by
    rw [changes.collectedBelow]
    exact facts.collected_le.trans changes.keeps.startRound_le
  read_le := by
    rw [changes.collector]
    intro minRound isRead
    exact (facts.read_le minRound isRead).trans changes.keeps.startRound_le
  deleting := by
    rw [changes.collector, changes.collectedBelow]
    exact facts.deleting

theorem Consistent.frame (consistent : handler.Consistent env) (keeps : handler.dag.Keeps after.dag)
    (calls : after.calls = handler.calls)
    (locks : after.votesFineGrainedLock = handler.votesFineGrainedLock)
    (same : ∀ call stage, handler.calls call = some stage → stage.isPastValidation = true →
      after.collectedBelow ≤ stage.node.round ∧ SameVote env handler after stage.node.round
      stage.node.author) (collector : after.CollectorFacts) (votes : after.VoteFacts env) :
    after.Consistent env where
  epoch := keeps.epoch.trans consistent.epoch
  verifier := keeps.verifier.trans consistent.verifier
  collector := collector
  votes := votes
  calls := by
    rw [calls]
    intro call stage isStage
    have facts := consistent.calls call stage isStage
    exact facts.frame keeps (locks ▸ facts.locked) (same call stage isStage)
  distinct := by
    rw [calls]
    exact consistent.distinct

theorem Consistent.of_call (consistent : handler.Consistent env) {call : Nat}
    {next : Option (CallStage B)} (isStage : handler.calls call = some stage)
    (changes : ChangesOnly env handler after stage.key)
    (calls : after.calls = update handler.calls call next)
    (locks : ∀ held ∈ handler.votesFineGrainedLock, held ≠ stage.key →
      held ∈ after.votesFineGrainedLock)
    (own : ∀ reached, next = some reached → reached.key = stage.key ∧ after.CallFacts env reached)
    (votes : after.VoteFacts env) : after.Consistent env where
  epoch := changes.keeps.epoch.trans consistent.epoch
  verifier := changes.keeps.verifier.trans consistent.verifier
  collector := consistent.collector.frame changes
  votes := votes
  calls := by
    intro other otherStage isOther
    rw [calls, update_apply] at isOther
    split at isOther
    · exact (own otherStage isOther).2
    · rename_i same
      have different : otherStage.key ≠ stage.key := fun sameKey =>
        same (consistent.distinct _ _ _ _ isOther isStage sameKey)
      have facts := consistent.calls other otherStage isOther
      refine facts.frame changes.keeps (locks _ facts.locked different) fun isPast => ⟨?_,
        changes.rounds _, changes.voteFor _ _ different, changes.stored _ _ different⟩
      exact changes.collectedBelow ▸ facts.recent isPast
  distinct := by
    have distinct := consistent.distinct
    intro first firstStage second secondStage isFirst isSecond sameKey
    rw [calls, update_apply] at isFirst isSecond
    grind

theorem VoteFacts.frame (votes : handler.VoteFacts env) (storage : after.storage = handler.storage)
    (voteFor : after.voteFor = handler.voteFor) (returned : after.returned = handler.returned)
    (collectedBelow : after.collectedBelow = handler.collectedBelow)
    (saved : ∀ call node vote, handler.calls call = some (.saved node vote) → after.calls call =
      some (.saved node vote)) : after.VoteFacts env := by
  have stored : after.storedVote env = handler.storedVote env := by
    unfold storedVote
    rw [storage]
  constructor
  case persisted =>
    rw [stored, voteFor, collectedBelow]
    intro round author vote isRecent isStored
    rcases votes.persisted round author vote isRecent isStored with
      isRemembered | ⟨call, node, isSaved, isKey⟩
    · exact .inl isRemembered
    · exact .inr ⟨call, node, saved call node vote isSaved, isKey⟩
  all_goals simp only [storage, stored, voteFor, returned, collectedBelow]
  exacts [votes.storedEpoch, votes.metadata, votes.remembered, votes.returned, votes.single]

end Frames

/-- An action does not panic, and its result is consistent. -/
def Safe (env : HandlerEnv B) (outcome : Except Fault (Handler B)) : Prop :=
  outcome ≠ .error .panic ∧ ∀ after, outcome = .ok after → after.Consistent env

section Actions

variable {env : HandlerEnv B} {handler : Handler B} {call : Nat}

theorem safe_notEnabled : Safe env (notEnabled : Except Fault (Handler B)) :=
  ⟨nofun, nofun⟩

theorem safe_ok (consistent : handler.Consistent env) : Safe env (.ok handler) :=
  ⟨by simp, fun _ isAfter => by cases isAfter; exact consistent⟩

variable {vote : Vote} {round : Nat}

theorem saved_setCall {next : Option (CallStage B)} {other : Nat} {node : Node B}
    (notSaved : ∀ node vote, handler.calls call ≠ some (.saved node vote))
    (isSaved : handler.calls other = some (.saved node vote)) :
    (handler.setCall call next).calls other = some (.saved node vote) := by
  have different : other ≠ call := by
    rintro rfl
    exact notSaved node vote isSaved
  exact (update_of_ne different _ _).trans isSaved

section

variable (consistent : handler.Consistent env)

include consistent

variable {stage : CallStage B}

theorem Consistent.release_safe (isStage : handler.calls call = some stage)
    (notSaved : ∀ node vote, stage ≠ .saved node vote) : Safe env (handler.release call stage) := by
  have locked := (consistent.calls call stage isStage).locked
  rw [release, ensure_of locked]
  apply safe_ok
  refine consistent.of_call isStage ⟨.refl _, rfl, rfl, fun _ => id, fun _ _ _ => rfl,
    fun _ _ _ => rfl⟩ rfl ?_ (by simp) ?_
  · intro held isHeld different
    exact Finset.mem_erase.mpr ⟨different, isHeld⟩
  · exact consistent.votes.frame rfl rfl rfl rfl fun _ _ _ =>
      saved_setCall (by simp [isStage, notSaved])

/-- A call advances without a change of the votes. -/
theorem Consistent.advance {next : CallStage B} (isStage : handler.calls call = some stage)
    (notSaved : ∀ node vote, stage ≠ .saved node vote) (sameKey : next.key = stage.key)
    (facts : handler.CallFacts env next) : (handler.setCall call (some next)).Consistent env := by
  refine consistent.of_call isStage ⟨.refl _, rfl, rfl, fun _ => id, fun _ _ _ => rfl,
    fun _ _ _ => rfl⟩ rfl (fun _ isHeld _ => isHeld) ?_ ?_
  · rintro reached ⟨⟩
    exact ⟨sameKey, facts.frame (.refl _) facts.locked fun isPast =>
      ⟨facts.recent isPast, id, rfl, rfl⟩⟩
  · exact consistent.votes.frame rfl rfl rfl rfl fun _ _ _ =>
      saved_setCall (by simp [isStage, notSaved])

/-- A vote in memory may be returned. -/
theorem Consistent.answers (isRecent : handler.collectedBelow ≤ vote.metadata.round)
    (isRemembered : handler.voteFor vote.metadata.round vote.metadata.author = some vote) :
    (handler.answer vote).Consistent env := by
  have votes := consistent.votes
  have same : ∀ other ∈ handler.returned, vote.metadata.round = other.metadata.round →
      vote.metadata.author = other.metadata.author → vote = other := by
    intro other isOther sameRound sameAuthor
    have otherRemembered := votes.returned other isOther (sameRound ▸ isRecent)
    rw [← sameRound, ← sameAuthor, isRemembered] at otherRemembered
    exact Option.some.inj otherRemembered
  have returned : ∀ other ∈ (handler.answer vote).returned, handler.collectedBelow ≤
      other.metadata.round → handler.voteFor other.metadata.round other.metadata.author =
        some other :=
    forall_mem_cons.mpr ⟨fun _ => isRemembered, votes.returned⟩
  have single : ∀ first ∈ (handler.answer vote).returned,
      ∀ second ∈ (handler.answer vote).returned, first.metadata.round = second.metadata.round →
        first.metadata.author = second.metadata.author →
          first.metadata.digest = second.metadata.digest := by
    have wasSingle := votes.single
    simp only [answer, mem_cons]
    grind
  exact consistent.frame (.refl _) rfl rfl (fun other stage isStage isPast =>
      ⟨(consistent.calls other stage isStage).recent isPast, id, rfl, rfl⟩)
    { consistent.collector with }
    ⟨votes.storedEpoch, votes.metadata, votes.remembered, votes.persisted, returned, single⟩

theorem Consistent.receive_safe {sender : Author} {node : Node B} {stopVoting : Bool}
    (isKnown : (env.verifier.getVotingPower node.author).isSome) :
    Safe env (handler.receive env call sender node stopVoting) := by
  unfold receive
  refine safe_ensure fun isFree => ?_
  split
  · rename_i accepted
    obtain ⟨verified, _, unlocked⟩ := accepted
    apply safe_ok
    have isNone : handler.calls call = none := by simpa using isFree
    refine ⟨consistent.epoch, consistent.verifier, { consistent.collector with }, ?_, ?_, ?_⟩
    · exact consistent.votes.frame rfl rfl rfl rfl fun _ _ _ => saved_setCall (by simp [isNone])
    · intro other stage isStage
      simp only [setCall, update_apply] at isStage
      split at isStage
      · cases isStage
        exact ⟨Finset.mem_insert_self _ _, isKnown,
          fun parent isParent => Node.round_of_verify verified isParent,
          nofun, nofun, nofun, trivial⟩
      · have facts := consistent.calls other stage isStage
        exact facts.frame (.refl _) (Finset.mem_insert_of_mem facts.locked)
          fun isPast => ⟨facts.recent isPast, id, rfl, rfl⟩
    · have distinct := consistent.distinct
      have locked := fun other stage isStage => (consistent.calls other stage isStage).locked
      intro first firstStage second secondStage isFirst isSecond sameKey
      simp only [setCall, update_apply] at isFirst isSecond
      grind [CallStage.key, CallStage.node]
  · exact safe_ok consistent

theorem Consistent.validateNode_safe : Safe env (handler.validateNode env call) := by
  unfold validateNode
  split
  · rename_i node isStage
    split
    · rename_i validated
      have facts := consistent.calls call _ isStage
      obtain ⟨isRecent, parents⟩ := env.exists_of_validate validated
      simp only [HandlerEnv.validate, HandlerEnv.validateBody, bind_eq_ok,
        ensure_eq_ok] at validated
      obtain ⟨_, ⟨_, sameEpoch, _⟩, _⟩ := validated
      apply safe_ok
      refine consistent.advance isStage (by simp) rfl ?_
      exact { facts with
        epoch := fun _ => sameEpoch
        recent := fun _ => consistent.collector.collected_le.trans isRecent
        parents := fun _ => parents
        progress := trivial }
    · exact consistent.release_safe isStage (by simp)
  · exact safe_notEnabled

end

theorem voteFor_withRound (handler : Handler B) (newRound : Nat) :
    (handler.withRound newRound).voteFor = handler.voteFor := by
  funext round author
  simp only [voteFor, withRound, get?_orInsert]
  by_cases isNew : round = newRound
  · subst isNew
    cases handler.votesByRoundPeer.get? round <;> simp
  · simp [isNew]

theorem isSome_withRound (handler : Handler B) (newRound : Nat)
    (hasRound : (handler.votesByRoundPeer.get? round).isSome) :
    ((handler.withRound newRound).votesByRoundPeer.get? round).isSome := by
  simp only [withRound, get?_orInsert]
  split
  · rfl
  · exact hasRound

section

variable (consistent : handler.Consistent env)

include consistent

/-- The entry of a round may be created at any time. -/
theorem Consistent.createRound (round : Nat) : (handler.withRound round).Consistent env :=
  consistent.frame (.refl _) rfl rfl
    (fun call stage isStage isPast => ⟨(consistent.calls call stage isStage).recent isPast,
      isSome_withRound handler round, by rw [voteFor_withRound], rfl⟩)
    { consistent.collector with }
    (consistent.votes.frame rfl (voteFor_withRound handler round) rfl rfl fun _ _ _ => id)

theorem Consistent.lookUpVote_safe : Safe env (handler.lookUpVote call) := by
  unfold lookUpVote
  split
  · rename_i node isStage
    have created := consistent.createRound node.round
    have wasStage : (handler.withRound node.round).calls call = some (.validated node) := isStage
    have facts := created.calls call _ wasStage
    have isRecent := facts.recent rfl
    simp only
    split
    · rename_i ack isRemembered
      have isStored := created.votes.remembered _ _ _ isRecent isRemembered
      obtain ⟨sameRound, sameAuthor⟩ := created.votes.metadata _ _ _ isStored
      have answered := created.answers (sameRound ▸ isRecent)
        (by rw [sameRound, sameAuthor]; exact isRemembered)
      exact answered.release_safe wasStage (by simp)
    · rename_i isUnvoted
      apply safe_ok
      refine created.advance wasStage (by simp) rfl ?_
      refine { facts with progress := ⟨?_, isUnvoted⟩ }
      simp [withRound, get?_orInsert]
  · exact safe_notEnabled

theorem Consistent.saveVote_safe (isSaved : Bool) :
    Safe env (handler.saveVote env call isSaved) := by
  unfold saveVote
  split
  · rename_i node isStage
    have facts := consistent.calls call _ isStage
    have sameEpoch := facts.epoch rfl
    obtain ⟨hasRound, isUnvoted⟩ := facts.progress
    split
    · rename_i signature _
      have ofEpoch : node.id = ⟨env.epoch, node.round, node.author⟩ := by
        rw [← sameEpoch]
        rfl
      rw [ofEpoch]
      have stored : ∀ round author, (handler.storage.insert ⟨env.epoch, node.round, node.author⟩
            (⟨node.metadata, signature⟩ : Vote)).lookup ⟨env.epoch, round, author⟩ =
          if round = node.round ∧ author = node.author then
            some ⟨node.metadata, signature⟩
          else handler.storedVote env round author := by
        intro round author
        simp [Table.lookup_insert_eq, storedVote]
      apply safe_ok
      have votes := consistent.votes
      refine consistent.of_call isStage ⟨.refl _, rfl, rfl, fun _ => id, fun _ _ _ => rfl, ?_⟩ rfl
        (fun _ isHeld _ => isHeld) ?_ ⟨?_, ?_, ?_, ?_, votes.returned, votes.single⟩
      · intro round author different
        exact (stored round author).trans (if_neg fun isKey => different (Prod.ext isKey.1 isKey.2))
      · rintro reached ⟨⟩
        exact ⟨rfl, { facts with
          progress := ⟨hasRound, isUnvoted, rfl, (stored _ _).trans (if_pos ⟨rfl, rfl⟩)⟩ }⟩
      · intro nodeId vote isStored
        rw [Table.lookup_insert_eq] at isStored
        grind [votes.storedEpoch]
      · intro round author vote isStored
        rw [storedVote, stored] at isStored
        grind [votes.metadata, Node.round, Node.author]
      · intro round author vote isRecent isRemembered
        rw [storedVote, stored, if_neg]
        · exact votes.remembered round author vote isRecent isRemembered
        · rintro ⟨rfl, rfl⟩
          exact absurd (isRemembered.symm.trans isUnvoted) (by simp)
      · intro round author vote isRecent isStored
        rw [storedVote, stored] at isStored
        split at isStored
        · rename_i isKey
          cases isStored
          exact .inr ⟨call, node, by simp [setCall], isKey.1.symm, isKey.2.symm⟩
        · rcases votes.persisted round author vote isRecent isStored with
            isRemembered | ⟨other, otherNode, wasSaved, isKey⟩
          · exact .inl isRemembered
          · exact .inr ⟨other, otherNode, saved_setCall (by simp [isStage]) wasSaved, isKey⟩
    · exact consistent.release_safe isStage (by simp)
  · exact safe_notEnabled

theorem Consistent.recordVote_safe : Safe env (handler.recordVote call) := by
  unfold recordVote
  split
  · rename_i node vote isStage
    have facts := consistent.calls call _ isStage
    obtain ⟨hasRound, isUnvoted, sameMetadata, isStored⟩ := facts.progress
    obtain ⟨ofRound, isRound⟩ := isSome_iff_exists.mp hasRound
    have recorded : ∀ round author, ((handler.votesByRoundPeer.insert node.round
          (ofRound.insert node.author vote)).get? round).bind (·.get? author) =
        if round = node.round ∧ author = node.author then some vote
        else handler.voteFor round author := by
      intro round author
      rw [get?_insert]
      by_cases sameRound : round = node.round
      · subst sameRound
        simp [get?_insert, voteFor, isRound]
      · simp [sameRound, voteFor]
    rw [isRound]
    apply safe_ok
    have votes := consistent.votes
    refine consistent.of_call isStage ⟨.refl _, rfl, rfl, ?_, ?_, fun _ _ _ => rfl⟩ rfl
      (fun _ isHeld _ => isHeld) ?_ ⟨votes.storedEpoch, votes.metadata, ?_, ?_, ?_, votes.single⟩
    · intro round wasRound
      simp only [get?_insert]
      split
      · rfl
      · exact wasRound
    · intro round author different
      exact (recorded round author).trans (if_neg fun isKey => different (Prod.ext isKey.1 isKey.2))
    · rintro reached ⟨⟩
      exact ⟨rfl, { facts with
        progress := ⟨sameMetadata, (recorded _ _).trans (if_pos ⟨rfl, rfl⟩)⟩ }⟩
    · intro round author other isRecent isRemembered
      rw [voteFor, recorded] at isRemembered
      split at isRemembered
      · rename_i isKey
        rw [isKey.1, isKey.2, ← isRemembered]
        exact isStored
      · exact votes.remembered round author other isRecent isRemembered
    · intro round author other isRecent otherStored
      rw [voteFor, recorded]
      by_cases isKey : round = node.round ∧ author = node.author
      · rw [isKey.1, isKey.2] at otherStored
        exact .inl ((if_pos isKey).trans (isStored.symm.trans otherStored))
      · rcases votes.persisted round author other isRecent otherStored with
          isRemembered | ⟨saver, otherNode, wasSaved, isSaver⟩
        · exact .inl ((if_neg isKey).trans isRemembered)
        · refine .inr ⟨saver, otherNode, ?_, isSaver⟩
          have different : saver ≠ call := by grind
          exact (update_of_ne different _ _).trans wasSaved
    · intro other isReturned isRecent
      have isRemembered := votes.returned other isReturned isRecent
      rw [voteFor, recorded, if_neg]
      · exact isRemembered
      · rintro ⟨sameRound, sameAuthor⟩
        rw [sameRound, sameAuthor, isUnvoted] at isRemembered
        cases isRemembered
  · exact safe_notEnabled

/-- The DAG may change as long as it keeps what is not pruned. -/
theorem Consistent.changeDag (keeps : handler.dag.Keeps dag) :
    Consistent env { handler with dag := dag } := by
  have facts := consistent.collector
  exact consistent.frame keeps rfl rfl (fun call stage isStage isPast =>
      ⟨(consistent.calls call stage isStage).recent isPast, id, rfl, rfl⟩)
    ⟨facts.collected_le.trans keeps.startRound_le, fun minRound isRead =>
      (facts.read_le minRound isRead).trans keeps.startRound_le, facts.deleting⟩
    (consistent.votes.frame rfl rfl rfl rfl fun _ _ _ => id)

theorem Consistent.countVote_safe : Safe env (handler.countVote call) := by
  unfold countVote
  split
  · rename_i node vote isStage
    have facts := consistent.calls call _ isStage
    have isKnown : (handler.dag.verifier.getVotingPower node.author).isSome :=
      consistent.verifier ▸ facts.isKnown
    have isOk : ∃ dag, handler.dag.updateVotes node false = .ok dag :=
      updateVotes_isOk isKnown (facts.parents rfl)
    obtain ⟨dag, voted⟩ := isOk
    rw [voted]
    have changed := consistent.changeDag (updateVotes_keeps voted)
    have wasStage : ({ handler with dag := dag } : Handler B).calls call =
        some (.recorded node vote) := isStage
    have changedFacts := changed.calls call _ wasStage
    exact safe_ok (changed.advance wasStage (by simp) rfl { changedFacts with })
  · exact safe_notEnabled

theorem Consistent.returnVote_safe : Safe env (handler.returnVote call) := by
  unfold returnVote
  split
  · rename_i node vote isStage
    have facts := consistent.calls call _ isStage
    obtain ⟨sameMetadata, isRemembered⟩ := facts.progress
    have answered : (handler.answer vote).Consistent env := by
      apply consistent.answers
      · rw [sameMetadata]
        exact facts.recent rfl
      · rw [sameMetadata]
        exact isRemembered
    exact answered.release_safe isStage (by simp)
  · exact safe_notEnabled

theorem Consistent.readLowestRound_safe : Safe env handler.readLowestRound := by
  unfold readLowestRound
  split
  · apply safe_ok
    refine consistent.frame (.refl _) rfl rfl (fun call stage isStage isPast =>
        ⟨(consistent.calls call stage isStage).recent isPast, id, rfl, rfl⟩)
      ⟨consistent.collector.collected_le, ?_, nofun⟩
      (consistent.votes.frame rfl rfl rfl rfl fun _ _ _ => id)
    rintro minRound ⟨⟩
    exact le_refl _
  · exact safe_notEnabled

end

/-- No call past its validation has a round that is about to be collected. -/
def NoneOvertaken (handler : Handler B) : Prop :=
  ∀ minRound, handler.collector = .readLowest minRound →
    ∀ call stage, handler.calls call = some stage →
      stage.isPastValidation = true → minRound ≤ stage.node.round

theorem voteFor_atLeast (handler : Handler B) {minRound : Nat} (isKept : minRound ≤ round)
    (author : Author) :
    ((handler.votesByRoundPeer.atLeast minRound).get? round).bind
      (·.get? author) = handler.voteFor round author := by
  rw [get?_atLeast, if_neg (Nat.not_lt.mpr isKept), voteFor]

theorem Consistent.splitOffVotes_safe (consistent : handler.Consistent env)
    (noneOvertaken : handler.NoneOvertaken) : Safe env (handler.splitOffVotes env.epoch) := by
  unfold splitOffVotes
  split
  · rename_i minRound isRead
    have overtaken := noneOvertaken minRound isRead
    apply safe_ok
    have kept : ∀ {round : Nat}, max handler.collectedBelow minRound ≤ round →
        handler.collectedBelow ≤ round ∧ minRound ≤ round :=
      fun isRecent => max_le_iff.mp isRecent
    refine consistent.frame (.refl _) rfl rfl ?_ ?_ ?_
    · intro call stage isStage isPast
      have isKept := overtaken call stage isStage isPast
      refine ⟨max_le ((consistent.calls call stage isStage).recent isPast) isKept, ?_,
        voteFor_atLeast handler isKept _, rfl⟩
      rw [get?_atLeast, if_neg (Nat.not_lt.mpr isKept)]
      exact id
    · refine ⟨max_le consistent.collector.collected_le
        (consistent.collector.read_le minRound isRead), by simp, ?_⟩
      intro nodeIds isDeleting nodeId isDeleted
      cases isDeleting
      obtain ⟨entry, isEntry, inEntry⟩ := mem_flatMap.mp isDeleted
      obtain ⟨author, _, rfl⟩ := mem_map.mp inEntry
      have isBelow := get?_eq_some_iff.mpr isEntry
      rw [get?_below] at isBelow
      split at isBelow
      · rename_i isLess
        exact lt_max_of_lt_right isLess
      · cases isBelow
    · have votes := consistent.votes
      refine ⟨votes.storedEpoch, votes.metadata, ?_, ?_, ?_, votes.single⟩
      · intro round author vote isRecent isRemembered
        rw [voteFor, voteFor_atLeast handler (kept isRecent).2] at isRemembered
        exact votes.remembered round author vote (kept isRecent).1 isRemembered
      · intro round author vote isRecent isStored
        rw [voteFor, voteFor_atLeast handler (kept isRecent).2]
        exact votes.persisted round author vote (kept isRecent).1 isStored
      · intro vote isReturned isRecent
        rw [voteFor, voteFor_atLeast handler (kept isRecent).2]
        exact votes.returned vote isReturned (kept isRecent).1
  · exact safe_notEnabled

theorem lookup_foldl_erase (storage : Table NodeId Vote) (nodeIds : List NodeId) (nodeId : NodeId) :
    (nodeIds.foldl (fun storage nodeId => storage.erase nodeId) storage).lookup nodeId =
        if nodeId ∈ nodeIds then none else storage.lookup nodeId := by
  induction nodeIds generalizing storage with
  | nil => simp
  | cons first rest inductionHypothesis =>
    rw [foldl_cons, inductionHypothesis, Table.lookup_erase_eq]
    by_cases isFirst : nodeId = first
    · simp [isFirst]
    · simp [isFirst]

theorem Consistent.deleteVotes_safe (consistent : handler.Consistent env)
    (isDeleted : Bool) : Safe env (handler.deleteVotes isDeleted) := by
  unfold deleteVotes
  split
  · rename_i nodeIds isDeleting
    apply safe_ok
    have collected := consistent.collector.deleting nodeIds isDeleting
    have collector := consistent.collector.collected_le
    have votes := consistent.votes
    cases isDeleted with
    | false =>
      exact consistent.frame (.refl _) rfl rfl (fun call stage isStage isPast =>
          ⟨(consistent.calls call stage isStage).recent isPast, id, rfl, rfl⟩)
        ⟨collector, nofun, nofun⟩ (votes.frame rfl rfl rfl rfl fun _ _ _ => id)
    | true =>
      have kept : ∀ round author, handler.collectedBelow ≤ round →
          (nodeIds.foldl (fun storage nodeId => storage.erase nodeId)
            handler.storage).lookup ⟨env.epoch, round, author⟩ =
              handler.storedVote env round author := by
        intro round author isRecent
        rw [lookup_foldl_erase, if_neg, storedVote]
        intro isErased
        exact absurd (collected _ isErased) (Nat.not_lt.mpr isRecent)
      have wasStored : ∀ {nodeId : NodeId} {vote : Vote},
          (nodeIds.foldl (fun storage nodeId => storage.erase nodeId)
            handler.storage).lookup nodeId = some vote →
              handler.storage.lookup nodeId = some vote := by
        intro nodeId vote isStored
        rw [lookup_foldl_erase] at isStored
        split at isStored
        · cases isStored
        · exact isStored
      refine consistent.frame (.refl _) rfl rfl ?_ ⟨collector, nofun, nofun⟩
        ⟨fun nodeId vote isStored => votes.storedEpoch nodeId vote (wasStored isStored),
          fun round author vote isStored => votes.metadata round author vote (wasStored isStored),
          ?_, ?_, votes.returned, votes.single⟩
      · intro call stage isStage isPast
        have isRecent := (consistent.calls call stage isStage).recent isPast
        exact ⟨isRecent, id, rfl, kept _ _ isRecent⟩
      · intro round author vote isRecent isRemembered
        exact (kept round author isRecent).trans
          (votes.remembered round author vote isRecent isRemembered)
      · intro round author vote isRecent isStored
        exact votes.persisted round author vote isRecent
          ((kept round author isRecent).symm.trans isStored)
  · exact safe_notEnabled

theorem Consistent.callStore_safe (consistent : handler.Consistent env)
    (storeCall : StoreCall B) : Safe env (handler.callStore storeCall) := by
  unfold callStore
  split
  · rename_i dag performed
    exact safe_ok (consistent.changeDag (perform_keeps performed))
  · exact safe_notEnabled

theorem get?_readVote (epoch : Nat) (votes : SortedMap Nat (SortedMap Author Vote))
    (entry : (_ : NodeId) × Vote) (round : Nat) (author : Author) :
    ((readVote epoch votes entry).get? round).bind (·.get? author) =
      if entry.1 = ⟨epoch, round, author⟩ then some entry.2
      else (votes.get? round).bind (·.get? author) := by
  obtain ⟨⟨entryEpoch, entryRound, entryAuthor⟩, vote⟩ := entry
  unfold readVote
  by_cases sameEpoch : entryEpoch = epoch
  · subst sameEpoch
    simp only [if_true, get?_insert, NodeId.mk.injEq, true_and]
    by_cases sameRound : round = entryRound
    · subst sameRound
      by_cases sameAuthor : author = entryAuthor
      · subst sameAuthor
        simp [get?_insert]
      · have notEntry : entryAuthor ≠ author := Ne.symm sameAuthor
        cases votes.get? round <;> simp [get?_insert, sameAuthor, notEntry]
    · have notEntry : entryRound ≠ round := Ne.symm sameRound
      simp [sameRound, notEntry]
  · simp [sameEpoch]

theorem get?_foldl_readVote (epoch : Nat) (votes : SortedMap Nat (SortedMap Author Vote))
    {entries : List ((_ : NodeId) × Vote)} (nodup : entries.NodupKeys)
    (round : Nat) (author : Author) :
    ((entries.foldl (readVote epoch) votes).get? round).bind (·.get? author) =
      (entries.dlookup ⟨epoch, round, author⟩).or ((votes.get? round).bind (·.get? author)) := by
  induction entries generalizing votes with
  | nil => simp
  | cons entry rest inductionHypothesis =>
    obtain ⟨isFirst, restNodup⟩ := nodupKeys_cons.mp nodup
    rw [foldl_cons, inductionHypothesis _ restNodup, get?_readVote]
    by_cases isKey : entry.1 = ⟨epoch, round, author⟩
    · have notInRest : rest.dlookup ⟨epoch, round, author⟩ = none := by
        rw [dlookup_eq_none, ← isKey]
        exact isFirst
      obtain ⟨key, vote⟩ := entry
      cases isKey
      simp [notInRest]
    · obtain ⟨key, vote⟩ := entry
      rw [if_neg isKey, dlookup_cons_ne _ _ (Ne.symm isKey)]

theorem voteFor_new (dag : InMemDag B) (storage : Table NodeId Vote)
    (round : Nat) (author : Author) :
    (new dag storage).voteFor round author = storage.lookup ⟨dag.epoch, round, author⟩ := by
  have read := get?_foldl_readVote dag.epoch .empty storage.nodupKeys round author
  rw [get?_empty, bind_none, or_none] at read
  exact read

theorem Consistent.restart_safe (consistent : handler.Consistent env)
    (notLower : handler.collectedBelow ≤ dag.startRound) : Safe env (handler.restart dag) := by
  unfold restart
  refine safe_ensure fun isSame => ?_
  have sameEpoch : dag.epoch = env.epoch := isSame.1.trans consistent.epoch
  have voteFor_eq : ∀ round author, (new dag handler.storage).voteFor round author =
      handler.storedVote env round author := by
    intro round author
    rw [voteFor_new, sameEpoch, storedVote]
  have stored_eq : ∀ round author, (new dag handler.storage).storedVote env round author =
      handler.storedVote env round author := by
    intro round author
    rw [storedVote, storedVote, new, Table.lookup_retain, sameEpoch]
    cases handler.storage.lookup ⟨env.epoch, round, author⟩ <;> simp
  have votes := consistent.votes
  apply safe_ok
  refine ⟨sameEpoch, isSame.2.trans consistent.verifier,
    ⟨notLower, by simp [new], by simp [new]⟩, ?_, by simp [new], by simp [new]⟩
  refine ⟨?_, ?_, ?_, ?_, ?_, votes.single⟩
  · intro nodeId vote isStored
    simp only [new, Table.lookup_retain, filter_eq_some_iff, beq_iff_eq] at isStored
    exact isStored.2.trans sameEpoch
  · intro round author vote isStored
    exact votes.metadata round author vote ((stored_eq round author).symm.trans isStored)
  · intro round author vote _ isRemembered
    exact (stored_eq round author).trans ((voteFor_eq round author).symm.trans isRemembered)
  · intro round author vote _ isStored
    exact .inl ((voteFor_eq round author).trans ((stored_eq round author).symm.trans isStored))
  · intro vote isReturned isRecent
    exact (voteFor_eq _ _).trans (votes.remembered _ _ vote isRecent
      (votes.returned vote isReturned isRecent))

end Actions

/-- Nodes come from validators of the epoch, the collection overtakes no call past its
validation, and restarts do not go back to collected rounds. -/
def Calm (env : HandlerEnv B) (handler : Handler B) : Action B → Prop
  | .receive _ _ node _ => (env.verifier.getVotingPower node.author).isSome
  | .splitOffVotes => handler.NoneOvertaken
  | .restart dag => handler.collectedBelow ≤ dag.startRound
  | _ => True

theorem Consistent.perform_safe {env : HandlerEnv B} {handler : Handler B}
    (consistent : handler.Consistent env) {action : Action B} (calm : Calm env handler action) :
    Safe env (handler.perform env action) := by
  cases action with
  | receive => exact consistent.receive_safe calm
  | validateNode => exact consistent.validateNode_safe
  | lookUpVote => exact consistent.lookUpVote_safe
  | saveVote call isSaved => exact consistent.saveVote_safe isSaved
  | recordVote => exact consistent.recordVote_safe
  | countVote => exact consistent.countVote_safe
  | returnVote => exact consistent.returnVote_safe
  | readLowestRound => exact consistent.readLowestRound_safe
  | splitOffVotes => exact consistent.splitOffVotes_safe calm
  | deleteVotes isDeleted => exact consistent.deleteVotes_safe isDeleted
  | callStore call => exact consistent.callStore_safe call
  | restart => exact consistent.restart_safe calm

/-- A handler at the start of the epoch has no votes. -/
theorem new_consistent {env : HandlerEnv B} (sameEpoch : dag.epoch = env.epoch)
    (sameVerifier : dag.verifier = env.verifier) : (new dag ∅).Consistent env where
  epoch := sameEpoch
  verifier := sameVerifier
  collector := ⟨Nat.zero_le _, by simp [new], by simp [new]⟩
  votes := by
    have unvoted : ∀ round author, (new dag ∅).voteFor round author = none :=
      fun round author => voteFor_new dag ∅ round author
    have unstored : ∀ nodeId, (new dag ∅).storage.lookup nodeId = none := fun _ => rfl
    exact ⟨by simp [unstored], by simp [storedVote, unstored],
      by simp [unvoted], by simp [storedVote, unstored], by simp [new],
      by simp [new]⟩
  calls := by simp [new]
  distinct := by simp [new]

/-- In every calm run, votes returned for one round and author have one digest, and nothing
panics. -/
theorem returned_single_of_calm {env : HandlerEnv B} {dag : InMemDag B} {actions : List (Action B)}
    (sameEpoch : dag.epoch = env.epoch) (sameVerifier : dag.verifier = env.verifier)
    (calm : RunMeets (perform env) (Calm env) (new dag ∅) actions) :
    runAll (perform env) (new dag ∅) actions ≠ .error .panic ∧
      ∀ reached, runAll (perform env) (new dag ∅) actions = .ok reached →
        ∀ vote ∈ reached.returned, ∀ other ∈ reached.returned,
          vote.metadata.round = other.metadata.round →
            vote.metadata.author = other.metadata.author →
              vote.metadata.digest = other.metadata.digest := by
  have ⟨notPanic, keeps⟩ := calm.safe (·.Consistent env)
    (new_consistent sameEpoch sameVerifier) fun _ _ _ keeps calm => keeps.perform_safe calm
  exact ⟨notPanic, fun reached ran => (keeps reached ran).votes.single⟩

namespace Toy

/-- One validator with all of the voting power. -/
def verifier : ValidatorVerifier := .new [⟨0, [], 1⟩]

def env : HandlerEnv Unit where
  epoch := 1
  verifier := verifier
  hash := fun node => Fin.ofNat _ node.timestamp
  bls := .ofEmpty _
  signer := []
  numValidatorTxns := fun _ => 0
  validatorTxnsValid := fun _ => true
  validatorTxnBytes := fun _ => 0
  payloadLen := fun _ => 0
  payloadSize := fun _ => 0
  perBlockLimitTxnCount := 0
  perBlockLimitTotalBytes := 0
  maxReceivingTxnsPerRound := 0
  maxReceivingSizePerRoundBytes := 0

def node (round : Nat) (author : Author) (timestamp : Nat)
    (parents : List NodeCertificate) : Node Unit :=
  ⟨⟨1, round, author, timestamp, Fin.ofNat _ timestamp⟩, (), parents⟩

def certified : CertifiedNode Unit := ⟨node 1 0 10 [], .empty⟩

def start : InMemDag Unit := .newEmpty 1 verifier 1 1

/-- The steps of a call after its validation. -/
def votes (call : Nat) : List (Action Unit) :=
  [.lookUpVote call, .saveVote call true, .recordVote call, .countVote call, .returnVote call]

/-- The DAG is pruned and the votes are collected. -/
def collects : List (Action Unit) :=
  [.callStore (.commitCallback 10), .readLowestRound, .splitOffVotes, .deleteVotes true]

/-- The second call is validated before the vote of the first is collected. -/
def votesTwice : List (Action Unit) :=
  [.receive 0 0 (node 1 0 10 []) false, .validateNode 0] ++ votes 0 ++
    [.receive 1 0 (node 1 0 11 []) false, .validateNode 1] ++ collects ++ votes 1

/-- The round is collected between the lookup and the record of the vote. -/
def losesRound : List (Action Unit) :=
  [.receive 0 0 (node 1 0 10 []) false, .validateNode 0, .lookUpVote 0,
    .saveVote 0 true] ++ collects ++ [.recordVote 0]

def unknownAuthor : List (Action Unit) := [.callStore (.validateNewNode certified),
    .callStore (.addValidatedNode certified),
    .receive 0 9 (node 2 9 12 [certified.certificate]) false,
    .validateNode 0, .lookUpVote 0, .saveVote 0 true, .recordVote 0,
    .countVote 0]

theorem votes_twice_and_panics : (runAll (perform env) (new start ∅) votesTwice).map (fun reached =>
        reached.returned.map fun vote => (vote.metadata.round,
          vote.metadata.author, vote.metadata.digest)) = .ok [(1, 0, 11), (1, 0, 10)] ∧
    runAll (perform env) (new start ∅) losesRound = .error .panic ∧
    runAll (perform env) (new start ∅) unknownAuthor = .error .panic :=
  ⟨rfl, rfl, rfl⟩

/-- A vote is returned, and again after a restart; the third node comes after the collection. -/
def calmRun : List (Action Unit) :=
  [.receive 0 0 (node 1 0 10 []) false, .validateNode 0] ++ votes 0 ++
    [.restart start, .receive 1 0 (node 1 0 11 []) false, .validateNode 1, .lookUpVote 1] ++
    collects ++ [.receive 2 0 (node 1 0 12 []) false, .validateNode 2]

theorem noneOvertaken_of_noCalls {handler : Handler Unit}
    (noCalls : ∀ call, handler.calls call = none) : handler.NoneOvertaken := by
  intro _ _ call stage isStage
  rw [noCalls call] at isStage
  cases isStage

theorem calmRun_meets : RunMeets (perform env) (Calm env) (new start ∅) calmRun := by
  refine cons rfl rfl ?_
  iterate 6 refine cons rfl trivial ?_
  refine cons rfl (Nat.zero_le _) ?_
  refine cons rfl rfl ?_
  iterate 4 refine cons rfl trivial ?_
  refine cons rfl (noneOvertaken_of_noCalls ?_) ?_
  · intro call
    cases call with
    | zero => rfl
    | succ call => cases call <;> rfl
  refine cons rfl trivial ?_
  refine cons rfl rfl ?_
  exact cons rfl trivial trivial

theorem calm_run_returns_single : ∃ reached, runAll (perform env) (new start ∅) calmRun =
      .ok reached ∧ reached.returned.length = 2 ∧
    ∀ vote ∈ reached.returned, ∀ other ∈ reached.returned,
      vote.metadata.round = other.metadata.round → vote.metadata.author = other.metadata.author →
        vote.metadata.digest = other.metadata.digest :=
  ⟨_, rfl, rfl, (returned_single_of_calm rfl rfl calmRun_meets).2 _ rfl⟩

end Toy

end Handler

end LumioNode.Dag
