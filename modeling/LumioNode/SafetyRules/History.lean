import LumioNode.SafetyRules.Calls

/-! # The signing history of one validator

Without storage, cache and failures, safety data change only by the transitions `Step`,
which record what they let the validator sign; `Consistent` relates the log to the data. -/

namespace LumioNode.SafetyRules

open List

/-- Something that was signed after the safety data allowed it. -/
inductive Signed where
  | vote (vote : Vote)
  | orderVote (proposal : OrderVoteProposal) (vote : OrderVote)
  | timeout (timeout : TwoChainTimeout)

namespace Signed

def epoch : Signed → Nat
  | .vote cast => cast.epoch
  | .orderVote proposal _ => proposal.block.epoch
  | .timeout expired => expired.epoch

end Signed

/-- One transition of the safety data and what is signed with it. -/
inductive Step (before : SafetyData) : Option Signed → SafetyData → Prop
  | stay : Step before none before
  | newEpoch (epoch : Nat) (later : before.epoch < epoch) :
      Step before none (newEpochData epoch)
  | vote (vote : Vote) (twoChain : Nat)
      (epochEq : vote.epoch = before.epoch)
      (newRound : before.lastVotedRound < vote.round) :
      Step before (some (.vote vote))
        { before with
          lastVotedRound := vote.round
          oneChainRound := max before.oneChainRound vote.voteData.parent.round
          preferredRound := max before.preferredRound twoChain
          lastVote := some vote }
  | orderVote (proposal : OrderVoteProposal) (vote : OrderVote)
      (epochEq : proposal.block.epoch = before.epoch)
      (safe : before.highestTimeoutRound < proposal.block.round) :
      Step before (some (.orderVote proposal vote))
        { before with
          oneChainRound := max before.oneChainRound proposal.quorumCert.certifiedBlock.round
          preferredRound := max before.preferredRound proposal.quorumCert.parentBlock.round }
  | timeout (timeout : TwoChainTimeout)
      (epochEq : timeout.epoch = before.epoch)
      (oneChain : before.oneChainRound ≤ timeout.hqcRound)
      (lastVoted : before.lastVotedRound ≤ timeout.round) :
      Step before (some (.timeout timeout))
        { before with
          lastVotedRound := timeout.round
          highestTimeoutRound := max before.highestTimeoutRound timeout.round }

structure RoundsLe (earlier later : SafetyData) : Prop where
  lastVotedRound : earlier.lastVotedRound ≤ later.lastVotedRound
  oneChainRound : earlier.oneChainRound ≤ later.oneChainRound
  preferredRound : earlier.preferredRound ≤ later.preferredRound
  highestTimeoutRound : earlier.highestTimeoutRound ≤ later.highestTimeoutRound

theorem RoundsLe.refl (data : SafetyData) : RoundsLe data data := ⟨le_rfl, le_rfl, le_rfl, le_rfl⟩

theorem RoundsLe.trans {first second third : SafetyData} (left : RoundsLe first second)
    (right : RoundsLe second third) : RoundsLe first third :=
  ⟨left.1.trans right.1, left.2.trans right.2, left.3.trans right.3, left.4.trans right.4⟩

variable {before after data : SafetyData}

theorem Step.epoch_le {signed : Option Signed}
    (step : Step before signed after) : before.epoch ≤ after.epoch := by
  cases step with
  | newEpoch epoch later => exact Nat.le_of_lt later
  | stay | vote | orderVote | timeout => exact le_rfl

theorem Step.roundsLe {signed : Option Signed} (step : Step before signed after)
    (sameEpoch : before.epoch = after.epoch) : RoundsLe before after := by
  cases step with
  | stay => exact RoundsLe.refl _
  | newEpoch epoch later => exact absurd sameEpoch (Nat.ne_of_lt later)
  | vote vote twoChain epochEq newRound =>
    exact ⟨Nat.le_of_lt newRound, le_max_left _ _, le_max_left _ _, le_rfl⟩
  | orderVote =>
    exact ⟨le_rfl, le_max_left _ _, le_max_left _ _, le_rfl⟩
  | timeout timeout epochEq oneChain lastVoted =>
    exact ⟨lastVoted, le_rfl, le_rfl, le_max_left _ _⟩

/-- The safety data remember what a signature of their epoch committed to. -/
def Remembers (data : SafetyData) : Signed → Prop
  | .vote vote =>
    vote.round ≤ data.lastVotedRound ∧ vote.voteData.parent.round ≤ data.oneChainRound
  | .orderVote proposal _ =>
    proposal.quorumCert.certifiedBlock.round ≤ data.oneChainRound
  | .timeout timeout =>
    timeout.round ≤ data.lastVotedRound ∧ timeout.round ≤ data.highestTimeoutRound

/-- What a signature owes to an older one of the same epoch. -/
def Respects : (newer older : Signed) → Prop
  | .vote newer, .vote older => older.round < newer.round
  | .vote newer, .timeout older => older.round < newer.round
  | .orderVote newer _, .timeout older => older.round < newer.block.round
  | .timeout newer, .vote older =>
    older.voteData.parent.round ≤ newer.hqcRound
  | .timeout newer, .orderVote older _ =>
    older.quorumCert.certifiedBlock.round ≤ newer.hqcRound
  | _, _ => True

variable {signed : Signed}

theorem Remembers.mono {earlier later : SafetyData} (remembers : Remembers earlier signed)
    (rounds : RoundsLe earlier later) : Remembers later signed := by
  cases signed with
  | vote =>
    exact ⟨remembers.1.trans rounds.lastVotedRound, remembers.2.trans rounds.oneChainRound⟩
  | orderVote =>
    exact Nat.le_trans remembers rounds.oneChainRound
  | timeout =>
    exact ⟨remembers.1.trans rounds.lastVotedRound, remembers.2.trans rounds.highestTimeoutRound⟩

/-- What the data remember, a new signature respects. -/
theorem Step.respects {newer older : Signed} (step : Step before (some newer) after)
    (remembers : Remembers before older) : Respects newer older := by
  cases step with
  | vote vote twoChain epochEq newRound =>
    cases older with
    | vote => exact Nat.lt_of_le_of_lt remembers.1 newRound
    | orderVote => trivial
    | timeout => exact Nat.lt_of_le_of_lt remembers.1 newRound
  | orderVote proposal vote epochEq safe =>
    cases older with
    | vote | orderVote => trivial
    | timeout => exact Nat.lt_of_le_of_lt remembers.2 safe
  | timeout timeout epochEq oneChain =>
    cases older with
    | vote => exact remembers.2.trans oneChain
    | orderVote => exact Nat.le_trans remembers oneChain
    | timeout => trivial

theorem Step.remembers (step : Step before (some signed) after) : Remembers after signed := by
  cases step with
  | vote => exact ⟨le_rfl, le_max_right _ _⟩
  | orderVote => exact le_max_right _ _
  | timeout => exact ⟨le_rfl, le_max_right _ _⟩

theorem Step.epoch_eq (step : Step before (some signed) after) :
    signed.epoch = before.epoch ∧ after.epoch = before.epoch := by
  cases step with
  | vote vote twoChain epochEq => exact ⟨epochEq, rfl⟩
  | orderVote proposal vote epochEq => exact ⟨epochEq, rfl⟩
  | timeout timeout epochEq => exact ⟨epochEq, rfl⟩

/-- The safety data and the log of everything signed so far, newest first. -/
structure Consistent (data : SafetyData) (log : List Signed) : Prop where
  epochLe : ∀ signed ∈ log, signed.epoch ≤ data.epoch
  remembers : ∀ signed ∈ log, signed.epoch = data.epoch → Remembers data signed
  lastVote : ∀ vote, data.lastVote = some vote → Signed.vote vote ∈ log
  respects : log.Pairwise fun newer older =>
      newer.epoch = older.epoch → Respects newer older

theorem consistent_newEpoch (epoch : Nat) : Consistent (newEpochData epoch) [] where
  epochLe := by simp
  remembers := by simp
  lastVote := by simp [newEpochData]
  respects := List.Pairwise.nil

variable {log : List Signed}

/-- A transition that signs nothing keeps the log. -/
theorem Consistent.silent (consistent : Consistent before log) (step : Step before none after) :
    Consistent after log := by
  cases step with
  | stay => exact consistent
  | newEpoch epoch later =>
    have older : ∀ signed ∈ log, signed.epoch < epoch := fun signed member =>
        Nat.lt_of_le_of_lt (consistent.epochLe signed member) later
    refine ⟨?_, ?_, ?_, consistent.respects⟩
    · intro signed member
      exact Nat.le_of_lt (older signed member)
    · intro signed member sameEpoch
      exact absurd sameEpoch (Nat.ne_of_lt (older signed member))
    · nofun

/-- A transition that signs something extends the log. -/
theorem Consistent.signs (consistent : Consistent before log)
    (step : Step before (some signed) after) : Consistent after (signed :: log) := by
  obtain ⟨signedEpoch, afterEpoch⟩ := step.epoch_eq
  refine ⟨?_, ?_, ?_, ?_⟩
  · intro older member
    rcases mem_cons.mp member with rfl | inLog
    · rw [signedEpoch, afterEpoch]
    · rw [afterEpoch]
      exact consistent.epochLe older inLog
  · intro older member sameEpoch
    rcases mem_cons.mp member with rfl | inLog
    · exact step.remembers
    · rw [afterEpoch] at sameEpoch
      exact (consistent.remembers older inLog sameEpoch).mono (step.roundsLe afterEpoch.symm)
  · intro vote isLast
    cases step with
    | vote =>
      cases isLast
      exact mem_cons_self ..
    | orderVote | timeout =>
      exact mem_cons_of_mem _ (consistent.lastVote vote isLast)
  · refine pairwise_cons.mpr ⟨?_, consistent.respects⟩
    intro older member sameEpoch
    exact step.respects (consistent.remembers older member (sameEpoch ▸ signedEpoch))

/-- Of two entries of the log, one is newer. -/
theorem Consistent.respects_or {left right : Signed} (consistent : Consistent data log)
    (leftMember : left ∈ log) (rightMember : right ∈ log) (sameEpoch : left.epoch = right.epoch) :
    left = right ∨ Respects left right ∨ Respects right left := by
  have symmetric : log.Pairwise fun left right => left.epoch = right.epoch →
      Respects left right ∨ Respects right left :=
    consistent.respects.imp fun respects sameEpoch =>
      .inl (respects sameEpoch)
  have : Std.Symm fun left right : Signed => left.epoch = right.epoch →
      Respects left right ∨ Respects right left :=
    ⟨fun _ _ relation sameEpoch => (relation sameEpoch.symm).symm⟩
  by_cases same : left = right
  · exact .inl same
  · exact .inr (symmetric.forall leftMember rightMember same sameEpoch)

theorem Consistent.vote_unique {left right : Vote} (consistent : Consistent data log)
    (leftMember : Signed.vote left ∈ log) (rightMember : Signed.vote right ∈ log)
    (sameEpoch : left.epoch = right.epoch) (sameRound : left.round = right.round) :
    left = right := by
  rcases consistent.respects_or leftMember rightMember sameEpoch with
    same | newer | older
  · exact Signed.vote.inj same
  · exact absurd sameRound (Nat.ne_of_gt newer)
  · exact absurd sameRound (Nat.ne_of_lt older)

end LumioNode.SafetyRules
