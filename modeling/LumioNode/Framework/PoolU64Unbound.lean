import LumioNode.Framework.Move
import LumioNode.Library.ProRata

/-! # Share pools

Every amount is rounded in favour of the pool, so no call lowers the price of a share. -/

namespace LumioNode.Framework

open Library List

def maxU64 : Nat := 2 ^ 64 - 1

def maxU128 : Nat := 2 ^ 128 - 1

/-- The error codes that the calls below abort with. -/
inductive PoolError where
  | shareholderNotFound
  | insufficientShares
  | shareholderSharesOverflow
  | poolTotalCoinsOverflow
  | poolTotalSharesOverflow

def PoolError.code : PoolError → Nat
  | .shareholderNotFound => 1
  | .insufficientShares => 4
  | .shareholderSharesOverflow => 5
  | .poolTotalCoinsOverflow => 6
  | .poolTotalSharesOverflow => 7

def PoolError.abort (error : PoolError) : Abort := .invalidArgument error.code

structure Pool where
  totalCoins : Nat
  totalShares : Nat
  shares : Table Nat Nat
  scalingFactor : Nat

namespace Pool

def createWithScalingFactor (scalingFactor : Nat) : Pool := ⟨0, 0, ∅, scalingFactor⟩

variable (pool : Pool)

def sharesOf (shareholder : Nat) : Nat := (pool.shares.lookup shareholder).getD 0

/-- `math128::mul_div`. -/
def multiplyThenDivide (x y z : Nat) : Except Abort Nat := do
  ensure (z ≠ 0) (.invalidArgument 4)
  checked 128 (x * y / z)

def amountToShares (coinsAmount : Nat) : Except Abort Nat :=
  if pool.totalCoins = 0 ∨ pool.totalShares = 0 then checked 128 (coinsAmount * pool.scalingFactor)
  else multiplyThenDivide coinsAmount pool.totalShares pool.totalCoins

def sharesToAmount (shares : Nat) : Except Abort Nat :=
  if pool.totalCoins = 0 ∨ pool.totalShares = 0 then .ok 0
  else do
    let amount ← multiplyThenDivide shares pool.totalCoins pool.totalShares
    checked 64 amount

def balance (shareholder : Nat) : Except Abort Nat :=
  pool.sharesToAmount (pool.sharesOf shareholder)

def addShares (shareholder newShares : Nat) : Except Abort Pool :=
  match pool.shares.lookup shareholder with
  | some currentShares => do
    ensure (newShares ≤ maxU128 - currentShares) PoolError.shareholderSharesOverflow.abort
    .ok { pool with shares := pool.shares.insert shareholder (currentShares + newShares) }
  | none =>
    if 0 < newShares then .ok { pool with shares := pool.shares.insert shareholder newShares }
    else .ok pool

def deductShares (shareholder numShares : Nat) : Except Abort Pool := do
  let existingShares ← expect PoolError.shareholderNotFound.abort (pool.shares.lookup shareholder)
  ensure (numShares ≤ existingShares) PoolError.insufficientShares.abort
  .ok { pool with shares := if existingShares - numShares = 0 then pool.shares.erase shareholder
    else pool.shares.insert shareholder (existingShares - numShares) }

def buyIn (shareholder coinsAmount : Nat) : Except Abort (Nat × Pool) :=
  if coinsAmount = 0 then .ok (0, pool)
  else do
    let newShares ← pool.amountToShares coinsAmount
    ensure (coinsAmount ≤ maxU64 - pool.totalCoins) PoolError.poolTotalCoinsOverflow.abort
    ensure (newShares ≤ maxU128 - pool.totalShares) PoolError.poolTotalSharesOverflow.abort
    let after ← { pool with totalCoins := pool.totalCoins + coinsAmount
                            totalShares := pool.totalShares + newShares }.addShares
      shareholder newShares
    .ok (newShares, after)

def redeemShares (shareholder sharesToRedeem : Nat) : Except Abort (Nat × Pool) := do
  let existingShares ← expect PoolError.shareholderNotFound.abort (pool.shares.lookup shareholder)
  ensure (sharesToRedeem ≤ existingShares) PoolError.insufficientShares.abort
  if sharesToRedeem = 0 then .ok (0, pool)
  else do
    let redeemedCoins ← pool.sharesToAmount sharesToRedeem
    let totalCoins ← minus pool.totalCoins redeemedCoins
    let totalShares ← minus pool.totalShares sharesToRedeem
    let after ← { pool with totalCoins := totalCoins
                            totalShares := totalShares }.deductShares shareholder sharesToRedeem
    .ok (redeemedCoins, after)

def transferShares (shareholder1 shareholder2 sharesToTransfer : Nat) : Except Abort Pool := do
  let existingShares ← expect PoolError.shareholderNotFound.abort (pool.shares.lookup shareholder1)
  ensure (sharesToTransfer ≤ existingShares) PoolError.insufficientShares.abort
  if sharesToTransfer = 0 then .ok pool
  else do
    let deducted ← pool.deductShares shareholder1 sharesToTransfer
    deducted.addShares shareholder2 sharesToTransfer

inductive Call where
  | buyIn (shareholder coinsAmount : Nat)
  | redeemShares (shareholder sharesToRedeem : Nat)
  | transferShares (shareholder1 shareholder2 sharesToTransfer : Nat)
  | updateTotalCoins (newTotalCoins : Fin (2 ^ 64))

def perform : Call → Except Abort Pool
  | .buyIn shareholder coinsAmount => (pool.buyIn shareholder coinsAmount).map Prod.snd
  | .redeemShares shareholder sharesToRedeem =>
    (pool.redeemShares shareholder sharesToRedeem).map Prod.snd
  | .transferShares shareholder1 shareholder2 sharesToTransfer =>
    pool.transferShares shareholder1 shareholder2 sharesToTransfer
  | .updateTotalCoins newTotalCoins => .ok { pool with totalCoins := newTotalCoins }

def NonDecreasing : Call → Prop
  | .updateTotalCoins newTotalCoins => pool.totalCoins ≤ newTotalCoins
  | _ => True

/-- Whose balance a call may lower; an update is made by none. -/
def Call.parties : Call → List Nat
  | .buyIn shareholder _ => [shareholder]
  | .redeemShares shareholder _ => [shareholder]
  | .transferShares shareholder1 shareholder2 _ => [shareholder1, shareholder2]
  | .updateTotalCoins _ => []

/-- What the shareholders own together. -/
def owned : Nat := pool.shares.total fun _ shares => shares

/-- The shares add up, and a pool with shares has coins. -/
structure Sound : Prop where
  total : pool.owned = pool.totalShares
  coins : 0 < pool.totalShares → 0 < pool.totalCoins
  coinsFit : pool.totalCoins < 2 ^ 64
  sharesFit : pool.totalShares < 2 ^ 128

variable {pool} {after : Pool}

structure Changes (pool after : Pool) (shareholder : Nat) : Prop where
  coins : after.totalCoins = pool.totalCoins
  shares : after.totalShares = pool.totalShares
  total : after.owned + pool.sharesOf shareholder = pool.owned + after.sharesOf shareholder
  others : ∀ other ≠ shareholder, after.sharesOf other = pool.sharesOf other

theorem owned_insert (pool : Pool) (shareholder value : Nat) :
    ({ pool with shares := pool.shares.insert shareholder value } : Pool).owned +
      pool.sharesOf shareholder = pool.owned + value := by
  unfold owned sharesOf
  cases found : pool.shares.lookup shareholder with
  | none => simp [Table.total_add _ found]
  | some => exact Table.total_replace (fun _ shares => shares) found value

theorem changes_insert (pool : Pool) (shareholder value : Nat) :
    Changes pool { pool with shares := pool.shares.insert shareholder value } shareholder := by
  refine ⟨rfl, rfl, ?_, ?_⟩
  · rw [owned_insert]
    simp [sharesOf]
  · intro other different
    simp [sharesOf, different]

variable {shareholder newShares : Nat}

theorem addShares_spec (added : pool.addShares shareholder newShares = .ok after) :
    Changes pool after shareholder ∧
      after.sharesOf shareholder = pool.sharesOf shareholder + newShares := by
  unfold addShares at added
  split at added
  · rename_i current found
    obtain ⟨_, _, isAfter⟩ := of_bind added
    cases isAfter
    exact ⟨changes_insert .., by simp [sharesOf, found]⟩
  · rename_i absent
    split at added
    · cases added
      exact ⟨changes_insert .., by simp [sharesOf, absent]⟩
    · cases added
      exact ⟨⟨rfl, rfl, rfl, fun _ _ => rfl⟩, by omega⟩

theorem deductShares_spec {numShares : Nat}
    (deducted : pool.deductShares shareholder numShares = .ok after) :
    Changes pool after shareholder ∧
      after.sharesOf shareholder + numShares = pool.sharesOf shareholder := by
  obtain ⟨existing, isExisting, rest⟩ := of_bind deducted
  obtain ⟨atMost, isAfter⟩ := of_ensure_bind rest
  have found := expect_eq_ok.mp isExisting
  cases isAfter
  split
  · rename_i isAll
    have owns : pool.sharesOf shareholder = existing := by simp [sharesOf, found]
    refine ⟨⟨rfl, rfl, ?_, ?_⟩, ?_⟩
    · have split := Table.total_of_lookup (fun _ shares => shares) found
      simp only [owned, sharesOf, AList.lookup_erase, found, Option.getD_some, Option.getD_none]
      omega
    · intro other different
      simp [sharesOf, different]
    · rw [owns]
      simp only [sharesOf, AList.lookup_erase, Option.getD_none]
      omega
  · refine ⟨changes_insert .., ?_⟩
    simp only [sharesOf, AList.lookup_insert, found, Option.getD_some]
    omega

theorem sharesOf_le_owned (pool : Pool) (shareholder : Nat) :
    pool.sharesOf shareholder ≤ pool.owned := by
  unfold sharesOf owned
  cases found : pool.shares.lookup shareholder with
  | none => exact Nat.zero_le _
  | some =>
    rw [Table.total_of_lookup _ found]
    exact Nat.le_add_right _ _

theorem Sound.sharesToAmount (sound : pool.Sound) {shares : Nat}
    (atMost : shares ≤ pool.totalShares) :
    pool.sharesToAmount shares = .ok (portion shares pool.totalShares pool.totalCoins) := by
  have isPart := (portion_le atMost pool.totalCoins).trans_lt sound.coinsFit
  unfold Pool.sharesToAmount
  split
  · rename_i isZero
    rcases isZero with isZero | isZero <;> simp [portion, isZero]
  · rename_i isPos
    rw [multiplyThenDivide, ensure_of (not_or.mp isPos).2, ok_bind]
    unfold portion at isPart ⊢
    rw [checked_of (isPart.trans (by decide)), ok_bind, checked_of isPart]

theorem Sound.balance (sound : pool.Sound) (shareholder : Nat) : pool.balance shareholder =
    .ok (portion (pool.sharesOf shareholder) pool.totalShares pool.totalCoins) :=
  sound.sharesToAmount (sound.total ▸ pool.sharesOf_le_owned shareholder)

/-- No share loses value, and only the parties have other shares. -/
structure Fair (pool after : Pool) (parties : List Nat) : Prop where
  price : pool.totalShares = 0 ∨ after.totalShares = 0 ∨
    pool.totalCoins * after.totalShares ≤ after.totalCoins * pool.totalShares
  others : ∀ other ∉ parties, after.sharesOf other = pool.sharesOf other

theorem Fair.refl (pool : Pool) (parties : List Nat) : Fair pool pool parties :=
  ⟨.inr (.inr le_rfl), fun _ _ => rfl⟩

theorem Fair.portion_le {parties : List Nat} (fair : Fair pool after parties)
    (sound : after.Sound) {other : Nat} (isOther : other ∉ parties) :
    portion (pool.sharesOf other) pool.totalShares pool.totalCoins ≤
      portion (after.sharesOf other) after.totalShares after.totalCoins := by
  rw [fair.others other isOther]
  rcases Nat.eq_zero_or_pos after.totalShares with isEmpty | isPos
  · have owns := after.sharesOf_le_owned other
    rw [sound.total, isEmpty, fair.others other isOther] at owns
    simp [portion, Nat.le_zero.mp owns]
  · rcases fair.price with isEmpty | isEmpty | price
    · simp [portion, isEmpty]
    · omega
    · exact portion_mono isPos price

section

variable (sound : pool.Sound)

include sound

/-- What a buy-in does; without coins it does nothing. -/
theorem Sound.buyIn {coinsAmount : Nat}
    (bought : pool.buyIn shareholder coinsAmount = .ok (newShares, after)) :
    after.Sound ∧ Fair pool after [shareholder] ∧ after.totalCoins = pool.totalCoins + coinsAmount ∧
      after.totalShares = pool.totalShares + newShares ∧
      (pool.totalShares ≠ 0 → newShares * pool.totalCoins ≤ coinsAmount * pool.totalShares) := by
  unfold Pool.buyIn at bought
  split at bought
  · rename_i isZero
    cases bought
    exact ⟨sound, .refl .., by simp [isZero], rfl, by simp⟩
  rename_i isPos
  simp only [bind_eq_ok, ensure_eq_ok] at bought
  obtain ⟨shares, isShares, _, coinsFit, _, sharesFit, result, added, isResult⟩ := bought
  cases isResult
  obtain ⟨changes, isAdded⟩ := addShares_spec added
  have coins := changes.coins
  have shares := changes.shares
  dsimp only at coins shares
  have price (isShared : pool.totalShares ≠ 0) :
      newShares * pool.totalCoins ≤ coinsAmount * pool.totalShares := by
    have isPaid := (sound.coins (Nat.pos_of_ne_zero isShared)).ne'
    simp only [amountToShares, isShared, isPaid, or_self, if_false, multiplyThenDivide, bind_eq_ok,
      checked_eq_ok] at isShares
    obtain ⟨_, _, _, rfl⟩ := isShares
    exact portion_mul_le ..
  refine ⟨⟨?_, ?_, ?_, ?_⟩, ⟨?_, ?_⟩, coins, shares, price⟩
  · have total := changes.total
    have wasTotal := sound.total
    change _ + pool.sharesOf shareholder = pool.owned + _ at total
    change _ = pool.sharesOf shareholder + newShares at isAdded
    omega
  · omega
  · have fits := sound.coinsFit
    unfold maxU64 at coinsFit
    omega
  · have fits := sound.sharesFit
    unfold maxU128 at sharesFit
    omega
  · by_cases isShared : pool.totalShares = 0
    · exact .inl isShared
    · have atMost := price isShared
      rw [coins, shares, Nat.mul_add, Nat.add_mul]
      exact .inr (.inr (Nat.add_le_add_left ((Nat.mul_comm ..).trans_le atMost) _))
  · intro other isOther
    exact changes.others other (by simpa using isOther)

theorem Sound.redeemShares {sharesToRedeem coins : Nat}
    (redeemed : pool.redeemShares shareholder sharesToRedeem = .ok (coins, after)) :
    after.Sound ∧ Fair pool after [shareholder] ∧
      coins = portion sharesToRedeem pool.totalShares pool.totalCoins := by
  simp only [Pool.redeemShares, bind_eq_ok, expect_eq_ok, ensure_eq_ok] at redeemed
  obtain ⟨existing, found, _, isEnough, rest⟩ := redeemed
  have owns : pool.sharesOf shareholder = existing := by simp [sharesOf, found]
  have atMost : sharesToRedeem ≤ pool.totalShares :=
    isEnough.trans (owns ▸ sound.total ▸ pool.sharesOf_le_owned shareholder)
  split at rest
  · rename_i isZero
    cases rest
    exact ⟨sound, .refl .., by simp [portion, isZero]⟩
  rw [sound.sharesToAmount atMost, ok_bind] at rest
  simp only [bind_eq_ok, minus_eq_ok] at rest
  obtain ⟨totalCoins, ⟨coinsLeft, isCoins⟩, totalShares, ⟨_, isShares⟩, result, deducted,
    isResult⟩ := rest
  cases isResult
  obtain ⟨changes, isDeducted⟩ := deductShares_spec deducted
  have coins := changes.coins
  have shares := changes.shares
  dsimp only at coins shares
  refine ⟨⟨?_, ?_, ?_, ?_⟩, ⟨?_, ?_⟩, rfl⟩
  · have total := changes.total
    have wasTotal := sound.total
    change _ + pool.sharesOf shareholder = pool.owned + _ at total
    change _ = pool.sharesOf shareholder at isDeducted
    omega
  · intro isShared
    have isPart : sharesToRedeem < pool.totalShares := by omega
    have isLess := portion_lt isPart (sound.coins (by omega))
    omega
  · have fits := sound.coinsFit
    omega
  · have fits := sound.sharesFit
    omega
  · refine .inr (.inr ?_)
    have isPart := portion_mul_le sharesToRedeem pool.totalShares pool.totalCoins
    rw [coins, shares, ← isCoins, ← isShares, Nat.mul_sub, Nat.sub_mul]
    exact Nat.sub_le_sub_left (isPart.trans_eq (Nat.mul_comm ..)) _
  · intro other isOther
    exact changes.others other (by simpa using isOther)

theorem Sound.transferShares {shareholder1 shareholder2 moved : Nat}
    (transferred : pool.transferShares shareholder1 shareholder2 moved = .ok after) :
    after.Sound ∧ Fair pool after [shareholder1, shareholder2] ∧
      after.totalCoins = pool.totalCoins ∧ after.totalShares = pool.totalShares := by
  simp only [Pool.transferShares, bind_eq_ok, expect_eq_ok, ensure_eq_ok] at transferred
  obtain ⟨existing, found, _, isEnough, rest⟩ := transferred
  split at rest
  · cases rest
    exact ⟨sound, .refl .., rfl, rfl⟩
  obtain ⟨between, deducted, added⟩ := of_bind rest
  obtain ⟨out, isDeducted⟩ := deductShares_spec deducted
  obtain ⟨back, isAdded⟩ := addShares_spec added
  have coins := back.coins.trans out.coins
  have shares := back.shares.trans out.shares
  refine ⟨⟨?_, ?_, ?_, ?_⟩, ⟨?_, ?_⟩, coins, shares⟩
  · have outTotal := out.total
    have backTotal := back.total
    have wasTotal := sound.total
    omega
  · rw [coins, shares]
    exact sound.coins
  · exact coins ▸ sound.coinsFit
  · exact shares ▸ sound.sharesFit
  · rw [coins, shares]
    exact .inr (.inr le_rfl)
  · intro other isOther
    simp only [mem_cons, not_mem_nil, or_false, not_or] at isOther
    exact (back.others other isOther.2).trans (out.others other isOther.1)

theorem Sound.perform {call : Call} (forward : pool.NonDecreasing call)
    (performed : pool.perform call = .ok after) : after.Sound ∧ Fair pool after call.parties := by
  cases call with
  | buyIn =>
    obtain ⟨⟨shares, result⟩, bought, rfl⟩ := map_eq_ok.mp performed
    have effect := sound.buyIn bought
    exact ⟨effect.1, effect.2.1⟩
  | redeemShares =>
    obtain ⟨⟨coins, result⟩, redeemed, rfl⟩ := map_eq_ok.mp performed
    have effect := sound.redeemShares redeemed
    exact ⟨effect.1, effect.2.1⟩
  | transferShares =>
    have effect := sound.transferShares performed
    exact ⟨effect.1, effect.2.1⟩
  | updateTotalCoins newTotalCoins =>
    cases performed
    exact ⟨⟨sound.total, fun isShared => (sound.coins isShared).trans_le forward,
      newTotalCoins.isLt, sound.sharesFit⟩,
      ⟨.inr (.inr (Nat.mul_le_mul_right _ forward)), fun _ _ => rfl⟩⟩

end

theorem sound_create (scalingFactor : Nat) : (createWithScalingFactor scalingFactor).Sound :=
  ⟨rfl, by simp [createWithScalingFactor], by simp [createWithScalingFactor],
    by simp [createWithScalingFactor]⟩

theorem Sound.transfers (sound : pool.Sound) {moves : List Call} {reached : Pool}
    (isMove : ∀ move ∈ moves, ∃ shareholder1 shareholder2 shares, move = .transferShares
      shareholder1 shareholder2 shares) (ran : runAll Pool.perform pool moves = .ok reached) :
    reached.Sound ∧ reached.totalCoins = pool.totalCoins ∧
      reached.totalShares = pool.totalShares := by
  induction moves generalizing pool with
  | nil =>
    cases ran
    exact ⟨sound, rfl, rfl⟩
  | cons move rest inductionHypothesis =>
    obtain ⟨after, performed, ranRest⟩ := of_bind ran
    obtain ⟨_, _, _, rfl⟩ := isMove move mem_cons_self
    obtain ⟨afterSound, _, coins, shares⟩ := sound.transferShares performed
    obtain ⟨reachedSound, restCoins, restShares⟩ := inductionHypothesis afterSound
      (forall_mem_cons.mp isMove).2 ranRest
    exact ⟨reachedSound, restCoins.trans coins, restShares.trans shares⟩

/-- The shares add up; balances are at most the coins; no call lowers the balance of others; and
shares are redeemed for at most what was paid while shares only move. -/
theorem fair_of_nonDecreasing {scalingFactor : Nat} {calls : List Call} {reached : Pool}
    (forward : RunMeets perform NonDecreasing (createWithScalingFactor scalingFactor) calls)
    (ran : runAll perform (createWithScalingFactor scalingFactor) calls = .ok reached) :
    reached.totalShares = (reached.shares.total fun _ shares => shares) ∧ (∃ balances : Nat → Nat,
        (∀ shareholder, reached.balance shareholder = .ok (balances shareholder)) ∧
          (reached.shares.total fun shareholder _ => balances shareholder) ≤ reached.totalCoins) ∧
      (∀ call after, reached.NonDecreasing call → reached.perform call = .ok after →
        ∀ other ∉ call.parties, ∀ before later, reached.balance other = .ok before →
          after.balance other = .ok later → before ≤ later) ∧
      ∀ shareholder amount newShares after moves between owner coins last,
        (reached.totalCoins ≠ 0 → reached.totalShares ≠ 0) →
          reached.buyIn shareholder amount = .ok (newShares, after) →
          (∀ move ∈ moves, ∃ shareholder1 shareholder2 shares,
            move = .transferShares shareholder1 shareholder2 shares) →
          runAll perform after moves = .ok between →
          between.redeemShares owner newShares = .ok (coins, last) → coins ≤ amount := by
  have sound : reached.Sound := forward.invariant_of_ok (sound_create scalingFactor)
    (fun _ _ _ wasSound isForward _ performed => (wasSound.perform isForward performed).1) ran
  refine ⟨sound.total.symm, ⟨_, sound.balance, ?_⟩, ?_, ?_⟩
  · have parts := total_portion_le reached.shares reached.totalCoins
    rw [show (reached.shares.total fun _ shares => shares) = reached.totalShares from
      sound.total] at parts
    refine le_of_eq_of_le (Table.total_congr ?_) parts
    intro shareholder shares found
    simp [sharesOf, found]
  · intro call after isForward performed other isOther before later isBefore isLater
    obtain ⟨afterSound, fair⟩ := sound.perform isForward performed
    rw [sound.balance] at isBefore
    rw [afterSound.balance] at isLater
    cases isBefore
    cases isLater
    exact fair.portion_le afterSound isOther
  · intro shareholder amount newShares after moves between owner coins last backed bought isMove
      moved redeemed
    obtain ⟨afterSound, _, isCoins, isShares, price⟩ := sound.buyIn bought
    obtain ⟨betweenSound, sameCoins, sameShares⟩ := afterSound.transfers isMove moved
    obtain ⟨_, _, rfl⟩ := betweenSound.redeemShares redeemed
    rw [sameCoins, sameShares, isCoins, isShares]
    refine Nat.div_le_of_le_mul ?_
    by_cases isShared : reached.totalShares = 0
    · have noCoins : reached.totalCoins = 0 := by
        by_contra hasCoins
        exact backed hasCoins isShared
      simp [isShared, noCoins]
    · have atMost := price isShared
      rw [Nat.mul_add, Nat.add_mul, Nat.mul_comm amount] at *
      omega

namespace Toy

/-- The price of a share is two coins. -/
def calls : List Call := [.buyIn 1 1, .updateTotalCoins 2]

theorem calls_forward : RunMeets perform NonDecreasing (createWithScalingFactor 1) calls := by
  refine RunMeets.cons rfl trivial (RunMeets.cons rfl ?_ trivial)
  change 1 ≤ 2
  decide

theorem calls_fair : ∃ reached, runAll perform (createWithScalingFactor 1) calls = .ok reached ∧
    reached.totalCoins = 2 ∧ reached.totalShares = (reached.shares.total fun _ shares => shares) :=
  ⟨_, rfl, rfl, (fair_of_nonDecreasing calls_forward rfl).1⟩

/-- Coins that buy no share raise the price: two coins come back as three. -/
theorem redeemed_more : ∃ reached after between last,
    runAll perform (createWithScalingFactor 1) calls = .ok reached ∧
      reached.totalShares ≠ 0 ∧ reached.buyIn 2 2 = .ok (1, after) ∧
      runAll perform after [.buyIn 3 1, .buyIn 3 1] = .ok between ∧
      between.redeemShares 2 1 = .ok (3, last) :=
  ⟨_, _, _, _, rfl, by decide, rfl, rfl, rfl⟩

end Toy

end Pool

end LumioNode.Framework
