import BjutEth.Alien.Apply

namespace BjutEth.Alien

def secondsPerYear : UInt64 := 365 * 24 * 3600
def totalBlockReward : ℤ := 25 * 10 ^ 7 * ether
def scGasChargingDelayLoopCount : UInt64 := 1

def addBalance (balances : GoMap Address ℤ) (address : Address) (amount : ℤ) : GoMap Address ℤ :=
  balances.insert address (balances.getD address 0 + amount)

def addBalances (rt : Runtime) (balances payments : GoMap Address ℤ) : GoMap Address ℤ :=
  (rt.rangeOrder payments.toList).foldl (fun balances e ↦ addBalance balances e.1 e.2) balances

/-- The reward of a block, halved every year. It is divided by the number of blocks in
a year, which is zero if a period is longer than that. -/
def blockReward (period : UInt64) (number : ℤ) : Go ℤ :=
  if period = 0 then goPanic
  else
    let blockNumPerYear := secondsPerYear / period
    if blockNumPerYear = 0 then goPanic
    else
      let initSignerBlockReward := totalBlockReward / (2 * blockNumPerYear).toNat
      .ok (initSignerBlockReward >>> (bigUint64 number / blockNumPerYear).toNat)

/-- The local variables of `calculateSCReward` that its loop reads. -/
structure SCShares where
  scRewardAll : ℤ
  scRewardMilliSum : UInt64
  minerLeft : ℤ

namespace Snapshot

variable (cfg : Config) (s : Snapshot)

def rewardedVotes (coinbase : Address) : GoMap Address Vote :=
  s.votes.filter (fun _ vote ↦ vote.candidate = coinbase &&
    bigUint64 (s.voters.getD vote.voter 0) < s.number - cfg.maxSignerCount)

/-- `calculateVoteReward`. The entry of a voter is read without a check, so a missing
one is a nil pointer. -/
def calculateVoteReward (coinbase : Address) (votersReward : ℤ) : Go (GoMap Address ℤ) :=
  if s.votes.toList.any (fun e ↦ e.2.candidate = coinbase && !s.voters.contains e.2.voter) then goPanic
  else
    let votes := s.rewardedVotes cfg coinbase
    let allStake := votes.sumBy (fun _ vote ↦ vote.stake)
    if allStake ≤ 0 && !votes.isEmpty then fail .allStakeMissing
    else .ok (votes.map (fun _ vote ↦ vote.stake * votersReward / allStake))

/-- The part of the miner reward that goes to side chains, by the sum of their shares
per thousand. -/
def scShares (minerReward : ℤ) : SCShares :=
  let scRewardMilliSum := s.scRecordMap.toList.foldl (fun sum e ↦ sum + e.2.rewardPerPeriod) 0
  if scRewardMilliSum > 0 && scRewardMilliSum < 1000 then
    let scRewardAll := minerReward * scRewardMilliSum.toNat / 1000
    ⟨scRewardAll, 1000, minerReward - scRewardAll⟩
  else if scRewardMilliSum ≥ 1000 then ⟨minerReward, scRewardMilliSum, 0⟩
  else ⟨0, 1000, minerReward⟩

def scRentSumPerPeriod (record : SCRecord) : ℤ :=
  record.rentReward.sumBy (fun _ rent ↦
    if bigUint64 rent.maxRewardNumber ≥ s.number - scRewardDelayLoopCount * cfg.maxSignerCount then
      rent.rentPerPeriod
    else 0)

def singleReward (shares : SCShares) (record : SCRecord) (score : UInt64) : ℤ :=
  (shares.scRewardAll * record.rewardPerPeriod.toNat / shares.scRewardMilliSum.toNat +
    s.scRentSumPerPeriod cfg record) * score.toNat / 100

def addSCRewards (shares : SCShares) (scRewards : GoMap Address ℤ)
    (entry : Hash × SCReward) : GoMap Address ℤ :=
  match entry.2.scBlockRewardMap[s.number - scRewardDelayLoopCount * cfg.maxSignerCount]?,
    s.scRecordMap[entry.1]? with
  | some reward, some record =>
    reward.rewardScoreMap.toList.foldl (fun scRewards e ↦
      addBalance scRewards e.1 (singleReward cfg s shares record e.2)) scRewards
  | _, _ => scRewards

def calculateSCReward (minerReward : ℤ) : GoMap Address ℤ × ℤ :=
  let shares := s.scShares minerReward
  (s.scRewardMap.toList.foldl (addSCRewards cfg s shares) ∅, shares.minerLeft)

def calculateGasCharging : GoMap Address ℤ :=
  s.localNotice.confirmReceived.toList.foldl (fun gasCharge e ↦
    if e.2.success && s.number = e.2.number + scGasChargingDelayLoopCount * cfg.maxSignerCount then
      match s.localNotice.currentCharging[e.1]? with
      | some charge => addBalance gasCharge charge.target (ether * charge.volume.toNat)
      | none => gasCharge
    else gasCharge) ∅

end Snapshot

/-- `accumulateRewards`, on the balances of the state. `period` is that of the chain's
configuration. -/
def accumulateRewards (rt : Runtime) (cfg : Config) (period : UInt64) (balances : GoMap Address ℤ)
    (header : Header) (snap : Snapshot) (refundGas : GoMap Address ℤ) : Go (GoMap Address ℤ) := do
  let reward ← blockReward period header.number
  let minerReward := reward * snap.minerReward.toNat / 1000
  let voteRewards ← snap.calculateVoteReward cfg header.coinbase (reward - minerReward)
  let balances := addBalances rt balances voteRewards
  let balances := addBalances rt balances (snap.calculateProposalRefund cfg)
  let (scReward, minerLeft) := snap.calculateSCReward cfg minerReward
  let balances := addBalances rt balances scReward
  let balances := addBalances rt balances refundGas
  let minerReward := minerLeft - refundGas.sumBy (fun _ gas ↦ gas)
  return if minerReward > 0 then addBalance balances header.coinbase minerReward else balances

end BjutEth.Alien
