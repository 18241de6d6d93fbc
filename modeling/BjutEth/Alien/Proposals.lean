import BjutEth.Alien.Types

namespace BjutEth.Alien

def proposalTypeCandidateAdd : UInt64 := 1
def proposalTypeCandidateRemove : UInt64 := 2
def proposalTypeMinerRewardDistributionModify : UInt64 := 3
def proposalTypeSideChainAdd : UInt64 := 4
def proposalTypeSideChainRemove : UInt64 := 5
def proposalTypeMinVoterBalanceModify : UInt64 := 6
def proposalTypeRentSideChain : UInt64 := 8

def Proposal.lastDeclareNumber (cfg : Config) (p : Proposal) : UInt64 :=
  bigUint64 p.receivedNumber + p.validationLoopCnt * cfg.maxSignerCount

def Proposal.dueNumber (cfg : Config) (p : Proposal) : UInt64 := p.lastDeclareNumber cfg + 1

def Proposal.rentFee (p : Proposal) : ℤ := p.scRentFee.toNat * ether

def Proposal.rentInfo (p : Proposal) (headerNumber : ℤ) : SCRentInfo :=
  ⟨p.rentFee / p.scRentLength.toNat, headerNumber + p.scRentLength.toNat⟩

def Proposal.charging (p : Proposal) : GasCharging :=
  ⟨p.targetAddress, p.scRentFee * p.scRentRate, p.hash⟩

namespace Snapshot

variable (rt : Runtime) (cfg : Config) (s : Snapshot)

/-- A number for a range variable that no entry of `proposals` points to. -/
def freshVar : ℕ := (s.loopVar.toList.map (·.2)).foldr max 0 + 1

/-- One round of the loop of `updateSnapshotByProposals`. The range variable is
one variable for the whole loop, so assigning it also changes every entry
that already holds its address. -/
def storeProposal (headerNumber : ℤ) (var : ℕ) (s : Snapshot) (proposal : Proposal) : Snapshot :=
  let proposal := { proposal with receivedNumber := headerNumber }
  let assigned := s.proposals.map (fun key p ↦ if s.loopVar[key]? = some var then proposal else p)
  { s with
    proposals := assigned.insert proposal.hash proposal
    loopVar := s.loopVar.insert proposal.hash var }

def updateSnapshotByProposals (proposals : List Proposal) (headerNumber : ℤ) : Snapshot :=
  proposals.foldl (storeProposal headerNumber s.freshVar) s

def samePointer (key key' : Hash) : Bool :=
  key == key' || ((s.loopVar[key]?).isSome && s.loopVar[key]? == s.loopVar[key']?)

/-- Whether a declare is taken: the proposal is open, the declarer is a candidate
and has not declared on it before. -/
def takesDeclare (headerNumber : ℤ) (s : Snapshot) (declare : Declare) : Bool :=
  match s.proposals[declare.proposalHash]? with
  | none => false
  | some proposal =>
    !(proposal.lastDeclareNumber cfg < bigUint64 headerNumber || !s.isCandidate declare.declarer) &&
      !proposal.declares.any (·.declarer == declare.declarer)

def addDeclare (headerNumber : ℤ) (s : Snapshot) (declare : Declare) : Snapshot :=
  { s with
    proposals :=
      if takesDeclare cfg headerNumber s declare then
        s.proposals.map (fun key p ↦
          if s.samePointer declare.proposalHash key then
            { p with declares := p.declares ++ [declare] }
          else p)
      else s.proposals }

def updateSnapshotByDeclares (declares : List Declare) (headerNumber : ℤ) : Snapshot :=
  declares.foldl (addDeclare cfg headerNumber) s

def refundTo (refunds : GoMap UInt64 (GoMap Address ℤ)) (headerNumber : UInt64) (proposer : Address)
    (amount : ℤ) : GoMap UInt64 (GoMap Address ℤ) :=
  let refund := refunds.getD headerNumber ∅
  refunds.insert headerNumber (refund.insert proposer (refund.getD proposer 0 + amount))

def addRefund (headerNumber : UInt64) (proposer : Address) (amount : ℤ) : Snapshot :=
  { s with proposalRefund := refundTo s.proposalRefund headerNumber proposer amount }

def judgementStake : ℤ := s.tally.sumBy (fun _ tally ↦ tally) * 2 / 3

def yesDeclareStake (p : Proposal) : ℤ :=
  ((p.declares.filter (·.decision)).map (fun d ↦ s.tally.getD d.declarer 0)).sum

def isApproved (p : Proposal) : Bool := s.judgementStake < s.yesDeclareStake p

/-- The side chain part of an approved `RentSideChain` proposal. Dividing the
rent by a zero `SCRentLength` panics. -/
def rentSideChain (headerNumber : ℤ) (s : Snapshot) (p : Proposal) : Go Snapshot :=
  match s.scRecordMap[p.scHash]? with
  | none => .ok (s.addRefund (bigUint64 headerNumber) p.proposer p.rentFee)
  | some record =>
    if p.scRentLength = 0 then goPanic
    else
      let notice := s.scNoticeMap.getD p.scHash ⟨∅, ∅⟩
      .ok { s with
        scRecordMap := s.scRecordMap.insert p.scHash
          { record with rentReward := record.rentReward.insert p.hash (p.rentInfo headerNumber) }
        scNoticeMap := s.scNoticeMap.insert p.scHash
          { notice with currentCharging := notice.currentCharging.insert p.hash p.charging } }

def sideChainAdd (p : Proposal) : Snapshot :=
  { s with
    scRecordMap := s.scRecordMap.insert p.scHash
      (match s.scRecordMap[p.scHash]? with
      | none => ⟨∅, 0, 0, p.scBlockCountPerPeriod, p.scBlockRewardPerPeriod, ∅⟩
      | some record =>
        { record with
          countPerPeriod := p.scBlockCountPerPeriod
          rewardPerPeriod := p.scBlockRewardPerPeriod }) }

def enactProposal (headerNumber : ℤ) (s : Snapshot) (p : Proposal) : Go Snapshot :=
  if p.proposalType = proposalTypeCandidateAdd then
    .ok (if candidateNeedPD then
      { s with candidates := s.candidates.insert p.targetAddress candidateStateNormal } else s)
  else if p.proposalType = proposalTypeCandidateRemove then
    .ok (if s.isCandidate p.targetAddress && candidateNeedPD then
      { s with candidates := s.candidates.erase p.targetAddress } else s)
  else if p.proposalType = proposalTypeMinerRewardDistributionModify then
    .ok { s with minerReward := p.minerRewardPerThousand }
  else if p.proposalType = proposalTypeSideChainAdd then .ok (s.sideChainAdd p)
  else if p.proposalType = proposalTypeSideChainRemove then
    .ok { s with scRecordMap := s.scRecordMap.erase p.scHash }
  else if p.proposalType = proposalTypeMinVoterBalanceModify then
    .ok { s with minVB := p.minVoterBalance.toNat * ether }
  else if p.proposalType = proposalTypeRentSideChain then s.rentSideChain headerNumber p
  else .ok s

def rejectProposal (headerNumber : ℤ) (s : Snapshot) (p : Proposal) : Snapshot :=
  { s with
    proposalRefund :=
      if p.proposalType = proposalTypeRentSideChain then
        refundTo s.proposalRefund (bigUint64 headerNumber) p.proposer p.rentFee
      else s.proposalRefund }

def decideProposal (headerNumber : ℤ) (s : Snapshot) (p : Proposal) : Go Snapshot :=
  if s.isApproved p then s.enactProposal headerNumber p else .ok (s.rejectProposal headerNumber p)

def settleProposal (headerNumber : ℤ) (s : Snapshot) (entry : Hash × Proposal) : Go Snapshot :=
  let p := entry.2
  if p.dueNumber cfg = bigUint64 headerNumber then do
    let s ← decideProposal headerNumber
      (s.addRefund (bigUint64 headerNumber) p.proposer p.currentDeposit) p
    return { s with proposals := s.proposals.erase entry.1 }
  else .ok s

def expireRefund (headerNumber : ℤ) : Snapshot :=
  { s with
    proposalRefund := s.proposalRefund.erase
      (bigUint64 headerNumber - proposalRefundExpiredLoopCount * cfg.maxSignerCount) }

def calculateProposalResult (headerNumber : ℤ) : Go Snapshot :=
  (rt.rangeOrder s.proposals.toList).foldlM (settleProposal cfg headerNumber)
    (s.expireRefund cfg headerNumber)

def calculateProposalRefund : GoMap Address ℤ :=
  s.proposalRefund.getD (s.number - proposalRefundDelayLoopCount * cfg.maxSignerCount) ∅

end Snapshot

end BjutEth.Alien
