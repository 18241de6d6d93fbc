import BjutEth.Alien.ProposalStore

namespace BjutEth.Alien

open Std Outcome ExtTreeMap GoMap

namespace Snapshot

/-! The effect of a due proposal, field by field. `approved` is the verdict of the
stakes, which no proposal changes. -/

section Fields

variable (approved : Proposal → Bool) (n : ℤ) (p : Proposal)

def enacts (type : UInt64) : Bool := approved p && p.proposalType == type

def rewardStep (reward : UInt64) : UInt64 :=
  if enacts approved p proposalTypeMinerRewardDistributionModify then p.minerRewardPerThousand
  else reward

def minVBStep (minVB : ℤ) : ℤ :=
  if enacts approved p proposalTypeMinVoterBalanceModify then p.minVoterBalance.toNat * ether
  else minVB

def added (record : Option SCRecord) : SCRecord :=
  match record with
  | none => ⟨∅, 0, 0, p.scBlockCountPerPeriod, p.scBlockRewardPerPeriod, ∅⟩
  | some record =>
    { record with
      countPerPeriod := p.scBlockCountPerPeriod
      rewardPerPeriod := p.scBlockRewardPerPeriod }

def withRent (record : SCRecord) : SCRecord :=
  { record with rentReward := record.rentReward.insert p.hash (p.rentInfo n) }

def recordStep (record : Option SCRecord) : Option SCRecord :=
  if enacts approved p proposalTypeSideChainAdd then some (added p record)
  else if enacts approved p proposalTypeSideChainRemove then none
  else if enacts approved p proposalTypeRentSideChain then record.map (withRent n p)
  else record

def rents (records : GoMap Hash SCRecord) : Bool :=
  enacts approved p proposalTypeRentSideChain && records.contains p.scHash

def addCharge (notices : GoMap Hash CCNotice) : GoMap Hash CCNotice :=
  let notice := notices.getD p.scHash ⟨∅, ∅⟩
  notices.insert p.scHash
    { notice with currentCharging := notice.currentCharging.insert p.hash p.charging }

def owed (records : GoMap Hash SCRecord) : ℤ :=
  p.currentDeposit +
    if p.proposalType = proposalTypeRentSideChain && !rents approved p records then p.rentFee else 0

def divByZero (records : GoMap Hash SCRecord) : Bool :=
  rents approved p records && p.scRentLength == 0

end Fields

theorem refundTo_refundTo (refunds : GoMap UInt64 (GoMap Address ℤ)) (number : UInt64)
    (proposer : Address) (amount amount' : ℤ) :
    refundTo (refundTo refunds number proposer amount) number proposer amount' =
      refundTo refunds number proposer (amount + amount') := by
  unfold refundTo
  refine ext_getElem? (fun key ↦ ?_)
  simp only [get_insert, getD_insert_self]
  split_ifs
  · refine congrArg some (ext_getElem? (fun a ↦ ?_))
    simp only [get_insert]
    split_ifs
    · rw [add_assoc]
    · rfl
  · rfl

def settled (n : ℤ) (s : Snapshot) (entry : Hash × Proposal) : Snapshot :=
  { s with
    minerReward := rewardStep s.isApproved entry.2 s.minerReward
    minVB := minVBStep s.isApproved entry.2 s.minVB
    scRecordMap := s.scRecordMap.alter entry.2.scHash (recordStep s.isApproved n entry.2)
    scNoticeMap :=
      if rents s.isApproved entry.2 s.scRecordMap then addCharge entry.2 s.scNoticeMap
      else s.scNoticeMap
    proposalRefund := refundTo s.proposalRefund (bigUint64 n) entry.2.proposer
      (owed s.isApproved entry.2 s.scRecordMap)
    proposals := s.proposals.erase entry.1 }

def decided (n : ℤ) (s : Snapshot) (p : Proposal) : Snapshot :=
  { s with
    minerReward := rewardStep s.isApproved p s.minerReward
    minVB := minVBStep s.isApproved p s.minVB
    scRecordMap := s.scRecordMap.alter p.scHash (recordStep s.isApproved n p)
    scNoticeMap :=
      if rents s.isApproved p s.scRecordMap then addCharge p s.scNoticeMap else s.scNoticeMap
    proposalRefund :=
      if p.proposalType = proposalTypeRentSideChain && !rents s.isApproved p s.scRecordMap then
        refundTo s.proposalRefund (bigUint64 n) p.proposer p.rentFee
      else s.proposalRefund }

variable {cfg : Config} {n : ℤ} {s t : Snapshot} {entry : Hash × Proposal}

theorem rentSideChain_eq (p : Proposal) (happ : s.isApproved p = true)
    (htype : p.proposalType = proposalTypeRentSideChain) :
    s.rentSideChain n p =
      if divByZero s.isApproved p s.scRecordMap then goPanic else .ok (decided n s p) := by
  have hstep : recordStep s.isApproved n p = Option.map (withRent n p) := by
    funext record
    simp [recordStep, enacts, happ, htype, proposalTypeRentSideChain, proposalTypeSideChainAdd,
      proposalTypeSideChainRemove]
  have hrts : rents s.isApproved p s.scRecordMap = (s.scRecordMap[p.scHash]?).isSome := by
    simp only [rents, enacts, happ, htype, Bool.true_and, beq_self_eq_true,
      contains_eq_isSome_getElem?]
  have hrew : rewardStep s.isApproved p s.minerReward = s.minerReward := by
    simp [rewardStep, enacts, htype, proposalTypeRentSideChain,
      proposalTypeMinerRewardDistributionModify]
  have hminVB : minVBStep s.isApproved p s.minVB = s.minVB := by
    simp [minVBStep, enacts, htype, proposalTypeRentSideChain, proposalTypeMinVoterBalanceModify]
  unfold rentSideChain divByZero decided
  rw [hstep, hrts, hrew, hminVB]
  cases hrec : s.scRecordMap[p.scHash]? with
  | none =>
    rw [alter_eq_self (by rw [hrec]; rfl)]
    simp [addRefund, htype]
  | some record =>
    rw [alter_eq_insert (by rw [hrec]; rfl)]
    simp [addCharge, withRent]

theorem enactProposal_eq (p : Proposal) (happ : s.isApproved p = true) :
    s.enactProposal n p =
      if divByZero s.isApproved p s.scRecordMap then goPanic else .ok (decided n s p) := by
  by_cases hrent : p.proposalType = proposalTypeRentSideChain
  · rw [← rentSideChain_eq p happ hrent]
    unfold enactProposal
    rw [hrent]
    rfl
  have hrts : rents s.isApproved p s.scRecordMap = false := by
    simp [rents, enacts, hrent]
  have hself : p.proposalType ≠ proposalTypeSideChainAdd →
      p.proposalType ≠ proposalTypeSideChainRemove →
      s.scRecordMap.alter p.scHash (recordStep s.isApproved n p) = s.scRecordMap :=
    fun hadd hrem ↦ alter_eq_self (by simp [recordStep, enacts, hadd, hrem, hrent])
  have hadd : p.proposalType = proposalTypeSideChainAdd →
      s.scRecordMap.alter p.scHash (recordStep s.isApproved n p) =
        (s.sideChainAdd p).scRecordMap :=
    fun h ↦ alter_eq_insert (by
      simp only [recordStep, enacts, happ, h]
      cases s.scRecordMap[p.scHash]? <;> rfl)
  have hrem : p.proposalType = proposalTypeSideChainRemove →
      s.scRecordMap.alter p.scHash (recordStep s.isApproved n p) = s.scRecordMap.erase p.scHash :=
    fun h ↦ alter_eq_erase (by
      simp [recordStep, enacts, happ, h, proposalTypeSideChainAdd, proposalTypeSideChainRemove])
  unfold enactProposal divByZero decided
  simp only [candidateNeedPD, rewardStep, minVBStep, enacts]
  split_ifs
  all_goals simp_all [proposalTypeCandidateAdd, proposalTypeCandidateRemove,
    proposalTypeMinerRewardDistributionModify, proposalTypeSideChainAdd,
    proposalTypeSideChainRemove, proposalTypeMinVoterBalanceModify]
  rfl

theorem decideProposal_eq (n : ℤ) (s : Snapshot) (p : Proposal) :
    s.decideProposal n p =
      if divByZero s.isApproved p s.scRecordMap then goPanic else .ok (decided n s p) := by
  unfold decideProposal
  cases happ : s.isApproved p with
  | true =>
    exact enactProposal_eq p happ
  | false =>
    have hzero : divByZero s.isApproved p s.scRecordMap = false := by
      simp [divByZero, rents, enacts, happ]
    have hself : s.scRecordMap.alter p.scHash (recordStep s.isApproved n p) = s.scRecordMap :=
      alter_eq_self (by simp [recordStep, enacts, happ])
    simp [hzero, decided, hself, rejectProposal, rewardStep, minVBStep, rents, enacts, happ]

/-- What one round of `calculateProposalResult` does with a due proposal. -/
theorem settleProposal_of_due (hdue : entry.2.dueNumber cfg = bigUint64 n) :
    s.settleProposal cfg n entry =
      if divByZero s.isApproved entry.2 s.scRecordMap then goPanic else .ok (settled n s entry) := by
  unfold settleProposal
  rw [if_pos hdue, decideProposal_eq]
  change (if divByZero s.isApproved entry.2 s.scRecordMap = true then _ else _) >>= _ = _
  split_ifs
  · rfl
  have hrefund : (decided n (s.addRefund (bigUint64 n) entry.2.proposer entry.2.currentDeposit)
      entry.2).proposalRefund = (settled n s entry).proposalRefund := by
    unfold decided settled owed addRefund
    dsimp only
    change (if _ && !rents s.isApproved entry.2 s.scRecordMap then _ else _) = _
    split_ifs
    · exact refundTo_refundTo _ _ _ _ _
    · rw [add_zero]
  refine congrArg Except.ok ?_
  rw [hrefund]
  rfl

theorem settleProposal_of_not_due (hdue : entry.2.dueNumber cfg ≠ bigUint64 n) :
    s.settleProposal cfg n entry = .ok s := by
  exact if_neg hdue

end Snapshot

end BjutEth.Alien
