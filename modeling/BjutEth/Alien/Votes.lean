import BjutEth.Alien.Types

namespace BjutEth.Alien.Snapshot

variable (rt : Runtime) (cfg : Config) (s : Snapshot)

def addConfirmation (confirmations : GoMap UInt64 (List Address)) (c : Confirmation) :
    GoMap UInt64 (List Address) :=
  let confirmers := confirmations.getD (bigUint64 c.blockNumber) []
  confirmations.insert (bigUint64 c.blockNumber)
    (if confirmers.contains c.signer then confirmers else confirmers ++ [c.signer])

def updateSnapshotByConfirmations (confirmations : List Confirmation) : Snapshot :=
  { s with confirmations := confirmations.foldl addConfirmation s.confirmations }

/-- `s.Tally[lastVote.Candidate].Sub(...)`: the entry is dereferenced without
a check, so a missing one is a nil pointer. -/
def subTally (tally : GoMap Address ℤ) (lastVote : Vote) : Go (GoMap Address ℤ) :=
  match tally[lastVote.candidate]? with
  | none => goPanic
  | some t => .ok (tally.insert lastVote.candidate (t - lastVote.stake))

def retractVote (voter : Address) : Go (GoMap Address ℤ) :=
  match s.votes[voter]? with
  | none => .ok s.tally
  | some lastVote => subTally s.tally lastVote

def addVote (number : ℤ) (s : Snapshot) (vote : Vote) : Go Snapshot := do
  let tally ← s.retractVote vote.voter
  let s := match tally[vote.candidate]? with
    | some t => { s with tally := tally.insert vote.candidate (t + vote.stake) }
    | none =>
      { s with
        tally := tally.insert vote.candidate vote.stake
        candidates :=
          if !candidateNeedPD then s.candidates.insert vote.candidate candidateStateNormal
          else s.candidates }
  return { s with
    votes := s.votes.insert vote.voter vote
    voters := s.voters.insert vote.voter number }

def updateSnapshotByVotes (votes : List Vote) (headerNumber : ℤ) : Go Snapshot :=
  votes.foldlM (addVote headerNumber) s

def modifyVote (txVote : Vote) : Go Snapshot :=
  match s.votes[txVote.voter]? with
  | none => .ok s
  | some lastVote => do
    let tally ← subTally s.tally lastVote
    return { s with
      tally := tally.insert lastVote.candidate (tally.getD lastVote.candidate 0 + txVote.stake)
      votes := s.votes.insert txVote.voter ⟨txVote.voter, lastVote.candidate, txVote.stake⟩ }

def updateSnapshotByMPVotes (votes : List Vote) : Go Snapshot :=
  votes.foldlM modifyVote s

def punishMissing (punished : GoMap Address UInt64) (signer : Address) : GoMap Address UInt64 :=
  match punished[signer]? with
  | some count =>
    if count ≤ 10 * defaultFullCredit then punished.insert signer (count + missingPublishCredit)
    else punished
  | none => punished.insert signer missingPublishCredit

def rewardSigner (punished : GoMap Address UInt64) (coinbase : Address) : GoMap Address UInt64 :=
  match punished[coinbase]? with
  | some count =>
    if count > signRewardCredit then punished.insert coinbase (count - signRewardCredit)
    else punished.erase coinbase
  | none => punished

def updateSnapshotForPunish (signerMissing : List Address)
    (headerNumber : ℤ) (coinbase : Address) : Snapshot :=
  let punished := rewardSigner (signerMissing.foldl punishMissing s.punished) coinbase
  let punished := punished.filterMap (fun _ count ↦
    if count > autoRewardCredit then some (count - autoRewardCredit) else none)
  { s with
    punished :=
      if cfg.isTrantor headerNumber && !cfg.isTrantor (headerNumber - 1) then ∅ else punished }

def checkBalance : Bool := s.voters.size > maxUncheckBalanceVoteCount

def isExpired (headerNumber voteNumber : ℤ) (vote : Vote) : Bool :=
  bigUint64 headerNumber - bigUint64 voteNumber > cfg.epoch ||
    (s.checkBalance && vote.stake < s.minVB)

def expiredVotes (headerNumber : ℤ) : List Vote :=
  (rt.rangeOrder s.voters.toList).filterMap (fun e ↦
    (s.votes[e.1]?).filter (isExpired cfg s headerNumber e.2))

def dropVote (vote : Vote) : Snapshot :=
  { s with
    tally := match s.tally[vote.candidate]? with
      | some t =>
        if t - vote.stake = 0 then s.tally.erase vote.candidate
        else s.tally.insert vote.candidate (t - vote.stake)
      | none => s.tally
    votes := s.votes.erase vote.voter
    voters := s.voters.erase vote.voter }

/-- Expired votes are removed together, and only while enough voters are left. -/
def dropExpired (headerNumber : ℤ) : Snapshot :=
  let expired := expiredVotes rt cfg s headerNumber
  if UInt64.ofNat (s.voters.size - expired.length) ≥ cfg.maxSignerCount then
    expired.foldl dropVote s
  else s

def sweepTally : Snapshot :=
  { s with
    scCoinbase := s.scCoinbase.filter (fun a _ ↦ !(s.tally[a]?).any (· ≤ 0))
    tally := s.tally.filter (fun _ t ↦ 0 < t) }

def updateSnapshotForExpired (headerNumber : ℤ) : Snapshot :=
  let s := dropExpired rt cfg s headerNumber
  sweepTally { s with
    confirmations := s.confirmations.filter (fun blockNumber _ ↦
      !(bigUint64 headerNumber - blockNumber > cfg.maxSignerCount)) }

def addTarget (target : GoMap Address ℤ) (e : Address × Vote) : GoMap Address ℤ :=
  target.insert e.2.candidate (target.getD e.2.candidate 0 + e.2.stake)

def tallyTarget : GoMap Address ℤ := s.votes.toList.foldl addTarget ∅

def verifyTallyCnt : Go Unit :=
  if s.tally.toList.all (fun e ↦ s.tallyTarget[e.1]? == some e.2) then .ok ()
  else fail .incorrectTallyCount

end BjutEth.Alien.Snapshot
