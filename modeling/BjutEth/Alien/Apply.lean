import BjutEth.Alien.Extra
import BjutEth.Alien.Proposals
import BjutEth.Alien.Queue
import BjutEth.Alien.SideChain
import BjutEth.Alien.Votes

namespace BjutEth.Alien

/-- The hash of headers and the recovery of a signer from a signature.
`uncleHash` is the hash of the empty list of uncles. -/
structure Crypto where
  rlpHash : Header → Hash
  recover : Hash → Bytes → Option Address
  uncleHash : Hash

/-- The hash that is signed: the header without its signature. Negative numbers
have no encoding. -/
def Crypto.sigHash (crypto : Crypto) (header : Header) : Go Hash :=
  if header.extra.length < extraSeal then goPanic
  else if header.difficulty < 0 || header.number < 0 || header.time < 0 then fail .rlp
  else .ok (crypto.rlpHash
    { header with extra := header.extra.take (header.extra.length - extraSeal) })

def Crypto.ecrecover (crypto : Crypto) (header : Header) : Go Address :=
  if header.extra.length < extraSeal then fail .missingSignature
  else do
    let signature := header.extra.drop (header.extra.length - extraSeal)
    match crypto.recover (← crypto.sigHash header) signature with
    | some signer => .ok signer
    | none => fail .recover

namespace Snapshot

def addGenesisVote (s : Snapshot) (vote : Vote) : Snapshot :=
  { s with
    votes := s.votes.insert vote.voter vote
    tally := s.tally.insert vote.candidate (s.tally.getD vote.candidate 0 + vote.stake)
    voters := s.voters.insert vote.voter 0
    candidates := s.candidates.insert vote.voter candidateStateNormal }

end Snapshot

def newSnapshot (cfg : Config) (now : UInt64) (hash : Hash) (votes : List Vote) (lcrs : UInt64) :
    Snapshot :=
  votes.foldl Snapshot.addGenesisVote
    { lcrs := lcrs
      period := cfg.period
      number := 0
      confirmedNumber := 0
      hash := hash
      historyHash := [hash]
      signers := cycle (goInt cfg.maxSignerCount).toNat cfg.selfVoteSigners
      votes := ∅
      tally := ∅
      voters := ∅
      candidates := ∅
      punished := ∅
      confirmations := ∅
      proposals := ∅
      headerTime := now - 1
      loopStartTime := cfg.genesisTimestamp
      proposalRefund := ∅
      scCoinbase := ∅
      scRecordMap := ∅
      scRewardMap := ∅
      scNoticeMap := ∅
      localNotice := ⟨∅, ∅⟩
      minerReward := minerRewardPerThousand
      minVB := cfg.minVoterBalance
      loopVar := ∅ }

namespace Snapshot

/-- `copy`. A deep copy takes every proposal out of the variable it shares, and
replaces a zero `MinerReward`. -/
def copy (s : Snapshot) : Snapshot :=
  { s with
    minerReward := if s.minerReward = 0 then minerRewardPerThousand else s.minerReward
    loopVar := ∅ }

def pushHistory (cfg : Config) (history : List Hash) (hash : Hash) : Go (List Hash) :=
  let bound := goInt (cfg.maxSignerCount * 2)
  if bound ≤ history.length then
    if bound < 1 then goPanic
    else .ok ((history.take bound.toNat).drop 1 ++ [hash])
  else .ok (history ++ [hash])

def openHeader (crypto : Crypto) (cfg : Config) (header : Header) (extra : HeaderExtra)
    (s : Snapshot) : Go Snapshot := do
  let history ← pushHistory cfg s.historyHash (crypto.rlpHash header)
  return { s with
    headerTime := bigUint64 header.time
    loopStartTime := extra.loopStartTime
    signers := extra.signerQueue
    confirmedNumber := extra.confirmedBlockNumber
    historyHash := history }

/-- The check on the number of candidates. The modulus of its condition may be
zero. -/
def checkCandidates (rt : Runtime) (cfg : Config) (s : Snapshot) : Go Snapshot :=
  if candidateNeedPD then .ok s
  else if cfg.maxSignerCount * s.lcrs = 0 then goPanic
  else if (s.number + 1) % (cfg.maxSignerCount * s.lcrs) = 0 &&
      s.candidates.size > candidateMaxLen then
    .ok (s.removeExtraCandidate rt)
  else .ok s

/-- The sub-updates of one header, in the order in which `apply` runs them. -/
def subUpdates (rt : Runtime) (crypto : Crypto) (cfg : Config) (header : Header)
    (extra : HeaderExtra) : List (Snapshot → Go Snapshot) :=
  [ openHeader crypto cfg header extra,
    fun s ↦ .ok (s.updateSnapshotByConfirmations extra.currentBlockConfirmations),
    fun s ↦ s.updateSnapshotByVotes extra.currentBlockVotes header.number,
    fun s ↦ s.updateSnapshotByMPVotes extra.modifyPredecessorVotes,
    fun s ↦ .ok (s.updateSnapshotForPunish cfg extra.signerMissing header.number header.coinbase),
    fun s ↦ .ok (s.updateSnapshotByProposals extra.currentBlockProposals header.number),
    fun s ↦ .ok (s.updateSnapshotByDeclares cfg extra.currentBlockDeclares header.number),
    fun s ↦ .ok { s with period := if s.period = 0 then cfg.period else s.period },
    fun s ↦ .ok (s.updateSnapshotBySetSCCoinbase extra.sideChainSetCoinbases),
    fun s ↦ s.updateSnapshotBySCConfirm rt cfg extra.sideChainConfirmations header.number,
    fun s ↦ .ok (s.updateSnapshotByNoticeConfirm cfg extra.sideChainNoticeConfirmed header.number),
    fun s ↦ s.calculateProposalResult rt cfg header.number,
    checkCandidates rt cfg,
    fun s ↦ s.updateSnapshotBySCCharging cfg extra.sideChainCharging header.number header.coinbase,
    fun s ↦ .ok (s.updateSnapshotForExpired rt cfg header.number) ]

def applyHeader (rt : Runtime) (crypto : Crypto) (cfg : Config) (s : Snapshot) (header : Header) :
    Go Snapshot := do
  let coinbase ← crypto.ecrecover header
  if coinbase ≠ header.coinbase && header.number ≠ bugFixBlockNumber then fail .unauthorized
  let extra ← decodeExtra header
  (subUpdates rt crypto cfg header extra).foldlM (fun s update ↦ update s) s

def isContiguous : UInt64 → List Header → Bool
  | _, [] => true
  | n, header :: headers => bigUint64 header.number == n + 1 && isContiguous (n + 1) headers

/-- The loop of `apply`. What the runtime leaves open may differ from header to
header, so `rt` is a schedule by header number. -/
def applyHeaders (rt : UInt64 → Runtime) (crypto : Crypto) (cfg : Config) (snap : Snapshot)
    (headers : List Header) : Go Snapshot :=
  headers.foldlM (fun snap header ↦
    snap.applyHeader (rt (bigUint64 header.number)) crypto cfg header) snap

def advance (s : Snapshot) (count : ℕ) (hash : Hash) : Snapshot :=
  { s with number := s.number + .ofNat count, hash := hash }

def apply (rt : UInt64 → Runtime) (crypto : Crypto) (cfg : Config) (s : Snapshot)
    (headers : List Header) : Go Snapshot :=
  match headers.getLast? with
  | none => .ok s
  | some last => do
    if !isContiguous s.number headers then fail .invalidVotingChain
    let snap ← s.copy.applyHeaders rt crypto cfg headers
    let snap := snap.advance headers.length (crypto.rlpHash last)
    snap.verifyTallyCnt
    return snap

end Snapshot

end BjutEth.Alien
