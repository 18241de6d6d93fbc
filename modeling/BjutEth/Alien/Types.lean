import BjutEth.Lib.Bytes
import BjutEth.Lib.GoMap
import BjutEth.Lib.Outcome

namespace BjutEth.Alien

abbrev Address := BitVec 160
abbrev Hash := BitVec 256

instance : Std.TransOrd Address := inferInstanceAs (Std.TransOrd (BitVec 160))

instance : Std.LawfulEqOrd Address := inferInstanceAs (Std.LawfulEqOrd (BitVec 160))

instance : Std.TransOrd Hash := inferInstanceAs (Std.TransOrd (BitVec 256))

instance : Std.LawfulEqOrd Hash := inferInstanceAs (Std.LawfulEqOrd (BitVec 256))

/-- `big.Int.Uint64`: the low 64 bits of the absolute value. -/
def bigUint64 (x : ℤ) : UInt64 := .ofNat x.natAbs

/-- `int(x)` of a `uint64` on a 64-bit platform. -/
def goInt (x : UInt64) : ℤ := x.toBitVec.toInt

inductive AlienError
  | unknownBlock | missingVanity | missingSignature | invalidMixDigest | invalidUncleHash
  | invalidTimestamp | invalidVotingChain | unauthorized | punishedMissing | waitTransactions
  | createSignerQueueNotAllowed | invalidSignerQueue | signerQueueEmpty | invalidNeighborSigner
  | missingGenesisLightConfig | lastLoopHeaderFail | incorrectTallyCount | allStakeMissing
  | futureBlock | unknownAncestor | notSideChain | mcRpcClient | mcPeriodMissing
  | mcGasChargingInvalid
  | rlp
  | recover
  deriving DecidableEq, Repr

abbrev Go (α : Type) := Outcome AlienError α

def fail {α : Type} (e : AlienError) : Go α := .error (.err e)
def goPanic {α : Type} : Go α := .error .panic
def goHang {α : Type} : Go α := .error .hang

def failIf (c : Prop) [Decidable c] (e : AlienError) : Go Unit := if c then fail e else .ok ()

theorem failIf_eq_ok {c : Prop} [Decidable c] {e : AlienError} {u : Unit} :
    failIf c e = .ok u ↔ ¬ c := by
  unfold failIf
  split_ifs with h
  · exact ⟨fun h' ↦ (by cases h'), fun h' ↦ absurd h h'⟩
  · exact ⟨fun _ ↦ h, fun _ ↦ rfl⟩

def defaultFullCredit : UInt64 := 28800
def missingPublishCredit : UInt64 := 100
def signRewardCredit : UInt64 := 10
def autoRewardCredit : UInt64 := 1
def minCalSignerQueueCredit : UInt64 := 10000
def defaultOfficialMaxSignerCount : ℕ := 21
def defaultOfficialFirstLevelCount : ℕ := 10
def defaultOfficialSecondLevelCount : ℕ := 20
def defaultOfficialThirdLevelCount : ℕ := 30
def defaultOfficialMaxValidCount : ℕ := 50
def maxUncheckBalanceVoteCount : ℕ := 10000
def candidateStateNormal : UInt64 := 1
def candidateMaxLen : ℕ := 500
def scRewardDelayLoopCount : UInt64 := 0
def scRewardExpiredLoopCount : UInt64 := scRewardDelayLoopCount + 4
def scMaxCountPerPeriod : UInt64 := 6
def scMaxConfirmedRecordLength : ℕ := defaultOfficialMaxSignerCount * 50
def proposalRefundDelayLoopCount : UInt64 := 0
def proposalRefundExpiredLoopCount : UInt64 := proposalRefundDelayLoopCount + 2
def mcNoticeClearDelayLoopCount : UInt64 := 4
def scNoticeClearDelayLoopCount : UInt64 := mcNoticeClearDelayLoopCount * scMaxCountPerPeriod * 2
def bugFixBlockNumber : ℤ := 14456164
def checkpointInterval : ℕ := 360
def extraVanity : ℕ := 32
def extraSeal : ℕ := 65
def defaultEpochLength : UInt64 := 201600
def defaultBlockPeriod : UInt64 := 3
def defaultMaxSignerCount : UInt64 := 21
def defaultLoopCntRecalculateSigners : UInt64 := 10
def minerRewardPerThousand : UInt64 := 618
def candidateNeedPD : Bool := false
def noticeTypeGasCharging : UInt64 := 1
def ether : ℤ := 10 ^ 18

def cycle {α : Type} (n : ℕ) (l : List α) : List α :=
  (List.range n).filterMap (fun i ↦ l[i % l.length]?)

/-- The part of `params.AlienConfig` the engine reads. -/
structure AlienConfig where
  period : UInt64
  epoch : UInt64
  maxSignerCount : UInt64
  minVoterBalance : ℤ
  genesisTimestamp : UInt64
  selfVoteSigners : List Address
  sideChain : Bool
  trantorBlock : Option ℤ
  deriving DecidableEq

/-- The configuration an engine runs with: `New` replaces a zero
`MaxSignerCount` by its default. -/
structure Config extends AlienConfig where
  maxSignerCount_ne : maxSignerCount ≠ 0
  deriving DecidableEq

def AlienConfig.isTrantor (c : AlienConfig) (num : ℤ) : Bool :=
  match c.trantorBlock with
  | none => false
  | some b => decide (b ≤ num)

structure Header where
  parentHash : Hash
  uncleHash : Hash
  coinbase : Address
  root : Hash
  txHash : Hash
  receiptHash : Hash
  bloom : BitVec 2048
  difficulty : ℤ
  number : ℤ
  gasLimit : UInt64
  gasUsed : UInt64
  time : ℤ
  extra : Bytes
  mixDigest : Hash
  nonce : BitVec 64
  deriving DecidableEq

structure Vote where
  voter : Address
  candidate : Address
  stake : ℤ
  deriving DecidableEq

structure Confirmation where
  signer : Address
  blockNumber : ℤ
  deriving DecidableEq

structure Declare where
  proposalHash : Hash
  declarer : Address
  decision : Bool
  deriving DecidableEq

structure Proposal where
  hash : Hash
  receivedNumber : ℤ
  currentDeposit : ℤ
  validationLoopCnt : UInt64
  proposalType : UInt64
  proposer : Address
  targetAddress : Address
  minerRewardPerThousand : UInt64
  scHash : Hash
  scBlockCountPerPeriod : UInt64
  scBlockRewardPerPeriod : UInt64
  declares : List Declare
  minVoterBalance : UInt64
  proposalDeposit : UInt64
  scRentFee : UInt64
  scRentRate : UInt64
  scRentLength : UInt64
  deriving DecidableEq

structure SCConfirmation where
  hash : Hash
  coinbase : Address
  number : UInt64
  loopInfo : List Bytes
  deriving DecidableEq

structure SCSetCoinbase where
  hash : Hash
  signer : Address
  coinbase : Address
  deriving DecidableEq

structure GasCharging where
  target : Address
  volume : UInt64
  hash : Hash
  deriving DecidableEq

structure HeaderExtra where
  currentBlockConfirmations : List Confirmation
  currentBlockVotes : List Vote
  currentBlockProposals : List Proposal
  currentBlockDeclares : List Declare
  modifyPredecessorVotes : List Vote
  loopStartTime : UInt64
  signerQueue : List Address
  signerMissing : List Address
  confirmedBlockNumber : UInt64
  sideChainConfirmations : List SCConfirmation
  sideChainSetCoinbases : List SCSetCoinbase
  sideChainNoticeConfirmed : List SCConfirmation
  sideChainCharging : List GasCharging
  deriving DecidableEq

def HeaderExtra.zero : HeaderExtra := ⟨[], [], [], [], [], 0, [], [], 0, [], [], [], []⟩

structure SCBlockReward where
  rewardScoreMap : GoMap Address UInt64
  deriving DecidableEq

structure SCReward where
  scBlockRewardMap : GoMap UInt64 SCBlockReward
  deriving DecidableEq

structure SCRentInfo where
  rentPerPeriod : ℤ
  maxRewardNumber : ℤ
  deriving DecidableEq

structure SCRecord where
  record : GoMap UInt64 (List SCConfirmation)
  lastConfirmedNumber : UInt64
  maxHeaderNumber : UInt64
  countPerPeriod : UInt64
  rewardPerPeriod : UInt64
  rentReward : GoMap Hash SCRentInfo
  deriving DecidableEq

structure NoticeCR where
  nRecord : GoMap Address Bool
  number : UInt64
  type : UInt64
  success : Bool
  deriving DecidableEq

structure CCNotice where
  currentCharging : GoMap Hash GasCharging
  confirmReceived : GoMap Hash NoticeCR
  deriving DecidableEq

/-- `Snapshot`, without its pointers to the engine's configuration and
signature cache. `loopVar` records which entries of `proposals` hold the
address of a range variable, by a number for each variable: the keys with one
number there share one `Proposal` in memory. -/
structure Snapshot where
  lcrs : UInt64
  period : UInt64
  number : UInt64
  confirmedNumber : UInt64
  hash : Hash
  historyHash : List Hash
  signers : List Address
  votes : GoMap Address Vote
  tally : GoMap Address ℤ
  voters : GoMap Address ℤ
  candidates : GoMap Address UInt64
  punished : GoMap Address UInt64
  confirmations : GoMap UInt64 (List Address)
  proposals : GoMap Hash Proposal
  headerTime : UInt64
  loopStartTime : UInt64
  proposalRefund : GoMap UInt64 (GoMap Address ℤ)
  scCoinbase : GoMap Address (GoMap Hash Address)
  scRecordMap : GoMap Hash SCRecord
  scRewardMap : GoMap Hash SCReward
  scNoticeMap : GoMap Hash CCNotice
  localNotice : CCNotice
  minerReward : UInt64
  minVB : ℤ
  loopVar : GoMap Hash ℕ
  deriving DecidableEq

namespace Snapshot

def isSideChainExist (s : Snapshot) (hash : Hash) : Bool := s.scRecordMap.contains hash

def isVoter (s : Snapshot) (address : Address) : Bool := s.voters.contains address

def isCandidate (s : Snapshot) (address : Address) : Bool := s.candidates.contains address

end Snapshot

/-- What the Go runtime leaves open: the order in which a `range` loop visits
the entries of a map, and how `sort.Sort` orders elements that compare equal. -/
structure Runtime where
  rangeOrder : ∀ {α : Type}, List α → List α
  rangeOrder_perm : ∀ {α : Type} (l : List α), (rangeOrder l).Perm l
  sort : ∀ {α : Type}, (α → α → Bool) → List α → List α
  sort_perm : ∀ {α : Type} (less : α → α → Bool) (l : List α), (sort less l).Perm l
  sort_sorted : ∀ {α : Type} (less : α → α → Bool) (l : List α),
    (∀ a b c, less a b → less b c → less a c) → (∀ a, less a a = false) →
    (∀ a b c, less a b = false → less b c = false → less a c = false) →
    (sort less l).Pairwise (fun a b ↦ less b a = false)

/-- The order of two elements that are not `less` the other way. -/
def notLess {α : Type} (less : α → α → Bool) (a b : α) : Prop := less b a = false

instance {α : Type} (less : α → α → Bool) : DecidableRel (notLess less) :=
  fun a b ↦ inferInstanceAs (Decidable (less b a = false))

/-- The runtime that visits maps in the order of their keys and sorts stably. -/
def Runtime.inOrder : Runtime where
  rangeOrder l := l
  rangeOrder_perm l := .refl l
  sort less l := l.insertionSort (notLess less)
  sort_perm less l := l.perm_insertionSort (notLess less)
  sort_sorted less l htrans hirrefl hneg := by
    have htot : Std.Total (notLess less) := ⟨fun a b ↦ by
      by_cases h : less b a = true
      · refine .inr (Bool.eq_false_iff.mpr (fun h' ↦ ?_))
        have := hirrefl a
        rw [htrans a b a h' h] at this
        cases this
      · exact .inl (Bool.eq_false_iff.mpr h)⟩
    have hle : IsTrans _ (notLess less) := ⟨fun a b c hab hbc ↦ hneg c b a hbc hab⟩
    exact l.pairwise_insertionSort (notLess less)

end BjutEth.Alien
