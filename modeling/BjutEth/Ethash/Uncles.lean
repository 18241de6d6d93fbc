import BjutEth.Lib.Bytes

namespace BjutEth.Ethash

abbrev Address := BitVec 160
abbrev Hash := BitVec 256

structure Header where
  parentHash : Hash
  coinbase : Address
  difficulty : ℤ
  number : ℤ
  gasLimit : UInt64
  gasUsed : UInt64
  time : ℤ
  extra : Bytes
  rest : Bytes
  deriving DecidableEq

structure Block where
  header : Header
  uncles : List Header

inductive EthashError
  | tooManyUncles | duplicateUncle | uncleIsAncestor | danglingUncle
  | extraTooLong | largeBlockTime | futureBlock | zeroBlockTime | invalidDifficulty
  | gasLimitCap | invalidGasUsed | invalidGasLimit | invalidNumber | invalidSeal
  deriving DecidableEq

/-- What ethash calls: the hash of headers, the difficulty rule of the chain and the check of a
seal. -/
structure Engine where
  hash : Header → Hash
  calcDifficulty : UInt64 → Header → ℤ
  verifySeal : Header → Bool
  fullFake : Bool

def maxUncles : ℕ := 2
def allowedFutureBlockTime : ℤ := 15
def maximumExtraDataSize : ℕ := 32
def gasLimitBoundDivisor : UInt64 := 64
def minGasLimit : UInt64 := 500000
def maxBig256 : ℤ := 2 ^ 256 - 1

/-- The gas limit is near that of the parent: the difference is taken on `int64`. -/
def gasLimitInBounds (header parent : Header) : Bool :=
  let diff := parent.gasLimit.toInt64 - header.gasLimit.toInt64
  let diff := if diff < 0 then diff * -1 else diff
  diff.toUInt64 < parent.gasLimit / gasLimitBoundDivisor && minGasLimit ≤ header.gasLimit

namespace Engine

variable (E : Engine)

def verifyHeader (now : ℤ) (header parent : Header) (uncle checkSeal : Bool) : Except EthashError Unit :=
  if maximumExtraDataSize < header.extra.length then .error .extraTooLong
  else if uncle = true ∧ maxBig256 < header.time then .error .largeBlockTime
  else if uncle = false ∧ now + allowedFutureBlockTime < header.time then .error .futureBlock
  else if header.time ≤ parent.time then .error .zeroBlockTime
  else if E.calcDifficulty (.ofNat header.time.natAbs) parent ≠ header.difficulty then
    .error .invalidDifficulty
  else if 0x7fffffffffffffff < header.gasLimit then .error .gasLimitCap
  else if header.gasLimit < header.gasUsed then .error .invalidGasUsed
  else if gasLimitInBounds header parent = false then .error .invalidGasLimit
  else if header.number - parent.number ≠ 1 then .error .invalidNumber
  else if checkSeal = true ∧ E.verifySeal header = false then .error .invalidSeal
  else .ok ()

def gather (getBlock : Hash → UInt64 → Option Block) : ℕ → Hash → UInt64 →
    (Hash → Option Header) → List Hash → (Hash → Option Header) × List Hash
  | 0, _, _, ancestors, uncles => (ancestors, uncles)
  | n + 1, parent, number, ancestors, uncles =>
    match getBlock parent number with
    | none => (ancestors, uncles)
    | some ancestor =>
      gather getBlock n ancestor.header.parentHash (number - 1)
        (Function.update ancestors (E.hash ancestor.header) (some ancestor.header))
        (uncles ++ ancestor.uncles.map E.hash)

def checkUncles (now : ℤ) (block : Block) (ancestors : Hash → Option Header) :
    List Hash → List Header → Except EthashError Unit
  | _, [] => .ok ()
  | uncles, uncle :: rest =>
    let hash := E.hash uncle
    if hash ∈ uncles then .error .duplicateUncle
    else if (ancestors hash).isSome then .error .uncleIsAncestor
    else
      match ancestors uncle.parentHash with
      | none => .error .danglingUncle
      | some parent =>
        if uncle.parentHash = block.header.parentHash then .error .danglingUncle
        else do
          E.verifyHeader now uncle parent true true
          checkUncles now block ancestors (uncles ++ [hash]) rest

def verifyUncles (now : ℤ) (getBlock : Hash → UInt64 → Option Block) (block : Block) :
    Except EthashError Unit :=
  if E.fullFake then .ok ()
  else if maxUncles < block.uncles.length then .error .tooManyUncles
  else
    let (ancestors, uncles) := E.gather getBlock 7 block.header.parentHash
      (UInt64.ofNat block.header.number.natAbs - 1) (fun _ ↦ none) []
    let ancestors := Function.update ancestors (E.hash block.header) (some block.header)
    let uncles := uncles ++ [E.hash block.header]
    E.checkUncles now block ancestors uncles block.uncles

end Engine

def frontierBlockReward : ℤ := 5 * 10 ^ 18
def byzantiumBlockReward : ℤ := 3 * 10 ^ 18

def isByzantium (byzantiumBlock : Option ℤ) (number : ℤ) : Bool :=
  byzantiumBlock.any fun fork ↦ fork ≤ number

def blockReward (byzantiumBlock : Option ℤ) (header : Header) : ℤ :=
  if isByzantium byzantiumBlock header.number then byzantiumBlockReward else frontierBlockReward

def uncleReward (reward : ℤ) (header uncle : Header) : ℤ :=
  (uncle.number + 8 - header.number) * reward / 8

def addBalance (balances : Address → ℤ) (addr : Address) (amount : ℤ) : Address → ℤ :=
  Function.update balances addr (balances addr + amount)

def accumulateRewards (byzantiumBlock : Option ℤ) (balances : Address → ℤ) (header : Header)
    (uncles : List Header) : Address → ℤ :=
  let R := blockReward byzantiumBlock header
  let (balances, reward) := uncles.foldl
    (fun (s : (Address → ℤ) × ℤ) uncle ↦
      (addBalance s.1 uncle.coinbase (uncleReward R header uncle), s.2 + R / 32))
    (balances, R)
  addBalance balances header.coinbase reward

end BjutEth.Ethash
