import BjutEth.Clique.Snapshot

namespace BjutEth.Clique

def extraVanity : ℕ := 32
def extraSeal : ℕ := 65
def addressLength : ℕ := 20
def diffInTurn : ℤ := 2
def diffNoTurn : ℤ := 1
def checkpointInterval : ℕ := 1024

/-- The hash functions and the recovery of a signer: `hashFields` hashes the fields of a header
for `sigHash`, `ecrecover` gives the address of the recovered key. -/
structure Crypto where
  hash : Header → Hash
  hashFields : Header → Hash
  ecrecover : Hash → Bytes → Option Address
  /-- `CalcUncleHash(nil)`. -/
  uncleHash : Hash

def Crypto.sigHash (C : Crypto) (header : Header) : Hash :=
  C.hashFields { header with extra := header.extra.take (header.extra.length - extraSeal) }

def Crypto.recover (C : Crypto) (header : Header) : Go Address :=
  if header.extra.length < extraSeal then .error (.err .missingSignature)
  else
    match C.ecrecover (C.sigHash header) (header.extra.drop (header.extra.length - extraSeal)) with
    | none => .error (.err .ecrecover)
    | some signer => .ok signer

structure ChainReader where
  getHeader : Hash → ℕ → Option Header
  genesis : Header

/-- The engine `Clique`. The snapshots in memory and on disk are partial functions of the block's
hash. -/
structure Engine where
  config : Config
  crypto : Crypto
  cached : Hash → Option Snapshot
  onDisk : Hash → Option Snapshot
  proposals : GoMap Address Bool
  signer : Address
  signFn : Hash → Option Bytes

def addressBytes (a : Address) : Bytes := fixedBytes addressLength a.toNat

def signersBytes (signers : List Address) : Bytes := signers.flatMap addressBytes

def genesisSigners (extra : Bytes) : List Address :=
  (List.range ((extra.length - extraVanity - extraSeal) / addressLength)).map fun i ↦
    .ofNat 160 (beValue ((extra.drop (extraVanity + i * addressLength)).take addressLength))

namespace Engine

variable (c : Engine)

def verifyFields (now : ℕ) (header : Header) : Go Unit :=
  let checkpoint := header.number % c.config.epoch = 0
  let signersLen := header.extra.length - extraVanity - extraSeal
  if now < header.time then .error (.err .futureBlock)
  else if checkpoint ∧ header.coinbase ≠ 0 then .error (.err .invalidCheckpointBeneficiary)
  else if header.nonce ≠ nonceAuthVote ∧ header.nonce ≠ nonceDropVote then .error (.err .invalidVote)
  else if checkpoint ∧ header.nonce ≠ nonceDropVote then .error (.err .invalidCheckpointVote)
  else if header.extra.length < extraVanity then .error (.err .missingVanity)
  else if header.extra.length < extraVanity + extraSeal then .error (.err .missingSignature)
  else if ¬ checkpoint ∧ signersLen ≠ 0 then .error (.err .extraSigners)
  else if checkpoint ∧ signersLen % addressLength ≠ 0 then .error (.err .invalidCheckpointSigners)
  else if header.mixDigest ≠ 0 then .error (.err .invalidMixDigest)
  else if header.uncleHash ≠ c.crypto.uncleHash then .error (.err .invalidUncleHash)
  else if 0 < header.number ∧ header.difficulty ≠ diffInTurn ∧ header.difficulty ≠ diffNoTurn then
    .error (.err .invalidDifficulty)
  else .ok ()

def known (number : ℕ) (hash : Hash) : Option Snapshot :=
  match c.cached hash with
  | some s => some s
  | none => if number % checkpointInterval = 0 then c.onDisk hash else none

/-- What `snapshot` leaves behind: its result in the memory cache and, at a checkpoint, on disk. -/
def remember (stored : Bool) (snap : Snapshot) : Engine :=
  { c with
    cached := Function.update c.cached snap.hash (some snap)
    onDisk := if stored then Function.update c.onDisk snap.hash (some snap) else c.onDisk }

variable (now : ℕ) (chain : ChainReader)

def genesisSnapshot : Go Snapshot := do
  c.verifyFields now chain.genesis
  return newSnapshot 0 (c.crypto.hash chain.genesis) (genesisSigners chain.genesis.extra)

/-- The loop of `snapshot`: back from a block to one whose snapshot is known. The headers on the
way are collected in ascending order. -/
def gather (now : ℕ) (chain : ChainReader) :
    ℕ → Hash → List Header → List Header → Go (Snapshot × List Header)
  | 0, hash, _, headers =>
    match c.known 0 hash with
    | some s => .ok (s, headers)
    | none => do return (← c.genesisSnapshot now chain, headers)
  | number + 1, hash, parents, headers =>
    match c.known (number + 1) hash with
    | some s => .ok (s, headers)
    | none =>
      match parents.getLast? with
      | some header =>
        if c.crypto.hash header ≠ hash ∨ header.number ≠ number + 1 then .error (.err .unknownAncestor)
        else gather now chain number header.parentHash parents.dropLast (header :: headers)
      | none =>
        match chain.getHeader hash (number + 1) with
        | none => .error (.err .unknownAncestor)
        | some header => gather now chain number header.parentHash [] (header :: headers)

def snapshot (number : ℕ) (hash : Hash) (parents : List Header) : Go Snapshot := do
  let (snap, headers) ← c.gather now chain number hash parents []
  snap.apply c.config c.crypto.hash c.crypto.recover headers

def verifySeal (header : Header) (parents : List Header) : Go Unit :=
  if header.number = 0 then .error (.err .unknownBlock)
  else do
    let snap ← c.snapshot now chain (header.number - 1) header.parentHash parents
    let signer ← c.crypto.recover header
    if snap.isSigner signer = false then .error (.err .unauthorized)
    else if snap.sealRecents header.number signer = false then .error (.err .unauthorized)
    else do
      let inturn ← snap.inturn header.number signer
      if inturn = true ∧ header.difficulty ≠ diffInTurn then .error (.err .invalidDifficulty)
      else if inturn = false ∧ header.difficulty ≠ diffNoTurn then .error (.err .invalidDifficulty)
      else .ok ()

def verifyCascadingFields (header : Header) (parents : List Header) : Go Unit :=
  if header.number = 0 then .ok ()
  else
    let parent := match parents.getLast? with
      | some parent => some parent
      | none => chain.getHeader header.parentHash (header.number - 1)
    match parent with
    | none => .error (.err .unknownAncestor)
    | some parent =>
      if parent.number ≠ header.number - 1 ∨ c.crypto.hash parent ≠ header.parentHash then
        .error (.err .unknownAncestor)
      else if header.time % 2 ^ 64 < (parent.time + c.config.period) % 2 ^ 64 then
        .error (.err .invalidTimestamp)
      else do
        let snap ← c.snapshot now chain (header.number - 1) header.parentHash parents
        if header.number % c.config.epoch = 0 ∧
            (header.extra.take (header.extra.length - extraSeal)).drop extraVanity ≠
              signersBytes snap.sortedSigners then
          .error (.err .invalidCheckpointSigners)
        else c.verifySeal now chain header parents

def verifyHeader (header : Header) (parents : List Header) : Go Unit := do
  c.verifyFields now header
  c.verifyCascadingFields now chain header parents

def calcDifficulty (snap : Snapshot) (signer : Address) : Go ℤ := do
  if ← snap.inturn (succUint64 snap.number) signer then return diffInTurn else return diffNoTurn

def int64 (x : ℕ) : ℤ := (BitVec.ofNat 64 x).toInt

/-- The vote that `Prepare` puts into a header: the coinbase and the nonce. `choose` is the
random choice. -/
def prepareVote (choose : List Address → Address) (snap : Snapshot) (number : ℕ) : Address × BitVec 64 :=
  if number % c.config.epoch ≠ 0 then
    let addresses := (c.proposals.toList.filter fun e ↦ snap.validVote e.1 e.2).map (·.1)
    if 0 < addresses.length then
      let coinbase := choose addresses
      (coinbase, if (c.proposals[coinbase]?).getD false then nonceAuthVote else nonceDropVote)
    else (0, 0)
  else (0, 0)

def prepareExtra (snap : Snapshot) (number : ℕ) (extra : Bytes) : Bytes :=
  let vanity := (extra ++ List.replicate (extraVanity - extra.length) 0).take extraVanity
  let signers := if number % c.config.epoch = 0 then signersBytes snap.sortedSigners else []
  vanity ++ signers ++ List.replicate extraSeal 0

/-- `Prepare`; `now` and `later` are its two readings of the clock. -/
def prepare (now later : ℕ) (choose : List Address → Address) (chain : ChainReader) (header : Header) :
    Go Header := do
  let snap ← c.snapshot now chain (subUint64 header.number 1) header.parentHash []
  let vote := c.prepareVote choose snap header.number
  let difficulty ← calcDifficulty snap c.signer
  match chain.getHeader header.parentHash (subUint64 header.number 1) with
  | none => .error (.err .unknownAncestor)
  | some parent =>
    let time := parent.time + c.config.period
    return { header with
      coinbase := vote.1
      nonce := vote.2
      difficulty := difficulty
      extra := c.prepareExtra snap header.number header.extra
      mixDigest := 0
      time := if int64 time < now then later else time }

/-- `Finalize`: the roots and the bloom, which are among `rest`, come from the state and the
transactions. -/
def finalize (header : Header) (rest : Bytes) : Header :=
  { header with uncleHash := c.crypto.uncleHash, rest := rest }

def mustWait (snap : Snapshot) (number : ℕ) (signer : Address) : Bool :=
  snap.recents.toList.any fun e ↦
    decide (e.2 = signer) && (decide (number < snap.limit) || decide (subUint64 number snap.limit < e.1))

/-- `Seal` of a block with the given number of transactions; `stopped` says that the miner is told
to stop before its time comes. -/
def sealBlock (now : ℕ) (stopped : Bool) (chain : ChainReader) (header : Header) (txs : ℕ) :
    Go (Option Header) :=
  if header.number = 0 then .error (.err .unknownBlock)
  else if c.config.period = 0 ∧ txs = 0 then .error (.err .waitTransactions)
  else do
    let snap ← c.snapshot now chain (header.number - 1) header.parentHash []
    if snap.isSigner c.signer = false then .error (.err .unauthorized)
    else if mustWait snap header.number c.signer then return none
    else if stopped then return none
    else if header.extra.length < extraSeal then .error .panic
    else
      match c.signFn (c.crypto.sigHash header) with
      | none => .error (.err .signFn)
      | some sighash =>
        let start := header.extra.length - extraSeal
        let kept := header.extra.drop (start + min extraSeal sighash.length)
        return some { header with extra := header.extra.take start ++ sighash.take extraSeal ++ kept }

end Engine

end BjutEth.Clique
