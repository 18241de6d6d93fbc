import BjutEth.Alien.Apply
import BjutEth.Lib.Call

namespace BjutEth.Alien

/-- What the engine reads through `consensus.ChainReader`. `getMainChainSnapshotByTime`
is the answer a side chain gets from its main chain by RPC. -/
structure ChainReader where
  config : AlienConfig
  genesis : Header
  genesis_number : genesis.number = 0
  getHeader : Hash → UInt64 → Option Header
  getHeaderByNumber : UInt64 → Option Header
  getHeaderByNumber_zero : getHeaderByNumber 0 = some genesis
  getMainChainSnapshotByTime : UInt64 → Hash → Go Snapshot

/-- The reader of a stored chain, whose main chain answers with `mainChain`. -/
def ChainReader.ofHeaders (crypto : Crypto) (config : AlienConfig) (mainChain : UInt64 → Hash → Go Snapshot)
    (genesis : Header) (hgenesis : genesis.number = 0) (headers : List Header) : ChainReader where
  config := config
  genesis := genesis
  genesis_number := hgenesis
  getHeader hash number :=
    (genesis :: headers).find? (fun h ↦ crypto.rlpHash h = hash && bigUint64 h.number = number)
  getHeaderByNumber number := (genesis :: headers).find? (fun h ↦ bigUint64 h.number = number)
  getHeaderByNumber_zero := by
    rw [List.find?_cons_of_pos]
    rw [hgenesis]
    rfl
  getMainChainSnapshotByTime := mainChain

/-- `Alien`, with the package variables it shares with nothing else. -/
structure Engine where
  config : Config
  recents : GoMap Hash Snapshot
  db : GoMap Hash Snapshot
  signer : Address
  mcLoopStartTime : UInt64
  mcPeriod : UInt64
  mcSignerLength : UInt64
  deriving DecidableEq

abbrev EngineCall (α : Type) := Call Engine AlienError α

def AlienConfig.withDefaults (config : AlienConfig) : Config where
  period := if config.period = 0 then defaultBlockPeriod else config.period
  epoch := if config.epoch = 0 then defaultEpochLength else config.epoch
  maxSignerCount :=
    if config.maxSignerCount = 0 then defaultMaxSignerCount else config.maxSignerCount
  minVoterBalance := config.minVoterBalance
  genesisTimestamp := config.genesisTimestamp
  selfVoteSigners := config.selfVoteSigners
  sideChain := config.sideChain
  trantorBlock := config.trantorBlock
  maxSignerCount_ne := by
    split_ifs with h
    · decide
    · exact h

def Engine.new (config : AlienConfig) (db : GoMap Hash Snapshot) : Engine :=
  ⟨config.withDefaults, ∅, db, 0, 0, 0, 0⟩

def verifyStandalone (crypto : Crypto) (now : ℕ) (header : Header) : Go Unit := do
  failIf (header.time > now) .futureBlock
  failIf (header.extra.length < extraVanity) .missingVanity
  failIf (header.extra.length < extraVanity + extraSeal) .missingSignature
  failIf (header.mixDigest ≠ 0) .invalidMixDigest
  failIf (header.uncleHash ≠ crypto.uncleHash) .invalidUncleHash

namespace Engine

/-- A snapshot in memory, or a checkpoint on disk. Loading one gives a copy of what was
stored. -/
def lookup (e : Engine) (number : ℕ) (hash : Hash) : Option Snapshot :=
  match e.recents[hash]? with
  | some snap => some snap
  | none => if number % checkpointInterval = 0 then (e.db[hash]?).map Snapshot.copy else none

def store (e : Engine) (snap : Snapshot) : Engine := { e with db := e.db.insert snap.hash snap }

/-- What `snapshot` does with its result: every new checkpoint goes to disk. -/
def keep (e : Engine) (snap : Snapshot) (new : Bool) : Engine :=
  let e := { e with recents := e.recents.insert snap.hash snap }
  if snap.number.toNat % checkpointInterval = 0 && new then e.store snap else e

theorem keep_config (e : Engine) (snap : Snapshot) (new : Bool) : (e.keep snap new).config = e.config := by
  unfold keep
  split_ifs <;> rfl

section Chain

variable (rt : UInt64 → Runtime) (crypto : Crypto) (chain : ChainReader) (now : ℕ)

/-- The header to go back over: the last of the explicit parents, while there are any. -/
def gatherHeader (number : UInt64) (hash : Hash) (parents : List Header) : Go Header :=
  match parents.getLast? with
  | some header =>
    if crypto.rlpHash header ≠ hash || bigUint64 header.number ≠ number then fail .unknownAncestor
    else .ok header
  | none =>
    match chain.getHeader hash number with
    | some header => .ok header
    | none => fail .unknownAncestor

/-- The first snapshot. The genesis header is verified on its own, as its number is zero;
the configuration takes over the period of the chain. -/
def genesisSnapshot (genesisVotes : List Vote) (lcrs : UInt64) : EngineCall Snapshot := do
  verifyStandalone crypto now chain.genesis
  Call.modify (fun e ↦ { e with config := { e.config with period := chain.config.period } })
  let e ← Call.get
  let snap := newSnapshot e.config (.ofNat now) (crypto.rlpHash chain.genesis) genesisVotes lcrs
  Call.modify (fun e ↦ e.store snap)
  return snap

/-- The loop of `snapshot`: the last snapshot known, and the headers after it. -/
def findSnapshot (genesisVotes : List Vote) (lcrs : UInt64) :
    ℕ → Hash → List Header → List Header → EngineCall (Snapshot × List Header)
  | 0, hash, _, headers => do
    match (← Call.get).lookup 0 hash with
    | some snap => return (snap, headers)
    | none =>
      let snap ← genesisSnapshot crypto chain now genesisVotes lcrs
      return (snap, headers)
  | number + 1, hash, parents, headers => do
    match (← Call.get).lookup (number + 1) hash with
    | some snap => return (snap, headers)
    | none =>
      let header ← gatherHeader crypto chain (.ofNat (number + 1)) hash parents
      findSnapshot genesisVotes lcrs number header.parentHash parents.dropLast (header :: headers)

def snapshot (number : UInt64) (hash : Hash) (parents : List Header) (genesisVotes : List Vote)
    (lcrs : UInt64) : EngineCall Snapshot := do
  let (snap, headers) ← findSnapshot crypto chain now genesisVotes lcrs number.toNat hash parents []
  let snap ← snap.apply rt crypto (← Call.get).config headers
  Call.modify (fun e ↦ e.keep snap (!headers.isEmpty))
  return snap

end Chain

end Engine

end BjutEth.Alien
