import BjutEth.Alien.Types

namespace BjutEth.Clique

abbrev Address := BitVec 160
abbrev Hash := BitVec 256

/-- The fields of a header that clique reads; `rest` are the others. The number stands for its
low 64 bits. -/
structure Header where
  parentHash : Hash
  uncleHash : Hash
  coinbase : Address
  difficulty : ℤ
  number : ℕ
  time : ℕ
  extra : Bytes
  mixDigest : Hash
  nonce : BitVec 64
  rest : Bytes
  deriving DecidableEq

inductive CliqueError
  | unknownBlock | futureBlock | invalidCheckpointBeneficiary | invalidVote | invalidCheckpointVote
  | missingVanity | missingSignature | extraSigners | invalidCheckpointSigners | invalidMixDigest
  | invalidUncleHash | invalidDifficulty | unknownAncestor | invalidTimestamp | invalidVotingChain
  | unauthorized | waitTransactions | ecrecover | signFn
  deriving DecidableEq

abbrev Go (α : Type) := Outcome CliqueError α

structure Config where
  period : ℕ
  epoch : ℕ
  epoch_ne_zero : epoch ≠ 0

def epochLength : ℕ := 30000

theorem epochLength_ne_zero : epochLength ≠ 0 := by decide

def Config.new (period epoch : ℕ) : Config :=
  if h : epoch = 0 then ⟨period, epochLength, epochLength_ne_zero⟩ else ⟨period, epoch, h⟩

def nonceAuthVote : BitVec 64 := .ofNat 64 0xffffffffffffffff
def nonceDropVote : BitVec 64 := 0

structure Vote where
  signer : Address
  block : ℕ
  address : Address
  authorize : Bool
  deriving DecidableEq

structure Tally where
  authorize : Bool
  votes : ℕ
  deriving DecidableEq

/-- `Snapshot`; a set of signers is a map to nothing, as in Go. -/
structure Snapshot where
  number : ℕ
  hash : Hash
  signers : GoMap Address Unit
  recents : GoMap ℕ Address
  votes : List Vote
  tally : GoMap Address Tally

def subUint64 (a b : ℕ) : ℕ := (a + (2 ^ 64 - b % 2 ^ 64)) % 2 ^ 64

def succUint64 (a : ℕ) : ℕ := (a + 1) % 2 ^ 64

def newSnapshot (number : ℕ) (hash : Hash) (signers : List Address) : Snapshot where
  number := number
  hash := hash
  signers := signers.foldl (fun m a ↦ m.insert a ()) ∅
  recents := ∅
  votes := []
  tally := ∅

namespace Snapshot

variable (snap : Snapshot)

def limit : ℕ := snap.signers.size / 2 + 1

def isSigner (a : Address) : Bool := (snap.signers[a]?).isSome

def validVote (address : Address) (authorize : Bool) : Bool :=
  snap.isSigner address && !authorize || !snap.isSigner address && authorize

def cast (address : Address) (authorize : Bool) : Bool × Snapshot :=
  if snap.validVote address authorize = false then (false, snap)
  else
    match snap.tally[address]? with
    | some old => (true, { snap with tally := snap.tally.insert address ⟨old.authorize, old.votes + 1⟩ })
    | none => (true, { snap with tally := snap.tally.insert address ⟨authorize, 1⟩ })

/-- `uncast`; its result is not read. -/
def uncast (address : Address) (authorize : Bool) : Snapshot :=
  match snap.tally[address]? with
  | none => snap
  | some tally =>
    if tally.authorize ≠ authorize then snap
    else if 1 < tally.votes then
      { snap with tally := snap.tally.insert address ⟨tally.authorize, tally.votes - 1⟩ }
    else { snap with tally := snap.tally.erase address }

def resetVotes (cfg : Config) (snap : Snapshot) (number : ℕ) : Snapshot :=
  if number % cfg.epoch = 0 then { snap with votes := [], tally := ∅ } else snap

def dropRecent (number : ℕ) : Snapshot :=
  if snap.limit ≤ number then { snap with recents := snap.recents.erase (number - snap.limit) }
  else snap

def discardVote (signer coinbase : Address) : Snapshot :=
  match snap.votes.findIdx? fun v ↦ v.signer = signer ∧ v.address = coinbase with
  | none => snap
  | some i =>
    match snap.votes[i]? with
    | none => snap
    | some vote =>
      let snap := snap.uncast vote.address vote.authorize
      { snap with votes := snap.votes.eraseIdx i }

def voteOf (nonce : BitVec 64) : Option Bool :=
  if nonce = nonceAuthVote then some true else if nonce = nonceDropVote then some false else none

def castVote (signer : Address) (number : ℕ) (coinbase : Address) (authorize : Bool) : Snapshot :=
  let (ok, snap) := snap.cast coinbase authorize
  if ok then { snap with votes := snap.votes ++ [⟨signer, number, coinbase, authorize⟩] } else snap

def discardVotesOf (coinbase : Address) : List Vote → Snapshot → Snapshot × List Vote
  | [], snap => (snap, [])
  | v :: votes, snap =>
    if v.signer = coinbase then discardVotesOf coinbase votes (snap.uncast v.address v.authorize)
    else
      let (snap, kept) := discardVotesOf coinbase votes snap
      (snap, v :: kept)

def removeSigner (number : ℕ) (coinbase : Address) : Snapshot :=
  let snap := dropRecent { snap with signers := snap.signers.erase coinbase } number
  let r := discardVotesOf coinbase snap.votes snap
  { r.1 with votes := r.2 }

def settleVotes (coinbase : Address) : Snapshot :=
  { snap with
    votes := snap.votes.filter fun v ↦ v.address ≠ coinbase
    tally := snap.tally.erase coinbase }

def passVote (number : ℕ) (coinbase : Address) : Snapshot :=
  let tally := (snap.tally[coinbase]?).getD ⟨false, 0⟩
  if snap.signers.size / 2 < tally.votes then
    if tally.authorize then
      settleVotes { snap with signers := snap.signers.insert coinbase () } coinbase
    else settleVotes (snap.removeSigner number coinbase) coinbase
  else snap

def acceptSigner (cfg : Config) (snap : Snapshot) (number : ℕ) (signer : Address) : Go Snapshot :=
  let snap := (snap.resetVotes cfg number).dropRecent number
  if snap.isSigner signer = false then .error (.err .unauthorized)
  else if snap.recents.toList.any (fun e ↦ e.2 = signer) then .error (.err .unauthorized)
  else .ok { snap with recents := snap.recents.insert number signer }

def applyHeader (cfg : Config) (recover : Header → Go Address) (snap : Snapshot) (header : Header) :
    Go Snapshot := do
  let signer ← recover header
  let snap ← snap.acceptSigner cfg header.number signer
  let snap := snap.discardVote signer header.coinbase
  match voteOf header.nonce with
  | none => .error (.err .invalidVote)
  | some authorize =>
    return (snap.castVote signer header.number header.coinbase authorize).passVote header.number
      header.coinbase

def contiguous : ℕ → List Header → Bool
  | _, [] => true
  | number, header :: headers => header.number = succUint64 number && contiguous header.number headers

def apply (cfg : Config) (hash : Header → Hash) (recover : Header → Go Address) (s : Snapshot)
    (headers : List Header) : Go Snapshot :=
  match headers.getLast? with
  | none => .ok s
  | some last =>
    if contiguous s.number headers = false then .error (.err .invalidVotingChain)
    else do
      let snap ← headers.foldlM (applyHeader cfg recover) s
      return { snap with number := (snap.number + headers.length) % 2 ^ 64, hash := hash last }

def sortedSigners (snap : Snapshot) : List Address := snap.signers.keys

/-- `inturn`; without signers the division panics. -/
def inturn (snap : Snapshot) (number : ℕ) (signer : Address) : Go Bool :=
  let signers := snap.sortedSigners
  if signers.length = 0 then .error .panic
  else .ok (number % signers.length = signers.findIdx (· = signer))

/-- The check of the recent signers in `verifySeal`, whose subtraction wraps around. -/
def sealRecents (snap : Snapshot) (number : ℕ) (signer : Address) : Bool :=
  snap.recents.toList.all fun e ↦ !(decide (e.2 = signer) && decide (subUint64 number snap.limit < e.1))

end Snapshot

end BjutEth.Clique
