import BjutEth.Alien.Engine

namespace BjutEth.Alien

def missingBetween (lastSigner currentSigner : Address) : Bool → List Address → List Address
  | _, [] => []
  | recordMissing, signer :: queue =>
    if signer = lastSigner then missingBetween lastSigner currentSigner true queue
    else if signer = currentSigner then []
    else if recordMissing then
      signer :: missingBetween lastSigner currentSigner recordMissing queue
    else missingBetween lastSigner currentSigner recordMissing queue

def getSignerMissing (lastSigner currentSigner : Address) (extra : HeaderExtra) (newLoop : Bool) :
    List Address :=
  if newLoop then extra.signerQueue.reverse.takeWhile (· ≠ lastSigner)
  else missingBetween lastSigner currentSigner false extra.signerQueue

/-- The loop of `getSignerMissingTrantor`: only the first occurrence of the last signer
starts it, and the current one ends it only from there. -/
def missingAfter (lastSigner currentSigner : Address) : Bool → List Address → List Address
  | _, [] => []
  | false, signer :: queue => missingAfter lastSigner currentSigner (signer = lastSigner) queue
  | true, signer :: queue =>
    if signer = currentSigner then []
    else signer :: missingAfter lastSigner currentSigner true queue

/-- Whether the backing array that RLP decoding leaves behind a queue has room for the
queue twice. The capacities are 4, 6, 9, 13, …, each half as large again as the last. -/
def appendsInPlace (queue : List Address) : Bool := queue.length ≤ 2

/-- `getSignerMissingTrantor`, and the parent's queue as it leaves it: where `append` does
not move the queue, the assignment to `signerQueue[i]` goes into the parent's own array. -/
def getSignerMissingTrantor (lastSigner currentSigner : Address) (extra gpExtra : HeaderExtra) :
    Go (List Address × List Address) :=
  let queue := extra.signerQueue
  match gpExtra.signerQueue.idxOf? lastSigner with
  | none => .ok (missingAfter lastSigner currentSigner false (queue ++ queue), queue)
  | some i =>
    if (queue ++ queue).length ≤ i then goPanic
    else
      let signerQueue := ((queue ++ queue).set i lastSigner).drop i
      .ok (missingAfter lastSigner currentSigner false signerQueue,
        if appendsInPlace queue then queue.set i lastSigner else queue)

/-- The comparison of the first `count` signers of two queues. Indexing panics where one
of them is too short. -/
def compareQueues : ℕ → List Address → List Address → Go Unit
  | 0, _, _ => .ok ()
  | count + 1, parent :: parents, current :: currents =>
    if parent ≠ current then fail .invalidSignerQueue else compareQueues count parents currents
  | _ + 1, _, _ => goPanic

section Chain

variable (crypto : Crypto) (chain : ChainReader)

def parentOf (header : Header) (parents : List Header) : Option Header :=
  match parents.getLast? with
  | some parent => some parent
  | none => chain.getHeader header.parentHash (bigUint64 header.number - 1)

def grandParentExtra (cfg : Config) (header parent : Header) (parents : List Header) :
    Go HeaderExtra :=
  let number := bigUint64 header.number
  if number % cfg.maxSignerCount = 1 then
    let grandParent :=
      if parents.length > 1 then parents[parents.length - 2]?
      else chain.getHeader parent.parentHash (number - 2)
    match grandParent with
    | none => fail .lastLoopHeaderFail
    | some grandParent => decodeExtra grandParent
  else .ok .zero

def parentSignerMissing (cfg : Config) (header parent : Header) (parents : List Header)
    (parentExtra : HeaderExtra) : Go (List Address × List Address) := do
  if cfg.isTrantor header.number then
    let gpExtra ← grandParentExtra chain cfg header parent parents
    getSignerMissingTrantor parent.coinbase header.coinbase parentExtra gpExtra
  else
    let newLoop := bigUint64 header.number % cfg.maxSignerCount == 0
    return (getSignerMissing parent.coinbase header.coinbase parentExtra newLoop,
      parentExtra.signerQueue)

/-- The check of the queue: a new one at the start of a loop, and inside a loop that of
the parent. There a signer does not follow itself before a period has passed. -/
def verifyQueue (rt : Runtime) (cfg : Config) (header parent : Header) (snap : Snapshot)
    (signer : Address) (parentExtra currentExtra : HeaderExtra) : Go Unit :=
  if bigUint64 header.number % cfg.maxSignerCount = 0 then
    snap.verifySignerQueue rt cfg currentExtra.signerQueue
  else do
    compareQueues (goInt cfg.maxSignerCount).toNat parentExtra.signerQueue currentExtra.signerQueue
    failIf (signer = parent.coinbase ∧
      bigUint64 header.time - bigUint64 parent.time < chain.config.period) .invalidNeighborSigner

def verifyLoop (rt : Runtime) (cfg : Config) (header : Header) (parents : List Header)
    (snap : Snapshot) (signer : Address) : Go Unit :=
  match parentOf chain header parents with
  | none => goPanic
  | some parent => do
    let parentExtra ← decodeExtra parent
    let currentExtra ← decodeExtra header
    verifyQueue chain rt cfg header parent snap signer parentExtra currentExtra
    let missing ← parentSignerMissing chain cfg header parent parents parentExtra
    failIf (missing.1 ≠ currentExtra.signerMissing) .punishedMissing

def verifyMainChainSeal (rt : Runtime) (cfg : Config) (header : Header) (parents : List Header)
    (snap : Snapshot) (signer : Address) : Go Unit := do
  if bigUint64 header.number > cfg.maxSignerCount then
    verifyLoop chain rt cfg header parents snap signer
  let inturn ← snap.inturn cfg signer (bigUint64 header.time)
  failIf (inturn = false) .unauthorized

/-- `mcSnapshot` on a side chain: the main chain's snapshot, if the signer is in turn there. -/
def mcSnapshot (signer : Address) (headerTime : UInt64) : Go Snapshot := do
  let ms ← chain.getMainChainSnapshotByTime headerTime chain.genesis.parentHash
  failIf ms.signers.isEmpty .signerQueueEmpty
  failIf (ms.period = 0) .mcPeriodMissing
  let loopIndex := (goInt ((headerTime - ms.loopStartTime) / ms.period)).tmod ms.signers.length
  -- a slot beyond 2^63 is a negative index
  if loopIndex < 0 then goPanic
  else if ms.signers[loopIndex.toNat]? ≠ some signer then fail .unauthorized
  else return ms

/-- The check of the charges against the notice. A charge that the notice does not have
ends it, with `err` still nil. -/
def verifyCharging (notice : CCNotice) : List GasCharging → Go Unit
  | [] => .ok ()
  | charge :: charges =>
    match notice.currentCharging[charge.hash]? with
    | none => .ok ()
    | some v =>
      if v.volume ≠ charge.volume || v.target ≠ charge.target then fail .mcGasChargingInvalid
      else verifyCharging notice charges

def verifySideChainSeal (header : Header) (signer : Address) : EngineCall Unit := do
  let ms ← mcSnapshot chain signer (bigUint64 header.time)
  Call.modify (fun e ↦
    { e with
      mcLoopStartTime := ms.loopStartTime
      mcPeriod := ms.period
      mcSignerLength := .ofNat ms.signers.length })
  let notice := ms.scNoticeMap.getD chain.genesis.parentHash ⟨∅, ∅⟩
  let currentExtra ← decodeExtra header
  failIf (notice.currentCharging.size ≠ currentExtra.sideChainCharging.length)
    .mcGasChargingInvalid
  verifyCharging notice currentExtra.sideChainCharging

namespace Engine

variable (rt : UInt64 → Runtime) (now : ℕ)

variable (header : Header) (parents : List Header)

def verifySeal : EngineCall Unit := do
  let number := bigUint64 header.number
  failIf (number = 0) .unknownBlock
  let snap ← snapshot rt crypto chain now (number - 1) header.parentHash parents []
    defaultLoopCntRecalculateSigners
  let signer ← crypto.ecrecover header
  failIf (header.number > bugFixBlockNumber ∧ signer ≠ header.coinbase) .unauthorized
  let cfg := (← Call.get).config
  if chain.config.sideChain then verifySideChainSeal chain header signer
  else verifyMainChainSeal chain (rt number) cfg header parents snap signer

def verifyParent : Go Unit :=
  match parentOf chain header parents with
  | none => fail .unknownAncestor
  | some parent => do
    failIf (bigUint64 parent.number ≠ bigUint64 header.number - 1 ∨
      crypto.rlpHash parent ≠ header.parentHash) .unknownAncestor
    failIf (bigUint64 parent.time > bigUint64 header.time) .invalidTimestamp

def verifyCascadingFields : EngineCall Unit :=
  let number := bigUint64 header.number
  if number = 0 then return ()
  else do
    verifyParent crypto chain header parents
    let _ ← snapshot rt crypto chain now (number - 1) header.parentHash parents []
      defaultLoopCntRecalculateSigners
    verifySeal crypto chain rt now header parents

def verifyHeader : EngineCall Unit := do
  verifyStandalone crypto now header
  verifyCascadingFields crypto chain rt now header parents

end Engine

end Chain

end BjutEth.Alien
