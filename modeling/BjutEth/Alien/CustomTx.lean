import BjutEth.Alien.Engine

namespace BjutEth.Alien

open GoText

def ufoPrefix : Text := ofString "ufo"
def ufoVersion : Text := ofString "1"
def ufoCategoryEvent : Text := ofString "event"
def ufoCategoryLog : Text := ofString "oplog"
def ufoCategorySC : Text := ofString "sc"
def ufoEventVote : Text := ofString "vote"
def ufoEventConfirm : Text := ofString "confirm"
def ufoEventPorposal : Text := ofString "proposal"
def ufoEventDeclare : Text := ofString "declare"
def ufoEventSetCoinbase : Text := ofString "setcb"
def ufoMinSplitLen : ℕ := 3
def posPrefix : ℕ := 0
def posVersion : ℕ := 1
def posCategory : ℕ := 2
def posEventVote : ℕ := 3
def posEventConfirm : ℕ := 3
def posEventProposal : ℕ := 3
def posEventDeclare : ℕ := 3
def posEventConfirmNumber : ℕ := 4
def maxValidationLoopCnt : ℤ := 50000
def minValidationLoopCnt : ℤ := 4
def defaultValidationLoopCnt : UInt64 := 10000
def maxProposalDeposit : ℤ := 100000
def minSCRentFee : ℤ := 100
def minSCRentLength : ℤ := 850000
def defaultSCRentLength : ℤ := minSCRentLength * 3
def maxSCRentLength : ℤ := defaultSCRentLength * 4
def minSCSetCoinbaseValue : ℤ := 5 * ether
def proposalDeposit : ℤ := 10 ^ 4 * ether

theorem ufoNames_ne : ufoCategorySC ≠ ufoCategoryEvent ∧ ufoCategorySC ≠ ufoCategoryLog ∧
    ufoEventConfirm ≠ ufoEventSetCoinbase := by
  decide +kernel

def AlienConfig.currentMinVoterBalance (config : AlienConfig) : ℤ :=
  if bigUint64 config.minVoterBalance > 0 then config.minVoterBalance else 100 * ether

/-- A transaction as the engine sees it: `sender` is what `types.Sender` recovers, and
`recipient` is `To()`, nil for the creation of a contract. -/
structure Transaction where
  sender : Option Address
  recipient : Option Address
  value : ℤ
  gasPrice : ℤ
  data : Bytes
  hash : Hash
  deriving DecidableEq

structure Receipt where
  txHash : Hash
  status : UInt64
  gasUsed : UInt64
  deriving DecidableEq

structure RefundPair where
  sender : Address
  gasPrice : ℤ
  deriving DecidableEq

/-- The variables that the loop of `processCustomTx` writes, with the balances of the state. -/
structure TxResults where
  headerExtra : HeaderExtra
  balances : GoMap Address ℤ
  refundHash : GoMap Hash RefundPair
  deriving DecidableEq

/-- A nil pointer or an index out of range is a panic. -/
def orPanic {α : Type} : Option α → Go α
  | none => goPanic
  | some a => .ok a

/-- The loop over the keys and values after position `pos`; `field` gives none where the
source returns out of the loop. -/
def readFields {β : Type} (pos : ℕ) (txDataInfo : List Text) (field : β → Text → Text → Option β)
    (start : β) : Go (Option β) :=
  (List.range ((txDataInfo.drop (pos + 1)).length / 2)).foldlM (fun acc i ↦
    match acc with
    | none => .ok none
    | some b => do
      let k ← orPanic txDataInfo[pos + 1 + i * 2]?
      let v ← orPanic txDataInfo[pos + 2 + i * 2]?
      return field b k v) (some start)

/-- A field that `strconv.Atoi` reads, and `uint64` converts if it is in range. -/
def atoiField (inRange : ℤ → Bool) (v : Text) : Option UInt64 :=
  (atoi v).bind (fun x ↦ if inRange x then some (.ofInt x) else none)

def Proposal.fresh (config : AlienConfig) (hash : Hash) (proposer : Address) : Proposal where
  hash := hash
  receivedNumber := 0
  currentDeposit := Alien.proposalDeposit
  validationLoopCnt := defaultValidationLoopCnt
  proposalType := proposalTypeCandidateAdd
  proposer := proposer
  targetAddress := 0
  minerRewardPerThousand := Alien.minerRewardPerThousand
  scHash := 0
  scBlockCountPerPeriod := 1
  scBlockRewardPerPeriod := 0
  declares := []
  minVoterBalance := bigUint64 (config.currentMinVoterBalance / ether)
  proposalDeposit := bigUint64 (Alien.proposalDeposit / ether)
  scRentFee := 0
  scRentRate := 1
  scRentLength := .ofInt defaultSCRentLength

/-- The `switch` over the key of a proposal's field. A hash or an address that does not
parse leaves the field alone. -/
def proposalField (p : Proposal) (k v : Text) : Option Proposal :=
  if k = ofString "vlcnt" then
    (atoiField (fun x ↦ minValidationLoopCnt ≤ x && x ≤ maxValidationLoopCnt) v).map
      (fun x ↦ { p with validationLoopCnt := x })
  else if k = ofString "schash" then
    some { p with scHash := (unmarshalFixedText 32 v).getD p.scHash }
  else if k = ofString "sccount" then
    (atoiField (fun _ ↦ true) v).map (fun x ↦ { p with scBlockCountPerPeriod := x })
  else if k = ofString "screward" then
    (atoiField (fun _ ↦ true) v).map (fun x ↦ { p with scBlockRewardPerPeriod := x })
  else if k = ofString "proposal_type" then
    (atoiField (fun _ ↦ true) v).map (fun x ↦ { p with proposalType := x })
  else if k = ofString "candidate" then
    some { p with targetAddress := (unmarshalFixedText 20 v).getD p.targetAddress }
  else if k = ofString "mrpt" then
    (atoiField (fun x ↦ 0 < x && x ≤ 1000) v).map (fun x ↦ { p with minerRewardPerThousand := x })
  else if k = ofString "mvb" then
    (atoiField (fun x ↦ 0 < x) v).map (fun x ↦ { p with minVoterBalance := x })
  else if k = ofString "mpd" then
    (atoiField (fun x ↦ 0 < x && x ≤ maxProposalDeposit) v).map
      (fun x ↦ { p with proposalDeposit := x })
  else if k = ofString "scrt" then
    some { p with targetAddress := (unmarshalFixedText 20 v).getD p.targetAddress }
  else if k = ofString "scrf" then
    (atoiField (fun x ↦ minSCRentFee ≤ x) v).map (fun x ↦ { p with scRentFee := x })
  else if k = ofString "scrr" then
    (atoiField (fun x ↦ 0 < x) v).map (fun x ↦ { p with scRentRate := x })
  else if k = ofString "scrl" then
    (atoiField (fun x ↦ minSCRentLength ≤ x && x ≤ maxSCRentLength) v).map
      (fun x ↦ { p with scRentLength := x })
  else some p

def declareField (d : Declare) (k v : Text) : Option Declare :=
  if k = ofString "hash" then
    some { d with proposalHash := (unmarshalFixedText 32 v).getD d.proposalHash }
  else if k = ofString "decision" then
    if v = ofString "yes" then some { d with decision := true }
    else if v = ofString "no" then some { d with decision := false }
    else none
  else some d

namespace TxResults

def payProposal (results : TxResults) (proposal : Proposal) (pay : ℤ) : TxResults :=
  if results.balances.getD proposal.proposer 0 < pay then results
  else
    { results with
      balances := results.balances.insert proposal.proposer
        (results.balances.getD proposal.proposer 0 - pay)
      headerExtra := { results.headerExtra with
        currentBlockProposals := results.headerExtra.currentBlockProposals ++ [proposal] } }

def processEventProposal (config : AlienConfig) (txDataInfo : List Text) (tx : Transaction)
    (proposer : Address) (snap : Option Snapshot) (results : TxResults) : Go TxResults :=
  if txDataInfo.length ≤ posEventProposal + 2 then .ok results
  else do
    match ← readFields posEventProposal txDataInfo proposalField (.fresh config tx.hash proposer) with
    | none => return results
    | some proposal =>
      if proposal.proposalType = proposalTypeRentSideChain then
        let snap ← orPanic snap
        return if !snap.isSideChainExist proposal.scHash || proposal.targetAddress = 0 then results
          else results.payProposal proposal (proposalDeposit + proposal.scRentFee.toNat * ether)
      else return results.payProposal proposal proposalDeposit

def processEventDeclare (txDataInfo : List Text) (declarer : Address) (results : TxResults) :
    Go TxResults :=
  if txDataInfo.length ≤ posEventDeclare + 2 then .ok results
  else do
    match ← readFields posEventDeclare txDataInfo declareField ⟨0, declarer, true⟩ with
    | none => return results
    | some d =>
      return { results with
        headerExtra := { results.headerExtra with
          currentBlockDeclares := results.headerExtra.currentBlockDeclares ++ [d] } }

/-- `processEventVote`, which reads `*tx.To()`. -/
def processEventVote (tx : Transaction) (voter : Address) (results : TxResults) : Go TxResults := do
  let candidate ← orPanic tx.recipient
  return { results with
    headerExtra := { results.headerExtra with
      currentBlockVotes := results.headerExtra.currentBlockVotes ++
        [⟨voter, candidate, results.balances.getD voter 0⟩] } }

def mayConfirm (chain : ChainReader) (confirmedBlockNumber : ℤ) (confirmer : Address) : Bool :=
  match chain.getHeaderByNumber (bigUint64 confirmedBlockNumber) with
  | none => false
  | some confirmedHeader =>
    if extraVanity + extraSeal > confirmedHeader.extra.length then false
    else
      match decodeExtra confirmedHeader with
      | .ok extra => extra.signerQueue.contains confirmer
      | .error _ => false

def processEventConfirm (config : AlienConfig) (chain : ChainReader) (txDataInfo : List Text)
    (number : UInt64) (tx : Transaction) (confirmer : Address) (results : TxResults) : Go TxResults :=
  if txDataInfo.length ≤ posEventConfirmNumber then .ok results
  else do
    let text ← orPanic txDataInfo[posEventConfirmNumber]?
    match bigUnmarshalText text with
    | none => return results
    | some confirmedBlockNumber =>
      return if number - bigUint64 confirmedBlockNumber > config.maxSignerCount ||
          !mayConfirm chain confirmedBlockNumber confirmer then results
        else
          { results with
            headerExtra := { results.headerExtra with
              currentBlockConfirmations := results.headerExtra.currentBlockConfirmations ++
                [⟨confirmer, confirmedBlockNumber⟩] }
            refundHash := results.refundHash.insert tx.hash ⟨confirmer, tx.gasPrice⟩ }

def processSCEventConfirm (hash : Hash) (number : UInt64) (loopInfo : Text) (tx : Transaction)
    (txSender : Address) (results : TxResults) : TxResults :=
  { results with
    headerExtra := { results.headerExtra with
      sideChainConfirmations := results.headerExtra.sideChainConfirmations ++
        [⟨hash, txSender, number, split 35 loopInfo⟩] }
    refundHash := results.refundHash.insert tx.hash ⟨txSender, tx.gasPrice⟩ }

def processSCEventNoticeConfirm (hash : Hash) (number : UInt64) (chargingInfo : Text)
    (txSender : Address) (results : TxResults) : TxResults :=
  if chargingInfo = [] then results
  else
    { results with
      headerExtra := { results.headerExtra with
        sideChainNoticeConfirmed := results.headerExtra.sideChainNoticeConfirmed ++
          [⟨hash, txSender, number, split 35 chargingInfo⟩] } }

def processSCEventSetCoinbase (hash : Hash) (signer coinbase : Address) (results : TxResults) :
    TxResults :=
  { results with
    headerExtra := { results.headerExtra with
      sideChainSetCoinbases := results.headerExtra.sideChainSetCoinbases ++ [⟨hash, signer, coinbase⟩] } }

def modifyVoter (snap : Snapshot) (voter : Address) (results : TxResults) : TxResults :=
  if snap.isVoter voter then
    { results with
      headerExtra := { results.headerExtra with
        modifyPredecessorVotes := results.headerExtra.modifyPredecessorVotes ++
          [⟨voter, 0, results.balances.getD voter 0⟩] } }
  else results

def processPredecessorVoter (tx : Transaction) (voter : Address) (snap : Option Snapshot)
    (results : TxResults) : Go TxResults :=
  match tx.recipient with
  | none => .ok results
  | some recipient =>
    if tx.value > 0 then do
      let snap ← orPanic snap
      return (results.modifyVoter snap voter).modifyVoter snap recipient
    else .ok results

/-- The condition on a vote: the pointers it goes through are not checked. -/
def mayVote (snap : Option Snapshot) (tx : Transaction) (txSender : Address) (results : TxResults) :
    Go Bool := do
  let eligible ←
    if candidateNeedPD then do return (← orPanic snap).isCandidate (← orPanic tx.recipient)
    else .ok true
  if eligible = false then return false
  else return results.balances.getD txSender 0 > (← orPanic snap).minVB

def processEvent (config : AlienConfig) (chain : ChainReader) (number : UInt64)
    (snap : Option Snapshot) (txDataInfo : List Text) (tx : Transaction) (txSender : Address)
    (results : TxResults) : Go TxResults :=
  if txDataInfo.length ≤ ufoMinSplitLen then .ok results
  else do
    let action ← orPanic txDataInfo[posEventVote]?
    if action = ufoEventVote then
      if ← mayVote snap tx txSender results then processEventVote tx txSender results
      else return results
    else if action = ufoEventConfirm then
      if (← orPanic snap).isCandidate txSender then
        processEventConfirm config chain txDataInfo number tx txSender results
      else return results
    else if action = ufoEventPorposal then
      processEventProposal config txDataInfo tx txSender snap results
    else if action = ufoEventDeclare then
      if (← orPanic snap).isCandidate txSender then processEventDeclare txDataInfo txSender results
      else return results
    else return results

/-- A confirmation of a side chain. Where a number does not parse, `continue` ends the
round: the second component is false. -/
def processSCConfirm (txDataInfo : List Text) (tx : Transaction) (txSender : Address)
    (results : TxResults) : Go (TxResults × Bool) :=
  if txDataInfo.length ≤ ufoMinSplitLen + 5 then .ok (results, true)
  else do
    let numberText ← orPanic txDataInfo[ufoMinSplitLen + 2]?
    let timeText ← orPanic txDataInfo[ufoMinSplitLen + 3]?
    match bigUnmarshalText numberText, bigUnmarshalText timeText with
    | some number, some _ =>
      let loopInfo ← orPanic txDataInfo[ufoMinSplitLen + 4]?
      let hashText ← orPanic txDataInfo[ufoMinSplitLen + 1]?
      let chargingInfo ← orPanic txDataInfo[ufoMinSplitLen + 5]?
      let scHash := hexToBits 256 hashText
      return ((results.processSCEventConfirm scHash (bigUint64 number) loopInfo tx
        txSender).processSCEventNoticeConfirm scHash (bigUint64 number) chargingInfo txSender, true)
    | _, _ => return (results, false)

def processSCSetCoinbase (snap : Option Snapshot) (txDataInfo : List Text) (tx : Transaction)
    (txSender : Address) (results : TxResults) : Go TxResults := do
  let snap ← orPanic snap
  if snap.isCandidate txSender = true ∧ ufoMinSplitLen + 1 < txDataInfo.length ∧
      minSCSetCoinbaseValue ≤ tx.value then
    let hashText ← orPanic txDataInfo[ufoMinSplitLen + 1]?
    let coinbase ← orPanic tx.recipient
    return results.processSCEventSetCoinbase (hexToBits 256 hashText) txSender coinbase
  else return results

def processSC (snap : Option Snapshot) (txDataInfo : List Text) (tx : Transaction)
    (txSender : Address) (results : TxResults) : Go (TxResults × Bool) :=
  if txDataInfo.length ≤ ufoMinSplitLen then .ok (results, true)
  else do
    let action ← orPanic txDataInfo[posEventConfirm]?
    if action = ufoEventConfirm then processSCConfirm txDataInfo tx txSender results
    else if action = ufoEventSetCoinbase then
      return (← processSCSetCoinbase snap txDataInfo tx txSender results, true)
    else return (results, true)

end TxResults

def ufoFields (data : Bytes) : Go (Option (List Text)) :=
  let txDataInfo := split 58 data
  if data.length < ufoPrefix.length || txDataInfo.length < ufoMinSplitLen then .ok none
  else do
    let first ← orPanic txDataInfo[posPrefix]?
    let version ← orPanic txDataInfo[posVersion]?
    return if first = ufoPrefix && version = ufoVersion then some txDataInfo else none

namespace TxResults

variable (config : AlienConfig) (chain : ChainReader) (number : UInt64)

def processData (snap : Option Snapshot) (tx : Transaction) (txSender : Address) (results : TxResults) :
    Go (TxResults × Bool) := do
  match ← ufoFields tx.data with
  | none => return (results, true)
  | some txDataInfo =>
    let category ← orPanic txDataInfo[posCategory]?
    if category = ufoCategoryEvent then
      return (← processEvent config chain number snap txDataInfo tx txSender results, true)
    else if category = ufoCategoryLog then return (results, true)
    else if category = ufoCategorySC then processSC snap txDataInfo tx txSender results
    else return (results, true)

def processTx (snap : Option Snapshot) (results : TxResults) (tx : Transaction) : Go TxResults :=
  match tx.sender with
  | none => .ok results
  | some txSender => do
    let (results, checkVoters) ← processData config chain number snap tx txSender results
    if checkVoters = true ∧ number > 1 then processPredecessorVoter tx txSender snap results
    else return results

def processTxs (snap : Option Snapshot) (results : TxResults) (txs : List Transaction) : Go TxResults :=
  txs.foldlM (processTx config chain number snap) results

end TxResults

def refundAddGas (refundGas : GoMap Address ℤ) (address : Address) (value : ℤ) : GoMap Address ℤ :=
  refundGas.insert address (refundGas.getD address 0 + value)

def refundReceipts (refundHash : GoMap Hash RefundPair) (receipts : List Receipt) : GoMap Address ℤ :=
  receipts.foldl (fun refundGas receipt ↦
    match refundHash[receipt.txHash]? with
    | none => refundGas
    | some pair =>
      if receipt.status = 1 then
        refundAddGas refundGas pair.sender (pair.gasPrice * goInt receipt.gasUsed)
      else refundGas) ∅

structure CustomTxResult where
  headerExtra : HeaderExtra
  refundGas : GoMap Address ℤ
  balances : GoMap Address ℤ
  deriving DecidableEq

namespace Engine

variable (rt : UInt64 → Runtime) (crypto : Crypto) (chain : ChainReader) (now : ℕ)

/-- The snapshot that `processCustomTx` asks for: none in the first block. -/
def customTxSnapshot (header : Header) : EngineCall (Option Snapshot) :=
  if bigUint64 header.number > 1 then do
    let snap ← snapshot rt crypto chain now (bigUint64 header.number - 1) header.parentHash [] []
      defaultLoopCntRecalculateSigners
    return some snap
  else return none

def processCustomTx (headerExtra : HeaderExtra) (header : Header) (balances : GoMap Address ℤ)
    (txs : List Transaction) (receipts : List Receipt) :
    EngineCall CustomTxResult := do
  let snap ← customTxSnapshot rt crypto chain now header
  let config := (← Call.get).config
  let results ← TxResults.processTxs config.toAlienConfig chain (bigUint64 header.number) snap
    ⟨headerExtra, balances, ∅⟩ txs
  return ⟨results.headerExtra, refundReceipts results.refundHash receipts, results.balances⟩

end Engine

end BjutEth.Alien
