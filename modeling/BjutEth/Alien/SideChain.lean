import BjutEth.Alien.Types
import BjutEth.Lib.GoText

namespace BjutEth.Alien

open GoText

/-- The last value of a `uint64`: a loop `for i := a; i <= b; i++` with this
bound never ends. -/
def maxUint64 : UInt64 := 0 - 1

def loopInfoSep : UInt8 := 58

def scCurrentBlockReward (periodCount : UInt64) : List UInt64 :=
  if periodCount = 1 then [100]
  else if periodCount = 2 then [30, 70]
  else if periodCount = 3 then [15, 30, 55]
  else if periodCount = 4 then [5, 15, 30, 50]
  else if periodCount = 5 then [5, 10, 15, 25, 45]
  else if periodCount = 6 then [1, 4, 10, 15, 25, 45]
  else []

def calculateCurrentBlockReward (currentCount periodCount : UInt64) : UInt64 :=
  let periodCount := if periodCount > scMaxCountPerPeriod then scMaxCountPerPeriod else periodCount
  if currentCount = 0 then 0
  else (scCurrentBlockReward periodCount).getD (currentCount.toNat - 1) 0

def minConfirmedSignerCount (cfg : Config) : ℕ := (2 * cfg.maxSignerCount / 3).toNat

def noticeQuorum (cfg : Config) : ℕ := (2 * cfg.maxSignerCount / 3 + 1).toNat

def isLoopEnd (cfg : Config) (headerNumber : ℤ) : Bool :=
  (bigUint64 headerNumber + 1) % cfg.maxSignerCount == 0

structure ConfirmScan where
  confirmedNumber : UInt64
  confirmedRecordMap : GoMap Bytes (GoMap Address Bool)

def scanConfirmation (minConf : ℕ) (scan : ConfirmScan) (c : SCConfirmation) : Go ConfirmScan :=
  if c.loopInfo.length < minConf * 2 then .ok scan
  else
    let key := join loopInfoSep c.loopInfo
    let confirmers := scan.confirmedRecordMap.getD key ∅
    if confirmers.contains c.coinbase then .ok scan
    else
      let confirmers := confirmers.insert c.coinbase true
      let scan := { scan with confirmedRecordMap := scan.confirmedRecordMap.insert key confirmers }
      if confirmers.size < minConf then .ok scan
      else if c.loopInfo.length < 2 then goPanic
      else
        match bigUnmarshalText (c.loopInfo.getD (c.loopInfo.length - 2) []) with
        | none => .ok scan
        | some n =>
          .ok (if bigUint64 n > scan.confirmedNumber then { scan with confirmedNumber := bigUint64 n }
            else scan)

/-- The confirmations with a header number above the last confirmed one, in
the order of the loop over the header numbers. -/
def pendingConfirmations (record : SCRecord) : List SCConfirmation :=
  (record.record.toList.filter (fun e ↦
    record.lastConfirmedNumber + 1 ≤ e.1 && e.1 ≤ record.maxHeaderNumber)).flatMap (·.2)

def addCoinbases (confirmedCoinbase : GoMap UInt64 Address) : List Bytes → GoMap UInt64 Address
  | number :: coinbase :: infos =>
    match bigUnmarshalText number with
    | none => addCoinbases confirmedCoinbase infos
    | some n =>
      addCoinbases (confirmedCoinbase.insert (bigUint64 n) (hexToBits 160 coinbase)) infos
  | _ => confirmedCoinbase

def confirmedCoinbases (rt : Runtime) (minConf : ℕ)
    (confirmedRecordMap : GoMap Bytes (GoMap Address Bool)) : GoMap UInt64 Address :=
  (rt.rangeOrder confirmedRecordMap.toList).foldl (fun coinbases e ↦
    if e.2.size < minConf then coinbases else addCoinbases coinbases (split loopInfoSep e.1)) ∅

/-- The header numbers `confirmedNumber - 1`, `confirmedNumber - 2`, ... of the
same period, in the order in which they are compared with the last coinbase. -/
def periodNumbers (confirmedNumber countPerPeriod : UInt64) : List UInt64 :=
  if countPerPeriod ≤ confirmedNumber then
    (List.range (countPerPeriod.toNat - 1)).map (fun i ↦ confirmedNumber - 1 - .ofNat i)
  else []

/-- With several blocks per period, a period counts only once its coinbase is
finished: step back to the block before the unfinished period. -/
def trimPeriod (record : SCRecord) (confirmedNumber : UInt64)
    (confirmedCoinbase : GoMap UInt64 Address) : UInt64 × GoMap UInt64 Address :=
  if record.countPerPeriod > 1 && confirmedNumber > record.lastConfirmedNumber then
    match confirmedCoinbase[confirmedNumber]? with
    | none => (confirmedNumber, confirmedCoinbase)
    | some last =>
      let n := ((periodNumbers confirmedNumber record.countPerPeriod).find?
        (fun i ↦ confirmedCoinbase.getD i 0 != last)).getD confirmedNumber
      (n, confirmedCoinbase.filter (fun i _ ↦ !(n + 1 ≤ i && i < n + record.countPerPeriod)))
  else (confirmedNumber, confirmedCoinbase)

def calculateSCConfirmedNumber (rt : Runtime) (record : SCRecord) (minConf : ℕ) :
    Go (UInt64 × GoMap UInt64 Address) :=
  if record.maxHeaderNumber = maxUint64 then goHang
  else do
    let scan ← (pendingConfirmations record).foldlM (scanConfirmation minConf)
      ⟨record.lastConfirmedNumber, ∅⟩
    return trimPeriod record scan.confirmedNumber
      (confirmedCoinbases rt minConf scan.confirmedRecordMap)

structure ScoreScan where
  lastSCCoinbase : Address
  currentSCCoinbaseCount : UInt64
  rewardScoreMap : GoMap Address UInt64

def scoreBlock (countPerPeriod : UInt64) (scan : ScoreScan) (scCoinbase : Address) : ScoreScan :=
  let count := if scan.lastSCCoinbase != scCoinbase then 1 else scan.currentSCCoinbaseCount + 1
  ⟨scCoinbase, count, scan.rewardScoreMap.insert scCoinbase
    (scan.rewardScoreMap.getD scCoinbase 0 + calculateCurrentBlockReward count countPerPeriod)⟩

/-- The scores of the newly confirmed side chain blocks. The loop over their
numbers never ends when the last one is the greatest `uint64`. -/
def scoreBlocks (record : SCRecord) (confirmedNumber : UInt64)
    (confirmedCoinbase : GoMap UInt64 Address) : Go (GoMap Address UInt64) :=
  if confirmedNumber ≤ record.lastConfirmedNumber then .ok ∅
  else if confirmedNumber = maxUint64 then goHang
  else
    let blocks := confirmedCoinbase.toList.filter (fun e ↦
      record.lastConfirmedNumber + 1 ≤ e.1 && e.1 ≤ confirmedNumber)
    .ok ((blocks.map (·.2)).foldl (scoreBlock record.countPerPeriod) ⟨0, 0, ∅⟩).rewardScoreMap

namespace Snapshot

variable (rt : Runtime) (cfg : Config) (s : Snapshot)

def setSCCoinbase (scCoinbase : GoMap Address (GoMap Hash Address)) (scc : SCSetCoinbase) :
    GoMap Address (GoMap Hash Address) :=
  scCoinbase.insert scc.signer ((scCoinbase.getD scc.signer ∅).insert scc.hash scc.coinbase)

def updateSnapshotBySetSCCoinbase (scCoinbases : List SCSetCoinbase) : Snapshot :=
  { s with scCoinbase := scCoinbases.foldl setSCCoinbase s.scCoinbase }

def isSideChainCoinbase (sc : Hash) (address : Address) (realtime : Bool) : Bool :=
  if realtime then s.signers.any (fun signer ↦ (s.scCoinbase.getD signer ∅)[sc]? == some address)
  else s.scCoinbase.toList.any (fun e ↦ e.2[sc]? == some address)

def addSCConfirm (scc : SCConfirmation) (r : SCRecord) : SCRecord :=
  if scc.number > r.lastConfirmedNumber then
    { r with
      record := r.record.insert scc.number (r.record.getD scc.number [] ++ [scc])
      maxHeaderNumber := if scc.number > r.maxHeaderNumber then scc.number else r.maxHeaderNumber }
  else r

def recordSCConfirm (scc : SCConfirmation) : Snapshot :=
  { s with
    scRecordMap :=
      if s.isSideChainCoinbase scc.hash scc.coinbase false then
        s.scRecordMap.modify scc.hash (addSCConfirm scc)
      else s.scRecordMap }

def checkRecord (headerNumber : ℤ) (r : SCRecord) : SCRecord :=
  let r := { r with
    rentReward := r.rentReward.filter (fun _ rent ↦
      !(bigUint64 rent.maxRewardNumber <
        bigUint64 headerNumber - scRewardExpiredLoopCount * cfg.maxSignerCount)) }
  if r.record.size > scMaxConfirmedRecordLength then
    { r with record := ∅, lastConfirmedNumber := 0, maxHeaderNumber := 0 }
  else r

def checkSCConfirmation (headerNumber : ℤ) : Snapshot :=
  { s with scRecordMap := s.scRecordMap.map (fun _ r ↦ checkRecord cfg headerNumber r) }

def confirmRecord (headerNumber : ℤ) (s : Snapshot) (entry : Hash × SCRecord) : Go Snapshot := do
  let record := entry.2
  let reward := s.scRewardMap.getD entry.1 ⟨∅⟩
  let (confirmedNumber, confirmedCoinbase) ←
    calculateSCConfirmedNumber rt record (minConfirmedSignerCount cfg)
  let scores ← scoreBlocks record confirmedNumber confirmedCoinbase
  let record :=
    if confirmedNumber > record.lastConfirmedNumber then
      { record with
        record := record.record.filter (fun i _ ↦
          !(record.lastConfirmedNumber + 1 ≤ i && i ≤ confirmedNumber))
        lastConfirmedNumber := confirmedNumber }
    else record
  let reward : SCReward :=
    if scores.isEmpty then reward
    else ⟨reward.scBlockRewardMap.insert (bigUint64 headerNumber) ⟨scores⟩⟩
  return { s with
    scRecordMap := s.scRecordMap.insert entry.1 record
    scRewardMap := s.scRewardMap.insert entry.1 reward }

def clearReward (headerNumber : ℤ) (reward : SCReward) : Option SCReward :=
  let rewards := reward.scBlockRewardMap.filter (fun number _ ↦
    !(number < bigUint64 headerNumber - scRewardExpiredLoopCount * cfg.maxSignerCount))
  if rewards.isEmpty then none else some ⟨rewards⟩

def updateSCConfirmation (headerNumber : ℤ) : Go Snapshot := do
  let s ← (rt.rangeOrder s.scRecordMap.toList).foldlM (confirmRecord rt cfg headerNumber) s
  return { s with
    scRewardMap := s.scRewardMap.filterMap (fun _ reward ↦ clearReward cfg headerNumber reward) }

def updateSnapshotBySCConfirm (scConfirmations : List SCConfirmation) (headerNumber : ℤ) : Go Snapshot :=
  let s := scConfirmations.foldl recordSCConfirm s
  if isLoopEnd cfg headerNumber then
    updateSCConfirmation rt cfg (s.checkSCConfirmation cfg headerNumber) headerNumber
  else .ok s

def confirmNotice (coinbase : Address) (notice : CCNotice) (noticeHash : Hash) : CCNotice :=
  if notice.currentCharging.contains noticeHash then
    let cr := notice.confirmReceived.getD noticeHash ⟨∅, 0, noticeTypeGasCharging, false⟩
    { notice with
      confirmReceived := notice.confirmReceived.insert noticeHash
        { cr with nRecord := cr.nRecord.insert coinbase true } }
  else notice

def recordNoticeConfirm (c : SCConfirmation) : Snapshot :=
  { s with
    scNoticeMap :=
      if s.isSideChainCoinbase c.hash c.coinbase true then
        s.scNoticeMap.modify c.hash (fun notice ↦
          (c.loopInfo.map (hexToBits 256)).foldl (confirmNotice c.coinbase) notice)
      else s.scNoticeMap }

def noticeCleared (headerNumber : ℤ) (delay : UInt64) (cr : NoticeCR) : Bool :=
  cr.success && cr.number < bigUint64 headerNumber - cfg.maxSignerCount * delay

def settleNoticeCR (headerNumber : ℤ) (delay : UInt64) (type : NoticeCR → UInt64)
    (cr : NoticeCR) : Option NoticeCR :=
  if noticeCleared cfg headerNumber delay cr then none
  else if noticeQuorum cfg ≤ cr.nRecord.size && !cr.success then
    some ⟨cr.nRecord, bigUint64 headerNumber, type cr, true⟩
  else some cr

def settleNotice (headerNumber : ℤ) (delay : UInt64) (type : NoticeCR → UInt64)
    (notice : CCNotice) : CCNotice :=
  { currentCharging := notice.currentCharging.filter (fun hash _ ↦
      !(notice.confirmReceived[hash]?).any (noticeCleared cfg headerNumber delay))
    confirmReceived := notice.confirmReceived.filterMap (fun _ cr ↦
      settleNoticeCR cfg headerNumber delay type cr) }

def updateSnapshotByNoticeConfirm (scNoticeConfirmed : List SCConfirmation) (headerNumber : ℤ) : Snapshot :=
  let s := scNoticeConfirmed.foldl recordNoticeConfirm s
  if isLoopEnd cfg headerNumber then
    { s with
      scNoticeMap := s.scNoticeMap.map (fun _ notice ↦
        settleNotice cfg headerNumber mcNoticeClearDelayLoopCount (·.type) notice) }
  else s

/-- One gas charging of a side chain header. The confirmation record is written
without a check, so a missing one is a write to a nil map. -/
def addCharging (coinbase : Address) (notice : CCNotice) (charge : GasCharging) : Go CCNotice :=
  let notice :=
    if notice.currentCharging.contains charge.hash then notice
    else
      { currentCharging := notice.currentCharging.insert charge.hash charge
        confirmReceived :=
          notice.confirmReceived.insert charge.hash ⟨∅, 0, noticeTypeGasCharging, false⟩ }
  match notice.confirmReceived[charge.hash]? with
  | none => goPanic
  | some cr => .ok { notice with
      confirmReceived := notice.confirmReceived.insert charge.hash
        { cr with nRecord := cr.nRecord.insert coinbase true } }

def updateSnapshotBySCCharging (scCharging : List GasCharging)
    (headerNumber : ℤ) (coinbase : Address) : Go Snapshot := do
  let notice ← scCharging.foldlM (addCharging coinbase) s.localNotice
  return { s with
    localNotice :=
      if isLoopEnd cfg headerNumber then
        settleNotice cfg headerNumber scNoticeClearDelayLoopCount (fun _ ↦ noticeTypeGasCharging)
          notice
      else notice }

end Snapshot

end BjutEth.Alien
