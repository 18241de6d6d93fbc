import BjutEth.Alien.Types
import BjutEth.Rlp.Codec

namespace BjutEth.Alien

open Rlp List

def addressCodec : Codec Address := array 20
def hashCodec : Codec Hash := array 32

def voteCodec : Codec Vote :=
  (struct (addressCodec.pair (addressCodec.pair bigInt))).imap
    (fun (voter, candidate, stake) ↦ ⟨voter, candidate, stake⟩)
    (fun v ↦ (v.voter, v.candidate, v.stake)) (fun _ ↦ rfl) (fun _ ↦ rfl)

def confirmationCodec : Codec Confirmation :=
  (struct (addressCodec.pair bigInt)).imap
    (fun (signer, blockNumber) ↦ ⟨signer, blockNumber⟩)
    (fun c ↦ (c.signer, c.blockNumber)) (fun _ ↦ rfl) (fun _ ↦ rfl)

def declareCodec : Codec Declare :=
  (struct (hashCodec.pair (addressCodec.pair bool))).imap
    (fun (proposalHash, declarer, decision) ↦ ⟨proposalHash, declarer, decision⟩)
    (fun d ↦ (d.proposalHash, d.declarer, d.decision)) (fun _ ↦ rfl) (fun _ ↦ rfl)

def proposalCodec : Codec Proposal :=
  (struct
    (hashCodec.pair (bigInt.pair (bigInt.pair (uint.pair (uint.pair (addressCodec.pair
      (addressCodec.pair (uint.pair (hashCodec.pair (uint.pair (uint.pair
        ((listOf declareCodec).pair (uint.pair (uint.pair (uint.pair
          (uint.pair uint))))))))))))))))).imap
    (fun (hash, receivedNumber, currentDeposit, validationLoopCnt, proposalType, proposer,
        targetAddress, minerRewardPerThousand, scHash, scBlockCountPerPeriod,
        scBlockRewardPerPeriod, declares, minVoterBalance, proposalDeposit, scRentFee,
        scRentRate, scRentLength) ↦
      ⟨hash, receivedNumber, currentDeposit, validationLoopCnt, proposalType, proposer,
        targetAddress, minerRewardPerThousand, scHash, scBlockCountPerPeriod,
        scBlockRewardPerPeriod, declares, minVoterBalance, proposalDeposit, scRentFee,
        scRentRate, scRentLength⟩)
    (fun p ↦ (p.hash, p.receivedNumber, p.currentDeposit, p.validationLoopCnt, p.proposalType,
      p.proposer, p.targetAddress, p.minerRewardPerThousand, p.scHash, p.scBlockCountPerPeriod,
      p.scBlockRewardPerPeriod, p.declares, p.minVoterBalance, p.proposalDeposit, p.scRentFee,
      p.scRentRate, p.scRentLength))
    (fun _ ↦ rfl) (fun _ ↦ rfl)

def scConfirmationCodec : Codec SCConfirmation :=
  (struct (hashCodec.pair (addressCodec.pair (uint.pair (listOf text))))).imap
    (fun (hash, coinbase, number, loopInfo) ↦ ⟨hash, coinbase, number, loopInfo⟩)
    (fun c ↦ (c.hash, c.coinbase, c.number, c.loopInfo)) (fun _ ↦ rfl) (fun _ ↦ rfl)

def scSetCoinbaseCodec : Codec SCSetCoinbase :=
  (struct (hashCodec.pair (addressCodec.pair addressCodec))).imap
    (fun (hash, signer, coinbase) ↦ ⟨hash, signer, coinbase⟩)
    (fun c ↦ (c.hash, c.signer, c.coinbase)) (fun _ ↦ rfl) (fun _ ↦ rfl)

def gasChargingCodec : Codec GasCharging :=
  (struct (addressCodec.pair (uint.pair hashCodec))).imap
    (fun (target, volume, hash) ↦ ⟨target, volume, hash⟩)
    (fun c ↦ (c.target, c.volume, c.hash)) (fun _ ↦ rfl) (fun _ ↦ rfl)

def headerExtraCodec : Codec HeaderExtra :=
  (struct
    ((listOf confirmationCodec).pair ((listOf voteCodec).pair ((listOf proposalCodec).pair
      ((listOf declareCodec).pair ((listOf voteCodec).pair (uint.pair ((listOf addressCodec).pair
        ((listOf addressCodec).pair (uint.pair ((listOf scConfirmationCodec).pair
          ((listOf scSetCoinbaseCodec).pair ((listOf scConfirmationCodec).pair
            (listOf gasChargingCodec)))))))))))))).imap
    (fun (confirmations, votes, proposals, declares, predecessorVotes, loopStartTime, signerQueue,
        signerMissing, confirmedBlockNumber, scConfirmations, scSetCoinbases, scNoticeConfirmed,
        scCharging) ↦
      ⟨confirmations, votes, proposals, declares, predecessorVotes, loopStartTime, signerQueue,
        signerMissing, confirmedBlockNumber, scConfirmations, scSetCoinbases, scNoticeConfirmed,
        scCharging⟩)
    (fun e ↦ (e.currentBlockConfirmations, e.currentBlockVotes, e.currentBlockProposals,
      e.currentBlockDeclares, e.modifyPredecessorVotes, e.loopStartTime, e.signerQueue,
      e.signerMissing, e.confirmedBlockNumber, e.sideChainConfirmations, e.sideChainSetCoinbases,
      e.sideChainNoticeConfirmed, e.sideChainCharging))
    (fun _ ↦ rfl) (fun _ ↦ rfl)

/-- `encodeHeaderExtra`. No slice has 2^64 bytes, so a longer encoding counts as
a failure. -/
def encodeHeaderExtra (val : HeaderExtra) : Go Bytes :=
  if headerExtraCodec.encodable val = true ∧ (headerExtraCodec.encode val).length < 2 ^ 64 then
    .ok (headerExtraCodec.encode val)
  else fail .rlp

def decodeHeaderExtra (b : Bytes) : Go HeaderExtra :=
  match headerExtraCodec.decodeBytes b with
  | some val => .ok val
  | none => fail .rlp

/-- `header.Extra[extraVanity : len(header.Extra)-extraSeal]`, decoded. The slice
panics when the extra-data is too short for both. -/
def decodeExtra (header : Header) : Go HeaderExtra :=
  if header.extra.length < extraVanity + extraSeal then goPanic
  else decodeHeaderExtra ((header.extra.take (header.extra.length - extraSeal)).drop extraVanity)

/-- What the extra-data of a header says; nothing if it does not decode. -/
def extraOf (header : Header) : HeaderExtra :=
  match decodeExtra header with
  | .ok val => val
  | .error _ => .zero

variable {header : Header} {val : HeaderExtra}

theorem extraOf_eq (h : decodeExtra header = .ok val) : extraOf header = val := by
  rw [extraOf, h]

theorem decodeHeaderExtra_encodeHeaderExtra {b : Bytes} (h : encodeHeaderExtra val = .ok b) :
    decodeHeaderExtra b = .ok val := by
  unfold encodeHeaderExtra at h
  split at h
  · next hval =>
    cases h
    rw [decodeHeaderExtra, headerExtraCodec.decodeBytes_encode val hval.1 hval.2]
  · cases h

theorem decodeExtra_eq_ok {vanity b sig : Bytes} (hext : header.extra = vanity ++ b ++ sig)
    (hv : vanity.length = extraVanity) (hs : sig.length = extraSeal) (h : encodeHeaderExtra val = .ok b) :
    decodeExtra header = .ok val := by
  have hlen : header.extra.length = (vanity ++ b).length + extraSeal := by
    rw [hext, length_append, hs]
  have htake : header.extra.take (header.extra.length - extraSeal) = vanity ++ b := by
    rw [hlen, Nat.add_sub_cancel, hext, take_left]
  unfold decodeExtra
  rw [if_neg, htake, drop_left' hv]
  · exact decodeHeaderExtra_encodeHeaderExtra h
  rw [hlen, length_append, hv]
  omega

/-- A header with a number and extra-data, and zero in every other field. -/
def Header.ofExtra (number : ℤ) (val : HeaderExtra) : Header where
  parentHash := 0
  uncleHash := 0
  coinbase := 0
  root := 0
  txHash := 0
  receiptHash := 0
  bloom := 0
  difficulty := 0
  number := number
  gasLimit := 0
  gasUsed := 0
  time := 0
  extra := replicate extraVanity 0 ++ headerExtraCodec.encode val ++ replicate extraSeal 0
  mixDigest := 0
  nonce := 0

theorem Header.ofExtra_zero_number : (Header.ofExtra 0 HeaderExtra.zero).number = 0 := rfl

theorem decodeExtra_ofExtra {number : ℤ} (henc : headerExtraCodec.encodable val = true)
    (hlen : (headerExtraCodec.encode val).length < 2 ^ 64) : decodeExtra (.ofExtra number val) = .ok val := by
  refine decodeExtra_eq_ok (b := headerExtraCodec.encode val) rfl (length_replicate ..)
    (length_replicate ..) ?_
  rw [encodeHeaderExtra, if_pos ⟨henc, hlen⟩]

theorem encode_of_decodeExtra (h : decodeExtra header = .ok val) :
    headerExtraCodec.encodable val = true ∧
      (header.extra.take (header.extra.length - extraSeal)).drop extraVanity =
        headerExtraCodec.encode val := by
  unfold decodeExtra at h
  split at h
  · cases h
  unfold decodeHeaderExtra at h
  split at h
  · next hd =>
    cases h
    exact headerExtraCodec.encode_of_decodeBytes hd
  · cases h

theorem length_signerQueue_le (h : decodeExtra header = .ok val) :
    val.signerQueue.length ≤ header.extra.length := by
  have hbytes := congrArg length (encode_of_decodeExtra h).2
  have hframe : val.signerQueue.length ≤ (headerExtraCodec.encode val).length := by
    refine (length_le_length_listOf addressCodec val.signerQueue).trans
      (le_trans ?_ (length_le_length_frame .list _))
    change _ ≤ (_ ++ (_ ++ (_ ++ (_ ++ (_ ++ (_ ++
      ((listOf addressCodec).encode val.signerQueue ++ _))))))).length
    simp only [length_append]
    omega
  rw [length_drop, length_take] at hbytes
  omega

theorem stake_nonneg_of_encodable {votes : List Vote} (h : votes.all voteCodec.encodable = true) :
    ∀ v ∈ votes, 0 ≤ v.stake := by
  intro v hv
  have hv : (true && (true && decide (0 ≤ v.stake))) = true := all_eq_true.mp h v hv
  simpa using hv

theorem stake_nonneg_of_decodeExtra (h : decodeExtra header = .ok val) :
    ∀ v ∈ val.currentBlockVotes ++ val.modifyPredecessorVotes, 0 ≤ v.stake := by
  have henc := (encode_of_decodeExtra h).1
  have hall : val.currentBlockVotes.all voteCodec.encodable = true ∧
      val.modifyPredecessorVotes.all voteCodec.encodable = true := by
    change (_ && (val.currentBlockVotes.all voteCodec.encodable && (_ && (_ &&
      (val.modifyPredecessorVotes.all voteCodec.encodable && _))))) = true at henc
    simp only [Bool.and_eq_true] at henc
    exact ⟨henc.2.1, henc.2.2.2.2.1⟩
  intro v hv
  rcases mem_append.mp hv with hv | hv
  · exact stake_nonneg_of_encodable hall.1 v hv
  · exact stake_nonneg_of_encodable hall.2 v hv

end BjutEth.Alien
