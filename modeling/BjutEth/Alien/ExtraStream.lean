import BjutEth.Alien.Extra
import BjutEth.Rlp.Records

/-! The extra-data as the reflective encoder writes it and the stream decoder reads it. -/

namespace BjutEth.Alien

open Rlp StreamedFields Streamed

theorem hashLength_ne_one : 32 ≠ 1 := by decide

def hashStream : Streamed hashCodec := .array 32 hashLength_ne_one

def voteStream : Streamed voteCodec :=
  (struct (cons addressStream (cons addressStream (one .bigInt)))).imap

def confirmationStream : Streamed confirmationCodec :=
  (struct (cons addressStream (one .bigInt))).imap

def declareStream : Streamed declareCodec :=
  (struct (cons hashStream (cons addressStream (one .bool)))).imap

def proposalStream : Streamed proposalCodec :=
  (struct
    (cons hashStream (cons .bigInt (cons .bigInt (cons .uint (cons .uint (cons addressStream
      (cons addressStream (cons .uint (cons hashStream (cons .uint (cons .uint
        (cons declareStream.listOf (cons .uint (cons .uint (cons .uint
          (cons .uint (one .uint)))))))))))))))))).imap

def scConfirmationStream : Streamed scConfirmationCodec :=
  (struct
    (cons hashStream (cons addressStream (cons .uint (one text.listOf))))).imap

def scSetCoinbaseStream : Streamed scSetCoinbaseCodec :=
  (struct (cons hashStream (cons addressStream (one addressStream)))).imap

def gasChargingStream : Streamed gasChargingCodec :=
  (struct (cons addressStream (cons .uint (one hashStream)))).imap

def headerExtraStream : Streamed headerExtraCodec :=
  (struct
    (cons confirmationStream.listOf (cons voteStream.listOf (cons proposalStream.listOf
      (cons declareStream.listOf (cons voteStream.listOf (cons .uint (cons addressStream.listOf
        (cons addressStream.listOf (cons .uint (cons scConfirmationStream.listOf
          (cons scSetCoinbaseStream.listOf (cons scConfirmationStream.listOf
            (one gasChargingStream.listOf)))))))))))))).imap

def writeHeaderExtra (val : HeaderExtra) : Option Bytes :=
  Encbuf.encodeToBytes (headerExtraStream.write val)

def readHeaderExtra (fuel : ℕ) (b : Bytes) : Outcome DecodeError HeaderExtra :=
  decodeBytes (headerExtraStream.dec fuel) b

def HeaderExtra.bigInts (val : HeaderExtra) : List ℤ :=
  val.currentBlockConfirmations.map (·.blockNumber) ++ val.currentBlockVotes.map (·.stake) ++
    val.currentBlockProposals.flatMap (fun p ↦ [p.receivedNumber, p.currentDeposit]) ++
    val.modifyPredecessorVotes.map (·.stake)

theorem encodable_vote (v : Vote) : voteCodec.encodable v = decide (0 ≤ v.stake) := rfl

theorem encodable_confirmation (c : Confirmation) :
    confirmationCodec.encodable c = decide (0 ≤ c.blockNumber) := rfl

theorem all_encodable_declares (l : List Declare) : l.all declareCodec.encodable = true :=
  List.all_eq_true.mpr (fun _ _ ↦ rfl)

theorem encodable_proposal (p : Proposal) : proposalCodec.encodable p =
    (decide (0 ≤ p.receivedNumber) && decide (0 ≤ p.currentDeposit)) := by
  have h : proposalCodec.encodable p = (decide (0 ≤ p.receivedNumber) &&
      (decide (0 ≤ p.currentDeposit) && (p.declares.all declareCodec.encodable && true))) := rfl
  rw [h, all_encodable_declares, Bool.and_self, Bool.and_true]

theorem all_encodable_texts (l : List SCConfirmation) :
    l.all scConfirmationCodec.encodable = true :=
  List.all_eq_true.mpr (fun _ _ ↦ List.all_eq_true.mpr (fun _ _ ↦ rfl))

theorem encodable_iff (val : HeaderExtra) :
    headerExtraCodec.encodable val = true ↔ ∀ x ∈ val.bigInts, 0 ≤ x := by
  have h : headerExtraCodec.encodable val =
      (val.currentBlockConfirmations.all confirmationCodec.encodable &&
        (val.currentBlockVotes.all voteCodec.encodable &&
          (val.currentBlockProposals.all proposalCodec.encodable &&
            (val.currentBlockDeclares.all declareCodec.encodable &&
              (val.modifyPredecessorVotes.all voteCodec.encodable &&
                (val.signerQueue.all (fun _ ↦ true) && (val.signerMissing.all (fun _ ↦ true) &&
                  (val.sideChainConfirmations.all scConfirmationCodec.encodable &&
                    (val.sideChainSetCoinbases.all (fun _ ↦ true) &&
                      (val.sideChainNoticeConfirmed.all scConfirmationCodec.encodable &&
                        val.sideChainCharging.all (fun _ ↦ true))))))))))) := rfl
  rw [h, all_encodable_declares, all_encodable_texts, all_encodable_texts]
  simp only [List.all_eq_true, Bool.and_eq_true, encodable_vote, encodable_confirmation,
    encodable_proposal, decide_eq_true_eq, HeaderExtra.bigInts, List.mem_append, List.mem_map,
    List.mem_flatMap, List.mem_cons, List.not_mem_nil, or_false, true_and, and_true,
    implies_true]
  constructor
  · rintro ⟨hc, hv, hp, hm⟩ x (((⟨c, hcm, rfl⟩ | ⟨v, hvm, rfl⟩) | ⟨p, hpm, rfl | rfl⟩) | ⟨v, hvm, rfl⟩)
    · exact hc c hcm
    · exact hv v hvm
    · exact (hp p hpm).1
    · exact (hp p hpm).2
    · exact hm v hvm
  intro hx
  exact ⟨fun c hc ↦ hx _ (.inl (.inl (.inl ⟨c, hc, rfl⟩))),
    fun v hv ↦ hx _ (.inl (.inl (.inr ⟨v, hv, rfl⟩))),
    fun p hp ↦ ⟨hx _ (.inl (.inr ⟨p, hp, .inl rfl⟩)), hx _ (.inl (.inr ⟨p, hp, .inr rfl⟩))⟩,
    fun v hv ↦ hx _ (.inr ⟨v, hv, rfl⟩)⟩

/-- The stream decoder accepts what the codec of the consensus model accepts. -/
theorem readHeaderExtra_returns_iff {b : Bytes} (hlen : b.length < 2 ^ 64) (val : HeaderExtra) :
    Outcome.Returns (fun fuel ↦ readHeaderExtra fuel b) val ↔ decodeHeaderExtra b = .ok val := by
  constructor
  · intro h
    obtain ⟨henc, rfl⟩ := headerExtraStream.means_of_returns h
    exact decodeHeaderExtra_encodeHeaderExtra (if_pos ⟨henc, hlen⟩)
  · intro h
    unfold decodeHeaderExtra at h
    split at h
    · next hd =>
      cases h
      obtain ⟨henc, rfl⟩ := headerExtraCodec.encode_of_decodeBytes hd
      exact headerExtraStream.returns_encode henc hlen
    · cases h

/-- Writing and reading the extra-data are inverse to each other. -/
theorem headerExtra_bijection :
    (∀ val : HeaderExtra, (∀ x ∈ val.bigInts, 0 ≤ x) →
      (headerExtraCodec.encode val).length < 2 ^ 64 → ∃ b, writeHeaderExtra val = some b ∧
        Outcome.Returns (fun fuel ↦ readHeaderExtra fuel b) val) ∧
    (∀ b val, Outcome.Returns (fun fuel ↦ readHeaderExtra fuel b) val →
      writeHeaderExtra val = some b) ∧
    ∀ b b' val, Outcome.Returns (fun fuel ↦ readHeaderExtra fuel b) val →
      Outcome.Returns (fun fuel ↦ readHeaderExtra fuel b') val → b = b' := by
  have hwrite : ∀ val, headerExtraCodec.encodable val = true →
      writeHeaderExtra val = some (headerExtraCodec.encode val) := by
    intro val henc
    exact (headerExtraStream.writes val henc).encodeToBytes
  refine ⟨?_, ?_, ?_⟩
  · intro val hx hlen
    have henc := (encodable_iff val).mpr hx
    exact ⟨_, hwrite val henc, headerExtraStream.returns_encode henc hlen⟩
  · intro b val h
    obtain ⟨henc, rfl⟩ := headerExtraStream.means_of_returns h
    exact hwrite val henc
  intro b b' val h h'
  exact (headerExtraStream.means_of_returns h).2.trans
    (headerExtraStream.means_of_returns h').2.symm

end BjutEth.Alien
