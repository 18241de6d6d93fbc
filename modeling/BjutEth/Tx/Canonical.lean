import BjutEth.Rlp.Records
import BjutEth.Tx.Signer

namespace BjutEth.Tx

open Rlp BjutEth.Rlp.Stream Streamed List

/-- `makeOptionalPtrDecoder`: an empty string and an empty list are a nil pointer. -/
def optionalPtr {α : Type} (elemdec : Dec α) : Dec (Option α) := fun s ↦
  match kindAhead s with
  | .error e s => .error e { s with kind := none }
  | .ok (kind, size) s =>
    if size = 0 ∧ kind ≠ .byte then .ok none { s with kind := none }
    else (elemdec >>= fun a ↦ pure (some a)) s

abbrev Fields := UInt64 × ℤ × UInt64 × Option Address × ℤ × Bytes × ℤ × ℤ × ℤ

def TxData.ofFields (f : Fields) : TxData where
  accountNonce := f.1
  price := f.2.1
  gasLimit := f.2.2.1
  recipient := f.2.2.2.1
  amount := f.2.2.2.2.1
  payload := f.2.2.2.2.2.1
  V := f.2.2.2.2.2.2.1
  R := f.2.2.2.2.2.2.2.1
  S := f.2.2.2.2.2.2.2.2

def TxData.fields (tx : TxData) : Fields :=
  (tx.accountNonce, tx.price, tx.gasLimit, tx.recipient, tx.amount, tx.payload, tx.V, tx.R, tx.S)

def txFields : Dec Fields :=
  andThen (notEOL (uint.dec 0)) (andThen (notEOL (bigInt.dec 0))
    (andThen (notEOL (uint.dec 0)) (andThen (notEOL (optionalPtr (addressStream.dec 0)))
      (andThen (notEOL (bigInt.dec 0)) (andThen (notEOL (text.dec 0))
        (andThen (notEOL (bigInt.dec 0)) (andThen (notEOL (bigInt.dec 0))
          (notEOL (bigInt.dec 0)))))))))

def txdata : Dec TxData := inList (fun _ ↦ txFields) >>= fun f ↦ pure (.ofFields f)

def decodeTx : Dec TxData := fun s ↦
  match kindAhead s with
  | .ok _ s => txdata s
  | .error _ s => txdata s

def writeRecipient : Option Address → Encbuf → Option Encbuf
  | none, w => some (w.write [0x80])
  | some a, w => addressStream.write a w

def writeFields (f : Fields) (w : Encbuf) : Option Encbuf :=
  (uint.write f.1 w).bind fun w ↦
  (bigInt.write f.2.1 w).bind fun w ↦
  (uint.write f.2.2.1 w).bind fun w ↦
  (writeRecipient f.2.2.2.1 w).bind fun w ↦
  (bigInt.write f.2.2.2.2.1 w).bind fun w ↦
  (text.write f.2.2.2.2.2.1 w).bind fun w ↦
  (bigInt.write f.2.2.2.2.2.2.1 w).bind fun w ↦
  (bigInt.write f.2.2.2.2.2.2.2.1 w).bind fun w ↦
  bigInt.write f.2.2.2.2.2.2.2.2 w

def encodeTx (tx : TxData) : Option Bytes :=
  Encbuf.encodeToBytes (Encbuf.inList (writeFields tx.fields))

/-! What the decoder takes for a recipient. -/

def OptionalMeans {α : Type} (means : α → Bytes → Prop) : Option α → Bytes → Prop
  | none, b => b = [0x80] ∨ b = [0xC0]
  | some a, b => means a b

theorem sound_optionalPtr {α : Type} {d : Dec α} {means : α → Bytes → Prop}
    (h : Sound d means (fun _ ↦ false)) :
    Sound (optionalPtr d) (OptionalMeans means) (fun _ ↦ false) := by
  have helem : Sound (d >>= fun a ↦ pure (some a)) (fun o b ↦ ∃ a, some a = o ∧ means a b)
      (fun _ ↦ false) := sound_pure h some (fun _ ↦ rfl)
  refine ⟨?_, ?_⟩
  · intro s lvl v tail o s' hs hd
    rcases hs.kindAhead_cases with ⟨hdr, t, hhd, hsize, hk, hp⟩ | ⟨t, hk, -⟩ | ⟨e, t, hk, -⟩
    · simp only [optionalPtr, hk] at hd
      by_cases hnil : hdr.size = 0 ∧ hdr.kind ≠ .byte
      · rw [if_pos hnil] at hd
        cases hd
        have hdrop : hdr.rest.drop hdr.size = hdr.rest := by rw [hnil.1, drop_zero]
        cases hkind : hdr.kind with
        | byte => exact absurd hkind hnil.2
        | string =>
          have hv := eq_frame_of_headerOf_string hhd hkind hsize (by rw [hnil.1]; rfl)
          rw [hnil.1] at hv
          exact ⟨_, _, .inl rfl, hv, hp.armed⟩
        | list =>
          have hv := eq_frame_of_headerOf_list hhd hkind hsize
          rw [hnil.1] at hv
          exact ⟨_, _, .inr rfl, hv, hp.armed⟩
      rw [if_neg hnil] at hd
      obtain ⟨b, rest, ⟨a, rfl, hm⟩, hv, hsee⟩ := helem.ok (.inr ⟨hdr, hhd, hsize, hp⟩) hd
      exact ⟨b, rest, hm, hv, hsee⟩
    · simp only [optionalPtr, hk] at hd
      cases hd
    · simp only [optionalPtr, hk] at hd
      cases hd
  intro s lvl v tail s' hs hd
  rcases hs.kindAhead_cases with ⟨hdr, t, hhd, hsize, hk, hp⟩ | ⟨t, hk, hv, hlvl, ha⟩ |
    ⟨e, t, hk, he⟩
  · simp only [optionalPtr, hk] at hd
    split at hd
    · cases hd
    · exact helem.eol (.inr ⟨hdr, hhd, hsize, hp⟩) hd
  · simp only [optionalPtr, hk] at hd
    cases hd
    exact ⟨hv, hlvl, ⟨ha.input, ha.remaining, ha.stack, ha.bound, ha.top⟩, rfl⟩
  simp only [optionalPtr, hk] at hd
  cases hd
  exact absurd rfl he

variable {s : Stream} {e : DecodeError} {tx : TxData}

theorem freshKind_error {t : Stream} (h : freshKind s = .error e t) :
    (∃ kind, t.kind = some kind) ∧ t.kinderr = some e := by
  unfold freshKind at h
  cases hr : readKind s with
  | error e' s' =>
    simp only [hr] at h
    cases h
    exact ⟨⟨_, rfl⟩, rfl⟩
  | ok r s' =>
    simp only [hr] at h
    cases hf : s'.fits r.2 with
    | none =>
      simp only [hf] at h
      cases h
    | some e' =>
      simp only [hf] at h
      cases h
      exact ⟨⟨_, rfl⟩, rfl⟩

theorem kindAhead_error {t : Stream} (h : kindAhead s = .error e t) : kindAhead t = .error e t := by
  have hfrs : freshKind s = .error e t → kindAhead t = .error e t := by
    intro h
    obtain ⟨⟨kind, hkind⟩, herr⟩ := freshKind_error h
    simp only [kindAhead, hkind, herr]
  unfold kindAhead at h
  cases hk : s.kind with
  | some kind =>
    cases he : s.kinderr with
    | none =>
      simp only [hk, he] at h
      cases h
    | some e' =>
      simp only [hk, he] at h
      cases h
      simp only [kindAhead, hk, he]
  | none =>
    cases hst : s.stack with
    | nil =>
      simp only [hk, hst] at h
      exact hfrs h
    | cons tos stack =>
      simp only [hk, hst] at h
      by_cases hend : tos.pos = tos.size
      · rw [if_pos hend] at h
        cases h
        simp only [kindAhead, if_pos hend]
      · rw [if_neg hend] at h
        exact hfrs h

theorem txdata_error (h : kindAhead s = .error e s) :
    txdata s = .error e s := bind_error _ (bind_error _ (bind_error _ h))

def FieldsMean : Fields → Bytes → Prop :=
  PairMeans Rlp.uint.Means (PairMeans Rlp.bigInt.Means (PairMeans Rlp.uint.Means
    (PairMeans (OptionalMeans (Rlp.array 20).Means) (PairMeans Rlp.bigInt.Means
      (PairMeans Rlp.text.Means (PairMeans Rlp.bigInt.Means (PairMeans Rlp.bigInt.Means
        Rlp.bigInt.Means)))))))

def TxMeans (tx : TxData) (b : Bytes) : Prop := ∃ f, .ofFields f = tx ∧ IsList FieldsMean f b

theorem sound_txdata : Sound txdata TxMeans (fun _ ↦ false) := by
  have huint := soundFields_notEOL (uint.sound 0)
  have hbig := soundFields_notEOL (bigInt.sound 0)
  have hto := soundFields_notEOL (sound_optionalPtr (addressStream.sound 0))
  have htext := soundFields_notEOL (text.sound 0)
  have hfld : SoundFields txFields FieldsMean :=
    huint.andThen (hbig.andThen (huint.andThen (hto.andThen (hbig.andThen (htext.andThen
      (hbig.andThen (hbig.andThen hbig)))))))
  exact sound_pure (sound_inList hfld.soundIn) _ (fun _ ↦ rfl)

theorem sound_decodeTx : Sound decodeTx TxMeans (fun _ ↦ false) := by
  refine ⟨?_, ?_⟩
  · intro s lvl v tail tx s' hs hd
    rcases hs.kindAhead_cases with ⟨hdr, t, hhd, hsize, hk, hp⟩ | ⟨t, hk, -⟩ | ⟨e, t, hk, -⟩
    · simp only [decodeTx, hk] at hd
      exact sound_txdata.ok (.inr ⟨hdr, hhd, hsize, hp⟩) hd
    · simp only [decodeTx, hk, txdata_error (kindAhead_error hk)] at hd
      cases hd
    · simp only [decodeTx, hk, txdata_error (kindAhead_error hk)] at hd
      cases hd
  intro s lvl v tail s' hs hd
  rcases hs.kindAhead_cases with ⟨hdr, t, hhd, hsize, hk, hp⟩ | ⟨t, hk, hv, hlvl, ha⟩ |
    ⟨e, t, hk, he⟩
  · simp only [decodeTx, hk] at hd
    exact sound_txdata.eol (.inr ⟨hdr, hhd, hsize, hp⟩) hd
  · simp only [decodeTx, hk, txdata_error (kindAhead_error hk)] at hd
    cases hd
    exact ⟨hv, hlvl, ha⟩
  simp only [decodeTx, hk, txdata_error (kindAhead_error hk)] at hd
  cases hd
  exact absurd rfl he

/-! A transaction and its bytes, around the recipient. -/

def before (tx : TxData) : Bytes :=
  Rlp.uint.encode tx.accountNonce ++ (Rlp.bigInt.encode tx.price ++ Rlp.uint.encode tx.gasLimit)

def behind (tx : TxData) : Bytes :=
  Rlp.bigInt.encode tx.amount ++ (Rlp.text.encode tx.payload ++ (Rlp.bigInt.encode tx.V ++
    (Rlp.bigInt.encode tx.R ++ Rlp.bigInt.encode tx.S)))

def recipientBytes : Option Address → Bytes
  | none => [0x80]
  | some a => (Rlp.array 20).encode a

theorem writes_recipient (a : Option Address) :
    Encbuf.Writes (writeRecipient a) (recipientBytes a) := by
  cases a with
  | none => exact Encbuf.writes_write _
  | some a => exact addressStream.writes a rfl

theorem bytes_of_txMeans {b : Bytes} (h : TxMeans tx b) :
    encodeTx tx = some (frame .list (before tx ++ (recipientBytes tx.recipient ++ behind tx))) ∧
      ∃ r, OptionalMeans (Rlp.array 20).Means tx.recipient r ∧
        b = frame .list (before tx ++ (r ++ behind tx)) := by
  obtain ⟨f, rfl, content, hm, rfl⟩ := h
  obtain ⟨_, _, ⟨h1, rfl⟩, ⟨_, _, ⟨h2, rfl⟩, ⟨_, _, ⟨h3, rfl⟩, ⟨r, _, hr, ⟨_, _, ⟨h5, rfl⟩,
    ⟨_, _, ⟨h6, rfl⟩, ⟨_, _, ⟨h7, rfl⟩, ⟨_, _, ⟨h8, rfl⟩, ⟨h9, rfl⟩, rfl⟩, rfl⟩, rfl⟩, rfl⟩, rfl⟩,
      rfl⟩, rfl⟩, rfl⟩ := hm
  constructor
  · have hw : Encbuf.Writes (writeFields (TxData.ofFields f).fields) _ :=
      (uint.writes _ h1).bind ((bigInt.writes _ h2).bind
        ((uint.writes _ h3).bind ((writes_recipient _).bind
          ((bigInt.writes _ h5).bind ((text.writes _ h6).bind
            ((bigInt.writes _ h7).bind ((bigInt.writes _ h8).bind
              (bigInt.writes _ h9))))))))
    rw [encodeTx, hw.inList.encodeToBytes]
    simp only [before, append_assoc]
    rfl
  refine ⟨r, hr, ?_⟩
  simp only [before, append_assoc]
  rfl

def items : ℕ → Bytes → List Bytes
  | 0, _ => []
  | fuel + 1, c =>
    match readKind c with
    | none => []
    | some (kind, content, rest) => frame kind content :: items fuel rest

def recipientItem (b : Bytes) : Option Bytes :=
  match readKind b with
  | some (.list, content, _) => (items 4 content)[3]?
  | _ => none

theorem items_frame (fuel : ℕ) (kind : Kind) {content : Bytes} (rest : Bytes)
    (h : (frame kind content ++ rest).length < 2 ^ 64) :
    items (fuel + 1) (frame kind content ++ rest) = frame kind content :: items fuel rest ∧
      rest.length < 2 ^ 64 := by
  rw [length_append] at h
  have hle := length_le_length_frame kind content
  simp only [items, readKind_frame kind rest (by omega : content.length < 2 ^ 64), true_and]
  omega

theorem array_encode (n : ℕ) (x : BitVec (8 * n)) :
    (Rlp.array n).encode x = frame .string (fixedBytes n x.toNat) := rfl

theorem isFrame_of_optionalMeans {a : Option Address} {r : Bytes}
    (h : OptionalMeans (Rlp.array 20).Means a r) : ∃ kind content, r = frame kind content := by
  cases a with
  | none =>
    rcases h with rfl | rfl
    · exact ⟨.string, [], rfl⟩
    · exact ⟨.list, [], rfl⟩
  | some a => exact ⟨.string, _, h.2.trans (array_encode 20 a)⟩

theorem recipientItem_eq {r : Bytes} (hr : OptionalMeans (Rlp.array 20).Means tx.recipient r)
    (hlen : (frame .list (before tx ++ (r ++ behind tx))).length < 2 ^ 64) :
    recipientItem (frame .list (before tx ++ (r ++ behind tx))) = some r := by
  obtain ⟨kind, content, rfl⟩ := isFrame_of_optionalMeans hr
  have hcont := (length_le_length_frame .list _).trans_lt hlen
  have hread := readKind_frame .list [] hcont
  rw [append_nil] at hread
  simp only [recipientItem, hread]
  have hbef : before tx = frame .string (uintPayload.encode tx.accountNonce) ++
      (frame .string (bigIntPayload.encode tx.price) ++
        frame .string (uintPayload.encode tx.gasLimit)) := rfl
  simp only [hbef, append_assoc] at hcont ⊢
  obtain ⟨h1, hl1⟩ := items_frame 3 .string _ hcont
  obtain ⟨h2, hl2⟩ := items_frame 2 .string _ hl1
  obtain ⟨h3, hl3⟩ := items_frame 1 .string _ hl2
  obtain ⟨h4, -⟩ := items_frame 0 kind _ hl3
  rw [h1, h2, h3, h4]
  rfl

theorem optionalMeans_recipientBytes (a : Option Address) :
    OptionalMeans (Rlp.array 20).Means a (recipientBytes a) := by
  cases a with
  | none => exact .inl rfl
  | some a => exact ⟨rfl, rfl⟩

theorem recipientBytes_ne (a : Option Address) : recipientBytes a ≠ [0xC0] := by
  cases a with
  | none => decide
  | some a =>
    intro h
    have hle := length_le_length_frame .string (fixedBytes 20 a.toNat)
    rw [recipientBytes, array_encode] at h
    rw [h, length_fixedBytes, length_singleton] at hle
    omega

theorem encodeTx_eq_some_iff {b : Bytes} (h : TxMeans tx b) (hlen : b.length < 2 ^ 64) :
    encodeTx tx = some b ↔ recipientItem b ≠ some [0xC0] := by
  obtain ⟨henc, r, hr, rfl⟩ := bytes_of_txMeans h
  rw [henc, Option.some.injEq, recipientItem_eq hr hlen, ne_eq, Option.some.injEq]
  constructor
  · intro heq hC0
    have hlen' := hlen
    rw [← heq] at hlen'
    have hitem := recipientItem_eq (optionalMeans_recipientBytes tx.recipient) hlen'
    rw [heq, recipientItem_eq hr hlen, Option.some.injEq] at hitem
    exact recipientBytes_ne _ (hitem.symm.trans hC0)
  intro hC0
  suffices hsame : recipientBytes tx.recipient = r by rw [hsame]
  cases hto : tx.recipient with
  | none =>
    rw [hto] at hr
    exact (hr.resolve_right hC0).symm
  | some a =>
    rw [hto] at hr
    exact hr.2.symm

/-- `Transaction.Hash`; where the encoder returns an error nothing is hashed. -/
def txHash (keccak256 : Bytes → Hash) (tx : TxData) : Hash := keccak256 ((encodeTx tx).getD [])

/-- A transaction that was read is written back as it was exactly if its recipient is not an
empty list, and of two such transactions with one hash the bytes are the same. -/
theorem encodeTx_decodeBytes_iff {b : Bytes} (hlen : b.length < 2 ^ 64) {tx : TxData}
    (hd : decodeBytes decodeTx b = .ok tx) :
    (encodeTx tx = some b ↔ recipientItem b ≠ some [0xC0]) ∧
      (recipientItem b ≠ some [0xC0] →
        ∀ (keccak256 : Bytes → Hash) (b' : Bytes) (tx' : TxData), b'.length < 2 ^ 64 →
          decodeBytes decodeTx b' = .ok tx' → recipientItem b' ≠ some [0xC0] →
          (keccak256 b = keccak256 b' → b = b') → txHash keccak256 tx = txHash keccak256 tx' →
            b = b') := by
  have hiff := encodeTx_eq_some_iff (means_of_decodeBytes sound_decodeTx hd) hlen
  refine ⟨hiff, ?_⟩
  intro hC0 keccak256 b' tx' hlen' hd' hC0' hfree hhash
  have henc := hiff.mpr hC0
  have henc' := (encodeTx_eq_some_iff (means_of_decodeBytes sound_decodeTx hd') hlen').mpr hC0'
  rw [txHash, txHash, henc, henc'] at hhash
  exact hfree hhash

def zeroTx : TxData := .ofFields (0, 0, 0, none, 0, [], 0, 0, 0)

theorem encodeTx_decodeBytes_iff_zeroTx :
    encodeTx zeroTx = some [0xC9, 0x80, 0x80, 0x80, 0x80, 0x80, 0x80, 0x80, 0x80, 0x80] := by
  have hd : decodeBytes decodeTx [0xC9, 0x80, 0x80, 0x80, 0x80, 0x80, 0x80, 0x80, 0x80, 0x80] =
      .ok zeroTx := by decide +kernel
  exact (encodeTx_decodeBytes_iff (by decide) hd).1.mpr (by decide)

/-- The same transaction with an empty list for the recipient is read, and written differently. -/
theorem not_encodeTx_emptyList :
    decodeBytes decodeTx [0xC9, 0x80, 0x80, 0x80, 0xC0, 0x80, 0x80, 0x80, 0x80, 0x80] =
        .ok zeroTx ∧
      encodeTx zeroTx ≠ some [0xC9, 0x80, 0x80, 0x80, 0xC0, 0x80, 0x80, 0x80, 0x80, 0x80] ∧
      decodeBytes decodeTx [0xC9, 0x80, 0x80, 0x80, 0x80, 0x80, 0x80, 0x80, 0x80, 0x80] =
        .ok zeroTx := by
  decide +kernel

end BjutEth.Tx
