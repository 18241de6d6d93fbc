import BjutEth.Tx.Signer

namespace BjutEth.Tx

open List UInt64

theorem leftPad_natBytes_beValue (s : Bytes) : leftPad s.length (natBytes (beValue s)) = s := by
  have hle : (natBytes (beValue s)).length ≤ s.length := by
    rw [length_natBytes, byteLen_le_iff]
    exact beValue_lt s
  have hlen : (leftPad s.length (natBytes (beValue s))).length = s.length := by
    rw [leftPad, length_append, length_replicate]
    omega
  have hval : beValue (leftPad s.length (natBytes (beValue s))) = beValue s := by
    rw [leftPad, beValue_replicate_append, beValue_natBytes]
  have h := fixedBytes_beValue (leftPad s.length (natBytes (beValue s)))
  rw [hlen, hval, fixedBytes_beValue] at h
  exact h.symm

theorem signature_parts {sig : Bytes} (h : sig.length = 65) :
    sig.take 32 ++ (sig.take 64).drop 32 ++ [sig.getD 64 0] = sig := by
  have h64 : sig.take 32 ++ (sig.take 64).drop 32 = sig.take 64 := by
    have := take_append_drop 32 (sig.take 64)
    rwa [take_take] at this
  have hlast : sig.take 64 ++ [sig.getD 64 0] = sig := by
    have hlt : 64 < sig.length := by omega
    have htake := take_concat_get (l := sig) (i := 64) hlt
    rw [getD_eq_getElem _ _ hlt]
    rw [concat_eq_append] at htake
    rw [htake]
    exact take_of_length_le (by omega)
  rw [h64, hlast]

section Values

variable {v : UInt8}

theorem isProtectedV_small (hv : v = 0 ∨ v = 1) : isProtectedV (beValue [v + 27]) = false := by
  rcases hv with rfl | rfl <;> decide

theorem size_le_iff (n k : ℕ) : n.size ≤ k ↔ n < 2 ^ k := Nat.size_le

theorem natAbs_protected (hv : v = 0 ∨ v = 1) (c : ℕ) :
    (((v + 35).toNat + c * 2 : ℕ) : ℤ).natAbs = v.toNat + 35 + c * 2 := by
  have h35 : (v + 35).toNat = v.toNat + 35 := by rcases hv with rfl | rfl <;> rfl
  rw [Int.natAbs_natCast, h35]

theorem isProtectedV_large (hv : v = 0 ∨ v = 1) (c : ℕ) :
    isProtectedV (((v + 35).toNat + c * 2 : ℕ) : ℤ) = true := by
  rw [isProtectedV, natAbs_protected hv]
  by_cases hsize : (v.toNat + 35 + c * 2).size ≤ 8
  · have hlt := (size_le_iff _ _).mp hsize
    have hne : ∀ k : UInt64, k.toNat ≤ 28 → ofNat (v.toNat + 35 + c * 2) ≠ k := by
      intro k hk heq
      have := congrArg UInt64.toNat heq
      rw [toNat_ofNat', Nat.mod_eq_of_lt (by omega)] at this
      omega
    rw [if_pos hsize, Bool.and_eq_true, bne_iff_ne, bne_iff_ne]
    exact ⟨hne 27 (by decide), hne 28 (by decide)⟩
  · rw [if_neg hsize]

theorem deriveChainId_large (hv : v = 0 ∨ v = 1) (c : ℕ) :
    deriveChainId (((v + 35).toNat + c * 2 : ℕ) : ℤ) = c := by
  have hle : v.toNat ≤ 1 := by rcases hv with rfl | rfl <;> decide
  have h35 : (v + 35).toNat = v.toNat + 35 := by rcases hv with rfl | rfl <;> rfl
  rw [deriveChainId, natAbs_protected hv]
  by_cases hsize : (v.toNat + 35 + c * 2).size ≤ 64
  · have hlt := (size_le_iff _ _).mp hsize
    have hnat : (ofNat (v.toNat + 35 + c * 2)).toNat = v.toNat + 35 + c * 2 := by
      rw [toNat_ofNat', Nat.mod_eq_of_lt hlt]
    have hne : ¬ (ofNat (v.toNat + 35 + c * 2) = 27 ∨
        ofNat (v.toNat + 35 + c * 2) = 28) := by
      rintro (heq | heq)
      · have := congrArg UInt64.toNat heq
        rw [hnat, show (27 : UInt64).toNat = 27 from rfl] at this
        omega
      have := congrArg UInt64.toNat heq
      rw [hnat, show (28 : UInt64).toNat = 28 from rfl] at this
      omega
    have hsub : (ofNat (v.toNat + 35 + c * 2) - 35).toNat = v.toNat + c * 2 := by
      rw [UInt64.toNat_sub_of_le _ _ (le_iff_toNat_le.mpr ?_), hnat]
      · exact (by omega : v.toNat + 35 + c * 2 - 35 = v.toNat + c * 2)
      rw [hnat, show (35 : UInt64).toNat = 35 from rfl]
      omega
    rw [if_pos hsize, if_neg hne, UInt64.toNat_div, hsub, show (2 : UInt64).toNat = 2 from rfl]
    congr 1
    omega
  · omega

end Values

namespace Crypto

variable {C : Crypto} (hC : C.Lawful) (h : Hash) (key : C.Key)

include hC

theorem recoverPlain_sign (sighash : Hash) (homestead : Bool) :
    C.recoverPlain sighash (beValue ((C.sign h key).take 32))
      (beValue (((C.sign h key).take 64).drop 32)) (beValue [(C.sign h key).getD 64 0 + 27]) homestead =
      C.recoverAddress sighash (C.sign h key) := by
  have hlen := hC.length_sign h key
  obtain ⟨hr1, hrN⟩ := hC.r_range h key
  obtain ⟨hs1, hsN⟩ := hC.s_range h key
  have hhalf : secp256k1halfN < secp256k1N := by decide
  have hpad : ∀ s : Bytes, s.length = 32 → leftPad 32 (natBytes (beValue s : ℤ).natAbs) = s := by
    intro s hs
    rw [Int.natAbs_natCast, ← hs]
    exact leftPad_natBytes_beValue s
  have hV : ∀ v : UInt8, v = 0 ∨ v = 1 → ¬ 8 < ((beValue [v + 27] : ℕ) : ℤ).natAbs.size ∧
      (ofNat ((beValue [v + 27] : ℕ) : ℤ).natAbs - 27).toUInt8 = v := by
    rintro v (rfl | rfl) <;> exact ⟨by decide, by decide⟩
  obtain ⟨hsize, hv⟩ := hV _ (hC.parity h key)
  have hvalid : validateSignatureValues ((C.sign h key).getD 64 0) (beValue ((C.sign h key).take 32))
      (beValue (((C.sign h key).take 64).drop 32)) homestead = true := by
    rw [validateSignatureValues, if_neg (by omega), if_neg (by omega)]
    have hpar : ((C.sign h key).getD 64 0 == 0 || (C.sign h key).getD 64 0 == 1) = true := by
      simpa using hC.parity h key
    rw [hpar]
    simp only [Bool.and_true, Bool.and_eq_true, decide_eq_true_eq]
    omega
  simp only [recoverPlain, if_neg hsize, hv, hvalid]
  rw [if_neg (by decide), hpad _ (by rw [length_take]; omega),
    hpad _ (by rw [length_drop, length_take]; omega), signature_parts hlen]

theorem recoverAddress_sign : C.recoverAddress h (C.sign h key) = .ok (C.pubkeyToAddress key) := by
  rw [recoverAddress, hC.ecrecover_sign]
  simp only [hC.pub_head key, ne_eq, not_true_eq_false, if_false]
  rfl

omit hC in
theorem sender_of_uncached {signer : Signer} {data : TxData} {addr : Address}
    (h : C.signerSender signer data = .ok addr) :
    ∃ tx', C.sender signer ⟨data, none⟩ = .ok (addr, tx') :=
  ⟨_, Outcome.bind_eq_ok.mpr ⟨addr, h, rfl⟩⟩

def signed (data : TxData) (sig : Bytes) (V : ℤ) : TxData :=
  { data with R := beValue (sig.take 32), S := beValue ((sig.take 64).drop 32), V }

def signedV (signer : Signer) (v : UInt8) : ℤ :=
  match signer with
  | .frontier | .homestead => beValue [v + 27]
  | .eip155 c => if c ≠ 0 then (v + 35).toNat + c * 2 else beValue [v + 27]

theorem signTx_eq (tx : Transaction) (signer : Signer) :
    C.signTx tx signer key = .ok ⟨signed tx.data (C.sign (C.hash signer tx.data) key)
      (signedV signer ((C.sign (C.hash signer tx.data) key).getD 64 0)), none⟩ := by
  generalize hsig : C.sign (C.hash signer tx.data) key = sig
  have hlen : ¬ sig.length ≠ 65 := by
    rw [← hsig]
    exact not_not.mpr (hC.length_sign _ key)
  have hplain : plainSignatureValues sig = .ok (_, _, _) := if_neg hlen
  rw [signTx, hsig, withSignature]
  cases signer with
  | frontier =>
    rw [Signer.signatureValues, hplain]
    rfl
  | homestead =>
    rw [Signer.signatureValues, hplain]
    rfl
  | eip155 c =>
    by_cases hc : c ≠ 0
    · simp only [Signer.signatureValues, hplain, signedV, if_pos hc]
      rfl
    · simp only [Signer.signatureValues, hplain, signedV, if_neg hc]
      rfl

theorem signerSender_signed (data : TxData) (signer : Signer) :
    C.signerSender signer (signed data (C.sign (C.hash signer data) key)
        (signedV signer ((C.sign (C.hash signer data) key).getD 64 0))) =
      if signer = .eip155 0 then
        C.recoverAddress (C.hash .homestead data) (C.sign (C.hash (.eip155 0) data) key)
      else .ok (C.pubkeyToAddress key) := by
  have hrec := recoverPlain_sign hC (C.hash signer data) key
  have haddr := recoverAddress_sign hC (C.hash signer data) key
  have hpar := hC.parity (C.hash signer data) key
  cases signer with
  | frontier =>
    exact (hrec _ false).trans haddr
  | homestead =>
    exact (hrec _ true).trans haddr
  | eip155 c =>
    by_cases hc : c = 0
    · subst hc
      exact (if_pos (isProtectedV_small hpar)).trans (hrec _ true)
    have hcast : ∀ v : UInt8, ((v + 35).toNat : ℤ) + c * 2 = (((v + 35).toNat + c * 2 : ℕ) : ℤ) := by
      intro v
      rfl
    have hV : ∀ v : UInt8, v = 0 ∨ v = 1 →
        ((v + 35).toNat : ℤ) + c * 2 - c * 2 - 8 = beValue [v + 27] := by
      rintro v (rfl | rfl)
      · rw [show ((0 : UInt8) + 35).toNat = 35 from rfl, show beValue [(0 : UInt8) + 27] = 27 from rfl]
        omega
      · rw [show ((1 : UInt8) + 35).toNat = 36 from rfl, show beValue [(1 : UInt8) + 27] = 28 from rfl]
        omega
    have hprot := isProtectedV_large hpar c
    have hid := deriveChainId_large hpar c
    rw [← hcast] at hprot hid
    rw [if_neg (fun h ↦ hc (Signer.eip155.inj h)), signerSender, signedV, if_pos hc]
    refine (if_neg (by rw [signed, hprot]; decide)).trans ?_
    refine (if_neg (not_not.mpr hid)).trans ?_
    refine Eq.trans ?_ ((hrec (C.hash (.eip155 c) data) true).trans haddr)
    rw [signed, hV _ hpar]
    rfl

omit hC

def CacheOk (C : Crypto) (tx : Transaction) : Prop :=
  ∀ signer addr, tx.sender = some (signer, addr) → C.signerSender signer tx.data = .ok addr

theorem eq_of_equal {signer signer' : Signer} (h : signer.equal signer' = true) : signer = signer' := by
  cases signer with
  | frontier => cases signer' <;> first | rfl | cases h
  | homestead => cases signer' <;> first | rfl | cases h
  | eip155 c =>
    cases signer' with
    | frontier => cases h
    | homestead => cases h
    | eip155 c' => rw [beq_iff_eq.mp (h : (c' == c) = true)]

theorem sender_eq_ok {signer : Signer} {tx tx' : Transaction} {addr : Address} (hcch : CacheOk C tx)
    (hok : C.sender signer tx = .ok (addr, tx')) :
    C.signerSender signer tx.data = .ok addr ∧ tx'.data = tx.data ∧ CacheOk C tx' := by
  have hfrs : ∀ {x : Go (Address × Transaction)}, x = (do
        let addr ← C.signerSender signer tx.data
        return (addr, { tx with sender := some (signer, addr) })) → x = .ok (addr, tx') →
      C.signerSender signer tx.data = .ok addr ∧ tx'.data = tx.data ∧ CacheOk C tx' := by
    rintro _ rfl hx
    obtain ⟨a, ha, hx⟩ := Outcome.bind_eq_ok.mp hx
    cases hx
    refine ⟨ha, rfl, ?_⟩
    intro s b hs
    cases hs
    exact ha
  cases hs : tx.sender with
  | none =>
    refine hfrs ?_ hok
    rw [sender, hs]
  | some cached =>
    obtain ⟨cached, b⟩ := cached
    by_cases heq : cached.equal signer = true
    · simp only [sender, hs, if_pos heq] at hok
      cases hok
      obtain rfl := eq_of_equal heq
      exact ⟨hcch _ _ hs, rfl, hcch⟩
    refine hfrs ?_ hok
    rw [sender, hs]
    exact if_neg heq

theorem not_protected_of_two {c c' : ℕ} {data : TxData} {a a' : Address} (hne : c ≠ c')
    (h : C.signerSender (.eip155 c) data = .ok a) (h' : C.signerSender (.eip155 c') data = .ok a') :
    isProtectedV data.V = false := by
  have hid : ∀ {k : ℕ} {b : Address}, isProtectedV data.V = true →
      C.signerSender (.eip155 k) data = .ok b → deriveChainId data.V = k := by
    intro k b hp hk
    by_contra hid
    rw [signerSender, hp, if_neg (by decide), if_pos hid] at hk
    cases hk
  by_contra hp
  rw [Bool.not_eq_false] at hp
  have hcc := (hid hp h).symm.trans (hid hp h')
  exact hne (Int.ofNat.inj hcc)

/-- What is assumed of the library for the converse: from a hash that was not signed, a
signature does not give the address of its key. -/
def Separating (C : Crypto) : Prop :=
  ∀ h h' key, h ≠ h' → C.recoverAddress h' (C.sign h key) ≠ .ok (C.pubkeyToAddress key)

/-- `Sender` gives back the address of the key that signed. -/
def RecoversSigner (C : Crypto) (tx : Transaction) (signer : Signer) (key : C.Key) : Prop :=
  ∃ signedTx tx', C.signTx tx signer key = .ok signedTx ∧
    C.sender signer signedTx = .ok (C.pubkeyToAddress key, tx')

theorem recoversSigner_of_ne (hC : C.Lawful) (tx : Transaction) (key : C.Key) {signer : Signer}
    (hne : signer ≠ .eip155 0) : C.RecoversSigner tx signer key := by
  obtain ⟨tx', htx'⟩ := sender_of_uncached ((signerSender_signed hC key tx.data signer).trans (if_neg hne))
  exact ⟨_, tx', signTx_eq hC key tx signer, htx'⟩

-- With chain id 0 the nine items are hashed for signing and the six items for recovery.
theorem not_recoversSigner_zero (hC : C.Lawful) (hsep : C.Separating) {tx : Transaction} {key : C.Key}
    (hhash : C.hash .homestead tx.data ≠ C.hash (.eip155 0) tx.data) :
    ¬ C.RecoversSigner tx (.eip155 0) key := by
  rintro ⟨signedTx, tx', hs, hok⟩
  rw [signTx_eq hC key tx] at hs
  cases hs
  have hsdr := signerSender_signed hC key tx.data (.eip155 0)
  rw [if_pos rfl, (sender_eq_ok (fun _ _ h ↦ by cases h) hok).1] at hsdr
  exact hsep _ _ key hhash.symm hsdr.symm

/-- A signed transaction gives back the address of its key exactly if the signer does not have
chain id 0. No protected transaction is accepted for two chain ids. -/
theorem sender_signTx_iff (hC : C.Lawful) :
    (∀ tx signer key, signer ≠ .eip155 0 → C.RecoversSigner tx signer key) ∧
    (C.Separating → ∀ tx signer key, C.hash .homestead tx.data ≠ C.hash (.eip155 0) tx.data →
      (C.RecoversSigner tx signer key ↔ signer ≠ .eip155 0)) ∧
    ∀ tx c c' r r', CacheOk C tx → c.getD 0 ≠ c'.getD 0 →
      C.sender (newEIP155Signer c) tx = .ok r → C.sender (newEIP155Signer c') tx = .ok r' →
      isProtectedV tx.data.V = false := by
  refine ⟨fun tx signer key ↦ recoversSigner_of_ne hC tx key, fun hsep tx signer key hhash ↦ ?_, ?_⟩
  · refine ⟨?_, recoversSigner_of_ne hC tx key⟩
    rintro h rfl
    exact not_recoversSigner_zero hC hsep hhash h
  · rintro tx c c' ⟨a, t⟩ ⟨a', t'⟩ hcch hne h h'
    exact not_protected_of_two hne (sender_eq_ok hcch h).1 (sender_eq_ok hcch h').1

def plainSign (h : Hash) : Bytes :=
  fixedBytes 32 (h.toNat / 2 ^ 128 + 1) ++ (fixedBytes 32 (h.toNat % 2 ^ 128 + 1) ++ [0])

def plainEcrecover (h : Hash) (sig : Bytes) : Option Bytes :=
  if sig = plainSign h then some [4] else some [4, 1]

def plainCrypto : Crypto where
  Key := Unit
  keccak256 s := .ofNat 256 s.length
  sign h _ := plainSign h
  ecrecover := plainEcrecover
  fromECDSAPub _ := [4]

theorem plainCrypto_ecrecover : plainCrypto.ecrecover = plainEcrecover := rfl

theorem plainCrypto_sign (h : Hash) (key : plainCrypto.Key) : plainCrypto.sign h key = plainSign h := rfl

theorem take_plainSign (h : Hash) : (plainSign h).take 32 = fixedBytes 32 (h.toNat / 2 ^ 128 + 1) :=
  take_left' (length_fixedBytes 32 _)

theorem drop_plainSign (h : Hash) : (plainSign h).drop 32 = fixedBytes 32 (h.toNat % 2 ^ 128 + 1) ++ [0] :=
  drop_left' (length_fixedBytes 32 _)

theorem beValue_take_plainSign (h : Hash) : beValue ((plainSign h).take 32) = h.toNat / 2 ^ 128 + 1 := by
  have hlt := h.isLt
  rw [take_plainSign, beValue_fixedBytes, Nat.mod_eq_of_lt]
  omega

theorem beValue_drop_plainSign (h : Hash) :
    beValue (((plainSign h).take 64).drop 32) = h.toNat % 2 ^ 128 + 1 := by
  rw [drop_take, drop_plainSign, take_left' (length_fixedBytes 32 _), beValue_fixedBytes, Nat.mod_eq_of_lt]
  omega

theorem plainSign_injective : Function.Injective plainSign := by
  intro h h' heq
  have hr := beValue_take_plainSign h
  have hs := beValue_drop_plainSign h
  rw [heq, beValue_take_plainSign] at hr
  rw [heq, beValue_drop_plainSign] at hs
  apply BitVec.eq_of_toNat_eq
  omega

theorem lawful_plainCrypto : plainCrypto.Lawful := by
  refine ⟨?_, ?_, ?_, ?_, ?_, fun _ ↦ rfl⟩
  · intro h _
    change (plainSign h).length = 65
    rw [plainSign, length_append, length_append, length_fixedBytes, length_fixedBytes]
    rfl
  · intro h _
    change 1 ≤ beValue ((plainSign h).take 32) ∧ beValue ((plainSign h).take 32) < secp256k1N
    have hlt := h.isLt
    rw [beValue_take_plainSign, secp256k1N]
    omega
  · intro h _
    change 1 ≤ beValue (((plainSign h).take 64).drop 32) ∧
      beValue (((plainSign h).take 64).drop 32) ≤ secp256k1halfN
    have hhalf : 2 ^ 128 ≤ secp256k1halfN := by decide
    rw [beValue_drop_plainSign]
    omega
  · intro h _
    change (plainSign h).getD 64 0 = 0 ∨ _
    left
    have hspl := take_append_drop 32 (plainSign h)
    rw [drop_plainSign] at hspl
    have hlen : ((plainSign h).take 32).length = 32 := by rw [take_plainSign, length_fixedBytes]
    rw [← hspl, getD_append_right _ _ _ _ (by omega), hlen,
      getD_append_right _ _ _ _ (by rw [length_fixedBytes]), length_fixedBytes]
    rfl
  intro h _
  rw [plainCrypto_ecrecover, plainCrypto_sign, plainEcrecover, if_pos rfl]
  rfl

theorem recoverAddress_plain_of_ne {h h' : Hash} (hne : h ≠ h') (key : plainCrypto.Key) :
    plainCrypto.recoverAddress h' (plainCrypto.sign h key) = .ok 1 := by
  rw [recoverAddress, plainCrypto_ecrecover, plainCrypto_sign, plainEcrecover,
    if_neg (fun heq ↦ hne (plainSign_injective heq))]
  rfl

theorem separating_plainCrypto : plainCrypto.Separating := by
  intro h h' key hne
  rw [recoverAddress_plain_of_ne hne]
  change (.ok 1 : Go Address) ≠ .ok 0
  decide

def plainTx : Transaction := ⟨⟨0, 1, 21000, some 7, 5, [], 0, 0, 0⟩, none⟩

theorem sender_signTx_iff_chain1 :
    plainCrypto.RecoversSigner plainTx (.eip155 1) () ∧ ¬ plainCrypto.RecoversSigner plainTx (.eip155 0) () := by
  obtain ⟨hsign, hiff, -⟩ := sender_signTx_iff lawful_plainCrypto
  refine ⟨hsign plainTx (.eip155 1) () (by decide), fun h ↦ ?_⟩
  exact (hiff separating_plainCrypto plainTx (.eip155 0) () (by decide)).mp h rfl

/-- A transfer signed for chain id 0 is taken for one without a chain id, and its sender for
the owner of another key. -/
theorem sender_chain0 : plainCrypto.Lawful ∧ plainCrypto.pubkeyToAddress () = 0 ∧ ∃ signedTx tx',
    plainCrypto.signTx plainTx (newEIP155Signer none) () = .ok signedTx ∧
    isProtectedV signedTx.data.V = false ∧
    plainCrypto.sender (newEIP155Signer none) signedTx = .ok (1, tx') := by
  have hsdr := (signerSender_signed lawful_plainCrypto () plainTx.data (.eip155 0)).trans (if_pos rfl)
  obtain ⟨tx', htx'⟩ := sender_of_uncached (hsdr.trans (recoverAddress_plain_of_ne (by decide) ()))
  exact ⟨lawful_plainCrypto, by decide, _, tx', signTx_eq lawful_plainCrypto () plainTx _, by decide, htx'⟩

end Crypto

end BjutEth.Tx
