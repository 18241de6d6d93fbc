import BjutEth.Clique.Lookup

namespace BjutEth.Clique

open List hiding not_lt
open Outcome

namespace Engine

variable {c d : Engine} {chain : ChainReader}

theorem length_signersBytes (signers : List Address) :
    (signersBytes signers).length = addressLength * signers.length := by
  induction signers with
  | nil => rfl
  | cons a signers ih =>
    rw [signersBytes, flatMap_cons, length_append, ← signersBytes, ih, addressBytes,
      length_fixedBytes, length_cons]
    ring

section Fields

variable (c) (snap : Snapshot) (number : ℕ) (extra : Bytes)

theorem length_vanity :
    ((extra ++ List.replicate (extraVanity - extra.length) 0).take extraVanity).length = extraVanity := by
  rw [length_take, length_append, length_replicate]
  omega

def listed : Bytes := if number % c.config.epoch = 0 then signersBytes snap.sortedSigners else []

theorem length_prepareExtra : (c.prepareExtra snap number extra).length =
    extraVanity + (c.listed snap number).length + extraSeal := by
  rw [prepareExtra, length_append, length_append, length_vanity, length_replicate, listed]

theorem prepareExtra_signers : ((c.prepareExtra snap number extra).take
      ((c.prepareExtra snap number extra).length - extraSeal)).drop extraVanity =
    c.listed snap number := by
  rw [length_prepareExtra, Nat.add_sub_cancel, prepareExtra, ← listed]
  have hlen := length_vanity extra
  generalize (extra ++ List.replicate (extraVanity - extra.length) 0).take extraVanity = vanity at hlen ⊢
  rw [take_left' (by rw [length_append, hlen]), drop_left' hlen]

theorem length_listed : ∃ n, (c.listed snap number).length = addressLength * n ∧
    (number % c.config.epoch ≠ 0 → n = 0) := by
  rw [listed]
  split_ifs with h
  · rw [length_signersBytes]
    exact ⟨_, rfl, fun h' ↦ absurd h h'⟩
  · exact ⟨0, rfl, fun _ ↦ rfl⟩

variable {snap number extra} {sig : Bytes}

theorem sealed_extra (hsig : sig.length = extraSeal) :
    ∃ n, ((c.prepareExtra snap number extra).take
        ((c.prepareExtra snap number extra).length - extraSeal) ++ sig).length =
      extraVanity + addressLength * n + extraSeal ∧ (number % c.config.epoch ≠ 0 → n = 0) := by
  obtain ⟨n, hn, hzero⟩ := c.length_listed snap number
  have hlen := c.length_prepareExtra snap number extra
  refine ⟨n, ?_, hzero⟩
  rw [length_append, length_take]
  omega

theorem sealed_signers (hsig : sig.length = extraSeal) (hcp : number % c.config.epoch = 0) :
    (((c.prepareExtra snap number extra).take ((c.prepareExtra snap number extra).length - extraSeal) ++
        sig).take (((c.prepareExtra snap number extra).take
          ((c.prepareExtra snap number extra).length - extraSeal) ++ sig).length - extraSeal)).drop
        extraVanity = signersBytes snap.sortedSigners := by
  rw [length_append, hsig, Nat.add_sub_cancel, take_left, prepareExtra_signers, listed, if_pos hcp]

variable (snap number)

theorem prepareVote_cases (choose : List Address → Address) :
    ((c.prepareVote choose snap number).2 = nonceAuthVote ∨
      (c.prepareVote choose snap number).2 = nonceDropVote) ∧
    (number % c.config.epoch = 0 → (c.prepareVote choose snap number).1 = 0 ∧
      (c.prepareVote choose snap number).2 = nonceDropVote) := by
  rw [prepareVote]
  by_cases h : number % c.config.epoch = 0
  · rw [if_neg (not_not.mpr h)]
    exact ⟨.inr rfl, fun _ ↦ ⟨rfl, rfl⟩⟩
  rw [if_pos h]
  refine ⟨?_, fun h' ↦ absurd h' h⟩
  simp only
  split_ifs
  · exact .inl rfl
  · exact .inr rfl
  · exact .inr rfl

end Fields

theorem int64_cases (x : ℕ) : (x % 2 ^ 64 < 2 ^ 63 ∧ int64 x = x % 2 ^ 64) ∨
    (2 ^ 63 ≤ x % 2 ^ 64 ∧ int64 x < 0) := by
  rw [int64, BitVec.toInt_eq_toNat_cond, BitVec.toNat_ofNat]
  split_ifs with h
  · left
    constructor
    · omega
    rfl
  right
  constructor
  · omega
  omega

theorem time_iff {now later time : ℕ} (hclock : now ≤ later) (hlater : later < 2 ^ 63) :
    ¬ (if int64 time < now then later else time) % 2 ^ 64 < time % 2 ^ 64 ↔ time % 2 ^ 64 < 2 ^ 63 := by
  obtain ⟨hlt, hint⟩ | ⟨hge, hint⟩ := int64_cases time
  · split_ifs with hnow
    · omega
    · omega
  · rw [if_pos (by omega)]
    omega

theorem prepare_eq_ok {now later : ℕ} {choose : List Address → Address} {template prepared : Header}
    (h : c.prepare now later choose chain template = .ok prepared) :
    ∃ snap inturn parent,
      c.snapshot now chain (subUint64 template.number 1) template.parentHash [] = .ok snap ∧
      snap.inturn (succUint64 snap.number) c.signer = .ok inturn ∧
      chain.getHeader template.parentHash (subUint64 template.number 1) = some parent ∧
      prepared = { template with
        coinbase := (c.prepareVote choose snap template.number).1
        nonce := (c.prepareVote choose snap template.number).2
        difficulty := if inturn then diffInTurn else diffNoTurn
        extra := c.prepareExtra snap template.number template.extra
        mixDigest := 0
        time := if int64 (parent.time + c.config.period) < now then later
          else parent.time + c.config.period } := by
  obtain ⟨snap, hsnap, h⟩ := bind_eq_ok.mp h
  obtain ⟨diff, hdiff, h⟩ := bind_eq_ok.mp h
  obtain ⟨inturn, hturn, hdiff⟩ := bind_eq_ok.mp hdiff
  cases hp : chain.getHeader template.parentHash (subUint64 template.number 1) with
  | none =>
    rw [hp] at h
    cases h
  | some parent =>
    rw [hp] at h
    refine ⟨snap, inturn, parent, hsnap, hturn, rfl, ?_⟩
    cases inturn <;> cases hdiff <;> cases h <;> rfl

theorem sealBlock_eq_ok {now txs : ℕ} {stopped : Bool} {header sealedHeader : Header}
    (h : c.sealBlock now stopped chain header txs = .ok (some sealedHeader)) :
    ∃ snap sig, header.number ≠ 0 ∧
      c.snapshot now chain (header.number - 1) header.parentHash [] = .ok snap ∧
      snap.isSigner c.signer = true ∧ mustWait snap header.number c.signer = false ∧
      extraSeal ≤ header.extra.length ∧ c.signFn (c.crypto.sigHash header) = some sig ∧
      sealedHeader = { header with
        extra := header.extra.take (header.extra.length - extraSeal) ++ sig.take extraSeal ++
          header.extra.drop (header.extra.length - extraSeal + min extraSeal sig.length) } := by
  have hn : header.number ≠ 0 := by
    intro hn
    rw [sealBlock, if_pos hn] at h
    cases h
  have hper : ¬ (c.config.period = 0 ∧ txs = 0) := by
    intro hper
    rw [sealBlock, if_neg hn, if_pos hper] at h
    cases h
  rw [sealBlock, if_neg hn, if_neg hper] at h
  obtain ⟨snap, hsnap, h⟩ := bind_eq_ok.mp h
  split_ifs at h with hs hwait hstop hlen
  · cases h
  · cases h
  cases hsig : c.signFn (c.crypto.sigHash header) with
  | none =>
    rw [hsig] at h
    cases h
  | some sig =>
    rw [hsig] at h
    cases h
    rw [Bool.not_eq_false] at hs
    rw [Bool.not_eq_true] at hwait
    exact ⟨snap, sig, hn, hsnap, hs, hwait, by omega, rfl, rfl⟩

def Signs (c : Engine) : Prop := ∀ h sig, c.signFn h = some sig →
  sig.length = extraSeal ∧ c.crypto.ecrecover h sig = some c.signer

variable {header : Header}

theorem recover_sealed (hsign : c.Signs) {sig : Bytes}
    (hlen : extraSeal ≤ header.extra.length) (hsig : c.signFn (c.crypto.sigHash header) = some sig) :
    (header.extra.take (header.extra.length - extraSeal) ++ sig.take extraSeal ++
      header.extra.drop (header.extra.length - extraSeal + min extraSeal sig.length)) =
      header.extra.take (header.extra.length - extraSeal) ++ sig ∧
    c.crypto.recover
      { header with extra := header.extra.take (header.extra.length - extraSeal) ++ sig } =
        .ok c.signer := by
  obtain ⟨hlsig, hrec⟩ := hsign _ sig hsig
  have htake : (header.extra.take (header.extra.length - extraSeal)).length =
      header.extra.length - extraSeal := by
    rw [length_take]
    omega
  have hlen' : (header.extra.take (header.extra.length - extraSeal) ++ sig).length =
      header.extra.length := by
    rw [length_append]
    omega
  refine ⟨?_, ?_⟩
  · rw [take_of_length_le hlsig.le, hlsig, drop_of_length_le (by omega), append_nil]
  have hhash : c.crypto.sigHash
      { header with extra := header.extra.take (header.extra.length - extraSeal) ++ sig } =
      c.crypto.sigHash header := by
    simp only [Crypto.sigHash, hlen', take_left' htake]
  rw [Crypto.recover, hhash]
  simp only [hlen', drop_left' htake, hrec]
  rw [if_neg (by omega)]

theorem sealRecents_of_not_mustWait {snap : Snapshot} {number : ℕ} {signer : Address}
    (h : mustWait snap number signer = false) : snap.sealRecents number signer = true := by
  rw [mustWait, any_eq_false] at h
  rw [Snapshot.sealRecents, all_eq_true]
  intro e he
  have hne := h e he
  simp only [Bool.and_eq_true, Bool.or_eq_true, decide_eq_true_eq] at hne
  simp only [Bool.not_eq_true', Bool.and_eq_false_iff, decide_eq_false_iff_not]
  by_cases hsgn : e.2 = signer
  · exact .inr (fun hlt ↦ hne ⟨hsgn, .inr hlt⟩)
  · exact .inl hsgn

structure WellFormed (d : Engine) (clock : ℕ) (header : Header) : Prop where
  time : header.time ≤ clock
  nonce : header.nonce = nonceAuthVote ∨ header.nonce = nonceDropVote
  checkpoint : header.number % d.config.epoch = 0 → header.coinbase = 0 ∧ header.nonce = nonceDropVote
  extra : ∃ n, header.extra.length = extraVanity + addressLength * n + extraSeal ∧
    (header.number % d.config.epoch ≠ 0 → n = 0)
  mixDigest : header.mixDigest = 0
  uncleHash : header.uncleHash = d.crypto.uncleHash
  difficulty : header.difficulty = diffInTurn ∨ header.difficulty = diffNoTurn

theorem WellFormed.verifyFields {clock : ℕ} (h : d.WellFormed clock header) :
    d.verifyFields clock header = .ok () := by
  obtain ⟨n, hlen, hn⟩ := h.extra
  have hrest : header.extra.length - extraVanity - extraSeal = addressLength * n := by omega
  have hmod : addressLength * n % addressLength = 0 := Nat.mul_mod_right _ _
  rw [Engine.verifyFields]
  simp only [hrest, hmod]
  rw [if_neg (not_lt.mpr h.time), if_neg (fun hc ↦ hc.2 (h.checkpoint hc.1).1),
    if_neg (fun hc ↦ h.nonce.elim hc.1 hc.2), if_neg (fun hc ↦ hc.2 (h.checkpoint hc.1).2),
    if_neg (by omega), if_neg (by omega), if_neg ?_, if_neg (fun hc ↦ hc.2 rfl),
    if_neg (not_not.mpr h.mixDigest), if_neg (not_not.mpr h.uncleHash),
    if_neg (fun hc ↦ h.difficulty.elim hc.2.1 hc.2.2)]
  rintro ⟨hne, hlen0⟩
  rw [hn hne] at hlen0
  exact hlen0 rfl

theorem verifyHeader_iff {clock : ℕ} {header parent : Header} {snap : Snapshot} {signer : Address}
    {inturn : Bool} (hn : header.number ≠ 0) (hwf : d.WellFormed clock header)
    (hp : chain.getHeader header.parentHash (header.number - 1) = some parent)
    (hkey : d.crypto.hash parent = header.parentHash ∧ parent.number = header.number - 1)
    (hsnap : d.snapshot clock chain (header.number - 1) header.parentHash [] = .ok snap)
    (hlist : header.number % d.config.epoch = 0 →
      (header.extra.take (header.extra.length - extraSeal)).drop extraVanity =
        signersBytes snap.sortedSigners)
    (hrec : d.crypto.recover header = .ok signer) (hs : snap.isSigner signer = true)
    (hrecents : snap.sealRecents header.number signer = true)
    (hturn : snap.inturn header.number signer = .ok inturn)
    (hdiff : header.difficulty = if inturn then diffInTurn else diffNoTurn) :
    d.verifyHeader clock chain header [] = .ok () ↔
      ¬ header.time % 2 ^ 64 < (parent.time + d.config.period) % 2 ^ 64 := by
  have hseal : d.verifySeal clock chain header [] = .ok () := by
    rw [verifySeal, if_neg hn]
    refine bind_eq_ok.mpr ⟨snap, hsnap, bind_eq_ok.mpr ⟨signer, hrec, ?_⟩⟩
    rw [if_neg (by rw [hs]; decide), if_neg (by rw [hrecents]; decide)]
    refine bind_eq_ok.mpr ⟨inturn, hturn, ?_⟩
    cases inturn with
    | true =>
      rw [if_neg (fun h ↦ h.2 hdiff), if_neg (fun h ↦ (by cases h.1))]
    | false =>
      rw [if_neg (fun h ↦ (by cases h.1)), if_neg (fun h ↦ h.2 hdiff)]
  rw [verifyHeader, unit_bind_eq_ok, and_iff_right hwf.verifyFields, verifyCascadingFields,
    if_neg hn]
  simp only [getLast?_nil, hp]
  rw [if_neg (by rw [not_or, not_not, not_not]; exact ⟨hkey.2, hkey.1⟩)]
  split_ifs with ht
  · exact ⟨by simp, fun h ↦ absurd ht h⟩
  refine iff_of_true (bind_eq_ok.mpr ⟨snap, hsnap, ?_⟩) ht
  rw [if_neg (fun h ↦ h.2 (hlist h.1))]
  exact hseal

def Mined (c : Engine) (chain : ChainReader) (template sealedHeader : Header) : Prop :=
  ∃ now later choose prepared rest now' stopped txs, now ≤ later ∧ later < 2 ^ 63 ∧
    c.prepare now later choose chain template = .ok prepared ∧
    c.sealBlock now' stopped chain (c.finalize prepared rest) txs = .ok (some sealedHeader)

/-- A block mined by one node is accepted by another one of the same chain exactly if the time of
the parent and the period give less than `2 ^ 63` on 64 bits. -/
theorem mined_verified_iff (hok : chain.Ok c.crypto) (hc : c.CacheOk chain) (hd : d.CacheOk chain)
    (hcfg : d.config = c.config) (hcr : d.crypto = c.crypto) (hsign : c.Signs)
    {template sealedHeader : Header} (hnum : template.number < 2 ^ 64)
    (hm : Mined c chain template sealedHeader) {clock : ℕ} (hclock : sealedHeader.time ≤ clock)
    (hgen : d.verifyFields clock chain.genesis = .ok ()) :
    ∃ parent, chain.getHeader template.parentHash (template.number - 1) = some parent ∧
      (d.verifyHeader clock chain sealedHeader [] = .ok () ↔
        (parent.time + c.config.period) % 2 ^ 64 < 2 ^ 63) := by
  obtain ⟨now, later, choose, prepared, rest, now', stopped, txs, hnow, hlater, hprep, hseal⟩ := hm
  obtain ⟨snap, inturn, parent, hsnap, hturn, hp, rfl⟩ := prepare_eq_ok hprep
  obtain ⟨snap', sig, hn, hsnap', hs, hwait, hlen, hsig, hhdr⟩ := sealBlock_eq_ok hseal
  have hn : template.number ≠ 0 := hn
  have hprev : subUint64 template.number 1 = template.number - 1 := by
    rw [subUint64]
    omega
  rw [hprev] at hsnap hp
  obtain ⟨hhash, hpnum⟩ := hok.keyed hp
  -- both nodes find the snapshot of the parent
  have hat := snapshot_sound hok hc hp hsnap
  have hat' := snapshot_sound hok hc hp hsnap'
  rw [hat] at hat'
  obtain rfl : snap = snap' := Except.ok.inj hat'
  have hok' : chain.Ok d.crypto := hcr.symm ▸ hok
  have hsnapd : d.snapshot clock chain (template.number - 1) template.parentHash [] = .ok snap := by
    refine snapshot_complete hok' hd hgen hp ?_
    rw [hcfg, hcr]
    exact hat
  have hnumber : succUint64 snap.number = template.number := by
    rw [number_snapshotAt hok hp hat, succUint64]
    omega
  rw [hnumber] at hturn
  -- the fields of the sealed header
  obtain ⟨hlsig, -⟩ := hsign _ sig hsig
  obtain ⟨hext, hrec⟩ := recover_sealed hsign hlen hsig
  rw [hext] at hhdr
  rw [← hhdr, ← hcr] at hrec
  have hnum' : sealedHeader.number = template.number := by rw [hhdr]; rfl
  have hpar' : sealedHeader.parentHash = template.parentHash := by rw [hhdr]; rfl
  have htime' : sealedHeader.time = if int64 (parent.time + c.config.period) < now then later
      else parent.time + c.config.period := by rw [hhdr]; rfl
  have hdiff' : sealedHeader.difficulty = if inturn then diffInTurn else diffNoTurn := by
    rw [hhdr]; rfl
  have hext' : sealedHeader.extra = (c.prepareExtra snap template.number template.extra).take
      ((c.prepareExtra snap template.number template.extra).length - extraSeal) ++ sig := by
    rw [hhdr]; rfl
  have hwf : d.WellFormed clock sealedHeader := by
    have hvote := c.prepareVote_cases snap template.number choose
    refine ⟨hclock, ?_, ?_, ?_, ?_, ?_, ?_⟩
    · rw [hhdr]
      exact hvote.1
    · rw [hcfg, hhdr]
      exact hvote.2
    · rw [hext', hcfg, hnum']
      exact c.sealed_extra hlsig
    · rw [hhdr]
      rfl
    · rw [hhdr, hcr]
      rfl
    rw [hdiff']
    cases inturn with
    | true => exact .inl rfl
    | false => exact .inr rfl
  refine ⟨parent, hp, ?_⟩
  rw [← hnum', ← hpar'] at hp hsnapd
  rw [← hnum'] at hturn hn hwait hpnum
  rw [← hpar', ← hcr] at hhash
  refine (verifyHeader_iff hn hwf hp ⟨hhash, hpnum⟩ hsnapd ?_ hrec hs (sealRecents_of_not_mustWait hwait)
    hturn hdiff').trans ?_
  · rw [hcfg, hext', hnum']
    exact c.sealed_signers hlsig
  · rw [htime', hcfg]
    exact time_iff hnow hlater

def genesisReader : ChainReader where
  getHeader h n := if plainCrypto.hash plainGenesis = h ∧ plainGenesis.number = n then some plainGenesis
    else none
  genesis := plainGenesis

theorem genesisReader_eq_some {h : Hash} {n : ℕ} {hd : Header}
    (hhd : genesisReader.getHeader h n = some hd) :
    (plainCrypto.hash plainGenesis = h ∧ plainGenesis.number = n) ∧ hd = plainGenesis := by
  simp only [genesisReader] at hhd
  split_ifs at hhd with hk
  exact ⟨hk, (Option.some.inj hhd).symm⟩

theorem genesisReader_ok : genesisReader.Ok plainCrypto := by
  refine ⟨?_, ?_⟩
  · intro h n hd hhd
    obtain ⟨hk, rfl⟩ := genesisReader_eq_some hhd
    exact hk
  intro h n hd hhd
  obtain ⟨hk, -⟩ := genesisReader_eq_some hhd
  exact absurd hk.2 (Nat.succ_ne_zero n).symm

def freshEngine (period : ℕ) : Engine := { plainEngine with config := .new period 0 }

theorem cacheOk_fresh (period : ℕ) : (freshEngine period).CacheOk genesisReader := by
  intro h n hd s _ hk
  have hnone : (freshEngine period).known n h = none := by
    change (if n % checkpointInterval = 0 then none else none) = _
    split_ifs <;> rfl
  rw [hnone] at hk
  cases hk

theorem signs_fresh (period : ℕ) : (freshEngine period).Signs := by
  intro h sig hsig
  obtain rfl : fixedBytes 65 1 = sig := Option.some.inj hsig
  refine ⟨by decide +kernel, ?_⟩
  change some (BitVec.ofNat 160 (beValue (fixedBytes 65 1))) = some 1
  decide +kernel

def blankChild : Header := { sealedChild plainGenesis 0 0 with extra := [] }

def mine (period : ℕ) : Go (Option Header) := do
  let prepared ← (freshEngine period).prepare 10 10 (fun _ ↦ 0) genesisReader blankChild
  (freshEngine period).sealBlock 10 false genesisReader ((freshEngine period).finalize prepared []) 1

theorem mined_of_mine {period : ℕ} (h : mine period = .ok (some header)) :
    Mined (freshEngine period) genesisReader blankChild header := by
  obtain ⟨prepared, hprep, hseal⟩ := bind_eq_ok.mp h
  exact ⟨10, 10, _, prepared, [], 10, false, 1, le_rfl, by decide, hprep, hseal⟩

def minedChild : Header := { sealedChild plainGenesis 1 1 with time := 10 }

theorem mined_verified_plain : Mined (freshEngine 1) genesisReader blankChild minedChild ∧
    (freshEngine 1).verifyHeader 10 genesisReader minedChild [] = .ok () := by
  have hm : Mined (freshEngine 1) genesisReader blankChild minedChild :=
    mined_of_mine (by decide +kernel)
  obtain ⟨parent, hp, hiff⟩ := mined_verified_iff genesisReader_ok (cacheOk_fresh 1) (cacheOk_fresh 1) rfl
    rfl (signs_fresh 1) (by decide) hm le_rfl (by decide +kernel)
  obtain ⟨-, rfl⟩ := genesisReader_eq_some hp
  exact ⟨hm, hiff.mpr (by decide)⟩

/-- With a period of `2 ^ 63` the honest block is too early for everyone. -/
theorem mined_refused_period : Mined (freshEngine (2 ^ 63)) genesisReader blankChild minedChild ∧
    minedChild.time = 10 ∧
    (freshEngine (2 ^ 63)).verifyHeader 10 genesisReader minedChild [] =
      .error (.err .invalidTimestamp) := by
  exact ⟨mined_of_mine (by decide +kernel), rfl, by decide +kernel⟩

end Engine

end BjutEth.Clique
