import BjutEth.Alien.Accepted
import BjutEth.Alien.Runs

namespace BjutEth.Alien

open Outcome CCNotice List

def CCNotice.charges (notice : CCNotice) : List GasCharging :=
  notice.currentCharging.toList.map (fun e ↦ { e.2 with hash := e.1 })

def Snapshot.noticeFor (ms : Snapshot) (chainHash : Hash) : CCNotice :=
  ms.scNoticeMap.getD chainHash ⟨∅, ∅⟩

variable {notice : CCNotice} {charges : List GasCharging} {charge : GasCharging}

theorem CCNotice.mem_charges :
    charge ∈ notice.charges ↔ ∃ v, notice.currentCharging[charge.hash]? = some v ∧
      v.volume = charge.volume ∧ v.target = charge.target := by
  simp only [CCNotice.charges, mem_map, Prod.exists,
    Std.ExtTreeMap.mem_toList_iff_getElem?_eq_some]
  constructor
  · rintro ⟨hash, v, hv, rfl⟩
    exact ⟨v, hv, rfl, rfl⟩
  rintro ⟨v, hv, hvolume, htarget⟩
  refine ⟨charge.hash, v, hv, ?_⟩
  rw [hvolume, htarget]

theorem verifyCharging_eq_ok (hknw : ∀ charge ∈ charges, notice.currentCharging.contains charge.hash) :
    verifyCharging notice charges = .ok () ↔ charges ⊆ notice.charges := by
  induction charges with
  | nil => exact ⟨fun _ ↦ nil_subset _, fun _ ↦ rfl⟩
  | cons charge charges ih =>
    have ih := ih (fun c hc ↦ hknw c (mem_cons_of_mem _ hc))
    have hsome : ∃ v, notice.currentCharging[charge.hash]? = some v := by
      have hmem := Std.ExtTreeMap.contains_iff_mem.mp (hknw charge mem_cons_self)
      exact ⟨_, Std.ExtTreeMap.getElem?_eq_some_getElem hmem⟩
    obtain ⟨v, hv⟩ := hsome
    rw [verifyCharging, cons_subset, mem_charges]
    simp only [hv, Option.some.injEq, exists_eq_left', Bool.or_eq_true, decide_eq_true_eq]
    split_ifs with hdiff
    · refine ⟨fun h ↦ (by cases h), ?_⟩
      rintro ⟨⟨hvolume, htarget⟩, -⟩
      exact (hdiff.elim (· hvolume) (· htarget)).elim
    rw [ih]
    rw [not_or, not_not, not_not] at hdiff
    exact ⟨fun h ↦ ⟨hdiff, h⟩, And.right⟩

example : verifyCharging ⟨∅, ∅⟩ [⟨1, 2, 3⟩] = .ok () := by decide +kernel

theorem perm_charges_iff (hlen : notice.currentCharging.size = charges.length)
    (hcheck : verifyCharging notice charges = .ok ()) :
    charges.Perm notice.charges ↔
      (∀ charge ∈ charges, notice.currentCharging.contains charge.hash) ∧
        (charges.map (·.hash)).Nodup := by
  constructor
  · intro hperm
    have hnd : (notice.charges.map (·.hash)).Nodup := by
      rw [CCNotice.charges, map_map]
      exact notice.currentCharging.nodup_keys_toList
    refine ⟨fun charge hchg ↦ ?_, (hperm.map (·.hash)).nodup_iff.mpr hnd⟩
    obtain ⟨v, hv, -⟩ := mem_charges.mp (hperm.mem_iff.mp hchg)
    rw [Std.ExtTreeMap.contains_iff_mem, Std.ExtTreeMap.mem_iff_isSome_getElem?, hv]
    rfl
  rintro ⟨hknw, hnd⟩
  have hsub : charges ⊆ notice.charges := (verifyCharging_eq_ok hknw).mp hcheck
  refine (hnd.of_map.subperm hsub).perm_of_length_le ?_
  rw [CCNotice.charges, length_map, Std.ExtTreeMap.length_toList, hlen]

section Seal

variable {rt : UInt64 → Runtime} {crypto : Crypto} {chain : ChainReader} {now : ℕ} {header : Header}
  {parents : List Header} {e e' : Engine} {signer : Address}

theorem verifySideChainSeal_eq_ok (h : verifySideChainSeal chain header signer e = (.ok (), e')) :
    ∃ ms extra, mcSnapshot chain signer (bigUint64 header.time) = .ok ms ∧
      decodeExtra header = .ok extra ∧
      (ms.noticeFor chain.genesis.parentHash).currentCharging.size = extra.sideChainCharging.length ∧
      verifyCharging (ms.noticeFor chain.genesis.parentHash) extra.sideChainCharging = .ok () := by
  unfold verifySideChainSeal at h
  simp only [Call.bind_eq_ok, Call.lift_eq_ok, failIf_eq_ok, not_not] at h
  obtain ⟨ms, _, ⟨hms, rfl⟩, _, _, -, extra, _, ⟨hext, rfl⟩, _, _, ⟨hsize, rfl⟩, hcheck, -⟩ := h
  exact ⟨ms, extra, hms, hext, hsize, hcheck⟩

theorem Engine.verifySeal_sideChain_eq_ok (hside : chain.config.sideChain = true)
    (h : verifySeal crypto chain rt now header parents e = (.ok (), e')) :
    ∃ signer ms extra, crypto.ecrecover header = .ok signer ∧
      mcSnapshot chain signer (bigUint64 header.time) = .ok ms ∧
      decodeExtra header = .ok extra ∧
      (ms.noticeFor chain.genesis.parentHash).currentCharging.size = extra.sideChainCharging.length ∧
      verifyCharging (ms.noticeFor chain.genesis.parentHash) extra.sideChainCharging = .ok () := by
  unfold verifySeal at h
  simp only [Call.bind_eq_ok, Call.lift_eq_ok, hside] at h
  obtain ⟨_, _, ⟨-, rfl⟩, _, _, -, signer, _, ⟨hsgn, rfl⟩, _, _, ⟨-, rfl⟩, _, _, -, hseal⟩ := h
  obtain ⟨ms, extra, hms, hext, hsize, hcheck⟩ := verifySideChainSeal_eq_ok hseal
  exact ⟨signer, ms, extra, hsgn, hms, hext, hsize, hcheck⟩

/-- An accepted side chain header charges what the main chain's notice says, each entry
once and nothing else, exactly where its hashes are known there and pairwise distinct. -/
theorem charging_matches_notice_iff (hside : chain.config.sideChain = true)
    (h : Engine.verifySeal crypto chain rt now header parents e = (.ok (), e')) :
    ∃ signer ms extra, crypto.ecrecover header = .ok signer ∧
      mcSnapshot chain signer (bigUint64 header.time) = .ok ms ∧ decodeExtra header = .ok extra ∧
      (extra.sideChainCharging.Perm (ms.noticeFor chain.genesis.parentHash).charges ↔
        (∀ charge ∈ extra.sideChainCharging,
          (ms.noticeFor chain.genesis.parentHash).currentCharging.contains charge.hash) ∧
        (extra.sideChainCharging.map (·.hash)).Nodup) := by
  obtain ⟨signer, ms, extra, hsgn, hms, hext, hsize, hcheck⟩ :=
    Engine.verifySeal_sideChain_eq_ok hside h
  exact ⟨signer, ms, extra, hsgn, hms, hext, perm_charges_iff hsize hcheck⟩

end Seal

def mainChainCharges : List GasCharging := [⟨4, 10, 7⟩, ⟨5, 20, 8⟩]

def chargingMainChain : Snapshot :=
  { newSnapshot .small 0 0 [] 10 with
    signers := [0]
    scNoticeMap := (∅ : GoMap Hash CCNotice).insert 0
      ⟨(∅ : GoMap Hash GasCharging).insertMany (mainChainCharges.map (fun c ↦ (c.hash, c))), ∅⟩ }

def sideChainReader : ChainReader :=
  .ofHeaders .byNumber { Config.small.toAlienConfig with sideChain := true }
    (fun _ _ ↦ .ok chargingMainChain) (.ofExtra 0 .zero) Header.ofExtra_zero_number []

def chargingHeader (charges : List GasCharging) : Header :=
  .ofExtra 1 { HeaderExtra.zero with sideChainCharging := charges }

def verifyChargingHeader (charges : List GasCharging) : Go Unit × Engine :=
  Engine.verifySeal .byNumber sideChainReader (fun _ ↦ .inOrder) 0 (chargingHeader charges) []
    (.new sideChainReader.config ∅)

theorem charging_matches_notice_of_two :
    (verifyChargingHeader mainChainCharges).1 = .ok () ∧
      (extraOf (chargingHeader mainChainCharges)).sideChainCharging.Perm
        (chargingMainChain.noticeFor 0).charges := by
  have hok : (verifyChargingHeader mainChainCharges).1 = .ok () := by decide +kernel
  obtain ⟨_, hseal⟩ := Call.exists_of_fst hok
  obtain ⟨signer, ms, extra, hsgn, hms, hext, hiff⟩ := charging_matches_notice_iff rfl hseal
  have hsgn' : Crypto.byNumber.ecrecover (chargingHeader mainChainCharges) = .ok 0 := by decide +kernel
  have hms' : mcSnapshot sideChainReader 0 (bigUint64 (chargingHeader mainChainCharges).time) =
      .ok chargingMainChain := by decide +kernel
  have hext' : decodeExtra (chargingHeader mainChainCharges) =
      .ok { HeaderExtra.zero with sideChainCharging := mainChainCharges } := by decide +kernel
  cases hsgn.symm.trans hsgn'
  cases hms.symm.trans hms'
  cases hext.symm.trans hext'
  rw [extraOf_eq hext']
  exact ⟨hok, hiff.mpr (by decide +kernel)⟩

/-- A charge that the main chain does not know and a charge repeated in place of another
are accepted. -/
theorem forged_charging_accepted :
    let forged : List GasCharging := [⟨4, 10, 7⟩, ⟨9, 10 ^ 9, 6⟩]
    let repeated : List GasCharging := [⟨4, 10, 7⟩, ⟨4, 10, 7⟩]
    (verifyChargingHeader forged).1 = .ok () ∧ (verifyChargingHeader repeated).1 = .ok () ∧
    ¬ (extraOf (chargingHeader forged)).sideChainCharging.Perm (chargingMainChain.noticeFor 0).charges ∧
    ¬ (extraOf (chargingHeader repeated)).sideChainCharging.Perm
      (chargingMainChain.noticeFor 0).charges := by
  decide +kernel

end BjutEth.Alien
