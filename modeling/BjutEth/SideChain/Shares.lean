import BjutEth.Alien.CustomTx
import BjutEth.Alien.Issuance
import BjutEth.SideChain.Rewards

namespace BjutEth.Alien

open Outcome GoText Nat GoMap
open Option hiding map_map
open List hiding not_le not_lt

theorem sum_lookup_le {K V W : Type} [Ord K] [Std.TransOrd K] [Std.LawfulEqOrd K]
    (l : List (K × W)) (m : GoMap K V) (f : V → ℤ) (hf : ∀ v, 0 ≤ f v) (hl : (l.map (·.1)).Nodup) :
    (l.map (fun e ↦ (m[e.1]?).elim 0 f)).sum ≤ m.sumBy (fun _ v ↦ f v) := by
  induction l generalizing m with
  | nil => exact sumBy_nonneg m _ (fun _ v _ ↦ hf v)
  | cons e l ih =>
    rw [map_cons, nodup_cons] at hl
    rw [map_cons, sum_cons]
    cases he : m[e.1]? with
    | none => simpa using ih m hl.2
    | some v =>
      have hrest := ih (m.erase e.1) hl.2
      rw [sumBy_erase_of_some m he] at hrest
      have hsame : l.map (fun e' ↦ ((m.erase e.1)[e'.1]?).elim 0 f) =
          l.map (fun e' ↦ (m[e'.1]?).elim 0 f) := by
        refine map_congr_left (fun e' he' ↦ ?_)
        have hne : e.1 ≠ e'.1 := fun h ↦ hl.1 (h ▸ mem_map_of_mem he')
        rw [Std.ExtTreeMap.getElem?_erase, if_neg (fun h ↦ hne (Std.compare_eq_iff_eq.mp h))]
      rw [hsame] at hrest
      simp only [elim_some]
      omega

def SCShares.due (shares : SCShares) (record : SCRecord) : ℤ :=
  shares.scRewardAll * record.rewardPerPeriod.toNat / shares.scRewardMilliSum.toNat

namespace Snapshot

def promised (s : Snapshot) : ℕ := (s.scRecordMap.toList.map (fun e ↦ e.2.rewardPerPeriod.toNat)).sum

def dueSum (s : Snapshot) (minerReward : ℤ) : ℤ :=
  s.scRecordMap.sumBy (fun _ record ↦ (s.scShares minerReward).due record)

section Sum

variable {s : Snapshot} {minerReward : ℤ}

theorem toNat_foldl_rewardPerPeriod (l : List (Hash × SCRecord)) (sum : UInt64) :
    (l.foldl (fun sum e ↦ sum + e.2.rewardPerPeriod) sum).toNat =
      (sum.toNat + (l.map (fun e ↦ e.2.rewardPerPeriod.toNat)).sum) % 2 ^ 64 := by
  induction l generalizing sum with
  | nil => exact (mod_eq_of_lt sum.toNat_lt).symm
  | cons e l ih =>
    rw [foldl_cons, ih, UInt64.toNat_add, mod_add_mod, map_cons, sum_cons, add_assoc]

variable (s minerReward)

theorem scShares_cases :
    let sum : ℕ := s.promised % 2 ^ 64
    let shares := s.scShares minerReward
    (sum = 0 ∧ shares = ⟨0, 1000, minerReward⟩) ∨
    (0 < sum ∧ sum < 1000 ∧ shares.scRewardAll = minerReward * sum / 1000 ∧
      shares.scRewardMilliSum.toNat = 1000 ∧ shares.minerLeft = minerReward - minerReward * sum / 1000) ∨
    (1000 ≤ sum ∧ shares.scRewardAll = minerReward ∧ shares.scRewardMilliSum.toNat = sum ∧
      shares.minerLeft = 0) := by
  intro sum shares
  have hsum : (s.scRecordMap.toList.foldl (fun sum e ↦ sum + e.2.rewardPerPeriod) (0 : UInt64)).toNat =
      sum := by
    rw [toNat_foldl_rewardPerPeriod]
    simp only [UInt64.toNat_zero, zero_add, sum, promised]
  simp only [shares, scShares]
  generalize s.scRecordMap.toList.foldl (fun sum e ↦ sum + e.2.rewardPerPeriod) 0 = u at hsum ⊢
  have hthousand : (1000 : UInt64).toNat = 1000 := rfl
  simp only [gt_iff_lt, ge_iff_le, Bool.and_eq_true, decide_eq_true_eq, UInt64.lt_iff_toNat_lt,
    UInt64.le_iff_toNat_le, UInt64.toNat_zero, hthousand, hsum]
  by_cases hsml : 0 < sum ∧ sum < 1000
  · rw [if_pos hsml]
    exact .inr (.inl ⟨hsml.1, hsml.2, rfl, rfl, rfl⟩)
  rw [if_neg hsml]
  by_cases hlarge : 1000 ≤ sum
  · rw [if_pos hlarge]
    exact .inr (.inr ⟨hlarge, rfl, hsum, rfl⟩)
  · rw [if_neg hlarge]
    exact .inl ⟨by omega, rfl⟩

theorem promised_eq_sum :
    (s.promised : ℤ) = (s.scRecordMap.toList.map (fun e ↦ (e.2.rewardPerPeriod.toNat : ℤ))).sum := by
  rw [promised, cast_list_sum, map_map]
  rfl

theorem dueSum_eq :
    s.dueSum minerReward = ((s.scRecordMap.toList.map (fun e ↦ (e.2.rewardPerPeriod.toNat : ℤ))).map
      (fun r ↦ r * (s.scShares minerReward).scRewardAll /
        ((s.scShares minerReward).scRewardMilliSum.toNat : ℤ))).sum := by
  rw [map_map]
  unfold dueSum sumBy SCShares.due
  simp only [Function.comp_def, mul_comm]

theorem scRewardMilliSum_pos :
    (0 : ℤ) < (s.scShares minerReward).scRewardMilliSum.toNat := by
  obtain ⟨-, h⟩ | ⟨-, -, -, h, -⟩ | ⟨hle, -, h, -⟩ := s.scShares_cases minerReward
  · rw [h]
    exact (by decide : (0 : ℤ) < (1000 : UInt64).toNat)
  · rw [h]
    decide
  · omega

theorem dueSum_mul_le :
    s.dueSum minerReward * (s.scShares minerReward).scRewardMilliSum.toNat ≤
      s.promised * (s.scShares minerReward).scRewardAll := by
  rw [dueSum_eq, promised_eq_sum]
  exact sum_ediv_mul_le _ _ (s.scRewardMilliSum_pos minerReward)

theorem le_dueSum_mul :
    s.promised * (s.scShares minerReward).scRewardAll ≤
      s.dueSum minerReward * (s.scShares minerReward).scRewardMilliSum.toNat +
        (s.scShares minerReward).scRewardMilliSum.toNat * s.scRecordMap.toList.length := by
  rw [dueSum_eq, promised_eq_sum]
  have h := le_sum_ediv_mul (s.scRecordMap.toList.map (fun e ↦ (e.2.rewardPerPeriod.toNat : ℤ)))
    (s.scShares minerReward).scRewardAll (s.scRewardMilliSum_pos minerReward)
  rwa [length_map] at h

variable {s minerReward}

theorem dueSum_le_of_lt (hlt : s.promised < 2 ^ 64) (hrew : 0 ≤ minerReward) :
    s.dueSum minerReward + (s.scShares minerReward).minerLeft ≤ minerReward := by
  have hmul := s.dueSum_mul_le minerReward
  have hcs := s.scShares_cases minerReward
  simp only [mod_eq_of_lt hlt] at hcs
  obtain ⟨hsum, h⟩ | ⟨-, hsum, hall, hmil, hleft⟩ | ⟨hsum, hall, hmil, hleft⟩ := hcs
  · rw [h] at hmul ⊢
    change _ * 1000 ≤ _ * 0 at hmul
    change _ + minerReward ≤ _
    omega
  · rw [hall, hmil] at hmul
    have hall' : 0 ≤ minerReward * s.promised / 1000 := by positivity
    have hpart := mul_le_mul_of_nonneg_right (show (s.promised : ℤ) ≤ 1000 by omega) hall'
    omega
  rw [hall, hmil, mul_comm _ minerReward] at hmul
  rw [hleft, add_zero]
  exact le_of_mul_le_mul_right hmul (by omega)

theorem dueSum_le_of_dvd (hdvd : 2 ^ 64 ∣ s.promised) :
    s.dueSum minerReward + (s.scShares minerReward).minerLeft ≤ minerReward := by
  have hmul := s.dueSum_mul_le minerReward
  have hcs := s.scShares_cases minerReward
  obtain ⟨-, h⟩ | ⟨hsum, -⟩ | ⟨hsum, -⟩ := hcs
  · rw [h] at hmul ⊢
    change _ * 1000 ≤ _ * 0 at hmul
    change _ + minerReward ≤ _
    omega
  · omega
  · omega

theorem exists_lt_dueSum (hle : 2 ^ 64 ≤ s.promised) (hdvd : ¬ 2 ^ 64 ∣ s.promised) :
    ∃ minerReward, 0 ≤ minerReward ∧
      minerReward < s.dueSum minerReward + (s.scShares minerReward).minerLeft := by
  have hmod : s.promised % 2 ^ 64 ≠ 0 := fun h ↦ hdvd (dvd_of_mod_eq_zero h)
  have hwrap : s.promised % 2 ^ 64 + 2 ^ 64 ≤ s.promised := by omega
  have hbound : s.promised % 2 ^ 64 < 2 ^ 64 := mod_lt _ (by decide)
  generalize hw : s.promised % 2 ^ 64 = sum at hmod hwrap hbound
  have hlow := fun minerReward ↦ s.le_dueSum_mul minerReward
  have hcs := fun minerReward ↦ s.scShares_cases minerReward
  generalize s.scRecordMap.toList.length = count at hlow
  simp only [hw] at hcs
  by_cases hsml : sum < 1000
  · -- the reward is a multiple of 1000, so that the first division is exact
    refine ⟨1000 * (count + 1), by omega, ?_⟩
    obtain ⟨h, -⟩ | ⟨-, -, hall, hmil, hleft⟩ | ⟨h, -⟩ := hcs (1000 * (count + 1))
    · omega
    · have hlow := hlow (1000 * (count + 1))
      have hexact : (1000 * (count + 1) * sum / 1000 : ℤ) = (count + 1) * sum := by
        rw [mul_assoc, Int.mul_ediv_cancel_left _ (by decide)]
      rw [hexact] at hall hleft
      rw [hall, hmil] at hlow
      have hpos : (count + 1 : ℤ) * 1 ≤ (count + 1) * sum :=
        mul_le_mul_of_nonneg_left (by omega) (by omega)
      have hdouble := mul_le_mul_of_nonneg_right (show (2000 : ℤ) ≤ s.promised by omega)
        (show (0 : ℤ) ≤ (count + 1) * sum by omega)
      omega
    · omega
  refine ⟨count + 1, by omega, ?_⟩
  obtain ⟨h, -⟩ | ⟨-, h, -⟩ | ⟨-, hall, hmil, hleft⟩ := hcs (count + 1)
  · omega
  · omega
  have hlow := hlow (count + 1)
  rw [hall, hmil] at hlow
  rw [hleft, add_zero]
  have hdouble := mul_le_mul_of_nonneg_right (show (2 * sum : ℤ) ≤ s.promised by omega)
    (show (0 : ℤ) ≤ count + 1 by omega)
  refine lt_of_mul_lt_mul_right ?_ (show (0 : ℤ) ≤ sum by omega)
  calc ((count : ℤ) + 1) * sum < 2 * sum * (count + 1) - sum * count := by
        rw [mul_comm _ (sum : ℤ), mul_comm 2 (sum : ℤ), mul_assoc, mul_add, mul_one]
        have : (sum : ℤ) * (2 * (count + 1)) = sum * count + sum * count + 2 * sum := by ring
        omega
    _ ≤ s.dueSum (count + 1) * sum := by omega

/-- The shares of all side chains and what is left to the miner stay within the miner's
reward exactly if the sum of the shares per thousand does not wrap around, or wraps
around to zero. -/
theorem shares_within_reward_iff (s : Snapshot) :
    (∀ minerReward, 0 ≤ minerReward →
      s.scRecordMap.sumBy (fun _ record ↦ (s.scShares minerReward).scRewardAll *
          record.rewardPerPeriod.toNat / (s.scShares minerReward).scRewardMilliSum.toNat) +
        (s.scShares minerReward).minerLeft ≤ minerReward) ↔
      s.promised < 2 ^ 64 ∨ 2 ^ 64 ∣ s.promised := by
  constructor
  · intro h
    by_contra hno
    obtain ⟨hlt, hdvd⟩ := not_or.mp hno
    obtain ⟨minerReward, hrew, hover⟩ := exists_lt_dueSum (not_lt.mp hlt) hdvd
    exact absurd (h minerReward hrew) (not_le.mpr hover)
  rintro (hlt | hdvd) minerReward hrew
  · exact dueSum_le_of_lt hlt hrew
  · exact dueSum_le_of_dvd hdvd

end Sum

def overflowHeaders (share share' : UInt64) : List Header :=
  let p := fun hash scHash share ↦ { Proposal.plain hash 1 with
    validationLoopCnt := 4, proposalType := proposalTypeSideChainAdd, scHash := scHash,
    scBlockCountPerPeriod := 1, scBlockRewardPerPeriod := share }
  [.ofExtra 1 { HeaderExtra.zero with currentBlockProposals := [p 5 9 share] },
    .ofExtra 2 { HeaderExtra.zero with
      currentBlockProposals := [p 6 10 share'], currentBlockDeclares := [⟨5, 1, true⟩] },
    .ofExtra 3 { HeaderExtra.zero with currentBlockDeclares := [⟨6, 1, true⟩] }] ++
  [4, 5, 6, 7, 8, 9, 10, 11].map (fun n ↦ .ofExtra n .zero)

/-- A proposal with `screward:-1` is read as a share of `2 ^ 64 - 1`; with one of 501 the
sum is 500, and half of the reward is paid out more than `2 ^ 53` times. -/
theorem shares_exceed_reward :
    ∃ share s, proposalField (.plain 5 1) (ofString "screward") (ofString "-1") =
        some { Proposal.plain 5 1 with scBlockRewardPerPeriod := share } ∧
      pairRun [overflowHeaders share 501] = .ok s ∧
      1000 < s.scRecordMap.sumBy (fun _ record ↦ (s.scShares 1000).scRewardAll *
          record.rewardPerPeriod.toNat / (s.scShares 1000).scRewardMilliSum.toNat) +
        (s.scShares 1000).minerLeft := by
  have hover : ∃ s, pairRun [overflowHeaders 18446744073709551615 501] = .ok s ∧
      1000 < s.scRecordMap.sumBy (fun _ record ↦ (s.scShares 1000).scRewardAll *
        record.rewardPerPeriod.toNat / (s.scShares 1000).scRewardMilliSum.toNat) +
          (s.scShares 1000).minerLeft := by decide +kernel
  obtain ⟨s, hs⟩ := hover
  exact ⟨18446744073709551615, s, by decide +kernel, hs⟩

def chainPayments (cfg : Config) (s : Snapshot) (minerReward : ℤ) (entry : Hash × SCReward) : ℤ :=
  total (s.addSCRewards cfg (s.scShares minerReward) ∅ entry)

structure Scored (cfg : Config) (s : Snapshot) (hash : Hash) (scReward : SCReward) (record : SCRecord)
    (reward : SCBlockReward) : Prop where
  stored : s.scRewardMap[hash]? = some scReward
  paid : scReward.scBlockRewardMap[s.number - scRewardDelayLoopCount * cfg.maxSignerCount]? = some reward
  recorded : s.scRecordMap[hash]? = some record
  no_rent : s.scRentSumPerPeriod cfg record = 0
  scores : (reward.rewardScoreMap.toList.map (fun e ↦ (e.2.toNat : ℤ))).sum = 100

section Payments

variable {cfg : Config} {s : Snapshot} {minerReward : ℤ} {hash : Hash} {scReward : SCReward}
  {record : SCRecord} {reward : SCBlockReward}

theorem total_foldl_singleReward (l : List (Address × UInt64)) (f : UInt64 → ℤ)
    (payments : GoMap Address ℤ) :
    total (l.foldl (fun payments e ↦ addBalance payments e.1 (f e.2)) payments) =
      total payments + (l.map (fun e ↦ f e.2)).sum := by
  have h := total_foldl_addBalance (l.map (fun e ↦ (e.1, f e.2))) payments
  rwa [foldl_map, map_map] at h

theorem total_empty : total ∅ = 0 := sumBy_empty _

theorem total_addSCRewards (shares : SCShares) (payments : GoMap Address ℤ) (entry : Hash × SCReward) :
    total (s.addSCRewards cfg shares payments entry) =
      total payments + total (s.addSCRewards cfg shares ∅ entry) := by
  unfold addSCRewards
  split
  · rw [total_foldl_singleReward, total_foldl_singleReward, total_empty, zero_add]
  · rw [total_empty, add_zero]

theorem total_foldl_addSCRewards (shares : SCShares) (l : List (Hash × SCReward))
    (payments : GoMap Address ℤ) :
    total (l.foldl (s.addSCRewards cfg shares) payments) =
      total payments + (l.map (fun e ↦ total (s.addSCRewards cfg shares ∅ e))).sum := by
  induction l generalizing payments with
  | nil => simp
  | cons e l ih => rw [foldl_cons, ih, total_addSCRewards, map_cons, sum_cons, add_assoc]

theorem chainPayments_eq (hpaid :
      scReward.scBlockRewardMap[s.number - scRewardDelayLoopCount * cfg.maxSignerCount]? = some reward)
    (hrec : s.scRecordMap[hash]? = some record) (minerReward : ℤ) :
    s.chainPayments cfg minerReward (hash, scReward) =
      ((reward.rewardScoreMap.toList.map (fun e ↦ (e.2.toNat : ℤ))).map (fun score ↦
        score * ((s.scShares minerReward).due record + s.scRentSumPerPeriod cfg record) / 100)).sum := by
  unfold chainPayments addSCRewards
  simp only [hpaid, hrec]
  rw [total_foldl_singleReward, total_empty, zero_add, map_map]
  simp only [Function.comp_def, singleReward, mul_comm, SCShares.due]

theorem Scored.chainPayments_bounds (h : s.Scored cfg hash scReward record reward) (minerReward : ℤ) :
    s.chainPayments cfg minerReward (hash, scReward) ≤ (s.scShares minerReward).due record ∧
      (s.scShares minerReward).due record ≤ s.chainPayments cfg minerReward (hash, scReward) +
        reward.rewardScoreMap.toList.length := by
  have hhigh := sum_ediv_mul_le (reward.rewardScoreMap.toList.map (fun e ↦ (e.2.toNat : ℤ)))
    ((s.scShares minerReward).due record) (show (0 : ℤ) < 100 by decide)
  have hlow := le_sum_ediv_mul (reward.rewardScoreMap.toList.map (fun e ↦ (e.2.toNat : ℤ)))
    ((s.scShares minerReward).due record) (show (0 : ℤ) < 100 by decide)
  have heq := chainPayments_eq h.paid h.recorded minerReward
  rw [h.no_rent, add_zero] at heq
  rw [← heq, h.scores] at hhigh hlow
  rw [length_map] at hlow
  omega

theorem due_bounds (hpos : 0 < s.promised) (hlt : s.promised < 1000) (hrew : 0 ≤ minerReward)
    (record : SCRecord) :
    0 ≤ (s.scShares minerReward).due record ∧
      1000 * (1000 * (s.scShares minerReward).due record) ≤
        minerReward * s.promised * record.rewardPerPeriod.toNat := by
  have hcs := s.scShares_cases minerReward
  simp only [mod_eq_of_lt (hlt.trans (by decide : 1000 < 2 ^ 64))] at hcs
  obtain ⟨h, -⟩ | ⟨-, -, hall, hmil, -⟩ | ⟨h, -⟩ := hcs
  · omega
  · rw [SCShares.due, hall, hmil]
    have hinner := Int.ediv_mul_le (minerReward * s.promised) (show (1000 : ℤ) ≠ 0 by decide)
    refine ⟨by positivity, ?_⟩
    have hscaled := mul_le_mul_of_nonneg_right hinner
      (show (0 : ℤ) ≤ record.rewardPerPeriod.toNat by omega)
    rw [mul_right_comm] at hscaled
    omega
  · omega

theorem le_minerReward_sub_due (hpos : 0 < s.promised) (hlt : s.promised < 1000)
    (hrew : 0 ≤ minerReward) (record : SCRecord) :
    minerReward * record.rewardPerPeriod.toNat ≤ 1000 * (minerReward * record.rewardPerPeriod.toNat -
      1000 * (s.scShares minerReward).due record) := by
  have hdue := (due_bounds hpos hlt hrew record).2
  have hfactor := mul_le_mul_of_nonneg_right (show (s.promised : ℤ) ≤ 999 by omega)
    (show (0 : ℤ) ≤ minerReward * record.rewardPerPeriod.toNat by positivity)
  have hcomm : minerReward * s.promised * record.rewardPerPeriod.toNat =
      s.promised * (minerReward * record.rewardPerPeriod.toNat) := by ring
  omega

theorem due_of_rewardPerPeriod_eq_zero (h : record.rewardPerPeriod = 0) (shares : SCShares) :
    shares.due record = 0 := by
  rw [SCShares.due, h]
  simp

theorem scShares_nonneg (s : Snapshot) (hrew : 0 ≤ minerReward) :
    0 ≤ (s.scShares minerReward).scRewardAll ∧ 0 ≤ (s.scShares minerReward).minerLeft := by
  obtain ⟨-, h⟩ | ⟨-, hlt, hall, -, hleft⟩ | ⟨-, hall, -, hleft⟩ := s.scShares_cases minerReward
  · rw [h]
    exact ⟨le_refl 0, hrew⟩
  · have hpart := mul_le_mul_of_nonneg_left (show ((s.promised % 2 ^ 64 : ℕ) : ℤ) ≤ 1000 by omega) hrew
    rw [hall, hleft]
    exact ⟨by positivity, by omega⟩
  · rw [hall, hleft]
    exact ⟨hrew, le_refl 0⟩

theorem due_nonneg (hrew : 0 ≤ minerReward) (record : SCRecord) :
    0 ≤ (s.scShares minerReward).due record :=
  Int.ediv_nonneg (mul_nonneg (s.scShares_nonneg hrew).1 (Int.natCast_nonneg _)) (Int.natCast_nonneg _)

/-- The rent that is paid for the blocks of one side chain. -/
def chainRent (cfg : Config) (s : Snapshot) (entry : Hash × SCReward) : ℤ :=
  (entry.2.scBlockRewardMap[s.number - scRewardDelayLoopCount * cfg.maxSignerCount]?).elim 0 (fun reward ↦
    (s.scRecordMap[entry.1]?).elim 0 (fun record ↦
      s.scRentSumPerPeriod cfg record * (reward.rewardScoreMap.toList.map (fun e ↦ (e.2.toNat : ℤ))).sum / 100))

def rentPaid (cfg : Config) (s : Snapshot) : ℤ := (s.scRewardMap.toList.map (s.chainRent cfg)).sum

/-- No side chain that is paid now has scored more than one whole reward. -/
def ScoresWithin (cfg : Config) (s : Snapshot) : Prop :=
  ∀ e ∈ s.scRewardMap.toList, ∀ reward, e.1 ∈ s.scRecordMap →
    e.2.scBlockRewardMap[s.number - scRewardDelayLoopCount * cfg.maxSignerCount]? = some reward →
    (reward.rewardScoreMap.toList.map (fun e ↦ (e.2.toNat : ℤ))).sum ≤ 100

theorem chainPayments_le (hrew : 0 ≤ minerReward) (hscores : s.ScoresWithin cfg) {e : Hash × SCReward}
    (he : e ∈ s.scRewardMap.toList) : s.chainPayments cfg minerReward e ≤
      (s.scRecordMap[e.1]?).elim 0 (s.scShares minerReward).due + s.chainRent cfg e := by
  cases hpaid : e.2.scBlockRewardMap[s.number - scRewardDelayLoopCount * cfg.maxSignerCount]? with
  | none =>
    have hnil : s.addSCRewards cfg (s.scShares minerReward) ∅ e = ∅ := by
      simp only [addSCRewards, hpaid]
    rw [chainPayments, hnil, total_empty, chainRent, hpaid, elim_none, add_zero]
    cases s.scRecordMap[e.1]? with
    | none => exact le_refl 0
    | some record => exact due_nonneg hrew record
  | some reward =>
    cases hrec : s.scRecordMap[e.1]? with
    | none =>
      have hnil : s.addSCRewards cfg (s.scShares minerReward) ∅ e = ∅ := by
        simp only [addSCRewards, hpaid, hrec]
      rw [chainPayments, hnil, total_empty, chainRent, hpaid, elim_some, hrec, elim_none, elim_none,
        add_zero]
    | some record =>
      have hmem : e.1 ∈ s.scRecordMap := Std.ExtTreeMap.mem_iff_isSome_getElem?.mpr (by rw [hrec]; rfl)
      have hle := mul_le_mul_of_nonneg_right (hscores e he reward hmem hpaid)
        (due_nonneg (s := s) hrew record)
      have hfloor := sum_ediv_mul_le (reward.rewardScoreMap.toList.map (fun e ↦ (e.2.toNat : ℤ)))
        ((s.scShares minerReward).due record + s.scRentSumPerPeriod cfg record) (show (0 : ℤ) < 100 by decide)
      rw [← chainPayments_eq hpaid hrec, Prod.mk.eta, mul_add,
        mul_comm _ (s.scRentSumPerPeriod cfg record)] at hfloor
      rw [chainRent, hpaid, elim_some, hrec, elim_some, elim_some]
      omega

/-- The side chains are paid at most their shares and their rent. -/
theorem total_calculateSCReward_le (hrew : 0 ≤ minerReward) (hscores : s.ScoresWithin cfg) :
    total (s.calculateSCReward cfg minerReward).1 ≤ s.dueSum minerReward + s.rentPaid cfg := by
  rw [calculateSCReward, total_foldl_addSCRewards, total_empty, zero_add]
  calc _ ≤ (s.scRewardMap.toList.map (fun e ↦
        (s.scRecordMap[e.1]?).elim 0 (s.scShares minerReward).due + s.chainRent cfg e)).sum :=
      sum_le_sum (fun e he ↦ chainPayments_le hrew hscores he)
    _ = _ + s.rentPaid cfg := sum_map_add
    _ ≤ _ := add_le_add_left (sum_lookup_le _ _ _ (due_nonneg hrew) s.scRewardMap.nodup_keys_toList) _

theorem payments_add_minerLeft_le (hpos : 0 < s.promised) (hlt : s.promised < 1000)
    (hrew : 0 ≤ minerReward)
    (hscd : ∀ hash scReward record reward, s.scRewardMap[hash]? = some scReward →
      s.scRecordMap[hash]? = some record →
      scReward.scBlockRewardMap[s.number - scRewardDelayLoopCount * cfg.maxSignerCount]? = some reward →
      s.Scored cfg hash scReward record reward) :
    1000 * (total (s.calculateSCReward cfg minerReward).1 + (s.calculateSCReward cfg minerReward).2) +
      minerReward * s.promised / 1000 ≤ 1000 * minerReward := by
  have hscores : s.ScoresWithin cfg := by
    intro e he reward hmem hpaid
    obtain ⟨record, hrec⟩ := isSome_iff_exists.mp (Std.ExtTreeMap.mem_iff_isSome_getElem?.mp hmem)
    exact (hscd _ _ _ _ (Std.ExtTreeMap.mem_toList_iff_getElem?_eq_some.mp he) hrec hpaid).scores.le
  have hrent : s.rentPaid cfg = 0 := by
    refine sum_eq_zero (forall_mem_map.mpr (fun e he ↦ ?_))
    rw [chainRent]
    cases hpaid : e.2.scBlockRewardMap[s.number - scRewardDelayLoopCount * cfg.maxSignerCount]? with
    | none => rfl
    | some reward =>
      rw [elim_some]
      cases hrec : s.scRecordMap[e.1]? with
      | none => rfl
      | some record =>
        rw [elim_some, (hscd _ _ _ _ (Std.ExtTreeMap.mem_toList_iff_getElem?_eq_some.mp he) hrec hpaid).no_rent,
          zero_mul]
        rfl
  have htot := total_calculateSCReward_le hrew hscores
  rw [hrent, add_zero] at htot
  have hmul := s.dueSum_mul_le minerReward
  have hcs := s.scShares_cases minerReward
  simp only [mod_eq_of_lt (hlt.trans (by decide : 1000 < 2 ^ 64))] at hcs
  obtain ⟨h, -⟩ | ⟨-, -, hall, hmil, hleft⟩ | ⟨h, -⟩ := hcs
  · omega
  · rw [hall, hmil] at hmul
    change 1000 * (_ + (s.scShares minerReward).minerLeft) + _ ≤ _
    have hnon : 0 ≤ minerReward * s.promised / 1000 := by positivity
    have hpart := mul_le_mul_of_nonneg_right (show (s.promised : ℤ) ≤ 999 by omega) hnon
    omega
  · omega

/-- A side chain is paid what its proposal promised, up to one unit for each division,
only if it was promised nothing. If every side chain is paid by its scores, the
miner's reward is not exhausted within any tolerance. -/
theorem promised_share_paid_iff (cfg : Config) (s : Snapshot) (hash : Hash) (scReward : SCReward)
    (record : SCRecord) (reward : SCBlockReward) (hpos : 0 < s.promised) (hlt : s.promised < 1000)
    (hscd : s.Scored cfg hash scReward record reward) :
    ((∀ minerReward, 0 ≤ minerReward →
        |1000 * s.chainPayments cfg minerReward (hash, scReward) -
          minerReward * record.rewardPerPeriod.toNat| ≤
          1000 * (2 + reward.rewardScoreMap.toList.length)) ↔ record.rewardPerPeriod = 0) ∧
    ((∀ hash scReward record reward, s.scRewardMap[hash]? = some scReward →
        s.scRecordMap[hash]? = some record →
        scReward.scBlockRewardMap[s.number - scRewardDelayLoopCount * cfg.maxSignerCount]? =
          some reward → s.Scored cfg hash scReward record reward) →
      ∀ tolerance : ℕ, ∃ minerReward, 0 ≤ minerReward ∧
        total (s.calculateSCReward cfg minerReward).1 + (s.calculateSCReward cfg minerReward).2 +
          tolerance < minerReward) := by
  refine ⟨⟨fun h ↦ ?_, fun hzero minerReward hrew ↦ ?_⟩, fun hall tolerance ↦ ?_⟩
  · by_contra hne
    have hshr : (1 : ℤ) ≤ record.rewardPerPeriod.toNat := by
      have : record.rewardPerPeriod.toNat ≠ 0 := fun h ↦ hne (UInt64.toNat_inj.mp h)
      omega
    generalize reward.rewardScoreMap.toList.length = count at h
    let minerReward : ℤ := 1000 * (1000 * (2 + count) + 1)
    have hrew : 0 ≤ minerReward := by positivity
    have hgap := le_minerReward_sub_due hpos hlt hrew record
    have hpaid := (hscd.chainPayments_bounds minerReward).1
    have hbound := (abs_le.mp (h minerReward hrew)).1
    have hmul := mul_le_mul_of_nonneg_left hshr hrew
    omega
  · obtain ⟨hhigh, hlow⟩ := hscd.chainPayments_bounds minerReward
    rw [due_of_rewardPerPeriod_eq_zero hzero] at hhigh hlow
    rw [hzero, UInt64.toNat_zero, cast_zero, mul_zero, sub_zero, abs_le]
    omega
  refine ⟨1000 * (1000 * tolerance + 1), by positivity, ?_⟩
  have hrew : (0 : ℤ) ≤ 1000 * (1000 * tolerance + 1) := by positivity
  have hsh := payments_add_minerLeft_le hpos hlt hrew hall
  rw [mul_assoc 1000, Int.mul_ediv_cancel_left _ (by decide)] at hsh
  have hmul := mul_le_mul_of_nonneg_left (show (1 : ℤ) ≤ s.promised by omega)
    (show (0 : ℤ) ≤ 1000 * tolerance + 1 by positivity)
  omega

theorem scored_first_block :
    ∃ s scReward record reward, pairRun [sideChainHeaders] = .ok s ∧ s.promised = 10 ∧ record.rewardPerPeriod = 10 ∧
      s.Scored pairConfig 9 scReward record reward := by
  obtain ⟨s, hs, hprm, scReward, hstd, reward, hpaid, record, hrecorded, hshr, h⟩ : ∃ s,
      pairRun [sideChainHeaders] = .ok s ∧
      s.promised = 10 ∧ ∃ scReward, s.scRewardMap[(9 : Hash)]? = some scReward ∧ ∃ reward,
      scReward.scBlockRewardMap[s.number - scRewardDelayLoopCount * pairConfig.maxSignerCount]? = some reward ∧
      ∃ record, s.scRecordMap[(9 : Hash)]? = some record ∧ record.rewardPerPeriod = 10 ∧
      s.scRentSumPerPeriod pairConfig record = 0 ∧
      (reward.rewardScoreMap.toList.map (fun e ↦ (e.2.toNat : ℤ))).sum = 100 := by decide +kernel
  exact ⟨s, scReward, record, reward, hs, hprm, hshr, hstd, hpaid, hrecorded, h.1, h.2⟩

theorem promised_share_paid_iff_first_block :
    ∃ s scReward record reward, pairRun [sideChainHeaders] = .ok s ∧ s.Scored pairConfig 9 scReward record reward ∧
      ¬ ∀ minerReward, 0 ≤ minerReward →
        |1000 * s.chainPayments pairConfig minerReward (9, scReward) - minerReward * 10| ≤
          1000 * (2 + reward.rewardScoreMap.toList.length) := by
  obtain ⟨s, scReward, record, reward, hs, hprm, hshr, hscd⟩ := scored_first_block
  refine ⟨s, scReward, record, reward, hs, hscd, fun h ↦ ?_⟩
  have hiff := (promised_share_paid_iff pairConfig s 9 scReward record reward (by omega) (by omega)
    hscd).1
  rw [hshr] at hiff
  exact absurd (hiff.mp h) (by decide)

/-- The only side chain is promised 10 per thousand of a reward of a million. It is paid
100 and not 10000; what it is not paid is paid to nobody. -/
theorem promised_share_not_paid :
    ∃ s scReward record reward, pairRun [sideChainHeaders] = .ok s ∧ s.promised = 10 ∧ record.rewardPerPeriod = 10 ∧
      s.Scored pairConfig 9 scReward record reward ∧ reward.rewardScoreMap.toList.length = 1 ∧
      s.chainPayments pairConfig 1000000 (9, scReward) = 100 ∧
      total (s.calculateSCReward pairConfig 1000000).1 + (s.calculateSCReward pairConfig 1000000).2 =
        990100 := by
  obtain ⟨s, scReward, record, reward, hs, hprm, hshr, hscd⟩ := scored_first_block
  have hrun : (pairRun [sideChainHeaders]).map
      (fun s ↦ (s.scRewardMap[(9 : Hash)]?.bind (fun scReward ↦
        scReward.scBlockRewardMap[s.number - scRewardDelayLoopCount * pairConfig.maxSignerCount]?.map
          (fun reward ↦ (reward.rewardScoreMap.toList.length,
            s.chainPayments pairConfig 1000000 (9, scReward)))),
        total (s.calculateSCReward pairConfig 1000000).1 +
          (s.calculateSCReward pairConfig 1000000).2)) = .ok (some (1, 100), 990100) := by
    decide +kernel
  obtain ⟨s', hs', hval⟩ := map_eq_ok.mp hrun
  cases hs.symm.trans hs'
  obtain ⟨hval, htot⟩ := Prod.mk.inj hval
  simp only [hscd.stored, hscd.paid, bind_some, map_some, some.injEq,
    Prod.mk.injEq] at hval
  exact ⟨s, scReward, record, reward, hs, hprm, hshr, hscd, hval.1, hval.2, htot⟩

end Payments

end Snapshot

end BjutEth.Alien
