import BjutEth.Lib.Halving
import BjutEth.Alien.Rewards
import BjutEth.Alien.Runs

namespace BjutEth.Alien

open Std Outcome List GoMap

def total (amounts : GoMap Address ℤ) : ℤ := amounts.sumBy (fun _ amount ↦ amount)

variable {rt : Runtime} {cfg : Config} {balances payments : GoMap Address ℤ}

theorem total_addBalance (balances : GoMap Address ℤ) (address : Address) (amount : ℤ) :
    total (addBalance balances address amount) = total balances + amount := by
  unfold total addBalance
  rw [sumBy_insert]
  cases h : balances[address]? with
  | none =>
    rw [erase_of_getElem?_eq_none _ h, ExtTreeMap.getD_eq_getD_getElem?, h, Option.getD_none]
    ring
  | some balance =>
    rw [sumBy_erase_of_some _ h, ExtTreeMap.getD_eq_getD_getElem?, h, Option.getD_some]
    ring

theorem total_foldl_addBalance (l : List (Address × ℤ)) (balances : GoMap Address ℤ) :
    total (l.foldl (fun balances e ↦ addBalance balances e.1 e.2) balances) =
      total balances + (l.map (·.2)).sum := by
  induction l generalizing balances with
  | nil => simp
  | cons e l ih =>
    rw [foldl_cons, ih, total_addBalance, map_cons, sum_cons]
    ring

theorem sum_ediv_mul_le (l : List ℤ) (reward : ℤ) {d : ℤ} (hd : 0 < d) :
    (l.map (fun stake ↦ stake * reward / d)).sum * d ≤ l.sum * reward := by
  induction l with
  | nil => simp
  | cons stake l ih =>
    have hfloor := Int.ediv_mul_le (stake * reward) hd.ne'
    simp only [map_cons, sum_cons, add_mul]
    omega

theorem le_sum_ediv_mul (l : List ℤ) (reward : ℤ) {d : ℤ} (hd : 0 < d) :
    l.sum * reward ≤ (l.map (fun stake ↦ stake * reward / d)).sum * d + d * l.length := by
  induction l with
  | nil => simp
  | cons stake l ih =>
    have hfloor := Int.lt_ediv_add_one_mul_self (stake * reward) hd
    simp only [map_cons, sum_cons, length_cons, Nat.cast_add, Nat.cast_one, add_mul, mul_add,
      one_mul] at hfloor ih ⊢
    omega

variable {reward : ℤ} {period : UInt64}

theorem lt_sum_ediv {l : List ℤ} (hl : l ≠ []) (h : 0 < l.sum) :
    reward < (l.map (fun stake ↦ stake * reward / l.sum)).sum + l.length := by
  cases l with
  | nil => exact absurd rfl hl
  | cons stake l =>
    have hfloor := Int.lt_ediv_add_one_mul_self (stake * reward) h
    have hrest := le_sum_ediv_mul l reward h
    refine lt_of_mul_lt_mul_right ?_ h.le
    calc reward * (stake :: l).sum = stake * reward + l.sum * reward := by rw [sum_cons]; ring
      _ < _ := add_lt_add_of_lt_of_le hfloor hrest
      _ = _ := by simp only [map_cons, sum_cons, length_cons]; push_cast; ring

namespace Snapshot

variable {s : Snapshot}

variable {coinbase : Address} {votersReward : ℤ}

def rewardedStakes (cfg : Config) (s : Snapshot) (coinbase : Address) : List ℤ :=
  (s.rewardedVotes cfg coinbase).toList.map (·.2.stake)

theorem calculateVoteReward_eq_ok (h : s.calculateVoteReward cfg coinbase votersReward = .ok payments) :
    (0 < (s.rewardedStakes cfg coinbase).sum ∨ s.rewardedStakes cfg coinbase = []) ∧
    payments = (s.rewardedVotes cfg coinbase).map (fun _ vote ↦
      vote.stake * votersReward / (s.rewardedStakes cfg coinbase).sum) := by
  unfold calculateVoteReward at h
  dsimp only at h
  split_ifs at h with hmiss hzero
  · cases h
  · cases h
  cases h
  refine ⟨?_, rfl⟩
  rw [Bool.and_eq_true, decide_eq_true_eq, not_and_or, Int.not_le] at hzero
  refine hzero.imp_right (fun hemp ↦ ?_)
  rw [Bool.not_eq_true', Bool.not_eq_false, ExtTreeMap.isEmpty_iff] at hemp
  rw [rewardedStakes, hemp]
  rfl

theorem total_shares (d : ℤ) :
    total ((s.rewardedVotes cfg coinbase).map (fun _ vote ↦ vote.stake * votersReward / d)) =
      ((s.rewardedStakes cfg coinbase).map (fun stake ↦ stake * votersReward / d)).sum := by
  rw [total, sumBy, ExtTreeMap.toList_map, rewardedStakes, map_map, map_map]
  rfl

theorem total_calculateVoteReward (hrew : 0 ≤ votersReward)
    (h : s.calculateVoteReward cfg coinbase votersReward = .ok payments) :
    total payments ≤ votersReward := by
  obtain ⟨hpos | hnil, rfl⟩ := calculateVoteReward_eq_ok h
  · rw [total_shares]
    refine le_of_mul_le_mul_right ?_ hpos
    rw [mul_comm votersReward]
    exact sum_ediv_mul_le _ votersReward hpos
  · rw [total_shares, hnil]
    exact hrew

end Snapshot

def blockNumPerYear (period : UInt64) : ℕ := (secondsPerYear / period).toNat

theorem blockReward_eq (hper : 0 < period) (hyear : period ≤ secondsPerYear) {n : ℕ} (hn : n < 2 ^ 64) :
    blockReward period n =
      .ok ((totalBlockReward / (2 * blockNumPerYear period)) >>> (n / blockNumPerYear period)) := by
  have hdiv : (secondsPerYear / period).toNat = 31536000 / period.toNat := by
    rfl
  have hpos : 0 < period.toNat := UInt64.lt_iff_toNat_lt.mp hper
  have hle : period.toNat ≤ 31536000 := UInt64.le_iff_toNat_le.mp hyear
  have hyears : 0 < 31536000 / period.toNat := Nat.div_pos hle hpos
  have hbound : 31536000 / period.toNat ≤ 31536000 := Nat.div_le_self _ _
  have htwice : (2 * (secondsPerYear / period)).toNat = 2 * blockNumPerYear period := by
    rw [UInt64.toNat_mul]
    exact Nat.mod_eq_of_lt (by change 2 * _ < _; omega)
  have hnum : (bigUint64 n / (secondsPerYear / period)).toNat = n / blockNumPerYear period := by
    rw [UInt64.toNat_div, bigUint64, Int.natAbs_natCast, UInt64.toNat_ofNat_of_lt' hn]
    rfl
  have hne : period ≠ 0 := (UInt64.pos_iff_ne_zero).mp hper
  have hyears' : secondsPerYear / period ≠ 0 := by
    intro h
    rw [h] at hdiv
    change 0 = _ at hdiv
    omega
  unfold blockReward
  rw [if_neg hne]
  rw [if_neg hyears', htwice, hnum]
  rfl

/-- The rewards of all blocks of a chain stay below the cap. -/
theorem scheduled_issuance_le (period : UInt64) (hper : 0 < period)
    (hyear : period ≤ secondsPerYear) (N : UInt64) :
    ∃ reward : ℕ → ℤ,
      (∀ n ≤ N.toNat, blockReward period n = .ok (reward n) ∧
        reward n =
          (totalBlockReward / (2 * (secondsPerYear / period).toNat)) >>>
            (n / (secondsPerYear / period).toNat)) ∧
      ∑ n ∈ Finset.range (N.toNat + 1), reward n ≤ totalBlockReward := by
  let B := blockNumPerYear period
  let start : ℕ := totalBlockReward.toNat / (2 * B)
  have hB : 0 < B := by
    change 0 < (secondsPerYear / period).toNat
    exact Nat.div_pos (UInt64.le_iff_toNat_le.mp hyear) (UInt64.lt_iff_toNat_lt.mp hper)
  have hst : totalBlockReward / (2 * B) = start := by
    rfl
  refine ⟨fun n ↦ (totalBlockReward / (2 * B)) >>> (n / B), fun n hn ↦ ⟨?_, rfl⟩, ?_⟩
  · have := N.toNat_lt
    exact blockReward_eq hper hyear (by omega)
  have hsum : ∑ n ∈ Finset.range (N.toNat + 1), (totalBlockReward / (2 * B)) >>> (n / B) =
      ((∑ n ∈ Finset.range (N.toNat + 1), start >>> (n / B) : ℕ) : ℤ) := by
    rw [Nat.cast_sum]
    exact Finset.sum_congr rfl (fun n _ ↦ rfl)
  rw [hsum]
  have hle := sum_shiftRight_div_le start B (N.toNat + 1) hB
  have hcap : 2 * (B * start) ≤ totalBlockReward.toNat := by
    have := Nat.mul_div_le totalBlockReward.toNat (2 * B)
    rwa [← mul_assoc]
  have hnon : (totalBlockReward.toNat : ℤ) = totalBlockReward := rfl
  omega

/-- The first two years at three seconds a block. -/
theorem scheduled_issuance_le_two_years :
    ∃ reward : ℕ → ℤ, blockReward 3 0 = .ok (reward 0) ∧ blockReward 3 10512000 = .ok (reward 10512000) ∧
      ∑ n ∈ Finset.range 21024000, reward n ≤ totalBlockReward := by
  obtain ⟨reward, heq, hle⟩ := scheduled_issuance_le 3 (by decide) (by decide) 21023999
  exact ⟨reward, (heq 0 (by decide)).1, (heq 10512000 (by decide)).1, hle⟩

end BjutEth.Alien
