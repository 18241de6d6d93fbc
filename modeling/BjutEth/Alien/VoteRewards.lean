import BjutEth.Lib.KeyedLoop
import BjutEth.Lib.WriteAll
import BjutEth.Alien.Issuance
import BjutEth.Alien.VoteBook

namespace BjutEth.Alien.Snapshot

open Std Outcome List ExtTreeMap GoMap

variable {cfg : Config} {s : Snapshot} {coinbase : Address} {votersReward : ℤ} {rewards : GoMap Address ℤ}

def qualifies (cfg : Config) (s : Snapshot) (coinbase : Address) (vote : Vote) : Bool :=
  vote.candidate = coinbase && bigUint64 (s.voters.getD vote.voter 0) < s.number - cfg.maxSignerCount

def misses (s : Snapshot) (coinbase : Address) (vote : Vote) : Bool :=
  vote.candidate = coinbase && !s.voters.contains vote.voter

def gatherStake (cfg : Config) (s : Snapshot) (coinbase : Address) (state : ℤ × GoMap Address ℤ)
    (e : Address × Vote) : ℤ × GoMap Address ℤ :=
  if qualifies cfg s coinbase e.2 then (state.1 + e.2.stake, state.2.insert e.1 e.2.stake) else state

/-- `calculateVoteReward` with its two loops over maps. The second one divides by `allStake`,
if it has a round. -/
def voteRewardLoops (rt : Runtime) (cfg : Config) (s : Snapshot) (coinbase : Address) (votersReward : ℤ) :
    Go (GoMap Address ℤ) :=
  if s.votes.toList.any (fun e ↦ s.misses coinbase e.2) then goPanic
  else
    let (allStake, rewards) := (rt.rangeOrder s.votes.toList).foldl (gatherStake cfg s coinbase) (0, ∅)
    if allStake ≤ 0 && !rewards.isEmpty then fail .allStakeMissing
    else if allStake = 0 && !rewards.isEmpty then goPanic
    else .ok ((rt.rangeOrder rewards.keys).foldl (fun rewards voter ↦
      rewards.modify voter (fun stake ↦ stake * votersReward / allStake)) rewards)

theorem foldl_gatherStake (l : List (Address × Vote)) (state : ℤ × GoMap Address ℤ) :
    l.foldl (gatherStake cfg s coinbase) state =
      (state.1 + ((l.filter (fun e ↦ qualifies cfg s coinbase e.2)).map (·.2.stake)).sum,
        (l.filter (fun e ↦ qualifies cfg s coinbase e.2)).foldl (fun m e ↦ m.insert e.1 e.2.stake) state.2) := by
  induction l generalizing state with
  | nil => simp
  | cons e l ih =>
    rw [foldl_cons, ih, gatherStake]
    split_ifs with he
    · simp [he, add_assoc]
    · simp [he]

theorem getElem?_foldl_insert (l : List (Address × Vote)) (m : GoMap Address ℤ) (a : Address) :
    (l.foldl (fun m e ↦ m.insert e.1 e.2.stake) m)[a]? =
      writeAll (l.map (fun e ↦ (e.1, e.2.stake))) (fun a ↦ m[a]?) a := by
  induction l generalizing m with
  | nil => rfl
  | cons e l ih =>
    rw [foldl_cons, ih]
    refine congrArg (fun f ↦ writeAll _ f a) (funext fun b ↦ ?_)
    simp only [get_insert, Function.update_apply, eq_comm (a := b)]

theorem gathered_eq {order : List (Address × Vote)} (hord : order.Perm s.votes.toList) :
    order.foldl (gatherStake cfg s coinbase) (0, ∅) =
      ((s.rewardedVotes cfg coinbase).sumBy (fun _ vote ↦ vote.stake),
        (s.rewardedVotes cfg coinbase).map (fun _ vote ↦ vote.stake)) := by
  have hfil : (s.rewardedVotes cfg coinbase).toList =
      s.votes.toList.filter (fun e ↦ qualifies cfg s coinbase e.2) := ExtTreeMap.toList_filter
  rw [foldl_gatherStake, zero_add, ((hord.filter _).map _).sum_eq, ← hfil]
  refine congrArg _ (ExtTreeMap.ext_getElem? fun a ↦ ?_)
  rw [getElem?_foldl_insert, ExtTreeMap.getElem?_map]
  have hmem : ∀ e, e ∈ order.filter (fun e ↦ qualifies cfg s coinbase e.2) ↔
      (s.rewardedVotes cfg coinbase)[e.1]? = some e.2 := fun e ↦ by
    rw [(hord.filter _).mem_iff, ← hfil]
    exact mem_toList_iff_getElem?_eq_some
  cases ha : (s.rewardedVotes cfg coinbase)[a]? with
  | none =>
    refine (writeAll_of_forall_ne (fun e he hea ↦ ?_) _).trans getElem?_empty
    obtain ⟨e', he', rfl⟩ := List.mem_map.mp he
    rw [← hea, (hmem e').mp he'] at ha
    cases ha
  | some vote =>
    have hin : (a, vote.stake) ∈ (order.filter (fun e ↦ qualifies cfg s coinbase e.2)).map
        (fun e ↦ (e.1, e.2.stake)) := List.mem_map.mpr ⟨(a, vote), (hmem _).mpr ha, rfl⟩
    refine writeAll_of_mem hin (fun e he hea ↦ ?_) _
    obtain ⟨e', he', rfl⟩ := List.mem_map.mp he
    rw [← hea, (hmem e').mp he'] at ha
    cases ha
    rfl

theorem foldl_modify_eq {order : List Address} (hord : order.Perm rewards.keys) (f : ℤ → ℤ) :
    order.foldl (fun rewards voter ↦ rewards.modify voter f) rewards = rewards.map (fun _ ↦ f) := by
  have hnd := hord.nodup_iff.mpr nodup_keys
  have hloop := (@foldl_keyed _ _ _ (fun (m : GoMap Address ℤ) a ↦ m[a]?) (fun m a ↦ m.modify a f)
    (fun a ↦ rewards[a]?.map f) (fun _ ↦ True) rewards order hnd trivial
    (fun m _ a _ ha ↦ ?_)).2
  · refine ExtTreeMap.ext_getElem? fun a ↦ ?_
    rw [ExtTreeMap.getElem?_map]
    by_cases ha : a ∈ order
    · exact (hloop a).1 ha
    rw [(hloop a).2 ha]
    rw [hord.mem_iff, ExtTreeMap.mem_keys] at ha
    rw [ExtTreeMap.getElem?_eq_none ha, Option.map_none]
  refine ⟨trivial, ?_, fun b hb ↦ ?_⟩
  · rw [ExtTreeMap.getElem?_modify, if_pos Std.compare_self, ha]
  rw [ExtTreeMap.getElem?_modify, if_neg]
  exact fun h ↦ hb (Std.compare_eq_iff_eq.mp h).symm

/-- The order of the loops makes no difference, and they never divide by zero. -/
theorem voteRewardLoops_eq (rt : Runtime) :
    voteRewardLoops rt cfg s coinbase votersReward = s.calculateVoteReward cfg coinbase votersReward := by
  unfold voteRewardLoops calculateVoteReward
  rw [gathered_eq (rt.rangeOrder_perm _)]
  have hnil : ((s.rewardedVotes cfg coinbase).map (fun _ vote ↦ vote.stake)).isEmpty =
      (s.rewardedVotes cfg coinbase).isEmpty := by
    rw [isEmpty_eq_size_beq_zero, isEmpty_eq_size_beq_zero, size_map]
  dsimp only
  rw [hnil, foldl_modify_eq (rt.rangeOrder_perm _)]
  refine if_congr Iff.rfl rfl ?_
  by_cases hmis : (decide ((s.rewardedVotes cfg coinbase).sumBy (fun _ vote ↦ vote.stake) ≤ 0) &&
      !(s.rewardedVotes cfg coinbase).isEmpty) = true
  · rw [if_pos hmis, if_pos hmis]
  rw [if_neg hmis, if_neg hmis, if_neg]
  · refine congrArg Except.ok (ExtTreeMap.ext_getElem? fun a ↦ ?_)
    simp only [ExtTreeMap.getElem?_map, Option.map_map, Function.comp_def]
  intro hzero
  rw [Bool.and_eq_true, decide_eq_true_eq] at hzero hmis
  exact hmis ⟨hzero.1.le, hzero.2⟩

example : (voteRewardLoops .inOrder .small (newSnapshot .small 0 0 [] 10) 1 7).isOk = true := by
  decide +kernel

theorem rewardedVotes_eq_some_iff {voter : Address} {vote : Vote} :
    (s.rewardedVotes cfg coinbase)[voter]? = some vote ↔
      s.votes[voter]? = some vote ∧ qualifies cfg s coinbase vote = true := by
  rw [rewardedVotes, getElem?_filter', Option.filter_eq_some_iff]
  rfl

theorem mem_rewardedVotes_iff {voter : Address} : voter ∈ s.rewardedVotes cfg coinbase ↔
    ∃ vote, s.votes[voter]? = some vote ∧ qualifies cfg s coinbase vote = true := by
  simp only [mem_iff_isSome_getElem?, Option.isSome_iff_exists, rewardedVotes_eq_some_iff]

theorem sum_stakes_le_iff (hstk : ∀ (voter : Address) (vote : Vote), s.votes[voter]? = some vote → 0 ≤ vote.stake) :
    (s.rewardedVotes cfg coinbase).sumBy (fun _ vote ↦ vote.stake) ≤ 0 ↔
      ∀ (voter : Address) (vote : Vote), s.votes[voter]? = some vote → qualifies cfg s coinbase vote = true →
        vote.stake = 0 := by
  have hnon : ∀ (voter : Address) (vote : Vote), (s.rewardedVotes cfg coinbase)[voter]? = some vote →
      0 ≤ vote.stake := fun voter vote h ↦ hstk voter vote (rewardedVotes_eq_some_iff.mp h).1
  constructor
  · intro hle voter vote hvote hq
    have hone := le_sumBy _ (fun _ vote ↦ vote.stake) hnon (rewardedVotes_eq_some_iff.mpr ⟨hvote, hq⟩)
    exact Int.le_antisymm (hone.trans hle) (hstk voter vote hvote)
  intro hzero
  rw [sumBy_congr _ (g := fun _ _ ↦ 0) (fun voter vote h ↦ ?_)]
  · simp [sumBy]
  obtain ⟨hvote, hq⟩ := rewardedVotes_eq_some_iff.mp h
  exact hzero voter vote hvote hq

theorem lt_total_calculateVoteReward (h : s.calculateVoteReward cfg coinbase votersReward = .ok rewards)
    (hsize : 0 < rewards.size) : votersReward < total rewards + rewards.size := by
  obtain ⟨hpos, rfl⟩ := calculateVoteReward_eq_ok h
  have hlen : (s.rewardedStakes cfg coinbase).length = (s.rewardedVotes cfg coinbase).size := by
    rw [rewardedStakes, length_map, ExtTreeMap.length_toList]
  rw [size_map, ← hlen] at hsize ⊢
  have hne := length_pos_iff.mp hsize
  rw [total_shares]
  exact lt_sum_ediv hne (hpos.resolve_right hne)

theorem voteRewardLoops_eq_fail_iff {rt : Runtime}
    (hstk : ∀ (voter : Address) (vote : Vote), s.votes[voter]? = some vote → 0 ≤ vote.stake) :
    voteRewardLoops rt cfg s coinbase votersReward = fail .allStakeMissing ↔
      (∀ (voter : Address) (vote : Vote), s.votes[voter]? = some vote → s.misses coinbase vote = false) ∧
      (∃ (voter : Address) (vote : Vote), s.votes[voter]? = some vote ∧ qualifies cfg s coinbase vote = true) ∧
      ∀ (voter : Address) (vote : Vote), s.votes[voter]? = some vote → qualifies cfg s coinbase vote = true →
        vote.stake = 0 := by
  have hmiss : s.votes.toList.any (fun e ↦ s.misses coinbase e.2) = false ↔
      ∀ (voter : Address) (vote : Vote), s.votes[voter]? = some vote → s.misses coinbase vote = false := by
    rw [List.any_eq_false]
    simp only [Prod.forall, mem_toList_iff_getElem?_eq_some, Bool.not_eq_true]
  have hsome : (s.rewardedVotes cfg coinbase).isEmpty = false ↔ ∃ (voter : Address) (vote : Vote),
      s.votes[voter]? = some vote ∧ qualifies cfg s coinbase vote = true := by
    rw [← Bool.not_eq_true, ExtTreeMap.isEmpty_iff, eq_empty_iff_forall_not_mem]
    simp only [not_forall, not_not, mem_rewardedVotes_iff]
  rw [voteRewardLoops_eq, ← sum_stakes_le_iff hstk, ← hmiss, ← hsome]
  change (if s.votes.toList.any (fun e ↦ s.misses coinbase e.2) = true then _ else _) = _ ↔ _
  cases s.votes.toList.any (fun e ↦ s.misses coinbase e.2) with
  | true => simp [goPanic, fail]
  | false => simp [fail, and_comm]

/-- Every voter of a reachable snapshot has an entry (`BookInv.applyAll`), so the stakes alone decide. -/
theorem BookInv.voteRewardLoops_eq_fail_iff {rt : Runtime} (h : s.BookInv) :
    voteRewardLoops rt cfg s coinbase votersReward = fail .allStakeMissing ↔
      (∃ (voter : Address) (vote : Vote), s.votes[voter]? = some vote ∧ qualifies cfg s coinbase vote = true) ∧
      ∀ (voter : Address) (vote : Vote), s.votes[voter]? = some vote → qualifies cfg s coinbase vote = true →
        vote.stake = 0 := by
  refine (Snapshot.voteRewardLoops_eq_fail_iff h.stake_nonneg).trans (and_iff_right fun voter vote hvote ↦ ?_)
  have hentry : vote.voter ∈ s.voters := by
    rw [h.voter_eq voter vote hvote, ← h.mem_voters, mem_iff_isSome_getElem?, hvote]
    rfl
  rw [misses, contains_iff_mem.mpr hentry, Bool.not_true, Bool.and_false]

/-- What the voters of a signer get for a block. -/
theorem voters_share_reward (rt : Runtime) (cfg : Config) (s : Snapshot) (coinbase : Address)
    (votersReward : ℤ)
    (hstk : ∀ (voter : Address) (vote : Vote), s.votes[voter]? = some vote → 0 ≤ vote.stake)
    (hrew : 0 ≤ votersReward) :
    (∀ rewards, voteRewardLoops rt cfg s coinbase votersReward = .ok rewards →
      (∀ (voter : Address) (reward : ℤ), rewards[voter]? = some reward → 0 ≤ reward) ∧
        total rewards ≤ votersReward ∧ (0 < rewards.size → votersReward - total rewards < rewards.size)) ∧
    (∀ rt', voteRewardLoops rt' cfg s coinbase votersReward = voteRewardLoops rt cfg s coinbase votersReward) ∧
    (voteRewardLoops rt cfg s coinbase votersReward = fail .allStakeMissing ↔
      (∀ (voter : Address) (vote : Vote), s.votes[voter]? = some vote → s.misses coinbase vote = false) ∧
      (∃ (voter : Address) (vote : Vote), s.votes[voter]? = some vote ∧ qualifies cfg s coinbase vote = true) ∧
      ∀ (voter : Address) (vote : Vote), s.votes[voter]? = some vote → qualifies cfg s coinbase vote = true →
        vote.stake = 0) := by
  refine ⟨fun rewards h ↦ ?_, fun rt' ↦ by rw [voteRewardLoops_eq, voteRewardLoops_eq],
    voteRewardLoops_eq_fail_iff hstk⟩
  rw [voteRewardLoops_eq] at h
  refine ⟨fun voter reward hr ↦ ?_, total_calculateVoteReward hrew h, fun hsize ↦ ?_⟩
  · obtain ⟨-, rfl⟩ := calculateVoteReward_eq_ok h
    rw [ExtTreeMap.getElem?_map] at hr
    obtain ⟨vote, hvote, rfl⟩ := Option.map_eq_some_iff.mp hr
    have hnon : ∀ (voter : Address) (vote : Vote), (s.rewardedVotes cfg coinbase)[voter]? = some vote →
        0 ≤ vote.stake := fun voter vote h ↦ hstk voter vote (rewardedVotes_eq_some_iff.mp h).1
    exact Int.ediv_nonneg (mul_nonneg (hnon voter vote hvote) hrew) (GoMap.sumBy_nonneg _ _ hnon)
  · have hlt := lt_total_calculateVoteReward h hsize
    omega

theorem voters_share_reward_genesis :
    let s := newSnapshot .small 0 0 [⟨1, 1, 5⟩, ⟨2, 1, 2⟩] 10
    ∃ rewards, voteRewardLoops .inOrder .small s 1 100 = .ok rewards ∧ rewards.size = 2 ∧
      100 - total rewards < 2 := by
  intro s
  refine exists_ok_imp (P := fun rewards ↦ rewards.size = 2) (by decide +kernel) (fun rewards hok hsize ↦ ?_)
  have hstk : ∀ e ∈ s.votes.toList, 0 ≤ e.2.stake := by decide +kernel
  have hshr := ((voters_share_reward .inOrder .small s 1 100 (fun voter vote hv ↦
    hstk _ (mem_toList_iff_getElem?_eq_some.mpr hv)) (by decide)).1 rewards hok).2.2
  rw [hsize] at hshr
  exact ⟨hsize, hshr (by decide)⟩

/-- The vote of 1 qualifies and has no stake, but there is no entry for the voter 2. -/
theorem missing_entry_panics :
    let s := { newSnapshot .small 0 0 [⟨1, 1, 0⟩, ⟨2, 1, 0⟩] 10 with voters := (∅ : GoMap Address ℤ).insert 1 0 }
    (∀ e ∈ s.votes.toList, 0 ≤ e.2.stake ∧ (qualifies .small s 1 e.2 = true → e.2.stake = 0)) ∧
    (∃ vote, s.votes[(1 : Address)]? = some vote ∧ qualifies .small s 1 vote = true) ∧
    voteRewardLoops .inOrder .small s 1 100 = goPanic := by
  decide +kernel

/-- A vote is rewarded before it is a loop old exactly if the first loop is not over and some
vote qualifies: the difference wraps around. -/
theorem only_matured_rewarded_iff (h : s.calculateVoteReward cfg coinbase votersReward = .ok rewards) :
    (∀ (voter : Address) (vote : Vote), s.votes[voter]? = some vote → voter ∈ rewards →
      (bigUint64 (s.voters.getD vote.voter 0)).toNat + cfg.maxSignerCount.toNat < s.number.toNat) ↔
      cfg.maxSignerCount ≤ s.number ∨ ∀ (voter : Address) (vote : Vote), s.votes[voter]? = some vote →
        qualifies cfg s coinbase vote = false := by
  obtain ⟨-, rfl⟩ := calculateVoteReward_eq_ok h
  simp only [ExtTreeMap.mem_map, mem_rewardedVotes_iff]
  constructor
  · intro hall
    by_contra! hno
    obtain ⟨hearly, voter, vote, hvote, hq⟩ := hno
    have hlt := hall voter vote hvote ⟨vote, hvote, Bool.eq_true_of_not_eq_false hq⟩
    rw [UInt64.le_iff_toNat_le] at hearly
    omega
  rintro (hle | hnone) voter vote hvote ⟨vote', hvote', hq⟩
  · cases hvote.symm.trans hvote'
    rw [qualifies, Bool.and_eq_true, decide_eq_true_eq, decide_eq_true_eq, UInt64.lt_iff_toNat_lt,
      UInt64.toNat_sub_of_le _ _ hle] at hq
    omega
  · rw [hnone voter vote' hvote'] at hq
    cases hq

theorem matured_rewarded_five :
    let s := { smallStart with number := 5 }
    ∃ rewards, s.calculateVoteReward .small 1 100 = .ok rewards ∧ ∀ (voter : Address) (vote : Vote),
      s.votes[voter]? = some vote → voter ∈ rewards → (bigUint64 (s.voters.getD vote.voter 0)).toNat + 3 < 5 := by
  intro s
  refine exists_ok_imp (P := fun _ ↦ True) (by decide +kernel) (fun rewards hok _ ↦ ?_)
  exact (only_matured_rewarded_iff hok).mpr (.inl (by decide))

/-- Block 1 pays for a vote of the genesis block. -/
theorem early_vote_rewarded :
    ∃ s, smallStart.applyAll (fun _ ↦ .inOrder) .byNumber .small
        [[.ofExtra 1 .zero]] = .ok s ∧
      ∃ rewards, s.calculateVoteReward .small 1 100 = .ok rewards ∧
        rewards[(1 : Address)]? = some 100 ∧ s.voters[(1 : Address)]? = some 0 ∧ s.number.toNat = 1 := by
  decide +kernel

end BjutEth.Alien.Snapshot
