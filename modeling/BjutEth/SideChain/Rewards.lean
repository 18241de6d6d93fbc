import BjutEth.Alien.Steps

namespace BjutEth.Alien

open Std Outcome List Option Crypto Rlp

def SCRecord.rewardedBlocks (rt : Runtime) (minConf : ℕ) (record : SCRecord) :
    List (UInt64 × Address) :=
  match calculateSCConfirmedNumber rt record minConf with
  | .error _ => []
  | .ok (confirmedNumber, confirmedCoinbase) =>
    confirmedCoinbase.toList.filter (fun e ↦
      record.lastConfirmedNumber < e.1 && e.1 ≤ confirmedNumber)

def SCRecord.scores (rt : Runtime) (minConf : ℕ) (record : SCRecord) : GoMap Address UInt64 :=
  (((record.rewardedBlocks rt minConf).map (·.2)).foldl
    (scoreBlock record.countPerPeriod) ⟨0, 0, ∅⟩).rewardScoreMap

def SCRecord.advanced (record : SCRecord) (confirmed : UInt64) : UInt64 :=
  if record.lastConfirmedNumber < confirmed then confirmed else record.lastConfirmedNumber

theorem SCRecord.le_advanced (record : SCRecord) (confirmed : UInt64) :
    record.lastConfirmedNumber ≤ record.advanced confirmed := by
  unfold SCRecord.advanced
  split_ifs with h
  · exact UInt64.le_of_lt h
  · exact UInt64.le_refl _

theorem lt_iff_add_one_le {a b c : UInt64} (h : a < c) : a + 1 ≤ b ↔ a < b := by
  rw [UInt64.le_iff_toNat_le, UInt64.lt_iff_toNat_lt, UInt64.toNat_add]
  rw [UInt64.lt_iff_toNat_lt] at h
  have hc := c.toNat_lt
  have hone : (1 : UInt64).toNat = 1 := rfl
  omega

theorem scoreBlocks_eq {rt : Runtime} {record : SCRecord} {minConf : ℕ} {confirmed : UInt64}
    {coinbases : GoMap UInt64 Address} {scores : GoMap Address UInt64}
    (hcalc : calculateSCConfirmedNumber rt record minConf = .ok (confirmed, coinbases))
    (h : scoreBlocks record confirmed coinbases = .ok scores) : scores = record.scores rt minConf := by
  unfold scoreBlocks at h
  rw [SCRecord.scores, SCRecord.rewardedBlocks, hcalc]
  split_ifs at h with hle hmax
  · cases h
    have hnone : coinbases.toList.filter (fun e ↦
        record.lastConfirmedNumber < e.1 && e.1 ≤ confirmed) = [] := by
      rw [filter_eq_nil_iff]
      intro e _ he
      rw [Bool.and_eq_true, decide_eq_true_eq, decide_eq_true_eq] at he
      exact absurd (UInt64.lt_of_lt_of_le he.1 (UInt64.le_trans he.2 hle)) (UInt64.lt_irrefl _)
    simp only [hnone, map_nil, foldl_nil]
  · cases h
  cases h
  have hlt : record.lastConfirmedNumber < confirmed := UInt64.not_le.mp hle
  simp only [lt_iff_add_one_le hlt]

namespace Snapshot

def lastConfirmed (s : Snapshot) (hash : Hash) : Option UInt64 :=
  (s.scRecordMap[hash]?).map (·.lastConfirmedNumber)

/-- The scores of a side chain that are stored for a block of the main chain. -/
def scoresAt (s : Snapshot) (hash : Hash) (number : UInt64) : Option SCBlockReward :=
  (s.scRewardMap.getD hash ⟨∅⟩).scBlockRewardMap[number]?

def sideChain (s : Snapshot) (hash : Hash) : Option SCRecord × SCReward :=
  (s.scRecordMap[hash]?, s.scRewardMap.getD hash ⟨∅⟩)

/-- The entries that the header `n` clears. -/
def rewardExpired (cfg : Config) (n : ℤ) (number : UInt64) : Bool :=
  number < bigUint64 n - scRewardExpiredLoopCount * cfg.maxSignerCount

section Confirm

variable {rt : Runtime} {cfg : Config} {s t : Snapshot} {hash : Hash} {n : ℤ} {record : SCRecord}

theorem lastConfirmed_recordSCConfirm (s : Snapshot) (c : SCConfirmation) (hash : Hash) :
    (s.recordSCConfirm c).lastConfirmed hash = s.lastConfirmed hash := by
  unfold lastConfirmed recordSCConfirm
  split_ifs
  · rw [ExtTreeMap.getElem?_modify]
    split_ifs with heq
    · rw [Std.compare_eq_iff_eq.mp heq, Option.map_map]
      congr 1
      funext r
      simp only [Function.comp_apply, addSCConfirm]
      split_ifs <;> rfl
    · rfl
  · rfl

theorem confirmRecord_of_ne {e : Hash × SCRecord} (hne : e.1 ≠ hash)
    (h : s.confirmRecord rt cfg n e = .ok t) : t.sideChain hash = s.sideChain hash := by
  obtain ⟨_, -, h⟩ := bind_eq_ok.mp h
  obtain ⟨_, -, h⟩ := bind_eq_ok.mp h
  cases h
  simp only [sideChain, GoMap.get_insert, GoMap.getD_insert, if_neg hne]

theorem confirmRecord_self (h : s.confirmRecord rt cfg n (hash, record) = .ok t) :
    ∃ confirmed coinbases,
      calculateSCConfirmedNumber rt record (minConfirmedSignerCount cfg) = .ok (confirmed, coinbases) ∧
      t.lastConfirmed hash = some (record.advanced confirmed) ∧
      ∀ k, t.scoresAt hash k =
        if k = bigUint64 n ∧ (record.scores rt (minConfirmedSignerCount cfg)).isEmpty = false then
          some ⟨record.scores rt (minConfirmedSignerCount cfg)⟩
        else s.scoresAt hash k := by
  obtain ⟨⟨confirmed, coinbases⟩, hcalc, h⟩ := bind_eq_ok.mp h
  obtain ⟨scores, hscores, h⟩ := bind_eq_ok.mp h
  cases h
  rw [← scoreBlocks_eq hcalc hscores]
  refine ⟨confirmed, coinbases, hcalc, ?_, fun k ↦ ?_⟩
  · simp only [lastConfirmed, ExtTreeMap.getElem?_insert_self, map_some, Option.some.injEq,
      gt_iff_lt, SCRecord.advanced]
    split_ifs <;> rfl
  simp only [scoresAt, GoMap.getD_insert, if_true]
  cases scores.isEmpty with
  | true => simp
  | false =>
    simp only [Bool.false_eq_true, if_false, GoMap.get_insert, and_true, eq_comm (a := k)]

theorem foldlM_confirmRecord_of_ne {l : List (Hash × SCRecord)} (hne : ∀ e ∈ l, e.1 ≠ hash)
    (h : l.foldlM (confirmRecord rt cfg n) s = .ok t) : t.sideChain hash = s.sideChain hash :=
  Ensures.foldlM (P := fun t ↦ t.sideChain hash = s.sideChain hash) l rfl
    (fun _ hu e he _ hv ↦ (confirmRecord_of_ne (hne e he) hv).trans hu) t h

theorem clearReward_getD (reward : SCReward) : ((clearReward cfg n reward).getD ⟨∅⟩).scBlockRewardMap =
    reward.scBlockRewardMap.filter (fun number _ ↦ !rewardExpired cfg n number) := by
  simp only [clearReward, rewardExpired]
  split_ifs with hnil
  · exact (ExtTreeMap.isEmpty_iff.mp hnil).symm
  · rfl

theorem getElem?_cleared (m : GoMap Hash SCReward) (k : UInt64) :
    ((m.filterMap (fun _ reward ↦ clearReward cfg n reward)).getD hash ⟨∅⟩).scBlockRewardMap[k]? =
      if rewardExpired cfg n k = true then none else (m.getD hash ⟨∅⟩).scBlockRewardMap[k]? := by
  have hmap : (m.filterMap (fun _ reward ↦ clearReward cfg n reward)).getD hash ⟨∅⟩ =
      (clearReward cfg n (m.getD hash ⟨∅⟩)).getD ⟨∅⟩ := by
    rw [ExtTreeMap.getD_eq_getD_getElem?, ExtTreeMap.getD_eq_getD_getElem?, ExtTreeMap.getElem?_filterMap']
    cases m[hash]? with
    | none => rfl
    | some reward => rfl
  rw [hmap, clearReward_getD, ExtTreeMap.getElem?_filter']
  cases (m.getD hash ⟨∅⟩).scBlockRewardMap[k]? with
  | none => simp
  | some e => cases rewardExpired cfg n k <;> rfl

/-- Each record is confirmed once, whatever the order of the side chains, and its scores are
stored for the header. -/
theorem sideChain_updateSCConfirmation (h : s.updateSCConfirmation rt cfg n = .ok t) :
    (s.scRecordMap[hash]? = none → t.scRecordMap[hash]? = none ∧
      ∀ k, t.scoresAt hash k = if rewardExpired cfg n k = true then none else s.scoresAt hash k) ∧
    (∀ record, s.scRecordMap[hash]? = some record → ∃ confirmed coinbases,
      calculateSCConfirmedNumber rt record (minConfirmedSignerCount cfg) = .ok (confirmed, coinbases) ∧
      t.lastConfirmed hash = some (record.advanced confirmed) ∧
      ∀ k, t.scoresAt hash k = if rewardExpired cfg n k = true then none
        else if k = bigUint64 n ∧ (record.scores rt (minConfirmedSignerCount cfg)).isEmpty = false then
          some ⟨record.scores rt (minConfirmedSignerCount cfg)⟩
        else s.scoresAt hash k) := by
  obtain ⟨u, hu, ht⟩ := bind_eq_ok.mp h
  cases ht
  have hmem : ∀ e ∈ rt.rangeOrder s.scRecordMap.toList, s.scRecordMap[e.1]? = some e.2 := fun e he ↦
    ExtTreeMap.mem_toList_iff_getElem?_eq_some.mp ((rt.rangeOrder_perm _).mem_iff.mp he)
  constructor
  · intro hnone
    have hkeep : u.sideChain hash = s.sideChain hash := by
      refine foldlM_confirmRecord_of_ne (fun e he heq ↦ ?_) hu
      have := hmem e he
      rw [heq, hnone] at this
      cases this
    refine ⟨(congrArg Prod.fst hkeep).trans hnone, fun k ↦ ?_⟩
    have hscores : u.scoresAt hash k = s.scoresAt hash k := congrArg (·.2.scBlockRewardMap[k]?) hkeep
    rw [← hscores]
    exact getElem?_cleared u.scRewardMap k
  intro record hsome
  have hin : (hash, record) ∈ rt.rangeOrder s.scRecordMap.toList :=
    (rt.rangeOrder_perm _).mem_iff.mpr (ExtTreeMap.mem_toList_iff_getElem?_eq_some.mpr hsome)
  have hnd : ((rt.rangeOrder s.scRecordMap.toList).map (·.1)).Nodup :=
    ((rt.rangeOrder_perm _).map _).nodup_iff.mpr s.scRecordMap.nodup_keys_toList
  obtain ⟨before, after, hspl⟩ := append_of_mem hin
  rw [hspl, map_append, map_cons, nodup_append, nodup_cons] at hnd
  rw [hspl, foldlM_append] at hu
  obtain ⟨v, hv, hu⟩ := bind_eq_ok.mp hu
  obtain ⟨w, hw, hu⟩ := bind_eq_ok.mp hu
  obtain ⟨confirmed, coinbases, hcalc, hlast, hscores⟩ := confirmRecord_self hw
  have hbef : v.sideChain hash = s.sideChain hash := by
    refine foldlM_confirmRecord_of_ne (fun e he ↦ ?_) hv
    exact hnd.2.2 e.1 (mem_map_of_mem he) hash mem_cons_self
  have haft : u.sideChain hash = w.sideChain hash := by
    refine foldlM_confirmRecord_of_ne (fun e he heq ↦ ?_) hu
    subst heq
    exact hnd.2.1.1 (List.mem_map.mpr ⟨e, he, rfl⟩)
  refine ⟨confirmed, coinbases, hcalc, ?_, fun k ↦ ?_⟩
  · exact (congrArg (·.1.map (·.lastConfirmedNumber)) haft).trans hlast
  have hv' : v.scoresAt hash k = s.scoresAt hash k := congrArg (·.2.scBlockRewardMap[k]?) hbef
  have hu' : u.scoresAt hash k = w.scoresAt hash k := congrArg (·.2.scBlockRewardMap[k]?) haft
  rw [← hv', ← hscores, ← hu']
  exact getElem?_cleared u.scRewardMap k

theorem lastConfirmed_checkSCConfirmation (cfg : Config) (s : Snapshot) (n : ℤ) (hash : Hash)
    (hsh : ∀ r, s.scRecordMap[hash]? = some r → r.record.size ≤ scMaxConfirmedRecordLength) :
    (s.checkSCConfirmation cfg n).lastConfirmed hash = s.lastConfirmed hash := by
  unfold lastConfirmed checkSCConfirmation
  rw [ExtTreeMap.getElem?_map, Option.map_map]
  cases hr : s.scRecordMap[hash]? with
  | none => rfl
  | some r =>
    have hsize := hsh r hr
    simp only [map_some, Function.comp_apply, checkRecord]
    rw [if_neg (Nat.not_lt.mpr hsize)]

end Confirm

section Results

variable {rt : Runtime} {cfg : Config} {s t : Snapshot} {hash : Hash} {n : ℤ} {last : UInt64}

/-- A proposal to remove a side chain takes effect: it is due and approved, and there is
a record to remove. -/
def removes (cfg : Config) (n : ℤ) (hash : Hash) (s : Snapshot) (entry : Hash × Proposal) : Bool :=
  entry.2.dueNumber cfg = bigUint64 n && s.isApproved entry.2 &&
    entry.2.proposalType = proposalTypeSideChainRemove && entry.2.scHash = hash &&
    s.scRecordMap.contains hash

def removesAny (cfg : Config) (n : ℤ) (hash : Hash) : List (Hash × Proposal) → Snapshot → Bool
  | [], _ => false
  | entry :: entries, s => s.removes cfg n hash entry ||
    match s.settleProposal cfg n entry with
    | .ok t => removesAny cfg n hash entries t
    | .error _ => false

theorem lastConfirmed_insert {key : Hash} {r : SCRecord} (hmap : t.scRecordMap = s.scRecordMap.insert key r)
    (hkey : key = hash → r.lastConfirmedNumber = last) (hlast : s.lastConfirmed hash = some last) :
    t.lastConfirmed hash = some last := by
  unfold lastConfirmed
  rw [hmap, GoMap.get_insert]
  split_ifs with heq
  · rw [map_some, hkey heq]
  · exact hlast

theorem lastConfirmed_sideChainAdd (p : Proposal) (hlast : s.lastConfirmed hash = some last) :
    (s.sideChainAdd p).lastConfirmed hash = some last := by
  refine lastConfirmed_insert rfl (fun heq ↦ ?_) hlast
  rw [heq]
  obtain ⟨r, hr, rfl⟩ := map_eq_some_iff.mp hlast
  rw [hr]

theorem lastConfirmed_rentSideChain {p : Proposal} (h : s.rentSideChain n p = .ok t)
    (hlast : s.lastConfirmed hash = some last) : t.lastConfirmed hash = some last := by
  unfold rentSideChain at h
  split at h
  · cases h
    exact hlast
  next r hr =>
  split_ifs at h
  · cases h
  cases h
  refine lastConfirmed_insert rfl (fun heq ↦ ?_) hlast
  rw [lastConfirmed, ← heq, hr] at hlast
  exact some.inj hlast

theorem lastConfirmed_enactProposal {p : Proposal} (h : s.enactProposal n p = .ok t)
    (hrm : ¬ (p.proposalType = proposalTypeSideChainRemove ∧ p.scHash = hash ∧
      s.scRecordMap.contains hash = true))
    (hlast : s.lastConfirmed hash = some last) : t.lastConfirmed hash = some last := by
  unfold enactProposal at h
  simp only [candidateNeedPD, Bool.and_false, Bool.false_eq_true, if_false] at h
  split_ifs at h with _ _ _ _ hrem _ _
  · cases h
    exact hlast
  · cases h
    exact hlast
  · cases h
    exact hlast
  · cases h
    exact lastConfirmed_sideChainAdd p hlast
  · cases h
    obtain ⟨r, hr, rfl⟩ := map_eq_some_iff.mp hlast
    have hne : compare p.scHash hash ≠ .eq := fun heq ↦ by
      refine hrm ⟨hrem, Std.compare_eq_iff_eq.mp heq, ?_⟩
      rw [ExtTreeMap.contains_iff_mem, ExtTreeMap.mem_iff_isSome_getElem?, hr]
      rfl
    simp only [lastConfirmed, ExtTreeMap.getElem?_erase, if_neg hne, hr, map_some]
  · cases h
    exact hlast
  · exact lastConfirmed_rentSideChain h hlast
  · cases h
    exact hlast

theorem lastConfirmed_settleProposal {entry : Hash × Proposal}
    (h : s.settleProposal cfg n entry = .ok t) (hrm : s.removes cfg n hash entry = false)
    (hlast : s.lastConfirmed hash = some last) : t.lastConfirmed hash = some last := by
  unfold settleProposal at h
  simp only at h
  split at h
  · next hdue =>
    obtain ⟨u, hu, ht⟩ := bind_eq_ok.mp h
    cases ht
    unfold decideProposal at hu
    split at hu
    · next happroved =>
      have hkeep : ¬ (entry.2.proposalType = proposalTypeSideChainRemove ∧ entry.2.scHash = hash ∧
          s.scRecordMap.contains hash = true) := by
        rintro ⟨htype, hsc, hcon⟩
        have happroved' : s.isApproved entry.2 = true := happroved
        simp [removes, hdue, happroved', htype, hsc, hcon] at hrm
      have henact : u.lastConfirmed hash = some last := lastConfirmed_enactProposal hu hkeep hlast
      exact henact
    · cases hu
      exact hlast
  · cases h
    exact hlast

theorem lastConfirmed_foldlM_settleProposal {l : List (Hash × Proposal)}
    (h : l.foldlM (settleProposal cfg n) s = .ok t) (hrm : removesAny cfg n hash l s = false)
    (hlast : s.lastConfirmed hash = some last) : t.lastConfirmed hash = some last := by
  induction l generalizing s with
  | nil =>
    cases h
    exact hlast
  | cons entry l ih =>
    obtain ⟨u, hu, h⟩ := bind_eq_ok.mp h
    rw [removesAny, hu, Bool.or_eq_false_iff] at hrm
    exact ih h hrm.2 (lastConfirmed_settleProposal hu hrm.1 hlast)

end Results

end Snapshot

namespace HeaderStep

def confirming (cfg : Config) (x : HeaderStep) : Snapshot :=
  let s := x.stored.updateSnapshotByDeclares cfg x.extra.currentBlockDeclares x.header.number
  let s := { s with period := if s.period = 0 then cfg.period else s.period }
  s.updateSnapshotBySetSCCoinbase x.extra.sideChainSetCoinbases

def confirmedBy (cfg : Config) (x : HeaderStep) : Snapshot :=
  x.extra.sideChainConfirmations.foldl Snapshot.recordSCConfirm (x.confirming cfg)

def rewardedBlocks (rt : Runtime) (cfg : Config) (hash : Hash) (x : HeaderStep) :
    List (UInt64 × Address) :=
  if isLoopEnd cfg x.header.number then
    match ((x.confirmedBy cfg).checkSCConfirmation cfg x.header.number).scRecordMap[hash]? with
    | none => []
    | some record => record.rewardedBlocks rt (minConfirmedSignerCount cfg)
  else []

/-- What the header stores for the side chain: the scores of the blocks that it rewards. -/
def scores (rt : Runtime) (cfg : Config) (hash : Hash) (x : HeaderStep) : GoMap Address UInt64 :=
  (((x.rewardedBlocks rt cfg hash).map (·.2)).foldl (scoreBlock
    ((((x.confirmedBy cfg).checkSCConfirmation cfg x.header.number).scRecordMap[hash]?).elim 0
      (·.countPerPeriod))) ⟨0, 0, ∅⟩).rewardScoreMap

def removesSideChain (rt : Runtime) (cfg : Config) (hash : Hash) (x : HeaderStep) : Bool :=
  Snapshot.removesAny cfg x.header.number hash (rt.rangeOrder x.decided.proposals.toList)
    (x.decided.expireRefund cfg x.header.number)

def resetsSideChain (cfg : Config) (hash : Hash) (x : HeaderStep) : Bool :=
  isLoopEnd cfg x.header.number &&
    ((x.confirmedBy cfg).scRecordMap[hash]?).any (fun r ↦ r.record.size > scMaxConfirmedRecordLength)

end HeaderStep

namespace Snapshot

section Step

variable {rt : Runtime} {crypto : Crypto} {cfg : Config} {x : HeaderStep} {hash : Hash} {last : UInt64}

section

variable (hx : IsStep rt crypto cfg x)

include hx

theorem IsStep.confirm :
    ∃ u, (x.confirming cfg).updateSnapshotBySCConfirm rt cfg x.extra.sideChainConfirmations
        x.header.number = .ok u ∧
      x.decided = u.updateSnapshotByNoticeConfirm cfg x.extra.sideChainNoticeConfirmed x.header.number := by
  obtain ⟨_, h1, h⟩ := bind_eq_ok.mp hx.decided
  cases h1
  obtain ⟨_, h2, h⟩ := bind_eq_ok.mp h
  cases h2
  obtain ⟨_, h3, h⟩ := bind_eq_ok.mp h
  cases h3
  obtain ⟨u, hu, h⟩ := bind_eq_ok.mp h
  obtain ⟨_, h5, h⟩ := bind_eq_ok.mp h
  cases h5
  exact ⟨u, hu, (Except.ok.inj h).symm⟩

theorem IsStep.lastConfirmed_confirmedBy (hash : Hash) :
    (x.confirmedBy cfg).lastConfirmed hash = x.start.lastConfirmed hash := by
  have hbef : x.before.scRecordMap = x.start.scRecordMap :=
    hx.before_kept scRecordMap (fun _ ↦ rfl) (fun _ ↦ rfl) (fun _ _ _ ↦ rfl)
  have hstd : x.stored.scRecordMap = x.before.scRecordMap :=
    kept scRecordMap (updateSnapshotByProposals_frame x.before _ _) (fun _ ↦ rfl)
  have hdeclares : (x.stored.updateSnapshotByDeclares cfg x.extra.currentBlockDeclares
      x.header.number).scRecordMap = x.stored.scRecordMap :=
    kept scRecordMap (updateSnapshotByDeclares_frame cfg x.stored _ _) (fun _ ↦ rfl)
  have hconfirming : (x.confirming cfg).scRecordMap = x.start.scRecordMap :=
    hdeclares.trans (hstd.trans hbef)
  have hrec := foldl_keeps recordSCConfirm (fun s ↦ s.lastConfirmed hash)
    (fun s c ↦ lastConfirmed_recordSCConfirm s c hash) x.extra.sideChainConfirmations (x.confirming cfg)
  refine hrec.trans ?_
  rw [lastConfirmed, hconfirming]
  rfl

/-- What a header confirms of a side chain goes on from the last block confirmed before. -/
theorem IsStep.confirmed_above (hreset : x.resetsSideChain cfg hash = false)
    (hlast : x.start.lastConfirmed hash = some last) :
    ∃ last', x.decided.lastConfirmed hash = some last' ∧ last ≤ last' ∧
      ∀ b ∈ x.rewardedBlocks rt cfg hash, last < b.1 ∧ b.1 ≤ last' := by
  obtain ⟨u, hu, hdec⟩ := hx.confirm
  have hntc : x.decided.scRecordMap = u.scRecordMap := by
    rw [hdec]
    exact kept scRecordMap (updateSnapshotByNoticeConfirm_frame cfg u _ _) (fun _ ↦ rfl)
  rw [← hx.lastConfirmed_confirmedBy hash] at hlast
  unfold updateSnapshotBySCConfirm at hu
  rw [lastConfirmed, hntc]
  split at hu
  · next hend =>
    rw [HeaderStep.resetsSideChain, hend, Bool.true_and] at hreset
    have hchecked := lastConfirmed_checkSCConfirmation cfg (x.confirmedBy cfg) x.header.number hash
      (fun r hr ↦ by simpa [hr] using hreset)
    rw [hlast] at hchecked
    obtain ⟨record, hrec, rfl⟩ := map_eq_some_iff.mp hchecked
    obtain ⟨confirmed, coinbases, hcalc, hadvanced, -⟩ :=
      (sideChain_updateSCConfirmation hu).2 record hrec
    refine ⟨_, hadvanced, record.le_advanced confirmed, fun b hb ↦ ?_⟩
    rw [HeaderStep.rewardedBlocks, if_pos hend, hrec] at hb
    simp only [SCRecord.rewardedBlocks, hcalc, mem_filter, Bool.and_eq_true, decide_eq_true_eq] at hb
    refine ⟨hb.2.1, ?_⟩
    rw [SCRecord.advanced, if_pos (UInt64.lt_of_lt_of_le hb.2.1 hb.2.2)]
    exact hb.2.2
  next hend =>
  cases hu
  refine ⟨last, hlast, UInt64.le_refl _, fun b hb ↦ ?_⟩
  rw [HeaderStep.rewardedBlocks, if_neg hend] at hb
  cases hb

theorem IsStep.rewardedBlocks_of_none
    (hlast : x.start.lastConfirmed hash = none) : x.rewardedBlocks rt cfg hash = [] := by
  rw [← hx.lastConfirmed_confirmedBy hash, lastConfirmed, map_eq_none_iff] at hlast
  unfold HeaderStep.rewardedBlocks checkSCConfirmation
  split_ifs
  · rw [ExtTreeMap.getElem?_map, hlast]
    rfl
  · rfl

theorem IsStep.lastConfirmed_after (hrm : x.removesSideChain rt cfg hash = false)
    (hlast : x.decided.lastConfirmed hash = some last) : x.after.lastConfirmed hash = some last := by
  have haft : x.after.scRecordMap = x.result.scRecordMap :=
    hx.after_kept scRecordMap (fun _ ↦ rfl) (fun _ ↦ rfl) (fun _ ↦ rfl)
  rw [lastConfirmed, haft]
  exact lastConfirmed_foldlM_settleProposal hx.result hrm hlast

theorem IsStep.rewarded_above
    (hrm : x.removesSideChain rt cfg hash = false) (hreset : x.resetsSideChain cfg hash = false)
    (hlast : x.start.lastConfirmed hash = some last) :
    ∃ last', x.after.lastConfirmed hash = some last' ∧ last ≤ last' ∧
      ∀ b ∈ x.rewardedBlocks rt cfg hash, last < b.1 ∧ b.1 ≤ last' := by
  obtain ⟨last', hdec, hle, hbls⟩ := hx.confirmed_above hreset hlast
  exact ⟨last', hx.lastConfirmed_after hrm hdec, hle, hbls⟩

end

theorem nodup_rewardedBlocks (rt : Runtime) (cfg : Config) (hash : Hash) (x : HeaderStep) :
    ((x.rewardedBlocks rt cfg hash).map (·.1)).Nodup := by
  unfold HeaderStep.rewardedBlocks SCRecord.rewardedBlocks
  split_ifs
  · split
    · exact nodup_nil
    split
    · exact nodup_nil
    next coinbases _ =>
    exact coinbases.nodup_keys_toList.sublist (filter_sublist.map _)
  · exact nodup_nil

theorem IsStep.scRewardMap_confirmedBy (hx : IsStep rt crypto cfg x) :
    (x.confirmedBy cfg).scRewardMap = x.start.scRewardMap := by
  have hbef : x.before.scRewardMap = x.start.scRewardMap :=
    hx.before_kept scRewardMap (fun _ ↦ rfl) (fun _ ↦ rfl) (fun _ _ _ ↦ rfl)
  have hstd : x.stored.scRewardMap = x.before.scRewardMap :=
    kept scRewardMap (updateSnapshotByProposals_frame x.before _ _) (fun _ ↦ rfl)
  have hdeclares : (x.stored.updateSnapshotByDeclares cfg x.extra.currentBlockDeclares
      x.header.number).scRewardMap = x.stored.scRewardMap :=
    kept scRewardMap (updateSnapshotByDeclares_frame cfg x.stored _ _) (fun _ ↦ rfl)
  have hrec := foldl_keeps recordSCConfirm scRewardMap (fun _ _ ↦ rfl) x.extra.sideChainConfirmations
    (x.confirming cfg)
  exact hrec.trans (hdeclares.trans (hstd.trans hbef))

/-- What a header does to the stored scores: it clears those that have expired, stores those of
the blocks that it rewards under its own number, and leaves all others. -/
theorem IsStep.scoresAt_after (hx : IsStep rt crypto cfg x) (k : UInt64) :
    x.after.scoresAt hash k =
      if isLoopEnd cfg x.header.number = true ∧ rewardExpired cfg x.header.number k = true then none
      else if k = x.number ∧ (x.scores rt cfg hash).isEmpty = false then some ⟨x.scores rt cfg hash⟩
      else x.start.scoresAt hash k := by
  obtain ⟨u, hu, hdec⟩ := hx.confirm
  have haft : x.after.scRewardMap = u.scRewardMap := by
    rw [hx.after_kept scRewardMap (fun _ ↦ rfl) (fun _ ↦ rfl) (fun _ ↦ rfl),
      kept scRewardMap (calculateProposalResult_frame hx.result) (fun _ ↦ rfl), hdec]
    exact kept scRewardMap (updateSnapshotByNoticeConfirm_frame cfg u _ _) (fun _ ↦ rfl)
  have hst : (x.confirmedBy cfg).scoresAt hash k = x.start.scoresAt hash k := by
    rw [scoresAt, hx.scRewardMap_confirmedBy, scoresAt]
  have hafter : x.after.scoresAt hash k = u.scoresAt hash k := by rw [scoresAt, haft, scoresAt]
  have hnil : x.rewardedBlocks rt cfg hash = [] → (x.scores rt cfg hash).isEmpty = true := by
    intro hbls
    rw [HeaderStep.scores, hbls]
    rfl
  rw [hafter, ← hst]
  unfold updateSnapshotBySCConfirm at hu
  split at hu
  swap
  · next hend =>
    cases hu
    simp [hend, hnil (if_neg hend), HeaderStep.confirmedBy]
  next hend =>
  simp only [hend, true_and]
  cases hrec : ((x.confirmedBy cfg).checkSCConfirmation cfg x.header.number).scRecordMap[hash]? with
  | none =>
    have hbls : x.rewardedBlocks rt cfg hash = [] := by
      rw [HeaderStep.rewardedBlocks, if_pos hend, hrec]
    rw [((sideChain_updateSCConfirmation hu).1 hrec).2 k, hnil hbls]
    simp only [Bool.true_eq_false, and_false, if_false]
    rfl
  | some record =>
    obtain ⟨-, -, -, -, hk⟩ := (sideChain_updateSCConfirmation hu).2 record hrec
    have hscores : x.scores rt cfg hash = record.scores rt (minConfirmedSignerCount cfg) := by
      rw [HeaderStep.scores, HeaderStep.rewardedBlocks, if_pos hend, hrec]
      rfl
    rw [hk, hscores]
    rfl

end Step

section Run

variable {rt : UInt64 → Runtime} {crypto : Crypto} {cfg : Config} {s t : Snapshot} {hash : Hash}
  {steps : List HeaderStep}

def rewardedNumbers (rt : UInt64 → Runtime) (cfg : Config) (hash : Hash) (steps : List HeaderStep) :
    List UInt64 :=
  steps.flatMap (fun x ↦ (x.rewardedBlocks (rt x.number) cfg hash).map (·.1))

/-- The invariant of a run: no block was rewarded twice, and none above the last
confirmed number. -/
theorem Steps.rewarded_below (h : Steps rt crypto cfg s steps t) (hkps : ∀ x ∈ steps,
      x.removesSideChain (rt x.number) cfg hash = false ∧ x.resetsSideChain cfg hash = false) :
    (rewardedNumbers rt cfg hash steps).Nodup ∧ ∀ n ∈ rewardedNumbers rt cfg hash steps,
      ∃ last, t.lastConfirmed hash = some last ∧ n ≤ last := by
  induction h with
  | nil => exact ⟨nodup_nil, fun _ h ↦ (by cases h)⟩
  | copy _ ih => exact ih hkps
  | advance _ _ _ ih => exact ih hkps
  | @header steps x _ _ hx ih =>
    obtain ⟨hnd, hbel⟩ := ih (fun y hy ↦ hkps y (mem_cons_of_mem x hy))
    obtain ⟨hrm, hreset⟩ := hkps x mem_cons_self
    have hcons : rewardedNumbers rt cfg hash (x :: steps) =
        (x.rewardedBlocks (rt x.number) cfg hash).map (·.1) ++ rewardedNumbers rt cfg hash steps :=
      flatMap_cons
    rw [hcons]
    cases hlast : x.start.lastConfirmed hash with
    | none =>
      rw [hx.rewardedBlocks_of_none hlast]
      refine ⟨hnd, fun n hn ↦ ?_⟩
      obtain ⟨last, hsome, -⟩ := hbel n hn
      rw [hlast] at hsome
      cases hsome
    | some last =>
      obtain ⟨last', haft, hle, hbls⟩ := hx.rewarded_above hrm hreset hlast
      have hold : ∀ n ∈ rewardedNumbers rt cfg hash steps, n ≤ last := fun n hn ↦ by
        obtain ⟨_, hsome, hn⟩ := hbel n hn
        rw [hlast] at hsome
        cases hsome
        exact hn
      have hnew : ∀ n ∈ (x.rewardedBlocks (rt x.number) cfg hash).map (·.1), last < n ∧ n ≤ last' := by
        intro n hn
        obtain ⟨b, hb, rfl⟩ := List.mem_map.mp hn
        exact hbls b hb
      refine ⟨nodup_append.mpr ⟨nodup_rewardedBlocks _ _ _ x, hnd, ?_⟩, fun n hn ↦ ?_⟩
      · rintro n hn _ hn' rfl
        exact absurd (UInt64.lt_of_lt_of_le (hnew n hn).1 (hold n hn')) (UInt64.lt_irrefl _)
      refine ⟨last', haft, ?_⟩
      rcases mem_append.mp hn with hn | hn
      · exact (hnew n hn).2
      · exact UInt64.le_trans (hold n hn) hle

theorem Steps.lastConfirmed_le {newer past : List HeaderStep} {x : HeaderStep} {last : UInt64}
    (h : Steps rt crypto cfg s steps t) (hkps : ∀ x ∈ steps,
      x.removesSideChain (rt x.number) cfg hash = false ∧ x.resetsSideChain cfg hash = false)
    (hspl : steps = newer ++ x :: past) (hlast : x.start.lastConfirmed hash = some last) :
    ∃ last', t.lastConfirmed hash = some last' ∧ last ≤ last' := by
  induction h generalizing newer with
  | nil => simp at hspl
  | copy _ ih => exact ih hkps hspl
  | advance _ _ _ ih => exact ih hkps hspl
  | @header steps y _ _ hy ih =>
    obtain ⟨hrm, hreset⟩ := hkps y mem_cons_self
    cases newer with
    | nil =>
      obtain ⟨rfl, rfl⟩ := hspl
      obtain ⟨last', haft, hle, -⟩ := hy.rewarded_above hrm hreset hlast
      exact ⟨last', haft, hle⟩
    | cons z newer =>
      rw [cons_append, List.cons.injEq] at hspl
      obtain ⟨last', hst, hle⟩ := ih (fun w hw ↦ hkps w (mem_cons_of_mem y hw)) hspl.2
      obtain ⟨last'', haft, hle', -⟩ := hy.rewarded_above hrm hreset hst
      exact ⟨last'', haft, UInt64.le_trans hle hle'⟩

/-- Every stored entry is what the header of that number has stored. -/
theorem Steps.scoresAt_eq (h : Steps rt crypto cfg s steps t) (hs : s.scRewardMap = ∅) {k : UInt64}
    {e : SCBlockReward} (he : t.scoresAt hash k = some e) :
    ∃ x ∈ steps, x.number = k ∧ e = ⟨x.scores (rt x.number) cfg hash⟩ := by
  induction h with
  | nil =>
    rw [scoresAt, hs] at he
    cases he
  | copy _ ih => exact ih he
  | advance _ _ _ ih => exact ih he
  | @header steps x _ _ hx ih =>
    rw [hx.scoresAt_after k] at he
    split_ifs at he with _ hnew
    · cases he
      exact ⟨x, mem_cons_self, hnew.1.symm, rfl⟩
    · obtain ⟨y, hy, h⟩ := ih he
      exact ⟨y, mem_cons_of_mem x hy, h⟩

/-- A header of a run stores the scores of the side chain blocks that it rewards, and nothing
else is ever stored. If no proposal removes the side chain and the guard on the length of its
record does not reset it, the last confirmed number does not fall and no block of the chain is
rewarded by two headers. -/
theorem side_chain_rewarded_once (rt : UInt64 → Runtime) (crypto : Crypto) (cfg : Config) (now : UInt64)
    (genesis : Hash) (votes : List Vote) (lcrs : UInt64) (batches : List (List Header)) (s : Snapshot)
    (hrun : (newSnapshot cfg now genesis votes lcrs).applyAll rt crypto cfg batches = .ok s)
    (hash : Hash) :
    ∃ steps, (newSnapshot cfg now genesis votes lcrs).trace rt crypto cfg batches = .ok steps ∧
      steps.map (·.header) = batches.flatten ∧
      (∀ x ∈ steps, ∀ k, x.after.scoresAt hash k =
        if isLoopEnd cfg x.header.number = true ∧ rewardExpired cfg x.header.number k = true then none
        else if k = x.number ∧ (x.scores (rt x.number) cfg hash).isEmpty = false then
          some ⟨x.scores (rt x.number) cfg hash⟩
        else x.start.scoresAt hash k) ∧
      (∀ k e, s.scoresAt hash k = some e →
        ∃ x ∈ steps, x.number = k ∧ e = ⟨x.scores (rt x.number) cfg hash⟩) ∧
      ((∀ x ∈ steps, x.removesSideChain (rt x.number) cfg hash = false ∧
          x.resetsSideChain cfg hash = false) →
        (∀ past x newer last, steps = past ++ x :: newer → x.start.lastConfirmed hash = some last →
          ∃ last', s.lastConfirmed hash = some last' ∧ last ≤ last') ∧
        (rewardedNumbers rt cfg hash steps).Nodup) := by
  obtain ⟨steps, htrace, hmap, hsts⟩ :=
    Steps.trace .nil (number_newSnapshot cfg now genesis votes lcrs) hrun
  rw [append_nil] at hsts
  refine ⟨steps, htrace, hmap, fun x hx k ↦ ?_, fun k e he ↦ ?_, fun hkps ↦ ?_⟩
  · obtain ⟨newer, past, hspl⟩ := append_of_mem (mem_reverse.mpr hx)
    exact (hsts.split hspl).2.2.scoresAt_after k
  · have hnil : (newSnapshot cfg now genesis votes lcrs).scRewardMap = ∅ :=
      foldl_keeps addGenesisVote scRewardMap (fun _ _ ↦ rfl) votes _
    obtain ⟨x, hx, h⟩ := hsts.scoresAt_eq hnil he
    exact ⟨x, mem_reverse.mp hx, h⟩
  replace hkps : ∀ x ∈ steps.reverse, x.removesSideChain (rt x.number) cfg hash = false ∧
      x.resetsSideChain cfg hash = false := fun x hx ↦ hkps x (mem_reverse.mp hx)
  refine ⟨fun past x newer last hspl hlast ↦ ?_, ?_⟩
  · have hspl' : steps.reverse = newer.reverse ++ x :: past.reverse := by
      rw [hspl, reverse_append, reverse_cons, List.append_assoc]
      rfl
    exact hsts.lastConfirmed_le hkps hspl' hlast
  have hperm : (rewardedNumbers rt cfg hash steps.reverse).Perm (rewardedNumbers rt cfg hash steps) :=
    steps.reverse_perm.flatMap_right _
  exact hperm.nodup_iff.mp (hsts.rewarded_below hkps).1

end Run

def pairConfig : Config := { Config.small with maxSignerCount := 2, maxSignerCount_ne := by decide }

def confirmFirstBlock : SCConfirmation := ⟨9, 7, 1, [[49], [48, 120, 98]]⟩

def sideChainHeaders : List Header :=
  let p := { Proposal.plain 5 1 with
    validationLoopCnt := 4, proposalType := proposalTypeSideChainAdd, scHash := 9,
    scBlockCountPerPeriod := 1, scBlockRewardPerPeriod := 10 }
  [.ofExtra 1 { HeaderExtra.zero with currentBlockProposals := [p] },
    .ofExtra 2 { HeaderExtra.zero with currentBlockDeclares := [⟨5, 1, true⟩] }] ++
  [3, 4, 5, 6, 7, 8, 9, 10].map (fun n ↦ .ofExtra n .zero) ++
  [.ofExtra 11 { HeaderExtra.zero with
    sideChainSetCoinbases := [⟨9, 1, 7⟩], sideChainConfirmations := [confirmFirstBlock] }]

def pairStart : Snapshot := newSnapshot pairConfig 0 0 [⟨1, 1, 5⟩] 10

def pairRun (batches : List (List Header)) : Go Snapshot :=
  pairStart.applyAll (fun _ ↦ .inOrder) .byNumber pairConfig batches

theorem side_chain_rewarded_once_first_block :
    ∃ s steps, pairRun [sideChainHeaders] = .ok s ∧
      pairStart.trace (fun _ ↦ .inOrder) .byNumber pairConfig [sideChainHeaders] = .ok steps ∧
      rewardedNumbers (fun _ ↦ .inOrder) pairConfig 9 steps = [1] ∧
      (rewardedNumbers (fun _ ↦ .inOrder) pairConfig 9 steps).Nodup ∧
      ∃ e, s.scoresAt 9 11 = some e ∧ e.rewardScoreMap.toList = [(11, 100)] ∧
        ∃ x ∈ steps, x.number = 11 ∧ e = ⟨x.scores .inOrder pairConfig 9⟩ := by
  obtain ⟨s, hs, e, he, hscores⟩ : ∃ s,
      pairRun [sideChainHeaders] = .ok s ∧
      ∃ e, s.scoresAt 9 11 = some e ∧ e.rewardScoreMap.toList = [(11, 100)] := by decide +kernel
  obtain ⟨steps, htrace, hkps, hnumbers⟩ : ∃ steps,
      pairStart.trace (fun _ ↦ .inOrder) .byNumber pairConfig [sideChainHeaders] = .ok steps ∧
      (∀ x ∈ steps, x.removesSideChain .inOrder pairConfig 9 = false ∧
        x.resetsSideChain pairConfig 9 = false) ∧
      rewardedNumbers (fun _ ↦ .inOrder) pairConfig 9 steps = [1] := by decide +kernel
  obtain ⟨steps', htrace', -, -, hstored, hres⟩ :=
    side_chain_rewarded_once (fun _ ↦ .inOrder) .byNumber pairConfig 0 0 [⟨1, 1, 5⟩] 10 _ s hs 9
  cases htrace.symm.trans htrace'
  exact ⟨s, steps, hs, htrace, hnumbers, (hres hkps).2, e, he, hscores, hstored 11 e he⟩

theorem length_encode_unconfirmed (number : UInt64) :
    (scConfirmationCodec.encode ⟨9, 7, number, []⟩).length ≤ 100 := by
  have hnum : (natBytes number.toNat).length ≤ 8 := by
    rw [length_natBytes, byteLen_le_iff]
    exact number.toNat_lt
  have huint : (uint.encode number).length ≤ 17 :=
    (length_frame_le .string (hnum.trans_lt (by norm_num))).trans (by omega)
  have hfld : (hashCodec.encode 9 ++ (addressCodec.encode 7 ++ (uint.encode number ++
      (listOf text).encode []))).length ≤ 72 := by
    have hrest : (hashCodec.encode 9).length = 33 ∧ (addressCodec.encode 7).length = 21 ∧
        ((listOf text).encode []).length = 1 := by decide +kernel
    simp only [length_append]
    omega
  have hframe := length_frame_le .list (hfld.trans_lt (by norm_num))
  exact hframe.trans (by omega)

def confirmationsExtra (confirmations : List SCConfirmation) : HeaderExtra :=
  { HeaderExtra.zero with sideChainConfirmations := confirmations }

theorem decodeExtra_confirmations (n : ℤ) {l : List SCConfirmation}
    (hencodable : headerExtraCodec.encodable (confirmationsExtra l) = true)
    (hlen : ∀ c ∈ l, (scConfirmationCodec.encode c).length ≤ 100) (hcnt : l.length ≤ 2 ^ 32) :
    decodeExtra (.ofExtra n (confirmationsExtra l)) = .ok (confirmationsExtra l) := by
  refine decodeExtra_ofExtra hencodable ?_
  have hlist : (l.flatMap scConfirmationCodec.encode).length ≤ 2 ^ 32 * 100 := by
    rw [length_flatMap]
    have hsum := sum_le_card_nsmul (l.map (fun c ↦ (scConfirmationCodec.encode c).length)) 100
      (List.forall_mem_map.mpr hlen)
    rw [length_map, smul_eq_mul] at hsum
    omega
  have hframe := length_frame_le .list (hlist.trans_lt (by norm_num))
  let before : Bytes := (listOf confirmationCodec).encode [] ++ ((listOf voteCodec).encode [] ++
    ((listOf proposalCodec).encode [] ++ ((listOf declareCodec).encode [] ++
      ((listOf voteCodec).encode [] ++ (uint.encode 0 ++ ((listOf addressCodec).encode [] ++
        ((listOf addressCodec).encode [] ++ uint.encode 0)))))))
  let after : Bytes := (listOf scSetCoinbaseCodec).encode [] ++
    ((listOf scConfirmationCodec).encode [] ++ (listOf gasChargingCodec).encode [])
  have hfld : (before ++ (frame .list (l.flatMap scConfirmationCodec.encode) ++ after)).length ≤
      2 ^ 32 * 100 + 30 := by
    have hrest : before.length = 9 ∧ after.length = 3 := by decide +kernel
    simp only [length_append]
    omega
  have hall := length_frame_le .list (hfld.trans_lt (by norm_num))
  exact hall.trans_lt (by omega)

def unconfirmed : List SCConfirmation :=
  (List.range 1051).map (fun i ↦ ⟨9, 7, .ofNat (i + 2), []⟩)

@[irreducible] def floodHeader : Header := .ofExtra 12 (confirmationsExtra unconfirmed)

theorem decodeExtra_floodHeader : decodeExtra floodHeader = .ok (confirmationsExtra unconfirmed) := by
  rw [floodHeader]
  refine decodeExtra_confirmations 12 (by decide +kernel) (fun c hc ↦ ?_) ?_
  · obtain ⟨i, -, rfl⟩ := List.mem_map.mp hc
    exact length_encode_unconfirmed _
  · rw [unconfirmed, length_map, length_range]
    norm_num

theorem ecrecover_ofExtra {n : ℤ} (hn : 0 ≤ n) (val : HeaderExtra) :
    byNumber.ecrecover (.ofExtra n val) = .ok 0 := by
  have hlen : ¬ (Header.ofExtra n val).extra.length < extraSeal := by
    simp only [Header.ofExtra, length_append, length_replicate]
    omega
  have hsig : byNumber.sigHash (.ofExtra n val) = .ok (.ofInt 256 n) := by
    rw [sigHash, if_neg hlen, if_neg]
    · rfl
    · simpa [Header.ofExtra] using hn
  rw [ecrecover, if_neg hlen, hsig]
  rfl

theorem ecrecover_floodHeader :
    byNumber.ecrecover floodHeader = .ok floodHeader.coinbase := by
  rw [floodHeader, ecrecover_ofExtra (by norm_num)]
  rfl

def rewardScore (s : Snapshot) (hash : Hash) (number : UInt64) (coinbase : Address) : UInt64 :=
  ((s.scRewardMap.getD hash ⟨∅⟩).scBlockRewardMap.getD number ⟨∅⟩).rewardScoreMap.getD coinbase 0

set_option maxRecDepth 40000 in
/-- Header 12 brings confirmations of 1051 further numbers, so that the guard resets the
record in header 13. Block 1 is rewarded in header 11 and again in header 15. -/
theorem side_chain_rewarded_twice :
    let last := [.ofExtra 14 .zero, .ofExtra 15 (confirmationsExtra [confirmFirstBlock])]
    (∀ header ∈ sideChainHeaders ++ floodHeader :: .ofExtra 13 .zero :: last,
      ∀ p ∈ (extraOf header).currentBlockProposals, p.proposalType ≠ proposalTypeSideChainRemove) ∧
    ∃ s1 s2 s,
      pairRun [sideChainHeaders ++ [floodHeader]] =
        .ok s1 ∧
      pairRun [sideChainHeaders ++ [floodHeader], [.ofExtra 13 .zero]] = .ok s2 ∧
      pairRun [sideChainHeaders ++ [floodHeader], [.ofExtra 13 .zero], last] = .ok s ∧
      s1.lastConfirmed 9 = some 1 ∧ s2.lastConfirmed 9 = some 0 ∧
      s.rewardScore 9 11 11 = 100 ∧ s.rewardScore 9 15 11 = 100 := by
  intro last
  refine ⟨?_, ?_⟩
  · have hoth : ∀ header ∈ sideChainHeaders ++ .ofExtra 13 .zero :: last,
        ∀ p ∈ (extraOf header).currentBlockProposals, p.proposalType ≠ proposalTypeSideChainRemove := by
      decide +kernel
    intro header hmem
    rw [mem_append, mem_cons] at hmem
    rcases hmem with hmem | rfl | hmem
    · exact hoth header (mem_append_left _ hmem)
    · rw [extraOf_eq decodeExtra_floodHeader]
      exact fun _ h ↦ (by cases h)
    · exact hoth header (mem_append_right _ hmem)
  have hrun : (do
      let s ← pairStart.copy.applyHeaders (fun _ ↦ .inOrder) .byNumber pairConfig sideChainHeaders
      let s ← (subUpdates .inOrder .byNumber pairConfig floodHeader
        (confirmationsExtra unconfirmed)).foldlM (fun s update ↦ update s) s
      let s1 := s.advance (sideChainHeaders ++ [floodHeader]).length (Crypto.byNumber.rlpHash floodHeader)
      s1.verifyTallyCnt
      let s2 ← s1.apply (fun _ ↦ .inOrder) .byNumber pairConfig [.ofExtra 13 .zero]
      let s ← s2.apply (fun _ ↦ .inOrder) .byNumber pairConfig last
      return (s1.lastConfirmed 9, s2.lastConfirmed 9, s.rewardScore 9 11 11, s.rewardScore 9 15 11) :
        Go (Option UInt64 × Option UInt64 × UInt64 × UInt64)) = .ok (some 1, some 0, 100, 100) := by
    decide +kernel
  obtain ⟨s0, hs0, hrun⟩ := bind_eq_ok.mp hrun
  obtain ⟨mid, hmid, hrun⟩ := bind_eq_ok.mp hrun
  obtain ⟨_, hcnt, hrun⟩ := bind_eq_ok.mp hrun
  obtain ⟨s2, hs2, hrun⟩ := bind_eq_ok.mp hrun
  obtain ⟨s, hs, hrun⟩ := bind_eq_ok.mp hrun
  simp only [Except.ok.injEq, Prod.mk.injEq, pure, Except.pure] at hrun
  obtain ⟨hlast1, hlast2, hscore, hscore'⟩ := hrun
  have hs1 : pairStart.apply (fun _ ↦ .inOrder) .byNumber pairConfig (sideChainHeaders ++ [floodHeader]) =
      .ok (mid.advance (sideChainHeaders ++ [floodHeader]).length (Crypto.byNumber.rlpHash floodHeader)) :=
    apply_concat ecrecover_floodHeader decodeExtra_floodHeader (by decide +kernel) hs0 hmid hcnt
  refine ⟨_, s2, s, applyAll_cons hs1 rfl, ?_, ?_, hlast1, hlast2, hscore, hscore'⟩
  · exact applyAll_cons hs1 (applyAll_cons hs2 rfl)
  · exact applyAll_cons hs1 (applyAll_cons hs2 (applyAll_cons hs rfl))

end Snapshot

end BjutEth.Alien
