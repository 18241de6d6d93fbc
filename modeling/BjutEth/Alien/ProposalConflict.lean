import BjutEth.Alien.ProposalOrder

namespace BjutEth.Alien.Snapshot

open Std Outcome Ensures
open List (filter_append_perm foldlM_append mem_cons_of_mem mem_cons_self mem_filter mem_of_mem_erase mem_of_mem_filter)
open ExtTreeMap hiding modify
open Bool hiding decide_eq_true decide_true

variable {cfg : Config} {n : ℤ} {s t u v : Snapshot} {order : List (Hash × Proposal)}
  {e : Hash × Proposal}

def settleAll (cfg : Config) (s : Snapshot) (n : ℤ) (order : List (Hash × Proposal)) : Go Snapshot :=
  order.foldlM (settleProposal cfg n) (s.expireRefund cfg n)

theorem calculateProposalResult_eq_settleAll (rt : Runtime) (cfg : Config) (s : Snapshot) (n : ℤ) :
    ∃ order, order.Perm (s.dueEntries cfg n) ∧
      s.calculateProposalResult rt cfg n = settleAll cfg s n order := by
  refine ⟨_, (rt.rangeOrder_perm s.proposals.toList).filter _, ?_⟩
  exact foldlM_settleProposal_filter _ _

theorem exists_runtime (hord : order.Perm (s.dueEntries cfg n)) :
    ∃ rt, s.calculateProposalResult rt cfg n = settleAll cfg s n order := by
  let due : Hash × Proposal → Bool := fun e ↦ e.2.dueNumber cfg = bigUint64 n
  have hall : (order ++ s.proposals.toList.filter (fun e ↦ !due e)).Perm s.proposals.toList :=
    (hord.append_right _).trans (filter_append_perm due _)
  obtain ⟨positions, hpos⟩ := exists_pick (GoMap.nodup_toList _) hall
  refine ⟨.visiting positions, ?_⟩
  change (pick positions s.proposals.toList).foldlM _ _ = _
  rw [hpos, foldlM_settleProposal_filter, List.filter_append, List.filter_filter]
  have hdue : order.filter due = order :=
    List.filter_eq_self.mpr (fun e he ↦ decide_eq_true (due_of_mem (hord.mem_iff.mp he)))
  have hnot : s.proposals.toList.filter (fun e ↦ due e && !due e) = [] := by
    simp
  rw [hdue, hnot, List.append_nil]
  rfl

theorem settleProposal_eq_ok (he : e.2.dueNumber cfg = bigUint64 n)
    (h : u.settleProposal cfg n e = .ok v) :
    divByZero u.isApproved e.2 u.scRecordMap = false ∧ v = settled n u e := by
  rw [settleProposal_of_due he] at h
  split_ifs at h with hzero
  · cases h
  cases h
  exact ⟨eq_false_iff.mpr hzero, rfl⟩

theorem foldlM_settleProposal_cases (hord : ∀ e ∈ order, e ∈ s.dueEntries cfg n) (u : Snapshot) :
    order.foldlM (settleProposal cfg n) u = .error .panic ∨
      ∃ v, order.foldlM (settleProposal cfg n) u = .ok v := by
  induction order generalizing u with
  | nil => exact .inr ⟨u, rfl⟩
  | cons e order ih =>
    rw [List.foldlM_cons, settleProposal_of_due (due_of_mem (hord e mem_cons_self))]
    split_ifs
    · exact .inl rfl
    · exact ih (fun x hx ↦ hord x (mem_cons_of_mem e hx)) _

theorem settleProposal_safe {P : Snapshot → Prop} (he : e.2.dueNumber cfg = bigUint64 n)
    (hzero : divByZero u.isApproved e.2 u.scRecordMap = false) (hp : P (settled n u e)) :
    Safe (u.settleProposal cfg n e) P := by
  rw [settleProposal_of_due he, hzero]
  exact hp

def Judges (s u : Snapshot) : Prop := u.isApproved = s.isApproved

theorem judges_foldlM (hu : s.Judges u) (h : order.foldlM (settleProposal cfg n) u = .ok v) :
    s.Judges v := by
  have htal : v.tally = u.tally :=
    foldlM_keeps (settleProposal cfg n) tally
      (fun _ _ _ h ↦ kept tally (settleProposal_frame h) (fun _ ↦ rfl)) order h
  have happ : v.isApproved = u.isApproved := by
    funext p
    unfold isApproved judgementStake yesDeclareStake
    rw [htal]
  exact happ.trans hu

variable {key : Hash} {approved : Proposal → Bool} {p : Proposal}

theorem mem_scRecordMap_settled :
    key ∈ (settled n u e).scRecordMap ↔
    if e.2.scHash = key then enacts u.isApproved e.2 proposalTypeSideChainAdd = true ∨
      key ∈ u.scRecordMap ∧ enacts u.isApproved e.2 proposalTypeSideChainRemove = false
    else key ∈ u.scRecordMap :=
  mem_alter_recordStep

theorem mem_scRecordMap_foldlM (hu : s.Judges u) (hkey : key ∈ u.scRecordMap)
    (hord : ∀ e ∈ order, e ∈ s.dueEntries cfg n)
    (hrem : ∀ e ∈ order, e.2.scHash = key → enacts s.isApproved e.2 proposalTypeSideChainRemove = false)
    (h : order.foldlM (settleProposal cfg n) u = .ok v) : key ∈ v.scRecordMap := by
  have hinv := foldlM (P := fun v ↦ s.Judges v ∧ key ∈ v.scRecordMap) order ⟨hu, hkey⟩
    (fun w hw e he w' hw' ↦ ?_) v h
  · exact hinv.2
  obtain ⟨-, rfl⟩ := settleProposal_eq_ok (due_of_mem (hord e he)) hw'
  refine ⟨hw.1, mem_scRecordMap_settled.mpr ?_⟩
  rw [hw.1]
  split_ifs with hsc
  · exact .inr ⟨hw.2, hrem e he hsc⟩
  · exact hw.2

theorem PanicsAnyway.settleAll (h : PanicsAnyway cfg s n) (hord : order.Perm (s.dueEntries cfg n)) :
    settleAll cfg s n order = .error .panic := by
  obtain ⟨p, hp, hzero, hmem, hrem⟩ := h
  obtain ⟨e, he, rfl, hrent⟩ := enacted_iff.mp hp
  obtain ⟨front, back, rfl⟩ := List.append_of_mem (hord.mem_iff.mpr he)
  have hdue : ∀ x ∈ front, x ∈ s.dueEntries cfg n :=
    fun x hx ↦ hord.mem_iff.mp (List.mem_append_left _ hx)
  unfold Snapshot.settleAll
  rw [foldlM_append]
  obtain hpan | ⟨u, hu⟩ := foldlM_settleProposal_cases hdue (s.expireRefund cfg n)
  · rw [hpan]
    rfl
  have hjudges : s.Judges u := judges_foldlM (u := s.expireRefund cfg n) rfl hu
  have hkey : e.2.scHash ∈ u.scRecordMap := by
    refine mem_scRecordMap_foldlM (u := s.expireRefund cfg n) rfl hmem hdue (fun x hx hsc ↦ ?_) hu
    rw [eq_false_iff]
    exact fun hx' ↦ hrem x.2 (enacted_iff.mpr ⟨x, hdue x hx, rfl, hx'⟩) hsc
  have hdiv : divByZero u.isApproved e.2 u.scRecordMap = true := by
    rw [divByZero, hjudges, rents_iff.mpr ⟨hrent, hkey⟩, hzero]
    rfl
  rw [hu]
  change (e :: back).foldlM (settleProposal cfg n) u = _
  rw [List.foldlM_cons, settleProposal_of_due (due_of_mem he), hdiv]
  rfl

theorem Compatible.settleAll (hcomp : Compatible cfg s n) (hpan : ¬ PanicsAnyway cfg s n)
    (hord : order.Perm (s.dueEntries cfg n)) :
    settleAll cfg s n order =
      .ok ((s.dueEntries cfg n).foldl (performed n s) (s.expireRefund cfg n)) := by
  have hinv : OrderInv cfg n s (s.expireRefund cfg n) :=
    ⟨rfl, fun _ _ h ↦ h, fun _ _ h h' ↦ absurd h h',
      fun p q hp hq hqp hmem ↦ (hcomp.remove_rent q p hq hp hqp hmem).2.2⟩
  unfold Snapshot.settleAll
  rw [hinv.foldlM hcomp hpan (fun e he ↦ hord.mem_iff.mp he),
    hcomp.foldl_performed_perm (t := s.expireRefund cfg n) hord hord rfl]

section SafeOrder

variable (hpan : ¬ PanicsAnyway cfg s n)

theorem divByZero_eq_false_of_ne {records : GoMap Hash SCRecord} {type : UInt64}
    (h : enacts approved p type = true) (htype : type ≠ proposalTypeRentSideChain) :
    divByZero approved p records = false := by
  rw [eq_false_iff]
  intro hzero
  rw [divByZero, and_eq_true] at hzero
  exact htype (enacts_unique h (rents_iff.mp hzero.1).1)

theorem removals_safe (hu : s.Judges u) (hord : ∀ e ∈ order, e ∈ s.dueEntries cfg n)
    (hrem : ∀ e ∈ order, enacts s.isApproved e.2 proposalTypeSideChainRemove = true) :
    Safe (order.foldlM (settleProposal cfg n) u) (fun v ↦ s.Judges v ∧
      ∀ key ∈ v.scRecordMap, key ∈ u.scRecordMap ∧ ∀ e ∈ order, e.2.scHash ≠ key) := by
  induction order generalizing u with
  | nil => exact ⟨hu, fun key hkey ↦ ⟨hkey, by simp⟩⟩
  | cons e order ih =>
    have he := hrem e mem_cons_self
    refine Safe.bind (P := fun v ↦ v = settled n u e) (settleProposal_safe
      (due_of_mem (hord e mem_cons_self))
      (divByZero_eq_false_of_ne (hu ▸ he) (by decide)) rfl) ?_
    rintro v rfl
    refine (ih (u := settled n u e) hu (fun x hx ↦ hord x (mem_cons_of_mem e hx))
      (fun x hx ↦ hrem x (mem_cons_of_mem e hx))).mono (fun w hw ↦ ⟨hw.1, fun key hkey ↦ ?_⟩)
    obtain ⟨hmem, hrest⟩ := hw.2 key hkey
    have hadd : enacts s.isApproved e.2 proposalTypeSideChainAdd ≠ true :=
      fun h ↦ absurd (enacts_unique h he) (by decide)
    rw [mem_scRecordMap_settled, hu, he] at hmem
    split_ifs at hmem with hsc
    · obtain h | ⟨-, h⟩ := hmem
      · exact absurd h hadd
      · cases h
    · exact ⟨hmem, List.forall_mem_cons.mpr ⟨hsc, hrest⟩⟩

include hpan in
theorem rents_safe (hu : s.Judges u)
    (hkeys : ∀ key ∈ u.scRecordMap, key ∈ s.scRecordMap ∧
      ∀ q, Enacted cfg s n proposalTypeSideChainRemove q → q.scHash ≠ key)
    (hord : ∀ e ∈ order, e ∈ s.dueEntries cfg n)
    (hadd : ∀ e ∈ order, enacts s.isApproved e.2 proposalTypeSideChainAdd = false) :
    Safe (order.foldlM (settleProposal cfg n) u) (fun v ↦ s.Judges v) := by
  refine Safe.mono (P := fun v ↦ s.Judges v ∧ ∀ key ∈ v.scRecordMap, key ∈ s.scRecordMap ∧
    ∀ q, Enacted cfg s n proposalTypeSideChainRemove q → q.scHash ≠ key)
    (Safe.foldlM order ⟨hu, hkeys⟩ (fun v hv e he ↦ ?_)) (fun _ h ↦ h.1)
  refine settleProposal_safe (due_of_mem (hord e he)) ?_ ⟨hv.1, fun key hkey ↦ hv.2 key ?_⟩
  · rw [eq_false_iff]
    intro hzero
    rw [divByZero, and_eq_true, hv.1, rents_iff, beq_iff_eq] at hzero
    obtain ⟨⟨hrent, hmem⟩, hlen⟩ := hzero
    obtain ⟨hst, hrem⟩ := hv.2 _ hmem
    exact hpan ⟨e.2, enacted_iff.mpr ⟨e, hord e he, rfl, hrent⟩, hlen, hst, hrem⟩
  rw [mem_scRecordMap_settled, hv.1, hadd e he] at hkey
  split_ifs at hkey with hsc
  · obtain h | ⟨h, -⟩ := hkey
    · cases h
    · exact h
  · exact hkey

theorem additions_safe (hu : s.Judges u) (hord : ∀ e ∈ order, e ∈ s.dueEntries cfg n)
    (hadd : ∀ e ∈ order, enacts s.isApproved e.2 proposalTypeSideChainAdd = true) :
    Safe (order.foldlM (settleProposal cfg n) u) (fun v ↦ s.Judges v) := by
  refine Safe.foldlM order hu (fun v hv e he ↦ settleProposal_safe (due_of_mem (hord e he))
    (divByZero_eq_false_of_ne (hv ▸ hadd e he) (by decide)) hv)

include hpan in
theorem exists_settleAll_ok :
    ∃ order t, order.Perm (s.dueEntries cfg n) ∧ settleAll cfg s n order = .ok t := by
  let isRemove : Hash × Proposal → Bool := fun e ↦ enacts s.isApproved e.2 proposalTypeSideChainRemove
  let isAdd : Hash × Proposal → Bool := fun e ↦ enacts s.isApproved e.2 proposalTypeSideChainAdd
  let others := (s.dueEntries cfg n).filter (fun e ↦ !isRemove e)
  let order := (s.dueEntries cfg n).filter isRemove ++
    (others.filter (fun e ↦ !isAdd e) ++ others.filter isAdd)
  have hord : order.Perm (s.dueEntries cfg n) :=
    ((List.perm_append_comm.trans (filter_append_perm isAdd others)).append_left _).trans
      (filter_append_perm isRemove _)
  have hsafe : Safe (settleAll cfg s n order) (fun _ ↦ True) := by
    unfold settleAll
    rw [foldlM_append]
    refine Safe.bind (removals_safe (u := s.expireRefund cfg n) rfl
      (fun e he ↦ mem_of_mem_filter he) (fun e he ↦ (mem_filter.mp he).2)) (fun u hu ↦ ?_)
    rw [foldlM_append]
    refine Safe.bind (rents_safe hpan hu.1 (fun key hkey ↦ ?_)
      (fun e he ↦ mem_of_mem_filter (mem_of_mem_filter he)) (fun e he ↦ ?_))
      (fun v hv ↦ (additions_safe hv
        (fun e he ↦ mem_of_mem_filter (mem_of_mem_filter he))
        (fun e he ↦ (mem_filter.mp he).2)).mono (fun _ _ ↦ trivial))
    · obtain ⟨hmem, hrem⟩ := hu.2 key hkey
      refine ⟨hmem, fun q hq ↦ ?_⟩
      obtain ⟨e, he, rfl, hena⟩ := enacted_iff.mp hq
      exact hrem e (mem_filter.mpr ⟨he, hena⟩)
    · simpa using (mem_filter.mp he).2
  obtain hbad | ⟨t, ht⟩ := foldlM_settleProposal_cases (fun e he ↦ hord.mem_iff.mp he)
    (s.expireRefund cfg n)
  · unfold settleAll at hsafe
    rw [hbad] at hsafe
    exact hsafe.elim
  · exact ⟨order, t, hord, ht⟩

end SafeOrder

/-! If all orders give one snapshot, the proposals are compatible. Each interference is
seen in the orders that end, or that begin, with the proposals it is between. -/

section OneResult

variable (hres : ∀ order, order.Perm (s.dueEntries cfg n) → settleAll cfg s n order = .ok t)

include hres in
theorem exists_last (he : e ∈ s.dueEntries cfg n) :
    ∃ u, ((s.dueEntries cfg n).erase e).foldlM (settleProposal cfg n) (s.expireRefund cfg n) = .ok u ∧
      s.Judges u ∧ t = settled n u e := by
  have hperm : ((s.dueEntries cfg n).erase e ++ [e]).Perm (s.dueEntries cfg n) :=
    List.perm_append_comm.trans (List.perm_cons_erase he).symm
  have hrun := hres _ hperm
  unfold settleAll at hrun
  rw [foldlM_append] at hrun
  obtain ⟨u, hu, hrun⟩ := bind_eq_ok.mp hrun
  obtain ⟨v, hv, hrun⟩ := bind_eq_ok.mp hrun
  cases hrun
  exact ⟨u, hu, judges_foldlM (u := s.expireRefund cfg n) rfl hu,
    (settleProposal_eq_ok (due_of_mem he) hv).2⟩

variable {x y : Hash × Proposal}

include hres in
theorem exists_first (hx : x ∈ s.dueEntries cfg n)
    (hy : y ∈ s.dueEntries cfg n) (hxy : x ≠ y) :
    ∃ u v, (s.expireRefund cfg n).settleProposal cfg n x = .ok u ∧
      u.settleProposal cfg n y = .ok v ∧
      (((s.dueEntries cfg n).erase x).erase y).foldlM (settleProposal cfg n) v = .ok t := by
  have hy' : y ∈ (s.dueEntries cfg n).erase x := (List.mem_erase_of_ne (Ne.symm hxy)).mpr hy
  have hperm : (x :: y :: ((s.dueEntries cfg n).erase x).erase y).Perm (s.dueEntries cfg n) :=
    ((List.perm_cons_erase hy').symm.cons x).trans (List.perm_cons_erase hx).symm
  have hrun := hres _ hperm
  obtain ⟨u, hu, hrun⟩ := bind_eq_ok.mp hrun
  obtain ⟨v, hv, hrun⟩ := bind_eq_ok.mp hrun
  exact ⟨u, v, hu, hv, hrun⟩

include hres in
theorem minerReward_of_result (hp : Enacted cfg s n proposalTypeMinerRewardDistributionModify p) :
    t.minerReward = p.minerRewardPerThousand := by
  obtain ⟨e, he, rfl, hena⟩ := enacted_iff.mp hp
  obtain ⟨u, -, hu, rfl⟩ := exists_last hres he
  change rewardStep u.isApproved e.2 u.minerReward = _
  rw [rewardStep, hu, hena]
  rfl

include hres in
theorem minVB_of_result (hp : Enacted cfg s n proposalTypeMinVoterBalanceModify p) :
    t.minVB = p.minVoterBalance.toNat * ether := by
  obtain ⟨e, he, rfl, hena⟩ := enacted_iff.mp hp
  obtain ⟨u, -, hu, rfl⟩ := exists_last hres he
  change minVBStep u.isApproved e.2 u.minVB = _
  rw [minVBStep, hu, hena]
  rfl

theorem getElem?_scRecordMap_settled (n : ℤ) (u : Snapshot) (e : Hash × Proposal) (key : Hash) :
    (settled n u e).scRecordMap[key]? =
      if e.2.scHash = key then recordStep u.isApproved n e.2 u.scRecordMap[key]?
      else u.scRecordMap[key]? := by
  change (u.scRecordMap.alter _ _)[key]? = _
  rw [getElem?_alter]
  simp only [Std.compare_eq_iff_eq]
  split_ifs with hsc
  · rw [hsc]
  · rfl

include hres in
theorem record_of_add (hp : Enacted cfg s n proposalTypeSideChainAdd p) :
    ∃ record, t.scRecordMap[p.scHash]? = some record ∧
      record.countPerPeriod = p.scBlockCountPerPeriod ∧
      record.rewardPerPeriod = p.scBlockRewardPerPeriod := by
  obtain ⟨e, he, rfl, hena⟩ := enacted_iff.mp hp
  obtain ⟨u, -, hu, rfl⟩ := exists_last hres he
  refine ⟨added e.2 u.scRecordMap[e.2.scHash]?, ?_, ?_⟩
  · rw [getElem?_scRecordMap_settled, if_pos rfl, recordStep, hu, hena]
    rfl
  · cases u.scRecordMap[e.2.scHash]? <;> exact ⟨rfl, rfl⟩

include hres in
theorem record_of_remove (hp : Enacted cfg s n proposalTypeSideChainRemove p) :
    t.scRecordMap[p.scHash]? = none := by
  obtain ⟨e, he, rfl, hena⟩ := enacted_iff.mp hp
  obtain ⟨u, -, hu, rfl⟩ := exists_last hres he
  have hadd : enacts s.isApproved e.2 proposalTypeSideChainAdd = false := by
    rw [eq_false_iff]
    exact fun h ↦ absurd (enacts_unique h hena) (by decide)
  rw [getElem?_scRecordMap_settled, if_pos rfl, recordStep, hu, hena, hadd]
  rfl

theorem recordStep_of_rent (h : enacts approved p proposalTypeRentSideChain = true)
    (record : Option SCRecord) : recordStep approved n p record = record.map (withRent n p) := by
  have hadd : enacts approved p proposalTypeSideChainAdd = false := by
    rw [eq_false_iff]
    exact fun h' ↦ absurd (enacts_unique h' h) (by decide)
  have hrem : enacts approved p proposalTypeSideChainRemove = false := by
    rw [eq_false_iff]
    exact fun h' ↦ absurd (enacts_unique h' h) (by decide)
  simp [recordStep, h, hadd, hrem]

include hres in
theorem rent_of_result (hp : Enacted cfg s n proposalTypeRentSideChain p) (hmem : p.scHash ∈ s.scRecordMap)
    (hrem : ∀ r, Enacted cfg s n proposalTypeSideChainRemove r → r.scHash ≠ p.scHash) :
    (∃ record, t.scRecordMap[p.scHash]? = some record ∧
      record.rentReward[p.hash]? = some (p.rentInfo n)) ∧ Charged t.scNoticeMap p := by
  obtain ⟨e, he, rfl, hena⟩ := enacted_iff.mp hp
  obtain ⟨u, hrun, hu, rfl⟩ := exists_last hres he
  have hkey : e.2.scHash ∈ u.scRecordMap := by
    refine mem_scRecordMap_foldlM (u := s.expireRefund cfg n) rfl hmem
      (fun x hx ↦ mem_of_mem_erase hx) (fun x hx hsc ↦ eq_false_iff.mpr (fun h ↦ ?_)) hrun
    exact hrem x.2 (enacted_iff.mpr ⟨x, mem_of_mem_erase hx, rfl, h⟩) hsc
  obtain ⟨record, hrec⟩ := Option.isSome_iff_exists.mp
    (mem_iff_isSome_getElem?.mp hkey)
  constructor
  · refine ⟨withRent n e.2 record, ?_, ?_⟩
    · rw [getElem?_scRecordMap_settled, if_pos rfl, hu, recordStep_of_rent hena, hrec]
      rfl
    · simp [withRent]
  · change Charged (if rents u.isApproved e.2 u.scRecordMap then _ else _) e.2
    rw [hu, rents_iff.mpr ⟨hena, hkey⟩, if_pos rfl, charged_addCharge_iff, if_pos ⟨rfl, rfl⟩]

theorem getElem?_addCharge_of_ne (h : p.scHash ≠ key) (notices : GoMap Hash CCNotice) :
    (addCharge p notices)[key]? = notices[key]? := by
  simp [addCharge, getElem?_insert, h]

theorem notice_of_absent (hv : s.Judges v) (hkey : key ∉ v.scRecordMap)
    (hord : ∀ e ∈ order, e ∈ s.dueEntries cfg n)
    (hadd : ∀ e ∈ order, e.2.scHash = key → enacts s.isApproved e.2 proposalTypeSideChainAdd = false)
    (h : order.foldlM (settleProposal cfg n) v = .ok t) : t.scNoticeMap[key]? = v.scNoticeMap[key]? := by
  refine (foldlM (P := fun w ↦ s.Judges w ∧ key ∉ w.scRecordMap ∧
    w.scNoticeMap[key]? = v.scNoticeMap[key]?) order ⟨hv, hkey, rfl⟩
    (fun w hinv e he w' hw' ↦ ?_) t h).2.2
  obtain ⟨hw, hwkey, hntc⟩ := hinv
  obtain ⟨-, rfl⟩ := settleProposal_eq_ok (due_of_mem (hord e he)) hw'
  refine ⟨hw, fun hmem ↦ ?_, ?_⟩
  · rw [mem_scRecordMap_settled, hw] at hmem
    split_ifs at hmem with hsc
    · rw [hadd e he hsc] at hmem
      obtain h | ⟨h, -⟩ := hmem
      · cases h
      · exact hwkey h
    · exact hwkey hmem
  rw [← hntc]
  change (if rents w.isApproved e.2 w.scRecordMap then _ else _)[key]? = _
  split_ifs with hrts
  · refine getElem?_addCharge_of_ne (fun hsc ↦ hwkey ?_) _
    rw [← hsc]
    exact (rents_iff.mp hrts).2
  · rfl

def refundOf (n : ℤ) (s : Snapshot) (a : Address) : ℤ :=
  (s.proposalRefund.getD (bigUint64 n) ∅).getD a 0

theorem refundOf_settled (n : ℤ) (u : Snapshot) (e : Hash × Proposal) (a : Address) :
    refundOf n (settled n u e) a = refundOf n u a +
      if e.2.proposer = a then owed u.isApproved e.2 u.scRecordMap else 0 := by
  unfold refundOf
  change (getD (refundTo u.proposalRefund (bigUint64 n) e.2.proposer _) _ _).getD a 0 = _
  unfold refundTo
  rw [getD_insert_self, GoMap.getD_insert]
  split_ifs with ha
  · rw [ha]
  · rw [add_zero]

theorem refundOf_foldlM {u' v' : Snapshot} (hjudge : v.isApproved = u.isApproved)
    (hrecords : v.scRecordMap = u.scRecordMap) (hord : ∀ e ∈ order, e ∈ s.dueEntries cfg n)
    (hu : order.foldlM (settleProposal cfg n) u = .ok u')
    (hv : order.foldlM (settleProposal cfg n) v = .ok v') (a : Address) :
    refundOf n v' a - refundOf n u' a = refundOf n v a - refundOf n u a := by
  induction order generalizing u v with
  | nil =>
    cases hu
    cases hv
    rfl
  | cons e order ih =>
    obtain ⟨u1, hu1, hu⟩ := bind_eq_ok.mp hu
    obtain ⟨v1, hv1, hv⟩ := bind_eq_ok.mp hv
    have hdue := due_of_mem (hord e mem_cons_self)
    obtain ⟨-, rfl⟩ := settleProposal_eq_ok hdue hu1
    obtain ⟨-, rfl⟩ := settleProposal_eq_ok hdue hv1
    have hnext : (settled n v e).scRecordMap = (settled n u e).scRecordMap := by
      change v.scRecordMap.alter _ _ = u.scRecordMap.alter _ _
      rw [hrecords, hjudge]
    rw [ih (u := settled n u e) (v := settled n v e) hjudge hnext
      (fun x hx ↦ hord x (mem_cons_of_mem e hx)) hu hv, refundOf_settled, refundOf_settled,
      hjudge, hrecords]
    ring

theorem rents_eq_false_of_remove (h : enacts approved p proposalTypeSideChainRemove = true)
    (records : GoMap Hash SCRecord) : rents approved p records = false := by
  rw [eq_false_iff, ne_eq, rents_iff]
  exact fun h' ↦ absurd (enacts_unique h h'.1) (by decide)

theorem settled_remove_rent
    (hx : enacts u.isApproved x.2 proposalTypeSideChainRemove = true)
    (hy : enacts u.isApproved y.2 proposalTypeRentSideChain = true) (hsc : x.2.scHash = y.2.scHash)
    (hmem : y.2.scHash ∈ u.scRecordMap) :
    let rentFirst := settled n (settled n u y) x
    let removeFirst := settled n (settled n u x) y
    (∀ key : Hash, removeFirst.scRecordMap[key]? = rentFirst.scRecordMap[key]?) ∧
      y.2.scHash ∉ rentFirst.scRecordMap ∧
      rentFirst.scNoticeMap = addCharge y.2 u.scNoticeMap ∧ removeFirst.scNoticeMap = u.scNoticeMap ∧
      refundOf n removeFirst y.2.proposer - refundOf n rentFirst y.2.proposer = y.2.rentFee := by
  have hxadd : enacts u.isApproved x.2 proposalTypeSideChainAdd = false := by
    rw [eq_false_iff]
    exact fun h ↦ absurd (enacts_unique h hx) (by decide)
  have hxstep : ∀ record, recordStep u.isApproved n x.2 record = none := by
    intro record
    simp [recordStep, hx, hxadd]
  have hystep := recordStep_of_rent (n := n) hy
  have hremoved : y.2.scHash ∉ (settled n u x).scRecordMap := by
    rw [mem_iff_isSome_getElem?, getElem?_scRecordMap_settled, if_pos hsc, hxstep]
    exact Bool.false_ne_true
  have hrts : rents u.isApproved y.2 u.scRecordMap = true := rents_iff.mpr ⟨hy, hmem⟩
  have hnot : rents u.isApproved y.2 (settled n u x).scRecordMap = false := by
    rw [eq_false_iff, ne_eq, rents_iff]
    exact fun h ↦ hremoved h.2
  have hxrents := rents_eq_false_of_remove hx
  have hytype : y.2.proposalType = proposalTypeRentSideChain := by
    simp only [enacts, and_eq_true, beq_iff_eq] at hy
    exact hy.2
  refine ⟨fun key ↦ ?_, ?_, ?_, ?_, ?_⟩
  · rw [getElem?_scRecordMap_settled, getElem?_scRecordMap_settled, getElem?_scRecordMap_settled,
      getElem?_scRecordMap_settled, hsc]
    change (if _ then recordStep u.isApproved n y.2 (if _ then recordStep u.isApproved n x.2 _ else _)
      else _) = if _ then recordStep u.isApproved n x.2 _ else _
    split_ifs
    · rw [hxstep, hxstep, hystep]
      rfl
    · rfl
  · rw [mem_iff_isSome_getElem?, getElem?_scRecordMap_settled, if_pos hsc]
    change ¬ (recordStep u.isApproved n x.2 _).isSome = true
    rw [hxstep]
    exact Bool.false_ne_true
  · change (if rents u.isApproved x.2 _ then _ else
      if rents u.isApproved y.2 u.scRecordMap then _ else _) = _
    rw [hxrents, hrts]
    rfl
  · change (if rents u.isApproved y.2 (settled n u x).scRecordMap then _ else
      if rents u.isApproved x.2 u.scRecordMap then _ else _) = _
    rw [hxrents, hnot]
    rfl
  rw [refundOf_settled, refundOf_settled, refundOf_settled, refundOf_settled]
  change refundOf n u _ + (if _ then owed u.isApproved x.2 u.scRecordMap else 0) +
    (if _ then owed u.isApproved y.2 (settled n u x).scRecordMap else 0) -
    (refundOf n u _ + (if _ then owed u.isApproved y.2 u.scRecordMap else 0) +
      (if _ then owed u.isApproved x.2 (settled n u y).scRecordMap else 0)) = _
  simp only [owed, hxrents, hrts, hnot, hytype, if_true, decide_true, Bool.not_true, Bool.not_false,
    Bool.and_true, Bool.and_false, false_eq_true, if_false]
  ring

include hres in
/-- A rent before and after the removal of its side chain: the charge has to be there
already, and the rent to be nothing. -/
theorem remove_rent_of_result {q : Proposal} (hp : Enacted cfg s n proposalTypeSideChainRemove p)
    (hq : Enacted cfg s n proposalTypeRentSideChain q) (hsc : p.scHash = q.scHash)
    (hmem : q.scHash ∈ s.scRecordMap) : q.scRentFee = 0 ∧ q.scRentLength ≠ 0 ∧ Charged s.scNoticeMap q := by
  have hadd : ∀ a, Enacted cfg s n proposalTypeSideChainAdd a → a.scHash ≠ q.scHash := by
    intro a ha haq
    obtain ⟨record, hrec, -⟩ := record_of_add hres ha
    rw [haq, ← hsc, record_of_remove hres hp] at hrec
    cases hrec
  obtain ⟨x, hx, rfl, hxe⟩ := enacted_iff.mp hp
  obtain ⟨y, hy, rfl, hye⟩ := enacted_iff.mp hq
  have hxy : x ≠ y := by
    rintro rfl
    exact absurd (enacts_unique hxe hye) (by decide)
  obtain ⟨u1, u2, hu1, hu2, hu⟩ := exists_first hres hy hx (Ne.symm hxy)
  obtain ⟨v1, v2, hv1, hv2, hv⟩ := exists_first hres hx hy hxy
  obtain ⟨hzero, rfl⟩ := settleProposal_eq_ok (due_of_mem hy) hu1
  obtain ⟨-, rfl⟩ := settleProposal_eq_ok (due_of_mem hx) hu2
  obtain ⟨-, rfl⟩ := settleProposal_eq_ok (due_of_mem hx) hv1
  obtain ⟨-, rfl⟩ := settleProposal_eq_ok (due_of_mem hy) hv2
  rw [List.erase_comm] at hu
  have hrest : ∀ e ∈ ((s.dueEntries cfg n).erase x).erase y, e ∈ s.dueEntries cfg n :=
    fun e he ↦ mem_of_mem_erase (mem_of_mem_erase he)
  have hnoadd : ∀ e ∈ ((s.dueEntries cfg n).erase x).erase y, e.2.scHash = y.2.scHash →
      enacts s.isApproved e.2 proposalTypeSideChainAdd = false := by
    intro e he hkey
    rw [eq_false_iff]
    exact fun h ↦ hadd e.2 (enacted_iff.mpr ⟨e, hrest e he, rfl, h⟩) hkey
  obtain ⟨hrecords, habsent, hntc, hntc', hrefund⟩ :=
    settled_remove_rent (n := n) (u := s.expireRefund cfg n) hxe hye hsc hmem
  have hrecords := ext_getElem? hrecords
  -- nothing else is charged to the side chain, and the same refunds are added
  have hsame := notice_of_absent (s := s) (v := settled n (settled n (s.expireRefund cfg n) y) x) rfl habsent
    hrest hnoadd hu
  have hsame' := notice_of_absent (s := s) (v := settled n (settled n (s.expireRefund cfg n) x) y) rfl
    (by rw [hrecords]; exact habsent) hrest hnoadd hv
  rw [hntc'] at hsame'
  rw [hntc, hsame'] at hsame
  have hdiff := refundOf_foldlM (u := settled n (settled n (s.expireRefund cfg n) y) x)
    (v := settled n (settled n (s.expireRefund cfg n) x) y) rfl hrecords hrest hu hv y.2.proposer
  rw [hrefund, sub_self] at hdiff
  refine ⟨?_, ?_, ?_⟩
  · have hfee : (y.2.scRentFee.toNat : ℤ) * ether = 0 := hdiff.symm
    have hnat : y.2.scRentFee.toNat = 0 := by
      unfold ether at hfee
      omega
    exact UInt64.toNat_inj.mp hnat
  · intro hlen
    have hrts : rents (s.expireRefund cfg n).isApproved y.2 (s.expireRefund cfg n).scRecordMap =
        true := rents_iff.mpr ⟨hye, hmem⟩
    rw [divByZero, hrts, hlen] at hzero
    cases hzero
  have hchd : Charged (addCharge y.2 s.scNoticeMap) y.2 := by
    rw [charged_addCharge_iff, if_pos ⟨rfl, rfl⟩]
  obtain ⟨notice, hn, hc⟩ := hchd
  exact ⟨notice, hsame.trans hn, hc⟩

include hres in
theorem rent_after_add (hx : x ∈ s.dueEntries cfg n)
    (hy : y ∈ s.dueEntries cfg n) (hxe : enacts s.isApproved x.2 proposalTypeSideChainAdd = true)
    (hye : enacts s.isApproved y.2 proposalTypeRentSideChain = true)
    (hsc : x.2.scHash = y.2.scHash)
    (hrem : ∀ r, Enacted cfg s n proposalTypeSideChainRemove r → r.scHash ≠ y.2.scHash) :
    ∃ record, t.scRecordMap[y.2.scHash]? = some record ∧
      (record.rentReward[y.2.hash]?).isSome = true := by
  have hxy : x ≠ y := by
    rintro rfl
    exact absurd (enacts_unique hxe hye) (by decide)
  obtain ⟨u1, u2, hu1, hu2, hu⟩ := exists_first hres hx hy hxy
  obtain ⟨-, rfl⟩ := settleProposal_eq_ok (due_of_mem hx) hu1
  obtain ⟨-, rfl⟩ := settleProposal_eq_ok (due_of_mem hy) hu2
  have hst : ∃ record, (settled n (settled n (s.expireRefund cfg n) x) y).scRecordMap[y.2.scHash]? =
      some record ∧ (record.rentReward[y.2.hash]?).isSome = true := by
    refine ⟨withRent n y.2 (added x.2 s.scRecordMap[y.2.scHash]?), ?_, by simp [withRent]⟩
    rw [getElem?_scRecordMap_settled, if_pos rfl, getElem?_scRecordMap_settled, if_pos hsc]
    change recordStep s.isApproved n y.2 (recordStep s.isApproved n x.2 s.scRecordMap[y.2.scHash]?) = _
    rw [recordStep_of_rent hye, recordStep, hxe]
    rfl
  refine (foldlM (P := fun w ↦ s.Judges w ∧ ∃ record, w.scRecordMap[y.2.scHash]? =
    some record ∧ (record.rentReward[y.2.hash]?).isSome = true) _
    (s := settled n (settled n (s.expireRefund cfg n) x) y) ⟨rfl, hst⟩
    (fun w hinv e he w' hw' ↦ ?_) t hu).2
  obtain ⟨hw, record, hrec, hsome⟩ := hinv
  have hmem : e ∈ s.dueEntries cfg n := mem_of_mem_erase (mem_of_mem_erase he)
  obtain ⟨-, rfl⟩ := settleProposal_eq_ok (due_of_mem hmem) hw'
  refine ⟨hw, ?_⟩
  rw [getElem?_scRecordMap_settled, hw, hrec]
  split_ifs with hkey
  · have hno : enacts s.isApproved e.2 proposalTypeSideChainRemove = false := by
      rw [eq_false_iff]
      exact fun h ↦ hrem e.2 (enacted_iff.mpr ⟨e, hmem, rfl, h⟩) hkey
    simp only [recordStep, hno, false_eq_true, if_false]
    split_ifs
    · exact ⟨_, rfl, hsome⟩
    · refine ⟨_, rfl, ?_⟩
      simp only [withRent, getElem?_insert]
      split_ifs
      · rfl
      · exact hsome
    · exact ⟨record, rfl, hsome⟩
  · exact ⟨record, rfl, hsome⟩

include hres in
theorem no_rent_before_add (hmem : key ∉ s.scRecordMap) (record : SCRecord)
    (hrec : t.scRecordMap[key]? = some record) (hash : Hash) : record.rentReward[hash]? = none := by
  let adds : Hash × Proposal → Bool := fun e ↦
    e.2.scHash = key && enacts s.isApproved e.2 proposalTypeSideChainAdd
  have hperm : ((s.dueEntries cfg n).filter (fun e ↦ !adds e) ++
      (s.dueEntries cfg n).filter adds).Perm (s.dueEntries cfg n) :=
    List.perm_append_comm.trans (filter_append_perm adds _)
  have hrun := hres _ hperm
  unfold settleAll at hrun
  rw [foldlM_append] at hrun
  obtain ⟨u, hu, hrun⟩ := bind_eq_ok.mp hrun
  have hbef : s.Judges u ∧ key ∉ u.scRecordMap := by
    refine foldlM (P := fun w ↦ s.Judges w ∧ key ∉ w.scRecordMap) _
      (s := s.expireRefund cfg n) ⟨rfl, hmem⟩ (fun w hinv e he w' hw' ↦ ?_) u hu
    obtain ⟨hw, hkey⟩ := hinv
    obtain ⟨he, hadds⟩ := mem_filter.mp he
    obtain ⟨-, rfl⟩ := settleProposal_eq_ok (due_of_mem he) hw'
    refine ⟨hw, fun h ↦ ?_⟩
    rw [mem_scRecordMap_settled, hw] at h
    split_ifs at h with hsc
    · obtain h | ⟨h, -⟩ := h
      · simp [adds, hsc, h] at hadds
      · exact hkey h
    · exact hkey h
  refine (foldlM (P := fun w ↦ s.Judges w ∧ ∀ record, w.scRecordMap[key]? = some record →
    record.rentReward[hash]? = none) _ (s := u) ⟨hbef.1, fun record h ↦ ?_⟩
    (fun w hinv e he w' hw' ↦ ?_) t hrun).2 record hrec
  · exact absurd (mem_iff_isSome_getElem?.mpr (by rw [h]; rfl)) hbef.2
  obtain ⟨hw, hnone⟩ := hinv
  obtain ⟨he, hadds⟩ := mem_filter.mp he
  obtain ⟨-, rfl⟩ := settleProposal_eq_ok (due_of_mem he) hw'
  simp only [adds, and_eq_true, decide_eq_true_eq] at hadds
  refine ⟨hw, fun record h ↦ ?_⟩
  rw [getElem?_scRecordMap_settled, if_pos hadds.1, hw, recordStep, hadds.2] at h
  cases h
  cases hold : w.scRecordMap[key]? with
  | none => simp [added]
  | some record => exact hnone record hold

include hres in
theorem add_rent_of_result {q : Proposal} (hp : Enacted cfg s n proposalTypeSideChainAdd p)
    (hq : Enacted cfg s n proposalTypeRentSideChain q) (hsc : p.scHash = q.scHash) :
    q.scHash ∈ s.scRecordMap := by
  by_contra hmem
  have hrem : ∀ r, Enacted cfg s n proposalTypeSideChainRemove r → r.scHash ≠ q.scHash := by
    intro r hr hrq
    obtain ⟨record, hrec, -⟩ := record_of_add hres hp
    rw [hsc, ← hrq, record_of_remove hres hr] at hrec
    cases hrec
  obtain ⟨x, hx, rfl, hxe⟩ := enacted_iff.mp hp
  obtain ⟨y, hy, rfl, hye⟩ := enacted_iff.mp hq
  obtain ⟨record, hrec, hsome⟩ := rent_after_add hres hx hy hxe hye hsc hrem
  rw [no_rent_before_add hres hmem record hrec] at hsome
  cases hsome

include hres in
theorem compatible_of_result : Compatible cfg s n where
  reward p q hp hq := by
    rw [← minerReward_of_result hres hp, ← minerReward_of_result hres hq]
  minVB p q hp hq := by
    have h := (minVB_of_result hres hp).symm.trans (minVB_of_result hres hq)
    refine UInt64.toNat_inj.mp ?_
    unfold ether at h
    omega
  add_add p q hp hq hsc := by
    obtain ⟨record, hrec, hcnt, hrew⟩ := record_of_add hres hp
    obtain ⟨record', hrecord', hcount', hreward'⟩ := record_of_add hres hq
    rw [← hsc, hrec] at hrecord'
    cases hrecord'
    exact ⟨hcnt.symm.trans hcount', hrew.symm.trans hreward'⟩
  add_remove p q hp hq hsc := by
    obtain ⟨record, hrec, -⟩ := record_of_add hres hp
    rw [hsc, record_of_remove hres hq] at hrec
    cases hrec
  add_rent _ _ := add_rent_of_result hres
  remove_rent _ _ := remove_rent_of_result hres
  rent_rent p q hp hq hsc hhash hmem hrem := by
    obtain ⟨⟨record, hrec, hrent⟩, notice, hntc, hchg⟩ :=
      rent_of_result hres hp hmem hrem
    obtain ⟨⟨record', hrecord', hrent'⟩, notice', hntc', hchg'⟩ :=
      rent_of_result hres hq (hsc ▸ hmem) (hsc ▸ hrem)
    rw [← hsc, hrec] at hrecord'
    rw [← hsc, hntc] at hntc'
    cases hrecord'
    cases hntc'
    rw [← hhash, hrent] at hrent'
    rw [← hhash, hchg] at hchg'
    exact ⟨Option.some.inj hrent', Option.some.inj hchg'⟩

end OneResult

/-- The outcome of the proposals of a header is the same for every order of the map
exactly when no two approved ones interfere, or when some rent panics anyway. -/
theorem result_order_independent_iff (cfg : Config) (s : Snapshot) (n : ℤ) :
    (∀ rt rt', s.calculateProposalResult rt cfg n = s.calculateProposalResult rt' cfg n) ↔
      Compatible cfg s n ∨ PanicsAnyway cfg s n := by
  constructor
  · intro hall
    by_contra hno
    push Not at hno
    obtain ⟨hcomp, hpan⟩ := hno
    obtain ⟨order0, t, horder0, ht⟩ := exists_settleAll_ok hpan
    obtain ⟨rt0, hrt0⟩ := exists_runtime horder0
    refine hcomp (compatible_of_result (t := t) (fun order hord ↦ ?_))
    obtain ⟨rt, hrt⟩ := exists_runtime hord
    rw [← hrt, hall rt rt0, hrt0, ht]
  intro h rt rt'
  obtain ⟨order, hord, hrt⟩ := calculateProposalResult_eq_settleAll rt cfg s n
  obtain ⟨order', horder', hrt'⟩ := calculateProposalResult_eq_settleAll rt' cfg s n
  rw [hrt, hrt']
  by_cases hpan : PanicsAnyway cfg s n
  · rw [hpan.settleAll hord, hpan.settleAll horder']
  have hcomp := h.resolve_right hpan
  rw [hcomp.settleAll hpan hord, hcomp.settleAll hpan horder']

/-- Two proposals to change the miner reward, made three headers apart, fall due at
header 8. The later visited one decides. -/
theorem reward_depends_on_order :
    let modify (hash : Hash) (loops reward : UInt64) : Proposal :=
      { Proposal.plain hash 1 with
        validationLoopCnt := loops
        proposalType := proposalTypeMinerRewardDistributionModify
        minerRewardPerThousand := reward }
    let headers : List Header :=
      [.ofExtra 1 { HeaderExtra.zero with currentBlockProposals := [modify 1 2 100] },
        .ofExtra 2 .zero, .ofExtra 3 .zero,
        .ofExtra 4 { HeaderExtra.zero with currentBlockProposals := [modify 2 1 900] },
        .ofExtra 5 { HeaderExtra.zero with currentBlockDeclares := [⟨1, 1, true⟩, ⟨2, 1, true⟩] },
        .ofExtra 6 .zero, .ofExtra 7 .zero]
    ∃ s t t', smallStart.applyAll (fun _ ↦ .inOrder) .byNumber .small
        [headers] = .ok s ∧
      s.calculateProposalResult (.visiting [0, 1]) .small 8 = .ok t ∧ t.minerReward = 900 ∧
      s.calculateProposalResult (.visiting [1, 0]) .small 8 = .ok t' ∧ t'.minerReward = 100 := by
  intro modify headers
  obtain ⟨s, hs, ⟨t, ht⟩, t', ht'⟩ : ∃ s, smallStart.applyAll
      (fun _ ↦ .inOrder) .byNumber .small [headers] = .ok s ∧
      (∃ t, s.calculateProposalResult (.visiting [0, 1]) .small 8 = .ok t ∧ t.minerReward = 900) ∧
      ∃ t, s.calculateProposalResult (.visiting [1, 0]) .small 8 = .ok t ∧ t.minerReward = 100 := by
    decide +kernel
  exact ⟨s, t, t', hs, ht.1, ht.2, ht'⟩

end BjutEth.Alien.Snapshot
