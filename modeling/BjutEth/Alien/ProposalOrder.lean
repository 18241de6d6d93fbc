import BjutEth.Alien.Settlement
import BjutEth.Lib.FoldOrder

namespace BjutEth.Alien

open Std Outcome ExtTreeMap List Option
open ExtTreeMap (ext_getElem?)
open Bool hiding decide_eq_true
open GoMap (get_insert)

def Runtime.visiting (positions : List ℕ) : Runtime :=
  { Runtime.inOrder with
    rangeOrder := fun l ↦ pick positions l
    rangeOrder_perm := fun l ↦ pick_perm positions l }

namespace Snapshot

def Enacted (cfg : Config) (s : Snapshot) (n : ℤ) (type : UInt64) (p : Proposal) : Prop :=
  ∃ key : Hash, s.proposals[key]? = some p ∧ p.dueNumber cfg = bigUint64 n ∧
    enacts s.isApproved p type = true

def Charged (notices : GoMap Hash CCNotice) (p : Proposal) : Prop :=
  ∃ notice, notices[p.scHash]? = some notice ∧ notice.currentCharging[p.hash]? = some p.charging

/-- Some rent divides by zero in every order: its side chain exists and is not removed. -/
def PanicsAnyway (cfg : Config) (s : Snapshot) (n : ℤ) : Prop :=
  ∃ p, Enacted cfg s n proposalTypeRentSideChain p ∧ p.scRentLength = 0 ∧
    p.scHash ∈ s.scRecordMap ∧
    ∀ q, Enacted cfg s n proposalTypeSideChainRemove q → q.scHash ≠ p.scHash

/-- The approved proposals of a header do not interfere: no two of them set one
value differently, and no rent meets an addition or a removal of its side
chain that makes a difference to it. -/
structure Compatible (cfg : Config) (s : Snapshot) (n : ℤ) : Prop where
  reward : ∀ p q, Enacted cfg s n proposalTypeMinerRewardDistributionModify p →
    Enacted cfg s n proposalTypeMinerRewardDistributionModify q →
    p.minerRewardPerThousand = q.minerRewardPerThousand
  minVB : ∀ p q, Enacted cfg s n proposalTypeMinVoterBalanceModify p →
    Enacted cfg s n proposalTypeMinVoterBalanceModify q → p.minVoterBalance = q.minVoterBalance
  add_add : ∀ p q, Enacted cfg s n proposalTypeSideChainAdd p →
    Enacted cfg s n proposalTypeSideChainAdd q → p.scHash = q.scHash →
    p.scBlockCountPerPeriod = q.scBlockCountPerPeriod ∧
      p.scBlockRewardPerPeriod = q.scBlockRewardPerPeriod
  add_remove : ∀ p q, Enacted cfg s n proposalTypeSideChainAdd p →
    Enacted cfg s n proposalTypeSideChainRemove q → p.scHash ≠ q.scHash
  add_rent : ∀ p q, Enacted cfg s n proposalTypeSideChainAdd p →
    Enacted cfg s n proposalTypeRentSideChain q → p.scHash = q.scHash → q.scHash ∈ s.scRecordMap
  remove_rent : ∀ p q, Enacted cfg s n proposalTypeSideChainRemove p →
    Enacted cfg s n proposalTypeRentSideChain q → p.scHash = q.scHash → q.scHash ∈ s.scRecordMap →
    q.scRentFee = 0 ∧ q.scRentLength ≠ 0 ∧ Charged s.scNoticeMap q
  rent_rent : ∀ p q, Enacted cfg s n proposalTypeRentSideChain p →
    Enacted cfg s n proposalTypeRentSideChain q → p.scHash = q.scHash → p.hash = q.hash →
    p.scHash ∈ s.scRecordMap →
    (∀ r, Enacted cfg s n proposalTypeSideChainRemove r → r.scHash ≠ p.scHash) →
    p.rentInfo n = q.rentInfo n ∧ p.charging = q.charging

def dueEntries (cfg : Config) (s : Snapshot) (n : ℤ) : List (Hash × Proposal) :=
  s.proposals.toList.filter (fun e ↦ e.2.dueNumber cfg = bigUint64 n)

variable {cfg : Config} {n : ℤ} {s t u : Snapshot} {order : List (Hash × Proposal)}

variable {type : UInt64} {p q : Proposal} {e : Hash × Proposal} {notices : GoMap Hash CCNotice}
variable {records : GoMap Hash SCRecord}

theorem enacted_iff :
    Enacted cfg s n type p ↔
    ∃ e ∈ s.dueEntries cfg n, e.2 = p ∧ enacts s.isApproved p type = true := by
  constructor
  · rintro ⟨key, hkey, hdue, hena⟩
    refine ⟨(key, p), ?_, rfl, hena⟩
    rw [dueEntries, List.mem_filter]
    exact ⟨mem_toList_iff_getElem?_eq_some.mpr hkey, decide_eq_true hdue⟩
  rintro ⟨e, he, rfl, hena⟩
  rw [dueEntries, List.mem_filter] at he
  exact ⟨e.1, mem_toList_iff_getElem?_eq_some.mp he.1, of_decide_eq_true he.2, hena⟩

theorem due_of_mem (he : e ∈ s.dueEntries cfg n) : e.2.dueNumber cfg = bigUint64 n := by
  rw [dueEntries, List.mem_filter] at he
  exact of_decide_eq_true he.2

theorem foldlM_settleProposal_filter (order : List (Hash × Proposal)) (s : Snapshot) :
    order.foldlM (settleProposal cfg n) s =
      (order.filter (fun e ↦ e.2.dueNumber cfg = bigUint64 n)).foldlM (settleProposal cfg n) s := by
  induction order generalizing s with
  | nil => rfl
  | cons e order ih =>
    rw [foldlM_cons]
    by_cases hdue : e.2.dueNumber cfg = bigUint64 n
    · rw [filter_cons_of_pos (by simpa using hdue)]
      congr 1
      funext t
      exact ih t
    · rw [filter_cons_of_neg (by simpa using hdue), settleProposal_of_not_due hdue]
      exact ih s

def performed (n : ℤ) (start s : Snapshot) (e : Hash × Proposal) : Snapshot :=
  { s with
    minerReward := rewardStep start.isApproved e.2 s.minerReward
    minVB := minVBStep start.isApproved e.2 s.minVB
    scRecordMap := s.scRecordMap.alter e.2.scHash (recordStep start.isApproved n e.2)
    scNoticeMap :=
      if rents start.isApproved e.2 start.scRecordMap then addCharge e.2 s.scNoticeMap
      else s.scNoticeMap
    proposalRefund := refundTo s.proposalRefund (bigUint64 n) e.2.proposer
      (owed start.isApproved e.2 start.scRecordMap)
    proposals := s.proposals.erase e.1 }

/-- What the loop keeps when the proposals are compatible: the side chains of rents
are where they were, or they are removed and the rent makes no difference. -/
structure OrderInv (cfg : Config) (n : ℤ) (start s : Snapshot) : Prop where
  approved : s.isApproved = start.isApproved
  absent : ∀ p, Enacted cfg start n proposalTypeRentSideChain p → p.scHash ∉ start.scRecordMap →
    p.scHash ∉ s.scRecordMap
  present : ∀ p, Enacted cfg start n proposalTypeRentSideChain p → p.scHash ∈ start.scRecordMap →
    p.scHash ∉ s.scRecordMap → ∃ q, Enacted cfg start n proposalTypeSideChainRemove q ∧
      q.scHash = p.scHash
  charged : ∀ p q, Enacted cfg start n proposalTypeRentSideChain p →
    Enacted cfg start n proposalTypeSideChainRemove q → q.scHash = p.scHash →
    p.scHash ∈ start.scRecordMap → Charged s.scNoticeMap p

theorem addCharge_of_charged (h : Charged notices p) : addCharge p notices = notices := by
  obtain ⟨notice, hntc, hchg⟩ := h
  unfold addCharge
  rw [getD_eq_getD_getElem?, hntc, getD_some]
  dsimp only
  rw [GoMap.insert_eq_self hchg]
  exact GoMap.insert_eq_self hntc

theorem charged_addCharge_iff :
    Charged (addCharge q notices) p ↔
      if q.scHash = p.scHash ∧ q.hash = p.hash then q.charging = p.charging else Charged notices p := by
  unfold Charged addCharge
  simp only [get_insert]
  by_cases hsc : q.scHash = p.scHash
  · simp only [hsc, if_true, some.injEq, exists_eq_left', get_insert]
    by_cases hh : q.hash = p.hash
    · simp [hh]
    simp only [hh, getD_eq_getD_getElem?]
    cases notices[p.scHash]? with
    | none => simp
    | some notice => simp
  · simp [hsc]

theorem mem_alter_recordStep {approved : Proposal → Bool} {key : Hash} :
    key ∈ records.alter p.scHash (recordStep approved n p) ↔
      if p.scHash = key then enacts approved p proposalTypeSideChainAdd = true ∨
        key ∈ records ∧ enacts approved p proposalTypeSideChainRemove = false
      else key ∈ records := by
  rw [mem_alter]
  simp only [Std.compare_eq_iff_eq]
  split_ifs with hkey
  · subst hkey
    unfold recordStep
    split_ifs with hadd hrem hrent
    · simp [hadd]
    · simp [hadd, hrem]
    · simp [hadd, hrem]
    · simp [hadd, hrem]
  · rfl

theorem rents_iff {approved : Proposal → Bool} :
    rents approved p records = true ↔
      enacts approved p proposalTypeRentSideChain = true ∧ p.scHash ∈ records := by
  rw [rents, and_eq_true, mem_iff_contains]

section Compatible

variable {start : Snapshot} (hcomp : Compatible cfg start n) (hpan : ¬ PanicsAnyway cfg start n)

include hcomp in
theorem OrderInv.performed (hs : OrderInv cfg n start s) (he : e ∈ start.dueEntries cfg n) :
    OrderInv cfg n start (Snapshot.performed n start s e) where
  approved := hs.approved
  absent p hp hst hmem := by
    have hold := hs.absent p hp hst
    change p.scHash ∈ s.scRecordMap.alter _ _ at hmem
    rw [mem_alter_recordStep] at hmem
    split_ifs at hmem with hkey
    · obtain hadd | ⟨hmem, -⟩ := hmem
      · exact hst (hcomp.add_rent e.2 p (enacted_iff.mpr ⟨e, he, rfl, hadd⟩) hp hkey)
      · exact hold hmem
    · exact hold hmem
  present p hp hst hmem := by
    change p.scHash ∉ s.scRecordMap.alter _ _ at hmem
    rw [mem_alter_recordStep] at hmem
    split_ifs at hmem with hkey
    · by_cases hold : p.scHash ∈ s.scRecordMap
      · have hrem : enacts start.isApproved e.2 proposalTypeSideChainRemove = true := by
          by_contra hno
          exact hmem (.inr ⟨hold, eq_false_iff.mpr hno⟩)
        exact ⟨e.2, enacted_iff.mpr ⟨e, he, rfl, hrem⟩, hkey⟩
      · exact hs.present p hp hst hold
    · exact hs.present p hp hst hmem
  charged p q hp hq hqp hst := by
    have hold := hs.charged p q hp hq hqp hst
    change Charged (if rents start.isApproved e.2 start.scRecordMap then _ else _) p
    split_ifs with hrts
    · rw [charged_addCharge_iff]
      split_ifs with hsame
      · -- two charges under one key, both of them already there
        have heq : Enacted cfg start n proposalTypeRentSideChain e.2 :=
          enacted_iff.mpr ⟨e, he, rfl, (rents_iff.mp hrts).1⟩
        obtain ⟨-, -, notice, hntc, hchg⟩ :=
          hcomp.remove_rent q p hq hp hqp hst
        obtain ⟨-, -, notice', hntc', hchg'⟩ :=
          hcomp.remove_rent q e.2 hq heq (hqp.trans hsame.1.symm) (rents_iff.mp hrts).2
        rw [hsame.1, hntc] at hntc'
        cases hntc'
        rw [hsame.2, hchg] at hchg'
        exact (some.inj hchg').symm
      · exact hold
    · exact hold

include hcomp hpan in
theorem scRentLength_ne_zero (hp : Enacted cfg start n proposalTypeRentSideChain p)
    (hmem : p.scHash ∈ start.scRecordMap) : p.scRentLength ≠ 0 := by
  intro hzero
  refine hpan ⟨p, hp, hzero, hmem, fun q hq hqp ↦ ?_⟩
  exact (hcomp.remove_rent q p hq hp hqp hmem).2.1 hzero

include hcomp hpan in
/-- Under the invariant, each round does what it would do at the start. -/
theorem OrderInv.settleProposal (hs : OrderInv cfg n start s) (he : e ∈ start.dueEntries cfg n) :
    s.settleProposal cfg n e = .ok (Snapshot.performed n start s e) := by
  rw [settleProposal_of_due (due_of_mem he)]
  unfold settled
  rw [hs.approved]
  by_cases hrent : enacts start.isApproved e.2 proposalTypeRentSideChain = true
  · have heq : Enacted cfg start n proposalTypeRentSideChain e.2 := enacted_iff.mpr ⟨e, he, rfl, hrent⟩
    by_cases hst : e.2.scHash ∈ start.scRecordMap
    · have hlen := scRentLength_ne_zero hcomp hpan heq hst
      have hzero : divByZero start.isApproved e.2 s.scRecordMap = false := by
        simp [divByZero, hlen]
      have hrts0 : rents start.isApproved e.2 start.scRecordMap = true :=
        rents_iff.mpr ⟨hrent, hst⟩
      rw [hzero]
      by_cases hmem : e.2.scHash ∈ s.scRecordMap
      · have hrts : rents start.isApproved e.2 s.scRecordMap = true := rents_iff.mpr ⟨hrent, hmem⟩
        simp only [Snapshot.performed, owed, hrts, hrts0]
        rfl
      -- the side chain is removed: the charge is there and no rent is due
      obtain ⟨q, hq, hqe⟩ := hs.present e.2 heq hst hmem
      have hchd := hs.charged e.2 q heq hq hqe hst
      have hfee : e.2.rentFee = 0 := by
        simp [Proposal.rentFee, (hcomp.remove_rent q e.2 hq heq hqe hst).1]
      have hrts : rents start.isApproved e.2 s.scRecordMap = false := by
        rw [eq_false_iff, ne_eq, rents_iff]
        exact fun h ↦ hmem h.2
      simp only [Snapshot.performed, owed, hfee, addCharge_of_charged hchd]
      simp
    have hmem := hs.absent e.2 heq hst
    have hrts : ∀ records : GoMap Hash SCRecord, e.2.scHash ∉ records →
        rents start.isApproved e.2 records = false := by
      intro records hnot
      rw [eq_false_iff, ne_eq, rents_iff]
      exact fun h ↦ hnot h.2
    simp only [Snapshot.performed, owed, divByZero, hrts _ hmem, hrts _ hst]
    rfl
  have hrts : ∀ records : GoMap Hash SCRecord,
      rents start.isApproved e.2 records = false := by
    intro records
    rw [eq_false_iff, ne_eq, rents_iff]
    exact fun h ↦ hrent h.1
  simp only [Snapshot.performed, owed, divByZero, hrts]
  rfl

include hcomp hpan in
theorem OrderInv.foldlM (hs : OrderInv cfg n start s)
    (hord : ∀ e ∈ order, e ∈ start.dueEntries cfg n) :
    order.foldlM (Snapshot.settleProposal cfg n) s =
      .ok (order.foldl (Snapshot.performed n start) s) := by
  induction order generalizing s with
  | nil => rfl
  | cons e order ih =>
    have he := hord e mem_cons_self
    rw [foldlM_cons, hs.settleProposal hcomp hpan he]
    exact ih (hs.performed hcomp he) (fun e' he' ↦ hord e' (mem_cons_of_mem e he'))

end Compatible

theorem foldl_performed (n : ℤ) (start s : Snapshot) (order : List (Hash × Proposal)) :
    order.foldl (performed n start) s = { s with
      minerReward := order.foldl (fun b e ↦ rewardStep start.isApproved e.2 b) s.minerReward
      minVB := order.foldl (fun b e ↦ minVBStep start.isApproved e.2 b) s.minVB
      scRecordMap := order.foldl
        (fun b e ↦ b.alter e.2.scHash (recordStep start.isApproved n e.2)) s.scRecordMap
      scNoticeMap := order.foldl (fun b e ↦
        if rents start.isApproved e.2 start.scRecordMap then addCharge e.2 b else b) s.scNoticeMap
      proposalRefund := order.foldl (fun b e ↦ refundTo b (bigUint64 n) e.2.proposer
        (owed start.isApproved e.2 start.scRecordMap)) s.proposalRefund
      proposals := order.foldl (fun b e ↦ b.erase e.1) s.proposals } := by
  induction order generalizing s with
  | nil => rfl
  | cons e order ih =>
    rw [foldl_cons, ih]
    rfl

theorem refundTo_comm (refunds : GoMap UInt64 (GoMap Address ℤ)) (number : UInt64)
    (p q : Address) (a b : ℤ) :
    refundTo (refundTo refunds number p a) number q b =
      refundTo (refundTo refunds number q b) number p a := by
  unfold refundTo
  refine ext_getElem? (fun key ↦ ?_)
  simp only [get_insert, getD_insert_self]
  split_ifs
  · refine congrArg some (ext_getElem? (fun c ↦ ?_))
    simp only [get_insert, GoMap.getD_insert]
    by_cases hpq : p = q
    · subst hpq
      simp only [if_true]
      split_ifs
      · rw [add_right_comm]
      · rfl
    simp only [hpq, Ne.symm hpq, if_false]
    by_cases hp : p = c
    · have hq : q ≠ c := fun h ↦ hpq (hp.trans h.symm)
      simp [hq]
    · simp [hp]
  · rfl

theorem addCharge_comm (h : p.scHash = q.scHash → p.hash = q.hash → p.charging = q.charging)
    (notices : GoMap Hash CCNotice) :
    addCharge q (addCharge p notices) = addCharge p (addCharge q notices) := by
  unfold addCharge
  refine ext_getElem? (fun key ↦ ?_)
  simp only [get_insert, GoMap.getD_insert]
  by_cases hsc : p.scHash = q.scHash
  · have hchg := h hsc
    simp only [hsc, if_true]
    split_ifs
    · refine congrArg (fun c ↦ some (CCNotice.mk c _)) (ext_getElem? (fun k ↦ ?_))
      simp only [get_insert]
      by_cases hp : p.hash = k
      · by_cases hq : q.hash = k
        · simp [hp, hq, hchg (hp.trans hq.symm)]
        · simp [hp, hq]
      · simp [hp]
    · rfl
  simp only [hsc, Ne.symm hsc, if_false]
  by_cases hp : p.scHash = key
  · have hq : q.scHash ≠ key := fun hk ↦ hsc (hp.trans hk.symm)
    simp [hq]
  · simp [hp]

theorem getElem?_foldl_alter (approved : Proposal → Bool) (n : ℤ) (order : List (Hash × Proposal))
    (records : GoMap Hash SCRecord) (key : Hash) :
    (order.foldl (fun b e ↦ b.alter e.2.scHash (recordStep approved n e.2)) records)[key]? =
      order.foldl (fun b e ↦ if e.2.scHash = key then recordStep approved n e.2 b else b)
        records[key]? := by
  induction order generalizing records with
  | nil => rfl
  | cons e order ih =>
    rw [foldl_cons, foldl_cons, ih, getElem?_alter]
    simp only [Std.compare_eq_iff_eq]
    split_ifs with hkey
    · rw [hkey]
    · rfl

theorem enacts_unique {approved : Proposal → Bool} {type' : UInt64} (h : enacts approved p type = true)
    (h' : enacts approved p type' = true) : type = type' := by
  simp only [enacts, and_eq_true, beq_iff_eq] at h h'
  exact h.2.symm.trans h'.2

theorem withRent_comm (h : p.hash = q.hash → p.rentInfo n = q.rentInfo n) (record : SCRecord) :
    withRent n q (withRent n p record) = withRent n p (withRent n q record) := by
  unfold withRent
  refine congrArg (SCRecord.mk _ _ _ _ _) (ext_getElem? (fun key ↦ ?_))
  simp only [get_insert]
  by_cases hp : p.hash = key
  · by_cases hq : q.hash = key
    · simp [hp, hq, h (hp.trans hq.symm)]
    · simp [hq]
  · simp [hp]

section RecordPerm

variable {approved : Proposal → Bool} {key : Hash}

theorem foldl_recordStep_of_remove
    (hadd : ∀ e ∈ order, e.2.scHash = key → enacts approved e.2 proposalTypeSideChainAdd = false)
    (record : Option SCRecord)
    (hrem : record = none ∨
      ∃ e ∈ order, e.2.scHash = key ∧ enacts approved e.2 proposalTypeSideChainRemove = true) :
    order.foldl (fun b e ↦ if e.2.scHash = key then recordStep approved n e.2 b else b) record =
      none := by
  induction order generalizing record with
  | nil =>
    obtain h | ⟨e, he, -⟩ := hrem
    · exact h
    · cases he
  | cons e order ih =>
    rw [foldl_cons]
    refine ih (fun e' he' ↦ hadd e' (mem_cons_of_mem e he')) _ ?_
    have hno := hadd e mem_cons_self
    obtain rfl | ⟨e', he', hkey, hrem⟩ := hrem
    · left
      split_ifs with hkey
      · simp [recordStep, hno hkey]
      · rfl
    obtain rfl | he' := mem_cons.mp he'
    · left
      rw [if_pos hkey]
      simp [recordStep, hno hkey, hrem]
    · exact .inr ⟨e', he', hkey, hrem⟩

/-- Additions and rents of a side chain that is not removed commute, where they are
compatible. -/
theorem foldl_recordStep_perm {order' : List (Hash × Proposal)} (hperm : order.Perm order')
    (hrem : ∀ e ∈ order, e.2.scHash = key →
      enacts approved e.2 proposalTypeSideChainRemove = false)
    (record : Option SCRecord)
    (hadd : ∀ x ∈ order, ∀ y ∈ order, x.2.scHash = key → y.2.scHash = key →
      enacts approved x.2 proposalTypeSideChainAdd = true →
      enacts approved y.2 proposalTypeSideChainAdd = true →
      x.2.scBlockCountPerPeriod = y.2.scBlockCountPerPeriod ∧
        x.2.scBlockRewardPerPeriod = y.2.scBlockRewardPerPeriod)
    (haddrent : ∀ x ∈ order, ∀ y ∈ order, x.2.scHash = key → y.2.scHash = key →
      enacts approved x.2 proposalTypeSideChainAdd = true →
      enacts approved y.2 proposalTypeRentSideChain = true → record.isSome = true)
    (hrent : ∀ x ∈ order, ∀ y ∈ order, x.2.scHash = key → y.2.scHash = key →
      enacts approved x.2 proposalTypeRentSideChain = true →
      enacts approved y.2 proposalTypeRentSideChain = true → x.2.hash = y.2.hash →
      record.isSome = true → x.2.rentInfo n = y.2.rentInfo n) :
    order.foldl (fun b e ↦ if e.2.scHash = key then recordStep approved n e.2 b else b) record =
      order'.foldl (fun b e ↦ if e.2.scHash = key then recordStep approved n e.2 b else b) record := by
  refine foldl_perm_of_inv (P := fun b ↦ (record.isSome = true → b.isSome = true) ∧
    (record = none → (∃ y ∈ order, y.2.scHash = key ∧
      enacts approved y.2 proposalTypeRentSideChain = true) → b = none)) hperm
    (fun b hb x hx ↦ ?_) (fun b hb x hx y hy ↦ ?_) ⟨id, fun h _ ↦ h⟩
  · -- the record is there as long as it was, and an added one has no rents
    split_ifs with hkey
    · simp only [recordStep, hrem x hx hkey, false_eq_true, if_false]
      split_ifs with ha hr
      · refine ⟨fun _ ↦ rfl, ?_⟩
        rintro hnone ⟨y, hy, hykey, hyrent⟩
        have hsome := haddrent x hx y hy hkey hykey ha hyrent
        rw [hnone] at hsome
        cases hsome
      · exact ⟨fun h ↦ by simpa using hb.1 h, fun hnone h ↦ by rw [hb.2 hnone h]; rfl⟩
      · exact hb
    · exact hb
  by_cases hxkey : x.2.scHash = key
  swap
  · simp [hxkey]
  by_cases hykey : y.2.scHash = key
  swap
  · simp [hykey]
  simp only [recordStep, hrem x hx hxkey, hrem y hy hykey, false_eq_true, if_false]
  split_ifs with hya hxa hxr hyr hxa hxr hxa hxr
  · obtain ⟨hcnt, hrew⟩ := hadd x hx y hy hxkey hykey hxa hya
    have hsame : added x.2 = added y.2 := by
      funext o
      cases o <;> simp [added, hcnt, hrew]
    rw [hsame]
  · obtain ⟨r, rfl⟩ := isSome_iff_exists.mp
      (hb.1 (haddrent y hy x hx hykey hxkey hya hxr))
    rfl
  · rfl
  · obtain ⟨r, rfl⟩ := isSome_iff_exists.mp
      (hb.1 (haddrent x hx y hy hxkey hykey hxa hyr))
    rfl
  · cases b with
    | none => rfl
    | some r =>
      have hsome : record.isSome = true := by
        by_contra hnone
        have := hb.2 (by simpa using hnone) ⟨x, hx, hxkey, hxr⟩
        cases this
      refine congrArg some (withRent_comm (fun hhash ↦ ?_) r)
      exact hrent x hx y hy hxkey hykey hxr hyr hhash hsome
  all_goals rfl

end RecordPerm

theorem Compatible.charging_eq (hcomp : Compatible cfg s n)
    (hp : Enacted cfg s n proposalTypeRentSideChain p) (hq : Enacted cfg s n proposalTypeRentSideChain q)
    (hsc : p.scHash = q.scHash) (hhash : p.hash = q.hash) (hmem : p.scHash ∈ s.scRecordMap) :
    p.charging = q.charging := by
  by_cases hrem : ∃ r, Enacted cfg s n proposalTypeSideChainRemove r ∧ r.scHash = p.scHash
  · obtain ⟨r, hr, hrp⟩ := hrem
    obtain ⟨-, -, notice, hntc, hchg⟩ := hcomp.remove_rent r p hr hp hrp hmem
    obtain ⟨-, -, notice', hntc', hchg'⟩ :=
      hcomp.remove_rent r q hr hq (hrp.trans hsc) (hsc ▸ hmem)
    rw [← hsc, hntc] at hntc'
    cases hntc'
    rw [← hhash, hchg] at hchg'
    exact some.inj hchg'
  · refine (hcomp.rent_rent p q hp hq hsc hhash hmem (fun r hr hrp ↦ ?_)).2
    exact hrem ⟨r, hr, hrp⟩

section EveryOrder

variable (hcomp : Compatible cfg s n) {order' : List (Hash × Proposal)}
  (hperm : order.Perm order') (hord : order.Perm (s.dueEntries cfg n))

include hord in
theorem enacted_of_mem (he : e ∈ order) (h : enacts s.isApproved e.2 type = true) :
    Enacted cfg s n type e.2 :=
  enacted_iff.mpr ⟨e, hord.mem_iff.mp he, rfl, h⟩

include hcomp hperm hord in
theorem Compatible.foldl_rewardStep_perm (reward : UInt64) :
    order.foldl (fun b e ↦ rewardStep s.isApproved e.2 b) reward =
      order'.foldl (fun b e ↦ rewardStep s.isApproved e.2 b) reward := by
  refine foldl_perm_of_inv (P := fun _ ↦ True) hperm (fun _ _ _ _ ↦ trivial)
    (fun b _ x hx y hy ↦ ?_) trivial
  unfold rewardStep
  split_ifs with hye hxe
  · exact hcomp.reward y.2 x.2 (enacted_of_mem hord hy hye) (enacted_of_mem hord hx hxe)
  all_goals rfl

include hcomp hperm hord in
theorem Compatible.foldl_minVBStep_perm (minVB : ℤ) :
    order.foldl (fun b e ↦ minVBStep s.isApproved e.2 b) minVB =
      order'.foldl (fun b e ↦ minVBStep s.isApproved e.2 b) minVB := by
  refine foldl_perm_of_inv (P := fun _ ↦ True) hperm (fun _ _ _ _ ↦ trivial)
    (fun b _ x hx y hy ↦ ?_) trivial
  unfold minVBStep
  split_ifs with hye hxe
  · rw [hcomp.minVB y.2 x.2 (enacted_of_mem hord hy hye) (enacted_of_mem hord hx hxe)]
  all_goals rfl

include hcomp hperm hord in
theorem Compatible.foldl_alter_perm :
    order.foldl (fun b e ↦ b.alter e.2.scHash (recordStep s.isApproved n e.2)) s.scRecordMap =
      order'.foldl (fun b e ↦ b.alter e.2.scHash (recordStep s.isApproved n e.2)) s.scRecordMap := by
  refine ext_getElem? (fun key ↦ ?_)
  rw [getElem?_foldl_alter, getElem?_foldl_alter]
  by_cases hrem : ∃ e ∈ order, e.2.scHash = key ∧
      enacts s.isApproved e.2 proposalTypeSideChainRemove = true
  · obtain ⟨r, hr, hrkey, hrremove⟩ := hrem
    have hadd : ∀ e ∈ order, e.2.scHash = key →
        enacts s.isApproved e.2 proposalTypeSideChainAdd = false := by
      intro e he hkey
      rw [eq_false_iff]
      exact fun h ↦ hcomp.add_remove e.2 r.2 (enacted_of_mem hord he h)
        (enacted_of_mem hord hr hrremove) (hkey.trans hrkey.symm)
    rw [foldl_recordStep_of_remove hadd _ (.inr ⟨r, hr, hrkey, hrremove⟩),
      foldl_recordStep_of_remove (fun e he ↦ hadd e (hperm.mem_iff.mpr he)) _
        (.inr ⟨r, hperm.mem_iff.mp hr, hrkey, hrremove⟩)]
  have hno : ∀ e ∈ order, e.2.scHash = key →
      enacts s.isApproved e.2 proposalTypeSideChainRemove = false :=
    fun e he hkey ↦ eq_false_iff.mpr (fun h ↦ hrem ⟨e, he, hkey, h⟩)
  refine foldl_recordStep_perm hperm hno _ (fun x hx y hy hxk hyk hxa hya ↦ ?_)
    (fun x hx y hy hxk hyk hxa hyr ↦ ?_) (fun x hx y hy hxk hyk hxr hyr hhash hsome ↦ ?_)
  · exact hcomp.add_add x.2 y.2 (enacted_of_mem hord hx hxa) (enacted_of_mem hord hy hya)
      (hxk.trans hyk.symm)
  · have hmem := hcomp.add_rent x.2 y.2 (enacted_of_mem hord hx hxa)
      (enacted_of_mem hord hy hyr) (hxk.trans hyk.symm)
    rw [hyk] at hmem
    exact mem_iff_isSome_getElem?.mp hmem
  have hmem : x.2.scHash ∈ s.scRecordMap := by
    rw [hxk]
    exact mem_iff_isSome_getElem?.mpr hsome
  refine (hcomp.rent_rent x.2 y.2 (enacted_of_mem hord hx hxr)
    (enacted_of_mem hord hy hyr) (hxk.trans hyk.symm) hhash hmem (fun r hr hrx ↦ ?_)).1
  obtain ⟨e, he, rfl, hre⟩ := enacted_iff.mp hr
  exact hrem ⟨e, hord.mem_iff.mpr he, hrx.trans hxk, hre⟩

include hcomp hperm hord in
theorem Compatible.foldl_addCharge_perm (notices : GoMap Hash CCNotice) :
    order.foldl (fun b e ↦ if rents s.isApproved e.2 s.scRecordMap then addCharge e.2 b else b)
        notices =
      order'.foldl (fun b e ↦ if rents s.isApproved e.2 s.scRecordMap then addCharge e.2 b else b)
        notices := by
  refine foldl_perm_of_inv (P := fun _ ↦ True) hperm (fun _ _ _ _ ↦ trivial)
    (fun b _ x hx y hy ↦ ?_) trivial
  split_ifs with hyr hxr
  · obtain ⟨hxe, hxm⟩ := rents_iff.mp hxr
    exact addCharge_comm (fun hsc hhash ↦ hcomp.charging_eq (enacted_of_mem hord hx hxe)
      (enacted_of_mem hord hy (rents_iff.mp hyr).1) hsc hhash hxm) b
  all_goals rfl

include hcomp hperm hord in
theorem Compatible.foldl_performed_perm (ht : t.scRecordMap = s.scRecordMap) :
    order.foldl (performed n s) t = order'.foldl (performed n s) t := by
  have hrefunds := hperm.foldl_eq'
    (f := fun b e ↦ refundTo b (bigUint64 n) e.2.proposer (owed s.isApproved e.2 s.scRecordMap))
    (by intro x _ y _ b; apply refundTo_comm) t.proposalRefund
  have hproposals := hperm.foldl_eq' (f := fun (b : GoMap Hash Proposal) e ↦ b.erase e.1)
    (fun x _ y _ b ↦ GoMap.erase_comm b x.1 y.1) t.proposals
  rw [foldl_performed, foldl_performed, ht, hcomp.foldl_alter_perm hperm hord,
    hcomp.foldl_rewardStep_perm hperm hord, hcomp.foldl_minVBStep_perm hperm hord,
    hcomp.foldl_addCharge_perm hperm hord, hrefunds, hproposals]

end EveryOrder

end Snapshot

end BjutEth.Alien
