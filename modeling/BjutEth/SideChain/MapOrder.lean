import BjutEth.Alien.ElectionOrder
import BjutEth.Alien.ProposalOrder
import BjutEth.Lib.Overlay
import BjutEth.SideChain.Quorum

namespace BjutEth.Alien

open Outcome GoText List Std.ExtTreeMap Option
open Std (ExtTreeMap)

def listed (minConf : ℕ) (e : Bytes × GoMap Address Bool) (i : UInt64) : Option Address :=
  if e.2.size < minConf then none else (addCoinbases ∅ (split loopInfoSep e.1))[i]?

def coinbasesIn (minConf : ℕ) (infos : List (Bytes × GoMap Address Bool)) :
    GoMap UInt64 Address :=
  infos.foldl (fun coinbases e ↦
    if e.2.size < minConf then coinbases
    else addCoinbases coinbases (split loopInfoSep e.1)) ∅

theorem getElem?_addCoinbases (coinbases : GoMap UInt64 Address) (infos : List Bytes) (i : UInt64) :
    (addCoinbases coinbases infos)[i]? = ((addCoinbases ∅ infos)[i]?).or coinbases[i]? := by
  induction infos using List.twoStepInduction generalizing coinbases with
  | nil =>
    rw [addCoinbases, addCoinbases, getElem?_empty, none_or]
    · simp
    · simp
  | singleton f =>
    rw [addCoinbases, addCoinbases, getElem?_empty, none_or]
    · simp
    · simp
  | cons_cons f g infos ih _ =>
    rw [addCoinbases, addCoinbases]
    cases hn : bigUnmarshalText f with
    | none => exact ih coinbases
    | some n =>
      rw [ih, ih (ExtTreeMap.insert ∅ _ _), Option.or_assoc]
      congr 1
      rw [ExtTreeMap.getElem?_insert, ExtTreeMap.getElem?_insert]
      split_ifs <;> rfl

theorem getElem?_coinbasesIn (minConf : ℕ) (infos : List (Bytes × GoMap Address Bool))
    (i : UInt64) : (coinbasesIn minConf infos)[i]? = overlay (listed minConf) infos i := by
  induction infos using List.reverseRecOn with
  | nil => exact getElem?_empty
  | append_singleton infos e ih =>
    rw [overlay_concat, ← ih, coinbasesIn, foldl_append, listed]
    change (if _ then _ else _ : GoMap UInt64 Address)[i]? = _
    split_ifs
    · rfl
    · exact getElem?_addCoinbases _ _ i

variable {infos : List (Bytes × GoMap Address Bool)} {confirmed : UInt64} {coinbases : GoMap UInt64 Address}

theorem exists_rangeOrder (records : GoMap Bytes (GoMap Address Bool)) (h : infos.Perm records.toList) :
    ∃ rt : Runtime, rt.rangeOrder records.toList = infos := by
  obtain ⟨positions, hpos⟩ := exists_pick (GoMap.nodup_toList records) h
  exact ⟨.visiting positions, hpos⟩

/-! Where the step back to the last finished period ends. -/

theorem periodNumbers_descending (confirmed count : UInt64) :
    (periodNumbers confirmed count).Pairwise (fun a b ↦ b < a) := by
  unfold periodNumbers
  split_ifs with hle
  · rw [pairwise_map]
    refine pairwise_lt_range.imp_of_mem fun {a b} ha hb hab ↦ ?_
    rw [UInt64.lt_iff_toNat_lt, toNat_periodNumber hle (mem_range.mp ha),
      toNat_periodNumber hle (mem_range.mp hb)]
    have hb := mem_range.mp hb
    rw [UInt64.le_iff_toNat_le] at hle
    omega
  · exact .nil

theorem find?_descending {l : List UInt64} (hl : l.Pairwise (fun a b ↦ b < a))
    {q : UInt64 → Bool} {s : UInt64} :
    l.find? q = some s ↔ s ∈ l ∧ q s = true ∧ ∀ i ∈ l, s < i → q i = false := by
  induction l with
  | nil => exact ⟨by simp, fun h ↦ absurd h.1 not_mem_nil⟩
  | cons a l ih =>
    obtain ⟨hhead, htail⟩ := pairwise_cons.mp hl
    by_cases hq : q a = true
    · rw [find?_cons_of_pos hq]
      constructor
      · intro h
        cases h
        refine ⟨mem_cons_self, hq, fun i hi hlt ↦ ?_⟩
        rcases mem_cons.mp hi with rfl | hi
        · exact absurd hlt (UInt64.lt_irrefl _)
        · exact absurd (UInt64.lt_trans hlt (hhead i hi)) (UInt64.lt_irrefl _)
      rintro ⟨hs, -, hfst⟩
      rcases mem_cons.mp hs with rfl | hs
      · rfl
      rw [hfst a mem_cons_self (hhead s hs)] at hq
      cases hq
    rw [find?_cons_of_neg hq, ih htail]
    constructor
    · rintro ⟨hs, hqs, hfst⟩
      refine ⟨mem_cons_of_mem a hs, hqs, fun i hi hlt ↦ ?_⟩
      rcases mem_cons.mp hi with rfl | hi
      · exact Bool.eq_false_iff.mpr hq
      · exact hfst i hi hlt
    rintro ⟨hs, hqs, hfst⟩
    have hne : s ≠ a := fun h ↦ hq (h ▸ hqs)
    exact ⟨(mem_cons.mp hs).resolve_left hne, hqs, fun i hi ↦ hfst i (mem_cons_of_mem a hi)⟩

def periodStop (confirmed count : UInt64) (coinbases : UInt64 → Option Address) (last : Address) :
    UInt64 :=
  ((periodNumbers confirmed count).find? (fun i ↦ (coinbases i).getD 0 != last)).getD confirmed

theorem periodStop_eq_iff {count stop : UInt64} {coinbases : UInt64 → Option Address} {last : Address} :
    periodStop confirmed count coinbases last = stop ↔
      stop = confirmed ∧ (∀ i ∈ periodNumbers confirmed count, (coinbases i).getD 0 = last) ∨
      stop ∈ periodNumbers confirmed count ∧ (coinbases stop).getD 0 ≠ last ∧
        ∀ i ∈ periodNumbers confirmed count, stop < i → (coinbases i).getD 0 = last := by
  unfold periodStop
  cases hfind : (periodNumbers confirmed count).find? (fun i ↦ (coinbases i).getD 0 != last) with
  | none =>
    have hall : ∀ i ∈ periodNumbers confirmed count, (coinbases i).getD 0 = last := fun i hi ↦ by
      simpa using find?_eq_none.mp hfind i hi
    constructor
    · rintro rfl
      exact .inl ⟨rfl, hall⟩
    rintro (⟨rfl, -⟩ | ⟨hmem, hne, -⟩)
    · rfl
    · exact absurd (hall stop hmem) hne
  | some s =>
    obtain ⟨hmem, hs, hfst⟩ := (find?_descending (periodNumbers_descending _ _)).mp hfind
    have hne : (coinbases s).getD 0 ≠ last := by simpa using hs
    have hfst' : ∀ i ∈ periodNumbers confirmed count, s < i → (coinbases i).getD 0 = last :=
      fun i hi hlt ↦ by simpa using hfst i hi hlt
    constructor
    · rintro rfl
      exact .inr ⟨hmem, hne, hfst'⟩
    rintro (⟨rfl, hall⟩ | ⟨hmem', hne', hfst''⟩)
    · exact absurd (hall s hmem) hne
    by_contra hdiff
    rcases UInt64.lt_or_lt_of_ne hdiff with hlt | hlt
    · exact hne' (hfst' stop hmem' hlt)
    · exact hne (hfst'' s hmem hlt)

def dropped (stop count i : UInt64) : Bool := stop + 1 ≤ i && i < stop + count

theorem trimPeriod_of_listed {record : SCRecord} {last : Address} (hcnt : 1 < record.countPerPeriod)
    (hnew : record.lastConfirmedNumber < confirmed) (hlast : coinbases[confirmed]? = some last) :
    trimPeriod record confirmed coinbases =
      (periodStop confirmed record.countPerPeriod (coinbases[·]?) last,
        coinbases.filter fun i _ ↦ !dropped (periodStop confirmed record.countPerPeriod
          (coinbases[·]?) last) record.countPerPeriod i) := by
  have hactive : (decide (record.countPerPeriod > 1) &&
      decide (confirmed > record.lastConfirmedNumber)) = true := by
    rw [Bool.and_eq_true, decide_eq_true_eq, decide_eq_true_eq]
    exact ⟨hcnt, hnew⟩
  unfold trimPeriod
  rw [if_pos hactive]
  simp only [hlast, getD_eq_getD_getElem?]
  rfl

theorem trimPeriod_of_not_listed {record : SCRecord}
    (h : ¬ (1 < record.countPerPeriod ∧ record.lastConfirmedNumber < confirmed ∧ coinbases[confirmed]? ≠ none)) :
    trimPeriod record confirmed coinbases = (confirmed, coinbases) := by
  unfold trimPeriod
  split_ifs with hactive
  · rw [Bool.and_eq_true, decide_eq_true_eq, decide_eq_true_eq] at hactive
    cases hnone : coinbases[confirmed]? with
    | none => rfl
    | some a => exact absurd ⟨hactive.1, hactive.2, fun h' ↦ by rw [hnone] at h'; cases h'⟩ h
  · rfl

section Orders

variable (record : SCRecord) (minConf : ℕ) (scan : ConfirmScan)

def Agrees (i : UInt64) : Prop :=
  ∀ x y, Views (listed minConf) scan.confirmedRecordMap.toList i scan.confirmedNumber x y →
    x.getD 0 = y

def Differs (i : UInt64) : Prop :=
  ∀ x y, Views (listed minConf) scan.confirmedRecordMap.toList i scan.confirmedNumber x y →
    x.getD 0 ≠ y

def StopsAt (stop : UInt64) : Prop :=
  stop = scan.confirmedNumber ∧
      (∀ i ∈ periodNumbers scan.confirmedNumber record.countPerPeriod, Agrees minConf scan i) ∨
    stop ∈ periodNumbers scan.confirmedNumber record.countPerPeriod ∧
      Differs minConf scan stop ∧
      ∀ i ∈ periodNumbers scan.confirmedNumber record.countPerPeriod, stop < i →
        Agrees minConf scan i

def StepsBack : Prop :=
  1 < record.countPerPeriod ∧ record.lastConfirmedNumber < scan.confirmedNumber ∧
    ∃ e ∈ scan.confirmedRecordMap.toList, listed minConf e scan.confirmedNumber ≠ none

/-- No two loop infos with a quorum name different coinbases for a block that is returned, and the
step back ends with one number. -/
def OrderFree : Prop :=
  (¬ StepsBack record minConf scan →
    ∀ i, NoConflict (listed minConf) scan.confirmedRecordMap.toList i) ∧
  (StepsBack record minConf scan →
    ∃ stop, StopsAt record minConf scan stop ∧
      ∀ i, dropped stop record.countPerPeriod i = false →
        NoConflict (listed minConf) scan.confirmedRecordMap.toList i)

def confirmedIn (infos : List (Bytes × GoMap Address Bool)) : UInt64 × GoMap UInt64 Address :=
  trimPeriod record scan.confirmedNumber (coinbasesIn minConf infos)

variable {record minConf scan}

theorem confirmedIn_of_not_stepsBack (h : ¬ StepsBack record minConf scan)
    (hinfos : infos.Perm scan.confirmedRecordMap.toList) :
    confirmedIn record minConf scan infos =
      (scan.confirmedNumber, coinbasesIn minConf infos) := by
  refine trimPeriod_of_not_listed fun hlist ↦ h ⟨hlist.1, hlist.2.1, ?_⟩
  have hsome := hlist.2.2
  rw [getElem?_coinbasesIn, ne_eq, overlay_eq_none_iff] at hsome
  obtain ⟨e, hsome⟩ := not_forall.mp hsome
  obtain ⟨he, hne⟩ := Classical.not_imp.mp hsome
  exact ⟨e, hinfos.mem_iff.mp he, hne⟩

theorem confirmedIn_of_stepsBack (h : StepsBack record minConf scan)
    (hinfos : infos.Perm scan.confirmedRecordMap.toList) :
    ∃ last stop, overlay (listed minConf) infos scan.confirmedNumber = some last ∧
      periodStop scan.confirmedNumber record.countPerPeriod (overlay (listed minConf) infos) last =
        stop ∧
      (confirmedIn record minConf scan infos).1 = stop ∧
      ∀ i : UInt64, (confirmedIn record minConf scan infos).2[i]? =
        if dropped stop record.countPerPeriod i then none
        else overlay (listed minConf) infos i := by
  obtain ⟨hcnt, hnew, e, he, hne⟩ := h
  have hsome : overlay (listed minConf) infos scan.confirmedNumber ≠ none := fun hnone ↦
    hne (overlay_eq_none_iff.mp hnone e (hinfos.mem_iff.mpr he))
  obtain ⟨last, hlast⟩ := ne_none_iff_exists'.mp hsome
  have htrim := trimPeriod_of_listed hcnt hnew
    ((getElem?_coinbasesIn minConf infos _).trans hlast)
  rw [funext (getElem?_coinbasesIn minConf infos)] at htrim
  refine ⟨last, _, hlast, rfl, congrArg Prod.fst htrim, fun i ↦ ?_⟩
  rw [confirmedIn, htrim, getElem?_filter', getElem?_coinbasesIn]
  cases dropped (periodStop scan.confirmedNumber record.countPerPeriod
    (overlay (listed minConf) infos) last) record.countPerPeriod i with
  | true => cases overlay (listed minConf) infos i <;> rfl
  | false => cases overlay (listed minConf) infos i <;> rfl

theorem forall_order_iff {i : UInt64} {R : Option Address → Address → Prop} :
    (∀ infos : List (Bytes × GoMap Address Bool), infos.Perm scan.confirmedRecordMap.toList →
      ∀ last, overlay (listed minConf) infos scan.confirmedNumber = some last →
        R (overlay (listed minConf) infos i) last) ↔
      ∀ x y, Views (listed minConf) scan.confirmedRecordMap.toList i scan.confirmedNumber x y →
        R x y := by
  constructor
  · intro h x y hviews
    obtain ⟨infos, hperm, rfl, hy⟩ := views_iff.mpr hviews
    exact h infos hperm y hy
  · intro h infos hperm last hlast
    exact h _ _ (views_iff.mp ⟨infos, hperm, rfl, hlast⟩)

theorem stopsAt_iff (h : StepsBack record minConf scan) (stop : UInt64) :
    (∀ infos : List (Bytes × GoMap Address Bool), infos.Perm scan.confirmedRecordMap.toList →
      ∀ last, overlay (listed minConf) infos scan.confirmedNumber = some last →
        periodStop scan.confirmedNumber record.countPerPeriod
          (overlay (listed minConf) infos) last = stop) ↔
      StopsAt record minConf scan stop := by
  have hoth : scan.confirmedNumber ∉ periodNumbers scan.confirmedNumber record.countPerPeriod :=
    fun hmem ↦ UInt64.lt_irrefl _ (le_of_mem_periodNumbers hmem)
  obtain ⟨last0, -, hlast0, -⟩ :=
    confirmedIn_of_stepsBack h (List.Perm.refl scan.confirmedRecordMap.toList)
  simp only [periodStop_eq_iff]
  constructor
  · intro hall
    by_cases hstop : stop = scan.confirmedNumber
    · refine .inl ⟨hstop, fun i hi ↦ forall_order_iff.mp fun infos hperm last hlast ↦ ?_⟩
      rcases hall infos hperm last hlast with ⟨-, hagree⟩ | ⟨hmem, -⟩
      · exact hagree i hi
      · exact absurd (hstop ▸ hmem) hoth
    have hright : ∀ infos : List (Bytes × GoMap Address Bool),
        infos.Perm scan.confirmedRecordMap.toList → ∀ last,
        overlay (listed minConf) infos scan.confirmedNumber = some last → _ :=
      fun infos hperm last hlast ↦ (hall infos hperm last hlast).resolve_left fun h' ↦ hstop h'.1
    refine .inr ⟨(hright _ (List.Perm.refl _) last0 hlast0).1, ?_, fun i hi hlt ↦ ?_⟩
    · exact forall_order_iff.mp fun infos hperm last hlast ↦ (hright infos hperm last hlast).2.1
    exact forall_order_iff.mp fun infos hperm last hlast ↦
      (hright infos hperm last hlast).2.2 i hi hlt
  intro hstops infos hperm last hlast
  have hsees : ∀ i, Views (listed minConf) scan.confirmedRecordMap.toList i
      scan.confirmedNumber (overlay (listed minConf) infos i) last := fun i ↦
    views_iff.mp ⟨infos, hperm, rfl, hlast⟩
  rcases hstops with ⟨hstop, hagree⟩ | ⟨hmem, hdiffer, hagree⟩
  · exact .inl ⟨hstop, fun i hi ↦ hagree i hi _ _ (hsees i)⟩
  · exact .inr ⟨hmem, hdiffer _ _ (hsees stop), fun i hi hlt ↦ hagree i hi hlt _ _ (hsees i)⟩

theorem confirmedIn_eq_iff :
    (∀ infos infos' : List (Bytes × GoMap Address Bool),
      infos.Perm scan.confirmedRecordMap.toList → infos'.Perm scan.confirmedRecordMap.toList →
      confirmedIn record minConf scan infos = confirmedIn record minConf scan infos') ↔
      OrderFree record minConf scan := by
  constructor
  · intro hall
    refine ⟨fun hno i ↦ overlay_perm_iff.mp fun infos infos' h h' ↦ ?_, fun hsts ↦ ?_⟩
    · have hsame := hall infos infos' h h'
      rw [confirmedIn_of_not_stepsBack hno h, confirmedIn_of_not_stepsBack hno h'] at hsame
      rw [← getElem?_coinbasesIn, ← getElem?_coinbasesIn, (Prod.mk.inj hsame).2]
    obtain ⟨last0, stop, hlast0, -, hstop0, hget0⟩ :=
      confirmedIn_of_stepsBack hsts (List.Perm.refl scan.confirmedRecordMap.toList)
    -- every order stops where the first one does
    have hstops : ∀ infos : List (Bytes × GoMap Address Bool),
        infos.Perm scan.confirmedRecordMap.toList → ∃ last,
        overlay (listed minConf) infos scan.confirmedNumber = some last ∧
        periodStop scan.confirmedNumber record.countPerPeriod
          (overlay (listed minConf) infos) last = stop ∧
        ∀ i : UInt64, (confirmedIn record minConf scan infos).2[i]? =
          if dropped stop record.countPerPeriod i then none
          else overlay (listed minConf) infos i := by
      intro infos hperm
      obtain ⟨last, stop', hlast, hper, hstop', hget⟩ := confirmedIn_of_stepsBack hsts hperm
      have heq : stop' = stop := by
        rw [← hstop', ← hstop0, hall infos _ hperm (List.Perm.refl _)]
      rw [heq] at hper hget
      exact ⟨last, hlast, hper, hget⟩
    refine ⟨stop, (stopsAt_iff hsts stop).mp fun infos hperm last hlast ↦ ?_, fun i hi ↦ ?_⟩
    · obtain ⟨last', hlast', hper, -⟩ := hstops infos hperm
      rw [hlast] at hlast'
      rwa [some.inj hlast']
    refine overlay_perm_iff.mp fun infos infos' h h' ↦ ?_
    obtain ⟨-, -, -, hget⟩ := hstops infos h
    obtain ⟨-, -, -, hget'⟩ := hstops infos' h'
    have hsame := hget i
    rw [hall infos infos' h h', hget' i, hi] at hsame
    exact hsame.symm
  rintro ⟨hplain, hback⟩ infos infos' h h'
  by_cases hsts : StepsBack record minConf scan
  · obtain ⟨stop, hstops, hfree⟩ := hback hsts
    have hat := (stopsAt_iff hsts stop).mpr hstops
    obtain ⟨last, s, hlast, hper, hnum, hget⟩ := confirmedIn_of_stepsBack hsts h
    obtain ⟨last', s', hlast', hperiod', hnum', hget'⟩ := confirmedIn_of_stepsBack hsts h'
    obtain rfl : stop = s := (hat infos h last hlast).symm.trans hper
    obtain rfl : stop = s' := (hat infos' h' last' hlast').symm.trans hperiod'
    refine Prod.ext (hnum.trans hnum'.symm) (ExtTreeMap.ext_getElem? fun i ↦ ?_)
    rw [hget, hget']
    cases hdrop : dropped stop record.countPerPeriod i with
    | true => rfl
    | false =>
      exact overlay_perm_iff.mpr (hfree i hdrop) infos infos' h h'
  rw [confirmedIn_of_not_stepsBack hsts h, confirmedIn_of_not_stepsBack hsts h']
  refine Prod.ext rfl (ExtTreeMap.ext_getElem? fun i ↦ ?_)
  rw [getElem?_coinbasesIn, getElem?_coinbasesIn]
  exact overlay_perm_iff.mpr (hplain hsts i) infos infos' h h'

end Orders

/-- The result does not depend on the order of the loop over the loop infos exactly if those with
a quorum do not contradict each other on what is returned. -/
theorem confirmed_order_free_iff (record : SCRecord) (minConf : ℕ) :
    (∀ rt rt' : Runtime, calculateSCConfirmedNumber rt record minConf =
      calculateSCConfirmedNumber rt' record minConf) ↔
      ∀ scan, (pendingConfirmations record).foldlM (scanConfirmation minConf)
          ⟨record.lastConfirmedNumber, ∅⟩ = .ok scan →
        record.maxHeaderNumber ≠ maxUint64 → OrderFree record minConf scan := by
  have hcalc : ∀ {scan}, (pendingConfirmations record).foldlM (scanConfirmation minConf)
      ⟨record.lastConfirmedNumber, ∅⟩ = .ok scan → record.maxHeaderNumber ≠ maxUint64 →
      ∀ rt : Runtime, calculateSCConfirmedNumber rt record minConf =
        .ok (confirmedIn record minConf scan (rt.rangeOrder scan.confirmedRecordMap.toList)) := by
    intro scan hscan hmax rt
    rw [calculateSCConfirmedNumber, if_neg hmax]
    exact bind_eq_ok.mpr ⟨scan, hscan, rfl⟩
  constructor
  · intro hall scan hscan hmax
    refine confirmedIn_eq_iff.mp fun infos infos' h h' ↦ ?_
    obtain ⟨rt, hrt⟩ := exists_rangeOrder _ h
    obtain ⟨rt', hrt'⟩ := exists_rangeOrder _ h'
    have hsame := hall rt rt'
    rw [hcalc hscan hmax, hcalc hscan hmax, hrt, hrt'] at hsame
    exact Except.ok.inj hsame
  intro hfree rt rt'
  by_cases hmax : record.maxHeaderNumber = maxUint64
  · rw [calculateSCConfirmedNumber, if_pos hmax, calculateSCConfirmedNumber, if_pos hmax]
  cases hscan : (pendingConfirmations record).foldlM (scanConfirmation minConf)
      ⟨record.lastConfirmedNumber, ∅⟩ with
  | error e =>
    rw [calculateSCConfirmedNumber, if_neg hmax, calculateSCConfirmedNumber, if_neg hmax, hscan]
    rfl
  | ok scan =>
    rw [hcalc hscan hmax, hcalc hscan hmax]
    exact congrArg Except.ok (confirmedIn_eq_iff.mpr (hfree scan hscan hmax) _ _
      (rt.rangeOrder_perm _) (rt'.rangeOrder_perm _))

def reorgRecord : SCRecord :=
  let first : List Bytes := ["5", "0xa", "6", "0xa"].map ofString
  let second : List Bytes := ["5", "0xb", "6", "0xb"].map ofString
  ⟨(∅ : GoMap UInt64 (List SCConfirmation)).insert 6
    [⟨9, 1, 6, first⟩, ⟨9, 2, 6, first⟩, ⟨9, 2, 6, second⟩, ⟨9, 3, 6, second⟩], 4, 6, 1, 10, ∅⟩

theorem confirmed_coinbase_by_order :
    ∃ coinbases coinbases' : GoMap UInt64 Address,
      calculateSCConfirmedNumber .inOrder reorgRecord (2 * 3 / 3) = .ok (6, coinbases) ∧
      calculateSCConfirmedNumber .backward reorgRecord (2 * 3 / 3) = .ok (6, coinbases') ∧
      coinbases[(6 : UInt64)]? = some 0xb ∧ coinbases'[(6 : UInt64)]? = some 0xa := by
  obtain ⟨⟨r, hr, hget⟩, r', hr', hget'⟩ :
      (∃ r, calculateSCConfirmedNumber .inOrder reorgRecord (2 * 3 / 3) = .ok r ∧
        r.1 = 6 ∧ r.2[(6 : UInt64)]? = some 0xb) ∧
      ∃ r, calculateSCConfirmedNumber .backward reorgRecord (2 * 3 / 3) = .ok r ∧
        r.1 = 6 ∧ r.2[(6 : UInt64)]? = some 0xa := by decide +kernel
  refine ⟨r.2, r'.2, ?_, ?_, hget.2, hget'.2⟩
  · rw [hr, ← hget.1]
  · rw [hr', ← hget'.1]

end BjutEth.Alien
