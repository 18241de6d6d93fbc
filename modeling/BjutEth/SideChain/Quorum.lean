import BjutEth.SideChain.Scan

namespace BjutEth.Alien

open Outcome GoText Std.ExtTreeMap UInt64
open Std (ExtTreeMap)
open List hiding not_lt

def SCRecord.Reports (record : SCRecord) (c : SCConfirmation) : Prop :=
  ∃ (number : UInt64) (l : List SCConfirmation), record.record[number]? = some l ∧ c ∈ l ∧
    record.lastConfirmedNumber < number ∧ number ≤ record.maxHeaderNumber

structure SCRecord.Quorum (record : SCRecord) (minConf : ℕ) (loopInfo : List Bytes) : Prop where
  fields : 2 * minConf ≤ loopInfo.length
  reporters : ∃ reporters : List Address, reporters.Nodup ∧ minConf ≤ reporters.length ∧
    ∀ a ∈ reporters, ∃ c, record.Reports c ∧ c.coinbase = a ∧ c.loopInfo = loopInfo

def Lists (loopInfo : List Bytes) (number : UInt64) (coinbase : Address) : Prop :=
  ∃ k f g n, loopInfo[2 * k]? = some f ∧ loopInfo[2 * k + 1]? = some g ∧
    bigUnmarshalText f = some n ∧ bigUint64 n = number ∧ hexToBits 160 g = coinbase

theorem Lists.cons_cons {infos : List Bytes} {number : UInt64} {coinbase : Address}
    (h : Lists infos number coinbase) (f g : Bytes) : Lists (f :: g :: infos) number coinbase := by
  obtain ⟨k, f', g', n, hf, hg, h⟩ := h
  exact ⟨k + 1, f', g', n, hf, hg, h⟩

variable {coinbases : GoMap UInt64 Address} {i confirmed : UInt64} {a : Address}

theorem addCoinbases_lists {infos : List Bytes} (h : (addCoinbases coinbases infos)[i]? = some a) :
    coinbases[i]? = some a ∨ Lists infos i a := by
  induction infos using List.twoStepInduction generalizing coinbases with
  | nil => exact .inl h
  | singleton f => exact .inl h
  | cons_cons f g infos ih _ =>
    rw [addCoinbases] at h
    cases hn : bigUnmarshalText f with
    | none =>
      simp only [hn] at h
      exact (ih h).imp_right fun h' ↦ h'.cons_cons f g
    | some n =>
      simp only [hn] at h
      rcases ih h with h' | h'
      · rw [ExtTreeMap.getElem?_insert] at h'
        split_ifs at h' with heq
        · exact .inr ⟨0, f, g, n, rfl, rfl, hn, Std.compare_eq_iff_eq.mp heq, Option.some.inj h'⟩
        · exact .inl h'
      · exact .inr (h'.cons_cons f g)

theorem confirmedCoinbases_lists {rt : Runtime} {minConf : ℕ}
    {records : GoMap Bytes (GoMap Address Bool)}
    (h : (confirmedCoinbases rt minConf records)[i]? = some a) :
    ∃ e ∈ records.toList, minConf ≤ e.2.size ∧ Lists (split loopInfoSep e.1) i a := by
  -- the invariant of the loop over the loop infos
  have hloop : ∀ (l : List (Bytes × GoMap Address Bool)) (coinbases : GoMap UInt64 Address),
      (l.foldl (fun coinbases e ↦ if e.2.size < minConf then coinbases
        else addCoinbases coinbases (split loopInfoSep e.1)) coinbases)[i]? = some a →
      coinbases[i]? = some a ∨
        ∃ e ∈ l, minConf ≤ e.2.size ∧ Lists (split loopInfoSep e.1) i a := by
    intro l
    induction l with
    | nil => exact fun coinbases h ↦ .inl h
    | cons e l ih =>
      intro coinbases h
      rcases ih _ h with h' | ⟨e', he', h'⟩
      · beta_reduce at h'
        split_ifs at h' with hsize
        · exact .inl h'
        exact (addCoinbases_lists h').imp_right fun hl ↦
          ⟨e, mem_cons_self, not_lt.mp hsize, hl⟩
      · exact .inr ⟨e', mem_cons_of_mem e he', h'⟩
  rcases hloop _ _ h with h' | ⟨e, he, h'⟩
  · cases h'
  · exact ⟨e, (rt.rangeOrder_perm _).mem_iff.mp he, h'⟩

/-! The step back to the last finished period. -/

theorem toNat_periodNumber {count : UInt64} (hle : count ≤ confirmed) {k : ℕ} (hk : k < count.toNat - 1) :
    (confirmed - 1 - .ofNat k).toNat = confirmed.toNat - 1 - k := by
  rw [le_iff_toNat_le] at hle
  have hlt := confirmed.toNat_lt
  have hofNat : (ofNat k).toNat = k :=
    toNat_ofNat_of_lt' (by change k < 2 ^ 64; omega)
  have hone : (1 : UInt64).toNat = 1 := rfl
  have hpred : (confirmed - 1).toNat = confirmed.toNat - 1 := by
    rw [UInt64.toNat_sub_of_le, hone]
    rw [le_iff_toNat_le, hone]
    omega
  rw [UInt64.toNat_sub_of_le, hpred, hofNat]
  rw [le_iff_toNat_le, hpred, hofNat]
  omega

theorem le_of_mem_periodNumbers {count : UInt64} (h : i ∈ periodNumbers confirmed count) : i < confirmed := by
  unfold periodNumbers at h
  split_ifs at h with hle
  · obtain ⟨k, hk, rfl⟩ := List.mem_map.mp h
    have hk := mem_range.mp hk
    rw [lt_iff_toNat_lt, toNat_periodNumber hle hk]
    rw [le_iff_toNat_le] at hle
    omega
  · cases h

theorem trimPeriod_number_le (record : SCRecord) (confirmed : UInt64)
    (coinbases : GoMap UInt64 Address) : (trimPeriod record confirmed coinbases).1 ≤ confirmed := by
  unfold trimPeriod
  split_ifs
  · split
    · exact UInt64.le_refl _
    next last _ =>
    cases hfind : (periodNumbers confirmed record.countPerPeriod).find?
        (fun i ↦ coinbases.getD i 0 != last) with
    | none => exact UInt64.le_refl _
    | some i => exact UInt64.le_of_lt (le_of_mem_periodNumbers (mem_of_find?_eq_some hfind))
  · exact UInt64.le_refl _

theorem trimPeriod_coinbases {record : SCRecord}
    (h : (trimPeriod record confirmed coinbases).2[i]? = some a) : coinbases[i]? = some a := by
  unfold trimPeriod at h
  split_ifs at h
  · split at h
    · exact h
    have hmem := mem_toList_iff_getElem?_eq_some.mpr h
    rw [ExtTreeMap.toList_filter] at hmem
    exact mem_toList_iff_getElem?_eq_some.mp (List.mem_filter.mp hmem).1
  · exact h

/-! A key with enough coinbases is a loop info with a quorum. -/

section Quorum

variable {record : SCRecord} {minConf : ℕ} {scan : ConfirmScan}

variable {c : SCConfirmation}

theorem reports_of_pending (hlast : record.lastConfirmedNumber ≠ maxUint64)
    (h : c ∈ pendingConfirmations record) : record.Reports c := by
  obtain ⟨e, he, hc⟩ := mem_flatMap.mp h
  obtain ⟨hmem, hrange⟩ := List.mem_filter.mp he
  rw [Bool.and_eq_true, decide_eq_true_eq, decide_eq_true_eq, le_iff_toNat_le,
    toNat_succ_of_ne hlast] at hrange
  exact ⟨e.1, e.2, mem_toList_iff_getElem?_eq_some.mp hmem, hc,
    lt_iff_toNat_lt.mpr (by omega), hrange.2⟩

theorem split_key (hfld : c.loopInfo ≠ []) (hsep : ∀ f ∈ c.loopInfo, loopInfoSep ∉ f) :
    split loopInfoSep c.key = c.loopInfo :=
  splitOn_intercalate loopInfoSep hsep hfld

theorem quorum_of_size (hpos : 0 < minConf) (hlast : record.lastConfirmedNumber ≠ maxUint64)
    (hsep : ∀ c ∈ pendingConfirmations record, ∀ f ∈ c.loopInfo, loopInfoSep ∉ f)
    (hs : Scanned minConf record.lastConfirmedNumber (pendingConfirmations record) scan)
    {key : Bytes} (hsize : minConf ≤ (scan.confirmedRecordMap.getD key ∅).size) :
    record.Quorum minConf (split loopInfoSep key) := by
  have hreport : ∀ a ∈ (scan.confirmedRecordMap.getD key ∅).keys,
      ∃ c ∈ pendingConfirmations record, c.LongEnough minConf ∧ c.coinbase = a ∧
        c.loopInfo = split loopInfoSep key := by
    intro a ha
    rw [ExtTreeMap.mem_keys, ← ExtTreeMap.contains_iff_mem, hs.seen] at ha
    obtain ⟨c, hc, hlong, rfl, rfl⟩ := ha
    refine ⟨c, hc, hlong, rfl, (split_key ?_ (hsep c hc)).symm⟩
    unfold SCConfirmation.LongEnough at hlong
    exact length_pos_iff.mp (by omega)
  rw [← length_keys] at hsize
  refine ⟨?_, _, nodup_keys, hsize, fun a ha ↦ ?_⟩
  · obtain ⟨a, ha⟩ := exists_mem_of_length_pos (hpos.trans_le hsize)
    obtain ⟨c, -, hlong, -, hinfo⟩ := hreport a ha
    rw [← hinfo, Nat.mul_comm]
    exact hlong
  · obtain ⟨c, hc, -, hcoinbase, hinfo⟩ := hreport a ha
    exact ⟨c, reports_of_pending hlast hc, hcoinbase, hinfo⟩

end Quorum

/-- A side chain is confirmed by a quorum: what a scan returns comes from loop infos that enough
coinbases have reported. -/
theorem confirmed_by_quorum {rt : Runtime} {record : SCRecord} {maxSignerCount : ℕ}
    (hcnt : 2 ≤ maxSignerCount) (hlast : record.lastConfirmedNumber ≠ maxUint64)
    (hsep : ∀ c ∈ pendingConfirmations record, ∀ f ∈ c.loopInfo, loopInfoSep ∉ f)
    {confirmed : UInt64} {coinbases : GoMap UInt64 Address}
    (h : calculateSCConfirmedNumber rt record (2 * maxSignerCount / 3) = .ok (confirmed, coinbases)) :
    (record.lastConfirmedNumber < confirmed →
      ∃ loopInfo n, record.Quorum (2 * maxSignerCount / 3) loopInfo ∧
        bigUnmarshalText (loopInfo.getD (loopInfo.length - 2) []) = some n ∧
        confirmed ≤ bigUint64 n) ∧
    ∀ (i : UInt64) (a : Address), coinbases[i]? = some a →
      ∃ loopInfo, record.Quorum (2 * maxSignerCount / 3) loopInfo ∧ Lists loopInfo i a := by
  have hpos : 0 < 2 * maxSignerCount / 3 := by omega
  unfold calculateSCConfirmedNumber at h
  split_ifs at h with hmax
  · cases h
  obtain ⟨scan, hscan, h⟩ := bind_eq_ok.mp h
  have hs := Scanned.nil.foldlM hscan
  have htrim := Except.ok.inj h
  constructor
  · intro hlt
    have hle := trimPeriod_number_le record scan.confirmedNumber
      (confirmedCoinbases rt (2 * maxSignerCount / 3) scan.confirmedRecordMap)
    rw [htrim] at hle
    rcases hs.number with heq | ⟨c, hc, n, hlong, hsize, hn, hn'⟩
    · rw [heq] at hle
      exact absurd (UInt64.lt_of_lt_of_le hlt hle) (UInt64.lt_irrefl _)
    have hne : c.loopInfo ≠ [] := by
      unfold SCConfirmation.LongEnough at hlong
      exact length_pos_iff.mp (by omega)
    have hquo := quorum_of_size hpos hlast hsep hs hsize
    rw [split_key hne (hsep c hc)] at hquo
    exact ⟨c.loopInfo, n, hquo, hn, hn'.symm ▸ hle⟩
  intro i a hi
  have hi' : (trimPeriod record scan.confirmedNumber
      (confirmedCoinbases rt (2 * maxSignerCount / 3) scan.confirmedRecordMap)).2[i]? = some a := by
    rw [htrim]
    exact hi
  obtain ⟨e, he, hsize, hlists⟩ := confirmedCoinbases_lists (trimPeriod_coinbases hi')
  have hget := mem_toList_iff_getElem?_eq_some.mp he
  refine ⟨split loopInfoSep e.1, quorum_of_size hpos hlast hsep hs ?_, hlists⟩
  rw [getD_eq_getD_getElem?, hget]
  exact hsize

def twoReports : SCRecord :=
  let loopInfo : List Bytes := ["5", "a", "6", "b"].map ofString
  ⟨(∅ : GoMap UInt64 (List SCConfirmation)).insert 5 [⟨9, 1, 5, loopInfo⟩, ⟨9, 2, 5, loopInfo⟩], 0, 5, 1, 10, ∅⟩

theorem confirmed_by_quorum_two :
    ∃ confirmed coinbases loopInfo n,
      calculateSCConfirmedNumber .inOrder twoReports (2 * 3 / 3) = .ok (confirmed, coinbases) ∧
      twoReports.Quorum (2 * 3 / 3) loopInfo ∧
      bigUnmarshalText (loopInfo.getD (loopInfo.length - 2) []) = some n ∧
      confirmed ≤ bigUint64 n := by
  obtain ⟨r, hcalc, hlt⟩ : ∃ r, calculateSCConfirmedNumber .inOrder twoReports (2 * 3 / 3) = .ok r ∧
      twoReports.lastConfirmedNumber < r.1 := by decide +kernel
  have hsep : ∀ c ∈ pendingConfirmations twoReports, ∀ f ∈ c.loopInfo, loopInfoSep ∉ f := by
    decide +kernel
  obtain ⟨loopInfo, n, h⟩ := (confirmed_by_quorum (by decide) (by decide) hsep hcalc).1 hlt
  exact ⟨r.1, r.2, loopInfo, n, hcalc, h⟩

def joinedRecord : SCRecord :=
  let first : List Bytes := ["5:a", "6", "7", "c"].map ofString
  let second : List Bytes := ["5", "a", "6", "7", "c"].map ofString
  ⟨(∅ : GoMap UInt64 (List SCConfirmation)).insert 5 [⟨9, 1, 5, first⟩, ⟨9, 2, 5, second⟩],
    0, 5, 1, 10, ∅⟩

/-- Their block 7 is confirmed for three signers, although neither has the quorum of two. -/
theorem confirmed_without_quorum :
    (∃ coinbases, calculateSCConfirmedNumber .inOrder joinedRecord (2 * 3 / 3) = .ok (7, coinbases)) ∧
      joinedRecord.lastConfirmedNumber < 7 ∧
      ¬ ∃ loopInfo, joinedRecord.Quorum (2 * 3 / 3) loopInfo := by
  refine ⟨?_, by decide, ?_⟩
  · have hrun : (calculateSCConfirmedNumber .inOrder joinedRecord (2 * 3 / 3)).map (·.1) =
        .ok 7 := by decide +kernel
    obtain ⟨⟨confirmed, coinbases⟩, hcalc, hconfirmed⟩ := map_eq_ok.mp hrun
    exact ⟨coinbases, by rw [hcalc, show confirmed = 7 from hconfirmed]⟩
  rintro ⟨loopInfo, -, reporters, hnd, hlen, hreports⟩
  have hinfo : ∀ a ∈ reporters, a = 1 ∧ loopInfo.length = 4 ∨ a = 2 ∧ loopInfo.length = 5 := by
    intro a ha
    obtain ⟨c, ⟨number, l, hl, hc, -⟩, rfl, rfl⟩ := hreports a ha
    have hmem := mem_toList_iff_getElem?_eq_some.mpr hl
    have hall : ∀ e ∈ joinedRecord.record.toList, ∀ c ∈ e.2,
        c.coinbase = 1 ∧ c.loopInfo.length = 4 ∨ c.coinbase = 2 ∧ c.loopInfo.length = 5 := by
      decide +kernel
    exact hall _ hmem c hc
  -- both reporters would have reported as many fields
  rcases reporters with _ | ⟨a, _ | ⟨b, rest⟩⟩
  · exact absurd hlen (by decide)
  · exact absurd hlen (by simp)
  have hne : a ≠ b := fun h ↦ (nodup_cons.mp hnd).1 (h ▸ mem_cons_self)
  rcases hinfo a mem_cons_self with ⟨rfl, ha⟩ | ⟨rfl, ha⟩
  · rcases hinfo b (mem_cons_of_mem _ mem_cons_self) with ⟨rfl, -⟩ | ⟨-, hb⟩
    · exact hne rfl
    · omega
  rcases hinfo b (mem_cons_of_mem _ mem_cons_self) with ⟨-, hb⟩ | ⟨rfl, -⟩
  · omega
  · exact hne rfl

end BjutEth.Alien
