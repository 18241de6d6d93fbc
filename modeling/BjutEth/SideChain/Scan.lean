import BjutEth.SideChain.Rewards

namespace BjutEth.Alien

open Outcome GoText Std.ExtTreeMap UInt64 Bool
open Std (ExtTreeMap)
open List hiding not_le not_lt

def scanNumbers (minConf : ℕ) (record : SCRecord) : ℕ → UInt64 → ConfirmScan → Go ConfirmScan
  | 0, _, _ => goHang
  | fuel + 1, i, scan =>
    if i ≤ record.maxHeaderNumber then
      (record.record.getD i []).foldlM (scanConfirmation minConf) scan >>= fun scan ↦
        scanNumbers minConf record fuel (i + 1) scan
    else .ok scan

def scanRecord (minConf : ℕ) (record : SCRecord) (fuel : ℕ) : Go ConfirmScan :=
  scanNumbers minConf record fuel (record.lastConfirmedNumber + 1)
    ⟨record.lastConfirmedNumber, ∅⟩

def confirmationsFrom (record : SCRecord) (i : UInt64) : List SCConfirmation :=
  (record.record.toList.filter (fun e ↦ i ≤ e.1 && e.1 ≤ record.maxHeaderNumber)).flatMap (·.2)

theorem uint64_le_maxUint64 (i : UInt64) : i ≤ maxUint64 := by
  have hlt := i.toNat_lt
  have hmax : maxUint64.toNat = 2 ^ 64 - 1 := rfl
  rw [le_iff_toNat_le]
  omega

variable {i : UInt64} {record : SCRecord}

theorem toNat_succ_of_ne (h : i ≠ maxUint64) : (i + 1).toNat = i.toNat + 1 := by
  have hlt := i.toNat_lt
  have hne : i.toNat ≠ 2 ^ 64 - 1 := fun heq ↦ h (UInt64.toNat_inj.mp heq)
  rw [UInt64.toNat_add]
  have hone : (1 : UInt64).toNat = 1 := rfl
  omega

theorem filter_range_eq {V : Type} {l : List (UInt64 × V)} (i m : UInt64)
    (hl : l.Pairwise (fun a b ↦ a.1 < b.1)) (hi : i ≤ m) (hmax : m ≠ maxUint64) :
    l.filter (fun e ↦ i ≤ e.1 && e.1 ≤ m) =
      l.filter (fun e ↦ e.1 == i) ++ l.filter (fun e ↦ i + 1 ≤ e.1 && e.1 ≤ m) := by
  have hsucc : (i + 1).toNat = i.toNat + 1 := by
    refine toNat_succ_of_ne fun heq ↦ hmax (UInt64.le_antisymm (uint64_le_maxUint64 m) ?_)
    exact heq ▸ hi
  induction l with
  | nil => rfl
  | cons e l ih =>
    obtain ⟨hhead, htail⟩ := pairwise_cons.mp hl
    simp only [filter_cons]
    by_cases he : e.1 = i
    · -- all keys that follow are larger
      have hnone : l.filter (fun e ↦ e.1 == i) = [] := by
        refine filter_eq_nil_iff.mpr fun e' he' heq ↦ ?_
        have := hhead e' he'
        rw [he, eq_of_beq heq] at this
        exact UInt64.lt_irrefl _ this
      have hfst : (i ≤ e.1 && e.1 ≤ m) = true := by
        rw [he, and_eq_true, decide_eq_true_eq, decide_eq_true_eq]
        exact ⟨UInt64.le_refl i, le_iff_toNat_le.mpr hi⟩
      have haft : (i + 1 ≤ e.1 && e.1 ≤ m) = false := by
        simp only [he, le_iff_toNat_le, hsucc, and_eq_false_iff,
          decide_eq_false_iff_not]
        omega
      rw [ih htail, hnone, if_pos hfst, if_pos (beq_iff_eq.mpr he), haft]
      rfl
    have hsame : (i + 1 ≤ e.1 && e.1 ≤ m) = (i ≤ e.1 && e.1 ≤ m) := by
      have hne : e.1.toNat ≠ i.toNat := fun h ↦ he (UInt64.toNat_inj.mp h)
      simp only [le_iff_toNat_le, hsucc]
      congr 2
      exact propext ⟨fun h ↦ by omega, fun h ↦ by omega⟩
    rw [ih htail, hsame, if_neg (fun h ↦ he (beq_iff_eq.mp h))]
    by_cases hin : (i ≤ e.1 && e.1 ≤ m) = true
    · -- the key lies above, so none is equal to `i`
      have hnone : l.filter (fun e ↦ e.1 == i) = [] := by
        refine filter_eq_nil_iff.mpr fun e' he' heq ↦ ?_
        have hlt := hhead e' he'
        rw [eq_of_beq heq, lt_iff_toNat_lt] at hlt
        rw [and_eq_true, decide_eq_true_eq, le_iff_toNat_le] at hin
        omega
      rw [if_pos hin, if_pos hin, hnone]
      rfl
    · rw [if_neg hin, if_neg hin]

theorem flatMap_filter_eq_getD (m : GoMap UInt64 (List SCConfirmation)) (i : UInt64) :
    (m.toList.filter (fun e ↦ e.1 == i)).flatMap (·.2) = m.getD i [] := by
  have hmem : ∀ e, e ∈ m.toList.filter (fun e ↦ e.1 == i) ↔ m[i]? = some e.2 ∧ e.1 = i := by
    intro e
    rw [List.mem_filter, mem_toList_iff_getElem?_eq_some, beq_iff_eq]
    exact ⟨fun h ↦ ⟨h.2 ▸ h.1, h.2⟩, fun h ↦ ⟨by rw [h.2, h.1], h.2⟩⟩
  have hnd := (GoMap.nodup_toList m).filter (fun e ↦ e.1 == i)
  rw [getD_eq_getD_getElem?]
  cases hget : m[i]? with
  | none =>
    have hnil : m.toList.filter (fun e ↦ e.1 == i) = [] := by
      refine eq_nil_iff_forall_not_mem.mpr fun e he ↦ ?_
      have := ((hmem e).mp he).1
      rw [hget] at this
      cases this
    rw [hnil]
    rfl
  | some l =>
    have hone : m.toList.filter (fun e ↦ e.1 == i) = [(i, l)] := by
      refine perm_singleton.mp ((perm_ext_iff_of_nodup hnd (nodup_singleton _)).mpr
        fun e ↦ ?_)
      rw [hmem, hget, mem_singleton, Option.some.injEq, Prod.ext_iff]
      exact ⟨fun h ↦ ⟨h.2, h.1.symm⟩, fun h ↦ ⟨h.2.symm, h.1⟩⟩
    rw [hone]
    exact append_nil l

theorem confirmationsFrom_eq (hi : i ≤ record.maxHeaderNumber) (hmax : record.maxHeaderNumber ≠ maxUint64) :
    confirmationsFrom record i = record.record.getD i [] ++ confirmationsFrom record (i + 1) := by
  have hsort : record.record.toList.Pairwise (fun a b ↦ a.1 < b.1) :=
    ordered_keys_toList.imp fun h ↦ Std.compare_eq_lt.mp h
  rw [confirmationsFrom, filter_range_eq i _ hsort hi hmax, flatMap_append, flatMap_filter_eq_getD]
  rfl

theorem confirmationsFrom_eq_nil (hi : ¬ i ≤ record.maxHeaderNumber) : confirmationsFrom record i = [] := by
  have hnil : record.record.toList.filter
      (fun e ↦ i ≤ e.1 && e.1 ≤ record.maxHeaderNumber) = [] := by
    refine filter_eq_nil_iff.mpr fun e _ he ↦ hi ?_
    rw [and_eq_true, decide_eq_true_eq, decide_eq_true_eq] at he
    exact UInt64.le_trans he.1 he.2
  rw [confirmationsFrom, hnil]
  rfl

theorem scanNumbers_eq {minConf : ℕ} (hmax : record.maxHeaderNumber ≠ maxUint64) {fuel : ℕ}
    (hfuel : record.maxHeaderNumber.toNat + 1 - i.toNat < fuel) (scan : ConfirmScan) :
    scanNumbers minConf record fuel i scan =
      (confirmationsFrom record i).foldlM (scanConfirmation minConf) scan := by
  induction fuel generalizing i scan with
  | zero => omega
  | succ fuel ih =>
    rw [scanNumbers]
    by_cases hi : i ≤ record.maxHeaderNumber
    · have hsucc : (i + 1).toNat = i.toNat + 1 := by
        refine toNat_succ_of_ne fun heq ↦ hmax (UInt64.le_antisymm (uint64_le_maxUint64 _) ?_)
        exact heq ▸ hi
      rw [le_iff_toNat_le] at hi
      rw [if_pos (le_iff_toNat_le.mpr hi), confirmationsFrom_eq
        (le_iff_toNat_le.mpr hi) hmax, foldlM_append]
      congr 1
      funext scan
      exact ih (by omega) scan
    · rw [if_neg hi, confirmationsFrom_eq_nil hi]
      rfl

theorem scanNumbers_ne_ok {minConf : ℕ} (hmax : record.maxHeaderNumber = maxUint64) (fuel : ℕ)
    (i : UInt64) (scan scan' : ConfirmScan) : scanNumbers minConf record fuel i scan ≠ .ok scan' := by
  induction fuel generalizing i scan with
  | zero => exact fun h ↦ (by cases h)
  | succ fuel ih =>
    rw [scanNumbers, hmax, if_pos (uint64_le_maxUint64 i)]
    intro h
    obtain ⟨scan'', -, h⟩ := bind_eq_ok.mp h
    exact ih (i + 1) scan'' h

/-! What the scan knows after some confirmations. -/

def SCConfirmation.LongEnough (minConf : ℕ) (c : SCConfirmation) : Prop :=
  minConf * 2 ≤ c.loopInfo.length

def SCConfirmation.key (c : SCConfirmation) : Bytes := join loopInfoSep c.loopInfo

structure Scanned (minConf : ℕ) (start : UInt64) (l : List SCConfirmation)
    (scan : ConfirmScan) : Prop where
  seen : ∀ key a, (scan.confirmedRecordMap.getD key ∅).contains a = true ↔
    ∃ c ∈ l, c.LongEnough minConf ∧ c.key = key ∧ c.coinbase = a
  le : start ≤ scan.confirmedNumber
  number : scan.confirmedNumber = start ∨ ∃ c ∈ l, ∃ n, c.LongEnough minConf ∧
    minConf ≤ (scan.confirmedRecordMap.getD c.key ∅).size ∧
    bigUnmarshalText (c.loopInfo.getD (c.loopInfo.length - 2) []) = some n ∧
    bigUint64 n = scan.confirmedNumber

variable {minConf : ℕ} {start : UInt64} {scan scan' : ConfirmScan} {l : List SCConfirmation}
  {c : SCConfirmation}

theorem scanConfirmation_cases (h : scanConfirmation minConf scan c = .ok scan') :
    (¬ c.LongEnough minConf ∨
        (scan.confirmedRecordMap.getD c.key ∅).contains c.coinbase = true) ∧ scan' = scan ∨
      c.LongEnough minConf ∧
      scan'.confirmedRecordMap = scan.confirmedRecordMap.insert c.key
        ((scan.confirmedRecordMap.getD c.key ∅).insert c.coinbase true) ∧
      (scan'.confirmedNumber = scan.confirmedNumber ∨
        minConf ≤ ((scan.confirmedRecordMap.getD c.key ∅).insert c.coinbase true).size ∧
        scan.confirmedNumber < scan'.confirmedNumber ∧
        ∃ n, bigUnmarshalText (c.loopInfo.getD (c.loopInfo.length - 2) []) = some n ∧
          bigUint64 n = scan'.confirmedNumber) := by
  simp only [scanConfirmation] at h
  rw [← SCConfirmation.key] at h
  by_cases hlong : c.loopInfo.length < minConf * 2
  · rw [if_pos hlong] at h
    exact .inl ⟨.inl (not_le.mpr hlong), (Except.ok.inj h).symm⟩
  rw [if_neg hlong] at h
  by_cases hseen : (scan.confirmedRecordMap.getD c.key ∅).contains c.coinbase = true
  · rw [if_pos hseen] at h
    exact .inl ⟨.inr hseen, (Except.ok.inj h).symm⟩
  rw [if_neg hseen] at h
  refine .inr ⟨not_lt.mp hlong, ?_⟩
  by_cases hquo :
      ((scan.confirmedRecordMap.getD c.key ∅).insert c.coinbase true).size < minConf
  · rw [if_pos hquo] at h
    cases h
    exact ⟨rfl, .inl rfl⟩
  rw [if_neg hquo] at h
  by_cases hfld : c.loopInfo.length < 2
  · rw [if_pos hfld] at h
    cases h
  rw [if_neg hfld] at h
  cases hn : bigUnmarshalText (c.loopInfo.getD (c.loopInfo.length - 2) []) with
  | none =>
    simp only [hn] at h
    cases h
    exact ⟨rfl, .inl rfl⟩
  | some n =>
    simp only [hn] at h
    cases h
    split_ifs with hgt
    · exact ⟨rfl, .inr ⟨not_lt.mp hquo, hgt, n, rfl, rfl⟩⟩
    · exact ⟨rfl, .inl rfl⟩

theorem scanConfirmation_isOk_iff : (∃ scan', scanConfirmation minConf scan c = .ok scan') ↔
    ¬ (c.LongEnough minConf ∧ c.loopInfo.length < 2 ∧
      (scan.confirmedRecordMap.getD c.key ∅).contains c.coinbase = false) := by
  simp only [scanConfirmation]
  rw [← SCConfirmation.key]
  constructor
  · rintro ⟨scan', h⟩ ⟨hlong, hfld, hnew⟩
    have hnone : minConf = 0 := by
      unfold SCConfirmation.LongEnough at hlong
      omega
    rw [if_neg (not_lt.mpr hlong), if_neg (eq_false_iff.mp hnew)] at h
    rw [if_neg (by omega), if_pos hfld] at h
    cases h
  intro hgood
  by_cases hlong : c.loopInfo.length < minConf * 2
  · exact ⟨_, if_pos hlong⟩
  split_ifs with hseen hquo hfld
  · exact ⟨_, rfl⟩
  · exact ⟨_, rfl⟩
  · exact absurd ⟨not_lt.mp hlong, hfld, eq_false_iff.mpr hseen⟩ hgood
  split
  · exact ⟨_, rfl⟩
  · exact ⟨_, rfl⟩

theorem Scanned.nil : Scanned minConf start [] ⟨start, ∅⟩ where
  seen key a := by
    exact ⟨by simp, fun h ↦ by
      obtain ⟨c, hc, -⟩ := h
      cases hc⟩
  le := UInt64.le_refl start
  number := .inl rfl

theorem Scanned.step (hs : Scanned minConf start l scan)
    (h : scanConfirmation minConf scan c = .ok scan') :
    Scanned minConf start (l ++ [c]) scan' := by
  have hold : ∀ c' ∈ l, c' ∈ l ++ [c] := fun c' hc' ↦ mem_append_left [c] hc'
  rcases scanConfirmation_cases h with ⟨hknw, rfl⟩ | ⟨hlong, hmap, hnum⟩
  · refine ⟨fun key a ↦ ?_, hs.le, hs.number.imp_right fun hn ↦ ?_⟩
    · rw [hs.seen]
      constructor
      · rintro ⟨c', hc', h'⟩
        exact ⟨c', hold c' hc', h'⟩
      rintro ⟨c', hc', hlong', rfl, rfl⟩
      rcases mem_append.mp hc' with hc' | hc'
      · exact ⟨c', hc', hlong', rfl, rfl⟩
      obtain rfl := mem_singleton.mp hc'
      exact (hs.seen _ _).mp (hknw.resolve_left (not_not.mpr hlong'))
    · obtain ⟨c', hc', hn'⟩ := hn
      exact ⟨c', hold c' hc', hn'⟩
  have hget : ∀ key, scan'.confirmedRecordMap.getD key ∅ = if c.key = key then
      (scan.confirmedRecordMap.getD c.key ∅).insert c.coinbase true
      else scan.confirmedRecordMap.getD key ∅ := by
    intro key
    rw [hmap, GoMap.getD_insert]
  have hsize : ∀ key, (scan.confirmedRecordMap.getD key ∅).size ≤
      (scan'.confirmedRecordMap.getD key ∅).size := by
    intro key
    rw [hget]
    split_ifs with heq
    · rw [← heq, size_insert]
      split_ifs <;> omega
    · exact Nat.le_refl _
  refine ⟨fun key a ↦ ?_, ?_, ?_⟩
  · have hnew : (∃ c' ∈ l ++ [c], c'.LongEnough minConf ∧ c'.key = key ∧ c'.coinbase = a) ↔
        (∃ c' ∈ l, c'.LongEnough minConf ∧ c'.key = key ∧ c'.coinbase = a) ∨
          c.key = key ∧ c.coinbase = a := by
      constructor
      · rintro ⟨c', hc', h'⟩
        rcases mem_append.mp hc' with hc' | hc'
        · exact .inl ⟨c', hc', h'⟩
        obtain rfl := mem_singleton.mp hc'
        exact .inr h'.2
      rintro (⟨c', hc', h'⟩ | h')
      · exact ⟨c', hold c' hc', h'⟩
      · exact ⟨c, mem_append_right l mem_cons_self, hlong, h'⟩
    rw [hnew, ← hs.seen, hget]
    by_cases hkey : c.key = key
    · rw [if_pos hkey, ExtTreeMap.contains_insert, hkey, or_eq_true, beq_iff_eq,
        Std.compare_eq_iff_eq]
      tauto
    · rw [if_neg hkey]
      exact ⟨.inl, fun h' ↦ h'.resolve_right fun h'' ↦ hkey h''.1⟩
  · rcases hnum with heq | ⟨-, hlt, -⟩
    · rw [heq]
      exact hs.le
    · exact UInt64.le_trans hs.le (UInt64.le_of_lt hlt)
  rcases hnum with heq | ⟨hquo, -, n, hn, hn'⟩
  · rw [heq]
    refine hs.number.imp_right fun hn ↦ ?_
    obtain ⟨c', hc', n, hlong', hquo, hn⟩ := hn
    exact ⟨c', hold c' hc', n, hlong', hquo.trans (hsize _), hn⟩
  refine .inr ⟨c, mem_append_right l mem_cons_self, n, hlong, ?_, hn, hn'⟩
  rw [hget, if_pos rfl]
  exact hquo

theorem Scanned.foldlM {l' : List SCConfirmation} (hs : Scanned minConf start l scan)
    (h : l'.foldlM (scanConfirmation minConf) scan = .ok scan') :
    Scanned minConf start (l ++ l') scan' := by
  induction l' generalizing l scan with
  | nil =>
    cases h
    rw [append_nil]
    exact hs
  | cons c l' ih =>
    obtain ⟨scan1, h1, h⟩ := bind_eq_ok.mp h
    have := ih (hs.step h1) h
    rwa [List.append_assoc] at this

theorem Scanned.of_foldlM (h : l.foldlM (scanConfirmation minConf) ⟨start, ∅⟩ = .ok scan) :
    Scanned minConf start l scan := by
  have hs := Scanned.nil.foldlM h
  rwa [nil_append] at hs

def Readable (minConf : ℕ) (l : List SCConfirmation) : Prop :=
  ∀ before c after, l = before ++ c :: after → c.LongEnough minConf → c.loopInfo.length < 2 →
    ∃ c' ∈ before, c'.LongEnough minConf ∧ c'.key = c.key ∧ c'.coinbase = c.coinbase

theorem foldlM_scanConfirmation_isOk_iff (minConf : ℕ) (start : UInt64)
    (l : List SCConfirmation) :
    (∃ scan, l.foldlM (scanConfirmation minConf) ⟨start, ∅⟩ = .ok scan) ↔
      Readable minConf l := by
  induction l using List.reverseRecOn with
  | nil => exact ⟨fun _ before c after h ↦ absurd h (by simp), fun _ ↦ ⟨_, rfl⟩⟩
  | append_singleton l c ih =>
    rw [foldlM_append]
    constructor
    · rintro ⟨scan', h⟩
      obtain ⟨scan, hscan, h⟩ := bind_eq_ok.mp h
      obtain ⟨scan'', hstep, -⟩ := bind_eq_ok.mp h
      have hs := Scanned.of_foldlM hscan
      intro before c' after hspl hlong hfld
      rcases eq_nil_or_concat' after with rfl | ⟨after, x, rfl⟩
      · obtain ⟨rfl, hc⟩ := append_inj' hspl rfl
        obtain rfl := singleton_inj.mp hc
        have hknw := scanConfirmation_isOk_iff.mp ⟨scan'', hstep⟩
        refine (hs.seen _ _).mp ?_
        by_contra hnew
        exact hknw ⟨hlong, hfld, eq_false_iff.mpr hnew⟩
      rw [← cons_append, ← List.append_assoc] at hspl
      obtain ⟨hl, -⟩ := append_inj' hspl rfl
      exact ih.mp ⟨scan, hscan⟩ before c' after hl hlong hfld
    intro hread
    obtain ⟨scan, hscan⟩ := ih.mpr fun before c' after hspl ↦
      hread before c' (after ++ [c]) (by rw [hspl, List.append_assoc, cons_append])
    have hs := Scanned.of_foldlM hscan
    obtain ⟨scan', hstep⟩ : ∃ scan', scanConfirmation minConf scan c = .ok scan' := by
      refine scanConfirmation_isOk_iff.mpr fun hbad ↦ ?_
      obtain ⟨hlong, hfld, hnew⟩ := hbad
      have hseen := (hs.seen c.key c.coinbase).mpr (hread l c [] rfl hlong hfld)
      rw [hnew] at hseen
      cases hseen
    exact ⟨scan', bind_eq_ok.mpr ⟨scan, hscan, bind_eq_ok.mpr ⟨scan', hstep, rfl⟩⟩⟩

theorem not_returns_of_max (hmax : record.maxHeaderNumber = maxUint64) (scan : ConfirmScan) :
    ¬ Returns (scanRecord minConf record) scan := by
  rintro ⟨n, hn⟩
  exact scanNumbers_ne_ok hmax n _ _ scan (hn n le_rfl)

/-- The scan of a record comes to an end exactly if its bound is not the greatest `uint64` and
the confirmations can be read. -/
theorem scan_ends_iff (minConf : ℕ) (record : SCRecord) :
    (∃ scan, Returns (scanRecord minConf record) scan) ↔
      record.maxHeaderNumber ≠ maxUint64 ∧ Readable minConf (pendingConfirmations record) := by
  constructor
  · rintro ⟨scan, hscan⟩
    have hmax : record.maxHeaderNumber ≠ maxUint64 := fun hmax ↦ not_returns_of_max hmax scan hscan
    refine ⟨hmax, (foldlM_scanConfirmation_isOk_iff minConf record.lastConfirmedNumber _).mp
      ⟨scan, ?_⟩⟩
    obtain ⟨n, hn⟩ := hscan
    have hret := hn (n + record.maxHeaderNumber.toNat + 2) (by omega)
    rwa [scanRecord, scanNumbers_eq hmax (by omega)] at hret
  rintro ⟨hmax, hread⟩
  obtain ⟨scan, hscan⟩ :=
    (foldlM_scanConfirmation_isOk_iff minConf record.lastConfirmedNumber _).mpr hread
  refine ⟨scan, record.maxHeaderNumber.toNat + 2, fun fuel hfuel ↦ ?_⟩
  rw [scanRecord, scanNumbers_eq hmax (by omega)]
  exact hscan

namespace Snapshot

/-- The summary of the loop in `calculateSCConfirmedNumber` is what the loop computes. -/
theorem calculateSCConfirmedNumber_eq_scan {minConf : ℕ} (rt : Runtime)
    (hmax : record.maxHeaderNumber ≠ maxUint64) {fuel : ℕ} (hfuel : record.maxHeaderNumber.toNat + 2 ≤ fuel) :
    calculateSCConfirmedNumber rt record minConf =
      scanRecord minConf record fuel >>= fun scan ↦
        .ok (trimPeriod record scan.confirmedNumber
          (confirmedCoinbases rt minConf scan.confirmedRecordMap)) := by
  rw [calculateSCConfirmedNumber, if_neg hmax, scanRecord, scanNumbers_eq hmax (by omega)]
  rfl

/-- The coinbase of a side chain confirms the number `2 ^ 64 - 1` in header 12. The scan of the
record does not end, and the loop of header 13 with it. -/
theorem scan_of_greatest_number :
    let c : SCConfirmation := ⟨9, 7, maxUint64, [[49], [48, 120, 98]]⟩
    ∃ s record,
      pairRun [sideChainHeaders ++ [.ofExtra 12 (confirmationsExtra [c])]] = .ok s ∧
      s.scRecordMap[(9 : Hash)]? = some record ∧
      (∀ minConf, ¬ ∃ scan, Returns (scanRecord minConf record) scan) ∧
      s.apply (fun _ ↦ .inOrder) .byNumber pairConfig [.ofExtra 13 .zero] = goHang := by
  intro c
  obtain ⟨s, hs, ⟨record, hrec, hmax⟩, hhang⟩ : ∃ s,
      pairRun [sideChainHeaders ++ [.ofExtra 12 (confirmationsExtra [c])]] = .ok s ∧
      (∃ record, s.scRecordMap[(9 : Hash)]? = some record ∧ record.maxHeaderNumber = maxUint64) ∧
      (s.apply (fun _ ↦ .inOrder) .byNumber pairConfig [.ofExtra 13 .zero]).map (fun _ ↦ ()) = goHang := by
    decide +kernel
  refine ⟨s, record, hs, hrec, fun minConf h ↦ h.elim (not_returns_of_max hmax), ?_⟩
  cases happly : s.apply (fun _ ↦ .inOrder) .byNumber pairConfig [.ofExtra 13 .zero] with
  | ok t =>
    rw [happly] at hhang
    cases hhang
  | error e =>
    rw [happly] at hhang
    cases hhang
    rfl

end Snapshot

end BjutEth.Alien
