import BjutEth.Alien.Issuance

namespace BjutEth.Alien

open Std Outcome ExtTreeMap List Option Nat

namespace Snapshot

variable {cfg : Config} {notice notice' : CCNotice} {hash : Hash} {charge : GasCharging} {header : Header}
  {number : UInt64} {coinbase : Address}

def chargeHeader (notice : CCNotice) (header : Header) : Go CCNotice := do
  let extra ← decodeExtra header
  extra.sideChainCharging.foldlM (addCharging header.coinbase) notice

def noticeStep (cfg : Config) (notice : CCNotice) (header : Header) : Go CCNotice := do
  let notice ← chargeHeader notice header
  return if isLoopEnd cfg header.number then
    settleNotice cfg header.number scNoticeClearDelayLoopCount (fun _ ↦ noticeTypeGasCharging) notice
  else notice

theorem noticeStep_of_applyHeader {rt : Runtime} {crypto : Crypto} {s t : Snapshot}
    (h : s.applyHeader rt crypto cfg header = .ok t) :
    noticeStep cfg s.localNotice header = .ok t.localNotice := by
  obtain ⟨-, extra, -, -, he, h⟩ := applyHeader_eq_ok h
  have hspl : subUpdates rt crypto cfg header extra =
      (subUpdates rt crypto cfg header extra).take 13 ++
        [fun s ↦ s.updateSnapshotBySCCharging cfg extra.sideChainCharging header.number header.coinbase,
          fun s ↦ .ok (s.updateSnapshotForExpired rt cfg header.number)] := rfl
  rw [hspl, foldlM_append] at h
  obtain ⟨before, hbef, h⟩ := bind_eq_ok.mp h
  obtain ⟨charged, hchd, h⟩ := bind_eq_ok.mp h
  cases h
  have hkept : before.localNotice = s.localNotice := by
    refine Ensures.foldlM (P := fun t ↦ t.localNotice = s.localNotice) _ rfl
      (fun u hu update hmem v hv ↦ Eq.trans ?_ hu) before hbef
    revert update
    simp only [subUpdates, List.take, forall_mem_cons]
    refine ⟨fun hv ↦ ?_, fun hv ↦ ?_, fun hv ↦ ?_, fun hv ↦ ?_, fun hv ↦ ?_, fun hv ↦ ?_, fun hv ↦ ?_,
      fun hv ↦ ?_, fun hv ↦ ?_, fun hv ↦ ?_, fun hv ↦ ?_, fun hv ↦ ?_, fun hv ↦ ?_,
      by simp⟩
    · exact kept localNotice (openHeader_frame hv) (fun _ ↦ rfl)
    · cases hv; rfl
    · exact kept localNotice (updateSnapshotByVotes_frame hv) (fun _ ↦ rfl)
    · exact kept localNotice (updateSnapshotByMPVotes_frame hv).1 (fun _ ↦ rfl)
    · cases hv; rfl
    · cases hv
      exact kept localNotice (updateSnapshotByProposals_frame u _ _) (fun _ ↦ rfl)
    · cases hv
      exact kept localNotice (updateSnapshotByDeclares_frame cfg u _ _) (fun _ ↦ rfl)
    · cases hv; rfl
    · cases hv; rfl
    · exact kept localNotice (updateSnapshotBySCConfirm_frame hv) (fun _ ↦ rfl)
    · cases hv
      exact kept localNotice (updateSnapshotByNoticeConfirm_frame cfg u _ _) (fun _ ↦ rfl)
    · exact kept localNotice (calculateProposalResult_frame hv) (fun _ ↦ rfl)
    · exact kept localNotice (checkCandidates_frame hv) (fun _ ↦ rfl)
  have hexp : (charged.updateSnapshotForExpired rt cfg header.number).localNotice =
      charged.localNotice :=
    kept localNotice (updateSnapshotForExpired_frame rt cfg charged _) (fun _ ↦ rfl)
  obtain ⟨notice, hntc, hchd⟩ := bind_eq_ok.mp hchd
  cases hchd
  rw [hkept] at hntc
  rw [hexp]
  exact bind_eq_ok.mpr ⟨notice, bind_eq_ok.mpr ⟨extra, he, hntc⟩, rfl⟩

/-- A charge with its record, of which headers that are no loop ends change only who
confirmed it. -/
structure Recorded (notice : CCNotice) (hash : Hash) (charge : GasCharging) (success : Bool)
    (number : UInt64) : Prop where
  charge : notice.currentCharging[hash]? = some charge
  record : ∃ cr, notice.confirmReceived[hash]? = some cr ∧ cr.success = success ∧ cr.number = number

section Record

variable {success : Bool}

theorem Recorded.addCharging {c : GasCharging} (h : Recorded notice hash charge success number)
    (hadd : addCharging coinbase notice c = .ok notice') :
    Recorded notice' hash charge success number := by
  obtain ⟨hchg, cr, hcr, hsuccess, hnum⟩ := h
  unfold Snapshot.addCharging at hadd
  by_cases heq : c.hash = hash
  · subst heq
    have hcon : notice.currentCharging.contains c.hash = true := by
      rw [ExtTreeMap.contains_iff_mem, mem_iff_isSome_getElem?, hchg]
      rfl
    simp only [hcon, if_true, hcr] at hadd
    cases hadd
    refine ⟨hchg, { cr with nRecord := cr.nRecord.insert coinbase true }, ?_, hsuccess, hnum⟩
    exact getElem?_insert_self
  have hne : compare c.hash hash ≠ .eq := fun h ↦ heq (Std.compare_eq_iff_eq.mp h)
  split_ifs at hadd with hcon
  · simp only at hadd
    split at hadd
    · cases hadd
    cases hadd
    refine ⟨hchg, cr, ?_, hsuccess, hnum⟩
    simp only [ExtTreeMap.getElem?_insert, if_neg hne, hcr]
  simp only [getElem?_insert_self] at hadd
  cases hadd
  refine ⟨?_, cr, ?_, hsuccess, hnum⟩
  · simp only [ExtTreeMap.getElem?_insert, if_neg hne, hchg]
  · simp only [ExtTreeMap.getElem?_insert, if_neg hne, hcr]

theorem Recorded.chargeHeader (h : Recorded notice hash charge success number)
    (hhd : chargeHeader notice header = .ok notice') :
    Recorded notice' hash charge success number := by
  obtain ⟨extra, -, hfold⟩ := bind_eq_ok.mp hhd
  exact Ensures.foldlM (P := fun notice ↦ Recorded notice hash charge success number) _ h
    (fun _ hn _ _ _ hadd ↦ hn.addCharging hadd) notice' hfold

theorem settleNotice_record (n : ℤ) (delay : UInt64) (type : NoticeCR → UInt64) :
    (settleNotice cfg n delay type notice).confirmReceived[hash]? =
      (notice.confirmReceived[hash]?).bind (settleNoticeCR cfg n delay type) :=
  getElem?_filterMap'

theorem settleNotice_charge {cr : NoticeCR} (hcr : notice.confirmReceived[hash]? = some cr) {n : ℤ}
    {delay : UInt64} (hkeep : noticeCleared cfg n delay cr = false) (type : NoticeCR → UInt64) :
    (settleNotice cfg n delay type notice).currentCharging[hash]? = notice.currentCharging[hash]? := by
  rw [settleNotice, getElem?_filter', hcr, any_some, hkeep]
  cases notice.currentCharging[hash]? <;> rfl

def ClearsAt (cfg : Config) (number : UInt64) (header : Header) : Prop :=
  isLoopEnd cfg header.number = true ∧
    number < bigUint64 header.number - cfg.maxSignerCount * scNoticeClearDelayLoopCount

theorem Recorded.noticeStep (h : Recorded notice hash charge true number)
    (hstep : noticeStep cfg notice header = .ok notice') :
    (ClearsAt cfg number header → notice'.confirmReceived[hash]? = none) ∧
      (¬ ClearsAt cfg number header → Recorded notice' hash charge true number) := by
  obtain ⟨mid, hmid, hstep⟩ := bind_eq_ok.mp hstep
  obtain ⟨hchg, cr, hcr, hsuccess, rfl⟩ := h.chargeHeader hmid
  cases hstep
  split_ifs with hend
  · have hcleared : noticeCleared cfg header.number scNoticeClearDelayLoopCount cr = true ↔
        ClearsAt cfg cr.number header := by
      simp [noticeCleared, ClearsAt, hend, hsuccess]
    constructor
    · intro hclr
      rw [settleNotice_record, hcr, bind_some, settleNoticeCR, if_pos (hcleared.mpr hclr)]
    intro hclr
    have hkeep : noticeCleared cfg header.number scNoticeClearDelayLoopCount cr = false :=
      Bool.eq_false_iff.mpr (fun h ↦ hclr (hcleared.mp h))
    refine ⟨?_, cr, ?_, hsuccess, rfl⟩
    · rw [settleNotice_charge hcr hkeep, hchg]
    rw [settleNotice_record, hcr, bind_some, settleNoticeCR, hkeep, hsuccess]
    simp
  · refine ⟨fun h ↦ absurd h.1 hend, fun _ ↦ ⟨hchg, cr, hcr, hsuccess, rfl⟩⟩

theorem Recorded.mark {cr : NoticeCR} (hchg : notice.currentCharging[hash]? = some charge)
    (hcr : notice.confirmReceived[hash]? = some cr) (hopen : cr.success = false)
    (hquo : noticeQuorum cfg ≤ cr.nRecord.size) (n : ℤ) (delay : UInt64) (type : NoticeCR → UInt64) :
    Recorded (settleNotice cfg n delay type notice) hash charge true (bigUint64 n) := by
  have hkeep : noticeCleared cfg n delay cr = false := by
    rw [noticeCleared, hopen, Bool.false_and]
  refine ⟨?_, ⟨cr.nRecord, bigUint64 n, type cr, true⟩, ?_, rfl, rfl⟩
  · rw [settleNotice_charge hcr hkeep, hchg]
  rw [settleNotice_record, hcr, bind_some, settleNoticeCR, hkeep, hopen]
  simp [hquo]

end Record

/-! What one record adds to the payments of a snapshot. -/

def withoutCharge (s : Snapshot) (hash : Hash) : Snapshot :=
  { s with localNotice := { s.localNotice with
      confirmReceived := s.localNotice.confirmReceived.erase hash } }

def chargeShare (cfg : Config) (s : Snapshot) (hash : Hash) (address : Address) : ℤ :=
  (s.calculateGasCharging cfg).getD address 0 -
    ((s.withoutCharge hash).calculateGasCharging cfg).getD address 0

def recordPayment (cfg : Config) (s : Snapshot) (address : Address) (hash : Hash) (cr : NoticeCR) : ℤ :=
  if cr.success && s.number = cr.number + scGasChargingDelayLoopCount * cfg.maxSignerCount then
    match s.localNotice.currentCharging[hash]? with
    | some charge => if charge.target = address then ether * charge.volume.toNat else 0
    | none => 0
  else 0

theorem getD_addBalance (balances : GoMap Address ℤ) (target address : Address) (amount : ℤ) :
    (addBalance balances target amount).getD address 0 =
      balances.getD address 0 + if target = address then amount else 0 := by
  rw [addBalance, GoMap.getD_insert]
  split_ifs with h
  · rw [h]
  · rw [add_zero]

theorem getD_calculateGasCharging (cfg : Config) (s : Snapshot) (address : Address) :
    (s.calculateGasCharging cfg).getD address 0 =
      s.localNotice.confirmReceived.sumBy (s.recordPayment cfg address) := by
  have hfold : ∀ (l : List (Hash × NoticeCR)) (paid : GoMap Address ℤ),
      (l.foldl (fun gasCharge e ↦
        if e.2.success && s.number = e.2.number + scGasChargingDelayLoopCount * cfg.maxSignerCount then
          match s.localNotice.currentCharging[e.1]? with
          | some charge => addBalance gasCharge charge.target (ether * charge.volume.toNat)
          | none => gasCharge
        else gasCharge) paid).getD address 0 =
      paid.getD address 0 + (l.map (fun e ↦ s.recordPayment cfg address e.1 e.2)).sum := by
    intro l
    induction l with
    | nil => simp
    | cons e l ih =>
      intro paid
      rw [foldl_cons, ih, map_cons, sum_cons, ← add_assoc]
      congr 1
      unfold recordPayment
      split_ifs
      · cases s.localNotice.currentCharging[e.1]? with
        | none => exact (add_zero _).symm
        | some charge => exact getD_addBalance _ _ _ _
      · exact (add_zero _).symm
  have h := hfold s.localNotice.confirmReceived.toList ∅
  rw [getD_empty, zero_add] at h
  exact h

theorem chargeShare_eq (cfg : Config) (s : Snapshot) (hash : Hash) (address : Address) :
    s.chargeShare cfg hash address =
      ((s.localNotice.confirmReceived[hash]?).map (s.recordPayment cfg address hash)).getD 0 := by
  have hrest : (s.withoutCharge hash).recordPayment cfg address = s.recordPayment cfg address := rfl
  rw [chargeShare, getD_calculateGasCharging, getD_calculateGasCharging, hrest]
  change _ - GoMap.sumBy (s.localNotice.confirmReceived.erase hash) _ = _
  cases hcr : s.localNotice.confirmReceived[hash]? with
  | none => rw [GoMap.erase_of_getElem?_eq_none _ hcr, sub_self]; rfl
  | some cr =>
    rw [GoMap.sumBy_eq_erase _ hcr, add_sub_cancel_right]
    rfl

theorem Recorded.chargeShare {s : Snapshot} (h : Recorded s.localNotice hash charge true number)
    (address : Address) : s.chargeShare cfg hash address =
      if s.number = number + cfg.maxSignerCount ∧ charge.target = address then
        ether * charge.volume.toNat
      else 0 := by
  obtain ⟨hchg, cr, hcr, hsuccess, rfl⟩ := h
  have hdelay : scGasChargingDelayLoopCount * cfg.maxSignerCount = cfg.maxSignerCount := one_mul _
  rw [chargeShare_eq, hcr, map_some, recordPayment, hsuccess, hchg, hdelay]
  by_cases hnum : s.number = cr.number + cfg.maxSignerCount
  · simp [hnum]
  · simp [hnum]

section Run

def noticeAfter (cfg : Config) (headers : List Header) (count : ℕ) : Go CCNotice :=
  (headers.take count).foldlM (noticeStep cfg) ⟨∅, ∅⟩

def HasRecord (cfg : Config) (headers : List Header) (hash : Hash) (count : ℕ) : Prop :=
  ∃ notice, noticeAfter cfg headers count = .ok notice ∧ hash ∈ notice.confirmReceived

/-- The record of a charge first has its quorum at the loop end with this number. -/
def ConfirmedAt (cfg : Config) (headers : List Header) (hash : Hash) (charge : GasCharging) (n : ℕ) :
    Prop :=
  ∃ before header after start notice cr, headers = before ++ header :: after ∧ n = before.length + 1 ∧
    isLoopEnd cfg header.number = true ∧ noticeAfter cfg headers before.length = .ok start ∧
    chargeHeader start header = .ok notice ∧ notice.currentCharging[hash]? = some charge ∧
    notice.confirmReceived[hash]? = some cr ∧ cr.success = false ∧
    noticeQuorum cfg ≤ cr.nRecord.size

variable {rt : UInt64 → Runtime} {crypto : Crypto} {now : UInt64} {genesis : Hash} {votes : List Vote}
  {lcrs : UInt64} {batches : List (List Header)} {s : Snapshot} {headers : List Header} {n k : ℕ}

theorem localNotice_newSnapshot (cfg : Config) (now : UInt64) (genesis : Hash) (votes : List Vote)
    (lcrs : UInt64) : (newSnapshot cfg now genesis votes lcrs).localNotice = ⟨∅, ∅⟩ :=
  foldl_keeps addGenesisVote localNotice (fun _ _ ↦ rfl) votes _

variable {done : List (List Header)} {before after : List Header} {m : ℕ} {last : CCNotice}

theorem length_flatten_le (h : done <+: batches) : done.flatten.length ≤ batches.flatten.length := by
  obtain ⟨rest, rfl⟩ := h
  rw [flatten_append, length_append]
  omega

section

variable (h : (newSnapshot cfg now genesis votes lcrs).applyAll rt crypto cfg batches = .ok s)

include h

theorem number_of_applyAll : s.number = .ofNat batches.flatten.length := by
  rw [(applyAll_contiguous h).2, number_newSnapshot, zero_add]

theorem noticeAfter_of_applyAll :
    noticeAfter cfg batches.flatten batches.flatten.length = .ok s.localNotice := by
  have hpart := applyAll_part localNotice (noticeStep cfg) (fun _ ↦ rfl) (fun _ _ _ ↦ rfl)
    (fun _ _ _ ↦ noticeStep_of_applyHeader) h
  rw [localNotice_newSnapshot] at hpart
  rw [noticeAfter, take_length]
  exact hpart

end

theorem noticeAfter_of_prefix (hpre : done <+: batches)
    (h : (newSnapshot cfg now genesis votes lcrs).applyAll rt crypto cfg done = .ok s) :
    noticeAfter cfg batches.flatten done.flatten.length = .ok s.localNotice := by
  obtain ⟨rest, rfl⟩ := hpre
  have hdone := noticeAfter_of_applyAll h
  rw [noticeAfter, take_length] at hdone
  rw [noticeAfter, flatten_append, take_left, hdone]

theorem noticeAfter_succ {header : Header} (h : headers = before ++ header :: after) :
    noticeAfter cfg headers (before.length + 1) =
      noticeAfter cfg headers before.length >>= fun notice ↦ noticeStep cfg notice header := by
  subst h
  have htake : (before ++ header :: after).take (before.length + 1) = before ++ [header] := by
    rw [take_append, take_of_length_le (le_succ _), Nat.add_sub_cancel_left]
    rfl
  rw [noticeAfter, noticeAfter, htake]
  simp

theorem exists_noticeAfter (h : noticeAfter cfg headers m = .ok last) (hk : k ≤ m) :
    ∃ notice, noticeAfter cfg headers k = .ok notice := by
  rw [noticeAfter, ← add_sub_of_le hk, take_add, foldlM_append] at h
  obtain ⟨notice, hntc, -⟩ := bind_eq_ok.mp h
  exact ⟨notice, hntc⟩

theorem split_at (headers : List Header) {k : ℕ} (hk : k < headers.length) :
    ∃ before header after, headers = before ++ header :: after ∧ before.length = k := by
  refine ⟨headers.take k, headers[k], headers.drop (k + 1), ?_, ?_⟩
  · rw [getElem_cons_drop, take_append_drop]
  rw [length_take]
  omega

theorem Recorded.hasRecord {notice : CCNotice} {success : Bool}
    (h : Recorded notice hash charge success number)
    (hk : noticeAfter cfg headers k = .ok notice) : HasRecord cfg headers hash k := by
  obtain ⟨-, cr, hcr, -⟩ := h
  refine ⟨notice, hk, ?_⟩
  rw [mem_iff_isSome_getElem?, hcr]
  rfl

theorem Recorded.later {notice : CCNotice} (h : Recorded notice hash charge true number)
    (hk : noticeAfter cfg headers k = .ok notice) (hm : noticeAfter cfg headers m = .ok last) (hkm : k ≤ m)
    (hlen : m ≤ headers.length)
    (hkeep : ∀ before header after mid, headers = before ++ header :: after → k ≤ before.length →
      before.length < m → noticeAfter cfg headers before.length = .ok mid →
      Recorded mid hash charge true number → ¬ ClearsAt cfg number header) :
    Recorded last hash charge true number := by
  induction m, hkm using le_induction generalizing last with
  | base =>
    cases hk.symm.trans hm
    exact h
  | succ m hkm ih =>
    obtain ⟨before, header, after, hspl, rfl⟩ := split_at headers (lt_of_succ_le hlen)
    rw [noticeAfter_succ hspl] at hm
    obtain ⟨mid, hmid, hstep⟩ := bind_eq_ok.mp hm
    have hrecorded := ih hmid (by omega)
      (fun b header a mid hs hle hlt ↦ hkeep b header a mid hs hle (by omega))
    exact (hrecorded.noticeStep hstep).2 (hkeep before header after mid hspl hkm (by omega) hmid hrecorded)

theorem Recorded.not_clearsAt {mid : CCNotice} (h : Recorded mid hash charge true number)
    (hspl : headers = before ++ header :: after) (hmid : noticeAfter cfg headers before.length = .ok mid)
    (hnext : HasRecord cfg headers hash (before.length + 1)) : ¬ ClearsAt cfg number header := by
  intro hclr
  obtain ⟨notice, hntc, hmem⟩ := hnext
  rw [noticeAfter_succ hspl, hmid] at hntc
  have hnone := (h.noticeStep hntc).1 hclr
  rw [mem_iff_isSome_getElem?, hnone] at hmem
  cases hmem

theorem Recorded.later_of_hasRecord {notice : CCNotice} (h : Recorded notice hash charge true number)
    (hk : noticeAfter cfg headers k = .ok notice) (hm : noticeAfter cfg headers m = .ok last) (hkm : k ≤ m)
    (hlen : m ≤ headers.length) (hlives : ∀ i, k ≤ i → i ≤ m → HasRecord cfg headers hash i) :
    Recorded last hash charge true number :=
  h.later hk hm hkm hlen (fun _ _ _ _ hspl hle hlt hmid hrecorded ↦
    hrecorded.not_clearsAt hspl hmid (hlives _ (by omega) (by omega)))

/-- A charge whose record reached its quorum at header `n` of a run is in the payments
of the snapshot one loop later, and of no other as long as the record is there. -/
structure PaidOnce (rt : UInt64 → Runtime) (crypto : Crypto) (cfg : Config) (start : Snapshot)
    (batches : List (List Header)) (hash : Hash) (charge : GasCharging) (n : ℕ) : Prop where
  kept : ∀ k, n ≤ k → k ≤ n + cfg.maxSignerCount.toNat → k ≤ batches.flatten.length →
    HasRecord cfg batches.flatten hash k
  paid : ∀ done t, done <+: batches → start.applyAll rt crypto cfg done = .ok t →
    done.flatten.length = n + cfg.maxSignerCount.toNat → ∀ address, t.chargeShare cfg hash address =
      if charge.target = address then ether * charge.volume.toNat else 0
  once : ∀ done t, done <+: batches → start.applyAll rt crypto cfg done = .ok t →
    done.flatten.length ≠ n + cfg.maxSignerCount.toNat →
    (∀ k, min done.flatten.length n ≤ k → k ≤ max done.flatten.length n →
      HasRecord cfg batches.flatten hash k) → ∀ address, t.chargeShare cfg hash address = 0

theorem isLoopEnd_iff {m : ℤ} (hm : bigUint64 m = .ofNat k) (hk : k + 1 < 2 ^ 64) :
    isLoopEnd cfg m = true ↔ (k + 1) % cfg.maxSignerCount.toNat = 0 := by
  have hsucc : (UInt64.ofNat k + 1).toNat = k + 1 := by
    rw [UInt64.toNat_add, UInt64.toNat_ofNat_of_lt' (by omega : k < 2 ^ 64)]
    exact mod_eq_of_lt hk
  rw [isLoopEnd, hm, beq_iff_eq, ← UInt64.toNat_inj, UInt64.toNat_mod, hsucc]
  rfl

theorem not_loopEnd_between {M n k : ℕ} (hn : (n + 1) % M = 0) (hlt : n < k) (hk : k < n + M) :
    (k + 1) % M ≠ 0 := by
  intro h
  obtain ⟨a, ha⟩ := dvd_of_mod_eq_zero hn
  obtain ⟨b, hb⟩ := dvd_of_mod_eq_zero h
  have hab : a < b := Nat.lt_of_mul_lt_mul_left (a := M) (by omega)
  have hle : M * (a + 1) ≤ M * b := Nat.mul_le_mul_left M hab
  rw [Nat.mul_add] at hle
  omega

theorem number_of_split {header : Header} (hcont : isContiguous 0 headers = true)
    (hspl : headers = before ++ header :: after) :
    bigUint64 header.number = .ofNat (before.length + 1) := by
  rw [hspl] at hcont
  rw [number_of_isContiguous hcont, zero_add]

theorem ConfirmedAt.recorded (h : ConfirmedAt cfg headers hash charge n)
    (hcont : isContiguous 0 headers = true) :
    1 ≤ n ∧ n ≤ headers.length ∧ ((n + 1 < 2 ^ 64 → (n + 1) % cfg.maxSignerCount.toNat = 0)) ∧
      ∃ notice, noticeAfter cfg headers n = .ok notice ∧
        Recorded notice hash charge true (.ofNat n) := by
  obtain ⟨before, header, after, start, notice, cr, hspl, rfl, hend, hst, hntc, hchg, hcr,
    hopen, hquo⟩ := h
  have hnum := number_of_split hcont hspl
  refine ⟨by omega, ?_, fun hlt ↦ (isLoopEnd_iff hnum hlt).mp hend, ?_⟩
  · rw [hspl, length_append, length_cons]
    omega
  refine ⟨_, ?_, hnum ▸ Recorded.mark hchg hcr hopen hquo header.number
    scNoticeClearDelayLoopCount (fun _ ↦ noticeTypeGasCharging)⟩
  rw [noticeAfter_succ hspl]
  refine bind_eq_ok.mpr ⟨start, hst, bind_eq_ok.mpr ⟨notice, hntc, ?_⟩⟩
  rw [hend]
  rfl

theorem ConfirmedAt.not_recorded (h : ConfirmedAt cfg headers hash charge n) (hk : k < n)
    (hlives : ∀ i, k ≤ i → i ≤ n → HasRecord cfg headers hash i) {notice : CCNotice}
    (hntc : noticeAfter cfg headers k = .ok notice) {charge' : GasCharging} :
    ¬ Recorded notice hash charge' true number := by
  intro hrecorded
  obtain ⟨before, header, after, start, charged, cr, hspl, rfl, -, hst, hchd, -, hcr, hopen, -⟩ := h
  have hlen : before.length ≤ headers.length := by
    rw [hspl, length_append]
    omega
  have hlast := hrecorded.later_of_hasRecord hntc hst (by omega) hlen
    (fun i hi hi' ↦ hlives i hi (by omega))
  obtain ⟨-, cr', hcr', hsuccess, -⟩ := hlast.chargeHeader hchd
  rw [hcr] at hcr'
  cases hcr'
  rw [hopen] at hsuccess
  cases hsuccess

theorem clearsAt_iff (hcont : isContiguous 0 headers = true) (hlen : headers.length + 1 < 2 ^ 64)
    (hspl : headers = before ++ header :: after) (hend : (n + 1) % cfg.maxSignerCount.toNat = 0)
    (hn : n ≤ before.length) (hle : before.length + 1 ≤ n + cfg.maxSignerCount.toNat) :
    ClearsAt cfg (.ofNat n) header ↔ before.length + 1 = n + cfg.maxSignerCount.toNat ∧
      UInt64.ofNat n < .ofNat (n + cfg.maxSignerCount.toNat) -
        cfg.maxSignerCount * scNoticeClearDelayLoopCount := by
  have hnum := number_of_split hcont hspl
  have hlength : before.length + 1 ≤ headers.length := by
    rw [hspl, length_append, length_cons]
    omega
  rw [ClearsAt, isLoopEnd_iff hnum (by omega), hnum]
  constructor
  · rintro ⟨hloop, hlt⟩
    have hlast : before.length + 1 = n + cfg.maxSignerCount.toNat := by
      by_contra hne
      exact not_loopEnd_between hend (by omega) (by omega) hloop
    exact ⟨hlast, hlast ▸ hlt⟩
  rintro ⟨hlast, hlt⟩
  refine ⟨?_, hlast ▸ hlt⟩
  rw [hlast, Nat.add_right_comm, add_mod_right, hend]

/-- In a run from genesis, whose numbers fit their type, a charge is paid once exactly
where the loop end after the one that marks its record does not clear it. -/
theorem charge_paid_once_iff (rt : UInt64 → Runtime) (crypto : Crypto) (cfg : Config) (now : UInt64)
    (genesis : Hash) (votes : List Vote) (lcrs : UInt64) (batches : List (List Header)) (s : Snapshot)
    (hrun : (newSnapshot cfg now genesis votes lcrs).applyAll rt crypto cfg batches = .ok s)
    (hlen : batches.flatten.length + 1 < 2 ^ 64) (hash : Hash) (charge : GasCharging) (n : ℕ)
    (hn : ConfirmedAt cfg batches.flatten hash charge n) :
    PaidOnce rt crypto cfg (newSnapshot cfg now genesis votes lcrs) batches hash charge n ↔
      (n + cfg.maxSignerCount.toNat ≤ batches.flatten.length →
        ¬ UInt64.ofNat n < .ofNat (n + cfg.maxSignerCount.toNat) -
          cfg.maxSignerCount * scNoticeClearDelayLoopCount) := by
  have hcont : isContiguous 0 batches.flatten = true := by
    have h := (applyAll_contiguous hrun).1
    rwa [number_newSnapshot] at h
  have hlast := noticeAfter_of_applyAll hrun
  obtain ⟨hpos, hle, hend, marked, hmarked, hrecorded⟩ := hn.recorded hcont
  replace hend := hend (by omega)
  have hM : 0 < cfg.maxSignerCount.toNat :=
    Nat.pos_of_ne_zero (fun h ↦ cfg.maxSignerCount_ne (UInt64.toNat_inj.mp h))
  constructor
  · intro hpaid hlong htest
    obtain ⟨before, header, after, hspl, hbef⟩ :=
      split_at batches.flatten (k := n + cfg.maxSignerCount.toNat - 1) (by omega)
    obtain ⟨mid, hmid⟩ := exists_noticeAfter hlast (k := before.length) (by omega)
    have hmid' := hrecorded.later_of_hasRecord hmarked hmid (by omega) (by omega)
      (fun i hi hi' ↦ hpaid.kept i hi (by omega) (by omega))
    refine hmid'.not_clearsAt hspl hmid (hpaid.kept _ (by omega) (by omega) (by omega)) ?_
    exact (clearsAt_iff hcont hlen hspl hend (by omega) (by omega)).mpr ⟨by omega, htest⟩
  intro htest
  have hkept : ∀ k, n ≤ k → k ≤ n + cfg.maxSignerCount.toNat → k ≤ batches.flatten.length →
      ∃ notice, noticeAfter cfg batches.flatten k = .ok notice ∧
        Recorded notice hash charge true (.ofNat n) := by
    intro k hk hk' hklen
    obtain ⟨notice, hntc⟩ := exists_noticeAfter hlast hklen
    refine ⟨notice, hntc, hrecorded.later hmarked hntc hk hklen ?_⟩
    intro before header after _ hspl hb hb' _ _ hclr
    obtain ⟨hlast, hlt⟩ :=
      (clearsAt_iff hcont hlen hspl hend hb (by omega)).mp hclr
    exact htest (by omega) hlt
  refine ⟨fun k hk hk' hklen ↦ ?_, fun done t hdone ht hk address ↦ ?_,
    fun done t hdone ht hk hlives address ↦ ?_⟩
  · obtain ⟨notice, hntc, hrec⟩ := hkept k hk hk' hklen
    exact hrec.hasRecord hntc
  · have hntc := noticeAfter_of_prefix hdone ht
    have hdonelen := length_flatten_le hdone
    obtain ⟨_, hntc', hrec⟩ := hkept _ (by omega) hk.le hdonelen
    cases hntc.symm.trans hntc'
    rw [hrec.chargeShare, number_of_applyAll ht, hk, UInt64.ofNat_add, UInt64.ofNat_toNat]
    simp only [true_and]
  have hntc := noticeAfter_of_prefix hdone ht
  have hdonelen := length_flatten_le hdone
  by_cases hbef : done.flatten.length < n
  · -- a payment needs a marked record, and this one is not marked yet
    rw [chargeShare_eq]
    cases hcr : t.localNotice.confirmReceived[hash]? with
    | none => rfl
    | some cr =>
      rw [map_some, recordPayment]
      split_ifs with hpays
      · cases hchg : t.localNotice.currentCharging[hash]? with
        | none => rfl
        | some charge' =>
          rw [Bool.and_eq_true] at hpays
          exact absurd ⟨hchg, cr, hcr, hpays.1, rfl⟩ (hn.not_recorded hbef
            (fun i hi hi' ↦ hlives i (by omega) (by omega)) hntc)
      · rfl
  have hrec := hrecorded.later_of_hasRecord hmarked hntc (by omega) hdonelen
    (fun i hi hi' ↦ hlives i (by omega) (by omega))
  rw [hrec.chargeShare, number_of_applyAll ht, if_neg]
  rintro ⟨hnum, -⟩
  refine hk ?_
  have h := congrArg UInt64.toNat hnum
  rw [UInt64.toNat_add, UInt64.toNat_ofNat_of_lt' (by omega : done.flatten.length < 2 ^ 64),
    UInt64.toNat_ofNat_of_lt' (by omega : n < 2 ^ 64)] at h
  have hMlt := cfg.maxSignerCount.toNat_lt
  omega

end Run

def chargingBlock (signer : Address) (n : ℕ) : Header :=
  { Header.ofExtra n { HeaderExtra.zero with sideChainCharging := [⟨4, 10, 7⟩] } with coinbase := signer }

def openRecord (confirmers : List Address) : NoticeCR :=
  ⟨(∅ : GoMap Address Bool).insertMany (confirmers.map (·, true)), 0, noticeTypeGasCharging, false⟩

def openNotice (confirmers : List Address) : CCNotice :=
  ⟨(∅ : GoMap Hash GasCharging).insert 7 ⟨4, 10, 7⟩,
    (∅ : GoMap Hash NoticeCR).insert 7 (openRecord confirmers)⟩

/-- One signer, whose charge in header 47 is paid in the snapshot of header 48. -/
theorem charge_paid_once_at_47 :
    let cfg : Config := { Config.small with maxSignerCount := 1, maxSignerCount_ne := by decide }
    let headers : List Header := (List.range 46).map (fun i ↦ .ofExtra (i + 1) .zero)
    PaidOnce (fun _ ↦ .inOrder) .byNumber cfg (newSnapshot cfg 0 0 [⟨1, 1, 5⟩] 10)
      [headers ++ [chargingBlock 0 47], [.ofExtra 48 .zero]] 7 ⟨4, 10, 7⟩ 47 := by
  intro cfg headers
  have hok : ((newSnapshot cfg 0 0 [⟨1, 1, 5⟩] 10).applyAll (fun _ ↦ .inOrder) .byNumber cfg
      [headers ++ [chargingBlock 0 47], [.ofExtra 48 .zero]]).isOk = true := by decide +kernel
  obtain ⟨s, hs⟩ := exists_of_isOk hok
  refine (charge_paid_once_iff _ _ _ _ _ _ _ _ s hs (by decide) 7 _ 47 ?_).mpr (fun _ ↦ by decide)
  refine ⟨headers, chargingBlock 0 47, [.ofExtra 48 .zero], ⟨∅, ∅⟩, openNotice [0], openRecord [0],
    rfl, rfl, ?_⟩
  decide +kernel

/-- Early in a chain of three signers the number to compare with wraps around, and the
record that was marked at header 5 is removed in the snapshot that should pay it. -/
theorem charge_cleared_unpaid :
    let crypto := Crypto.signing (.ofNat 160)
    let headers : List Header :=
      (List.range 5).map (fun i ↦ chargingBlock (.ofNat 160 (i + 1)) (i + 1)) ++
        [6, 7, 8].map (fun i ↦ { Header.ofExtra i .zero with coinbase := .ofInt 160 i })
    ConfirmedAt .small headers 7 ⟨4, 10, 7⟩ 5 ∧
    ∃ s, smallStart.applyAll (fun _ ↦ .inOrder) crypto .small [headers] =
        .ok s ∧ s.number = 5 + 3 ∧ s.chargeShare .small 7 4 = 0 ∧ 7 ∉ s.localNotice.confirmReceived := by
  intro crypto headers
  refine ⟨⟨headers.take 4, chargingBlock 5 5, headers.drop 5, openNotice [1, 2, 3, 4],
    openNotice [1, 2, 3, 4, 5], openRecord [1, 2, 3, 4, 5], rfl, rfl, ?_⟩, ?_⟩
  · decide +kernel
  · decide +kernel

end Snapshot

end BjutEth.Alien
