import BjutEth.Alien.ProposalConflict
import BjutEth.Alien.Steps
import BjutEth.Lib.Escrow

namespace BjutEth.Alien

open Std Outcome List ExtTreeMap UInt64 Escrow

def Proposal.terms (p : Proposal) : Proposal := { p with declares := [] }

namespace HeaderStep

def carried (x : HeaderStep) : List (Hash × Proposal) :=
  x.extra.currentBlockProposals.map (fun p ↦
    (p.hash, { p with receivedNumber := x.header.number, declares := [] }))

end HeaderStep

namespace Snapshot

variable {crypto : Crypto} {cfg : Config} {s t u : Snapshot} {header : Header}

def terms (s : Snapshot) : GoMap Hash Proposal := s.proposals.map (fun _ p ↦ p.terms)

def ledger (s : Snapshot) : GoMap Hash Proposal × GoMap UInt64 (GoMap Address ℤ) :=
  (s.terms, s.proposalRefund)

section Step

variable {rt : Runtime} {x : HeaderStep} {n : ℤ}

theorem terms_addDeclare (cfg : Config) (n : ℤ) (s : Snapshot) (d : Declare) :
    (addDeclare cfg n s d).terms = s.terms := by
  refine ExtTreeMap.ext_getElem? (fun key ↦ ?_)
  unfold terms addDeclare
  simp only [ExtTreeMap.getElem?_map]
  split_ifs
  · rw [ExtTreeMap.getElem?_map, Option.map_map]
    congr 1
    funext p
    split_ifs <;> rfl
  · rfl

theorem ledger_updateSnapshotByDeclares (cfg : Config) (s : Snapshot) (declares : List Declare)
    (n : ℤ) : (s.updateSnapshotByDeclares cfg declares n).ledger = s.ledger := by
  refine foldl_keeps (addDeclare cfg n) ledger (fun s d ↦ ?_) declares s
  exact congrArg (·, s.proposalRefund) (terms_addDeclare cfg n s d)

section

variable (hx : IsStep rt crypto cfg x)

include hx

theorem IsStep.ledger_before : x.before.ledger = x.start.ledger :=
  hx.before_kept ledger (fun _ ↦ rfl) (fun _ ↦ rfl) (fun _ _ _ ↦ rfl)

theorem IsStep.ledger_decided : x.decided.ledger = x.stored.ledger := by
  refine Ensures.foldlM (P := fun t ↦ t.ledger = x.stored.ledger) _ rfl
    (fun u hu update hmem v hv ↦ Eq.trans ?_ hu) x.decided hx.decided
  revert update
  simp only [subUpdates, List.drop, List.take, forall_mem_cons]
  refine ⟨fun hv ↦ ?_, fun hv ↦ ?_, fun hv ↦ ?_, fun hv ↦ ?_, fun hv ↦ ?_, by simp⟩
  · cases hv
    exact ledger_updateSnapshotByDeclares cfg u _ _
  · cases hv; rfl
  · cases hv; rfl
  · exact kept ledger (updateSnapshotBySCConfirm_frame hv) (fun _ ↦ rfl)
  · cases hv
    exact kept ledger (updateSnapshotByNoticeConfirm_frame cfg u _ _) (fun _ ↦ rfl)

theorem IsStep.ledger_after : x.after.ledger = x.result.ledger :=
  hx.after_kept ledger (fun _ ↦ rfl) (fun _ ↦ rfl) (fun _ ↦ rfl)

end

theorem terms_stored (hsgl : x.extra.currentBlockProposals.length ≤ 1) :
    x.stored.terms = offer x.before.terms x.carried := by
  refine ExtTreeMap.ext_getElem? (fun key ↦ ?_)
  unfold terms HeaderStep.stored HeaderStep.carried
  rw [ExtTreeMap.getElem?_map, getElem?_updateSnapshotByProposals]
  match x.extra.currentBlockProposals, hsgl with
  | [], _ => simp [offer]
  | [p], _ =>
    simp only [map_cons, map_nil, offer, foldl_cons, foldl_nil, GoMap.get_insert]
    by_cases hkey : key = p.hash
    · simp [hkey, Proposal.terms]
    · simp [hkey, Ne.symm hkey]

theorem getElem?_proposals_foldlM {order : List (Hash × Proposal)}
    (h : order.foldlM (settleProposal cfg n) s = .ok t) (key : Hash) (p : Proposal) :
    t.proposals[key]? = some p ↔ s.proposals[key]? = some p ∧
      ∀ e ∈ order, e.1 = key → e.2.dueNumber cfg ≠ bigUint64 n := by
  induction order generalizing s with
  | nil =>
    cases h
    simp
  | cons e order ih =>
    obtain ⟨u, hu, h⟩ := bind_eq_ok.mp h
    rw [ih h]
    by_cases hdue : e.2.dueNumber cfg = bigUint64 n
    · obtain ⟨-, rfl⟩ := settleProposal_eq_ok hdue hu
      change (s.proposals.erase e.1)[key]? = some p ∧ _ ↔ _
      rw [getElem?_erase]
      by_cases hkey : e.1 = key
      · simp [hkey, hdue]
      · simp [hkey]
    rw [settleProposal_of_not_due hdue] at hu
    cases hu
    simp [hdue]

def dueAt (cfg : Config) (p : Proposal) : ℕ := (p.dueNumber cfg).toNat

theorem terms_calculateProposalResult (h : s.calculateProposalResult rt cfg n = .ok t) :
    t.terms = close (dueAt cfg) (bigUint64 n).toNat s.terms := by
  refine ExtTreeMap.ext_getElem? (fun key ↦ Option.ext (fun v ↦ ?_))
  rw [getElem?_close]
  unfold terms
  rw [ExtTreeMap.getElem?_map, ExtTreeMap.getElem?_map, Option.map_eq_some_iff,
    Option.map_eq_some_iff]
  have hloop := getElem?_proposals_foldlM h key
  constructor
  · rintro ⟨p, hp, rfl⟩
    obtain ⟨hold, hdue⟩ := (hloop p).mp hp
    refine ⟨⟨p, hold, rfl⟩, fun heq ↦ ?_⟩
    have hmem : (key, p) ∈ rt.rangeOrder s.proposals.toList :=
      (rt.rangeOrder_perm _).mem_iff.mpr (mem_toList_iff_getElem?_eq_some.mpr hold)
    exact hdue (key, p) hmem rfl (UInt64.toNat_inj.mp heq)
  rintro ⟨⟨p, hold, rfl⟩, hne⟩
  refine ⟨p, (hloop p).mpr ⟨hold, fun e he hkey hdue ↦ ?_⟩, rfl⟩
  have hmem := mem_toList_iff_getElem?_eq_some.mp ((rt.rangeOrder_perm _).mem_iff.mp he)
  rw [hkey, hold] at hmem
  cases hmem
  exact hne (congrArg UInt64.toNat hdue)

end Step

section Book

variable {rt : UInt64 → Runtime} {steps : List HeaderStep}

/-- The refinement: while headers carry at most one proposal, the pending proposals
are an escrow book of what the headers carried. -/
theorem Steps.terms_eq_book (h : Steps rt crypto cfg s steps t) (hs : s.proposals = ∅)
    (hsgl : ∀ x ∈ steps, x.extra.currentBlockProposals.length ≤ 1) (hlen : steps.length < 2 ^ 64) :
    t.terms = book (dueAt cfg) (steps.map (·.carried)) := by
  induction h with
  | nil =>
    unfold terms
    rw [hs]
    refine ExtTreeMap.ext_getElem? (fun key ↦ ?_)
    simp [book]
  | copy _ ih => exact ih hsgl hlen
  | advance _ _ _ ih => exact ih hsgl hlen
  | @header steps x hsts hnum hx ih =>
    rw [length_cons] at hlen
    have hst := ih (fun y hy ↦ hsgl y (mem_cons_of_mem x hy)) (by omega)
    have haft : x.after.terms = x.result.terms := congrArg Prod.fst hx.ledger_after
    have hdec : x.decided.terms = x.stored.terms := congrArg Prod.fst hx.ledger_decided
    have hbef : x.before.terms = x.start.terms := congrArg Prod.fst hx.ledger_before
    have hn : (bigUint64 x.header.number).toNat = steps.length + 1 := by
      change x.number.toNat = _
      rw [hnum, toNat_ofNat_of_lt' hlen]
    rw [haft, terms_calculateProposalResult hx.result, hdec,
      terms_stored (hsgl x mem_cons_self), hbef, hst, hn, map_cons, book,
      length_map]

theorem Steps.opened_iff (h : Steps rt crypto cfg s steps t) (hlen : steps.length < 2 ^ 64) (i : ℕ)
    (key : Hash) (v : Proposal) : Opened (steps.map (·.carried)) i key v ↔
      ∃ x ∈ steps, x.number.toNat = i ∧ (key, v) ∈ x.carried := by
  induction h with
  | nil => simp [Opened]
  | copy _ ih => exact ih hlen
  | advance _ _ _ ih => exact ih hlen
  | @header steps x hsts hnum hx ih =>
    rw [length_cons] at hlen
    have hn : x.number.toNat = steps.length + 1 := by
      rw [hnum, toNat_ofNat_of_lt' hlen]
    rw [map_cons, Opened, ih (by omega), length_map]
    simp only [mem_cons, exists_eq_or_imp, hn]
    rw [eq_comm (a := i)]

/-- Headers that carry at most one proposal each, under hashes of their own, with due
numbers in range. -/
structure OneProposal (cfg : Config) (headers : List Header) : Prop where
  single : ∀ header ∈ headers, (extraOf header).currentBlockProposals.length ≤ 1
  fresh : (headers.flatMap (fun header ↦
    (extraOf header).currentBlockProposals.map (·.hash))).Nodup
  inRange : ∀ header ∈ headers, ∀ p ∈ (extraOf header).currentBlockProposals,
    (bigUint64 header.number).toNat + p.validationLoopCnt.toNat * cfg.maxSignerCount.toNat + 1 <
      2 ^ 64
  short : headers.length < 2 ^ 64

variable {p : Proposal} {y : HeaderStep}

theorem dueAt_of_inRange {x : HeaderStep}
    (hrange : x.number.toNat + p.validationLoopCnt.toNat * cfg.maxSignerCount.toNat + 1 < 2 ^ 64) :
    dueAt cfg { p with receivedNumber := x.header.number, declares := [] } =
      x.number.toNat + p.validationLoopCnt.toNat * cfg.maxSignerCount.toNat + 1 := by
  change (x.number + p.validationLoopCnt * cfg.maxSignerCount + 1).toNat = _
  rw [UInt64.toNat_add, UInt64.toNat_add, UInt64.toNat_mul, toNat_one]
  rw [Nat.mod_eq_of_lt (a := p.validationLoopCnt.toNat * _) (by omega),
    Nat.mod_eq_of_lt (a := x.number.toNat + _) (by omega), Nat.mod_eq_of_lt (by omega)]

def visits (rt : UInt64 → Runtime) (y : HeaderStep) : List (Hash × Proposal) :=
  (rt y.number).rangeOrder y.decided.proposals.toList

/-- A header refunds a proposal: one round of the loop over the results adds to its
proposer exactly the deposit, and the rent of a rejected rent or of one whose side
chain is gone. -/
def Refunds (rt : UInt64 → Runtime) (cfg : Config) (y : HeaderStep) (p : Proposal) : Prop :=
  ∃ front q back u v, visits rt y = front ++ (p.hash, q) :: back ∧
    front.foldlM (settleProposal cfg y.header.number) (y.decided.expireRefund cfg y.header.number) =
      .ok u ∧
    u.settleProposal cfg y.header.number (p.hash, q) = .ok v ∧
    back.foldlM (settleProposal cfg y.header.number) v = .ok y.result ∧
    ∀ a, refundOf y.header.number v a = refundOf y.header.number u a +
      if p.proposer = a then p.currentDeposit +
        if p.proposalType = proposalTypeRentSideChain ∧
          ¬ (u.isApproved q = true ∧ p.scHash ∈ u.scRecordMap) then p.rentFee else 0
      else 0

theorem Steps.fresh {headers : List Header} (h : Steps rt crypto cfg s steps t)
    (hmap : steps.reverse.map (·.header) = headers) (hone : OneProposal cfg headers) :
    ((steps.map (·.carried)).flatten.map (·.1)).Nodup := by
  have hkeys : (steps.map (·.carried)).flatten.map (·.1) =
      (steps.map (·.header)).flatMap (fun header ↦
        (extraOf header).currentBlockProposals.map (·.hash)) := by
    rw [map_flatten, List.map_map, flatMap_map]
    refine flatMap_congr (fun x hx ↦ ?_)
    rw [h.extra_eq hx]
    simp [HeaderStep.carried]
  have hperm : (steps.map (·.header)).Perm headers := by
    rw [← hmap, map_reverse]
    exact (reverse_perm _).symm
  rw [hkeys]
  exact (hperm.flatMap_right _).nodup_iff.mpr hone.fresh

theorem dueAt_terms (p : Proposal) : dueAt cfg p.terms = (p.dueNumber cfg).toNat := rfl

theorem owed_eq_of_terms {approved : Proposal → Bool} {records : GoMap Hash SCRecord} {q : Proposal} {n : ℤ}
    (h : q.terms = { p with receivedNumber := n, declares := [] }) :
    owed approved q records = p.currentDeposit +
      if p.proposalType = proposalTypeRentSideChain ∧ ¬ (approved q = true ∧ p.scHash ∈ records) then
        p.rentFee else 0 := by
  have hdeposit : q.currentDeposit = p.currentDeposit := (congrArg Proposal.currentDeposit h :)
  have htype : q.proposalType = p.proposalType := (congrArg Proposal.proposalType h :)
  have hsc : q.scHash = p.scHash := (congrArg Proposal.scHash h :)
  have hfee : q.rentFee = p.rentFee := (congrArg Proposal.rentFee h :)
  unfold owed rents enacts
  rw [hdeposit, htype, hsc, hfee]
  refine congrArg (p.currentDeposit + ·) (if_congr ?_ rfl rfl)
  by_cases hrent : p.proposalType = proposalTypeRentSideChain
  · have hmem : records.contains p.scHash = decide (p.scHash ∈ records) := by
      rw [Bool.eq_iff_iff, decide_eq_true_iff, ExtTreeMap.contains_iff_mem]
    simp [hrent, hmem, imp_iff_not_or]
  · simp [hrent]

theorem Refunds.of_visit {q : Proposal} {n : ℤ} (hy : IsStep (rt y.number) crypto cfg y)
    (hq : y.decided.proposals[p.hash]? = some q) (hdue : q.dueNumber cfg = bigUint64 y.header.number)
    (hterms : q.terms = { p with receivedNumber := n, declares := [] }) : Refunds rt cfg y p := by
  have hvisit : (p.hash, q) ∈ visits rt y :=
    ((rt y.number).rangeOrder_perm _).mem_iff.mpr (mem_toList_iff_getElem?_eq_some.mpr hq)
  obtain ⟨front, back, hord⟩ := append_of_mem hvisit
  have hloop : (visits rt y).foldlM (settleProposal cfg y.header.number)
      (y.decided.expireRefund cfg y.header.number) = .ok y.result := hy.result
  rw [hord, foldlM_append] at hloop
  obtain ⟨u, hu, hloop⟩ := bind_eq_ok.mp hloop
  obtain ⟨v, hv, hback⟩ := bind_eq_ok.mp hloop
  refine ⟨front, q, back, u, v, hord, hu, hv, hback, fun a ↦ ?_⟩
  have hproposer : q.proposer = p.proposer := (congrArg Proposal.proposer hterms :)
  obtain ⟨-, rfl⟩ := settleProposal_eq_ok (e := (p.hash, q)) hdue hv
  rw [refundOf_settled, owed_eq_of_terms hterms, hproposer]

section Accounting

variable {headers : List Header} (h : Steps rt crypto cfg s steps t) (hs : s.proposals = ∅)
  (hmap : steps.reverse.map (·.header) = headers) (hone : OneProposal cfg headers)

include hmap in
theorem mem_headers {x : HeaderStep} (hx : x ∈ steps) : x.header ∈ headers := by
  rw [← hmap]
  exact List.mem_map_of_mem (mem_reverse.mpr hx)

include hmap hone in
theorem length_lt : steps.length < 2 ^ 64 := by
  have hlen := congrArg List.length hmap
  rw [length_map, length_reverse] at hlen
  rw [hlen]
  exact hone.short

include h hmap hone in
theorem dueAt_carried {x : HeaderStep} (hx : x ∈ steps) (hp : p ∈ x.extra.currentBlockProposals) :
    dueAt cfg { p with receivedNumber := x.header.number, declares := [] } =
      x.number.toNat + p.validationLoopCnt.toNat * cfg.maxSignerCount.toNat + 1 := by
  rw [← h.extra_eq hx] at hp
  exact dueAt_of_inRange (hone.inRange x.header (mem_headers hmap hx) p hp)

include h hs hmap hone in
theorem terms_decided_iff {newer past : List HeaderStep} (hspl : steps = newer ++ y :: past) (key : Hash)
    (v : Proposal) :
    (y.decided.terms)[key]? = some v ↔
      ∃ x ∈ y :: past, (key, v) ∈ x.carried ∧ y.number.toNat ≤ dueAt cfg v := by
  obtain ⟨hpast, hnum, hy⟩ := h.split hspl
  have hsts := hpast.header hnum hy
  have hlen := length_lt hmap hone
  have hmem : ∀ x ∈ y :: past, x ∈ steps := fun x hx ↦ by
    rw [hspl]
    exact mem_append_right _ hx
  have hlen' : past.length + 1 < 2 ^ 64 := by
    rw [hspl, length_append, length_cons] at hlen
    omega
  have hn : y.number.toNat = past.length + 1 := by
    rw [hnum, toNat_ofNat_of_lt' hlen']
  have hsgl : ∀ x ∈ y :: past, x.extra.currentBlockProposals.length ≤ 1 := fun x hx ↦ by
    rw [← h.extra_eq (hmem x hx)]
    exact hone.single x.header (mem_headers hmap (hmem x hx))
  have hopened := hsts.opened_iff hlen'
  have hkeys : ((y.carried :: past.map (·.carried)).flatten.map (·.1)).Nodup := by
    have hfrs := h.fresh hmap hone
    rw [hspl, map_append, flatten_append, map_append] at hfrs
    exact hfrs.of_append_right
  have hlate : ∀ i k v, Opened (y.carried :: past.map (·.carried)) i k v → i < dueAt cfg v := by
    intro i k v hi
    obtain ⟨x, hx, rfl, hv⟩ := (hopened i k v).mp hi
    obtain ⟨p, hp, heq⟩ := List.mem_map.mp hv
    obtain ⟨-, rfl⟩ := Prod.mk.inj heq
    rw [dueAt_carried h hmap hone (hmem x hx) hp]
    omega
  have hterms : y.decided.terms =
      offer (book (dueAt cfg) (past.map (·.carried))) y.carried := by
    have hdec : y.decided.terms = y.stored.terms := congrArg Prod.fst hy.ledger_decided
    have hbef : y.before.terms = y.start.terms := congrArg Prod.fst hy.ledger_before
    rw [hdec, terms_stored (hsgl y mem_cons_self), hbef,
      hpast.terms_eq_book hs (fun x hx ↦ hsgl x (mem_cons_of_mem y hx)) (by omega)]
  rw [hterms, getElem?_offer_book _ _ hkeys hlate, length_map, hn]
  constructor
  · rintro ⟨i, hi, hle⟩
    obtain ⟨x, hx, -, hv⟩ := (hopened i key v).mp hi
    exact ⟨x, hx, hv, hle⟩
  · rintro ⟨x, hx, hv, hle⟩
    exact ⟨x.number.toNat, (hopened _ key v).mpr ⟨x, hx, rfl, hv⟩, hle⟩

include h hmap hone in
theorem mem_of_number_le {newer past : List HeaderStep} {x : HeaderStep}
    (hspl : steps = newer ++ y :: past) (hx : x ∈ steps) (hle : x.number.toNat ≤ y.number.toNat) :
    x ∈ y :: past := by
  have hlen := length_lt hmap hone
  rw [hspl] at hx
  obtain hx | hx := mem_append.mp hx
  · obtain ⟨newest, between, rfl⟩ := append_of_mem hx
    have hspl' : steps = newest ++ x :: (between ++ y :: past) := by
      rw [hspl, List.append_assoc, cons_append]
    have hx' := (h.split hspl').2.1
    have hy' := (h.split hspl).2.1
    rw [hspl] at hlen
    simp only [length_append, length_cons] at hlen hx'
    have hx'' : between.length + (past.length + 1) + 1 < 2 ^ 64 := by omega
    have hy'' : past.length + 1 < 2 ^ 64 := by omega
    rw [hx', hy', toNat_ofNat_of_lt' hx'', toNat_ofNat_of_lt' hy''] at hle
    omega
  · exact hx

include h hs hmap hone in
theorem refunds_of_due {x : HeaderStep} (hx : x ∈ steps) (hy : y ∈ steps)
    (hp : p ∈ x.extra.currentBlockProposals)
    (hdue : y.number.toNat = x.number.toNat + p.validationLoopCnt.toNat * cfg.maxSignerCount.toNat + 1) :
    Refunds rt cfg y p := by
  obtain ⟨newer, past, hspl⟩ := append_of_mem hy
  have hdueAt := dueAt_carried h hmap hone hx hp
  have hmem := mem_of_number_le h hmap hone hspl hx (by omega)
  have hopen := (terms_decided_iff h hs hmap hone hspl _ _).mpr
    ⟨x, hmem, List.mem_map.mpr ⟨p, hp, rfl⟩, by omega⟩
  rw [terms, ExtTreeMap.getElem?_map] at hopen
  obtain ⟨q, hq, hterms⟩ := Option.map_eq_some_iff.mp hopen
  refine Refunds.of_visit (h.split hspl).2.2 hq ?_ hterms
  refine UInt64.toNat_inj.mp ?_
  rw [← dueAt_terms, hterms, hdueAt, ← hdue, HeaderStep.number]

include h hs hmap hone in
theorem settleProposal_of_ne_due {x : HeaderStep} (hx : x ∈ steps) (hy : y ∈ steps)
    (hp : p ∈ x.extra.currentBlockProposals)
    (hdue : y.number.toNat ≠ x.number.toNat + p.validationLoopCnt.toNat * cfg.maxSignerCount.toNat + 1)
    (e : Hash × Proposal) (he : e ∈ visits rt y) (hkey : e.1 = p.hash) (u : Snapshot) :
    u.settleProposal cfg y.header.number e = .ok u := by
  obtain ⟨newer, past, hspl⟩ := append_of_mem hy
  have hget : y.decided.proposals[e.1]? = some e.2 :=
    mem_toList_iff_getElem?_eq_some.mp (((rt y.number).rangeOrder_perm _).mem_iff.mp he)
  have hopen : (y.decided.terms)[p.hash]? = some e.2.terms := by
    unfold terms
    rw [ExtTreeMap.getElem?_map, ← hkey, hget]
    rfl
  obtain ⟨z, hz, hcarried, -⟩ := (terms_decided_iff h hs hmap hone hspl _ _).mp hopen
  have hzmem : z ∈ steps := by
    rw [hspl]
    exact mem_append_right _ hz
  have hmem : ∀ w ∈ steps, ∀ v, (p.hash, v) ∈ w.carried →
      (p.hash, v) ∈ (steps.map (·.carried)).flatten :=
    fun w hw v hv ↦ mem_flatten.mpr ⟨w.carried, List.mem_map_of_mem hw, hv⟩
  have hsame := inj_on_of_nodup_map (h.fresh hmap hone) (hmem z hzmem _ hcarried)
    (hmem x hx _ (List.mem_map.mpr ⟨p, hp, rfl⟩)) rfl
  refine settleProposal_of_not_due (fun hnow ↦ hdue ?_)
  rw [← dueAt_carried h hmap hone hx hp, ← (Prod.mk.inj hsame).2, dueAt_terms, hnow,
    HeaderStep.number]

end Accounting

/-- Every proposal of such a run is stored as it is, refunded at its due header and
nowhere else; nothing but the results of proposals refunds. -/
theorem proposals_refunded_once (rt : UInt64 → Runtime) (crypto : Crypto) (cfg : Config)
    (now : UInt64) (hash : Hash) (lcrs : UInt64) (votes : List Vote) (batches : List (List Header))
    (s : Snapshot)
    (hrun : (newSnapshot cfg now hash votes lcrs).applyAll rt crypto cfg batches = .ok s)
    (hone : OneProposal cfg batches.flatten) :
    ∃ steps, Steps rt crypto cfg (newSnapshot cfg now hash votes lcrs) steps s ∧
      steps.reverse.map (·.header) = batches.flatten ∧
      (∀ y ∈ steps, y.decided.proposalRefund = y.start.proposalRefund ∧
        y.after.proposalRefund = y.result.proposalRefund) ∧
      ∀ x ∈ steps, ∀ p ∈ x.extra.currentBlockProposals,
        x.stored.proposals[p.hash]? = some { p with receivedNumber := x.header.number } ∧
        ∀ y ∈ steps,
          if y.number.toNat = x.number.toNat +
              p.validationLoopCnt.toNat * cfg.maxSignerCount.toNat + 1 then
            Refunds rt cfg y p
          else ∀ e ∈ visits rt y, e.1 = p.hash →
            ∀ u : Snapshot, u.settleProposal cfg y.header.number e = .ok u := by
  have hnil : (newSnapshot cfg now hash votes lcrs).proposals = ∅ :=
    foldl_keeps addGenesisVote proposals (fun _ _ ↦ rfl) votes _
  obtain ⟨trace, -, hmap, htrace⟩ := Steps.trace .nil (number_newSnapshot cfg now hash votes lcrs) hrun
  obtain ⟨steps, rfl⟩ : ∃ steps, trace = steps.reverse := ⟨trace.reverse, trace.reverse_reverse.symm⟩
  have hsts : Steps rt crypto cfg (newSnapshot cfg now hash votes lcrs) steps s := by simpa using htrace
  refine ⟨steps, hsts, hmap, fun y hy ↦ ?_, fun x hx p hp ↦ ⟨?_, fun y hy ↦ ?_⟩⟩
  · obtain ⟨newer, past, hspl⟩ := append_of_mem hy
    have hstep := (hsts.split hspl).2.2
    have hbef : y.before.proposalRefund = y.start.proposalRefund :=
      congrArg Prod.snd hstep.ledger_before
    have hdec : y.decided.proposalRefund = y.stored.proposalRefund :=
      congrArg Prod.snd hstep.ledger_decided
    exact ⟨hdec.trans ((kept proposalRefund
      (updateSnapshotByProposals_frame y.before _ _) (fun _ ↦ rfl)).trans hbef),
      congrArg Prod.snd hstep.ledger_after⟩
  · have hsgl := hone.single x.header (mem_headers hmap hx)
    rw [hsts.extra_eq hx] at hsgl
    obtain ⟨q, hq⟩ := length_eq_one_iff.mp
      (Nat.le_antisymm hsgl (length_pos_of_mem hp))
    rw [hq, mem_singleton] at hp
    rw [HeaderStep.stored, getElem?_updateSnapshotByProposals, hq, hp]
    simp
  split_ifs with hdue
  · exact refunds_of_due hsts hnil hmap hone hx hy hp hdue
  · exact settleProposal_of_ne_due hsts hnil hmap hone hx hy hp hdue

def fiveHeaders (proposals : List Proposal) : List Header :=
  [.ofExtra 1 { HeaderExtra.zero with currentBlockProposals := proposals }, .ofExtra 2 .zero,
    .ofExtra 3 .zero, .ofExtra 4 .zero, .ofExtra 5 .zero]

/-- A proposal of header 1 that is open for one loop is due at header 5. -/
theorem proposals_refunded_once_at_five :
    let p := { Proposal.plain 1 1 with validationLoopCnt := 1 }
    let s := smallStart
    ∃ t steps, s.applyAll (fun _ ↦ .inOrder) .byNumber .small [fiveHeaders [p]] = .ok t ∧
      Steps (fun _ ↦ .inOrder) .byNumber .small s steps t ∧ ∃ y ∈ steps, y.header.number = 5 ∧
        Refunds (fun _ ↦ .inOrder) .small y p := by
  intro p s
  have hok : (s.applyAll (fun _ ↦ .inOrder) .byNumber .small [fiveHeaders [p]]).isOk = true := by
    decide +kernel
  have hone : OneProposal .small [fiveHeaders [p]].flatten :=
    ⟨by decide +kernel, by decide +kernel, by decide +kernel, by decide +kernel⟩
  obtain ⟨t, ht⟩ := exists_of_isOk hok
  obtain ⟨steps, hsts, hmap, -, hall⟩ := proposals_refunded_once _ _ _ 0 0 10 [⟨1, 1, 5⟩]
    [fiveHeaders [p]] t ht hone
  have hhd : ∀ header ∈ fiveHeaders [p], ∃ x ∈ steps, x.header = header := fun header hmem ↦ by
    have hmem' : header ∈ steps.reverse.map (·.header) := by
      rw [hmap]
      exact mem_flatten.mpr ⟨_, mem_singleton_self _, hmem⟩
    obtain ⟨x, hx, rfl⟩ := List.mem_map.mp hmem'
    exact ⟨x, mem_reverse.mp hx, rfl⟩
  obtain ⟨x, hx, hfst⟩ := hhd _ mem_cons_self
  obtain ⟨y, hy, hfifth⟩ := hhd (.ofExtra 5 .zero) (by simp [fiveHeaders])
  have hp : p ∈ x.extra.currentBlockProposals := by
    rw [← hsts.extra_eq hx, hfst]
    decide +kernel
  have hdue := (hall x hx p hp).2 y hy
  rw [HeaderStep.number, HeaderStep.number, hfst, hfifth, if_pos (by decide)] at hdue
  exact ⟨t, steps, ht, hsts, y, hy, by rw [hfifth]; rfl, hdue⟩

/-- Two proposals of one header are both stored as the second: its proposer gets both
deposits. -/
theorem second_proposer_refunded_twice :
    let p := { Proposal.plain 1 1 with validationLoopCnt := 1 }
    let q := { Proposal.plain 2 2 with validationLoopCnt := 1 }
    let s := smallStart
    ∃ s1 t, s.apply (fun _ ↦ .inOrder) .byNumber .small ((fiveHeaders [p, q]).take 1) = .ok s1 ∧
      s1.apply (fun _ ↦ .inOrder) .byNumber .small ((fiveHeaders [p, q]).drop 1) = .ok t ∧
      s1.proposals[p.hash]? = some { q with receivedNumber := 1 } ∧
      refundOf 5 t p.proposer = 0 ∧ refundOf 5 t q.proposer = p.currentDeposit + q.currentDeposit := by
  intro p q s
  obtain ⟨s1, hs1, hp, t, ht, h⟩ : ∃ s1,
      s.apply (fun _ ↦ .inOrder) .byNumber .small ((fiveHeaders [p, q]).take 1) = .ok s1 ∧
      s1.proposals[p.hash]? = some { q with receivedNumber := 1 } ∧ ∃ t,
      s1.apply (fun _ ↦ .inOrder) .byNumber .small ((fiveHeaders [p, q]).drop 1) = .ok t ∧
      refundOf 5 t p.proposer = 0 ∧ refundOf 5 t q.proposer = p.currentDeposit + q.currentDeposit := by
    decide +kernel
  exact ⟨s1, t, hs1, ht, hp, h⟩

end Book

end Snapshot

end BjutEth.Alien
