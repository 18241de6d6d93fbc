import BjutEth.Pool.Index
import BjutEth.Pool.Turns

namespace BjutEth.Pool

open Std List ExtTreeMap Option UInt64 TxSortedMap
open Alien (Address Hash Runtime)

variable {U : Transaction → Prop} {rt : Runtime} {p p' q : TxPool} {config : TxPoolConfig}
variable {a b : Address} {t t' : Transaction} {l l' : TxList} {strict : Bool} {now : ℤ}

/-! ### `Filter` on a strict list -/

namespace TxList

theorem mem_filter_strict (hs : l.Sound true) (cost : ℤ) (gas : UInt64) :
    t ∈ (l.filter cost gas).2.2.txs.items ↔ t ∈ l.txs.items ∧
      ∀ t' ∈ l.txs.items, t'.nonce ≤ t.nonce → t'.cost ≤ cost ∧ t'.gas ≤ gas := by
  obtain ⟨-, -, hrest⟩ := mem_filtered hs cost gas t
  rw [hrest]
  refine and_congr_right (fun ht ↦ ⟨fun ⟨hok, hlow⟩ t' ht' hle ↦ exceeds_eq_false.mp ?_, fun h ↦ ⟨?_, ?_⟩⟩)
  · by_contra hnot
    rw [Bool.not_eq_false] at hnot
    have hgone := (mem_filtered hs cost gas t').1.mpr ⟨ht', hnot⟩
    have hn : t'.nonce = t.nonce :=
      UInt64.le_antisymm hle (UInt64.not_lt.mp (fun hlt ↦ hlow ⟨rfl, t', hgone, hlt⟩))
    obtain rfl := eq_of_nonce ht' ht hn
    exact Bool.noConfusion (hok.symm.trans hnot)
  · exact exceeds_eq_false.mpr (h t ht (UInt64.le_refl _))
  rintro ⟨-, r, hr, hlt⟩
  obtain ⟨hin, hexc⟩ := (mem_filtered hs cost gas r).1.mp hr
  exact Bool.noConfusion ((exceeds_eq_false.mpr (h r hin (UInt64.le_of_lt hlt))).symm.trans hexc)

/-- The lists that can be built from a new one. -/
inductive Built (strict : Bool) : TxList → Prop
  | new : Built strict { strict }
  | add {l : TxList} (h : Built strict l) (tx : Transaction) (priceBump : UInt64) :
      Built strict (l.add tx priceBump).2.2
  | forward {l : TxList} (h : Built strict l) (threshold : UInt64) : Built strict (l.forward threshold).2
  | filter {l : TxList} (h : Built strict l) (costLimit : ℤ) (gasLimit : UInt64) :
      Built strict (l.filter costLimit gasLimit).2.2
  | cap {l l' : TxList} (h : Built strict l) {threshold : ℤ} {drops : List Transaction}
      (hc : l.cap threshold = some (drops, l')) : Built strict l'
  | remove {l : TxList} (h : Built strict l) (tx : Transaction) : Built strict (l.remove tx).2.2
  | ready {l : TxList} (h : Built strict l) (start : UInt64) : Built strict (l.ready start).2

theorem Built.sound (h : Built strict l) : l.Sound strict := by
  induction h with
  | new => exact ⟨rfl, fun t ht ↦ absurd ht not_mem_nil⟩
  | add _ tx priceBump ih => exact derives_add _ tx priceBump strict ih
  | forward _ threshold ih => exact Derives.of_splits (splits_forward threshold) strict ih
  | filter _ cost gas ih => exact derives_filter cost gas strict ih
  | cap _ hc ih => exact derives_of_cap hc strict ih
  | remove _ tx ih => exact derives_remove strict ih
  | ready _ start ih => exact Derives.of_splits (splits_ready start) strict ih

theorem filter_exact (h : Built strict l) (cost : ℤ) (gas : UInt64) (t : Transaction) :
    (t ∈ (l.filter cost gas).1 ↔ t ∈ l.flatten ∧ (cost < t.cost ∨ gas < t.gas)) ∧
    (t ∈ (l.filter cost gas).2.1 ↔ strict = true ∧ t ∈ l.flatten ∧
      t ∉ (l.filter cost gas).1 ∧ ∃ r ∈ (l.filter cost gas).1, r.nonce < t.nonce) ∧
    l.flatten.Perm ((l.filter cost gas).1 ++ (l.filter cost gas).2.1 ++
      (l.filter cost gas).2.2.flatten) := by
  obtain ⟨hgone, hinvalid, -⟩ := mem_filtered h.sound cost gas t
  have hexc : exceeds cost gas t = true ↔ cost < t.cost ∨ gas < t.gas := by
    unfold exceeds
    rw [Bool.or_eq_true, decide_eq_true_eq, decide_eq_true_eq]
  refine ⟨hgone.trans (and_congr_right' hexc), hinvalid.trans ?_, (splits_filter cost gas).perm⟩
  refine and_congr_right' (and_congr_right (fun ht ↦ and_congr_left' ?_))
  rw [hgone, not_and, Bool.not_eq_true]
  exact ⟨fun hok _ ↦ hok, fun hok ↦ hok ht⟩

/-- The second of three transactions takes too much gas, and the third one goes with it. -/
theorem filter_exact_three : let tx (nonce gas : UInt64) : Transaction := ⟨0, none, nonce, 0, gas, none, 0, [], 0⟩
    let l := (((({ strict := true } : TxList).add (tx 1 4) 10).2.2.add (tx 2 9) 10).2.2.add (tx 3 4) 10).2.2
    tx 2 9 ∈ (l.filter 5 5).1 ∧ tx 3 4 ∈ (l.filter 5 5).2.1 := by
  intro tx l
  have hl : Built true l := .add (.add (.add .new _ 10) _ 10) _ 10
  have hgone : tx 2 9 ∈ (l.filter 5 5).1 := (filter_exact hl 5 5 _).1.mpr ⟨by decide, .inr (by decide)⟩
  exact ⟨hgone, (filter_exact hl 5 5 _).2.1.mpr ⟨rfl, by decide, by decide, _, hgone, by decide⟩⟩

end TxList

namespace TxPool

/-- The pending transactions of an account with any have the nonces from that in the current
state up to that in the pending state, and can all be paid for. -/
structure Executable (p : TxPool) : Prop where
  contiguous : ∀ a, (∃ t, Listed p.pending a t) →
    ∀ nonce, (∃ t, Listed p.pending a t ∧ t.nonce = nonce) ↔ p.currentState.nonce a ≤ nonce ∧ nonce < p.pendingNonce a
  affordable : ∀ a t, Listed p.pending a t → p.Affordable a t

/-! ### The invariants of the turns -/

/-- The pool at rest. An account without pending transactions has no higher nonce in the
pending state. -/
structure Rested (p : TxPool) : Prop where
  contiguous : ∀ a nonce, (∃ t, Listed p.pending a t ∧ t.nonce = nonce) ↔
    p.currentState.nonce a ≤ nonce ∧ nonce < p.pendingNonce a
  affordable : ∀ a t, Listed p.pending a t → p.Affordable a t

/-- The pool in the middle of a `reset`: an account whose nonce in the pending state was
raised has a pending transaction with its nonce in the current state. -/
def Fronted (p : TxPool) : Prop :=
  ∀ a, p.pendingNonce a ≤ p.currentState.nonce a ∨
    ∃ t, Listed p.pending a t ∧ t.nonce = p.currentState.nonce a ∧ p.Affordable a t

/-- No gap from the nonce in the current state up to the nonce in the pending state or to the
highest pending one. -/
def Backed (p : TxPool) : Prop :=
  ∀ a nonce, p.currentState.nonce a ≤ nonce →
    (nonce < p.pendingNonce a ∨ ∃ t, Listed p.pending a t ∧ nonce ≤ t.nonce) →
    ∃ t, Listed p.pending a t ∧ t.nonce = nonce

/-- The new state does not take back a nonce of an account with pending transactions. -/
def Rising (p : TxPool) (state : AccountState) : Prop :=
  ∀ a t, Listed p.pending a t → p.currentState.nonce a ≤ state.nonce a

theorem Rested.promote (h : Rested p) {t : Transaction} (hge : p.currentState.nonce a ≤ t.nonce)
    (hle : t.nonce ≤ p.pendingNonce a) (hfree : ∀ t', Listed p.pending a t' → t'.nonce ≠ t.nonce)
    (hmax : t.nonce + 1 ≠ 0) (nonce : UInt64) :
    (∃ t', (Listed p.pending a t' ∨ t' = t) ∧ t'.nonce = nonce) ↔
      p.currentState.nonce a ≤ nonce ∧ nonce < t.nonce + 1 := by
  have hlast : t.nonce = p.pendingNonce a := by
    refine UInt64.le_antisymm hle (UInt64.not_lt.mp (fun hlt ↦ ?_))
    obtain ⟨t', ht', hn⟩ := (h.contiguous a t.nonce).mpr ⟨hge, hlt⟩
    exact hfree t' ht' hn
  have hspl : (∃ t', (Listed p.pending a t' ∨ t' = t) ∧ t'.nonce = nonce) ↔
      (∃ t', Listed p.pending a t' ∧ t'.nonce = nonce) ∨ t.nonce = nonce := by
    constructor
    · rintro ⟨t', ht' | rfl, hn⟩
      · exact .inl ⟨t', ht', hn⟩
      · exact .inr hn
    rintro (⟨t', ht', hn⟩ | hn)
    · exact ⟨t', .inl ht', hn⟩
    · exact ⟨t, .inr rfl, hn⟩
  rw [hspl, h.contiguous a nonce, ← hlast]
  rw [le_iff_toNat_le] at hge
  simp only [le_iff_toNat_le, lt_iff_toNat_lt, toNat_add_one hmax, ← UInt64.toNat_inj]
  omega

theorem Rested.cut (h : Rested p) (bound nonce : UInt64) :
    (∃ t, (Listed p.pending a t ∧ t.nonce < bound) ∧ t.nonce = nonce) ↔
      p.currentState.nonce a ≤ nonce ∧ nonce < if bound < p.pendingNonce a then bound else p.pendingNonce a := by
  have hspl : (∃ t, (Listed p.pending a t ∧ t.nonce < bound) ∧ t.nonce = nonce) ↔
      (∃ t, Listed p.pending a t ∧ t.nonce = nonce) ∧ nonce < bound := by
    constructor
    · rintro ⟨t, ⟨ht, hlt⟩, rfl⟩
      exact ⟨⟨t, ht, rfl⟩, hlt⟩
    · rintro ⟨⟨t, ht, rfl⟩, hlt⟩
      exact ⟨t, ⟨ht, hlt⟩, rfl⟩
  rw [hspl, h.contiguous a nonce]
  split_ifs with hb
  · rw [lt_iff_toNat_lt] at hb
    simp only [le_iff_toNat_le, lt_iff_toNat_lt]
    omega
  rw [lt_iff_toNat_lt] at hb
  simp only [le_iff_toNat_le, lt_iff_toNat_lt]
  omega

theorem Turn.rested (h : Rested p) (ht : Turn p p') : Rested p' := by
  have hh := ht.sameHead
  refine ⟨fun b nonce ↦ ?_, fun b t' ht' ↦ hh.affordable.mpr ?_⟩
  · rw [hh.state]
    cases ht with
    | still hp hn _ =>
      simp only [hp, hn]
      exact h.contiguous b nonce
    | @promote a t hok hge hle hfree hmax hp hn _ =>
      rw [hn b]
      simp only [hp]
      by_cases hb : b = a
      · subst hb
        simp only [true_and]
        exact h.promote hge hle hfree hmax nonce
      · simp only [hb, false_and, or_false]
        exact h.contiguous b nonce
    | @cut a bound hp hn _ =>
      rw [hn b]
      simp only [hp]
      by_cases hb : b = a
      · subst hb
        simp only [true_and, forall_const]
        exact h.cut bound nonce
      · simp only [hb, false_implies, and_true]
        exact h.contiguous b nonce
    | @replace a t hok hold hp hn _ =>
      rw [hn b, ← h.contiguous b nonce]
      simp only [hp]
      by_cases hb : b = a
      · subst hb
        obtain ⟨old, hold, hnold⟩ := hold
        constructor
        · rintro ⟨t', ⟨ht', -⟩ | ⟨-, rfl⟩, hn⟩
          · exact ⟨t', ht', hn⟩
          · exact ⟨old, hold, hnold.trans hn⟩
        rintro ⟨t', ht', hn⟩
        by_cases he : t'.nonce = t.nonce
        · exact ⟨t, .inr ⟨rfl, rfl⟩, he.symm.trans hn⟩
        · exact ⟨t', .inl ⟨ht', fun _ ↦ he⟩, hn⟩
      · simp only [hb, false_and, false_implies, and_true, or_false]
  cases ht with
  | still hp _ _ => exact h.affordable b t' ((hp b t').mp ht')
  | promote hok _ _ _ _ hp _ _ =>
    rcases (hp b t').mp ht' with ht' | ⟨rfl, rfl⟩
    · exact h.affordable b t' ht'
    · exact hok
  | cut hp _ _ => exact h.affordable b t' ((hp b t').mp ht').1
  | replace hok _ hp _ _ =>
    rcases (hp b t').mp ht' with ⟨ht', -⟩ | ⟨rfl, rfl⟩
    · exact h.affordable b t' ht'
    · exact hok

theorem Turn.fronted (h : Fronted p) (ht : Turn p p') : Fronted p' := by
  have hh := ht.sameHead
  intro b
  rw [hh.state]
  simp only [hh.affordable]
  cases ht with
  | still hp hn _ =>
    rw [hn b]
    simp only [hp]
    exact h b
  | @promote a t hok hge hle hfree hmax hp hn _ =>
    rw [hn b]
    simp only [hp]
    by_cases hb : b = a
    · subst hb
      refine .inr ?_
      rcases h b with hlow | ⟨t', ht', hfrt⟩
      · exact ⟨t, .inr ⟨rfl, rfl⟩, UInt64.le_antisymm (UInt64.le_trans hle hlow) hge, hok⟩
      · exact ⟨t', .inl ht', hfrt⟩
    · simp only [hb, false_and, or_false]
      exact h b
  | @cut a bound hp hn _ =>
    rw [hn b]
    simp only [hp]
    by_cases hb : b = a
    · subst hb
      simp only [true_and, forall_const]
      rcases h b with hlow | ⟨t', ht', hfrt⟩
      · refine .inl ?_
        split_ifs with hlt
        · exact UInt64.le_trans (UInt64.le_of_lt hlt) hlow
        · exact hlow
      by_cases hkept : t'.nonce < bound
      · exact .inr ⟨t', ⟨ht', hkept⟩, hfrt⟩
      refine .inl ?_
      have hle := hfrt.1 ▸ UInt64.not_lt.mp hkept
      split_ifs with hlt
      · exact hle
      · exact UInt64.le_trans (UInt64.not_lt.mp hlt) hle
    · simp only [hb, false_implies, and_true]
      exact h b
  | @replace a t hok hold hp hn _ =>
    rw [hn b]
    simp only [hp]
    refine (h b).imp_right ?_
    rintro ⟨t', ht', hfrt⟩
    by_cases hb : b = a
    · subst hb
      by_cases he : t'.nonce = t.nonce
      · exact ⟨t, .inr ⟨rfl, rfl⟩, he.symm.trans hfrt.1, hok⟩
      · exact ⟨t', .inl ⟨ht', fun _ ↦ he⟩, hfrt⟩
    · exact ⟨t', .inl ⟨ht', fun hb' ↦ absurd hb' hb⟩, hfrt⟩

theorem Backed.promote (h : Backed p) {t : Transaction} (hle : t.nonce ≤ p.pendingNonce a)
    (hmax : t.nonce + 1 ≠ 0) (hp : ∀ b t', Listed p'.pending b t' ↔ Listed p.pending b t' ∨ b = a ∧ t' = t)
    (hn : ∀ b, p'.pendingNonce b = if b = a then t.nonce + 1 else p.pendingNonce b) (hh : SameHead p p') :
    Backed p' := by
  intro b nonce hge hcov
  rw [hh.state] at hge
  simp only [hp, hn] at hcov ⊢
  by_cases hb : b = a
  swap
  · simp only [hb, false_and, or_false, if_false] at hcov ⊢
    exact h b nonce hge hcov
  subst hb
  by_cases heq : t.nonce = nonce
  · exact ⟨t, .inr ⟨rfl, rfl⟩, heq⟩
  have hold : nonce < p.pendingNonce b ∨ ∃ t', Listed p.pending b t' ∧ nonce ≤ t'.nonce := by
    have hbelow : nonce ≤ t.nonce → nonce < p.pendingNonce b := fun hlt ↦
      UInt64.lt_of_lt_of_le (UInt64.lt_of_le_of_ne hlt (Ne.symm heq)) hle
    rcases hcov with hlt | ⟨t', ht' | ⟨-, rfl⟩, hle'⟩
    · rw [if_pos rfl, lt_iff_toNat_lt, toNat_add_one hmax, Nat.lt_succ_iff] at hlt
      exact .inl (hbelow hlt)
    · exact .inr ⟨t', ht', hle'⟩
    · exact .inl (hbelow hle')
  obtain ⟨t', ht', hn'⟩ := h b nonce hge hold
  exact ⟨t', .inl ht', hn'⟩

theorem Backed.cut (h : Backed p) {bound : UInt64}
    (hp : ∀ b t', Listed p'.pending b t' ↔ Listed p.pending b t' ∧ (b = a → t'.nonce < bound))
    (hn : ∀ b, p'.pendingNonce b = if b = a ∧ bound < p.pendingNonce a then bound else p.pendingNonce b)
    (hh : SameHead p p') : Backed p' := by
  intro b nonce hge hcov
  rw [hh.state] at hge
  simp only [hp, hn] at hcov ⊢
  have hlow : b = a → nonce < bound := by
    rintro rfl
    rcases hcov with hlt | ⟨t', ht', hle⟩
    · split_ifs at hlt with hlow
      · exact hlt
      · exact UInt64.lt_of_lt_of_le hlt (UInt64.not_lt.mp (fun h ↦ hlow ⟨rfl, h⟩))
    · exact UInt64.lt_of_le_of_lt hle (ht'.2 rfl)
  have hold : nonce < p.pendingNonce b ∨ ∃ t', Listed p.pending b t' ∧ nonce ≤ t'.nonce := by
    rcases hcov with hlt | ⟨t', ht', hle⟩
    · refine .inl ?_
      split_ifs at hlt with hlow
      · exact hlow.1 ▸ UInt64.lt_trans hlt hlow.2
      · exact hlt
    · exact .inr ⟨t', ht'.1, hle⟩
  obtain ⟨t', ht', hn'⟩ := h b nonce hge hold
  exact ⟨t', ⟨ht', fun hb ↦ hn' ▸ hlow hb⟩, hn'⟩

theorem Turn.backed (h : Backed p) (ht : Turn p p') : Backed p' := by
  cases ht with
  | still hp hn hh =>
    intro b nonce
    simp only [hp, hn, hh.state]
    exact h b nonce
  | promote _ _ hle _ hmax hp hn hh => exact h.promote hle hmax hp hn hh
  | cut hp hn hh => exact h.cut hp hn hh
  | @replace a t _ hold hp hn hh =>
    obtain ⟨old, hold, hnold⟩ := hold
    intro b nonce hge hcov
    rw [hh.state] at hge
    simp only [hp, hn] at hcov ⊢
    have hcov' : nonce < p.pendingNonce b ∨ ∃ t', Listed p.pending b t' ∧ nonce ≤ t'.nonce := by
      refine hcov.imp_right ?_
      rintro ⟨t', ht' | ⟨rfl, rfl⟩, hle⟩
      · exact ⟨t', ht'.1, hle⟩
      · exact ⟨old, hold, hnold ▸ hle⟩
    obtain ⟨t', ht', hn'⟩ := h b nonce hge hcov'
    by_cases hsame : b = a ∧ t'.nonce = t.nonce
    · exact ⟨t, .inr ⟨hsame.1, rfl⟩, hsame.2.symm.trans hn'⟩
    · exact ⟨t', .inl ⟨ht', fun hb hne ↦ hsame ⟨hb, hne⟩⟩, hn'⟩

theorem Turns.rested (h : Rested p) (ht : Turns p p') : Rested p' := by
  induction ht with
  | refl => exact h
  | tail _ ht ih => exact ht.rested ih

theorem Turns.fronted (h : Fronted p) (ht : Turns p p') : Fronted p' := by
  induction ht with
  | refl => exact h
  | tail _ ht ih => exact ht.fronted ih

/-! ### The demotion -/

theorem Turns.backed (h : Backed p) (ht : Turns p p') : Backed p' := by
  induction ht with
  | refl => exact h
  | tail _ ht ih => exact ht.backed ih

/-- A pending list that reaches down to the nonce of the account in the current state has
every nonce from there up to its last one. -/
def Ungapped (p : TxPool) : Prop :=
  ∀ a t, Listed p.pending a t → t.nonce = p.currentState.nonce a →
    ∀ t', Listed p.pending a t' → ∀ nonce, p.currentState.nonce a ≤ nonce → nonce ≤ t'.nonce →
      ∃ t'', Listed p.pending a t'' ∧ t''.nonce = nonce

theorem Backed.ungapped (h : Backed p) : Ungapped p :=
  fun a _ _ _ t' ht' nonce hge hle ↦ h a nonce hge (.inr ⟨t', ht', hle⟩)

/-- The pending transactions of an account as the demotion leaves them: they start at the
nonce in the current state, without a gap, can be paid for, and are there if the nonce in
the pending state was raised. -/
structure Trimmed (p : TxPool) (a : Address) : Prop where
  ge : ∀ t, Listed p.pending a t → p.currentState.nonce a ≤ t.nonce
  closed : ∀ t, Listed p.pending a t → ∀ nonce, p.currentState.nonce a ≤ nonce → nonce ≤ t.nonce →
    ∃ t', Listed p.pending a t' ∧ t'.nonce = nonce
  affordable : ∀ t, Listed p.pending a t → p.Affordable a t
  front : p.pendingNonce a ≤ p.currentState.nonce a ∨ ∃ t, Listed p.pending a t

theorem Trimmed.congr (h : Trimmed p a) (hp : ∀ t, Listed p'.pending a t ↔ Listed p.pending a t)
    (hn : p'.pendingNonce a = p.pendingNonce a) (hh : SameHead p p') : Trimmed p' a := by
  refine ⟨?_, ?_, ?_, ?_⟩
  · simp only [hp, hh.state]
    exact h.ge
  · simp only [hp, hh.state]
    exact h.closed
  · simp only [hp, hh.affordable]
    exact h.affordable
  · simp only [hp, hh.state, hn]
    exact h.front

theorem capGapped_cases {nonce : UInt64} {gapped : List Transaction} (h : capGapped nonce l = some (gapped, l')) :
    l'.txs.items = [] ∧ l.txs.get nonce = none ∨ l' = l ∧ (l.txs.items = [] ∨ l.txs.get nonce ≠ none) := by
  unfold capGapped at h
  by_cases hgap : (!l.isEmpty && (l.txs.get nonce).isNone) = true
  · rw [if_pos hgap] at h
    obtain ⟨hne, hnone⟩ := Bool.and_eq_true_iff.mp hgap
    refine .inl ⟨?_, isNone_iff_eq_none.mp hnone⟩
    obtain ⟨⟨drops, txs⟩, hc, he⟩ := map_eq_some_iff.mp h
    cases he
    unfold cap at hc
    split_ifs at hc with h1
    · obtain ⟨-, rfl⟩ := Prod.mk.inj (some.inj hc)
      exact length_eq_zero_iff.mp (Nat.le_zero.mp (Int.ofNat_le.mp h1))
    · obtain ⟨-, rfl⟩ := Prod.mk.inj (some.inj hc)
      rfl
  rw [if_neg hgap] at h
  cases h
  refine .inr ⟨rfl, ?_⟩
  by_cases hget : l.txs.get nonce = none
  · refine .inl ?_
    rw [hget, isNone_none, Bool.and_true, Bool.not_eq_true, Bool.not_eq_false'] at hgap
    exact List.isEmpty_iff.mp hgap
  · exact .inr hget

section

variable (h : Indexed U p)

include h

theorem Demoted.others (hU : Separated U)
    (hp : Demoted rt a p p') : (∀ b t, b ≠ a → (Listed p'.pending b t ↔ Listed p.pending b t)) ∧
      (∀ b, p'.pendingNonce b = p.pendingNonce b) ∧ SameHead p p' := by
  have hh : SameHead p p' := Path.sameHead (hp.path hU h)
  cases hp with
  | idle hl hp =>
    rw [hp]
    exact ⟨fun _ _ _ ↦ .rfl, fun _ ↦ rfl, .refl p⟩
  | @stages l l1 l2 l3 olds drops invalids gapped p1 p2 p3 hl hfwd h1 hfil h2 hgap h3 hp =>
    have hpend : p3.pending = ((p.pending.insert a l1).insert a l2).insert a l3 := by
      rw [← h3, enqueueAll_pending, ← h2]
      show (TxPool.pending _).insert a l3 = _
      rw [enqueueAll_pending, forgetAll_pending, ← h1]
      show ((TxPool.pending _).insert a l2).insert a l3 = _
      rw [forgetAll_pending]
      rfl
    have hnon : p3.pendingNonces = p.pendingNonces := by
      have hn1 : p1.pendingNonces = p.pendingNonces := by
        rw [← h1, (forgetAll_still olds).1]
        rfl
      have hn2 : p2.pendingNonces = p1.pendingNonces := by
        rw [← h2, enqueueAll_pendingNonces, (forgetAll_still _).1]
        rfl
      rw [← h3, enqueueAll_pendingNonces]
      exact hn2.trans hn1
    rw [GoMap.insert_insert_self, GoMap.insert_insert_self] at hpend
    have hnon' : p'.pendingNonces = p.pendingNonces := by
      rw [hp, ← hnon]
      split_ifs <;> rfl
    refine ⟨fun b t hb ↦ ?_, fun b ↦ ?_, hh⟩
    · have hins : Listed p3.pending b t ↔ Listed p.pending b t := by
        rw [hpend, listed_insert]
        simp only [hb, false_and, ne_eq, not_false_eq_true, true_and, false_or]
      rw [hp, ← hins]
      split_ifs
      · refine (listed_erase _).trans ?_
        simp only [ne_eq, hb, not_false_eq_true, true_and]
      · exact .rfl
    · rw [pendingNonce, pendingNonce, hnon', hh.state]

theorem Demoted.listed (hp : Demoted rt a p p') :
     (∀ t, ¬ Listed p.pending a t) ∧ (∀ t, ¬ Listed p'.pending a t) ∨
      ∃ l l1 l2 l3 : TxList, p.pending[a]? = some l ∧ (l.forward (p.currentState.nonce a)).2 = l1 ∧ l1.Sound true ∧
        (l1.filter (p.currentState.balance a) p.currentMaxGas).2.2 = l2 ∧
        (∃ gapped, capGapped (p.currentState.nonce a) l2 = some (gapped, l3)) ∧
        ∀ t, Listed p'.pending a t ↔ t ∈ l3.txs.items := by
  cases hp with
  | idle hl hp =>
    rw [hp]
    have hnone : ∀ t, ¬ Listed p.pending a t := by
      rintro t ⟨l, hl', -⟩
      cases hl.symm.trans hl'
    exact .inl ⟨hnone, hnone⟩
  | @stages l l1 l2 l3 olds drops invalids gapped p1 p2 p3 hl hfwd h1 hfil h2 hgap h3 hp =>
    have hhead1 : SameHead p p1 := by
      have hh := (@forgetAll_still rt (p.setPending a l1) olds).2
      rw [h1] at hh
      exact ⟨hh.config, hh.state, hh.maxGas⟩
    have hpend : p3.pending = p2.pending.insert a l3 := by
      rw [← h3, enqueueAll_pending]
      rfl
    rw [hhead1.state, hhead1.maxGas] at hfil
    refine .inr ⟨l, l1, l2, l3, hl, by rw [hfwd], TxList.derives_of_forward hfwd _ (h.pending_sound a l hl),
      by rw [hfil], ⟨gapped, hgap⟩, fun t ↦ ?_⟩
    have hins : Listed p3.pending a t ↔ t ∈ l3.txs.items := by
      rw [hpend]
      exact listed_insert_self
    rw [hp, ← hins]
    split_ifs with he
    · refine (listed_erase _).trans (and_iff_right_of_imp (fun hin ↦ ?_))
      rw [hins, List.isEmpty_iff.mp he] at hin
      cases hin
    · exact .rfl

theorem Demoted.trimmed (hU : Separated U)
    (hfrt : Fronted p) (hgap : Ungapped p) (hp : Demoted rt a p p') : Trimmed p' a := by
  obtain ⟨-, hnon, hh⟩ := hp.others h hU
  rcases hp.listed h with ⟨hnone, hnone'⟩ | ⟨l, l1, l2, l3, hl, hfwd, hs1, hfil, ⟨gapped, hcap⟩, hlist⟩
  · refine ⟨fun t ht ↦ absurd ht (hnone' t), fun t ht ↦ absurd ht (hnone' t), fun t ht ↦ absurd ht (hnone' t), .inl ?_⟩
    rw [hnon, hh.state]
    refine (hfrt a).resolve_right ?_
    rintro ⟨t, ht, -⟩
    exact hnone t ht
  have hmem1 : ∀ t, t ∈ l1.txs.items ↔ t ∈ l.txs.items ∧ p.currentState.nonce a ≤ t.nonce := by
    intro t
    rw [← hfwd]
    show t ∈ l.txs.items.filter _ ↔ _
    rw [List.mem_filter, Bool.not_eq_true', decide_eq_false_iff_not, UInt64.not_lt]
  have hmem2 : ∀ t, t ∈ l2.txs.items ↔ t ∈ l1.txs.items ∧ ∀ t' ∈ l1.txs.items, t'.nonce ≤ t.nonce → p.Affordable a t' := by
    intro t
    rw [← hfil]
    exact TxList.mem_filter_strict hs1 _ _
  have hcs := capGapped_cases hcap
  have hsub : ∀ t ∈ l3.txs.items, t ∈ l2.txs.items := by
    intro t ht
    rcases hcs with ⟨hnil, -⟩ | ⟨rfl, -⟩
    · rw [hnil] at ht
      cases ht
    · exact ht
  refine ⟨fun t ht ↦ ?_, fun t ht nonce hge hle ↦ ?_, fun t ht ↦ ?_, ?_⟩
  · rw [hh.state]
    exact ((hmem1 t).mp ((hmem2 t).mp (hsub t ((hlist t).mp ht))).1).2
  · rw [hh.state] at hge
    simp only [hlist] at ht ⊢
    have ht2 := hsub t ht
    rcases hcs with ⟨hnil, -⟩ | ⟨rfl, hnil | hget⟩
    · rw [hnil] at ht
      cases ht
    · rw [hnil] at ht
      cases ht
    -- the list has the nonce in the current state, so it has all nonces from there
    obtain ⟨first, hfst⟩ := ne_none_iff_exists'.mp hget
    obtain ⟨hfst, hn⟩ := get_eq_some_iff.mp hfst
    have hin : ∀ t', t' ∈ l3.txs.items → Listed p.pending a t' := fun t' ht' ↦
      ⟨l, hl, ((hmem1 t').mp ((hmem2 t').mp ht').1).1⟩
    obtain ⟨t', ht', hn'⟩ := hgap a first (hin first hfst) hn t (hin t ht) nonce hge hle
    have ht1 : t' ∈ l1.txs.items := (hmem1 t').mpr ⟨(listed_iff hl).mp ht', hn' ▸ hge⟩
    refine ⟨t', (hmem2 t').mpr ⟨ht1, fun t'' ht'' hle'' ↦ ?_⟩, hn'⟩
    exact ((hmem2 t).mp ht2).2 t'' ht'' (UInt64.le_trans (hn' ▸ hle'') hle)
  · obtain ⟨ht1, hok⟩ := (hmem2 t).mp (hsub t ((hlist t).mp ht))
    exact hh.affordable.mpr (hok t ht1 (UInt64.le_refl _))
  rw [hnon, hh.state]
  refine (hfrt a).imp_right ?_
  rintro ⟨t, ht, hn, hok⟩
  have ht1 : t ∈ l1.txs.items := (hmem1 t).mpr ⟨(listed_iff hl).mp ht, hn ▸ UInt64.le_refl _⟩
  have ht2 : t ∈ l2.txs.items := by
    refine (hmem2 t).mpr ⟨ht1, fun t' ht' hle ↦ ?_⟩
    have hn' : t'.nonce = t.nonce := UInt64.le_antisymm hle (hn ▸ ((hmem1 t').mp ht').2)
    obtain rfl := eq_of_nonce ht' ht1 hn'
    exact hok
  rcases hcs with ⟨-, hget⟩ | ⟨rfl, -⟩
  · exact absurd hn (get_eq_none_iff.mp hget t ht2)
  · exact ⟨t, (hlist t).mpr ht2⟩

theorem Demoted.fronted (hU : Separated U)
    (hfrt : Fronted p) (hgap : Ungapped p) (hp : Demoted rt a p p') : Fronted p' ∧ Ungapped p' := by
  obtain ⟨hoth, hnon, hh⟩ := hp.others h hU
  have htrim := hp.trimmed h hU hfrt hgap
  constructor
  · intro b
    by_cases hb : b = a
    · subst hb
      refine htrim.front.imp_right ?_
      rintro ⟨t, ht⟩
      obtain ⟨t', ht', hn⟩ := htrim.closed t ht _ (UInt64.le_refl _) (htrim.ge t ht)
      exact ⟨t', ht', hn, htrim.affordable t' ht'⟩
    · simp only [hoth b _ hb, hnon, hh.state, hh.affordable]
      exact hfrt b
  intro b
  by_cases hb : b = a
  · subst hb
    exact fun t _ _ t' ht' nonce hge hle ↦ htrim.closed t' ht' nonce hge hle
  · simp only [hoth b _ hb, hh.state]
    exact hgap b

end

theorem demoteAll_trimmed (hU : Separated U) (addrs : List Address)
    (h : Indexed U p) (hfrt : Fronted p) (hgap : Ungapped p)
    (htrim : ∀ b, b ∈ addrs ∨ Trimmed p b) (hp : addrs.foldlM (demoteAccount rt) p = some p') :
    ∀ b, Trimmed p' b := by
  induction addrs generalizing p with
  | nil =>
    cases hp
    exact fun b ↦ (htrim b).resolve_left not_mem_nil
  | cons a addrs ih =>
    obtain ⟨p1, h1, hp⟩ := bind_eq_some_iff.mp hp
    have hrnd := demoted_of_eq h1
    obtain ⟨hoth, hnon, hh⟩ := hrnd.others h hU
    obtain ⟨hfrt1, hgap1⟩ := hrnd.fronted h hU hfrt hgap
    refine ih (Shuffle.indexed hU h (hrnd.path hU h)) hfrt1 hgap1 (fun b ↦ ?_) hp
    by_cases hb : b = a
    · subst hb
      exact .inr (hrnd.trimmed h hU hfrt hgap)
    rcases htrim b with hmem | hb'
    · exact .inl ((mem_cons.mp hmem).resolve_left hb)
    · exact .inr (hb'.congr (fun t ↦ hoth b t hb) (hnon b) hh)

theorem updateAll_nonces (addrs : List Address) (hp : addrs.foldlM updateNonce p = some p') :
    p'.pending = p.pending ∧ SameHead p p' ∧ (∀ a, a ∉ addrs → p'.pendingNonce a = p.pendingNonce a) ∧
      ∀ a ∈ addrs, ∀ l, p.pending[a]? = some l →
        ∃ last, l.txs.items.getLast? = some last ∧ p'.pendingNonce a = last.nonce + 1 := by
  induction addrs generalizing p with
  | nil =>
    obtain rfl := some.inj hp
    exact ⟨rfl, .refl p, fun _ _ ↦ rfl, fun a ha ↦ absurd ha not_mem_nil⟩
  | cons a addrs ih =>
    obtain ⟨p1, h1, hp⟩ := bind_eq_some_iff.mp hp
    obtain ⟨hpend, hh, hout, hin⟩ := ih hp
    unfold updateNonce at h1
    cases hl : p.pending[a]? with
    | none =>
      rw [hl] at h1
      cases h1
      refine ⟨hpend, hh, fun b hb ↦ hout b (fun h ↦ hb (mem_cons_of_mem a h)), fun b hb l hl' ↦ ?_⟩
      rcases mem_cons.mp hb with rfl | hb
      · cases hl.symm.trans hl'
      · exact hin b hb l hl'
    | some l =>
      rw [hl] at h1
      obtain ⟨last, hlast, rfl⟩ := map_eq_some_iff.mp h1
      refine ⟨hpend, ⟨hh.config, hh.state, hh.maxGas⟩, fun b hb ↦ ?_, fun b hb l' hl' ↦ ?_⟩
      · rw [hout b (fun h ↦ hb (mem_cons_of_mem a h)), pendingNonce_setPendingNonce,
          if_neg (fun he : b = a ↦ hb (he ▸ mem_cons_self))]
      by_cases hb' : b ∈ addrs
      · exact hin b hb' l' hl'
      obtain rfl := (mem_cons.mp hb).resolve_right hb'
      cases hl.symm.trans hl'
      refine ⟨last, hlast, ?_⟩
      rw [hout b hb', pendingNonce_setPendingNonce, if_pos rfl]

theorem demote_rested (hU : Separated U) (hmax : ∀ t, U t → t.nonce + 1 ≠ 0)
    {p1 p2 : TxPool} (h : Indexed U p) (hfrt : Fronted p) (hgap : Ungapped p)
    (h1 : p.demoteUnexecutables rt = some p1)
    (h2 : (rt.rangeOrder p1.pending.keys).foldlM updateNonce p1 = some p2) : Rested p2 := by
  have hs1 : Shuffle rt p p1 := demoteUnexecutables_path hU h h1
  have hi1 := Shuffle.indexed hU h hs1
  have hlisted_mem : ∀ (q : TxPool) b t, Listed q.pending b t → b ∈ rt.rangeOrder q.pending.keys := by
    rintro q b t ⟨l, hl, -⟩
    rw [(rt.rangeOrder_perm _).mem_iff, ExtTreeMap.mem_keys, mem_iff_isSome_getElem?, hl]
    rfl
  have htrim : ∀ b, Trimmed p1 b := by
    refine demoteAll_trimmed hU _ h hfrt hgap (fun b ↦ ?_) h1
    by_cases hb : b ∈ rt.rangeOrder p.pending.keys
    · exact .inl hb
    have hnone : ∀ t, ¬ Listed p.pending b t := fun t ht ↦ hb (hlisted_mem p b t ht)
    refine .inr ⟨fun t ht ↦ absurd ht (hnone t), fun t ht ↦ absurd ht (hnone t), fun t ht ↦ absurd ht (hnone t),
      .inl ((hfrt b).resolve_right ?_)⟩
    rintro ⟨t, ht, -⟩
    exact hnone t ht
  obtain ⟨hpend, hh, hout, hin⟩ := updateAll_nonces _ h2
  refine ⟨fun a nonce ↦ ?_, fun a t ht ↦ hh.affordable.mpr ((htrim a).affordable t (hpend ▸ ht))⟩
  rw [hpend, hh.state]
  by_cases hany : ∃ t, Listed p1.pending a t
  · obtain ⟨t, ht⟩ := hany
    obtain ⟨l, hl, -⟩ := id ht
    obtain ⟨last, hlast, hnext⟩ := hin a (hlisted_mem p1 a t ht) l hl
    obtain ⟨init, hinit⟩ := getLast?_eq_some_iff.mp hlast
    have hsort := l.txs.sorted
    rw [hinit] at hsort
    have hbel := (pairwise_append.mp hsort).2.2
    have hmem : Listed p1.pending a last := ⟨l, hl, hinit ▸ mem_append_right _ mem_cons_self⟩
    have hlt := toNat_add_one (hmax last (hi1.univ last (.inl ⟨a, .inl hmem⟩)))
    rw [hnext, lt_iff_toNat_lt, hlt, Nat.lt_succ_iff]
    constructor
    · rintro ⟨t', ht', rfl⟩
      refine ⟨(htrim a).ge t' ht', ?_⟩
      have hin' := (listed_iff hl).mp ht'
      rw [hinit] at hin'
      rcases mem_append.mp hin' with hin' | hin'
      · exact UInt64.le_of_lt (hbel t' hin' last mem_cons_self)
      · exact mem_singleton.mp hin' ▸ UInt64.le_refl _
    · exact fun hb ↦ (htrim a).closed last hmem nonce hb.1 hb.2
  have hnext : p2.pendingNonce a ≤ p1.currentState.nonce a := by
    have hlow := (htrim a).front.resolve_right hany
    by_cases ha : a ∈ rt.rangeOrder p1.pending.keys
    · rw [(rt.rangeOrder_perm _).mem_iff, ExtTreeMap.mem_keys, mem_iff_isSome_getElem?] at ha
      obtain ⟨l, hl⟩ := isSome_iff_exists.mp ha
      obtain ⟨last, hlast, -⟩ := hin a (by
        rw [(rt.rangeOrder_perm _).mem_iff, ExtTreeMap.mem_keys, mem_iff_isSome_getElem?]
        exact ha) l hl
      exact absurd ⟨last, l, hl, mem_of_getLast? hlast⟩ hany
    · rw [hout a ha]
      exact hlow
  refine iff_of_false (fun hex ↦ hany ⟨hex.choose, hex.choose_spec.1⟩) (fun hb ↦ ?_)
  exact UInt64.lt_irrefl _ (UInt64.lt_of_lt_of_le hb.2 (UInt64.le_trans hnext hb.1))

/-! ### Every pool -/

theorem Rested.executable (h : Rested p) : Executable p :=
  ⟨fun a _ nonce ↦ h.contiguous a nonce, h.affordable⟩

theorem rested_initial (config : TxPoolConfig) : Rested (initial config) := by
  have hnone : ∀ a t, ¬ Listed (initial config).pending a t := fun _ _ ↦ not_listed_empty
  refine ⟨fun a nonce ↦ iff_of_false ?_ ?_, fun a t ht ↦ absurd ht (hnone a t)⟩
  · rintro ⟨t, ht, -⟩
    exact hnone a t ht
  rintro ⟨-, hlt⟩
  have hzero : (initial config).pendingNonce a = 0 := by
    show (∅ : GoMap Address UInt64)[a]?.getD 0 = 0
    rfl
  exact UInt64.not_lt_zero hlt

theorem fronted_pointAt (state : AccountState) (gasLimit : UInt64) : Fronted (p.pointAt state gasLimit) := by
  intro a
  refine .inl ?_
  show (∅ : GoMap Address UInt64)[a]?.getD (state.nonce a) ≤ state.nonce a
  exact UInt64.le_refl _

theorem Rested.backed_pointAt (h : Rested p) {state : AccountState} (hrs : Rising p state) (gasLimit : UInt64) :
    Backed (p.pointAt state gasLimit) := by
  intro a nonce hge hcov
  obtain hlt | ⟨t, ht, hle⟩ := hcov
  · exact absurd (UInt64.lt_of_le_of_lt hge hlt) (UInt64.lt_irrefl _)
  have hlast := ((h.contiguous a t.nonce).mp ⟨t, ht, rfl⟩).2
  exact (h.contiguous a nonce).mpr ⟨UInt64.le_trans (hrs a t ht) hge, UInt64.lt_of_le_of_lt hle hlast⟩

/-- The pending transactions are executable in every pool that is reached by transactions
below the highest nonce, if no `reset` takes back a nonce of an account with some. -/
theorem reachable_executable (hU : ∀ t t', U t → U t' → t.hash = t'.hash → t = t')
    (hmax : ∀ t, U t → t.nonce + 1 ≠ 0) (hr : Reachable ⟨fun _ t ↦ U t, Rising⟩ config p) :
    Executable p := by
  have hk : Keeps ⟨fun _ t ↦ U t, Rising⟩ config _ _ :=
    keeps_config hU (fun p t ht ↦ ⟨ht, fun hf ↦ absurd hf Bool.false_ne_true⟩)
  have hk' : Keeps ⟨fun _ t ↦ U t, Rising⟩ config
      (fun p ↦ (Indexed U ⟨p, [], []⟩ ∧ p.config = config.sanitize) ∧ Rested p)
      (fun p ↦ (Indexed U ⟨p, [], []⟩ ∧ p.config = config.sanitize) ∧ Fronted p ∧ Backed p) := by
    constructor
    · exact ⟨hk.initial, rested_initial config⟩
    · exact fun rt p t isLocal h ht ↦ ⟨hk.add rt p t isLocal h.1 ht, (add_turns hU h.1.1).rested h.2⟩
    · exact fun rt p p' now accounts h hp ↦
        ⟨hk.promote rt p p' now accounts h.1 hp, (promoteExecutables_turns hU hmax h.1.1 hp).rested h.2⟩
    · exact fun p state gasLimit h hrs ↦ ⟨hk.point p state gasLimit h.1 hrs, fronted_pointAt state gasLimit,
        h.2.backed_pointAt hrs gasLimit⟩
    · intro rt p t h ht
      have hturns : Turns p (p.add rt t false).2 := add_turns hU h.1.1
      exact ⟨hk.add_mid rt p t h.1 ht, hturns.fronted h.2.1, hturns.backed h.2.2⟩
    · intro rt p p' now accounts h hp
      have hturns := promoteExecutables_turns hU hmax h.1.1 hp
      exact ⟨hk.promote_mid rt p p' now accounts h.1 hp, hturns.fronted h.2.1, hturns.backed h.2.2⟩
    · exact fun rt p p1 p2 h h1 h2 ↦
        ⟨hk.demote rt p p1 p2 h.1 h1 h2, demote_rested hU hmax h.1.1 h.2.1 h.2.2.ungapped h1 h2⟩
    · exact fun p h ↦ ⟨hk.homestead p h.1, h.2.contiguous, h.2.affordable⟩
    · exact fun rt p price h ↦ ⟨hk.setGasPrice rt p price h.1, (setGasPrice_turns hU h.1.1 price).rested h.2⟩
    · intro rt p now h
      have hturns : Turns p (p.evict rt now) := ((composes_turns U).evict (fun _ ts hi ↦ removeAll_turns hU ts hi) h.1.1).1
      exact ⟨hk.evict rt p now h.1, hturns.rested h.2⟩
  exact (hk'.reachable hr).2.executable

/-- Three transactions that follow each other are pending, the fourth one waits. -/
theorem reachable_executable_four : ∃ p, (p.pending.toList.map (fun e ↦ (e.1, e.2.txs.items.map (·.nonce)))) =
    [(1, [0, 1, 2])] ∧ p.pendingNonce 1 = 3 ∧ Executable p := by
  obtain ⟨p0, hnew, p, hp, hpend, hnonce⟩ : ∃ p0, new .inOrder 0 {} (plainChain 1000000) = some p0 ∧
      ∃ p, p0.run .inOrder 0
        (.addRemotes [plainTx 4 1 4 5, plainTx 2 1 1 5, plainTx 1 1 0 5, plainTx 3 1 2 5]) = some p ∧
      p.pending.toList.map (fun e ↦ (e.1, e.2.txs.items.map (·.nonce))) = [(1, [0, 1, 2])] ∧
      p.pendingNonce 1 = 3 := by decide +kernel
  refine ⟨p, hpend, hnonce, ?_⟩
  have hr : Reachable ⟨fun _ t ↦ t ∈ [plainTx 4 1 4 5, plainTx 2 1 1 5, plainTx 1 1 0 5, plainTx 3 1 2 5], Rising⟩
      {} p := by
    refine .run (.new ?_ hnew) ?_ hp
    · intro reinject state hre hst
      cases some.inj hre
      exact ⟨trivial, fun _ _ ht ↦ absurd ht not_listed_empty⟩
    · exact ⟨.head _, .tail _ (.head _), .tail _ (.tail _ (.head _)), .tail _ (.tail _ (.tail _ (.head _))), trivial⟩
  have hhash : ∀ t ∈ [plainTx 4 1 4 5, plainTx 2 1 1 5, plainTx 1 1 0 5, plainTx 3 1 2 5],
      ∀ t' ∈ [plainTx 4 1 4 5, plainTx 2 1 1 5, plainTx 1 1 0 5, plainTx 3 1 2 5], t.hash = t'.hash → t = t' := by
    decide
  exact reachable_executable (fun t t' ht ht' ↦ hhash t ht t' ht') (by decide) hr

/-! ### A chain that is reorganised -/

/-- The blocks of two branches with the same number. The account 1 has sent two transactions
in the first one, the second of them for a price that the pool does not take. -/
def firstBranch : Block := ⟨1, 0, 1, 1, 1000000, [plainTx 1 1 0 5, plainTx 2 1 1 0]⟩

def secondBranch : Block := ⟨2, 0, 1, 2, 1000000, []⟩

def forkBlock (hash : Hash) (number : UInt64) : Option Block :=
  if hash = 0 ∧ number = 0 then some ⟨0, 0, 0, 0, 1000000, []⟩
  else if hash = 1 ∧ number = 1 then some firstBranch
  else if hash = 2 ∧ number = 1 then some secondBranch
  else none

theorem forkBlock_number (h : Hash) (n : UInt64) (b : Block) (hb : forkBlock h n = some b) : b.number = n := by
  unfold forkBlock at hb
  split_ifs at hb with h1 h2 h3
  · exact some.inj hb ▸ h1.2.symm
  · exact some.inj hb ▸ h2.2.symm
  · exact some.inj hb ▸ h3.2.symm

def forkChain (head : Block) : Chain where
  getBlock := forkBlock
  getBlock_number := forkBlock_number
  stateAt root := some ⟨fun _ ↦ if root = 1 then 2 else 0, fun _ ↦ 1000000⟩
  currentBlock := head

/-- The third transaction is pending when the second branch takes over. The first one comes
back, the second one does not, and the demotion finds no gap, for the list has the first
nonce. -/
theorem not_executable_reorganised :
    ∃ p, Reachable ⟨fun _ _ ↦ True, fun _ _ ↦ True⟩ {} p ∧ ¬ Executable p := by
  obtain ⟨p0, hnew, p1, hp1, p, hp, hcur, hnext, l, hl, hnon⟩ : ∃ p0,
      new .inOrder 0 {} (forkChain firstBranch) = some p0 ∧
      ∃ p1, p0.run .inOrder 0 (.addRemote (plainTx 3 1 2 5)) = some p1 ∧
      ∃ p, p1.run .inOrder 0 (.reset (forkChain secondBranch) (some firstBranch) secondBranch) = some p ∧
      p.currentState.nonce 1 = 0 ∧ p.pendingNonce 1 = 3 ∧
      ∃ l, p.pending[(1 : Address)]? = some l ∧ l.txs.items.map (·.nonce) = [0, 2] := by decide +kernel
  have hr : Reachable ⟨fun _ _ ↦ True, fun _ _ ↦ True⟩ {} p := by
    refine .run (.run (.new ?_ hnew) ?_ hp1) ?_ hp
    · exact fun _ _ _ _ ↦ ⟨batch_of_forall (fun _ _ ↦ trivial) _, trivial⟩
    · exact trivial
    · exact fun _ _ _ _ ↦ ⟨batch_of_forall (fun _ _ ↦ trivial) _, trivial⟩
  have hmem : ∀ nonce, (∃ t, Listed p.pending 1 t ∧ t.nonce = nonce) ↔ nonce ∈ [0, 2] := by
    intro nonce
    simp only [listed_iff hl, ← hnon, List.mem_map]
  refine ⟨p, hr, fun h ↦ ?_⟩
  obtain ⟨t, ht, -⟩ := (hmem 0).mpr mem_cons_self
  have hone := (h.contiguous 1 ⟨t, ht⟩ 1).mpr (by rw [hcur, hnext]; decide)
  exact absurd ((hmem 1).mp hone) (by decide)

end TxPool

end BjutEth.Pool
