import BjutEth.Pool.Index

namespace BjutEth.Pool

open Std Option UInt64 List TxSortedMap TxList
open Alien (Address Hash Runtime)

variable {U : Transaction → Prop} {rt : Runtime} {p p' q : TxPool} {loose debt debt' : List Transaction}
variable {a : Address} {t t' old : Transaction} {l : TxList} {config : TxPoolConfig} {isLocal : Bool}

namespace TxList

theorem add_eq_false_iff (priceBump : UInt64) :
    (l.add t priceBump).1 = false ↔
      ∃ old ∈ l.txs.items, old.nonce = t.nonce ∧ underbids priceBump old t = true := by
  unfold add
  cases hget : l.txs.get t.nonce with
  | none =>
    refine iff_of_false (by simp) ?_
    rintro ⟨old, hold, hn, -⟩
    exact get_eq_none_iff.mp hget old hold hn
  | some old =>
    obtain ⟨hold, hn⟩ := get_eq_some_iff.mp hget
    dsimp only [any_some]
    split_ifs with hu
    · exact iff_of_true rfl ⟨old, hold, hn, hu⟩
    refine iff_of_false (by simp) ?_
    rintro ⟨old', hold', hn', hu'⟩
    obtain rfl := eq_of_nonce hold hold' (hn.trans hn'.symm)
    exact hu hu'

theorem add_eq_self {priceBump : UInt64} (h : (l.add t priceBump).1 = false) :
    l.add t priceBump = (false, none, l) := by
  rcases l.add_cases t priceBump with ⟨hadd, -⟩ | ⟨l', hadd, -, -⟩
  · exact hadd
  rw [hadd] at h
  cases h

end TxList

namespace TxPool

/-! ### What a full pool drops -/

theorem enqueueAll_all (hU : Separated U) (ts : List Transaction)
    (h : Indexed U ⟨p, ts ++ loose, debt⟩) : (p.enqueueAll rt ts).all = p.all := by
  induction ts generalizing p with
  | nil => rfl
  | cons t ts ih =>
    obtain ⟨l, he, -, -⟩ := enqueueTx_loose rt h
    have hs : Shuffle rt ⟨p, [t] ++ (ts ++ loose), debt⟩ ⟨p.enqueueAll rt [t], ts ++ loose, debt⟩ :=
      enqueueAll_path hU [t] h
    refine (ih (p := (p.enqueueTx rt t).2) (Shuffle.indexed hU h hs)).trans ?_
    rw [he]
    rfl

theorem removeQueued_all : (p.removeQueued t).all = p.all := by
  unfold removeQueued
  split
  · rfl
  dsimp only
  split_ifs <;> rfl

theorem lowerPendingNonce_all (nonce : UInt64) : (p.lowerPendingNonce a nonce).all = p.all := by
  unfold lowerPendingNonce
  split_ifs <;> rfl

theorem removeTx_all {outofbound : Bool} (hU : Separated U) (h : Indexed U ⟨p, [], debt⟩) (hin : U t)
    (hs : Settled outofbound t debt debt') : (p.removeTx rt t.hash outofbound).all = p.all.erase t.hash := by
  have hun : ∀ t, (p.unindex rt t outofbound).all = p.all.erase t.hash := by
    intro t
    cases outofbound <;> rfl
  unfold removeTx
  cases hall : p.all[t.hash]? with
  | none => exact (GoMap.erase_of_getElem?_eq_none p.all hall).symm
  | some t' =>
    obtain rfl := h.eq_of_hash hU hin hall
    have ht := ((h.all _ _).mp hall).2.resolve_right not_mem_nil
    dsimp only
    obtain ⟨-, he⟩ | ⟨q, ts, hmid, hq, -, -, he⟩ := @unlist_cases U rt p debt t' outofbound debt' h hs ht
    · rw [he, removeQueued_all, hun]
    · rw [he, lowerPendingNonce_all, enqueueAll_all hU ts (Shuffle.indexed hU h hmid), hq, hun]

theorem removeAll_all (hU : Separated U) {ts : List Transaction}
    (h : Indexed U ⟨p, [], debt⟩) (hd : debt.Perm ts) {hash : Hash} :
    (p.removeAll rt ts false).all[hash]? = some t ↔ p.all[hash]? = some t ∧ ∀ t' ∈ ts, t'.hash ≠ hash := by
  induction ts generalizing p debt with
  | nil => exact (and_iff_left (fun t' ht' ↦ absurd ht' not_mem_nil)).symm
  | cons t' ts ih =>
    have hs : Shuffle rt ⟨p, [], debt⟩ ⟨p.removeTx rt t'.hash false, [], ts⟩ := removeTx_debt hU h hd
    refine (ih (p := p.removeTx rt t'.hash false) (Shuffle.indexed hU h hs) (.refl ts)).trans ?_
    rw [removeTx_all hU h (h.heap t' (.inr (hd.symm.subset mem_cons_self))) (.inr ⟨rfl, hd⟩), GoMap.get_erase,
      forall_mem_cons]
    split_ifs with hh
    · exact iff_of_false (fun h ↦ by cases h.1) (fun h ↦ h.2.1 hh)
    · exact and_congr_right (fun _ ↦ (and_iff_right hh).symm)

def dropped (p : TxPool) : List Transaction :=
  (p.priced.discard p.all p.isLocal
    ((p.all.size : ℤ) - (p.config.globalSlots + p.config.globalQueue - 1).toInt64.toInt)).1

theorem discardLoop_live {priced : TxPricedList} {all : TxLookup} {isLocal : Transaction → Bool} {fuel : ℕ}
    {count : ℤ} (ht : t ∈ (priced.discardLoop all isLocal fuel count).2.1) : all[t.hash]?.isSome := by
  induction fuel generalizing priced count with
  | zero => cases ht
  | succ fuel ih =>
    unfold TxPricedList.discardLoop at ht
    by_cases hc : count ≤ 0
    · rw [if_pos hc] at ht
      cases ht
    rw [if_neg hc] at ht
    cases hpop : Heap.pop cheaper priced.items with
    | none =>
      rw [hpop] at ht
      cases ht
    | some e =>
      obtain ⟨x, items⟩ := e
      rw [hpop] at ht
      dsimp only at ht
      by_cases hn : all[x.hash]?.isNone = true
      · rw [if_pos hn] at ht
        exact ih ht
      split_ifs at ht
      · exact ih ht
      rcases mem_cons.mp ht with rfl | ht
      · rwa [Bool.not_eq_true, isNone_eq_false_iff] at hn
      · exact ih ht

theorem dropped_path : ∃ debt, debt.Perm p.dropped ∧ Shuffle rt p
    ⟨{ p with priced := (p.priced.discard p.all p.isLocal
      ((p.all.size : ℤ) - (p.config.globalSlots + p.config.globalQueue - 1).toInt64.toInt)).2 }, [], debt⟩ :=
  saved_path (discardLoop_path p.isLocal p.priced.items.size _)

theorem dropped_mem (hU : Separated U) (h : Indexed U p)
    (ht : t ∈ p.dropped) : p.all[t.hash]? = some t := by
  obtain ⟨debt, hd, hs⟩ := @dropped_path .inOrder p
  have hUt : U t := (Shuffle.indexed hU h hs).heap t (.inr (hd.symm.subset ht))
  obtain ⟨t', ht'⟩ := isSome_iff_exists.mp (discardLoop_live ht)
  rw [h.eq_of_hash hU hUt ht'] at ht'
  exact ht'

theorem makeRoom_all (hU : Separated U) (h : Indexed U p)
    {hash : Hash} :
    (p.makeRoom rt).all[hash]? = some t ↔ p.all[hash]? = some t ∧ t ∉ p.dropped := by
  obtain ⟨debt, hd, hs⟩ := @dropped_path rt p
  refine (removeAll_all hU (Shuffle.indexed hU h hs) hd).trans (and_congr_right (fun hall ↦ ?_))
  obtain ⟨rfl, -⟩ := (h.all hash t).mp hall
  constructor
  · exact fun hne ht ↦ hne t ht rfl
  intro hnot t' ht' hh
  have hin := dropped_mem hU h ht'
  rw [hh, hall] at hin
  cases hin
  exact hnot ht'

/-! ### What a list rejects -/

def Outbidden (p : TxPool) (t : Transaction) : Prop :=
  ∃ old, p.Pooled old ∧ old.sender = t.sender ∧ old.nonce = t.nonce ∧ TxList.underbids p.config.priceBump old t = true

structure Untouched (p p' : TxPool) : Prop where
  all : p'.all = p.all
  pending : p'.pending = p.pending
  queue : p'.queue = p.queue

theorem enqueueTx_error_iff : (∃ e, (p.enqueueTx rt t).1 = .error e) ↔
    ∃ old, Listed p.queue (senderOf t) old ∧ old.nonce = t.nonce ∧
      underbids p.config.priceBump old t = true := by
  have hadd := add_eq_false_iff (l := p.queue[senderOf t]?.getD { strict := false }) (t := t)
    p.config.priceBump
  simp only [listed_getD] at hadd
  rw [← hadd]
  unfold enqueueTx
  generalize (p.queue[senderOf t]?.getD { strict := false }).add t p.config.priceBump = r
  obtain ⟨_ | _, old, l⟩ := r
  · exact iff_of_true ⟨_, rfl⟩ rfl
  refine iff_of_false ?_ (fun h ↦ Bool.noConfusion h)
  rintro ⟨e, he⟩
  cases he

variable {e : TxError}

theorem enqueueTx_untouched (he : (p.enqueueTx rt t).1 = .error e) :
    Untouched p (p.enqueueTx rt t).2 := by
  have hfail : ((p.queue[senderOf t]?.getD { strict := false }).add t p.config.priceBump).1 = false := by
    rw [add_eq_false_iff]
    simp only [listed_getD]
    exact enqueueTx_error_iff.mp ⟨e, he⟩
  obtain ⟨old, hold, -⟩ := (add_eq_false_iff _).mp hfail
  have hlist : p.queue[senderOf t]? = some (p.queue[senderOf t]?.getD { strict := false }) := by
    cases hq : p.queue[senderOf t]? with
    | none =>
      rw [hq] at hold
      cases hold
    | some l => rfl
  refine ⟨?_, enqueueTx_pending, ?_⟩
  · unfold enqueueTx
    rw [add_eq_self hfail]
    rfl
  · rw [enqueueTx_queue, add_eq_self hfail]
    exact GoMap.insert_eq_self hlist

theorem enqueueNew_fst : (p.enqueueNew rt t isLocal).1 = (p.enqueueTx rt t).1 := by
  unfold enqueueNew
  generalize p.enqueueTx rt t = r
  obtain ⟨_ | _, q⟩ := r <;> rfl

theorem enqueueNew_untouched (he : (p.enqueueNew rt t isLocal).1 = .error e) :
    Untouched p (p.enqueueNew rt t isLocal).2 := by
  rw [enqueueNew_fst] at he
  have hu := enqueueTx_untouched he
  unfold enqueueNew
  generalize p.enqueueTx rt t = r at he hu
  obtain ⟨e' | _, q⟩ := r
  · exact hu
  · cases he

theorem insertTx_untouched (he : (p.insertTx rt t isLocal).1 = .error e) :
    Untouched p (p.insertTx rt t isLocal).2 := by
  unfold insertTx at he ⊢
  cases hl : p.pending[senderOf t]? with
  | none =>
    rw [hl] at he
    exact enqueueNew_untouched he
  | some l =>
    rw [hl] at he
    dsimp only at he ⊢
    by_cases ho : (!l.overlaps t) = true
    · rw [if_pos ho] at he ⊢
      exact enqueueNew_untouched he
    rw [if_neg ho] at he ⊢
    generalize l.add t p.config.priceBump = r at he
    obtain ⟨_ | _, old, l'⟩ := r
    · exact ⟨rfl, rfl, rfl⟩
    · cases he

theorem insertTx_error_iff (h : Indexed U p) (ha : t.sender = some a) :
    (∃ e, (p.insertTx rt t isLocal).1 = .error e) ↔ Outbidden p t := by
  have hof : senderOf t = a := by rw [senderOf, ha]; rfl
  have hout : Outbidden p t ↔ ∃ old, (Listed p.pending a old ∨ Listed p.queue a old) ∧ old.nonce = t.nonce ∧
      underbids p.config.priceBump old t = true := by
    refine exists_congr (fun old ↦ ?_)
    constructor
    · rintro ⟨⟨b, hb⟩, hs, hn, hu⟩
      have hbs : old.sender = some b := hb.elim (h.pending_sender b old) (h.queue_sender b old)
      cases hbs.symm.trans (hs.trans ha)
      exact ⟨hb, hn, hu⟩
    rintro ⟨hb, hn, hu⟩
    have hbs : old.sender = some a := hb.elim (h.pending_sender a old) (h.queue_sender a old)
    exact ⟨⟨a, hb⟩, hbs.trans ha.symm, hn, hu⟩
  -- a nonce that no pending transaction has is looked up in the queue
  have hque (hfree : ∀ old, Listed p.pending a old → old.nonce ≠ t.nonce) :
      (∃ e, (p.enqueueNew rt t isLocal).1 = .error e) ↔ Outbidden p t := by
    rw [enqueueNew_fst, enqueueTx_error_iff, hof, hout]
    refine exists_congr (fun old ↦ and_congr_left (fun hc ↦ ?_))
    exact ⟨.inr, fun hl ↦ hl.resolve_left (fun hp ↦ hfree old hp hc.1)⟩
  unfold insertTx
  rw [hof]
  cases hl : p.pending[a]? with
  | none =>
    refine hque ?_
    rintro old ⟨l, hl', -⟩
    cases hl.symm.trans hl'
  | some l =>
    dsimp only
    by_cases ho : (!l.overlaps t) = true
    · rw [if_pos ho]
      refine hque (fun old hold ↦ ?_)
      have hnone : l.txs.get t.nonce = none := by
        rwa [overlaps, Bool.not_eq_true', isSome_eq_false_iff, isNone_iff_eq_none] at ho
      exact get_eq_none_iff.mp hnone old ((listed_iff hl).mp hold)
    rw [if_neg ho]
    have hsome : (l.txs.get t.nonce).isSome = true := by
      rwa [overlaps, Bool.not_eq_true', Bool.not_eq_false] at ho
    obtain ⟨first, hfst⟩ := isSome_iff_exists.mp hsome
    obtain ⟨hmem, hn⟩ := get_eq_some_iff.mp hfst
    have hadd := add_eq_false_iff (l := l) (t := t) p.config.priceBump
    have hpend : Outbidden p t ↔ (l.add t p.config.priceBump).1 = false := by
      rw [hadd, hout]
      refine exists_congr (fun old ↦ ?_)
      rw [← listed_iff hl]
      refine and_congr_left (fun hc ↦ or_iff_left (fun hq ↦ ?_))
      exact h.apart a first old ((listed_iff hl).mpr hmem) hq (hn.trans hc.1.symm)
    rw [hpend]
    generalize l.add t p.config.priceBump = r
    obtain ⟨_ | _, old, l'⟩ := r
    · exact iff_of_true ⟨_, rfl⟩ rfl
    refine iff_of_false ?_ (fun h ↦ Bool.noConfusion h)
    rintro ⟨e, he⟩
    cases he

/-! ### `add` -/

def lookedAt (p : TxPool) (t : Transaction) (isLocal : Bool) : TxPool :=
  if isLocal then p else { p with priced := (p.priced.underpriced p.all p.isLocal t).2 }

/-- The pool is full, the new transaction passes the checks up to the price of the cheapest
one, and the pool drops others for it before it finds that the new transaction does not
outbid one that it has kept. -/
structure Spoils (p : TxPool) (t : Transaction) (isLocal : Bool) : Prop where
  unknown : p.all[t.hash]? = none
  valid : p.validateTx t isLocal = none
  full : p.config.globalSlots + p.config.globalQueue ≤ ofNat p.all.size
  priced : isLocal = false → (p.priced.underpriced p.all p.isLocal t).1 = false
  drops : (p.lookedAt t isLocal).dropped ≠ []
  outbidden : ∃ old, p.Pooled old ∧ old ∉ (p.lookedAt t isLocal).dropped ∧ old.sender = t.sender ∧
    old.nonce = t.nonce ∧ TxList.underbids p.config.priceBump old t = true

theorem lookedAt_path : Shuffle rt p (p.lookedAt t isLocal) := by
  unfold lookedAt
  split_ifs
  · exact .refl
  · exact underpriced_path _

theorem makeRoom_untouched_iff (hU : Separated U) (h : Indexed U p)
    (ha : t.sender = some a) :
    (∀ e, ((p.makeRoom rt).insertTx rt t isLocal).1 = .error e →
        Untouched p ((p.makeRoom rt).insertTx rt t isLocal).2) ↔
      ¬ (p.dropped ≠ [] ∧ ∃ old, p.Pooled old ∧ old ∉ p.dropped ∧ old.sender = t.sender ∧ old.nonce = t.nonce ∧
        underbids p.config.priceBump old t = true) := by
  have hs : Shuffle rt p (p.makeRoom rt) := makeRoom_path hU h
  have hi := Shuffle.indexed hU h hs
  have hcfg : (p.makeRoom rt).config = p.config := hs.sameHead.config
  have hpool : ∀ old, (p.makeRoom rt).Pooled old ↔ p.Pooled old ∧ old ∉ p.dropped := by
    intro old
    have hin := hi.all old.hash old
    have hin' := h.all old.hash old
    rw [makeRoom_all hU h, hin', or_iff_left not_mem_nil, or_iff_left not_mem_nil, and_iff_right rfl,
      and_iff_right rfl] at hin
    exact hin.symm
  have hout : (∃ old, p.Pooled old ∧ old ∉ p.dropped ∧ old.sender = t.sender ∧ old.nonce = t.nonce ∧
      underbids p.config.priceBump old t = true) ↔ Outbidden (p.makeRoom rt) t := by
    refine exists_congr (fun old ↦ ?_)
    rw [hpool, hcfg, and_assoc]
  have herror : (∃ e, ((p.makeRoom rt).insertTx rt t isLocal).1 = .error e) ↔ Outbidden (p.makeRoom rt) t :=
    insertTx_error_iff hi ha
  rw [hout, ← herror]
  constructor
  · rintro hun ⟨hdrop, e, he⟩
    obtain ⟨t', ht'⟩ := exists_mem_of_ne_nil _ hdrop
    have hall : (p.makeRoom rt).all = p.all := (insertTx_untouched he).all.symm.trans (hun e he).all
    have hin := dropped_mem hU h ht'
    rw [← hall, makeRoom_all hU h] at hin
    exact hin.2 ht'
  intro hnot e he
  by_cases hdrop : p.dropped = []
  · have hu := insertTx_untouched he
    have hroom : Untouched p (p.makeRoom rt) := by
      have hdef : p.makeRoom rt = { p with priced := (p.priced.discard p.all p.isLocal ((p.all.size : ℤ) -
          (p.config.globalSlots + p.config.globalQueue - 1).toInt64.toInt)).2 }.removeAll rt p.dropped false := rfl
      rw [hdef, hdrop]
      exact ⟨rfl, rfl, rfl⟩
    exact ⟨hu.all.trans hroom.all, hu.pending.trans hroom.pending, hu.queue.trans hroom.queue⟩
  · exact absurd ⟨hdrop, e, he⟩ hnot

section

variable (hk : p.all[t.hash]? = none)

include hk

theorem add_invalid (hv : p.validateTx t isLocal = some e) :
    p.add rt t isLocal = (.error e, p) := by
  unfold add
  rw [hk, hv]
  rfl

section

variable (hv : p.validateTx t isLocal = none)

include hv

theorem add_roomy
    (hfull : ¬ p.config.globalSlots + p.config.globalQueue ≤ ofNat p.all.size) :
    p.add rt t isLocal = p.insertTx rt t isLocal := by
  unfold add
  rw [hk, hv]
  exact if_neg hfull

theorem add_full (hfull : p.config.globalSlots + p.config.globalQueue ≤ ofNat p.all.size)
    (hprc : isLocal = false → (p.priced.underpriced p.all p.isLocal t).1 = false) :
    p.add rt t isLocal = ((p.lookedAt t isLocal).makeRoom rt).insertTx rt t isLocal := by
  unfold add
  rw [hk, hv]
  refine (if_pos hfull).trans ?_
  cases isLocal with
  | true => rfl
  | false =>
    dsimp only
    rw [hprc rfl]
    rfl

theorem add_cheap (hfull : p.config.globalSlots + p.config.globalQueue ≤ ofNat p.all.size)
    (hprc : ¬ (isLocal = false → (p.priced.underpriced p.all p.isLocal t).1 = false)) :
    p.add rt t isLocal = (.error .underpriced, p.lookedAt t isLocal) := by
  obtain ⟨rfl, hu⟩ := Classical.not_imp.mp hprc
  unfold add
  rw [hk, hv]
  refine (if_pos hfull).trans ?_
  dsimp only
  rw [Bool.not_eq_false] at hu
  rw [hu]
  rfl

end

end

theorem lookedAt_untouched : Untouched p (p.lookedAt t isLocal) := by
  unfold lookedAt
  split_ifs <;> exact ⟨rfl, rfl, rfl⟩

/-- A rejected transaction leaves the pool untouched, unless the pool has dropped others for
it before. -/
theorem add_error_untouched_iff (hU : ∀ t t', U t → U t' → t.hash = t'.hash → t = t')
    (hr : Reachable ⟨fun _ t ↦ U t, fun _ _ ↦ True⟩ config p) (t : Transaction) (isLocal : Bool) :
    (∀ e, (p.add rt t isLocal).1 = .error e → Untouched p (p.add rt t isLocal).2) ↔ ¬ Spoils p t isLocal := by
  have hk : Keeps ⟨fun _ t ↦ U t, fun _ _ ↦ True⟩ config _ _ :=
    keeps_config hU (fun p t ht ↦ ⟨ht, fun hf ↦ absurd hf Bool.false_ne_true⟩)
  have h := (hk.reachable hr).1
  by_cases hknw : p.all[t.hash]? = none
  swap
  · rw [add, if_pos (isSome_iff_ne_none.mpr hknw)]
    exact iff_of_true (fun _ _ ↦ ⟨rfl, rfl, rfl⟩) (fun hs ↦ hknw hs.unknown)
  cases hv : p.validateTx t isLocal with
  | some e =>
    rw [add_invalid hknw hv]
    refine iff_of_true (fun _ _ ↦ ⟨rfl, rfl, rfl⟩) (fun hs ↦ ?_)
    cases hv.symm.trans hs.valid
  | none =>
    by_cases hfull : p.config.globalSlots + p.config.globalQueue ≤ ofNat p.all.size
    swap
    · rw [add_roomy hknw hv hfull]
      exact iff_of_true (fun _ he ↦ insertTx_untouched he) (fun hs ↦ hfull hs.full)
    by_cases hprc : isLocal = false → (p.priced.underpriced p.all p.isLocal t).1 = false
    swap
    · rw [add_cheap hknw hv hfull hprc]
      exact iff_of_true (fun _ _ ↦ lookedAt_untouched) (fun hs ↦ hprc hs.priced)
    rw [add_full hknw hv hfull hprc]
    obtain ⟨a, ha⟩ : ∃ a, t.sender = some a := ⟨_, validateTx_sender hv⟩
    have hlook := @lookedAt_untouched p t isLocal
    have hi : Indexed U ⟨p.lookedAt t isLocal, [], []⟩ := Shuffle.indexed hU h (@lookedAt_path rt p t isLocal)
    have hcfg : (p.lookedAt t isLocal).config = p.config := by
      unfold lookedAt
      split_ifs <;> rfl
    have hpool : ∀ old, (p.lookedAt t isLocal).Pooled old ↔ p.Pooled old := by
      intro old
      rw [Pooled, Pooled, hlook.pending, hlook.queue]
    have hiff := @makeRoom_untouched_iff U rt (p.lookedAt t isLocal) a t isLocal hU hi ha
    simp only [hpool, hcfg] at hiff
    have huntouched : ∀ q, Untouched (p.lookedAt t isLocal) q ↔ Untouched p q := by
      intro q
      constructor
      · exact fun hu ↦ ⟨hu.all.trans hlook.all, hu.pending.trans hlook.pending, hu.queue.trans hlook.queue⟩
      exact fun hu ↦ ⟨hu.all.trans hlook.all.symm, hu.pending.trans hlook.pending.symm,
        hu.queue.trans hlook.queue.symm⟩
    simp only [huntouched] at hiff
    refine hiff.trans (not_congr ?_)
    exact ⟨fun hs ↦ ⟨hknw, hv, hfull, hprc, hs.1, hs.2⟩, fun hs ↦ ⟨hs.drops, hs.outbidden⟩⟩

/-! ### A pool with room for two transactions -/

def fullPool : Option TxPool :=
  (new .inOrder 0 { globalSlots := 1, globalQueue := 1 } (plainChain 1000000)).bind
    (fun p ↦ p.run .inOrder 0 (.addRemotes [plainTx 1 1 0 10, plainTx 2 2 0 1]))

theorem reachable_fullPool (hp : fullPool = some p) :
    Reachable ⟨fun _ t ↦ t = plainTx 1 1 0 10 ∨ t = plainTx 2 2 0 1, fun _ _ ↦ True⟩
      { globalSlots := 1, globalQueue := 1 } p := by
  obtain ⟨p0, hnew, hp⟩ := bind_eq_some_iff.mp hp
  refine .run (reachable_new hnew) ?_ hp
  exact ⟨.inl rfl, .inr rfl, trivial⟩

/-- A transaction that is no better than the cheapest one is rejected before anything is
dropped. -/
theorem add_error_untouched_cheap : ∃ p, fullPool = some p ∧
    ∀ e, (p.add .inOrder (plainTx 3 3 0 1) false).1 = .error e →
      Untouched p (p.add .inOrder (plainTx 3 3 0 1) false).2 := by
  obtain ⟨p, hp, hu⟩ : ∃ p, fullPool = some p ∧
      (p.priced.underpriced p.all p.isLocal (plainTx 3 3 0 1)).1 = true := by decide +kernel
  refine ⟨p, hp, (add_error_untouched_iff ?_ (reachable_fullPool hp) _ _).mpr (fun hs ↦ ?_)⟩
  · rintro t t' (rfl | rfl) (rfl | rfl) h
    · rfl
    · exact absurd h (by decide)
    · exact absurd h (by decide)
    · rfl
  · exact Bool.false_ne_true ((hs.priced rfl).symm.trans hu)

/-- The transaction of the account 2 is dropped for one of the account 1, which is then
rejected. -/
theorem not_untouched_dropped : ∃ p, fullPool = some p ∧
    (p.add .inOrder (plainTx 3 1 0 10) false).1 = .error .replaceUnderpriced ∧
    ¬ Untouched p (p.add .inOrder (plainTx 3 1 0 10) false).2 := by
  obtain ⟨p, hp, he, hsize⟩ : ∃ p, fullPool = some p ∧
      (p.add .inOrder (plainTx 3 1 0 10) false).1 = .error .replaceUnderpriced ∧
      (p.add .inOrder (plainTx 3 1 0 10) false).2.all.size ≠ p.all.size := by decide +kernel
  exact ⟨p, hp, he, fun hu ↦ hsize (congrArg _ hu.all)⟩

end TxPool

end BjutEth.Pool
