import BjutEth.Pool.Moves

namespace BjutEth.Pool

open Std TxSortedMap List Option TxList
open Alien (Address Hash Runtime)

variable {U : Transaction → Prop} {rt : Runtime} {p p' : TxPool} {loose debt : List Transaction}
variable {a b : Address} {t t' : Transaction} {l l' : TxList} {fresh : Bool} {now : ℤ}

/-! ### What the lists give -/

namespace TxSortedMap

variable {m m' : TxSortedMap}

theorem ext_mem (h : ∀ t, t ∈ m.items ↔ t ∈ m'.items) : m = m' := by
  have hp : m.items.Perm m'.items := (perm_ext_iff_of_nodup m.nodup m'.nodup).mpr h
  have he : m.items = m'.items := hp.eq_of_pairwise
    (fun t t' _ _ h h' ↦ absurd (UInt64.lt_trans h h') (UInt64.lt_irrefl _)) m.sorted m'.sorted
  obtain ⟨items, sorted⟩ := m
  subst he
  rfl

theorem splits_remove (h : m.get t.nonce = some t') : Splits m (m.remove t.nonce).2 [t'] := by
  obtain ⟨ht', hn⟩ := get_eq_some_iff.mp h
  refine ⟨(perm_ext_iff_of_nodup m.nodup ?_).mpr (fun t1 ↦ ?_)⟩
  · rw [singleton_append, nodup_cons, mem_remove]
    exact ⟨fun h' ↦ h'.2 hn, (m.remove t.nonce).2.nodup⟩
  rw [singleton_append, mem_cons, mem_remove]
  constructor
  · intro ht1
    by_cases hne : t1.nonce = t.nonce
    · exact .inl (eq_of_nonce ht1 ht' (hne.trans hn.symm))
    · exact .inr ⟨ht1, hne⟩
  rintro (rfl | ⟨ht1, -⟩)
  · exact ht'
  · exact ht1

theorem Splits.trans {m'' : TxSortedMap} {removed removed' : List Transaction} (h : Splits m m' removed)
    (h' : Splits m' m'' removed') : Splits m m'' (removed ++ removed') := by
  refine ⟨h.perm.trans ?_⟩
  rw [List.append_assoc]
  exact h'.perm.append_left removed

theorem put_remove : (m.remove t.nonce).2.put t = m.put t := by
  refine ext_mem (fun t' ↦ ?_)
  rw [mem_put, mem_put, mem_remove]
  tauto

end TxSortedMap

namespace TxList

theorem splits_cap {threshold : ℤ} {drops : List Transaction} (h : l.cap threshold = some (drops, l')) :
    TxSortedMap.Splits l.txs l'.txs drops := by
  obtain ⟨⟨drops', txs⟩, hc, he⟩ := map_eq_some_iff.mp h
  cases he
  exact TxSortedMap.splits_cap hc

theorem splits_filter (cost : ℤ) (gas : UInt64) :
    TxSortedMap.Splits l.txs (l.filter cost gas).2.2.txs
      ((l.filter cost gas).1 ++ (l.filter cost gas).2.1) := by
  unfold filter
  split_ifs
  · exact ⟨.refl _⟩
  dsimp only
  split_ifs
  · exact (TxSortedMap.splits_filter _).trans (TxSortedMap.splits_filter _)
  rw [append_nil]
  exact TxSortedMap.splits_filter _

theorem remove_fst : (l.remove t).1 = (l.txs.get t.nonce).isSome := by
  unfold remove TxSortedMap.remove
  cases (l.txs.get t.nonce) with
  | none => rfl
  | some t' =>
    simp only [isSome_some, Bool.not_true, Bool.false_eq_true, if_false]
    split_ifs <;> rfl

theorem derives_remove : l.Derives (l.remove t).2.2 := by
  intro strict hs
  unfold remove
  dsimp only
  split_ifs
  · exact hs
  · exact ⟨hs.strict, fun t' ht' ↦ hs.capped t' (mem_filter.mp (mem_filter.mp ht').1).1⟩
  · exact ⟨hs.strict, fun t' ht' ↦ hs.capped t' (mem_filter.mp ht').1⟩

theorem remove_invalids (h : l.strict = false) : (l.remove t).2.1 = [] := by
  unfold remove
  dsimp only
  rw [h]
  split_ifs with h1 h2
  · rfl
  · cases h2
  · rfl

theorem splits_list_remove (h : l.txs.get t.nonce = some t') :
    TxSortedMap.Splits l.txs (l.remove t).2.2.txs (t' :: (l.remove t).2.1) := by
  have hr : (l.txs.remove t.nonce).1 = true := by
    show (l.txs.get t.nonce).isSome = true
    rw [h]
    rfl
  unfold remove
  simp only [hr, Bool.not_true, Bool.false_eq_true, if_false]
  split_ifs
  · exact (splits_remove h).trans (TxSortedMap.splits_filter _)
  · exact splits_remove h

theorem mem_remove_strict (hst : l.strict = true) (h : l.txs.get t.nonce ≠ none) :
    t' ∈ (l.remove t).2.2.txs.items ↔ t' ∈ l.txs.items ∧ t'.nonce < t.nonce := by
  have hr : (l.txs.remove t.nonce).1 = true := isSome_iff_ne_none.mpr h
  unfold remove
  simp only [hr, hst]
  show t' ∈ (TxSortedMap.remove _ _).2.items.filter _ ↔ _
  rw [mem_filter, mem_remove, and_assoc]
  refine and_congr_right (fun _ ↦ ?_)
  rw [Bool.not_eq_true', decide_eq_false_iff_not]
  constructor
  · rintro ⟨hne, hle⟩
    exact UInt64.lt_of_le_of_ne (UInt64.not_lt.mp hle) hne
  · intro hlt
    exact ⟨UInt64.ne_of_lt hlt, UInt64.lt_asymm hlt⟩

theorem add_of_free (h : l.txs.get t.nonce = none) (priceBump : UInt64) :
    ∃ l', l.add t priceBump = (true, none, l') ∧ l'.txs = l.txs.put t ∧ l.Derives l' := by
  have hs := l.derives_add t priceBump
  unfold add at hs ⊢
  simp only [h] at hs ⊢
  exact ⟨_, rfl, rfl, hs⟩

theorem add_cases (l : TxList) (t : Transaction) (priceBump : UInt64) :
    l.add t priceBump = (false, none, l) ∧ l.txs.get t.nonce ≠ none ∨
      ∃ l', l.add t priceBump = (true, l.txs.get t.nonce, l') ∧ l'.txs = l.txs.put t ∧
        l.Derives l' := by
  have hs := l.derives_add t priceBump
  unfold add at hs ⊢
  by_cases h : (l.txs.get t.nonce).any (fun old ↦ underbids priceBump old t) = true
  · refine .inl ⟨if_pos h, fun hn ↦ ?_⟩
    rw [hn] at h
    cases h
  · rw [if_neg h] at hs
    exact .inr ⟨_, if_neg h, rfl, hs⟩

theorem exists_cut (h : l.txs.get t.nonce = some t') :
    ∃ l1 : TxList, TxSortedMap.Splits l.txs l1.txs [t'] ∧ l.Derives l1 ∧
      l1.txs.put t = l.txs.put t ∧ ∀ t' ∈ l1.txs.items, t'.nonce ≠ t.nonce :=
  ⟨{ l with txs := (l.txs.remove t.nonce).2 }, splits_remove h,
    .of_splits (splits_remove h), put_remove,
    fun _ ht' ↦ (mem_remove.mp ht').2⟩

end TxList

namespace TxPool

abbrev Path (U : Transaction → Prop) (fresh : Bool) (rt : Runtime) : Conf → Conf → Prop :=
  Relation.ReflTransGen (Move U fresh rt)

abbrev Shuffle (rt : Runtime) : Conf → Conf → Prop := Path (fun _ ↦ False) false rt

variable {c c' : Conf}

theorem Path.indexed (hU : Separated U) (h : Indexed U c)
    (hp : Path U fresh rt c c') : Indexed U c' := by
  induction hp with
  | refl => exact h
  | tail _ hm ih => exact hm.indexed hU ih

theorem Path.sameHead (hp : Path U fresh rt c c') : SameHead c.pool c'.pool := by
  induction hp with
  | refl => exact .refl _
  | tail _ hm ih => exact ih.trans hm.sameHead

theorem Move.of_quiet (hm : Move (fun _ ↦ False) false rt c c') : Move U fresh rt c c' := by
  cases hm with
  | takePending hl hs hst => exact .takePending hl hs hst
  | takeQueue hl hs hst => exact .takeQueue hl hs hst
  | erasePending hl he => exact .erasePending hl he
  | eraseQueue hl he => exact .eraseQueue hl he
  | putPending ht hl hst => exact .putPending ht hl hst
  | putQueue ht hl hst => exact .putQueue ht hl hst
  | forget => exact .forget
  | drop ht => exact .drop ht
  | cleared ht hn => exact .cleared ht hn
  | enter _ hok => exact hok.1.elim
  | popStale hpop hn => exact .popStale hpop hn
  | popLive hpop hn => exact .popLive hpop hn
  | pushLive ht hpush => exact .pushLive ht hpush
  | other hp hq ha hpr hh => exact .other hp hq ha hpr hh

theorem Shuffle.path (hs : Shuffle rt c c') : Path U fresh rt c c' :=
  Relation.ReflTransGen.lift id (fun _ _ hm ↦ Move.of_quiet hm) _ _ hs

theorem Shuffle.indexed (hU : Separated U) (h : Indexed U c)
    (hs : Shuffle rt c c') : Indexed U c' :=
  have hp : Path U false rt c c' := Shuffle.path hs
  hp.indexed hU h

/-- Changes of the pool of which one can follow the other. -/
structure Composes (R : TxPool → TxPool → Prop) : Prop where
  refl : ∀ p, R p p
  trans : ∀ {p q r}, R p q → R q r → R p r

namespace Composes

variable {R : TxPool → TxPool → Prop} {α : Type}

theorem of_eq (f : TxPool → α) : Composes (fun p p' ↦ f p' = f p) := ⟨fun _ ↦ rfl, fun h h' ↦ h'.trans h⟩

theorem of_imp (P : TxPool → Prop) : Composes (fun p p' ↦ P p → P p') := ⟨fun _ h ↦ h, fun h h' hp ↦ h' (h hp)⟩

theorem foldl (h : Composes R) {f : TxPool → α → TxPool} (hf : ∀ p x, R p (f p x)) (xs : List α) :
    R p (xs.foldl f p) := by
  induction xs generalizing p with
  | nil => exact h.refl p
  | cons x xs ih => exact h.trans (hf p x) ih

theorem foldlM (h : Composes R) {f : TxPool → α → Option TxPool} (hf : ∀ p p' x, f p x = some p' → R p p')
    (xs : List α) (hp : xs.foldlM f p = some p') : R p p' := by
  induction xs generalizing p with
  | nil => exact some.inj hp ▸ h.refl p
  | cons x xs ih =>
    obtain ⟨p1, h1, hp⟩ := bind_eq_some_iff.mp hp
    exact h.trans (hf p p1 x h1) (ih hp)

end Composes

theorem composes_shuffle (hU : Separated U) : Composes (fun p p' ↦ Indexed U p → Shuffle rt p p') :=
  ⟨fun _ _ ↦ .refl, fun h h' hi ↦ (h hi).trans (h' (Shuffle.indexed hU hi (h hi)))⟩

theorem Indexed.senderOf_eq {c : Conf} (h : Indexed U c) (ht : t ∈ c.loose) : t.sender = some (senderOf t) := by
  obtain ⟨a, ha, -⟩ := h.loose_free t ht
  rw [senderOf, ha]
  rfl

theorem forgetAll_path (ts : List Transaction) :
    Shuffle rt ⟨p, ts ++ loose, []⟩ ⟨p.forgetAll rt ts, loose, []⟩ := by
  induction ts generalizing p with
  | nil => exact .refl
  | cons t ts ih => exact .head .forget ih

theorem sound_getD {lists : GoMap Address TxList} {strict : Bool}
    (h : ∀ (b : Address) l, lists[b]? = some l → l.Sound strict) (a : Address) :
    (lists[a]?.getD { strict }).Sound strict := by
  cases hl : lists[a]? with
  | none => exact ⟨rfl, fun t ht ↦ absurd ht not_mem_nil⟩
  | some l => exact h a l hl

theorem enqueueTx_loose (rt : Runtime) (h : Indexed U ⟨p, t :: loose, debt⟩) :
    ∃ l, p.enqueueTx rt t = (.ok false, p.setQueue (senderOf t) l) ∧
      l.txs = (p.queue[senderOf t]?.getD { strict := false }).txs.put t ∧ l.Sound false := by
  obtain ⟨a, ha, hfree⟩ := h.loose_free t mem_cons_self
  have hs : senderOf t = a := by rw [senderOf, ha]; rfl
  have hget : (p.queue[senderOf t]?.getD { strict := false }).txs.get t.nonce = none := by
    refine get_eq_none_iff.mpr (fun t' ht' ↦ hfree t' (.inr ?_))
    rw [listed_getD] at ht'
    exact hs ▸ ht'
  obtain ⟨l, hadd, hl, hst⟩ := add_of_free hget p.config.priceBump
  refine ⟨l, ?_, hl, hst _ (sound_getD h.queue_sound (senderOf t))⟩
  have hall : (p.setQueue (senderOf t) l).all[t.hash]? = some t :=
    (h.all t.hash t).mpr ⟨rfl, .inr mem_cons_self⟩
  unfold enqueueTx
  simp only [hadd, Bool.not_true, Bool.false_eq_true, if_false, elim_none, hall, isNone_some,
    isSome_none]

theorem enqueueAll_path (hU : Separated U) (ts : List Transaction)
    (h : Indexed U ⟨p, ts ++ loose, debt⟩) :
    Shuffle rt ⟨p, ts ++ loose, debt⟩ ⟨p.enqueueAll rt ts, loose, debt⟩ := by
  induction ts generalizing p with
  | nil => exact .refl
  | cons t ts ih =>
    obtain ⟨l, he, hl, hst⟩ := enqueueTx_loose rt h
    have hm : Move (fun _ ↦ False) false rt ⟨p, t :: (ts ++ loose), debt⟩
        ⟨p.setQueue (senderOf t) l, ts ++ loose, debt⟩ :=
      .putQueue (h.senderOf_eq mem_cons_self) hl hst
    refine .head hm ?_
    have hnext := ih (Shuffle.indexed hU h (.single hm))
    show Shuffle rt _ ⟨(p.enqueueTx rt t).2.enqueueAll rt ts, loose, debt⟩
    rw [he]
    exact hnext

theorem promoteTx_loose (rt : Runtime) (now : ℤ) (h : Indexed U ⟨p, t :: loose, debt⟩) (ha : t.sender = some a) :
    ∃ l, promoteTx rt now a p t = { p.setPending a l with
        beats := p.beats.insert a now
        pendingNonces := p.pendingNonces.insert a (t.nonce + 1) } ∧
      l.txs = (p.pending[a]?.getD { strict := true }).txs.put t ∧ l.Sound true := by
  obtain ⟨b, hb, hfree⟩ := h.loose_free t mem_cons_self
  obtain rfl : a = b := some.inj (ha.symm.trans hb)
  have hget : (p.pending[a]?.getD { strict := true }).txs.get t.nonce = none := by
    refine get_eq_none_iff.mpr (fun t' ht' ↦ hfree t' (.inl ?_))
    rwa [listed_getD] at ht'
  obtain ⟨l, hadd, hl, hst⟩ := add_of_free hget p.config.priceBump
  refine ⟨l, ?_, hl, hst _ (sound_getD h.pending_sound a)⟩
  have hall : (p.setPending a l).all[t.hash]? = some t :=
    (h.all t.hash t).mpr ⟨rfl, .inr mem_cons_self⟩
  unfold promoteTx
  simp only [hadd, elim_none, hall]
  rfl

theorem promote_path (now : ℤ) (hU : Separated U) (ts : List Transaction)
    (h : Indexed U ⟨p, ts ++ loose, debt⟩) (hs : ∀ t ∈ ts, t.sender = some a) :
    Shuffle rt ⟨p, ts ++ loose, debt⟩ ⟨ts.foldl (promoteTx rt now a) p, loose, debt⟩ := by
  induction ts generalizing p with
  | nil => exact .refl
  | cons t ts ih =>
    have ht := hs t mem_cons_self
    obtain ⟨l, he, hl, hst⟩ := promoteTx_loose rt now h ht
    have hm : Move (fun _ ↦ False) false rt ⟨p, t :: (ts ++ loose), debt⟩
        ⟨p.setPending a l, ts ++ loose, debt⟩ := .putPending ht hl hst
    have hm' : Move (fun _ ↦ False) false rt ⟨p.setPending a l, ts ++ loose, debt⟩
        ⟨promoteTx rt now a p t, ts ++ loose, debt⟩ := by
      rw [he]
      exact .other rfl rfl rfl rfl ⟨rfl, rfl, rfl⟩
    exact .head hm (.head hm' (ih (Shuffle.indexed hU h (.tail (.single hm) hm'))
      (fun t' ht' ↦ hs t' (mem_cons_of_mem t ht'))))

/-! ### Removal -/

section Removal

variable {outofbound : Bool} {debt' : List Transaction}

def Settled (outofbound : Bool) (t : Transaction) (debt debt' : List Transaction) : Prop :=
  (outofbound = true ∧ debt = [] ∧ debt' = []) ∨ (outofbound = false ∧ debt.Perm (t :: debt'))

theorem Settled.move (hs : Settled outofbound t debt debt') :
    Move (fun _ ↦ False) false rt ⟨p, t :: loose, debt⟩ ⟨p.unindex rt t outofbound, loose, debt'⟩ := by
  rcases hs with ⟨rfl, rfl, rfl⟩ | ⟨rfl, hp⟩
  · exact .forget
  · exact .drop hp

theorem unindex_setQueue : (p.setQueue a l).unindex rt t outofbound = (p.unindex rt t outofbound).setQueue a l := by
  cases outofbound <;> rfl

theorem unindex_setPending :
    (p.setPending a l).unindex rt t outofbound = (p.unindex rt t outofbound).setPending a l := by
  cases outofbound <;> rfl

theorem unindex_queue : (p.unindex rt t outofbound).queue = p.queue := by
  cases outofbound <;> rfl

theorem unindex_pending : (p.unindex rt t outofbound).pending = p.pending := by
  cases outofbound <;> rfl

theorem unindex_pendingNonces : (p.unindex rt t outofbound).pendingNonces = p.pendingNonces := by
  cases outofbound <;> rfl

theorem lowerPendingNonce_move (a : Address) (nonce : UInt64) :
    Move (fun _ ↦ False) false rt ⟨p, loose, debt⟩ ⟨p.lowerPendingNonce a nonce, loose, debt⟩ := by
  unfold lowerPendingNonce
  split_ifs
  all_goals exact .other rfl rfl rfl rfl ⟨rfl, rfl, rfl⟩

/-- `removeTx` takes the transaction out of the index first, then out of its list. The moves
are made in the other order. -/
theorem removeQueued_path (h : Indexed U ⟨p, [], debt⟩) (hs : Settled outofbound t debt debt')
    (ht : Listed p.queue (senderOf t) t) :
    Shuffle rt ⟨p, [], debt⟩ ⟨(p.unindex rt t outofbound).removeQueued t, [], debt'⟩ := by
  obtain ⟨l, hl, hmem⟩ := ht
  have hget : l.txs.get t.nonce = some t := get_eq_some_iff.mpr ⟨hmem, rfl⟩
  have hspl := splits_list_remove hget
  rw [remove_invalids (h.queue_sound _ _ hl).strict] at hspl
  have htake : Move (fun _ ↦ False) false rt ⟨p, [], debt⟩
      ⟨p.setQueue (senderOf t) (l.remove t).2.2, [t], debt⟩ := .takeQueue hl hspl derives_remove
  refine .head htake (.head hs.move ?_)
  rw [unindex_setQueue]
  unfold removeQueued
  rw [unindex_queue, hl]
  dsimp only
  split_ifs with he
  · exact .single (.eraseQueue (ExtTreeMap.getElem?_insert_self) he)
  · exact .refl

/-- A removed transaction was in the queue, or those behind it in its pending list go back
into the queue. -/
theorem unlist_cases (h : Indexed U ⟨p, [], debt⟩)
    (hs : Settled outofbound t debt debt') (ht : p.Pooled t) :
    Listed p.queue (senderOf t) t ∧
        (p.unindex rt t outofbound).unlist rt t = (p.unindex rt t outofbound).removeQueued t ∨
      ∃ q ts, Shuffle rt ⟨p, [], debt⟩ ⟨q, ts ++ [], debt'⟩ ∧ q.all = (p.unindex rt t outofbound).all ∧
        q.pendingNonces = p.pendingNonces ∧
        (∀ b t', Listed q.pending b t' ↔ Listed p.pending b t' ∧ (b = senderOf t → t'.nonce < t.nonce)) ∧
        (p.unindex rt t outofbound).unlist rt t = (q.enqueueAll rt ts).lowerPendingNonce (senderOf t) t.nonce := by
  have hlist : Listed p.pending (senderOf t) t ∨ Listed p.queue (senderOf t) t := by
    obtain ⟨a, ha⟩ := ht
    have hsdr : t.sender = some a := ha.elim (h.pending_sender a t) (h.queue_sender a t)
    have hof : senderOf t = a := by rw [senderOf, hsdr]; rfl
    exact hof ▸ ha
  unfold unlist
  rw [unindex_pending]
  cases hl : p.pending[senderOf t]? with
  | none =>
    refine .inl ⟨hlist.resolve_left ?_, rfl⟩
    rintro ⟨l, hl', -⟩
    rw [hl] at hl'
    cases hl'
  | some l =>
    dsimp only
    rw [remove_fst]
    cases hget : l.txs.get t.nonce with
    | none =>
      refine .inl ⟨hlist.resolve_left ?_, rfl⟩
      rintro ⟨l', hl', hmem⟩
      cases hl.symm.trans hl'
      exact get_eq_none_iff.mp hget t hmem rfl
    | some t' =>
      obtain ⟨hmem, hn⟩ := get_eq_some_iff.mp hget
      obtain rfl : t' = t := by
        rcases hlist with hp | hq
        · exact Listed.eq_of_nonce ⟨l, hl, hmem⟩ hp hn
        · exact absurd hn (h.apart _ _ _ ⟨l, hl, hmem⟩ hq)
      have hspl : TxSortedMap.Splits l.txs (l.remove t').2.2.txs (t' :: rt.rangeOrder (l.remove t').2.1) :=
        (splits_list_remove hget).of_perm ((rt.rangeOrder_perm _).cons t')
      have htake : Move (fun _ ↦ False) false rt ⟨p, [], debt⟩
          ⟨p.setPending (senderOf t') (l.remove t').2.2, t' :: rt.rangeOrder (l.remove t').2.1 ++ [], debt⟩ :=
        .takePending hl hspl derives_remove
      have hmid : Shuffle rt ⟨p, [], debt⟩
          ⟨(p.unindex rt t' outofbound).setPending (senderOf t') (l.remove t').2.2,
            rt.rangeOrder (l.remove t').2.1 ++ [], debt'⟩ := by
        rw [← unindex_setPending]
        exact .tail (.single htake) hs.move
      refine .inr ⟨if (l.remove t').2.2.isEmpty then
          ((p.unindex rt t' outofbound).setPending (senderOf t') (l.remove t').2.2).erasePending (senderOf t')
        else (p.unindex rt t' outofbound).setPending (senderOf t') (l.remove t').2.2,
        rt.rangeOrder (l.remove t').2.1, ?_, ?_, ?_, fun b t'' ↦ ?_, rfl⟩
      · split_ifs with he
        · exact .tail hmid (.erasePending ExtTreeMap.getElem?_insert_self he)
        · exact hmid
      · split_ifs <;> rfl
      · split_ifs <;> exact unindex_pendingNonces
      have hkept : t'' ∈ (l.remove t').2.2.txs.items ↔ t'' ∈ l.txs.items ∧ t''.nonce < t'.nonce :=
        mem_remove_strict (h.pending_sound _ _ hl).strict (ne_none_iff_exists'.mpr ⟨t', hget⟩)
      have hset : Listed ((p.unindex rt t' outofbound).setPending (senderOf t') (l.remove t').2.2).pending b t'' ↔
          Listed p.pending b t'' ∧ (b = senderOf t' → t''.nonce < t'.nonce) := by
        show Listed ((p.unindex rt t' outofbound).pending.insert _ _) b t'' ↔ _
        rw [unindex_pending, listed_insert, hkept]
        by_cases hb : b = senderOf t'
        · subst hb
          simp only [listed_iff hl, true_and, ne_eq, not_true_eq_false, false_and, or_false, forall_const]
        · simp only [hb, false_and, ne_eq, not_false_eq_true, true_and, false_or, false_implies, and_true]
      split_ifs with he
      · rw [← hset]
        refine (listed_erase _).trans (and_iff_right_of_imp ?_)
        rintro hin rfl
        have hmem := listed_insert_self.mp hin
        rw [List.isEmpty_iff.mp he] at hmem
        cases hmem
      · exact hset

section

variable (hU : Separated U)

include hU

theorem unlist_path (h : Indexed U ⟨p, [], debt⟩)
    (hs : Settled outofbound t debt debt') (ht : p.Pooled t) :
    Shuffle rt ⟨p, [], debt⟩ ⟨(p.unindex rt t outofbound).unlist rt t, [], debt'⟩ := by
  obtain ⟨hq, he⟩ | ⟨q, ts, hmid, -, -, -, he⟩ := @unlist_cases U rt p debt t outofbound debt' h hs ht
  · rw [he]
    exact removeQueued_path h hs hq
  rw [he]
  have henq := hmid.trans (enqueueAll_path hU ts (Shuffle.indexed hU h hmid))
  exact .tail henq (lowerPendingNonce_move _ _)

theorem removeTx_path (h : Indexed U p) (hash : Hash) : Shuffle rt p (p.removeTx rt hash true) := by
  unfold removeTx
  cases hall : p.all[hash]? with
  | none => exact .refl
  | some t =>
    have ht := ((h.all hash t).mp hall).2.resolve_right (by simp)
    exact unlist_path hU h (.inl ⟨rfl, rfl, rfl⟩) ht

theorem removeTx_debt (h : Indexed U ⟨p, [], debt⟩)
    (hp : debt.Perm (t :: debt')) : Shuffle rt ⟨p, [], debt⟩ ⟨p.removeTx rt t.hash false, [], debt'⟩ := by
  unfold removeTx
  cases hall : p.all[t.hash]? with
  | none => exact .single (.cleared hp hall)
  | some t' =>
    obtain rfl := h.eq_of_hash hU (h.heap t (.inr (hp.symm.subset mem_cons_self))) hall
    have ht := ((h.all _ _).mp hall).2.resolve_right (by simp)
    exact unlist_path hU h (.inr ⟨rfl, hp⟩) ht

theorem removeAll_path (ts : List Transaction) (h : Indexed U p) :
    Shuffle rt p (p.removeAll rt ts true) :=
  (composes_shuffle hU).foldl (fun _ t hi ↦ removeTx_path hU hi t.hash) ts h

theorem removeAll_debt (ts : List Transaction)
    (h : Indexed U ⟨p, [], debt⟩) (hd : debt.Perm (ts ++ debt')) :
    ∃ debt'', debt''.Perm debt' ∧ Shuffle rt ⟨p, [], debt⟩ ⟨p.removeAll rt ts false, [], debt''⟩ := by
  induction ts generalizing p debt with
  | nil => exact ⟨debt, hd, .refl⟩
  | cons t ts ih =>
    have hp : Shuffle rt ⟨p, [], debt⟩ ⟨p.removeTx rt t.hash false, [], ts ++ debt'⟩ := removeTx_debt hU h hd
    obtain ⟨debt'', hd'', hp'⟩ := ih (hp.indexed hU h) (.refl _)
    exact ⟨debt'', hd'', hp.trans hp'⟩

end

end Removal

end TxPool

end BjutEth.Pool
