import BjutEth.Pool.Paths

namespace BjutEth.Pool

open Std List Option TxPricedList ExtTreeMap TxSortedMap TxList Heap
open Alien (Address Hash Runtime)

variable {U : Transaction → Prop} {rt : Runtime} {p p' : TxPool} {loose debt debt' : List Transaction}
variable {a b : Address} {t t' : Transaction} {l l' : TxList} {fresh : Bool} {now : ℤ}

namespace TxPool

/-! ### The price heap -/

section Heap

theorem dropStale_path (fuel : ℕ) :
    Shuffle rt ⟨p, loose, debt⟩ ⟨{ p with priced := p.priced.dropStale p.all fuel }, loose, debt⟩ := by
  induction fuel generalizing p with
  | zero => exact .refl
  | succ fuel ih =>
    unfold dropStale
    split
    · exact .refl
    rename_i head hhead
    split_ifs with hn
    · split
      · exact .refl
      rename_i x items hpop
      obtain rfl : head = x := some.inj (hhead.symm.trans (pop_fst cheaper hpop))
      refine .head (.popStale (pop_perm cheaper hpop) (isNone_iff_eq_none.mp hn)) ?_
      exact ih
    · exact .refl

theorem underpriced_path (isLocal : Transaction → Bool) :
    Shuffle rt ⟨p, loose, debt⟩ ⟨{ p with priced := (p.priced.underpriced p.all isLocal t).2 }, loose, debt⟩ := by
  unfold underpriced
  dsimp only
  split_ifs
  · exact .refl
  split
  · exact dropStale_path _
  · exact dropStale_path _

theorem save_path (save : List Transaction) (hd : debt.Perm (save ++ debt')) :
    ∃ debt'', debt''.Perm debt' ∧
      Shuffle rt ⟨p, loose, debt⟩ ⟨{ p with priced := save.foldl put p.priced }, loose, debt''⟩ := by
  induction save generalizing p debt with
  | nil => exact ⟨debt, hd, .refl⟩
  | cons t save ih =>
    have hm : Move (fun _ ↦ False) false rt ⟨p, loose, debt⟩
        ⟨{ p with priced := p.priced.put t }, loose, save ++ debt'⟩ :=
      .pushLive hd (push_perm cheaper _ t)
    obtain ⟨debt'', hd'', hp⟩ := ih (p := { p with priced := p.priced.put t }) (.refl (save ++ debt'))
    exact ⟨debt'', hd'', .head hm hp⟩

theorem popped_live {items : Array Transaction} (hpop : p.priced.items.toList.Perm (t :: items.toList))
    (hn : ¬ p.all[t.hash]?.isNone = true) :
    Move (fun _ ↦ False) false rt ⟨p, loose, debt⟩
      ⟨{ p with priced := { p.priced with items } }, loose, t :: debt⟩ := by
  rw [Bool.not_eq_true, isNone_eq_false_iff] at hn
  exact .popLive hpop hn

theorem discardLoop_path (isLocal : Transaction → Bool) (fuel : ℕ) (count : ℤ) :
    ∃ debt', debt'.Perm ((p.priced.discardLoop p.all isLocal fuel count).2.1 ++
        ((p.priced.discardLoop p.all isLocal fuel count).2.2 ++ debt)) ∧
      Shuffle rt ⟨p, loose, debt⟩
        ⟨{ p with priced := (p.priced.discardLoop p.all isLocal fuel count).1 }, loose, debt'⟩ := by
  induction fuel generalizing p debt count with
  | zero => exact ⟨debt, .refl _, .refl⟩
  | succ fuel ih =>
    unfold discardLoop
    split_ifs with hc
    · exact ⟨debt, .refl _, .refl⟩
    cases hpop : pop cheaper p.priced.items with
    | none => exact ⟨debt, .refl _, .refl⟩
    | some e =>
      obtain ⟨x, items⟩ := e
      have hperm := pop_perm cheaper hpop
      dsimp only
      by_cases hn : p.all[x.hash]?.isNone = true
      · rw [if_pos hn]
        obtain ⟨debt', hd, hs⟩ := ih (p := { p with priced := { items, stales := p.priced.stales - 1 } }) count
        exact ⟨debt', hd, .head (.popStale hperm (isNone_iff_eq_none.mp hn)) hs⟩
      split_ifs
      · obtain ⟨debt', hd, hs⟩ := @ih { p with priced := { p.priced with items } } (x :: debt) count
        refine ⟨debt', hd.trans ?_, .head (popped_live hperm hn) hs⟩
        exact List.Perm.append_left _ perm_middle
      obtain ⟨debt', hd, hs⟩ :=
        @ih { p with priced := { p.priced with items } } (x :: debt) (count - 1)
      refine ⟨debt', hd.trans ?_, .head (popped_live hperm hn) hs⟩
      exact (List.Perm.append_left _ perm_middle).trans perm_middle

theorem capLoop_path (isLocal : Transaction → Bool) (threshold : ℤ) (fuel : ℕ) :
    ∃ debt', debt'.Perm ((p.priced.capLoop p.all isLocal threshold fuel).2.1 ++
        ((p.priced.capLoop p.all isLocal threshold fuel).2.2 ++ debt)) ∧
      Shuffle rt ⟨p, loose, debt⟩
        ⟨{ p with priced := (p.priced.capLoop p.all isLocal threshold fuel).1 }, loose, debt'⟩ := by
  induction fuel generalizing p debt with
  | zero => exact ⟨debt, .refl _, .refl⟩
  | succ fuel ih =>
    unfold capLoop
    cases hpop : pop cheaper p.priced.items with
    | none => exact ⟨debt, .refl _, .refl⟩
    | some e =>
      obtain ⟨x, items⟩ := e
      have hperm := pop_perm cheaper hpop
      dsimp only
      by_cases hn : p.all[x.hash]?.isNone = true
      · rw [if_pos hn]
        obtain ⟨debt', hd, hs⟩ := ih (p := { p with priced := { items, stales := p.priced.stales - 1 } })
        exact ⟨debt', hd, .head (.popStale hperm (isNone_iff_eq_none.mp hn)) hs⟩
      obtain ⟨debt', hd, hs⟩ := @ih { p with priced := { p.priced with items } } (x :: debt)
      split_ifs
      · exact ⟨x :: debt, .refl _, .single (popped_live hperm hn)⟩
      · refine ⟨debt', hd.trans ?_, .head (popped_live hperm hn) hs⟩
        exact List.Perm.append_left _ perm_middle
      · refine ⟨debt', hd.trans ?_, .head (popped_live hperm hn) hs⟩
        exact (List.Perm.append_left _ perm_middle).trans perm_middle

theorem saved_path {priced : TxPricedList} {drop save : List Transaction}
    (hloop : ∃ debt, debt.Perm (drop ++ (save ++ [])) ∧
      Shuffle rt p ⟨{ p with priced }, [], debt⟩) :
    ∃ debt, debt.Perm drop ∧
      Shuffle rt p ⟨{ p with priced := save.foldl put priced }, [], debt⟩ := by
  obtain ⟨debt, hd, hs⟩ := hloop
  have hd1 : debt.Perm (save ++ drop) := by
    refine hd.trans ?_
    rw [append_nil]
    exact perm_append_comm
  obtain ⟨debt1, hd1, hs1⟩ : ∃ debt', debt'.Perm drop ∧ Shuffle rt ⟨{ p with priced }, [], debt⟩
      ⟨{ p with priced := save.foldl put priced }, [], debt'⟩ := save_path save hd1
  exact ⟨debt1, hd1, hs.trans hs1⟩

theorem removeDropped_path (hU : Separated U) (h : Indexed U p)
    {priced : TxPricedList} {drop save : List Transaction}
    (hloop : ∃ debt, debt.Perm (drop ++ (save ++ [])) ∧
      Shuffle rt p ⟨{ p with priced }, [], debt⟩) :
    Shuffle rt p
      ⟨({ p with priced := save.foldl put priced }).removeAll rt drop false, [], []⟩ := by
  obtain ⟨debt, hd, hs⟩ := saved_path hloop
  rw [← append_nil drop] at hd
  obtain ⟨debt', hd', hs'⟩ : ∃ debt' : List Transaction, debt'.Perm [] ∧
      Shuffle rt ⟨{ p with priced := save.foldl put priced }, [], debt⟩
        ⟨({ p with priced := save.foldl put priced }).removeAll rt drop false, [], debt'⟩ :=
    removeAll_debt hU drop (Shuffle.indexed hU h hs) hd
  rw [hd'.eq_nil] at hs'
  exact hs.trans hs'

theorem makeRoom_path (hU : Separated U) (h : Indexed U p) :
    Shuffle rt p (p.makeRoom rt) :=
  removeDropped_path hU h (discardLoop_path _ _ _)

theorem setGasPrice_path (hU : Separated U) (h : Indexed U p)
    (price : ℤ) : Shuffle rt p (p.setGasPrice rt price) := by
  have hm : Move (fun _ ↦ False) false rt p ⟨{ p with gasPrice := price }, [], []⟩ :=
    .other rfl rfl rfl rfl ⟨rfl, rfl, rfl⟩
  have hs : Shuffle rt p ⟨{ p with gasPrice := price }, [], []⟩ := .single hm
  exact hs.trans (removeDropped_path hU (hs.indexed hU h)
    (capLoop_path (p := { p with gasPrice := price }) p.isLocal price p.priced.items.size))

end Heap

/-! ### A transaction comes in -/

/-- The transaction is not in the index and, if that is asked for, not in the price heap. -/
structure Absent (fresh : Bool) (t : Transaction) (c : Conf) : Prop where
  all : ∀ h : Hash, c.pool.all[h]? ≠ some t
  heap : fresh = true → t ∉ c.pool.priced.items.toList
  debt : fresh = true → t ∉ c.debt

theorem getElem?_erase_ne {all : TxLookup} (h : ∀ hash : Hash, all[hash]? ≠ some t) (hash' hash : Hash) :
    (all.erase hash')[hash]? ≠ some t := by
  intro he
  rw [getElem?_erase] at he
  split_ifs at he
  exact h hash he

theorem Shuffle.absent {c c' : Conf} (hs : Shuffle rt c c') (h : Absent fresh t c) : Absent fresh t c' := by
  induction hs with
  | refl => exact h
  | tail _ hm ih =>
    cases hm with
    | takePending | takeQueue | erasePending | eraseQueue | putPending | putQueue =>
      exact ⟨ih.all, ih.heap, ih.debt⟩
    | forget =>
      refine ⟨getElem?_erase_ne ih.all _, fun hf hm ↦ ?_, ih.debt⟩
      rcases mem_items_removed hm with hm | ⟨hash, hm⟩
      · exact ih.heap hf hm
      · exact getElem?_erase_ne ih.all _ hash hm
    | drop ht =>
      exact ⟨getElem?_erase_ne ih.all _, ih.heap,
        fun hf hm ↦ ih.debt hf (ht.symm.subset (mem_cons_of_mem _ hm))⟩
    | cleared ht =>
      exact ⟨ih.all, ih.heap, fun hf hm ↦ ih.debt hf (ht.symm.subset (mem_cons_of_mem _ hm))⟩
    | enter _ hok => exact hok.1.elim
    | popStale hpop =>
      exact ⟨ih.all, fun hf hm ↦ ih.heap hf (hpop.symm.subset (mem_cons_of_mem _ hm)), ih.debt⟩
    | popLive hpop =>
      refine ⟨ih.all, fun hf hm ↦ ih.heap hf (hpop.symm.subset (mem_cons_of_mem _ hm)), fun hf hm ↦ ?_⟩
      rcases mem_cons.mp hm with rfl | hm
      · exact ih.heap hf (hpop.symm.subset mem_cons_self)
      · exact ih.debt hf hm
    | pushLive ht hpush =>
      refine ⟨ih.all, fun hf hm ↦ ?_, fun hf hm ↦ ih.debt hf (ht.symm.subset (mem_cons_of_mem _ hm))⟩
      rcases mem_cons.mp (hpush.subset hm) with rfl | hm
      · exact ih.debt hf (ht.symm.subset mem_cons_self)
      · exact ih.heap hf hm
    | other _ _ ha hpr _ => exact ⟨ha ▸ ih.all, hpr ▸ ih.heap, ih.debt⟩

theorem setQueue_setQueue : (p.setQueue a l).setQueue a l' = p.setQueue a l' := by
  unfold setQueue
  rw [GoMap.insert_insert_self]

theorem setQueue_self (h : p.queue[a]? = some l) : p.setQueue a l = p := by
  unfold setQueue
  rw [GoMap.insert_eq_self h]

theorem setPending_setPending : (p.setPending a l).setPending a l' = p.setPending a l' := by
  unfold setPending
  rw [GoMap.insert_insert_self]

theorem Absent.getElem?_eq_none {c : Conf} (habs : Absent fresh t c)
    (hU : Separated U) (h : Indexed U c) (ht : U t) :
    c.pool.all[t.hash]? = none := by
  cases hall : c.pool.all[t.hash]? with
  | none => rfl
  | some t' => exact absurd (h.eq_of_hash hU ht hall ▸ hall) (habs.all _)

section Insertion

variable (hU : Separated U) (h : Indexed U p)
  (habs : Absent fresh t p) (ht : U t) (ha : t.sender = some a)

include hU h habs ht ha

theorem admit_move (hfree : ∀ t', Listed p.pending a t' ∨ Listed p.queue a t' → t'.nonce ≠ t.nonce) :
    Move U fresh rt p ⟨p.enlist t, [t], []⟩ :=
  .enter ha ⟨ht, habs.heap⟩ (habs.getElem?_eq_none hU h ht) hfree

/-- The transaction goes to the queue, in the place of the one there with its nonce. -/
theorem replaceQueue_path (hfree : ∀ t', Listed p.pending a t' → t'.nonce ≠ t.nonce)
    (hl : l.txs = (p.queue[a]?.getD { strict := false }).txs.put t) (hst : l.Sound false) :
    Path U fresh rt p ⟨(((p.queue[a]?.getD { strict := false }).txs.get t.nonce).elim
      (p.setQueue a l) ((p.setQueue a l).forget rt)).enlist t, [], []⟩ := by
  cases hget : (p.queue[a]?.getD { strict := false }).txs.get t.nonce with
  | none =>
    refine .head (admit_move hU h habs ht ha (fun t' ht' ↦ ?_)) (.single ?_)
    · rcases ht' with ht' | ht'
      · exact hfree t' ht'
      rw [← listed_getD] at ht'
      exact get_eq_none_iff.mp hget t' ht'
    · exact .putQueue ha hl hst
  | some old =>
    obtain ⟨l0, hl0, hmem0⟩ := listed_getD.mp (get_eq_some_iff.mp hget).1
    rw [hl0, getD_some] at hget hl
    obtain ⟨l1, hspl, hst1, hput, hne⟩ := exists_cut hget
    have hs : Shuffle rt p ((p.setQueue a l1).forget rt old) :=
      .head (.takeQueue hl0 hspl hst1) (.single .forget)
    refine (Shuffle.path hs).trans (.head (admit_move hU (hs.indexed hU h) (hs.absent habs) ht ha
      (fun t' ht' ↦ ?_)) ?_)
    · rcases ht' with ht' | ht'
      · exact hfree t' ht'
      · exact hne t' (listed_insert_self.mp ht')
    have hm : Move U fresh rt ⟨((p.setQueue a l1).forget rt old).enlist t, [t], []⟩
        (((((p.setQueue a l1).setQueue a l).forget rt old).enlist t)) := by
      refine .putQueue ha ?_ hst
      show l.txs = ((p.queue.insert a l1)[a]?.getD { strict := false }).txs.put t
      rw [getElem?_insert_self, getD_some, hput, hl]
    rw [setQueue_setQueue] at hm
    exact .single hm

/-- The transaction takes the place of the pending one with its nonce. -/
theorem replacePending_path {old : Transaction} (hl0 : p.pending[a]? = some l)
    (hget : l.txs.get t.nonce = some old) (hl : l'.txs = l.txs.put t) (hst : l.Derives l') :
    Path U fresh rt p (((p.setPending a l').forget rt old).enlist t) := by
  obtain ⟨hmem, hn⟩ := get_eq_some_iff.mp hget
  obtain ⟨l1, hspl, hst1, hput, hne⟩ := exists_cut hget
  have hs : Shuffle rt p ((p.setPending a l1).forget rt old) :=
    .head (.takePending hl0 hspl hst1) (.single .forget)
  refine (Shuffle.path hs).trans (.head (admit_move hU (hs.indexed hU h) (hs.absent habs) ht ha
    (fun t' ht' ↦ ?_)) ?_)
  · rcases ht' with ht' | ht'
    · exact hne t' (listed_insert_self.mp ht')
    intro he
    exact h.apart a old t' ⟨l, hl0, hmem⟩ ht' (hn.trans he.symm)
  have hm : Move U fresh rt ⟨((p.setPending a l1).forget rt old).enlist t, [t], []⟩
      (((((p.setPending a l1).setPending a l').forget rt old).enlist t)) := by
    refine .putPending ha ?_ (hst _ (h.pending_sound a l hl0))
    show l'.txs = ((p.pending.insert a l1)[a]?.getD { strict := true }).txs.put t
    rw [getElem?_insert_self, getD_some, hput, hl]
  rw [setPending_setPending] at hm
  exact .single hm

theorem enqueueTx_path (hfree : ∀ t', Listed p.pending a t' → t'.nonce ≠ t.nonce) :
    Path U fresh rt p (p.enqueueTx rt t).2 := by
  have hs : senderOf t = a := by rw [senderOf, ha]; rfl
  unfold enqueueTx
  rw [hs]
  rcases add_cases (p.queue[a]?.getD { strict := false }) t p.config.priceBump with
    ⟨hadd, hget⟩ | ⟨l, hadd, hl, hst⟩
  · rw [hadd]
    dsimp only
    -- The list is there, for it has a transaction with this nonce.
    cases hl : p.queue[a]? with
    | none =>
      rw [hl] at hget
      exact absurd rfl hget
    | some l =>
      rw [getD_some, setQueue_self hl]
      exact .refl
  rw [hadd]
  dsimp only
  have hst' : l.Sound false := hst _ (sound_getD h.queue_sound a)
  have hnone := habs.getElem?_eq_none hU h ht
  have hnone' : (((p.queue[a]?.getD { strict := false }).txs.get t.nonce).elim (p.setQueue a l)
      ((p.setQueue a l).forget rt)).all[t.hash]? = none := by
    cases (p.queue[a]?.getD { strict := false }).txs.get t.nonce with
    | none => exact hnone
    | some old =>
      show (p.all.erase old.hash)[t.hash]? = none
      rw [getElem?_erase, hnone, ite_self]
  rw [if_neg (show ¬ (!true) = true from Bool.false_ne_true), hnone', isNone_none, if_pos rfl]
  exact replaceQueue_path hU h habs ht ha hfree hl hst'

theorem enqueueNew_path (isLocal : Bool) (hfree : ∀ t', Listed p.pending a t' → t'.nonce ≠ t.nonce) :
    Path U fresh rt p (p.enqueueNew rt t isLocal).2 := by
  have hpath : Path U fresh rt p (p.enqueueTx rt t).2 :=
    enqueueTx_path hU h habs ht ha hfree
  unfold enqueueNew
  generalize p.enqueueTx rt t = r at hpath
  obtain ⟨_ | replace, p'⟩ := r
  · exact hpath
  split_ifs
  · exact .tail hpath (.other rfl rfl rfl rfl ⟨rfl, rfl, rfl⟩)
  · exact hpath

theorem insertTx_path (isLocal : Bool) :
    Path U fresh rt p (p.insertTx rt t isLocal).2 := by
  have hs : senderOf t = a := by rw [senderOf, ha]; rfl
  unfold insertTx
  rw [hs]
  cases hl : p.pending[a]? with
  | none =>
    refine enqueueNew_path hU h habs ht ha isLocal ?_
    rintro t' ⟨l, hl', -⟩
    rw [hl] at hl'
    cases hl'
  | some l =>
    dsimp only
    unfold overlaps
    rcases add_cases l t p.config.priceBump with ⟨hadd, hget⟩ | ⟨l', hadd, hl', hst⟩
    · rw [hadd, isSome_iff_ne_none.mpr hget]
      exact .refl
    rw [hadd]
    cases hget : l.txs.get t.nonce with
    | none =>
      refine enqueueNew_path hU h habs ht ha isLocal ?_
      rintro t' ⟨l0, hl0, ht'⟩
      cases hl.symm.trans hl0
      exact get_eq_none_iff.mp hget t' ht'
    | some old => exact replacePending_path hU h habs ht ha hl hget hl' hst

end Insertion

/-- What `add` needs of a transaction that is new to the pool. -/
def Offered (U : Transaction → Prop) (fresh : Bool) (p : TxPool) (t : Transaction) : Prop :=
  U t ∧ (fresh = true → p.all[t.hash]? = none → t ∉ p.priced.items.toList)

theorem validateTx_sender {isLocal : Bool} (hv : p.validateTx t isLocal = none) : t.sender = some (senderOf t) := by
  unfold validateTx at hv
  cases hs : t.sender with
  | none =>
    rw [hs] at hv
    split_ifs at hv
  | some a =>
    rw [senderOf, hs]
    rfl

theorem add_path (hU : Separated U) (h : Indexed U p)
    (hoff : Offered U fresh p t) (isLocal : Bool) :
    Path U fresh rt p (p.add rt t isLocal).2 := by
  unfold add
  by_cases hk : p.all[t.hash]?.isSome = true
  · rw [if_pos hk]
  rw [if_neg hk]
  have hnone : p.all[t.hash]? = none := not_isSome_iff_eq_none.mp hk
  cases hv : p.validateTx t isLocal with
  | some e => exact .refl
  | none =>
    have ha := validateTx_sender hv
    have habs : Absent fresh t p := by
      refine ⟨fun hash he ↦ ?_, fun hf ↦ hoff.2 hf hnone, fun _ ↦ not_mem_nil⟩
      have hhash := ((h.all hash t).mp he).1
      subst hhash
      cases hnone.symm.trans he
    have hins {q : TxPool} (hs : Shuffle rt p q) :
        Path U fresh rt p (q.insertTx rt t isLocal).2 :=
      (Shuffle.path hs).trans (insertTx_path hU (hs.indexed hU h) (hs.absent habs) hoff.1 ha isLocal)
    dsimp only
    split_ifs with hfull hloc hup
    · exact hins (makeRoom_path hU h)
    · exact Shuffle.path (underpriced_path _)
    · have hs : Shuffle rt p ⟨{ p with priced := (p.priced.underpriced p.all p.isLocal t).2 }, [], []⟩ :=
        underpriced_path _
      exact hins (hs.trans (makeRoom_path hU (hs.indexed hU h)))
    · exact hins .refl

end TxPool

end BjutEth.Pool
