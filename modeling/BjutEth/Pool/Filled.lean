import BjutEth.Pool.Runs

namespace BjutEth.Pool

open Std List Option TxList ExtTreeMap
open Alien (Address Hash Runtime)

variable {U : Transaction → Prop} {rt : Runtime} {p p' q : TxPool} {lists : GoMap Address TxList}
variable {a b : Address} {t t' : Transaction} {l l' : TxList} {now : ℤ}

/-! ### Lists that are not empty -/

def FilledBut (a : Address) (lists : GoMap Address TxList) : Prop :=
  ∀ b l, b ≠ a → lists[b]? = some l → l.txs.items ≠ []

def Filled (lists : GoMap Address TxList) : Prop := ∀ (a : Address) l, lists[a]? = some l → l.txs.items ≠ []

theorem Filled.but (h : Filled lists) (a : Address) : FilledBut a lists := fun b l _ hl ↦ h b l hl

theorem FilledBut.insert (h : FilledBut a lists) (l : TxList) : FilledBut a (lists.insert a l) := by
  intro b l' hb hl'
  rw [GoMap.get_insert, if_neg (Ne.symm hb)] at hl'
  exact h b l' hb hl'

theorem FilledBut.erase (h : FilledBut a lists) : Filled (lists.erase a) := by
  intro b l' hl'
  rw [getElem?_erase] at hl'
  split_ifs at hl' with hb
  exact h b l' (fun he ↦ hb (he ▸ Std.compare_eq_iff_eq.mpr rfl)) hl'

theorem FilledBut.filled (h : FilledBut a lists) (hl : lists[a]? = some l) (hne : l.txs.items ≠ []) :
    Filled lists := by
  intro b l' hl'
  by_cases hb : b = a
  · subst hb
    cases hl.symm.trans hl'
    exact hne
  · exact h b l' hb hl'

theorem Filled.insert (h : Filled lists) (hne : l.txs.items ≠ []) : Filled (lists.insert a l) :=
  ((h.but a).insert l).filled getElem?_insert_self hne

/-- `Add` leaves a transaction in the list, the new one or the one that it did not replace. -/
theorem TxList.items_add_ne_nil (l : TxList) (t : Transaction) (priceBump : UInt64) :
    (l.add t priceBump).2.2.txs.items ≠ [] := by
  rcases l.add_cases t priceBump with ⟨hadd, hget⟩ | ⟨l', hadd, hl', -⟩
  · rw [hadd]
    obtain ⟨old, hold⟩ := ne_none_iff_exists'.mp hget
    exact ne_nil_of_mem (TxSortedMap.get_eq_some_iff.mp hold).1
  rw [hadd]
  rw [hl']
  exact ne_nil_of_mem (TxSortedMap.mem_put.mpr (.inl rfl))

theorem TxList.isEmpty_eq_false (h : ¬ l.isEmpty = true) : l.txs.items ≠ [] :=
  fun he ↦ h (List.isEmpty_iff.mpr he)

namespace TxPool

structure NoEmpty (p : TxPool) : Prop where
  pending : Filled p.pending
  queue : Filled p.queue

theorem NoEmpty.of_eq (h : NoEmpty p) (hp : p'.pending = p.pending) (hq : p'.queue = p.queue) : NoEmpty p' :=
  ⟨hp ▸ h.pending, hq ▸ h.queue⟩

theorem enqueueTx_queue : (p.enqueueTx rt t).2.queue = p.queue.insert (senderOf t)
    ((p.queue[senderOf t]?.getD { strict := false }).add t p.config.priceBump).2.2 := by
  obtain ⟨all, priced, he⟩ := @enqueueTx_snd rt p t
  rw [he]

theorem filled_enqueueAll (ts : List Transaction) (h : Filled p.queue) : Filled (p.enqueueAll rt ts).queue := by
  induction ts generalizing p with
  | nil => exact h
  | cons t ts ih =>
    refine ih (p := (p.enqueueTx rt t).2) ?_
    rw [enqueueTx_queue]
    exact h.insert (items_add_ne_nil _ t _)

theorem filled_promoteAll (ts : List Transaction) (h : Filled p.pending) :
    Filled (ts.foldl (promoteTx rt now a) p).pending := by
  induction ts generalizing p with
  | nil => exact h
  | cons t ts ih =>
    refine ih (p := promoteTx rt now a p t) ?_
    obtain ⟨all, priced, beats, nonces, he⟩ := @promoteTx_eq rt p a t now
    rw [he]
    exact h.insert (items_add_ne_nil _ t _)

theorem NoEmpty.removeQueued (h : NoEmpty p) : NoEmpty (p.removeQueued t) := by
  unfold TxPool.removeQueued
  cases p.queue[senderOf t]? with
  | none => exact h
  | some l =>
    dsimp only
    split_ifs with he
    · exact ⟨h.pending, ((h.queue.but _).insert _).erase⟩
    · exact ⟨h.pending, h.queue.insert (isEmpty_eq_false he)⟩

theorem lowerPendingNonce_lists (nonce : UInt64) :
    (p.lowerPendingNonce a nonce).pending = p.pending ∧ (p.lowerPendingNonce a nonce).queue = p.queue := by
  unfold lowerPendingNonce
  split_ifs <;> exact ⟨rfl, rfl⟩

section

variable (h : NoEmpty p)

include h

theorem NoEmpty.unlist : NoEmpty (p.unlist rt t) := by
  unfold TxPool.unlist
  cases p.pending[senderOf t]? with
  | none => exact h.removeQueued
  | some l =>
    dsimp only
    split_ifs with hr he
    · exact h.removeQueued
    · refine NoEmpty.of_eq ?_ (lowerPendingNonce_lists _).1 (lowerPendingNonce_lists _).2
      exact ⟨by rw [enqueueAll_pending]; exact ((h.pending.but _).insert _).erase, filled_enqueueAll _ h.queue⟩
    refine NoEmpty.of_eq ?_ (lowerPendingNonce_lists _).1 (lowerPendingNonce_lists _).2
    exact ⟨by rw [enqueueAll_pending]; exact h.pending.insert (isEmpty_eq_false he),
      filled_enqueueAll _ h.queue⟩

theorem NoEmpty.removeTx (hash : Hash) (outofbound : Bool) :
    NoEmpty (p.removeTx rt hash outofbound) := by
  unfold TxPool.removeTx
  cases p.all[hash]? with
  | none => exact h
  | some t => exact (h.of_eq unindex_pending unindex_queue).unlist

theorem NoEmpty.removeAll (ts : List Transaction) (outofbound : Bool) :
    NoEmpty (p.removeAll rt ts outofbound) :=
  (Composes.of_imp NoEmpty).foldl (fun _ t hq ↦ hq.removeTx t.hash outofbound) ts h

theorem NoEmpty.makeRoom : NoEmpty (p.makeRoom rt) := by
  refine NoEmpty.removeAll ?_ _ false
  exact ⟨h.pending, h.queue⟩

theorem NoEmpty.setGasPrice (price : ℤ) : NoEmpty (p.setGasPrice rt price) := by
  refine NoEmpty.removeAll ?_ _ false
  exact ⟨h.pending, h.queue⟩

theorem NoEmpty.enqueueTx : NoEmpty (p.enqueueTx rt t).2 := by
  refine ⟨by rw [enqueueTx_pending]; exact h.pending, ?_⟩
  rw [enqueueTx_queue]
  exact h.queue.insert (items_add_ne_nil _ t _)

theorem NoEmpty.enqueueNew (isLocal : Bool) : NoEmpty (p.enqueueNew rt t isLocal).2 := by
  have henq : NoEmpty (p.enqueueTx rt t).2 := h.enqueueTx
  unfold TxPool.enqueueNew
  generalize p.enqueueTx rt t = r at henq
  obtain ⟨_ | replace, p'⟩ := r
  · exact henq
  split_ifs
  · exact henq.of_eq rfl rfl
  · exact henq

theorem NoEmpty.insertTx (isLocal : Bool) : NoEmpty (p.insertTx rt t isLocal).2 := by
  unfold TxPool.insertTx
  cases p.pending[senderOf t]? with
  | none => exact h.enqueueNew isLocal
  | some l =>
    dsimp only
    split_ifs
    · exact h.enqueueNew isLocal
    · exact h
    have hne := l.items_add_ne_nil t p.config.priceBump
    refine ⟨?_, ?_⟩
    · cases (l.add t p.config.priceBump).2.1 <;> exact h.pending.insert hne
    · cases (l.add t p.config.priceBump).2.1 <;> exact h.queue

theorem NoEmpty.add (isLocal : Bool) : NoEmpty (p.add rt t isLocal).2 := by
  unfold TxPool.add
  by_cases hk : p.all[t.hash]?.isSome = true
  · rw [if_pos hk]
    exact h
  rw [if_neg hk]
  cases p.validateTx t isLocal with
  | some e => exact h
  | none =>
    have hprc : NoEmpty { p with priced := (p.priced.underpriced p.all p.isLocal t).2 } := h.of_eq rfl rfl
    dsimp only
    split_ifs
    · exact h.makeRoom.insertTx isLocal
    · exact hprc
    · exact hprc.makeRoom.insertTx isLocal
    · exact h.insertTx isLocal

theorem NoEmpty.promoted (hp : Promoted rt now a p p') : NoEmpty p' := by
  cases hp with
  | idle hl hp => exact hp ▸ h
  | @stages l l1 l2 l3 l4 olds drops invalids ready caps p1 p2 p3 p4 hl hfwd h1 hfilter h2 hready h3 hcap
      h4 hp =>
    have hq1 : FilledBut a p1.queue := by
      rw [← h1, forgetAll_queue]
      exact (h.queue.but a).insert l1
    have hq2 : FilledBut a p2.queue := by
      rw [← h2, forgetAll_queue]
      exact hq1.insert l2
    have hq3 : FilledBut a p3.queue := by
      rw [← h3, promoteAll_queue]
      exact hq2.insert l3
    have hq4 : p4.queue = p3.queue.insert a l4 := by
      rw [← h4, forgetAll_queue]
      rfl
    have hp2 : p2.pending = p.pending := by
      rw [← h2, forgetAll_pending, ← h1]
      exact forgetAll_pending (p := p.setQueue a l1) olds
    have hp3 : Filled p3.pending := by
      rw [← h3]
      refine filled_promoteAll ready ?_
      exact hp2 ▸ h.pending
    have hp4 : p4.pending = p3.pending := by
      rw [← h4]
      exact forgetAll_pending (p := p3.setQueue a l4) caps
    subst hp
    split_ifs with he
    · refine ⟨?_, ?_⟩
      · exact hp4 ▸ hp3
      show Filled (p4.queue.erase a)
      exact hq4 ▸ (hq3.insert l4).erase
    refine ⟨hp4 ▸ hp3, ?_⟩
    rw [hq4]
    exact (hq3.insert l4).filled getElem?_insert_self (isEmpty_eq_false he)

theorem NoEmpty.demoted (hp : Demoted rt a p p') : NoEmpty p' := by
  cases hp with
  | idle hl hp => exact hp ▸ h
  | @stages l l1 l2 l3 olds drops invalids gapped p1 p2 p3 hl hfwd h1 hfilter h2 hgap h3 hp =>
    have hp1 : FilledBut a p1.pending := by
      rw [← h1, forgetAll_pending]
      exact (h.pending.but a).insert l1
    have hp2 : FilledBut a p2.pending := by
      rw [← h2, enqueueAll_pending, forgetAll_pending]
      exact hp1.insert l2
    have hp3 : p3.pending = p2.pending.insert a l3 := by
      rw [← h3, enqueueAll_pending]
      rfl
    have hq2 : Filled p2.queue := by
      rw [← h2]
      refine filled_enqueueAll _ ?_
      rw [forgetAll_queue]
      show Filled p1.queue
      rw [← h1, forgetAll_queue]
      exact h.queue
    have hq3 : Filled p3.queue := by
      rw [← h3]
      exact filled_enqueueAll (p := p2.setPending a l3) gapped hq2
    subst hp
    split_ifs with he
    · refine ⟨?_, hq3⟩
      show Filled (p3.pending.erase a)
      exact hp3 ▸ (hp2.insert l3).erase
    refine ⟨?_, hq3⟩
    rw [hp3]
    exact (hp2.insert l3).filled getElem?_insert_self (isEmpty_eq_false he)

theorem NoEmpty.truncateQueue (hp : p.truncateQueue rt = some p') : NoEmpty p' :=
  (Composes.of_imp NoEmpty).truncateQueue (fun _ ts hq ↦ hq.removeAll ts true) hp h

theorem NoEmpty.evict : NoEmpty (p.evict rt now) :=
  (Composes.of_imp NoEmpty).evict (fun _ ts hq ↦ hq.removeAll ts true) h

theorem NoEmpty.updateNonce (hp : updateNonce p a = some p') : NoEmpty p' := by
  unfold TxPool.updateNonce at hp
  split at hp
  · exact some.inj hp ▸ h
  obtain ⟨t, -, rfl⟩ := map_eq_some_iff.mp hp
  exact h.of_eq rfl rfl

end

/-! ### `truncatePending` -/

def pendingLen (p : TxPool) (a : Address) : ℕ := (p.pending[a]?.map TxList.len).getD 0

theorem pendingLen_eq (hl : p.pending[a]? = some l) : p.pendingLen a = l.len := by
  rw [pendingLen, hl]
  rfl

theorem filled_iff_pendingLen : Filled p.pending ↔ ∀ a, p.pending[a]?.isSome → 0 < p.pendingLen a := by
  constructor
  · intro h a ha
    obtain ⟨l, hl⟩ := isSome_iff_exists.mp ha
    rw [pendingLen_eq hl]
    exact length_pos_iff.mpr (h a l hl)
  intro h a l hl
  have hlen := h a (isSome_iff_exists.mpr ⟨l, hl⟩)
  rw [pendingLen_eq hl] at hlen
  exact length_pos_iff.mp hlen

theorem len_cap_pred {drops : List Transaction} (h : l.cap ((l.len : ℤ) - 1) = some (drops, l')) :
    l'.len = l.len - 1 := by
  obtain ⟨⟨drops', txs⟩, hc, he⟩ := map_eq_some_iff.mp h
  cases he
  have hlen : l.len = l.txs.items.length := rfl
  unfold TxSortedMap.cap at hc
  split_ifs at hc with h1 h2
  · omega
  obtain ⟨-, rfl⟩ := Prod.mk.inj (some.inj hc)
  show (l.txs.items.take _).length = _
  rw [length_take]
  omega

/-- The pending lists after some accounts have lost their last transaction. -/
structure Shortened (offenders : List Address) (p p' : TxPool) : Prop where
  len : ∀ b, p'.pendingLen b = p.pendingLen b - if b ∈ offenders then 1 else 0
  dom : ∀ b : Address, p'.pending[b]?.isSome = p.pending[b]?.isSome
  queue : p'.queue = p.queue

theorem dropAll_lists (ts : List Transaction) :
    (ts.foldl (fun p tx ↦ (p.forget rt tx).lowerPendingNonce a tx.nonce) p).pending = p.pending ∧
      (ts.foldl (fun p tx ↦ (p.forget rt tx).lowerPendingNonce a tx.nonce) p).queue = p.queue := by
  induction ts generalizing p with
  | nil => exact ⟨rfl, rfl⟩
  | cons t ts ih =>
    obtain ⟨hp, hq⟩ := ih (p := (p.forget rt t).lowerPendingNonce a t.nonce)
    exact ⟨hp.trans (lowerPendingNonce_lists _).1, hq.trans (lowerPendingNonce_lists _).2⟩

theorem dropLast_shortened (hp : p.dropLast rt a = some p') : Shortened [a] p p' := by
  obtain ⟨l, drops, l', hl, hcap, rfl⟩ := dropLast_eq_some hp
  obtain ⟨hpend, hque⟩ := @dropAll_lists rt (p.setPending a l') a drops
  have hget : ∀ b : Address, (p.setPending a l').pending[b]? = if b = a then some l' else p.pending[b]? := by
    intro b
    show (p.pending.insert a l')[b]? = _
    rw [GoMap.get_insert]
    simp only [eq_comm]
  refine ⟨fun b ↦ ?_, fun b ↦ ?_, hque⟩
  · unfold pendingLen
    rw [hpend, hget b]
    by_cases hb : b = a
    · subst hb
      rw [if_pos rfl, if_pos mem_cons_self, hl]
      exact len_cap_pred hcap
    · rw [if_neg hb, if_neg (fun h ↦ hb (mem_singleton.mp h)), Nat.sub_zero]
  rw [hpend, hget b]
  by_cases hb : b = a
  · subst hb
    rw [if_pos rfl, hl]
    rfl
  · rw [if_neg hb]

variable {offenders spammers : List Address} {s s' : UInt64 × TxPool} {floor : ℕ}

theorem dropRound_shortened (hnd : offenders.Nodup) (hp : dropRound rt offenders s = some s') :
    Shortened offenders s.2 s'.2 := by
  induction offenders generalizing s with
  | nil =>
    cases hp
    exact ⟨fun b ↦ by rw [if_neg not_mem_nil, Nat.sub_zero], fun b ↦ rfl, rfl⟩
  | cons a offenders ih =>
    obtain ⟨hna, hnd⟩ := nodup_cons.mp hnd
    obtain ⟨s1, h1, hp⟩ := bind_eq_some_iff.mp hp
    obtain ⟨p1, hlast, rfl⟩ := map_eq_some_iff.mp h1
    have hs1 := dropLast_shortened hlast
    have hs := ih hnd hp
    refine ⟨fun b ↦ ?_, fun b ↦ (hs.dom b).trans (hs1.dom b), hs.queue.trans hs1.queue⟩
    rw [hs.len b, hs1.len b]
    by_cases hb : b = a
    · subst hb
      rw [if_neg hna, if_pos mem_cons_self, if_pos mem_cons_self, Nat.sub_zero]
    · rw [if_neg (fun h ↦ hb (mem_singleton.mp h)), Nat.sub_zero]
      simp only [mem_cons, hb, false_or]

/-- The pending lists after rounds that stop before an offender falls below the limit. -/
structure Leveled (offenders : List Address) (watched : Address) (limit : ℕ) (p p' : TxPool) : Prop where
  floor : limit ≤ p'.pendingLen watched
  least : ∀ o ∈ offenders, p'.pendingLen watched ≤ p'.pendingLen o
  others : ∀ b, b ∉ offenders → p'.pendingLen b = p.pendingLen b
  dom : ∀ b : Address, p'.pending[b]?.isSome = p.pending[b]?.isSome
  queue : p'.queue = p.queue

theorem dropRounds_leveled {watched : Address} {limit fuel : ℕ} (hnd : offenders.Nodup)
    (hw : watched ∈ offenders) (hfloor : limit ≤ s.2.pendingLen watched)
    (hleast : ∀ o ∈ offenders, s.2.pendingLen watched ≤ s.2.pendingLen o)
    (hp : dropRounds rt offenders watched limit fuel s = some s') :
    Leveled offenders watched limit s.2 s'.2 := by
  induction fuel generalizing s with
  | zero =>
    cases hp
    exact ⟨hfloor, hleast, fun b _ ↦ rfl, fun b ↦ rfl, rfl⟩
  | succ fuel ih =>
    unfold dropRounds at hp
    split at hp
    · cases hp
    rename_i l hl
    split_ifs at hp with hlim
    · obtain ⟨s1, h1, hp⟩ := bind_eq_some_iff.mp hp
      have hs1 := dropRound_shortened hnd h1
      have hlen := pendingLen_eq hl
      have hdown : ∀ o ∈ offenders, s1.2.pendingLen o = s.2.pendingLen o - 1 := by
        intro o ho
        rw [hs1.len o, if_pos ho]
      have hs := ih (by rw [hdown watched hw]; omega)
        (fun o ho ↦ by rw [hdown watched hw, hdown o ho]; exact Nat.sub_le_sub_right (hleast o ho) 1) hp
      refine ⟨hs.floor, hs.least, fun b hb ↦ ?_, fun b ↦ (hs.dom b).trans (hs1.dom b), hs.queue.trans hs1.queue⟩
      rw [hs.others b hb, hs1.len b, if_neg hb, Nat.sub_zero]
    · cases hp
      exact ⟨hfloor, hleast, fun b _ ↦ rfl, fun b ↦ rfl, rfl⟩

/-- What the loop over the spammers keeps: the newest offender has the fewest transactions of
all offenders, and not fewer than a spammer that is still to come. -/
structure Equalizing (floor : ℕ) (spammers offenders : List Address) (p : TxPool) : Prop where
  nodup : (offenders ++ spammers).Nodup
  least : ∀ last ∈ offenders.head?, ∀ o ∈ offenders, p.pendingLen last ≤ p.pendingLen o
  bounded : ∀ last ∈ offenders.head?, floor < p.pendingLen last ∧ ∀ b ∈ spammers, p.pendingLen b ≤ p.pendingLen last
  above : ∀ b ∈ spammers, floor < p.pendingLen b
  sorted : spammers.Pairwise (fun b c ↦ p.pendingLen c ≤ p.pendingLen b)

theorem Equalizing.first (h : Equalizing floor (a :: spammers) [] p) : Equalizing floor spammers [a] p := by
  obtain ⟨hle, hsort⟩ := pairwise_cons.mp h.sorted
  refine ⟨h.nodup, ?_, ?_, fun b hb ↦ h.above b (mem_cons_of_mem a hb), hsort⟩
  · intro last hlast o ho
    cases hlast
    rw [mem_singleton.mp ho]
  intro last hlast
  cases hlast
  exact ⟨h.above a mem_cons_self, hle⟩

/-- A round of the loop over the spammers brings the offenders down to the next spammer. -/
theorem Equalizing.next {limit : ℕ} {last : Address}
    (h : Equalizing floor (a :: spammers) (last :: offenders) p) (hlim : p.pendingLen a = limit)
    (hp : Leveled (last :: offenders).reverse last limit p p') :
    Equalizing floor spammers (a :: last :: offenders) p' := by
  obtain ⟨hle, hsort⟩ := pairwise_cons.mp h.sorted
  have hapart : ∀ b ∈ a :: spammers, b ∉ (last :: offenders).reverse := by
    intro b hb ho
    exact (nodup_append.mp h.nodup).2.2 b (mem_reverse.mp ho) b hb rfl
  have hsame : ∀ b ∈ a :: spammers, p'.pendingLen b = p.pendingLen b := fun b hb ↦ hp.others b (hapart b hb)
  have ha := hsame a mem_cons_self
  have hspam : ∀ b ∈ spammers, p'.pendingLen b = p.pendingLen b := fun b hb ↦ hsame b (mem_cons_of_mem a hb)
  refine ⟨?_, ?_, ?_, fun b hb ↦ ?_, ?_⟩
  · exact perm_middle.nodup_iff.mp h.nodup
  · intro last' hlast' o ho
    cases hlast'
    rcases mem_cons.mp ho with rfl | ho
    · exact le_rfl
    rw [ha, hlim]
    exact hp.floor.trans (hp.least o (mem_reverse.mpr ho))
  · intro last' hlast'
    cases hlast'
    refine ⟨ha ▸ h.above a mem_cons_self, fun b hb ↦ ?_⟩
    rw [ha, hspam b hb]
    exact hle b hb
  · rw [hspam b hb]
    exact h.above b (mem_cons_of_mem a hb)
  refine hsort.imp_of_mem (fun {b c} hb hc hbc ↦ ?_)
  rw [hspam b hb, hspam c hc]
  exact hbc

theorem equalize_leveled {offenders' : List Address} (h : Equalizing floor spammers offenders s.2)
    (hp : equalize rt spammers offenders s = some (offenders', s')) :
    (∃ rest, Equalizing floor rest offenders' s'.2) ∧ offenders ⊆ offenders' ∧
      (∀ b, b ∉ offenders' → s'.2.pendingLen b = s.2.pendingLen b) ∧
      (∀ b : Address, s'.2.pending[b]?.isSome = s.2.pending[b]?.isSome) ∧ s'.2.queue = s.2.queue := by
  induction spammers generalizing offenders s with
  | nil =>
    cases hp
    exact ⟨⟨[], h⟩, List.Subset.refl _, fun b _ ↦ rfl, fun b ↦ rfl, rfl⟩
  | cons a spammers ih =>
    unfold equalize at hp
    split_ifs at hp
    · cases offenders with
      | nil =>
        obtain ⟨hend, -, hoth, hdom, hque⟩ := ih h.first hp
        exact ⟨hend, nil_subset _, hoth, hdom, hque⟩
      | cons last offenders =>
        dsimp only at hp
        split at hp
        · rename_i list watched hlist hwatched
          obtain ⟨s1, h1, hp⟩ := bind_eq_some_iff.mp hp
          have hlim := pendingLen_eq hlist
          obtain ⟨hlast, hle⟩ := h.bounded last rfl
          have hs1 := dropRounds_leveled (nodup_reverse.mpr (nodup_append.mp h.nodup).1)
            (mem_reverse.mpr mem_cons_self) (hlim ▸ hle a mem_cons_self)
            (fun o ho ↦ h.least last rfl o (mem_reverse.mp ho)) h1
          obtain ⟨hend, hsub, hoth, hdom, hque⟩ := ih (h.next hlim hs1) hp
          have hsub' : last :: offenders ⊆ offenders' := fun o ho ↦ hsub (mem_cons_of_mem a ho)
          refine ⟨hend, hsub', fun b hb ↦ ?_, fun b ↦ (hdom b).trans (hs1.dom b), hque.trans hs1.queue⟩
          rw [hoth b hb]
          exact hs1.others b (fun ho ↦ hb (hsub' (mem_reverse.mp ho)))
        · cases hp
    · cases hp
      exact ⟨⟨_, h⟩, List.Subset.refl _, fun b _ ↦ rfl, fun b ↦ rfl, rfl⟩

theorem equalizing_spammers : Equalizing p.config.accountSlots.toNat (p.spammers rt) [] p := by
  unfold spammers
  dsimp only
  generalize hlists : (rt.rangeOrder p.pending.toList).filter
    (fun e ↦ !p.locals.contains e.1 && decide (p.config.accountSlots < UInt64.ofNat e.2.len)) = lists
  generalize hsort : rt.sort (fun e e' ↦ decide (e'.2.len < e.2.len)) lists = sorted
  have hperm : sorted.Perm lists := hsort ▸ rt.sort_perm _ lists
  have hmem : ∀ e ∈ sorted, p.pending[e.1]? = some e.2 ∧ p.config.accountSlots.toNat < e.2.len := by
    intro e he
    have he := hlists ▸ hperm.mem_iff.mp he
    obtain ⟨he, hc⟩ := mem_filter.mp he
    have hsls := of_decide_eq_true (Bool.and_eq_true_iff.mp hc).2
    refine ⟨mem_toList_iff_getElem?_eq_some.mp ((rt.rangeOrder_perm _).mem_iff.mp he), ?_⟩
    have hlt := UInt64.lt_iff_toNat_lt.mp hsls
    exact hlt.trans_le (Nat.mod_le _ _)
  have hlen : ∀ e ∈ sorted, p.pendingLen e.1 = e.2.len := fun e he ↦ pendingLen_eq (hmem e he).1
  refine ⟨?_, fun last hlast ↦ ?_, fun last hlast ↦ ?_, ?_, ?_⟩
  · rw [nil_append, (hperm.map _).nodup_iff, ← hlists]
    refine List.Nodup.sublist (filter_sublist.map _) ?_
    exact ((rt.rangeOrder_perm _).map _).nodup_iff.mpr p.pending.nodup_keys_toList
  · cases hlast
  · cases hlast
  · intro b hb
    obtain ⟨e, he, rfl⟩ := List.mem_map.mp hb
    rw [hlen e he]
    exact (hmem e he).2
  rw [pairwise_map]
  have hs := rt.sort_sorted (fun e e' : Address × TxList ↦ decide (e'.2.len < e.2.len)) lists
    (fun a b c hab hbc ↦ decide_eq_true ((of_decide_eq_true hbc).trans (of_decide_eq_true hab)))
    (fun a ↦ decide_eq_false (Nat.lt_irrefl _))
    (fun a b c hab hbc ↦ decide_eq_false (Nat.not_lt.mpr
      ((Nat.not_lt.mp (of_decide_eq_false hab)).trans (Nat.not_lt.mp (of_decide_eq_false hbc)))))
  rw [hsort] at hs
  refine hs.imp_of_mem (fun {e e'} he he' hle ↦ ?_)
  rw [hlen e he, hlen e' he']
  exact Nat.not_lt.mp (of_decide_eq_false hle)

/-- The truncation of the pending lists stops before one of them is empty, for it leaves
every account at least `AccountSlots` transactions. -/
theorem NoEmpty.truncatePending (hsls : 0 < p.config.accountSlots.toNat) (h : NoEmpty p)
    (hp : p.truncatePending rt = some p') : NoEmpty p' := by
  have hfill := filled_iff_pendingLen.mp h.pending
  unfold TxPool.truncatePending at hp
  dsimp only at hp
  split_ifs at hp
  · exact some.inj hp ▸ h
  obtain ⟨⟨offenders, s⟩, h1, hp⟩ := bind_eq_some_iff.mp hp
  have hst : Equalizing p.config.accountSlots.toNat (p.spammers rt) [] (count p.pending, p).2 :=
    equalizing_spammers
  obtain ⟨⟨rest, hend⟩, -, hoth, hdom, hque⟩ := equalize_leveled hst h1
  have hcfg1 := (Composes.of_eq TxPool.config).equalize (fun _ _ _ he ↦ (dropLast_path he).sameHead.config) h1
  cases offenders with
  | nil =>
    cases hp
    refine ⟨filled_iff_pendingLen.mpr (fun b hb ↦ ?_), hque ▸ h.queue⟩
    rw [hoth b not_mem_nil]
    exact hfill b (hdom b ▸ hb)
  | cons last offenders =>
    dsimp only at hp
    split at hp
    · cases hp
    obtain ⟨s', h2, rfl⟩ := map_eq_some_iff.mp hp
    have hsls1 : s.2.config.accountSlots.toNat = p.config.accountSlots.toNat := by rw [hcfg1]
    rw [hsls1] at h2
    have hs := dropRounds_leveled (nodup_reverse.mpr (nodup_append.mp hend.nodup).1)
      (mem_reverse.mpr mem_cons_self) (hend.bounded last rfl).1.le
      (fun o ho ↦ hend.least last rfl o (mem_reverse.mp ho)) h2
    refine ⟨filled_iff_pendingLen.mpr (fun b hb ↦ ?_), hs.queue ▸ hque ▸ h.queue⟩
    by_cases ho : b ∈ (last :: offenders).reverse
    · exact hsls.trans_le (hs.floor.trans (hs.least b ho))
    rw [hs.others b ho, hoth b (fun h ↦ ho (mem_reverse.mpr h))]
    exact hfill b (hdom b ▸ hs.dom b ▸ hb)

end TxPool

end BjutEth.Pool
