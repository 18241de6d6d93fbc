import BjutEth.Pool.Rejected

namespace BjutEth.Pool

open Std List TxSortedMap
open Alien (Address Runtime)

namespace TxPool

variable {U : Transaction → Prop} {rt : Runtime} {now : ℤ} {p p' q : TxPool} {a b : Address} {t : Transaction}
variable {l l' : TxList} {config : TxPoolConfig}

/-- What the eviction loop looks at for an account. -/
def lease (a : Address) (p : TxPool) : Option TxList × Option ℤ × GoMap Address Unit × TxPoolConfig :=
  (p.queue[a]?, p.beats[a]?, p.locals, p.config)

theorem lease_insert (h : b ≠ a) (l : TxList) :
    lease a { p with queue := p.queue.insert b l } = lease a p := by
  simp [lease, ExtTreeMap.getElem?_insert, h]

theorem lease_enqueueAll (ts : List Transaction) (h : ∀ t ∈ ts, senderOf t ≠ a) :
    lease a (p.enqueueAll rt ts) = lease a p := by
  induction ts generalizing p with
  | nil => rfl
  | cons t ts ih =>
    refine (ih (fun t' ht' ↦ h t' (mem_cons_of_mem t ht'))).trans ?_
    obtain ⟨all, priced, he⟩ := @enqueueTx_snd rt p t
    show lease a (p.enqueueTx rt t).2 = _
    rw [he]
    exact lease_insert (h t mem_cons_self) _

theorem lease_removeQueued (h : senderOf t ≠ a) : lease a (p.removeQueued t) = lease a p := by
  unfold removeQueued
  split
  · rfl
  dsimp only
  split_ifs
  · simp [lease, eraseQueue, setQueue, ExtTreeMap.getElem?_erase, ExtTreeMap.getElem?_insert, h]
  · exact lease_insert h _

theorem lease_unlist (h : senderOf t ≠ a) (hp : ∀ t', Listed p.pending (senderOf t) t' → senderOf t' ≠ a) :
    lease a (p.unlist rt t) = lease a p := by
  unfold unlist
  cases hl : p.pending[senderOf t]? with
  | none => exact lease_removeQueued h
  | some l =>
    have hinvalid : ∀ t' ∈ rt.rangeOrder (l.remove t).2.1, senderOf t' ≠ a := by
      intro t' ht'
      rw [(rt.rangeOrder_perm _).mem_iff] at ht'
      refine hp t' ⟨l, hl, ?_⟩
      unfold TxList.remove at ht'
      dsimp only at ht'
      split_ifs at ht'
      · cases ht'
      · exact (mem_filter.mp (mem_filter.mp ht').1).1
      · cases ht'
    dsimp only
    split_ifs
    · exact lease_removeQueued h
    all_goals
      rw [lowerPendingNonce]
      split_ifs
    all_goals refine (lease_enqueueAll _ hinvalid).trans ?_
    all_goals simp [lease, erasePending, setPending, ExtTreeMap.getElem?_erase, h]

theorem lease_removeAll (hU : Separated U) (ts : List Transaction) (hts : ∀ t ∈ ts, U t ∧ senderOf t ≠ a)
    (h : Indexed U p) : lease a (p.removeAll rt ts true) = lease a p := by
  induction ts generalizing p with
  | nil => rfl
  | cons t ts ih =>
    refine (ih (fun t' ht' ↦ hts t' (mem_cons_of_mem t ht')) (Shuffle.indexed hU h (removeTx_path hU h t.hash))).trans ?_
    obtain ⟨ht, hne⟩ := hts t mem_cons_self
    unfold removeTx
    cases hall : p.all[t.hash]? with
    | none => rfl
    | some t' =>
      obtain rfl := h.eq_of_hash hU ht hall
      refine lease_unlist hne (fun t1 ht1 ↦ ?_)
      rw [senderOf, h.pending_sender _ _ ht1]
      exact hne

theorem removeAll_all_imp (hU : Separated U) {ts : List Transaction} (hts : ∀ t ∈ ts, U t) (h : Indexed U p)
    {hash : Alien.Hash} (ht : (p.removeAll rt ts true).all[hash]? = some t) :
    p.all[hash]? = some t ∧ ∀ t' ∈ ts, t'.hash ≠ hash := by
  induction ts generalizing p with
  | nil => exact ⟨ht, fun t' ht' ↦ absurd ht' not_mem_nil⟩
  | cons t' ts ih =>
    obtain ⟨hin, hrest⟩ := ih (p := p.removeTx rt t'.hash true) (fun t ht ↦ hts t (mem_cons_of_mem t' ht))
      (Shuffle.indexed hU h (removeTx_path hU h t'.hash)) ht
    rw [removeTx_all hU h (hts t' mem_cons_self) (.inl ⟨rfl, rfl, rfl⟩), GoMap.get_erase] at hin
    split_ifs at hin with hh
    exact ⟨hin, forall_mem_cons.mpr ⟨hh, hrest⟩⟩

/-! One round of the loop. -/

theorem evictAccount_cases : evictAccount rt now q b = q ∨ ∃ l, q.queue[b]? = some l ∧
    q.config.lifetime < since now (q.beats[b]?.getD 0) ∧ evictAccount rt now q b = q.removeAll rt l.flatten true := by
  unfold evictAccount
  split
  · exact .inl rfl
  rename_i l hl
  split_ifs with hold
  · rw [Bool.and_eq_true, decide_eq_true_eq] at hold
    exact .inr ⟨l, hl, hold.2, rfl⟩
  · exact .inl rfl

theorem Indexed.queued (h : Indexed U q) (hl : q.queue[b]? = some l) (ht : t ∈ l.flatten) : U t ∧ senderOf t = b := by
  refine ⟨h.univ t (.inl ⟨b, .inr ⟨l, hl, ht⟩⟩), ?_⟩
  rw [senderOf, h.queue_sender b t ⟨l, hl, ht⟩]
  rfl

section

variable (hU : Separated U) (h : Indexed U q)

include hU h

theorem Indexed.evictAccount : Indexed U (evictAccount rt now q b) := by
  rcases @evictAccount_cases rt now q b with he | ⟨l, -, -, he⟩
  · rwa [he]
  · rw [he]
    exact Shuffle.indexed hU h (removeAll_path hU _ h)

theorem lease_evictAccount (hb : b = a → since now (q.beats[a]?.getD 0) ≤ q.config.lifetime) :
    lease a (evictAccount rt now q b) = lease a q := by
  rcases @evictAccount_cases rt now q b with he | ⟨l, hl, hold, he⟩
  · rw [he]
  rw [he]
  refine lease_removeAll hU _ (fun t ht ↦ ⟨(h.queued hl ht).1, fun hta ↦ ?_⟩) h
  obtain rfl : b = a := (h.queued hl ht).2.symm.trans hta
  exact hold.not_ge (hb rfl)

theorem evictAccount_all (ht : (evictAccount rt now q b).all[t.hash]? = some t) : q.all[t.hash]? = some t := by
  rcases @evictAccount_cases rt now q b with he | ⟨l, hl, -, he⟩
  · rwa [he] at ht
  · rw [he] at ht
    exact (removeAll_all_imp hU (fun t ht ↦ (h.queued hl ht).1) h ht).1

end

theorem lease_evict (hU : Separated U) (h : Indexed U p)
    (hfrs : since now (p.beats[a]?.getD 0) ≤ p.config.lifetime) : lease a (p.evict rt now) = lease a p := by
  suffices hfold : ∀ (accounts : List Address) (q : TxPool), Indexed U q → lease a q = lease a p →
      lease a (accounts.foldl (evictAccount rt now) q) = lease a p from hfold _ p h rfl
  intro accounts
  induction accounts with
  | nil => exact fun q _ hq ↦ hq
  | cons b accounts ih =>
    intro q hi hq
    refine ih _ (hi.evictAccount hU) ((lease_evictAccount hU hi fun _ ↦ ?_).trans hq)
    have hbeat : q.beats[a]? = p.beats[a]? := congrArg (·.2.1) hq
    have hcfg : q.config = p.config := congrArg (·.2.2.2) hq
    rwa [hbeat, hcfg]

/-- What the tick finds too old is out of the index afterwards. -/
theorem evict_drops (hU : Separated U) (h : Indexed U p) (hq : Listed p.queue a t)
    (hremote : p.locals.contains a = false) (hold : p.config.lifetime < since now (p.beats[a]?.getD 0)) :
    (p.evict rt now).all[t.hash]? ≠ some t := by
  obtain ⟨l, hl, ht⟩ := hq
  have hgone : ∀ (accounts : List Address) (q : TxPool), Indexed U q → q.all[t.hash]? ≠ some t →
      (accounts.foldl (evictAccount rt now) q).all[t.hash]? ≠ some t := by
    intro accounts
    induction accounts with
    | nil => exact fun q _ hq ↦ hq
    | cons b accounts ih => exact fun q hi hq ↦ ih _ (hi.evictAccount hU) (fun h ↦ hq (evictAccount_all hU hi h))
  suffices hfold : ∀ (accounts : List Address) (q : TxPool), a ∈ accounts → Indexed U q → lease a q = lease a p →
      (accounts.foldl (evictAccount rt now) q).all[t.hash]? ≠ some t by
    refine hfold _ p ?_ h rfl
    rw [(rt.rangeOrder_perm _).mem_iff, ExtTreeMap.mem_keys, ExtTreeMap.mem_iff_isSome_getElem?, hl]
    rfl
  intro accounts
  induction accounts with
  | nil => exact fun q ha ↦ absurd ha not_mem_nil
  | cons b accounts ih =>
    intro q ha hi hq
    by_cases hb : b = a
    · subst hb
      have hql : q.queue[b]? = some l := (congrArg (·.1) hq).trans hl
      have htest : (!q.locals.contains b && decide (q.config.lifetime < since now (q.beats[b]?.getD 0))) = true := by
        rw [show q.beats[b]? = p.beats[b]? from congrArg (·.2.1) hq,
          show q.locals = p.locals from congrArg (·.2.2.1) hq, show q.config = p.config from congrArg (·.2.2.2) hq,
          hremote]
        simpa using hold
      refine hgone accounts _ (hi.evictAccount hU) (fun h ↦ ?_)
      rw [evictAccount, hql] at h
      dsimp only at h
      rw [if_pos htest] at h
      exact (removeAll_all_imp hU (fun t ht ↦ (hi.queued hql ht).1) hi h).2 t ht rfl
    exact ih _ ((mem_cons.mp ha).resolve_left (Ne.symm hb)) (hi.evictAccount hU)
      ((lease_evictAccount hU hi (fun h ↦ absurd h hb)).trans hq)

/-! ### Heartbeats -/

/-- What an operation at the time `now` does to the heartbeats. An account with a transaction
that is pending at a new nonce has a heartbeat of that time, any other account with pending
transactions keeps its own, and without a pending list there is none. -/
structure Beating (now : ℤ) (p p' : TxPool) : Prop where
  beat : ∀ a t', Listed p'.pending a t' → p'.beats[a]? = some now ∨
    p'.beats[a]? = p.beats[a]? ∧ ∃ t, Listed p.pending a t ∧ t.nonce = t'.nonce
  keys : (∀ a, a ∈ p.beats → a ∈ p.pending) → ∀ a, a ∈ p'.beats → a ∈ p'.pending

theorem composes_beating (now : ℤ) : Composes (Beating now) := by
  refine ⟨fun p ↦ ⟨fun a t' h ↦ .inr ⟨rfl, t', h, rfl⟩, fun h ↦ h⟩, fun {p q r} h h' ↦
    ⟨fun a t'' ht'' ↦ ?_, fun hk ↦ h'.keys (h.keys hk)⟩⟩
  obtain hnow | ⟨hsame, t', ht', hn'⟩ := h'.beat a t'' ht''
  · exact .inl hnow
  obtain hnow | ⟨hsame', t, ht, hn⟩ := h.beat a t' ht'
  · exact .inl (hsame.trans hnow)
  · exact .inr ⟨hsame.trans hsame', t, ht, hn.trans hn'⟩

namespace Beating

theorem trans (h : Beating now p q) (h' : Beating now q p') : Beating now p p' := (composes_beating now).trans h h'

theorem of_eq (hp : p'.pending = p.pending) (hb : p'.beats = p.beats) : Beating now p p' :=
  ⟨fun _ t' h ↦ .inr ⟨by rw [hb], t', hp ▸ h, rfl⟩, fun hk a ha ↦ hp ▸ hk a (hb ▸ ha)⟩

theorem setPending (hl : ∀ t' ∈ l.txs.items, ∃ t, Listed p.pending a t ∧ t.nonce = t'.nonce) :
    Beating now p (p.setPending a l) := by
  refine ⟨fun b t' ht' ↦ .inr ⟨rfl, ?_⟩, fun hk b hb ↦ GoMap.mem_insert.mpr (.inr (hk b hb))⟩
  obtain ⟨rfl, hin⟩ | ⟨-, hold⟩ := (listed_insert _).mp ht'
  · exact hl t' hin
  · exact ⟨t', hold, rfl⟩

theorem shrink {removed : List Transaction} (hl : p.pending[a]? = some l) (hs : Splits l.txs l'.txs removed) :
    Beating now p (p.setPending a l') :=
  setPending (fun t' ht' ↦ ⟨t', ⟨l, hl, hs.perm.symm.subset (mem_append_right _ ht')⟩, rfl⟩)

theorem erasePending (a : Address) : Beating now p (p.erasePending a) := by
  refine ⟨fun b t' ht' ↦ ?_, fun hk b hb ↦ ?_⟩
  · obtain ⟨hne, ht'⟩ := (listed_erase _).mp ht'
    refine .inr ⟨?_, t', ht', rfl⟩
    exact (GoMap.get_erase p.beats a b).trans (if_neg (Ne.symm hne))
  · obtain ⟨hne, hb⟩ := ExtTreeMap.mem_erase.mp hb
    exact ExtTreeMap.mem_erase.mpr ⟨hne, hk b hb⟩

theorem promote (hp : p'.pending = p.pending.insert a l) (hb : p'.beats = p.beats.insert a now) :
    Beating now p p' := by
  refine ⟨fun b t' ht' ↦ ?_, fun hk b hmem ↦ ?_⟩
  · rw [hp] at ht'
    rw [hb, GoMap.get_insert]
    obtain ⟨rfl, -⟩ | ⟨hne, ht'⟩ := (listed_insert _).mp ht'
    · exact .inl (if_pos rfl)
    · exact .inr ⟨if_neg (Ne.symm hne), t', ht', rfl⟩
  · rw [hb, GoMap.mem_insert] at hmem
    rw [hp, GoMap.mem_insert]
    exact hmem.imp_right (hk b)

end Beating

theorem forgetAll_beating (ts : List Transaction) : Beating now p (p.forgetAll rt ts) :=
  (composes_beating now).foldl (f := forget rt) (fun _ _ ↦ .of_eq rfl rfl) ts

theorem enqueueTx_beating : Beating now p (p.enqueueTx rt t).2 := by
  obtain ⟨all, priced, he⟩ := @enqueueTx_snd rt p t
  rw [he]
  exact .of_eq rfl rfl

theorem enqueueAll_beating (ts : List Transaction) : Beating now p (p.enqueueAll rt ts) :=
  (composes_beating now).foldl (fun _ _ ↦ enqueueTx_beating) ts

theorem lowerPendingNonce_beating (nonce : UInt64) : Beating now p (p.lowerPendingNonce a nonce) := by
  unfold lowerPendingNonce
  split_ifs <;> exact .of_eq rfl rfl

theorem removeTx_beating (hash : Alien.Hash) (outofbound : Bool) : Beating now p (p.removeTx rt hash outofbound) := by
  have hqueued : ∀ (q : TxPool) t, Beating now q (q.removeQueued t) := by
    intro q t
    unfold removeQueued
    split
    · exact .of_eq rfl rfl
    dsimp only
    split_ifs <;> exact .of_eq rfl rfl
  unfold removeTx
  split
  · exact .of_eq rfl rfl
  rename_i t _
  have hun : Beating now p (p.unindex rt t outofbound) := by cases outofbound <;> exact .of_eq rfl rfl
  refine hun.trans ?_
  unfold unlist
  split
  · exact hqueued _ t
  rename_i l hl
  dsimp only
  split_ifs with hrem hnil
  · exact hqueued _ t
  all_goals
    rw [Bool.not_eq_true, Bool.not_eq_false', TxList.remove_fst] at hrem
    obtain ⟨t', ht'⟩ := Option.isSome_iff_exists.mp hrem
    refine (Beating.shrink hl (TxList.splits_list_remove ht')).trans ?_
  · exact (Beating.erasePending _).trans ((enqueueAll_beating _).trans (lowerPendingNonce_beating _))
  · exact (enqueueAll_beating _).trans (lowerPendingNonce_beating _)

theorem removeAll_beating (ts : List Transaction) (outofbound : Bool) :
    Beating now p (p.removeAll rt ts outofbound) :=
  (composes_beating now).foldl (fun _ (t : Transaction) ↦ removeTx_beating t.hash outofbound) ts

theorem promoteTx_beating : Beating now p (promoteTx rt now a p t) := by
  unfold promoteTx
  rcases (p.pending[a]?.getD { strict := true }).add_cases t p.config.priceBump with ⟨hadd, -⟩ | ⟨l', hadd, -, -⟩
  · rw [hadd]
    have hsame : Beating now p (p.setPending a (p.pending[a]?.getD { strict := true })) :=
      .setPending (fun t' ht' ↦ ⟨t', listed_getD.mp ht', rfl⟩)
    exact hsame.trans (.of_eq rfl rfl)
  rw [hadd]
  have hforget : ∀ (old : Option Transaction) (q : TxPool), (old.elim q (q.forget rt)).pending = q.pending ∧
      (old.elim q (q.forget rt)).beats = q.beats := by
    intro old q
    cases old <;> exact ⟨rfl, rfl⟩
  have henlist : ∀ q : TxPool, (if q.all[t.hash]?.isNone then q.enlist t else q).pending = q.pending ∧
      (if q.all[t.hash]?.isNone then q.enlist t else q).beats = q.beats := by
    intro q
    split_ifs <;> exact ⟨rfl, rfl⟩
  refine .promote (a := a) (l := l') ((henlist _).1.trans (hforget _ (p.setPending a l')).1) ?_
  exact congrArg (·.insert a now) ((henlist _).2.trans (hforget _ (p.setPending a l')).2)

theorem Promoted.beating (h : Promoted rt now a p p') : Beating now p p' := by
  cases h with
  | idle _ hp => exact .of_eq (by rw [hp]) (by rw [hp])
  | @stages l l1 l2 l3 l4 olds drops invalids ready caps p1 p2 p3 p4 _ _ h1 _ h2 _ h3 _ h4 hp =>
    have hqueue : ∀ (q : TxPool) (l : TxList) ts, Beating now q ((q.setQueue a l).forgetAll rt ts) :=
      fun q l ts ↦ (Beating.of_eq rfl rfl : Beating now q (q.setQueue a l)).trans (forgetAll_beating ts)
    have hready : Beating now p2 p3 := by
      rw [← h3]
      exact (Beating.of_eq rfl rfl : Beating now p2 (p2.setQueue a l3)).trans
        ((composes_beating now).foldl (fun _ _ ↦ promoteTx_beating) ready)
    have hlast : Beating now p4 p' := by
      rw [hp]
      split_ifs <;> exact .of_eq rfl rfl
    exact (h1 ▸ hqueue p l1 olds).trans ((h2 ▸ hqueue p1 l2 _).trans
      (hready.trans ((h4 ▸ hqueue p3 l4 caps).trans hlast)))

theorem dropLast_beating (h : p.dropLast rt a = some p') : Beating now p p' := by
  obtain ⟨l, drops, l', hl, hcap, rfl⟩ := dropLast_eq_some h
  refine (Beating.shrink hl (TxList.splits_cap hcap)).trans ((composes_beating now).foldl (fun q t ↦ ?_) drops)
  exact (Beating.of_eq rfl rfl : Beating now q (q.forget rt t)).trans (lowerPendingNonce_beating _)

theorem promoteExecutables_beating {accounts : Option (List Address)}
    (h : p.promoteExecutables rt now accounts = some p') : Beating now p p' :=
  (composes_beating now).promoteExecutables (fun _ _ _ he ↦ (promoted_of_eq he).beating)
    (fun _ _ _ he ↦ dropLast_beating he) (fun _ ts ↦ removeAll_beating ts true) h

theorem insertTx_beating (isLocal : Bool) : Beating now p (p.insertTx rt t isLocal).2 := by
  have hnew : Beating now p (p.enqueueNew rt t isLocal).2 := by
    have hque : Beating now p (p.enqueueTx rt t).2 := enqueueTx_beating
    unfold enqueueNew
    generalize p.enqueueTx rt t = r at hque
    obtain ⟨_ | _, q⟩ := r
    · exact hque
    · refine hque.trans ?_
      dsimp only
      split_ifs <;> exact .of_eq rfl rfl
  unfold insertTx
  cases hl : p.pending[senderOf t]? with
  | none => exact hnew
  | some l =>
    dsimp only
    by_cases ho : (!l.overlaps t) = true
    · rw [if_pos ho]
      exact hnew
    rw [if_neg ho]
    rcases l.add_cases t p.config.priceBump with ⟨hadd, -⟩ | ⟨l', hadd, hput, -⟩
    · rw [hadd]
      exact .of_eq rfl rfl
    rw [hadd]
    cases hget : l.txs.get t.nonce with
    | none =>
      rw [TxList.overlaps, hget] at ho
      exact absurd rfl ho
    | some old =>
      obtain ⟨hold, hn⟩ := get_eq_some_iff.mp hget
      refine (Beating.setPending (l := l') (a := senderOf t) (fun t' ht' ↦ ?_)).trans (.of_eq rfl rfl)
      rw [hput, mem_put] at ht'
      obtain rfl | ⟨ht', -⟩ := ht'
      · exact ⟨old, ⟨l, hl, hold⟩, hn⟩
      · exact ⟨t', ⟨l, hl, ht'⟩, rfl⟩

theorem add_beating (isLocal : Bool) : Beating now p (p.add rt t isLocal).2 := by
  have hroom : ∀ (q : TxPool), Beating now q (q.makeRoom rt) := by
    intro q
    refine Beating.trans ?_ (removeAll_beating _ false)
    exact .of_eq rfl rfl
  unfold add
  by_cases hk : p.all[t.hash]?.isSome = true
  · rw [if_pos hk]
    exact .of_eq rfl rfl
  rw [if_neg hk]
  cases p.validateTx t isLocal with
  | some e => exact .of_eq rfl rfl
  | none =>
    dsimp only
    split_ifs
    · exact (hroom p).trans (insertTx_beating _)
    · exact .of_eq rfl rfl
    · refine Beating.trans ?_ ((hroom _).trans (insertTx_beating _))
      exact .of_eq rfl rfl
    · exact insertTx_beating _

theorem addTxs_beating {ts : List Transaction} {isLocal : Bool} (h : p.addTxs rt now ts isLocal = some p') :
    Beating now p p' := by
  have hloop : Beating now p (ts.foldl (addLoop rt isLocal) (∅, p)).2 :=
    addLoop_induct (g := ⟨fun _ _ ↦ True, fun _ _ ↦ True⟩) (fun _ _ hq _ ↦ hq.trans (add_beating _)) ts (∅, p)
      (.of_eq rfl rfl) (batch_of_forall (fun _ _ ↦ trivial) ts)
  unfold addTxs at h
  dsimp only at h
  split_ifs at h
  · exact Option.some.inj h ▸ hloop
  · exact hloop.trans (promoteExecutables_beating h)

theorem addTx_beating {isLocal : Bool} (h : p.addTx rt now t isLocal = some p') : Beating now p p' := by
  have hadd : Beating now p (p.add rt t isLocal).2 := add_beating isLocal
  unfold addTx at h
  generalize p.add rt t isLocal = r at h hadd
  obtain ⟨_ | _ | _, q⟩ := r
  · exact Option.some.inj h ▸ hadd
  · exact hadd.trans (promoteExecutables_beating h)
  · exact Option.some.inj h ▸ hadd

theorem Demoted.beating (h : Demoted rt a p p') : Beating now p p' := by
  cases h with
  | idle _ hp => exact .of_eq (by rw [hp]) (by rw [hp])
  | @stages l l1 l2 l3 olds drops invalids gapped p1 p2 p3 hl hfwd h1 hfil h2 hgap h3 hp =>
    have hp1 : p1.pending[a]? = some l1 := by
      rw [← h1, forgetAll_pending]
      exact ExtTreeMap.getElem?_insert_self
    have hp2 : p2.pending[a]? = some l2 := by
      rw [← h2, enqueueAll_pending, forgetAll_pending]
      exact ExtTreeMap.getElem?_insert_self
    have hs1 : Beating now p p1 :=
      h1 ▸ (Beating.shrink hl (TxList.splits_of_forward hfwd)).trans (forgetAll_beating olds)
    have hs2 : Beating now p1 p2 := h2 ▸ (Beating.shrink hp1 (TxList.splits_of_filter hfil)).trans
      ((forgetAll_beating _).trans (enqueueAll_beating _))
    have hs3 : Beating now p2 p3 :=
      h3 ▸ (Beating.shrink hp2 (splits_capGapped hgap).1).trans (enqueueAll_beating gapped)
    have hlast : Beating now p3 p' := by
      rw [hp]
      split_ifs
      · exact .erasePending a
      · exact .of_eq rfl rfl
    exact hs1.trans (hs2.trans (hs3.trans hlast))

theorem reset_beating {chain : Chain} {oldHead : Option Block} {newHead : Block}
    (h : p.reset rt now chain oldHead newHead = some p') : Beating now p p' := by
  obtain ⟨_ | reinject, -, h⟩ := Option.bind_eq_some_iff.mp h
  · exact Option.some.inj h ▸ .of_eq rfl rfl
  dsimp only at h
  split at h
  · exact Option.some.inj h ▸ .of_eq rfl rfl
  obtain ⟨p1, h1, h⟩ := Option.bind_eq_some_iff.mp h
  obtain ⟨p2, h2, h⟩ := Option.bind_eq_some_iff.mp h
  obtain ⟨p3, h3, h⟩ := Option.bind_eq_some_iff.mp h
  have hdem : Beating now p1 p2 :=
    (composes_beating now).foldlM (fun _ _ _ he ↦ (demoted_of_eq he).beating) _ h2
  have hnonce : Beating now p2 p3 := by
    refine (composes_beating now).foldlM (fun q q' a he ↦ ?_) _ h3
    unfold updateNonce at he
    split at he
    · exact Option.some.inj he ▸ .of_eq rfl rfl
    · obtain ⟨t, -, rfl⟩ := Option.map_eq_some_iff.mp he
      exact .of_eq rfl rfl
  exact (Beating.of_eq rfl rfl : Beating now p (p.pointAt _ newHead.gasLimit)).trans
    ((addTxs_beating h1).trans (hdem.trans (hnonce.trans (promoteExecutables_beating h))))

theorem run_beating {op : Op} (h : p.run rt now op = some p') : Beating now p p' := by
  cases op with
  | addLocal tx => exact addTx_beating h
  | addRemote tx => exact addTx_beating h
  | addLocals txs => exact addTxs_beating h
  | addRemotes txs => exact addTxs_beating h
  | homestead => exact Option.some.inj h ▸ .of_eq rfl rfl
  | reset chain oldHead newHead => exact reset_beating h
  | setGasPrice price =>
    obtain rfl := Option.some.inj h
    refine Beating.trans ?_ (removeAll_beating _ false)
    exact .of_eq rfl rfl
  | evict => exact Option.some.inj h ▸ (composes_beating now).evict (fun _ ts ↦ removeAll_beating ts true)

/-! ### Runs with a clock -/

/-- What a run has recorded: the time of its last operation, when each transaction of the pool
was accepted, and when a transaction of an account became pending at a new nonce, for accounts
that have had pending transactions since. -/
structure Diary where
  now : ℤ
  accepted : Transaction → ℤ → Prop := fun _ time ↦ time = now
  promoted : Address → ℤ → Prop := fun _ _ ↦ False

def Diary.next (d : Diary) (p p' : TxPool) (now : ℤ) : Diary where
  now
  accepted t time := p.Pooled t ∧ d.accepted t time ∨ ¬ p.Pooled t ∧ time = now
  promoted a time := (∃ t, Listed p'.pending a t) ∧ (d.promoted a time ∨
    time = now ∧ ∃ t, Listed p'.pending a t ∧ ∀ old, Listed p.pending a old → old.nonce ≠ t.nonce)

/-- The runs whose clock does not go back. -/
inductive Timed (U : Transaction → Prop) (config : TxPoolConfig) : TxPool → Diary → Prop
  | new {p : TxPool} {rt : Runtime} {now : ℤ} {chain : Chain} (hp : TxPool.new rt now config chain = some p) :
      Timed U config p { now }
  | run {p p' : TxPool} {d : Diary} {rt : Runtime} {now : ℤ} {op : Op} (h : Timed U config p d) (hle : d.now ≤ now)
      (hg : Guard.op ⟨fun _ t ↦ U t, fun _ _ ↦ True⟩ rt p op) (hp : p.run rt now op = some p') :
      Timed U config p' (d.next p p' now)

variable {d : Diary}

theorem Timed.reachable (h : Timed U config p d) : Reachable ⟨fun _ t ↦ U t, fun _ _ ↦ True⟩ config p := by
  induction h with
  | new hp =>
    refine .new (fun reinject state hre hst ↦ ?_) hp
    cases Option.some.inj hre
    exact ⟨trivial, trivial⟩
  | run _ _ hg hp ih => exact .run ih hg hp

theorem Timed.keys (h : Timed U config p d) (a : Address) (ha : a ∈ p.beats) : a ∈ p.pending := by
  induction h generalizing a with
  | new hp => exact (reset_beating hp).keys (fun _ hb ↦ absurd hb ExtTreeMap.not_mem_empty) a ha
  | run _ _ _ hp ih => exact (run_beating hp).keys ih a ha

theorem Timed.accepted (h : Timed U config p d) (t : Transaction) :
    ∃ accepted ≤ d.now, ∀ time, d.accepted t time ↔ time = accepted := by
  induction h with
  | @new p rt now => exact ⟨now, Int.le_refl now, fun _ ↦ .rfl⟩
  | @run p p' d rt now op _ hle _ _ ih =>
    obtain ⟨accepted, hpast, hiff⟩ := ih
    by_cases ht : p.Pooled t
    · exact ⟨accepted, hpast.trans hle, fun time ↦ by simp [Diary.next, ht, hiff]⟩
    · exact ⟨now, Int.le_refl now, fun time ↦ by simp [Diary.next, ht]⟩

/-- A promotion leaves a heartbeat that is not older. -/
theorem Timed.promoted (h : Timed U config p d) {time : ℤ} (hprm : d.promoted a time) :
    time ≤ d.now ∧ ∃ beat, p.beats[a]? = some beat ∧ time ≤ beat := by
  induction h with
  | new => exact hprm.elim
  | @run p p' d rt now op _ hle _ hp ih =>
    have hbeat := (run_beating hp).beat a
    obtain ⟨⟨t, ht⟩, hold | ⟨rfl, t', ht', hnew⟩⟩ := hprm
    · obtain ⟨hpast, beat, hb, hle'⟩ := ih hold
      have hnow : time ≤ now := hpast.trans hle
      obtain hb' | ⟨hb', -⟩ := hbeat t ht
      · exact ⟨hnow, now, hb', hnow⟩
      · exact ⟨hnow, beat, hb'.trans hb, hle'⟩
    · obtain hb' | ⟨-, old, hold, hn⟩ := hbeat t' ht'
      · exact ⟨Int.le_refl _, _, hb', Int.le_refl _⟩
      · exact absurd hn (hnew old hold)

/-- A queued transaction gets its whole lifetime exactly if the heartbeat of its account is not
older than its acceptance. That is so where a transaction of the account has become pending since
then and the account has had pending ones ever since; an account without any has no heartbeat. -/
theorem queued_lifetime_iff (hU : ∀ t t', U t → U t' → t.hash = t'.hash → t = t')
    (hlife : config.lifetime < 2 ^ 63 - 1) (hsls : 1 ≤ config.accountSlots) (hr : Timed U config p d)
    (hq : Listed p.queue a t) (hremote : p.locals.contains a = false) :
    ∃ accepted ≤ d.now, (∀ time, d.accepted t time ↔ time = accepted) ∧
      ((∀ rt now, d.now ≤ now → now - accepted ≤ config.lifetime → Listed (p.evict rt now).queue a t) ↔
        config.lifetime < d.now - accepted ∨ accepted ≤ p.beats[a]?.getD 0) ∧
      (∀ time, d.promoted a time → accepted ≤ time → accepted ≤ p.beats[a]?.getD 0) ∧
      ((∀ t', ¬ Listed p.pending a t') → p.beats[a]? = none) := by
  obtain ⟨accepted, hpast, hacc⟩ := hr.accepted t
  have hk : Keeps ⟨fun _ t ↦ U t, fun _ _ ↦ True⟩ config _ _ := keeps_filled hU
    (fun p t ht ↦ ⟨ht, fun hf ↦ absurd hf Bool.false_ne_true⟩) hsls
  obtain ⟨⟨hi, hcfg⟩, hne⟩ := hk.reachable hr.reachable
  have hcfg' : p.config.lifetime = config.lifetime := by rw [hcfg]; rfl
  refine ⟨accepted, hpast, hacc, ⟨fun h ↦ ?_, fun h rt now hnow hyoung ↦ ?_⟩, fun time hprm hle ↦ ?_,
    fun hnone ↦ ?_⟩
  · -- the tick at the end of the lifetime finds the older heartbeat
    by_contra! hlate
    have hkept := h .inOrder (accepted + config.lifetime) (by omega) (by omega)
    have hold : p.config.lifetime < since (accepted + config.lifetime) (p.beats[a]?.getD 0) := by
      rw [hcfg', since]
      exact lt_min (by omega) hlife
    refine @evict_drops U .inOrder _ p a t hU hi hq hremote hold ?_
    have hi' : Indexed U (p.evict .inOrder (accepted + config.lifetime)) := Shuffle.indexed hU hi
      ((composes_shuffle hU).evict (fun _ ts hi ↦ removeAll_path hU ts hi) hi)
    exact (hi'.all _ _).mpr ⟨rfl, .inl ⟨a, .inr hkept⟩⟩
  · have hfrs : since now (p.beats[a]?.getD 0) ≤ p.config.lifetime := by
      rw [hcfg', since]
      exact (min_le_left _ _).trans (by omega)
    obtain ⟨l, hl, ht⟩ := hq
    exact ⟨l, (congrArg Prod.fst (@lease_evict U rt now p a hU hi hfrs)).trans hl, ht⟩
  · obtain ⟨-, beat, hb, hle'⟩ := hr.promoted hprm
    rw [hb]
    exact hle.trans hle'
  · by_contra hsome
    have hmem : a ∈ p.beats := ExtTreeMap.mem_iff_isSome_getElem?.mpr (Option.isSome_iff_ne_none.mpr hsome)
    obtain ⟨l, hl⟩ := Option.isSome_iff_exists.mp (ExtTreeMap.mem_iff_isSome_getElem?.mp (hr.keys a hmem))
    obtain ⟨t', ht'⟩ := List.exists_mem_of_ne_nil _ (hne.pending a l hl)
    exact hnone t' ⟨l, hl, ht'⟩

/-- The transaction of nonce 0 is pending and the one of nonce 2, accepted in 2018, waits. It
stays for the three hours. -/
theorem queued_lifetime_iff_two : ∃ p : TxPool, Listed p.queue 1 (plainTx 2 1 2 5) ∧ ∀ rt now, 64 * 10 ^ 18 ≤ now →
    now - 64 * 10 ^ 18 ≤ 3 * 60 * 60 * 1000000000 → Listed (p.evict rt now).queue 1 (plainTx 2 1 2 5) := by
  obtain ⟨p0, hnew, hpend, hque, p, hp, hremote, hfirst, hq⟩ : ∃ p0,
      new .inOrder 0 {} (plainChain 1000000) = some p0 ∧ p0.pending.isEmpty = true ∧ p0.queue.isEmpty = true ∧
      ∃ p, p0.run .inOrder (64 * 10 ^ 18) (.addRemotes [plainTx 1 1 0 5, plainTx 2 1 2 5]) = some p ∧
      p.locals.contains 1 = false ∧ (∃ l, p.pending[(1 : Address)]? = some l ∧ plainTx 1 1 0 5 ∈ l.txs.items) ∧
      (∃ l, p.queue[(1 : Address)]? = some l ∧ plainTx 2 1 2 5 ∈ l.txs.items) := by decide +kernel
  have hnone : ∀ {lists : GoMap Address TxList} {b t}, lists.isEmpty = true → ¬ Listed lists b t := by
    intro lists b t h
    rw [ExtTreeMap.isEmpty_iff.mp h]
    exact not_listed_empty
  have hr : Timed (fun t ↦ t = plainTx 1 1 0 5 ∨ t = plainTx 2 1 2 5) {}
      p (Diary.next { now := 0 } p0 p (64 * 10 ^ 18)) := by
    refine .run (.new hnew) (by decide) ?_ hp
    exact ⟨.inl rfl, .inr rfl, trivial⟩
  obtain ⟨accepted, -, hacc, hiff, hprm, -⟩ := queued_lifetime_iff (a := 1) (t := plainTx 2 1 2 5) (by
    rintro t t' (rfl | rfl) (rfl | rfl) h
    · rfl
    · exact absurd h (by decide)
    · exact absurd h (by decide)
    · rfl) (by decide) (by decide) hr hq hremote
  obtain rfl : 64 * 10 ^ 18 = accepted := by
    refine (hacc _).mp (.inr ⟨?_, rfl⟩)
    rintro ⟨b, h | h⟩
    · exact hnone hpend h
    · exact hnone hque h
  refine ⟨p, hq, hiff.mpr (.inr (hprm (64 * 10 ^ 18) ?_ (Int.le_refl _)))⟩
  exact ⟨⟨_, hfirst⟩, .inr ⟨rfl, _, hfirst, fun _ h ↦ absurd h (hnone hpend)⟩⟩

/-- A remote transaction with a gap before it is dropped a nanosecond after it was accepted, in
2018, as its account has no heartbeat. -/
theorem dropped_at_first_tick : ∃ p0, new .inOrder 0 {} (plainChain 1000000) = some p0 ∧
    ∃ p, p0.run .inOrder (64 * 10 ^ 18) (.addRemote (plainTx 1 1 1 5)) = some p ∧
    ∃ p', p.run .inOrder (64 * 10 ^ 18 + 1) .evict = some p' ∧ p.locals.contains 1 = false ∧
      p.queue[(1 : Address)]?.any (fun l ↦ l.txs.items = [plainTx 1 1 1 5]) = true ∧ p'.queue.isEmpty = true := by
  decide +kernel

end TxPool

end BjutEth.Pool
