import BjutEth.Pool.Runs

namespace BjutEth.Pool

open Std List TxList
open Alien (Address Hash Runtime)

variable {U : Transaction → Prop} {rt : Runtime} {p p' q : TxPool} {loose debt debt' : List Transaction}
variable {a b : Address} {t t' : Transaction} {l l' : TxList} {now : ℤ} {isLocal : Bool}

theorem toNat_add_one {n : UInt64} (h : n + 1 ≠ 0) : (n + 1).toNat = n.toNat + 1 := by
  have hlt := n.toNat_lt
  have hadd : (n + 1).toNat = (n.toNat + 1) % 2 ^ 64 := UInt64.toNat_add n 1
  by_cases hmax : n.toNat + 1 = 2 ^ 64
  · rw [hmax, Nat.mod_self] at hadd
    exact absurd (UInt64.toNat_inj.mp hadd) h
  · rw [hadd, Nat.mod_eq_of_lt (by omega)]

theorem TxList.mem_cap_pred {drops : List Transaction} (h : l.cap ((l.len : ℤ) - 1) = some (drops, l')) :
    ∃ last, drops = [last] ∧ ∀ t, t ∈ l'.txs.items ↔ t ∈ l.txs.items ∧ t.nonce < last.nonce := by
  obtain ⟨⟨drops', txs⟩, hc, he⟩ := Option.map_eq_some_iff.mp h
  cases he
  have hlen : l.len = l.txs.items.length := rfl
  unfold TxSortedMap.cap at hc
  split_ifs at hc with h1 h2
  · omega
  cases hc
  show ∃ last, _ ∧ ∀ t, t ∈ l.txs.items.take _ ↔ _
  generalize hn : ((l.len : ℤ) - 1).toNat = n
  obtain ⟨last, hlast⟩ : ∃ last, l.txs.items.drop n = [last] := by
    refine length_eq_one_iff.mp ?_
    rw [length_drop]
    omega
  have hits : l.txs.items = l.txs.items.take n ++ [last] := by
    rw [← hlast, take_append_drop]
  have hsort := l.txs.sorted
  rw [hits] at hsort
  have hbel := (pairwise_append.mp hsort).2.2
  refine ⟨last, by rw [hlast]; rfl, fun t ↦ ?_⟩
  constructor
  · exact fun ht ↦ ⟨mem_of_mem_take ht, hbel t ht last mem_cons_self⟩
  rintro ⟨ht, hlt⟩
  rw [hits] at ht
  rcases mem_append.mp ht with ht | ht
  · exact ht
  rw [mem_singleton.mp ht] at hlt
  exact absurd hlt (UInt64.lt_irrefl _)

namespace TxPool

def Affordable (p : TxPool) (a : Address) (t : Transaction) : Prop :=
  t.cost ≤ p.currentState.balance a ∧ t.gas ≤ p.currentMaxGas

theorem SameHead.affordable (hh : SameHead p p') : p'.Affordable a t ↔ p.Affordable a t := by
  rw [Affordable, Affordable, hh.state, hh.maxGas]

/-- What the operations do to the pending transactions and to the nonces behind them. -/
inductive Turn (p p' : TxPool) : Prop
  | still (hp : ∀ b t', Listed p'.pending b t' ↔ Listed p.pending b t')
      (hn : ∀ b, p'.pendingNonce b = p.pendingNonce b) (hh : SameHead p p')
  | promote {a : Address} {t : Transaction} (hok : p.Affordable a t) (hge : p.currentState.nonce a ≤ t.nonce)
      (hle : t.nonce ≤ p.pendingNonce a) (hfree : ∀ t', Listed p.pending a t' → t'.nonce ≠ t.nonce)
      (hmax : t.nonce + 1 ≠ 0) (hp : ∀ b t', Listed p'.pending b t' ↔ Listed p.pending b t' ∨ b = a ∧ t' = t)
      (hn : ∀ b, p'.pendingNonce b = if b = a then t.nonce + 1 else p.pendingNonce b) (hh : SameHead p p')
  | cut {a : Address} {nonce : UInt64}
      (hp : ∀ b t', Listed p'.pending b t' ↔ Listed p.pending b t' ∧ (b = a → t'.nonce < nonce))
      (hn : ∀ b, p'.pendingNonce b = if b = a ∧ nonce < p.pendingNonce a then nonce else p.pendingNonce b)
      (hh : SameHead p p')
  | replace {a : Address} {t : Transaction} (hok : p.Affordable a t)
      (hold : ∃ old, Listed p.pending a old ∧ old.nonce = t.nonce)
      (hp : ∀ b t', Listed p'.pending b t' ↔
        Listed p.pending b t' ∧ (b = a → t'.nonce ≠ t.nonce) ∨ b = a ∧ t' = t)
      (hn : ∀ b, p'.pendingNonce b = p.pendingNonce b) (hh : SameHead p p')

abbrev Turns : TxPool → TxPool → Prop := Relation.ReflTransGen Turn

theorem Turn.sameHead (h : Turn p p') : SameHead p p' := by
  cases h <;> assumption

theorem Turns.sameHead (h : Turns p p') : SameHead p p' := by
  induction h with
  | refl => exact .refl p
  | tail _ ht ih => exact ih.trans ht.sameHead

theorem Turn.of_eq (hp : p'.pending = p.pending) (hn : p'.pendingNonces = p.pendingNonces) (hh : SameHead p p') :
    Turn p p' := by
  refine .still (fun b t' ↦ by rw [hp]) (fun b ↦ ?_) hh
  rw [pendingNonce, pendingNonce, hn, hh.state]

/-! ### Removals -/

theorem pendingNonce_setPendingNonce (nonce : UInt64) :
    (p.setPendingNonce a nonce).pendingNonce b = if b = a then nonce else p.pendingNonce b := by
  unfold pendingNonce setPendingNonce
  rw [GoMap.get_insert]
  by_cases hb : b = a
  · rw [if_pos hb, if_pos hb.symm]
    rfl
  · rw [if_neg hb, if_neg (Ne.symm hb)]

theorem pendingNonce_lowerPendingNonce (nonce : UInt64) :
    (p.lowerPendingNonce a nonce).pendingNonce b =
      if b = a ∧ nonce < p.pendingNonce a then nonce else p.pendingNonce b := by
  unfold lowerPendingNonce
  split_ifs with h1 h2 h2
  · rw [pendingNonce_setPendingNonce, if_pos h2.1]
  · rw [pendingNonce_setPendingNonce, if_neg (fun hb ↦ h2 ⟨hb, h1⟩)]
  · exact absurd h2.2 h1
  · rfl

theorem lowerPendingNonce_pending (nonce : UInt64) : (p.lowerPendingNonce a nonce).pending = p.pending := by
  unfold lowerPendingNonce
  split_ifs <;> rfl

theorem enqueueTx_pendingNonces : (p.enqueueTx rt t).2.pendingNonces = p.pendingNonces := by
  obtain ⟨all, priced, he⟩ := @enqueueTx_snd rt p t
  rw [he]

theorem enqueueAll_pendingNonces (ts : List Transaction) :
    (p.enqueueAll rt ts).pendingNonces = p.pendingNonces :=
  (Composes.of_eq TxPool.pendingNonces).foldl (fun _ _ ↦ enqueueTx_pendingNonces) ts

theorem removeQueued_turn : Turn p (p.removeQueued t) := by
  unfold removeQueued
  split
  · exact .of_eq rfl rfl (.refl p)
  dsimp only
  split_ifs <;> exact .of_eq rfl rfl ⟨rfl, rfl, rfl⟩

theorem unindex_turn (outofbound : Bool) : Turn p (p.unindex rt t outofbound) := by
  cases outofbound <;> exact .of_eq rfl rfl ⟨rfl, rfl, rfl⟩

theorem unlist_turns {outofbound : Bool} (hU : Separated U)
    (h : Indexed U ⟨p, [], debt⟩) (hs : Settled outofbound t debt debt') (ht : p.Pooled t) :
    Turns p ((p.unindex rt t outofbound).unlist rt t) := by
  have hhead : SameHead p ((p.unindex rt t outofbound).unlist rt t) :=
    Path.sameHead (unlist_path hU h hs ht)
  obtain ⟨-, he⟩ | ⟨q, ts, hmid, -, hnon, hpend, he⟩ := @unlist_cases U rt p debt t outofbound debt' h hs ht
  · rw [he]
    exact .head (unindex_turn outofbound) (.single removeQueued_turn)
  rw [he] at hhead ⊢
  have hsame : ∀ c, (q.enqueueAll rt ts).pendingNonce c = p.pendingNonce c := by
    intro c
    have hstate : (q.enqueueAll rt ts).currentState = p.currentState := by
      rw [← hhead.state, lowerPendingNonce]
      split_ifs <;> rfl
    rw [pendingNonce, pendingNonce, enqueueAll_pendingNonces, hnon, hstate]
  have hlists : ((q.enqueueAll rt ts).lowerPendingNonce (senderOf t) t.nonce).pending = q.pending :=
    (lowerPendingNonce_pending t.nonce).trans (enqueueAll_pending ts)
  rw [← hlists] at hpend
  refine .single (.cut hpend (fun b ↦ ?_) hhead)
  rw [pendingNonce_lowerPendingNonce, hsame, hsame]

theorem removeTx_turns (hU : Separated U) (h : Indexed U p)
    (hash : Hash) : Turns p (p.removeTx rt hash true) := by
  unfold removeTx
  cases hall : p.all[hash]? with
  | none => exact .refl
  | some t =>
    have ht := ((h.all hash t).mp hall).2.resolve_right not_mem_nil
    exact unlist_turns hU h (.inl ⟨rfl, rfl, rfl⟩) ht

theorem removeTx_debt_turns (hU : Separated U) (h : Indexed U ⟨p, [], debt⟩)
    (hp : debt.Perm (t :: debt')) : Turns p (p.removeTx rt t.hash false) := by
  unfold removeTx
  cases hall : p.all[t.hash]? with
  | none => exact .refl
  | some t' =>
    obtain rfl := h.eq_of_hash hU (h.heap t (.inr (hp.symm.subset mem_cons_self))) hall
    have ht := ((h.all _ _).mp hall).2.resolve_right not_mem_nil
    exact unlist_turns hU h (.inr ⟨rfl, hp⟩) ht

theorem composes_turns (U : Transaction → Prop) : Composes (fun p p' ↦ Indexed U p → Turns p p' ∧ Indexed U p') :=
  ⟨fun _ hi ↦ ⟨.refl, hi⟩, fun h h' hi ↦ ⟨(h hi).1.trans (h' (h hi).2).1, (h' (h hi).2).2⟩⟩

section

variable (hU : Separated U)

include hU

theorem removeAll_turns (ts : List Transaction) (h : Indexed U p) :
    Turns p (p.removeAll rt ts true) ∧ Indexed U (p.removeAll rt ts true) :=
  (composes_turns U).foldl (fun q t hi ↦ ⟨removeTx_turns hU hi t.hash,
    Shuffle.indexed hU hi (@removeTx_path U rt q hU hi t.hash)⟩) ts h

theorem removeAll_debt_turns {ts : List Transaction}
    (h : Indexed U ⟨p, [], debt⟩) (hd : debt.Perm ts) : Turns p (p.removeAll rt ts false) := by
  induction ts generalizing p debt with
  | nil => exact .refl
  | cons t ts ih =>
    have hs : Shuffle rt ⟨p, [], debt⟩ ⟨p.removeTx rt t.hash false, [], ts⟩ := removeTx_debt hU h hd
    exact (removeTx_debt_turns hU h hd).trans (ih (Shuffle.indexed hU h hs) (.refl ts))

theorem removeDropped_turns (h : Indexed U p) {priced : TxPricedList} {drop save : List Transaction}
    (hloop : ∃ debt, debt.Perm (drop ++ (save ++ [])) ∧
      Shuffle rt p ⟨{ p with priced }, [], debt⟩) :
    Turns p (({ p with priced := save.foldl TxPricedList.put priced }).removeAll rt drop false) := by
  obtain ⟨debt, hd, hs⟩ := saved_path hloop
  have hstill : Turn p { p with priced := save.foldl TxPricedList.put priced } := .of_eq rfl rfl ⟨rfl, rfl, rfl⟩
  exact .head hstill (removeAll_debt_turns hU (Shuffle.indexed hU h hs) hd)

theorem makeRoom_turns (h : Indexed U p) : Turns p (p.makeRoom rt) :=
  removeDropped_turns hU h (discardLoop_path _ _ _)

theorem setGasPrice_turns (h : Indexed U p) (price : ℤ) : Turns p (p.setGasPrice rt price) := by
  have hm : Move (fun _ ↦ False) false rt p ⟨{ p with gasPrice := price }, [], []⟩ :=
    .other rfl rfl rfl rfl ⟨rfl, rfl, rfl⟩
  have hs : Shuffle rt p ⟨{ p with gasPrice := price }, [], []⟩ := .single hm
  have hstill : Turn p { p with gasPrice := price } := .of_eq rfl rfl ⟨rfl, rfl, rfl⟩
  refine .head hstill ?_
  exact removeDropped_turns hU (Shuffle.indexed hU h hs)
    (capLoop_path (p := { p with gasPrice := price }) p.isLocal price p.priced.items.size)

end

theorem dropLast_turn (hp : p.dropLast rt a = some p') : Turn p p' := by
  have hhead : SameHead p p' := Path.sameHead (dropLast_path hp)
  obtain ⟨l, drops, l', hl, hcap, rfl⟩ := dropLast_eq_some hp
  obtain ⟨last, hdrops, hmem⟩ := mem_cap_pred hcap
  subst hdrops
  have hlists : ∀ b t', Listed (p.pending.insert a l') b t' ↔
      Listed p.pending b t' ∧ (b = a → t'.nonce < last.nonce) := by
    intro b t'
    rw [listed_insert]
    by_cases hb : b = a
    · subst hb
      simp only [hmem, listed_iff hl, true_and, ne_eq, not_true_eq_false, false_and, or_false, forall_const]
    · simp only [hb, false_and, ne_eq, not_false_eq_true, true_and, false_or, false_implies, and_true]
  have hlower : ((p.setPending a l').forget rt last).lowerPendingNonce a last.nonce =
      [last].foldl (fun p tx ↦ (p.forget rt tx).lowerPendingNonce a tx.nonce) (p.setPending a l') := rfl
  have hpend : (((p.setPending a l').forget rt last).lowerPendingNonce a last.nonce).pending =
      p.pending.insert a l' := lowerPendingNonce_pending last.nonce
  rw [← hpend] at hlists
  exact .cut hlists (fun b ↦ pendingNonce_lowerPendingNonce last.nonce) hhead

/-! ### `add` -/

theorem enqueueNew_turn : Turn p (p.enqueueNew rt t isLocal).2 := by
  have hpend : (p.enqueueTx rt t).2.pending = p.pending := enqueueTx_pending
  have hnon : (p.enqueueTx rt t).2.pendingNonces = p.pendingNonces := enqueueTx_pendingNonces
  have hhead : SameHead p (p.enqueueTx rt t).2 := by
    obtain ⟨all, priced, he⟩ := @enqueueTx_snd rt p t
    rw [he]
    exact ⟨rfl, rfl, rfl⟩
  unfold enqueueNew
  generalize p.enqueueTx rt t = r at hpend hnon hhead
  obtain ⟨_ | _, q⟩ := r
  · exact .of_eq hpend hnon hhead
  split_ifs
  · exact .of_eq hpend hnon ⟨hhead.config, hhead.state, hhead.maxGas⟩
  · exact .of_eq hpend hnon hhead

theorem insertTx_turn (ha : t.sender = some a) (hok : p.Affordable a t) :
    Turn p (p.insertTx rt t isLocal).2 := by
  have hof : senderOf t = a := by rw [senderOf, ha]; rfl
  unfold insertTx
  rw [hof]
  cases hl : p.pending[a]? with
  | none => exact enqueueNew_turn
  | some l =>
    dsimp only
    by_cases ho : (!l.overlaps t) = true
    · rw [if_pos ho]
      exact enqueueNew_turn
    rw [if_neg ho]
    rcases l.add_cases t p.config.priceBump with ⟨hadd, -⟩ | ⟨l', hadd, hl', -⟩
    · rw [hadd]
      exact .of_eq rfl rfl (.refl p)
    rw [hadd]
    cases hget : l.txs.get t.nonce with
    | none =>
      rw [TxList.overlaps, hget] at ho
      exact absurd rfl ho
    | some old =>
      obtain ⟨hold, hn⟩ := TxSortedMap.get_eq_some_iff.mp hget
      refine .replace hok ⟨old, ⟨l, hl, hold⟩, hn⟩ (fun b t' ↦ ?_) (fun b ↦ rfl) ⟨rfl, rfl, rfl⟩
      show Listed (p.pending.insert a l') b t' ↔ _
      rw [listed_insert, hl', TxSortedMap.mem_put]
      by_cases hb : b = a
      · subst hb
        rw [listed_iff hl]
        tauto
      · tauto

theorem validateTx_affordable (hv : p.validateTx t isLocal = none) : p.Affordable (senderOf t) t := by
  have hs := validateTx_sender hv
  unfold validateTx at hv
  rw [hs] at hv
  split_ifs at hv with h1 h2 h3
  dsimp only at hv
  split_ifs at hv with h5 h6 h7
  exact ⟨Int.not_lt.mp h7, UInt64.not_lt.mp h3⟩

theorem add_turns (hU : Separated U) (h : Indexed U p) :
    Turns p (p.add rt t isLocal).2 := by
  unfold add
  by_cases hk : p.all[t.hash]?.isSome = true
  · rw [if_pos hk]
  rw [if_neg hk]
  cases hv : p.validateTx t isLocal with
  | some e => exact .refl
  | none =>
    have hok := validateTx_affordable hv
    have hins {q : TxPool} (hs : Turns p q) : Turns p (q.insertTx rt t isLocal).2 :=
      .tail hs (insertTx_turn (validateTx_sender hv) (hs.sameHead.affordable.mpr hok))
    dsimp only
    split_ifs
    · exact hins (makeRoom_turns hU h)
    · exact .single (.of_eq rfl rfl ⟨rfl, rfl, rfl⟩)
    · have hs : Shuffle rt p ⟨{ p with priced := (p.priced.underpriced p.all p.isLocal t).2 }, [], []⟩ :=
        underpriced_path _
      have hstill : Turn p { p with priced := (p.priced.underpriced p.all p.isLocal t).2 } :=
        .of_eq rfl rfl ⟨rfl, rfl, rfl⟩
      exact hins (.head hstill (makeRoom_turns hU (hs.indexed hU h)))
    · exact hins .refl

/-! ### Promotions -/

theorem promoteAll_turns (hU : Separated U) (hmax : ∀ t, U t → t.nonce + 1 ≠ 0)
    (ts : List Transaction) (h : Indexed U ⟨p, ts ++ loose, debt⟩) (hs : ∀ t ∈ ts, t.sender = some a)
    (hok : ∀ t ∈ ts, p.Affordable a t ∧ p.currentState.nonce a ≤ t.nonce)
    (hstart : ∀ t ∈ ts.head?, t.nonce ≤ p.pendingNonce a) (hchain : ts.IsChain (fun t t' ↦ t'.nonce = t.nonce + 1)) :
    Turns p (ts.foldl (promoteTx rt now a) p) := by
  induction ts generalizing p with
  | nil => exact .refl
  | cons t ts ih =>
    have ha := hs t mem_cons_self
    obtain ⟨l, he, hl, hst⟩ := promoteTx_loose rt now h ha
    obtain ⟨b, hb, hfree⟩ := h.loose_free t mem_cons_self
    cases ha.symm.trans hb
    obtain ⟨hokt, hge⟩ := hok t mem_cons_self
    have hhead : SameHead p (promoteTx rt now a p t) := by
      rw [he]
      exact ⟨rfl, rfl, rfl⟩
    have hnonce : ∀ b, (promoteTx rt now a p t).pendingNonce b = if b = a then t.nonce + 1 else p.pendingNonce b := by
      rw [he]
      exact fun b ↦ pendingNonce_setPendingNonce (p := p) (t.nonce + 1)
    have hturn : Turn p (promoteTx rt now a p t) := by
      refine .promote hokt hge (hstart t rfl) (fun t' ht' ↦ hfree t' (.inl ht'))
        (hmax t (h.univ t (.inr mem_cons_self))) (fun b t' ↦ ?_) hnonce hhead
      rw [he]
      show Listed (p.pending.insert a l) b t' ↔ _
      rw [listed_insert, hl, TxSortedMap.mem_put, listed_getD]
      by_cases hb : b = a
      · subst hb
        tauto
      · tauto
    have hpath : Shuffle rt ⟨p, [t] ++ (ts ++ loose), debt⟩ ⟨promoteTx rt now a p t, ts ++ loose, debt⟩ :=
      promote_path now hU [t] h (fun t' ht' ↦ mem_singleton.mp ht' ▸ ha)
    refine .head hturn (ih (Shuffle.indexed hU h hpath) (fun t' ht' ↦ hs t' (mem_cons_of_mem t ht')) ?_ ?_
      hchain.tail)
    · intro t' ht'
      obtain ⟨hokt', hge'⟩ := hok t' (mem_cons_of_mem t ht')
      exact ⟨hhead.affordable.mpr hokt', hhead.state ▸ hge'⟩
    intro t' ht'
    rw [hnonce a, if_pos rfl]
    cases ts with
    | nil => cases ht'
    | cons t'' ts =>
      cases ht'
      rw [(isChain_cons_cons.mp hchain).1]
      exact UInt64.le_refl _

theorem ready_chain {start : UInt64} {ready : List Transaction} (h : l.ready start = (ready, l')) :
    ready.IsChain (fun t t' ↦ t'.nonce = t.nonce + 1) ∧ ∀ t ∈ ready.head?, t.nonce ≤ start := by
  have hrun : ∀ (ts : List Transaction) (next : UInt64),
      (TxSortedMap.run next ts).1.IsChain (fun t t' ↦ t'.nonce = t.nonce + 1) ∧
        ∀ t ∈ (TxSortedMap.run next ts).1.head?, t.nonce = next := by
    intro ts
    induction ts with
    | nil => exact fun next ↦ ⟨.nil, fun t ht ↦ by cases ht⟩
    | cons t ts ih =>
      intro next
      unfold TxSortedMap.run
      split_ifs with hn
      · refine ⟨?_, fun t' ht' ↦ Option.some.inj ht' ▸ hn⟩
        obtain ⟨hchain, hhead⟩ := ih (next + 1)
        refine List.IsChain.cons hchain (fun t' ht' ↦ ?_)
        rw [hhead t' ht', hn]
      · exact ⟨.nil, by simp⟩
  obtain ⟨rfl, -⟩ := Prod.mk.inj h
  unfold TxSortedMap.ready
  split
  · exact ⟨.nil, by simp⟩
  rename_i first rest hits
  split_ifs with hlt
  · exact ⟨.nil, by simp⟩
  obtain ⟨hchain, hhead⟩ := hrun l.txs.items first.nonce
  exact ⟨hchain, fun t ht ↦ hhead t ht ▸ UInt64.not_lt.mp hlt⟩

theorem forgetAll_still (ts : List Transaction) : (p.forgetAll rt ts).pendingNonces = p.pendingNonces ∧
    SameHead p (p.forgetAll rt ts) := by
  induction ts generalizing p with
  | nil => exact ⟨rfl, .refl p⟩
  | cons t ts ih =>
    obtain ⟨hn, hh⟩ := ih (p := p.forget rt t)
    exact ⟨hn, hh.config, hh.state, hh.maxGas⟩

theorem dropQueue_turn {removed : List Transaction} (hp : (p.setQueue a l).forgetAll rt removed = p') : Turn p p' := by
  subst hp
  obtain ⟨hn, hh⟩ := @forgetAll_still rt (p.setQueue a l) removed
  exact .of_eq (forgetAll_pending removed) hn ⟨hh.config, hh.state, hh.maxGas⟩

theorem Promoted.turns (hU : Separated U) (hmax : ∀ t, U t → t.nonce + 1 ≠ 0)
    (h : Indexed U p) (hp : Promoted rt now a p p') : Turns p p' := by
  cases hp with
  | idle hl hp => exact hp ▸ .refl
  | @stages l l1 l2 l3 l4 olds drops invalids ready caps p1 p2 p3 p4 hl hfwd h1 hfil h2 hready h3 hcap
      h4 hp =>
    obtain ⟨hs1, hq1⟩ := dropQueue_path hl (splits_of_forward hfwd) (derives_of_forward hfwd) h1
    have hi1 := hs1.indexed hU h
    have hspl := splits_of_filter hfil
    rw [invalids_of_filter (hi1.queue_sound a l1 hq1).strict hfil, append_nil] at hspl
    obtain ⟨hs2, hq2⟩ := dropQueue_path hq1 (hspl.of_perm (rt.rangeOrder_perm _))
      (derives_of_filter hfil) h2
    have hi2 := hs2.indexed hU hi1
    have hspl3 := splits_of_ready hready
    have hs3 : Shuffle rt p2 ⟨p2.setQueue a l3, ready ++ [], []⟩ :=
      .single (.takeQueue hq2 hspl3 (derives_of_ready hready))
    have hhead1 : SameHead p p1 := Path.sameHead hs1
    have hhead2 : SameHead p1 p2 := Path.sameHead hs2
    obtain ⟨hchain, hstart⟩ := ready_chain hready
    have hok : ∀ t ∈ ready, p2.Affordable a t ∧ p2.currentState.nonce a ≤ t.nonce := by
      intro t ht
      have ht2 : t ∈ l2.txs.items := hspl3.mem_iff.mpr (.inl ht)
      have hwit := within_filter (hi1.queue_sound a l1 hq1) (p1.currentState.balance a) p1.currentMaxGas
      rw [hfil] at hwit
      refine ⟨hhead2.affordable.mpr (hwit t ht2), ?_⟩
      have ht1 : t ∈ l1.txs.items := hspl.mem_iff.mpr (.inr ht2)
      obtain ⟨-, rfl⟩ := Prod.mk.inj hfwd
      have hnot := (mem_filter.mp ht1).2
      rw [Bool.not_eq_true', decide_eq_false_iff_not] at hnot
      rw [hhead2.state, hhead1.state]
      exact UInt64.not_lt.mp hnot
    have hprm : Turns (p2.setQueue a l3) p3 := by
      rw [← h3]
      exact promoteAll_turns hU hmax ready (hs3.indexed hU hi2)
        (fun t ht ↦ hi2.queue_sender a t ⟨l2, hq2, hspl3.mem_iff.mpr (.inl ht)⟩) hok hstart hchain
    have hque : Turn p2 (p2.setQueue a l3) := .of_eq rfl rfl ⟨rfl, rfl, rfl⟩
    have hall : Turns p p4 := .head (dropQueue_turn h1) (.head (dropQueue_turn h2) (.head hque
      (.tail hprm (dropQueue_turn h4))))
    subst hp
    split_ifs
    · exact .tail hall (.of_eq rfl rfl ⟨rfl, rfl, rfl⟩)
    · exact hall

theorem promoteExecutables_turns (hU : Separated U) (hmax : ∀ t, U t → t.nonce + 1 ≠ 0) (h : Indexed U p)
    {accounts : Option (List Address)} (hp : p.promoteExecutables rt now accounts = some p') : Turns p p' := by
  refine ((composes_turns U).promoteExecutables (fun q q' a he hi ↦ ?_) (fun q q' a he hi ↦ ?_)
    (fun _ ts hi ↦ removeAll_turns hU ts hi) hp h).1
  · have hrnd := promoted_of_eq he
    exact ⟨hrnd.turns hU hmax hi, Shuffle.indexed hU hi (hrnd.path hU hi)⟩
  · exact ⟨.single (dropLast_turn he), Shuffle.indexed hU hi (dropLast_path he)⟩

end TxPool

end BjutEth.Pool
