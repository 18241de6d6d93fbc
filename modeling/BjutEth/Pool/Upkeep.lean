import BjutEth.Pool.Admission

namespace BjutEth.Pool

open Std Option TxList ExtTreeMap
open TxSortedMap (Splits splits_forward splits_ready)
open Alien (Address Hash Runtime)

variable {U : Transaction → Prop} {rt : Runtime} {p p' : TxPool} {loose debt : List Transaction}
variable {a b : Address} {t t' : Transaction} {l l' : TxList} {fresh : Bool} {now : ℤ}

variable {drops : List Transaction}

namespace TxList

section Results

variable {threshold start gasLimit : UInt64} {costLimit : ℤ} {removed invalids : List Transaction}

theorem splits_of_forward (h : l.forward threshold = (removed, l')) : Splits l.txs l'.txs removed := by
  cases h
  exact splits_forward threshold

theorem derives_of_forward (h : l.forward threshold = (removed, l')) : l.Derives l' := by
  cases h
  exact .of_splits (splits_forward threshold)

theorem splits_of_ready (h : l.ready start = (removed, l')) : Splits l.txs l'.txs removed := by
  cases h
  exact splits_ready start

theorem derives_of_ready (h : l.ready start = (removed, l')) : l.Derives l' := by
  cases h
  exact .of_splits (splits_ready start)

theorem splits_of_filter (h : l.filter cost gas = (removed, invalids, l')) :
    Splits l.txs l'.txs (removed ++ invalids) := by
  have hs := splits_filter (l := l) cost gas
  rwa [h] at hs

theorem derives_of_filter (h : l.filter cost gas = (removed, invalids, l')) : l.Derives l' := by
  have hs := derives_filter (l := l) cost gas
  rwa [h] at hs

theorem invalids_of_filter (hst : l.strict = false)
    (h : l.filter cost gas = (removed, invalids, l')) : invalids = [] := by
  have hs : (l.filter cost gas).2.1 = [] := by
    unfold filter
    dsimp only
    rw [hst, Bool.false_and, if_neg Bool.false_ne_true]
    split_ifs <;> rfl
  rwa [h] at hs

theorem derives_of_cap {threshold : ℤ} (h : l.cap threshold = some (drops, l')) : l.Derives l' := by
  obtain ⟨⟨drops', txs⟩, hc, he⟩ := map_eq_some_iff.mp h
  cases he
  exact .of_splits (TxSortedMap.splits_cap hc)

end Results

end TxList

namespace TxPool

/-! ### What leaves the lists alone -/

theorem forgetAll_queue (ts : List Transaction) : (p.forgetAll rt ts).queue = p.queue :=
  (Composes.of_eq TxPool.queue).foldl (f := forget rt) (fun _ _ ↦ rfl) ts

theorem forgetAll_pending (ts : List Transaction) : (p.forgetAll rt ts).pending = p.pending :=
  (Composes.of_eq TxPool.pending).foldl (f := forget rt) (fun _ _ ↦ rfl) ts

theorem enqueueTx_snd : ∃ all priced, (p.enqueueTx rt t).2 = { p with
    queue := p.queue.insert (senderOf t)
      ((p.queue[senderOf t]?.getD { strict := false }).add t p.config.priceBump).2.2
    all, priced } := by
  unfold enqueueTx
  generalize (p.queue[senderOf t]?.getD { strict := false }).add t p.config.priceBump = r
  obtain ⟨inserted, old, list⟩ := r
  dsimp only
  split_ifs
  · exact ⟨_, _, rfl⟩
  · cases old <;> exact ⟨_, _, rfl⟩
  · cases old <;> exact ⟨_, _, rfl⟩

theorem enqueueTx_pending : (p.enqueueTx rt t).2.pending = p.pending := by
  obtain ⟨all, priced, he⟩ := @enqueueTx_snd rt p t
  rw [he]

theorem enqueueAll_pending (ts : List Transaction) : (p.enqueueAll rt ts).pending = p.pending :=
  (Composes.of_eq TxPool.pending).foldl (fun _ _ ↦ enqueueTx_pending) ts

theorem promoteTx_eq : ∃ all priced beats pendingNonces, promoteTx rt now a p t = { p with
    pending := p.pending.insert a ((p.pending[a]?.getD { strict := true }).add t p.config.priceBump).2.2
    all, priced, beats, pendingNonces } := by
  unfold promoteTx
  generalize (p.pending[a]?.getD { strict := true }).add t p.config.priceBump = r
  obtain ⟨inserted, old, list⟩ := r
  dsimp only
  split_ifs
  · exact ⟨_, _, _, _, rfl⟩
  · cases old <;> exact ⟨_, _, _, _, rfl⟩
  · cases old <;> exact ⟨_, _, _, _, rfl⟩

theorem promoteTx_queue : (promoteTx rt now a p t).queue = p.queue := by
  obtain ⟨all, priced, beats, nonces, he⟩ := @promoteTx_eq rt p a t now
  rw [he]

theorem promoteAll_queue (ts : List Transaction) : (ts.foldl (promoteTx rt now a) p).queue = p.queue :=
  (Composes.of_eq TxPool.queue).foldl (fun _ _ ↦ promoteTx_queue) ts

/-! ### `promoteExecutables` -/

/-- The stages of `promoteExecutables` for one account: transactions that are too old or cost
too much are dropped, those in turn are promoted, and those beyond the limit are dropped. -/
inductive Promoted (rt : Runtime) (now : ℤ) (a : Address) (p p' : TxPool) : Prop
  | idle (hl : p.queue[a]? = none) (hp : p' = p)
  | stages {l l1 l2 l3 l4 : TxList} {olds drops invalids ready caps : List Transaction} {p1 p2 p3 p4 : TxPool}
      (hl : p.queue[a]? = some l) (hfwd : l.forward (p.currentState.nonce a) = (olds, l1))
      (h1 : (p.setQueue a l1).forgetAll rt olds = p1)
      (hfil : l1.filter (p1.currentState.balance a) p1.currentMaxGas = (drops, invalids, l2))
      (h2 : (p1.setQueue a l2).forgetAll rt (rt.rangeOrder drops) = p2)
      (hready : l2.ready (p2.pendingNonce a) = (ready, l3))
      (h3 : ready.foldl (promoteTx rt now a) (p2.setQueue a l3) = p3)
      (hcap : p3.capQueue a l3 = some (caps, l4)) (h4 : (p3.setQueue a l4).forgetAll rt caps = p4)
      (hp : p' = if l4.isEmpty then p4.eraseQueue a else p4)

theorem promoted_of_eq (hp : promoteAccount rt now p a = some p') : Promoted rt now a p p' := by
  unfold promoteAccount at hp
  cases hl : p.queue[a]? with
  | none =>
    rw [hl] at hp
    exact .idle hl (some.inj hp).symm
  | some l =>
    rw [hl] at hp
    dsimp only at hp
    generalize hfwd : l.forward (p.currentState.nonce a) = r at hp
    obtain ⟨olds, l1⟩ := r
    generalize h1 : (p.setQueue a l1).forgetAll rt olds = p1 at hp
    generalize hfil : l1.filter (p1.currentState.balance a) p1.currentMaxGas = r at hp
    obtain ⟨drops, invalids, l2⟩ := r
    generalize h2 : (p1.setQueue a l2).forgetAll rt (rt.rangeOrder drops) = p2 at hp
    generalize hready : l2.ready (p2.pendingNonce a) = r at hp
    obtain ⟨ready, l3⟩ := r
    generalize h3 : ready.foldl (promoteTx rt now a) (p2.setQueue a l3) = p3 at hp
    obtain ⟨⟨caps, l4⟩, hcap, hp⟩ := bind_eq_some_iff.mp hp
    exact .stages hl hfwd h1 hfil h2 hready h3 hcap rfl (some.inj hp).symm

theorem dropQueue_path {removed : List Transaction} (hl : p.queue[a]? = some l)
    (hs : Splits l.txs l'.txs removed) (hst : l.Derives l')
    (hp : (p.setQueue a l').forgetAll rt removed = p') :
    Shuffle rt p p' ∧ p'.queue[a]? = some l' := by
  subst hp
  refine ⟨.head (.takeQueue hl hs hst) (forgetAll_path removed), ?_⟩
  rw [forgetAll_queue]
  exact getElem?_insert_self

theorem splits_capQueue {caps : List Transaction} (h : p.capQueue a l = some (caps, l')) :
    Splits l.txs l'.txs caps ∧ l.Derives l' := by
  unfold capQueue at h
  split_ifs at h
  · cases h
    exact ⟨⟨.refl _⟩, fun _ hs ↦ hs⟩
  · exact ⟨TxList.splits_cap h, derives_of_cap h⟩

theorem Promoted.path (hU : Separated U) (h : Indexed U p)
    (hp : Promoted rt now a p p') : Shuffle rt p p' := by
  cases hp with
  | idle hl hp => exact hp ▸ .refl
  | @stages l l1 l2 l3 l4 olds drops invalids ready caps p1 p2 p3 p4 hl hfwd h1 hfil h2 hready h3 hcap
      h4 hp =>
    obtain ⟨hs1, hq1⟩ := dropQueue_path hl (splits_of_forward hfwd) (derives_of_forward hfwd) h1
    have hi1 := hs1.indexed hU h
    have hspl := splits_of_filter hfil
    rw [invalids_of_filter (hi1.queue_sound a l1 hq1).strict hfil, List.append_nil] at hspl
    obtain ⟨hs2, hq2⟩ := dropQueue_path hq1 (hspl.of_perm (rt.rangeOrder_perm _))
      (derives_of_filter hfil) h2
    have hi2 := hs2.indexed hU hi1
    have hspl3 := splits_of_ready hready
    have hs3 : Shuffle rt p2 ⟨p2.setQueue a l3, ready ++ [], []⟩ :=
      .single (.takeQueue hq2 hspl3 (derives_of_ready hready))
    have hprm : Shuffle rt ⟨p2.setQueue a l3, ready ++ [], []⟩ p3 := by
      rw [← h3]
      exact promote_path now hU ready (hs3.indexed hU hi2)
        (fun t ht ↦ hi2.queue_sender a t ⟨l2, hq2, hspl3.mem_iff.mpr (.inl ht)⟩)
    have hq3 : p3.queue[a]? = some l3 := by
      rw [← h3, promoteAll_queue]
      exact getElem?_insert_self
    obtain ⟨hspl4, hst4⟩ := splits_capQueue hcap
    obtain ⟨hs4, hq4⟩ := dropQueue_path hq3 hspl4 hst4 h4
    have hall := hs1.trans (hs2.trans (hs3.trans (hprm.trans hs4)))
    subst hp
    split_ifs with he
    · exact .tail hall (.eraseQueue hq4 he)
    · exact hall

theorem dropAll_path (ts : List Transaction) :
    Shuffle rt ⟨p, ts ++ [], []⟩
      ⟨ts.foldl (fun p tx ↦ (p.forget rt tx).lowerPendingNonce a tx.nonce) p, [], []⟩ := by
  induction ts generalizing p with
  | nil => exact .refl
  | cons t ts ih => exact .head .forget (.head (lowerPendingNonce_move _ _) ih)

theorem dropLast_eq_some (hp : p.dropLast rt a = some p') :
    ∃ l drops l', p.pending[a]? = some l ∧ l.cap ((l.len : ℤ) - 1) = some (drops, l') ∧
      p' = drops.foldl (fun p tx ↦ (p.forget rt tx).lowerPendingNonce a tx.nonce) (p.setPending a l') := by
  unfold dropLast at hp
  cases hl : p.pending[a]? with
  | none =>
    rw [hl] at hp
    cases hp
  | some l =>
    rw [hl] at hp
    obtain ⟨⟨drops, l'⟩, hcap, hp⟩ := bind_eq_some_iff.mp hp
    cases hp
    exact ⟨l, drops, l', rfl, hcap, rfl⟩

theorem dropLast_path (hp : p.dropLast rt a = some p') : Shuffle rt p p' := by
  obtain ⟨l, drops, l', hl, hcap, rfl⟩ := dropLast_eq_some hp
  exact .head (.takePending hl (TxList.splits_cap hcap) (derives_of_cap hcap)) (dropAll_path drops)

variable {accounts : Option (List Address)}

namespace Composes

variable {R : TxPool → TxPool → Prop}

section Pending

variable (h : Composes R) (hlast : ∀ p p' a, p.dropLast rt a = some p' → R p p')

include h hlast

variable {offenders : List Address} {s s' : UInt64 × TxPool}

theorem dropRound (hp : dropRound rt offenders s = some s') : R s.2 s'.2 := by
  unfold TxPool.dropRound at hp
  induction offenders generalizing s with
  | nil => exact some.inj hp ▸ h.refl _
  | cons a offenders ih =>
    obtain ⟨s1, h1, hp⟩ := bind_eq_some_iff.mp hp
    obtain ⟨p1, hp1, rfl⟩ := map_eq_some_iff.mp h1
    exact h.trans (hlast _ _ a hp1) (ih hp)

theorem dropRounds {watched : Address} {limit fuel : ℕ}
    (hp : dropRounds rt offenders watched limit fuel s = some s') : R s.2 s'.2 := by
  induction fuel generalizing s with
  | zero => exact some.inj hp ▸ h.refl _
  | succ fuel ih =>
    unfold TxPool.dropRounds at hp
    split at hp
    · cases hp
    split_ifs at hp
    · obtain ⟨s1, h1, hp⟩ := bind_eq_some_iff.mp hp
      exact h.trans (h.dropRound hlast h1) (ih hp)
    · exact some.inj hp ▸ h.refl _

theorem equalize {spammers offenders' : List Address}
    (hp : equalize rt spammers offenders s = some (offenders', s')) : R s.2 s'.2 := by
  induction spammers generalizing offenders s with
  | nil =>
    cases hp
    exact h.refl _
  | cons a spammers ih =>
    unfold TxPool.equalize at hp
    split_ifs at hp
    · cases offenders with
      | nil => exact ih hp
      | cons last offenders =>
        dsimp only at hp
        split at hp
        · obtain ⟨s1, h1, hp⟩ := bind_eq_some_iff.mp hp
          exact h.trans (h.dropRounds hlast h1) (ih hp)
        · cases hp
    · cases hp
      exact h.refl _

theorem truncatePending (hp : p.truncatePending rt = some p') : R p p' := by
  unfold TxPool.truncatePending at hp
  dsimp only at hp
  split_ifs at hp
  · exact some.inj hp ▸ h.refl p
  obtain ⟨⟨offenders, s⟩, h1, hp⟩ := bind_eq_some_iff.mp hp
  have hs : R p s.2 := h.equalize hlast h1
  split at hp
  · exact some.inj hp ▸ hs
  split at hp
  · cases hp
  obtain ⟨s', h2, rfl⟩ := map_eq_some_iff.mp hp
  exact h.trans hs (h.dropRounds hlast h2)

end Pending

section Queue

variable (h : Composes R) (hrem : ∀ p ts, R p (p.removeAll rt ts true))

include h hrem

theorem truncateQueue (hp : p.truncateQueue rt = some p') : R p p' := by
  have hloop : ∀ addresses drop p, dropQueued rt addresses drop p = some p' → R p p' := by
    intro addresses
    induction addresses with
    | nil => exact fun _ p hp ↦ some.inj hp ▸ h.refl p
    | cons a addresses ih =>
      intro drop p hp
      unfold dropQueued at hp
      split_ifs at hp
      · exact some.inj hp ▸ h.refl p
      split at hp
      · cases hp
      split_ifs at hp
      · exact h.trans (hrem p _) (ih _ _ hp)
      · exact some.inj hp ▸ hrem p _
  unfold TxPool.truncateQueue at hp
  dsimp only at hp
  split_ifs at hp
  · exact some.inj hp ▸ h.refl p
  · exact hloop _ _ p hp

theorem evict : R p (p.evict rt now) := by
  refine h.foldl (fun p a ↦ ?_) _
  unfold evictAccount
  split
  · exact h.refl p
  split_ifs
  · exact hrem p _
  · exact h.refl p

end Queue

theorem promoteExecutables (h : Composes R)
    (haccount : ∀ p p' a, promoteAccount rt now p a = some p' → R p p')
    (hlast : ∀ p p' a, p.dropLast rt a = some p' → R p p') (hrem : ∀ p ts, R p (p.removeAll rt ts true))
    (hp : p.promoteExecutables rt now accounts = some p') : R p p' := by
  obtain ⟨p1, h1, hp⟩ := bind_eq_some_iff.mp hp
  obtain ⟨p2, h2, hp⟩ := bind_eq_some_iff.mp hp
  exact h.trans (h.foldlM haccount _ h1) (h.trans (h.truncatePending hlast h2) (h.truncateQueue hrem hp))

end Composes

theorem promoteExecutables_path (hU : Separated U) (h : Indexed U p)
    (hp : p.promoteExecutables rt now accounts = some p') : Shuffle rt p p' :=
  (composes_shuffle hU).promoteExecutables (fun _ _ _ he hi ↦ (promoted_of_eq he).path hU hi)
    (fun _ _ _ he _ ↦ dropLast_path he) (fun _ ts hi ↦ removeAll_path hU ts hi) hp h

/-! ### `demoteUnexecutables` -/

inductive Demoted (rt : Runtime) (a : Address) (p p' : TxPool) : Prop
  | idle (hl : p.pending[a]? = none) (hp : p' = p)
  | stages {l l1 l2 l3 : TxList} {olds drops invalids gapped : List Transaction} {p1 p2 p3 : TxPool}
      (hl : p.pending[a]? = some l) (hfwd : l.forward (p.currentState.nonce a) = (olds, l1))
      (h1 : (p.setPending a l1).forgetAll rt olds = p1)
      (hfil : l1.filter (p1.currentState.balance a) p1.currentMaxGas = (drops, invalids, l2))
      (h2 : ((p1.setPending a l2).forgetAll rt (rt.rangeOrder drops)).enqueueAll rt (rt.rangeOrder invalids) = p2)
      (hgap : capGapped (p.currentState.nonce a) l2 = some (gapped, l3))
      (h3 : (p2.setPending a l3).enqueueAll rt gapped = p3)
      (hp : p' = if l3.isEmpty then p3.erasePending a else p3)

theorem demoted_of_eq (hp : demoteAccount rt p a = some p') : Demoted rt a p p' := by
  unfold demoteAccount at hp
  cases hl : p.pending[a]? with
  | none =>
    rw [hl] at hp
    exact .idle hl (some.inj hp).symm
  | some l =>
    rw [hl] at hp
    dsimp only at hp
    generalize hfwd : l.forward (p.currentState.nonce a) = r at hp
    obtain ⟨olds, l1⟩ := r
    generalize h1 : (p.setPending a l1).forgetAll rt olds = p1 at hp
    generalize hfil : l1.filter (p1.currentState.balance a) p1.currentMaxGas = r at hp
    obtain ⟨drops, invalids, l2⟩ := r
    generalize h2 : ((p1.setPending a l2).forgetAll rt (rt.rangeOrder drops)).enqueueAll rt
      (rt.rangeOrder invalids) = p2 at hp
    obtain ⟨⟨gapped, l3⟩, hgap, hp⟩ := bind_eq_some_iff.mp hp
    exact .stages hl hfwd h1 hfil h2 hgap rfl (some.inj hp).symm

theorem splits_capGapped {nonce : UInt64} {gapped : List Transaction} (h : capGapped nonce l = some (gapped, l')) :
    Splits l.txs l'.txs gapped ∧ l.Derives l' := by
  unfold capGapped at h
  split_ifs at h
  · exact ⟨TxList.splits_cap h, derives_of_cap h⟩
  cases h
  exact ⟨⟨.refl _⟩, fun _ hs ↦ hs⟩

theorem dropPending_path (hU : Separated U) (h : Indexed U p) {invalids : List Transaction}
    (hl : p.pending[a]? = some l) (hs : Splits l.txs l'.txs (drops ++ invalids))
    (hst : l.Derives l') (hp : ((p.setPending a l').forgetAll rt drops).enqueueAll rt invalids = p') :
    Shuffle rt p p' ∧ p'.pending[a]? = some l' := by
  subst hp
  constructor
  · have htake : Shuffle rt p ⟨(p.setPending a l').forgetAll rt drops, invalids ++ [], []⟩ := by
      refine .head (.takePending hl hs hst) ?_
      rw [List.append_assoc]
      exact forgetAll_path drops
    exact htake.trans (enqueueAll_path hU invalids (htake.indexed hU h))
  · rw [enqueueAll_pending, forgetAll_pending]
    exact getElem?_insert_self

theorem Demoted.path (hU : Separated U) (h : Indexed U p)
    (hp : Demoted rt a p p') : Shuffle rt p p' := by
  cases hp with
  | idle hl hp => exact hp ▸ .refl
  | @stages l l1 l2 l3 olds drops invalids gapped p1 p2 p3 hl hfwd h1 hfil h2 hgap h3 hp =>
    have hspl1 := splits_of_forward hfwd
    rw [← List.append_nil olds] at hspl1
    obtain ⟨hs1, hq1⟩ := dropPending_path hU h hl hspl1 (derives_of_forward hfwd) h1
    have hi1 := hs1.indexed hU h
    have hspl2 := (splits_of_filter hfil).of_perm
      ((rt.rangeOrder_perm drops).append (rt.rangeOrder_perm invalids))
    obtain ⟨hs2, hq2⟩ := dropPending_path hU hi1 hq1 hspl2 (derives_of_filter hfil) h2
    obtain ⟨hspl3, hst3⟩ := splits_capGapped hgap
    have h3' : ((p2.setPending a l3).forgetAll rt []).enqueueAll rt gapped = p3 := h3
    obtain ⟨hs3, hq3⟩ := dropPending_path hU (hs2.indexed hU hi1) hq2 hspl3 hst3 h3'
    have hall := hs1.trans (hs2.trans hs3)
    subst hp
    split_ifs with he
    · exact .tail hall (.erasePending hq3 he)
    · exact hall

theorem demoteUnexecutables_path (hU : Separated U) (h : Indexed U p) (hp : p.demoteUnexecutables rt = some p') :
    Shuffle rt p p' :=
  (composes_shuffle hU).foldlM (fun _ _ _ he hi ↦ (demoted_of_eq he).path hU hi) _ hp h

theorem updateNonce_path (hp : p.updateNonce a = some p') : Shuffle rt p p' := by
  unfold updateNonce at hp
  split at hp
  · exact some.inj hp ▸ .refl
  obtain ⟨t, -, rfl⟩ := map_eq_some_iff.mp hp
  exact .single (.other rfl rfl rfl rfl ⟨rfl, rfl, rfl⟩)

end TxPool

end BjutEth.Pool
