import BjutEth.Pool.Filled

namespace BjutEth.Pool

open Std List Option TxSortedMap
open Alien (Address Hash Runtime)

variable {U : Transaction → Prop} {rt : Runtime} {p p' q : TxPool} {config : TxPoolConfig}
variable {a b : Address} {t t' : Transaction} {l l' : TxList} {now : ℤ}

namespace TxPool

/-! ### The way back into the queue -/

theorem enqueueTx_of_free (hfree : ∀ t', Listed p.queue (senderOf t) t' → t'.nonce ≠ t.nonce) :
    (p.enqueueTx rt t).1 = .ok false := by
  have hget : (p.queue[senderOf t]?.getD { strict := false }).txs.get t.nonce = none :=
    get_eq_none_iff.mpr (fun t' ht' ↦ hfree t' (listed_getD.mp ht'))
  obtain ⟨l, hadd, -, -⟩ := TxList.add_of_free hget p.config.priceBump
  unfold enqueueTx
  simp only [hadd, Bool.not_true, Bool.false_eq_true, if_false, isSome_none]

theorem listed_enqueueTx (h : Listed (p.enqueueTx rt t).2.queue a t') : t' = t ∨ Listed p.queue a t' := by
  rw [enqueueTx_queue, listed_insert] at h
  rcases h with ⟨rfl, h⟩ | ⟨-, h⟩
  · rcases TxList.add_cases (p.queue[senderOf t]?.getD { strict := false }) t p.config.priceBump with
      ⟨hadd, -⟩ | ⟨l, hadd, hl, -⟩
    · rw [hadd] at h
      exact .inr (listed_getD.mp h)
    rw [hadd] at h
    rw [hl] at h
    rcases mem_put.mp h with rfl | ⟨h, -⟩
    · exact .inl rfl
    · exact .inr (listed_getD.mp h)
  · exact .inr h

theorem listed_enqueueAll {ts : List Transaction} (h : Listed (p.enqueueAll rt ts).queue a t') :
    t' ∈ ts ∨ Listed p.queue a t' := by
  induction ts generalizing p with
  | nil => exact .inr h
  | cons t ts ih =>
    rcases ih (p := (p.enqueueTx rt t).2) h with h | h
    · exact .inl (mem_cons_of_mem t h)
    rcases listed_enqueueTx h with rfl | h
    · exact .inl mem_cons_self
    · exact .inr h

/-- Transactions of one pending list go back into the queue, in any order and number, without
an error and without replacing another one. `q` is the pool from which they were taken. -/
def Requeues (rt : Runtime) (p : TxPool) : Prop :=
  ∀ (a : Address) l, p.pending[a]? = some l → ∀ (q : TxPool), q.queue = p.queue → ∀ before t after,
    (before ++ t :: after).Nodup → (∀ t' ∈ before ++ t :: after, t' ∈ l.txs.items) →
    ((q.enqueueAll rt before).enqueueTx rt t).1 = .ok false

theorem Indexed.requeues (h : Indexed U p) : Requeues rt p := by
  intro a l hl q hq before t after hnd hmem
  have ht : t ∈ l.txs.items := hmem t (mem_append_right _ mem_cons_self)
  have hsdr : senderOf t = a := by
    rw [senderOf, h.pending_sender a t ⟨l, hl, ht⟩]
    rfl
  refine enqueueTx_of_free (fun t' ht' hn ↦ ?_)
  rw [hsdr] at ht'
  rcases listed_enqueueAll ht' with hb | hb
  · obtain rfl := eq_of_nonce (hmem t' (mem_append_left _ hb)) ht hn
    exact (nodup_append.mp hnd).2.2 t' hb t' mem_cons_self rfl
  · rw [hq] at hb
    exact h.apart a t t' ⟨l, hl, ht⟩ hb hn.symm

/-! ### The index and the lists -/

/-- The index is the disjoint union of the lists, no list is empty, every transaction is with
its sender, and no nonce is used twice. -/
structure Consistent (rt : Runtime) (p : TxPool) : Prop where
  all : ∀ hash t, p.all[hash]? = some t ↔ t.hash = hash ∧ p.Pooled t
  disjoint : ∀ a b t, Listed p.pending a t → ¬ Listed p.queue b t
  noEmpty : NoEmpty p
  sender : ∀ a t, Listed p.pending a t ∨ Listed p.queue a t → t.sender = some a
  nonces : ∀ a t t', Listed p.pending a t → Listed p.queue a t' → t.nonce ≠ t'.nonce
  requeues : Requeues rt p

theorem Indexed.consistent (h : Indexed U p) (hne : NoEmpty p) : Consistent rt p := by
  refine ⟨fun hash t ↦ ?_, fun a b t ht ht' ↦ ?_, hne, fun a t ht ↦ ?_, h.apart, h.requeues⟩
  · rw [h.all hash t]
    exact and_congr_right (fun _ ↦ or_iff_left not_mem_nil)
  · have hab := (h.pending_sender a t ht).symm.trans (h.queue_sender b t ht')
    cases hab
    exact h.apart a t t ht ht' rfl
  rcases ht with ht | ht
  · exact h.pending_sender a t ht
  · exact h.queue_sender a t ht

theorem keeps_config (hU : Separated U) {g : Guard} (hg : ∀ p t, g.offer p t → Offered U false p t) :
    Keeps g config (fun p ↦ Indexed U p ∧ p.config = config.sanitize)
      (fun p ↦ Indexed U p ∧ p.config = config.sanitize) :=
  keeps_of_moves (P := fun c ↦ c.pool.config = config.sanitize) hU hg
    (fun _ _ _ _ hm h ↦ hm.sameHead.config.trans h) rfl (fun _ _ _ h ↦ h)

/-- The lists of a pool with at least one slot for each account stay filled. -/
theorem keeps_filled (hU : Separated U) {g : Guard} (hg : ∀ p t, g.offer p t → Offered U false p t)
    (hsls : 1 ≤ config.accountSlots) :
    Keeps g config (fun p ↦ (Indexed U p ∧ p.config = config.sanitize) ∧ NoEmpty p)
      (fun p ↦ (Indexed U p ∧ p.config = config.sanitize) ∧ NoEmpty p) := by
  have hk : Keeps g config _ _ := keeps_config hU hg
  have hpos : 0 < config.sanitize.accountSlots.toNat := UInt64.le_iff_toNat_le.mp hsls
  have hprm : ∀ (rt : Runtime) (p p' : TxPool) now accounts, p.config = config.sanitize → NoEmpty p →
      p.promoteExecutables rt now accounts = some p' → Indexed U p → NoEmpty p' := by
    intro rt p p' now accounts hcfg hne hp hi
    obtain ⟨p1, h1, hp⟩ := bind_eq_some_iff.mp hp
    obtain ⟨p2, h2, hp⟩ := bind_eq_some_iff.mp hp
    have hs1 : Shuffle rt p p1 :=
      (composes_shuffle hU).foldlM (fun _ _ _ he hi ↦ (promoted_of_eq he).path hU hi) _ h1 hi
    have hne1 := (Composes.of_imp NoEmpty).foldlM (fun _ _ _ he h ↦ h.promoted (promoted_of_eq he)) _ h1 hne
    have hcfg1 : p1.config = config.sanitize := hs1.sameHead.config.trans hcfg
    exact (hne1.truncatePending (hcfg1 ▸ hpos) h2).truncateQueue hp
  have hprm' : ∀ (rt : Runtime) (p p' : TxPool) now accounts,
      (Indexed U p ∧ p.config = config.sanitize) ∧ NoEmpty p → p.promoteExecutables rt now accounts = some p' →
      (Indexed U p' ∧ p'.config = config.sanitize) ∧ NoEmpty p' := fun rt p p' now accounts h hp ↦
    ⟨hk.promote rt p p' now accounts h.1 hp, hprm rt p p' now accounts h.1.2 h.2 hp h.1.1⟩
  refine ⟨⟨hk.initial, ?_⟩, fun rt p t isLocal h ht ↦ ⟨hk.add rt p t isLocal h.1 ht, h.2.add isLocal⟩, hprm',
    fun p state gasLimit h hg ↦ ⟨hk.point p state gasLimit h.1 hg, h.2.of_eq rfl rfl⟩,
    fun rt p t h ht ↦ ⟨hk.add_mid rt p t h.1 ht, h.2.add false⟩, hprm',
    fun rt p p1 p2 h h1 h2 ↦ ⟨hk.demote rt p p1 p2 h.1 h1 h2, ?_⟩,
    fun p h ↦ ⟨hk.homestead p h.1, h.2.of_eq rfl rfl⟩,
    fun rt p price h ↦ ⟨hk.setGasPrice rt p price h.1, h.2.setGasPrice price⟩,
    fun rt p now h ↦ ⟨hk.evict rt p now h.1, h.2.evict⟩⟩
  · have hnil : Filled (∅ : GoMap Address TxList) := by
      intro a l hl
      cases hl
    exact ⟨hnil, hnil⟩
  · have hne1 := (Composes.of_imp NoEmpty).foldlM (fun _ _ _ he h ↦ h.demoted (demoted_of_eq he)) _ h1 h.2
    exact (Composes.of_imp NoEmpty).foldlM (fun _ _ _ he h ↦ h.updateNonce he) _ h2 hne1

/-- In every pool that operations on transactions with different hashes lead to, the index
matches the lists. -/
theorem reachable_consistent (hU : ∀ t t', U t → U t' → t.hash = t'.hash → t = t')
    (hsls : 1 ≤ config.accountSlots)
    (hr : Reachable ⟨fun _ t ↦ U t, fun _ _ ↦ True⟩ config p) : Consistent rt p := by
  have hk : Keeps ⟨fun _ t ↦ U t, fun _ _ ↦ True⟩ config _ _ := keeps_filled hU
    (fun p t ht ↦ ⟨ht, fun hf ↦ absurd hf Bool.false_ne_true⟩) hsls
  obtain ⟨⟨hi, -⟩, hne⟩ := hk.reachable hr
  exact hi.consistent hne

/-! ### A pool with two transactions -/

def plainTx (hash : Hash) (sender : Address) (nonce : UInt64) (gasPrice : ℤ) : Transaction where
  hash := hash
  sender := some sender
  nonce := nonce
  gasPrice := gasPrice
  gas := 21000
  recipient := some 0
  value := 0
  data := []
  size := 100

def plainChain (balance : ℤ) : Chain where
  getBlock _ _ := none
  getBlock_number _ _ _ h := (some_ne_none _ h.symm).elim
  stateAt _ := some ⟨fun _ ↦ 0, fun _ ↦ balance⟩
  currentBlock := ⟨0, 0, 0, 0, 1000000, []⟩

theorem reachable_new {offer : TxPool → Transaction → Prop} {config : TxPoolConfig} {balance : ℤ}
    (hnew : new .inOrder 0 config (plainChain balance) = some p) :
    Reachable ⟨offer, fun _ _ ↦ True⟩ config p := by
  refine .new ?_ hnew
  intro reinject state hre hst
  cases some.inj hre
  exact ⟨trivial, trivial⟩

/-- The second transaction of the account waits in the queue for the nonce before it. -/
theorem reachable_consistent_two : ∃ p, (p.pending.size, p.queue.size, p.all.size) = (1, 1, 2) ∧
    Consistent .inOrder p := by
  obtain ⟨p0, hnew, p, hp, hsize⟩ : ∃ p0, new .inOrder 0 {} (plainChain 1000000) = some p0 ∧
      ∃ p, p0.run .inOrder 0 (.addRemotes [plainTx 1 1 0 5, plainTx 2 1 2 5]) = some p ∧
      (p.pending.size, p.queue.size, p.all.size) = (1, 1, 2) := by decide +kernel
  refine ⟨p, hsize, ?_⟩
  have hsls : 1 ≤ ({} : TxPoolConfig).accountSlots := by decide
  refine reachable_consistent (U := fun t ↦ t = plainTx 1 1 0 5 ∨ t = plainTx 2 1 2 5) ?_ hsls ?_
  · rintro t t' (rfl | rfl) (rfl | rfl) h
    · rfl
    · exact absurd h (by decide)
    · exact absurd h (by decide)
    · rfl
  · refine .run (reachable_new hnew) ?_ hp
    exact ⟨.inl rfl, .inr rfl, trivial⟩

end TxPool

end BjutEth.Pool
