import BjutEth.Pool.Upkeep

namespace BjutEth.Pool

open Std Option
open Alien (Address Hash Runtime)

variable {U : Transaction → Prop} {rt : Runtime} {p p' : TxPool} {t : Transaction} {fresh : Bool} {now : ℤ}

/-- Conditions on the steps of a pool: on every transaction that is offered to `add`, and on
the pool before a `reset` and the state that it is pointed to. -/
structure Guard where
  offer : TxPool → Transaction → Prop
  reset : TxPool → AccountState → Prop

namespace Guard

variable (g : Guard)

def batch (rt : Runtime) (isLocal : Bool) : TxPool → List Transaction → Prop
  | _, [] => True
  | p, tx :: txs => g.offer p tx ∧ batch rt isLocal (p.add rt tx isLocal).2 txs

def resetTo (rt : Runtime) (p : TxPool) (state : AccountState) (gasLimit : UInt64)
    (reinject : List Transaction) : Prop :=
  g.batch rt false (p.pointAt state gasLimit) reinject ∧ g.reset p state

def op (rt : Runtime) (p : TxPool) : Op → Prop
  | .addLocal tx => g.offer p tx
  | .addRemote tx => g.offer p tx
  | .addLocals txs => g.batch rt (!p.config.noLocals) p txs
  | .addRemotes txs => g.batch rt false p txs
  | .reset chain oldHead newHead => ∀ reinject state, chain.reinjected oldHead newHead = some (some reinject) →
      chain.stateAt newHead.root = some state → g.resetTo rt p state newHead.gasLimit reinject
  | .homestead | .setGasPrice _ | .evict => True

end Guard

/-- The pools that operations under a guard lead to. Each has map orders of its own. -/
inductive Reachable (g : Guard) (config : TxPoolConfig) : TxPool → Prop
  | new {p : TxPool} {rt : Runtime} {now : ℤ} {chain : Chain}
      (hg : g.op rt (TxPool.initial config) (.reset chain none chain.currentBlock))
      (hp : TxPool.new rt now config chain = some p) : Reachable g config p
  | run {p p' : TxPool} {rt : Runtime} {now : ℤ} {op : Op} (h : Reachable g config p) (hg : g.op rt p op)
      (hp : p.run rt now op = some p') : Reachable g config p'

namespace TxPool

variable {isLocal : Bool}

theorem batch_of_forall {g : Guard} (h : ∀ p t, g.offer p t) (ts : List Transaction) :
    g.batch rt isLocal p ts := by
  induction ts generalizing p with
  | nil => exact trivial
  | cons t ts ih => exact ⟨h p t, ih⟩

/-- The loop of `addTxsLocked` leaves the pool that the calls of `add` give. -/
theorem addLoop_snd (isLocal : Bool) (s : GoMap Address Unit × TxPool) :
    (addLoop rt isLocal s t).2 = (s.2.add rt t isLocal).2 := by
  unfold addLoop
  generalize s.2.add rt t isLocal = r
  obtain ⟨_ | _ | _, q⟩ := r <;> rfl

/-- What holds before a batch, and is kept by each call of `add` that meets the guard, holds
after it. -/
theorem addLoop_induct {P : TxPool → Prop} {g : Guard}
    (hadd : ∀ p t, P p → g.offer p t → P (p.add rt t isLocal).2) (ts : List Transaction)
    (s : GoMap Address Unit × TxPool) (hP : P s.2) (hg : g.batch rt isLocal s.2 ts) :
    P (ts.foldl (addLoop rt isLocal) s).2 := by
  induction ts generalizing s with
  | nil => exact hP
  | cons t ts ih =>
    obtain ⟨ht, hg⟩ := hg
    refine ih _ ?_ ?_
    · rw [addLoop_snd]
      exact hadd s.2 t hP ht
    · rw [addLoop_snd]
      exact hg

/-- Two invariants of the operations: `P` of a pool at rest and `Q` of one that `reset` has
pointed to another state. -/
structure Keeps (g : Guard) (config : TxPoolConfig) (P Q : TxPool → Prop) : Prop where
  initial : P (initial config)
  add : ∀ rt p t isLocal, P p → g.offer p t → P (p.add rt t isLocal).2
  promote : ∀ rt p p' now accounts, P p → p.promoteExecutables rt now accounts = some p' → P p'
  point : ∀ p state gasLimit, P p → g.reset p state → Q (p.pointAt state gasLimit)
  add_mid : ∀ rt p t, Q p → g.offer p t → Q (p.add rt t false).2
  promote_mid : ∀ rt p p' now accounts, Q p → p.promoteExecutables rt now accounts = some p' → Q p'
  demote : ∀ (rt : Runtime) p p1 p2, Q p → p.demoteUnexecutables rt = some p1 →
    (rt.rangeOrder p1.pending.keys).foldlM updateNonce p1 = some p2 → P p2
  homestead : ∀ p, P p → P { p with homestead := true }
  setGasPrice : ∀ rt p price, P p → P (p.setGasPrice rt price)
  evict : ∀ rt p now, P p → P (p.evict rt now)

namespace Keeps

variable {g : Guard} {config : TxPoolConfig} {P Q : TxPool → Prop}

theorem addTxs (hadd : ∀ p t, P p → g.offer p t → P (p.add rt t isLocal).2)
    (hprm : ∀ p p' now accounts, P p → p.promoteExecutables rt now accounts = some p' → P p')
    {ts : List Transaction} (hP : P p) (hg : g.batch rt isLocal p ts)
    (hp : p.addTxs rt now ts isLocal = some p') : P p' := by
  have hloop := addLoop_induct hadd ts (∅, p) hP hg
  unfold TxPool.addTxs at hp
  dsimp only at hp
  split_ifs at hp
  · exact some.inj hp ▸ hloop
  · exact hprm _ _ _ _ hloop hp

section

variable (h : Keeps g config P Q)

include h

theorem addTx (hP : P p) (hg : g.offer p t) (hp : p.addTx rt now t isLocal = some p') : P p' := by
  have hadd := h.add rt p t isLocal hP hg
  unfold TxPool.addTx at hp
  generalize p.add rt t isLocal = r at hp hadd
  obtain ⟨_ | _ | _, q⟩ := r
  · exact some.inj hp ▸ hadd
  · exact h.promote _ _ _ _ _ hadd hp
  · exact some.inj hp ▸ hadd

theorem reset {chain : Chain} {oldHead : Option Block} {newHead : Block} (hP : P p)
    (hg : g.op rt p (.reset chain oldHead newHead)) (hp : p.reset rt now chain oldHead newHead = some p') :
    P p' := by
  obtain ⟨_ | reinject, hre, hp⟩ := bind_eq_some_iff.mp hp
  · exact some.inj hp ▸ hP
  cases hst : chain.stateAt newHead.root with
  | none =>
    rw [hst] at hp
    exact some.inj hp ▸ hP
  | some state =>
    rw [hst] at hp
    obtain ⟨hbatch, hmid⟩ := hg reinject state hre hst
    obtain ⟨p1, h1, hp⟩ := bind_eq_some_iff.mp hp
    obtain ⟨p2, h2, hp⟩ := bind_eq_some_iff.mp hp
    obtain ⟨p3, h3, hp⟩ := bind_eq_some_iff.mp hp
    have hQ : Q p1 :=
      addTxs (h.add_mid rt) (h.promote_mid rt) (h.point p state newHead.gasLimit hP hmid) hbatch h1
    exact h.promote _ _ _ _ _ (h.demote rt p1 p2 p3 hQ h2 h3) hp

theorem reachable (hr : Reachable g config p) : P p := by
  induction hr with
  | new hg hp => exact h.reset h.initial hg hp
  | @run p p' rt now op _ hg hp ih =>
    cases op with
    | addLocal tx => exact h.addTx ih hg hp
    | addRemote tx => exact h.addTx ih hg hp
    | addLocals txs => exact addTxs (fun p t ↦ h.add rt p t _) (h.promote rt) ih hg hp
    | addRemotes txs => exact addTxs (fun p t ↦ h.add rt p t _) (h.promote rt) ih hg hp
    | homestead => exact some.inj hp ▸ h.homestead p ih
    | reset chain oldHead newHead => exact h.reset ih hg hp
    | setGasPrice price => exact some.inj hp ▸ h.setGasPrice rt p price ih
    | evict => exact some.inj hp ▸ h.evict rt p now ih

end

end Keeps

theorem indexed_initial (config : TxPoolConfig) : Indexed U (initial config) := by
  have hnone : ∀ a t, ¬ Listed (∅ : GoMap Address TxList) a t := fun _ _ ↦ not_listed_empty
  have hpool : ∀ t, ¬ ((initial config).Pooled t ∨ t ∈ ([] : List Transaction)) := by
    rintro t (⟨a, h | h⟩ | h)
    · exact hnone a t h
    · exact hnone a t h
    · cases h
  refine ⟨fun t h ↦ absurd h (hpool t), ?_, fun a t h ↦ absurd h (hnone a t), fun a t h ↦ absurd h (hnone a t),
    fun a t t' h ↦ absurd h (hnone a t), by simp, .nil, fun h t ↦ ?_, ?_, ?_⟩
  · rintro t (h | h)
    · cases h
    · cases h
  · constructor
    · intro he
      have he : (∅ : TxLookup)[h]? = some t := he
      cases he
    · exact fun h ↦ absurd h.2 (hpool t)
  · intro a l hl
    have he : (∅ : GoMap Address TxList)[a]? = some l := hl
    cases he
  intro a l hl
  have he : (∅ : GoMap Address TxList)[a]? = some l := hl
  cases he

theorem Indexed.pointAt (h : Indexed U p) (state : AccountState) (gasLimit : UInt64) :
    Indexed U (p.pointAt state gasLimit) :=
  ⟨h.univ, h.heap, h.pending_sender, h.queue_sender, h.apart, h.loose_free, h.loose_apart, h.all, h.pending_sound,
    h.queue_sound⟩

theorem keeps_of_moves {g : Guard} {config : TxPoolConfig} {P : Conf → Prop} (hU : Separated U)
    (hg : ∀ p t, g.offer p t → Offered U fresh p t)
    (hmove : ∀ rt c c', Indexed U c → Move U fresh rt c c' → P c → P c') (hinit : P (initial config))
    (hpoint : ∀ (p : TxPool) state gasLimit, P p → P (p.pointAt state gasLimit)) :
    Keeps g config (fun p ↦ Indexed U p ∧ P p) (fun p ↦ Indexed U p ∧ P p) := by
  have hpath : ∀ {rt c c'}, Path U fresh rt c c' → Indexed U c ∧ P c → Indexed U c' ∧ P c' := by
    intro rt c c' hs h
    induction hs with
    | refl => exact h
    | tail _ hm ih => exact ⟨hm.indexed hU ih.1, hmove _ _ _ ih.1 hm ih.2⟩
  have hadd : ∀ rt (p : TxPool) t isLocal, Indexed U p ∧ P p → g.offer p t →
      Indexed U (p.add rt t isLocal).2 ∧ P (p.add rt t isLocal).2 :=
    fun rt p t isLocal h ht ↦ hpath (add_path hU h.1 (hg p t ht) isLocal) h
  have hprm : ∀ rt (p p' : TxPool) now accounts, Indexed U p ∧ P p →
      p.promoteExecutables rt now accounts = some p' → Indexed U p' ∧ P p' :=
    fun rt p p' now accounts h hp ↦ hpath (Shuffle.path (promoteExecutables_path hU h.1 hp)) h
  refine ⟨⟨?_, hinit⟩, hadd, hprm, fun p state gasLimit h _ ↦ ?_, fun rt p t ↦ hadd rt p t false, hprm,
    fun rt p p1 p2 h h1 h2 ↦ ?_, fun p h ↦ ?_, fun rt p price h ↦ ?_, fun rt p now h ↦ ?_⟩
  · exact indexed_initial config
  · exact ⟨h.1.pointAt state gasLimit, hpoint p state gasLimit h.2⟩
  · have hs1 : Shuffle rt p p1 := demoteUnexecutables_path hU h.1 h1
    have hs2 : Shuffle rt p1 p2 :=
      (composes_shuffle hU).foldlM (fun _ _ _ he _ ↦ updateNonce_path he) _ h2 (hs1.indexed hU h.1)
    exact hpath (Shuffle.path (hs1.trans hs2)) h
  · have hs : Path U fresh .inOrder p ⟨{ p with homestead := true }, [], []⟩ :=
      .single (.other rfl rfl rfl rfl ⟨rfl, rfl, rfl⟩)
    exact hpath hs h
  · exact hpath (Shuffle.path (setGasPrice_path hU h.1 price)) h
  · exact hpath (Shuffle.path ((composes_shuffle hU).evict (fun _ ts hi ↦ removeAll_path hU ts hi) h.1)) h

end TxPool

end BjutEth.Pool
