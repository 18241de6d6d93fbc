import BjutEth.Pool.Index

namespace BjutEth.Pool

open Std
open Alien (Address Runtime)

namespace TxPool

variable {rt : Runtime} {now : ℤ} {p p' : TxPool} {a : Address} {t tx : Transaction} {replace : Bool}

def withRoom (rt : Runtime) (p : TxPool) : TxPool :=
  if p.config.globalSlots + p.config.globalQueue ≤ UInt64.ofNat p.all.size then p.makeRoom rt else p

def replacesPending (p : TxPool) (tx : Transaction) : Bool := p.pending[senderOf tx]?.any (·.overlaps tx)

theorem enqueueAll_locals (ts : List Transaction) : (p.enqueueAll rt ts).locals = p.locals := by
  refine (Composes.of_eq TxPool.locals).foldl (fun p t ↦ ?_) ts
  obtain ⟨all, priced, he⟩ := @enqueueTx_snd rt p t
  rw [he]

theorem removeTx_locals (p : TxPool) (hash : Alien.Hash) (outofbound : Bool) :
    (p.removeTx rt hash outofbound).locals = p.locals := by
  have hqueued : ∀ (q : TxPool) t, (q.removeQueued t).locals = q.locals := by
    intro q t
    unfold removeQueued
    split
    · rfl
    dsimp only
    split_ifs <;> rfl
  unfold removeTx
  split
  · rfl
  rename_i t _
  have hun : (p.unindex rt t outofbound).locals = p.locals := by
    unfold unindex
    split_ifs <;> rfl
  rw [← hun, unlist]
  split
  · exact hqueued _ t
  dsimp only
  split_ifs
  · exact hqueued _ t
  all_goals
    rw [lowerPendingNonce]
    split_ifs <;> exact enqueueAll_locals _

theorem removeAll_locals (ts : List Transaction) (outofbound : Bool) :
    (p.removeAll rt ts outofbound).locals = p.locals :=
  (Composes.of_eq TxPool.locals).foldl (fun p (t : Transaction) ↦ removeTx_locals p t.hash outofbound) ts

theorem withRoom_locals : (p.withRoom rt).locals = p.locals := by
  unfold withRoom
  split_ifs
  · exact removeAll_locals _ _
  · rfl

theorem forgetAll_locals (ts : List Transaction) : (p.forgetAll rt ts).locals = p.locals :=
  (Composes.of_eq TxPool.locals).foldl (f := forget rt) (fun _ _ ↦ rfl) ts

theorem Promoted.locals (h : Promoted rt now a p p') : p'.locals = p.locals := by
  cases h with
  | idle _ hp => rw [hp]
  | @stages l l1 l2 l3 l4 olds drops invalids ready caps p1 p2 p3 p4 _ _ h1 _ h2 _ h3 _ h4 hp =>
    have hprm : p3.locals = p2.locals := by
      rw [← h3]
      refine (Composes.of_eq TxPool.locals).foldl (p := p2.setQueue a l3) (fun p t ↦ ?_) ready
      obtain ⟨all, priced, beats, nonces, he⟩ := @promoteTx_eq rt p a t now
      rw [he]
    have hlast : p'.locals = p4.locals := by
      rw [hp]
      split_ifs <;> rfl
    rw [hlast, ← h4, forgetAll_locals]
    refine hprm.trans ?_
    rw [← h2, forgetAll_locals]
    change p1.locals = p.locals
    rw [← h1, forgetAll_locals]
    rfl

theorem dropLast_locals (h : p.dropLast rt a = some p') : p'.locals = p.locals := by
  obtain ⟨-, drops, l, -, -, rfl⟩ := dropLast_eq_some h
  refine (Composes.of_eq TxPool.locals).foldl (p := p.setPending a l) (fun q t ↦ ?_) drops
  rw [lowerPendingNonce]
  split_ifs <;> rfl

theorem promoteExecutables_locals {accounts : Option (List Address)}
    (h : p.promoteExecutables rt now accounts = some p') : p'.locals = p.locals :=
  (Composes.of_eq TxPool.locals).promoteExecutables (fun _ _ _ he ↦ (promoted_of_eq he).locals)
    (fun _ _ _ he ↦ dropLast_locals he) (fun _ ts ↦ removeAll_locals ts true) h

theorem insertTx_locals (h : (p.insertTx rt tx true).1 = .ok replace) :
    (p.insertTx rt tx true).2.locals =
      if p.replacesPending tx then p.locals else p.locals.insert (senderOf tx) () := by
  have hnew : ∀ {r}, (p.enqueueNew rt tx true).1 = .ok r →
      (p.enqueueNew rt tx true).2.locals = p.locals.insert (senderOf tx) () := by
    intro r h
    obtain ⟨all, priced, he⟩ := @enqueueTx_snd rt p tx
    unfold enqueueNew at h ⊢
    generalize p.enqueueTx rt tx = r at h he ⊢
    obtain ⟨e | replace, q⟩ := r
    · cases h
    change q.locals.insert (senderOf tx) () = _
    rw [show q = _ from he]
  unfold insertTx at h ⊢
  cases hl : p.pending[senderOf tx]? with
  | none =>
    rw [hl] at h
    rw [replacesPending, hl]
    exact hnew h
  | some l =>
    rw [hl] at h
    rw [replacesPending, hl, Option.any_some]
    dsimp only at h ⊢
    cases ho : l.overlaps tx with
    | false =>
      rw [ho] at h
      exact hnew h
    | true =>
      rw [ho] at h
      simp only [Bool.not_true, Bool.false_eq_true, if_false, if_true] at h ⊢
      generalize l.add tx p.config.priceBump = r at h ⊢
      obtain ⟨inserted, old, l'⟩ := r
      split_ifs at h ⊢
      cases old <;> rfl

theorem add_local_eq (h : (p.add rt tx true).1 = .ok replace) :
    p.add rt tx true = (p.withRoom rt).insertTx rt tx true := by
  unfold add at h ⊢
  by_cases hknw : p.all[tx.hash]?.isSome = true
  · rw [if_pos hknw] at h
    cases h
  rw [if_neg hknw] at h ⊢
  cases hv : p.validateTx tx true with
  | some e =>
    rw [hv] at h
    cases h
  | none =>
    simp only [withRoom, if_true]
    split_ifs <;> rfl

/-- After `AddLocal` has accepted a transaction, its sender is local exactly if it was, or if
no pending transaction was replaced. -/
theorem sender_local_iff (hlocals : p.config.noLocals = false)
    (hnil : (p.add rt tx !p.config.noLocals).1 = .ok replace) (hp : p.run rt now (.addLocal tx) = some p') :
    p'.locals.contains (senderOf tx) = true ↔
      p.locals.contains (senderOf tx) = true ∨ (p.withRoom rt).replacesPending tx = false := by
  rw [run, hlocals, Bool.not_false, addTx] at hp
  rw [hlocals, Bool.not_false] at hnil
  have hadd := add_local_eq hnil
  rw [hadd] at hnil
  have hlocal := insertTx_locals hnil
  rw [hadd] at hp
  have hp' : p'.locals = ((p.withRoom rt).insertTx rt tx true).2.locals := by
    generalize (p.withRoom rt).insertTx rt tx true = r at hp hnil
    obtain ⟨e | _ | _, q⟩ := r
    · cases hnil
    · exact promoteExecutables_locals hp
    cases hp
    rfl
  rw [hp', hlocal, withRoom_locals]
  cases (p.withRoom rt).replacesPending tx with
  | false => simp [ExtTreeMap.contains_insert]
  | true => simp

theorem sender_local_queued : ∃ p0, new .inOrder 0 {} (plainChain 1000000) = some p0 ∧
    ∃ p, p0.run .inOrder 0 (.addLocal (plainTx 1 1 0 5)) = some p ∧ p.locals.contains 1 = true := by
  obtain ⟨p0, hnew, hlocals, hnil, hroom, p, hp, -⟩ : ∃ p0,
      new .inOrder 0 {} (plainChain 1000000) = some p0 ∧ p0.config.noLocals = false ∧
      (p0.add .inOrder (plainTx 1 1 0 5) !p0.config.noLocals).1 = .ok false ∧
      (p0.withRoom .inOrder).replacesPending (plainTx 1 1 0 5) = false ∧
      ∃ p, p0.run .inOrder 0 (.addLocal (plainTx 1 1 0 5)) = some p ∧ True := by
    decide +kernel
  exact ⟨p0, hnew, p, hp, (sender_local_iff hlocals hnil hp).mpr (.inr hroom)⟩

/-- The local transaction replaces a pending one: its sender stays remote. -/
theorem replacing_sender_remote : ∃ p0, new .inOrder 0 {} (plainChain 1000000) = some p0 ∧
    ∃ p, p0.run .inOrder 0 (.addRemote (plainTx 1 1 0 5)) = some p ∧ p.config.noLocals = false ∧
    (p.add .inOrder (plainTx 2 1 0 10) true).1 = .ok true ∧
    ∃ p', p.run .inOrder 0 (.addLocal (plainTx 2 1 0 10)) = some p' ∧
      p'.pending[(1 : Address)]?.any (fun l ↦ l.txs.items = [plainTx 2 1 0 10]) = true ∧
      p'.locals.contains 1 = false := by
  decide +kernel

end TxPool

end BjutEth.Pool
