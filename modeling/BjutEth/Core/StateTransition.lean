import BjutEth.Alien.Types
import BjutEth.Core.IntrinsicGas

namespace BjutEth.Core

open Alien (Address)
open UInt64 Function

variable {σ : Type}

/-- The state as a transition sees it; `rest` is what only executions look at. -/
structure World (σ : Type) where
  balance : Address → ℤ
  nonce : Address → UInt64
  getRefund : UInt64
  rest : σ

def World.addBalance (s : World σ) (addr : Address) (amount : ℤ) : World σ :=
  { s with balance := update s.balance addr (s.balance addr + amount) }

structure Message where
  sender : Address
  recipient : Option Address
  gasPrice : ℤ
  gas : UInt64
  value : ℤ
  nonce : UInt64
  checkNonce : Bool
  data : Bytes

inductive TransitionError
  | nonceTooHigh | nonceTooLow | insufficientBalanceForGas | gasLimitReached | outOfGas
  | insufficientBalance
  deriving DecidableEq

inductive VmError
  | insufficientBalance | other
  deriving DecidableEq

/-- What `Create` or `Call` returns, with the state that it leaves. -/
structure Execution (σ : Type) where
  ret : Bytes
  gas : UInt64
  vmerr : Option VmError
  state : World σ

/-- The virtual machine, which returns at most the gas that it is given. -/
structure Evm (σ : Type) where
  homestead : Bool
  coinbase : Address
  create : World σ → Address → Bytes → UInt64 → ℤ → Execution σ
  call : World σ → Address → Address → Bytes → UInt64 → ℤ → Execution σ
  create_le : ∀ s caller data gas value, (create s caller data gas value).gas ≤ gas
  call_le : ∀ s caller addr data gas value, (call s caller addr data gas value).gas ≤ gas

/-- `StateTransition` without what it copies from the message; `gp` is the gas pool. -/
structure StateTransition (σ : Type) where
  gp : UInt64
  gas : UInt64
  initialGas : UInt64
  state : World σ

def subGas (gp amount : UInt64) : Outcome TransitionError UInt64 :=
  if gp < amount then .error (.err .gasLimitReached) else .ok (gp - amount)

def addGas (gp amount : UInt64) : Outcome TransitionError UInt64 :=
  if gp > -1 - amount then .error .panic else .ok (gp + amount)

def Message.price (msg : Message) (gas : UInt64) : ℤ := gas.toNat * msg.gasPrice

namespace StateTransition

def useGas (amount : UInt64) (st : StateTransition σ) : Outcome TransitionError (StateTransition σ) :=
  if st.gas < amount then .error (.err .outOfGas) else .ok { st with gas := st.gas - amount }

def gasUsed (st : StateTransition σ) : UInt64 := st.initialGas - st.gas

def buyGas (msg : Message) (st : StateTransition σ) : Outcome TransitionError (StateTransition σ) :=
  if st.state.balance msg.sender < msg.price msg.gas then .error (.err .insufficientBalanceForGas)
  else do
    let gp ← subGas st.gp msg.gas
    return {
      gp
      gas := st.gas + msg.gas
      initialGas := msg.gas
      state := st.state.addBalance msg.sender (-msg.price msg.gas) }

def preCheck (msg : Message) (st : StateTransition σ) : Outcome TransitionError (StateTransition σ) :=
  let nonce := st.state.nonce msg.sender
  if msg.checkNonce && nonce < msg.nonce then .error (.err .nonceTooHigh)
  else if msg.checkNonce && nonce > msg.nonce then .error (.err .nonceTooLow)
  else buyGas msg st

/-- The refund, capped to half of the used gas. -/
def refund (st : StateTransition σ) : UInt64 :=
  if st.gasUsed / 2 > st.state.getRefund then st.state.getRefund else st.gasUsed / 2

def refundGas (msg : Message) (st : StateTransition σ) : Outcome TransitionError (StateTransition σ) := do
  let gas := st.gas + st.refund
  let gp ← addGas st.gp gas
  return { st with gp, gas, state := st.state.addBalance msg.sender (msg.price gas) }

end StateTransition

def Evm.execute (evm : Evm σ) (msg : Message) (s : World σ) (gas : UInt64) : Execution σ :=
  match msg.recipient with
  | none => evm.create s msg.sender msg.data gas msg.value
  | some addr =>
    let s := { s with nonce := update s.nonce msg.sender (s.nonce msg.sender + 1) }
    evm.call s msg.sender addr msg.data gas msg.value

/-- `TransitionDb`: what it returns, and the gas pool and the state that it leaves. -/
def transitionDb (evm : Evm σ) (msg : Message) (gp : UInt64) (s : World σ) :
    Outcome TransitionError (Bytes × UInt64 × Bool × UInt64 × World σ) := do
  let st ← StateTransition.preCheck msg ⟨gp, 0, 0, s⟩
  let gas ← (intrinsicGas msg.data msg.recipient.isNone evm.homestead).elim (.error (.err .outOfGas)) .ok
  let st ← st.useGas gas
  let run := evm.execute msg st.state st.gas
  if run.vmerr = some .insufficientBalance then .error (.err .insufficientBalance)
  else do
    let st ← StateTransition.refundGas msg { st with gas := run.gas, state := run.state }
    let state := st.state.addBalance evm.coinbase (msg.price st.gasUsed)
    return (run.ret, st.gasUsed, run.vmerr.isSome, st.gp, state)

theorem execute_le (evm : Evm σ) (msg : Message) (s : World σ) (gas : UInt64) :
    (evm.execute msg s gas).gas ≤ gas := by
  unfold Evm.execute
  split
  · exact evm.create_le _ _ _ _ _
  · exact evm.call_le _ _ _ _ _ _

theorem preCheck_eq_ok {msg : Message} {gp : UInt64} {s : World σ} {st : StateTransition σ}
    (h : StateTransition.preCheck msg ⟨gp, 0, 0, s⟩ = .ok st) :
    msg.gas ≤ gp ∧ st = ⟨gp - msg.gas, msg.gas, msg.gas, s.addBalance msg.sender (-msg.price msg.gas)⟩ := by
  unfold StateTransition.preCheck StateTransition.buyGas subGas at h
  dsimp only at h
  split_ifs at h with h1 h2 h3 h4
  · cases h
  cases h
  rw [UInt64.zero_add]
  exact ⟨UInt64.not_lt.mp h4, rfl⟩

variable {st st' : StateTransition σ} {msg : Message}

/-- The refund never takes the gas above its start, nor the pool out of range. -/
theorem refundGas_eq_ok (hgas : st.gas ≤ st.initialGas) (h : st.refundGas msg = .ok st') :
    st'.gas.toNat = st.gas.toNat + st.refund.toNat ∧
      2 * st.refund.toNat ≤ st.initialGas.toNat - st.gas.toNat ∧
      st'.gp.toNat = st.gp.toNat + st'.gas.toNat ∧ st'.initialGas = st.initialGas ∧
      st'.state = st.state.addBalance msg.sender (msg.price st'.gas) := by
  have hle := le_iff_toNat_le.mp hgas
  have hused : st.gasUsed.toNat = st.initialGas.toNat - st.gas.toNat := UInt64.toNat_sub_of_le _ _ hgas
  have hhalf : (st.gasUsed / 2).toNat = (st.initialGas.toNat - st.gas.toNat) / 2 := by
    rw [UInt64.toNat_div, hused]
    rfl
  have hrefund : st.refund.toNat ≤ (st.initialGas.toNat - st.gas.toNat) / 2 := by
    unfold StateTransition.refund
    split_ifs with hcap
    · exact hhalf ▸ (lt_iff_toNat_lt.mp hcap).le
    · exact hhalf.le
  have hbound := st.initialGas.toNat_lt
  have hsum : (st.gas + st.refund).toNat = st.gas.toNat + st.refund.toNat := by
    rw [UInt64.toNat_add, Nat.mod_eq_of_lt (by omega)]
  unfold StateTransition.refundGas addGas at h
  dsimp only at h
  split_ifs at h with hpan
  · cases h
  cases h
  have hroom := le_iff_toNat_le.mp (UInt64.not_lt.mp hpan)
  have hmax : (-1 - (st.gas + st.refund)).toNat = 2 ^ 64 - 1 - (st.gas + st.refund).toNat :=
    UInt64.toNat_sub_of_le _ _ (le_iff_toNat_le.mpr (by
      change _ ≤ 2 ^ 64 - 1
      omega))
  refine ⟨hsum, by omega, ?_, rfl, rfl⟩
  rw [UInt64.toNat_add, Nat.mod_eq_of_lt]
  omega

theorem World.balance_addBalance (s : World σ) (b a : Address) (x : ℤ) :
    (s.addBalance b x).balance a = s.balance a + if a = b then x else 0 := by
  change update _ _ _ _ = _
  rw [update_apply]
  split_ifs with hab
  · rw [hab]
  · rw [add_zero]

theorem price_eq_sub {used left all : UInt64} (h : used.toNat + left.toNat = all.toNat) :
    msg.price used = msg.price all - msg.price left := by
  unfold Message.price
  rw [← h]
  push_cast
  ring

theorem nonZero_le {data : Bytes} (h : data.length < 2 ^ 64) :
    ofNat (data.countP (fun byt ↦ byt ≠ 0)) ≤ ofNat data.length := by
  have hle : data.countP (fun byt ↦ byt ≠ 0) ≤ data.length := List.countP_le_length
  rw [le_iff_toNat_le, toNat_ofNat_of_lt' (hle.trans_lt h), toNat_ofNat_of_lt' h]
  exact hle

/-- Gas and ether of a transition: that no unsigned subtraction wraps around, what is used and
refunded, what the pool loses, and what sender and coinbase pay and get besides the effects of the
execution. -/
theorem transitionDb_accounts (evm : Evm σ) (msg : Message) (gp : UInt64) (s : World σ) {ret : Bytes}
    {used pool : UInt64} {failed : Bool} {final : World σ}
    (h : transitionDb evm msg gp s = .ok (ret, used, failed, pool, final)) :
    ∃ intrinsic refund : UInt64, let bought := s.addBalance msg.sender (-msg.price msg.gas)
      let run := evm.execute msg bought (msg.gas - intrinsic)
      intrinsicGas msg.data msg.recipient.isNone evm.homestead = some intrinsic ∧
      refund = StateTransition.refund ⟨gp - msg.gas, run.gas, msg.gas, run.state⟩ ∧
      (msg.data.length < 2 ^ 64 → ofNat (msg.data.countP (fun byt ↦ byt ≠ 0)) ≤
        ofNat msg.data.length) ∧
      msg.gas ≤ gp ∧ intrinsic ≤ msg.gas ∧ run.gas ≤ msg.gas ∧
      used.toNat + (run.gas.toNat + refund.toNat) = msg.gas.toNat ∧
      intrinsic.toNat ≤ used.toNat + refund.toNat ∧ used.toNat + refund.toNat ≤ msg.gas.toNat ∧
      2 * refund.toNat ≤ used.toNat + refund.toNat ∧ pool.toNat + used.toNat = gp.toNat ∧
      ∀ a, final.balance a = s.balance a + (run.state.balance a - bought.balance a) -
        (if a = msg.sender then msg.price used else 0) +
        (if a = evm.coinbase then msg.price used else 0) := by
  obtain ⟨st, hst, h⟩ := Outcome.bind_eq_ok.mp h
  obtain ⟨hgp, rfl⟩ := preCheck_eq_ok hst
  obtain ⟨intrinsic, hint, h⟩ := Outcome.bind_eq_ok.mp h
  obtain ⟨st, huse, h⟩ := Outcome.bind_eq_ok.mp h
  unfold StateTransition.useGas at huse
  split_ifs at huse with hlow
  cases huse
  dsimp only at h
  split_ifs at h with herr
  obtain ⟨st', hrefund, h⟩ := Outcome.bind_eq_ok.mp h
  cases h
  have hlow : intrinsic ≤ msg.gas := UInt64.not_lt.mp hlow
  have hleft := UInt64.toNat_sub_of_le _ _ hlow
  have hrun := execute_le evm msg (s.addBalance msg.sender (-msg.price msg.gas)) (msg.gas - intrinsic)
  have hpool := UInt64.toNat_sub_of_le _ _ hgp
  rw [le_iff_toNat_le] at hgp hlow hrun
  have hsml : (evm.execute msg (s.addBalance msg.sender (-msg.price msg.gas))
      (msg.gas - intrinsic)).gas ≤ msg.gas := le_iff_toNat_le.mpr (by omega)
  obtain ⟨hgas, hhalf, hpool', hinit, hstate⟩ := refundGas_eq_ok hsml hrefund
  dsimp only at hgas hhalf hpool' hinit hstate hpool
  have hused : st'.gasUsed.toNat + st'.gas.toNat = msg.gas.toNat := by
    rw [StateTransition.gasUsed, hinit, UInt64.toNat_sub_of_le _ _ (le_iff_toNat_le.mpr (by omega))]
    omega
  refine ⟨intrinsic, _, ?_, rfl, nonZero_le, le_iff_toNat_le.mpr hgp,
    le_iff_toNat_le.mpr hlow, hsml, by omega, by omega, by omega, by omega, by omega, fun a ↦ ?_⟩
  · cases hi : intrinsicGas msg.data msg.recipient.isNone evm.homestead with
    | none =>
      rw [hi] at hint
      cases hint
    | some gas =>
      rw [hi] at hint
      exact congrArg some (Except.ok.inj hint)
  rw [World.balance_addBalance, World.balance_addBalance, hstate, World.balance_addBalance,
    price_eq_sub hused]
  split_ifs <;> omega

def idleEvm : Evm Unit where
  homestead := true
  coinbase := 9
  create s _ _ gas _ := ⟨[], gas, none, s⟩
  call s _ _ _ gas _ := ⟨[], gas, none, s⟩
  create_le _ _ _ _ _ := UInt64.le_refl _
  call_le _ _ _ _ _ _ := UInt64.le_refl _

/-- A message without data uses 21000 of its 30000 gas. -/
theorem transitionDb_accounts_transfer :
    let msg : Message := ⟨1, some 2, 3, 30000, 0, 0, true, []⟩
    ∃ r, transitionDb idleEvm msg 50000 ⟨fun _ ↦ 100000, fun _ ↦ 0, 0, ()⟩ = .ok r ∧
      r.2.1 = 21000 ∧ r.2.2.2.1.toNat + r.2.1.toNat = 50000 := by
  intro msg
  obtain ⟨⟨ret, used, failed, pool, final⟩, hrun, hused⟩ : ∃ r, transitionDb idleEvm msg 50000
      ⟨fun _ ↦ 100000, fun _ ↦ 0, 0, ()⟩ = .ok r ∧ r.2.1 = 21000 := by decide +kernel
  obtain ⟨_, _, _, _, _, _, _, _, _, _, _, _, hpool, _⟩ := transitionDb_accounts _ _ _ _ hrun
  exact ⟨_, hrun, hused, hpool⟩

end BjutEth.Core
