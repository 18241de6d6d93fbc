import BjutEth.Core.MemoryGas

namespace BjutEth.Core

open UInt64

structure GasTable where
  calls : UInt64
  createBySuicide : UInt64

def gasTableEIP150 : GasTable := ⟨700, 25000⟩

/-- What the price of a call reads of the EVM; `eip158` is `IsEIP158` of its block. -/
structure CallContext where
  eip158 : Bool
  empty : BitVec 160 → Bool
  exist : BitVec 160 → Bool

def callNewAccountGas : UInt64 := 25000
def callValueTransferGas : UInt64 := 9000

/-- A stack, its top first. -/
abbrev Stack := List ℕ

def Stack.back (stack : Stack) (n : ℕ) : ℕ := stack.getD n 0

def safeAdd (x y : UInt64) : Option UInt64 := if y > -1 - x then none else some (x + y)

def useGas (gas cost : UInt64) : Option UInt64 := if gas < cost then none else some (gas - cost)

def callGas (gasTable : GasTable) (availableGas base : UInt64) (callCost : ℕ) : Option UInt64 :=
  let gas := availableGas - base - (availableGas - base) / 64
  if 0 < gasTable.createBySuicide ∧ (2 ^ 64 ≤ callCost ∨ gas < .ofNat callCost) then some gas
  else if 2 ^ 64 ≤ callCost then none
  else some (.ofNat callCost)

/-- The costs that are the call's own, before those of the memory. -/
def callOwnGas (gt : GasTable) (evm : CallContext) (stack : Stack) : UInt64 :=
  let transfersValue := stack.back 2 ≠ 0
  let address := BitVec.ofNat 160 (stack.back 1)
  let gas := if evm.eip158 then
      if transfersValue ∧ evm.empty address then gt.calls + callNewAccountGas else gt.calls
    else if evm.exist address then gt.calls else gt.calls + callNewAccountGas
  if transfersValue then gas + callValueTransferGas else gas

def withMemory (gas : UInt64) (mem : Memory) (memorySize : UInt64) : Option (UInt64 × Memory) := do
  let m ← memoryGasCost mem memorySize
  let gas ← safeAdd gas m.1
  return (gas, m.2)

def memoryAnd (gas : UInt64) (mem : Memory) (memorySize : UInt64) : Option (UInt64 × Memory) := do
  let m ← memoryGasCost mem memorySize
  let gas ← safeAdd m.1 gas
  return (gas, m.2)

/-- The cost of a call over its base, with `callGasTemp`. -/
def withCallGas (gt : GasTable) (gas : UInt64) (stack : Stack) (base : Option (UInt64 × Memory)) :
    Option (UInt64 × UInt64 × Memory) := do
  let b ← base
  let callGasTemp ← callGas gt gas b.1 (stack.back 0)
  let cost ← safeAdd b.1 callGasTemp
  return (cost, callGasTemp, b.2)

section Prices

variable (gt : GasTable) (evm : CallContext) (gas : UInt64) (stack : Stack) (mem : Memory) (memorySize : UInt64)

def callBase := withMemory (callOwnGas gt evm stack) mem memorySize

def callCodeBase :=
  withMemory (if stack.back 2 ≠ 0 then gt.calls + callValueTransferGas else gt.calls) mem memorySize

def delegateCallBase := memoryAnd gt.calls mem memorySize

def staticCallBase := memoryAnd gt.calls mem memorySize

def gasCall := withCallGas gt gas stack (callBase gt evm stack mem memorySize)

def gasCallCode := withCallGas gt gas stack (callCodeBase gt stack mem memorySize)

def gasDelegateCall := withCallGas gt gas stack (delegateCallBase gt mem memorySize)

def gasStaticCall := withCallGas gt gas stack (staticCallBase gt mem memorySize)

end Prices

/-- If the cost can be paid, so can the base, and the callee gets what it asked for or all but
a 64th of the rest. -/
def Shares (gas : UInt64) (requested : ℕ) (base : Option (UInt64 × Memory))
    (price : Option (UInt64 × UInt64 × Memory)) : Prop :=
  ∀ cost callGasTemp mem, price = some (cost, callGasTemp, mem) → (useGas gas cost).isSome →
    ∃ b, base = some b ∧ b.1 ≤ gas ∧
      callGasTemp.toNat = min requested (gas.toNat - b.1.toNat - (gas.toNat - b.1.toNat) / 64)

variable {gt : GasTable} {gas : UInt64}

theorem safeAdd_eq_some {x y z : UInt64} (h : safeAdd x y = some z) : z.toNat = x.toNat + y.toNat := by
  unfold safeAdd at h
  split_ifs at h with hxy
  cases h
  have hx := x.toNat_lt
  rw [gt_iff_lt, UInt64.not_lt, le_iff_toNat_le, UInt64.toNat_sub_of_le _ _ (by
    rw [le_iff_toNat_le]; exact Nat.le_sub_one_of_lt hx)] at hxy
  have hmax : (-1 : UInt64).toNat = 2 ^ 64 - 1 := rfl
  rw [UInt64.toNat_add, Nat.mod_eq_of_lt (by omega)]

theorem callGas_eq {base temp : UInt64} {requested : ℕ} (hgt : 0 < gt.createBySuicide) (hle : base ≤ gas)
    (h : callGas gt gas base requested = some temp) : temp.toNat =
      min requested (gas.toNat - base.toNat - (gas.toNat - base.toNat) / 64) := by
  have hlt := gas.toNat_lt
  have hshare : (gas - base - (gas - base) / 64).toNat =
      gas.toNat - base.toNat - (gas.toNat - base.toNat) / 64 := by
    have hdiv : ((gas - base) / 64).toNat = (gas.toNat - base.toNat) / 64 := by
      rw [UInt64.toNat_div, UInt64.toNat_sub_of_le _ _ hle]
      rfl
    rw [UInt64.toNat_sub_of_le _ _ (le_iff_toNat_le.mpr ?_), hdiv, UInt64.toNat_sub_of_le _ _ hle]
    exact Nat.div_le_self _ _
  simp only [callGas, hgt, true_and, lt_iff_toNat_lt, hshare, toNat_ofNat'] at h
  split_ifs at h with hreq hbig
  · cases h
    rcases hreq with hreq | hreq
    · omega
    omega
  cases h
  rw [toNat_ofNat', Nat.mod_eq_of_lt (by omega)]
  omega

theorem shares (hgt : 0 < gt.createBySuicide) (stack : Stack) (base : Option (UInt64 × Memory)) :
    Shares gas (stack.back 0) base (withCallGas gt gas stack base) := by
  intro cost temp mem h hpay
  obtain ⟨b, hb, h⟩ := Option.bind_eq_some_iff.mp h
  obtain ⟨temp', htemp, h⟩ := Option.bind_eq_some_iff.mp h
  obtain ⟨cost', hcost, h⟩ := Option.bind_eq_some_iff.mp h
  cases h
  have hsum := safeAdd_eq_some hcost
  have hle : b.1 ≤ gas := by
    unfold useGas at hpay
    split_ifs at hpay with hlt
    · cases hpay
    rw [UInt64.not_lt, le_iff_toNat_le] at hlt
    exact le_iff_toNat_le.mpr (by omega)
  -- a base above the gas is above it with whatever the wrapped share adds, so it is not paid
  exact ⟨b, hb, hle, callGas_eq hgt hle htemp⟩

theorem callee_share (gt : GasTable) (hgt : 0 < gt.createBySuicide) (evm : CallContext) (gas : UInt64)
    (stack : Stack) (mem : Memory) (memorySize : UInt64) :
    Shares gas (stack.back 0) (callBase gt evm stack mem memorySize)
      (gasCall gt evm gas stack mem memorySize) ∧
    Shares gas (stack.back 0) (callCodeBase gt stack mem memorySize)
      (gasCallCode gt gas stack mem memorySize) ∧
    Shares gas (stack.back 0) (delegateCallBase gt mem memorySize)
      (gasDelegateCall gt gas stack mem memorySize) ∧
    Shares gas (stack.back 0) (staticCallBase gt mem memorySize)
      (gasStaticCall gt gas stack mem memorySize) :=
  ⟨shares hgt stack _, shares hgt stack _, shares hgt stack _, shares hgt stack _⟩

/-- With 10000 left and all of it asked for, a call of 700 gets 9300 less a 64th. -/
theorem callee_share_eip150 : gasStaticCall gasTableEIP150 10000 [10000] {} 0 = some (9855, 9155, {}) ∧
    ∃ b, staticCallBase gasTableEIP150 {} 0 = some b ∧ b.1 ≤ 10000 ∧
      (9155 : UInt64).toNat = min 10000 (10000 - b.1.toNat - (10000 - b.1.toNat) / 64) := by
  refine ⟨rfl, ?_⟩
  exact (callee_share gasTableEIP150 (by decide) ⟨true, fun _ ↦ true, fun _ ↦ true⟩ 10000 [10000] {} 0).2.2.2
    9855 9155 {} rfl rfl

end BjutEth.Core
