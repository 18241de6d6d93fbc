import BjutEth.Lib.Bytes

namespace BjutEth.Core

def txGas : UInt64 := 21000
def txGasContractCreation : UInt64 := 53000
def txDataZeroGas : UInt64 := 4
def txDataNonZeroGas : UInt64 := 68

/-- `IntrinsicGas`, or nothing if it runs out of 64 bits. -/
def intrinsicGas (data : Bytes) (contractCreation homestead : Bool) : Option UInt64 :=
  let gas := if contractCreation && homestead then txGasContractCreation else txGas
  if data.isEmpty then some gas
  else
    let nz := UInt64.ofNat (data.countP (fun byt ↦ byt ≠ 0))
    if (-1 - gas) / txDataNonZeroGas < nz then none
    else
      let gas := gas + nz * txDataNonZeroGas
      let z := UInt64.ofNat data.length - nz
      if (-1 - gas) / txDataZeroGas < z then none else some (gas + z * txDataZeroGas)

end BjutEth.Core
