import BjutEth.Lib.Outcome
import BjutEth.Rlp.Codec

namespace BjutEth.Tx

abbrev Address := BitVec 160
abbrev Hash := BitVec 256

/-- `txdata`; the pointers other than the recipient are never nil. -/
structure TxData where
  accountNonce : UInt64
  price : ℤ
  gasLimit : UInt64
  recipient : Option Address
  amount : ℤ
  payload : Bytes
  V : ℤ
  R : ℤ
  S : ℤ
  deriving DecidableEq

/-- The signers; an `EIP155Signer` is made by `NewEIP155Signer`, which gives it twice the chain
id as `chainIdMul`. -/
inductive Signer
  | frontier
  | homestead
  | eip155 (chainId : ℕ)
  deriving DecidableEq

def newEIP155Signer (chainId : Option ℕ) : Signer := .eip155 (chainId.getD 0)

def Signer.equal : Signer → Signer → Bool
  | .frontier, .frontier => true
  | .homestead, .homestead => true
  | .eip155 c, .eip155 c' => c' == c
  | _, _ => false

structure Transaction where
  data : TxData
  sender : Option (Signer × Address)

inductive TxError
  | invalidChainId | invalidSig | invalidPublicKey | ecrecover
  deriving DecidableEq

abbrev Go (α : Type) := Outcome TxError α

inductive Item
  | uint (x : UInt64)
  | bigInt (x : ℤ)
  | address (a : Option Address)
  | bytes (s : Bytes)

def Item.encode : Item → Option Bytes
  | .uint x => some (Rlp.uint.encode x)
  | .bigInt x => if Rlp.bigInt.encodable x then some (Rlp.bigInt.encode x) else none
  | .address none => some [0x80]
  | .address (some a) => some ((Rlp.array 20).encode a)
  | .bytes s => some (Rlp.text.encode s)

def secp256k1N : ℕ := 0xfffffffffffffffffffffffffffffffebaaedce6af48a03bbfd25e8cd0364141

def secp256k1halfN : ℕ := secp256k1N / 2

structure Crypto where
  Key : Type
  keccak256 : Bytes → Hash
  sign : Hash → Key → Bytes
  ecrecover : Hash → Bytes → Option Bytes
  fromECDSAPub : Key → Bytes

def validateSignatureValues (v : UInt8) (r s : ℤ) (homestead : Bool) : Bool :=
  if r < 1 ∨ s < 1 then false
  else if homestead ∧ secp256k1halfN < s then false
  else r < secp256k1N && s < secp256k1N && (v == 0 || v == 1)

def isProtectedV (V : ℤ) : Bool :=
  if V.natAbs.size ≤ 8 then
    let v := UInt64.ofNat V.natAbs
    v != 27 && v != 28
  else true

def deriveChainId (v : ℤ) : ℤ :=
  if v.natAbs.size ≤ 64 then
    let v := UInt64.ofNat v.natAbs
    if v = 27 ∨ v = 28 then 0 else ((v - 35) / 2).toNat
  else (v - 35) / 2

def leftPad (n : ℕ) (s : Bytes) : Bytes := List.replicate (n - s.length) 0 ++ s

def plainSignatureValues (sig : Bytes) : Go (ℤ × ℤ × ℤ) :=
  if sig.length ≠ 65 then .error .panic
  else
    let r := beValue (sig.take 32)
    let s := beValue ((sig.take 64).drop 32)
    let v := beValue [sig.getD 64 0 + 27]
    return (r, s, v)

def Signer.signatureValues (signer : Signer) (sig : Bytes) : Go (ℤ × ℤ × ℤ) :=
  match signer with
  | .frontier | .homestead => plainSignatureValues sig
  | .eip155 chainId => do
    let (r, s, v) ← plainSignatureValues sig
    if chainId ≠ 0 then return (r, s, (sig.getD 64 0 + 35).toNat + chainId * 2)
    else return (r, s, v)

def withSignature (signer : Signer) (tx : Transaction) (sig : Bytes) : Go Transaction := do
  let (r, s, v) ← signer.signatureValues sig
  return { data := { tx.data with R := r, S := s, V := v }, sender := none }

namespace Crypto

variable (C : Crypto)

def rlpHash (items : List Item) : Hash :=
  C.keccak256 (((items.mapM Item.encode).map (fun l ↦ Rlp.frame .list l.flatten)).getD [])

/-- `Hash`; the homestead signer inherits the one of the frontier signer. -/
def hash (signer : Signer) (data : TxData) : Hash :=
  let items := [Item.uint data.accountNonce, .bigInt data.price, .uint data.gasLimit,
    .address data.recipient, .bigInt data.amount, .bytes data.payload]
  match signer with
  | .frontier | .homestead => C.rlpHash items
  | .eip155 chainId => C.rlpHash (items ++ [.bigInt chainId, .uint 0, .uint 0])

def toAddress (pub : Bytes) : Address := (C.keccak256 pub.tail).setWidth 160

def pubkeyToAddress (key : C.Key) : Address := C.toAddress (C.fromECDSAPub key)

def recoverAddress (sighash : Hash) (sig : Bytes) : Go Address :=
  match C.ecrecover sighash sig with
  | none => .error (.err .ecrecover)
  | some pub => if pub.head? ≠ some 4 then .error (.err .invalidPublicKey) else .ok (C.toAddress pub)

def recoverPlain (sighash : Hash) (R S Vb : ℤ) (homestead : Bool) : Go Address :=
  if 8 < Vb.natAbs.size then .error (.err .invalidSig)
  else
    let V : UInt8 := (UInt64.ofNat Vb.natAbs - 27).toUInt8
    if validateSignatureValues V R S homestead = false then .error (.err .invalidSig)
    else C.recoverAddress sighash
      (leftPad 32 (natBytes R.natAbs) ++ leftPad 32 (natBytes S.natAbs) ++ [V])

def signerSender (signer : Signer) (data : TxData) : Go Address :=
  match signer with
  | .frontier => C.recoverPlain (C.hash .frontier data) data.R data.S data.V false
  | .homestead => C.recoverPlain (C.hash .homestead data) data.R data.S data.V true
  | .eip155 chainId =>
    if isProtectedV data.V = false then
      C.recoverPlain (C.hash .homestead data) data.R data.S data.V true
    else if deriveChainId data.V ≠ chainId then .error (.err .invalidChainId)
    else C.recoverPlain (C.hash (.eip155 chainId) data) data.R data.S
      (data.V - chainId * 2 - 8) true

/-- `Sender`, which answers from the cache where that is by an equal signer. -/
def sender (signer : Signer) (tx : Transaction) : Go (Address × Transaction) :=
  match tx.sender with
  | some (cached, addr) =>
    if cached.equal signer then .ok (addr, tx)
    else do
      let addr ← C.signerSender signer tx.data
      return (addr, { tx with sender := some (signer, addr) })
  | none => do
    let addr ← C.signerSender signer tx.data
    return (addr, { tx with sender := some (signer, addr) })

def signTx (tx : Transaction) (signer : Signer) (key : C.Key) : Go Transaction :=
  withSignature signer tx (C.sign (C.hash signer tx.data) key)

/-- What is assumed of the library: signatures have a low `s` and a parity, and the key of a
signature is recovered from it. -/
structure Lawful : Prop where
  length_sign : ∀ h key, (C.sign h key).length = 65
  r_range : ∀ h key, 1 ≤ beValue ((C.sign h key).take 32) ∧
    beValue ((C.sign h key).take 32) < secp256k1N
  s_range : ∀ h key, 1 ≤ beValue (((C.sign h key).take 64).drop 32) ∧
    beValue (((C.sign h key).take 64).drop 32) ≤ secp256k1halfN
  parity : ∀ h key, (C.sign h key).getD 64 0 = 0 ∨ (C.sign h key).getD 64 0 = 1
  ecrecover_sign : ∀ h key, C.ecrecover h (C.sign h key) = some (C.fromECDSAPub key)
  pub_head : ∀ key, (C.fromECDSAPub key).head? = some 4

end Crypto

end BjutEth.Tx
