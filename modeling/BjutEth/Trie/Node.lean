import BjutEth.Lib.Outcome
import BjutEth.Rlp.Frame
import BjutEth.Trie.Encoding

namespace BjutEth.Trie

open Rlp

abbrev Hash := BitVec 256

def hashBytes (h : Hash) : Bytes := fixedBytes 32 h.toNat

def bytesToHash (b : Bytes) : Hash := .ofNat 256 (beValue b)

structure NodeFlag where
  hash : Option Hash
  gen : UInt16
  dirty : Bool

/-- The node types; `nil` is the nil interface. -/
inductive Node
  | nil
  | value (v : Bytes)
  | short (key : List Nibble) (val : Node) (flags : NodeFlag)
  | full (children : Nibble → Node) (flags : NodeFlag)
  | hash (h : Hash)

namespace Node

def isNil : Node → Bool
  | nil => true
  | _ => false

def cache : Node → Option Hash × Bool
  | short _ _ flags | full _ flags => (flags.hash, flags.dirty)
  | _ => (none, true)

def canUnload (cachegen cachelimit : UInt16) : Node → Bool
  | short _ _ flags | full _ flags => !flags.dirty && cachelimit ≤ cachegen - flags.gen
  | _ => false

end Node

inductive DecodeError
  | unexpectedEOF
  | split
  | elements (n : ℕ)
  | oversized (size : ℕ)
  | refSize (size : ℕ)
  deriving DecidableEq

abbrev Decoded (α : Type) := Outcome DecodeError α

def countValuesLoop : ℕ → Bytes → Option ℕ
  | _, [] => some 0
  | 0, _ :: _ => none
  | fuel + 1, b :: s =>
    match readKind (b :: s) with
    | none => none
    | some (_, _, rest) => (countValuesLoop fuel rest).map (· + 1)

/-- `CountValues`; the callers do not look at the error, which comes with zero. -/
def countValues (b : Bytes) : ℕ := (countValuesLoop b.length b).getD 0

def splitString (b : Bytes) : Decoded (Bytes × Bytes) :=
  match readKind b with
  | some (.string, content, rest) => .ok (content, rest)
  | _ => .error (.err .split)

section Decode

/- The decoder of embedded nodes. -/
variable (embedded : Bytes → Decoded Node)

def decodeRef (buf : Bytes) : Decoded (Node × Bytes) :=
  match readKind buf with
  | none => .error (.err .split)
  | some (.list, _, rest) =>
    let size := buf.length - rest.length
    if 32 < size then .error (.err (.oversized size))
    else embedded buf >>= fun n ↦ pure (n, rest)
  | some (.string, val, rest) =>
    if val.length = 0 then .ok (.nil, rest)
    else if val.length = 32 then .ok (.hash (bytesToHash val), rest)
    else .error (.err (.refSize val.length))

def decodeShort (hash : Option Hash) (elems : Bytes) (cachegen : UInt16) : Decoded Node :=
  splitString elems >>= fun kbuf ↦
    let flag : NodeFlag := { hash, gen := cachegen, dirty := false }
    match compactToHex kbuf.1 with
    | none => .error .panic
    | some key =>
      if hasTerm key then
        splitString kbuf.2 >>= fun val ↦ pure (.short key (.value val.1) flag)
      else decodeRef embedded kbuf.2 >>= fun r ↦ pure (.short key r.1 flag)

def decodeChildren : List Nibble → (Nibble → Node) → Bytes → Decoded ((Nibble → Node) × Bytes)
  | [], children, elems => .ok (children, elems)
  | i :: is, children, elems =>
    decodeRef embedded elems >>= fun cld ↦
      decodeChildren is (Function.update children i cld.1) cld.2

def childIndices : List Nibble := (List.finRange 16).map Fin.castSucc

def decodeFull (hash : Option Hash) (elems : Bytes) (cachegen : UInt16) : Decoded Node :=
  decodeChildren embedded childIndices (fun _ ↦ .nil) elems >>= fun r ↦
    splitString r.2 >>= fun val ↦
      let children := if 0 < val.1.length then Function.update r.1 16 (.value val.1) else r.1
      pure (.full children { hash, gen := cachegen, dirty := false })

end Decode

/-- `decodeNode`; an embedded node is shorter than the node around it. -/
def decodeNode (cachegen : UInt16) : ℕ → Option Hash → Bytes → Decoded Node
  | 0, _, _ => .error .hang
  | fuel + 1, hash, buf =>
    if buf.length = 0 then .error (.err .unexpectedEOF)
    else
      match readKind buf with
      | some (.list, elems, _) =>
        match countValues elems with
        | 2 => decodeShort (decodeNode cachegen fuel none) hash elems cachegen
        | 17 => decodeFull (decodeNode cachegen fuel none) hash elems cachegen
        | c => .error (.err (.elements c))
      | _ => .error (.err .split)

end BjutEth.Trie
