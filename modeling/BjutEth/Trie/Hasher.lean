import BjutEth.Trie.Trie

namespace BjutEth.Trie

open Rlp

/-- A node as it is encoded: keys in compact form, children encoded or hashed. -/
inductive Collapsed
  | value (v : Bytes)
  | hash (h : Hash)
  | short (key : Bytes) (val : Collapsed)
  | full (children : Nibble → Collapsed)

namespace Collapsed

def encode : Collapsed → Bytes
  | value v => frame .string v
  | hash h => frame .string (hashBytes h)
  | short key val => frame .list (frame .string key ++ val.encode)
  | full children => frame .list (hexDigits.letters.flatMap fun i ↦ (children i).encode)

def hash? : Collapsed → Option Hash
  | hash h => some h
  | _ => none

def references : Collapsed → List Hash
  | short _ val => val.hash?.toList
  | full children => childIndices.filterMap fun i ↦ (children i).hash?
  | _ => []

/-- A value that the leaf callback is called with; an empty child is a nil value. -/
def leaf? : Collapsed → Option Bytes
  | value v => if v = [] then none else some v
  | _ => none

def leaves : Collapsed → List Bytes
  | short _ val => val.leaf?.toList
  | full children => childIndices.filterMap fun i ↦ (children i).leaf?
  | _ => []

end Collapsed

structure Stored where
  hash : Hash
  blob : Bytes
  references : List Hash
  leaves : List Bytes

structure Hasher where
  keccak256 : Bytes → Hash
  /-- Whether nodes are written to a database. -/
  commit : Bool
  cachegen : UInt16
  cachelimit : UInt16

namespace Hasher

variable (h : Hasher)

/-- `store`; the hash that the node was cached with is not computed again. -/
def store (n : Collapsed) (cached : Option Hash) (force : Bool) : Collapsed × List Stored :=
  match n with
  | .hash hash => (.hash hash, [])
  | n =>
    let blob := n.encode
    if blob.length < 32 ∧ force = false then (n, [])
    else
      let hash := cached.getD (h.keccak256 blob)
      (.hash hash, if h.commit then [⟨hash, blob, n.references, n.leaves⟩] else [])

def hashedFlag (hashed : Collapsed) (flags : NodeFlag) : NodeFlag where
  hash := hashed.hash?
  gen := flags.gen
  dirty := if h.commit then false else flags.dirty

/-- What a hashed child or node comes to: what is encoded in its place, the node with its
caches, and what was written. -/
abbrev Hashed := Collapsed × Node × List Stored

/-- The shortcut of `hash` for nodes that are cached. -/
def cached (n : Node) : Option Hashed :=
  match n.cache.1 with
  | none => none
  | some hash =>
    if h.commit = false then some (.hash hash, n, [])
    else if n.canUnload h.cachegen h.cachelimit then some (.hash hash, .hash hash, [])
    else if n.cache.2 = false then some (.hash hash, n, [])
    else none

def hashAll (hashed : Nibble → Go Hashed) :
    List Nibble → (Nibble → Collapsed) × (Nibble → Node) × List Stored →
      Go ((Nibble → Collapsed) × (Nibble → Node) × List Stored)
  | [], acc => .ok acc
  | i :: is, acc =>
    hashed i >>= fun r ↦
      hashAll hashed is
        (Function.update acc.1 i r.1, Function.update acc.2.1 i r.2.1, acc.2.2 ++ r.2.2)

/-- The value of a full node, as it is encoded; no other node stands in its place. -/
def valueSlot : Node → Go Collapsed
  | .nil => .ok (.value [])
  | .value v => .ok (.value v)
  | _ => .error .panic

/-- The child of a short node; a value is not hashed. -/
def hashVal (val : Node) (hashed : Go Hashed) : Go Hashed :=
  match val with
  | .value v => .ok (.value v, .value v, [])
  | _ => hashed

/-- A child of a full node; an empty child is encoded as an empty value. -/
def hashChild (child : Node) (hashed : Go Hashed) : Go Hashed :=
  if child.isNil then .ok (.value [], .nil, []) else hashed

/-- `hash`, with the children of the two inner nodes. -/
def hash : Node → Bool → Go Hashed
  | .nil, _ => .error .panic
  | .value v, force => let r := h.store (.value v) none force; .ok (r.1, .value v, r.2)
  | .hash hash, _ => .ok (.hash hash, .hash hash, [])
  | .short key val flags, force =>
    match h.cached (.short key val flags) with
    | some r => .ok r
    | none =>
      hashVal val (hash val false) >>= fun r ↦
        let s := h.store (.short (hexToCompact key) r.1) flags.hash force
        .ok (s.1, .short key r.2.1 (h.hashedFlag s.1 flags), r.2.2 ++ s.2)
  | .full children flags, force =>
    match h.cached (.full children flags) with
    | some r => .ok r
    | none =>
      valueSlot (children 16) >>= fun last ↦
        hashAll (fun i ↦ hashChild (children i) (hash (children i) false)) childIndices
          (fun _ ↦ last, children, []) >>= fun r ↦
            let s := h.store (.full r.1) flags.hash force
            .ok (s.1, .full r.2.1 (h.hashedFlag s.1 flags), r.2.2 ++ s.2)

end Hasher

variable (keccak256 : Bytes → Hash)

def hashRoot (commit : Bool) (t : Trie) : Go Hasher.Hashed :=
  match t.root with
  | .nil => .ok (.hash emptyRoot, .nil, [])
  | root =>
    Hasher.hash { keccak256, commit, cachegen := t.cachegen, cachelimit := t.cachelimit } root true

def hash (t : Trie) : Go (Hash × Trie) :=
  hashRoot keccak256 false t >>= fun r ↦
    match r.1.hash? with
    | some hash => .ok (hash, { t with root := r.2.1 })
    | none => .error .panic

def commit (t : Trie) : Go (Hash × Trie × List Stored) :=
  hashRoot keccak256 true t >>= fun r ↦
    match r.1.hash? with
    | some hash => .ok (hash, { t with root := r.2.1, cachegen := t.cachegen + 1 }, r.2.2)
    | none => .error .panic

def Database.insertAll (db : Database) (stored : List Stored) : Database :=
  stored.foldl (fun db s ↦ db.insert s.hash s.blob) db

end BjutEth.Trie
