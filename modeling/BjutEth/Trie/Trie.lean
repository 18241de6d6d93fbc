import BjutEth.Trie.Node

namespace BjutEth

namespace Trie

/-- What `Node` of the memory database reads: the cached nodes and the disk below them. -/
structure Database where
  nodes : Hash → Option Bytes
  diskdb : Hash → Option Bytes

namespace Database

def node (db : Database) (hash : Hash) : Option Bytes := (db.nodes hash).or (db.diskdb hash)

def insert (db : Database) (hash : Hash) (blob : Bytes) : Database :=
  if (db.nodes hash).isSome then db
  else { db with nodes := Function.update db.nodes hash (some blob) }

end Database

structure MissingNode where
  nodeHash : Hash
  path : List Nibble
  deriving DecidableEq

abbrev Go (α : Type) := Outcome MissingNode α

namespace Node

variable (db : Database) (cachegen : UInt16)

/-- `resolveHash`; a stored node that cannot be decoded is a panic. -/
def resolveHash (hash : Hash) (path : List Nibble) : Go Node :=
  match db.node hash with
  | none => .error (.err { nodeHash := hash, path })
  | some enc =>
    match decodeNode cachegen (enc.length + 1) (some hash) enc with
    | .ok n => .ok n
    | .error _ => .error .panic

def resolve (n : Node) (path : List Nibble) : Go Node :=
  match n with
  | .hash h => resolveHash db cachegen h path
  | n => .ok n

def newFlag : NodeFlag where
  hash := none
  gen := cachegen
  dirty := true

def touch (flags : NodeFlag) : NodeFlag := { flags with gen := cachegen }

/-- `tryGet`: the value, the node with what was loaded, and whether anything was. The key is
given as its part up to the position and the rest. -/
def tryGet : ℕ → Node → (path key : List Nibble) → Go (Option Bytes × Node × Bool)
  | 0, _, _, _ => .error .hang
  | fuel + 1, origNode, path, key =>
    match origNode with
    | .nil => .ok (none, .nil, false)
    | .value v => .ok (some v, .value v, false)
    | .short nkey val flags =>
      if nkey <+: key then
        tryGet fuel val (path ++ nkey) (key.drop nkey.length) >>= fun r ↦
          if r.2.2 then .ok (r.1, .short nkey r.2.1 (touch cachegen flags), true)
          else .ok (r.1, .short nkey val flags, false)
      else .ok (none, .short nkey val flags, false)
    | .full children flags =>
      match key with
      | [] => .error .panic
      | i :: key =>
        tryGet fuel (children i) (path ++ [i]) key >>= fun r ↦
          if r.2.2 then
            .ok (r.1, .full (Function.update children i r.2.1) (touch cachegen flags), true)
          else .ok (r.1, .full children flags, false)
    | .hash h =>
      resolveHash db cachegen h path >>= fun child ↦
        tryGet fuel child path key >>= fun r ↦ .ok (r.1, r.2.1, true)

/-- `insert`: whether the subtrie changed, and the subtrie. The item is a node, since the child
of a short node that is split is inserted again. -/
def insert : ℕ → Node → (path key : List Nibble) → Node → Go (Bool × Node)
  | 0, _, _, _, _ => .error .hang
  | fuel + 1, n, path, key, item =>
    match key with
    | [] =>
      match n, item with
      | .value v, .value w => .ok (v != w, item)
      | .value _, _ => .error .panic
      | _, _ => .ok (true, item)
    | first :: _ =>
      match n with
      | .short nkey val flags =>
        let matchlen := prefixLen key nkey
        if matchlen = nkey.length then
          insert fuel val (path ++ key.take matchlen) (key.drop matchlen) item >>= fun r ↦
            if r.1 then .ok (true, .short nkey r.2 (newFlag cachegen))
            else .ok (false, .short nkey val flags)
        else
          match nkey.drop matchlen, key.drop matchlen with
          | b :: nkey', a :: key' =>
            insert fuel .nil (path ++ nkey.take (matchlen + 1)) nkey' val >>= fun old ↦
            insert fuel .nil (path ++ key.take (matchlen + 1)) key' item >>= fun new ↦
              let branch := Node.full
                (Function.update (Function.update (fun _ ↦ .nil) b old.2) a new.2)
                (newFlag cachegen)
              if matchlen = 0 then .ok (true, branch)
              else .ok (true, .short (key.take matchlen) branch (newFlag cachegen))
          | _, _ => .error .panic
      | .full children flags =>
        insert fuel (children first) (path ++ [first]) (key.drop 1) item >>= fun r ↦
          if r.1 then .ok (true, .full (Function.update children first r.2) (newFlag cachegen))
          else .ok (false, .full children flags)
      | .nil => .ok (true, .short key item (newFlag cachegen))
      | .hash h =>
        resolveHash db cachegen h path >>= fun rn ↦
          insert fuel rn path key item >>= fun r ↦
            if r.1 then .ok (true, r.2) else .ok (false, rn)
      | .value _ => .error .panic

def loneChild (children : Nibble → Node) : List Nibble → Option Nibble → Option Nibble
  | [], pos => pos
  | i :: is, pos =>
    if (children i).isNil then loneChild children is pos
    else
      match pos with
      | none => loneChild children is (some i)
      | some _ => none

/-- The end of `delete` at a full node: with one child left it becomes a short node. -/
def reduce (children : Nibble → Node) (path : List Nibble) : Go (Bool × Node) :=
  match loneChild children hexDigits.letters none with
  | none => .ok (true, .full children (newFlag cachegen))
  | some pos =>
    if pos ≠ 16 then
      resolve db cachegen (children pos) path >>= fun cnode ↦
        match cnode with
        | .short ckey cval _ => .ok (true, .short (pos :: ckey) cval (newFlag cachegen))
        | _ => .ok (true, .short [pos] (children pos) (newFlag cachegen))
    else .ok (true, .short [pos] (children pos) (newFlag cachegen))

def mergeNode (key : List Nibble) : Node → Node
  | .short ckey cval _ => .short (key ++ ckey) cval (newFlag cachegen)
  | child => .short key child (newFlag cachegen)

/-- `delete`: whether the subtrie changed, and the subtrie. -/
def delete : ℕ → Node → (path key : List Nibble) → Go (Bool × Node)
  | 0, _, _, _ => .error .hang
  | fuel + 1, n, path, key =>
    match n with
    | .short nkey val flags =>
      let matchlen := prefixLen key nkey
      if matchlen < nkey.length then .ok (false, .short nkey val flags)
      else if matchlen = key.length then .ok (true, .nil)
      else
        delete fuel val (path ++ key.take nkey.length) (key.drop nkey.length) >>= fun r ↦
          if r.1 then .ok (true, mergeNode cachegen nkey r.2) else .ok (false, .short nkey val flags)
    | .full children flags =>
      match key with
      | [] => .error .panic
      | i :: key =>
        delete fuel (children i) (path ++ [i]) key >>= fun r ↦
          if r.1 then reduce db cachegen (Function.update children i r.2) path
          else .ok (false, .full children flags)
    | .value _ => .ok (true, .nil)
    | .nil => .ok (false, .nil)
    | .hash h =>
      resolveHash db cachegen h path >>= fun rn ↦
        delete fuel rn path key >>= fun r ↦ if r.1 then .ok (true, r.2) else .ok (false, rn)

end Node

end Trie

structure Trie where
  root : Trie.Node
  cachegen : UInt16
  cachelimit : UInt16

namespace Trie

variable (db : Database)

/-- The calls that a walk down a hex key takes at most: two for each digit, since a node may have
to be loaded first, and two at its end. -/
def calls (key : List Nibble) : ℕ := 2 * key.length + 2

def tryGet (t : Trie) (key : Bytes) : Go (Option Bytes × Trie) :=
  let k := keybytesToHex key
  Node.tryGet db t.cachegen (calls k) t.root [] k >>= fun r ↦
    .ok (r.1, if r.2.2 then { t with root := r.2.1 } else t)

def tryDelete (t : Trie) (key : Bytes) : Go Trie :=
  let k := keybytesToHex key
  Node.delete db t.cachegen (calls k) t.root [] k >>= fun r ↦ .ok { t with root := r.2 }

def tryUpdate (t : Trie) (key value : Bytes) : Go Trie :=
  let k := keybytesToHex key
  if value.length ≠ 0 then
    Node.insert db t.cachegen (calls k) t.root [] k (.value value) >>= fun r ↦
      .ok { t with root := r.2 }
  else t.tryDelete db key

def emptyRoot : Hash := 0x56e81f171bcc55a6ff8345e692c0f86e5b48e01b996cadc001622fb5e363b421

/-- `New`; the zero hash and the hash of an empty trie need no database. -/
def new (db : Database) (root : Hash) : Go Trie :=
  if root ≠ 0 ∧ root ≠ emptyRoot then
    Node.resolveHash db 0 root [] >>= fun n ↦ .ok { root := n, cachegen := 0, cachelimit := 0 }
  else .ok { root := .nil, cachegen := 0, cachelimit := 0 }

end Trie

end BjutEth
