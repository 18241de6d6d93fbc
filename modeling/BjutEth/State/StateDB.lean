import BjutEth.State.Objects

namespace BjutEth.State

open Std
open Alien (Address Hash Runtime)

structure Log where
  address : Address
  topics : List Hash
  data : Bytes
  blockNumber : UInt64
  txHash : Hash := 0
  txIndex : ℕ := 0
  blockHash : Hash := 0
  index : ℕ := 0
  deriving DecidableEq

inductive Change (C R : Type)
  | createObject (account : Address)
  | resetObject (account : Address) (prev : StateObject C R)
  | suicide (account : Address) (prev : Bool) (prevbalance : ℤ)
  | balance (account : Address) (prev : ℤ)
  | contribution (account : Address) (prev : ℤ)
  | nonce (account : Address) (prev : UInt64)
  | storage (account : Address) (key prevalue : Hash)
  | code (account : Address) (prevcode : Option Bytes) (prevhash : C)
  | refund (prev : UInt64)
  | addLog (txhash : Hash)
  | addPreimage (hash : Hash)
  | touch (account : Address)

variable {C R S : Type} {H : Hashing C R S}

/-- `dirtied`: a reset of an existing account marks nothing. -/
def Change.dirtied : Change C R → Option Address
  | .createObject a | .suicide a _ _ | .balance a _ | .contribution a _ | .nonce a _
  | .storage a _ _ | .code a _ _ | .touch a => some a
  | .resetObject _ _ | .refund _ | .addLog _ | .addPreimage _ => none

/-- The entries, newest first, and the number of changes of each account. -/
structure Journal (C R : Type) where
  entries : List (Change C R) := []
  dirties : GoMap Address ℤ := ∅

namespace Journal

def dirty (j : Journal C R) (a : Address) : Journal C R :=
  { j with dirties := j.dirties.insert a (j.dirties.getD a 0 + 1) }

def append (j : Journal C R) (e : Change C R) : Journal C R :=
  let j := { j with entries := e :: j.entries }
  match e.dirtied with
  | some a => j.dirty a
  | none => j

def undirty (j : Journal C R) (e : Change C R) : Journal C R :=
  match e.dirtied with
  | some a =>
    let n := j.dirties.getD a 0 - 1
    { j with dirties := if n = 0 then j.dirties.erase a else j.dirties.insert a n }
  | none => j

end Journal

structure Revision where
  id : ℕ
  journalIndex : ℕ
  deriving DecidableEq

structure StateDB (C R : Type) where
  trie : Accounts C R
  stateObjects : GoMap Address (StateObject C R) := ∅
  stateObjectsDirty : GoMap Address Unit := ∅
  refund : UInt64 := 0
  thash : Hash := 0
  bhash : Hash := 0
  txIndex : ℕ := 0
  logs : GoMap Hash (List Log) := ∅
  logSize : ℕ := 0
  preimages : GoMap Hash Bytes := ∅
  journal : Journal C R := {}
  validRevisions : List Revision := []
  nextRevisionId : ℕ := 0

def ripemd : Address := 3

namespace StateDB

def setStateObject (s : StateDB C R) (a : Address) (o : StateObject C R) : StateDB C R :=
  { s with stateObjects := s.stateObjects.insert a o }

def append (s : StateDB C R) (e : Change C R) : StateDB C R := { s with journal := s.journal.append e }

def getStateObject (s : StateDB C R) (a : Address) : Option (StateObject C R) × StateDB C R :=
  match s.stateObjects[a]? with
  | some o => if o.deleted then (none, s) else (some o, s)
  | none =>
    match s.trie[a]? with
    | none => (none, s)
    | some data => (some (newObject data), s.setStateObject a (newObject data))

def createObject (H : Hashing C R S) (s : StateDB C R) (a : Address) :
    Option (StateObject C R) × StateDB C R :=
  match s.getStateObject a with
  | (none, s) => (none, (s.append (.createObject a)).setStateObject a (newObject (.new H)))
  | (some prev, s) => (some prev, (s.append (.resetObject a prev)).setStateObject a (newObject (.new H)))

def getOrNewStateObject (H : Hashing C R S) (s : StateDB C R) (a : Address) :
    StateObject C R × StateDB C R :=
  match s.getStateObject a with
  | (some o, s) => (o, s)
  | (none, s) => (newObject (.new H), (s.createObject H a).2)

/-! ### Getters -/

section

variable (s : StateDB C R) (a : Address)

def exist : Bool := (s.getStateObject a).1.isSome

def getBalance : ℤ :=
  ((s.getStateObject a).1.map (·.data.balance)).getD 0

def getContribution : ℤ :=
  ((s.getStateObject a).1.map (·.data.contribution)).getD 0

def getNonce : UInt64 :=
  ((s.getStateObject a).1.map (·.data.nonce)).getD 0

def hasSuicided : Bool :=
  ((s.getStateObject a).1.map (·.suicided)).getD false

end

variable [DecidableEq C] [DecidableEq R]

def empty (H : Hashing C R S) (s : StateDB C R) (a : Address) : Bool :=
  ((s.getStateObject a).1.map (·.empty H)).getD true

def getCode (db : Database H) (s : StateDB C R) (a : Address) : Bytes :=
  ((s.getStateObject a).1.bind (fun o ↦ (o.getCode db).1)).getD []

def getState (db : Database H) (s : StateDB C R) (a : Address) (key : Hash) : Hash :=
  ((s.getStateObject a).1.map (fun o ↦ (o.getState db key).1)).getD 0

def getLogs (s : StateDB C R) (hash : Hash) : List Log := s.logs[hash]?.getD []

/-! ### Setters -/

section

variable (H : Hashing C R S) (s : StateDB C R) (a : Address)

def touch : StateDB C R :=
  let s := s.append (.touch a)
  if a = ripemd then { s with journal := s.journal.dirty a } else s

/-- The object's own `SetBalance`, `SetContribution`, …: an entry with what is
overwritten, and the object with the new value. -/
def write (e : Change C R) (o : StateObject C R) : StateDB C R :=
  (s.append e).setStateObject a o

def setBalance (amount : ℤ) : StateDB C R :=
  let (o, s) := s.getOrNewStateObject H a
  s.write a (.balance a o.data.balance) (o.setBalance amount)

def addBalance (amount : ℤ) : StateDB C R :=
  let (o, s) := s.getOrNewStateObject H a
  if amount = 0 then
    if o.empty H then s.touch a else s
  else s.write a (.balance a o.data.balance) (o.setBalance (o.data.balance + amount))

def subBalance (amount : ℤ) : StateDB C R :=
  let (o, s) := s.getOrNewStateObject H a
  if amount = 0 then s
  else s.write a (.balance a o.data.balance) (o.setBalance (o.data.balance - amount))

def setContribution (amount : ℤ) : StateDB C R :=
  let (o, s) := s.getOrNewStateObject H a
  s.write a (.contribution a o.data.contribution) (o.setContribution amount)

def addContribution (amount : ℤ) : StateDB C R :=
  let (o, s) := s.getOrNewStateObject H a
  if amount = 0 then
    if o.empty H then s.touch a else s
  else s.write a (.contribution a o.data.contribution) (o.setContribution (o.data.contribution + amount))

def subContribution (amount : ℤ) : StateDB C R :=
  let (o, s) := s.getOrNewStateObject H a
  if amount = 0 then s
  else s.write a (.contribution a o.data.contribution) (o.setContribution (o.data.contribution - amount))

def setNonce (nonce : UInt64) : StateDB C R :=
  let (o, s) := s.getOrNewStateObject H a
  s.write a (.nonce a o.data.nonce) (o.setNonce nonce)

end

def setCode (db : Database H) (s : StateDB C R) (a : Address) (code : Option Bytes) : StateDB C R :=
  let (o, s) := s.getOrNewStateObject H a
  let (prevcode, o) := o.getCode db
  s.write a (.code a prevcode o.data.codeHash) (o.setCode (H.code (code.getD [])) code)

def setState (db : Database H) (s : StateDB C R) (a : Address) (key value : Hash) : StateDB C R :=
  let (o, s) := s.getOrNewStateObject H a
  let (prevalue, o) := o.getState db key
  s.write a (.storage a key prevalue) (o.setState key value)

variable (s : StateDB C R)

def suicide (a : Address) : StateDB C R :=
  match s.getStateObject a with
  | (none, s) => s
  | (some o, s) =>
    s.write a (.suicide a o.suicided o.data.balance)
      { o with data := { o.data with balance := 0, contribution := 0 }, suicided := true }

def createAccount (H : Hashing C R S) (s : StateDB C R) (a : Address) : StateDB C R :=
  match s.createObject H a with
  | (none, s) => s
  | (some prev, s) =>
    s.setStateObject a
      (((newObject (.new H)).setBalance prev.data.balance).setContribution prev.data.contribution)

def addRefund (gas : UInt64) : StateDB C R :=
  { s.append (.refund s.refund) with refund := s.refund + gas }

def addLog (log : Log) : StateDB C R :=
  let log := { log with txHash := s.thash, blockHash := s.bhash, txIndex := s.txIndex, index := s.logSize }
  { s.append (.addLog s.thash) with
    logs := s.logs.insert s.thash (s.getLogs s.thash ++ [log])
    logSize := s.logSize + 1 }

def addPreimage (hash : Hash) (preimage : Bytes) : StateDB C R :=
  match s.preimages[hash]? with
  | some _ => s
  | none => { s.append (.addPreimage hash) with preimages := s.preimages.insert hash preimage }

def prepare (thash bhash : Hash) (ti : ℕ) : StateDB C R :=
  { s with thash, bhash, txIndex := ti }

/-! ### Snapshots -/

/-- The object a change is reverted on; without one the revert panics. -/
def modifyObject (a : Address) (f : StateObject C R → StateObject C R) :
    Option (StateDB C R) :=
  match s.getStateObject a with
  | (none, _) => none
  | (some o, s) => some (s.setStateObject a (f o))

def dropObject (a : Address) : StateDB C R :=
  { s with
    stateObjects := s.stateObjects.erase a
    stateObjectsDirty := s.stateObjectsDirty.erase a }

def undo : Change C R → Option (StateDB C R)
  | .createObject a => some (s.dropObject a)
  | .resetObject a prev => some (s.setStateObject a prev)
  | .suicide a prev prevbalance =>
    match s.getStateObject a with
    | (none, s) => some s
    | (some o, s) => some (s.setStateObject a ({ o with suicided := prev }.setBalance prevbalance))
  | .balance a prev => s.modifyObject a (·.setBalance prev)
  | .contribution a prev => s.modifyObject a (·.setContribution prev)
  | .nonce a prev => s.modifyObject a (·.setNonce prev)
  | .storage a key prevalue => s.modifyObject a (·.setState key prevalue)
  | .code a prevcode prevhash => s.modifyObject a (·.setCode prevhash prevcode)
  | .refund prev => some { s with refund := prev }
  | .addLog txhash =>
    let logs := s.getLogs txhash
    some { s with
      logs := if logs.length = 1 then s.logs.erase txhash else s.logs.insert txhash logs.dropLast
      logSize := s.logSize - 1 }
  | .addPreimage hash => some { s with preimages := s.preimages.erase hash }
  | .touch _ => some s

def undoChange (e : Change C R) : Option (StateDB C R) :=
  (s.undo e).map (fun s ↦ { s with journal := s.journal.undirty e })

def revert (snapshot : ℕ) : Option (StateDB C R) := do
  let entries := s.journal.entries
  let count := entries.length - snapshot
  let s ← (entries.take count).foldlM undoChange s
  some { s with journal := { s.journal with entries := entries.drop count } }

def snapshot : ℕ × StateDB C R :=
  (s.nextRevisionId,
    { s with
      nextRevisionId := s.nextRevisionId + 1
      validRevisions := s.validRevisions ++ [⟨s.nextRevisionId, s.journal.entries.length⟩] })

/-- `RevertToSnapshot`. The revisions are sorted by their ids, so the binary search
finds the first one that is not below the id asked for. -/
def revertToSnapshot (revid : ℕ) : Option (StateDB C R) := do
  let idx := s.validRevisions.findIdx (fun r ↦ revid ≤ r.id)
  let revision ← s.validRevisions[idx]?
  if revision.id ≠ revid then none
  else
    let valid := s.validRevisions.take idx
    let s ← s.revert revision.journalIndex
    some { s with validRevisions := valid }

end StateDB

/-- What can be done with a state between two flushes. The getters are among it
because they load objects, slots and codes. -/
inductive Op
  | setBalance (a : Address) (amount : ℤ)
  | addBalance (a : Address) (amount : ℤ)
  | subBalance (a : Address) (amount : ℤ)
  | setContribution (a : Address) (amount : ℤ)
  | addContribution (a : Address) (amount : ℤ)
  | subContribution (a : Address) (amount : ℤ)
  | setNonce (a : Address) (nonce : UInt64)
  | setCode (a : Address) (code : Option Bytes)
  | setState (a : Address) (key value : Hash)
  | createAccount (a : Address)
  | suicide (a : Address)
  | addRefund (gas : UInt64)
  | addLog (log : Log)
  | addPreimage (hash : Hash) (preimage : Bytes)
  | prepare (thash bhash : Hash) (ti : ℕ)
  | get (a : Address)
  | getCode (a : Address)
  | getState (a : Address) (key : Hash)
  | snapshot
  | revertToSnapshot (revid : ℕ)

namespace StateDB

variable [DecidableEq C] [DecidableEq R]

def loading (s : StateDB C R) (a : Address) (f : StateObject C R → StateObject C R) : StateDB C R :=
  match s.getStateObject a with
  | (none, s) => s
  | (some o, s) => s.setStateObject a (f o)

def run (db : Database H) (s : StateDB C R) : Op → Option (StateDB C R)
  | .setBalance a amount => some (s.setBalance H a amount)
  | .addBalance a amount => some (s.addBalance H a amount)
  | .subBalance a amount => some (s.subBalance H a amount)
  | .setContribution a amount => some (s.setContribution H a amount)
  | .addContribution a amount => some (s.addContribution H a amount)
  | .subContribution a amount => some (s.subContribution H a amount)
  | .setNonce a nonce => some (s.setNonce H a nonce)
  | .setCode a code => some (s.setCode db a code)
  | .setState a key value => some (s.setState db a key value)
  | .createAccount a => some (s.createAccount H a)
  | .suicide a => some (s.suicide a)
  | .addRefund gas => some (s.addRefund gas)
  | .addLog log => some (s.addLog log)
  | .addPreimage hash preimage => some (s.addPreimage hash preimage)
  | .prepare thash bhash ti => some (s.prepare thash bhash ti)
  | .get a => some (s.loading a id)
  | .getCode a => some (s.loading a (fun o ↦ (o.getCode db).2))
  | .getState a key => some (s.loading a (fun o ↦ (o.getState db key).2))
  | .snapshot => some s.snapshot.2
  | .revertToSnapshot revid => s.revertToSnapshot revid

def runAll (db : Database H) (s : StateDB C R) (ops : List Op) : Option (StateDB C R) :=
  ops.foldlM (fun s op ↦ s.run db op) s

end StateDB

end BjutEth.State
