import BjutEth.State.StateDB

namespace BjutEth.State

open Std
open Alien (Address Hash Runtime)

variable {C R S : Type} {H : Hashing C R S} [DecidableEq C] [DecidableEq R] [DecidableEq S]

def StateObject.storeCode (db : Database H) (o : StateObject C R) : Database H × StateObject C R :=
  match o.code with
  | some code => if o.dirtyCode then (db.insertCode code, { o with dirtyCode := false }) else (db, o)
  | none => (db, o)

namespace StateDB

def new (db : Database H) (root : Option S) : Option (StateDB C R) :=
  (db.openTrie root).map (fun trie ↦ { trie })

def reset (db : Database H) (s : StateDB C R) (root : Option S) : Option (StateDB C R) :=
  (db.openTrie root).map (fun trie ↦ { trie, nextRevisionId := s.nextRevisionId })

def updateStateObject (s : StateDB C R) (a : Address) (o : StateObject C R) : Option (StateDB C R) :=
  if o.data.balance < 0 ∨ o.data.contribution < 0 then none
  else some { s with trie := s.trie.insert a o.data }

def deleteStateObject (s : StateDB C R) (a : Address) (o : StateObject C R) : StateDB C R :=
  { s.setStateObject a { o with deleted := true } with trie := s.trie.erase a }

def clearJournalAndRefund (s : StateDB C R) : StateDB C R :=
  { s with journal := {}, validRevisions := [], refund := 0 }

def markDirty (s : StateDB C R) (a : Address) : StateDB C R :=
  { s with stateObjectsDirty := s.stateObjectsDirty.insert a () }

variable (rt : Runtime) (db : Database H) (deleteEmptyObjects : Bool) (s : StateDB C R)

def finaliseAddress (a : Address) : Option (StateDB C R) :=
  match s.stateObjects[a]? with
  | none => some s
  | some o =>
    if o.suicided || deleteEmptyObjects && o.empty H then some ((s.deleteStateObject a o).markDirty a)
    else
      let o := o.updateRoot rt db
      ((s.setStateObject a o).updateStateObject a o).map (·.markDirty a)

def finalise : Option (StateDB C R) :=
  ((rt.rangeOrder s.journal.dirties.keys).foldlM (finaliseAddress rt db deleteEmptyObjects) s).map
    clearJournalAndRefund

def intermediateRoot : Option (S × StateDB C R) :=
  (s.finalise rt db deleteEmptyObjects).map (fun s ↦ (H.stateRoot s.trie, s))

def unmark (a : Address) : StateDB C R :=
  { s with stateObjectsDirty := s.stateObjectsDirty.erase a }

def commitAddress (p : Database H × StateDB C R) (a : Address) : Option (Database H × StateDB C R) :=
  match p.2.stateObjects[a]? with
  | none => none
  | some o =>
    let isDirty := p.2.stateObjectsDirty.contains a
    if o.suicided || isDirty && deleteEmptyObjects && o.empty H then
      some (p.1, (p.2.deleteStateObject a o).unmark a)
    else if isDirty then do
      let (db, o) := o.storeCode p.1
      let (db, o) ← o.commitTrie rt db
      let s ← (p.2.setStateObject a o).updateStateObject a o
      some (db, s.unmark a)
    else some (p.1, p.2.unmark a)

/-- `Commit`: the root, the database that has it, and the state that goes on. -/
def commit : Option (S × Database H × StateDB C R) := do
  let s := (rt.rangeOrder s.journal.dirties.keys).foldl markDirty s
  let (db, s) ← (rt.rangeOrder s.stateObjects.keys).foldlM (commitAddress rt deleteEmptyObjects) (db, s)
  some (H.stateRoot s.trie, db.insertState s.trie, s.clearJournalAndRefund)

def takeOver (s state : StateDB C R) (a : Address) : Option (StateDB C R) :=
  s.stateObjects[a]?.map (fun o ↦ (state.setStateObject a o.deepCopy).markDirty a)

/-- `Copy`: the objects of the journal as far as they are live, then those of the dirty
set, where a mark without a live object makes it panic. -/
def copy (rt : Runtime) (s : StateDB C R) : Option (StateDB C R) :=
  let state : StateDB C R :=
    { trie := s.trie
      refund := s.refund
      logs := s.logs
      logSize := s.logSize
      preimages := s.preimages }
  let state := (rt.rangeOrder s.journal.dirties.keys).foldl (fun state a ↦ (s.takeOver state a).getD state) state
  (rt.rangeOrder s.stateObjectsDirty.keys).foldlM
    (fun state a ↦ if state.stateObjects.contains a then some state else s.takeOver state a) state

end StateDB

end BjutEth.State
