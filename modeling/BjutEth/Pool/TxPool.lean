import BjutEth.Core.IntrinsicGas
import BjutEth.Lib.Heap
import BjutEth.Pool.Lists

namespace BjutEth.Pool

open Std
open Alien (Address Hash Runtime)

abbrev TxLookup := GoMap Hash Transaction

/-! ### `txPricedList` -/

/-- `priceHeap.Less`: cheaper first, and among equal prices the higher nonce. -/
def cheaper (a b : Transaction) : Bool :=
  if a.gasPrice < b.gasPrice then true
  else if b.gasPrice < a.gasPrice then false
  else b.nonce < a.nonce

structure TxPricedList where
  items : Array Transaction := #[]
  stales : ℤ := 0
  deriving DecidableEq

namespace TxPricedList

def put (l : TxPricedList) (tx : Transaction) : TxPricedList :=
  { l with items := Heap.push cheaper l.items tx }

/-- `Removed`: counts a dropped transaction, and builds the heap anew from all
transactions once more than a quarter of it is stale. -/
def removed (rt : Runtime) (all : TxLookup) (l : TxPricedList) : TxPricedList :=
  let stales := l.stales + 1
  if stales ≤ (l.items.size / 4 : ℕ) then { l with stales }
  else { items := Heap.init cheaper (rt.rangeOrder (all.toList.map (·.2))).toArray, stales := 0 }

variable (all : TxLookup) (isLocal : Transaction → Bool)

def capLoop (threshold : ℤ) :
    ℕ → TxPricedList → TxPricedList × List Transaction × List Transaction
  | 0, l => (l, [], [])
  | fuel + 1, l =>
    match Heap.pop cheaper l.items with
    | none => (l, [], [])
    | some (tx, items) =>
      if all[tx.hash]?.isNone then capLoop threshold fuel { items, stales := l.stales - 1 }
      else if threshold ≤ tx.gasPrice then ({ l with items }, [], [tx])
      else
        let (l, drop, save) := capLoop threshold fuel { l with items }
        if isLocal tx then (l, drop, tx :: save) else (l, tx :: drop, save)

def cap (threshold : ℤ) (l : TxPricedList) : List Transaction × TxPricedList :=
  let (l, drop, save) := capLoop all isLocal threshold l.items.size l
  (drop, save.foldl put l)

def dropStale : ℕ → TxPricedList → TxPricedList
  | 0, l => l
  | fuel + 1, l =>
    match l.items[0]? with
    | none => l
    | some head =>
      if all[head.hash]?.isNone then
        match Heap.pop cheaper l.items with
        | none => l
        | some (_, items) => dropStale fuel { items, stales := l.stales - 1 }
      else l

def underpriced (tx : Transaction) (l : TxPricedList) : Bool × TxPricedList :=
  if isLocal tx then (false, l)
  else
    let l := dropStale all l.items.size l
    match l.items[0]? with
    | none => (false, l)
    | some cheapest => (decide (tx.gasPrice ≤ cheapest.gasPrice), l)

def discardLoop :
    ℕ → ℤ → TxPricedList → TxPricedList × List Transaction × List Transaction
  | 0, _, l => (l, [], [])
  | fuel + 1, count, l =>
    if count ≤ 0 then (l, [], [])
    else
      match Heap.pop cheaper l.items with
      | none => (l, [], [])
      | some (tx, items) =>
        if all[tx.hash]?.isNone then discardLoop fuel count { items, stales := l.stales - 1 }
        else if isLocal tx then
          let (l, drop, save) := discardLoop fuel count { l with items }
          (l, drop, tx :: save)
        else
          let (l, drop, save) := discardLoop fuel (count - 1) { l with items }
          (l, tx :: drop, save)

def discard (count : ℤ) (l : TxPricedList) : List Transaction × TxPricedList :=
  let (l, drop, save) := discardLoop all isLocal l.items.size count l
  (drop, save.foldl put l)

end TxPricedList

/-! ### `TxPool` -/

structure TxPoolConfig where
  noLocals : Bool := false
  priceLimit : UInt64 := 1
  priceBump : UInt64 := 10
  accountSlots : UInt64 := 16
  globalSlots : UInt64 := 4096
  accountQueue : UInt64 := 64
  globalQueue : UInt64 := 1024
  lifetime : ℤ := 3 * 60 * 60 * 1000000000
  deriving DecidableEq

def TxPoolConfig.sanitize (config : TxPoolConfig) : TxPoolConfig :=
  { config with
    priceLimit := if config.priceLimit < 1 then 1 else config.priceLimit
    priceBump := if config.priceBump < 1 then 10 else config.priceBump }

structure AccountState where
  nonce : Address → UInt64
  balance : Address → ℤ

inductive TxError
  | known | oversizedData | negativeValue | gasLimit | invalidSender | underpriced | nonceTooLow
  | insufficientFunds | outOfGas | intrinsicGas | replaceUnderpriced
  deriving DecidableEq

/-- The pool. `pendingNonces` holds the accounts that `pendingState` manages. -/
structure TxPool where
  config : TxPoolConfig
  gasPrice : ℤ
  homestead : Bool := false
  currentState : AccountState
  pendingNonces : GoMap Address UInt64 := ∅
  currentMaxGas : UInt64
  locals : GoMap Address Unit := ∅
  pending : GoMap Address TxList := ∅
  queue : GoMap Address TxList := ∅
  beats : GoMap Address ℤ := ∅
  all : TxLookup := ∅
  priced : TxPricedList := {}

namespace TxPool

variable (rt : Runtime) (now : ℤ) (p : TxPool)

def pendingNonce (a : Address) : UInt64 := p.pendingNonces[a]?.getD (p.currentState.nonce a)

def setPendingNonce (a : Address) (nonce : UInt64) : TxPool :=
  { p with pendingNonces := p.pendingNonces.insert a nonce }

def lowerPendingNonce (a : Address) (nonce : UInt64) : TxPool :=
  if nonce < p.pendingNonce a then p.setPendingNonce a nonce else p

def isLocal (tx : Transaction) : Bool := tx.sender.any p.locals.contains

def senderOf (tx : Transaction) : Address := tx.sender.getD 0

def forget (tx : Transaction) : TxPool :=
  { p with all := p.all.erase tx.hash, priced := p.priced.removed rt (p.all.erase tx.hash) }

def forgetAll (txs : List Transaction) : TxPool := txs.foldl (forget rt) p

def enlist (tx : Transaction) : TxPool :=
  { p with all := p.all.insert tx.hash tx, priced := p.priced.put tx }

def setQueue (addr : Address) (list : TxList) : TxPool :=
  { p with queue := p.queue.insert addr list }

def setPending (addr : Address) (list : TxList) : TxPool :=
  { p with pending := p.pending.insert addr list }

def eraseQueue (addr : Address) : TxPool := { p with queue := p.queue.erase addr }

def erasePending (addr : Address) : TxPool :=
  { p with pending := p.pending.erase addr, beats := p.beats.erase addr }

def validateTx (tx : Transaction) (isLocal : Bool) : Option TxError :=
  if 32 * 1024 < tx.size then some .oversizedData
  else if tx.value < 0 then some .negativeValue
  else if p.currentMaxGas < tx.gas then some .gasLimit
  else
    match tx.sender with
    | none => some .invalidSender
    | some a =>
      if !(isLocal || p.locals.contains a) && decide (tx.gasPrice < p.gasPrice) then some .underpriced
      else if tx.nonce < p.currentState.nonce a then some .nonceTooLow
      else if p.currentState.balance a < tx.cost then some .insufficientFunds
      else
        match Core.intrinsicGas tx.data tx.recipient.isNone p.homestead with
        | none => some .outOfGas
        | some intrGas => if tx.gas < intrGas then some .intrinsicGas else none

def enqueueTx (tx : Transaction) : Except TxError Bool × TxPool :=
  let (inserted, old, list) := (p.queue[senderOf tx]?.getD { strict := false }).add tx p.config.priceBump
  let p := p.setQueue (senderOf tx) list
  if !inserted then (.error .replaceUnderpriced, p)
  else
    let p := old.elim p (p.forget rt)
    let p := if p.all[tx.hash]?.isNone then p.enlist tx else p
    (.ok old.isSome, p)

def enqueueAll (txs : List Transaction) : TxPool :=
  txs.foldl (fun p tx ↦ (p.enqueueTx rt tx).2) p

def promoteTx (addr : Address) (p : TxPool) (tx : Transaction) : TxPool :=
  let (inserted, old, list) := (p.pending[addr]?.getD { strict := true }).add tx p.config.priceBump
  let p := p.setPending addr list
  if !inserted then p.forget rt tx
  else
    let p := old.elim p (p.forget rt)
    let p := if p.all[tx.hash]?.isNone then p.enlist tx else p
    { p with beats := p.beats.insert addr now }.setPendingNonce addr (tx.nonce + 1)

/-- The part of `removeTx` that takes a transaction out of the index. The caller that took
it off the price heap itself says so. -/
def unindex (tx : Transaction) (outofbound : Bool) : TxPool :=
  if outofbound then p.forget rt tx else { p with all := p.all.erase tx.hash }

def removeQueued (tx : Transaction) : TxPool :=
  match p.queue[senderOf tx]? with
  | none => p
  | some future =>
    let list := (future.remove tx).2.2
    let p := p.setQueue (senderOf tx) list
    if list.isEmpty then p.eraseQueue (senderOf tx) else p

def unlist (tx : Transaction) : TxPool :=
  match p.pending[senderOf tx]? with
  | none => p.removeQueued tx
  | some pending =>
    let (removed, invalids, list) := pending.remove tx
    if !removed then p.removeQueued tx
    else
      let p := p.setPending (senderOf tx) list
      let p := if list.isEmpty then p.erasePending (senderOf tx) else p
      (p.enqueueAll rt (rt.rangeOrder invalids)).lowerPendingNonce (senderOf tx) tx.nonce

def removeTx (hash : Hash) (outofbound : Bool) : TxPool :=
  match p.all[hash]? with
  | none => p
  | some tx => (p.unindex rt tx outofbound).unlist rt tx

def removeAll (txs : List Transaction) (outofbound : Bool) : TxPool :=
  txs.foldl (fun p tx ↦ p.removeTx rt tx.hash outofbound) p

def makeRoom : TxPool :=
  let slots := p.config.globalSlots + p.config.globalQueue
  let (drop, priced) := p.priced.discard p.all p.isLocal ((p.all.size : ℤ) - (slots - 1).toInt64.toInt)
  { p with priced }.removeAll rt drop false

def enqueueNew (tx : Transaction) (isLocal : Bool) : Except TxError Bool × TxPool :=
  match p.enqueueTx rt tx with
  | (.error e, p) => (.error e, p)
  | (.ok replace, p) =>
    (.ok replace, if isLocal then { p with locals := p.locals.insert (senderOf tx) () } else p)

def insertTx (tx : Transaction) (isLocal : Bool) : Except TxError Bool × TxPool :=
  match p.pending[senderOf tx]? with
  | none => p.enqueueNew rt tx isLocal
  | some list =>
    if !list.overlaps tx then p.enqueueNew rt tx isLocal
    else
      let (inserted, old, list) := list.add tx p.config.priceBump
      if !inserted then (.error .replaceUnderpriced, p)
      else
        let p := p.setPending (senderOf tx) list
        let p := old.elim p (p.forget rt)
        (.ok old.isSome, p.enlist tx)

def add (tx : Transaction) (isLocal : Bool) : Except TxError Bool × TxPool :=
  if p.all[tx.hash]?.isSome then (.error .known, p)
  else
    match p.validateTx tx isLocal with
    | some e => (.error e, p)
    | none =>
      if p.config.globalSlots + p.config.globalQueue ≤ UInt64.ofNat p.all.size then
        if isLocal then (p.makeRoom rt).insertTx rt tx isLocal
        else
          let (underpriced, priced) := p.priced.underpriced p.all p.isLocal tx
          let p := { p with priced }
          if underpriced then (.error .underpriced, p) else (p.makeRoom rt).insertTx rt tx isLocal
      else p.insertTx rt tx isLocal

/-! ### `promoteExecutables` -/

def capQueue (addr : Address) (list : TxList) : Option (List Transaction × TxList) :=
  if p.locals.contains addr then some ([], list) else list.cap p.config.accountQueue.toInt64.toInt

def promoteAccount (addr : Address) : Option TxPool :=
  match p.queue[addr]? with
  | none => some p
  | some list => do
    let (olds, list) := list.forward (p.currentState.nonce addr)
    let p := (p.setQueue addr list).forgetAll rt olds
    let (drops, _, list) := list.filter (p.currentState.balance addr) p.currentMaxGas
    let p := (p.setQueue addr list).forgetAll rt (rt.rangeOrder drops)
    let (ready, list) := list.ready (p.pendingNonce addr)
    let p := ready.foldl (promoteTx rt now addr) (p.setQueue addr list)
    let (caps, list) ← p.capQueue addr list
    let p := (p.setQueue addr list).forgetAll rt caps
    some (if list.isEmpty then p.eraseQueue addr else p)

def count (lists : GoMap Address TxList) : UInt64 := UInt64.ofNat (lists.toList.map (·.2.len)).sum

def dropLast (addr : Address) : Option TxPool :=
  match p.pending[addr]? with
  | none => none
  | some list => do
    let (drops, list) ← list.cap ((list.len : ℤ) - 1)
    some (drops.foldl (fun p tx ↦ (p.forget rt tx).lowerPendingNonce addr tx.nonce) (p.setPending addr list))

def dropRound (offenders : List Address) (s : UInt64 × TxPool) : Option (UInt64 × TxPool) :=
  offenders.foldlM (fun s addr ↦ (s.2.dropLast rt addr).map (fun p ↦ (s.1 - 1, p))) s

/-- Rounds until the pool is small enough or the watched account is down to the limit. -/
def dropRounds (rt : Runtime) (offenders : List Address) (watched : Address) (limit : ℕ) :
    ℕ → UInt64 × TxPool → Option (UInt64 × TxPool)
  | 0, s => some s
  | fuel + 1, s =>
    match s.2.pending[watched]? with
    | none => none
    | some list =>
      if s.2.config.globalSlots < s.1 ∧ limit < list.len then
        (dropRound rt offenders s).bind (dropRounds rt offenders watched limit fuel)
      else some s

/-- The loop over the spammers, with the offenders so far, the newest first. -/
def equalize (rt : Runtime) : List Address → List Address → UInt64 × TxPool →
    Option (List Address × UInt64 × TxPool)
  | [], offenders, s => some (offenders, s)
  | addr :: spammers, offenders, s =>
    if ¬ s.2.config.globalSlots < s.1 then some (offenders, s)
    else
      match offenders with
      | [] => equalize rt spammers [addr] s
      | last :: _ =>
        match s.2.pending[addr]?, s.2.pending[last]? with
        | some list, some watched =>
          (dropRounds rt offenders.reverse last list.len watched.len s).bind
            (equalize rt spammers (addr :: offenders))
        | _, _ => none

def spammers : List Address :=
  let lists := (rt.rangeOrder p.pending.toList).filter
    (fun e ↦ !p.locals.contains e.1 && decide (p.config.accountSlots < UInt64.ofNat e.2.len))
  (rt.sort (fun e e' ↦ decide (e'.2.len < e.2.len)) lists).map (·.1)

def truncatePending : Option TxPool :=
  let pending := count p.pending
  if pending ≤ p.config.globalSlots then some p
  else do
    let (offenders, s) ← equalize rt (p.spammers rt) [] (pending, p)
    match offenders with
    | [] => some s.2
    | last :: _ =>
      match s.2.pending[last]? with
      | none => none
      | some list =>
        (dropRounds rt offenders.reverse last s.2.config.accountSlots.toNat list.len s).map (·.2)

def dropQueued (rt : Runtime) : List Address → UInt64 → TxPool → Option TxPool
  | [], _, p => some p
  | addr :: addresses, drop, p =>
    if drop = 0 then some p
    else
      match p.queue[addr]? with
      | none => none
      | some list =>
        if UInt64.ofNat list.len ≤ drop then
          dropQueued rt addresses (drop - UInt64.ofNat list.len) (p.removeAll rt list.flatten true)
        else some (p.removeAll rt (list.flatten.reverse.take drop.toNat) true)

/-- The part of `promoteExecutables` that keeps the queue within its limit: the accounts
with the latest heartbeat come first. -/
def truncateQueue : Option TxPool :=
  let queued := count p.queue
  if queued ≤ p.config.globalQueue then some p
  else
    let addresses := (rt.rangeOrder p.queue.keys).filter (fun a ↦ !p.locals.contains a)
    let sorted := rt.sort (fun a b ↦ decide (p.beats[a]?.getD 0 < p.beats[b]?.getD 0)) addresses
    dropQueued rt sorted.reverse (queued - p.config.globalQueue) p

def promoteExecutables (accounts : Option (List Address)) : Option TxPool := do
  let p ← (accounts.getD (rt.rangeOrder p.queue.keys)).foldlM (promoteAccount rt now) p
  let p ← p.truncatePending rt
  p.truncateQueue rt

def addTx (tx : Transaction) (isLocal : Bool) : Option TxPool :=
  match p.add rt tx isLocal with
  | (.error _, p) => some p
  | (.ok true, p) => some p
  | (.ok false, p) => p.promoteExecutables rt now (some [senderOf tx])

def addLoop (isLocal : Bool) (s : GoMap Address Unit × TxPool) (tx : Transaction) :
    GoMap Address Unit × TxPool :=
  match s.2.add rt tx isLocal with
  | (.ok false, p) => (s.1.insert (senderOf tx) (), p)
  | (_, p) => (s.1, p)

def addTxs (txs : List Transaction) (isLocal : Bool) : Option TxPool :=
  let (dirty, p) := txs.foldl (addLoop rt isLocal) (∅, p)
  if dirty.isEmpty then some p else p.promoteExecutables rt now (some (rt.rangeOrder dirty.keys))

/-! ### `demoteUnexecutables` -/

def capGapped (nonce : UInt64) (list : TxList) : Option (List Transaction × TxList) :=
  if !list.isEmpty && (list.txs.get nonce).isNone then list.cap 0 else some ([], list)

def demoteAccount (addr : Address) : Option TxPool :=
  match p.pending[addr]? with
  | none => some p
  | some list => do
    let nonce := p.currentState.nonce addr
    let (olds, list) := list.forward nonce
    let p := (p.setPending addr list).forgetAll rt olds
    let (drops, invalids, list) := list.filter (p.currentState.balance addr) p.currentMaxGas
    let p := (p.setPending addr list).forgetAll rt (rt.rangeOrder drops)
    let p := p.enqueueAll rt (rt.rangeOrder invalids)
    let (gapped, list) ← capGapped nonce list
    let p := (p.setPending addr list).enqueueAll rt gapped
    some (if list.isEmpty then p.erasePending addr else p)

def demoteUnexecutables : Option TxPool :=
  (rt.rangeOrder p.pending.keys).foldlM (demoteAccount rt) p

/-! ### `reset` -/

def updateNonce (addr : Address) : Option TxPool :=
  match p.pending[addr]? with
  | none => some p
  | some list => list.flatten.getLast?.map (fun tx ↦ p.setPendingNonce addr (tx.nonce + 1))

/-- The pool as `reset` points it to the state of a new head. -/
def pointAt (state : AccountState) (gasLimit : UInt64) : TxPool :=
  { p with currentState := state, pendingNonces := ∅, currentMaxGas := gasLimit }

/-- `reset` from where it has found the transactions to inject again and the state. -/
def resetTo (state : AccountState) (gasLimit : UInt64)
    (reinject : List Transaction) : Option TxPool := do
  let p ← (p.pointAt state gasLimit).addTxs rt now reinject false
  let p ← p.demoteUnexecutables rt
  let p ← (rt.rangeOrder p.pending.keys).foldlM updateNonce p
  p.promoteExecutables rt now none

end TxPool

structure Block where
  hash : Hash
  parentHash : Hash
  number : UInt64
  root : Hash
  gasLimit : UInt64
  transactions : List Transaction

structure Chain where
  getBlock : Hash → UInt64 → Option Block
  getBlock_number : ∀ h n b, getBlock h n = some b → b.number = n
  stateAt : Hash → Option AccountState
  currentBlock : Block

namespace Chain

def parent (chain : Chain) (b : Block) : Option Block := chain.getBlock b.parentHash (b.number - 1)

/-- The two branches are walked back to a common block: first the longer one, then both.
Gives the transactions of both branches, or nothing if one of them is unrooted. -/
def walk (chain : Chain) : ℕ → Block → Block → Option (List Transaction × List Transaction)
  | 0, _, _ => none
  | fuel + 1, rem, add =>
    if add.number < rem.number then do
      let (discarded, included) ← chain.walk fuel (← chain.parent rem) add
      some (rem.transactions ++ discarded, included)
    else if rem.number < add.number then do
      let (discarded, included) ← chain.walk fuel rem (← chain.parent add)
      some (discarded, add.transactions ++ included)
    else if rem.hash = add.hash then some ([], [])
    else do
      let (discarded, included) ← chain.walk fuel (← chain.parent rem) (← chain.parent add)
      some (rem.transactions ++ discarded, add.transactions ++ included)

def txDifference (a b : List Transaction) : List Transaction :=
  a.filter (fun tx ↦ !b.any (fun tx' ↦ tx'.hash = tx.hash))

def depth (oldNum newNum : UInt64) : ℕ := (oldNum.toNat - newNum.toNat) + (newNum.toNat - oldNum.toNat)

/-- The transactions that `reset` injects again. The outer option is the panic on a head
that the chain does not know, the inner one the return on an unrooted branch. -/
def reinjected (chain : Chain) (oldHead : Option Block) (newHead : Block) :
    Option (Option (List Transaction)) :=
  match oldHead with
  | none => some (some [])
  | some oldHead =>
    if oldHead.hash = newHead.parentHash ∨ 64 < depth oldHead.number newHead.number then some (some [])
    else
      match chain.getBlock oldHead.hash oldHead.number, chain.getBlock newHead.hash newHead.number with
      | some rem, some add =>
        some ((chain.walk (rem.number.toNat + add.number.toNat + 1) rem add).map
          (fun (discarded, included) ↦ txDifference discarded included))
      | _, _ => none

end Chain

namespace TxPool

variable (rt : Runtime) (now : ℤ) (p : TxPool)

def reset (chain : Chain) (oldHead : Option Block) (newHead : Block) : Option TxPool := do
  match ← chain.reinjected oldHead newHead with
  | none => some p
  | some reinject =>
    match chain.stateAt newHead.root with
    | none => some p
    | some state => p.resetTo rt now state newHead.gasLimit reinject

def setGasPrice (price : ℤ) : TxPool :=
  let (drop, priced) := p.priced.cap p.all p.isLocal price
  { p with gasPrice := price, priced }.removeAll rt drop false

/-- `time.Since`, which is cut off at the longest duration. -/
def since (now t : ℤ) : ℤ := min (now - t) (2 ^ 63 - 1)

def evictAccount (addr : Address) : TxPool :=
  match p.queue[addr]? with
  | none => p
  | some list =>
    if !p.locals.contains addr && decide (p.config.lifetime < since now (p.beats[addr]?.getD 0)) then
      p.removeAll rt list.flatten true
    else p

def evict : TxPool :=
  (rt.rangeOrder p.queue.keys).foldl (evictAccount rt now) p

def initial (config : TxPoolConfig) : TxPool where
  config := config.sanitize
  gasPrice := config.sanitize.priceLimit.toNat
  currentState := ⟨fun _ ↦ 0, fun _ ↦ 0⟩
  currentMaxGas := 0

def new (config : TxPoolConfig) (chain : Chain) : Option TxPool :=
  (initial config).reset rt now chain none chain.currentBlock

end TxPool

inductive Op
  | addLocal (tx : Transaction)
  | addRemote (tx : Transaction)
  | addLocals (txs : List Transaction)
  | addRemotes (txs : List Transaction)
  | homestead
  | reset (chain : Chain) (oldHead : Option Block) (newHead : Block)
  | setGasPrice (price : ℤ)
  | evict

def TxPool.run (rt : Runtime) (now : ℤ) (p : TxPool) : Op → Option TxPool
  | .addLocal tx => p.addTx rt now tx !p.config.noLocals
  | .addRemote tx => p.addTx rt now tx false
  | .addLocals txs => p.addTxs rt now txs !p.config.noLocals
  | .addRemotes txs => p.addTxs rt now txs false
  | .homestead => some { p with homestead := true }
  | .reset chain oldHead newHead => p.reset rt now chain oldHead newHead
  | .setGasPrice price => some (p.setGasPrice rt price)
  | .evict => some (p.evict rt now)

end BjutEth.Pool
