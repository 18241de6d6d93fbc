import BjutEth.Chain.HeaderChain

namespace BjutEth.Chain

open Function

/-- The fields of a block that the chain reads. A transaction stands for its hash; `rest` are
the other fields of the header. -/
structure Block where
  parentHash : Hash
  difficulty : ℕ
  number : ℕ
  txs : List Hash
  rest : Bytes
  deriving DecidableEq

structure TxLookupEntry where
  blockHash : Hash
  blockIndex : ℕ
  index : ℕ
  deriving DecidableEq

/-- `BlockChain` with the tables of the database that inserting a block reads or writes. -/
structure BlockChain where
  blocks : ℕ × Hash → Option Block
  tds : ℕ × Hash → Option ℕ
  canonical : ℕ → Option Hash
  lookups : Hash → Option TxLookupEntry
  genesisBlock : Block
  currentBlock : Block

def triesInMemory : ℕ := 128

def txDifference (a b : List Hash) : List Hash := a.filter (fun tx ↦ tx ∉ b)

def reduceTo (blocks : ℕ × Hash → Option Block) (number : ℕ) :
    ℕ → Option Block → List Block → Go (Option Block × List Block)
  | 0, _, _ => .error .hang
  | _ + 1, none, chain => .ok (none, chain)
  | fuel + 1, some b, chain =>
    if b.number = number then .ok (some b, chain)
    else reduceTo blocks number fuel (blocks (prevNumber b.number, b.parentHash)) (chain ++ [b])

def findCommon (hash : Block → Hash) (blocks : ℕ × Hash → Option Block) :
    ℕ → Block → Block → List Block → List Block → Go (List Block × List Block)
  | 0, _, _, _, _ => .error .hang
  | fuel + 1, oldBlock, newBlock, oldChain, newChain =>
    if hash oldBlock = hash newBlock then .ok (oldChain, newChain)
    else
      match blocks (prevNumber oldBlock.number, oldBlock.parentHash) with
      | none => .error (.err .invalidOldChain)
      | some oldParent =>
        match blocks (prevNumber newBlock.number, newBlock.parentHash) with
        | none => .error (.err .invalidNewChain)
        | some newParent =>
          findCommon hash blocks fuel oldParent newParent (oldChain ++ [oldBlock])
            (newChain ++ [newBlock])

/-- The blocks that `reorg` takes off the chain and those that it puts on, highest first. -/
def reorgChains (hash : Block → Hash) (blocks : ℕ × Hash → Option Block) (fuel : ℕ)
    (oldBlock newBlock : Block) : Go (List Block × List Block) :=
  if newBlock.number < oldBlock.number then do
    let (old, oldChain) ← reduceTo blocks newBlock.number fuel (some oldBlock) []
    match old with
    | none => .error (.err .invalidOldChain)
    | some old => findCommon hash blocks fuel old newBlock oldChain []
  else do
    let (new, newChain) ← reduceTo blocks oldBlock.number fuel (some newBlock) []
    match new with
    | none => .error (.err .invalidNewChain)
    | some new => findCommon hash blocks fuel oldBlock new [] newChain

namespace BlockChain

variable (hash : Block → Hash)

def new (genesis : Block) : BlockChain where
  blocks := update (fun _ ↦ none) (0, hash genesis) (some genesis)
  tds := update (fun _ ↦ none) (0, hash genesis) (some genesis.difficulty)
  canonical := update (fun _ ↦ none) 0 (some (hash genesis))
  lookups := fun _ ↦ none
  genesisBlock := genesis
  currentBlock := genesis

def insert (bc : BlockChain) (block : Block) : BlockChain :=
  { bc with
    canonical := update bc.canonical block.number (some (hash block))
    currentBlock := block }

def writeTxLookupEntries (bc : BlockChain) (block : Block) : BlockChain :=
  { bc with
    lookups := block.txs.zipIdx.foldl
      (fun lookups tx ↦ update lookups tx.1 (some ⟨hash block, block.number, tx.2⟩))
      bc.lookups }

def deleteTxLookupEntries (bc : BlockChain) (txs : List Hash) : BlockChain :=
  { bc with lookups := txs.foldl (fun lookups tx ↦ update lookups tx none) bc.lookups }

def reorg (fuel : ℕ) (bc : BlockChain) (oldBlock newBlock : Block) : Go BlockChain := do
  let (oldChain, newChain) ← reorgChains hash bc.blocks fuel oldBlock newBlock
  let bc := newChain.reverse.foldl
    (fun bc b ↦ (bc.insert hash b).writeTxLookupEntries hash b) bc
  let deletedTxs := oldChain.flatMap Block.txs
  let addedTxs := newChain.reverse.flatMap Block.txs
  return bc.deleteTxLookupEntries (txDifference deletedTxs addedTxs)

def hasHeaderByNumber (bc : BlockChain) (number : ℕ) : Bool :=
  match bc.canonical number with
  | none => false
  | some h => h != 0 && (bc.blocks (number, h)).isSome

/-- `WriteBlockWithState`. `archive` says that no tries are kept in memory, `tie` is the
outcome of `mrand.Float64() < 0.5`. The collection of old tries reads the header of a
canonical number, which panics if there is none. -/
def writeBlockWithState (fuel : ℕ) (archive tie : Bool) (bc : BlockChain) (block : Block) :
    Go (WriteStatus × BlockChain) :=
  match bc.tds (prevNumber block.number, block.parentHash) with
  | none => .error (.err .unknownAncestor)
  | some ptd =>
    let currentBlock := bc.currentBlock
    match bc.tds (currentBlock.number, hash currentBlock) with
    | none => .error .panic
    | some localTd =>
      let externTd := block.difficulty + ptd
      let bc := { bc with
        tds := update bc.tds (block.number, hash block) (some externTd) }
      if archive = false ∧ triesInMemory < block.number ∧
          bc.hasHeaderByNumber (block.number - triesInMemory) = false then .error .panic
      else
        let blocks := update bc.blocks (block.number, hash block) (some block)
        if localTd < externTd ∨ externTd = localTd ∧ (block.number < currentBlock.number ∨
            block.number = currentBlock.number ∧ tie = true) then do
          let bc ← if block.parentHash ≠ hash currentBlock then reorg hash fuel bc currentBlock block
            else pure bc
          let bc := { bc.writeTxLookupEntries hash block with blocks }
          return (.canonStatTy, bc.insert hash block)
        else return (.sideStatTy, { bc with blocks })

end BlockChain

end BjutEth.Chain
