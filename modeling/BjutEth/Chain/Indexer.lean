import BjutEth.Chain.HeaderChain

namespace BjutEth.Chain

structure Notice where
  head : ℕ
  reorg : Bool
  deriving DecidableEq

structure IndexerConfig where
  sectionSize : ℕ
  confirmsReq : ℕ
  sectionSize_pos : 0 < sectionSize

/-- `ChainIndexer`: the counters, the section heads of the index database, and whether the
channel `update` holds its one signal. -/
structure ChainIndexer where
  storedSections : ℕ
  knownSections : ℕ
  cascadedHead : ℕ
  heads : ℕ → Option Hash
  update : Bool

namespace ChainIndexer

def sectionHead (c : ChainIndexer) (sec : ℕ) : Hash := (c.heads sec).getD 0

def setSectionHead (c : ChainIndexer) (sec : ℕ) (hash : Hash) : ChainIndexer :=
  { c with heads := Function.update c.heads sec (some hash) }

def removeHeads (sections : ℕ) : ℕ → (ℕ → Option Hash) → ℕ → Option Hash
  | 0, heads => heads
  | stored + 1, heads =>
    if sections < stored + 1 then removeHeads sections stored (Function.update heads stored none)
    else heads

def setValidSections (c : ChainIndexer) (sections : ℕ) : ChainIndexer :=
  { c with heads := removeHeads sections c.storedSections c.heads, storedSections := sections }

def revert (cfg : IndexerConfig) (c : ChainIndexer) (head : ℕ) : ChainIndexer :=
  let changed := head / cfg.sectionSize
  let c := if changed < c.knownSections then { c with knownSections := changed } else c
  let c := if changed < c.storedSections then c.setValidSections changed else c
  let head := changed * cfg.sectionSize
  if head < c.cascadedHead then { c with cascadedHead := head } else c

def extend (cfg : IndexerConfig) (c : ChainIndexer) (head : ℕ) : ChainIndexer :=
  if cfg.confirmsReq ≤ head then
    let sections := (head + 1 - cfg.confirmsReq) / cfg.sectionSize
    if c.knownSections < sections then { c with knownSections := sections, update := true } else c
  else c

def newHead (cfg : IndexerConfig) (c : ChainIndexer) (n : Notice) : ChainIndexer :=
  if n.reorg then c.revert cfg n.head else c.extend cfg n.head

end ChainIndexer

/-- How far `processSection` has come: before `Reset`, about to read block `number`, or returned
(`none` is an error). -/
inductive Progress
  | resetting
  | reading (number : ℕ) (lastHead : Hash)
  | done (newHead : Option Hash)

structure Work where
  sec : ℕ
  oldHead : Hash
  initParent : Hash
  progress : Progress

def ChainIndexer.finish (cfg : IndexerConfig) (c : ChainIndexer) (w : Work)
    (newHead : Option Hash) : ChainIndexer :=
  match newHead with
  | some h =>
    if 0 < w.sec ∧ w.oldHead = c.sectionHead (w.sec - 1) ∨ w.sec = 0 ∧ w.oldHead = w.initParent then
      let c := (c.setSectionHead w.sec h).setValidSections (w.sec + 1)
      { c with cascadedHead := c.storedSections * cfg.sectionSize - 1 }
    else { c with knownSections := c.storedSections }
  | none => { c with knownSections := c.storedSections }

def processHeader (hash : Header → Hash) (canonical : List Header) (number : ℕ)
    (lastHead : Hash) : Progress :=
  match canonical[number]? with
  | none => .done none
  | some header =>
    if header.parentHash ≠ lastHead then .done none else .reading (number + 1) (hash header)

/-- A canonical chain from the genesis header on; no hash of it is the zero hash, which stands
for a missing entry. -/
structure CanonicalChain (hash : Header → Hash) (genesis : Header) where
  headers : List Header
  head?_eq : headers.head? = some genesis
  linked : headers.IsChain (fun parent child ↦ child.parentHash = hash parent)
  hash_ne_zero : ∀ header ∈ headers, hash header ≠ 0

def sharedBlocks : List Header → List Header → ℕ
  | a :: as, b :: bs => if a = b then sharedBlocks as bs + 1 else 0
  | _, _ => 0

/-- What `eventLoop` tells the indexer when the canonical chain changes: a chain that is not one
block longer than the last one seen is announced with the common ancestor first. -/
inductive Announces : List Header → List Header → List Notice → Prop
  | extend {old new : List Header} :
    old <+: new → Announces old new [⟨new.length - 1, false⟩]
  | reorg {old new : List Header} :
    Announces old new [⟨sharedBlocks old new - 1, true⟩, ⟨new.length - 1, false⟩]

/-- The canonical chain, the notifications not yet handled, the indexer, the section in progress
and the number of timers that `updateLoop` has started. -/
structure IndexerState (hash : Header → Hash) (genesis : Header) where
  canonical : CanonicalChain hash genesis
  queue : List Notice
  index : ChainIndexer
  work : Option Work
  timers : ℕ

namespace IndexerState

variable {hash : Header → Hash} {genesis : Header}

/-- `newHead` and the two locked parts of `updateLoop` are single steps; the chain may change
between any two of them and between any two reads of `processSection`. `ok` restricts the
notifications that are handled. -/
inductive Step (cfg : IndexerConfig)
    (ok : IndexerState hash genesis → Notice → Prop) :
    IndexerState hash genesis → IndexerState hash genesis → Prop
  | change (s : IndexerState hash genesis) (next : CanonicalChain hash genesis) (q : List Notice) :
    Announces s.canonical.headers next.headers q →
      Step cfg ok s { s with canonical := next, queue := s.queue ++ q }
  | notify (s : IndexerState hash genesis) (n : Notice) (rest : List Notice) :
    s.queue = n :: rest → ok s n →
      Step cfg ok s { s with queue := rest, index := s.index.newHead cfg n }
  | idle (s : IndexerState hash genesis) :
    s.work = none → s.index.update = true → s.index.knownSections ≤ s.index.storedSections →
      Step cfg ok s { s with index := { s.index with update := false } }
  | startFirst (s : IndexerState hash genesis) :
    s.work = none → s.index.update = true → s.index.storedSections < s.index.knownSections →
    s.index.storedSections = 0 →
      Step cfg ok s { s with
        index := { s.index with update := false }
        work := some ⟨0, genesis.parentHash, genesis.parentHash, .resetting⟩ }
  | startNext (s : IndexerState hash genesis) :
    s.work = none → s.index.update = true → s.index.storedSections < s.index.knownSections →
    0 < s.index.storedSections →
      Step cfg ok s { s with
        index := { s.index with update := false }
        work := some ⟨s.index.storedSections, s.index.sectionHead (s.index.storedSections - 1), 0,
          .resetting⟩ }
  | reset (s : IndexerState hash genesis) (w : Work) :
    s.work = some w → w.progress = .resetting →
      Step cfg ok s { s with
        work := some { w with progress := .reading (w.sec * cfg.sectionSize) w.oldHead } }
  | resetFails (s : IndexerState hash genesis) (w : Work) :
    s.work = some w → w.progress = .resetting →
      Step cfg ok s { s with
        index := s.index.setValidSections 0
        work := some { w with progress := .done none } }
  | read (s : IndexerState hash genesis) (w : Work) (number : ℕ) (lastHead : Hash) :
    s.work = some w → w.progress = .reading number lastHead →
    number < (w.sec + 1) * cfg.sectionSize →
      Step cfg ok s { s with
        work := some { w with
          progress := processHeader hash s.canonical.headers number lastHead } }
  | commit (s : IndexerState hash genesis) (w : Work) (number : ℕ) (lastHead : Hash) :
    s.work = some w → w.progress = .reading number lastHead →
    (w.sec + 1) * cfg.sectionSize ≤ number →
      Step cfg ok s { s with work := some { w with progress := .done (some lastHead) } }
  | commitFails (s : IndexerState hash genesis) (w : Work) (number : ℕ) (lastHead : Hash) :
    s.work = some w → w.progress = .reading number lastHead →
    (w.sec + 1) * cfg.sectionSize ≤ number →
      Step cfg ok s { s with work := some { w with progress := .done none } }
  | finish (s : IndexerState hash genesis) (w : Work) (newHead : Option Hash) :
    s.work = some w → w.progress = .done newHead →
      Step cfg ok s { s with
        index := s.index.finish cfg w newHead
        work := none
        timers :=
          if (s.index.finish cfg w newHead).storedSections <
              (s.index.finish cfg w newHead).knownSections then s.timers + 1 else s.timers }
  | timer (s : IndexerState hash genesis) (timers : ℕ) :
    s.timers = timers + 1 →
      Step cfg ok s { s with index := { s.index with update := true }, timers := timers }

/-- The indexer as `NewChainIndexer` loads it: the sections of the database are canonical, and
`eventLoop` is about to announce the current head. -/
structure Initial (cfg : IndexerConfig) (s : IndexerState hash genesis) : Prop where
  queue_eq : s.queue = [⟨s.canonical.headers.length - 1, false⟩]
  work_eq : s.work = none
  absent : ∀ i, s.index.storedSections ≤ i → s.index.heads i = none
  canonical : ∀ i < s.index.storedSections, ∃ header,
    s.canonical.headers[(i + 1) * cfg.sectionSize - 1]? = some header ∧
      s.index.heads i = some (hash header)

inductive Reachable (cfg : IndexerConfig) (ok : IndexerState hash genesis → Notice → Prop) :
    IndexerState hash genesis → Prop
  | initial (s : IndexerState hash genesis) : s.Initial cfg → Reachable cfg ok s
  | step (s t : IndexerState hash genesis) :
    Reachable cfg ok s → Step cfg ok s t → Reachable cfg ok t

/-- No notification of a reorganisation is handled whose common ancestor lies in the section in
progress, below its last block. -/
def Undisturbed (cfg : IndexerConfig) (s : IndexerState hash genesis) (n : Notice) : Prop :=
  ∀ w, s.work = some w → n.reorg = true →
    n.head < w.sec * cfg.sectionSize ∨ (w.sec + 1) * cfg.sectionSize ≤ n.head + 1

end IndexerState

end BjutEth.Chain
