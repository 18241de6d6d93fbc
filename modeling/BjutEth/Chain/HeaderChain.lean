import BjutEth.Lib.Bytes
import BjutEth.Lib.Lineage
import BjutEth.Lib.Outcome

namespace BjutEth.Chain

open Function

abbrev Hash := BitVec 256

/-- The fields of a header that the chain reads; `rest` stands for all the others. -/
structure Header where
  parentHash : Hash
  difficulty : ℕ
  number : ℕ
  rest : Bytes
  deriving DecidableEq

/-- A list of pairwise different hashes has no collision. -/
theorem injOn_of_nodup_map {α : Type} {hash : α → Hash} {l : List α} (h : (l.map hash).Nodup) :
    Set.InjOn hash {a | a ∈ l} := List.inj_on_of_nodup_map h

inductive ChainError
  | unknownAncestor | invalidOldChain | invalidNewChain
  deriving DecidableEq

abbrev Go (α : Type) := Outcome ChainError α

inductive WriteStatus
  | canonStatTy
  | sideStatTy
  deriving DecidableEq

def prevNumber (n : ℕ) : ℕ := if n = 0 then 2 ^ 64 - 1 else n - 1

/-- `HeaderChain` with the tables of the database that it reads. The caches hold nothing but
what is in the tables and are left out. -/
structure HeaderChain where
  headers : ℕ × Hash → Option Header
  tds : ℕ × Hash → Option ℕ
  canonical : ℕ → Option Hash
  genesisHeader : Header
  currentHeader : Header
  currentHeaderHash : Hash

def readCanonicalHash (canonical : ℕ → Option Hash) (number : ℕ) : Hash :=
  (canonical number).getD 0

def deleteAbove : ℕ → (ℕ → Option Hash) → ℕ → Go (ℕ → Option Hash)
  | 0, _, _ => .error .hang
  | fuel + 1, canonical, i =>
    if readCanonicalHash canonical i = 0 then .ok canonical
    else deleteAbove fuel (update canonical i none) (i + 1)

def overwrite (headers : ℕ × Hash → Option Header) :
    ℕ → (ℕ → Option Hash) → Hash → ℕ → Option Header → Go (ℕ → Option Hash)
  | 0, _, _, _, _ => .error .hang
  | fuel + 1, canonical, headHash, headNumber, headHeader =>
    if readCanonicalHash canonical headNumber = headHash then .ok canonical
    else
      match headHeader with
      | none => .error .panic
      | some hd =>
        overwrite headers fuel (update canonical headNumber (some headHash)) hd.parentHash
          (prevNumber hd.number) (headers (prevNumber hd.number, hd.parentHash))

def pathWork (headers : ℕ × Hash → Option Header) : ℕ → Hash → Option ℕ
  | 0, h => (headers (0, h)).map Header.difficulty
  | n + 1, h =>
    (headers (n + 1, h)).bind fun hd ↦ (pathWork headers n hd.parentHash).map (hd.difficulty + ·)

namespace HeaderChain

variable (hash : Header → Hash)

def new (genesis : Header) : HeaderChain where
  headers := update (fun _ ↦ none) (0, hash genesis) (some genesis)
  tds := update (fun _ ↦ none) (0, hash genesis) (some genesis.difficulty)
  canonical := update (fun _ ↦ none) 0 (some (hash genesis))
  genesisHeader := genesis
  currentHeader := genesis
  currentHeaderHash := hash genesis

def store (hc : HeaderChain) (header : Header) (td : ℕ) : HeaderChain :=
  { hc with
    headers := update hc.headers (header.number, hash header) (some header)
    tds := update hc.tds (header.number, hash header) (some td) }

/-- `WriteHeader`. `tie` is the outcome of `mrand.Float64() < 0.5`. -/
def writeHeader (fuel : ℕ) (tie : Bool) (hc : HeaderChain) (header : Header) :
    Go (WriteStatus × HeaderChain) :=
  match hc.tds (prevNumber header.number, header.parentHash) with
  | none => .error (.err .unknownAncestor)
  | some ptd =>
    match hc.tds (hc.currentHeader.number, hc.currentHeaderHash) with
    | none => .error .panic
    | some localTd =>
      let externTd := header.difficulty + ptd
      let hc := hc.store hash header externTd
      if localTd < externTd ∨ externTd = localTd ∧ tie = true then do
        let canonical ← deleteAbove fuel hc.canonical (header.number + 1)
        let headNumber := prevNumber header.number
        let canonical ← overwrite hc.headers fuel canonical header.parentHash headNumber
          (hc.headers (headNumber, header.parentHash))
        return (.canonStatTy, { hc with
          canonical := update canonical header.number (some (hash header))
          currentHeaderHash := hash header
          currentHeader := header })
      else return (.sideStatTy, hc)

def dropHeaders (head : ℕ) : ℕ → HeaderChain → Option Header → Go (HeaderChain × Option Header)
  | 0, _, _ => .error .hang
  | _ + 1, hc, none => .ok (hc, none)
  | fuel + 1, hc, some hdr =>
    if head < hdr.number then
      dropHeaders head fuel
        { hc with
          headers := update hc.headers (hdr.number, hash hdr) none
          tds := update hc.tds (hdr.number, hash hdr) none }
        (update hc.headers (hdr.number, hash hdr) none (prevNumber hdr.number, hdr.parentHash))
    else .ok (hc, some hdr)

def setHead (fuel : ℕ) (hc : HeaderChain) (head : ℕ) : Go HeaderChain := do
  let height := hc.currentHeader.number
  let (hc, current) ← dropHeaders hash head fuel hc (some hc.currentHeader)
  let current := current.getD hc.genesisHeader
  return { hc with
    canonical := fun i ↦ if head < i ∧ i ≤ height then none else hc.canonical i
    currentHeader := current
    currentHeaderHash := hash current }

def link (hc : HeaderChain) (n : ℕ) (h : Hash) : Option Hash :=
  (hc.headers (n, h)).map Header.parentHash

def work (hc : HeaderChain) : ℕ → Hash → Option ℕ := pathWork hc.headers

end HeaderChain

end BjutEth.Chain
