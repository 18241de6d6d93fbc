import BjutEth.Alien.Types

namespace BjutEth.Alien

open List

structure TallyItem where
  addr : Address
  stake : ℤ
  deriving DecidableEq

/-- `TallySlice.Less`: larger stakes first, then larger addresses. -/
def tallyLess (a b : TallyItem) : Bool :=
  b.stake < a.stake || (a.stake == b.stake && b.addr < a.addr)

structure SignerItem where
  addr : Address
  hash : Hash
  deriving DecidableEq

/-- `SignerSlice.Less`: larger hashes first. -/
def signerLess (a b : SignerItem) : Bool := b.hash < a.hash

theorem length_cycle {α : Type} (n : ℕ) {l : List α} (hl : l ≠ []) : (cycle n l).length = n := by
  have hpos := length_pos_iff.mpr hl
  have hall : ∀ i ∈ range n, (l[i % l.length]?).isSome = true := fun i _ ↦ by
    rw [getElem?_eq_getElem (Nat.mod_lt i hpos)]
    rfl
  unfold cycle
  rw [filterMap_length_eq_length.mpr hall, length_range]

namespace Snapshot

variable (rt : Runtime) (cfg : Config) (s : Snapshot)

def creditWeight (address : Address) : ℤ :=
  match s.punished[address]? with
  | some punished =>
    if punished > defaultFullCredit - minCalSignerQueueCredit then minCalSignerQueueCredit.toNat
    else (defaultFullCredit - punished).toNat
  | none => defaultFullCredit.toNat

def buildTallySlice : List TallyItem :=
  (rt.rangeOrder s.tally.toList).filterMap (fun e ↦
    if !candidateNeedPD || s.isCandidate e.1 then some ⟨e.1, e.2 * s.creditWeight e.1⟩ else none)

def removeCandidate (item : TallyItem) : Snapshot :=
  { s with
    scCoinbase := s.scCoinbase.erase item.addr
    candidates := s.candidates.erase item.addr }

def removeExtraCandidate : Snapshot :=
  ((rt.sort tallyLess (s.buildTallySlice rt)).drop candidateMaxLen).foldl removeCandidate s

def recentHash (i : ℕ) : Go Hash :=
  match s.historyHash.reverse[i]? with
  | none => goPanic
  | some hash => .ok hash

def signerItems (addrs : List Address) : Go (List SignerItem) :=
  addrs.zipIdx.mapM (fun e ↦ do return ⟨e.1, ← s.recentHash e.2⟩)

/-- The official queue: all of the first level, and from each further level
those with the largest hashes. -/
def levelItems (addrs : List Address) : Go (List SignerItem) := do
  let first ← s.signerItems (addrs.take defaultOfficialFirstLevelCount)
  let second ← s.signerItems
    ((addrs.take defaultOfficialSecondLevelCount).drop defaultOfficialFirstLevelCount)
  let third ← s.signerItems
    ((addrs.take defaultOfficialThirdLevelCount).drop defaultOfficialSecondLevelCount)
  let last ← s.signerItems
    ((addrs.take defaultOfficialMaxValidCount).drop defaultOfficialThirdLevelCount)
  return first ++ (rt.sort signerLess second).take 6 ++ (rt.sort signerLess third).take 4 ++
    (rt.sort signerLess last).take 1

def electedItems : Go (List SignerItem) :=
  let addrs := (rt.sort tallyLess (s.buildTallySlice rt)).map (·.addr)
  let queueLength := min (goInt cfg.maxSignerCount) addrs.length
  if queueLength = defaultOfficialMaxSignerCount && addrs.length > defaultOfficialThirdLevelCount then
    s.levelItems rt addrs
  else if queueLength < 0 then goPanic
  else s.signerItems (addrs.take queueLength.toNat)

def queueItems : Go (List SignerItem) :=
  if cfg.maxSignerCount * s.lcrs = 0 then goPanic
  else if (s.number + 1) % (cfg.maxSignerCount * s.lcrs) = 0 then s.electedItems rt cfg
  else s.signerItems s.signers

def fillQueue (items : List SignerItem) : List Address :=
  cycle (goInt cfg.maxSignerCount).toNat (items.map (·.addr))

def createSignerQueue : Go (List Address) := do
  if (s.number + 1) % cfg.maxSignerCount ≠ 0 then fail .createSignerQueueNotAllowed
  let lastHash ← s.recentHash 0
  if s.hash ≠ lastHash then fail .createSignerQueueNotAllowed
  let items ← s.queueItems rt cfg
  if items.isEmpty then fail .signerQueueEmpty
  return fillQueue cfg (rt.sort signerLess items)

theorem createSignerQueue_eq (rt : Runtime) (cfg : Config) (s : Snapshot) :
    s.createSignerQueue rt cfg =
      if (s.number + 1) % cfg.maxSignerCount ≠ 0 then fail .createSignerQueueNotAllowed
      else s.recentHash 0 >>= fun lastHash ↦
        if s.hash ≠ lastHash then fail .createSignerQueueNotAllowed
        else s.queueItems rt cfg >>= fun items ↦
          if items.isEmpty then fail .signerQueueEmpty
          else .ok (fillQueue cfg (rt.sort signerLess items)) := by
  unfold createSignerQueue
  split_ifs
  · rfl
  · congr 1

variable {rt : Runtime} {cfg : Config} {s : Snapshot} {queue : List Address}

theorem createSignerQueue_eq_ok :
    s.createSignerQueue rt cfg = .ok queue ↔
      (s.number + 1) % cfg.maxSignerCount = 0 ∧ s.recentHash 0 = .ok s.hash ∧
        ∃ items, s.queueItems rt cfg = .ok items ∧ items ≠ [] ∧
          fillQueue cfg (rt.sort signerLess items) = queue := by
  rw [createSignerQueue_eq]
  split_ifs with hloop
  · exact ⟨fun h ↦ (by cases h), fun h ↦ absurd h.1 hloop⟩
  rw [Outcome.bind_eq_ok]
  constructor
  · rintro ⟨lastHash, hlast, h⟩
    split_ifs at h with hhash
    · cases h
    obtain ⟨items, hits, h⟩ := Outcome.bind_eq_ok.mp h
    split_ifs at h with hemp
    · cases h
    rw [not_not] at hhash
    exact ⟨not_not.mp hloop, hhash ▸ hlast, items, hits, by simpa using hemp, Except.ok.inj h⟩
  rintro ⟨-, hlast, items, hits, hemp, rfl⟩
  refine ⟨s.hash, hlast, ?_⟩
  rw [if_neg (not_not.mpr rfl), hits]
  exact if_neg (by simpa using hemp)

theorem length_createSignerQueue (h : s.createSignerQueue rt cfg = .ok queue) :
    queue.length = (goInt cfg.maxSignerCount).toNat := by
  obtain ⟨-, -, items, -, hemp, rfl⟩ := createSignerQueue_eq_ok.mp h
  refine length_cycle _ (fun hnil ↦ hemp ?_)
  exact ((rt.sort_perm signerLess items).symm.trans (.of_eq (map_eq_nil_iff.mp hnil))).eq_nil

def verifySignerQueue (rt : Runtime) (cfg : Config) (s : Snapshot) (signerQueue : List Address) :
    Go Unit := do
  if goInt cfg.maxSignerCount < signerQueue.length then fail .invalidSignerQueue
  let sq ← s.createSignerQueue rt cfg
  if sq.isEmpty || sq.length ≠ signerQueue.length then fail .invalidSignerQueue
  if signerQueue ≠ sq then fail .invalidSignerQueue

theorem verifySignerQueue_eq_ok :
    s.verifySignerQueue rt cfg queue = .ok () ↔
      s.createSignerQueue rt cfg = .ok queue ∧ queue.length = goInt cfg.maxSignerCount ∧ queue ≠ [] := by
  unfold verifySignerQueue
  constructor
  · intro h
    split at h
    · cases h
    next hlen =>
    obtain ⟨sq, hsq, h⟩ := Outcome.bind_eq_ok.mp h
    have hlength := length_createSignerQueue hsq
    dsimp only at h
    split at h
    · cases h
    next hemp =>
    split at h
    · cases h
    next hne =>
    rw [not_not] at hne
    subst hne
    exact ⟨hsq, by omega, fun hnil ↦ hemp (by simp [hnil])⟩
  rintro ⟨hsq, hlength, hne⟩
  rw [if_neg (by omega), hsq]
  simp only [bind, Except.bind, pure, Except.pure]
  rw [if_neg (by simpa using hne), if_neg (not_not.mpr rfl)]

def inturn (cfg : Config) (s : Snapshot) (signer : Address) (headerTime : UInt64) : Go Bool :=
  if s.signers.isEmpty then .ok false
  else if cfg.period = 0 then goPanic
  else
    let loopIndex := ((headerTime - s.loopStartTime) / cfg.period) % .ofNat s.signers.length
    .ok (s.signers[loopIndex.toNat]? == some signer)

end Snapshot

end BjutEth.Alien
