import BjutEth.Chain.Reorg

namespace BjutEth.Chain

open Outcome
open Function (update update_of_ne update_self)
open List hiding not_le

def entriesOf (hash : Block → Hash) (b : Block) : List (Hash × TxLookupEntry) :=
  b.txs.zipIdx.map fun tx ↦ (tx.1, ⟨hash b, b.number, tx.2⟩)

structure BlockUniverse (hash : Block → Hash) (genesis : Block) where
  carrier : Set Block
  injOn : Set.InjOn hash carrier
  ne_zero : ∀ b ∈ carrier, hash b ≠ 0
  genesis_mem : genesis ∈ carrier
  genesis_number : genesis.number = 0
  genesis_txs : genesis.txs = []

namespace BlockChain

variable {hash : Block → Hash}

def path (bc : BlockChain) (b : Block) : List Block := pathDown bc.blocks b.number b

def totalDifficulty (bc : BlockChain) (b : Block) : ℕ := ((bc.path b).map Block.difficulty).sum

def switch (hash : Block → Hash) (bc : BlockChain) (off on : List Block) (head : Block) : BlockChain :=
  { bc with
    canonical := writeAll (on.map fun b ↦ (b.number, hash b)) bc.canonical
    lookups := deleteAll (txDifference (off.flatMap Block.txs) (on.flatMap Block.txs))
      (writeAll (on.flatMap (entriesOf hash)) bc.lookups)
    currentBlock := head }

theorem writeTxLookupEntries_eq (bc : BlockChain) (b : Block) :
    bc.writeTxLookupEntries hash b = { bc with lookups := writeAll (entriesOf hash b) bc.lookups } := by
  rw [writeTxLookupEntries, writeAll, entriesOf, foldl_map]

theorem foldl_insert (bc : BlockChain) (on : List Block) :
    ∃ head, on.foldl (fun bc b ↦ (bc.insert hash b).writeTxLookupEntries hash b) bc =
      { bc with
        canonical := writeAll (on.map fun b ↦ (b.number, hash b)) bc.canonical
        lookups := writeAll (on.flatMap (entriesOf hash)) bc.lookups
        currentBlock := head } := by
  induction on generalizing bc with
  | nil => exact ⟨bc.currentBlock, rfl⟩
  | cons b on ih =>
    obtain ⟨head, h⟩ := ih ((bc.insert hash b).writeTxLookupEntries hash b)
    refine ⟨head, ?_⟩
    rw [foldl_cons, h, writeTxLookupEntries_eq, flatMap_cons, writeAll_append]
    rfl

/-- What every state of a run has: the blocks are stored under their number and hash, with
their parents and with the sum of the difficulties on their path. -/
structure Stored {genesis : Block} (U : BlockUniverse hash genesis) (bc : BlockChain) : Prop where
  keyed : ∀ {n h b}, bc.blocks (n, h) = some b → b.number = n ∧ hash b = h ∧ b ∈ U.carrier
  linked : ∀ {n h b}, bc.blocks (n, h) = some b → Linked genesis bc.blocks n b
  td : ∀ {n h b}, bc.blocks (n, h) = some b → bc.tds (n, h) = some (bc.totalDifficulty b)
  current : bc.blocks (bc.currentBlock.number, hash bc.currentBlock) = some bc.currentBlock

variable {genesis : Block} {U : BlockUniverse hash genesis} {bc : BlockChain} {block parent : Block}

theorem reorg_returns (hS : ∀ k b, bc.blocks k = some b → b ∈ U.carrier) {n m : ℕ} {b c : Block} (hbU : b ∈ U.carrier)
    (hcU : c ∈ U.carrier) (hb : Linked genesis bc.blocks n b) (hc : Linked genesis bc.blocks m c) :
    ∃ off on rest head, pathDown bc.blocks n b = off ++ rest ∧
      pathDown bc.blocks m c = on ++ rest ∧
      Returns (fun fuel ↦ reorg hash fuel bc b c) (bc.switch hash off on.reverse head) := by
  obtain ⟨off, on, rest, hoff, hon, N, hrun⟩ :=
    reorgChains_eq U.injOn hS hbU hcU hb hc
  obtain ⟨head, hfold⟩ := @foldl_insert hash bc on.reverse
  refine ⟨off, on, rest, head, hoff, hon, N, fun fuel hf ↦ ?_⟩
  have hchains : reorgChains hash bc.blocks fuel b c = .ok (off, on) := hrun fuel hf
  simp only [reorg, hchains]
  change Except.ok ((List.foldl _ bc on.reverse).deleteTxLookupEntries _) = _
  rw [hfold]
  rfl

structure Extends (U : BlockUniverse hash genesis) (bc : BlockChain) (block parent : Block) : Prop where
  mem : block ∈ U.carrier
  parent_stored : bc.blocks (parent.number, block.parentHash) = some parent
  number : block.number = parent.number + 1

section

variable (he : Extends U bc block parent)

include he

theorem Extends.linked (hs : Stored U bc) : Linked genesis bc.blocks block.number block := by
  rw [he.number]
  exact ⟨he.number, parent, he.parent_stored, hs.linked he.parent_stored⟩

theorem Extends.path : bc.path block = block :: bc.path parent := by
  rw [BlockChain.path, he.number, pathDown_succ he.parent_stored]
  rfl

theorem Extends.totalDifficulty :
    bc.totalDifficulty block = block.difficulty + bc.totalDifficulty parent := by
  rw [BlockChain.totalDifficulty, he.path, map_cons, sum_cons, BlockChain.totalDifficulty]

end

def store (hash : Block → Hash) (bc : BlockChain) (block : Block) : BlockChain :=
  { bc with
    blocks := Function.update bc.blocks (block.number, hash block) (some block)
    tds := Function.update bc.tds (block.number, hash block) (some (bc.totalDifficulty block)) }

theorem store_blocks (bc : BlockChain) (block : Block) : (bc.store hash block).blocks =
    update bc.blocks (block.number, hash block) (some block) := rfl

theorem store_tds (bc : BlockChain) (block : Block) : (bc.store hash block).tds =
    update bc.tds (block.number, hash block) (some (bc.totalDifficulty block)) := rfl

theorem Stored.store_of_some (hs : Stored U bc) (hU : block ∈ U.carrier) (k : ℕ × Hash) (b : Block)
    (hk : bc.blocks k = some b) : (bc.store hash block).blocks k = some b := by
  obtain ⟨n, h⟩ := k
  rw [store_blocks]
  by_cases he : (n, h) = (block.number, hash block)
  · obtain ⟨-, hh, hb⟩ := hs.keyed hk
    obtain rfl := U.injOn hb hU (hh.trans (congrArg Prod.snd he))
    rw [he, update_self]
  · rw [update_of_ne he, hk]

theorem store_eq_some {n : ℕ} {h : Hash} {b : Block}
    (hk : (bc.store hash block).blocks (n, h) = some b) :
    ((n, h) = (block.number, hash block) ∧ b = block) ∨
      ((n, h) ≠ (block.number, hash block) ∧ bc.blocks (n, h) = some b) := by
  rw [store_blocks] at hk
  by_cases he : (n, h) = (block.number, hash block)
  · rw [he, update_self] at hk
    exact .inl ⟨he, (Option.some.inj hk).symm⟩
  · rw [update_of_ne he] at hk
    exact .inr ⟨he, hk⟩

section

variable (hs : Stored U bc)

include hs

theorem path_store (hU : block ∈ U.carrier) {b : Block}
    (hb : Linked genesis bc.blocks b.number b) : (bc.store hash block).path b = bc.path b :=
  hb.pathDown_eq (hs.store_of_some hU)

theorem Stored.of_eq {bc' : BlockChain} (hbls : bc'.blocks = bc.blocks) (htds : bc'.tds = bc.tds)
    (hcur : bc.blocks (bc'.currentBlock.number, hash bc'.currentBlock) = some bc'.currentBlock) :
    Stored U bc' := by
  have htd : ∀ b, bc'.totalDifficulty b = bc.totalDifficulty b := by
    intro b
    rw [totalDifficulty, totalDifficulty, path, path, hbls]
  refine ⟨?_, ?_, ?_, ?_⟩
  · rw [hbls]
    exact hs.keyed
  · rw [hbls]
    exact hs.linked
  · intro n h b hk
    rw [hbls] at hk
    rw [htds, htd]
    exact hs.td hk
  · rw [hbls]
    exact hcur

theorem Stored.store (he : Extends U bc block parent) : Stored U (bc.store hash block) := by
  have hsub := hs.store_of_some he.mem
  have hlnk : ∀ {n h b}, (bc.store hash block).blocks (n, h) = some b →
      Linked genesis bc.blocks n b := by
    intro n h b hk
    obtain ⟨hkey, rfl⟩ | ⟨-, hk⟩ := store_eq_some hk
    · obtain rfl := congrArg Prod.fst hkey
      exact he.linked hs
    · exact hs.linked hk
  refine ⟨?_, fun hk ↦ (hlnk hk).mono hsub, ?_, hsub _ _ hs.current⟩
  · intro n h b hk
    obtain ⟨hkey, rfl⟩ | ⟨-, hk⟩ := store_eq_some hk
    · cases hkey
      exact ⟨rfl, rfl, he.mem⟩
    · exact hs.keyed hk
  intro n h b hk
  have hb := hlnk hk
  rw [← hb.number_eq] at hb
  rw [BlockChain.totalDifficulty, path_store hs he.mem hb, ← BlockChain.totalDifficulty, store_tds]
  obtain ⟨hkey, rfl⟩ | ⟨hne, hk⟩ := store_eq_some hk
  · rw [hkey, update_self]
  · rw [update_of_ne hne, hs.td hk]

theorem current_linked :
    Linked genesis bc.blocks bc.currentBlock.number bc.currentBlock := hs.linked hs.current

end

def Heavier (bc : BlockChain) (tie : Bool) (block : Block) : Prop :=
  bc.totalDifficulty bc.currentBlock < bc.totalDifficulty block ∨
    bc.totalDifficulty block = bc.totalDifficulty bc.currentBlock ∧
      (block.number < bc.currentBlock.number ∨
        block.number = bc.currentBlock.number ∧ tie = true)

def Collectable (bc : BlockChain) (archive : Bool) (block : Block) : Prop :=
  archive = false → triesInMemory < block.number →
    bc.hasHeaderByNumber (block.number - triesInMemory) = true

instance (bc : BlockChain) (tie : Bool) (block : Block) : Decidable (bc.Heavier tie block) :=
  inferInstanceAs (Decidable (_ ∨ _))

instance (bc : BlockChain) (archive : Bool) (block : Block) : Decidable (bc.Collectable archive block) :=
  inferInstanceAs (Decidable (_ → _ → _))

/-- The state after the block has become the head: `off` left the canonical chain, `on` was
put on it by `reorg`. -/
def adopt (hash : Block → Hash) (bc : BlockChain) (off on : List Block) (block : Block) : BlockChain :=
  { bc.store hash block with
    canonical := writeAll ((on ++ [block]).map fun b ↦ (b.number, hash b)) bc.canonical
    lookups := writeAll (entriesOf hash block)
      (deleteAll (txDifference (off.flatMap Block.txs) (on.flatMap Block.txs))
        (writeAll (on.flatMap (entriesOf hash)) bc.lookups))
    currentBlock := block }

/-- `off` and `on` are the parts of the two paths above a common block; a block on top of the
head is put on without `reorg`. -/
structure Switch (bc : BlockChain) (block : Block) (off on : List Block) : Prop where
  exists_rest : ∃ new rest, bc.path bc.currentBlock = off ++ rest ∧ bc.path block = new ++ rest ∧
    ∀ b, b ∈ new ∨ b = block ↔ b ∈ on ∨ b = block

section Write

variable {archive tie : Bool}

theorem collectable_iff : ¬ (archive = false ∧ triesInMemory < block.number ∧
    bc.hasHeaderByNumber (block.number - triesInMemory) = false) ↔ Collectable bc archive block := by
  simp only [Collectable, not_and, Bool.not_eq_false]

variable (hs : Stored U bc) (he : Extends U bc block parent)

include hs he

theorem writeBlockWithState_eq (fuel : ℕ) :
    writeBlockWithState hash fuel archive tie bc block =
      if ¬ Collectable bc archive block then .error .panic
      else if Heavier bc tie block then do
        let bc' := { bc with tds := (bc.store hash block).tds }
        let bc' ← if block.parentHash ≠ hash bc.currentBlock then reorg hash fuel bc' bc.currentBlock block
          else pure bc'
        let bc' := { bc'.writeTxLookupEntries hash block with blocks := (bc.store hash block).blocks }
        return (.canonStatTy, bc'.insert hash block)
      else return (.sideStatTy, bc.store hash block) := by
  have hpar : bc.tds (prevNumber block.number, block.parentHash) =
      some (bc.totalDifficulty parent) := by
    rw [he.number]
    exact hs.td he.parent_stored
  have hlocal := hs.td hs.current
  have hcoll : Collectable { bc with tds := (bc.store hash block).tds } archive block ↔
      Collectable bc archive block := Iff.rfl
  simp only [writeBlockWithState, hpar, hlocal, ← he.totalDifficulty]
  by_cases hc : Collectable bc archive block
  · rw [if_neg (not_not.mpr hc)]
    exact if_neg (collectable_iff.mpr (hcoll.mpr hc))
  · rw [if_pos hc]
    exact if_pos (not_not.mp (fun h ↦ hc (hcoll.mp (collectable_iff.mp h))))

theorem writeBlockWithState_side (hc : Collectable bc archive block) (hh : ¬ Heavier bc tie block) :
    Returns (fun fuel ↦ writeBlockWithState hash fuel archive tie bc block)
      (.sideStatTy, bc.store hash block) := by
  refine ⟨0, fun fuel _ ↦ ?_⟩
  beta_reduce
  rw [writeBlockWithState_eq hs he, if_neg (not_not.mpr hc), if_neg hh]
  rfl

theorem writeBlockWithState_canon (hc : Collectable bc archive block) (hh : Heavier bc tie block) :
    ∃ off on, Switch bc block off on ∧
      Returns (fun fuel ↦ writeBlockWithState hash fuel archive tie bc block)
        (.canonStatTy, bc.adopt hash off on block) := by
  by_cases hp : block.parentHash = hash bc.currentBlock
  · -- the block is on top of the head
    have hcur : parent = bc.currentBlock := by
      obtain ⟨-, hh, hU⟩ := hs.keyed he.parent_stored
      exact U.injOn hU (hs.keyed hs.current).2.2 (hh.trans hp)
    refine ⟨[], [], ⟨[block], bc.path bc.currentBlock, rfl, ?_, ?_⟩, 0, fun fuel _ ↦ ?_⟩
    · rw [he.path, hcur, singleton_append]
    · intro b
      simp only [mem_singleton, not_mem_nil, or_self, false_or]
    beta_reduce
    rw [writeBlockWithState_eq hs he, if_neg (not_not.mpr hc), if_pos hh, if_neg (not_not.mpr hp)]
    simp only [writeTxLookupEntries_eq]
    rfl
  have hcur := current_linked hs
  have hblock := he.linked hs
  obtain ⟨off, new, rest, head, hoff, hnew, N, hrun⟩ :=
    @reorg_returns hash genesis U { bc with tds := (bc.store hash block).tds }
      (fun k b hk ↦ (hs.keyed hk).2.2) _ _ _ _ (hs.keyed hs.current).2.2 he.mem hcur hblock
  refine ⟨off, new.reverse, ⟨new, rest, hoff, hnew, ?_⟩, N, fun fuel hf ↦ ?_⟩
  · intro b
    rw [mem_reverse]
  have hreorg : reorg hash fuel { bc with tds := (bc.store hash block).tds } bc.currentBlock block =
      .ok _ := hrun fuel hf
  beta_reduce
  rw [writeBlockWithState_eq hs he, if_neg (not_not.mpr hc), if_pos hh, if_pos hp, hreorg]
  change Except.ok (WriteStatus.canonStatTy, _) = _
  rw [writeTxLookupEntries_eq, adopt, map_append, writeAll_append]
  rfl

end Write

/-- The chain comes from a new one by writing blocks whose parent is stored and that are fit
to be written by `ok`. -/
inductive Reachable (U : BlockUniverse hash genesis) (ok : BlockChain → Block → Prop) :
    BlockChain → Prop
  | new : Reachable U ok (.new hash genesis)
  | write {bc : BlockChain} {block parent : Block} {archive tie : Bool} {r : WriteStatus × BlockChain}
      (h : Reachable U ok bc) (he : Extends U bc block parent) (hok : ok bc block)
      (hr : Returns (fun fuel ↦ writeBlockWithState hash fuel archive tie bc block) r) :
      Reachable U ok r.2

variable {r : WriteStatus × BlockChain}

theorem writeBlockWithState_cases {archive tie : Bool} (hs : Stored U bc) (he : Extends U bc block parent)
    (hr : Returns (fun fuel ↦ writeBlockWithState hash fuel archive tie bc block) r) :
    (¬ Heavier bc tie block ∧ r = (.sideStatTy, bc.store hash block)) ∨
      (Heavier bc tie block ∧
        ∃ off on, Switch bc block off on ∧ r = (.canonStatTy, bc.adopt hash off on block)) := by
  have hc : Collectable bc archive block := by
    by_contra hc
    obtain ⟨n, hn⟩ := hr
    have hok : writeBlockWithState hash n archive tie bc block = .ok r := hn n le_rfl
    rw [writeBlockWithState_eq hs he, if_pos hc] at hok
    cases hok
  by_cases hh : Heavier bc tie block
  · obtain ⟨off, on, hsw, hret⟩ := writeBlockWithState_canon hs he hc hh
    exact .inr ⟨hh, off, on, hsw, hr.unique hret⟩
  · exact .inl ⟨hh, hr.unique (writeBlockWithState_side hs he hc hh)⟩

theorem new_blocks (genesis : Block) : (new hash genesis).blocks =
    update (fun _ ↦ none) (0, hash genesis) (some genesis) := rfl

theorem new_tds (genesis : Block) : (new hash genesis).tds =
    update (fun _ ↦ none) (0, hash genesis) (some genesis.difficulty) := rfl

theorem new_canonical (genesis : Block) : (new hash genesis).canonical =
    update (fun _ ↦ none) 0 (some (hash genesis)) := rfl

theorem new_blocks_eq_some {n : ℕ} {h : Hash} {b : Block}
    (hk : (new hash genesis).blocks (n, h) = some b) : (n, h) = (0, hash genesis) ∧ b = genesis := by
  rw [new_blocks] at hk
  by_cases he : (n, h) = (0, hash genesis)
  · rw [he, update_self] at hk
    exact ⟨he, (Option.some.inj hk).symm⟩
  · rw [update_of_ne he] at hk
    cases hk

theorem path_new (U : BlockUniverse hash genesis) : (new hash genesis).path genesis = [genesis] := by
  rw [path, U.genesis_number, pathDown]

theorem stored_new (U : BlockUniverse hash genesis) : Stored U (.new hash genesis) := by
  refine ⟨?_, ?_, ?_, ?_⟩
  · intro n h b hk
    obtain ⟨hkey, rfl⟩ := new_blocks_eq_some hk
    cases hkey
    exact ⟨U.genesis_number, rfl, U.genesis_mem⟩
  · intro n h b hk
    obtain ⟨hkey, rfl⟩ := new_blocks_eq_some hk
    cases hkey
    exact ⟨rfl, U.genesis_number⟩
  · intro n h b hk
    obtain ⟨hkey, rfl⟩ := new_blocks_eq_some hk
    rw [hkey, totalDifficulty, path_new U, new_tds, update_self, map_singleton,
      sum_singleton]
  · change (new hash genesis).blocks (genesis.number, hash genesis) = some genesis
    rw [U.genesis_number, new_blocks, update_self]

theorem stored_write {archive tie : Bool} (hs : Stored U bc) (he : Extends U bc block parent)
    (hr : Returns (fun fuel ↦ writeBlockWithState hash fuel archive tie bc block) r) : Stored U r.2 := by
  obtain ⟨-, rfl⟩ | ⟨-, off, on, -, rfl⟩ := writeBlockWithState_cases hs he hr
  · exact hs.store he
  refine (hs.store he).of_eq rfl rfl ?_
  exact update_self _ _ _

theorem stored_of_reachable {ok : BlockChain → Block → Prop} (h : Reachable U ok bc) :
    Stored U bc := by
  induction h with
  | new => exact stored_new U
  | write _ he _ hr ih => exact stored_write ih he hr

section Switch

variable {off on : List Block} {b : Block}

theorem Switch.mem_path (hsw : Switch bc block off on) (hb : b ∈ on ++ [block]) :
    b ∈ bc.path block := by
  obtain ⟨new, rest, -, hnew, hon⟩ := hsw
  rw [mem_append, mem_singleton] at hb
  obtain hb | rfl := (hon b).mpr hb
  · rw [hnew]
    exact mem_append_left rest hb
  · exact mem_pathDown_self

theorem Switch.mem_current (hsw : Switch bc block off on) (hb : b ∈ bc.path block)
    (hnot : b ∉ on ++ [block]) : b ∈ bc.path bc.currentBlock := by
  obtain ⟨new, rest, hold, hnew, hon⟩ := hsw
  rw [mem_append, mem_singleton, ← hon b, not_or] at hnot
  rw [hnew] at hb
  rw [hold]
  exact mem_append_right off ((mem_append.mp hb).resolve_left hnot.1)

end Switch

/-- The numbers up to the head are those of its ancestors, there are no others, and no stored
block has a larger total difficulty. -/
structure OneChain (hash : Block → Hash) (bc : BlockChain) : Prop where
  ancestors : ∀ i ≤ bc.currentBlock.number,
    ∃ b ∈ bc.path bc.currentBlock, b.number = i ∧ bc.canonical i = some (hash b)
  none_above : ∀ i, bc.currentBlock.number < i → bc.canonical i = none
  maximal : ∀ n h b, bc.blocks (n, h) = some b →
    bc.totalDifficulty b ≤ bc.totalDifficulty bc.currentBlock

def NotShorter (bc : BlockChain) (block : Block) : Prop :=
  bc.totalDifficulty bc.currentBlock ≤ bc.totalDifficulty block →
    bc.currentBlock.number ≤ block.number

theorem Heavier.le {tie : Bool} (h : Heavier bc tie block) :
    bc.totalDifficulty bc.currentBlock ≤ bc.totalDifficulty block := by
  obtain h | ⟨h, -⟩ := h
  · exact h.le
  · exact h.symm.le

section Step

variable {off on : List Block}

theorem totalDifficulty_store (hs : Stored U bc) (hU : block ∈ U.carrier) {b : Block}
    (hb : Linked genesis bc.blocks b.number b) :
    (bc.store hash block).totalDifficulty b = bc.totalDifficulty b := by
  rw [totalDifficulty, path_store hs hU hb, totalDifficulty]

theorem canonical_adopt_of_forall {i : ℕ} (h : ∀ b ∈ on ++ [block], b.number ≠ i) :
    (bc.adopt hash off on block).canonical i = bc.canonical i := by
  refine writeAll_of_forall_ne ?_ _
  intro e hmem
  obtain ⟨c, hc, rfl⟩ := mem_map.mp hmem
  exact h c hc

variable (hs : Stored U bc) (he : Extends U bc block parent)

include hs he

theorem maximal_store {t : ℕ} (hold : ∀ n h b, bc.blocks (n, h) = some b → bc.totalDifficulty b ≤ t)
    (hnew : bc.totalDifficulty block ≤ t) (n : ℕ) (h : Hash) (b : Block)
    (hk : (bc.store hash block).blocks (n, h) = some b) :
    (bc.store hash block).totalDifficulty b ≤ t := by
  obtain ⟨-, rfl⟩ | ⟨-, hk⟩ := store_eq_some hk
  · rw [totalDifficulty_store hs he.mem (he.linked hs)]
    exact hnew
  have hb := hs.linked hk
  rw [← hb.number_eq] at hb
  rw [totalDifficulty_store hs he.mem hb]
  exact hold n h b hk

theorem oneChain_store (h : OneChain hash bc)
    (hle : bc.totalDifficulty block ≤ bc.totalDifficulty bc.currentBlock) :
    OneChain hash (bc.store hash block) := by
  have hpath : (bc.store hash block).path bc.currentBlock = bc.path bc.currentBlock :=
    path_store hs he.mem (current_linked hs)
  refine ⟨?_, h.none_above, ?_⟩
  · intro i hi
    obtain ⟨b, hb, hbi, hcan⟩ := h.ancestors i hi
    exact ⟨b, hpath ▸ hb, hbi, hcan⟩
  have hcur := totalDifficulty_store hs he.mem (current_linked hs)
  intro n k b hk
  refine (maximal_store hs he h.maximal hle n k b hk).trans ?_
  exact hcur.symm.le

theorem canonical_adopt_of_mem (hsw : Switch bc block off on) {b : Block} (hb : b ∈ on ++ [block]) :
    (bc.adopt hash off on block).canonical b.number = some (hash b) := by
  have hwrt : (b.number, hash b) ∈ (on ++ [block]).map fun b ↦ (b.number, hash b) :=
    mem_map.mpr ⟨b, hb, rfl⟩
  refine writeAll_of_mem hwrt ?_ _
  intro e hmem hnum
  obtain ⟨c, hc, rfl⟩ := mem_map.mp hmem
  rw [(he.linked hs).eq_of_number_eq (hsw.mem_path hc) (hsw.mem_path hb) hnum]

theorem oneChain_adopt (h : OneChain hash bc) (hsw : Switch bc block off on)
    (hle : bc.totalDifficulty bc.currentBlock ≤ bc.totalDifficulty block)
    (hnum : bc.currentBlock.number ≤ block.number) : OneChain hash (bc.adopt hash off on block) := by
  have hlnk := he.linked hs
  have hpath : (bc.adopt hash off on block).path block = bc.path block := path_store hs he.mem hlnk
  refine ⟨?_, ?_, ?_⟩
  · intro i hi
    obtain ⟨b, hb, rfl⟩ := hlnk.exists_number hi
    refine ⟨b, hpath ▸ hb, rfl, ?_⟩
    by_cases hon : b ∈ on ++ [block]
    · exact canonical_adopt_of_mem hs he hsw hon
    -- the block was on the old path and stays
    have hcur := hsw.mem_current hb hon
    obtain ⟨c, hc, hcb, hcan⟩ := h.ancestors b.number ((current_linked hs).number_le hcur)
    obtain rfl := (current_linked hs).eq_of_number_eq hc hcur hcb
    rw [canonical_adopt_of_forall, hcan]
    intro d hd hdc
    obtain rfl := hlnk.eq_of_number_eq (hsw.mem_path hd) hb hdc
    exact hon hd
  · intro i hi
    have hi' : block.number < i := hi
    rw [canonical_adopt_of_forall, h.none_above i (by omega)]
    intro d hd hdi
    have := hlnk.number_le (hsw.mem_path hd)
    omega
  have hcur := totalDifficulty_store hs he.mem hlnk
  intro n k b hk
  refine (maximal_store hs he (fun n k b hk ↦ (h.maximal n k b hk).trans hle) le_rfl n k b hk).trans ?_
  exact hcur.symm.le

theorem oneChain_write {archive tie : Bool} (h : OneChain hash bc) (hns : NotShorter bc block)
    (hr : Returns (fun fuel ↦ writeBlockWithState hash fuel archive tie bc block) r) : OneChain hash r.2 := by
  obtain ⟨hh, rfl⟩ | ⟨hh, off, on, hsw, rfl⟩ := writeBlockWithState_cases hs he hr
  · exact oneChain_store hs he h (not_lt.mp (fun hlt ↦ hh (.inl hlt)))
  · exact oneChain_adopt hs he h hsw hh.le (hns hh.le)

end Step

theorem oneChain_new (U : BlockUniverse hash genesis) : OneChain hash (new hash genesis) := by
  have hpath := path_new U
  refine ⟨?_, ?_, ?_⟩
  · intro i hi
    obtain rfl : i = 0 := Nat.le_zero.mp (hi.trans U.genesis_number.le)
    refine ⟨genesis, hpath ▸ mem_singleton_self genesis, U.genesis_number, ?_⟩
    rw [new_canonical, update_self]
  · intro i hi
    rw [new_canonical, update_of_ne (Nat.ne_zero_of_lt hi)]
  intro n h b hk
  obtain ⟨-, rfl⟩ := new_blocks_eq_some hk
  exact le_rfl

/-- If no block below the head becomes the head, the index is that of one chain after every
call. -/
theorem reachable_oneChain (U : BlockUniverse hash genesis) {bc : BlockChain}
    (h : Reachable U NotShorter bc) : OneChain hash bc := by
  induction h with
  | new => exact oneChain_new U
  | write h he hok hr ih => exact oneChain_write (stored_of_reachable h) he ih hok hr

def plainHash (b : Block) : Hash := .ofNat 256 (b.number * 256 + b.difficulty * 16 + b.txs.length + 1)

def plainGenesis : Block := ⟨0, 1, 0, [], []⟩

def childOf (parent : Block) (difficulty : ℕ) (txs : List Hash) : Block :=
  ⟨plainHash parent, difficulty, parent.number + 1, txs, []⟩

def plainUniverse (l : List Block) (hnd : ((plainGenesis :: l).map plainHash).Nodup)
    (hne : ∀ b ∈ plainGenesis :: l, plainHash b ≠ 0) : BlockUniverse plainHash plainGenesis where
  carrier := {b | b ∈ plainGenesis :: l}
  injOn := injOn_of_nodup_map hnd
  ne_zero := hne
  genesis_mem := mem_cons_self
  genesis_number := rfl
  genesis_txs := rfl

def long1 : Block := childOf plainGenesis 1 []
def long2 : Block := childOf long1 1 []
def heavy1 : Block := childOf plainGenesis 10 []

theorem nodup_forkBlocks : ([plainGenesis, long1, long2, heavy1].map plainHash).Nodup := by decide

theorem forkBlocks_ne_zero : ∀ b ∈ [plainGenesis, long1, long2, heavy1], plainHash b ≠ 0 := by decide

def forkBlocks : BlockUniverse plainHash plainGenesis :=
  plainUniverse [long1, long2, heavy1] nodup_forkBlocks forkBlocks_ne_zero

theorem mem_forkBlocks {b : Block} (h : b ∈ [plainGenesis, long1, long2, heavy1]) :
    b ∈ forkBlocks.carrier := h

def longChain1 : BlockChain := (new plainHash plainGenesis).adopt plainHash [] [] long1
def longChain2 : BlockChain := longChain1.adopt plainHash [] [] long2
def heavyChain : BlockChain := longChain2.adopt plainHash [long2, long1] [heavy1] heavy1

theorem reachable_longChain1 {ok : BlockChain → Block → Prop} (hok : ok (.new plainHash plainGenesis) long1) :
    Reachable forkBlocks ok longChain1 := by
  have hret : Returns (fun fuel ↦ writeBlockWithState plainHash fuel true false
      (new plainHash plainGenesis) long1) (.canonStatTy, longChain1) := ⟨0, fun _ _ ↦ rfl⟩
  exact Reachable.new.write ⟨mem_forkBlocks (by decide), by decide, rfl⟩ hok hret

/-- A heavier block of the same number takes the place of the first one. -/
theorem reachable_oneChain_switched :
    ∃ bc, Reachable forkBlocks NotShorter bc ∧ bc.currentBlock = heavy1 ∧ OneChain plainHash bc := by
  have h1 : Reachable forkBlocks NotShorter longChain1 := reachable_longChain1 (fun _ ↦ by decide)
  have hret : Returns (fun fuel ↦ writeBlockWithState plainHash fuel true false longChain1 heavy1)
      (.canonStatTy, longChain1.adopt plainHash [long1] [heavy1] heavy1) := by
    refine ⟨3, fun fuel hf ↦ ?_⟩
    obtain ⟨n, rfl⟩ := Nat.exists_eq_add_of_le' hf
    rfl
  have h := h1.write ⟨mem_forkBlocks (by decide), by decide, rfl⟩ (fun _ ↦ by decide) hret
  exact ⟨_, h, rfl, reachable_oneChain forkBlocks h⟩

/-- A heavier block with a lower number becomes the head, and the numbers above it still lead
to the old chain. -/
theorem not_oneChain_heavy :
    ∃ bc, Reachable forkBlocks (fun _ _ ↦ True) bc ∧ bc.currentBlock = heavy1 ∧
      heavy1.number = 1 ∧ bc.canonical 2 = some (plainHash long2) ∧ ¬ OneChain plainHash bc := by
  have hret2 : Returns (fun fuel ↦ writeBlockWithState plainHash fuel true false longChain1 long2)
      (.canonStatTy, longChain2) := ⟨0, fun _ _ ↦ rfl⟩
  have h1 : Reachable forkBlocks (fun _ _ ↦ True) longChain1 := reachable_longChain1 trivial
  have h2 := h1.write ⟨mem_forkBlocks (by decide), by decide, rfl⟩ trivial hret2
  have hret : Returns (fun fuel ↦ writeBlockWithState plainHash fuel true false longChain2 heavy1)
      (.canonStatTy, heavyChain) := by
    refine ⟨3, fun fuel hf ↦ ?_⟩
    obtain ⟨n, rfl⟩ := Nat.exists_eq_add_of_le' hf
    rfl
  have hrun := h2.write ⟨mem_forkBlocks (by decide), by decide, rfl⟩ trivial hret
  have hstale : heavyChain.canonical 2 = some (plainHash long2) := by decide
  refine ⟨heavyChain, hrun, rfl, rfl, hstale, fun hone ↦ ?_⟩
  have hnone := hone.none_above 2 (by decide)
  cases hnone

end BlockChain

end BjutEth.Chain
