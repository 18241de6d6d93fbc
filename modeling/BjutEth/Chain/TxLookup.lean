import BjutEth.Chain.BlockForks

namespace BjutEth.Chain

open Outcome List Block

section Entries

variable {hash : Block → Hash} {chain : List Block} {tx : Hash} {e e' : TxLookupEntry}

theorem map_fst_entriesOf (b : Block) : (entriesOf hash b).map Prod.fst = b.txs := by
  rw [entriesOf, map_map]
  exact zipIdx_map_fst 0 b.txs

theorem map_fst_entries (chain : List Block) :
    (chain.flatMap (entriesOf hash)).map Prod.fst = chain.flatMap txs := by
  simp only [map_flatMap, map_fst_entriesOf]

theorem mem_txs_of_mem_entries (h : (tx, e) ∈ chain.flatMap (entriesOf hash)) :
    tx ∈ chain.flatMap txs := by
  rw [← @map_fst_entries hash chain]
  exact mem_map.mpr ⟨(tx, e), h, rfl⟩

theorem exists_entry (h : tx ∈ chain.flatMap txs) :
    ∃ e, (tx, e) ∈ chain.flatMap (entriesOf hash) := by
  rw [← @map_fst_entries hash chain] at h
  obtain ⟨⟨tx', e⟩, he, rfl⟩ := mem_map.mp h
  exact ⟨e, he⟩

theorem entry_unique (hnd : (chain.flatMap txs).Nodup)
    (h : (tx, e) ∈ chain.flatMap (entriesOf hash)) (h' : (tx, e') ∈ chain.flatMap (entriesOf hash)) :
    e = e' := by
  rw [← @map_fst_entries hash chain] at hnd
  exact congrArg Prod.snd (inj_on_of_nodup_map hnd h h' rfl)

theorem mem_entries_iff : (tx, e) ∈ chain.flatMap (entriesOf hash) ↔
    ∃ b ∈ chain, e.blockHash = hash b ∧ e.blockIndex = b.number ∧ b.txs[e.index]? = some tx := by
  simp only [mem_flatMap, entriesOf, mem_map, Prod.exists]
  refine exists_congr fun b ↦ and_congr_right fun _ ↦ ⟨?_, ?_⟩
  · rintro ⟨tx', i, hi, heq⟩
    cases heq
    exact ⟨rfl, rfl, mk_mem_zipIdx_iff_getElem?.mp hi⟩
  rintro ⟨hh, hn, hi⟩
  refine ⟨tx, e.index, mk_mem_zipIdx_iff_getElem?.mpr hi, ?_⟩
  rw [← hh, ← hn]

theorem mem_txDifference {a b : List Hash} : tx ∈ txDifference a b ↔ tx ∈ a ∧ tx ∉ b := by
  rw [txDifference, mem_filter, decide_eq_true_iff]

end Entries

namespace BlockChain

variable {hash : Block → Hash} {genesis : Block} {U : BlockUniverse hash genesis} {bc : BlockChain}
  {block parent : Block} {off on : List Block}

def NoRepeat (bc : BlockChain) (block : Block) : Prop := ((bc.path block).flatMap txs).Nodup

def Indexed (hash : Block → Hash) (bc : BlockChain) : Prop :=
  ∀ tx e, bc.lookups tx = some e ↔ (tx, e) ∈ (bc.path bc.currentBlock).flatMap (entriesOf hash)

theorem adopt_lookups : (bc.adopt hash off on block).lookups =
    writeAll (entriesOf hash block)
      (deleteAll (txDifference (off.flatMap txs) (on.flatMap txs))
        (writeAll (on.flatMap (entriesOf hash)) bc.lookups)) := rfl

theorem lookups_adopt_of_mem (hsw : Switch bc block off on) (hnr : NoRepeat bc block) {tx : Hash}
    {e : TxLookupEntry} (he : (tx, e) ∈ (on ++ [block]).flatMap (entriesOf hash)) :
    (bc.adopt hash off on block).lookups tx = some e := by
  have hpath : ∀ b ∈ on ++ [block], ∀ e', (tx, e') ∈ entriesOf hash b → e' = e := by
    intro b hb e' he'
    obtain ⟨c, hc, hce⟩ := mem_flatMap.mp he
    exact entry_unique hnr (mem_flatMap.mpr ⟨b, hsw.mem_path hb, he'⟩)
      (mem_flatMap.mpr ⟨c, hsw.mem_path hc, hce⟩)
  rw [adopt_lookups]
  by_cases hblock : (tx, e) ∈ entriesOf hash block
  · refine writeAll_of_mem hblock ?_ _
    rintro ⟨tx', e'⟩ he' rfl
    exact hpath block (mem_append_right on (mem_singleton_self block)) e' he'
  have hon : (tx, e) ∈ on.flatMap (entriesOf hash) := by
    rw [flatMap_append, flatMap_singleton, mem_append] at he
    exact he.resolve_right hblock
  have hskip : ∀ e' ∈ entriesOf hash block, e'.1 ≠ tx := by
    rintro ⟨tx', e'⟩ he' rfl
    have := hpath block (mem_append_right on (mem_singleton_self block)) e' he'
    exact hblock (this ▸ he')
  rw [writeAll_of_forall_ne hskip, deleteAll_of_notMem]
  · refine writeAll_of_mem hon ?_ _
    rintro ⟨tx', e'⟩ he' rfl
    obtain ⟨b, hb, hbe⟩ := mem_flatMap.mp he'
    exact hpath b (mem_append_left [block] hb) e' hbe
  · rw [mem_txDifference]
    exact fun h ↦ h.2 (mem_txs_of_mem_entries hon)

theorem lookups_adopt_of_notMem {tx : Hash} (h : tx ∉ (on ++ [block]).flatMap txs) :
    (bc.adopt hash off on block).lookups tx =
      if tx ∈ off.flatMap txs then none else bc.lookups tx := by
  rw [flatMap_append, flatMap_singleton, mem_append, not_or] at h
  have hblock : ∀ e ∈ entriesOf hash block, e.1 ≠ tx := by
    rintro ⟨tx', e⟩ he rfl
    refine h.2 ?_
    rw [← @map_fst_entriesOf hash block]
    exact mem_map.mpr ⟨_, he, rfl⟩
  rw [adopt_lookups, writeAll_of_forall_ne hblock]
  by_cases hoff : tx ∈ off.flatMap txs
  · rw [if_pos hoff, deleteAll_of_mem (mem_txDifference.mpr ⟨hoff, h.1⟩)]
  have hkeep : tx ∉ txDifference (off.flatMap txs) (on.flatMap txs) :=
    fun hd ↦ hoff (mem_txDifference.mp hd).1
  rw [if_neg hoff, deleteAll_of_notMem hkeep]
  refine writeAll_of_forall_ne ?_ _
  rintro ⟨tx', e⟩ he rfl
  exact h.1 (mem_txs_of_mem_entries he)

theorem indexed_adopt (hs : Stored U bc) (he : Extends U bc block parent) (h : Indexed hash bc)
    (hcur : NoRepeat bc bc.currentBlock) (hnr : NoRepeat bc block) (hsw : Switch bc block off on) :
    Indexed hash (bc.adopt hash off on block) := by
  have hpath : (bc.adopt hash off on block).path block = bc.path block :=
    path_store hs he.mem (he.linked hs)
  intro tx e
  change _ ↔ (tx, e) ∈ ((bc.adopt hash off on block).path block).flatMap (entriesOf hash)
  rw [hpath]
  by_cases htx : tx ∈ (on ++ [block]).flatMap txs
  · -- the transaction is in a block that was put on
    obtain ⟨e0, he0⟩ := @exists_entry hash _ _ htx
    have hmem : (tx, e0) ∈ (bc.path block).flatMap (entriesOf hash) := by
      obtain ⟨b, hb, hbe⟩ := mem_flatMap.mp he0
      exact mem_flatMap.mpr ⟨b, hsw.mem_path hb, hbe⟩
    rw [lookups_adopt_of_mem hsw hnr he0, Option.some_inj]
    refine ⟨fun h ↦ h ▸ hmem, fun h ↦ entry_unique hnr hmem h⟩
  rw [lookups_adopt_of_notMem htx]
  obtain ⟨new, rest, hold, hnew, hon⟩ := hsw
  have hrest : (tx, e) ∈ (bc.path block).flatMap (entriesOf hash) ↔
      (tx, e) ∈ rest.flatMap (entriesOf hash) := by
    rw [hnew, flatMap_append, mem_append, or_iff_right]
    intro hmem
    obtain ⟨b, hb, hbe⟩ := mem_flatMap.mp hmem
    have hput : b ∈ on ++ [block] := by
      rw [mem_append, mem_singleton]
      exact (hon b).mp (.inl hb)
    exact htx (mem_txs_of_mem_entries (mem_flatMap.mpr ⟨b, hput, hbe⟩))
  rw [NoRepeat, hold, flatMap_append, nodup_append] at hcur
  rw [hrest]
  split_ifs with hoff
  · refine ⟨by simp, fun hmem ↦ ?_⟩
    exact absurd rfl (hcur.2.2 tx hoff tx (mem_txs_of_mem_entries hmem))
  · rw [h tx e, hold, flatMap_append, mem_append, or_iff_right]
    exact fun hmem ↦ hoff (mem_txs_of_mem_entries hmem)

theorem indexed_store (hs : Stored U bc) (hU : block ∈ U.carrier) (h : Indexed hash bc) :
    Indexed hash (bc.store hash block) := by
  have hpath : (bc.store hash block).path bc.currentBlock = bc.path bc.currentBlock :=
    path_store hs hU (current_linked hs)
  intro tx e
  change bc.lookups tx = some e ↔
    (tx, e) ∈ ((bc.store hash block).path bc.currentBlock).flatMap (entriesOf hash)
  rw [hpath]
  exact h tx e

theorem indexed_new (U : BlockUniverse hash genesis) : Indexed hash (new hash genesis) := by
  intro tx e
  change none = some e ↔ (tx, e) ∈ ((new hash genesis).path genesis).flatMap (entriesOf hash)
  rw [path_new U, flatMap_singleton, entriesOf, U.genesis_txs]
  refine ⟨by simp, by simp⟩

theorem noRepeat_new (U : BlockUniverse hash genesis) :
    NoRepeat (new hash genesis) genesis := by
  rw [NoRepeat, path_new U, flatMap_singleton, U.genesis_txs]
  exact nodup_nil

theorem indexed_of_reachable (h : Reachable U NoRepeat bc) :
    Indexed hash bc ∧ NoRepeat bc bc.currentBlock := by
  induction h with
  | new => exact ⟨indexed_new U, noRepeat_new U⟩
  | @write bc block parent archive tie r h he hnr hr ih =>
    have hs := stored_of_reachable h
    obtain ⟨-, rfl⟩ | ⟨-, off, on, hsw, rfl⟩ := writeBlockWithState_cases hs he hr
    · refine ⟨indexed_store hs he.mem ih.1, ?_⟩
      have hpath : (bc.store hash block).path bc.currentBlock = bc.path bc.currentBlock :=
        path_store hs he.mem (current_linked hs)
      change NoRepeat (bc.store hash block) bc.currentBlock
      rw [NoRepeat, hpath]
      exact ih.2
    refine ⟨indexed_adopt hs he ih.1 ih.2 hnr hsw, ?_⟩
    have hpath : (bc.adopt hash off on block).path block = bc.path block :=
      path_store hs he.mem (he.linked hs)
    change NoRepeat (bc.adopt hash off on block) block
    rw [NoRepeat, hpath]
    exact hnr

/-- Whatever forks there are, after each call the entries are those of the transactions on the
path from the genesis block to the head. -/
theorem reachable_lookups (U : BlockUniverse hash genesis) {bc : BlockChain}
    (h : Reachable U NoRepeat bc) (tx : Hash) (e : TxLookupEntry) :
    bc.lookups tx = some e ↔ ∃ b ∈ bc.path bc.currentBlock,
      e.blockHash = hash b ∧ e.blockIndex = b.number ∧ b.txs[e.index]? = some tx := by
  rw [(indexed_of_reachable h).1 tx e, mem_entries_iff]

def pay1 : Block := childOf plainGenesis 1 [5]
def pay2 : Block := childOf pay1 1 [6]
def rival1 : Block := childOf plainGenesis 10 [7, 6]

theorem nodup_payBlocks : ([plainGenesis, pay1, pay2, rival1].map plainHash).Nodup := by decide

theorem payBlocks_ne_zero : ∀ b ∈ [plainGenesis, pay1, pay2, rival1], plainHash b ≠ 0 := by decide

def payBlocks : BlockUniverse plainHash plainGenesis :=
  plainUniverse [pay1, pay2, rival1] nodup_payBlocks payBlocks_ne_zero

theorem mem_payBlocks {b : Block} (h : b ∈ [plainGenesis, pay1, pay2, rival1]) :
    b ∈ payBlocks.carrier := h

def payChain1 : BlockChain := (new plainHash plainGenesis).adopt plainHash [] [] pay1
def payChain2 : BlockChain := payChain1.adopt plainHash [] [] pay2

theorem reachable_payChain2 : Reachable payBlocks NoRepeat payChain2 := by
  have hret1 : Returns (fun fuel ↦ writeBlockWithState plainHash fuel true false
      (new plainHash plainGenesis) pay1) (.canonStatTy, payChain1) := ⟨0, fun _ _ ↦ rfl⟩
  have hret2 : Returns (fun fuel ↦ writeBlockWithState plainHash fuel true false payChain1 pay2)
      (.canonStatTy, payChain2) := ⟨0, fun _ _ ↦ rfl⟩
  have hnr1 : NoRepeat (new plainHash plainGenesis) pay1 :=
    (by decide : (((new plainHash plainGenesis).path pay1).flatMap txs).Nodup)
  have hnr2 : NoRepeat payChain1 pay2 :=
    (by decide : ((payChain1.path pay2).flatMap txs).Nodup)
  have h1 := Reachable.new.write ⟨mem_payBlocks (by decide), by decide, rfl⟩ hnr1 hret1
  exact h1.write ⟨mem_payBlocks (by decide), by decide, rfl⟩ hnr2 hret2

theorem reachable_lookups_rival : payChain2.lookups 6 = some ⟨plainHash pay2, 2, 0⟩ ∧
    ∃ bc, Reachable payBlocks NoRepeat bc ∧ bc.currentBlock = rival1 ∧
      bc.lookups 6 = some ⟨plainHash rival1, 1, 1⟩ := by
  refine ⟨by decide, ?_⟩
  have he : Extends payBlocks payChain2 rival1 plainGenesis :=
    ⟨mem_payBlocks (by decide), by decide, rfl⟩
  have hheavier : Heavier payChain2 false rival1 := .inl (by decide)
  have hnr : NoRepeat payChain2 rival1 :=
    (by decide : ((payChain2.path rival1).flatMap txs).Nodup)
  have hcoll : Collectable payChain2 true rival1 := fun h ↦ (by cases h)
  obtain ⟨off, on, -, hret⟩ :=
    writeBlockWithState_canon (stored_of_reachable reachable_payChain2) he hcoll hheavier
  have hrun := reachable_payChain2.write he hnr hret
  refine ⟨_, hrun, rfl, ?_⟩
  exact (reachable_lookups payBlocks hrun 6 _).mpr ⟨rival1, mem_pathDown_self, rfl, rfl, rfl⟩

end BlockChain

end BjutEth.Chain
