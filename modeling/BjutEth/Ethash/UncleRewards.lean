import BjutEth.Ethash.Uncles

namespace BjutEth.Ethash

open List Function UInt64 Engine

namespace Engine

variable {E : Engine}

theorem number_of_verifyHeader {now : ℤ} {header parent : Header} {uncle checkSeal : Bool}
    (h : E.verifyHeader now header parent uncle checkSeal = .ok ()) :
    header.number = parent.number + 1 := by
  by_contra hne
  have hne : header.number - parent.number ≠ 1 := by omega
  simp only [verifyHeader, if_pos hne] at h
  split_ifs at h

theorem checkUncles_eq_ok {now : ℤ} {block : Block} {ancestors : Hash → Option Header}
    {uncles : List Hash} {rest : List Header}
    (h : E.checkUncles now block ancestors uncles rest = .ok ()) :
    rest.Nodup ∧ ∀ uncle ∈ rest, E.hash uncle ∉ uncles ∧ ancestors (E.hash uncle) = none ∧
      uncle.parentHash ≠ block.header.parentHash ∧
      ∃ parent, ancestors uncle.parentHash = some parent ∧ uncle.number = parent.number + 1 := by
  induction rest generalizing uncles with
  | nil => exact ⟨nodup_nil, by simp⟩
  | cons uncle rest ih =>
    rw [checkUncles] at h
    by_cases hdup : E.hash uncle ∈ uncles
    · rw [if_pos hdup] at h
      cases h
    rw [if_neg hdup] at h
    by_cases hanc : (ancestors (E.hash uncle)).isSome = true
    · rw [if_pos hanc] at h
      cases h
    rw [if_neg hanc] at h
    cases hp : ancestors uncle.parentHash with
    | none =>
      simp only [hp] at h
      cases h
    | some parent =>
      simp only [hp] at h
      by_cases hsame : uncle.parentHash = block.header.parentHash
      · rw [if_pos hsame] at h
        cases h
      rw [if_neg hsame] at h
      cases hv : E.verifyHeader now uncle parent true true with
      | error e =>
        rw [hv] at h
        cases h
      | ok u =>
        rw [hv] at h
        obtain ⟨hnd, hall⟩ := ih h
        refine ⟨nodup_cons.mpr ⟨fun hmem ↦ ?_, hnd⟩, ?_⟩
        · exact (hall uncle hmem).1 (mem_append_right uncles (mem_singleton_self _))
        intro v hmem
        obtain rfl | hmem := mem_cons.mp hmem
        · exact ⟨hdup, Option.not_isSome_iff_eq_none.mp hanc, hsame, parent, hp,
            number_of_verifyHeader hv⟩
        · obtain ⟨hnot, hrest⟩ := hall v hmem
          exact ⟨fun hin ↦ hnot (mem_append_left _ hin), hrest⟩

end Engine

/-- A chain from the genesis block up to number `N`, each block accepted by `verifyHeader` and
`VerifyUncles` while all its ancestors can be read. -/
structure Accepted (E : Engine) (getBlock : Hash → UInt64 → Option Block) (chain : ℕ → Block) (N : ℕ) :
    Prop where
  notFake : E.fullFake = false
  genesis_number : (chain 0).header.number = 0
  genesis_uncles : (chain 0).uncles = []
  genesis_parent : getBlock (chain 0).header.parentHash (0 - 1) = none
  parent : ∀ i < N, (chain (i + 1)).header.parentHash = E.hash (chain i).header
  available : ∀ i < N, getBlock (E.hash (chain i).header) (.ofNat i) = some (chain i)
  header : ∀ i < N, ∃ now checkSeal,
    E.verifyHeader now (chain (i + 1)).header (chain i).header false checkSeal = .ok ()
  uncles : ∀ i < N, ∃ now, E.verifyUncles now getBlock (chain (i + 1)) = .ok ()

namespace Accepted

variable {E : Engine} {getBlock : Hash → UInt64 → Option Block} {chain : ℕ → Block} {N : ℕ}

theorem number_eq (h : Accepted E getBlock chain N) {i : ℕ} (hi : i ≤ N) :
    (chain i).header.number = i := by
  induction i with
  | zero => exact h.genesis_number
  | succ i ih =>
    obtain ⟨now, checkSeal, hv⟩ := h.header i hi
    rw [number_of_verifyHeader hv, ih (by omega)]
    rfl

/-- The gathered headers are those of the blocks from `lo` to `top`, and the uncles of these
blocks are remembered. -/
structure Covers (E : Engine) (chain : ℕ → Block) (lo top : ℕ) (ancestors : Hash → Option Header)
    (uncles : List Hash) : Prop where
  found : ∀ j, lo ≤ j → j ≤ top → (ancestors (E.hash (chain j).header)).isSome = true
  only : ∀ hash hd, ancestors hash = some hd →
    ∃ j, lo ≤ j ∧ j ≤ top ∧ hash = E.hash (chain j).header ∧ hd = (chain j).header
  uncles : ∀ j, lo ≤ j → j ≤ top → ∀ u ∈ (chain j).uncles, E.hash u ∈ uncles

theorem Covers.step {i top : ℕ} {ancestors : Hash → Option Header} {uncles : List Hash}
    (hc : Covers E chain (i + 1) top ancestors uncles) (hi : i ≤ top) :
    Covers E chain i top
      (Function.update ancestors (E.hash (chain i).header) (some (chain i).header))
      (uncles ++ (chain i).uncles.map E.hash) := by
  refine ⟨?_, ?_, ?_⟩
  · intro j hij hj
    by_cases hash : E.hash (chain j).header = E.hash (chain i).header
    · rw [hash, update_self]
      rfl
    rw [update_of_ne hash]
    have hne : j ≠ i := fun h ↦ hash (by rw [h])
    exact hc.found j (by omega) hj
  · intro hash hd hhd
    by_cases heq : hash = E.hash (chain i).header
    · rw [heq, update_self] at hhd
      exact ⟨i, le_rfl, hi, heq, (Option.some.inj hhd).symm⟩
    rw [update_of_ne heq] at hhd
    obtain ⟨j, hij, hj, h⟩ := hc.only hash hd hhd
    exact ⟨j, by omega, hj, h⟩
  intro j hij hj u hu
  rw [mem_append]
  by_cases hne : j = i
  · subst hne
    exact .inr (List.mem_map_of_mem hu)
  · exact .inl (hc.uncles j (by omega) hj u hu)

theorem ofNat_succ_sub_one (i : ℕ) : ofNat (i + 1) - 1 = ofNat i := by
  rw [ofNat_add]
  exact UInt64.add_sub_cancel _ _

theorem gather_covers (h : Accepted E getBlock chain N) (k : ℕ) {i top : ℕ} (hi : i < N) (htop : i ≤ top)
    {ancestors : Hash → Option Header} {uncles : List Hash}
    (hc : Covers E chain (i + 1) top ancestors uncles) :
    Covers E chain (i + 1 - k) top
      (E.gather getBlock k (E.hash (chain i).header) (.ofNat i) ancestors uncles).1
      (E.gather getBlock k (E.hash (chain i).header) (.ofNat i) ancestors uncles).2 := by
  induction k generalizing i ancestors uncles with
  | zero => exact hc
  | succ k ih =>
    have hstep := hc.step htop
    rw [gather, h.available i hi]
    cases i with
    | zero =>
      have hstop : ∀ anc us, E.gather getBlock k (chain 0).header.parentHash (ofNat 0 - 1) anc us =
          (anc, us) := by
        intro anc us
        cases k with
        | zero => rfl
        | succ k =>
          have hnone : getBlock (chain 0).header.parentHash (ofNat 0 - 1) = none :=
            h.genesis_parent
          rw [gather, hnone]
      simp only [hstop]
      rw [show 0 + 1 - (k + 1) = 0 by omega]
      exact hstep
    | succ i =>
      rw [show i + 1 + 1 - (k + 1) = i + 1 - k by omega]
      simp only [h.parent i (by omega), ofNat_succ_sub_one]
      exact ih (by omega) (by omega) hstep

theorem uncle_facts (h : Accepted E getBlock chain N) {i : ℕ} (hi : i < N)
    (hown : ∀ uncle ∈ (chain (i + 1)).uncles, uncle.parentHash ≠ E.hash (chain (i + 1)).header) :
    (chain (i + 1)).uncles.Nodup ∧ ∀ uncle ∈ (chain (i + 1)).uncles,
      (∃ j, i + 1 - 7 ≤ j ∧ j < i ∧ uncle.number = j + 1) ∧
      (∀ j, i + 1 - 7 ≤ j → j ≤ i → uncle ≠ (chain j).header ∧ uncle ∉ (chain j).uncles) := by
  obtain ⟨now, hv⟩ := h.uncles i hi
  have hnum : ofNat (chain (i + 1)).header.number.natAbs - 1 = .ofNat i := by
    rw [h.number_eq hi, Int.natAbs_natCast]
    exact ofNat_succ_sub_one i
  have hnil : Covers E chain (i + 1) i (fun _ ↦ none) [] := by
    refine ⟨?_, ?_, ?_⟩
    · intro j hj hji
      omega
    · intro hash hd hhd
      cases hhd
    · intro j hj hji
      omega
  have hcov := gather_covers h 7 hi le_rfl hnil
  have hfake : ¬ E.fullFake = true := by
    rw [h.notFake]
    decide
  have hmax : ¬ maxUncles < (chain (i + 1)).uncles.length := by
    intro hlt
    rw [verifyUncles, if_neg hfake, if_pos hlt] at hv
    cases hv
  rw [verifyUncles, if_neg hfake, if_neg hmax, h.parent i hi, hnum] at hv
  generalize E.gather getBlock 7 (E.hash (chain i).header) (.ofNat i) (fun _ ↦ none) [] = r at hv hcov
  obtain ⟨ancestors, uncles⟩ := r
  replace hcov : Covers E chain (i + 1 - 7) i ancestors uncles := hcov
  obtain ⟨hnd, hall⟩ := checkUncles_eq_ok hv
  refine ⟨hnd, fun uncle hmem ↦ ?_⟩
  obtain ⟨hnew, hanc, hpar, parent, hp, hn⟩ := hall uncle hmem
  have hself : E.hash uncle ≠ E.hash (chain (i + 1)).header := by
    intro heq
    rw [heq, update_self] at hanc
    cases hanc
  rw [update_of_ne hself] at hanc
  rw [update_of_ne (hown uncle hmem)] at hp
  obtain ⟨j, hlo, hji, hpj, rfl⟩ := hcov.only _ _ hp
  refine ⟨⟨j, hlo, ?_, ?_⟩, ?_⟩
  · rw [h.parent i hi, hpj] at hpar
    have hne : j ≠ i := fun h ↦ hpar (by rw [h])
    omega
  · rw [hn, h.number_eq (by omega)]
  intro m hm hmi
  refine ⟨?_, ?_⟩
  · rintro rfl
    have := hcov.found m hm hmi
    rw [hanc] at this
    cases this
  · intro hu
    exact hnew (mem_append_left _ (hcov.uncles m hm hmi uncle hu))

end Accepted

theorem blockReward_pos (byzantiumBlock : Option ℤ) (header : Header) :
    0 < blockReward byzantiumBlock header := by
  rw [blockReward]
  split
  · decide
  · decide

theorem uncleReward_bounds {R : ℤ} (hR : 0 < R) {header uncle : Header}
    (hlo : header.number - 6 ≤ uncle.number) (hhi : uncle.number ≤ header.number - 1) :
    2 * R / 8 ≤ uncleReward R header uncle ∧ uncleReward R header uncle ≤ 7 * R / 8 := by
  have hlow : 2 * R ≤ (uncle.number + 8 - header.number) * R :=
    mul_le_mul_of_nonneg_right (by omega) hR.le
  have hhigh : (uncle.number + 8 - header.number) * R ≤ 7 * R :=
    mul_le_mul_of_nonneg_right (by omega) hR.le
  exact ⟨Int.ediv_le_ediv (by norm_num) hlow, Int.ediv_le_ediv (by norm_num) hhigh⟩

theorem addBalance_apply (balances : Address → ℤ) (a addr : Address) (amount : ℤ) :
    addBalance balances a amount addr = balances addr + if addr = a then amount else 0 := by
  rw [addBalance]
  by_cases h : addr = a
  · rw [h, update_self, if_pos rfl]
  · rw [update_of_ne h, if_neg h, add_zero]

theorem foldl_rewards (R : ℤ) (header : Header) (uncles : List Header) (addr : Address)
    (balances : Address → ℤ) (reward : ℤ) :
    let r := uncles.foldl (fun (s : (Address → ℤ) × ℤ) uncle ↦
      (addBalance s.1 uncle.coinbase (uncleReward R header uncle), s.2 + R / 32)) (balances, reward)
    r.1 addr = balances addr +
        ((uncles.filter fun u ↦ addr = u.coinbase).map (uncleReward R header)).sum ∧
      r.2 = reward + uncles.length * (R / 32) := by
  induction uncles generalizing balances reward with
  | nil => simp
  | cons uncle uncles ih =>
    obtain ⟨hbal, hrew⟩ := ih (addBalance balances uncle.coinbase (uncleReward R header uncle)) (reward + R / 32)
    refine ⟨?_, ?_⟩
    · rw [foldl_cons, hbal, addBalance_apply, filter_cons]
      by_cases h : addr = uncle.coinbase
      · simp only [h, if_true, decide_true, map_cons, sum_cons]
        ring
      · simp only [h, if_false, decide_false, Bool.false_eq_true, add_zero]
    rw [foldl_cons, hrew, length_cons]
    push_cast
    ring

theorem accumulateRewards_apply (byzantiumBlock : Option ℤ) (balances : Address → ℤ) (header : Header)
    (uncles : List Header) (addr : Address) :
    let R := blockReward byzantiumBlock header
    accumulateRewards byzantiumBlock balances header uncles addr = balances addr +
      ((uncles.filter fun u ↦ addr = u.coinbase).map (uncleReward R header)).sum +
      if addr = header.coinbase then R + uncles.length * (R / 32) else 0 := by
  intro R
  obtain ⟨hbal, hrew⟩ := foldl_rewards R header uncles addr balances R
  change addBalance _ header.coinbase _ addr = _
  rw [addBalance_apply, hbal, hrew]

/-- On an accepted chain in which no block is the parent of its own uncle, an uncle is included
once, is not on the chain, and is one to six numbers below its block. -/
theorem accepted_uncles {E : Engine} {getBlock : Hash → UInt64 → Option Block} {chain : ℕ → Block} {N : ℕ}
    (h : Accepted E getBlock chain N)
    (hown : ∀ i ≤ N, ∀ uncle ∈ (chain i).uncles, uncle.parentHash ≠ E.hash (chain i).header)
    (byzantiumBlock : Option ℤ) {b : ℕ} (hb : b ≤ N) {uncle : Header} (hu : uncle ∈ (chain b).uncles) :
    (chain b).uncles.count uncle = 1 ∧ (∀ b' ≤ N, uncle ∈ (chain b').uncles → b' = b) ∧
      (∀ i ≤ N, uncle ≠ (chain i).header) ∧
      (b : ℤ) - 6 ≤ uncle.number ∧ uncle.number ≤ (b : ℤ) - 1 ∧
      2 * blockReward byzantiumBlock (chain b).header / 8 ≤
        uncleReward (blockReward byzantiumBlock (chain b).header) (chain b).header uncle ∧
      uncleReward (blockReward byzantiumBlock (chain b).header) (chain b).header uncle ≤
        7 * blockReward byzantiumBlock (chain b).header / 8 := by
  -- the facts for any block that includes the uncle
  have hfacts : ∀ b' ≤ N, uncle ∈ (chain b').uncles → (chain b').uncles.Nodup ∧
      (b' : ℤ) - 6 ≤ uncle.number ∧ uncle.number ≤ (b' : ℤ) - 1 ∧ 1 ≤ uncle.number ∧
      ∀ j, b' ≤ j + 7 → j < b' → uncle ≠ (chain j).header ∧ uncle ∉ (chain j).uncles := by
    intro b' hb' hu'
    cases b' with
    | zero =>
      rw [h.genesis_uncles] at hu'
      cases hu'
    | succ i =>
      obtain ⟨hnd, hall⟩ := h.uncle_facts hb' (hown (i + 1) hb')
      obtain ⟨⟨j, hlo, hji, hn⟩, hrest⟩ := hall uncle hu'
      refine ⟨hnd, by omega, by omega, by omega, ?_⟩
      intro m hm hmi
      exact hrest m (by omega) (by omega)
  obtain ⟨hnd, hlo, hhi, hpos, hnot⟩ := hfacts b hb hu
  refine ⟨count_eq_one_of_mem hnd hu, ?_, ?_, hlo, hhi, ?_⟩
  · intro b' hb' hu'
    obtain ⟨-, hlo', hhi', -, hnot'⟩ := hfacts b' hb' hu'
    rcases lt_trichotomy b' b with hlt | heq | hgt
    · exact absurd hu' (hnot b' (by omega) hlt).2
    · exact heq
    · exact absurd hu (hnot' b (by omega) hgt).2
  · rintro i hi rfl
    rw [h.number_eq hi] at hlo hhi
    exact (hnot i (by omega) (by omega)).1 rfl
  · rw [← h.number_eq hb] at hlo hhi
    exact uncleReward_bounds (blockReward_pos byzantiumBlock _) hlo hhi

def plainHeader (parentHash : Hash) (number : ℤ) (rest : Bytes) : Header :=
  ⟨parentHash, 0, 1, number, 1000000, 0, number, [], rest⟩

def plainEngine : Engine where
  hash hd := .ofNat 256 (hd.number.natAbs * 16 + hd.rest.length + 1)
  calcDifficulty _ _ := 1
  verifySeal _ := true
  fullFake := false

def plainChild (parent : Header) (rest : Bytes) : Header :=
  plainHeader (plainEngine.hash parent) (parent.number + 1) rest

def blocksOf (l : List Block) (h : Hash) (number : UInt64) : Option Block :=
  l.find? fun b ↦ plainEngine.hash b.header = h ∧ UInt64.ofNat b.header.number.natAbs = number

def block0 : Block := ⟨plainHeader 0 0 [], []⟩
def block1 : Block := ⟨plainChild block0.header [], []⟩
def block2 : Block := ⟨plainChild block1.header [], [plainChild block0.header [1]]⟩

def goodChain : ℕ → Block
  | 0 => block0
  | 1 => block1
  | _ => block2

theorem accepted_goodChain : Accepted plainEngine (blocksOf [block0, block1]) goodChain 2 where
  notFake := rfl
  genesis_number := rfl
  genesis_uncles := rfl
  genesis_parent := by decide
  parent i hi := by interval_cases i <;> decide
  available i hi := by interval_cases i <;> rfl
  header i hi := ⟨10, true, by interval_cases i <;> decide⟩
  uncles i hi := ⟨10, by interval_cases i <;> decide⟩

theorem accepted_uncles_good : Accepted plainEngine (blocksOf [block0, block1]) goodChain 2 ∧
    ∃ uncle ∈ block2.uncles, (2 : ℤ) - 6 ≤ uncle.number ∧ uncle.number ≤ (2 : ℤ) - 1 := by
  have hown : ∀ i ≤ 2, ∀ uncle ∈ (goodChain i).uncles,
      uncle.parentHash ≠ plainEngine.hash (goodChain i).header := by
    intro i hi
    interval_cases i <;> decide
  have hmem : plainChild block0.header [1] ∈ (goodChain 2).uncles := mem_singleton_self _
  obtain ⟨-, -, -, hlo, hhi, -⟩ := accepted_uncles accepted_goodChain hown none le_rfl hmem
  exact ⟨accepted_goodChain, _, hmem, hlo, hhi⟩

def selfBlock : Block := ⟨plainChild block0.header [], [plainChild (plainChild block0.header []) []]⟩

def selfChain : ℕ → Block
  | 0 => block0
  | _ => selfBlock

/-- `VerifyUncles` accepts an uncle whose parent is the block that includes it. -/
theorem accepted_self : Accepted plainEngine (blocksOf [block0]) selfChain 1 ∧
    ∃ uncle ∈ (selfChain 1).uncles, uncle.number = 2 ∧
      uncleReward frontierBlockReward (selfChain 1).header uncle = 9 * frontierBlockReward / 8 := by
  refine ⟨⟨rfl, rfl, rfl, by decide, ?_, ?_, ?_, ?_⟩, _, mem_singleton_self _, rfl, by decide⟩
  · intro i hi
    interval_cases i
    decide
  · intro i hi
    interval_cases i
    rfl
  · intro i hi
    interval_cases i
    exact ⟨10, true, by decide⟩
  intro i hi
  interval_cases i
  exact ⟨10, by decide⟩

end BjutEth.Ethash
