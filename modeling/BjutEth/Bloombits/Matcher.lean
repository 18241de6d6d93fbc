import BjutEth.Bloombits.Generator

namespace BjutEth.Bloombits

open List hiding le_trans lt_of_le_of_lt
open List (range')
open Nat

/-- A section in which the sub-matchers so far have found the blocks of `bitset`. -/
structure PartialMatches where
  sec : ℕ
  bitset : Bytes

abbrev Filter := List (List (Option Bytes))

def newMatcher (keccak : Bytes → Fin 32 → UInt8) (filters : Filter) : List (List (List ℕ)) :=
  filters.filterMap fun group ↦
    if group.length = 0 then none
    else group.mapM (fun clause ↦ clause.map (calcBloomIndexes keccak))

def copyBytes (n : ℕ) (data : Bytes) : Bytes :=
  data.take n ++ List.replicate (n - data.length) 0

section Pipeline

variable (size : ℕ) (deliver : ℕ → ℕ → Bytes)

/-- The vector of one clause in a section, `deliver` being what the schedulers send for a bit and
a section; nil for no bits. -/
def andVector (sec : ℕ) (bits : List ℕ) : Option Bytes :=
  bits.foldl (fun acc bit ↦
    match acc with
    | none => some (copyBytes (size / 8) (deliver bit sec))
    | some v => some (andBytes v (deliver bit sec))) none

def orVector (sec : ℕ) (bloom : List (List ℕ)) : Option Bytes :=
  bloom.foldl (fun acc bits ↦
    match acc with
    | none => andVector size deliver sec bits
    | some v => some (orBytes v ((andVector size deliver sec bits).getD []))) none

def subMatch (bloom : List (List ℕ)) (subres : PartialMatches) : Option PartialMatches :=
  let v := andBytes ((orVector size deliver subres.sec bloom).getD (List.replicate (size / 8) 0))
    subres.bitset
  if testBytes v then some ⟨subres.sec, v⟩ else none

def run (filters : List (List (List ℕ))) (begin stop : ℕ) : List PartialMatches :=
  filters.foldl (fun source bloom ↦ source.filterMap (subMatch size deliver bloom))
    ((List.range' (begin / size) (stop / size + 1 - begin / size)).map
      fun i ↦ ⟨i, List.replicate (size / 8) 255⟩)

def scan (bitset : Bytes) (sectionStart last : ℕ) : ℕ → ℕ → Go (List ℕ)
  | 0, _ => .error .hang
  | fuel + 1, i =>
    if last < i then .ok []
    else
      match bitset[(i + (2 ^ 64 - sectionStart)) % 2 ^ 64 / 8]? with
      | none => .error .panic
      | some next =>
        if next = 0 then
          -- `i += 7` and then the `i++` of the loop
          if i % 8 = 0 then scan bitset sectionStart last fuel ((i + 8) % 2 ^ 64)
          else scan bitset sectionStart last fuel ((i + 1) % 2 ^ 64)
        else if next &&& byteMask (7 - i % 8) ≠ 0 then
          (scan bitset sectionStart last fuel ((i + 1) % 2 ^ 64)).map (i :: ·)
        else scan bitset sectionStart last fuel ((i + 1) % 2 ^ 64)

def scanSection (fuel begin stop : ℕ) (res : PartialMatches) : Go (List ℕ) :=
  scan res.bitset (res.sec * size) (min stop (res.sec * size + size - 1)) fuel
    (max begin (res.sec * size))

def start (fuel : ℕ) (filters : List (List (List ℕ))) (begin stop : ℕ) : Go (List ℕ) :=
  (run size deliver filters begin stop).foldlM
    (fun sent res ↦ do
      let found ← scanSection size fuel begin stop res
      pure (sent ++ found)) []

end Pipeline

def bloomHas (b : Bloom) (bits : List ℕ) : Bool := bits.all fun bit ↦ b.big.testBit bit

def bloomMatches (filters : List (List (List ℕ))) (b : Bloom) : Bool :=
  filters.all fun bloom ↦ bloom.any (bloomHas b)

/-- The filter as a predicate on blooms: each group without nil clause that is not empty has a
clause with all three bits set. -/
def Filter.Matches (keccak : Bytes → Fin 32 → UInt8) (filters : Filter) (b : Bloom) : Prop :=
  ∀ group ∈ filters, group ≠ [] → none ∉ group →
    ∃ clause, some clause ∈ group ∧ ∀ bit ∈ calcBloomIndexes keccak clause, b.big.testBit bit = true

theorem mapM_option_eq {α β : Type} [DecidableEq α] (f : α → β) (l : List (Option α)) :
    l.mapM (fun o ↦ o.map f) = if none ∈ l then none else some (l.filterMap (·.map f)) := by
  induction l with
  | nil => rfl
  | cons o l ih =>
    cases o with
    | none => simp
    | some a =>
      rw [mapM_cons, ih]
      by_cases h : none ∈ l
      · simp [h]
      · simp [h]

theorem bloomMatches_newMatcher (keccak : Bytes → Fin 32 → UInt8) (filters : Filter)
    (b : Bloom) :
    bloomMatches (newMatcher keccak filters) b = true ↔ filters.Matches keccak b := by
  have hgrp : ∀ group : List (Option Bytes),
      (group.filterMap (·.map (calcBloomIndexes keccak))).any (bloomHas b) = true ↔
        ∃ clause, some clause ∈ group ∧ ∀ bit ∈ calcBloomIndexes keccak clause,
          b.big.testBit bit = true := by
    intro group
    simp only [any_eq_true, mem_filterMap, Option.map_eq_some_iff, bloomHas, all_eq_true]
    constructor
    · rintro ⟨bits, ⟨o, ho, clause, rfl, rfl⟩, hall⟩
      exact ⟨clause, ho, hall⟩
    · rintro ⟨clause, hmem, hall⟩
      exact ⟨_, ⟨some clause, hmem, clause, rfl, rfl⟩, hall⟩
  simp only [bloomMatches, newMatcher, all_eq_true, mem_filterMap, mapM_option_eq]
  constructor
  · intro h group hmem hne hnone
    refine (hgrp group).mp (h _ ⟨group, hmem, ?_⟩)
    rw [if_neg (by simpa using hne), if_neg hnone]
  rintro h bloom ⟨group, hmem, heq⟩
  split_ifs at heq with h0 hnone
  cases heq
  exact (hgrp group).mpr (h group hmem (by simpa using h0) hnone)

theorem bits_of_mem_newMatcher {keccak : Bytes → Fin 32 → UInt8} {filters : Filter}
    {bloom : List (List ℕ)} (h : bloom ∈ newMatcher keccak filters) :
    bloom ≠ [] ∧ ∀ bits ∈ bloom, bits ≠ [] ∧ ∀ bit ∈ bits, bit < bloomBitLength := by
  obtain ⟨group, -, heq⟩ := mem_filterMap.mp h
  rw [mapM_option_eq] at heq
  split_ifs at heq with h0 hnone
  cases heq
  constructor
  · cases group with
    | nil => exact absurd rfl h0
    | cons o group =>
      cases o with
      | none => exact absurd mem_cons_self hnone
      | some clause => simp
  intro bits hbits
  obtain ⟨o, -, ho⟩ := mem_filterMap.mp hbits
  obtain ⟨clause, -, rfl⟩ := Option.map_eq_some_iff.mp ho
  exact ⟨by simp [calcBloomIndexes], fun bit hbit ↦ lt_of_mem_calcBloomIndexes keccak hbit⟩

/-! One section: what its vectors say about the blooms of its blocks. -/

/-- `v` is the row of a section whose bit `j` is `q` of the bloom of block `j`. -/
structure Row (size : ℕ) (q : ℕ → Bool) (v : Bytes) : Prop where
  length_eq : v.length = size / 8
  rowBit_eq : ∀ j < size, rowBit v j = q j

theorem copyBytes_self {n : ℕ} {data : Bytes} (h : data.length = n) : copyBytes n data = data := by
  subst h
  rw [copyBytes, take_length, Nat.sub_self, replicate_zero, append_nil]

variable {q : ℕ → Bool} {v : Bytes} {filters : List (List (List ℕ))} {begin stop : ℕ}

theorem Row.and {size : ℕ} {r : ℕ → Bool} {w : Bytes} (hv : Row size q v) (hw : Row size r w) :
    Row size (fun j ↦ q j && r j) (andBytes v w) where
  length_eq := by rw [length_andBytes, hv.length_eq]
  rowBit_eq := by
    intro j hj
    rw [rowBit_andBytes (hw.length_eq.trans hv.length_eq.symm), hv.rowBit_eq j hj,
      hw.rowBit_eq j hj]

theorem Row.or {size : ℕ} {r : ℕ → Bool} {w : Bytes} (hv : Row size q v) (hw : Row size r w) :
    Row size (fun j ↦ q j || r j) (orBytes v w) where
  length_eq := by rw [length_orBytes, hv.length_eq]
  rowBit_eq := by
    intro j hj
    rw [rowBit_orBytes (hw.length_eq.trans hv.length_eq.symm), hv.rowBit_eq j hj, hw.rowBit_eq j hj]

section Section

variable {size : ℕ} {deliver : ℕ → ℕ → Bytes} {sec : ℕ} {bloom : ℕ → Bloom}

def Delivers (size : ℕ) (deliver : ℕ → ℕ → Bytes) (sec : ℕ) (bloom : ℕ → Bloom) : Prop :=
  ∀ bit < bloomBitLength, Row size (fun j ↦ (bloom j).big.testBit bit) (deliver bit sec)

variable (hdel : Delivers size deliver sec bloom)

include hdel

theorem foldl_and_row {bits : List ℕ} (hbits : ∀ bit ∈ bits, bit < bloomBitLength) (hv : Row size q v) :
    ∃ w, bits.foldl (fun acc bit ↦
        match acc with
        | none => some (copyBytes (size / 8) (deliver bit sec))
        | some v => some (andBytes v (deliver bit sec))) (some v) = some w ∧
      Row size (fun j ↦ q j && bloomHas (bloom j) bits) w := by
  induction bits generalizing q v with
  | nil =>
    refine ⟨v, rfl, hv.length_eq, ?_⟩
    intro j hj
    rw [hv.rowBit_eq j hj]
    simp [bloomHas]
  | cons bit bits ih =>
    obtain ⟨w, hw, hrow⟩ := ih (fun b hb ↦ hbits b (mem_cons_of_mem bit hb))
      (hv.and (hdel bit (hbits bit mem_cons_self)))
    refine ⟨w, hw, hrow.length_eq, ?_⟩
    intro j hj
    rw [hrow.rowBit_eq j hj, bloomHas, bloomHas, all_cons, Bool.and_assoc]

theorem andVector_row {bits : List ℕ} (hne : bits ≠ []) (hbits : ∀ bit ∈ bits, bit < bloomBitLength) :
    ∃ w, andVector size deliver sec bits = some w ∧
      Row size (fun j ↦ bloomHas (bloom j) bits) w := by
  cases bits with
  | nil => exact absurd rfl hne
  | cons bit bits =>
    have hrow := hdel bit (hbits bit mem_cons_self)
    obtain ⟨w, hw, hrow'⟩ := foldl_and_row hdel
      (fun b hb ↦ hbits b (mem_cons_of_mem bit hb)) hrow
    refine ⟨w, ?_, hrow'.length_eq, ?_⟩
    · rw [andVector, foldl_cons]
      simp only [copyBytes_self hrow.length_eq]
      exact hw
    · intro j hj
      rw [hrow'.rowBit_eq j hj, bloomHas, bloomHas, all_cons]

variable {group : List (List ℕ)} {o : Option PartialMatches}

theorem foldl_or_row (hgrp : ∀ bits ∈ group, bits ≠ [] ∧ ∀ bit ∈ bits, bit < bloomBitLength)
    (hv : Row size q v) :
    ∃ w, group.foldl (fun acc bits ↦
        match acc with
        | none => andVector size deliver sec bits
        | some v => some (orBytes v ((andVector size deliver sec bits).getD []))) (some v) = some w ∧
      Row size (fun j ↦ q j || group.any (bloomHas (bloom j))) w := by
  induction group generalizing q v with
  | nil =>
    refine ⟨v, rfl, hv.length_eq, ?_⟩
    intro j hj
    rw [hv.rowBit_eq j hj]
    simp
  | cons bits group ih =>
    obtain ⟨hne, hbits⟩ := hgrp bits mem_cons_self
    obtain ⟨u, hu, hrow⟩ := andVector_row hdel hne hbits
    obtain ⟨w, hw, hrow'⟩ := ih (fun b hb ↦ hgrp b (mem_cons_of_mem bits hb)) (hv.or hrow)
    refine ⟨w, ?_, hrow'.length_eq, ?_⟩
    · rw [foldl_cons]
      simp only [hu, Option.getD_some]
      exact hw
    · intro j hj
      rw [hrow'.rowBit_eq j hj, any_cons, Bool.or_assoc]

theorem orVector_row (hne : group ≠ [])
    (hgrp : ∀ bits ∈ group, bits ≠ [] ∧ ∀ bit ∈ bits, bit < bloomBitLength) :
    ∃ w, orVector size deliver sec group = some w ∧
      Row size (fun j ↦ group.any (bloomHas (bloom j))) w := by
  cases group with
  | nil => exact absurd rfl hne
  | cons bits group =>
    obtain ⟨hne', hbits⟩ := hgrp bits mem_cons_self
    obtain ⟨u, hu, hrow⟩ := andVector_row hdel hne' hbits
    obtain ⟨w, hw, hrow'⟩ := foldl_or_row hdel
      (fun b hb ↦ hgrp b (mem_cons_of_mem bits hb)) hrow
    refine ⟨w, ?_, hrow'.length_eq, ?_⟩
    · rw [orVector, foldl_cons]
      simp only [hu]
      exact hw
    · intro j hj
      rw [hrow'.rowBit_eq j hj, any_cons]

/-- What the pipeline holds for a section: its row, or nothing if the row is empty. -/
def Carries (size : ℕ) (q : ℕ → Bool) (sec : ℕ) : Option PartialMatches → Prop
  | some res => res.sec = sec ∧ Row size q res.bitset
  | none => ∀ j < size, q j = false

theorem Carries.subMatch (hne : group ≠ [])
    (hgrp : ∀ bits ∈ group, bits ≠ [] ∧ ∀ bit ∈ bits, bit < bloomBitLength) (ho : Carries size q sec o) :
    Carries size (fun j ↦ q j && group.any (bloomHas (bloom j))) sec
      (o.bind (subMatch size deliver group)) := by
  cases o with
  | none =>
    intro j hj
    beta_reduce
    rw [ho j hj, Bool.false_and]
  | some res =>
    obtain ⟨rfl, hrow⟩ := ho
    obtain ⟨w, hw, hrow'⟩ := orVector_row hdel hne hgrp
    have hand := hrow'.and hrow
    rw [Option.bind_some, Bloombits.subMatch, hw, Option.getD_some]
    split_ifs with ht
    · refine ⟨rfl, hand.length_eq, ?_⟩
      intro j hj
      rw [hand.rowBit_eq j hj, Bool.and_comm]
    intro j hj
    beta_reduce
    rw [Bool.and_comm, ← hand.rowBit_eq j hj]
    exact rowBit_of_testBytes_false (by simpa using ht) j

def pipeline (size : ℕ) (deliver : ℕ → ℕ → Bytes) (filters : List (List (List ℕ)))
    (o : Option PartialMatches) : Option PartialMatches :=
  filters.foldl (fun o group ↦ o.bind (subMatch size deliver group)) o

theorem Carries.pipeline
    (hfilters : ∀ group ∈ filters, group ≠ [] ∧ ∀ bits ∈ group, bits ≠ [] ∧ ∀ bit ∈ bits, bit < bloomBitLength)
    (ho : Carries size q sec o) :
    Carries size (fun j ↦ q j && bloomMatches filters (bloom j)) sec
      (pipeline size deliver filters o) := by
  induction filters generalizing q o with
  | nil =>
    simp only [bloomMatches, all_nil, Bool.and_true]
    exact ho
  | cons group filters ih =>
    obtain ⟨hne, hgrp⟩ := hfilters group mem_cons_self
    have hcar := ih (fun g hg ↦ hfilters g (mem_cons_of_mem group hg))
      (ho.subMatch hdel hne hgrp)
    simp only [bloomMatches, all_cons, ← Bool.and_assoc]
    exact hcar

end Section

theorem run_eq (size : ℕ) (deliver : ℕ → ℕ → Bytes) (filters : List (List (List ℕ)))
    (begin stop : ℕ) : run size deliver filters begin stop =
      (range' (begin / size) (stop / size + 1 - begin / size)).filterMap fun i ↦
        pipeline size deliver filters (some ⟨i, List.replicate (size / 8) 255⟩) := by
  have hfold : ∀ (secs : List ℕ) (g : ℕ → Option PartialMatches),
      filters.foldl (fun source group ↦ source.filterMap (subMatch size deliver group))
        (secs.filterMap g) = secs.filterMap fun i ↦ pipeline size deliver filters (g i) := by
    intro secs
    induction filters with
    | nil => exact fun g ↦ rfl
    | cons group filters ih =>
      intro g
      rw [foldl_cons, filterMap_filterMap]
      exact ih (fun i ↦ (g i).bind (subMatch size deliver group))
  rw [run, ← filterMap_eq_map]
  exact hfold _ _

/-! The scan of a section. -/

theorem filter_range'_skip {p : ℕ → Bool} {i d last : ℕ}
    (h : ∀ n, i ≤ n → n < i + d → n ≤ last → p n = false) :
    (range' i (last + 1 - i)).filter p =
      (range' (i + d) (last + 1 - (i + d))).filter p := by
  induction d with
  | zero => rfl
  | succ d ih =>
    rw [ih (fun n h1 h2 h3 ↦ h n h1 (by omega) h3)]
    by_cases hle : i + d ≤ last
    · have hlen : last + 1 - (i + d) = (last + 1 - (i + (d + 1))) + 1 := by omega
      have hfalse := h (i + d) (Nat.le_add_right _ _) (by omega) hle
      rw [hlen, range'_succ, filter_cons_of_neg (by simp [hfalse]), Nat.add_assoc]
    · rw [show last + 1 - (i + d) = 0 by omega, show last + 1 - (i + (d + 1)) = 0 by omega]
      rfl

theorem scan_eq {bitset : Bytes} {size sectionStart last : ℕ} (h8 : size % 8 = 0)
    (hst : sectionStart % 8 = 0) (hend : sectionStart + size < 2 ^ 64)
    (hlast : last < sectionStart + size) (hrow : Row size q bitset) (fuel i : ℕ) (hi : sectionStart ≤ i)
    (hi' : i ≤ sectionStart + size) (hfuel : last + 1 - i < fuel) :
    scan bitset sectionStart last fuel i =
      .ok ((range' i (last + 1 - i)).filter fun n ↦ q (n - sectionStart)) := by
  induction fuel generalizing i with
  | zero => omega
  | succ fuel ih =>
    by_cases hdone : last < i
    · rw [scan, if_pos hdone, show last + 1 - i = 0 by omega]
      rfl
    have hsub : (i + (2 ^ 64 - sectionStart)) % 2 ^ 64 = i - sectionStart := by omega
    have hbyte : (i - sectionStart) / 8 < bitset.length := by
      rw [hrow.length_eq]
      omega
    have hbit : ∀ n, sectionStart ≤ n → n < sectionStart + size →
        (n - sectionStart) / 8 = (i - sectionStart) / 8 →
        q (n - sectionStart) = (bitset.getD ((i - sectionStart) / 8) 0).toNat.testBit (7 - n % 8) := by
      intro n hn hn' hsame
      rw [← hrow.rowBit_eq (n - sectionStart) (by omega), rowBit, hsame]
      congr 1
      omega
    have hnext : (i + 1) % 2 ^ 64 = i + 1 := by omega
    rw [scan, if_neg hdone, hsub, getElem?_eq_getElem hbyte]
    simp only
    rw [← getD_eq_getElem _ 0 hbyte, hnext]
    have hskip1 : q (i - sectionStart) = false →
        scan bitset sectionStart last fuel (i + 1) =
          .ok ((range' i (last + 1 - i)).filter fun n ↦ q (n - sectionStart)) := by
      intro hq
      rw [filter_range'_skip (i := i) (d := 1) (by
        intro n h1 h2 _
        obtain rfl : n = i := by omega
        exact hq)]
      exact ih (i + 1) (by omega) (by omega) (by omega)
    by_cases hz : bitset.getD ((i - sectionStart) / 8) 0 = 0
    · rw [if_pos hz]
      by_cases hi8 : i % 8 = 0
      · -- the whole byte is empty
        have hskip : (i + 8) % 2 ^ 64 = i + 8 := by omega
        rw [if_pos hi8, hskip, filter_range'_skip (i := i) (d := 8) (by
          intro n h1 h2 _
          rw [hbit n (by omega) (by omega) (by omega), hz]
          exact zero_testBit _)]
        exact ih (i + 8) (by omega) (by omega) (by omega)
      rw [if_neg hi8]
      apply hskip1
      rw [hbit i hi (by omega) rfl, hz]
      exact zero_testBit _
    rw [if_neg hz]
    have hq := hbit i hi (by omega) rfl
    by_cases hset : bitset.getD ((i - sectionStart) / 8) 0 &&& byteMask (7 - i % 8) ≠ 0
    · rw [and_byteMask_ne_zero (by omega), ← hq] at hset
      rw [if_pos ((and_byteMask_ne_zero (by omega) _).mpr (hq ▸ hset)),
        ih (i + 1) (by omega) (by omega) (by omega),
        show last + 1 - i = (last + 1 - (i + 1)) + 1 by omega, range'_succ,
        filter_cons_of_pos (p := fun n ↦ q (n - sectionStart)) hset]
      rfl
    rw [if_neg hset]
    apply hskip1
    rw [and_byteMask_ne_zero (by omega), ← hq] at hset
    simpa using hset

/-! All sections together. -/

def sectionBlocks (size begin stop sec : ℕ) : List ℕ :=
  List.range' (max begin (sec * size))
    (min stop (sec * size + size - 1) + 1 - max begin (sec * size))

theorem flatMap_sectionBlocks {size : ℕ} (hpos : 0 < size) (hle : begin ≤ stop) :
    (range' (begin / size) (stop / size + 1 - begin / size)).flatMap
      (sectionBlocks size begin stop) = range' begin (stop + 1 - begin) := by
  have hsts : ∀ k ≤ stop / size + 1 - begin / size,
      (range' (begin / size) k).flatMap (sectionBlocks size begin stop) =
        range' begin (min (stop + 1) ((begin / size + k) * size) - begin) := by
    intro k
    induction k with
    | zero =>
      intro _
      have hdiv : begin / size * size ≤ begin := div_mul_le_self begin size
      rw [Nat.add_zero (begin / size), show min (stop + 1) (begin / size * size) - begin = 0 by omega]
      rfl
    | succ k ih =>
      intro hk
      have hst : (begin / size + k) * size ≤ stop :=
        le_trans (Nat.mul_le_mul_right size (by omega)) (div_mul_le_self stop size)
      rw [range'_1_concat, flatMap_append, ih (by omega), flatMap_singleton,
        sectionBlocks, ← Nat.add_assoc, succ_mul]
      generalize (begin / size + k) * size = m at hst ⊢
      rw [show max begin m = begin + (min (stop + 1) m - begin) by omega, range'_append_1]
      congr 1
      omega
  have hlast : stop < (stop / size + 1) * size :=
    (Nat.div_lt_iff_lt_mul hpos).mp (lt_succ_self _)
  have hdiv : begin / size ≤ stop / size := Nat.div_le_div_right hle
  rw [hsts _ le_rfl, show begin / size + (stop / size + 1 - begin / size) = stop / size + 1 by
    omega, min_eq_left (by omega)]

theorem foldlM_scan {size fuel : ℕ} {g : ℕ → Option PartialMatches} (found : ℕ → List ℕ) {secs : List ℕ}
    (hsome : ∀ sec ∈ secs, ∀ res, g sec = some res → scanSection size fuel begin stop res = .ok (found sec))
    (hnone : ∀ sec ∈ secs, g sec = none → found sec = []) (sent : List ℕ) :
    (secs.filterMap g).foldlM (fun sent res ↦ do
      let found ← scanSection size fuel begin stop res
      pure (sent ++ found)) sent = (.ok (sent ++ secs.flatMap found) : Go (List ℕ)) := by
  induction secs generalizing sent with
  | nil => rw [flatMap_nil, append_nil]; rfl
  | cons sec secs ih =>
    have ih := ih (fun s hs ↦ hsome s (mem_cons_of_mem sec hs))
      (fun s hs ↦ hnone s (mem_cons_of_mem sec hs))
    rw [flatMap_cons]
    cases hg : g sec with
    | none =>
      rw [filterMap_cons_none hg, hnone sec mem_cons_self hg, nil_append]
      exact ih sent
    | some res =>
      rw [filterMap_cons_some hg, foldlM_cons, hsome sec mem_cons_self res hg, ← List.append_assoc]
      exact ih (sent ++ found sec)

theorem start_eq {size : ℕ} {deliver : ℕ → ℕ → Bytes} {blooms : ℕ → Bloom} (h8 : size % 8 = 0)
    (hpos : 0 < size) (hle : begin ≤ stop)
    (hfilters : ∀ group ∈ filters, group ≠ [] ∧ ∀ bits ∈ group, bits ≠ [] ∧ ∀ bit ∈ bits, bit < bloomBitLength)
    (hdel : ∀ sec, begin / size ≤ sec → sec ≤ stop / size →
      (sec + 1) * size < 2 ^ 64 ∧ Delivers size deliver sec (fun j ↦ blooms (sec * size + j)))
    {fuel : ℕ} (hfuel : stop + 1 < fuel) :
    start size deliver fuel filters begin stop = .ok
      ((range' begin (stop + 1 - begin)).filter fun i ↦ bloomMatches filters (blooms i)) := by
  have hsecs : ∀ sec ∈ range' (begin / size) (stop / size + 1 - begin / size),
      begin / size ≤ sec ∧ sec ≤ stop / size := by
    intro sec hsec
    have := mem_range'_1.mp hsec
    omega
  have hones : ∀ sec, Carries size (fun _ ↦ true) sec
      (some ⟨sec, List.replicate (size / 8) 255⟩) := by
    intro sec
    refine ⟨rfl, length_replicate, ?_⟩
    intro j hj
    exact rowBit_replicate_ones (by omega)
  have hcar : ∀ sec ∈ range' (begin / size) (stop / size + 1 - begin / size),
      Carries size (fun j ↦ bloomMatches filters (blooms (sec * size + j))) sec
        (pipeline size deliver filters (some ⟨sec, List.replicate (size / 8) 255⟩)) := by
    intro sec hsec
    have hc := (hones sec).pipeline
      (hdel sec (hsecs sec hsec).1 (hsecs sec hsec).2).2 hfilters
    simpa only [Bool.true_and] using hc
  rw [start, run_eq, foldlM_scan (fun sec ↦ (sectionBlocks size begin stop sec).filter
    fun i ↦ bloomMatches filters (blooms i)), nil_append, ← filter_flatMap,
    flatMap_sectionBlocks hpos hle]
  · intro sec hsec res hres
    have hc := hcar sec hsec
    rw [hres] at hc
    obtain ⟨rfl, hrow⟩ := hc
    obtain ⟨hlt, -⟩ := hdel res.sec (hsecs _ hsec).1 (hsecs _ hsec).2
    have hmul : (res.sec + 1) * size = res.sec * size + size := succ_mul _ _
    have hend : begin < (res.sec + 1) * size :=
      (Nat.div_lt_iff_lt_mul hpos).mp (lt_succ_of_le (hsecs _ hsec).1)
    have hmod : res.sec * size % 8 = 0 := by
      rw [mul_mod, h8, Nat.mul_zero, zero_mod]
    rw [scanSection, scan_eq h8 hmod (by omega) (by omega) hrow fuel _ (le_max_right _ _)
      (by omega) (by omega)]
    refine congrArg Except.ok (filter_congr ?_)
    intro i hi
    have hi := (mem_range'_1.mp hi).1
    rw [Nat.add_sub_cancel' (by omega)]
  intro sec hsec hres
  have hc := hcar sec hsec
  rw [hres] at hc
  apply filter_eq_nil_iff.mpr
  intro i hi
  have hi := mem_range'_1.mp hi
  have hq := hc (i - sec * size) (by omega)
  beta_reduce at hq
  rw [Nat.add_sub_cancel' (by omega)] at hq
  simp [hq]

theorem delivers_of_index {size sec : ℕ} {blooms : ℕ → Bloom} {written : ℕ → Bytes}
    {deliver : ℕ → ℕ → Bytes} (hsize : size < 2 ^ 64) (hpos : 0 < size)
    (hsec : sec * size < 2 ^ 64) (hind : indexSection size blooms sec = .ok written)
    (hdel : ∀ bit < bloomBitLength,
      decompressBytes (written bit) (size / 8) = .ok (deliver bit sec)) :
    (sec + 1) * size < 2 ^ 64 ∧ Delivers size deliver sec (fun j ↦ blooms (sec * size + j)) := by
  obtain ⟨-, hlt, hrows⟩ := indexSection_eq_ok hsize hpos hsec hind
  refine ⟨hlt, ?_⟩
  intro bit hbit
  obtain ⟨row, hwrt, hlen, hrow⟩ := hrows bit hbit
  have hdec := hdel bit hbit
  rw [hwrt, ← hlen, decompressBytes_compressBytes] at hdec
  cases hdec
  exact ⟨hlen, hrow⟩

def Filter.MatchesLog (filters : Filter) (log : Log) : Prop :=
  ∀ group ∈ filters, group ≠ [] → none ∉ group → ∃ clause, some clause ∈ group ∧ clause ∈ log.values

/-- The indexed search sends exactly the blocks whose bloom matches, in increasing order, and so
misses no log. -/
theorem start_returns (keccak : Bytes → Fin 32 → UInt8) (filters : Filter)
    (size begin stop : ℕ) (hsize : size < 2 ^ 64) (h8 : size % 8 = 0) (h2048 : 2048 ≤ size)
    (hstop : stop < 2 ^ 64) (hle : begin ≤ stop) {receipts : ℕ → List Receipt}
    {blooms : ℕ → Bloom} (hblooms : ∀ i, createBloom keccak (receipts i) = .ok (blooms i))
    {written deliver : ℕ → ℕ → Bytes}
    (hind : ∀ sec, begin / size ≤ sec → sec ≤ stop / size →
      indexSection size blooms sec = .ok (written sec))
    (hdel : ∀ sec, begin / size ≤ sec → sec ≤ stop / size → ∀ bit < bloomBitLength,
      decompressBytes (written sec bit) (size / 8) = .ok (deliver bit sec)) :
    ∃ found : List ℕ,
      Outcome.Returns (fun fuel ↦ start size deliver fuel (newMatcher keccak filters) begin stop)
        found ∧
      found.Pairwise (· < ·) ∧
      (∀ i, i ∈ found ↔ begin ≤ i ∧ i ≤ stop ∧ filters.Matches keccak (blooms i)) ∧
      ∀ i, begin ≤ i → i ≤ stop → ∀ r ∈ receipts i, ∀ log ∈ r.logs,
        filters.MatchesLog log → i ∈ found := by
  have hpos : 0 < size := by omega
  have hrows : ∀ sec, begin / size ≤ sec → sec ≤ stop / size → (sec + 1) * size < 2 ^ 64 ∧
      Delivers size deliver sec (fun j ↦ blooms (sec * size + j)) := by
    intro sec hlo hhi
    have hsec : sec * size < 2 ^ 64 :=
      lt_of_le_of_lt (le_trans (Nat.mul_le_mul_right size hhi) (Nat.div_mul_le_self stop size)) hstop
    exact delivers_of_index hsize hpos hsec (hind sec hlo hhi) (hdel sec hlo hhi)
  have hmem : ∀ i, i ∈ (List.range' begin (stop + 1 - begin)).filter
      (fun i ↦ bloomMatches (newMatcher keccak filters) (blooms i)) ↔
      begin ≤ i ∧ i ≤ stop ∧ filters.Matches keccak (blooms i) := by
    intro i
    rw [mem_filter, mem_range'_1, bloomMatches_newMatcher, and_assoc]
    refine and_congr_right (fun hi ↦ and_congr_left (fun _ ↦ ?_))
    omega
  refine ⟨_, ⟨stop + 2, fun fuel hfuel ↦ start_eq h8 hpos hle
    (fun group hgrp ↦ bits_of_mem_newMatcher hgrp) hrows hfuel⟩, ?_, hmem, ?_⟩
  · exact (pairwise_lt_range' 1 Nat.one_pos).filter _
  intro i hlo hhi r hr log hlog hmatch
  refine (hmem i).mpr ⟨hlo, hhi, ?_⟩
  intro group hgrp hne hnone
  obtain ⟨clause, hclause, hval⟩ := hmatch group hgrp hne hnone
  have hlogged : clause ∈ loggedValues (receipts i) := mem_flatMap.mpr ⟨r, hr, mem_flatMap.mpr ⟨log, hlog, hval⟩⟩
  exact ⟨clause, hclause, fun bit hbit ↦ (testBit_createBloom keccak (hblooms i)).mpr ⟨clause, hlogged, hbit⟩⟩

/-! A chain with one log, in block 3. -/

def plainKeccak (b : Bytes) (i : Fin 32) : UInt8 := UInt8.ofNat (beValue b + i)

def oneLog : Log := ⟨7, []⟩

def oneLogReceipts (i : ℕ) : List Receipt := if i = 3 then [⟨[oneLog]⟩] else []

theorem start_returns_oneLog : ∃ (blooms : ℕ → Bloom) (deliver : ℕ → ℕ → Bytes) (found : List ℕ),
    (∀ i, createBloom plainKeccak (oneLogReceipts i) = .ok (blooms i)) ∧
    Outcome.Returns (fun fuel ↦
      start 2048 deliver fuel (newMatcher plainKeccak [[some (addressBytes 7)]]) 1 5) found ∧
    3 ∈ found := by
  choose blooms hblooms _ using fun i ↦ createBloom_eq plainKeccak (oneLogReceipts i)
  obtain ⟨written, hind⟩ := indexSection_isOk 2048 0 rfl le_rfl (by decide) blooms
  obtain ⟨-, -, hrows⟩ := indexSection_eq_ok (by decide) (by decide) (by decide) hind
  have hdec : ∀ bit < bloomBitLength, ∃ row, decompressBytes (written bit) (2048 / 8) = .ok row := by
    intro bit hbit
    obtain ⟨row, hw, hlen, -⟩ := hrows bit hbit
    exact ⟨row, by rw [hw, ← hlen, decompressBytes_compressBytes]⟩
  choose! row hrow using hdec
  have hzero : ∀ sec, 1 / 2048 ≤ sec → sec ≤ 5 / 2048 → sec = 0 := by
    intro sec _ hsec
    omega
  obtain ⟨found, hret, -, -, hlog⟩ := start_returns plainKeccak [[some (addressBytes 7)]]
    2048 1 5 (by decide) rfl le_rfl (by decide) (by decide) hblooms
    (fun sec hlo hhi ↦ by rw [hzero sec hlo hhi]; exact hind)
    (fun sec _ _ bit hbit ↦ hrow bit hbit)
  refine ⟨blooms, fun bit _ ↦ row bit, found, hblooms, hret, ?_⟩
  refine hlog 3 (by decide) (by decide) ⟨[oneLog]⟩ mem_cons_self oneLog mem_cons_self ?_
  intro group hgrp _ _
  obtain rfl := mem_singleton.mp hgrp
  exact ⟨addressBytes 7, mem_cons_self, mem_cons_self⟩

end BjutEth.Bloombits
