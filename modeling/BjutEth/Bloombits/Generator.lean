import BjutEth.Bloombits.Compress
import BjutEth.Lib.Outcome

namespace BjutEth.Bloombits

open List hiding lt_irrefl not_le not_lt
open Outcome
open Function
open Nat

inductive GeneratorError
  | notMultipleOf8 | sectionOutOfBounds | unexpectedIndex | notFullyGenerated
  deriving DecidableEq

abbrev Go (α : Type) := Outcome GeneratorError α

def bloomByteLength : ℕ := 256

def bloomBitLength : ℕ := 8 * bloomByteLength

structure Bloom where
  bytes : Bytes
  length_bytes : bytes.length = bloomByteLength

def Bloom.big (b : Bloom) : ℕ := beValue b.bytes

theorem length_pad {d : Bytes} (h : ¬ bloomByteLength < d.length) :
    (List.replicate (bloomByteLength - d.length) 0 ++ d).length = bloomByteLength := by
  rw [length_append, length_replicate]
  omega

def bytesToBloom (d : Bytes) : Go Bloom :=
  if h : bloomByteLength < d.length then .error .panic
  else .ok ⟨List.replicate (bloomByteLength - d.length) 0 ++ d, length_pad h⟩

structure Log where
  address : BitVec 160
  topics : List (BitVec 256)

structure Receipt where
  logs : List Log

def addressBytes (a : BitVec 160) : Bytes := fixedBytes 20 a.toNat

def topicBytes (t : BitVec 256) : Bytes := fixedBytes 32 t.toNat

section Hashing

variable (keccak : Bytes → Fin 32 → UInt8)

def hashByte (b : Bytes) (i : ℕ) : ℕ := (keccak b (Fin.ofNat 32 i)).toNat

def bloom9 (b : Bytes) : ℕ :=
  [0, 2, 4].foldl (fun r i ↦
    r ||| 1 <<< ((hashByte keccak b (i + 1) + hashByte keccak b i <<< 8) &&& 2047)) 0

def logsBloom (logs : List Log) : ℕ :=
  logs.foldl (fun bin log ↦
    log.topics.foldl (fun bin t ↦ bin ||| bloom9 keccak (topicBytes t))
      (bin ||| bloom9 keccak (addressBytes log.address))) 0

def createBloom (receipts : List Receipt) : Go Bloom :=
  bytesToBloom (natBytes (receipts.foldl (fun bin r ↦ bin ||| logsBloom keccak r.logs) 0))

def calcBloomIndexes (b : Bytes) : List ℕ :=
  [0, 1, 2].map fun i ↦
    ((hashByte keccak b (2 * i) <<< 8) &&& 2047) + hashByte keccak b (2 * i + 1)

theorem hashByte_lt (b : Bytes) (i : ℕ) : hashByte keccak b i < 256 := UInt8.toNat_lt _

/-- The matcher takes the low bits before it adds the second byte, `bloom9` after. -/
theorem bloomIndex_eq {x y : ℕ} (hy : y < 256) :
    (y + x <<< 8) &&& 2047 = ((x <<< 8) &&& 2047) + y := by
  have hand : ∀ n : ℕ, n &&& 2047 = n % 2048 := fun n ↦ and_two_pow_sub_one_eq_mod n 11
  rw [hand, hand]
  omega

variable {k : ℕ} {α : Type}

theorem lt_of_mem_calcBloomIndexes {b : Bytes} (hk : k ∈ calcBloomIndexes keccak b) :
    k < bloomBitLength := by
  obtain ⟨i, -, rfl⟩ := mem_map.mp hk
  rw [← bloomIndex_eq (hashByte_lt keccak b _), and_two_pow_sub_one_eq_mod _ 11]
  exact mod_lt _ (by decide)

theorem testBit_bloom9 (b : Bytes) (k : ℕ) :
    (bloom9 keccak b).testBit k = true ↔ k ∈ calcBloomIndexes keccak b := by
  simp only [bloom9, calcBloomIndexes, foldl_cons, foldl_nil, map_cons, map_nil, zero_or,
    testBit_or, one_shiftLeft, testBit_two_pow, Bool.or_eq_true, decide_eq_true_eq,
    mem_cons, not_mem_nil, or_false, bloomIndex_eq (hashByte_lt keccak b _), or_assoc]
  simp only [eq_comm]

theorem bloom9_lt (b : Bytes) : bloom9 keccak b < 2 ^ bloomBitLength := by
  apply lt_pow_two_of_testBit
  intro k hk
  by_contra h
  have hmem := (testBit_bloom9 keccak b k).mp (by simpa using h)
  exact absurd (lt_of_mem_calcBloomIndexes keccak hmem) (by omega)

theorem foldl_or_lt (f : α → ℕ) {n : ℕ} {l : List α} (hf : ∀ a ∈ l, f a < 2 ^ n) {bin : ℕ}
    (hbin : bin < 2 ^ n) : l.foldl (fun bin a ↦ bin ||| f a) bin < 2 ^ n := by
  induction l generalizing bin with
  | nil => exact hbin
  | cons a l ih =>
    exact ih (fun b hb ↦ hf b (mem_cons_of_mem a hb))
      (or_lt_two_pow hbin (hf a mem_cons_self))

theorem testBit_foldl_or (f : α → ℕ) (l : List α) (bin k : ℕ) :
    (l.foldl (fun bin a ↦ bin ||| f a) bin).testBit k =
      (bin.testBit k || l.any (fun a ↦ (f a).testBit k)) := by
  induction l generalizing bin with
  | nil => simp
  | cons a l ih => rw [foldl_cons, ih, testBit_or, any_cons, Bool.or_assoc]

def logBloom (log : Log) : ℕ :=
  log.topics.foldl (fun bin t ↦ bin ||| bloom9 keccak (topicBytes t))
    (bloom9 keccak (addressBytes log.address))

theorem foldl_or_eq (f : α → ℕ) (l : List α) (a b : ℕ) :
    l.foldl (fun bin x ↦ bin ||| f x) (a ||| b) = a ||| l.foldl (fun bin x ↦ bin ||| f x) b := by
  induction l generalizing b with
  | nil => rfl
  | cons x l ih => rw [foldl_cons, foldl_cons, Nat.or_assoc, ih]

theorem logsBloom_eq (logs : List Log) :
    logsBloom keccak logs = logs.foldl (fun bin log ↦ bin ||| logBloom keccak log) 0 := by
  simp only [logsBloom, logBloom, foldl_or_eq]

theorem logsBloom_lt (logs : List Log) : logsBloom keccak logs < 2 ^ bloomBitLength := by
  rw [logsBloom_eq]
  exact foldl_or_lt _ (fun _ _ ↦ foldl_or_lt _ (fun _ _ ↦ bloom9_lt keccak _) (bloom9_lt keccak _))
    (Nat.two_pow_pos _)

theorem pow_256_eq (n : ℕ) : 256 ^ n = 2 ^ (8 * n) := by
  rw [pow_mul]
  rfl

theorem createBloom_eq (receipts : List Receipt) : ∃ b, createBloom keccak receipts = .ok b ∧
    b.big = receipts.foldl (fun bin r ↦ bin ||| logsBloom keccak r.logs) 0 := by
  have hlt := foldl_or_lt (fun r : Receipt ↦ logsBloom keccak r.logs) (l := receipts)
    (fun _ _ ↦ logsBloom_lt keccak _) (Nat.two_pow_pos bloomBitLength)
  have hlen : ¬ bloomByteLength < (natBytes (receipts.foldl
      (fun bin r ↦ bin ||| logsBloom keccak r.logs) 0)).length := by
    rw [length_natBytes, not_lt, byteLen_le_iff, pow_256_eq]
    exact hlt
  refine ⟨_, dif_neg hlen, ?_⟩
  rw [Bloom.big, beValue_replicate_append, beValue_natBytes]

def Log.values (log : Log) : List Bytes := addressBytes log.address :: log.topics.map topicBytes

/-- The values of all logs. -/
def loggedValues (receipts : List Receipt) : List Bytes :=
  receipts.flatMap (fun r ↦ r.logs.flatMap Log.values)

theorem testBit_logBloom (log : Log) :
    (logBloom keccak log).testBit k = true ↔ ∃ v ∈ log.values, k ∈ calcBloomIndexes keccak v := by
  rw [logBloom, testBit_foldl_or, Bool.or_eq_true, any_eq_true]
  simp only [testBit_bloom9, Log.values, mem_cons, mem_map, exists_eq_or_imp, exists_exists_and_eq_and]

theorem testBit_createBloom {receipts : List Receipt} {b : Bloom}
    (hb : createBloom keccak receipts = .ok b) :
    b.big.testBit k = true ↔ ∃ v ∈ loggedValues receipts, k ∈ calcBloomIndexes keccak v := by
  obtain ⟨b', hb', hbig⟩ := createBloom_eq keccak receipts
  obtain rfl : b' = b := Except.ok.inj (hb'.symm.trans hb)
  rw [hbig, testBit_foldl_or, Bool.or_eq_true, Nat.zero_testBit, any_eq_true]
  simp only [logsBloom_eq, testBit_foldl_or, Nat.zero_testBit, Bool.false_or, any_eq_true,
    testBit_logBloom, Bool.false_eq_true, false_or, loggedValues, mem_flatMap]
  constructor
  · rintro ⟨r, hr, log, hlog, v, hv, hk⟩
    exact ⟨v, ⟨r, hr, log, hlog, hv⟩, hk⟩
  · rintro ⟨v, ⟨r, hr, log, hlog, hv⟩, hk⟩
    exact ⟨r, hr, log, hlog, v, hv, hk⟩

/-- `BloomLookup`, on the bytes that `topic.Bytes()` gives. -/
def bloomLookup (bin : Bloom) (topic : Bytes) : Bool :=
  bin.big &&& bloom9 keccak topic == bloom9 keccak topic

/-- `TestBytes` makes a big integer of the bytes, whose own bytes have no leading zero. -/
def Bloom.testBytes (b : Bloom) (test : Bytes) : Bool :=
  bloomLookup keccak b (natBytes (beValue test))

theorem bloomLookup_iff (b : Bloom) (v : Bytes) :
    bloomLookup keccak b v = true ↔ ∀ k ∈ calcBloomIndexes keccak v, b.big.testBit k = true := by
  simp only [bloomLookup, beq_iff_eq, ← testBit_bloom9]
  constructor
  · intro h k hk
    rw [← h, testBit_and, Bool.and_eq_true] at hk
    exact hk.1
  intro h
  apply eq_of_testBit_eq
  intro k
  rw [testBit_and, Bool.and_eq_right_iff_imp]
  exact h k

/-- `BloomLookup` finds every value of a log. `TestBytes` drops its leading zero bytes and finds
what is left exactly if each of its bits is a bit of some logged value. -/
theorem createBloom_tests_iff (receipts : List Receipt) : ∃ b, createBloom keccak receipts = .ok b ∧
    ∀ v ∈ loggedValues receipts, bloomLookup keccak b v = true ∧
      (isMinimal v = true → b.testBytes keccak v = true) ∧
      (b.testBytes keccak v = true ↔ ∀ k ∈ calcBloomIndexes keccak (natBytes (beValue v)),
        ∃ v' ∈ loggedValues receipts, k ∈ calcBloomIndexes keccak v') := by
  obtain ⟨b, hb, -⟩ := createBloom_eq keccak receipts
  refine ⟨b, hb, fun v hv ↦ ?_⟩
  have hlookup : bloomLookup keccak b v = true := by
    rw [bloomLookup_iff]
    intro k hk
    exact (testBit_createBloom keccak hb).mpr ⟨v, hv, hk⟩
  refine ⟨hlookup, fun hmin ↦ ?_, ?_⟩
  · rwa [Bloom.testBytes, natBytes_beValue hmin]
  · simp only [Bloom.testBytes, bloomLookup_iff, testBit_createBloom keccak hb]

end Hashing

/-- With the number of bytes as the hash, `TestBytes` misses the log of address 1. -/
theorem testBytes_misses_address_one :
    ∃ b, createBloom (fun v _ ↦ .ofNat v.length) [⟨[⟨1, []⟩]⟩] = .ok b ∧
      bloomLookup (fun v _ ↦ .ofNat v.length) b (addressBytes 1) = true ∧
      b.testBytes (fun v _ ↦ .ofNat v.length) (addressBytes 1) = false := by
  obtain ⟨b, hb, hbig⟩ := createBloom_eq (fun v _ ↦ .ofNat v.length) [⟨[⟨1, []⟩]⟩]
  refine ⟨b, hb, ?_, ?_⟩
  · rw [bloomLookup, hbig]
    decide +kernel
  rw [Bloom.testBytes, bloomLookup, hbig]
  decide +kernel

structure Generator where
  blooms : ℕ → Bytes
  sections : ℕ
  nextBit : ℕ

def newGenerator (sections : ℕ) : Go Generator :=
  if sections % 8 ≠ 0 then .error (.err .notMultipleOf8)
  else .ok ⟨fun _ ↦ List.replicate (sections / 8) 0, sections, 0⟩

def Generator.addBloom (b : Generator) (index : ℕ) (bloom : Bloom) : Go Generator :=
  if b.sections ≤ b.nextBit then .error (.err .sectionOutOfBounds)
  else if b.nextBit ≠ index then .error (.err .unexpectedIndex)
  else .ok { b with
    blooms := fun i ↦
      if i < bloomBitLength ∧
          bloom.bytes.getD (bloomByteLength - 1 - i / 8) 0 &&& byteMask (i % 8) ≠ 0 then
        setRowBit (b.blooms i) b.nextBit
      else b.blooms i
    nextBit := b.nextBit + 1 }

def Generator.bitset (b : Generator) (idx : ℕ) : Go Bytes :=
  if b.nextBit ≠ b.sections then .error (.err .notFullyGenerated)
  else if b.sections ≤ idx then .error (.err .sectionOutOfBounds)
  else if idx < bloomBitLength then .ok (b.blooms idx)
  else .error .panic

def process (gen : Generator) (index : ℕ) (bloom : Bloom) : Generator :=
  match gen.addBloom index bloom with
  | .ok gen => gen
  | .error _ => gen

def commit (gen : Generator) : Go (ℕ → Bytes) :=
  (List.range bloomBitLength).foldlM
    (fun written i ↦ do
      let bits ← gen.bitset i
      pure (update written i (compressBytes bits)))
    (fun _ ↦ [])

/-- `processSection` with a `BloomIndexer` behind it, `blooms` being the blooms of the canonical
headers by number. The bounds of the loop are `uint64`. -/
def indexSection (size : ℕ) (blooms : ℕ → Bloom) (sec : ℕ) : Go (ℕ → Bytes) := do
  let start := sec * size % 2 ^ 64
  let gen ← newGenerator size
  commit ((List.range' start ((sec + 1) * size % 2 ^ 64 - start)).foldl
    (fun gen number ↦ process gen (number - start) (blooms number)) gen)

theorem testBit_beValue (s : Bytes) {i : ℕ} (hi : i / 8 < s.length) :
    (beValue s).testBit i = (s.getD (s.length - 1 - i / 8) 0).toNat.testBit (i % 8) := by
  induction s using List.reverseRecOn generalizing i with
  | nil => exact absurd hi (Nat.not_lt_zero _)
  | append_singleton s b ih =>
    have hb : b.toNat < 2 ^ 8 := b.toNat_lt
    rw [length_append, length_singleton] at hi
    rw [beValue_concat, Nat.mul_comm, testBit_two_pow_mul_add _ hb, length_append,
      length_singleton]
    by_cases h8 : i < 8
    · have hidx : s.length + 1 - 1 - i / 8 = s.length := by omega
      rw [if_pos h8, hidx, getD_append_right _ _ _ _ le_rfl, Nat.sub_self, mod_eq_of_lt h8]
      rfl
    have hidx : s.length + 1 - 1 - i / 8 = s.length - 1 - (i - 8) / 8 := by omega
    rw [if_neg h8, hidx, ih (by omega), getD_append _ _ _ _ (by omega)]
    congr 1
    omega

theorem Bloom.testBit_big (b : Bloom) {i : ℕ} (hi : i < bloomBitLength) :
    b.bytes.getD (bloomByteLength - 1 - i / 8) 0 &&& byteMask (i % 8) ≠ 0 ↔
      b.big.testBit i = true := by
  have hlen := b.length_bytes
  have hi' : i / 8 < b.bytes.length := by
    rw [hlen]
    exact Nat.div_lt_of_lt_mul hi
  rw [and_byteMask_ne_zero (mod_lt _ (by decide)), Bloom.big, testBit_beValue _ hi', hlen]

structure Generator.Holds (gen : Generator) (size : ℕ) (bloom : ℕ → Bloom) (n : ℕ) : Prop where
  sections_eq : gen.sections = size
  nextBit_eq : gen.nextBit = n
  length_eq : ∀ i, (gen.blooms i).length = size / 8
  rowBit_eq : ∀ i < bloomBitLength, ∀ j,
    rowBit (gen.blooms i) j = (decide (j < n) && (bloom j).big.testBit i)

variable {size : ℕ} {gen : Generator}

theorem newGenerator_holds (h : newGenerator size = .ok gen) (bloom : ℕ → Bloom) :
    size % 8 = 0 ∧ gen.Holds size bloom 0 := by
  by_cases h8 : size % 8 = 0
  · rw [newGenerator, if_neg (not_not.mpr h8)] at h
    cases h
    refine ⟨h8, rfl, rfl, fun _ ↦ length_replicate, ?_⟩
    intro i _ j
    rw [rowBit_replicate_zero]
    simp
  · rw [newGenerator, if_pos h8] at h
    cases h

theorem Generator.Holds.addBloom {n : ℕ} {bloom : ℕ → Bloom} (h : gen.Holds size bloom n) (h8 : size % 8 = 0)
    (hn : n < size) : ∃ gen', gen.addBloom n (bloom n) = .ok gen' ∧ gen'.Holds size bloom (n + 1) := by
  have hcap : ¬ gen.sections ≤ gen.nextBit := by
    rw [h.sections_eq, h.nextBit_eq]
    omega
  rw [Generator.addBloom, if_neg hcap, if_neg (not_not.mpr h.nextBit_eq)]
  refine ⟨_, rfl, h.sections_eq, congrArg (· + 1) h.nextBit_eq, ?_, ?_⟩
  · intro i
    simp only
    split_ifs
    · rw [length_setRowBit, h.length_eq]
    · exact h.length_eq i
  intro i hi j
  have hrow : n / 8 < (gen.blooms i).length := by
    rw [h.length_eq]
    omega
  simp only [h.nextBit_eq, hi, true_and, (bloom n).testBit_big hi]
  split_ifs with hbit
  · rw [rowBit_setRowBit hrow, h.rowBit_eq i hi]
    by_cases hjn : j = n
    · subst hjn
      simp [hbit]
    · have hlt : j < n + 1 ↔ j < n := by omega
      simp [hjn, hlt]
  rw [h.rowBit_eq i hi]
  by_cases hjn : j = n
  · subst hjn
    simp [hbit]
  · have hlt : j < n + 1 ↔ j < n := by omega
    simp [hlt]

theorem Generator.Holds.run {start : ℕ} {blooms : ℕ → Bloom}
    (h : gen.Holds size (fun j ↦ blooms (start + j)) 0) (h8 : size % 8 = 0) {n : ℕ}
    (hn : n ≤ size) :
    Generator.Holds ((List.range' start n).foldl
      (fun gen number ↦ Bloombits.process gen (number - start) (blooms number)) gen) size
      (fun j ↦ blooms (start + j)) n := by
  induction n with
  | zero => exact h
  | succ n ih =>
    obtain ⟨gen', hadd, h'⟩ := (ih (by omega)).addBloom h8 hn
    rw [range'_1_concat, foldl_append, foldl_cons, Nat.add_sub_cancel_left, process, hadd]
    exact h'

theorem Generator.Holds.addBlooms {bloom : ℕ → Bloom} (h : gen.Holds size bloom 0) (h8 : size % 8 = 0)
    {n : ℕ} (hn : n ≤ size) : ∃ gen', (List.range n).foldlM (fun gen i ↦ gen.addBloom i (bloom i)) gen =
      .ok gen' ∧ gen'.Holds size bloom n := by
  induction n with
  | zero => exact ⟨gen, rfl, h⟩
  | succ n ih =>
    obtain ⟨gen1, hrun, h1⟩ := ih (by omega)
    obtain ⟨gen2, hadd, h2⟩ := h1.addBloom h8 hn
    refine ⟨gen2, ?_, h2⟩
    rw [range_succ, foldlM_append, hrun]
    exact bind_eq_ok.mpr ⟨gen1, rfl, bind_eq_ok.mpr ⟨gen2, hadd, rfl⟩⟩

/-- `Bitset` compares the index with the number of blooms, where there are `bloomBitLength` rows. -/
theorem transposed_iff (size : ℕ) (h8 : size % 8 = 0) (bloom : ℕ → Bloom) :
    ∃ gen, (newGenerator size >>= fun gen ↦
        (List.range size).foldlM (fun gen i ↦ gen.addBloom i (bloom i)) gen) = .ok gen ∧
      ∀ idx, ((idx < bloomBitLength → ∃ row, gen.bitset idx = .ok row ∧ row.length = size / 8 ∧
          ∀ j < size, rowBit row j = (bloom j).big.testBit idx) ∧
        (bloomBitLength ≤ idx → ∃ e, gen.bitset idx = .error (.err e))) ↔
      (idx < bloomBitLength ↔ idx < size) := by
  have hnew : newGenerator size = .ok ⟨fun _ ↦ List.replicate (size / 8) 0, size, 0⟩ :=
    if_neg (not_not.mpr h8)
  obtain ⟨gen, hrun, h⟩ := (newGenerator_holds hnew bloom).2.addBlooms h8 le_rfl
  refine ⟨gen, bind_eq_ok.mpr ⟨_, hnew, hrun⟩, fun idx ↦ ?_⟩
  rw [Generator.bitset, h.nextBit_eq, h.sections_eq, if_neg (not_not.mpr rfl)]
  by_cases hidx : idx < bloomBitLength
  · by_cases hlt : idx < size
    · rw [if_neg (not_le.mpr hlt), if_pos hidx]
      refine iff_of_true ⟨fun _ ↦ ⟨_, rfl, h.length_eq idx, fun j hj ↦ ?_⟩, fun hle ↦ ?_⟩ (by simp [hidx, hlt])
      · rw [h.rowBit_eq idx hidx, decide_eq_true hj, Bool.true_and]
      · exact absurd hidx (not_lt.mpr hle)
    · rw [if_pos (not_lt.mp hlt)]
      simp [hidx, hlt]
  by_cases hlt : idx < size
  · rw [if_neg (not_le.mpr hlt), if_neg hidx]
    simp [hidx, hlt, not_lt.mp hidx]
  · rw [if_pos (not_lt.mp hlt)]
    simp [hlt]

def emptyBloom : Bloom := ⟨List.replicate bloomByteLength 0, length_replicate⟩

/-- A bloom with the lowest bit of every byte set. -/
def onesBloom : Bloom := ⟨List.replicate bloomByteLength 1, length_replicate⟩

theorem transposed_eight : 8 % 8 = 0 ∧ ∃ gen, (newGenerator 8 >>= fun gen ↦
      (List.range 8).foldlM (fun gen i ↦ gen.addBloom i (if i = 3 then onesBloom else emptyBloom)) gen) = .ok gen ∧
    ∃ row, gen.bitset 0 = .ok row ∧ row.length = 1 ∧ rowBit row 3 = true ∧ rowBit row 4 = false := by
  obtain ⟨gen, hgen, h⟩ := transposed_iff 8 rfl (fun i ↦ if i = 3 then onesBloom else emptyBloom)
  obtain ⟨row, hrow, hlen, hbit⟩ := ((h 0).mpr (by decide)).1 (by decide)
  refine ⟨rfl, gen, hgen, row, hrow, hlen, ?_, ?_⟩
  · rw [hbit 3 (by decide)]
    decide +kernel
  · rw [hbit 4 (by decide)]
    decide +kernel

theorem bitset_refused : ∃ gen, (newGenerator 8 >>= fun gen ↦
      (List.range 8).foldlM (fun gen i ↦ gen.addBloom i emptyBloom) gen) = .ok gen ∧
    8 < bloomBitLength ∧ gen.bitset 8 = .error (.err .sectionOutOfBounds) := ⟨_, rfl, by decide, rfl⟩

theorem commit_apply {written : ℕ → Bytes} (h : commit gen = .ok written) :
    gen.nextBit = gen.sections ∧
      ∀ i < bloomBitLength, written i = compressBytes (gen.blooms i) := by
  have hprefix : ∀ n, 0 < n → ∀ w, (List.range n).foldlM (fun written i ↦ do
        let bits ← gen.bitset i
        pure (update written i (compressBytes bits))) (fun _ ↦ []) =
        (.ok w : Go (ℕ → Bytes)) →
      gen.nextBit = gen.sections ∧ ∀ i < n, w i = compressBytes (gen.blooms i) := by
    intro n
    induction n with
    | zero => exact fun h ↦ absurd h (lt_irrefl 0)
    | succ n ih =>
      intro _ w hw
      rw [range_succ, foldlM_append] at hw
      obtain ⟨w0, hw0, hw⟩ := bind_eq_ok.mp hw
      obtain ⟨w1, hw1, hw⟩ := bind_eq_ok.mp hw
      obtain ⟨bits, hbits, hw1⟩ := bind_eq_ok.mp hw1
      cases hw1
      cases hw
      have hnext : gen.nextBit = gen.sections := by
        by_contra hne
        rw [Generator.bitset, if_pos hne] at hbits
        cases hbits
      have hbits' : gen.blooms n = bits := by
        rw [Generator.bitset] at hbits
        split_ifs at hbits
        exact Except.ok.inj hbits
      refine ⟨hnext, ?_⟩
      intro i hi
      by_cases hin : i = n
      · subst hin
        rw [update_self, hbits']
      · rw [update_of_ne hin]
        exact (ih (by omega) w0 hw0).2 i (by omega)
  exact hprefix bloomBitLength (by decide) written h

theorem indexSection_eq_ok {sec : ℕ} {blooms : ℕ → Bloom} {written : ℕ → Bytes} (hsize : size < 2 ^ 64)
    (hpos : 0 < size) (hsec : sec * size < 2 ^ 64) (h : indexSection size blooms sec = .ok written) :
    size % 8 = 0 ∧ (sec + 1) * size < 2 ^ 64 ∧ ∀ i < bloomBitLength, ∃ row,
      written i = compressBytes row ∧ row.length = size / 8 ∧
        ∀ j < size, rowBit row j = (blooms (sec * size + j)).big.testBit i := by
  obtain ⟨gen, hgen, h⟩ := bind_eq_ok.mp h
  rw [mod_eq_of_lt hsec] at h
  obtain ⟨h8, hholds⟩ := newGenerator_holds hgen (fun j ↦ blooms (sec * size + j))
  obtain ⟨hfull, hwrt⟩ := commit_apply h
  have hmul : (sec + 1) * size = sec * size + size := succ_mul sec size
  -- past `2 ^ 64` the upper bound wraps below the lower one and no header is read
  by_cases hwrap : (sec + 1) * size < 2 ^ 64
  · have hrun := hholds.run h8 le_rfl
    have hcnt : (sec + 1) * size % 2 ^ 64 - sec * size = size := by
      omega
    rw [hcnt] at hwrt
    refine ⟨h8, hwrap, ?_⟩
    intro i hi
    refine ⟨_, hwrt i hi, hrun.length_eq i, ?_⟩
    intro j hj
    rw [hrun.rowBit_eq i hi, decide_eq_true hj, Bool.true_and]
  have hcnt : (sec + 1) * size % 2 ^ 64 - sec * size = 0 := by
    omega
  rw [hcnt] at hfull
  have hzero : gen.nextBit = gen.sections := hfull
  rw [hholds.nextBit_eq, hholds.sections_eq] at hzero
  omega

theorem commit_isOk (hfull : gen.nextBit = gen.sections) (hsize : bloomBitLength ≤ gen.sections) :
    ∃ written, commit gen = .ok written := by
  have hfold : ∀ (l : List ℕ) (w : ℕ → Bytes), (∀ i ∈ l, i < bloomBitLength) →
      ∃ written, l.foldlM (fun written i ↦ do
        let bits ← gen.bitset i
        pure (update written i (compressBytes bits))) w = (.ok written : Go (ℕ → Bytes)) := by
    intro l
    induction l with
    | nil => exact fun w _ ↦ ⟨w, rfl⟩
    | cons i l ih =>
      intro w hl
      have hbits : gen.bitset i = .ok (gen.blooms i) := by
        have hi := hl i mem_cons_self
        rw [Generator.bitset, if_neg (not_not.mpr hfull), if_neg (by omega), if_pos hi]
      rw [foldlM_cons, hbits]
      exact ih _ (fun j hj ↦ hl j (mem_cons_of_mem i hj))
  exact hfold _ _ (fun i hi ↦ mem_range.mp hi)

theorem indexSection_isOk (size sec : ℕ) (h8 : size % 8 = 0) (hsize : bloomBitLength ≤ size)
    (hlt : (sec + 1) * size < 2 ^ 64) (blooms : ℕ → Bloom) :
    ∃ written, indexSection size blooms sec = .ok written := by
  have hmul : (sec + 1) * size = sec * size + size := succ_mul sec size
  have hgen : newGenerator size = .ok ⟨fun _ ↦ List.replicate (size / 8) 0, size, 0⟩ :=
    if_neg (not_not.mpr h8)
  have hrun := (newGenerator_holds hgen (fun j ↦ blooms (sec * size + j))).2.run h8 le_rfl
  obtain ⟨written, hw⟩ := commit_isOk (hrun.nextBit_eq.trans hrun.sections_eq.symm)
    (hsize.trans_eq hrun.sections_eq.symm)
  refine ⟨written, bind_eq_ok.mpr ⟨_, hgen, ?_⟩⟩
  rw [mod_eq_of_lt hlt, mod_eq_of_lt (by omega),
    show (sec + 1) * size - sec * size = size by omega]
  exact hw

end BjutEth.Bloombits
