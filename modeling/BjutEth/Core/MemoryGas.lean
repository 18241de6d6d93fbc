import BjutEth.Lib.Bytes

namespace BjutEth.Core

variable {σ : Type}

structure Memory where
  store : Bytes := []
  lastGasCost : UInt64 := 0

def toWordSize (size : UInt64) : UInt64 :=
  if size > -1 - 31 then -1 / 32 + 1 else (size + 31) / 32

def memoryGasCost (mem : Memory) (newMemSize : UInt64) : Option (UInt64 × Memory) :=
  if newMemSize = 0 then some (0, mem)
  else if newMemSize > 0xffffffffe0 then none
  else
    let newMemSizeWords := toWordSize newMemSize
    if (newMemSizeWords * 32).toNat > mem.store.length then
      let square := newMemSizeWords * newMemSizeWords
      let newTotalFee := newMemSizeWords * 3 + square / 512
      some (newTotalFee - mem.lastGasCost, { mem with lastGasCost := newTotalFee })
    else some (0, mem)

def Memory.resize (mem : Memory) (size : UInt64) : Memory :=
  { mem with store := mem.store ++ List.replicate (size.toNat - mem.store.length) 0 }

/-- An entry of the jump table over the rest of a frame. `memorySize` is 0 where the table has
none, `charge` takes the whole cost, given that of the memory, and `execute` writes to the
memory but leaves its size. -/
structure Operation (σ : Type) where
  memorySize : σ → ℕ
  charge : σ → UInt64 → Option σ
  execute : σ → Bytes → Option (σ × Bytes)
  execute_length : ∀ {s s' : σ} {store store' : Bytes},
    execute s store = some (s', store') → store'.length = store.length

structure Frame (σ : Type) where
  rest : σ
  mem : Memory := {}

/-- The size in whole words, unless `bigUint64` or `SafeMul` reports an overflow. -/
def Operation.size (op : Operation σ) (s : σ) : Option UInt64 :=
  if 2 ^ 64 ≤ op.memorySize s then none
  else
    let words := toWordSize (.ofNat (op.memorySize s))
    if 2 ^ 64 ≤ words.toNat * 32 then none else some (words * 32)

/-- One round of the loop of `Interpreter.Run`. -/
def cycle (op : Operation σ) (f : Frame σ) : Option (Frame σ) := do
  let memorySize ← op.size f.rest
  let (fee, mem) ← memoryGasCost f.mem memorySize
  let s ← op.charge f.rest fee
  let mem := mem.resize memorySize
  let r ← op.execute s mem.store
  pure { rest := r.1, mem := { mem with store := r.2 } }

def memoryCost (words : ℕ) : ℕ := 3 * words + words * words / 512

def Unwrapped (words : UInt64) : Prop :=
  (words * words).toNat = words.toNat * words.toNat ∧
    (words * 3 + words * words / 512).toNat = memoryCost words.toNat

/-- The fee for the words after the first `paid`, and the total with it. -/
structure Charged (paid words : ℕ) (fee : UInt64) (mem : Memory) : Prop where
  fee : fee.toNat + memoryCost paid = memoryCost (max paid words)
  total : mem.lastGasCost.toNat = memoryCost (max paid words)

def Exact (mem : Memory) (paid : ℕ) (size : UInt64) : Prop :=
  ∀ fee mem', memoryGasCost mem size = some (fee, mem') →
    Unwrapped (toWordSize size) ∧ Charged paid (toWordSize size).toNat fee mem'

/-- The frames of a run that has paid for `paid` words, in steps of fewer than `2 ^ 32`. -/
inductive Reached (jumpTable : σ → Operation σ) : Frame σ → ℕ → Prop
  | start (s : σ) : Reached jumpTable { rest := s } 0
  | cycle {f f' : Frame σ} {paid : ℕ} {size : UInt64} (h : Reached jumpTable f paid)
      (hsize : (jumpTable f.rest).size f.rest = some size) (hfits : size ≤ 0x1fffffffe0)
      (hc : cycle (jumpTable f.rest) f = some f') : Reached jumpTable f' (max paid (toWordSize size).toNat)

structure Memory.Paid (mem : Memory) (paid : ℕ) : Prop where
  length : mem.store.length = 32 * paid
  total : mem.lastGasCost.toNat = memoryCost paid

variable {mem mem' : Memory} {paid : ℕ} {size fee words : UInt64} {jumpTable : σ → Operation σ} {f : Frame σ}

theorem toNat_toWordSize (h : size ≤ 0xffffffffe0) : (toWordSize size).toNat = (size.toNat + 31) / 32 := by
  have h' : size.toNat ≤ 0xffffffffe0 := UInt64.le_iff_toNat_le.mp h
  have hs : ¬ size > -1 - 31 := by
    exact Nat.not_lt.mpr (h'.trans (by decide))
  rw [toWordSize, if_neg hs, UInt64.toNat_div, UInt64.toNat_add]
  show (size.toNat + 31) % 2 ^ 64 / 32 = _
  rw [Nat.mod_eq_of_lt (by omega)]

theorem words_lt (h : size ≤ 0x1fffffffe0) :
    (toWordSize size).toNat = (size.toNat + 31) / 32 ∧ (toWordSize size).toNat < 2 ^ 32 := by
  have h' : size.toNat ≤ 0x1fffffffe0 := UInt64.le_iff_toNat_le.mp h
  have hw := toNat_toWordSize (UInt64.le_trans h (by decide))
  exact ⟨hw, by omega⟩

theorem unwrapped (h : words.toNat < 2 ^ 32) : Unwrapped words := by
  have hsq : words.toNat * words.toNat ≤ (2 ^ 32 - 1) * (2 ^ 32 - 1) :=
    Nat.mul_le_mul (Nat.le_sub_one_of_lt h) (Nat.le_sub_one_of_lt h)
  have hww : (words * words).toNat = words.toNat * words.toNat := by
    rw [UInt64.toNat_mul, Nat.mod_eq_of_lt (by omega)]
  refine ⟨hww, ?_⟩
  rw [UInt64.toNat_add, UInt64.toNat_mul, UInt64.toNat_div, hww]
  show (words.toNat * 3 % 2 ^ 64 + words.toNat * words.toNat / 512) % 2 ^ 64 = 3 * _ + _ * _ / 512
  omega

theorem Memory.Paid.charged (hp : mem.Paid paid) (h : size ≤ 0x1fffffffe0)
    (hm : memoryGasCost mem size = some (fee, mem')) :
    Charged paid (toWordSize size).toNat fee mem' ∧ mem'.store = mem.store := by
  obtain ⟨hw, hlt⟩ := words_lt h
  have hbytes : (toWordSize size * 32).toNat = (toWordSize size).toNat * 32 := by
    rw [UInt64.toNat_mul]
    exact Nat.mod_eq_of_lt (by show _ * 32 < _; omega)
  -- nothing is charged for what is paid for already
  have hold (hle : (toWordSize size).toNat ≤ paid) : Charged paid (toWordSize size).toNat 0 mem := by
    constructor
    · rw [max_eq_left hle]
      exact Nat.zero_add _
    · rw [max_eq_left hle, hp.total]
  unfold memoryGasCost at hm
  dsimp only at hm
  rw [hbytes, hp.length] at hm
  split_ifs at hm with h0 _ h1
  · cases hm
    refine ⟨hold ?_, rfl⟩
    rw [hw, h0]
    exact Nat.zero_le _
  · cases hm
    have hle : paid ≤ (toWordSize size).toNat := by omega
    have htot := (unwrapped hlt).2
    have hmono : memoryCost paid ≤ memoryCost (toWordSize size).toNat :=
      Nat.add_le_add (Nat.mul_le_mul_left 3 hle) (Nat.div_le_div_right (Nat.mul_le_mul hle hle))
    rw [← htot, ← hp.total] at hmono
    refine ⟨⟨?_, ?_⟩, rfl⟩
    · rw [max_eq_right hle, ← htot, UInt64.toNat_sub_of_le _ _ (UInt64.le_iff_toNat_le.mpr hmono), ← hp.total]
      exact Nat.sub_add_cancel hmono
    · rw [max_eq_right hle, ← htot]
  · cases hm
    exact ⟨hold (by omega), rfl⟩

theorem size_mod {op : Operation σ} {s : σ} (h : op.size s = some size) : size.toNat % 32 = 0 := by
  unfold Operation.size at h
  dsimp only at h
  split_ifs at h
  cases h
  show _ * 32 % _ % 32 = 0
  omega

theorem Reached.accounts (h : Reached jumpTable f paid) : f.mem.Paid paid := by
  induction h with
  | start => exact ⟨rfl, rfl⟩
  | cycle _ hsize hfits hc ih =>
    obtain ⟨size', hs, hc⟩ := Option.bind_eq_some_iff.mp hc
    cases hsize.symm.trans hs
    obtain ⟨⟨fee, mem⟩, hm, hc⟩ := Option.bind_eq_some_iff.mp hc
    obtain ⟨s, -, hc⟩ := Option.bind_eq_some_iff.mp hc
    obtain ⟨⟨s', store⟩, hx, hc⟩ := Option.bind_eq_some_iff.mp hc
    cases hc
    obtain ⟨hchd, hsto⟩ := ih.charged hfits hm
    have hw := (words_lt hfits).1
    have hmod := size_mod hs
    have hlen : store.length = _ + (_ - _) := (Operation.execute_length _ hx).trans
      (List.length_append.trans (congrArg _ List.length_replicate))
    rw [hsto, ih.length] at hlen
    exact ⟨hlen.trans (by omega), hchd.total⟩

theorem memory_charged (h : Reached jumpTable f paid) :
    f.mem.store.length = 32 * paid ∧ f.mem.lastGasCost.toNat = memoryCost paid ∧
    ∀ size, Exact f.mem paid size ↔ size ≤ 0x1fffffffe0 ∨ 0xffffffffe0 < size := by
  refine ⟨h.accounts.length, h.accounts.total, fun size ↦ ⟨fun hx ↦ ?_, ?_⟩⟩
  · by_contra hnot
    rw [not_or, UInt64.not_le, UInt64.not_lt] at hnot
    have hok : ∃ r, memoryGasCost f.mem size = some r := by
      unfold memoryGasCost
      rw [if_neg (UInt64.not_lt.mpr hnot.2)]
      dsimp only
      split_ifs
      all_goals exact ⟨_, rfl⟩
    obtain ⟨⟨fee, mem'⟩, hm⟩ := hok
    have hsq := (hx fee mem' hm).1.1
    have hlt : 0x1fffffffe0 < size.toNat := UInt64.lt_iff_toNat_lt.mp hnot.1
    have hw : 2 ^ 32 ≤ (toWordSize size).toNat := by
      rw [toNat_toWordSize hnot.2]
      omega
    have hge := Nat.mul_le_mul hw hw
    have hfit := (toWordSize size * toWordSize size).toNat_lt
    omega
  rintro (hle | hlt) fee mem' hm
  · exact ⟨unwrapped (words_lt hle).2, (h.accounts.charged hle hm).1⟩
  unfold memoryGasCost at hm
  split_ifs at hm with h0
  subst h0
  cases hlt

theorem mstore_length {s s' : ℕ} {store store' : Bytes} (h : some (s, store) = some (s', store')) :
    store'.length = store.length :=
  congrArg (List.length ∘ Prod.snd) (Option.some.inj h).symm

/-- `MSTORE` in a frame that is the offset on its stack, with gas for anything. -/
def mstore : Operation ℕ where
  memorySize s := s + 32
  charge s _ := some s
  execute s store := some (s, store)
  execute_length := mstore_length

/-- After a word was stored at 32. -/
theorem memory_charged_stored : ∃ f, cycle mstore { rest := 32 } = some f ∧ f.mem.store.length = 64 ∧
    f.mem.lastGasCost = 6 ∧ Exact f.mem 2 128 := by
  have hr : Reached (fun _ ↦ mstore) _ (max 0 (toWordSize 64).toNat) := .cycle (.start 32) rfl (by decide) rfl
  have hpaid : max 0 (toWordSize 64).toNat = 2 := by decide
  rw [hpaid] at hr
  exact ⟨_, rfl, (memory_charged hr).1, rfl, ((memory_charged hr).2.2 128).mpr (.inl (by decide))⟩

/-- Storing at `2 ^ 37 - 32` is accepted for the linear part of the cost. -/
theorem wrapped_square : Reached (fun _ ↦ mstore) { rest := 2 ^ 37 - 32 } 0 ∧
    mstore.size (2 ^ 37 - 32) = some (2 ^ 37) ∧
    memoryGasCost {} (2 ^ 37) = some (3 * 2 ^ 32, { lastGasCost := 3 * 2 ^ 32 }) ∧
    memoryCost (2 ^ 32) = 3 * 2 ^ 32 + 2 ^ 55 ∧ ¬ Exact {} 0 (2 ^ 37) := by
  refine ⟨.start _, rfl, rfl, rfl, fun h ↦ ?_⟩
  have hsq := (h _ _ rfl).1.1
  exact absurd hsq (by decide)

end BjutEth.Core
