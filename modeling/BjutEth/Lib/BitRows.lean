import BjutEth.Lib.Bytes

/-! Rows of bits stored in bytes, the first bit of the row being the high bit of the first byte. -/

namespace BjutEth

open List Nat

def byteMask (k : ℕ) : UInt8 := 1 <<< UInt8.ofNat k

variable {k : ℕ} {a b : Bytes}

theorem toNat_byteMask (hk : k < 8) : (byteMask k).toNat = 2 ^ k := by
  interval_cases k <;> rfl

theorem and_byteMask_ne_zero (hk : k < 8) (b : UInt8) : b &&& byteMask k ≠ 0 ↔ b.toNat.testBit k = true := by
  rw [ne_eq, ← UInt8.toNat_inj, UInt8.toNat_and, toNat_byteMask hk, and_two_pow]
  cases b.toNat.testBit k <;> simp

theorem testBit_or_byteMask (hk : k < 8) (b : UInt8) (j : ℕ) :
    (b ||| byteMask k).toNat.testBit j = (b.toNat.testBit j || decide (j = k)) := by
  rw [UInt8.toNat_or, toNat_byteMask hk, testBit_or, testBit_two_pow]
  congr 1
  exact decide_eq_decide.mpr eq_comm

def rowBit (v : Bytes) (k : ℕ) : Bool := (v.getD (k / 8) 0).toNat.testBit (7 - k % 8)

def setRowBit (v : Bytes) (k : ℕ) : Bytes := v.modify (k / 8) (· ||| byteMask (7 - k % 8))

@[simp] theorem length_setRowBit (v : Bytes) (k : ℕ) : (setRowBit v k).length = v.length :=
  length_modify _ _ _

theorem rowBit_setRowBit {v : Bytes} (hk : k / 8 < v.length) (j : ℕ) :
    rowBit (setRowBit v k) j = (rowBit v j || decide (j = k)) := by
  by_cases hdiv : j / 8 = k / 8
  · have hget : (setRowBit v k).getD (j / 8) 0 = v.getD (j / 8) 0 ||| byteMask (7 - k % 8) := by
      rw [setRowBit, hdiv, getD_eq_getElem?_getD, getD_eq_getElem?_getD,
        getElem?_modify_eq, getElem?_eq_getElem hk]
      rfl
    rw [rowBit, hget, testBit_or_byteMask (by omega)]
    congr 1
    exact decide_eq_decide.mpr (by omega)
  have hget : (setRowBit v k).getD (j / 8) 0 = v.getD (j / 8) 0 := by
    rw [setRowBit, getD_eq_getElem?_getD, getD_eq_getElem?_getD,
      getElem?_modify_ne _ _ (Ne.symm hdiv)]
  have hne : j ≠ k := fun h ↦ hdiv (h ▸ rfl)
  rw [rowBit, hget, decide_eq_false hne, Bool.or_false, rowBit]

theorem eq_of_rowBit (hlen : a.length = b.length) (h : ∀ k, rowBit a k = rowBit b k) : a = b := by
  refine ext_getElem hlen (fun i ha hb ↦ UInt8.toNat_inj.mp (eq_of_testBit_eq fun j ↦ ?_))
  by_cases hj : j < 8
  · have hk := h (8 * i + (7 - j))
    rw [rowBit, rowBit, show (8 * i + (7 - j)) / 8 = i by omega, show 7 - (8 * i + (7 - j)) % 8 = j by omega,
      getD_eq_getElem _ _ ha, getD_eq_getElem _ _ hb] at hk
    exact hk
  have hsmall (x : UInt8) : x.toNat.testBit j = false :=
    testBit_lt_two_pow (x.toNat_lt.trans_le (Nat.pow_le_pow_right Nat.two_pos (not_lt.mp hj)))
  rw [hsmall, hsmall]

theorem rowBit_replicate_zero (n k : ℕ) : rowBit (List.replicate n 0) k = false := by
  have hget : (List.replicate n (0 : UInt8)).getD (k / 8) 0 = 0 := by
    rw [getD_eq_getElem?_getD, getElem?_replicate]
    split_ifs <;> rfl
  rw [rowBit, hget]
  exact zero_testBit _

theorem rowBit_replicate_ones {n : ℕ} (hk : k / 8 < n) : rowBit (List.replicate n 255) k = true := by
  have hget : (List.replicate n (255 : UInt8)).getD (k / 8) 0 = 255 :=
    getD_replicate _ hk
  have hlt : 7 - k % 8 < 8 := by omega
  rw [rowBit, hget]
  generalize 7 - k % 8 = j at hlt
  interval_cases j <;> rfl

def mergeBytes (f : UInt8 → UInt8 → UInt8) (a b : Bytes) : Bytes :=
  List.zipWith f a b ++ a.drop b.length

def andBytes : Bytes → Bytes → Bytes := mergeBytes (· &&& ·)

def orBytes : Bytes → Bytes → Bytes := mergeBytes (· ||| ·)

def testBytes (p : Bytes) : Bool := p.any (· != 0)

theorem length_mergeBytes (f : UInt8 → UInt8 → UInt8) (a b : Bytes) :
    (mergeBytes f a b).length = a.length := by
  simp only [mergeBytes, length_append, length_zipWith, length_drop]
  omega

theorem mergeBytes_of_length_eq (f : UInt8 → UInt8 → UInt8) (h : b.length = a.length) :
    mergeBytes f a b = List.zipWith f a b := by
  rw [mergeBytes, h, drop_length, append_nil]

theorem getD_mergeBytes (f : UInt8 → UInt8 → UInt8) (hf : f 0 0 = 0) (h : b.length = a.length) (k : ℕ) :
    (mergeBytes f a b).getD k 0 = f (a.getD k 0) (b.getD k 0) := by
  rw [mergeBytes_of_length_eq f h]
  by_cases hk : k < a.length
  · rw [getD_eq_getElem _ _ (by simpa [h] using hk), getElem_zipWith,
      getD_eq_getElem _ _ hk, getD_eq_getElem _ _ (by omega)]
  · rw [getD_eq_default _ _ (by simp only [length_zipWith]; omega),
      getD_eq_default _ _ (by omega), getD_eq_default _ _ (by omega), hf]

theorem rowBit_andBytes (h : b.length = a.length) (k : ℕ) :
    rowBit (andBytes a b) k = (rowBit a k && rowBit b k) := by
  rw [rowBit, andBytes, getD_mergeBytes _ rfl h, UInt8.toNat_and, testBit_and]
  rfl

theorem rowBit_orBytes (h : b.length = a.length) (k : ℕ) :
    rowBit (orBytes a b) k = (rowBit a k || rowBit b k) := by
  rw [rowBit, orBytes, getD_mergeBytes _ rfl h, UInt8.toNat_or, testBit_or]
  rfl

@[simp] theorem length_andBytes (a b : Bytes) : (andBytes a b).length = a.length :=
  length_mergeBytes _ a b

@[simp] theorem length_orBytes (a b : Bytes) : (orBytes a b).length = a.length :=
  length_mergeBytes _ a b

theorem rowBit_of_testBytes_false {p : Bytes} (h : testBytes p = false) (k : ℕ) :
    rowBit p k = false := by
  have hzero : p.getD (k / 8) 0 = 0 := by
    by_cases hk : k / 8 < p.length
    · rw [getD_eq_getElem _ _ hk]
      have := List.any_eq_false.mp h _ (getElem_mem hk)
      simpa using this
    · exact getD_eq_default _ _ (by omega)
  rw [rowBit, hzero]
  exact zero_testBit _

end BjutEth
