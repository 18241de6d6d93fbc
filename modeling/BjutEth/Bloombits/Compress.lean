import BjutEth.Lib.BitRows

/-! The sparse compression that the bit vectors of the index are stored with. -/

namespace BjutEth.Bloombits

open List
open List (replicate)

inductive CompressError
  | missingData | unreferencedData | exceededTarget | zeroContent
  deriving DecidableEq

/-- The first `n` rounds of the loop of `bitsetEncodeBytes`: the bit vector of the non-zero
bytes. -/
def nonZeroBitset (data : Bytes) : ℕ → Bytes
  | 0 => List.replicate ((data.length + 7) / 8) 0
  | n + 1 =>
    if data.getD n 0 ≠ 0 then setRowBit (nonZeroBitset data n) n else nonZeroBitset data n

def nonZeroBytes (data : Bytes) : Bytes := data.filter (· ≠ 0)

theorem nonZeroBytes_append (a b : Bytes) :
    nonZeroBytes (a ++ b) = nonZeroBytes a ++ nonZeroBytes b := filter_append ..

theorem nonZeroBytes_cons_of_ne {b : UInt8} (hb : b ≠ 0) (l : Bytes) :
    nonZeroBytes (b :: l) = b :: nonZeroBytes l := by
  simp [nonZeroBytes, hb]

theorem length_nonZeroBitset (data : Bytes) (n : ℕ) :
    (nonZeroBitset data n).length = (data.length + 7) / 8 := by
  induction n with
  | zero => exact length_replicate
  | succ n ih =>
    rw [nonZeroBitset]
    split_ifs
    · rw [length_setRowBit, ih]
    · exact ih

def bitsetEncodeBytes (data : Bytes) : Bytes :=
  if data.length = 0 then []
  else if _h : data.length = 1 then (if data.getD 0 0 = 0 then [] else data)
  else if nonZeroBytes data = [] then []
  else bitsetEncodeBytes (nonZeroBitset data data.length) ++ nonZeroBytes data
termination_by data.length
decreasing_by
  rw [length_nonZeroBitset]
  omega

def compressBytes (data : Bytes) : Bytes :=
  if (bitsetEncodeBytes data).length < data.length then bitsetEncodeBytes data else data

def distribute (data bitset : Bytes) (s : Bytes × ℕ) (i : ℕ) : Except CompressError (Bytes × ℕ) :=
  if rowBit bitset i then
    if data.length ≤ s.2 then .error .missingData
    else if s.1.length ≤ i then .error .exceededTarget
    else if data.getD s.2 0 = 0 then .error .zeroContent
    else .ok (s.1.set i (data.getD s.2 0), s.2 + 1)
  else .ok s

def bitsetDecodePartialBytes (data : Bytes) (target : ℕ) : Except CompressError (Bytes × ℕ) :=
  if target = 0 then .ok ([], 0)
  else if data.length = 0 then .ok (List.replicate target 0, 0)
  else if _h : target = 1 then .ok ([data.getD 0 0], if data.getD 0 0 ≠ 0 then 1 else 0)
  else
    match bitsetDecodePartialBytes data ((target + 7) / 8) with
    | .error e => .error e
    | .ok (bitset, ptr) =>
      (List.range (8 * bitset.length)).foldlM (distribute data bitset)
        (List.replicate target 0, ptr)
termination_by target
decreasing_by omega

def bitsetDecodeBytes (data : Bytes) (target : ℕ) : Except CompressError Bytes :=
  match bitsetDecodePartialBytes data target with
  | .error e => .error e
  | .ok (out, size) => if size ≠ data.length then .error .unreferencedData else .ok out

def decompressBytes (data : Bytes) (target : ℕ) : Except CompressError Bytes :=
  if target < data.length then .error .exceededTarget
  else if data.length = target then .ok data
  else bitsetDecodeBytes data target

variable {data : Bytes}

theorem rowBit_nonZeroBitset {n : ℕ} (hn : n ≤ data.length) (k : ℕ) :
    rowBit (nonZeroBitset data n) k = decide (k < n ∧ data.getD k 0 ≠ 0) := by
  induction n with
  | zero =>
    rw [nonZeroBitset, rowBit_replicate_zero]
    simp
  | succ n ih =>
    have ih := ih (by omega)
    rw [nonZeroBitset]
    by_cases hz : data.getD n 0 = 0
    · rw [if_neg (not_not.mpr hz), ih]
      apply decide_eq_decide.mpr
      constructor
      · rintro ⟨hk, hne⟩
        exact ⟨by omega, hne⟩
      rintro ⟨hk, hne⟩
      refine ⟨?_, hne⟩
      have : k ≠ n := fun h ↦ hne (h ▸ hz)
      omega
    have hlen : n / 8 < (nonZeroBitset data n).length := by
      rw [length_nonZeroBitset]
      omega
    rw [if_pos hz, rowBit_setRowBit hlen, ih, ← Bool.decide_or]
    apply decide_eq_decide.mpr
    constructor
    · rintro (⟨hk, hne⟩ | rfl)
      · exact ⟨by omega, hne⟩
      · exact ⟨by omega, hz⟩
    rintro ⟨hk, hne⟩
    by_cases hkn : k = n
    · exact Or.inr hkn
    · exact Or.inl ⟨by omega, hne⟩

theorem foldlM_distribute (data enc rest : Bytes) {i : ℕ} (hi : i ≤ data.length) :
    (List.range i).foldlM
        (distribute (enc ++ nonZeroBytes data ++ rest) (nonZeroBitset data data.length))
        (replicate data.length 0, enc.length) =
      .ok (data.take i ++ replicate (data.length - i) 0,
        enc.length + (nonZeroBytes (data.take i)).length) := by
  induction i with
  | zero => simp [nonZeroBytes]; rfl
  | succ i ih =>
    have hlt : i < data.length := hi
    have htake : data.take (i + 1) = data.take i ++ [data.getD i 0] := by
      rw [getD_eq_getElem _ _ hlt]
      exact take_succ_eq_append_getElem hlt
    have hrep : replicate (data.length - i) (0 : UInt8) =
        0 :: replicate (data.length - (i + 1)) 0 := by
      rw [← replicate_succ]
      congr 1
      omega
    have hlen : (data.take i).length = i := length_take_of_le hlt.le
    rw [range_succ, foldlM_append, ih hlt.le]
    simp only [foldlM_cons, foldlM_nil, bind_pure]
    show distribute _ _ _ i = _
    rw [distribute, rowBit_nonZeroBitset le_rfl]
    by_cases hz : data.getD i 0 = 0
    · rw [htake, hz, hrep]
      simp [nonZeroBytes]
    -- the next non-zero byte is the one at `i`
    have hspl : nonZeroBytes data = nonZeroBytes (data.take i) ++
        data.getD i 0 :: nonZeroBytes (data.drop (i + 1)) := by
      calc nonZeroBytes data
          = nonZeroBytes (data.take i ++ data.drop i) := by rw [take_append_drop]
        _ = nonZeroBytes (data.take i) ++ nonZeroBytes (data.drop i) := nonZeroBytes_append ..
        _ = nonZeroBytes (data.take i) ++
            data.getD i 0 :: nonZeroBytes (data.drop (i + 1)) := by
          rw [drop_eq_getElem_cons hlt, ← getD_eq_getElem _ 0 hlt, nonZeroBytes_cons_of_ne hz]
    have hget : (enc ++ nonZeroBytes data ++ rest).getD
        (enc.length + (nonZeroBytes (data.take i)).length) 0 = data.getD i 0 := by
      rw [hspl, getD_eq_getElem?_getD, List.append_assoc,
        getElem?_append_right (Nat.le_add_right _ _), Nat.add_sub_cancel_left,
        List.append_assoc, getElem?_append_right le_rfl, Nat.sub_self]
      rfl
    have hptr : ¬ (enc ++ nonZeroBytes data ++ rest).length ≤
        enc.length + (nonZeroBytes (data.take i)).length := by
      rw [hspl]
      simp only [length_append, length_cons]
      omega
    have hout : ¬ (data.take i ++ replicate (data.length - i) (0 : UInt8)).length ≤ i := by
      rw [length_append, length_replicate]
      omega
    rw [if_pos (decide_eq_true ⟨hlt, hz⟩), if_neg hptr, if_neg hout, hget, if_neg hz, htake, hrep]
    rw [nonZeroBytes_append, nonZeroBytes_cons_of_ne hz, set_append_right _ _ hlen.le, hlen,
      Nat.sub_self, length_append, List.append_assoc]
    rfl

theorem foldlM_distribute_idle {bitset : Bytes} {s : Bytes × ℕ} {l : List ℕ}
    (h : ∀ i ∈ l, rowBit bitset i = false) : l.foldlM (distribute data bitset) s = .ok s := by
  induction l with
  | nil => rfl
  | cons i l ih =>
    have hstep : distribute data bitset s i = .ok s := by
      rw [distribute, h i mem_cons_self]
      rfl
    rw [foldlM_cons, hstep]
    exact ih (fun j hj ↦ h j (mem_cons_of_mem i hj))

theorem foldlM_distribute_all (data enc rest : Bytes) :
    (List.range (8 * (nonZeroBitset data data.length).length)).foldlM
        (distribute (enc ++ nonZeroBytes data ++ rest) (nonZeroBitset data data.length))
        (replicate data.length 0, enc.length) =
      .ok (data, enc.length + (nonZeroBytes data).length) := by
  obtain ⟨k, hk⟩ : ∃ k, 8 * (nonZeroBitset data data.length).length = data.length + k := by
    refine ⟨8 * (nonZeroBitset data data.length).length - data.length, ?_⟩
    rw [length_nonZeroBitset]
    omega
  rw [hk, range_add, foldlM_append, foldlM_distribute data enc rest le_rfl]
  simp only [take_length, Nat.sub_self, replicate_zero, append_nil]
  apply foldlM_distribute_idle
  intro i hi
  obtain ⟨j, -, rfl⟩ := List.mem_map.mp hi
  rw [rowBit_nonZeroBitset le_rfl]
  simp

theorem nonZeroBytes_eq_nil (h : nonZeroBytes data = []) : data = replicate data.length 0 := by
  apply eq_replicate_of_mem
  intro b hb
  have := filter_eq_nil_iff.mp h b hb
  simpa using this

theorem nonZeroBytes_nonZeroBitset_ne (h : nonZeroBytes data ≠ []) :
    nonZeroBytes (nonZeroBitset data data.length) ≠ [] := by
  intro hnil
  apply h
  apply filter_eq_nil_iff.mpr
  intro b hb
  obtain ⟨k, hk, rfl⟩ := getElem_of_mem hb
  have hbit := rowBit_nonZeroBitset (n := data.length) le_rfl k
  rw [nonZeroBytes_eq_nil hnil, rowBit_replicate_zero] at hbit
  have hz := of_decide_eq_false hbit.symm
  simpa [hk] using hz

theorem bitsetEncodeBytes_ne_nil (h : nonZeroBytes data ≠ []) : bitsetEncodeBytes data ≠ [] := by
  have h0 : ¬ data.length = 0 := by
    intro h0
    rw [eq_nil_of_length_eq_zero h0] at h
    exact h rfl
  rw [bitsetEncodeBytes, if_neg h0]
  by_cases h1 : data.length = 1
  · obtain ⟨b, rfl⟩ := length_eq_one_iff.mp h1
    have hb : b ≠ 0 := by
      intro hb
      rw [hb] at h
      exact h rfl
    simp [hb]
  · rw [dif_neg h1]
    simp [h]

theorem bitsetDecodePartialBytes_encode (data rest : Bytes) (h : nonZeroBytes data ≠ []) :
    bitsetDecodePartialBytes (bitsetEncodeBytes data ++ rest) data.length =
      .ok (data, (bitsetEncodeBytes data).length) := by
  induction hn : data.length using Nat.strong_induction_on generalizing data rest with
  | h n ih =>
    subst hn
    have h0 : ¬ data.length = 0 := by
      intro h0
      rw [eq_nil_of_length_eq_zero h0] at h
      exact h rfl
    have hne : ¬ (bitsetEncodeBytes data ++ rest).length = 0 := by
      have := length_pos_iff.mpr (bitsetEncodeBytes_ne_nil h)
      rw [length_append]
      omega
    by_cases h1 : data.length = 1
    · obtain ⟨b, rfl⟩ := length_eq_one_iff.mp h1
      have hb : b ≠ 0 := by
        intro hb
        rw [hb] at h
        exact h rfl
      have henc : bitsetEncodeBytes [b] = [b] := by
        rw [bitsetEncodeBytes]
        simp [hb]
      rw [bitsetDecodePartialBytes, henc]
      simp [hb]
    have henc : bitsetEncodeBytes data =
        bitsetEncodeBytes (nonZeroBitset data data.length) ++ nonZeroBytes data := by
      rw [bitsetEncodeBytes, if_neg h0, dif_neg h1, if_neg h]
    have hrec := ih _ (by rw [length_nonZeroBitset]; omega)
      (nonZeroBitset data data.length) (nonZeroBytes data ++ rest)
      (nonZeroBytes_nonZeroBitset_ne h) rfl
    rw [length_nonZeroBitset, ← List.append_assoc] at hrec
    rw [bitsetDecodePartialBytes, if_neg h0, if_neg hne, dif_neg h1, henc, hrec]
    simp only [foldlM_distribute_all, length_append]

theorem bitsetEncodeBytes_of_zero (h : nonZeroBytes data = []) : bitsetEncodeBytes data = [] := by
  rw [bitsetEncodeBytes]
  by_cases h0 : data.length = 0
  · rw [if_pos h0]
  by_cases h1 : data.length = 1
  · obtain ⟨b, rfl⟩ := length_eq_one_iff.mp h1
    have hb := nonZeroBytes_eq_nil h
    rw [hb]
    rfl
  · rw [if_neg h0, dif_neg h1, if_pos h]

theorem decompressBytes_compressBytes (data : Bytes) :
    decompressBytes (compressBytes data) data.length = .ok data := by
  by_cases hlt : (bitsetEncodeBytes data).length < data.length
  · rw [compressBytes, if_pos hlt, decompressBytes, if_neg (by omega), if_neg (by omega),
      bitsetDecodeBytes]
    by_cases hz : nonZeroBytes data = []
    · have h0 : data.length ≠ 0 := by omega
      rw [bitsetEncodeBytes_of_zero hz, bitsetDecodePartialBytes, if_neg h0, if_pos length_nil]
      simp only [length_nil, ne_eq, not_true_eq_false, if_false]
      rw [← nonZeroBytes_eq_nil hz]
    have hdec := bitsetDecodePartialBytes_encode data [] hz
    rw [append_nil] at hdec
    rw [hdec]
    simp
  · rw [compressBytes, if_neg hlt, decompressBytes, if_neg (by omega), if_pos rfl]

end BjutEth.Bloombits
