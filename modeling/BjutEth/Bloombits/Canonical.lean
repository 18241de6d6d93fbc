import BjutEth.Bloombits.Compress
import BjutEth.Lib.Outcome

namespace BjutEth.Bloombits

open List

/-- After `n` rounds the decoder has filled `filled` with what it read after `ptr`. -/
structure Distributed (data bitset : Bytes) (target ptr n : ℕ) (s : Bytes × ℕ) (filled : Bytes) : Prop where
  out : s.1 = filled ++ List.replicate (target - n) 0
  length : filled.length = min n target
  bits : ∀ k, filled.getD k 0 ≠ 0 ↔ k < n ∧ rowBit bitset k = true
  read : data.take s.2 = data.take ptr ++ nonZeroBytes filled
  le : s.2 ≤ data.length

variable {data bitset : Bytes} {target ptr n : ℕ} {s s' : Bytes × ℕ} {filled : Bytes}

theorem Distributed.step (h : Distributed data bitset target ptr n s filled)
    (hs : distribute data bitset s n = .ok s') :
    ∃ filled', Distributed data bitset target ptr (n + 1) s' filled' := by
  have hget (b : UInt8) (hn : n < target) (k : ℕ) :
      (filled ++ [b]).getD k 0 = if k = n then b else filled.getD k 0 := by
    have hlen : filled.length = n := h.length.trans (min_eq_left hn.le)
    rcases lt_trichotomy k n with hk | hk | hk
    · rw [if_neg hk.ne, getD_append _ _ _ _ (hlen ▸ hk)]
    · rw [if_pos hk, getD_append_right _ _ _ _ (by omega), hlen, hk, Nat.sub_self]
      rfl
    · rw [if_neg hk.ne', getD_eq_default _ _ (by simp; omega), getD_eq_default _ _ (by omega)]
  have hbits (b : UInt8) (hn : n < target) (hb : b ≠ 0 ↔ rowBit bitset n = true) (k : ℕ) :
      (filled ++ [b]).getD k 0 ≠ 0 ↔ k < n + 1 ∧ rowBit bitset k = true := by
    rw [hget b hn]
    split_ifs with hk
    · rw [hk, hb]
      simp
    rw [h.bits]
    refine and_congr_left fun _ ↦ ?_
    omega
  have hrep (hn : n < target) :
      List.replicate (target - n) (0 : UInt8) = 0 :: List.replicate (target - (n + 1)) 0 := by
    rw [← replicate_succ]
    congr 1
    omega
  unfold distribute at hs
  cases hbit : rowBit bitset n with
  | true =>
    split_ifs at hs with hptr hout hz
    cases hs
    have hn : n < target := by
      rw [h.out, length_append, length_replicate, h.length] at hout
      omega
    have hlen : filled.length = n := h.length.trans (min_eq_left hn.le)
    refine ⟨filled ++ [data.getD s.2 0], ?_, ?_, hbits _ hn (iff_of_true hz hbit), ?_, by omega⟩
    · rw [h.out, hrep hn, set_append_right _ _ hlen.le, hlen, Nat.sub_self, append_assoc]
      rfl
    · rw [length_append, hlen, min_eq_left hn]
      rfl
    have hlt : s.2 < data.length := not_le.mp hptr
    rw [nonZeroBytes_append, nonZeroBytes_cons_of_ne hz, ← append_assoc, ← h.read,
      take_succ_eq_append_getElem hlt, getD_eq_getElem _ _ hlt]
    rfl
  | false =>
    rw [hbit] at hs
    cases hs
    by_cases hn : n < target
    · refine ⟨filled ++ [0], ?_, ?_, hbits 0 hn (by simp [hbit]), ?_, h.le⟩
      · rw [h.out, hrep hn, append_assoc]
        rfl
      · rw [length_append, h.length]
        simp only [length_singleton]
        omega
      · rw [h.read]
        simp [nonZeroBytes]
    refine ⟨filled, ?_, ?_, fun k ↦ ?_, h.read, h.le⟩
    · rw [h.out]
      congr 2
      omega
    · rw [h.length]
      omega
    rw [h.bits]
    constructor
    · exact fun hk ↦ ⟨by omega, hk.2⟩
    rintro ⟨hk, hb⟩
    refine ⟨?_, hb⟩
    have hne : k ≠ n := fun he ↦ by rw [he, hbit] at hb; cases hb
    omega

theorem distributed_foldlM (hptr : ptr ≤ data.length) (n : ℕ)
    (hs : (List.range n).foldlM (distribute data bitset) (List.replicate target 0, ptr) = .ok s) :
    ∃ filled, Distributed data bitset target ptr n s filled := by
  induction n generalizing s with
  | zero =>
    cases hs
    exact ⟨[], rfl, by simp, by simp, by simp [nonZeroBytes], hptr⟩
  | succ n ih =>
    rw [range_succ, foldlM_append] at hs
    cases hmid : (List.range n).foldlM (distribute data bitset) (List.replicate target 0, ptr) with
    | error e =>
      rw [hmid] at hs
      cases hs
    | ok mid =>
      obtain ⟨filled, h⟩ := ih hmid
      refine h.step ?_
      rw [hmid] at hs
      simp only [foldlM_cons, foldlM_nil, bind_pure] at hs
      exact hs

theorem Distributed.encode {out : Bytes} {size : ℕ} (hb : bitset.length = (target + 7) / 8) (ht : 2 ≤ target)
    (h : Distributed data bitset target ptr (8 * bitset.length) (out, size) filled)
    (henc : bitsetEncodeBytes bitset = data.take ptr) :
    out.length = target ∧ bitsetEncodeBytes out = data.take size := by
  have hout : out = filled := by
    have hout := h.out
    rwa [show target - 8 * bitset.length = 0 by omega, replicate_zero, append_nil] at hout
  have hlen : out.length = target := by
    rw [hout, h.length]
    omega
  have hbitset : nonZeroBitset out out.length = bitset := by
    refine eq_of_rowBit (by rw [length_nonZeroBitset, hlen, hb]) (fun k ↦ ?_)
    rw [rowBit_nonZeroBitset le_rfl, Bool.eq_iff_iff, decide_eq_true_eq, hout, h.bits]
    refine ⟨fun hk ↦ hk.2.2, fun hk ↦ ?_⟩
    have hlt : k / 8 < bitset.length := by
      by_contra hge
      rw [rowBit, getD_eq_default _ _ (not_lt.mp hge)] at hk
      simp at hk
    have hk' : k < 8 * bitset.length ∧ rowBit bitset k = true := ⟨by omega, hk⟩
    refine ⟨?_, hk'⟩
    by_contra hge
    exact (h.bits k).mpr hk' (getD_eq_default _ _ (not_lt.mp hge))
  have hread : data.take size = data.take ptr ++ nonZeroBytes filled := h.read
  refine ⟨hlen, ?_⟩
  rw [hread, ← henc, ← hout, bitsetEncodeBytes, if_neg (by omega), dif_neg (by omega), hbitset]
  split_ifs with hz
  · have hzero : bitset = List.replicate bitset.length 0 := by
      refine eq_of_rowBit length_replicate.symm (fun k ↦ ?_)
      rw [← hbitset, rowBit_nonZeroBitset le_rfl, rowBit_replicate_zero, nonZeroBytes_eq_nil hz]
      simp
    rw [hz, append_nil, hzero, bitsetEncodeBytes_of_zero (by simp [nonZeroBytes])]
  · rfl

theorem bitsetEncodeBytes_decodePartial {out : Bytes} {size : ℕ}
    (h : bitsetDecodePartialBytes data target = .ok (out, size)) :
    out.length = target ∧ size ≤ data.length ∧ bitsetEncodeBytes out = data.take size := by
  induction target using Nat.strong_induction_on generalizing out size with
  | _ target ih =>
    rw [bitsetDecodePartialBytes] at h
    split_ifs at h with h0 hd h1 hb
    · cases h
      exact ⟨h0.symm, Nat.zero_le _, by simp [bitsetEncodeBytes]⟩
    · cases h
      exact ⟨length_replicate, Nat.zero_le _, by rw [bitsetEncodeBytes_of_zero (by simp [nonZeroBytes])]; rfl⟩
    · cases h
      obtain ⟨b, rest, rfl⟩ := exists_cons_of_length_pos (Nat.pos_of_ne_zero hd)
      refine ⟨h1.symm, by simp, ?_⟩
      rw [bitsetEncodeBytes]
      simpa using hb
    · cases h
      refine ⟨h1.symm, Nat.zero_le _, ?_⟩
      rw [bitsetEncodeBytes_of_zero (by simpa [nonZeroBytes] using hb)]
      rfl
    cases hrec : bitsetDecodePartialBytes data ((target + 7) / 8) with
    | error e =>
      rw [hrec] at h
      cases h
    | ok r =>
      obtain ⟨bitset, ptr⟩ := r
      obtain ⟨hlen, hptr, henc⟩ := ih _ (by omega) hrec
      rw [hrec] at h
      obtain ⟨filled, hd⟩ := distributed_foldlM hptr _ h
      obtain ⟨hout, he⟩ := hd.encode hlen (by omega) henc
      exact ⟨hout, hd.le, he⟩

/-! The decoder with its reads checked. -/

def read (l : Bytes) (i : ℕ) : Outcome CompressError UInt8 :=
  match l[i]? with
  | some b => .ok b
  | none => .error .panic

def distributeChecked (data bitset : Bytes) (s : Bytes × ℕ) (i : ℕ) : Outcome CompressError (Bytes × ℕ) := do
  let b ← read bitset (i / 8)
  if b.toNat.testBit (7 - i % 8) then
    if data.length ≤ s.2 then .error (.err .missingData)
    else if s.1.length ≤ i then .error (.err .exceededTarget)
    else
      let v ← read data s.2
      if v = 0 then .error (.err .zeroContent) else .ok (s.1.set i v, s.2 + 1)
  else .ok s

def decodeChecked (data : Bytes) (target : ℕ) : Outcome CompressError (Bytes × ℕ) :=
  if target = 0 then .ok ([], 0)
  else if data.length = 0 then .ok (List.replicate target 0, 0)
  else if _h : target = 1 then do
    let b ← read data 0
    return ([b], if b ≠ 0 then 1 else 0)
  else do
    let r ← decodeChecked data ((target + 7) / 8)
    (List.range (8 * r.1.length)).foldlM (distributeChecked data r.1) (List.replicate target 0, r.2)
termination_by target
decreasing_by omega

theorem read_eq {l : Bytes} {i : ℕ} (hi : i < l.length) : read l i = .ok (l.getD i 0) := by
  rw [read, getElem?_eq_getElem hi, getD_eq_getElem _ _ hi]

theorem foldlM_distributeChecked {l : List ℕ} (hl : ∀ i ∈ l, i / 8 < bitset.length) :
    l.foldlM (distributeChecked data bitset) s = (l.foldlM (distribute data bitset) s).mapError .err := by
  induction l generalizing s with
  | nil => rfl
  | cons i l ih =>
    have hstep : distributeChecked data bitset s i = (distribute data bitset s i).mapError .err := by
      unfold distributeChecked distribute
      rw [read_eq (hl i mem_cons_self)]
      show (if rowBit bitset i then _ else _) = _
      split_ifs with hb hp ho hz
      · rfl
      · rfl
      · rw [read_eq (not_le.mp hp)]
        exact if_pos hz
      · rw [read_eq (not_le.mp hp)]
        exact if_neg hz
      · rfl
    rw [foldlM_cons, foldlM_cons, hstep]
    cases distribute data bitset s i with
    | error e => rfl
    | ok s' => exact ih (fun j hj ↦ hl j (mem_cons_of_mem i hj))

theorem decodeChecked_eq (data : Bytes) (target : ℕ) :
    decodeChecked data target = (bitsetDecodePartialBytes data target).mapError .err := by
  induction target using Nat.strong_induction_on with
  | _ target ih =>
    rw [decodeChecked, bitsetDecodePartialBytes]
    by_cases h0 : target = 0
    · rw [if_pos h0, if_pos h0]
      rfl
    rw [if_neg h0, if_neg h0]
    by_cases hd : data.length = 0
    · rw [if_pos hd, if_pos hd]
      rfl
    rw [if_neg hd, if_neg hd]
    by_cases h1 : target = 1
    · rw [dif_pos h1, dif_pos h1, read_eq (Nat.pos_of_ne_zero hd)]
      rfl
    rw [dif_neg h1, dif_neg h1, ih _ (by omega)]
    cases bitsetDecodePartialBytes data ((target + 7) / 8) with
    | error e => rfl
    | ok r => exact foldlM_distributeChecked (fun i hi ↦ by have := mem_range.mp hi; omega)

/-- Compression is lossless and never longer, what decodes is what the encoder writes, and the
decoder, which is total, reads nothing out of range. -/
theorem compression_canonical :
    (∀ d, decompressBytes (compressBytes d) d.length = .ok d ∧ (compressBytes d).length ≤ d.length) ∧
    (∀ c n out, bitsetDecodeBytes c n = .ok out → bitsetEncodeBytes out = c) ∧
    ∀ c n, decodeChecked c n = (bitsetDecodePartialBytes c n).mapError .err := by
  refine ⟨fun d ↦ ⟨decompressBytes_compressBytes d, ?_⟩, fun c n out h ↦ ?_, decodeChecked_eq⟩
  · unfold compressBytes
    split_ifs
    · omega
    · rfl
  unfold bitsetDecodeBytes at h
  split at h
  · cases h
  next out' size hdec =>
  split_ifs at h with hsize
  cases h
  rw [(bitsetEncodeBytes_decodePartial hdec).2.2, not_not.mp hsize, take_length]

end BjutEth.Bloombits
