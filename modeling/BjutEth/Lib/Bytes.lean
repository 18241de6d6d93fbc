import Mathlib

namespace BjutEth

open List

abbrev Bytes := List UInt8

def beValue (s : Bytes) : ℕ := s.foldl (fun acc b ↦ acc * 256 + b.toNat) 0

def fixedBytes : ℕ → ℕ → Bytes
  | 0, _ => []
  | n + 1, v => fixedBytes n (v / 256) ++ [UInt8.ofNat v]

def byteLen (n : ℕ) : ℕ := if n = 0 then 0 else n.log2 / 8 + 1

def natBytes (n : ℕ) : Bytes := fixedBytes (byteLen n) n

def isMinimal (s : Bytes) : Bool := s.head? != some 0

@[simp] theorem beValue_concat (s : Bytes) (b : UInt8) :
    beValue (s ++ [b]) = beValue s * 256 + b.toNat := by
  simp [beValue]

@[simp] theorem length_fixedBytes (n v : ℕ) : (fixedBytes n v).length = n := by
  induction n generalizing v with
  | zero => rfl
  | succ n ih => simp [fixedBytes, ih]

theorem beValue_replicate_append (n : ℕ) (d : Bytes) :
    beValue (replicate n 0 ++ d) = beValue d := by
  induction n with
  | zero => rfl
  | succ n ih =>
    exact ih

theorem beValue_fixedBytes (n v : ℕ) : beValue (fixedBytes n v) = v % 256 ^ n := by
  induction n generalizing v with
  | zero => simp [beValue, fixedBytes, Nat.mod_one]
  | succ n ih =>
    have hb : (UInt8.ofNat v).toNat = v % 256 := by simp
    rw [fixedBytes, beValue_concat, ih, hb, pow_succ', Nat.mod_mul]
    omega

theorem beValue_lt (s : Bytes) : beValue s < 256 ^ s.length := by
  induction s using reverseRecOn with
  | nil => simp [beValue]
  | append_singleton s b ih =>
    have hb : b.toNat < 256 := b.toNat_lt
    rw [beValue_concat, length_append, length_singleton, pow_succ]
    omega

theorem fixedBytes_beValue (s : Bytes) : fixedBytes s.length (beValue s) = s := by
  induction s using reverseRecOn with
  | nil => rfl
  | append_singleton s b ih =>
    have hb : b.toNat < 256 := b.toNat_lt
    have hdiv : (beValue s * 256 + b.toNat) / 256 = beValue s := by omega
    have hmod : UInt8.ofNat (beValue s * 256 + b.toNat) = b := by
      apply UInt8.toNat_inj.mp
      rw [UInt8.toNat_ofNat']
      omega
    rw [beValue_concat, length_append, length_singleton, fixedBytes, hdiv, ih, hmod]

theorem byteLen_le_iff (n k : ℕ) : byteLen n ≤ k ↔ n < 256 ^ k := by
  have hpow : (256 : ℕ) ^ k = 2 ^ (8 * k) := by rw [pow_mul]; norm_num
  unfold byteLen
  split
  · subst n
    simp
  next h =>
  rw [hpow, ← Nat.log2_lt h]
  omega

theorem length_natBytes (n : ℕ) : (natBytes n).length = byteLen n := length_fixedBytes _ _

theorem beValue_natBytes (n : ℕ) : beValue (natBytes n) = n := by
  rw [natBytes, beValue_fixedBytes]
  exact Nat.mod_eq_of_lt ((byteLen_le_iff n _).mp le_rfl)

theorem le_beValue_of_isMinimal {b : UInt8} {s : Bytes} (h : isMinimal (b :: s) = true) :
    256 ^ s.length ≤ beValue (b :: s) := by
  induction s using reverseRecOn with
  | nil =>
    have hb : b ≠ 0 := by simpa [isMinimal] using h
    have hb : b.toNat ≠ 0 := fun h0 ↦ hb (UInt8.toNat_inj.mp h0)
    simp [beValue]
    omega
  | append_singleton s c ih =>
    have ih := ih (by simpa [isMinimal] using h)
    rw [← cons_append, beValue_concat, length_append, length_singleton, pow_succ]
    omega

theorem natBytes_beValue {s : Bytes} (h : isMinimal s = true) : natBytes (beValue s) = s := by
  have hlen : byteLen (beValue s) = s.length := by
    apply le_antisymm ((byteLen_le_iff _ _).mpr (beValue_lt s))
    cases s with
    | nil => exact Nat.zero_le _
    | cons b s =>
      by_contra hlt
      rw [length_cons, not_le, Nat.lt_succ_iff, byteLen_le_iff] at hlt
      exact absurd (le_beValue_of_isMinimal h) (not_le.mpr hlt)
  rw [natBytes, hlen, fixedBytes_beValue]

theorem isMinimal_natBytes (n : ℕ) : isMinimal (natBytes n) = true := by
  cases hs : natBytes n with
  | nil => rfl
  | cons b s =>
    by_contra h
    have hb : b = 0 := by simpa [isMinimal] using h
    have hval : beValue s = n := by
      have h0 := beValue_natBytes n
      rw [hs, hb] at h0
      simpa [beValue] using h0
    have hlen : byteLen n = s.length + 1 := by rw [← length_natBytes, hs, length_cons]
    have hlt : byteLen n ≤ s.length := (byteLen_le_iff _ _).mpr (hval ▸ beValue_lt s)
    omega

end BjutEth
