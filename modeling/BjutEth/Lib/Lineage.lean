import Mathlib

namespace BjutEth

open Function Option

variable {K : Type}

/-- The keys on the way from an item down to number 0. `link n k` is the key of the item
before the one with number `n` and key `k`, if that one is stored. -/
def lineage (link : ℕ → K → Option K) : ℕ → K → ℕ → Option K
  | 0, k, i => if i = 0 then some k else none
  | n + 1, k, i => if i = n + 1 then some k else (link (n + 1) k).bind (lineage link n · i)

/-- The item and all items before it are stored, down to the root. -/
def Rooted (link : ℕ → K → Option K) (root : K) : ℕ → K → Prop
  | 0, k => k = root ∧ (link 0 k).isSome
  | n + 1, k => ∃ p, link (n + 1) k = some p ∧ Rooted link root n p

section Lineage

variable {link link' : ℕ → K → Option K} {root k p : K} {n : ℕ}

theorem lineage_self (link : ℕ → K → Option K) (n : ℕ) (k : K) : lineage link n k n = some k := by
  cases n with
  | zero => rfl
  | succ n => exact if_pos rfl

theorem lineage_of_lt {i : ℕ} (h : n < i) : lineage link n k i = none := by
  induction n generalizing k with
  | zero => exact if_neg (by omega)
  | succ n ih =>
    rw [lineage, if_neg (by omega)]
    cases link (n + 1) k with
    | none => rfl
    | some p => exact ih (by omega)

theorem lineage_succ {i : ℕ} (hp : link (n + 1) k = some p) (h : i ≠ n + 1) :
    lineage link (n + 1) k i = lineage link n p i := by
  rw [lineage, if_neg h, hp, bind_some]

theorem lineage_succ_eq_update (hp : link (n + 1) k = some p) :
    lineage link (n + 1) k = update (lineage link n p) (n + 1) (some k) := by
  funext i
  by_cases h : i = n + 1
  · subst h
    rw [lineage_self, update_self]
  · rw [lineage_succ hp h, update_of_ne h]

/-- What stands at some height of a lineage has the same lineage below. -/
theorem lineage_eq_of_mem {m : ℕ} {q : K} (h : lineage link n k m = some q) {i : ℕ} (hi : i ≤ m) :
    lineage link n k i = lineage link m q i := by
  induction n generalizing k with
  | zero =>
    rcases Nat.eq_zero_or_pos m with rfl | hm
    · obtain rfl : k = q := some.inj h
      rfl
    · rw [lineage_of_lt hm] at h
      cases h
  | succ n ih =>
    by_cases hm : m = n + 1
    · subst hm
      rw [lineage_self] at h
      cases h
      rfl
    have hle : m ≤ n + 1 := by
      by_contra hlt
      rw [lineage_of_lt (by omega)] at h
      cases h
    rw [lineage, if_neg hm] at h
    obtain ⟨p, hp, h⟩ := bind_eq_some_iff.mp h
    rw [lineage_succ hp (by omega)]
    exact ih h

section

variable (h : Rooted link root n k)

include h

theorem Rooted.isSome : (link n k).isSome := by
  cases n with
  | zero => exact h.2
  | succ n =>
    obtain ⟨p, hp, -⟩ := h
    exact isSome_of_eq_some hp

/-- A rooted item has an item at every height below, and that one is rooted as well. -/
theorem Rooted.lineage_eq_some {i : ℕ} (hi : i ≤ n) :
    ∃ q, lineage link n k i = some q ∧ Rooted link root i q := by
  induction n generalizing k with
  | zero =>
    obtain rfl : i = 0 := Nat.le_zero.mp hi
    exact ⟨k, rfl, h⟩
  | succ n ih =>
    by_cases he : i = n + 1
    · subst he
      exact ⟨k, lineage_self .., h⟩
    obtain ⟨p, hp, hroot⟩ := h
    rw [lineage_succ hp he]
    exact ih hroot (by omega)

theorem Rooted.lineage_zero : lineage link n k 0 = some root := by
  obtain ⟨q, hq, rfl, -⟩ := h.lineage_eq_some (Nat.zero_le n)
  exact hq

section

variable (hle : ∀ n k p, link n k = some p → link' n k = some p)

include hle

theorem Rooted.mono : Rooted link' root n k := by
  induction n generalizing k with
  | zero =>
    obtain ⟨p, hp⟩ := isSome_iff_exists.mp h.2
    exact ⟨h.1, isSome_of_eq_some (hle _ _ _ hp)⟩
  | succ n ih =>
    obtain ⟨p, hp, hroot⟩ := h
    exact ⟨p, hle _ _ _ hp, ih hroot⟩

theorem Rooted.lineage_eq : lineage link' n k = lineage link n k := by
  induction n generalizing k with
  | zero => rfl
  | succ n ih =>
    obtain ⟨p, hp, hroot⟩ := h
    rw [lineage_succ_eq_update hp, lineage_succ_eq_update (hle _ _ _ hp), ih hroot]

end

end

end Lineage

end BjutEth
