import Mathlib

namespace BjutEth

open List Function

variable {K V : Type} [DecidableEq K]

def writeAll (l : List (K × V)) (f : K → Option V) : K → Option V :=
  l.foldl (fun f e ↦ Function.update f e.1 (some e.2)) f

def deleteAll (l : List K) (f : K → Option V) : K → Option V :=
  l.foldl (fun f k ↦ Function.update f k none) f

theorem writeAll_append (l l' : List (K × V)) (f : K → Option V) :
    writeAll (l ++ l') f = writeAll l' (writeAll l f) := foldl_append

theorem writeAll_of_forall_ne {l : List (K × V)} {k : K} (h : ∀ e ∈ l, e.1 ≠ k) (f : K → Option V) :
    writeAll l f k = f k := by
  induction l generalizing f with
  | nil => rfl
  | cons e l ih =>
    obtain ⟨he, hl⟩ := forall_mem_cons.mp h
    exact (ih hl _).trans (update_of_ne he.symm _ _)

theorem writeAll_of_mem {l : List (K × V)} {k : K} {v : V} (hmem : (k, v) ∈ l)
    (hsame : ∀ e ∈ l, e.1 = k → e.2 = v) (f : K → Option V) : writeAll l f k = some v := by
  induction l generalizing f with
  | nil => cases hmem
  | cons e l ih =>
    obtain ⟨he, hl⟩ := forall_mem_cons.mp hsame
    by_cases hrest : (k, v) ∈ l
    · exact ih hrest hl _
    obtain rfl : (k, v) = e := (mem_cons.mp hmem).resolve_right hrest
    have hnone : ∀ e ∈ l, e.1 ≠ k := by
      intro e hel hek
      apply hrest
      rw [← hl e hel hek, ← hek]
      exact hel
    exact (writeAll_of_forall_ne hnone _).trans (update_self _ _ _)

theorem deleteAll_of_notMem {l : List K} {k : K} (h : k ∉ l) (f : K → Option V) :
    deleteAll l f k = f k := by
  induction l generalizing f with
  | nil => rfl
  | cons a l ih =>
    obtain ⟨hne, h⟩ := ne_and_not_mem_of_not_mem_cons h
    exact (ih h _).trans (update_of_ne hne _ _)

theorem deleteAll_of_mem {l : List K} {k : K} (h : k ∈ l) (f : K → Option V) :
    deleteAll l f k = none := by
  induction l generalizing f with
  | nil => cases h
  | cons a l ih =>
    by_cases hl : k ∈ l
    · exact ih hl _
    obtain rfl : k = a := (mem_cons.mp h).resolve_right hl
    exact (deleteAll_of_notMem hl _).trans (update_self _ _ _)

end BjutEth
