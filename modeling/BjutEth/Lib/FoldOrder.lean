import Mathlib

namespace BjutEth

open List

variable {α β : Type}

/-- A loop does not depend on the order of its rounds if any two of them commute
where an invariant of the loop holds. -/
theorem foldl_perm_of_inv {f : β → α → β} {P : β → Prop} {l l' : List α} (h : l.Perm l')
    (hinv : ∀ b, P b → ∀ x ∈ l, P (f b x))
    (hcomm : ∀ b, P b → ∀ x ∈ l, ∀ y ∈ l, f (f b x) y = f (f b y) x) {b : β} (hb : P b) :
    l.foldl f b = l'.foldl f b := by
  induction h generalizing b with
  | nil => rfl
  | cons x _ ih =>
    exact ih (fun b hb y hy ↦ hinv b hb y (mem_cons_of_mem x hy))
      (fun b hb y hy z hz ↦ hcomm b hb y (mem_cons_of_mem x hy) z (mem_cons_of_mem x hz))
      (hinv b hb x mem_cons_self)
  | swap x y l =>
    rw [foldl_cons, foldl_cons, foldl_cons, foldl_cons,
      hcomm b hb y mem_cons_self x (mem_cons_of_mem y mem_cons_self)]
  | trans h1 _ ih1 ih2 =>
    rw [ih1 hinv hcomm hb]
    exact ih2 (fun b hb x hx ↦ hinv b hb x (h1.mem_iff.mpr hx))
      (fun b hb x hx y hy ↦ hcomm b hb x (h1.mem_iff.mpr hx) y (h1.mem_iff.mpr hy)) hb

def pick (positions : List ℕ) (l : List α) : List α :=
  if positions.Perm (List.range l.length) then positions.filterMap (l[·]?) else l

theorem filterMap_range_getElem? (l : List α) : (List.range l.length).filterMap (l[·]?) = l := by
  induction l using List.reverseRecOn with
  | nil => rfl
  | append_singleton l a ih =>
    rw [length_append, length_singleton, range_succ, filterMap_append,
      filterMap_congr (g := (l[·]?)) (fun i hi ↦ ?_), ih]
    · simp
    · exact getElem?_append_left (mem_range.mp hi)

theorem pick_perm (positions : List ℕ) (l : List α) : (pick positions l).Perm l := by
  unfold pick
  split_ifs with h
  · refine (h.filterMap _).trans ?_
    rw [filterMap_range_getElem?]
  · exact .refl l

/-- Every order of a list without duplicates is given by positions. -/
theorem exists_pick [DecidableEq α] {l l' : List α} (hl : l.Nodup) (h : l'.Perm l) :
    ∃ positions, pick positions l = l' := by
  have hrange : l.map l.idxOf = List.range l.length := by
    refine ext_getElem (by simp) (fun i hi _ ↦ ?_)
    rw [getElem_map, getElem_range]
    exact hl.idxOf_getElem i (by simpa using hi)
  refine ⟨l'.map l.idxOf, ?_⟩
  unfold pick
  rw [if_pos ((h.map _).trans (hrange ▸ .refl _)), filterMap_map]
  have hself : ∀ a ∈ l', ((fun i ↦ l[i]?) ∘ l.idxOf) a = some a := by
    intro a ha
    have hlt := idxOf_lt_length_of_mem (h.mem_iff.mp ha)
    rw [Function.comp_apply, getElem?_eq_getElem hlt, getElem_idxOf]
  rw [filterMap_congr hself]
  exact filterMap_some

end BjutEth
