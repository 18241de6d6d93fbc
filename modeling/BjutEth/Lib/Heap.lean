import Mathlib

namespace BjutEth.Heap

variable {α : Type} (less : α → α → Bool)

def lessAt (h : Array α) (i j : ℕ) : Bool :=
  match h[i]?, h[j]? with
  | some a, some b => less a b
  | _, _ => false

def swap (h : Array α) (i j : ℕ) : Array α := h.swapIfInBounds i j

def up : ℕ → Array α → ℕ → Array α
  | 0, h, _ => h
  | fuel + 1, h, j =>
    let i := (j - 1) / 2
    if i = j || !lessAt less h j i then h else up fuel (swap h i j) i

def down (n : ℕ) : ℕ → Array α → ℕ → Array α
  | 0, h, _ => h
  | fuel + 1, h, i =>
    let j1 := 2 * i + 1
    if n ≤ j1 then h
    else
      let j := if j1 + 1 < n && lessAt less h (j1 + 1) j1 then j1 + 1 else j1
      if !lessAt less h j i then h else down n fuel (swap h i j) j

def init (h : Array α) : Array α :=
  (List.range (h.size / 2)).reverse.foldl (fun h i ↦ down less h.size h.size h i) h

def push (h : Array α) (x : α) : Array α := up less h.size (h.push x) h.size

def pop (h : Array α) : Option (α × Array α) :=
  let n := h.size - 1
  let h := down less n n (swap h 0 n) 0
  h.back?.map (fun x ↦ (x, h.pop))

theorem swap_perm (h : Array α) (i j : ℕ) : (swap h i j).toList.Perm h.toList := by
  unfold swap Array.swapIfInBounds
  split_ifs
  · exact Array.perm_iff_toList_perm.mp (Array.swap_perm _ _)
  · exact .refl _
  · exact .refl _

theorem up_perm (fuel : ℕ) (h : Array α) (j : ℕ) : (up less fuel h j).toList.Perm h.toList := by
  induction fuel generalizing h j with
  | zero => exact .refl _
  | succ fuel ih =>
    unfold up
    dsimp only
    split_ifs
    · exact .refl _
    · exact (ih _ _).trans (swap_perm h _ _)

theorem down_perm (n fuel : ℕ) (h : Array α) (i : ℕ) : (down less n fuel h i).toList.Perm h.toList := by
  induction fuel generalizing h i with
  | zero => exact .refl _
  | succ fuel ih =>
    unfold down
    dsimp only
    split_ifs
    · exact .refl _
    · exact .refl _
    · exact (ih _ _).trans (swap_perm h _ _)
    · exact .refl _
    · exact (ih _ _).trans (swap_perm h _ _)

theorem init_perm (h : Array α) : (init less h).toList.Perm h.toList := by
  have key : ∀ (l : List ℕ) (h' : Array α), h'.toList.Perm h.toList →
      (l.foldl (fun h i ↦ down less h.size h.size h i) h').toList.Perm h.toList := by
    intro l
    induction l with
    | nil => exact fun h' hp ↦ hp
    | cons i l ih => exact fun h' hp ↦ ih _ ((down_perm less _ _ h' i).trans hp)
  exact key _ h (.refl _)

theorem push_perm (h : Array α) (x : α) : (push less h x).toList.Perm (x :: h.toList) := by
  refine (up_perm less _ _ _).trans ?_
  rw [Array.toList_push]
  exact List.perm_append_singleton x h.toList

theorem getElem?_swap_of_ne (h : Array α) {i j k : ℕ} (hi : k ≠ i) (hj : k ≠ j) : (swap h i j)[k]? = h[k]? := by
  unfold swap Array.swapIfInBounds
  split_ifs
  · rw [Array.getElem?_swap, if_neg (Ne.symm hj), if_neg (Ne.symm hi)]
  · rfl
  · rfl

theorem getElem?_down (n fuel : ℕ) (h : Array α) {i k : ℕ} (hk : n ≤ k) :
    (down less n fuel h i)[k]? = h[k]? := by
  induction fuel generalizing h i with
  | zero => rfl
  | succ fuel ih =>
    unfold down
    dsimp only
    split_ifs with h1 h2 h3 h4
    · rfl
    · rfl
    · have hlt : 2 * i + 1 + 1 < n := of_decide_eq_true (Bool.and_eq_true_iff.mp h2).1
      rw [ih, getElem?_swap_of_ne h (by omega) (by omega)]
    · rfl
    · rw [ih, getElem?_swap_of_ne h (by omega) (by omega)]

theorem pop_perm {h h' : Array α} {x : α} (hp : pop less h = some (x, h')) :
    h.toList.Perm (x :: h'.toList) := by
  unfold pop at hp
  obtain ⟨y, hy, he⟩ := Option.map_eq_some_iff.mp hp
  obtain ⟨rfl, rfl⟩ := Prod.mk.inj he
  have hspl := (down_perm less (h.size - 1) (h.size - 1) (swap h 0 (h.size - 1)) 0).trans
    (swap_perm h 0 (h.size - 1))
  refine hspl.symm.trans ?_
  generalize down less (h.size - 1) (h.size - 1) (swap h 0 (h.size - 1)) 0 = g at hy
  rw [Array.toList_pop]
  have hback : g.toList.getLast? = some y := by
    rw [← hy, Array.getLast?_toList]
  obtain ⟨ys, hys⟩ := List.getLast?_eq_some_iff.mp hback
  rw [hys, List.dropLast_concat]
  exact List.perm_append_singleton y ys

theorem pop_fst {h h' : Array α} {x : α} (hp : pop less h = some (x, h')) : h[0]? = some x := by
  unfold pop at hp
  obtain ⟨y, hy, he⟩ := Option.map_eq_some_iff.mp hp
  cases he
  have hsize : (down less (h.size - 1) (h.size - 1) (swap h 0 (h.size - 1)) 0).size = h.size := by
    exact ((down_perm less _ _ _ _).trans (swap_perm h _ _)).length_eq
  rw [Array.back?_eq_getElem?, hsize, getElem?_down less _ _ _ le_rfl] at hy
  unfold swap Array.swapIfInBounds at hy
  split_ifs at hy with h1 h2
  · rw [Array.getElem?_swap, if_pos rfl] at hy
    rw [← hy, Array.getElem?_eq_getElem h1]
  · omega
  · rw [Array.getElem?_eq_none (by omega)] at hy
    cases hy

end BjutEth.Heap
