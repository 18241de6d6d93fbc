import BjutEth.Lib.GoMap

/-! A book of entries that are opened at one step and closed at a later one. Steps are
numbered from 1; a history lists what was opened, the last step first. -/

namespace BjutEth.Escrow

open Std List

variable {K V : Type} [Ord K] [TransOrd K] [LawfulEqOrd K] (due : V → ℕ)

def offer (book : GoMap K V) (opened : List (K × V)) : GoMap K V :=
  opened.foldl (fun book e ↦ book.insert e.1 e.2) book

def close (n : ℕ) (book : GoMap K V) : GoMap K V := book.filter (fun _ v ↦ due v ≠ n)

def book : List (List (K × V)) → GoMap K V
  | [] => ∅
  | opened :: past => close due (past.length + 1) (offer (book past) opened)

def Opened : List (List (K × V)) → ℕ → K → V → Prop
  | [], _, _, _ => False
  | opened :: past, i, k, v => i = past.length + 1 ∧ (k, v) ∈ opened ∨ Opened past i k v

variable {due}

omit [Ord K] [TransOrd K] [LawfulEqOrd K] in
theorem Opened.mem {history : List (List (K × V))} {i : ℕ} {k : K} {v : V}
    (h : Opened history i k v) : (k, v) ∈ history.flatten := by
  induction history with
  | nil => exact h.elim
  | cons opened past ih =>
    obtain ⟨-, h⟩ | h := h
    · exact mem_append_left _ h
    · exact mem_append_right _ (ih h)

omit [LawfulEqOrd K] in
theorem getElem?_close (n : ℕ) (book : GoMap K V) (k : K) (v : V) :
    (close due n book)[k]? = some v ↔ book[k]? = some v ∧ due v ≠ n := by
  unfold close
  simp

theorem getElem?_offer {opened : List (K × V)} (hkeys : (opened.map (·.1)).Nodup)
    (book : GoMap K V) (k : K) (v : V) :
    (offer book opened)[k]? = some v ↔
      (k, v) ∈ opened ∨ k ∉ opened.map (·.1) ∧ book[k]? = some v := by
  induction opened generalizing book with
  | nil => simp [offer]
  | cons e opened ih =>
    obtain ⟨a, w⟩ := e
    rw [map_cons, nodup_cons] at hkeys
    have hstep : offer book ((a, w) :: opened) = offer (book.insert a w) opened := rfl
    have hkey : a ∉ opened.map (·.1) := hkeys.1
    have hnot : ∀ x, (a, x) ∉ opened := fun x hx ↦ hkey (List.mem_map.mpr ⟨(a, x), hx, rfl⟩)
    rw [hstep, ih hkeys.2, ExtTreeMap.getElem?_insert]
    by_cases hak : a = k
    · subst hak
      simp only [hnot v, hkey, Std.compare_self, if_true, Option.some.injEq, not_false_eq_true,
        true_and, false_or, or_false, mem_cons, Prod.mk.injEq, map_cons,
        not_true_eq_false, false_and]
      exact eq_comm
    · simp [hak, Ne.symm hak]

variable (history : List (List (K × V))) (opened : List (K × V))

theorem getElem?_offer_book (hkeys : ((opened :: history).flatten.map (·.1)).Nodup)
    (hlate : ∀ i k v, Opened (opened :: history) i k v → i < due v) (k : K) (v : V) :
    (offer (book due history) opened)[k]? = some v ↔
      ∃ i, Opened (opened :: history) i k v ∧ history.length + 1 ≤ due v := by
  induction history generalizing opened k v with
  | nil =>
    rw [flatten_cons, flatten_nil, append_nil] at hkeys
    rw [getElem?_offer hkeys]
    simp only [book, ExtTreeMap.getElem?_empty, reduceCtorEq, and_false, or_false, Opened,
      length_nil]
    constructor
    · intro h
      have := hlate 1 k v (.inl ⟨rfl, h⟩)
      exact ⟨1, ⟨rfl, h⟩, by omega⟩
    · rintro ⟨i, ⟨-, h⟩, -⟩
      exact h
  | cons opened' history ih =>
    rw [flatten_cons, map_append, nodup_append'] at hkeys
    obtain ⟨hopened, hpast, hdisjoint⟩ := hkeys
    have hbook : (book due (opened' :: history))[k]? = some v ↔
        ∃ i, Opened (opened' :: history) i k v ∧ history.length + 1 + 1 ≤ due v := by
      rw [book, getElem?_close, ih opened' hpast (fun i k v h ↦ hlate i k v (.inr h))]
      constructor
      · rintro ⟨⟨i, hi, hle⟩, hne⟩
        exact ⟨i, hi, by omega⟩
      · rintro ⟨i, hi, hle⟩
        exact ⟨⟨i, hi, by omega⟩, by omega⟩
    rw [getElem?_offer hopened, hbook, length_cons]
    constructor
    · rintro (h | ⟨-, i, hi, hle⟩)
      · have hi : Opened (opened :: opened' :: history) (history.length + 1 + 1) k v := .inl ⟨rfl, h⟩
        have := hlate _ k v hi
        exact ⟨_, hi, by omega⟩
      · exact ⟨i, .inr hi, hle⟩
    rintro ⟨i, ⟨-, h⟩ | hi, hle⟩
    · exact .inl h
    refine .inr ⟨fun hk ↦ ?_, i, hi, hle⟩
    exact hdisjoint hk (List.mem_map_of_mem hi.mem)

end BjutEth.Escrow
