import BjutEth.Lib.Outcome

namespace BjutEth.Discover

open List

variable {Node : Type}

/-- The swaps of the shuffle, with what `Intn` returned before each. -/
def shuffle (rand : ℕ → ℕ) : ℕ → List (List Node) → List (List Node)
  | 0, buckets => buckets
  | i + 1, buckets =>
    let j := rand i % buckets.length
    shuffle rand i ((buckets.set (i + 1) (buckets.getD j [])).set j (buckets.getD (i + 1) []))

/-- The loop over `k` more places of `buf`, whose first `i` are filled. -/
def fill : ℕ → ℕ → ℕ → List (List Node) → Outcome Empty (ℕ × List Node)
  | 0, i, _, _ => .ok (i + 1, [])
  | k + 1, i, j, buckets =>
    match buckets[j]? with
    | some (n :: b) => do
      let rest := if b.isEmpty then buckets.eraseIdx j else buckets.set j b
      if rest.isEmpty then return (i + 1, [n])
      let r ← fill k (i + 1) ((j + 1) % rest.length) rest
      return (r.1, n :: r.2)
    | _ => .error .panic

def readRandomNodes (initDone : Bool) (rand : ℕ → ℕ) (buckets : List (List Node)) (len : ℕ) :
    Outcome Empty (ℕ × List Node) :=
  let filled := buckets.filter (!·.isEmpty)
  if !initDone || filled.isEmpty then .ok (0, [])
  else fill len 0 0 (shuffle rand (filled.length - 1) filled)

variable {bs : List (List Node)}

theorem shuffle_perm (rand : ℕ → ℕ) {i : ℕ} (hi : i < bs.length) :
    (shuffle rand i bs).Perm bs := by
  induction i generalizing bs with
  | zero => rfl
  | succ i ih =>
    have hj := Nat.mod_lt (rand i) (by omega : 0 < bs.length)
    rw [shuffle, getD_eq_getElem _ _ hi, getD_eq_getElem _ _ hj]
    exact (ih (by rw [length_set, length_set]; omega)).trans (set_set_perm hi hj)

theorem fill_eq {k i j : ℕ} (hne : [] ∉ bs) (hj : j < bs.length) :
    ∃ new rest, fill k i j bs = .ok (i + min bs.flatten.length (k + 1), new) ∧
      (new ++ rest).Perm bs.flatten ∧ new.length = min bs.flatten.length k := by
  induction k generalizing i j bs with
  | zero =>
    obtain ⟨n, hn⟩ := exists_mem_of_ne_nil _ (ne_of_mem_of_not_mem (getElem_mem hj) hne)
    have hpos := length_pos_of_mem (mem_flatten_of_mem (getElem_mem hj) hn)
    refine ⟨[], bs.flatten, ?_, .refl _, by simp⟩
    rw [fill, Nat.min_eq_right hpos]
  | succ k ih =>
    obtain ⟨n, b, hb⟩ := exists_cons_of_ne_nil (ne_of_mem_of_not_mem (getElem_mem hj) hne)
    have hspl : bs = bs.take j ++ (n :: b) :: bs.drop (j + 1) := by
      rw [← hb, getElem_cons_drop, take_append_drop]
    generalize hleft : (if b.isEmpty then bs.eraseIdx j else bs.set j b) = left
    have heq : left = bs.take j ++ ((if b.isEmpty then [] else [b]) ++ bs.drop (j + 1)) := by
      rw [← hleft]
      split_ifs
      · rw [eraseIdx_eq_take_drop_succ]
        rfl
      rw [set_eq_take_append_cons_drop, if_pos hj]
      rfl
    have hmem : [] ∉ left := by
      rw [heq, mem_append, mem_append]
      rintro (h | h | h)
      · exact hne (mem_of_mem_take h)
      · split_ifs at h with hemp
        · cases h
        exact hemp (isEmpty_iff.mpr (mem_singleton.mp h).symm)
      exact hne (mem_of_mem_drop h)
    have hperm : (n :: left.flatten).Perm bs.flatten := by
      rw [hspl, heq, flatten_append, flatten_append, flatten_append, flatten_cons, cons_append]
      split_ifs with hemp
      · rw [isEmpty_iff.mp hemp]
        exact perm_middle.symm
      rw [flatten_singleton]
      exact perm_middle.symm
    have hlen := hperm.length_eq
    rw [length_cons] at hlen
    rw [← hlen]
    simp only [fill, getElem?_eq_getElem hj, hb, hleft]
    by_cases hnil : left = []
    · subst hnil
      refine ⟨[n], [], ?_, hperm, by simp⟩
      simp
      rfl
    obtain ⟨new, rest, hfill, hnew, hlnew⟩ := ih (i := i + 1) hmem
      (Nat.mod_lt (j + 1) (length_pos_iff.mpr hnil))
    refine ⟨n :: new, rest, ?_, (hnew.cons n).trans hperm, ?_⟩
    · rw [if_neg (by simpa using hnil), hfill, add_assoc, Nat.add_comm 1,
        Nat.add_min_add_right]
      rfl
    rw [length_cons, hlnew]
    omega

/-- The count is one too many if `buf` is full before the table is read. -/
theorem readRandomNodes_iff (rand : ℕ → ℕ) (bs : List (List Node)) (len : ℕ) :
    ∃ n buf rest, readRandomNodes true rand bs len = .ok (n, buf) ∧
      (buf ++ rest).Perm bs.flatten ∧ buf.length = min bs.flatten.length len ∧
      (n = min len bs.flatten.length ↔ bs.flatten.length ≤ len) := by
  have hflat := flatten_filter_not_isEmpty (L := bs)
  have hmem : [] ∉ bs.filter (!·.isEmpty) := by simp
  unfold readRandomNodes
  generalize bs.filter (!·.isEmpty) = filled at hflat hmem ⊢
  rw [← hflat]
  by_cases hnil : filled = []
  · subst hnil
    exact ⟨0, [], [], rfl, .refl _, by simp⟩
  have hpos := length_pos_iff.mpr hnil
  have hperm := shuffle_perm rand (Nat.sub_one_lt_of_lt hpos)
  obtain ⟨new, rest, hfill, hnew, hlen⟩ := fill_eq (k := len) (i := 0)
    (hperm.mem_iff.not.mpr hmem) (hperm.length_eq ▸ hpos)
  rw [hperm.flatten.length_eq] at hfill hlen
  refine ⟨_, new, rest, (if_neg ?_).trans hfill, hnew.trans hperm.flatten, hlen, ?_⟩
  · simpa using hnil
  omega

theorem readRandomNodes_counts_two :
    readRandomNodes true (fun _ ↦ 0) [[1], [2]] 1 = .ok (2, [2]) := rfl

end BjutEth.Discover
