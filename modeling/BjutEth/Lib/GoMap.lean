import Mathlib

namespace BjutEth

open Std ExtTreeMap List

abbrev GoMap (K V : Type) [Ord K] := ExtTreeMap K V compare

namespace GoMap

variable {K V W : Type} [Ord K] [TransOrd K] [LawfulEqOrd K]

theorem get_insert [DecidableEq K] (m : GoMap K V) (k a : K) (v : V) :
    (m.insert k v)[a]? = if k = a then some v else m[a]? := by
  simp only [ExtTreeMap.getElem?_insert, Std.compare_eq_iff_eq]

theorem get_erase [DecidableEq K] (m : GoMap K V) (k a : K) :
    (m.erase k)[a]? = if k = a then none else m[a]? := by
  simp only [ExtTreeMap.getElem?_erase, Std.compare_eq_iff_eq]

theorem getD_insert [DecidableEq K] (m : GoMap K V) (k a : K) (v w : V) :
    (m.insert k v).getD a w = if k = a then v else m.getD a w := by
  simp only [ExtTreeMap.getD_insert, Std.compare_eq_iff_eq]

theorem mem_insert {m : GoMap K V} {k a : K} {v : V} : a ∈ m.insert k v ↔ k = a ∨ a ∈ m := by
  rw [ExtTreeMap.mem_insert, Std.compare_eq_iff_eq]

theorem nodup_keys_toList (m : GoMap K V) : (m.toList.map (·.1)).Nodup := by
  have h := m.distinct_keys_toList
  exact pairwise_map.mpr (h.imp (fun hab he ↦ hab (Std.compare_eq_iff_eq.mpr he)))

theorem nodup_toList (m : GoMap K V) : m.toList.Nodup := m.nodup_keys_toList.of_map

theorem toList_insert_perm (m : GoMap K V) (k : K) (v : V) :
    (m.insert k v).toList.Perm ((k, v) :: (m.erase k).toList) := by
  rw [perm_ext_iff_of_nodup (nodup_toList _) ?_]
  · rintro ⟨a, b⟩
    grind
  · rw [nodup_cons]
    exact ⟨by simp [mem_toList_iff_getElem?_eq_some], nodup_toList _⟩

variable {k : K} {v : V} {m : GoMap K V} {f : Option V → Option V}

theorem toList_perm_erase (m : GoMap K V) (h : m[k]? = some v) :
    m.toList.Perm ((k, v) :: (m.erase k).toList) := by
  have he : m.insert k v = m := by
    apply ExtTreeMap.ext_getElem?
    intro a
    grind
  simpa only [he] using m.toList_insert_perm k v

theorem erase_of_getElem?_eq_none (m : GoMap K V) (h : m[k]? = none) : m.erase k = m := by
  apply ExtTreeMap.ext_getElem?
  intro a
  grind

def sumBy (m : GoMap K V) (f : K → V → ℤ) : ℤ := (m.toList.map (fun e ↦ f e.1 e.2)).sum

omit [LawfulEqOrd K] in
@[simp] theorem sumBy_empty (f : K → V → ℤ) : sumBy (∅ : GoMap K V) f = 0 := by
  have h : (∅ : GoMap K V).toList = [] := toList_eq_nil_iff.mpr rfl
  simp [sumBy, h]

theorem sumBy_insert (m : GoMap K V) (k : K) (v : V) (f : K → V → ℤ) :
    sumBy (m.insert k v) f = f k v + sumBy (m.erase k) f := by
  unfold sumBy
  rw [((m.toList_insert_perm k v).map _).sum_eq, map_cons, sum_cons]

theorem sumBy_eq_erase (m : GoMap K V) (h : m[k]? = some v) (f : K → V → ℤ) :
    sumBy m f = f k v + sumBy (m.erase k) f := by
  unfold sumBy
  rw [((m.toList_perm_erase h).map _).sum_eq, map_cons, sum_cons]

theorem sumBy_erase_of_some (m : GoMap K V) (h : m[k]? = some v) (f : K → V → ℤ) :
    sumBy (m.erase k) f = sumBy m f - f k v := by
  rw [sumBy_eq_erase m h f]
  omega

theorem le_sumBy (m : GoMap K V) (f : K → V → ℤ) (hf : ∀ k v, m[k]? = some v → 0 ≤ f k v)
    (h : m[k]? = some v) : f k v ≤ sumBy m f := by
  have hle : f k v ≤ (m.toList.map (fun e ↦ f e.1 e.2)).sum := by
    apply single_le_sum
    · intro x hx
      obtain ⟨e, he, rfl⟩ := List.mem_map.mp hx
      exact hf _ _ (mem_toList_iff_getElem?_eq_some.mp he)
    · exact List.mem_map.mpr ⟨(k, v), mem_toList_iff_getElem?_eq_some.mpr h, rfl⟩
  exact hle

theorem sumBy_nonneg (m : GoMap K V) (f : K → V → ℤ) (hf : ∀ k v, m[k]? = some v → 0 ≤ f k v) :
    0 ≤ sumBy m f := by
  apply sum_nonneg
  intro x hx
  obtain ⟨e, he, rfl⟩ := List.mem_map.mp hx
  exact hf _ _ (mem_toList_iff_getElem?_eq_some.mp he)

theorem sumBy_congr (m : GoMap K V) {f g : K → V → ℤ} (h : ∀ k v, m[k]? = some v → f k v = g k v) :
    sumBy m f = sumBy m g := by
  unfold sumBy
  congr 1
  apply map_congr_left
  intro e he
  exact h _ _ (mem_toList_iff_getElem?_eq_some.mp he)

theorem erase_comm (m : GoMap K V) (k k' : K) : (m.erase k).erase k' = (m.erase k').erase k := by
  refine ExtTreeMap.ext_getElem? (fun a ↦ ?_)
  simp only [getElem?_erase]
  split_ifs <;> rfl

theorem alter_eq_insert (h : f m[k]? = some v) : m.alter k f = m.insert k v := by
  refine ExtTreeMap.ext_getElem? (fun a ↦ ?_)
  rw [getElem?_alter, ExtTreeMap.getElem?_insert, h]

theorem alter_eq_erase (h : f m[k]? = none) : m.alter k f = m.erase k := by
  refine ExtTreeMap.ext_getElem? (fun a ↦ ?_)
  rw [getElem?_alter, getElem?_erase, h]

@[simp] theorem alter_some (m : GoMap K V) (k : K) (v : V) :
    m.alter k (fun _ ↦ some v) = m.insert k v := alter_eq_insert rfl

@[simp] theorem alter_none (m : GoMap K V) (k : K) : m.alter k (fun _ ↦ none) = m.erase k :=
  alter_eq_erase rfl

theorem alter_eq_self (h : f m[k]? = m[k]?) : m.alter k f = m := by
  refine ExtTreeMap.ext_getElem? (fun a ↦ ?_)
  rw [getElem?_alter, h]
  split_ifs with hk
  · rw [Std.compare_eq_iff_eq.mp hk]
  · rfl

theorem insert_eq_self (h : m[k]? = some v) : m.insert k v = m := by
  refine ExtTreeMap.ext_getElem? (fun a ↦ ?_)
  rw [ExtTreeMap.getElem?_insert]
  split_ifs with hk
  · rw [← Std.compare_eq_iff_eq.mp hk, h]
  · rfl

theorem insert_insert_self (m : GoMap K V) (k : K) (v w : V) : (m.insert k v).insert k w = m.insert k w := by
  apply ExtTreeMap.ext_getElem?
  intro a
  simp only [ExtTreeMap.getElem?_insert]
  split_ifs <;> rfl

end GoMap

end BjutEth
