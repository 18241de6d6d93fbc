import BjutEth.Alien.Runs

namespace BjutEth.Alien.Snapshot

open Std Outcome List

variable {s t : Snapshot} {n : ℤ}

theorem lt_freshVar {key : Hash} {var : ℕ} (h : s.loopVar[key]? = some var) : var < s.freshVar := by
  have hmem : var ∈ s.loopVar.toList.map (·.2) :=
    mem_map.mpr ⟨(key, var), ExtTreeMap.mem_toList_iff_getElem?_eq_some.mpr h, rfl⟩
  have hle : ∀ l : List ℕ, var ∈ l → var ≤ l.foldr max 0 := by
    intro l hl
    induction l with
    | nil => cases hl
    | cons a l ih =>
      obtain rfl | hl := mem_cons.mp hl
      · exact le_max_left _ _
      · exact (ih hl).trans (le_max_right _ _)
  exact Nat.lt_succ_of_le (hle _ hmem)

theorem getElem?_loopVar_foldl (var : ℕ) (proposals : List Proposal) (s : Snapshot) (key : Hash) :
    (proposals.foldl (storeProposal n var) s).loopVar[key]? =
      if key ∈ proposals.map (·.hash) then some var else s.loopVar[key]? := by
  induction proposals generalizing s with
  | nil => simp
  | cons p proposals ih =>
    rw [foldl_cons, ih]
    simp only [storeProposal, GoMap.get_insert]
    by_cases hp : p.hash = key
    · simp [hp]
    · simp [hp, Ne.symm hp]

/-- Every key that one loop stores holds what the loop stored last. -/
theorem getElem?_proposals_foldl {var : ℕ} (hvar : ∀ key : Hash, s.loopVar[key]? ≠ some var)
    (proposals : List Proposal) (key : Hash) :
    (proposals.foldl (storeProposal n var) s).proposals[key]? =
      if key ∈ proposals.map (·.hash) then
        proposals.getLast?.map (fun p ↦ { p with receivedNumber := n })
      else s.proposals[key]? := by
  induction proposals using reverseRecOn with
  | nil => simp
  | append_singleton proposals p ih =>
    rw [foldl_append, foldl_cons, foldl_nil]
    have hloop := getElem?_loopVar_foldl (n := n) var proposals s key
    simp only [storeProposal, GoMap.get_insert, ExtTreeMap.getElem?_map, ih, hloop, map_append,
      mem_append, map_cons, map_nil, mem_singleton]
    by_cases hp : p.hash = key
    · simp [hp]
    by_cases hk : key ∈ proposals.map (·.hash)
    · have hne : proposals ≠ [] := by
        rintro rfl
        cases hk
      obtain ⟨last, hlast⟩ := Option.ne_none_iff_exists'.mp
        (fun h ↦ hne (getLast?_eq_none_iff.mp h))
      simp [hk, hlast]
    have hv := hvar key
    simp only [hp, hk, Ne.symm hp]
    cases hs : s.proposals[key]? with
    | none => rfl
    | some q => simp [hv]

theorem freshVar_ne (s : Snapshot) (key : Hash) : s.loopVar[key]? ≠ some s.freshVar :=
  fun h ↦ lt_irrefl _ (lt_freshVar h)

theorem getElem?_updateSnapshotByProposals (s : Snapshot) (proposals : List Proposal) (n : ℤ)
    (key : Hash) :
    (s.updateSnapshotByProposals proposals n).proposals[key]? =
      if key ∈ proposals.map (·.hash) then
        proposals.getLast?.map (fun p ↦ { p with receivedNumber := n })
      else s.proposals[key]? :=
  getElem?_proposals_foldl s.freshVar_ne _ _

end BjutEth.Alien.Snapshot
