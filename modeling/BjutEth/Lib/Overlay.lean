import Mathlib

namespace BjutEth

open List Option

variable {ι K V : Type} {names : ι → K → Option V} {l l' : List ι} {k : K} {v : V}

/-- What a key holds once entries are written one after the other: the last of them that has the
key decides. -/
def overlay (names : ι → K → Option V) (l : List ι) (k : K) : Option V :=
  l.foldl (fun v e ↦ (names e k).or v) none

theorem overlay_concat (names : ι → K → Option V) (l : List ι) (e : ι) (k : K) :
    overlay names (l ++ [e]) k = (names e k).or (overlay names l k) := by
  rw [overlay, foldl_append]
  rfl

theorem overlay_eq_none_iff : overlay names l k = none ↔ ∀ e ∈ l, names e k = none := by
  induction l using List.reverseRecOn with
  | nil => exact ⟨fun _ e he ↦ absurd he not_mem_nil, fun _ ↦ rfl⟩
  | append_singleton l e ih =>
    rw [overlay_concat, or_eq_none_iff, ih, forall_mem_append, forall_mem_singleton]
    exact And.comm

theorem overlay_eq_some_iff : overlay names l k = some v ↔
    ∃ before e after, l = before ++ e :: after ∧ names e k = some v ∧
      ∀ e' ∈ after, names e' k = none := by
  constructor
  · intro h
    induction l using List.reverseRecOn with
    | nil => cases h
    | append_singleton l e ih =>
      rw [overlay_concat] at h
      cases he : names e k with
      | some w =>
        rw [he] at h
        exact ⟨l, e, [], rfl, h ▸ he, fun e' he' ↦ absurd he' not_mem_nil⟩
      | none =>
        rw [he] at h
        obtain ⟨before, e', after, rfl, hv, haft⟩ := ih h
        refine ⟨before, e', after ++ [e], ?_, hv, ?_⟩
        · rw [List.append_assoc, cons_append]
        rw [forall_mem_append, forall_mem_singleton]
        exact ⟨haft, he⟩
  rintro ⟨before, e, after, rfl, hv, haft⟩
  induction after using List.reverseRecOn with
  | nil => rw [overlay_concat, hv, some_or]
  | append_singleton after e' ih =>
    rw [forall_mem_append, forall_mem_singleton] at haft
    rw [← cons_append, ← List.append_assoc, overlay_concat, haft.2]
    exact ih haft.1

theorem exists_perm_concat {e : ι} (he : e ∈ l) : ∃ rest, (rest ++ [e]).Perm l := by
  obtain ⟨before, after, rfl⟩ := append_of_mem he
  refine ⟨before ++ after, ?_⟩
  rw [List.append_assoc]
  exact (perm_append_singleton e after).append_left before

theorem exists_perm_concat_two {e e' : ι} (he : e ∈ l) (he' : e' ∈ l) (hne : e ≠ e') :
    ∃ rest, (rest ++ [e'] ++ [e]).Perm l := by
  obtain ⟨rest, hrest⟩ := exists_perm_concat he
  have hmem : e' ∈ rest := by
    rcases mem_append.mp (hrest.mem_iff.mpr he') with h | h
    · exact h
    · exact absurd (mem_singleton.mp h).symm hne
  obtain ⟨rest', hrest'⟩ := exists_perm_concat hmem
  exact ⟨rest', (hrest'.append_right [e]).trans hrest⟩

def NoConflict (names : ι → K → Option V) (l : List ι) (k : K) : Prop :=
  ∀ e ∈ l, ∀ e' ∈ l, ∀ v v', names e k = some v → names e' k = some v' → v = v'

theorem overlay_perm_iff : (∀ l1 l2, l1.Perm l → l2.Perm l → overlay names l1 k = overlay names l2 k) ↔
    NoConflict names l k := by
  constructor
  · intro h e he e' he' v v' hv hv'
    obtain ⟨rest, hrest⟩ := exists_perm_concat he
    obtain ⟨rest', hrest'⟩ := exists_perm_concat he'
    have hsame := h _ _ hrest hrest'
    rw [overlay_concat, overlay_concat, hv, hv'] at hsame
    exact some.inj hsame
  intro h l1 l2 h1 h2
  cases hv : overlay names l1 k with
  | none =>
    rw [overlay_eq_none_iff] at hv
    exact (overlay_eq_none_iff.mpr fun e he ↦ hv e (h1.mem_iff.mpr (h2.mem_iff.mp he))).symm
  | some v =>
    cases hv' : overlay names l2 k with
    | none =>
      rw [overlay_eq_none_iff] at hv'
      rw [overlay_eq_none_iff.mpr fun e he ↦ hv' e (h2.mem_iff.mpr (h1.mem_iff.mp he))] at hv
      cases hv
    | some v' =>
      obtain ⟨before, e, after, rfl, he, -⟩ := overlay_eq_some_iff.mp hv
      obtain ⟨before', e', after', rfl, he', -⟩ := overlay_eq_some_iff.mp hv'
      have hmem := h1.mem_iff.mp (mem_append_right before mem_cons_self)
      have hmem' := h2.mem_iff.mp (mem_append_right before' mem_cons_self)
      rw [h e hmem e' hmem' v v' he he']

/-- What two keys can hold together: `y` at the key `c`, and `x` at the key `i`, by two entries of
which neither overrides the other, or by one. -/
def Views (names : ι → K → Option V) (l : List ι) (i c : K) (x : Option V) (y : V) : Prop :=
  ∃ e' ∈ l, names e' c = some y ∧
    ((∀ e ∈ l, names e i = none) ∧ x = none ∨
      ∃ e ∈ l, names e i = x ∧ x ≠ none ∧ (e = e' ∨ names e c = none ∨ names e' i = none))

theorem views_iff {i c : K} {x : Option V} {y : V} :
    (∃ l' : List ι, l'.Perm l ∧ overlay names l' i = x ∧ overlay names l' c = some y) ↔
      Views names l i c x y := by
  constructor
  · rintro ⟨l', hperm, hx, hy⟩
    obtain ⟨before, e', after, rfl, hv, haft⟩ := overlay_eq_some_iff.mp hy
    refine ⟨e', hperm.mem_iff.mp (mem_append_right before mem_cons_self), hv, ?_⟩
    cases x with
    | none =>
      rw [overlay_eq_none_iff] at hx
      exact .inl ⟨fun e he ↦ hx e (hperm.mem_iff.mpr he), rfl⟩
    | some w =>
      obtain ⟨before', e, after', hspl, hw, haft'⟩ := overlay_eq_some_iff.mp hx
      have hmem : e ∈ before ++ e' :: after := hspl ▸ mem_append_right before' mem_cons_self
      refine .inr ⟨e, hperm.mem_iff.mp hmem, hw, by simp, ?_⟩
      -- one of the two entries comes first, if they are not the same
      rcases append_eq_append_iff.mp hspl with ⟨a, -, ha⟩ | ⟨a, -, ha⟩
      · cases a with
        | nil => exact .inl (List.cons.inj ha).1.symm
        | cons _ a =>
          obtain ⟨-, rfl⟩ := List.cons.inj ha
          exact .inr (.inl (haft e (mem_append_right a mem_cons_self)))
      cases a with
      | nil => exact .inl (List.cons.inj ha).1
      | cons _ a =>
        obtain ⟨-, rfl⟩ := List.cons.inj ha
        exact .inr (.inr (haft' e' (mem_append_right a mem_cons_self)))
  rintro ⟨e', he', hy, ⟨hnone, rfl⟩ | ⟨e, he, rfl, hsome, hord⟩⟩
  · obtain ⟨rest, hrest⟩ := exists_perm_concat he'
    refine ⟨_, hrest, overlay_eq_none_iff.mpr fun e he ↦ hnone e (hrest.mem_iff.mp he), ?_⟩
    rw [overlay_concat, hy, some_or]
  obtain ⟨w, hw⟩ := ne_none_iff_exists'.mp hsome
  by_cases hsame : e = e'
  · subst hsame
    obtain ⟨rest, hrest⟩ := exists_perm_concat he
    refine ⟨_, hrest, ?_, ?_⟩
    · rw [overlay_concat, hw, some_or]
    · rw [overlay_concat, hy, some_or]
  rcases hord.resolve_left hsame with hc | hi
  · obtain ⟨rest, hrest⟩ := exists_perm_concat_two he he' hsame
    refine ⟨_, hrest, ?_, ?_⟩
    · rw [overlay_concat, hw, some_or]
    · rw [overlay_concat, hc, none_or, overlay_concat, hy, some_or]
  obtain ⟨rest, hrest⟩ := exists_perm_concat_two he' he (Ne.symm hsame)
  refine ⟨_, hrest, ?_, ?_⟩
  · rw [overlay_concat, hi, none_or, overlay_concat, hw, some_or]
  · rw [overlay_concat, hy, some_or]

end BjutEth
