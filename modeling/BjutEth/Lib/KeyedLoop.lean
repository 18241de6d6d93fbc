import Mathlib

namespace BjutEth

open List

variable {σ κ β : Type}

/-- A loop over distinct keys in which every round settles the entry of its own key and
leaves the others alone: afterwards each key of the loop has its own result, whatever
the order of the rounds, and the loop stops exactly if one of them has none. -/
theorem foldlM_keyed (get : σ → κ → β) (f : σ → κ → Option σ) (g : κ → Option β) (P : σ → Prop)
    {s0 : σ} {l : List κ} (hl : l.Nodup) (h0 : P s0)
    (hnone : ∀ s, P s → ∀ k ∈ l, get s k = get s0 k → f s k = none → g k = none)
    (hsome : ∀ s, P s → ∀ k ∈ l, get s k = get s0 k → ∀ s', f s k = some s' →
      P s' ∧ g k = some (get s' k) ∧ ∀ k', k' ≠ k → get s' k' = get s k') :
    (l.foldlM f s0 = none → ∃ k ∈ l, g k = none) ∧
      ∀ s', l.foldlM f s0 = some s' →
        P s' ∧ ∀ k, (k ∈ l → g k = some (get s' k)) ∧ (k ∉ l → get s' k = get s0 k) := by
  -- the rounds still to come see the entries of their keys as they were at the start
  have key : ∀ (l' : List κ), l'.Nodup → (∀ k ∈ l', k ∈ l) → ∀ s, P s →
      (∀ k ∈ l', get s k = get s0 k) →
      (l'.foldlM f s = none → ∃ k ∈ l', g k = none) ∧
        ∀ s', l'.foldlM f s = some s' →
          P s' ∧ ∀ k, (k ∈ l' → g k = some (get s' k)) ∧ (k ∉ l' → get s' k = get s k) := by
    intro l'
    induction l' with
    | nil =>
      intro _ _ s hs _
      refine ⟨by simp, fun s' h ↦ ?_⟩
      obtain rfl : s = s' := Option.some.inj h
      exact ⟨hs, fun k ↦ ⟨by simp, fun _ ↦ rfl⟩⟩
    | cons a l' ih =>
      intro hnd hsub s hs hget
      obtain ⟨ha, hnd⟩ := nodup_cons.mp hnd
      have hal := hsub a mem_cons_self
      have hga := hget a mem_cons_self
      rw [foldlM_cons]
      cases hf : f s a with
      | none =>
        exact ⟨fun _ ↦ ⟨a, mem_cons_self, hnone s hs a hal hga hf⟩, fun s' h ↦ (by cases h)⟩
      | some s1 =>
        obtain ⟨hs1, hg, hoth⟩ := hsome s hs a hal hga s1 hf
        have hne : ∀ k ∈ l', k ≠ a := fun k hk he ↦ ha (he ▸ hk)
        obtain ⟨hnone', hsome'⟩ := ih hnd (fun k hk ↦ hsub k (mem_cons_of_mem a hk)) s1 hs1
          (fun k hk ↦ (hoth k (hne k hk)).trans (hget k (mem_cons_of_mem a hk)))
        refine ⟨fun h ↦ ?_, fun s' h ↦ ?_⟩
        · obtain ⟨k, hk, hgk⟩ := hnone' h
          exact ⟨k, mem_cons_of_mem a hk, hgk⟩
        obtain ⟨hs', hk'⟩ := hsome' s' h
        refine ⟨hs', fun k ↦ ⟨fun hk ↦ ?_, fun hk ↦ ?_⟩⟩
        · rcases mem_cons.mp hk with rfl | hk
          · rw [hg, (hk' k).2 ha]
          · exact (hk' k).1 hk
        · obtain ⟨hka, hkl⟩ := ne_and_not_mem_of_not_mem_cons hk
          rw [(hk' k).2 hkl, hoth k hka]
  exact key l hl (fun _ h ↦ h) s0 h0 (fun _ _ ↦ rfl)

theorem foldl_keyed (get : σ → κ → β) (f : σ → κ → σ) (g : κ → β) (P : σ → Prop) {s0 : σ}
    {l : List κ} (hl : l.Nodup) (h0 : P s0)
    (hrnd : ∀ s, P s → ∀ k ∈ l, get s k = get s0 k →
      P (f s k) ∧ get (f s k) k = g k ∧ ∀ k', k' ≠ k → get (f s k) k' = get s k') :
    P (l.foldl f s0) ∧
      ∀ k, (k ∈ l → get (l.foldl f s0) k = g k) ∧ (k ∉ l → get (l.foldl f s0) k = get s0 k) := by
  have hloop := (foldlM_keyed get (fun s k ↦ some (f s k)) (fun k ↦ some (g k)) P hl h0
    (by simp) (fun s hs k hk hget s' hs' ↦ ?_)).2 (l.foldl f s0) foldlM_pure
  · exact ⟨hloop.1, fun k ↦ ⟨fun hk ↦ (Option.some.inj ((hloop.2 k).1 hk)).symm, (hloop.2 k).2⟩⟩
  cases hs'
  obtain ⟨h1, h2, h3⟩ := hrnd s hs k hk hget
  exact ⟨h1, congrArg some h2.symm, h3⟩

end BjutEth
