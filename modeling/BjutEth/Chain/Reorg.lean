import BjutEth.Lib.WriteAll
import BjutEth.Chain.BlockChain

namespace BjutEth.Chain

open Outcome
open List hiding not_lt

def pathDown (blocks : ℕ × Hash → Option Block) : ℕ → Block → List Block
  | 0, b => [b]
  | n + 1, b => b :: (blocks (n, b.parentHash)).elim [] (pathDown blocks n)

def Linked (genesis : Block) (blocks : ℕ × Hash → Option Block) : ℕ → Block → Prop
  | 0, b => b = genesis ∧ b.number = 0
  | n + 1, b =>
    b.number = n + 1 ∧ ∃ p, blocks (n, b.parentHash) = some p ∧ Linked genesis blocks n p

section Paths

variable {genesis : Block} {blocks blocks' : ℕ × Hash → Option Block} {n : ℕ} {b c p : Block}

theorem pathDown_succ (h : blocks (n, b.parentHash) = some p) :
    pathDown blocks (n + 1) b = b :: pathDown blocks n p := by
  rw [pathDown, h, Option.elim_some]

theorem mem_pathDown_self : b ∈ pathDown blocks n b := by
  cases n with
  | zero => exact mem_singleton_self b
  | succ n => exact mem_cons_self

section

variable (h : Linked genesis blocks n b)

include h

theorem Linked.number_eq : b.number = n := by
  cases n with
  | zero => exact h.2
  | succ n => exact h.1

theorem Linked.number_le (hc : c ∈ pathDown blocks n b) : c.number ≤ n := by
  induction n generalizing b with
  | zero =>
    obtain rfl := mem_singleton.mp hc
    exact h.2.le
  | succ n ih =>
    obtain ⟨hn, p, hp, hl⟩ := h
    rw [pathDown_succ hp] at hc
    obtain rfl | hc := mem_cons.mp hc
    · exact hn.le
    · exact (ih hl hc).trans n.le_succ

theorem Linked.exists_number {i : ℕ} (hi : i ≤ n) : ∃ c ∈ pathDown blocks n b, c.number = i := by
  induction n generalizing b with
  | zero => exact ⟨b, mem_pathDown_self, by rw [h.2]; omega⟩
  | succ n ih =>
    obtain ⟨hn, p, hp, hl⟩ := h
    rw [pathDown_succ hp]
    by_cases hi' : i = n + 1
    · exact ⟨b, mem_cons_self, hn.trans hi'.symm⟩
    obtain ⟨c, hc, hci⟩ := ih hl (by omega)
    exact ⟨c, mem_cons_of_mem b hc, hci⟩

theorem Linked.eq_of_number_eq {c d : Block}
    (hc : c ∈ pathDown blocks n b) (hd : d ∈ pathDown blocks n b) (hcd : c.number = d.number) :
    c = d := by
  induction n generalizing b with
  | zero => rw [mem_singleton.mp hc, mem_singleton.mp hd]
  | succ n ih =>
    obtain ⟨hn, p, hp, hl⟩ := h
    rw [pathDown_succ hp] at hc hd
    obtain rfl | hcp := mem_cons.mp hc
    · obtain rfl | hdp := mem_cons.mp hd
      · rfl
      have := hl.number_le hdp
      omega
    obtain rfl | hdp := mem_cons.mp hd
    · have := hl.number_le hcp
      omega
    · exact ih hl hcp hdp

end

section

variable (hsub : ∀ k b, blocks k = some b → blocks' k = some b)

include hsub

theorem Linked.mono (h : Linked genesis blocks n b) : Linked genesis blocks' n b := by
  induction n generalizing b with
  | zero => exact h
  | succ n ih =>
    obtain ⟨hn, p, hp, hl⟩ := h
    exact ⟨hn, p, hsub _ _ hp, ih hl⟩

theorem Linked.pathDown_eq
    (h : Linked genesis blocks n b) : pathDown blocks' n b = pathDown blocks n b := by
  induction n generalizing b with
  | zero => rfl
  | succ n ih =>
    obtain ⟨-, p, hp, hl⟩ := h
    rw [pathDown_succ hp, pathDown_succ (hsub _ _ hp), ih hl]

end

end Paths

section Chains

variable {genesis : Block} {blocks : ℕ × Hash → Option Block} {n : ℕ}

theorem prevNumber_succ (n : ℕ) : prevNumber (n + 1) = n := by
  simp [prevNumber]

theorem reduceTo_eq {target : ℕ} {b : Block} (h : Linked genesis blocks n b) (ht : target ≤ n) :
    ∃ c l, Linked genesis blocks target c ∧ (c = b ∨ ∃ k, blocks k = some c) ∧
      pathDown blocks n b = l ++ pathDown blocks target c ∧
      ∀ fuel > n, ∀ chain,
        reduceTo blocks target fuel (some b) chain = .ok (some c, chain ++ l) := by
  induction n generalizing b with
  | zero =>
    obtain rfl : target = 0 := by omega
    refine ⟨b, [], h, .inl rfl, rfl, fun fuel hf chain ↦ ?_⟩
    obtain ⟨fuel, rfl⟩ := Nat.exists_eq_add_of_lt hf
    rw [reduceTo, if_pos h.2, append_nil]
  | succ n ih =>
    by_cases hn : target = n + 1
    · subst hn
      refine ⟨b, [], h, .inl rfl, rfl, fun fuel hf chain ↦ ?_⟩
      obtain ⟨fuel, rfl⟩ := Nat.exists_eq_add_of_lt hf
      rw [reduceTo, if_pos h.number_eq, append_nil]
    obtain ⟨hb, p, hp, hl⟩ := h
    obtain ⟨c, l, hc, hcp, hpath, hrun⟩ := ih hl (by omega)
    refine ⟨c, b :: l, hc, .inr ?_, ?_, fun fuel hf chain ↦ ?_⟩
    · obtain rfl | hstd := hcp
      · exact ⟨_, hp⟩
      · exact hstd
    · rw [pathDown_succ hp, hpath, cons_append]
    obtain ⟨fuel, rfl⟩ := Nat.exists_eq_succ_of_ne_zero (by omega : fuel ≠ 0)
    rw [reduceTo, if_neg (by omega), hb, prevNumber_succ, hp, hrun fuel (by omega),
      List.append_assoc, singleton_append]

theorem findCommon_eq {hash : Block → Hash} {S : Set Block} (hinj : S.InjOn hash)
    (hS : ∀ k b, blocks k = some b → b ∈ S) {b c : Block} (hbS : b ∈ S) (hcS : c ∈ S)
    (hb : Linked genesis blocks n b) (hc : Linked genesis blocks n c) :
    ∃ lb lc rest, pathDown blocks n b = lb ++ rest ∧ pathDown blocks n c = lc ++ rest ∧
      ∀ fuel > n, ∀ old new,
        findCommon hash blocks fuel b c old new = .ok (old ++ lb, new ++ lc) := by
  induction n generalizing b c with
  | zero =>
    obtain rfl : b = c := hb.1.trans hc.1.symm
    refine ⟨[], [], _, rfl, rfl, fun fuel hf old new ↦ ?_⟩
    obtain ⟨fuel, rfl⟩ := Nat.exists_eq_add_of_lt hf
    rw [findCommon, if_pos rfl, append_nil, append_nil]
  | succ n ih =>
    by_cases heq : hash b = hash c
    · obtain rfl := hinj hbS hcS heq
      refine ⟨[], [], _, rfl, rfl, fun fuel hf old new ↦ ?_⟩
      obtain ⟨fuel, rfl⟩ := Nat.exists_eq_add_of_lt hf
      rw [findCommon, if_pos rfl, append_nil, append_nil]
    obtain ⟨hbn, p, hp, hbl⟩ := hb
    obtain ⟨hcn, q, hq, hcl⟩ := hc
    obtain ⟨lb, lc, rest, hlb, hlc, hrun⟩ := ih (hS _ _ hp) (hS _ _ hq) hbl hcl
    refine ⟨b :: lb, c :: lc, rest, ?_, ?_, fun fuel hf old new ↦ ?_⟩
    · rw [pathDown_succ hp, hlb, cons_append]
    · rw [pathDown_succ hq, hlc, cons_append]
    obtain ⟨fuel, rfl⟩ := Nat.exists_eq_succ_of_ne_zero (by omega : fuel ≠ 0)
    rw [findCommon, if_neg heq, hbn, hcn, prevNumber_succ, hp, hq]
    simp only [hrun fuel (by omega), List.append_assoc, singleton_append]

theorem reorgChains_eq {hash : Block → Hash} {S : Set Block} (hinj : S.InjOn hash)
    (hS : ∀ k b, blocks k = some b → b ∈ S) {m : ℕ} {b c : Block} (hbS : b ∈ S) (hcS : c ∈ S)
    (hb : Linked genesis blocks n b) (hc : Linked genesis blocks m c) :
    ∃ old new rest, pathDown blocks n b = old ++ rest ∧ pathDown blocks m c = new ++ rest ∧
      Returns (fun fuel ↦ reorgChains hash blocks fuel b c) (old, new) := by
  have hmem : ∀ {d e : Block}, e ∈ S → (d = e ∨ ∃ k, blocks k = some d) → d ∈ S := by
    rintro d e he (rfl | ⟨k, hk⟩)
    · exact he
    · exact hS k d hk
  by_cases hlt : m < n
  · obtain ⟨d, l, hd, hdb, hpath, hred⟩ := reduceTo_eq hb hlt.le
    obtain ⟨lb, lc, rest, hlb, hlc, hrun⟩ := findCommon_eq hinj hS (hmem hbS hdb) hcS hd hc
    refine ⟨l ++ lb, lc, rest, ?_, hlc, n + 1, fun fuel hf ↦ ?_⟩
    · rw [hpath, hlb, List.append_assoc]
    simp only [reorgChains, hb.number_eq, hc.number_eq, if_pos hlt, hred fuel (by omega)]
    exact hrun fuel (by omega) l []
  obtain ⟨d, l, hd, hdc, hpath, hred⟩ := reduceTo_eq hc (not_lt.mp hlt)
  obtain ⟨lb, lc, rest, hlb, hlc, hrun⟩ := findCommon_eq hinj hS hbS (hmem hcS hdc) hb hd
  refine ⟨lb, l ++ lc, rest, hlb, ?_, m + 1, fun fuel hf ↦ ?_⟩
  · rw [hpath, hlc, List.append_assoc]
  simp only [reorgChains, hb.number_eq, hc.number_eq, if_neg hlt, hred fuel (by omega)]
  exact hrun fuel (by omega) [] l

end Chains

end BjutEth.Chain
