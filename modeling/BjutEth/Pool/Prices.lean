import BjutEth.Pool.Index

namespace BjutEth.Pool

open Std List ExtTreeMap
open Alien (Address Hash Runtime)

variable {U : Transaction → Prop} {rt : Runtime} {p p' : TxPool} {loose debt debt' : List Transaction}
variable {a : Address} {t t' : Transaction} {c c' : TxPool.Conf} {config : TxPoolConfig}

namespace TxPool

/-- Every transaction of the index has one entry in the price heap, or has just been taken
from it, and all other entries are counted as stale. -/
structure Priced (c : Conf) : Prop where
  nodup : (c.pool.priced.items.toList ++ c.debt).Nodup
  all_sub : ∀ (h : Hash) t, c.pool.all[h]? = some t → t ∈ c.pool.priced.items.toList ++ c.debt
  debt_sub : ∀ t ∈ c.debt, c.pool.all[t.hash]? = some t
  stales : c.pool.priced.stales = (c.pool.priced.items.toList ++ c.debt).length - c.pool.all.size

theorem nodup_values {all : TxLookup} (h : ∀ (hash : Hash) t, all[hash]? = some t → t.hash = hash) :
    (all.toList.map (·.2)).Nodup := by
  refine List.Nodup.of_map (·.hash) ?_
  have hkeys : (all.toList.map (·.2)).map (·.hash) = all.toList.map (·.1) := by
    rw [List.map_map]
    refine map_congr_left (fun e he ↦ ?_)
    exact h e.1 e.2 (mem_toList_iff_getElem?_eq_some.mp he)
  rw [hkeys]
  exact all.nodup_keys_toList

theorem size_erase_add_one {all : TxLookup} {hash : Hash} (h : all[hash]? = some t) :
    (all.erase hash).size + 1 = all.size := by
  have hperm := (GoMap.toList_perm_erase all h).length_eq
  rw [length_cons, length_toList, length_toList] at hperm
  exact hperm.symm

namespace Priced

theorem of_eq (h : Priced ⟨p, loose, debt⟩) {loose' : List Transaction} (ha : p'.all = p.all)
    (hpr : p'.priced = p.priced) : Priced ⟨p', loose', debt⟩ := by
  obtain ⟨hnd, hall, hdebt, hst⟩ := h
  constructor <;> dsimp only
  · rw [hpr]
    exact hnd
  · rw [ha, hpr]
    exact hall
  · rw [ha]
    exact hdebt
  · rw [ha, hpr]
    exact hst

theorem of_perm (h : Priced ⟨p, loose, debt⟩) {items : Array Transaction}
    (hperm : (items.toList ++ debt').Perm (p.priced.items.toList ++ debt))
    (hdebt : ∀ t ∈ debt', p.all[t.hash]? = some t) :
    Priced ⟨{ p with priced := { p.priced with items } }, loose, debt'⟩ := by
  refine ⟨hperm.nodup_iff.mpr h.nodup, fun hash t ht ↦ hperm.mem_iff.mpr (h.all_sub hash t ht), hdebt, ?_⟩
  rw [hperm.length_eq]
  exact h.stales

theorem drop (hU : Separated U) (hi : Indexed U ⟨p, t :: loose, debt⟩)
    (h : Priced ⟨p, t :: loose, debt⟩) (ht : debt.Perm (t :: debt')) :
    Priced ⟨{ p with all := p.all.erase t.hash }, loose, debt'⟩ := by
  have hin : p.all[t.hash]? = some t := (hi.all t.hash t).mpr ⟨rfl, .inr mem_cons_self⟩
  have hperm : (p.priced.items.toList ++ debt).Perm (t :: (p.priced.items.toList ++ debt')) :=
    (ht.append_left _).trans perm_middle
  obtain ⟨hout, hnd⟩ := nodup_cons.mp (hperm.nodup_iff.mp h.nodup)
  refine ⟨hnd, fun hash t' ht' ↦ ?_, fun t' ht' ↦ ?_, ?_⟩
  · replace ht' : (p.all.erase t.hash)[hash]? = some t' := ht'
    rw [getElem?_erase] at ht'
    split_ifs at ht' with hh
    rcases mem_cons.mp (hperm.mem_iff.mp (h.all_sub hash t' ht')) with rfl | ht''
    · exact absurd (Std.compare_eq_iff_eq.mpr ((hi.all hash t').mp ht').1) hh
    · exact ht''
  · have hmem : t' ∈ debt := ht.mem_iff.mpr (mem_cons_of_mem t ht')
    rw [getElem?_erase, if_neg]
    · exact h.debt_sub t' hmem
    intro hh
    have he := hU t t' (hi.univ t (.inr mem_cons_self)) (hi.heap t' (.inr hmem)) (Std.compare_eq_iff_eq.mp hh)
    exact hout (he ▸ mem_append_right _ ht')
  show p.priced.stales = ((p.priced.items.toList ++ debt').length : ℤ) - (p.all.erase t.hash).size
  have hsize := size_erase_add_one hin
  have hst := h.stales
  have hlen := hperm.length_eq
  dsimp only at hst
  rw [length_cons] at hlen
  omega

theorem forget (hU : Separated U) (hi : Indexed U ⟨p, t :: loose, []⟩)
    (h : Priced ⟨p, t :: loose, []⟩) : Priced ⟨p.forget rt t, loose, []⟩ := by
  have hm : Move U false rt ⟨p, t :: loose, []⟩ ⟨p.forget rt t, loose, []⟩ := .forget
  have hi' := hm.indexed hU hi
  have hin : p.all[t.hash]? = some t := (hi.all t.hash t).mpr ⟨rfl, .inr mem_cons_self⟩
  have hsize := size_erase_add_one hin
  have hst := h.stales
  have hsub := h.all_sub
  have hnd := h.nodup
  dsimp only at hst hsub hnd
  rw [append_nil] at hst hnd
  unfold TxPool.forget TxPricedList.removed
  dsimp only
  split_ifs with hfew
  · refine ⟨?_, fun hash t' ht' ↦ ?_, fun t' ht' ↦ (by cases ht'), ?_⟩
    · rw [append_nil]
      exact hnd
    · replace ht' : (p.all.erase t.hash)[hash]? = some t' := ht'
      rw [getElem?_erase] at ht'
      split_ifs at ht'
      exact hsub hash t' ht'
    rw [append_nil]
    dsimp only
    omega
  have hperm := (Heap.init_perm cheaper (rt.rangeOrder ((p.all.erase t.hash).toList.map (·.2))).toArray).trans
    (rt.rangeOrder_perm _)
  have hmem : ∀ hash t', (p.all.erase t.hash)[hash]? = some t' → t' ∈ (p.all.erase t.hash).toList.map (·.2) :=
    fun hash t' ht' ↦ List.mem_map.mpr ⟨(hash, t'), mem_toList_iff_getElem?_eq_some.mpr ht', rfl⟩
  refine ⟨?_, fun hash t' ht' ↦ ?_, fun t' ht' ↦ (by cases ht'), ?_⟩
  · rw [append_nil]
    refine hperm.nodup_iff.mpr ?_
    exact nodup_values (fun hash t' ht' ↦ ((hi'.all hash t').mp ht').1)
  · rw [append_nil]
    exact hperm.mem_iff.mpr (hmem hash t' ht')
  rw [append_nil, hperm.length_eq, length_map, length_toList]
  dsimp only
  omega

theorem enter (h : Priced p) (hfrs : t ∉ p.priced.items.toList) (hnew : p.all[t.hash]? = none) :
    Priced ⟨p.enlist t, [t], []⟩ := by
  have hperm := Heap.push_perm cheaper p.priced.items t
  have hst := h.stales
  have hsub := h.all_sub
  have hnd := h.nodup
  dsimp only at hst hsub hnd
  rw [append_nil] at hst hnd
  refine ⟨?_, fun hash t' ht' ↦ ?_, fun t' ht' ↦ (by cases ht'), ?_⟩
  · rw [append_nil]
    exact hperm.nodup_iff.mpr (nodup_cons.mpr ⟨hfrs, hnd⟩)
  · replace ht' : (p.all.insert t.hash t)[hash]? = some t' := ht'
    rw [append_nil]
    refine hperm.mem_iff.mpr ?_
    rw [ExtTreeMap.getElem?_insert] at ht'
    split_ifs at ht'
    · exact mem_cons.mpr (.inl (Option.some.inj ht').symm)
    have hmem := hsub hash t' ht'
    rw [append_nil] at hmem
    exact mem_cons_of_mem t hmem
  have hsize : (p.all.insert t.hash t).size = p.all.size + 1 := by
    rw [size_insert, if_neg]
    rw [ExtTreeMap.contains_iff_mem, mem_iff_isSome_getElem?, hnew]
    exact Bool.false_ne_true
  have hlen := hperm.length_eq
  rw [length_cons] at hlen
  show p.priced.stales = (((Heap.push cheaper p.priced.items t).toList ++ []).length : ℤ) -
    (p.all.insert t.hash t).size
  rw [append_nil]
  omega

theorem move (hU : Separated U) (hi : Indexed U c)
    (hm : Move U true rt c c') (h : Priced c) : Priced c' := by
  cases hm with
  | takePending | takeQueue | erasePending | eraseQueue | putPending | putQueue => exact h.of_eq rfl rfl
  | other _ _ ha hpr _ => exact h.of_eq ha hpr
  | forget => exact h.forget hU hi
  | drop ht => exact h.drop hU hi ht
  | @cleared p loose debt debt' t ht hn =>
    have hin := h.debt_sub t (ht.mem_iff.mpr mem_cons_self)
    cases hn.symm.trans hin
  | enter ha hok hnew hfree => exact h.enter (hok.2 rfl) hnew
  | @popStale p loose debt items t hpop hn =>
    have hperm : (p.priced.items.toList ++ debt).Perm (t :: (items.toList ++ debt)) := hpop.append_right debt
    refine ⟨(nodup_cons.mp (hperm.nodup_iff.mp h.nodup)).2, fun hash t' ht' ↦ ?_, h.debt_sub, ?_⟩
    · rcases mem_cons.mp (hperm.mem_iff.mp (h.all_sub hash t' ht')) with rfl | hmem
      · obtain rfl := ((hi.all hash t').mp ht').1
        cases hn.symm.trans ht'
      · exact hmem
    have hst := h.stales
    have hlen := hperm.length_eq
    rw [length_cons] at hlen
    dsimp only at hst ⊢
    omega
  | @popLive p loose debt items t hpop hn =>
    refine h.of_perm (perm_middle.trans (hpop.append_right debt).symm) (fun t' ht' ↦ ?_)
    rcases mem_cons.mp ht' with rfl | ht'
    · obtain ⟨t'', ht''⟩ := Option.isSome_iff_exists.mp hn
      have hU' : U t' := hi.heap t' (.inl (hpop.mem_iff.mpr mem_cons_self))
      rw [hi.eq_of_hash hU hU' ht''] at ht''
      exact ht''
    · exact h.debt_sub t' ht'
  | @pushLive p loose debt debt' items t ht hpush =>
    refine h.of_perm ?_ (fun t' ht' ↦ h.debt_sub t' (ht.mem_iff.mpr (mem_cons_of_mem t ht')))
    exact (hpush.append_right debt').trans (perm_middle.symm.trans (ht.symm.append_left _))

end Priced

structure Tracked (p : TxPool) : Prop where
  once : ∀ (hash : Hash) t, p.all[hash]? = some t → p.priced.items.toList.count t = 1
  balance : (p.priced.items.size : ℤ) - p.priced.stales = p.all.size
  nonneg : 0 ≤ p.priced.stales

theorem Priced.tracked (hi : Indexed U p) (h : Priced p) : Tracked p := by
  have hst := h.stales
  have hsub := h.all_sub
  have hnd := h.nodup
  simp only [append_nil] at hst hsub hnd
  rw [Array.length_toList] at hst
  have hle : p.all.size ≤ p.priced.items.size := by
    have hvalues : (p.all.toList.map (·.2)).Nodup := nodup_values (fun hash t ht ↦ ((hi.all hash t).mp ht).1)
    have hincl : p.all.toList.map (·.2) ⊆ p.priced.items.toList := by
      intro t ht
      obtain ⟨⟨hash, t'⟩, he, rfl⟩ := List.mem_map.mp ht
      exact hsub hash t' (mem_toList_iff_getElem?_eq_some.mp he)
    have hlen := (subperm_of_subset hvalues hincl).length_le
    rwa [length_map, length_toList, Array.length_toList] at hlen
  exact ⟨fun hash t ht ↦ count_eq_one_of_mem hnd (hsub hash t ht), by omega, by omega⟩

/-- The price heap tracks the index in every pool that is reached while no transaction is
offered that is not in the index but has an entry in the heap. -/
theorem reachable_tracked (hU : ∀ t t', U t → U t' → t.hash = t'.hash → t = t')
    (hr : Reachable ⟨Offered U true, fun _ _ ↦ True⟩ config p) : Tracked p := by
  have hinit : Priced ⟨initial config, [], []⟩ := by
    refine ⟨.nil, fun h t ht ↦ ?_, by simp, rfl⟩
    have ht : (∅ : TxLookup)[h]? = some t := ht
    cases ht
  have hk : Keeps ⟨Offered U true, fun _ _ ↦ True⟩ config _ _ := keeps_of_moves (g := ⟨Offered U true, fun _ _ ↦ True⟩) hU
    (fun _ _ h ↦ h) (fun _ _ _ hi hm h ↦ h.move hU hi hm) hinit (fun p state gasLimit h ↦ h.of_eq rfl rfl)
  obtain ⟨hi, hprc⟩ := hk.reachable hr
  exact hprc.tracked hi

/-! ### A transaction that comes back -/

/-- The heap of a single transaction is built anew when that is dropped, so it may come
back. -/
theorem reachable_tracked_readded : ∃ p, p.priced.items.toList = [plainTx 1 1 1 5] ∧ Tracked p := by
  obtain ⟨p0, hnew, hi0, p1, hp1, p2, hp2, hi2, p, hp, hits⟩ : ∃ p0,
      new .inOrder 0 {} (plainChain 1000000) = some p0 ∧ p0.priced.items.toList = [] ∧
      ∃ p1, p0.run .inOrder 0 (.addRemote (plainTx 1 1 1 5)) = some p1 ∧
      ∃ p2, p1.run .inOrder 20000000000000 .evict = some p2 ∧ p2.priced.items.toList = [] ∧
      ∃ p, p2.run .inOrder 0 (.addRemote (plainTx 1 1 1 5)) = some p ∧
      p.priced.items.toList = [plainTx 1 1 1 5] := by decide +kernel
  have hfree : ∀ q : TxPool, q.priced.items.toList = [] →
      Offered (· = plainTx 1 1 1 5) true q (plainTx 1 1 1 5) := by
    intro q hq
    refine ⟨rfl, fun _ _ ↦ ?_⟩
    rw [hq]
    exact not_mem_nil
  have hr : Reachable ⟨Offered (· = plainTx 1 1 1 5) true, fun _ _ ↦ True⟩ {} p := by
    refine .run (.run (.run (reachable_new hnew) ?_ hp1) ?_ hp2) ?_ hp
    · exact hfree p0 hi0
    · exact trivial
    · exact hfree p2 hi2
  refine ⟨p, hits, reachable_tracked ?_ hr⟩
  rintro t t' rfl rfl -
  rfl

/-- A heap of four transactions keeps the entry of the first one, which the eviction has
dropped, and gets a second one when the transaction comes back. -/
theorem not_tracked_readded : ∃ p, Reachable ⟨fun _ _ ↦ True, fun _ _ ↦ True⟩ {} p ∧ ¬ Tracked p := by
  obtain ⟨p0, hnew, p1, hp1, p2, hp2, p, hp, hall, hcnt⟩ : ∃ p0,
      new .inOrder 0 {} (plainChain 1000000) = some p0 ∧
      ∃ p1, p0.run .inOrder 0
        (.addRemotes [plainTx 1 1 1 5, plainTx 2 2 0 5, plainTx 3 3 0 5, plainTx 4 4 0 5]) = some p1 ∧
      ∃ p2, p1.run .inOrder 20000000000000 .evict = some p2 ∧
      ∃ p, p2.run .inOrder 0 (.addRemote (plainTx 1 1 1 5)) = some p ∧
      p.all[(1 : Hash)]? = some (plainTx 1 1 1 5) ∧ p.priced.items.toList.count (plainTx 1 1 1 5) = 2 := by
    decide +kernel
  have hr : Reachable ⟨fun _ _ ↦ True, fun _ _ ↦ True⟩ {} p := by
    refine .run (.run (.run (.new ?_ hnew) ?_ hp1) ?_ hp2) ?_ hp
    · exact fun _ _ _ _ ↦ ⟨batch_of_forall (fun _ _ ↦ trivial) _, trivial⟩
    · exact batch_of_forall (fun _ _ ↦ trivial) _
    · exact trivial
    · exact trivial
  refine ⟨p, hr, fun h ↦ ?_⟩
  have hone := h.once 1 _ hall
  omega

end TxPool

end BjutEth.Pool
