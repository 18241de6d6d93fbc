import BjutEth.State.Roots

namespace BjutEth.State

open Std ExtTreeMap Hashing Cell
open Option hiding map map_map
open Alien (Address Hash Runtime)
open StateObject (View)

variable {C R S : Type} {H : Hashing C R S} [DecidableEq C] [DecidableEq R] [DecidableEq S]
variable {db db' : Database H} {s s' c : StateDB C R} {a : Address} {o : StateObject C R} {f : Bool}

omit [DecidableEq S] in
theorem StateObject.view_deepCopy (h : o.Coherent db) : o.deepCopy.view db = o.view db := by
  refine View.ext rfl rfl rfl rfl rfl (funext fun k ↦ ?_) rfl
  show o.dirtyStorage[k]?.getD _ = o.cachedStorage[k]?.getD _
  cases hd : o.dirtyStorage[k]? with
  | some v =>
    rw [h.cached k v hd]
    rfl
  | none =>
    cases hc : o.cachedStorage[k]? with
    | none => rfl
    | some v => exact h.clean k v hc hd

namespace StateDB

/-- What can become of a state and of the database below it later on. -/
inductive Follows (db : Database H) (s : StateDB C R) : Database H → StateDB C R → Prop
  | refl : Follows db s db s
  | run {db1 : Database H} {s1 s2 : StateDB C R} {op : Op} (h : Follows db s db1 s1)
      (hs : s1.run db1 op = some s2) : Follows db s db1 s2
  | finalise {db1 : Database H} {s1 s2 : StateDB C R} {rt : Runtime} {f : Bool} (h : Follows db s db1 s1)
      (hs : s1.finalise rt db1 f = some s2) : Follows db s db1 s2
  | commit {db1 db2 : Database H} {s1 s2 : StateDB C R} {rt : Runtime} {f : Bool} {root : S}
      (h : Follows db s db1 s1) (hs : s1.commit rt db1 f = some (root, db2, s2)) : Follows db s db2 s2
  | copy {db1 : Database H} {s1 s2 : StateDB C R} {rt : Runtime} (h : Follows db s db1 s1)
      (hs : s1.copy rt = some s2) : Follows db s db1 s2
  | reset {db1 : Database H} {s1 s2 : StateDB C R} {root : Option S} (h : Follows db s db1 s1)
      (hs : s1.reset db1 root = some s2) : Follows db s db1 s2

theorem Follows.within (hr : Reachable (fun _ _ ↦ True) db s) (h : Follows db s db' s') :
    Reachable (fun _ _ ↦ True) db' s' ∧ db.Within db' := by
  induction h with
  | refl => exact ⟨hr, .refl db⟩
  | run _ hs ih => exact ⟨ih.1.run trivial hs, ih.2⟩
  | finalise _ hs ih => exact ⟨ih.1.finalise hs, ih.2⟩
  | commit _ hs ih => exact ⟨ih.1.commit hs, ih.2.trans (commit_some ih.1.valid.1.sound hs).1.within⟩
  | copy _ hs ih => exact ⟨ih.1.copy hs, ih.2⟩
  | reset _ hs ih => exact ⟨ih.1.reset hs, ih.2⟩

theorem Sound.alike_within (h : s.Sound db) (hw : db.Within db') (a : Address) : Alike db s db' s a := by
  rw [alike_iff h (h.within hw), h.cell_within hw]

/-! ### The getters of a copy -/

omit [DecidableEq C] [DecidableEq R] in
theorem Copied.trie (h : Copied s c) : c.trie = s.trie := by
  refine ext_getElem? (fun a ↦ ?_)
  show (c.slot a).2.1 = s.trie[a]?
  rw [h.slot a, copiedSlot]
  split_ifs <;> rfl

theorem Copied.view? (h : Copied s c) (hs : s.Sound db) (a : Address) :
    (c.cell db a).view? =
      if s.isDirty a then (s.cell db a).view? else (stored db s.trie a false).view? := by
  have hobj : c.stateObjects[a]? = (s.copiedSlot a).1 := congrArg Prod.fst (h.slot a)
  have hstd : ∀ m m', (stored db s.trie a m).view? = (stored db s.trie a m').view? := by
    intro m m'
    unfold stored
    split <;> rfl
  unfold copiedSlot at hobj
  split_ifs at hobj ⊢
  · cases ho : s.stateObjects[a]? with
    | none =>
      rw [ho] at hobj
      rw [cell_of_none hobj, cell_of_none ho, h.trie]
      exact hstd _ _
    | some o =>
      rw [ho] at hobj
      rw [cell_of_some hobj, cell_of_some ho, live, live,
        StateObject.view_deepCopy (hs.objects a o ho)]
      show (if o.deleted then _ else _ : Cell C).view? = _
      split_ifs <;> rfl
  · rw [cell_of_none hobj, h.trie]
    exact hstd _ _

/-! ### The root of a copy -/

def Flushed (db : Database H) (f : Bool) (s : StateDB C R) (a : Address) : Prop :=
  ∀ o, s.stateObjects[a]? = some o →
    if o.removed H f true then s.trie[a]? = none else o.Encodes ∧ s.trie[a]? = some (o.account db)

omit [DecidableEq S] in
theorem flushed_iff : Flushed db f s a ↔ (finalisedSlot db f (s.slot a)).map (·.2.1) = some s.trie[a]? := by
  unfold Flushed finalisedSlot
  cases ho : s.stateObjects[a]? with
  | none =>
    rw [show (s.slot a).1 = none from ho]
    exact iff_of_true (by simp) rfl
  | some o =>
    rw [show (s.slot a).1 = some o from ho]
    simp only [some.injEq, forall_eq']
    split_ifs with hrem henc
    · exact ⟨fun h ↦ congrArg some h.symm, fun h ↦ (some.inj h).symm⟩
    · exact ⟨fun h ↦ congrArg some h.2.symm, fun h ↦ ⟨henc, (some.inj h).symm⟩⟩
    · exact iff_of_false (fun h ↦ henc h.1) (by simp)

theorem intermediateRoot_eq_iff (rt : Runtime) :
    (s.intermediateRoot rt db f).map (·.1) = some (H.stateRoot s.trie) ↔
      ∀ a ∈ s.journal.dirties, Flushed db f s a := by
  have hmap : (s.intermediateRoot rt db f).map (·.1) = (s.finalise rt db f).map (H.stateRoot ·.trie) := by
    rw [intermediateRoot, Option.map_map]
    rfl
  rw [hmap]
  simp only [flushed_iff]
  cases hf : s.finalise rt db f with
  | none =>
    obtain ⟨a, ha, hn⟩ := (finalise_eq_none_iff rt f).mp hf
    refine iff_of_false (by simp) (fun h ↦ ?_)
    have := h a ha
    rw [hn] at this
    cases this
  | some s1 =>
    have hfin := finalise_some hf
    constructor
    · intro h a ha
      have htrie : s1.trie = s.trie := H.stateRoot_injective (some.inj h)
      rw [hfin.settled a ha]
      exact congrArg (fun t : Accounts C R ↦ some t[a]?) htrie
    intro h
    have htrie : s1.trie = s.trie := by
      refine ext_getElem? (fun a ↦ ?_)
      by_cases ha : a ∈ s.journal.dirties
      · have hs := h a ha
        rw [hfin.settled a ha] at hs
        exact some.inj hs
      · exact congrArg (fun c : Slot C R ↦ c.2.1) (hfin.kept a ha)
    rw [map_some, htrie]

theorem Copied.intermediateRoot (h : Copied s c) (rt : Runtime) (f : Bool) :
    (c.intermediateRoot rt db f).map (·.1) = some (H.stateRoot s.trie) := by
  rw [← h.trie]
  refine (intermediateRoot_eq_iff rt).mpr (fun a ha ↦ ?_)
  rw [h.journal] at ha
  simp at ha

/-- A copy behaves like its original: it answers every getter alike and has the same early
root, and nothing done to one of them later shows in the other. -/
structure Mirrors (db : Database H) (s c : StateDB C R) : Prop where
  alike : ∀ a, Alike db s db c a
  refund : c.refund = s.refund
  logs : c.getLogs = s.getLogs
  root : ∀ (rt rt' : Runtime) (f : Bool),
    (c.intermediateRoot rt' db f).map (·.1) = (s.intermediateRoot rt db f).map (·.1)
  original : ∀ db' c', Follows db c db' c' → ∀ a, Alike db s db' s a
  copy : ∀ db' s', Follows db s db' s' → ∀ a, Alike db c db' c a

/-- Every marked account has an object, every object that is not dirty reads as the trie,
and nothing is left to finalise. -/
structure Copyable (db : Database H) (s : StateDB C R) : Prop where
  marked : ∀ a ∈ s.stateObjectsDirty, s.stateObjects[a]?.isSome
  clean : ∀ a, s.isDirty a = false → (s.cell db a).view? = (Cell.stored db s.trie a false).view?
  flushed : ∀ f, ∀ a ∈ s.journal.dirties, Flushed db f s a

/-- `Copy` gives a state that behaves like the original exactly if that one is copyable. -/
theorem copy_mirrors_iff (h : Reachable (fun _ _ ↦ True) db s) (rt : Runtime) :
    (∃ c, s.copy rt = some c ∧ Mirrors db s c) ↔ Copyable db s := by
  have hs := h.valid.1.sound
  constructor
  · rintro ⟨c, hc, hm⟩
    have hcop := copy_some hc
    refine ⟨fun a ha ↦ ?_, fun a ha ↦ ?_, fun f ↦ ?_⟩
    · rw [← ne_none_iff_isSome]
      intro hn
      rw [(copy_eq_none_iff rt).mpr ⟨a, ha, hn⟩] at hc
      cases hc
    · have hv := (alike_iff hs (hcop.sound hs)).mp (hm.alike a)
      rw [hcop.view? hs a, ha] at hv
      exact hv.symm
    · refine (intermediateRoot_eq_iff rt).mp ?_
      rw [← hm.root rt rt f, hcop.intermediateRoot]
  rintro ⟨hmarked, hcln, hflushed⟩
  cases hc : s.copy rt with
  | none =>
    obtain ⟨a, ha, hn⟩ := (copy_eq_none_iff rt).mp hc
    have := hmarked a ha
    rw [hn] at this
    cases this
  | some c =>
    have hcop := copy_some hc
    refine ⟨c, rfl, fun a ↦ ?_, hcop.refund, ?_, fun rt1 rt2 f ↦ ?_, fun db' c' hf a ↦ ?_,
      fun db' s' hf a ↦ ?_⟩
    · rw [alike_iff hs (hcop.sound hs), hcop.view? hs a]
      split_ifs with hd
      · rfl
      · exact (hcln a (Bool.eq_false_iff.mpr hd)).symm
    · funext hash
      rw [getLogs, getLogs, hcop.logs]
    · rw [hcop.intermediateRoot, (intermediateRoot_eq_iff rt1).mpr (hflushed f)]
    · exact hs.alike_within (hf.within (h.copy hc)).2 a
    · exact (hcop.sound hs).alike_within (hf.within h).2 a

/-- A balance that is set and finalised, but not committed, is copied. -/
theorem finalised_balance_copied :
    ∃ s c : StateDB Bytes StorageTrie,
      (setBalance ideal blank 7 3).finalise .inOrder blankDb true =
        some s ∧
      s.copy .inOrder = some c ∧ Mirrors blankDb s c := by
  have hrun : blank.run blankDb (.setBalance 7 3) =
      some (setBalance ideal blank 7 3) := rfl
  have hfacts : ((setBalance ideal blank 7 3).finalise .inOrder
      blankDb true).map (fun s ↦
        (s.stateObjects.keys, s.stateObjectsDirty.keys, s.journal.dirties.keys)) = some ([7], [7], []) := by
    decide +kernel
  obtain ⟨s, hs, hkeys⟩ := map_eq_some_iff.mp hfacts
  obtain ⟨hlive, hrest⟩ := Prod.mk.inj hkeys
  obtain ⟨hmarks, hdirties⟩ := Prod.mk.inj hrest
  have hcopy : Copyable blankDb s := by
    refine ⟨fun a ha ↦ ?_, fun a ha ↦ ?_, fun f a ha ↦ ?_⟩
    · rw [← mem_keys, hmarks, ← hlive, mem_keys] at ha
      exact mem_iff_isSome_getElem?.mp ha
    · have hnone : s.stateObjects[a]? = none := by
        refine ExtTreeMap.getElem?_eq_none (fun h ↦ ?_)
        rw [← mem_keys, hlive, ← hmarks, mem_keys] at h
        rw [isDirty, contains_iff_mem.mpr h] at ha
        cases ha
      rw [cell_of_none hnone, Cell.stored, Cell.stored]
      split <;> rfl
    · rw [← mem_keys, hdirties] at ha
      cases ha
  obtain ⟨c, hc, hm⟩ := (copy_mirrors_iff (((reachable_blank _).run trivial hrun).finalise hs) .inOrder).mpr hcopy
  exact ⟨s, c, hs, hc, hm⟩

/-- A copy has no journal, so what is not finalised yet is missing from its early root; and
an account that `CreateAccount` has reset is not copied, so the copy answers its old nonce. -/
theorem copy_forgets_changes :
    (((setBalance ideal blank 7 3).copy .inOrder).bind
        (·.intermediateRoot .inOrder blankDb false)).map (·.1) ≠
      ((setBalance ideal blank 7 3).intermediateRoot .inOrder
        blankDb false).map (·.1) ∧
    ∃ (db : Database ideal) (s : StateDB Bytes StorageTrie),
      Reachable (fun _ _ ↦ True) db s ∧ s.getNonce 7 = 0 ∧ (s.copy .inOrder).map (·.getNonce 7) = some 5 := by
  refine ⟨by decide +kernel, ?_⟩
  have hrun : blank.run blankDb (.setNonce 7 5) =
      some (setNonce ideal blank 7 5) := rfl
  obtain ⟨⟨root, db, s⟩, hc, h⟩ : ∃ p, (setNonce ideal blank 7 5).commit .inOrder
      blankDb false = some p ∧
      (p.2.2.createAccount ideal 7).getNonce 7 = 0 ∧
      ((p.2.2.createAccount ideal 7).copy .inOrder).map (·.getNonce 7) = some 5 := by
    decide +kernel
  have hcrt : s.run db (.createAccount 7) = some (s.createAccount ideal 7) := rfl
  exact ⟨db, s.createAccount ideal 7,
    ((((reachable_blank _).run trivial hrun).commit hc).run trivial hcrt), h⟩

end StateDB

end BjutEth.State
