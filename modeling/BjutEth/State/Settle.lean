import BjutEth.Lib.KeyedLoop
import BjutEth.State.Flush
import BjutEth.State.Cells

namespace BjutEth.State

open Std Option ExtTreeMap Database Bool GoMap
open Alien (Address Hash Runtime)
open StateObject (View)

variable {C R S : Type} {H : Hashing C R S}
variable {db db' : Database H} {s s' : StateDB C R} {a : Address} {o : StateObject C R}

namespace StateObject

variable [DecidableEq C]

def removed (H : Hashing C R S) (deleteEmptyObjects dirty : Bool) (o : StateObject C R) : Bool :=
  o.suicided || dirty && deleteEmptyObjects && o.empty H

theorem empty_of_removed {f dirty : Bool} (hrem : o.removed H f dirty = true)
    (hsu : o.suicided = false) : o.empty H = true := by
  rw [removed, hsu, Bool.false_or, and_eq_true] at hrem
  exact hrem.2

def Encodes (o : StateObject C R) : Prop := 0 ≤ o.data.balance ∧ 0 ≤ o.data.contribution

instance (o : StateObject C R) : Decidable o.Encodes := inferInstanceAs (Decidable (_ ∧ _))

theorem storeCode_snd :
    (o.storeCode db).2 = { o with dirtyCode := o.dirtyCode && o.code.isNone } := by
  obtain ⟨data, trie, code, cachedStorage, dirtyStorage, dirtyCode, suicided, deleted, dbErr⟩ := o
  cases code <;> cases dirtyCode <;> rfl

theorem within_storeCode : db.Within (o.storeCode db).1 := by
  unfold storeCode
  split
  · split_ifs
    · exact within_insertCode _ _
    · exact .refl db
  · exact .refl db

variable [DecidableEq R] [DecidableEq S]

def settled (db : Database H) (o : StateObject C R) : StateObject C R :=
  { o.getTrie db with data := o.account db, trie := some (o.written db), dirtyStorage := ∅ }

theorem updateRoot_eq (rt : Runtime) : o.updateRoot rt db = o.settled db := by
  unfold updateRoot
  rw [updateTrie_eq]
  rfl

theorem Coherent.settled (h : o.Coherent db) : (o.settled db).Coherent db := by
  have hu := h.updateTrie .inOrder
  exact ⟨hu.cached, hu.clean, hu.hash_code, hu.code_stored, fun h' ↦ (by cases h'), hu.noErr⟩

theorem Coherent.settled_within (h : o.Coherent db) (hw : db.Within db') :
    o.settled db' = o.settled db := by
  have ht := h.storageTrie_within hw
  have hwr : o.written db' = o.written db := by rw [written, written, ht]
  have he : (o.trie.isNone && (db'.openStorageTrie o.data.root).isNone) =
      (o.trie.isNone && (db.openStorageTrie o.data.root).isNone) := by
    cases htr : o.trie with
    | some t => rfl
    | none =>
      obtain ⟨t, ht'⟩ := h.root_stored htr
      rw [ht', hw.openStorageTrie ht']
  simp only [StateObject.settled, getTrie, account, hwr, he]

theorem Coherent.commitTrie_eq (h : o.Coherent db) (rt : Runtime) :
    o.commitTrie rt db = some (db.insertStorage (o.written db), o.settled db) := by
  have hu := (h.updateTrie rt).noErr
  have hn : ¬ (o.updateTrie rt db).dbErr = true := by
    rw [hu]
    exact Bool.false_ne_true
  show (if (o.updateTrie rt db).dbErr then none else some _) = _
  rw [if_neg hn, updateTrie_eq]
  rfl

section

variable (h : o.Coherent db)

include h

omit [DecidableEq S] in
theorem Coherent.code_storeCode :
    o.data.codeHash = H.code [] ∨ ∃ c, (o.storeCode db).1.codes o.data.codeHash = some c := by
  obtain he | ⟨hd, hc⟩ | ⟨c, hc⟩ := h.code_stored
  · exact .inl he
  · obtain ⟨c, hc⟩ := isSome_iff_exists.mp hc
    refine .inr ⟨c, ?_⟩
    have hst : (o.storeCode db).1 = db.insertCode c := by simp [storeCode, hc, hd]
    rw [hst]
    exact if_pos (h.hash_code c hc).symm
  · exact .inr ⟨c, within_storeCode.codes _ _ hc⟩

theorem Coherent.storeCode : (o.storeCode db).2.Coherent (o.storeCode db).1 := by
  have hw : o.Coherent (o.storeCode db).1 := h.within within_storeCode
  rw [storeCode_snd]
  exact ⟨hw.cached, hw.clean, hw.hash_code, h.code_storeCode.imp_right .inr, hw.root_stored, hw.noErr⟩

theorem Coherent.committed : Coherent ((o.storeCode db).1.insertStorage (o.written db))
      { o.settled db with dirtyCode := o.dirtyCode && o.code.isNone } := by
  have hw : db.Within ((o.storeCode db).1.insertStorage (o.written db)) :=
    within_storeCode.trans (within_insertStorage _ _)
  have hs := h.settled.within hw
  exact ⟨hs.cached, hs.clean, hs.hash_code, h.code_storeCode.imp_right .inr, hs.root_stored, hs.noErr⟩

omit [DecidableEq S] in
theorem Coherent.newObject_account :
    (newObject (o.account db)).Coherent ((o.storeCode db).1.insertStorage (o.written db)) where
  cached k v hk := by simp [newObject] at hk
  clean k v hk := by simp [newObject] at hk
  hash_code c hc := by cases hc
  code_stored := h.code_storeCode.imp_right .inr
  root_stored _ := ⟨o.written db, openStorageTrie_insertStorage _ _⟩
  noErr := rfl

theorem Coherent.value_settled (k : Hash) : (o.settled db).value db k = o.value db k := by
  show o.cachedStorage[k]?.getD ((o.written db).value k) = _
  rw [h.value_written]
  unfold value
  cases o.cachedStorage[k]? <;> rfl

theorem Coherent.view_settled : (o.settled db).view db = o.view db :=
  View.ext rfl rfl rfl rfl rfl (funext h.value_settled) rfl

end

end StateObject

namespace StateDB

abbrev Slot (C R : Type) := Option (StateObject C R) × Option (Account C R) × Bool

def slot (s : StateDB C R) (a : Address) : Slot C R :=
  (s.stateObjects[a]?, s.trie[a]?, s.stateObjectsDirty.contains a)

def setSlot (s : StateDB C R) (a : Address) (c : Slot C R) : StateDB C R :=
  { s with
    stateObjects := s.stateObjects.alter a (fun _ ↦ c.1)
    trie := s.trie.alter a (fun _ ↦ c.2.1)
    stateObjectsDirty := s.stateObjectsDirty.alter a (fun _ ↦ if c.2.2 then some () else none) }

def unflushed (s : StateDB C R) : StateDB C R :=
  { s with trie := ∅, stateObjects := ∅, stateObjectsDirty := ∅ }

variable {s1 : StateDB C R} {V : Type} {f : Bool} {c : Slot C R}

theorem eq_of_unflushed {β : Type} {s2 : StateDB C R} (h : s1.unflushed = s2.unflushed)
    (f : StateDB C R → β) (hf : ∀ s : StateDB C R, f s.unflushed = f s) : f s1 = f s2 := by
  rw [← hf, h, hf]

theorem contains_eq_isSome (m : GoMap Address V) (a : Address) : m.contains a = m[a]?.isSome := by
  rw [Bool.eq_iff_iff, contains_iff_mem, mem_iff_isSome_getElem?]

theorem slot_setSlot_self (s : StateDB C R) (a : Address) (c : Slot C R) : (s.setSlot a c).slot a = c := by
  simp only [slot, setSlot, contains_eq_isSome, getElem?_alter, Std.compare_self]
  obtain ⟨o, acc, m⟩ := c
  cases m <;> rfl

theorem slot_setSlot_of_ne (s : StateDB C R) (c : Slot C R) {b : Address} (hb : b ≠ a) :
    (s.setSlot a c).slot b = s.slot b := by
  have hab : ¬ compare a b = .eq := fun h ↦ hb (Std.compare_eq_iff_eq.mp h).symm
  simp only [slot, setSlot, contains_eq_isSome, getElem?_alter, if_neg hab]

theorem updateStateObject_of_encodes (s : StateDB C R) (a : Address) (h : o.Encodes) :
    s.updateStateObject a o = some { s with trie := s.trie.insert a o.data } := by
  refine if_neg (fun h' ↦ ?_)
  have h1 := h.1
  have h2 := h.2
  omega

theorem updateStateObject_of_not (s : StateDB C R) (a : Address) (h : ¬ o.Encodes) :
    s.updateStateObject a o = none := by
  refine if_pos ?_
  have h' : ¬ (0 ≤ o.data.balance ∧ 0 ≤ o.data.contribution) := h
  omega

theorem setSlot_slot (s : StateDB C R) (a : Address) : s.setSlot a (s.slot a) = s := by
  have hm : s.stateObjectsDirty.alter a
      (fun _ ↦ if s.stateObjectsDirty.contains a then some () else none) = s.stateObjectsDirty := by
    refine alter_eq_self ?_
    rw [contains_eq_isSome]
    cases s.stateObjectsDirty[a]? <;> rfl
  have ho : s.stateObjects.alter a (fun _ ↦ s.stateObjects[a]?) = s.stateObjects :=
    alter_eq_self rfl
  have ht : s.trie.alter a (fun _ ↦ s.trie[a]?) = s.trie := alter_eq_self rfl
  unfold setSlot slot
  rw [hm, ho, ht]

def isDirty (s : StateDB C R) (a : Address) : Bool :=
  s.stateObjectsDirty.contains a || s.journal.dirties.contains a

theorem foldl_markDirty (l : List Address) (s : StateDB C R) :
    (l.foldl markDirty s).unflushed = s.unflushed ∧ (l.foldl markDirty s).trie = s.trie ∧
      (l.foldl markDirty s).stateObjects = s.stateObjects ∧
      ∀ a, (l.foldl markDirty s).stateObjectsDirty.contains a =
        (s.stateObjectsDirty.contains a || decide (a ∈ l)) := by
  induction l generalizing s with
  | nil => exact ⟨rfl, rfl, rfl, fun a ↦ by simp⟩
  | cons b l ih =>
    obtain ⟨h1, h2, h3, h4⟩ := ih (s.markDirty b)
    refine ⟨h1, h2, h3, fun a ↦ ?_⟩
    rw [List.foldl_cons, h4 a, markDirty, contains_insert, Bool.eq_iff_iff]
    simp only [or_eq_true, decide_eq_true_eq, List.mem_cons, beq_iff_eq, Std.compare_eq_iff_eq]
    constructor
    · rintro ((h | h) | h)
      · exact .inr (.inl h.symm)
      · exact .inl h
      · exact .inr (.inr h)
    rintro (h | h | h)
    · exact .inl (.inr h)
    · exact .inl (.inl h.symm)
    · exact .inr h

variable [DecidableEq C] [DecidableEq R] [DecidableEq S] (rt : Runtime)

/-! ### `Finalise` -/

def finalisedSlot (db : Database H) (f : Bool) (c : Slot C R) : Option (Slot C R) :=
  match c.1 with
  | none => some c
  | some o =>
    if o.removed H f true then some (some { o with deleted := true }, none, true)
    else if o.Encodes then some (some (o.settled db), some (o.account db), true)
    else none

theorem finaliseAddress_eq (f : Bool) (s : StateDB C R) (a : Address) :
    finaliseAddress rt db f s a = (finalisedSlot db f (s.slot a)).map (s.setSlot a) := by
  unfold finaliseAddress finalisedSlot
  cases ho : s.stateObjects[a]? with
  | none =>
    have hs : (s.slot a).1 = none := ho
    simp only [hs, map_some, setSlot_slot]
  | some o =>
    have hrem : o.removed H f true = (o.suicided || f && o.empty H) := by
      rw [StateObject.removed, Bool.true_and]
    simp only [slot, ho, hrem, StateObject.updateRoot_eq]
    split_ifs with hr he
    · simp [deleteStateObject, markDirty, setStateObject, setSlot]
    · rw [updateStateObject_of_encodes _ a (o := o.settled db) he]
      simp [markDirty, setStateObject, setSlot, StateObject.settled]
    · rw [updateStateObject_of_not _ a (o := o.settled db) he]
      rfl

/-- `Finalise` settles the slots of the journal's dirty accounts, in any order, and fails
if one of them cannot be encoded. -/
theorem finalise_loop (f : Bool) (s : StateDB C R) {l : List Address} (hl : l.Nodup) :
    (l.foldlM (finaliseAddress rt db f) s = none → ∃ a ∈ l, finalisedSlot db f (s.slot a) = none) ∧
      ∀ s', l.foldlM (finaliseAddress rt db f) s = some s' →
        s'.unflushed = s.unflushed ∧
        ∀ a, (a ∈ l → finalisedSlot db f (s.slot a) = some (s'.slot a)) ∧ (a ∉ l → s'.slot a = s.slot a) := by
  refine foldlM_keyed slot (finaliseAddress rt db f) (fun a ↦ finalisedSlot db f (s.slot a))
    (fun s' ↦ s'.unflushed = s.unflushed) hl rfl ?_ ?_
  · intro s1 _ a _ hget hf
    rw [finaliseAddress_eq, hget] at hf
    exact map_eq_none_iff.mp hf
  intro s1 hs1 a _ hget s2 hf
  rw [finaliseAddress_eq, hget] at hf
  obtain ⟨c, hc, rfl⟩ := map_eq_some_iff.mp hf
  refine ⟨hs1, ?_, fun b hb ↦ slot_setSlot_of_ne s1 c hb⟩
  rw [hc, slot_setSlot_self]

theorem nodup_rangeOrder_keys (m : GoMap Address V) : (rt.rangeOrder m.keys).Nodup := by
  rw [(rt.rangeOrder_perm m.keys).nodup_iff]
  exact nodup_keys

theorem mem_rangeOrder_keys (m : GoMap Address V) : a ∈ rt.rangeOrder m.keys ↔ a ∈ m := by
  rw [(rt.rangeOrder_perm m.keys).mem_iff, mem_keys]

/-- What `Finalise` makes of a state: the slots of the dirty accounts are settled, the
other ones are kept, and the journal is gone. -/
structure Finalised (db : Database H) (f : Bool) (s s' : StateDB C R) : Prop where
  settled : ∀ a ∈ s.journal.dirties, finalisedSlot db f (s.slot a) = some (s'.slot a)
  kept : ∀ a ∉ s.journal.dirties, s'.slot a = s.slot a
  rest : s'.unflushed = s.clearJournalAndRefund.unflushed

theorem finalise_some {rt : Runtime} (hf : s.finalise rt db f = some s') : Finalised db f s s' := by
  obtain ⟨s1, hs1, rfl⟩ := map_eq_some_iff.mp hf
  obtain ⟨hrest, hslot⟩ := (finalise_loop rt f s (nodup_rangeOrder_keys rt _)).2 s1 hs1
  refine ⟨fun a ha ↦ ?_, fun a ha ↦ ?_, ?_⟩
  · exact (hslot a).1 ((mem_rangeOrder_keys rt _).mpr ha)
  · exact (hslot a).2 (fun h ↦ ha ((mem_rangeOrder_keys rt _).mp h))
  show s1.unflushed.clearJournalAndRefund = s.unflushed.clearJournalAndRefund
  rw [hrest]

theorem finalise_eq_none_iff (f : Bool) :
    s.finalise rt db f = none ↔ ∃ a ∈ s.journal.dirties, finalisedSlot db f (s.slot a) = none := by
  constructor
  · intro h
    obtain ⟨a, ha, hn⟩ := (finalise_loop rt f s (nodup_rangeOrder_keys rt _)).1 (map_eq_none_iff.mp h)
    exact ⟨a, (mem_rangeOrder_keys rt _).mp ha, hn⟩
  rintro ⟨a, ha, hn⟩
  cases hf : s.finalise rt db f with
  | none => rfl
  | some s' =>
    rw [(finalise_some hf).settled a ha] at hn
    cases hn

theorem Finalised.sound (hf : Finalised db f s s') (h : s.Sound db) : s'.Sound db := by
  have hj : s'.journal = {} := eq_of_unflushed hf.rest StateDB.journal (fun _ ↦ rfl)
  -- the slot of each address is either an old one or one that was settled
  have hslot : ∀ a, s'.slot a = s.slot a ∨ ∃ o, s.stateObjects[a]? = some o ∧ a ∈ s.journal.dirties ∧
      ((o.removed H f true = true ∧ s'.slot a = (some { o with deleted := true }, none, true)) ∨
        s'.slot a = (some (o.settled db), some (o.account db), true)) := by
    intro a
    by_cases ha : a ∈ s.journal.dirties
    · have hs := hf.settled a ha
      unfold finalisedSlot at hs
      cases ho : s.stateObjects[a]? with
      | none =>
        have hn : (s.slot a).1 = none := ho
        simp only [hn] at hs
        exact .inl (some.inj hs).symm
      | some o =>
        have hn : (s.slot a).1 = some o := ho
        simp only [hn] at hs
        split_ifs at hs with h1 h2
        · exact .inr ⟨o, rfl, ha, .inl ⟨h1, (some.inj hs).symm⟩⟩
        · exact .inr ⟨o, rfl, ha, .inr (some.inj hs).symm⟩
    · exact .inl (hf.kept a ha)
  refine ⟨fun a o ho ↦ ?_, fun a o ho hd hsu ↦ ?_, fun a acc ht ↦ ?_, ?_, ?_⟩
  · obtain he | ⟨o0, ho0, -, ⟨-, he⟩ | he⟩ := hslot a
    · exact h.objects a o ((congrArg Prod.fst he).symm.trans ho)
    · cases (congrArg Prod.fst he).symm.trans ho
      exact (h.objects a o0 ho0).setData _ _ _ _ _
    · cases (congrArg Prod.fst he).symm.trans ho
      exact (h.objects a o0 ho0).settled
  · obtain he | ⟨o0, ho0, ha, ⟨hrem, he⟩ | he⟩ := hslot a
    · exact h.deleted a o ((congrArg Prod.fst he).symm.trans ho) hd hsu
    · cases (congrArg Prod.fst he).symm.trans ho
      exact StateObject.empty_of_removed hrem hsu
    cases (congrArg Prod.fst he).symm.trans ho
    have hd' : o0.deleted = true := hd
    rw [h.dirty a o0 ha ho0] at hd'
    cases hd'
  · obtain he | ⟨o0, ho0, ha, ⟨-, he⟩ | he⟩ := hslot a
    · have ht' : s.trie[a]? = some acc := (congrArg (fun c : Slot C R ↦ c.2.1) he).symm.trans ht
      refine (h.accounts a acc ht').imp_right ?_
      rintro ⟨o, ho, hd, hm⟩
      refine ⟨o, ?_, hd, ?_⟩
      · exact (congrArg Prod.fst he).trans ho
      exact (congrArg (fun c : Slot C R ↦ c.2.2) he).trans hm
    · have ht' : (none : Option (Account C R)) = some acc :=
        (congrArg (fun c : Slot C R ↦ c.2.1) he).symm.trans ht
      cases ht'
    refine .inr ⟨o0.settled db, congrArg Prod.fst he, h.dirty a o0 ha ho0, ?_⟩
    exact congrArg (fun c : Slot C R ↦ c.2.2) he
  · rw [hj]
    simp
  rw [hj]
  intro a o ha
  simp at ha

/-! ### `Commit` -/

def committedSlot (db : Database H) (f : Bool) (c : Slot C R) : Option (Slot C R) :=
  match c.1 with
  | none => none
  | some o =>
    if o.removed H f c.2.2 then some (some { o with deleted := true }, none, false)
    else if c.2.2 then
      if o.Encodes then
        some (some { o.settled db with dirtyCode := o.dirtyCode && o.code.isNone }, some (o.account db), false)
      else none
    else some (some o, c.2.1, false)

def committedDb (db : Database H) (f : Bool) (c : Slot C R) : Database H :=
  match c.1 with
  | none => db
  | some o =>
    if o.removed H f c.2.2 then db
    else if c.2.2 then (o.storeCode db).1.insertStorage (o.written db)
    else db

omit [DecidableEq S] in
theorem within_committedDb (db : Database H) (f : Bool) (c : Slot C R) : db.Within (committedDb db f c) := by
  unfold committedDb
  split
  · exact .refl db
  split_ifs
  · exact .refl db
  · exact StateObject.within_storeCode.trans (within_insertStorage _ _)
  · exact .refl db

theorem commitAddress_eq (f : Bool) (s : StateDB C R) (a : Address)
    (h : ∀ o, s.stateObjects[a]? = some o → o.Coherent db) :
    commitAddress rt f (db, s) a =
      (committedSlot db f (s.slot a)).map (fun c ↦ (committedDb db f (s.slot a), s.setSlot a c)) := by
  unfold commitAddress committedSlot committedDb
  cases ho : s.stateObjects[a]? with
  | none =>
    have hs : (s.slot a).1 = none := ho
    simp only [hs]
    rfl
  | some o =>
    have hs : (s.slot a).1 = some o := ho
    have hm : (s.slot a).2.2 = s.stateObjectsDirty.contains a := rfl
    have ht : (s.slot a).2.1 = s.trie[a]? := rfl
    have hco := h o ho
    simp only [hs, hm, ht]
    by_cases hrem : o.removed H f (s.stateObjectsDirty.contains a) = true
    · have hrem' : (o.suicided || s.stateObjectsDirty.contains a && f && o.empty H) = true := hrem
      rw [if_pos hrem, if_pos hrem, if_pos hrem']
      simp [deleteStateObject, setStateObject, setSlot, unmark]
    have hrem' : ¬ (o.suicided || s.stateObjectsDirty.contains a && f && o.empty H) = true := hrem
    rw [if_neg hrem, if_neg hrem, if_neg hrem']
    by_cases hd : s.stateObjectsDirty.contains a = true
    · rw [if_pos hd, if_pos hd, if_pos hd]
      have hs1 : (o.storeCode db).2 = { o with dirtyCode := o.dirtyCode && o.code.isNone } :=
        StateObject.storeCode_snd
      have hw : db.Within (o.storeCode db).1 := StateObject.within_storeCode
      rcases hst : o.storeCode db with ⟨db1, o1⟩
      simp only [hst] at hs1 hw
      -- storing the code first does not change what is written for the storage
      have hco1 : o1.Coherent db1 := by
        have hc := hco.storeCode
        rw [hst] at hc
        exact hc
      have hset : o1.settled db1 = { o.settled db with dirtyCode := o.dirtyCode && o.code.isNone } := by
        rw [← hco.settled_within hw, hs1]
        rfl
      have hwr : o1.written db1 = o.written db := by
        have ht1 := congrArg StateObject.trie hset
        exact some.inj ht1
      simp only [hco1.commitTrie_eq, bind_eq_bind, bind_some, hwr, hset]
      by_cases he : o.Encodes
      · have he' : { o.settled db with dirtyCode := o.dirtyCode && o.code.isNone }.Encodes := he
        rw [if_pos he, updateStateObject_of_encodes _ a he']
        simp [setStateObject, setSlot, unmark, StateObject.settled]
      have he' : ¬ { o.settled db with dirtyCode := o.dirtyCode && o.code.isNone }.Encodes := he
      rw [if_neg he, updateStateObject_of_not _ a he']
      rfl
    rw [if_neg hd, if_neg hd, if_neg hd]
    have hself : s.setSlot a (some o, s.trie[a]?, false) = s.unmark a := by
      have h1 : s.stateObjects.alter a (fun _ ↦ some o) = s.stateObjects := alter_eq_self ho.symm
      have h2 : s.trie.alter a (fun _ ↦ s.trie[a]?) = s.trie := alter_eq_self rfl
      unfold setSlot unmark
      rw [h1, h2]
      simp
    simp only [map_some, hself]

def dirtySlot (s : StateDB C R) (a : Address) : Slot C R := (s.stateObjects[a]?, s.trie[a]?, s.isDirty a)

omit [DecidableEq S] in
theorem committedSlot_cases {c' : Slot C R} (h : committedSlot db f c = some c') :
    ∃ o, c.1 = some o ∧
      ((o.removed H f c.2.2 = true ∧ c' = (some { o with deleted := true }, none, false) ∧
          committedDb db f c = db) ∨
        (o.removed H f c.2.2 = false ∧ c.2.2 = true ∧ o.Encodes ∧
          c' = (some { o.settled db with dirtyCode := o.dirtyCode && o.code.isNone },
            some (o.account db), false) ∧
          committedDb db f c = (o.storeCode db).1.insertStorage (o.written db)) ∨
        (o.removed H f c.2.2 = false ∧ c.2.2 = false ∧ c' = (some o, c.2.1, false) ∧
          committedDb db f c = db)) := by
  unfold committedSlot at h
  unfold committedDb
  cases ho : c.1 with
  | none =>
    rw [ho] at h
    cases h
  | some o =>
    simp only [ho] at h
    refine ⟨o, rfl, ?_⟩
    split_ifs at h with h1 h2 h3
    · exact .inl ⟨h1, (some.inj h).symm, if_pos h1⟩
    · exact .inr (.inl ⟨eq_false_iff.mpr h1, h2, h3, (some.inj h).symm,
        (if_neg h1).trans (if_pos h2)⟩)
    · exact .inr (.inr ⟨eq_false_iff.mpr h1, eq_false_iff.mpr h2, (some.inj h).symm,
        (if_neg h1).trans (if_neg h2)⟩)

theorem committedSlot_within (hc : ∀ o, c.1 = some o → o.Coherent db) (hw : db.Within db') :
    committedSlot db' f c = committedSlot db f c := by
  unfold committedSlot
  cases ho : c.1 with
  | none => rfl
  | some o =>
    have hs := (hc o ho).settled_within hw
    have ha : o.account db' = o.account db := congrArg StateObject.data hs
    simp only [hs, ha]

structure Committing (db : Database H) (s1 : StateDB C R) (p : Database H × StateDB C R) : Prop where
  within : db.Within p.1
  rest : p.2.unflushed = s1.unflushed
  objects : ∀ (a : Address) o, p.2.stateObjects[a]? = some o → o.Coherent p.1
  accounts : ∀ (a : Address) acc, p.2.trie[a]? = some acc → (newObject acc).Coherent p.1 ∨
    (s1.trie[a]? = some acc ∧ p.2.stateObjectsDirty.contains a = s1.stateObjectsDirty.contains a)
  states : p.1.states = db.states

omit [DecidableEq S] in
theorem states_committedDb (db : Database H) (f : Bool) (c : Slot C R) :
    (committedDb db f c).states = db.states := by
  unfold committedDb
  split
  · rfl
  split_ifs
  · rfl
  · unfold StateObject.storeCode
    split
    · split_ifs <;> rfl
    · rfl
  · rfl

theorem Committing.round {p : Database H × StateDB C R} (h : Committing db s1 p)
    (hget : p.2.slot a = s1.slot a) (hc : committedSlot p.1 f (p.2.slot a) = some c) :
    Committing db s1 (committedDb p.1 f (p.2.slot a), p.2.setSlot a c) := by
  have hw := within_committedDb p.1 f (p.2.slot a)
  have hne : ∀ b, b ≠ a → (p.2.setSlot a c).slot b = p.2.slot b := fun b hb ↦ slot_setSlot_of_ne p.2 c hb
  have hself : (p.2.setSlot a c).slot a = c := slot_setSlot_self p.2 a c
  obtain ⟨o0, ho0, hcs⟩ := committedSlot_cases hc
  have hco : o0.Coherent p.1 := h.objects a o0 ho0
  refine ⟨h.within.trans hw, h.rest, fun b o ho ↦ ?_, fun b acc ht ↦ ?_, ?_⟩
  · by_cases hb : b = a
    · subst hb
      have ho' : c.1 = some o := (congrArg Prod.fst hself).symm.trans ho
      obtain ⟨-, rfl, hdb⟩ | ⟨-, -, -, rfl, hdb⟩ | ⟨-, -, rfl, hdb⟩ := hcs
      · cases ho'
        exact (hco.setData _ _ _ _ _).within hw
      · cases ho'
        rw [hdb]
        exact hco.committed
      · cases ho'
        exact hco.within hw
    · have ho' : p.2.stateObjects[b]? = some o := (congrArg Prod.fst (hne b hb)).symm.trans ho
      exact (h.objects b o ho').within hw
  · by_cases hb : b = a
    · subst hb
      have ht' : c.2.1 = some acc := (congrArg (fun c : Slot C R ↦ c.2.1) hself).symm.trans ht
      obtain ⟨-, rfl, -⟩ | ⟨-, -, -, rfl, hdb⟩ | ⟨-, hm, rfl, -⟩ := hcs
      · cases ht'
      · cases ht'
        rw [hdb]
        exact .inl hco.newObject_account
      rw [hget] at ht' hm
      refine .inr ⟨ht', ?_⟩
      rw [show s1.stateObjectsDirty.contains b = false from hm]
      exact congrArg (fun c : Slot C R ↦ c.2.2) hself
    have ht' : p.2.trie[b]? = some acc := (congrArg (fun c : Slot C R ↦ c.2.1) (hne b hb)).symm.trans ht
    refine (h.accounts b acc ht').imp (fun hco ↦ hco.within hw) (fun hrest ↦ ⟨hrest.1, ?_⟩)
    rw [← hrest.2]
    exact congrArg (fun c : Slot C R ↦ c.2.2) (hne b hb)
  · exact (states_committedDb p.1 f _).trans h.states

structure Committed (db : Database H) (f : Bool) (s : StateDB C R) (db' : Database H) (s' : StateDB C R) :
    Prop where
  settled : ∀ a, s.stateObjects[a]?.isSome → committedSlot db f (s.dirtySlot a) = some (s'.slot a)
  kept : ∀ a, s.stateObjects[a]? = none → s'.slot a = s.dirtySlot a
  rest : s'.unflushed = s.clearJournalAndRefund.unflushed
  within : db.Within db'
  stored : db'.openTrie (some (H.stateRoot s'.trie)) = some s'.trie
  objects : ∀ (a : Address) o, s'.stateObjects[a]? = some o → o.Coherent db'
  accounts : ∀ (a : Address) acc, s'.trie[a]? = some acc → (newObject acc).Coherent db'
  states : ∀ r m, db'.states r = some m → db.states r = some m ∨ m = s'.trie

theorem commit_loop (f : Bool) (h : s.Sound db) (ho : s1.stateObjects = s.stateObjects)
    {l : List Address} (hl : l.Nodup) :
    (l.foldlM (commitAddress rt f) (db, s1) = none → ∃ a ∈ l, committedSlot db f (s1.slot a) = none) ∧
      ∀ p, l.foldlM (commitAddress rt f) (db, s1) = some p →
        Committing db s1 p ∧ ∀ a, (a ∈ l → committedSlot db f (s1.slot a) = some (p.2.slot a)) ∧
          (a ∉ l → p.2.slot a = s1.slot a) := by
  have hcoh : ∀ (a : Address) o, s1.stateObjects[a]? = some o → o.Coherent db := by
    rw [ho]
    exact h.objects
  have hstart : Committing db s1 (db, s1) :=
    ⟨.refl db, rfl, hcoh, fun a acc ht' ↦ .inr ⟨ht', rfl⟩, rfl⟩
  have hslot : ∀ p, Committing db s1 p → ∀ a, p.2.slot a = s1.slot a →
      committedSlot p.1 f (p.2.slot a) = committedSlot db f (s1.slot a) := by
    intro p hp a hget
    rw [hget]
    exact committedSlot_within (fun o ho' ↦ hcoh a o ho') hp.within
  have heq : ∀ p, Committing db s1 p → ∀ a, p.2.slot a = s1.slot a →
      commitAddress rt f p a = (committedSlot db f (s1.slot a)).map
        (fun c ↦ (committedDb p.1 f (p.2.slot a), p.2.setSlot a c)) := by
    intro p hp a hget
    rw [← hslot p hp a hget]
    exact commitAddress_eq rt f p.2 a (fun o ho ↦ hp.objects a o ho)
  refine foldlM_keyed (fun p ↦ p.2.slot) (commitAddress rt f) (fun a ↦ committedSlot db f (s1.slot a))
    (Committing db s1) hl hstart ?_ ?_
  · intro p hp a _ hget hf
    rw [heq p hp a hget] at hf
    exact map_eq_none_iff.mp hf
  intro p hp a _ hget p' hf
  rw [heq p hp a hget] at hf
  obtain ⟨c, hc, rfl⟩ := map_eq_some_iff.mp hf
  refine ⟨hp.round hget ((hslot p hp a hget).trans hc), ?_, fun b hb ↦ slot_setSlot_of_ne p.2 c hb⟩
  rw [hc, slot_setSlot_self]

omit [DecidableEq C] [DecidableEq R] in
/-- The state after the first loop of `Commit` shows the slots the second one starts from. -/
theorem slot_marked (s : StateDB C R) (a : Address) :
    ((rt.rangeOrder s.journal.dirties.keys).foldl markDirty s).slot a = s.dirtySlot a := by
  obtain ⟨-, ht, ho, hm⟩ := foldl_markDirty (rt.rangeOrder s.journal.dirties.keys) s
  have hd : decide (a ∈ rt.rangeOrder s.journal.dirties.keys) = s.journal.dirties.contains a := by
    rw [Bool.eq_iff_iff, decide_eq_true_eq, mem_rangeOrder_keys, contains_iff_mem]
  simp only [slot, dirtySlot, isDirty, ht, ho, hm, hd]

omit [DecidableEq S] in
theorem mark_committedSlot {c' : Slot C R} (h : committedSlot db f c = some c') : c'.2.2 = false := by
  obtain ⟨o, -, ⟨-, rfl, -⟩ | ⟨-, -, -, rfl, -⟩ | ⟨-, -, rfl, -⟩⟩ := committedSlot_cases h
  · rfl
  · rfl
  · rfl

theorem commit_some {rt : Runtime} (h : s.Sound db) {root : S}
    (hc : s.commit rt db f = some (root, db', s')) :
    Committed db f s db' s' ∧ root = H.stateRoot s'.trie := by
  obtain ⟨hun, ht, ho, -⟩ := foldl_markDirty (rt.rangeOrder s.journal.dirties.keys) s
  have hmark := slot_marked rt s
  obtain ⟨p, hp, he⟩ := bind_eq_some_iff.mp hc
  obtain ⟨hcom, hsls⟩ := (commit_loop rt f h ho (nodup_rangeOrder_keys rt _)).2 p hp
  obtain ⟨rfl, he'⟩ := Prod.mk.inj (some.inj he)
  cases he'
  simp only [mem_rangeOrder_keys, ho, hmark] at hsls
  have hw := within_insertState p.1 p.2.trie
  have hin : ∀ {a : Address}, a ∈ s.stateObjects ↔ s.stateObjects[a]?.isSome := by
    intro a
    rw [mem_iff_isSome_getElem?]
  refine ⟨⟨fun a ha ↦ (hsls a).1 (hin.mpr ha), fun a ha ↦ (hsls a).2 (fun h' ↦ ?_), ?_,
    hcom.within.trans hw, openTrie_insertState p.1 p.2.trie,
    fun a o ho' ↦ (hcom.objects a o ho').within hw, fun a acc hacc ↦ ?_, fun r m hm ↦ ?_⟩, rfl⟩
  · rw [hin, ha] at h'
    cases h'
  · show p.2.unflushed.clearJournalAndRefund = s.unflushed.clearJournalAndRefund
    rw [hcom.rest, hun]
  · refine Or.elim (hcom.accounts a acc hacc) (fun hco ↦ hco.within hw) ?_
    rintro ⟨ht', hm⟩
    rw [ht] at ht'
    refine Or.elim (h.accounts a acc ht') (fun hco ↦ hco.within (hcom.within.trans hw)) ?_
    rintro ⟨o, ho', -, hd⟩
    -- an account that a flush wrote was marked, and its round has taken the mark away
    have hlive : s.stateObjects[a]?.isSome = true := by
      rw [ho']
      rfl
    have hfalse : p.2.stateObjectsDirty.contains a = false :=
      mark_committedSlot ((hsls a).1 (hin.mpr hlive))
    have htrue : s.isDirty a = true := by
      rw [isDirty, contains_iff_mem.mpr hd]
      rfl
    rw [hfalse] at hm
    have := congrArg (fun c : Slot C R ↦ c.2.2) (hmark a)
    exact absurd (hm.trans (this.trans htrue)) (by decide)
  have hm' : (if r = H.stateRoot p.2.trie then some p.2.trie else p.1.states r) = some m := hm
  split_ifs at hm'
  · exact .inr (some.inj hm').symm
  rw [hcom.states] at hm'
  exact .inl hm'

/-- `Commit` stops exactly if an account to be written cannot be encoded. -/
theorem commit_eq_none_iff (f : Bool) (h : s.Sound db) :
    s.commit rt db f = none ↔
      ∃ a, s.stateObjects[a]?.isSome ∧ committedSlot db f (s.dirtySlot a) = none := by
  have hmark := slot_marked rt s
  obtain ⟨-, -, ho, -⟩ := foldl_markDirty (rt.rangeOrder s.journal.dirties.keys) s
  constructor
  · intro hn
    unfold commit at hn
    dsimp only at hn
    have hloop : ((rt.rangeOrder ((rt.rangeOrder s.journal.dirties.keys).foldl markDirty s).stateObjects.keys).foldlM
        (commitAddress rt f) (db, (rt.rangeOrder s.journal.dirties.keys).foldl markDirty s)) = none := by
      refine eq_none_iff_forall_not_mem.mpr (fun p hp ↦ ?_)
      rw [mem_def.mp hp] at hn
      cases hn
    obtain ⟨a, ha, hs⟩ := (commit_loop rt f h ho (nodup_rangeOrder_keys rt _)).1 hloop
    rw [mem_rangeOrder_keys, ho, mem_iff_isSome_getElem?] at ha
    exact ⟨a, ha, hmark a ▸ hs⟩
  rintro ⟨a, ha, hs⟩
  cases hc : s.commit rt db f with
  | none => rfl
  | some r =>
    obtain ⟨root, db', s'⟩ := r
    rw [(commit_some h hc).1.settled a ha] at hs
    cases hs

theorem Committed.sound (hc : Committed db f s db' s') (h : s.Sound db) : s'.Sound db' := by
  have hj : s'.journal = {} := eq_of_unflushed hc.rest StateDB.journal (fun _ ↦ rfl)
  refine ⟨hc.objects, fun a o ho hd hsu ↦ ?_, fun a acc ht ↦ .inl (hc.accounts a acc ht), ?_, ?_⟩
  · cases hlive : s.stateObjects[a]? with
    | none =>
      have := (congrArg Prod.fst (hc.kept a hlive)).symm.trans ho
      rw [show (s.dirtySlot a).1 = none from hlive] at this
      cases this
    | some o0 =>
      have hs := hc.settled a (by rw [hlive]; rfl)
      obtain ⟨o1, ho1, hcs⟩ := committedSlot_cases hs
      obtain rfl : o0 = o1 := some.inj (hlive.symm.trans ho1)
      obtain ⟨hrem, he, -⟩ | ⟨-, -, -, he, -⟩ | ⟨-, -, he, -⟩ := hcs
      · cases (congrArg Prod.fst he).symm.trans ho
        exact StateObject.empty_of_removed hrem hsu
      · cases (congrArg Prod.fst he).symm.trans ho
        exact h.deleted a o0 hlive hd hsu
      · obtain rfl := some.inj ((congrArg Prod.fst he).symm.trans ho)
        exact h.deleted a o0 hlive hd hsu
  · rw [hj]
    simp
  rw [hj]
  intro a o ha
  simp at ha

end StateDB

end BjutEth.State
