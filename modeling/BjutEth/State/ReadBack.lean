import BjutEth.State.Roots

namespace BjutEth.State

open Std Option ExtTreeMap Hashing
open StateObject (removed)
open Bool hiding not_or
open Alien (Address Hash Runtime)
open StateObject (View)

variable {C R S : Type} {H : Hashing C R S} [DecidableEq C] [DecidableEq R] [DecidableEq S]
variable {db db' : Database H} {s s' t : StateDB C R} {a : Address} {o : StateObject C R} {f : Bool}

@[ext] structure Reads where
  balance : ℤ := 0
  contribution : ℤ := 0
  nonce : UInt64 := 0
  code : Bytes := []
  storage : Hash → Hash := fun _ ↦ 0

def StateObject.View.reads (v : View C) : Reads where
  balance := v.balance
  contribution := v.contribution
  nonce := v.nonce
  code := v.code
  storage := v.storage

def Cell.reads (c : Cell C) : Reads := (c.view?.map View.reads).getD {}

namespace StateObject

theorem view_newObject_account (h : o.Coherent db) (h' : (newObject (o.account db)).Coherent db') :
    (newObject (o.account db)).view db' = { o.view db with suicided := false } := by
  have hcode : ((newObject (o.account db)).view db').code = (o.view db).code :=
    H.code_injective (h'.hash_view.trans h.hash_view.symm)
  have hopen : db'.openStorageTrie (o.account db).root = some (o.written db) := by
    obtain ⟨t, ht⟩ := h'.root_stored rfl
    have hroot : (newObject (o.account db)).data.root = some (H.storageRoot (o.written db)) := rfl
    rw [hroot] at ht
    show db'.openStorageTrie (some (H.storageRoot (o.written db))) = _
    unfold Database.openStorageTrie at ht ⊢
    dsimp only at ht ⊢
    split_ifs at ht ⊢ with he
    · rw [H.storageRoot_injective he]
    · rw [ht, H.storageRoot_injective (db'.hash_storages _ t ht)]
  refine View.ext rfl rfl rfl rfl hcode (funext fun k ↦ ?_) rfl
  show (newObject (o.account db)).value db' k = o.value db k
  rw [← h.value_written k]
  have hst : (newObject (o.account db)).storageTrie db' = o.written db := by
    show (db'.openStorageTrie (o.account db).root).getD _ = _
    rw [hopen]
    rfl
  rw [value, hst]
  rfl

end StateObject

namespace StateDB

structure ReadsAlike (db : Database H) (s : StateDB C R) (db' : Database H) (s' : StateDB C R)
    (a : Address) : Prop where
  balance : s'.getBalance a = s.getBalance a
  contribution : s'.getContribution a = s.getContribution a
  nonce : s'.getNonce a = s.getNonce a
  code : s'.getCode db' a = s.getCode db a
  state : ∀ key, s'.getState db' a key = s.getState db a key

omit [DecidableEq C] in
theorem getD_reads {β : Type} (c : Cell C) (g : View C → β) (p : Reads → β) (d : β)
    (h : ∀ v : View C, p v.reads = g v) (hd : p {} = d) : (c.view?.map g).getD d = p c.reads := by
  unfold Cell.reads
  cases c.view? with
  | none => exact hd.symm
  | some v => exact (h v).symm

theorem readsAlike_iff (h : s.Sound db) (h' : s'.Sound db') :
    ReadsAlike db s db' s' a ↔ (s'.cell db' a).reads = (s.cell db a).reads := by
  have hb : ∀ c : Cell C, (c.view?.map (·.balance)).getD 0 = c.reads.balance :=
    fun c ↦ getD_reads c _ Reads.balance _ (fun _ ↦ rfl) rfl
  have hc : ∀ c : Cell C, (c.view?.map (·.contribution)).getD 0 = c.reads.contribution :=
    fun c ↦ getD_reads c _ Reads.contribution _ (fun _ ↦ rfl) rfl
  have hn : ∀ c : Cell C, (c.view?.map (·.nonce)).getD 0 = c.reads.nonce :=
    fun c ↦ getD_reads c _ Reads.nonce _ (fun _ ↦ rfl) rfl
  have hco : ∀ c : Cell C, (c.view?.map (·.code)).getD [] = c.reads.code :=
    fun c ↦ getD_reads c _ Reads.code _ (fun _ ↦ rfl) rfl
  have hst : ∀ (c : Cell C) key, (c.view?.map (·.storage key)).getD 0 = c.reads.storage key :=
    fun c key ↦ getD_reads c _ (fun r ↦ r.storage key) _ (fun _ ↦ rfl) rfl
  constructor
  · rintro ⟨h1, h2, h3, h4, h5⟩
    rw [getBalance_eq h, getBalance_eq h', hb, hb] at h1
    rw [getContribution_eq h, getContribution_eq h', hc, hc] at h2
    rw [getNonce_eq h, getNonce_eq h', hn, hn] at h3
    rw [getCode_eq h, getCode_eq h', hco, hco] at h4
    simp only [getState_eq h, getState_eq h', hst] at h5
    exact Reads.ext h1 h2 h3 h4 (funext h5)
  intro he
  refine ⟨?_, ?_, ?_, ?_, fun key ↦ ?_⟩
  · rw [getBalance_eq h, getBalance_eq h', hb, hb, he]
  · rw [getContribution_eq h, getContribution_eq h', hc, hc, he]
  · rw [getNonce_eq h, getNonce_eq h', hn, hn, he]
  · rw [getCode_eq h, getCode_eq h', hco, hco, he]
  · rw [getState_eq h, getState_eq h', hst, hst, he]

/-! ### The root computed early -/

theorem Finalised.flushed (h : Finalised db f s s') (hs : s.Sound db) (a : Address) :
    s'.flushed db f a = s.flushed db f a := by
  have hj : s'.journal = {} := eq_of_unflushed h.rest StateDB.journal (fun _ ↦ rfl)
  have hdir' : s'.isDirty a = (s'.slot a).2.2 := by
    rw [isDirty, hj]
    simp [slot]
  by_cases ha : a ∈ s.journal.dirties
  · have hdir : s.isDirty a = true := by
      rw [isDirty, contains_iff_mem.mpr ha, Bool.or_true]
    have hset := h.settled a ha
    cases ho : s.stateObjects[a]? with
    | none =>
      have hslot : s'.slot a = s.slot a := by
        unfold finalisedSlot at hset
        rw [show (s.slot a).1 = none from ho] at hset
        exact (some.inj hset).symm
      have ho' : s'.stateObjects[a]? = none := (congrArg Prod.fst hslot).trans ho
      rw [flushed_of_none ho, flushed_of_none ho']
      exact congrArg some (congrArg (·.2.1) hslot)
    | some o =>
      unfold finalisedSlot at hset
      rw [show (s.slot a).1 = some o from ho] at hset
      dsimp only at hset
      split_ifs at hset with hrem henc
      · -- a removed object is removed again
        have hslot := some.inj hset
        have ho' : s'.stateObjects[a]? = some { o with deleted := true } := (congrArg Prod.fst hslot).symm
        have hm : s'.isDirty a = true := hdir'.trans (congrArg (·.2.2) hslot).symm
        have hrem' : removed H f true { o with deleted := true } = true := hrem
        rw [flushed_of_some ho, flushed_of_some ho', hdir, hm, if_pos hrem, if_pos hrem']
      have hslot := some.inj hset
      have ho' : s'.stateObjects[a]? = some (o.settled db) := (congrArg Prod.fst hslot).symm
      have hm : s'.isDirty a = true := hdir'.trans (congrArg (·.2.2) hslot).symm
      have hco := hs.objects a o ho
      have hv := hco.view_settled
      rw [flushed_of_some ho, flushed_of_some ho', hdir, hm, removed_congr hv, if_neg hrem, if_neg hrem,
        StateObject.account_congr hco.settled hco hv]
      simp only [if_true, encodes_congr hv]
  have hslot := h.kept a ha
  have hdir : s.isDirty a = (s.slot a).2.2 := by
    rw [isDirty, eq_false_iff.mpr (fun h' ↦ ha (contains_iff_mem.mp h')), Bool.or_false]
    rfl
  have hobj : s'.stateObjects[a]? = s.stateObjects[a]? := congrArg Prod.fst hslot
  have htrie : s'.trie[a]? = s.trie[a]? := congrArg (·.2.1) hslot
  have hd : s'.isDirty a = s.isDirty a := by rw [hdir', hdir, hslot]
  unfold StateDB.flushed dirtySlot
  rw [hobj, htrie, hd]

omit [DecidableEq S] in
theorem flushed_of_finalise (ha : a ∈ s.journal.dirties) (hn : finalisedSlot db f (s.slot a) = none) :
    s.flushed db f a = none := by
  have hdir : s.isDirty a = true := by
    rw [isDirty, contains_iff_mem.mpr ha, Bool.or_true]
  unfold finalisedSlot at hn
  cases ho : s.stateObjects[a]? with
  | none =>
    rw [show (s.slot a).1 = none from ho] at hn
    cases hn
  | some o =>
    rw [show (s.slot a).1 = some o from ho] at hn
    dsimp only at hn
    split_ifs at hn with hrem henc
    rw [flushed_of_some ho, hdir, if_neg hrem, if_pos rfl, if_neg henc]

theorem intermediateRoot_commit (h : s.Valid db) (rt rt' rt'' : Runtime) (f : Bool) :
    ((s.intermediateRoot rt db f).bind (fun p ↦ p.2.commit rt' db f)).map (·.1) =
      (s.commit rt'' db f).map (·.1) := by
  cases hf : s.finalise rt db f with
  | none =>
    obtain ⟨a, ha, hn⟩ := (finalise_eq_none_iff rt f).mp hf
    rw [intermediateRoot, hf, (commit_eq_none_iff_flushed rt'' h.sound).mpr ⟨a, flushed_of_finalise ha hn⟩]
    rfl
  | some s1 =>
    have hfin := finalise_some hf
    rw [intermediateRoot, hf]
    exact commit_congr rt'' rt' h.sound (hfin.valid h).sound (hfin.flushed h.sound)

/-! ### Reading back -/

/-- The accounts that a commit leaves out: those that destroyed themselves and, if asked
to, the empty ones that were touched. -/
def AbsentAfter (H : Hashing C R S) (f : Bool) (s : StateDB C R) (a : Address) : Prop :=
  s.hasSuicided a = true ∨
    f = true ∧ s.isDirty a = true ∧ s.stateObjects[a]?.isSome ∧ s.exist a = true ∧ s.empty H a = true

def ReadsBack (db : Database H) (f : Bool) (s : StateDB C R) (db' : Database H) (t : StateDB C R)
    (a : Address) : Prop :=
  (AbsentAfter H f s a → t.exist a = false) ∧ (¬ AbsentAfter H f s a → ReadsAlike db s db' t a)

/-- The objects that `Commit` does not write read as the trie does, and those that are
deleted and that it writes all the same have no storage. -/
def Settles (db : Database H) (f : Bool) (s : StateDB C R) (a : Address) : Prop :=
  ∀ o, s.stateObjects[a]? = some o → o.suicided = false →
    (s.isDirty a = false → (Cell.stored db s.trie a false).reads = (s.cell db a).reads) ∧
      (s.isDirty a = true → o.deleted = true → f = false → ∀ k, o.value db k = 0)

omit [DecidableEq S] in
theorem reads_stored_of_some {trie : Accounts C R} {acc : Account C R} (h : trie[a]? = some acc) (m : Bool) :
    (Cell.stored db trie a m).reads = ((newObject acc).view db).reads := by
  rw [Cell.stored, h]
  rfl

omit [DecidableEq S] in
theorem reads_stored_of_none {trie : Accounts C R} (h : trie[a]? = none) (m : Bool) :
    (Cell.stored db trie a m).reads = {} := by
  rw [Cell.stored, h]
  rfl

section

variable (h : Committed db f s db' s')

include h

theorem Committed.reads_stored (hs : s.Sound db)
    (hm : s.stateObjects[a]? = none ∨ s.isDirty a = false) (ht : s'.trie[a]? = s.trie[a]?) :
    (Cell.stored db' s'.trie a false).reads = (Cell.stored db s.trie a false).reads := by
  cases hacc : s.trie[a]? with
  | none => rw [reads_stored_of_none hacc, reads_stored_of_none (ht.trans hacc)]
  | some acc =>
    have hco : (newObject acc).Coherent db := by
      refine (hs.accounts a acc hacc).resolve_right ?_
      rintro ⟨o, ho, -, hmark⟩
      rcases hm with hm | hm
      · rw [hm] at ho
        cases ho
      · rw [isDirty, contains_iff_mem.mpr hmark] at hm
        cases hm
    rw [reads_stored_of_some hacc, reads_stored_of_some (ht.trans hacc), hco.view_within h.within]

theorem Committed.reads_written (hs : s.Sound db)
    (ho : s.stateObjects[a]? = some o) (ht : s'.trie[a]? = some (o.account db)) :
    (Cell.stored db' s'.trie a false).reads = (o.view db).reads := by
  rw [reads_stored_of_some ht, StateObject.view_newObject_account (hs.objects a o ho) (h.accounts a _ ht)]
  rfl

theorem Committed.live_reads (hs : s.Sound db)
    (ho : s.stateObjects[a]? = some o) (hd : o.deleted = false) :
    (AbsentAfter H f s a ∧ s'.trie[a]? = none ∧ Settles db f s a) ∨
      (¬ AbsentAfter H f s a ∧ ((Cell.stored db' s'.trie a false).reads = (s.cell db a).reads ↔
        Settles db f s a)) := by
  have hcell : s.cell db a = .present (o.view db) (s.stateObjectsDirty.contains a) := by
    rw [cell_of_some ho, Cell.live_of_not_deleted hd]
  have hsu : s.hasSuicided a = o.suicided := by
    rw [hasSuicided_eq hs, hcell]
    rfl
  have hex : s.exist a = true := by
    rw [exist_eq hs, hcell]
    rfl
  have hem : s.empty H a = o.empty H := by
    rw [empty_eq hs, hcell]
    rfl
  have hlive : s.stateObjects[a]?.isSome := by
    rw [ho]
    rfl
  have habs : AbsentAfter H f s a ↔ o.removed H f (s.isDirty a) = true := by
    simp only [AbsentAfter, hsu, hem, removed, or_eq_true, and_eq_true]
    tauto
  have hfls := h.flushed a
  rw [flushed_of_some ho] at hfls
  split_ifs at hfls with hrem hdir henc
  · refine .inl ⟨habs.mpr hrem, (some.inj hfls).symm, fun o' ho' hns ↦ ?_⟩
    cases ho.symm.trans ho'
    refine ⟨fun hm ↦ ?_, fun _ hdel ↦ ?_⟩
    · rw [removed, hns, hm] at hrem
      cases hrem
    · rw [hd] at hdel
      cases hdel
  · refine .inr ⟨fun h' ↦ hrem (habs.mp h'), ?_⟩
    rw [h.reads_written hs ho (some.inj hfls).symm, hcell]
    refine iff_of_true rfl (fun o' ho' _ ↦ ⟨fun h' ↦ ?_, fun _ hdel ↦ ?_⟩)
    · rw [hdir] at h'
      cases h'
    cases ho.symm.trans ho'
    rw [hd] at hdel
    cases hdel
  have hnd : s.isDirty a = false := eq_false_iff.mpr hdir
  have hns : o.suicided = false := by
    rw [removed, or_eq_true, not_or] at hrem
    exact eq_false_iff.mpr hrem.1
  refine .inr ⟨fun h' ↦ hrem (habs.mp h'), ?_⟩
  rw [h.reads_stored hs (.inr hnd) (some.inj hfls).symm]
  constructor
  · intro he o' ho' _
    refine ⟨fun _ ↦ he, fun h' ↦ ?_⟩
    rw [hnd] at h'
    cases h'
  · exact fun hset ↦ (hset o ho hns).1 hnd

end

theorem reads_of_empty (hco : o.Coherent db) (he : o.empty H = true) :
    (o.view db).reads = {} ↔ ∀ k, o.value db k = 0 := by
  simp only [StateObject.empty, and_eq_true, decide_eq_true_eq] at he
  obtain ⟨⟨⟨hn, hb⟩, hc⟩, hh⟩ := he
  have hcode : (o.view db).code = [] := H.code_injective (hco.hash_view.trans hh)
  constructor
  · exact fun h k ↦ congrFun (congrArg Reads.storage h) k
  · exact fun h ↦ Reads.ext hb hc hn hcode (funext h)

section

variable (h : Committed db f s db' s')

include h

theorem Committed.deleted_reads (hs : s.Sound db)
    (ho : s.stateObjects[a]? = some o) (hd : o.deleted = true) :
    (Cell.stored db' s'.trie a false).reads = (s.cell db a).reads ↔ Settles db f s a := by
  have hcell : (s.cell db a).reads = {} := by
    rw [cell_of_some ho, Cell.live_of_deleted hd]
    rfl
  have hfls := h.flushed a
  rw [flushed_of_some ho] at hfls
  cases hsu : o.suicided with
  | true =>
    rw [if_pos (by rw [removed, hsu]; rfl)] at hfls
    rw [reads_stored_of_none (some.inj hfls).symm, hcell]
    refine iff_of_true rfl (fun o' ho' hns ↦ ?_)
    cases ho.symm.trans ho'
    rw [hsu] at hns
    cases hns
  | false =>
    have hnil := hs.deleted a o ho hd hsu
    have hset : Settles db f s a ↔
        (s.isDirty a = false → (Cell.stored db s.trie a false).reads = (s.cell db a).reads) ∧
          (s.isDirty a = true → f = false → ∀ k, o.value db k = 0) := by
      constructor
      · exact fun h' ↦ ⟨(h' o ho hsu).1, fun hm ↦ (h' o ho hsu).2 hm hd⟩
      intro h' o' ho' _
      cases ho.symm.trans ho'
      exact ⟨h'.1, fun hm _ ↦ h'.2 hm⟩
    rw [hset]
    split_ifs at hfls with hrem hdir henc
    · -- an empty object is removed if the commit is asked to
      have hf : f = true ∧ s.isDirty a = true := by
        rw [removed, hsu, Bool.false_or, and_eq_true, and_eq_true] at hrem
        exact ⟨hrem.1.2, hrem.1.1⟩
      rw [reads_stored_of_none (some.inj hfls).symm, hcell, hf.1, hf.2]
      exact iff_of_true rfl ⟨(by simp), fun _ ↦ (by simp)⟩
    · have hf : f = false := by
        cases f with
        | false => rfl
        | true =>
          rw [removed, hdir, hnil, hsu] at hrem
          exact absurd rfl hrem
      rw [h.reads_written hs ho (some.inj hfls).symm, hcell, reads_of_empty (hs.objects a o ho) hnil,
        hdir, hf]
      simp
    have hnd : s.isDirty a = false := eq_false_iff.mpr hdir
    rw [h.reads_stored hs (.inr hnd) (some.inj hfls).symm, hnd]
    simp

theorem Committed.unloaded_reads (hs : s.Sound db) (ho : s.stateObjects[a]? = none) :
    ¬ AbsentAfter H f s a ∧ (Cell.stored db' s'.trie a false).reads = (s.cell db a).reads := by
  have hfls := h.flushed a
  rw [flushed_of_none ho] at hfls
  constructor
  · rintro (hsu | ⟨-, -, hlive, -⟩)
    · rw [hasSuicided_eq hs, cell_of_none ho, Cell.stored] at hsu
      split at hsu <;> cases hsu
    · rw [ho] at hlive
      cases hlive
  · rw [h.reads_stored hs (.inl ho) (some.inj hfls).symm, cell_of_none ho, Cell.stored, Cell.stored]
    split <;> rfl

theorem Committed.readsBack_iff (hs : s.Sound db)
    (ht : Sound db' ({ trie := s'.trie } : StateDB C R)) (a : Address) :
    ReadsBack db f s db' { trie := s'.trie } a ↔ Settles db f s a := by
  have hcell : ({ trie := s'.trie } : StateDB C R).cell db' a = .stored db' s'.trie a false := by
    rw [cell_of_none (by simp)]
    simp
  unfold ReadsBack
  rw [readsAlike_iff hs ht, exist_eq ht, hcell]
  cases ho : s.stateObjects[a]? with
  | none =>
    obtain ⟨habs, hreads⟩ := h.unloaded_reads hs ho
    refine iff_of_true ⟨fun h' ↦ absurd h' habs, fun _ ↦ hreads⟩ (fun o' ho' ↦ ?_)
    rw [ho] at ho'
    cases ho'
  | some o =>
    cases hd : o.deleted with
    | false =>
      obtain ⟨habs, hnone, hset⟩ | ⟨habs, hiff⟩ := h.live_reads hs ho hd
      · refine iff_of_true ⟨fun _ ↦ ?_, fun h' ↦ absurd habs h'⟩ hset
        rw [Cell.stored, hnone]
        rfl
      · rw [← hiff]
        simp [habs]
    | true =>
      have habs : ¬ AbsentAfter H f s a := by
        rintro (hsu | ⟨-, -, -, hex, -⟩)
        · rw [hasSuicided_eq hs, cell_of_some ho, Cell.live_of_deleted hd] at hsu
          cases hsu
        · rw [exist_eq hs, cell_of_some ho, Cell.live_of_deleted hd] at hex
          cases hex
      rw [← h.deleted_reads hs ho hd]
      simp [habs]

end

/-- Computing the root early leaves the root of the commit, and a state opened at that root
answers as the one before the commit exactly if every account settles. -/
theorem commit_reads_back (h : Reachable (fun _ _ ↦ True) db s) (rt rt' rt'' : Runtime) (f : Bool) :
    ((s.intermediateRoot rt db f).bind (fun p ↦ p.2.commit rt' db f)).map (·.1) =
        (s.commit rt'' db f).map (·.1) ∧
      ∀ root db' s', s.commit rt'' db f = some (root, db', s') →
        ∃ t, StateDB.new db' (some root) = some t ∧
          ((∀ a, ReadsBack db f s db' t a) ↔ ∀ a, Settles db f s a) := by
  obtain ⟨hv, hclosed⟩ := h.valid
  refine ⟨intermediateRoot_commit hv rt rt' rt'' f, fun root db' s' hc ↦ ?_⟩
  obtain ⟨hcom, rfl⟩ := commit_some hv.sound hc
  have hopen : StateDB.new db' (some (H.stateRoot s'.trie)) = some { trie := s'.trie } := by
    rw [StateDB.new, hcom.stored]
    rfl
  have ht : Sound db' ({ trie := s'.trie } : StateDB C R) :=
    sound_of_openTrie (hcom.closed hclosed) hcom.stored 0
  exact ⟨_, hopen, forall_congr' (hcom.readsBack_iff hv.sound ht)⟩

/-- A balance that is set, committed and read back. -/
theorem balance_reads_back :
    ∃ root db' s' t,
      (setBalance ideal blank 7 3).commit .inOrder blankDb true =
        some (root, db', s') ∧
      StateDB.new db' (some root) = some t ∧
      ∀ a, ReadsBack blankDb true (setBalance ideal blank 7 3) db' t a := by
  have hrun : blank.run blankDb (.setBalance 7 3) =
      some (setBalance ideal blank 7 3) := rfl
  obtain ⟨⟨root, db', s'⟩, hc⟩ := isSome_iff_exists.mp (by decide +kernel :
    ((setBalance ideal blank 7 3).commit .inOrder blankDb true).isSome)
  have hobj : ∀ a : Address, a ≠ 7 → (setBalance ideal blank 7 3).stateObjects[a]? = none := by
    intro a ha
    have hkeys : (setBalance ideal blank 7 3).stateObjects.keys = [7] := by decide +kernel
    refine getElem?_eq_none (fun h ↦ ha ?_)
    exact List.mem_singleton.mp (hkeys ▸ mem_keys.mpr h)
  have hset : ∀ a, Settles blankDb true (setBalance ideal blank 7 3) a := by
    intro a o ho _
    by_cases ha : a = 7
    · subst ha
      have hdir : (setBalance ideal blank 7 3).isDirty 7 = true := by decide +kernel
      refine ⟨fun h ↦ ?_, by simp⟩
      rw [hdir] at h
      cases h
    · rw [hobj a ha] at ho
      cases ho
  obtain ⟨-, hback⟩ := commit_reads_back ((reachable_blank _).run trivial hrun) .inOrder .inOrder .inOrder true
  obtain ⟨t, ht, hiff⟩ := hback root db' s' hc
  exact ⟨root, db', s', t, hc, ht, hiff.mpr hset⟩

/-- `CreateAccount` on a committed account resets it without making it dirty: its nonce
reads zero before the commit and five after it. -/
theorem reset_account_not_written :
    ∃ (db : Database ideal) (s : StateDB Bytes StorageTrie),
      Reachable (fun _ _ ↦ True) db s ∧ s.getNonce 7 = 0 ∧ ¬ AbsentAfter ideal false s 7 ∧
      ((s.commit .inOrder db false).bind (fun p ↦ StateDB.new p.2.1 (some p.1))).map (·.getNonce 7) =
        some 5 := by
  have hrun : blank.run blankDb (.setNonce 7 5) =
      some (setNonce ideal blank 7 5) := rfl
  obtain ⟨⟨root, db, s⟩, hc, hnonce, hsu, hback⟩ : ∃ p, (setNonce ideal blank 7 5).commit .inOrder
      blankDb false = some p ∧
      (p.2.2.createAccount ideal 7).getNonce 7 = 0 ∧
      (p.2.2.createAccount ideal 7).hasSuicided 7 = false ∧
      (((p.2.2.createAccount ideal 7).commit .inOrder p.2.1 false).bind
        (fun p ↦ StateDB.new p.2.1 (some p.1))).map (·.getNonce 7) = some 5 := by decide +kernel
  have hcrt : s.run db (.createAccount 7) = some (s.createAccount ideal 7) := rfl
  refine ⟨db, s.createAccount ideal 7,
    ((((reachable_blank _).run trivial hrun).commit hc).run trivial hcrt), hnonce, ?_, hback⟩
  rintro (h | ⟨h, -⟩)
  · rw [hsu] at h
    cases h
  · cases h

end StateDB

end BjutEth.State
