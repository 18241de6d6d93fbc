import BjutEth.State.Effects
import BjutEth.State.Settle

set_option linter.unusedSectionVars false

namespace BjutEth.State

open Std List Option Cell StateDB ExtTreeMap
open Alien (Address Hash Runtime)
open StateObject (View)

variable {C R S : Type} {H : Hashing C R S} [DecidableEq C] [DecidableEq R] [DecidableEq S]
variable {db db' : Database H} {s s' : StateDB C R} {a : Address}

def Database.Closed (db : Database H) : Prop :=
  ∀ r m, db.states r = some m → ∀ (a : Address) acc, m[a]? = some acc → (newObject acc).Coherent db

variable {es : List (Change C R)} {trie : Accounts C R} {c : Cell C}

theorem Cell.undoAll_cons {e : Change C R} :
    c.undoAll db trie (e :: es) = (c.undo db trie e).bind (·.undoAll db trie es) := rfl

theorem Cell.undoAll_append {es' : List (Change C R)} :
    c.undoAll db trie (es ++ es') = (c.undoAll db trie es).bind (·.undoAll db trie es') := by
  unfold undoAll
  rw [foldlM_append]
  rfl

theorem changesOf_append (a : Address) (es es' : List (Change C R)) :
    changesOf a (es ++ es') = changesOf a es ++ changesOf a es' := filter_append es es'

theorem changesOf_eq_self (h : ∀ e ∈ es, e.account = some a) :
    changesOf a es = es := filter_eq_self.mpr (fun e he ↦ by simpa using h e he)

theorem changesOf_eq_nil (h : ∀ e ∈ es, e.account ≠ some a) :
    changesOf a es = [] := filter_eq_nil_iff.mpr (fun e he ↦ by simpa using h e he)

theorem Cell.isSome_undoAll (es : List (Change C R)) {c' : Cell C} (hc : c.view?.isSome = c'.view?.isSome)
    (h : (c.undoAll db trie es).isSome) : (c'.undoAll db' trie es).isSome := by
  induction es generalizing c c' with
  | nil => rfl
  | cons e es ih =>
    rw [undoAll_cons] at h ⊢
    cases c with
    | absent left m => cases h
    | present v m =>
      cases c' with
      | absent left m' => cases hc
      | present v' m' =>
        by_cases he : ∃ a, e = .createObject a
        · obtain ⟨a, rfl⟩ := he
          refine ih ?_ h
          unfold stored
          cases trie[a]? <;> rfl
        have hne : ∀ a, e ≠ .createObject a := fun a ha ↦ he ⟨a, ha⟩
        rw [Cell.undo_present hne] at h ⊢
        have hp : (present (e.undoView db v) m).view?.isSome =
            (present (e.undoView db' v') m').view?.isSome := rfl
        exact ih hp h

theorem Cell.eq_nil_of_undoAll_absent {left : Option (View C)} {m : Bool}
    (h : ((absent left m).undoAll db trie es).isSome) : es = [] := by
  cases es with
  | nil => rfl
  | cons e es => cases h

namespace StateDB

theorem entries_foldr_append (es : List (Change C R)) (j : Journal C R) :
    (es.foldr (fun e j ↦ j.append e) j).entries = es ++ j.entries := by
  induction es with
  | nil => rfl
  | cons e es ih =>
    have happ : ∀ j : Journal C R, (j.append e).entries = e :: j.entries := by
      intro j
      unfold Journal.append
      cases e.dirtied <;> rfl
    rw [foldr_cons, happ, ih, cons_append]

theorem dirties_foldr_append (hes : ∀ e ∈ es, e.account = none) (j : Journal C R) :
    (es.foldr (fun e j ↦ j.append e) j).dirties = j.dirties := by
  induction es with
  | nil => rfl
  | cons e es ih =>
    have hnd : e.dirtied = none := by
      cases hd : e.dirtied with
      | none => rfl
      | some a =>
        have := hes e mem_cons_self
        rw [account_of_dirtied hd] at this
        cases this
    rw [foldr_cons, Journal.append, hnd]
    exact ih (fun e' he' ↦ hes e' (mem_cons_of_mem e he'))

theorem sound_of_account_none {e : Change C R} (h : e.account = none) (trie : Accounts C R) :
    e.Sound db trie := by
  cases e with
  | refund prev | addLog txhash | addPreimage hash => trivial
  | _ => cases h

structure Valid (db : Database H) (s : StateDB C R) : Prop where
  sound : s.Sound db
  undoable : ∀ a, ((s.cell db a).undoAll db s.trie (changesOf a s.journal.entries)).isSome
  sorted : s.validRevisions.Pairwise (fun r r' ↦ r.id < r'.id)
  below : ∀ r ∈ s.validRevisions, r.id < s.nextRevisionId

theorem Valid.of_acts (h : s.Valid db) (hacts : Acts db a s s' es)
    (hundo : (s'.cell db a).undoAll db s.trie es = some c)
    (hc : (c.undoAll db s.trie (changesOf a s.journal.entries)).isSome) : s'.Valid db := by
  have hk := hacts.frame.keeps
  refine ⟨hacts.sound, fun b ↦ ?_, ?_, ?_⟩
  · rw [hacts.entries, changesOf_append, hk.trie, undoAll_append]
    by_cases hb : b = a
    · subst hb
      rw [changesOf_eq_self hacts.account, hundo]
      exact hc
    have hnil : changesOf b es = [] := by
      refine changesOf_eq_nil (fun e he h' ↦ hb ?_)
      exact some.inj (h'.symm.trans (hacts.account e he))
    rw [hnil, hacts.frame.cell hb]
    exact h.undoable b
  · rw [hk.validRevisions]
    exact h.sorted
  · rw [hk.validRevisions, hk.nextRevisionId]
    exact h.below

theorem Valid.of_outside (h : s.Valid db) (ho : s'.stateObjects = s.stateObjects)
    (hm : s'.stateObjectsDirty = s.stateObjectsDirty) (hk : s.Keeps s')
    (hj : s'.journal = es.foldr (fun e j ↦ j.append e) s.journal) (hes : ∀ e ∈ es, e.account = none) :
    s'.Valid db := by
  have hent : s'.journal.entries = es ++ s.journal.entries := by rw [hj, entries_foldr_append]
  refine ⟨h.sound.of_same ho hm hk.trie (fun e he ↦ ?_) (fun a o ha ↦ h.sound.dirty a o ?_), fun a ↦ ?_, ?_, ?_⟩
  · rw [hent] at he
    exact (mem_append.mp he).elim (fun he ↦ sound_of_account_none (hes e he) _) (h.sound.changes e)
  · rw [hj, dirties_foldr_append hes] at ha
    exact ha
  · have hnil : changesOf a es = [] := by
      refine changesOf_eq_nil (fun e he h' ↦ ?_)
      rw [hes e he] at h'
      cases h'
    rw [hent, changesOf_append, hnil, cell_of_same ho hm hk.trie, hk.trie]
    exact h.undoable a
  · rw [hk.validRevisions]
    exact h.sorted
  · rw [hk.validRevisions, hk.nextRevisionId]
    exact h.below

theorem Valid.effect {op : Op} (h : s.Valid db) (he : Effect db s op s') : s'.Valid db := by
  cases he with
  | @set _ a _ o es hset opens touch =>
    refine h.of_acts opens.acts opens.undone ?_
    have hu := h.undoable a
    cases hcell : s.cell db a with
    | present v m =>
      rw [hcell] at hu
      exact hu
    | absent left m =>
      rw [hcell] at hu
      rw [eq_nil_of_undoAll_absent hu]
      rfl
  | @suicide a _ v m hcell acts cell live =>
    have hu := h.undoable a
    rw [hcell] at hu
    have hp : (present v m).view?.isSome = (present { v with contribution := 0 } m).view?.isSome := rfl
    refine h.of_acts acts (c := .present { v with contribution := 0 } m) ?_ (isSome_undoAll _ hp hu)
    rw [cell]
    rfl
  | @read _ a _ hset acts cell hsui =>
    refine h.of_acts acts (c := s.cell db a) ?_ (h.undoable a)
    rw [cell]
    rfl
  | outside es hset hsui objects marks keeps journal account undone =>
    exact h.of_outside objects marks keeps journal account

theorem revert_spec (h : s.Valid db) (n : ℕ) :
    ∃ s' : StateDB C R, s.revert n = some s' ∧ s'.Valid db ∧
      (∀ a, (s.cell db a).undoAll db s.trie
        (changesOf a (s.journal.entries.take (s.journal.entries.length - n))) = some (s'.cell db a)) ∧
      s'.outside = (s.journal.entries.take (s.journal.entries.length - n)).foldl
        (fun w e ↦ e.undoOutside w) s.outside ∧
      s'.journal.entries = s.journal.entries.drop (s.journal.entries.length - n) ∧
      s'.journal.dirties = ((s.journal.entries.take (s.journal.entries.length - n)).foldl
        Journal.undirty s.journal).dirties ∧ s.Keeps s' := by
  set es := s.journal.entries.take (s.journal.entries.length - n) with hes
  set es' := s.journal.entries.drop (s.journal.entries.length - n) with hes'
  have hspl : s.journal.entries = es ++ es' := (take_append_drop _ _).symm
  -- the newest entries are undone, and the older ones can be undone afterwards
  have hcell : ∀ a, ∃ c, (s.cell db a).undoAll db s.trie (changesOf a es) = some c ∧
      (c.undoAll db s.trie (changesOf a es')).isSome := by
    intro a
    have hu := h.undoable a
    rw [hspl, changesOf_append, undoAll_append] at hu
    obtain ⟨c', hc'⟩ := isSome_iff_exists.mp hu
    obtain ⟨c, hc, hc''⟩ := bind_eq_some_iff.mp hc'
    exact ⟨c, hc, by rw [hc'']; rfl⟩
  choose r hr hr' using hcell
  obtain ⟨s1, hs1, hsound, hcells, hout, hj, hk⟩ := undoAll_spec es h.sound
    (fun e he ↦ h.sound.changes e (mem_of_mem_take he)) hr
  have hsub : ∀ e ∈ es', e ∈ s.journal.entries := fun e he ↦ mem_of_mem_drop he
  refine ⟨{ s1 with journal := { s1.journal with entries := es' } }, ?_, ⟨?_, fun a ↦ ?_, ?_, ?_⟩,
    fun a ↦ (hcells a).symm ▸ hr a, hout, rfl, ?_, ⟨hk.trie, hk.validRevisions, hk.nextRevisionId⟩⟩
  · unfold revert
    dsimp only
    rw [hs1]
    rfl
  · exact hsound.of_same rfl rfl rfl (fun e he ↦ hk.trie ▸ h.sound.changes e (hsub e he)) hsound.dirty
  · show ((s1.cell db a).undoAll db s1.trie (changesOf a es')).isSome
    rw [hcells a, hk.trie]
    exact hr' a
  · rw [hk.validRevisions]
    exact h.sorted
  · rw [hk.validRevisions, hk.nextRevisionId]
    exact h.below
  · rw [hj]

theorem revertToSnapshot_some {revid : ℕ} (h : s.revertToSnapshot revid = some s') :
    ∃ before revision after s1, s.validRevisions = before ++ revision :: after ∧ revision.id = revid ∧
      s.revert revision.journalIndex = some s1 ∧ s' = { s1 with validRevisions := before } := by
  obtain ⟨revision, hrev, h⟩ := bind_eq_some_iff.mp h
  split_ifs at h with hid
  obtain ⟨s1, hs1, h⟩ := bind_eq_some_iff.mp h
  obtain ⟨hlt, hget⟩ := List.getElem?_eq_some_iff.mp hrev
  refine ⟨_, revision, s.validRevisions.drop (s.validRevisions.findIdx (fun r ↦ revid ≤ r.id) + 1), s1, ?_,
    not_ne_iff.mp hid, hs1, (some.inj h).symm⟩
  rw [← hget, cons_getElem_drop_succ, take_append_drop]

theorem Valid.run {op : Op} (h : s.Valid db) (hrun : s.run db op = some s') : s'.Valid db := by
  by_cases hs : op = .snapshot
  · subst hs
    cases hrun
    refine ⟨h.sound.of_same rfl rfl rfl h.sound.changes h.sound.dirty, h.undoable, ?_, fun r hr ↦ ?_⟩
    · refine pairwise_append.mpr ⟨h.sorted, pairwise_singleton _ _, fun r hr r' hr' ↦ ?_⟩
      obtain rfl := mem_singleton.mp hr'
      exact h.below r hr
    rcases mem_append.mp hr with hr | hr
    · exact Nat.lt_succ_of_lt (h.below r hr)
    obtain rfl := mem_singleton.mp hr
    exact Nat.lt_succ_self _
  by_cases hr : ∃ revid, op = .revertToSnapshot revid
  · obtain ⟨revid, rfl⟩ := hr
    obtain ⟨before, rev, _, s1, hspl, -, hs1, rfl⟩ := revertToSnapshot_some hrun
    have hsub : before.Sublist s.validRevisions := hspl ▸ sublist_append_left _ _
    obtain ⟨s2, hs2, hv, -, -, -, -, hk⟩ := revert_spec h rev.journalIndex
    cases hs1.symm.trans hs2
    refine ⟨hv.sound.of_same rfl rfl rfl hv.sound.changes hv.sound.dirty, hv.undoable,
      h.sorted.sublist hsub, fun r hr ↦ ?_⟩
    rw [hk.nextRevisionId]
    exact h.below r (hsub.subset hr)
  · exact h.effect (run_effect h.sound hrun hs (fun revid h' ↦ hr ⟨revid, h'⟩))

theorem Valid.of_sound (h : s.Sound db) (hj : s.journal = {}) (hr : s.validRevisions = []) :
    s.Valid db := by
  refine ⟨h, fun a ↦ ?_, ?_, ?_⟩
  · rw [hj]
    rfl
  · rw [hr]
    exact .nil
  · rw [hr]
    simp

variable {f : Bool}

theorem Finalised.valid (hf : Finalised db f s s') (h : s.Valid db) : s'.Valid db :=
  .of_sound (hf.sound h.sound) (eq_of_unflushed hf.rest journal (fun _ ↦ rfl))
    (eq_of_unflushed hf.rest validRevisions (fun _ ↦ rfl))

theorem Committed.valid (hc : Committed db f s db' s') (h : s.Valid db) : s'.Valid db' :=
  .of_sound (hc.sound h.sound) (eq_of_unflushed hc.rest journal (fun _ ↦ rfl))
    (eq_of_unflushed hc.rest validRevisions (fun _ ↦ rfl))

theorem Sound.within (h : s.Sound db) (hw : db.Within db') : s.Sound db' := by
  refine ⟨fun a o ho ↦ (h.objects a o ho).within hw, h.deleted,
    fun a acc ht ↦ (h.accounts a acc ht).imp_left (fun hc ↦ hc.within hw), fun e he ↦ ?_, h.dirty⟩
  have hs := h.changes e he
  cases e with
  | createObject a => exact fun acc ht ↦ (hs acc ht).within hw
  | resetObject a prev => exact ⟨hs.1.within hw, hs.2⟩
  | code a prevcode prevhash => exact hs
  | suicide a prev prevbalance | balance a prev | contribution a prev | nonce a prev
  | storage a key prevalue | touch a | refund prev | addLog txhash | addPreimage hash => trivial

theorem Sound.cell_within (h : s.Sound db) (hw : db.Within db') (a : Address) :
    s.cell db' a = s.cell db a := by
  unfold cell
  cases ho : s.stateObjects[a]? with
  | some o =>
    simp only [live]
    rw [(h.objects a o ho).view_within hw]
  | none =>
    unfold stored
    cases ht : s.trie[a]? with
    | none => rfl
    | some acc =>
      simp only [(h.coherent_stored ho ht).view_within hw]

theorem Valid.within (h : s.Valid db) (hw : db.Within db') : s.Valid db' := by
  refine ⟨h.sound.within hw, fun a ↦ isSome_undoAll _ ?_ (h.undoable a), h.sorted, h.below⟩
  rw [h.sound.cell_within hw]

/-! ### `Copy` -/

theorem takeOver_eq (s state : StateDB C R) (a : Address) :
    s.takeOver state a = s.stateObjects[a]?.map
      (fun o ↦ state.setSlot a (some o.deepCopy, state.trie[a]?, true)) := by
  unfold takeOver
  cases s.stateObjects[a]? with
  | none => rfl
  | some o =>
    have ht : state.trie.alter a (fun _ ↦ state.trie[a]?) = state.trie := GoMap.alter_eq_self rfl
    unfold setSlot
    dsimp only
    rw [ht]
    simp [setStateObject, markDirty]

def copiedSlot (s : StateDB C R) (a : Address) : Slot C R :=
  if s.isDirty a then
    (s.stateObjects[a]?.map (·.deepCopy), s.trie[a]?, s.stateObjects[a]?.isSome)
  else (none, s.trie[a]?, false)

structure Copied (s s' : StateDB C R) : Prop where
  slot : ∀ a, s'.slot a = s.copiedSlot a
  refund : s'.refund = s.refund
  logs : s'.logs = s.logs
  logSize : s'.logSize = s.logSize
  preimages : s'.preimages = s.preimages
  journal : s'.journal = {}
  validRevisions : s'.validRevisions = []

theorem takeOver_getD (s state : StateDB C R) (a : Address) :
    (s.takeOver state a).getD state =
      if s.stateObjects[a]?.isSome then
        state.setSlot a (s.stateObjects[a]?.map (·.deepCopy), state.trie[a]?, true)
      else state := by
  rw [takeOver_eq]
  cases s.stateObjects[a]? <;> rfl

theorem copy_first_loop (s state : StateDB C R) {l : List Address} (hl : l.Nodup) :
    (l.foldl (fun state a ↦ (s.takeOver state a).getD state) state).unflushed = state.unflushed ∧
      ∀ a, (l.foldl (fun state a ↦ (s.takeOver state a).getD state) state).slot a =
        if a ∈ l ∧ s.stateObjects[a]?.isSome then
          (s.stateObjects[a]?.map (·.deepCopy), state.trie[a]?, true)
        else state.slot a := by
  obtain ⟨hun, hslot⟩ := foldl_keyed slot (fun state a ↦ (s.takeOver state a).getD state)
    (fun a ↦ if s.stateObjects[a]?.isSome then
      (s.stateObjects[a]?.map (·.deepCopy), state.trie[a]?, true) else state.slot a)
    (fun state' ↦ state'.unflushed = state.unflushed) hl rfl (fun state' hs' a _ hget ↦ by
      rw [takeOver_getD]
      split_ifs with hlive
      · refine ⟨hs', ?_, fun b hb ↦ slot_setSlot_of_ne state' _ hb⟩
        rw [slot_setSlot_self]
        exact congrArg (fun t ↦ (_, t, true)) (congrArg (fun c : Slot C R ↦ c.2.1) hget)
      · exact ⟨hs', hget, fun _ _ ↦ rfl⟩)
  refine ⟨hun, fun a ↦ ?_⟩
  by_cases ha : a ∈ l
  · rw [(hslot a).1 ha]
    simp only [ha, true_and]
  · rw [(hslot a).2 ha, if_neg (fun h ↦ ha h.1)]

def takenSlot (s : StateDB C R) (a : Address) : Option (Slot C R) :=
  s.stateObjects[a]?.map (fun o ↦ (some o.deepCopy, s.trie[a]?, true))

theorem copy_second_loop (s state : StateDB C R) {l : List Address} (hl : l.Nodup)
    (hstate : ∀ a, s.takenSlot a = some (state.slot a) ∨ state.slot a = (none, s.trie[a]?, false)) :
    (l.foldlM (fun state a ↦ if state.stateObjects.contains a then some state else s.takeOver state a)
        state = none → ∃ a ∈ l, s.takenSlot a = none) ∧
      ∀ s', l.foldlM (fun state a ↦ if state.stateObjects.contains a then some state
          else s.takeOver state a) state = some s' →
        s'.unflushed = state.unflushed ∧
          ∀ a, (a ∈ l → s.takenSlot a = some (s'.slot a)) ∧ (a ∉ l → s'.slot a = state.slot a) := by
  refine foldlM_keyed slot _ s.takenSlot (fun state' ↦ state'.unflushed = state.unflushed) hl rfl ?_ ?_
  · intro state' _ a _ hget hf
    split_ifs at hf
    rw [takenSlot, map_eq_none_iff.mp hf]
    rfl
  intro state' hs' a _ hget s' hf
  split_ifs at hf with hcon
  · cases hf
    refine ⟨hs', ?_, fun _ _ ↦ rfl⟩
    rw [hget]
    refine (hstate a).resolve_right (fun he ↦ ?_)
    rw [contains_eq_isSome, show state'.stateObjects[a]? = none from congrArg Prod.fst (hget.trans he)] at hcon
    cases hcon
  rw [takeOver_eq] at hf
  obtain ⟨o, ho, rfl⟩ := map_eq_some_iff.mp hf
  refine ⟨hs', ?_, fun b hb ↦ slot_setSlot_of_ne state' _ hb⟩
  have ht : state'.trie[a]? = s.trie[a]? := by
    have hg : state'.trie[a]? = (state.slot a).2.1 := congrArg (fun c : Slot C R ↦ c.2.1) hget
    rcases hstate a with he | he
    · rw [takenSlot, ho] at he
      rw [hg, ← some.inj he]
    · rw [hg, he]
  rw [slot_setSlot_self, takenSlot, ho, ht]
  rfl

theorem copy_start (rt : Runtime) (s : StateDB C R) :
    ∃ state : StateDB C R,
      s.copy rt = (rt.rangeOrder s.stateObjectsDirty.keys).foldlM
        (fun state a ↦ if state.stateObjects.contains a then some state else s.takeOver state a) state ∧
      (∀ a, state.slot a = if a ∈ s.journal.dirties ∧ s.stateObjects[a]?.isSome then
        (s.stateObjects[a]?.map (·.deepCopy), s.trie[a]?, true) else (none, s.trie[a]?, false)) ∧
      state.refund = s.refund ∧ state.logs = s.logs ∧ state.logSize = s.logSize ∧
      state.preimages = s.preimages ∧ state.journal = {} ∧ state.validRevisions = [] := by
  let start : StateDB C R :=
    { trie := s.trie
      refund := s.refund
      logs := s.logs
      logSize := s.logSize
      preimages := s.preimages }
  obtain ⟨hun, hslot⟩ := copy_first_loop s start (nodup_rangeOrder_keys rt s.journal.dirties)
  refine ⟨_, rfl, fun a ↦ ?_, eq_of_unflushed hun refund (fun _ ↦ rfl),
    eq_of_unflushed hun logs (fun _ ↦ rfl), eq_of_unflushed hun logSize (fun _ ↦ rfl),
    eq_of_unflushed hun preimages (fun _ ↦ rfl), eq_of_unflushed hun journal (fun _ ↦ rfl),
    eq_of_unflushed hun validRevisions (fun _ ↦ rfl)⟩
  have hst : start.slot a = (none, s.trie[a]?, false) := by simp [slot, start]
  rw [hslot a]
  simp only [mem_rangeOrder_keys]
  rfl

theorem copy_loop (rt : Runtime) (s : StateDB C R) :
    (s.copy rt = none → ∃ a ∈ s.stateObjectsDirty, s.stateObjects[a]? = none) ∧
      ∀ s', s.copy rt = some s' →
        (∀ a ∈ s.stateObjectsDirty, s.stateObjects[a]?.isSome) ∧ Copied s s' := by
  obtain ⟨state, heq, hslot, h1, h2, h3, h4, h5, h6⟩ := copy_start rt s
  have hstate : ∀ a, s.takenSlot a = some (state.slot a) ∨ state.slot a = (none, s.trie[a]?, false) := by
    intro a
    rw [hslot a]
    split_ifs with h
    · obtain ⟨o, ho⟩ := isSome_iff_exists.mp h.2
      rw [takenSlot, ho]
      exact .inl rfl
    · exact .inr rfl
  obtain ⟨hnone, hsome⟩ := copy_second_loop s state (nodup_rangeOrder_keys rt s.stateObjectsDirty) hstate
  rw [heq]
  refine ⟨fun h ↦ ?_, fun s' h ↦ ?_⟩
  · obtain ⟨a, ha, hn⟩ := hnone h
    exact ⟨a, (mem_rangeOrder_keys rt _).mp ha, map_eq_none_iff.mp hn⟩
  obtain ⟨hun, hs⟩ := hsome s' h
  simp only [mem_rangeOrder_keys] at hs
  refine ⟨fun a ha ↦ ?_, fun a ↦ ?_, ?_, ?_, ?_, ?_, ?_, ?_⟩
  · have ht := (hs a).1 ha
    obtain ⟨o, ho, -⟩ := map_eq_some_iff.mp ht
    rw [ho]
    rfl
  · by_cases ha : a ∈ s.stateObjectsDirty
    · have ht := (hs a).1 ha
      obtain ⟨o, ho, he⟩ := map_eq_some_iff.mp ht
      have hd : s.isDirty a = true := by
        rw [isDirty, contains_iff_mem.mpr ha]
        rfl
      rw [← he, copiedSlot, if_pos hd, ho]
      rfl
    have hd : s.isDirty a = s.journal.dirties.contains a := by
      rw [isDirty, Bool.eq_false_iff.mpr (fun h' ↦ ha (contains_iff_mem.mp h')), Bool.false_or]
    rw [(hs a).2 ha, hslot a, copiedSlot, hd]
    by_cases hj : a ∈ s.journal.dirties
    · rw [if_pos (contains_iff_mem.mpr hj)]
      cases ho : s.stateObjects[a]? with
      | none => rw [if_neg (fun h' ↦ by cases h'.2)]; rfl
      | some o => rw [if_pos ⟨hj, rfl⟩]; rfl
    · rw [if_neg (fun h' ↦ hj h'.1), if_neg (fun h' ↦ hj (contains_iff_mem.mp h'))]
  · exact (eq_of_unflushed hun refund (fun _ ↦ rfl)).trans h1
  · exact (eq_of_unflushed hun logs (fun _ ↦ rfl)).trans h2
  · exact (eq_of_unflushed hun logSize (fun _ ↦ rfl)).trans h3
  · exact (eq_of_unflushed hun preimages (fun _ ↦ rfl)).trans h4
  · exact (eq_of_unflushed hun journal (fun _ ↦ rfl)).trans h5
  · exact (eq_of_unflushed hun validRevisions (fun _ ↦ rfl)).trans h6

theorem copy_some {rt : Runtime} (hc : s.copy rt = some s') : Copied s s' := ((copy_loop rt s).2 s' hc).2

theorem copy_eq_none_iff (rt : Runtime) :
    s.copy rt = none ↔ ∃ a ∈ s.stateObjectsDirty, s.stateObjects[a]? = none := by
  refine ⟨(copy_loop rt s).1, ?_⟩
  rintro ⟨a, ha, hn⟩
  cases hc : s.copy rt with
  | none => rfl
  | some s' =>
    have := ((copy_loop rt s).2 s' hc).1 a ha
    rw [hn] at this
    cases this

theorem Copied.sound (hc : Copied s s') (h : s.Sound db) : s'.Sound db := by
  have hobj : ∀ (a : Address) o', s'.stateObjects[a]? = some o' →
      ∃ o, s.stateObjects[a]? = some o ∧ o' = o.deepCopy := by
    intro a o' ho'
    have hs : (s.copiedSlot a).1 = some o' := (congrArg Prod.fst (hc.slot a)).symm.trans ho'
    unfold copiedSlot at hs
    split_ifs at hs
    obtain ⟨o, ho, rfl⟩ := map_eq_some_iff.mp hs
    exact ⟨o, ho, rfl⟩
  refine ⟨fun a o' ho' ↦ ?_, fun a o' ho' hd hsu ↦ ?_, fun a acc ht ↦ ?_, ?_, ?_⟩
  · obtain ⟨o, ho, rfl⟩ := hobj a o' ho'
    have hco := h.objects a o ho
    refine ⟨fun k v hk ↦ hk, fun k v hk hk' ↦ ?_, hco.hash_code, hco.code_stored, hco.root_stored, rfl⟩
    have hk'' : o.dirtyStorage[k]? = some v := hk
    rw [show o.dirtyStorage[k]? = none from hk'] at hk''
    cases hk''
  · obtain ⟨o, ho, rfl⟩ := hobj a o' ho'
    exact h.deleted a o ho hd hsu
  · have ht' : s.trie[a]? = some acc := by
      have hs : s'.trie[a]? = (s.copiedSlot a).2.1 := congrArg (fun c : Slot C R ↦ c.2.1) (hc.slot a)
      rw [hs] at ht
      unfold copiedSlot at ht
      split_ifs at ht <;> exact ht
    refine (h.accounts a acc ht').imp_right ?_
    rintro ⟨o, ho, hd, hm⟩
    refine ⟨o.deepCopy, ?_, hd, ?_⟩
    all_goals
      have hdir : s.isDirty a = true := by
        rw [isDirty, contains_iff_mem.mpr hm]
        rfl
      have hs := hc.slot a
      rw [copiedSlot, if_pos hdir, ho] at hs
    · exact congrArg Prod.fst hs
    exact congrArg (fun c : Slot C R ↦ c.2.2) hs
  · rw [hc.journal]
    simp
  rw [hc.journal]
  intro a o ha
  simp at ha

/-- The states that can be reached over a database that other states may commit to as
well, by operations that satisfy a condition. -/
inductive Reachable (ok : StateDB C R → Op → Prop) : Database H → StateDB C R → Prop
  | new {db : Database H} {s : StateDB C R} {root : Option S} (hdb : db.Closed)
      (hs : new db root = some s) : Reachable ok db s
  | reset {db : Database H} {s s' : StateDB C R} {root : Option S} (h : Reachable ok db s)
      (hs : s.reset db root = some s') : Reachable ok db s'
  | run {db : Database H} {s s' : StateDB C R} {op : Op} (h : Reachable ok db s) (hok : ok s op)
      (hs : s.run db op = some s') : Reachable ok db s'
  | finalise {db : Database H} {s s' : StateDB C R} {rt : Runtime} {f : Bool} (h : Reachable ok db s)
      (hs : s.finalise rt db f = some s') : Reachable ok db s'
  | commit {db db' : Database H} {s s' : StateDB C R} {rt : Runtime} {f : Bool} {root : S}
      (h : Reachable ok db s) (hs : s.commit rt db f = some (root, db', s')) : Reachable ok db' s'
  | copy {db : Database H} {s s' : StateDB C R} {rt : Runtime} (h : Reachable ok db s)
      (hs : s.copy rt = some s') : Reachable ok db s'
  | grow {db db' : Database H} {s : StateDB C R} (h : Reachable ok db s) (hw : db.Within db')
      (hdb : db'.Closed) : Reachable ok db' s

def blank : StateDB C R := { trie := ∅ }

def blankDb : Database Hashing.ideal := Database.empty

theorem reachable_blank (ok : StateDB C R → Op → Prop) : Reachable ok (Database.empty : Database H) blank := by
  have hnew : new (Database.empty : Database H) none = some blank := rfl
  exact .new (fun _ _ h ↦ (by cases h)) hnew

theorem sound_of_openTrie (hdb : db.Closed) {root : Option S} (h : db.openTrie root = some trie) (n : ℕ) :
    Sound db ({ trie, nextRevisionId := n } : StateDB C R) := by
  refine ⟨fun a o ho ↦ ?_, fun a o ho ↦ ?_, fun a acc ht ↦ .inl ?_, by simp, fun a o ha ↦ ?_⟩
  · simp at ho
  · simp at ho
  · cases root with
    | none =>
      cases h
      simp at ht
    | some r =>
      simp only [Database.openTrie] at h
      split_ifs at h
      · cases h
        simp at ht
      · exact hdb r trie h a acc ht
  · simp at ha

theorem Committed.closed (hc : Committed db f s db' s') (h : db.Closed) : db'.Closed := by
  intro r m hm a acc hacc
  rcases hc.states r m hm with hm | rfl
  · exact (h r m hm a acc hacc).within hc.within
  · exact hc.accounts a acc hacc

theorem Reachable.valid {ok : StateDB C R → Op → Prop} (h : Reachable ok db s) :
    s.Valid db ∧ db.Closed := by
  induction h with
  | new hdb hs =>
    obtain ⟨trie, ht, rfl⟩ := map_eq_some_iff.mp hs
    exact ⟨.of_sound (sound_of_openTrie hdb ht 0) rfl rfl, hdb⟩
  | @reset _ s _ _ _ hs ih =>
    obtain ⟨trie, ht, rfl⟩ := map_eq_some_iff.mp hs
    exact ⟨.of_sound (sound_of_openTrie ih.2 ht s.nextRevisionId) rfl rfl, ih.2⟩
  | run _ _ hs ih => exact ⟨ih.1.run hs, ih.2⟩
  | finalise _ hs ih => exact ⟨(finalise_some hs).valid ih.1, ih.2⟩
  | commit _ hs ih =>
    have hc := (commit_some ih.1.sound hs).1
    exact ⟨hc.valid ih.1, hc.closed ih.2⟩
  | copy _ hs ih =>
    have hc := copy_some hs
    exact ⟨.of_sound (hc.sound ih.1.sound) hc.journal hc.validRevisions, ih.2⟩
  | grow _ hw hdb ih => exact ⟨ih.1.within hw, hdb⟩

/-! ### What the getters answer -/

section

variable (h : s.Sound db)

include h

theorem view_getStateObject (a : Address) :
    (s.getStateObject a).1.map (·.view db) = (s.cell db a).view? := by
  rcases getStateObject_spec h a with ⟨hget, hn⟩ | ⟨o, s1, hget, -, -, -, -, -, -, hc⟩
  · rw [hget, hn]
    rfl
  · rw [hget, hc]
    rfl

theorem getCode_eq (a : Address) : s.getCode db a = ((s.cell db a).view?.map (·.code)).getD [] := by
  rw [← view_getStateObject h, getCode]
  cases (s.getStateObject a).1 with
  | none => rfl
  | some o =>
    simp only [StateObject.getCode_fst]
    rfl

theorem getState_eq (a : Address) (key : Hash) :
    s.getState db a key = ((s.cell db a).view?.map (·.storage key)).getD 0 := by
  rw [← view_getStateObject h, getState]
  cases (s.getStateObject a).1 with
  | none => rfl
  | some o =>
    simp only [StateObject.getState_fst]
    rfl

theorem getter_eq {β : Type} (a : Address) (f : StateObject C R → β) (g : View C → β)
    (hfg : ∀ o : StateObject C R, f o = g (o.view db)) (d : β) :
    ((s.getStateObject a).1.map f).getD d = ((s.cell db a).view?.map g).getD d := by
  rw [← view_getStateObject h]
  cases (s.getStateObject a).1 with
  | none => rfl
  | some o => exact hfg o

theorem getBalance_eq (a : Address) :
    s.getBalance a = ((s.cell db a).view?.map (·.balance)).getD 0 :=
  getter_eq h a _ View.balance (fun _ ↦ rfl) 0

theorem getContribution_eq (a : Address) :
    s.getContribution a = ((s.cell db a).view?.map (·.contribution)).getD 0 :=
  getter_eq h a _ View.contribution (fun _ ↦ rfl) 0

theorem getNonce_eq (a : Address) : s.getNonce a = ((s.cell db a).view?.map (·.nonce)).getD 0 :=
  getter_eq h a _ View.nonce (fun _ ↦ rfl) 0

theorem hasSuicided_eq (a : Address) :
    s.hasSuicided a = ((s.cell db a).view?.map (·.suicided)).getD false :=
  getter_eq h a _ View.suicided (fun _ ↦ rfl) false

theorem empty_eq (a : Address) : s.empty H a = ((s.cell db a).view?.map (·.empty H)).getD true :=
  getter_eq h a _ (·.empty H) (fun _ ↦ rfl) true

theorem exist_eq (a : Address) : s.exist a = (s.cell db a).view?.isSome := by
  rw [← view_getStateObject h, isSome_map]
  rfl

end

structure Alike (db : Database H) (s : StateDB C R) (db' : Database H) (s' : StateDB C R) (a : Address) :
    Prop where
  exist : s'.exist a = s.exist a
  empty : s'.empty H a = s.empty H a
  balance : s'.getBalance a = s.getBalance a
  contribution : s'.getContribution a = s.getContribution a
  nonce : s'.getNonce a = s.getNonce a
  code : s'.getCode db' a = s.getCode db a
  state : ∀ key, s'.getState db' a key = s.getState db a key
  suicided : s'.hasSuicided a = s.hasSuicided a

theorem hash_cell (h : s.Sound db) {v : View C} (hv : (s.cell db a).view? = some v) :
    H.code v.code = v.codeHash := by
  rcases getStateObject_spec h a with ⟨-, hn⟩ | ⟨o, s1, -, hs1, -, ho, -, -, -, hc⟩
  · rw [hn] at hv
    cases hv
  rw [hc] at hv
  cases hv
  exact (hs1.objects a o ho).hash_view

/-- The getters answer alike exactly if the account reads the same. -/
theorem alike_iff (h : s.Sound db) (h' : s'.Sound db') :
    Alike db s db' s' a ↔ (s'.cell db' a).view? = (s.cell db a).view? := by
  constructor
  · rintro ⟨he, -, hb, hc, hn, hcode, hst, hsu⟩
    rw [exist_eq h, exist_eq h'] at he
    rw [getNonce_eq h, getNonce_eq h'] at hn
    rw [getBalance_eq h, getBalance_eq h'] at hb
    rw [getContribution_eq h, getContribution_eq h'] at hc
    rw [hasSuicided_eq h, hasSuicided_eq h'] at hsu
    rw [getCode_eq h, getCode_eq h'] at hcode
    simp only [getState_eq h, getState_eq h'] at hst
    cases hv : (s.cell db a).view? with
    | none =>
      cases hv' : (s'.cell db' a).view? with
      | none => rfl
      | some v' =>
        rw [hv, hv'] at he
        cases he
    | some v =>
      cases hv' : (s'.cell db' a).view? with
      | none =>
        rw [hv, hv'] at he
        cases he
      | some v' =>
        rw [hv, hv'] at hn hb hc hsu hcode
        simp only [hv, hv'] at hst
        have hh : v'.codeHash = v.codeHash := by
          rw [← hash_cell h hv, ← hash_cell h' hv']
          exact congrArg H.code hcode
        exact congrArg some (View.ext hn hb hc hh hcode (funext hst) hsu)
  intro hv
  refine ⟨?_, ?_, ?_, ?_, ?_, ?_, fun key ↦ ?_, ?_⟩
  · rw [exist_eq h, exist_eq h', hv]
  · rw [empty_eq h, empty_eq h', hv]
  · rw [getBalance_eq h, getBalance_eq h', hv]
  · rw [getContribution_eq h, getContribution_eq h', hv]
  · rw [getNonce_eq h, getNonce_eq h', hv]
  · rw [getCode_eq h, getCode_eq h', hv]
  · rw [getState_eq h, getState_eq h', hv]
  · rw [hasSuicided_eq h, hasSuicided_eq h', hv]

end StateDB

end BjutEth.State
