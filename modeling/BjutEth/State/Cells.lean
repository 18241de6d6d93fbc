import BjutEth.State.Views

set_option linter.unusedSectionVars false

namespace BjutEth.State

open Std Option ExtTreeMap List
open Alien (Address Hash Runtime)
open StateObject (View)

variable {C R S : Type} {H : Hashing C R S} [DecidableEq C] [DecidableEq R] [DecidableEq S]
variable {db : Database H} {s s' : StateDB C R} {a b : Address} {o o' : StateObject C R}

def Change.account : Change C R → Option Address
  | .resetObject a _ => some a
  | e => e.dirtied

def Change.Sound (db : Database H) (trie : Accounts C R) : Change C R → Prop
  | .createObject a => ∀ acc, trie[a]? = some acc → (newObject acc).Coherent db
  | .resetObject _ prev => prev.Coherent db ∧ prev.deleted = false
  | .code _ prevcode prevhash => H.code (prevcode.getD []) = prevhash
  | _ => True

variable {e : Change C R}

theorem account_of_dirtied (h : e.dirtied = some a) : e.account = some a := by
  cases e with
  | resetObject b prev => cases h
  | createObject b | suicide b prev prevbalance | balance b prev | contribution b prev | nonce b prev
  | storage b key prevalue | code b prevcode prevhash | touch b | refund prev | addLog txhash
  | addPreimage hash => exact h

namespace StateDB

/-- Every live object is coherent, an object that was deleted without a suicide was
empty, an account of the trie can be loaded unless a flush has written it there and its
object waits for the commit, and no deleted object is in the journal. -/
structure Sound (db : Database H) (s : StateDB C R) : Prop where
  objects : ∀ (a : Address) o, s.stateObjects[a]? = some o → o.Coherent db
  deleted : ∀ (a : Address) o, s.stateObjects[a]? = some o → o.deleted = true → o.suicided = false →
    o.empty H = true
  accounts : ∀ (a : Address) acc, s.trie[a]? = some acc → (newObject acc).Coherent db ∨
    ∃ o, s.stateObjects[a]? = some o ∧ o.deleted = false ∧ a ∈ s.stateObjectsDirty
  changes : ∀ e ∈ s.journal.entries, e.Sound db s.trie
  dirty : ∀ (a : Address) o, a ∈ s.journal.dirties → s.stateObjects[a]? = some o → o.deleted = false

end StateDB

/-- What a state holds for one address: an account, or none, with what is left of a
deleted object; and whether the address waits for a commit. -/
inductive Cell (C : Type)
  | present (v : View C) (marked : Bool)
  | absent (left : Option (View C)) (marked : Bool)

namespace Cell

def view? : Cell C → Option (View C)
  | present v _ => some v
  | absent _ _ => none

def stored (db : Database H) (trie : Accounts C R) (a : Address) (marked : Bool) : Cell C :=
  match trie[a]? with
  | some acc => present ((newObject acc).view db) marked
  | none => absent none marked

def live (db : Database H) (o : StateObject C R) (marked : Bool) : Cell C :=
  if o.deleted then absent (some (o.view db)) marked else present (o.view db) marked

theorem live_of_deleted (h : o.deleted = true) (m : Bool) :
    live db o m = absent (some (o.view db)) m := if_pos h

theorem live_of_not_deleted (h : o.deleted = false) (m : Bool) :
    live db o m = present (o.view db) m := by
  rw [live, h]
  rfl

end Cell

namespace StateDB

def cell (db : Database H) (s : StateDB C R) (a : Address) : Cell C :=
  match s.stateObjects[a]? with
  | some o => .live db o (s.stateObjectsDirty.contains a)
  | none => .stored db s.trie a (s.stateObjectsDirty.contains a)

theorem cell_of_some (h : s.stateObjects[a]? = some o) :
    s.cell db a = .live db o (s.stateObjectsDirty.contains a) := by
  rw [cell, h]

theorem cell_of_none (h : s.stateObjects[a]? = none) :
    s.cell db a = .stored db s.trie a (s.stateObjectsDirty.contains a) := by
  rw [cell, h]

def rest (s : StateDB C R) : StateDB C R :=
  { s with stateObjects := ∅, stateObjectsDirty := ∅, journal := {} }

/-- Two states that differ at one address and in their journals only. -/
structure Frame (a : Address) (s s' : StateDB C R) : Prop where
  objects : ∀ b, b ≠ a → s'.stateObjects[b]? = s.stateObjects[b]?
  marks : ∀ b, b ≠ a → s'.stateObjectsDirty.contains b = s.stateObjectsDirty.contains b
  rest : s'.rest = s.rest

theorem Frame.refl (a : Address) (s : StateDB C R) : Frame a s s :=
  ⟨fun _ _ ↦ rfl, fun _ _ ↦ rfl, rfl⟩

theorem Frame.trans {s1 s2 s3 : StateDB C R} (h : Frame a s1 s2) (h' : Frame a s2 s3) :
    Frame a s1 s3 :=
  ⟨fun b hb ↦ (h'.objects b hb).trans (h.objects b hb),
    fun b hb ↦ (h'.marks b hb).trans (h.marks b hb), h'.rest.trans h.rest⟩

theorem eq_of_rest {β : Type} (h : s'.rest = s.rest) (f : StateDB C R → β)
    (hf : ∀ s : StateDB C R, f s.rest = f s) : f s' = f s := by
  rw [← hf, h, hf]

theorem Frame.trie (h : Frame a s s') : s'.trie = s.trie := eq_of_rest h.rest StateDB.trie (fun _ ↦ rfl)

theorem Frame.cell (h : Frame a s s') (hb : b ≠ a) : s'.cell db b = s.cell db b := by
  unfold StateDB.cell
  rw [h.objects b hb, h.marks b hb, h.trie]

theorem frame_setStateObject (s : StateDB C R) (a : Address) (o : StateObject C R) :
    Frame a s (s.setStateObject a o) := by
  refine ⟨fun b hb ↦ ?_, fun _ _ ↦ rfl, rfl⟩
  rw [setStateObject, GoMap.get_insert, if_neg (Ne.symm hb)]

theorem frame_append (s : StateDB C R) (a : Address) (e : Change C R) : Frame a s (s.append e) :=
  ⟨fun _ _ ↦ rfl, fun _ _ ↦ rfl, rfl⟩

theorem frame_dropObject (s : StateDB C R) (a : Address) : Frame a s (s.dropObject a) := by
  refine ⟨fun b hb ↦ ?_, fun b hb ↦ ?_, rfl⟩
  · have hab : a ≠ b := fun h ↦ hb h.symm
    simp [dropObject, getElem?_erase, hab]
  · have hab : a ≠ b := fun h ↦ hb h.symm
    simp [dropObject, hab]

@[simp] theorem getElem?_setStateObject (s : StateDB C R) (a : Address) (o : StateObject C R) :
    (s.setStateObject a o).stateObjects[a]? = some o := by
  simp [setStateObject]

@[simp] theorem entries_append (s : StateDB C R) (e : Change C R) :
    (s.append e).journal.entries = e :: s.journal.entries := by
  unfold append Journal.append
  cases e.dirtied <;> rfl

/-- A state that differs from a sound one at a single address is sound if that address
is in order. -/
theorem Sound.of_frame (h : s.Sound db) (hf : Frame a s s')
    (hobj : ∀ o, s'.stateObjects[a]? = some o → o.Coherent db ∧ o.deleted = false)
    (hacc : ∀ acc, s.trie[a]? = some acc → (newObject acc).Coherent db ∨
      ∃ o, s'.stateObjects[a]? = some o ∧ o.deleted = false ∧ a ∈ s'.stateObjectsDirty)
    (hch : ∀ e ∈ s'.journal.entries, e.Sound db s.trie)
    (hdir : ∀ b, b ≠ a → b ∈ s'.journal.dirties → b ∈ s.journal.dirties) : s'.Sound db := by
  refine ⟨fun b o hb ↦ ?_, fun b o hb hd ↦ ?_, fun b acc hb ↦ ?_, ?_, fun b o hb ho ↦ ?_⟩
  · by_cases hba : b = a
    · subst hba
      exact (hobj o hb).1
    · exact h.objects b o ((hf.objects b hba).symm.trans hb)
  · by_cases hba : b = a
    · subst hba
      rw [(hobj o hb).2] at hd
      cases hd
    · exact h.deleted b o ((hf.objects b hba).symm.trans hb) hd
  · rw [hf.trie] at hb
    by_cases hba : b = a
    · subst hba
      exact hacc acc hb
    refine (h.accounts b acc hb).imp_right ?_
    rintro ⟨o, ho, hd, hm⟩
    refine ⟨o, ?_, hd, ?_⟩
    · rw [hf.objects b hba, ho]
    rw [← ExtTreeMap.contains_iff_mem, hf.marks b hba]
    exact hm
  · rw [hf.trie]
    exact hch
  by_cases hba : b = a
  · subst hba
    exact (hobj o ho).2
  · exact h.dirty b o (hdir b hba hb) ((hf.objects b hba).symm.trans ho)

theorem Sound.setStateObject (h : s.Sound db) (ho : o.Coherent db) (hd : o.deleted = false) :
    (s.setStateObject a o).Sound db := by
  refine h.of_frame (frame_setStateObject s a o) (fun o' ho' ↦ ?_) (fun acc hacc ↦ ?_) h.changes
    (fun _ _ hb ↦ hb)
  · rw [getElem?_setStateObject] at ho'
    cases ho'
    exact ⟨ho, hd⟩
  refine (h.accounts a acc hacc).imp_right ?_
  rintro ⟨-, -, -, hm⟩
  exact ⟨o, getElem?_setStateObject s a o, hd, hm⟩

theorem mem_dirties_append {j : Journal C R} (hb : b ∈ (j.append e).dirties) :
    b ∈ j.dirties ∨ e.dirtied = some b := by
  unfold Journal.append at hb
  cases hd : e.dirtied with
  | none =>
    rw [hd] at hb
    exact .inl hb
  | some a =>
    rw [hd] at hb
    simp only [Journal.dirty, GoMap.mem_insert] at hb
    exact hb.elim (fun h ↦ .inr (congrArg some h)) .inl

theorem mem_dirties_undirty {j : Journal C R} (hb : b ∈ (j.undirty e).dirties) :
    b ∈ j.dirties ∨ e.dirtied = some b := by
  unfold Journal.undirty at hb
  cases hd : e.dirtied with
  | none =>
    rw [hd] at hb
    exact .inl hb
  | some a =>
    rw [hd] at hb
    simp only at hb
    split_ifs at hb
    · exact .inl (ExtTreeMap.mem_of_mem_erase hb)
    rw [GoMap.mem_insert] at hb
    exact hb.elim (fun h ↦ .inr (congrArg some h)) .inl

theorem Sound.append (h : s.Sound db) (he : e.Sound db s.trie)
    (hd : ∀ a o, e.dirtied = some a → s.stateObjects[a]? = some o → o.deleted = false) :
    (s.append e).Sound db := by
  refine ⟨h.objects, h.deleted, h.accounts, fun e' he' ↦ ?_, fun a o ha ho ↦ ?_⟩
  · rw [entries_append] at he'
    rcases mem_cons.mp he' with rfl | he'
    · exact he
    · exact h.changes e' he'
  · exact (mem_dirties_append ha).elim (fun ha ↦ h.dirty a o ha ho) (fun ha ↦ hd a o ha ho)

/-! ### Looking an object up -/

theorem Sound.coherent_stored {acc : Account C R} (h : s.Sound db) (ho : s.stateObjects[a]? = none)
    (ht : s.trie[a]? = some acc) : (newObject acc).Coherent db := by
  refine (h.accounts a acc ht).resolve_right ?_
  rintro ⟨o, ho', -⟩
  rw [ho] at ho'
  cases ho'

/-- `getStateObject` answers the account of the cell, with an object that is live
afterwards, and changes nothing that can be seen. -/
theorem getStateObject_spec (h : s.Sound db) (a : Address) :
    (s.getStateObject a = (none, s) ∧ (s.cell db a).view? = none) ∨
      ∃ o s1, s.getStateObject a = (some o, s1) ∧ s1.Sound db ∧ Frame a s s1 ∧
        s1.stateObjects[a]? = some o ∧ o.deleted = false ∧ s1.journal = s.journal ∧
        s1.stateObjectsDirty = s.stateObjectsDirty ∧
        s.cell db a = .present (o.view db) (s.stateObjectsDirty.contains a) := by
  unfold getStateObject
  cases ho : s.stateObjects[a]? with
  | some o =>
    cases hd : o.deleted with
    | true =>
      refine .inl ⟨by simp [hd], ?_⟩
      rw [cell_of_some ho, Cell.live_of_deleted hd]
      rfl
    | false =>
      refine .inr ⟨o, s, by simp [hd], h, .refl a s, ho, hd, rfl, rfl, ?_⟩
      rw [cell_of_some ho, Cell.live_of_not_deleted hd]
  | none =>
    cases ht : s.trie[a]? with
    | none =>
      refine .inl ⟨rfl, ?_⟩
      rw [cell_of_none ho, Cell.stored, ht]
      rfl
    | some acc =>
      refine .inr ⟨newObject acc, s.setStateObject a (newObject acc), rfl,
        h.setStateObject (h.coherent_stored ho ht) rfl, frame_setStateObject s a _, getElem?_setStateObject s a _, rfl, rfl, rfl, ?_⟩
      rw [cell_of_none ho, Cell.stored, ht]

end StateDB

/-! ### Undoing one change -/

def Change.undoView (db : Database H) : Change C R → View C → View C
  | .resetObject _ prev, _ => prev.view db
  | .suicide _ prev prevbalance, v => { v with suicided := prev, balance := prevbalance }
  | .balance _ prev, v => { v with balance := prev }
  | .contribution _ prev, v => { v with contribution := prev }
  | .nonce _ prev, v => { v with nonce := prev }
  | .storage _ key prevalue, v =>
    { v with storage := fun k ↦ if key = k then prevalue else v.storage k }
  | .code _ prevcode prevhash, v => { v with codeHash := prevhash, code := prevcode.getD [] }
  | _, v => v

/-- A change is undone on an account that is there; undoing its creation leaves what the
trie holds. -/
def Cell.undo (db : Database H) (trie : Accounts C R) (e : Change C R) : Cell C → Option (Cell C)
  | .absent _ _ => none
  | .present v m =>
    match e with
    | .createObject a => some (.stored db trie a false)
    | e => some (.present (e.undoView db v) m)

namespace StateDB

@[simp] theorem entries_undirty (j : Journal C R) (e : Change C R) :
    (j.undirty e).entries = j.entries := by
  unfold Journal.undirty
  cases e.dirtied <;> rfl

/-- A step from one state to another that is undone at one address: the second state is
sound, differs at that address only, has the given cell there and the same journal. -/
structure Turns (db : Database H) (a : Address) (s s' : StateDB C R) (c : Cell C) : Prop where
  sound : s'.Sound db
  frame : Frame a s s'
  journal : s'.journal = s.journal
  cell : s'.cell db a = c
  usable : ∀ o, s'.stateObjects[a]? = some o → o.deleted = false

theorem turns_setStateObject (h : s.Sound db) (ho : o.Coherent db) (hd : o.deleted = false) :
    Turns db a s (s.setStateObject a o) (.present (o.view db) (s.stateObjectsDirty.contains a)) where
  sound := h.setStateObject ho hd
  frame := frame_setStateObject s a o
  journal := rfl
  cell := by
    rw [cell_of_some (getElem?_setStateObject s a o), Cell.live_of_not_deleted hd]
    rfl
  usable o' ho' := by
    rw [getElem?_setStateObject] at ho'
    exact some.inj ho' ▸ hd

theorem turns_dropObject (h : s.Sound db) (he : (Change.createObject a).Sound db s.trie) :
    Turns db a s (s.dropObject a) (.stored db s.trie a false) := by
  have hself : (s.dropObject a).stateObjects[a]? = none := by simp [dropObject]
  have hnone : ∀ o, (s.dropObject a).stateObjects[a]? ≠ some o := by
    intro o ho
    rw [hself] at ho
    cases ho
  refine ⟨?_, frame_dropObject s a, rfl, ?_, fun o ho ↦ absurd ho (hnone o)⟩
  · exact h.of_frame (frame_dropObject s a) (fun o ho ↦ absurd ho (hnone o))
      (fun acc ht ↦ .inl (he acc ht)) h.changes (fun _ _ hb ↦ hb)
  · rw [cell_of_none hself]
    simp [dropObject]

theorem modifyObject_spec (h : s.Sound db) (f : StateObject C R → StateObject C R) {v v' : View C}
    {m : Bool} (hcell : s.cell db a = .present v m)
    (hf : ∀ o, o.Coherent db → o.deleted = false → o.view db = v →
      (f o).Coherent db ∧ (f o).deleted = false ∧ (f o).view db = v') :
    ∃ s' : StateDB C R, s.modifyObject a f = some s' ∧ Turns db a s s' (.present v' m) := by
  rcases getStateObject_spec h a with ⟨-, hn⟩ | ⟨o, s1, hget, hs1, hfr, ho, hd, hj, hm, hc⟩
  · rw [hcell] at hn
    cases hn
  rw [hcell] at hc
  obtain ⟨hv, rfl⟩ := Cell.present.inj hc
  obtain ⟨hco, hdo, hvo⟩ := hf o (hs1.objects a o ho) hd hv.symm
  have ht : Turns db a s1 _ _ := turns_setStateObject hs1 hco hdo
  refine ⟨s1.setStateObject a (f o), by rw [modifyObject, hget], ht.sound, hfr.trans ht.frame, hj, ?_, ht.usable⟩
  rw [ht.cell, hvo, hm]

theorem undo_suicide {v : View C} {m : Bool} (h : s.Sound db) (hcell : s.cell db a = .present v m) (prev : Bool)
    (prevbalance : ℤ) : ∃ s' : StateDB C R, s.undo (.suicide a prev prevbalance) = some s' ∧
      Turns db a s s' (.present { v with suicided := prev, balance := prevbalance } m) := by
  let f : StateObject C R → StateObject C R := fun o ↦ { o with suicided := prev }.setBalance prevbalance
  have hv : ∀ o, o.Coherent db → o.deleted = false → o.view db = v → (f o).Coherent db ∧
      (f o).deleted = false ∧ (f o).view db = { v with suicided := prev, balance := prevbalance } :=
    fun o ho hd hv ↦ ⟨ho.setData _ _ _ _ _, hd, hv ▸ rfl⟩
  obtain ⟨s', hs', ht⟩ := modifyObject_spec h f hcell hv
  refine ⟨s', ?_, ht⟩
  rw [← hs', undo, modifyObject]
  split
  · rename_i hg
    rw [modifyObject, hg] at hs'
    cases hs'
  · rfl

/-- `undo` does to the state what `Cell.undo` does to the cell of the account. -/
theorem undo_spec (h : s.Sound db) (he : e.Sound db s.trie) (hacc : e.account = some a) {c : Cell C}
    (hc : (s.cell db a).undo db s.trie e = some c) :
    ∃ s' : StateDB C R, s.undo e = some s' ∧ Turns db a s s' c := by
  cases hcell : s.cell db a with
  | absent left m =>
    rw [hcell] at hc
    cases hc
  | present v m =>
    rw [hcell] at hc
    cases e with
    | createObject a' =>
      obtain rfl : a' = a := some.inj hacc
      cases hc
      exact ⟨_, rfl, turns_dropObject h he⟩
    | resetObject a' prev =>
      obtain rfl : a' = a := some.inj hacc
      cases hc
      obtain rfl : m = s.stateObjectsDirty.contains a' := by
        rcases getStateObject_spec h a' with ⟨-, hn⟩ | ⟨_, _, -, -, -, -, -, -, -, hc'⟩
        · rw [hcell] at hn
          cases hn
        · rw [hcell] at hc'
          exact (Cell.present.inj hc').2
      exact ⟨_, rfl, turns_setStateObject h he.1 he.2⟩
    | suicide a' prev prevbalance =>
      obtain rfl : a' = a := some.inj hacc
      cases hc
      exact undo_suicide h hcell prev prevbalance
    | balance a' prev | contribution a' prev | nonce a' prev =>
      obtain rfl : a' = a := some.inj hacc
      cases hc
      exact modifyObject_spec h _ hcell (fun o ho hd hv ↦ ⟨ho.setData _ _ _ _ _, hd, hv ▸ rfl⟩)
    | storage a' key prevalue =>
      obtain rfl : a' = a := some.inj hacc
      cases hc
      exact modifyObject_spec h _ hcell
        (fun o ho hd hv ↦ ⟨ho.setState key prevalue, hd, hv ▸ StateObject.view_setState key prevalue⟩)
    | code a' prevcode prevhash =>
      obtain rfl : a' = a := some.inj hacc
      cases hc
      exact modifyObject_spec h _ hcell
        (fun o ho hd hv ↦ ⟨ho.setCode he, hd, hv ▸ StateObject.view_setCode he⟩)
    | touch a' =>
      cases hc
      refine ⟨s, rfl, h, .refl a s, rfl, hcell, fun o ho ↦ ?_⟩
      cases hd : o.deleted with
      | false => rfl
      | true =>
        rw [cell_of_some ho, Cell.live_of_deleted hd] at hcell
        cases hcell
    | refund prev => cases hacc
    | addLog txhash => cases hacc
    | addPreimage hash => cases hacc

end StateDB

/-! ### Undoing a stretch of the journal -/

@[ext] structure Outside where
  refund : UInt64
  logs : Hash → List Log
  logSize : ℕ
  preimages : GoMap Hash Bytes

def StateDB.outside (s : StateDB C R) : Outside where
  refund := s.refund
  logs := s.getLogs
  logSize := s.logSize
  preimages := s.preimages

def Change.undoOutside : Change C R → Outside → Outside
  | .refund prev, w => { w with refund := prev }
  | .addLog txhash, w =>
    { w with
      logs := fun h ↦ if txhash = h then (w.logs h).dropLast else w.logs h
      logSize := w.logSize - 1 }
  | .addPreimage hash, w => { w with preimages := w.preimages.erase hash }
  | _, w => w

def changesOf (a : Address) (es : List (Change C R)) : List (Change C R) :=
  es.filter (fun e ↦ e.account = some a)

def Cell.undoAll (db : Database H) (trie : Accounts C R) (es : List (Change C R)) (c : Cell C) :
    Option (Cell C) :=
  es.foldlM (fun c e ↦ c.undo db trie e) c

namespace StateDB

theorem outside_of_rest (h : s'.rest = s.rest) : s'.outside = s.outside := by
  refine eq_of_rest h StateDB.outside (fun _ ↦ rfl)

structure Keeps (s s' : StateDB C R) : Prop where
  trie : s'.trie = s.trie
  validRevisions : s'.validRevisions = s.validRevisions
  nextRevisionId : s'.nextRevisionId = s.nextRevisionId

/-- A change that is about no account is undone outside the accounts. -/
theorem undo_outside (he : e.account = none) :
    ∃ s' : StateDB C R, s.undo e = some s' ∧ s'.outside = e.undoOutside s.outside ∧
      s'.stateObjects = s.stateObjects ∧ s'.stateObjectsDirty = s.stateObjectsDirty ∧
      s'.journal = s.journal ∧ s.Keeps s' := by
  cases e with
  | refund prev => exact ⟨_, rfl, rfl, rfl, rfl, rfl, rfl, rfl, rfl⟩
  | addPreimage hash => exact ⟨_, rfl, rfl, rfl, rfl, rfl, rfl, rfl, rfl⟩
  | addLog txhash =>
    refine ⟨_, rfl, Outside.ext rfl ?_ rfl rfl, rfl, rfl, rfl, rfl, rfl, rfl⟩
    funext h
    show (if (s.getLogs txhash).length = 1 then s.logs.erase txhash
      else s.logs.insert txhash (s.getLogs txhash).dropLast)[h]?.getD [] =
      if txhash = h then (s.getLogs h).dropLast else s.getLogs h
    have hdrop : (s.getLogs txhash).length = 1 → (s.getLogs txhash).dropLast = [] := by
      intro hl
      obtain ⟨x, hx⟩ := length_eq_one_iff.mp hl
      rw [hx]
      rfl
    split_ifs with hl hh hh
    · subst hh
      rw [hdrop hl]
      simp
    · simp [getElem?_erase, hh, getLogs]
    · subst hh
      simp
    · simp [ExtTreeMap.getElem?_insert, hh, getLogs]
  | _ => cases he

theorem undoOutside_of_account (he : e.account = some a) (w : Outside) : e.undoOutside w = w := by
  cases e with
  | refund prev | addPreimage hash | addLog txhash => cases he
  | _ => rfl

theorem Sound.of_same (h : s.Sound db) (ho : s'.stateObjects = s.stateObjects)
    (hm : s'.stateObjectsDirty = s.stateObjectsDirty) (ht : s'.trie = s.trie)
    (hj : ∀ e ∈ s'.journal.entries, e.Sound db s.trie)
    (hd : ∀ a o, a ∈ s'.journal.dirties → s.stateObjects[a]? = some o → o.deleted = false) :
    s'.Sound db := by
  refine ⟨?_, ?_, ?_, ?_, ?_⟩
  · rw [ho]
    exact h.objects
  · rw [ho]
    exact h.deleted
  · rw [ho, hm, ht]
    exact h.accounts
  · rw [ht]
    exact hj
  · rw [ho]
    exact hd

theorem cell_of_same (ho : s'.stateObjects = s.stateObjects)
    (hm : s'.stateObjectsDirty = s.stateObjectsDirty) (ht : s'.trie = s.trie) (a : Address) :
    s'.cell db a = s.cell db a := by
  unfold cell
  rw [ho, hm, ht]

theorem Frame.keeps (h : Frame a s s') : s.Keeps s' :=
  ⟨h.trie, eq_of_rest h.rest StateDB.validRevisions (fun _ ↦ rfl),
    eq_of_rest h.rest StateDB.nextRevisionId (fun _ ↦ rfl)⟩

theorem Keeps.trans {s1 s2 s3 : StateDB C R} (h : s1.Keeps s2) (h' : s2.Keeps s3) : s1.Keeps s3 :=
  ⟨h'.trie.trans h.trie, h'.validRevisions.trans h.validRevisions,
    h'.nextRevisionId.trans h.nextRevisionId⟩

variable {r : Address → Cell C}

/-- One change of the journal is undone: in the cell of its account, or outside the
accounts. -/
theorem undoChange_spec (h : s.Sound db) (he : e.Sound db s.trie)
    (hr : ∀ a, e.account = some a → (s.cell db a).undo db s.trie e = some (r a))
    (hr' : ∀ a, e.account ≠ some a → s.cell db a = r a) :
    ∃ s' : StateDB C R, s.undoChange e = some s' ∧ s'.Sound db ∧ (∀ a, s'.cell db a = r a) ∧
      s'.outside = e.undoOutside s.outside ∧ s'.journal = s.journal.undirty e ∧ s.Keeps s' := by
  have hmap : ∀ s1 : StateDB C R, s.undo e = some s1 →
      s.undoChange e = some { s1 with journal := s1.journal.undirty e } := by
    intro s1 hs1
    rw [undoChange, hs1]
    rfl
  cases hacc : e.account with
  | none =>
    obtain ⟨s1, hs1, hout, ho, hm, hj, hk⟩ := undo_outside (s := s) hacc
    have hnd : e.dirtied = none := by
      cases e <;> first | rfl | cases hacc
    refine ⟨_, hmap s1 hs1, h.of_same ho hm hk.trie ?_ (fun a o ha ↦ ?_), fun a ↦ ?_, hout,
      congrArg (·.undirty e) hj, ⟨hk.trie, hk.validRevisions, hk.nextRevisionId⟩⟩
    · simp only [entries_undirty, hj]
      exact h.changes
    · refine h.dirty a o ((mem_dirties_undirty ha).elim (fun ha ↦ hj ▸ ha) (fun ha ↦ ?_))
      rw [hnd] at ha
      cases ha
    have hne : e.account ≠ some a := by
      rw [hacc]
      simp
    rw [← hr' a hne]
    exact cell_of_same ho hm hk.trie a
  | some a =>
    obtain ⟨s1, hs1, ht⟩ := undo_spec h he hacc (hr a hacc)
    refine ⟨_, hmap s1 hs1, ht.sound.of_same rfl rfl rfl ?_ (fun b o hb ho ↦ ?_), fun b ↦ ?_, ?_,
      congrArg (·.undirty e) ht.journal,
      ⟨ht.frame.trie, ht.frame.keeps.validRevisions, ht.frame.keeps.nextRevisionId⟩⟩
    · simp only [entries_undirty]
      exact ht.sound.changes
    · rcases mem_dirties_undirty hb with hb | hb
      · exact ht.sound.dirty b o hb ho
      have hba : some b = some a := (account_of_dirtied hb).symm.trans hacc
      exact ht.usable o (some.inj hba ▸ ho)
    · show s1.cell db b = r b
      by_cases hb : b = a
      · rw [hb, ht.cell]
      rw [ht.frame.cell hb]
      refine hr' b (fun h' ↦ hb ?_)
      rw [hacc] at h'
      exact (some.inj h').symm
    · rw [undoOutside_of_account hacc]
      exact outside_of_rest ht.frame.rest

/-- The journal is reverted as the cells of the accounts are undone, each by its own
changes. -/
theorem undoAll_spec (es : List (Change C R)) (h : s.Sound db) (hes : ∀ e ∈ es, e.Sound db s.trie)
    (hr : ∀ a, (s.cell db a).undoAll db s.trie (changesOf a es) = some (r a)) :
    ∃ s' : StateDB C R, es.foldlM undoChange s = some s' ∧ s'.Sound db ∧ (∀ a, s'.cell db a = r a) ∧
      s'.outside = es.foldl (fun w e ↦ e.undoOutside w) s.outside ∧
      s'.journal = es.foldl Journal.undirty s.journal ∧ s.Keeps s' := by
  induction es generalizing s with
  | nil => exact ⟨s, rfl, h, fun a ↦ some.inj (hr a), rfl, rfl, ⟨rfl, rfl, rfl⟩⟩
  | cons e es ih =>
    -- the cells after the first change
    have hstep : ∃ r1 : Address → Cell C,
        (∀ a, e.account = some a → (s.cell db a).undo db s.trie e = some (r1 a)) ∧
        (∀ a, e.account ≠ some a → s.cell db a = r1 a) ∧
        ∀ a, (r1 a).undoAll db s.trie (changesOf a es) = some (r a) := by
      have hone : ∀ a, ∃ c, (e.account = some a → (s.cell db a).undo db s.trie e = some c) ∧
          (e.account ≠ some a → s.cell db a = c) ∧
          c.undoAll db s.trie (changesOf a es) = some (r a) := by
        intro a
        have ha := hr a
        by_cases hacc : e.account = some a
        · rw [changesOf, filter_cons_of_pos (by simpa using hacc), Cell.undoAll] at ha
          obtain ⟨c, hc, hc'⟩ := bind_eq_some_iff.mp ha
          exact ⟨c, fun _ ↦ hc, fun h' ↦ absurd hacc h', hc'⟩
        · rw [changesOf, filter_cons_of_neg (by simpa using hacc)] at ha
          exact ⟨s.cell db a, fun h' ↦ absurd h' hacc, fun _ ↦ rfl, ha⟩
      choose r1 h1 h2 h3 using hone
      exact ⟨r1, h1, h2, h3⟩
    obtain ⟨r1, h1, h2, h3⟩ := hstep
    obtain ⟨s1, hs1, hsound, hcell, hout, hj, hk⟩ :=
      undoChange_spec h (hes e mem_cons_self) h1 h2
    obtain ⟨s', hs', hsound', hcell', hout', hj', hk'⟩ := ih hsound
      (fun e' he' ↦ hk.trie ▸ hes e' (mem_cons_of_mem e he'))
      (fun a ↦ by rw [hcell a, hk.trie]; exact h3 a)
    refine ⟨s', ?_, hsound', hcell', ?_, ?_, hk.trans hk'⟩
    · rw [foldlM_cons, hs1]
      exact hs'
    · rw [hout', hout, foldl_cons]
    · rw [hj', hj, foldl_cons]

end StateDB

end BjutEth.State
