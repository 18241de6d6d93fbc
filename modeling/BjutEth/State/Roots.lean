import BjutEth.State.Tidy

namespace BjutEth.State

open Std Cell
open Alien (Address Hash Runtime)
open StateObject (View)

variable {C R S : Type} {H : Hashing C R S} [DecidableEq C] [DecidableEq R] [DecidableEq S]
variable {db db' : Database H} {s s' : StateDB C R} {a : Address} {o o' : StateObject C R} {f : Bool}

namespace StateDB

/-- What `Commit` leaves of an address in the trie, or nothing if its encoding panics. -/
def flushed (db : Database H) (f : Bool) (s : StateDB C R) (a : Address) : Option (Option (Account C R)) :=
  match s.stateObjects[a]? with
  | none => some s.trie[a]?
  | some _ => (committedSlot db f (s.dirtySlot a)).map (·.2.1)

omit [DecidableEq S] in
theorem flushed_of_none (ho : s.stateObjects[a]? = none) : s.flushed db f a = some s.trie[a]? := by
  rw [flushed, ho]

omit [DecidableEq S] in
theorem flushed_of_some (ho : s.stateObjects[a]? = some o) :
    s.flushed db f a =
      if o.removed H f (s.isDirty a) then some none
      else if s.isDirty a then if o.Encodes then some (some (o.account db)) else none
      else some s.trie[a]? := by
  have hslot : s.dirtySlot a = (some o, s.trie[a]?, s.isDirty a) := by rw [dirtySlot, ho]
  rw [flushed, ho, hslot]
  unfold committedSlot
  dsimp only
  split_ifs <;> rfl

theorem Committed.flushed (h : Committed db f s db' s') (a : Address) :
    s.flushed db f a = some s'.trie[a]? := by
  cases ho : s.stateObjects[a]? with
  | none =>
    rw [flushed_of_none ho]
    exact congrArg some (congrArg (·.2.1) (h.kept a ho)).symm
  | some o =>
    rw [StateDB.flushed, ho]
    rw [h.settled a (by rw [ho]; rfl)]
    rfl

theorem commit_eq_none_iff_flushed (rt : Runtime) (h : s.Sound db) :
    s.commit rt db f = none ↔ ∃ a, s.flushed db f a = none := by
  rw [commit_eq_none_iff rt f h]
  refine exists_congr (fun a ↦ ?_)
  cases ho : s.stateObjects[a]? with
  | none => simp [flushed_of_none ho]
  | some o =>
    rw [flushed, ho]
    simp

/-- The root that `Commit` gives is a matter of what it leaves in the trie. -/
theorem commit_congr (rt rt' : Runtime) (h : s.Sound db) (h' : s'.Sound db)
    (hf : ∀ a, s'.flushed db f a = s.flushed db f a) :
    (s'.commit rt' db f).map (·.1) = (s.commit rt db f).map (·.1) := by
  cases hc : s.commit rt db f with
  | none =>
    obtain ⟨a, ha⟩ := (commit_eq_none_iff_flushed rt h).mp hc
    rw [(commit_eq_none_iff_flushed rt' h').mpr ⟨a, (hf a).trans ha⟩]
  | some p =>
    obtain ⟨root, db1, s1⟩ := p
    obtain ⟨hcom, rfl⟩ := commit_some h hc
    cases hc' : s'.commit rt' db f with
    | none =>
      obtain ⟨a, ha⟩ := (commit_eq_none_iff_flushed rt' h').mp hc'
      rw [hf a, hcom.flushed a] at ha
      cases ha
    | some p' =>
      obtain ⟨root', db1', s1'⟩ := p'
      obtain ⟨hcom', rfl⟩ := commit_some h' hc'
      have htrie : s1'.trie = s1.trie := by
        refine ExtTreeMap.ext_getElem? (fun a ↦ ?_)
        exact Option.some.inj (by rw [← hcom'.flushed a, ← hcom.flushed a, hf a])
      simp only [Option.map_some, htrie]

omit [DecidableEq S] in
theorem removed_congr (hv : o'.view db' = o.view db) (d : Bool) :
    o'.removed H f d = o.removed H f d := by
  have h1 : o'.suicided = o.suicided := congrArg View.suicided hv
  have h2 : o'.empty H = o.empty H := congrArg (View.empty H) hv
  simp only [StateObject.removed, h1, h2]

omit [DecidableEq S] in
theorem encodes_congr (hv : o'.view db' = o.view db) : o'.Encodes ↔ o.Encodes := by
  have h1 : o'.data.balance = o.data.balance := congrArg View.balance hv
  have h2 : o'.data.contribution = o.data.contribution := congrArg View.contribution hv
  simp only [StateObject.Encodes, h1, h2]

theorem cell_cases (db : Database H) (s : StateDB C R) (a : Address) :
    (∃ o, s.stateObjects[a]? = some o ∧ o.deleted = false ∧
        s.cell db a = .present (o.view db) (s.stateObjectsDirty.contains a)) ∨
      (∃ acc, s.stateObjects[a]? = none ∧ s.trie[a]? = some acc ∧
        s.cell db a = .present ((newObject acc).view db) (s.stateObjectsDirty.contains a)) ∨
      (∃ o, s.stateObjects[a]? = some o ∧ o.deleted = true ∧
        s.cell db a = .absent (some (o.view db)) (s.stateObjectsDirty.contains a)) ∨
      (s.stateObjects[a]? = none ∧ s.trie[a]? = none ∧
        s.cell db a = .absent none (s.stateObjectsDirty.contains a)) := by
  cases ho : s.stateObjects[a]? with
  | some o =>
    cases hd : o.deleted with
    | true => exact .inr (.inr (.inl ⟨o, rfl, hd, by rw [cell_of_some ho, live_of_deleted hd]⟩))
    | false => exact .inl ⟨o, rfl, hd, by rw [cell_of_some ho, live_of_not_deleted hd]⟩
  | none =>
    cases ht : s.trie[a]? with
    | some acc => exact .inr (.inl ⟨acc, rfl, rfl, by rw [cell_of_none ho, stored, ht]⟩)
    | none => exact .inr (.inr (.inr ⟨rfl, rfl, by rw [cell_of_none ho, stored, ht]⟩))

theorem flushed_congr_live (h : s.Sound db) (h' : s'.Sound db) (ht : s'.trie = s.trie)
    (hd : s'.isDirty a = s.isDirty a) (ho : s.stateObjects[a]? = some o)
    (ho' : s'.stateObjects[a]? = some o') (hv : o'.view db = o.view db) :
    s'.flushed db f a = s.flushed db f a := by
  have hacc := StateObject.account_congr (h'.objects a o' ho') (h.objects a o ho) hv
  simp only [flushed_of_some ho, flushed_of_some ho', removed_congr (f := f) hv, encodes_congr hv, hd, ht, hacc]

omit [DecidableEq S] in
theorem flushed_of_loaded (ht : s.Tidy) (ho : s.stateObjects[a]? = none) {s' : StateDB C R}
    (htrie : s'.trie = s.trie) (hd : s'.isDirty a = s.isDirty a) (ho' : s'.stateObjects[a]? = some o')
    (hsu : o'.suicided = false) : s'.flushed db f a = s.flushed db f a := by
  have hnd : s.isDirty a = false := by
    cases hd : s.isDirty a with
    | false => rfl
    | true =>
      have := ht.isSome_of_isDirty hd
      rw [ho] at this
      cases this
  have hrem : o'.removed H f false = false := by
    rw [StateObject.removed, hsu]
    rfl
  rw [flushed_of_none ho, flushed_of_some ho', hd, hnd, hrem, htrie]
  rfl

/-- What a tidy state leaves in the trie is a matter of its cells and of which accounts are
dirty. -/
theorem flushed_congr (h : s.Sound db) (h' : s'.Sound db) (ht : s.Tidy) (ht' : s'.Tidy)
    (htrie : s'.trie = s.trie) (hd : s'.isDirty a = s.isDirty a) (hcell : s'.cell db a = s.cell db a) :
    s'.flushed db f a = s.flushed db f a := by
  obtain ⟨o, ho, -, hc⟩ | ⟨acc, ho, hacc, hc⟩ | ⟨o, ho, -, hc⟩ | ⟨ho, -, hc⟩ := cell_cases db s a <;>
    obtain ⟨o', ho', -, hc'⟩ | ⟨acc', ho', hacc', hc'⟩ | ⟨o', ho', -, hc'⟩ | ⟨ho', -, hc'⟩ :=
      cell_cases db s' a <;> rw [hc, hc'] at hcell
  · exact flushed_congr_live h h' htrie hd ho ho' (present.inj hcell).1
  · have hsu : o.suicided = false := (congrArg View.suicided (present.inj hcell).1).symm
    exact (flushed_of_loaded ht' ho' htrie.symm hd.symm ho hsu).symm
  · cases hcell
  · cases hcell
  · have hsu : o'.suicided = false := congrArg View.suicided (present.inj hcell).1
    exact flushed_of_loaded ht ho htrie hd ho' hsu
  · rw [flushed_of_none ho, flushed_of_none ho', htrie]
  · cases hcell
  · cases hcell
  · cases hcell
  · cases hcell
  · exact flushed_congr_live h h' htrie hd ho ho' (Option.some.inj (absent.inj hcell).1)
  · cases (absent.inj hcell).1
  · cases hcell
  · cases hcell
  · cases (absent.inj hcell).1
  · rw [flushed_of_none ho, flushed_of_none ho', htrie]

end StateDB

end BjutEth.State
