import BjutEth.State.Reach

namespace BjutEth.State

open Std List Option
open ExtTreeMap hiding getElem?_insert insert
open Alien (Address Hash Runtime)
open StateObject (View)

variable {C R S : Type} {H : Hashing C R S}
variable {db db' : Database H} {s s' : StateDB C R} {a : Address}

def dirtyCount (a : Address) (es : List (Change C R)) : ℕ := es.countP (fun e ↦ e.dirtied = some a)

def Journal.Counts (j : Journal C R) (es : List (Change C R)) : Prop :=
  ∀ a : Address, j.dirties[a]? = if dirtyCount a es = 0 then none else some (dirtyCount a es : ℤ)

theorem dirtyCount_cons (a : Address) (e : Change C R) (es : List (Change C R)) :
    dirtyCount a (e :: es) = dirtyCount a es + if e.dirtied = some a then 1 else 0 := by
  simp only [dirtyCount, countP_cons, decide_eq_true_eq]

variable {j : Journal C R} {es : List (Change C R)} {e : Change C R}

theorem Journal.Counts.getD (h : j.Counts es) (a : Address) : j.dirties.getD a 0 = dirtyCount a es := by
  rw [getD_eq_getD_getElem?, h a]
  split_ifs with h0
  · rw [h0]
    rfl
  · rfl

theorem Journal.Counts.append (h : j.Counts es) (e : Change C R) : (j.append e).Counts (e :: es) := by
  intro a
  rw [dirtyCount_cons]
  unfold Journal.append
  cases hd : e.dirtied with
  | none =>
    exact h a
  | some b =>
    simp only [Journal.dirty, GoMap.get_insert, Option.some.injEq]
    have hg : j.dirties.getD b 0 = dirtyCount b es := h.getD b
    by_cases hb : b = a
    · subst hb
      rw [if_pos rfl, if_pos rfl]
      exact congrArg some (by rw [hg]; push_cast; rfl)
    · rw [if_neg hb, if_neg hb]
      exact h a

theorem Journal.Counts.undirty (h : j.Counts (e :: es)) : (j.undirty e).Counts es := by
  intro a
  have ha := h a
  rw [dirtyCount_cons] at ha
  unfold Journal.undirty
  cases hd : e.dirtied with
  | none =>
    rw [hd] at ha
    exact ha
  | some b =>
    have hg : j.dirties.getD b 0 = (dirtyCount b es : ℤ) + 1 := by
      rw [h.getD b, dirtyCount_cons, if_pos hd]
      rfl
    simp only [hg]
    by_cases hb : b = a
    · subst hb
      split_ifs with h1 h2 h2
      · simp
      · omega
      · omega
      · simp
    have hba : ¬ (some b = some a) := fun h' ↦ hb (some.inj h')
    rw [hd, if_neg hba, Nat.add_zero] at ha
    rw [← ha]
    split_ifs
    · rw [GoMap.get_erase, if_neg hb]
    · rw [GoMap.get_insert, if_neg hb]

theorem Journal.Counts.exists_of_mem (h : j.Counts es) (ha : a ∈ j.dirties) :
    ∃ e ∈ es, e.dirtied = some a := by
  rw [mem_iff_isSome_getElem?, h a] at ha
  split_ifs at ha with h0
  · cases ha
  obtain ⟨e, he, hd⟩ := countP_pos_iff.mp (Nat.pos_of_ne_zero h0)
  exact ⟨e, he, of_decide_eq_true hd⟩

namespace StateDB

/-- No mark is left without an object, as a touch of the RIPEMD precompile can leave one:
the dirty set counts the given changes, every account of them and every marked one is
live, and there is no change of an account before it is created. -/
structure TidyFor (s : StateDB C R) (es : List (Change C R)) : Prop where
  counts : s.journal.Counts es
  marks : ∀ a ∈ s.stateObjectsDirty, s.stateObjects[a]?.isSome
  live : ∀ e ∈ es, ∀ a, e.account = some a → s.stateObjects[a]?.isSome
  fresh : es.Pairwise (fun newer older ↦ ∀ a, newer = .createObject a → older.account ≠ some a)

def Tidy (s : StateDB C R) : Prop := s.TidyFor s.journal.entries

theorem Tidy.of_marks (hj : s.journal = {}) (hm : ∀ a ∈ s.stateObjectsDirty, s.stateObjects[a]?.isSome) :
    s.Tidy := by
  refine ⟨?_, hm, ?_, ?_⟩
  · rw [hj]
    intro a
    simp [dirtyCount]
  · rw [hj]
    simp
  · rw [hj]
    exact .nil

variable {es' : List (Change C R)}

theorem counts_foldr_append (h : j.Counts es') : (es.foldr (fun e j ↦ j.append e) j).Counts (es ++ es') := by
  induction es with
  | nil => exact h
  | cons e es ih => exact ih.append e

/-- No object is lost from one state to the other, and no mark or journal entry comes. -/
structure Retains (s s' : StateDB C R) : Prop where
  live : ∀ b : Address, s.stateObjects[b]?.isSome → s'.stateObjects[b]?.isSome
  marks : s'.stateObjectsDirty = s.stateObjectsDirty
  journal : s'.journal = s.journal

theorem retains_setStateObject (s : StateDB C R) (a : Address) (o : StateObject C R) :
    Retains s (s.setStateObject a o) := by
  refine ⟨fun b hb ↦ ?_, rfl, rfl⟩
  rw [setStateObject, ExtTreeMap.getElem?_insert]
  split_ifs
  · rfl
  · exact hb

theorem Retains.trans {s1 s2 s3 : StateDB C R} (h : Retains s1 s2) (h' : Retains s2 s3) :
    Retains s1 s3 :=
  ⟨fun b hb ↦ h'.live b (h.live b hb), h'.marks.trans h.marks, h'.journal.trans h.journal⟩

theorem retains_getStateObject (s : StateDB C R) (a : Address) : Retains s (s.getStateObject a).2 := by
  unfold getStateObject
  split
  · split_ifs <;> exact ⟨fun _ hb ↦ hb, rfl, rfl⟩
  split
  · exact ⟨fun _ hb ↦ hb, rfl, rfl⟩
  · exact retains_setStateObject s a _

theorem retains_modifyObject {f : StateObject C R → StateObject C R} (h : s.modifyObject a f = some s') :
    Retains s s' := by
  have hr := retains_getStateObject s a
  unfold modifyObject at h
  split at h
  · cases h
  rename_i o s1 hget
  cases h
  rw [hget] at hr
  exact hr.trans (retains_setStateObject s1 a _)

theorem undo_retains (h : s.undo e = some s') (hne : ∀ b, e ≠ .createObject b) : Retains s s' := by
  cases e with
  | createObject a => exact absurd rfl (hne a)
  | resetObject a prev =>
    cases h
    exact retains_setStateObject s a prev
  | suicide a prev prevbalance =>
    have hr := retains_getStateObject s a
    simp only [undo] at h
    split at h
    · rename_i s1 hget
      cases h
      rw [hget] at hr
      exact hr
    rename_i o s1 hget
    cases h
    rw [hget] at hr
    exact hr.trans (retains_setStateObject s1 a _)
  | balance a prev => exact retains_modifyObject h
  | contribution a prev => exact retains_modifyObject h
  | nonce a prev => exact retains_modifyObject h
  | storage a key prevalue => exact retains_modifyObject h
  | code a prevcode prevhash => exact retains_modifyObject h
  | refund prev | addLog txhash | addPreimage hash | touch a =>
    cases h
    exact ⟨fun _ hb ↦ hb, rfl, rfl⟩

theorem mark_slot : (s.slot a).2.2 = true ↔ a ∈ s.stateObjectsDirty :=
  contains_iff_mem

theorem Copied.tidy (h : Copied s s') : s'.Tidy := by
  refine .of_marks h.journal (fun a ha ↦ ?_)
  rw [← mark_slot, h.slot a] at ha
  show (s'.slot a).1.isSome
  rw [h.slot a]
  unfold copiedSlot at ha ⊢
  split_ifs at ha ⊢
  · rw [isSome_map]
    exact ha

variable [DecidableEq C] [DecidableEq R] [DecidableEq S]

theorem Tidy.isSome_of_isDirty (h : s.Tidy) (ha : s.isDirty a = true) : s.stateObjects[a]?.isSome := by
  rw [isDirty, Bool.or_eq_true] at ha
  rcases ha with ha | ha
  · exact h.marks a (contains_iff_mem.mp ha)
  obtain ⟨e, he, hd⟩ := h.counts.exists_of_mem (contains_iff_mem.mp ha)
  exact h.live e he a (account_of_dirtied hd)

/-- Changes of one account that is live afterwards, in the order in which they may come. -/
theorem Tidy.of_acts (h : s.Tidy) (hv : s.Valid db) (hacts : Acts db a s s' es)
    (ht : Change.touch ripemd ∉ es) (hlive : es ≠ [] → s'.stateObjects[a]?.isSome)
    (hcreated : ∀ b, Change.createObject b ∈ es → (s.cell db a).view? = none)
    (hord : es.Pairwise (fun newer _ ↦ ∀ b, newer ≠ .createObject b)) : s'.Tidy := by
  have hkeep : ∀ b : Address, s.stateObjects[b]?.isSome → s'.stateObjects[b]?.isSome := by
    intro b hb
    by_cases hba : b = a
    · subst hba
      exact hacts.live hb
    · rw [hacts.frame.objects b hba]
      exact hb
  refine ⟨?_, fun b hb ↦ ?_, fun e he b hb ↦ ?_, ?_⟩
  · rw [hacts.entries, hacts.journal ht]
    exact counts_foldr_append h.counts
  · rw [hacts.marks] at hb
    exact hkeep b (h.marks b hb)
  · rw [hacts.entries] at he
    rcases mem_append.mp he with he | he
    · obtain rfl : b = a := some.inj (hb.symm.trans (hacts.account e he))
      exact hlive (ne_nil_of_mem he)
    · exact hkeep b (h.live e he b hb)
  rw [hacts.entries]
  refine pairwise_append.mpr ⟨hord.imp (fun h' b hb ↦ absurd hb (h' b)), h.fresh, ?_⟩
  -- an account that is not there has nothing in the journal yet
  rintro e he e' he' b rfl hb
  obtain rfl : b = a := some.inj (hacts.account _ he)
  have hu := hv.undoable b
  cases hcell : s.cell db b with
  | present v m =>
    have hc := hcreated b he
    rw [hcell] at hc
    cases hc
  | absent left m =>
    rw [hcell] at hu
    have hmem : e' ∈ changesOf b s.journal.entries := mem_filter.mpr ⟨he', by simpa using hb⟩
    rw [Cell.eq_nil_of_undoAll_absent hu] at hmem
    cases hmem

theorem Tidy.effect {op : Op} (h : s.Tidy) (hv : s.Valid db) (he : Effect db s op s')
    (ht : op.touches H s ≠ some ripemd) : s'.Tidy := by
  cases he with
  | @set _ a _ o es hset opens touch =>
    refine h.of_acts hv opens.acts (fun h' ↦ ht ((touch ripemd).mp h')) (fun _ ↦ ?_) opens.created opens.order
    rw [opens.live]
    rfl
  | @suicide a _ v m hcell acts cell live =>
    refine h.of_acts hv acts ?_ (fun _ ↦ live) (fun b hb ↦ ?_) (pairwise_singleton _ _)
    · simp
    · simp at hb
  | @read _ a _ hset acts cell hsui =>
    exact h.of_acts hv acts (by simp) (fun h' ↦ absurd rfl h') (by simp) .nil
  | outside es hset hsui objects marks keeps journal account undone =>
    have hent : s'.journal.entries = es ++ s.journal.entries := by rw [journal, entries_foldr_append]
    refine ⟨?_, ?_, fun e he b hb ↦ ?_, ?_⟩
    · rw [hent, journal]
      exact counts_foldr_append h.counts
    · rw [marks, objects]
      exact h.marks
    · rw [hent] at he
      rcases mem_append.mp he with he | he
      · rw [account e he] at hb
        cases hb
      · rw [objects]
        exact h.live e he b hb
    rw [hent]
    refine pairwise_append.mpr ⟨?_, h.fresh, ?_⟩
    · refine pairwise_iff_forall_sublist.mpr (fun {e e'} hsub b hb ↦ ?_)
      have hmem : e ∈ es := hsub.subset mem_cons_self
      have := account e hmem
      rw [hb] at this
      cases this
    rintro e he e' - b rfl
    have := account _ he
    cases this

theorem TidyFor.undoChange (h : s.TidyFor (e :: es)) (hs : s.undoChange e = some s') : s'.TidyFor es := by
  obtain ⟨s1, hs1, rfl⟩ := map_eq_some_iff.mp hs
  obtain ⟨hfrs, hes⟩ := pairwise_cons.mp h.fresh
  by_cases hc : ∃ a, e = .createObject a
  · obtain ⟨a, rfl⟩ := hc
    cases hs1
    have hkeep : ∀ b : Address, b ≠ a → s.stateObjects[b]?.isSome →
        (s.dropObject a).stateObjects[b]?.isSome := by
      intro b hb hl
      rw [(frame_dropObject s a).objects b hb]
      exact hl
    refine ⟨h.counts.undirty, fun b hb ↦ ?_, fun e' he' b hb ↦ ?_, hes⟩
    · have hb' : b ∈ s.stateObjectsDirty.erase a := hb
      rw [mem_erase] at hb'
      exact hkeep b (fun h' ↦ hb'.1 (Std.compare_eq_iff_eq.mpr h'.symm)) (h.marks b hb'.2)
    · refine hkeep b (fun h' ↦ hfrs e' he' a rfl (h' ▸ hb)) ?_
      exact h.live e' (mem_cons_of_mem _ he') b hb
  have hr := undo_retains hs1 (fun b hb ↦ hc ⟨b, hb⟩)
  refine ⟨?_, fun b hb ↦ ?_, fun e' he' b hb ↦ ?_, hes⟩
  · rw [hr.journal]
    exact h.counts.undirty
  · exact hr.live b (h.marks b (hr.marks ▸ hb))
  · exact hr.live b (h.live e' (mem_cons_of_mem e he') b hb)

theorem TidyFor.undoAll (h : s.TidyFor (es ++ es')) (hs : es.foldlM StateDB.undoChange s = some s') :
    s'.TidyFor es' := by
  induction es generalizing s with
  | nil =>
    cases hs
    exact h
  | cons e es ih =>
    obtain ⟨s1, hs1, hs⟩ := bind_eq_some_iff.mp hs
    exact ih (h.undoChange hs1) hs

theorem Tidy.revert {n : ℕ} (h : s.Tidy) (hs : s.revert n = some s') : s'.Tidy := by
  unfold StateDB.revert at hs
  obtain ⟨s1, hs1, hs⟩ := bind_eq_some_iff.mp hs
  cases hs
  have hspl : s.TidyFor (s.journal.entries.take (s.journal.entries.length - n) ++
      s.journal.entries.drop (s.journal.entries.length - n)) := by
    rw [take_append_drop]
    exact h
  have ht := hspl.undoAll hs1
  exact ⟨ht.counts, ht.marks, ht.live, ht.fresh⟩

theorem Tidy.run {op : Op} (h : s.Tidy) (hv : s.Valid db) (hrun : s.run db op = some s')
    (ht : op.touches H s ≠ some ripemd) : s'.Tidy := by
  by_cases hs : op = .snapshot
  · subst hs
    cases hrun
    exact ⟨h.counts, h.marks, h.live, h.fresh⟩
  by_cases hr : ∃ revid, op = .revertToSnapshot revid
  · obtain ⟨revid, rfl⟩ := hr
    obtain ⟨_, rev, _, s1, -, -, hs1, rfl⟩ := revertToSnapshot_some hrun
    have ht := h.revert hs1
    exact ⟨ht.counts, ht.marks, ht.live, ht.fresh⟩
  · exact h.effect hv (run_effect hv.sound hrun hs (fun revid h' ↦ hr ⟨revid, h'⟩)) ht

omit [DecidableEq S] in
theorem Finalised.tidy {f : Bool} (h : Finalised db f s s') (ht : s.Tidy) : s'.Tidy := by
  refine .of_marks (eq_of_unflushed h.rest StateDB.journal (fun _ ↦ rfl)) (fun a ha ↦ ?_)
  have hmark : (s.slot a).2.2 = true → (s.slot a).1.isSome := fun hm ↦ ht.marks a (mark_slot.mp hm)
  show (s'.slot a).1.isSome
  rw [← mark_slot] at ha
  by_cases hd : a ∈ s.journal.dirties
  · have hset := h.settled a hd
    unfold finalisedSlot at hset
    split at hset
    · rename_i hnone
      rw [← some.inj hset] at ha ⊢
      exact hmark ha
    · split_ifs at hset <;> rw [← some.inj hset] <;> rfl
  · rw [h.kept a hd] at ha ⊢
    exact hmark ha

theorem Committed.tidy {f : Bool} {db' : Database H} (h : Committed db f s db' s') (ht : s.Tidy) :
    s'.Tidy := by
  refine .of_marks (eq_of_unflushed h.rest StateDB.journal (fun _ ↦ rfl)) (fun a ha ↦ ?_)
  rw [← mark_slot] at ha
  cases ho : s.stateObjects[a]? with
  | none =>
    rw [h.kept a ho] at ha
    have := ht.isSome_of_isDirty ha
    rw [ho] at this
    cases this
  | some o =>
    have hset := h.settled a (by rw [ho]; rfl)
    rw [mark_committedSlot hset] at ha
    cases ha

theorem Reachable.tidy (h : Reachable (fun s op ↦ op.touches H s ≠ some ripemd) db s) : s.Tidy := by
  induction h with
  | new hdb hs =>
    obtain ⟨trie, -, rfl⟩ := map_eq_some_iff.mp hs
    exact .of_marks rfl (fun a ha ↦ by simp at ha)
  | reset _ hs ih =>
    obtain ⟨trie, -, rfl⟩ := map_eq_some_iff.mp hs
    exact .of_marks rfl (fun a ha ↦ by simp at ha)
  | run h hok hs ih => exact ih.run h.valid.1 hs hok
  | finalise _ hs ih => exact (finalise_some hs).tidy ih
  | commit h hs ih => exact (commit_some h.valid.1.sound hs).1.tidy ih
  | copy _ hs _ => exact (copy_some hs).tidy
  | grow _ _ _ ih => exact ih

end StateDB

end BjutEth.State
