import BjutEth.State.Roots

namespace BjutEth.State

open Std List Option Hashing Cell
open Alien (Address Hash Runtime)
open StateObject (View)

variable {C R S : Type} {H : Hashing C R S} [DecidableEq C] [DecidableEq R] [DecidableEq S]
variable {db : Database H} {s0 s1 s2 s s' : StateDB C R} {a : Address} {id : ℕ} {op : Op} {ops : List Op}

namespace StateDB

def Along (db : Database H) (P : StateDB C R → Op → Prop) : StateDB C R → List Op → Prop
  | _, [] => True
  | s, op :: ops => P s op ∧ ∀ s', s.run db op = some s' → Along db P s' ops

/-- What an operation must find for the journal to record all that it changes: a suicide
an account without contribution, and a creation no deleted object that is in the trie or
that `Commit` may still write there. -/
structure Recorded (s : StateDB C R) (op : Op) : Prop where
  suicide : ∀ a, op = .suicide a → s.getContribution a = 0
  create : ∀ a o, op.setter = some a → s.stateObjects[a]? = some o → o.deleted = true →
    s.trie[a]? = none ∧ (o.suicided = true ∨ a ∉ s.stateObjectsDirty)

/-- A cell in the place of one of `s0`: the same one, or an account that was not there and
whose remains are gone. -/
def Stands (db : Database H) (s0 : StateDB C R) (a : Address) (c : Cell C) : Prop :=
  c = s0.cell db a ∨
    c = .absent none false ∧ s0.trie[a]? = none ∧ (s0.cell db a).view? = none ∧
      ∀ o, s0.stateObjects[a]? = some o → o.suicided = true ∨ a ∉ s0.stateObjectsDirty

omit [DecidableEq S] in
theorem Stands.view? {c : Cell C} (h : Stands db s0 a c) : c.view? = (s0.cell db a).view? := by
  rcases h with rfl | ⟨rfl, -, hv, -⟩
  · rfl
  · exact hv.symm

structure Undoes (db : Database H) (s0 : StateDB C R) (es : List (Change C R)) (s : StateDB C R) :
    Prop where
  valid : s.Valid db
  trie : s.trie = s0.trie
  entries : s.journal.entries = es ++ s0.journal.entries
  cells : ∀ a, ∃ c, (s.cell db a).undoAll db s0.trie (changesOf a es) = some c ∧ Stands db s0 a c
  outside : es.foldl (fun w e ↦ e.undoOutside w) s.outside = s0.outside

omit [DecidableEq S] in
theorem Undoes.refl (h : s0.Valid db) : Undoes db s0 [] s0 :=
  ⟨h, rfl, rfl, fun a ↦ ⟨s0.cell db a, rfl, .inl rfl⟩, rfl⟩

variable {es : List (Change C R)}

theorem foldl_undoOutside_of_account (h : ∀ e ∈ es, e.account = some a) (w : Outside) :
    es.foldl (fun w e ↦ e.undoOutside w) w = w := by
  induction es with
  | nil => rfl
  | cons e es ih =>
    rw [foldl_cons, undoOutside_of_account (h e mem_cons_self)]
    exact ih (fun e' he' ↦ h e' (mem_cons_of_mem e he'))

section

variable (h : Undoes db s0 es s)

include h

theorem Undoes.acts {es' : List (Change C R)} (hv : s'.Valid db) (hacts : Acts db a s s' es')
    (hcell : ∃ c, (s'.cell db a).undoAll db s0.trie (es' ++ changesOf a es) = some c ∧ Stands db s0 a c) :
    Undoes db s0 (es' ++ es) s' := by
  refine ⟨hv, hacts.frame.trie.trans h.trie, ?_, fun b ↦ ?_, ?_⟩
  · rw [hacts.entries, h.entries, List.append_assoc]
  · rw [changesOf_append]
    by_cases hb : b = a
    · subst hb
      rw [changesOf_eq_self hacts.account]
      exact hcell
    have hnil : changesOf b es' = [] := by
      refine changesOf_eq_nil (fun e he h' ↦ hb ?_)
      exact some.inj (h'.symm.trans (hacts.account e he))
    rw [hnil, hacts.frame.cell hb]
    exact h.cells b
  · rw [foldl_append, foldl_undoOutside_of_account hacts.account, outside_of_rest hacts.frame.rest]
    exact h.outside

theorem Undoes.stands_created
    (hcrt : ∀ o, s.stateObjects[a]? = some o → o.deleted = true → s.trie[a]? = none ∧ (o.suicided = true ∨ a ∉ s.stateObjectsDirty))
    (hn : (s.cell db a).view? = none) :
    changesOf a es = [] ∧ s.trie[a]? = none ∧ Stands db s0 a (.absent none false) := by
  obtain ⟨c, hc, hst⟩ := h.cells a
  obtain ⟨left, m, hcell⟩ : ∃ left m, s.cell db a = .absent left m := by
    cases hcell : s.cell db a with
    | present v m =>
      rw [hcell] at hn
      cases hn
    | absent left m => exact ⟨left, m, rfl⟩
  have hnil : changesOf a es = [] := by
    rw [hcell] at hc
    exact eq_nil_of_undoAll_absent (by rw [hc]; rfl)
  rw [hnil] at hc
  cases hc
  have htrie : s.trie[a]? = none := by
    obtain ⟨o, -, -, hc'⟩ | ⟨acc, -, -, hc'⟩ | ⟨o, ho, hd, -⟩ | ⟨-, ht, -⟩ := cell_cases db s a
    · rw [hc'] at hn
      cases hn
    · rw [hc'] at hn
      cases hn
    · exact (hcrt o ho hd).1
    · exact ht
  refine ⟨hnil, htrie, ?_⟩
  obtain heq | ⟨-, ht, hv, ho⟩ := hst
  · refine .inr ⟨rfl, h.trie ▸ htrie, heq ▸ hn, fun o0 ho0 ↦ ?_⟩
    -- the same remains are there at the snapshot and now
    obtain ⟨o, -, -, hc'⟩ | ⟨acc, -, -, hc'⟩ | ⟨o, ho, hd, hc'⟩ | ⟨-, -, hc'⟩ := cell_cases db s a
    · rw [hc'] at hn
      cases hn
    · rw [hc'] at hn
      cases hn
    · have hd0 : o0.deleted = true := by
        by_contra hd0
        rw [cell_of_some ho0, live_of_not_deleted (Bool.eq_false_iff.mpr hd0), hc'] at heq
        cases heq
      rw [cell_of_some ho0, live_of_deleted hd0, hc'] at heq
      obtain ⟨hview, hmark⟩ := absent.inj heq
      refine (hcrt o ho hd).2.imp (fun hsu ↦ ?_) (fun hm ↦ ?_)
      · rw [← hsu]
        exact (congrArg View.suicided (some.inj hview)).symm
      · rw [← ExtTreeMap.contains_iff_mem, ← hmark]
        exact hm
    rw [cell_of_some ho0, hc'] at heq
    unfold live at heq
    split_ifs at heq
    cases (absent.inj heq).1
  · exact .inr ⟨rfl, ht, hv, ho⟩

theorem Undoes.effect (he : Effect db s op s') (hrec : s.Recorded op) :
    ∃ es', Undoes db s0 (es' ++ es) s' := by
  have hv := h.valid.effect he
  cases he with
  | @set _ a _ o es' hset opens touch =>
    refine ⟨es', h.acts hv opens.acts ?_⟩
    have hundone := opens.undone
    rw [h.trie] at hundone
    rw [undoAll_append, hundone]
    cases hcell : s.cell db a with
    | present v m =>
      have hc := h.cells a
      rw [hcell] at hc
      exact hc
    | absent left m =>
      have hn : (s.cell db a).view? = none := by
        rw [hcell]
        rfl
      obtain ⟨hnil, htrie, hst⟩ := h.stands_created (hrec.create a · hset) hn
      refine ⟨_, by rw [hnil]; rfl, ?_⟩
      rw [opened, stored, ← h.trie, htrie]
      exact hst
  | @suicide a _ v m hcell acts cell live =>
    refine ⟨_, h.acts hv acts ?_⟩
    have hzero : v.contribution = 0 := by
      have hc := hrec.suicide a rfl
      rw [getContribution_eq h.valid.sound, hcell] at hc
      exact hc
    have hundo : (s'.cell db a).undo db s0.trie (.suicide a v.suicided v.balance) = some (s.cell db a) := by
      rw [cell, hcell]
      show some (present { v with contribution := 0 } m) = _
      rw [← hzero]
    rw [singleton_append, undoAll_cons, hundo]
    exact h.cells a
  | @read _ a _ hset acts cell hsui =>
    refine ⟨_, h.acts hv acts ?_⟩
    rw [cell]
    exact h.cells a
  | outside es' hset hsui objects marks keeps journal account undone =>
    refine ⟨es', hv, keeps.trie.trans h.trie, ?_, fun a ↦ ?_, ?_⟩
    · rw [journal, entries_foldr_append, h.entries, List.append_assoc]
    · have hnil : changesOf a es' = [] := by
        refine changesOf_eq_nil (fun e he h' ↦ ?_)
        rw [account e he] at h'
        cases h'
      rw [changesOf_append, hnil, cell_of_same objects marks keeps.trie]
      exact h.cells a
    · rw [foldl_append, undone]
      exact h.outside

theorem Undoes.revert {n : ℕ} (hn : s0.journal.entries.length ≤ n) (hs : s.revert n = some s') :
    ∃ es', Undoes db s0 es' s' ∧ s.Keeps s' ∧ es' = es.drop (s.journal.entries.length - n) := by
  obtain ⟨s1, hs1, hv, hcells, hout, hent, -, hk⟩ := revert_spec h.valid n
  cases hs1.symm.trans hs
  set k := s.journal.entries.length - n with hk'
  have hle : k ≤ es.length := by
    have hl := congrArg List.length h.entries
    rw [length_append] at hl
    omega
  have htake : s.journal.entries.take k = es.take k := by
    rw [h.entries, take_append_of_le_length hle]
  have hdrop : s.journal.entries.drop k = es.drop k ++ s0.journal.entries := by
    rw [h.entries, drop_append_of_le_length hle]
  have hspl : es = es.take k ++ es.drop k := (take_append_drop k es).symm
  refine ⟨es.drop k, ⟨hv, hk.trie.trans h.trie, hent.trans hdrop, fun a ↦ ?_, ?_⟩, hk, rfl⟩
  · obtain ⟨c, hc, hst⟩ := h.cells a
    refine ⟨c, ?_, hst⟩
    have hc' := hcells a
    rw [htake, h.trie] at hc'
    rw [hspl, changesOf_append, undoAll_append, hc'] at hc
    exact hc
  · rw [hout, htake, ← foldl_append, ← hspl]
    exact h.outside

end

def Holds (s0 : StateDB C R) (s : StateDB C R) : Prop :=
  ∃ later, s.validRevisions =
      s0.validRevisions ++ ⟨s0.nextRevisionId, s0.journal.entries.length⟩ :: later ∧
    ∀ r ∈ later, s0.journal.entries.length ≤ r.journalIndex

omit [DecidableEq C] [DecidableEq R] in
theorem Holds.of_keeps (h : Holds s0 s) (hk : s.Keeps s') : Holds s0 s' := by
  unfold Holds
  rw [hk.validRevisions]
  exact h

omit [DecidableEq C] [DecidableEq R] in
theorem Holds.nested (h : Holds s0 s) (hs : s.validRevisions.Pairwise (fun r r' ↦ r.id < r'.id))
    {before after : List Revision} {revision : Revision}
    (hspl : s.validRevisions = before ++ revision :: after)
    (hid : s0.nextRevisionId < revision.id) (hb : s'.validRevisions = before) :
    Holds s0 s' ∧ s0.journal.entries.length ≤ revision.journalIndex := by
  obtain ⟨later, heq, hlater⟩ := h
  obtain ⟨mid, hmid, hmid'⟩ | ⟨mid, hmid, hmid'⟩ := append_eq_append_iff.mp (heq.symm.trans hspl)
  · cases mid with
    | nil =>
      obtain ⟨rfl, -⟩ := List.cons.inj hmid'
      exact absurd hid (Nat.lt_irrefl _)
    | cons r mid =>
      obtain ⟨rfl, rfl⟩ := List.cons.inj hmid'
      refine ⟨⟨mid, hb.trans hmid, fun r hr ↦ hlater r (mem_append_left _ hr)⟩, ?_⟩
      exact hlater revision (mem_append_right _ mem_cons_self)
  -- the revision would be one of those from before the snapshot
  cases mid with
  | nil =>
    obtain ⟨rfl, -⟩ := List.cons.inj hmid'
    exact absurd hid (Nat.lt_irrefl _)
  | cons r mid =>
    obtain ⟨rfl, -⟩ := List.cons.inj hmid'
    rw [heq] at hs
    have hlt := (pairwise_append.mp hs).2.2 revision
      (by rw [hmid]; exact mem_append_right _ mem_cons_self) _ mem_cons_self
    exact absurd hlt (Nat.lt_asymm hid)

omit [DecidableEq S] in
theorem Effect.keeps (h : Effect db s op s') : s.Keeps s' := by
  cases h with
  | set hset opens touch => exact opens.acts.frame.keeps
  | suicide hcell acts cell live => exact acts.frame.keeps
  | read hset acts cell hsui => exact acts.frame.keeps
  | outside es hset hsui objects marks keeps journal account undone => exact keeps

theorem Undoes.run {es : List (Change C R)} (h : Undoes db s0 es s) (hh : Holds s0 s)
    (hrun : s.run db op = some s') (hrec : s.Recorded op)
    (hnes : ∀ j, op = .revertToSnapshot j → s0.nextRevisionId < j) :
    (∃ es', Undoes db s0 es' s') ∧ Holds s0 s' := by
  have hv := h.valid.run hrun
  by_cases hs : op = .snapshot
  · subst hs
    cases hrun
    refine ⟨⟨es, hv, h.trie, h.entries, h.cells, h.outside⟩, ?_⟩
    obtain ⟨later, heq, hlater⟩ := hh
    refine ⟨later ++ [⟨s.nextRevisionId, s.journal.entries.length⟩], ?_, fun r hr ↦ ?_⟩
    · show s.validRevisions ++ _ = _
      rw [heq, List.append_assoc, cons_append]
    rcases mem_append.mp hr with hr | hr
    · exact hlater r hr
    obtain rfl := mem_singleton.mp hr
    rw [h.entries, length_append]
    exact Nat.le_add_left _ _
  by_cases hr : ∃ revid, op = .revertToSnapshot revid
  · obtain ⟨revid, rfl⟩ := hr
    obtain ⟨before, revision, after, s1, hspl, rfl, hs1, rfl⟩ := revertToSnapshot_some hrun
    have hkeep : ∀ s' : StateDB C R, s'.validRevisions = before → Holds s0 s' ∧ _ :=
      fun s' ↦ hh.nested h.valid.sorted hspl (hnes _ rfl)
    obtain ⟨hh', hle⟩ := hkeep { s1 with validRevisions := before } rfl
    obtain ⟨es', h', -, -⟩ := h.revert hle hs1
    exact ⟨⟨es', hv, h'.trie, h'.entries, h'.cells, h'.outside⟩, hh'⟩
  have he := run_effect h.valid.sound hrun hs (fun revid h' ↦ hr ⟨revid, h'⟩)
  obtain ⟨es', h'⟩ := h.effect he hrec
  exact ⟨⟨_, h'⟩, hh.of_keeps he.keeps⟩

theorem Undoes.runAll (h : Undoes db s0 es s) (hh : Holds s0 s) (hrun : s.runAll db ops = some s')
    (hrec : Along db Recorded s ops) (hnes : ∀ j, Op.revertToSnapshot j ∈ ops → s0.nextRevisionId < j) :
    (∃ es', Undoes db s0 es' s') ∧ Holds s0 s' := by
  induction ops generalizing s es with
  | nil =>
    cases hrun
    exact ⟨⟨es, h⟩, hh⟩
  | cons op ops ih =>
    obtain ⟨s1, hs1, hrun⟩ := bind_eq_some_iff.mp hrun
    obtain ⟨⟨es', h'⟩, hh'⟩ := h.run hh hs1 hrec.1 (fun j hj ↦ hnes j (hj ▸ mem_cons_self))
    exact ih h' hh' hrun (hrec.2 s1 hs1) (fun j hj ↦ hnes j (mem_cons_of_mem op hj))

theorem tidy_runAll (h : s.Tidy) (hv : s.Valid db) (hrun : s.runAll db ops = some s')
    (ht : Along db (fun s op ↦ op.touches H s ≠ some ripemd) s ops) : s'.Tidy := by
  induction ops generalizing s with
  | nil =>
    cases hrun
    exact h
  | cons op ops ih =>
    obtain ⟨s1, hs1, hrun⟩ := bind_eq_some_iff.mp hrun
    exact ih (h.run hv hs1 ht.1) (hv.run hs1) hrun (ht.2 s1 hs1)

theorem Undoes.revertToSnapshot (h : Undoes db s0 es s) (hh : Holds s0 s) :
    ∃ s', s.revertToSnapshot s0.nextRevisionId = some s' ∧ Undoes db s0 [] s' := by
  obtain ⟨later, heq, hlater⟩ := hh
  have hsort := h.valid.sorted
  rw [heq] at hsort
  have hbel : ∀ r ∈ s0.validRevisions, r.id < s0.nextRevisionId :=
    fun r hr ↦ (pairwise_append.mp hsort).2.2 r hr _ mem_cons_self
  have hidx : s.validRevisions.findIdx (fun r ↦ s0.nextRevisionId ≤ r.id) = s0.validRevisions.length := by
    have hnone : s0.validRevisions.findIdx (fun r ↦ decide (s0.nextRevisionId ≤ r.id)) =
        s0.validRevisions.length := by
      refine findIdx_eq_length.mpr (fun r hr ↦ ?_)
      exact decide_eq_false (Nat.not_le_of_lt (hbel r hr))
    rw [heq, findIdx_append, if_neg (by rw [hnone]; exact Nat.lt_irrefl _), findIdx_cons]
    simp
  have hget : s.validRevisions[s0.validRevisions.length]? =
      some ⟨s0.nextRevisionId, s0.journal.entries.length⟩ := by
    rw [heq]
    simp
  obtain ⟨s1, hs1, -⟩ := revert_spec h.valid s0.journal.entries.length
  obtain ⟨es', h', -, hes'⟩ := h.revert (Nat.le_refl _) hs1
  have hnil : es' = [] := by
    rw [hes', h.entries, length_append, Nat.add_sub_cancel, drop_length]
  subst hnil
  have hrev : s.revertToSnapshot s0.nextRevisionId =
      some { s1 with validRevisions := s.validRevisions.take s0.validRevisions.length } := by
    unfold StateDB.revertToSnapshot
    simp only [hidx, hget, bind_eq_bind, bind_some, ne_eq, not_true_eq_false, if_false, hs1]
  have hrun : s.run db (.revertToSnapshot s0.nextRevisionId) = some _ := hrev
  have hv := h.valid.run hrun
  exact ⟨_, hrev, hv, h'.trie, h'.entries, h'.cells, h'.outside⟩

theorem Undoes.flushed {f : Bool} (h : Undoes db s0 [] s) (h0 : s0.Valid db) (ht0 : s0.Tidy) (ht : s.Tidy)
    (a : Address) : s.flushed db f a = s0.flushed db f a := by
  obtain ⟨c, hc, hst⟩ := h.cells a
  cases hc
  have hdirties : s.journal.dirties = s0.journal.dirties := by
    refine ExtTreeMap.ext_getElem? (fun a ↦ ?_)
    rw [ht.counts a, ht0.counts a, h.entries, nil_append]
  obtain hcell | ⟨hcell, htrie, hv, hleft⟩ := hst
  · refine flushed_congr h0.sound h.valid.sound ht0 ht h.trie ?_ hcell
    have hmark : s.stateObjectsDirty.contains a = s0.stateObjectsDirty.contains a := by
      obtain ⟨_, -, -, hc⟩ | ⟨_, -, -, hc⟩ | ⟨_, -, -, hc⟩ | ⟨-, -, hc⟩ := cell_cases db s0 a <;>
        obtain ⟨_, -, -, hc'⟩ | ⟨_, -, -, hc'⟩ | ⟨_, -, -, hc'⟩ | ⟨-, -, hc'⟩ := cell_cases db s a <;>
        rw [hc, hc'] at hcell <;> injection hcell
    rw [isDirty, isDirty, hmark, hdirties]
  have hnone : s.stateObjects[a]? = none := by
    obtain ⟨_, -, -, hc⟩ | ⟨_, -, -, hc⟩ | ⟨_, -, -, hc⟩ | ⟨hn, -, -⟩ := cell_cases db s a
    · rw [hc] at hcell
      cases hcell
    · rw [hc] at hcell
      cases hcell
    · rw [hc] at hcell
      cases (absent.inj hcell).1
    · exact hn
  rw [flushed_of_none hnone, h.trie, htrie]
  obtain ⟨_, -, -, hc⟩ | ⟨_, -, -, hc⟩ | ⟨o, ho, hd, -⟩ | ⟨hn, -, -⟩ := cell_cases db s0 a
  · rw [hc] at hv
    cases hv
  · rw [hc] at hv
    cases hv
  · -- the remains of a deleted object are removed again, or not flushed at all
    rw [flushed_of_some ho]
    obtain hsu | hm := hleft o ho
    · rw [StateObject.removed, hsu]
      rfl
    have hnd : s0.isDirty a = false := by
      rw [isDirty, Bool.or_eq_false_iff]
      refine ⟨Bool.eq_false_iff.mpr (fun h' ↦ hm (ExtTreeMap.contains_iff_mem.mp h')), ?_⟩
      refine Bool.eq_false_iff.mpr (fun h' ↦ ?_)
      rw [h0.sound.dirty a o (ExtTreeMap.contains_iff_mem.mp h') ho] at hd
      cases hd
    rw [hnd, htrie]
    simp only [Bool.false_eq_true, if_false, ite_self]
  · rw [flushed_of_none hn, htrie]

/-- A revert to a snapshot restores every account, the refund, the logs and the preimages,
and the root of a later commit, if the operations since then record what they change. -/
theorem revertToSnapshot_restores (h0 : Reachable (fun _ _ ↦ True) db s0) (hsnap : s0.snapshot = (id, s1))
    (hrun : s1.runAll db ops = some s2) (hnes : ∀ j, Op.revertToSnapshot j ∈ ops → id < j)
    (hrec : Along db Recorded s1 ops) :
    ∃ s3, s2.revertToSnapshot id = some s3 ∧ (∀ a, Alike db s0 db s3 a) ∧ s3.refund = s0.refund ∧
      s3.getLogs = s0.getLogs ∧ s3.preimages = s0.preimages ∧
      (Reachable (fun s op ↦ op.touches H s ≠ some ripemd) db s0 →
        Along db (fun s op ↦ op.touches H s ≠ some ripemd) s1 ops →
        ∀ (rt rt' : Runtime) f, (s3.commit rt' db f).map (·.1) = (s0.commit rt db f).map (·.1)) := by
  have hv0 := h0.valid.1
  cases hsnap
  have hstep : s0.run db .snapshot = some s0.snapshot.2 := rfl
  have hv1 := hv0.run hstep
  have hstart : Undoes db s0 [] s0.snapshot.2 :=
    ⟨hv1, rfl, rfl, (Undoes.refl hv0).cells, rfl⟩
  obtain ⟨⟨es, h⟩, hh⟩ := hstart.runAll ⟨[], rfl, by simp⟩ hrun hrec hnes
  obtain ⟨s3, hs3, h3⟩ := h.revertToSnapshot hh
  refine ⟨s3, hs3, fun a ↦ ?_, congrArg Outside.refund h3.outside, congrArg Outside.logs h3.outside,
    congrArg Outside.preimages h3.outside, fun hr ht rt rt' f ↦ ?_⟩
  · obtain ⟨c, hc, hst⟩ := h3.cells a
    cases hc
    exact (alike_iff hv0.sound h3.valid.sound).mpr hst.view?
  have ht0 : s0.Tidy := hr.tidy
  have ht1 : s0.snapshot.2.Tidy := ⟨ht0.counts, ht0.marks, ht0.live, ht0.fresh⟩
  have ht2 := tidy_runAll ht1 hv1 hrun ht
  have hback : s2.run db (.revertToSnapshot s0.nextRevisionId) = some s3 := hs3
  have ht3 := ht2.run h.valid hback (fun h' ↦ (by cases h'))
  exact commit_congr rt rt' hv0.sound h3.valid.sound (h3.flushed hv0 ht0 ht3)

/-- An account is created, and destroyed after a nested snapshot. -/
theorem blank_restored :
    ∃ s3 : StateDB Bytes StorageTrie, ((blank.snapshot.2.runAll blankDb
        [.setNonce 7 1, .snapshot, .suicide 7, .revertToSnapshot 1]).bind (·.revertToSnapshot 0)) = some s3 ∧
      (∀ a, Alike blankDb blank Database.empty s3 a) ∧
      ∀ rt rt' f, (s3.commit rt' blankDb f).map (·.1) =
        (blank.commit rt blankDb f).map (·.1) := by
  obtain ⟨s2, hs2⟩ := isSome_iff_exists.mp (by decide +kernel :
    (blank.snapshot.2.runAll blankDb
      [.setNonce 7 1, .snapshot, .suicide 7, .revertToSnapshot 1]).isSome)
  have hrec : Along blankDb Recorded blank.snapshot.2
      [.setNonce 7 1, .snapshot, .suicide 7, .revertToSnapshot 1] := by
    refine ⟨⟨fun a h ↦ (by cases h), fun a o _ ho ↦ ?_⟩, fun s hs ↦ ⟨⟨fun a h ↦ (by cases h), fun a o h ↦ (by cases h)⟩,
      fun s' hs' ↦ ⟨⟨fun a h ↦ ?_, fun a o h ↦ (by cases h)⟩,
        fun s'' _ ↦ ⟨⟨fun a h ↦ (by cases h), fun a o h ↦ (by cases h)⟩, fun _ _ ↦ trivial⟩⟩⟩⟩
    · simp [blank, snapshot] at ho
    cases hs
    cases hs'
    obtain rfl := Op.suicide.inj h
    decide +kernel
  have htouch : Along blankDb
      (fun s op ↦ op.touches ideal s ≠ some ripemd) blank.snapshot.2
      [.setNonce 7 1, .snapshot, .suicide 7, .revertToSnapshot 1] :=
    ⟨(fun h ↦ by cases h), fun _ _ ↦ ⟨(fun h ↦ by cases h), fun _ _ ↦ ⟨(fun h ↦ by cases h), fun _ _ ↦ ⟨(fun h ↦ by cases h), fun _ _ ↦ trivial⟩⟩⟩⟩
  have hnes : ∀ j, Op.revertToSnapshot j ∈ [.setNonce 7 1, .snapshot, .suicide 7, .revertToSnapshot 1] →
      0 < j := by
    intro j hj
    simp only [mem_cons, reduceCtorEq, Op.revertToSnapshot.injEq, not_mem_nil, false_or, or_false] at hj
    exact hj ▸ Nat.one_pos
  obtain ⟨s3, hs3, hal, -, -, -, hroot⟩ :=
    revertToSnapshot_restores (reachable_blank _) rfl hs2 hnes hrec
  exact ⟨s3, by rw [hs2]; exact hs3, hal, hroot (reachable_blank _) htouch⟩

/-- `Suicide` clears the contribution and its journal entry does not hold it: the revert
leaves an account that had a contribution of five with none. -/
theorem suicide_revert_loses_contribution :
    ∃ s0 s1 s2 : StateDB Bytes StorageTrie,
      Reachable (fun _ _ ↦ True) blankDb s0 ∧
      s0.getContribution 7 = 5 ∧ s0.snapshot = (0, s1) ∧
      s1.runAll blankDb [.suicide 7] = some s2 ∧
      (s2.revertToSnapshot 0).map (·.getContribution 7) = some 0 := by
  have h0 : blank.run blankDb (.setContribution 7 5) =
      some (setContribution ideal blank 7 5) := rfl
  refine ⟨setContribution ideal blank 7 5, _, _, (reachable_blank _).run trivial h0, ?_, rfl, rfl, ?_⟩
  · decide +kernel
  · decide +kernel

end StateDB

end BjutEth.State
