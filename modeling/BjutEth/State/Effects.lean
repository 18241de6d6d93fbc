import BjutEth.State.Cells

namespace BjutEth.State

open Std List StateObject Option GoMap
open Alien (Address Hash Runtime)
open StateObject (View)

variable {C R S : Type} {H : Hashing C R S} [DecidableEq C] [DecidableEq R] [DecidableEq S]
variable {db : Database H} {s s1 s2 s' : StateDB C R} {a b : Address} {o o' : StateObject C R}

def Op.setter : Op → Option Address
  | .setBalance a _ | .addBalance a _ | .subBalance a _ | .setContribution a _ | .addContribution a _
  | .subContribution a _ | .setNonce a _ | .setCode a _ | .setState a _ _ | .createAccount a => some a
  | _ => none

def Op.touches (H : Hashing C R S) (s : StateDB C R) : Op → Option Address
  | .addBalance a amount | .addContribution a amount =>
    if amount = 0 ∧ s.empty H a = true then some a else none
  | _ => none

/-- The cell of an account once an operation has opened it for writing and what it wrote
is undone again: an account that had to be created is gone. -/
def Cell.opened (db : Database H) (trie : Accounts C R) (a : Address) : Cell C → Cell C
  | .present v m => .present v m
  | .absent _ _ => .stored db trie a false

namespace StateDB

/-- A state that comes from another one by changes of one account. -/
structure Acts (db : Database H) (a : Address) (s s' : StateDB C R) (es : List (Change C R)) : Prop where
  sound : s'.Sound db
  frame : Frame a s s'
  entries : s'.journal.entries = es ++ s.journal.entries
  account : ∀ e ∈ es, e.account = some a
  journal : Change.touch ripemd ∉ es → s'.journal = es.foldr (fun e j ↦ j.append e) s.journal
  live : s.stateObjects[a]?.isSome → s'.stateObjects[a]?.isSome
  marks : s'.stateObjectsDirty = s.stateObjectsDirty

omit [DecidableEq S] in
theorem Acts.refl (h : s.Sound db) (a : Address) : Acts db a s s [] :=
  ⟨h, .refl a s, rfl, by simp, fun _ ↦ rfl, id, rfl⟩

variable {es : List (Change C R)} {e : Change C R} {op : Op}

omit [DecidableEq S] in
theorem Acts.trans {es' : List (Change C R)} (h : Acts db a s s1 es) (h' : Acts db a s1 s2 es') :
    Acts db a s s2 (es' ++ es) := by
  refine ⟨h'.sound, h.frame.trans h'.frame, ?_, fun e he ↦ ?_, fun ht ↦ ?_, fun hl ↦ h'.live (h.live hl),
    h'.marks.trans h.marks⟩
  · rw [h'.entries, h.entries, List.append_assoc]
  · exact (mem_append.mp he).elim (h'.account e) (h.account e)
  rw [foldr_append, h'.journal (fun h'' ↦ ht (mem_append_left _ h'')),
    h.journal (fun h'' ↦ ht (mem_append_right _ h''))]

/-- The account `a` of `s` is opened in `s'`, as an object that is live there, and undoing
the changes made for it leaves it as it was. An account is created first, if it was not
there. -/
structure Opens (db : Database H) (a : Address) (s s' : StateDB C R) (o : StateObject C R)
    (es : List (Change C R)) : Prop where
  acts : Acts db a s s' es
  live : s'.stateObjects[a]? = some o
  usable : o.deleted = false
  undone : (s'.cell db a).undoAll db s.trie es = some ((s.cell db a).opened db s.trie a)
  created : ∀ b, Change.createObject b ∈ es → (s.cell db a).view? = none
  order : es.Pairwise (fun newer _ ↦ ∀ b, newer ≠ .createObject b)

omit [DecidableEq S] in
theorem Opens.coherent (h : Opens db a s s' o es) : o.Coherent db :=
  h.acts.sound.objects a o h.live

theorem Opens.cell (h : Opens db a s s' o es) :
    s'.cell db a = .present (o.view db) (s'.stateObjectsDirty.contains a) := by
  rw [cell_of_some h.live, Cell.live_of_not_deleted h.usable]

/-- The object read by `getStateObject` is opened without a change. -/
theorem getStateObject_opens (h : s.Sound db) (a : Address) :
    (s.getStateObject a = (none, s) ∧ (s.cell db a).view? = none) ∨
      ∃ o s1, s.getStateObject a = (some o, s1) ∧ Opens db a s s1 o [] ∧
        s1.cell db a = s.cell db a := by
  rcases getStateObject_spec h a with hn | ⟨o, s1, hget, hs1, hfr, ho, hd, hj, hm, hc⟩
  · exact .inl hn
  have hcell : s1.cell db a = s.cell db a := by
    rw [cell_of_some ho, Cell.live_of_not_deleted hd, hm, hc]
  have hacts : Acts db a s s1 [] := by
    refine ⟨hs1, hfr, by rw [hj]; rfl, by simp, fun _ ↦ hj, fun _ ↦ ?_, hm⟩
    rw [ho]
    rfl
  refine .inr ⟨o, s1, hget, ⟨hacts, ho, hd, ?_, by simp, .nil⟩, hcell⟩
  rw [hcell, hc]
  rfl

theorem acts_append (h : s.Sound db) (he : e.Sound db s.trie) (hacc : e.account = some a)
    (hd : ∀ o, s.stateObjects[a]? = some o → o.deleted = false) : Acts db a s (s.append e) [e] := by
  refine ⟨h.append he (fun b o hb ho ↦ ?_), frame_append s a e, entries_append s e,
    fun _ he' ↦ mem_singleton.mp he' ▸ hacc, fun _ ↦ rfl, id, rfl⟩
  have hba : some b = some a := (account_of_dirtied hb).symm.trans hacc
  exact hd o (some.inj hba ▸ ho)

theorem acts_setStateObject (h : s.Sound db) (ho : o.Coherent db) (hd : o.deleted = false) :
    Acts db a s (s.setStateObject a o) [] := by
  refine ⟨h.setStateObject ho hd, frame_setStateObject s a o, rfl, by simp, fun _ ↦ rfl,
    fun _ ↦ ?_, rfl⟩
  rw [getElem?_setStateObject]
  rfl

theorem cell_write (s : StateDB C R) (a : Address) (e : Change C R) (hd : o.deleted = false) :
    (s.write a e o).cell db a = .present (o.view db) (s.stateObjectsDirty.contains a) := by
  rw [write, cell_of_some (getElem?_setStateObject (s.append e) a o), Cell.live_of_not_deleted hd]
  rfl

theorem acts_write (h : s.Sound db) (he : e.Sound db s.trie) (hacc : e.account = some a)
    (ho : o.Coherent db) (hd : o.deleted = false) : Acts db a s (s.write a e o) [e] := by
  have hfr : Frame a s (s.write a e o) :=
    (frame_append s a e).trans (frame_setStateObject (s.append e) a o)
  have hent : (s.write a e o).journal.entries = e :: s.journal.entries := entries_append s e
  refine ⟨h.of_frame hfr (fun o' ho' ↦ ?_) (fun acc hacc' ↦ ?_) (fun e' he' ↦ ?_) (fun b hb hb' ↦ ?_), hfr,
    hent, fun _ he' ↦ mem_singleton.mp he' ▸ hacc, fun _ ↦ rfl, fun _ ↦ ?_, rfl⟩
  · rw [write, getElem?_setStateObject] at ho'
    cases ho'
    exact ⟨ho, hd⟩
  · refine (h.accounts a acc hacc').imp_right ?_
    rintro ⟨-, -, -, hm⟩
    exact ⟨o, getElem?_setStateObject _ a o, hd, hm⟩
  · rw [hent] at he'
    rcases mem_cons.mp he' with rfl | he'
    · exact he
    · exact h.changes e' he'
  · refine (mem_dirties_append hb').resolve_right (fun h' ↦ hb ?_)
    exact some.inj ((account_of_dirtied h').symm.trans hacc)
  · rw [write, getElem?_setStateObject]
    rfl

omit [DecidableEq S] in
theorem Cell.undo_present (hne : ∀ a, e ≠ .createObject a) (trie : Accounts C R) (v : View C) (m : Bool) :
    (Cell.present v m).undo db trie e = some (.present (e.undoView db v) m) := by
  cases e with
  | createObject a => exact absurd rfl (hne a)
  | resetObject a prev | suicide a prev prevbalance | balance a prev | contribution a prev
  | nonce a prev | storage a key prevalue | code a prevcode prevhash | touch a
  | refund prev | addLog txhash | addPreimage hash => rfl

theorem Opens.write {es : List (Change C R)} (h : Opens db a s s1 o es) {e : Change C R}
    (he : e.Sound db s.trie) (hacc : e.account = some a) (hne : ∀ a, e ≠ .createObject a)
    (ho : o'.Coherent db) (hd : o'.deleted = false) (hundo : e.undoView db (o'.view db) = o.view db) :
    Opens db a s (s1.write a e o') o' (e :: es) := by
  have he1 : e.Sound db s1.trie := h.acts.frame.trie ▸ he
  refine ⟨h.acts.trans (acts_write h.acts.sound he1 hacc ho hd),
    getElem?_setStateObject (s1.append e) a o', hd, ?_, fun b hb ↦ ?_,
    pairwise_cons.mpr ⟨fun _ _ ↦ hne, h.order⟩⟩
  · rw [cell_write s1 a e hd, Cell.undoAll, foldlM_cons, Cell.undo_present hne, hundo, ← h.cell]
    exact h.undone
  rcases mem_cons.mp hb with hb | hb
  · exact absurd hb.symm (hne b)
  · exact h.created b hb

theorem Opens.read {es : List (Change C R)} (h : Opens db a s s1 o es) (ho : o'.Coherent db)
    (hd : o'.deleted = false) (hv : o'.view db = o.view db) :
    Opens db a s (s1.setStateObject a o') o' es := by
  have hcell : (s1.setStateObject a o').cell db a = s1.cell db a := by
    rw [cell_of_some (getElem?_setStateObject s1 a o'), Cell.live_of_not_deleted hd, hv, h.cell]
    rfl
  exact ⟨h.acts.trans (acts_setStateObject h.acts.sound ho hd), getElem?_setStateObject s1 a o', hd,
    by rw [hcell]; exact h.undone, h.created, h.order⟩

omit [DecidableEq C] [DecidableEq S] in
theorem coherent_new : (newObject (Account.new H)).Coherent db where
  cached k v h := by simp [newObject] at h
  clean k v h := by simp [newObject] at h
  hash_code c h := by cases h
  code_stored := .inl rfl
  root_stored _ := ⟨.empty, rfl⟩
  noErr := rfl

theorem opens_create (h : s.Sound db) (hn : (s.cell db a).view? = none) :
    Opens db a s (s.write a (.createObject a) (newObject (.new H))) (newObject (.new H))
      [.createObject a] := by
  have he : (Change.createObject a : Change C R).Sound db s.trie := by
    intro acc hacc
    refine (h.accounts a acc hacc).resolve_right ?_
    rintro ⟨o, ho, hd, -⟩
    rw [cell_of_some ho, Cell.live_of_not_deleted hd] at hn
    cases hn
  refine ⟨acts_write h he rfl coherent_new rfl, getElem?_setStateObject _ a _, rfl, ?_, fun _ _ ↦ hn,
    pairwise_singleton _ _⟩
  rw [cell_write s a (.createObject a) rfl]
  cases hcell : s.cell db a with
  | present v m =>
    rw [hcell] at hn
    cases hn
  | absent left m => rfl

theorem getOrNewStateObject_spec (h : s.Sound db) (a : Address) :
    ∃ o s1 es, s.getOrNewStateObject H a = (o, s1) ∧ Opens db a s s1 o es ∧
      (∀ b, Change.touch b ∉ es) ∧ s.empty H a = o.empty H := by
  unfold getOrNewStateObject empty
  rcases getStateObject_opens h a with ⟨hget, hn⟩ | ⟨o, s1, hget, hop, -⟩
  · refine ⟨newObject (.new H), _, [.createObject a], ?_, opens_create h hn, ?_, ?_⟩
    · simp only [hget, createObject]
      rfl
    · simp
    · rw [hget]
      simp [StateObject.empty, newObject, Account.new]
  · exact ⟨o, s1, [], by rw [hget], hop, by simp, by rw [hget]; rfl⟩

/-- What an operation other than a snapshot or a revert does to the accounts. -/
inductive Effect (db : Database H) (s : StateDB C R) : Op → StateDB C R → Prop
  | set {op : Op} {a : Address} {s' : StateDB C R} {o : StateObject C R} {es : List (Change C R)}
      (hset : op.setter = some a) (opens : Opens db a s s' o es)
      (touch : ∀ b, Change.touch b ∈ es ↔ op.touches H s = some b) : Effect db s op s'
  | suicide {a : Address} {s' : StateDB C R} {v : View C} {m : Bool} (hcell : s.cell db a = .present v m)
      (acts : Acts db a s s' [.suicide a v.suicided v.balance])
      (cell : s'.cell db a = .present { v with balance := 0, contribution := 0, suicided := true } m)
      (live : s'.stateObjects[a]?.isSome) : Effect db s (.suicide a) s'
  | read {op : Op} {a : Address} {s' : StateDB C R} (hset : op.setter = none)
      (acts : Acts db a s s' []) (cell : s'.cell db a = s.cell db a)
      (hsui : ∀ b, op = .suicide b → a = b ∧ (s.cell db a).view? = none) : Effect db s op s'
  | outside {op : Op} {s' : StateDB C R} (es : List (Change C R)) (hset : op.setter = none)
      (hsui : ∀ b, op ≠ .suicide b) (objects : s'.stateObjects = s.stateObjects)
      (marks : s'.stateObjectsDirty = s.stateObjectsDirty) (keeps : s.Keeps s')
      (journal : s'.journal = es.foldr (fun e j ↦ j.append e) s.journal)
      (account : ∀ e ∈ es, e.account = none)
      (undone : es.foldl (fun w e ↦ e.undoOutside w) s'.outside = s.outside) : Effect db s op s'

omit [DecidableEq S] in
theorem Opens.effect (h : Opens db a s s' o es) (hset : op.setter = some a) (hes : ∀ b, Change.touch b ∉ es)
    (ht : op.touches H s = none) : Effect db s op s' :=
  .set hset h (fun b ↦ ⟨fun hb ↦ absurd hb (hes b), fun hb ↦ by rw [ht] at hb; cases hb⟩)

section

variable (h : Opens db a s s1 o es)

include h

theorem Opens.write_effect (hes : ∀ b, Change.touch b ∉ es)
    (hset : op.setter = some a) (ht : op.touches H s = none) (he : e.Sound db s.trie)
    (hacc : e.account = some a) (hne : ∀ a, e ≠ .createObject a) (hnt : ∀ a, e ≠ .touch a)
    (ho : o'.Coherent db) (hd : o'.deleted = false) (hundo : e.undoView db (o'.view db) = o.view db) :
    Effect db s op (s1.write a e o') := by
  refine (h.write he hacc hne ho hd hundo).effect hset (fun b hb ↦ ?_) ht
  rcases mem_cons.mp hb with hb | hb
  · exact hnt b hb.symm
  · exact hes b hb

theorem touch_effect (hes : ∀ b, Change.touch b ∉ es) (hset : op.setter = some a)
    (ht : op.touches H s = some a) : Effect db s op (s1.touch a) := by
  have hcell : (s1.touch a).cell db a = s1.cell db a := by
    unfold touch
    split_ifs <;> exact cell_of_same rfl rfl rfl a
  have hacts : Acts db a s1 (s1.touch a) [.touch a] := by
    have hd : ∀ o', s1.stateObjects[a]? = some o' → o'.deleted = false := by
      intro o' ho'
      rw [h.live] at ho'
      exact some.inj ho' ▸ h.usable
    have ha : Acts db a s1 (s1.append (.touch a)) [.touch a] := acts_append h.acts.sound trivial rfl hd
    unfold touch
    split_ifs with hrip
    · refine ⟨ha.sound.of_same rfl rfl rfl ha.sound.changes (fun b o' hb ho' ↦ ?_),
        ⟨ha.frame.objects, ha.frame.marks, rfl⟩, ha.entries, ha.account, fun ht' ↦ absurd ?_ ht', id, rfl⟩
      · simp only [Journal.dirty, mem_insert] at hb
        rcases hb with rfl | hb
        · exact hd o' ho'
        · exact ha.sound.dirty b o' hb ho'
      · rw [hrip]
        exact mem_singleton_self _
    · exact ha
  have hlive : (s1.touch a).stateObjects[a]? = some o := by
    unfold touch
    split_ifs <;> exact h.live
  refine .set hset ⟨h.acts.trans hacts, hlive, h.usable, ?_, fun b hb ↦ ?_,
    pairwise_cons.mpr ⟨by simp, h.order⟩⟩ (fun b ↦ ?_)
  · rw [singleton_append, Cell.undoAll, foldlM_cons, hcell, h.cell]
    show Cell.undoAll db s.trie es (.present (o.view db) _) = _
    rw [← h.cell]
    exact h.undone
  · rcases mem_cons.mp hb with hb | hb
    · cases hb
    · exact h.created b hb
  rw [ht, singleton_append, mem_cons]
  refine ⟨fun hb ↦ ?_, fun hb ↦ .inl ?_⟩
  · rcases hb with hb | hb
    · rw [Change.touch.inj hb]
    · exact absurd hb (hes b)
  · rw [some.inj hb]

theorem add_effect (hes : ∀ b, Change.touch b ∉ es) (hset : op.setter = some a)
    {amount : ℤ} (ht : op.touches H s = if amount = 0 ∧ s.empty H a = true then some a else none)
    (hnil : s.empty H a = o.empty H) {s2 : StateDB C R}
    (hw : amount ≠ 0 → op.touches H s = none → Effect db s op s2) :
    Effect db s op (if amount = 0 then if o.empty H then s1.touch a else s1 else s2) := by
  split_ifs with h0 he
  · exact touch_effect h hes hset (by rw [ht, if_pos ⟨h0, hnil.trans he⟩])
  · exact h.effect hset hes (by rw [ht, if_neg (fun h' ↦ he (hnil.symm.trans h'.2))])
  · exact hw h0 (by rw [ht, if_neg (fun h' ↦ h0 h'.1)])

end

omit [DecidableEq C] [DecidableEq R] in
theorem setStateObject_setStateObject (s : StateDB C R) (a : Address) (o o' : StateObject C R) :
    (s.setStateObject a o).setStateObject a o' = s.setStateObject a o' := by
  have he : (s.stateObjects.insert a o).insert a o' = s.stateObjects.insert a o' := by
    refine ExtTreeMap.ext_getElem? (fun b ↦ ?_)
    simp only [ExtTreeMap.getElem?_insert]
    split_ifs <;> rfl
  unfold setStateObject
  simp only [he]

theorem loading_effect (h : s.Sound db) (hset : op.setter = none) (hsui : ∀ b, op ≠ .suicide b)
    (f : StateObject C R → StateObject C R)
    (hf : ∀ o, o.Coherent db → (f o).Coherent db ∧ (f o).deleted = o.deleted ∧ (f o).view db = o.view db) :
    Effect db s op (s.loading a f) := by
  unfold loading
  rcases getStateObject_opens h a with ⟨hget, hn⟩ | ⟨o, s1, hget, hop, hcell⟩
  · rw [hget]
    exact .read hset (.refl h a) rfl (fun b hb ↦ absurd hb (hsui b))
  obtain ⟨hc, hd, hv⟩ := hf o hop.coherent
  have hr := hop.read hc (hd.trans hop.usable) hv
  rw [hget]
  refine .read hset hr.acts ?_ (fun b hb ↦ absurd hb (hsui b))
  rw [hr.cell, hv, ← hcell, hop.cell]
  rfl

theorem setCode_effect {code : Option Bytes} (h : s.Sound db) (hrun : s.run db (.setCode a code) = some s') :
    Effect db s (.setCode a code) s' := by
  obtain ⟨o, s1, es, hget, hop, hes, -⟩ := getOrNewStateObject_spec h a
  cases hrun
  have hv := hop.coherent.view_getCode
  have hd : (o.getCode db).2.deleted = o.deleted := deleted_getCode
  have hc : (o.getCode db).1 = o.loadCode db := getCode_fst
  have hco := hop.coherent.getCode
  rw [setCode, hget]
  rcases hg : o.getCode db with ⟨prevcode, o1⟩
  simp only [hg] at hv hd hc hco ⊢
  have hash : H.code (prevcode.getD []) = o1.data.codeHash := by
    rw [hc]
    exact hop.coherent.hash_view.trans (congrArg View.codeHash hv).symm
  refine hop.write_effect hes rfl rfl hash rfl (by simp) (by simp)
    (hco.setCode rfl) (hd.trans hop.usable) ?_
  rw [view_setCode rfl, ← hv]
  refine View.ext rfl rfl rfl rfl ?_ rfl rfl
  rw [hv, hc]
  rfl

theorem setState_effect {key value : Hash} (h : s.Sound db) (hrun : s.run db (.setState a key value) = some s') :
    Effect db s (.setState a key value) s' := by
  obtain ⟨o, s1, es, hget, hop, hes, -⟩ := getOrNewStateObject_spec h a
  cases hrun
  have hv : (o.getState db key).2.view db = o.view db := view_getState key
  have hd : (o.getState db key).2.deleted = o.deleted := deleted_getState key
  have hp : (o.getState db key).1 = o.value db key := getState_fst key
  have hco := hop.coherent.getState key
  rw [setState, hget]
  rcases hg : o.getState db key with ⟨prevalue, o1⟩
  simp only [hg] at hv hd hp hco ⊢
  refine hop.write_effect hes rfl rfl trivial rfl (by simp) (by simp)
    (hco.setState key value) (hd.trans hop.usable) ?_
  rw [view_setState, hv, hp]
  refine View.ext rfl rfl rfl rfl rfl ?_ rfl
  funext k
  show (if key = k then o.value db key else if key = k then value else o.value db k) = o.value db k
  split_ifs with hk
  · rw [hk]
  · rfl

theorem createAccount_effect (h : s.Sound db) (hrun : s.run db (.createAccount a) = some s') :
    Effect db s (.createAccount a) s' := by
  cases hrun
  unfold createAccount createObject
  rcases getStateObject_opens h a with ⟨hget, hn⟩ | ⟨o, s1, hget, hop, -⟩
  · rw [hget]
    exact (opens_create h hn).effect rfl (by simp) rfl
  rw [hget]
  simp only
  rw [setStateObject_setStateObject]
  exact hop.write_effect (by simp) rfl rfl ⟨hop.coherent, hop.usable⟩ rfl
    (by simp) (by simp) (coherent_new.setData _ _ _ _ _) rfl rfl

theorem suicide_effect (h : s.Sound db) (hrun : s.run db (.suicide a) = some s') :
    Effect db s (.suicide a) s' := by
  cases hrun
  unfold suicide
  rcases getStateObject_opens h a with ⟨hget, hn⟩ | ⟨o, s1, hget, hop, hcell⟩
  · rw [hget]
    exact .read rfl (.refl h a) rfl (fun b hb ↦ ⟨Op.suicide.inj hb, hn⟩)
  rw [hget]
  have hc := hop.coherent.setData o.data.nonce 0 0 true o.deleted
  exact .suicide (hcell.symm.trans hop.cell)
    (hop.acts.trans (acts_write (e := .suicide a o.suicided o.data.balance) hop.acts.sound trivial rfl
      hc hop.usable)) (cell_write s1 a _ hop.usable)
    (isSome_iff_exists.mpr ⟨_, getElem?_setStateObject _ a _⟩)

omit [DecidableEq S] in
theorem addLog_effect {log : Log} (hrun : s.run db (.addLog log) = some s') :
    Effect db s (.addLog log) s' := by
  cases hrun
  refine .outside [.addLog s.thash] rfl (by simp) rfl rfl ⟨rfl, rfl, rfl⟩ rfl
    (by simp [Change.account, Change.dirtied]) (Outside.ext rfl ?_ rfl rfl)
  funext k
  show (if s.thash = k then (getLogs _ k).dropLast else getLogs _ k) = s.getLogs k
  unfold getLogs
  simp only [addLog, get_insert]
  split_ifs with hk
  · subst hk
    simp [getLogs]
  · rfl

omit [DecidableEq S] in
theorem addPreimage_effect {hash : Hash} {preimage : Bytes} (hrun : s.run db (.addPreimage hash preimage) = some s') :
    Effect db s (.addPreimage hash preimage) s' := by
  cases hrun
  unfold addPreimage
  split
  · exact .outside [] rfl (by simp) rfl rfl ⟨rfl, rfl, rfl⟩ rfl
      (by simp) rfl
  rename_i hp
  refine .outside [.addPreimage hash] rfl (by simp) rfl rfl ⟨rfl, rfl, rfl⟩ rfl
    (by simp [Change.account, Change.dirtied]) (Outside.ext rfl rfl rfl ?_)
  show (s.preimages.insert hash preimage).erase hash = s.preimages
  refine ExtTreeMap.ext_getElem? (fun k ↦ ?_)
  simp only [get_erase, get_insert]
  split_ifs with hk
  · rw [← hk, hp]
  · rfl

/-- Every operation but the snapshots and reverts has one of these effects. -/
theorem run_effect (h : s.Sound db) (hrun : s.run db op = some s') (hs : op ≠ .snapshot)
    (hr : ∀ revid, op ≠ .revertToSnapshot revid) : Effect db s op s' := by
  cases op with
  | setBalance a amount | setContribution a amount | setNonce a amount =>
    obtain ⟨o, s1, es, hget, hop, hes, -⟩ := getOrNewStateObject_spec h a
    cases hrun
    simp only [setBalance, setContribution, setNonce, hget]
    exact hop.write_effect hes rfl rfl trivial rfl (by simp) (by simp)
      (hop.coherent.setData _ _ _ _ _) hop.usable rfl
  | addBalance a amount | addContribution a amount =>
    obtain ⟨o, s1, es, hget, hop, hes, hnil⟩ := getOrNewStateObject_spec h a
    cases hrun
    simp only [addBalance, addContribution, hget]
    exact add_effect hop hes rfl rfl hnil (fun _ ht ↦ hop.write_effect hes rfl ht trivial rfl
      (by simp) (by simp) (hop.coherent.setData _ _ _ _ _) hop.usable rfl)
  | subBalance a amount | subContribution a amount =>
    obtain ⟨o, s1, es, hget, hop, hes, -⟩ := getOrNewStateObject_spec h a
    cases hrun
    simp only [subBalance, subContribution, hget]
    split_ifs
    · exact hop.effect rfl hes rfl
    exact hop.write_effect hes rfl rfl trivial rfl (by simp) (by simp)
      (hop.coherent.setData _ _ _ _ _) hop.usable rfl
  | setCode a code => exact setCode_effect h hrun
  | setState a key value => exact setState_effect h hrun
  | createAccount a => exact createAccount_effect h hrun
  | suicide a => exact suicide_effect h hrun
  | addRefund gas =>
    cases hrun
    exact .outside [.refund s.refund] rfl (by simp) rfl rfl ⟨rfl, rfl, rfl⟩ rfl
      (by simp [Change.account, Change.dirtied]) rfl
  | addLog log => exact addLog_effect hrun
  | addPreimage hash preimage => exact addPreimage_effect hrun
  | prepare thash bhash ti =>
    cases hrun
    exact .outside [] rfl (by simp) rfl rfl ⟨rfl, rfl, rfl⟩ rfl
      (by simp) rfl
  | get a =>
    cases hrun
    exact loading_effect h rfl (by simp) id (fun o ho ↦ ⟨ho, rfl, rfl⟩)
  | getCode a =>
    cases hrun
    exact loading_effect h rfl (by simp) _
      (fun o ho ↦ ⟨ho.getCode, deleted_getCode, ho.view_getCode⟩)
  | getState a key =>
    cases hrun
    exact loading_effect h rfl (by simp) _
      (fun o ho ↦ ⟨ho.getState key, deleted_getState key, view_getState key⟩)
  | snapshot => exact absurd rfl hs
  | revertToSnapshot revid => exact absurd rfl (hr revid)

end StateDB

end BjutEth.State
