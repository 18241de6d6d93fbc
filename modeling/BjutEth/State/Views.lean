import BjutEth.State.StateDB

set_option linter.unusedSectionVars false

namespace BjutEth.State

open Std ExtTreeMap List GoMap
open Alien (Address Hash Runtime)

variable {C R S : Type} {H : Hashing C R S} [DecidableEq C] [DecidableEq R] [DecidableEq S]

namespace StateObject

def value (db : Database H) (o : StateObject C R) (key : Hash) : Hash :=
  o.cachedStorage[key]?.getD ((o.storageTrie db).value key)

def loadCode (db : Database H) (o : StateObject C R) : Option Bytes :=
  o.code.or (if o.data.codeHash = H.code [] then none else db.codes o.data.codeHash)

@[ext] structure View (C : Type) where
  nonce : UInt64
  balance : ℤ
  contribution : ℤ
  codeHash : C
  code : Bytes
  storage : Hash → Hash
  suicided : Bool

def View.empty (H : Hashing C R S) (v : View C) : Bool :=
  v.nonce = 0 && v.balance = 0 && v.contribution = 0 && v.codeHash = H.code []

def view (db : Database H) (o : StateObject C R) : View C where
  nonce := o.data.nonce
  balance := o.data.balance
  contribution := o.data.contribution
  codeHash := o.data.codeHash
  code := (o.loadCode db).getD []
  storage := o.value db
  suicided := o.suicided

/-- The caches of an object agree with what they cache, and the database can load the
rest of it. -/
structure Coherent (db : Database H) (o : StateObject C R) : Prop where
  cached : ∀ k v : Hash, o.dirtyStorage[k]? = some v → o.cachedStorage[k]? = some v
  clean : ∀ k v : Hash, o.cachedStorage[k]? = some v → o.dirtyStorage[k]? = none →
    (o.storageTrie db).value k = v
  hash_code : ∀ c, o.code = some c → H.code c = o.data.codeHash
  code_stored : o.data.codeHash = H.code [] ∨ (o.dirtyCode = true ∧ o.code.isSome) ∨
    ∃ c, db.codes o.data.codeHash = some c
  root_stored : o.trie = none → ∃ t, db.openStorageTrie o.data.root = some t
  noErr : o.dbErr = false

variable {db db' : Database H} {o o' : StateObject C R}

theorem getState_fst (key : Hash) : (o.getState db key).1 = o.value db key := by
  unfold value getState
  cases o.cachedStorage[key]? <;> rfl

theorem getCode_fst : (o.getCode db).1 = o.loadCode db := by
  unfold getCode loadCode
  cases o.code with
  | some c => rfl
  | none =>
    split_ifs
    · rfl
    · cases db.codes o.data.codeHash <;> rfl

/-! ### Reading -/

theorem value_getState (key k : Hash) : (o.getState db key).2.value db k = o.value db k := by
  unfold getState
  cases hc : o.cachedStorage[key]? with
  | some v => rfl
  | none =>
    simp only [value, get_insert]
    split_ifs with hk
    · subst hk
      rw [hc]
      rfl
    · rfl

theorem data_getState (key : Hash) : (o.getState db key).2.data = o.data := by
  unfold getState
  cases o.cachedStorage[key]? <;> rfl

theorem deleted_getState (key : Hash) : (o.getState db key).2.deleted = o.deleted := by
  unfold getState
  cases o.cachedStorage[key]? <;> rfl

theorem deleted_getCode : (o.getCode db).2.deleted = o.deleted := by
  unfold getCode
  split
  · rfl
  split_ifs
  · rfl
  · split <;> rfl

theorem loadCode_getState (key : Hash) : (o.getState db key).2.loadCode db = o.loadCode db := by
  unfold getState
  cases o.cachedStorage[key]? <;> rfl

theorem view_getState (key : Hash) : (o.getState db key).2.view db = o.view db := by
  have hs : (o.getState db key).2.suicided = o.suicided := by
    unfold getState
    cases o.cachedStorage[key]? <;> rfl
  simp only [view, data_getState, loadCode_getState]
  congr 1
  exact funext (value_getState key)

section

variable (h : o.Coherent db)

include h

theorem Coherent.noErr_getTrie : (o.getTrie db).dbErr = false := by
  simp only [getTrie, h.noErr, Bool.false_or, Bool.and_eq_false_iff]
  cases ht : o.trie with
  | some t => exact .inl rfl
  | none =>
    obtain ⟨t, ht'⟩ := h.root_stored ht
    exact .inr (by rw [ht']; rfl)

theorem Coherent.getState (key : Hash) : (o.getState db key).2.Coherent db := by
  unfold StateObject.getState
  cases hc : o.cachedStorage[key]? with
  | some v => exact h
  | none =>
    have hd : o.dirtyStorage[key]? = none := by
      cases hd : o.dirtyStorage[key]? with
      | none => rfl
      | some v =>
        rw [h.cached key v hd] at hc
        cases hc
    refine ⟨fun k v hk ↦ ?_, fun k v hk hk' ↦ ?_, h.hash_code, h.code_stored, fun h' ↦ (by cases h'),
      h.noErr_getTrie⟩
    · simp only [getTrie, get_insert] at hk ⊢
      split_ifs with he
      · rw [← he, hd] at hk
        cases hk
      · exact h.cached k v hk
    simp only [get_insert] at hk hk'
    split_ifs at hk with he
    · rw [← he]
      exact Option.some.inj hk
    · exact h.clean k v hk hk'

theorem Coherent.getCode_eq :
    o.getCode db = (o.code, o) ∨ ∃ c, o.code = none ∧ db.codes o.data.codeHash = some c ∧
      o.getCode db = (some c, { o with code := some c }) := by
  unfold getCode
  cases hc : o.code with
  | some c => exact .inl rfl
  | none =>
    simp only
    split_ifs with he
    · exact .inl rfl
    obtain he' | ⟨-, he'⟩ | ⟨c, he'⟩ := h.code_stored
    · exact absurd he' he
    · rw [hc] at he'
      cases he'
    · refine .inr ⟨c, trivial, he', ?_⟩
      rw [he']

theorem Coherent.getCode : (o.getCode db).2.Coherent db := by
  obtain he | ⟨c, -, hc, he⟩ := h.getCode_eq
  · rw [he]
    exact h
  rw [he]
  refine ⟨h.cached, h.clean, fun c' hc' ↦ ?_, .inr (.inr ⟨c, hc⟩), h.root_stored, h.noErr⟩
  cases hc'
  exact db.hash_codes _ _ hc

theorem Coherent.view_getCode : (o.getCode db).2.view db = o.view db := by
  obtain he | ⟨c, -, -, he⟩ := h.getCode_eq
  · rw [he]
  simp only [view, ← getCode_fst, he]
  rfl

theorem Coherent.hash_view : H.code (o.view db).code = o.data.codeHash := by
  unfold view loadCode
  cases hc : o.code with
  | some c => exact h.hash_code c hc
  | none =>
    split_ifs with he
    · exact he.symm
    obtain he' | ⟨-, he'⟩ | ⟨c, he'⟩ := h.code_stored
    · exact absurd he' he
    · rw [hc] at he'
      cases he'
    · rw [he']
      exact db.hash_codes _ _ he'

end

/-! ### Writing -/

theorem value_setState (key v k : Hash) :
    (o.setState key v).value db k = if key = k then v else o.value db k := by
  simp only [value, setState, get_insert]
  split_ifs <;> rfl

theorem Coherent.setState (h : o.Coherent db) (key v : Hash) : (o.setState key v).Coherent db := by
  refine ⟨fun k w hk ↦ ?_, fun k w hk hk' ↦ ?_, h.hash_code, h.code_stored, h.root_stored, h.noErr⟩
  · simp only [StateObject.setState, get_insert] at hk ⊢
    split_ifs at hk ⊢
    · exact hk
    · exact h.cached k w hk
  simp only [StateObject.setState, get_insert] at hk hk'
  split_ifs at hk hk'
  exact h.clean k w hk hk'

theorem view_setState (key v : Hash) :
    (o.setState key v).view db =
      { o.view db with storage := fun k ↦ if key = k then v else (o.view db).storage k } := by
  refine View.ext rfl rfl rfl rfl rfl ?_ rfl
  exact funext (value_setState key v)

theorem Coherent.setCode (h : o.Coherent db) {hash : C} {code : Option Bytes}
    (hcode : H.code (code.getD []) = hash) : (o.setCode hash code).Coherent db := by
  refine ⟨h.cached, h.clean, fun c hc ↦ ?_, ?_, h.root_stored, h.noErr⟩
  · obtain rfl : code = some c := hc
    exact hcode
  cases code with
  | none => exact .inl hcode.symm
  | some c => exact .inr (.inl ⟨rfl, rfl⟩)

theorem view_setCode {hash : C} {code : Option Bytes} (hcode : H.code (code.getD []) = hash) :
    (o.setCode hash code).view db = { o.view db with codeHash := hash, code := code.getD [] } := by
  have hc : (o.setCode hash code).loadCode db = code := by
    cases code with
    | some c => rfl
    | none => exact if_pos hcode.symm
  refine View.ext rfl rfl rfl rfl ?_ rfl rfl
  rw [view, hc]

theorem Coherent.setData (h : o.Coherent db) (nonce : UInt64) (balance contribution : ℤ)
    (suicided deleted : Bool) :
    Coherent db
      { o with data := { o.data with nonce, balance, contribution }, suicided, deleted } :=
  ⟨h.cached, h.clean, h.hash_code, h.code_stored, h.root_stored, h.noErr⟩

/-! ### Flushing -/

theorem value_foldl_write (l : List (Hash × Hash)) (hl : (l.map (·.1)).Nodup) (t : StorageTrie)
    (k : Hash) :
    (∀ v, (k, v) ∈ l → (l.foldl (fun t e ↦ t.write e.1 e.2) t).value k = v) ∧
      ((∀ v, (k, v) ∉ l) → (l.foldl (fun t e ↦ t.write e.1 e.2) t).value k = t.value k) := by
  induction l generalizing t with
  | nil => exact ⟨by simp, fun _ ↦ rfl⟩
  | cons e l ih =>
    rw [map_cons, nodup_cons] at hl
    obtain ⟨hmem, hnot⟩ := ih hl.2 (t.write e.1 e.2)
    rw [foldl_cons]
    refine ⟨fun v hv ↦ ?_, fun hk ↦ ?_⟩
    · rcases mem_cons.mp hv with rfl | hv
      · rw [hnot (fun w hw ↦ hl.1 (mem_map.mpr ⟨_, hw, rfl⟩)), StorageTrie.value_write, if_pos rfl]
      · exact hmem v hv
    rw [hnot (fun v hv ↦ hk v (mem_cons_of_mem e hv)), StorageTrie.value_write, if_neg]
    rintro rfl
    exact hk e.2 mem_cons_self

def written (db : Database H) (o : StateObject C R) : StorageTrie :=
  o.dirtyStorage.toList.foldl (fun t e ↦ t.write e.1 e.2) (o.storageTrie db)

theorem value_write_order {l : List (Hash × Hash)} (hl : l.Perm o.dirtyStorage.toList) (k : Hash) :
    (l.foldl (fun t e ↦ t.write e.1 e.2) (o.storageTrie db)).value k =
      o.dirtyStorage[k]?.getD ((o.storageTrie db).value k) := by
  have hnd : (l.map (·.1)).Nodup := (hl.map _).nodup_iff.mpr (nodup_keys_toList _)
  obtain ⟨hmem, hnot⟩ := value_foldl_write l hnd (o.storageTrie db) k
  cases hd : o.dirtyStorage[k]? with
  | some v =>
    rw [hmem v (hl.mem_iff.mpr (mem_toList_iff_getElem?_eq_some.mpr hd))]
    rfl
  | none =>
    rw [hnot]
    · rfl
    intro v hv
    have := mem_toList_iff_getElem?_eq_some.mp (hl.mem_iff.mp hv)
    rw [hd] at this
    cases this

theorem updateTrie_eq (rt : Runtime) :
    o.updateTrie rt db = { o.getTrie db with trie := some (o.written db), dirtyStorage := ∅ } := by
  have he : (rt.rangeOrder o.dirtyStorage.toList).foldl (fun t e ↦ t.write e.1 e.2) (o.storageTrie db) =
      o.written db :=
    StorageTrie.ext_value (fun k ↦ (value_write_order (rt.rangeOrder_perm _) k).trans
      (value_write_order (.refl _) k).symm)
  unfold updateTrie
  rw [he]

theorem Coherent.value_written (h : o.Coherent db) (k : Hash) : (o.written db).value k = o.value db k := by
  rw [written, value_write_order (.refl _), value]
  cases hd : o.dirtyStorage[k]? with
  | some v =>
    rw [h.cached k v hd]
  | none =>
    cases hc : o.cachedStorage[k]? with
    | some v => exact h.clean k v hc hd
    | none => rfl

def account (db : Database H) (o : StateObject C R) : Account C R :=
  { o.data with root := some (H.storageRoot (o.written db)) }

section

variable (h : o.Coherent db)

include h

theorem account_congr (h' : o'.Coherent db') (hv : o.view db = o'.view db') :
    o.account db = o'.account db' := by
  have hw : o.written db = o'.written db' := by
    refine StorageTrie.ext_value (fun k ↦ ?_)
    rw [h.value_written, h'.value_written]
    exact congrFun (congrArg View.storage hv) k
  have hn : o.data.nonce = o'.data.nonce := congrArg View.nonce hv
  have hb : o.data.balance = o'.data.balance := congrArg View.balance hv
  have hc : o.data.contribution = o'.data.contribution := congrArg View.contribution hv
  have hh : o.data.codeHash = o'.data.codeHash := congrArg View.codeHash hv
  simp only [account, hw, hn, hb, hc, hh]

theorem Coherent.updateTrie (rt : Runtime) : (o.updateTrie rt db).Coherent db := by
  rw [updateTrie_eq]
  refine ⟨fun k v hk ↦ ?_, fun k v hk _ ↦ ?_, h.hash_code, h.code_stored, by simp, h.noErr_getTrie⟩
  · simp at hk
  have hv := h.value_written k
  rw [value, show o.cachedStorage[k]? = some v from hk] at hv
  exact hv

theorem Coherent.storageTrie_within (hw : db.Within db') :
    o.storageTrie db' = o.storageTrie db := by
  unfold storageTrie
  cases ht : o.trie with
  | some t => rfl
  | none =>
    obtain ⟨t, ht'⟩ := h.root_stored ht
    rw [ht', hw.openStorageTrie ht']

theorem Coherent.within (hw : db.Within db') : o.Coherent db' := by
  refine ⟨h.cached, fun k v hk hk' ↦ ?_, h.hash_code, ?_, fun ht ↦ ?_, h.noErr⟩
  · rw [h.storageTrie_within hw]
    exact h.clean k v hk hk'
  · refine h.code_stored.imp_right (Or.imp_right ?_)
    rintro ⟨c, hc⟩
    exact ⟨c, hw.codes _ _ hc⟩
  · obtain ⟨t, ht'⟩ := h.root_stored ht
    exact ⟨t, hw.openStorageTrie ht'⟩

theorem Coherent.view_within (hw : db.Within db') : o.view db' = o.view db := by
  have hc : (o.view db').code = (o.view db).code :=
    H.code_injective ((h.within hw).hash_view.trans h.hash_view.symm)
  refine View.ext rfl rfl rfl rfl hc ?_ rfl
  funext k
  show o.value db' k = o.value db k
  rw [value, value, h.storageTrie_within hw]

end

end StateObject

end BjutEth.State
