import BjutEth.Alien.Types

namespace BjutEth.State

open Std Function ExtTreeMap
open Alien (Address Hash Runtime)

/-- A storage trie, as the finite map it holds: a zero value is never stored. -/
structure StorageTrie where
  slots : GoMap Hash Hash
  nonzero : ∀ k : Hash, slots[k]? ≠ some 0
  deriving DecidableEq

namespace StorageTrie

def empty : StorageTrie := ⟨∅, fun k ↦ by simp⟩

def value (t : StorageTrie) (k : Hash) : Hash := t.slots[k]?.getD 0

/-- `TryDelete` of a key that is set to zero, `TryUpdate` of any other. -/
def write (t : StorageTrie) (k v : Hash) : StorageTrie :=
  if h : v = 0 then
    ⟨t.slots.erase k, fun k' ↦ by
      rw [getElem?_erase]
      split_ifs
      · simp
      · exact t.nonzero k'⟩
  else
    ⟨t.slots.insert k v, fun k' ↦ by
      rw [getElem?_insert]
      split_ifs
      · exact fun h' ↦ h (Option.some.inj h')
      · exact t.nonzero k'⟩

theorem value_write (t : StorageTrie) (k v k' : Hash) :
    (t.write k v).value k' = if k = k' then v else t.value k' := by
  unfold write value
  split_ifs with hv hk hk
  · simp [hk, hv]
  · simp [getElem?_erase, hk]
  · simp [hk]
  · simp [getElem?_insert, hk]

theorem ext_value {t t' : StorageTrie} (h : ∀ k, t.value k = t'.value k) : t = t' := by
  obtain ⟨m, hm⟩ := t
  obtain ⟨m', hm'⟩ := t'
  have he : m = m' := by
    refine ext_getElem? (fun k ↦ ?_)
    have hk := h k
    have h0 := hm k
    have h0' := hm' k
    simp only [value] at hk
    cases hl : m[k]? with
    | none =>
      cases hl' : m'[k]? with
      | none => rfl
      | some v' =>
        rw [hl, hl'] at hk
        exact absurd (hl'.trans (congrArg some hk.symm)) h0'
    | some v =>
      cases hl' : m'[k]? with
      | none =>
        rw [hl, hl'] at hk
        exact absurd (hl.trans (congrArg some hk)) h0
      | some v' =>
        rw [hl, hl'] at hk
        exact congrArg some hk
  subst he
  rfl

end StorageTrie

/-- The record of an account in the account trie. The root is absent while it is
the zero hash, which `newObject` leaves in a new account. -/
structure Account (C R : Type) where
  nonce : UInt64
  balance : ℤ
  contribution : ℤ
  root : Option R
  codeHash : C
  deriving DecidableEq

abbrev Accounts (C R : Type) := GoMap Address (Account C R)

/-- The hashes of contract codes, storage tries and account tries, free of
collisions. -/
structure Hashing (C R S : Type) where
  code : Bytes → C
  storageRoot : StorageTrie → R
  stateRoot : Accounts C R → S
  code_injective : Injective code
  storageRoot_injective : Injective storageRoot
  stateRoot_injective : Injective stateRoot

/-- The hashing that takes everything for its own hash. -/
def Hashing.ideal : Hashing Bytes StorageTrie (Accounts Bytes StorageTrie) where
  code := id
  storageRoot := id
  stateRoot := id
  code_injective := injective_id
  storageRoot_injective := injective_id
  stateRoot_injective := injective_id

variable {C R S : Type} {H : Hashing C R S}

/-- The database below the tries: what it holds, it holds under its hash. -/
structure Database (H : Hashing C R S) where
  codes : C → Option Bytes
  storages : R → Option StorageTrie
  states : S → Option (Accounts C R)
  hash_codes : ∀ h c, codes h = some c → H.code c = h
  hash_storages : ∀ r t, storages r = some t → H.storageRoot t = r
  hash_states : ∀ r m, states r = some m → H.stateRoot m = r

namespace Database

def empty : Database H where
  codes _ := none
  storages _ := none
  states _ := none
  hash_codes _ _ h := by cases h
  hash_storages _ _ h := by cases h
  hash_states _ _ h := by cases h

section
variable [DecidableEq C] [DecidableEq R] [DecidableEq S]

/-- `OpenStorageTrie`: the zero hash and the hash of the empty trie open the empty
trie without a look at the database. -/
def openStorageTrie (db : Database H) : Option R → Option StorageTrie
  | none => some .empty
  | some r => if r = H.storageRoot .empty then some .empty else db.storages r

def openTrie (db : Database H) : Option S → Option (Accounts C R)
  | none => some ∅
  | some r => if r = H.stateRoot ∅ then some ∅ else db.states r

def insertCode (db : Database H) (c : Bytes) : Database H where
  codes h := if h = H.code c then some c else db.codes h
  storages := db.storages
  states := db.states
  hash_codes h c' hc := by
    split_ifs at hc with h'
    · cases hc
      exact h'.symm
    · exact db.hash_codes h c' hc
  hash_storages := db.hash_storages
  hash_states := db.hash_states

def insertStorage (db : Database H) (t : StorageTrie) : Database H where
  codes := db.codes
  storages r := if r = H.storageRoot t then some t else db.storages r
  states := db.states
  hash_codes := db.hash_codes
  hash_storages r t' ht := by
    split_ifs at ht with h'
    · cases ht
      exact h'.symm
    · exact db.hash_storages r t' ht
  hash_states := db.hash_states

def insertState (db : Database H) (m : Accounts C R) : Database H where
  codes := db.codes
  storages := db.storages
  states r := if r = H.stateRoot m then some m else db.states r
  hash_codes := db.hash_codes
  hash_storages := db.hash_storages
  hash_states r m' hm := by
    split_ifs at hm with h'
    · cases hm
      exact h'.symm
    · exact db.hash_states r m' hm

end

structure Within (db db' : Database H) : Prop where
  codes : ∀ h c, db.codes h = some c → db'.codes h = some c
  storages : ∀ r t, db.storages r = some t → db'.storages r = some t
  states : ∀ r m, db.states r = some m → db'.states r = some m

theorem Within.refl (db : Database H) : db.Within db := ⟨fun _ _ h ↦ h, fun _ _ h ↦ h, fun _ _ h ↦ h⟩

theorem Within.trans {db1 db2 db3 : Database H} (h : db1.Within db2) (h' : db2.Within db3) :
    db1.Within db3 :=
  ⟨fun r c hc ↦ h'.codes r c (h.codes r c hc), fun r t ht ↦ h'.storages r t (h.storages r t ht),
    fun r m hm ↦ h'.states r m (h.states r m hm)⟩

theorem within_insertCode [DecidableEq C] (db : Database H) (c : Bytes) : db.Within (db.insertCode c) := by
  refine ⟨fun h c' hc ↦ ?_, fun _ _ h ↦ h, fun _ _ h ↦ h⟩
  show (if h = H.code c then some c else db.codes h) = some c'
  split_ifs with he
  · rw [H.code_injective ((db.hash_codes h c' hc).trans he)]
  · exact hc

theorem within_insertStorage [DecidableEq R] (db : Database H) (t : StorageTrie) : db.Within (db.insertStorage t) := by
  refine ⟨fun _ _ h ↦ h, fun r t' ht ↦ ?_, fun _ _ h ↦ h⟩
  show (if r = H.storageRoot t then some t else db.storages r) = some t'
  split_ifs with he
  · rw [H.storageRoot_injective ((db.hash_storages r t' ht).trans he)]
  · exact ht

theorem within_insertState [DecidableEq S] (db : Database H) (m : Accounts C R) : db.Within (db.insertState m) := by
  refine ⟨fun _ _ h ↦ h, fun _ _ h ↦ h, fun r m' hm ↦ ?_⟩
  show (if r = H.stateRoot m then some m else db.states r) = some m'
  split_ifs with he
  · rw [H.stateRoot_injective ((db.hash_states r m' hm).trans he)]
  · exact hm

theorem Within.openStorageTrie [DecidableEq R] {db db' : Database H} (h : db.Within db') {r : Option R}
    {t : StorageTrie} (ht : db.openStorageTrie r = some t) : db'.openStorageTrie r = some t := by
  cases r with
  | none => exact ht
  | some r =>
    simp only [Database.openStorageTrie] at ht ⊢
    split_ifs at ht ⊢
    · exact ht
    · exact h.storages r t ht

theorem openStorageTrie_insertStorage [DecidableEq R] (db : Database H) (t : StorageTrie) :
    (db.insertStorage t).openStorageTrie (some (H.storageRoot t)) = some t := by
  simp only [openStorageTrie]
  split_ifs with he
  · rw [H.storageRoot_injective he]
  · exact if_pos rfl

theorem openTrie_insertState [DecidableEq S] (db : Database H) (m : Accounts C R) :
    (db.insertState m).openTrie (some (H.stateRoot m)) = some m := by
  simp only [openTrie]
  split_ifs with he
  · rw [H.stateRoot_injective he]
  · exact if_pos rfl

end Database

/-- An account that is being modified. The storage trie and the code are absent
until they are first read. -/
structure StateObject (C R : Type) where
  data : Account C R
  trie : Option StorageTrie := none
  code : Option Bytes := none
  cachedStorage : GoMap Hash Hash := ∅
  dirtyStorage : GoMap Hash Hash := ∅
  dirtyCode : Bool := false
  suicided : Bool := false
  deleted : Bool := false
  dbErr : Bool := false

def Account.new (H : Hashing C R S) : Account C R where
  nonce := 0
  balance := 0
  contribution := 0
  root := none
  codeHash := H.code []

def newObject (data : Account C R) : StateObject C R := { data }

namespace StateObject

variable [DecidableEq C] [DecidableEq R]

def empty (H : Hashing C R S) (o : StateObject C R) : Bool :=
  o.data.nonce = 0 && o.data.balance = 0 && o.data.contribution = 0 && o.data.codeHash = H.code []

variable (rt : Runtime) (db : Database H) (o : StateObject C R)

def storageTrie : StorageTrie :=
  o.trie.getD ((db.openStorageTrie o.data.root).getD .empty)

def getTrie : StateObject C R :=
  { o with
    trie := some (o.storageTrie db)
    dbErr := o.dbErr || o.trie.isNone && (db.openStorageTrie o.data.root).isNone }

def getState (key : Hash) : Hash × StateObject C R :=
  match o.cachedStorage[key]? with
  | some value => (value, o)
  | none =>
    let value := (o.storageTrie db).value key
    let o := o.getTrie db
    (value, { o with cachedStorage := o.cachedStorage.insert key value })

def setState (key value : Hash) : StateObject C R :=
  { o with
    cachedStorage := o.cachedStorage.insert key value
    dirtyStorage := o.dirtyStorage.insert key value }

def updateTrie : StateObject C R :=
  let tr := (rt.rangeOrder o.dirtyStorage.toList).foldl (fun t e ↦ t.write e.1 e.2) (o.storageTrie db)
  { o.getTrie db with trie := some tr, dirtyStorage := ∅ }

def updateRoot : StateObject C R :=
  let o := o.updateTrie rt db
  { o with data := { o.data with root := some (H.storageRoot (o.storageTrie db)) } }

def commitTrie [DecidableEq S] (rt : Runtime) (db : Database H) (o : StateObject C R) :
    Option (Database H × StateObject C R) :=
  let o := o.updateTrie rt db
  if o.dbErr then none
  else
    some (db.insertStorage (o.storageTrie db),
      { o with data := { o.data with root := some (H.storageRoot (o.storageTrie db)) } })

def getCode (db : Database H) (o : StateObject C R) : Option Bytes × StateObject C R :=
  match o.code with
  | some c => (some c, o)
  | none =>
    if o.data.codeHash = H.code [] then (none, o)
    else
      match db.codes o.data.codeHash with
      | some c => (some c, { o with code := some c })
      | none => (none, { o with dbErr := true })

def setCode (o : StateObject C R) (codeHash : C) (code : Option Bytes) : StateObject C R :=
  { o with data := { o.data with codeHash }, code, dirtyCode := true }

def setNonce (o : StateObject C R) (nonce : UInt64) : StateObject C R :=
  { o with data := { o.data with nonce } }

def setBalance (o : StateObject C R) (balance : ℤ) : StateObject C R :=
  { o with data := { o.data with balance } }

def setContribution (o : StateObject C R) (contribution : ℤ) : StateObject C R :=
  { o with data := { o.data with contribution } }

/-- `deepCopy`: the cache of the copy starts with the unwritten slots only. -/
def deepCopy (o : StateObject C R) : StateObject C R :=
  { o with cachedStorage := o.dirtyStorage, dbErr := false }

end StateObject

end BjutEth.State
