import BjutEth.Trie.Hashing

namespace BjutEth.Trie

open Rlp Patricia List Function Option Outcome

inductive Op
  | update (key value : Bytes)
  | delete (key : Bytes)
  | get (key : Bytes)
  | hash
  | commit

inductive Output
  | none
  | value (v : Option Bytes)
  | root (h : Hash)
  | committed (h : Hash) (stored : List Stored)

def Output.stored : Output → List Stored
  | committed _ stored => stored
  | _ => []

structure State where
  trie : Trie
  db : Database

def State.exec (keccak : Bytes → Hash) (s : State) : Op → Go (State × Output)
  | .update key v =>
    s.trie.tryUpdate s.db key v >>= fun t ↦ .ok ({ s with trie := t }, .none)
  | .delete key => s.trie.tryDelete s.db key >>= fun t ↦ .ok ({ s with trie := t }, .none)
  | .get key => s.trie.tryGet s.db key >>= fun r ↦ .ok ({ s with trie := r.2 }, .value r.1)
  | .hash => hash keccak s.trie >>= fun r ↦ .ok ({ s with trie := r.2 }, .root r.1)
  | .commit =>
    commit keccak s.trie >>= fun r ↦
      .ok ({ trie := r.2.1, db := s.db.insertAll r.2.2 }, .committed r.1 r.2.2)

/-- The last value written to a key and not deleted since; the latest operation comes first. -/
def contents : List Op → Bytes → Option Bytes
  | [], _ => none
  | .update k v :: ops, key =>
    if key = k then (if v = [] then none else some v) else contents ops key
  | .delete k :: ops, key => if key = k then none else contents ops key
  | _ :: ops, key => contents ops key

/-- The states that operations lead to from an empty trie. Between them the cache limit may be
set, and other nodes may be added to the database. -/
inductive Run (keccak : Bytes → Hash) (U : Set Bytes) : State → List Op → Prop
  | start {db : Database} (hdb : db.Addressed keccak U) :
    Run keccak U { trie := { root := .nil, cachegen := 0, cachelimit := 0 }, db } []
  | step {s s' : State} {ops : List Op} {out : Output} (h : Run keccak U s ops) (op : Op)
    (hexec : s.exec keccak op = .ok (s', out)) (hU : ∀ w ∈ out.stored, w.blob ∈ U) :
    Run keccak U s' (op :: ops)
  | limit {s : State} {ops : List Op} (h : Run keccak U s ops) (l : UInt16) :
    Run keccak U { s with trie := { s.trie with cachelimit := l } } ops
  | grow {s : State} {ops : List Op} {db : Database} (h : Run keccak U s ops)
    (hext : s.db.Extends db) (hdb : db.Addressed keccak U) :
    Run keccak U { s with db } ops

section Invariant

variable {keccak : Bytes → Hash} {U : Set Bytes}

/-- A tree that holds a mapping from byte strings and nothing else. -/
structure Holds (t : Tree) (m : Bytes → Option Bytes) : Prop where
  proper : t = .empty ∨ Proper t
  get : ∀ key, t.get (keybytesToHex key) = m key
  keys : ∀ k v, t.get k = some v → ∃ key, k = keybytesToHex key

structure Inv (keccak : Bytes → Hash) (U : Set Bytes) (s : State) (m : Bytes → Option Bytes) :
    Prop where
  addressed : s.db.Addressed keccak U
  tree : ∃ t, Holds t m ∧ Rep keccak s.db true s.trie.root t

variable {t : Tree} {m : Bytes → Option Bytes} {db : Database} {trie : Trie}

theorem Holds.unique {t' : Tree} (h : Holds t m) (h' : Holds t' m) : t = t' := by
  have hget : ∀ k, t.get k = t'.get k := by
    intro k
    by_cases hk : ∃ key, k = keybytesToHex key
    · obtain ⟨key, rfl⟩ := hk
      rw [h.get, h'.get]
    have hnone : ∀ {s : Tree}, Holds s m → s.get k = none := fun hs ↦
      eq_none_iff_forall_ne_some.mpr fun v hv ↦ hk (hs.keys k v hv)
    rw [hnone h, hnone h']
  have hnil : ∀ {s : Tree}, Proper s → ¬ ∀ k, s.get k = none := by
    intro s hs hnone
    obtain ⟨k, v, hkv⟩ := exists_get hs.canon
    rw [hnone] at hkv
    cases hkv
  rcases h.proper with rfl | hp
  · rcases h'.proper with rfl | hp'
    · rfl
    · exact absurd (fun k ↦ (hget k).symm) (hnil hp')
  rcases h'.proper with rfl | hp'
  · exact absurd hget (hnil hp)
  · exact hp.canon.ext hp'.canon hget

theorem Holds.fits (h : Holds t m) (key : Bytes) : Fits t (keybytesToHex key) := .inr ⟨terminated_keybytesToHex key, h.proper⟩

theorem rounds_le_calls (n : Node) (key : List Nibble) : rounds n key ≤ Trie.calls key :=
  rounds_le n key

theorem holds_insert (h : Holds t m) (key : Bytes) {v : Bytes} (hv : v ≠ []) :
    Holds (t.insert (keybytesToHex key) v) (fun k ↦ if k = key then some v else m k) := by
  have hkey := terminated_keybytesToHex key
  have hget : ∀ k, (t.insert (keybytesToHex key) v).get k =
      if k = keybytesToHex key then some v else t.get k := by
    intro k
    rcases h.proper with rfl | hp
    · exact get_insert_slot (a := 0) (.inl rfl) (.inr ⟨by decide, hkey⟩) v
        (fun hc ↦ hc.elim) k
    · exact get_insert hp.canon hkey v k
  have hcanon : (t.insert (keybytesToHex key) v).Canon 16 := by
    rcases h.proper with rfl | hp
    · cases hk : keybytesToHex key with
      | nil =>
        rw [hk] at hkey
        exact hkey.elim
      | cons i k => exact .inl ⟨⟨v, rfl⟩, hk ▸ hkey⟩
    · exact canon_insert hp.canon hkey v
  refine ⟨.inr ⟨hcanon, fun k w hw ↦ ?_⟩, fun k ↦ ?_, fun k w hw ↦ ?_⟩
  · rw [hget] at hw
    by_cases hk : k = keybytesToHex key
    · rw [if_pos hk] at hw
      exact some.inj hw ▸ hv
    rw [if_neg hk] at hw
    rcases h.proper with rfl | hp
    · cases hw
    · exact hp.filled k w hw
  · rw [hget]
    by_cases hk : k = key
    · rw [if_pos hk, if_pos (congrArg keybytesToHex hk)]
    · rw [if_neg hk, if_neg fun heq ↦ hk (keybytesToHex_inj heq), h.get]
  rw [hget] at hw
  by_cases hk : k = keybytesToHex key
  · exact ⟨key, hk⟩
  rw [if_neg hk] at hw
  exact h.keys k w hw

theorem holds_delete (h : Holds t m) (key : Bytes) :
    Holds (t.delete hexDigits (keybytesToHex key)) (fun k ↦ if k = key then none else m k) := by
  have hkey := terminated_keybytesToHex key
  have hremoved : (∀ k, (t.delete hexDigits (keybytesToHex key)).get k =
      if k = keybytesToHex key then none else t.get k) ∧
      (t.delete hexDigits (keybytesToHex key) = .empty ∨
        (t.delete hexDigits (keybytesToHex key)).Canon 16) := by
    rcases h.proper with rfl | hp
    · exact ⟨fun k ↦ (ite_self none).symm, .inl rfl⟩
    have hr := removed_delete hexDigits hp.canon hkey
    exact ⟨hr.get, hr.canon⟩
  obtain ⟨hget, hcanon⟩ := hremoved
  have hold : ∀ {k : List Nibble} {w : Bytes},
      (t.delete hexDigits (keybytesToHex key)).get k = some w → t.get k = some w := by
    intro k w hw
    rw [hget] at hw
    by_cases hk : k = keybytesToHex key
    · rw [if_pos hk] at hw
      cases hw
    · rwa [if_neg hk] at hw
  refine ⟨hcanon.imp_right fun hc ↦ ⟨hc, fun k w hw ↦ ?_⟩, fun k ↦ ?_, fun k w hw ↦ ?_⟩
  · rcases h.proper with rfl | hp
    · cases hold hw
    · exact hp.filled k w (hold hw)
  · rw [hget]
    by_cases hk : k = key
    · rw [if_pos hk, if_pos (congrArg keybytesToHex hk)]
    · rw [if_neg hk, if_neg fun heq ↦ hk (keybytesToHex_inj heq), h.get]
  · exact h.keys k w (hold hw)

/-! One operation. -/

section

variable (hU : CollisionFree keccak U)

include hU

theorem tryGet_holds (hdb : db.Addressed keccak U) (ht : Holds t m)
    (hrep : Rep keccak db true trie.root t) (key : Bytes) :
    ∃ trie', trie.tryGet db key = .ok (m key, trie') ∧ Rep keccak db true trie'.root t := by
  obtain ⟨n', r, hget, hrep'⟩ := tryGet_eq hU hdb trie.cachegen hrep (ht.fits key)
    (rounds_le_calls _ _) []
  rw [ht.get] at hget
  refine ⟨_, bind_eq_ok.mpr ⟨_, hget, rfl⟩, ?_⟩
  cases r with
  | true => exact hrep'
  | false => exact hrep

theorem tryDelete_holds (hdb : db.Addressed keccak U) (ht : Holds t m)
    (hrep : Rep keccak db true trie.root t) (key : Bytes) :
    ∃ trie', trie.tryDelete db key = .ok trie' ∧
      Rep keccak db true trie'.root (t.delete hexDigits (keybytesToHex key)) := by
  obtain ⟨dirty, n', hdel, hrep', -⟩ := delete_eq trie.cachegen hU hdb hrep (ht.fits key)
    (rounds_le_calls _ _) []
  exact ⟨_, bind_eq_ok.mpr ⟨_, hdel, rfl⟩, hrep'⟩

theorem tryUpdate_holds (hdb : db.Addressed keccak U) (ht : Holds t m)
    (hrep : Rep keccak db true trie.root t) (key v : Bytes) :
    ∃ trie' t', trie.tryUpdate db key v = .ok trie' ∧ Rep keccak db true trie'.root t' ∧
      Holds t' (fun k ↦ if k = key then (if v = [] then none else some v) else m k) := by
  unfold Trie.tryUpdate
  by_cases hv : v = []
  · subst hv
    obtain ⟨trie', hdel, hrep'⟩ := tryDelete_holds hU hdb ht hrep key
    exact ⟨trie', _, hdel, hrep', holds_delete ht key⟩
  have hlen : v.length ≠ 0 := fun h ↦ hv (eq_nil_of_length_eq_zero h)
  obtain ⟨dirty, n', hins, hrep', -⟩ := insert_eq hU hdb trie.cachegen hrep (ht.fits key)
    (rounds_le_calls _ _) [] v
  simp only [if_pos hlen, if_neg hv]
  exact ⟨_, _, bind_eq_ok.mpr ⟨_, hins, rfl⟩, hrep', holds_insert ht key hv⟩

end

theorem hashRoot_holds (doCommit : Bool) (ht : Holds t m) (hrep : Rep keccak db true trie.root t) :
    ∃ r : Hasher.Hashed, hashRoot keccak doCommit trie = .ok r ∧
      r.1 = .hash (rootHash keccak t) ∧ (∀ s ∈ r.2.2, keccak s.blob = s.hash) ∧
      (doCommit = false → r.2.2 = []) ∧
      (∀ db', db.Extends db' → db'.Holds r.2.2 →
        Rep keccak db' true r.2.1 t ∧
          (doCommit = true → t ≠ .empty → Kept keccak db' t)) := by
  rcases ht.proper with rfl | hp
  · have hroot : trie.root = .nil := by
      generalize trie.root = n at hrep
      cases hrep with
      | nil force => rfl
      | hash hnode _ _ => cases hnode
    refine ⟨(.hash emptyRoot, .nil, []), ?_, rfl, fun s hs ↦ absurd hs not_mem_nil,
      fun _ ↦ rfl, fun db' hdb _ ↦ ⟨.nil true, fun _ h ↦ absurd rfl h⟩⟩
    rw [hashRoot, hroot]
  let h : Hasher := { keccak256 := keccak, commit := doCommit, cachegen := trie.cachegen,
                      cachelimit := trie.cachelimit }
  obtain ⟨r, hr, hres⟩ := hash_eq h hrep hp
  have hroot : hashRoot keccak doCommit trie = h.hash trie.root true := by
    unfold hashRoot
    cases hn : trie.root with
    | nil =>
      rw [hn] at hrep
      cases hrep
      exact hp.canon.elim
    | value v => rfl
    | short key val flags => rfl
    | full children flags => rfl
    | hash h => rfl
  have hhash := rootHash_of_proper keccak hp
  refine ⟨r, hroot.trans hr, ?_, hres.addressed, hres.pure, fun db' hdb hall ↦
    ⟨hres.rep db' hdb hall, fun hc _ ↦ ?_⟩⟩
  · rcases hres.hashed with ⟨-, h⟩ | ⟨hn, -⟩
    · rw [h, hhash]
    · exact absurd (.inl rfl) hn
  · obtain ⟨hstd, hbel⟩ := hres.kept hc db' hdb hall
    exact ⟨hstd (.inl rfl), hbel⟩

/-! The database of a commit. -/

theorem insert_addressed (hU : CollisionFree keccak U) (hdb : db.Addressed keccak U) {h : Hash}
    {b : Bytes} (hb : b ∈ U) (hh : keccak b = h) :
    (db.insert h b).Addressed keccak U ∧ db.Extends (db.insert h b) ∧
      (db.insert h b).node h = some b := by
  have hsame : ∀ b', db.nodes h = some b' ∨ db.diskdb h = some b' → b' = b := by
    intro b' hb'
    obtain ⟨hhash, hmem⟩ := hdb h b' hb'
    exact hU.injOn hmem hb (hhash.trans hh.symm)
  unfold Database.insert
  cases hn : db.nodes h with
  | some b' =>
    rw [hsame b' (.inl hn)] at hn
    refine ⟨hdb, fun _ _ h ↦ h, ?_⟩
    exact or_eq_some_iff.mpr (.inl hn)
  | none =>
    simp only [isSome_none, Bool.false_eq_true, if_false]
    refine ⟨?_, ?_, ?_⟩
    · intro h' b' hb'
      dsimp only at hb'
      by_cases heq : h' = h
      · subst heq
        rcases hb' with hb' | hb'
        · rw [update_self] at hb'
          cases hb'
          exact ⟨hh, hb⟩
        · exact hdb h' b' (.inr hb')
      · rw [update_of_ne heq] at hb'
        exact hdb h' b' hb'
    · intro h' b' hb'
      simp only [Database.node] at hb' ⊢
      by_cases heq : h' = h
      · subst heq
        rw [hn, none_or] at hb'
        rw [update_self, hsame b' (.inr hb'), some_or]
      · rwa [update_of_ne heq]
    · simp only [Database.node, update_self, some_or]

theorem insertAll_addressed (hU : CollisionFree keccak U) {stored : List Stored}
    (hdb : db.Addressed keccak U) (haddr : ∀ s ∈ stored, keccak s.blob = s.hash)
    (hmem : ∀ s ∈ stored, s.blob ∈ U) :
    (db.insertAll stored).Addressed keccak U ∧ db.Extends (db.insertAll stored) ∧
      ∀ s ∈ stored, (db.insertAll stored).node s.hash = some s.blob := by
  induction stored generalizing db with
  | nil => exact ⟨hdb, fun _ _ h ↦ h, fun s hs ↦ absurd hs not_mem_nil⟩
  | cons s stored ih =>
    obtain ⟨hins, hext, hnode⟩ := insert_addressed hU hdb (hmem s mem_cons_self)
      (haddr s mem_cons_self)
    obtain ⟨hall, hext', hnds⟩ := ih hins (fun w hw ↦ haddr w (mem_cons_of_mem s hw))
      (fun w hw ↦ hmem w (mem_cons_of_mem s hw))
    refine ⟨hall, fun h b hb ↦ hext' h b (hext h b hb), fun w hw ↦ ?_⟩
    rcases mem_cons.mp hw with rfl | hw
    · exact hext' _ _ hnode
    · exact hnds w hw

def Answers (keccak : Bytes → Hash) (t : Tree) (m : Bytes → Option Bytes) :
    Op → Output → Prop
  | .get key, out => out = .value (m key)
  | .hash, out => out = .root (rootHash keccak t)
  | .commit, out => ∃ stored, out = .committed (rootHash keccak t) stored
  | _, out => out = .none

theorem exec_eq (hU : CollisionFree keccak U) {s : State} {ops : List Op}
    (hdb : s.db.Addressed keccak U) (ht : Holds t (contents ops))
    (hrep : Rep keccak s.db true s.trie.root t) (op : Op) :
    ∃ s' out, s.exec keccak op = .ok (s', out) ∧ Answers keccak t (contents ops) op out ∧
      ((∀ w ∈ out.stored, w.blob ∈ U) → Inv keccak U s' (contents (op :: ops)) ∧
        (op = .commit → t ≠ .empty → Kept keccak s'.db t)) := by
  cases op with
  | update key v =>
    obtain ⟨trie', t', hup, hrep', ht'⟩ := tryUpdate_holds hU hdb ht hrep key v
    exact ⟨_, _, bind_eq_ok.mpr ⟨_, hup, rfl⟩, rfl,
      fun _ ↦ ⟨⟨hdb, t', ht', hrep'⟩, by simp⟩⟩
  | delete key =>
    obtain ⟨trie', hdel, hrep'⟩ := tryDelete_holds hU hdb ht hrep key
    exact ⟨_, _, bind_eq_ok.mpr ⟨_, hdel, rfl⟩, rfl,
      fun _ ↦ ⟨⟨hdb, _, holds_delete ht key, hrep'⟩, by simp⟩⟩
  | get key =>
    obtain ⟨trie', hget, hrep'⟩ := tryGet_holds hU hdb ht hrep key
    exact ⟨_, _, bind_eq_ok.mpr ⟨_, hget, rfl⟩, rfl, fun _ ↦ ⟨⟨hdb, t, ht, hrep'⟩, by simp⟩⟩
  | hash =>
    obtain ⟨r, hr, hhash, -, hpure, hres⟩ := hashRoot_holds false ht hrep
    have hself := (hres s.db (fun _ _ h ↦ h) fun w hw ↦ by
      rw [hpure rfl] at hw
      exact absurd hw not_mem_nil).1
    have heval : hash keccak s.trie = .ok (rootHash keccak t, { s.trie with root := r.2.1 }) :=
      bind_eq_ok.mpr ⟨r, hr, by rw [hhash]; rfl⟩
    exact ⟨_, _, bind_eq_ok.mpr ⟨_, heval, rfl⟩, rfl,
      fun _ ↦ ⟨⟨hdb, t, ht, hself⟩, by simp⟩⟩
  | commit =>
    obtain ⟨r, hr, hhash, haddr, -, hres⟩ := hashRoot_holds true ht hrep
    have heval : commit keccak s.trie = .ok (rootHash keccak t,
        { s.trie with root := r.2.1, cachegen := s.trie.cachegen + 1 }, r.2.2) :=
      bind_eq_ok.mpr ⟨r, hr, by rw [hhash]; rfl⟩
    refine ⟨_, _, bind_eq_ok.mpr ⟨_, heval, rfl⟩, ⟨_, rfl⟩, fun hmem ↦ ?_⟩
    obtain ⟨hall, hext, hnds⟩ := insertAll_addressed hU hdb haddr hmem
    obtain ⟨hrep', hkept⟩ := hres _ hext hnds
    exact ⟨⟨hall, t, ht, hrep'⟩, fun _ hne ↦ hkept rfl hne⟩

theorem holds_empty : Holds .empty (contents []) :=
  ⟨.inl rfl, fun _ ↦ rfl, by simp⟩

theorem Run.inv (hU : CollisionFree keccak U) {s : State} {ops : List Op}
    (h : Run keccak U s ops) : Inv keccak U s (contents ops) := by
  induction h with
  | start hdb => exact ⟨hdb, .empty, holds_empty, .nil true⟩
  | @step s s' ops out h op hexec hmem ih =>
    obtain ⟨hdb, t, ht, hrep⟩ := ih
    obtain ⟨s'', out', hexec', -, hinv⟩ := exec_eq hU hdb ht hrep op
    rw [hexec] at hexec'
    cases hexec'
    exact (hinv hmem).1
  | limit h l ih => exact ⟨ih.addressed, ih.tree⟩
  | grow h hext hdb ih =>
    obtain ⟨-, t, ht, hrep⟩ := ih
    exact ⟨hdb, t, ht, hrep.mono hext⟩

/-- A trie is a finite map: reading a key gives the last value written to it, and no operation
fails. -/
theorem get_eq_contents (hU : CollisionFree keccak U) {s : State} {ops : List Op}
    (h : Run keccak U s ops) :
    (∀ key, ∃ s', s.exec keccak (.get key) = .ok (s', .value (contents ops key))) ∧
      ∀ op, ∃ r, s.exec keccak op = .ok r := by
  obtain ⟨hdb, t, ht, hrep⟩ := h.inv hU
  constructor
  · intro key
    obtain ⟨s', out, hexec, hanswer, -⟩ := exec_eq hU hdb ht hrep (.get key)
    rw [hanswer] at hexec
    exact ⟨s', hexec⟩
  intro op
  obtain ⟨s', out, hexec, -, -⟩ := exec_eq hU hdb ht hrep op
  exact ⟨_, hexec⟩

/-! A run with a commit. -/

def spellHash (b : Bytes) : Hash := .ofNat 256 (beValue b)

def noNodes : Database := { nodes := fun _ ↦ none, diskdb := fun _ ↦ none }

theorem noNodes_addressed (keccak : Bytes → Hash) (U : Set Bytes) :
    noNodes.Addressed keccak U := by
  intro h b hb
  rcases hb with hb | hb <;> cases hb

theorem collisionFree_singleton {b : Bytes} (hb : b.length < 2 ^ 64) :
    CollisionFree spellHash {b} :=
  ⟨Set.injOn_singleton _ _, fun _ hb' ↦ Set.mem_singleton_iff.mp hb' ▸ hb⟩

theorem get_eq_contents_committed :
    ∃ s s', Run spellHash {[0xC4, 0x82, 0x20, 0x61, 0x78]} s [.commit, .update [0x61] [0x78]] ∧
      s.exec spellHash (.get [0x61]) = .ok (s', .value (some [0x78])) := by
  have hU := collisionFree_singleton (b := [0xC4, 0x82, 0x20, 0x61, 0x78]) (by decide)
  have hst := Run.start (noNodes_addressed spellHash {[0xC4, 0x82, 0x20, 0x61, 0x78]})
  have hupdate := hst.step (.update [0x61] [0x78]) rfl
    (fun w hw ↦ absurd hw not_mem_nil)
  have hcmt := hupdate.step .commit rfl (by
    intro w hw
    obtain rfl := mem_singleton.mp hw
    rfl)
  obtain ⟨s', hget⟩ := (get_eq_contents hU hcmt).1 [0x61]
  exact ⟨_, s', hcmt, hget⟩

end Invariant

end BjutEth.Trie
