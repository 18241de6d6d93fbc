import BjutEth.Trie.Roots

namespace BjutEth.Trie

open Rlp Patricia List Function Outcome

def collect (db : Database) (cachegen : UInt16) : ℕ → Node → List Nibble → Go (List Node)
  | 0, _, _ => .error .hang
  | _ + 1, _, [] => .ok []
  | fuel + 1, tn, i :: key =>
    match tn with
    | .nil => .ok []
    | .short nkey val flags =>
      if nkey <+: i :: key then
        collect db cachegen fuel val ((i :: key).drop nkey.length) >>= fun nodes ↦
          .ok (.short nkey val flags :: nodes)
      else .ok [.short nkey val flags]
    | .full children flags =>
      collect db cachegen fuel (children i) key >>= fun nodes ↦
        .ok (.full children flags :: nodes)
    | .hash h =>
      Node.resolveHash db cachegen h [] >>= fun n ↦ collect db cachegen fuel n (i :: key)
    | .value _ => .error .panic

def Hasher.hashChildren (h : Hasher) : Node → Go Collapsed
  | .short key val _ =>
    hashVal val (h.hash val false) >>= fun r ↦ .ok (.short (hexToCompact key) r.1)
  | .full children _ =>
    valueSlot (children 16) >>= fun last ↦
      hashAll (fun i ↦ hashChild (children i) (h.hash (children i) false)) childIndices
        (fun _ ↦ last, children, []) >>= fun r ↦ .ok (.full r.1)
  | .hash hash => .ok (.hash hash)
  | .value v => .ok (.value v)
  | .nil => .error .panic

/-- The loop of `Prove` over the collected nodes: those that are hashed, and the root, become
elements of the proof. -/
def elements (h : Hasher) : Bool → List Node → Go (List (Hash × Bytes))
  | _, [] => .ok []
  | first, n :: nodes =>
    h.hashChildren n >>= fun c ↦
      elements h false nodes >>= fun rest ↦
        match (h.store c n.cache.1 false).1 with
        | .hash hash => .ok ((hash, c.encode) :: rest)
        | _ =>
          if first then .ok ((h.keccak256 c.encode, c.encode) :: rest) else .ok rest

def prove (keccak : Bytes → Hash) (db : Database) (t : Trie) (key : Bytes) (fromLevel : ℕ) :
    Go (List (Hash × Bytes)) :=
  let k := keybytesToHex key
  collect db t.cachegen (Trie.calls k) t.root k >>= fun nodes ↦
    elements { keccak256 := keccak, commit := false, cachegen := 0, cachelimit := 0 } true nodes >>= fun l ↦
      .ok (l.drop fromLevel)

def putAll (l : List (Hash × Bytes)) : Hash → Option Bytes :=
  l.foldl (fun db e ↦ update db e.1 (some e.2)) fun _ ↦ none

/-- `get` of the verifier: the rest of the key and the node at which the walk in one decoded node
ends. -/
def Node.get : Node → List Nibble → Decoded (List Nibble × Node)
  | .short nkey val _, key =>
    if nkey <+: key then val.get (key.drop nkey.length) else .ok ([], .nil)
  | .full _ _, [] => .error .panic
  | .full children _, i :: key => (children i).get key
  | .hash h, key => .ok (key, .hash h)
  | .nil, key => .ok (key, .nil)
  | .value v, _ => .ok ([], .value v)

inductive ProofError
  | missing (i : ℕ) (hash : Hash)
  | bad (i : ℕ) (e : DecodeError)
  deriving DecidableEq

def badNode {α : Type} (i : ℕ) : Stop DecodeError → Outcome ProofError α
  | .err e => .error (.err (.bad i e))
  | .panic => .error .panic
  | .hang => .error .hang

/-- The loop of `VerifyProof`: the value, and the number of nodes that were used. -/
def verifyLoop (proofDb : Hash → Option Bytes) :
    ℕ → ℕ → Hash → List Nibble → Outcome ProofError (Option Bytes × ℕ)
  | 0, _, _, _ => .error .hang
  | fuel + 1, i, wantHash, key =>
    match proofDb wantHash with
    | none => .error (.err (.missing i wantHash))
    | some buf =>
      match decodeNode 0 (buf.length + 1) (some wantHash) buf with
      | .error e => badNode i e
      | .ok n =>
        match n.get key with
        | .ok (keyrest, .hash h) => verifyLoop proofDb fuel (i + 1) h keyrest
        | .ok (_, .value v) => .ok (some v, i + 1)
        | .ok (_, _) => .ok (none, i)
        | .error e => badNode i e

def verifyProof (proofDb : Hash → Option Bytes) (fuel : ℕ) (rootHash : Hash) (key : Bytes) :
    Outcome ProofError (Option Bytes × ℕ) :=
  verifyLoop proofDb fuel 0 rootHash (keybytesToHex key)

inductive OnPath : Tree → List Nibble → Tree → List Nibble → Prop
  | here (t : Tree) (k : List Nibble) : OnPath t k t k
  | short {key x r : List Nibble} {c d : Tree} (h : OnPath c x d r) :
    OnPath (.short key c) (key ++ x) d r
  | full {i : Nibble} {x r : List Nibble} {cs : Nibble → Tree} {d : Tree}
    (h : OnPath (cs i) x d r) : OnPath (.full cs) (i :: x) d r

variable {t d : Tree} {k r key : List Nibble}

theorem OnPath.trans {c : Tree} {x : List Nibble} (h : OnPath t k c x) (h' : OnPath c x d r) :
    OnPath t k d r := by
  induction h with
  | here t k => exact h'
  | short h ih => exact .short (ih h')
  | full h ih => exact .full (ih h')

section Verify

variable {keccak : Bytes → Hash}

def encodings (keccak : Bytes → Hash) (t : Tree) : Set Bytes :=
  { b | ∃ k d r, OnPath t k d r ∧ (d = t ∨ IsHashed keccak d) ∧ b = encode keccak d }

inductive Lands (keccak : Bytes → Hash) (t : Tree) (key : List Nibble) :
    List Nibble × Node → Prop
  | value {v : Bytes} (hv : t.get key = some v) : Lands keccak t key ([], .value v)
  | absent (r : List Nibble) (hnone : t.get key = none) : Lands keccak t key (r, .nil)
  | hash {c : Tree} {r : List Nibble} (hpath : OnPath t key c r) (hc : Proper c)
    (hhsh : IsHashed keccak c) (hr : Terminated 16 r) (hget : t.get key = c.get r)
    (hlen : r.length < key.length) :
    Lands keccak t key (r, .hash (keccak (encode keccak c)))

theorem Lands.short {key x : List Nibble} {c : Tree} {res : List Nibble × Node}
    (h : Lands keccak c x res) : Lands keccak (.short key c) (key ++ x) res := by
  have hget := get_short_append key c x
  cases h with
  | value hv => exact .value (hget.trans hv)
  | absent r hnone => exact .absent r (hget.trans hnone)
  | hash hpath hc hhsh hr heq hlen =>
    refine .hash (.short hpath) hc hhsh hr (hget.trans heq) ?_
    rw [length_append]
    omega

theorem Lands.full {i : Nibble} {x : List Nibble} {cs : Nibble → Tree} {res : List Nibble × Node}
    (h : Lands keccak (cs i) x res) : Lands keccak (.full cs) (i :: x) res := by
  cases h with
  | value hv => exact .value hv
  | absent r hnone => exact .absent r hnone
  | hash hpath hc hhsh hr heq hlen =>
    exact .hash (.full hpath) hc hhsh hr heq (Nat.lt_succ_of_lt hlen)

theorem get_shallow (ht : Proper t) (gen : UInt16) (hash : Option Hash) (hkey : Terminated 16 key) :
    ∃ res, (shallow keccak gen hash t).get key = .ok res ∧ Lands keccak t key res := by
  induction t generalizing hash key with
  | empty => exact ht.canon.elim
  | value v => exact ht.canon.elim
  | short nkey c ih =>
    by_cases hpre : nkey <+: key
    · obtain ⟨x, rfl⟩ := hpre
      have hpos := length_pos_iff.mpr ht.key_ne_nil
      simp only [shallow, Node.get, prefix_append, if_true, drop_left]
      rcases ht.short_cases with ⟨v, -, rfl, hk⟩ | ⟨-, -, hmem, hc⟩
      · refine ⟨_, rfl, .value ?_⟩
        rw [hk.append_eq_self hkey, get_short_append, get_value_nil]
      have hx := (terminated_append hmem x).mp hkey
      split_ifs with hhsh
      · refine ⟨_, rfl, .hash (.short (.here c x)) hc hhsh hx (get_short_append _ _ _) ?_⟩
        rw [length_append]
        omega
      · obtain ⟨res, hres, hlands⟩ := ih hc none hx
        exact ⟨res, hres, hlands.short⟩
    · refine ⟨([], .nil), ?_, .absent [] (get_short_of_not hpre c)⟩
      simp only [shallow, Node.get, hpre, if_false]
  | full cs ih =>
    cases key with
    | nil => exact hkey.elim
    | cons i x =>
      simp only [shallow, Node.get]
      rcases ht.full_cases i with hnil | ⟨rfl, v, -, hv⟩ | ⟨hi, hc⟩
      · simp only [hnil]
        exact ⟨_, rfl, .absent x (by rw [get_full_cons, hnil, get_empty])⟩
      · have hx : x = [] := hkey.elim (fun h ↦ h.2) fun h ↦ absurd rfl h.1
        simp only [hv]
        exact ⟨_, rfl, .value (by rw [get_full_cons, hv, hx, get_value_nil])⟩
      have hx : Terminated 16 x := hkey.elim (fun h ↦ absurd h.1 hi) fun h ↦ h.2
      split_ifs with hhsh
      · exact ⟨_, rfl, .hash (.full (.here (cs i) x)) hc hhsh hx rfl (Nat.lt_succ_self _)⟩
      obtain ⟨res, hres, hlands⟩ := ih i hc none hx
      exact ⟨res, hres, hlands.full⟩

variable {proofDb : Hash → Option Bytes}

theorem verifyLoop_step (ht : Proper t) (hlen : (encode keccak t).length < 2 ^ 64)
    (hnode : proofDb (keccak (encode keccak t)) = some (encode keccak t))
    (hkey : Terminated 16 key) :
    (∃ n, ∀ fuel i, verifyLoop proofDb (fuel + 1) i (keccak (encode keccak t)) key =
        .ok (t.get key, i + n)) ∨
      ∃ c r, OnPath t key c r ∧ Proper c ∧ IsHashed keccak c ∧ Terminated 16 r ∧
        t.get key = c.get r ∧ r.length < key.length ∧
        ∀ fuel i, verifyLoop proofDb (fuel + 1) i (keccak (encode keccak t)) key =
          verifyLoop proofDb fuel (i + 1) (keccak (encode keccak c)) r := by
  have hdec := decodeNode_encode ht 0 (some (keccak (encode keccak t))) hlen []
    (Nat.le_succ _)
  rw [append_nil] at hdec
  obtain ⟨res, hres, hlands⟩ : ∃ res, (shallow keccak 0 (some (keccak (encode keccak t)))
      t).get key = .ok res ∧ Lands keccak t key res := get_shallow ht 0 _ hkey
  cases hlands with
  | value hv =>
    refine .inl ⟨1, fun fuel i ↦ ?_⟩
    simp only [verifyLoop, hnode, hdec, hres, hv]
  | absent r hnone =>
    refine .inl ⟨0, fun fuel i ↦ ?_⟩
    simp only [verifyLoop, hnode, hdec, hres, hnone, Nat.add_zero]
  | hash hpath hc hhsh hr hget hlt =>
    refine .inr ⟨_, _, hpath, hc, hhsh, hr, hget, hlt, fun fuel i ↦ ?_⟩
    simp only [verifyLoop, hnode, hdec, hres]

theorem verifyLoop_complete (m : ℕ) (ht : Proper t) (hkey : Terminated 16 key) (hm : key.length ≤ m)
    (hnds : ∀ d r, OnPath t key d r → d = t ∨ IsHashed keccak d →
      (encode keccak d).length < 2 ^ 64 ∧ proofDb (keccak (encode keccak d)) = some (encode keccak d)) :
    ∃ n, ∀ fuel i, key.length < fuel →
      verifyLoop proofDb fuel i (keccak (encode keccak t)) key = .ok (t.get key, i + n) := by
  induction m generalizing t key with
  | zero =>
    rw [eq_nil_of_length_eq_zero (Nat.le_zero.mp hm)] at hkey
    exact hkey.elim
  | succ m ih =>
    obtain ⟨hlen, hnode⟩ := hnds t key (.here t key) (.inl rfl)
    have hsucc : ∀ {fuel : ℕ}, key.length < fuel → ∃ fuel', fuel = fuel' + 1 := fun h ↦
      Nat.exists_eq_succ_of_ne_zero (by omega)
    rcases verifyLoop_step ht hlen hnode hkey with
      ⟨n, hn⟩ | ⟨c, r, hpath, hc, hhsh, hr, hget, hlt, hstep⟩
    · refine ⟨n, fun fuel i hfuel ↦ ?_⟩
      obtain ⟨fuel, rfl⟩ := hsucc hfuel
      exact hn fuel i
    obtain ⟨n, hn⟩ := ih hc hr (by omega) fun d x hd hd' ↦
      hnds d x (hpath.trans hd) (.inr (hd'.elim (fun h ↦ h ▸ hhsh) id))
    refine ⟨n + 1, fun fuel i hfuel ↦ ?_⟩
    obtain ⟨fuel, rfl⟩ := hsucc hfuel
    rw [hstep, hn fuel (i + 1) (by omega), hget, Nat.add_right_comm, Nat.add_assoc]

theorem verifyLoop_sound {V : Set Bytes} (hV : CollisionFree keccak V)
    (hproof : ∀ h b, proofDb h = some b → keccak b = h ∧ b ∈ V) {fuel i n : ℕ} (ht : Proper t)
    (hkey : Terminated 16 key)
    (hnds : ∀ d r, OnPath t key d r → d = t ∨ IsHashed keccak d → encode keccak d ∈ V)
    {v : Option Bytes} (h : verifyLoop proofDb fuel i (keccak (encode keccak t)) key = .ok (v, n)) :
    v = t.get key := by
  induction fuel generalizing i t key with
  | zero => cases h
  | succ fuel ih =>
    have hmem := hnds t key (.here t key) (.inl rfl)
    cases hget : proofDb (keccak (encode keccak t)) with
    | none =>
      simp only [verifyLoop, hget] at h
      cases h
    | some b =>
      obtain ⟨hhash, hb⟩ := hproof _ b hget
      rw [hV.injOn hb hmem hhash] at hget
      rcases verifyLoop_step ht (hV.length_lt _ hmem) hget hkey with
        ⟨m, hm⟩ | ⟨c, r, hpath, hc, hhsh, hr, heq, -, hstep⟩
      · rw [hm] at h
        cases h
        rfl
      rw [hstep] at h
      rw [heq]
      exact ih hc hr (fun d x hd hd' ↦ hnds d x (hpath.trans hd)
        (.inr (hd'.elim (fun h ↦ h ▸ hhsh) id))) h

end Verify

/-! The nodes that are collected. -/

section Prove

variable {keccak : Bytes → Hash} {db : Database} {U : Set Bytes}

def spine : Tree → List Nibble → List Tree
  | .short key c, k => .short key c :: (if key <+: k then spine c (k.drop key.length) else [])
  | .full cs, i :: k => .full cs :: spine (cs i) k
  | _, _ => []

theorem onPath_of_mem_spine (h : d ∈ spine t k) : ∃ r, OnPath t k d r := by
  induction t generalizing k with
  | empty => cases h
  | value v => cases h
  | short key c ih =>
    rcases mem_cons.mp h with rfl | h
    · exact ⟨k, .here _ k⟩
    by_cases hpre : key <+: k
    · obtain ⟨x, rfl⟩ := hpre
      rw [if_pos (prefix_append key x), drop_left] at h
      obtain ⟨r, hr⟩ := ih h
      exact ⟨r, .short hr⟩
    · rw [if_neg hpre] at h
      cases h
  | full cs ih =>
    cases k with
    | nil => cases h
    | cons i k =>
      rcases mem_cons.mp h with rfl | h
      · exact ⟨i :: k, .here _ _⟩
      obtain ⟨r, hr⟩ := ih i h
      exact ⟨r, .full hr⟩

theorem isNode_of_mem_spine (h : d ∈ spine t k) : isNode d = true := by
  induction t generalizing k with
  | empty => cases h
  | value v => cases h
  | short key c ih =>
    rcases mem_cons.mp h with rfl | h
    · rfl
    split at h
    · exact ih h
    · cases h
  | full cs ih =>
    cases k with
    | nil => cases h
    | cons i k =>
      rcases mem_cons.mp h with rfl | h
      · rfl
      · exact ih i h

theorem mem_spine_of_onPath (h : OnPath t k d r) (hd : isNode d = true) (hr : r ≠ []) : d ∈ spine t k := by
  induction h with
  | here t k =>
    cases t with
    | empty => cases hd
    | value v => cases hd
    | short key c => exact mem_cons_self
    | full cs =>
      cases k with
      | nil => exact absurd rfl hr
      | cons i k => exact mem_cons_self
  | short h ih =>
    refine mem_cons_of_mem _ ?_
    rw [if_pos (prefix_append _ _), drop_left]
    exact ih hd hr
  | full h ih => exact mem_cons_of_mem _ (ih hd hr)

def Loaded (keccak : Bytes → Hash) (db : Database) (n : Node) (d : Tree) : Prop :=
  (∃ force, Rep keccak db force n d) ∧ Proper d ∧ ∀ h, n ≠ .hash h

theorem collect_eq (hU : CollisionFree keccak U) (hdb : db.Addressed keccak U) (gen : UInt16)
    {fuel : ℕ} {force : Bool} {n : Node} (h : Rep keccak db force n t) (hkey : Fits t key)
    (hfuel : rounds n key ≤ fuel) :
    ∃ nodes, collect db gen fuel n key = .ok nodes ∧
      List.Forall₂ (Loaded keccak db) nodes (spine t key) := by
  induction fuel generalizing force n t key with
  | zero =>
    unfold rounds at hfuel
    split at hfuel <;> omega
  | succ fuel ih =>
    cases h with
    | nil force => exact ⟨[], by cases key <;> rfl, .nil⟩
    | value force v =>
      rcases hkey with ⟨rfl, -⟩ | ⟨-, h | h⟩
      · exact ⟨[], rfl, .nil⟩
      · cases h
      · exact h.canon.elim
    | @short force nkey m flags c hn hfl =>
      obtain ⟨hprop, hk⟩ := hkey.proper_of_isNode rfl
      have hself : Loaded keccak db (.short nkey m flags) (.short nkey c) :=
        ⟨⟨force, .short hn hfl⟩, hprop, by simp⟩
      cases key with
      | nil => exact hk.elim
      | cons i k =>
        by_cases hpre : nkey <+: i :: k
        · have hkeep := hpre
          obtain ⟨x, hx⟩ := hpre
          have hrounds := rounds_short_le hprop.key_ne_nil (hx ▸ hfuel)
          have hdrop : (i :: k).drop nkey.length = x := by rw [← hx, drop_left]
          obtain ⟨nodes, hnds, hall⟩ := ih hn (fits_short hprop (hx ▸ hk)) hrounds
          rw [spine, if_pos hkeep, hdrop]
          refine ⟨.short nkey m flags :: nodes, ?_, .cons hself hall⟩
          simp only [collect, if_pos hkeep, hdrop]
          exact bind_eq_ok.mpr ⟨_, hnds, rfl⟩
        rw [spine, if_neg hpre]
        refine ⟨[.short nkey m flags], ?_, .cons hself .nil⟩
        simp only [collect, if_neg hpre]
    | @full force ns flags cs hns hfl =>
      obtain ⟨hprop, hk⟩ := hkey.proper_of_isNode rfl
      cases key with
      | nil => exact hk.elim
      | cons i x =>
        obtain ⟨nodes, hnds, hall⟩ := ih (hns i) (fits_full hprop hk) (rounds_full_le hfuel)
        exact ⟨.full ns flags :: nodes, bind_eq_ok.mpr ⟨_, hnds, rfl⟩,
          .cons ⟨⟨force, .full hns hfl⟩, hprop, by simp⟩ hall⟩
    | hash ht hkept hlong =>
      obtain ⟨hprop, hk⟩ := hkey.proper_of_isNode ht
      cases key with
      | nil => exact hk.elim
      | cons i k =>
        obtain ⟨nodes, hnds, hall⟩ := ih (rep_resolved hkept gen hlong) hkey
          (by rw [rounds_shallow]; simp only [rounds] at hfuel; omega)
        exact ⟨nodes, bind_eq_ok.mpr
          ⟨_, resolveHash_eq hU hdb hprop hkept gen [], hnds⟩, hall⟩

def treeElements (keccak : Bytes → Hash) : Bool → List Tree → List (Hash × Bytes)
  | _, [] => []
  | first, d :: ds =>
    if first = true ∨ 32 ≤ (encode keccak d).length then
      (keccak (encode keccak d), encode keccak d) :: treeElements keccak false ds
    else treeElements keccak false ds

theorem hashChildren_loaded (h : Hasher) {n : Node} (hn : Loaded h.keccak256 db n d) :
    ∃ c, h.hashChildren n = .ok c ∧ c.hash? = none ∧ c.encode = encode h.keccak256 d ∧
      ∀ hash, n.cache.1 = some hash → hash = h.keccak256 (encode h.keccak256 d) := by
  obtain ⟨⟨force, hrep⟩, hd, hld⟩ := hn
  cases hrep with
  | nil force => exact hd.canon.elim
  | value force v => exact hd.canon.elim
  | hash hnode hkept hlong => exact absurd rfl (hld _)
  | @short force key m flags c hm hfl =>
    obtain ⟨r, hr, hres⟩ := hashVal_eq h hm hd fun hc ↦ hash_eq h hm hc
    refine ⟨_, bind_eq_ok.mpr ⟨r, hr, rfl⟩, rfl, ?_, fun hash hh ↦ (hfl.hash hash hh).1⟩
    rw [Collapsed.encode, hres.encode_eq, encode]
  | @full force ns flags cs hns hfl =>
    obtain ⟨last, r, hlast, hall, hres⟩ := hashChildren_eq h hns hd fun i hc ↦ hash_eq h (hns i) hc
    exact ⟨_, bind_eq_ok.mpr ⟨last, hlast, bind_eq_ok.mpr ⟨r, hall, rfl⟩⟩, rfl,
      hres.encode_eq, fun hash hh ↦ (hfl.hash hash hh).1⟩

variable {ds : List Tree}

theorem elements_eq (h : Hasher) {nodes : List Node} (hall : List.Forall₂ (Loaded h.keccak256 db) nodes ds)
    (first : Bool) : elements h first nodes = .ok (treeElements h.keccak256 first ds) := by
  induction hall generalizing first with
  | nil => rfl
  | @cons n d nodes ds hn hall ih =>
    obtain ⟨c, hc, hinline, henc, hcch⟩ := hashChildren_loaded h hn
    have hhash : n.cache.1.getD (h.keccak256 (encode h.keccak256 d)) =
        h.keccak256 (encode h.keccak256 d) := by
      cases hcached : n.cache.1 with
      | none => rfl
      | some hash => exact hcch hash hcached
    have hsto := store_eq h hinline n.cache.1 false
    rw [henc, hhash] at hsto
    refine bind_eq_ok.mpr ⟨c, hc, bind_eq_ok.mpr ⟨_, ih false, ?_⟩⟩
    rw [hsto, treeElements, henc]
    by_cases hlong : 32 ≤ (encode h.keccak256 d).length
    · rw [if_neg (by omega : ¬ ((encode h.keccak256 d).length < 32 ∧ false = false))]
      exact congrArg Except.ok (if_pos (Or.inr hlong)).symm
    rw [if_pos ⟨by omega, rfl⟩]
    cases c with
    | hash hash => cases hinline
    | value v => cases first <;> simp [hlong]
    | short key val => cases first <;> simp [hlong]
    | full children => cases first <;> simp [hlong]

theorem mem_treeElements {first : Bool} {e : Hash × Bytes} (h : e ∈ treeElements keccak first ds) :
    ∃ d ∈ ds, e = (keccak (encode keccak d), encode keccak d) ∧
      (32 ≤ (encode keccak d).length ∨ first = true ∧ ds.head? = some d) := by
  induction ds generalizing first with
  | nil => cases h
  | cons d ds ih =>
    have hrest (h : e ∈ treeElements keccak false ds) :
        ∃ d' ∈ d :: ds, e = (keccak (encode keccak d'), encode keccak d') ∧
          (32 ≤ (encode keccak d').length ∨ first = true ∧ (d :: ds).head? = some d') := by
      obtain ⟨d', hd', he, hlong⟩ := ih h
      exact ⟨d', mem_cons_of_mem d hd', he, .inl (hlong.resolve_right fun hf ↦ by cases hf.1)⟩
    rw [treeElements] at h
    split at h
    · next hd =>
      rcases mem_cons.mp h with rfl | h
      · exact ⟨d, mem_cons_self, rfl, hd.symm.imp_right fun hf ↦ ⟨hf, rfl⟩⟩
      · exact hrest h
    · exact hrest h

theorem treeElements_mem {first : Bool} (hd : d ∈ ds)
    (hlong : 32 ≤ (encode keccak d).length ∨ first = true ∧ ds.head? = some d) :
    (keccak (encode keccak d), encode keccak d) ∈ treeElements keccak first ds := by
  induction ds generalizing first with
  | nil => cases hd
  | cons d' ds ih =>
    rw [treeElements]
    by_cases heq : d = d'
    · subst heq
      rw [if_pos (hlong.symm.imp_left fun h ↦ h.1)]
      exact mem_cons_self
    have hd := (mem_cons.mp hd).resolve_left heq
    have hlong : 32 ≤ (encode keccak d).length :=
      hlong.resolve_right fun h ↦ heq (Option.some.inj h.2).symm
    split
    · exact mem_cons_of_mem _ (ih hd (.inl hlong))
    · exact ih hd (.inl hlong)

theorem foldl_update_eq_some {l : List (Hash × Bytes)} {hash : Hash} {b : Bytes}
    (hsame : ∀ e ∈ l, e.1 = hash → e.2 = b) (proofDb : Hash → Option Bytes)
    (h : proofDb hash = some b ∨ (hash, b) ∈ l) :
    l.foldl (fun (db : Hash → Option Bytes) e ↦ update db e.1 (some e.2)) proofDb hash =
      some b := by
  induction l generalizing proofDb with
  | nil => exact h.resolve_right not_mem_nil
  | cons e l ih =>
    refine ih (fun e' he' ↦ hsame e' (mem_cons_of_mem e he')) _ ?_
    beta_reduce
    by_cases he : e.1 = hash
    · rw [he, update_self, hsame e mem_cons_self he]
      exact .inl rfl
    rw [update_of_ne (Ne.symm he)]
    refine h.imp_right fun hmem ↦ (mem_cons.mp hmem).resolve_left fun heq ↦ he ?_
    rw [← heq]

theorem OnPath.fits (h : OnPath t k d r) (ht : Fits t k) : Fits d r := by
  induction h with
  | here t k => exact ht
  | short h ih =>
    obtain ⟨hp, hk⟩ := ht.proper_of_isNode rfl
    exact ih (fits_short hp hk)
  | full h ih =>
    obtain ⟨hp, hk⟩ := ht.proper_of_isNode rfl
    exact ih (fits_full hp hk)

theorem head_spine (ht : isNode t = true) (hk : k ≠ []) : (spine t k).head? = some t := by
  cases t with
  | empty => cases ht
  | value v => cases ht
  | short key c => rfl
  | full cs =>
    cases k with
    | nil => exact absurd rfl hk
    | cons i k => rfl

theorem putAll_spine {V : Set Bytes} (hV : CollisionFree keccak V) (ht : Proper t)
    (hmem : encodings keccak t ⊆ V) (hk : Terminated 16 k) (hd : OnPath t k d r)
    (hhsh : d = t ∨ IsHashed keccak d) :
    putAll (treeElements keccak true (spine t k)) (keccak (encode keccak d)) =
      some (encode keccak d) := by
  have hnode : isNode t = true := isNode_of_canon ht.canon
  have hne : k ≠ [] := by
    rintro rfl
    exact hk
  have hdnode : isNode d = true := by
    rcases hhsh with rfl | h
    · exact hnode
    · exact h.1
  have hrest : r ≠ [] := by
    rintro rfl
    exact ((hd.fits (.inr ⟨hk, .inr ht⟩)).proper_of_isNode hdnode).2
  refine foldl_update_eq_some ?_ _ (.inr (treeElements_mem (mem_spine_of_onPath hd hdnode hrest) ?_))
  · intro e he heq
    obtain ⟨d', hd', rfl, hlong⟩ := mem_treeElements he
    obtain ⟨r', hpath⟩ := onPath_of_mem_spine hd'
    have hd'' : d' = t ∨ IsHashed keccak d' := by
      rcases hlong with hlong | ⟨-, hhead⟩
      · exact .inr ⟨isNode_of_mem_spine hd', hlong⟩
      rw [head_spine hnode hne] at hhead
      exact .inl (Option.some.inj hhead).symm
    exact hV.injOn (hmem ⟨k, d', r', hpath, hd'', rfl⟩) (hmem ⟨k, d, r, hd, hhsh, rfl⟩) heq
  rcases hhsh with rfl | h
  · exact .inr ⟨rfl, head_spine hnode hne⟩
  · exact .inl h.2

theorem prove_eq (hU : CollisionFree keccak U) (hdb : db.Addressed keccak U) {trie : Trie}
    {m : Bytes → Option Bytes} (ht : Holds t m) (hrep : Rep keccak db true trie.root t) (key : Bytes) :
    prove keccak db trie key 0 =
      .ok (treeElements keccak true (spine t (keybytesToHex key))) := by
  obtain ⟨nodes, hnds, hall⟩ := collect_eq hU hdb trie.cachegen hrep (ht.fits key)
    (rounds_le_calls _ _)
  exact bind_eq_ok.mpr ⟨nodes, hnds,
    bind_eq_ok.mpr ⟨_, elements_eq { keccak256 := keccak, commit := false, cachegen := 0,
                                             cachelimit := 0 } hall true, rfl⟩⟩

/-- A proof leads the verifier to the value of the key, and no set of nodes leads it to another
one. -/
theorem verifyProof_prove {V : Set Bytes} (hU : CollisionFree keccak U)
    (hV : CollisionFree keccak V) {s : State} {ops : List Op} (h : Run keccak U s ops)
    (hsome : ∃ key, contents ops key ≠ none)
    (hmem : ∀ t, Holds t (contents ops) → encodings keccak t ⊆ V) :
    ∃ root trie, hash keccak s.trie = .ok (root, trie) ∧ ∀ key,
      (∃ l n, prove keccak s.db s.trie key 0 = .ok l ∧
        Returns (fun fuel ↦ verifyProof (putAll l) fuel root key) (contents ops key, n)) ∧
      ∀ proofDb, (∀ h b, proofDb h = some b → keccak b = h ∧ b ∈ V) →
        ∀ fuel v n, verifyProof proofDb fuel root key = .ok (v, n) → v = contents ops key := by
  obtain ⟨hdb, t, ht, hrep⟩ := h.inv hU
  obtain ⟨trie, hhash⟩ := hash_eq_rootHash hU h ht
  have hp : Proper t := ht.proper.resolve_left (by
    rintro rfl
    obtain ⟨key, hkey⟩ := hsome
    exact hkey (ht.get key).symm)
  rw [rootHash_of_proper keccak hp] at hhash
  refine ⟨_, trie, hhash, fun key ↦ ?_⟩
  have hk := terminated_keybytesToHex key
  have hin : ∀ d r, OnPath t (keybytesToHex key) d r → d = t ∨ IsHashed keccak d →
      encode keccak d ∈ V :=
    fun d r hd hh ↦ hmem t ht ⟨_, d, r, hd, hh, rfl⟩
  constructor
  · obtain ⟨n, hn⟩ := verifyLoop_complete _ hp hk le_rfl fun d r hd hh ↦
      ⟨hV.length_lt _ (hin d r hd hh), putAll_spine hV hp (hmem t ht) hk hd hh⟩
    refine ⟨_, 0 + n, prove_eq hU hdb ht hrep key, (keybytesToHex key).length + 1,
      fun fuel hfuel ↦ ?_⟩
    rw [← ht.get key]
    exact hn fuel 0 hfuel
  intro proofDb hproof fuel v n hv
  rw [← ht.get key]
  exact verifyLoop_sound hV hproof hp hk hin hv

/-- An absent key of a trie with one value. -/
theorem verifyProof_prove_absent :
    ∃ (s : State) (root : Hash) (trie : Trie) (l : List (Hash × Bytes)) (n : ℕ),
      hash spellHash s.trie = .ok (root, trie) ∧
      prove spellHash s.db s.trie [0x62] 0 = .ok l ∧
      Returns (fun fuel ↦ verifyProof (putAll l) fuel root [0x62]) (none, n) := by
  have hV := collisionFree_singleton (b := [0xC4, 0x82, 0x20, 0x61, 0x78]) (by decide)
  have hst := Run.start (noNodes_addressed spellHash {[0xC4, 0x82, 0x20, 0x61, 0x78]})
  have hrun := hst.step (.update [0x61] [0x78]) rfl (fun w hw ↦ absurd hw not_mem_nil)
  have hholds : Holds (.short [6, 1, 16] (.value [0x78])) (contents [.update [0x61] [0x78]]) :=
    holds_insert holds_empty [0x61] (v := [0x78]) (by decide)
  have hmem : ∀ t, Holds t (contents [.update [0x61] [0x78]]) →
      encodings spellHash t ⊆ {[0xC4, 0x82, 0x20, 0x61, 0x78]} := by
    intro t ht b hb
    rw [ht.unique hholds] at hb
    obtain ⟨k, d, r, hpath, hd, rfl⟩ := hb
    cases hpath with
    | here _ _ => rfl
    | short hpath =>
      cases hpath with
      | here _ _ =>
        rcases hd with hd | hd
        · cases hd
        · exact absurd hd (not_isHashed_value _)
  obtain ⟨root, trie, hhash, hall⟩ := verifyProof_prove hV hV hrun ⟨[0x61], by decide⟩ hmem
  obtain ⟨⟨l, n, hprove, hret⟩, -⟩ := hall [0x62]
  exact ⟨_, root, trie, l, n, hhash, hprove, hret⟩

end Prove

end BjutEth.Trie
