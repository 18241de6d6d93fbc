import BjutEth.Trie.Merkle

namespace BjutEth.Trie

open Rlp Patricia List Function Outcome

section Represents

variable (keccak : Bytes → Hash)

/-- The hash tells the byte strings of a collection apart, none of which is too long for a Go
slice. -/
structure CollisionFree (U : Set Bytes) : Prop where
  injOn : Set.InjOn keccak U
  length_lt : ∀ b ∈ U, b.length < 2 ^ 64

namespace Database

def Addressed (db : Database) (U : Set Bytes) : Prop :=
  ∀ h b, db.nodes h = some b ∨ db.diskdb h = some b → keccak b = h ∧ b ∈ U

def Extends (db db' : Database) : Prop := ∀ h b, db.node h = some b → db'.node h = some b

end Database

variable (db : Database)

def Below : Tree → Prop
  | .short _ c =>
    (IsHashed keccak c →
      db.node (keccak (encode keccak c)) = some (encode keccak c)) ∧ Below c
  | .full cs =>
    ∀ i, (IsHashed keccak (cs i) →
      db.node (keccak (encode keccak (cs i))) = some (encode keccak (cs i))) ∧ Below (cs i)
  | _ => True

def Kept (t : Tree) : Prop :=
  db.node (keccak (encode keccak t)) = some (encode keccak t) ∧ Below keccak db t

def IsLong (force : Bool) (t : Tree) : Prop := force = true ∨ 32 ≤ (encode keccak t).length

/-- A cached hash is the hash of a node that is hashed, and a hashed node that is not dirty is in
the database. -/
structure FlagOk (force : Bool) (flags : NodeFlag) (t : Tree) : Prop where
  hash : ∀ h, flags.hash = some h →
    h = keccak (encode keccak t) ∧ IsLong keccak force t
  clean : flags.dirty = false → IsLong keccak force t → Kept keccak db t

/-- A node stands for a tree, some parts of which are not loaded. -/
inductive Rep : Bool → Node → Tree → Prop
  | nil (force : Bool) : Rep force .nil .empty
  | value (force : Bool) (v : Bytes) : Rep force (.value v) (.value v)
  | short {force : Bool} {key : List Nibble} {n : Node} {flags : NodeFlag} {c : Tree}
    (hn : Rep false n c) (hfl : FlagOk keccak db force flags (.short key c)) :
    Rep force (.short key n flags) (.short key c)
  | full {force : Bool} {ns : Nibble → Node} {flags : NodeFlag} {cs : Nibble → Tree}
    (hns : ∀ i, Rep false (ns i) (cs i)) (hfl : FlagOk keccak db force flags (.full cs)) :
    Rep force (.full ns flags) (.full cs)
  | hash {force : Bool} {t : Tree} (ht : isNode t = true) (hkept : Kept keccak db t)
    (hlong : IsLong keccak force t) :
    Rep force (.hash (keccak (encode keccak t))) t

end Represents

variable {keccak : Bytes → Hash} {db db' : Database} {U : Set Bytes}

variable {t c : Tree} {force : Bool} {key : List Nibble}

theorem Below.mono (hdb : db.Extends db') (h : Below keccak db t) : Below keccak db' t := by
  induction t with
  | empty => trivial
  | value v => trivial
  | short key c ih => exact ⟨fun hc ↦ hdb _ _ (h.1 hc), ih h.2⟩
  | full cs ih => exact fun i ↦ ⟨fun hc ↦ hdb _ _ ((h i).1 hc), ih i (h i).2⟩

theorem Kept.mono (hdb : db.Extends db') (h : Kept keccak db t) :
    Kept keccak db' t := ⟨hdb _ _ h.1, h.2.mono hdb⟩

variable {flags : NodeFlag}

theorem FlagOk.mono (hdb : db.Extends db') (h : FlagOk keccak db force flags t) :
    FlagOk keccak db' force flags t :=
  ⟨h.hash, fun hd hlong ↦ (h.clean hd hlong).mono hdb⟩

theorem Rep.mono (hdb : db.Extends db') {n : Node} (h : Rep keccak db force n t) :
    Rep keccak db' force n t := by
  induction h with
  | nil force => exact .nil force
  | value force v => exact .value force v
  | short hn hfl ih => exact .short ih (hfl.mono hdb)
  | full hns hfl ih => exact .full ih (hfl.mono hdb)
  | hash ht hkept hlong => exact .hash ht (hkept.mono hdb) hlong

theorem flagOk_newFlag (force : Bool) (gen : UInt16) (t : Tree) :
    FlagOk keccak db force (Node.newFlag gen) t :=
  ⟨fun h hhash ↦ (by cases hhash), fun hd ↦ (by cases hd)⟩

theorem flagOk_touch (h : FlagOk keccak db force flags t) (gen : UInt16) :
    FlagOk keccak db force (Node.touch gen flags) t := ⟨h.hash, h.clean⟩

theorem flagOk_embedded (hnode : isNode c = true) (hsml : ¬ IsHashed keccak c) (gen : UInt16) :
    FlagOk keccak db false { hash := none, gen, dirty := false } c := by
  refine ⟨by simp, fun _ hlong ↦ ?_⟩
  rcases hlong with h | h
  · cases h
  · exact absurd ⟨hnode, h⟩ hsml

theorem rep_shallow (hbel : Below keccak db t) (gen : UInt16) (hash : Option Hash)
    (hfl : isNode t = true → FlagOk keccak db force { hash, gen, dirty := false } t) :
    Rep keccak db force (shallow keccak gen hash t) t := by
  induction t generalizing hash force with
  | empty => exact .nil force
  | value v => exact .value force v
  | short key c ih =>
    refine .short ?_ (hfl rfl)
    split
    · next hc => exact .hash hc.1 ⟨hbel.1 hc, hbel.2⟩ (.inr hc.2)
    · next hc => exact ih hbel.2 none fun hnode ↦ flagOk_embedded hnode hc gen
  | full cs ih =>
    refine .full (fun i ↦ ?_) (hfl rfl)
    split
    · next hc => exact .hash hc.1 ⟨(hbel i).1 hc, (hbel i).2⟩ (.inr hc.2)
    · next hc => exact ih i (hbel i).2 none fun hnode ↦ flagOk_embedded hnode hc gen

theorem mem_of_node (hdb : db.Addressed keccak U) {h : Hash} {b : Bytes}
    (hnode : db.node h = some b) : keccak b = h ∧ b ∈ U := by
  apply hdb
  rcases Option.or_eq_some_iff.mp hnode with h | ⟨-, h⟩
  · exact .inl h
  · exact .inr h

theorem resolveHash_eq (hU : CollisionFree keccak U) (hdb : db.Addressed keccak U) (ht : Proper t)
    (hkept : Kept keccak db t) (gen : UInt16) (path : List Nibble) :
    Node.resolveHash db gen (keccak (encode keccak t)) path =
      .ok (shallow keccak gen (some (keccak (encode keccak t))) t) := by
  have hlen := hU.length_lt _ (mem_of_node hdb hkept.1).2
  have hdec := decodeNode_encode ht gen (some (keccak (encode keccak t))) hlen []
    (Nat.le_succ _)
  rw [append_nil] at hdec
  simp only [Node.resolveHash, hkept.1, hdec]

theorem rep_resolved (hkept : Kept keccak db t) (gen : UInt16) (hlong : IsLong keccak force t) :
    Rep keccak db force
      (shallow keccak gen (some (keccak (encode keccak t))) t) t := by
  refine rep_shallow hkept.2 gen _ fun _ ↦ ⟨fun hash hhash ↦ ?_, fun _ _ ↦ hkept⟩
  exact ⟨(Option.some.inj hhash).symm, hlong⟩

theorem shallow_ne_hash {gen : UInt16} {hash : Option Hash} (t : Tree) (h : Hash) :
    shallow keccak gen hash t ≠ .hash h := by
  cases t <;> exact fun h ↦ by cases h

def Fits (t : Tree) (key : List Nibble) : Prop :=
  key = [] ∧ (t = .empty ∨ ∃ v, v ≠ [] ∧ t = .value v) ∨
    Terminated 16 key ∧ (t = .empty ∨ Proper t)

theorem Proper.key_ne_nil (h : Proper (.short key c)) : key ≠ [] := by
  rintro rfl
  rcases h.short_cases with ⟨-, -, -, hkey⟩ | ⟨-, hne, -⟩
  · exact hkey
  · exact hne rfl

variable {x : List Nibble}

theorem fits_short (h : Proper (.short key c)) (hk : Terminated 16 (key ++ x)) :
    Fits c x := by
  rcases h.short_cases with ⟨v, hv, rfl, hkey⟩ | ⟨-, -, hkey, hc⟩
  · exact .inl ⟨hkey.append_eq_self hk, .inr ⟨v, hv, rfl⟩⟩
  · exact .inr ⟨(terminated_append hkey x).mp hk, .inr hc⟩

theorem fits_full {cs : Nibble → Tree} (h : Proper (.full cs)) {i : Nibble}
    (hk : Terminated 16 (i :: x)) : Fits (cs i) x := by
  rcases hk with ⟨rfl, rfl⟩ | ⟨hi, hx⟩
  · refine .inl ⟨rfl, ?_⟩
    rcases h.full_cases 16 with hnil | ⟨-, hval⟩ | ⟨hne, -⟩
    · exact .inl hnil
    · exact .inr hval
    · exact absurd rfl hne
  refine .inr ⟨hx, ?_⟩
  rcases h.full_cases i with hnil | ⟨hi', -⟩ | ⟨-, hc⟩
  · exact .inl hnil
  · exact absurd hi' hi
  · exact .inr hc

theorem Fits.proper_of_isNode (h : Fits t key) (ht : isNode t = true) : Proper t ∧ Terminated 16 key := by
  rcases h with ⟨-, rfl | ⟨v, -, rfl⟩⟩ | ⟨hk, rfl | h⟩
  · cases ht
  · cases ht
  · cases ht
  · exact ⟨h, hk⟩

def rounds (n : Node) (key : List Nibble) : ℕ :=
  2 * key.length + (match n with | .hash _ => 2 | _ => 1)

theorem rounds_le (n : Node) (key : List Nibble) : rounds n key ≤ 2 * key.length + 2 := by
  unfold rounds
  split <;> omega

theorem rounds_shallow {gen : UInt16} {hash : Option Hash} (t : Tree) (key : List Nibble) :
    rounds (shallow keccak gen hash t) key = 2 * key.length + 1 := by
  cases t <;> rfl

theorem rounds_short_le {m : Node} {fuel : ℕ} (hkey : key ≠ [])
    (h : rounds (.short key m flags) (key ++ x) ≤ fuel + 1) : rounds m x ≤ fuel := by
  have hle := rounds_le m x
  have hpos := length_pos_iff.mpr hkey
  simp only [rounds, length_append] at h
  omega

theorem rounds_full_le {i : Nibble} {ns : Nibble → Node} {fuel : ℕ}
    (h : rounds (.full ns flags) (i :: key) ≤ fuel + 1) : rounds (ns i) key ≤ fuel := by
  have hle := rounds_le (ns i) key
  simp only [rounds, length_cons] at h
  omega

theorem rep_update {ns : Nibble → Node} {cs : Nibble → Tree} {i : Nibble} {m : Node}
    (hns : ∀ j, Rep keccak db false (ns j) (cs j)) (h : Rep keccak db false m c) (j : Nibble) :
    Rep keccak db false (update ns i m j) (update cs i c j) := by
  by_cases hj : j = i
  · subst hj
    rw [update_self, update_self]
    exact h
  · rw [update_of_ne hj, update_of_ne hj]
    exact hns j

/-- Reading finds the value of the tree and changes only what is loaded. -/
theorem tryGet_eq (hU : CollisionFree keccak U) (hdb : db.Addressed keccak U) (gen : UInt16)
    {fuel : ℕ} {n : Node} (h : Rep keccak db force n t) (hkey : Fits t key) (hfuel : rounds n key ≤ fuel)
    (path : List Nibble) :
    ∃ n' r, Node.tryGet db gen fuel n path key = .ok (t.get key, n', r) ∧
      Rep keccak db force n' t := by
  induction fuel generalizing force n t key path with
  | zero =>
    unfold rounds at hfuel
    split at hfuel <;> omega
  | succ fuel ih =>
    cases h with
    | nil force => exact ⟨_, _, rfl, .nil force⟩
    | value force v =>
      rcases hkey with ⟨rfl, -⟩ | ⟨-, h | h⟩
      · exact ⟨_, _, rfl, .value force v⟩
      · cases h
      · exact h.canon.elim
    | @short force nkey m flags c hn hfl =>
      obtain ⟨hprop, hk⟩ := hkey.proper_of_isNode rfl
      by_cases hpre : nkey <+: key
      · obtain ⟨x, rfl⟩ := hpre
        have hx := rounds_short_le hprop.key_ne_nil hfuel
        obtain ⟨m', r, hget, hrep⟩ := ih hn (fits_short hprop hk) hx (path ++ nkey)
        rw [get_short_append, Node.tryGet]
        simp only [prefix_append, if_true, drop_left]
        cases r with
        | true =>
          exact ⟨_, _, bind_eq_ok.mpr ⟨_, hget, rfl⟩, .short hrep (flagOk_touch hfl gen)⟩
        | false => exact ⟨_, _, bind_eq_ok.mpr ⟨_, hget, rfl⟩, .short hn hfl⟩
      rw [get_short_of_not hpre, Node.tryGet]
      simp only [hpre, if_false]
      exact ⟨_, _, rfl, .short hn hfl⟩
    | @full force ns flags cs hns hfl =>
      obtain ⟨hprop, hk⟩ := hkey.proper_of_isNode rfl
      cases key with
      | nil => exact hk.elim
      | cons i x =>
        obtain ⟨m', r, hget, hrep⟩ := ih (hns i) (fits_full hprop hk) (rounds_full_le hfuel) (path ++ [i])
        cases r with
        | true =>
          refine ⟨_, _, bind_eq_ok.mpr ⟨_, hget, rfl⟩,
            .full (fun j ↦ ?_) (flagOk_touch hfl gen)⟩
          have h := rep_update (i := i) hns hrep j
          rwa [update_eq_self] at h
        | false => exact ⟨_, _, bind_eq_ok.mpr ⟨_, hget, rfl⟩, .full hns hfl⟩
    | hash ht hkept hlong =>
      obtain ⟨hprop, -⟩ := hkey.proper_of_isNode ht
      have hres := resolveHash_eq hU hdb hprop hkept gen path
      have hrep := rep_resolved hkept gen hlong
      obtain ⟨n', r, hget, hrep'⟩ := ih hrep hkey
        (by rw [rounds_shallow]; simp only [rounds] at hfuel; omega) path
      exact ⟨n', true, bind_eq_ok.mpr ⟨_, hres, bind_eq_ok.mpr ⟨_, hget, rfl⟩⟩,
        hrep'⟩

end BjutEth.Trie
