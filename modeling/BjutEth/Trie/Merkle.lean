import BjutEth.Trie.Hasher

namespace BjutEth.Trie

open Rlp Patricia List Function Outcome

abbrev Tree := Patricia Nibble Bytes

def isNode : Tree → Bool
  | .short .. | .full _ => true
  | _ => false

section Encoding

variable (keccak : Bytes → Hash)

def reference (t : Tree) (e : Bytes) : Bytes :=
  if isNode t = true ∧ 32 ≤ e.length then frame .string (hashBytes (keccak e)) else e

def encode : Tree → Bytes
  | .empty => frame .string []
  | .value v => frame .string v
  | .short key c => frame .list (frame .string (hexToCompact key) ++ reference keccak c (encode c))
  | .full cs =>
    frame .list (hexDigits.letters.flatMap fun i ↦ reference keccak (cs i) (encode (cs i)))

def rootHash (t : Tree) : Hash :=
  match t with
  | .empty => emptyRoot
  | t => keccak (encode keccak t)

def IsHashed (t : Tree) : Prop := isNode t = true ∧ 32 ≤ (encode keccak t).length

instance (t : Tree) : Decidable (IsHashed keccak t) := inferInstanceAs (Decidable (_ ∧ _))

/-- A node as it is decoded: the children that are hashed are not loaded. -/
def shallow (gen : UInt16) : Option Hash → Tree → Node
  | _, .empty => .nil
  | _, .value v => .value v
  | hash, .short key c =>
    .short key
      (if IsHashed keccak c then .hash (keccak (encode keccak c)) else shallow gen none c)
      { hash, gen, dirty := false }
  | hash, .full cs =>
    .full
      (fun i ↦ if IsHashed keccak (cs i) then .hash (keccak (encode keccak (cs i)))
        else shallow gen none (cs i))
      { hash, gen, dirty := false }

def shallowChild (gen : UInt16) (c : Tree) : Node :=
  if IsHashed keccak c then .hash (keccak (encode keccak c))
  else shallow keccak gen none c

end Encoding

/-- The trees that occur: canonical, and no value is empty. -/
structure Proper (t : Tree) : Prop where
  canon : t.Canon 16
  filled : ∀ k v, t.get k = some v → v ≠ []

variable {t c : Tree} {cs : Nibble → Tree}

theorem rootHash_of_proper (keccak : Bytes → Hash) (h : Proper t) :
    rootHash keccak t = keccak (encode keccak t) := by
  cases t with
  | empty => exact h.canon.elim
  | value v => rfl
  | short key c => rfl
  | full cs => rfl

theorem Proper.short_cases {key : List Nibble} (h : Proper (.short key c)) :
    (∃ v, v ≠ [] ∧ c = .value v ∧ Terminated 16 key) ∨
      c.IsFull ∧ key ≠ [] ∧ 16 ∉ key ∧ Proper c := by
  have hget : ∀ k v, c.get k = some v → v ≠ [] := fun k v hk ↦
    h.filled (key ++ k) v ((get_short_append key c k).trans hk)
  rcases h.canon with ⟨⟨v, rfl⟩, hkey⟩ | ⟨hf, hne, hmem, hc⟩
  · exact .inl ⟨v, hget [] v rfl, rfl, hkey⟩
  · exact .inr ⟨hf, hne, hmem, hc, hget⟩

theorem Proper.full_cases (h : Proper (.full cs)) (i : Nibble) :
    cs i = .empty ∨ (i = 16 ∧ ∃ v, v ≠ [] ∧ cs i = .value v) ∨ i ≠ 16 ∧ Proper (cs i) := by
  have hget : ∀ k v, (cs i).get k = some v → v ≠ [] := fun k v hk ↦ h.filled (i :: k) v hk
  rcases h.canon.1 i with hnil | ⟨hi, v, hv⟩ | ⟨hi, hc⟩
  · exact .inl hnil
  · rw [hv] at hget
    exact .inr (.inl ⟨hi, v, hget [] v rfl, hv⟩)
  · exact .inr (.inr ⟨hi, hc, hget⟩)

theorem isNode_of_canon (h : t.Canon 16) : isNode t = true := by
  cases t with
  | empty => exact h.elim
  | value v => exact h.elim
  | short key c => rfl
  | full cs => rfl

/-! Decoding what was encoded. -/

section Decode

variable {keccak : Bytes → Hash}

def Item (x : Bytes) : Prop := ∃ kind content, x = frame kind content

theorem item_encode (t : Tree) : Item (encode keccak t) := by
  cases t <;> exact ⟨_, _, rfl⟩

theorem item_reference (t : Tree) : Item (reference keccak t (encode keccak t)) := by
  unfold reference
  split
  · exact ⟨_, _, rfl⟩
  · exact item_encode t

theorem Item.readKind {x : Bytes} (h : Item x) (hlen : x.length < 2 ^ 64) (rest : Bytes) :
    ∃ kind content, x = frame kind content ∧
      Rlp.readKind (x ++ rest) = some (kind, content, rest) := by
  obtain ⟨kind, content, rfl⟩ := h
  exact ⟨kind, content, rfl,
    readKind_frame kind rest ((length_le_length_frame kind content).trans_lt hlen)⟩

theorem Item.ne_nil {x : Bytes} (h : Item x) : x ≠ [] := by
  obtain ⟨kind, content, rfl⟩ := h
  exact frame_ne_nil kind content

variable {fuel : ℕ} {embedded : Bytes → Decoded Node} {gen : UInt16}

theorem countValuesLoop_flatten (l : List Bytes) (hl : ∀ x ∈ l, Item x) (hfuel : l.flatten.length ≤ fuel)
    (hlen : l.flatten.length < 2 ^ 64) : countValuesLoop fuel l.flatten = some l.length := by
  induction l generalizing fuel with
  | nil => cases fuel <;> rfl
  | cons x l ih =>
    have hx := hl x mem_cons_self
    rw [flatten_cons, length_append] at hfuel hlen
    obtain ⟨kind, content, -, hread⟩ := hx.readKind (by omega) l.flatten
    have hpos := length_pos_iff.mpr hx.ne_nil
    obtain ⟨fuel, rfl⟩ := Nat.exists_eq_add_of_lt (by omega : 0 < fuel)
    obtain ⟨b, s, hbs⟩ := exists_cons_of_ne_nil
      (append_ne_nil_of_left_ne_nil hx.ne_nil l.flatten)
    rw [flatten_cons]
    rw [hbs] at hread ⊢
    have hrest : countValuesLoop (0 + fuel) l.flatten = some l.length :=
      ih (fun y hy ↦ hl y (mem_cons_of_mem x hy)) (by omega) (by omega)
    rw [countValuesLoop, hread]
    simp only [hrest, Option.map_some, length_cons]

theorem countValues_flatten (l : List Bytes) (hl : ∀ x ∈ l, Item x)
    (hlen : l.flatten.length < 2 ^ 64) : countValues l.flatten = l.length := by
  rw [countValues, countValuesLoop_flatten l hl le_rfl hlen, Option.getD_some]

theorem bytesToHash_hashBytes (h : Hash) : bytesToHash (hashBytes h) = h := by
  have hlt : h.toNat < 256 ^ 32 := by
    have hlt := h.isLt
    rwa [show (2 : ℕ) ^ 256 = 256 ^ 32 by norm_num] at hlt
  rw [bytesToHash, hashBytes, beValue_fixedBytes, Nat.mod_eq_of_lt hlt, BitVec.ofNat_toNat,
    BitVec.setWidth_eq]

theorem length_hashBytes (h : Hash) : (hashBytes h).length = 32 := length_fixedBytes 32 _

theorem splitString_frame {v : Bytes} (rest : Bytes) (hlen : (frame .string v).length < 2 ^ 64) :
    splitString (frame .string v ++ rest) = .ok (v, rest) := by
  rw [splitString, readKind_frame .string rest ((length_le_length_frame .string v).trans_lt hlen)]

theorem isList_encode (keccak : Bytes → Hash) (h : isNode t = true) :
    ∃ content, encode keccak t = frame .list content := by
  cases t with
  | empty => cases h
  | value v => cases h
  | short key c => exact ⟨_, rfl⟩
  | full cs => exact ⟨_, rfl⟩

theorem reference_of_isHashed (h : IsHashed keccak c) :
    reference keccak c (encode keccak c) =
      frame .string (hashBytes (keccak (encode keccak c))) := if_pos h

theorem reference_of_not (h : ¬ IsHashed keccak c) :
    reference keccak c (encode keccak c) = encode keccak c := if_neg h

theorem not_isHashed_empty : ¬ IsHashed keccak .empty := fun h ↦ by cases h.1

/-- The decoder of embedded nodes reads the short encoding of a node back. -/
def Embeds (keccak : Bytes → Hash) (gen : UInt16) (embedded : Bytes → Decoded Node) (c : Tree) : Prop :=
  isNode c = true → ¬ IsHashed keccak c →
    ∀ rest, embedded (encode keccak c ++ rest) = .ok (shallow keccak gen none c)

theorem decodeRef_reference (hc : c = .empty ∨ isNode c = true) (rest : Bytes)
    (hemb : Embeds keccak gen embedded c) :
    decodeRef embedded (reference keccak c (encode keccak c) ++ rest) =
      .ok (shallowChild keccak gen c, rest) := by
  rcases hc with rfl | hc
  · have hread : readKind (frame .string [] ++ rest) = some (.string, [], rest) :=
      readKind_frame .string rest (by norm_num)
    rw [reference_of_not not_isHashed_empty, shallowChild, if_neg not_isHashed_empty, encode,
      decodeRef, hread]
    rfl
  by_cases hbig : IsHashed keccak c
  · have hlen : (hashBytes (keccak (encode keccak c))).length < 2 ^ 64 := by
      rw [length_hashBytes]
      norm_num
    rw [reference_of_isHashed hbig, shallowChild, if_pos hbig, decodeRef,
      readKind_frame .string rest hlen]
    simp only [length_hashBytes, bytesToHash_hashBytes]
    rfl
  have hsml : (encode keccak c).length < 32 := by
    by_contra hle
    exact hbig ⟨hc, by omega⟩
  obtain ⟨content, hcont⟩ := isList_encode keccak hc
  have hlen := length_le_length_frame .list content
  rw [← hcont] at hlen
  have hread := readKind_frame .list rest (by omega : content.length < 2 ^ 64)
  rw [← hcont] at hread
  rw [reference_of_not hbig, shallowChild, if_neg hbig, decodeRef, hread]
  have hsize : ¬ 32 < (encode keccak c ++ rest).length - rest.length := by
    rw [length_append]
    omega
  simp only [if_neg hsize, hemb hc hbig]
  rfl

theorem not_isHashed_value (v : Bytes) : ¬ IsHashed keccak (.value v) := fun h ↦ by cases h.1

theorem length_encode_lt_of_content {t : Tree} {content x : Bytes}
    (ht : encode keccak t = frame .list content) (hx : x.length ≤ content.length) :
    x.length < (encode keccak t).length := by
  have hhead : content.length + 1 ≤ (frame .list content).length := by
    have hne : isSingleByte .list content = false := by cases content <;> rfl
    rw [frame, hne, if_neg Bool.false_ne_true, length_append, puthead]
    split
    · simp only [length_singleton]
      omega
    · simp only [length_cons]
      omega
  rw [ht]
  omega

theorem decodeShort_encode {key : List Nibble} (h : Proper (.short key c)) (hash : Option Hash)
    (hlen : (encode keccak (.short key c)).length < 2 ^ 64)
    (hemb : Embeds keccak gen embedded c) :
    decodeShort embedded hash
        (frame .string (hexToCompact key) ++ reference keccak c (encode keccak c)) gen =
      .ok (shallow keccak gen hash (.short key c)) := by
  have hcont : (frame .string (hexToCompact key) ++
      reference keccak c (encode keccak c)).length < 2 ^ 64 :=
    (length_encode_lt_of_content (t := .short key c) rfl le_rfl).trans hlen
  rw [length_append] at hcont
  have hkbuf := splitString_frame (v := hexToCompact key)
    (reference keccak c (encode keccak c)) (by omega)
  refine bind_eq_ok.mpr ⟨_, hkbuf, ?_⟩
  rcases h.short_cases with ⟨v, -, rfl, hkey⟩ | ⟨hf, -, hkey, hc⟩
  · rw [reference_of_not (not_isHashed_value v), encode] at hcont ⊢
    have hval := splitString_frame (v := v) [] (by omega)
    rw [append_nil] at hval
    rw [compactToHex_hexToCompact (.inr hkey)]
    simp only [hasTerm_of_terminated hkey, if_true]
    refine bind_eq_ok.mpr ⟨_, hval, ?_⟩
    rfl
  have href := decodeRef_reference (.inr (isNode_of_canon hc.canon)) [] hemb
  rw [append_nil] at href
  rw [compactToHex_hexToCompact (.inl hkey)]
  simp only [hasTerm_of_not_mem hkey, Bool.false_eq_true, if_false]
  exact bind_eq_ok.mpr ⟨_, href, rfl⟩

theorem mem_childIndices (i : Nibble) : i ∈ childIndices ↔ i ≠ 16 := by
  revert i
  decide

theorem letters_eq : hexDigits.letters = childIndices ++ [16] := by decide

theorem decodeChildren_encode (is : List Nibble) (hsls : ∀ i ∈ is, cs i = .empty ∨ isNode (cs i) = true)
    (hemb : ∀ i ∈ is, Embeds keccak gen embedded (cs i))
    (children : Nibble → Node) (tail : Bytes) :
    decodeChildren embedded is children
        (is.flatMap (fun i ↦ reference keccak (cs i) (encode keccak (cs i))) ++ tail) =
      .ok (fun j ↦ if j ∈ is then shallowChild keccak gen (cs j) else children j, tail) := by
  induction is generalizing children with
  | nil => rfl
  | cons i is ih =>
    have href := decodeRef_reference (hsls i mem_cons_self)
      (is.flatMap (fun i ↦ reference keccak (cs i) (encode keccak (cs i))) ++ tail)
      (hemb i mem_cons_self)
    rw [flatMap_cons, List.append_assoc]
    refine bind_eq_ok.mpr ⟨_, href, ?_⟩
    rw [ih (fun j hj ↦ hsls j (mem_cons_of_mem i hj))
      (fun j hj ↦ hemb j (mem_cons_of_mem i hj))]
    congr 2
    funext j
    by_cases hj : j ∈ is
    · rw [if_pos hj, if_pos (mem_cons_of_mem i hj)]
    rw [if_neg hj]
    by_cases hji : j = i
    · rw [hji, update_self, if_pos mem_cons_self]
    · rw [update_of_ne hji, if_neg (not_mem_cons_of_ne_of_not_mem hji hj)]

theorem decodeFull_encode (h : Proper (.full cs)) (hash : Option Hash)
    (hlen : (encode keccak (.full cs)).length < 2 ^ 64)
    (hemb : ∀ i, Embeds keccak gen embedded (cs i)) :
    decodeFull embedded hash
        (hexDigits.letters.flatMap fun i ↦ reference keccak (cs i) (encode keccak (cs i)))
        gen = .ok (shallow keccak gen hash (.full cs)) := by
  have hcont : (hexDigits.letters.flatMap fun i ↦
      reference keccak (cs i) (encode keccak (cs i))).length < 2 ^ 64 :=
    (length_encode_lt_of_content (t := .full cs) rfl le_rfl).trans hlen
  rw [letters_eq, flatMap_append, flatMap_singleton] at hcont ⊢
  rw [length_append] at hcont
  have hsls : ∀ i ∈ childIndices, cs i = .empty ∨ isNode (cs i) = true := by
    intro i hi
    rcases h.full_cases i with hnil | ⟨rfl, -⟩ | ⟨-, hc⟩
    · exact .inl hnil
    · exact absurd rfl ((mem_childIndices 16).mp hi)
    · exact .inr (isNode_of_canon hc.canon)
  have hchd := decodeChildren_encode childIndices hsls (fun i _ ↦ hemb i)
    (fun _ ↦ .nil) (reference keccak (cs 16) (encode keccak (cs 16)))
  refine bind_eq_ok.mpr ⟨_, hchd, ?_⟩
  -- the last child is a value or missing
  obtain ⟨v, hv, hnode⟩ : ∃ v, reference keccak (cs 16) (encode keccak (cs 16)) =
      frame .string v ∧ shallowChild keccak gen (cs 16) =
        if 0 < v.length then .value v else .nil := by
    rcases h.full_cases 16 with hnil | ⟨-, v, hv, hval⟩ | ⟨hne, -⟩
    · refine ⟨[], ?_, ?_⟩
      · rw [hnil, reference_of_not not_isHashed_empty, encode]
      rw [hnil, shallowChild, if_neg not_isHashed_empty]
      rfl
    · refine ⟨v, ?_, ?_⟩
      · rw [hval, reference_of_not (not_isHashed_value v), encode]
      rw [hval, shallowChild, if_neg (not_isHashed_value v), shallow,
        if_pos (length_pos_iff.mpr hv)]
    · exact absurd rfl hne
  rw [hv] at hcont ⊢
  have hval := splitString_frame (v := v) [] (by omega)
  rw [append_nil] at hval
  have hall : (if 0 < v.length then Function.update
      (fun j ↦ if j ∈ childIndices then shallowChild keccak gen (cs j) else .nil) 16 (.value v)
      else fun j ↦ if j ∈ childIndices then shallowChild keccak gen (cs j) else .nil) =
      fun i ↦ shallowChild keccak gen (cs i) := by
    funext i
    by_cases hi : i = 16
    · subst hi
      refine Eq.trans ?_ hnode.symm
      split
      · rw [update_self]
      · exact if_neg fun h ↦ (mem_childIndices 16).mp h rfl
    have hmem := (mem_childIndices i).mpr hi
    split
    · rw [update_of_ne hi]
      exact if_pos hmem
    · exact if_pos hmem
  refine bind_eq_ok.mpr ⟨_, hval, ?_⟩
  exact congrArg (fun children ↦ Except.ok (Node.full children { hash, gen, dirty := false })) hall

theorem decodeNode_list (hash : Option Hash) {content : Bytes} (rest : Bytes)
    (hlen : (frame .list content).length < 2 ^ 64) :
    (countValues content = 2 → decodeNode gen (fuel + 1) hash (frame .list content ++ rest) =
      decodeShort (decodeNode gen fuel none) hash content gen) ∧
    (countValues content = 17 → decodeNode gen (fuel + 1) hash (frame .list content ++ rest) =
      decodeFull (decodeNode gen fuel none) hash content gen) := by
  have hne : (frame .list content ++ rest).length ≠ 0 := by
    rw [length_append]
    have hpos := length_pos_iff.mpr (frame_ne_nil .list content)
    omega
  have hread := readKind_frame .list rest ((length_le_length_frame .list content).trans_lt hlen)
  rw [decodeNode, if_neg hne, hread]
  constructor
  · intro hcnt
    simp only [hcnt]
  · intro hcnt
    simp only [hcnt]

theorem length_child_lt {content : Bytes} (ht : encode keccak t = frame .list content)
    (hle : (reference keccak c (encode keccak c)).length ≤ content.length)
    (hsml : ¬ IsHashed keccak c) : (encode keccak c).length < (encode keccak t).length := by
  rw [reference_of_not hsml] at hle
  exact length_encode_lt_of_content ht hle

theorem decodeNode_encode (h : Proper t) (gen : UInt16) (hash : Option Hash)
    (hlen : (encode keccak t).length < 2 ^ 64) (rest : Bytes)
    (hfuel : (encode keccak t).length ≤ fuel) :
    decodeNode gen fuel hash (encode keccak t ++ rest) =
      .ok (shallow keccak gen hash t) := by
  induction t generalizing hash rest fuel with
  | empty => exact h.canon.elim
  | value v => exact h.canon.elim
  | short key c ih =>
    have hcont := @length_encode_lt_of_content keccak (.short key c) _ _ rfl le_rfl
    obtain ⟨fuel, rfl⟩ := Nat.exists_eq_succ_of_ne_zero (by omega : fuel ≠ 0)
    have hcnt := countValues_flatten
      [frame .string (hexToCompact key), reference keccak c (encode keccak c)]
      (by
        intro x hx
        rcases mem_pair.mp hx with rfl | rfl
        · exact ⟨_, _, rfl⟩
        · exact item_reference c)
      (by
        rw [flatten_cons, flatten_singleton]
        exact hcont.trans hlen)
    rw [flatten_cons, flatten_singleton] at hcnt
    rw [encode, (decodeNode_list hash rest hlen).1 hcnt]
    refine decodeShort_encode h hash hlen fun hnode hsml rest ↦ ?_
    have hlt := length_child_lt (t := .short key c) rfl (by rw [length_append]; omega) hsml
    rcases h.short_cases with ⟨v, -, rfl, -⟩ | ⟨-, -, -, hc⟩
    · cases hnode
    · exact ih hc none (hlt.trans hlen) rest (by omega)
  | full cs ih =>
    have hcont := @length_encode_lt_of_content keccak (.full cs) _ _ rfl le_rfl
    obtain ⟨fuel, rfl⟩ := Nat.exists_eq_succ_of_ne_zero (by omega : fuel ≠ 0)
    have hcnt := countValues_flatten
      (hexDigits.letters.map fun i ↦ reference keccak (cs i) (encode keccak (cs i)))
      (by
        intro x hx
        obtain ⟨i, -, rfl⟩ := List.mem_map.mp hx
        exact item_reference (cs i))
      (by
        exact hcont.trans hlen)
    rw [encode, (decodeNode_list hash rest hlen).2 hcnt]
    refine decodeFull_encode h hash hlen fun i hnode hsml rest ↦ ?_
    have hlt := length_child_lt (t := .full cs) (c := cs i) rfl (by
      rw [length_flatMap]
      exact le_sum_of_mem (List.mem_map_of_mem (hexDigits.mem i))) hsml
    rcases h.full_cases i with hnil | ⟨-, v, -, hval⟩ | ⟨-, hc⟩
    · rw [hnil] at hnode
      cases hnode
    · rw [hval] at hnode
      cases hnode
    · exact ih i hc none (hlt.trans hlen) rest (by omega)

end Decode

end BjutEth.Trie
