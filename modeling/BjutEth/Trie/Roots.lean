import BjutEth.Trie.Runs

namespace BjutEth.Trie

open Rlp Patricia

inductive Expands (db : Database) : Node → Tree → Prop
  | nil : Expands db .nil .empty
  | value (v : Bytes) : Expands db (.value v) (.value v)
  | short {key : List Nibble} {n : Node} {flags : NodeFlag} {c : Tree} (hn : Expands db n c) :
    Expands db (.short key n flags) (.short key c)
  | full {ns : Nibble → Node} {flags : NodeFlag} {cs : Nibble → Tree}
    (hns : ∀ i, Expands db (ns i) (cs i)) : Expands db (.full ns flags) (.full cs)
  | hash {h : Hash} {n : Node} {t : Tree} {gen : UInt16} {path : List Nibble}
    (hres : Node.resolveHash db gen h path = .ok n) (hn : Expands db n t) :
    Expands db (.hash h) t

/-- A full node has two children, and below a short node there is neither nothing nor another
short node. -/
def Minimal : Tree → Prop
  | .short _ c => c ≠ .empty ∧ (∀ key d, c ≠ .short key d) ∧ Minimal c
  | .full cs => (∃ i j, i ≠ j ∧ cs i ≠ .empty ∧ cs j ≠ .empty) ∧ ∀ i, Minimal (cs i)
  | _ => True

variable {t : Tree}

theorem minimal_of_canon (h : t.Canon 16) : Minimal t := by
  induction t with
  | empty => trivial
  | value v => trivial
  | short key c ih =>
    rcases h with ⟨⟨v, rfl⟩, -⟩ | ⟨⟨cs, rfl⟩, -, -, hc⟩
    · exact ⟨by simp, by simp, trivial⟩
    · exact ⟨by simp, by simp, ih hc⟩
  | full cs ih =>
    obtain ⟨hsls, hchd⟩ := h
    refine ⟨hchd, fun i ↦ ?_⟩
    rcases hsls i with hnil | ⟨-, v, hv⟩ | ⟨-, hc⟩
    · rw [hnil]
      trivial
    · rw [hv]
      trivial
    · exact ih i hc

section Roots

variable {keccak : Bytes → Hash} {U U' : Set Bytes} {db : Database}

section

variable (hU : CollisionFree keccak U)

include hU

theorem expands_shallow (hdb : db.Addressed keccak U)
    (ht : Proper t) (hbel : Below keccak db t) (gen : UInt16) (hash : Option Hash) :
    Expands db (shallow keccak gen hash t) t := by
  have hchild : ∀ {c : Tree}, Proper c → (IsHashed keccak c →
      db.node (keccak (encode keccak c)) = some (encode keccak c)) →
      Below keccak db c → (∀ hash, Expands db (shallow keccak gen hash c) c) →
        Expands db (shallowChild keccak gen c) c := by
    intro c hc hstd hb ih
    unfold shallowChild
    split
    · next hh => exact .hash (resolveHash_eq hU hdb hc ⟨hstd hh, hb⟩ gen []) (ih _)
    · exact ih none
  induction t generalizing hash with
  | empty => exact ht.canon.elim
  | value v => exact ht.canon.elim
  | short key c ih =>
    refine .short ?_
    rcases ht.short_cases with ⟨v, -, rfl, -⟩ | ⟨-, -, -, hc⟩
    · exact .value v
    · exact hchild hc hbel.1 hbel.2 (ih hc hbel.2)
  | full cs ih =>
    refine .full fun i ↦ ?_
    rcases ht.full_cases i with hnil | ⟨-, v, -, hv⟩ | ⟨-, hc⟩
    · simp only [hnil, if_neg not_isHashed_empty]
      exact .nil
    · simp only [hv, if_neg (not_isHashed_value v)]
      exact .value v
    · exact hchild hc (hbel i).1 (hbel i).2 (ih i hc (hbel i).2)

theorem Rep.expands (hdb : db.Addressed keccak U) {force : Bool}
    {n : Node} (h : Rep keccak db force n t) (ht : t = .empty ∨ Proper t) :
    Expands db n t := by
  induction h with
  | nil force => exact .nil
  | value force v => exact .value v
  | @short force key n flags c hn hflags ih =>
    refine .short ?_
    rcases (ht.resolve_left fun h ↦ by cases h).short_cases with ⟨v, -, rfl, -⟩ | ⟨-, -, -, hc⟩
    · cases hn with
      | value _ _ => exact .value v
      | hash hnode _ _ => cases hnode
    · exact ih (.inr hc)
  | @full force ns flags cs hns hflags ih =>
    refine .full fun i ↦ ?_
    rcases (ht.resolve_left fun h ↦ by cases h).full_cases i with hnil | ⟨-, v, -, hv⟩ | ⟨-, hc⟩
    · exact ih i (.inl hnil)
    · have hn := hns i
      rw [hv] at hn ⊢
      generalize ns i = n at hn ⊢
      cases hn with
      | value _ _ => exact .value v
      | hash hnode _ _ => cases hnode
    · exact ih i (.inr hc)
  | @hash force t hnode hkept hlong =>
    have hp : Proper t := ht.resolve_left (by rintro rfl; cases hnode)
    exact .hash (resolveHash_eq hU hdb hp hkept 0 []) (expands_shallow hU hdb hp hkept.2 0 _)

theorem hash_eq_rootHash {s : State} {ops : List Op}
    (h : Run keccak U s ops) (ht : Holds t (contents ops)) :
    ∃ trie', hash keccak s.trie = .ok (rootHash keccak t, trie') := by
  obtain ⟨hdb, t', ht', hrep⟩ := h.inv hU
  rw [ht.unique ht']
  obtain ⟨r, hr, hhash, -⟩ := hashRoot_holds false ht' hrep
  exact ⟨_, Outcome.bind_eq_ok.mpr ⟨r, hr, by rw [hhash]; rfl⟩⟩

end

/-- The root hash depends on the contents only, the nodes are in canonical form, and the empty
mapping has the root `emptyRoot`. -/
theorem hash_eq_of_contents_eq (hU : CollisionFree keccak U) (hU' : CollisionFree keccak U')
    {s s' : State} {ops ops' : List Op} (h : Run keccak U s ops)
    (h' : Run keccak U' s' ops') :
    (contents ops = contents ops' → ∃ root trie trie', hash keccak s.trie = .ok (root, trie) ∧
      hash keccak s'.trie = .ok (root, trie')) ∧
    (∃ t, Expands s.db s.trie.root t ∧ Minimal t) ∧
    ((∀ key, contents ops key = none) →
      ∃ trie, hash keccak s.trie = .ok (emptyRoot, trie)) := by
  obtain ⟨hdb, t, ht, hrep⟩ := h.inv hU
  obtain ⟨trie, hhash⟩ := hash_eq_rootHash hU h ht
  refine ⟨fun heq ↦ ?_, ⟨t, hrep.expands hU hdb ht.proper, ?_⟩, fun hnone ↦ ?_⟩
  · rw [heq] at ht
    obtain ⟨trie', hhash'⟩ := hash_eq_rootHash hU' h' ht
    exact ⟨_, _, _, hhash, hhash'⟩
  · rcases ht.proper with rfl | hp
    · trivial
    · exact minimal_of_canon hp.canon
  rcases ht.proper with rfl | hp
  · exact ⟨_, hhash⟩
  obtain ⟨k, v, hk⟩ := exists_get hp.canon
  obtain ⟨key, rfl⟩ := ht.keys k v hk
  rw [ht.get, hnone] at hk
  cases hk

/-- Writing and deleting another key first leaves the root of one write. -/
theorem hash_eq_of_contents_eq_rewritten :
    ∃ s s' root trie trie', Run spellHash ∅ s [.update [0x61] [0x78]] ∧
      Run spellHash ∅ s' [.update [0x61] [0x78], .delete [0x62], .update [0x62] [0x79]] ∧
      hash spellHash s.trie = .ok (root, trie) ∧ hash spellHash s'.trie = .ok (root, trie') := by
  have hU : CollisionFree spellHash ∅ :=
    ⟨Set.injOn_empty _, fun b hb ↦ absurd hb (Set.notMem_empty b)⟩
  have hquiet : ∀ w ∈ Output.none.stored, w.blob ∈ (∅ : Set Bytes) :=
    fun w hw ↦ absurd hw List.not_mem_nil
  have hst := Run.start (noNodes_addressed spellHash ∅)
  have hone := hst.step (.update [0x61] [0x78]) rfl hquiet
  have htwo := ((hst.step (.update [0x62] [0x79]) rfl hquiet).step (.delete [0x62]) rfl hquiet).step
    (.update [0x61] [0x78]) rfl hquiet
  have hsame : contents [.update [0x61] [0x78]] =
      contents [.update [0x61] [0x78], .delete [0x62], .update [0x62] [0x79]] := by
    funext key
    simp only [contents]
    split
    · rfl
    · split <;> rfl
  obtain ⟨root, trie, trie', hr, hr'⟩ := (hash_eq_of_contents_eq hU hU hone htwo).1 hsame
  exact ⟨_, _, root, trie, trie', hone, htwo, hr, hr'⟩

/-! Reading a committed trie back. -/

theorem encode_ne_emptyString (ht : isNode t = true)
    (hlen : (encode keccak t).length < 2 ^ 64) : encode keccak t ≠ [0x80] := by
  obtain ⟨content, hcont⟩ := isList_encode keccak ht
  intro h
  rw [hcont] at h hlen
  have hread := readKind_frame .list [] ((length_le_length_frame .list content).trans_lt hlen)
  have hstring : readKind [0x80] = some (.string, [], []) := by decide
  rw [List.append_nil, h, hstring] at hread
  cases hread

/-- A committed trie is read back from its root. -/
theorem new_commit (hU : CollisionFree keccak U) (hzero : ∀ b ∈ U, keccak b ≠ 0)
    (hnil : keccak [0x80] = emptyRoot) (hmem : [0x80] ∈ U) {s s' : State} {ops : List Op}
    {root : Hash} {stored : List Stored} (h : Run keccak U s ops)
    (hexec : s.exec keccak .commit = .ok (s', .committed root stored))
    (hstd : ∀ w ∈ stored, w.blob ∈ U) :
    (∃ trie, Trie.new s'.db root = .ok trie ∧ ∀ key, ∃ v trie' s'',
      trie.tryGet s'.db key = .ok (v, trie') ∧
        s.exec keccak (.get key) = .ok (s'', .value v)) ∧
    ∀ t gen hash, Proper t → (encode keccak t).length < 2 ^ 64 →
      decodeNode gen ((encode keccak t).length + 1) hash (encode keccak t) =
        .ok (shallow keccak gen hash t) := by
  constructor
  · obtain ⟨hdb, t, ht, hrep⟩ := h.inv hU
    obtain ⟨s1, out, hexec', ⟨stored', rfl⟩, hinv⟩ := exec_eq hU hdb ht hrep .commit
    rw [hexec] at hexec'
    cases hexec'
    obtain ⟨⟨hdb', -⟩, hkept⟩ := hinv hstd
    have hold : ∀ key, ∃ s'', s.exec keccak (.get key) = .ok (s'', .value (contents ops key)) := by
      intro key
      obtain ⟨s'', out, hget, hanswer, -⟩ := exec_eq hU hdb ht hrep (.get key)
      rw [hanswer] at hget
      exact ⟨s'', hget⟩
    -- the new trie stands for the same tree
    obtain ⟨trie, hnew, hrep'⟩ : ∃ trie, Trie.new s'.db (rootHash keccak t) = .ok trie ∧
        Rep keccak s'.db true trie.root t := by
      rcases ht.proper with rfl | hp
      · exact ⟨_, rfl, .nil true⟩
      have hk := hkept rfl hp.canon.ne_empty
      obtain ⟨-, hencmem⟩ := mem_of_node hdb' hk.1
      have hnode := isNode_of_canon hp.canon
      have hhash := rootHash_of_proper keccak hp
      have hne : keccak (encode keccak t) ≠ emptyRoot := by
        intro heq
        have hsame := hU.injOn hencmem hmem (heq.trans hnil.symm)
        exact encode_ne_emptyString hnode (hU.length_lt _ hencmem) hsame
      have hres := resolveHash_eq hU hdb' hp hk 0 []
      rw [hhash, Trie.new, if_pos ⟨hzero _ hencmem, hne⟩]
      exact ⟨_, Outcome.bind_eq_ok.mpr ⟨_, hres, rfl⟩, rep_resolved hk 0 (.inl rfl)⟩
    refine ⟨trie, hnew, fun key ↦ ?_⟩
    obtain ⟨trie', hget, -⟩ := tryGet_holds hU hdb' ht hrep' key
    obtain ⟨s'', hget'⟩ := hold key
    exact ⟨_, trie', s'', hget, hget'⟩
  intro t gen hash hp hlen
  have hdec := decodeNode_encode hp gen hash hlen [] (Nat.le_succ _)
  rwa [List.append_nil] at hdec

def rootedHash (b : Bytes) : Hash := if b = [0x80] then emptyRoot else 1

theorem collisionFree_rooted :
    CollisionFree rootedHash {[0x80], [0xC4, 0x82, 0x20, 0x61, 0x78]} := by
  refine ⟨?_, ?_⟩
  · rintro b (rfl | rfl) b' (rfl | rfl) h
    · rfl
    · exact absurd h (by decide)
    · exact absurd h (by decide)
    · rfl
  · rintro b (rfl | rfl) <;> decide

theorem new_commit_one :
    ∃ s root trie trie', Trie.new s root = .ok trie ∧
      trie.tryGet s [0x61] = .ok (some [0x78], trie') := by
  have hst := Run.start
    (noNodes_addressed rootedHash {[0x80], [0xC4, 0x82, 0x20, 0x61, 0x78]})
  have hrun := hst.step (.update [0x61] [0x78]) rfl (fun w hw ↦ absurd hw List.not_mem_nil)
  have hzero : ∀ b ∈ ({[0x80], [0xC4, 0x82, 0x20, 0x61, 0x78]} : Set Bytes),
      rootedHash b ≠ 0 := by
    rintro b (rfl | rfl) <;> decide
  obtain ⟨⟨trie, hnew, hget⟩, -⟩ := new_commit collisionFree_rooted hzero rfl (.inl rfl) hrun rfl
    (by
      intro w hw
      obtain rfl := List.mem_singleton.mp hw
      exact .inr rfl)
  obtain ⟨v, trie', s'', hread, hold⟩ := hget [0x61]
  cases hold
  exact ⟨_, _, trie, trie', hnew, hread⟩

end Roots

end BjutEth.Trie
