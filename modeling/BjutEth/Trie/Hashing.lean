import BjutEth.Trie.Updates

namespace BjutEth.Trie

open Rlp Patricia Function Bool Outcome
open Hasher (Hashed hashAll hashChild hashVal hashedFlag valueSlot)
open List hiding below isEmpty_iff

variable {keccak256 : Bytes → Hash} {db : Database}

def HashedAs (keccak256 : Bytes → Hash) (force : Bool) (c : Collapsed) (t : Tree) : Prop :=
  IsLong keccak256 force t ∧ c = .hash (keccak256 (encode keccak256 t)) ∨
    ¬ IsLong keccak256 force t ∧ c.hash? = none ∧ c.encode = encode keccak256 t

variable {t c : Tree} {force : Bool} {n : Node} {flags : NodeFlag} {r : Hashed}

theorem HashedAs.encode_eq {c : Collapsed} (ht : isNode t = true) (h : HashedAs keccak256 false c t) :
    c.encode = reference keccak256 t (encode keccak256 t) := by
  rcases h with ⟨hlong, rfl⟩ | ⟨hsh, -, henc⟩
  · have hhsh : IsHashed keccak256 t := ⟨ht, hlong.resolve_left Bool.false_ne_true⟩
    rw [reference_of_isHashed hhsh, Collapsed.encode]
  · have hhsh : ¬ IsHashed keccak256 t := fun h ↦ hsh (.inr h.2)
    rw [reference_of_not hhsh, henc]

def Database.Holds (db : Database) (w : List Stored) : Prop := ∀ s ∈ w, db.node s.hash = some s.blob

/-- What hashing a node that stands for a tree comes to, in every database that the nodes are
written to. -/
structure HashResult (h : Hasher) (db : Database) (force : Bool) (t : Tree)
    (r : Hasher.Hashed) : Prop where
  hashed : HashedAs h.keccak256 force r.1 t
  addressed : ∀ s ∈ r.2.2, h.keccak256 s.blob = s.hash
  pure : h.commit = false → r.2.2 = []
  rep : ∀ db', db.Extends db' → db'.Holds r.2.2 →
    Rep h.keccak256 db' force r.2.1 t
  kept : h.commit = true → ∀ db', db.Extends db' → db'.Holds r.2.2 →
      (IsLong h.keccak256 force t → db'.node (h.keccak256 (encode h.keccak256 t)) =
        some (encode h.keccak256 t)) ∧ Below h.keccak256 db' t

variable (h : Hasher)

theorem hashResult_cached (hcache : n.cache = (flags.hash, flags.dirty))
    (hunload : n.canUnload h.cachegen h.cachelimit = true → flags.dirty = false) (ht : isNode t = true)
    (hfl : FlagOk h.keccak256 db force flags t) (hrep : Rep h.keccak256 db force n t)
    (hr : h.cached n = some r) : HashResult h db force t r := by
  unfold Hasher.cached at hr
  rw [hcache] at hr
  cases hhash : flags.hash with
  | none =>
    rw [hhash] at hr
    cases hr
  | some hash =>
    obtain ⟨heq, hlong⟩ := hfl.hash hash hhash
    rw [hhash] at hr
    subst heq
    have hhsh : HashedAs h.keccak256 force (.hash (h.keccak256 (encode h.keccak256 t))) t :=
      .inl ⟨hlong, rfl⟩
    simp only at hr
    by_cases hcmt : h.commit = false
    · rw [if_pos hcmt] at hr
      cases hr
      refine ⟨hhsh, fun s hs ↦ absurd hs not_mem_nil, fun _ ↦ rfl,
        fun db' hdb _ ↦ hrep.mono hdb, fun hc ↦ ?_⟩
      rw [hcmt] at hc
      cases hc
    rw [if_neg hcmt] at hr
    by_cases hu : n.canUnload h.cachegen h.cachelimit = true
    · rw [if_pos hu] at hr
      cases hr
      have hkept := hfl.clean (hunload hu) hlong
      exact ⟨hhsh, fun s hs ↦ absurd hs not_mem_nil, fun _ ↦ rfl,
        fun db' hdb _ ↦ .hash ht (hkept.mono hdb) hlong,
        fun _ db' hdb _ ↦ ⟨fun _ ↦ (hkept.mono hdb).1, (hkept.mono hdb).2⟩⟩
    rw [if_neg hu] at hr
    by_cases hd : flags.dirty = false
    · rw [if_pos hd] at hr
      cases hr
      have hkept := hfl.clean hd hlong
      exact ⟨hhsh, fun s hs ↦ absurd hs not_mem_nil, fun _ ↦ rfl, fun db' hdb _ ↦ hrep.mono hdb,
        fun _ db' hdb _ ↦ ⟨fun _ ↦ (hkept.mono hdb).1, (hkept.mono hdb).2⟩⟩
    · rw [if_neg hd] at hr
      cases hr

theorem store_eq {c : Collapsed} (hc : c.hash? = none) (cached : Option Hash) (force : Bool) :
    h.store c cached force =
      if c.encode.length < 32 ∧ force = false then (c, [])
      else (.hash (cached.getD (h.keccak256 c.encode)),
        if h.commit then [⟨cached.getD (h.keccak256 c.encode), c.encode, c.references, c.leaves⟩]
        else []) := by
  cases c with
  | hash hash => cases hc
  | value v => rfl
  | short key val => rfl
  | full children => rfl

theorem isLong_iff : IsLong keccak256 force t ↔ ¬ ((encode keccak256 t).length < 32 ∧ force = false) := by
  unfold IsLong
  cases force <;> simp

/-- The result for a node from the results for its children: `w` is what these wrote. -/
theorem hashResult_store {c : Collapsed} {n' : Node} {w : List Stored}
    (hfl : FlagOk h.keccak256 db force flags t) (hc : c.hash? = none)
    (henc : c.encode = encode h.keccak256 t) (haddr : ∀ s ∈ w, h.keccak256 s.blob = s.hash)
    (hpure : h.commit = false → w = [])
    (hrep : ∀ db', db.Extends db' → db'.Holds w → ∀ flags', FlagOk h.keccak256 db' force flags' t →
      flags' = h.hashedFlag (h.store c flags.hash force).1 flags → Rep h.keccak256 db' force n' t)
    (hbel : h.commit = true → ∀ db', db.Extends db' → db'.Holds w → Below h.keccak256 db' t) :
    HashResult h db force t
      ((h.store c flags.hash force).1, n', w ++ (h.store c flags.hash force).2) := by
  have hhash : flags.hash.getD (h.keccak256 (encode h.keccak256 t)) =
      h.keccak256 (encode h.keccak256 t) := by
    cases hf : flags.hash with
    | none => rfl
    | some hash => exact (hfl.hash hash hf).1
  have hsto := store_eq h hc flags.hash force
  rw [henc, hhash] at hsto
  by_cases hlong : IsLong h.keccak256 force t
  · rw [if_neg (isLong_iff.mp hlong)] at hsto
    rw [hsto] at hrep ⊢
    -- the node itself is stored when there is a database
    have hself : h.commit = true → ∀ {db' : Database},
        db'.Holds (w ++ (if h.commit then
          [⟨h.keccak256 (encode h.keccak256 t), encode h.keccak256 t, c.references, c.leaves⟩]
          else [])) →
        db'.node (h.keccak256 (encode h.keccak256 t)) = some (encode h.keccak256 t) := by
      intro hcmt db' hall
      rw [if_pos hcmt] at hall
      exact hall _ (mem_append_right w mem_cons_self)
    have hchd : ∀ {db' : Database} {l : List Stored},
        db'.Holds (w ++ l) → db'.Holds w :=
      fun hall s hs ↦ hall s (mem_append_left _ hs)
    refine ⟨.inl ⟨hlong, rfl⟩, ?_, ?_, ?_, ?_⟩
    · intro s hs
      rcases mem_append.mp hs with hs | hs
      · exact haddr s hs
      split at hs
      · obtain rfl := mem_singleton.mp hs
        rfl
      · exact absurd hs not_mem_nil
    · intro hcmt
      simp only [hpure hcmt, hcmt, false_eq_true, if_false, append_nil]
    · intro db' hdb hall
      refine hrep db' hdb (hchd hall) _ ⟨?_, ?_⟩ rfl
      · intro hash hh
        exact ⟨(Option.some.inj hh).symm, hlong⟩
      intro hd _
      by_cases hcmt : h.commit = true
      · exact ⟨hself hcmt hall, hbel hcmt db' hdb (hchd hall)⟩
      simp only [hashedFlag, hcmt, false_eq_true, if_false] at hd
      exact (hfl.clean hd hlong).mono hdb
    · intro hcmt db' hdb hall
      exact ⟨fun _ ↦ hself hcmt hall, hbel hcmt db' hdb (hchd hall)⟩
  rw [if_pos (not_not.mp fun hn ↦ hlong (isLong_iff.mpr hn))] at hsto
  rw [hsto] at hrep ⊢
  simp only [append_nil]
  refine ⟨.inr ⟨hlong, hc, henc⟩, haddr, hpure, ?_, ?_⟩
  · intro db' hdb hall
    refine hrep db' hdb hall _ ⟨?_, fun _ hl ↦ absurd hl hlong⟩ rfl
    intro hash hh
    simp only [hashedFlag, hc] at hh
    cases hh
  · intro hcmt db' hdb hall
    exact ⟨fun hl ↦ absurd hl hlong, hbel hcmt db' hdb hall⟩

theorem hashAll_eq {hashed : Nibble → Go Hashed} {r : Nibble → Hashed}
    (is : List Nibble) (hr : ∀ i ∈ is, hashed i = .ok (r i))
    (acc : (Nibble → Collapsed) × (Nibble → Node) × List Stored) :
    hashAll hashed is acc =
      .ok (fun j ↦ if j ∈ is then (r j).1 else acc.1 j,
        fun j ↦ if j ∈ is then (r j).2.1 else acc.2.1 j,
        acc.2.2 ++ is.flatMap fun i ↦ (r i).2.2) := by
  induction is generalizing acc with
  | nil =>
    rw [flatMap_nil, append_nil]
    rfl
  | cons i is ih =>
    refine bind_eq_ok.mpr ⟨_, hr i mem_cons_self, ?_⟩
    rw [ih (fun j hj ↦ hr j (mem_cons_of_mem i hj)), flatMap_cons, List.append_assoc]
    have hupdate : ∀ {α : Type} (f : Nibble → α) (g : Nibble → α),
        (fun j ↦ if j ∈ is then g j else update f i (g i) j) =
          fun j ↦ if j ∈ i :: is then g j else f j := by
      intro α f g
      funext j
      by_cases hj : j ∈ is
      · rw [if_pos hj, if_pos (mem_cons_of_mem i hj)]
      rw [if_neg hj]
      by_cases hji : j = i
      · rw [hji, update_self, if_pos mem_cons_self]
      · rw [update_of_ne hji, if_neg (not_mem_cons_of_ne_of_not_mem hji hj)]
    rw [hupdate acc.1 fun j ↦ (r j).1, hupdate acc.2.1 fun j ↦ (r j).2.1]

structure ChildResult (h : Hasher) (db : Database) (c : Tree) (r : Hasher.Hashed) : Prop where
  encode_eq : r.1.encode = reference h.keccak256 c (encode h.keccak256 c)
  addressed : ∀ s ∈ r.2.2, h.keccak256 s.blob = s.hash
  pure : h.commit = false → r.2.2 = []
  rep : ∀ db', db.Extends db' → db'.Holds r.2.2 →
    Rep h.keccak256 db' false r.2.1 c
  kept : h.commit = true → ∀ db', db.Extends db' → db'.Holds r.2.2 →
      (IsHashed h.keccak256 c → db'.node (h.keccak256 (encode h.keccak256 c)) =
        some (encode h.keccak256 c)) ∧ Below h.keccak256 db' c

theorem HashResult.child (hc : isNode c = true) (hr : HashResult h db false c r) : ChildResult h db c r := by
  refine ⟨hr.hashed.encode_eq hc, hr.addressed, hr.pure, hr.rep, fun hcmt db' hdb hall ↦ ?_⟩
  obtain ⟨hstd, hbel⟩ := hr.kept hcmt db' hdb hall
  exact ⟨fun hh ↦ hstd (.inr hh.2), hbel⟩

theorem childResult_value {v : Bytes} :
    ChildResult h db (.value v) (.value v, .value v, []) := by
  refine ⟨?_, fun s hs ↦ absurd hs not_mem_nil, fun _ ↦ rfl, fun db' hdb _ ↦ .value false v,
    fun _ db' hdb _ ↦ ⟨fun h ↦ (by cases h.1), trivial⟩⟩
  rfl

theorem childResult_empty : ChildResult h db .empty (.value [], .nil, []) := by
  refine ⟨?_, fun s hs ↦ absurd hs not_mem_nil, fun _ ↦ rfl, fun db' hdb _ ↦ .nil false,
    fun _ db' hdb _ ↦ ⟨fun h ↦ (by cases h.1), trivial⟩⟩
  rfl

theorem hashVal_eq {key : List Nibble} (hn : Rep h.keccak256 db false n c) (ht : Proper (.short key c))
    (ih : Proper c → ∃ r, h.hash n false = .ok r ∧ HashResult h db false c r) :
    ∃ r, hashVal n (h.hash n false) = .ok r ∧ ChildResult h db c r := by
  rcases ht.short_cases with ⟨v, -, rfl, -⟩ | ⟨⟨cs, rfl⟩, -, -, hc⟩
  · cases hn with
    | value _ _ => exact ⟨_, rfl, childResult_value h⟩
    | hash hnode _ _ => cases hnode
  obtain ⟨r, hr, hres⟩ := ih hc
  have hval : hashVal n (h.hash n false) = h.hash n false := by
    cases hn <;> rfl
  exact ⟨r, hval.trans hr, hres.child h rfl⟩

theorem hashChild_eq {i : Nibble} (hn : Rep h.keccak256 db false n c)
    (hslot : c = .empty ∨ (i = 16 ∧ ∃ v, v ≠ [] ∧ c = .value v) ∨ i ≠ 16 ∧ Proper c) (hi : i ≠ 16)
    (ih : Proper c → ∃ r, h.hash n false = .ok r ∧ HashResult h db false c r) :
    ∃ r, hashChild n (h.hash n false) = .ok r ∧ ChildResult h db c r := by
  rcases hslot with rfl | ⟨hi', -⟩ | ⟨-, hc⟩
  · cases hn with
    | nil _ => exact ⟨_, rfl, childResult_empty h⟩
    | hash hnode _ _ => cases hnode
  · exact absurd hi' hi
  obtain ⟨r, hr, hres⟩ := ih hc
  have hnil : n.isNil = false := by
    rw [hn.isNil_eq]
    exact eq_false_iff.mpr fun h ↦ hc.canon.ne_empty ((isEmpty_iff c).mp h)
  refine ⟨r, ?_, hres.child h (isNode_of_canon hc.canon)⟩
  rw [hashChild, hnil]
  exact hr

theorem valueSlot_eq (hn : Rep keccak256 db false n c)
    (hslot : c = .empty ∨ ((16 : Nibble) = 16 ∧ ∃ v, v ≠ [] ∧ c = .value v) ∨ (16 : Nibble) ≠ 16 ∧ Proper c) :
    ∃ last, valueSlot n = .ok last ∧
      last.encode = reference keccak256 c (encode keccak256 c) ∧ ¬ IsHashed keccak256 c ∧
        Below keccak256 db c := by
  rcases hslot with rfl | ⟨-, v, -, rfl⟩ | ⟨h, -⟩
  · cases hn with
    | nil _ =>
      refine ⟨_, rfl, ?_, not_isHashed_empty, trivial⟩
      rfl
    | hash hnode _ _ => cases hnode
  · cases hn with
    | value _ _ =>
      refine ⟨_, rfl, ?_, not_isHashed_value v, trivial⟩
      rfl
    | hash hnode _ _ => cases hnode
  · exact absurd rfl h

structure ChildrenResult (h : Hasher) (db : Database) (cs : Nibble → Tree)
    (r : (Nibble → Collapsed) × (Nibble → Node) × List Stored) : Prop where
  encode_eq : (Collapsed.full r.1).encode = encode h.keccak256 (.full cs)
  addressed : ∀ s ∈ r.2.2, h.keccak256 s.blob = s.hash
  pure : h.commit = false → r.2.2 = []
  rep : ∀ db', db.Extends db' → db'.Holds r.2.2 →
    ∀ i, Rep h.keccak256 db' false (r.2.1 i) (cs i)
  below : h.commit = true → ∀ db', db.Extends db' → db'.Holds r.2.2 →
    Below h.keccak256 db' (.full cs)

theorem hashChildren_eq {ns : Nibble → Node} {cs : Nibble → Tree}
    (hns : ∀ i, Rep h.keccak256 db false (ns i) (cs i)) (ht : Proper (.full cs))
    (ih : ∀ i, Proper (cs i) → ∃ r, h.hash (ns i) false = .ok r ∧ HashResult h db false (cs i) r) :
    ∃ last r, valueSlot (ns 16) = .ok last ∧
      hashAll (fun i ↦ hashChild (ns i) (h.hash (ns i) false)) childIndices
        (fun _ ↦ last, ns, []) = .ok r ∧ ChildrenResult h db cs r := by
  have hchild : ∀ i, ∃ r, i ∈ childIndices →
      hashChild (ns i) (h.hash (ns i) false) = .ok r ∧ ChildResult h db (cs i) r := by
    intro i
    by_cases hi : i ∈ childIndices
    · obtain ⟨r, hr⟩ := hashChild_eq h (hns i) (ht.full_cases i) ((mem_childIndices i).mp hi) (ih i)
      exact ⟨r, fun _ ↦ hr⟩
    · exact ⟨(.value [], .nil, []), fun h ↦ absurd h hi⟩
  choose r hr using hchild
  obtain ⟨last, hlast, hlastenc, hlastsmall, hlastbelow⟩ :=
    valueSlot_eq (hns 16) (ht.full_cases 16)
  have hwrites : ∀ {P : Stored → Prop} {i : Nibble}, i ∈ childIndices →
      (∀ s ∈ [] ++ childIndices.flatMap (fun i ↦ (r i).2.2), P s) → ∀ s ∈ (r i).2.2, P s :=
    fun hi hP s hs ↦ hP s (mem_append_right _ (mem_flatMap.mpr ⟨_, hi, hs⟩))
  have hlastIndex : ∀ {i : Nibble}, i ∉ childIndices → i = 16 := fun hi ↦
    by_contra fun hne ↦ hi ((mem_childIndices _).mpr hne)
  refine ⟨last, _, hlast, hashAll_eq childIndices (fun i hi ↦ (hr i hi).1) (fun _ ↦ last, ns, []),
    ?_, ?_, ?_, ?_, ?_⟩
  · rw [Collapsed.encode, encode]
    congr 2
    funext i
    by_cases hi : i ∈ childIndices
    · simp only [if_pos hi, (hr i hi).2.encode_eq]
    rw [hlastIndex hi]
    exact hlastenc
  · intro s hs
    obtain ⟨i, hi, hs⟩ := mem_flatMap.mp hs
    exact (hr i hi).2.addressed s hs
  · intro hcmt
    refine eq_nil_iff_forall_not_mem.mpr fun s hs ↦ ?_
    obtain ⟨i, hi, hs⟩ := mem_flatMap.mp hs
    rw [(hr i hi).2.pure hcmt] at hs
    exact not_mem_nil hs
  · intro db' hdb hstd i
    by_cases hi : i ∈ childIndices
    · simp only [if_pos hi]
      exact (hr i hi).2.rep db' hdb (hwrites hi hstd)
    · simp only [if_neg hi]
      exact (hns i).mono hdb
  intro hcmt db' hdb hstd i
  by_cases hi : i ∈ childIndices
  · exact (hr i hi).2.kept hcmt db' hdb (hwrites hi hstd)
  rw [hlastIndex hi]
  exact ⟨fun hh ↦ absurd hh hlastsmall, hlastbelow.mono hdb⟩

theorem of_canUnload {cachegen cachelimit : UInt16}
    (h : (!flags.dirty && decide (cachelimit ≤ cachegen - flags.gen)) = true) : flags.dirty = false := by
  rw [and_eq_true, not_eq_true'] at h
  exact h.1

theorem hash_eq (hrep : Rep h.keccak256 db force n t) (ht : Proper t) :
    ∃ r, h.hash n force = .ok r ∧ HashResult h db force t r := by
  induction hrep with
  | nil force => exact ht.canon.elim
  | value force v => exact ht.canon.elim
  | @hash force t hnode hkept hlong =>
    refine ⟨_, rfl, .inl ⟨hlong, rfl⟩, fun s hs ↦ absurd hs not_mem_nil, fun _ ↦ rfl,
      fun db' hdb _ ↦ .hash hnode (hkept.mono hdb) hlong, fun _ db' hdb _ ↦ ?_⟩
    exact ⟨fun _ ↦ (hkept.mono hdb).1, (hkept.mono hdb).2⟩
  | @short force key m flags c hn hfl ih =>
    have hwhole : Rep h.keccak256 db force (.short key m flags) (.short key c) := .short hn hfl
    cases hcch : h.cached (.short key m flags) with
    | some r =>
      refine ⟨r, by rw [Hasher.hash, hcch], ?_⟩
      refine hashResult_cached h rfl (fun hu ↦ ?_) rfl hfl hwhole hcch
      exact of_canUnload hu
    | none =>
      obtain ⟨r, hr, hres⟩ := hashVal_eq h hn ht ih
      rw [Hasher.hash, hcch]
      refine ⟨_, bind_eq_ok.mpr ⟨r, hr, rfl⟩, ?_⟩
      refine hashResult_store h hfl rfl ?_ hres.addressed hres.pure ?_ hres.kept
      · rw [Collapsed.encode, hres.encode_eq, encode]
      rintro db' hdb hall flags' hfl' rfl
      exact .short (hres.rep db' hdb hall) hfl'
  | @full force ns flags cs hns hfl ih =>
    have hwhole : Rep h.keccak256 db force (.full ns flags) (.full cs) := .full hns hfl
    cases hcch : h.cached (.full ns flags) with
    | some r =>
      refine ⟨r, by rw [Hasher.hash, hcch], ?_⟩
      refine hashResult_cached h rfl (fun hu ↦ ?_) rfl hfl hwhole hcch
      exact of_canUnload hu
    | none =>
      obtain ⟨last, r, hlast, hall, hres⟩ := hashChildren_eq h hns ht ih
      rw [Hasher.hash, hcch]
      refine ⟨_, bind_eq_ok.mpr ⟨last, hlast, bind_eq_ok.mpr ⟨r, hall, rfl⟩⟩, ?_⟩
      refine hashResult_store h hfl rfl hres.encode_eq hres.addressed hres.pure ?_ hres.below
      rintro db' hdb hstd flags' hfl' rfl
      exact .full (hres.rep db' hdb hstd) hfl'

end BjutEth.Trie
