import BjutEth.Trie.Represents

namespace BjutEth.Trie

open Rlp Patricia Function Outcome
open Function (update)
open Node (loneChild newFlag reduce)
open List hiding insert_eq insert_nil lt_irrefl merge

variable {keccak : Bytes → Hash} {db : Database} {U : Set Bytes}

def graftNode (gen : UInt16) : List Nibble → Node → Node
  | [], item => item
  | i :: key, item => .short (i :: key) item (Node.newFlag gen)

theorem insert_nil (gen : UInt16) (fuel : ℕ) (path key : List Nibble) (item : Node) :
    Node.insert db gen (fuel + 1) .nil path key item = .ok (true, graftNode gen key item) := by
  cases key with
  | nil => rfl
  | cons i key => rfl

variable {key : List Nibble} {force : Bool} {n : Node} {t : Tree} {ns : Nibble → Node} {cs : Nibble → Tree}

theorem rep_graftNode (gen : UInt16) (key : List Nibble) {item : Node} {c : Tree}
    (h : Rep keccak db false item c) :
    Rep keccak db false (graftNode gen key item) (graft key c) := by
  cases key with
  | nil => exact h
  | cons i key => exact .short h (flagOk_newFlag false gen _)

theorem insert_short_node (gen : UInt16) (fuel : ℕ) {nkey x : List Nibble} (hx : nkey ++ x ≠ [])
    (val : Node) (flags : NodeFlag) (path : List Nibble) (item : Node) :
    Node.insert db gen (fuel + 1) (.short nkey val flags) path (nkey ++ x) item =
      Node.insert db gen fuel val (path ++ nkey) x item >>= fun r ↦
        if r.1 then .ok (true, .short nkey r.2 (newFlag gen))
        else .ok (false, .short nkey val flags) := by
  have hlen := prefixLen_self_append nkey x
  obtain ⟨a, k, hk⟩ := exists_cons_of_ne_nil hx
  have hdrop : (a :: k).drop nkey.length = x := by rw [← hk, drop_left]
  have htake : (a :: k).take nkey.length = nkey := by rw [← hk, take_left]
  rw [hk] at hlen ⊢
  simp only [Node.insert, hlen, hdrop, htake, if_true]

theorem insert_fork_node (gen : UInt16) (fuel : ℕ) {a b : Nibble} (hab : a ≠ b)
    (p x y : List Nibble) (val : Node) (flags : NodeFlag) (path : List Nibble) (item : Node) :
    Node.insert db gen (fuel + 2) (.short (p ++ b :: y) val flags) path (p ++ a :: x) item =
      .ok (true, graftNode gen p (.full
        (update (update (fun _ ↦ .nil) b (graftNode gen y val)) a
          (graftNode gen x item)) (newFlag gen))) := by
  have hlen := prefixLen_fork hab p x y
  obtain ⟨d, k, hk⟩ := exists_cons_of_ne_nil
    (append_ne_nil_of_right_ne_nil p (cons_ne_nil a x))
  have hdrop : (d :: k).drop p.length = a :: x := by rw [← hk, drop_left]
  have htake : (d :: k).take p.length = p := by rw [← hk, take_left]
  have hne : p.length ≠ (p ++ b :: y).length := by
    rw [length_append, length_cons]
    omega
  rw [hk] at hlen ⊢
  rw [Node.insert]
  simp only [hlen, if_neg hne, drop_left, hdrop, htake, insert_nil]
  cases p with
  | nil => rfl
  | cons c p => rfl

theorem insert_eq (hU : CollisionFree keccak U) (hdb : db.Addressed keccak U) (gen : UInt16)
    {fuel : ℕ} (h : Rep keccak db force n t) (hkey : Fits t key) (hfuel : rounds n key ≤ fuel)
    (path : List Nibble) (v : Bytes) :
    ∃ dirty n', Node.insert db gen fuel n path key (.value v) = .ok (dirty, n') ∧
      Rep keccak db force n' (t.insert key v) ∧ (dirty = false → t.insert key v = t) := by
  induction fuel generalizing force n t key path with
  | zero =>
    unfold rounds at hfuel
    split at hfuel <;> omega
  | succ fuel ih =>
    cases h with
    | nil force =>
      refine ⟨true, _, insert_nil gen fuel path key (.value v), ?_, by simp⟩
      cases key with
      | nil => exact .value force v
      | cons i key => exact .short (.value false v) (flagOk_newFlag force gen _)
    | value force w =>
      rcases hkey with ⟨rfl, -⟩ | ⟨-, h | h⟩
      · refine ⟨w != v, .value v, rfl, .value force v, fun h ↦ ?_⟩
        rw [bne_eq_false_iff_eq] at h
        rw [h]
        rfl
      · cases h
      · exact h.canon.elim
    | @short force nkey m flags c hn hflags =>
      obtain ⟨hprop, hk⟩ := hkey.proper_of_isNode rfl
      rcases path_cases hprop.canon hk with ⟨x, rfl, -⟩ | ⟨p, a, x, b, y, hab, rfl, rfl⟩
      · have hne : nkey ++ x ≠ [] := by
          intro h
          rw [h] at hk
          exact hk
        have hx := rounds_short_le hprop.key_ne_nil hfuel
        obtain ⟨dirty, m', hins, hrep, hsame⟩ := ih hn (fits_short hprop hk) hx (path ++ nkey)
        rw [insert_short_append nkey c hne, insert_short_node gen fuel hne]
        cases dirty with
        | true =>
          exact ⟨true, _, bind_eq_ok.mpr ⟨_, hins, rfl⟩,
            .short hrep (flagOk_newFlag force gen _), by simp⟩
        | false =>
          rw [hsame rfl]
          exact ⟨false, _, bind_eq_ok.mpr ⟨_, hins, rfl⟩, .short hn hflags, fun _ ↦ rfl⟩
      have hpos : fuel ≠ 0 := by
        simp only [rounds, length_append, length_cons] at hfuel
        omega
      obtain ⟨fuel, rfl⟩ := Nat.exists_eq_succ_of_ne_zero hpos
      rw [insert_short_fork hab]
      refine ⟨true, _, insert_fork_node gen fuel hab p x y m flags path (.value v), ?_, by simp⟩
      have hold := rep_update (i := b) (fun _ ↦ .nil false) (rep_graftNode gen y hn)
      have hbranch := rep_update (i := a) hold (rep_graftNode gen x (.value false v))
      cases p with
      | nil => exact .full hbranch (flagOk_newFlag force gen _)
      | cons i p =>
        exact .short (.full hbranch (flagOk_newFlag false gen _)) (flagOk_newFlag force gen _)
    | @full force ns flags cs hns hflags =>
      obtain ⟨hprop, hk⟩ := hkey.proper_of_isNode rfl
      cases key with
      | nil => exact hk.elim
      | cons i x =>
        obtain ⟨dirty, m', hins, hrep, hsame⟩ :=
          ih (hns i) (fits_full hprop hk) (rounds_full_le hfuel) (path ++ [i])
        cases dirty with
        | true =>
          exact ⟨true, _, bind_eq_ok.mpr ⟨_, hins, rfl⟩,
            .full (rep_update hns hrep) (flagOk_newFlag force gen _), by simp⟩
        | false =>
          rw [Patricia.insert, hsame rfl, update_eq_self]
          exact ⟨false, _, bind_eq_ok.mpr ⟨_, hins, rfl⟩, .full hns hflags, fun _ ↦ rfl⟩
    | hash ht hkept hlong =>
      obtain ⟨hprop, hk⟩ := hkey.proper_of_isNode ht
      have hres := resolveHash_eq hU hdb hprop hkept gen path
      have hrep := rep_resolved hkept gen hlong
      obtain ⟨dirty, n', hins, hrep', hsame⟩ := ih hrep hkey
        (by rw [rounds_shallow]; simp only [rounds] at hfuel; omega) path
      cases key with
      | nil => exact hk.elim
      | cons i x =>
        cases dirty with
        | true =>
          exact ⟨true, n', bind_eq_ok.mpr
            ⟨_, hres, bind_eq_ok.mpr ⟨_, hins, rfl⟩⟩, hrep', hsame⟩
        | false =>
          rw [hsame rfl]
          exact ⟨false, _, bind_eq_ok.mpr
            ⟨_, hres, bind_eq_ok.mpr ⟨_, hins, rfl⟩⟩, hrep, fun _ ↦ rfl⟩

theorem Rep.isNil_eq (h : Rep keccak db force n t) : n.isNil = t.isEmpty := by
  cases h with
  | nil force => rfl
  | value force v => rfl
  | short hn hflags => rfl
  | full hns hflags => rfl
  | hash ht hkept hlong =>
    cases t with
    | empty => cases ht
    | value v => cases ht
    | short key c => rfl
    | full cs => rfl

theorem Rep.isNode_of_hash {h : Hash} (hrep : Rep keccak db force (.hash h) t) : isNode t = true := by
  cases hrep with
  | hash ht hkept hlong => exact ht

theorem loneChild_some (ns : Nibble → Node) (is : List Nibble) (p : Nibble) :
    loneChild ns is (some p) =
      if is.filter (fun i ↦ !(ns i).isNil) = [] then some p else none := by
  induction is with
  | nil => rfl
  | cons i is ih =>
    rw [loneChild, filter_cons]
    cases hi : (ns i).isNil with
    | true => exact ih
    | false => rfl

theorem loneChild_none (ns : Nibble → Node) (is : List Nibble) :
    loneChild ns is none = only (is.filter fun i ↦ !(ns i).isNil) := by
  induction is with
  | nil => rfl
  | cons i is ih =>
    rw [loneChild, filter_cons]
    cases hi : (ns i).isNil with
    | true => exact ih
    | false =>
      simp only [Bool.false_eq_true, if_false, loneChild_some, Bool.not_false, if_true]
      cases is.filter fun i ↦ !(ns i).isNil with
      | nil => rfl
      | cons j l => rfl

theorem loneChild_eq (h : ∀ i, Rep keccak db false (ns i) (cs i)) :
    loneChild ns hexDigits.letters none = lone hexDigits cs := by
  rw [loneChild_none, lone]
  congr 1
  apply filter_congr
  intro i _
  rw [(h i).isNil_eq]

theorem rep_mergeNode (gen : UInt16) (key : List Nibble) {m : Node} (h : Rep keccak db false m t)
    (hld : ∀ hash, m ≠ .hash hash) : Rep keccak db force (Node.mergeNode gen key m) (merge key t) := by
  cases h with
  | nil force => exact .short (.nil false) (flagOk_newFlag force gen _)
  | value force v => exact .short (.value false v) (flagOk_newFlag force gen _)
  | short hn hflags => exact .short hn (flagOk_newFlag force gen _)
  | full hns hflags => exact .short (.full hns hflags) (flagOk_newFlag force gen _)
  | hash ht hkept hlong => exact absurd rfl (hld _)

theorem Proper.shrink_eq (h : Proper (.full cs)) : shrink hexDigits cs = .full cs := by
  obtain ⟨-, a, b, hab, ha, hb⟩ := h.canon
  unfold shrink
  cases hl : lone hexDigits cs with
  | none => rfl
  | some i =>
    obtain ⟨-, hoth⟩ := lone_eq_some hl
    have hai : a = i := by_contra fun hne ↦ ha (hoth a hne)
    have hbi : b = i := by_contra fun hne ↦ hb (hoth b hne)
    exact absurd (hai.trans hbi.symm) hab

/-- The reduction of a full node; a child that is not loaded was not deleted from. -/
theorem reduce_eq (hU : CollisionFree keccak U) (hdb : db.Addressed keccak U) (gen : UInt16)
    (force : Bool) (hns : ∀ i, Rep keccak db false (ns i) (cs i))
    (hval : cs 16 = .empty ∨ (cs 16).IsValue) (hld : ∀ i hash, ns i = .hash hash → Proper (cs i))
    (path : List Nibble) :
    ∃ n', reduce db gen ns path = .ok (true, n') ∧
      Rep keccak db force n' (shrink hexDigits cs) ∧ ∀ hash, n' ≠ .hash hash := by
  have hlone := loneChild_eq hns
  unfold reduce shrink
  rw [hlone]
  cases hl : lone hexDigits cs with
  | none =>
    exact ⟨_, rfl, .full hns (flagOk_newFlag force gen _), by simp⟩
  | some pos =>
    simp only
    obtain ⟨hthere, -⟩ := lone_eq_some hl
    by_cases hpos : pos = 16
    · subst hpos
      obtain ⟨v, hv⟩ := hval.resolve_left hthere
      have hn := hns 16
      rw [hv] at hn ⊢
      exact ⟨_, rfl, .short hn (flagOk_newFlag force gen _), by simp⟩
    rw [if_pos hpos]
    -- the child as it is, or loaded
    obtain ⟨cnode, hres, hrep, hnode⟩ : ∃ cnode,
        Node.resolve db gen (ns pos) path = .ok cnode ∧
          Rep keccak db false cnode (cs pos) ∧ ∀ hash, cnode ≠ .hash hash := by
      have hn := hns pos
      cases hnode : ns pos with
      | hash hash =>
        have hprop := hld pos hash hnode
        rw [hnode] at hn
        cases hn with
        | hash ht hkept hlong =>
          exact ⟨_, resolveHash_eq hU hdb hprop hkept gen path,
            rep_resolved hkept gen hlong, fun hash ↦ shallow_ne_hash _ hash⟩
      | nil => exact ⟨_, rfl, hnode ▸ hn, by simp⟩
      | value v => exact ⟨_, rfl, hnode ▸ hn, by simp⟩
      | short key m flags => exact ⟨_, rfl, hnode ▸ hn, by simp⟩
      | full ms flags => exact ⟨_, rfl, hnode ▸ hn, by simp⟩
    have hn := hns pos
    have hnew : ∀ t, FlagOk keccak db force (newFlag gen) t := flagOk_newFlag force gen
    generalize cs pos = t at hn hrep ⊢
    cases hrep with
    | hash ht hkept hlong => exact absurd rfl (hnode _)
    | short hcval hcflags =>
      exact ⟨_, bind_eq_ok.mpr ⟨_, hres, rfl⟩, .short hcval (hnew _), by simp⟩
    | nil force =>
      exact ⟨_, bind_eq_ok.mpr ⟨_, hres, rfl⟩, .short hn (hnew _), by simp⟩
    | value force v =>
      exact ⟨_, bind_eq_ok.mpr ⟨_, hres, rfl⟩, .short hn (hnew _), by simp⟩
    | full hms hmflags =>
      exact ⟨_, bind_eq_ok.mpr ⟨_, hres, rfl⟩, .short hn (hnew _), by simp⟩

/-- A deletion that gives the tree `t'` and says whether it differs; a new node is not a hash. -/
def Deleted (keccak : Bytes → Hash) (db : Database) (force : Bool) (t t' : Tree) (r : Go (Bool × Node)) : Prop :=
  ∃ dirty n', r = .ok (dirty, n') ∧ Rep keccak db force n' t' ∧ (dirty = false → t' = t) ∧
    (dirty = true → ∀ hash, n' ≠ .hash hash)

variable {fuel : ℕ} {flags : NodeFlag} {path : List Nibble} (gen : UInt16)

theorem deleted_short {nkey : List Nibble} {m : Node} {c : Tree} (hn : Rep keccak db false m c)
    (hflags : FlagOk keccak db force flags (.short nkey c)) (hprop : Proper (.short nkey c))
    (hk : Terminated 16 key) (ih : ∀ x, key = nkey ++ x → Fits c x →
      Deleted keccak db false c (c.delete hexDigits x) (Node.delete db gen fuel m (path ++ nkey) x)) :
    Deleted keccak db force (.short nkey c) ((short nkey c).delete hexDigits key)
      (Node.delete db gen (fuel + 1) (.short nkey m flags) path key) := by
  rcases path_cases hprop.canon hk with ⟨x, rfl, hx⟩ | ⟨p, a, x, b, y, hab, rfl, rfl⟩
  · have hlen := prefixLen_self_append nkey x
    by_cases hnil : x = []
    · subst hnil
      rw [append_nil] at hlen ⊢
      rw [delete_short_self, Node.delete]
      simp only [hlen, lt_irrefl, if_false, if_true]
      exact ⟨true, .nil, rfl, .nil force, by simp, by simp⟩
    obtain ⟨cs, rfl⟩ : c.IsFull := hx.elim (fun h ↦ absurd h.2 hnil) fun h ↦ h.1
    have hxpos := length_pos_iff.mpr hnil
    obtain ⟨dirty, m', hdel, hrep, hsame, hld⟩ := ih x rfl (fits_short hprop hk)
    have hwhole : nkey.length ≠ (nkey ++ x).length := by
      rw [length_append]
      omega
    rw [delete_short_append hexDigits nkey _ hnil, Node.delete]
    simp only [hlen, lt_irrefl, if_false, hwhole, take_left, drop_left]
    cases dirty with
    | true =>
      exact ⟨true, _, bind_eq_ok.mpr ⟨_, hdel, rfl⟩, rep_mergeNode gen nkey hrep (hld rfl), by simp,
        fun _ hash ↦ by cases m' <;> exact fun h ↦ by cases h⟩
    | false =>
      rw [hsame rfl]
      exact ⟨false, _, bind_eq_ok.mpr ⟨_, hdel, rfl⟩, .short hn hflags, fun _ ↦ rfl, by simp⟩
  have hpre : ¬ p ++ b :: y <+: p ++ a :: x := fun h ↦
    hab (cons_prefix_cons.mp ((prefix_append_right_inj p).mp h)).1.symm
  have hsame : (short (p ++ b :: y) c).delete hexDigits (p ++ a :: x) =
      short (p ++ b :: y) c := if_neg hpre
  have hlt : p.length < (p ++ b :: y).length := by
    rw [length_append, length_cons]
    omega
  rw [hsame]
  refine ⟨false, _, ?_, .short hn hflags, fun _ ↦ rfl, by simp⟩
  rw [Node.delete]
  simp only [prefixLen_fork hab, hlt, if_true]

theorem Proper.last_delete (h : Proper (.full cs)) (i : Nibble) (x : List Nibble) :
    update cs i ((cs i).delete hexDigits x) 16 = .empty ∨
      (update cs i ((cs i).delete hexDigits x) 16).IsValue := by
  have hlast : cs 16 = .empty ∨ (cs 16).IsValue := by
    rcases h.full_cases 16 with hemp | ⟨-, v, -, hv⟩ | ⟨hne, -⟩
    · exact .inl hemp
    · exact .inr ⟨v, hv⟩
    · exact absurd rfl hne
  by_cases hi : i = 16
  · subst hi
    left
    rcases hlast with hemp | ⟨v, hv⟩
    · rw [hemp]
      rfl
    · rw [hv]
      rfl
  · rw [update_of_ne (Ne.symm hi)]
    exact hlast

theorem Proper.of_isNode (h : Proper (.full cs)) {j : Nibble} (hnode : isNode (cs j) = true) :
    Proper (cs j) := by
  rcases h.full_cases j with hemp | ⟨-, v, -, hv⟩ | ⟨-, hp⟩
  · rw [hemp] at hnode
    cases hnode
  · rw [hv] at hnode
    cases hnode
  · exact hp

theorem delete_eq (hU : CollisionFree keccak U) (hdb : db.Addressed keccak U)
    (h : Rep keccak db force n t) (hkey : Fits t key) (hfuel : rounds n key ≤ fuel)
    (path : List Nibble) :
    Deleted keccak db force t (t.delete hexDigits key) (Node.delete db gen fuel n path key) := by
  induction fuel generalizing force n t key path with
  | zero =>
    unfold rounds at hfuel
    split at hfuel <;> omega
  | succ fuel ih =>
    cases h with
    | nil force => exact ⟨false, .nil, rfl, .nil force, fun _ ↦ rfl, by simp⟩
    | value force w => exact ⟨true, .nil, rfl, .nil force, by simp, by simp⟩
    | @short force nkey m flags c hn hflags =>
      obtain ⟨hprop, hk⟩ := hkey.proper_of_isNode rfl
      exact deleted_short gen hn hflags hprop hk fun x hx hfit ↦
        ih hn hfit (rounds_short_le hprop.key_ne_nil (hx ▸ hfuel)) (path ++ nkey)
    | @full force ns flags cs hns hflags =>
      obtain ⟨hprop, hk⟩ := hkey.proper_of_isNode rfl
      cases key with
      | nil => exact hk.elim
      | cons i x =>
        obtain ⟨dirty, m', hdel, hrep, hsame, hld⟩ :=
          ih (hns i) (fits_full hprop hk) (rounds_full_le hfuel) (path ++ [i])
        cases dirty with
        | true =>
          have hoth : ∀ j hash, update ns i m' j = .hash hash →
              Proper (update cs i ((cs i).delete hexDigits x) j) := by
            intro j hash hj
            by_cases hji : j = i
            · subst hji
              rw [update_self] at hj
              exact absurd hj (hld rfl hash)
            rw [update_of_ne hji] at hj ⊢
            exact hprop.of_isNode (hj ▸ hns j).isNode_of_hash
          obtain ⟨n', hred, hrep'', hne⟩ := reduce_eq hU hdb gen force (rep_update hns hrep)
            (hprop.last_delete i x) hoth path
          exact ⟨true, n', bind_eq_ok.mpr ⟨_, hdel, hred⟩, hrep'', by simp, fun _ ↦ hne⟩
        | false =>
          rw [Patricia.delete, hsame rfl, update_eq_self, hprop.shrink_eq]
          exact ⟨false, _, bind_eq_ok.mpr ⟨_, hdel, rfl⟩, .full hns hflags, fun _ ↦ rfl, by simp⟩
    | hash ht hkept hlong =>
      obtain ⟨hprop, hk⟩ := hkey.proper_of_isNode ht
      have hres := resolveHash_eq hU hdb hprop hkept gen path
      have hrep := rep_resolved hkept gen hlong
      obtain ⟨dirty, n', hdel, hrep', hsame, hld⟩ := ih hrep hkey
        (by rw [rounds_shallow]; simp only [rounds] at hfuel; omega) path
      cases dirty with
      | true =>
        exact ⟨true, n', bind_eq_ok.mpr
          ⟨_, hres, bind_eq_ok.mpr ⟨_, hdel, rfl⟩⟩, hrep', hsame, hld⟩
      | false =>
        rw [hsame rfl]
        exact ⟨false, _, bind_eq_ok.mpr
          ⟨_, hres, bind_eq_ok.mpr ⟨_, hdel, rfl⟩⟩, hrep, fun _ ↦ rfl,
          by simp⟩

end BjutEth.Trie
