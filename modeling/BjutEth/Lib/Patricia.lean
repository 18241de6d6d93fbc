import Mathlib.Data.List.Basic
import Mathlib.Data.List.Infix
import Mathlib.Logic.Function.Basic

namespace BjutEth

open Function Option
open List hiding isEmpty_iff

/-- A tree of words with compressed paths. -/
inductive Patricia (α β : Type)
  | empty
  | value (v : β)
  | short (key : List α) (child : Patricia α β)
  | full (children : α → Patricia α β)

/-- The letters that a branch has a child for, and the letter that ends every word. -/
structure Alphabet (α : Type) where
  letters : List α
  nodup : letters.Nodup
  mem : ∀ a, a ∈ letters
  stop : α

variable {α β : Type}

/-- The stop letter stands at the end of the word and nowhere else. -/
def Terminated (e : α) : List α → Prop
  | [] => False
  | a :: k => a = e ∧ k = [] ∨ a ≠ e ∧ Terminated e k

variable {p x key : List α} {a b : α}

theorem terminated_append {e : α} (hp : e ∉ p) (k : List α) : Terminated e (p ++ k) ↔ Terminated e k := by
  induction p with
  | nil => rw [nil_append]
  | cons a p ih =>
    have ha := ne_of_not_mem_cons hp
    have hp := not_mem_of_not_mem_cons hp
    simp only [cons_append, Terminated, ih hp, ne_eq, Ne.symm ha, false_and, not_false_eq_true,
      true_and, false_or]

theorem not_mem_of_terminated {e : α} (h : Terminated e (p ++ x)) (hx : x ≠ []) : e ∉ p := by
  induction p with
  | nil => exact not_mem_nil
  | cons a p ih =>
    rcases h with ⟨-, hnil⟩ | ⟨ha, h⟩
    · exact absurd (append_eq_nil_iff.mp hnil).2 hx
    · exact not_mem_cons_of_ne_of_not_mem (Ne.symm ha) (ih h)

theorem Terminated.append_eq_self {e : α} (hkey : Terminated e key) (h : Terminated e (key ++ x)) :
    x = [] := by
  by_contra hx
  have hmem := not_mem_of_terminated h hx
  have hself := (terminated_append hmem []).mp (by rwa [append_nil])
  exact hself

section Words

variable [DecidableEq α]

def prefixLen : List α → List α → ℕ
  | a :: as, b :: bs => if a = b then prefixLen as bs + 1 else 0
  | _, _ => 0

theorem prefixLen_append (p x y : List α) :
    prefixLen (p ++ x) (p ++ y) = p.length + prefixLen x y := by
  induction p with
  | nil => rw [nil_append, nil_append, length_nil, Nat.zero_add]
  | cons a p ih =>
    simp only [cons_append, prefixLen, if_true, length_cons]
    omega

/-- Where two words part: nowhere before the end of one, or at a letter. -/
theorem exists_fork (k key : List α) :
    (∃ x, k = key ++ x) ∨ (∃ b y, key = k ++ b :: y) ∨
      ∃ p a x b y, a ≠ b ∧ k = p ++ a :: x ∧ key = p ++ b :: y := by
  induction key generalizing k with
  | nil => exact .inl ⟨k, rfl⟩
  | cons b key ih =>
    cases k with
    | nil => exact .inr (.inl ⟨b, key, rfl⟩)
    | cons a k =>
      by_cases hab : a = b
      · subst hab
        rcases ih k with ⟨x, rfl⟩ | ⟨b, y, rfl⟩ | ⟨p, c, x, d, y, hcd, rfl, rfl⟩
        · exact .inl ⟨x, rfl⟩
        · exact .inr (.inl ⟨b, y, rfl⟩)
        · exact .inr (.inr ⟨a :: p, c, x, d, y, hcd, rfl, rfl⟩)
      · exact .inr (.inr ⟨[], a, k, b, key, hab, rfl, rfl⟩)

theorem prefixLen_self_append (key x : List α) : prefixLen (key ++ x) key = key.length := by
  have h := prefixLen_append key x []
  rw [append_nil] at h
  rw [h]
  cases x <;> rfl

theorem prefixLen_fork (hab : a ≠ b) (p x y : List α) : prefixLen (p ++ a :: x) (p ++ b :: y) = p.length := by
  rw [prefixLen_append, prefixLen, if_neg hab, Nat.add_zero]

end Words

namespace Patricia

def IsValue (t : Patricia α β) : Prop := ∃ v, t = value v

def IsFull (t : Patricia α β) : Prop := ∃ cs, t = full cs

def isEmpty : Patricia α β → Bool
  | empty => true
  | _ => false

theorem isEmpty_iff (t : Patricia α β) : t.isEmpty = true ↔ t = empty := by
  cases t <;> simp [isEmpty]

/-- At most one node for every set of words: a branch has two children, a path leads to a branch
or, if it ends with the stop letter, to a value. -/
def Canon (e : α) : Patricia α β → Prop
  | empty => False
  | value _ => False
  | short key c =>
    c.IsValue ∧ Terminated e key ∨ c.IsFull ∧ key ≠ [] ∧ e ∉ key ∧ c.Canon e
  | full cs =>
    (∀ a, cs a = empty ∨ a = e ∧ (cs a).IsValue ∨ a ≠ e ∧ (cs a).Canon e) ∧
      ∃ a b, a ≠ b ∧ cs a ≠ empty ∧ cs b ≠ empty

variable {e : α}

variable {t c : Patricia α β} {cs : α → Patricia α β} {k : List α}

theorem Canon.ne_empty (h : t.Canon e) : t ≠ empty := by
  rintro rfl
  exact h

/-- What may stand below a letter. -/
def Slot (e a : α) (t : Patricia α β) : Prop :=
  t = empty ∨ a = e ∧ t.IsValue ∨ a ≠ e ∧ t.Canon e

/-- A path of any length, none included. -/
def graft : List α → Patricia α β → Patricia α β
  | [], c => c
  | a :: key, c => short (a :: key) c

theorem canon_graft_full (hp : e ∉ p) (h : (full cs).Canon e) : (graft p (full cs)).Canon e := by
  cases p with
  | nil => exact h
  | cons a p => exact .inr ⟨⟨cs, rfl⟩, cons_ne_nil a p, hp, h⟩

theorem graft_ne_empty (h : c ≠ empty) : graft x c ≠ empty := by
  cases x with
  | nil => exact h
  | cons a x => exact fun h ↦ by cases h

theorem slot_graft (h : c.IsValue ∧ Terminated e (a :: x) ∨ c.IsFull ∧ e ∉ a :: x ∧ c.Canon e) :
    Slot e a (graft x c) := by
  rcases h with ⟨⟨v, rfl⟩, ⟨ha, rfl⟩ | ⟨ha, hx⟩⟩ | ⟨⟨cs, rfl⟩, hx, hc⟩
  · exact .inr (.inl ⟨ha, v, rfl⟩)
  · cases x with
    | nil => exact hx.elim
    | cons b x => exact .inr (.inr ⟨ha, .inl ⟨⟨v, rfl⟩, hx⟩⟩)
  · exact .inr (.inr ⟨(ne_of_not_mem_cons hx).symm,
      canon_graft_full (not_mem_of_not_mem_cons hx) hc⟩)

def merge (key : List α) : Patricia α β → Patricia α β
  | short key' c => short (key ++ key') c
  | c => short key c

theorem merge_ne_empty (key : List α) (c : Patricia α β) : merge key c ≠ empty := by
  cases c <;> exact fun h ↦ by cases h

def only : List α → Option α
  | [a] => some a
  | _ => none

def lone (A : Alphabet α) (cs : α → Patricia α β) : Option α :=
  only (A.letters.filter fun a ↦ !(cs a).isEmpty)

/-- A branch, which is a path if it has one child. -/
def shrink (A : Alphabet α) (cs : α → Patricia α β) : Patricia α β :=
  match lone A cs with
  | some a => merge [a] (cs a)
  | none => full cs

theorem mem_children (A : Alphabet α) (cs : α → Patricia α β) (a : α) :
    a ∈ A.letters.filter (fun a ↦ !(cs a).isEmpty) ↔ cs a ≠ empty := by
  rw [mem_filter, Bool.not_eq_true', ← Bool.not_eq_true, isEmpty_iff]
  exact ⟨fun h ↦ h.2, fun h ↦ ⟨A.mem a, h⟩⟩

theorem lone_eq_some {A : Alphabet α} (h : lone A cs = some a) :
    cs a ≠ empty ∧ ∀ b, b ≠ a → cs b = empty := by
  have hlist : A.letters.filter (fun a ↦ !(cs a).isEmpty) = [a] := by
    unfold lone only at h
    split at h
    · next hl => rw [hl, some.inj h]
    · cases h
  have hmem : ∀ b, cs b ≠ empty ↔ b = a := by
    intro b
    rw [← mem_children A cs b, hlist, mem_singleton]
  exact ⟨(hmem a).mpr rfl, fun b hb ↦ by_contra fun hne ↦ hb ((hmem b).mp hne)⟩

theorem lone_eq_none {A : Alphabet α} (h : lone A cs = none) (ha : cs a ≠ empty) :
    ∃ b, a ≠ b ∧ cs b ≠ empty := by
  have hmem := (mem_children A cs a).mpr ha
  have hnd := A.nodup.filter fun a ↦ !(cs a).isEmpty
  have hchild : ∀ b ∈ A.letters.filter (fun a ↦ !(cs a).isEmpty), cs b ≠ empty :=
    fun b hb ↦ (mem_children A cs b).mp hb
  unfold lone at h
  generalize A.letters.filter (fun a ↦ !(cs a).isEmpty) = l at h hmem hnd hchild
  cases l with
  | nil => exact absurd hmem not_mem_nil
  | cons b l =>
    cases l with
    | nil => cases h
    | cons c l =>
      have hbc : b ≠ c := fun hbc ↦ (nodup_cons.mp hnd).1 (hbc ▸ mem_cons_self)
      by_cases hab : a = b
      · exact ⟨c, hab ▸ hbc, hchild c (mem_cons_of_mem b mem_cons_self)⟩
      · exact ⟨b, hab, hchild b mem_cons_self⟩

theorem shrink_ne_empty (A : Alphabet α) (cs : α → Patricia α β) : shrink A cs ≠ empty := by
  unfold shrink
  split
  · exact merge_ne_empty _ _
  · simp

theorem canon_merge (hne : key ≠ []) (hkey : e ∉ key) (ht : t.Canon e) : (merge key t).Canon e := by
  cases t with
  | empty => exact ht.elim
  | value v => exact ht.elim
  | full cs => exact .inr ⟨⟨cs, rfl⟩, hne, hkey, ht⟩
  | short key' c =>
    rcases ht with ⟨hv, hkey'⟩ | ⟨hf, -, hkey', hc⟩
    · exact .inl ⟨hv, (terminated_append hkey key').mpr hkey'⟩
    refine .inr ⟨hf, append_ne_nil_of_left_ne_nil hne key', ?_, hc⟩
    exact fun h ↦ (mem_append.mp h).elim hkey hkey'

theorem canon_shrink (A : Alphabet α) (hsls : ∀ a, Slot e a (cs a)) (ha : cs a ≠ empty) :
    (shrink A cs).Canon e := by
  unfold shrink
  cases hl : lone A cs with
  | none =>
    obtain ⟨b, hab, hb⟩ := lone_eq_none hl ha
    exact ⟨hsls, a, b, hab, ha, hb⟩
  | some b =>
    rcases hsls b with hemp | ⟨hb, v, hv⟩ | ⟨hb, hc⟩
    · exact absurd hemp (lone_eq_some hl).1
    · simp only [hv]
      exact .inl ⟨⟨v, rfl⟩, .inl ⟨hb, rfl⟩⟩
    · exact canon_merge (cons_ne_nil b []) (fun h ↦ hb (mem_singleton.mp h).symm) hc

variable [DecidableEq α]

def get : Patricia α β → List α → Option β
  | empty, _ => none
  | value v, k => if k = [] then some v else none
  | short key c, k => if key <+: k then c.get (k.drop key.length) else none
  | full _, [] => none
  | full cs, a :: k => (cs a).get k

@[simp] theorem get_empty (k : List α) : (empty : Patricia α β).get k = none := rfl

@[simp] theorem get_value_nil (v : β) : (value v : Patricia α β).get [] = some v := rfl

@[simp] theorem get_full_cons (cs : α → Patricia α β) (a : α) (k : List α) :
    (full cs).get (a :: k) = (cs a).get k := rfl

@[simp] theorem get_short_append (key : List α) (c : Patricia α β) (k : List α) :
    (short key c).get (key ++ k) = c.get k := by
  rw [get, if_pos (prefix_append key k), drop_left]

theorem get_short_of_not (h : ¬ key <+: k) (c : Patricia α β) : (short key c).get k = none := if_neg h

theorem exists_get (ht : t.Canon e) : ∃ k v, t.get k = some v := by
  induction t with
  | empty => exact ht.elim
  | value w => exact ht.elim
  | short key c ih =>
    rcases ht with ⟨⟨w, rfl⟩, -⟩ | ⟨-, -, -, hc⟩
    · exact ⟨key ++ [], w, get_short_append _ _ _⟩
    obtain ⟨k, v, h⟩ := ih hc
    exact ⟨key ++ k, v, (get_short_append _ _ _).trans h⟩
  | full cs ih =>
    obtain ⟨hsls, a, -, -, ha, -⟩ := ht
    rcases hsls a with hemp | ⟨-, w, hw⟩ | ⟨-, hc⟩
    · exact absurd hemp ha
    · exact ⟨[a], w, by rw [get_full_cons, hw, get_value_nil]⟩
    obtain ⟨k, v, h⟩ := ih a hc
    exact ⟨a :: k, v, h⟩

theorem exists_get_of_slot (hslot : Slot e a t) (ht : t ≠ empty) : ∃ k v, t.get k = some v := by
  rcases hslot with hemp | ⟨-, w, rfl⟩ | ⟨-, hc⟩
  · exact absurd hemp ht
  · exact ⟨[], w, rfl⟩
  · exact exists_get hc

theorem get_ne_none_of_ne (h : (full cs).Canon e) :
    ∃ a b x y, a ≠ b ∧ (full cs).get (a :: x) ≠ none ∧ (full cs).get (b :: y) ≠ none := by
  obtain ⟨hsls, a, b, hab, ha, hb⟩ := h
  obtain ⟨x, v, hx⟩ := exists_get_of_slot (hsls a) ha
  obtain ⟨y, w, hy⟩ := exists_get_of_slot (hsls b) hb
  refine ⟨a, b, x, y, hab, ?_, ?_⟩
  · rw [get_full_cons, hx]
    exact some_ne_none v
  · rw [get_full_cons, hy]
    exact some_ne_none w

theorem prefix_of_get (h : (short key c).get k ≠ none) : key <+: k := by
  by_contra hk
  exact h (get_short_of_not hk c)

theorem prefix_of_get_eq {key' : List α} {c' : Patricia α β} (hc : (full cs).Canon e)
    (h : ∀ k, (short key (full cs)).get k = (short key' c').get k) : key' <+: key := by
  obtain ⟨a, b, x, y, hab, hx, hy⟩ := get_ne_none_of_ne hc
  have hx' : key' <+: key ++ a :: x := prefix_of_get (by rwa [← h, get_short_append])
  have hy' : key' <+: key ++ b :: y := prefix_of_get (by rwa [← h, get_short_append])
  rcases prefix_or_prefix_of_prefix hx' (prefix_append key _) with hle | ⟨z, rfl⟩
  · exact hle
  -- a longer path goes on with one letter, the branch with two
  rw [prefix_append_right_inj] at hx' hy'
  cases z with
  | nil => rw [append_nil]
  | cons d z =>
    have ha := (cons_prefix_cons.mp hx').1
    have hb := (cons_prefix_cons.mp hy').1
    exact absurd (ha.symm.trans hb) hab

theorem slot_ext {t' : Patricia α β} (ht : Slot e a t) (ht' : Slot e a t') (h : ∀ k, t.get k = t'.get k)
    (ih : t.Canon e → t'.Canon e → t = t') : t = t' := by
  have hemp : ∀ {s : Patricia α β}, Slot e a s → (∀ k, s.get k = none) → s = empty := by
    intro s hs hnone
    by_contra hne
    obtain ⟨k, v, hk⟩ := exists_get_of_slot hs hne
    rw [hnone] at hk
    cases hk
  rcases ht with rfl | ⟨ha, v, rfl⟩ | ⟨ha, hc⟩
  · exact (hemp ht' fun k ↦ (h k).symm).symm
  · rcases ht' with rfl | ⟨-, w, rfl⟩ | ⟨ha', -⟩
    · exact hemp (.inr (.inl ⟨ha, v, rfl⟩)) h
    · have hv := h []
      rw [get_value_nil, get_value_nil, some.injEq] at hv
      rw [hv]
    · exact absurd ha ha'
  rcases ht' with rfl | ⟨ha', -⟩ | ⟨-, hc'⟩
  · exact hemp (.inr (.inr ⟨ha, hc⟩)) h
  · exact absurd ha' ha
  · exact ih hc hc'

theorem Canon.ext {t' : Patricia α β} (ht : t.Canon e) (ht' : t'.Canon e) (h : ∀ k, t.get k = t'.get k) :
    t = t' := by
  have hmixed : ∀ {cs : α → Patricia α β} {key : List α} {c : Patricia α β},
      (full cs).Canon e → (short key c).Canon e → ¬ ∀ k, (full cs).get k = (short key c).get k := by
    intro cs key c hf hs heq
    obtain ⟨a, b, x, y, hab, hx, hy⟩ := get_ne_none_of_ne hf
    rw [heq] at hx hy
    have hkey : key ≠ [] := by
      rcases hs with ⟨-, hkey⟩ | ⟨-, hkey, -⟩
      · rintro rfl
        exact hkey
      · exact hkey
    obtain ⟨d, key, rfl⟩ := exists_cons_of_ne_nil hkey
    have ha := (cons_prefix_cons.mp (prefix_of_get hx)).1
    have hb := (cons_prefix_cons.mp (prefix_of_get hy)).1
    exact hab (ha.symm.trans hb)
  have hsgl : ∀ {key key' : List α} {v : β} {c : Patricia α β},
      (short key' c).Canon e → c.IsFull →
        ¬ ∀ k, (short key (value v)).get k = (short key' c).get k := by
    intro key key' v c hs hfull heq
    obtain ⟨cs, rfl⟩ := hfull
    rcases hs with ⟨⟨w, hw⟩, -⟩ | ⟨-, -, -, hc⟩
    · cases hw
    obtain ⟨a, b, x, y, hab, hx, hy⟩ := get_ne_none_of_ne hc
    have hword : ∀ z, (full cs).get z ≠ none → key' ++ z = key := by
      intro z hz
      have hz' : (short key (value v)).get (key' ++ z) ≠ none := by rwa [heq, get_short_append]
      obtain ⟨r, hr⟩ := prefix_of_get hz'
      rw [← hr, get_short_append] at hz'
      by_cases hnil : r = []
      · rw [← hr, hnil, append_nil]
      · exact absurd (if_neg hnil) hz'
    have hsame := append_cancel_left ((hword _ hx).trans (hword _ hy).symm)
    exact hab (List.cons.inj hsame).1
  induction t generalizing t' with
  | empty => exact ht.elim
  | value v => exact ht.elim
  | short key c ih =>
    cases t' with
    | empty => exact ht'.elim
    | value v => exact ht'.elim
    | full cs => exact absurd (fun k ↦ (h k).symm) (hmixed ht' ht)
    | short key' c' =>
      rcases ht with ⟨⟨v, rfl⟩, hkey⟩ | ⟨⟨cs, rfl⟩, hne, hkey, hc⟩
      · rcases ht' with ⟨⟨w, rfl⟩, hkey'⟩ | hfull
        · have hv := h (key ++ [])
          have hpre : key' <+: key ++ [] :=
            prefix_of_get (by rw [← hv, get_short_append]; exact some_ne_none v)
          obtain ⟨x, hx⟩ := hpre
          rw [append_nil] at hx
          subst hx
          rw [hkey'.append_eq_self hkey] at hv ⊢
          simp only [append_nil] at hv ⊢
          have hself := get_short_append key' (value v) []
          have hself' := get_short_append key' (value w) []
          rw [append_nil] at hself hself'
          rw [hself, hself', get_value_nil, get_value_nil, some.injEq] at hv
          rw [hv]
        · exact absurd h (hsgl (.inr hfull) hfull.1)
      rcases ht' with ⟨⟨w, rfl⟩, hkey'⟩ | ⟨⟨cs', rfl⟩, hne', hkey', hc'⟩
      · exact absurd (fun k ↦ (h k).symm)
          (hsgl (.inr ⟨⟨cs, rfl⟩, hne, hkey, hc⟩) ⟨cs, rfl⟩)
      obtain ⟨x, hx⟩ := prefix_of_get_eq hc h
      obtain ⟨y, hy⟩ := prefix_of_get_eq hc' (fun k ↦ (h k).symm)
      have hlen := congrArg List.length hx
      have hlen' := congrArg List.length hy
      rw [length_append] at hlen hlen'
      have hnil : x = [] := eq_nil_of_length_eq_zero (by omega)
      rw [hnil, append_nil] at hx
      subst hx
      rw [ih hc hc' fun k ↦ by simpa only [get_short_append] using h (key' ++ k)]
  | full cs ih =>
    cases t' with
    | empty => exact ht'.elim
    | value v => exact ht'.elim
    | short key c => exact absurd h (hmixed ht ht')
    | full cs' =>
      congr 1
      funext a
      exact slot_ext (ht.1 a) (ht'.1 a) (fun k ↦ h (a :: k)) fun hc hc' ↦
        ih a hc hc' fun k ↦ h (a :: k)

/-! Writing a value. -/

def fork (p : List α) (b : α) (c : Patricia α β) (a : α) (d : Patricia α β) : Patricia α β :=
  graft p (full (Function.update (Function.update (fun _ ↦ empty) b c) a d))

/-- The tree with a value at the end of a word; a word that goes on behind a value, or ends
before one, is not written. -/
def insert : Patricia α β → List α → β → Patricia α β
  | _, [], v => value v
  | empty, a :: k, v => short (a :: k) (value v)
  | value w, _ :: _, _ => value w
  | short key c, a :: k, v =>
    let m := prefixLen (a :: k) key
    if m = key.length then short key (c.insert ((a :: k).drop m) v)
    else
      match key.drop m, (a :: k).drop m with
      | b :: y, a' :: x => fork (key.take m) b (graft y c) a' (graft x (value v))
      | _, _ => short key c
  | full cs, a :: k, v => full (Function.update cs a ((cs a).insert k v))

theorem get_graft_append (p : List α) (c : Patricia α β) (k : List α) :
    (graft p c).get (p ++ k) = c.get k := by
  cases p with
  | nil => rfl
  | cons a p => exact get_short_append (a :: p) c k

theorem get_graft_of_not (h : ¬ p <+: k) (c : Patricia α β) : (graft p c).get k = none := by
  cases p with
  | nil => exact absurd nil_prefix h
  | cons a p => exact get_short_of_not h c

theorem insert_short_append (key : List α) (c : Patricia α β) (hx : key ++ x ≠ []) (v : β) :
    (short key c).insert (key ++ x) v = short key (c.insert x v) := by
  have hlen := prefixLen_self_append key x
  obtain ⟨a, k, hk⟩ := exists_cons_of_ne_nil hx
  have hdrop : (a :: k).drop key.length = x := by rw [← hk, drop_left]
  rw [hk] at hlen ⊢
  simp only [insert, hlen, hdrop, if_true]

theorem insert_short_fork (hab : a ≠ b) (p x y : List α) (c : Patricia α β) (v : β) :
    (short (p ++ b :: y) c).insert (p ++ a :: x) v =
      fork p b (graft y c) a (graft x (value v)) := by
  have hlen := prefixLen_fork hab p x y
  obtain ⟨d, k, hk⟩ := exists_cons_of_ne_nil
    (append_ne_nil_of_right_ne_nil p (cons_ne_nil a x))
  have hdrop : (d :: k).drop p.length = a :: x := by rw [← hk, drop_left]
  rw [hk] at hlen ⊢
  have hne : p.length ≠ (p ++ b :: y).length := by
    rw [length_append, length_cons]
    omega
  simp only [insert, hlen, if_neg hne, drop_left, take_left, hdrop]

theorem path_cases (h : (short key c).Canon e) (hk : Terminated e k) :
    (∃ x, k = key ++ x ∧ (c.IsValue ∧ x = [] ∨ c.IsFull ∧ Terminated e x)) ∨
      ∃ p a x b y, a ≠ b ∧ k = p ++ a :: x ∧ key = p ++ b :: y := by
  rcases exists_fork k key with ⟨x, rfl⟩ | ⟨b, y, rfl⟩ | hfork
  · refine .inl ⟨x, rfl, ?_⟩
    rcases h with ⟨hv, hkey⟩ | ⟨hf, -, hkey, -⟩
    · exact .inl ⟨hv, hkey.append_eq_self hk⟩
    · exact .inr ⟨hf, (terminated_append hkey x).mp hk⟩
  · -- the path would go on behind the stop letter
    rcases h with ⟨-, hkey⟩ | ⟨-, -, hkey, -⟩
    · have hnil := hk.append_eq_self hkey
      cases hnil
    · have hmem : e ∉ k := fun hmem ↦ hkey (mem_append_left _ hmem)
      exact ((terminated_append hmem []).mp (by rwa [append_nil])).elim
  · exact .inr hfork

theorem get_graft_append_left (p q : List α) (c : Patricia α β) (k : List α) :
    (graft (p ++ q) c).get (p ++ k) = (graft q c).get k := by
  by_cases hq : q <+: k
  · obtain ⟨x, rfl⟩ := hq
    rw [← List.append_assoc, get_graft_append, get_graft_append]
  · rw [get_graft_of_not hq, get_graft_of_not (fun h ↦ hq ((prefix_append_right_inj p).mp h))]

theorem get_graft_value (x : List α) (v : β) (k : List α) :
    (graft x (value v)).get k = if k = x then some v else none := by
  by_cases hx : x <+: k
  · obtain ⟨z, rfl⟩ := hx
    simp only [get_graft_append, get, append_right_eq_self]
  rw [get_graft_of_not hx, if_neg]
  rintro rfl
  exact hx (prefix_refl k)

theorem get_fork (hab : a ≠ b) (p x y : List α) (c : Patricia α β) (v : β) (k : List α) :
    (fork p b (graft y c) a (graft x (value v))).get k =
      if k = p ++ a :: x then some v else (graft (p ++ b :: y) c).get k := by
  by_cases hp : p <+: k
  · obtain ⟨z, rfl⟩ := hp
    rw [fork, get_graft_append, get_graft_append_left]
    simp only [append_cancel_left_eq]
    cases z with
    | nil =>
      rfl
    | cons d z =>
      simp only [get_full_cons, List.cons.injEq]
      by_cases ha : d = a
      · subst ha
        have hb : ¬ b :: y <+: d :: z := fun h ↦ hab (cons_prefix_cons.mp h).1.symm
        rw [update_self, get_graft_value, get_graft_of_not hb]
        simp only [true_and]
      rw [update_of_ne ha, if_neg fun h ↦ ha h.1]
      by_cases hb : d = b
      · subst hb
        rw [update_self]
        exact (get_graft_append_left [d] y c z).symm
      · have hb' : ¬ b :: y <+: d :: z := fun h ↦ hb (cons_prefix_cons.mp h).1.symm
        rw [update_of_ne hb, get_graft_of_not hb', get_empty]
  have hk : k ≠ p ++ a :: x := fun h ↦ hp (h ▸ prefix_append p _)
  have hk' : ¬ p ++ b :: y <+: k := fun h ↦ hp ((prefix_append p _).trans h)
  rw [fork, get_graft_of_not hp, if_neg hk, get_graft_of_not hk']

theorem get_insert_slot (ht : Slot e a t) (hk : a = e ∧ k = [] ∨ a ≠ e ∧ Terminated e k) (v : β)
    (ih : t.Canon e → Terminated e k → ∀ k', (t.insert k v).get k' = if k' = k then some v else t.get k')
    (k' : List α) : (t.insert k v).get k' = if k' = k then some v else t.get k' := by
  rcases hk with ⟨rfl, rfl⟩ | ⟨ha, hk⟩
  · rcases ht with rfl | ⟨-, w, rfl⟩ | ⟨ha, -⟩
    · rfl
    · simp only [insert, get]
      split <;> rfl
    · exact absurd rfl ha
  rcases ht with rfl | ⟨ha', -⟩ | ⟨-, hc⟩
  · cases k with
    | nil => exact hk.elim
    | cons b k => exact get_graft_value (b :: k) v k'
  · exact absurd ha' ha
  · exact ih hc hk k'

theorem get_insert (ht : t.Canon e) (hk : Terminated e k) (v : β) (k' : List α) :
    (t.insert k v).get k' = if k' = k then some v else t.get k' := by
  induction t generalizing k k' with
  | empty => exact ht.elim
  | value w => exact ht.elim
  | short key c ih =>
    rcases path_cases ht hk with ⟨x, rfl, hx⟩ | ⟨p, a, x, b, y, hab, rfl, rfl⟩
    · have hne : key ++ x ≠ [] := by
        intro h
        rw [h] at hk
        exact hk
      rw [insert_short_append key c hne]
      have hsub : ∀ z, (c.insert x v).get z = if z = x then some v else c.get z := by
        intro z
        rcases hx with ⟨⟨w, rfl⟩, rfl⟩ | ⟨⟨cs, rfl⟩, hx⟩
        · simp only [insert, get]
          split <;> rfl
        rcases ht with ⟨⟨w, hw⟩, -⟩ | ⟨-, -, -, hc⟩
        · cases hw
        · exact ih hc hx z
      by_cases hpre : key <+: k'
      · obtain ⟨z, rfl⟩ := hpre
        simp only [get_short_append, hsub, append_cancel_left_eq]
      · have hk' : k' ≠ key ++ x := fun h ↦ hpre (h ▸ prefix_append key x)
        rw [get_short_of_not hpre, if_neg hk', get_short_of_not hpre]
    rw [insert_short_fork hab, get_fork hab]
    have hpath : graft (p ++ b :: y) c = short (p ++ b :: y) c := by
      cases p <;> rfl
    rw [hpath]
  | full cs ih =>
    cases k with
    | nil => exact hk.elim
    | cons a k =>
      rw [insert]
      cases k' with
      | nil => rfl
      | cons d k' =>
        simp only [get_full_cons, List.cons.injEq]
        by_cases hd : d = a
        · subst hd
          rw [update_self, get_insert_slot (ht.1 d) hk v (fun hc hk k' ↦ ih d hc hk k')]
          simp only [true_and]
        · rw [update_of_ne hd, if_neg fun h ↦ hd h.1]

theorem isFull_insert (hk : Terminated e k) (v : β) : ((full cs).insert k v).IsFull := by
  cases k with
  | nil => exact hk.elim
  | cons a k => exact ⟨_, rfl⟩

theorem insert_ne_empty (t : Patricia α β) (k : List α) (v : β) : t.insert k v ≠ empty := by
  cases k with
  | nil => cases t <;> exact fun h ↦ by cases h
  | cons a k =>
    cases t with
    | empty => exact fun h ↦ by cases h
    | value w => exact fun h ↦ by cases h
    | full cs => exact fun h ↦ by cases h
    | short key c =>
      simp only [insert]
      split
      · simp
      split
      · exact graft_ne_empty fun h ↦ by cases h
      · simp

theorem canon_insert (ht : t.Canon e) (hk : Terminated e k) (v : β) : (t.insert k v).Canon e := by
  induction t generalizing k with
  | empty => exact ht.elim
  | value w => exact ht.elim
  | short key c ih =>
    rcases path_cases ht hk with ⟨x, rfl, hx⟩ | ⟨p, a, x, b, y, hab, rfl, rfl⟩
    · have hne : key ++ x ≠ [] := by
        intro h
        rw [h] at hk
        exact hk
      rw [insert_short_append key c hne]
      rcases hx with ⟨⟨w, rfl⟩, rfl⟩ | ⟨⟨cs, rfl⟩, hx⟩
      · rw [append_nil] at hk
        exact .inl ⟨⟨v, rfl⟩, hk⟩
      rcases ht with ⟨⟨w, hw⟩, -⟩ | ⟨-, hkey, hmem, hc⟩
      · cases hw
      · exact .inr ⟨isFull_insert hx v, hkey, hmem, ih hc hx⟩
    rw [insert_short_fork hab]
    have hp := not_mem_of_terminated hk (cons_ne_nil a x)
    have hx := (terminated_append hp _).mp hk
    have hc : c.IsValue ∧ Terminated e (b :: y) ∨ c.IsFull ∧ e ∉ b :: y ∧ c.Canon e := by
      rcases ht with ⟨hv, hkey⟩ | ⟨hf, -, hmem, hc⟩
      · exact .inl ⟨hv, (terminated_append hp _).mp hkey⟩
      · exact .inr ⟨hf, fun h ↦ hmem (mem_append_right p h), hc⟩
    have hcne : c ≠ empty := by
      rintro rfl
      rcases hc with ⟨⟨w, hw⟩, -⟩ | ⟨⟨cs, hcs⟩, -⟩
      · cases hw
      · cases hcs
    apply canon_graft_full hp
    refine ⟨?_, a, b, hab, ?_, ?_⟩
    · intro d
      by_cases hda : d = a
      · subst hda
        rw [update_self]
        exact slot_graft (.inl ⟨⟨v, rfl⟩, hx⟩)
      rw [update_of_ne hda]
      by_cases hdb : d = b
      · subst hdb
        rw [update_self]
        exact slot_graft hc
      · rw [update_of_ne hdb]
        exact .inl rfl
    · rw [update_self]
      exact graft_ne_empty fun h ↦ by cases h
    · rw [update_of_ne hab.symm, update_self]
      exact graft_ne_empty hcne
  | full cs ih =>
    cases k with
    | nil => exact hk.elim
    | cons a k =>
      obtain ⟨hsls, b, d, hbd, hb, hd⟩ := ht
      have hslot : Slot e a ((cs a).insert k v) := by
        rcases hk with ⟨ha, rfl⟩ | ⟨ha, hk⟩
        · exact .inr (.inl ⟨ha, v, by cases cs a <;> rfl⟩)
        refine .inr (.inr ⟨ha, ?_⟩)
        rcases hsls a with hemp | ⟨ha', -⟩ | ⟨-, hc⟩
        · rw [hemp]
          cases k with
          | nil => exact hk.elim
          | cons b k => exact .inl ⟨⟨v, rfl⟩, hk⟩
        · exact absurd ha' ha
        · exact ih a hc hk
      have hthere := insert_ne_empty (cs a) k v
      refine ⟨?_, b, d, hbd, ?_, ?_⟩
      · intro f
        by_cases hf : f = a
        · subst hf
          rw [update_self]
          exact hslot
        · rw [update_of_ne hf]
          exact hsls f
      · by_cases hba : b = a
        · rw [hba, update_self]
          exact hthere
        · rw [update_of_ne hba]
          exact hb
      by_cases hda : d = a
      · rw [hda, update_self]
        exact hthere
      · rw [update_of_ne hda]
        exact hd

/-! Removing a value. -/

def delete (A : Alphabet α) : Patricia α β → List α → Patricia α β
  | empty, _ => empty
  | value _, _ => empty
  | short key c, k =>
    if key <+: k then
      if key.length = k.length then empty else merge key (c.delete A (k.drop key.length))
    else short key c
  | full cs, [] => full cs
  | full cs, a :: k => shrink A (Function.update cs a ((cs a).delete A k))

theorem get_merge_append (key : List α) (c : Patricia α β) (k : List α) :
    (merge key c).get (key ++ k) = c.get k := by
  cases c with
  | short key' c =>
    by_cases hk : key' <+: k
    · obtain ⟨x, rfl⟩ := hk
      rw [merge, ← List.append_assoc, get_short_append, get_short_append]
    · rw [merge, get_short_of_not hk,
        get_short_of_not (fun h ↦ hk ((prefix_append_right_inj key).mp h))]
  | empty => exact get_short_append _ _ _
  | value v => exact get_short_append _ _ _
  | full cs => exact get_short_append _ _ _

theorem get_merge_of_not (h : ¬ key <+: k) (c : Patricia α β) : (merge key c).get k = none := by
  cases c with
  | short key' c => exact get_short_of_not (fun hk ↦ h ((prefix_append key key').trans hk)) c
  | empty => exact get_short_of_not h _
  | value v => exact get_short_of_not h _
  | full cs => exact get_short_of_not h _

theorem get_shrink (A : Alphabet α) (cs : α → Patricia α β) (k : List α) :
    (shrink A cs).get k = (full cs).get k := by
  unfold shrink
  cases hl : lone A cs with
  | none => rfl
  | some a =>
    obtain ⟨-, hoth⟩ := lone_eq_some hl
    by_cases hk : [a] <+: k
    · obtain ⟨x, rfl⟩ := hk
      exact get_merge_append [a] (cs a) x
    rw [get_merge_of_not hk]
    cases k with
    | nil => rfl
    | cons b k =>
      have hb : b ≠ a := by
        rintro rfl
        exact hk (prefix_append [b] k)
      rw [get_full_cons, hoth b hb, get_empty]

/-- Where a word is removed from: the end of a path, its rest, or nowhere. -/
theorem delete_short_append (A : Alphabet α) (key : List α) (c : Patricia α β) (hx : x ≠ []) :
    (short key c).delete A (key ++ x) = merge key (c.delete A x) := by
  have hlen : key.length ≠ (key ++ x).length := by
    have hpos := length_pos_iff.mpr hx
    rw [length_append]
    omega
  rw [delete, if_pos (prefix_append key x), if_neg hlen, drop_left]

theorem delete_short_self (A : Alphabet α) (key : List α) (c : Patricia α β) :
    (short key c).delete A key = empty := by
  rw [delete, if_pos (prefix_refl key), if_pos rfl]

/-- What removing a word from a subtree does. -/
structure Removed (e : α) (t t' : Patricia α β) (k : List α) : Prop where
  get : ∀ k', t'.get k' = if k' = k then none else t.get k'
  canon : t' = empty ∨ t'.Canon e
  ne_empty : t.IsFull → t' ≠ empty

theorem removed_delete (A : Alphabet α) (ht : t.Canon A.stop) (hk : Terminated A.stop k) :
    Removed A.stop t (t.delete A k) k := by
  induction t generalizing k with
  | empty => exact ht.elim
  | value w => exact ht.elim
  | short key c ih =>
    have hfull : ∀ {t' : Patricia α β}, (short key c).IsFull → t' ≠ empty := by
      rintro t' ⟨cs, hcs⟩
      cases hcs
    rcases path_cases ht hk with ⟨x, rfl, hx⟩ | ⟨p, a, x, b, y, hab, rfl, rfl⟩
    · rcases hx with ⟨⟨w, rfl⟩, rfl⟩ | ⟨hc, hx⟩
      · rw [append_nil, delete_short_self]
        refine ⟨fun k' ↦ ?_, .inl rfl, hfull⟩
        have hget := get_graft_value key w k'
        have hpath : graft key (value w) = short key (value w) := by
          cases key with
          | nil => exact (append_nil _ ▸ hk).elim
          | cons a key => rfl
        rw [hpath] at hget
        rw [hget]
        split <;> rfl
      have hxne : x ≠ [] := by
        rintro rfl
        exact hx
      rw [delete_short_append A key c hxne]
      rcases ht with ⟨⟨w, rfl⟩, -⟩ | ⟨-, hne, hmem, hcanon⟩
      · obtain ⟨cs, hcs⟩ := hc
        cases hcs
      have hsub := ih hcanon hx
      refine ⟨fun k' ↦ ?_, .inr (canon_merge hne hmem ?_), hfull⟩
      · by_cases hpre : key <+: k'
        · obtain ⟨z, rfl⟩ := hpre
          simp only [get_merge_append, hsub.get, get_short_append, append_cancel_left_eq]
        · rw [get_merge_of_not hpre, get_short_of_not hpre, ite_self]
      · exact hsub.canon.resolve_left (hsub.ne_empty hc)
    -- the word leaves the path, so it is not there
    have hpre : ¬ p ++ b :: y <+: p ++ a :: x := fun h ↦
      hab (cons_prefix_cons.mp ((prefix_append_right_inj p).mp h)).1.symm
    have hsame : (short (p ++ b :: y) c).delete A (p ++ a :: x) = short (p ++ b :: y) c :=
      if_neg hpre
    rw [hsame]
    refine ⟨fun k' ↦ ?_, .inr ht, hfull⟩
    split_ifs with hk'
    · rw [hk', get_short_of_not hpre]
    · rfl
  | full cs ih =>
    cases k with
    | nil => exact hk.elim
    | cons a k =>
      obtain ⟨hsls, b, d, hbd, hb, hd⟩ := ht
      have hsub : (∀ k', ((cs a).delete A k).get k' = if k' = k then none else (cs a).get k') ∧
          Slot A.stop a ((cs a).delete A k) := by
        rcases hsls a with hemp | ⟨ha, w, hw⟩ | ⟨ha, hc⟩
        · rw [hemp]
          exact ⟨fun k' ↦ (ite_self none).symm, .inl rfl⟩
        · obtain rfl : k = [] := hk.elim (fun h ↦ h.2) fun h ↦ absurd ha h.1
          rw [hw]
          refine ⟨fun k' ↦ ?_, .inl rfl⟩
          simp only [get]
          split <;> rfl
        obtain hk' : Terminated A.stop k := hk.elim (fun h ↦ absurd h.1 ha) fun h ↦ h.2
        have hsub := ih a hc hk'
        exact ⟨hsub.get, hsub.canon.elim .inl fun h ↦ .inr (.inr ⟨ha, h⟩)⟩
      have hleft : ∃ f, Function.update cs a ((cs a).delete A k) f ≠ empty := by
        by_cases hba : b = a
        · exact ⟨d, by rwa [update_of_ne (hba ▸ hbd.symm)]⟩
        · exact ⟨b, by rwa [update_of_ne hba]⟩
      obtain ⟨f, hf⟩ := hleft
      rw [delete]
      refine ⟨fun k' ↦ ?_, .inr (canon_shrink A (fun g ↦ ?_) hf), fun _ ↦ shrink_ne_empty _ _⟩
      · rw [get_shrink]
        cases k' with
        | nil => rfl
        | cons g k' =>
          simp only [get_full_cons, List.cons.injEq]
          by_cases hg : g = a
          · subst hg
            simp only [update_self, hsub.1, true_and]
          · rw [update_of_ne hg, if_neg fun h ↦ hg h.1]
      by_cases hg : g = a
      · subst hg
        rw [update_self]
        exact hsub.2
      · rw [update_of_ne hg]
        exact hsls g

end Patricia

end BjutEth
