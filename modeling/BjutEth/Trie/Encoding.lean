import BjutEth.Lib.Bytes
import BjutEth.Lib.Patricia

namespace BjutEth.Trie

open List

/-- A digit of a hex key; the digit 16 ends a key. -/
abbrev Nibble := Fin 17

instance neZero_nibbles : NeZero 17 := ⟨by decide⟩

def hexDigits : Alphabet Nibble where
  letters := List.finRange 17
  nodup := nodup_finRange 17
  mem := mem_finRange
  stop := 16

def highNibble (b : UInt8) : Nibble := Fin.ofNat 17 (b.toNat / 16)

def lowNibble (b : UInt8) : Nibble := Fin.ofNat 17 (b.toNat % 16)

def nibbles : Bytes → List Nibble
  | [] => []
  | b :: s => highNibble b :: lowNibble b :: nibbles s

def keybytesToHex (str : Bytes) : List Nibble := nibbles str ++ [16]

def hasTerm (s : List Nibble) : Bool := s.getLast? == some 16

def nibbleByte (a b : Nibble) : UInt8 := UInt8.ofNat a.val <<< 4 ||| UInt8.ofNat b.val

def decodeNibbles : List Nibble → Bytes
  | a :: b :: s => nibbleByte a b :: decodeNibbles s
  | _ => []

/-- `hexToCompact`, the hex key without terminator given the flag byte. -/
def packNibbles (flag : UInt8) (hex : List Nibble) : Bytes :=
  match hex with
  | first :: rest =>
    if hex.length % 2 = 1 then (flag ||| 0x10 ||| .ofNat first.val) :: decodeNibbles rest
    else flag :: decodeNibbles hex
  | [] => [flag]

def hexToCompact (hex : List Nibble) : Bytes :=
  if hasTerm hex then packNibbles 0x20 hex.dropLast else packNibbles 0 hex

def compactToHex (compact : Bytes) : Option (List Nibble) :=
  match nibbles compact with
  | [] => none
  | flag :: base =>
    let base := if 2 ≤ flag.val then flag :: base ++ [16] else flag :: base
    some (base.drop (2 - flag.val % 2))

theorem highNibble_ne (b : UInt8) : highNibble b ≠ 16 := by
  have hb := b.toNat_lt
  intro h
  have hval : (highNibble b).val = 16 := congrArg Fin.val h
  simp only [highNibble, Fin.ofNat] at hval
  omega

theorem lowNibble_ne (b : UInt8) : lowNibble b ≠ 16 := by
  intro h
  have hval : (lowNibble b).val = 16 := congrArg Fin.val h
  simp only [lowNibble, Fin.ofNat] at hval
  omega

theorem nibbles_inj {s t : Bytes} (h : nibbles s = nibbles t) : s = t := by
  induction s generalizing t with
  | nil =>
    cases t with
    | nil => rfl
    | cons b t => cases h
  | cons a s ih =>
    cases t with
    | nil => cases h
    | cons b t =>
      obtain ⟨hhigh, hrest⟩ := List.cons.inj h
      obtain ⟨hlow, hrest⟩ := List.cons.inj hrest
      have ha := a.toNat_lt
      have hb := b.toNat_lt
      have hhigh := congrArg Fin.val hhigh
      have hlow := congrArg Fin.val hlow
      simp only [highNibble, lowNibble, Fin.ofNat] at hhigh hlow
      have hab : a = b := UInt8.toNat_inj.mp (by omega)
      rw [hab, ih hrest]

theorem not_mem_nibbles (s : Bytes) : (16 : Nibble) ∉ nibbles s := by
  induction s with
  | nil => exact not_mem_nil
  | cons b s ih =>
    exact not_mem_cons_of_ne_of_not_mem (highNibble_ne b).symm
      (not_mem_cons_of_ne_of_not_mem (lowNibble_ne b).symm ih)

theorem terminated_keybytesToHex (s : Bytes) : Terminated 16 (keybytesToHex s) :=
  (terminated_append (not_mem_nibbles s) _).mpr (.inl ⟨rfl, rfl⟩)

theorem keybytesToHex_inj {s t : Bytes} (h : keybytesToHex s = keybytesToHex t) : s = t :=
  nibbles_inj (append_cancel_right h)

theorem nibbles_nibbleByte : ∀ a b : Nibble, a ≠ 16 → b ≠ 16 →
    highNibble (nibbleByte a b) = a ∧ lowNibble (nibbleByte a b) = b := by decide

variable {s : List Nibble}

theorem nibbles_decodeNibbles (heven : s.length % 2 = 0) (hs : 16 ∉ s) :
    nibbles (decodeNibbles s) = s := by
  induction s using decodeNibbles.induct with
  | case1 a b s ih =>
    have hs' := not_mem_of_not_mem_cons hs
    obtain ⟨ha, hb⟩ := nibbles_nibbleByte a b (ne_of_not_mem_cons hs).symm
      (ne_of_not_mem_cons hs').symm
    simp only [length_cons] at heven
    rw [decodeNibbles, nibbles, ha, hb, ih (by omega) (not_mem_of_not_mem_cons hs')]
  | case2 s hno =>
    cases s with
    | nil => rfl
    | cons a s =>
      cases s with
      | nil => simp at heven
      | cons b s => exact absurd rfl (hno a b s)

def flagByte (term : Bool) : UInt8 := if term then 0x20 else 0

theorem nibbles_flagByte : ∀ term : Bool,
    highNibble (flagByte term) = (if term then 2 else 0) ∧ lowNibble (flagByte term) = 0 := by
  decide

theorem nibbles_flagByte_odd : ∀ (term : Bool) (a : Nibble), a ≠ 16 →
    highNibble (flagByte term ||| 0x10 ||| .ofNat a.val) = (if term then 3 else 1) ∧
      lowNibble (flagByte term ||| 0x10 ||| .ofNat a.val) = a := by
  decide

theorem nibbles_packNibbles (term : Bool) {hex : List Nibble} (hhex : 16 ∉ hex) :
    nibbles (packNibbles (flagByte term) hex) =
      if hex.length % 2 = 1 then (if term then 3 else 1) :: hex
      else (if term then 2 else 0) :: 0 :: hex := by
  obtain ⟨heven, hlow⟩ := nibbles_flagByte term
  cases hex with
  | nil => simp [packNibbles, nibbles, heven, hlow]
  | cons first rest =>
    simp only [packNibbles]
    by_cases hodd : (first :: rest).length % 2 = 1
    · obtain ⟨hhigh, hfst⟩ := nibbles_flagByte_odd term first (ne_of_not_mem_cons hhex).symm
      rw [length_cons] at hodd
      have hrest : nibbles (decodeNibbles rest) = rest :=
        nibbles_decodeNibbles (by omega) (not_mem_of_not_mem_cons hhex)
      rw [length_cons, if_pos hodd, if_pos hodd, nibbles, hhigh, hfst, hrest]
    have hall : nibbles (decodeNibbles (first :: rest)) = first :: rest :=
      nibbles_decodeNibbles (by omega) hhex
    rw [if_neg hodd, if_neg hodd, nibbles, heven, hlow, hall]

theorem compactToHex_packNibbles (term : Bool) {hex : List Nibble} (hhex : 16 ∉ hex) :
    compactToHex (packNibbles (flagByte term) hex) = some (if term then hex ++ [16] else hex) := by
  unfold compactToHex
  rw [nibbles_packNibbles term hhex]
  by_cases hodd : hex.length % 2 = 1
  · rw [if_pos hodd]
    cases term <;> rfl
  · rw [if_neg hodd]
    cases term <;> rfl

theorem hasTerm_of_not_mem (h : 16 ∉ s) : hasTerm s = false := by
  rw [hasTerm, beq_eq_false_iff_ne]
  intro hlast
  exact h (mem_of_getLast? hlast)

theorem exists_of_terminated (h : Terminated 16 s) :
    ∃ hex, 16 ∉ hex ∧ s = hex ++ [16] := by
  induction s with
  | nil => exact h.elim
  | cons a s ih =>
    rcases h with ⟨rfl, rfl⟩ | ⟨ha, h⟩
    · exact ⟨[], not_mem_nil, rfl⟩
    obtain ⟨hex, hhex, rfl⟩ := ih h
    exact ⟨a :: hex, not_mem_cons_of_ne_of_not_mem ha.symm hhex, rfl⟩

theorem hasTerm_concat (hex : List Nibble) : hasTerm (hex ++ [16]) = true := by
  rw [hasTerm, getLast?_concat]
  rfl

theorem hasTerm_of_terminated (h : Terminated 16 s) : hasTerm s = true := by
  obtain ⟨hex, -, rfl⟩ := exists_of_terminated h
  exact hasTerm_concat hex

theorem compactToHex_hexToCompact {key : List Nibble} (h : 16 ∉ key ∨ Terminated 16 key) :
    compactToHex (hexToCompact key) = some key := by
  rcases h with h | h
  · have hflag := compactToHex_packNibbles false h
    rw [hexToCompact, hasTerm_of_not_mem h]
    exact hflag
  obtain ⟨hex, hhex, rfl⟩ := exists_of_terminated h
  have hflag := compactToHex_packNibbles true hhex
  rw [hexToCompact, hasTerm_concat, dropLast_concat]
  exact hflag

end BjutEth.Trie
