import BjutEth.Lib.Bytes

namespace BjutEth.Rlp

open List hiding not_lt

inductive Kind
  | string
  | list
  deriving DecidableEq, Repr

/-- The tag of a short value and, less one, of a long value. -/
def Kind.smallTag : Kind → ℕ
  | .string => 0x80
  | .list => 0xC0

def Kind.largeTag : Kind → ℕ
  | .string => 0xB7
  | .list => 0xF7

def puthead (kind : Kind) (size : ℕ) : Bytes :=
  if size < 56 then [.ofNat (kind.smallTag + size)]
  else .ofNat (kind.largeTag + byteLen size) :: natBytes size

def isSingleByte : Kind → Bytes → Bool
  | .string, [b] => b < 0x80
  | _, _ => false

def frame (kind : Kind) (content : Bytes) : Bytes :=
  if isSingleByte kind content then content else puthead kind content.length ++ content

/-- Reads `size` bytes of content, refusing a header around a single byte. -/
def readContent (kind : Kind) (size : ℕ) (s : Bytes) : Option (Kind × Bytes × Bytes) :=
  if size ≤ s.length ∧ isSingleByte kind (s.take size) = false then
    some (kind, s.take size, s.drop size)
  else none

/-- Reads a size of `n` bytes and the content after it. The size must be
minimal and too large for a short header. -/
def readLong (kind : Kind) (n : ℕ) (s : Bytes) : Option (Kind × Bytes × Bytes) :=
  let size := beValue (s.take n)
  if n ≤ s.length ∧ isMinimal (s.take n) = true ∧ 56 ≤ size then
    readContent kind size (s.drop n)
  else none

def readKind : Bytes → Option (Kind × Bytes × Bytes)
  | [] => none
  | b :: s =>
    if b < 0x80 then some (.string, [b], s)
    else if b < 0xB8 then readContent .string (b.toNat - 0x80) s
    else if b < 0xC0 then readLong .string (b.toNat - 0xB7) s
    else if b < 0xF8 then readContent .list (b.toNat - 0xC0) s
    else readLong .list (b.toNat - 0xF7) s

theorem length_le_length_frame (kind : Kind) (content : Bytes) :
    content.length ≤ (frame kind content).length := by
  unfold frame
  split
  · exact le_rfl
  · simp

variable {content s rest : Bytes} {kind k : Kind}

theorem length_frame_le (kind : Kind) (h : content.length < 2 ^ 64) :
    (frame kind content).length ≤ content.length + 9 := by
  have hlen : byteLen content.length ≤ 8 := (byteLen_le_iff _ _).mpr (by norm_num; exact h)
  unfold frame
  split
  · omega
  rw [length_append, puthead]
  split
  · rw [length_singleton]
    omega
  · rw [length_cons, length_natBytes]
    omega

theorem frame_ne_nil (kind : Kind) (content : Bytes) : frame kind content ≠ [] := by
  unfold frame
  split
  · next h =>
    rintro rfl
    simp [isSingleByte] at h
  · unfold puthead
    split <;> simp

theorem isSingleByte_of_two_le (kind : Kind) (content : Bytes) (h : 2 ≤ content.length) :
    isSingleByte kind content = false := by
  match kind, content, h with
  | .list, _, _ => rfl
  | .string, _ :: _ :: _, _ => rfl

theorem readContent_append (kind : Kind) (rest : Bytes) (h : isSingleByte kind content = false) :
    readContent kind content.length (content ++ rest) = some (kind, content, rest) := by
  simp [readContent, h]

theorem readContent_eq_some {size : ℕ} (h : readContent kind size s = some (k, content, rest)) :
    k = kind ∧ content.length = size ∧ isSingleByte kind content = false ∧ s = content ++ rest := by
  unfold readContent at h
  split at h
  · next hs =>
    obtain ⟨rfl, rfl, rfl⟩ := h
    exact ⟨rfl, by simp [hs.1], hs.2, (take_append_drop size s).symm⟩
  · cases h

theorem readLong_append (kind : Kind) (rest : Bytes) (h : 56 ≤ content.length) :
    readLong kind (byteLen content.length) (natBytes content.length ++ (content ++ rest)) =
      some (kind, content, rest) := by
  have hlen := length_natBytes content.length
  have hsgl := isSingleByte_of_two_le kind content (by omega)
  unfold readLong
  rw [take_left' hlen, drop_left' hlen, beValue_natBytes, if_pos]
  · exact readContent_append kind rest hsgl
  · exact ⟨by simp [hlen], isMinimal_natBytes _, h⟩

theorem readLong_eq_some {n : ℕ} (h : readLong kind n s = some (k, content, rest)) :
    k = kind ∧ 56 ≤ content.length ∧ byteLen content.length = n ∧
      s = natBytes content.length ++ (content ++ rest) := by
  unfold readLong at h
  simp only at h
  split at h
  · next hs =>
    obtain ⟨hn, hmin, hsize⟩ := hs
    obtain ⟨hk, hlen, -, hdrop⟩ := readContent_eq_some h
    have hnat : natBytes content.length = s.take n := by rw [hlen, natBytes_beValue hmin]
    refine ⟨hk, hlen ▸ hsize, ?_, ?_⟩
    · rw [← length_natBytes, hnat, length_take, min_eq_left hn]
    · rw [hnat, ← hdrop, take_append_drop]
  · cases h

theorem readKind_cons_ofNat {tag : ℕ} (h : tag < 256) (s : Bytes) :
    readKind (.ofNat tag :: s) =
      if tag < 0x80 then some (.string, [.ofNat tag], s)
      else if tag < 0xB8 then readContent .string (tag - 0x80) s
      else if tag < 0xC0 then readLong .string (tag - 0xB7) s
      else if tag < 0xF8 then readContent .list (tag - 0xC0) s
      else readLong .list (tag - 0xF7) s := by
  have htag : (UInt8.ofNat tag).toNat = tag := by rw [UInt8.toNat_ofNat']; omega
  have hlt : ∀ m : UInt8, UInt8.ofNat tag < m ↔ tag < m.toNat := fun m ↦ by
    rw [UInt8.lt_iff_toNat_lt, htag]
  simp only [readKind, hlt, htag]
  rfl

theorem readKind_frame (kind : Kind) (rest : Bytes) (h : content.length < 2 ^ 64) :
    readKind (frame kind content ++ rest) = some (kind, content, rest) := by
  unfold frame
  split_ifs with hs
  · match kind, content with
    | .string, [b] =>
      have hb : b < 0x80 := by simpa [isSingleByte] using hs
      simp [readKind, hb]
  have hs : isSingleByte kind content = false := by simpa using hs
  unfold puthead
  by_cases hsize : content.length < 56
  · have hread := readContent_append kind rest hs
    rw [if_pos hsize, singleton_append, cons_append]
    cases kind with
    | string =>
      rw [Kind.smallTag, readKind_cons_ofNat (by omega), if_neg (by omega), if_pos (by omega),
        Nat.add_sub_cancel_left, hread]
    | list =>
      rw [Kind.smallTag, readKind_cons_ofNat (by omega), if_neg (by omega), if_neg (by omega),
        if_neg (by omega), if_pos (by omega), Nat.add_sub_cancel_left, hread]
  have hread := readLong_append kind rest (not_lt.mp hsize)
  have hle : byteLen content.length ≤ 8 := (byteLen_le_iff _ _).mpr h
  have hpos : ¬ byteLen content.length ≤ 0 := by
    rw [byteLen_le_iff]
    omega
  rw [if_neg hsize, cons_append, cons_append, List.append_assoc]
  cases kind with
  | string =>
    rw [Kind.largeTag, readKind_cons_ofNat (by omega), if_neg (by omega), if_neg (by omega),
      if_pos (by omega), Nat.add_sub_cancel_left, hread]
  | list =>
    rw [Kind.largeTag, readKind_cons_ofNat (by omega), if_neg (by omega), if_neg (by omega),
      if_neg (by omega), if_neg (by omega), Nat.add_sub_cancel_left, hread]

theorem cons_eq_frame_of_readContent {b : UInt8} (hb : kind.smallTag ≤ b.toNat)
    (hb' : b.toNat < kind.smallTag + 56)
    (h : readContent kind (b.toNat - kind.smallTag) s = some (k, content, rest)) :
    b :: s = frame k content ++ rest := by
  obtain ⟨rfl, hlen, hs, rfl⟩ := readContent_eq_some h
  have htag : UInt8.ofNat (k.smallTag + content.length) = b := by
    rw [hlen, Nat.add_sub_cancel' hb, UInt8.ofNat_toNat]
  rw [frame, if_neg (by simp [hs]), puthead, if_pos (by omega), htag]
  rfl

theorem cons_eq_frame_of_readLong {b : UInt8} (hb : kind.largeTag ≤ b.toNat)
    (h : readLong kind (b.toNat - kind.largeTag) s = some (k, content, rest)) :
    b :: s = frame k content ++ rest := by
  obtain ⟨rfl, hsize, hlen, rfl⟩ := readLong_eq_some h
  have hs := isSingleByte_of_two_le k content (by omega)
  have htag : UInt8.ofNat (k.largeTag + byteLen content.length) = b := by
    rw [hlen, Nat.add_sub_cancel' hb, UInt8.ofNat_toNat]
  rw [frame, if_neg (by simp [hs]), puthead, if_neg (by omega), htag, cons_append,
    cons_append, List.append_assoc]

theorem eq_frame_of_readKind (h : readKind s = some (k, content, rest)) : s = frame k content ++ rest := by
  cases s with
  | nil => cases h
  | cons b s =>
    unfold readKind at h
    simp only [UInt8.lt_iff_toNat_lt, UInt8.reduceToNat] at h
    split at h
    · next hlt =>
      obtain ⟨rfl, rfl, rfl⟩ := h
      rw [frame, if_pos (by simpa [isSingleByte, UInt8.lt_iff_toNat_lt] using hlt)]
      rfl
    split at h
    · exact cons_eq_frame_of_readContent (by simp only [Kind.smallTag]; omega)
        (by simp only [Kind.smallTag]; omega) h
    split at h
    · exact cons_eq_frame_of_readLong (by simp only [Kind.largeTag]; omega) h
    split at h
    · exact cons_eq_frame_of_readContent (by simp only [Kind.smallTag]; omega)
        (by simp only [Kind.smallTag]; omega) h
    · exact cons_eq_frame_of_readLong (by simp only [Kind.largeTag]; omega) h

end BjutEth.Rlp
