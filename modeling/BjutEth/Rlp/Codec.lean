import BjutEth.Rlp.Frame

namespace BjutEth.Rlp

open Option List

/-- How values of one Go type are written and read. `encodable` is false of the
values the encoder refuses; the laws say that reading inverts writing and
that nothing but an encoding is read. -/
structure Codec (α : Type) where
  encodable : α → Bool
  encode : α → Bytes
  decode : Bytes → Option (α × Bytes)
  encode_ne_nil : ∀ a, encode a ≠ []
  decode_encode : ∀ a rest, encodable a = true → (encode a).length < 2 ^ 64 →
    decode (encode a ++ rest) = some (a, rest)
  decode_sound : ∀ s a rest, decode s = some (a, rest) → encodable a = true ∧ s = encode a ++ rest

structure Payload (kind : Kind) (α : Type) where
  encodable : α → Bool
  encode : α → Bytes
  decode : Bytes → Option α
  decode_encode : ∀ a, encodable a = true → (encode a).length < 2 ^ 64 →
    decode (encode a) = some a
  decode_sound : ∀ s a, decode s = some a → encodable a = true ∧ s = encode a

variable {α β : Type}

def Payload.codec {kind : Kind} (p : Payload kind α) : Codec α where
  encodable := p.encodable
  encode a := frame kind (p.encode a)
  decode s := do
    let (k, content, rest) ← readKind s
    if k = kind then return (← p.decode content, rest) else none
  encode_ne_nil a := frame_ne_nil kind _
  decode_encode a rest ha hlen := by
    have hle := (length_le_length_frame kind (p.encode a)).trans_lt hlen
    simp [readKind_frame kind rest hle, p.decode_encode a ha hle]
  decode_sound s a rest h := by
    cases hr : readKind s with
    | none => simp [hr] at h
    | some r =>
      obtain ⟨k, content, r⟩ := r
      by_cases hk : k = kind
      · cases hd : p.decode content with
        | none => simp [hr, hk, hd] at h
        | some b =>
          simp only [hr, hk, hd, bind_eq_bind, bind_some, if_true, Option.pure_def,
            Option.some.injEq, Prod.mk.injEq] at h
          obtain ⟨rfl, rfl⟩ := h
          obtain ⟨henc, rfl⟩ := p.decode_sound content b hd
          rw [hk] at hr
          exact ⟨henc, eq_frame_of_readKind hr⟩
      · simp [hr, hk] at h

variable (c : Codec α) (l : List α)

namespace Codec

/-- The codec of a type in bijection with one that has a codec. -/
def imap (c : Codec α) (f : α → β) (g : β → α) (hfg : ∀ b, f (g b) = b)
    (hgf : ∀ a, g (f a) = a) : Codec β where
  encodable b := c.encodable (g b)
  encode b := c.encode (g b)
  decode s := (c.decode s).map (fun r ↦ (f r.1, r.2))
  encode_ne_nil b := c.encode_ne_nil (g b)
  decode_encode b rest hb hlen := by simp [c.decode_encode (g b) rest hb hlen, hfg]
  decode_sound s b rest h := by
    obtain ⟨⟨a, r⟩, hd, hr⟩ := map_eq_some_iff.mp h
    simp only [Prod.mk.injEq] at hr
    obtain ⟨rfl, rfl⟩ := hr
    simpa only [hgf] using c.decode_sound s a r hd

def pair (c : Codec α) (d : Codec β) : Codec (α × β) where
  encodable p := c.encodable p.1 && d.encodable p.2
  encode p := c.encode p.1 ++ d.encode p.2
  decode s := do
    let (a, s) ← c.decode s
    let (b, s) ← d.decode s
    return ((a, b), s)
  encode_ne_nil p := by simp [c.encode_ne_nil]
  decode_encode p rest hp hlen := by
    simp only [Bool.and_eq_true] at hp
    rw [length_append] at hlen
    have hc := c.decode_encode p.1 (d.encode p.2 ++ rest) hp.1 (by omega)
    have hd := d.decode_encode p.2 rest hp.2 (by omega)
    simp [List.append_assoc, hc, hd]
  decode_sound s p rest h := by
    cases hc : c.decode s with
    | none => simp [hc] at h
    | some r =>
      obtain ⟨a, t⟩ := r
      cases hd : d.decode t with
      | none => simp [hc, hd] at h
      | some r =>
        simp only [hc, hd, bind_eq_bind, bind_some, Option.pure_def,
          Option.some.injEq, Prod.mk.injEq] at h
        obtain ⟨rfl, rfl⟩ := h
        obtain ⟨ha, rfl⟩ := c.decode_sound s a t hc
        obtain ⟨hb, rfl⟩ := d.decode_sound t r.1 r.2 hd
        exact ⟨by simp [ha, hb], (List.append_assoc _ _ _).symm⟩

def decodeBytes (c : Codec α) (s : Bytes) : Option α :=
  match c.decode s with
  | some (a, []) => some a
  | _ => none

theorem decodeBytes_encode (a : α) (ha : c.encodable a = true) (hlen : (c.encode a).length < 2 ^ 64) :
    c.decodeBytes (c.encode a) = some a := by
  have h := c.decode_encode a [] ha hlen
  rw [append_nil] at h
  rw [decodeBytes, h]

theorem encode_of_decodeBytes {s : Bytes} {a : α} (h : c.decodeBytes s = some a) :
    c.encodable a = true ∧ s = c.encode a := by
  unfold decodeBytes at h
  split at h
  · next b hd =>
    obtain rfl := some.inj h
    simpa using c.decode_sound s b [] hd
  · cases h

end Codec

def structPayload (c : Codec α) : Payload .list α where
  encodable := c.encodable
  encode := c.encode
  decode := c.decodeBytes
  decode_encode := c.decodeBytes_encode
  decode_sound _ _ := c.encode_of_decodeBytes

def struct (c : Codec α) : Codec α := (structPayload c).codec

def decodeElems (c : Codec α) : ℕ → Bytes → Option (List α)
  | _, [] => some []
  | 0, _ :: _ => none
  | fuel + 1, b :: s => do
    let (a, rest) ← c.decode (b :: s)
    (decodeElems c fuel rest).map (a :: ·)

theorem decodeElems_succ (fuel : ℕ) {s : Bytes} (h : s ≠ []) :
    decodeElems c (fuel + 1) s =
      (c.decode s).bind (fun r ↦ (decodeElems c fuel r.2).map (r.1 :: ·)) := by
  cases s with
  | nil => exact absurd rfl h
  | cons b s => rfl

theorem decodeElems_encode (fuel : ℕ) (hl : l.all c.encodable = true)
    (hlen : (l.flatMap c.encode).length < 2 ^ 64) (hfuel : l.length ≤ fuel) :
    decodeElems c fuel (l.flatMap c.encode) = some l := by
  induction l generalizing fuel with
  | nil => cases fuel <;> rfl
  | cons a l ih =>
    obtain ⟨fuel, rfl⟩ : ∃ n, fuel = n + 1 := ⟨fuel - 1, by simp at hfuel; omega⟩
    simp only [all_cons, Bool.and_eq_true] at hl
    simp only [flatMap_cons, length_append] at hlen
    have ha := c.decode_encode a (l.flatMap c.encode) hl.1 (by omega)
    have hne : c.encode a ++ l.flatMap c.encode ≠ [] := by simp [c.encode_ne_nil]
    rw [flatMap_cons, decodeElems_succ c fuel hne, ha, bind_some,
      ih fuel hl.2 (by omega) (by simpa using hfuel)]
    rfl

theorem decodeElems_sound {fuel : ℕ} {s : Bytes} {l : List α} (h : decodeElems c fuel s = some l) :
    l.all c.encodable = true ∧ s = l.flatMap c.encode := by
  induction fuel generalizing s l with
  | zero =>
    cases s with
    | nil => cases h; exact ⟨rfl, rfl⟩
    | cons b s => cases h
  | succ fuel ih =>
    by_cases hs : s = []
    · subst hs
      cases h
      exact ⟨rfl, rfl⟩
    rw [decodeElems_succ c fuel hs] at h
    obtain ⟨⟨a, rest⟩, hd, hm⟩ := bind_eq_some_iff.mp h
    obtain ⟨l, hl, rfl⟩ := map_eq_some_iff.mp hm
    obtain ⟨ha, rfl⟩ := c.decode_sound s a rest hd
    obtain ⟨hall, rfl⟩ := ih hl
    exact ⟨by simp only [all_cons, ha, hall, Bool.and_self], rfl⟩

theorem length_le_length_flatMap : l.length ≤ (l.flatMap c.encode).length := by
  induction l with
  | nil => exact le_rfl
  | cons a l ih =>
    have hpos := length_pos_iff.mpr (c.encode_ne_nil a)
    simp only [length_cons, flatMap_cons, length_append]
    omega

def listPayload (c : Codec α) : Payload .list (List α) where
  encodable l := l.all c.encodable
  encode l := l.flatMap c.encode
  decode s := decodeElems c s.length s
  decode_encode l hl hlen := decodeElems_encode c l _ hl hlen (length_le_length_flatMap c l)
  decode_sound _ _ h := decodeElems_sound c h

def listOf (c : Codec α) : Codec (List α) := (listPayload c).codec

theorem length_le_length_listOf : l.length ≤ ((listOf c).encode l).length :=
  (length_le_length_flatMap c l).trans (length_le_length_frame .list _)

def textPayload : Payload .string Bytes where
  encodable _ := true
  encode s := s
  decode s := some s
  decode_encode _ _ _ := rfl
  decode_sound _ _ h := ⟨rfl, some.inj h⟩

def text : Codec Bytes := textPayload.codec

def uintPayload : Payload .string UInt64 where
  encodable _ := true
  encode x := natBytes x.toNat
  decode s := if isMinimal s = true ∧ s.length ≤ 8 then some (.ofNat (beValue s)) else none
  decode_encode x _ _ := by
    have hlen : (natBytes x.toNat).length ≤ 8 := by
      rw [length_natBytes, byteLen_le_iff]
      exact x.toNat_lt
    rw [if_pos ⟨isMinimal_natBytes _, hlen⟩, beValue_natBytes, UInt64.ofNat_toNat]
  decode_sound s x h := by
    split at h
    · next hs =>
      cases h
      have hlt : beValue s < 2 ^ 64 :=
        (beValue_lt s).trans_le (Nat.pow_le_pow_right (by norm_num) hs.2)
      rw [UInt64.toNat_ofNat_of_lt' hlt, natBytes_beValue hs.1]
      exact ⟨rfl, rfl⟩
    · cases h

def uint : Codec UInt64 := uintPayload.codec

def bigIntPayload : Payload .string ℤ where
  encodable x := 0 ≤ x
  encode x := natBytes x.toNat
  decode s := if isMinimal s = true then some (beValue s) else none
  decode_encode x hx _ := by
    have hx : 0 ≤ x := by simpa using hx
    rw [if_pos (isMinimal_natBytes _), beValue_natBytes, Int.toNat_of_nonneg hx]
  decode_sound s x h := by
    split at h
    · next hs =>
      cases h
      rw [Int.toNat_natCast, natBytes_beValue hs]
      exact ⟨by simp, rfl⟩
    · cases h

def bigInt : Codec ℤ := bigIntPayload.codec

def boolPayload : Payload .string Bool where
  encodable _ := true
  encode b := if b then [1] else []
  decode s := if s = [] then some false else if s = [1] then some true else none
  decode_encode b _ _ := by cases b <;> rfl
  decode_sound s b h := by
    split at h
    · next hs =>
      cases h
      exact ⟨rfl, hs⟩
    split at h
    · next hs =>
      cases h
      exact ⟨rfl, hs⟩
    · cases h

def bool : Codec Bool := boolPayload.codec

def arrayPayload (n : ℕ) : Payload .string (BitVec (8 * n)) where
  encodable _ := true
  encode x := fixedBytes n x.toNat
  decode s := if s.length = n then some (.ofNat (8 * n) (beValue s)) else none
  decode_encode x _ _ := by
    have hlt : x.toNat < 256 ^ n := by
      have h := x.isLt
      rwa [pow_mul] at h
    rw [if_pos (length_fixedBytes n _), beValue_fixedBytes, Nat.mod_eq_of_lt hlt,
      BitVec.ofNat_toNat, BitVec.setWidth_eq]
  decode_sound s x h := by
    split at h
    · next hs =>
      cases h
      have hlt : beValue s < 2 ^ (8 * n) := by
        have h := beValue_lt s
        rw [hs] at h
        rwa [pow_mul]
      rw [BitVec.toNat_ofNat, Nat.mod_eq_of_lt hlt, ← hs, fixedBytes_beValue]
      exact ⟨rfl, rfl⟩
    · cases h

/-- A byte array, as the number it spells. -/
def array (n : ℕ) : Codec (BitVec (8 * n)) := (arrayPayload n).codec

end BjutEth.Rlp
