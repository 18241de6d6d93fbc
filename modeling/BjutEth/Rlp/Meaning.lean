import BjutEth.Rlp.Ahead

namespace BjutEth.Rlp

open Option
open Stream (kindAhead bind_ok bind_error)

def Header.content (hd : Header) : Option (Kind × Bytes × Bytes) :=
  match hd.kind with
  | .byte => some (.string, [hd.byteval], hd.rest)
  | .string => readContent .string hd.size hd.rest
  | .list => readContent .list hd.size hd.rest

theorem readLong_eq_bind (kind : Kind) (k : StreamKind) (n : ℕ) (s : Bytes)
    (hk : ∀ size rest, Header.content ⟨k, size, 0, rest⟩ = readContent kind size rest) :
    readLong kind n s = (longHeader k n s).bind Header.content := by
  simp only [readLong, longHeader]
  split
  · rw [bind_some, hk]
  · rfl

theorem readKind_eq_bind (c : Bytes) : readKind c = (headerOf c).bind Header.content := by
  cases c with
  | nil => rfl
  | cons b s =>
    simp only [readKind, headerOf]
    split
    · rfl
    split
    · simp only [bind_some, Header.content]
    split
    · exact readLong_eq_bind .string .string _ s (fun _ _ ↦ rfl)
    split
    · simp only [bind_some, Header.content]
    · exact readLong_eq_bind .list .list _ s (fun _ _ ↦ rfl)

variable {c : Bytes} {hd : Header}

theorem headerOf_byte_size (h : headerOf c = some hd) (hk : hd.kind = .byte) :
    c = hd.byteval :: hd.rest ∧ hd.byteval < 0x80 ∧ hd.size = 0 := by
  have hlong : ∀ {kind n s}, longHeader kind n s = some hd → hd.kind = kind := by
    intro kind n s hl
    unfold longHeader at hl
    split at hl
    · cases hl
      rfl
    · cases hl
  cases c with
  | nil => cases h
  | cons b s =>
    simp only [headerOf] at h
    split at h
    · next hlt =>
      cases h
      exact ⟨rfl, hlt, rfl⟩
    split at h
    · cases h
      cases hk
    split at h
    · exact absurd ((hlong h).symm.trans hk) (by decide)
    split at h
    · cases h
      cases hk
    · exact absurd ((hlong h).symm.trans hk) (by decide)

theorem eq_frame_of_headerOf_string (h : headerOf c = some hd) (hk : hd.kind = .string)
    (hsize : hd.size ≤ hd.rest.length) (hs : isSingleByte .string (hd.rest.take hd.size) = false) :
    c = frame .string (hd.rest.take hd.size) ++ hd.rest.drop hd.size := by
  apply eq_frame_of_readKind
  rw [readKind_eq_bind, h, bind_some, Header.content, hk]
  exact if_pos ⟨hsize, hs⟩

theorem eq_frame_of_headerOf_list (h : headerOf c = some hd) (hk : hd.kind = .list)
    (hsize : hd.size ≤ hd.rest.length) : c = frame .list (hd.rest.take hd.size) ++ hd.rest.drop hd.size := by
  apply eq_frame_of_readKind
  rw [readKind_eq_bind, h, bind_some, Header.content, hk]
  exact if_pos ⟨hsize, rfl⟩

theorem headerOf_frame (kind : Kind) {content : Bytes} (rest : Bytes)
    (hlen : content.length < 2 ^ 64) :
    ∃ hd, headerOf (frame kind content ++ rest) = some hd ∧
      (kind = .string ∧ hd.kind = .byte ∧ content = [hd.byteval] ∧ hd.rest = rest ∨
        hd.kind = (match kind with | .string => .string | .list => .list) ∧
          hd.size = content.length ∧ isSingleByte kind content = false ∧
            hd.rest = content ++ rest) := by
  have h := readKind_frame kind rest hlen
  rw [readKind_eq_bind] at h
  obtain ⟨hd, hhd, hc⟩ := bind_eq_some_iff.mp h
  refine ⟨hd, hhd, ?_⟩
  unfold Header.content at hc
  cases hk : hd.kind with
  | byte =>
    simp only [hk, some.injEq, Prod.mk.injEq] at hc
    exact .inl ⟨hc.1.symm, rfl, hc.2.1.symm, hc.2.2⟩
  | string =>
    rw [hk] at hc
    obtain ⟨rfl, hsize, hs, hrest⟩ := readContent_eq_some hc
    exact .inr ⟨rfl, hsize.symm, hs, hrest⟩
  | list =>
    rw [hk] at hc
    obtain ⟨rfl, hsize, hs, hrest⟩ := readContent_eq_some hc
    exact .inr ⟨rfl, hsize.symm, hs, hrest⟩

/-- The bytes `v` are ahead of the stream, which may have read their header already. -/
def Facing (s : Stream) (lvl : Level) (v tail : Bytes) : Prop :=
  Armed s lvl v tail ∨
    ∃ hd, headerOf v = some hd ∧ hd.size ≤ hd.rest.length ∧
      Peeked s hd.kind hd.size hd.byteval lvl hd.rest tail

namespace Facing

variable {s : Stream} {lvl : Level} {v tail : Bytes}

theorem kindAhead_of_some (h : Facing s lvl v tail) (hhd : headerOf v = some hd)
    (hsize : hd.size ≤ hd.rest.length) :
    ∃ s', s.kindAhead = .ok (hd.kind, hd.size) s' ∧
      Peeked s' hd.kind hd.size hd.byteval lvl hd.rest tail := by
  rcases h with h | ⟨hd', hhd', -, hp⟩
  · have hv : v ≠ [] := by
      rintro rfl
      cases hhd
    rw [h.kindAhead_eq (.inl hv)]
    exact h.toPlaced.freshKind_of_some hhd hsize
  · obtain rfl : hd' = hd := some.inj (hhd'.symm.trans hhd)
    exact ⟨s, hp.kindAhead_eq, hp⟩

theorem kindAhead_cases (h : Facing s lvl v tail) :
    (∃ hd s', headerOf v = some hd ∧ hd.size ≤ hd.rest.length ∧
      s.kindAhead = .ok (hd.kind, hd.size) s' ∧
        Peeked s' hd.kind hd.size hd.byteval lvl hd.rest tail) ∨
    (∃ s', s.kindAhead = .error .eol s' ∧ v = [] ∧ lvl ≠ .top ∧ Armed s' lvl [] tail) ∨
    ∃ e s', s.kindAhead = .error e s' ∧ e ≠ .eol := by
  by_cases hsome : ∃ hd, headerOf v = some hd ∧ hd.size ≤ hd.rest.length
  · obtain ⟨hd, hhd, hsize⟩ := hsome
    obtain ⟨s', hk, hp⟩ := h.kindAhead_of_some hhd hsize
    exact .inl ⟨hd, s', hhd, hsize, hk, hp⟩
  have hnone : ∀ hd, headerOf v = some hd → hd.rest.length < hd.size := by
    intro hd hhd
    by_contra hle
    exact hsome ⟨hd, hhd, not_lt.mp hle⟩
  rcases h with h | ⟨hd, hhd, hsize, -⟩
  · by_cases hend : v ≠ [] ∨ lvl = .top
    · rw [h.kindAhead_eq hend]
      exact .inr (.inr (h.toPlaced.freshKind_of_none hnone))
    obtain ⟨hv, hlvl⟩ := not_or.mp hend
    obtain rfl := not_not.mp hv
    cases lvl with
    | top => exact absurd rfl hlvl
    | inside size outer =>
      obtain ⟨s', hk, ha⟩ := h.kindAhead_end
      exact .inr (.inl ⟨s', hk, rfl, hlvl, ha⟩)
  · exact absurd ⟨hd, hhd, hsize⟩ hsome

end Facing

/-- The stream is in front of the bytes `c`. If it is `again` at a zero byte, that byte was
read and not taken. -/
def Sees (s : Stream) (again : Bool) (lvl : Level) (c tail : Bytes) : Prop :=
  if again then Peeked s .byte 0 0 lvl c tail else Armed s lvl c tail

theorem Armed.sees {s : Stream} {lvl : Level} {tail : Bytes} (h : Armed s lvl c tail) :
    Sees s false lvl c tail := h

def view (again : Bool) (c : Bytes) : Bytes := if again then 0 :: c else c

theorem Sees.placed {s : Stream} {again : Bool} {lvl : Level} {tail : Bytes} (h : Sees s again lvl c tail) :
    Placed s lvl c tail := by
  cases again with
  | false => exact Armed.toPlaced h
  | true => exact Peeked.toPlaced h

theorem Sees.facing {s : Stream} {again : Bool} {lvl : Level} {tail : Bytes} (h : Sees s again lvl c tail) :
    Facing s lvl (view again c) tail := by
  cases again with
  | false => exact .inl h
  | true => exact .inr ⟨⟨.byte, 0, 0, c⟩, rfl, Nat.zero_le _, h⟩

variable {α β : Type}

/-- `d` returns only values that the bytes it took mean, and `EOL` only at the end of a list. -/
structure Sound (d : Dec α) (means : α → Bytes → Prop) (again : α → Bool) : Prop where
  ok : ∀ {s lvl v tail a s'}, Facing s lvl v tail → d s = .ok a s' →
    ∃ b rest, means a b ∧ v = b ++ rest ∧ Sees s' (again a) lvl rest tail
  eol : ∀ {s lvl v tail s'}, Facing s lvl v tail → d s = .error .eol s' →
    v = [] ∧ lvl ≠ .top ∧ Armed s' lvl [] tail

/-- `d` returns every value for the bytes that mean it. -/
structure Reads (d : Dec α) (means : α → Bytes → Prop) (again : α → Bool) : Prop where
  ok : ∀ {s lvl tail a b rest}, Facing s lvl (b ++ rest) tail → means a b → b.length < 2 ^ 64 →
    ∃ s', d s = .ok a s' ∧ Sees s' (again a) lvl rest tail

/-- `d` moreover returns `EOL` at the end of a list. -/
structure Complete (d : Dec α) (means : α → Bytes → Prop) (again : α → Bool) : Prop
    extends Reads d means again where
  eol : ∀ {s size outer tail}, Armed s (.inside size outer) [] tail →
    ∃ s', d s = .error .eol s' ∧ Armed s' (.inside size outer) [] tail

variable {means means' : α → Bytes → Prop} {again : α → Bool}

theorem Sound.of_imp {d : Dec α} (h : Sound d means again) (hm : ∀ a b, means a b → means' a b) :
    Sound d means' again where
  ok hs hd := by
    obtain ⟨b, rest, hmean, hview, hs'⟩ := h.ok hs hd
    exact ⟨b, rest, hm _ _ hmean, hview, hs'⟩
  eol := h.eol

theorem Complete.of_imp {d : Dec α} (h : Complete d means again) (hm : ∀ a b, means' a b → means a b) :
    Complete d means' again where
  ok hs hmean hlen := h.ok hs (hm _ _ hmean) hlen
  eol := h.eol

def Yields (means : α → Bytes → Prop) (again : α → Bool) (lvl : Level) (c tail : Bytes) :
    EStateM.Result DecodeError Stream α → Prop
  | .ok a s' => ∃ b rest, means a b ∧ c = b ++ rest ∧ Sees s' (again a) lvl rest tail
  | .error e _ => e ≠ .eol

variable {f : StreamKind × ℕ → Dec α}

theorem sound_of_kindAhead
    (hok : ∀ {s hd lvl tail}, Peeked s hd.kind hd.size hd.byteval lvl hd.rest tail →
      hd.size ≤ hd.rest.length → ∀ {c}, headerOf c = some hd →
        Yields means again lvl c tail (f (hd.kind, hd.size) s)) :
    Sound (kindAhead >>= f) means again where
  ok {s lvl v tail a s'} hs hd := by
    rcases hs.kindAhead_cases with ⟨hdr, t, hhd, hsize, hk, hp⟩ | ⟨t, hk, -⟩ | ⟨e, t, hk, -⟩
    · rw [bind_ok hk] at hd
      have hy := hok hp hsize hhd
      rwa [hd] at hy
    · rw [bind_error _ hk] at hd
      cases hd
    · rw [bind_error _ hk] at hd
      cases hd
  eol {s lvl v tail s'} hs hd := by
    rcases hs.kindAhead_cases with ⟨hdr, t, hhd, hsize, hk, hp⟩ | ⟨t, hk, hv, hlvl, ha⟩ |
      ⟨e, t, hk, he⟩
    · rw [bind_ok hk] at hd
      have hy := hok hp hsize hhd
      rw [hd] at hy
      exact absurd rfl hy
    · rw [bind_error _ hk] at hd
      cases hd
      exact ⟨hv, hlvl, ha⟩
    rw [bind_error _ hk] at hd
    cases hd
    exact absurd rfl he

theorem complete_of_kindAhead
    (hok : ∀ {a b rest}, means a b → b.length < 2 ^ 64 → ∃ hd, headerOf (b ++ rest) = some hd ∧
      hd.size ≤ hd.rest.length ∧
      ∀ {s lvl tail}, Peeked s hd.kind hd.size hd.byteval lvl hd.rest tail →
        ∃ s', f (hd.kind, hd.size) s = .ok a s' ∧ Sees s' (again a) lvl rest tail) :
    Complete (kindAhead >>= f) means again where
  ok hs hmean hlen := by
    obtain ⟨hd, hhd, hsize, hf⟩ := hok hmean hlen
    obtain ⟨t, hk, hp⟩ := hs.kindAhead_of_some hhd hsize
    obtain ⟨s', hs', hsee⟩ := hf hp
    exact ⟨s', (bind_ok hk).trans hs', hsee⟩
  eol {s size outer tail} ha := by
    obtain ⟨s', hk, ha'⟩ := ha.kindAhead_end
    exact ⟨s', bind_error _ hk, ha'⟩

end BjutEth.Rlp
