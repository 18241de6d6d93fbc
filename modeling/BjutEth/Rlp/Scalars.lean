import BjutEth.Rlp.Meaning

namespace BjutEth.Rlp

open List

variable {b : UInt8} {s : Stream} {size : ℕ} {lvl : Level} {c tail : Bytes}

theorem frame_singleton (h : b < 0x80) : frame .string [b] = [b] :=
  if_pos (by simpa [isSingleByte] using h)

theorem isSingleByte_eq_false_iff {b : Bytes} :
    isSingleByte .string b = false ↔ ¬ (b.length = 1 ∧ b.headD 0 < 128) := by
  rcases b with _ | ⟨b, _ | ⟨b', s⟩⟩ <;> simp [isSingleByte]

theorem Peeked.armed {kind : StreamKind} (h : Peeked s kind size b lvl c tail) :
    Armed { s with kind := none } lvl c tail where
  toPlaced := h.toPlaced.congr rfl rfl rfl
  kind := rfl

namespace Stream

def IsString (content b : Bytes) : Prop := b = frame .string content

theorem bytesAhead_string_cases (hp : Placed s lvl c tail) (hsize : size ≤ c.length) :
    (∃ s', bytesAhead (.string, size) s = .ok (c.take size) s' ∧
      isSingleByte .string (c.take size) = false ∧ Armed s' lvl (c.drop size) tail) ∨
    ∃ e s', bytesAhead (.string, size) s = .error e s' ∧ e ≠ .eol ∧
      isSingleByte .string (c.take size) = true := by
  have hlen : (c.take size).length = size := length_take_of_le hsize
  rw [bytesAhead, bind_ok (hp.readFull_of_le hsize)]
  by_cases hsgl : size = 1 ∧ (c.take size).headD 0 < 128
  · right
    rw [if_pos hsgl]
    refine ⟨_, _, rfl, by decide, ?_⟩
    by_contra hs
    have hs := isSingleByte_eq_false_iff.mp (Bool.eq_false_iff.mpr hs)
    rw [hlen] at hs
    exact hs hsgl
  left
  rw [if_neg hsgl]
  refine ⟨_, rfl, ?_, hp.armed_after hsize⟩
  rw [isSingleByte_eq_false_iff, hlen]
  exact hsgl

theorem sound_bytes : Sound bytes IsString (fun _ ↦ false) := by
  apply sound_of_kindAhead
  intro s hd lvl tail hp hsize c hhd
  cases hk : hd.kind with
  | byte =>
    obtain ⟨rfl, hlt, -⟩ := headerOf_byte_size hhd hk
    refine ⟨[hd.byteval], hd.rest, ?_, rfl, hp.armed⟩
    rw [hp.byteval]
    exact (frame_singleton hlt).symm
  | string =>
    rcases bytesAhead_string_cases hp.toPlaced hsize with ⟨t, ht, hs, ha⟩ | ⟨e, t, ht, he, -⟩
    · rw [ht]
      exact ⟨_, _, rfl, eq_frame_of_headerOf_string hhd hk hsize hs, ha⟩
    · rw [ht]
      exact he
  | list => exact DecodeError.noConfusion

variable {content : Bytes} {n : ℕ}

theorem headerOf_string {rest : Bytes} (hlen : (frame .string content).length < 2 ^ 64) :
    ∃ hd, headerOf (frame .string content ++ rest) = some hd ∧ hd.size ≤ hd.rest.length ∧
      (hd.kind = .byte ∧ hd.size = 0 ∧ content = [hd.byteval] ∧ hd.rest = rest ∨
        hd.kind = .string ∧ hd.rest.take hd.size = content ∧ hd.rest.drop hd.size = rest ∧
          hd.size = content.length ∧ isSingleByte .string content = false) := by
  have hlen : content.length < 2 ^ 64 := (length_le_length_frame .string content).trans_lt hlen
  obtain ⟨hd, hhd, hcs⟩ := headerOf_frame .string rest hlen
  refine ⟨hd, hhd, ?_⟩
  rcases hcs with ⟨-, hk, rfl, hrest⟩ | ⟨hk, hsize, hs, hrest⟩
  · obtain ⟨-, -, hsize⟩ := headerOf_byte_size hhd hk
    exact ⟨by omega, .inl ⟨hk, hsize, rfl, hrest⟩⟩
  · rw [hsize, hrest, take_left, drop_left, length_append]
    exact ⟨Nat.le_add_right _ _, .inr ⟨hk, rfl, rfl, rfl, hs⟩⟩

theorem complete_bytes : Complete bytes IsString (fun _ ↦ false) := by
  apply complete_of_kindAhead
  rintro content b rest rfl hlen
  obtain ⟨hd, hhd, hsize, hcs⟩ := headerOf_string hlen
  refine ⟨hd, hhd, hsize, ?_⟩
  intro s lvl tail hp
  rcases hcs with ⟨hk, -, rfl, rfl⟩ | ⟨hk, htake, rfl, -, hs⟩
  · refine ⟨_, ?_, hp.armed⟩
    rw [hk, ← hp.byteval]
    rfl
  rcases bytesAhead_string_cases hp.toPlaced hsize with ⟨t, ht, -, ha⟩ | ⟨e, t, -, -, hs'⟩
  · rw [hk, ht, htake]
    exact ⟨t, rfl, ha⟩
  · rw [htake, hs] at hs'
    cases hs'

def IsUint (maxbits n : ℕ) (b : Bytes) : Prop :=
  n < 256 ^ (maxbits / 8) ∧ b = frame .string (natBytes n)

theorem natBytes_toNat (h : b ≠ 0) : natBytes b.toNat = [b] := by
  have hmin : isMinimal [b] = true := by simpa [isMinimal] using h
  have hval : beValue [b] = b.toNat := by simp [beValue]
  rw [← hval]
  exact natBytes_beValue hmin

theorem isSingleByte_eq_false_of_le (h : 128 ≤ beValue content) : isSingleByte .string content = false := by
  rw [isSingleByte_eq_false_iff]
  rintro ⟨hlen, hlt⟩
  obtain ⟨b, rfl⟩ := length_eq_one_iff.mp hlen
  have hval : beValue [b] = b.toNat := by simp [beValue]
  have hlt : b.toNat < 128 := hlt
  omega

theorem get_bind {β : Type} (f : Stream → Dec β) (s : Stream) : (get >>= f) s = f s s := rfl

theorem uintAhead_byte_zero (maxbits size : ℕ) (h : s.byteval = 0) :
    uintAhead maxbits (.byte, size) s = .error .canonInt s := by
  rw [uintAhead, get_bind, if_pos h]
  rfl

theorem uintAhead_byte (maxbits size : ℕ) (h : s.byteval ≠ 0) :
    uintAhead maxbits (.byte, size) s = .ok s.byteval.toNat { s with kind := none } := by
  rw [uintAhead, get_bind, if_neg h]
  rfl

theorem uintAhead_string_cases (maxbits : ℕ) (hp : Placed s lvl c tail) (hsize : size ≤ c.length) :
    (∃ s', uintAhead maxbits (.string, size) s = .ok (beValue (c.take size)) s' ∧
      size ≤ maxbits / 8 ∧ isMinimal (c.take size) = true ∧
        isSingleByte .string (c.take size) = false ∧ Armed s' lvl (c.drop size) tail) ∨
    ∃ e s', uintAhead maxbits (.string, size) s = .error e s' ∧ e ≠ .eol ∧
      ¬ (size ≤ maxbits / 8 ∧ isMinimal (c.take size) = true ∧
        isSingleByte .string (c.take size) = false) := by
  rcases lt_or_ge (maxbits / 8) size with hlt | hle
  · right
    refine ⟨.uintOverflow, s, ?_, by decide, fun h ↦ absurd h.1 (not_le.mpr hlt)⟩
    simp only [uintAhead]
    rw [if_pos hlt]
    rfl
  simp only [uintAhead]
  rw [if_neg (not_lt.mpr hle)]
  rcases Nat.eq_zero_or_pos size with rfl | hpos
  · left
    refine ⟨{ s with kind := none }, ?_, hle, rfl, rfl, ?_⟩
    · rfl
    · exact { toPlaced := hp.congr rfl rfl rfl, kind := rfl }
  have hlen : (c.take size).length = size := length_take_of_le hsize
  cases hmin : isMinimal (c.take size) with
  | true =>
    have hread : readInt size s = .ok (beValue (c.take size)) (Placed.after s lvl c size) := by
      simp only [readInt, hp.readUint_of_le hpos hsize hmin]
    rw [bind_ok hread]
    by_cases hv : beValue (c.take size) < 128
    · right
      rw [if_pos ⟨hpos, hv⟩]
      refine ⟨_, _, rfl, by decide, ?_⟩
      rintro ⟨-, -, hs⟩
      apply isSingleByte_eq_false_iff.mp hs
      -- below 128 a minimal number has one byte, and that byte is the number
      have hone : size = 1 := by
        by_contra hne
        obtain ⟨b, rest, hb⟩ := exists_cons_of_length_pos (hlen.symm ▸ hpos)
        have hle := le_beValue_of_isMinimal (hb ▸ hmin)
        rw [hb] at hlen hv
        have hpow : 256 ^ 1 ≤ 256 ^ rest.length :=
          Nat.pow_le_pow_right (by norm_num) (by simp at hlen; omega)
        omega
      refine ⟨hlen.trans hone, ?_⟩
      obtain ⟨b, hb⟩ := length_eq_one_iff.mp (hlen.trans hone)
      rw [hb] at hv ⊢
      have hval : beValue [b] = b.toNat := by simp [beValue]
      rw [hval] at hv
      exact hv
    left
    rw [if_neg (fun h ↦ hv h.2)]
    exact ⟨_, rfl, hle, rfl, isSingleByte_eq_false_of_le (not_lt.mp hv), hp.armed_after hsize⟩
  | false =>
    right
    rcases hp.readUint_of_zero hpos hsize hmin with ⟨hr, -⟩ | hr
    · have hread : readInt size s = .ok 0 (Placed.after s lvl c size) := by simp only [readInt, hr]
      rw [bind_ok hread, if_pos ⟨hpos, by decide⟩]
      exact ⟨_, _, rfl, by decide, fun h ↦ Bool.false_ne_true h.2.1⟩
    have hread : readInt size s = .error .canonInt (Placed.after s lvl c size) := by
      simp only [readInt, hr, if_true]
    exact ⟨_, _, bind_error _ hread, by decide, fun h ↦ Bool.false_ne_true h.2.1⟩

theorem sound_uint {maxbits : ℕ} (hbits : 8 ≤ maxbits) :
    Sound (uint maxbits) (IsUint maxbits) (fun _ ↦ false) := by
  apply sound_of_kindAhead
  intro s hd lvl tail hp hsize c hhd
  cases hk : hd.kind with
  | byte =>
    obtain ⟨rfl, hlt, -⟩ := headerOf_byte_size hhd hk
    by_cases h0 : hd.byteval = 0
    · rw [uintAhead_byte_zero _ _ (hp.byteval.trans h0)]
      exact DecodeError.noConfusion
    rw [uintAhead_byte _ _ (hp.byteval ▸ h0)]
    refine ⟨[hd.byteval], hd.rest, ?_, rfl, hp.armed⟩
    rw [hp.byteval]
    refine ⟨?_, ?_⟩
    · have hpow : 256 ^ 1 ≤ 256 ^ (maxbits / 8) :=
        Nat.pow_le_pow_right (by norm_num) (by omega)
      have := hd.byteval.toNat_lt
      omega
    · rw [natBytes_toNat h0, frame_singleton hlt]
  | string =>
    rcases uintAhead_string_cases maxbits hp.toPlaced hsize with
      ⟨t, ht, hle, hmin, hs, ha⟩ | ⟨e, t, ht, he, -⟩
    · rw [ht]
      refine ⟨_, _, ⟨?_, ?_⟩, eq_frame_of_headerOf_string hhd hk hsize hs, ha⟩
      · refine (beValue_lt _).trans_le (Nat.pow_le_pow_right (by norm_num) ?_)
        exact (length_take_le _ _).trans hle
      · rw [natBytes_beValue hmin]
    · rw [ht]
      exact he
  | list => exact DecodeError.noConfusion

theorem complete_uint (maxbits : ℕ) :
    Complete (uint maxbits) (IsUint maxbits) (fun _ ↦ false) := by
  apply complete_of_kindAhead
  rintro n b rest ⟨hn, rfl⟩ hlen
  obtain ⟨hd, hhd, hsize, hcs⟩ := headerOf_string hlen
  have hmin := isMinimal_natBytes n
  refine ⟨hd, hhd, hsize, ?_⟩
  intro s lvl tail hp
  rcases hcs with ⟨hk, -, hcont, rfl⟩ | ⟨hk, htake, rfl, hlen, hs⟩
  · have hval : beValue [hd.byteval] = n := by rw [← hcont, beValue_natBytes]
    have h0 : hd.byteval ≠ 0 := by
      rw [hcont] at hmin
      simpa [isMinimal] using hmin
    refine ⟨_, ?_, hp.armed⟩
    rw [hk, uintAhead_byte _ _ (hp.byteval ▸ h0), hp.byteval, ← hval]
    simp [beValue]
  have hwidth : hd.size ≤ maxbits / 8 := by
    rw [hlen, length_natBytes, byteLen_le_iff]
    exact hn
  rcases uintAhead_string_cases maxbits hp.toPlaced hsize with
    ⟨t, ht, -, -, -, ha⟩ | ⟨e, t, -, -, hnot⟩
  · rw [htake, beValue_natBytes] at ht
    rw [hk, ht]
    exact ⟨t, rfl, ha⟩
  · rw [htake] at hnot
    exact absurd ⟨hwidth, hmin, hs⟩ hnot

def IsArray (n : ℕ) (content b : Bytes) : Prop := content.length = n ∧ IsString content b

def isZeroByte (content : Bytes) : Bool := content == [0]

theorem uintOrZero_eq (hp : Peeked s .byte 0 b lvl c tail) :
    ∃ s', uintOrZero s = .ok b.toNat s' ∧ Sees s' (isZeroByte [b]) lvl c tail := by
  unfold uintOrZero
  rw [uint, bind_ok hp.kindAhead_eq]
  by_cases h0 : b = 0
  · subst h0
    rw [uintAhead_byte_zero _ _ hp.byteval]
    exact ⟨s, rfl, hp⟩
  have hagain : isZeroByte [b] = false := by simpa [isZeroByte] using h0
  rw [uintAhead_byte _ _ (hp.byteval ▸ h0), hagain]
  refine ⟨_, ?_, hp.armed⟩
  rw [hp.byteval]

theorem byteArrayAhead_byte (hp : Peeked s .byte 0 b lvl c tail) :
    ∃ s', byteArrayAhead 1 (.byte, 0) s = .ok [b] s' ∧ Sees s' (isZeroByte [b]) lvl c tail := by
  obtain ⟨s', hu, hs'⟩ := uintOrZero_eq hp
  refine ⟨s', ?_, hs'⟩
  rw [byteArrayAhead, if_neg one_ne_zero, if_neg (lt_irrefl 1), bind_ok hu, UInt8.ofNat_toNat]
  rfl

theorem byteArrayAhead_byte_of_ne (h : n ≠ 1) (size : ℕ) (s : Stream) :
    ∃ e, byteArrayAhead n (.byte, size) s = .error e s ∧ e ≠ .eol := by
  rcases Nat.eq_zero_or_pos n with rfl | hpos
  · exact ⟨.tooLong, rfl, by decide⟩
  refine ⟨.tooShort, ?_, by decide⟩
  rw [byteArrayAhead, if_neg hpos.ne', if_pos (by omega)]
  rfl

theorem byteArrayAhead_string (s : Stream) : byteArrayAhead n (.string, n) s = bytesAhead (.string, n) s := by
  rw [byteArrayAhead, bytesAhead, if_neg (lt_irrefl n), if_neg (lt_irrefl n)]

theorem byteArrayAhead_string_of_ne (h : size ≠ n) (s : Stream) :
    ∃ e, byteArrayAhead n (.string, size) s = .error e s ∧ e ≠ .eol := by
  rcases lt_or_ge n size with hlt | hle
  · refine ⟨.tooLong, ?_, by decide⟩
    rw [byteArrayAhead, if_pos hlt]
    rfl
  refine ⟨.tooShort, ?_, by decide⟩
  rw [byteArrayAhead, if_neg (not_lt.mpr hle), if_pos (by omega)]
  rfl

theorem isZeroByte_of_isSingleByte (h : isSingleByte .string content = false) :
    isZeroByte content = false := by
  by_contra hz
  have hz : content = [0] := by simpa [isZeroByte] using hz
  subst hz
  cases h

theorem sound_byteArray (n : ℕ) : Sound (byteArray n) (IsArray n) isZeroByte := by
  apply sound_of_kindAhead
  intro s hd lvl tail hp hsize c hhd
  cases hk : hd.kind with
  | byte =>
    obtain ⟨rfl, hlt, hzero⟩ := headerOf_byte_size hhd hk
    by_cases hn : n = 1
    · subst hn
      rw [hk, hzero] at hp
      obtain ⟨t, ht, hsee⟩ := byteArrayAhead_byte hp
      rw [hzero, ht]
      exact ⟨_, _, ⟨rfl, (frame_singleton hlt).symm⟩, rfl, hsee⟩
    obtain ⟨e, ht, he⟩ := byteArrayAhead_byte_of_ne hn hd.size s
    rw [ht]
    exact he
  | string =>
    by_cases hn : hd.size = n
    · subst hn
      rw [byteArrayAhead_string]
      rcases bytesAhead_string_cases hp.toPlaced hsize with ⟨t, ht, hs, ha⟩ | ⟨e, t, ht, he, -⟩
      · rw [ht]
        refine ⟨_, _, ⟨length_take_of_le hsize, rfl⟩,
          eq_frame_of_headerOf_string hhd hk hsize hs, ?_⟩
        rw [isZeroByte_of_isSingleByte hs]
        exact ha
      · rw [ht]
        exact he
    obtain ⟨e, ht, he⟩ := byteArrayAhead_string_of_ne hn s
    rw [ht]
    exact he
  | list => exact DecodeError.noConfusion

theorem complete_byteArray (n : ℕ) : Complete (byteArray n) (IsArray n) isZeroByte := by
  apply complete_of_kindAhead
  rintro content b rest ⟨rfl, rfl⟩ hlen
  obtain ⟨hd, hhd, hsize, hcs⟩ := headerOf_string hlen
  refine ⟨hd, hhd, hsize, ?_⟩
  intro s lvl tail hp
  rcases hcs with ⟨hk, hzero, hcont, rfl⟩ | ⟨hk, htake, rfl, hlen, hs⟩
  · rw [hk, hzero] at hp
    rw [hk, hcont]
    exact byteArrayAhead_byte hp
  rw [hk, hlen, byteArrayAhead_string, ← hlen, isZeroByte_of_isSingleByte hs]
  rcases bytesAhead_string_cases hp.toPlaced hsize with ⟨t, ht, -, ha⟩ | ⟨e, t, -, -, hs'⟩
  · rw [ht, htake]
    exact ⟨t, rfl, ha⟩
  · rw [htake, hs] at hs'
    cases hs'

def accept {β : Type} (e : DecodeError) : Option β → Dec β
  | some v => pure v
  | none => throw e

section Accept

variable {α β : Type} {d : Dec α} {means : α → Bytes → Prop} {again : α → Bool}

theorem sound_accept (h : Sound d means again) {e : DecodeError} (he : e ≠ .eol) (g : α → Option β)
    {again' : β → Bool} (hagain : ∀ a v, g a = some v → again' v = again a) :
    Sound (d >>= fun a ↦ accept e (g a)) (fun v b ↦ ∃ a, g a = some v ∧ means a b) again' where
  ok {s lvl c tail v s'} hs hd := by
    obtain ⟨a, t, hr, hd⟩ := ok_of_bind hd
    cases hg : g a with
    | none =>
      rw [hg] at hd
      cases hd
    | some w =>
      rw [hg] at hd
      cases hd
      obtain ⟨b, rest, hm, hview, hsee⟩ := h.ok hs hr
      rw [← hagain a v hg] at hsee
      exact ⟨b, rest, ⟨a, hg, hm⟩, hview, hsee⟩
  eol {s lvl c tail s'} hs hd := by
    rcases error_of_bind hd with hr | ⟨a, t, -, hd⟩
    · exact h.eol hs hr
    cases hg : g a with
    | none =>
      rw [hg] at hd
      cases hd
      exact absurd rfl he
    | some w =>
      rw [hg] at hd
      cases hd

theorem complete_accept (h : Complete d means again) (e : DecodeError) (g : α → Option β)
    {again' : β → Bool} (hagain : ∀ a v, g a = some v → again' v = again a) :
    Complete (d >>= fun a ↦ accept e (g a)) (fun v b ↦ ∃ a, g a = some v ∧ means a b) again' where
  ok {s lvl tail v b rest} hs hm hlen := by
    obtain ⟨a, hg, hm⟩ := hm
    obtain ⟨s', hd, hsee⟩ := h.ok hs hm hlen
    rw [← hagain a v hg] at hsee
    refine ⟨s', ?_, hsee⟩
    rw [bind_ok hd, hg]
    rfl
  eol ha := by
    obtain ⟨s', hd, ha'⟩ := h.eol ha
    exact ⟨s', bind_error _ hd, ha'⟩

end Accept

def IsBool (x : Bool) (b : Bytes) : Prop := b = frame .string (if x then [1] else [])

def boolOf : ℕ → Option Bool
  | 0 => some false
  | 1 => some true
  | _ => none

theorem bool_eq : bool = uint 8 >>= fun n ↦ accept .invalidBool (boolOf n) := by
  unfold bool
  congr 1
  funext n
  rcases n with _ | _ | n <;> rfl

theorem isBool_iff (x : Bool) (b : Bytes) : (∃ n, boolOf n = some x ∧ IsUint 8 n b) ↔ IsBool x b := by
  have hone : natBytes 1 = [1] := by decide
  constructor
  · rintro ⟨n, hn, -, rfl⟩
    rcases n with _ | _ | n
    · cases hn
      rfl
    · cases hn
      rfl
    · cases hn
  rintro rfl
  cases x with
  | false => exact ⟨0, rfl, by decide, rfl⟩
  | true => exact ⟨1, rfl, by decide, by rw [hone]; rfl⟩

theorem sound_bool : Sound bool IsBool (fun _ ↦ false) := by
  rw [bool_eq]
  refine (sound_accept (sound_uint le_rfl) (by decide) boolOf (fun _ _ _ ↦ rfl)).of_imp ?_
  exact fun x b ↦ (isBool_iff x b).mp

theorem complete_bool : Complete bool IsBool (fun _ ↦ false) := by
  rw [bool_eq]
  refine (complete_accept (complete_uint 8) _ boolOf (fun _ _ _ ↦ rfl)).of_imp ?_
  exact fun x b ↦ (isBool_iff x b).mpr

def IsBigInt (n : ℕ) (b : Bytes) : Prop := b = frame .string (natBytes n)

def bigIntOf (b : Bytes) : Option ℕ := if b.head? = some 0 then none else some (beValue b)

theorem bigInt_eq : bigInt = bytes >>= fun b ↦ accept .canonInt (bigIntOf b) := by
  unfold bigInt
  congr 1
  funext b
  unfold bigIntOf
  split <;> rfl

theorem isBigInt_iff (n : ℕ) (b : Bytes) :
    (∃ content, bigIntOf content = some n ∧ IsString content b) ↔ IsBigInt n b := by
  constructor
  · rintro ⟨content, hc, rfl⟩
    unfold bigIntOf at hc
    split at hc
    · cases hc
    next h0 =>
    cases hc
    have hmin : isMinimal content = true := by simpa [isMinimal] using h0
    rw [IsBigInt, natBytes_beValue hmin]
  rintro rfl
  refine ⟨natBytes n, ?_, rfl⟩
  have h0 : ¬ (natBytes n).head? = some 0 := by simpa [isMinimal] using isMinimal_natBytes n
  rw [bigIntOf, if_neg h0, beValue_natBytes]

theorem sound_bigInt : Sound bigInt IsBigInt (fun _ ↦ false) := by
  rw [bigInt_eq]
  refine (sound_accept sound_bytes (by decide) bigIntOf (fun _ _ _ ↦ rfl)).of_imp ?_
  exact fun n b ↦ (isBigInt_iff n b).mp

theorem complete_bigInt : Complete bigInt IsBigInt (fun _ ↦ false) := by
  rw [bigInt_eq]
  refine (complete_accept complete_bytes _ bigIntOf (fun _ _ _ ↦ rfl)).of_imp ?_
  exact fun n b ↦ (isBigInt_iff n b).mpr

end Stream

end BjutEth.Rlp
