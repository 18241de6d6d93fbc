import BjutEth.Rlp.Types

variable {v : Val} {r : Bool} {vs : List Val}

namespace BjutEth.Rlp

open List Bool Encbuf
open Stream hiding bigInt bool uint

variable {T : Type} {G : Types T}

variable {b c : Bytes}

section Whole

variable {α β : Type} {d : Dec α} {means : α → Bytes → Prop} {again : α → Bool}

theorem armed_ofBytes (b : Bytes) : Armed (Stream.ofBytes b) .top b [] where
  input := (append_nil b).symm
  remaining := rfl
  stack := rfl
  bound := fun _ _ h ↦ by cases h
  top := fun _ ↦ rfl
  kind := rfl

theorem means_of_decodeBytes (h : Sound d means again) {v : α} (hd : decodeBytes d b = .ok v) :
    means v b := by
  unfold decodeBytes at hd
  cases hr : d (Stream.ofBytes b) with
  | error e s =>
    simp only [hr] at hd
    split at hd <;> cases hd
  | ok u s =>
    simp only [hr] at hd
    split at hd
    · next hin =>
      cases hd
      obtain ⟨b', rest, hm, hb, hsee⟩ := h.ok (.inl (armed_ofBytes b)) hr
      have hinput := hsee.placed.input
      rw [hin, append_nil] at hinput
      rw [← hinput, append_nil] at hb
      rw [hb]
      exact hm
    · cases hd

theorem decodeBytes_of_means (h : Reads d means again) {v : α} (hm : means v b) (hlen : b.length < 2 ^ 64) :
    decodeBytes d b = .ok v := by
  have hface : Facing (Stream.ofBytes b) .top (b ++ []) [] := by
    rw [append_nil]
    exact .inl (armed_ofBytes b)
  obtain ⟨s, hs, hsee⟩ := h.ok hface hm hlen
  have hinput : s.input = [] := hsee.placed.input
  simp only [decodeBytes, hs, if_pos hinput]

theorem sound_pure (h : Sound d means again) (f : α → β) {again' : β → Bool}
    (hagain : ∀ a, again' (f a) = again a) :
    Sound (d >>= fun a ↦ pure (f a)) (fun v b ↦ ∃ a, f a = v ∧ means a b) again' := by
  have hs : Sound (d >>= fun a ↦ pure (f a)) (fun v b ↦ ∃ a, some (f a) = some v ∧ means a b)
      again' :=
    sound_accept h (e := .eof) (by decide) (fun a ↦ some (f a))
      (fun a v hv ↦ by rw [← Option.some.inj hv, hagain])
  refine hs.of_imp ?_
  rintro v b ⟨a, hv, hm⟩
  exact ⟨a, Option.some.inj hv, hm⟩

theorem complete_pure (h : Complete d means again) (f : α → β) {again' : β → Bool}
    (hagain : ∀ a, again' (f a) = again a) :
    Complete (d >>= fun a ↦ pure (f a)) (fun v b ↦ ∃ a, f a = v ∧ means a b) again' := by
  have hs : Complete (d >>= fun a ↦ pure (f a)) (fun v b ↦ ∃ a, some (f a) = some v ∧ means a b)
      again' :=
    complete_accept h .eof (fun a ↦ some (f a))
      (fun a v hv ↦ by rw [← Option.some.inj hv, hagain])
  refine hs.of_imp ?_
  rintro v b ⟨a, hv, hm⟩
  exact ⟨a, congrArg some hv, hm⟩

end Whole

/-! What the decoder returns is meant by the bytes, up to zero bytes that are seen again. -/

def Means (G : Types T) : ℕ → T → Val → Bytes → Prop
  | 0, _, _, _ => False
  | fuel + 1, t, v, b =>
    match G.shape t with
    | .uint w => ∃ n, .uint n = v ∧ Stream.IsUint w.bits n b
    | .bool => ∃ x, .bool x = v ∧ Stream.IsBool x b
    | .bigInt => ∃ n, .uint n = v ∧ Stream.IsBigInt n b
    | .string => ∃ c, .bytes c = v ∧ Stream.IsString c b
    | .byteSlice => ∃ c, .bytes c = v ∧ Stream.IsString c b
    | .byteArray n => ∃ c, .array c = v ∧ Stream.IsArray n c b
    | .slice e =>
      ∃ vs, .slice vs = v ∧ Stream.IsList (Stream.ElemsMean (Means G fuel e) sticky false) vs b
    | .struct fs =>
      ∃ vs, .struct vs = v ∧ Stream.IsList (Stream.FieldsMean (Means G fuel) sticky false fs) vs b
    | .ptr e => ∃ u, .ptr u = v ∧ Means G fuel e u b

theorem sound_decode (fuel : ℕ) (t : T) : Sound (decode G fuel t) (Means G fuel t) sticky := by
  induction fuel generalizing t with
  | zero =>
    refine ⟨?_, ?_⟩
    · intro s lvl v tail a s' _ hd
      cases hd
    · intro s lvl v tail s' _ hd
      cases hd
  | succ fuel ih =>
    cases hs : G.shape t with
    | uint w =>
      have hw : 8 ≤ w.bits := by cases w <;> decide
      simp only [decode, Means, hs]
      exact sound_pure (sound_uint hw) _ (fun _ ↦ rfl)
    | bool =>
      simp only [decode, Means, hs]
      exact sound_pure sound_bool _ (fun _ ↦ rfl)
    | bigInt =>
      simp only [decode, Means, hs]
      exact sound_pure sound_bigInt _ (fun _ ↦ rfl)
    | string =>
      simp only [decode, Means, hs]
      exact sound_pure sound_bytes _ (fun _ ↦ rfl)
    | byteSlice =>
      simp only [decode, Means, hs]
      exact sound_pure sound_bytes _ (fun _ ↦ rfl)
    | byteArray n =>
      simp only [decode, Means, hs]
      exact sound_pure (sound_byteArray n) _ (fun _ ↦ rfl)
    | slice e =>
      simp only [decode, Means, hs]
      exact sound_pure (sound_listSlice (ih e) fuel) _ (fun _ ↦ rfl)
    | struct fs =>
      simp only [decode, Means, hs]
      exact sound_pure (sound_inList (soundIn_structFields ih fs)) _ (fun _ ↦ rfl)
    | ptr e =>
      simp only [decode, Means, hs]
      exact sound_pure (ih e) _ (fun _ ↦ rfl)

theorem headsize_mono {a b : ℕ} (h : a ≤ b) : headsize a ≤ headsize b := by
  have hlen : byteLen a ≤ byteLen b :=
    (byteLen_le_iff a _).mpr (h.trans_lt ((byteLen_le_iff b _).mp le_rfl))
  unfold headsize
  split <;> split <;> omega

theorem length_frame_list (c : Bytes) :
    (frame .list c).length = headsize c.length + c.length := by
  rw [frame, if_neg (by simp [isSingleByte]), length_append, length_puthead]

def Within (v : Val) (b : Bytes) : Prop :=
  b.length ≤ (encode v).length ∧ (b.length = (encode v).length → clean v = true)

theorem Within.of_eq (h : b = encode v) (hv : clean v = true) :
    Within v b := ⟨(congrArg List.length h).le, fun _ ↦ hv⟩

theorem length_view (r : Bool) (c : Bytes) : (view r c).length = c.length + r.toNat := by
  cases r <;> rfl

theorem elems_within {means : Val → Bytes → Prop} (h : ∀ v b, means v b → Within v b)
    (hm : Stream.ElemsMean means sticky r vs c) :
    c.length + r.toNat ≤ (encodeAll vs).length ∧
      (c.length + r.toNat = (encodeAll vs).length → cleanElems vs = true) := by
  induction vs generalizing r c with
  | nil =>
    obtain ⟨rfl, rfl⟩ := hm
    exact ⟨le_rfl, fun _ ↦ rfl⟩
  | cons v vs ih =>
    obtain ⟨b, rest, hb, hview, hrest⟩ := hm
    obtain ⟨hle, hcln⟩ := h v b hb
    obtain ⟨hle', hcln'⟩ := ih hrest
    have hlen := congrArg List.length hview
    rw [length_view, length_append] at hlen
    rw [encodeAll, length_append]
    refine ⟨by omega, ?_⟩
    intro heq
    -- a zero byte seen again would make the content too short
    have hstick : sticky v = false := by
      cases hst : sticky v with
      | false => rfl
      | true =>
        rw [hst] at hle'
        simp only [toNat_true] at hle'
        omega
    rw [hstick] at hle' hcln'
    rw [cleanElems, hcln (by simp only [toNat_false] at hle'; omega), hstick,
      hcln' (by simp only [toNat_false] at hle' ⊢; omega)]
    rfl

theorem fields_within {means : T → Val → Bytes → Prop} (h : ∀ f v b, means f v b → Within v b) {fs : List T}
    (hm : Stream.FieldsMean means sticky r fs vs c) :
    c.length + (if vs.isEmpty then 0 else r.toNat) ≤ (encodeAll vs).length ∧
      (c.length + (if vs.isEmpty then 0 else r.toNat) = (encodeAll vs).length →
        cleanFields vs = true) := by
  induction fs generalizing r vs c with
  | nil =>
    cases vs with
    | nil =>
      obtain rfl : c = [] := hm
      exact ⟨le_rfl, fun _ ↦ rfl⟩
    | cons v vs => cases hm
  | cons f fs ih =>
    cases vs with
    | nil => cases hm
    | cons v vs =>
      obtain ⟨b, rest, hb, hview, hrest⟩ := hm
      obtain ⟨hle, hcln⟩ := h f v b hb
      obtain ⟨hle', hcln'⟩ := ih hrest
      have hlen := congrArg List.length hview
      rw [length_view, length_append] at hlen
      rw [encodeAll, length_append]
      simp only [isEmpty_cons, false_eq_true, if_false]
      refine ⟨by omega, ?_⟩
      intro heq
      have hlast : (vs.isEmpty || !sticky v) = true := by
        cases he : vs.isEmpty with
        | true => rfl
        | false =>
          cases hst : sticky v with
          | false => rfl
          | true =>
            rw [he, hst] at hle'
            simp only [false_eq_true, if_false, toNat_true] at hle'
            omega
      rw [cleanFields, hcln (by omega), hlast, hcln' (by omega)]
      rfl

theorem within_list (henc : encode v = frame .list (encodeAll vs)) (hb : b = frame .list c)
    (hle : c.length ≤ (encodeAll vs).length) (hcln : c.length = (encodeAll vs).length → clean v = true) :
    Within v b := by
  have hmono := headsize_mono hle
  rw [Within, henc, hb, length_frame_list, length_frame_list]
  refine ⟨by omega, ?_⟩
  intro heq
  exact hcln (by omega)

theorem within_of_means (fuel : ℕ) (t : T) (v : Val) (b : Bytes) (h : Means G fuel t v b) :
    Within v b := by
  induction fuel generalizing t v b with
  | zero => cases h
  | succ fuel ih =>
    cases hs : G.shape t with
    | uint w =>
      simp only [Means, hs] at h
      obtain ⟨n, rfl, -, hb⟩ := h
      exact Within.of_eq hb rfl
    | bool =>
      simp only [Means, hs] at h
      obtain ⟨x, rfl, hb⟩ := h
      exact Within.of_eq hb rfl
    | bigInt =>
      simp only [Means, hs] at h
      obtain ⟨n, rfl, hb⟩ := h
      exact Within.of_eq hb rfl
    | string =>
      simp only [Means, hs] at h
      obtain ⟨c, rfl, hb⟩ := h
      exact Within.of_eq hb rfl
    | byteSlice =>
      simp only [Means, hs] at h
      obtain ⟨c, rfl, hb⟩ := h
      exact Within.of_eq hb rfl
    | byteArray n =>
      simp only [Means, hs] at h
      obtain ⟨c, rfl, -, hb⟩ := h
      exact Within.of_eq hb rfl
    | slice e =>
      simp only [Means, hs] at h
      obtain ⟨vs, rfl, c, hm, hb⟩ := h
      obtain ⟨hle, hcln⟩ := elems_within (ih e) hm
      exact within_list rfl hb hle hcln
    | struct fs =>
      simp only [Means, hs] at h
      obtain ⟨vs, rfl, c, hm, hb⟩ := h
      obtain ⟨hle, hcln⟩ := fields_within ih hm
      have hzero : (if vs.isEmpty then 0 else false.toNat) = 0 := by split <;> rfl
      rw [hzero] at hle hcln
      exact within_list rfl hb hle hcln
    | ptr e =>
      simp only [Means, hs] at h
      obtain ⟨u, rfl, hm⟩ := h
      exact ih e u b hm

theorem clean_of_decodeBytes {fuel : ℕ} {t : T} (h : decodeBytes (decode G fuel t) (encode v) = .ok v) :
    clean v = true :=
  (within_of_means fuel t v _ (means_of_decodeBytes (sound_decode fuel t) h)).2 rfl

/-! Every clean value is read back. -/

mutual

def weight : Val → ℕ
  | .slice vs => weightAll vs + 1
  | .struct vs => weightAll vs + 1
  | .ptr v => weight v + 1
  | _ => 0

def weightAll : List Val → ℕ
  | [] => 0
  | v :: vs => weight v + weightAll vs + 1

end

theorem length_le_weightAll (vs : List Val) : vs.length ≤ weightAll vs := by
  induction vs with
  | nil => exact le_rfl
  | cons v vs ih =>
    rw [length_cons, weightAll]
    omega

theorem weight_le_weightAll (h : v ∈ vs) : weight v ≤ weightAll vs := by
  induction vs with
  | nil => cases h
  | cons u vs ih =>
    rw [weightAll]
    obtain rfl | h := mem_cons.mp h
    · omega
    have := ih h
    omega

theorem elemsMean_of_clean {means : Val → Bytes → Prop} (h : ∀ v ∈ vs, means v (encode v))
    (hcln : cleanElems vs = true) : Stream.ElemsMean means sticky false vs (encodeAll vs) := by
  induction vs with
  | nil => exact ⟨rfl, rfl⟩
  | cons v vs ih =>
    rw [cleanElems, and_eq_true, and_eq_true, not_eq_true'] at hcln
    refine ⟨encode v, encodeAll vs, h v mem_cons_self, rfl, ?_⟩
    rw [hcln.1.2]
    exact ih (fun u hu ↦ h u (mem_cons_of_mem v hu)) hcln.2

theorem fieldsMean_of_clean {means : T → Val → Bytes → Prop} {fs : List T} (hlen : fs.length = vs.length)
    (h : ∀ p ∈ fs.zip vs, means p.1 p.2 (encode p.2)) (hcln : cleanFields vs = true)
    (hr : vs ≠ [] → r = false) : Stream.FieldsMean means sticky r fs vs (encodeAll vs) := by
  induction vs generalizing fs r with
  | nil =>
    obtain rfl := length_eq_zero_iff.mp hlen
    rfl
  | cons v vs ih =>
    cases fs with
    | nil => cases hlen
    | cons f fs =>
      obtain rfl := hr (cons_ne_nil v vs)
      rw [cleanFields, and_eq_true, and_eq_true, or_eq_true, not_eq_true']
        at hcln
      refine ⟨encode v, encodeAll vs, h (f, v) mem_cons_self, rfl, ?_⟩
      refine ih (Nat.succ.inj hlen) (fun p hp ↦ h p (mem_cons_of_mem _ hp)) hcln.2 ?_
      intro hne
      obtain hnil | hstick := hcln.1.2
      · exact absurd (List.isEmpty_iff.mp hnil) hne
      · exact hstick

theorem clean_of_mem_elems (hv : v ∈ vs) (h : cleanElems vs = true) : clean v = true := by
  induction vs with
  | nil => cases hv
  | cons u vs ih =>
    rw [cleanElems, and_eq_true, and_eq_true] at h
    obtain rfl | hv := mem_cons.mp hv
    · exact h.1.1
    · exact ih hv h.2

theorem clean_of_mem_fields (hv : v ∈ vs) (h : cleanFields vs = true) : clean v = true := by
  induction vs with
  | nil => cases hv
  | cons u vs ih =>
    rw [cleanFields, and_eq_true, and_eq_true] at h
    obtain rfl | hv := mem_cons.mp hv
    · exact h.1.1
    · exact ih hv h.2

theorem complete_listSlice_nil {α : Type} (elemdec : Dec α) (fuel : ℕ) :
    Complete (Stream.listSlice elemdec fuel) (Stream.IsList (fun as c ↦ as = [] ∧ c = []))
      (fun _ ↦ false) := by
  refine complete_inList ⟨?_⟩
  rintro s n outer content tail as hlen - ha ⟨rfl, rfl⟩
  obtain rfl : 0 = n := hlen
  exact ⟨false, s, rfl, ha⟩

theorem complete_decode {t : T} (h : HasType G t v) (hcln : clean v = true) {fuel : ℕ}
    (hfuel : weight v ≤ fuel) : Complete (decode G (fuel + 1) t) (fun u b ↦ u = v ∧ b = encode v) sticky := by
  induction h generalizing fuel with
  | @uint t w n hs hn =>
    simp only [decode, hs]
    refine (complete_pure (complete_uint w.bits) _ (fun _ ↦ rfl)).of_imp ?_
    rintro u b ⟨rfl, rfl⟩
    have hpow : 2 ^ w.bits = 256 ^ (w.bits / 8) := by cases w <;> decide
    exact ⟨n, rfl, hpow ▸ hn, rfl⟩
  | @bool t x hs =>
    simp only [decode, hs]
    refine (complete_pure complete_bool _ (fun _ ↦ rfl)).of_imp ?_
    rintro u b ⟨rfl, rfl⟩
    exact ⟨x, rfl, rfl⟩
  | @bigInt t n hs =>
    simp only [decode, hs]
    refine (complete_pure complete_bigInt _ (fun _ ↦ rfl)).of_imp ?_
    rintro u b ⟨rfl, rfl⟩
    exact ⟨n, rfl, rfl⟩
  | @string t c hs =>
    simp only [decode, hs]
    refine (complete_pure complete_bytes _ (fun _ ↦ rfl)).of_imp ?_
    rintro u b ⟨rfl, rfl⟩
    exact ⟨c, rfl, rfl⟩
  | @byteSlice t c hs =>
    simp only [decode, hs]
    refine (complete_pure complete_bytes _ (fun _ ↦ rfl)).of_imp ?_
    rintro u b ⟨rfl, rfl⟩
    exact ⟨c, rfl, rfl⟩
  | @byteArray t n c hs hlen =>
    simp only [decode, hs]
    refine (complete_pure (complete_byteArray n) Val.array (fun _ ↦ rfl)).of_imp ?_
    rintro u b ⟨rfl, rfl⟩
    exact ⟨c, rfl, hlen, rfl⟩
  | @slice t e vs hs hvs ih =>
    rw [weight] at hfuel
    obtain ⟨fuel, rfl⟩ := Nat.exists_eq_succ_of_ne_zero (by omega : fuel ≠ 0)
    simp only [decode, hs]
    cases vs with
    | nil =>
      refine (complete_pure (complete_listSlice_nil _ (fuel + 1)) _ (fun _ ↦ rfl)).of_imp ?_
      rintro u b ⟨rfl, rfl⟩
      exact ⟨[], rfl, [], ⟨rfl, rfl⟩, rfl⟩
    | cons v vs =>
      have helem : ∀ u ∈ v :: vs,
          Complete (decode G (fuel + 1) e) (fun w b ↦ w = u ∧ b = encode u) sticky := by
        intro u hu
        have := weight_le_weightAll hu
        exact ih u hu (clean_of_mem_elems hu hcln) (by omega)
      have hdec : Complete (decode G (fuel + 1) e) (fun w b ↦ w ∈ v :: vs ∧ b = encode w) sticky := by
        refine ⟨⟨?_⟩, (helem v mem_cons_self).eol⟩
        rintro s lvl tail w b rest hface ⟨hw, hb⟩ hlen
        exact (helem w hw).ok hface ⟨rfl, hb⟩ hlen
      refine (complete_pure (complete_listSlice hdec (fuel + 1)) _ (fun _ ↦ rfl)).of_imp ?_
      rintro u b ⟨rfl, rfl⟩
      have hlen := length_le_weightAll (v :: vs)
      exact ⟨v :: vs, rfl, _, ⟨by omega, elemsMean_of_clean (fun u hu ↦ ⟨hu, rfl⟩) hcln⟩, rfl⟩
  | @struct t fs vs hs hlen hvs ih =>
    rw [weight] at hfuel
    obtain ⟨fuel, rfl⟩ := Nat.exists_eq_succ_of_ne_zero (by omega : fuel ≠ 0)
    simp only [decode, hs]
    have hdec : ∀ f, Reads (decode G (fuel + 1) f) (fun w b ↦ (f, w) ∈ fs.zip vs ∧ b = encode w) sticky := by
      intro f
      refine ⟨?_⟩
      rintro s lvl tail w b rest hface ⟨hw, hb⟩ hlt
      have hmem : w ∈ vs := (of_mem_zip hw).2
      have hweight := weight_le_weightAll hmem
      have hlt' : weight w ≤ fuel := by omega
      exact (ih (f, w) hw (clean_of_mem_fields hmem hcln) hlt').ok hface ⟨rfl, hb⟩ hlt
    refine (complete_pure (complete_inList (completeIn_structFields hdec fs)) _
      (fun _ ↦ rfl)).of_imp ?_
    rintro u b ⟨rfl, rfl⟩
    exact ⟨vs, rfl, _, fieldsMean_of_clean hlen (fun p hp ↦ ⟨hp, rfl⟩) hcln (fun _ ↦ rfl), rfl⟩
  | @ptr t e v hs hv ih =>
    rw [weight] at hfuel
    obtain ⟨fuel, rfl⟩ := Nat.exists_eq_succ_of_ne_zero (by omega : fuel ≠ 0)
    simp only [decode, hs]
    have hlt : weight v ≤ fuel := by omega
    refine (complete_pure (ih hcln hlt) Val.ptr (fun _ ↦ rfl)).of_imp ?_
    rintro u b ⟨rfl, rfl⟩
    exact ⟨v, rfl, rfl, rfl⟩

theorem returns_of_clean {t : T} (h : HasType G t v) (hlen : (encode v).length < 2 ^ 64)
    (hcln : clean v = true) : Outcome.Returns (fun fuel ↦ decodeBytes (decode G fuel t) (encode v)) v :=
  ⟨weight v + 1, by
    intro fuel hfuel
    obtain ⟨fuel, rfl⟩ := Nat.exists_eq_add_of_le' hfuel
    exact decodeBytes_of_means
      (complete_decode h hcln (Nat.le_add_left (weight v) fuel)).toReads ⟨rfl, rfl⟩ hlen⟩

/-- Every value is encoded, and it is read back exactly if it is clean. -/
theorem decodeBytes_encodeToBytes_iff {t : T} {v : Val} (h : HasType G t v)
    (hlen : (encode v).length < 2 ^ 64) :
    ∃ b, Encbuf.encodeToBytes (write G t v) = some b ∧
      (Outcome.Returns (fun fuel ↦ decodeBytes (decode G fuel t) b) v ↔ clean v = true) := by
  refine ⟨encode v, (writes_write h).encodeToBytes, ?_, returns_of_clean h hlen⟩
  rintro ⟨n, hn⟩
  exact clean_of_decodeBytes (hn n le_rfl)

/-! A struct of an array of one byte and an integer. -/

inductive FlaggedType
  | flagged | flag | count

def flaggedTypes : Types FlaggedType where
  shape
    | .flagged => .struct [.flag, .count]
    | .flag => .byteArray 1
    | .count => .uint .w8
  elem_ne_byte := by
    intro t e h
    cases t <;> cases h

def flaggedVal (flag : UInt8) (count : ℕ) : Val := .struct [.array [flag], .uint count]

theorem hasType_flaggedVal (flag : UInt8) {count : ℕ} (h : count < 256) :
    HasType flaggedTypes .flagged (flaggedVal flag count) := by
  refine .struct rfl rfl ?_
  intro p hp
  obtain rfl | hp := mem_cons.mp hp
  · exact .byteArray rfl rfl
  obtain rfl := mem_singleton.mp hp
  exact .uint (w := .w8) rfl h

theorem decodeBytes_encodeToBytes_iff_flagged :
    ∃ b, Encbuf.encodeToBytes (write flaggedTypes .flagged (flaggedVal 1 5)) = some b ∧
      Outcome.Returns (fun fuel ↦ decodeBytes (decode flaggedTypes fuel .flagged) b)
        (flaggedVal 1 5) := by
  obtain ⟨b, hb, hiff⟩ := decodeBytes_encodeToBytes_iff (hasType_flaggedVal 1 (by decide))
    (by decide : (encode (flaggedVal 1 5)).length < 2 ^ 64)
  exact ⟨b, hb, hiff.mpr rfl⟩

/-- With a zero flag the integer after it is never reached. -/
theorem not_decodeBytes_zeroFlag :
    HasType flaggedTypes .flagged (flaggedVal 0 5) ∧
      Encbuf.encodeToBytes (write flaggedTypes .flagged (flaggedVal 0 5)) = some [0xC2, 0, 5] ∧
      ¬ Outcome.Returns (fun fuel ↦ decodeBytes (decode flaggedTypes fuel .flagged) [0xC2, 0, 5])
        (flaggedVal 0 5) := by
  have henc : encode (flaggedVal 0 5) = [0xC2, 0, 5] := by decide
  refine ⟨hasType_flaggedVal 0 (by decide), ?_, ?_⟩
  · rw [(writes_write (hasType_flaggedVal 0 (by decide))).encodeToBytes, henc]
  rw [← henc]
  rintro ⟨n, hn⟩
  have hcln := clean_of_decodeBytes (hn n le_rfl)
  revert hcln
  decide

end BjutEth.Rlp
