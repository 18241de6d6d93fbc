import BjutEth.Rlp.Codec
import BjutEth.Rlp.RoundTrip

/-! Writers and stream decoders of fixed Go types, against the codecs that describe them. -/

namespace BjutEth.Rlp

variable {α β : Type}

namespace Stream

def andThen (d : Dec α) (d' : Dec β) : Dec (α × β) := do
  let a ← d
  let b ← d'
  return (a, b)

structure SoundFields (d : Dec α) (means : α → Bytes → Prop) : Prop where
  ok : ∀ {s lvl c tail a s'}, Armed s lvl c tail → d s = .ok a s' →
    ∃ b rest, means a b ∧ c = b ++ rest ∧ Armed s' lvl rest tail
  eol : ∀ {s s'}, d s ≠ .error .eol s'

structure ReadsFields (d : Dec α) (means : α → Bytes → Prop) : Prop where
  ok : ∀ {s lvl tail a b rest}, Armed s lvl (b ++ rest) tail → means a b → b.length < 2 ^ 64 →
    ∃ s', d s = .ok a s' ∧ Armed s' lvl rest tail

def PairMeans (means : α → Bytes → Prop) (means' : β → Bytes → Prop) (p : α × β) (c : Bytes) :
    Prop :=
  ∃ b b', means p.1 b ∧ means' p.2 b' ∧ c = b ++ b'

variable {d : Dec α} {d' : Dec β} {means : α → Bytes → Prop} {means' : β → Bytes → Prop}

theorem soundFields_notEOL (h : Sound d means (fun _ ↦ false)) : SoundFields (notEOL d) means where
  ok ha hd := h.ok (.inl ha) (notEOL_eq_ok.mp hd)
  eol := notEOL_ne_eol

theorem readsFields_notEOL (h : Reads d means (fun _ ↦ false)) : ReadsFields (notEOL d) means where
  ok ha hm hlen := by
    obtain ⟨s', hs', hsee⟩ := h.ok (.inl ha) hm hlen
    exact ⟨s', notEOL_eq_ok.mpr hs', hsee⟩

theorem SoundFields.andThen (h : SoundFields d means) (h' : SoundFields d' means') :
    SoundFields (andThen d d') (PairMeans means means') where
  ok {s lvl c tail p s'} ha hd := by
    obtain ⟨a, t, hr, hd⟩ := ok_of_bind hd
    obtain ⟨b, u, hr', hd⟩ := ok_of_bind hd
    cases hd
    obtain ⟨x, rest, hm, rfl, ha'⟩ := h.ok ha hr
    obtain ⟨y, rest', hm', rfl, ha''⟩ := h'.ok ha' hr'
    exact ⟨x ++ y, rest', ⟨x, y, hm, hm', rfl⟩, (List.append_assoc _ _ _).symm, ha''⟩
  eol {s s'} hd := by
    rcases error_of_bind hd with hr | ⟨a, t, -, hd⟩
    · exact h.eol hr
    rcases error_of_bind hd with hr' | ⟨b, u, -, hd⟩
    · exact h'.eol hr'
    · cases hd

theorem ReadsFields.andThen (h : ReadsFields d means) (h' : ReadsFields d' means') :
    ReadsFields (andThen d d') (PairMeans means means') where
  ok {s lvl tail p c rest} ha hm hlen := by
    obtain ⟨b, b', hb, hb', rfl⟩ := hm
    rw [List.append_assoc] at ha
    rw [List.length_append] at hlen
    obtain ⟨t, ht, ha'⟩ := h.ok ha hb (by omega)
    obtain ⟨u, hu, ha''⟩ := h'.ok ha' hb' (by omega)
    refine ⟨u, ?_, ha''⟩
    rw [Stream.andThen, bind_ok ht, bind_ok hu]
    rfl

theorem SoundFields.soundIn (h : SoundFields d means) : SoundIn (fun _ ↦ d) means where
  ok {s n outer content tail a s'} _ ha hd := by
    obtain ⟨b, rest, hm, rfl, ha'⟩ := h.ok ha hd
    refine ⟨false, rest, ha', ?_⟩
    rintro rfl
    rwa [List.append_nil]
  eol _ _ := h.eol

theorem ReadsFields.completeIn (h : ReadsFields d means) : CompleteIn (fun _ ↦ d) means where
  ok {s n outer content tail a} hlen hn ha hm := by
    rw [← List.append_nil content] at ha
    obtain ⟨s', hs', ha'⟩ := h.ok ha hm (by omega)
    exact ⟨false, s', hs', ha'⟩

end Stream

open BjutEth.Rlp.Stream Encbuf

def Codec.Means (c : Codec α) (a : α) (b : Bytes) : Prop := c.encodable a = true ∧ b = c.encode a

def Codec.MeansWithin (c : Codec α) (fuel : ℕ) (a : α) (b : Bytes) : Prop :=
  c.Means a b ∧ b.length < fuel

structure Streamed (c : Codec α) where
  write : α → Encbuf → Option Encbuf
  dec : ℕ → Dec α
  writes : ∀ a, c.encodable a = true → Writes (write a) (c.encode a)
  sound : ∀ fuel, Sound (dec fuel) c.Means (fun _ ↦ false)
  complete : ∀ fuel, Complete (dec fuel) (c.MeansWithin fuel) (fun _ ↦ false)

structure StreamedFields (c : Codec α) where
  write : α → Encbuf → Option Encbuf
  dec : ℕ → Dec α
  writes : ∀ a, c.encodable a = true → Writes (write a) (c.encode a)
  sound : ∀ fuel, SoundFields (dec fuel) c.Means
  reads : ∀ fuel, ReadsFields (dec fuel) (c.MeansWithin fuel)

namespace StreamedFields

def one {c : Codec α} (s : Streamed c) : StreamedFields c where
  write := s.write
  dec fuel := notEOL (s.dec fuel)
  writes := s.writes
  sound fuel := soundFields_notEOL (s.sound fuel)
  reads fuel := readsFields_notEOL (s.complete fuel).toReads

def cons {c : Codec α} {c' : Codec β} (s : Streamed c) (fs : StreamedFields c') :
    StreamedFields (c.pair c') where
  write p w := (s.write p.1 w).bind (fs.write p.2)
  dec fuel := andThen (notEOL (s.dec fuel)) (fs.dec fuel)
  writes p hp := by
    have hp : c.encodable p.1 = true ∧ c'.encodable p.2 = true := by
      simpa only [Codec.pair, Bool.and_eq_true] using hp
    exact (s.writes p.1 hp.1).bind (fs.writes p.2 hp.2)
  sound fuel := by
    have h := (soundFields_notEOL (s.sound fuel)).andThen (fs.sound fuel)
    refine ⟨?_, h.eol⟩
    intro st lvl x tail p st' ha hd
    obtain ⟨_, rest, ⟨b, b', hb, hb', rfl⟩, hx, ha'⟩ := h.ok ha hd
    refine ⟨_, rest, ⟨?_, ?_⟩, hx, ha'⟩
    · show (c.encodable p.1 && c'.encodable p.2) = true
      rw [hb.1, hb'.1]
      rfl
    · rw [hb.2, hb'.2]
      rfl
  reads fuel := by
    have h := (readsFields_notEOL (s.complete fuel).toReads).andThen (fs.reads fuel)
    refine ⟨?_⟩
    rintro st lvl tail p b rest ha ⟨⟨henc, rfl⟩, hfuel⟩ hlen
    have henc : c.encodable p.1 = true ∧ c'.encodable p.2 = true := by
      simpa only [Codec.pair, Bool.and_eq_true] using henc
    have hlens : (c.encode p.1).length + (c'.encode p.2).length < fuel := by
      rw [← List.length_append]
      exact hfuel
    exact h.ok ha ⟨c.encode p.1, c'.encode p.2, ⟨⟨henc.1, rfl⟩, by omega⟩,
      ⟨⟨henc.2, rfl⟩, by omega⟩, rfl⟩ hlen

end StreamedFields

namespace Streamed

def struct {c : Codec α} (fs : StreamedFields c) : Streamed (Rlp.struct c) where
  write a := Encbuf.inList (fs.write a)
  dec fuel := Stream.inList (fun _ ↦ fs.dec fuel)
  writes a ha := (fs.writes a ha).inList
  sound fuel := by
    refine (sound_inList (fs.sound fuel).soundIn).of_imp ?_
    rintro a b ⟨content, ⟨henc, rfl⟩, rfl⟩
    exact ⟨henc, rfl⟩
  complete fuel := by
    refine (complete_inList (fs.reads fuel).completeIn).of_imp ?_
    rintro a b ⟨⟨henc, rfl⟩, hlen⟩
    exact ⟨_, ⟨⟨henc, rfl⟩, (length_le_length_frame .list _).trans_lt hlen⟩, rfl⟩

def imap {c : Codec α} (s : Streamed c) {f : α → β} {g : β → α} {hfg : ∀ b, f (g b) = b}
    {hgf : ∀ a, g (f a) = a} : Streamed (c.imap f g hfg hgf) where
  write b := s.write (g b)
  dec fuel := s.dec fuel >>= fun a ↦ pure (f a)
  writes b hb := s.writes (g b) hb
  sound fuel := by
    refine (sound_pure (s.sound fuel) f (fun _ ↦ rfl)).of_imp ?_
    rintro v b ⟨a, rfl, henc, rfl⟩
    refine ⟨?_, ?_⟩
    · simp only [Codec.imap, hgf]
      exact henc
    · simp only [Codec.imap, hgf]
  complete fuel := by
    refine (complete_pure (s.complete fuel) f (fun _ ↦ rfl)).of_imp ?_
    rintro v b ⟨⟨henc, rfl⟩, hlen⟩
    exact ⟨g v, hfg v, ⟨henc, rfl⟩, hlen⟩

def writeAll {c : Codec α} (s : Streamed c) : List α → Encbuf → Option Encbuf
  | [], w => some w
  | a :: l, w => (s.write a w).bind (writeAll s l)

theorem writes_writeAll {c : Codec α} (s : Streamed c) {l : List α}
    (hl : l.all c.encodable = true) : Writes (s.writeAll l) (l.flatMap c.encode) := by
  induction l with
  | nil => exact writes_nil
  | cons a l ih =>
    rw [List.all_cons, Bool.and_eq_true] at hl
    exact (s.writes a hl.1).bind (ih hl.2)

theorem elemsMean_iff {c : Codec α} {l : List α} {b : Bytes} :
    ElemsMean c.Means (fun _ ↦ false) false l b ↔
      l.all c.encodable = true ∧ b = l.flatMap c.encode := by
  induction l generalizing b with
  | nil => exact ⟨fun h ↦ ⟨rfl, h.2⟩, fun h ↦ ⟨rfl, h.2⟩⟩
  | cons a l ih =>
    rw [List.all_cons, Bool.and_eq_true, List.flatMap_cons]
    constructor
    · rintro ⟨x, rest, ⟨ha, rfl⟩, hview, hrest⟩
      obtain ⟨hl, rfl⟩ := ih.mp hrest
      exact ⟨⟨ha, hl⟩, hview⟩
    · rintro ⟨⟨ha, hl⟩, rfl⟩
      exact ⟨_, _, ⟨ha, rfl⟩, rfl, ih.mpr ⟨hl, rfl⟩⟩

theorem elemsMean_within {c : Codec α} {l : List α} {fuel : ℕ} (hl : l.all c.encodable = true)
    (hlen : (l.flatMap c.encode).length < fuel) :
    ElemsMean (c.MeansWithin fuel) (fun _ ↦ false) false l (l.flatMap c.encode) := by
  induction l with
  | nil => exact ⟨rfl, rfl⟩
  | cons a l ih =>
    rw [List.all_cons, Bool.and_eq_true] at hl
    rw [List.flatMap_cons, List.length_append] at hlen
    exact ⟨_, _, ⟨⟨hl.1, rfl⟩, by omega⟩, rfl, ih hl.2 (by omega)⟩

def listOf {c : Codec α} (s : Streamed c) : Streamed (Rlp.listOf c) where
  write l := Encbuf.inList (s.writeAll l)
  dec fuel := listSlice (s.dec fuel) fuel
  writes l hl := (s.writes_writeAll hl).inList
  sound fuel := by
    refine (sound_listSlice (s.sound fuel) fuel).of_imp ?_
    rintro l b ⟨content, hm, rfl⟩
    obtain ⟨hl, rfl⟩ := elemsMean_iff.mp hm
    exact ⟨hl, rfl⟩
  complete fuel := by
    refine (complete_listSlice (s.complete fuel) fuel).of_imp ?_
    rintro l b ⟨⟨hl, rfl⟩, hlen⟩
    have hcont := (length_le_length_frame .list (l.flatMap c.encode)).trans_lt hlen
    exact ⟨_, ⟨(length_le_length_flatMap c l).trans_lt hcont, elemsMean_within hl hcont⟩, rfl⟩

def text : Streamed Rlp.text where
  write b w := some (w.encodeString b)
  dec _ := Stream.bytes
  writes b _ := writes_encodeString b
  sound _ := sound_bytes.of_imp (fun _ _ h ↦ ⟨rfl, h⟩)
  complete _ := complete_bytes.of_imp (fun _ _ h ↦ h.1.2)

def bool : Streamed Rlp.bool where
  write b w := some (writeBool b w)
  dec _ := Stream.bool
  writes b _ := writes_writeBool b
  sound _ := sound_bool.of_imp (fun _ _ h ↦ ⟨rfl, h⟩)
  complete _ := complete_bool.of_imp (fun _ _ h ↦ h.1.2)

def uint : Streamed Rlp.uint where
  write x w := some (writeUint x.toNat w)
  dec _ := Stream.uint 64 >>= fun n ↦ pure (.ofNat n)
  writes x _ := writes_writeUint x.toNat_lt
  sound _ := by
    refine (sound_pure (sound_uint (by decide)) _ (fun _ ↦ rfl)).of_imp ?_
    rintro x b ⟨n, rfl, hn, rfl⟩
    refine ⟨rfl, ?_⟩
    show _ = frame .string (natBytes (UInt64.ofNat n).toNat)
    rw [UInt64.toNat_ofNat_of_lt' hn]
  complete _ := by
    refine (complete_pure (complete_uint 64) _ (fun _ ↦ rfl)).of_imp ?_
    rintro x b ⟨⟨-, rfl⟩, -⟩
    exact ⟨x.toNat, UInt64.ofNat_toNat, x.toNat_lt, rfl⟩

def bigInt : Streamed Rlp.bigInt where
  write x w := if x < 0 then none else some (writeBigInt x.toNat w)
  dec _ := Stream.bigInt >>= fun n ↦ pure (.ofNat n)
  writes x hx := by
    have hx : 0 ≤ x := of_decide_eq_true hx
    simp only [if_neg (not_lt.mpr hx)]
    exact writes_writeBigInt x.toNat
  sound _ := by
    refine (sound_pure sound_bigInt _ (fun _ ↦ rfl)).of_imp ?_
    rintro x b ⟨n, rfl, rfl⟩
    exact ⟨decide_eq_true (Int.natCast_nonneg n), rfl⟩
  complete _ := by
    refine (complete_pure complete_bigInt _ (fun _ ↦ rfl)).of_imp ?_
    rintro x b ⟨⟨hx, rfl⟩, -⟩
    exact ⟨x.toNat, Int.toNat_of_nonneg (of_decide_eq_true hx), rfl⟩

theorem isZeroByte_of_length {n : ℕ} (hn : n ≠ 1) {c : Bytes} (hc : c.length = n) :
    isZeroByte c = false := by
  apply beq_eq_false_iff_ne.mpr
  rintro rfl
  exact hn hc.symm

def array (n : ℕ) (hn : n ≠ 1) : Streamed (Rlp.array n) where
  write x w := some (w.encodeString (fixedBytes n x.toNat))
  dec _ := byteArray n >>= fun c ↦ pure (.ofNat (8 * n) (beValue c))
  writes x _ := writes_encodeString _
  sound _ := by
    have hs : Sound (byteArray n) (IsArray n) (fun _ ↦ false) := by
      refine ⟨?_, (sound_byteArray n).eol⟩
      intro s lvl v tail c s' hs hd
      obtain ⟨b, rest, hm, hv, hsee⟩ := (sound_byteArray n).ok hs hd
      rw [isZeroByte_of_length hn hm.1] at hsee
      exact ⟨b, rest, hm, hv, hsee⟩
    refine (sound_pure hs _ (fun _ ↦ rfl)).of_imp ?_
    rintro x b ⟨c, rfl, hc, rfl⟩
    have hlt : beValue c < 2 ^ (8 * n) := by
      rw [pow_mul, ← hc]
      exact beValue_lt c
    refine ⟨rfl, ?_⟩
    show _ = frame .string (fixedBytes n (BitVec.ofNat (8 * n) (beValue c)).toNat)
    rw [BitVec.toNat_ofNat, Nat.mod_eq_of_lt hlt, ← hc, fixedBytes_beValue]
  complete _ := by
    have hs : Complete (byteArray n) (IsArray n) (fun _ ↦ false) := by
      refine ⟨⟨?_⟩, (complete_byteArray n).eol⟩
      intro s lvl tail c b rest hs hm hlen
      obtain ⟨s', hd, hsee⟩ := (complete_byteArray n).ok hs hm hlen
      rw [isZeroByte_of_length hn hm.1] at hsee
      exact ⟨s', hd, hsee⟩
    refine (complete_pure hs _ (fun _ ↦ rfl)).of_imp ?_
    rintro x b ⟨⟨-, rfl⟩, -⟩
    have hlt : x.toNat < 256 ^ n := by
      have h := x.isLt
      rwa [pow_mul] at h
    refine ⟨fixedBytes n x.toNat, ?_, length_fixedBytes n _, rfl⟩
    rw [beValue_fixedBytes, Nat.mod_eq_of_lt hlt, BitVec.ofNat_toNat, BitVec.setWidth_eq]

variable {c : Codec α}

theorem returns_encode (s : Streamed c) {a : α} (ha : c.encodable a = true)
    (hlen : (c.encode a).length < 2 ^ 64) :
    Outcome.Returns (fun fuel ↦ decodeBytes (s.dec fuel) (c.encode a)) a :=
  ⟨(c.encode a).length + 1, fun _ hfuel ↦
    decodeBytes_of_means (s.complete _).toReads ⟨⟨ha, rfl⟩, hfuel⟩ hlen⟩

theorem means_of_returns (s : Streamed c) {a : α} {b : Bytes}
    (h : Outcome.Returns (fun fuel ↦ decodeBytes (s.dec fuel) b) a) : c.Means a b := by
  obtain ⟨n, hn⟩ := h
  exact means_of_decodeBytes (s.sound n) (hn n le_rfl)

end Streamed

theorem addressLength_ne_one : 20 ≠ 1 := by decide

/-- An array of 20 bytes, the length of an address. -/
def addressStream : Streamed (array 20) := .array 20 addressLength_ne_one

end BjutEth.Rlp
