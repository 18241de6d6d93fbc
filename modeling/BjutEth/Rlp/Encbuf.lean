import BjutEth.Rlp.Frame

namespace BjutEth.Rlp

open List

/-- `listhead`: where a list header belongs in the string data and the size it announces. While
the list is open the size is that of the headers before it. -/
structure Listhead where
  offset : ℕ
  size : ℕ

/-- `encbuf`: the string data of a value without its list headers, and the headers. -/
structure Encbuf where
  str : Bytes := []
  lheads : List Listhead := []
  lhsize : ℕ := 0

namespace Encbuf

def size (w : Encbuf) : ℕ := w.str.length + w.lhsize

def write (b : Bytes) (w : Encbuf) : Encbuf := { w with str := w.str ++ b }

def encodeStringHeader (size : ℕ) : Encbuf → Encbuf := write (puthead .string size)

def encodeString (b : Bytes) (w : Encbuf) : Encbuf :=
  if b.length = 1 ∧ b.headD 0 ≤ 0x7F then w.write b
  else (w.encodeStringHeader b.length).write b

def list (w : Encbuf) : Encbuf := { w with lheads := w.lheads ++ [⟨w.str.length, w.lhsize⟩] }

def listEnd (i : ℕ) (w : Encbuf) : Encbuf :=
  match w.lheads[i]? with
  | none => w
  | some lh =>
    let size := w.size - lh.offset - lh.size
    { w with
      lheads := w.lheads.set i ⟨lh.offset, size⟩
      lhsize := if size < 56 then w.lhsize + 1 else w.lhsize + (1 + byteLen size) }

/-- The loop of `toBytes`: string data up to each header, the header, and the data after the
last one. -/
def render (str : Bytes) : ℕ → List Listhead → Bytes
  | strpos, [] => str.drop strpos
  | strpos, head :: lheads =>
    (str.drop strpos).take (head.offset - strpos) ++ puthead .list head.size ++
      render str head.offset lheads

def toBytes (w : Encbuf) : Bytes := render w.str 0 w.lheads

def inList (content : Encbuf → Option Encbuf) (w : Encbuf) : Option Encbuf :=
  (content w.list).map (listEnd w.lheads.length)

def writeUint (i : ℕ) : Encbuf → Encbuf :=
  if i = 0 then write [0x80]
  else if i < 128 then write [.ofNat i]
  else write (.ofNat (0x80 + byteLen i) :: natBytes i)

def writeBool (b : Bool) : Encbuf → Encbuf := if b then write [0x01] else write [0x80]

def writeBigInt (i : ℕ) : Encbuf → Encbuf :=
  if i = 0 then write [0x80] else encodeString (natBytes i)

/-! What a writer adds to a buffer is a buffer of its own. -/

def shift (n : ℕ) (lh : Listhead) : Listhead := ⟨n + lh.offset, lh.size⟩

def append (w p : Encbuf) : Encbuf where
  str := w.str ++ p.str
  lheads := w.lheads ++ p.lheads.map (shift w.str.length)
  lhsize := w.lhsize + p.lhsize

/-- The headers stand in the order of their places, from `strpos` to the end of `n` bytes. -/
def Ordered (n : ℕ) : ℕ → List Listhead → Prop
  | strpos, [] => strpos ≤ n
  | strpos, head :: lheads => strpos ≤ head.offset ∧ Ordered n head.offset lheads

def headsize (size : ℕ) : ℕ := if size < 56 then 1 else 1 + byteLen size

theorem length_puthead (kind : Kind) (size : ℕ) : (puthead kind size).length = headsize size := by
  unfold puthead headsize
  split
  · rfl
  · rw [length_cons, length_natBytes, Nat.add_comm]

structure Good (p : Encbuf) : Prop where
  ordered : Ordered p.str.length 0 p.lheads
  lhsize_eq : p.lhsize = (p.lheads.map (fun lh ↦ headsize lh.size)).sum

variable {n strpos : ℕ} {lheads : List Listhead} {a b : Bytes} {f : Encbuf → Option Encbuf}

theorem Ordered.le (h : Ordered n strpos lheads) : strpos ≤ n := by
  induction lheads generalizing strpos with
  | nil => exact h
  | cons head lheads ih => exact h.1.trans (ih h.2)

theorem length_render {str : Bytes} (h : Ordered str.length strpos lheads) :
    (render str strpos lheads).length =
      str.length - strpos + (lheads.map (fun lh ↦ headsize lh.size)).sum := by
  induction lheads generalizing strpos with
  | nil => simp [render]
  | cons head lheads ih =>
    obtain ⟨hle, hrest⟩ := h
    simp only [render, length_append, length_take, length_drop, length_puthead,
      ih hrest, map_cons, sum_cons]
    omega

theorem Good.length_toBytes {p : Encbuf} (h : p.Good) : p.toBytes.length = p.size := by
  rw [toBytes, length_render h.ordered, size, h.lhsize_eq, Nat.sub_zero]

theorem render_shift (a b : Bytes) (strpos : ℕ) (lheads : List Listhead) :
    render (a ++ b) (a.length + strpos) (lheads.map (shift a.length)) = render b strpos lheads := by
  have hdrop : ∀ n, (a ++ b).drop (a.length + n) = b.drop n := drop_length_add_append
  induction lheads generalizing strpos with
  | nil => exact hdrop strpos
  | cons head lheads ih =>
    simp only [map_cons, render, shift, hdrop, Nat.add_sub_add_left]
    rw [← ih head.offset]

theorem render_append_shift (h : strpos ≤ a.length) (b : Bytes) (lheads : List Listhead) :
    render (a ++ b) strpos (lheads.map (shift a.length)) =
      a.drop strpos ++ render b 0 lheads := by
  cases lheads with
  | nil =>
    rw [map_nil, render, render, drop_zero, drop_append_of_le_length h]
  | cons head lheads =>
    have htake : (a.drop strpos ++ b).take (a.length + head.offset - strpos) =
        a.drop strpos ++ b.take head.offset := by
      rw [take_append, length_drop, take_of_length_le (by rw [length_drop]; omega)]
      congr 2
      omega
    simp only [map_cons, render, shift]
    rw [drop_append_of_le_length h, htake, ← render_shift a b head.offset lheads,
      drop_zero, Nat.sub_zero, List.append_assoc, List.append_assoc, List.append_assoc]

theorem render_append (h : Ordered a.length strpos lheads) (b : Bytes) (lheads' : List Listhead) :
    render (a ++ b) strpos (lheads ++ lheads'.map (shift a.length)) =
      render a strpos lheads ++ render b 0 lheads' := by
  induction lheads generalizing strpos with
  | nil => exact render_append_shift h b lheads'
  | cons head lheads ih =>
    obtain ⟨hle, hrest⟩ := h
    have hlast := hrest.le
    have htake : ((a ++ b).drop strpos).take (head.offset - strpos) =
        (a.drop strpos).take (head.offset - strpos) := by
      rw [drop_append_of_le_length (by omega),
        take_append_of_le_length (by rw [length_drop]; omega)]
    simp only [cons_append, render, ih hrest, htake, List.append_assoc]

theorem toBytes_append {w : Encbuf} (hw : w.Good) (p : Encbuf) :
    (w.append p).toBytes = w.toBytes ++ p.toBytes :=
  render_append hw.ordered p.str p.lheads

theorem ordered_shift {a : ℕ} (h : Ordered n strpos lheads) :
    Ordered (a + n) (a + strpos) (lheads.map (shift a)) := by
  induction lheads generalizing strpos with
  | nil => exact Nat.add_le_add_left h a
  | cons head lheads ih => exact ⟨Nat.add_le_add_left h.1 a, ih h.2⟩

theorem ordered_append {a : ℕ} {lheads' : List Listhead} (h : Ordered a strpos lheads)
    (h' : Ordered n 0 lheads') : Ordered (a + n) strpos (lheads ++ lheads'.map (shift a)) := by
  induction lheads generalizing strpos with
  | nil =>
    have hle : strpos ≤ a := h
    cases lheads' with
    | nil => exact hle.trans (Nat.le_add_right _ _)
    | cons head lheads' => exact ⟨hle.trans (Nat.le_add_right _ _), ordered_shift h'.2⟩
  | cons head lheads ih => exact ⟨h.1, ih h.2⟩

theorem Good.append {w p : Encbuf} (hw : w.Good) (hp : p.Good) : (w.append p).Good where
  ordered := by
    show Ordered (w.str ++ p.str).length 0 _
    rw [length_append]
    exact ordered_append hw.ordered hp.ordered
  lhsize_eq := by
    simp only [Encbuf.append, hw.lhsize_eq, hp.lhsize_eq, map_append, map_map, sum_append]
    rfl

theorem append_assoc (w p q : Encbuf) : (w.append p).append q = w.append (p.append q) := by
  simp only [append, List.append_assoc, map_append, map_map, length_append, Nat.add_assoc]
  congr 3
  apply map_congr_left
  intro lh _
  simp only [Function.comp, shift, Nat.add_assoc]

def Writes (f : Encbuf → Option Encbuf) (b : Bytes) : Prop :=
  ∃ p : Encbuf, p.Good ∧ p.toBytes = b ∧ ∀ w, f w = some (w.append p)

theorem good_write (b : Bytes) : Good { str := b } := ⟨Nat.zero_le _, rfl⟩

theorem append_write (b : Bytes) (w : Encbuf) : w.append { str := b } = w.write b := by
  simp only [append, write, map_nil, append_nil, Nat.add_zero]

theorem writes_write (b : Bytes) : Writes (fun w ↦ some (w.write b)) b :=
  ⟨{ str := b }, good_write b, rfl, fun w ↦ by rw [append_write]⟩

theorem writes_nil : Writes some [] := by
  refine ⟨{}, good_write [], rfl, fun w ↦ ?_⟩
  rw [append_write, write, append_nil]

theorem Writes.bind {g : Encbuf → Option Encbuf} (hf : Writes f a) (hg : Writes g b) :
    Writes (fun w ↦ (f w).bind g) (a ++ b) := by
  obtain ⟨p, hp, rfl, hf⟩ := hf
  obtain ⟨q, hq, rfl, hg⟩ := hg
  refine ⟨p.append q, hp.append hq, toBytes_append hp q, ?_⟩
  intro w
  beta_reduce
  rw [hf, Option.bind_some, hg, append_assoc]

/-- Between `list` and `listEnd` the header takes the size of what is written. -/
theorem Writes.inList {content : Encbuf → Option Encbuf} (h : Writes content b) :
    Writes (inList content) (frame .list b) := by
  obtain ⟨p, hp, rfl, hf⟩ := h
  have hsize : ∀ w : Encbuf,
      (w.list.append p).size - w.str.length - w.lhsize = p.toBytes.length := by
    intro w
    rw [hp.length_toBytes]
    simp only [size, append, list, length_append]
    omega
  refine ⟨⟨p.str, ⟨0, p.toBytes.length⟩ :: p.lheads, p.lhsize + headsize p.toBytes.length⟩,
    ⟨⟨le_rfl, hp.ordered⟩, ?_⟩, ?_, ?_⟩
  · simp only [map_cons, sum_cons, hp.lhsize_eq, Nat.add_comm]
  · rw [frame, if_neg (by simp [isSingleByte])]
    rfl
  intro w
  have hget : (w.list.append p).lheads[w.lheads.length]? = some ⟨w.str.length, w.lhsize⟩ := by
    simp [append, list]
  rw [Encbuf.inList, hf, Option.map_some, listEnd, hget]
  simp only [hsize]
  congr 1
  simp only [append, list, map_cons, shift, Nat.add_zero, mk.injEq, true_and]
  constructor
  · rw [List.append_assoc, set_append_right _ _ le_rfl, Nat.sub_self]
    rfl
  · unfold headsize
    split <;> rw [Nat.add_assoc]

theorem writes_encodeString (b : Bytes) :
    Writes (fun w ↦ some (w.encodeString b)) (frame .string b) := by
  have hcond : (b.length = 1 ∧ b.headD 0 ≤ 0x7F) ↔ isSingleByte .string b = true := by
    cases b with
    | nil => simp [isSingleByte]
    | cons c l =>
      cases l with
      | nil =>
        simp only [length_singleton, true_and, isSingleByte, decide_eq_true_eq]
        exact Nat.lt_succ_iff.symm
      | cons d l => simp [isSingleByte]
  by_cases h : isSingleByte .string b = true
  · have heq : (fun w : Encbuf ↦ some (w.encodeString b)) = fun w ↦ some (w.write b) := by
      funext w
      rw [encodeString, if_pos (hcond.mpr h)]
    rw [heq, frame, if_pos h]
    exact writes_write b
  have heq : (fun w : Encbuf ↦ some (w.encodeString b)) =
      fun w ↦ (some (w.write (puthead .string b.length))).bind fun w ↦ some (w.write b) := by
    funext w
    rw [encodeString, if_neg (fun hc ↦ h (hcond.mp hc))]
    rfl
  rw [heq, frame, if_neg h]
  exact (writes_write _).bind (writes_write b)

theorem writes_writeUint {i : ℕ} (hi : i < 2 ^ 64) :
    Writes (fun w ↦ some (writeUint i w)) (frame .string (natBytes i)) := by
  have hlen : byteLen i ≤ 8 := (byteLen_le_iff i 8).mpr hi
  by_cases h0 : i = 0
  · subst h0
    exact writes_write [0x80]
  by_cases h128 : i < 128
  · have hbytes : natBytes i = [.ofNat i] := by
      have h1 : byteLen i = 1 := by
        have hle : byteLen i ≤ 1 := (byteLen_le_iff i 1).mpr (by omega)
        have hpos : byteLen i ≠ 0 := by
          intro hz
          have := (byteLen_le_iff i 0).mp hz.le
          omega
        omega
      rw [natBytes, h1]
      rfl
    have hsgl : isSingleByte .string [UInt8.ofNat i] = true := by
      simp only [isSingleByte, decide_eq_true_eq]
      show i % 256 < 128
      omega
    rw [hbytes, frame, if_pos hsgl]
    simp only [writeUint, if_neg h0, if_pos h128]
    exact writes_write _
  have hnot : isSingleByte .string (natBytes i) = false := by
    cases hb : natBytes i with
    | nil => rfl
    | cons c l =>
      cases l with
      | nil =>
        have hval := beValue_natBytes i
        rw [hb] at hval
        simp only [beValue, foldl_cons, foldl_nil, Nat.zero_mul, Nat.zero_add] at hval
        simp only [isSingleByte, decide_eq_false_iff_not, UInt8.lt_iff_toNat_lt]
        rw [hval]
        exact h128
      | cons d l => rfl
  rw [frame, hnot]
  simp only [Bool.false_eq_true, if_false, writeUint, if_neg h0, if_neg h128, puthead,
    length_natBytes]
  rw [if_pos (by omega)]
  exact writes_write _

theorem writes_writeBool (b : Bool) :
    Writes (fun w ↦ some (writeBool b w)) (frame .string (if b then [1] else [])) := by
  cases b with
  | false => exact writes_write [0x80]
  | true => exact writes_write [0x01]

theorem writes_writeBigInt (i : ℕ) :
    Writes (fun w ↦ some (writeBigInt i w)) (frame .string (natBytes i)) := by
  by_cases h0 : i = 0
  · subst h0
    exact writes_write [0x80]
  · simp only [writeBigInt, if_neg h0]
    exact writes_encodeString _

def encodeToBytes (writer : Encbuf → Option Encbuf) : Option Bytes := (writer {}).map toBytes

theorem Writes.encodeToBytes (h : Writes f b) : encodeToBytes f = some b := by
  obtain ⟨p, hp, rfl, hf⟩ := h
  rw [Encbuf.encodeToBytes, hf, Option.map_some, toBytes_append (good_write [])]
  rfl

end Encbuf

end BjutEth.Rlp
