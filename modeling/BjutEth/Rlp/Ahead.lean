import BjutEth.Rlp.Stream

namespace BjutEth.Rlp

open Stream
open Stream (freshKind kindAhead takeLimit)
open List hiding modify not_lt

variable {s' : Stream} {n : ℕ} {b : UInt8} {kind : StreamKind}

namespace Stream

variable {α β : Type} {f : α → Dec β} {x : Dec α}

theorem bind_ok {s : Stream} {a : α} (h : x s = .ok a s') :
    (x >>= f) s = f a s' := by
  change EStateM.bind x f s = _
  simp only [EStateM.bind, h]

theorem bind_error (f : α → Dec β) {s : Stream} {e : DecodeError} (h : x s = .error e s') :
    (x >>= f) s = .error e s' := by
  change EStateM.bind x f s = _
  simp only [EStateM.bind, h]

theorem ok_of_bind {s : Stream} {b : β} (h : (x >>= f) s = .ok b s') :
    ∃ a t, x s = .ok a t ∧ f a t = .ok b s' := by
  cases hx : x s with
  | error e t =>
    rw [bind_error f hx] at h
    cases h
  | ok a t => exact ⟨a, t, rfl, (bind_ok hx).symm.trans h⟩

theorem error_of_bind {s : Stream} {e : DecodeError} (h : (x >>= f) s = .error e s') :
    x s = .error e s' ∨ ∃ a t, x s = .ok a t ∧ f a t = .error e s' := by
  cases hx : x s with
  | error e' t =>
    cases (bind_error f hx).symm.trans h
    exact .inl rfl
  | ok a t => exact .inr ⟨a, t, rfl, (bind_ok hx).symm.trans h⟩

theorem modify_bind (g : Stream → Stream) (f : Unit → Dec β) (s : Stream) :
    (modify g >>= f) s = f () (g s) := rfl

end Stream

/-- Where a value stands: outside of lists, or in a list of some size whose enclosing lists
are on the stack. -/
inductive Level
  | top
  | inside (size : ℕ) (outer : List ListPos)

def Level.stack : Level → ℕ → List ListPos
  | .top, _ => []
  | .inside size outer, n => ⟨size - n, size⟩ :: outer

/-- The stream has read up to the bytes `c`, which are all that is left of the innermost list
(outside of lists: of the input). -/
structure Placed (s : Stream) (lvl : Level) (c tail : Bytes) : Prop where
  input : s.input = c ++ tail
  remaining : s.remaining = s.input.length
  stack : s.stack = lvl.stack c.length
  bound : ∀ size outer, lvl = .inside size outer → c.length ≤ size
  top : lvl = .top → tail = []

structure Armed (s : Stream) (lvl : Level) (c tail : Bytes) : Prop extends Placed s lvl c tail where
  kind : s.kind = none

structure Peeked (s : Stream) (kind : StreamKind) (size : ℕ) (byteval : UInt8) (lvl : Level)
    (c tail : Bytes) : Prop extends Placed s lvl c tail where
  kind : s.kind = some kind
  size : s.size = size
  byteval : s.byteval = byteval
  kinderr : s.kinderr = none

namespace Placed

variable {s : Stream} {lvl : Level} {c tail : Bytes}

variable (h : Placed s lvl c tail)

include h

theorem willRead_of_le (hn : n ≤ c.length) :
    s.willRead n = .ok () { s with
      kind := none, remaining := s.remaining - n, stack := lvl.stack (c.length - n) } := by
  have hrem : ¬ s.remaining < n := by
    rw [h.remaining, h.input, length_append]
    omega
  unfold Stream.willRead
  cases lvl with
  | top =>
    have hstk : s.stack = [] := h.stack
    rw [hstk]
    simp only [takeLimit, if_neg hrem]
    rw [Level.stack]
  | inside size outer =>
    have hstk : s.stack = ⟨size - c.length, size⟩ :: outer := h.stack
    have hle := h.bound size outer rfl
    have hroom : ¬ size - (size - c.length) < n := by omega
    have hpos : size - c.length + n = size - (c.length - n) := by omega
    rw [hstk]
    simp only [if_neg hroom, takeLimit, if_neg hrem, hpos]
    rfl

theorem willRead_of_lt (hn : c.length < n) :
    ∃ e s', s.willRead n = .error e s' ∧ e ≠ .eol := by
  unfold Stream.willRead
  cases lvl with
  | top =>
    have hstk : s.stack = [] := h.stack
    have hrem : s.remaining < n := by
      rw [h.remaining, h.input, h.top rfl, append_nil]
      exact hn
    rw [hstk]
    simp only [takeLimit, if_pos hrem]
    exact ⟨_, _, rfl, by decide⟩
  | inside size outer =>
    have hstk : s.stack = ⟨size - c.length, size⟩ :: outer := h.stack
    have hroom : size - (size - c.length) < n := by omega
    rw [hstk]
    simp only [if_pos hroom]
    exact ⟨_, _, rfl, by decide⟩

def after (s : Stream) (lvl : Level) (c : Bytes) (n : ℕ) : Stream :=
  { s with
    kind := none, remaining := s.remaining - n, stack := lvl.stack (c.length - n),
    input := s.input.drop n }

theorem armed_after (hn : n ≤ c.length) :
    Armed (after s lvl c n) lvl (c.drop n) tail where
  input := by
    change s.input.drop n = _
    rw [h.input, drop_append_of_le_length hn]
  remaining := by
    change s.remaining - n = (s.input.drop n).length
    rw [h.remaining, length_drop]
  stack := by
    change lvl.stack (c.length - n) = _
    rw [length_drop]
  bound size outer hlvl := by
    have := h.bound size outer hlvl
    rw [length_drop]
    omega
  top := h.top
  kind := rfl

theorem readFull_of_le (hn : n ≤ c.length) :
    s.readFull n = .ok (c.take n) (after s lvl c n) := by
  have hlen : ¬ s.input.length < n := by
    rw [h.input, length_append]
    omega
  have htake : s.input.take n = c.take n := by
    rw [h.input, take_append_of_le_length hn]
  rw [Stream.readFull, bind_ok (h.willRead_of_le hn)]
  simp only [Stream.take, if_neg hlen, htake]
  rfl

theorem readFull_of_lt (hn : c.length < n) :
    ∃ e s', s.readFull n = .error e s' ∧ e ≠ .eol := by
  obtain ⟨e, s', hw, he⟩ := h.willRead_of_lt hn
  exact ⟨e, s', bind_error _ hw, he⟩

omit h in
theorem readByte_cons (h : Placed s lvl (b :: c) tail) : s.readByte = .ok b (after s lvl (b :: c) 1) := by
  rw [Stream.readByte, bind_ok (h.readFull_of_le (Nat.le_add_left 1 c.length))]
  rfl

theorem readUint_of_le (hpos : 0 < n) (hn : n ≤ c.length)
    (hmin : isMinimal (c.take n) = true) : s.readUint n = .ok (beValue (c.take n)) (after s lvl c n) := by
  unfold Stream.readUint
  rw [if_neg hpos.ne']
  by_cases h1 : n = 1
  · subst h1
    obtain ⟨b, c, rfl⟩ := exists_cons_of_length_pos hn
    rw [if_pos rfl, bind_ok h.readByte_cons]
    simp only [take_succ_cons, beValue, foldl_cons, Nat.zero_mul, Nat.zero_add]
    rfl
  have hhead : ¬ (c.take n).headD 0 = 0 := by
    obtain ⟨b, c, rfl⟩ := exists_cons_of_length_pos (hpos.trans_le hn)
    obtain ⟨n, rfl⟩ := Nat.exists_eq_succ_of_ne_zero hpos.ne'
    simpa [isMinimal] using hmin
  rw [if_neg h1, bind_ok (h.readFull_of_le hn), if_neg hhead]
  rfl

theorem readUint_of_lt (hn : c.length < n) :
    ∃ e s', s.readUint n = .error e s' ∧ e ≠ .eol := by
  obtain ⟨e, s', hr, he⟩ := h.readFull_of_lt hn
  refine ⟨e, s', ?_, he⟩
  unfold Stream.readUint
  rw [if_neg (by omega)]
  by_cases h1 : n = 1
  · subst h1
    exact bind_error _ (bind_error _ hr)
  · rw [if_neg h1]
    exact bind_error _ hr

theorem readUint_of_zero (hpos : 0 < n) (hn : n ≤ c.length)
    (hmin : isMinimal (c.take n) = false) :
    s.readUint n = .ok 0 (after s lvl c n) ∧ n = 1 ∨
      s.readUint n = .error .canonSize (after s lvl c n) := by
  have hhead : (c.take n).headD 0 = 0 := by
    obtain ⟨b, c, rfl⟩ := exists_cons_of_length_pos (hpos.trans_le hn)
    obtain ⟨n, rfl⟩ := Nat.exists_eq_succ_of_ne_zero hpos.ne'
    simpa [isMinimal] using hmin
  unfold Stream.readUint
  rw [if_neg hpos.ne']
  by_cases h1 : n = 1
  · subst h1
    obtain ⟨b, c, rfl⟩ := exists_cons_of_length_pos hn
    obtain rfl : b = 0 := hhead
    rw [if_pos rfl, bind_ok h.readByte_cons]
    exact .inl ⟨rfl, rfl⟩
  · rw [if_neg h1, bind_ok (h.readFull_of_le hn), if_pos hhead]
    exact .inr rfl

end Placed

/-- A header: the kind and size of the value, the byte if it stands in the tag, and what
follows the header. -/
structure Header where
  kind : StreamKind
  size : ℕ
  byteval : UInt8
  rest : Bytes

def longHeader (kind : StreamKind) (n : ℕ) (s : Bytes) : Option Header :=
  if n ≤ s.length ∧ isMinimal (s.take n) = true ∧ 56 ≤ beValue (s.take n) then
    some ⟨kind, beValue (s.take n), 0, s.drop n⟩
  else none

def headerOf : Bytes → Option Header
  | [] => none
  | b :: s =>
    if b < 0x80 then some ⟨.byte, 0, b, s⟩
    else if b < 0xB8 then some ⟨.string, b.toNat - 0x80, 0, s⟩
    else if b < 0xC0 then longHeader .string (b.toNat - 0xB7) s
    else if b < 0xF8 then some ⟨.list, b.toNat - 0xC0, 0, s⟩
    else longHeader .list (b.toNat - 0xF7) s

namespace Placed

variable {s : Stream} {lvl : Level} {c tail : Bytes} {hd : Header}

section

variable (h : Placed s lvl c tail)

include h

theorem readSize_of_some (hpos : 0 < n) (hhd : longHeader kind n c = some hd) :
    s.readSize kind n = .ok (hd.kind, hd.size) (after s lvl c n) ∧ n ≤ c.length ∧
      hd.rest = c.drop n ∧ hd.byteval = 0 := by
  unfold longHeader at hhd
  split at hhd
  · next hc =>
    cases hhd
    refine ⟨?_, hc.1, rfl, rfl⟩
    rw [Stream.readSize, bind_ok (h.readUint_of_le hpos hc.1 hc.2.1), if_neg (not_lt.mpr hc.2.2)]
    rfl
  · cases hhd

theorem readSize_of_none (hpos : 0 < n) (hhd : longHeader kind n c = none) :
    ∃ e s', s.readSize kind n = .error e s' ∧ e ≠ .eol := by
  unfold longHeader at hhd
  split at hhd
  · cases hhd
  next hc =>
  rw [Stream.readSize]
  rcases lt_or_ge c.length n with hlt | hle
  · obtain ⟨e, s', hr, he⟩ := h.readUint_of_lt hlt
    exact ⟨e, s', bind_error _ hr, he⟩
  cases hmin : isMinimal (c.take n) with
  | false =>
    rcases h.readUint_of_zero hpos hle hmin with ⟨hr, -⟩ | hr
    · rw [bind_ok hr]
      exact ⟨_, _, rfl, by decide⟩
    · exact ⟨_, _, bind_error _ hr, by decide⟩
  | true =>
    have hsize : beValue (c.take n) < 56 := by
      by_contra hge
      exact hc ⟨hle, hmin, not_lt.mp hge⟩
    rw [bind_ok (h.readUint_of_le hpos hle hmin), if_pos hsize]
    exact ⟨_, _, rfl, by decide⟩

theorem congr (hin : s'.input = s.input) (hrem : s'.remaining = s.remaining)
    (hstk : s'.stack = s.stack) :
    Placed s' lvl c tail where
  input := hin.trans h.input
  remaining := by rw [hrem, hin, h.remaining]
  stack := hstk.trans h.stack
  bound := h.bound
  top := h.top

theorem ofTag_of_some (hhd : headerOf (b :: c) = some hd) :
    ∃ s', s.ofTag b = .ok (hd.kind, hd.size) s' ∧ Placed s' lvl hd.rest tail ∧
      s'.byteval = hd.byteval := by
  have h0 : Placed { s with byteval := 0 } lvl c tail := h.congr rfl rfl rfl
  have hlong : ∀ {kind n}, 0 < n → longHeader kind n c = some hd →
      ∃ s', Stream.readSize kind n { s with byteval := 0 } = .ok (hd.kind, hd.size) s' ∧
        Placed s' lvl hd.rest tail ∧ s'.byteval = hd.byteval := by
    intro kind n hpos hl
    obtain ⟨hr, hn, hrest, hbv⟩ := h0.readSize_of_some hpos hl
    refine ⟨_, hr, ?_, hbv.symm⟩
    rw [hrest]
    exact (h0.armed_after hn).toPlaced
  unfold Stream.ofTag
  rw [modify_bind]
  simp only [headerOf, UInt8.lt_iff_toNat_lt, UInt8.reduceToNat] at hhd ⊢
  split at hhd
  · next hlt =>
    cases hhd
    rw [if_pos hlt]
    exact ⟨_, rfl, h.congr rfl rfl rfl, rfl⟩
  next h1 =>
  rw [if_neg h1]
  split at hhd
  · next hlt =>
    cases hhd
    rw [if_pos hlt]
    exact ⟨_, rfl, h0, rfl⟩
  next h2 =>
  rw [if_neg h2]
  split at hhd
  · next hlt =>
    rw [if_pos hlt]
    exact hlong (by omega) hhd
  next h3 =>
  rw [if_neg h3]
  split at hhd
  · next hlt =>
    cases hhd
    rw [if_pos hlt]
    exact ⟨_, rfl, h0, rfl⟩
  next h4 =>
  rw [if_neg h4]
  exact hlong (by omega) hhd

theorem ofTag_of_none (hhd : headerOf (b :: c) = none) :
    ∃ e s', s.ofTag b = .error e s' ∧ e ≠ .eol := by
  have h0 : Placed { s with byteval := 0 } lvl c tail := h.congr rfl rfl rfl
  unfold Stream.ofTag
  rw [modify_bind]
  simp only [headerOf, UInt8.lt_iff_toNat_lt, UInt8.reduceToNat] at hhd ⊢
  split at hhd
  · cases hhd
  next h1 =>
  rw [if_neg h1]
  split at hhd
  · cases hhd
  next h2 =>
  rw [if_neg h2]
  split at hhd
  · next hlt =>
    rw [if_pos hlt]
    exact h0.readSize_of_none (by omega) hhd
  next h3 =>
  rw [if_neg h3]
  split at hhd
  · cases hhd
  next h4 =>
  rw [if_neg h4]
  exact h0.readSize_of_none (by omega) hhd

theorem fits_of_le (hn : n ≤ c.length) : s.fits n = none := by
  unfold Stream.fits
  cases lvl with
  | top =>
    have hstk : s.stack = [] := h.stack
    rw [hstk]
    rw [if_neg]
    rw [h.remaining, h.input, length_append]
    omega
  | inside size outer =>
    have hstk : s.stack = ⟨size - c.length, size⟩ :: outer := h.stack
    have hle := h.bound size outer rfl
    rw [hstk]
    simp only
    rw [if_neg (by omega)]

theorem fits_of_lt (hn : c.length < n) : ∃ e, s.fits n = some e ∧ e ≠ .eol := by
  unfold Stream.fits
  cases lvl with
  | top =>
    have hstk : s.stack = [] := h.stack
    rw [hstk]
    rw [if_pos]
    · exact ⟨_, rfl, by decide⟩
    rw [h.remaining, h.input, h.top rfl, append_nil]
    exact hn
  | inside size outer =>
    have hstk : s.stack = ⟨size - c.length, size⟩ :: outer := h.stack
    rw [hstk]
    simp only
    rw [if_pos (by omega)]
    exact ⟨_, rfl, by decide⟩

end

theorem readKind_cons (h : Placed s lvl (b :: c) tail) : s.readKind = (after s lvl (b :: c) 1).ofTag b := by
  simp only [Stream.readKind, h.readByte_cons]

theorem readKind_nil (h : Placed s lvl [] tail) : ∃ e s', s.readKind = .error e s' ∧ e ≠ .eol := by
  obtain ⟨e, s', hr, he⟩ := h.readFull_of_lt Nat.zero_lt_one
  have hb : s.readByte = .error e s' := bind_error _ hr
  simp only [Stream.readKind, hb]
  split
  · exact ⟨_, _, rfl, by decide⟩
  · exact ⟨_, _, rfl, he⟩

theorem freshKind_of_some (h : Placed s lvl c tail) (hhd : headerOf c = some hd)
    (hsize : hd.size ≤ hd.rest.length) :
    ∃ s', s.freshKind = .ok (hd.kind, hd.size) s' ∧
      Peeked s' hd.kind hd.size hd.byteval lvl hd.rest tail := by
  cases c with
  | nil => cases hhd
  | cons b c =>
    have h1 : Placed (after s lvl (b :: c) 1) lvl c tail :=
      (h.armed_after (Nat.le_add_left 1 c.length)).toPlaced
    obtain ⟨s', hr, hp, hbv⟩ := h1.ofTag_of_some hhd
    simp only [freshKind, h.readKind_cons, hr, hp.fits_of_le hsize]
    exact ⟨_, rfl,
      { toPlaced := hp.congr rfl rfl rfl
        kind := rfl
        size := rfl
        byteval := hbv
        kinderr := rfl }⟩

theorem freshKind_of_none (h : Placed s lvl c tail)
    (hhd : ∀ hd, headerOf c = some hd → hd.rest.length < hd.size) :
    ∃ e s', s.freshKind = .error e s' ∧ e ≠ .eol := by
  cases c with
  | nil =>
    obtain ⟨e, s', hr, he⟩ := h.readKind_nil
    simp only [freshKind, hr]
    exact ⟨_, _, rfl, he⟩
  | cons b c =>
    have h1 : Placed (after s lvl (b :: c) 1) lvl c tail :=
      (h.armed_after (Nat.le_add_left 1 c.length)).toPlaced
    cases hc : headerOf (b :: c) with
    | none =>
      obtain ⟨e, s', hr, he⟩ := h1.ofTag_of_none hc
      simp only [freshKind, h.readKind_cons, hr]
      exact ⟨_, _, rfl, he⟩
    | some hd =>
      obtain ⟨s', hr, hp, -⟩ := h1.ofTag_of_some hc
      obtain ⟨e, hf, he⟩ := hp.fits_of_lt (hhd hd hc)
      simp only [freshKind, h.readKind_cons, hr, hf]
      exact ⟨_, _, rfl, he⟩

end Placed

theorem Peeked.kindAhead_eq {s : Stream} {size : ℕ} {lvl : Level} {c tail : Bytes}
    (h : Peeked s kind size b lvl c tail) : s.kindAhead = .ok (kind, size) s := by
  simp only [kindAhead, h.kind, h.kinderr, h.size]

namespace Armed

variable {s : Stream} {lvl : Level} {c tail : Bytes}

theorem kindAhead_eq (h : Armed s lvl c tail) (hc : c ≠ [] ∨ lvl = .top) :
    s.kindAhead = s.freshKind := by
  cases lvl with
  | top =>
    have hstk : s.stack = [] := h.stack
    simp only [kindAhead, h.kind, hstk]
  | inside size outer =>
    have hstk : s.stack = ⟨size - c.length, size⟩ :: outer := h.stack
    have hle := h.bound size outer rfl
    have hne : 0 < c.length := by
      rcases hc with hc | hc
      · exact length_pos_iff.mpr hc
      · cases hc
    simp only [kindAhead, h.kind, hstk]
    rw [if_neg (by omega)]

theorem kindAhead_end {size : ℕ} {outer : List ListPos} (h : Armed s (.inside size outer) [] tail) :
    ∃ s', s.kindAhead = .error .eol s' ∧ Armed s' (.inside size outer) [] tail := by
  have hstk : s.stack = ⟨size, size⟩ :: outer := h.stack
  simp only [kindAhead, h.kind, hstk]
  exact ⟨_, rfl, { toPlaced := h.toPlaced.congr rfl rfl hstk.symm, kind := rfl }⟩

end Armed

end BjutEth.Rlp
