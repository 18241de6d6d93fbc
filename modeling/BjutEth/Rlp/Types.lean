import BjutEth.Lib.Outcome
import BjutEth.Rlp.Encbuf
import BjutEth.Rlp.Nested

/-! Reflected Go types: unsigned integers, booleans, big integers, strings, byte slices and byte
arrays, slices, structs and pointers. -/

namespace BjutEth.Rlp

open Encbuf

inductive Width
  | w8 | w16 | w32 | w64
  deriving DecidableEq

def Width.bits : Width → ℕ
  | .w8 => 8
  | .w16 => 16
  | .w32 => 32
  | .w64 => 64

/-- The kind of a Go type over the types it refers to. -/
inductive Shape (T : Type)
  | uint (w : Width)
  | bool
  | bigInt
  | string
  | byteSlice
  | byteArray (n : ℕ)
  | slice (elem : T)
  | struct (fields : List T)
  | ptr (elem : T)

/-- Go types that may refer to each other and to themselves. A slice of `uint8` is a byte
slice. -/
structure Types (T : Type) where
  shape : T → Shape T
  elem_ne_byte : ∀ t e, shape t = .slice e → shape e ≠ .uint .w8

inductive Val
  | uint (n : ℕ)
  | bool (b : Bool)
  | bytes (b : Bytes)
  | array (b : Bytes)
  | slice (vs : List Val)
  | struct (vs : List Val)
  | ptr (v : Val)

variable {T : Type}

/-- The values of a type. Pointers are not nil, and big integers are not negative. -/
inductive HasType (G : Types T) : T → Val → Prop
  | uint {t : T} {w : Width} {n : ℕ} : G.shape t = .uint w → n < 2 ^ w.bits → HasType G t (.uint n)
  | bool {t : T} {b : Bool} : G.shape t = .bool → HasType G t (.bool b)
  | bigInt {t : T} {n : ℕ} : G.shape t = .bigInt → HasType G t (.uint n)
  | string {t : T} {b : Bytes} : G.shape t = .string → HasType G t (.bytes b)
  | byteSlice {t : T} {b : Bytes} : G.shape t = .byteSlice → HasType G t (.bytes b)
  | byteArray {t : T} {n : ℕ} {b : Bytes} : G.shape t = .byteArray n → b.length = n →
    HasType G t (.array b)
  | slice {t e : T} {vs : List Val} : G.shape t = .slice e → (∀ v ∈ vs, HasType G e v) →
    HasType G t (.slice vs)
  | struct {t : T} {fs : List T} {vs : List Val} : G.shape t = .struct fs →
    fs.length = vs.length → (∀ p ∈ fs.zip vs, HasType G p.1 p.2) → HasType G t (.struct vs)
  | ptr {t e : T} {v : Val} : G.shape t = .ptr e → HasType G e v → HasType G t (.ptr v)

mutual

def write (G : Types T) (t : T) : Val → Encbuf → Option Encbuf
  | .uint n, w =>
    match G.shape t with
    | .uint _ => some (w.writeUint n)
    | .bigInt => some (w.writeBigInt n)
    | _ => none
  | .bool b, w =>
    match G.shape t with
    | .bool => some (w.writeBool b)
    | _ => none
  | .bytes b, w =>
    match G.shape t with
    | .string => some (w.encodeString b)
    | .byteSlice => some (w.encodeString b)
    | _ => none
  | .array b, w =>
    match G.shape t with
    | .byteArray _ => some (w.encodeString b)
    | _ => none
  | .slice vs, w =>
    match G.shape t with
    | .slice e => inList (writeElems G e vs) w
    | _ => none
  | .struct vs, w =>
    match G.shape t with
    | .struct fs => inList (writeFields G vs fs) w
    | _ => none
  | .ptr v, w =>
    match G.shape t with
    | .ptr e => write G e v w
    | _ => none

def writeElems (G : Types T) (e : T) : List Val → Encbuf → Option Encbuf
  | [], w => some w
  | v :: vs, w => (write G e v w).bind (writeElems G e vs)

def writeFields (G : Types T) : List Val → List T → Encbuf → Option Encbuf
  | v :: vs, f :: fs, w => (write G f v w).bind (writeFields G vs fs)
  | _, _, w => some w

end

/-- The decoder that `makeDecoder` picks for a type. The fuel bounds the depth of the value and
the elements of a slice. -/
def decode (G : Types T) : ℕ → T → Dec Val
  | 0, _ => throw .outOfFuel
  | fuel + 1, t =>
    match G.shape t with
    | .uint w => Stream.uint w.bits >>= fun n ↦ pure (.uint n)
    | .bool => Stream.bool >>= fun b ↦ pure (.bool b)
    | .bigInt => Stream.bigInt >>= fun n ↦ pure (.uint n)
    | .string => Stream.bytes >>= fun b ↦ pure (.bytes b)
    | .byteSlice => Stream.bytes >>= fun b ↦ pure (.bytes b)
    | .byteArray n => Stream.byteArray n >>= fun b ↦ pure (.array b)
    | .slice e => Stream.listSlice (decode G fuel e) fuel >>= fun vs ↦ pure (.slice vs)
    | .struct fs =>
      Stream.inList (fun _ ↦ Stream.structFields (decode G fuel) fs) >>= fun vs ↦ pure (.struct vs)
    | .ptr e => decode G fuel e >>= fun v ↦ pure (.ptr v)

def decodeBytes {α : Type} (dec : Dec α) (b : Bytes) : Outcome DecodeError α :=
  match dec (Stream.ofBytes b) with
  | .ok v s => if s.input = [] then .ok v else .error (.err .moreThanOneValue)
  | .error e _ => if e = .outOfFuel then .error .hang else .error (.err e)

mutual

def encode : Val → Bytes
  | .uint n => frame .string (natBytes n)
  | .bool b => frame .string (if b then [1] else [])
  | .bytes b => frame .string b
  | .array b => frame .string b
  | .slice vs => frame .list (encodeAll vs)
  | .struct vs => frame .list (encodeAll vs)
  | .ptr v => encode v

def encodeAll : List Val → Bytes
  | [] => []
  | v :: vs => encode v ++ encodeAll vs

end

/-- A value that the decoder reads without taking it: an array of one zero byte. -/
def sticky : Val → Bool
  | .array b => Stream.isZeroByte b
  | .ptr v => sticky v
  | _ => false

mutual

/-- No such value is an element of a slice, or a field of a struct other than the last. -/
def clean : Val → Bool
  | .slice vs => cleanElems vs
  | .struct vs => cleanFields vs
  | .ptr v => clean v
  | _ => true

def cleanElems : List Val → Bool
  | [] => true
  | v :: vs => clean v && !sticky v && cleanElems vs

def cleanFields : List Val → Bool
  | [] => true
  | v :: vs => clean v && (vs.isEmpty || !sticky v) && cleanFields vs

end

theorem writes_write {G : Types T} {t : T} {v : Val} (h : HasType G t v) :
    Writes (write G t v) (encode v) := by
  induction h with
  | @uint t w n hs hn =>
    have hw : write G t (.uint n) = fun w ↦ some (writeUint n w) := by
      funext w
      rw [write, hs]
    have hlt : 2 ^ w.bits ≤ 2 ^ 64 := by cases w <;> decide
    rw [hw]
    exact writes_writeUint (hn.trans_le hlt)
  | @bool t b hs =>
    have hw : write G t (.bool b) = fun w ↦ some (writeBool b w) := by
      funext w
      rw [write, hs]
    rw [hw]
    exact writes_writeBool b
  | @bigInt t n hs =>
    have hw : write G t (.uint n) = fun w ↦ some (writeBigInt n w) := by
      funext w
      rw [write, hs]
    rw [hw]
    exact writes_writeBigInt n
  | @string t b hs =>
    have hw : write G t (.bytes b) = fun w ↦ some (w.encodeString b) := by
      funext w
      rw [write, hs]
    rw [hw]
    exact writes_encodeString b
  | @byteSlice t b hs =>
    have hw : write G t (.bytes b) = fun w ↦ some (w.encodeString b) := by
      funext w
      rw [write, hs]
    rw [hw]
    exact writes_encodeString b
  | @byteArray t n b hs hlen =>
    have hw : write G t (.array b) = fun w ↦ some (w.encodeString b) := by
      funext w
      rw [write, hs]
    rw [hw]
    exact writes_encodeString b
  | @slice t e vs hs hvs ih =>
    have hw : write G t (.slice vs) = inList (writeElems G e vs) := by
      funext w
      rw [write, hs]
    have hall : Writes (writeElems G e vs) (encodeAll vs) := by
      clear hw hvs
      induction vs with
      | nil => exact writes_nil
      | cons v vs ihvs =>
        exact (ih v List.mem_cons_self).bind
          (ihvs (fun u hu ↦ ih u (List.mem_cons_of_mem v hu)))
    rw [hw]
    exact hall.inList
  | @struct t fs vs hs hlen hvs ih =>
    have hw : write G t (.struct vs) = inList (writeFields G vs fs) := by
      funext w
      rw [write, hs]
    have hall : Writes (writeFields G vs fs) (encodeAll vs) := by
      clear hw hvs hs
      induction vs generalizing fs with
      | nil => exact writes_nil
      | cons v vs ihvs =>
        cases fs with
        | nil => cases hlen
        | cons f fs =>
          exact (ih (f, v) List.mem_cons_self).bind (ihvs (Nat.succ.inj hlen)
            (fun p hp ↦ ih p (List.mem_cons_of_mem _ hp)))
    rw [hw]
    exact hall.inList
  | @ptr t e v hs hv ih =>
    have hw : write G t (.ptr v) = write G e v := by
      funext w
      rw [write, hs]
    rw [hw]
    exact ih

end BjutEth.Rlp
