import BjutEth.Rlp.Frame

namespace BjutEth.Rlp

/-- The errors of a stream. The decoders for reflected types wrap some of them into messages
that name the type and the field; what they test for is only `EOL`. -/
inductive DecodeError
  | eol | eof | unexpectedEOF | canonInt | canonSize | expectedList | expectedString | uintOverflow
  | notInList | notAtEOL | elemTooLarge | valueTooLarge | tooLong | tooShort | tooFew | invalidBool
  | moreThanOneValue | outOfFuel
  deriving DecidableEq

/-- `Kind` of the source, which tells single bytes from other strings. -/
inductive StreamKind
  | byte | string | list
  deriving DecidableEq

structure ListPos where
  pos : ℕ
  size : ℕ
  deriving DecidableEq

/-- `Stream` over a byte slice, so that it is `limited`. `input` is what the reader still has,
no `kind` stands for -1, and the innermost list is the head of the stack. -/
structure Stream where
  input : Bytes
  remaining : ℕ
  kind : Option StreamKind := none
  size : ℕ := 0
  byteval : UInt8 := 0
  kinderr : Option DecodeError := none
  stack : List ListPos := []
  deriving DecidableEq

/-- A method of the stream: its error leaves the stream as it has become. -/
abbrev Dec (α : Type) := EStateM DecodeError Stream α

namespace Stream

def ofBytes (b : Bytes) : Stream := { input := b, remaining := b.length }

def takeLimit (n : ℕ) : Dec Unit := fun s ↦
  if s.remaining < n then .error .valueTooLarge s else .ok () { s with remaining := s.remaining - n }

def willRead (n : ℕ) : Dec Unit := fun s ↦
  match s.stack with
  | [] => takeLimit n { s with kind := none }
  | tos :: stack =>
    if tos.size - tos.pos < n then .error .elemTooLarge { s with kind := none }
    else takeLimit n { s with kind := none, stack := ⟨tos.pos + n, tos.size⟩ :: stack }

def take (n : ℕ) : Dec Bytes := fun s ↦
  if s.input.length < n then .error .unexpectedEOF { s with input := [] }
  else .ok (s.input.take n) { s with input := s.input.drop n }

def readFull (n : ℕ) : Dec Bytes := do
  willRead n
  take n

def readByte : Dec UInt8 := do
  let b ← readFull 1
  return b.headD 0

def readUint (size : ℕ) : Dec ℕ := do
  if size = 0 then
    modify ({ · with kind := none })
    return 0
  else if size = 1 then
    let b ← readByte
    return b.toNat
  else
    let b ← readFull size
    if b.headD 0 = 0 then throw .canonSize else return beValue b

def readSize (kind : StreamKind) (n : ℕ) : Dec (StreamKind × ℕ) := do
  let size ← readUint n
  if size < 56 then throw .canonSize else return (kind, size)

def ofTag (b : UInt8) : Dec (StreamKind × ℕ) := do
  modify ({ · with byteval := 0 })
  if b < 0x80 then
    modify ({ · with byteval := b })
    return (.byte, 0)
  else if b < 0xB8 then return (.string, b.toNat - 0x80)
  else if b < 0xC0 then readSize .string (b.toNat - 0xB7)
  else if b < 0xF8 then return (.list, b.toNat - 0xC0)
  else readSize .list (b.toNat - 0xF7)

/-- `readKind`. The error at the end of the input outside of lists is `io.EOF`. -/
def readKind : Dec (StreamKind × ℕ) := fun s ↦
  match readByte s with
  | .error e s' =>
    if s'.stack = [] ∧ (e = .unexpectedEOF ∨ e = .valueTooLarge) then .error .eof s' else .error e s'
  | .ok b s' => ofTag b s'

/-- The value must fit into the list around it or, outside of lists, into the input. -/
def fits (s : Stream) (size : ℕ) : Option DecodeError :=
  match s.stack with
  | [] => if s.remaining < size then some .valueTooLarge else none
  | tos :: _ => if tos.size - tos.pos < size then some .elemTooLarge else none

/-- `Kind` after it has found the stream armed for the next value. With an error the kind and
the size are never looked at: the error is returned again until something rearms the stream. -/
def freshKind : Dec (StreamKind × ℕ) := fun s ↦
  match readKind s with
  | .error e s' => .error e { s' with kind := some .byte, size := 0, kinderr := some e }
  | .ok (kind, size) s' =>
    match s'.fits size with
    | some e => .error e { s' with kind := some kind, size := size, kinderr := some e }
    | none => .ok (kind, size) { s' with kind := some kind, size := size, kinderr := none }

/-- `Kind`: what is ahead, from the cache if it was asked for before. -/
def kindAhead : Dec (StreamKind × ℕ) := fun s ↦
  match s.kind with
  | some kind =>
    match s.kinderr with
    | some e => .error e s
    | none => .ok (kind, s.size) s
  | none =>
    match s.stack with
    | tos :: _ => if tos.pos = tos.size then .error .eol { s with kinderr := none } else freshKind s
    | [] => freshKind s

def rearm : Dec Unit := modify ({ · with kind := none })

def bytesAhead : StreamKind × ℕ → Dec Bytes
  | (.byte, _) => do
    rearm
    let s ← get
    return [s.byteval]
  | (.string, size) => do
    let b ← readFull size
    if size = 1 ∧ b.headD 0 < 128 then throw .canonSize else return b
  | (.list, _) => throw .expectedString

def bytes : Dec Bytes := kindAhead >>= bytesAhead

def readInt (size : ℕ) : Dec ℕ := fun s ↦
  match readUint size s with
  | .error e s => .error (if e = .canonSize then .canonInt else e) s
  | .ok v s => .ok v s

def uintAhead (maxbits : ℕ) : StreamKind × ℕ → Dec ℕ
  | (.byte, _) => do
    let s ← get
    if s.byteval = 0 then throw .canonInt
    else
      rearm
      return s.byteval.toNat
  | (.string, size) => do
    if maxbits / 8 < size then throw .uintOverflow
    else
      let v ← readInt size
      if 0 < size ∧ v < 128 then throw .canonSize else return v
  | (.list, _) => throw .expectedString

def uint (maxbits : ℕ) : Dec ℕ := kindAhead >>= uintAhead maxbits

def bool : Dec Bool := do
  match ← uint 8 with
  | 0 => return false
  | 1 => return true
  | _ => throw .invalidBool

def bigInt : Dec ℕ := do
  let b ← bytes
  if b.head? = some 0 then throw .canonInt else return beValue b

def list : Dec ℕ := do
  let (kind, size) ← kindAhead
  if kind ≠ .list then throw .expectedList
  else
    modify (fun s ↦ { s with stack := ⟨0, size⟩ :: s.stack, kind := none, size := 0 })
    return size

def listEnd : Dec Unit := fun s ↦
  match s.stack with
  | [] => .error .notInList s
  | tos :: stack =>
    if tos.pos ≠ tos.size then .error .notAtEOL s
    else
      let stack := match stack with
        | [] => []
        | outer :: stack => ⟨outer.pos + tos.size, outer.size⟩ :: stack
      .ok () { s with stack, kind := none, size := 0 }

def uintOrZero : Dec ℕ := fun s ↦
  match uint 64 s with
  | .ok v s => .ok v s
  | .error _ s => .ok 0 s

/-- `decodeByteArray` after its call of `Kind`. The error of `Uint` on a zero byte is ignored,
and then the stream is not armed for the next value. -/
def byteArrayAhead (n : ℕ) : StreamKind × ℕ → Dec Bytes
  | (.byte, _) => do
    if n = 0 then throw .tooLong
    else if 1 < n then throw .tooShort
    else
      let bv ← uintOrZero
      return [.ofNat bv]
  | (.string, size) => do
    if n < size then throw .tooLong
    else if size < n then throw .tooShort
    else
      let b ← readFull n
      if size = 1 ∧ b.headD 0 < 128 then throw .canonSize else return b
  | (.list, _) => throw .expectedString

def byteArray (n : ℕ) : Dec Bytes := kindAhead >>= byteArrayAhead n

variable {α T : Type}

/-- A list with its end; `inner` reads what is in it. -/
def inList (inner : ℕ → Dec α) : Dec α := do
  let size ← list
  let a ← inner size
  listEnd
  return a

def notEOL (d : Dec α) : Dec α := fun s ↦
  match d s with
  | .error e s => .error (if e = .eol then .tooFew else e) s
  | .ok a s => .ok a s

def structFields (dec : T → Dec α) : List T → Dec (List α)
  | [] => pure []
  | f :: fs => do
    let a ← notEOL (dec f)
    let as ← structFields dec fs
    return a :: as

def sliceElems (elemdec : Dec α) : ℕ → Dec (List α)
  | 0 => throw .outOfFuel
  | fuel + 1 => fun s ↦
    match elemdec s with
    | .error e s => if e = .eol then .ok [] s else .error e s
    | .ok a s => (sliceElems elemdec fuel >>= fun as ↦ pure (a :: as)) s

def listSlice (elemdec : Dec α) (fuel : ℕ) : Dec (List α) :=
  inList (fun size ↦ if size = 0 then pure [] else sliceElems elemdec fuel)

end Stream

end BjutEth.Rlp
