import BjutEth.Lib.Bytes

namespace BjutEth.GoText

/-- A Go string: an arbitrary byte sequence. -/
abbrev Text := Bytes

def ofString (s : String) : Text := s.toUTF8.toList

def split (sep : UInt8) (s : Text) : List Text := s.splitOn sep

def join (sep : UInt8) (l : List Text) : Text := [sep].intercalate l

/-- The value of a digit in bases up to 36; 36 stands for no digit. -/
def digitVal (c : UInt8) : ℕ :=
  if 48 ≤ c ∧ c ≤ 57 then c.toNat - 48
  else if 97 ≤ c ∧ c ≤ 122 then c.toNat - 87
  else if 65 ≤ c ∧ c ≤ 90 then c.toNat - 55
  else 36

def digits (base : ℕ) : ℕ → Text → Option ℕ
  | acc, [] => some acc
  | acc, c :: cs => if digitVal c < base then digits base (acc * base + digitVal c) cs else none

def parseNat (base : ℕ) (s : Text) : Option ℕ := if s.isEmpty then none else digits base 0 s

/-- An unsigned number with the base prefixes of `SetString(s, 0)`: `0x`, `0b`
and the octal `0`, as Go has them before 1.13 (no `0o`, no `_`). -/
def parsePrefixed : Text → Option ℕ
  | [48] => some 0
  | 48 :: 120 :: s | 48 :: 88 :: s => parseNat 16 s
  | 48 :: 98 :: s | 48 :: 66 :: s => parseNat 2 s
  | 48 :: s => parseNat 8 s
  | s => parseNat 10 s

def signed (parse : Text → Option ℕ) : Text → Option ℤ
  | 45 :: s => (parse s).map (fun n ↦ -(n : ℤ))
  | 43 :: s => (parse s).map (fun n ↦ (n : ℤ))
  | s => (parse s).map (fun n ↦ (n : ℤ))

def bigUnmarshalText (s : Text) : Option ℤ := signed parsePrefixed s

/-- `strconv.Atoi` on a 64-bit platform. -/
def atoi (s : Text) : Option ℤ :=
  (signed (parseNat 10) s).filter (fun x ↦ -2 ^ 63 ≤ x ∧ x < 2 ^ 63)

/-- `hex.DecodeString` without its error: the bytes before the first bad digit. -/
def hexDecode : Text → Text
  | a :: b :: s =>
    if digitVal a < 16 ∧ digitVal b < 16 then
      UInt8.ofNat (digitVal a * 16 + digitVal b) :: hexDecode s
    else []
  | _ => []

/-- The prefixes of `PossibleCustomHexPrefixMap`: `0x`, `0X` and `t` or `T`
followed by a digit. -/
def hasHexPrefix : Text → Bool
  | a :: b :: _ =>
    (a == 48 && (b == 120 || b == 88)) || ((a == 116 || a == 84) && (48 ≤ b && b ≤ 57))
  | _ => false

/-- `hexutil.CPToHex` followed by `common.FromHex`. -/
def fromHex (s : Text) : Text :=
  let s := if s.length > 2 && hasHexPrefix s then 48 :: 120 :: s.drop 2 else s
  let s := match s with
    | 48 :: 120 :: t | 48 :: 88 :: t => t
    | s => s
  hexDecode (if s.length % 2 = 1 then 48 :: s else s)

/-- `common.HexToAddress` and `common.HexToHash`: the value is cropped from the
left and padded on the left. -/
def hexToBits (width : ℕ) (s : Text) : BitVec width := .ofNat width (beValue (fromHex s))

def unmarshalFixedText (n : ℕ) (s : Text) : Option (BitVec (8 * n)) :=
  let raw := s.drop 2
  if hasHexPrefix s && raw.length % 2 == 0 && raw.length / 2 == n &&
      raw.all (fun c ↦ digitVal c < 16) then
    some (.ofNat (8 * n) (beValue (hexDecode raw)))
  else none

end BjutEth.GoText
