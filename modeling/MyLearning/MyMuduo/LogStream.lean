import MyLearning.Lib.Vec

/-!
# The log stream

A `FixedBuffer` is an array of bytes with the index `cur` of the first free one; what the
functions write through raw pointers is checked against the bounds of the array here.
`convert` and `convertHex` share their loop. The stream itself is its buffer.
-/

namespace MyLearning.LogStream

def kSmallBuffer : Nat := 4000

def kMaxNumericSize : Int := 48

structure FixedBuffer where
  data : List UInt8
  cur : Nat
  deriving DecidableEq

namespace FixedBuffer

def avail (b : FixedBuffer) : Int := b.data.length - b.cur

def append (b : FixedBuffer) (buf : List UInt8) : Except Fault FixedBuffer :=
  if sizeT b.avail > buf.length then do
    let data ← Vec.store b.data b.cur buf
    return ⟨data, b.cur + buf.length⟩
  else return b

def add (b : FixedBuffer) (len : Nat) : FixedBuffer := { b with cur := b.cur + len }

def length (b : FixedBuffer) : Nat := b.cur

def toString (b : FixedBuffer) : Except Fault (List UInt8) := Vec.load b.data 0 b.length

def debugString (b : FixedBuffer) : Except Fault FixedBuffer := do
  let data ← Vec.store b.data b.cur [0]
  return { b with data := data }

end FixedBuffer

/-! ## Numbers as text -/

def ascii (s : String) : List UInt8 := s.toList.map fun c => UInt8.ofNat c.toNat

def digits : List UInt8 := ascii "9876543210123456789" ++ [0]

/-- `zero` points to `digits + zero`. -/
def zero : Int := 9

def digitsHex : List UInt8 := ascii "0123456789ABCDEF" ++ [0]

def minus : UInt8 := 45

def readAt (table : List UInt8) (i : Int) : Except Fault UInt8 :=
  if 0 ≤ i then
    match table[i.toNat]? with
    | some c => .ok c
    | none => .error .bounds
  else .error .bounds

/-- What the loops of `convert` and `convertHex` differ in. -/
structure Radix where
  base : Nat
  one_lt : 1 < base
  digit : Int → Except Fault UInt8

def decimal : Radix := ⟨10, by decide, fun lsd => readAt digits (zero + lsd)⟩

def hexadecimal : Radix := ⟨16, by decide, fun lsd => readAt digitsHex lsd⟩

theorem natAbs_tdiv_lt {b : Nat} (hb : 1 < b) {i : Int} (h : i.tdiv b ≠ 0) : (i.tdiv b).natAbs < i.natAbs := by
  rw [Int.natAbs_tdiv, Int.natAbs_natCast]
  refine Nat.div_lt_self ?_ hb
  rw [Int.natAbs_pos]
  intro hi
  exact h (by rw [hi, Int.zero_tdiv])

def putDigits (r : Radix) (data : List UInt8) (p : Nat) (i : Int) : Except Fault (List UInt8 × Nat) := do
  let c ← r.digit (i.tmod r.base)
  let data ← Vec.store data p [c]
  if h : i.tdiv r.base = 0 then return (data, p + 1)
  else putDigits r data (p + 1) (i.tdiv r.base)
termination_by i.natAbs
decreasing_by exact natAbs_tdiv_lt r.one_lt h

def reverse (data : List UInt8) (buf p : Nat) : Except Fault (List UInt8 × Nat) := do
  let data ← Vec.store data p [0]
  let text ← Vec.load data buf (p - buf)
  let data ← Vec.store data buf text.reverse
  return (data, p - buf)

def convert (data : List UInt8) (buf : Nat) (value : Int) : Except Fault (List UInt8 × Nat) := do
  let (data, p) ← putDigits decimal data buf value
  if value < 0 then do
    let data ← Vec.store data p [minus]
    reverse data buf (p + 1)
  else reverse data buf p

def convertHex (data : List UInt8) (buf : Nat) (value : UInt64) : Except Fault (List UInt8 × Nat) := do
  let (data, p) ← putDigits hexadecimal data buf value.toNat
  reverse data buf p

/-! ## The stream -/

def formatInteger (b : FixedBuffer) (v : Int) : Except Fault FixedBuffer :=
  if b.avail ≥ kMaxNumericSize then do
    let (data, len) ← convert b.data b.cur v
    return { b with data := data }.add len
  else return b

def formatPointer (b : FixedBuffer) (v : UInt64) : Except Fault FixedBuffer :=
  if b.avail ≥ kMaxNumericSize then do
    let data ← Vec.store b.data b.cur (ascii "0")
    let data ← Vec.store data (b.cur + 1) (ascii "x")
    let (data, len) ← convertHex data (b.cur + 2) v
    return { b with data := data }.add (len + 2)
  else return b

/-- A C string: the bytes in front of its terminator. -/
structure CString where
  bytes : List UInt8
  no_nul : 0 ∉ bytes

def appendString (b : FixedBuffer) : Option CString → Except Fault FixedBuffer
  | some str => b.append str.bytes
  | none => b.append (ascii "(null)")

inductive Item where
  | bool (v : Bool)
  | short (v : Int16)
  | unsignedShort (v : UInt16)
  | int (v : Int32)
  | unsignedInt (v : UInt32)
  | long (v : Int64)
  | unsignedLong (v : UInt64)
  | longLong (v : Int64)
  | unsignedLongLong (v : UInt64)
  | pointer (p : UInt64)
  | char (v : UInt8)
  | cString (str : Option CString)
  | unsignedCString (str : Option CString)
  | string (v : List UInt8)
  | stringView (v : List UInt8)

def put (b : FixedBuffer) : Item → Except Fault FixedBuffer
  | .bool v => b.append (if v then ascii "1" else ascii "0")
  | .short v => formatInteger b v.toInt32.toInt
  | .unsignedShort v => formatInteger b v.toUInt32.toNat
  | .int v => formatInteger b v.toInt
  | .unsignedInt v => formatInteger b v.toNat
  | .long v => formatInteger b v.toInt
  | .unsignedLong v => formatInteger b v.toNat
  | .longLong v => formatInteger b v.toInt
  | .unsignedLongLong v => formatInteger b v.toNat
  | .pointer p => formatPointer b p
  | .char v => b.append [v]
  | .cString str => appendString b str
  | .unsignedCString str => appendString b str
  | .string v => b.append v
  | .stringView v => b.append v

def putAll (b : FixedBuffer) : List Item → Except Fault FixedBuffer
  | [] => .ok b
  | item :: items => do
    let b ← put b item
    putAll b items

def fresh (data : Vector UInt8 kSmallBuffer) : FixedBuffer := ⟨data.toList, 0⟩

end MyLearning.LogStream
