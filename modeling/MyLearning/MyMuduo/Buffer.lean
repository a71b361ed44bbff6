import MyLearning.Lib.Fifo
import MyLearning.Lib.Lts
import MyLearning.Lib.Vec

/-!
# The buffer

A `Buffer` is a vector of bytes with two indices: the bytes from `readIndex` up to
`writeIndex` are readable, those from `writeIndex` on can be written. The functions
are those of the source; every size is an unsigned 64-bit number.

The system is a family of buffers, each with the queue of bytes it should hold:
what was put into it and how much of that was retrieved. No function reads the
queue. Two buffers that are swapped swap their queues.
-/

namespace MyLearning

structure Buffer where
  buffer : List UInt8
  readIndex : Nat
  writeIndex : Nat
  deriving DecidableEq

inductive Readv where
  | error (errno : Int)
  | ok (data : List UInt8)
  deriving DecidableEq

namespace Buffer

def kCheapPrepend : Nat := 8

def extrabufSize : Nat := 65535

def readableBytes (b : Buffer) : Nat := sizeT (b.writeIndex - b.readIndex)

def writableBytes (b : Buffer) : Nat := sizeT (b.buffer.length - b.writeIndex)

def prependableBytes (b : Buffer) : Nat := b.readIndex

def readable (b : Buffer) : List UInt8 := (b.buffer.drop b.readIndex).take (b.writeIndex - b.readIndex)

/-! ## The functions of the source -/

def create (initialSize : Nat) : Except Fault Buffer := do
  let buffer ← Vec.resize [] (sizeT (kCheapPrepend + initialSize : Nat)) 0
  let b : Buffer := ⟨buffer, kCheapPrepend, kCheapPrepend⟩
  check (b.writableBytes = initialSize)
  check (b.readableBytes = 0)
  check (b.prependableBytes = kCheapPrepend)
  return b

def swap (b rhs : Buffer) : Buffer × Buffer :=
  ({ b with buffer := rhs.buffer, writeIndex := rhs.writeIndex, readIndex := rhs.readIndex },
    { rhs with buffer := b.buffer, writeIndex := b.writeIndex, readIndex := b.readIndex })

def retrieveAll (b : Buffer) : Buffer := { b with writeIndex := kCheapPrepend, readIndex := kCheapPrepend }

def retrieve (b : Buffer) (len : Nat) : Buffer :=
  if len < b.readableBytes then { b with readIndex := sizeT (b.readIndex + len : Nat) } else b.retrieveAll

def retrieveAsString (b : Buffer) (len : Nat) : Except Fault (Buffer × List UInt8) := do
  check (len ≤ b.readableBytes)
  let res ← Vec.load b.buffer b.readIndex len
  return (b.retrieve len, res)

def retrieveAllAsString (b : Buffer) : Except Fault (Buffer × List UInt8) := b.retrieveAsString b.readableBytes

def hasWriten (b : Buffer) (len : Nat) : Except Fault Buffer := do
  check (len ≤ b.writableBytes)
  return { b with writeIndex := sizeT (b.writeIndex + len : Nat) }

def makeSpace (b : Buffer) (len : Nat) : Except Fault Buffer :=
  if sizeT (b.writableBytes + b.prependableBytes : Nat) < sizeT (len + kCheapPrepend : Nat) then do
    let buffer ← Vec.resize b.buffer (sizeT (b.writeIndex + len : Nat)) 0
    return { b with buffer := buffer }
  else do
    check (kCheapPrepend < b.readIndex)
    let readable := b.readableBytes
    let buffer ← Vec.copy b.buffer b.readIndex kCheapPrepend (b.writeIndex - b.readIndex)
    let b : Buffer := ⟨buffer, kCheapPrepend, sizeT (kCheapPrepend + readable : Nat)⟩
    check (readable = b.readableBytes)
    return b

def ensureWritableBytes (b : Buffer) (len : Nat) : Except Fault Buffer := do
  let b ← (if b.writableBytes < len then b.makeSpace len else .ok b : Except Fault Buffer)
  check (len ≤ b.writableBytes)
  return b

/-- The bytes are copied behind the readable region, and no index moves. -/
def append (b : Buffer) (data : List UInt8) : Except Fault Buffer := do
  let b ← b.ensureWritableBytes data.length
  let buffer ← Vec.store b.buffer b.writeIndex data
  return { b with buffer := buffer }

/-- The result of `readv`, and `savedErr` where it is set. `readv` fills the
writable part of the vector first and `extrabuf` with the rest. -/
def readFd (b : Buffer) : Readv → Except Fault (Buffer × Int × Option Int)
  | .error errno => return (b, -1, some errno)
  | .ok data => do
    let writable := b.writableBytes
    let buffer ← Vec.store b.buffer b.writeIndex (data.take writable)
    let b : Buffer := { b with buffer := buffer }
    if data.length < writable then
      return ({ b with writeIndex := sizeT (b.writeIndex + data.length : Nat) }, data.length, none)
    else do
      let b ← append { b with writeIndex := b.buffer.length } (data.drop writable)
      return (b, data.length, none)

/-! ## The system -/

/-- The operations on one buffer. `hasWriten` stands for a write of its bytes at
`beginWrite()` and the call that commits them. -/
inductive Op where
  | append (data : List UInt8)
  | readFd (n : Readv)
  | ensureWritableBytes (len : Nat)
  | hasWriten (data : List UInt8)
  | retrieve (len : Nat)
  | retrieveAll
  | retrieveAsString (len : Nat)
  | retrieveAllAsString
  deriving DecidableEq

namespace Op

/-- A length is a 64-bit number, and `readv` reads no more than it was given
room for, nor more than its result can say. -/
def fits (b : Buffer) : Op → Bool
  | append data | hasWriten data => decide (data.length < 2 ^ 64)
  | readFd (.ok data) => decide (data.length ≤ b.writableBytes + extrabufSize ∧ data.length < 2 ^ 63)
  | readFd (.error _) | retrieveAll | retrieveAllAsString => true
  | ensureWritableBytes len | retrieve len | retrieveAsString len => decide (len < 2 ^ 64)

def run (b : Buffer) : Op → Except Fault Buffer
  | append data => b.append data
  | readFd n => do return (← b.readFd n).1
  | ensureWritableBytes len => b.ensureWritableBytes len
  | hasWriten data => do
    let buffer ← Vec.store b.buffer b.writeIndex data
    Buffer.hasWriten { b with buffer := buffer } data.length
  | retrieve len => .ok (b.retrieve len)
  | retrieveAll => .ok b.retrieveAll
  | retrieveAsString len => do return (← b.retrieveAsString len).1
  | retrieveAllAsString => do return (← b.retrieveAllAsString).1

def queue (q : Fifo UInt8) : Op → Fifo UInt8
  | append data | readFd (.ok data) | hasWriten data => q.push data
  | readFd (.error _) | ensureWritableBytes _ => q
  | retrieve len | retrieveAsString len => q.pop len
  | retrieveAll | retrieveAllAsString => q.clear

end Op

structure Tracked where
  buf : Buffer
  queue : Fifo UInt8

variable {ι : Type*}

abbrev State (ι : Type*) := ι → Tracked

inductive Act (ι : Type*) where
  | on (i : ι) (op : Op)
  | swap (i j : ι)

variable [DecidableEq ι]

def step (s : State ι) : Act ι → Option (Except Fault (State ι))
  | .on i op =>
    if op.fits (s i).buf then
      some ((op.run (s i).buf).map fun b => Function.update s i ⟨b, op.queue (s i).queue⟩)
    else none
  | .swap i j =>
    let r := swap (s i).buf (s j).buf
    some (.ok (Function.update (Function.update s i ⟨r.1, (s j).queue⟩) j ⟨r.2, (s i).queue⟩))

def lts (ι : Type*) [DecidableEq ι] : Lts (State ι) (Act ι) where
  init s := ∀ i, ∃ initialSize < 2 ^ 64, create initialSize = .ok (s i).buf ∧ (s i).queue = .empty
  step s a t := step s a = some (.ok t)

end Buffer

end MyLearning
