/-!
# Binary codecs

A saved state is a row of self-delimiting fields. A `Codec` pairs the writer of a field with its
reader, and the combinators build the codec of a structure from those of its fields, so that the
two sides cannot drift apart.

Numbers have a variable length: below 251 one byte; otherwise a tag of 251, 252 or 253 and two,
four or eight bytes, the low byte first. A sequence is its length and its elements, an optional
field a byte that says whether it is there, a choice its number and its fields.

A reader may have an allowance: every field claims the size of its type before it is read, and
reading fails when the claims exceed the allowance.
-/

namespace Psx.Snapshot

/-- A place in the bytes that are read. -/
structure Cursor where
  data : ByteArray
  pos : Nat := 0
  /-- What may still be claimed, if that is bounded. -/
  allowance : Option Nat := none

/-- A reader of a field. -/
abbrev Get := StateT Cursor Option

namespace Get

/-- Claims part of the allowance. -/
def claim (n : Nat) : Get Unit := fun c =>
  match c.allowance with
  | none => some ((), c)
  | some left => if n ≤ left then some ((), { c with allowance := some (left - n) }) else none

def rawByte : Get UInt8 := fun c =>
  if h : c.pos < c.data.size then some (c.data[c.pos], { c with pos := c.pos + 1 }) else none

/-- The next bytes as a number, the low byte first. -/
def rawNat : Nat → Get Nat
  | 0 => pure 0
  | n + 1 => do
    let low ← rawByte
    let rest ← rawNat n
    pure (low.toNat + 256 * rest)

/-- The next bytes as they are. -/
def rawBytes (n : Nat) : Get ByteArray := fun c =>
  if c.pos + n ≤ c.data.size then
    some (c.data.extract c.pos (c.pos + n), { c with pos := c.pos + n })
  else none

/-- Reads bytes from the beginning; what follows the field is ignored. -/
def run? (get : Get α) (data : ByteArray) (allowance : Option Nat := none) : Option α :=
  (get { data, allowance }).map (·.1)

end Get

/-- The writer and the reader of a field. -/
structure Codec (α : Type) where
  put : α → ByteArray → ByteArray
  get : Get α

namespace Codec

def encode (c : Codec α) (a : α) : ByteArray := c.put a .empty

def decode? (c : Codec α) (data : ByteArray) : Option α := c.get.run? data

/-- Appends the low `n` bytes of a number, the low byte first. -/
def putRaw : Nat → Nat → ByteArray → ByteArray
  | 0, _, out => out
  | n + 1, value, out => putRaw n (value / 256) (out.push (.ofNat value))

/-! ### Primitive fields -/

def byte : Codec UInt8 where
  put a out := out.push a
  get := do
    Get.claim 1
    Get.rawByte

def putNat (value : Nat) (out : ByteArray) : ByteArray :=
  if value < 251 then out.push (.ofNat value)
  else if value < 0x10000 then putRaw 2 value (out.push 251)
  else if value < 0x100000000 then putRaw 4 value (out.push 252)
  else putRaw 8 value (out.push 253)

/-- A number in at most `bytes` bytes. -/
def getNat (bytes : Nat) : Get Nat := do
  let tag ← Get.rawByte
  if tag < 251 then pure tag.toNat
  else if tag == 251 then Get.rawNat 2
  else if tag == 252 && 4 ≤ bytes then Get.rawNat 4
  else if tag == 253 && 8 ≤ bytes then Get.rawNat 8
  else failure

/-- A number of a type of `bytes` bytes. -/
def number (bytes : Nat) : Codec Nat where
  put := putNat
  get := do
    Get.claim bytes
    getNat bytes

def nat16 : Codec Nat := number 2

def nat32 : Codec Nat := number 4

def nat64 : Codec Nat := number 8

/-! ### Combinators -/

/-- A field seen through a pair of conversions. -/
def imap (c : Codec α) (view : β → α) (make : α → β) : Codec β where
  put b out := c.put (view b) out
  get := make <$> c.get

/-- A field of which not every value is allowed. -/
def filter (c : Codec α) (view : β → α) (make? : α → Option β) : Codec β where
  put b out := c.put (view b) out
  get := do
    let a ← c.get
    make? a

/-- One field after the other. -/
def pair (c : Codec α) (d : Codec β) : Codec (α × β) where
  put p out := d.put p.2 (c.put p.1 out)
  get := do
    let a ← c.get
    let b ← d.get
    pure (a, b)

/-- The number of an alternative and its fields. -/
def choice (number : α → Nat) (fields : α → ByteArray → ByteArray) (get : Nat → Get α) :
    Codec α where
  put a out := fields a (nat32.put (number a) out)
  get := nat32.get >>= get

def getMany (c : Codec α) : Nat → Array α → Get (Array α)
  | 0, read => pure read
  | n + 1, read => do
    let a ← c.get
    getMany c n (read.push a)

/-- So many fields of one kind. -/
def vector (n : Nat) (c : Codec α) : Codec (Vector α n) where
  put v out := v.foldl (fun out a => c.put a out) out
  get := do
    let read ← getMany c n #[]
    if h : read.size = n then pure ⟨read, h⟩ else failure

/-- The length and then the elements. -/
def array (c : Codec α) : Codec (Array α) where
  put a out := a.foldl (fun out a => c.put a out) (nat64.put a.size out)
  get := do
    let n ← nat64.get
    getMany c n #[]

def list (c : Codec α) : Codec (List α) :=
  c.array.imap List.toArray Array.toList

/-- Whether the field is there, and the field. -/
def option (c : Codec α) : Codec (Option α) where
  put
    | none, out => out.push 0
    | some a, out => c.put a (out.push 1)
  get := do
    let present ← byte.get
    if present == 0 then pure none
    else if present == 1 then some <$> c.get
    else failure

/-! ### Common fields -/

def bool : Codec Bool :=
  byte.filter (fun b => if b then 1 else 0) fun b =>
    if b == 0 then some false else if b == 1 then some true else none

def word16 : Codec UInt16 := nat16.imap UInt16.toNat UInt16.ofNat

def word32 : Codec UInt32 := nat32.imap UInt32.toNat UInt32.ofNat

/-- A row of bytes, each of which claims its place. -/
def bytes : Codec ByteArray where
  put b out := nat64.put b.size out ++ b
  get := do
    let n ← nat64.get
    Get.claim n
    Get.rawBytes n

def text : Codec String :=
  bytes.filter String.toUTF8 String.fromUTF8?

end Codec

end Psx.Snapshot
