import PointerGuard.Ty

/-!
# Data layout

How many bytes a value takes, how it is aligned, and where its parts lie. Sizes are natural numbers,
and only the size of an array is cut off, at the largest 64-bit word. Asked for alone, sizes and
offsets are computed in such words, and a structure that is too large has no answer. Along a path of
indices words are signed, and a path that leaves their range has no offset.
-/

namespace PointerGuard

/-- The width of a pointer on the target. -/
inductive PointerWidth where
  /-- Pointers of 32 bits. -/
  | bits32
  /-- Pointers of 64 bits. -/
  | bits64
  deriving DecidableEq, Repr, Inhabited

namespace PointerWidth

/-- The width used when none is asked for. -/
def standard : PointerWidth := .bits64

/-- The number of bits of a pointer. -/
def bits : PointerWidth → Nat
  | .bits32 => 32
  | .bits64 => 64

/-- The number of bytes of a pointer. -/
def bytes : PointerWidth → Nat
  | .bits32 => 4
  | .bits64 => 8

/-- The integer type as wide as a pointer. -/
def intPtrTy (w : PointerWidth) : Ty := .int w.bits

/-- The type of keys. -/
def keyTy (w : PointerWidth) : Ty := .int w.bits

/-- The last address there is. -/
def maxAddress (w : PointerWidth) : Nat := (1 <<< w.bits) - 1

end PointerWidth

/-- The largest unsigned 64-bit word. -/
def maxWord : Nat := 0xffffffffffffffff

/-- A number as a signed 64-bit word, if it is one. -/
def signedWord? (n : Int) : Option Int :=
  if -0x8000000000000000 ≤ n ∧ n < 0x8000000000000000 then some n else none

namespace Layout

/-- The least power of two that is at least `n`; 1 for 0. -/
def ceilPowerOfTwo (n : Nat) : Nat :=
  if n ≤ 1 then 1 else 1 <<< ((n - 1).log2 + 1)

/-- The least multiple of `align` that is at least `offset`. -/
def alignUp (offset align : Nat) : Nat :=
  if align ≤ 1 then offset else (offset + (align - 1)) / align * align

/-- The bytes of an integer: its whole bytes, rounded up to a power of two. -/
def intSize (bits : Nat) : Nat := ceilPowerOfTwo ((bits + 7) / 8)

mutual

/-- What the addresses of a type are multiples of. -/
def align (w : PointerWidth) : Ty → Nat
  | .void | .func .. => 1
  | .int bits => min (intSize bits) 8
  | .float => 4
  | .double => 8
  | .ptr _ => w.bytes
  | .array elem _ => align w elem
  | .struct fields => maxAlign w fields

/-- The largest alignment among some fields; 1 if there are none. -/
def maxAlign (w : PointerWidth) : List Ty → Nat
  | [] => 1
  | t :: ts => max (align w t) (maxAlign w ts)

end

mutual

/-- The number of bytes of a type, and at most `maxWord`. -/
def size (w : PointerWidth) : Ty → Nat
  | .void | .func .. => 0
  | .int bits => intSize bits
  | .float => 4
  | .double => 8
  | .ptr _ => w.bytes
  | .array elem len => min (size w elem * len) maxWord
  | .struct fields => alignUp (fieldsEnd w 0 fields) (maxAlign w fields)

/-- Where the last of some fields ends when the first may start at `offset`. -/
def fieldsEnd (w : PointerWidth) (offset : Nat) : List Ty → Nat
  | [] => offset
  | t :: ts => fieldsEnd w (alignUp offset (align w t) + size w t) ts

end

/-- Where field `index` starts when the first field may start at `offset`. -/
def fieldOffsetFrom? (w : PointerWidth) (offset : Nat) : List Ty → Nat → Option Nat
  | [], _ => none
  | t :: _, 0 => some (alignUp offset (align w t))
  | t :: ts, index + 1 => fieldOffsetFrom? w (alignUp offset (align w t) + size w t) ts index

/-- Where field `index` of a structure starts. -/
def fieldOffset? (w : PointerWidth) (fields : List Ty) (index : Nat) : Option Nat :=
  fieldOffsetFrom? w 0 fields index

/-! ### Arithmetic in words

The sizes of arrays are cut off. All other sums and multiples have to be words. -/

/-- A number as an unsigned 64-bit word, if it is one. -/
def word? (n : Nat) : Option Nat := if n ≤ maxWord then some n else none

mutual

/-- The size of a type, computed in words. -/
def wordSize? (w : PointerWidth) : Ty → Option Nat
  | .array elem len => do
    let bytes ← wordSize? w elem
    return min (bytes * len) maxWord
  | .struct fields => do
    let stop ← wordEnd? w 0 fields
    word? (alignUp stop (maxAlign w fields))
  | t => word? (size w t)

/-- The end of the last of some fields, computed in words. -/
def wordEnd? (w : PointerWidth) (offset : Nat) : List Ty → Option Nat
  | [] => some offset
  | t :: ts => do
    let start ← word? (alignUp offset (align w t))
    let bytes ← wordSize? w t
    let stop ← word? (start + bytes)
    wordEnd? w stop ts

end

/-- Where field `index` of a structure starts, computed in words. -/
def wordOffset? (w : PointerWidth) (fields : List Ty) (index : Nat) : Option Nat := do
  let field ← fields[index]?
  let stop ← wordEnd? w 0 (fields.take index)
  word? (alignUp stop (align w field))

/-! ### Paths of indices -/

/-- The offset reached from `offset` by stepping into a value of type `t` along some indices. An
array takes any index; a structure takes the number of one of its fields. -/
def walkOffset? (w : PointerWidth) : Ty → Int → List Int → Option Int
  | _, offset, [] => some offset
  | .array elem _, offset, index :: rest => do
    let stride ← signedWord? (size w elem)
    let step ← signedWord? (index * stride)
    let next ← signedWord? (offset + step)
    walkOffset? w elem next rest
  | .struct fields, offset, .ofNat index :: rest => do
    let step ← (fieldOffset? w fields index).bind (signedWord? ·)
    let next ← signedWord? (offset + step)
    let field ← fields[index]?
    walkOffset? w field next rest
  | _, _, _ :: _ => none

/-- The byte offset of a path from a pointer to `pointee`: the first index steps over whole values,
the others step into them. -/
def pathOffset? (w : PointerWidth) (pointee : Ty) : List Int → Option Int
  | [] => none
  | first :: rest => do
    let stride ← signedWord? (size w pointee)
    let start ← signedWord? (first * stride)
    walkOffset? w pointee start rest

/-- The byte offset of a path, if the size of `pointee` is a word. All other sizes and offsets that
a path asks for are those of parts of it. -/
def wordPathOffset? (w : PointerWidth) (pointee : Ty) (path : List Int) : Option (Option Int) :=
  if path.isEmpty then some none
  else (wordSize? w pointee).map fun _ => pathOffset? w pointee path

/-- The type reached by stepping into a value of type `t`. An unknown index is enough for an array
and never for a structure. -/
def walkType? : Ty → List (Option Int) → Option Ty
  | t, [] => some t
  | .array elem _, _ :: rest => walkType? elem rest
  | .struct fields, some (.ofNat index) :: rest => do
    let field ← fields[index]?
    walkType? field rest
  | _, _ :: _ => none

/-- The type of the address that a path from a pointer to `pointee` computes. -/
def pathType? (pointee : Ty) : List (Option Int) → Option Ty
  | [] => none
  | _ :: rest => (walkType? pointee rest).map Ty.ptr

end Layout

end PointerGuard
