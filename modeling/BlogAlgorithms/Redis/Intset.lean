import BlogAlgorithms.C.Memory
import BlogAlgorithms.Lib.LittleEndian

namespace BlogAlgorithms.Redis
open C LittleEndian

/-- The integer set of `intset.c`: a sorted array of integers that are all stored
in the narrowest of three widths that has been needed so far. The header holds
`encoding` and `length`, which are 32 bits wide. -/
structure Intset where
  encoding : Nat
  length : Nat
  contents : Bytes
  deriving DecidableEq, Repr

def intsetEncInt16 : Nat := 2

def intsetEncInt32 : Nat := 4

def intsetEncInt64 : Nat := 8

/-- What a `uint32_t` keeps of a number. -/
def uint32 (n : Nat) : Nat := n % 4294967296

def intsetValueEncoding (v : Int) : Nat :=
  if v < -2147483648 ∨ v > 2147483647 then intsetEncInt64
  else if v < -32768 ∨ v > 32767 then intsetEncInt32
  else intsetEncInt16

/-- The size of the integers that the code takes the contents for. -/
def recordSize (encoding : Nat) : Nat :=
  if encoding = intsetEncInt64 then 8 else if encoding = intsetEncInt32 then 4 else 2

namespace Intset

/-- The first position that an `int` holds as a negative number. -/
def intLimit : Nat := 2147483648

/-- A position as the `int` that it is passed in. The record at a negative one
would lie in front of the contents. -/
def intPosition (pos : Nat) : Exec Nat :=
  if uint32 pos < intLimit then .ok (uint32 pos) else .error .outOfBounds

def intsetGetEncoded (is : Intset) (pos enc : Nat) : Exec Int := do
  let pos ← intPosition pos
  let bytes ← readBytes is.contents (pos * recordSize enc) (recordSize enc)
  .ok (signedValue bytes)

def intsetGet (is : Intset) (pos : Nat) : Exec Int := is.intsetGetEncoded pos is.encoding

def intsetSet (is : Intset) (pos : Nat) (value : Int) : Exec Intset := do
  let pos ← intPosition pos
  let contents ← writeBytes is.contents (pos * recordSize is.encoding) (signedBytes (recordSize is.encoding) value)
  .ok { is with contents := contents }

def intsetNew : Intset := { encoding := intsetEncInt16, length := 0, contents := [] }

/-- The binary search, with the position and the value it has looked at last. The
result is the flag and the position that `intsetSearch` returns. -/
def searchLoop (is : Intset) (value : Int) : Nat → Int → Int → Int → Int → Exec (Bool × Nat)
  | 0, _, _, _, _ => .error .unbounded
  | fuel + 1, min, max, mid, cur =>
    if max ≥ min then do
      let mid := (min + max) / 2
      let cur ← is.intsetGet mid.toNat
      if value > cur then searchLoop is value fuel (mid + 1) max mid cur
      else if value < cur then searchLoop is value fuel min (mid - 1) mid cur
      else .ok (true, mid.toNat)
    else if value = cur then .ok (true, mid.toNat)
    else .ok (false, min.toNat)

def intsetSearch (is : Intset) (value : Int) : Exec (Bool × Nat) :=
  if is.length = 0 then .ok (false, 0)
  else do
    let last ← is.intsetGet (is.length - 1)
    if value > last then .ok (false, is.length)
    else do
      let first ← is.intsetGet 0
      if value < first then .ok (false, 0)
      else is.searchLoop value (is.length + 1) 0 (is.length - 1) (-1) (-1)

/-- The loop of `intsetUpgradeAndAdd`, from the last integer to the first. -/
def upgradeLoop (curenc prepend : Nat) : Nat → Intset → Exec Intset
  | 0, is => .ok is
  | length + 1, is => do
    let value ← is.intsetGetEncoded length curenc
    let is ← is.intsetSet (length + prepend) value
    upgradeLoop curenc prepend length is

def intsetMoveTail (is : Intset) (src dst : Nat) : Exec Intset := do
  let size := recordSize is.encoding
  let contents ← memmove is.contents (dst * size) (src * size) (uint32 ((is.length - src) * size))
  .ok { is with contents := contents }

section Memory
variable (garbage : Nat → UInt8)

def intsetResize (is : Intset) (len : Nat) : Intset :=
  { is with contents := realloc garbage is.contents (uint32 (len * is.encoding)) }

def intsetUpgradeAndAdd (is : Intset) (value : Int) : Exec Intset := do
  let curenc := is.encoding
  let prepend := if value < 0 then 1 else 0
  let is := { is with encoding := intsetValueEncoding value }
  let is := is.intsetResize garbage (is.length + 1)
  let is ← upgradeLoop curenc prepend is.length is
  let is ← if prepend = 1 then is.intsetSet 0 value else is.intsetSet is.length value
  .ok { is with length := uint32 (is.length + 1) }

/-- The flag tells whether the value is new. -/
def intsetAdd (is : Intset) (value : Int) : Exec (Intset × Bool) := do
  if is.encoding < intsetValueEncoding value then do
    let is ← is.intsetUpgradeAndAdd garbage value
    .ok (is, true)
  else do
    let (found, pos) ← is.intsetSearch value
    if found then .ok (is, false)
    else do
      let is := is.intsetResize garbage (is.length + 1)
      let is ← if pos < is.length then is.intsetMoveTail pos (pos + 1) else .ok is
      let is ← is.intsetSet pos value
      .ok ({ is with length := uint32 (is.length + 1) }, true)

/-- The flag tells whether the value was there. -/
def intsetRemove (is : Intset) (value : Int) : Exec (Intset × Bool) := do
  if intsetValueEncoding value ≤ is.encoding then do
    let (found, pos) ← is.intsetSearch value
    if found then do
      let len := is.length
      let is ← if pos < len - 1 then is.intsetMoveTail (pos + 1) pos else .ok is
      .ok ({ is.intsetResize garbage (len - 1) with length := len - 1 }, true)
    else .ok (is, false)
  else .ok (is, false)

end Memory

def intsetFind (is : Intset) (value : Int) : Exec Bool :=
  if intsetValueEncoding value ≤ is.encoding then do
    let (found, _) ← is.intsetSearch value
    .ok found
  else .ok false

/-- `intsetRandom`, where `rand` is the result of `rand()`. -/
def intsetRandom (is : Intset) (rand : Nat) : Exec Int :=
  if is.length = 0 then .error .assertion else is.intsetGet (rand % is.length)

/-- The exported `intsetGet`, which checks the position. -/
def intsetGetChecked (is : Intset) (pos : Nat) : Exec (Option Int) :=
  if pos < is.length then do
    let value ← is.intsetGet pos
    .ok (some value)
  else .ok none

/-- The blob as it lies in memory and is saved. -/
def blob (is : Intset) : Bytes := bytes 4 is.encoding ++ (bytes 4 is.length ++ is.contents)

/-- The loop of `intsetValidateIntegrity` over the integers from `i` on. -/
def validateLoop (is : Intset) : Nat → Nat → Int → Exec Bool
  | 0, _, _ => .ok true
  | more + 1, i, prev => do
    let cur ← is.intsetGet i
    if cur ≤ prev then .ok false else validateLoop is more (i + 1) cur

def intsetValidateIntegrity (p : Bytes) (deep : Bool) : Exec Bool := do
  if p.length < 8 then .ok false
  else do
    let encoding := value (p.take 4)
    let count := value ((p.drop 4).take 4)
    if encoding ≠ intsetEncInt64 ∧ encoding ≠ intsetEncInt32 ∧ encoding ≠ intsetEncInt16 then .ok false
    else if 8 + count * encoding ≠ p.length then .ok false
    else if count = 0 then .ok false
    else if !deep then .ok true
    else do
      let is : Intset := { encoding := encoding, length := count, contents := p.drop 8 }
      let prev ← is.intsetGet 0
      is.validateLoop (count - 1) 1 prev

end Intset

end BlogAlgorithms.Redis
