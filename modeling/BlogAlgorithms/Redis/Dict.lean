import BlogAlgorithms.C.Exec
import Mathlib.Algebra.Group.Nat.Defs

namespace BlogAlgorithms.Redis
open C

structure DictEntry (K V : Type) where
  key : K
  val : V
  deriving DecidableEq, Repr

/-- One hash table. The stored size and mask are those of the table, and a NULL
table is one without buckets. -/
structure Dictht (K V : Type) where
  table : List (List (DictEntry K V))
  used : Nat
  deriving DecidableEq, Repr

/-- The dictionary of `dict.c`: two hash tables with chaining, and a rehash that
moves the buckets of the first into the second a few at a time. Without a rehash
there is no `rehashidx` (the source stores -1). -/
structure Dict (K V : Type) where
  ht0 : Dictht K V
  ht1 : Dictht K V
  rehashidx : Option Nat
  pauserehash : Int
  deriving DecidableEq, Repr

/-- What the server decides outside the dictionary: the global `dict_can_resize`
and the answer of the type's `expandAllowed`. -/
structure Settings where
  canResize : Bool
  expandAllowed : Bool
  deriving DecidableEq, Repr

def dictHtInitialSize : Nat := 4

def dictForceResizeRatio : Nat := 5

def longMax : Nat := 0x7fffffffffffffff

namespace Dictht
variable {K V : Type}

def size (ht : Dictht K V) : Nat := ht.table.length

def sizemask (ht : Dictht K V) : Nat := ht.size - 1

/-- `_dictReset`. -/
def reset : Dictht K V := { table := [], used := 0 }

def entries (ht : Dictht K V) : List (DictEntry K V) := ht.table.flatten

/-- The bucket of a hash, `hash & sizemask`. -/
def bucket (ht : Dictht K V) (hash : BitVec 64) : Nat := hash.toNat &&& ht.sizemask

/-- A new entry goes in front of its chain. -/
def push (ht : Dictht K V) (idx : Nat) (entry : DictEntry K V) : Exec (Dictht K V) := do
  let chain ← load ht.table idx
  .ok { table := ht.table.set idx (entry :: chain), used := ht.used + 1 }

section Keyed
variable [DecidableEq K]

/-- The value written into the first entry of a chain with the key. -/
def assign (key : K) (val : V) : List (DictEntry K V) → List (DictEntry K V)
  | [] => []
  | he :: rest => if he.key = key then { he with val := val } :: rest else he :: assign key val rest

variable (hashFunction : K → BitVec 64)

def find (ht : Dictht K V) (key : K) : Exec (Option (DictEntry K V)) := do
  let chain ← load ht.table (ht.bucket (hashFunction key))
  .ok (chain.find? fun he => he.key = key)

/-- The entry of the key leaves its chain. -/
def unlink (ht : Dictht K V) (key : K) : Exec (Option (DictEntry K V × Dictht K V)) := do
  let idx := ht.bucket (hashFunction key)
  let chain ← load ht.table idx
  match chain.find? fun he => he.key = key with
  | none => .ok none
  | some he =>
    .ok (some (he, { table := ht.table.set idx (chain.eraseP fun he => he.key = key), used := ht.used - 1 }))

/-- `dictSetVal` on the entry of the key. -/
def setVal (ht : Dictht K V) (key : K) (val : V) : Exec (Dictht K V) := do
  let idx := ht.bucket (hashFunction key)
  let chain ← load ht.table idx
  .ok { ht with table := ht.table.set idx (assign key val chain) }

end Keyed
end Dictht

/-- The doublings of `_dictNextPower`. They end below `LONG_MAX + 1`, after at
most 61 of them. -/
def nextPowerFrom (size : Nat) : Nat → Nat → Nat
  | 0, i => i
  | more + 1, i => if size ≤ i then i else nextPowerFrom size more (i * 2)

def dictNextPower (size : Nat) : Nat :=
  if longMax ≤ size then longMax + 1 else nextPowerFrom size 61 dictHtInitialSize

/-- Where `_dictKeyIndex` finds the place for a key: refused by a failed
expansion, taken by an entry of one of the tables, or free. -/
inductive KeyIndex
  | refused
  | existing (second : Bool)
  | free (idx : Nat)
  deriving DecidableEq, Repr

namespace Dict
variable {K V : Type}

def dictCreate : Dict K V := { ht0 := .reset, ht1 := .reset, rehashidx := none, pauserehash := 0 }

def dictIsRehashing (d : Dict K V) : Bool := d.rehashidx.isSome

def dictSize (d : Dict K V) : Nat := d.ht0.used + d.ht1.used

/-- The field is an `int16_t`. -/
def dictPauseRehashing (d : Dict K V) : Dict K V := { d with pauserehash := (d.pauserehash + 1).bmod (2 ^ 16) }

def dictResumeRehashing (d : Dict K V) : Dict K V := { d with pauserehash := (d.pauserehash - 1).bmod (2 ^ 16) }

def entries (d : Dict K V) : List (DictEntry K V) := d.ht0.entries ++ d.ht1.entries

/-- `_dictExpand`; `dictExpand` always gets its memory, `dictTryExpand` may not.
The bytes of the new table, `realsize * sizeof(dictEntry*)`, are those of all its
buckets as long as there are less than `2 ^ 61` of them. -/
def dictExpandWith (d : Dict K V) (size : Nat) (allocates : Bool) : Dict K V × Bool :=
  if d.dictIsRehashing ∨ size < d.ht0.used then (d, false)
  else
    let realsize := dictNextPower size
    if realsize = d.ht0.size then (d, false)
    else if !allocates then (d, false)
    else
      let n : Dictht K V := { table := List.replicate realsize [], used := 0 }
      if d.ht0.table = [] then ({ d with ht0 := n }, true)
      else ({ d with ht1 := n, rehashidx := some 0 }, true)

def dictExpand (d : Dict K V) (size : Nat) : Dict K V × Bool := d.dictExpandWith size true

def dictResize (d : Dict K V) (settings : Settings) : Dict K V × Bool :=
  if !settings.canResize ∨ d.dictIsRehashing then (d, false)
  else d.dictExpand (if d.ht0.used < dictHtInitialSize then dictHtInitialSize else d.ht0.used)

def dictExpandIfNeeded (d : Dict K V) (settings : Settings) : Dict K V × Bool :=
  if d.dictIsRehashing then (d, true)
  else if d.ht0.size = 0 then d.dictExpand dictHtInitialSize
  else if d.ht0.size ≤ d.ht0.used ∧
      (settings.canResize ∨ dictForceResizeRatio < d.ht0.used / d.ht0.size) ∧ settings.expandAllowed then
    d.dictExpand (d.ht0.used + 1)
  else (d, true)

/-- The walk of `dictRehash` over empty buckets. It ends on a bucket with
entries, or without visits left, and then the caller returns. -/
def skipEmpty (table : List (List (DictEntry K V))) : Nat → Nat → Exec (Nat × Nat)
  | 0, _ => .error .unbounded
  | visits + 1, idx => do
    let chain ← load table idx
    if chain.isEmpty then
      if visits = 0 then .ok (idx + 1, 0) else skipEmpty table visits (idx + 1)
    else .ok (idx, visits + 1)

section Hashed
variable (hashFunction : K → BitVec 64)

def moveEntry (d : Dict K V) (de : DictEntry K V) : Exec (Dict K V) := do
  let ht1 ← d.ht1.push (d.ht1.bucket (hashFunction de.key)) de
  .ok { d with ht0 := { d.ht0 with used := d.ht0.used - 1 }, ht1 := ht1 }

/-- The outer loop of `dictRehash`, with the empty visits and the bucket it is
at. The flag tells that the visits ran out. -/
def rehashLoop : Nat → Nat → Nat → Dict K V → Exec (Dict K V × Bool)
  | 0, _, _, d => .ok (d, false)
  | n + 1, visits, idx, d =>
    if d.ht0.used = 0 then .ok (d, false)
    else if d.ht0.size ≤ idx then .error .assertion
    else do
      let (idx, visits) ← skipEmpty d.ht0.table visits idx
      if visits = 0 then .ok ({ d with rehashidx := some idx }, true)
      else do
        let chain ← load d.ht0.table idx
        let d ← chain.foldlM (moveEntry hashFunction) d
        rehashLoop n visits (idx + 1)
          { d with ht0 := { d.ht0 with table := d.ht0.table.set idx [] }, rehashidx := some (idx + 1) }

/-- How often the int `n*10` is decremented before it is 0, also if the product
wraps around. -/
def emptyVisits (n : Nat) : Nat := (n * 10 - 1) % 2 ^ 32 + 1

def dictRehash (d : Dict K V) (n : Nat) : Exec (Dict K V × Bool) :=
  match d.rehashidx with
  | none => .ok (d, false)
  | some idx => do
    let (d, stopped) ← rehashLoop hashFunction n (emptyVisits n) idx d
    if stopped then .ok (d, true)
    else if d.ht0.used = 0 then .ok ({ d with ht0 := d.ht1, ht1 := .reset, rehashidx := none }, false)
    else .ok (d, true)

def dictRehashStep (d : Dict K V) : Exec (Dict K V) :=
  if d.pauserehash = 0 then do
    let (d, _) ← d.dictRehash hashFunction 1
    .ok d
  else .ok d

/-- The step that every operation begins with. -/
def stepIfRehashing (d : Dict K V) : Exec (Dict K V) :=
  if d.dictIsRehashing then d.dictRehashStep hashFunction else .ok d

variable [DecidableEq K]

def dictFind (d : Dict K V) (key : K) : Exec (Dict K V × Option (DictEntry K V)) :=
  if d.dictSize = 0 then .ok (d, none)
  else do
    let d ← d.stepIfRehashing hashFunction
    match ← d.ht0.find hashFunction key with
    | some he => .ok (d, some he)
    | none =>
      if d.dictIsRehashing then do
        let he ← d.ht1.find hashFunction key
        .ok (d, he)
      else .ok (d, none)

def dictKeyIndex (d : Dict K V) (settings : Settings) (key : K) : Exec (Dict K V × KeyIndex) :=
  let (d, expanded) := d.dictExpandIfNeeded settings
  if !expanded then .ok (d, .refused)
  else do
    match ← d.ht0.find hashFunction key with
    | some _ => .ok (d, .existing false)
    | none =>
      if d.dictIsRehashing then do
        match ← d.ht1.find hashFunction key with
        | some _ => .ok (d, .existing true)
        | none => .ok (d, .free (d.ht1.bucket (hashFunction key)))
      else .ok (d, .free (d.ht0.bucket (hashFunction key)))

/-- `dictAddRaw`, with the value that its caller stores in the entry it gets. -/
def dictAddRaw (d : Dict K V) (settings : Settings) (key : K) (val : V) : Exec (Dict K V × KeyIndex) := do
  let d ← d.stepIfRehashing hashFunction
  let (d, index) ← d.dictKeyIndex hashFunction settings key
  match index with
  | .free idx =>
    if d.dictIsRehashing then do
      let ht1 ← d.ht1.push idx { key := key, val := val }
      .ok ({ d with ht1 := ht1 }, index)
    else do
      let ht0 ← d.ht0.push idx { key := key, val := val }
      .ok ({ d with ht0 := ht0 }, index)
  | _ => .ok (d, index)

def dictAdd (d : Dict K V) (settings : Settings) (key : K) (val : V) : Exec (Dict K V × Bool) := do
  let (d, index) ← d.dictAddRaw hashFunction settings key val
  match index with
  | .free _ => .ok (d, true)
  | _ => .ok (d, false)

/-- A key that is there keeps its entry and gets the new value. With a refused
expansion the source would write through a NULL pointer. -/
def dictReplace (d : Dict K V) (settings : Settings) (key : K) (val : V) : Exec (Dict K V × Bool) := do
  let (d, index) ← d.dictAddRaw hashFunction settings key val
  match index with
  | .free _ => .ok (d, true)
  | .existing false => do
    let ht0 ← d.ht0.setVal hashFunction key val
    .ok ({ d with ht0 := ht0 }, false)
  | .existing true => do
    let ht1 ← d.ht1.setVal hashFunction key val
    .ok ({ d with ht1 := ht1 }, false)
  | .refused => .error .outOfBounds

def dictGenericDelete (d : Dict K V) (key : K) : Exec (Dict K V × Option (DictEntry K V)) :=
  if d.ht0.used = 0 ∧ d.ht1.used = 0 then .ok (d, none)
  else do
    let d ← d.stepIfRehashing hashFunction
    match ← d.ht0.unlink hashFunction key with
    | some (he, ht0) => .ok ({ d with ht0 := ht0 }, some he)
    | none =>
      if d.dictIsRehashing then do
        match ← d.ht1.unlink hashFunction key with
        | some (he, ht1) => .ok ({ d with ht1 := ht1 }, some he)
        | none => .ok (d, none)
      else .ok (d, none)

end Hashed

def dictEmpty (_ : Dict K V) : Dict K V := dictCreate

end Dict
end BlogAlgorithms.Redis
