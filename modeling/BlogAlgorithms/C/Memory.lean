import BlogAlgorithms.C.Exec

namespace C

abbrev Bytes := List UInt8

/-- The bytes that `memcpy` reads. -/
def readBytes (mem : Bytes) (start count : Nat) : Exec Bytes :=
  if start + count ≤ mem.length then .ok ((mem.drop start).take count) else .error .outOfBounds

def writeBytes (mem : Bytes) (start : Nat) (bytes : Bytes) : Exec Bytes :=
  if start + bytes.length ≤ mem.length then .ok (mem.take start ++ (bytes ++ mem.drop (start + bytes.length)))
  else .error .outOfBounds

def memmove (mem : Bytes) (dst src count : Nat) : Exec Bytes := do
  let bytes ← readBytes mem src count
  writeBytes mem dst bytes

/-- `realloc` to a new size. What the bytes beyond the old size hold is not specified. -/
def realloc (garbage : Nat → UInt8) (mem : Bytes) (size : Nat) : Bytes :=
  mem.take size ++ (List.range (size - mem.length)).map garbage

variable {front middle back : Bytes} {start count : Nat}

theorem readBytes_append (isStart : start = front.length) (isCount : count = middle.length) :
    readBytes (front ++ (middle ++ back)) start count = .ok middle := by
  subst isStart isCount
  rw [readBytes, if_pos (by simp only [List.length_append]; omega), List.drop_left, List.take_left]

theorem writeBytes_append {bytes : Bytes} (isStart : start = front.length)
    (isCount : bytes.length = middle.length) :
    writeBytes (front ++ (middle ++ back)) start bytes = .ok (front ++ (bytes ++ back)) := by
  subst isStart
  rw [writeBytes, if_pos (by simp only [List.length_append]; omega), List.take_left, isCount, ← List.drop_drop,
    List.drop_left, List.drop_left]

/-- Moving a tail up over fresh bytes leaves a hole in front of it. -/
theorem memmove_up {dst : Nat} (isDst : dst = front.length + back.length) (isStart : start = front.length)
    (isCount : count = middle.length) :
    ∃ hole, memmove (front ++ (middle ++ back)) dst start count = .ok (front ++ (hole ++ middle)) ∧
      hole.length = back.length := by
  have total : (middle ++ back).length = middle.length + back.length := List.length_append
  refine ⟨(middle ++ back).take back.length, ?_, by rw [List.length_take]; omega⟩
  have split : front ++ (middle ++ back) =
      (front ++ (middle ++ back).take back.length) ++ ((middle ++ back).drop back.length ++ []) := by
    rw [List.append_nil, List.append_assoc, List.take_append_drop]
  rw [memmove, readBytes_append isStart isCount, ok_bind, split,
    writeBytes_append (by rw [List.length_append, List.length_take]; omega) (by rw [List.length_drop]; omega),
    List.append_nil, List.append_assoc]

/-- Moving a tail down over a hole leaves as many bytes behind it. -/
theorem memmove_down {dst : Nat} (isDst : dst = front.length) (isStart : start = front.length + middle.length)
    (isCount : count = back.length) :
    ∃ rest, memmove (front ++ (middle ++ back)) dst start count = .ok (front ++ (back ++ rest)) ∧
      rest.length = middle.length := by
  have total : (middle ++ back).length = middle.length + back.length := List.length_append
  refine ⟨(middle ++ back).drop back.length, ?_, by rw [List.length_drop]; omega⟩
  have reads : readBytes (front ++ (middle ++ back)) start count = .ok back := by
    have regroup : front ++ (middle ++ back) = (front ++ middle) ++ (back ++ []) := by simp
    rw [regroup, readBytes_append (by rw [List.length_append, isStart]) isCount]
  have split : front ++ (middle ++ back) =
      front ++ ((middle ++ back).take back.length ++ (middle ++ back).drop back.length) := by
    rw [List.take_append_drop]
  rw [memmove, reads, ok_bind, split, writeBytes_append isDst (by rw [List.length_take]; omega)]

theorem realloc_grow (garbage : Nat → UInt8) {mem : Bytes} {size : Nat} (larger : mem.length ≤ size) :
    ∃ fresh, realloc garbage mem size = mem ++ fresh ∧ fresh.length = size - mem.length := by
  refine ⟨_, by rw [realloc, List.take_of_length_le larger], ?_⟩
  rw [List.length_map, List.length_range]

theorem realloc_shrink (garbage : Nat → UInt8) {mem : Bytes} {size : Nat} (smaller : size ≤ mem.length) :
    realloc garbage mem size = mem.take size := by
  rw [realloc, Nat.sub_eq_zero_of_le smaller, List.range_zero, List.map_nil, List.append_nil]

end C
