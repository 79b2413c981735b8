import Mathlib.Data.List.Basic
import Mathlib.Data.Nat.ModEq

namespace Ring
variable {α : Type} {buffer stream chunk : List α} {idx n : Nat}

/-- The `n` elements before `idx`, or all of them when the buffer is smaller, are
the last ones of the stream. -/
structure Recent (buffer : List α) (idx : Nat) (stream : List α) (n : Nat) : Prop where
  idx_lt : idx < buffer.length
  enough : n ≤ stream.length
  recent : ∀ i < n, i < buffer.length →
    buffer[(idx + buffer.length - 1 - i) % buffer.length]? = stream[stream.length - 1 - i]?

theorem recent_empty (nonempty : 0 < buffer.length) (stream : List α) : Recent buffer 0 stream 0 :=
  ⟨nonempty, Nat.zero_le _, fun _ below => absurd below (Nat.not_lt_zero _)⟩

theorem Recent.mono {m : Nat} (recent : Recent buffer idx stream n) (le : m ≤ n) : Recent buffer idx stream m :=
  ⟨recent.idx_lt, le.trans recent.enough, fun i below => recent.recent i (below.trans_le le)⟩

/-- The buffer after `chunk` has been written at `idx`. -/
def overwrite (buffer : List α) (idx : Nat) (chunk : List α) : List α :=
  buffer.take idx ++ (chunk ++ buffer.drop (idx + chunk.length))

theorem length_overwrite (fits : idx + chunk.length ≤ buffer.length) :
    (overwrite buffer idx chunk).length = buffer.length := by
  rw [overwrite, List.length_append, List.length_append, List.length_take, List.length_drop]
  omega

theorem overwrite_inside (fits : idx + chunk.length ≤ buffer.length) {j : Nat} (inside : j < chunk.length) :
    (overwrite buffer idx chunk)[idx + j]? = chunk[j]? := by
  have front : (buffer.take idx).length = idx := List.length_take_of_le (by omega)
  rw [overwrite, List.getElem?_append_right (by omega), front, Nat.add_sub_cancel_left,
    List.getElem?_append_left inside]

theorem overwrite_outside (fits : idx + chunk.length ≤ buffer.length) {j : Nat}
    (outside : j < idx ∨ idx + chunk.length ≤ j) : (overwrite buffer idx chunk)[j]? = buffer[j]? := by
  have front : (buffer.take idx).length = idx := List.length_take_of_le (by omega)
  rw [overwrite]
  rcases outside with before | after
  · rw [List.getElem?_append_left (by omega), List.getElem?_take_of_lt before]
  · rw [List.getElem?_append_right (by omega), List.getElem?_append_right (by omega), List.getElem?_drop, front]
    congr 1
    omega

/-- Where the element `i` before `idx` lies. -/
theorem position_eq {size i : Nat} (idx_lt : idx < size) (i_lt : i < size) :
    (idx + size - 1 - i) % size = if i < idx then idx - 1 - i else idx + size - 1 - i := by
  split
  · rename_i before
    rw [show idx + size - 1 - i = idx - 1 - i + size by omega, Nat.add_mod_right, Nat.mod_eq_of_lt (by omega)]
  · rw [Nat.mod_eq_of_lt (by omega)]

theorem Recent.write (recent : Recent buffer idx stream n) (fits : idx + chunk.length ≤ buffer.length) :
    Recent (overwrite buffer idx chunk) (if idx + chunk.length = buffer.length then 0 else idx + chunk.length)
      (stream ++ chunk) (n + chunk.length) := by
  have idx_lt := recent.idx_lt
  have enough := recent.enough
  have wrapped : ∀ i, i < buffer.length →
      ((if idx + chunk.length = buffer.length then 0 else idx + chunk.length) + buffer.length - 1 - i) %
        buffer.length =
      if i < idx + chunk.length then idx + chunk.length - 1 - i
      else idx + chunk.length + buffer.length - 1 - i := by
    intro i below
    split
    · rw [position_eq (by omega) below]
      split <;> split <;> omega
    · exact position_eq (by omega) below
  refine ⟨?_, ?_, fun i below inside => ?_⟩
  · rw [length_overwrite fits]
    split <;> omega
  · rw [List.length_append]
    omega
  · rw [length_overwrite fits] at inside ⊢
    rw [wrapped i inside, List.length_append]
    by_cases new : i < chunk.length
    · rw [if_pos (by omega), show idx + chunk.length - 1 - i = idx + (chunk.length - 1 - i) by omega,
        overwrite_inside fits (by omega), List.getElem?_append_right (by omega)]
      congr 1
      omega
    · have old := recent.recent (i - chunk.length) (by omega) (by omega)
      rw [position_eq idx_lt (by omega)] at old
      rw [overwrite_outside fits (by split <;> omega), List.getElem?_append_left (by omega),
        show stream.length + chunk.length - 1 - i = stream.length - 1 - (i - chunk.length) by omega, ← old]
      congr 1
      split <;> split <;> omega

/-- The `len` elements from position `j` on, over the end of the buffer. -/
def window (buffer : List α) (j len : Nat) : List α :=
  (buffer.drop j).take len ++ buffer.take (len - (buffer.length - j))

theorem window_getElem? {j len k : Nat} (start : j < buffer.length) (inside : k < len) :
    (window buffer j len)[k]? = buffer[if j + k < buffer.length then j + k else j + k - buffer.length]? := by
  have front : ((buffer.drop j).take len).length = min len (buffer.length - j) := by
    rw [List.length_take, List.length_drop]
  rw [window]
  split
  · rw [List.getElem?_append_left (by omega), List.getElem?_take_of_lt inside, List.getElem?_drop]
  · rw [List.getElem?_append_right (by omega), front, List.getElem?_take_of_lt (by omega)]
    congr 1
    omega

theorem length_window {j len : Nat} (start : j < buffer.length) (fits : len ≤ buffer.length) :
    (window buffer j len).length = len := by
  rw [window, List.length_append, List.length_take, List.length_drop, List.length_take]
  omega

/-- Reading the right number of elements up to `idx` gives the end of the stream. -/
theorem Recent.window_eq (recent : Recent buffer idx stream n) {len : Nat} (le : len ≤ n)
    (fits : len ≤ buffer.length) :
    window buffer ((idx + buffer.length - len) % buffer.length) len = stream.drop (stream.length - len) := by
  have idx_lt := recent.idx_lt
  have enough := recent.enough
  have start : (idx + buffer.length - len) % buffer.length =
      if len ≤ idx then idx - len else idx + buffer.length - len := by
    split
    · rw [show idx + buffer.length - len = idx - len + buffer.length by omega, Nat.add_mod_right,
        Nat.mod_eq_of_lt (by omega)]
    · exact Nat.mod_eq_of_lt (by omega)
  have start_lt : (idx + buffer.length - len) % buffer.length < buffer.length := Nat.mod_lt _ (by omega)
  refine List.ext_getElem? fun k => ?_
  by_cases inside : k < len
  · have here := recent.recent (len - 1 - k) (by omega) (by omega)
    rw [position_eq idx_lt (by omega)] at here
    rw [window_getElem? start_lt inside, List.getElem?_drop,
      show stream.length - len + k = stream.length - 1 - (len - 1 - k) by omega, ← here, start]
    congr 1
    split <;> split <;> split <;> omega
  · rw [List.getElem?_eq_none (by rw [length_window start_lt fits]; omega),
      List.getElem?_eq_none (by rw [List.length_drop]; omega)]

end Ring
