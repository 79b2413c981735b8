import BlogAlgorithms.C.Memory
import BlogAlgorithms.Lib.Ring

namespace BlogAlgorithms.Redis
open C Ring

/-- `server.repl_backlog` and the fields that go with it: a circular buffer with the last
bytes that a server has sent to its replicas. -/
structure Backlog where
  size : Nat
  buffer : Bytes
  idx : Nat
  histlen : Nat
  off : Int
  deriving DecidableEq, Repr

namespace Backlog

/-- `memory` is what the allocator returns for the configured size. -/
def createReplicationBacklog (memory : Bytes) (masterReplOffset : Nat) : Backlog :=
  { size := memory.length, buffer := memory, idx := 0, histlen := 0, off := masterReplOffset + 1 }

def feedLoop : Nat → Backlog → Bytes → Exec Backlog
  | 0, _, _ => .error .unbounded
  | fuel + 1, b, p =>
    if p.length = 0 then .ok b
    else do
      let thislen := if b.size - b.idx > p.length then p.length else b.size - b.idx
      let buffer ← writeBytes b.buffer b.idx (p.take thislen)
      let idx := b.idx + thislen
      feedLoop fuel
        { b with buffer := buffer, idx := if idx = b.size then 0 else idx, histlen := b.histlen + thislen }
        (p.drop thislen)

/-- The result is the backlog and the new `server.master_repl_offset`. -/
def feedReplicationBacklog (b : Backlog) (masterReplOffset : Nat) (p : Bytes) : Exec (Backlog × Nat) := do
  let offset := masterReplOffset + p.length
  let b ← feedLoop (p.length + 1) b p
  let histlen := if b.histlen > b.size then b.size else b.histlen
  .ok ({ b with histlen := histlen, off := offset - histlen + 1 }, offset)

/-- The two parts of a reply that crosses the end of the buffer. -/
def replyLoop (b : Backlog) : Nat → Int → Int → Exec Bytes
  | 0, _, _ => .error .unbounded
  | fuel + 1, j, len =>
    if len = 0 then .ok []
    else do
      let thislen := if b.size - j < len then b.size - j else len
      let part ← if j < 0 ∨ thislen < 0 then .error .outOfBounds else readBytes b.buffer j.toNat thislen.toNat
      let rest ← replyLoop b fuel 0 (len - thislen)
      .ok (part ++ rest)

/-- The bytes that are added to the reply. -/
def addReplyReplicationBacklog (b : Backlog) (offset : Int) : Exec Bytes :=
  if b.histlen = 0 then .ok []
  else
    let skip := offset - b.off
    let j := (b.idx + ((b.size : Int) - b.histlen)).tmod b.size
    let j := (j + skip).tmod b.size
    b.replyLoop (b.size + 1) j (b.histlen - skip)

/-- The backlog holds the last bytes of a stream that ends at `offset`. -/
structure Holds (b : Backlog) (stream : Bytes) (offset : Nat) : Prop where
  size_eq : b.buffer.length = b.size
  recent : Recent b.buffer b.idx stream b.histlen
  full : b.histlen ≤ b.size
  reached : b.histlen ≤ offset
  off_eq : b.off = offset - b.histlen + 1

section Spec
variable {b : Backlog} {stream p : Bytes} {offset : Nat}

theorem holds_create {memory : Bytes} (nonempty : memory ≠ []) (stream : Bytes) (offset : Nat) :
    (createReplicationBacklog memory offset).Holds stream offset :=
  ⟨rfl, recent_empty (List.length_pos_of_ne_nil nonempty) stream, Nat.zero_le _, Nat.zero_le _,
    by simp [createReplicationBacklog]⟩

theorem feedLoop_spec (fuel : Nat) (enough : p.length < fuel) (size_eq : b.buffer.length = b.size)
    (recent : Recent b.buffer b.idx stream b.histlen) :
    ∃ b', feedLoop fuel b p = .ok b' ∧ b'.size = b.size ∧ b'.buffer.length = b.size ∧
      b'.histlen = b.histlen + p.length ∧ Recent b'.buffer b'.idx (stream ++ p) b'.histlen := by
  induction fuel generalizing b p stream with
  | zero => omega
  | succ fuel ih =>
    rw [feedLoop]
    split
    · rename_i done
      have none : p = [] := List.length_eq_zero_iff.mp done
      subst none
      exact ⟨b, rfl, rfl, size_eq, rfl, by rwa [List.append_nil]⟩
    · rename_i more
      have idx_lt := recent.idx_lt
      generalize isLen : (if b.size - b.idx > p.length then p.length else b.size - b.idx) = thislen
      have bounds : 0 < thislen ∧ thislen ≤ p.length ∧ b.idx + thislen ≤ b.size := by
        rw [← isLen]
        split <;> omega
      have chunk : (p.take thislen).length = thislen := List.length_take_of_le bounds.2.1
      have writes : writeBytes b.buffer b.idx (p.take thislen) =
          .ok (overwrite b.buffer b.idx (p.take thislen)) := by
        rw [writeBytes, if_pos (by omega), overwrite]
      have fits : b.idx + (p.take thislen).length ≤ b.buffer.length := by omega
      have wrote := recent.write fits
      rw [chunk, size_eq] at wrote
      simp only [writes, ok_bind]
      obtain ⟨b', runs, size', length', histlen', recent'⟩ := ih
        (b := { b with
          buffer := overwrite b.buffer b.idx (p.take thislen)
          idx := if b.idx + thislen = b.size then 0 else b.idx + thislen
          histlen := b.histlen + thislen })
        (p := p.drop thislen) (by rw [List.length_drop]; omega) (by rw [length_overwrite fits, size_eq]) wrote
      refine ⟨b', runs, size', length', ?_, ?_⟩
      · change b'.histlen = b.histlen + thislen + (p.drop thislen).length at histlen'
        rw [histlen', List.length_drop]
        omega
      · rwa [List.append_assoc, List.take_append_drop] at recent'

theorem feed_spec (holds : b.Holds stream offset) (p : Bytes) :
    ∃ b', b.feedReplicationBacklog offset p = .ok (b', offset + p.length) ∧
      b'.Holds (stream ++ p) (offset + p.length) ∧ b'.size = b.size ∧
        b'.histlen = min b.size (b.histlen + p.length) := by
  obtain ⟨b', runs, size', length', histlen', recent'⟩ :=
    feedLoop_spec (p.length + 1) (Nat.lt_succ_self _) holds.size_eq holds.recent
  have reached := holds.reached
  rw [feedReplicationBacklog]
  simp only [runs, ok_bind]
  refine ⟨_, rfl, ⟨length'.trans size'.symm, ?_, ?_, ?_, rfl⟩, size', ?_⟩
  · exact recent'.mono (by simp only; split <;> omega)
  · simp only
    split <;> omega
  · simp only
    split <;> omega
  · simp only
    split <;> omega

/-- The part of a reply that does not cross the end of the buffer. -/
theorem replyLoop_straight (size_eq : b.buffer.length = b.size) {fuel j len : Nat} (enough : len < fuel + 1)
    (inside : j + len ≤ b.size) : b.replyLoop (fuel + 1) j len = .ok ((b.buffer.drop j).take len) := by
  rw [replyLoop]
  split
  · rename_i none
    rw [Int.natCast_eq_zero.mp none, List.take_zero]
  · rename_i some
    obtain ⟨fuel, rfl⟩ := Nat.exists_eq_succ_of_ne_zero (show fuel ≠ 0 by omega)
    have notLess : ¬ ((b.size : Int) - j < len) := by omega
    have inRange : ¬ ((j : Int) < 0 ∨ (len : Int) < 0) := by omega
    simp only [if_neg notLess, if_neg inRange, Int.toNat_natCast, Int.sub_self]
    rw [readBytes, if_pos (by omega), ok_bind, replyLoop, if_pos rfl, ok_bind, List.append_nil]

theorem replyLoop_spec (size_eq : b.buffer.length = b.size) {fuel j len : Nat} (enough : len < fuel)
    (start : j < b.size) (fits : len ≤ b.size) : b.replyLoop fuel j len = .ok (window b.buffer j len) := by
  obtain ⟨fuel, rfl⟩ := Nat.exists_eq_succ_of_ne_zero (show fuel ≠ 0 by omega)
  by_cases inside : j + len ≤ b.size
  · rw [replyLoop_straight size_eq enough inside, window, Nat.sub_eq_zero_of_le (by omega), List.take_zero,
      List.append_nil]
  · obtain ⟨fuel, rfl⟩ := Nat.exists_eq_succ_of_ne_zero (show fuel ≠ 0 by omega)
    have less : (b.size : Int) - j < len := by omega
    have rest : (len : Int) - (b.size - j) = ((len - (b.size - j) : Nat) : Int) := by omega
    have inRange : ¬ ((j : Int) < 0 ∨ (b.size : Int) - j < 0) := by omega
    rw [replyLoop, if_neg (by omega)]
    simp only [if_pos less, if_neg inRange, rest, Int.toNat_natCast,
      show ((b.size : Int) - j).toNat = b.size - j by omega]
    have second := replyLoop_straight size_eq (j := 0) (show len - (b.size - j) < fuel + 1 by omega) (by omega)
    rw [readBytes, if_pos (by omega), ok_bind, show (0 : Int) = ((0 : Nat) : Int) from rfl, second, ok_bind, window,
      List.drop_zero]
    rw [List.take_of_length_le (show (b.buffer.drop j).length ≤ b.size - j by rw [List.length_drop, size_eq]),
      List.take_of_length_le (show (b.buffer.drop j).length ≤ len by rw [List.length_drop]; omega), size_eq]

/-- A reply from a position within the window is the rest of the stream from there. -/
theorem addReply_spec (holds : b.Holds stream offset) {q : Int} (lower : b.off ≤ q)
    (upper : q ≤ b.off + b.histlen) :
    b.addReplyReplicationBacklog q = .ok (stream.drop (stream.length - (offset + 1 - q).toNat)) := by
  have off_eq := holds.off_eq
  have full := holds.full
  have size_eq := holds.size_eq
  have idx_lt := holds.recent.idx_lt
  rw [addReplyReplicationBacklog]
  split
  · rename_i none
    rw [show (offset + 1 - q).toNat = 0 by omega, Nat.sub_zero, List.drop_length]
  · rename_i some
    obtain ⟨skip, isSkip⟩ : ∃ skip : Nat, q - b.off = skip := ⟨(q - b.off).toNat, by omega⟩
    obtain ⟨len, isLen⟩ : ∃ len : Nat, (b.histlen : Int) - skip = len := ⟨b.histlen - skip, by omega⟩
    have start : ((b.idx + ((b.size : Int) - b.histlen)).tmod b.size + skip).tmod b.size =
        (((b.idx + b.size - len) % b.size : Nat) : Int) := by
      rw [show b.idx + ((b.size : Int) - b.histlen) = ((b.idx + (b.size - b.histlen) : Nat) : Int) by omega,
        ← Int.ofNat_tmod, ← Int.natCast_add, ← Int.ofNat_tmod, Nat.mod_add_mod]
      congr 2
      omega
    simp only [isSkip, isLen, start]
    rw [replyLoop_spec size_eq (by omega) (Nat.mod_lt _ (by omega)) (by omega), ← size_eq,
      holds.recent.window_eq (by omega) (by omega), show (offset + 1 - q).toNat = len by omega]

/-- The stream as the commands add to it. -/
def feeds (b : Backlog) (offset : Nat) : List Bytes → Exec (Backlog × Nat)
  | [] => .ok (b, offset)
  | p :: rest => do
    let (b, offset) ← b.feedReplicationBacklog offset p
    b.feeds offset rest

theorem feeds_spec (holds : b.Holds stream offset) (pieces : List Bytes) :
    ∃ b', b.feeds offset pieces = .ok (b', offset + pieces.flatten.length) ∧
      b'.Holds (stream ++ pieces.flatten) (offset + pieces.flatten.length) ∧
      b'.histlen = min b.size (b.histlen + pieces.flatten.length) := by
  induction pieces generalizing b stream offset with
  | nil => exact ⟨b, rfl, by rwa [List.flatten_nil, List.append_nil], (Nat.min_eq_right holds.full).symm⟩
  | cons p rest ih =>
    obtain ⟨next, fed, holds', size', histlen'⟩ := feed_spec holds p
    obtain ⟨b', runs, holdsEnd, histlenEnd⟩ := ih holds'
    rw [feeds, fed, ok_bind, List.flatten_cons, List.length_append, ← Nat.add_assoc, ← List.append_assoc]
    refine ⟨b', runs, holdsEnd, ?_⟩
    rw [histlenEnd, histlen', size']
    omega

/-- However the stream came in pieces and wherever the buffer has wrapped around, the
reply to a replica that lacks the last `lag` bytes is these bytes, as long as the
buffer is not smaller than that. -/
theorem feeds_addReply (memory : Bytes) (nonempty : memory ≠ []) (offset : Nat) (pieces : List Bytes) :
    ∃ b, (createReplicationBacklog memory offset).feeds offset pieces = .ok (b, offset + pieces.flatten.length) ∧
      ∀ lag ≤ min memory.length pieces.flatten.length,
        b.addReplyReplicationBacklog (offset + pieces.flatten.length - lag + 1) =
          .ok (pieces.flatten.drop (pieces.flatten.length - lag)) := by
  obtain ⟨b, runs, holds, histlen⟩ := feeds_spec (holds_create nonempty [] offset) pieces
  refine ⟨b, runs, fun lag le => ?_⟩
  have off_eq := holds.off_eq
  change b.histlen = min memory.length (0 + pieces.flatten.length) at histlen
  rw [addReply_spec holds (by omega) (by omega), List.nil_append]
  congr 3
  omega

/-- The reply begins with the last byte of the buffer and goes on with the first two. -/
theorem feeds_addReply_wraps :
    ∃ b, (createReplicationBacklog [0, 0, 0] 10).feeds 10 [[1, 2], [3, 4], [5]] = .ok (b, 15) ∧
      b.addReplyReplicationBacklog 13 = .ok [3, 4, 5] := by
  obtain ⟨b, runs, replies⟩ := feeds_addReply [0, 0, 0] (by decide) 10 [[1, 2], [3, 4], [5]]
  exact ⟨b, runs, replies 3 (by decide)⟩

end Spec

end Backlog

end BlogAlgorithms.Redis
