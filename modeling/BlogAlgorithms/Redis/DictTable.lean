import BlogAlgorithms.Lib.Buckets
import BlogAlgorithms.Redis.Dict
import Mathlib.Data.Nat.Bitwise

namespace BlogAlgorithms.Redis
open C

namespace Dictht
variable {K V : Type}

/-- The number of buckets is a power of two that an `unsigned long` can hold. -/
def Sized (ht : Dictht K V) : Prop := ∃ k, 2 ≤ k ∧ k ≤ 63 ∧ ht.size = 2 ^ k

/-- Every entry is in the bucket of its hash and the count is right. -/
structure Sound (hashFunction : K → BitVec 64) (ht : Dictht K V) : Prop where
  placed : Buckets.Placed (fun e : DictEntry K V => ht.bucket (hashFunction e.key)) ht.table
  count : ht.used = ht.entries.length

theorem Sized.pos {ht : Dictht K V} (sized : ht.Sized) : 0 < ht.size := by
  obtain ⟨k, _, _, size⟩ := sized
  rw [size]
  exact Nat.two_pow_pos k

theorem Sized.bucket_eq {ht : Dictht K V} (sized : ht.Sized) (hash : BitVec 64) :
    ht.bucket hash = hash.toNat % ht.size := by
  obtain ⟨k, _, _, size⟩ := sized
  rw [bucket, sizemask, size, Nat.and_two_pow_sub_one_eq_mod]

theorem Sized.bucket_lt {ht : Dictht K V} (sized : ht.Sized) (hash : BitVec 64) : ht.bucket hash < ht.size := by
  rw [sized.bucket_eq]
  exact Nat.mod_lt _ sized.pos

theorem Sized.chain {ht : Dictht K V} (sized : ht.Sized) (hash : BitVec 64) :
    ∃ chain, ht.table[ht.bucket hash]? = some chain :=
  ⟨_, List.getElem?_eq_getElem (sized.bucket_lt hash)⟩

theorem Sized.of_size_eq {ht other : Dictht K V} (sized : ht.Sized) (same : other.size = ht.size) :
    other.Sized := by
  obtain ⟨k, lower, upper, size⟩ := sized
  exact ⟨k, lower, upper, same.trans size⟩

theorem bucket_of_size_eq {ht other : Dictht K V} (same : other.size = ht.size) (hash : BitVec 64) :
    other.bucket hash = ht.bucket hash := by
  rw [bucket, bucket, sizemask, sizemask, same]

theorem entries_reset : (reset : Dictht K V).entries = [] := rfl

variable {hashFunction : K → BitVec 64}

theorem sound_reset : (reset : Dictht K V).Sound hashFunction :=
  ⟨fun i chain here => by simp [reset] at here, rfl⟩

theorem sound_replicate (n : Nat) :
    ({ table := List.replicate n [], used := 0 } : Dictht K V).Sound hashFunction :=
  ⟨Buckets.placed_replicate _ n, by simp [entries]⟩

/-- What exchanging one chain does to a table. -/
theorem Sound.exchange {ht : Dictht K V} (sound : ht.Sound hashFunction) {idx used : Nat}
    {chain new : List (DictEntry K V)} (here : ht.table[idx]? = some chain)
    (fits : ∀ e ∈ new, ht.bucket (hashFunction e.key) = idx)
    (count : used + chain.length = ht.used + new.length) :
    ({ table := ht.table.set idx new, used := used } : Dictht K V).Sound hashFunction ∧
      (chain ++ (ht.table.set idx new).flatten).Perm (new ++ ht.entries) := by
  have perm := Buckets.flatten_set_perm new here
  have lengths := perm.length_eq
  have counted := sound.count
  have same : ({ table := ht.table.set idx new, used := used } : Dictht K V).size = ht.size := by simp [size]
  refine ⟨⟨?_, ?_⟩, perm⟩
  · have moved := sound.placed.set fits
    intro i other atI e member
    exact (bucket_of_size_eq same _).trans (moved i other atI e member)
  · simp only [List.length_append, entries] at lengths counted ⊢
    omega

theorem Sound.chain_bucket {ht : Dictht K V} (sound : ht.Sound hashFunction) {idx : Nat}
    {chain : List (DictEntry K V)} (here : ht.table[idx]? = some chain) :
    ∀ e ∈ chain, ht.bucket (hashFunction e.key) = idx := sound.placed idx chain here

theorem Sound.push_spec {ht : Dictht K V} (sound : ht.Sound hashFunction) (sized : ht.Sized)
    (entry : DictEntry K V) :
    ∃ next, ht.push (ht.bucket (hashFunction entry.key)) entry = .ok next ∧ next.Sound hashFunction ∧
      next.size = ht.size ∧ next.entries.Perm (entry :: ht.entries) := by
  obtain ⟨chain, here⟩ := sized.chain (hashFunction entry.key)
  have fits : ∀ e ∈ entry :: chain, ht.bucket (hashFunction e.key) = ht.bucket (hashFunction entry.key) := by
    intro e member
    rcases List.mem_cons.mp member with rfl | member
    · rfl
    · exact sound.chain_bucket here e member
  have count : ht.used + 1 + chain.length = ht.used + (entry :: chain).length := by
    simp only [List.length_cons]
    omega
  obtain ⟨next, perm⟩ := sound.exchange here fits count
  refine ⟨_, by rw [push, load_of_getElem here]; rfl, next, by simp [size], ?_⟩
  rw [List.cons_append] at perm
  exact (List.perm_append_left_iff chain).mp (perm.trans List.perm_middle.symm)

section Keyed
variable [DecidableEq K]

/-- Where a lookup by key comes to rest in a chain. -/
theorem find_split {chain : List (DictEntry K V)} {key : K} {he : DictEntry K V}
    (found : (chain.find? fun he => he.key = key) = some he) :
    he.key = key ∧ ∃ front rest, chain = front ++ he :: rest ∧ ∀ e ∈ front, e.key ≠ key := by
  obtain ⟨isKey, front, rest, split, before⟩ := List.find?_eq_some_iff_append.mp found
  refine ⟨by simpa using isKey, front, rest, split, fun e member => ?_⟩
  simpa using before e member

theorem eraseP_split {front rest : List (DictEntry K V)} {key : K} {he : DictEntry K V} (isKey : he.key = key)
    (before : ∀ e ∈ front, e.key ≠ key) : ((front ++ he :: rest).eraseP fun e => e.key = key) = front ++ rest := by
  rw [List.eraseP_append_right _ (by simpa using before)]
  simp [isKey]

theorem assign_split {front rest : List (DictEntry K V)} {key : K} {he : DictEntry K V} (val : V)
    (isKey : he.key = key)
    (before : ∀ e ∈ front, e.key ≠ key) : assign key val (front ++ he :: rest) = front ++ ⟨key, val⟩ :: rest := by
  induction front with
  | nil => simp [assign, isKey]
  | cons first others ih =>
    have here := before first List.mem_cons_self
    rw [List.cons_append, assign, if_neg here, ih fun e member => before e (List.mem_cons_of_mem first member)]
    rfl

theorem Sound.find_spec {ht : Dictht K V} (sound : ht.Sound hashFunction) (sized : ht.Sized) (key : K) :
    ∃ found, ht.find hashFunction key = .ok found ∧ (∀ he, found = some he → he ∈ ht.entries ∧ he.key = key) ∧
      (found = none → ∀ he ∈ ht.entries, he.key ≠ key) := by
  obtain ⟨chain, here⟩ := sized.chain (hashFunction key)
  refine ⟨chain.find? fun he => he.key = key, by rw [find, load_of_getElem here]; rfl, ?_, ?_⟩
  · intro he found
    obtain ⟨isKey, front, rest, split, _⟩ := find_split found
    refine ⟨?_, isKey⟩
    have member : he ∈ chain := by simp [split]
    exact List.mem_flatten.mpr ⟨chain, List.mem_of_getElem? here, member⟩
  · intro absent he member isKey
    have inChain : he ∈ chain := (sound.placed.mem_flatten_iff (by rw [isKey]; exact here)).mp member
    have differs := List.find?_eq_none.mp absent he inChain
    simp [isKey] at differs

theorem Sound.unlink_spec {ht : Dictht K V} (sound : ht.Sound hashFunction) (sized : ht.Sized) (key : K) :
    (ht.unlink hashFunction key = .ok none ∧ ∀ he ∈ ht.entries, he.key ≠ key) ∨
      ∃ he next, ht.unlink hashFunction key = .ok (some (he, next)) ∧ he.key = key ∧ next.Sound hashFunction ∧
        next.size = ht.size ∧ ht.entries.Perm (he :: next.entries) ∧
        ∀ i : Nat, ht.table[i]? = some [] → next.table[i]? = some [] := by
  obtain ⟨chain, here⟩ := sized.chain (hashFunction key)
  obtain ⟨found, find, whenFound, whenAbsent⟩ := sound.find_spec sized key
  have found_eq : (chain.find? fun he => he.key = key) = found := by
    rw [Dictht.find, load_of_getElem here] at find
    exact Except.ok.inj find
  cases found with
  | none =>
    refine Or.inl ⟨?_, whenAbsent rfl⟩
    rw [unlink, load_of_getElem here]
    simp [found_eq]
  | some he =>
    obtain ⟨isKey, front, rest, split, before⟩ := find_split found_eq
    have erased : (chain.eraseP fun e => e.key = key) = front ++ rest := by
      rw [split]
      exact eraseP_split isKey before
    have fits : ∀ e ∈ front ++ rest, ht.bucket (hashFunction e.key) = ht.bucket (hashFunction key) := by
      intro e member
      refine sound.chain_bucket here e ?_
      rw [split]
      rcases List.mem_append.mp member with member | member
      · exact List.mem_append_left _ member
      · exact List.mem_append_right _ (List.mem_cons_of_mem he member)
    have counted : ht.used = ht.entries.length := sound.count
    have inside : he ∈ ht.entries := (whenFound he rfl).1
    have positive := List.length_pos_of_mem inside
    have count : ht.used - 1 + chain.length = ht.used + (front ++ rest).length := by
      simp only [split, List.length_append, List.length_cons]
      omega
    obtain ⟨next, perm⟩ := sound.exchange here fits count
    refine Or.inr ⟨he, _, ?_, isKey, next, by simp [size], ?_, ?_⟩
    · rw [unlink, load_of_getElem here]
      simp [found_eq, erased]
    · have swapped :
          (front ++ rest ++ (he :: (ht.table.set (ht.bucket (hashFunction key)) (front ++ rest)).flatten)).Perm
          (front ++ rest ++ ht.entries) := by
        refine List.Perm.trans ?_ perm
        rw [split]
        simp only [List.append_assoc, List.cons_append]
        refine List.Perm.append_left front ?_
        exact List.perm_middle
      exact ((List.perm_append_left_iff _).mp swapped).symm
    · intro i empty
      rw [List.getElem?_set_ne, empty]
      rintro rfl
      rw [here, split] at empty
      simp at empty

theorem Sound.setVal_spec {ht : Dictht K V} (sound : ht.Sound hashFunction) (sized : ht.Sized) {key : K} (val : V)
    {he : DictEntry K V} (found : ht.find hashFunction key = .ok (some he)) :
    ∃ next rest, ht.setVal hashFunction key val = .ok next ∧ next.Sound hashFunction ∧ next.size = ht.size ∧
      he.key = key ∧ ht.entries.Perm (he :: rest) ∧ next.entries.Perm (⟨key, val⟩ :: rest) ∧
      ∀ i : Nat, ht.table[i]? = some [] → next.table[i]? = some [] := by
  obtain ⟨chain, here⟩ := sized.chain (hashFunction key)
  have found_eq : (chain.find? fun he => he.key = key) = some he := by
    rw [Dictht.find, load_of_getElem here] at found
    exact Except.ok.inj found
  obtain ⟨isKey, front, rest, split, before⟩ := find_split found_eq
  have assigned : assign key val chain = front ++ ⟨key, val⟩ :: rest := by
    rw [split]
    exact assign_split val isKey before
  have fits : ∀ e ∈ front ++ ⟨key, val⟩ :: rest, ht.bucket (hashFunction e.key) = ht.bucket (hashFunction key) := by
    intro e member
    rcases List.mem_append.mp member with member | member
    · exact sound.chain_bucket here e (by rw [split]; exact List.mem_append_left _ member)
    · rcases List.mem_cons.mp member with rfl | member
      · rfl
      · exact sound.chain_bucket here e
          (by rw [split]; exact List.mem_append_right _ (List.mem_cons_of_mem he member))
  have count : ht.used + chain.length = ht.used + (front ++ ⟨key, val⟩ :: rest).length := by simp [split]
  obtain ⟨next, perm⟩ := sound.exchange here fits count
  -- what the table holds besides the entry of the key
  obtain ⟨others, entries_perm⟩ : ∃ others, ht.entries.Perm (he :: others) := by
    have inside : he ∈ ht.entries :=
      List.mem_flatten.mpr ⟨chain, List.mem_of_getElem? here, by simp [split]⟩
    obtain ⟨left, right, eq⟩ := List.append_of_mem inside
    exact ⟨left ++ right, by rw [eq]; exact List.perm_middle⟩
  refine ⟨_, others, ?_, next, by simp [size], isKey, entries_perm, ?_, ?_⟩
  · rw [setVal, load_of_getElem here]
    simp only [ok_bind, assigned]
  · have swapped :
        (front ++ he :: rest ++
          (ht.table.set (ht.bucket (hashFunction key)) (front ++ ⟨key, val⟩ :: rest)).flatten).Perm
        (front ++ he :: rest ++ (⟨key, val⟩ :: others)) := by
      refine (split ▸ perm).trans ((List.Perm.append_left _ entries_perm).trans ?_)
      simp only [List.append_assoc, List.cons_append]
      refine List.Perm.append_left front ?_
      exact (List.Perm.cons _ List.perm_middle).trans
        ((List.Perm.swap _ _ _).trans (List.Perm.cons _ List.perm_middle.symm))
    exact (List.perm_append_left_iff _).mp swapped
  · intro i empty
    rw [List.getElem?_set_ne, empty]
    rintro rfl
    rw [here, split] at empty
    simp at empty

end Keyed
end Dictht
end BlogAlgorithms.Redis
