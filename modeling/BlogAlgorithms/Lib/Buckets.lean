import Mathlib.Data.List.Basic
import Mathlib.Data.List.Perm.Basic

namespace Buckets
universe u
variable {E : Type u}

/-- Every entry is in the bucket its index names. -/
def Placed (index : E → Nat) (table : List (List E)) : Prop :=
  ∀ i chain, table[i]? = some chain → ∀ e ∈ chain, index e = i

/-- Exchanging one chain exchanges its entries and keeps all the others. -/
theorem flatten_set_perm {table : List (List E)} {i : Nat} {chain : List E} (new : List E)
    (here : table[i]? = some chain) : (chain ++ (table.set i new).flatten).Perm (new ++ table.flatten) := by
  induction table generalizing i with
  | nil => simp at here
  | cons first rest ih =>
    cases i with
    | zero =>
      obtain rfl : first = chain := by simpa using here
      simp only [List.set_cons_zero, List.flatten_cons]
      exact List.perm_append_comm_assoc _ _ _
    | succ i =>
      have rest' := ih (by simpa using here)
      simp only [List.set_cons_succ, List.flatten_cons]
      exact (List.perm_append_comm_assoc _ _ _).trans
        ((rest'.append_left first).trans (List.perm_append_comm_assoc _ _ _))

theorem Placed.set {index : E → Nat} {table : List (List E)} {i : Nat} {new : List E}
    (placed : Placed index table) (fits : ∀ e ∈ new, index e = i) : Placed index (table.set i new) := by
  intro j chain here e member
  rw [List.getElem?_set] at here
  split at here
  · rename_i same
    split at here
    · obtain rfl := Option.some.inj here
      exact same ▸ fits e member
    · cases here
  · exact placed j chain here e member

theorem placed_replicate (index : E → Nat) (n : Nat) : Placed index (List.replicate n []) := by
  intro i chain here e member
  obtain rfl := List.eq_of_mem_replicate (List.mem_of_getElem? here)
  cases member

/-- A lookup only has to search the bucket of the index. -/
theorem Placed.mem_flatten_iff {index : E → Nat} {table : List (List E)} {e : E} {chain : List E}
    (placed : Placed index table) (here : table[index e]? = some chain) : e ∈ table.flatten ↔ e ∈ chain := by
  constructor
  · intro member
    obtain ⟨other, isChain, inOther⟩ := List.mem_flatten.mp member
    obtain ⟨j, atJ⟩ := List.mem_iff_getElem?.mp isChain
    obtain rfl := placed j other atJ e inOther
    obtain rfl := Option.some.inj (here.symm.trans atJ)
    exact inOther
  · exact fun member => List.mem_flatten.mpr ⟨chain, List.mem_of_getElem? here, member⟩

end Buckets
