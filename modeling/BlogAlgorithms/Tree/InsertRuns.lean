import BlogAlgorithms.Tree.SearchTree
import Mathlib.Data.List.Induction

namespace BlogAlgorithms.BinarySearchTree
open Java

theorem insert_eq (tree : BinarySearchTree) (value : Int) :
    tree.insert value = .ok (!tree.search value, { Root := tree.Root.place value }) := by
  unfold insert search
  split
  · rename_i empty
    simp [empty, BSTNode.search, BSTNode.place]
  · rename_i present
    simp [BSTNode.insert_eq_place present]

theorem insertAll_concat {tree last after : BinarySearchTree} {values : List Int}
    {answers : List Bool} {value : Int} {inserted : Bool}
    (run : tree.insertAll values = .ok (answers, last))
    (call : last.insert value = .ok (inserted, after)) :
    tree.insertAll (values ++ [value]) = .ok (answers ++ [inserted], after) := by
  induction values generalizing tree answers with
  | nil =>
    obtain ⟨rfl, rfl⟩ := Prod.mk.inj (Except.ok.inj run)
    simp [insertAll, call]
  | cons head rest ih =>
    obtain ⟨⟨flag, next⟩, first, run⟩ := bind_eq_ok.mp run
    obtain ⟨⟨flags, final⟩, tail, run⟩ := bind_eq_ok.mp run
    obtain ⟨rfl, rfl⟩ := Prod.mk.inj (Except.ok.inj run)
    simp [insertAll, first, ih tail]

/-- The tree stores exactly these values, in search order. -/
structure Stores (tree : BinarySearchTree) (values : List Int) : Prop where
  ordered : tree.Root.Ordered
  mem : ∀ value, value ∈ tree.Root.inOrder ↔ value ∈ values

theorem Stores.empty : Stores {} [] where
  ordered := BSTNode.ordered_null
  mem := by simp [BSTNode.inOrder]

theorem Stores.search_iff {tree : BinarySearchTree} {values : List Int}
    (stores : Stores tree values) (value : Int) : tree.search value = true ↔ value ∈ values := by
  rw [← stores.mem value]
  exact BSTNode.search_iff_mem stores.ordered value

/-- One call keeps the order and adds its own value only. -/
theorem Stores.insert {tree : BinarySearchTree} {values : List Int}
    (stores : Stores tree values) (value : Int) :
    Stores { Root := tree.Root.place value } (values ++ [value]) where
  ordered := stores.ordered.place value
  mem := by
    intro other
    rw [BSTNode.mem_place, stores.mem, List.mem_append, List.mem_singleton]
    exact or_comm

/-- The tree that a sequence of insertions grows from the empty one. -/
def grown (values : List Int) : BinarySearchTree := { Root := values.foldl BSTNode.place .null }

theorem grown_concat (values : List Int) (value : Int) :
    grown (values ++ [value]) = { Root := (grown values).Root.place value } := by
  simp only [grown, List.foldl_append, List.foldl_cons, List.foldl_nil]

theorem grown_stores (values : List Int) : Stores (grown values) values := by
  induction values using List.reverseRecOn with
  | nil => exact Stores.empty
  | append_singleton values value ih =>
    rw [grown_concat]
    exact ih.insert value

theorem insertAll_grown (values : List Int) :
    ∃ answers, insertAll {} values = .ok (answers, grown values) := by
  induction values using List.reverseRecOn with
  | nil => exact ⟨[], rfl⟩
  | append_singleton values value ih =>
    obtain ⟨answers, run⟩ := ih
    rw [grown_concat]
    exact ⟨_, insertAll_concat run ((grown values).insert_eq value)⟩

/-- After any sequence of calls the tree is the set of the values inserted so
far, and the next call answers and acts as an insertion into that set. -/
theorem insertAll_is_set (values : List Int) :
    ∃ answers tree, insertAll {} values = .ok (answers, tree) ∧
      tree.Root.inOrder.Pairwise (· < ·) ∧
      (∀ value, value ∈ tree.Root.inOrder ↔ value ∈ values) ∧
      (∀ value, tree.search value = true ↔ value ∈ values) ∧
      ∀ value, ∃ inserted after, tree.insert value = .ok (inserted, after) ∧
        insertAll {} (values ++ [value]) = .ok (answers ++ [inserted], after) ∧
        (inserted = true ↔ value ∉ values) ∧ (inserted = false → after = tree) := by
  obtain ⟨answers, run⟩ := insertAll_grown values
  have stores := grown_stores values
  refine ⟨answers, grown values, run, stores.ordered, stores.mem, stores.search_iff, fun value => ?_⟩
  have call := (grown values).insert_eq value
  refine ⟨_, _, call, insertAll_concat run call, ?_, ?_⟩
  · rw [← stores.search_iff value]
    simp
  · intro refused
    have found : (grown values).Root.search value = true := by simpa [search] using refused
    rw [BSTNode.place_of_search found]

end BlogAlgorithms.BinarySearchTree
