import BlogAlgorithms.Lib.DepthFirst
import BlogAlgorithms.Lib.Walk

namespace Walk

variable {V : Type} {next : V → V → Prop} {parent : V → V} {r s v : V} {path front back : List V}

theorem Trail.unique {other : List V} (trail : Trail parent s v path) (again : Trail parent s v other) :
    path = other := by
  induction trail generalizing other with
  | stop =>
    cases again with
    | stop => rfl
    | step differs => exact absurd rfl differs
  | step differs _ ih =>
    cases again with
    | stop => exact absurd rfl differs
    | step _ rest => rw [ih rest]

/-- A trail that is walked along edges. -/
def WalkedTrail (next : V → V → Prop) (parent : V → V) (s v : V) : Prop :=
  ∃ path, Trail parent s v path ∧ ∀ w ∈ path, next (parent w) w

/-- The vertices on the trail from the root `r` to `v`, both included. -/
def OnTrail (parent : V → V) (r v s : V) : Prop := ∃ path, Trail parent r v path ∧ s ∈ r :: path

/-- The last part of a trail, from a vertex on it. -/
theorem Trail.from (trail : Trail parent r v path) (member : s ∈ r :: path) :
    ∃ front back, path = front ++ back ∧ Trail parent s v back := by
  induction trail with
  | stop =>
    rw [List.mem_singleton.mp member]
    exact ⟨[], [], rfl, .stop⟩
  | @step v path differs _ ih =>
    by_cases here : s = v
    · subst here
      exact ⟨path ++ [s], [], by rw [List.append_nil], .stop⟩
    · have before : s ∈ r :: path := by simpa [here] using member
      obtain ⟨front, back, same, rest⟩ := ih before
      exact ⟨front, back ++ [v], by rw [same, List.append_assoc], .step (Ne.symm here) rest⟩

theorem Trail.append (trail : Trail parent r v back) (off : s ∉ back) (before : Trail parent s r front) :
    Trail parent s v (front ++ back) := by
  induction trail with
  | stop => rwa [List.append_nil]
  | @step v path _ _ ih =>
    rw [← List.append_assoc]
    refine .step (fun same => off ?_) (ih fun member => off (List.mem_append_left _ member))
    rw [same]
    exact List.mem_append_right _ List.mem_cons_self

/-- A trail from elsewhere to a vertex of the tree comes through the root. -/
theorem Trail.through (trail : Trail parent r v back) (off : s ∉ r :: back) (other : Trail parent s v path) :
    ∃ front, Trail parent s r front ∧ path = front ++ back := by
  induction trail generalizing path with
  | stop => exact ⟨path, other, (List.append_nil path).symm⟩
  | @step v inner _ _ ih =>
    have offInner : s ∉ r :: inner :=
      fun member => off (by simpa using Or.imp_right Or.inl (List.mem_cons.mp member))
    cases other with
    | stop => simp at off
    | step _ rest =>
      obtain ⟨front, first, same⟩ := ih offInner rest
      exact ⟨front, first, by rw [same, List.append_assoc]⟩

theorem Trail.last (trail : Trail parent s v path) : (s :: path).getLast? = some v := by
  cases trail with
  | stop => rfl
  | step => rw [← List.cons_append, List.getLast?_concat]

/-- A trail is a walk only if each of its steps is an edge. -/
theorem Trail.isWalk_iff (trail : Trail parent s v path) :
    IsWalk next s path v ↔ ∀ w ∈ path, next (parent w) w := by
  refine ⟨fun walk => ?_, trail.isWalk⟩
  induction trail with
  | stop => simp
  | @step v path _ rest ih =>
    obtain ⟨chain, _⟩ := walk
    rw [← List.cons_append, List.isChain_append] at chain
    obtain ⟨before, _, edge⟩ := chain
    intro w member
    rcases List.mem_append.mp member with old | last
    · exact ih ⟨before, rest.last⟩ w old
    · rw [List.mem_singleton.mp last]
      exact edge (parent v) rest.last v rfl

theorem OnTrail.walked (on : OnTrail parent r v s) (walked : WalkedTrail next parent r v) :
    WalkedTrail next parent s v := by
  obtain ⟨path, trail, member⟩ := on
  obtain ⟨other, again, edges⟩ := walked
  obtain rfl := trail.unique again
  obtain ⟨front, rest, rfl, part⟩ := trail.from member
  exact ⟨rest, part, fun w inside => edges w (List.mem_append_right _ inside)⟩

/-- Where the parents lead back to `r` from all that can be reached from it, a
trail along edges either stays in the tree or takes the step from `r` on. -/
theorem walkedTrail_iff (symm : ∀ u w, next u w → next w u)
    (trails : ∀ w, Relation.ReflTransGen next r w → WalkedTrail next parent r w)
    (reachable : Relation.ReflTransGen next r v) :
    WalkedTrail next parent s v ↔ OnTrail parent r v s ∨ (next (parent r) r ∧ OnTrail parent r (parent r) s) := by
  obtain ⟨back, trail, edges⟩ := trails v reachable
  by_cases inside : s ∈ r :: back
  · have on : OnTrail parent r v s := ⟨back, trail, inside⟩
    exact iff_of_true (on.walked ⟨back, trail, edges⟩) (Or.inl on)
  constructor
  · rintro ⟨path, other, walked⟩
    obtain ⟨front, first, rfl⟩ := trail.through inside other
    cases first with
    | stop => exact absurd List.mem_cons_self inside
    | @step _ front differs rest =>
      have edge : next (parent r) r := walked r (by simp)
      obtain ⟨loop, around, _⟩ := trails (parent r) (.single (symm _ _ edge))
      refine Or.inr ⟨edge, loop, around, ?_⟩
      by_contra off
      -- a trail that comes round to the root again would be longer than itself
      obtain ⟨again, shorter, same⟩ := around.through off rest
      have lengths := congrArg List.length (shorter.unique (.step differs rest))
      simp only [same, List.length_append, List.length_singleton] at lengths
      omega
  · rintro (⟨path, again, member⟩ | ⟨edge, on⟩)
    · exact absurd (trail.unique again ▸ member) inside
    · obtain ⟨front, part, steps⟩ := on.walked (trails (parent r) (.single (symm _ _ edge)))
      have apart : r ≠ s := fun same => inside (same ▸ List.mem_cons_self)
      have off : s ∉ back := fun member => inside (List.mem_cons_of_mem _ member)
      refine ⟨_, trail.append off (.step apart part), fun w member => ?_⟩
      rcases List.mem_append.mp member with first | last
      · rcases List.mem_append.mp first with old | atRoot
        · exact steps w old
        · rw [List.mem_singleton.mp atRoot]
          exact edge
      · exact edges w last

end Walk

namespace DepthFirst
open Walk

/-- Each vertex chosen in turn hangs on one that was visited before it. -/
theorem ChosenInTurn.trails {V : Type} {adj : V → List V} {parent : V → V} {s : V} {visited new : List V}
    (chosen : ChosenInTurn adj parent visited new) (source : s ∈ visited)
    (known : ∀ v ∈ visited, WalkedTrail (fun u w => w ∈ adj u) parent s v) :
    ∀ v ∈ visited ++ new, WalkedTrail (fun u w => w ∈ adj u) parent s v := by
  induction new generalizing visited with
  | nil => simpa using known
  | cons w new ih =>
    obtain ⟨⟨⟨before, after, whole, _⟩, passed, left, list, fresh, _⟩, later⟩ := chosen
    have atParent : parent w ∈ visited := whole ▸ List.mem_append_right _ List.mem_cons_self
    have edge : w ∈ adj (parent w) := list ▸ List.mem_append_right _ List.mem_cons_self
    obtain ⟨path, trail, edges⟩ := known (parent w) atParent
    have apart : w ≠ s := fun same => fresh (same ▸ source)
    have here : WalkedTrail (fun u w => w ∈ adj u) parent s w := by
      refine ⟨path ++ [w], .step apart trail, fun x member => ?_⟩
      rcases List.mem_append.mp member with old | last
      · exact edges x old
      · rw [List.mem_singleton.mp last]
        exact edge
    have both : ∀ v ∈ visited ++ [w], WalkedTrail (fun u w => w ∈ adj u) parent s v := by
      intro v member
      rcases List.mem_append.mp member with old | last
      · exact known v old
      · rw [List.mem_singleton.mp last]
        exact here
    have all := ih later (List.mem_append_left _ source) both
    rwa [List.append_assoc] at all

end DepthFirst
