import Mathlib.Data.List.Nodup
import Mathlib.Logic.Function.Basic
import Mathlib.Logic.Relation

namespace DepthFirst

variable {V : Type} {adj : V → List V}

/-- All neighbours of the vertex have been visited. -/
def Finished (adj : V → List V) (visited : List V) (u : V) : Prop := ∀ w ∈ adj u, w ∈ visited

/-- The latest visited vertex that has a neighbour left to visit. -/
def LastOpen (adj : V → List V) (visited : List V) (u : V) : Prop :=
  ∃ before after, visited = before ++ u :: after ∧ ¬ Finished adj visited u ∧
    ∀ x ∈ after, Finished adj visited x

/-- The first entry of the list of a vertex that is left to visit. -/
def FirstLeft (adj : V → List V) (visited : List V) (u w : V) : Prop :=
  ∃ before after, adj u = before ++ w :: after ∧ w ∉ visited ∧ ∀ x ∈ before, x ∈ visited

/-- The depth-first choice of the next vertex and of its parent. -/
def Chosen (adj : V → List V) (visited : List V) (u w : V) : Prop :=
  LastOpen adj visited u ∧ FirstLeft adj visited u w

/-- Each vertex of the list is chosen when those before it have been visited. -/
def ChosenInTurn (adj : V → List V) (parent : V → V) : List V → List V → Prop
  | _, [] => True
  | visited, w :: rest => Chosen adj visited (parent w) w ∧ ChosenInTurn adj parent (visited ++ [w]) rest

theorem chosenInTurn_append {parent : V → V} {visited first second : List V} :
    ChosenInTurn adj parent visited (first ++ second) ↔
      ChosenInTurn adj parent visited first ∧ ChosenInTurn adj parent (visited ++ first) second := by
  induction first generalizing visited with
  | nil => simp [ChosenInTurn]
  | cons w first ih => simp [ChosenInTurn, ih, and_assoc]

theorem ChosenInTurn.congr {parent other : V → V} {visited new : List V}
    (chosen : ChosenInTurn adj parent visited new) (same : ∀ w ∈ new, other w = parent w) :
    ChosenInTurn adj other visited new := by
  induction new generalizing visited with
  | nil => exact trivial
  | cons w new ih =>
    refine ⟨?_, ih chosen.2 fun x member => same x (List.mem_cons_of_mem _ member)⟩
    rw [same w List.mem_cons_self]
    exact chosen.1

theorem Finished.mono {visited more : List V} {u : V} (finished : Finished adj visited u) :
    Finished adj (visited ++ more) u :=
  fun w entry => List.mem_append_left more (finished w entry)

/-- A recursive search at `s` with the entries `rest` of its list to go. The
visited vertices stand in the order of the visits, and a visit sets the
parent before it starts. -/
inductive Scan [DecidableEq V] (adj : V → List V) : V → List V → List V → (V → V) → List V → (V → V) → Prop
  | done {s : V} {visited : List V} {parent : V → V} : Scan adj s [] visited parent visited parent
  | skip {s w : V} {rest visited final : List V} {parent finalParent : V → V} : w ∈ visited →
      Scan adj s rest visited parent final finalParent →
      Scan adj s (w :: rest) visited parent final finalParent
  | enter {s w : V} {rest visited middle final : List V} {parent middleParent finalParent : V → V} :
      w ∉ visited →
      Scan adj w (adj w) (visited ++ [w]) (Function.update parent w s) middle middleParent →
      Scan adj s rest middle middleParent final finalParent →
      Scan adj s (w :: rest) visited parent final finalParent

/-- Where a scan may stand: what was visited after `s` is finished, and so
are the entries of its list before `rest`. -/
structure Ready (adj : V → List V) (s : V) (rest visited : List V) : Prop where
  nodup : visited.Nodup
  latest : ∃ before after, visited = before ++ s :: after ∧ ∀ x ∈ after, Finished adj visited x
  passed : ∃ before, adj s = before ++ rest ∧ ∀ x ∈ before, x ∈ visited

/-- What a scan does: it appends new vertices, each chosen depth first and
finished in the end, and leaves the parents of the others. -/
structure Appends (adj : V → List V) (s : V) (visited : List V) (parent : V → V) (final : List V)
    (finalParent : V → V) (new : List V) : Prop where
  whole : final = visited ++ new
  nodup : final.Nodup
  finished : ∀ x ∈ s :: new, Finished adj final x
  kept : ∀ x ∈ visited, finalParent x = parent x
  chosen : ChosenInTurn adj finalParent visited new
  reached : ∀ x ∈ new, Relation.ReflTransGen (fun u w => w ∈ adj u) s x

theorem Ready.start {visited : List V} {w : V} (nodup : visited.Nodup) (fresh : w ∉ visited) :
    Ready adj w (adj w) (visited ++ [w]) := by
  refine ⟨?_, ⟨visited, [], rfl, by simp⟩, ⟨[], rfl, by simp⟩⟩
  exact List.nodup_append.mpr ⟨nodup, List.nodup_singleton w,
    fun x member y single same => fresh (List.mem_singleton.mp single ▸ same ▸ member)⟩

theorem Ready.skip {s w : V} {rest visited : List V} (ready : Ready adj s (w :: rest) visited)
    (found : w ∈ visited) : Ready adj s rest visited := by
  obtain ⟨before, split, passed⟩ := ready.passed
  refine { ready with passed := ⟨before ++ [w], by simpa using split, fun x member => ?_⟩ }
  rcases List.mem_append.mp member with old | last
  · exact passed x old
  · exact List.mem_singleton.mp last ▸ found

theorem Ready.chosen {s w : V} {rest visited : List V} (ready : Ready adj s (w :: rest) visited)
    (fresh : w ∉ visited) : Chosen adj visited s w := by
  obtain ⟨before, after, whole, finished⟩ := ready.latest
  obtain ⟨passed, split, inside⟩ := ready.passed
  refine ⟨⟨before, after, whole, fun closed => fresh (closed w ?_), finished⟩, passed, rest, split, fresh, inside⟩
  rw [split]
  exact List.mem_append_right _ List.mem_cons_self

/-- After a visit of the next entry the scan goes on behind it. -/
theorem Ready.resume {s w : V} {rest visited middle new : List V} {parent middleParent : V → V}
    (ready : Ready adj s (w :: rest) visited)
    (visit : Appends adj w (visited ++ [w]) parent middle middleParent new) : Ready adj s rest middle := by
  obtain ⟨before, after, whole, finished⟩ := ready.latest
  obtain ⟨passed, split, inside⟩ := ready.passed
  have longer : middle = visited ++ (w :: new) := by simpa using visit.whole
  refine ⟨visit.nodup, ⟨before, after ++ w :: new, by simp [longer, whole], fun x member => ?_⟩,
    ⟨passed ++ [w], by simpa using split, fun x member => ?_⟩⟩
  · rcases List.mem_append.mp member with old | later
    · rw [longer]
      exact (finished x old).mono
    · exact visit.finished x later
  · rw [longer]
    rcases List.mem_append.mp member with old | last
    · exact List.mem_append_left _ (inside x old)
    · rw [List.mem_singleton.mp last]
      exact List.mem_append_right _ List.mem_cons_self

theorem Appends.nothing {s : V} {visited : List V} {parent : V → V} (ready : Ready adj s [] visited) :
    Appends adj s visited parent visited parent [] := by
  obtain ⟨passed, split, inside⟩ := ready.passed
  rw [List.append_nil] at split
  refine ⟨by simp, ready.nodup, fun x member => ?_, fun _ _ => rfl, trivial, by simp⟩
  rw [List.mem_singleton.mp member]
  exact fun w entry => inside w (split ▸ entry)

/-- The visit of a chosen entry and the rest of the scan make one scan. -/
theorem Appends.enter [DecidableEq V] {s w : V} {visited middle final visits others : List V}
    {parent middleParent finalParent : V → V} (chosen : Chosen adj visited s w)
    (visit : Appends adj w (visited ++ [w]) (Function.update parent w s) middle middleParent visits)
    (later : Appends adj s middle middleParent final finalParent others) :
    Appends adj s visited parent final finalParent (w :: visits ++ others) := by
  obtain ⟨before, after, split, fresh, _⟩ := chosen.2
  have edge : w ∈ adj s := by
    rw [split]
    exact List.mem_append_right _ List.mem_cons_self
  have middleIs : middle = visited ++ (w :: visits) := by simpa using visit.whole
  have inMiddle : ∀ x ∈ visited ++ [w], x ∈ middle := fun x member => visit.whole ▸ List.mem_append_left _ member
  have keptMiddle : ∀ x ∈ visited ++ [w], finalParent x = Function.update parent w s x := by
    intro x member
    rw [later.kept x (inMiddle x member), visit.kept x member]
  have parentOfW : finalParent w = s := by
    rw [keptMiddle w (List.mem_append_right _ List.mem_cons_self), Function.update_self]
  have visitChosen : ChosenInTurn adj finalParent (visited ++ [w]) visits := by
    refine visit.chosen.congr fun x member => later.kept x ?_
    rw [visit.whole]
    exact List.mem_append_right _ member
  refine ⟨by simp [later.whole, middleIs], later.nodup, fun x member => ?_, fun x member => ?_, ⟨?_, ?_⟩,
    fun x member => ?_⟩
  · rcases List.mem_cons.mp member with same | new
    · exact later.finished x (same ▸ List.mem_cons_self)
    · rcases List.mem_append.mp new with first | last
      · rw [later.whole]
        exact (visit.finished x first).mono
      · exact later.finished x (List.mem_cons_of_mem _ last)
  · rw [keptMiddle x (List.mem_append_left _ member), Function.update_of_ne]
    exact fun same => fresh (same ▸ member)
  · rw [parentOfW]
    exact chosen
  · exact chosenInTurn_append.mpr ⟨visitChosen, visit.whole ▸ later.chosen⟩
  · rcases List.mem_append.mp member with first | last
    · rcases List.mem_cons.mp first with same | inside
      · exact same ▸ .single edge
      · exact .head edge (visit.reached x inside)
    · exact later.reached x last

/-- The whole recursion, by induction on its calls. -/
theorem Scan.appends [DecidableEq V] {s : V} {rest visited final : List V} {parent finalParent : V → V}
    (scan : Scan adj s rest visited parent final finalParent) (ready : Ready adj s rest visited) :
    ∃ new, Appends adj s visited parent final finalParent new := by
  induction scan with
  | done => exact ⟨[], .nothing ready⟩
  | skip found _ ih => exact ih (ready.skip found)
  | enter fresh _ _ visitIh laterIh =>
    obtain ⟨visits, visit⟩ := visitIh (.start ready.nodup fresh)
    obtain ⟨others, later⟩ := laterIh (ready.resume visit)
    exact ⟨_, .enter (ready.chosen fresh) visit later⟩

/-- The parent of the vertex where a search starts stays what it was. -/
theorem Scan.parent_source [DecidableEq V] {s : V} {final : List V} {parent finalParent : V → V}
    (scan : Scan adj s (adj s) [s] parent final finalParent) : finalParent s = parent s := by
  have ready : Ready adj s (adj s) ([] ++ [s]) := .start List.nodup_nil List.not_mem_nil
  obtain ⟨_, appends⟩ := scan.appends ready
  exact appends.kept s List.mem_cons_self

/-- A search from `s` with nothing visited before is a depth-first order of
what can be reached from `s`. -/
theorem Scan.order [DecidableEq V] {s : V} {final : List V} {parent finalParent : V → V}
    (scan : Scan adj s (adj s) [s] parent final finalParent) :
    final.Nodup ∧ (∀ v, v ∈ final ↔ Relation.ReflTransGen (fun u w => w ∈ adj u) s v) ∧
      ∃ new, final = s :: new ∧ ChosenInTurn adj finalParent [s] new := by
  have ready : Ready adj s (adj s) ([] ++ [s]) := .start List.nodup_nil List.not_mem_nil
  obtain ⟨new, appends⟩ := scan.appends ready
  have whole : final = s :: new := appends.whole
  refine ⟨appends.nodup, fun v => ⟨fun member => ?_, fun reachable => ?_⟩, new, whole, appends.chosen⟩
  · rw [whole] at member
    rcases List.mem_cons.mp member with same | inside
    · exact same ▸ .refl
    · exact appends.reached v inside
  · induction reachable with
    | refl => exact whole ▸ List.mem_cons_self
    | tail _ edge ih => exact appends.finished _ (whole ▸ ih) _ edge

theorem ChosenInTurn.split {parent : V → V} {visited before after : List V} {w : V}
    (chosen : ChosenInTurn adj parent visited (before ++ w :: after)) :
    Chosen adj (visited ++ before) (parent w) w := (chosenInTurn_append.mp chosen).2.1

end DepthFirst
