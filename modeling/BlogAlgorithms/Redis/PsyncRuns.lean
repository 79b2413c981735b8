import BlogAlgorithms.Redis.PsyncSync
import Mathlib.Data.List.FinRange

namespace BlogAlgorithms.Redis.Psync
open C

/-- The server that gets a command would refuse it as a replica. -/
def Action.ReadOnly {N : Type} : Action N → Prop
  | .write _ readOnly _ => readOnly = true
  | _ => True

instance {N : Type} (action : Action N) : Decidable action.ReadOnly := by
  cases action <;> unfold Action.ReadOnly <;> infer_instance

namespace System
variable {N : Type} [DecidableEq N] {σ : System N} {S : Stories} {known : List ReplId}

theorem act_good (good : σ.Good S known) (action : Action N) (readOnly : action.ReadOnly)
    (new : ∀ r ∈ action.drawn, r ∉ known) :
    ∃ τ T, σ.act action = .ok τ ∧ τ.Good T (known ++ action.drawn) := by
  have undrawn {τ : System N} {T : Stories} (good' : τ.Good T known) : τ.Good T (known ++ []) := by
    rwa [List.append_nil]
  have unchanged {x : Exec (System N)} (steps : ∃ τ T, x = .ok τ ∧ τ.Good T known) :
      ∃ τ T, x = .ok τ ∧ τ.Good T (known ++ []) := by
    rwa [List.append_nil]
  have fresh {r : ReplId} (isDrawn : action.drawn = [r]) : r ∉ known :=
    new r (by rw [isDrawn]; exact List.mem_singleton_self r)
  cases action with
  | write m setting bytes =>
    obtain rfl : setting = true := readOnly
    exact unchanged (write_good good m bytes)
  | apply s count => exact unchanged (apply_good good s count)
  | replicaof n host flagged delivered => exact unchanged (replicaof_good good n host flagged delivered)
  | replicaofNoOne n flagged r delivered => exact replicaofNoOne_good good n flagged (fresh rfl) delivered
  | connect s => exact ⟨_, S, rfl, undrawn (connect_good good s)⟩
  | sync s sharing r memory => exact sync_good good s sharing (fresh rfl) memory
  | bgsave m => exact ⟨_, S, rfl, undrawn (bgsave_good good m)⟩
  | reply s memory delivered => exact unchanged (readReply_good good s memory delivered)
  | replyError s written delivered => exact unchanged (readErrorReply_good good s written delivered)
  | load s diskless memory => exact unchanged (finishLoad_good good s diskless memory)
  | loadFails s diskless data => exact ⟨_, S, rfl, undrawn (failLoad_good good s diskless data)⟩
  | lose s flagged => exact unchanged (loseLink_good good s flagged)
  | close m conn delivered => exact ⟨_, S, rfl, undrawn (closeSlave_good good m conn delivered)⟩
  | backlogTimeout m r => exact backlogTimeout_good good m (fresh rfl)
  | resizeBacklog m memory => exact ⟨_, S, rfl, undrawn (resizeBacklog_good good m memory)⟩
  | save n => exact ⟨_, S, rfl, undrawn (save_good good n)⟩
  | restart n host aof r delivered => exact ⟨_, S, rfl, restart_good good n host aof (fresh rfl) delivered⟩

theorem run_good (good : σ.Good S known) (actions : List (Action N))
    (readOnly : ∀ action ∈ actions, action.ReadOnly) (distinct : (known ++ actions.flatMap Action.drawn).Nodup) :
    ∃ τ T, σ.run actions = .ok τ ∧ τ.Good T (known ++ actions.flatMap Action.drawn) := by
  induction actions generalizing σ S known with
  | nil => exact ⟨σ, S, rfl, by rwa [List.flatMap_nil, List.append_nil]⟩
  | cons action rest ih =>
    rw [List.flatMap_cons, ← List.append_assoc] at distinct ⊢
    have new (r : ReplId) (isDrawn : r ∈ action.drawn) : r ∉ known := fun isKnown =>
      (List.nodup_append.mp (List.nodup_append.mp distinct).1).2.2 r isKnown r isDrawn rfl
    obtain ⟨next, T, acts, good'⟩ := act_good good action (readOnly action List.mem_cons_self) new
    rw [run, acts, ok_bind]
    exact ih good' (fun later member => readOnly later (List.mem_cons_of_mem _ member)) distinct

end System

theorem good_start {count : Nat} {first : Fin count → ReplId} (distinct : (List.ofFn first).Nodup)
    (data : Fin count → Bytes) : (start first data).Good (fun _ => none) (List.ofFn first) := by
  constructor
  case stories => intro r story told; cases told
  case servers =>
    intro n
    have isKnown : first n ∈ List.ofFn first := List.mem_ofFn.mpr ⟨n, rfl⟩
    refine Server.sound_unsettled isKnown rfl rfl (fun _ => ⟨rfl, rfl⟩) rfl fun rdb r o isDisk => ?_
    cases isDisk
  case masters => exact fun a b _ _ same => List.nodup_ofFn.mp distinct same
  case links => intro s l isLink; cases isLink
  case conns => intro s l isLink; cases isLink
  case unique => intro s t l l' isLink; cases isLink

theorem run_good_start {count : Nat} {first : Fin count → ReplId} (data : Fin count → Bytes)
    {actions : List (Action (Fin count))} (readOnly : ∀ action ∈ actions, action.ReadOnly)
    (distinct : (List.ofFn first ++ actions.flatMap Action.drawn).Nodup) :
    ∃ τ S known, (start first data).run actions = .ok τ ∧ τ.Good S known := by
  obtain ⟨τ, S, ran, good⟩ :=
    System.run_good (good_start (List.nodup_append.mp distinct).1 data) actions readOnly distinct
  exact ⟨τ, S, _, ran, good⟩

/-- Two servers, of which the second is made a replica of the first, is promoted, and
becomes the master of the first, which continues under the old ID. -/
def failover : System (Fin 2) × List (Action (Fin 2)) :=
  let memory : Memory := ⟨[0, 0, 0, 0], by decide⟩
  (start (fun n => n + 1) fun n => if n = 0 then [1, 2] else [3],
    [.replicaof 1 0 false fun _ => 0, .connect 1, .sync 1 none 3 memory, .write 0 true [7], .bgsave 0,
      .write 0 true [8], .reply 1 memory fun _ => 0, .load 1 false memory, .apply 1 1, .lose 1 false,
      .replicaofNoOne 1 false 4 fun _ => 0, .write 1 true [9], .close 0 0 0, .replicaof 0 1 false fun _ => 0,
      .connect 0, .sync 0 none 5 memory, .write 1 true [5], .reply 0 memory fun _ => 0, .apply 0 1])

/-- What a replica that is not read-only executes on its own, its master does not have. -/
example : ((failover.1.run (failover.2 ++ [.write 0 false [6], .apply 0 1])).map fun τ =>
    ((τ.servers 0).data, (τ.servers 1).data)) = .ok ([1, 2, 7, 8, 9, 6, 5], [1, 2, 7, 8, 9, 5]) := by decide +kernel

end BlogAlgorithms.Redis.Psync
