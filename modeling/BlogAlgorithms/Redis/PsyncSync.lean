import BlogAlgorithms.Redis.PsyncActions

namespace BlogAlgorithms.Redis.Psync
open C

variable {N : Type} [DecidableEq N] {S T : Stories} {known known' : List ReplId} {σ : System N} {s m : N}
  {conn : Nat} {request : Option (ReplId × Int)} {stream : Bytes}

namespace System

omit [DecidableEq N] in
/-- The number of the connection that is answered belongs to no other replica. -/
theorem Good.asking (good : σ.Good S known) (isLink : (σ.servers s).link = some ⟨m, conn, .psync request, stream⟩)
    {k : N} {l : Link N} (isLink' : (σ.servers k).link = some l) (same : l.conn = conn) :
    k = s ∧ l.stage.fed = false := by
  obtain rfl := good.unique k s l _ isLink' isLink same
  obtain rfl := Option.some.inj (isLink'.symm.trans isLink)
  exact ⟨rfl, rfl⟩

/-- The master enters the connection in its list. -/
theorem Good.attach (good : σ.Good S known) (isLink : (σ.servers s).link = some ⟨m, conn, .psync request, stream⟩)
    (kept : (σ.servers m).backlog ≠ none) :
    (σ.set m { σ.servers m with slaves := (σ.servers m).slaves ++ [conn] }).Good S known := by
  have sound := good.servers m
  have entered {k : N} {l : Link N} (isLink' : (σ.servers k).link = some l) {x : Server N}
      (was : l.Sound S x (σ.servers m)) :
      l.Sound S x { σ.servers m with slaves := (σ.servers m).slaves ++ [conn] } := by
    by_cases same : l.conn = conn
    · exact was.unfed (.refl S) (good.asking isLink isLink' same).2
    · refine was.reslave fun member => (List.mem_append.mp member).resolve_right fun new => ?_
      exact same (List.mem_singleton.mp new)
  refine good.install (Link.touches_id m) { sound with served := fun _ => kept } (fun isMaster => ⟨isMaster, rfl⟩)
    (fun l isLink' => ⟨l, isLink', rfl⟩) ?_ fun k l _ isLink' _ was => entered isLink' was
  exact good.linked rfl rfl rfl rfl Iff.rfl rfl fun l isLink' here => entered isLink' here

/-- The first replica of a master without a backlog: a new story begins. -/
theorem Good.open (good : σ.Good S known) (isLink : (σ.servers s).link = some ⟨m, conn, .psync request, stream⟩)
    (isMaster : (σ.servers m).masterhost = none) (noBacklog : (σ.servers m).backlog = none) {fresh : ReplId}
    (new : fresh ∉ known) (memory : Memory) :
    ∃ T, (σ.set m ((({ σ.servers m with slaves := (σ.servers m).slaves ++ [conn] } : Server N).changeReplicationId
        fresh).clearReplicationId2.newBacklog memory)).Good T (known ++ [fresh]) := by
  have sound := good.servers m
  obtain ⟨noCache, unlinked⟩ := sound.alone isMaster
  have noSlaves := sound.noSlaves noBacklog
  have drawn : fresh ∈ known ++ [fresh] := List.mem_append_right _ (List.mem_singleton_self _)
  obtain ⟨extends_, untold, stories⟩ :=
    good.tell_fresh new ⟨(σ.servers m).data, (σ.servers m).masterReplOffset, true⟩
  refine ⟨_, good.draw extends_ new untold stories (Link.touches_id m) ?_ (fun _ => rfl) unlinked ?_⟩
  · exact Server.sound_master drawn rfl (Backlog.holds_create memory.2 ..) (Stories.tell_self ..)
      (fun nonneg => absurd nonneg (show ¬ (0 : Int) ≤ -1 by decide)) noCache unlinked (sound.saved_mono extends_)
  · intro k l _ isLink' _ was
    by_cases same : l.conn = conn
    · exact was.unfed extends_ (good.asking isLink isLink' same).2
    · refine was.closed extends_ fun member => ?_
      change l.conn ∈ (σ.servers m).slaves ++ [conn] at member
      rw [noSlaves, List.nil_append, List.mem_singleton] at member
      exact same member

/-- The replica gets the answer. -/
theorem Good.answer {x : Server N} (good : (σ.set m x).Good T known')
    (isLink : (σ.servers s).link = some ⟨m, conn, .psync request, stream⟩) (other : m ≠ s)
    (replica : (σ.servers s).masterhost ≠ none) {stage : Stage} {sent : Bytes}
    (sound : Link.Sound T (σ.servers s) x ⟨m, conn, stage, sent⟩) :
    (σ.answer s m conn x stage sent).Good T known' := by
  have atS : (σ.set m x).servers s = σ.servers s := by
    rw [System.set, System.install]
    simp only [if_neg other.symm, Server.mapLink, Option.map_id, id_eq]
  have atM : (σ.set m x).servers m = x := by
    rw [System.set, System.install]
    exact if_pos rfl
  have soundS := good.servers s
  rw [atS] at soundS
  have wasLink : ((σ.set m x).servers s).link = some ⟨m, conn, .psync request, stream⟩ := by rw [atS, isLink]
  rw [System.answer]
  refine good.relink (Link.touches_id s) (soundS.relink replica _) replica wasLink rfl rfl ?_ ?_
  · rw [if_neg other, atM]
    exact sound.view rfl rfl rfl rfl Iff.rfl
  · intro k l _ _ _ was
    rw [atS] at was
    exact was.sameMaster rfl rfl rfl rfl

/-- A replica that shares a transfer shares what follows it. -/
theorem Good.shared (good : σ.Good S known) {sharing : Option N} {snapshot : Snapshot} {sent : Bytes}
    (isShared : sharing.bind (σ.shared m) = some (snapshot, sent)) :
    (σ.servers m).replid = snapshot.replid ∧ S.Shown snapshot.replid ∧
      ∃ c, Link.Flows S (σ.servers m) c sent snapshot.replid snapshot.offset snapshot.data ∧
        c ∈ (σ.servers m).slaves := by
  obtain ⟨t, _, isShared⟩ := Option.bind_eq_some_iff.mp isShared
  rw [System.shared] at isShared
  split at isShared
  · rename_i l isLink
    split at isShared
    · rename_i attached
      obtain ⟨snapshot', isSnapshot, same⟩ := Option.map_eq_some_iff.mp isShared
      obtain ⟨rfl, rfl⟩ := Prod.mk.inj same
      have here := good.links t l isLink
      rw [attached.1] at here
      have both : S.Shown snapshot'.replid ∧
          Link.Flows S (σ.servers m) l.conn l.stream snapshot'.replid snapshot'.offset snapshot'.data := by
        unfold Link.Sound at here
        unfold Stage.snapshot at isSnapshot
        split at isSnapshot
        · rename_i isStage
          rw [isStage] at here
          exact Option.some.inj isSnapshot ▸ here
        · rename_i isStage
          rw [isStage] at here
          exact Option.some.inj isSnapshot ▸ ⟨here.1, here.2.1⟩
        · cases isSnapshot
      exact ⟨(both.2.current attached.2).1, both.1, l.conn, both.2, attached.2⟩
    · cases isShared
  · cases isShared

theorem masterTryPartialResynchronization_good (good : σ.Good S known)
    (isLink : (σ.servers s).link = some ⟨m, conn, .psync request, stream⟩) (other : m ≠ s) :
    σ.masterTryPartialResynchronization s m conn request = .ok none ∨
      ∃ τ, σ.masterTryPartialResynchronization s m conn request = .ok (some τ) ∧ τ.Good S known := by
  unfold masterTryPartialResynchronization
  dsimp only
  split
  · rename_i backlog replid psyncOffset accepts
    refine Or.inr ?_
    obtain ⟨cached, isCached, same⟩ := good.links s _ isLink _ rfl
    obtain rfl := (good.servers s).cached cached isCached
    obtain ⟨rfl, rfl⟩ := Prod.mk.inj same
    have hasCache : (σ.servers s).cachedMaster ≠ none := Option.ne_none_iff_exists'.mpr ⟨_, isCached⟩
    obtain ⟨more, replies, data, offset, shown, isBacklog⟩ :=
      Server.acceptsPsync_spec (good.servers m) (good.servers s) hasCache accepts
    have kept : (σ.servers m).backlog ≠ none := Option.ne_none_iff_exists'.mpr ⟨_, isBacklog⟩
    have claim := (good.servers m).claim (Or.inl kept)
    rw [data, offset] at claim
    rw [replies, ok_bind]
    refine ⟨_, rfl, Good.answer (good.attach isLink kept) isLink other (good.replica isLink) ?_⟩
    exact ⟨(good.servers m).shown kept, shown, hasCache, claim, fun _ => ⟨rfl, offset, data⟩⟩
  · exact Or.inl rfl

theorem fullResynchronization_good (good : σ.Good S known)
    (isLink : (σ.servers s).link = some ⟨m, conn, .psync request, stream⟩) (other : m ≠ s)
    (serving : (σ.servers m).masterhost = none ∨ (σ.servers m).backlog ≠ none) (sharing : Option N) {fresh : ReplId}
    (new : fresh ∉ known) (memory : Memory) :
    ∃ τ T, σ.fullResynchronization s m conn sharing fresh memory = .ok τ ∧ τ.Good T (known ++ [fresh]) := by
  have sound := good.servers m
  have replica := good.replica isLink
  rw [fullResynchronization]
  split
  · rename_i first
    have noBacklog : (σ.servers m).backlog = none := Option.isNone_iff_eq_none.mp first.2
    have isMaster := serving.resolve_right fun kept => kept noBacklog
    obtain ⟨T, opened⟩ := good.open isLink isMaster noBacklog new memory
    have creates := Server.createReplicationBacklog_spec
      (({ σ.servers m with slaves := (σ.servers m).slaves ++ [conn] } : Server N).changeReplicationId
        fresh).clearReplicationId2 memory noBacklog
    rw [creates, ok_bind]
    exact ⟨_, T, rfl, Good.answer opened isLink other replica trivial⟩
  · rename_i notFirst
    have kept : (σ.servers m).backlog ≠ none := by
      intro noBacklog
      refine notFirst ⟨?_, ?_⟩
      · rw [sound.noSlaves noBacklog]
        rfl
      · rw [noBacklog]
        rfl
    have attached := (good.attach isLink kept).mono (List.subset_append_left known [fresh])
    split
    · rename_i snapshot sent isShared
      obtain ⟨replid, shown, c, flows, member⟩ := good.shared isShared
      obtain ⟨_, offset, data⟩ := flows.current member
      refine ⟨_, S, rfl, Good.answer attached isLink other replica ?_⟩
      exact ⟨replid ▸ shown, replid ▸ flows.claim, fun _ => ⟨rfl, offset, data⟩⟩
    · exact ⟨_, S, rfl, Good.answer attached isLink other replica trivial⟩

theorem sync_good (good : σ.Good S known) (s : N) (sharing : Option N) {fresh : ReplId} (new : fresh ∉ known)
    (memory : Memory) :
    ∃ τ T, σ.syncCommand s sharing fresh memory = .ok τ ∧ τ.Good T (known ++ [fresh]) := by
  have more := List.subset_append_left known [fresh]
  rw [syncCommand]
  split
  · rename_i m conn request stream isLink
    have replica := good.replica isLink
    split
    · refine ⟨_, S, rfl, Good.mono ?_ more⟩
      exact good.unlink (Link.touches_id s) ((good.servers s).relink replica _)
        (fun isMaster => absurd isMaster replica) rfl (serves_same rfl rfl rfl rfl)
    · rename_i notRefused
      have serving : (σ.servers m).masterhost = none ∨ (σ.servers m).connected = true := by
        cases isHost : (σ.servers m).masterhost with
        | none => exact Or.inl rfl
        | some host => exact Or.inr (by simpa [isHost] using notRefused)
      have other : m ≠ s := by
        rintro rfl
        rcases serving with isMaster | isConnected
        · exact replica isMaster
        · rw [Server.connected, isLink] at isConnected
          cases isConnected
      rcases masterTryPartialResynchronization_good good isLink other with refuses | ⟨τ, continues, good'⟩
      · rw [refuses, ok_bind]
        exact fullResynchronization_good good isLink other (serving.imp_right good.backlog_of_connected) sharing new
          memory
      · rw [continues, ok_bind]
        exact ⟨τ, S, rfl, good'.mono more⟩
  · exact ⟨σ, S, rfl, good.mono more⟩

end System

end BlogAlgorithms.Redis.Psync
