import BlogAlgorithms.Redis.PsyncSteps

namespace BlogAlgorithms.Redis.Psync
open C

variable {N : Type} [DecidableEq N] {S : Stories} {known : List ReplId} {σ : System N}

namespace Server
variable {x : Server N} {bytes : Bytes}

omit [DecidableEq N] in
/-- The backlog takes what is executed. -/
theorem feedBacklog_spec {b : Backlog} {before : Bytes} (isBacklog : x.backlog = some b)
    (data : x.data = before ++ bytes) (holds : b.Holds before x.masterReplOffset) :
    ∃ b', x.feedBacklog bytes =
        .ok { x with backlog := some b', masterReplOffset := x.masterReplOffset + bytes.length } ∧
      b'.Holds x.data (x.masterReplOffset + bytes.length) := by
  obtain ⟨b', feeds, holds', _⟩ := Backlog.feed_spec holds bytes
  refine ⟨b', ?_, data ▸ holds'⟩
  rw [feedBacklog, isBacklog]
  simp only [feeds, ok_bind]

omit [DecidableEq N] in
/-- A replica whose ID and offset are within the history of a master has a part of the
master's data. -/
theorem Sound.continues {y : Server N} (sound : x.Sound S known) (kept : x.backlog ≠ none)
    (claim : S.Claim y.replid y.masterReplOffset y.data) (reached : y.masterReplOffset ≤ x.masterReplOffset)
    (isKnown : ¬ (y.replid ≠ x.replid ∧
      (y.replid ≠ x.replid2 ∨ (y.masterReplOffset : Int) + 1 > x.secondReplidOffset))) :
    ∃ more, x.data = y.data ++ more ∧ x.masterReplOffset = y.masterReplOffset + more.length ∧ S.Shown y.replid := by
  by_cases first : y.replid = x.replid
  · obtain ⟨more, data, offset⟩ := (first ▸ claim).continues (sound.claim (Or.inl kept)) reached
    exact ⟨more, data, offset, first ▸ sound.shown kept⟩
  · have isSecond : y.replid = x.replid2 := by
      by_contra other
      exact isKnown ⟨first, Or.inl other⟩
    have early : (y.masterReplOffset : Int) + 1 ≤ x.secondReplidOffset := by
      by_contra late
      exact isKnown ⟨first, Or.inr (not_le.mp late)⟩
    obtain ⟨k, d, later, atK, shown, claim2, data, offset⟩ :=
      sound.second (Or.inl kept) (sound.shown kept) (by omega)
    obtain ⟨more, data', offset'⟩ := (isSecond ▸ claim).continues claim2 (by omega)
    refine ⟨more ++ later, ?_, ?_, isSecond ▸ shown⟩
    · rw [data, data', List.append_assoc]
    · rw [offset, offset', List.length_append, Nat.add_assoc]

omit [DecidableEq N] in
/-- A replica that is accepted has what the master had at its offset, and it is
sent exactly the rest. -/
theorem acceptsPsync_spec {y : Server N} (sound : x.Sound S known) (replica : y.Sound S known)
    (hasCache : y.cachedMaster ≠ none) {backlog : Backlog}
    (accepts : x.acceptsPsync (some (y.replid, (y.masterReplOffset : Int) + 1)) = some backlog) :
    ∃ more, backlog.addReplyReplicationBacklog ((y.masterReplOffset : Int) + 1) = .ok more ∧
      x.data = y.data ++ more ∧ x.masterReplOffset = y.masterReplOffset + more.length ∧ S.Shown y.replid ∧
      x.backlog = some backlog := by
  rw [acceptsPsync] at accepts
  split at accepts
  · cases accepts
  · rename_i isKnown
    cases isBacklog : x.backlog with
    | none =>
      rw [isBacklog] at accepts
      cases accepts
    | some b =>
      have kept : x.backlog ≠ none := Option.ne_none_iff_exists'.mpr ⟨b, isBacklog⟩
      have holds := sound.holds b isBacklog
      have off_eq := holds.off_eq
      simp only [isBacklog] at accepts
      split at accepts
      · cases accepts
      · rename_i window
        obtain rfl := Option.some.inj accepts
        obtain ⟨more, data, offset, shown⟩ :=
          sound.continues kept (replica.claim (Or.inr hasCache)) (by omega) isKnown
        refine ⟨more, ?_, data, offset, shown, rfl⟩
        have rest : ((x.masterReplOffset : Int) + 1 - ((y.masterReplOffset : Int) + 1)).toNat = more.length := by
          omega
        rw [Backlog.addReply_spec holds (by omega) (by omega), rest, data, List.length_append, Nat.add_sub_cancel,
          List.drop_left]

end Server

namespace System

omit [DecidableEq N] in
/-- What one master tells is no other master's story. -/
theorem Good.tell_others (good : σ.Good S known) {n : N} (isMaster : (σ.servers n).masterhost = none)
    (story : Story) {x : Server N} (same : x.masterhost = none → x.replid = (σ.servers n).replid) (k : N)
    (other : k ≠ n) (isMaster' : (σ.servers k).masterhost = none) :
    S.tell (σ.servers n).replid story (σ.servers k).replid = S (σ.servers k).replid ∧
      (x.masterhost = none → (σ.servers k).replid ≠ x.replid) := by
  have differ : (σ.servers k).replid ≠ (σ.servers n).replid :=
    fun equal => other (good.masters k n isMaster' isMaster equal)
  exact ⟨Stories.tell_other differ, fun nowMaster => same nowMaster ▸ differ⟩

/-- A master without a backlog tells nobody. -/
theorem write_silent_good (good : σ.Good S known) {m : N} (isMaster : (σ.servers m).masterhost = none)
    (noBacklog : (σ.servers m).backlog = none) (bytes : Bytes) :
    (σ.set m { σ.servers m with data := (σ.servers m).data ++ bytes }).Good S known := by
  have sound := good.servers m
  obtain ⟨noCache, unlinked⟩ := sound.alone isMaster
  have noSlaves := sound.noSlaves noBacklog
  have unowned := sound.unowned isMaster noBacklog
  have sound' : ({ σ.servers m with data := (σ.servers m).data ++ bytes } : Server N).Sound S known :=
    Server.sound_unsettled sound.idKnown noBacklog noCache (fun _ => ⟨unowned, unlinked⟩) noSlaves sound.saved
  exact good.unlink (Link.touches_id m) sound' (fun _ => ⟨isMaster, rfl⟩) unlinked
    (serves_closed (.refl S) noSlaves)

/-- A master with a backlog goes on with its story. -/
theorem write_told_good (good : σ.Good S known) {m : N} (isMaster : (σ.servers m).masterhost = none) {b : Backlog}
    (isBacklog : (σ.servers m).backlog = some b) (bytes : Bytes) :
    ∃ τ T, σ.replicationFeedSlaves m { σ.servers m with data := (σ.servers m).data ++ bytes } bytes = .ok τ ∧
      τ.Good T known := by
  have sound := good.servers m
  obtain ⟨noCache, unlinked⟩ := sound.alone isMaster
  have kept : (σ.servers m).backlog ≠ none := Option.ne_none_iff_exists'.mpr ⟨b, isBacklog⟩
  have extends_ := Stories.tell_extends (sound.owner isMaster kept) bytes
  obtain ⟨b', feeds, holds'⟩ := Server.feedBacklog_spec
    (x := { σ.servers m with data := (σ.servers m).data ++ bytes }) isBacklog rfl (sound.holds b isBacklog)
  rw [replicationFeedSlaves, feeds, ok_bind]
  refine ⟨_, _, rfl, good.step extends_ (List.Subset.refl _) (step_unlinked Link.touches_feed unlinked)
    (Stories.tell_known good.stories sound.idKnown) ?_ (good.tell_others isMaster _ fun _ => rfl)
    (linked_of_none unlinked) ?_⟩
  · have second := sound.second (Or.inl kept) (sound.shown kept)
    exact Server.sound_master sound.idKnown rfl holds' (Stories.tell_self ..)
      (fun nonneg => ((second nonneg).mono extends_).further rfl rfl rfl rfl) noCache unlinked
      (sound.saved_mono extends_)
  · exact serves_feed extends_ rfl rfl rfl rfl (Stories.claim_of_eq (Stories.tell_self ..))

theorem write_good (good : σ.Good S known) (m : N) (bytes : Bytes) :
    ∃ τ T, σ.write m true bytes = .ok τ ∧ τ.Good T known := by
  rw [write]
  dsimp only
  split
  · exact ⟨σ, S, rfl, good⟩
  · rename_i notReplica
    have isMaster : (σ.servers m).masterhost = none := Option.not_isSome_iff_eq_none.mp notReplica
    obtain isBacklog | ⟨b, isBacklog⟩ := Option.eq_none_or_eq_some (σ.servers m).backlog
    · rw [if_pos (by rw [isBacklog]; rfl), if_pos ((good.servers m).noSlaves isBacklog)]
      exact ⟨_, S, rfl, write_silent_good good isMaster isBacklog bytes⟩
    · rw [if_neg (by rw [isBacklog]; exact Bool.false_ne_true)]
      exact write_told_good good isMaster isBacklog bytes

omit [DecidableEq N] in
/-- What is left of a stream of which some bytes have been executed. -/
theorem flows_drop {m : Server N} {conn : Nat} {stream : Bytes} {r : ReplId} {o : Nat} {d : Bytes}
    (flows : Link.Flows S m conn stream r o d) (count : Nat) :
    Link.Flows S m conn (stream.drop count) r (o + (stream.take count).length) (d ++ stream.take count) := by
  have length_eq : (stream.take count).length + (stream.drop count).length = stream.length := by
    rw [← List.length_append, List.take_append_drop]
  constructor
  · rw [Nat.add_assoc, List.append_assoc, length_eq, List.take_append_drop]
    exact flows.claim
  · rw [Nat.add_assoc, List.append_assoc, length_eq, List.take_append_drop]
    exact flows.current

theorem apply_good (good : σ.Good S known) (s : N) (count : Nat) :
    ∃ τ T, σ.apply s count = .ok τ ∧ τ.Good T known := by
  have sound := good.servers s
  rw [apply]
  split
  · rename_i peer conn replid reploff stream isLink
    obtain ⟨isReplid, isOffset, kept, noCache, flows⟩ := good.links s _ isLink
    subst isReplid isOffset
    obtain ⟨b, isBacklog⟩ := Option.ne_none_iff_exists'.mp kept
    have replica := good.replica isLink
    have claim : S.Claim (σ.servers s).replid ((σ.servers s).masterReplOffset + (stream.take count).length)
        ((σ.servers s).data ++ stream.take count) := flows.claim.take count
    have rest : Link.Flows S (σ.servers peer) conn (stream.drop count) (σ.servers s).replid
        ((σ.servers s).masterReplOffset + (stream.take count).length) ((σ.servers s).data ++ stream.take count) :=
      flows_drop flows count
    generalize stream.take count = bytes at rest claim ⊢
    obtain ⟨b', feeds, holds'⟩ := Server.feedBacklog_spec
      (x := { σ.servers s with
        data := (σ.servers s).data ++ bytes
        link := some ⟨peer, conn, .connected (σ.servers s).replid ((σ.servers s).masterReplOffset + bytes.length),
          stream.drop count⟩ })
      isBacklog rfl (sound.holds b isBacklog)
    rw [replicationFeedSlaves, feeds, ok_bind]
    refine ⟨_, S, rfl, good.relink Link.touches_feed ?_ replica isLink rfl rfl ?_ ?_⟩
    · have second := sound.second (Or.inl kept) (sound.shown kept)
      exact Server.sound_connected sound.idKnown replica rfl holds' claim (sound.shown kept)
        (fun nonneg => (second nonneg).further rfl rfl rfl rfl) noCache sound.saved
    · refine ⟨rfl, rfl, Option.some_ne_none b', noCache, rest.ite fun toSelf attached => ?_⟩
      -- a server that fed itself could have nothing on its way
      change peer = s at toSelf
      subst toSelf
      obtain ⟨_, offset, _⟩ := rest.current attached
      have nothing : bytes.length = 0 ∧ (stream.drop count).length = 0 := by omega
      rw [List.length_eq_zero_iff.mp nothing.2]
      exact ⟨rfl, rfl, (List.append_nil _).symm⟩
    · exact serves_feed (.refl S) rfl rfl rfl rfl claim
  · exact ⟨σ, S, rfl, good⟩

/-- A master without a backlog becomes a replica. Until now its ID has stood for nothing. -/
theorem demote_silent_good (good : σ.Good S known) {n : N} (isMaster : (σ.servers n).masterhost = none)
    (noBacklog : (σ.servers n).backlog = none) (host : N) (delivered : Nat → Nat) :
    ∃ T, (σ.disconnectSlaves n { σ.servers n with
      cachedMaster := some ((σ.servers n).replid, (σ.servers n).masterReplOffset)
      link := none
      masterhost := some host } delivered).Good T known := by
  have sound := good.servers n
  have extends_ := Stories.tell_extends_of_none (sound.unowned isMaster noBacklog)
    ⟨(σ.servers n).data, (σ.servers n).masterReplOffset, false⟩
  have others := good.tell_others (x := { σ.servers n with masterhost := some host }) isMaster
    ⟨(σ.servers n).data, (σ.servers n).masterReplOffset, false⟩ fun nowMaster => nomatch nowMaster
  refine ⟨_, good.step extends_ (List.Subset.refl _) (step_unlinked Link.touches_cut rfl)
    (Stories.tell_known good.stories sound.idKnown) ?_ others (linked_of_none rfl) (serves_cut extends_ rfl)⟩
  refine Server.sound_cached sound.idKnown (Option.some_ne_none host) noBacklog rfl
    (Stories.claim_of_eq (Stories.tell_self ..)) (fun shown => ?_) rfl (sound.saved_mono extends_)
  -- nobody has seen this ID, so the second one is of no use
  obtain ⟨story, told, isShown⟩ := shown
  obtain rfl := Option.some.inj ((Stories.tell_self ..).symm.trans told)
  exact absurd isShown Bool.false_ne_true

theorem replicaof_good (good : σ.Good S known) (n host : N) (flagged : Bool) (delivered : Nat → Nat) :
    ∃ τ T, σ.replicationSetMaster n host flagged delivered = .ok τ ∧ τ.Good T known := by
  have sound := good.servers n
  obtain ⟨cached, closes, isCached, ofMaster⟩ :=
    Server.closeLink_spec sound (fun l isLink => ⟨_, good.links n l isLink⟩) flagged
  have follow {cached : Option (ReplId × Nat)} (settled : (σ.servers n).backlog ≠ none ∨ cached ≠ none →
      (σ.servers n).Settled)
      (isC : ∀ c, cached = some c → c = ((σ.servers n).replid, (σ.servers n).masterReplOffset)) :
      (σ.disconnectSlaves n { σ.servers n with cachedMaster := cached, link := none, masterhost := some host }
        delivered).Good S known :=
    good.unlink Link.touches_cut (sound.follow host settled isC) (fun nowMaster => nomatch nowMaster) rfl
      (serves_cut (.refl S) rfl)
  rw [replicationSetMaster, closes, ok_bind]
  obtain isMaster | ⟨old, isHost⟩ := Option.eq_none_or_eq_some (σ.servers n).masterhost
  · rw [isMaster]
    simp only [Option.isNone_none, if_true]
    obtain noBacklog | kept := eq_or_ne (σ.servers n).backlog none
    · obtain ⟨T, good'⟩ := demote_silent_good good isMaster noBacklog host delivered
      exact ⟨_, T, rfl, good'⟩
    · exact ⟨_, S, rfl, follow (fun _ => Or.inl kept) fun c isC => (Option.some.inj isC).symm⟩
  · rw [isHost]
    simp only [Option.isNone_some, Bool.false_eq_true, if_false]
    obtain ⟨settled, isC⟩ := sound.closed isCached
    exact ⟨_, S, rfl, follow settled isC⟩

theorem replicaofNoOne_good (good : σ.Good S known) (n : N) (flagged : Bool) {fresh : ReplId} (new : fresh ∉ known)
    (delivered : Nat → Nat) :
    ∃ τ T, σ.replicationUnsetMaster n flagged fresh delivered = .ok τ ∧ τ.Good T (known ++ [fresh]) := by
  have sound := good.servers n
  obtain ⟨cached, closes, _⟩ := Server.closeLink_spec sound (fun l isLink => ⟨_, good.links n l isLink⟩) flagged
  have drawn : fresh ∈ known ++ [fresh] := List.mem_append_right _ (List.mem_singleton_self _)
  rw [replicationUnsetMaster]
  split
  · exact ⟨σ, S, rfl, good.mono (List.subset_append_left ..)⟩
  · rw [closes, ok_bind]
    obtain noBacklog | ⟨b, isBacklog⟩ := Option.eq_none_or_eq_some (σ.servers n).backlog
    · refine ⟨_, S, rfl, good.drawUntold new Link.touches_cut ?_ (fun _ => rfl) rfl (serves_cut (.refl S) rfl)⟩
      exact Server.sound_unsettled drawn noBacklog rfl (fun _ => ⟨good.untold new, rfl⟩) rfl sound.saved
    · obtain ⟨extends_, untold, stories⟩ :=
        good.tell_fresh new ⟨(σ.servers n).data, (σ.servers n).masterReplOffset, true⟩
      have kept : (σ.servers n).backlog ≠ none := Option.ne_none_iff_exists'.mpr ⟨b, isBacklog⟩
      have shown := (sound.shown kept).mono extends_
      have claim := (sound.claim (Or.inl kept)).mono extends_
      refine ⟨_, _, rfl, good.draw extends_ new untold stories Link.touches_cut ?_ (fun _ => rfl) rfl
        (serves_cut extends_ rfl)⟩
      exact Server.sound_master drawn isBacklog (sound.holds b isBacklog) (Stories.tell_self ..)
        (fun _ => Server.secondClaim_shift shown claim rfl) rfl rfl (sound.saved_mono extends_)

theorem connect_good (good : σ.Good S known) (s : N) : (σ.connect s).Good S known := by
  have sound := good.servers s
  rw [connect]
  split
  · rename_i host isHost unlinked
    have replica : (σ.servers s).masterhost ≠ none := Option.ne_none_iff_exists'.mpr ⟨host, isHost⟩
    refine good.step (.refl S) (List.Subset.refl _) (step_install (Link.touches_id s) (Nat.le_succ _) rfl ?_)
      good.stories (sound.relink replica _) (fun k _ _ => ⟨rfl, fun isMaster => absurd isMaster replica⟩) ?_
      (serves_same rfl rfl rfl rfl)
    · intro l isLink
      obtain rfl := Option.some.inj isLink
      exact Or.inr ⟨le_rfl, Nat.lt_succ_self _⟩
    · intro l isLink
      obtain rfl := Option.some.inj isLink
      intro asked isAsked
      obtain ⟨cached, isCached, same⟩ := Option.map_eq_some_iff.mp isAsked
      exact ⟨cached, isCached, same.symm⟩
  · exact good

/-- Nothing that a connection of `n` itself speaks of changes. -/
theorem Good.linked (good : σ.Good S known) {n : N} {x : Server N} (replid : x.replid = (σ.servers n).replid)
    (offset : x.masterReplOffset = (σ.servers n).masterReplOffset) (data : x.data = (σ.servers n).data)
    (cached : x.cachedMaster = (σ.servers n).cachedMaster)
    (backlog : x.backlog = none ↔ (σ.servers n).backlog = none) (link : x.link = (σ.servers n).link)
    (served : ∀ l, (σ.servers n).link = some l → l.Sound S x (σ.servers n) → l.Sound S x x) : Linked S σ n x := by
  intro l isLink
  rw [link] at isLink
  have here := (good.links n l isLink).view replid offset data cached backlog
  split
  · rename_i toSelf
    rw [toSelf] at here
    exact served l isLink here
  · exact here

theorem bgsave_good (good : σ.Good S known) (m : N) : (σ.startBgsave m).Good S known := by
  have sound := good.servers m
  rw [startBgsave]
  split
  · exact good
  · refine good.install Link.touches_bgsave sound (fun isMaster => ⟨isMaster, rfl⟩)
      (fun l isLink => ⟨l, isLink, rfl⟩) (good.linked rfl rfl rfl rfl Iff.rfl rfl fun _ _ => id) ?_
    intro k l _ _ _ was
    unfold Link.bgsave
    split
    · rename_i waiting
      have kept := sound.served (List.ne_nil_of_mem waiting.2.1)
      refine ⟨sound.shown kept, ?_, fun _ => ⟨rfl, rfl, (List.append_nil _).symm⟩⟩
      rw [List.append_nil]
      exact sound.claim (Or.inl kept)
    · exact was

/-- A replica that has to start anew closes its connections and forgets its backlog. -/
theorem resyncSlaves_good (good : σ.Good S known) {s : N} {l : Link N} (wasLink : (σ.servers s).link = some l)
    {link : Option (Link N)} (kept : ∀ l', link = some l' → l.conn = l'.conn ∧
      l'.Sound S { σ.servers s with cachedMaster := none, link := link, slaves := [], backlog := none }
        (if l'.peer = s then
          { σ.servers s with cachedMaster := none, link := link, slaves := [], backlog := none }
        else σ.servers l'.peer)) (delivered : Nat → Nat) :
    ∃ τ T, σ.resyncSlaves s { (σ.servers s).replicationDiscardCachedMaster with link := link } delivered = .ok τ ∧
      τ.Good T known := by
  have sound := good.servers s
  have replica := good.replica wasLink
  rw [resyncSlaves, Server.freeReplicationBacklog_spec rfl, ok_bind]
  have sound' : ({ σ.servers s with cachedMaster := none, link := link, slaves := [], backlog := none } :
      Server N).Sound S known :=
    Server.sound_unsettled sound.idKnown rfl rfl (fun isMaster => absurd isMaster replica) rfl sound.saved
  refine ⟨_, S, rfl, good.install Link.touches_cut sound' (fun isMaster => absurd isMaster replica)
    (fun l' isLink => ?_) (fun l' isLink => ?_) (serves_cut (.refl S) rfl)⟩
  · exact ⟨l, wasLink, (kept l' isLink).1⟩
  · exact (kept l' isLink).2

/-- A replica continues under the ID that the master has sent. -/
theorem continue_good (good : σ.Good S known) {s peer : N} {conn : Nat} {new : ReplId} {stream : Bytes}
    (isLink : (σ.servers s).link = some ⟨peer, conn, .continue new, stream⟩) {b : Backlog}
    (holds : b.Holds (σ.servers s).data (σ.servers s).masterReplOffset) (delivered : Nat → Nat) :
    (σ.disconnectSlaves s { σ.servers s with
      replid2 := (σ.servers s).replid
      secondReplidOffset := (σ.servers s).masterReplOffset + 1
      replid := new
      link := some ⟨peer, conn, .connected new (σ.servers s).masterReplOffset, stream⟩
      cachedMaster := none
      backlog := some b } delivered).Good S known := by
  have sound := good.servers s
  have replica := good.replica isLink
  obtain ⟨shownNew, shownOld, hasCache, flows⟩ := good.links s _ isLink
  have second := sound.claim (Or.inr hasCache)
  refine good.relink Link.touches_cut ?_ replica isLink rfl rfl ?_ (serves_cut (.refl S) rfl)
  · exact Server.sound_connected (good.shown_known shownNew) replica rfl holds flows.claim.start shownNew
      (fun _ => Server.secondClaim_shift shownOld second rfl) rfl sound.saved
  · exact ⟨rfl, rfl, Option.some_ne_none b, rfl, flows.ite_of_noSlaves rfl⟩

/-- A replica continues under the ID that it has. -/
theorem resurrect_good (good : σ.Good S known) {s peer : N} {conn : Nat} {stream : Bytes}
    (isLink : (σ.servers s).link = some ⟨peer, conn, .continue (σ.servers s).replid, stream⟩) {b : Backlog}
    (holds : b.Holds (σ.servers s).data (σ.servers s).masterReplOffset) :
    (σ.set s { σ.servers s with
      link := some ⟨peer, conn, .connected (σ.servers s).replid (σ.servers s).masterReplOffset, stream⟩
      cachedMaster := none
      backlog := some b }).Good S known := by
  have sound := good.servers s
  have replica := good.replica isLink
  obtain ⟨shown, _, hasCache, flows⟩ := good.links s _ isLink
  have settled : (σ.servers s).Settled := Or.inr hasCache
  refine good.relink (Link.touches_id s) ?_ replica isLink rfl rfl ?_ (serves_same rfl rfl rfl rfl)
  · exact Server.sound_connected sound.idKnown replica rfl holds (sound.claim settled) shown
      (fun nonneg => sound.second settled shown nonneg) rfl sound.saved
  · refine ⟨rfl, rfl, Option.some_ne_none b, rfl, flows.ite fun toSelf attached => ?_⟩
    change peer = s at toSelf
    subst toSelf
    exact flows.current attached

theorem readReply_good (good : σ.Good S known) (s : N) (memory : Memory) (delivered : Nat → Nat) :
    ∃ τ T, σ.readReply s memory delivered = .ok τ ∧ τ.Good T known := by
  have sound := good.servers s
  rw [readReply]
  split
  · rename_i peer conn new stream isLink
    obtain ⟨_, _, hasCache, _⟩ := good.links s _ isLink
    obtain ⟨⟨replid, reploff⟩, isCached⟩ := Option.ne_none_iff_exists'.mp hasCache
    obtain ⟨rfl, rfl⟩ := Prod.mk.inj (sound.cached _ isCached)
    rw [isCached]
    by_cases changed : new ≠ (σ.servers s).replid
    · simp only [if_pos changed]
      obtain ⟨b, created, holds⟩ := Server.createBacklogIfNone_spec
        { σ.servers s with
          replid2 := (σ.servers s).replid
          secondReplidOffset := (σ.servers s).masterReplOffset + 1
          replid := new
          link := some ⟨peer, conn, .connected new (σ.servers s).masterReplOffset, stream⟩
          cachedMaster := none } memory sound.holds
      rw [created, ok_bind]
      exact ⟨_, S, rfl, continue_good good isLink holds delivered⟩
    · rw [not_not] at changed
      subst changed
      simp only [ne_eq, not_true_eq_false, if_false]
      obtain ⟨b, created, holds⟩ := Server.createBacklogIfNone_spec
        { σ.servers s with
          link := some ⟨peer, conn, .connected (σ.servers s).replid (σ.servers s).masterReplOffset, stream⟩
          cachedMaster := none } memory sound.holds
      rw [created, ok_bind]
      exact ⟨_, S, rfl, resurrect_good good isLink holds⟩
  · rename_i peer conn snapshot stream isLink
    obtain ⟨shown, flows⟩ := good.links s _ isLink
    refine resyncSlaves_good good isLink (fun l' isLink' => ?_) delivered
    obtain rfl := Option.some.inj isLink'
    exact ⟨rfl, shown, flows.ite_of_noSlaves rfl, rfl, rfl⟩
  · exact ⟨σ, S, rfl, good⟩

theorem readErrorReply_good (good : σ.Good S known) (s : N) (written : Bool) (delivered : Nat → Nat) :
    ∃ τ T, σ.readErrorReply s written delivered = .ok τ ∧ τ.Good T known := by
  rw [readErrorReply]
  split
  · rename_i l isLink
    split
    · refine resyncSlaves_good good isLink (fun l' isLink' => ?_) delivered
      cases written with
      | true =>
        obtain rfl := Option.some.inj isLink'
        exact ⟨rfl, trivial⟩
      | false => cases isLink'
    · exact ⟨σ, S, rfl, good⟩
  · exact ⟨σ, S, rfl, good⟩

omit [DecidableEq N] in
/-- The file that a replica has received is as good as one it has saved. -/
theorem Good.received (good : σ.Good S known) {snapshot : Snapshot}
    (claim : S.Claim snapshot.replid snapshot.offset snapshot.data) (s : N) (diskless : Bool) (rdb : Rdb)
    (r o : Nat) (isDisk : (if diskless then (σ.servers s).disk else some snapshot.rdb) = some rdb)
    (info : rdb.info = some (r, o)) : S.Claim r o rdb.data := by
  cases diskless with
  | true => exact (good.servers s).saved rdb r o isDisk info
  | false =>
    obtain rfl := Option.some.inj isDisk
    obtain ⟨rfl, rfl⟩ := Prod.mk.inj (Option.some.inj info)
    exact claim

theorem finishLoad_good (good : σ.Good S known) (s : N) (diskless : Bool) (memory : Memory) :
    ∃ τ T, σ.finishLoad s diskless memory = .ok τ ∧ τ.Good T known := by
  have sound := good.servers s
  rw [finishLoad]
  split
  · rename_i peer conn snapshot stream isLink
    have replica := good.replica isLink
    obtain ⟨shown, flows, noCache, noBacklog⟩ := good.links s _ isLink
    have noSlaves := sound.noSlaves noBacklog
    obtain ⟨b, created, holds⟩ := Server.createBacklogIfNone_spec
      (Server.clearReplicationId2 { σ.servers s with
        data := snapshot.data
        replid := snapshot.replid
        masterReplOffset := snapshot.offset
        link := some ⟨peer, conn, .connected snapshot.replid snapshot.offset, stream⟩
        disk := if diskless then (σ.servers s).disk else some snapshot.rdb }) memory
      fun b isB => absurd (noBacklog.symm.trans isB) (Option.some_ne_none b).symm
    simp only [created, ok_bind]
    refine ⟨_, S, rfl, good.relink (Link.touches_id s) ?_ replica isLink rfl rfl ?_
      (serves_closed (.refl S) noSlaves)⟩
    · refine Server.sound_connected (good.shown_known shown) replica rfl holds flows.claim.start shown
        (fun nonneg => ?_) noCache (good.received flows.claim.start s diskless)
      exact absurd nonneg (show ¬ (0 : Int) ≤ -1 by decide)
    · exact ⟨rfl, rfl, Option.some_ne_none b, noCache, flows.ite_of_noSlaves noSlaves⟩
  · exact ⟨σ, S, rfl, good⟩

theorem failLoad_good (good : σ.Good S known) (s : N) (diskless : Bool) (data : Bytes) :
    (σ.failLoad s diskless data).Good S known := by
  have sound := good.servers s
  rw [failLoad]
  split
  · rename_i peer conn snapshot stream isLink
    have replica := good.replica isLink
    obtain ⟨_, flows, noCache, noBacklog⟩ := good.links s _ isLink
    have noSlaves := sound.noSlaves noBacklog
    refine good.unlink (Link.touches_id s) ?_ (fun isMaster => absurd isMaster replica) rfl
      (serves_closed (.refl S) noSlaves)
    exact Server.sound_unsettled sound.idKnown noBacklog noCache (fun isMaster => absurd isMaster replica) noSlaves
      (good.received flows.claim.start s diskless)
  · exact good

theorem loseLink_good (good : σ.Good S known) (s : N) (flagged : Bool) :
    ∃ τ T, σ.loseLink s flagged = .ok τ ∧ τ.Good T known := by
  have sound := good.servers s
  obtain ⟨cached, closes, isCached, ofMaster⟩ :=
    Server.closeLink_spec sound (fun l isLink => ⟨_, good.links s l isLink⟩) flagged
  obtain ⟨settled, isC⟩ := sound.closed isCached
  rw [loseLink, closes, ok_bind]
  refine ⟨_, S, rfl, good.unlink (Link.touches_id s) ?_ (fun isMaster => ⟨isMaster, rfl⟩) rfl
    (serves_same rfl rfl rfl rfl)⟩
  exact { sound with
    claim := fun now => sound.claim (settled now)
    second := fun now => sound.second (settled now)
    cached := isC
    alone := fun isMaster => ⟨ofMaster isMaster, rfl⟩ }

theorem closeSlave_good (good : σ.Good S known) (m : N) (conn delivered : Nat) :
    (σ.closeSlave m conn delivered).Good S known := by
  have sound := good.servers m
  have fewer : (σ.servers m).slaves.filter (· ≠ conn) ≠ [] → (σ.servers m).slaves ≠ [] :=
    fun some none => some (by rw [none, List.filter_nil])
  rw [closeSlave]
  refine good.install Link.touches_cut { sound with served := fun some => sound.served (fewer some) }
    (fun isMaster => ⟨isMaster, rfl⟩) (fun l isLink => ⟨l, isLink, rfl⟩) ?_ ?_
  · exact good.linked rfl rfl rfl rfl Iff.rfl rfl fun l _ here => here.reslave List.mem_of_mem_filter
  · intro k l _ _ _ was
    by_cases same : l.conn = conn
    · exact was.cut (.refl S) fun member => by simpa [same] using List.of_mem_filter member
    · rw [Link.cut, if_neg fun both => same (List.mem_singleton.mp both.2)]
      exact was.reslave List.mem_of_mem_filter

/-- A server changes in nothing that others see. -/
theorem Good.refresh (good : σ.Good S known) {n : N} {x : Server N} (sound : x.Sound S known)
    (masterhost : x.masterhost = (σ.servers n).masterhost) (replid : x.replid = (σ.servers n).replid)
    (offset : x.masterReplOffset = (σ.servers n).masterReplOffset) (data : x.data = (σ.servers n).data)
    (cached : x.cachedMaster = (σ.servers n).cachedMaster)
    (backlog : x.backlog = none ↔ (σ.servers n).backlog = none) (link : x.link = (σ.servers n).link)
    (slaves : x.slaves = (σ.servers n).slaves) : (σ.set n x).Good S known := by
  refine good.install (Link.touches_id n) sound (fun isMaster => ⟨masterhost ▸ isMaster, replid⟩)
    (fun l isLink => ⟨l, link ▸ isLink, rfl⟩) ?_ (serves_same slaves replid offset data)
  exact good.linked replid offset data cached backlog link fun _ _ here => here.sameMaster slaves replid offset data

theorem resizeBacklog_good (good : σ.Good S known) (m : N) (memory : Memory) :
    (σ.set m ((σ.servers m).resizeReplicationBacklog memory)).Good S known := by
  have sound := good.servers m
  rw [Server.resizeReplicationBacklog]
  split
  · rename_i isSome
    have kept : (σ.servers m).backlog ≠ none := Option.isSome_iff_ne_none.mp isSome
    refine good.refresh ?_ rfl rfl rfl rfl rfl (iff_of_false (Option.some_ne_none _) kept) rfl rfl
    exact { sound with
      holds := fun b isB => Option.some.inj isB ▸ Backlog.holds_create memory.2 ..
      claim := fun _ => sound.claim (Or.inl kept)
      owner := fun isMaster _ => sound.owner isMaster kept
      unowned := fun _ none => absurd none (Option.some_ne_none _)
      shown := fun _ => sound.shown kept
      second := fun _ => sound.second (Or.inl kept)
      served := fun _ => Option.some_ne_none _ }
  · exact good.refresh sound rfl rfl rfl rfl rfl Iff.rfl rfl rfl

omit [DecidableEq N] in
theorem Good.backlog_of_connected (good : σ.Good S known) {n : N} (isConnected : (σ.servers n).connected = true) :
    (σ.servers n).backlog ≠ none := by
  rw [Server.connected] at isConnected
  split at isConnected
  · rename_i peer conn replid reploff stream isLink
    obtain ⟨_, _, kept, _⟩ := good.links n _ isLink
    exact kept
  · cases isConnected

omit [DecidableEq N] in
/-- A file gets an ID and an offset only from a server that they stand for. -/
theorem Good.settled_of_saveInfo (good : σ.Good S known) {n : N} {info : ReplId × Nat}
    (isInfo : (σ.servers n).rdbPopulateSaveInfo = some info) :
    (σ.servers n).Settled ∧ info = ((σ.servers n).replid, (σ.servers n).masterReplOffset) := by
  rw [Server.rdbPopulateSaveInfo] at isInfo
  split at isInfo
  · rename_i has
    refine ⟨?_, (Option.some.inj isInfo).symm⟩
    rw [Bool.or_eq_true, Bool.or_eq_true, Bool.and_eq_true] at has
    rcases has with (⟨_, isSome⟩ | isConnected) | isSome
    · exact Or.inl (Option.isSome_iff_ne_none.mp isSome)
    · exact Or.inl (good.backlog_of_connected isConnected)
    · exact Or.inr (Option.isSome_iff_ne_none.mp isSome)
  · cases isInfo

theorem save_good (good : σ.Good S known) (n : N) : (σ.save n).Good S known := by
  have sound := good.servers n
  refine good.refresh { sound with saved := fun rdb r o isDisk info => ?_ } rfl rfl rfl rfl rfl Iff.rfl rfl rfl
  obtain rfl := Option.some.inj isDisk
  obtain ⟨settled, same⟩ := good.settled_of_saveInfo info
  obtain ⟨rfl, rfl⟩ := Prod.mk.inj same
  exact sound.claim settled

omit [DecidableEq N] in
/-- A server that starts has a new ID, or it is a replica again at the place where
the file was saved. -/
theorem loadDataFromDisk_sound (good : σ.Good S known) (n : N) (host : Option N) (aof : Option Bytes)
    {fresh : ReplId} (new : fresh ∉ known) :
    ∃ x, (σ.servers n).loadDataFromDisk fresh host aof = x ∧ x.Sound S (known ++ [fresh]) ∧
      (x.masterhost = none → x.replid = fresh) ∧ x.link = none ∧ x.slaves = [] := by
  have sound := good.servers n
  have drawn : fresh ∈ known ++ [fresh] := List.mem_append_right _ (List.mem_singleton_self _)
  have begins (data : Bytes) : ((σ.servers n).initServer fresh host data).Sound S (known ++ [fresh]) :=
    Server.sound_unsettled drawn rfl rfl (fun _ => ⟨good.untold new, rfl⟩) rfl sound.saved
  unfold Server.loadDataFromDisk
  split
  · exact ⟨_, rfl, begins _, fun _ => rfl, rfl, rfl⟩
  · exact ⟨_, rfl, begins _, fun _ => rfl, rfl, rfl⟩
  · rename_i rdb isDisk
    split
    · rename_i master replid offset info
      have claim := sound.saved rdb replid offset isDisk info
      have known' := claim
      obtain ⟨story, _, told, _⟩ := known'
      have isKnown := List.mem_append_left [fresh] (good.stories _ story told)
      refine ⟨_, rfl, ?_, fun isMaster => absurd isMaster (Option.some_ne_none master), rfl, rfl⟩
      exact Server.sound_cached isKnown (Option.some_ne_none master) rfl rfl claim
        (fun _ nonneg => absurd nonneg (show ¬ (0 : Int) ≤ -1 by decide)) rfl sound.saved
    · exact ⟨_, rfl, begins _, fun _ => rfl, rfl, rfl⟩

theorem restart_good (good : σ.Good S known) (n : N) (host : Option N) (aof : Option Bytes) {fresh : ReplId}
    (new : fresh ∉ known) (delivered : Nat → Nat) :
    (σ.restart n host aof fresh delivered).Good S (known ++ [fresh]) := by
  obtain ⟨x, loads, sound, role, unlinked, noSlaves⟩ := loadDataFromDisk_sound good n host aof new
  rw [restart, loads]
  exact good.drawUntold new Link.touches_cut sound role unlinked (serves_cut (.refl S) noSlaves)

theorem backlogTimeout_good (good : σ.Good S known) (m : N) {fresh : ReplId} (new : fresh ∉ known) :
    ∃ τ T, σ.backlogTimeout m fresh = .ok τ ∧ τ.Good T (known ++ [fresh]) := by
  have sound := good.servers m
  have drawn : fresh ∈ known ++ [fresh] := List.mem_append_right _ (List.mem_singleton_self _)
  rw [backlogTimeout]
  split
  · rename_i idle
    obtain ⟨noSlaves, _, isNone⟩ := idle
    have isMaster : (σ.servers m).masterhost = none := Option.isNone_iff_eq_none.mp isNone
    obtain ⟨noCache, unlinked⟩ := sound.alone isMaster
    have frees : ((σ.servers m).changeReplicationId fresh).clearReplicationId2.freeReplicationBacklog = .ok _ :=
      Server.freeReplicationBacklog_spec noSlaves
    rw [frees, ok_bind]
    refine ⟨_, S, rfl, good.drawUntold new (Link.touches_id m) ?_ (fun _ => rfl) unlinked
      (serves_closed (.refl S) noSlaves)⟩
    exact Server.sound_unsettled drawn rfl noCache (fun _ => ⟨good.untold new, unlinked⟩) noSlaves sound.saved
  · exact ⟨σ, S, rfl, good.mono (List.subset_append_left ..)⟩

end System

end BlogAlgorithms.Redis.Psync
