import BlogAlgorithms.Redis.ClusterVote
import Mathlib.Data.Finset.Card
import Mathlib.Data.List.Pairwise

namespace BlogAlgorithms.Redis.Cluster
variable {Node : Type} [DecidableEq Node]

namespace State

/-- A header only raises the current epoch. -/
theorem processHeader_election (s : State Node) (hdr : Header Node) :
    ∃ epoch, (s.processHeader hdr).1.election = { s.election with currentEpoch := epoch } ∧
      s.election.currentEpoch ≤ epoch ∧ (s.processHeader hdr).2 ≤ hdr.currentEpoch := by
  rw [processHeader]
  split
  · refine ⟨_, rfl, ?_, le_rfl⟩
    split
    · rename_i less
      exact less.le
    · exact le_rfl
  · exact ⟨s.election.currentEpoch, rfl, le_rfl, Nat.zero_le _⟩

/-- A node votes only in an epoch that it has not voted in and that is not past
for the request. -/
theorem sendFailoverAuth_cases (config : Config) (s : State Node) (myself : Node) (request : Header Node)
    (now : Int) :
    s.clusterSendFailoverAuthIfNeeded config myself request now = (s, false) ∨
      ∃ next, s.clusterSendFailoverAuthIfNeeded config myself request now = (next, true) ∧
        next.election = { s.election with lastVoteEpoch := s.election.currentEpoch } ∧
        s.election.currentEpoch ≤ request.currentEpoch ∧ s.election.lastVoteEpoch ≠ s.election.currentEpoch := by
  rw [clusterSendFailoverAuthIfNeeded]
  by_cases voter : (s.view.slave myself || s.view.numslots myself = 0) = true
  · exact Or.inl (if_pos voter)
  rw [if_neg voter]
  by_cases past : request.currentEpoch < s.election.currentEpoch
  · exact Or.inl (if_pos past)
  rw [if_neg past]
  by_cases voted : s.election.lastVoteEpoch = s.election.currentEpoch
  · exact Or.inl (if_pos voted)
  rw [if_neg voted]
  split
  · exact Or.inl rfl
  · split
    · exact Or.inl rfl
    · split
      · exact Or.inl rfl
      · split
        · exact Or.inl rfl
        · exact Or.inr ⟨_, rfl, rfl, by omega, voted⟩

theorem processAck_election (s : State Node) (sender : Node) (epoch : Nat) :
    (s.processAck sender epoch).election =
      if s.countsAck sender epoch then { s.election with failoverAuthCount := s.election.failoverAuthCount + 1 }
      else s.election := by
  rw [processAck]
  split
  · rfl
  · rfl

omit [DecidableEq Node] in
theorem updateRank_election (s : State Node) (clock : Clock) : (s.updateRank clock).election = s.election := by
  rw [updateRank]
  split
  · rfl
  · rfl

theorem replaceYourMaster_election (s : State Node) (myself : Node) :
    (s.clusterFailoverReplaceYourMaster myself).election = s.election := by
  rw [clusterFailoverReplaceYourMaster]
  split
  · rfl
  · split
    · rfl
    · rfl

theorem takeOver_election (s : State Node) (myself : Node) : (s.takeOver myself).election = s.election := by
  rw [takeOver, replaceYourMaster_election]

/-- What a call does to the election of a replica. -/
inductive FailoverStep (s : State Node) : State Node × Failover → Prop
  | unable {next : State Node} (same : next.election = s.election) : FailoverStep s (next, .unable)
  | scheduled {next : State Node}
      (reset : next.election = { s.election with failoverAuthCount := 0, failoverAuthSent := false }) :
      FailoverStep s (next, .scheduled)
  | requested {next : State Node} (closed : s.election.failoverAuthSent = false)
      (begun : next.election = { s.election with
        currentEpoch := nextEpoch s.election.currentEpoch
        failoverAuthEpoch := nextEpoch s.election.currentEpoch
        failoverAuthSent := true }) : FailoverStep s (next, .requested)
  | won {next : State Node} (opened : s.election.failoverAuthSent = true) (same : next.election = s.election)
      (quorum : s.view.size / 2 + 1 ≤ s.election.failoverAuthCount) : FailoverStep s (next, .won)

theorem handleSlaveFailover_step (config : Config) (s : State Node) (myself : Node) (clock : Clock) :
    FailoverStep s (s.clusterHandleSlaveFailover config myself clock) := by
  have rank := updateRank_election s clock
  rw [clusterHandleSlaveFailover]
  simp only
  split
  · exact .unable rfl
  split
  · exact .scheduled rfl
  split
  · exact .unable rank
  split
  · exact .unable rank
  split
  · rename_i closed
    refine .requested ?_ ?_
    · rw [← rank]
      simpa using closed
    · rw [startElection, rank]
  · rename_i opened
    split
    · rename_i quorum
      rw [rank] at quorum opened
      exact .won (by simpa using opened) ((takeOver_election _ _).trans rank) quorum
    · exact .unable rank

/-- Nothing but the current epoch changes, and that grows. -/
def Raises (before after : Election) : Prop :=
  ∃ epoch, after = { before with currentEpoch := epoch } ∧ before.currentEpoch ≤ epoch

theorem Raises.refl (election : Election) : Raises election election := ⟨_, rfl, le_rfl⟩

theorem nextEpoch_eq {epoch : Nat} (small : epoch + 1 < 2 ^ 64) : nextEpoch epoch = epoch + 1 :=
  Nat.mod_eq_of_lt small

theorem raises_takeEpoch (s : State Node) (myself : Node) (small : s.election.currentEpoch + 1 < 2 ^ 64) :
    Raises s.election (s.takeEpoch myself).election :=
  ⟨_, rfl, by rw [nextEpoch_eq small]; exact Nat.le_succ _⟩

theorem raises_bump (s : State Node) (myself : Node) (small : s.election.currentEpoch + 1 < 2 ^ 64) :
    Raises s.election (s.clusterBumpConfigEpochWithoutConsensus myself).election := by
  rw [clusterBumpConfigEpochWithoutConsensus]
  split
  · exact raises_takeEpoch s myself small
  · exact .refl _

theorem raises_collision [LT Node] [DecidableLT Node] (s : State Node) (myself sender : Node)
    (small : s.election.currentEpoch + 1 < 2 ^ 64) :
    Raises s.election (s.clusterHandleConfigEpochCollision myself sender).election := by
  rw [clusterHandleConfigEpochCollision]
  split
  · exact .refl _
  split
  · exact raises_takeEpoch s myself small
  · exact .refl _

end State

/-- The node and the epoch of a vote. -/
def Vote.ballot (vote : Vote Node) : Node × Nat := (vote.voter, vote.epoch)

def Ack.ballot (message : Ack Node) : Node × Nat := (message.hdr.sender, message.hdr.currentEpoch)

/-- What a node has on disk is not ahead of it, and is its last vote unless it has
still to save. -/
structure Ledger (election : Election) (saved : Nat × Nat) (todoSave : Bool) : Prop where
  sane : saved.2 ≤ saved.1
  onDisk : saved.1 ≤ election.currentEpoch
  behind : saved.2 ≤ election.lastVoteEpoch
  voted : election.lastVoteEpoch ≤ election.currentEpoch
  kept : todoSave = false → saved.2 = election.lastVoteEpoch

/-- The votes of the nodes so far. Those sent are on disk, and no two of them or of
those still to be sent are of one node in one epoch. -/
structure Voted (elections : Node → Election) (saved : Node → Nat × Nat) (todoSave : Node → Bool)
    (outbox : List (Ack Node)) (votes : List (Vote Node)) : Prop where
  ledger : ∀ node, Ledger (elections node) (saved node) (todoSave node)
  waiting : ∀ message ∈ outbox, message.hdr.currentEpoch ≤ (elections message.hdr.sender).lastVoteEpoch
  past : ∀ vote ∈ votes, vote.epoch ≤ (saved vote.voter).2
  once : (outbox.map Ack.ballot ++ votes.map Vote.ballot).Nodup

section Voted
variable {elections : Node → Election} {saved : Node → Nat × Nat} {todoSave : Node → Bool}
  {outbox : List (Ack Node)} {votes : List (Vote Node)} {node : Node}

omit [DecidableEq Node] in
theorem Voted.unique (voted : Voted elections saved todoSave outbox votes) {vote other : Vote Node}
    (member : vote ∈ votes) (otherMember : other ∈ votes) (sameVoter : vote.voter = other.voter)
    (sameEpoch : vote.epoch = other.epoch) : vote = other :=
  List.inj_on_of_nodup_map (List.nodup_append.mp voted.once).2.1 member otherMember (Prod.ext sameVoter sameEpoch)

omit [DecidableEq Node] in
/-- All ballots of a node are of epochs up to that of its last vote. -/
theorem Voted.ballot_le (voted : Voted elections saved todoSave outbox votes) {epoch : Nat}
    (member : (node, epoch) ∈ outbox.map Ack.ballot ++ votes.map Vote.ballot) :
    epoch ≤ (elections node).lastVoteEpoch := by
  rcases List.mem_append.mp member with member | member
  · obtain ⟨message, isMessage, equal⟩ := List.mem_map.mp member
    obtain ⟨rfl, rfl⟩ := Prod.mk.inj equal
    exact voted.waiting message isMessage
  · obtain ⟨vote, isVote, equal⟩ := List.mem_map.mp member
    obtain ⟨rfl, rfl⟩ := Prod.mk.inj equal
    exact (voted.past vote isVote).trans (voted.ledger vote.voter).behind

/-- One node changes, but neither forgets what it has on disk nor a vote that it has
still to send. -/
theorem Voted.change (voted : Voted elections saved todoSave outbox votes) {election : Election} {disk : Nat × Nat}
    {todo : Bool} (ledger : Ledger election disk todo) (keeps : (saved node).2 ≤ disk.2)
    (waiting : ∀ message ∈ outbox, message.hdr.sender = node → message.hdr.currentEpoch ≤ election.lastVoteEpoch) :
    Voted (Function.update elections node election) (Function.update saved node disk)
      (Function.update todoSave node todo) outbox votes := by
  refine ⟨fun other => ?_, fun message member => ?_, fun vote member => ?_, voted.once⟩
  · by_cases same : other = node
    · subst same
      simpa only [Function.update_self] using ledger
    · simpa only [Function.update_of_ne same] using voted.ledger other
  · by_cases same : message.hdr.sender = node
    · rw [same, Function.update_self]
      exact waiting message member same
    · rw [Function.update_of_ne same]
      exact voted.waiting message member
  · have before := voted.past vote member
    by_cases same : vote.voter = node
    · rw [same] at before ⊢
      rw [Function.update_self]
      exact before.trans keeps
    · rw [Function.update_of_ne same]
      exact before

/-- A node that does not vote and whose epoch does not fall. -/
theorem Voted.update (voted : Voted elections saved todoSave outbox votes) {after : Election}
    (sameVote : after.lastVoteEpoch = (elections node).lastVoteEpoch)
    (later : (elections node).currentEpoch ≤ after.currentEpoch) :
    Voted (Function.update elections node after) saved todoSave outbox votes := by
  obtain ⟨sane, onDisk, behind, lastVote, kept⟩ := voted.ledger node
  have ledger : Ledger after (saved node) (todoSave node) :=
    ⟨sane, onDisk.trans later, sameVote ▸ behind, sameVote ▸ lastVote.trans later, fun todo => sameVote ▸ kept todo⟩
  have changed := voted.change ledger le_rfl fun message member isNode => by
    rw [sameVote, ← isNode]
    exact voted.waiting message member
  rwa [Function.update_eq_self, Function.update_eq_self] at changed

theorem Voted.save (voted : Voted elections saved todoSave outbox votes) (node : Node) :
    Voted elections (Function.update saved node ((elections node).currentEpoch, (elections node).lastVoteEpoch))
      (Function.update todoSave node false) outbox votes := by
  have before := voted.ledger node
  have ledger : Ledger (elections node) ((elections node).currentEpoch, (elections node).lastVoteEpoch) false :=
    ⟨before.voted, le_rfl, le_rfl, before.voted, fun _ => rfl⟩
  have changed :=
    voted.change ledger before.behind fun message member isNode => isNode ▸ voted.waiting message member
  rwa [Function.update_eq_self] at changed

omit [DecidableEq Node] in
/-- Votes that are not sent may be lost. -/
theorem Voted.lose (voted : Voted elections saved todoSave outbox votes) {left : List (Ack Node)}
    (fewer : left.Sublist outbox) : Voted elections saved todoSave left votes :=
  ⟨voted.ledger, fun message member => voted.waiting message (fewer.subset member), voted.past,
    voted.once.sublist ((fewer.map Ack.ballot).append_right _)⟩

/-- A vote in the current epoch, in which the node has not voted. -/
theorem Voted.vote (voted : Voted elections saved todoSave outbox votes)
    (fresh : (elections node).lastVoteEpoch ≠ (elections node).currentEpoch) {sent : List (Ack Node)}
    (one : sent.length ≤ 1)
    (sending : ∀ message ∈ sent, message.ballot = (node, (elections node).currentEpoch)) :
    Voted (Function.update elections node
      { elections node with lastVoteEpoch := (elections node).currentEpoch })
      saved (Function.update todoSave node true) (outbox ++ sent) votes := by
  have before := voted.ledger node
  have less : (elections node).lastVoteEpoch < (elections node).currentEpoch := lt_of_le_of_ne before.voted fresh
  have ledger : Ledger { elections node with lastVoteEpoch := (elections node).currentEpoch } (saved node) true :=
    ⟨before.sane, before.onDisk, before.behind.trans less.le, le_rfl, fun todo => by cases todo⟩
  have changed := voted.change ledger le_rfl fun message member isNode => by
    subst isNode
    exact (voted.waiting message member).trans less.le
  rw [Function.update_eq_self] at changed
  refine ⟨changed.ledger, fun message member => ?_, changed.past, ?_⟩
  · rcases List.mem_append.mp member with member | member
    · exact changed.waiting message member
    · obtain ⟨rfl, epoch⟩ := Prod.mk.inj (sending message member)
      rw [Function.update_self]
      exact epoch.le
  · cases sent with
    | nil =>
      rw [List.append_nil]
      exact voted.once
    | cons message rest =>
      obtain rfl : rest = [] := List.length_eq_zero_iff.mp (by rw [List.length_cons] at one; omega)
      have perm : ((outbox ++ [message]).map Ack.ballot ++ votes.map Vote.ballot).Perm
          (message.ballot :: (outbox.map Ack.ballot ++ votes.map Vote.ballot)) := by
        rw [List.map_append, List.append_assoc]
        exact List.perm_middle
      refine perm.nodup_iff.mpr (List.nodup_cons.mpr ⟨fun member => ?_, voted.once⟩)
      rw [sending message List.mem_cons_self] at member
      exact absurd (voted.ballot_le member) (by omega)

omit [DecidableEq Node] in
/-- A vote is sent after it is saved. -/
theorem Voted.send (voted : Voted elections saved todoSave outbox votes) {index : Nat} {message : Ack Node}
    (waits : outbox[index]? = some message) (isSaved : todoSave message.hdr.sender = false) :
    Voted elections saved todoSave (outbox.eraseIdx index)
      (votes ++ [⟨message.hdr.sender, message.hdr.currentEpoch, message.receiver⟩]) := by
  have left := voted.lose (List.eraseIdx_sublist outbox index)
  refine ⟨voted.ledger, left.waiting, fun vote member => ?_, ?_⟩
  · rcases List.mem_append.mp member with member | member
    · exact voted.past vote member
    · obtain rfl := List.mem_singleton.mp member
      have bound := voted.waiting message (List.mem_of_getElem? waits)
      rwa [← (voted.ledger _).kept isSaved] at bound
  · obtain ⟨inside, isMessage⟩ := List.getElem?_eq_some_iff.mp waits
    have perm := (List.getElem_cons_eraseIdx_perm inside).map Ack.ballot
    rw [isMessage, List.map_cons] at perm
    have whole := (perm.append_right (votes.map Vote.ballot)).nodup_iff.mpr voted.once
    refine List.Perm.nodup_iff ?_ |>.mp whole
    rw [List.map_append, List.cons_append, ← List.append_assoc]
    exact (List.perm_append_singleton _ _).symm

end Voted

namespace System

def elections (sys : System Node) (node : Node) : Election := (sys.nodes node).election

@[simp] theorem elections_update (sys : System Node) (node : Node) (s : State Node) :
    (sys.update node s).elections = Function.update sys.elections node s.election :=
  Function.comp_update State.election sys.nodes node s

def Votes (sys : System Node) : Prop := Voted sys.elections sys.saved sys.todoSave sys.outbox sys.votes

theorem Votes.raise {sys : System Node} (voted : sys.Votes) {node : Node} {s : State Node}
    (raises : State.Raises (sys.elections node) s.election) : (sys.update node s).Votes := by
  obtain ⟨epoch, same, later⟩ := raises
  rw [Votes, elections_update]
  exact Voted.update voted (by rw [same]) (by rw [same]; exact later)

theorem Votes.failover {sys : System Node} (voted : sys.Votes) (config : Config) (node : Node) (clock : Clock)
    (receivers : List Node) (small : (sys.elections node).currentEpoch + 1 < 2 ^ 64) :
    (sys.failover config node clock receivers).Votes := by
  have step := (sys.nodes node).handleSlaveFailover_step config node clock
  have kept {next : State Node} (lastVote : next.election.lastVoteEpoch = (sys.elections node).lastVoteEpoch)
      (later : (sys.elections node).currentEpoch ≤ next.election.currentEpoch) : (sys.update node next).Votes := by
    rw [Votes, elections_update]
    exact Voted.update voted lastVote later
  rw [System.failover]
  generalize (sys.nodes node).clusterHandleSlaveFailover config node clock = result at step
  cases step with
  | unable same => exact kept (by rw [same]; rfl) (by rw [same]; exact le_rfl)
  | scheduled reset => exact kept (by rw [reset]; rfl) (by rw [reset]; exact le_rfl)
  | requested closed begun =>
    refine kept (by rw [begun]; rfl) ?_
    rw [begun]
    exact (Nat.le_succ _).trans (State.nextEpoch_eq small).ge
  | won opened same quorum => exact kept (by rw [same]; rfl) (by rw [same]; exact le_rfl)

/-- What the request for a vote does: the epoch may grow, and then the node may vote,
with at most one message. -/
theorem request_cases (config : Config) (sys : System Node) (node : Node) (hdr : Header Node) (now : Int)
    (linked : Bool) :
    (∃ s, State.Raises (sys.elections node) s.election ∧
      sys.request config node hdr now linked = sys.update node s) ∨
      ∃ raised s, ∃ sent : List (Ack Node), State.Raises (sys.elections node) raised ∧
        raised.currentEpoch ≤ hdr.currentEpoch ∧ raised.lastVoteEpoch ≠ raised.currentEpoch ∧
        s.election = { raised with lastVoteEpoch := raised.currentEpoch } ∧ sent.length ≤ 1 ∧
        (∀ message ∈ sent, message.ballot = (node, raised.currentEpoch) ∧ message.receiver = hdr.sender) ∧
        sys.request config node hdr now linked = { sys.update node s with
          todoSave := Function.update sys.todoSave node true, outbox := sys.outbox ++ sent } := by
  obtain ⟨epoch, raised, later, _⟩ := (sys.nodes node).processHeader_election hdr
  have raises : State.Raises (sys.elections node) ((sys.nodes node).processHeader hdr).1.election :=
    ⟨epoch, raised, later⟩
  rw [request]
  generalize ((sys.nodes node).processHeader hdr) = processed at raises
  obtain ⟨s, _⟩ := processed
  simp only at raises ⊢
  split
  · rcases s.sendFailoverAuth_cases config node hdr now with none | ⟨next, votes, election, notPast, fresh⟩
    · rw [none]
      exact Or.inl ⟨s, raises, rfl⟩
    · rw [votes]
      cases linked with
      | true =>
        refine Or.inr ⟨s.election, next, [⟨hdr.sender, next.header node false⟩], raises, notPast, fresh, election,
          le_rfl, fun message member => ?_, rfl⟩
        obtain rfl := List.mem_singleton.mp member
        have current : next.election.currentEpoch = s.election.currentEpoch := by rw [election]
        exact ⟨Prod.ext rfl current, rfl⟩
      | false =>
        refine Or.inr ⟨s.election, next, [], raises, notPast, fresh, election, Nat.zero_le 1,
          fun message member => (List.not_mem_nil member).elim, ?_⟩
        rw [List.append_nil]
        rfl
  · exact Or.inl ⟨s, raises, rfl⟩

theorem Votes.request {sys : System Node} (voted : sys.Votes) (config : Config) (node : Node) (hdr : Header Node)
    (now : Int) (linked : Bool) : (sys.request config node hdr now linked).Votes := by
  rcases request_cases config sys node hdr now linked with
    ⟨s, raises, same⟩ | ⟨raised, s, sent, raises, _, fresh, election, one, sending, same⟩
  · rw [same]
    exact voted.raise raises
  · have middle :
        Voted (Function.update sys.elections node raised) sys.saved sys.todoSave sys.outbox sys.votes := by
      obtain ⟨epoch, rfl, later⟩ := raises
      exact Voted.update voted rfl later
    have self : Function.update sys.elections node raised node = raised := Function.update_self ..
    have votes := middle.vote (by rwa [self]) one fun message member => by
      rw [self]
      exact (sending message member).1
    rw [self, ← election, Function.update_idem] at votes
    have elections : System.elections { sys.update node s with
        todoSave := Function.update sys.todoSave node true, outbox := sys.outbox ++ sent } =
        Function.update sys.elections node s.election := elections_update sys node s
    rw [same, Votes, elections]
    exact votes

/-- Whether the receiver counts the vote. -/
def Counts (sys : System Node) (message : Ack Node) : Prop :=
  ((sys.nodes message.receiver).processHeader message.hdr).1.countsAck message.hdr.sender
    ((sys.nodes message.receiver).processHeader message.hdr).2 = true

/-- What the arrival of a vote does: the epoch may grow, and the vote may be counted,
but not a vote of an epoch before that of the election. -/
theorem ack_cases (sys : System Node) (message : Ack Node) :
    ∃ s raised, sys.ack message = sys.update message.receiver s ∧
      State.Raises (sys.elections message.receiver) raised ∧
      (s.election = raised ∨ sys.Counts message ∧ raised.failoverAuthEpoch ≤ message.hdr.currentEpoch ∧
        s.election = { raised with failoverAuthCount := raised.failoverAuthCount + 1 }) := by
  obtain ⟨epoch, raised, later, below⟩ := (sys.nodes message.receiver).processHeader_election message.hdr
  have raises : State.Raises (sys.elections message.receiver)
    ((sys.nodes message.receiver).processHeader message.hdr).1.election := ⟨epoch, raised, later⟩
  rw [ack, Counts]
  generalize ((sys.nodes message.receiver).processHeader message.hdr) = processed at raises below
  obtain ⟨s, senderCurrentEpoch⟩ := processed
  simp only at raises below ⊢
  refine ⟨_, s.election, rfl, raises, ?_⟩
  rw [State.processAck_election]
  by_cases counts : s.countsAck message.hdr.sender senderCurrentEpoch = true
  · rw [if_pos counts]
    refine Or.inr ⟨counts, ?_, rfl⟩
    simp only [State.countsAck, Bool.and_eq_true, decide_eq_true_eq] at counts
    omega
  · rw [if_neg counts]
    exact Or.inl rfl

theorem Votes.ack {sys : System Node} (voted : sys.Votes) (message : Ack Node) : (sys.ack message).Votes := by
  obtain ⟨s, raised, same, ⟨epoch, rfl, later⟩, outcome⟩ := sys.ack_cases message
  rw [same, Votes, elections_update]
  rcases outcome with election | ⟨_, _, election⟩
  · exact Voted.update voted (by rw [election]) (by rw [election]; exact later)
  · exact Voted.update voted (by rw [election]) (by rw [election]; exact later)

omit [DecidableEq Node] in
/-- A node that has read its configuration may have raised its epoch. -/
theorem loaded_election (saved : Nat × Nat) (view : View Node) :
    ∃ epoch, (loaded saved view).election = ⟨epoch, saved.2, 0, 0, false⟩ ∧ saved.1 ≤ epoch := by
  rw [loaded]
  simp only
  split
  · rename_i less
    exact ⟨_, rfl, less.le⟩
  · exact ⟨_, rfl, le_rfl⟩

omit [DecidableEq Node] in
theorem ledger_loaded {saved : Nat × Nat} (sane : saved.2 ≤ saved.1) (view : View Node) :
    Ledger (loaded saved view).election saved false := by
  obtain ⟨epoch, election, raised⟩ := loaded_election saved view
  rw [election]
  exact ⟨sane, raised, le_rfl, sane.trans raised, fun _ => rfl⟩

theorem Votes.restart {sys : System Node} (voted : sys.Votes) (node : Node) (view : View Node) :
    (sys.restart node view).Votes := by
  have left := voted.lose (List.filter_sublist (p := fun message => message.hdr.sender ≠ node) (l := sys.outbox))
  have changed := left.change (ledger_loaded (voted.ledger node).sane view) le_rfl fun message member isNode =>
    absurd isNode (of_decide_eq_true (List.mem_filter.mp member).2)
  rw [Function.update_eq_self] at changed
  have elections : (sys.restart node view).elections =
      Function.update sys.elections node (loaded (sys.saved node) view).election := elections_update sys node _
  rw [Votes, elections]
  exact changed

variable [LT Node] [DecidableLT Node]

/-- The assumptions on a step: no epoch overflows, and a vote leaves a node only after
`clusterBeforeSleep` has saved it. -/
def Orderly (sys : System Node) : Action Node → Prop
  | .bump node => (sys.elections node).currentEpoch + 1 < 2 ^ 64
  | .collision node _ => (sys.elections node).currentEpoch + 1 < 2 ^ 64
  | .failover node _ _ => (sys.elections node).currentEpoch + 1 < 2 ^ 64
  | .write index => ∀ message ∈ sys.outbox[index]?, sys.todoSave message.hdr.sender = false
  | _ => True

def OrderlyRun (config : Config) (sys : System Node) : List (Action Node) → Prop
  | [] => True
  | action :: rest => sys.Orderly action ∧ OrderlyRun config (sys.act config action) rest

instance decidableOrderly (sys : System Node) : (action : Action Node) → Decidable (sys.Orderly action)
  | .bump .. => inferInstanceAs (Decidable (_ < _))
  | .collision .. => inferInstanceAs (Decidable (_ < _))
  | .failover .. => inferInstanceAs (Decidable (_ < _))
  | .write index => inferInstanceAs (Decidable (∀ message ∈ sys.outbox[index]?, _))
  | .reconfigure .. => isTrue trivial
  | .packet .. => isTrue trivial
  | .request .. => isTrue trivial
  | .unlink .. => isTrue trivial
  | .ack .. => isTrue trivial
  | .lose .. => isTrue trivial
  | .save .. => isTrue trivial
  | .restart .. => isTrue trivial

instance decidableOrderlyRun (config : Config) :
    (sys : System Node) → (actions : List (Action Node)) → Decidable (sys.OrderlyRun config actions)
  | _, [] => isTrue trivial
  | sys, action :: rest =>
    have := decidableOrderlyRun config (sys.act config action) rest
    inferInstanceAs (Decidable (_ ∧ _))

theorem Votes.act {sys : System Node} (voted : sys.Votes) (config : Config) (action : Action Node)
    (orderly : sys.Orderly action) : (sys.act config action).Votes := by
  cases action with
  | reconfigure node view mfEnd mfCanStart => exact voted.raise (.refl _)
  | packet node hdr =>
    obtain ⟨epoch, raised, later, _⟩ := (sys.nodes node).processHeader_election hdr
    exact voted.raise ⟨epoch, raised, later⟩
  | bump node => exact voted.raise ((sys.nodes node).raises_bump node orderly)
  | collision node sender => exact voted.raise ((sys.nodes node).raises_collision node sender orderly)
  | failover node clock receivers => exact voted.failover config node clock receivers orderly
  | request index now linked =>
    rw [System.act]
    split
    · exact voted
    · rename_i receiver hdr _
      have left : Votes { sys with requests := sys.requests.eraseIdx index } := voted
      exact left.request config receiver hdr now linked
  | write index =>
    rw [System.act]
    split
    · exact voted
    · rename_i message waits
      exact Voted.send voted waits (orderly message waits)
  | unlink index => exact Voted.lose voted (List.eraseIdx_sublist ..)
  | ack index =>
    rw [System.act]
    split
    · exact voted
    · rename_i message _
      have left : Votes { sys with acks := sys.acks.eraseIdx index } := voted
      exact left.ack message
  | lose index => exact voted
  | save node => exact Voted.save voted node
  | restart node view => exact voted.restart node view

theorem Votes.run {sys : System Node} (voted : sys.Votes) (config : Config) (actions : List (Action Node))
    (orderly : sys.OrderlyRun config actions) : (sys.run config actions).Votes := by
  induction actions generalizing sys with
  | nil => exact voted
  | cons action rest ih => exact ih (voted.act config action orderly.1) orderly.2

omit [DecidableEq Node] [LT Node] [DecidableLT Node] in
theorem votes_start {saved : Node → Nat × Nat} (sane : ∀ node, (saved node).2 ≤ (saved node).1)
    (views : Node → View Node) : (start saved views).Votes :=
  ⟨fun node => ledger_loaded (sane node) (views node), fun _ none => (List.not_mem_nil none).elim,
    fun _ none => (List.not_mem_nil none).elim, .nil⟩

/-- Three masters, of which the first has failed, and two replicas of it. -/
def failedMaster : View Nat where
  nodes := [0, 1, 2, 3, 4]
  master := fun node => decide (node < 3)
  slave := fun node => decide (3 ≤ node)
  handshake := fun _ => false
  fail := fun node => decide (node = 0)
  slaveof := fun node => if 3 ≤ node then some 0 else none
  numslots := fun node => if node < 3 then 1 else 0
  configEpoch := fun _ => 0
  votedTime := fun _ => 0
  slots := fun _ => none
  size := 3

-- While the server is blocked `beforeSleep` does not save, and a vote that leaves the
-- node then is forgotten by a restart: the node votes for both replicas in epoch 3.
example :
    ((start (fun _ => (2, 1)) fun _ => failedMaster).run ⟨1000, false, 0, 10⟩
      [.failover 3 ⟨10000, 0, 0, 0⟩ [], .failover 3 ⟨10600, 0, 0, 0⟩ [1, 2], .failover 4 ⟨10000, 0, 0, 0⟩ [],
        .failover 4 ⟨10600, 0, 0, 0⟩ [1, 2], .request 0 10601 true, .write 0, .restart 1 failedMaster,
        .request 1 10602 true, .write 0]).votes = [⟨1, 3, 3⟩, ⟨1, 3, 4⟩] := by
  decide +kernel

end System

end BlogAlgorithms.Redis.Cluster
