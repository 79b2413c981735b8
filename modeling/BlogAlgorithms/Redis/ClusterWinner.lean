import BlogAlgorithms.Redis.ClusterElection

namespace BlogAlgorithms.Redis.Cluster
variable {Node : Type}

/-- How a node stands with its own election: the messages about it are of no later
epoch, and while it is open, different electors have been counted that voted for
the node in its epoch and whose votes are no longer on their way. -/
structure Standing (electors : Finset Node) (node : Node) (election : Election)
    (requests : List (Node × Header Node)) (acks : List (Ack Node)) (votes : List (Vote Node)) : Prop where
  asked : ∀ message ∈ requests, message.2.sender = node → message.2.currentEpoch ≤ election.currentEpoch ∧
    (election.failoverAuthSent = true → message.2.currentEpoch ≤ election.failoverAuthEpoch)
  given : ∀ message ∈ acks, message.receiver = node → message.hdr.currentEpoch ≤ election.currentEpoch ∧
    (election.failoverAuthSent = true → message.hdr.currentEpoch ≤ election.failoverAuthEpoch)
  closed : election.failoverAuthSent = false → election.failoverAuthCount = 0
  counted : election.failoverAuthSent = true → ∃ voters : List Node, voters.Nodup ∧
    election.failoverAuthCount = voters.length ∧ ∀ voter ∈ voters, voter ∈ electors ∧
      ⟨voter, election.failoverAuthEpoch, node⟩ ∈ votes ∧
      ∀ message ∈ acks, message.hdr.sender = voter → message.hdr.currentEpoch ≠ election.failoverAuthEpoch

/-- A majority of the electors voted for the winner. -/
def Won (electors : Finset Node) (votes : List (Vote Node)) (win : Win Node) : Prop :=
  ∃ voters : List Node, voters.Nodup ∧ electors.card < 2 * voters.length ∧
    ∀ voter ∈ voters, voter ∈ electors ∧ ⟨voter, win.epoch, win.winner⟩ ∈ votes

/-- The replicas only count votes, so their standing is about all votes that may still
reach them, on their way or waiting to be sent. -/
structure Elected (electors : Finset Node) (elections : Node → Election) (requests : List (Node × Header Node))
    (acks outbox : List (Ack Node)) (votes : List (Vote Node)) (wins : List (Win Node)) : Prop where
  standing : ∀ node, Standing electors node (elections node) requests (acks ++ outbox) votes
  given : ∀ message ∈ acks, ⟨message.hdr.sender, message.hdr.currentEpoch, message.receiver⟩ ∈ votes
  once : ((acks ++ outbox).map Ack.ballot).Nodup
  won : ∀ win ∈ wins, Won electors votes win

section Standing
variable {electors : Finset Node} {node : Node} {election : Election} {requests : List (Node × Header Node)}
  {acks : List (Ack Node)} {votes : List (Vote Node)}

/-- Messages may be lost. -/
theorem Standing.lose (standing : Standing electors node election requests acks votes)
    {fewer : List (Node × Header Node)} {left : List (Ack Node)} (someRequests : fewer ⊆ requests)
    (someAcks : left ⊆ acks) : Standing electors node election fewer left votes where
  asked message member := standing.asked message (someRequests member)
  given message member := standing.given message (someAcks member)
  closed := standing.closed
  counted opened := by
    obtain ⟨voters, nodup, count, each⟩ := standing.counted opened
    refine ⟨voters, nodup, count, fun voter member => ?_⟩
    obtain ⟨elector, voted, arrived⟩ := each voter member
    exact ⟨elector, voted, fun message onWay => arrived message (someAcks onWay)⟩

theorem Standing.raise (standing : Standing electors node election requests acks votes) {after : Election}
    (raises : State.Raises election after) : Standing electors node after requests acks votes := by
  obtain ⟨epoch, rfl, later⟩ := raises
  refine ⟨fun message member isSender => ?_, fun message member isReceiver => ?_, standing.closed, standing.counted⟩
  · obtain ⟨current, open'⟩ := standing.asked message member isSender
    exact ⟨current.trans later, open'⟩
  · obtain ⟨current, open'⟩ := standing.given message member isReceiver
    exact ⟨current.trans later, open'⟩

theorem Standing.revote (standing : Standing electors node election requests acks votes) (epoch : Nat) :
    Standing electors node { election with lastVoteEpoch := epoch } requests acks votes :=
  ⟨standing.asked, standing.given, standing.closed, standing.counted⟩

/-- Without an open election only the current epoch counts. -/
theorem Standing.close (standing : Standing electors node election requests acks votes) :
    Standing electors node { election with failoverAuthCount := 0, failoverAuthSent := false }
      requests acks votes where
  asked message member isSender := ⟨(standing.asked message member isSender).1, fun sent => by cases sent⟩
  given message member isReceiver := ⟨(standing.given message member isReceiver).1, fun sent => by cases sent⟩
  closed _ := rfl
  counted sent := by cases sent

/-- An election starts with no votes, in an epoch after all messages about the node. -/
theorem Standing.begin (standing : Standing electors node election requests acks votes)
    (closed : election.failoverAuthSent = false) {asking : List (Node × Header Node)}
    (small : election.currentEpoch + 1 < 2 ^ 64)
    (current : ∀ message ∈ asking, message.2.currentEpoch = State.nextEpoch election.currentEpoch) :
    Standing electors node { election with
      currentEpoch := State.nextEpoch election.currentEpoch
      failoverAuthEpoch := State.nextEpoch election.currentEpoch
      failoverAuthSent := true } (requests ++ asking) acks votes := by
  rw [State.nextEpoch_eq small] at current ⊢
  refine ⟨fun message member isSender => ?_, fun message member isReceiver => ?_, (fun sent => by cases sent),
    fun _ => ?_⟩
  · rcases List.mem_append.mp member with member | member
    · have before := (standing.asked message member isSender).1
      exact ⟨before.trans (Nat.le_succ _), fun _ => before.trans (Nat.le_succ _)⟩
    · have now := current message member
      exact ⟨now.le, fun _ => now.le⟩
  · have before := (standing.given message member isReceiver).1
    exact ⟨before.trans (Nat.le_succ _), fun _ => before.trans (Nat.le_succ _)⟩
  · exact ⟨[], List.nodup_nil, standing.closed closed, fun voter none => (List.not_mem_nil none).elim⟩

/-- Requests of another node are no matter. -/
theorem Standing.others_ask (standing : Standing electors node election requests acks votes)
    {asking : List (Node × Header Node)} (others : ∀ message ∈ asking, message.2.sender ≠ node) :
    Standing electors node election (requests ++ asking) acks votes := by
  refine { standing with asked := fun message member isSender => ?_ }
  rcases List.mem_append.mp member with member | member
  · exact standing.asked message member isSender
  · exact absurd isSender (others message member)

/-- A vote that arrives in time is counted, and its sender was not counted before. -/
theorem Standing.count (standing : Standing electors node election requests acks votes)
    (opened : election.failoverAuthSent = true) {message : Ack Node} {left : List (Ack Node)}
    (onWay : message ∈ acks) (rest : left ⊆ acks) (receives : message.receiver = node)
    (inEpoch : election.failoverAuthEpoch ≤ message.hdr.currentEpoch) (elector : message.hdr.sender ∈ electors)
    (given : ⟨message.hdr.sender, message.hdr.currentEpoch, message.receiver⟩ ∈ votes)
    (last : ∀ other ∈ left, other.hdr.sender = message.hdr.sender →
      other.hdr.currentEpoch ≠ message.hdr.currentEpoch) :
    Standing electors node { election with failoverAuthCount := election.failoverAuthCount + 1 }
      requests left votes := by
  have epoch : message.hdr.currentEpoch = election.failoverAuthEpoch :=
    Nat.le_antisymm ((standing.given message onWay receives).2 opened) inEpoch
  refine ⟨standing.asked, fun other member => standing.given other (rest member), fun sent => ?_, fun _ => ?_⟩
  · rw [opened] at sent
    cases sent
  · obtain ⟨voters, nodup, count, each⟩ := standing.counted opened
    refine ⟨message.hdr.sender :: voters,
      List.nodup_cons.mpr ⟨fun counted => ?_, nodup⟩, by rw [List.length_cons, count], ?_⟩
    · exact (each _ counted).2.2 message onWay rfl epoch
    · intro voter member
      rcases List.mem_cons.mp member with rfl | member
      · rw [epoch, receives] at given
        exact ⟨elector, given, fun other isLeft isSender => epoch ▸ last other isLeft isSender⟩
      · obtain ⟨isElector, voted, arrived⟩ := each voter member
        exact ⟨isElector, voted, fun other isLeft => arrived other (rest isLeft)⟩

/-- A new vote waits to be sent, in an epoch in which its voter has sent none. -/
theorem Standing.vote (standing : Standing electors node election requests acks votes) {sent : List (Ack Node)}
    (fresh : ∀ message ∈ sent, ∀ earlier ∈ votes, earlier.voter = message.hdr.sender →
      earlier.epoch ≠ message.hdr.currentEpoch)
    (known : ∀ message ∈ sent, message.receiver = node → message.hdr.currentEpoch ≤ election.currentEpoch ∧
      (election.failoverAuthSent = true → message.hdr.currentEpoch ≤ election.failoverAuthEpoch)) :
    Standing electors node election requests (acks ++ sent) votes := by
  refine ⟨standing.asked, fun message member receives => ?_, standing.closed, fun opened => ?_⟩
  · rcases List.mem_append.mp member with member | member
    · exact standing.given message member receives
    · exact known message member receives
  · obtain ⟨voters, nodup, count, each⟩ := standing.counted opened
    refine ⟨voters, nodup, count, fun voter member => ?_⟩
    obtain ⟨elector, voted, arrived⟩ := each voter member
    refine ⟨elector, voted, fun message onWay isVoter => ?_⟩
    rcases List.mem_append.mp onWay with onWay | onWay
    · exact arrived message onWay isVoter
    · exact (fresh message onWay _ voted isVoter.symm).symm

/-- The history of votes grows. -/
theorem Standing.later (standing : Standing electors node election requests acks votes) (more : List (Vote Node)) :
    Standing electors node election requests acks (votes ++ more) := by
  refine ⟨standing.asked, standing.given, standing.closed, fun opened => ?_⟩
  obtain ⟨voters, nodup, count, each⟩ := standing.counted opened
  refine ⟨voters, nodup, count, fun voter member => ?_⟩
  obtain ⟨elector, voted, arrived⟩ := each voter member
  exact ⟨elector, List.mem_append_left _ voted, arrived⟩

end Standing

theorem Won.later {electors : Finset Node} {votes more : List (Vote Node)} {win : Win Node}
    (won : Won electors votes win) : Won electors (votes ++ more) win := by
  obtain ⟨voters, nodup, majority, each⟩ := won
  exact ⟨voters, nodup, majority,
    fun voter member => ⟨(each voter member).1, List.mem_append_left _ (each voter member).2⟩⟩

/-- A node votes, in an epoch in which it has not voted and which is not past for the
candidate. -/
theorem Elected.vote {electors : Finset Node} {elections after : Node → Election}
    {requests : List (Node × Header Node)} {acks outbox sent : List (Ack Node)} {votes : List (Vote Node)}
    {wins : List (Win Node)} {node candidate : Node} {epoch : Nat}
    (elected : Elected electors elections requests acks outbox votes wins)
    (changed : ∀ other, ∃ later last, (elections other).currentEpoch ≤ later ∧
      after other = { elections other with currentEpoch := later, lastVoteEpoch := last })
    (one : sent.length ≤ 1)
    (sending : ∀ message ∈ sent, message.ballot = (node, epoch) ∧ message.receiver = candidate)
    (fresh : (node, epoch) ∉ outbox.map Ack.ballot ++ votes.map Vote.ballot)
    (asked : epoch ≤ (elections candidate).currentEpoch ∧
      ((elections candidate).failoverAuthSent = true → epoch ≤ (elections candidate).failoverAuthEpoch)) :
    Elected electors after requests acks (outbox ++ sent) votes wins := by
  refine ⟨fun other => ?_, elected.given, ?_, elected.won⟩
  · obtain ⟨later, last, rises, here⟩ := changed other
    rw [here, ← List.append_assoc]
    have before := ((elected.standing other).raise ⟨later, rfl, rises⟩).revote last
    refine before.vote (fun message member vote isVote isVoter sameEpoch => ?_) fun message member isOther => ?_
    · have ballot : vote.ballot = (node, epoch) := (Prod.ext isVoter sameEpoch).trans (sending message member).1
      exact fresh (List.mem_append_right _ (ballot ▸ List.mem_map_of_mem isVote))
    · obtain ⟨ballot, receiver⟩ := sending message member
      have isEpoch : message.hdr.currentEpoch = epoch := (Prod.mk.inj ballot).2
      subst receiver isOther
      rw [isEpoch]
      exact ⟨asked.1.trans rises, asked.2⟩
  · have single : (sent.map Ack.ballot).Nodup := by
      match sent, one with
      | [], _ => exact List.nodup_nil
      | [_], _ => exact List.nodup_singleton _
    rw [← List.append_assoc, List.map_append]
    refine List.nodup_append.mpr ⟨elected.once, single, fun ballot pending other new equal => ?_⟩
    obtain ⟨message, member, rfl⟩ := List.mem_map.mp pending
    obtain ⟨last, isLast, rfl⟩ := List.mem_map.mp new
    rw [(sending last isLast).1] at equal
    refine fresh (equal ▸ ?_)
    rcases List.mem_append.mp member with member | member
    · exact List.mem_append_right _ (List.mem_map.mpr ⟨_, elected.given message member, rfl⟩)
    · exact List.mem_append_left _ (List.mem_map_of_mem member)

/-- Two majorities have a voter in common. -/
theorem Won.unique [DecidableEq Node] {electors : Finset Node} {votes : List (Vote Node)} {first second : Win Node}
    (won : Won electors votes first) (wonToo : Won electors votes second)
    (single : ∀ vote ∈ votes, ∀ other ∈ votes, vote.voter = other.voter → vote.epoch = other.epoch → vote = other)
    (sameEpoch : first.epoch = second.epoch) : first.winner = second.winner := by
  obtain ⟨voters, nodup, majority, each⟩ := won
  obtain ⟨others, nodupOthers, majorityToo, eachOther⟩ := wonToo
  have inElectors : voters.toFinset ⊆ electors := fun voter member => (each voter (List.mem_toFinset.mp member)).1
  have othersIn : others.toFinset ⊆ electors :=
    fun voter member => (eachOther voter (List.mem_toFinset.mp member)).1
  have more : electors.card < voters.toFinset.card + others.toFinset.card := by
    rw [List.toFinset_card_of_nodup nodup, List.toFinset_card_of_nodup nodupOthers]
    omega
  obtain ⟨voter, common⟩ := Finset.inter_nonempty_of_card_lt_card_add_card inElectors othersIn more
  obtain ⟨inFirst, inSecond⟩ := Finset.mem_inter.mp common
  have voted := (each voter (List.mem_toFinset.mp inFirst)).2
  have votedToo := (eachOther voter (List.mem_toFinset.mp inSecond)).2
  exact congrArg Vote.candidate (single _ voted _ votedToo rfl sameEpoch)

namespace System
variable [DecidableEq Node] {electors : Finset Node} {sys : System Node}

def Elects (electors : Finset Node) (sys : System Node) : Prop :=
  Elected electors sys.elections sys.requests sys.acks sys.outbox sys.votes sys.wins

theorem Elects.update_node (elects : sys.Elects electors) {node : Node} {s : State Node}
    (standing : Standing electors node s.election sys.requests (sys.acks ++ sys.outbox) sys.votes) :
    (sys.update node s).Elects electors := by
  refine ⟨fun other => ?_, elects.given, elects.once, elects.won⟩
  rw [elections_update]
  by_cases same : other = node
  · subst same
    rw [Function.update_self]
    exact standing
  · rw [Function.update_of_ne same]
    exact elects.standing other

theorem Elects.raise (elects : sys.Elects electors) {node : Node} {s : State Node}
    (raises : State.Raises (sys.elections node) s.election) : (sys.update node s).Elects electors :=
  elects.update_node ((elects.standing node).raise raises)

omit [DecidableEq Node] in
theorem Elects.lose (elects : sys.Elects electors) {requests : List (Node × Header Node)}
    {acks outbox : List (Ack Node)}
    (fewer : requests ⊆ sys.requests) (left : acks.Sublist sys.acks) (unsent : outbox.Sublist sys.outbox) :
    Elects electors { sys with requests := requests, acks := acks, outbox := outbox } :=
  ⟨fun node => (elects.standing node).lose fewer (left.append unsent).subset,
    fun message member => elects.given message (left.subset member),
    elects.once.sublist ((left.append unsent).map _), elects.won⟩

omit [DecidableEq Node] in
/-- A vote that is sent counts as given from then on. -/
theorem Elects.write (elects : sys.Elects electors) {index : Nat} {message : Ack Node}
    (waits : sys.outbox[index]? = some message) :
    (System.write { sys with outbox := sys.outbox.eraseIdx index } message).Elects electors := by
  obtain ⟨inside, isMessage⟩ := List.getElem?_eq_some_iff.mp waits
  have perm : (sys.acks ++ [message] ++ sys.outbox.eraseIdx index).Perm (sys.acks ++ sys.outbox) := by
    rw [List.append_assoc, ← isMessage]
    exact (List.getElem_cons_eraseIdx_perm inside).append_left sys.acks
  refine ⟨fun node => ?_, fun other member => ?_, (perm.map _).nodup_iff.mpr elects.once, fun win member => ?_⟩
  · exact ((elects.standing node).lose (List.Subset.refl _) perm.subset).later _
  · rcases List.mem_append.mp member with member | member
    · exact List.mem_append_left _ (elects.given other member)
    · obtain rfl := List.mem_singleton.mp member
      exact List.mem_append_right _ List.mem_cons_self
  · exact (elects.won win member).later

/-- The outcome of a call, for the hypothesis on the size of the cluster. -/
def outcome (config : Config) (sys : System Node) (node : Node) (clock : Clock) : Failover :=
  ((sys.nodes node).clusterHandleSlaveFailover config node clock).2

theorem Elects.failover (elects : sys.Elects electors) (config : Config) (node : Node) (clock : Clock)
    (receivers : List Node) (small : (sys.elections node).currentEpoch + 1 < 2 ^ 64)
    (size : sys.outcome config node clock = .won → electors.card ≤ (sys.nodes node).view.size) :
    (sys.failover config node clock receivers).Elects electors := by
  have step := (sys.nodes node).handleSlaveFailover_step config node clock
  have standing := elects.standing node
  rw [outcome] at size
  rw [System.failover]
  generalize (sys.nodes node).clusterHandleSlaveFailover config node clock = result at step size
  cases step with
  | unable same => exact elects.update_node (same ▸ standing)
  | scheduled reset => exact elects.update_node (reset ▸ standing.close)
  | @requested next closed begun =>
    have asks : ∀ message ∈ receivers.map fun receiver => (receiver, next.header node (next.mfEnd ≠ 0)),
        message.2.sender = node ∧ message.2.currentEpoch = State.nextEpoch (sys.elections node).currentEpoch := by
      intro message member
      obtain ⟨receiver, _, rfl⟩ := List.mem_map.mp member
      exact ⟨rfl, congrArg Election.currentEpoch begun⟩
    have whole : Elected electors (sys.update node next).elections
        (sys.requests ++ receivers.map fun receiver =>
          (receiver, next.header node (next.mfEnd ≠ 0))) sys.acks sys.outbox
        sys.votes sys.wins := by
      refine ⟨fun other => ?_, elects.given, elects.once, elects.won⟩
      rw [elections_update]
      by_cases same : other = node
      · subst same
        rw [Function.update_self, begun]
        exact standing.begin closed small fun message member => (asks message member).2
      · rw [Function.update_of_ne same]
        exact (elects.standing other).others_ask fun message member isOther =>
          same (isOther.symm.trans (asks message member).1)
    exact whole
  | @won next opened same quorum =>
    obtain ⟨voters, nodup, count, each⟩ := standing.counted opened
    have updated : (sys.update node next).Elects electors := elects.update_node (same ▸ standing)
    refine { updated with won := fun win member => ?_ }
    rcases List.mem_append.mp member with member | member
    · exact elects.won win member
    · obtain rfl := List.mem_singleton.mp member
      have large := size rfl
      have enough : (sys.nodes node).view.size / 2 + 1 ≤ voters.length := count ▸ quorum
      refine ⟨voters, nodup, by omega, fun voter member => ?_⟩
      obtain ⟨elector, voted, _⟩ := each voter member
      simp only [same]
      exact ⟨elector, voted⟩

theorem Elects.request (elects : sys.Elects electors) (votes : sys.Votes) (config : Config) (node : Node)
    (hdr : Header Node) (now : Int) (linked : Bool)
    (asked : hdr.currentEpoch ≤ (sys.elections hdr.sender).currentEpoch ∧
      ((sys.elections hdr.sender).failoverAuthSent = true →
        hdr.currentEpoch ≤ (sys.elections hdr.sender).failoverAuthEpoch)) :
    (sys.request config node hdr now linked).Elects electors := by
  rcases request_cases config sys node hdr now linked with
    ⟨s, raises, same⟩ | ⟨raised, s, sent, raises, notPast, fresh, election, one, sending, same⟩
  · rw [same]
    exact elects.raise raises
  · obtain ⟨epoch, rfl, later⟩ := raises
    have changed (other : Node) : ∃ later last, (sys.elections other).currentEpoch ≤ later ∧
        (sys.update node s).elections other =
          { sys.elections other with currentEpoch := later, lastVoteEpoch := last } := by
      rw [elections_update]
      by_cases isNode : other = node
      · subst isNode
        exact ⟨epoch, _, later, by rw [Function.update_self, election]⟩
      · exact ⟨_, _, le_rfl, by rw [Function.update_of_ne isNode]⟩
    have unused : (node, epoch) ∉ sys.outbox.map Ack.ballot ++ sys.votes.map Vote.ballot := by
      intro member
      have bound := votes.ballot_le member
      exact fresh (Nat.le_antisymm ((votes.ledger node).voted.trans later) bound)
    have whole := Elected.vote elects changed one sending unused
      ⟨notPast.trans asked.1, fun opened => notPast.trans (asked.2 opened)⟩
    rw [same]
    exact whole

theorem Elects.ack (elects : sys.Elects electors) {index : Nat} {message : Ack Node}
    (onWay : sys.acks[index]? = some message) (opened : (sys.elections message.receiver).failoverAuthSent = true)
    (elector : sys.Counts message → message.hdr.sender ∈ electors) :
    (System.ack { sys with acks := sys.acks.eraseIdx index } message).Elects electors := by
  have member := List.mem_of_getElem? onWay
  have left : Elects electors { sys with acks := sys.acks.eraseIdx index } :=
    elects.lose (List.Subset.refl _) (List.eraseIdx_sublist ..) (List.Sublist.refl _)
  obtain ⟨s, raised, same, raises, outcome⟩ := ack_cases { sys with acks := sys.acks.eraseIdx index } message
  rw [same]
  rcases outcome with election | ⟨counts, inEpoch, election⟩
  · exact left.raise (election ▸ raises)
  · refine left.update_node ?_
    rw [election]
    have standing := (elects.standing message.receiver).raise raises
    have fewer : sys.acks.eraseIdx index ++ sys.outbox ⊆ sys.acks ++ sys.outbox :=
      ((List.eraseIdx_sublist ..).append (List.Sublist.refl _)).subset
    refine standing.count ?_ (List.mem_append_left _ member) fewer rfl inEpoch (elector counts)
      (elects.given message member) ?_
    · obtain ⟨epoch, rfl, _⟩ := raises
      exact opened
    · -- no second copy of the vote is on its way
      intro other isLeft sameSender sameEpoch
      obtain ⟨inside, isMessage⟩ := List.getElem?_eq_some_iff.mp onWay
      have perm := ((List.getElem_cons_eraseIdx_perm inside).append_right sys.outbox).map Ack.ballot
      have nodup := perm.nodup_iff.mpr elects.once
      rw [List.cons_append, List.map_cons, List.nodup_cons, isMessage] at nodup
      exact nodup.1 (List.mem_map.mpr ⟨other, isLeft, Prod.ext sameSender sameEpoch⟩)

variable [LT Node] [DecidableLT Node]

/-- The further assumptions on a step. A vote reaches a replica only while its election
is open, the votes that are counted are those of the electors, a replica that wins knows
of at least as many, and no request of a node and no vote for it is left when it restarts. -/
def Timely (electors : Finset Node) (config : Config) (sys : System Node) : Action Node → Prop
  | .failover node clock _ => sys.outcome config node clock = .won → electors.card ≤ (sys.nodes node).view.size
  | .ack index => ∀ message ∈ sys.acks[index]?,
      (sys.elections message.receiver).failoverAuthSent = true ∧
      (sys.Counts message → message.hdr.sender ∈ electors)
  | .restart node _ =>
      (∀ message ∈ sys.requests, message.2.sender ≠ node) ∧
        ∀ message ∈ sys.acks ++ sys.outbox, message.receiver ≠ node
  | _ => True

def TimelyRun (electors : Finset Node) (config : Config) (sys : System Node) : List (Action Node) → Prop
  | [] => True
  | action :: rest => sys.Timely electors config action ∧ TimelyRun electors config (sys.act config action) rest

instance (sys : System Node) (message : Ack Node) : Decidable (sys.Counts message) :=
  inferInstanceAs (Decidable (_ = true))

instance decidableTimely (electors : Finset Node) (config : Config) (sys : System Node) :
    (action : Action Node) → Decidable (sys.Timely electors config action)
  | .failover .. => inferInstanceAs (Decidable (_ → _))
  | .ack index => inferInstanceAs (Decidable (∀ message ∈ sys.acks[index]?, _))
  | .restart .. => inferInstanceAs (Decidable (_ ∧ _))
  | .reconfigure .. => isTrue trivial
  | .packet .. => isTrue trivial
  | .bump .. => isTrue trivial
  | .collision .. => isTrue trivial
  | .request .. => isTrue trivial
  | .write .. => isTrue trivial
  | .unlink .. => isTrue trivial
  | .lose .. => isTrue trivial
  | .save .. => isTrue trivial

instance decidableTimelyRun (electors : Finset Node) (config : Config) :
    (sys : System Node) → (actions : List (Action Node)) → Decidable (sys.TimelyRun electors config actions)
  | _, [] => isTrue trivial
  | sys, action :: rest =>
    have := decidableTimelyRun electors config (sys.act config action) rest
    inferInstanceAs (Decidable (_ ∧ _))

theorem Elects.act (elects : sys.Elects electors) (votes : sys.Votes) (config : Config) (action : Action Node)
    (orderly : sys.Orderly action) (timely : sys.Timely electors config action) :
    (sys.act config action).Elects electors := by
  cases action with
  | reconfigure node view mfEnd mfCanStart => exact elects.raise (.refl _)
  | packet node hdr =>
    obtain ⟨epoch, raised, later, _⟩ := (sys.nodes node).processHeader_election hdr
    exact elects.raise ⟨epoch, raised, later⟩
  | bump node => exact elects.raise ((sys.nodes node).raises_bump node orderly)
  | collision node sender => exact elects.raise ((sys.nodes node).raises_collision node sender orderly)
  | failover node clock receivers => exact elects.failover config node clock receivers orderly timely
  | request index now linked =>
    rw [System.act]
    split
    · exact elects
    · rename_i receiver hdr onWay
      have left : Elects electors { sys with requests := sys.requests.eraseIdx index } :=
        elects.lose (List.eraseIdx_subset ..) (List.Sublist.refl _) (List.Sublist.refl _)
      have still : Votes { sys with requests := sys.requests.eraseIdx index } := votes
      exact left.request still config receiver hdr now linked
        ((elects.standing hdr.sender).asked _ (List.mem_of_getElem? onWay) rfl)
  | write index =>
    rw [System.act]
    split
    · exact elects
    · rename_i message waits
      exact elects.write waits
  | unlink index => exact elects.lose (List.Subset.refl _) (List.Sublist.refl _) (List.eraseIdx_sublist ..)
  | ack index =>
    rw [System.act]
    split
    · exact elects
    · rename_i message onWay
      obtain ⟨opened, elector⟩ := timely message onWay
      exact elects.ack onWay opened elector
  | lose index => exact elects.lose (List.Subset.refl _) (List.eraseIdx_sublist ..) (List.Sublist.refl _)
  | save node => exact elects
  | restart node view =>
    obtain ⟨noRequests, noAcks⟩ := timely
    obtain ⟨epoch, election, _⟩ := loaded_election (sys.saved node) view
    have loaded : (sys.update node (loaded (sys.saved node) view)).Elects electors := by
      refine elects.update_node
        ⟨fun message member isNode => ?_, fun message member isNode => ?_, fun _ => ?_, fun sent => ?_⟩
      · exact absurd isNode (noRequests message member)
      · exact absurd isNode (noAcks message member)
      · rw [election]
      · rw [election] at sent
        cases sent
    exact loaded.lose (List.Subset.refl _) (List.Sublist.refl _) List.filter_sublist

theorem Elects.run (elects : sys.Elects electors) (votes : sys.Votes) (config : Config)
    (actions : List (Action Node))
    (orderly : sys.OrderlyRun config actions) (timely : sys.TimelyRun electors config actions) :
    (sys.run config actions).Elects electors := by
  induction actions generalizing sys with
  | nil => exact elects
  | cons action rest ih =>
    exact ih (elects.act votes config action orderly.1 timely.1)
      (votes.act config action orderly.1) orderly.2 timely.2

omit [DecidableEq Node] [LT Node] [DecidableLT Node] in
theorem elects_start (saved : Node → Nat × Nat) (views : Node → View Node) :
    (start saved views).Elects electors := by
  refine ⟨fun node => ?_, fun _ none => (List.not_mem_nil none).elim, List.nodup_nil,
    fun _ none => (List.not_mem_nil none).elim⟩
  obtain ⟨epoch, election, _⟩ := loaded_election (saved node) (views node)
  have begins : (start saved views).elections node = ⟨epoch, (saved node).2, 0, 0, false⟩ := election
  rw [begins]
  exact ⟨fun _ none => (List.not_mem_nil none).elim, fun _ none => (List.not_mem_nil none).elim, fun _ => rfl,
    fun sent => by cases sent⟩

-- Votes that come after the next attempt is scheduled are counted in that one: here
-- the third node is elected in epoch 2 by votes of epoch 1, and the fourth by those of 2.
example :
    ((start (fun _ => (0, 0)) fun _ => failedMaster).run ⟨1000, false, 0, 10⟩
      [.failover 3 ⟨10000, 0, 0, 0⟩ [], .failover 3 ⟨10600, 0, 0, 0⟩ [1, 2], .request 0 10601 true,
        .request 0 10602 true, .save 1, .save 2, .write 0, .write 0, .failover 3 ⟨15000, 0, 0, 0⟩ [],
        .ack 0, .ack 0, .failover 3 ⟨15600, 0, 0, 0⟩ [], .failover 3 ⟨15601, 0, 0, 0⟩ [],
        .packet 4 ⟨1, 1, 0, fun _ => false, false⟩, .failover 4 ⟨15000, 0, 0, 0⟩ [],
        .failover 4 ⟨15600, 0, 0, 0⟩ [1, 2], .request 0 15601 true, .request 0 15602 true, .save 1, .save 2,
        .write 0, .write 0, .ack 0, .ack 0, .failover 4 ⟨15603, 0, 0, 0⟩ []]).wins =
      [⟨3, 2⟩, ⟨4, 2⟩] := by
  decide +kernel

end System

end BlogAlgorithms.Redis.Cluster
