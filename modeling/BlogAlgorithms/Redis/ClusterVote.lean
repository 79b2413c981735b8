import Mathlib.Algebra.Group.Nat.Defs
import Mathlib.Logic.Function.Basic
import Mathlib.Data.List.Basic

namespace BlogAlgorithms.Redis.Cluster

def clusterSlots : Nat := 16384

/-- What a node knows of the nodes of the cluster, itself among them. -/
structure View (Node : Type) where
  nodes : List Node
  master : Node → Bool
  slave : Node → Bool
  handshake : Node → Bool
  fail : Node → Bool
  slaveof : Node → Option Node
  numslots : Node → Nat
  configEpoch : Node → Nat
  votedTime : Node → Int
  slots : Nat → Option Node
  size : Nat

/-- The fields of `clusterState` that an election is about: a replica of a failed
master asks for votes in a new epoch, and the masters that serve slots vote. -/
structure Election where
  currentEpoch : Nat
  lastVoteEpoch : Nat
  failoverAuthEpoch : Nat
  failoverAuthCount : Nat
  failoverAuthSent : Bool

structure State (Node : Type) where
  election : Election
  failoverAuthTime : Int
  failoverAuthRank : Nat
  mfEnd : Int
  mfCanStart : Bool
  view : View Node

structure Config where
  clusterNodeTimeout : Int
  clusterSlaveNoFailover : Bool
  clusterSlaveValidityFactor : Int
  replPingSlavePeriod : Int

/-- The header of a message, with what a request for votes reads of it. -/
structure Header (Node : Type) where
  sender : Node
  currentEpoch : Nat
  configEpoch : Nat
  myslots : Nat → Bool
  forceAck : Bool

/-- The outcome of `clusterHandleSlaveFailover`. -/
inductive Failover
  | unable
  | scheduled
  | requested
  | won
  deriving DecidableEq, Repr

/-- What a call of `clusterHandleSlaveFailover` reads outside the cluster state:
the clock, the time since the data of the master was last seen, `random()` and
`clusterGetSlaveRank()`. -/
structure Clock where
  now : Int
  dataAge : Int
  random : Nat
  slaveRank : Nat

namespace State
variable {Node : Type} [DecidableEq Node]

/-- `clusterLookupNode` finds the node. -/
def known (s : State Node) (node : Node) : Bool := s.view.nodes.contains node

/-- `clusterBuildMessageHdr`: a replica sends the data of its master. -/
def header (s : State Node) (myself : Node) (forceAck : Bool) : Header Node :=
  let master := if s.view.slave myself then (s.view.slaveof myself).getD myself else myself
  { sender := myself
    currentEpoch := s.election.currentEpoch
    configEpoch := s.view.configEpoch master
    myslots := fun slot => s.view.slots slot = some master
    forceAck := forceAck }

/-- The part of `clusterProcessPacket` that every packet of a known sender goes
through. The result is the epoch that the rest of it takes for the sender's. -/
def processHeader (s : State Node) (hdr : Header Node) : State Node × Nat :=
  if s.known hdr.sender && !s.view.handshake hdr.sender then
    ({ s with
        election := { s.election with
          currentEpoch :=
            if s.election.currentEpoch < hdr.currentEpoch then hdr.currentEpoch else s.election.currentEpoch }
        view := { s.view with
          configEpoch := if s.view.configEpoch hdr.sender < hdr.configEpoch then
            Function.update s.view.configEpoch hdr.sender hdr.configEpoch else s.view.configEpoch } },
      hdr.currentEpoch)
  else (s, 0)

/-- No claimed slot is served under a greater epoch than the one claimed. -/
def claimsCurrent (view : View Node) (request : Header Node) : Bool :=
  (List.range clusterSlots).all fun slot => !request.myslots slot ||
    match view.slots slot with
    | none => true
    | some owner => view.configEpoch owner ≤ request.configEpoch

/-- The flag tells whether the node votes for the sender. -/
def clusterSendFailoverAuthIfNeeded (config : Config) (s : State Node) (myself : Node) (request : Header Node)
    (now : Int) : State Node × Bool :=
  if s.view.slave myself || s.view.numslots myself = 0 then (s, false)
  else if request.currentEpoch < s.election.currentEpoch then (s, false)
  else if s.election.lastVoteEpoch = s.election.currentEpoch then (s, false)
  else
    match s.view.slaveof request.sender with
    | none => (s, false)
    | some master =>
      if s.view.master request.sender || (!s.view.fail master && !request.forceAck) then (s, false)
      else if now - s.view.votedTime master < config.clusterNodeTimeout * 2 then (s, false)
      else if !claimsCurrent s.view request then (s, false)
      else
        ({ s with
            election := { s.election with lastVoteEpoch := s.election.currentEpoch }
            view := { s.view with votedTime := Function.update s.view.votedTime master now } },
          true)

/-- A `FAILOVER_AUTH_ACK` is counted if its sender is a master with slots that has
reached the epoch of the election. -/
def countsAck (s : State Node) (sender : Node) (senderCurrentEpoch : Nat) : Bool :=
  s.known sender && s.view.master sender && decide (0 < s.view.numslots sender) &&
    decide (s.election.failoverAuthEpoch ≤ senderCurrentEpoch)

def processAck (s : State Node) (sender : Node) (senderCurrentEpoch : Nat) : State Node :=
  if s.countsAck sender senderCurrentEpoch then
    { s with election := { s.election with failoverAuthCount := s.election.failoverAuthCount + 1 } }
  else s

/-- `clusterFailoverReplaceYourMaster`, with `clusterSetNodeAsMaster` and
`resetManualFailover`. -/
def clusterFailoverReplaceYourMaster (s : State Node) (myself : Node) : State Node :=
  match s.view.slaveof myself with
  | none => s
  | some oldmaster =>
    if s.view.master myself then s
    else
      { s with
        mfEnd := 0
        mfCanStart := false
        view := { s.view with
          master := Function.update s.view.master myself true
          slave := Function.update s.view.slave myself false
          slaveof := Function.update s.view.slaveof myself none
          slots := fun slot => if s.view.slots slot = some oldmaster then some myself else s.view.slots slot
          numslots := Function.update (Function.update s.view.numslots myself
            (s.view.numslots myself + s.view.numslots oldmaster)) oldmaster 0 } }

def authTimeout (config : Config) : Int :=
  if config.clusterNodeTimeout * 2 < 2000 then 2000 else config.clusterNodeTimeout * 2

def manualFailover (s : State Node) : Bool := s.mfEnd ≠ 0 && s.mfCanStart

/-- The preconditions of `clusterHandleSlaveFailover`. -/
def mayFailover (config : Config) (s : State Node) (myself : Node) (clock : Clock) : Bool :=
  match s.view.slaveof myself with
  | none => false
  | some master =>
    let dataAge :=
      if config.clusterNodeTimeout < clock.dataAge then clock.dataAge - config.clusterNodeTimeout else clock.dataAge
    !s.view.master myself && (s.view.fail master || s.manualFailover) &&
      (!config.clusterSlaveNoFailover || s.manualFailover) && decide (s.view.numslots master ≠ 0) &&
      (decide (config.clusterSlaveValidityFactor = 0) ||
        decide (dataAge ≤
          config.replPingSlavePeriod * 1000 + config.clusterNodeTimeout * config.clusterSlaveValidityFactor) ||
        s.manualFailover)

/-- A new attempt after the retry time: it begins after a delay, and without votes. -/
def schedule (s : State Node) (clock : Clock) : State Node :=
  { s with
    election := { s.election with failoverAuthCount := 0, failoverAuthSent := false }
    failoverAuthTime :=
      if s.mfEnd ≠ 0 then clock.now else clock.now + 500 + clock.random % 500 + clock.slaveRank * 1000
    failoverAuthRank := if s.mfEnd ≠ 0 then 0 else clock.slaveRank }

/-- The delay grows with the rank of the replica until it has asked for votes. -/
def updateRank (s : State Node) (clock : Clock) : State Node :=
  if !s.election.failoverAuthSent && decide (s.mfEnd = 0) && decide (s.failoverAuthRank < clock.slaveRank) then
    { s with
      failoverAuthTime := s.failoverAuthTime + (clock.slaveRank - s.failoverAuthRank) * 1000
      failoverAuthRank := clock.slaveRank }
  else s

/-- `currentEpoch` is a `uint64_t`. -/
def nextEpoch (epoch : Nat) : Nat := (epoch + 1) % 2 ^ 64

/-- A new epoch, in which the votes are asked for. -/
def startElection (s : State Node) : State Node :=
  { s with
    election := { s.election with
      currentEpoch := nextEpoch s.election.currentEpoch
      failoverAuthEpoch := nextEpoch s.election.currentEpoch
      failoverAuthSent := true } }

def takeOver (s : State Node) (myself : Node) : State Node :=
  let configEpoch := if s.view.configEpoch myself < s.election.failoverAuthEpoch then
    Function.update s.view.configEpoch myself s.election.failoverAuthEpoch else s.view.configEpoch
  clusterFailoverReplaceYourMaster { s with view := { s.view with configEpoch := configEpoch } } myself

def clusterHandleSlaveFailover (config : Config) (s : State Node) (myself : Node)
    (clock : Clock) : State Node × Failover :=
  let authAge := clock.now - s.failoverAuthTime
  let neededQuorum := s.view.size / 2 + 1
  if !mayFailover config s myself clock then (s, .unable)
  else if authTimeout config * 2 < authAge then (s.schedule clock, .scheduled)
  else
    let s := s.updateRank clock
    if clock.now < s.failoverAuthTime then (s, .unable)
    else if authTimeout config < authAge then (s, .unable)
    else if !s.election.failoverAuthSent then (s.startElection, .requested)
    else if neededQuorum ≤ s.election.failoverAuthCount then (s.takeOver myself, .won)
    else (s, .unable)

/-- The greatest epoch that the node knows of. -/
def clusterGetMaxEpoch (s : State Node) : Nat :=
  let greatest := s.view.nodes.foldl
    (fun greatest node => if greatest < s.view.configEpoch node then s.view.configEpoch node else greatest) 0
  if greatest < s.election.currentEpoch then s.election.currentEpoch else greatest

/-- The node takes a new epoch for itself without a vote. -/
def takeEpoch (s : State Node) (myself : Node) : State Node :=
  { s with
    election := { s.election with currentEpoch := nextEpoch s.election.currentEpoch }
    view := { s.view with
      configEpoch := Function.update s.view.configEpoch myself (nextEpoch s.election.currentEpoch) } }

def clusterBumpConfigEpochWithoutConsensus (s : State Node) (myself : Node) : State Node :=
  if s.view.configEpoch myself = 0 ∨ s.view.configEpoch myself ≠ s.clusterGetMaxEpoch then s.takeEpoch myself else s

/-- Nodes are compared as their names are. -/
def clusterHandleConfigEpochCollision [LT Node] [DecidableLT Node] (s : State Node)
    (myself sender : Node) : State Node :=
  if s.view.configEpoch sender ≠ s.view.configEpoch myself ∨ !s.view.master sender ∨ !s.view.master myself then s
  else if myself < sender then s.takeEpoch myself
  else s

end State

/-- A vote for the replica it is given to. -/
structure Ack (Node : Type) where
  receiver : Node
  hdr : Header Node

/-- A vote that was given, and an election that was won. -/
structure Vote (Node : Type) where
  voter : Node
  epoch : Nat
  candidate : Node
  deriving DecidableEq, Repr

structure Win (Node : Type) where
  winner : Node
  epoch : Nat
  deriving DecidableEq, Repr

/-- The nodes, the epochs that each has on disk, whether it has still to save, the
votes that wait in the buffers of the links, the messages on their way, and the
history of votes sent and of failovers. -/
structure System (Node : Type) where
  nodes : Node → State Node
  saved : Node → Nat × Nat
  todoSave : Node → Bool
  requests : List (Node × Header Node)
  outbox : List (Ack Node)
  acks : List (Ack Node)
  votes : List (Vote Node)
  wins : List (Win Node)

/-- What can happen next. All that the nodes learn of each other otherwise, and
the commands of an administrator, can change a view at any time. -/
inductive Action (Node : Type)
  | reconfigure (node : Node) (view : View Node) (mfEnd : Int) (mfCanStart : Bool)
  | packet (node : Node) (hdr : Header Node)
  | bump (node : Node)
  | collision (node sender : Node)
  | failover (node : Node) (clock : Clock) (receivers : List Node)
  | request (index : Nat) (now : Int) (linked : Bool)
  | write (index : Nat)
  | unlink (index : Nat)
  | ack (index : Nat)
  | lose (index : Nat)
  | save (node : Node)
  | restart (node : Node) (view : View Node)

namespace System
variable {Node : Type} [DecidableEq Node]

/-- The state of one node changes. -/
def update (sys : System Node) (node : Node) (s : State Node) : System Node :=
  { sys with nodes := Function.update sys.nodes node s }

/-- `clusterSaveConfig`, which `clusterBeforeSleep` calls, keeps these two epochs. -/
def save (sys : System Node) (node : Node) : System Node :=
  { sys with
    saved := Function.update sys.saved node
      ((sys.nodes node).election.currentEpoch, (sys.nodes node).election.lastVoteEpoch)
    todoSave := Function.update sys.todoSave node false }

def failover (config : Config) (sys : System Node) (node : Node) (clock : Clock)
    (receivers : List Node) : System Node :=
  let (s, outcome) := (sys.nodes node).clusterHandleSlaveFailover config node clock
  let sys := sys.update node s
  match outcome with
  | .requested =>
    { sys with requests := sys.requests ++ receivers.map fun receiver => (receiver, s.header node (s.mfEnd ≠ 0)) }
  | .won => { sys with wins := sys.wins ++ [⟨node, s.election.failoverAuthEpoch⟩] }
  | _ => sys

/-- A node handles a request for its vote. It has still to save the vote, which
goes to the buffer of the link to the replica, or nowhere without a link. -/
def request (config : Config) (sys : System Node) (node : Node) (hdr : Header Node) (now : Int) (linked : Bool) :
    System Node :=
  let (s, _) := (sys.nodes node).processHeader hdr
  if s.known hdr.sender then
    let (s, voted) := s.clusterSendFailoverAuthIfNeeded config node hdr now
    let sys := sys.update node s
    if voted then
      { sys with
        todoSave := Function.update sys.todoSave node true
        outbox := if linked then sys.outbox ++ [⟨hdr.sender, s.header node false⟩] else sys.outbox }
    else sys
  else sys.update node s

/-- `clusterWriteHandler` sends a vote. -/
def write (sys : System Node) (message : Ack Node) : System Node :=
  { sys with
    acks := sys.acks ++ [message]
    votes := sys.votes ++ [⟨message.hdr.sender, message.hdr.currentEpoch, message.receiver⟩] }

def ack (sys : System Node) (message : Ack Node) : System Node :=
  let (s, senderCurrentEpoch) := (sys.nodes message.receiver).processHeader message.hdr
  sys.update message.receiver (s.processAck message.hdr.sender senderCurrentEpoch)

/-- The state after `clusterInit` has read the configuration. -/
def loaded (saved : Nat × Nat) (view : View Node) : State Node :=
  let s : State Node :=
    { election := ⟨saved.1, saved.2, 0, 0, false⟩
      failoverAuthTime := 0
      failoverAuthRank := 0
      mfEnd := 0
      mfCanStart := false
      view := view }
  if s.election.currentEpoch < s.clusterGetMaxEpoch then
    { s with election := { s.election with currentEpoch := s.clusterGetMaxEpoch } }
  else s

/-- What is still in the buffers of the node is lost with it. -/
def restart (sys : System Node) (node : Node) (view : View Node) : System Node :=
  { sys.update node (loaded (sys.saved node) view) with
    todoSave := Function.update sys.todoSave node false
    outbox := sys.outbox.filter fun message => message.hdr.sender ≠ node }

variable [LT Node] [DecidableLT Node]

def act (config : Config) (sys : System Node) : Action Node → System Node
  | .reconfigure node view mfEnd mfCanStart =>
    sys.update node { sys.nodes node with view := view, mfEnd := mfEnd, mfCanStart := mfCanStart }
  | .packet node hdr => sys.update node ((sys.nodes node).processHeader hdr).1
  | .bump node => sys.update node ((sys.nodes node).clusterBumpConfigEpochWithoutConsensus node)
  | .collision node sender => sys.update node ((sys.nodes node).clusterHandleConfigEpochCollision node sender)
  | .failover node clock receivers => sys.failover config node clock receivers
  | .request index now linked =>
    match sys.requests[index]? with
    | none => sys
    | some (receiver, hdr) =>
      { sys with requests := sys.requests.eraseIdx index }.request config receiver hdr now linked
  | .write index =>
    match sys.outbox[index]? with
    | none => sys
    | some message => { sys with outbox := sys.outbox.eraseIdx index }.write message
  | .unlink index => { sys with outbox := sys.outbox.eraseIdx index }
  | .ack index =>
    match sys.acks[index]? with
    | none => sys
    | some message => { sys with acks := sys.acks.eraseIdx index }.ack message
  | .lose index => { sys with acks := sys.acks.eraseIdx index }
  | .save node => sys.save node
  | .restart node view => sys.restart node view

def run (config : Config) (sys : System Node) (actions : List (Action Node)) : System Node :=
  actions.foldl (act config) sys

/-- Every node has just read its configuration. -/
def start (saved : Node → Nat × Nat) (views : Node → View Node) : System Node :=
  { nodes := fun node => loaded (saved node) (views node)
    saved := saved
    todoSave := fun _ => false
    requests := []
    outbox := []
    acks := []
    votes := []
    wins := [] }

end System

end BlogAlgorithms.Redis.Cluster
