import BlogAlgorithms.Redis.ReplBacklog

namespace BlogAlgorithms.Redis.Psync
open C

/-- A replication ID, as the number that its forty digits write. `0` is the cleared ID. -/
abbrev ReplId := Nat

/-- An allocation of the configured backlog size, with whatever it contains. -/
abbrev Memory := { memory : Bytes // memory ≠ [] }

/-- What a full resynchronization transfers. -/
structure Snapshot where
  replid : ReplId
  offset : Nat
  data : Bytes
  deriving DecidableEq, Repr

/-- How far a connection to a master has come. -/
inductive Stage
  /-- `PSYNC` has been sent, with the ID and the offset asked for or with `? -1`. -/
  | psync (request : Option (ReplId × Int))
  /-- An error has been read for a reply, and the old `SYNC` sent. No server answers it here. -/
  | sync
  /-- The master will do a full resynchronization (`SLAVE_STATE_WAIT_BGSAVE_START`). -/
  | waitBgsave
  /-- The master has replied `+FULLRESYNC`. -/
  | fullresync (snapshot : Snapshot)
  /-- The replica has read this reply and receives the file. -/
  | transfer (snapshot : Snapshot)
  /-- The master has replied `+CONTINUE` with its ID. -/
  | continue (replid : ReplId)
  /-- `server.master` is in use, with its `replid` and `reploff`. -/
  | connected (replid : ReplId) (reploff : Nat)
  deriving DecidableEq, Repr

/-- A connection of a replica to its master, and what is on its way to the replica
behind the reply to `PSYNC`. -/
structure Link (N : Type) where
  peer : N
  conn : Nat
  stage : Stage
  stream : Bytes
  deriving DecidableEq, Repr

/-- An RDB file: the data, and the replication ID and offset if it has them. -/
structure Rdb where
  data : Bytes
  info : Option (ReplId × Nat)
  deriving DecidableEq, Repr

/-- The file that is transferred has the ID and the offset at which it was made. -/
def Snapshot.rdb (snapshot : Snapshot) : Rdb := ⟨snapshot.data, some (snapshot.replid, snapshot.offset)⟩

/-- What a server has executed stands for its dataset. `slaves` are the connections
it has not closed yet. -/
structure Server (N : Type) where
  data : Bytes
  replid : ReplId
  replid2 : ReplId
  secondReplidOffset : Int
  masterReplOffset : Nat
  backlog : Option Backlog
  masterhost : Option N
  cachedMaster : Option (ReplId × Nat)
  link : Option (Link N)
  slaves : List Nat
  disk : Option Rdb
  deriving DecidableEq, Repr

namespace Server
variable {N : Type}

def changeReplicationId (x : Server N) (fresh : ReplId) : Server N := { x with replid := fresh }

def clearReplicationId2 (x : Server N) : Server N := { x with replid2 := 0, secondReplidOffset := -1 }

def shiftReplicationId (x : Server N) (fresh : ReplId) : Server N :=
  { x with replid2 := x.replid, secondReplidOffset := x.masterReplOffset + 1 }.changeReplicationId fresh

/-- An empty backlog, from the offset that the server has reached. -/
def newBacklog (x : Server N) (memory : Memory) : Server N :=
  { x with backlog := some (Backlog.createReplicationBacklog memory x.masterReplOffset) }

def createReplicationBacklog (x : Server N) (memory : Memory) : Exec (Server N) :=
  if x.backlog.isNone then .ok (x.newBacklog memory) else .error .assertion

/-- `if (server.repl_backlog == NULL) createReplicationBacklog()`. -/
def createBacklogIfNone (x : Server N) (memory : Memory) : Exec (Server N) :=
  if x.backlog.isNone then x.createReplicationBacklog memory else .ok x

def resizeReplicationBacklog (x : Server N) (memory : Memory) : Server N :=
  if x.backlog.isSome then x.newBacklog memory else x

def freeReplicationBacklog (x : Server N) : Exec (Server N) :=
  if x.slaves = [] then .ok { x with backlog := none } else .error .assertion

def feedBacklog (x : Server N) (bytes : Bytes) : Exec (Server N) :=
  match x.backlog with
  | none => .ok x
  | some backlog => do
    let (backlog, offset) ← backlog.feedReplicationBacklog x.masterReplOffset bytes
    .ok { x with backlog := some backlog, masterReplOffset := offset }

/-- `repl_state == REPL_STATE_CONNECTED`. -/
def connected (x : Server N) : Bool :=
  match x.link with
  | some ⟨_, _, .connected _ _, _⟩ => true
  | _ => false

/-- The end of the connection to the master. `server.master` is kept as the cached
master unless it has one of the flags `CLIENT_PROTOCOL_ERROR` and `CLIENT_BLOCKED`; an
unfinished handshake leaves nothing. -/
def closeLink (x : Server N) (flagged : Bool) : Exec (Server N) :=
  match x.link with
  | some ⟨_, _, .connected replid reploff, _⟩ =>
    if flagged then .ok { x with link := none }
    else if x.cachedMaster.isSome then .error .assertion
    else .ok { x with cachedMaster := some (replid, reploff), link := none }
  | _ => .ok { x with link := none }

def replicationDiscardCachedMaster (x : Server N) : Server N := { x with cachedMaster := none }

def replicationCacheMasterUsingMyself (x : Server N) : Server N :=
  { x with cachedMaster := some (x.replid, x.masterReplOffset) }

/-- The ID and the offset that an RDB file gets. -/
def rdbPopulateSaveInfo (x : Server N) : Option (ReplId × Nat) :=
  if x.masterhost.isNone && x.backlog.isSome || x.connected || x.cachedMaster.isSome then
    some (x.replid, x.masterReplOffset)
  else none

/-- Whether the server can go on from where a replica left. -/
def acceptsPsync (x : Server N) : Option (ReplId × Int) → Option Backlog
  | none => none
  | some (replid, psyncOffset) =>
    if replid ≠ x.replid ∧ (replid ≠ x.replid2 ∨ psyncOffset > x.secondReplidOffset) then none
    else
      match x.backlog with
      | none => none
      | some backlog =>
        if psyncOffset < backlog.off ∨ psyncOffset > backlog.off + backlog.histlen then none else some backlog

/-- A server that starts, with the data it has loaded. -/
def initServer (x : Server N) (fresh : ReplId) (host : Option N) (data : Bytes) : Server N :=
  { data := data, replid := fresh, replid2 := 0, secondReplidOffset := -1, masterReplOffset := 0, backlog := none,
    masterhost := host, cachedMaster := none, link := none, slaves := [], disk := x.disk }

/-- `loadDataFromDisk`, from the append only file or else from the RDB file. -/
def loadDataFromDisk (x : Server N) (fresh : ReplId) (host : Option N) (aof : Option Bytes) : Server N :=
  match aof, x.disk with
  | some data, _ => x.initServer fresh host data
  | none, none => x.initServer fresh host []
  | none, some rdb =>
    match host, rdb.info with
    | some _, some (replid, offset) =>
      { x.initServer fresh host rdb.data with
        replid := replid, masterReplOffset := offset }.replicationCacheMasterUsingMyself
    | _, _ => x.initServer fresh host rdb.data

def mapLink (x : Server N) (change : Link N → Link N) : Server N := { x with link := x.link.map change }

end Server

/-- Whether the master sends the replication stream over a connection of this kind. -/
def Stage.fed : Stage → Bool
  | .psync _ => false
  | .sync => false
  | .waitBgsave => false
  | _ => true

/-- Whether the replica still waits for the reply to its `PSYNC`. -/
def Stage.awaiting : Stage → Bool
  | .psync _ => true
  | .waitBgsave => true
  | .fullresync _ => true
  | .continue _ => true
  | _ => false

/-- What is being transferred. -/
def Stage.snapshot : Stage → Option Snapshot
  | .fullresync snapshot => some snapshot
  | .transfer snapshot => some snapshot
  | _ => none

namespace Link
variable {N : Type} [DecidableEq N] (m : N) (slaves : List Nat)

/-- The stream goes to every connection that `m` has not closed. -/
def feed (bytes : Bytes) (l : Link N) : Link N :=
  if l.peer = m ∧ l.conn ∈ slaves ∧ l.stage.fed then { l with stream := l.stream ++ bytes } else l

/-- When `m` closes a connection, what it has not sent yet is lost. -/
def cut (delivered : Nat → Nat) (l : Link N) : Link N :=
  if l.peer = m ∧ l.conn ∈ slaves then { l with stream := l.stream.take (delivered l.conn) } else l

/-- A snapshot is taken for the replicas that wait for one. -/
def bgsave (snapshot : Snapshot) (l : Link N) : Link N :=
  if l.peer = m ∧ l.conn ∈ slaves ∧ l.stage = .waitBgsave then
    { l with stage := .fullresync snapshot, stream := [] }
  else l

end Link

/-- The servers, and the next connection number that has not been used. -/
structure System (N : Type) where
  servers : N → Server N
  nextConn : Nat

/-- Where a server draws a random ID, `fresh` is what it draws. A connection to a master
that ends may have been flagged. -/
inductive Action (N : Type)
  /-- A command from a client, as the bytes of the stream. `readOnly` is the server's
  setting of `replica-read-only`. -/
  | write (m : N) (readOnly : Bool) (bytes : Bytes)
  /-- A replica executes bytes of the stream. -/
  | apply (s : N) (count : Nat)
  | replicaof (n : N) (host : N) (flagged : Bool) (delivered : Nat → Nat)
  | replicaofNoOne (n : N) (flagged : Bool) (fresh : ReplId) (delivered : Nat → Nat)
  | connect (s : N)
  /-- The master of `s` reads its `PSYNC`. For a full resynchronization the data of
  another replica that waits for the same file may be shared. -/
  | sync (s : N) (sharing : Option N) (fresh : ReplId) (memory : Memory)
  | bgsave (m : N)
  /-- The replica reads the reply to its `PSYNC`. -/
  | reply (s : N) (memory : Memory) (delivered : Nat → Nat)
  /-- What the replica reads for a reply is an error, or it cannot read one. The `SYNC`
  that it sends in turn may not be `written`. -/
  | replyError (s : N) (written : Bool) (delivered : Nat → Nat)
  | load (s : N) (diskless : Bool) (memory : Memory)
  | loadFails (s : N) (diskless : Bool) (data : Bytes)
  | lose (s : N) (flagged : Bool)
  | close (m : N) (conn : Nat) (delivered : Nat)
  | backlogTimeout (m : N) (fresh : ReplId)
  | resizeBacklog (m : N) (memory : Memory)
  | save (n : N)
  | restart (n : N) (host : Option N) (aof : Option Bytes) (fresh : ReplId) (delivered : Nat → Nat)

/-- The random ID that goes with an action. -/
def Action.drawn {N : Type} : Action N → List ReplId
  | .replicaofNoOne _ _ fresh _ => [fresh]
  | .sync _ _ fresh _ => [fresh]
  | .backlogTimeout _ fresh => [fresh]
  | .restart _ _ _ fresh _ => [fresh]
  | _ => []

namespace System
variable {N : Type} [DecidableEq N] (σ : System N)

/-- A server changes, and with it what is on its way to others. -/
def install (n : N) (x : Server N) (change : Link N → Link N) : System N :=
  { σ with servers := fun k => if k = n then x else (σ.servers k).mapLink change }

def set (n : N) (x : Server N) : System N := σ.install n x id

/-- `replicationFeedSlaves`, or `replicationFeedSlavesFromMasterStream` on a replica. -/
def replicationFeedSlaves (n : N) (x : Server N) (bytes : Bytes) : Exec (System N) := do
  let fed ← x.feedBacklog bytes
  .ok (σ.install n fed (Link.feed n x.slaves bytes))

/-- `n` becomes `x` after `disconnectSlaves`. -/
def disconnectSlaves (n : N) (x : Server N) (delivered : Nat → Nat) : System N :=
  σ.install n { x with slaves := [] } (Link.cut n x.slaves delivered)

/-- A replica that is not read-only executes the command too, but does not propagate it. -/
def write (m : N) (readOnly : Bool) (bytes : Bytes) : Exec (System N) :=
  let x := { σ.servers m with data := (σ.servers m).data ++ bytes }
  if x.masterhost.isSome then .ok (if readOnly then σ else σ.set m x)
  else if x.backlog.isNone then
    if x.slaves = [] then .ok (σ.set m x) else .error .assertion
  else σ.replicationFeedSlaves m x bytes

def apply (s : N) (count : Nat) : Exec (System N) :=
  let x := σ.servers s
  match x.link with
  | some ⟨peer, conn, .connected replid reploff, stream⟩ =>
    let bytes := stream.take count
    let x := { x with data := x.data ++ bytes,
                      link := some ⟨peer, conn, .connected replid (reploff + bytes.length), stream.drop count⟩ }
    σ.replicationFeedSlaves s x bytes
  | _ => .ok σ

def replicationSetMaster (n host : N) (flagged : Bool) (delivered : Nat → Nat) : Exec (System N) := do
  let wasMaster := (σ.servers n).masterhost.isNone
  let x ← (σ.servers n).closeLink flagged
  let x := { x with masterhost := some host }
  let x := if wasMaster then x.replicationCacheMasterUsingMyself else x
  .ok (σ.disconnectSlaves n x delivered)

def replicationUnsetMaster (n : N) (flagged : Bool) (fresh : ReplId) (delivered : Nat → Nat) : Exec (System N) := do
  if (σ.servers n).masterhost.isNone then .ok σ
  else do
    let x ← (σ.servers n).closeLink flagged
    let x := { x.replicationDiscardCachedMaster with masterhost := none }
    .ok (σ.disconnectSlaves n (x.shiftReplicationId fresh) delivered)

def connect (s : N) : System N :=
  let x := σ.servers s
  match x.masterhost, x.link with
  | some host, none =>
    let request := x.cachedMaster.map fun cached => (cached.1, (cached.2 : Int) + 1)
    { σ with nextConn := σ.nextConn + 1 }.set s { x with link := some ⟨host, σ.nextConn, .psync request, []⟩ }
  | _, _ => σ

/-- The transfer that a replica which waits for a file of `m` will get. -/
def shared (m : N) (t : N) : Option (Snapshot × Bytes) :=
  match (σ.servers t).link with
  | some l =>
    if l.peer = m ∧ l.conn ∈ (σ.servers m).slaves then l.stage.snapshot.map fun snapshot => (snapshot, l.stream)
    else none
  | none => none

/-- The master `m` becomes `x`, and its answer is on its way to `s`. -/
def answer (s m : N) (conn : Nat) (x : Server N) (stage : Stage) (stream : Bytes) : System N :=
  (σ.set m x).set s { σ.servers s with link := some ⟨m, conn, stage, stream⟩ }

def masterTryPartialResynchronization (s m : N) (conn : Nat) (request : Option (ReplId × Int)) :
    Exec (Option (System N)) :=
  let x := σ.servers m
  match x.acceptsPsync request, request with
  | some backlog, some (_, psyncOffset) => do
    let stream ← backlog.addReplyReplicationBacklog psyncOffset
    .ok (some (σ.answer s m conn { x with slaves := x.slaves ++ [conn] } (.continue x.replid) stream))
  | _, _ => .ok none

/-- The second half of `syncCommand`. -/
def fullResynchronization (s m : N) (conn : Nat) (sharing : Option N) (fresh : ReplId) (memory : Memory) :
    Exec (System N) := do
  let x := { σ.servers m with slaves := (σ.servers m).slaves ++ [conn] }
  if x.slaves.length = 1 ∧ x.backlog.isNone then do
    let x ← (x.changeReplicationId fresh).clearReplicationId2.createReplicationBacklog memory
    .ok (σ.answer s m conn x .waitBgsave [])
  else
    match sharing.bind (σ.shared m) with
    | some (snapshot, stream) => .ok (σ.answer s m conn x (.fullresync { snapshot with replid := x.replid }) stream)
    | none => .ok (σ.answer s m conn x .waitBgsave [])

/-- `syncCommand` at the master of `s`. -/
def syncCommand (s : N) (sharing : Option N) (fresh : ReplId) (memory : Memory) : Exec (System N) :=
  match (σ.servers s).link with
  | some ⟨m, conn, .psync request, _⟩ =>
    if (σ.servers m).masterhost.isSome && !(σ.servers m).connected then
      .ok (σ.set s { σ.servers s with link := none })
    else do
      match ← σ.masterTryPartialResynchronization s m conn request with
      | some next => .ok next
      | none => σ.fullResynchronization s m conn sharing fresh memory
  | _ => .ok σ

/-- `startBgsaveForReplication`. -/
def startBgsave (m : N) : System N :=
  let x := σ.servers m
  if x.rdbPopulateSaveInfo.isNone then σ
  else σ.install m x (Link.bgsave m x.slaves ⟨x.replid, x.masterReplOffset, x.data⟩)

/-- What `syncWithMaster` does to the replicas of `s` unless it can continue. -/
def resyncSlaves (s : N) (x : Server N) (delivered : Nat → Nat) : Exec (System N) := do
  let freed ← { x with slaves := [] }.freeReplicationBacklog
  .ok (σ.install s freed (Link.cut s x.slaves delivered))

/-- The second half of `slaveTryPartialResynchronization` and what follows it in
`syncWithMaster`. -/
def readReply (s : N) (memory : Memory) (delivered : Nat → Nat) : Exec (System N) :=
  let x := σ.servers s
  match x.link with
  | some ⟨peer, conn, .continue new, stream⟩ =>
    match x.cachedMaster with
    | none => .error .outOfBounds
    | some (replid, reploff) =>
      let resurrect (x : Server N) : Exec (Server N) :=
        { x with link := some ⟨peer, conn, .connected new reploff, stream⟩,
                 cachedMaster := none }.createBacklogIfNone memory
      if new ≠ replid then do
        let x ← resurrect { x with replid2 := replid, secondReplidOffset := x.masterReplOffset + 1, replid := new }
        .ok (σ.disconnectSlaves s x delivered)
      else do
        let x ← resurrect x
        .ok (σ.set s x)
  | some ⟨peer, conn, .fullresync snapshot, stream⟩ =>
    σ.resyncSlaves s { x.replicationDiscardCachedMaster with link := some ⟨peer, conn, .transfer snapshot, stream⟩ }
      delivered
  | _ => .ok σ

/-- The same with an error for a reply, other than `-NOMASTERLINK` and `-LOADING`. -/
def readErrorReply (s : N) (written : Bool) (delivered : Nat → Nat) : Exec (System N) :=
  let x := σ.servers s
  match x.link with
  | some l =>
    if l.stage.awaiting then
      let link := if written then some { l with stage := .sync, stream := [] } else none
      σ.resyncSlaves s { x.replicationDiscardCachedMaster with link := link } delivered
    else .ok σ
  | none => .ok σ

/-- The end of `readSyncBulkPayload`. Unless the data is read from the socket, the file
that was received becomes the RDB file of the replica. -/
def finishLoad (s : N) (diskless : Bool) (memory : Memory) : Exec (System N) :=
  let x := σ.servers s
  match x.link with
  | some ⟨peer, conn, .transfer snapshot, stream⟩ => do
    let x := { x with data := snapshot.data, replid := snapshot.replid, masterReplOffset := snapshot.offset,
                      link := some ⟨peer, conn, .connected snapshot.replid snapshot.offset, stream⟩,
                      disk := if diskless then x.disk else some snapshot.rdb }
    let x ← x.clearReplicationId2.createBacklogIfNone memory
    .ok (σ.set s x)
  | _ => .ok σ

/-- The transfer fails after the old data has been flushed. -/
def failLoad (s : N) (diskless : Bool) (data : Bytes) : System N :=
  let x := σ.servers s
  match x.link with
  | some ⟨_, _, .transfer snapshot, _⟩ =>
    σ.set s { x with data := data, link := none, disk := if diskless then x.disk else some snapshot.rdb }
  | _ => σ

def loseLink (s : N) (flagged : Bool) : Exec (System N) := do
  let x ← (σ.servers s).closeLink flagged
  .ok (σ.set s x)

def closeSlave (m : N) (conn : Nat) (delivered : Nat) : System N :=
  let x := σ.servers m
  σ.install m { x with slaves := x.slaves.filter (· ≠ conn) } (Link.cut m [conn] fun _ => delivered)

/-- The part of `replicationCron` that frees a backlog nobody has used for long. -/
def backlogTimeout (m : N) (fresh : ReplId) : Exec (System N) :=
  let x := σ.servers m
  if x.slaves = [] ∧ x.backlog.isSome ∧ x.masterhost.isNone then do
    let x ← ((x.changeReplicationId fresh).clearReplicationId2).freeReplicationBacklog
    .ok (σ.set m x)
  else .ok σ

def save (n : N) : System N :=
  let x := σ.servers n
  σ.set n { x with disk := some ⟨x.data, x.rdbPopulateSaveInfo⟩ }

def restart (n : N) (host : Option N) (aof : Option Bytes) (fresh : ReplId) (delivered : Nat → Nat) : System N :=
  let x := σ.servers n
  σ.install n (x.loadDataFromDisk fresh host aof) (Link.cut n x.slaves delivered)

def act : Action N → Exec (System N)
  | .write m readOnly bytes => σ.write m readOnly bytes
  | .apply s count => σ.apply s count
  | .replicaof n host flagged delivered => σ.replicationSetMaster n host flagged delivered
  | .replicaofNoOne n flagged fresh delivered => σ.replicationUnsetMaster n flagged fresh delivered
  | .connect s => .ok (σ.connect s)
  | .sync s sharing fresh memory => σ.syncCommand s sharing fresh memory
  | .bgsave m => .ok (σ.startBgsave m)
  | .reply s memory delivered => σ.readReply s memory delivered
  | .replyError s written delivered => σ.readErrorReply s written delivered
  | .load s diskless memory => σ.finishLoad s diskless memory
  | .loadFails s diskless data => .ok (σ.failLoad s diskless data)
  | .lose s flagged => σ.loseLink s flagged
  | .close m conn delivered => .ok (σ.closeSlave m conn delivered)
  | .backlogTimeout m fresh => σ.backlogTimeout m fresh
  | .resizeBacklog m memory => .ok (σ.set m ((σ.servers m).resizeReplicationBacklog memory))
  | .save n => .ok (σ.save n)
  | .restart n host aof fresh delivered => .ok (σ.restart n host aof fresh delivered)

def run (σ : System N) : List (Action N) → Exec (System N)
  | [] => .ok σ
  | action :: rest => do
    let next ← σ.act action
    next.run rest

end System

/-- Servers that have just been started, each with data and a random ID of its own. -/
def start {count : Nat} (first : Fin count → ReplId) (data : Fin count → Bytes) : System (Fin count) where
  servers n :=
    { data := data n, replid := first n, replid2 := 0, secondReplidOffset := -1, masterReplOffset := 0,
      backlog := none, masterhost := none, cachedMaster := none, link := none, slaves := [], disk := none }
  nextConn := 0

end BlogAlgorithms.Redis.Psync
