import BlogAlgorithms.Redis.PsyncStories
import Mathlib.Logic.Function.Basic

namespace BlogAlgorithms.Redis.Psync
open C

namespace Stories
variable {S : Stories} {r : ReplId} {story : Story}

/-- A new story, or one that goes on. -/
def tell (S : Stories) (r : ReplId) (story : Story) : Stories := Function.update S r (some story)

theorem tell_self (S : Stories) (r : ReplId) (story : Story) : S.tell r story r = some story :=
  Function.update_self ..

theorem tell_other {q : ReplId} (other : q ≠ r) : S.tell r story q = S q := Function.update_of_ne other ..

theorem tell_extends_of_none (none : S r = none) (story : Story) : (S.tell r story).Extends S := by
  intro q old here
  have other : q ≠ r := fun same => by rw [same, none] at here; cases here
  rw [tell_other other]
  exact Extends.refl S q old here

theorem tell_extends {d : Bytes} {o : Nat} {shown : Bool} (here : S r = some ⟨d, o, shown⟩) (more : Bytes) :
    (S.tell r ⟨d ++ more, o + more.length, shown⟩).Extends S := by
  intro q old isOld
  by_cases same : q = r
  · subst same
    obtain rfl : _ = old := Option.some.inj (here.symm.trans isOld)
    exact ⟨more, shown, tell_self .., rfl⟩
  · rw [tell_other same]
    exact Extends.refl S q old isOld

theorem tell_known {known : List ReplId} (told : ∀ q old, S q = some old → q ∈ known) (isKnown : r ∈ known) :
    ∀ q old, S.tell r story q = some old → q ∈ known := by
  intro q old here
  by_cases same : q = r
  · exact same ▸ isKnown
  · rw [tell_other same] at here
    exact told q old here

theorem claim_of_eq {d : Bytes} {o : Nat} {shown : Bool} (here : S r = some ⟨d, o, shown⟩) : S.Claim r o d :=
  ⟨_, [], here, (List.append_nil d).symm, rfl⟩

theorem Claim.start {o : Nat} {d e : Bytes} (claim : S.Claim r (o + e.length) (d ++ e)) : S.Claim r o d := by
  have begun := claim.take 0
  rwa [List.take_zero, List.append_nil] at begun

end Stories

variable {N : Type} {S T : Stories} {known : List ReplId} {x x' y m m' : Server N} {l : Link N}

namespace Link

/-- The replica and the master may change in everything that the connection does
not speak of. -/
theorem Sound.view (sound : l.Sound S x m) (replid : x'.replid = x.replid)
    (offset : x'.masterReplOffset = x.masterReplOffset) (data : x'.data = x.data)
    (cached : x'.cachedMaster = x.cachedMaster) (backlog : x'.backlog = none ↔ x.backlog = none) :
    l.Sound S x' m := by
  unfold Sound at sound ⊢
  rw [replid, offset, data, cached]
  simpa only [ne_eq, backlog] using sound

theorem Sound.sameMaster (sound : l.Sound S x m) (slaves : m'.slaves = m.slaves) (replid : m'.replid = m.replid)
    (offset : m'.masterReplOffset = m.masterReplOffset) (data : m'.data = m.data) : l.Sound S x m' :=
  sound.change (.refl S) rfl fun _ _ _ _ flows =>
    ⟨flows.claim, by rw [slaves, replid, offset, data]; exact flows.current⟩

/-- The master may open and close other connections. -/
theorem Sound.reslave {slaves : List Nat} (sound : l.Sound S x m) (fewer : l.conn ∈ slaves → l.conn ∈ m.slaves) :
    l.Sound S x { m with slaves := slaves } :=
  sound.change (.refl S) rfl fun _ _ _ _ flows => ⟨flows.claim, fun attached => flows.current (fewer attached)⟩

/-- A replica that waits for an answer has nothing on its way. -/
theorem Sound.unfed (sound : l.Sound S x m) (extends_ : T.Extends S) (unfed : l.stage.fed = false) :
    l.Sound T x m' :=
  sound.change extends_ rfl fun _ _ _ fed _ => absurd (unfed.symm.trans fed) Bool.false_ne_true

theorem Sound.closed (sound : l.Sound S x m) (extends_ : T.Extends S) (closed : l.conn ∉ m'.slaves) :
    l.Sound T x m' :=
  sound.change extends_ rfl fun _ _ _ _ flows =>
    ⟨flows.claim.mono extends_, fun attached => absurd attached closed⟩

/-- A change of connections that leaves those to other servers than `n` alone. -/
structure Touches (n : N) (change : Link N → Link N) : Prop where
  peer : ∀ l, (change l).peer = l.peer
  conn : ∀ l, (change l).conn = l.conn
  apart : ∀ l : Link N, l.peer ≠ n → change l = l

theorem touches_id (n : N) : Touches n (id : Link N → Link N) :=
  ⟨fun _ => rfl, fun _ => rfl, fun _ _ => rfl⟩

section Changes
variable [DecidableEq N] {n : N} {slaves : List Nat} {bytes : Bytes} {delivered : Nat → Nat} {snapshot : Snapshot}

theorem touches_feed : Touches n (feed n slaves bytes) := by
  refine ⟨fun l => ?_, fun l => ?_, fun l away => if_neg fun both => away both.1⟩
  · unfold feed; split <;> rfl
  · unfold feed; split <;> rfl

theorem touches_cut : Touches n (cut n slaves delivered) := by
  refine ⟨fun l => ?_, fun l => ?_, fun l away => if_neg fun both => away both.1⟩
  · unfold cut; split <;> rfl
  · unfold cut; split <;> rfl

theorem touches_bgsave : Touches n (bgsave n slaves snapshot) := by
  refine ⟨fun l => ?_, fun l => ?_, fun l away => if_neg fun both => away both.1⟩
  · unfold bgsave; split <;> rfl
  · unfold bgsave; split <;> rfl

/-- What a master executes and sends reaches every open connection. -/
theorem Sound.feed (sound : l.Sound S x m) (extends_ : T.Extends S) (toN : l.peer = n)
    (slaves : m'.slaves = m.slaves) (replid : m'.replid = m.replid)
    (offset : m'.masterReplOffset = m.masterReplOffset + bytes.length)
    (data : m'.data = m.data ++ bytes) (claim : T.Claim m'.replid m'.masterReplOffset m'.data) :
    (l.feed n m.slaves bytes).Sound T x m' := by
  unfold Link.feed
  split
  · rename_i fed
    refine sound.change extends_ rfl fun r o d _ flows => ?_
    obtain ⟨isReplid, isOffset, isData⟩ := flows.current fed.2.1
    have atEnd : m'.replid = r ∧ m'.masterReplOffset = o + (l.stream ++ bytes).length ∧
        m'.data = d ++ (l.stream ++ bytes) := by
      refine ⟨replid.trans isReplid, ?_, ?_⟩
      · rw [offset, isOffset, List.length_append, Nat.add_assoc]
      · rw [data, isData, List.append_assoc]
    refine ⟨?_, fun _ => atEnd⟩
    rw [atEnd.1, atEnd.2.1, atEnd.2.2] at claim
    exact claim
  · rename_i unfed
    refine sound.change extends_ rfl fun r o d isFed flows => ⟨flows.claim.mono extends_, fun attached => ?_⟩
    rw [slaves] at attached
    exact absurd ⟨toN, attached, isFed⟩ unfed

/-- A connection that is closed may lose the end of its stream. -/
theorem Sound.cut (sound : l.Sound S x m) (extends_ : T.Extends S) (closed : l.conn ∉ m'.slaves) :
    (l.cut n slaves delivered).Sound T x m' := by
  unfold Link.cut
  split
  · refine sound.change extends_ rfl fun r o d _ flows => ⟨?_, fun attached => absurd attached closed⟩
    exact (flows.claim.take (delivered l.conn)).mono extends_
  · exact sound.closed extends_ closed

end Changes

end Link

namespace System
variable [DecidableEq N] {σ τ : System N} {n : N} {change : Link N → Link N}

theorem linked_of_none (unlinked : x.link = none) : Linked T σ n x := by
  intro l isLink
  rw [unlinked] at isLink
  cases isLink

/-- A server that closes its connections, each at some point of its stream. -/
theorem serves_cut (extends_ : T.Extends S) {slaves : List Nat} {delivered : Nat → Nat} (noSlaves : x.slaves = []) :
    Serves S T σ n x (Link.cut n slaves delivered) :=
  fun _ _ _ _ _ was => was.cut extends_ (by rw [noSlaves]; exact List.not_mem_nil)

omit [DecidableEq N] in
theorem serves_closed (extends_ : T.Extends S) (noSlaves : x.slaves = []) : Serves S T σ n x id :=
  fun _ _ _ _ _ was => was.closed extends_ (by rw [noSlaves]; exact List.not_mem_nil)

omit [DecidableEq N] in
theorem serves_same (slaves : x.slaves = (σ.servers n).slaves) (replid : x.replid = (σ.servers n).replid)
    (offset : x.masterReplOffset = (σ.servers n).masterReplOffset) (data : x.data = (σ.servers n).data) :
    Serves S S σ n x id :=
  fun _ _ _ _ _ was => was.sameMaster slaves replid offset data

theorem serves_feed (extends_ : T.Extends S) {bytes : Bytes} (slaves : x.slaves = (σ.servers n).slaves)
    (replid : x.replid = (σ.servers n).replid)
    (offset : x.masterReplOffset = (σ.servers n).masterReplOffset + bytes.length)
    (data : x.data = (σ.servers n).data ++ bytes) (claim : T.Claim x.replid x.masterReplOffset x.data) :
    Serves S T σ n x (Link.feed n (σ.servers n).slaves bytes) :=
  fun _ _ _ _ toN was => was.feed extends_ toN slaves replid offset data claim

theorem step_install (touches : Link.Touches n change) (nextConn : σ.nextConn ≤ τ.nextConn)
    (servers : τ.servers = σ.servers)
    (fresh : ∀ l, x.link = some l →
      (∃ l', (σ.servers n).link = some l' ∧ l'.conn = l.conn) ∨ (σ.nextConn ≤ l.conn ∧ l.conn < τ.nextConn)) :
    Step σ (τ.install n x change) n x change :=
  ⟨fun k => by rw [install, servers], nextConn, touches.peer, touches.conn, touches.apart, fresh⟩

theorem step_unlinked (touches : Link.Touches n change) (unlinked : x.link = none) :
    Step σ (σ.install n x change) n x change := by
  refine step_install touches le_rfl rfl fun l isLink => ?_
  rw [unlinked] at isLink
  cases isLink

/-- A server changes without taking a new ID and without adding to its story. -/
theorem Good.install (good : σ.Good S known) (touches : Link.Touches n change) (sound : x.Sound S known)
    (role : x.masterhost = none → (σ.servers n).masterhost = none ∧ x.replid = (σ.servers n).replid)
    (same : ∀ l, x.link = some l → ∃ l', (σ.servers n).link = some l' ∧ l'.conn = l.conn)
    (own : Linked S σ n x) (served : Serves S S σ n x change) : (σ.install n x change).Good S known := by
  have step : Step σ (σ.install n x change) n x change :=
    step_install touches le_rfl rfl fun l isLink => Or.inl (same l isLink)
  refine good.step (.refl S) (List.Subset.refl _) step good.stories sound ?_ own served
  refine fun k other isMaster => ⟨rfl, fun nowMaster equal => ?_⟩
  obtain ⟨wasMaster, keeps⟩ := role nowMaster
  exact other (good.masters k n isMaster wasMaster (equal.trans keeps))

/-- The same for a server whose connection to its master ends. -/
theorem Good.unlink (good : σ.Good S known) (touches : Link.Touches n change) (sound : x.Sound S known)
    (role : x.masterhost = none → (σ.servers n).masterhost = none ∧ x.replid = (σ.servers n).replid)
    (unlinked : x.link = none) (served : Serves S S σ n x change) : (σ.install n x change).Good S known := by
  refine good.install touches sound role (fun l isLink => ?_) (linked_of_none unlinked) served
  rw [unlinked] at isLink
  cases isLink

/-- The same for a replica whose connection to its master goes on in another stage. -/
theorem Good.relink (good : σ.Good S known) (touches : Link.Touches n change) (sound : x.Sound S known)
    (replica : x.masterhost ≠ none) {l l' : Link N} (wasLink : (σ.servers n).link = some l)
    (isLink : x.link = some l') (conn : l.conn = l'.conn)
    (own : l'.Sound S x (if l'.peer = n then x else σ.servers l'.peer)) (served : Serves S S σ n x change) :
    (σ.install n x change).Good S known := by
  have only (k : Link N) (isK : x.link = some k) : k = l' := Option.some.inj (isK.symm.trans isLink)
  have role (isMaster : x.masterhost = none) : (σ.servers n).masterhost = none ∧ x.replid = (σ.servers n).replid :=
    absurd isMaster replica
  refine good.install touches sound role (fun k isK => ?_) (fun k isK => ?_) served
  · rw [only k isK]
    exact ⟨l, wasLink, conn⟩
  · rw [only k isK]
    exact own

/-- A server takes a new ID. -/
theorem Good.draw (good : σ.Good S known) (extends_ : T.Extends S) {r : ReplId} (new : r ∉ known)
    (untold : ∀ q ∈ known, T q = S q) (stories : ∀ q story, T q = some story → q ∈ known ++ [r])
    (touches : Link.Touches n change) (sound : x.Sound T (known ++ [r]))
    (role : x.masterhost = none → x.replid = r) (unlinked : x.link = none) (served : Serves S T σ n x change) :
    (σ.install n x change).Good T (known ++ [r]) := by
  refine good.step extends_ (List.subset_append_left ..) (step_unlinked touches unlinked) stories sound ?_
    (linked_of_none unlinked) served
  refine fun k _ _ => ⟨untold _ (good.servers k).idKnown, fun nowMaster equal => new ?_⟩
  rw [← role nowMaster, ← equal]
  exact (good.servers k).idKnown

/-- A server takes a new ID, under which nothing is told yet. -/
theorem Good.drawUntold (good : σ.Good S known) {r : ReplId} (new : r ∉ known) (touches : Link.Touches n change)
    (sound : x.Sound S (known ++ [r])) (role : x.masterhost = none → x.replid = r) (unlinked : x.link = none)
    (served : Serves S S σ n x change) : (σ.install n x change).Good S (known ++ [r]) :=
  good.draw (.refl S) new (fun _ _ => rfl) (fun q story told => List.mem_append_left _ (good.stories q story told))
    touches sound role unlinked served

omit [DecidableEq N] in
theorem Good.untold (good : σ.Good S known) {r : ReplId} (new : r ∉ known) : S r = none := by
  cases told : S r with
  | none => rfl
  | some story => exact absurd (good.stories _ story told) new

omit [DecidableEq N] in
theorem Good.tell_fresh (good : σ.Good S known) {r : ReplId} (new : r ∉ known) (story : Story) :
    (S.tell r story).Extends S ∧ (∀ q ∈ known, S.tell r story q = S q) ∧
      ∀ q old, S.tell r story q = some old → q ∈ known ++ [r] := by
  refine ⟨Stories.tell_extends_of_none (good.untold new) story, fun q isKnown => ?_, ?_⟩
  · exact Stories.tell_other fun same => new (same ▸ isKnown)
  · refine Stories.tell_known (fun q old told => ?_) (List.mem_append_right _ (List.mem_singleton_self r))
    exact List.mem_append_left _ (good.stories q old told)

omit [DecidableEq N] in
theorem Good.replica (good : σ.Good S known) (isLink : (σ.servers n).link = some l) :
    (σ.servers n).masterhost ≠ none := by
  intro isMaster
  rw [((good.servers n).alone isMaster).2] at isLink
  cases isLink

omit [DecidableEq N] in
theorem Good.shown_known (good : σ.Good S known) {r : ReplId} (shown : S.Shown r) : r ∈ known := by
  obtain ⟨story, told, _⟩ := shown
  exact good.stories r story told

end System

/-- The master of a server that changes is another one, or the server itself. -/
theorem Link.Flows.ite [DecidableEq N] {σ : System N} {n peer : N} {conn : Nat} {stream : Bytes} {r : ReplId}
    {o : Nat} {d : Bytes} (flows : Link.Flows S (σ.servers peer) conn stream r o d)
    (self : peer = n → conn ∈ x.slaves →
      x.replid = r ∧ x.masterReplOffset = o + stream.length ∧ x.data = d ++ stream) :
    Link.Flows S (if peer = n then x else σ.servers peer) conn stream r o d := by
  split
  · rename_i toSelf
    exact ⟨flows.claim, self toSelf⟩
  · exact flows

theorem Link.Flows.ite_of_noSlaves [DecidableEq N] {σ : System N} {n peer : N} {conn : Nat} {stream : Bytes}
    {r : ReplId} {o : Nat} {d : Bytes} (flows : Link.Flows S (σ.servers peer) conn stream r o d)
    (noSlaves : x.slaves = []) : Link.Flows S (if peer = n then x else σ.servers peer) conn stream r o d := by
  refine flows.ite fun _ attached => ?_
  rw [noSlaves] at attached
  exact absurd attached List.not_mem_nil

namespace Server

/-- A server that has neither a backlog nor a cached master claims nothing. -/
theorem sound_unsettled (idKnown : x.replid ∈ known) (backlog : x.backlog = none) (cached : x.cachedMaster = none)
    (unowned : x.masterhost = none → S x.replid = none ∧ x.link = none) (slaves : x.slaves = [])
    (saved : ∀ rdb r o, x.disk = some rdb → rdb.info = some (r, o) → S.Claim r o rdb.data) : x.Sound S known := by
  have unsettled : ¬ x.Settled := fun settled => settled.elim (fun kept => kept backlog) fun kept => kept cached
  constructor
  case idKnown => exact idKnown
  case holds => intro b isB; rw [backlog] at isB; cases isB
  case claim => exact fun settled => absurd settled unsettled
  case owner => exact fun _ kept => absurd backlog kept
  case unowned => exact fun isMaster _ => (unowned isMaster).1
  case shown => exact fun kept => absurd backlog kept
  case second => exact fun settled => absurd settled unsettled
  case cached => intro c isC; rw [cached] at isC; cases isC
  case alone => exact fun isMaster => ⟨cached, (unowned isMaster).2⟩
  case served => exact fun served => absurd slaves served
  case saved => exact saved

/-- A replica that has a cached master only. -/
theorem sound_cached (idKnown : x.replid ∈ known) (host : x.masterhost ≠ none) (backlog : x.backlog = none)
    (cached : x.cachedMaster = some (x.replid, x.masterReplOffset))
    (claim : S.Claim x.replid x.masterReplOffset x.data)
    (second : S.Shown x.replid → 0 ≤ x.secondReplidOffset → x.SecondClaim S) (slaves : x.slaves = [])
    (saved : ∀ rdb r o, x.disk = some rdb → rdb.info = some (r, o) → S.Claim r o rdb.data) : x.Sound S known := by
  constructor
  case idKnown => exact idKnown
  case holds => intro b isB; rw [backlog] at isB; cases isB
  case claim => exact fun _ => claim
  case owner => exact fun isMaster => absurd isMaster host
  case unowned => exact fun isMaster => absurd isMaster host
  case shown => exact fun kept => absurd backlog kept
  case second => exact fun _ => second
  case cached => exact fun c isC => Option.some.inj (isC.symm.trans cached)
  case alone => exact fun isMaster => absurd isMaster host
  case served => exact fun served => absurd slaves served
  case saved => exact saved

/-- A replica that has a backlog, and a master that is not cached. -/
theorem sound_connected {b : Backlog} (idKnown : x.replid ∈ known) (host : x.masterhost ≠ none)
    (backlog : x.backlog = some b) (holds : b.Holds x.data x.masterReplOffset)
    (claim : S.Claim x.replid x.masterReplOffset x.data) (shown : S.Shown x.replid)
    (second : 0 ≤ x.secondReplidOffset → x.SecondClaim S) (noCache : x.cachedMaster = none)
    (saved : ∀ rdb r o, x.disk = some rdb → rdb.info = some (r, o) → S.Claim r o rdb.data) : x.Sound S known := by
  constructor
  case idKnown => exact idKnown
  case holds => exact fun b' isB => Option.some.inj (backlog.symm.trans isB) ▸ holds
  case claim => exact fun _ => claim
  case owner => exact fun isMaster => absurd isMaster host
  case unowned => exact fun isMaster => absurd isMaster host
  case shown => exact fun _ => shown
  case second => exact fun _ _ => second
  case cached => intro c isC; rw [noCache] at isC; cases isC
  case alone => exact fun isMaster => absurd isMaster host
  case served => exact fun _ => Option.ne_none_iff_exists'.mpr ⟨b, backlog⟩
  case saved => exact saved

/-- A master that keeps a backlog is the one that tells the story of its ID. -/
theorem sound_master {b : Backlog} (idKnown : x.replid ∈ known) (backlog : x.backlog = some b)
    (holds : b.Holds x.data x.masterReplOffset) (told : S x.replid = some ⟨x.data, x.masterReplOffset, true⟩)
    (second : 0 ≤ x.secondReplidOffset → x.SecondClaim S) (noCache : x.cachedMaster = none) (link : x.link = none)
    (saved : ∀ rdb r o, x.disk = some rdb → rdb.info = some (r, o) → S.Claim r o rdb.data) : x.Sound S known := by
  have kept : x.backlog ≠ none := Option.ne_none_iff_exists'.mpr ⟨b, backlog⟩
  constructor
  case idKnown => exact idKnown
  case holds => exact fun b' isB => Option.some.inj (backlog.symm.trans isB) ▸ holds
  case claim => exact fun _ => Stories.claim_of_eq told
  case owner => exact fun _ _ => told
  case unowned => exact fun _ noBacklog => absurd noBacklog kept
  case shown => exact fun _ => ⟨_, told, rfl⟩
  case second => exact fun _ _ => second
  case cached => intro c isC; rw [noCache] at isC; cases isC
  case alone => exact fun _ => ⟨noCache, link⟩
  case served => exact fun _ => kept
  case saved => exact saved

/-- A server that closes its connections and follows another one. -/
theorem Sound.follow (sound : x.Sound S known) (host : N) {cached : Option (ReplId × Nat)}
    (settled : x.backlog ≠ none ∨ cached ≠ none → x.Settled)
    (isCached : ∀ c, cached = some c → c = (x.replid, x.masterReplOffset)) :
    ({ x with cachedMaster := cached, link := none, masterhost := some host, slaves := [] } : Server N).Sound S
      known where
  __ := sound
  claim now := sound.claim (settled now)
  owner isMaster := absurd isMaster (Option.some_ne_none host)
  unowned isMaster := absurd isMaster (Option.some_ne_none host)
  second now := sound.second (settled now)
  cached := isCached
  alone isMaster := absurd isMaster (Option.some_ne_none host)
  served some := absurd rfl some

/-- The connection of a replica does not matter to what the replica itself claims. -/
theorem Sound.relink (sound : x.Sound S known) (replica : x.masterhost ≠ none) (link : Option (Link N)) :
    ({ x with link := link } : Server N).Sound S known :=
  { sound with alone := fun isMaster => absurd isMaster replica }

theorem freeReplicationBacklog_spec (slaves : x.slaves = []) :
    x.freeReplicationBacklog = .ok { x with backlog := none } := if_pos slaves

theorem createReplicationBacklog_spec (x : Server N) (memory : Memory) (noBacklog : x.backlog = none) :
    x.createReplicationBacklog memory = .ok (x.newBacklog memory) := by
  rw [createReplicationBacklog, noBacklog]
  rfl

/-- A server that has no backlog yet gets one; nothing else changes. -/
theorem createBacklogIfNone_spec (x : Server N) (memory : Memory)
    (holds : ∀ b, x.backlog = some b → b.Holds x.data x.masterReplOffset) :
    ∃ b, x.createBacklogIfNone memory = .ok { x with backlog := some b } ∧ b.Holds x.data x.masterReplOffset := by
  rw [createBacklogIfNone]
  obtain isBacklog | ⟨b, isBacklog⟩ := Option.eq_none_or_eq_some x.backlog
  · rw [createReplicationBacklog_spec x memory isBacklog, isBacklog]
    exact ⟨_, rfl, Backlog.holds_create memory.2 ..⟩
  · refine ⟨b, ?_, holds b isBacklog⟩
    rw [if_neg (by rw [isBacklog]; exact Bool.false_ne_true), ← isBacklog]

/-- What is executed further continues the second ID as well. -/
theorem SecondClaim.further {bytes : Bytes} (second : x.SecondClaim S) (replid2 : x'.replid2 = x.replid2)
    (offset2 : x'.secondReplidOffset = x.secondReplidOffset) (data : x'.data = x.data ++ bytes)
    (offset : x'.masterReplOffset = x.masterReplOffset + bytes.length) : x'.SecondClaim S := by
  obtain ⟨k, d, more, isSecond, shown, claim, isData, isOffset⟩ := second
  refine ⟨k, d, more ++ bytes, offset2.trans isSecond, replid2 ▸ shown, replid2 ▸ claim, ?_, ?_⟩
  · rw [data, isData, List.append_assoc]
  · rw [offset, isOffset, List.length_append, Nat.add_assoc]

/-- The ID that a server leaves becomes its second one. -/
theorem secondClaim_shift (shown : S.Shown x.replid2) (claim : S.Claim x.replid2 x.masterReplOffset x.data)
    (offset2 : x.secondReplidOffset = (x.masterReplOffset : Int) + 1) : x.SecondClaim S :=
  ⟨x.masterReplOffset, x.data, [], offset2, shown, claim, (List.append_nil _).symm, rfl⟩

theorem Sound.saved_mono (sound : x.Sound S known) (extends_ : T.Extends S) (rdb : Rdb) (r : ReplId) (o : Nat)
    (isDisk : x.disk = some rdb) (info : rdb.info = some (r, o)) : T.Claim r o rdb.data :=
  (sound.saved rdb r o isDisk info).mono extends_

/-- What is left of the connection to the master when it ends. -/
theorem closeLink_spec (sound : x.Sound S known) (link : ∀ l, x.link = some l → ∃ m, l.Sound S x m)
    (flagged : Bool) :
    ∃ cached, x.closeLink flagged = .ok { x with cachedMaster := cached, link := none } ∧
      (cached = x.cachedMaster ∨ cached = some (x.replid, x.masterReplOffset) ∧ x.backlog ≠ none) ∧
      (x.masterhost = none → cached = none) := by
  have kept : x.masterhost = none → x.cachedMaster = none := fun isMaster => (sound.alone isMaster).1
  rw [closeLink]
  split
  · rename_i peer conn replid reploff stream isLink
    obtain ⟨m, here⟩ := link _ isLink
    obtain ⟨rfl, rfl, hasBacklog, noCache, _⟩ := here
    cases flagged with
    | true => exact ⟨x.cachedMaster, rfl, Or.inl rfl, kept⟩
    | false =>
      rw [if_neg Bool.false_ne_true, noCache, Option.isSome_none, if_neg Bool.false_ne_true]
      refine ⟨_, rfl, Or.inr ⟨rfl, hasBacklog⟩, fun isMaster => ?_⟩
      rw [(sound.alone isMaster).2] at isLink
      cases isLink
  · exact ⟨x.cachedMaster, rfl, Or.inl rfl, kept⟩

/-- The cached master that is left then is the server as it is. -/
theorem Sound.closed (sound : x.Sound S known) {cached : Option (ReplId × Nat)}
    (isCached : cached = x.cachedMaster ∨ cached = some (x.replid, x.masterReplOffset) ∧ x.backlog ≠ none) :
    (x.backlog ≠ none ∨ cached ≠ none → x.Settled) ∧ ∀ c, cached = some c → c = (x.replid, x.masterReplOffset) := by
  rcases isCached with rfl | ⟨rfl, kept⟩
  · exact ⟨id, sound.cached⟩
  · exact ⟨fun _ => Or.inl kept, fun c isC => (Option.some.inj isC).symm⟩

end Server

end BlogAlgorithms.Redis.Psync
