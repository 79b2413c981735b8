import BlogAlgorithms.Redis.Psync

namespace BlogAlgorithms.Redis.Psync
open C

/-- What has been executed under an ID, up to which offset, and whether servers
other than the one that drew the ID can know of it. -/
structure Story where
  data : Bytes
  offset : Nat
  shown : Bool

abbrev Stories := ReplId → Option Story

namespace Stories
variable {S T : Stories} {r : ReplId} {o : Nat} {d e : Bytes}

/-- `d` is what had been executed under `r` at offset `o`. -/
def Claim (S : Stories) (r : ReplId) (o : Nat) (d : Bytes) : Prop :=
  ∃ story suffix, S r = some story ∧ story.data = d ++ suffix ∧ story.offset = o + suffix.length

def Shown (S : Stories) (r : ReplId) : Prop := ∃ story, S r = some story ∧ story.shown = true

/-- Stories only grow. -/
def Extends (T S : Stories) : Prop :=
  ∀ r story, S r = some story → ∃ more shown,
    T r = some ⟨story.data ++ more, story.offset + more.length, shown⟩ ∧ story.shown = shown

theorem Extends.refl (S : Stories) : S.Extends S :=
  fun _ story here => ⟨[], story.shown, by rw [here, List.append_nil]; rfl, rfl⟩

theorem Claim.mono (claim : S.Claim r o d) (extends_ : T.Extends S) : T.Claim r o d := by
  obtain ⟨story, suffix, here, data, offset⟩ := claim
  obtain ⟨more, shown, there, _⟩ := extends_ r story here
  refine ⟨_, suffix ++ more, there, ?_, ?_⟩
  · rw [data, List.append_assoc]
  · rw [offset, List.length_append, Nat.add_assoc]

theorem Shown.mono (shown : S.Shown r) (extends_ : T.Extends S) : T.Shown r := by
  obtain ⟨story, here, isShown⟩ := shown
  obtain ⟨more, shown', there, same⟩ := extends_ r story here
  exact ⟨_, there, same.symm.trans isShown⟩

theorem Claim.take (claim : S.Claim r (o + e.length) (d ++ e)) (count : Nat) :
    S.Claim r (o + (e.take count).length) (d ++ e.take count) := by
  obtain ⟨story, suffix, here, data, offset⟩ := claim
  refine ⟨story, e.drop count ++ suffix, here, ?_, ?_⟩
  · rw [data, List.append_assoc, List.append_assoc, ← List.append_assoc (e.take count), List.take_append_drop]
  · have total := congrArg List.length (List.take_append_drop count e)
    rw [List.length_append] at total ⊢
    omega

/-- Of two claims about one ID the later one continues the earlier. -/
theorem Claim.continues {p : Nat} (claim : S.Claim r o d) (later : S.Claim r p e) (le : o ≤ p) :
    ∃ more, e = d ++ more ∧ p = o + more.length := by
  obtain ⟨story, suffix, here, data, offset⟩ := claim
  obtain ⟨story', suffix', here', data', offset'⟩ := later
  obtain rfl : story = story' := Option.some.inj (here.symm.trans here')
  have both := data.symm.trans data'
  have lengths := congrArg List.length both
  rw [List.length_append, List.length_append] at lengths
  have isPrefix : d <+: e := List.prefix_of_prefix_length_le ⟨suffix, data.symm⟩ ⟨suffix', data'.symm⟩ (by omega)
  obtain ⟨more, rfl⟩ := isPrefix
  refine ⟨more, rfl, ?_⟩
  rw [List.length_append] at lengths
  omega

end Stories

variable {N : Type}

namespace Server

/-- The server's data is the story of its ID: it has a backlog, or a cached master
from which it would go on. -/
def Settled (x : Server N) : Prop := x.backlog ≠ none ∨ x.cachedMaster ≠ none

/-- The data is a continuation of what the second ID stands for. -/
def SecondClaim (S : Stories) (x : Server N) : Prop :=
  ∃ (k : Nat) (d more : Bytes), x.secondReplidOffset = (k : Int) + 1 ∧ S.Shown x.replid2 ∧ S.Claim x.replid2 k d ∧
    x.data = d ++ more ∧ x.masterReplOffset = k + more.length

/-- `known` are the IDs that have been drawn so far. -/
structure Sound (S : Stories) (known : List ReplId) (x : Server N) : Prop where
  idKnown : x.replid ∈ known
  holds : ∀ b, x.backlog = some b → b.Holds x.data x.masterReplOffset
  claim : x.Settled → S.Claim x.replid x.masterReplOffset x.data
  owner : x.masterhost = none → x.backlog ≠ none → S x.replid = some ⟨x.data, x.masterReplOffset, true⟩
  unowned : x.masterhost = none → x.backlog = none → S x.replid = none
  shown : x.backlog ≠ none → S.Shown x.replid
  second : x.Settled → S.Shown x.replid → 0 ≤ x.secondReplidOffset → x.SecondClaim S
  cached : ∀ c, x.cachedMaster = some c → c = (x.replid, x.masterReplOffset)
  alone : x.masterhost = none → x.cachedMaster = none ∧ x.link = none
  served : x.slaves ≠ [] → x.backlog ≠ none
  saved : ∀ rdb r o, x.disk = some rdb → rdb.info = some (r, o) → S.Claim r o rdb.data

theorem SecondClaim.mono {S T : Stories} {x : Server N} (second : x.SecondClaim S) (extends_ : T.Extends S) :
    x.SecondClaim T := by
  obtain ⟨k, d, more, offset, shown, claim, rest⟩ := second
  exact ⟨k, d, more, offset, shown.mono extends_, claim.mono extends_, rest⟩

theorem Sound.mono {S T : Stories} {known known' : List ReplId} {x : Server N} (sound : x.Sound S known)
    (extends_ : T.Extends S) (more : known ⊆ known') (same : x.masterhost = none → T x.replid = S x.replid) :
    x.Sound T known' where
  idKnown := more sound.idKnown
  holds := sound.holds
  claim settled := (sound.claim settled).mono extends_
  owner isMaster some := (same isMaster).trans (sound.owner isMaster some)
  unowned isMaster none := (same isMaster).trans (sound.unowned isMaster none)
  shown some := (sound.shown some).mono extends_
  second settled shown nonneg := by
    obtain ⟨story, suffix, here, _⟩ := sound.claim settled
    obtain ⟨more, flag, there, isFlag⟩ := extends_ _ story here
    obtain ⟨story', here', isShown⟩ := shown
    obtain rfl : story' = _ := Option.some.inj (here'.symm.trans there)
    exact (sound.second settled ⟨story, here, isFlag.trans isShown⟩ nonneg).mono extends_
  cached := sound.cached
  alone := sound.alone
  served := sound.served
  saved rdb r o isDisk info := (sound.saved rdb r o isDisk info).mono extends_

theorem Sound.mapLink {S : Stories} {known : List ReplId} {x : Server N} (sound : x.Sound S known)
    (change : Link N → Link N) : (x.mapLink change).Sound S known where
  __ := sound
  alone isMaster := ⟨(sound.alone isMaster).1, by
    change x.link.map change = none
    rw [(sound.alone isMaster).2]
    rfl⟩

theorem Sound.noSlaves {S : Stories} {known : List ReplId} {x : Server N} (sound : x.Sound S known)
    (noBacklog : x.backlog = none) : x.slaves = [] := by
  by_contra served
  exact sound.served served noBacklog

end Server

namespace Link

/-- What is on its way continues `d`, and as long as the connection is open it
leads up to what the master has. -/
structure Flows (S : Stories) (m : Server N) (conn : Nat) (stream : Bytes) (r : ReplId) (o : Nat) (d : Bytes) :
    Prop where
  claim : S.Claim r (o + stream.length) (d ++ stream)
  current : conn ∈ m.slaves → m.replid = r ∧ m.masterReplOffset = o + stream.length ∧ m.data = d ++ stream

/-- The connection of the replica `x` to the master `m`. -/
def Sound (S : Stories) (x m : Server N) (l : Link N) : Prop :=
  match l.stage with
  | .psync request => ∀ asked, request = some asked →
      ∃ cached, x.cachedMaster = some cached ∧ asked = (cached.1, (cached.2 : Int) + 1)
  | .sync => True
  | .waitBgsave => True
  | .fullresync snapshot => S.Shown snapshot.replid ∧
      Flows S m l.conn l.stream snapshot.replid snapshot.offset snapshot.data
  | .transfer snapshot => S.Shown snapshot.replid ∧
      Flows S m l.conn l.stream snapshot.replid snapshot.offset snapshot.data ∧
      x.cachedMaster = none ∧ x.backlog = none
  | .continue r => S.Shown r ∧ S.Shown x.replid ∧ x.cachedMaster ≠ none ∧
      Flows S m l.conn l.stream r x.masterReplOffset x.data
  | .connected r o => r = x.replid ∧ o = x.masterReplOffset ∧ x.backlog ≠ none ∧ x.cachedMaster = none ∧
      Flows S m l.conn l.stream x.replid x.masterReplOffset x.data

variable {S T : Stories} {x m m' : Server N} {l : Link N} {r : ReplId} {o : Nat} {d : Bytes}

theorem Flows.mono (flows : Flows S m l.conn l.stream r o d) (extends_ : T.Extends S) :
    Flows T m l.conn l.stream r o d :=
  ⟨flows.claim.mono extends_, flows.current⟩

/-- Only the stream and the state of the master matter, so a change of these two
can be looked at alone. -/
theorem Sound.change {l' : Link N} (sound : l.Sound S x m) (extends_ : T.Extends S) (stage : l'.stage = l.stage)
    (flow : ∀ r o d, l.stage.fed = true →
      Flows S m l.conn l.stream r o d → Flows T m' l'.conn l'.stream r o d) : l'.Sound T x m' := by
  unfold Sound at sound ⊢
  rw [stage]
  cases isStage : l.stage with
  | psync request => rwa [isStage] at sound
  | sync => trivial
  | waitBgsave => trivial
  | fullresync snapshot =>
    rw [isStage] at sound
    exact ⟨sound.1.mono extends_, flow _ _ _ (by rw [isStage]; rfl) sound.2⟩
  | transfer snapshot =>
    rw [isStage] at sound
    exact ⟨sound.1.mono extends_, flow _ _ _ (by rw [isStage]; rfl) sound.2.1, sound.2.2⟩
  | «continue» replid =>
    rw [isStage] at sound
    exact ⟨sound.1.mono extends_, sound.2.1.mono extends_, sound.2.2.1,
      flow _ _ _ (by rw [isStage]; rfl) sound.2.2.2⟩
  | connected replid reploff =>
    rw [isStage] at sound
    exact ⟨sound.1, sound.2.1, sound.2.2.1, sound.2.2.2.1, flow _ _ _ (by rw [isStage]; rfl) sound.2.2.2.2⟩

theorem Sound.mono (sound : l.Sound S x m) (extends_ : T.Extends S) : l.Sound T x m :=
  sound.change extends_ rfl fun _ _ _ _ flows => flows.mono extends_

theorem Sound.mapMaster (sound : l.Sound S x m) (change : Link N → Link N) : l.Sound S x (m.mapLink change) :=
  sound.change (.refl S) rfl fun _ _ _ _ flows => ⟨flows.claim, flows.current⟩

end Link

namespace System

structure Good (S : Stories) (known : List ReplId) (σ : System N) : Prop where
  stories : ∀ r story, S r = some story → r ∈ known
  servers : ∀ n, (σ.servers n).Sound S known
  masters : ∀ m n, (σ.servers m).masterhost = none → (σ.servers n).masterhost = none →
    (σ.servers m).replid = (σ.servers n).replid → m = n
  links : ∀ s l, (σ.servers s).link = some l → l.Sound S (σ.servers s) (σ.servers l.peer)
  conns : ∀ s l, (σ.servers s).link = some l → l.conn < σ.nextConn
  unique : ∀ s t l l', (σ.servers s).link = some l → (σ.servers t).link = some l' → l.conn = l'.conn → s = t

variable {σ τ : System N} {S T : Stories} {known known' : List ReplId}

theorem Good.mono (good : σ.Good S known) (more : known ⊆ known') : σ.Good S known' where
  __ := good
  stories r story told := more (good.stories r story told)
  servers n := (good.servers n).mono (.refl S) more fun _ => rfl

variable [DecidableEq N]

/-- A step of one server `n`, which becomes `x`: what it does to the other servers
is what `change` does to their connections to `n`. -/
structure Step (σ τ : System N) (n : N) (x : Server N) (change : Link N → Link N) : Prop where
  servers : ∀ k, τ.servers k = if k = n then x else (σ.servers k).mapLink change
  nextConn : σ.nextConn ≤ τ.nextConn
  peer : ∀ l, (change l).peer = l.peer
  conn : ∀ l, (change l).conn = l.conn
  apart : ∀ l : Link N, l.peer ≠ n → change l = l
  fresh : ∀ l, x.link = some l →
    (∃ l', (σ.servers n).link = some l' ∧ l'.conn = l.conn) ∨ (σ.nextConn ≤ l.conn ∧ l.conn < τ.nextConn)

/-- The connection of `n` itself is sound when `n` becomes `x`. -/
def Linked (T : Stories) (σ : System N) (n : N) (x : Server N) : Prop :=
  ∀ l, x.link = some l → l.Sound T x (if l.peer = n then x else σ.servers l.peer)

/-- The connections to `n` stay sound when `n` becomes `x`. -/
def Serves (S T : Stories) (σ : System N) (n : N) (x : Server N) (change : Link N → Link N) : Prop :=
  ∀ k l, k ≠ n → (σ.servers k).link = some l → l.peer = n → l.Sound S (σ.servers k) (σ.servers n) →
    (change l).Sound T (σ.servers k) x

section Step
variable {n : N} {x : Server N} {change : Link N → Link N}

theorem Step.self (step : Step σ τ n x change) : τ.servers n = x := by rw [step.servers, if_pos rfl]

theorem Step.other (step : Step σ τ n x change) {k : N} (other : k ≠ n) :
    τ.servers k = (σ.servers k).mapLink change := by
  rw [step.servers, if_neg other]

theorem Step.link_before (step : Step σ τ n x change) {k : N} (other : k ≠ n) {l : Link N}
    (isLink : (τ.servers k).link = some l) : ∃ before, (σ.servers k).link = some before ∧ change before = l := by
  rw [step.other other] at isLink
  exact Option.map_eq_some_iff.mp isLink

theorem Step.conn_before (step : Step σ τ n x change) {k : N} (other : k ≠ n) {l : Link N}
    (isLink : (τ.servers k).link = some l) : ∃ before, (σ.servers k).link = some before ∧ before.conn = l.conn := by
  obtain ⟨before, isBefore, rfl⟩ := step.link_before other isLink
  exact ⟨before, isBefore, (step.conn before).symm⟩

theorem Good.step_masters (good : σ.Good S known) (step : Step σ τ n x change)
    (others : ∀ k, k ≠ n → (σ.servers k).masterhost = none → x.masterhost = none → (σ.servers k).replid ≠ x.replid)
    (a b : N) : (τ.servers a).masterhost = none → (τ.servers b).masterhost = none →
      (τ.servers a).replid = (τ.servers b).replid → a = b := by
  by_cases isA : a = n
  · by_cases isB : b = n
    · exact fun _ _ _ => isA.trans isB.symm
    · rw [isA, step.self, step.other isB]
      exact fun masterA masterB same => absurd same.symm (others b isB masterB masterA)
  · by_cases isB : b = n
    · rw [isB, step.self, step.other isA]
      exact fun masterA masterB same => absurd same (others a isA masterA masterB)
    · rw [step.other isA, step.other isB]
      exact good.masters a b

theorem Good.step_links (good : σ.Good S known) (extends_ : T.Extends S) (step : Step σ τ n x change)
    (own : Linked T σ n x) (served : Serves S T σ n x change) {s : N} {l : Link N}
    (isLink : (τ.servers s).link = some l) : l.Sound T (τ.servers s) (τ.servers l.peer) := by
  by_cases same : s = n
  · subst same
    rw [step.self] at isLink ⊢
    have here := own l isLink
    rw [step.servers]
    split
    · rename_i toSelf
      rwa [if_pos toSelf] at here
    · rename_i away
      rw [if_neg away] at here
      exact here.mapMaster change
  · obtain ⟨before, isBefore, rfl⟩ := step.link_before same isLink
    have was := good.links s before isBefore
    rw [step.other same, step.peer]
    by_cases toN : before.peer = n
    · rw [toN] at was
      rw [toN, step.self]
      exact served s before same isBefore toN was
    · rw [step.apart before toN, step.other toN]
      exact (was.mono extends_).mapMaster change

theorem Good.step_conns (good : σ.Good S known) (step : Step σ τ n x change) {s : N} {l : Link N}
    (isLink : (τ.servers s).link = some l) : l.conn < τ.nextConn := by
  by_cases same : s = n
  · rw [same, step.self] at isLink
    rcases step.fresh l isLink with ⟨old, isOld, equal⟩ | ⟨_, early⟩
    · exact equal ▸ (good.conns n old isOld).trans_le step.nextConn
    · exact early
  · obtain ⟨before, isBefore, equal⟩ := step.conn_before same isLink
    exact equal ▸ (good.conns s before isBefore).trans_le step.nextConn

/-- The connection of `n` is none of those of the others. -/
theorem Good.step_apart (good : σ.Good S known) (step : Step σ τ n x change) {k : N} (other : k ≠ n)
    {l l' : Link N} (isLink : (τ.servers k).link = some l) (isLink' : (τ.servers n).link = some l') :
    l.conn ≠ l'.conn := by
  obtain ⟨before, isBefore, same⟩ := step.conn_before other isLink
  rw [step.self] at isLink'
  intro equal
  rcases step.fresh l' isLink' with ⟨old, isOld, sameOld⟩ | ⟨late, _⟩
  · exact other (good.unique k n before old isBefore isOld (same.trans (equal.trans sameOld.symm)))
  · have early := good.conns k before isBefore
    omega

theorem Good.step_unique (good : σ.Good S known) (step : Step σ τ n x change) {s t : N} {l l' : Link N}
    (isLink : (τ.servers s).link = some l) (isLink' : (τ.servers t).link = some l') (equal : l.conn = l'.conn) :
    s = t := by
  by_cases isS : s = n
  · by_cases isT : t = n
    · exact isS.trans isT.symm
    · subst isS
      exact absurd equal.symm (good.step_apart step isT isLink' isLink)
  · by_cases isT : t = n
    · subst isT
      exact absurd equal (good.step_apart step isS isLink isLink')
    · obtain ⟨before, isBefore, same⟩ := step.conn_before isS isLink
      obtain ⟨before', isBefore', same'⟩ := step.conn_before isT isLink'
      exact good.unique s t before before' isBefore isBefore' (same.trans (equal.trans same'.symm))

/-- To keep the system good it is enough to look at the server that changes, at its
own connection and at the connections to it. -/
theorem Good.step (good : σ.Good S known) (extends_ : T.Extends S) (more : known ⊆ known')
    (step : Step σ τ n x change) (stories : ∀ r story, T r = some story → r ∈ known') (sound : x.Sound T known')
    (others : ∀ k, k ≠ n → (σ.servers k).masterhost = none →
      T (σ.servers k).replid = S (σ.servers k).replid ∧ (x.masterhost = none → (σ.servers k).replid ≠ x.replid))
    (own : Linked T σ n x) (served : Serves S T σ n x change) : τ.Good T known' where
  stories := stories
  servers k := by
    by_cases same : k = n
    · rw [same, step.self]
      exact sound
    · rw [step.other same]
      exact ((good.servers k).mono extends_ more fun isMaster => (others k same isMaster).1).mapLink change
  masters := good.step_masters step fun k other isMaster => (others k other isMaster).2
  links _ _ isLink := good.step_links extends_ step own served isLink
  conns _ _ isLink := good.step_conns step isLink
  unique _ _ _ _ isLink isLink' equal := good.step_unique step isLink isLink' equal

end Step

end System

end BlogAlgorithms.Redis.Psync
