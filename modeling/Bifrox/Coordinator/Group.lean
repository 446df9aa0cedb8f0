/-
Consumer groups (`src/server/coordinator.rs`).

A call names one group and reaches no other, so a group is followed here by itself: `none` is
a group that no one has joined yet.  Times are nanoseconds, and a call reads the clock once.
-/
import Bifrox.Lib.Assoc
import Bifrox.Lib.Text

namespace Bifrox.Coordinator

def millis (n : Nat) : Nat := n * 1000000

def minSessionTimeout : Nat := millis 200

def maxSessionTimeout : Nat := millis 300000

def defaultSessionTimeout : Nat := millis 10000

def maxRecentEvictions : Nat := 20

structure Config where
  initialRebalanceDelay : Nat
  maxPollInterval : Nat

/-- What a call reads from outside: the monotonic clock, the wall clock, and which keys
come first when the map of the members is iterated. -/
structure Reading where
  now : Nat
  wallNanos : Nat
  order : List Text

/-! ## Groups -/

inductive EvictionReason where
  | sessionTimeout
  | stalledConsumption
deriving DecidableEq

structure EvictionRecord where
  memberId : Text
  reason : EvictionReason
  instant : Nat

inductive GroupState where
  | empty
  | preparingRebalance
  | completingRebalance
  | stable
  | dead
deriving DecidableEq

abbrev Assignment : Type := AList (fun _ : Text => List UInt32)

structure MemberState where
  sessionTimeout : Nat
  assignedPartitions : Assignment
  lastHeartbeat : Nat
  lastProgress : Nat
  groupInstanceId : Option Text

abbrev Members : Type := AList (fun _ : Text => MemberState)

structure ConsumerGroup where
  state : GroupState
  generationId : UInt32
  leader : Option Text
  members : Members
  protocolName : Option Text
  rebalanceDeadline : Option Nat
  staticMembers : AList (fun _ : Text => Text)
  memberIdSeq : UInt64
  recentEvictions : List EvictionRecord

def nextGeneration (generation : UInt32) : UInt32 :=
  if generation = 0xFFFFFFFF then generation else generation + 1

def nextSeq (seq : UInt64) : UInt64 := if seq = 0xFFFFFFFFFFFFFFFF then seq else seq + 1

def staticMemberId (instanceId : Text) (seq : UInt64) : Text :=
  instanceId ++ '-' :: Nat.toDigits 10 seq.toNat

def resolveSessionTimeout : Option UInt32 → Nat
  | none => defaultSessionTimeout
  | some ms => max minSessionTimeout (min (millis ms.toNat) maxSessionTimeout)

def modify (members : Members) (id : Text) (f : MemberState → MemberState) : Members :=
  match members.lookup id with
  | none => members
  | some member => members.insert id (f member)

/-- `keys().next()`: a map may list its keys in any order. -/
def firstMember (order : List Text) (members : Members) : Option Text :=
  (order.find? fun id => (members.lookup id).isSome).or members.keys.head?

def MemberState.evictionReason (cfg : Config) (now : Nat) (member : MemberState) :
    Option EvictionReason :=
  if member.sessionTimeout < now - member.lastHeartbeat then some .sessionTimeout
  else if cfg.maxPollInterval < now - member.lastProgress then some .stalledConsumption
  else none

namespace ConsumerGroup

def new : ConsumerGroup where
  state := .empty
  generationId := 0
  leader := none
  members := ∅
  protocolName := none
  rebalanceDeadline := none
  staticMembers := ∅
  memberIdSeq := 0
  recentEvictions := []

variable (g : ConsumerGroup)

def isCooperative : Bool :=
  match g.protocolName with
  | none => false
  | some name => decide ("cooperative".toList <:+: name.map Char.toLower)

def recordEviction (memberId : Text) (reason : EvictionReason) (now : Nat) : ConsumerGroup :=
  let records := g.recentEvictions ++ [{ memberId := memberId, reason := reason, instant := now }]
  { g with recentEvictions := records.drop (records.length - maxRecentEvictions) }

def release : Option Text → ConsumerGroup
  | none => g
  | some instanceId => { g with staticMembers := g.staticMembers.erase instanceId }

def remove (memberId : Text) : ConsumerGroup :=
  match g.members.lookup memberId with
  | none => g
  | some member => { g.release member.groupInstanceId with members := g.members.erase memberId }

def replaceLeader (order : List Text) (gone : Text) : ConsumerGroup :=
  if g.leader = some gone then { g with leader := firstMember order g.members } else g

/-! ### Pruning -/

variable (cfg : Config)

def expired (now : Nat) (g : ConsumerGroup) : List (Text × EvictionReason) :=
  g.members.entries.filterMap fun entry => (entry.2.evictionReason cfg now).map (Prod.mk entry.1)

variable (r : Reading)

def evict (g : ConsumerGroup) (eviction : Text × EvictionReason) : ConsumerGroup :=
  ((g.remove eviction.1).replaceLeader r.order eviction.1).recordEviction eviction.1
    eviction.2 r.now

/-- `prune_expired_members`.  The state of a group that keeps a member stays. -/
def pruneExpiredMembers (r : Reading) (g : ConsumerGroup) : ConsumerGroup :=
  let g := (g.expired cfg r.now).foldl (evict r) g
  if g.members.keys = [] then { g with state := .empty, leader := none } else g

/-! ### Joining -/

structure JoinRequest where
  memberId : Text
  groupInstanceId : Option Text
  protocols : List Text
  sessionTimeoutMs : Option UInt32
  cooperativeRoundTwo : Bool

structure JoinResult where
  memberId : Text
  generationId : UInt32
  isLeader : Bool
  protocolName : Text
deriving DecidableEq

def joinResult (memberId : Text) : JoinResult where
  memberId := memberId
  generationId := g.generationId
  isLeader := g.leader = some memberId
  protocolName := g.protocolName.getD []

/-- `rejoin_static` gives the slot of an instance to a process that comes back, under a
new member id. -/
def rejoinStatic (g : ConsumerGroup) (instanceId : Text) (sessionTimeout : Nat) :
    Option (ConsumerGroup × JoinResult) :=
  match g.staticMembers.lookup instanceId with
  | none => none
  | some previous =>
    match g.members.lookup previous with
    | none => none
    | some member =>
      let seq := nextSeq g.memberIdSeq
      let memberId := staticMemberId instanceId seq
      let member := { member with
        lastHeartbeat := r.now, lastProgress := r.now, sessionTimeout := sessionTimeout }
      let g' := { g with
        memberIdSeq := seq
        members := (g.members.erase previous).insert memberId member
        staticMembers := g.staticMembers.insert instanceId memberId
        leader := if g.leader = some previous then some memberId else g.leader }
      some (g', { g'.joinResult memberId with isLeader := g.leader = some previous })

def memberIdOf (g : ConsumerGroup) (req : JoinRequest) : Text × UInt64 :=
  match req.groupInstanceId with
  | some instanceId =>
    match g.staticMembers.lookup instanceId with
    | some existing => (existing, g.memberIdSeq)
    | none => (staticMemberId instanceId (nextSeq g.memberIdSeq), nextSeq g.memberIdSeq)
  | none => (if req.memberId = [] then Nat.toDigits 10 r.wallNanos else req.memberId, g.memberIdSeq)

/-- Put the member in, or refresh it, and tell whether the group has to rebalance. -/
def enrol (g : ConsumerGroup) (req : JoinRequest) (memberId : Text)
    (sessionTimeout : Nat) : ConsumerGroup × Bool :=
  match g.members.lookup memberId with
  | none =>
    ({ g with
        members := g.members.insert memberId
          { sessionTimeout := sessionTimeout
            assignedPartitions := ∅
            lastHeartbeat := r.now
            lastProgress := r.now
            groupInstanceId := req.groupInstanceId }
        staticMembers := match req.groupInstanceId with
          | none => g.staticMembers
          | some instanceId => g.staticMembers.insert instanceId memberId },
      true)
  | some member =>
    ({ g with
        members := g.members.insert memberId
          { member with lastHeartbeat := r.now, sessionTimeout := sessionTimeout } },
      req.cooperativeRoundTwo && g.isCooperative && g.state = .stable)

def isWindowOpen (now : Nat) : Bool :=
  match g.rebalanceDeadline with
  | none => false
  | some deadline => now < deadline

/-- A member that comes while a join window is open extends it.  Otherwise it starts a
new generation and opens one. -/
def joinWindow (now : Nat) (g : ConsumerGroup) : ConsumerGroup :=
  if g.isWindowOpen now then
    { g with
      rebalanceDeadline := g.rebalanceDeadline.map fun deadline =>
        min (deadline + cfg.initialRebalanceDelay / 4) (now + cfg.initialRebalanceDelay * 2) }
  else
    { g with
      state := .preparingRebalance
      generationId := nextGeneration g.generationId
      rebalanceDeadline := some (now + cfg.initialRebalanceDelay) }

/-- What `join_group` does for a caller that is given no existing slot. -/
def joinDynamic (r : Reading) (g : ConsumerGroup) (req : JoinRequest)
    (sessionTimeout : Nat) : ConsumerGroup × JoinResult :=
  let ids := g.memberIdOf r req
  let wasEmpty : Bool := g.state = .empty
  let enrolled := ({ g with memberIdSeq := ids.2 } : ConsumerGroup).enrol r req ids.1 sessionTimeout
  let g := if wasEmpty then { enrolled.1 with protocolName := req.protocols.head? } else enrolled.1
  let g := if enrolled.2 || wasEmpty then g.joinWindow cfg r.now else g
  let g := { g with leader := g.leader.or (some ids.1) }
  (g, g.joinResult ids.1)

def joinGroup (r : Reading) (group : Option ConsumerGroup) (req : JoinRequest) :
    ConsumerGroup × JoinResult :=
  let g := (group.getD new).pruneExpiredMembers cfg r
  let sessionTimeout := resolveSessionTimeout req.sessionTimeoutMs
  let slot := if req.cooperativeRoundTwo then none
    else req.groupInstanceId.bind fun instanceId => g.rejoinStatic r instanceId sessionTimeout
  slot.getD (g.joinDynamic cfg r req sessionTimeout)

def closeJoinWindow (g : ConsumerGroup) : ConsumerGroup :=
  match g.rebalanceDeadline with
  | none => g
  | some deadline =>
    if deadline ≤ r.now then
      { g with
        rebalanceDeadline := none
        state := if g.state = .preparingRebalance then .completingRebalance else g.state }
    else g

/-! ### Assignments -/

structure MemberAssignment where
  memberId : Text
  topic : Text
  partitions : List UInt32

/-- Give out partitions of a topic, none of them twice. -/
def claim (topic : Text) : List (Text × UInt32) → List UInt32 → Option (List (Text × UInt32))
  | owners, [] => some owners
  | owners, partition :: partitions =>
    if (topic, partition) ∈ owners then none
    else claim topic ((topic, partition) :: owners) partitions

def checkAssignments (members : Members) : List (Text × UInt32) → List MemberAssignment →
    Except Text Unit
  | _, [] => .ok ()
  | owners, assign :: assignments =>
    if (members.lookup assign.memberId).isNone then .error "Unknown assignment member".toList
    else
      match claim assign.topic owners assign.partitions with
      | none => .error "Duplicate partition ownership".toList
      | some owners => checkAssignments members owners assignments

/-- Take all assignments back and give out the new ones, one topic of a member at a
time. -/
def storeAssignments (members : Members) (assignments : List MemberAssignment) : Members :=
  let cleared := members.keys.foldl
    (fun members id => modify members id fun member => { member with assignedPartitions := ∅ })
      members
  assignments.foldl (fun members assign => modify members assign.memberId fun member =>
      { member with
        assignedPartitions := member.assignedPartitions.insert assign.topic assign.partitions })
    cleared

def generationMismatch (start : Text) (expected got : UInt32) : Text :=
  start ++ Nat.toDigits 10 expected.toNat ++ ", got ".toList ++ Nat.toDigits 10 got.toNat

def assignmentOf (memberId : Text) : Assignment :=
  ((g.members.lookup memberId).map MemberState.assignedPartitions).getD ∅

def syncPruned (generationId : UInt32) (memberId : Text)
    (assignments : List MemberAssignment) : ConsumerGroup × Except Text Assignment :=
  if generationId ≠ g.generationId then
    (g, .error (generationMismatch "Generation mismatch: expected ".toList g.generationId
      generationId))
  else if (g.members.lookup memberId).isNone then (g, .error "Member not found in group".toList)
  else if g.leader = some memberId ∧ (g.state ≠ .stable ∨ assignments ≠ []) then
    match checkAssignments g.members [] assignments with
    | .error message => (g, .error message)
    | .ok () =>
      let g := { g with members := storeAssignments g.members assignments, state := .stable }
      (g, .ok (g.assignmentOf memberId))
  else if g.state ≠ .stable then (g, .error "REBALANCE_IN_PROGRESS".toList)
  else (g, .ok (g.assignmentOf memberId))

/-! ### Staying and leaving -/

/-- What `heartbeat` does after the pruning.  A member of another generation is refreshed
only while a cooperative group is rebalancing. -/
def heartbeatPruned (g : ConsumerGroup) (generationId : UInt32) (memberId : Text) :
    ConsumerGroup × Except Text Unit :=
  let refreshed := { g with members := modify g.members memberId fun member =>
    { member with lastHeartbeat := r.now } }
  if generationId ≠ g.generationId then
    if g.isCooperative ∧ g.state ≠ .stable ∧ (g.members.lookup memberId).isSome then
      (refreshed, .error "REBALANCE_IN_PROGRESS".toList)
    else
      (g, .error (generationMismatch "REBALANCE_IN_PROGRESS: generation mismatch, expected ".toList
        g.generationId generationId))
  else if (g.members.lookup memberId).isSome then (refreshed, .ok ())
  else (g, .error "Group or member not found".toList)

def recordProgress (g : ConsumerGroup) (memberId : Text) : ConsumerGroup :=
  { g with members := modify g.members memberId fun member =>
    { member with lastProgress := r.now } }

def leaving (memberId : Text) (groupInstanceId : Option Text) : Text :=
  (groupInstanceId.bind g.staticMembers.lookup).getD memberId

/-- `leave_group`.  It does not prune and does not change the generation. -/
def leaveGroup (g : ConsumerGroup) (memberId : Text) (groupInstanceId : Option Text) :
    ConsumerGroup :=
  let gone := g.leaving memberId groupInstanceId
  let g := (g.release groupInstanceId).remove gone
  if g.members.keys = [] then { g with state := .empty, leader := none }
  else ({ g with state := .preparingRebalance } : ConsumerGroup).replaceLeader r.order gone

structure Description where
  state : GroupState
  members : List (Text × List (Text × UInt32))

def describe : Description where
  state := g.state
  members := g.members.entries.map fun entry =>
    (entry.1, entry.2.assignedPartitions.entries.flatMap fun topic => topic.2.map (Prod.mk topic.1))

end ConsumerGroup

/-! ## Calls -/

open Coordinator.ConsumerGroup

inductive Call where
  | join (request : JoinRequest)
  | sync (generationId : UInt32) (memberId : Text) (assignments : List MemberAssignment)
  | heartbeat (generationId : UInt32) (memberId : Text)
  | recordProgress (memberId : Text)
  | leave (memberId : Text) (groupInstanceId : Option Text)
  | describe
  | closeJoinWindow

inductive Answer where
  | joined (result : JoinResult)
  | synced (result : Except Text Assignment)
  | heartbeat (result : Except Text Unit)
  | left (result : Except Text Unit)
  | described (result : Option Description)
  | done

/-- One call.  Only a join makes a group, and nothing takes one away. -/
def serve (cfg : Config) (r : Reading) (group : Option ConsumerGroup) :
    Call → Option ConsumerGroup × Answer
  | .join request =>
    let joined := joinGroup cfg r group request
    (some joined.1, .joined joined.2)
  | .sync generationId memberId assignments =>
    match group with
    | none => (none, .synced (.error "Group not found".toList))
    | some g =>
      let synced := (g.pruneExpiredMembers cfg r).syncPruned generationId memberId assignments
      (some synced.1, .synced synced.2)
  | .heartbeat generationId memberId =>
    match group with
    | none => (none, .heartbeat (.error "Group or member not found".toList))
    | some g =>
      let beaten := (g.pruneExpiredMembers cfg r).heartbeatPruned r generationId memberId
      (some beaten.1, .heartbeat beaten.2)
  | .recordProgress memberId => (group.map fun g => g.recordProgress r memberId, .done)
  | .leave memberId groupInstanceId =>
    match group with
    | none => (none, .left (.error "Group not found".toList))
    | some g => (some (g.leaveGroup r memberId groupInstanceId), .left (.ok ()))
  | .describe =>
    match group with
    | none => (none, .described none)
    | some g =>
      let g := g.pruneExpiredMembers cfg r
      (some g, .described (some g.describe))
  | .closeJoinWindow => (group.map fun g => g.closeJoinWindow r, .done)

/-- A call and what it finds outside.  `elapsed` is the time since the call before it. -/
structure Event where
  elapsed : Nat
  wallNanos : Nat
  order : List Text
  call : Call

structure Timed where
  clock : Nat
  group : Option ConsumerGroup

namespace Timed

def start : Timed := { clock := 0, group := none }

def reading (s : Timed) (e : Event) : Reading :=
  { now := s.clock + e.elapsed, wallNanos := e.wallNanos, order := e.order }

def step (cfg : Config) (s : Timed) (e : Event) : Timed :=
  { clock := s.clock + e.elapsed, group := (serve cfg (s.reading e) s.group e.call).1 }

end Timed

end Bifrox.Coordinator
