import Janus.Transition
import Janus.RaftServer

/-! The five servers with every RPC they have made. An RPC is answered and its answer handed to the
callback at most once, which its status records; a message is delayed or lost by not taking the
step that delivers it. -/
namespace Janus.Raft

open Transition

variable {Cmd : Type}

inductive Call (Cmd : Type)
  | requestVote (args : RequestVoteArgs)
  | appendEntries (args : AppendEntriesArgs Cmd) (sentUpToIndex : ℤ)
  deriving DecidableEq

inductive RpcStatus
  | sent
  | replied (reply : Reply)
  | received (reply : Reply)
  deriving DecidableEq

structure Rpc (Cmd : Type) where
  src : ServerId
  dst : ServerId
  call : Call Cmd
  status : RpcStatus
  deriving DecidableEq

structure Cluster (Cmd : Type) where
  servers : ServerId → RaftServer Cmd
  rpcs : List (Rpc Cmd)

/-- `RpcHandler`: a disconnected server answers with a zero term and a refusal. -/
def serve (s : RaftServer Cmd) (call : Call Cmd) : RaftServer Cmd × Reply :=
  if s.disconnected then (s,⟨0,false⟩)
  else match call with
    | .requestVote args => handleRequestVote s args
    | .appendEntries args _ => handleAppendEntries s args

def callback (self dst : ServerId) (s : RaftServer Cmd) (call : Call Cmd) (reply : Reply) :
    RaftServer Cmd :=
  match call with
  | .requestVote _ => handleVoteResponse s reply.ok reply.currentTerm
  | .appendEntries _ sentUpToIndex =>
    handleAppendResponse self s reply.ok reply.currentTerm dst sentUpToIndex

/-- A disconnected server has no proxies, so that its calls go nowhere. -/
def send (s : RaftServer Cmd) (calls : List (Rpc Cmd)) : List (Rpc Cmd) :=
  if s.disconnected then [] else calls

def voteRequests (self : ServerId) (s : RaftServer Cmd) : List (Rpc Cmd) :=
  ((List.finRange serverCount).filter (· ≠ self)).map fun i =>
    ⟨self,i,.requestVote (voteRequest self s),.sent⟩

def heartbeatCall (self : ServerId) (s : RaftServer Cmd) (i : ServerId) : Rpc Cmd :=
  ⟨self,i,.appendEntries (heartbeat self s i).1 (heartbeat self s i).2,.sent⟩

/-- The atomic steps. The iterations of the heartbeat loop, which does not give up the thread, are
separate steps here. -/
inductive Action (Cmd : Type)
  | electionTimeout (i : ServerId)
  | heartbeat (i f : ServerId)
  | start (i : ServerId) (cmd : Cmd)
  | applyNext (i : ServerId)
  | deliverRequest (k : ℕ)
  | deliverReply (k : ℕ)
  | disconnect (i : ServerId) (disconnect : Bool)

namespace Cluster

variable (c : Cluster Cmd)

def setServer (i : ServerId) (s : RaftServer Cmd) : Cluster Cmd :=
  {c with servers := Function.update c.servers i s}

def setStatus (k : ℕ) (r : Rpc Cmd) (status : RpcStatus) : Cluster Cmd :=
  {c with rpcs := c.rpcs.set k {r with status := status}}

def addRpcs (rs : List (Rpc Cmd)) : Cluster Cmd :=
  {c with rpcs := c.rpcs++rs}

def deliverRequest (k : ℕ) (r : Rpc Cmd) : Cluster Cmd :=
  (c.setServer r.dst (serve (c.servers r.dst) r.call).1).setStatus k r
    (.replied (serve (c.servers r.dst) r.call).2)

def deliverReply (k : ℕ) (r : Rpc Cmd) (reply : Reply) : Cluster Cmd :=
  (c.setServer r.src (callback r.src r.dst (c.servers r.src) r.call reply)).setStatus k r
    (.received reply)

def step : Action Cmd → Option (Cluster Cmd)
  | .electionTimeout i =>
    let s := startElection i (c.servers i)
    if (c.servers i).serverState = .leader then none
    else some ((c.setServer i s).addRpcs (send s (voteRequests i s)))
  | .heartbeat i f =>
    if (c.servers i).serverState = .leader ∧ f ≠ i then
      some (c.addRpcs (send (c.servers i) [heartbeatCall i (c.servers i) f]))
    else none
  | .start i cmd => some (c.setServer i (Raft.start (c.servers i) cmd).1)
  | .applyNext i =>
    if applyReady (c.servers i) then some (c.setServer i (Raft.applyNext (c.servers i))) else none
  | .deliverRequest k => c.rpcs[k]?.bind fun r =>
    match r.status with
    | .sent => some (c.deliverRequest k r)
    | _ => none
  | .deliverReply k => c.rpcs[k]?.bind fun r =>
    match r.status with
    | .replied reply => some (c.deliverReply k r reply)
    | _ => none
  | .disconnect i b =>
    if (c.servers i).disconnected = b then none
    else some (c.setServer i {c.servers i with disconnected := b})

end Cluster

/-- A server before its first step. The leader's arrays are not initialised. -/
structure Fresh (s : RaftServer Cmd) : Prop where
  currentTerm : s.currentTerm = 0
  votedFor : s.votedFor = none
  logs : s.logs = []
  commitIndex : s.commitIndex = 0
  lastApplied : s.lastApplied = 0
  serverState : s.serverState = .follower
  votesReceived : s.votesReceived = 0
  disconnected : s.disconnected = false
  applied : s.applied = []

def system (Cmd : Type) : System (Cluster Cmd) (Action Cmd) where
  init c := (∀ i, Fresh (c.servers i)) ∧ c.rpcs = []
  step := Cluster.step

end Janus.Raft
