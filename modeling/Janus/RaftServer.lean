import Mathlib

/-! One Raft server: the fields of `RaftServer` and the functions that change them (`server.cc`),
with the two RPC handlers of `RaftServiceImpl` (`service.cc`). Every function runs to its end
without giving up the reactor thread. Election timers are left to the scheduler. Terms and log
lengths are below `2^31`, where `int` arithmetic is exact; an index that can become negative is an
integer. -/
namespace Janus.Raft

abbrev serverCount : ℕ := 5

abbrev ServerId := Fin serverCount

instance : NeZero serverCount := ⟨by decide⟩

inductive ServerState
  | follower | leader | candidate
  deriving DecidableEq

structure LogStruct (Cmd : Type) where
  cmd : Cmd
  term : ℕ
  deriving DecidableEq

/-- `votedFor` is `none` for the source's `-1`; `applied` is the sequence of commands given to
`app_next_`. -/
structure RaftServer (Cmd : Type) where
  currentTerm : ℕ
  votedFor : Option ServerId
  logs : List (LogStruct Cmd)
  commitIndex : ℕ
  lastApplied : ℕ
  serverState : ServerState
  nextIndex : ServerId → ℤ
  matchIndex : ServerId → ℤ
  votesReceived : ℕ
  disconnected : Bool
  applied : List Cmd

structure RequestVoteArgs where
  candidateTerm : ℕ
  candidateId : ServerId
  lastLogIndex : ℕ
  lastLogTerm : ℕ
  deriving DecidableEq

structure AppendEntriesArgs (Cmd : Type) where
  term : ℕ
  leaderId : ServerId
  prevLogIndex : ℕ
  prevLogTerm : ℕ
  entries : List (LogStruct Cmd)
  leaderCommit : ℕ
  deriving DecidableEq

structure Reply where
  currentTerm : ℕ
  ok : Bool
  deriving DecidableEq

variable {Cmd : Type}

def lastTerm (logs : List (LogStruct Cmd)) : ℕ := (logs.getLast?.map LogStruct.term).getD 0

def termAt (logs : List (LogStruct Cmd)) (i : ℕ) : Option ℕ := (logs[i-1]?).map LogStruct.term

/-- The conversion of an `int` to `uint64_t`: a negative value, which is at least
`-2^31`, becomes `2^64 + x`. -/
def toUInt64 (x : ℤ) : ℕ :=
  if 0 ≤ x then x.toNat else 2^64-1-((-x-1).toNat % 2^31)

theorem toUInt64_of_nonneg {x : ℤ} (hx : 0 ≤ x) : toUInt64 x = x.toNat := by simp [toUInt64,hx]

theorem toUInt64_pos_of_neg {x : ℤ} (hx : x < 0) : 0 < toUInt64 x := by
  rw [toUInt64,if_neg (by omega)]
  omega

variable (s : RaftServer Cmd)

def convertToFollower (newTerm : ℕ) : RaftServer Cmd :=
  {s with
   currentTerm := newTerm
   serverState := .follower
   votedFor := none
   votesReceived := if s.serverState = .candidate then 0 else s.votesReceived}

def startElection (self : ServerId) (s : RaftServer Cmd) : RaftServer Cmd :=
  {s with
   serverState := .candidate
   currentTerm := s.currentTerm+1
   votedFor := some self
   votesReceived := 1}

def voteRequest (self : ServerId) (s : RaftServer Cmd) : RequestVoteArgs where
  candidateTerm := s.currentTerm
  candidateId := self
  lastLogIndex := s.logs.length
  lastLogTerm := lastTerm s.logs

def observeTerm (term : ℕ) : RaftServer Cmd :=
  if s.currentTerm < term then convertToFollower s term else s

/-- `isStaleRequest || alreadyVotedForDifferentServer || areLogsStale`. -/
def denyVote (a : RequestVoteArgs) : Bool :=
  let isStaleRequest := decide (a.candidateTerm < s.currentTerm)
  let alreadyVotedForDifferentServer := s.votedFor.isSome && s.votedFor != some a.candidateId
  let areLogsStale := decide (a.lastLogTerm < lastTerm s.logs) ||
    (a.lastLogTerm == lastTerm s.logs && decide (a.lastLogIndex < s.logs.length))
  isStaleRequest || alreadyVotedForDifferentServer || areLogsStale

def handleRequestVote (a : RequestVoteArgs) : RaftServer Cmd × Reply :=
  let s := observeTerm s a.candidateTerm
  if denyVote s a then (s,⟨s.currentTerm,false⟩)
  else ({s with votedFor := some a.candidateId},⟨s.currentTerm,true⟩)

/-- The check of the entry before the new ones; an index of zero always passes. -/
def prevLogMatches (logs : List (LogStruct Cmd)) (prevLogIndex prevLogTerm : ℕ) : Bool :=
  prevLogIndex == 0 ||
    (decide (prevLogIndex ≤ logs.length) && termAt logs prevLogIndex == some prevLogTerm)

/-- The loop over the received entries. At the first index that the log lacks or has with another
term the log is cut and the rest is pushed. The index is at most `logs.size() + 1`, so `resize`
shortens. -/
def appendLoop (logs : List (LogStruct Cmd)) : ℕ → List (LogStruct Cmd) → List (LogStruct Cmd)
  | _, [] => logs
  | entryLogIndex, e::es =>
    if logs.length < entryLogIndex ∨ termAt logs entryLogIndex ≠ some e.term then
      logs.take (entryLogIndex-1)++e::es
    else appendLoop logs (entryLogIndex+1) es

def acceptEntries (a : AppendEntriesArgs Cmd) : RaftServer Cmd :=
  let logs := appendLoop s.logs (a.prevLogIndex+1) a.entries
  {s with
   serverState := if s.serverState = .candidate then .follower else s.serverState
   logs := logs
   commitIndex := if s.commitIndex < a.leaderCommit then min a.leaderCommit logs.length
     else s.commitIndex}

def handleAppendEntries (a : AppendEntriesArgs Cmd) :
    RaftServer Cmd × Reply :=
  let s := observeTerm s a.term
  if a.term < s.currentTerm then (s,⟨s.currentTerm,false⟩)
  else if prevLogMatches s.logs a.prevLogIndex a.prevLogTerm then
    (acceptEntries s a,⟨s.currentTerm,true⟩)
  else (s,⟨s.currentTerm,false⟩)

def becomeLeader : RaftServer Cmd :=
  {s with
   serverState := .leader
   votesReceived := 0
   nextIndex := fun _ => (s.logs.length : ℤ)+1
   matchIndex := fun _ => 0}

def countVote : RaftServer Cmd :=
  let s := {s with votesReceived := s.votesReceived+1}
  if serverCount/2+1 ≤ s.votesReceived then becomeLeader s else s

def handleVoteResponse (voteGranted : Bool) (returnedTerm : ℕ) :
    RaftServer Cmd :=
  if s.currentTerm < returnedTerm then convertToFollower s returnedTerm
  else if s.serverState ≠ .candidate then s
  else if returnedTerm < s.currentTerm then s
  else if voteGranted then countVote s
  else s

/-- `count` in the commit scan: the leader itself and the followers whose
`matchIndex` has reached the index. -/
def replicaCount (self : ServerId) (s : RaftServer Cmd) (i : ℕ) : ℕ :=
  ((List.finRange serverCount).filter fun j => j ≠ self ∧ (i : ℤ) ≤ s.matchIndex j).length+1

/-- The commit scan from an index downwards, as far as `commitIndex`: the value
that `commitIndex` has after it. -/
def commitScan (self : ServerId) (s : RaftServer Cmd) : ℕ → ℕ
  | 0 => s.commitIndex
  | i+1 =>
    if i+1 ≤ s.commitIndex then s.commitIndex
    else if termAt s.logs (i+1) = some s.currentTerm ∧ serverCount/2 < replicaCount self s (i+1)
      then i+1
    else commitScan self s i

def recordMatch (followerId : ServerId) (sentUpToIndex : ℤ) :
    RaftServer Cmd :=
  {s with
   matchIndex := Function.update s.matchIndex followerId sentUpToIndex
   nextIndex := Function.update s.nextIndex followerId (sentUpToIndex+1)}

def handleAppendResponse (self : ServerId) (s : RaftServer Cmd) (success : Bool)
    (returnedTerm : ℕ) (followerId : ServerId) (sentUpToIndex : ℤ) : RaftServer Cmd :=
  if s.currentTerm < returnedTerm then convertToFollower s returnedTerm
  else if s.serverState ≠ .leader then s
  else if returnedTerm < s.currentTerm then s
  else if success then
    let s := recordMatch s followerId sentUpToIndex
    {s with commitIndex := commitScan self s s.logs.length}
  else {s with nextIndex := Function.update s.nextIndex followerId (s.nextIndex followerId-1)}

/-- One iteration of the heartbeat loop: the request for follower `i` and the
`sentUpToIndex` that its callback captures. -/
def heartbeat (self : ServerId) (s : RaftServer Cmd) (i : ServerId) :
    AppendEntriesArgs Cmd × ℤ :=
  let currNextIndex := s.nextIndex i
  let prevIdx := currNextIndex-1
  let prevTerm := if 0 < prevIdx ∧ prevIdx ≤ s.logs.length then
    (termAt s.logs prevIdx.toNat).getD 0 else 0
  let entries := if 1 ≤ currNextIndex ∧ currNextIndex ≤ s.logs.length then
    s.logs.drop (currNextIndex-1).toNat else []
  ({term := s.currentTerm
    leaderId := self
    prevLogIndex := toUInt64 prevIdx
    prevLogTerm := prevTerm
    entries := entries
    leaderCommit := s.commitIndex},currNextIndex-1+entries.length)

/-- With the index and the term it returns when it succeeds. Its `SendAppendEntries` is commented
out: replication is the heartbeat's. -/
def start (cmd : Cmd) : RaftServer Cmd × Option (ℕ × ℕ) :=
  if s.serverState ≠ .leader then (s,none)
  else
    let logs := s.logs++[⟨cmd,s.currentTerm⟩]
    ({s with logs := logs},some (logs.length,s.currentTerm))

def applyReady : Bool :=
  decide (s.lastApplied < s.commitIndex) && decide (s.lastApplied < s.logs.length)

def applyNext : RaftServer Cmd :=
  {s with
   lastApplied := s.lastApplied+1
   applied := s.applied++(s.logs[s.lastApplied]?.map LogStruct.cmd).toList}

end Janus.Raft
