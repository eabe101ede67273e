import Janus.LeaderHistory
import Janus.RaftCluster

/-!
# How a cluster state agrees with its history

`ServerOK` relates the fields of one server to a record of the elections and acknowledgements so
far, `RpcOK` one RPC, and `Inv` the cluster. What one server may assume about the others is in the
record, so that a step is checked at the server that takes it and in the record only.
-/

namespace Janus.Raft

open LeaderHistory

variable {Cmd : Type}

abbrev Record (Cmd : Type) := History ServerId (LogStruct Cmd)

abbrev Tally := ServerId → ℕ → Finset ServerId

abbrev Valid (g : Record Cmd) : Prop := g.Valid LogStruct.term
abbrev Sourced (g : Record Cmd) (logs : List (LogStruct Cmd)) : Prop :=
  g.Sourced LogStruct.term logs
abbrev Committed (g : Record Cmd) (T i : ℕ) : Prop := g.Committed LogStruct.term T i

structure CandidateOK (g : Record Cmd) (w : Tally) (v : ServerId) (s : RaftServer Cmd) : Prop where
  pos : 0 < s.currentTerm
  voted : g.voted v s.currentTerm = some v
  not_led : g.led s.currentTerm ≠ some v
  logs : s.logs = g.candLog v s.currentTerm
  votes : (w v s.currentTerm).card = s.votesReceived
  tally : ∀ u ∈ w v s.currentTerm, g.voted u s.currentTerm = some v

structure LeaderOK (g : Record Cmd) (v : ServerId) (s : RaftServer Cmd) : Prop where
  led : g.led s.currentTerm = some v
  logs : s.logs = g.leadLog s.currentTerm
  acked : g.acked v s.currentTerm = s.logs.length
  matched : ∀ f, f ≠ v → s.matchIndex f ≤ g.acked f s.currentTerm

/-- A commit index is covered by a committed entry of a term seen so far, with whose leader the log
agrees up to it. -/
def CommitOK (g : Record Cmd) (currentTerm commitIndex : ℕ) (logs : List (LogStruct Cmd)) : Prop :=
  commitIndex = 0 ∨ ∃ T i, T ≤ currentTerm ∧ Committed g T i ∧ commitIndex ≤ i ∧
    (g.leadLog T).take commitIndex <+: logs

structure ServerOK (g : Record Cmd) (w : Tally) (v : ServerId) (s : RaftServer Cmd) : Prop where
  future_vote : ∀ T, s.currentTerm < T → g.voted v T = none
  future_ack : ∀ T, s.currentTerm < T → g.acked v T = 0
  vote : g.voted v s.currentTerm = s.votedFor
  sourced : Sourced g s.logs
  log_term : ∀ e ∈ s.logs, e.term ≤ s.currentTerm
  held : ∀ T i, i ≤ g.acked v T → g.Kept T i (s.currentTerm+1) → (g.leadLog T).take i <+: s.logs
  candidate : s.serverState = .candidate → CandidateOK g w v s
  leader : s.serverState = .leader → LeaderOK g v s
  commit : CommitOK g s.currentTerm s.commitIndex s.logs
  applied_le : s.lastApplied ≤ s.commitIndex
  applied : s.applied = (s.logs.take s.lastApplied).map LogStruct.cmd

/-- The entries continue the leader's log after `prevLogIndex` and reach as far as `leaderCommit`,
which is covered. -/
structure Carries (g : Record Cmd) (a : AppendEntriesArgs Cmd) (sentUpToIndex : ℤ) : Prop where
  entries : ∃ pre, pre.length = a.prevLogIndex ∧ pre++a.entries <+: g.leadLog a.term ∧
    (0 < a.prevLogIndex → termAt pre a.prevLogIndex = some a.prevLogTerm)
  upTo : sentUpToIndex = (a.prevLogIndex+a.entries.length : ℕ)
  commit_le : a.leaderCommit ≤ a.prevLogIndex+a.entries.length
  commit : a.leaderCommit = 0 ∨ ∃ T i, T ≤ a.term ∧ Committed g T i ∧ a.leaderCommit ≤ i

/-- A request that no log can match: it names an entry of term zero. -/
def Unmatchable (a : AppendEntriesArgs Cmd) : Prop := 0 < a.prevLogIndex ∧ a.prevLogTerm = 0

def RpcStatus.reply? : RpcStatus → Option Reply
  | .sent => none
  | .replied reply => some reply
  | .received reply => some reply

structure VoteRpcOK (g : Record Cmd) (r : Rpc Cmd) (a : RequestVoteArgs) : Prop where
  candidate : a.candidateId = r.src
  voted : g.voted r.src a.candidateTerm = some r.src
  lastIndex : a.lastLogIndex = (g.candLog r.src a.candidateTerm).length
  lastTerm : a.lastLogTerm = Raft.lastTerm (g.candLog r.src a.candidateTerm)
  granted : ∀ t, r.status.reply? = some ⟨t,true⟩ →
    t = a.candidateTerm ∧ g.voted r.dst a.candidateTerm = some r.src

structure AppendRpcOK (g : Record Cmd) (r : Rpc Cmd) (a : AppendEntriesArgs Cmd) (n : ℤ) :
    Prop where
  led : g.led a.term = some r.src
  carries : Carries g a n ∨ Unmatchable a
  success : ∀ t, r.status.reply? = some ⟨t,true⟩ →
    t = a.term ∧ Carries g a n ∧ n ≤ g.acked r.dst a.term
  rejected : r.status.reply? = some ⟨a.term,false⟩ → 0 < a.prevLogIndex

def RpcOK (g : Record Cmd) (r : Rpc Cmd) : Prop :=
  r.src ≠ r.dst ∧ match r.call with
    | .requestVote a => VoteRpcOK g r a
    | .appendEntries a n => AppendRpcOK g r a n

def Rpc.ballot (r : Rpc Cmd) : Option (ServerId × ServerId × ℕ) :=
  match r.call with
  | .requestVote a => some (r.src,r.dst,a.candidateTerm)
  | .appendEntries _ _ => none

def Rpc.isOpen (r : Rpc Cmd) : Prop := ∀ reply, r.status ≠ .received reply

structure BallotsOK (w : Tally) (rpcs : List (Rpc Cmd)) : Prop where
  once : ∀ (j k : ℕ) (r r' : Rpc Cmd) b, rpcs[j]? = some r → rpcs[k]? = some r' →
    r.ballot = some b → r'.ballot = some b → j = k
  uncounted : ∀ (k : ℕ) (r : Rpc Cmd) c v T, rpcs[k]? = some r → r.isOpen →
    r.ballot = some (c,v,T) → v ∉ w c T

structure Inv (c : Cluster Cmd) (g : Record Cmd) (w : Tally) : Prop where
  valid : Valid g
  server : ∀ v, ServerOK g w v (c.servers v)
  rpc : ∀ r ∈ c.rpcs, RpcOK g r
  ballots : BallotsOK w c.rpcs

structure Local (i : ServerId) (g g' : Record Cmd) (w w' : Tally) : Prop where
  ext : g.Extends g'
  voted : ∀ v, v ≠ i → g'.voted v = g.voted v
  acked : ∀ v, v ≠ i → g'.acked v = g.acked v
  led : ∀ v T, v ≠ i → g'.led T = some v → g.led T = some v
  lead : ∀ v T, v ≠ i → g.led T = some v → g'.leadLog T = g.leadLog T
  tally : ∀ v, v ≠ i → w' v = w v

theorem Local.refl (i : ServerId) (g : Record Cmd) (w : Tally) : Local i g g w w where
  ext := History.Extends.refl g
  voted _ _ := rfl
  acked _ _ := rfl
  led _ _ _ h := h
  lead _ _ _ _ := rfl
  tally _ _ := rfl

section Growth

variable {g g' : Record Cmd}

section

variable (hext : g.Extends g')
include hext

theorem CommitOK.mono {t t' n : ℕ} {logs : List (LogStruct Cmd)}
    (ht : t ≤ t') (h : CommitOK g t n logs) : CommitOK g' t' n logs := by
  rcases h with h | ⟨T,i,hT,hc,hi,hpre⟩
  · exact Or.inl h
  · right
    refine ⟨T,i,hT.trans ht,hext.committed _ hc,hi,?_⟩
    rwa [hext.take_lead (hi.trans hc.length_le)]

theorem Carries.mono {a : AppendEntriesArgs Cmd} {n : ℤ}
    (h : Carries g a n) : Carries g' a n := by
  obtain ⟨⟨pre,hlen,hpre,hprev⟩,hn,hle,hcommit⟩ := h
  refine ⟨⟨pre,hlen,hpre.trans (hext.lead _),hprev⟩,hn,hle,?_⟩
  rcases hcommit with h0 | ⟨T,i,hT,hc,hi⟩
  · exact Or.inl h0
  · exact Or.inr ⟨T,i,hT,hext.committed _ hc,hi⟩

theorem RpcOK.mono {r : Rpc Cmd} (h : RpcOK g r) : RpcOK g' r := by
  obtain ⟨hne,h⟩ := h
  refine ⟨hne,?_⟩
  cases hcall : r.call with
  | requestVote a =>
    rw [hcall] at h
    obtain ⟨hc,hv,hi,ht,hgr⟩ := h
    have hlog := hext.cand _ _ hv
    refine ⟨hc,hext.voted _ _ _ hv,by rw [hlog,hi],by rw [hlog,ht],?_⟩
    intro t hr
    obtain ⟨htt,hvd⟩ := hgr t hr
    exact ⟨htt,hext.voted _ _ _ hvd⟩
  | appendEntries a n =>
    rw [hcall] at h
    obtain ⟨hled,hc,hs,hrej⟩ := h
    refine ⟨hext.led _ _ hled,hc.imp (Carries.mono hext) id,?_,hrej⟩
    intro t hr
    obtain ⟨htt,hcar,hack⟩ := hs t hr
    refine ⟨htt,hcar.mono hext,hack.trans ?_⟩
    exact_mod_cast hext.acked r.dst a.term

theorem kept_of_extends (hg : Valid g) {T i T' : ℕ}
    (hi : i ≤ (g.leadLog T).length) (h : g'.Kept T i T') : g.Kept T i T' := by
  intro U hTU hUT hU
  have hk := h U hTU hUT (hext.isSome hU)
  rwa [hext.take_lead hi,hext.electLog _ hg hU] at hk

end

theorem ServerOK.frame {i : ServerId} {w w' : Tally} (hl : Local i g g' w w') (hg : Valid g)
    {v : ServerId} (hv : v ≠ i) {s : RaftServer Cmd} (h : ServerOK g w v s) :
    ServerOK g' w' v s where
  future_vote := by
    rw [hl.voted v hv]
    exact h.future_vote
  future_ack := by
    rw [hl.acked v hv]
    exact h.future_ack
  vote := by
    rw [hl.voted v hv]
    exact h.vote
  sourced := hl.ext.sourced _ h.sourced
  log_term := h.log_term
  held T i hi hk := by
    rw [hl.acked v hv] at hi
    have hlen := hi.trans (hg.acked_le v T)
    rw [hl.ext.take_lead hlen]
    exact h.held T i hi (kept_of_extends hl.ext hg hlen hk)
  candidate hs := by
    obtain ⟨hpos,hvoted,hled,hlogs,hvotes,htally⟩ := h.candidate hs
    refine ⟨hpos,hl.ext.voted _ _ _ hvoted,fun hled' => hled (hl.led v _ hv hled'),?_,?_,?_⟩
    · rw [hlogs]
      exact (hl.ext.cand _ _ hvoted).symm
    · rw [hl.tally v hv]
      exact hvotes
    · rw [hl.tally v hv]
      exact fun u hu => hl.ext.voted _ _ _ (htally u hu)
  leader hs := by
    obtain ⟨hled,hlogs,hacked,hmatch⟩ := h.leader hs
    refine ⟨hl.ext.led _ _ hled,?_,?_,?_⟩
    · rw [hl.lead v _ hv hled]
      exact hlogs
    · rw [hl.acked v hv]
      exact hacked
    · intro f hf
      apply (hmatch f hf).trans
      exact_mod_cast hl.ext.acked f _
  commit := h.commit.mono hl.ext le_rfl
  applied_le := h.applied_le
  applied := h.applied

end Growth

/-- The step of one server keeps the invariant when only its doings are added to the record and its
fields and the RPCs agree with it. -/
theorem Inv.setServer {c : Cluster Cmd} {g g' : Record Cmd} {w w' : Tally} (h : Inv c g w)
    {i : ServerId} {s : RaftServer Cmd} {rpcs : List (Rpc Cmd)} (hl : Local i g g' w w')
    (hg : Valid g') (hs : ServerOK g' w' i s) (hr : ∀ r ∈ rpcs, r ∈ c.rpcs ∨ RpcOK g' r)
    (hb : BallotsOK w' rpcs) : Inv ⟨Function.update c.servers i s,rpcs⟩ g' w' where
  valid := hg
  server v := by
    by_cases hv : v = i
    · subst hv
      simpa only [Function.update_self] using hs
    · simp only [Function.update_of_ne hv]
      exact (h.server v).frame hl h.valid hv
  rpc r hmem := by
    rcases hr r hmem with hold | hnew
    · exact (h.rpc r hold).mono hl.ext
    · exact hnew
  ballots := hb

end Janus.Raft
