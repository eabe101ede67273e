import Janus.RaftSteps

/-!
# What every run of the cluster guarantees

State machine safety, leader completeness, log matching, election safety, and that nothing
committed is undone, each read off the invariant. Where two moments of a run are compared, the
later record extends the earlier one.
-/

namespace Janus.Raft

open LeaderHistory Transition List Function

variable {Cmd : Type} {g : Record Cmd} {w : Tally} {c c' : Cluster Cmd}

def idle : Cluster ℕ where
  servers _ :=
    {currentTerm := 0
     votedFor := none
     logs := []
     commitIndex := 0
     lastApplied := 0
     serverState := .follower
     nextIndex := fun _ => 0
     matchIndex := fun _ => 0
     votesReceived := 0
     disconnected := false
     applied := []}
  rpcs := []

theorem idle_init : (system ℕ).init idle := ⟨fun _ => by constructor <;> rfl,rfl⟩

def runFrom (c : Cluster ℕ) (as : List (Action ℕ)) : Cluster ℕ :=
  after (system ℕ) (fun _ _ => True) c as

theorem runFrom_steps (c : Cluster ℕ) (as : List (Action ℕ)) : Steps (system ℕ) c (runFrom c as) :=
  run_after c as

def runOf (as : List (Action ℕ)) : Cluster ℕ := runFrom idle as

theorem runOf_reachable (as : List (Action ℕ)) : Reachable (system ℕ) (runOf as) :=
  ⟨idle,idle_init,runFrom_steps idle as⟩

def election : List (Action ℕ) :=
  [.electionTimeout 0,.deliverRequest 0,.deliverRequest 1,.deliverReply 0,.deliverReply 1]

def replication : List (Action ℕ) :=
  [.start 0 7,.heartbeat 0 1,.heartbeat 0 2,.deliverRequest 4,.deliverRequest 5,.deliverReply 4,
    .deliverReply 5,.heartbeat 0 1,.deliverRequest 6,.applyNext 0,.applyNext 1]

theorem state_machine_safety (hc : Reachable (system Cmd) c) (A B : ServerId) :
    (c.servers A).applied <+: (c.servers B).applied ∨
      (c.servers B).applied <+: (c.servers A).applied := by
  obtain ⟨g,w,hinv⟩ := inv_of_reachable hc
  obtain ⟨all,hA,hB⟩ := (hinv.server A).commit.common hinv.valid (hinv.server B).commit
  have hpre : ∀ v, (c.servers v).logs.take (c.servers v).commitIndex <+: all →
      (c.servers v).applied <+: all.map LogStruct.cmd := by
    intro v hv
    rw [(hinv.server v).applied]
    exact ((List.take_prefix_take_left (hinv.server v).applied_le).trans hv).map _
  exact prefix_or_prefix_of_prefix (hpre A hA) (hpre B hB)

theorem state_machine_safety_replicated :
    ((runOf (election++replication)).servers 0).applied = [7] ∧
      ((runOf (election++replication)).servers 1).applied = [7] ∧
      (((runOf (election++replication)).servers 0).applied <+:
          ((runOf (election++replication)).servers 3).applied ∨
        ((runOf (election++replication)).servers 3).applied <+:
          ((runOf (election++replication)).servers 0).applied) :=
  ⟨by decide,by decide,state_machine_safety (runOf_reachable _) 0 3⟩

def succession : List (Action ℕ) :=
  [.electionTimeout 1,.deliverRequest 8,.deliverRequest 9,.deliverReply 8,.deliverReply 9]

/-- Whatever a server has committed, by itself as leader or not, is held by every leader of a later
term from that moment on. -/
theorem leaders_hold_committed (hc : Reachable (system Cmd) c) (hrun : Steps (system Cmd) c c')
    (L B : ServerId) (hB : (c'.servers B).serverState = .leader)
    (hterm : (c.servers L).currentTerm < (c'.servers B).currentTerm) :
    (c.servers L).commitIndex ≤ (c.servers L).logs.length ∧
      (c.servers L).logs.take (c.servers L).commitIndex <+: (c'.servers B).logs := by
  obtain ⟨g,w,hinv⟩ := inv_of_reachable hc
  obtain ⟨g',w',hinv',hext⟩ := hinv.steps hrun
  have hcommit := (hinv.server L).commit
  have hlead := (hinv'.server B).leader hB
  refine ⟨hcommit.le_length,?_⟩
  rw [hlead.logs]
  apply (hcommit.mono hext hterm.le).le_leadLog hinv'.valid
  rw [hlead.led]
  rfl

theorem leaders_hold_committed_succession :
    ((runOf (election++replication)).servers 0).serverState = .leader ∧
      ((runOf (election++replication)).servers 0).commitIndex = 1 ∧
      ((runOf (election++replication)).servers 0).logs.take
        ((runOf (election++replication)).servers 0).commitIndex <+:
        ((runFrom (runOf (election++replication)) succession).servers 1).logs :=
  ⟨by decide,by decide,(leaders_hold_committed (runOf_reachable _) (runFrom_steps _ _) 0 1
    (by decide) (by decide)).2⟩

/-- What a server has committed is in the logs of a majority, at that moment and from then on. -/
theorem committed_on_majority (hc : Reachable (system Cmd) c) (hrun : Steps (system Cmd) c c')
    (v : ServerId) : ∃ Q : Finset ServerId, Majority Q ∧ ∀ u ∈ Q,
      (c.servers v).logs.take (c.servers v).commitIndex <+: (c'.servers u).logs := by
  obtain ⟨g,w,hinv⟩ := inv_of_reachable hc
  obtain ⟨g',w',hinv',hext⟩ := hinv.steps hrun
  rcases (hinv.server v).commit.mono hext le_rfl with hz | ⟨T,i,-,hcom,hi,hpre⟩
  · exact ⟨Finset.univ,by simp [Majority],by simp [hz]⟩
  have hlead := CommitOK.le_leadLog hinv'.valid (.inr ⟨T,i,le_rfl,hcom,hi,hpre⟩)
    (hinv'.valid.committed_led hcom)
  obtain ⟨-,-,Q,hQ,hack⟩ := id hcom
  refine ⟨Q,hQ,fun u hu => ?_⟩
  -- who acknowledged the entry keeps it, as all later leaders have it
  have hheld := (hinv'.server u).held T i (hack u hu) fun U hU _ =>
    hinv'.valid.leader_completeness hcom U hU
  exact (prefix_take_iff.mpr ⟨hlead,by simp [hi]⟩).trans hheld

theorem committed_on_majority_succession : let c := runOf (election++replication)
    (c.servers 0).commitIndex = 1 ∧ ∃ Q : Finset ServerId, Majority Q ∧ ∀ u ∈ Q,
      (c.servers 0).logs.take (c.servers 0).commitIndex <+: ((runFrom c succession).servers u).logs :=
  ⟨by decide,committed_on_majority (runOf_reachable _) (runFrom_steps _ _) 0⟩

theorem log_matching (hc : Reachable (system Cmd) c) (A B : ServerId) {i t : ℕ} (hi : 1 ≤ i)
    (hA : termAt (c.servers A).logs i = some t) (hB : termAt (c.servers B).logs i = some t) :
    (c.servers A).logs.take i = (c.servers B).logs.take i := by
  obtain ⟨g,w,hinv⟩ := inv_of_reachable hc
  obtain ⟨d,hd,hdt⟩ := termAt_eq_some hA
  obtain ⟨e,he,het⟩ := termAt_eq_some hB
  have hmatch := (hinv.server A).sourced.matching (hinv.server B).sourced hd he (hdt.trans het.symm)
  rwa [Nat.sub_add_cancel hi] at hmatch

theorem log_matching_replicated : ((runOf (election++replication)).servers 0).logs.take 1 =
      ((runOf (election++replication)).servers 2).logs.take 1 :=
  log_matching (runOf_reachable _) 0 2 le_rfl (t:=1) (by decide) (by decide)

/-- Server `v` gives its vote of term `T` to `x`: by its `votedFor` in that term, or by a positive
reply to a request of `x`. -/
def VotesFor (c : Cluster Cmd) (v : ServerId) (T : ℕ) (x : ServerId) : Prop :=
  ((c.servers v).currentTerm = T ∧ (c.servers v).votedFor = some x) ∨
    ∃ r ∈ c.rpcs, ∃ args t, r.dst = v ∧ r.call = .requestVote args ∧ args.candidateTerm = T ∧
      args.candidateId = x ∧ r.status.reply? = some ⟨t,true⟩

theorem Inv.voted (h : Inv c g w) {v x : ServerId} {T : ℕ} (hv : VotesFor c v T x) :
    g.voted v T = some x := by
  rcases hv with ⟨rfl,hv⟩ | ⟨r,hr,args,t,rfl,hcall,rfl,rfl,hst⟩
  · rw [(h.server v).vote,hv]
  · obtain ⟨-,hok⟩ := h.rpc r hr
    rw [hcall] at hok
    rw [(hok.granted t hst).2,hok.candidate]

theorem Inv.handleVoteResponse_other_term (h : Inv c g w) {r : Rpc Cmd} (hr : r ∈ c.rpcs)
    {args : RequestVoteArgs} {reply : Reply} (hcall : r.call = .requestVote args)
    (hst : r.status.reply? = some reply)
    (hne : args.candidateTerm ≠ (c.servers r.src).currentTerm) :
    handleVoteResponse (c.servers r.src) reply.ok reply.currentTerm = c.servers r.src ∨
      handleVoteResponse (c.servers r.src) reply.ok reply.currentTerm =
        convertToFollower (c.servers r.src) reply.currentTerm := by
  obtain ⟨-,hok⟩ := h.rpc r hr
  rw [hcall] at hok
  unfold handleVoteResponse
  split_ifs with hconv hcand hstale hgrant
  · exact Or.inr rfl
  · exact Or.inl rfl
  · exact Or.inl rfl
  · have hterm := (hok.granted reply.currentTerm (by rw [hst,← hgrant])).1
    exact absurd (by omega) hne
  · exact Or.inl rfl

/-- A term has one leader; a reply to an earlier candidacy does nothing or makes a follower; and a
server has one vote in a term. -/
theorem election_safety (hc : Reachable (system Cmd) c) (hrun : Steps (system Cmd) c c') :
    (∀ A B T, (c.servers A).serverState = .leader → (c.servers A).currentTerm = T →
      (c'.servers B).serverState = .leader → (c'.servers B).currentTerm = T → A = B) ∧
    (∀ k r args reply next, c.rpcs[k]? = some r → r.call = .requestVote args →
      r.status = .replied reply → args.candidateTerm ≠ (c.servers r.src).currentTerm →
      c.step (.deliverReply k) = some next →
      next.servers r.src = c.servers r.src ∨
        next.servers r.src = convertToFollower (c.servers r.src) reply.currentTerm) ∧
    (∀ v T x y, VotesFor c v T x → VotesFor c' v T y → x = y) := by
  obtain ⟨g,w,hinv⟩ := inv_of_reachable hc
  obtain ⟨g',w',hinv',hext⟩ := hinv.steps hrun
  refine ⟨?_,?_,?_⟩
  · rintro A B T hA rfl hB hBT
    have hledA := hext.led _ _ ((hinv.server A).leader hA).led
    have hledB := ((hinv'.server B).leader hB).led
    rw [hBT,hledA] at hledB
    exact Option.some.inj hledB
  · intro k r args reply next hk hcall hst hne hstep
    cases Cluster.step_cases hstep with
    | deliverReply _ r' reply' hk' hst' =>
      cases hk.symm.trans hk'
      cases hst.symm.trans hst'
      simp only [update_self,callback,hcall]
      exact hinv.handleVoteResponse_other_term (mem_of_getElem? hk) hcall (by rw [hst]; rfl) hne
  · intro v T x y hx hy
    have hvx := hext.voted _ _ _ (hinv.voted hx)
    rw [hinv'.voted hy] at hvx
    exact (Option.some.inj hvx).symm

theorem election_safety_succession : ((runOf election).servers 0).serverState = .leader ∧
      ∀ B, ((runFrom (runOf election) replication).servers B).serverState = .leader →
        ((runFrom (runOf election) replication).servers B).currentTerm = 1 → 0 = B :=
  ⟨by decide,fun B => (election_safety (runOf_reachable _) (runFrom_steps _ _)).1 0 B 1
    (by decide) (by decide)⟩

structure Progress (s s' : RaftServer Cmd) : Prop where
  currentTerm : s.currentTerm ≤ s'.currentTerm
  commitIndex : s.commitIndex ≤ s'.commitIndex
  lastApplied : s.lastApplied ≤ s'.lastApplied
  committed : s'.logs.take s.commitIndex = s.logs.take s.commitIndex

section Progress

variable {i : ServerId} {s s' s'' : RaftServer Cmd}

theorem Progress.refl (s : RaftServer Cmd) : Progress s s := ⟨le_rfl,le_rfl,le_rfl,rfl⟩

theorem Progress.trans (h : Progress s s') (h' : Progress s' s'') : Progress s s'' := by
  refine ⟨h.currentTerm.trans h'.currentTerm,h.commitIndex.trans h'.commitIndex,
    h.lastApplied.trans h'.lastApplied,?_⟩
  have hmin : min s.commitIndex s'.commitIndex = s.commitIndex := min_eq_left h.commitIndex
  rw [← hmin,← take_take,h'.committed,take_take,hmin,h.committed]

theorem Progress.convertToFollower {T : ℕ} (hT : s.currentTerm < T) :
    Progress s (convertToFollower s T) := ⟨hT.le,le_rfl,le_rfl,rfl⟩

theorem Progress.observeTerm (T : ℕ) : Progress s (observeTerm s T) := by
  unfold Raft.observeTerm
  split_ifs with hT
  · exact convertToFollower hT
  · exact refl s

theorem Progress.handleRequestVote (a : RequestVoteArgs) :
    Progress s (handleRequestVote s a).1 := by
  unfold Raft.handleRequestVote
  simp only
  split_ifs
  · exact observeTerm _
  · obtain ⟨ht,hc,ha,hl⟩ := observeTerm (s:=s) a.candidateTerm
    exact ⟨ht,hc,ha,hl⟩

theorem handleAppendEntries_currentTerm (a : AppendEntriesArgs Cmd) :
    (handleAppendEntries s a).1.currentTerm = max s.currentTerm a.term := by
  unfold handleAppendEntries
  simp only
  split_ifs <;> simp [acceptEntries]

theorem handleAppendEntries_lastApplied (a : AppendEntriesArgs Cmd) :
    (handleAppendEntries s a).1.lastApplied = s.lastApplied := by
  unfold handleAppendEntries Raft.observeTerm
  simp only
  split_ifs <;> rfl

theorem Progress.handleVoteResponse (reply : Reply) :
    Progress s (handleVoteResponse s reply.ok reply.currentTerm) := by
  unfold Raft.handleVoteResponse
  split_ifs with hconv
  · exact convertToFollower hconv
  · exact refl s
  · exact refl s
  · unfold countVote
    simp only
    split_ifs
    · exact ⟨le_rfl,le_rfl,le_rfl,rfl⟩
    · exact ⟨le_rfl,le_rfl,le_rfl,rfl⟩
  · exact refl s

theorem Progress.handleAppendResponse (reply : Reply) (f : ServerId) (n : ℤ) :
    Progress s (handleAppendResponse i s reply.ok reply.currentTerm f n) := by
  unfold Raft.handleAppendResponse
  split_ifs with hconv
  · exact convertToFollower hconv
  · exact refl s
  · exact refl s
  · refine ⟨le_rfl,?_,le_rfl,rfl⟩
    rcases commitScan_cases (i:=i) (s:=recordMatch s f n) s.logs.length with heq | ⟨hlt,-⟩
    · exact heq.ge
    · exact hlt.le
  · exact ⟨le_rfl,le_rfl,le_rfl,rfl⟩

theorem Progress.callback (j : ServerId) (call : Call Cmd) (reply : Reply) :
    Progress s (callback i j s call reply) := by
  cases call with
  | requestVote args => exact handleVoteResponse reply
  | appendEntries args n => exact handleAppendResponse reply j n

/-- The handlers: an `AppendEntries` keeps what is committed because of what leaders send. -/
theorem RpcOK.serve_progress {r : Rpc Cmd} (hr : RpcOK g r) (hdst : r.dst = i)
    (h : ServerOK g w i s) (hg : Valid g) : Progress s (Raft.serve s r.call).1 := by
  subst hdst
  obtain ⟨hne,hr⟩ := hr
  unfold Raft.serve
  split_ifs
  · exact Progress.refl s
  cases hcall : r.call with
  | requestVote args => exact Progress.handleRequestVote args
  | appendEntries args n =>
    rw [hcall] at hr
    obtain ⟨-,-,-,htake,hle⟩ := h.handleAppendEntries hg hne hr
    refine ⟨?_,hle,?_,htake⟩
    · rw [handleAppendEntries_currentTerm]
      exact le_max_left _ _
    · rw [handleAppendEntries_lastApplied]

theorem ServerOK.start_progress (h : ServerOK g w i s) (cmd : Cmd) :
    Progress s (Raft.start s cmd).1 := by
  unfold Raft.start
  split_ifs
  · exact Progress.refl s
  · exact ⟨le_rfl,le_rfl,le_rfl,take_append_of_le_length h.commit.le_length⟩

end Progress

theorem Inv.step_progress (h : Inv c g w) {a : Action Cmd} (hstep : c.step a = some c')
    (v : ServerId) : Progress (c.servers v) (c'.servers v) := by
  have hupdate : ∀ {i : ServerId} {s : RaftServer Cmd}, Progress (c.servers i) s →
      Progress (c.servers v) (update c.servers i s v) := by
    intro i s hs
    by_cases hv : v = i
    · subst hv
      rwa [update_self]
    · rw [update_of_ne hv]
      exact Progress.refl _
  cases Cluster.step_cases hstep with
  | electionTimeout i _ => exact hupdate ⟨Nat.le_succ _,le_rfl,le_rfl,rfl⟩
  | heartbeat i f _ _ => exact Progress.refl _
  | start i cmd => exact hupdate ((h.server i).start_progress cmd)
  | applyNext i _ => exact hupdate ⟨le_rfl,le_rfl,Nat.le_succ _,rfl⟩
  | deliverRequest k r hk _ =>
    exact hupdate ((h.rpc r (mem_of_getElem? hk)).serve_progress rfl (h.server r.dst) h.valid)
  | deliverReply k r reply _ _ => exact hupdate (Progress.callback r.dst r.call reply)
  | disconnect i b _ => exact hupdate ⟨le_rfl,le_rfl,le_rfl,rfl⟩

theorem progress_of_steps (hc : Reachable (system Cmd) c) (hrun : Steps (system Cmd) c c')
    (v : ServerId) : Progress (c.servers v) (c'.servers v) := by
  have hboth := hrun.invariant (P:=fun d => Reachable (system Cmd) d ∧
    Progress (c.servers v) (d.servers v)) ?_ ⟨hc,Progress.refl _⟩
  · exact hboth.2
  · rintro d a d' - ⟨hd,hp⟩ hstep
    obtain ⟨g',w',hinv'⟩ := inv_of_reachable hd
    exact ⟨hd.steps (Steps.single hstep),hp.trans (hinv'.step_progress hstep v)⟩

/-- In every state the three indices are ordered, and along every run no server
loses progress or anything at or below its commit index. -/
theorem committed_never_undone (hc : Reachable (system Cmd) c) (v : ServerId) :
    ((c.servers v).lastApplied ≤ (c.servers v).commitIndex ∧
      (c.servers v).commitIndex ≤ (c.servers v).logs.length) ∧
    ∀ c', Steps (system Cmd) c c' → Progress (c.servers v) (c'.servers v) := by
  obtain ⟨g,w,hinv⟩ := inv_of_reachable hc
  exact ⟨⟨(hinv.server v).applied_le,(hinv.server v).commit.le_length⟩,
    fun c' hrun => progress_of_steps hc hrun v⟩

theorem committed_never_undone_succession :
    ((runOf (election++replication)).servers 0).commitIndex = 1 ∧
      Progress ((runOf (election++replication)).servers 0)
        ((runFrom (runOf (election++replication)) succession).servers 0) :=
  ⟨by decide,(committed_never_undone (runOf_reachable _) 0).2 _ (runFrom_steps _ _)⟩

end Janus.Raft
