import Janus.RaftSafety

/-! The leader's own log and its arrays. `LeaderStep` lists how a step can leave a server as
leader: a leader only appends, `matchIndex` is true of followers, and `nextIndex` can stay in
range. -/
namespace Janus.Raft

open LeaderHistory Transition Function List

variable {Cmd : Type} {g : Record Cmd} {w : Tally} {c c' : Cluster Cmd} {a : Action Cmd}
  {L f : ServerId} {s : RaftServer Cmd}
variable {T k : ℕ} {r : Rpc Cmd} {args : AppendEntriesArgs Cmd} {m : ℤ}

structure Undisturbed (s s' : RaftServer Cmd) : Prop where
  serverState : s.serverState = .leader
  currentTerm : s'.currentTerm = s.currentTerm
  logs : s'.logs = s.logs
  nextIndex : s'.nextIndex = s.nextIndex
  matchIndex : s'.matchIndex = s.matchIndex

inductive LeaderStep (c : Cluster Cmd) (L : ServerId) (s' : RaftServer Cmd) : Action Cmd → Prop
  | elected {a : Action Cmd} (hstate : (c.servers L).serverState = .candidate)
    (hnext : s'.nextIndex = fun _ => (s'.logs.length : ℤ)+1) (hmatch : s'.matchIndex = fun _ => 0) :
    LeaderStep c L s' a
  | same {a : Action Cmd} (h : Undisturbed (c.servers L) s') : LeaderStep c L s' a
  | started (cmd : Cmd) (hstate : (c.servers L).serverState = .leader)
    (hs : s' = {c.servers L with
      logs := (c.servers L).logs++[⟨cmd,(c.servers L).currentTerm⟩]}) :
    LeaderStep c L s' (.start L cmd)
  | matched (k : ℕ) (r : Rpc Cmd) (args : AppendEntriesArgs Cmd) (n : ℤ)
    (hk : c.rpcs[k]? = some r) (hsrc : r.src = L) (hcall : r.call = .appendEntries args n)
    (hst : r.status = .replied ⟨(c.servers L).currentTerm,true⟩)
    (hs : Undisturbed (c.servers L) {s' with
      nextIndex := (c.servers L).nextIndex, matchIndex := (c.servers L).matchIndex})
    (hnext : s'.nextIndex = update (c.servers L).nextIndex r.dst (n+1))
    (hmatch : s'.matchIndex = update (c.servers L).matchIndex r.dst n) :
    LeaderStep c L s' (.deliverReply k)
  | rejected (k : ℕ) (r : Rpc Cmd) (args : AppendEntriesArgs Cmd) (n : ℤ)
    (hk : c.rpcs[k]? = some r) (hsrc : r.src = L) (hcall : r.call = .appendEntries args n)
    (hst : r.status = .replied ⟨(c.servers L).currentTerm,false⟩)
    (hs : Undisturbed (c.servers L) {s' with nextIndex := (c.servers L).nextIndex})
    (hnext : s'.nextIndex = update (c.servers L).nextIndex r.dst
      ((c.servers L).nextIndex r.dst-1)) : LeaderStep c L s' (.deliverReply k)

theorem Undisturbed.refl (h : s.serverState = .leader) : Undisturbed s s := ⟨h,rfl,rfl,rfl,rfl⟩

theorem observeTerm_of_leader (h : (observeTerm s T).serverState = .leader) :
    observeTerm s T = s := by
  unfold observeTerm at h ⊢
  split_ifs at h ⊢
  · cases h
  · rfl

/-- An `AppendEntries` that reaches a leader is of another term: it is refused, or the leader
becomes a follower first. -/
theorem AppendRpcOK.term_ne {n : ℤ}
    (hr : AppendRpcOK g r args n) (hne : r.src ≠ L) (h : LeaderOK g L s) :
    args.term ≠ s.currentTerm := by
  intro hterm
  have hled := hr.led
  rw [hterm,h.led] at hled
  exact hne (Option.some.inj hled).symm

theorem handleAppendEntries_of_lt (h : args.term < s.currentTerm) :
    (handleAppendEntries s args).1 = s := by
  unfold handleAppendEntries observeTerm
  simp [h,not_lt.mpr h.le]

theorem handleAppendEntries_of_gt (h : s.currentTerm < args.term) :
    (handleAppendEntries s args).1.serverState = .follower ∧
      (handleAppendEntries s args).1.currentTerm = args.term := by
  unfold handleAppendEntries observeTerm
  simp only [h,if_true]
  split_ifs <;> simp [acceptEntries,convertToFollower]

/-- The handlers never make a leader, and leave one as it is. -/
theorem RpcOK.serve_leader (hr : RpcOK g r) (hdst : r.dst = L)
    (h : ServerOK g w L s) (hs : (Raft.serve s r.call).1.serverState = .leader) :
    Undisturbed s (Raft.serve s r.call).1 := by
  subst hdst
  obtain ⟨hne,hr⟩ := hr
  unfold Raft.serve at hs ⊢
  split_ifs at hs ⊢ with hdis
  · exact Undisturbed.refl hs
  cases hcall : r.call with
  | requestVote args =>
    rw [hcall] at hs
    have hobs : Raft.observeTerm s args.candidateTerm = s := by
      apply observeTerm_of_leader
      simp only [handleRequestVote] at hs
      split_ifs at hs <;> exact hs
    simp only [handleRequestVote,hobs] at hs ⊢
    split_ifs at hs ⊢ <;> exact ⟨hs,rfl,rfl,rfl,rfl⟩
  | appendEntries args n =>
    rw [hcall] at hs hr
    rcases Nat.lt_trichotomy args.term s.currentTerm with hlt | heq | hgt
    · simp only [handleAppendEntries_of_lt hlt] at hs ⊢
      exact Undisturbed.refl hs
    · have hobs : Raft.observeTerm s args.term = s := by
        simp [Raft.observeTerm,heq]
      have hlead : s.serverState = .leader := by
        simp only [handleAppendEntries,hobs] at hs
        split_ifs at hs
        · exact hs
        · simp only [acceptEntries] at hs
          split_ifs at hs
          exact hs
        · exact hs
      exact absurd heq (hr.term_ne hne (h.leader hlead))
    · rw [(handleAppendEntries_of_gt hgt).1] at hs
      cases hs

theorem handleVoteResponse_leader {reply : Reply}
    (hs : (handleVoteResponse s reply.ok reply.currentTerm).serverState = .leader) :
    (s.serverState = .candidate ∧ handleVoteResponse s reply.ok reply.currentTerm =
        becomeLeader {s with votesReceived := s.votesReceived+1}) ∨
      Undisturbed s (handleVoteResponse s reply.ok reply.currentTerm) := by
  unfold handleVoteResponse at hs ⊢
  split_ifs at hs ⊢ with hconv hcand hstale hok
  · cases hs
  · exact Or.inr (Undisturbed.refl hs)
  · exact Or.inr (Undisturbed.refl hs)
  · have hstate := not_not.mp hcand
    unfold countVote at hs ⊢
    simp only at hs ⊢
    split_ifs at hs ⊢
    · exact Or.inl ⟨hstate,rfl⟩
    · simp [hstate] at hs
  · exact Or.inr (Undisturbed.refl hs)

theorem callback_leader {reply : Reply} (hk : c.rpcs[k]? = some r) (hst : r.status = .replied reply)
    (hs : (callback r.src r.dst (c.servers r.src) r.call reply).serverState = .leader) :
    LeaderStep c r.src (callback r.src r.dst (c.servers r.src) r.call reply) (.deliverReply k) := by
  unfold callback at hs ⊢
  cases hcall : r.call with
  | requestVote args =>
    simp only [hcall] at hs ⊢
    rcases handleVoteResponse_leader hs with ⟨hcand,he⟩ | hsame
    · rw [he]
      exact LeaderStep.elected hcand rfl rfl
    · exact LeaderStep.same hsame
  | appendEntries args n =>
    simp only [hcall] at hs ⊢
    unfold handleAppendResponse at hs ⊢
    split_ifs at hs ⊢ with hconv hlead hstale hok
    · cases hs
    · exact absurd hs hlead
    · exact LeaderStep.same (Undisturbed.refl hs)
    all_goals
      have hcur : reply.currentTerm = (c.servers r.src).currentTerm :=
        le_antisymm (le_of_not_gt hconv) (le_of_not_gt hstale)
      have hstate := not_not.mp hlead
    · refine LeaderStep.matched k r args n hk rfl hcall ?_ ⟨hstate,rfl,rfl,rfl,rfl⟩ rfl rfl
      rw [hst,← hcur,← hok]
    · refine LeaderStep.rejected k r args n hk rfl hcall ?_ ⟨hstate,rfl,rfl,rfl,rfl⟩ rfl
      rw [hst,← hcur]
      simp only [Bool.not_eq_true] at hok
      rw [← hok]

theorem Inv.leader_step (h : Inv c g w) (hstep : c.step a = some c')
    (hL : (c'.servers L).serverState = .leader) : LeaderStep c L (c'.servers L) a := by
  have hother : ∀ {i : ServerId} {s : RaftServer Cmd}, L ≠ i →
      (update c.servers i s L).serverState = .leader →
      LeaderStep c L (update c.servers i s L) a := by
    intro i s hi hs
    rw [update_of_ne hi] at hs ⊢
    exact LeaderStep.same (Undisturbed.refl hs)
  have hquiet : ∀ {i : ServerId} {s : RaftServer Cmd},
      (s.serverState = .leader → Undisturbed (c.servers i) s) →
      (update c.servers i s L).serverState = .leader →
      LeaderStep c L (update c.servers i s L) a := by
    intro i s hsame hs
    by_cases hi : L = i
    · subst hi
      rw [update_self] at hs ⊢
      exact LeaderStep.same (hsame hs)
    · exact hother hi hs
  cases Cluster.step_cases hstep with
  | electionTimeout i _ =>
    apply hquiet _ hL
    intro hs
    cases hs
  | heartbeat i f _ _ => exact LeaderStep.same (Undisturbed.refl hL)
  | start i cmd =>
    by_cases hi : L = i
    · subst hi
      simp only [update_self,start] at hL ⊢
      split_ifs at hL ⊢ with hs
      · exact absurd hL hs
      · exact LeaderStep.started cmd hL rfl
    · exact hother hi hL
  | applyNext i _ | disconnect i b _ =>
    exact hquiet (fun hs => ⟨hs,rfl,rfl,rfl,rfl⟩) hL
  | deliverRequest k r hk _ =>
    exact hquiet ((h.rpc r (mem_of_getElem? hk)).serve_leader rfl (h.server r.dst)) hL
  | deliverReply k r reply hk hst =>
    by_cases hi : L = r.src
    · subst hi
      simp only [update_self] at hL ⊢
      exact callback_leader hk hst hL
    · exact hother hi hL

/-- Server 1 is elected in term 2 without a message to the leader of term 1 and sends it an entry
where it has one of its own. -/
def usurpation : List (Action ℕ) :=
  [.start 0 7,.electionTimeout 1,.deliverRequest 5,.deliverRequest 6,.deliverReply 5,
    .deliverReply 6,.start 1 9,.heartbeat 1 0]

/-- A request of a higher term can overwrite the log of a leader: the handler makes it a follower
and goes on. -/
theorem leader_log_overwritten : Reachable (system ℕ) (runOf (election++usurpation)) ∧
      ((runOf (election++usurpation)).servers 0).serverState = .leader ∧
      ((runOf (election++usurpation)).servers 0).logs = [⟨7,1⟩] ∧
      (((runOf (election++usurpation)).step (.deliverRequest 8)).map
        fun c => (c.servers 0).logs) = some [⟨9,2⟩] :=
  ⟨runOf_reachable _,by decide,by decide,by decide⟩

/-- A server that stays leader of one term extends its log at the end and by `Start` only. An
`AppendEntries` without a higher term does nothing to it, and one with a higher term makes it a
follower, unless it is disconnected. -/
theorem leader_append_only (hc : Reachable (system Cmd) c)
    (hL : (c.servers L).serverState = .leader) :
    (∀ c', Steps (system Cmd) c c' → (c'.servers L).serverState = .leader →
      (c'.servers L).currentTerm = (c.servers L).currentTerm →
      (c.servers L).logs <+: (c'.servers L).logs) ∧
    (∀ a c', c.step a = some c' → (c'.servers L).serverState = .leader →
      (c'.servers L).logs = (c.servers L).logs ∨ ∃ cmd, a = .start L cmd ∧
        (c'.servers L).logs = (c.servers L).logs++[⟨cmd,(c.servers L).currentTerm⟩]) ∧
    (∀ k r args n c', c.rpcs[k]? = some r → r.dst = L → r.call = .appendEntries args n →
      c.step (.deliverRequest k) = some c' →
      c'.servers L = c.servers L ∨ ((c.servers L).currentTerm < args.term ∧
        (c'.servers L).serverState = .follower ∧ (c'.servers L).currentTerm = args.term)) := by
  obtain ⟨g,w,hinv⟩ := inv_of_reachable hc
  have hlead := (hinv.server L).leader hL
  refine ⟨?_,?_,?_⟩
  · intro c' hrun hL' hterm
    obtain ⟨g',w',hinv',hext⟩ := hinv.steps hrun
    have hlead' := (hinv'.server L).leader hL'
    rw [hlead.logs,hlead'.logs,hterm]
    exact hext.lead _
  · intro a c' hstep hL'
    cases hinv.leader_step hstep hL' with
    | elected hcand _ _ => simp [hL] at hcand
    | same h => exact Or.inl h.logs
    | started cmd _ hs => exact Or.inr ⟨cmd,rfl,by rw [hs]⟩
    | matched k r args n _ _ _ _ hs _ _ | rejected k r args n _ _ _ _ hs _ => exact Or.inl hs.logs
  · rintro k r args n c' hk rfl hcall hstep
    obtain ⟨hne,hr⟩ := hinv.rpc r (mem_of_getElem? hk)
    rw [hcall] at hr
    cases Cluster.step_cases hstep with
    | deliverRequest _ r' hk' _ =>
      cases hk.symm.trans hk'
      simp only [update_self,serve,hcall]
      split_ifs
      · exact Or.inl rfl
      rcases Nat.lt_trichotomy args.term (c.servers r.dst).currentTerm with hlt | heq | hgt
      · exact Or.inl (handleAppendEntries_of_lt hlt)
      · exact absurd heq (hr.term_ne hne hlead)
      · exact Or.inr ⟨hgt,handleAppendEntries_of_gt hgt⟩

theorem leader_append_only_replicated : ((runOf election).servers 0).serverState = .leader ∧
      ((runOf election).servers 0).logs <+: ((runFrom (runOf election) replication).servers 0).logs :=
  ⟨by decide,(leader_append_only (runOf_reachable election) (by decide)).1 _ (runFrom_steps _ _)
    (by decide) (by decide)⟩

/-- The `k`-th RPC is an `AppendEntries` that `L` sent to `f` in term `T`, up to index
`m`, and that `f` has answered positively. -/
def Acknowledged (c : Cluster Cmd) (k : ℕ) (L f : ServerId) (T : ℕ) (m : ℤ) : Prop :=
  ∃ r args, c.rpcs[k]? = some r ∧ r.src = L ∧ r.dst = f ∧ r.call = .appendEntries args m ∧
    args.term = T ∧ r.status.reply? = some ⟨T,true⟩

theorem Acknowledged.step (h : Acknowledged c k L f T m)
    (hstep : c.step a = some c') : Acknowledged c' k L f T m := by
  obtain ⟨r,args,hk,hsrc,hdst,hcall,hT,hst⟩ := h
  have happend : ∀ rs, (c.rpcs++rs)[k]? = some r := by
    intro rs
    rw [List.getElem?_append_left (List.getElem?_eq_some_iff.mp hk).1,hk]
  cases Cluster.step_cases hstep with
  | electionTimeout i _ | heartbeat i f _ _ => exact ⟨r,args,happend _,hsrc,hdst,hcall,hT,hst⟩
  | start i cmd | applyNext i _ | disconnect i b _ => exact ⟨r,args,hk,hsrc,hdst,hcall,hT,hst⟩
  | deliverRequest j r' hj hsent =>
    refine ⟨r,args,?_,hsrc,hdst,hcall,hT,hst⟩
    rw [getElem?_set_ne,hk]
    rintro rfl
    cases hk.symm.trans hj
    simp [hsent,RpcStatus.reply?] at hst
  | deliverReply j r' reply hj hrep =>
    by_cases hjk : j = k
    · subst hjk
      cases hk.symm.trans hj
      refine ⟨_,args,List.getElem?_set_self (List.getElem?_eq_some_iff.mp hk).1,hsrc,hdst,hcall,
        hT,?_⟩
      rw [hrep] at hst
      exact hst
    · refine ⟨r,args,?_,hsrc,hdst,hcall,hT,hst⟩
      rw [getElem?_set_ne hjk,hk]

theorem Acknowledged.steps (h : Acknowledged c k L f T m)
    (hrun : Steps (system Cmd) c c') : Acknowledged c' k L f T m :=
  hrun.invariant (P:=fun d => Acknowledged d k L f T m) (fun _ _ _ _ hd hs => hd.step hs) h

theorem Inv.acknowledged (h : Inv c g w) (hack : Acknowledged c k L f T m) :
    0 ≤ m ∧ m ≤ (g.leadLog T).length ∧ ((c.servers f).currentTerm = T →
      (g.leadLog T).take m.toNat <+: (c.servers f).logs) := by
  obtain ⟨r,args,hk,-,rfl,hcall,rfl,hst⟩ := hack
  obtain ⟨-,hr⟩ := h.rpc r (mem_of_getElem? hk)
  rw [hcall] at hr
  obtain ⟨-,hcar,hle⟩ := hr.success _ hst
  have hnonneg : 0 ≤ m := by
    rw [hcar.upTo]
    exact Int.natCast_nonneg _
  have hlen := h.valid.acked_le r.dst args.term
  refine ⟨hnonneg,hle.trans (by exact_mod_cast hlen),?_⟩
  intro hterm
  apply (h.server r.dst).held args.term m.toNat (by omega)
  intro U hTU hUs
  omega

theorem Inv.acknowledged_of_replied (h : Inv c g w) {n : ℤ} (hk : c.rpcs[k]? = some r)
    (hsrc : r.src = L)
    (hcall : r.call = .appendEntries args n) (hst : r.status = .replied ⟨T,true⟩) :
    Acknowledged c k L r.dst T n := by
  obtain ⟨-,hr⟩ := h.rpc r (mem_of_getElem? hk)
  rw [hcall] at hr
  have hrep : r.status.reply? = some ⟨T,true⟩ := by
    rw [hst]
    rfl
  exact ⟨r,args,hk,hsrc,rfl,hcall,(hr.success T hrep).1.symm,hrep⟩

def MatchOK (c : Cluster Cmd) : Prop :=
  ∀ L f, (c.servers L).serverState = .leader → f ≠ L → (c.servers L).matchIndex f = 0 ∨
    ∃ k, Acknowledged c k L f (c.servers L).currentTerm ((c.servers L).matchIndex f)

theorem MatchOK.step (h : MatchOK c) (hinv : Inv c g w) (hstep : c.step a = some c') :
    MatchOK c' := by
  intro L f hL hf
  have hold : ∀ {m : ℤ}, (c.servers L).serverState = .leader → (c.servers L).matchIndex f = m →
      (c'.servers L).currentTerm = (c.servers L).currentTerm →
      m = 0 ∨ ∃ k, Acknowledged c' k L f (c'.servers L).currentTerm m := by
    rintro m hs rfl hterm
    rcases h L f hs hf with h0 | ⟨k,hk⟩
    · exact Or.inl h0
    · exact Or.inr ⟨k,by rw [hterm]; exact hk.step hstep⟩
  cases hinv.leader_step hstep hL with
  | elected _ _ hmatch => exact Or.inl (by rw [hmatch])
  | same hs => exact hold hs.serverState (by rw [hs.matchIndex]) hs.currentTerm
  | started cmd hs he => exact hold hs (by rw [he]) (by rw [he])
  | matched k r args n hk hsrc hcall hst hs _ hmatch =>
    rw [hmatch]
    by_cases hfd : f = r.dst
    · right
      subst hfd
      rw [update_self]
      have hack := (hinv.acknowledged_of_replied hk hsrc hcall hst).step hstep
      exact ⟨k,by rw [show (c'.servers L).currentTerm = _ from hs.currentTerm]; exact hack⟩
    · rw [update_of_ne hfd]
      exact hold hs.serverState rfl hs.currentTerm
  | rejected k r args n _ _ _ _ hs _ =>
    exact hold hs.serverState (by rw [show (c'.servers L).matchIndex = _ from hs.matchIndex])
      hs.currentTerm

theorem matchOK_of_reachable (hc : Reachable (system Cmd) c) : MatchOK c := by
  obtain ⟨c₀,hinit,hrun⟩ := hc
  have hboth := hrun.invariant (P:=fun d => Reachable (system Cmd) d ∧ MatchOK d) ?_ ⟨⟨c₀,hinit,
    Run.refl c₀⟩,?_⟩
  · exact hboth.2
  · rintro d a d' - ⟨hd,hm⟩ hstep
    obtain ⟨g,w,hinv⟩ := inv_of_reachable hd
    exact ⟨hd.steps (Steps.single hstep),hm.step hinv hstep⟩
  · intro L f hL
    simp [(hinit.1 L).serverState] at hL

/-- Agreement of an acknowledged prefix, when the follower is in the leader's term and at any
moment of the run at which the leader leads it. -/
theorem Acknowledged.agrees {d : Cluster Cmd} (hc : Reachable (system Cmd) c)
    (hd : Reachable (system Cmd) d) (hrun : Steps (system Cmd) d c ∨ Steps (system Cmd) c d)
    (hL : (c.servers L).serverState = .leader)
    (hack : Acknowledged d k L f (c.servers L).currentTerm m) (hm : m ≤ (c.servers L).logs.length)
    (hf : (d.servers f).currentTerm = (c.servers L).currentTerm) : m ≤ (d.servers f).logs.length ∧
      (d.servers f).logs.take m.toNat = (c.servers L).logs.take m.toNat := by
  obtain ⟨g,w,g',w',hinv,hinv',hext⟩ : ∃ g w g' w', Inv d g w ∧ Inv c g' w' ∧
      (g.Extends g' ∨ g'.Extends g) := by
    rcases hrun with hdc | hcd
    · obtain ⟨g,w,hinv⟩ := inv_of_reachable hd
      obtain ⟨g',w',hinv',hext⟩ := hinv.steps hdc
      exact ⟨g,w,g',w',hinv,hinv',Or.inl hext⟩
    · obtain ⟨g',w',hinv'⟩ := inv_of_reachable hc
      obtain ⟨g,w,hinv,hext⟩ := hinv'.steps hcd
      exact ⟨g,w,g',w',hinv,hinv',Or.inr hext⟩
  obtain ⟨hnonneg,hlen,hheld⟩ := hinv.acknowledged hack
  have hpre := hheld hf
  have hfull : ((g.leadLog (c.servers L).currentTerm).take m.toNat).length = m.toNat := by
    rw [length_take]
    omega
  have hle := hpre.length_le
  refine ⟨by omega,?_⟩
  have hlead := (hinv'.server L).leader hL
  rw [hlead.logs] at hm ⊢
  rw [prefix_take_eq hpre hfull.ge,take_take,min_self]
  rcases hext with hext | hext
  · exact (hext.take_lead (by omega)).symm
  · exact hext.take_lead (by omega)

theorem Inv.match_le (h : Inv c g w) (hL : (c.servers L).serverState = .leader) (hf : f ≠ L) :
    (c.servers L).matchIndex f ≤ (c.servers L).logs.length := by
  have hlead := (h.server L).leader hL
  have hacked := h.valid.acked_le f (c.servers L).currentTerm
  rw [hlead.logs]
  exact (hlead.matched f hf).trans (by exact_mod_cast hacked)

/-- A leader's `matchIndex` for `f` is zero, or `f` answered an `AppendEntries` of its term up to
that index positively. From that answer on, as long as `f` is in the leader's term, the log of `f`
has that many entries, the same as in the leader's log. -/
theorem match_index_truthful (hc : Reachable (system Cmd) c)
    (hL : (c.servers L).serverState = .leader) (hf : f ≠ L) :
    0 ≤ (c.servers L).matchIndex f ∧
    ((c.servers L).matchIndex f = 0 ∨
      ∃ k, Acknowledged c k L f (c.servers L).currentTerm ((c.servers L).matchIndex f)) ∧
    ∀ k c₁ c₂, Reachable (system Cmd) c₁ →
      Acknowledged c₁ k L f (c.servers L).currentTerm ((c.servers L).matchIndex f) →
      Steps (system Cmd) c₁ c₂ → (Steps (system Cmd) c₂ c ∨ Steps (system Cmd) c c₂) →
      (c₂.servers f).currentTerm = (c.servers L).currentTerm →
      (c.servers L).matchIndex f ≤ (c₂.servers f).logs.length ∧
        (c₂.servers f).logs.take ((c.servers L).matchIndex f).toNat =
          (c.servers L).logs.take ((c.servers L).matchIndex f).toNat := by
  obtain ⟨g,w,hinv⟩ := inv_of_reachable hc
  have hmatch := matchOK_of_reachable hc L f hL hf
  refine ⟨?_,hmatch,?_⟩
  · rcases hmatch with h0 | ⟨k,hack⟩
    · exact h0.ge
    · exact (hinv.acknowledged hack).1
  · intro k c₁ c₂ hc₁ hack hrun horder hterm
    exact (hack.steps hrun).agrees hc (hc₁.steps hrun) horder hL (hinv.match_le hL hf) hterm

theorem match_index_truthful_replicated :
    ((runOf (election++replication)).servers 0).matchIndex 2 = 1 ∧
      ∃ k, Acknowledged (runOf (election++replication)) k 0 2
        ((runOf (election++replication)).servers 0).currentTerm
        (((runOf (election++replication)).servers 0).matchIndex 2) := by
  refine ⟨by decide,?_⟩
  rcases (match_index_truthful (f:=2) (runOf_reachable (election++replication)) (L:=0)
    (by decide) (by decide)).2.1 with h0 | hack
  · exact absurd h0 (by decide)
  · exact hack

/-- A negative reply of the current term to a leader answers a request of that term that named the
entry before `nextIndex`. -/
def answersLatest (c : Cluster Cmd) : Action Cmd → Bool
  | .deliverReply k => match c.rpcs[k]? with
    | some ⟨src,dst,.appendEntries args _,.replied ⟨t,false⟩⟩ =>
      decide ((c.servers src).serverState = .leader → (c.servers src).currentTerm = t →
        args.term = t ∧ (args.prevLogIndex : ℤ) = (c.servers src).nextIndex dst-1)
    | _ => true
  | _ => true

def NextOK (c : Cluster Cmd) : Prop :=
  ∀ L f, (c.servers L).serverState = .leader → f ≠ L → 1 ≤ (c.servers L).nextIndex f ∧
    (c.servers L).nextIndex f ≤ (c.servers L).logs.length+1

theorem NextOK.step (h : NextOK c) (hinv : Inv c g w) (hok : answersLatest c a = true)
    (hstep : c.step a = some c') : NextOK c' := by
  intro L f hL hf
  cases hinv.leader_step hstep hL with
  | elected _ hnext _ =>
    simp only [hnext]
    omega
  | same hs =>
    rw [hs.nextIndex,hs.logs]
    exact h L f hs.serverState hf
  | started cmd hs he =>
    have hold := h L f hs hf
    rw [he]
    simp only [length_append,length_singleton]
    omega
  | matched k r args n hk hsrc hcall hst hs hnext _ =>
    rw [hnext,show (c'.servers L).logs = _ from hs.logs]
    by_cases hfd : f = r.dst
    · subst hfd
      rw [update_self]
      obtain ⟨hnonneg,hle,-⟩ :=
        hinv.acknowledged (hinv.acknowledged_of_replied hk hsrc hcall hst)
      rw [← ((hinv.server L).leader hs.serverState).logs] at hle
      omega
    · rw [update_of_ne hfd]
      exact h L f hs.serverState hf
  | rejected k r args n hk hsrc hcall hst hs hnext =>
    rw [hnext,show (c'.servers L).logs = _ from hs.logs]
    by_cases hfd : f = r.dst
    · subst hfd hsrc
      rw [update_self]
      have hold := h r.src r.dst hs.serverState hf
      have hlatest : args.term = (c.servers r.src).currentTerm ∧
          (args.prevLogIndex : ℤ) = (c.servers r.src).nextIndex r.dst-1 := by
        obtain ⟨src,dst,call,status⟩ := r
        simp only at hcall hst
        subst hcall hst
        simp only [answersLatest,hk,decide_eq_true_eq] at hok
        exact hok hs.serverState trivial
      have hrefused : 0 < args.prevLogIndex := by
        have hr := (hinv.rpc r (mem_of_getElem? hk)).2
        rw [hcall] at hr
        apply hr.rejected
        rw [hst,hlatest.1]
        rfl
      omega
    · rw [update_of_ne hfd]
      exact h L f hs.serverState hf

/-- If every negative reply answers the latest request, both arrays of every leader stay in range,
and the index that a heartbeat sends is exact. -/
theorem bookkeeping_in_range
    (hc : ReachableBy (system Cmd) (fun c a => answersLatest c a = true) c)
    (hL : (c.servers L).serverState = .leader) (hf : f ≠ L) :
    (1 ≤ (c.servers L).nextIndex f ∧ (c.servers L).nextIndex f ≤ (c.servers L).logs.length+1) ∧
    (0 ≤ (c.servers L).matchIndex f ∧ (c.servers L).matchIndex f ≤ (c.servers L).logs.length) ∧
    ((heartbeat L (c.servers L) f).1.prevLogIndex : ℤ) = (c.servers L).nextIndex f-1 := by
  have hreach := hc.reachable
  obtain ⟨c₀,hinit,hrun⟩ := hc
  obtain ⟨g,w,hinv⟩ := inv_of_reachable hreach
  have hboth := hrun.invariant (P:=fun d => Reachable (system Cmd) d ∧ NextOK d) ?_
    ⟨⟨c₀,hinit,Run.refl c₀⟩,?_⟩
  · have hnext := hboth.2 L f hL hf
    refine ⟨hnext,⟨?_,hinv.match_le hL hf⟩,?_⟩
    · rcases matchOK_of_reachable hreach L f hL hf with h0 | ⟨k,hack⟩
      · exact h0.ge
      · exact (hinv.acknowledged hack).1
    · show (toUInt64 ((c.servers L).nextIndex f-1) : ℤ) = _
      rw [toUInt64_of_nonneg (by omega)]
      omega
  · rintro d a d' hok ⟨hd,hn⟩ hstep
    obtain ⟨g',w',hinv'⟩ := inv_of_reachable hd
    exact ⟨hd.steps (Steps.single hstep),hn.step hinv' hok hstep⟩
  · intro L f hL
    simp [(hinit.1 L).serverState] at hL

/-- The leader of term 2 takes the negative reply of server 4, whose log is empty, and sends the
next heartbeat after it. -/
def oneRejection : List (Action ℕ) :=
  [.heartbeat 1 4,.deliverRequest 11,.deliverReply 11,.heartbeat 1 4]

theorem bookkeeping_in_range_rejected :
    let c := after (system ℕ) (fun c a => answersLatest c a = true) idle
      (election++replication++succession++oneRejection)
    (c.servers 1).nextIndex 4 = 1 ∧ 1 ≤ (c.servers 1).nextIndex 4 ∧
      ((heartbeat 1 (c.servers 1) 4).1.prevLogIndex : ℤ) = (c.servers 1).nextIndex 4-1 := by
  intro c
  obtain ⟨hnext,-,hprev⟩ := bookkeeping_in_range (c:=c) (f:=4) ⟨idle,idle_init,run_after idle _⟩
    (L:=1) (by decide) (by decide)
  exact ⟨by decide,hnext.1,hprev⟩

/-- The leader of term 2 sends two heartbeats to server 4, whose log is empty, before
it takes either of the two negative replies. -/
def twoRejections : List (Action ℕ) :=
  [.heartbeat 1 4,.heartbeat 1 4,.deliverRequest 11,.deliverRequest 12,.deliverReply 11,
    .deliverReply 12]

/-- Two outstanding heartbeats take `nextIndex` from two to zero, and the next
heartbeat names an index that no log reaches. -/
theorem nextIndex_below_one :
    Reachable (system ℕ) (runOf (election++replication++succession++twoRejections)) ∧
      ((runOf (election++replication++succession++twoRejections)).servers 1).serverState = .leader ∧
      ((runOf (election++replication++succession++twoRejections)).servers 1).nextIndex 4 = 0 ∧
      (heartbeat 1 ((runOf (election++replication++succession++twoRejections)).servers 1)
        4).1.prevLogIndex = 2^64-1 :=
  ⟨runOf_reachable _,by decide,by decide,by decide⟩

end Janus.Raft
