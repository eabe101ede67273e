import Janus.RaftReplication

/-! Every step of the cluster keeps the invariant for an extension of the record. `Cluster.Step`
lists what the steps do, and `Inv.step` puts the lemmas about single servers together. -/
namespace Janus.Raft

open LeaderHistory Transition Function List Cluster Option History

variable {Cmd : Type} {g : Record Cmd} {w : Tally} {c c' : Cluster Cmd} {a : Action Cmd}
variable {i : ServerId} {r : Rpc Cmd} {reply : Reply}
variable {s : RaftServer Cmd}

inductive Cluster.Step (c : Cluster Cmd) : Action Cmd → Cluster Cmd → Prop
  | electionTimeout (i : ServerId) (h : (c.servers i).serverState ≠ .leader) :
    Step c (.electionTimeout i) ⟨update c.servers i (startElection i (c.servers i)),
      c.rpcs++send (c.servers i) (voteRequests i (startElection i (c.servers i)))⟩
  | heartbeat (i f : ServerId) (h : (c.servers i).serverState = .leader) (hf : f ≠ i) :
    Step c (.heartbeat i f)
      ⟨c.servers,c.rpcs++send (c.servers i) [heartbeatCall i (c.servers i) f]⟩
  | start (i : ServerId) (cmd : Cmd) :
    Step c (.start i cmd)
      ⟨update c.servers i (Raft.start (c.servers i) cmd).1,c.rpcs⟩
  | applyNext (i : ServerId) (h : applyReady (c.servers i) = true) :
    Step c (.applyNext i) ⟨update c.servers i (Raft.applyNext (c.servers i)),c.rpcs⟩
  | deliverRequest (k : ℕ) (r : Rpc Cmd) (hk : c.rpcs[k]? = some r) (h : r.status = .sent) :
    Step c (.deliverRequest k)
      ⟨update c.servers r.dst (serve (c.servers r.dst) r.call).1,
        c.rpcs.set k {r with status := .replied (serve (c.servers r.dst) r.call).2}⟩
  | deliverReply (k : ℕ) (r : Rpc Cmd) (reply : Reply) (hk : c.rpcs[k]? = some r)
      (h : r.status = .replied reply) :
    Step c (.deliverReply k)
      ⟨update c.servers r.src (callback r.src r.dst (c.servers r.src) r.call reply),
        c.rpcs.set k {r with status := .received reply}⟩
  | disconnect (i : ServerId) (b : Bool) (h : (c.servers i).disconnected ≠ b) :
    Step c (.disconnect i b)
      ⟨update c.servers i {c.servers i with disconnected := b},c.rpcs⟩

theorem Cluster.step_cases (h : c.step a = some c') : c.Step a c' := by
  cases a <;> simp only [step,ite_none_right_eq_some,ite_none_left_eq_some,some.injEq] at h
  case electionTimeout i => exact h.2 ▸ Step.electionTimeout i h.1
  case heartbeat i f => exact h.2 ▸ Step.heartbeat i f h.1.1 h.1.2
  case start i cmd => exact h ▸ Step.start i cmd
  case applyNext i => exact h.2 ▸ Step.applyNext i h.1
  case deliverRequest k =>
    obtain ⟨r,hk,hr⟩ := bind_eq_some_iff.mp h
    cases hst : r.status with
    | sent =>
      simp only [hst] at hr
      cases hr
      exact Step.deliverRequest k r hk hst
    | replied reply | received reply => simp [hst] at hr
  case deliverReply k =>
    obtain ⟨r,hk,hr⟩ := bind_eq_some_iff.mp h
    cases hst : r.status with
    | sent | received reply => simp [hst] at hr
    | replied reply =>
      simp only [hst] at hr
      cases hr
      exact Step.deliverReply k r reply hk hst
  case disconnect i b => exact h.2 ▸ Step.disconnect i b h.1

section Ballots

variable {rpcs : List (Rpc Cmd)} {k : ℕ} {r : Rpc Cmd}
variable {st : RpcStatus} {j : ℕ} {x : Rpc Cmd}

theorem getElem?_setStatus (hk : rpcs[k]? = some r)
    (hx : (rpcs.set k {r with status := st})[j]? = some x) :
    (j = k ∧ x = {r with status := st}) ∨ (j ≠ k ∧ rpcs[j]? = some x) := by
  by_cases hj : j = k
  · subst hj
    have hlt := (List.getElem?_eq_some_iff.mp hk).1
    rw [getElem?_set_self hlt,some.injEq] at hx
    exact Or.inl ⟨rfl,hx.symm⟩
  · rw [getElem?_set_ne (Ne.symm hj)] at hx
    exact Or.inr ⟨hj,hx⟩

theorem ballot_setStatus (hk : rpcs[k]? = some r)
    (hx : (rpcs.set k {r with status := st})[j]? = some x) :
    ∃ y, rpcs[j]? = some y ∧ y.ballot = x.ballot := by
  rcases getElem?_setStatus hk hx with ⟨rfl,rfl⟩ | ⟨-,hx⟩
  · exact ⟨r,hk,rfl⟩
  · exact ⟨x,hx,rfl⟩

section

variable (h : BallotsOK w rpcs)
include h

theorem BallotsOK.once_setStatus (hk : rpcs[k]? = some r) (st : RpcStatus)
    {i : ℕ} {y : Rpc Cmd} {b : ServerId × ServerId × ℕ}
    (hx : (rpcs.set k {r with status := st})[i]? = some x)
    (hy : (rpcs.set k {r with status := st})[j]? = some y) (hbx : x.ballot = some b)
    (hby : y.ballot = some b) : i = j := by
  obtain ⟨x',hx',hxb⟩ := ballot_setStatus hk hx
  obtain ⟨y',hy',hyb⟩ := ballot_setStatus hk hy
  exact h.once i j x' y' b hx' hy' (hxb.trans hbx) (hyb.trans hby)

theorem BallotsOK.setStatus (hk : rpcs[k]? = some r) (hr : r.isOpen)
    (st : RpcStatus) : BallotsOK w (rpcs.set k {r with status := st}) where
  once _ _ _ _ _ hx hy hbx hby := h.once_setStatus hk st hx hy hbx hby
  uncounted j x cand v T hx hopen hb := by
    rcases getElem?_setStatus hk hx with ⟨rfl,rfl⟩ | ⟨-,hx⟩
    · exact h.uncounted _ r cand v T hk hr hb
    · exact h.uncounted j x cand v T hx hopen hb

theorem BallotsOK.count (hk : rpcs[k]? = some r) {cand v : ServerId}
    {T : ℕ} (hb : r.ballot = some (cand,v,T)) (reply : Reply) :
    BallotsOK (History.put w cand T (insert v (w cand T)))
      (rpcs.set k {r with status := .received reply}) where
  once _ _ _ _ _ hx hy hbx hby := h.once_setStatus hk _ hx hy hbx hby
  uncounted j x d u U hx hopen hbx := by
    rcases getElem?_setStatus hk hx with ⟨rfl,rfl⟩ | ⟨hj,hx⟩
    · exact absurd rfl (hopen reply)
    have hold := h.uncounted j x d u U hx hopen hbx
    by_cases hd : d = cand ∧ U = T
    · obtain ⟨rfl,rfl⟩ := hd
      rw [put_same,Finset.mem_insert]
      rintro (rfl | hu)
      · exact hj (h.once j k x r _ hx hk hbx hb)
      · exact hold hu
    · rwa [put_of_ne _ _ hd]

theorem BallotsOK.append_silent (hr : r.ballot = none) :
    BallotsOK w (rpcs++[r]) := by
  have hold : ∀ {j : ℕ} {x : Rpc Cmd} {b}, (rpcs++[r])[j]? = some x → x.ballot = some b →
      rpcs[j]? = some x := by
    intro j x b hx hb
    rw [getElem?_append] at hx
    split_ifs at hx with hj
    · exact hx
    · have hmem := mem_of_getElem? hx
      rw [mem_singleton.mp hmem,hr] at hb
      cases hb
  refine ⟨?_,?_⟩
  · intro i j x y b hx hy hbx hby
    exact h.once i j x y b (hold hx hbx) (hold hy hby) hbx hby
  · intro j x d v T hx hopen hb
    exact h.uncounted j x d v T (hold hx hb) hopen hb

end

end Ballots

theorem voteRequests_getElem? {j : ℕ} (h : (voteRequests i s)[j]? = some r) : ∃ f, f ≠ i ∧
      ((List.finRange serverCount).filter (· ≠ i))[j]? = some f ∧
      r = ⟨i,f,.requestVote (voteRequest i s),.sent⟩ := by
  simp only [voteRequests,getElem?_map,map_eq_some_iff] at h
  obtain ⟨f,hf,rfl⟩ := h
  have hmem := (mem_filter.mp (mem_of_getElem? hf)).2
  exact ⟨f,by simpa using hmem,hf,rfl⟩

theorem BallotsOK.voteRequests {rpcs : List (Rpc Cmd)} (h : BallotsOK w rpcs)
    (hnew : ∀ r ∈ rpcs, ∀ v T, r.ballot = some (i,v,T) → T ≠ s.currentTerm) :
    BallotsOK (History.put w i s.currentTerm {i}) (rpcs++voteRequests i s) := by
  have hcase : ∀ {j : ℕ} {x : Rpc Cmd}, (rpcs++Raft.voteRequests i s)[j]? = some x →
      rpcs[j]? = some x ∨ (rpcs.length ≤ j ∧ ∃ f, f ≠ i ∧
        ((finRange serverCount).filter (· ≠ i))[j-rpcs.length]? = some f ∧
        x.ballot = some (i,f,s.currentTerm)) := by
    intro j x hx
    rw [getElem?_append] at hx
    split_ifs at hx with hj
    · exact Or.inl hx
    · obtain ⟨f,hf,hget,rfl⟩ := voteRequests_getElem? hx
      exact Or.inr ⟨le_of_not_gt hj,f,hf,hget,rfl⟩
  refine ⟨?_,?_⟩
  · intro j k x y b hx hy hbx hby
    rcases hcase hx with hx | ⟨hj,f,-,hf,hxb⟩ <;> rcases hcase hy with hy | ⟨hk,f',-,hf',hyb⟩
    · exact h.once j k x y b hx hy hbx hby
    · rw [hby] at hyb
      rw [hyb] at hbx
      exact absurd rfl (hnew x (mem_of_getElem? hx) _ _ hbx)
    · rw [hbx] at hxb
      rw [hxb] at hby
      exact absurd rfl (hnew y (mem_of_getElem? hy) _ _ hby)
    · rw [hbx] at hxb
      rw [hby,hxb,some.injEq,Prod.mk.injEq,Prod.mk.injEq] at hyb
      obtain ⟨-,rfl,-⟩ := hyb
      have hnodup : ((finRange serverCount).filter (· ≠ i)).Nodup :=
        (nodup_finRange _).filter _
      have hlt := (List.getElem?_eq_some_iff.mp hf).1
      have he := (getElem?_inj hlt hnodup).mp (hf.trans hf'.symm)
      omega
  · intro j x d v T hx hopen hb
    rcases hcase hx with hold | ⟨-,f,hfi,-,hxb⟩
    · have hfree := h.uncounted j x d v T hold hopen hb
      by_cases hd : d = i ∧ T = s.currentTerm
      · obtain ⟨rfl,rfl⟩ := hd
        exact absurd rfl (hnew x (mem_of_getElem? hold) _ _ hb)
      · rwa [put_of_ne _ _ hd]
    · rw [hxb,some.injEq,Prod.mk.injEq,Prod.mk.injEq] at hb
      obtain ⟨rfl,rfl,rfl⟩ := hb
      rw [put_same,Finset.mem_singleton]
      exact hfi

/-- At server `i` for the reply of `u`: the tally stays, or the reply is a yes of the current term
and `u` joins the tally. -/
theorem ServerOK.handleVoteResponse {u : ServerId} (h : ServerOK g w i s) (hg : Valid g)
    (hfree : reply.ok = true → reply.currentTerm = s.currentTerm → u ∉ w i s.currentTerm)
    (hvote : reply.ok = true → g.voted u reply.currentTerm = some i) :
    ∃ g' w', Outcome i g w (handleVoteResponse s reply.ok reply.currentTerm) g' w' ∧
      (w' = w ∨ (reply.ok = true ∧ reply.currentTerm = s.currentTerm ∧
        w' = History.put w i s.currentTerm (insert u (w i s.currentTerm)))) := by
  unfold Raft.handleVoteResponse
  split_ifs with hconv hcand hstale hok
  · exact ⟨g,w,Outcome.of_ok hg (h.convertToFollower hconv),Or.inl rfl⟩
  · exact ⟨g,w,Outcome.of_ok hg h,Or.inl rfl⟩
  · exact ⟨g,w,Outcome.of_ok hg h,Or.inl rfl⟩
  · have hcur : reply.currentTerm = s.currentTerm :=
      le_antisymm (le_of_not_gt hconv) (le_of_not_gt hstale)
    obtain ⟨g',hout⟩ := h.countVote hg (not_not.mp hcand) (hfree hok hcur)
      (by rw [← hcur]; exact hvote hok)
    exact ⟨g',_,hout,Or.inr ⟨hok,hcur,rfl⟩⟩
  · exact ⟨g,w,Outcome.of_ok hg h,Or.inl rfl⟩

theorem RpcOK.serve (hr : RpcOK g r) (hdst : r.dst = i)
    (h : ServerOK g w i s) (hg : Valid g) : ∃ g', Outcome i g w (serve s r.call).1 g' w ∧
      RpcOK g' {r with status := .replied (serve s r.call).2} := by
  subst hdst
  obtain ⟨hne,hr⟩ := hr
  unfold Raft.serve RpcOK
  cases hcall : r.call with
  | requestVote args =>
    rw [hcall] at hr
    split_ifs with hdis
    · refine ⟨g,Outcome.of_ok hg h,hne,hr.candidate,hr.voted,hr.lastIndex,hr.lastTerm,?_⟩
      simp [RpcStatus.reply?]
    · obtain ⟨g',hout,hgrant⟩ := h.handleRequestVote hg hr
      have hlog := hout.grows.ext.cand _ _ hr.voted
      refine ⟨g',hout,hne,hr.candidate,hout.grows.ext.voted _ _ _ hr.voted,
        by rw [hr.lastIndex,hlog],by rw [hr.lastTerm,hlog],?_⟩
      intro t ht
      exact hgrant t (some.inj ht)
  | appendEntries args n =>
    rw [hcall] at hr
    split_ifs with hdis
    · have hpos := hg.led_pos _ _ hr.led
      refine ⟨g,Outcome.of_ok hg h,hne,hr.led,hr.carries,by simp [RpcStatus.reply?],?_⟩
      simp [RpcStatus.reply?,hpos.ne]
    · obtain ⟨g',hout,hsucc,-,-⟩ := h.handleAppendEntries hg hne hr
      refine ⟨g',hout,hne,hout.grows.ext.led _ _ hr.led,
        hr.carries.imp (Carries.mono hout.grows.ext) id,?_,?_⟩
      · intro t ht
        exact hsucc t (some.inj ht)
      · intro ht
        exact handleAppendEntries_refused (some.inj ht)

theorem RpcOK.received (hr : RpcOK g r)
    (hst : r.status = .replied reply) : RpcOK g {r with status := .received reply} := by
  obtain ⟨hne,hr⟩ := hr
  refine ⟨hne,?_⟩
  have hsame : (RpcStatus.received reply).reply? = r.status.reply? := by
    rw [hst]
    rfl
  cases hcall : r.call with
  | requestVote args =>
    rw [hcall] at hr
    refine {hr with granted := ?_}
    rw [hsame]
    exact hr.granted
  | appendEntries args n =>
    rw [hcall] at hr
    refine {hr with success := ?_, rejected := ?_}
    · rw [hsame]
      exact hr.success
    · rw [hsame]
      exact hr.rejected

theorem Inv.callback (h : Inv c g w) {k : ℕ}
    (hk : c.rpcs[k]? = some r) (hst : r.status = .replied reply) :
    ∃ g' w', Outcome r.src g w (callback r.src r.dst (c.servers r.src) r.call reply) g' w' ∧
      BallotsOK w' (c.rpcs.set k {r with status := .received reply}) := by
  have hopen : r.isOpen := by
    intro reply' h'
    rw [hst] at h'
    cases h'
  have hreply : r.status.reply? = some reply := by
    rw [hst]
    rfl
  obtain ⟨-,hr⟩ := h.rpc r (mem_of_getElem? hk)
  unfold Raft.callback
  cases hcall : r.call with
  | requestVote args =>
    rw [hcall] at hr
    have hball : r.ballot = some (r.src,r.dst,args.candidateTerm) := by
      simp only [Rpc.ballot,hcall]
    have hgrant : reply.ok = true → reply.currentTerm = args.candidateTerm ∧
        g.voted r.dst args.candidateTerm = some r.src := by
      intro hok
      exact hr.granted _ (by rw [hreply,← hok])
    have hfree : reply.ok = true → reply.currentTerm = (c.servers r.src).currentTerm →
        r.dst ∉ w r.src (c.servers r.src).currentTerm := by
      intro hok hcur
      rw [← hcur,(hgrant hok).1]
      exact h.ballots.uncounted k r _ _ _ hk hopen hball
    have hvote : reply.ok = true → g.voted r.dst reply.currentTerm = some r.src := by
      intro hok
      rw [(hgrant hok).1]
      exact (hgrant hok).2
    obtain ⟨g',w',hout,hw⟩ := (h.server r.src).handleVoteResponse h.valid hfree hvote
    refine ⟨g',w',hout,?_⟩
    rw [← hcall]
    rcases hw with rfl | ⟨hok,hcur,rfl⟩
    · exact h.ballots.setStatus hk hopen _
    · rw [← hcur,(hgrant hok).1]
      exact h.ballots.count hk hball reply
  | appendEntries args n =>
    rw [hcall] at hr
    refine ⟨g,w,Outcome.of_ok h.valid ((h.server r.src).handleAppendResponse hr hreply),?_⟩
    rw [← hcall]
    exact h.ballots.setStatus hk hopen _

theorem voteRequests_ok (hg : g.voted i s.currentTerm = some i)
    (hlog : g.candLog i s.currentTerm = s.logs) (hr : r ∈ voteRequests i s) : RpcOK g r := by
  obtain ⟨j,hj⟩ := mem_iff_getElem?.mp hr
  obtain ⟨f,hf,-,rfl⟩ := voteRequests_getElem? hj
  refine ⟨hf.symm,rfl,hg,?_,?_,?_⟩
  · simp [voteRequest,hlog]
  · simp [voteRequest,hlog]
  · simp [RpcStatus.reply?]

theorem mem_send {calls : List (Rpc Cmd)} (h : r ∈ send s calls) : r ∈ calls := by
  unfold send at h
  split_ifs at h
  · cases h
  · exact h

theorem Inv.electionTimeout (h : Inv c g w) (i : ServerId) :
    ∃ g' w', Inv ⟨update c.servers i (startElection i (c.servers i)),
      c.rpcs++send (c.servers i) (voteRequests i (startElection i (c.servers i)))⟩ g' w' ∧
      g.Extends g' := by
  have hout := (h.server i).startElection h.valid
  refine ⟨_,_,h.setServer hout.grows hout.valid hout.ok ?_ ?_,hout.grows.ext⟩
  · intro r hr
    rcases mem_append.mp hr with hr | hr
    · exact Or.inl hr
    · right
      refine voteRequests_ok ?_ ?_ (mem_send hr)
      · exact put_same _ _ _ _
      · exact put_same _ _ _ _
  · have hnew : ∀ r ∈ c.rpcs, ∀ v T, r.ballot = some (i,v,T) →
        T ≠ (startElection i (c.servers i)).currentTerm := by
      intro r hr v T hb
      obtain ⟨-,hok⟩ := h.rpc r hr
      cases hcall : r.call with
      | requestVote args =>
        simp only [Rpc.ballot,hcall,some.injEq,Prod.mk.injEq] at hb
        obtain ⟨hsrc,-,hT⟩ := hb
        rw [hcall] at hok
        have hv := hok.voted
        rw [hsrc,hT] at hv
        rintro rfl
        have hnone : g.voted i ((c.servers i).currentTerm+1) = none :=
          (h.server i).future_vote _ (Nat.lt_succ_self _)
        cases hnone.symm.trans hv
      | appendEntries args n => simp [Rpc.ballot,hcall] at hb
    have hball := h.ballots.voteRequests hnew
    unfold send
    split_ifs with hdis
    · rw [append_nil]
      refine ⟨h.ballots.once,?_⟩
      intro k r d v T hk hopen hb
      have hlt := (List.getElem?_eq_some_iff.mp hk).1
      exact hball.uncounted k r d v T (by rw [getElem?_append_left hlt,hk]) hopen hb
    · exact hball

theorem Inv.step (h : Inv c g w) (hstep : c.step a = some c') :
    ∃ g' w', Inv c' g' w' ∧ g.Extends g' := by
  cases step_cases hstep with
  | electionTimeout i _ => exact h.electionTimeout i
  | heartbeat i f hs hf =>
    refine ⟨g,w,⟨h.valid,h.server,?_,?_⟩,History.Extends.refl g⟩
    · intro r hr
      rcases mem_append.mp hr with hr | hr
      · exact h.rpc r hr
      · rw [mem_singleton.mp (mem_send hr)]
        exact ((h.server i).leader hs).heartbeatCall (h.server i).commit hf
    · unfold send
      split_ifs
      · rw [append_nil]
        exact h.ballots
      · exact h.ballots.append_silent rfl
  | start i cmd =>
    obtain ⟨g',hout⟩ := (h.server i).start h.valid cmd
    exact ⟨g',w,h.setServer hout.grows hout.valid hout.ok (fun _ hr => Or.inl hr) h.ballots,
      hout.grows.ext⟩
  | applyNext i hready =>
    exact ⟨g,w,h.setServer (Local.refl i g w) h.valid ((h.server i).applyNext hready)
      (fun _ hr => Or.inl hr) h.ballots,History.Extends.refl g⟩
  | deliverRequest k r hk hst =>
    obtain ⟨g',hout,hrpc⟩ := (h.rpc r (mem_of_getElem? hk)).serve rfl (h.server r.dst) h.valid
    refine ⟨g',w,h.setServer hout.grows hout.valid hout.ok ?_ ?_,hout.grows.ext⟩
    · intro x hx
      rcases mem_or_eq_of_mem_set hx with hx | rfl
      · exact Or.inl hx
      · exact Or.inr hrpc
    · apply h.ballots.setStatus hk
      intro reply hreply
      rw [hst] at hreply
      cases hreply
  | deliverReply k r reply hk hst =>
    obtain ⟨g',w',hout,hball⟩ := h.callback hk hst
    refine ⟨g',w',h.setServer hout.grows hout.valid hout.ok ?_ hball,hout.grows.ext⟩
    intro x hx
    rcases mem_or_eq_of_mem_set hx with hx | rfl
    · exact Or.inl hx
    · exact Or.inr (((h.rpc r (mem_of_getElem? hk)).received hst).mono hout.grows.ext)
  | disconnect i b _ =>
    exact ⟨g,w,h.setServer (Local.refl i g w) h.valid ((h.server i).untracked _ b)
      (fun _ hr => Or.inl hr) h.ballots,History.Extends.refl g⟩

theorem Inv.init (h : (system Cmd).init c) : Inv c History.empty fun _ _ => ∅ where
  valid := History.Valid.empty
  server v := by
    have hf := h.1 v
    refine ⟨fun _ _ => rfl,fun _ _ => rfl,hf.votedFor.symm,?_,?_,?_,?_,?_,Or.inl hf.commitIndex,
      ?_,?_⟩
    · intro k e he
      simp [hf.logs] at he
    · simp [hf.logs]
    · simp [empty]
    · simp [hf.serverState]
    · simp [hf.serverState]
    · rw [hf.lastApplied]
      exact Nat.zero_le _
    · simp [hf.applied,hf.lastApplied]
  rpc r hr := by
    rw [h.2] at hr
    cases hr
  ballots := by
    rw [h.2]
    exact ⟨by simp,by simp⟩

theorem Inv.steps (h : Inv c g w) (hrun : Steps (system Cmd) c c') :
    ∃ g' w', Inv c' g' w' ∧ g.Extends g' := by
  obtain ⟨g',⟨w',hinv⟩,hext⟩ := Run.history (P:=fun c (g : Record Cmd) => ∃ w, Inv c g w)
    History.Extends.refl (fun _ _ _ => History.Extends.trans)
    (fun _ _ _ _ _ hP hst => by
      obtain ⟨w,hi⟩ := hP
      obtain ⟨g',w',hi',hext⟩ := hi.step hst
      exact ⟨g',⟨w',hi'⟩,hext⟩) hrun g ⟨w,h⟩
  exact ⟨g',w',hinv,hext⟩

theorem inv_of_reachable (h : Reachable (system Cmd) c) : ∃ g w, Inv c g w := by
  obtain ⟨c₀,hinit,hrun⟩ := h
  obtain ⟨g,w,hinv,-⟩ := (Inv.init hinit).steps hrun
  exact ⟨g,w,hinv⟩

end Janus.Raft
