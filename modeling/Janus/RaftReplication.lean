import Janus.RaftElection

/-! Log replication at one server: what the handlers, the heartbeat loop, `Start` and the apply
loop do to its agreement with the record. -/
namespace Janus.Raft

open LeaderHistory List History Nat

variable {Cmd : Type} {g : Record Cmd} {w : Tally} {i : ServerId} {s : RaftServer Cmd}
variable {logs logs' : List (LogStruct Cmd)} {a : AppendEntriesArgs Cmd}
variable {t : ℕ} {es pre : List (LogStruct Cmd)} {n : ℤ} {r : Rpc Cmd} {f : ServerId}

theorem termAt_eq_some {n : ℕ} (h : termAt logs n = some t) :
    ∃ e, logs[n-1]? = some e ∧ e.term = t := Option.map_eq_some_iff.mp h

/-- Log Matching between two logs: where both have an entry of the same term, they agree up to
it. -/
def Matching (logs logs' : List (LogStruct Cmd)) : Prop :=
  ∀ k d e, logs[k]? = some d → logs'[k]? = some e → d.term = e.term →
    logs.take (k+1) = logs'.take (k+1)

/-- The log has all the received entries and is kept, or it is replaced by the part of the leader's
log sent so far. Only terms are compared, which log matching makes enough. -/
theorem appendLoop_of_matching (logs : List (LogStruct Cmd)) :
    ∀ (es pre : List (LogStruct Cmd)), Matching logs (pre++es) → logs.take pre.length = pre →
      (pre++es <+: logs ∧ appendLoop logs (pre.length+1) es = logs) ∨
      (¬ pre++es <+: logs ∧ appendLoop logs (pre.length+1) es = pre++es) := by
  intro es
  induction es with
  | nil =>
    intro pre _ hpre
    left
    rw [append_nil]
    refine ⟨?_,rfl⟩
    rw [← hpre]
    exact take_prefix _ _
  | cons e es ih =>
    intro pre hlogs hpre
    have hmid : (pre++e::es)[pre.length]? = some e := by simp
    simp only [appendLoop,Nat.add_sub_cancel]
    split_ifs with hconf
    · right
      rw [hpre]
      refine ⟨?_,rfl⟩
      intro hall
      have hlog := prefix_getElem?_eq hall hmid
      have hlt := (List.getElem?_eq_some_iff.mp hlog).1
      rcases hconf with hshort | hterm
      · omega
      · exact hterm (by simp [termAt,hlog])
    · obtain ⟨hlen,hterm⟩ := not_or.mp hconf
      obtain ⟨d,hd,hde⟩ := termAt_eq_some (not_not.mp hterm)
      rw [Nat.add_sub_cancel] at hd
      have hmatch := hlogs _ _ _ hd hmid hde
      have hstep := ih (pre++[e]) (by simpa using hlogs) (by
        rw [length_append,length_singleton,hmatch]
        simp [take_append])
      simpa using hstep

theorem appendLoop_cases (hlogs : Sourced g logs)
    (es pre : List (LogStruct Cmd)) (hsrc : Sourced g (pre++es)) : logs.take pre.length = pre →
      (pre++es <+: logs ∧ appendLoop logs (pre.length+1) es = logs) ∨
      (¬ pre++es <+: logs ∧ appendLoop logs (pre.length+1) es = pre++es) :=
  appendLoop_of_matching _ es pre fun _ _ _ hd he hde => hlogs.matching hsrc hd he hde

theorem prefix_appendLoop {L x : List (LogStruct Cmd)} (hlogs : Sourced g logs)
    (hsrc : Sourced g (pre++es)) (hpre : logs.take pre.length = pre) (hL : pre++es <+: L)
    (hx : x <+: logs) (hxL : x <+: L) : x <+: appendLoop logs (pre.length+1) es := by
  rcases appendLoop_cases hlogs es pre hsrc hpre with ⟨-,heq⟩ | ⟨hnot,heq⟩
  · rwa [heq]
  · rw [heq]
    rcases le_total x.length (pre++es).length with hle | hge
    · exact prefix_of_prefix_length_le hxL hL hle
    · exact absurd ((prefix_of_prefix_length_le hL hxL hge).trans hx) hnot

theorem sent_prefix_appendLoop (hlogs : Sourced g logs)
    (hsrc : Sourced g (pre++es)) (hpre : logs.take pre.length = pre) :
    pre++es <+: appendLoop logs (pre.length+1) es := by
  rcases appendLoop_cases hlogs es pre hsrc hpre with ⟨hin,heq⟩ | ⟨-,heq⟩
  · rwa [heq]
  · rw [heq]

/-- A request that passes the check of the previous entry carries part of the leader's log, right
after what the receiver has of it. -/
theorem ServerOK.prev_matches (h : ServerOK g w i s) (hg : Valid g)
    (hc : Carries g a n ∨ Unmatchable a)
    (hm : prevLogMatches s.logs a.prevLogIndex a.prevLogTerm = true) :
    Carries g a n ∧ ∃ pre, pre.length = a.prevLogIndex ∧ pre++a.entries <+: g.leadLog a.term ∧
      s.logs.take pre.length = pre := by
  simp only [prevLogMatches,Bool.or_eq_true,beq_iff_eq,Bool.and_eq_true,decide_eq_true_eq] at hm
  rcases hc with hc | ⟨hpos,hzero⟩
  · refine ⟨hc,?_⟩
    obtain ⟨pre,hlen,hpre,hprev⟩ := hc.entries
    refine ⟨pre,hlen,hpre,?_⟩
    rcases hm with h0 | ⟨hle,hterm⟩
    · have hnil : pre = [] := length_eq_zero_iff.mp (hlen.trans h0)
      simp [hnil]
    · rcases Nat.eq_zero_or_pos a.prevLogIndex with h0 | hpos
      · have hnil : pre = [] := length_eq_zero_iff.mp (hlen.trans h0)
        simp [hnil]
      · obtain ⟨d,hd,hdt⟩ := termAt_eq_some hterm
        obtain ⟨e,he,het⟩ := termAt_eq_some (hprev hpos)
        have hsrc : Sourced g pre :=
          (hg.lead_sourced a.term).mono ((prefix_append _ _).trans hpre)
        have hmatch := h.sourced.matching hsrc hd he (hdt.trans het.symm)
        rw [Nat.sub_add_cancel hpos,← hlen,take_length] at hmatch
        exact hmatch
  · rcases hm with h0 | ⟨hle,hterm⟩
    · omega
    · obtain ⟨d,hd,hdt⟩ := termAt_eq_some hterm
      have hdpos := hg.term_pos h.sourced (mem_of_getElem? hd)
      omega

theorem CommitOK.le_length {n : ℕ} (h : CommitOK g t n logs) : n ≤ logs.length := by
  rcases h with rfl | ⟨T,j,hT,hc,hj,hpre⟩
  · exact zero_le _
  · have hle := hpre.length_le
    rwa [length_take,min_eq_left (hj.trans hc.length_le)] at hle

/-- The commit index of a server covers a prefix that a leader of its term has too. -/
theorem CommitOK.le_leadLog (hg : Valid g) {n : ℕ}
    (h : CommitOK g t n logs) (hled : (g.led t).isSome) : logs.take n <+: g.leadLog t := by
  rcases h with rfl | ⟨T,j,hT,hc,hj,hpre⟩
  · simp
  · have hlen : n ≤ ((g.leadLog T).take n).length := by
      rw [length_take]
      exact le_min le_rfl (hj.trans hc.length_le)
    rw [prefix_take_eq hpre hlen,take_take,min_self]
    exact (take_prefix_take_left hj).trans (hg.committed_prefix hc t hT hled)

/-- Two covered prefixes, of any two logs, are prefixes of one log. -/
theorem CommitOK.common (hg : Valid g) {t' n n' : ℕ}
    (h : CommitOK g t n logs) (h' : CommitOK g t' n' logs') :
    ∃ all, logs.take n <+: all ∧ logs'.take n' <+: all := by
  rcases h with rfl | ⟨T,j,hT,hc,hj,hpre⟩
  · exact ⟨logs'.take n',by simp,prefix_refl _⟩
  rcases h' with rfl | ⟨T',j',hT',hc',hj',hpre'⟩
  · exact ⟨logs.take n,prefix_refl _,by simp⟩
  rcases le_total T T' with hTT | hTT
  · have hled := hg.committed_led hc'
    exact ⟨g.leadLog T',le_leadLog hg (Or.inr ⟨T,j,hTT,hc,hj,hpre⟩) hled,
      le_leadLog hg (Or.inr ⟨T',j',le_rfl,hc',hj',hpre'⟩) hled⟩
  · have hled := hg.committed_led hc
    exact ⟨g.leadLog T,le_leadLog hg (Or.inr ⟨T,j,le_rfl,hc,hj,hpre⟩) hled,
      le_leadLog hg (Or.inr ⟨T',j',hTT,hc',hj',hpre'⟩) hled⟩

theorem CommitOK.of_take_eq {n : ℕ} (h : CommitOK g t n logs)
    (he : logs.take n <+: logs') : CommitOK g t n logs' := by
  rcases h with h0 | ⟨T,j,hT,hc,hj,hpre⟩
  · exact Or.inl h0
  · refine Or.inr ⟨T,j,hT,hc,hj,List.IsPrefix.trans ?_ he⟩
    exact List.prefix_take_iff.mpr ⟨hpre,by simp⟩

@[simp] theorem acceptEntries_logs (a : AppendEntriesArgs Cmd) :
    (acceptEntries s a).logs = appendLoop s.logs (a.prevLogIndex+1) a.entries := rfl

/-- What an accepted request does to the log: it holds what was sent, and keeps
whatever it shared with the leader's log. -/
structure Splice (g : Record Cmd) (a : AppendEntriesArgs Cmd) (logs logs' : List (LogStruct Cmd)) :
    Prop where
  sourced : Sourced g logs'
  origin : ∀ e ∈ logs', e ∈ logs ∨ e ∈ g.leadLog a.term
  sent_le : a.prevLogIndex+a.entries.length ≤ (g.leadLog a.term).length
  sent : (g.leadLog a.term).take (a.prevLogIndex+a.entries.length) <+: logs'
  keep : ∀ x, x <+: logs → x <+: g.leadLog a.term → x <+: logs'

theorem ServerOK.splice (h : ServerOK g w i s) (hg : Valid g) (hc : Carries g a n ∨ Unmatchable a)
    (hm : prevLogMatches s.logs a.prevLogIndex a.prevLogTerm = true) :
    Carries g a n ∧ Splice g a s.logs (acceptEntries s a).logs := by
  obtain ⟨hcar,pre,hlen,hpre,htake⟩ := h.prev_matches hg hc hm
  have hsent : (pre++a.entries).length = a.prevLogIndex+a.entries.length := by
    rw [length_append,hlen]
  have hsrc : Sourced g (pre++a.entries) := (hg.lead_sourced a.term).mono hpre
  have hlogs : (Raft.acceptEntries s a).logs = appendLoop s.logs (pre.length+1) a.entries := by
    rw [acceptEntries_logs,hlen]
  rw [hlogs]
  refine ⟨hcar,?_,?_,hsent ▸ hpre.length_le,?_,?_⟩
  · rcases appendLoop_cases h.sourced a.entries pre hsrc htake with ⟨-,he⟩ | ⟨-,he⟩
    · rw [he]
      exact h.sourced
    · rw [he]
      exact hsrc
  · intro e hmem
    rcases appendLoop_cases h.sourced a.entries pre hsrc htake with ⟨-,he⟩ | ⟨-,he⟩
    · exact Or.inl (he ▸ hmem)
    · exact Or.inr (hpre.subset (he ▸ hmem))
  · have he : (g.leadLog a.term).take (a.prevLogIndex+a.entries.length) = pre++a.entries := by
      rw [prefix_take_eq hpre hsent.ge,take_of_length_le hsent.le]
    rw [he]
    exact sent_prefix_appendLoop h.sourced hsrc htake
  · intro x hx hxL
    exact prefix_appendLoop h.sourced hsrc htake hpre hx hxL

/-- The committed part of the log is shared with the leader, so it is kept. -/
theorem Splice.committed
    (hsp : Splice g a logs logs') (hg : Valid g) {n : ℕ} (hcom : CommitOK g a.term n logs)
    (hled : (g.led a.term).isSome) : logs.take n <+: logs' ∧ logs'.take n = logs.take n := by
  have hpre := hsp.keep _ (List.take_prefix _ _) (hcom.le_leadLog hg hled)
  refine ⟨hpre,?_⟩
  rw [prefix_take_eq hpre (by simp [hcom.le_length]),take_take,min_self]

/-- The sender's commit index lies within what was sent, where the logs agree. -/
theorem Splice.leaderCommit (hsp : Splice g a logs logs') (hg : Valid g) (hcar : Carries g a n)
    (hled : (g.led a.term).isSome) :
    a.leaderCommit ≤ logs'.length ∧ CommitOK g a.term a.leaderCommit logs' := by
  have hlen := hsp.sent.length_le
  rw [length_take,min_eq_left hsp.sent_le] at hlen
  refine ⟨hcar.commit_le.trans hlen,?_⟩
  rcases hcar.commit with h0 | ⟨T,j,hT,hcom,hj⟩
  · exact Or.inl h0
  · refine Or.inr ⟨T,j,hT,hcom,hj,?_⟩
    have hin := hg.committed_prefix hcom a.term hT hled
    apply ((List.prefix_take_iff.mpr ⟨(take_prefix_take_left hj).trans hin,_⟩).trans hsp.sent)
    rw [length_take]
    exact (min_le_left _ _).trans hcar.commit_le

/-- Acknowledged entries are held: those of the request, those of its term before, and those of
lower terms that its leader was elected with. -/
theorem Splice.held (hsp : Splice g a s.logs logs') (h : ServerOK g w i s) (hg : Valid g)
    (hcur : s.currentTerm = a.term) (hled : (g.led a.term).isSome) {T k : ℕ}
    (hk : k ≤ (g.acknowledge i a.term (a.prevLogIndex+a.entries.length)).acked i T)
    (hkept : g.Kept T k (s.currentTerm+1)) : (g.leadLog T).take k <+: logs' := by
  by_cases hT : T = a.term
  · subst hT
    simp only [acknowledge,put_same,le_max_iff] at hk
    rcases hk with hold | hsent
    · exact hsp.keep _ (h.held a.term k hold hkept) (List.take_prefix _ _)
    · exact (take_prefix_take_left hsent).trans hsp.sent
  · rw [acknowledge_acked_of_ne (by simp [hT])] at hk
    rcases lt_or_ge s.currentTerm T with hlt | hge
    · rw [h.future_ack T hlt] at hk
      obtain rfl : k = 0 := by omega
      simp
    · have hel : (g.leadLog T).take k <+: g.electLog a.term :=
        hkept a.term (by omega) (by rw [← hcur]; exact lt_succ_self _) hled
      exact hsp.keep _ (h.held T k hk hkept) (hel.trans (hg.electLog_prefix a.term))

theorem acceptEntries_commitIndex (hle : a.leaderCommit ≤ (acceptEntries s a).logs.length) :
    (acceptEntries s a).commitIndex = max s.commitIndex a.leaderCommit := by
  show (if s.commitIndex < a.leaderCommit then min a.leaderCommit _ else s.commitIndex) = _
  split_ifs with hlt
  · rw [max_eq_right hlt.le]
    exact min_eq_left hle
  · rw [max_eq_left (le_of_not_gt hlt)]

theorem ServerOK.acceptEntries (h : ServerOK g w i s) (hg : Valid g)
    {c : ServerId} (hci : c ≠ i) (hcur : s.currentTerm = a.term) (hled : g.led a.term = some c)
    (hc : Carries g a n ∨ Unmatchable a)
    (hm : prevLogMatches s.logs a.prevLogIndex a.prevLogTerm = true) : Carries g a n ∧
      Outcome i g w (acceptEntries s a)
        (g.acknowledge i a.term (a.prevLogIndex+a.entries.length)) w ∧
      (acceptEntries s a).logs.take s.commitIndex = s.logs.take s.commitIndex ∧
      s.commitIndex ≤ (acceptEntries s a).commitIndex := by
  obtain ⟨hcar,hsp⟩ := h.splice hg hc hm
  have hisSome : (g.led a.term).isSome := by simp [hled]
  obtain ⟨hpre,htake⟩ := hsp.committed hg (hcur ▸ h.commit) hisSome
  obtain ⟨hlc,hcover⟩ := hsp.leaderCommit hg hcar hisSome
  have hci' := acceptEntries_commitIndex hlc
  have hmono : s.commitIndex ≤ (Raft.acceptEntries s a).commitIndex := by
    rw [hci']
    exact le_max_left _ _
  have hext := acknowledge_extends (g:=g) (v:=i) (T:=a.term) (n:=a.prevLogIndex+a.entries.length)
  refine ⟨hcar,⟨⟨hext,fun _ _ => rfl,?_,fun _ _ _ hl => hl,fun _ _ _ _ => rfl,fun _ _ => rfl⟩,
    hg.acknowledge hsp.sent_le (by rw [← hcur]; exact h.future_vote),?_⟩,htake,hmono⟩
  · intro v hv
    funext T
    exact acknowledge_acked_of_ne (by simp [hv])
  · refine ⟨h.future_vote,?_,h.vote,hsp.sourced,?_,fun T k hk hkept =>
      hsp.held h hg hcur hisSome hk hkept,?_,?_,?_,h.applied_le.trans hmono,?_⟩
    · intro T hT
      have hT' : s.currentTerm < T := hT
      rw [acknowledge_acked_of_ne (by omega)]
      exact h.future_ack T hT'
    · intro e he
      rcases hsp.origin e he with hold | hnew
      · exact h.log_term e hold
      · exact (hg.lead_term a.term e hnew).trans_eq hcur.symm
    · intro hs
      simp only [Raft.acceptEntries] at hs
      split_ifs at hs with hs'
      exact absurd hs hs'
    · intro hs
      have hlead : s.serverState = .leader := by
        simp only [Raft.acceptEntries] at hs
        split_ifs at hs
        exact hs
      have hself := (h.leader hlead).led
      rw [hcur,hled,Option.some.injEq] at hself
      exact absurd hself hci
    · rw [hci']
      rcases le_total a.leaderCommit s.commitIndex with hle | hle
      · rw [max_eq_left hle]
        exact CommitOK.of_take_eq (h.commit.mono hext le_rfl) hpre
      · rw [max_eq_right hle]
        exact hcover.mono hext hcur.ge
    · show s.applied = ((Raft.acceptEntries s a).logs.take s.lastApplied).map LogStruct.cmd
      rw [h.applied,← min_eq_left h.applied_le,← take_take,← take_take,htake]

/-- `HandleAppendEntries` keeps the agreement; a positive reply acknowledges the
request in its own term; committed entries stay. -/
theorem ServerOK.handleAppendEntries (h : ServerOK g w i s) (hg : Valid g) (hne : r.src ≠ i)
    (hr : AppendRpcOK g r a n) : ∃ g', Outcome i g w (handleAppendEntries s a).1 g' w ∧
      (∀ t, (handleAppendEntries s a).2 = ⟨t,true⟩ →
        t = a.term ∧ Carries g' a n ∧ n ≤ g'.acked i a.term) ∧
      (handleAppendEntries s a).1.logs.take s.commitIndex = s.logs.take s.commitIndex ∧
      s.commitIndex ≤ (handleAppendEntries s a).1.commitIndex := by
  have hobs := h.observeTerm a.term
  have hlogs : (Raft.observeTerm s a.term).logs = s.logs := observeTerm_logs _
  have hcommit : (Raft.observeTerm s a.term).commitIndex = s.commitIndex := by
    unfold Raft.observeTerm
    split_ifs <;> rfl
  unfold Raft.handleAppendEntries
  simp only
  split_ifs with hstale hm
  · exact ⟨g,Outcome.of_ok hg hobs,by simp,by rw [hlogs],hcommit.ge⟩
  · have hcur : (Raft.observeTerm s a.term).currentTerm = a.term := by
      rw [observeTerm_currentTerm] at hstale ⊢
      exact le_antisymm (le_of_not_gt hstale) (le_max_right _ _)
    obtain ⟨hcar,hout,htake,hle⟩ := hobs.acceptEntries hg hne hcur hr.led hr.carries hm
    rw [hcommit,hlogs] at htake
    rw [hcommit] at hle
    refine ⟨_,hout,?_,htake,hle⟩
    intro t ht
    simp only [Reply.mk.injEq,and_true] at ht
    refine ⟨by rw [← ht,hcur],hcar.mono hout.grows.ext,?_⟩
    rw [hcar.upTo]
    simp [acknowledge]
  · exact ⟨g,Outcome.of_ok hg hobs,by simp,by rw [hlogs],hcommit.ge⟩

/-- A request is refused in its own term only for the entry before the new ones. -/
theorem handleAppendEntries_refused (h : (handleAppendEntries s a).2 = ⟨a.term,false⟩) :
    0 < a.prevLogIndex := by
  by_contra hzero
  have hmatch : ∀ logs : List (LogStruct Cmd), prevLogMatches logs a.prevLogIndex a.prevLogTerm := by
    intro logs
    simp [prevLogMatches,Nat.eq_zero_of_not_pos hzero]
  simp only [handleAppendEntries,hmatch,if_true] at h
  split_ifs at h with hstale
  · simp only [Reply.mk.injEq,and_true] at h
    omega
  · simp at h

theorem ServerOK.untracked (h : ServerOK g w i s) (ni : ServerId → ℤ) (b : Bool) :
    ServerOK g w i {s with nextIndex := ni, disconnected := b} := by
  refine {h with candidate := ?_, leader := ?_}
  · intro hs
    exact {h.candidate hs with}
  · intro hs
    exact {h.leader hs with}

/-- A heartbeat carries the rest of the leader's log from `nextIndex` on, or names
an entry that does not exist. -/
theorem heartbeat_cases (s : RaftServer Cmd) (i f : ServerId) :
    (∃ p ≤ s.logs.length, s.nextIndex f = p+1 ∧ (heartbeat i s f).1.prevLogIndex = p ∧
      (heartbeat i s f).1.entries = s.logs.drop p ∧
      (0 < p → termAt (s.logs.take p) p = some (heartbeat i s f).1.prevLogTerm)) ∨
    Unmatchable (heartbeat i s f).1 := by
  by_cases hin : 1 ≤ s.nextIndex f ∧ s.nextIndex f ≤ s.logs.length+1
  · left
    obtain ⟨p,hp⟩ : ∃ p : ℕ, s.nextIndex f = p+1 :=
      ⟨(s.nextIndex f-1).toNat,by omega⟩
    refine ⟨p,by omega,hp,by simp [heartbeat,hp,toUInt64],?_,fun hpos => ?_⟩
    · simp only [heartbeat,hp]
      split_ifs with hlt
      · simp
      · rw [drop_eq_nil_of_le (by omega)]
    · have hlt : p-1 < s.logs.length := by omega
      have hcond : 0 < s.nextIndex f-1 ∧ s.nextIndex f-1 ≤ s.logs.length := by omega
      simp only [heartbeat,hcond,and_self,if_true,termAt]
      have hnat : (s.nextIndex f-1).toNat = p := by omega
      rw [hnat,getElem?_take_of_lt (by omega),getElem?_eq_getElem hlt]
      simp
  · right
    have hout : ¬(0 < s.nextIndex f-1 ∧ s.nextIndex f-1 ≤ s.logs.length) := by omega
    refine ⟨?_,?_⟩
    · show 0 < toUInt64 (s.nextIndex f-1)
      rcases lt_or_ge (s.nextIndex f-1) 0 with hneg | hpos
      · exact toUInt64_pos_of_neg hneg
      · rw [toUInt64_of_nonneg hpos]
        omega
    · show (if _ then _ else 0) = 0
      rw [if_neg hout]

theorem LeaderOK.heartbeatCall (h : LeaderOK g i s)
    (hc : CommitOK g s.currentTerm s.commitIndex s.logs) (hf : f ≠ i) :
    RpcOK g (heartbeatCall i s f) := by
  have hunsent : (Raft.heartbeatCall i s f).status.reply? = none := rfl
  refine ⟨hf.symm,h.led,?_,by simp [hunsent],by simp [hunsent]⟩
  refine (heartbeat_cases s i f).imp (fun ⟨p,hple,hp,hidx,hent,hterm⟩ => ?_) id
  have hsum : p+(s.logs.drop p).length = s.logs.length := by
    rw [length_drop]
    omega
  refine ⟨⟨s.logs.take p,?_,?_,?_⟩,?_,?_,?_⟩
  · rw [hidx,length_take,min_eq_left hple]
  · rw [hent,take_append_drop]
    exact h.logs ▸ prefix_refl _
  · rw [hidx]
    exact hterm
  · rw [hidx,hent]
    show s.nextIndex f-1+((heartbeat i s f).1.entries.length : ℤ) = _
    rw [hent,hp]
    omega
  · rw [hidx,hent,hsum]
    exact hc.le_length
  · rcases hc with h0 | ⟨T,j,hT,hcom,hj,-⟩
    · exact Or.inl h0
    · exact Or.inr ⟨T,j,hT,hcom,hj⟩

theorem commitScan_cases (k : ℕ) : commitScan i s k = s.commitIndex ∨
    (s.commitIndex < commitScan i s k ∧ termAt s.logs (commitScan i s k) = some s.currentTerm ∧
      serverCount/2 < replicaCount i s (commitScan i s k)) := by
  induction k with
  | zero => exact Or.inl rfl
  | succ k ih =>
    simp only [commitScan]
    split_ifs with hle hfound
    · exact Or.inl rfl
    · exact Or.inr ⟨by omega,hfound⟩
    · exact ih

theorem LeaderOK.committed (h : LeaderOK g i s) {j : ℕ} (hpos : 0 < j)
    (hterm : termAt s.logs j = some s.currentTerm)
    (hcount : serverCount/2 < replicaCount i s j) : Committed g s.currentTerm j := by
  obtain ⟨e,he,het⟩ := termAt_eq_some hterm
  have hlt := (List.getElem?_eq_some_iff.mp he).1
  refine ⟨hpos,by rw [← h.logs]; exact hterm,
    insert i (Finset.univ.filter fun f => f ≠ i ∧ (j : ℤ) ≤ s.matchIndex f),?_,?_⟩
  · have hcard : (Finset.univ.filter fun f => f ≠ i ∧ (j : ℤ) ≤ s.matchIndex f).card+1 =
        replicaCount i s j := by
      simp only [replicaCount,add_right_cancel_iff]
      rw [← toFinset_card_of_nodup ((nodup_finRange _).filter _)]
      congr 1
      ext f
      simp
    unfold Majority
    rw [Finset.card_insert_of_notMem (by simp),hcard,Fintype.card_fin]
    omega
  · intro v hv
    rcases Finset.mem_insert.mp hv with rfl | hv
    · rw [h.acked]
      omega
    · obtain ⟨hvi,hvj⟩ := (Finset.mem_filter.mp hv).2
      exact_mod_cast hvj.trans (h.matched v hvi)

section

variable (h : ServerOK g w i s)
include h

/-- A positive reply of the current term moves the match index to what its request carried, and
then the commit index by the scan. -/
theorem ServerOK.recordMatch (hs : s.serverState = .leader)
    (hn : n ≤ g.acked f s.currentTerm) : ServerOK g w i {recordMatch s f n with
      commitIndex := commitScan i (recordMatch s f n) s.logs.length} := by
  obtain ⟨hled,hlogs,hacked,hmatch⟩ := h.leader hs
  have hlead : LeaderOK g i (Raft.recordMatch s f n) := by
    refine ⟨hled,hlogs,hacked,?_⟩
    intro u hu
    by_cases huf : u = f
    · subst huf
      simpa [Raft.recordMatch] using hn
    · simpa [Raft.recordMatch,huf] using hmatch u hu
  have hscan := commitScan_cases (i:=i) (s:=Raft.recordMatch s f n) s.logs.length
  refine {h with candidate := ?_, leader := ?_, commit := ?_, applied_le := ?_}
  · intro hc
    have hc' : s.serverState = .candidate := hc
    simp [hs] at hc'
  · intro _
    exact ⟨hled,hlogs,hacked,hlead.matched⟩
  · rcases hscan with heq | ⟨hgt,hterm,hcount⟩
    · show CommitOK g s.currentTerm (commitScan _ _ _) s.logs
      rw [heq]
      exact h.commit
    · refine Or.inr ⟨s.currentTerm,_,le_rfl,hlead.committed (by omega) hterm hcount,le_rfl,?_⟩
      show (g.leadLog s.currentTerm).take _ <+: s.logs
      rw [hlogs]
      exact take_prefix _ _
  · show s.lastApplied ≤ commitScan _ _ _
    rcases hscan with heq | ⟨hgt,-⟩
    · rw [heq]
      exact h.applied_le
    · exact h.applied_le.trans (le_of_lt hgt)

theorem ServerOK.handleAppendResponse
    (hr : AppendRpcOK g r a n) {reply : Reply} (hreply : r.status.reply? = some reply) :
    ServerOK g w i (handleAppendResponse i s reply.ok reply.currentTerm r.dst n) := by
  unfold Raft.handleAppendResponse
  split_ifs with hconv hlead hstale hok
  · exact h.convertToFollower hconv
  · exact h
  · exact h
  · have hcur : reply.currentTerm = s.currentTerm :=
      le_antisymm (le_of_not_gt hconv) (le_of_not_gt hstale)
    obtain ⟨hterm,-,hack⟩ := hr.success reply.currentTerm (by rw [hreply,← hok])
    apply h.recordMatch (not_not.mp hlead)
    rw [← hcur,hterm]
    exact hack
  · exact h.untracked _ _

theorem ServerOK.start (hg : Valid g) (cmd : Cmd) :
    ∃ g', Outcome i g w (start s cmd).1 g' w := by
  unfold Raft.start
  split_ifs with hs
  · exact ⟨g,Outcome.of_ok hg h⟩
  · obtain ⟨hled,hlogs,hacked,hmatch⟩ := h.leader (not_not.mp hs)
    have hext := append_extends hg (c:=i) (T:=s.currentTerm)
      (e:=(⟨cmd,s.currentTerm⟩ : LogStruct Cmd))
    have hlog : s.logs++[⟨cmd,s.currentTerm⟩] =
        (g.append i s.currentTerm ⟨cmd,s.currentTerm⟩).leadLog s.currentTerm := by
      rw [append_leadLog_self,← hlogs]
    have hvalid := hg.append hled (e:=⟨cmd,s.currentTerm⟩) rfl h.future_vote
    refine ⟨g.append i s.currentTerm ⟨cmd,s.currentTerm⟩,⟨hext,fun _ _ => rfl,?_,
      fun _ _ _ hl => hl,?_,fun _ _ => rfl⟩,hvalid,?_⟩
    · intro v hv
      funext T
      exact append_acked_of_ne (by simp [hv])
    · intro v T hv hl
      apply append_leadLog_of_ne
      rintro rfl
      rw [hled,Option.some.injEq] at hl
      exact hv hl.symm
    · refine ⟨h.future_vote,?_,h.vote,?_,?_,?_,?_,?_,?_,h.applied_le,?_⟩
      · intro T hT
        rw [append_acked_of_ne (by rintro ⟨-,rfl⟩; exact absurd hT (lt_irrefl _))]
        exact h.future_ack T hT
      · show Sourced _ (s.logs++_)
        rw [hlog]
        exact hvalid.lead_sourced s.currentTerm
      · intro e he
        rcases mem_append.mp he with he | he
        · exact h.log_term e he
        · rw [mem_singleton.mp he]
      · intro T k hk hkept
        by_cases hT : T = s.currentTerm
        · subst hT
          show _ <+: s.logs++_
          rw [hlog]
          exact take_prefix _ _
        · rw [append_acked_of_ne (by simp [hT])] at hk
          have hlen := hk.trans (hg.acked_le i T)
          rw [append_leadLog_of_ne hT]
          exact (h.held T k hk (kept_of_extends hext hg hlen hkept)).trans (prefix_append _ _)
      · intro hc
        have hc' : s.serverState = .candidate := hc
        simp [hc'] at hs
      · intro _
        refine ⟨hled,hlog,?_,?_⟩
        · simp [append,hlogs]
        · intro f hf
          apply (hmatch f hf).trans
          exact_mod_cast hext.acked f s.currentTerm
      · apply CommitOK.of_take_eq (h.commit.mono hext le_rfl)
        exact (List.take_prefix _ _).trans (prefix_append _ _)
      · show s.applied = ((s.logs++_).take s.lastApplied).map _
        rw [take_append_of_le_length (h.applied_le.trans h.commit.le_length)]
        exact h.applied

theorem ServerOK.applyNext (hready : applyReady s = true) :
    ServerOK g w i (applyNext s) := by
  simp only [applyReady,Bool.and_eq_true,decide_eq_true_eq] at hready
  refine {h with candidate := ?_, leader := ?_, applied_le := hready.1, applied := ?_}
  · intro hs
    exact {h.candidate hs with}
  · intro hs
    exact {h.leader hs with}
  · show s.applied++_ = (s.logs.take (s.lastApplied+1)).map _
    rw [h.applied,take_add_one,map_append]
    congr 1
    cases s.logs[s.lastApplied]? <;> rfl

end

end Janus.Raft
