import Janus.RaftInvariant

/-! Terms, votes and elections at one server: what they do to its agreement with the record. -/
namespace Janus.Raft

open LeaderHistory History Nat

variable {Cmd : Type} {g : Record Cmd} {w : Tally} {i : ServerId} {s : RaftServer Cmd}

structure Outcome (i : ServerId) (g : Record Cmd) (w : Tally) (s' : RaftServer Cmd)
    (g' : Record Cmd) (w' : Tally) : Prop where
  grows : Local i g g' w w'
  valid : Valid g'
  ok : ServerOK g' w' i s'

theorem Outcome.of_ok (hg : Valid g) {s' : RaftServer Cmd} (h : ServerOK g w i s') :
    Outcome i g w s' g w := ⟨Local.refl i g w,hg,h⟩

theorem Kept.mono {T n U V : ℕ} (hUV : U ≤ V) (h : g.Kept T n V) : g.Kept T n U :=
  fun W hTW hWU hW => h W hTW (by omega) hW

@[simp] theorem convertToFollower_currentTerm (T : ℕ) :
    (convertToFollower s T).currentTerm = T := rfl

theorem ServerOK.convertToFollower (h : ServerOK g w i s) {T : ℕ} (hT : s.currentTerm < T) :
    ServerOK g w i (convertToFollower s T) where
  future_vote U hU := h.future_vote U (hT.trans hU)
  future_ack U hU := h.future_ack U (hT.trans hU)
  vote := h.future_vote T hT
  sourced := h.sourced
  log_term e he := (h.log_term e he).trans hT.le
  held U n hn hk := h.held U n hn (Kept.mono (succ_le_succ hT.le) hk)
  candidate hs := by cases hs
  leader hs := by cases hs
  commit := h.commit.mono (History.Extends.refl g) hT.le
  applied_le := h.applied_le
  applied := h.applied

theorem ServerOK.observeTerm (h : ServerOK g w i s) (T : ℕ) : ServerOK g w i (observeTerm s T) := by
  unfold Raft.observeTerm
  split_ifs with hT
  · exact h.convertToFollower hT
  · exact h

@[simp] theorem observeTerm_currentTerm (T : ℕ) :
    (observeTerm s T).currentTerm = max s.currentTerm T := by
  unfold observeTerm
  split_ifs with hT
  · simp [hT.le]
  · simp [le_of_not_gt hT]

@[simp] theorem observeTerm_logs (T : ℕ) : (observeTerm s T).logs = s.logs := by
  unfold observeTerm
  split_ifs <;> rfl

theorem ServerOK.vouches (h : ServerOK g w i s) (hg : Valid g) {T' : ℕ}
    (hle : s.currentTerm ≤ T') (hled : g.led T' = none) {log : List (LogStruct Cmd)}
    (hlog : Sourced g log) (hterm : ∀ e ∈ log, e.term < T')
    (hnew : lastTerm s.logs < lastTerm log ∨
      (lastTerm s.logs = lastTerm log ∧ s.logs.length ≤ log.length)) :
    g.Vouches LogStruct.term i T' log := by
  intro T n hT hn hacked hown hkept
  apply hg.held_of_up_to_date hn hown hkept _ h.sourced hlog hterm hnew
  apply h.held T n hacked
  intro U hTU hUs hU
  rcases lt_or_ge U T' with hUT | hUT
  · exact hkept U hTU hUT hU
  · have he : U = T' := by omega
    subst he
    simp [hled] at hU

theorem ServerOK.startElection (h : ServerOK g w i s) (hg : Valid g) :
    Outcome i g w (startElection i s) (g.stand i (s.currentTerm+1) s.logs)
      (put w i (s.currentTerm+1) {i}) := by
  have hfresh : g.voted i (s.currentTerm+1) = none := h.future_vote _ (lt_succ_self _)
  have hext := stand_extends s.logs hfresh
  have hterm : ∀ e ∈ s.logs, e.term < s.currentTerm+1 :=
    fun e he => lt_succ_of_le (h.log_term e he)
  refine ⟨⟨hext,?_,fun _ _ => rfl,fun _ _ _ hled => hled,fun _ _ _ _ => rfl,?_⟩,?_,?_⟩
  · intro v hv
    funext T
    exact stand_voted_of_ne (by simp [hv])
  · intro v hv
    funext T
    exact put_of_ne _ _ (by simp [hv])
  · apply hg.stand hfresh h.sourced hterm
    intro hled
    exact h.vouches hg (le_succ _) hled h.sourced hterm (Or.inr ⟨rfl,le_rfl⟩)
  · refine ⟨?_,?_,?_,?_,?_,?_,?_,?_,?_,h.applied_le,h.applied⟩
    · intro T hT
      have hT' : s.currentTerm+1 < T := hT
      rw [stand_voted_of_ne (by omega)]
      exact h.future_vote T (by omega)
    · intro T hT
      exact h.future_ack T ((lt_succ_self _).trans hT)
    · exact put_same _ _ _ _
    · exact h.sourced
    · exact fun e he => (hterm e he).le
    · intro T n hn hk
      have hkept := kept_of_extends hext hg (hn.trans (hg.acked_le i T)) hk
      exact h.held T n hn (Kept.mono (le_succ _) hkept)
    · intro _
      refine ⟨succ_pos _,put_same _ _ _ _,?_,?_,?_,?_⟩
      · intro hled
        have hv := hg.led_voted _ _ hled
        simp [Raft.startElection,hfresh] at hv
      · exact (put_same _ _ _ _).symm
      · simp [Raft.startElection]
      · intro u hu
        have hu' : u = i := by simpa [Raft.startElection] using hu
        subst hu'
        exact put_same _ _ _ _
    · intro hs
      cases hs
    · exact h.commit.mono hext (le_succ _)

theorem ServerOK.grantVote (h : ServerOK g w i s) (hg : Valid g) {c : ServerId}
    (hc : g.voted c s.currentTerm = some c) (hfree : s.votedFor = none ∨ s.votedFor = some c)
    (hnew : lastTerm s.logs < lastTerm (g.candLog c s.currentTerm) ∨
      (lastTerm s.logs = lastTerm (g.candLog c s.currentTerm) ∧
        s.logs.length ≤ (g.candLog c s.currentTerm).length)) :
    ∃ g', Outcome i g w {s with votedFor := some c} g' w ∧ g'.voted i s.currentTerm = some c := by
  rcases hfree with hnone | hsame
  · have hfresh : g.voted i s.currentTerm = none := by rw [h.vote,hnone]
    have hext := castVote_extends (c:=c) hfresh
    refine ⟨g.castVote i s.currentTerm c,⟨⟨hext,?_,fun _ _ => rfl,fun _ _ _ hled => hled,
      fun _ _ _ _ => rfl,fun _ _ => rfl⟩,?_,?_⟩,put_same _ _ _ _⟩
    · intro v hv
      funext T
      exact castVote_voted_of_ne (by simp [hv])
    · apply hg.castVote hfresh hc
      intro hled
      exact h.vouches hg le_rfl hled (hg.cand_sourced _ _ hc) (hg.cand_term _ _ hc) hnew
    · refine ⟨?_,h.future_ack,put_same _ _ _ _,h.sourced,h.log_term,h.held,?_,?_,
        h.commit.mono hext le_rfl,h.applied_le,h.applied⟩
      · intro T hT
        have hT' : s.currentTerm < T := hT
        rw [castVote_voted_of_ne (by omega)]
        exact h.future_vote T hT
      · intro hs
        have hv := (h.candidate hs).voted
        simp [hfresh] at hv
      · intro hs
        have hv := hg.led_voted _ _ (h.leader hs).led
        simp [hfresh] at hv
  · have hs : {s with votedFor := some c} = s := by rw [← hsame]
    rw [hs]
    exact ⟨g,Outcome.of_ok hg h,by rw [h.vote,hsame]⟩

theorem denyVote_eq_false {a : RequestVoteArgs} (h : denyVote s a = false) :
    s.currentTerm ≤ a.candidateTerm ∧ (s.votedFor = none ∨ s.votedFor = some a.candidateId) ∧
      (lastTerm s.logs < a.lastLogTerm ∨
        (lastTerm s.logs = a.lastLogTerm ∧ s.logs.length ≤ a.lastLogIndex)) := by
  simp only [denyVote,Bool.or_eq_false_iff,Bool.and_eq_false_iff,decide_eq_false_iff_not,
    beq_eq_false_iff_ne,bne_eq_false_iff_eq,not_lt] at h
  obtain ⟨⟨hterm,hvote⟩,hold,hlen⟩ := h
  refine ⟨hterm,?_,?_⟩
  · rcases hvote with hnone | hsame
    · exact Or.inl (Option.isNone_iff_eq_none.mp (by simpa using hnone))
    · exact Or.inr hsame
  · rcases lt_or_ge (lastTerm s.logs) a.lastLogTerm with hlt | hge
    · exact Or.inl hlt
    · have he : a.lastLogTerm = lastTerm s.logs := le_antisymm hge hold
      rcases hlen with hne | hle
      · exact absurd he hne
      · exact Or.inr ⟨he.symm,hle⟩

/-- `HandleRequestVote` keeps the agreement, and a positive reply is a recorded
vote of the request's term. -/
theorem ServerOK.handleRequestVote (h : ServerOK g w i s) (hg : Valid g)
    {a : RequestVoteArgs} {r : Rpc Cmd} (hr : VoteRpcOK g r a) :
    ∃ g', Outcome i g w (handleRequestVote s a).1 g' w ∧ ∀ t, (handleRequestVote s a).2 = ⟨t,true⟩ →
        t = a.candidateTerm ∧ g'.voted i a.candidateTerm = some r.src := by
  have hobs := h.observeTerm a.candidateTerm
  unfold Raft.handleRequestVote
  simp only
  cases hdeny : denyVote (Raft.observeTerm s a.candidateTerm) a with
  | true => exact ⟨g,Outcome.of_ok hg hobs,by simp⟩
  | false =>
    obtain ⟨hle,hfree,hnew⟩ := denyVote_eq_false hdeny
    have hcur : (Raft.observeTerm s a.candidateTerm).currentTerm = a.candidateTerm := by
      rw [observeTerm_currentTerm] at hle ⊢
      exact le_antisymm hle (le_max_right _ _)
    rw [hr.candidate] at hfree
    rw [hr.lastTerm,hr.lastIndex] at hnew
    obtain ⟨g',hout,hv⟩ := hobs.grantVote hg (by rw [hcur]; exact hr.voted) hfree
      (by rw [hcur]; exact hnew)
    rw [hcur] at hv
    refine ⟨g',?_,?_⟩
    · simpa [hr.candidate] using hout
    · intro t ht
      simp only [Bool.false_eq_true,if_false,Reply.mk.injEq,and_true] at ht
      exact ⟨by rw [← ht,hcur],hv⟩

theorem ServerOK.countVote (h : ServerOK g w i s) (hg : Valid g)
    (hs : s.serverState = .candidate) {u : ServerId} (hu : u ∉ w i s.currentTerm)
    (hvote : g.voted u s.currentTerm = some i) :
    ∃ g', Outcome i g w (countVote s) g'
      (put w i s.currentTerm (insert u (w i s.currentTerm))) := by
  obtain ⟨hpos,hvoted,hled,hlogs,hvotes,htally⟩ := h.candidate hs
  have hcard : (insert u (w i s.currentTerm)).card = s.votesReceived+1 := by
    rw [Finset.card_insert_of_notMem hu,hvotes]
  have hall : ∀ v ∈ insert u (w i s.currentTerm), g.voted v s.currentTerm = some i := by
    intro v hv
    rcases Finset.mem_insert.mp hv with rfl | hv
    · exact hvote
    · exact htally v hv
  have htly : ∀ v, v ≠ i → put w i s.currentTerm (insert u (w i s.currentTerm)) v = w v := by
    intro v hv
    funext T
    exact put_of_ne _ _ (by simp [hv])
  unfold Raft.countVote
  simp only
  split_ifs with hmaj
  · have hQ : Majority (insert u (w i s.currentTerm)) := by
      simp only [Majority,Fintype.card_fin,hcard]
      simp only [serverCount] at hmaj ⊢
      omega
    have hnone : g.led s.currentTerm = none := by
      cases hl : g.led s.currentTerm with
      | none => rfl
      | some d =>
        obtain ⟨P,hP,hPv⟩ := hg.quorum _ d hl
        obtain ⟨v,hvP,hvQ⟩ := majority_inter hP hQ
        have he := (hPv v hvP).1.symm.trans (hall v hvQ)
        simp only [Option.some.injEq] at he
        subst he
        exact absurd hl hled
    have hext := elect_extends hg (c:=i) hnone
    refine ⟨g.elect i s.currentTerm,⟨hext,fun _ _ => rfl,?_,?_,?_,htly⟩,
      hg.elect hnone hpos hvoted hQ hall h.future_vote,?_⟩
    · intro v hv
      funext T
      exact elect_acked_of_ne (by simp [hv])
    · intro v T hv hl
      by_cases hT : T = s.currentTerm
      · subst hT
        simp only [elect_led_self,Option.some.injEq] at hl
        exact absurd hl.symm hv
      · rwa [elect_led_of_ne hT] at hl
    · intro v T hv hl
      apply elect_leadLog_of_ne
      rintro rfl
      simp [hnone] at hl
    · refine ⟨h.future_vote,?_,h.vote,hext.sourced _ h.sourced,h.log_term,?_,?_,?_,
        h.commit.mono hext le_rfl,h.applied_le,h.applied⟩
      · intro T hT
        rw [elect_acked_of_ne (by rintro ⟨-,rfl⟩; exact absurd hT (lt_irrefl _))]
        exact h.future_ack T hT
      · intro T n hn hk
        by_cases hT : T = s.currentTerm
        · subst hT
          rw [elect_leadLog_self,← hlogs]
          exact List.take_prefix _ _
        · rw [elect_acked_of_ne (by simp [hT])] at hn
          have hlen := hn.trans (hg.acked_le i T)
          rw [elect_leadLog_of_ne hT]
          exact h.held T n hn (kept_of_extends hext hg hlen hk)
      · intro hc
        cases hc
      · intro _
        refine ⟨elect_led_self,?_,?_,?_⟩
        · rw [becomeLeader,elect_leadLog_self]
          exact hlogs
        · simp only [becomeLeader,elect,put_same]
          rw [← hlogs]
        · intro f _
          simp [becomeLeader]
  · refine ⟨g,⟨History.Extends.refl g,fun _ _ => rfl,fun _ _ => rfl,fun _ _ _ hl => hl,
      fun _ _ _ _ => rfl,htly⟩,hg,?_⟩
    refine {h with candidate := ?_, leader := ?_}
    · intro _
      refine ⟨hpos,hvoted,hled,hlogs,?_,?_⟩
      · simp only [put_same]
        exact hcard
      · simp only [put_same]
        exact hall
    · intro hl
      simp [hs] at hl

end Janus.Raft
