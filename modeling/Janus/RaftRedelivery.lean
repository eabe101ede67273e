import Janus.RaftSafety

/-! AppendEntries that arrive late or more than once. A follower that accepts a request has the
leader's log of that moment as a prefix of its own; an earlier request then finds its entries in
place. -/

namespace Janus.Raft

open LeaderHistory List

variable {Cmd : Type} {s l l₁ l₂ : RaftServer Cmd} {a : AppendEntriesArgs Cmd} {L f : ServerId}

/-- A follower's log that satisfies Log Matching with the leader's. The first term is one. -/
structure Consistent (logs leader : List (LogStruct Cmd)) : Prop where
  matching : Matching logs leader
  term_pos : ∀ e ∈ logs, 0 < e.term
  leader_pos : ∀ e ∈ leader, 0 < e.term

theorem Matching.mono {logs l m : List (LogStruct Cmd)} (h : Matching logs m) (hlm : l <+: m) :
    Matching logs l := by
  intro k d e hd he hde
  have hlt := (List.getElem?_eq_some_iff.mp he).1
  rw [h k d e hd (prefix_getElem?_eq hlm he) hde]
  exact prefix_take_eq hlm hlt

structure SameLeadership (l₁ l₂ : RaftServer Cmd) : Prop where
  term : l₁.currentTerm = l₂.currentTerm
  logs : l₁.logs <+: l₂.logs
  commit : l₁.commitIndex ≤ l₂.commitIndex

def Accepts (s : RaftServer Cmd) (a : AppendEntriesArgs Cmd) : Prop :=
  (handleAppendEntries s a).2.ok = true

instance (s : RaftServer Cmd) (a : AppendEntriesArgs Cmd) : Decidable (Accepts s a) :=
  inferInstanceAs (Decidable (_ = _))

@[simp] theorem observeTerm_commitIndex (T : ℕ) : (observeTerm s T).commitIndex = s.commitIndex := by
  unfold observeTerm
  split_ifs <;> rfl

theorem Accepts.spec (h : Accepts s a) : prevLogMatches s.logs a.prevLogIndex a.prevLogTerm = true ∧
      (handleAppendEntries s a).1.logs = appendLoop s.logs (a.prevLogIndex+1) a.entries ∧
      (handleAppendEntries s a).1.commitIndex = if s.commitIndex < a.leaderCommit then
        min a.leaderCommit (handleAppendEntries s a).1.logs.length else s.commitIndex := by
  have hcases : prevLogMatches s.logs a.prevLogIndex a.prevLogTerm = true ∧
      (handleAppendEntries s a).1 = acceptEntries (observeTerm s a.term) a := by
    unfold Accepts at h
    unfold handleAppendEntries at h ⊢
    dsimp only at h ⊢
    split_ifs at h ⊢ with hterm hprev
    exact ⟨observeTerm_logs (s:=s) a.term ▸ hprev,rfl⟩
  rw [hcases.2]
  exact ⟨hcases.1,by simp [acceptEntries],by simp [acceptEntries]⟩

section

variable (h : Accepts s (heartbeat L l f).1)
include h

section

variable (hc : Consistent s.logs l.logs)
include hc

/-- A request that is accepted continues what the follower has of the leader's log. -/
theorem Accepts.prev : ∃ p ≤ l.logs.length, (heartbeat L l f).1.prevLogIndex = p ∧
      (heartbeat L l f).1.entries = l.logs.drop p ∧ s.logs.take p = l.logs.take p := by
  have hprev := h.spec.1
  simp only [prevLogMatches,Bool.or_eq_true,beq_iff_eq,Bool.and_eq_true,decide_eq_true_eq] at hprev
  rcases heartbeat_cases l L f with ⟨p,hp,-,hidx,hent,hterm⟩ | ⟨hpos,hzero⟩
  · refine ⟨p,hp,hidx,hent,?_⟩
    rw [hidx] at hprev
    rcases Nat.eq_zero_or_pos p with rfl | hpos
    · simp
    obtain ⟨d,hd,hdt⟩ := termAt_eq_some (hprev.resolve_left hpos.ne').2
    obtain ⟨e,he,het⟩ := termAt_eq_some (hterm hpos)
    have hmatch := hc.matching _ _ _ hd (prefix_getElem?_eq (List.take_prefix _ _) he)
      (hdt.trans het.symm)
    rwa [Nat.sub_add_cancel hpos] at hmatch
  · obtain ⟨d,hd,hdt⟩ := termAt_eq_some (hprev.resolve_left hpos.ne').2
    have hdpos := hc.term_pos d (mem_of_getElem? hd)
    omega

/-- What a follower has after it accepted a request: its log if that has the leader's as a
prefix, and the leader's otherwise. -/
theorem Accepts.logs :
    (l.logs <+: s.logs ∧ (handleAppendEntries s (heartbeat L l f).1).1.logs = s.logs) ∨
      (¬l.logs <+: s.logs ∧ (handleAppendEntries s (heartbeat L l f).1).1.logs = l.logs) := by
  obtain ⟨p,hp,hidx,hent,hpre⟩ := h.prev hc
  have hlen : (l.logs.take p).length = p := by
    rw [length_take,min_eq_left hp]
  have hcases := appendLoop_of_matching s.logs (l.logs.drop p) (l.logs.take p)
    (by rw [take_append_drop]; exact hc.matching) (by rw [hlen,hpre])
  rw [hlen,take_append_drop] at hcases
  rwa [h.spec.2.1,hidx,hent]

theorem Accepts.holds_log : l.logs <+: (handleAppendEntries s (heartbeat L l f).1).1.logs := by
  rcases h.logs hc with ⟨hpre,heq⟩ | ⟨-,heq⟩
  · rwa [heq]
  · rw [heq]

theorem Accepts.logs_eq
    (hpre : l.logs <+: s.logs) : (handleAppendEntries s (heartbeat L l f).1).1.logs = s.logs :=
  (h.logs hc).elim And.right fun hno => absurd hpre hno.1

theorem Accepts.consistent :
    Consistent (handleAppendEntries s (heartbeat L l f).1).1.logs l.logs := by
  rcases h.logs hc with ⟨-,heq⟩ | ⟨-,heq⟩
  · rwa [heq]
  · rw [heq]
    exact ⟨fun k d e hd he hde => rfl,hc.leader_pos,hc.leader_pos⟩

end

end

theorem Consistent.mono {logs l m : List (LogStruct Cmd)} (h : Consistent logs m) (hlm : l <+: m) :
    Consistent logs l :=
  ⟨h.matching.mono hlm,h.term_pos,fun e he => h.leader_pos e (hlm.subset he)⟩

/-- The commit index does not move either: it is at the end of the log or not below what the
later request has brought. -/
theorem Accepts.commitIndex_eq (h : Accepts s (heartbeat L l f).1) (hc : Consistent s.logs l.logs)
    (hpre : l.logs <+: s.logs)
    (hcommit : l.commitIndex ≤ s.commitIndex ∨ s.commitIndex = s.logs.length) :
    (handleAppendEntries s (heartbeat L l f).1).1.commitIndex = s.commitIndex := by
  rw [h.spec.2.2,h.logs_eq hc hpre]
  change (if s.commitIndex < l.commitIndex then min l.commitIndex s.logs.length else s.commitIndex) = _
  split_ifs with hlt
  · rcases hcommit with hle | heq
    · omega
    · omega
  · rfl

theorem Accepts.commit_reached (h : Accepts s (heartbeat L l f).1) :
    l.commitIndex ≤ (handleAppendEntries s (heartbeat L l f).1).1.commitIndex ∨
      (handleAppendEntries s (heartbeat L l f).1).1.commitIndex =
        (handleAppendEntries s (heartbeat L l f).1).1.logs.length := by
  rw [h.spec.2.2]
  change l.commitIndex ≤ (if s.commitIndex < l.commitIndex then _ else _) ∨
    (if s.commitIndex < l.commitIndex then min l.commitIndex _ else _) = _
  split_ifs with hlt
  · rcases le_total l.commitIndex (handleAppendEntries s (heartbeat L l f).1).1.logs.length with hle | hle
    · exact .inl (le_min le_rfl hle)
    · exact .inr (min_eq_right hle)
  · exact .inl (not_lt.mp hlt)

theorem Accepts.again (h : Accepts s (heartbeat L l₂ f).1) (hl : SameLeadership l₁ l₂)
    (hc : Consistent s.logs l₂.logs) : let s' := (handleAppendEntries s (heartbeat L l₂ f).1).1
    Accepts s' (heartbeat L l₁ f).1 → let t := (handleAppendEntries s' (heartbeat L l₁ f).1).1
      t.logs = s'.logs ∧ t.commitIndex = s'.commitIndex := by
  intro s' h'
  have hc₁ := (h.consistent hc).mono hl.logs
  have hpre := hl.logs.trans (h.holds_log hc)
  exact ⟨h'.logs_eq hc₁ hpre,h'.commitIndex_eq hc₁ hpre (h.commit_reached.imp_left hl.commit.trans)⟩

theorem Accepts.agrees (h : Accepts s (heartbeat L l f).1) (hc : Consistent s.logs l.logs) (i : ℕ)
    (hi : i < (heartbeat L l f).1.prevLogIndex+(heartbeat L l f).1.entries.length) :
    ∃ e, l.logs[i]? = some e ∧ (handleAppendEntries s (heartbeat L l f).1).1.logs[i]? = some e := by
  obtain ⟨p,hp,hidx,hent,-⟩ := h.prev hc
  rw [hidx,hent,length_drop] at hi
  have hlt : i < l.logs.length := by omega
  exact ⟨_,getElem?_eq_getElem hlt,prefix_getElem?_eq (h.holds_log hc) (getElem?_eq_getElem hlt)⟩

/-- Repeated and late requests change nothing, and an accepted one leaves the follower with the
entries up to its last (`i` is the source's `i+1`). -/
theorem append_entries_redelivery (s l₁ l₂ : RaftServer Cmd) (L f : ServerId)
    (hl : SameLeadership l₁ l₂) (hc : Consistent s.logs l₂.logs) :
    (Accepts s (heartbeat L l₂ f).1 →
      Accepts (handleAppendEntries s (heartbeat L l₂ f).1).1 (heartbeat L l₁ f).1 →
      (handleAppendEntries (handleAppendEntries s (heartbeat L l₂ f).1).1
          (heartbeat L l₁ f).1).1.logs = (handleAppendEntries s (heartbeat L l₂ f).1).1.logs ∧
        (handleAppendEntries (handleAppendEntries s (heartbeat L l₂ f).1).1
          (heartbeat L l₁ f).1).1.commitIndex =
          (handleAppendEntries s (heartbeat L l₂ f).1).1.commitIndex) ∧
    (Accepts s (heartbeat L l₁ f).1 →
      Accepts (handleAppendEntries s (heartbeat L l₁ f).1).1 (heartbeat L l₁ f).1 →
      (handleAppendEntries (handleAppendEntries s (heartbeat L l₁ f).1).1
          (heartbeat L l₁ f).1).1.logs = (handleAppendEntries s (heartbeat L l₁ f).1).1.logs ∧
        (handleAppendEntries (handleAppendEntries s (heartbeat L l₁ f).1).1
          (heartbeat L l₁ f).1).1.commitIndex =
          (handleAppendEntries s (heartbeat L l₁ f).1).1.commitIndex) ∧
    ∀ l ∈ [l₁,l₂], Accepts s (heartbeat L l f).1 →
      ∀ i < (heartbeat L l f).1.prevLogIndex+(heartbeat L l f).1.entries.length,
        ∃ e, l.logs[i]? = some e ∧
          (handleAppendEntries s (heartbeat L l f).1).1.logs[i]? = some e := by
  have hc₁ := hc.mono hl.logs
  refine ⟨fun h => h.again hl hc,fun h => h.again ⟨rfl,prefix_refl _,le_rfl⟩ hc₁,
    fun l hmem h => ?_⟩
  simp only [mem_cons,not_mem_nil,or_false] at hmem
  rcases hmem with rfl | rfl
  · exact h.agrees hc₁
  · exact h.agrees hc

def leaderOf (logs : List (LogStruct ℕ)) (commitIndex : ℕ) : RaftServer ℕ :=
  {idle.servers 0 with
   currentTerm := 3
   serverState := .leader
   logs := logs
   commitIndex := commitIndex
   nextIndex := fun _ => 2}

def divergent : RaftServer ℕ := {idle.servers 1 with currentTerm := 2, logs := [⟨7,1⟩,⟨9,2⟩]}

theorem append_entries_redelivery_divergent :
    Accepts divergent (heartbeat 0 (leaderOf [⟨7,1⟩,⟨8,3⟩,⟨5,3⟩] 2) 1).1 ∧
    (handleAppendEntries (handleAppendEntries divergent
      (heartbeat 0 (leaderOf [⟨7,1⟩,⟨8,3⟩,⟨5,3⟩] 2) 1).1).1
      (heartbeat 0 (leaderOf [⟨7,1⟩,⟨8,3⟩] 1) 1).1).1.logs = [⟨7,1⟩,⟨8,3⟩,⟨5,3⟩] := by
  have hl : SameLeadership (leaderOf [⟨7,1⟩,⟨8,3⟩] 1) (leaderOf [⟨7,1⟩,⟨8,3⟩,⟨5,3⟩] 2) :=
    ⟨rfl,⟨[⟨5,3⟩],rfl⟩,by decide⟩
  have hc : Consistent divergent.logs (leaderOf [⟨7,1⟩,⟨8,3⟩,⟨5,3⟩] 2).logs := by
    refine ⟨?_,by decide,by decide⟩
    rintro (_ | _ | k) d e hd he hde
    · rfl
    · cases hd
      cases he
      cases hde
    · cases hd
  have hacc : Accepts divergent (heartbeat 0 (leaderOf [⟨7,1⟩,⟨8,3⟩,⟨5,3⟩] 2) 1).1 := by decide
  exact ⟨hacc,((append_entries_redelivery divergent _ _ 0 1 hl hc).1 hacc (by decide)).1.trans (by decide)⟩

end Janus.Raft
