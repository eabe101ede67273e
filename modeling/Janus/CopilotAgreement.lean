import Janus.CopilotRuns

/-! Agreement of Copilot. A slot is decided by its owner, with a fast quorum or a quorum of Accept
replies, or by the other pilot after a takeover. What the replicas that promise to a takeover
report settles what the owner can still decide. -/

namespace Janus.Copilot

open Transition List Status CopilotData Option Finset CopilotLogInfo

def takeoverBallot (p : Bool) : ℕ := pickGreaterBallot (own !p) 0

theorem one_lt_takeoverBallot (p : Bool) : 1 < takeoverBallot p := by
  cases p <;> decide

theorem pickGreaterBallot_low (site : ℕ) {b : ℕ} (hb : b ≤ 1) :
    pickGreaterBallot site b = pickGreaterBallot site 0 := by
  match b,hb with
  | 0,_ => rfl
  | 1,_ => rfl

def Message.pair {C : Type} : Message C → Option (ℕ × Option (Command C))
  | .fastAccept _ d cmd => some (d,cmd)
  | .accept _ d cmd => some (d,cmd)
  | .prepare _ => none
  | .commit d cmd => some (d,cmd)

def Coord.Taking {C : Type} (x : Coord C) (i : ℕ) : Prop :=
  (∃ b k, x.phase = .prepare i b k) ∨ ∃ d cmd k, x.phase = .takeoverAccept i d cmd k

namespace Status

variable {st : Status}

theorem reduce_of_committed (h : .committed ≤ st) : st.reduce = .committed := if_pos h

theorem reduce_eq_committed : st.reduce = .committed ↔ .committed ≤ st := by
  cases st <;> decide

theorem reduce_eq_accepted : st.reduce = .accepted ↔ st = .accepted := by
  cases st <;> decide

theorem reduce_eq_fast : st.reduce = .fastAcceptedEq ↔ .fastAccepted ≤ st ∧ st < .accepted := by
  cases st <;> decide

end Status

section Choice

variable {C : Type} {n : ℕ} {oks : List (PrepareReply C)} {ins : CopilotData C} {dep : ℕ}
  {cmd : Option (Command C)}

theorem mem_getCmds {st : Status} {a : PrepareReply C} :
    a ∈ getCmds oks st ↔ a ∈ oks ∧ a.status.reduce = st := by
  unfold getCmds
  rw [mem_filter,decide_eq_true_iff]

theorem prepareChoice_commit (h : prepareChoice n oks (some ins) = .commit cmd dep) :
    ∃ a ∈ getCmds oks .committed, cmd = some a.cmd ∧ dep = a.dep := by
  have hsel : select n oks ins = .commit cmd dep := by
    unfold prepareChoice at h
    dsimp only at h
    split at h
    · cases h
    · split_ifs at h
      exact h
  unfold select at hsel
  split at hsel
  next a l hl =>
    cases hsel
    exact ⟨a,hl ▸ mem_cons_self,rfl,rfl⟩
  · split at hsel
    · cases hsel
    · split at hsel <;> split_ifs at hsel

/-- An Accept after a Prepare: the pair of an accepted or fast-accepted answer or of the own
instance, or a no-op where few answers are fast-accepted. -/
theorem prepareChoice_accept (h : prepareChoice n oks (some ins) = .accept cmd dep) :
    ¬.committed ≤ ins.status ∧ getCmds oks .committed = [] ∧
      ((∃ a ∈ getCmds oks .accepted, cmd = some a.cmd ∧ dep = a.dep) ∨ getCmds oks .accepted = [] ∧
        ((∃ a ∈ getCmds oks .fastAcceptedEq, cmd = some a.cmd ∧ dep = a.dep) ∨
          (∃ a, a ∈ getCmds oks .fastAcceptedEq) ∧
            (maxFail n+1)/2 ≤ (getCmds oks .fastAcceptedEq).length ∧
            (getCmds oks .fastAcceptedEq).length < maxFail n ∧ cmd = ins.cmd ∧ dep = ins.depId ∨
          (getCmds oks .fastAcceptedEq).length < max 1 ((maxFail n+1)/2))) := by
  have hsel : select n oks ins = .accept cmd dep ∧ ¬.committed ≤ ins.status := by
    unfold prepareChoice at h
    dsimp only at h
    split at h
    · cases h
    · split_ifs at h with hst
      exact ⟨h,hst⟩
  obtain ⟨hsel,hst⟩ := hsel
  refine ⟨hst,?_⟩
  unfold select at hsel
  split at hsel
  · cases hsel
  next hcom =>
    refine ⟨hcom,?_⟩
    split at hsel
    next a l hl =>
      cases hsel
      exact .inl ⟨a,hl ▸ mem_cons_self,rfl,rfl⟩
    next hacc =>
      refine .inr ⟨hacc,?_⟩
      split at hsel
      next a l hl =>
        have hmem : a ∈ getCmds oks .fastAcceptedEq := hl ▸ mem_cons_self
        have hlen : (getCmds oks .fastAcceptedEq).length = l.length+1 := by
          rw [hl,length_cons]
        split_ifs at hsel with hfew hmany
        · exact .inr (.inr (by omega))
        · cases hsel
          exact .inl ⟨a,hmem,rfl,rfl⟩
        · cases hsel
          exact .inr (.inl ⟨⟨a,hmem⟩,by omega,by omega,rfl,rfl⟩)
      next hnil =>
        rw [hnil]
        exact .inr (.inr (Nat.one_pos.trans_le (le_max_left _ _)))

end Choice

namespace Cast

variable {C : Type} {n b : ℕ} {e : Cast C}
variable {a : ℕ × PrepareReply C}

theorem mem_prepared (h : a ∈ e.prepared) :
    a.1 ∈ e.answers ∧ e.replies a.1 = some (.prepared a.2) := by
  obtain ⟨r,hr,heq⟩ := mem_filterMap.mp h
  split at heq
  next rep hrep =>
    cases heq
    exact ⟨hr,hrep⟩
  · cases heq

theorem mem_oks (h : a ∈ e.oks b) : a.1 ∈ e.answers ∧ e.replies a.1 = some (.prepared a.2) :=
  mem_prepared (mem_filter.mp h).1

/-- Where nobody has promised more, an event that is ready has a quorum or a commit. -/
theorem prepareReady_quorum (hready : e.prepareReady n b) (hb : ∀ a ∈ e.prepared, a.2.maxBallot = b)
    (hcom : ∀ a ∈ e.oks b, ¬.committed ≤ a.2.status) : quorumSize n ≤ (e.oks b).length := by
  rcases hready with ⟨a,ha,hst⟩ | hq | hno
  · exact absurd hst (hcom a ha)
  · exact hq
  · have hnil : e.prepared.filter (fun a => a.2.maxBallot ≠ b) = [] := by
      rw [filter_eq_nil_iff]
      intro a ha
      simp [hb a ha]
    rw [hnil] at hno
    cases hno

theorem Fed.oks_nodup (h : e.Fed n) : ((e.oks b).map Prod.fst).Nodup := by
  have hsub : (e.prepared.map Prod.fst).Sublist e.answers := by
    unfold prepared
    induction e.answers with
    | nil => exact .slnil
    | cons r l ih =>
      rw [filterMap_cons]
      split
      · exact ih.cons r
      next a ha =>
        split at ha
        · cases ha
          exact ih.cons_cons r
        · cases ha
  exact (hsub.nodup h.nodup).sublist (filter_sublist.map _)

end Cast

namespace Cluster

variable {C : Type} {n : ℕ} {s s' : Cluster C} {p : Bool} {i r : ℕ} {d c b k : ℕ} {a : Action C}
variable {site d' : ℕ} {cmd' : Option (Command C)}
variable {cmd : Option (Command C)} {x : Coord C}
variable {e : Cast C} {said : Option (Saying C)} {rep : Option (Replying C)}

def AcceptReplied (s : Cluster C) (p : Bool) (i r : ℕ) : Prop :=
  ∃ b d cmd ρ, s.Replied p i (own p) (.accept b d cmd) r ρ

def Promised (s : Cluster C) (p : Bool) (i r : ℕ) : Prop :=
  ∃ site b ρ, s.Replied p i site (.prepare b) r ρ

def Unclaimed (s : Cluster C) (p : Bool) (i : ℕ) : Prop :=
  ∀ site m, site ≠ own p → s.Said p i site m → m.pair = none

def TakenOver (s : Cluster C) (p : Bool) (i : ℕ) : Prop := ∃ site b, s.Said p i site (.prepare b)

/-- The messages that a replica can take without losing what it has stored: those of the owner in
their order and before any promise to a takeover, a Prepare unless the entry is committed without a
Commit, and a Commit that finds its dependency. -/
def Admits (s : Cluster C) (r : ℕ) (e : Cast C) : Prop :=
  match e.msg with
  | .fastAccept b _ _ => ((s.server r).ins e.isPilot e.slot).ballot ≤ b ∧
      ((s.server r).ins e.isPilot e.slot).status < .accepted
  | .accept b _ _ =>
    (e.site = own e.isPilot → ((s.server r).ins e.isPilot e.slot).ballot ≤ b) ∧
      (((s.server r).ins e.isPilot e.slot).ballot ≤ b →
        ((s.server r).ins e.isPilot e.slot).status < .committed)
  | .prepare _ => ¬(s.server r).Freed e.isPilot e.slot ∧
      (.committed ≤ ((s.server r).ins e.isPilot e.slot).status → s.marked r e.isPilot e.slot = true)
  | .commit d _ => ¬(s.server r).Freed e.isPilot e.slot →
      ((s.server r).ins e.isPilot e.slot).status < .committed →
      ((s.server r).ins e.isPilot e.slot).depId = d

/-- The steps of a coordinator that agreement needs. After a FastAccept without a fast quorum its
own replica has neither promised nor committed; a slot is taken over once; and an own instance that
Prepare falls back on has the pair that was reported. -/
def Proceeds (n : ℕ) (s : Cluster C) (x : Coord C) : Prop :=
  match x.phase with
  | .fastAccept k => ∀ e ∈ s.casts k, e.fastYes n x.dep = false →
      ((s.server x.site).ins x.isPilot x.slot).ballot ≤ x.ballot ∧
        ((s.server x.site).ins x.isPilot x.slot).status < .committed
  | .takeover i => i ≤ x.dep → ¬(s.server x.site).Freed (!x.isPilot) i →
      ((s.server x.site).ins (!x.isPilot) i).takeover = false →
      ((s.server x.site).ins (!x.isPilot) i).status < .committed →
      ∀ k < s.nextCast, ∀ e ∈ s.casts k, e.isPilot = (!x.isPilot) → e.slot = i → e.msg.pair ≠ none
  | .prepare i b k => ∀ e ∈ s.casts k,
      getCmds ((e.oks (pickGreaterBallot x.site b)).map Prod.snd) .committed = [] →
      getCmds ((e.oks (pickGreaterBallot x.site b)).map Prod.snd) .accepted = [] →
      (maxFail n+1)/2 ≤
        (getCmds ((e.oks (pickGreaterBallot x.site b)).map Prod.snd) .fastAcceptedEq).length →
      (getCmds ((e.oks (pickGreaterBallot x.site b)).map Prod.snd) .fastAcceptedEq).length <
        maxFail n →
      ∀ a ∈ getCmds ((e.oks (pickGreaterBallot x.site b)).map Prod.snd) .fastAcceptedEq,
        ((s.server x.site).ins (!x.isPilot) i).cmd = some a.cmd ∧
          ((s.server x.site).ins (!x.isPilot) i).depId = a.dep
  | _ => True

def Permitted (n : ℕ) (s : Cluster C) : Action C → Prop
  | .receive k r => ∀ e ∈ s.casts k, s.Admits r e
  | .resume c _ => ∀ x ∈ s.coords c, s.Proceeds n x
  | _ => True

/-! ### Replies that a step adds -/

section Adds

theorem Adds.acceptReplied (h : s.Adds s' said rep) (hs : s'.AcceptReplied p i r) :
    s.AcceptReplied p i r ∨ ∃ b d cmd ρ, rep = some (p,i,own p,.accept b d cmd,r,ρ) := by
  obtain ⟨b,d,cmd,ρ,hr⟩ := hs
  rcases h.replied _ _ _ _ _ _ hr with hold | hnew
  · exact .inl ⟨b,d,cmd,ρ,hold⟩
  · exact .inr ⟨b,d,cmd,ρ,hnew⟩

theorem Adds.promised (h : s.Adds s' said rep) (hs : s'.Promised p i r) :
    s.Promised p i r ∨ ∃ site b ρ, rep = some (p,i,site,.prepare b,r,ρ) := by
  obtain ⟨site,b,ρ,hr⟩ := hs
  rcases h.replied _ _ _ _ _ _ hr with hold | hnew
  · exact .inl ⟨site,b,ρ,hold⟩
  · exact .inr ⟨site,b,ρ,hnew⟩

theorem Extends.promised (h : s.Extends s') (hs : s.Promised p i r) : s'.Promised p i r := by
  obtain ⟨site,b,ρ,hr⟩ := hs
  exact ⟨site,b,ρ,h.replied hr⟩

theorem Extends.said_some {m : ℕ → Message C} (h : s.Extends s')
    (hs : ∃ site b, s.Said p i site (m b)) : ∃ site b, s'.Said p i site (m b) := by
  obtain ⟨site,b,hr⟩ := hs
  exact ⟨site,b,h.said hr⟩

theorem Extends.takenOver (h : s.Extends s') (hs : s.TakenOver p i) : s'.TakenOver p i :=
  h.said_some hs

end Adds

/-! ### What the replicas hold -/

structure Holds (s : Cluster C) (p : Bool) (i r : ℕ) (marked : Bool) (d : CopilotData C) : Prop where
  fast : d.status.reduce = .fastAcceptedEq → ∃ site b, s.Said p i site (.fastAccept b d.depId d.cmd)
  accept : d.status = .accepted → ∃ site b, s.Said p i site (.accept b d.depId d.cmd)
  mark : marked = true → .committed ≤ d.status ∧ ∃ site, s.Said p i site (.commit d.depId d.cmd)
  hasFast : s.FastReplied p i r → .fastAccepted ≤ d.status
  hasAccept : s.AcceptReplied p i r → .accepted ≤ d.status
  ballot : d.ballot ≤ 1 ∨ d.ballot = takeoverBallot p ∧ s.TakenOver p i
  promised : s.Promised p i r → takeoverBallot p ≤ d.ballot

section Holds

variable {m : Bool} {d : CopilotData C}
variable {b j dep : ℕ} {cmd : Option (Command C)} {ρ : Reply C}

section

variable (h : s.Holds p i r m d)
include h

theorem Holds.mono (hext : s.Extends s') (hf : s'.FastReplied p i r → s.FastReplied p i r)
    (ha : s'.AcceptReplied p i r → s.AcceptReplied p i r)
    (hp : s'.Promised p i r → s.Promised p i r) : s'.Holds p i r m d where
  fast hst := hext.said_some (h.fast hst)
  accept hst := hext.said_some (h.accept hst)
  mark hm := by
    obtain ⟨hst,site,hs⟩ := h.mark hm
    exact ⟨hst,site,hext.said hs⟩
  hasFast hr := h.hasFast (hf hr)
  hasAccept hr := h.hasAccept (ha hr)
  ballot := h.ballot.imp_right fun ⟨hb,ht⟩ => ⟨hb,hext.takenOver ht⟩
  promised hr := h.promised (hp hr)

theorem Holds.silent (hadd : s.Adds s' said rep)
    (hrep : ∀ site msg ρ, rep = some (p,i,site,msg,r,ρ) → ∃ d cmd, msg = .commit d cmd) :
    s'.Holds p i r m d := by
  refine h.mono hadd.ext (fun hr => ?_) (fun hr => ?_) fun hr => ?_
  · exact (hadd.fastReplied hr).resolve_right fun ⟨_,_,_,_,_,h⟩ => by simpa using hrep _ _ _ h
  · exact (hadd.acceptReplied hr).resolve_right fun ⟨_,_,_,_,h⟩ => by simpa using hrep _ _ _ h
  · exact (hadd.promised hr).resolve_right fun ⟨_,_,_,h⟩ => by simpa using hrep _ _ _ h

theorem Holds.carries {d' : CopilotData C}
    (hd : CopilotServer.Carries d d') : s.Holds p i r m d' := by
  obtain ⟨hcmd,hdep,hb,hst⟩ := hd
  have hle : ∀ {st : Status}, st ≤ d.status → st ≤ d'.status := by
    intro st hle
    rcases hst with he | ⟨he,-⟩
    · rwa [he]
    · rw [he]
      cases st <;> decide
  have hsame : ∀ {st : Status}, st ≠ .committed → d'.status.reduce = st → d'.status = d.status := by
    intro st hne hred
    rcases hst with he | ⟨he,-⟩
    · exact he
    · rw [he] at hred
      exact absurd hred.symm hne
  refine ⟨fun hf => ?_,fun ha => ?_,fun hm => ?_,fun hr => hle (h.hasFast hr),
    fun hr => hle (h.hasAccept hr),?_,fun hr => hb ▸ h.promised hr⟩
  · rw [hcmd,hdep]
    exact h.fast (hsame (by decide) hf ▸ hf)
  · rw [hcmd,hdep]
    exact h.accept (hsame (show accepted ≠ .committed by decide) (reduce_eq_accepted.mpr ha) ▸ ha)
  · rw [hcmd,hdep]
    exact ⟨hle (h.mark hm).1,(h.mark hm).2⟩
  · rw [hb]
    exact h.ballot

theorem Holds.fastAccept {sug : ℕ}
    (hadd : s.Adds s' said (some (p,i,j,.fastAccept b dep cmd,r,ρ))) (hb : d.ballot ≤ b)
    (hst : d.status < .accepted) (hlow : b ≤ 1) (hsaid : s'.Said p i j (.fastAccept b dep cmd)) :
    s'.Holds p i r m (d.fastAccept b dep cmd sug) := by
  have hstatus := fastAccept_status hb dep sug cmd
  have hlt : ¬accepted ≤ (d.fastAccept b dep cmd sug).status := by
    rcases hstatus with he | he <;> (rw [he]; decide)
  unfold CopilotData.fastAccept at hstatus hlt ⊢
  rw [if_pos hb] at hstatus hlt ⊢
  refine ⟨fun _ => ⟨j,b,hsaid⟩,fun he => ?_,fun hm => ?_,fun _ => ?_,fun hr => ?_,.inl hlow,
    fun hr => (h.promised ((hadd.promised hr).resolve_right (by simp))).trans hb⟩
  · exact absurd he.ge hlt
  · exact absurd ((show accepted ≤ .committed by decide).trans (h.mark hm).1) hst.not_ge
  · rcases hstatus with he | he
    · rw [he]
      decide
    · rw [he]
  · exact absurd (h.hasAccept ((hadd.acceptReplied hr).resolve_right (by simp))) hst.not_ge

theorem Holds.acceptMsg (hadd : s.Adds s' said (some (p,i,j,.accept b dep cmd,r,ρ)))
    (hst : d.ballot ≤ b → d.status < .committed) (hlow : b ≤ 1)
    (hsaid : s'.Said p i j (.accept b dep cmd)) (hown : j = own p → d.ballot ≤ b) :
    s'.Holds p i r m (d.accept b dep cmd) := by
  have hp : s'.Promised p i r → s.Promised p i r := fun hr =>
    (hadd.promised hr).resolve_right (by simp)
  unfold CopilotData.accept
  by_cases hb : d.ballot ≤ b
  · rw [if_pos hb]
    refine ⟨fun he => ?_,fun _ => ⟨j,b,hsaid⟩,fun hm => ?_,fun _ => ?_,fun _ => le_rfl,.inl hlow,
      fun hr => (h.promised (hp hr)).trans hb⟩
    · exact absurd he (show accepted.reduce ≠ .fastAcceptedEq by decide)
    · exact absurd (h.mark hm).1 (hst hb).not_ge
    · exact (show fastAccepted ≤ .accepted by decide)
  · rw [if_neg hb]
    refine h.mono hadd.ext (fun hr => ?_) (fun hr => ?_) hp
    · exact (hadd.fastReplied hr).resolve_right (by simp)
    · rcases hadd.acceptReplied hr with hold | ⟨_,_,_,_,heq⟩
      · exact hold
      · simp only [some.injEq,Prod.mk.injEq] at heq
        exact absurd (hown heq.2.2.1) hb

end

theorem prepare_carries (d : CopilotData C) (b : ℕ) : (d.prepare b).cmd = d.cmd ∧
    (d.prepare b).depId = d.depId ∧ (d.prepare b).status = d.status ∧
    (d.prepare b).ballot = max d.ballot b := by
  unfold prepare
  split_ifs with hb
  · exact ⟨rfl,rfl,rfl,(max_eq_right hb.le).symm⟩
  · exact ⟨rfl,rfl,rfl,(max_eq_left (not_lt.mp hb)).symm⟩

theorem Holds.prepare (h : s.Holds p i r m d)
    (hadd : s.Adds s' said (some (p,i,j,.prepare (takeoverBallot p),r,ρ)))
    (hsaid : s.Said p i j (.prepare (takeoverBallot p))) :
    s'.Holds p i r m (d.prepare (takeoverBallot p)) ∧
      (d.prepare (takeoverBallot p)).ballot = takeoverBallot p := by
  obtain ⟨hcmd,hdep,hst,hb⟩ := prepare_carries d (takeoverBallot p)
  have hball : (d.prepare (takeoverBallot p)).ballot = takeoverBallot p := by
    rw [hb]
    rcases h.ballot with hle | ⟨heq,-⟩
    · exact max_eq_right (hle.trans (one_lt_takeoverBallot p).le)
    · exact max_eq_right heq.le
  refine ⟨⟨fun hfa => ?_,fun hac => ?_,fun hm => ?_,fun hr => ?_,fun hr => ?_,
    .inr ⟨hball,hadd.ext.takenOver ⟨j,_,hsaid⟩⟩,fun _ => hball.ge⟩,hball⟩
  · rw [hcmd,hdep]
    exact hadd.ext.said_some (h.fast (hst ▸ hfa))
  · rw [hcmd,hdep]
    exact hadd.ext.said_some (h.accept (hst ▸ hac))
  · rw [hcmd,hdep,hst]
    obtain ⟨hle,site,hs⟩ := h.mark hm
    exact ⟨hle,site,hadd.ext.said hs⟩
  · rw [hst]
    exact h.hasFast ((hadd.fastReplied hr).resolve_right (by simp))
  · rw [hst]
    exact h.hasAccept ((hadd.acceptReplied hr).resolve_right (by simp))

theorem Holds.commit (h : s.Holds p i r m d)
    (hadd : s.Adds s' said (some (p,i,j,.commit d.depId cmd,r,ρ)))
    (hsaid : s.Said p i j (.commit d.depId cmd)) : s'.Holds p i r true (d.commit cmd) where
  fast he := absurd he (show committed.reduce ≠ .fastAcceptedEq by decide)
  accept he := absurd he (show committed ≠ .accepted by decide)
  mark _ := ⟨le_rfl,j,hadd.ext.said hsaid⟩
  hasFast _ := show fastAccepted ≤ .committed by decide
  hasAccept _ := show accepted ≤ .committed by decide
  ballot := h.ballot.imp_right fun ⟨hb,ht⟩ => ⟨hb,hadd.ext.takenOver ht⟩
  promised hr := h.promised ((hadd.promised hr).resolve_right (by simp))

end Holds

/-! ### What Prepare learns -/

structure Reported (s : Cluster C) (p : Bool) (i r : ℕ) (rep : PrepareReply C) : Prop where
  ballot : rep.maxBallot = takeoverBallot p
  fast : rep.status.reduce = .fastAcceptedEq →
    ∃ site b, s.Said p i site (.fastAccept b rep.dep (some rep.cmd))
  accept : rep.status = .accepted → ∃ site b, s.Said p i site (.accept b rep.dep (some rep.cmd))
  commit : .committed ≤ rep.status → ∃ site, s.Said p i site (.commit rep.dep (some rep.cmd))
  hasFast : s.FastReplied p i r → .fastAccepted ≤ rep.status
  hasAccept : s.AcceptReplied p i r → .accepted ≤ rep.status

theorem Reported.mono {rep : PrepareReply C} (h : s.Reported p i r rep) (hext : s.Extends s')
    (hf : s'.FastReplied p i r → s.FastReplied p i r)
    (ha : s'.AcceptReplied p i r → s.AcceptReplied p i r) : s'.Reported p i r rep where
  ballot := h.ballot
  fast hst := hext.said_some (h.fast hst)
  accept hst := hext.said_some (h.accept hst)
  commit hst := by
    obtain ⟨site,hs⟩ := h.commit hst
    exact ⟨site,hext.said hs⟩
  hasFast hr := h.hasFast (hf hr)
  hasAccept hr := h.hasAccept (ha hr)

def Solid (s : Cluster C) : Prop :=
  ∀ p i site m d cmd, s.Said p i site m → m.pair = some (d,cmd) → cmd ≠ none

theorem Holds.reported {m : Bool} {d : CopilotData C} (h : s.Holds p i r m d) (hsolid : s.Solid)
    (hb : d.ballot = takeoverBallot p) (hm : .committed ≤ d.status → m = true) :
    s.Reported p i r d.prepareReply := by
  have hcmd : ∀ {site : ℕ} {msg : Message C}, s.Said p i site msg →
      msg.pair = some (d.depId,d.cmd) → d.cmd = some d.prepareReply.cmd := by
    intro site msg hs hp
    obtain ⟨c,hc⟩ := ne_none_iff_exists'.mp (hsolid _ _ _ _ _ _ hs hp)
    simp [prepareReply,hc]
  refine ⟨hb,fun hst => ?_,fun hst => ?_,fun hst => ?_,h.hasFast,h.hasAccept⟩
  · obtain ⟨site,b,hs⟩ := h.fast hst
    rw [← hcmd hs rfl]
    exact ⟨site,b,hs⟩
  · obtain ⟨site,b,hs⟩ := h.accept hst
    rw [← hcmd hs rfl]
    exact ⟨site,b,hs⟩
  · obtain ⟨site,hs⟩ := (h.mark (hm hst)).2
    rw [← hcmd hs rfl]
    exact ⟨site,hs⟩

/-! ### What a takeover chooses -/

/-- A majority has promised, and the owner can decide no other pair without it: the pair is its
own, or the majority has replied to none of its Accepts, and either the pair is that of the
FastAccept or too few have replied to it for a fast quorum. -/
def Chosen (n : ℕ) (s : Cluster C) (p : Bool) (i d : ℕ) (cmd : Option (Command C)) : Prop :=
  ∃ P : Finset ℕ, (∀ r ∈ P, r < n ∧ s.Promised p i r) ∧ quorumSize n ≤ P.card ∧
    ((∃ b, s.Said p i (own p) (.accept b d cmd)) ∨
      ((∃ site b, s.Said p i site (.fastAccept b d cmd)) ∨
        ∃ Q ⊆ P, (∀ r ∈ P, s.FastReplied p i r → r ∈ Q) ∧
          Q.card+(n-P.card) < max 1 (fastQuorumSize n)) ∧
      ∀ r ∈ P, ¬s.AcceptReplied p i r)

def Frozen (s s' : Cluster C) : Prop :=
  ∀ p i r, s.Promised p i r → (s'.FastReplied p i r → s.FastReplied p i r) ∧
    (s'.AcceptReplied p i r → s.AcceptReplied p i r)

theorem Chosen.mono (h : s.Chosen n p i d cmd)
    (hext : s.Extends s') (hfrozen : s.Frozen s') : s'.Chosen n p i d cmd := by
  obtain ⟨P,hP,hcard,hcase⟩ := h
  refine ⟨P,fun r hr => ⟨(hP r hr).1,hext.promised (hP r hr).2⟩,hcard,?_⟩
  rcases hcase with ⟨b,hs⟩ | ⟨hfast,hno⟩
  · exact .inl ⟨b,hext.said hs⟩
  refine .inr ⟨?_,fun r hr ha => hno r hr ((hfrozen p i r (hP r hr).2).2 ha)⟩
  rcases hfast with hs | ⟨Q,hQ,hmem,hlt⟩
  · exact .inl (hext.said_some hs)
  · exact .inr ⟨Q,hQ,fun r hr hf => hmem r hr ((hfrozen p i r (hP r hr).2).1 hf),hlt⟩

def Quorate (n : ℕ) (s : Cluster C) (x : Coord C) : Prop :=
  ∃ A : Finset ℕ, (∀ r ∈ A, r < n) ∧
    (max 1 (fastQuorumSize n) ≤ A.card ∧
        (∀ r ∈ A, ∃ ρ, s.Replied x.isPilot x.slot x.site (.fastAccept x.ballot x.dep x.cmd) r ρ) ∨
      quorumSize n ≤ A.card ∧
        ∀ r ∈ A, ∃ ρ, s.Replied x.isPilot x.slot x.site (.accept x.ballot x.dep x.cmd) r ρ)

theorem Quorate.mono (h : s.Quorate n x) (hext : s.Extends s') : s'.Quorate n x := by
  obtain ⟨A,hA,hcase⟩ := h
  refine ⟨A,hA,hcase.imp (fun ⟨hc,hr⟩ => ⟨hc,fun r hrA => ?_⟩) fun ⟨hc,hr⟩ => ⟨hc,fun r hrA => ?_⟩⟩
  · obtain ⟨ρ,h⟩ := hr r hrA
    exact ⟨ρ,hext.replied h⟩
  · obtain ⟨ρ,h⟩ := hr r hrA
    exact ⟨ρ,hext.replied h⟩

theorem Wf.quorate {y : Coord C} (hwf : s.Wf n) (hx : s.coords c = some x)
    (h : Commits n s x y) : s.Quorate n y := by
  obtain ⟨⟨k,e,hk,hph⟩,hsite,hslot,hdep,hballot,hcmd⟩ := h
  have hpl := hwf.placed c x hx
  have hfed := hwf.fed k e hk
  have hpilot : y.isPilot = x.isPilot := by
    unfold Coord.isPilot
    rw [hsite]
  unfold Quorate
  rw [hpilot,hsite,hslot,hdep,hballot,hcmd]
  unfold Placed at hpl
  rcases hph with ⟨hph,hyes⟩ | ⟨hph,hlen⟩
  · rw [hph] at hpl
    obtain ⟨e',he',hfor⟩ := hpl
    cases hk.symm.trans he'
    obtain ⟨A,hcard,hA⟩ := hfed.fastQuorum hfor.msg hyes
    exact ⟨A,fun r hr => (hA r hr).1,.inl ⟨hcard,fun r hr => ⟨_,k,e,hk,hfor,(hA r hr).2⟩⟩⟩
  · rw [hph] at hpl
    obtain ⟨e',he',hfor⟩ := hpl
    cases hk.symm.trans he'
    obtain ⟨A,hcard,hA⟩ := hfed.answerers
    refine ⟨A,fun r hr => (hA r hr).1,.inr ⟨hcard ▸ hlen,fun r hr => ?_⟩⟩
    obtain ⟨ρ,hρ⟩ := (hA r hr).2
    exact ⟨ρ,k,e,hk,hfor,hρ⟩

theorem quorate_step (hwf : s.Wf n)
    (hq : ∀ c x, s.coords c = some x → x.Decided → s.Quorate n x) (h : Stepped n s a s')
    (hext : s.Extends s') (c : ℕ) (y : Coord C) (hy : s'.coords c = some y) (hdec : y.Decided) :
    s'.Quorate n y := by
  obtain ⟨x,hx,rfl | ⟨hev,hxdec | hcom⟩⟩ := h.decides hy hdec
  · exact (hq c x hx hdec).mono hext
  · have hq := (hq c x hx hxdec).mono hext
    unfold Quorate at hq ⊢
    rwa [hev.isPilot,hev.slot,hev.site,hev.ballot,hev.dep hxdec.not_proposing,hev.cmd]
  · exact (hwf.quorate hx hcom).mono hext

/-- What the owner has decided is what a takeover chooses. -/
theorem Chosen.agrees (hn : Odd n) (hwf : s.Wf n) (hx : s.coords c = some x) (hq : s.Quorate n x)
    (h : s.Chosen n x.isPilot x.slot d cmd) : d = x.dep ∧ cmd = x.cmd := by
  obtain ⟨P,hP,hcard,⟨b,hs⟩ | ⟨hfast,hno⟩⟩ := h
  · -- the pair is that of the owner's Accept
    obtain ⟨-,y,hy,hcmd,hdep,-⟩ := hwf.said hs rfl
    obtain rfl := hwf.owns_unique hy ⟨c,hx,rfl,rfl⟩
    exact ⟨hdep,hcmd⟩
  obtain ⟨A,hA,⟨hAcard,hrep⟩ | ⟨hAcard,hrep⟩⟩ := hq
  · have hne : A.Nonempty := card_pos.mp (by omega)
    obtain ⟨r₀,hr₀⟩ := hne
    rcases hfast with ⟨site,b,hs⟩ | ⟨Q,hQ,hmem,hlt⟩
    · -- there is only one FastAccept
      obtain ⟨ρ,hρ⟩ := hrep r₀ hr₀
      refine ⟨hwf.fastAccept _ _ _ _ _ _ _ _ _ _ hs hρ.said,?_⟩
      obtain ⟨-,-,y,hy,hcmd,-⟩ := hwf.said hs
      obtain rfl := hwf.owns_unique hy ⟨c,hx,rfl,rfl⟩
      exact hcmd
    · -- too few replicas for a fast quorum
      exfalso
      have hsub : A ⊆ Q ∪ (range n \ P) := by
        intro r hr
        by_cases hrP : r ∈ P
        · obtain ⟨ρ,hρ⟩ := hrep r hr
          exact mem_union_left _ (hmem r hrP ⟨_,_,_,_,ρ,hρ⟩)
        · exact Finset.mem_union_right _ (Finset.mem_sdiff.mpr ⟨Finset.mem_range.mpr (hA r hr),hrP⟩)
      have hPn : P ⊆ Finset.range n := fun r hr => Finset.mem_range.mpr (hP r hr).1
      have hle := (Finset.card_le_card hsub).trans (Finset.card_union_le _ _)
      rw [card_sdiff_of_subset hPn,card_range] at hle
      omega
  · exfalso
    obtain ⟨f,rfl⟩ := hn
    obtain ⟨r,hrA,hrP⟩ := exists_common hA (fun r hr => (hP r hr).1) (show 2*f+1 < A.card+P.card by
      unfold quorumSize maxFailure at hAcard hcard
      omega)
    obtain ⟨ρ,hρ⟩ := hrep r hrA
    rw [hwf.site_eq hx] at hρ
    exact hno r hrP ⟨_,_,_,ρ,hρ⟩

theorem chosen_of_prepared {dep : ℕ} {ins : CopilotData C} (hfed : e.Fed n)
    (hrep : ∀ a ∈ e.oks b, s.Promised p i a.1 ∧ s.Reported p i a.1 a.2)
    (hready : quorumSize n ≤ (e.oks b).length)
    (hforeign : s.Unclaimed p i)
    (hchoice : prepareChoice n ((e.oks b).map Prod.snd) (some ins) = .accept cmd dep)
    (hown : let cmds := getCmds ((e.oks b).map Prod.snd)
      cmds .committed = [] → cmds .accepted = [] →
        (maxFail n+1)/2 ≤ (cmds .fastAcceptedEq).length →
          (cmds .fastAcceptedEq).length < maxFail n → ∀ a ∈ cmds .fastAcceptedEq,
            ins.cmd = some a.cmd ∧ ins.depId = a.dep) : s.Chosen n p i dep cmd := by
  obtain ⟨-,hcom,hcase⟩ := prepareChoice_accept hchoice
  set cmds := getCmds ((e.oks b).map Prod.snd)
  set fast := (e.oks b).filter fun a => a.2.status.reduce = .fastAcceptedEq
  have hnodup : ((e.oks b).map Prod.fst).Nodup := hfed.oks_nodup
  have hmem : ∀ {r}, r ∈ ((e.oks b).map Prod.fst).toFinset → ∃ rep, (r,rep) ∈ e.oks b := by
    intro r hr
    obtain ⟨a,ha,rfl⟩ := mem_map.mp (mem_toFinset.mp hr)
    exact ⟨a.2,ha⟩
  have hget : ∀ {a st}, a ∈ cmds st → ∃ r, (r,a) ∈ e.oks b ∧ a.status.reduce = st := by
    intro a st ha
    obtain ⟨ha,hst⟩ := mem_getCmds.mp ha
    obtain ⟨x,hx,rfl⟩ := mem_map.mp ha
    exact ⟨x.1,hx,hst⟩
  have hput : ∀ {r rep st}, (r,rep) ∈ e.oks b → rep.status.reduce = st → rep ∈ cmds st :=
    fun hr hst => mem_getCmds.mpr ⟨mem_map.mpr ⟨_,hr,rfl⟩,hst⟩
  refine ⟨((e.oks b).map Prod.fst).toFinset,fun r hr => ?_,?_,?_⟩
  · obtain ⟨rep,ha⟩ := hmem hr
    obtain ⟨hans,-⟩ := Cast.mem_oks ha
    exact ⟨hfed.bound r (hfed.sent r hans),(hrep _ ha).1⟩
  · rwa [toFinset_card_of_nodup hnodup,length_map]
  rcases hcase with ⟨a,ha,rfl,rfl⟩ | ⟨hacc,hcase⟩
  · -- an accepted answer: its Accept is the owner's
    obtain ⟨r,hr,hst⟩ := hget ha
    obtain ⟨site,b',hs⟩ := (hrep _ hr).2.accept (reduce_eq_accepted.mp hst)
    have hsite : site = own p := by
      by_contra hne
      exact absurd (hforeign _ _ hne hs) (by simp [Message.pair])
    exact .inl ⟨b',hsite ▸ hs⟩
  have hlow : ∀ {r rep}, (r,rep) ∈ e.oks b → rep.status < .accepted := by
    intro r rep hr
    by_contra hge
    rcases (not_lt.mp hge).eq_or_lt with heq | hlt
    · have := hput hr (reduce_eq_accepted.mpr heq.symm)
      rw [hacc] at this
      cases this
    · have hle : committed ≤ rep.status := by
        generalize rep.status = st at hlt
        cases st <;> revert hlt <;> decide
      have := hput hr (reduce_of_committed hle)
      rw [hcom] at this
      cases this
  refine .inr ⟨?_,fun r hr har => ?_⟩
  · have hpair : ∀ {a}, a ∈ cmds .fastAcceptedEq → cmd = some a.cmd → dep = a.dep →
        ∃ site b, s.Said p i site (.fastAccept b dep cmd) := by
      intro a ha hc hd
      obtain ⟨r,hr,hst⟩ := hget ha
      rw [hc,hd]
      exact (hrep _ hr).2.fast hst
    rcases hcase with ⟨a,ha,hc,hd⟩ | ⟨⟨a,ha⟩,hlo,hhi,hc,hd⟩ | hfew
    · exact .inl (hpair ha hc hd)
    · obtain ⟨hc',hd'⟩ := hown hcom hacc hlo hhi a ha
      exact .inl (hpair ha (hc.trans hc') (hd.trans hd'))
    · -- the replicas that have replied to the FastAccept are behind the fast-accepted answers
      refine .inr ⟨(fast.map Prod.fst).toFinset,fun r hr => ?_,fun r hr hf => ?_,?_⟩
      · obtain ⟨a,ha,rfl⟩ := mem_map.mp (mem_toFinset.mp hr)
        exact mem_toFinset.mpr (mem_map.mpr ⟨a,(mem_filter.mp ha).1,rfl⟩)
      · obtain ⟨rep,ha⟩ := hmem hr
        have hst := reduce_eq_fast.mpr ⟨(hrep _ ha).2.hasFast hf,hlow ha⟩
        exact mem_toFinset.mpr (mem_map.mpr ⟨_,mem_filter.mpr ⟨ha,decide_eq_true hst⟩,rfl⟩)
      · have hlen : (cmds .fastAcceptedEq).length = fast.length := by
          unfold cmds getCmds
          rw [List.filter_map,length_map]
          rfl
        have hQ : (fast.map Prod.fst).toFinset.card ≤ (cmds .fastAcceptedEq).length := by
          rw [hlen]
          exact (toFinset_card_le _).trans (length_map _).le
        rw [toFinset_card_of_nodup hnodup,length_map]
        unfold fastQuorumSize maxFailure
        unfold quorumSize maxFailure at hready
        unfold maxFail at hfew
        omega
  · obtain ⟨rep,ha⟩ := hmem hr
    exact absurd ((hrep _ ha).2.hasAccept har) (hlow ha).not_ge

/-! ### Takeovers -/

def Backed (s : Cluster C) (p : Bool) (i d : ℕ) (cmd : Option (Command C)) : Prop :=
  (∃ site b, site ≠ own p ∧ s.Said p i site (.accept b d cmd)) ∨ s.Said p i (own p) (.commit d cmd)

theorem Backed.extends (h : s.Backed p i d cmd) (hext : s.Extends s') : s'.Backed p i d cmd := by
  rcases h with ⟨site,b,hne,hs⟩ | hs
  · exact .inl ⟨site,b,hne,hext.said hs⟩
  · exact .inr (hext.said hs)

/-- A slot is taken over by one coordinator, which broadcasts one Accept for it at most. -/
structure Takeovers (s : Cluster C) : Prop where
  unique : ∀ c c' x y i, s.coords c = some x → s.coords c' = some y → x.isPilot = y.isPilot →
    x.Taking i → y.Taking i → c = c'
  prepare : ∀ c x i b k, s.coords c = some x → x.phase = .prepare i b k → b ≤ 1 ∧
    s.Unclaimed (!x.isPilot) i
  begun : ∀ c x i, s.coords c = some x → x.Taking i → s.TakenOver (!x.isPilot) i
  foreign : ∀ p i site m, site ≠ own p → s.Said p i site m → s.TakenOver p i
  ballot : ∀ p i site b, s.Said p i site (.prepare b) → b = takeoverBallot p
  low : ∀ p i site b d cmd, site ≠ own p → s.Said p i site (.accept b d cmd) → b ≤ 1
  accept : ∀ p i site site' b b' d d' cmd cmd', site ≠ own p → site' ≠ own p →
    s.Said p i site (.accept b d cmd) → s.Said p i site' (.accept b' d' cmd') → d = d' ∧ cmd = cmd'
  commit : ∀ p i site d cmd, site ≠ own p → s.Said p i site (.commit d cmd) → s.Backed p i d cmd

section Takeovers

/-- The coordinators that take over stay where they are, and the owner of a slot broadcasts. -/
theorem Takeovers.mono (h : s.Takeovers) (hadd : s.Adds s' said rep)
    (hcoords : ∀ c x i, s'.coords c = some x → x.Taking i → s.coords c = some x)
    (hsaid : ∀ p i site m, said = some (p,i,site,m) → site = own p ∧ m.pair ≠ none) :
    s'.Takeovers := by
  have hold : ∀ {p i site m}, s'.Said p i site m → site ≠ own p ∨ m.pair = none →
      s.Said p i site m := by
    intro p i site m hs hne
    rcases hadd.said _ _ _ _ hs with hs | hs
    · exact hs
    · obtain ⟨hsite,hpair⟩ := hsaid _ _ _ _ hs
      rcases hne with hne | hne
      · exact absurd hsite hne
      · exact absurd hne hpair
  refine ⟨fun c c' x y i hx hy hp hxi hyi => ?_,fun c x i b k hx hph => ?_,fun c x i hx hxi => ?_,
    fun p i site m hne hs => ?_,fun p i site b hs => ?_,fun p i site b d cmd hne hs => ?_,
    fun p i site site' b b' d d' cmd cmd' hne hne' hs hs' => ?_,fun p i site d cmd hne hs => ?_⟩
  · exact h.unique c c' x y i (hcoords c x i hx hxi) (hcoords c' y i hy hyi) hp hxi hyi
  · obtain ⟨hb,hno⟩ := h.prepare c x i b k (hcoords c x i hx (.inl ⟨b,k,hph⟩)) hph
    exact ⟨hb,fun site m hne hs => hno site m hne (hold hs (.inl hne))⟩
  · exact hadd.ext.takenOver (h.begun c x i (hcoords c x i hx hxi) hxi)
  · exact hadd.ext.takenOver (h.foreign p i site m hne (hold hs (.inl hne)))
  · exact h.ballot p i site b (hold hs (.inr rfl))
  · exact h.low p i site b d cmd hne (hold hs (.inl hne))
  · exact h.accept p i site site' b b' d d' cmd cmd' hne hne' (hold hs (.inl hne))
      (hold hs' (.inl hne'))
  · exact (h.commit p i site d cmd hne (hold hs (.inl hne))).extends hadd.ext

variable {c j : ℕ} {x y : Coord C} {m : Message C}

/-- A coordinator that takes over broadcasts: what is left to check is the message itself. -/
theorem Takeovers.taken {q : Bool} (h : s.Takeovers)
    (hadd : s.Adds s' (some (!q,j,x.site,m)) rep) (hy : y.isPilot = q)
    (hcoords : ∀ a, s'.coords a = if a = c then some y else s.coords a)
    (hstart : (∀ z c', s.coords c' = some z → z.isPilot = q → z.Taking j → c' = c) ∧
      s'.TakenOver (!q) j)
    (hkeep : ∀ i, y.Taking i → i = j)
    (hprep : ∀ b k, y.phase = .prepare j b k → b ≤ 1 ∧ m.pair = none ∧ s.Unclaimed (!q) j)
    (hballot : ∀ b, m = .prepare b → b = takeoverBallot (!q))
    (hlow : ∀ b d cmd, m = .accept b d cmd → b ≤ 1 ∧ s.Unclaimed (!q) j)
    (hcommit : ∀ d cmd, m = .commit d cmd → s.Backed (!q) j d cmd) : s'.Takeovers := by
  have hsaid : ∀ {p i site m'}, s'.Said p i site m' → s.Said p i site m' ∨
      p = (!q) ∧ i = j ∧ m' = m := by
    intro p i site m' hs
    rcases hadd.said _ _ _ _ hs with hs | hs
    · exact .inl hs
    · cases hs
      exact .inr ⟨rfl,rfl,rfl⟩
  have hcold : ∀ {a z}, s'.coords a = some z → a = c ∧ z = y ∨ a ≠ c ∧ s.coords a = some z := by
    intro a z hz
    rw [hcoords] at hz
    split_ifs at hz with ha
    · exact .inl ⟨ha,(some.inj hz).symm⟩
    · exact .inr ⟨ha,hz⟩
  refine ⟨fun a a' z w i hz hw hp hzi hwi => ?_,fun a z i b k hz hph => ?_,fun a z i hz hzi => ?_,
    fun p i site m' hne hs => ?_,fun p i site b hs => ?_,fun p i site b d cmd hne hs => ?_,
    fun p i site site' b b' d d' cmd cmd' hne hne' hs hs' => ?_,fun p i site d cmd hne hs => ?_⟩
  · rcases hcold hz with ⟨rfl,rfl⟩ | ⟨hac,hz⟩ <;> rcases hcold hw with ⟨rfl,rfl⟩ | ⟨hac',hw⟩
    · rfl
    · obtain rfl := hkeep i hzi
      exact absurd (hstart.1 w a' hw (hp.symm.trans hy) hwi) hac'
    · obtain rfl := hkeep i hwi
      exact absurd (hstart.1 z a hz (hp.trans hy) hzi) hac
    · exact h.unique a a' z w i hz hw hp hzi hwi
  · rcases hcold hz with ⟨rfl,rfl⟩ | ⟨hac,hz⟩
    · obtain rfl := hkeep i (.inl ⟨b,k,hph⟩)
      obtain ⟨hb,hm,hno⟩ := hprep b k hph
      rw [hy]
      refine ⟨hb,fun site m' hne hs => ?_⟩
      rcases hsaid hs with hs | ⟨-,-,rfl⟩
      · exact hno site m' hne hs
      · exact hm
    · obtain ⟨hb,hno⟩ := h.prepare a z i b k hz hph
      refine ⟨hb,fun site m' hne hs => ?_⟩
      rcases hsaid hs with hs | ⟨hp,rfl,-⟩
      · exact hno site m' hne hs
      · exact absurd (hstart.1 z a hz (Bool.not_inj hp) (.inl ⟨b,k,hph⟩)) hac
  · rcases hcold hz with ⟨rfl,rfl⟩ | ⟨hac,hz⟩
    · obtain rfl := hkeep i hzi
      rw [hy]
      exact hstart.2
    · exact hadd.ext.takenOver (h.begun a z i hz hzi)
  · rcases hsaid hs with hs | ⟨rfl,rfl,-⟩
    · exact hadd.ext.takenOver (h.foreign p i site m' hne hs)
    · exact hstart.2
  · rcases hsaid hs with hs | ⟨rfl,rfl,hm⟩
    · exact h.ballot p i site b hs
    · exact hballot b hm.symm
  · rcases hsaid hs with hs | ⟨rfl,rfl,hm⟩
    · exact h.low p i site b d cmd hne hs
    · exact (hlow b d cmd hm.symm).1
  · have hnone : ∀ {site b d cmd b' d' cmd'}, site ≠ own (!q) →
        s.Said (!q) j site (.accept b d cmd) → m ≠ .accept b' d' cmd' := by
      intro site b d cmd b' d' cmd' hne hs hm
      exact absurd ((hlow b' d' cmd' hm).2 site _ hne hs) (by simp [Message.pair])
    rcases hsaid hs with hs | ⟨rfl,rfl,hm⟩ <;> rcases hsaid hs' with hs' | ⟨hp,hi,hm'⟩
    · exact h.accept p i site site' b b' d d' cmd cmd' hne hne' hs hs'
    · subst hp hi
      exact absurd hm'.symm (hnone hne hs)
    · exact absurd hm.symm (hnone hne' hs')
    · cases hm.trans hm'.symm
      exact ⟨rfl,rfl⟩
  · rcases hsaid hs with hs | ⟨rfl,rfl,hm⟩
    · exact (h.commit p i site d cmd hne hs).extends hadd.ext
    · exact (hcommit d cmd hm.symm).extends hadd.ext

end Takeovers

/-! ### Runs -/

def Held (s : Cluster C) : Prop :=
  ∀ r p i, ¬(s.server r).Freed p i → s.Holds p i r (s.marked r p i) ((s.server r).ins p i)

structure Safe (n : ℕ) (s : Cluster C) : Prop where
  regular : s.Regular n
  quorate : ∀ c x, s.coords c = some x → x.Decided → s.Quorate n x
  solid : s.Solid
  held : s.Held
  reported : ∀ p i site b r rep, s.Replied p i site (.prepare b) r (.prepared rep) →
    s.Reported p i r rep
  takeovers : s.Takeovers
  chosen : ∀ p i site b d cmd, site ≠ own p → s.Said p i site (.accept b d cmd) →
    s.Chosen n p i d cmd

structure Advances (n : ℕ) (s s' : Cluster C) (said : Option (Saying C)) (rep : Option (Replying C)) :
    Prop where
  adds : s.Adds s' said rep
  frozen : s.Frozen s'
  solid : ∀ p i site m d cmd, said = some (p,i,site,m) → m.pair = some (d,cmd) → cmd ≠ none
  held : s'.Held
  reported : ∀ p i site b r a, rep = some (p,i,site,.prepare b,r,.prepared a) → s'.Reported p i r a
  takeovers : s'.Takeovers
  chosen : ∀ p i site b d cmd, said = some (p,i,site,.accept b d cmd) → site ≠ own p →
    s.Chosen n p i d cmd

def FromOwner (said : Option (Saying C)) : Prop :=
  ∀ p i site m, said = some (p,i,site,m) → site = own p ∧ m.pair ≠ none ∧
    ∀ d cmd, m.pair = some (d,cmd) → cmd ≠ none

section Steps

variable {d : CopilotData C}

theorem Safe.next {a : Action C} (hs : s.Safe n) (h : Stepped n s a s')
    (hadv : s.Advances n s' said rep) : s'.Safe n := by
  have hext := hadv.adds.ext
  refine ⟨hs.regular.step h,quorate_step hs.regular.wf hs.quorate h hext,
    fun p i site m d cmd hsaid hp => ?_,hadv.held,fun p i site b r a hrep => ?_,hadv.takeovers,
    fun p i site b d cmd hne hsaid => ?_⟩
  · rcases hadv.adds.said _ _ _ _ hsaid with hold | hnew
    · exact hs.solid p i site m d cmd hold hp
    · exact hadv.solid p i site m d cmd hnew hp
  · rcases hadv.adds.replied _ _ _ _ _ _ hrep with hold | hnew
    · have hfrozen := hadv.frozen p i r ⟨site,b,_,hold⟩
      exact (hs.reported p i site b r a hold).mono hext hfrozen.1 hfrozen.2
    · exact hadv.reported p i site b r a hnew
  · rcases hadv.adds.said _ _ _ _ hsaid with hold | hnew
    · exact (hs.chosen p i site b d cmd hne hold).mono hext hadv.frozen
    · exact (hadv.chosen p i site b d cmd hnew hne).mono hext hadv.frozen

theorem Adds.frozen (h : s.Adds s' said rep)
    (hf : ∀ p i site b d cmd r ρ, rep = some (p,i,site,.fastAccept b d cmd,r,ρ) → ¬s.Promised p i r)
    (ha : ∀ p i b d cmd r ρ, rep = some (p,i,own p,.accept b d cmd,r,ρ) → ¬s.Promised p i r) :
    s.Frozen s' := by
  refine fun p i r hpr => ⟨fun hr => ?_,fun hr => ?_⟩
  · rcases h.fastReplied hr with hold | ⟨site,b,d,cmd,ρ,hnew⟩
    · exact hold
    · exact absurd hpr (hf p i site b d cmd r ρ hnew)
  · rcases h.acceptReplied hr with hold | ⟨b,d,cmd,ρ,hnew⟩
    · exact hold
    · exact absurd hpr (ha p i b d cmd r ρ hnew)

theorem Holds.not_promised {m : Bool} {b : ℕ} (h : s.Holds p i r m d) (hb : d.ballot ≤ b)
    (hlow : b ≤ 1) : ¬s.Promised p i r := by
  intro hr
  have := h.promised hr
  have := one_lt_takeoverBallot p
  omega

theorem Safe.held_keeps (hs : s.Safe n) (hadd : s.Adds s' said none)
    (hkeeps : ∀ r, (s.server r).Keeps (s'.server r)) (hmarked : ∀ r, s'.marked r = s.marked r) :
    s'.Held := by
  intro r p i hf
  rw [hmarked]
  exact ((hs.held r p i fun hfr => hf ((hkeeps r).freed hfr)).carries
    ((hkeeps r).held p i hf)).silent hadd nofun

theorem Safe.held_updates {q : Bool} {j a site : ℕ} {m : Message C} {ρ : Reply C}
    {v : CopilotServer C} (hs : s.Safe n) (hadd : s.Adds s' said (some (q,j,site,m,a,ρ)))
    (hv : (s.server a).Updates v q j d)
    (hserver : ∀ r, s'.server r = if r = a then v else s.server r)
    (hmarked : ∀ r p i, ¬(r = a ∧ p = q ∧ i = j) → s'.marked r p i = s.marked r p i)
    (hself : ¬(s.server a).Freed q j → s'.Holds q j a (s'.marked a q j) d) : s'.Held := by
  intro r p i hf
  by_cases heq : r = a ∧ p = q ∧ i = j
  · obtain ⟨rfl,rfl,rfl⟩ := heq
    rw [hserver,if_pos rfl] at hf ⊢
    rw [hv.self]
    exact hself ((hv.freed _ _).not.mp hf)
  · obtain ⟨hins,hfreed⟩ := ins_elsewhere hv hserver heq
    rw [hmarked r p i heq,hins]
    refine (hs.held r p i (hfreed.not.mp hf)).silent hadd ?_
    rintro _ _ _ ⟨⟩
    exact absurd ⟨rfl,rfl,rfl⟩ heq

theorem Safe.advances_owner (hs : s.Safe n) (hadd : s.Adds s' said rep) (hfrozen : s.Frozen s')
    (hsaid : FromOwner said)
    (hcoords : ∀ c x i, s'.coords c = some x → x.Taking i → s.coords c = some x)
    (hheld : s'.Held)
    (hreported : ∀ p i site b r a, rep = some (p,i,site,.prepare b,r,.prepared a) →
      s'.Reported p i r a) : s.Advances n s' said rep where
  adds := hadd
  frozen := hfrozen
  solid p i site m d cmd h := (hsaid p i site m h).2.2 d cmd
  held := hheld
  reported := hreported
  takeovers := hs.takeovers.mono hadd hcoords fun p i site m h =>
    ⟨(hsaid p i site m h).1,(hsaid p i site m h).2.1⟩
  chosen p i site _ _ _ h hne := absurd (hsaid p i site _ h).1 hne

theorem Safe.advances_quiet (hs : s.Safe n) (hadd : s.Adds s' said none)
    (hsaid : FromOwner said)
    (hcoords : ∀ c x i, s'.coords c = some x → x.Taking i → s.coords c = some x)
    (hkeeps : ∀ r, (s.server r).Keeps (s'.server r)) (hmarked : ∀ r, s'.marked r = s.marked r) :
    s.Advances n s' said none :=
  hs.advances_owner hadd (hadd.frozen nofun nofun) hsaid hcoords (hs.held_keeps hadd hkeeps hmarked)
    nofun

end Steps

theorem Safe.submit {a : C} (hs : s.Safe n) (h : Stepped n s (.submit site a) s') :
    ∃ said rep, s.Advances n s' said rep := by
  cases h with
  | @submit _ _ sug v hsite hpilot hrun hf hv hseen =>
    set p := pilotLog site
    set i := ((s.server site).logInfos p).currentSlot+1
    set dep := ((s.server site).logInfos !p).currentSlot
    have hadd : s.Adds (((s.setServer site v).postLocal
        (.fresh site p i (.fastAccept (makeUniqueBallot site 0) dep (some (.op a)))) (.dep dep)).addCoord
          ⟨site,i,dep,makeUniqueBallot site 0,some (.op a),.fastAccept s.nextCast⟩) _ _ :=
      hs.regular.wf.adds_local ((s.setServer site v).casts_post _)
    have hown : site = own p := (own_pilotLog hpilot).symm
    obtain ⟨hb,hst,-⟩ := (hs.regular.sound site).unseen p i hf (Nat.lt_succ_self _)
    have hheld := hs.held site p i hf
    have hlow : makeUniqueBallot site 0 ≤ 1 := by
      rw [makeUniqueBallot_zero]
      omega
    have hzero : ((s.server site).ins p i).ballot ≤ makeUniqueBallot site 0 :=
      hb.le.trans (Nat.zero_le _)
    refine ⟨_,_,hs.advances_owner hadd (hadd.frozen ?_ (by simp)) ?_ (fun c x j hx hj => ?_)
      (hs.held_updates hadd hv (by simp [postLocal]) (by simp [postLocal]) fun _ => ?_) (by simp)⟩
    · rintro _ _ _ _ _ _ _ _ ⟨⟩
      exact hheld.not_promised hzero hlow
    · rintro _ _ _ _ ⟨⟩
      refine ⟨hown,by simp [Message.pair],fun d cmd hp => ?_⟩
      cases hp
      simp
    · rw [coords_addCoord] at hx
      split_ifs at hx
      · cases hx
        rcases hj with ⟨_,_,hph⟩ | ⟨_,_,_,hph⟩ <;> cases hph
      · exact hx
    · simp only [marked_addCoord,postLocal,marked_post,marked_setServer]
      refine hheld.fastAccept hadd hzero (hst ▸ by decide) hlow ?_
      exact ⟨s.nextCast,_,((s.setServer site v).casts_post _ _).trans (if_pos rfl),rfl,rfl,rfl,rfl⟩

theorem Wf.justified_fastAccept (hwf : s.Wf n)
    (hk : s.casts k = some e) (hm : e.msg = .fastAccept b d cmd) :
    e.site = own e.isPilot ∧ b ≤ 1 := by
  have hj := hwf.justified k e hk
  unfold Justified at hj
  rw [hm] at hj
  have := own_lt e.isPilot
  exact ⟨hj.1,by omega⟩

/-- The ballots of Accept are low: a takeover uses the ballot that it has found. -/
theorem Safe.accept_low (hs : s.Safe n)
    (hk : s.casts k = some e) (hm : e.msg = .accept b d cmd) : b ≤ 1 := by
  by_cases hsite : e.site = own e.isPilot
  · have hj := hs.regular.wf.justified k e hk
    unfold Justified at hj
    rw [hm] at hj
    have := own_lt e.isPilot
    omega
  · exact hs.takeovers.low _ _ _ b d cmd hsite ⟨k,e,hk,rfl,rfl,rfl,hm⟩

theorem Safe.advances_reply {site : ℕ} {d : CopilotData C} {m : Message C} {ρ : Reply C}
    {v : CopilotServer C}
    (hs : s.Safe n) (hadd : s.Adds s' none (some (p,i,site,m,r,ρ))) (hcoords : s'.coords = s.coords)
    (hv : (s.server r).Updates v p i d) (hserver : ∀ a, s'.server a = if a = r then v else s.server a)
    (hmarked : ∀ a q j, ¬(a = r ∧ q = p ∧ j = i) → s'.marked a q j = s.marked a q j)
    (hfast : ∀ b d cmd, m = .fastAccept b d cmd → ¬s.Promised p i r)
    (haccept : ∀ b d cmd, m = .accept b d cmd → site = own p → ¬s.Promised p i r)
    (hself : ¬(s.server r).Freed p i → s'.Holds p i r (s'.marked r p i) d)
    (hreported : ∀ b a, m = .prepare b → ρ = .prepared a → s'.Reported p i r a) :
    ∃ said rep, s.Advances n s' said rep := by
  refine ⟨_,_,hs.advances_owner hadd (hadd.frozen ?_ fun p' i' b d cmd r' ρ' heq => ?_) nofun
    (fun c x j hx _ => hcoords ▸ hx) (hs.held_updates hadd hv hserver hmarked hself) ?_⟩
  · rintro _ _ _ b d cmd _ _ ⟨⟩
    exact hfast b d cmd rfl
  · simp only [some.injEq,Prod.mk.injEq] at heq
    obtain ⟨rfl,rfl,hsite,hm,rfl,-⟩ := heq
    exact haccept b d cmd hm hsite
  · rintro _ _ _ b _ a ⟨⟩
    exact hreported b a rfl rfl

section Receive

variable {r : ℕ} {v : CopilotServer C} (hs : s.Safe n) (hk : s.casts k = some e)
  (hnew : e.replies r = none) (hadm : s.Admits r e)
include hs hk hnew hadm

theorem Safe.receives_fastAccept {sug : ℕ} (hm : e.msg = .fastAccept b dep cmd)
    (hf : ¬(s.server r).Freed e.isPilot e.slot) (hv : (s.server r).Updates v e.isPilot e.slot
      (((s.server r).ins e.isPilot e.slot).fastAccept b dep cmd sug)) :
    ∃ said rep, s.Advances n ((s.setServer r v).setReply k e r (.dep sug)) said rep := by
  have hadd := adds_reply hk hnew (casts_setReply (e:=e) (r:=r) (s.setServer r v) k (.dep sug))
  unfold Admits at hadm
  rw [hm] at hadm hadd
  have hlow := (hs.regular.wf.justified_fastAccept hk hm).2
  have hheld := hs.held r _ _ hf
  refine hs.advances_reply hadd rfl hv (by simp) (by simp) (fun _ _ _ _ => ?_) nofun (fun _ => ?_) nofun
  · exact hheld.not_promised hadm.1 hlow
  · rw [marked_setReply,marked_setServer]
    exact hheld.fastAccept hadd hadm.1 hadm.2 hlow (hadd.ext.said ⟨k,e,hk,rfl,rfl,rfl,hm⟩)

theorem Safe.receives_accept (hm : e.msg = .accept b dep cmd)
    (hf : ¬(s.server r).Freed e.isPilot e.slot) (hv : (s.server r).Updates v e.isPilot e.slot
      (((s.server r).ins e.isPilot e.slot).accept b dep cmd)) :
    ∃ said rep, s.Advances n ((s.setServer r v).setReply k e r .ok) said rep := by
  have hadd := adds_reply hk hnew (casts_setReply (e:=e) (r:=r) (s.setServer r v) k .ok)
  unfold Admits at hadm
  rw [hm] at hadm hadd
  have hlow := hs.accept_low hk hm
  have hheld := hs.held r _ _ hf
  refine hs.advances_reply hadd rfl hv (by simp) (by simp) nofun (fun _ _ _ _ hsite => ?_) (fun _ => ?_)
    nofun
  · exact hheld.not_promised (hadm.1 hsite) hlow
  · rw [marked_setReply,marked_setServer]
    exact hheld.acceptMsg hadd hadm.2 hlow (hadd.ext.said ⟨k,e,hk,rfl,rfl,rfl,hm⟩) hadm.1

theorem Safe.receives_prepare (hm : e.msg = .prepare b)
    (hv : (s.server r).Updates v e.isPilot e.slot (((s.server r).ins e.isPilot e.slot).prepare b)) :
    ∃ said rep, s.Advances n ((s.setServer r v).setReply k e r
      (.prepared (((s.server r).ins e.isPilot e.slot).prepare b).prepareReply)) said rep := by
  have hadd := adds_reply hk hnew (casts_setReply (e:=e) (r:=r) (s.setServer r v) k
    (.prepared (((s.server r).ins e.isPilot e.slot).prepare b).prepareReply))
  unfold Admits at hadm
  rw [hm] at hadm hadd
  have hsaid : s.Said e.isPilot e.slot e.site (.prepare b) := ⟨k,e,hk,rfl,rfl,rfl,hm⟩
  obtain rfl := hs.takeovers.ballot _ _ _ _ hsaid
  obtain ⟨hhold,hball⟩ := (hs.held r _ _ hadm.1).prepare hadd hsaid
  refine hs.advances_reply hadd rfl hv (by simp) (by simp) nofun nofun (fun _ => ?_) ?_
  · rw [marked_setReply,marked_setServer]
    exact hhold
  · rintro _ _ ⟨⟩ ⟨⟩
    refine hhold.reported (fun p i site m d cmd hsd => ?_) hball fun hst => ?_
    · exact hs.solid p i site m d cmd ((hadd.said _ _ _ _ hsd).resolve_right (by simp))
    · exact hadm.2 ((prepare_carries _ _).2.2.1 ▸ hst)

theorem Safe.receives_commit (hm : e.msg = .commit dep cmd)
    (hf : ¬(s.server r).Freed e.isPilot e.slot)
    (hst : ((s.server r).ins e.isPilot e.slot).status < .committed)
    (hv : (s.server r).Updates v e.isPilot e.slot (((s.server r).ins e.isPilot e.slot).commit cmd)) :
    ∃ said rep, s.Advances n
      (((s.setServer r v).setReply k e r .ok).setMarked r e.isPilot e.slot) said rep := by
  have hadd : s.Adds (((s.setServer r v).setReply k e r .ok).setMarked r e.isPilot e.slot) none _ :=
    adds_reply hk hnew (casts_setReply (e:=e) (r:=r) (s.setServer r v) k .ok)
  unfold Admits at hadm
  rw [hm] at hadm hadd
  obtain rfl := hadm hf hst
  refine hs.advances_reply hadd rfl hv (by simp) (fun a q j hne => ?_) nofun nofun (fun _ => ?_) nofun
  · rw [marked_setMarked,if_neg hne,marked_setReply,marked_setServer]
  · rw [marked_setMarked,if_pos ⟨rfl,rfl,rfl⟩]
    exact (hs.held r _ _ hf).commit hadd ⟨k,e,hk,rfl,rfl,rfl,hm⟩

omit hadm in
theorem Safe.receives_known (hm : e.msg = .commit dep cmd)
    (hv : (s.server r).Updates v e.isPilot e.slot ((s.server r).ins e.isPilot e.slot)) :
    ∃ said rep, s.Advances n ((s.setServer r v).setReply k e r .ok) said rep := by
  have hadd := adds_reply hk hnew (casts_setReply (e:=e) (r:=r) (s.setServer r v) k .ok)
  rw [hm] at hadd
  refine hs.advances_reply hadd rfl hv (by simp) (by simp) nofun nofun (fun hf => ?_) nofun
  rw [marked_setReply,marked_setServer]
  refine (hs.held r _ _ hf).silent hadd ?_
  rintro _ _ _ ⟨⟩
  exact ⟨dep,cmd,rfl⟩

end Receive

theorem Safe.receive {r : ℕ} (hs : s.Safe n) (hok : s.Permitted n (.receive k r))
    (h : Stepped n s (.receive k r) s') : ∃ said rep, s.Advances n s' said rep := by
  cases h with
  | @receive _ _ e _ hk hr hnew hrun h =>
  have hadm : s.Admits r e := hok e hk
  cases h with
  | fastAccept hm hf _ hv => exact hs.receives_fastAccept hk hnew hadm hm hf hv
  | accept hm hf hv => exact hs.receives_accept hk hnew hadm hm hf hv
  | prepare hm hf hv => exact hs.receives_prepare hk hnew hadm hm hv
  | prepareFreed hm hf =>
    unfold Admits at hadm
    rw [hm] at hadm
    exact absurd hf hadm.1
  | commit hm hf hst hv => exact hs.receives_commit hk hnew hadm hm hf hst hv
  | commitKnown hm hv => exact hs.receives_known hk hnew hm hv

theorem Taking.of_phase {ph : Phase C} (hp : ∀ i b k, ph ≠ .prepare i b k)
    (ha : ∀ i d cmd k, ph ≠ .takeoverAccept i d cmd k) (i : ℕ) :
    ¬Coord.Taking {x with phase := ph} i := by
  rintro (⟨b,k,h⟩ | ⟨d,cmd,k,h⟩)
  · exact hp i b k h
  · exact ha i d cmd k h

section Resume

variable {c : ℕ} {x : Coord C} {committed : ℕ → Bool}
variable {b i k dep : ℕ} {v : CopilotServer C} {e : Cast C} {cmd : Option (Command C)}

theorem taking_setCoord {t : Cluster C} {ph : Phase C} (ht : t.coords = s.coords)
    (hp : ∀ i b k, ph ≠ .prepare i b k) (ha : ∀ i d cmd k, ph ≠ .takeoverAccept i d cmd k) (a : ℕ)
    (y : Coord C) (i : ℕ) (hy : (t.setCoord c {x with dep := dep, phase := ph}).coords a = some y)
    (hyi : y.Taking i) : s.coords a = some y := by
  rw [coords_setCoord] at hy
  split_ifs at hy
  · cases hy
    exact absurd hyi (Taking.of_phase (x:={x with dep := dep}) hp ha i)
  · exact ht ▸ hy

theorem Wf.other_site (hwf : s.Wf n) (hx : s.coords c = some x) : x.site ≠ own !x.isPilot := by
  rw [hwf.site_eq hx]
  exact (own_not _).symm

theorem keeps_setServer (hv : (s.server x.site).Keeps v) (r : ℕ) :
    (s.server r).Keeps (if r = x.site then v else s.server r) := by
  split_ifs with hr
  · exact hr ▸ hv
  · exact .refl _

section

variable (hs : s.Safe n)
include hs

section

variable (hx : s.coords c = some x)
include hx

theorem Safe.accepts {d : ℕ}
    (hv : (s.server x.site).onAccept x.isPilot x.slot x.ballot d x.cmd = some (v,b))
    (hlow : ((s.server x.site).ins x.isPilot x.slot).ballot ≤ x.ballot)
    (hst : ((s.server x.site).ins x.isPilot x.slot).status < .committed) :
    let s' := ((s.setServer x.site v).postLocal
      (.fresh x.site x.isPilot x.slot (.accept x.ballot d x.cmd)) .ok).setCoord c
      {x with dep := d, phase := .accept k}
    ∃ said rep, s.Advances n s' said rep := by
  intro s'
  have hwf := hs.regular.wf
  obtain ⟨hpilot,-,-,-,hballot,a,hcmd⟩ := hwf.coord c x hx
  obtain ⟨hf,hup,-⟩ := CopilotServer.onAccept_spec hv
  have hheld := hs.held x.site _ _ hf
  have hone : x.ballot ≤ 1 := by omega
  have hadd : s.Adds s' _ _ := hwf.adds_local ((s.setServer x.site v).casts_post _)
  refine ⟨_,_,hs.advances_owner hadd (hadd.frozen (by simp) ?_) ?_
    (taking_setCoord rfl (by simp) (by simp)) (hs.held_updates hadd hup (by simp [s',postLocal])
      (by simp [s',postLocal]) fun _ => ?_) (by simp)⟩
  · rintro p i b' d' cmd' r ρ heq
    simp only [some.injEq,Prod.mk.injEq] at heq
    obtain ⟨rfl,rfl,-,-,rfl,-⟩ := heq
    exact hheld.not_promised hlow hone
  · rintro _ _ _ _ ⟨⟩
    refine ⟨hwf.site_eq hx,by simp [Message.pair],fun d' cmd hp => ?_⟩
    cases hp
    simp [hcmd]
  · simp only [s',marked_setCoord,postLocal,marked_post,marked_setServer]
    refine hheld.acceptMsg hadd (fun _ => hst) hone ?_ fun _ => hlow
    exact ⟨s.nextCast,_,((s.setServer x.site v).casts_post _ _).trans (if_pos rfl),rfl,rfl,rfl,rfl⟩

theorem Safe.prepares
    (hph : x.phase = .takeover i ∧ ¬(s.server x.site).Freed (!x.isPilot) i ∧
        b = ((s.server x.site).ins (!x.isPilot) i).ballot ∧ ¬s.TakenOver (!x.isPilot) i ∨
      ∃ k, x.phase = .prepare i b k) (hv : (s.server x.site).Keeps v) :
    ∃ said rep, s.Advances n ((s.setServer x.site v).broadcastPrepare c x i b) said rep := by
  have hwf := hs.regular.wf
  have hadd : s.Adds ((s.setServer x.site v).broadcastPrepare c x i b)
      (some (!x.isPilot,i,x.site,.prepare (pickGreaterBallot x.site b))) none :=
    hwf.adds_fresh (s.casts_post _)
  have hfacts : (∀ z c', s.coords c' = some z → z.isPilot = x.isPilot → z.Taking i → c' = c) ∧
      b ≤ 1 ∧ s.Unclaimed (!x.isPilot) i := by
    rcases hph with ⟨hph,hf,rfl,hnew⟩ | ⟨k,hph⟩
    · refine ⟨fun z c' hz hp hzi => ?_,?_,fun site m hne hsaid => ?_⟩
      · exact absurd (hp ▸ hs.takeovers.begun c' z i hz hzi) hnew
      · exact (hs.held x.site _ _ hf).ballot.resolve_right fun h => hnew h.2
      · exact absurd (hs.takeovers.foreign _ _ _ _ hne hsaid) hnew
    · obtain ⟨hb,hno⟩ := hs.takeovers.prepare c x i b k hx hph
      exact ⟨fun z c' hz hp hzi => hs.takeovers.unique c' c z x i hz hx hp hzi (.inl ⟨b,k,hph⟩),hb,hno⟩
  have hsaid : (((s.setServer x.site v).broadcastPrepare c x i b)).TakenOver (!x.isPilot) i :=
    ⟨_,_,s.nextCast,_,(s.casts_post _ _).trans (if_pos rfl),rfl,rfl,rfl,rfl⟩
  refine ⟨_,_,hadd,hadd.frozen (by simp) (by simp),?_,
    hs.held_keeps hadd (fun r => ?_) fun r => ?_,by simp,?_,by simp⟩
  · rintro _ _ _ _ _ _ ⟨⟩ hp
    cases hp
  · simp only [broadcastPrepare,server_setCoord,server_setServer,server_post]
    exact keeps_setServer hv r
  · simp [broadcastPrepare]
  · refine hs.takeovers.taken hadd (y:={x with phase := .prepare i b s.nextCast}) rfl
      (coords_setCoord _ c _) ⟨hfacts.1,hsaid⟩ (fun j hj => ?_) (fun b' k hb => ?_) (fun b' hb => ?_)
      (by simp) (by simp)
    · rcases hj with ⟨_,_,h⟩ | ⟨_,_,_,h⟩ <;> cases h
      rfl
    · cases hb
      exact ⟨hfacts.2.1,rfl,hfacts.2.2⟩
    · cases hb
      rw [pickGreaterBallot_low _ hfacts.2.1]
      unfold takeoverBallot
      rw [Bool.not_not,← hwf.site_eq hx]

theorem Safe.answers (hk : s.casts k = some e)
    (hph : x.phase = .prepare i b k) :
    ∀ a ∈ e.prepared, s.Promised (!x.isPilot) i a.1 ∧ s.Reported (!x.isPilot) i a.1 a.2 ∧
      a.2.maxBallot = pickGreaterBallot x.site b := by
  have hplaced := hs.regular.wf.placed c x hx
  unfold Placed at hplaced
  rw [hph] at hplaced
  obtain ⟨e',he',hfor⟩ := hplaced
  cases hk.symm.trans he'
  intro a ha
  have hrep : s.Replied (!x.isPilot) i x.site (.prepare (pickGreaterBallot x.site b)) a.1
      (.prepared a.2) := ⟨k,e,hk,hfor,(Cast.mem_prepared ha).2⟩
  have hr := hs.reported _ _ _ _ _ _ hrep
  exact ⟨⟨_,_,_,hrep⟩,hr,hr.ballot.trans (hs.takeovers.ballot _ _ _ _ hrep.said).symm⟩

theorem Safe.acceptsTaken {b' : ℕ} {v' : CopilotServer C}
    (hpro : s.Proceeds n x) (hk : s.casts k = some e)
    (hph : x.phase = .prepare i b k) (hready : e.prepareReady n (pickGreaterBallot x.site b))
    (hchoice : prepareChoice n ((e.oks (pickGreaterBallot x.site b)).map Prod.snd)
      (some ((s.server x.site).ins (!x.isPilot) i)) = .accept cmd dep) (hcmd : cmd ≠ none)
    (hv : (s.server x.site).Alike v) (hv' : v.onAccept (!x.isPilot) i b dep cmd = some (v',b')) :
    let y : Coord C := {x with phase := .takeoverAccept i dep cmd s.nextCast}
    let s' := ((s.setServer x.site v').postLocal
      (.fresh x.site (!x.isPilot) i (.accept b dep cmd)) .ok).setCoord c y
    ∃ said rep, s.Advances n s' said rep := by
  intro y s'
  have hwf := hs.regular.wf
  have hother := hwf.other_site hx
  have hans := hs.answers hx hk hph
  obtain ⟨hb,hno⟩ := hs.takeovers.prepare c x i b k hx hph
  obtain ⟨hf,hup,-⟩ := CopilotServer.onAccept_spec hv'
  rw [hv.freed] at hf
  rw [hv.ins] at hup
  have hup' := hv.updates hup
  obtain ⟨hst,hcom,-⟩ := prepareChoice_accept hchoice
  have hadd : s.Adds s' (some (!x.isPilot,i,x.site,.accept b dep cmd))
      (some (!x.isPilot,i,x.site,.accept b dep cmd,x.site,.ok)) :=
    hwf.adds_local ((s.setServer x.site v').casts_post _)
  refine ⟨_,_,hadd,hadd.frozen (by simp) fun p i' b'' d cmd' r ρ heq => ?_,?_,
    hs.held_updates hadd hup' (by simp [s',postLocal]) (by simp [s',postLocal]) fun _ => ?_,
    by simp,?_,?_⟩
  · simp only [some.injEq,Prod.mk.injEq] at heq
    obtain ⟨rfl,-,hsite,-⟩ := heq
    exact absurd hsite hother
  · rintro _ _ _ _ _ _ ⟨⟩ hp
    cases hp
    exact hcmd
  · simp only [s',marked_setCoord,postLocal,marked_post,marked_setServer]
    refine (hs.held x.site _ _ hf).acceptMsg hadd (fun _ => not_le.mp hst) hb ?_ fun hsite =>
      absurd hsite hother
    exact ⟨s.nextCast,_,((s.setServer x.site v').casts_post _ _).trans (if_pos rfl),rfl,rfl,rfl,rfl⟩
  · refine hs.takeovers.taken hadd (y:=y) rfl
      (coords_setCoord _ c _) ⟨fun z c' hz hp hzi => ?_,?_⟩ (fun j hj => ?_) (by simp) (by simp)
      (fun b'' d cmd' hm => ?_) (by simp)
    · exact hs.takeovers.unique c' c z x i hz hx hp hzi (.inl ⟨b,k,hph⟩)
    · exact hadd.ext.takenOver (hs.takeovers.begun c x i hx (.inl ⟨b,k,hph⟩))
    · rcases hj with ⟨_,_,h⟩ | ⟨_,_,_,h⟩ <;> cases h
      rfl
    · cases hm
      exact ⟨hb,hno⟩
  · rintro _ _ _ _ _ _ ⟨⟩ -
    unfold Proceeds at hpro
    rw [hph] at hpro
    refine chosen_of_prepared (hwf.fed k e hk) (fun a ha => ?_) ?_ hno hchoice (hpro e hk)
    · obtain ⟨h₁,h₂,-⟩ := hans a (mem_filter.mp ha).1
      exact ⟨h₁,h₂⟩
    · refine Cast.prepareReady_quorum hready (fun a ha => (hans a ha).2.2) fun a ha hle => ?_
      have hmem := mem_getCmds.mpr ⟨mem_map_of_mem (f:=Prod.snd) ha,reduce_of_committed hle⟩
      rw [hcom] at hmem
      cases hmem

theorem Safe.commitsTaken (hk : s.casts k = some e)
    (hph : x.phase = .takeoverAccept i dep cmd k ∧ quorumSize n ≤ e.answers.length ∨
      ∃ b, x.phase = .prepare i b k ∧ prepareChoice n
        ((e.oks (pickGreaterBallot x.site b)).map Prod.snd)
        (some ((s.server x.site).ins (!x.isPilot) i)) = .commit cmd dep)
    (hv : (s.server x.site).Alike v) :
    ∃ said rep, s.Advances n (((s.post (.fresh x.site (!x.isPilot) i (.commit dep cmd))).setServer
      x.site v).setCoord c {x with phase := .takeover (i+1)}) said rep := by
  have hwf := hs.regular.wf
  have hother := hwf.other_site hx
  have htaking : x.Taking i := by
    rcases hph with ⟨hph,-⟩ | ⟨b,hph,-⟩
    · exact .inr ⟨dep,cmd,k,hph⟩
    · exact .inl ⟨b,k,hph⟩
  have hpair : s.Backed (!x.isPilot) i dep cmd := by
    rcases hph with ⟨hph,-⟩ | ⟨b,hph,hchoice⟩
    · have hplaced := hwf.placed c x hx
      unfold Placed at hplaced
      rw [hph] at hplaced
      obtain ⟨e',b,he',hfor⟩ := hplaced
      exact .inl ⟨x.site,b,hother,k,e',he',hfor⟩
    · obtain ⟨a,ha,rfl,rfl⟩ := prepareChoice_commit hchoice
      obtain ⟨hmem,hst⟩ := mem_getCmds.mp ha
      obtain ⟨⟨r,a'⟩,hr,rfl⟩ := mem_map.mp hmem
      obtain ⟨-,hrep,-⟩ := hs.answers hx hk hph _ (mem_filter.mp hr).1
      obtain ⟨site,hsaid⟩ := hrep.commit (reduce_eq_committed.mp hst)
      have hsite : site = own (!x.isPilot) := by
        by_contra hne
        exact absurd ((hs.takeovers.prepare c x i b k hx hph).2 _ _ hne hsaid) (by simp [Message.pair])
      exact .inr (hsite ▸ hsaid)
  have hadd : s.Adds (((s.post (.fresh x.site (!x.isPilot) i (.commit dep cmd))).setServer
      x.site v).setCoord c {x with phase := .takeover (i+1)})
      (some (!x.isPilot,i,x.site,.commit dep cmd)) none := hwf.adds_fresh (s.casts_post _)
  refine ⟨_,_,hadd,hadd.frozen nofun nofun,?_,hs.held_keeps hadd (fun r => ?_) fun r => ?_,nofun,
    ?_,by simp⟩
  · rintro _ _ _ _ _ _ ⟨⟩ hp
    cases hp
    rcases hpair with ⟨site,b,-,hsaid⟩ | hsaid
    · exact hs.solid _ _ _ _ _ _ hsaid rfl
    · exact hs.solid _ _ _ _ _ _ hsaid rfl
  · simp only [server_setCoord,server_setServer,server_post]
    exact keeps_setServer hv.keeps r
  · simp
  · refine hs.takeovers.taken hadd (y:={x with phase := .takeover (i+1)}) rfl
      (coords_setCoord _ c _) ⟨fun z c' hz hp hzi => ?_,?_⟩ (fun j hj => ?_) nofun nofun nofun
      fun d cmd' hm => ?_
    · exact hs.takeovers.unique c' c z x i hz hx hp hzi htaking
    · exact hadd.ext.takenOver (hs.takeovers.begun c x i hx htaking)
    · exact absurd hj (Taking.of_phase (by simp) (by simp) j)
    · cases hm
      exact hpair

end

end

end Resume

theorem Safe.resume {committed : ℕ → Bool} (hs : s.Safe n)
    (hok : s.Permitted n (.resume c committed)) (h : Stepped n s (.resume c committed) s') :
    ∃ said rep, s.Advances n s' said rep := by
  cases h with
  | @resume _ x _ _ hx hrun h =>
  have hpro : s.Proceeds n x := hok x hx
  have hwf := hs.regular.wf
  obtain ⟨-,-,-,-,-,a,hcmd⟩ := hwf.coord c x hx
  cases h with
  | @commits k e v ph hk hph hv hdone =>
    refine ⟨_,_,hs.advances_quiet (hwf.adds_fresh (s.casts_post _)) ?_ (taking_setCoord rfl ?_ ?_)
      (fun r => ?_) fun r => ?_⟩
    · rintro _ _ _ _ ⟨⟩
      refine ⟨hwf.site_eq hx,by simp [Message.pair],fun d cmd hp => ?_⟩
      cases hp
      simp [hcmd]
    · rcases hdone with rfl | rfl <;> exact nofun
    · rcases hdone with rfl | rfl <;> exact nofun
    · simp only [server_setCoord,server_setServer,server_post]
      exact keeps_setServer hv.keeps r
    · simp
  | @accepts k e v b hk hph _ hno _ hv =>
    unfold Proceeds at hpro
    rw [hph] at hpro
    obtain ⟨hlow,hst⟩ := hpro e hk hno
    exact hs.accepts hx hv hlow hst
  | @quiet v ph hph hv hnext _ =>
    refine ⟨_,_,hs.advances_quiet (adds_same rfl) nofun (taking_setCoord rfl ?_ ?_) (fun r => ?_)
      fun r => ?_⟩
    · rcases hnext with rfl | ⟨i,rfl⟩ <;> exact nofun
    · rcases hnext with rfl | ⟨i,rfl⟩ <;> exact nofun
    · simp only [server_setCoord,server_setServer]
      exact keeps_setServer hv r
    · simp
  | @prepares i v b hph hv =>
    refine hs.prepares hx (hph.imp (fun ⟨hph,hle,hf,hb,htk,hst⟩ => ⟨hph,hf,hb,?_⟩) id) hv
    rintro ⟨site,b',k,e,hk,hfor⟩
    unfold Proceeds at hpro
    rw [hph] at hpro
    refine hpro hle hf htk hst k (hwf.casts k e hk) e hk hfor.isPilot hfor.slot ?_
    rw [hfor.msg]
    rfl
  | acceptsTaken hk hph hready hchoice hcmd hv hv' =>
    exact hs.acceptsTaken hx hpro hk hph hready hchoice hcmd hv hv'
  | commitsTaken hk hph hv => exact hs.commitsTaken hx hk hph hv

theorem safe_start (n : ℕ) : (start : Cluster C).Safe n := by
  have hsaid : ∀ {p i site m}, ¬(start : Cluster C).Said p i site m := fun ⟨_,_,h,_⟩ => nomatch h
  have hrep : ∀ {p i site m r ρ}, ¬(start : Cluster C).Replied p i site m r ρ :=
    fun ⟨_,_,h,_⟩ => nomatch h
  refine ⟨regular_start n,nofun,fun _ _ _ _ _ _ h => absurd h hsaid,fun r p i _ => ?_,
    fun _ _ _ _ _ _ h => absurd h hrep,⟨nofun,nofun,nofun,fun _ _ _ _ _ h => absurd h hsaid,
      fun _ _ _ _ h => absurd h hsaid,fun _ _ _ _ _ _ _ h => absurd h hsaid,
      fun _ _ _ _ _ _ _ _ _ _ _ _ h => absurd h hsaid,fun _ _ _ _ _ _ h => absurd h hsaid⟩,
    fun _ _ _ _ _ _ _ h => absurd h hsaid⟩
  have hins : (((start : Cluster C).server r).ins p i).ballot = 0 ∧
      ((((start : Cluster C).server r).ins p i).status = .executed ∨
        (((start : Cluster C).server r).ins p i).status = .notAccepted) := by
    change ((CopilotLogInfo.set _ 0 _).ins i).ballot = 0 ∧ (((CopilotLogInfo.set _ 0 _).ins i).status = _ ∨
      ((CopilotLogInfo.set _ 0 _).ins i).status = _)
    rw [set_ins]
    split_ifs
    · exact ⟨rfl,.inl rfl⟩
    · exact ⟨rfl,.inr rfl⟩
  obtain ⟨hb,hst⟩ := hins
  refine ⟨fun h => ?_,fun h => ?_,nofun,fun ⟨_,_,_,_,_,h⟩ => absurd h hrep,
    fun ⟨_,_,_,_,h⟩ => absurd h hrep,.inl (hb ▸ Nat.zero_le _),fun ⟨_,_,_,h⟩ => absurd h hrep⟩
  · rcases hst with hst | hst <;> rw [hst] at h <;> cases h
  · rcases hst with hst | hst <;> rw [hst] at h <;> cases h

theorem Safe.step (hs : s.Safe n) (hok : s.Permitted n a) (h : Stepped n s a s') : s'.Safe n := by
  have hadv : ∃ said rep, s.Advances n s' said rep := by
    cases a with
    | submit site c => exact hs.submit h
    | receive k r => exact hs.receive hok h
    | resume c committed => exact hs.resume hok h
    | arrive k r =>
      cases h with
      | arrive hk hsent hnew =>
        exact ⟨_,_,hs.advances_quiet (adds_answer hk) nofun (fun _ _ _ hx _ => hx)
          (fun _ => .refl _) fun _ => rfl⟩
    | exec r committed =>
      cases h with
      | @exec _ t _ v nx running waiting hrun hit hnext =>
        refine ⟨_,_,hs.advances_quiet (adds_same rfl) nofun (fun _ _ _ hx _ => hx) (fun a => ?_)
          fun a => ?_⟩
        · simp only [server_setTasks,server_setServer]
          split_ifs with ha
          · exact ha ▸ hit.keeps (hs.regular.sound r).active
          · exact .refl _
        · rw [marked_setTasks,marked_setServer]
    | wake r m =>
      cases h with
      | wake hm hrun hawake =>
        refine ⟨_,_,hs.advances_quiet (adds_same rfl) nofun (fun _ _ _ hx _ => hx) (fun a => ?_)
          fun a => ?_⟩
        · rw [server_setTasks]
          exact .refl _
        · rw [marked_setTasks]
  obtain ⟨said,rep,hadv⟩ := hadv
  exact hs.next h hadv

def Decides (s : Cluster C) (p : Bool) (i d : ℕ) (cmd : Option (Command C)) : Prop :=
  ∃ site, s.Said p i site (.commit d cmd)

theorem Wf.commit_owner (hwf : s.Wf n) (h : s.Said p i (own p) (.commit d cmd)) :
    ∃ c x, s.coords c = some x ∧ x.isPilot = p ∧ x.slot = i ∧ x.Decided ∧ d = x.dep ∧ cmd = x.cmd := by
  obtain ⟨x,⟨c,hc,hp,hi⟩,hcmd,hdep,hdec⟩ := hwf.said h rfl
  exact ⟨c,x,hc,hp,hi,hdec,hdep,hcmd⟩

theorem Safe.decides_cases (hs : s.Safe n)
    (h : s.Decides p i d cmd) : (∃ site b, site ≠ own p ∧ s.Said p i site (.accept b d cmd)) ∨
      s.Said p i (own p) (.commit d cmd) := by
  obtain ⟨site,h⟩ := h
  by_cases hsite : site = own p
  · exact .inr (hsite ▸ h)
  · exact hs.takeovers.commit p i site d cmd hsite h

/-- A takeover asks for nothing else than what the owner commits. -/
theorem Safe.owner_agrees (hn : Odd n)
    (hs : s.Safe n) (hne : site ≠ own p) (h : s.Said p i site (.accept b d cmd))
    (h' : s.Said p i (own p) (.commit d' cmd')) : d = d' ∧ cmd = cmd' := by
  have hchosen := hs.chosen p i site b d cmd hne h
  obtain ⟨c,x,hx,rfl,rfl,hdec,rfl,rfl⟩ := hs.regular.wf.commit_owner h'
  exact hchosen.agrees hn hs.regular.wf hx (hs.quorate c x hx hdec)

/-- Only one pair is decided for an entry. -/
theorem Safe.decides_unique (hn : Odd n) (hs : s.Safe n) (h : s.Decides p i d cmd)
    (h' : s.Decides p i d' cmd') : d = d' ∧ cmd = cmd' := by
  rcases hs.decides_cases h with ⟨site,b,hne,h⟩ | h <;>
    rcases hs.decides_cases h' with ⟨site',b',hne',h'⟩ | h'
  · exact hs.takeovers.accept p i site site' b b' d d' cmd cmd' hne hne' h h'
  · exact hs.owner_agrees hn hne h h'
  · obtain ⟨hd,hc⟩ := hs.owner_agrees hn hne' h' h
    exact ⟨hd.symm,hc.symm⟩
  · obtain ⟨c,x,hx,hp,hi,-,rfl,rfl⟩ := hs.regular.wf.commit_owner h
    obtain ⟨c',y,hy,hp',hi',-,rfl,rfl⟩ := hs.regular.wf.commit_owner h'
    obtain rfl := hs.regular.wf.owns_unique ⟨c,hx,hp,hi⟩ ⟨c',hy,hp',hi'⟩
    exact ⟨rfl,rfl⟩

theorem safe_of_reachable (h : ReachableBy (system C n) (Permitted n) s) : s.Safe n := by
  obtain ⟨_,rfl,hrun⟩ := h
  exact hrun.invariant (fun s a t hok hs hst => hs.step hok (step_spec hst)) (safe_start n)

/-- Agreement: whatever `OnCommit` has marked is the pair with which the slot was decided, and
there is only one such pair. -/
theorem commit_agreement (hn : Odd n) (h : ReachableBy (system C n) (Permitted n) s) (p : Bool)
    (i : ℕ) :
    (∀ r, s.marked r p i = true → ¬(s.server r).Freed p i →
      s.Decides p i ((s.server r).ins p i).depId ((s.server r).ins p i).cmd) ∧
    (∀ d d' cmd cmd', s.Decides p i d cmd → s.Decides p i d' cmd' → d = d' ∧ cmd = cmd') ∧
    ∀ r r', s.marked r p i = true → s.marked r' p i = true → ¬(s.server r).Freed p i →
      ¬(s.server r').Freed p i → ((s.server r).ins p i).cmd = ((s.server r').ins p i).cmd ∧
        ((s.server r).ins p i).depId = ((s.server r').ins p i).depId := by
  have hs := safe_of_reachable h
  have hmark : ∀ r, s.marked r p i = true → ¬(s.server r).Freed p i →
      s.Decides p i ((s.server r).ins p i).depId ((s.server r).ins p i).cmd :=
    fun r hm hf => ((hs.held r p i hf).mark hm).2
  refine ⟨hmark,fun d d' cmd cmd' => hs.decides_unique hn,fun r r' hm hm' hf hf' => ?_⟩
  obtain ⟨hd,hc⟩ := hs.decides_unique hn (hmark r hm hf) (hmark r' hm' hf')
  exact ⟨hc,hd⟩

instance (s : Cluster C) (r : ℕ) (e : Cast C) : Decidable (s.Admits r e) := by
  unfold Admits
  split <;> infer_instance

instance [DecidableEq C] (n : ℕ) (s : Cluster C) (x : Coord C) : Decidable (s.Proceeds n x) := by
  unfold Proceeds
  split <;> infer_instance

instance [DecidableEq C] (n : ℕ) (s : Cluster C) (a : Action C) : Decidable (s.Permitted n a) := by
  unfold Permitted
  split <;> infer_instance

def takeoverRun : Cluster ℕ := after (system ℕ 3) (Permitted 3) .start
  [.submit 0 7,.receive 0 1,.submit 1 8,.receive 1 2,.arrive 1 2,.resume 1 fun _ => false,
    .resume 1 fun _ => false,.resume 1 fun _ => false,.receive 3 1,.receive 3 2,.arrive 3 1,
    .arrive 3 2,.resume 1 fun _ => false,.receive 4 2,.arrive 4 2,.resume 1 fun _ => false,
    .receive 5 0,.receive 5 2]

theorem commit_agreement_taken : Odd 3 ∧ ReachableBy (system ℕ 3) (Permitted 3) takeoverRun ∧
    takeoverRun.marked 0 true 1 = true ∧ takeoverRun.marked 2 true 1 = true ∧
    ((takeoverRun.server 0).ins true 1).cmd = ((takeoverRun.server 2).ins true 1).cmd ∧
    ((takeoverRun.server 0).ins true 1).depId = ((takeoverRun.server 2).ins true 1).depId := by
  have hodd : Odd 3 := by decide
  have hrun : ReachableBy (system ℕ 3) (Permitted 3) takeoverRun := ⟨_,rfl,run_after _ _⟩
  have hm : takeoverRun.marked 0 true 1 = true ∧ takeoverRun.marked 2 true 1 = true := by
    decide +kernel
  exact ⟨hodd,hrun,hm.1,hm.2,(commit_agreement hodd hrun true 1).2.2 0 2 hm.1 hm.2
    (by decide +kernel) (by decide +kernel)⟩

/-- The Commit of the pilot's first command reaches a replica before its FastAccept: `OnCommit`
stores the command without its dependency. -/
def droppedRun : Cluster ℕ := after (system ℕ 3) (fun _ _ => True) .start
  [.submit 1 7,.receive 0 0,.submit 0 8,.receive 1 1,.arrive 1 1,.resume 1 fun _ => false,
    .receive 2 2,.receive 2 1]

theorem commit_drops_dependency : Odd 3 ∧ Reachable (system ℕ 3) droppedRun ∧
    droppedRun.marked 1 true 1 = true ∧ droppedRun.marked 2 true 1 = true ∧
    ¬(droppedRun.server 1).Freed true 1 ∧ ¬(droppedRun.server 2).Freed true 1 ∧
    ((droppedRun.server 1).ins true 1).depId = 1 ∧
    ((droppedRun.server 2).ins true 1).depId = 0 :=
  ⟨by decide,⟨_,rfl,run_after _ _⟩,by decide +kernel⟩

end Cluster
end Janus.Copilot
