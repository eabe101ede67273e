import Janus.CopilotRuns

/-! The dependencies of Copilot without takeovers. A slot is decided with a dependency that a
majority of the replies does not exceed, and two slots of different logs share a replica in these
majorities. So one depends on the other, as far as the check of that replica has compared them. -/

namespace Janus.Copilot

open Transition List Status CopilotData

namespace CopilotLogInfo

variable {C : Type} {l : CopilotLogInfo C} {slot dep sug : ℕ}
variable {j : ℕ}

def Conflicts (l : CopilotLogInfo C) (slot j : ℕ) : Prop :=
  (l.ins j).depId ≠ 0 ∧ (l.ins j).depId < slot

instance (l : CopilotLogInfo C) (slot j : ℕ) : Decidable (l.Conflicts slot j) :=
  inferInstanceAs (Decidable (_ ∧ _))

theorem checkFrom_spec {k : ℕ} (h : l.checkFrom slot dep k j = some sug) :
    (∃ a, j ≤ a ∧ a < j+k ∧ l.Conflicts slot a) ∧ sug = l.maxAcceptedSlot ∨
      (∀ a, j ≤ a → a < j+k → ¬l.Conflicts slot a) ∧ sug = dep := by
  induction k generalizing j with
  | zero =>
    cases h
    exact .inr ⟨fun a ha hlt => by omega,rfl⟩
  | succ k ih =>
    have hnext : ¬l.Conflicts slot j → l.checkFrom slot dep k (j+1) = some sug →
        (∃ a, j ≤ a ∧ a < j+(k+1) ∧ l.Conflicts slot a) ∧ sug = l.maxAcceptedSlot ∨
        (∀ a, j ≤ a → a < j+(k+1) → ¬l.Conflicts slot a) ∧ sug = dep := by
      intro hj hk
      rcases ih hk with ⟨⟨a,h₁,h₂,h₃⟩,hs⟩ | ⟨hall,hs⟩
      · exact .inl ⟨⟨a,by omega,by omega,h₃⟩,hs⟩
      · refine .inr ⟨fun a ha hlt => ?_,hs⟩
        rcases ha.eq_or_lt with rfl | hgt
        · exact hj
        · exact hall a hgt (by omega)
    unfold checkFrom at h
    split at h
    next hnone =>
      refine hnext ?_ h
      unfold Conflicts ins
      simp [hnone]
    · cases h
    next d hd =>
      have hins : l.ins j = d := by simp [ins,hd]
      split_ifs at h with hc
      · cases h
        exact .inl ⟨⟨j,le_rfl,by omega,by rwa [Conflicts,hins]⟩,rfl⟩
      · exact hnext (by rwa [Conflicts,hins]) h

theorem suggestDep_spec (h : l.suggestDep slot dep = some sug) : dep ≤ sug ∧
    (dep ≠ 0 → (∃ j ≤ l.maxAcceptedSlot, dep < j ∧ l.Conflicts slot j) →
      sug = l.maxAcceptedSlot) := by
  unfold suggestDep at h
  split_ifs at h with h0
  · cases h
    exact ⟨le_rfl,fun hne => absurd h0 hne⟩
  rcases checkFrom_spec h with ⟨⟨a,h₁,h₂,-⟩,rfl⟩ | ⟨hall,rfl⟩
  · exact ⟨by omega,fun _ _ => rfl⟩
  · refine ⟨le_rfl,fun _ ⟨j,hj,hlt,hc⟩ => absurd hc (hall j hlt (by omega))⟩

/-- The check of a FastAccept covers the entries of the other log behind its dependency: they all
depend on the slot, or the check stumbles over one that does not and answers none before it. -/
def Compares (l : CopilotLogInfo C) (slot dep : ℕ) : Prop :=
  l.minActiveSlot ≤ dep+1 ∧
    ((∀ j ≤ l.currentSlot, dep < j → .fastAccepted ≤ (l.ins j).status → slot ≤ (l.ins j).depId) ∨
      dep ≠ 0 ∧ (∃ j ≤ l.maxAcceptedSlot, dep < j ∧ l.Conflicts slot j) ∧
        ∀ j ≤ l.currentSlot, dep < j → .fastAccepted ≤ (l.ins j).status →
          (l.ins j).depId < slot → j ≤ l.maxAcceptedSlot)

instance (l : CopilotLogInfo C) (slot dep : ℕ) : Decidable (l.Compares slot dep) := by
  unfold Compares
  infer_instance

theorem Compares.covers (h : l.Compares slot dep) (hs : l.suggestDep slot dep = some sug)
    (hj : j ≤ l.currentSlot) (hst : ¬l.Freed j → .fastAccepted ≤ (l.ins j).status) :
    j ≤ sug ∨ ¬l.Freed j ∧ slot ≤ (l.ins j).depId := by
  obtain ⟨hle,hmax⟩ := suggestDep_spec hs
  by_cases hdep : j ≤ dep
  · exact .inl (hdep.trans hle)
  have hf : ¬l.Freed j := fun hf => hdep (by have := hf.1; have := h.1; omega)
  rcases h.2 with hall | ⟨hne,hex,hbound⟩
  · exact .inr ⟨hf,hall j hj (not_le.mp hdep) (hst hf)⟩
  · by_cases hlt : (l.ins j).depId < slot
    · rw [hmax hne hex]
      exact .inl (hbound j hj (not_le.mp hdep) (hst hf) hlt)
    · exact .inr ⟨hf,not_lt.mp hlt⟩

end CopilotLogInfo

section FinalDep

variable {n : ℕ} {l : List ℕ}

theorem getFinalDep_eq (h : n/2 < l.length) : ∃ hlt : n/2 < (l.mergeSort (· ≤ ·)).length,
    getFinalDep n l = (l.mergeSort (· ≤ ·)).get ⟨n/2,hlt⟩ := by
  have hlt : n/2 < (l.mergeSort (· ≤ ·)).length := by rwa [length_mergeSort]
  refine ⟨hlt,?_⟩
  unfold getFinalDep
  rw [getD_eq_getElem?_getD,List.getElem?_eq_getElem hlt]
  rfl

theorem getFinalDep_mem (h : n/2 < l.length) : getFinalDep n l ∈ l := by
  obtain ⟨hlt,heq⟩ := getFinalDep_eq h
  rw [heq]
  exact (mergeSort_perm l _).mem_iff.mp (List.get_mem _ _)

/-- A majority has asked for no more than the final dependency. -/
theorem getFinalDep_majority (h : n/2 < l.length) :
    n/2+1 ≤ (l.filter fun d => d ≤ getFinalDep n l).length := by
  obtain ⟨hlt,heq⟩ := getFinalDep_eq h
  have hperm := (mergeSort_perm l (· ≤ ·)).filter fun d => d ≤ getFinalDep n l
  rw [← hperm.length_eq]
  have hpair : (l.mergeSort (· ≤ ·)).Pairwise (· ≤ ·) := pairwise_mergeSort' (· ≤ ·) l
  generalize l.mergeSort (· ≤ ·) = m at hlt heq hpair
  have hall : ∀ d ∈ m.take (n/2+1), d ≤ getFinalDep n l := by
    intro d hd
    obtain ⟨k,hk,rfl⟩ := mem_take_iff_getElem.mp hd
    rw [heq]
    rcases (show k ≤ n/2 by omega).eq_or_lt with rfl | hklt
    · exact le_rfl
    · exact pairwise_iff_getElem.mp hpair k (n/2) (by omega) hlt hklt
  have hself : (m.take (n/2+1)).filter (fun d => d ≤ getFinalDep n l) = m.take (n/2+1) :=
    filter_eq_self.mpr fun d hd => decide_eq_true (hall d hd)
  have hlen : (m.take (n/2+1)).length = n/2+1 := length_take_of_le hlt
  have hsub := ((take_sublist (n/2+1) m).filter fun d => d ≤ getFinalDep n l).length_le
  rwa [hself,hlen] at hsub

end FinalDep

def Coord.Calm {C : Type} (x : Coord C) : Prop :=
  (∃ k, x.phase = .fastAccept k) ∨ (∃ k, x.phase = .accept k) ∨ x.phase = .waiting ∨ x.phase = .done

namespace Cluster

variable {C : Type} {n : ℕ} {s s' : Cluster C} {p : Bool} {i r : ℕ} {d : ℕ}
variable {e : ℕ} {y : Coord C}

def VotedFor (s : Cluster C) (p : Bool) (i r t : ℕ) : Prop :=
  ∃ site b d cmd, s.Replied p i site (.fastAccept b d cmd) r (.dep t)

def Reaches (s : Cluster C) (p : Bool) (i d : ℕ) : Prop := ∃ x, s.Owns p i x ∧ d ≤ x.dep

def Settled (s : Cluster C) (p : Bool) (i d : ℕ) : Prop :=
  ∃ x, s.Owns p i x ∧ x.Decided ∧ x.dep = d

def Voted (n : ℕ) (s : Cluster C) (x : Coord C) : Prop :=
  ∃ A : Finset ℕ, (∀ r ∈ A, r < n ∧ ∃ t ≤ x.dep, s.VotedFor x.isPilot x.slot r t) ∧
    quorumSize n ≤ A.card

def Sustains (s s' : Cluster C) : Prop :=
  ∀ p i x, s.Owns p i x → ∃ y, s'.Owns p i y ∧ x.dep ≤ y.dep ∧ y.cmd = x.cmd ∧
    (x.Decided → y.Decided ∧ y.dep = x.dep)

theorem Sustains.reaches (h : s.Sustains s') (hs : s.Reaches p i d) : s'.Reaches p i d := by
  obtain ⟨x,hx,hd⟩ := hs
  obtain ⟨y,hy,hle,-⟩ := h p i x hx
  exact ⟨y,hy,hd.trans hle⟩

theorem Sustains.settled (h : s.Sustains s') (hs : s.Settled p i d) : s'.Settled p i d := by
  obtain ⟨x,hx,hdec,rfl⟩ := hs
  obtain ⟨y,hy,-,-,hd⟩ := h p i x hx
  exact ⟨y,hy,hd hdec⟩

theorem Wf.settled_unique (hwf : s.Wf n) (h : s.Settled p i d) (h' : s.Settled p i e) : d = e := by
  obtain ⟨x,hx,-,rfl⟩ := h
  obtain ⟨y,hy,-,rfl⟩ := h'
  rw [hwf.owns_unique hx hy]

theorem Wf.settled_ge (hwf : s.Wf n) (h : s.Settled p i d) (h' : s.Reaches p i e) : e ≤ d := by
  obtain ⟨x,hx,-,rfl⟩ := h
  obtain ⟨y,hy,hle⟩ := h'
  rwa [hwf.owns_unique hx hy]

theorem sustains_same (hcoords : s'.coords = s.coords) : s.Sustains s' := by
  rintro p i x ⟨c,hc,hp,hi⟩
  exact ⟨x,⟨c,hcoords ▸ hc,hp,hi⟩,le_rfl,rfl,fun hdec => ⟨hdec,rfl⟩⟩

theorem sustains_evolves {c : ℕ} {x : Coord C} (hx : s.coords c = some x) (hev : x.Evolves y)
    (hle : x.dep ≤ y.dep) (hcoords : ∀ a, s'.coords a = if a = c then some y else s.coords a) :
    s.Sustains s' := by
  rintro p i z ⟨a,ha,hp,hi⟩
  rcases eq_or_ne a c with rfl | hne
  · cases hx.symm.trans ha
    exact ⟨y,⟨a,by rw [hcoords,if_pos rfl],hev.isPilot.trans hp,hev.slot.trans hi⟩,hle,hev.cmd,
      fun hdec => ⟨hev.decided hdec,hev.dep hdec.not_proposing⟩⟩
  · exact ⟨z,⟨a,by rw [hcoords,if_neg hne,ha],hp,hi⟩,le_rfl,rfl,fun hdec => ⟨hdec,rfl⟩⟩

theorem Wf.sustains_new (hwf : s.Wf n)
    (hcoords : ∀ a, s'.coords a = if a = s.nextCoord then some y else s.coords a) :
    s.Sustains s' := by
  rintro p i x ⟨c,hc,hp,hi⟩
  refine ⟨x,⟨c,?_,hp,hi⟩,le_rfl,rfl,fun hdec => ⟨hdec,rfl⟩⟩
  rw [hcoords,if_neg (hwf.coords c x hc).ne,hc]

theorem Voted.mono {x : Coord C} (h : s.Voted n x) (hext : s.Extends s') : s'.Voted n x := by
  obtain ⟨A,hA,hcard⟩ := h
  refine ⟨A,fun r hr => ?_,hcard⟩
  obtain ⟨hr,t,ht,site,b,d,cmd,hrep⟩ := hA r hr
  exact ⟨hr,t,ht,site,b,d,cmd,hext.replied hrep⟩

structure Stores (s : Cluster C) (p : Bool) (i r : ℕ) (d : CopilotData C) : Prop where
  ballot : d.ballot ≤ own p
  low : d.status = .notAccepted → d.depId = 0
  owner : .fastAccepted ≤ d.status → ∃ x, s.Owns p i x ∧ d.depId ≤ x.dep ∧ d.cmd = x.cmd
  settled : .committed ≤ d.status → s.Settled p i d.depId
  event : d.cmitEvt = true → .committed ≤ d.status
  hasFast : s.FastReplied p i r → .fastAccepted ≤ d.status

section Stores

variable {d : CopilotData C}
variable {b dep : ℕ} {cmd : Option (Command C)} {x : Coord C}

section

variable (h : s.Stores p i r d)
include h

theorem Stores.mono (hsus : s.Sustains s')
    (hf : s'.FastReplied p i r → s.FastReplied p i r) : s'.Stores p i r d where
  ballot := h.ballot
  low := h.low
  owner hst := by
    obtain ⟨x,hx,hd,hc⟩ := h.owner hst
    obtain ⟨y,hy,hle,hcmd,-⟩ := hsus p i x hx
    exact ⟨y,hy,hd.trans hle,hc.trans hcmd.symm⟩
  settled hst := hsus.settled (h.settled hst)
  event := h.event
  hasFast hr := h.hasFast (hf hr)

theorem Stores.fastAccept {sug : ℕ} (hst : d.status < .accepted)
    (hb : b = own p) (hx : s'.Owns p i x) (hdep : dep ≤ x.dep) (hcmd : cmd = x.cmd) :
    s'.Stores p i r (d.fastAccept b dep cmd sug) := by
  have hevt : d.cmitEvt = false := by
    by_contra hne
    have hcom := h.event (by simpa using hne)
    exact absurd ((show accepted ≤ .committed by decide).trans hcom) hst.not_ge
  have hstatus := fastAccept_status (hb ▸ h.ballot) dep sug cmd
  unfold CopilotData.fastAccept at hstatus ⊢
  rw [if_pos (hb ▸ h.ballot)] at hstatus ⊢
  refine ⟨hb.le,fun he => ?_,fun _ => ⟨x,hx,hdep,hcmd⟩,fun he => ?_,fun he => ?_,fun _ => ?_⟩
  · rcases hstatus with h' | h' <;> cases h'.symm.trans he
  · rcases hstatus with h' | h' <;> rw [h'] at he <;> exact absurd he (by decide)
  · exact absurd (hevt.symm.trans he) (by decide)
  · rcases hstatus with h' | h'
    · rw [h']
      decide
    · rw [h']

theorem Stores.acceptMsg (hst : d.status < .committed) (hb : b = own p)
    (hx : s'.Owns p i x) (hdep : dep = x.dep) (hcmd : cmd = x.cmd) :
    s'.Stores p i r (d.accept b dep cmd) := by
  have hevt : d.cmitEvt = false := by
    by_contra hne
    exact absurd (h.event (by simpa using hne)) hst.not_ge
  unfold accept
  rw [if_pos (hb ▸ h.ballot)]
  refine ⟨hb.le,nofun,fun _ => ⟨x,hx,hdep.le,hcmd⟩,fun he => ?_,fun he => ?_,fun _ => ?_⟩
  · exact absurd he (show ¬committed ≤ .accepted by decide)
  · exact absurd (hevt.symm.trans he) (by decide)
  · exact (show fastAccepted ≤ .accepted by decide)

theorem Stores.commit (hx : s'.Owns p i x) (hdec : x.Decided)
    (hdep : d.depId = x.dep) (hcmd : cmd = x.cmd) : s'.Stores p i r (d.commit cmd) where
  ballot := h.ballot
  low := nofun
  owner _ := ⟨x,hx,hdep.le,hcmd⟩
  settled _ := ⟨x,hx,hdec,hdep.symm⟩
  event _ := le_rfl
  hasFast _ := show fastAccepted ≤ .committed by decide

theorem Stores.executed {d' : CopilotData C} (hst : .committed ≤ d.status)
    (hb : d'.ballot = d.ballot) (hdep : d'.depId = d.depId) (hcmd : d'.cmd = d.cmd)
    (hst' : d'.status = .executed) : s.Stores p i r d' where
  ballot := hb ▸ h.ballot
  low he := by cases hst'.symm.trans he
  owner _ := hdep ▸ hcmd ▸ h.owner ((show fastAccepted ≤ .committed by decide).trans hst)
  settled _ := hdep ▸ h.settled hst
  event _ := hst' ▸ by decide
  hasFast _ := hst' ▸ by decide

end

end Stores

structure Executes (v v' : CopilotServer C) : Prop where
  active : ∀ q, (v.logInfos q).minActiveSlot ≤ (v'.logInfos q).minActiveSlot
  seen : ∀ q, (v'.logInfos q).currentSlot = (v.logInfos q).currentSlot
  held : ∀ q j, ¬v'.Freed q j → v'.ins q j = v.ins q j ∨
    .committed ≤ (v.ins q j).status ∧ (v'.ins q j).ballot = (v.ins q j).ballot ∧
      (v'.ins q j).depId = (v.ins q j).depId ∧ (v'.ins q j).cmd = (v.ins q j).cmd ∧
      (v'.ins q j).status = .executed

theorem Executes.freed {v v' : CopilotServer C} (h : Executes v v') {q : Bool} {j : ℕ}
    (hf : v.Freed q j) : v'.Freed q j := ⟨hf.1.trans_le (h.active q),hf.2⟩

def InStore (s : Cluster C) : Prop :=
  ∀ r p i, i ≠ 0 → ¬(s.server r).Freed p i → s.Stores p i r ((s.server r).ins p i)

/-- One of two slots, to which a replica replied with `t` and `u`, depends on the other. -/
def Compared (s : Cluster C) (p : Bool) (i t j u : ℕ) : Prop :=
  j ≤ t ∨ i ≤ u ∨ s.Reaches (!p) j i ∨ s.Reaches p i j

theorem Compared.symm {j t u : ℕ} (h : s.Compared (!p) j u i t) : s.Compared p i t j u := by
  unfold Compared at h ⊢
  rw [Bool.not_not] at h
  tauto

theorem Sustains.compared {j t u : ℕ} (hsus : s.Sustains s') (h : s.Compared p i t j u) :
    s'.Compared p i t j u := h.imp_right (·.imp_right (·.imp hsus.reaches hsus.reaches))

structure Votes (n : ℕ) (s : Cluster C) : Prop where
  calm : ∀ c x, s.coords c = some x → x.Calm
  owner : ∀ p i site m, s.Said p i site m → site = own p ∧ ∀ b, m ≠ .prepare b
  base : ∀ p i site b d cmd x, s.Said p i site (.fastAccept b d cmd) → s.Owns p i x → d ≤ x.dep
  reply : ∀ p i site b d cmd r t, s.Replied p i site (.fastAccept b d cmd) r (.dep t) → d ≤ t
  voted : ∀ c x, s.coords c = some x → ¬x.Proposing → s.Voted n x
  seen : ∀ p i r, s.FastReplied p i r → i ≤ ((s.server r).logInfos p).currentSlot
  stores : s.InStore
  compared : ∀ p i j r t u, s.VotedFor p i r t → s.VotedFor (!p) j r u → s.Compared p i t j u

theorem VotedFor.fastReplied {t : ℕ} (h : s.VotedFor p i r t) : s.FastReplied p i r := by
  obtain ⟨site,b,d,cmd,h⟩ := h
  exact ⟨site,b,d,cmd,_,h⟩

/-- Of two slots of different logs that are decided, one depends on the other. -/
theorem Votes.comparable (hv : s.Votes n) {j : ℕ} (hd : s.Settled p i d) (he : s.Settled (!p) j e)
    (hwf : s.Wf n) : j ≤ d ∨ i ≤ e := by
  have hd' := hd
  have he' := he
  obtain ⟨x,⟨c,hc,rfl,rfl⟩,hdec,rfl⟩ := hd
  obtain ⟨y,⟨c',hc',hp,rfl⟩,hdec',rfl⟩ := he
  obtain ⟨A,hA,hAcard⟩ := hv.voted c x hc hdec.not_proposing
  obtain ⟨B,hB,hBcard⟩ := hv.voted c' y hc' hdec'.not_proposing
  obtain ⟨r,hrA,hrB⟩ := exists_common (fun r hr => (hA r hr).1) (fun r hr => (hB r hr).1)
    (show n < A.card+B.card by unfold quorumSize maxFailure at hAcard hBcard; omega)
  obtain ⟨-,t,ht,hvt⟩ := hA r hrA
  obtain ⟨-,u,hu,hvu⟩ := hB r hrB
  rw [hp] at hvu
  rcases hv.compared _ _ _ _ _ _ hvt hvu with h | h | h | h
  · exact .inl (h.trans ht)
  · exact .inr (h.trans hu)
  · exact .inr (hwf.settled_ge he' h)
  · exact .inl (hwf.settled_ge hd' h)

section Steps

variable {said : Option (Saying C)} {rep : Option (Replying C)}

theorem Votes.next (hv : s.Votes n) (hwf : s.Wf n) (hwf' : s'.Wf n) (hadd : s.Adds s' said rep)
    (hsus : s.Sustains s') (hsees : s.Sees s') (hcalm : ∀ c x, s'.coords c = some x → x.Calm)
    (howner : ∀ p i site m, said = some (p,i,site,m) → site = own p ∧ ∀ b, m ≠ .prepare b)
    (hbase : ∀ p i site b d cmd, said = some (p,i,site,.fastAccept b d cmd) →
      ∀ x, s'.Owns p i x → d ≤ x.dep)
    (hvoted : ∀ c x, s'.coords c = some x → ¬x.Proposing → s'.Voted n x)
    (hstores : s'.InStore)
    (hrep : ∀ p i site b d cmd r ρ, rep = some (p,i,site,.fastAccept b d cmd,r,ρ) →
      i ≤ ((s'.server r).logInfos p).currentSlot ∧ ∀ t, ρ = .dep t → d ≤ t ∧
        ∀ j u, s.VotedFor (!p) j r u → s.Compared p i t j u) : s'.Votes n := by
  have hvote : ∀ {p i r t}, s'.VotedFor p i r t → s.VotedFor p i r t ∨
      ∃ site b d cmd, rep = some (p,i,site,.fastAccept b d cmd,r,.dep t) := by
    rintro p i r t ⟨site,b,d,cmd,h⟩
    rcases hadd.replied _ _ _ _ _ _ h with h | h
    · exact .inl ⟨site,b,d,cmd,h⟩
    · exact .inr ⟨site,b,d,cmd,h⟩
  refine ⟨hcalm,fun p i site m h => ?_,fun p i site b d cmd x h hx => ?_,
    fun p i site b d cmd r t h => ?_,hvoted,fun p i r h => ?_,hstores,fun p i j r t u ht hu => ?_⟩
  · rcases hadd.said _ _ _ _ h with h | h
    · exact hv.owner p i site m h
    · exact howner p i site m h
  · rcases hadd.said _ _ _ _ h with h | h
    · obtain ⟨-,-,y,hy,-⟩ := hwf.said h
      obtain ⟨z,hz,hle,-⟩ := hsus p i y hy
      rw [hwf'.owns_unique hx hz]
      exact (hv.base p i site b d cmd y h hy).trans hle
    · exact hbase p i site b d cmd h x hx
  · rcases hadd.replied _ _ _ _ _ _ h with h | h
    · exact hv.reply p i site b d cmd r t h
    · exact ((hrep p i site b d cmd r _ h).2 t rfl).1
  · rcases hadd.fastReplied h with h | ⟨site,b,d,cmd,ρ,h⟩
    · exact (hv.seen p i r h).trans (hsees r p)
    · exact (hrep p i site b d cmd r ρ h).1
  · rcases hvote ht with ht | ⟨site,b,d,cmd,ht⟩ <;> rcases hvote hu with hu | ⟨site',b',d',cmd',hu⟩
    · exact hsus.compared (hv.compared p i j r t u ht hu)
    · -- the reply of the other log is the new one
      exact hsus.compared (((hrep _ _ _ _ _ _ _ _ hu).2 u rfl).2 i t (by rwa [Bool.not_not])).symm
    · exact hsus.compared (((hrep _ _ _ _ _ _ _ _ ht).2 t rfl).2 j u hu)
    · have hp := ht.symm.trans hu
      simp at hp

theorem Votes.stores_executes (hv : s.Votes n) (hadd : s.Adds s' said none) (hsus : s.Sustains s')
    (hex : ∀ r, Executes (s.server r) (s'.server r)) : s'.InStore := by
  intro r p i hi hf
  have hst := (hv.stores r p i hi fun h => hf ((hex r).freed h)).mono hsus
    fun hr => (hadd.fastReplied hr).resolve_right fun ⟨_,_,_,_,_,h⟩ => nomatch h
  rcases (hex r).held p i hf with heq | ⟨hcom,hb,hd,hc,he⟩
  · rwa [heq]
  · exact hst.executed hcom hb hd hc he

theorem Votes.stores_updates {q : Bool} {j a site : ℕ} {m : Message C} {ρ : Reply C}
    {v : CopilotServer C} {d : CopilotData C} (hv : s.Votes n)
    (hadd : s.Adds s' said (some (q,j,site,m,a,ρ))) (hsus : s.Sustains s')
    (hup : (s.server a).Updates v q j d)
    (hserver : ∀ r, s'.server r = if r = a then v else s.server r)
    (hself : j ≠ 0 → ¬(s.server a).Freed q j → s'.Stores q j a d) : s'.InStore := by
  intro r p i hi hf
  by_cases heq : r = a ∧ p = q ∧ i = j
  · obtain ⟨rfl,rfl,rfl⟩ := heq
    rw [hserver,if_pos rfl] at hf ⊢
    rw [hup.self]
    exact hself hi ((hup.freed _ _).not.mp hf)
  · obtain ⟨hins,hfreed⟩ := ins_elsewhere hup hserver heq
    rw [hins]
    refine (hv.stores r p i hi (hfreed.not.mp hf)).mono hsus fun hr =>
      (hadd.fastReplied hr).resolve_right ?_
    rintro ⟨_,_,_,_,_,⟨⟩⟩
    exact heq ⟨rfl,rfl,rfl⟩

end Steps

/-! ### Steps -/

/-- A replica takes messages in the order in which the owner sent them, compares a FastAccept with
the other log, and finds the dependency of a Commit. -/
def Takes (s : Cluster C) (r : ℕ) (e : Cast C) : Prop :=
  match e.msg with
  | .fastAccept _ d _ => ((s.server r).ins e.isPilot e.slot).status < .accepted ∧
      ((s.server r).logInfos !e.isPilot).Compares e.slot d
  | .accept _ _ _ => ((s.server r).ins e.isPilot e.slot).status < .committed
  | .prepare _ => True
  | .commit d _ => ¬(s.server r).Freed e.isPilot e.slot →
      ((s.server r).ins e.isPilot e.slot).status < .committed →
      ((s.server r).ins e.isPilot e.slot).depId = d

theorem Votes.submit {site : ℕ} {a : C} (hv : s.Votes n) (hreg : s.Regular n)
    (h : Stepped n s (.submit site a) s') : s'.Votes n := by
  have hwf' := (hreg.step h).wf
  have hsees := Wf.server_sees hreg.sound h
  cases h with
  | @submit _ _ sug v hsite hpilot hrun hf hup hseen =>
    set p := pilotLog site
    set i := ((s.server site).logInfos p).currentSlot+1
    set dep := ((s.server site).logInfos !p).currentSlot
    set x : Coord C := ⟨site,i,dep,makeUniqueBallot site 0,some (.op a),.fastAccept s.nextCast⟩
    set s' := ((s.setServer site v).postLocal
      (.fresh site p i (.fastAccept (makeUniqueBallot site 0) dep (some (.op a)))) (.dep dep)).addCoord x
    have hadd : s.Adds s' _ _ := hreg.wf.adds_local ((s.setServer site v).casts_post _)
    have hown : s'.Owns p i x :=
      ⟨s.nextCoord,(coords_addCoord _ _ _).trans (if_pos rfl),rfl,rfl⟩
    have hcoords : ∀ c, s'.coords c = if c = s.nextCoord then some x else s.coords c :=
      coords_addCoord _ x
    have hsus : s.Sustains s' := hreg.wf.sustains_new (coords_addCoord _ _)
    refine hv.next hreg.wf hwf' hadd hsus hsees (fun c y hy => ?_) ?_ ?_ (fun c y hy hprop => ?_)
      (hv.stores_updates hadd hsus hup (fun r => ?_) fun hi hf => ?_) ?_
    · rcases update_some hcoords hy with rfl | hy
      · exact .inl ⟨_,rfl⟩
      · exact hv.calm c y hy
    · rintro _ _ _ _ ⟨⟩
      exact ⟨(own_pilotLog hpilot).symm,nofun⟩
    · rintro _ _ _ _ _ _ ⟨⟩ y hy
      rw [hwf'.owns_unique hy hown]
    · rcases update_some hcoords hy with rfl | hy
      · exact absurd ⟨_,rfl⟩ hprop
      · exact (hv.voted c y hy hprop).mono hadd.ext
    · simp [s',postLocal]
    · obtain ⟨-,hst,-⟩ := (hreg.sound site).unseen p i hf (Nat.lt_succ_self _)
      refine (hv.stores site p i hi hf).fastAccept (hst ▸ by decide) ?_ hown le_rfl rfl
      rw [makeUniqueBallot_zero,own_pilotLog hpilot]
    · rintro _ _ _ _ _ _ _ _ ⟨⟩
      refine ⟨?_,?_⟩
      · simpa [s',postLocal] using hseen
      · rintro _ ⟨⟩
        exact ⟨le_rfl,fun j u hu => .inl (hv.seen _ _ _ hu.fastReplied)⟩

theorem Votes.receive {k r : ℕ} (hv : s.Votes n) (hreg : s.Regular n)
    (hok : ∀ e ∈ s.casts k, s.Takes r e) (h : Stepped n s (.receive k r) s') : s'.Votes n := by
  have hwf' := (hreg.step h).wf
  have hsees := Wf.server_sees hreg.sound h
  cases h with
  | @receive _ _ e _ hk hr hnew hrun h =>
  have hadm : s.Takes r e := hok e hk
  have hsaid : s.Said e.isPilot e.slot e.site e.msg := ⟨k,e,hk,rfl,rfl,rfl,rfl⟩
  obtain ⟨hsite,hprep⟩ := hv.owner _ _ _ _ hsaid
  have hj := hreg.wf.justified k e hk
  -- what is the same for all messages
  have hnext : ∀ {t : Cluster C} {v : CopilotServer C} {d : CopilotData C} {ρ : Reply C},
      (∀ a, t.casts a = if a = k then some (e.withReply r ρ) else s.casts a) →
      t.coords = s.coords → (∀ a, t.server a = if a = r then v else s.server a) →
      (s.server r).Updates v e.isPilot e.slot d → t.Wf n → s.Sees t →
      (e.slot ≠ 0 → ¬(s.server r).Freed e.isPilot e.slot → t.Stores e.isPilot e.slot r d) →
      (∀ b d cmd, e.msg = .fastAccept b d cmd →
        e.slot ≤ ((t.server r).logInfos e.isPilot).currentSlot ∧ ∀ u, ρ = .dep u → d ≤ u ∧
          ∀ j w, s.VotedFor (!e.isPilot) j r w → s.Compared e.isPilot e.slot u j w) → t.Votes n := by
    intro t v d ρ hc hco hserver hup hwf' hsees hself hrep
    have hadd := adds_reply hk hnew hc
    have hsus : s.Sustains t := sustains_same hco
    refine hv.next hreg.wf hwf' hadd hsus hsees (fun c x hx => hv.calm c x (hco ▸ hx)) nofun nofun
      (fun c x hx hprop => (hv.voted c x (hco ▸ hx) hprop).mono hadd.ext)
      (hv.stores_updates hadd hsus hup hserver hself) ?_
    intro p i site b d' cmd r' ρ' heq
    simp only [Option.some.injEq,Prod.mk.injEq] at heq
    obtain ⟨rfl,rfl,-,hm,rfl,rfl⟩ := heq
    exact hrep b d' cmd hm
  have howns : ∀ {t : Cluster C}, t.coords = s.coords → ∀ {x}, s.Owns e.isPilot e.slot x →
      t.Owns e.isPilot e.slot x := by
    rintro t ht x ⟨c,hc,hp⟩
    exact ⟨c,ht ▸ hc,hp⟩
  unfold Takes at hadm
  unfold Justified at hj
  cases h with
  | @fastAccept b d cmd sug v hmsg hf hsug hup hseen =>
    rw [hmsg] at hadm hj
    obtain ⟨-,hb,x,hx,hcmd,-⟩ := hj
    refine hnext (casts_setReply _ _ _ _ _) rfl (by simp) hup hwf' hsees (fun hi _ => ?_) ?_
    · exact (hv.stores r _ _ hi hf).fastAccept hadm.1 (hb.trans hsite) (howns rfl hx)
        (hv.base _ _ _ _ _ _ x (hmsg ▸ hsaid) hx) hcmd
    · intro b' d' cmd' hm
      cases hmsg.symm.trans hm
      refine ⟨by simpa using hseen,?_⟩
      rintro _ ⟨⟩
      refine ⟨(CopilotLogInfo.suggestDep_spec hsug).1,fun j w hw => ?_⟩
      rcases Nat.eq_zero_or_pos j with rfl | hpos
      · exact .inl (Nat.zero_le _)
      have hstores := hv.stores r (!e.isPilot) j hpos.ne'
      rcases hadm.2.covers hsug (hv.seen _ _ _ hw.fastReplied) (fun hfj =>
        (hstores hfj).hasFast hw.fastReplied) with h | ⟨hfj,h⟩
      · exact .inl h
      · obtain ⟨y,hy,hle,-⟩ := (hstores hfj).owner ((hstores hfj).hasFast hw.fastReplied)
        exact .inr (.inr (.inl ⟨y,hy,h.trans hle⟩))
  | @accept b d cmd v hmsg hf hup hseen =>
    rw [hmsg] at hadm hj
    obtain ⟨hb,x,hx,hcmd,hdep,-⟩ := hj hsite
    refine hnext (casts_setReply _ _ _ _ _) rfl (by simp) hup hwf' hsees (fun hi _ => ?_) (by simp [hmsg])
    exact (hv.stores r _ _ hi hf).acceptMsg hadm (hb.trans hsite) (howns rfl hx) hdep hcmd
  | prepare hmsg | prepareFreed hmsg => exact absurd hmsg (hprep _)
  | @commit d cmd v hmsg hf hst hup hseen =>
    rw [hmsg] at hadm hj
    obtain ⟨x,hx,hcmd,hdep,hdec⟩ := hj hsite
    refine hnext (casts_setReply _ _ _ _ _) rfl (by simp) hup hwf' hsees (fun hi _ => ?_) (by simp [hmsg])
    exact (hv.stores r _ _ hi hf).commit (howns rfl hx) hdec ((hadm hf hst).trans hdep) hcmd
  | @commitKnown d cmd v hmsg hup hseen =>
    refine hnext (casts_setReply _ _ _ _ _) rfl (by simp) hup hwf' hsees (fun hi hf => ?_) (by simp [hmsg])
    refine (hv.stores r _ _ hi hf).mono (sustains_same rfl) fun hr => ?_
    have hadd := adds_reply hk hnew (casts_setReply (s.setServer r v) _ _ _ .ok)
    exact (hadd.fastReplied hr).resolve_right (by simp [hmsg])

section Resume

variable {c : ℕ} {x : Coord C}
variable {k : ℕ} {e : Cast C} {v : CopilotServer C}

theorem Votes.commits {ph : Phase C} (hv : s.Votes n) (hwf : s.Wf n) (hx : s.coords c = some x)
    (hk : s.casts k = some e) (hph : x.phase = .fastAccept k ∧ fastQuorumSize n ≤ e.answers.length ∧
        e.fastYes n x.dep = true ∨ x.phase = .accept k ∧ quorumSize n ≤ e.answers.length)
    (hex : Executes (s.server x.site) v) (hdone : ph = .done ∨ ph = .waiting) :
    let s' := ((s.post (.fresh x.site x.isPilot x.slot (.commit x.dep x.cmd))).setServer
      x.site v).setCoord c {x with phase := ph}
    s'.Wf n → s'.Votes n := by
  intro s' hwf'
  have hadd : s.Adds s' _ _ := hwf.adds_fresh (s.casts_post _)
  have hpast := Coord.past_of_done hdone
  have hcoords : ∀ a, s'.coords a = if a = c then some {x with phase := ph} else s.coords a :=
    coords_setCoord _ c _
  have hsus : s.Sustains s' := sustains_evolves hx (x.evolves_past hpast) le_rfl hcoords
  have hex' : ∀ r, Executes (s.server r) (s'.server r) := by
    intro r
    simp only [s',server_setCoord,server_setServer,server_post]
    split_ifs with hr
    · exact hr ▸ hex
    · exact ⟨fun _ => le_rfl,fun _ => rfl,fun _ _ _ => .inl rfl⟩
  refine hv.next hwf hwf' hadd hsus (fun r q => ((hex' r).seen q).ge) (fun a y hy => ?_) ?_ (by simp)
    (fun a y hy hprop => ?_) (hv.stores_executes hadd hsus hex') nofun
  · rcases update_some hcoords hy with rfl | hy
    · rcases hdone with rfl | rfl
      · exact .inr (.inr (.inr rfl))
      · exact .inr (.inr (.inl rfl))
    · exact hv.calm a y hy
  · rintro _ _ _ _ ⟨⟩
    exact ⟨hwf.site_eq hx,nofun⟩
  · rcases update_some hcoords hy with rfl | hy
    · refine Voted.mono ?_ hadd.ext
      rcases hph with ⟨hph,-,hyes⟩ | ⟨hph,-⟩
      · have hfor := (hwf.placed c x hx).fastAccept hk hph
        obtain ⟨A,hcard,hA⟩ := (hwf.fed k e hk).fastQuorum hfor.msg hyes
        refine ⟨A,fun r hr => ⟨(hA r hr).1,x.dep,le_rfl,_,_,_,_,k,e,hk,hfor,(hA r hr).2⟩,?_⟩
        unfold fastQuorumSize maxFailure at hcard
        unfold quorumSize maxFailure
        omega
      · exact hv.voted c x hx fun ⟨k',hk'⟩ => by cases hph.symm.trans hk'
    · exact (hv.voted a y hy hprop).mono hadd.ext

theorem mem_retDeps {d : ℕ} (h : d ∈ e.retDeps) : ∃ r, e.replies r = some (.dep d) := by
  obtain ⟨r,-,heq⟩ := mem_filterMap.mp h
  split at heq
  next d' hd =>
    cases heq
    exact ⟨r,hd⟩
  · cases heq

theorem Votes.sustains_accept {k' : ℕ} (hv : s.Votes n) (hwf : s.Wf n) (hx : s.coords c = some x)
    (hk : s.casts k = some e) (hph : x.phase = .fastAccept k) (hlen : n/2 < e.retDeps.length)
    (hcoords : ∀ a, s'.coords a = if a = c then
      some {x with dep := getFinalDep n e.retDeps, phase := .accept k'} else s.coords a) :
    s.Sustains s' := by
  have hprop : x.Proposing := ⟨k,hph⟩
  have hev : x.Evolves {x with dep := getFinalDep n e.retDeps, phase := .accept k'} :=
    ⟨rfl,rfl,rfl,rfl,(fun ⟨_,h⟩ => nomatch h),fun h => absurd hprop h,
      fun h => absurd hprop h.not_proposing⟩
  have hfor := (hwf.placed c x hx).fastAccept hk hph
  obtain ⟨r,hr⟩ := mem_retDeps (getFinalDep_mem hlen)
  exact sustains_evolves hx hev (hv.reply _ _ _ _ _ _ r _ ⟨k,e,hk,hfor,hr⟩) hcoords

theorem Votes.proposing_low (hv : s.Votes n) (hwf : s.Wf n) (hx : s.coords c = some x)
    (hprop : x.Proposing) (hf : ¬(s.server x.site).Freed x.isPilot x.slot) :
    ((s.server x.site).ins x.isPilot x.slot).status < .committed := by
  by_contra hge
  obtain ⟨-,-,hpos,-⟩ := hwf.coord c x hx
  obtain ⟨z,hz,hdec,-⟩ := (hv.stores x.site _ _ hpos.ne' hf).settled (not_lt.mp hge)
  rw [hwf.owns_unique hz ⟨c,hx,rfl,rfl⟩] at hdec
  exact hdec.not_proposing hprop

theorem Votes.accepts {b : ℕ} (hv : s.Votes n) (hreg : s.Regular n)
    (hx : s.coords c = some x) (hk : s.casts k = some e) (hph : x.phase = .fastAccept k)
    (hlen : n/2 < e.retDeps.length)
    (hup : (s.server x.site).onAccept x.isPilot x.slot x.ballot (getFinalDep n e.retDeps) x.cmd =
      some (v,b)) :
    let y : Coord C := {x with dep := getFinalDep n e.retDeps, phase := .accept s.nextCast}
    let s' := ((s.setServer x.site v).postLocal
      (.fresh x.site x.isPilot x.slot (.accept x.ballot (getFinalDep n e.retDeps) x.cmd)) .ok).setCoord c y
    s'.Wf n → s'.Votes n := by
  intro y s' hwf'
  have hwf := hreg.wf
  obtain ⟨hf,hup,-⟩ := CopilotServer.onAccept_spec hup
  have hadd : s.Adds s' _ _ := hwf.adds_local ((s.setServer x.site v).casts_post _)
  have hcoords : ∀ a, s'.coords a = if a = c then some y else s.coords a := coords_setCoord _ c _
  have hfor := (hwf.placed c x hx).fastAccept hk hph
  have hsus : s.Sustains s' := hv.sustains_accept hwf hx hk hph hlen hcoords
  have hyown : s'.Owns x.isPilot x.slot y := ⟨c,by rw [hcoords,if_pos rfl],rfl,rfl⟩
  refine hv.next hwf hwf' hadd hsus (fun r q => ?_) (fun a z hz => ?_) ?_ (by simp)
    (fun a z hz hpz => ?_) (hv.stores_updates hadd hsus hup (fun r => ?_) fun hi hf => ?_) (by simp)
  · simp only [s',server_setCoord,postLocal,server_post,server_setServer]
    split_ifs with hr
    · exact hr ▸ (hup.same q).seen
    · exact le_rfl
  · rcases update_some hcoords hz with rfl | hz
    · exact .inr (.inl ⟨_,rfl⟩)
    · exact hv.calm a z hz
  · rintro _ _ _ _ ⟨⟩
    exact ⟨hwf.site_eq hx,by simp⟩
  · rcases update_some hcoords hz with rfl | hz
    · obtain ⟨A,hcard,hA⟩ := (hwf.fed k e hk).voters fun d => d ≤ getFinalDep n e.retDeps
      refine Voted.mono ⟨A,fun r hr => ?_,?_⟩ hadd.ext
      · obtain ⟨hr,t,ht,hrep⟩ := hA r hr
        exact ⟨hr,t,of_decide_eq_true ht,_,_,_,_,k,e,hk,hfor,hrep⟩
      · rw [hcard]
        exact getFinalDep_majority hlen
    · exact (hv.voted a z hz hpz).mono hadd.ext
  · simp [s',postLocal]
  · have hst := hv.stores x.site _ _ hi hf
    exact hst.acceptMsg (hv.proposing_low hwf hx ⟨k,hph⟩ hf)
      ((hwf.coord c x hx).2.2.2.2.1.trans (hwf.site_eq hx)) hyown rfl rfl

end Resume

theorem Votes.still (hv : s.Votes n) (hwf : s.Wf n) (hwf' : s'.Wf n) (hadd : s.Adds s' none none)
    (hsus : s.Sustains s') (hcalm : ∀ c x, s'.coords c = some x → x.Calm)
    (hvoted : ∀ c x, s'.coords c = some x → ¬x.Proposing → s'.Voted n x)
    (hex : ∀ r, Executes (s.server r) (s'.server r)) : s'.Votes n :=
  hv.next hwf hwf' hadd hsus (fun r q => ((hex r).seen q).ge) hcalm nofun nofun hvoted
    (hv.stores_executes hadd hsus hex) nofun

end Cluster
end Janus.Copilot
