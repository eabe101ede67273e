import Janus.RccTermination

/-! Every transaction is executed: no check fails, a coroutine waits for a message on its way or
for an ancestor that is smaller or in another component, and all runs end. The wait of `OnCommit`
for a traversal of another coroutine is left out, since a run exists in which the two wait for each
other. -/
namespace Janus.Rcc

open Tarjan Transition List Option RccServer Coroutine

variable {Site Par Tx : Type}

def RccServer.unblocked (σ : RccServer Site Par Tx) (t : Tx) : Bool :=
  σ.allAncCmtHint t || !σ.waitingAllAncCommitting t

/-- The steps that neither push a reply to a vector that is filled nor commit a
transaction that another coroutine has begun to traverse. -/
def Permitted (c : Cluster Site Par Tx) (a : Action Site Par Tx) : Prop :=
  FreshReply c a ∧ (match a with
  | .commit s t => (c s).unblocked t
  | _ => true) = true

instance (c : Cluster Site Par Tx) (a : Action Site Par Tx) : Decidable (Permitted c a) :=
  inferInstanceAs (Decidable (_ ∧ _))

/-- A transaction whose commit was received has a coroutine, and none waits for the
traversal of another one. -/
structure Engaged (σ : RccServer Site Par Tx) : Prop where
  received : ∀ t, σ.commitReceived t = true → σ.coroutine t ≠ .idle
  flowing : ∀ t, σ.coroutine t ≠ .waitAncCommit

theorem Engaged.init : Engaged (RccServer.init : RccServer Site Par Tx) := ⟨nofun,nofun⟩

theorem Engaged.of_eq {σ σ' : RccServer Site Par Tx} (h : Engaged σ) (hco : σ'.coroutine = σ.coroutine)
    (hrecv : σ'.commitReceived = σ.commitReceived) : Engaged σ' := by
  refine ⟨?_,?_⟩
  · rw [hco,hrecv]
    exact h.received
  · rw [hco]
    exact h.flowing

theorem engaged_update [DecidableEq Site] {c : Cluster Site Par Tx} {σ : RccServer Site Par Tx}
    {s : Site} (h : ∀ s, Engaged (c s)) (hσ : Engaged σ) (s' : Site) :
    Engaged (Function.update c s σ s') :=
  (Function.forall_update_iff c fun _ σ => Engaged σ).mpr ⟨hσ,fun s _ => h s⟩ s'

inductive Blocked (σ : RccServer Site Par Tx) : Coroutine Tx → Prop
  | applied {w self parent vs}
      (h : ¬σ.logApplyFinished parent = true) : Blocked σ (.waitApplied w self parent vs)
  | inquire {w self parent vs}
      (h : ∀ reply, σ.inquiry parent ≠ .replied reply) : Blocked σ (.inquire w self parent vs)
  | committing {w self parent vs}
      (h : ¬σ.IsCommitting parent) : Blocked σ (.waitCommitting w self parent vs)
  | parent {r i j parent} (h : ¬σ.logApplyFinished parent = true) :
      Blocked σ (.waitParent r i j parent)
  | ended {r v} (h : ¬σ.logApplyFinished v = true) : Blocked σ (.waitEnd r v)
  | commit {r v vs} (h : ¬σ.commitReceived v = true) : Blocked σ (.waitCommit r v vs)
  | finished : Blocked σ .finished

variable [LinearOrder Tx] {D : Deployment Site Par Tx} {ready : Tx → Prop} {p : Par}
  {σ σ' : RccServer Site Par Tx} {t x : Tx} {r : SccRef Tx}

section Checks

theorem ServerOK.resolve_ne_none [Fintype Tx] (h : ServerOK D ready p σ)
    (ht : σ.allAncCmtHint t = true) : σ.resolve t ≠ none := by
  have hdone := (h.findSccPred ht).2
  unfold RccServer.resolve
  simp only [if_neg hdone]
  nofun

theorem Resolved.executeScc_ne_none (hr : Resolved σ t r) : σ.executeScc t r ≠ none := by
  have hne : σ.sccs r ≠ [] := hr.sccs_eq ▸ hr.done
  unfold executeScc
  rw [head?_eq_some_head hne,getLast?_eq_some_getLast hne]
  dsimp only
  split_ifs <;> nofun

variable [LinearOrder Par]
variable {self parent : Tx} {w : Walk Tx} {vs : List Tx}

theorem ServerOK.fillPartition_nonempty (h : ServerOK D ready p σ) (hself : σ.IsCommitting self)
    (hadj : parent ∈ D.adj self) : ((σ.fillPartition self parent).partition parent).Nonempty := by
  unfold RccServer.fillPartition
  split_ifs with hempty
  · obtain ⟨e,he,hep⟩ := mem_map.mp hadj
    rw [h.known.final self hself]
    cases hf : (D.parents self).find? fun e => e.1 = parent with
    | none =>
      have := find?_eq_none.mp hf e he
      simp [hep] at this
    | some e' =>
      have hne := D.edge_nonempty self e' (mem_of_find?_eq_some hf)
      simpa [RccServer.insertPartition,hempty] using hne
  · exact Finset.nonempty_iff_ne_empty.mpr hempty

theorem inquireAboutIfNeeded_ne_none (hne : (σ.partition parent).Nonempty) :
    σ.inquireAboutIfNeeded p t w self parent vs ≠ none := by
  unfold inquireAboutIfNeeded
  split_ifs <;> nofun

theorem ExecOK.visitParent_ne_none (h : ExecOK D p σ) (hok : ServerOK D ready p σ)
    (hhere : Here D ready p σ) (hself : σ.IsCommitting self) (hadj : parent ∈ D.adj self) :
    σ.visitParent p t w self parent vs ≠ none := by
  unfold visitParent
  split_ifs with h₁ h₂ h₃ h₄ h₅
  · nofun
  · nofun
  · nofun
  · exact absurd (h.sched.started parent h₃).1 h₂
  · nofun
  · have hmarked : Looking p σ self parent ((σ.markWaiting self).cacheInvolve p parent) := .marked
    have hlook := hok.looking hhere hself hmarked
    unfold visitUndecided
    split_ifs
    · nofun
    · nofun
    · nofun
    · exact inquireAboutIfNeeded_ne_none
        (hlook.fillPartition_nonempty (hmarked.quiet.ext.committing self hself) hadj)

variable [Fintype Tx]

theorem ExecOK.blocked (h : ExecOK D p σ) (hok : ServerOK D ready p σ) (hhere : Here D ready p σ)
    (hidle : σ.coroutine t ≠ .idle) (hflow : σ.coroutine t ≠ .waitAncCommit)
    (hs : σ.resume p t = none) : Blocked σ (σ.coroutine t) := by
  have hw := hok.walking t
  have hrun := h.run.running t
  unfold RccServer.resume at hs
  cases hk : σ.coroutine t with
  | idle => exact absurd hk hidle
  | waitAncCommit => exact absurd hk hflow
  | walk w =>
    rw [hk] at hw
    simp only [hk] at hs
    split at hs
    · next hnil =>
      refine absurd hs ((hok.finishWalk hw hnil).resolve_ne_none ?_)
      simp [finishWalk,hw.root]
    · cases hs
  | visit w self vs =>
    rw [hk] at hw
    cases vs with
    | nil => simp [hk] at hs
    | cons parent vs =>
      have hadj : parent ∈ D.adj self := hw.subset parent mem_cons_self
      have hne : parent ≠ self := by
        obtain ⟨e,he,rfl⟩ := mem_map.mp hadj
        exact D.parent_ne self e he
      simp only [hk,if_neg hne] at hs
      exact absurd hs (h.visitParent_ne_none hok hhere hw.committing hadj)
  | waitApplied w self parent vs =>
    simp only [hk] at hs
    split_ifs at hs with hfin
    exact .applied hfin
  | inquire w self parent vs =>
    simp only [hk] at hs
    split at hs
    · cases hs
    · next hnot => exact .inquire hnot
  | waitCommitting w self parent vs =>
    simp only [hk] at hs
    split_ifs at hs with hc
    exact .committing hc
  | checkMember r i =>
    rw [hk] at hrun
    simp only [hk,RccServer.checkMember] at hs
    split at hs
    · exact absurd hs (hrun.1.mono (later_markScc σ r)).executeScc_ne_none
    · split_ifs at hs
      exact absurd hs hrun.1.executeScc_ne_none
  | checkParent r i j =>
    rw [hk] at hrun
    obtain ⟨-,-,v,hv,-⟩ := hrun
    simp only [hk,RccServer.checkParent,hv] at hs
    split at hs
    · cases hs
    · split_ifs at hs
  | waitParent r i j parent =>
    simp only [hk] at hs
    split_ifs at hs with hfin
    exact .parent hfin
  | waitEnd r v =>
    simp only [hk] at hs
    split_ifs at hs with hfin
    exact .ended hfin
  | execute r vs =>
    rw [hk] at hrun
    cases vs with
    | nil => simp [hk] at hs
    | cons v vs =>
      obtain ⟨l,hl,-⟩ := h.sched.left t r (v::vs) (by rw [hk]; rfl)
      have hvr := (hrun.1.of_mem hok.comps (x:=v) (by simp [hl])).1
      simp only [hk,executeTx,if_pos (And.intro hvr.hint hvr.decided)] at hs
      split_ifs at hs
  | waitCommit r v vs =>
    simp only [hk] at hs
    split_ifs at hs with hrecv
    exact .commit hrecv
  | finished => exact .finished

end Checks

section Engaged

theorem Engaged.move (h : Engaged σ) (hidle : σ'.coroutine t ≠ .idle)
    (hflow : σ'.coroutine t ≠ .waitAncCommit) (hother : ∀ x, x ≠ t → σ'.coroutine x = σ.coroutine x)
    (hrecv : ∀ x, x ≠ t → σ'.commitReceived x = σ.commitReceived x) : Engaged σ' := by
  refine ⟨?_,?_⟩
  · intro x hx
    by_cases hxt : x = t
    · rw [hxt]
      exact hidle
    · rw [hother x hxt]
      rw [hrecv x hxt] at hx
      exact h.received x hx
  · intro x
    by_cases hxt : x = t
    · rw [hxt]
      exact hflow
    · rw [hother x hxt]
      exact h.flowing x

theorem Coroutine.not_waiting_lt [Fintype Tx] {n : ℕ} {k : Coroutine Tx} (hk : k ≠ .idle) :
    ¬(Coroutine.waitAncCommit : Coroutine Tx).rank n < k.rank n := by
  cases k with
  | idle => exact absurd rfl hk
  | _ =>
    unfold rank
    rw [Rank.mk_lt]
    omega

variable [LinearOrder Par] [Fintype Tx]

theorem Engaged.resume (h : Engaged σ) (hexec : ExecOK D p σ) (hok : ServerOK D ready p σ)
    (hs : σ.resume p t = some σ') : Engaged σ' := by
  have hres := resumed_of_resume hs
  have hlt := hres.rank_lt hexec hok
  have hne : σ.coroutine t ≠ .idle := by
    intro hk
    simp [RccServer.resume,hk] at hs
  refine h.move (t:=t) ?_ ?_ hres.kept.others fun x _ => by rw [hres.kept.received]
  · intro hk
    rw [hk] at hlt
    exact lt_asymm hlt (rank_lt_idle hne)
  · intro hk
    rw [hk] at hlt
    exact not_waiting_lt hne hlt

theorem Engaged.onCommit {parents : ParentSet Par Tx} (h : Engaged σ) (hun : σ.unblocked t = true)
    (hs : σ.onCommit p t parents = some σ') : Engaged σ' := by
  have heq : σ.receiveCommit p t parents = {σ.receiveCommit p t parents with
      commitReceived := Function.update σ.commitReceived t true
      coroutine := σ.coroutine
      allAncCmtHint := σ.allAncCmtHint
      waitingAllAncCommitting := σ.waitingAllAncCommitting} := by
    unfold receiveCommit
    rw [cacheInvolve_eq]
    rfl
  have hrecv : ∀ x, x ≠ t →
      (σ.receiveCommit p t parents).commitReceived x = σ.commitReceived x := by
    intro x hx
    rw [heq]
    exact Function.update_of_ne hx ..
  have hco : (σ.receiveCommit p t parents).coroutine = σ.coroutine := by rw [heq]
  unfold RccServer.onCommit at hs
  split_ifs at hs
  unfold waitPredecessors at hs
  split_ifs at hs with hhint hwait
  · obtain ⟨r,hr⟩ := resolve_coroutine hs
    have hkept := Kept.resolve hs
    refine h.move (t:=t) (by rw [hr]; nofun) (by rw [hr]; nofun) (fun x hx => ?_) fun x hx => ?_
    · rw [hkept.others x hx,hco]
    · rw [hkept.received,hrecv x hx]
  · rw [heq] at hhint hwait
    have hhint' : σ.allAncCmtHint t = false := Bool.eq_false_of_not_eq_true hhint
    have hwait' : σ.waitingAllAncCommitting t = true := hwait
    rw [unblocked,hhint',hwait'] at hun
    cases hun
  · cases hs
    refine h.move (t:=t) (by rw [goto_coroutine_self]; nofun) (by rw [goto_coroutine_self]; nofun)
      (fun x hx => ?_) hrecv
    rw [goto_coroutine_of_ne _ _ hx,hco]

end Engaged

section Progress

def Progressing (D : Deployment Site Par Tx) (c : Cluster Site Par Tx) : Prop :=
  Executing D c ∧ ∀ s, Engaged (c s)

theorem Progressing.init : Progressing D fun _ => RccServer.init :=
  ⟨⟨Inv.init,fun _ => ExecOK.init⟩,fun _ => Engaged.init⟩

theorem onPreAccept_received [LinearOrder Par] {deps : ParentSet Par Tx}
    (hs : σ.onPreAccept p t deps = some σ') : σ'.commitReceived = σ.commitReceived := by
  unfold onPreAccept at hs
  split_ifs at hs
  simp only [Option.some.injEq] at hs
  subst hs
  split_ifs <;> rfl

variable [DecidableEq Site] {c c' : Cluster Site Par Tx} [Fintype Site] [LinearOrder Par] [Fintype Tx]

theorem Progressing.step {a : Action Site Par Tx} (h : Progressing D c) (hok : Permitted c a)
    (hs : Rcc.step D c a = some c') : Progressing D c' := by
  obtain ⟨⟨hinv,hexec⟩,heng⟩ := h
  obtain ⟨hfresh,hun⟩ := hok
  refine ⟨Executing.step ⟨hinv,hexec⟩ hfresh hs,?_⟩
  cases stepped_of_step hs with
  | @preAccept s t deps σ hp hσ =>
    exact engaged_update heng
      ((heng s).of_eq (aside_onPreAccept hσ).coroutine (onPreAccept_received hσ))
  | @commit s t σ hp hready hσ => exact engaged_update heng ((heng s).onCommit hun hσ)
  | @deliver s t par σ hi hσ =>
    have hq := quiet_onInquire hσ
    have hkept := engaged_update (s:=D.nearest s par) heng ((heng _).of_eq hq.aside.coroutine (hq.kept t).received)
    exact engaged_update hkept ((hkept s).of_eq rfl rfl)
  | @answer s q t reply hi hc hr => exact engaged_update heng ((heng s).of_eq rfl rfl)
  | @resume s t σ hσ => exact engaged_update heng ((heng s).resume (hexec s) (hinv s) hσ)

theorem progressing_of_reachableBy (h : ReachableBy (system D) Permitted c) : Progressing D c := by
  obtain ⟨_,rfl,hrun⟩ := h
  exact hrun.invariant (fun _ _ _ hok hinv hs => hinv.step hok hs) Progressing.init

section Quiescent

variable (hq : ∀ a, Rcc.step D c a = none)
variable {s : Site} {y : Tx}
include hq

theorem quiescent_dispatched (hp : D.partitionId s ∈ D.partitions t) :
    (c s).fullyDispatched t = true := by
  by_contra hnot
  have hs := hq (.preAccept s t [])
  simp [Rcc.step,hp,onPreAccept,hnot] at hs

theorem quiescent_ready (t : Tx) : Ready D c t := fun _ hp => quiescent_dispatched hq hp

variable (h : Progressing D c)
include h

theorem quiescent_received (hp : D.partitionId s ∈ D.partitions t) :
    (c s).commitReceived t = true := by
  obtain ⟨⟨hinv,hexec⟩,-⟩ := h
  have hready := quiescent_ready hq
  by_contra hnot
  have hinvolve : ((c s).insertPartition t {D.partitionId s}).involve (D.partitionId s) t = true :=
    ((hinv s).known.insertPartition (Finset.singleton_subset_iff.mpr hp)).involve_of_dispatched
      (quiescent_dispatched hq hp)
  have hfin : ¬(c s).logApplyFinished t = true := fun hfin =>
    hnot ((hexec s).log.received t (((hexec s).log.mem t).mpr ⟨hfin,hp⟩))
  have hrecv := ((hinv s).receiveCommit (fun t ht => ht s) hp (hready t)).1
  have hs := hq (.commit s t)
  simp only [Rcc.step,if_pos (And.intro hp (hready t)),map_eq_none_iff,onCommit,
    if_pos (And.intro hinvolve (And.intro hnot hfin)),waitPredecessors] at hs
  split_ifs at hs with hhint
  exact hrecv.resolve_ne_none hhint hs

theorem quiescent_replied (hy : (c s).duringAsking y = true) :
    ∃ reply, (c s).inquiry y = .replied reply := by
  have hrecv := fun s => quiescent_received hq h (s:=s) (t:=y)
  obtain ⟨⟨hinv,hexec⟩,-⟩ := h
  have hok := (hinv s).asked y
  cases hi : (c s).inquiry y with
  | idle => exact absurd hi ((hexec s).run.inquired y hy)
  | sent par =>
    rw [hi] at hok
    have hp : D.partitionId (D.nearest s par) ∈ D.partitions y := by
      rw [D.nearest_partitionId]
      exact hok
    have hinvolve := ((hinv (D.nearest s par)).known.insertPartition
      (Finset.singleton_subset_iff.mpr hp)).involve_of_dispatched (quiescent_dispatched hq hp)
    have hs := hq (.deliverInquire s y)
    simp [Rcc.step,hi,onInquire,hinvolve] at hs
  | waiting q =>
    rw [hi] at hok
    have hc := ((hinv q).known.received y (hrecv q hok)).1
    have hs := hq (.answerInquire s y)
    simp only [Rcc.step,hi,if_pos hc,map_eq_none_iff,inquireReply] at hs
    split_ifs at hs with hd hnil
    exact absurd hnil ((hinv q).comps.decided y hd)
  | replied reply => exact ⟨reply,rfl⟩

theorem quiescent_blocked (hidle : (c s).coroutine t ≠ .idle) :
    Blocked (c s) ((c s).coroutine t) := by
  obtain ⟨⟨hinv,hexec⟩,heng⟩ := h
  have hs := hq (.resume s t)
  rw [Rcc.step,map_eq_none_iff] at hs
  exact (hexec s).blocked (hinv s) (fun t ht => ht s) hidle ((heng s).flowing t) hs

theorem quiescent_remaining {vs : List Tx} : ((c s).coroutine t).remaining ≠ some (r,vs) := by
  intro ht
  have hb := quiescent_blocked hq h (s:=s) (t:=t) fun hk => by rw [hk] at ht; cases ht
  have hrun := (h.1.2 s).run.running t
  generalize (c s).coroutine t = k at hb ht hrun
  cases hb with
  | commit hnot => exact hnot (quiescent_received hq h hrun.2.1)
  | _ => cases ht

theorem quiescent_asking : ((c s).coroutine t).asking ≠ some y := by
  intro ht
  have hb := quiescent_blocked hq h (s:=s) (t:=t) fun hk => by rw [hk] at ht; cases ht
  obtain ⟨reply,hr⟩ := quiescent_replied hq h ((h.1.1 s).asking t y ht).1
  generalize (c s).coroutine t = k at hb ht
  cases hb with
  | inquire hnot =>
    cases ht
    exact hnot reply hr
  | _ => cases ht

/-- A coroutine that has not ended waits for an ancestor that is smaller or in another
component. -/
theorem quiescent_waits (hidle : (c s).coroutine t ≠ .idle) :
    (c s).coroutine t = .finished ∨ ∃ y, D.partitionId s ∈ D.partitions y ∧
      ¬(c s).logApplyFinished y = true ∧ Reach D.adj t y ∧ (y < t ∨ ¬Reach D.adj y t) := by
  have hb := quiescent_blocked hq h hidle
  have hinv := h.1.1
  have hexec := h.1.2
  have hrun := (hexec s).run.running t
  have hw := (hinv s).walking t
  cases hk : (c s).coroutine t with
  | waitApplied w self parent vs =>
    rw [hk] at hb hrun hw
    cases hb with
    | applied hnot =>
      have hreach := (hw.walk.known self (Or.inl hw.mem)).2
      have hadj := Reach.single (hw.subset parent mem_cons_self)
      exact Or.inr ⟨parent,hrun.2,hnot,hreach.trans hadj,Or.inl hrun.1⟩
  | inquire w self parent vs =>
    exact absurd (congrArg asking hk) (quiescent_asking hq h)
  | waitCommitting w self parent vs =>
    rw [hk] at hb hrun
    cases hb with
    | committing hnot =>
      rcases hrun with hp | hask
      · exact absurd ((hinv s).known.received parent (quiescent_received hq h hp)).1 hnot
      · rcases (hexec s).run.asking parent hask with hc | ⟨x,hx⟩
        · exact absurd hc hnot
        · exact absurd hx (quiescent_asking hq h)
  | waitParent r i j parent =>
    rw [hk] at hb hrun
    cases hb with
    | parent hnot =>
      obtain ⟨hr,-,⟨x,hx,-,hadj⟩,hp,hm⟩ := hrun
      have hreach : Reach D.adj t parent :=
        (hr.of_mem (hinv s).comps (mem_of_getElem? hx)).2.1.trans
          (Reach.single (mem_of_getElem? hadj))
      exact Or.inr ⟨parent,hp,hnot,hreach,Or.inr fun hback => hm ⟨hreach,hback⟩⟩
  | waitEnd r v =>
    rw [hk] at hb hrun
    cases hb with
    | ended hnot =>
      obtain ⟨hr,hs,hlast⟩ := hrun
      rcases (hexec s).sched.busy t hr.done (hr.ref.symm ▸ hs) with hall | ⟨x,vs,hx⟩
      · refine absurd (hall v ?_) hnot
        rw [← hr.sccs_eq]
        exact mem_of_getLast? hlast
      · exact absurd hx (quiescent_remaining hq h)
  | waitCommit r v vs =>
    exact absurd (congrArg remaining hk) (quiescent_remaining hq h)
  | finished => exact Or.inl rfl
  | _ =>
    rw [hk] at hb
    cases hb

theorem quiescent_finished (hp : D.partitionId s ∈ D.partitions t) :
    (c s).logApplyFinished t = true := by
  induction t using (descent_wellFounded D.adj).induction with
  | _ t ih =>
    have hidle := (h.2 s).received t (quiescent_received hq h hp)
    rcases quiescent_waits hq h hidle with hfin | ⟨y,hy,hnot,hreach,hlt⟩
    · have hrun := (h.1.2 s).run.running t
      rw [hfin] at hrun
      exact hrun.2 t ((((h.1.1 s).comps.component t hrun.1).mem t).mpr (Mutual.refl t))
    · exact absurd (ih y ⟨hreach,hlt⟩ hy) hnot

end Quiescent

end Progress

section Order

/-- A parent is executed after its child in one component only, where both servers
execute the smaller one first. -/
theorem LogOK.not_opposite {y : Tx} (h : LogOK D p σ) (h' : LogOK D p σ') (hy : y ∈ D.adj x)
    (hs : [x,y].Sublist σ.executed) : ¬[y,x].Sublist σ'.executed := by
  intro hs'
  obtain ⟨l₁,l₂,hl,hx,hyl⟩ := cons_sublist_iff.mp hs
  have hy₂ : y ∈ l₂ := singleton_sublist.mp hyl
  by_cases hm : Mutual D.adj x y
  · have hlt : x < y := by simpa [hm] using h.sorted.sublist hs
    have hgt : y < x := by simpa [hm.symm] using h'.sorted.sublist hs'
    exact lt_asymm hlt hgt
  · obtain ⟨a,b,rfl⟩ := append_of_mem hx
    have hp := ((h.mem y).mp (hs.subset (by simp))).2
    have hya := h.order a x (b++l₂) (by simpa using hl) y hy hp hm
    have hnodup := h.nodup
    rw [hl,nodup_append] at hnodup
    exact hnodup.2.2 y (mem_append_left _ hya) y hy₂ rfl

variable [DecidableEq Site] [Fintype Site] [LinearOrder Par] [Fintype Tx]

/-- Servers execute what involves their partition, at most once, after the parents in other
components and in increasing order within one, so that two servers of a partition never order
parent and child differently. Runs end, with everything executed. -/
theorem executed_in_order (D : Deployment Site Par Tx) {c : Cluster Site Par Tx}
    (h : ReachableBy (system D) Permitted c) :
    (∀ s, (c s).executed.Nodup ∧ ∀ t ∈ (c s).executed, D.partitionId s ∈ D.partitions t) ∧
      (∀ s l t l', (c s).executed = l++t::l' → ∀ q ∈ D.adj t, D.partitionId s ∈ D.partitions q →
        ¬Mutual D.adj t q → q ∈ l) ∧
      (∀ s, (c s).executed.Pairwise fun t u => Mutual D.adj t u → t < u) ∧
      (∀ s s' t, D.partitionId s = D.partitionId s' → ∀ q ∈ D.adj t,
        [t,q].Sublist (c s).executed → ¬[q,t].Sublist (c s').executed) ∧
      ((∀ a, step D c a = none) →
        ∀ s t, D.partitionId s ∈ D.partitions t → (c s).executed.count t = 1) ∧
      ∀ f : ℕ → Cluster Site Par Tx, f 0 = c →
        ¬∀ n, ∃ a, Permitted (f n) a ∧ step D (f n) a = some (f (n+1)) := by
  have hprog := progressing_of_reachableBy h
  have hlog := fun s => (hprog.1.2 s).log
  refine ⟨fun s => ⟨(hlog s).nodup,fun t ht => (((hlog s).mem t).mp ht).2⟩,
    fun s l t l' hl => (hlog s).order l t l' hl,fun s => (hlog s).sorted,?_,?_,?_⟩
  · intro s s' t hp q hq
    exact (hlog s).not_opposite (hp ▸ hlog s') hq
  · intro hq s t hp
    have hfin := quiescent_finished hq hprog hp
    exact count_eq_one_of_mem (hlog s).nodup (((hlog s).mem t).mpr ⟨hfin,hp⟩)
  · rintro f rfl
    exact not_endless (M:=system D) (measure D)
      (fun _ _ _ hok hinv hs => ⟨hinv.step hok hs,measure_step hinv.1 hs⟩) hprog

/-- Pre-accepts apart, that no step is left is a finite check. -/
theorem quiescent_of {D : Deployment Site Par Tx} {c : Cluster Site Par Tx}
    (hrest : ∀ s t, ((c s).fullyDispatched t = true ∨ D.partitionId s ∉ D.partitions t) ∧
      (step D c (.commit s t)).isNone ∧ (step D c (.deliverInquire s t)).isNone ∧
      (step D c (.answerInquire s t)).isNone ∧ (step D c (.resume s t)).isNone)
    (a : Action Site Par Tx) : step D c a = none := by
  cases a with
  | preAccept s t deps =>
    rcases (hrest s t).1 with hd | hp
    · simp [step,onPreAccept,hd]
    · simp [step,hp]
  | commit s t => exact isNone_iff_eq_none.mp (hrest s t).2.1
  | deliverInquire s t => exact isNone_iff_eq_none.mp (hrest s t).2.2.1
  | answerInquire s t => exact isNone_iff_eq_none.mp (hrest s t).2.2.2.1
  | resume s t => exact isNone_iff_eq_none.mp (hrest s t).2.2.2.2

end Order

section Runs

def executeAll : List (Action (Fin 2) (Fin 2) (Fin 3)) :=
  askFirst++Action.commit 0 0::List.replicate 9 (.resume 0 0) ++
  Action.preAccept 0 1 []::.commit 0 1::List.replicate 12 (.resume 0 1) ++
  List.replicate 16 (Action.resume 0 2) ++
  Action.resume 1 0::.commit 1 1::List.replicate 12 (.resume 1 1) ++
  Action.commit 1 2::List.replicate 15 (.resume 1 2)

theorem executed_in_order_all : (chainRun Permitted executeAll 0).executed = [0,1,2] ∧
      (∀ a, step chain (chainRun Permitted executeAll) a = none) ∧
      ∀ s t, (chainRun Permitted executeAll s).executed.count t = 1 := by
  have hquiet : ∀ a, step chain (chainRun Permitted executeAll) a = none :=
    quiescent_of (by decide +kernel)
  refine ⟨by decide +kernel,hquiet,fun s t => ?_⟩
  have hall := (executed_in_order chain (chainRun_reachableBy Permitted executeAll)).2.2.2.2.1
  exact hall hquiet s t (by revert s t; decide)

/-- With the answer pushed twice, the component is executed when the first transaction is
committed. -/
def executeTwice : List (Action (Fin 2) (Fin 2) (Fin 3)) :=
  pushTwice++Action.commit 0 0::List.replicate 9 (.resume 0 0) ++
  List.replicate 9 (Action.resume 0 1)

theorem executed_twice : Reachable (system chain) (chainRun (fun _ _ => True) executeTwice) ∧
      (chainRun (fun _ _ => True) executeTwice 0).executed = [0,1,1] :=
  ⟨(chainRun_reachableBy _ _).reachable,by decide +kernel⟩

/-- A partition of one server and one of two. The first and the last transaction are parents of
each other, the first is that of the second. -/
def cycle : Deployment (Fin 3) (Fin 2) (Fin 3) where
  partitionId s := if s = 0 then 0 else 1
  nearest _ p := if p = 0 then 0 else 1
  partitions t := if t = 2 then {1} else {0,1}
  parents t :=
    match t with
    | 0 => [(2,{1})]
    | 1 => [(0,{1})]
    | 2 => [(0,{1})]
  nearest_partitionId := by decide
  parent_ne := by decide
  edge_nonempty := by decide
  edge_subset := by decide

def crossing : List (Action (Fin 3) (Fin 2) (Fin 3)) :=
  [Action.preAccept 2 2 [],.preAccept 1 0 [],.preAccept 1 1 [(0,{1})],.preAccept 2 0 [(2,{1})],
    .preAccept 2 1 [(0,{1})],.preAccept 0 1 [],.commit 0 1,.resume 0 1,.resume 0 1,
    .deliverInquire 0 0,.preAccept 0 0 [],.commit 1 0,.answerInquire 0 0] ++
  List.replicate 5 (Action.resume 0 1) ++
  [Action.commit 0 0,.deliverInquire 0 2,.preAccept 1 2 [(0,{1})],.commit 1 2,.answerInquire 0 2] ++
  List.replicate 5 (Action.resume 0 1)

def crossingEnd : List (Action (Fin 3) (Fin 2) (Fin 3)) :=
  [Action.commit 1 1,.commit 2 0,.commit 2 1,.commit 2 2] ++
  [1,2].flatMap fun s => List.replicate 19 (Action.resume s 0) ++
    List.replicate 12 (Action.resume s 1)++List.replicate 6 (Action.resume s 2)

/-- The first server executes nothing: the second transaction waits for the first to be executed,
the first for the traversal of the second. -/
theorem traversal_deadlock :
    ∃ c, ReachableBy (system cycle) FreshReply c ∧ (∀ a, step cycle c a = none) ∧
      (c 0).executed = [] ∧ (c 1).executed = [0,2,1] := by
  refine ⟨after (system cycle) FreshReply (fun _ => init) (crossing++crossingEnd),
    ⟨_,rfl,run_after _ _⟩,quiescent_of ?_,?_,?_⟩
  all_goals decide +kernel

end Runs

end Janus.Rcc
