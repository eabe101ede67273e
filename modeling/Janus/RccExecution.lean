import Janus.RccSchedule

/-! Components are executed one after the other, each by one coroutine, in order and after every
parent outside of it that involves the partition. Each step and each message keeps this invariant.
-/
namespace Janus.Rcc

open Tarjan Transition Function List RccServer Coroutine Option

variable {Site Par Tx : Type} [LinearOrder Tx] {D : Deployment Site Par Tx} {ready : Tx → Prop}
  {p : Par} {σ σ' : RccServer Site Par Tx} {t x : Tx} {r : SccRef Tx}

section Executing

variable {vs : List Tx} {v : Tx}

theorem components_goto (t : Tx) (k : Coroutine Tx) :
    Components D ready (σ.goto t k) ↔ Components D ready σ :=
  ⟨fun h => {h with},fun h => {h with}⟩

theorem RunOK.start (h : RunOK D p σ) (v : Tx) : RunOK D p (σ.start v) :=
  h.later (later_start σ v) rfl rfl rfl (fun _ hx => hx) rfl fun _ hx => hx

theorem RunOK.finish (h : RunOK D p σ) (v : Tx) : RunOK D p (σ.finish v) :=
  h.later (later_finish σ v) rfl rfl rfl (fun _ hx => hx) rfl fun _ hx => hx

section

variable (h : ExecOK D p σ)
include h

theorem ExecOK.received (ht : (σ.coroutine t).remaining = some (r,vs)) :
    σ.commitReceived t = true := by
  refine h.run.received t fun hk => ?_
  rw [hk] at ht
  cases ht

section

variable (hc : Components D ready σ)
include hc

theorem ExecOK.executeScc (hr : Resolved σ t r)
    (hset : ∀ x ∈ σ.sccs r, Settled D p σ x) (hrecv : σ.commitReceived t = true)
    (hask : (σ.coroutine t).asking = none) (hrem : (σ.coroutine t).remaining = none)
    (hs : σ.executeScc t r = some σ') : ExecOK D p σ' := by
  have hasked : ∀ y, (σ.coroutine t).asking = some y → σ.IsCommitting y := by
    intro y hy
    rw [hask] at hy
    cases hy
  unfold RccServer.executeScc at hs
  split at hs
  · next b e hb he =>
    split_ifs at hs with hstarted
    · cases hs
      exact h.goto ⟨hr,⟨b,hb,hstarted⟩,he⟩ hrecv hasked hrem.symm
    · cases hs
      have hnot : ¬HeadStarted σ r := by
        rintro ⟨b',hb',hs⟩
        rw [hb] at hb'
        cases hb'
        exact hstarted hs
      have hl := later_start σ b
      have hhead : HeadStarted (σ.start b) r := ⟨b,hb,start_logApplyStarted.mpr (Or.inr rfl)⟩
      have henter := h.sched.enter hc hr (fun x r vs hx => ((h.run.running x).resolved hx).2.1)
        hnot hrem
      have hself : ((σ.goto t (.execute r (σ.sccs r))).coroutine t).remaining =
          some (r,σ.sccs r) := by rw [goto_coroutine_self]; rfl
      have hbr := (hr.of_mem hc (mem_of_head? hb)).1
      refine ⟨(h.run.start b).goto ⟨hr.mono hl,hhead,fun x hx => (hset x hx).mono hl⟩ hrecv hasked,
        henter.start ((components_goto t _).mpr hc) (hbr.mono (later_goto σ t _)) hhead hself,?_⟩
      exact {h.log with}
  · cases hs

theorem ExecOK.start
    (ht : (σ.coroutine t).remaining = some (r,v::vs)) : ExecOK D p (σ.start v) := by
  obtain ⟨hr,hs,-⟩ := (h.run.running t).resolved ht
  obtain ⟨l,hl,-⟩ := h.sched.left t r _ ht
  have hvr := (hr.of_mem hc (x:=v) (by simp [hl])).1
  refine ⟨h.run.start v,h.sched.start hc hvr (hs.mono (later_start σ v) rfl) ht,?_⟩
  exact {h.log with}

theorem ExecOK.pass
    (ht : (σ.coroutine t).remaining = some (r,v::vs)) (hv : σ.logApplyStarted v = true)
    (hp : p ∉ D.partitions v) : ExecOK D p ((σ.finish v).goto t (.execute r vs)) := by
  have hl := later_finish σ v
  obtain ⟨hr,hs,hset⟩ := (h.run.running t).resolved ht
  refine ⟨(h.run.finish v).goto ⟨hr.mono hl,hs.mono hl rfl,fun x hx => (hset x hx).mono hl⟩
      (h.received ht) fun y hy => absurd hy (asking_of_remaining ht y),
    h.sched.finish hc (fun _ _ _ => h.resolved) ht hv,?_⟩
  exact {h.log.pass hp with}

theorem ExecOK.commitExecute
    (hk : σ.coroutine t = .waitCommit r v vs) (hrecv : σ.commitReceived v = true) :
    ExecOK D p (σ.commitExecute t r v vs) := by
  have hl := later_finish σ v
  have ht : (σ.coroutine t).remaining = some (r,v::vs) := by rw [hk]; rfl
  have hrun := h.run.running t
  rw [hk] at hrun
  obtain ⟨⟨hr,hs,hset⟩,hp,hv⟩ := hrun
  obtain ⟨l,hl₁,-,hl₃⟩ := h.sched.left t r _ ht
  have hvm : v ∈ σ.sccs r := by simp [hl₁]
  have hsorted := hr.sorted hc
  rw [hl₁,pairwise_append] at hsorted
  have hbefore : ∀ x, σ.logApplyFinished x = true → Mutual D.adj x v → x < v := by
    intro x hx hm
    have hxm := hr.mem_of_mutual hc ((hr.of_mem hc hvm).2.trans hm.symm)
    rw [hl₁] at hxm
    rcases mem_append.mp hxm with hxm | hxm
    · exact hsorted.2.2 x hxm v mem_cons_self
    · rw [hl₃ x hxm] at hx
      cases hx
  have hrunning : RunOK D p ((σ.finish v).goto t (.execute r vs)) :=
    (h.run.finish v).goto ⟨hr.mono hl,hs.mono hl rfl,fun x hx => (hset x hx).mono hl⟩
      (h.received ht) fun y hy => absurd hy (asking_of_remaining ht y)
  refine ⟨hrunning.later ?_ rfl rfl rfl (fun _ hx => hx) rfl fun _ hx => hx,
    (h.sched.finish hc (fun _ _ _ => h.resolved) ht hv).frame _ _ _,?_⟩
  · exact Later.frame _ _ _ _ _ _ _ _ _ _ _ _ _
  · obtain ⟨l₁,l₂,l₃,l₄,l₅⟩ :=
      h.log.execute (hset v hvm) hp hrecv (hl₃ v mem_cons_self) hbefore
    exact ⟨l₁,l₂,l₃,l₄,l₅⟩

end

end

end Executing

section Checking

theorem later_markMember (σ : RccServer Site Par Tx) (x : Tx) : Later σ (σ.markMember x) :=
  Later.frame σ _ _ _ _ _ _ _ _ _ _ _ _

theorem later_markScc (σ : RccServer Site Par Tx) (r : SccRef Tx) : Later σ (σ.markScc r) :=
  Later.frame σ _ _ _ _ _ _ _ _ _ _ _ _

theorem RunOK.markMember (h : RunOK D p σ) (hx : Settled D p σ x) : RunOK D p (σ.markMember x) := by
  refine {h with running := fun t => (h.running t).mono (later_markMember σ x), member := ?_}
  intro y hy
  simp only [RccServer.markMember,update_apply] at hy
  split_ifs at hy with hyx
  · rw [hyx]
    exact hx
  · exact h.member y hy

theorem RunOK.markScc (h : RunOK D p σ)
    (hset : ∀ x ∈ σ.sccs r, ∀ y, Mutual D.adj x y → Settled D p σ y) : RunOK D p (σ.markScc r) := by
  refine {h with running := fun t => (h.running t).mono (later_markScc σ r), members := ?_}
  intro x hx
  simp only [RccServer.markScc,Bool.or_eq_true,decide_eq_true_eq] at hx
  exact hx.elim (h.members x) (hset x)

theorem ExecOK.markMember (h : ExecOK D p σ) (hx : Settled D p σ x) : ExecOK D p (σ.markMember x) := by
  refine ⟨h.run.markMember hx,h.sched.frame _ _ _,?_⟩
  exact {h.log with}

theorem ExecOK.markScc (h : ExecOK D p σ)
    (hset : ∀ x ∈ σ.sccs r, ∀ y, Mutual D.adj x y → Settled D p σ y) : ExecOK D p (σ.markScc r) := by
  refine ⟨h.run.markScc hset,h.sched.frame _ _ _,?_⟩
  exact {h.log with}

end Checking

section Steps

variable {k : Coroutine Tx} {v self parent : Tx} {w : Walk Tx} {vs : List Tx} {i j : ℕ}

section

variable (h : ExecOK D p σ)
include h

theorem ExecOK.move {k' : Coroutine Tx} (hk : σ.coroutine t = k)
    (hidle : k ≠ .idle) (hask : k.asking = none) (hrem : k'.remaining = k.remaining)
    (hrun : Running D p σ t k') : ExecOK D p (σ.goto t k') := by
  refine h.goto hrun (h.run.received t (hk ▸ hidle)) ?_ (hk ▸ hrem)
  intro y hy
  rw [hk,hask] at hy
  cases hy

theorem ExecOK.resolve [Fintype Tx] (hok : ServerOK D ready p σ)
    (ht : σ.allAncCmtHint t = true) (hrecv : σ.commitReceived t = true)
    (hask : (σ.coroutine t).asking = none) (hrem : (σ.coroutine t).remaining = none)
    (hs : σ.resolve t = some σ') : ExecOK D p σ' := by
  obtain ⟨hfind,hdone⟩ := hok.findSccPred ht
  have hdecide := hfind.decideScc hdone
  have ha := hok.aside_findSccPred ht
  have ha' := aside_decideScc ((σ.findSccPred t).sccOf t) (σ.findSccPred t)
  unfold RccServer.resolve at hs
  simp only [if_neg hdone,some.injEq] at hs
  subst hs
  have hexec := (h.aside hok.comps hfind.comps ha).aside hfind.comps hdecide.comps ha'
  have hco := ha'.coroutine.trans ha.coroutine
  refine hexec.goto ⟨⟨?_,?_,?_,?_⟩,by simp⟩ (ha'.received t (ha.received t hrecv)) ?_ ?_
  · exact (ha'.later.scc t hdone).1
  · exact ha'.later.done hdone
  · exact ha'.later.hint t (ha.later.hint t ht)
  · exact (hfind.comps.isDecided_decideScc hdone t).mpr (Or.inr (Mutual.refl t))
  · intro y hy
    rw [hco,hask] at hy
    cases hy
  · rw [hco,hrem]
    rfl

theorem ExecOK.ask {par : Par} (hk : σ.coroutine t = k) (hidle : k ≠ .idle)
    (hask : k.asking = none) (hrem : k.remaining = none) : ExecOK D p ({σ with
      duringAsking := Function.update σ.duringAsking parent true
      inquiry := Function.update σ.inquiry parent (.sent par)}.goto t
        (.inquire w self parent vs)) := by
  have hother : ∀ x y, (σ.coroutine x).asking = some y → x ≠ t := by
    rintro x y hx rfl
    rw [hk,hask] at hx
    cases hx
  have hmove : ExecOK D p (σ.goto t (.inquire w self parent vs)) :=
    h.move hk hidle hask hrem.symm trivial
  obtain ⟨⟨hrun,hrecv,hmember,hmembers,hasking,hinq⟩,⟨hs,hf,hleft,honce,hbusy⟩,hlog⟩ := hmove
  refine ⟨⟨?_,hrecv,hmember,hmembers,?_,?_⟩,⟨hs,hf,hleft,honce,hbusy⟩,
    hlog.later ⟨rfl,rfl,rfl,rfl,rfl⟩ fun _ hx => hx⟩
  · intro x
    refine Running.mono ?_ (hrun x)
    refine ⟨fun _ h => h,fun _ h => h,fun _ h => h,fun _ _ => ⟨rfl,rfl⟩,fun _ h => h,fun _ h => h,?_⟩
    intro y hy
    show update σ.duringAsking parent true y = true
    rw [update_apply]
    split_ifs
    · rfl
    · exact hy
  · intro y hy
    by_cases hyp : y = parent
    · refine Or.inr ⟨t,?_⟩
      rw [goto_coroutine_self,hyp]
      rfl
    · refine (h.run.asking y ?_).imp id fun ⟨x,hx⟩ => ⟨x,?_⟩
      · exact (update_of_ne hyp ..).symm.trans hy
      · rw [goto_coroutine_of_ne _ _ (hother x y hx)]
        exact hx
  · intro y hy
    show update σ.inquiry parent (.sent par) y ≠ .idle
    rw [update_apply]
    split_ifs with hyp
    · nofun
    · exact h.run.inquired y ((update_of_ne hyp ..).symm.trans hy)

section

variable (hok : ServerOK D ready p σ)
include hok

theorem ExecOK.inquired {reply : InquireReply Par Tx}
    (hk : σ.coroutine t = .inquire w self parent vs) (hreply : σ.inquiry parent = .replied reply)
    (hfresh : ∀ e, reply = .decided [e] → ¬σ.Done parent) (hrem : k.remaining = none)
    (hrun : Running D p (σ.inquired parent reply) t k) :
    ExecOK D p ((σ.inquired parent reply).goto t k) := by
  have hasked : (σ.coroutine t).asking = some parent := by rw [hk]; rfl
  obtain ⟨ha,hc⟩ :=
    hok.comps.aside_inquired (hok.replyOK hreply) hfresh (hok.asking t parent hasked).2
  have hcomps := (components_goto t _).mp (hok.inquired hk (hok.replyOK hreply) hfresh).comps
  have hrecv := h.run.received t (by rw [hk]; nofun)
  refine (h.aside hok.comps hcomps ha).goto hrun (ha.received t hrecv) ?_ ?_
  · intro y hy
    rw [ha.coroutine,hasked] at hy
    cases hy
    exact hc
  · rw [ha.coroutine,hk,hrem]
    rfl

theorem ExecOK.lastMember (hk : σ.coroutine t = .checkMember r i) (hnone : (σ.sccs r)[i]? = none)
    (hs : (σ.markScc r).executeScc t r = some σ') : ExecOK D p σ' := by
  have hrun := h.run.running t
  rw [hk] at hrun
  obtain ⟨hr,hset⟩ := hrun
  rw [take_of_length_le (List.getElem?_eq_none_iff.mp hnone)] at hset
  have hall : ∀ x ∈ σ.sccs r, ∀ y, Mutual D.adj x y → Settled D p σ y := fun x hx y hxy =>
    hset y (hr.mem_of_mutual hok.comps ((hr.of_mem hok.comps hx).2.trans hxy))
  have hok' : ServerOK D ready p (σ.markScc r) := hok.frame _ _ _ _ _ _
  have hl := later_markScc σ r
  exact (h.markScc hall).executeScc hok'.comps (hr.mono hl) (fun x hx => (hset x hx).mono hl)
    (h.run.received t (by rw [hk]; nofun)) (congrArg asking hk)
    (congrArg remaining hk) hs

theorem ExecOK.markedScc (hk : σ.coroutine t = .checkMember r i) (hv : (σ.sccs r)[i]? = some v)
    (hmark : σ.sccAllNonsccParentsExecutedHint v = true) (hs : σ.executeScc t r = some σ') :
    ExecOK D p σ' := by
  have hrun := h.run.running t
  rw [hk] at hrun
  have hr := hrun.1
  have hvm := (hr.of_mem hok.comps (mem_of_getElem? hv)).2
  refine h.executeScc hok.comps hr (fun x hx => h.run.members v hmark x ?_)
    (h.run.received t (by rw [hk]; nofun)) (congrArg asking hk)
    (congrArg remaining hk) hs
  exact hvm.symm.trans (hr.of_mem hok.comps hx).2

theorem ExecOK.lastParent (hk : σ.coroutine t = .checkParent r i j) (hv : (σ.sccs r)[i]? = some v)
    (hnone : (σ.parentIds v)[j]? = none) :
    ExecOK D p ((σ.markMember v).goto t (.checkMember r (i+1))) := by
  have hrun := h.run.running t
  rw [hk] at hrun
  obtain ⟨hr,hset,x,hx,hwait⟩ := hrun
  rw [hv] at hx
  cases hx
  have hd := (hr.of_mem hok.comps (mem_of_getElem? hv)).1.done
  rw [hok.known.parentIds (hok.comps.committing v hd),List.getElem?_eq_none_iff] at hnone
  rw [take_of_length_le hnone] at hwait
  have hnext : Running D p σ t (.checkMember r (i+1)) := ⟨hr,Settled.take_succ hset hv hwait⟩
  exact (h.markMember hwait).move hk nofun rfl rfl (hnext.mono (later_markMember σ v))

end

theorem ExecOK.executed (hk : σ.coroutine t = .execute r []) : ExecOK D p (σ.goto t .finished) := by
  have ht : (σ.coroutine t).remaining = some (r,[]) := congrArg remaining hk
  obtain ⟨l,hl,hfin,-⟩ := h.sched.left t r [] ht
  have hr := h.resolved ht
  rw [append_nil,hr.sccs_eq] at hl
  refine ⟨h.run.goto ⟨hr.done,fun x hx => hfin x (hl ▸ hx)⟩ (h.received ht) ?_,h.sched.leave ht,
    h.log.later ⟨rfl,rfl,rfl,rfl,rfl⟩ fun _ hx => hx⟩
  exact fun y hy => absurd hy (asking_of_remaining ht y)

end

theorem ServerOK.resolved_of_parents (hok : ServerOK D ready p σ) (hr : Resolved σ t r)
    (hv : (σ.sccs r)[i]? = some v) (hparent : (σ.parentIds v)[j]? = some parent) :
    Resolved σ v r ∧ Mutual D.adj t v ∧ (D.adj v)[j]? = some parent := by
  obtain ⟨hvr,hm⟩ := hr.of_mem hok.comps (mem_of_getElem? hv)
  rw [hok.known.parentIds (hok.comps.committing v hvr.done)] at hparent
  exact ⟨hvr,hm,hparent⟩

/-- A parent with another vector than the first member is in another component. -/
theorem Resolved.mutual_iff (hc : Components D ready σ) (hr : Resolved σ t r) :
    (σ.sccs r).head?.map σ.scc = some (σ.scc x) ↔ Mutual D.adj t x := by
  obtain ⟨b,hb⟩ : ∃ b, (σ.sccs r).head? = some b := by
    have hne : σ.sccs r ≠ [] := hr.sccs_eq ▸ hr.done
    exact ⟨_,List.head?_eq_some_head hne⟩
  have hbr := (hr.of_mem hc (mem_of_head? hb)).1
  rw [hb,map_some,hbr.ref,some.injEq]
  constructor
  · intro hx
    have hof : σ.sccOf x = σ.sccOf t := by
      unfold sccOf
      rw [← hx,hr.ref]
    have hd : σ.Done x := by
      unfold RccServer.Done
      rw [hof]
      exact hr.done
    have hmem : x ∈ σ.sccOf x := ((hc.component x hd).mem x).mpr (Mutual.refl x)
    rw [hof] at hmem
    exact ((hc.component t hr.done).mem x).mp hmem
  · intro hm
    rw [hc.shared t x hr.done hm,hr.ref]

variable [LinearOrder Par]

section Parents

variable {i j : ℕ} {v parent : Tx}

theorem ExecOK.waitParent (h : ExecOK D p σ) (hok : ServerOK D ready p σ)
    (hk : σ.coroutine t = .checkParent r i j) (hv : (σ.sccs r)[i]? = some v)
    (hparent : (σ.parentIds v)[j]? = some parent) (hi : σ.involve p parent = true)
    (hne : (σ.sccs r).head?.map σ.scc ≠ some (σ.scc parent)) :
    ExecOK D p ((σ.cacheInvolve p parent).goto t (.waitParent r i j parent)) := by
  have hq := quiet_cacheInvolve σ p parent
  have hrun := h.run.running t
  rw [hk] at hrun
  obtain ⟨hr,hset,x,hx,hwait⟩ := hrun
  rw [hv] at hx
  cases hx
  have hadj := (hok.resolved_of_parents hr hv hparent).2.2
  have hm : ¬Mutual D.adj t parent := fun hm => hne ((hr.mutual_iff hok.comps).mpr hm)
  have hwaiting : Running D p σ t (.waitParent r i j parent) :=
    ⟨hr,hset,⟨v,hv,hwait,hadj⟩,hok.known.of_involve hi,hm⟩
  exact (h.quiet hq).move (hq.coroutine hk) nofun rfl rfl (hwaiting.mono hq.aside.later)

/-- A parent need not be waited for: it does not involve the partition, since it was
pre-accepted here otherwise, or it is a member. -/
theorem ExecOK.nextParent (h : ExecOK D p σ) (hok : ServerOK D ready p σ) (hhere : Here D ready p σ)
    (hk : σ.coroutine t = .checkParent r i j) (hv : (σ.sccs r)[i]? = some v)
    (hparent : (σ.parentIds v)[j]? = some parent)
    (hpass : σ.involve p parent = false ∨ (σ.sccs r).head?.map σ.scc = some (σ.scc parent)) :
    ExecOK D p ((σ.cacheInvolve p parent).goto t (.checkParent r i (j+1))) := by
  have hq := quiet_cacheInvolve σ p parent
  have hrun := h.run.running t
  rw [hk] at hrun
  obtain ⟨hr,hset,x,hx,hwait⟩ := hrun
  rw [hv] at hx
  cases hx
  obtain ⟨hvr,hm,hadj⟩ := hok.resolved_of_parents hr hv hparent
  have hnext : Running D p σ t (.checkParent r i (j+1)) := by
    refine ⟨hr,hset,v,hv,hwait.take_succ hadj fun hp hnm => ?_⟩
    rcases hpass with hi | hscc
    · have hready := hok.comps.parents v hvr.done parent (mem_of_getElem? hadj)
      rw [hok.known.involve_of_dispatched (hhere parent hready hp)] at hi
      cases hi
    · exact absurd (hm.symm.trans ((hr.mutual_iff hok.comps).mp hscc)) hnm
  exact (h.quiet hq).move (hq.coroutine hk) nofun rfl rfl (hnext.mono hq.aside.later)

end Parents

section Members

variable {v : Tx} {vs : List Tx}

theorem ExecOK.startTx (h : ExecOK D p σ) (hok : ServerOK D ready p σ)
    (hk : σ.coroutine t = .execute r (v::vs)) (hi : σ.involve p v = true) :
    ExecOK D p (((σ.start v).cacheInvolve p v).goto t (.waitCommit r v vs)) := by
  have ht : (σ.coroutine t).remaining = some (r,v::vs) := congrArg remaining hk
  have hq := quiet_cacheInvolve (σ.start v) p v
  have hwaiting : Running D p (σ.start v) t (.waitCommit r v vs) := by
    refine ⟨?_,hok.known.of_involve hi,start_logApplyStarted.mpr (Or.inr rfl)⟩
    exact ((h.start hok.comps ht).run.running t).resolved ht
  exact ((h.start hok.comps ht).quiet hq).move (hq.coroutine hk) nofun rfl rfl
    (hwaiting.mono hq.aside.later)

theorem ExecOK.passTx (h : ExecOK D p σ) (hok : ServerOK D ready p σ) (hhere : Here D ready p σ)
    (hk : σ.coroutine t = .execute r (v::vs)) (hhint : σ.allAncCmtHint v = true)
    (hi : σ.involve p v = false) :
    ExecOK D p ((((σ.start v).cacheInvolve p v).finish v).goto t (.execute r vs)) := by
  have ht : (σ.coroutine t).remaining = some (r,v::vs) := congrArg remaining hk
  have hq := quiet_cacheInvolve (σ.start v) p v
  have hstart : ServerOK D ready p (σ.start v) := hok.frame _ _ _ _ _ _
  refine ((h.start hok.comps ht).quiet hq).pass (hstart.cacheInvolve hhere).comps ?_ ?_ ?_
  · rw [hq.coroutine hk]
    rfl
  · rw [hq.aside.log.started]
    exact start_logApplyStarted.mpr (Or.inr rfl)
  · intro hp
    have hready := hok.known.ready v (hok.comps.hinted v hhint)
    rw [hok.known.involve_of_dispatched (hhere v hready hp)] at hi
    cases hi

end Members

theorem aside_receiveCommit (σ : RccServer Site Par Tx) (p : Par) (t : Tx)
    (parents : ParentSet Par Tx) : Aside σ (σ.receiveCommit p t parents) := by
  have hinsert : Quiet σ (σ.insertPartition t {p}) := ⟨_,_,_,rfl⟩
  have hquiet := hinsert.trans (quiet_cacheInvolve _ p t)
  refine (hquiet.aside.trans (aside_replaceParentEdges _ t parents)).trans
    (Aside.trans ?_ (aside_setStatus _ t .committing))
  refine ⟨Later.frame _ _ _ _ _ _ _ _ _ _ _ _ _,⟨rfl,rfl,rfl,rfl,rfl⟩,rfl,?_,rfl,fun _ h => h⟩
  intro x hx
  simp only [update_apply]
  split_ifs
  · rfl
  · exact hx

theorem aside_onPreAccept {deps : ParentSet Par Tx} (hs : σ.onPreAccept p t deps = some σ') :
    Aside σ σ' := by
  have hinsert : Quiet σ (σ.insertPartition t {p}) := ⟨_,_,_,rfl⟩
  have ha := hinsert.aside.trans (aside_setStatus _ t .preAccepted)
  unfold onPreAccept at hs
  split_ifs at hs
  simp only [some.injEq] at hs
  subst hs
  refine Aside.trans ?_ (Aside.frame _ _ _ _ _ _)
  split_ifs
  · exact ha
  · exact ha.trans (aside_replaceParentEdges _ t _)

theorem quiet_onInquire (hs : σ.onInquire p t = some σ') : Quiet σ σ' := by
  unfold onInquire at hs
  simp only [ite_none_right_eq_some,some.injEq] at hs
  rw [← hs.2]
  have hinsert : Quiet σ (σ.insertPartition t {p}) := ⟨_,_,_,rfl⟩
  exact hinsert.trans (quiet_cacheInvolve _ p t)

variable [Fintype Tx]

theorem ExecOK.resume (h : ExecOK D p σ) (hok : ServerOK D ready p σ) (hhere : Here D ready p σ)
    (hfresh : σ.freshReply t = true) (hs : Resumed p σ t σ') : ExecOK D p σ' := by
  have hw := hok.walking t
  have hrun := h.run.running t
  cases hs with
  | rewalk hk | pop hk hcons | close hk | applied hk hfin | committed hk hc =>
    exact h.move hk nofun rfl rfl trivial
  | @resolve w _ hk hnil hs =>
    rw [hk] at hw
    have ha := aside_finishWalk σ w
    have hok' := hok.finishWalk hw hnil
    have hrecv := h.run.received t (by rw [hk]; nofun)
    refine (h.aside hok.comps hok'.comps ha).resolve hok' ?_ hrecv ?_ ?_ hs
    · exact Bool.or_eq_true_iff.mpr (.inr (decide_eq_true hw.root))
    · rw [ha.coroutine,hk]
      rfl
    · rw [ha.coroutine,hk]
      rfl
  | @skip w self parent vs hk hskip =>
    exact (h.quiet (quiet_markWaiting σ self)).move hk nofun rfl rfl trivial
  | @waitApplied w self parent vs τ hk hτ hi hlt =>
    rw [hk] at hw
    have hp := (hok.looking hhere hw.committing hτ).known.of_involve hi
    exact (h.quiet hτ.quiet).move (hτ.quiet.coroutine hk) nofun rfl rfl ⟨hlt,hp⟩
  | push hk hτ hc =>
    exact (h.quiet hτ.quiet).move (hτ.quiet.coroutine hk) nofun rfl rfl trivial
  | @waitCommitting w self parent vs τ hk hτ hc =>
    rw [hk] at hw
    have hp := hc.imp (hok.looking hhere hw.committing hτ).known.of_involve id
    exact (h.quiet hτ.quiet).move (hτ.quiet.coroutine hk) nofun rfl rfl hp
  | ask hk hτ hasked hpar =>
    exact (h.quiet hτ.quiet).ask (hτ.quiet.coroutine hk) nofun rfl rfl
  | covered hk hreply hhint =>
    exact h.inquired hok hk hreply (freshReply_single hfresh hk hreply) rfl trivial
  | @inquired w self parent vs reply hk hreply =>
    obtain ⟨hasked,hnil⟩ := hok.asking t parent (by rw [hk]; rfl)
    have hsingle := freshReply_single hfresh hk hreply
    refine h.inquired hok hk hreply hsingle rfl (Or.inr ?_)
    rw [(hok.comps.aside_inquired (hok.replyOK hreply) hsingle hnil).1.asked]
    exact hasked
  | lastMember hk hnone hs => exact h.lastMember hok hk hnone hs
  | markedScc hk hv hmark hs => exact h.markedScc hok hk hv hmark hs
  | @markedMember r i v hk hv hmark =>
    rw [hk] at hrun
    exact h.move hk nofun rfl rfl ⟨hrun.1,Settled.take_succ hrun.2 hv (h.run.member v hmark)⟩
  | @nextMember r i v hk hv =>
    rw [hk] at hrun
    exact h.move hk nofun rfl rfl ⟨hrun.1,hrun.2,v,hv,by simp [Waited]⟩
  | lastParent hk hv hnone => exact h.lastParent hok hk hv hnone
  | waitParent hk hv hparent hi hne => exact h.waitParent hok hk hv hparent hi hne
  | nextParent hk hv hparent hpass => exact h.nextParent hok hhere hk hv hparent hpass
  | @parentApplied r i j parent hk hfin =>
    rw [hk] at hrun
    obtain ⟨hr,hset,⟨x,hx,hwait,hadj⟩,-⟩ := hrun
    exact h.move hk nofun rfl rfl ⟨hr,hset,x,hx,hwait.take_succ hadj fun _ _ => hfin⟩
  | @ended r v hk hfin =>
    rw [hk] at hrun
    obtain ⟨hr,hs,hlast⟩ := hrun
    exact h.move hk nofun rfl rfl ⟨hr.done,h.sched.all_finished hr hs hlast hfin⟩
  | executed hk => exact h.executed hk
  | start hk hhint hi => exact h.startTx hok hk hi
  | pass hk hhint hi => exact h.passTx hok hhere hk hhint hi
  | execute hk hrecv => exact h.commitExecute hok.comps hk hrecv

theorem ExecOK.onCommit (h : ExecOK D p σ) (hok : ServerOK D ready p σ) (hhere : Here D ready p σ)
    (hp : p ∈ D.partitions t) (hready : ready t)
    (hs : σ.onCommit p t (D.parents t) = some σ') : ExecOK D p σ' := by
  obtain ⟨hok',ht⟩ := hok.receiveCommit hhere hp hready
  have ha := aside_receiveCommit σ p t (D.parents t)
  have hexec := h.aside hok.comps hok'.comps ha
  have hrecv : (σ.receiveCommit p t (D.parents t)).commitReceived t = true := update_self ..
  unfold RccServer.onCommit at hs
  split_ifs at hs with hguard
  have hidle : (σ.receiveCommit p t (D.parents t)).coroutine t = .idle := by
    rw [ha.coroutine]
    by_contra hne
    exact hguard.2.1 (h.run.received t hne)
  have hasking : ∀ y, ((σ.receiveCommit p t (D.parents t)).coroutine t).asking ≠ some y := by
    rw [hidle]
    nofun
  unfold waitPredecessors at hs
  split_ifs at hs with hhint hwait
  · exact hexec.resolve hok' hhint hrecv (congrArg asking hidle) (congrArg remaining hidle) hs
  · cases hs
    exact hexec.goto trivial hrecv (fun y hy => absurd hy (hasking y))
      (congrArg remaining hidle).symm
  · cases hs
    exact hexec.goto trivial hrecv (fun y hy => absurd hy (hasking y))
      (congrArg remaining hidle).symm

end Steps

section Cluster

variable {i : Inquiry Site Par Tx} {c : Cluster Site Par Tx} {s : Site}

theorem ExecOK.init : ExecOK D p (RccServer.init : RccServer Site Par Tx) := by
  refine ⟨⟨fun _ => trivial,?_,nofun,nofun,nofun,nofun⟩,⟨nofun,nofun,nofun,nofun,?_⟩,
    ⟨?_,nodup_nil,nofun,?_,List.Pairwise.nil⟩⟩
  · exact fun t ht => absurd rfl ht
  · exact fun x hx => absurd rfl hx
  · simp [RccServer.init]
  · intro l x l' hl
    simp [RccServer.init] at hl

theorem ExecOK.setInquiry (h : ExecOK D p σ) (hi : i ≠ .idle) :
    ExecOK D p {σ with inquiry := Function.update σ.inquiry t i} := by
  obtain ⟨hrun,⟨hs,hf,hleft,honce,hbusy⟩,hlog⟩ := h
  refine ⟨hrun.later ?_ rfl rfl rfl (fun _ hx => hx) rfl ?_,⟨hs,hf,hleft,honce,hbusy⟩,
    hlog.later ⟨rfl,rfl,rfl,rfl,rfl⟩ fun _ hx => hx⟩
  · exact Later.frame _ _ _ _ _ _ _ _ _ _ _ _ _
  · intro x hx
    simp only [update_apply]
    split_ifs
    · exact hi
    · exact hx

def Executing (D : Deployment Site Par Tx) (c : Cluster Site Par Tx) : Prop :=
  Inv D c ∧ ∀ s, ExecOK D (D.partitionId s) (c s)

variable [DecidableEq Site]

theorem exec_update (h : ∀ s, ExecOK D (D.partitionId s) (c s)) (hσ : ExecOK D (D.partitionId s) σ)
    (s' : Site) : ExecOK D (D.partitionId s') (Function.update c s σ s') :=
  (forall_update_iff c fun s σ => ExecOK D (D.partitionId s) σ).mpr ⟨hσ,fun s _ => h s⟩ s'

theorem exec_setInquiry (h : ∀ s, ExecOK D (D.partitionId s) (c s)) (hi : i ≠ .idle) (s' : Site) :
    ExecOK D (D.partitionId s') (setInquiry c s t i s') :=
  exec_update h ((h s).setInquiry hi) s'

variable [Fintype Site] [LinearOrder Par] [Fintype Tx]

/-- What holds of the execution holds after each step with fresh replies. -/
theorem Executing.step {c' : Cluster Site Par Tx} {a : Action Site Par Tx} (h : Executing D c)
    (hok : FreshReply c a) (hs : Rcc.step D c a = some c') : Executing D c' := by
  obtain ⟨hinv,hexec⟩ := h
  have hinv' := hinv.step hok hs
  have hhere : ∀ s, Here D (Ready D c) (D.partitionId s) (c s) := fun s t ht => ht s
  refine ⟨hinv',?_⟩
  cases stepped_of_step hs with
  | @preAccept s t deps σ hp hσ =>
    refine exec_update hexec ?_
    exact (hexec s).aside (hinv s).comps ((hinv s).onPreAccept hp hσ).comps (aside_onPreAccept hσ)
  | @commit s t σ hp hready hσ =>
    exact exec_update hexec ((hexec s).onCommit (hinv s) (hhere s) hp hready hσ)
  | @deliver s t par σ hi hσ =>
    exact exec_setInquiry (exec_update hexec ((hexec _).quiet (quiet_onInquire hσ))) nofun
  | @answer s q t reply hi hc hr => exact exec_setInquiry hexec nofun
  | @resume s t σ hσ =>
    exact exec_update hexec ((hexec s).resume (hinv s) (hhere s) hok (resumed_of_resume hσ))

end Cluster

end Janus.Rcc
