import Janus.RccComponents

/-! The invariant of the execution: what a coroutine has found true at each of its waits, how the
members left to execute relate to what is started and finished, and what the list of executed
transactions says. The lemmas carry each part over the changes that the steps are made of. -/
namespace Janus.Rcc

open Tarjan Transition Function List RccServer

variable {Site Par Tx : Type}
variable {τ υ : RccServer Site Par Tx}

structure Later (σ σ' : RccServer Site Par Tx) : Prop where
  committing : ∀ t, σ.IsCommitting t → σ'.IsCommitting t
  decided : ∀ t, σ.IsDecided t → σ'.IsDecided t
  hint : ∀ t, σ.allAncCmtHint t = true → σ'.allAncCmtHint t = true
  scc : ∀ t, σ.Done t → σ'.scc t = σ.scc t ∧ σ'.sccOf t = σ.sccOf t
  started : ∀ t, σ.logApplyStarted t = true → σ'.logApplyStarted t = true
  finished : ∀ t, σ.logApplyFinished t = true → σ'.logApplyFinished t = true
  asked : ∀ t, σ.duringAsking t = true → σ'.duringAsking t = true

theorem Later.frame (σ : RccServer Site Par Tx) (parents : Tx → ParentSet Par Tx)
    (partition : Tx → Finset Par) (flag : Tx → InvolveEnum)
    (waiting done hint sccHint dispatched received : Tx → Bool) (inquiry : Tx → Inquiry Site Par Tx)
    (coroutine : Tx → Coroutine Tx) (executed : List Tx) :
    Later σ {σ with
      parents := parents
      partition := partition
      involveFlag := flag
      waitingAllAncCommitting := waiting
      waitAllAncCommitDone := done
      allNonsccParentsExecutedHint := hint
      sccAllNonsccParentsExecutedHint := sccHint
      fullyDispatched := dispatched
      commitReceived := received
      inquiry := inquiry
      coroutine := coroutine
      executed := executed} :=
  ⟨fun _ h => h,fun _ h => h,fun _ h => h,fun _ _ => ⟨rfl,rfl⟩,fun _ h => h,fun _ h => h,fun _ h => h⟩

theorem Later.done {σ σ' : RccServer Site Par Tx} (h : Later σ σ') {t : Tx} (ht : σ.Done t) :
    σ'.Done t := by
  unfold RccServer.Done
  rw [(h.scc t ht).2]
  exact ht

theorem Later.trans {σ : RccServer Site Par Tx} (h : Later σ τ) (h' : Later τ υ) : Later σ υ where
  committing t ht := h'.committing t (h.committing t ht)
  decided t ht := h'.decided t (h.decided t ht)
  hint t ht := h'.hint t (h.hint t ht)
  scc t ht := ⟨(h'.scc t (h.done ht)).1.trans (h.scc t ht).1,(h'.scc t (h.done ht)).2.trans (h.scc t ht).2⟩
  started t ht := h'.started t (h.started t ht)
  finished t ht := h'.finished t (h.finished t ht)
  asked t ht := h'.asked t (h.asked t ht)

structure SameLog (σ σ' : RccServer Site Par Tx) : Prop where
  started : σ'.logApplyStarted = σ.logApplyStarted
  finished : σ'.logApplyFinished = σ.logApplyFinished
  executed : σ'.executed = σ.executed
  member : σ'.allNonsccParentsExecutedHint = σ.allNonsccParentsExecutedHint
  members : σ'.sccAllNonsccParentsExecutedHint = σ.sccAllNonsccParentsExecutedHint

structure Aside (σ σ' : RccServer Site Par Tx) : Prop where
  later : Later σ σ'
  log : SameLog σ σ'
  coroutine : σ'.coroutine = σ.coroutine
  received : ∀ x, σ.commitReceived x = true → σ'.commitReceived x = true
  asked : σ'.duringAsking = σ.duringAsking
  inquiry : ∀ x, σ.inquiry x ≠ .idle → σ'.inquiry x ≠ .idle

theorem SameLog.trans {σ : RccServer Site Par Tx} (h : SameLog σ τ) (h' : SameLog τ υ) :
    SameLog σ υ :=
  ⟨h'.started.trans h.started,h'.finished.trans h.finished,h'.executed.trans h.executed,
    h'.member.trans h.member,h'.members.trans h.members⟩

theorem Aside.trans {σ : RccServer Site Par Tx} (h : Aside σ τ) (h' : Aside τ υ) : Aside σ υ :=
  ⟨h.later.trans h'.later,h.log.trans h'.log,h'.coroutine.trans h.coroutine,
    fun x hx => h'.received x (h.received x hx),h'.asked.trans h.asked,
    fun x hx => h'.inquiry x (h.inquiry x hx)⟩

theorem Aside.frame (σ : RccServer Site Par Tx) (parents : Tx → ParentSet Par Tx)
    (partition : Tx → Finset Par) (flag : Tx → InvolveEnum) (waiting dispatched : Tx → Bool) :
    Aside σ {σ with
      parents := parents
      partition := partition
      involveFlag := flag
      waitingAllAncCommitting := waiting
      fullyDispatched := dispatched} :=
  ⟨Later.frame σ _ _ _ _ _ _ _ _ _ _ _ _,⟨rfl,rfl,rfl,rfl,rfl⟩,rfl,fun _ h => h,rfl,fun _ h => h⟩

theorem Aside.refl (σ : RccServer Site Par Tx) : Aside σ σ := Aside.frame σ _ _ _ _ _

theorem Quiet.aside {σ : RccServer Site Par Tx} (h : Quiet σ τ) : Aside σ τ := by
  obtain ⟨_,_,_,rfl⟩ := h
  exact Aside.frame σ _ _ _ _ _

theorem Quiet.coroutine {σ : RccServer Site Par Tx} {t : Tx} {k : Coroutine Tx} (h : Quiet σ τ)
    (hk : σ.coroutine t = k) : τ.coroutine t = k := by
  rw [h.aside.coroutine]
  exact hk

section Running

variable (D : Deployment Site Par Tx) (p : Par) (σ : RccServer Site Par Tx)

def Waited (x : Tx) (parents : List Tx) : Prop :=
  ∀ y ∈ parents, p ∈ D.partitions y → ¬Mutual D.adj x y → σ.logApplyFinished y = true

def Settled (x : Tx) : Prop := Waited D p σ x (D.adj x)

structure Resolved (t : Tx) (r : SccRef Tx) : Prop where
  ref : σ.scc t = r
  done : σ.Done t
  hint : σ.allAncCmtHint t = true
  decided : σ.IsDecided t

def HeadStarted (r : SccRef Tx) : Prop :=
  ∃ b, (σ.sccs r).head? = some b ∧ σ.logApplyStarted b = true

def Running [LT Tx] (t : Tx) : Coroutine Tx → Prop
  | .waitApplied _ _ parent _ => parent < t ∧ p ∈ D.partitions parent
  | .waitCommitting _ _ parent _ => p ∈ D.partitions parent ∨ σ.duringAsking parent = true
  | .checkMember r i => Resolved σ t r ∧ ∀ x ∈ (σ.sccs r).take i, Settled D p σ x
  | .checkParent r i j => Resolved σ t r ∧ (∀ x ∈ (σ.sccs r).take i, Settled D p σ x) ∧
      ∃ x, (σ.sccs r)[i]? = some x ∧ Waited D p σ x ((D.adj x).take j)
  | .waitParent r i j parent => Resolved σ t r ∧ (∀ x ∈ (σ.sccs r).take i, Settled D p σ x) ∧
      (∃ x, (σ.sccs r)[i]? = some x ∧ Waited D p σ x ((D.adj x).take j) ∧
        (D.adj x)[j]? = some parent) ∧ p ∈ D.partitions parent ∧ ¬Mutual D.adj t parent
  | .waitEnd r v => Resolved σ t r ∧ HeadStarted σ r ∧ (σ.sccs r).getLast? = some v
  | .execute r _ => Resolved σ t r ∧ HeadStarted σ r ∧ ∀ x ∈ σ.sccs r, Settled D p σ x
  | .waitCommit r v _ => (Resolved σ t r ∧ HeadStarted σ r ∧ ∀ x ∈ σ.sccs r, Settled D p σ x) ∧
      p ∈ D.partitions v ∧ σ.logApplyStarted v = true
  | .finished => σ.Done t ∧ ∀ x ∈ σ.sccOf t, σ.logApplyFinished x = true
  | _ => True

variable {D p σ} {σ' : RccServer Site Par Tx} {t x : Tx} {r : SccRef Tx}
variable {l : List Tx}

theorem Waited.mono (hl : Later σ σ') (h : Waited D p σ x l) : Waited D p σ' x l :=
  fun y hy hp hm => hl.finished y (h y hy hp hm)

theorem Waited.take_succ {j : ℕ} {y : Tx} (h : Waited D p σ x ((D.adj x).take j))
    (hy : (D.adj x)[j]? = some y)
    (hfin : p ∈ D.partitions y → ¬Mutual D.adj x y → σ.logApplyFinished y = true) :
    Waited D p σ x ((D.adj x).take (j+1)) := by
  intro z hz
  rw [take_add_one,hy,mem_append] at hz
  rcases hz with hz | hz
  · exact h z hz
  · have hzy : z = y := by simpa using hz
    rw [hzy]
    exact hfin

theorem Settled.take_succ {i : ℕ} (h : ∀ y ∈ l.take i, Settled D p σ y) (hx : l[i]? = some x)
    (hset : Settled D p σ x) : ∀ y ∈ l.take (i+1), Settled D p σ y := by
  intro y hy
  rw [take_add_one,hx,mem_append] at hy
  rcases hy with hy | hy
  · exact h y hy
  · have hyx : y = x := by simpa using hy
    rw [hyx]
    exact hset

theorem Resolved.mono (hl : Later σ σ') (h : Resolved σ t r) : Resolved σ' t r :=
  ⟨(hl.scc t h.done).1.trans h.ref,hl.done h.done,hl.hint t h.hint,hl.decided t h.decided⟩

theorem Resolved.sccs_eq (h : Resolved σ t r) : σ.sccs r = σ.sccOf t := by
  rw [← h.ref]
  rfl

theorem Resolved.sccs_later (hl : Later σ σ') (h : Resolved σ t r) : σ'.sccs r = σ.sccs r := by
  rw [(h.mono hl).sccs_eq,h.sccs_eq,(hl.scc t h.done).2]

theorem HeadStarted.mono (hl : Later σ σ') (heq : σ'.sccs r = σ.sccs r) (h : HeadStarted σ r) :
    HeadStarted σ' r := by
  obtain ⟨b,hb,hs⟩ := h
  exact ⟨b,heq ▸ hb,hl.started b hs⟩

theorem Running.mono [LT Tx] {k : Coroutine Tx} (hl : Later σ σ') (h : Running D p σ t k) :
    Running D p σ' t k := by
  have hsame : ∀ {r}, Resolved σ t r → σ.sccs r = σ'.sccs r := fun hr => (hr.sccs_later hl).symm
  have hmono : ∀ {l : List Tx}, (∀ x ∈ l, Settled D p σ x) → ∀ x ∈ l, Settled D p σ' x :=
    fun hset x hx => (hset x hx).mono hl
  cases k with
  | waitApplied w self parent vs => exact h
  | waitCommitting w self parent vs => exact h.imp id (hl.asked parent)
  | checkMember r i =>
    obtain ⟨hr,hset⟩ := h
    exact ⟨hr.mono hl,hsame hr ▸ hmono hset⟩
  | checkParent r i j =>
    obtain ⟨hr,hset,x,hx,hw⟩ := h
    exact ⟨hr.mono hl,hsame hr ▸ hmono hset,x,hsame hr ▸ hx,hw.mono hl⟩
  | waitParent r i j parent =>
    obtain ⟨hr,hset,⟨x,hx,hw,hj⟩,hp⟩ := h
    exact ⟨hr.mono hl,hsame hr ▸ hmono hset,⟨x,hsame hr ▸ hx,hw.mono hl,hj⟩,hp⟩
  | waitEnd r v =>
    obtain ⟨hr,hs,hv⟩ := h
    exact ⟨hr.mono hl,hs.mono hl (hr.sccs_later hl),hsame hr ▸ hv⟩
  | execute r vs =>
    obtain ⟨hr,hs,hset⟩ := h
    exact ⟨hr.mono hl,hs.mono hl (hr.sccs_later hl),hsame hr ▸ hmono hset⟩
  | waitCommit r v vs =>
    obtain ⟨⟨hr,hs,hset⟩,hp,hv⟩ := h
    exact ⟨⟨hr.mono hl,hs.mono hl (hr.sccs_later hl),hsame hr ▸ hmono hset⟩,hp,hl.started v hv⟩
  | finished =>
    refine ⟨hl.done h.1,fun x hx => ?_⟩
    rw [(hl.scc t h.1).2] at hx
    exact hl.finished x (h.2 x hx)
  | _ => trivial

end Running

section Invariants

def Coroutine.remaining : Coroutine Tx → Option (SccRef Tx × List Tx)
  | .execute r vs => some (r,vs)
  | .waitCommit r v vs => some (r,v::vs)
  | _ => none

theorem Coroutine.asking_of_remaining {k : Coroutine Tx} {r : SccRef Tx} {vs : List Tx}
    (hk : k.remaining = some (r,vs)) (y : Tx) : k.asking ≠ some y := by
  cases k <;> cases hk <;> nofun

structure RunOK [LinearOrder Tx] (D : Deployment Site Par Tx) (p : Par) (σ : RccServer Site Par Tx) : Prop where
  running : ∀ t, Running D p σ t (σ.coroutine t)
  received : ∀ t, σ.coroutine t ≠ .idle → σ.commitReceived t = true
  member : ∀ x, σ.allNonsccParentsExecutedHint x = true → Settled D p σ x
  members : ∀ x, σ.sccAllNonsccParentsExecutedHint x = true →
    ∀ y, Mutual D.adj x y → Settled D p σ y
  asking : ∀ y, σ.duringAsking y = true →
    σ.IsCommitting y ∨ ∃ t, (σ.coroutine t).asking = some y
  inquired : ∀ y, σ.duringAsking y = true → σ.inquiry y ≠ .idle

/-- A component that is started is finished or has one coroutine that executes it. -/
structure SchedOK (σ : RccServer Site Par Tx) : Prop where
  started : ∀ x, σ.logApplyStarted x = true →
    σ.allAncCmtHint x = true ∧ σ.Done x ∧ HeadStarted σ (σ.scc x)
  finished : ∀ x, σ.logApplyFinished x = true → σ.logApplyStarted x = true
  left : ∀ t r vs, (σ.coroutine t).remaining = some (r,vs) →
    ∃ l, σ.sccs r = l++vs ∧ (∀ x ∈ l, σ.logApplyFinished x = true) ∧
      ∀ x ∈ vs, σ.logApplyFinished x = false
  once : ∀ t t' r vs vs', (σ.coroutine t).remaining = some (r,vs) →
    (σ.coroutine t').remaining = some (r,vs') → t = t'
  busy : ∀ x, σ.Done x → HeadStarted σ (σ.scc x) → (∀ y ∈ σ.sccOf x, σ.logApplyFinished y = true) ∨
    ∃ t vs, (σ.coroutine t).remaining = some (σ.scc x,vs)

structure LogOK [LinearOrder Tx] (D : Deployment Site Par Tx) (p : Par) (σ : RccServer Site Par Tx) : Prop where
  mem : ∀ x, x ∈ σ.executed ↔ σ.logApplyFinished x = true ∧ p ∈ D.partitions x
  nodup : σ.executed.Nodup
  received : ∀ x ∈ σ.executed, σ.commitReceived x = true
  order : ∀ l x l', σ.executed = l++x::l' → ∀ y ∈ D.adj x, p ∈ D.partitions y →
    ¬Mutual D.adj x y → y ∈ l
  sorted : σ.executed.Pairwise fun x y => Mutual D.adj x y → x < y

structure ExecOK [LinearOrder Tx] (D : Deployment Site Par Tx) (p : Par) (σ : RccServer Site Par Tx) : Prop where
  run : RunOK D p σ
  sched : SchedOK σ
  log : LogOK D p σ

end Invariants

theorem SchedOK.frame {σ : RccServer Site Par Tx} (h : SchedOK σ) (hint sccHint : Tx → Bool)
    (executed : List Tx) :
    SchedOK {σ with
      allNonsccParentsExecutedHint := hint
      sccAllNonsccParentsExecutedHint := sccHint
      executed := executed} := by
  exact {h with}

theorem SchedOK.all_finished {σ : RccServer Site Par Tx} {t v : Tx} {r : SccRef Tx}
    (h : SchedOK σ) (hr : Resolved σ t r) (hs : HeadStarted σ r)
    (hlast : (σ.sccs r).getLast? = some v) (hv : σ.logApplyFinished v = true) :
    ∀ x ∈ σ.sccOf t, σ.logApplyFinished x = true := by
  rcases h.busy t hr.done (hr.ref.symm ▸ hs) with hall | ⟨y,vs,hy⟩
  · exact hall
  rw [hr.ref] at hy
  obtain ⟨l,hl₁,hl₂,hl₃⟩ := h.left y r vs hy
  rcases eq_nil_or_concat vs with rfl | ⟨vs,z,rfl⟩
  · rw [append_nil,hr.sccs_eq] at hl₁
    exact fun x hx => hl₂ x (hl₁ ▸ hx)
  · have hz : z = v := by simpa [hl₁] using hlast
    have hzf := hl₃ z (by simp)
    rw [hz,hv] at hzf
    cases hzf

variable [LinearOrder Tx] {D : Deployment Site Par Tx} {ready : Tx → Prop} {p : Par}
  {σ σ' : RccServer Site Par Tx} {t x : Tx} {r : SccRef Tx}

section Members

section

variable (hc : Components D ready σ)
include hc

theorem Resolved.of_mem (h : Resolved σ t r) (hx : x ∈ σ.sccs r) :
    Resolved σ x r ∧ Mutual D.adj t x := by
  have hm : Mutual D.adj t x := by
    rw [h.sccs_eq] at hx
    exact ((hc.component t h.done).mem x).mp hx
  have hdone := hc.rest.cells.closed t x h.done hm
  have hhint : σ.allAncCmtHint x = true := by
    rcases hc.alone x hdone with hx | hx
    · exact hx
    · have htx : t ∈ σ.sccOf x := ((hc.component x hdone).mem t).mpr hm.symm
      rw [hx,mem_singleton] at htx
      rw [← htx]
      exact h.hint
  exact ⟨⟨(hc.shared t x h.done hm).trans h.ref,hdone,hhint,hc.together t x h.decided hm⟩,hm⟩

theorem Resolved.mem_of_mutual (h : Resolved σ t r) (hm : Mutual D.adj t x) : x ∈ σ.sccs r := by
  rw [h.sccs_eq]
  exact ((hc.component t h.done).mem x).mpr hm

theorem Resolved.sorted (h : Resolved σ t r) : (σ.sccs r).Pairwise (· < ·) := by
  rw [h.sccs_eq]
  exact (hc.component t h.done).sorted

theorem Components.scc_of_mem (ht : σ.Done t) (hx : x ∈ σ.sccOf t) :
    σ.scc x = σ.scc t ∧ σ.Done x := by
  have hm := ((hc.component t ht).mem x).mp hx
  exact ⟨hc.shared t x ht hm,hc.rest.cells.closed t x ht hm⟩

end

end Members

section Later

theorem aside_setStatus (σ : RccServer Site Par Tx) (t : Tx) (s : Status) :
    Aside σ (σ.setStatus t s) := by
  have h := Aside.refl σ
  exact {h with log := {h.log with}, later := {h.later with
    committing := fun x hx => (σ.isCommitting_setStatus t s x).mpr (Or.inl hx)
    decided := fun x hx => (σ.isDecided_setStatus t s x).mpr (Or.inl hx)}}

theorem aside_replaceParentEdges (σ : RccServer Site Par Tx) (t : Tx) (parents : ParentSet Par Tx) :
    Aside σ (σ.replaceParentEdges t parents) := Aside.frame σ _ _ _ _ _

theorem aside_finishWalk (σ : RccServer Site Par Tx) (w : Walk Tx) : Aside σ (σ.finishWalk w) := by
  have h := Aside.refl σ
  exact {h with
    log := {h.log with}
    later := {h.later with hint := fun x hx => by simp [finishWalk,hx]}}

theorem ServerOK.aside_findSccPred [Fintype Tx] (h : ServerOK D ready p σ)
    (ht : σ.allAncCmtHint t = true) : Aside σ (σ.findSccPred t) := by
  unfold RccServer.findSccPred
  split_ifs with hd
  · exact Aside.refl σ
  obtain ⟨-,hgrown,-⟩ := h.search hd ht
  have h := Aside.refl σ
  refine {h with log := {h.log with}, later := {h.later with scc := fun x hx => ?_}}
  obtain ⟨hcell,hcontent⟩ := hgrown.old x hx
  exact ⟨hcell,(congrArg _ hcell).trans hcontent⟩

theorem aside_decideScc (l : List Tx) (σ : RccServer Site Par Tx) :
    Aside σ (RccServer.decideScc l σ) := by
  induction l generalizing σ with
  | nil => exact Aside.refl σ
  | cons v vs ih =>
    unfold decideScc
    split_ifs
    · exact Aside.refl σ
    · exact (aside_setStatus σ v .decided).trans (ih _)

theorem Taken.aside {members : List Tx} (h : Taken D t members σ σ') : Aside σ σ' := by
  refine ⟨⟨fun x hx => (h.committing x).mpr (Or.inl hx),fun x hx => (h.decided x).mpr (Or.inl hx),
    h.hint,h.old,?_,?_,?_⟩,⟨?_,?_,?_,?_,?_⟩,?_,?_,?_,?_⟩
  all_goals rw [h.frame]
  all_goals exact fun _ hx => hx

theorem Components.aside_inquired {reply : InquireReply Par Tx} (h : Components D ready σ)
    (hreply : ReplyOK D ready t reply) (hfresh : ∀ e, reply = .decided [e] → ¬σ.Done t)
    (hnil : σ.sccs (.inquired t) = []) :
    Aside σ (σ.inquired t reply) ∧ (σ.inquired t reply).IsCommitting t := by
  cases reply with
  | committing parents =>
    refine ⟨?_,(isCommitting_setStatus _ t .committing t).mpr (Or.inr ⟨rfl,le_rfl⟩)⟩
    exact (aside_replaceParentEdges σ t parents).trans (aside_setStatus _ t .committing)
  | decided scc =>
    have htaken := h.taken hreply (fun e he => hfresh e (he ▸ rfl)) hnil
    exact ⟨htaken.aside,(htaken.committing t).mpr (Or.inr ((hreply.1.mem t).mpr (Mutual.refl t)))⟩

end Later

section Frames

variable {k : Coroutine Tx} {vs : List Tx}

theorem goto_coroutine_self (σ : RccServer Site Par Tx) (t : Tx) (k : Coroutine Tx) :
    (σ.goto t k).coroutine t = k := update_self ..

theorem goto_coroutine_of_ne (σ : RccServer Site Par Tx) {t x : Tx} (k : Coroutine Tx) (h : x ≠ t) :
    (σ.goto t k).coroutine x = σ.coroutine x := update_of_ne h ..

theorem remaining_goto {e : SccRef Tx × List Tx}
    (hx : ((σ.goto t k).coroutine x).remaining = some e) :
    x = t ∧ k.remaining = some e ∨ x ≠ t ∧ (σ.coroutine x).remaining = some e := by
  by_cases hxt : x = t
  · rw [hxt,goto_coroutine_self] at hx
    exact Or.inl ⟨hxt,hx⟩
  · rw [goto_coroutine_of_ne _ _ hxt] at hx
    exact Or.inr ⟨hxt,hx⟩

theorem Running.resolved (h : Running D p σ t k) (hk : k.remaining = some (r,vs)) :
    Resolved σ t r ∧ HeadStarted σ r ∧ ∀ x ∈ σ.sccs r, Settled D p σ x := by
  cases k with
  | execute r vs =>
    cases hk
    exact h
  | waitCommit r v vs =>
    cases hk
    exact h.1
  | _ => cases hk

theorem RunOK.later (h : RunOK D p σ) (hl : Later σ σ')
    (hmember : σ'.allNonsccParentsExecutedHint = σ.allNonsccParentsExecutedHint)
    (hmembers : σ'.sccAllNonsccParentsExecutedHint = σ.sccAllNonsccParentsExecutedHint)
    (hco : σ'.coroutine = σ.coroutine)
    (hrecv : ∀ x, σ.commitReceived x = true → σ'.commitReceived x = true)
    (hask : σ'.duringAsking = σ.duringAsking)
    (hinq : ∀ y, σ.inquiry y ≠ .idle → σ'.inquiry y ≠ .idle) : RunOK D p σ' where
  running t := by
    rw [hco]
    exact (h.running t).mono hl
  received t ht := by
    rw [hco] at ht
    exact hrecv t (h.received t ht)
  member x hx := by
    rw [hmember] at hx
    exact (h.member x hx).mono hl
  members x hx y hy := by
    rw [hmembers] at hx
    exact (h.members x hx y hy).mono hl
  asking y hy := by
    rw [hask] at hy
    rw [hco]
    exact (h.asking y hy).imp (hl.committing y) id
  inquired y hy := by
    rw [hask] at hy
    exact hinq y (h.inquired y hy)

theorem SchedOK.later (h : SchedOK σ) (hc : Components D ready σ) (hc' : Components D ready σ')
    (hl : Later σ σ') (hlog : SameLog σ σ') (hco : σ'.coroutine = σ.coroutine)
    (hres : ∀ t r vs, (σ.coroutine t).remaining = some (r,vs) → Resolved σ t r) :
    SchedOK σ' := by
  have hscc : ∀ x, σ.Done x → σ'.sccs (σ.scc x) = σ.sccs (σ.scc x) := by
    intro x hx
    obtain ⟨hcell,hcontent⟩ := hl.scc x hx
    unfold sccOf at hcontent
    rwa [hcell] at hcontent
  constructor
  case started =>
    intro x hx
    rw [hlog.started] at hx
    obtain ⟨hhint,hd,hs⟩ := h.started x hx
    refine ⟨hl.hint x hhint,hl.done hd,?_⟩
    rw [(hl.scc x hd).1]
    exact hs.mono hl (hscc x hd)
  case finished =>
    rw [hlog.started,hlog.finished]
    exact h.finished
  case left =>
    intro t r vs ht
    rw [hco] at ht
    rw [(hres t r vs ht).sccs_later hl,hlog.finished]
    exact h.left t r vs ht
  case once =>
    rw [hco]
    exact h.once
  case busy =>
    intro x hx hs
    obtain ⟨b,hb,hbs⟩ := hs
    have hbm : b ∈ σ'.sccOf x := mem_of_head? hb
    rw [hlog.started] at hbs
    have hd : σ.Done x := hc.rest.cells.closed b x (h.started b hbs).2.1
      (((hc'.component x hx).mem b).mp hbm).symm
    rw [(hl.scc x hd).1,(hl.scc x hd).2,hlog.finished,hco]
    rw [(hl.scc x hd).1,hscc x hd] at hb
    exact h.busy x hd ⟨b,hb,hbs⟩

theorem LogOK.later (h : LogOK D p σ) (hlog : SameLog σ σ')
    (hrecv : ∀ x, σ.commitReceived x = true → σ'.commitReceived x = true) : LogOK D p σ' where
  mem := by
    rw [hlog.executed,hlog.finished]
    exact h.mem
  nodup := by
    rw [hlog.executed]
    exact h.nodup
  received x hx := by
    rw [hlog.executed] at hx
    exact hrecv x (h.received x hx)
  order := by
    rw [hlog.executed]
    exact h.order
  sorted := by
    rw [hlog.executed]
    exact h.sorted

theorem ExecOK.resolved (h : ExecOK D p σ) (ht : (σ.coroutine t).remaining = some (r,vs)) :
    Resolved σ t r :=
  ((h.run.running t).resolved ht).1

theorem ExecOK.aside (h : ExecOK D p σ) (hc : Components D ready σ) (hc' : Components D ready σ')
    (ha : Aside σ σ') : ExecOK D p σ' :=
  ⟨h.run.later ha.later ha.log.member ha.log.members ha.coroutine ha.received ha.asked ha.inquiry,
    h.sched.later hc hc' ha.later ha.log ha.coroutine fun _ _ _ => h.resolved,
    h.log.later ha.log ha.received⟩

theorem later_goto (σ : RccServer Site Par Tx) (t : Tx) (k : Coroutine Tx) : Later σ (σ.goto t k) :=
  Later.frame σ _ _ _ _ _ _ _ _ _ _ _ _

theorem RunOK.goto (h : RunOK D p σ) (hk : Running D p σ t k) (hrecv : σ.commitReceived t = true)
    (hask : ∀ y, (σ.coroutine t).asking = some y → σ.IsCommitting y) : RunOK D p (σ.goto t k) := by
  have hl := later_goto σ t k
  refine ⟨?_,?_,h.member,h.members,?_,h.inquired⟩
  · intro x
    simp only [RccServer.goto,update_apply]
    split_ifs with hx
    · rw [hx]
      exact hk.mono hl
    · exact (h.running x).mono hl
  · intro x hx
    by_cases hxt : x = t
    · rw [hxt]
      exact hrecv
    · refine h.received x ?_
      rwa [goto_coroutine_of_ne σ k hxt] at hx
  · intro y hy
    rcases h.asking y hy with hy | ⟨x,hx⟩
    · exact Or.inl hy
    · by_cases hxt : x = t
      · exact Or.inl (hask y (hxt ▸ hx))
      · refine Or.inr ⟨x,?_⟩
        rwa [goto_coroutine_of_ne σ k hxt]

theorem SchedOK.goto (h : SchedOK σ) (hk : k.remaining = (σ.coroutine t).remaining) :
    SchedOK (σ.goto t k) := by
  have hrem : ∀ x, ((σ.goto t k).coroutine x).remaining = (σ.coroutine x).remaining := by
    intro x
    by_cases hx : x = t
    · rw [hx,goto_coroutine_self,hk]
    · rw [goto_coroutine_of_ne _ _ hx]
  obtain ⟨hs,hf,hleft,honce,hbusy⟩ := h
  refine ⟨hs,hf,?_,?_,?_⟩
  · intro x r vs hx
    rw [hrem] at hx
    exact hleft x r vs hx
  · intro x x' r vs vs' hx hx'
    rw [hrem] at hx hx'
    exact honce x x' r vs vs' hx hx'
  · intro x hx hs
    refine (hbusy x hx hs).imp id fun ⟨y,vs,hy⟩ => ⟨y,vs,?_⟩
    rwa [hrem]

theorem ExecOK.goto (h : ExecOK D p σ) (hk : Running D p σ t k) (hrecv : σ.commitReceived t = true)
    (hask : ∀ y, (σ.coroutine t).asking = some y → σ.IsCommitting y)
    (hrem : k.remaining = (σ.coroutine t).remaining) : ExecOK D p (σ.goto t k) :=
  ⟨h.run.goto hk hrecv hask,h.sched.goto hrem,h.log.later ⟨rfl,rfl,rfl,rfl,rfl⟩ fun _ hx => hx⟩

theorem ExecOK.quiet {τ : RccServer Site Par Tx} (h : ExecOK D p σ) (hq : Quiet σ τ) :
    ExecOK D p τ := by
  have ha := hq.aside
  obtain ⟨_,_,_,rfl⟩ := hq
  obtain ⟨hrun,⟨hs,hf,hleft,honce,hbusy⟩,hlog⟩ := h
  exact ⟨hrun.later ha.later rfl rfl rfl ha.received rfl ha.inquiry,⟨hs,hf,hleft,honce,hbusy⟩,
    hlog.later ha.log ha.received⟩

end Frames

section Executing

variable {v : Tx} {vs : List Tx}

theorem start_logApplyStarted :
    (σ.start v).logApplyStarted x = true ↔ σ.logApplyStarted x = true ∨ x = v := by
  by_cases hx : x = v <;> simp [start,hx]

theorem finish_logApplyFinished :
    (σ.finish v).logApplyFinished x = true ↔ σ.logApplyFinished x = true ∨ x = v := by
  by_cases hx : x = v <;> simp [finish,hx]

theorem later_start (σ : RccServer Site Par Tx) (v : Tx) : Later σ (σ.start v) :=
  {(Aside.refl σ).later with started := fun _ h => start_logApplyStarted.mpr (Or.inl h)}

theorem later_finish (σ : RccServer Site Par Tx) (v : Tx) : Later σ (σ.finish v) :=
  {(Aside.refl σ).later with finished := fun _ h => finish_logApplyFinished.mpr (Or.inl h)}

theorem SchedOK.start (h : SchedOK σ) (hc : Components D ready σ) (hr : Resolved σ v r)
    (hs : HeadStarted (σ.start v) r) (ht : (σ.coroutine t).remaining = some (r,vs)) :
    SchedOK (σ.start v) := by
  have hl := later_start σ v
  constructor
  case started =>
    intro x hx
    rcases start_logApplyStarted.mp hx with hx | rfl
    · obtain ⟨hhint,hd,hs⟩ := h.started x hx
      exact ⟨hhint,hd,hs.mono hl rfl⟩
    · exact ⟨hr.hint,hr.done,hr.ref.symm ▸ hs⟩
  case finished => exact fun x hx => hl.started x (h.finished x hx)
  case left => exact h.left
  case once => exact h.once
  case busy =>
    rintro x hx ⟨b,hb,hbs⟩
    rcases start_logApplyStarted.mp hbs with hbs | rfl
    · exact h.busy x hx ⟨b,hb,hbs⟩
    · have hxr : σ.scc x = r := (hc.scc_of_mem hx (mem_of_head? hb)).1.symm.trans hr.ref
      exact Or.inr ⟨t,vs,hxr.symm ▸ ht⟩

/-- A coroutine may begin a component that no other has begun. -/
theorem SchedOK.enter (h : SchedOK σ) (hc : Components D ready σ) (hr : Resolved σ t r)
    (hhead : ∀ x r vs, (σ.coroutine x).remaining = some (r,vs) → HeadStarted σ r)
    (hnot : ¬HeadStarted σ r) (hold : (σ.coroutine t).remaining = none) :
    SchedOK (σ.goto t (.execute r (σ.sccs r))) := by
  have hrem : ∀ x r' vs, ((σ.goto t (.execute r (σ.sccs r))).coroutine x).remaining =
      some (r',vs) → x = t ∧ r' = r ∧ vs = σ.sccs r ∨
        r' ≠ r ∧ (σ.coroutine x).remaining = some (r',vs) := by
    intro x r' vs hx
    rcases remaining_goto hx with ⟨hxt,hk⟩ | ⟨-,hold⟩
    · cases hk
      exact Or.inl ⟨hxt,rfl,rfl⟩
    · refine Or.inr ⟨?_,hold⟩
      rintro rfl
      exact hnot (hhead x r' vs hold)
  refine ⟨h.started,h.finished,?_,?_,?_⟩
  · intro x r' vs hx
    rcases hrem x r' vs hx with ⟨-,rfl,rfl⟩ | ⟨-,hx⟩
    · refine ⟨[],rfl,by simp,?_⟩
      intro y hy
      by_contra hf
      have hys := (h.started y (h.finished y (Bool.eq_true_of_not_eq_false hf))).2.2
      rw [(hr.of_mem hc hy).1.ref] at hys
      exact hnot hys
    · exact h.left x r' vs hx
  · intro x x' r' vs vs' hx hx'
    rcases hrem x r' vs hx with ⟨rfl,hr₁,-⟩ | ⟨hr₁,hx⟩
    · rcases hrem x' r' vs' hx' with ⟨rfl,-,-⟩ | ⟨hr₂,-⟩
      · rfl
      · exact absurd hr₁ hr₂
    · rcases hrem x' r' vs' hx' with ⟨-,hr₂,-⟩ | ⟨-,hx'⟩
      · exact absurd hr₂ hr₁
      · exact h.once x x' r' vs vs' hx hx'
  · intro x hx hs
    refine (h.busy x hx hs).imp id fun ⟨y,vs,hy⟩ => ⟨y,vs,?_⟩
    rw [goto_coroutine_of_ne _ _ ?_]
    · exact hy
    · rintro rfl
      rw [hold] at hy
      cases hy

theorem unfinished_of_ne (hx : σ.logApplyFinished x = false) (hne : x ≠ v) :
    (σ.finish v).logApplyFinished x = false := (update_of_ne hne ..).trans hx

/-- What a coroutine has next, no other one has still before it. -/
theorem SchedOK.not_left {y : Tx} {r' : SccRef Tx} {vs' : List Tx} (h : SchedOK σ)
    (hc : Components D ready σ)
    (hres : ∀ x r vs, (σ.coroutine x).remaining = some (r,vs) → Resolved σ x r)
    (ht : (σ.coroutine t).remaining = some (r,v::vs))
    (hy : (σ.coroutine y).remaining = some (r',vs')) (hne : y ≠ t) : v ∉ vs' := by
  intro hv
  obtain ⟨l,hl,-⟩ := h.left t r _ ht
  obtain ⟨l',hl',-⟩ := h.left y r' vs' hy
  have hvr := ((hres t r _ ht).of_mem hc (x:=v) (by simp [hl])).1
  have hvr' := ((hres y r' vs' hy).of_mem hc (x:=v) (by simp [hl',hv])).1
  have hrr : r' = r := hvr'.ref.symm.trans hvr.ref
  subst hrr
  exact hne (h.once y t r' vs' _ hy ht)

theorem SchedOK.finish (h : SchedOK σ) (hc : Components D ready σ)
    (hres : ∀ x r vs, (σ.coroutine x).remaining = some (r,vs) → Resolved σ x r)
    (ht : (σ.coroutine t).remaining = some (r,v::vs)) (hv : σ.logApplyStarted v = true) :
    SchedOK ((σ.finish v).goto t (.execute r vs)) := by
  have hl := later_finish σ v
  have hr := hres t r _ ht
  obtain ⟨l,hl₁,hl₂,hl₃⟩ := h.left t r _ ht
  have hrem : ∀ x r' vs', (((σ.finish v).goto t (.execute r vs)).coroutine x).remaining =
      some (r',vs') → x = t ∧ r' = r ∧ vs' = vs ∨
        x ≠ t ∧ (σ.coroutine x).remaining = some (r',vs') := by
    intro x r' vs' hx
    rcases remaining_goto hx with ⟨hxt,hk⟩ | hx
    · cases hk
      exact Or.inl ⟨hxt,rfl,rfl⟩
    · exact Or.inr hx
  constructor
  case started => exact h.started
  case finished =>
    intro x hx
    rcases finish_logApplyFinished.mp hx with hx | rfl
    · exact h.finished x hx
    · exact hv
  case left =>
    intro x r' vs' hx
    rcases hrem x r' vs' hx with ⟨-,rfl,rfl⟩ | ⟨hxt,hold⟩
    · refine ⟨l++[v],by simp [RccServer.goto,RccServer.finish,hl₁],?_,?_⟩
      · intro y hy
        rw [mem_append,mem_singleton] at hy
        exact finish_logApplyFinished.mpr (hy.imp (hl₂ y) id)
      · intro y hy
        have hnodup : (σ.sccs r').Nodup := (hr.sorted hc).imp ne_of_lt
        rw [hl₁] at hnodup
        have hv := (nodup_cons.mp (nodup_append.mp hnodup).2.1).1
        exact unfinished_of_ne (hl₃ y (mem_cons_of_mem _ hy)) fun hyv => hv (hyv ▸ hy)
    · obtain ⟨l',hl'₁,hl'₂,hl'₃⟩ := h.left x r' vs' hold
      have hv := h.not_left hc hres ht hold hxt
      exact ⟨l',hl'₁,fun y hy => hl.finished y (hl'₂ y hy),fun y hy =>
        unfinished_of_ne (hl'₃ y hy) fun hyv => hv (hyv ▸ hy)⟩
  case once =>
    intro x x' r' vs₁ vs₂ hx hx'
    have hold : ∀ y vs', (((σ.finish v).goto t (.execute r vs)).coroutine y).remaining =
        some (r',vs') → ∃ vs'', (σ.coroutine y).remaining = some (r',vs'') := by
      intro y vs' hy
      rcases hrem y r' vs' hy with ⟨rfl,rfl,-⟩ | ⟨-,hy⟩
      · exact ⟨_,ht⟩
      · exact ⟨_,hy⟩
    obtain ⟨_,hx⟩ := hold x vs₁ hx
    obtain ⟨_,hx'⟩ := hold x' vs₂ hx'
    exact h.once x x' r' _ _ hx hx'
  case busy =>
    intro x hx hs
    rcases h.busy x hx hs with hall | ⟨y,vs',hy⟩
    · exact Or.inl fun z hz => hl.finished z (hall z hz)
    · refine Or.inr ?_
      by_cases hyt : y = t
      · rw [hyt,ht] at hy
        refine ⟨t,vs,?_⟩
        rw [goto_coroutine_self]
        cases hy
        rfl
      · exact ⟨y,vs',by rwa [goto_coroutine_of_ne _ _ hyt]⟩

theorem SchedOK.leave (h : SchedOK σ) (ht : (σ.coroutine t).remaining = some (r,[])) :
    SchedOK (σ.goto t .finished) := by
  have hrem : ∀ x r' vs', ((σ.goto t .finished).coroutine x).remaining = some (r',vs') →
      (σ.coroutine x).remaining = some (r',vs') := by
    intro x r' vs' hx
    rcases remaining_goto hx with ⟨-,hk⟩ | hx
    · cases hk
    · exact hx.2
  refine ⟨h.started,h.finished,fun x r' vs' hx => h.left x r' vs' (hrem x r' vs' hx),
    fun x x' r' vs₁ vs₂ hx hx' => h.once x x' r' vs₁ vs₂ (hrem x r' vs₁ hx) (hrem x' r' vs₂ hx'),?_⟩
  intro x hx hs
  rcases h.busy x hx hs with hall | ⟨y,vs,hy⟩
  · exact Or.inl hall
  · by_cases hyt : y = t
    · rw [hyt,ht] at hy
      obtain ⟨l,hl₁,hl₂,-⟩ := h.left t r _ ht
      rw [append_nil] at hl₁
      have hxr : σ.scc x = r := by
        cases hy
        rfl
      refine Or.inl fun z hz => hl₂ z ?_
      rw [← hl₁,← hxr]
      exact hz
    · exact Or.inr ⟨y,vs,by rwa [goto_coroutine_of_ne _ _ hyt]⟩

theorem LogOK.pass (h : LogOK D p σ) (hp : p ∉ D.partitions v) : LogOK D p (σ.finish v) := by
  refine {h with mem := ?_}
  intro x
  rw [finish_logApplyFinished,or_and_right]
  refine (h.mem x).trans (Iff.symm (or_iff_left ?_))
  rintro ⟨rfl,hx⟩
  exact hp hx

/-- The log stays in order with a transaction after all that precede it. -/
theorem LogOK.execute (h : LogOK D p σ) (hset : Settled D p σ v) (hp : p ∈ D.partitions v)
    (hrecv : σ.commitReceived v = true) (hnot : σ.logApplyFinished v = false)
    (hsort : ∀ x, σ.logApplyFinished x = true → Mutual D.adj x v → x < v) :
    LogOK D p ({σ with executed := σ.executed++[v]}.finish v) := by
  have hfin : ∀ x ∈ σ.executed, σ.logApplyFinished x = true := fun x hx => ((h.mem x).mp hx).1
  constructor
  case mem =>
    intro x
    rw [finish_logApplyFinished]
    show x ∈ σ.executed++[v] ↔ _
    rw [mem_append,mem_singleton,h.mem,or_and_right]
    refine or_congr_right ⟨?_,And.left⟩
    rintro rfl
    exact ⟨rfl,hp⟩
  case nodup =>
    refine nodup_append.mpr ⟨h.nodup,nodup_singleton v,?_⟩
    rintro x hx y hy rfl
    rw [mem_singleton.mp hy] at hx
    rw [hfin v hx] at hnot
    cases hnot
  case received =>
    intro x hx
    rcases mem_append.mp hx with hx | hx
    · exact h.received x hx
    · rw [mem_singleton.mp hx]
      exact hrecv
  case order =>
    intro l x l' hl y hy hpy hm
    rcases eq_nil_or_concat l' with rfl | ⟨l',z,rfl⟩
    · obtain ⟨rfl,hx⟩ := append_inj' (show σ.executed++[v] = l++[x] from hl) rfl
      cases hx
      exact (h.mem y).mpr ⟨hset y hy hpy hm,hpy⟩
    · have hcut : σ.executed++[v] = (l++x::l')++[z] := by
        simpa using show σ.executed++[v] = _ from hl
      exact h.order l x l' (append_inj' hcut rfl).1 y hy hpy hm
  case sorted =>
    refine pairwise_append.mpr ⟨h.sorted,pairwise_singleton _ v,?_⟩
    intro x hx y hy hm
    rw [mem_singleton.mp hy] at hm ⊢
    exact hsort x (hfin x hx) hm

end Executing

end Janus.Rcc
