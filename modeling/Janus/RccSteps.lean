import Janus.RccCluster

/-! What one step of an `OnCommit` coroutine can do, with what it has found true. Every
invariant below is shown by going through these cases. -/
namespace Janus.Rcc

open Function Option RccServer

variable {Site Par Tx : Type}

/-- The two states differ in what the answers of `Involve` rest on and in the marks of
an ongoing traversal. -/
def Quiet (σ τ : RccServer Site Par Tx) : Prop :=
  ∃ waiting flag partition, τ = {σ with
    waitingAllAncCommitting := waiting
    involveFlag := flag
    partition := partition}

theorem Quiet.refl (σ : RccServer Site Par Tx) : Quiet σ σ := ⟨_,_,_,rfl⟩

theorem Quiet.trans {σ τ υ : RccServer Site Par Tx} (h : Quiet σ τ) (h' : Quiet τ υ) :
    Quiet σ υ := by
  obtain ⟨a,b,c,rfl⟩ := h
  obtain ⟨a',b',c',rfl⟩ := h'
  exact ⟨a',b',c',rfl⟩

/-- What a coroutine leaves alone: the other coroutines, and the records of messages
that their handlers make. -/
structure Kept (t : Tx) (σ σ' : RccServer Site Par Tx) : Prop where
  dispatched : σ'.fullyDispatched = σ.fullyDispatched
  received : σ'.commitReceived = σ.commitReceived
  others : ∀ x, x ≠ t → σ'.coroutine x = σ.coroutine x

theorem Kept.trans {t : Tx} {σ τ υ : RccServer Site Par Tx} (h : Kept t σ τ) (h' : Kept t τ υ) :
    Kept t σ υ :=
  ⟨h'.dispatched.trans h.dispatched,h'.received.trans h.received,
    fun x hx => (h'.others x hx).trans (h.others x hx)⟩

theorem Quiet.kept {σ τ : RccServer Site Par Tx} (h : Quiet σ τ) (t : Tx) : Kept t σ τ := by
  obtain ⟨_,_,_,rfl⟩ := h
  exact ⟨rfl,rfl,fun _ _ => rfl⟩

variable [LinearOrder Tx]

section Kept

variable {σ σ' : RccServer Site Par Tx} {t : Tx}

theorem Kept.goto {τ : RccServer Site Par Tx} (h : Kept t σ τ) (k : Coroutine Tx) :
    Kept t σ (τ.goto t k) :=
  ⟨h.dispatched,h.received,fun x hx => (update_of_ne hx ..).trans (h.others x hx)⟩

theorem goto_goto (σ : RccServer Site Par Tx) (t : Tx) (k k' : Coroutine Tx) :
    (σ.goto t k).goto t k' = σ.goto t k' := by
  simp [goto,update_idem]

theorem decideScc_eq (l : List Tx) (σ : RccServer Site Par Tx) :
    RccServer.decideScc l σ = {σ with status := (RccServer.decideScc l σ).status} := by
  induction l generalizing σ with
  | nil => rfl
  | cons v vs ih =>
    unfold decideScc
    split_ifs
    · rfl
    · rw [ih]
      rfl

theorem Kept.resolve [Fintype Tx] (hs : σ.resolve t = some σ') : Kept t σ σ' := by
  unfold RccServer.resolve at hs
  simp only [ite_none_left_eq_some,some.injEq] at hs
  have hfind : Kept t σ (σ.findSccPred t) := by
    unfold findSccPred
    split
    · exact ⟨rfl,rfl,fun _ _ => rfl⟩
    · exact ⟨rfl,rfl,fun _ _ => rfl⟩
  have hdecide : Kept t (σ.findSccPred t)
      (decideScc ((σ.findSccPred t).sccOf t) (σ.findSccPred t)) := by
    rw [decideScc_eq]
    exact ⟨rfl,rfl,fun _ _ => rfl⟩
  rw [← hs.2]
  exact (hfind.trans hdecide).goto _

theorem inquired_goto (σ : RccServer Site Par Tx) (t y : Tx) (k : Coroutine Tx)
    (reply : InquireReply Par Tx) :
    (σ.goto t k).inquired y reply = (σ.inquired y reply).goto t k := by
  match reply with
  | .committing _ => rfl
  | .decided [] => rfl
  | .decided [_] => rfl
  | .decided (_::_::_) => rfl

theorem kept_inquired (σ : RccServer Site Par Tx) (t y : Tx) (reply : InquireReply Par Tx) :
    Kept t σ (σ.inquired y reply) := by
  match reply with
  | .committing _ => exact ⟨rfl,rfl,fun _ _ => rfl⟩
  | .decided [] => exact ⟨rfl,rfl,fun _ _ => rfl⟩
  | .decided [_] => exact ⟨rfl,rfl,fun _ _ => rfl⟩
  | .decided (_::_::_) => exact ⟨rfl,rfl,fun _ _ => rfl⟩

theorem Kept.executeScc {r : SccRef Tx} (hs : σ.executeScc t r = some σ') : Kept t σ σ' := by
  unfold RccServer.executeScc at hs
  split at hs
  · split_ifs at hs
    all_goals
      cases hs
      refine Kept.goto ?_ _
      exact ⟨rfl,rfl,fun _ _ => rfl⟩
  · cases hs

end Kept

theorem quiet_markWaiting (σ : RccServer Site Par Tx) (t : Tx) : Quiet σ (σ.markWaiting t) :=
  ⟨_,_,_,rfl⟩

variable [LinearOrder Par]

theorem quiet_cacheInvolve (σ : RccServer Site Par Tx) (p : Par) (t : Tx) :
    Quiet σ (σ.cacheInvolve p t) := by
  unfold cacheInvolve
  split
  · exact ⟨_,_,_,rfl⟩
  · exact Quiet.refl σ

theorem quiet_fillPartition (σ : RccServer Site Par Tx) (self parent : Tx) :
    Quiet σ (σ.fillPartition self parent) := by
  unfold fillPartition
  split
  · split
    · exact ⟨_,_,_,rfl⟩
    · exact Quiet.refl σ
  · exact Quiet.refl σ

/-- The server in which the callback on the edge from `self` to `parent` decides: after its marks,
or with the parent's partitions filled in. -/
inductive Looking (p : Par) (σ : RccServer Site Par Tx) (self parent : Tx) :
    RccServer Site Par Tx → Prop
  | marked : Looking p σ self parent ((σ.markWaiting self).cacheInvolve p parent)
  | filled : Looking p σ self parent
      (((σ.markWaiting self).cacheInvolve p parent).fillPartition self parent)

theorem Looking.quiet {p : Par} {σ τ : RccServer Site Par Tx} {self parent : Tx}
    (h : Looking p σ self parent τ) : Quiet σ τ := by
  have hmarked := (quiet_markWaiting σ self).trans (quiet_cacheInvolve _ p parent)
  cases h with
  | marked => exact hmarked
  | filled => exact hmarked.trans (quiet_fillPartition _ self parent)

inductive Resumed [Fintype Tx] (p : Par) (σ : RccServer Site Par Tx) (t : Tx) :
    RccServer Site Par Tx → Prop
  | rewalk (hk : σ.coroutine t = .waitAncCommit) (hdone : σ.waitAllAncCommitDone t = true) :
      Resumed p σ t (σ.goto t (.walk ⟨[t],{t}⟩))
  | resolve {w σ'} (hk : σ.coroutine t = .walk w)
      (hnil : w.toWalk = []) (hs : (σ.finishWalk w).resolve t = some σ') : Resumed p σ t σ'
  | pop {w v vs} (hk : σ.coroutine t = .walk w) (hcons : w.toWalk = v::vs) :
      Resumed p σ t (σ.goto t (.visit ⟨vs,insert v w.walked⟩ v (σ.parentIds v)))
  | close {w self} (hk : σ.coroutine t = .visit w self []) : Resumed p σ t (σ.goto t (.walk w))
  | skip {w self parent vs} (hk : σ.coroutine t = .visit w self (parent::vs))
      (hskip : σ.allAncCmtHint self = true ∨ σ.allAncCmtHint parent = true ∨ σ.IsDecided parent) :
      Resumed p σ t ((σ.markWaiting self).goto t (.visit w self vs))
  | waitApplied {w self parent vs τ}
      (hk : σ.coroutine t = .visit w self (parent::vs)) (hτ : Looking p σ self parent τ)
      (hi : τ.involve p parent = true) (hlt : parent < t) :
      Resumed p σ t (τ.goto t (.waitApplied w self parent vs))
  | push {w self parent vs τ}
      (hk : σ.coroutine t = .visit w self (parent::vs)) (hτ : Looking p σ self parent τ)
      (hc : τ.IsCommitting parent) : Resumed p σ t (τ.goto t (.visit (w.push parent) self vs))
  | waitCommitting {w self parent vs τ}
      (hk : σ.coroutine t = .visit w self (parent::vs)) (hτ : Looking p σ self parent τ)
      (hc : τ.involve p parent = true ∨ τ.duringAsking parent = true) :
      Resumed p σ t (τ.goto t (.waitCommitting w self parent vs))
  | ask {w self parent vs τ par}
      (hk : σ.coroutine t = .visit w self (parent::vs)) (hτ : Looking p σ self parent τ)
      (hasked : τ.duringAsking parent = false) (hpar : par ∈ τ.partition parent) :
      Resumed p σ t ({τ with
        duringAsking := update τ.duringAsking parent true
        inquiry := update τ.inquiry parent (.sent par)}.goto t
          (.inquire w self parent vs))
  | applied {w self parent vs} (hk : σ.coroutine t = .waitApplied w self parent vs)
      (hfin : σ.logApplyFinished parent = true) : Resumed p σ t (σ.goto t (.visit w self vs))
  | covered {w self parent vs reply}
      (hk : σ.coroutine t = .inquire w self parent vs) (hreply : σ.inquiry parent = .replied reply)
      (hhint : (σ.inquired parent reply).allAncCmtHint parent = true) :
      Resumed p σ t ((σ.inquired parent reply).goto t (.visit w self vs))
  | inquired {w self parent vs reply} (hk : σ.coroutine t = .inquire w self parent vs)
      (hreply : σ.inquiry parent = .replied reply) :
      Resumed p σ t ((σ.inquired parent reply).goto t (.waitCommitting w self parent vs))
  | committed {w self parent vs}
      (hk : σ.coroutine t = .waitCommitting w self parent vs) (hc : σ.IsCommitting parent) :
      Resumed p σ t (σ.goto t (.visit (w.push parent) self vs))
  | lastMember {r i σ'} (hk : σ.coroutine t = .checkMember r i) (hnone : (σ.sccs r)[i]? = none)
      (hs : (σ.markScc r).executeScc t r = some σ') : Resumed p σ t σ'
  | markedScc {r i v σ'} (hk : σ.coroutine t = .checkMember r i) (hv : (σ.sccs r)[i]? = some v)
      (hmark : σ.sccAllNonsccParentsExecutedHint v = true) (hs : σ.executeScc t r = some σ') :
      Resumed p σ t σ'
  | markedMember {r i v} (hk : σ.coroutine t = .checkMember r i)
      (hv : (σ.sccs r)[i]? = some v) (hmark : σ.allNonsccParentsExecutedHint v = true) :
      Resumed p σ t (σ.goto t (.checkMember r (i+1)))
  | nextMember {r i v} (hk : σ.coroutine t = .checkMember r i)
      (hv : (σ.sccs r)[i]? = some v) : Resumed p σ t (σ.goto t (.checkParent r i 0))
  | lastParent {r i j v} (hk : σ.coroutine t = .checkParent r i j)
      (hv : (σ.sccs r)[i]? = some v) (hnone : (σ.parentIds v)[j]? = none) :
      Resumed p σ t ((σ.markMember v).goto t (.checkMember r (i+1)))
  | waitParent {r i j v parent} (hk : σ.coroutine t = .checkParent r i j)
      (hv : (σ.sccs r)[i]? = some v) (hparent : (σ.parentIds v)[j]? = some parent)
      (hi : σ.involve p parent = true) (hne : (σ.sccs r).head?.map σ.scc ≠ some (σ.scc parent)) :
      Resumed p σ t ((σ.cacheInvolve p parent).goto t (.waitParent r i j parent))
  | nextParent {r i j v parent} (hk : σ.coroutine t = .checkParent r i j)
      (hv : (σ.sccs r)[i]? = some v) (hparent : (σ.parentIds v)[j]? = some parent)
      (hpass : σ.involve p parent = false ∨
        (σ.sccs r).head?.map σ.scc = some (σ.scc parent)) :
      Resumed p σ t ((σ.cacheInvolve p parent).goto t (.checkParent r i (j+1)))
  | parentApplied {r i j parent} (hk : σ.coroutine t = .waitParent r i j parent)
      (hfin : σ.logApplyFinished parent = true) : Resumed p σ t (σ.goto t (.checkParent r i (j+1)))
  | ended {r v} (hk : σ.coroutine t = .waitEnd r v)
      (hfin : σ.logApplyFinished v = true) : Resumed p σ t (σ.goto t .finished)
  | executed {r} (hk : σ.coroutine t = .execute r []) : Resumed p σ t (σ.goto t .finished)
  | start {r v vs} (hk : σ.coroutine t = .execute r (v::vs))
      (hhint : σ.allAncCmtHint v = true) (hi : σ.involve p v = true) :
      Resumed p σ t (((σ.start v).cacheInvolve p v).goto t (.waitCommit r v vs))
  | pass {r v vs} (hk : σ.coroutine t = .execute r (v::vs))
      (hhint : σ.allAncCmtHint v = true) (hi : σ.involve p v = false) :
      Resumed p σ t ((((σ.start v).cacheInvolve p v).finish v).goto t (.execute r vs))
  | execute {r v vs} (hk : σ.coroutine t = .waitCommit r v vs)
      (hrecv : σ.commitReceived v = true) : Resumed p σ t (σ.commitExecute t r v vs)

variable [Fintype Tx] {p : Par} {σ σ' : RccServer Site Par Tx} {t : Tx}

section Visits

variable {τ : RccServer Site Par Tx} {w : Walk Tx} {self parent : Tx} {vs : List Tx}

section

variable (hk : σ.coroutine t = .visit w self (parent::vs))
include hk

theorem resumed_of_inquireAboutIfNeeded
    (hτ : Looking p σ self parent τ)
    (hs : τ.inquireAboutIfNeeded p t w self parent vs = some σ') : Resumed p σ t σ' := by
  unfold inquireAboutIfNeeded at hs
  split_ifs at hs with hi hne hasked
  · cases hs
    exact .waitCommitting hk hτ (Or.inl hi)
  · cases hs
    exact .waitCommitting hk hτ (Or.inr hasked)
  · cases hs
    exact .ask hk hτ (by simpa using hasked) (Finset.min'_mem _ hne)

theorem resumed_of_visitUndecided
    (hs : ((σ.markWaiting self).cacheInvolve p parent).visitUndecided p t w self parent vs =
      some σ') : Resumed p σ t σ' := by
  unfold visitUndecided at hs
  split_ifs at hs with hlt hc hi
  · cases hs
    exact .waitApplied hk .marked hlt.1 hlt.2
  · cases hs
    exact .push hk .marked hc
  · cases hs
    exact .waitCommitting hk .marked (Or.inl hi)
  · exact resumed_of_inquireAboutIfNeeded hk .filled hs

theorem resumed_of_visitParent
    (hs : σ.visitParent p t w self parent vs = some σ') : Resumed p σ t σ' := by
  unfold visitParent at hs
  split_ifs at hs with hself hparent hstarted hok hdec
  · cases hs
    exact .skip hk (Or.inl hself)
  · cases hs
    exact .skip hk (Or.inr (Or.inl hparent))
  · cases hs
    exact .skip hk (Or.inr (Or.inl hok.2))
  · cases hs
    exact .skip hk (Or.inr (Or.inr hdec))
  · exact resumed_of_visitUndecided hk hs

end

end Visits

theorem resumed_of_resume (hs : σ.resume p t = some σ') : Resumed p σ t σ' := by
  unfold resume at hs
  cases hk : σ.coroutine t <;>
    simp only [hk,ite_none_right_eq_some,some.injEq,reduceCtorEq] at hs
  case waitAncCommit => exact hs.2 ▸ .rewalk hk hs.1
  case walk w =>
    split at hs
    · next hnil => exact .resolve hk hnil hs
    · next v vs hcons =>
      cases hs
      exact .pop hk hcons
  case visit w self vs =>
    cases vs with
    | nil =>
      cases hs
      exact .close hk
    | cons parent vs =>
      dsimp only at hs
      split_ifs at hs
      exact resumed_of_visitParent hk hs
  case waitApplied w self parent vs => exact hs.2 ▸ .applied hk hs.1
  case inquire w self parent vs =>
    split at hs
    · next reply hreply =>
      cases hs
      split_ifs with hhint
      · exact .covered hk hreply hhint
      · exact .inquired hk hreply
    · cases hs
  case waitCommitting w self parent vs => exact hs.2 ▸ .committed hk hs.1
  case checkMember r i =>
    unfold checkMember at hs
    split at hs
    · next hnone => exact .lastMember hk hnone hs
    · next v hv =>
      split_ifs at hs with hscc hmember
      · exact .markedScc hk hv hscc hs
      · cases hs
        exact .markedMember hk hv hmember
      · cases hs
        exact .nextMember hk hv
  case checkParent r i j =>
    unfold checkParent at hs
    split at hs
    · cases hs
    next v hv =>
    split at hs
    · next hnone =>
      cases hs
      exact .lastParent hk hv hnone
    · next parent hparent =>
      split_ifs at hs with hwait
      · cases hs
        exact .waitParent hk hv hparent hwait.1 hwait.2
      · cases hs
        refine .nextParent hk hv hparent ?_
        rcases not_and_or.mp hwait with hi | hr
        · exact Or.inl (by simpa using hi)
        · exact Or.inr (not_not.mp hr)
  case waitParent r i j parent => exact hs.2 ▸ .parentApplied hk hs.1
  case waitEnd r v => exact hs.2 ▸ .ended hk hs.1
  case execute r vs =>
    cases vs with
    | nil =>
      cases hs
      exact .executed hk
    | cons v vs =>
      simp only [executeTx] at hs
      split_ifs at hs with hv hi
      · cases hs
        exact .start hk hv.1 hi
      · cases hs
        exact .pass hk hv.1 (by simpa using hi)
  case waitCommit r v vs => exact hs.2 ▸ .execute hk hs.1

/-- A resumed coroutine leaves the others where they are. -/
theorem Resumed.kept (h : Resumed p σ t σ') : Kept t σ σ' := by
  cases h with
  | @resolve w _ hk hnil hs =>
    have hwalk : Kept t σ (σ.finishWalk w) := ⟨rfl,rfl,fun _ _ => rfl⟩
    exact hwalk.trans (Kept.resolve hs)
  | skip => exact ((quiet_markWaiting σ _).kept t).goto _
  | waitApplied hk hτ | push hk hτ | waitCommitting hk hτ => exact (hτ.quiet.kept t).goto _
  | ask hk hτ =>
    refine Kept.goto ((hτ.quiet.kept t).trans ?_) _
    exact ⟨rfl,rfl,fun _ _ => rfl⟩
  | covered | inquired => exact (kept_inquired σ t _ _).goto _
  | @lastMember r _ _ hk hnone hs =>
    have hmark : Kept t σ (σ.markScc r) := ⟨rfl,rfl,fun _ _ => rfl⟩
    exact hmark.trans (Kept.executeScc hs)
  | markedScc hk hv hmark hs => exact Kept.executeScc hs
  | waitParent | nextParent => exact ((quiet_cacheInvolve σ p _).kept t).goto _
  | @start _ v =>
    have hstart : Kept t σ (σ.start v) := ⟨rfl,rfl,fun _ _ => rfl⟩
    exact (hstart.trans ((quiet_cacheInvolve _ p _).kept t)).goto _
  | @pass _ v =>
    have hstart : Kept t σ (σ.start v) := ⟨rfl,rfl,fun _ _ => rfl⟩
    refine Kept.goto ((hstart.trans ((quiet_cacheInvolve _ p v).kept t)).trans ?_) _
    exact ⟨rfl,rfl,fun _ _ => rfl⟩
  | _ =>
    refine Kept.goto ?_ _
    exact ⟨rfl,rfl,fun _ _ => rfl⟩

inductive Stepped [DecidableEq Site] [Fintype Site] (D : Deployment Site Par Tx)
    (c : Cluster Site Par Tx) : Action Site Par Tx → Cluster Site Par Tx → Prop
  | preAccept {s t deps σ} (hp : D.partitionId s ∈ D.partitions t)
      (hs : (c s).onPreAccept (D.partitionId s) t deps = some σ) :
      Stepped D c (.preAccept s t deps) (update c s σ)
  | commit {s t σ} (hp : D.partitionId s ∈ D.partitions t)
      (hready : Ready D c t) (hs : (c s).onCommit (D.partitionId s) t (D.parents t) = some σ) :
      Stepped D c (.commit s t) (update c s σ)
  | deliver {s t par σ} (hi : (c s).inquiry t = .sent par)
      (hs : (c (D.nearest s par)).onInquire (D.partitionId (D.nearest s par)) t = some σ) :
      Stepped D c (.deliverInquire s t)
        (setInquiry (update c (D.nearest s par) σ) s t (.waiting (D.nearest s par)))
  | answer {s q t reply} (hi : (c s).inquiry t = .waiting q)
      (hc : (c q).IsCommitting t) (hr : (c q).inquireReply t = some reply) :
      Stepped D c (.answerInquire s t) (setInquiry c s t (.replied reply))
  | resume {s t σ} (hs : (c s).resume (D.partitionId s) t = some σ) :
      Stepped D c (.resume s t) (update c s σ)

/-- What each action can do to the cluster. -/
theorem stepped_of_step [DecidableEq Site] [Fintype Site] {D : Deployment Site Par Tx}
    {c c' : Cluster Site Par Tx} {a : Action Site Par Tx} (hs : step D c a = some c') :
    Stepped D c a c' := by
  cases a <;> simp only [step,ite_none_right_eq_some,map_eq_some_iff] at hs
  case preAccept s t deps =>
    obtain ⟨hp,σ',hσ',rfl⟩ := hs
    exact .preAccept hp hσ'
  case commit s t =>
    obtain ⟨⟨hp,hready⟩,σ',hσ',rfl⟩ := hs
    exact .commit hp hready hσ'
  case deliverInquire s t =>
    split at hs
    · next par hpar =>
      obtain ⟨σ',hσ',rfl⟩ := map_eq_some_iff.mp hs
      exact .deliver hpar hσ'
    · cases hs
  case answerInquire s t =>
    split at hs
    · next q hq =>
      simp only [ite_none_right_eq_some,map_eq_some_iff] at hs
      obtain ⟨hc,reply,hreply,rfl⟩ := hs
      exact .answer hq hc hreply
    · cases hs
  case resume s t =>
    obtain ⟨σ',hσ',rfl⟩ := hs
    exact .resume hσ'

end Janus.Rcc
