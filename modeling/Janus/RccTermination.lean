import Janus.RccExecution

/-! Every run ends. A pre-accept uses up a message, a commit starts a coroutine, and each step
takes a coroutine closer to its end: a traversal walks what it has not walked, the checks go
through the members and their parents, the execution through the members. An inquiry has two
messages. -/
namespace Janus.Rcc

open Tarjan Transition Function Finset RccServer

variable {Site Par Tx : Type} {c : Cluster Site Par Tx}

section Width

variable [Fintype Tx]

def Deployment.width (D : Deployment Site Par Tx) : ℕ := Finset.univ.sup fun t => (D.adj t).length

theorem Deployment.lt_width {D : Deployment Site Par Tx} {x y : Tx} {j : ℕ}
    (h : (D.adj x)[j]? = some y) : j < D.width := by
  obtain ⟨hj,-⟩ := List.getElem?_eq_some_iff.mp h
  exact hj.trans_le (le_sup (f:=fun t => (D.adj t).length) (mem_univ x))

end Width

def Inquiry.stage : Inquiry Site Par Tx → ℕ
  | .idle => 3
  | .sent _ => 2
  | .waiting _ => 1
  | .replied _ => 0

theorem Quiet.update_inquiry [DecidableEq Site] {q : Site}
    {σ : RccServer Site Par Tx} (hq : Quiet (c q) σ) (s : Site) :
    (update c q σ s).inquiry = (c s).inquiry := by
  obtain ⟨_,_,_,rfl⟩ := hq
  by_cases hs : s = q
  · subst hs
    rw [update_self]
  · rw [update_of_ne hs]

def RccServer.undispatched (σ : RccServer Site Par Tx) (t : Tx) : ℕ :=
  if σ.fullyDispatched t then 0 else 1

theorem cell_eq [DecidableEq Site] {β : Type} {s : Site}
    {σ : RccServer Site Par Tx} (F : RccServer Site Par Tx → Tx → β) (h : ∀ x, F σ x = F (c s) x) :
    (fun i : Site × Tx => F (update c s σ i.1) i.2) = fun i => F (c i.1) i.2 := by
  funext i
  by_cases hi : i.1 = s
  · rw [hi,update_self,h]
  · rw [update_of_ne hi]

variable [LinearOrder Tx] {D : Deployment Site Par Tx} {ready : Tx → Prop} {p : Par}
  {σ σ' : RccServer Site Par Tx} {t x : Tx} {r : SccRef Tx}

section Ranks

abbrev Rank := ℕ ×ₗ ℕ ×ₗ ℕ ×ₗ ℕ

def Rank.mk (a b c d : ℕ) : Rank := toLex (a,toLex (b,toLex (c,d)))

theorem Rank.mk_lt {a b c d a' b' c' d' : ℕ} : Rank.mk a b c d < Rank.mk a' b' c' d' ↔
    a < a' ∨ a = a' ∧ (b < b' ∨ b = b' ∧ (c < c' ∨ c = c' ∧ d < d')) := by
  simp only [Rank.mk,Prod.Lex.toLex_lt_toLex]

def Walk.stacked (w : Walk Tx) : ℕ := (w.toWalk.filter (· ∈ w.walked)).length

theorem Walk.push_stacked (w : Walk Tx) (v : Tx) : (w.push v).stacked = w.stacked := by
  unfold Walk.stacked Walk.push
  split_ifs with hv
  · rfl
  · rw [List.filter_cons_of_neg (by simpa using hv)]

variable [Fintype Tx] {n : ℕ} {k : Coroutine Tx}

def Walk.unwalked (w : Walk Tx) : ℕ := Fintype.card Tx - w.walked.card

def Coroutine.rank (n : ℕ) : Coroutine Tx → Rank
  | .idle => .mk 5 0 0 0
  | .waitAncCommit => .mk 4 0 0 0
  | .walk w => .mk 3 w.unwalked w.stacked 0
  | .visit w _ vs => .mk 3 w.unwalked w.stacked (3*vs.length+1)
  | .waitApplied w _ _ vs => .mk 3 w.unwalked w.stacked (3*vs.length+2)
  | .inquire w _ _ vs => .mk 3 w.unwalked w.stacked (3*vs.length+3)
  | .waitCommitting w _ _ vs => .mk 3 w.unwalked w.stacked (3*vs.length+2)
  | .checkMember _ i => .mk 2 (Fintype.card Tx-i) (n+1) 0
  | .checkParent _ i j => .mk 2 (Fintype.card Tx-i) (n-j) 1
  | .waitParent _ i j _ => .mk 2 (Fintype.card Tx-i) (n-j) 0
  | .waitEnd _ _ => .mk 1 0 0 0
  | .execute _ vs => .mk 1 vs.length 0 0
  | .waitCommit _ _ vs => .mk 1 vs.length 1 0
  | .finished => .mk 0 0 0 0

theorem Walk.pop_lt {w : Walk Tx} {v : Tx} {vs : List Tx} (hw : w.toWalk = v::vs) :
    (Walk.mk vs (insert v w.walked)).unwalked < w.unwalked ∨
      (Walk.mk vs (insert v w.walked)).unwalked = w.unwalked ∧
        (Walk.mk vs (insert v w.walked)).stacked < w.stacked := by
  unfold Walk.unwalked Walk.stacked
  by_cases hv : v ∈ w.walked
  · right
    rw [insert_eq_of_mem hv,hw,List.filter_cons_of_pos (by simpa using hv)]
    exact ⟨rfl,Nat.lt_succ_self _⟩
  · left
    rw [card_insert_of_notMem hv]
    have := card_lt_univ_of_notMem hv
    omega

theorem Coroutine.rank_lt_idle (hk : k ≠ .idle) :
    k.rank n < (Coroutine.idle : Coroutine Tx).rank n := by
  cases k with
  | idle => exact absurd rfl hk
  | _ =>
    exact Rank.mk_lt.mpr (by omega)

theorem rank_goto_lt {k' : Coroutine Tx} (hk : σ.coroutine t = k)
    (hlt : k'.rank n < k.rank n) : ((σ'.goto t k').coroutine t).rank n <
    (σ.coroutine t).rank n := by
  rw [goto_coroutine_self,hk]
  exact hlt

theorem resolve_coroutine (hs : σ.resolve t = some σ') : ∃ r, σ'.coroutine t = .checkMember r 0 := by
  unfold resolve at hs
  simp only [Option.ite_none_left_eq_some,Option.some.injEq] at hs
  rw [← hs.2,goto_coroutine_self]
  exact ⟨_,rfl⟩

theorem executeScc_rank (hs : σ.executeScc t r = some σ') :
    (σ'.coroutine t).rank n < .mk 2 0 0 0 := by
  unfold executeScc at hs
  split at hs
  · split_ifs at hs
    all_goals
      cases hs
      rw [goto_coroutine_self]
      exact Rank.mk_lt.mpr (by omega)
  · cases hs

theorem Resolved.lt_card {i : ℕ} (hc : Components D ready σ) (hr : Resolved σ t r)
    (hx : (σ.sccs r)[i]? = some x) : i < Fintype.card Tx := by
  obtain ⟨hi,-⟩ := List.getElem?_eq_some_iff.mp hx
  have hnodup : (σ.sccs r).Nodup := (hr.sorted hc).imp ne_of_lt
  exact hi.trans_le hnodup.length_le_card

end Ranks

section Measure

variable [Fintype Tx] [LinearOrder Par]

/-- Each resumption takes a coroutine nearer to its end. -/
theorem Resumed.rank_lt (h : ExecOK D p σ) (hok : ServerOK D ready p σ) (hs : Resumed p σ t σ') :
    (σ'.coroutine t).rank D.width < (σ.coroutine t).rank D.width := by
  have hrun := h.run.running t
  cases hs with
  | rewalk hk | close hk | applied hk | covered hk | inquired hk | nextMember hk | waitParent hk
  | ended hk | executed hk | execute hk => exact rank_goto_lt hk (Rank.mk_lt.mpr (by omega))
  | resolve hk hnil hs =>
    obtain ⟨r,hr⟩ := resolve_coroutine hs
    rw [hr,hk]
    exact Rank.mk_lt.mpr (by omega)
  | pop hk hcons =>
    rw [goto_coroutine_self,hk]
    have hlt := Walk.pop_lt hcons
    exact Rank.mk_lt.mpr (by omega)
  | lastMember hk hnone hs | markedScc hk hv hmark hs =>
    rw [hk]
    exact (executeScc_rank hs).trans (Rank.mk_lt.mpr (by omega))
  | skip hk | start hk | pass hk => exact rank_goto_lt hk (Rank.mk_lt.mpr (by simp))
  | waitApplied hk | waitCommitting hk | ask hk =>
    exact rank_goto_lt hk (Rank.mk_lt.mpr (by simp; omega))
  | push hk | committed hk =>
    refine rank_goto_lt hk (Rank.mk_lt.mpr (.inr ⟨rfl,.inr ⟨rfl,.inr ⟨Walk.push_stacked _ _,?_⟩⟩⟩))
    simp
  | markedMember hk hv | lastParent hk hv =>
    rw [hk] at hrun
    have hi := hrun.1.lt_card hok.comps hv
    exact rank_goto_lt hk (Rank.mk_lt.mpr (by omega))
  | nextParent hk hv hparent =>
    rw [hk] at hrun
    have hj := Deployment.lt_width (hok.resolved_of_parents hrun.1 hv hparent).2.2
    exact rank_goto_lt hk (Rank.mk_lt.mpr (by omega))
  | parentApplied hk =>
    rw [hk] at hrun
    obtain ⟨-,-,⟨x,-,-,hadj⟩,-⟩ := hrun
    have hj := Deployment.lt_width hadj
    exact rank_goto_lt hk (Rank.mk_lt.mpr (by omega))

theorem onCommit_rank {n : ℕ} {parents : ParentSet Par Tx}
    (hidle : σ.commitReceived t = false → σ.coroutine t = .idle)
    (hs : σ.onCommit p t parents = some σ') :
    (σ'.coroutine t).rank n < (σ.coroutine t).rank n ∧
      ∀ x, x ≠ t → σ'.coroutine x = σ.coroutine x := by
  have hco := (aside_receiveCommit σ p t parents).coroutine
  unfold onCommit at hs
  split_ifs at hs with hguard
  rw [hidle (by simpa using hguard.2.1)]
  unfold waitPredecessors at hs
  split_ifs at hs
  · obtain ⟨r,hr⟩ := resolve_coroutine hs
    refine ⟨Coroutine.rank_lt_idle (by rw [hr]; nofun),fun x hx => ?_⟩
    rw [(Kept.resolve hs).others x hx,hco]
  all_goals
    cases hs
    refine ⟨Coroutine.rank_lt_idle (by rw [goto_coroutine_self]; nofun),fun x hx => ?_⟩
    rw [goto_coroutine_of_ne _ _ hx,hco]

end Measure

section Cluster

/-- The pre-accepts that are left, what is ahead of each coroutine, and where each
inquiry stands. -/
def measure [Fintype Tx] (D : Deployment Site Par Tx) (c : Cluster Site Par Tx) :
    (Site × Tx → ℕ) ×ₗ (Site × Tx → Rank) ×ₗ (Site × Tx → ℕ) :=
  toLex (fun i => (c i.1).undispatched i.2,
    toLex (fun i => ((c i.1).coroutine i.2).rank D.width,fun i => ((c i.1).inquiry i.2).stage))

theorem onPreAccept_dispatches [LinearOrder Par] {deps : ParentSet Par Tx}
    (hs : σ.onPreAccept p t deps = some σ') :
    (σ'.fullyDispatched t = true ∧ σ.fullyDispatched t = false) ∧
      ∀ x, x ≠ t → σ'.fullyDispatched x = σ.fullyDispatched x := by
  unfold onPreAccept at hs
  split_ifs at hs with hd
  simp only [Option.some.injEq] at hs
  subst hs
  refine ⟨⟨update_self ..,by simpa using hd⟩,fun x hx => ?_⟩
  split_ifs <;> exact update_of_ne hx ..

variable [DecidableEq Site] {c c' : Cluster Site Par Tx} {s : Site}

theorem cell_lt {β : Type} [Preorder β] (F : RccServer Site Par Tx → Tx → β)
    (hlt : F σ t < F (c s) t) (heq : ∀ x, x ≠ t → F σ x = F (c s) x) :
    (fun i : Site × Tx => F (update c s σ i.1) i.2) < fun i => F (c i.1) i.2 := by
  refine Pi.lt_def.mpr ⟨fun i => ?_,(s,t),?_⟩
  · dsimp only
    by_cases hi : i.1 = s
    · rw [hi,update_self]
      by_cases hx : i.2 = t
      · rw [hx]
        exact hlt.le
      · rw [heq i.2 hx]
    · rw [update_of_ne hi]
  · rw [update_self]
    exact hlt

variable [Fintype Tx]

theorem measure_dispatch (hlt : σ.fullyDispatched t = true ∧ (c s).fullyDispatched t = false)
    (heq : ∀ x, x ≠ t → σ.fullyDispatched x = (c s).fullyDispatched x) :
    measure D (update c s σ) < measure D c := by
  refine Prod.Lex.toLex_lt_toLex.mpr (Or.inl ?_)
  refine cell_lt undispatched (t:=t) ?_ ?_
  · simp [undispatched,hlt]
  · intro x hx
    rw [undispatched,undispatched,heq x hx]

theorem measure_move (hd : σ.fullyDispatched = (c s).fullyDispatched)
    (hlt : (σ.coroutine t).rank D.width < ((c s).coroutine t).rank D.width)
    (heq : ∀ x, x ≠ t → σ.coroutine x = (c s).coroutine x) :
    measure D (update c s σ) < measure D c := by
  refine Prod.Lex.toLex_lt_toLex.mpr (Or.inr ⟨?_,Prod.Lex.toLex_lt_toLex.mpr (Or.inl ?_)⟩)
  · refine cell_eq undispatched ?_
    intro x
    rw [undispatched,undispatched,hd]
  · refine cell_lt (fun τ x => (τ.coroutine x).rank D.width) hlt ?_
    intro x hx
    rw [heq x hx]

theorem measure_setInquiry {i : Inquiry Site Par Tx} (hlt : i.stage < ((c s).inquiry t).stage) :
    measure D (setInquiry c s t i) < measure D c := by
  refine Prod.Lex.toLex_lt_toLex.mpr (Or.inr ⟨?_,Prod.Lex.toLex_lt_toLex.mpr (Or.inr ⟨?_,?_⟩)⟩)
  · exact cell_eq undispatched fun _ => rfl
  · exact cell_eq (fun τ x => (τ.coroutine x).rank D.width) fun _ => rfl
  · refine cell_lt (fun τ x => (τ.inquiry x).stage) (t:=t) ?_ ?_
    · dsimp only
      rwa [update_self]
    · intro x hx
      dsimp only
      rw [update_of_ne hx]

theorem measure_quiet (hq : Quiet (c s) σ) : measure D (update c s σ) = measure D c := by
  obtain ⟨_,_,_,rfl⟩ := hq
  refine congrArg toLex (Prod.ext ?_ (congrArg toLex (Prod.ext ?_ ?_)))
  · exact cell_eq undispatched fun _ => rfl
  · exact cell_eq (fun τ x => (τ.coroutine x).rank D.width) fun _ => rfl
  · exact cell_eq (fun τ x => (τ.inquiry x).stage) fun _ => rfl

variable [Fintype Site] [LinearOrder Par]

/-- Each step makes the measure smaller, so that runs end. -/
theorem measure_step {a : Action Site Par Tx} (h : Executing D c) (hs : Rcc.step D c a = some c') :
    measure D c' < measure D c := by
  obtain ⟨hinv,hexec⟩ := h
  cases stepped_of_step hs with
  | preAccept hp hσ => exact measure_dispatch (onPreAccept_dispatches hσ).1 (onPreAccept_dispatches hσ).2
  | @commit s t σ hp hready hσ =>
    have hidle : (c s).commitReceived t = false → (c s).coroutine t = .idle := by
      intro hrecv
      by_contra hne
      rw [(hexec s).run.received t hne] at hrecv
      cases hrecv
    obtain ⟨hlt,hother⟩ := onCommit_rank (n:=D.width) hidle hσ
    exact measure_move (onCommit_fullyDispatched hσ) hlt hother
  | @deliver s t par σ hi hσ =>
    have hq := quiet_onInquire hσ
    rw [← measure_quiet hq]
    refine measure_setInquiry ?_
    rw [hq.update_inquiry,hi]
    exact Nat.lt_succ_self 1
  | @answer s q t reply hi hc hr =>
    refine measure_setInquiry ?_
    rw [hi]
    exact Nat.lt_succ_self 0
  | @resume s t σ hσ =>
    have hres := resumed_of_resume hσ
    exact measure_move hres.kept.dispatched (hres.rank_lt (hexec s) (hinv s)) hres.kept.others

end Cluster

end Janus.Rcc
