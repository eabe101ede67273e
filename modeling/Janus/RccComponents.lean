import Janus.RccInvariant

/-! The component vectors of every server agree with the graph of final parents, unless a reply
with a single component meets a vector that is filled already: the source pushes without looking,
and a run exists that lists a transaction twice. -/
namespace Janus.Rcc

open Tarjan Transition Function List RccServer Option Status

variable {Site Par Tx : Type} [LinearOrder Tx] {D : Deployment Site Par Tx} {ready : Tx → Prop}
  {p : Par} {σ σ' : RccServer Site Par Tx}

section Learning

variable {t : Tx} {parents : ParentSet Par Tx}

theorem Known.learn (h : Known D ready p σ)
    (hparents : parents = D.parents t) (hready : ready t) (s : Status) :
    Known D ready p ((σ.replaceParentEdges t parents).setStatus t s) := by
  have hold : ∀ x, ((σ.replaceParentEdges t parents).setStatus t s).IsCommitting x →
      σ.IsCommitting x ∨ x = t := by
    intro x hx
    rw [isCommitting_setStatus] at hx
    exact hx.imp id And.left
  have hkeep : ∀ x, σ.IsCommitting x →
      ((σ.replaceParentEdges t parents).setStatus t s).IsCommitting x := by
    intro x hx
    rw [isCommitting_setStatus]
    exact Or.inl hx
  refine {h with
    final := fun x hx => ?_
    ready := fun x hx => ?_
    received := fun x hx => (h.received x hx).imp_left (hkeep x)}
  · simp only [setStatus,replaceParentEdges,update_apply]
    split_ifs with hxt
    · rw [hxt,hparents]
    · exact h.final x ((hold x hx).resolve_right hxt)
  · rcases hold x hx with hx | rfl
    · exact h.ready x hx
    · exact hready

theorem Components.withStatus (h : Components D ready σ) (parents : Tx → ParentSet Par Tx)
    (status : Tx → Status)
    (hcmt : ∀ x, σ.IsCommitting x → {σ with status := status}.IsCommitting x)
    (hdec : ∀ x, {σ with status := status}.IsDecided x → σ.Done x)
    (htog : ∀ x w, {σ with status := status}.IsDecided x → Mutual D.adj x w →
      {σ with status := status}.IsDecided w) :
    Components D ready {σ with status := status, parents := parents} :=
  {h with
   committing := fun x hx => hcmt x (h.committing x hx)
   decided := hdec
   together := htog
   hinted := fun x hx => hcmt x (h.hinted x hx)}

/-- Found components keep the invariant if their members are committing, with ready parents, and
the marks agree. -/
theorem Components.found {A : Tx → Prop} (h : Components D ready σ)
    (hfound : Search.Found D.adj A σ.search σ'.search) (hrest : Search.Rest D.adj σ'.search)
    (hnew : ∀ x, A x → σ'.IsCommitting x ∧ (∀ y ∈ D.adj x, ready y) ∧
      (σ'.allAncCmtHint x = true ∨ σ'.sccOf x = [x]))
    (hcmt : ∀ x, σ.IsCommitting x → σ'.IsCommitting x)
    (hhint : ∀ x, σ.allAncCmtHint x = true → σ'.allAncCmtHint x = true)
    (hhint' : ∀ x, σ'.allAncCmtHint x = true →
      σ.allAncCmtHint x = true ∨ σ'.IsCommitting x ∧ σ'.Done x)
    (hfin : σ'.logApplyFinished = σ.logApplyFinished)
    (hdec : ∀ x, σ'.IsDecided x → σ'.Done x)
    (htog : ∀ x w, σ'.IsDecided x → Mutual D.adj x w → σ'.IsDecided w) :
    Components D ready σ' := by
  have hmono : ∀ x, σ.Done x → σ'.Done x := fun x hx => hfound.done_mono hx
  have hold : ∀ x, σ.Done x → σ'.scc x = σ.scc x ∧ σ'.sccOf x = σ.sccOf x := by
    intro x hx
    obtain ⟨hcell,hcontent⟩ := hfound.old x hx
    exact ⟨hcell,(congrArg σ'.sccs hcell).trans hcontent⟩
  constructor
  case rest => exact hrest
  case component =>
    intro x hx
    by_cases hxd : σ.Done x
    · rw [(hold x hxd).2]
      exact h.component x hxd
    · exact (hfound.new x hx hxd).2.1
  case shared =>
    intro x w hx hxw
    by_cases hxd : σ.Done x
    · rw [(hold x hxd).1,(hold w (h.rest.cells.closed x w hxd hxw)).1]
      exact h.shared x w hxd hxw
    · exact (hfound.new x hx hxd).2.2 w hxw
  case own =>
    intro x hx
    exact (hfound.rest x hx).trans (h.own x fun hd => hx (hmono x hd))
  case committing =>
    intro x hx
    by_cases hxd : σ.Done x
    · exact hcmt x (h.committing x hxd)
    · exact (hnew x (hfound.new x hx hxd).1).1
  case parents =>
    intro x hx
    by_cases hxd : σ.Done x
    · exact h.parents x hxd
    · exact (hnew x (hfound.new x hx hxd).1).2.1
  case decided => exact hdec
  case together => exact htog
  case hinted =>
    intro x hx
    rcases hhint' x hx with hx | hx
    · exact hcmt x (h.hinted x hx)
    · exact hx.1
  case covered =>
    intro x hx hxd y hy
    rcases hhint' x hx with hx | hx
    · exact (h.covered x hx (fun hd => hxd (hmono x hd)) y hy).imp (hhint y) (hmono y)
    · exact absurd hx.2 hxd
  case alone =>
    intro x hx
    by_cases hxd : σ.Done x
    · rw [(hold x hxd).2]
      exact (h.alone x hxd).imp (hhint x) id
    · exact (hnew x (hfound.new x hx hxd).1).2.2
  case finished =>
    intro x hx
    rw [hfin] at hx
    exact hhint x (h.finished x hx)

theorem ServerOK.learn (h : ServerOK D ready p σ)
    (hparents : parents = D.parents t) (hready : ready t) :
    ServerOK D ready p ((σ.replaceParentEdges t parents).setStatus t .committing) := by
  have hcmt : ∀ x, σ.IsCommitting x →
      ((σ.replaceParentEdges t parents).setStatus t .committing).IsCommitting x := by
    intro x hx
    rw [isCommitting_setStatus]
    exact Or.inl hx
  have hdec : ∀ x, ((σ.replaceParentEdges t parents).setStatus t .committing).IsDecided x ↔
      σ.IsDecided x := by
    intro x
    rw [isDecided_setStatus]
    simp [RccServer.IsDecided,replaceParentEdges]
  refine h.update (h.known.learn hparents hready _)
    (h.comps.withStatus _ _ hcmt (fun x hx => h.comps.decided x ((hdec x).mp hx)) ?_)
    ⟨hcmt,fun _ hx => hx,fun _ hx => hx⟩ rfl rfl rfl fun _ _ _ => rfl
  intro x w hx hxw
  exact (hdec w).mpr (h.comps.together x w ((hdec x).mp hx) hxw)

/-- A reply that lists `members` as the component of `t` gives it to those without one, with their
parents, and decides all. -/
structure Taken (D : Deployment Site Par Tx) (t : Tx) (members : List Tx)
    (σ σ' : RccServer Site Par Tx) : Prop where
  frame : σ' = {σ with
    status := σ'.status
    parents := σ'.parents
    allAncCmtHint := σ'.allAncCmtHint
    sccs := σ'.sccs
    scc := σ'.scc}
  committing : ∀ x, σ'.IsCommitting x ↔ σ.IsCommitting x ∨ x ∈ members
  decided : ∀ x, σ'.IsDecided x ↔ σ.IsDecided x ∨ x ∈ members
  parents : ∀ x, σ'.parents x = if x ∈ members then D.parents x else σ.parents x
  hint : ∀ x, σ.allAncCmtHint x = true → σ'.allAncCmtHint x = true
  marked : ∀ x, σ'.allAncCmtHint x = true → σ.allAncCmtHint x = true ∨ x ∈ members
  alone : ∀ x ∈ members, σ'.allAncCmtHint x = true ∨ members = [x]
  old : ∀ x, σ.Done x → σ'.scc x = σ.scc x ∧ σ'.sccOf x = σ.sccOf x
  new : ∃ r, ∀ x ∈ members, ¬σ.Done x → σ'.scc x = r ∧ σ'.sccOf x = members
  rest : ∀ x, x ∉ members → ¬σ.Done x → σ'.scc x = σ.scc x ∧ ¬σ'.Done x
  fresh : ∀ y, y ≠ t → σ'.sccs (.inquired y) = σ.sccs (.inquired y)

theorem Taken.found {members : List Tx} (h : Taken D t members σ σ')
    (hcomps : Components D ready σ) (hcomp : IsComponent D.adj t members) :
    Search.Found D.adj (fun x => x ∈ members ∧ ¬σ.Done x) σ.search σ'.search := by
  obtain ⟨r,hnew⟩ := h.new
  have hmem : ∀ x, σ'.Done x → ¬σ.Done x → x ∈ members := by
    intro x hx hold
    by_contra hxm
    exact (h.rest x hxm hold).2 hx
  refine ⟨?_,?_,?_⟩
  · intro x hx
    obtain ⟨hcell,hcontent⟩ := h.old x hx
    refine ⟨hcell,?_⟩
    unfold sccOf at hcontent
    rwa [hcell] at hcontent
  · intro x hx hold
    have hxm := hmem x hx hold
    have htx := (hcomp.mem x).mp hxm
    refine ⟨⟨hxm,hold⟩,?_,?_⟩
    · rw [show σ'.search.content (σ'.search.cell x) = members from (hnew x hxm hold).2]
      exact hcomp.of_mutual htx
    · intro w hw
      have hwd : ¬σ.Done w := fun hwd => hold (hcomps.rest.cells.closed w x hwd hw.symm)
      exact (hnew w ((hcomp.mem w).mpr (htx.trans hw)) hwd).1.trans (hnew x hxm hold).1.symm
  · intro x hx
    have hxd : ¬σ.Done x := by
      intro hd
      apply hx
      show σ'.sccOf x ≠ []
      rw [(h.old x hd).2]
      exact hd
    have hxm : x ∉ members := by
      intro hxm
      apply hx
      show σ'.sccOf x ≠ []
      rw [(hnew x hxm hxd).2]
      exact ne_nil_of_mem hxm
    exact (h.rest x hxm hxd).1

variable {scc : List (Tx × ParentSet Par Tx)}

theorem ServerOK.taken (h : ServerOK D ready p σ)
    (hreply : ReplyOK D ready t (.decided scc)) (htaken : Taken D t (scc.map Prod.fst) σ σ')
    (hnone : ∀ x, (σ.coroutine x).asking ≠ some t) (hasked : σ.duringAsking t = true) :
    ServerOK D ready p σ' := by
  obtain ⟨hcomp,hall⟩ := hreply
  have hfound := htaken.found h.comps hcomp
  obtain ⟨hframe,hcmt,hdec,hparents,hhint,hmarked,halone,hold,⟨r,hnew⟩,-,hfresh⟩ := htaken
  have hmem : ∀ x ∈ scc.map Prod.fst, ready x ∧ ∀ y ∈ D.adj x, ready y := by
    intro x hx
    obtain ⟨e,he,rfl⟩ := mem_map.mp hx
    exact (hall e he).2
  have hdone : ∀ x, σ.Done x → σ'.Done x := fun x hx => hfound.done_mono hx
  have hmdone : ∀ x ∈ scc.map Prod.fst, σ'.Done x := by
    intro x hx
    by_cases hd : σ.Done x
    · exact hdone x hd
    · unfold RccServer.Done
      rw [(hnew x hx hd).2]
      exact ne_nil_of_mem hx
  have hknown : Known D ready p σ' := by
    rw [hframe]
    refine {h.known with
      final := fun x hx => ?_
      ready := fun x hx => ((hcmt x).mp hx).elim (h.known.ready x) fun hx => (hmem x hx).1
      received := fun x hx => (h.known.received x hx).imp_left fun hx => (hcmt x).mpr (Or.inl hx)}
    rw [hparents]
    split_ifs with hxm
    · rfl
    · exact h.known.final x (((hcmt x).mp hx).resolve_right hxm)
  have hrest : Search.Rest D.adj σ'.search := by
    apply h.comps.rest.found hfound <;>
      rw [hframe] <;>
      rfl
  have hcomps : Components D ready σ' := by
    refine h.comps.found hfound hrest ?_ (fun x hx => (hcmt x).mpr (Or.inl hx)) hhint ?_
      (by rw [hframe]) ?_ ?_
    · rintro x ⟨hx,hxd⟩
      refine ⟨(hcmt x).mpr (Or.inr hx),(hmem x hx).2,?_⟩
      rw [(hnew x hx hxd).2]
      exact halone x hx
    · intro x hx
      exact (hmarked x hx).imp id fun hx => ⟨(hcmt x).mpr (Or.inr hx),hmdone x hx⟩
    · intro x hx
      exact ((hdec x).mp hx).elim (fun hx => hdone x (h.comps.decided x hx)) (hmdone x)
    · intro x w hx hxw
      rcases (hdec x).mp hx with hx | hx
      · exact (hdec w).mpr (Or.inl (h.comps.together x w hx hxw))
      · exact (hdec w).mpr (Or.inr ((hcomp.mem w).mpr (((hcomp.mem x).mp hx).trans hxw)))
  refine h.update hknown hcomps ⟨fun x hx => (hcmt x).mpr (Or.inl hx),hhint,hdone⟩
    (by rw [hframe]) (by rw [hframe]) (by rw [hframe]) ?_
  intro x y hy
  apply hfresh
  rintro rfl
  rcases hy with hy | hy
  · exact hnone x hy
  · rw [hasked] at hy
    cases hy

theorem Components.taken_single (h : Components D ready σ)
    (hparents : parents = D.parents t) (hempty : ¬σ.Done t) :
    Taken D t [t] σ (σ.inquired t (.decided [(t,parents)])) := by
  have hnil : σ.sccOf t = [] := not_not.mp hempty
  have hother : ∀ r, r ≠ σ.scc t → (σ.inquired t (.decided [(t,parents)])).sccs r = σ.sccs r :=
    fun r hr => update_of_ne hr _ _
  have hne : ∀ x, x ≠ t → σ.scc x ≠ σ.scc t :=
    fun x hx hc => hx (h.rest.cells.separate t x hempty hc)
  constructor
  case frame => rfl
  case committing =>
    intro x
    rw [show (σ.inquired t (.decided [(t,parents)])).IsCommitting x ↔ _ from
      isCommitting_setStatus _ t .decided x]
    simp [RccServer.IsCommitting,replaceParentEdges,value]
  case decided =>
    intro x
    rw [show (σ.inquired t (.decided [(t,parents)])).IsDecided x ↔ _ from
      isDecided_setStatus _ t .decided x]
    simp [RccServer.IsDecided,replaceParentEdges]
  case parents =>
    intro x
    show update σ.parents t parents x = _
    simp only [update_apply,mem_singleton]
    split_ifs with hx
    · rw [hx,hparents]
    · rfl
  case hint => exact fun _ hx => hx
  case marked => exact fun _ hx => Or.inl hx
  case alone =>
    intro x hx
    rw [mem_singleton.mp hx]
    exact Or.inr rfl
  case old =>
    intro x hx
    exact ⟨rfl,hother _ (hne x fun hxt => hempty (hxt ▸ hx))⟩
  case new =>
    refine ⟨σ.scc t,fun x hx _ => ?_⟩
    rw [mem_singleton.mp hx]
    refine ⟨rfl,?_⟩
    show update σ.sccs (σ.scc t) (σ.sccOf t++[t]) (σ.scc t) = [t]
    rw [update_self,hnil,nil_append]
  case rest =>
    intro x hx hxd
    refine ⟨rfl,fun hd => hd ?_⟩
    exact (hother _ (hne x (by simpa using hx))).trans (not_not.mp hxd)
  case fresh =>
    intro y _
    apply hother
    rw [h.own t hempty]
    simp

theorem inquired_many (h : scc.length ≠ 1) : σ.inquired t (.decided scc) = {σ with
      parents := fun v => ((scc.find? fun e => e.1 = v).map Prod.snd).getD (σ.parents v)
      status := fun v => if v ∈ scc.map Prod.fst then (σ.status v).update .decided else σ.status v
      allAncCmtHint := fun v => σ.allAncCmtHint v || decide (v ∈ scc.map Prod.fst)
      sccs := Function.update σ.sccs (.inquired t) (scc.map Prod.fst)
      scc := fun v => if v ∈ scc.map Prod.fst ∧ σ.sccOf v = [] then .inquired t else σ.scc v} := by
  match scc with
  | [] => rfl
  | [e] => exact absurd rfl h
  | _::_::_ => rfl

theorem inquired_parents (hall : ∀ e ∈ scc, e.2 = D.parents e.1) (v : Tx) (d : ParentSet Par Tx) :
    ((scc.find? fun e => e.1 = v).map Prod.snd).getD d =
      if v ∈ scc.map Prod.fst then D.parents v else d := by
  cases hf : scc.find? fun e => e.1 = v with
  | none =>
    have hv : v ∉ scc.map Prod.fst := by
      intro hv
      obtain ⟨e,he,hev⟩ := mem_map.mp hv
      have := find?_eq_none.mp hf e he
      simp [hev] at this
    rw [if_neg hv]
    rfl
  | some e =>
    have hev : e.1 = v := by simpa using find?_some hf
    have hmem := mem_of_find?_eq_some hf
    rw [if_pos (mem_map.mpr ⟨e,hmem,hev⟩)]
    exact (hall e hmem).trans (congrArg D.parents hev)

theorem Components.taken_many
    (h : Components D ready σ) (hall : ∀ e ∈ scc, e.2 = D.parents e.1) (hlen : scc.length ≠ 1)
    (hfresh : σ.sccs (.inquired t) = []) :
    Taken D t (scc.map Prod.fst) σ (σ.inquired t (.decided scc)) := by
  rw [inquired_many hlen]
  set members := scc.map Prod.fst
  have hother : ∀ x, ¬(x ∈ members ∧ σ.sccOf x = []) →
      update σ.sccs (.inquired t) members (σ.scc x) = σ.sccOf x := by
    intro x hx
    apply update_of_ne
    intro hc
    by_cases hd : σ.Done x
    · exact hd (by rw [sccOf,hc,hfresh])
    · rw [h.own x hd] at hc
      cases hc
  have hvector : ∀ x r, (if x ∈ members ∧ σ.sccOf x = [] then .inquired t else σ.scc x) = r →
      update σ.sccs (.inquired t) members
        (if x ∈ members ∧ σ.sccOf x = [] then .inquired t else σ.scc x) =
      update σ.sccs (.inquired t) members r := fun x r hr => by rw [hr]
  constructor
  case frame => rfl
  case committing =>
    intro x
    by_cases hx : x ∈ members
    · refine iff_of_true ?_ (Or.inr hx)
      simp only [RccServer.IsCommitting,if_pos hx,committing_le_update]
      exact Or.inr (by decide)
    · simp [RccServer.IsCommitting,hx]
  case decided =>
    intro x
    by_cases hx : x ∈ members
    · simp [RccServer.IsDecided,hx,update_eq_decided]
    · simp [RccServer.IsDecided,hx]
  case parents => exact fun x => inquired_parents hall x _
  case hint =>
    intro x hx
    simp [hx]
  case marked => simp
  case alone =>
    intro x hx
    exact Or.inl (by simp [hx])
  case old =>
    intro x hx
    have hcell : ¬(x ∈ members ∧ σ.sccOf x = []) := fun hc => hx hc.2
    exact ⟨if_neg hcell,(hvector x _ (if_neg hcell)).trans (hother x hcell)⟩
  case new =>
    refine ⟨.inquired t,fun x hx hxd => ?_⟩
    have hcell : x ∈ members ∧ σ.sccOf x = [] := ⟨hx,not_not.mp hxd⟩
    exact ⟨if_pos hcell,(hvector x _ (if_pos hcell)).trans (update_self ..)⟩
  case rest =>
    intro x hx hxd
    have hcell : ¬(x ∈ members ∧ σ.sccOf x = []) := fun hc => hx hc.1
    refine ⟨if_neg hcell,fun hd => hd ?_⟩
    exact ((hvector x _ (if_neg hcell)).trans (hother x hcell)).trans (not_not.mp hxd)
  case fresh =>
    intro y hy
    apply update_of_ne
    simpa using hy

theorem Components.taken (h : Components D ready σ)
    (hreply : ReplyOK D ready t (.decided scc)) (hfresh : ∀ e, scc = [e] → ¬σ.Done t)
    (hnil : σ.sccs (.inquired t) = []) :
    Taken D t (scc.map Prod.fst) σ (σ.inquired t (.decided scc)) := by
  have hall : ∀ e ∈ scc, e.2 = D.parents e.1 := fun e he => (hreply.2 e he).1
  by_cases hlen : scc.length = 1
  · obtain ⟨⟨x,parents⟩,rfl⟩ := length_eq_one_iff.mp hlen
    have hx : t = x := by simpa using (hreply.1.mem t).mpr (Mutual.refl t)
    subst hx
    exact h.taken_single (hall _ mem_cons_self) (hfresh _ rfl)
  · exact h.taken_many hall hlen hnil

end Learning

section Deciding

variable {t x : Tx} {l : List Tx}

/-- The end of a traversal: what was walked has only ancestors that are committing. -/
theorem ServerOK.finishWalk {w : Walk Tx} (h : ServerOK D ready p σ) (hw : WalkOK D.adj σ t w none)
    (hnil : w.toWalk = []) : ServerOK D ready p (σ.finishWalk w) := by
  have hhint : ∀ x, (σ.finishWalk w).allAncCmtHint x = true ↔
      σ.allAncCmtHint x = true ∨ x ∈ w.walked := by
    simp [RccServer.finishWalk]
  have hlooked : ∀ x ∈ w.walked, ¬σ.Done x → ∀ y ∈ D.adj x, σ.Covered y ∨ y ∈ w.walked := by
    intro x hx hxd y hy
    rcases hw.looked x hx with hxw | hcur | hl
    · rw [hnil] at hxw
      cases hxw
    · cases hcur
    · rcases hl.resolve_left hxd y hy with hy | hy | hy
      · exact Or.inl hy
      · exact Or.inr hy
      · rw [hnil] at hy
        cases hy
  have hknown : Known D ready p (σ.finishWalk w) := {h.known with}
  have hcomps : Components D ready (σ.finishWalk w) := by
    refine {h.comps with
      hinted := fun x hx => ?_
      covered := fun x hx hxd y hy => ?_
      alone := fun x hx => (h.comps.alone x hx).imp_left fun hx => (hhint x).mpr (Or.inl hx)
      finished := fun x hx => (hhint x).mpr (Or.inl (h.comps.finished x hx))}
    · rcases (hhint x).mp hx with hx | hx
      · exact h.comps.hinted x hx
      · exact (hw.known x (Or.inl hx)).1
    · have hcov : σ.Covered y ∨ y ∈ w.walked := by
        rcases (hhint x).mp hx with hx | hx
        · exact Or.inl (h.comps.covered x hx hxd y hy)
        · exact hlooked x hx hxd y hy
      rcases hcov with (hy | hy) | hy
      · exact Or.inl ((hhint y).mpr (Or.inl hy))
      · exact Or.inr hy
      · exact Or.inl ((hhint y).mpr (Or.inr hy))
  exact h.update hknown hcomps ⟨fun _ hx => hx,fun x hx => (hhint x).mpr (Or.inl hx),
    fun _ hx => hx⟩ rfl rfl rfl fun _ _ _ => rfl

/-- The search runs over marked transactions only, whose parents are final. -/
theorem ServerOK.search [Fintype Tx] (h : ServerOK D ready p σ) (hd : ¬σ.Done t)
    (ht : σ.allAncCmtHint t = true) : Search.Rest D.adj (σ.search.search σ.parentIds t) ∧
      Search.Grown D.adj (fun x => σ.allAncCmtHint x = true) σ.search
        (σ.search.search σ.parentIds t) ∧
      (σ.search.search σ.parentIds t).done t := by
  exact h.comps.rest.search hd ht (fun x hx _ => h.known.parentIds (h.comps.hinted x hx))
    fun x hx hxd y hy => h.comps.covered x hx hxd y hy

theorem ServerOK.findSccPred [Fintype Tx] {t : Tx} (h : ServerOK D ready p σ)
    (ht : σ.allAncCmtHint t = true) :
    ServerOK D ready p (σ.findSccPred t) ∧ (σ.findSccPred t).Done t := by
  unfold RccServer.findSccPred
  split_ifs with hd
  · exact ⟨h,hd⟩
  obtain ⟨hrest,hgrown,hdone⟩ := h.search hd ht
  set τ := σ.search.search σ.parentIds t
  have hfound : Search.Found D.adj (fun x => σ.allAncCmtHint x = true ∧ ¬σ.Done x) σ.search
      (σ.withSearch τ).search := by
    refine ⟨hgrown.old,?_,hgrown.rest⟩
    intro x hx hxd
    obtain ⟨hA,hcomp⟩ := hgrown.new x hx hxd
    exact ⟨⟨hA,hxd⟩,hcomp⟩
  have hrest' : Search.Rest D.adj (σ.withSearch τ).search :=
    ⟨⟨hrest.cells.closed,hrest.cells.separate⟩,hrest.stack,hrest.visited,hrest.off⟩
  have hmono : ∀ x, σ.Done x → (σ.withSearch τ).Done x := fun x hx => hfound.done_mono hx
  have hknown : Known D ready p (σ.withSearch τ) := {h.known with}
  have hcomps : Components D ready (σ.withSearch τ) := by
    refine h.comps.found hfound hrest' ?_ (fun _ hx => hx) (fun _ hx => hx) (fun _ hx => Or.inl hx)
      rfl (fun x hx => hmono x (h.comps.decided x hx)) h.comps.together
    rintro x ⟨hx,hxd⟩
    refine ⟨h.comps.hinted x hx,?_,Or.inl hx⟩
    intro y hy
    rcases h.comps.covered x hx hxd y hy with hy | hy
    · exact h.known.ready y (h.comps.hinted y hy)
    · exact h.known.ready y (h.comps.committing y hy)
  refine ⟨h.update hknown hcomps ⟨fun _ hx => hx,fun _ hx => hx,hmono⟩ rfl rfl rfl ?_,hdone⟩
  intro _ y _
  by_contra hne
  obtain ⟨v,hv,hr⟩ := hgrown.fill (.inquired y) hne
  rw [show σ.search.cell v = .own v from h.comps.own v hv] at hr
  cases hr

theorem isCommitting_decideScc (hx : σ.IsCommitting x) :
    (RccServer.decideScc l σ).IsCommitting x := by
  induction l generalizing σ with
  | nil => exact hx
  | cons v vs ih =>
    unfold decideScc
    split_ifs
    · exact hx
    · exact ih ((σ.isCommitting_setStatus v .decided x).mpr (Or.inl hx))

theorem isCommitting_of_decideScc (hx : (RccServer.decideScc l σ).IsCommitting x) :
    σ.IsCommitting x ∨ x ∈ l := by
  induction l generalizing σ with
  | nil => exact Or.inl hx
  | cons v vs ih =>
    unfold decideScc at hx
    split_ifs at hx
    · exact Or.inl hx
    · rcases ih hx with hx | hx
      · rcases (σ.isCommitting_setStatus v .decided x).mp hx with hx | ⟨rfl,_⟩
        · exact Or.inl hx
        · exact Or.inr mem_cons_self
      · exact Or.inr (mem_cons_of_mem _ hx)

theorem isDecided_decideScc (hnodup : l.Nodup)
    (hall : (∀ x ∈ l, σ.IsDecided x) ∨ ∀ x ∈ l, ¬σ.IsDecided x) (x : Tx) :
    (RccServer.decideScc l σ).IsDecided x ↔ σ.IsDecided x ∨ x ∈ l := by
  induction l generalizing σ with
  | nil => simp [decideScc]
  | cons v vs ih =>
    unfold decideScc
    split_ifs with hv
    · have hdec : ∀ y ∈ v::vs, σ.IsDecided y :=
        hall.resolve_right fun hnone => hnone v mem_cons_self hv
      exact ⟨Or.inl,fun hx => hx.elim id (hdec x)⟩
    · have hnone : ∀ y ∈ v::vs, ¬σ.IsDecided y :=
        hall.resolve_left fun hdec => hv (hdec v mem_cons_self)
      obtain ⟨hvs,hnodup⟩ := nodup_cons.mp hnodup
      rw [ih hnodup (Or.inr ?_),σ.isDecided_setStatus,mem_cons]
      · tauto
      · intro y hy hyd
        rcases (σ.isDecided_setStatus v .decided y).mp hyd with hyd | ⟨rfl,_⟩
        · exact hnone y (mem_cons_of_mem _ hy) hyd
        · exact hvs hy

theorem Components.decided_or_not (h : Components D ready σ) (ht : σ.Done t) :
    (∀ x ∈ σ.sccOf t, σ.IsDecided x) ∨ ∀ x ∈ σ.sccOf t, ¬σ.IsDecided x := by
  have hmem := (h.component t ht).mem
  by_cases hd : σ.IsDecided t
  · exact Or.inl fun x hx => h.together t x hd ((hmem x).mp hx)
  · exact Or.inr fun x hx hxd => hd (h.together x t hxd ((hmem x).mp hx).symm)

theorem Components.nodup (h : Components D ready σ) (ht : σ.Done t) :
    (σ.sccOf t).Nodup := (h.component t ht).sorted.imp ne_of_lt

theorem Components.isDecided_decideScc (h : Components D ready σ) (ht : σ.Done t) (x : Tx) :
    (RccServer.decideScc (σ.sccOf t) σ).IsDecided x ↔ σ.IsDecided x ∨ Mutual D.adj t x := by
  rw [Rcc.isDecided_decideScc (h.nodup ht) (h.decided_or_not ht),(h.component t ht).mem]

theorem ServerOK.decideScc (h : ServerOK D ready p σ) (ht : σ.Done t) :
    ServerOK D ready p (RccServer.decideScc (σ.sccOf t) σ) := by
  have hdec := h.comps.isDecided_decideScc ht
  have hmem := (h.comps.component t ht).mem
  have hback : ∀ x, (RccServer.decideScc (σ.sccOf t) σ).IsCommitting x → σ.IsCommitting x := by
    intro x hx
    rcases isCommitting_of_decideScc hx with hx | hx
    · exact hx
    · exact h.comps.committing x (h.comps.rest.cells.closed t x ht ((hmem x).mp hx))
  have hcmt : ∀ x, σ.IsCommitting x → (RccServer.decideScc (σ.sccOf t) σ).IsCommitting x :=
    fun x hx => isCommitting_decideScc hx
  rw [decideScc_eq] at hdec hback hcmt ⊢
  have hknown : Known D ready p {σ with status := (RccServer.decideScc (σ.sccOf t) σ).status} :=
    {h.known with
     final := fun x hx => h.known.final x (hback x hx)
     ready := fun x hx => h.known.ready x (hback x hx)
     received := fun x hx => (h.known.received x hx).imp_left (hcmt x)}
  refine h.update hknown (h.comps.withStatus σ.parents _ hcmt ?_ ?_)
    ⟨hcmt,fun _ hx => hx,fun _ hx => hx⟩ rfl rfl rfl fun _ _ _ => rfl
  · intro x hx
    rcases (hdec x).mp hx with hx | hx
    · exact h.comps.decided x hx
    · exact h.comps.rest.cells.closed t x ht hx
  · intro x w hx hxw
    rw [hdec] at hx ⊢
    exact hx.imp (fun hx => h.comps.together x w hx hxw) fun hx => hx.trans hxw

theorem ServerOK.resolve [Fintype Tx] (h : ServerOK D ready p σ) (ht : σ.allAncCmtHint t = true)
    (hs : σ.resolve t = some σ') : ServerOK D ready p σ' := by
  obtain ⟨hfind,hdone⟩ := h.findSccPred ht
  unfold RccServer.resolve at hs
  simp only [if_neg hdone,some.injEq] at hs
  subst hs
  exact (hfind.decideScc hdone).goto trivial rfl

theorem ServerOK.finish {v : Tx} (h : ServerOK D ready p σ) (hv : σ.allAncCmtHint v = true) :
    ServerOK D ready p {σ with logApplyFinished := Function.update σ.logApplyFinished v true} := by
  refine h.update {h.known with} {h.comps with finished := fun x hx => ?_}
    ⟨fun _ hx => hx,fun _ hx => hx,fun _ hx => hx⟩ rfl rfl rfl fun _ _ _ => rfl
  simp only [update_apply] at hx
  split_ifs at hx with hxv
  · rw [hxv]
    exact hv
  · exact h.comps.finished x hx

end Deciding

section Steps

variable {t self parent : Tx} {reply : InquireReply Par Tx}

section

variable (h : ServerOK D ready p σ)
include h

theorem ServerOK.preAccepted : ServerOK D ready p (σ.setStatus t .preAccepted) := by
  have hcmt : ∀ x, (σ.setStatus t .preAccepted).IsCommitting x ↔ σ.IsCommitting x := by
    intro x
    rw [σ.isCommitting_setStatus]
    simp [value]
  have hdec : ∀ x, (σ.setStatus t .preAccepted).IsDecided x ↔ σ.IsDecided x := by
    intro x
    rw [σ.isDecided_setStatus]
    simp
  have hknown : Known D ready p (σ.setStatus t .preAccepted) :=
    {h.known with
     final := fun x hx => h.known.final x ((hcmt x).mp hx)
     ready := fun x hx => h.known.ready x ((hcmt x).mp hx)
     received := fun x hx => (h.known.received x hx).imp_left (hcmt x).mpr}
  refine h.update hknown (h.comps.withStatus σ.parents _ (fun x => (hcmt x).mpr)
    (fun x hx => h.comps.decided x ((hdec x).mp hx)) ?_)
    ⟨fun x => (hcmt x).mpr,fun _ hx => hx,fun _ hx => hx⟩ rfl rfl rfl fun _ _ _ => rfl
  intro x w hx hxw
  exact (hdec w).mpr (h.comps.together x w ((hdec x).mp hx) hxw)

theorem ServerOK.dispatch {parents : Tx → ParentSet Par Tx}
    (hp : p ∈ D.partitions t) (hparents : ∀ x, σ.IsCommitting x → parents x = σ.parents x) :
    ServerOK D ready p {σ with
      involveFlag := Function.update σ.involveFlag t .involved
      parents := parents
      fullyDispatched := Function.update σ.fullyDispatched t true} := by
  refine h.update ?_ (h.comps.frame _ _ _ _ _) ⟨fun _ hx => hx,fun _ hx => hx,fun _ hx => hx⟩
    rfl rfl rfl fun _ _ _ => rfl
  refine {h.known with
    final := fun x hx => (hparents x hx).trans (h.known.final x hx)
    dispatched := fun x hx => ?_
    involved := fun x hx => ?_
    foreign := fun x hx => ?_}
  all_goals simp only [update_apply] at hx ⊢
  · split_ifs at hx ⊢
    · rfl
    · exact h.known.dispatched x hx
  · split_ifs at hx with hxt
    · rw [hxt]
      exact hp
    · exact h.known.involved x hx
  · split_ifs at hx
    exact h.known.foreign x hx

theorem ServerOK.receive (hp : p ∈ D.partitions t) (ht : σ.IsCommitting t) :
    ServerOK D ready p {σ with commitReceived := Function.update σ.commitReceived t true} := by
  refine h.update ?_ (h.comps.frame _ _ _ _ _) ⟨fun _ hx => hx,fun _ hx => hx,fun _ hx => hx⟩
    rfl rfl rfl fun _ _ _ => rfl
  refine {h.known with received := fun x hx => ?_}
  simp only [update_apply] at hx
  split_ifs at hx with hxt
  · rw [hxt]
    exact ⟨ht,hp⟩
  · exact h.known.received x hx

theorem ServerOK.replyOK (hreply : σ.inquiry parent = .replied reply) :
    ReplyOK D ready parent reply := by
  have hask := h.asked parent
  rwa [hreply] at hask

theorem ServerOK.inquired {w : Walk Tx} {vs : List Tx}
    (hk : σ.coroutine t = .inquire w self parent vs) (hreply : ReplyOK D ready parent reply)
    (hfresh : ∀ e, reply = .decided [e] → ¬σ.Done parent) :
    ServerOK D ready p ((σ.inquired parent reply).goto t (.waitCommitting w self parent vs)) := by
  have hw := h.walking t
  rw [hk] at hw
  have hmine : (σ.coroutine t).asking = some parent := by rw [hk]; rfl
  obtain ⟨hasked,hnil⟩ := h.asking t parent hmine
  have hnone : ∀ x, ((σ.goto t (.waitCommitting w self parent vs)).coroutine x).asking ≠
      some parent := by
    intro x hx
    simp only [RccServer.goto,update_apply] at hx
    split_ifs at hx with hxt
    · cases hx
    · exact hxt (h.once x t parent hx hmine)
  have hmoved : ServerOK D ready p (σ.goto t (.waitCommitting w self parent vs)) := h.goto hw rfl
  rw [← inquired_goto]
  cases reply with
  | committing parents => exact hmoved.learn hreply.1 hreply.2
  | decided scc =>
    refine hmoved.taken hreply (hmoved.comps.taken hreply ?_ hnil) hnone hasked
    rintro e rfl
    exact hfresh e rfl

theorem ServerOK.waitPredecessors [Fintype Tx] (ht : σ.IsCommitting t)
    (hs : σ.waitPredecessors t = some σ') : ServerOK D ready p σ' := by
  unfold RccServer.waitPredecessors at hs
  split_ifs at hs with hhint hwait
  · exact h.resolve hhint hs
  · cases hs
    exact h.goto ht rfl
  · cases hs
    exact h.goto (WalkOK.start ht) rfl

theorem ServerOK.executeScc {r : SccRef Tx}
    (hs : σ.executeScc t r = some σ') : ServerOK D ready p σ' := by
  unfold RccServer.executeScc at hs
  split at hs
  · split_ifs at hs
    · cases hs
      exact h.goto trivial rfl
    · cases hs
      exact (h.frame _ _ _ _ _ _).goto trivial rfl
  · cases hs

end

variable [LinearOrder Par]

section

variable (h : ServerOK D ready p σ)
include h

theorem ServerOK.onPreAccept {deps : ParentSet Par Tx}
    (hp : p ∈ D.partitions t) (hs : σ.onPreAccept p t deps = some σ') : ServerOK D ready p σ' := by
  have hpre : ServerOK D ready p ((σ.insertPartition t {p}).setStatus t .preAccepted) :=
    (h.insertPartition (Finset.singleton_subset_iff.mpr hp)).preAccepted
  unfold RccServer.onPreAccept at hs
  split_ifs at hs with hd
  simp only [some.injEq] at hs
  subst hs
  split_ifs with hc
  · exact hpre.dispatch hp fun _ _ => rfl
  · refine hpre.dispatch hp fun x hx => ?_
    apply update_of_ne
    rintro rfl
    exact hc hx

theorem ServerOK.onInquire (hhere : Here D ready p σ)
    (hp : p ∈ D.partitions t) (hs : σ.onInquire p t = some σ') : ServerOK D ready p σ' := by
  unfold RccServer.onInquire at hs
  simp only [ite_none_right_eq_some,some.injEq] at hs
  rw [← hs.2]
  exact (h.insertPartition (Finset.singleton_subset_iff.mpr hp)).cacheInvolve hhere

theorem ServerOK.fillPartition (hself : σ.IsCommitting self) :
    ServerOK D ready p (σ.fillPartition self parent) := by
  unfold RccServer.fillPartition
  split
  · cases hf : (σ.parents self).find? fun e => e.1 = parent with
    | none => exact h
    | some e =>
      have hmem : e ∈ D.parents self := by
        rw [← h.known.final self hself]
        exact mem_of_find?_eq_some hf
      have he : e.1 = parent := by simpa using find?_some hf
      exact h.insertPartition (he ▸ D.edge_subset self e hmem)
  · exact h

theorem ServerOK.looking {τ : RccServer Site Par Tx} (hhere : Here D ready p σ)
    (hself : σ.IsCommitting self) (hτ : Looking p σ self parent τ) : ServerOK D ready p τ := by
  have hmark : ServerOK D ready p (σ.markWaiting self) := h.frame _ _ _ _ _ _
  cases hτ with
  | marked => exact hmark.cacheInvolve hhere
  | filled =>
    refine (hmark.cacheInvolve hhere).fillPartition ?_
    exact ((quiet_markWaiting σ self).trans (quiet_cacheInvolve _ p parent)).ext.committing self hself

theorem ServerOK.receiveCommit (hhere : Here D ready p σ)
    (hp : p ∈ D.partitions t) (hready : ready t) :
    ServerOK D ready p (σ.receiveCommit p t (D.parents t)) ∧
      (σ.receiveCommit p t (D.parents t)).IsCommitting t := by
  have hlearn := ((h.insertPartition (Finset.singleton_subset_iff.mpr hp)).cacheInvolve
    (t:=t) hhere).learn rfl hready
  have ht : (σ.receiveCommit p t (D.parents t)).IsCommitting t :=
    (isCommitting_setStatus _ t .committing t).mpr (Or.inr ⟨rfl,le_rfl⟩)
  exact ⟨hlearn.receive hp ht,ht⟩

end

variable [Fintype Tx]

theorem ServerOK.onCommit (h : ServerOK D ready p σ) (hhere : Here D ready p σ)
    (hp : p ∈ D.partitions t) (hready : ready t) (hs : σ.onCommit p t (D.parents t) = some σ') :
    ServerOK D ready p σ' := by
  obtain ⟨hrecv,ht⟩ := h.receiveCommit hhere hp hready
  unfold RccServer.onCommit at hs
  split_ifs at hs
  exact hrecv.waitPredecessors ht hs

theorem ServerOK.resume (h : ServerOK D ready p σ) (hhere : Here D ready p σ)
    (hok : σ.freshReply t = true) (hs : σ.resume p t = some σ') : ServerOK D ready p σ' := by
  have hw := h.walking t
  cases resumed_of_resume hs with
  | rewalk hk =>
    rw [hk] at hw
    exact h.goto (WalkOK.start hw) rfl
  | @resolve w _ hk hnil hs =>
    rw [hk] at hw
    refine (h.finishWalk hw hnil).resolve ?_ hs
    simp [RccServer.finishWalk,hw.root]
  | @pop w v vs hk hcons =>
    rw [hk] at hw
    have hv : σ.IsCommitting v := (hw.known v (Or.inr (by simp [hcons]))).1
    rw [h.known.parentIds hv]
    exact h.goto (hw.pop hcons) rfl
  | close hk =>
    rw [hk] at hw
    exact h.goto (VisitOK.close hw) rfl
  | @skip w self parent vs hk hskip =>
    rw [hk] at hw
    have hcov : σ.Done self ∨ σ.Covered parent := by
      rcases hskip with hself | hparent | hdec
      · by_cases hd : σ.Done self
        · exact Or.inl hd
        · exact Or.inr (h.comps.covered self hself hd parent (hw.subset parent mem_cons_self))
      · exact Or.inr (Or.inl hparent)
      · exact Or.inr (Or.inr (h.comps.decided parent hdec))
    have hmark : ServerOK D ready p (σ.markWaiting self) := h.frame _ _ _ _ _ _
    exact hmark.goto ((VisitOK.skip hw hcov).mono (quiet_markWaiting σ self).ext) rfl
  | @waitApplied w self parent vs τ hk hτ hi hlt | @waitCommitting w self parent vs τ hk hτ hc =>
    rw [hk] at hw
    exact (h.looking hhere hw.committing hτ).goto (VisitOK.mono hτ.quiet.ext hw) rfl
  | @push w self parent vs τ hk hτ hc =>
    rw [hk] at hw
    exact (h.looking hhere hw.committing hτ).goto ((VisitOK.mono hτ.quiet.ext hw).push hc) rfl
  | @ask w self parent vs τ par hk hτ hasked hpar =>
    rw [hk] at hw
    have hlook := h.looking hhere hw.committing hτ
    exact hlook.ask (VisitOK.mono hτ.quiet.ext hw) hasked (hlook.known.partition parent hpar)
  | @applied w self parent vs hk hfin =>
    rw [hk] at hw
    exact h.goto (VisitOK.skip hw (Or.inr (Or.inl (h.comps.finished parent hfin)))) rfl
  | @covered w self parent vs reply hk hreply hhint =>
    have htaken := h.inquired hk (h.replyOK hreply) (freshReply_single hok hk hreply)
    have hvisit := htaken.walking t
    rw [show ((σ.inquired parent reply).goto t (.waitCommitting w self parent vs)).coroutine t =
      .waitCommitting w self parent vs from update_self ..] at hvisit
    rw [← goto_goto _ t (.waitCommitting w self parent vs)]
    exact htaken.goto (VisitOK.skip hvisit (Or.inr (Or.inl hhint))) rfl
  | inquired hk hreply =>
    exact h.inquired hk (h.replyOK hreply) (freshReply_single hok hk hreply)
  | committed hk hc =>
    rw [hk] at hw
    exact h.goto (VisitOK.push hw hc) rfl
  | lastMember hk hnone hs => exact (h.frame _ _ _ _ _ _).executeScc hs
  | markedScc hk hv hmark hs => exact h.executeScc hs
  | lastParent hk hv hnone =>
    exact ServerOK.goto (h.frame _ _ _ _ _ _) (k:=.checkMember _ _) trivial rfl
  | waitParent | nextParent => exact (h.cacheInvolve hhere).goto trivial rfl
  | @start r v vs hk hhint hi =>
    have hstart : ServerOK D ready p (σ.start v) := h.frame _ _ _ _ _ _
    exact (hstart.cacheInvolve hhere).goto ((quiet_cacheInvolve _ p v).ext.hint v hhint) rfl
  | @pass r v vs hk hhint hi =>
    have hstart : ServerOK D ready p (σ.start v) := h.frame _ _ _ _ _ _
    exact ((hstart.cacheInvolve hhere).finish ((quiet_cacheInvolve _ p v).ext.hint v hhint)).goto
      (k:=.execute r vs) trivial rfl
  | @execute r v vs hk hrecv =>
    rw [hk] at hw
    have happly : ServerOK D ready p {σ with executed := σ.executed++[v]} := h.frame _ _ _ _ _ _
    exact (happly.finish hw).goto (k:=.execute r vs) trivial rfl
  | markedMember | nextMember | parentApplied | ended | executed => exact h.goto trivial rfl

end Steps

section Cluster

variable {t : Tx} {i : Inquiry Site Par Tx} {s : Site}

theorem ServerOK.setInquiry (h : ServerOK D ready p σ) (hi : InquiryOK D ready t i) :
    ServerOK D ready p {σ with inquiry := Function.update σ.inquiry t i} := by
  have hext : Ext σ {σ with inquiry := Function.update σ.inquiry t i} :=
    ⟨fun _ ht => ht,fun _ ht => ht,fun _ ht => ht⟩
  refine {h with
    known := {h.known with}
    comps := {h.comps with}
    walking := fun x => (h.walking x).mono hext
    asked := fun x => ?_}
  simp only [update_apply]
  split_ifs with hx
  · rw [hx]
    exact hi
  · exact h.asked x

theorem ServerOK.inquireReply {reply : InquireReply Par Tx} (h : ServerOK D ready p σ)
    (hc : σ.IsCommitting t) (hr : σ.inquireReply t = some reply) : ReplyOK D ready t reply := by
  unfold RccServer.inquireReply at hr
  split_ifs at hr with hd hnil
  · cases hr
    have hdone := h.comps.decided t hd
    have hcomp := h.comps.component t hdone
    have hsort : (σ.sccOf t).dedup.insertionSort (· ≤ ·) = σ.sccOf t := by
      rw [(h.comps.nodup hdone).dedup]
      exact (hcomp.sorted.imp le_of_lt).insertionSort_eq
    have hall : ∀ v ∈ σ.sccOf t, σ.Done v := fun v hv =>
      h.comps.rest.cells.closed t v hdone ((hcomp.mem v).mp hv)
    rw [hsort]
    refine ⟨by simpa [List.map_map,comp_def] using hcomp,?_⟩
    intro e he
    obtain ⟨v,hv,rfl⟩ := mem_map.mp he
    have hvc := h.comps.committing v (hall v hv)
    exact ⟨h.known.final v hvc,h.known.ready v hvc,h.comps.parents v (hall v hv)⟩
  · cases hr
    exact ⟨h.known.final t hc,h.known.ready t hc⟩

def Inv (D : Deployment Site Par Tx) (c : Cluster Site Par Tx) : Prop :=
  ∀ s, ServerOK D (Ready D c) (D.partitionId s) (c s)

section Dispatched

variable [LinearOrder Par]
variable {t : Tx}

theorem onPreAccept_fullyDispatched {x : Tx} {deps : ParentSet Par Tx}
    (hs : σ.onPreAccept p t deps = some σ') (hx : σ.fullyDispatched x = true) :
    σ'.fullyDispatched x = true := by
  unfold onPreAccept at hs
  split_ifs at hs
  simp only [some.injEq] at hs
  subst hs
  split_ifs <;> simp only [update_apply] <;> split_ifs <;> first | rfl | exact hx

theorem onInquire_fullyDispatched (hs : σ.onInquire p t = some σ') :
    σ'.fullyDispatched = σ.fullyDispatched := by
  unfold onInquire at hs
  simp only [ite_none_right_eq_some,some.injEq] at hs
  rw [← hs.2,((quiet_cacheInvolve _ _ t).kept t).dispatched]
  rfl

theorem onCommit_fullyDispatched [Fintype Tx] {parents : ParentSet Par Tx}
    (hs : σ.onCommit p t parents = some σ') : σ'.fullyDispatched = σ.fullyDispatched := by
  have hrecv : (σ.receiveCommit p t parents).fullyDispatched = σ.fullyDispatched := by
    exact ((quiet_cacheInvolve _ p t).kept t).dispatched
  unfold onCommit waitPredecessors at hs
  split_ifs at hs
  · rw [(Kept.resolve hs).dispatched,hrecv]
  all_goals
    cases hs
    exact hrecv

end Dispatched

omit [LinearOrder Tx] in
theorem not_isCommitting_init (t : Tx) :
    ¬(RccServer.init : RccServer Site Par Tx).IsCommitting t := by
  simp [RccServer.IsCommitting,RccServer.init,value]

theorem Inv.init : Inv D fun _ => RccServer.init := by
  intro s
  have hcmt : ∀ t, ¬(RccServer.init : RccServer Site Par Tx).IsCommitting t := not_isCommitting_init
  have hdec : ∀ t, ¬(RccServer.init : RccServer Site Par Tx).IsDecided t :=
    fun t ht => hcmt t (RccServer.isCommitting_of_isDecided _ ht)
  have hdone : ∀ t, ¬(RccServer.init : RccServer Site Par Tx).Done t := fun _ ht => ht rfl
  have hrest : Search.Rest D.adj (RccServer.init : RccServer Site Par Tx).search := by
    refine ⟨⟨fun v _ hv => absurd hv (hdone v),?_⟩,rfl,?_,fun _ => rfl⟩
    · intro v w _ hcell
      exact SccRef.own.inj hcell
    · intro v hv
      cases hv
  constructor
  case known =>
    exact ⟨fun t ht => absurd ht (hcmt t),fun t ht => absurd ht (hcmt t),
      fun _ => Finset.empty_subset _,nofun,nofun,nofun,nofun⟩
  case comps =>
    exact ⟨hrest,fun t ht => absurd ht (hdone t),fun t _ ht => absurd ht (hdone t),fun _ _ => rfl,
      fun t ht => absurd ht (hdone t),fun t ht => absurd ht (hdone t),
      fun t ht => absurd ht (hdec t),fun t _ ht => absurd ht (hdec t),nofun,nofun,
      fun t ht => absurd ht (hdone t),nofun⟩
  case walking => exact fun _ => trivial
  case asked => exact fun _ => trivial
  case asking => nofun
  case once => nofun
  case unasked => exact fun _ _ => rfl

variable [DecidableEq Site] {c c' : Cluster Site Par Tx}

theorem Inv.update (h : Inv D c) (hσ : ServerOK D (Ready D c) (D.partitionId s) σ)
    (hkeep : ∀ x, (c s).fullyDispatched x = true → σ.fullyDispatched x = true) :
    Inv D (Function.update c s σ) := by
  intro s'
  have hle : ∀ t, Ready D c t → Ready D (Function.update c s σ) t := fun t ht => ready_update hkeep ht
  by_cases he : s' = s
  · subst he
    rw [update_self]
    exact hσ.mono hle
  · rw [update_of_ne he]
    exact (h s').mono hle

theorem Inv.setInquiry (h : Inv D c) (hi : InquiryOK D (Ready D c) t i) :
    Inv D (setInquiry c s t i) :=
  h.update ((h s).setInquiry hi) fun _ hx => hx

variable [Fintype Site] [LinearOrder Par] [Fintype Tx]

theorem Inv.step {a : Action Site Par Tx} (h : Inv D c) (hok : FreshReply c a)
    (hs : Rcc.step D c a = some c') : Inv D c' := by
  have hhere : ∀ s, Here D (Ready D c) (D.partitionId s) (c s) := fun s t ht => ht s
  cases stepped_of_step hs with
  | @preAccept s t deps σ hp hσ =>
    exact h.update ((h s).onPreAccept hp hσ) fun x => onPreAccept_fullyDispatched hσ
  | @commit s t σ hp hready hσ =>
    refine h.update ((h s).onCommit (hhere s) hp hready hσ) fun x hx => ?_
    rwa [onCommit_fullyDispatched hσ]
  | @deliver s t par σ hi hσ =>
    have hq : D.partitionId (D.nearest s par) ∈ D.partitions t := by
      have hasked := (h s).asked t
      rw [hi] at hasked
      rw [D.nearest_partitionId]
      exact hasked
    refine (h.update ((h _).onInquire (hhere _) hq hσ) fun x hx => ?_).setInquiry hq
    rwa [onInquire_fullyDispatched hσ]
  | @answer s q t reply hi hc hr => exact h.setInquiry ((h q).inquireReply hc hr)
  | @resume s t σ hσ =>
    refine h.update ((h s).resume (hhere s) hok hσ) fun x hx => ?_
    rwa [(resumed_of_resume hσ).kept.dispatched]

end Cluster

section Agreement

variable [DecidableEq Site] [Fintype Site] [LinearOrder Par] [Fintype Tx]

theorem inv_of_reachableBy {c : Cluster Site Par Tx} (h : ReachableBy (system D) FreshReply c) :
    Inv D c := by
  obtain ⟨_,rfl,hrun⟩ := h
  exact hrun.invariant (fun _ _ _ hok hinv hs => hinv.step hok hs) Inv.init

/-- A component vector that is not empty is the component of its transaction, so that servers that
have decided it have the same one. -/
theorem components_agree (D : Deployment Site Par Tx) {c : Cluster Site Par Tx}
    (h : ReachableBy (system D) FreshReply c) :
    (∀ s t, (c s).sccOf t ≠ [] → IsComponent D.adj t ((c s).sccOf t)) ∧
      ∀ s s' t, (c s).IsDecided t → (c s').IsDecided t →
        (c s).sccOf t ≠ [] ∧ (c s).sccOf t = (c s').sccOf t := by
  have hinv := inv_of_reachableBy h
  have hcomp : ∀ s t, (c s).sccOf t ≠ [] → IsComponent D.adj t ((c s).sccOf t) :=
    fun s t ht => (hinv s).comps.component t ht
  refine ⟨hcomp,?_⟩
  intro s s' t hs hs'
  have hdone := (hinv s).comps.decided t hs
  have hdone' := (hinv s').comps.decided t hs'
  exact ⟨hdone,(hcomp s t hdone).eq_of_mutual (hcomp s' t hdone') (Mutual.refl t)⟩

end Agreement

section Push

-- the sites, partitions and transactions of the runs are numerals
scoped instance neZero_two : NeZero 2 := ⟨by decide⟩

scoped instance neZero_three : NeZero 3 := ⟨by decide⟩

/-- Two partitions of one server each, and three transactions at both: the first is a parent of the
second, and both of the third. -/
def chain : Deployment (Fin 2) (Fin 2) (Fin 3) where
  partitionId s := s
  nearest _ p := p
  partitions _ := {0,1}
  parents t :=
    match t with
    | 0 => []
    | 1 => [(0,{1})]
    | 2 => [(0,{1}),(1,{1})]
  nearest_partitionId _ _ := rfl
  parent_ne := by decide
  edge_nonempty := by decide
  edge_subset := by decide

/-- The last transaction is committed at the first server, asks about the first one and
takes the answer that it is decided. -/
def askFirst : List (Action (Fin 2) (Fin 2) (Fin 3)) :=
  [Action.preAccept 1 0 [],.preAccept 1 1 [(0,{1})],.preAccept 1 2 [(0,{1}),(1,{1})],.preAccept 0 2 [],
    .commit 0 2,.resume 0 2,.resume 0 2,.deliverInquire 0 0,.preAccept 0 0 [],.commit 1 0] ++
  List.replicate 8 (Action.resume 1 0)++[Action.answerInquire 0 0,.resume 0 2]

/-- It asks about the second one, which is then committed at both servers and found to be a
component before the answer arrives. -/
def askSecond : List (Action (Fin 2) (Fin 2) (Fin 3)) :=
  [Action.resume 0 2,.resume 0 2,.deliverInquire 0 1,.preAccept 0 1 [],.commit 0 1] ++
  List.replicate 5 (Action.resume 0 1)++[Action.commit 1 1] ++
  List.replicate 4 (Action.resume 1 1)++[Action.answerInquire 0 1]

def chainRun (ok : Cluster (Fin 2) (Fin 2) (Fin 3) → Action (Fin 2) (Fin 2) (Fin 3) → Prop)
    [∀ c a, Decidable (ok c a)] (as : List (Action (Fin 2) (Fin 2) (Fin 3))) :
    Cluster (Fin 2) (Fin 2) (Fin 3) :=
  after (system chain) ok (fun _ => RccServer.init) as

theorem chainRun_reachableBy
    (ok : Cluster (Fin 2) (Fin 2) (Fin 3) → Action (Fin 2) (Fin 2) (Fin 3) → Prop)
    [∀ c a, Decidable (ok c a)] (as : List (Action (Fin 2) (Fin 2) (Fin 3))) :
    ReachableBy (system chain) ok (chainRun ok as) := ⟨_,rfl,run_after _ as⟩

theorem components_agree_inquired : (chainRun FreshReply askFirst 0).sccOf 0 = [0] ∧
      IsComponent chain.adj 0 ((chainRun FreshReply askFirst 0).sccOf 0) :=
  ⟨by decide +kernel,(components_agree chain (chainRun_reachableBy _ _)).1 0 0 (by decide +kernel)⟩

def pushTwice : List (Action (Fin 2) (Fin 2) (Fin 3)) := askFirst++askSecond++[Action.resume 0 2]

/-- The answer is pushed to the vector that the search has filled. -/
theorem component_listed_twice : Reachable (system chain) (chainRun (fun _ _ => True) pushTwice) ∧
      (chainRun (fun _ _ => True) pushTwice 0).sccOf 1 = [1,1] ∧
      ¬IsComponent chain.adj 1 ((chainRun (fun _ _ => True) pushTwice 0).sccOf 1) := by
  have htwice : (chainRun (fun _ _ => True) pushTwice 0).sccOf 1 = [1,1] := by decide +kernel
  refine ⟨(chainRun_reachableBy _ _).reachable,htwice,?_⟩
  intro hcomp
  have hsorted := hcomp.sorted
  rw [htwice] at hsorted
  simp at hsorted

end Push

end Janus.Rcc
