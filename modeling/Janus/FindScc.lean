import Janus.Tarjan
import Janus.Transition

/-!
# Sequences of calls of `FindSccPred`

The search of `StrongConnectPredNonRecursive`, called from one vertex after another on a fixed
graph of parents. Between two calls the list of a whole component may be put in place from
elsewhere; the search does not enter such a component.
-/

namespace Janus.Tarjan

open Search List Option
namespace Search

variable {V C : Type} {adj : V → List V} {p : V → Prop} {σ : Search V C}

def Onward (adj : V → List V) (p : V → Prop) (σ : Search V C) : Prop :=
  ∀ x, σ.done x → ¬p x → ∀ y ∈ adj x, σ.done y

theorem Onward.of_cells {τ : Search V C}
    (h : Onward adj p σ) (hcell : τ.cell = σ.cell) (hcontent : τ.content = σ.content) :
    Onward adj p τ := by
  unfold Onward done at *
  rwa [hcell,hcontent]

variable [LinearOrder V] [DecidableEq C]

/-- The end of an iteration. A root has an empty list, and its component is popped off a
stack that it is on. -/
def checkedFinish (σ : Search V C) (v : V) : Option (Search V C) :=
  if σ.index v = some (σ.low v) ∧ ¬(σ.content (σ.cell v) = [] ∧ v ∈ σ.stack) then none
  else some (σ.finish v)

def checkedProceed (v : V) : Search V C × Option (V × ℕ) → Option (Search V C)
  | (σ,some (w,k)) => some {σ with frames := (w,0)::(v,k)::σ.frames}
  | (σ,none) => σ.checkedFinish v

def checkedStep (adj : V → List V) (σ : Search V C) : Option (Search V C) :=
  match σ.frames with
  | [] => some σ
  | (v,i)::fs =>
    if i = 0 ∧ σ.index v ≠ none then none
    else
      let σ := {σ with frames := fs}
      let σ := if i = 0 then σ.visit v else σ
      checkedProceed v (scan v σ i ((adj v).drop i))

def strongConnectPred (adj : V → List V) : ℕ → Search V C → Option (Search V C)
  | 0, σ => if σ.frames = [] then some σ else none
  | n+1, σ => if σ.frames = [] then some σ
    else (σ.checkedStep adj).bind (strongConnectPred adj n)

def findSccPred [Fintype V] (adj : V → List V) (σ : Search V C) (v : V) :
    Option (Search V C × List V) :=
  if σ.done v then some (σ,σ.content (σ.cell v))
  else if σ.frames ≠ [] then none
  else (strongConnectPred adj (2*Fintype.card V) {σ with frames := [(v,0)]}).map fun τ =>
    (τ,τ.content (τ.cell v))

section Iteration

variable {adj : V → List V} {A p : V → Prop} {σ : Search V C} {v : V} {above : List V} {i : ℕ}
  {bs : List (Block V)}

def proceed (v : V) : Search V C × Option (V × ℕ) → Search V C
  | (σ,some (w,k)) => {σ with frames := (w,0)::(v,k)::σ.frames}
  | (σ,none) => σ.finish v

theorem Inv.checkedFinish_eq (h : Inv adj σ (⟨above,v,i⟩::bs)) :
    σ.checkedFinish v = some (σ.finish v) := by
  have hv : v ∈ σ.stack := h.vertex_mem (mem_cons_self ..)
  have hempty : σ.content (σ.cell v) = [] := not_not.mp (h.not_done hv)
  unfold checkedFinish
  rw [if_neg]
  rintro ⟨-,hbad⟩
  exact hbad ⟨hempty,hv⟩

theorem Inv.checkedProceed_eq (h : Inv adj σ (⟨above,v,i⟩::bs)) :
    checkedProceed v (Search.scan v σ i ((adj v).drop i)) =
      some (proceed v (Search.scan v σ i ((adj v).drop i))) := by
  rcases hscan : Search.scan v σ i ((adj v).drop i) with ⟨τ,found⟩
  rcases h.scan rfl with ⟨hnone,hinv⟩ | ⟨w,j,hsome,-,-,-,-⟩
  · rw [hscan] at hnone hinv
    obtain rfl : found = none := hnone
    exact hinv.checkedFinish_eq
  · rw [hscan] at hsome
    obtain rfl : found = some (w,j+1) := hsome
    rfl

/-- A component is closed when all its successors are settled, so that they are done or
belong to it. -/
theorem Inv.close_onward (h : Inv adj σ (⟨above,v,(adj v).length⟩::bs))
    (hroot : σ.low v = σ.num v) (ho : Onward adj p σ) : Onward adj p (σ.close v) := by
  have hb := h.block ⟨above,v,(adj v).length⟩ (mem_cons_self ..)
  intro x hx hpx y hy
  rw [h.close_done] at hx ⊢
  rcases hx with hx | hx
  · have hset : σ.Settled v y := by
      rcases mem_append.mp hx with hx | hx
      · exact hb.above x hx y hy
      · rw [mem_singleton.mp hx] at hy
        exact hb.seen y (by rwa [take_length])
    rcases hset with hdone | ⟨hmem,hle⟩
    · exact Or.inr hdone
    · exact Or.inl ((h.mem_top_iff hmem).mpr (hroot ▸ hle))
  · exact Or.inr (ho x hx hpx y hy)

theorem Inv.finish_onward (h : Inv adj σ (⟨above,v,(adj v).length⟩::bs))
    (ho : Onward adj p σ) : Onward adj p (σ.finish v) := by
  have hv : v ∈ σ.stack := h.vertex_mem (mem_cons_self ..)
  have hclosed : Onward adj p (if σ.index v = some (σ.low v) then σ.close v else σ) := by
    split_ifs with hroot
    · rw [h.index_eq hv,some.injEq] at hroot
      exact h.close_onward hroot.symm ho
    · exact ho
  unfold Search.finish
  dsimp only
  split
  · exact hclosed
  · exact hclosed.of_cells rfl rfl

theorem Inv.proceed_onward (h : Inv adj σ (⟨above,v,i⟩::bs)) (ho : Onward adj p σ) :
    Onward adj p (proceed v (Search.scan v σ i ((adj v).drop i))) := by
  have hsame := scan_same v σ i ((adj v).drop i)
  have ho' := ho.of_cells hsame.cell hsame.content
  rcases hscan : Search.scan v σ i ((adj v).drop i) with ⟨τ,found⟩
  rw [hscan] at ho'
  rcases h.scan rfl with ⟨hnone,hinv⟩ | ⟨w,j,hsome,-,-,-,-⟩
  · rw [hscan] at hnone hinv
    obtain rfl : found = none := hnone
    exact hinv.finish_onward ho'
  · rw [hscan] at hsome
    obtain rfl : found = some (w,j+1) := hsome
    exact ho'.of_cells rfl rfl

/-- An iteration scans on from an open frame, and its checks hold there. -/
theorem LoopInv.iteration (h : LoopInv adj A σ) (hne : σ.frames ≠ []) :
    ∃ τ v above i bs, Inv adj τ (⟨above,v,i⟩::bs) ∧ τ.cell = σ.cell ∧ τ.content = σ.content ∧
      σ.step adj = proceed v (Search.scan v τ i ((adj v).drop i)) ∧
      σ.checkedStep adj = checkedProceed v (Search.scan v τ i ((adj v).drop i)) := by
  obtain ⟨above,v,i,bs,τ,hf,hτ,hinv,-,-,hidx⟩ := h.top hne
  refine ⟨{τ with frames := bs.map Block.frame},v,above,i,bs,hinv.withFrames _,?_,?_,?_,?_⟩
  · rw [← hτ]
    split_ifs <;> rfl
  · rw [← hτ]
    split_ifs <;> rfl
  · unfold Search.step
    rw [hf,← hτ]
    dsimp only
    split_ifs <;> rfl
  · unfold checkedStep
    rw [hf,← hτ]
    dsimp only
    rw [if_neg fun hc => hc.2 (hidx hc.1)]
    split_ifs <;> rfl

theorem LoopInv.checkedStep_eq (h : LoopInv adj A σ) (hne : σ.frames ≠ []) :
    σ.checkedStep adj = some (σ.step adj) := by
  obtain ⟨τ,v,above,i,bs,hinv,-,-,hstep,hcheck⟩ := h.iteration hne
  rw [hcheck,hstep,hinv.checkedProceed_eq]

theorem LoopInv.step_onward (h : LoopInv adj A σ) (hne : σ.frames ≠ [])
    (ho : Onward adj p σ) : Onward adj p (σ.step adj) := by
  obtain ⟨τ,v,above,i,bs,hinv,hcell,hcontent,hstep,-⟩ := h.iteration hne
  rw [hstep]
  exact hinv.proceed_onward (ho.of_cells hcell hcontent)

theorem LoopInv.strongConnectPred_eq [Fintype V] (n : ℕ) (h : LoopInv adj (fun _ => True) σ)
    (hn : σ.potential ≤ n) (ho : Onward adj p σ) :
    σ.strongConnectPred adj n = some (σ.run adj n) ∧ Onward adj p (σ.run adj n) := by
  induction n generalizing σ with
  | zero =>
    have hnil : σ.frames = [] := by
      unfold potential at hn
      exact length_eq_zero_iff.mp (by omega)
    exact ⟨if_pos hnil,ho⟩
  | succ n ih =>
    by_cases hnil : σ.frames = []
    · rw [run_of_nil hnil]
      exact ⟨if_pos hnil,ho⟩
    · obtain ⟨hloop,-,hlt,-⟩ :=
        h.step (fun _ _ _ => rfl) (fun _ _ _ _ _ => Or.inl trivial) hnil
      obtain ⟨hrun,honward⟩ := ih hloop (by omega) (h.step_onward hnil ho)
      refine ⟨?_,honward⟩
      rw [strongConnectPred,if_neg hnil,h.checkedStep_eq hnil]
      exact hrun

end Iteration

/-- A call from a vertex that is not done comes back with the vertex done, and leaves
the search as it was between calls. -/
theorem Rest.findSccPred_eq [Fintype V]
    {v : V} (h : Rest adj σ) (hv : ¬σ.done v) (hf : σ.frames = []) (ho : Onward adj p σ) :
    ∃ τ, σ.findSccPred adj v = some (τ,τ.content (τ.cell v)) ∧ Rest adj τ ∧ τ.frames = [] ∧
      Onward adj p τ ∧ Grown adj (fun _ => True) σ τ ∧ τ.done v := by
  obtain ⟨hrest,hgrown,hdone⟩ := h.search (A:=fun _ => True) hv trivial
    (fun _ _ _ => rfl) (fun _ _ _ _ _ => Or.inl trivial)
  have hstart : LoopInv adj (fun _ => True) {σ with frames := [(v,0)]} := h.start hv trivial
  obtain ⟨-,-,hend,-⟩ := hstart.run (2*Fintype.card V) (fun _ _ _ => rfl)
    (fun _ _ _ _ _ => Or.inl trivial) (potential_start v)
  obtain ⟨hrun,honward⟩ := hstart.strongConnectPred_eq (p:=p) (2*Fintype.card V)
    (potential_start v) (ho.of_cells rfl rfl)
  refine ⟨σ.search adj v,?_,hrest,hend,honward,hgrown,hdone⟩
  unfold findSccPred
  rw [if_neg hv,if_neg (not_not.mpr hf),hrun]
  rfl

end Search

/-- A graph's search state, with the vertices whose component was put in place from
elsewhere. -/
structure Sccs (V C : Type) where
  search : Search V C
  preset : List V

inductive SccCall (V C : Type) where
  | find (v : V)
  | preset (c : C) (members : List V)

namespace Sccs

variable {V C : Type} [LinearOrder V] [DecidableEq C]

def putScc (s : Sccs V C) (c : C) (members : List V) : Sccs V C where
  search := {s.search with
    cell := fun x => if x ∈ members then c else s.search.cell x
    content := Function.update s.search.content c members}
  preset := members++s.preset

def step [Fintype V] (adj : V → List V) (s : Sccs V C) : SccCall V C → Option (Sccs V C)
  | .find v => (s.search.findSccPred adj v).map fun r => {s with search := r.1}
  | .preset c members => some (s.putScc c members)

structure Init (s : Sccs V C) : Prop where
  frames : s.search.frames = []
  stack : s.search.stack = []
  index : ∀ v, s.search.index v = none
  onStack : ∀ v, s.search.onStack v = false
  separate : ∀ v w, s.search.cell v = s.search.cell w → v = w
  content : ∀ v, s.search.content (s.search.cell v) = []
  preset : s.preset = []

def system [Fintype V] (adj : V → List V) : Transition.System (Sccs V C) (SccCall V C) where
  init := Init
  step := step adj

/-- What is put in place is the sorted list of a whole component that is not known yet,
in a list that no vertex outside of it has. -/
def Whole (adj : V → List V) (s : Sccs V C) : SccCall V C → Prop
  | .find _ => True
  | .preset c members => (∃ v, IsComponent adj v members) ∧
    (∀ x ∈ members, ¬s.search.done x) ∧ ∀ x, x ∉ members → s.search.cell x ≠ c

structure Inv (adj : V → List V) (s : Sccs V C) : Prop where
  rest : Search.Rest adj s.search
  frames : s.search.frames = []
  onward : Search.Onward adj (· ∈ s.preset) s.search
  component : ∀ v, s.search.done v →
    IsComponent adj v (s.search.content (s.search.cell v)) ∧
    ∀ w, Mutual adj v w → s.search.cell w = s.search.cell v

variable {adj : V → List V} {s t : Sccs V C} {v : V}

omit [DecidableEq C] in
theorem Init.inv (h : Init s) : Inv adj s := by
  have hnot : ∀ v, ¬s.search.done v := fun v hv => hv (h.content v)
  refine ⟨⟨⟨fun v _ hv => absurd hv (hnot v),?_⟩,h.stack,?_,h.onStack⟩,h.frames,
    fun v hv => absurd hv (hnot v),fun v hv => absurd hv (hnot v)⟩
  · intro v w _ hcell
    exact h.separate w v hcell
  · intro v hv
    rw [h.index v] at hv
    cases hv

omit [DecidableEq C] in
theorem Inv.component_found {A : V → Prop} {τ : Search V C} (h : Inv adj s)
    (hfound : Search.Found adj A s.search τ) (hv : τ.done v) :
    IsComponent adj v (τ.content (τ.cell v)) ∧ ∀ w, Mutual adj v w → τ.cell w = τ.cell v := by
  by_cases hold : s.search.done v
  · obtain ⟨hcomp,hcells⟩ := h.component v hold
    obtain ⟨hcell,hcontent⟩ := hfound.old v hold
    rw [hcell,hcontent]
    refine ⟨hcomp,?_⟩
    intro w hw
    rw [(hfound.old w (h.rest.cells.closed v w hold hw)).1,hcells w hw]
  · exact (hfound.new v hv hold).2

theorem Inv.find [Fintype V] (h : Inv adj s) (v : V) :
    ∃ τ, s.search.findSccPred adj v = some (τ,τ.content (τ.cell v)) ∧
      Inv adj {s with search := τ} ∧ τ.done v := by
  by_cases hv : s.search.done v
  · exact ⟨s.search,if_pos hv,h,hv⟩
  · obtain ⟨τ,hfind,hrest,hframes,honward,hgrown,hdone⟩ :=
      h.rest.findSccPred_eq hv h.frames h.onward
    exact ⟨τ,hfind,⟨hrest,hframes,honward,fun _ hx => h.component_found hgrown.toFound hx⟩,hdone⟩

theorem Inv.putScc {c : C} {members : List V} (h : Inv adj s)
    (hwhole : Whole adj s (.preset c members)) : Inv adj (s.putScc c members) := by
  obtain ⟨⟨v,hcomp⟩,hnew,hfree⟩ := hwhole
  have hne : members ≠ [] := ne_nil_of_mem ((hcomp.mem v).mpr (Mutual.refl v))
  have hcell : ∀ x, (s.putScc c members).search.cell x =
      if x ∈ members then c else s.search.cell x := fun _ => rfl
  have hin : (s.putScc c members).search.content c = members := Function.update_self ..
  have hout : ∀ x, x ∉ members → (s.putScc c members).search.content (s.search.cell x) =
      s.search.content (s.search.cell x) := fun x hx => Function.update_of_ne (hfree x hx) ..
  have hdone : ∀ x, (s.putScc c members).search.done x ↔ x ∈ members ∨ s.search.done x := by
    intro x
    unfold done
    rw [hcell]
    split_ifs with hx
    · simp [hin,hx,hne]
    · simp [hout x hx,hx]
  have hfound : Search.Found adj (fun _ => True) s.search (s.putScc c members).search := by
    refine ⟨?_,?_,?_⟩
    · intro x hx
      have hx' : x ∉ members := fun hm => hnew x hm hx
      rw [hcell,if_neg hx',hout x hx']
      exact ⟨rfl,rfl⟩
    · intro x hx hold
      have hxm : x ∈ members := ((hdone x).mp hx).resolve_right hold
      have hvx : Mutual adj v x := (hcomp.mem x).mp hxm
      refine ⟨trivial,?_,?_⟩
      · rw [hcell,if_pos hxm,hin]
        exact hcomp.of_mutual hvx
      · intro w hw
        rw [hcell,hcell,if_pos hxm,if_pos ((hcomp.mem w).mpr (hvx.trans hw))]
    · intro x hx
      rw [hdone,not_or] at hx
      rw [hcell,if_neg hx.1]
  refine ⟨h.rest.found hfound rfl rfl rfl,h.frames,?_,fun x hx => h.component_found hfound hx⟩
  intro x hx hp y hy
  have hp' : x ∉ members ∧ x ∉ s.preset := by simpa [Sccs.putScc] using hp
  have hold := ((hdone x).mp hx).resolve_left hp'.1
  exact (hdone y).mpr (Or.inr (h.onward x hold hp'.2 y hy))

theorem Inv.step [Fintype V] {a : SccCall V C} (h : Inv adj s) (hok : Whole adj s a)
    (hstep : s.step adj a = some t) : Inv adj t := by
  cases a with
  | find v =>
    obtain ⟨τ,hfind,hinv,-⟩ := h.find v
    simp only [Sccs.step,hfind,map_some,some.injEq] at hstep
    exact hstep ▸ hinv
  | preset c members =>
    have ht : s.putScc c members = t := some.inj hstep
    exact ht ▸ h.putScc hok

theorem reachable_inv [Fintype V] (h : Transition.ReachableBy (system adj) (Whole adj) s) :
    Inv adj s := by
  obtain ⟨s₀,hinit,hrun⟩ := h
  exact hrun.invariant (fun _ _ _ hok hinv hstep => hinv.step hok hstep) (Init.inv hinit)

/-- Reachable by edges none of which leads on from a vertex of `p`. -/
def ReachOff (adj : V → List V) (p : V → Prop) : V → V → Prop :=
  Relation.ReflTransGen fun a b => ¬p a ∧ b ∈ adj a

omit [DecidableEq C] in
theorem Inv.done_of_reachOff {w : V} (h : Inv adj s) (hv : s.search.done v)
    (hw : ReachOff adj (· ∈ s.preset) v w) : s.search.done w := by
  induction hw with
  | refl => exact hv
  | tail _ hedge ih => exact h.onward _ ih hedge.1 _ hedge.2

/-- After any sequence of calls, with whole components put in place in between, a call returns the
component of its argument. What the argument reaches without going on from such a component then
has its component, in a list that the members share. -/
theorem findSccPred_component [Fintype V]
    (h : Transition.ReachableBy (system adj) (Whole adj) s) (v : V) :
    ∃ τ l, s.search.findSccPred adj v = some (τ,l) ∧ IsComponent adj v l ∧
      (∀ w, ReachOff adj (· ∈ s.preset) v w → IsComponent adj w (τ.content (τ.cell w))) ∧
      ∀ u w, τ.done u → Mutual adj u w → τ.cell w = τ.cell u := by
  obtain ⟨τ,hfind,hinv,hdone⟩ := (reachable_inv h).find v
  refine ⟨τ,_,hfind,(hinv.component v hdone).1,?_,fun u w hu => (hinv.component u hu).2 w⟩
  intro w hw
  exact (hinv.component w (hinv.done_of_reachOff hdone hw)).1

omit [DecidableEq C] in
theorem isComponent_singleton (hup : ∀ v, ∀ w ∈ adj v, v < w) (v : V) : IsComponent adj v [v] := by
  have hle : ∀ {v w}, Reach adj v w → v ≤ w := by
    intro v w h
    induction h with
    | refl => exact le_rfl
    | tail _ hedge ih => exact ih.trans (hup _ _ hedge).le
  refine ⟨pairwise_singleton _ _,?_⟩
  intro w
  rw [mem_singleton]
  constructor
  · rintro rfl
    exact Mutual.refl w
  · intro h
    exact le_antisymm (hle h.2) (hle h.1)

section Chain

def chain : Fin 3 → List (Fin 3)
  | 0 => [1]
  | 1 => [2]
  | 2 => []

def untouched : Sccs (Fin 3) (Fin 3) where
  search := ⟨[],[],fun _ => none,fun _ => 0,fun _ => false,0,id,fun _ => []⟩
  preset := []

theorem untouched_preset :
    Transition.ReachableBy (system chain) (Whole chain) (untouched.putScc 1 [1]) := by
  refine ⟨untouched,⟨rfl,rfl,fun _ => rfl,fun _ => rfl,fun _ _ h => h,fun _ => rfl,rfl⟩,
    Transition.Run.single (a:=.preset 1 [1]) ⟨⟨1,isComponent_singleton (by decide) 1⟩,?_,?_⟩ rfl⟩
  · decide
  · decide

theorem findSccPred_component_chain :
    ∃ τ l, (untouched.putScc 1 [1]).search.findSccPred chain 0 = some (τ,l) ∧
      IsComponent chain 0 l ∧ IsComponent chain 1 (τ.content (τ.cell 1)) := by
  obtain ⟨τ,l,hfind,hcomp,hreach,-⟩ := findSccPred_component untouched_preset 0
  refine ⟨τ,l,hfind,hcomp,hreach 1 ?_⟩
  exact Relation.ReflTransGen.single ⟨by decide,by decide⟩

/-- With the list of the middle vertex in place, a search from the first one does not get
to the last. -/
theorem unset_behind_preset :
    Transition.ReachableBy (system chain) (Whole chain) (untouched.putScc 1 [1]) ∧
    Reach chain 0 2 ∧
    ((untouched.putScc 1 [1]).search.findSccPred chain 0).map
      (fun r => (r.2,r.1.content (r.1.cell 2))) = some ([0],[]) := by
  refine ⟨untouched_preset,?_,by decide +kernel⟩
  exact (Reach.single (v:=0) (w:=1) (by decide)).trans (Reach.single (by decide))

end Chain

end Sccs
end Janus.Tarjan
