import Mathlib

/-!
# Ancestor traversal with a work stack

`TraversePredNonRecursive` marks a vertex when it is popped, so that it may stand on the stack
several times and is expanded at each pop. Only the first expansion pushes: when a lower copy is
popped, all that the first one left above it is gone and marked. So the edges bound the iterations.
-/

namespace Janus.Traverse

open List Relation.ReflTransGen

inductive SearchHint where
  | exit
  | ok
  | skip
  deriving DecidableEq

/-- Why a traversal has no result: a check failed, or it was given too few iterations. -/
inductive Fault where
  | verify
  | fuel
  deriving DecidableEq

/-- The variables of the loop, with the calls of `func` so far. The top of the stack is
the head of the list. -/
structure Walk (V : Type) where
  toWalk : List V
  walked : List V
  ret : SearchHint
  depth : ℕ
  calls : List (V × V)

structure Result (V : Type) where
  ret : SearchHint
  calls : List (V × V)
  ended : List V

variable {V : Type} [DecidableEq V] {E : Finset V} {rest : List V} {ret : SearchHint} {n : ℕ}

section Model

variable (parents : V → List V) (func : V → V → SearchHint) (cycleDetection : Bool)

/-- The loop over the parents of `v`. The flag tells whether `func` asked for the end. -/
def lookAt (v : V) : Walk V → List V → Except Fault (Walk V × Bool)
  | s, [] => .ok (s,false)
  | s, w::ws =>
    if v = w then .error .verify
    else
      let s := {s with ret := func v w, calls := s.calls++[(v,w)]}
      match func v w with
      | .exit => .ok (s,true)
      | .skip => lookAt v s ws
      | .ok =>
        if cycleDetection = true ∧ w ∈ s.walked then lookAt v s ws
        else lookAt v {s with toWalk := w::s.toWalk} ws

def iterate (s : Walk V) : Except Fault (Walk V × Bool) :=
  match s.toWalk with
  | [] => .ok (s,false)
  | v::rest =>
    if s.depth < 100000000 then
      lookAt func cycleDetection v
        {s with
         toWalk := rest
         walked := if cycleDetection then s.walked.insert v else s.walked
         depth := s.depth+1} (parents v)
    else .error .verify

def loop : ℕ → Walk V → Except Fault (Walk V × Bool)
  | 0, s => if s.toWalk = [] then .ok (s,false) else .error .fuel
  | n+1, s =>
    if s.toWalk = [] then .ok (s,false)
    else
      match iterate parents func cycleDetection s with
      | .error e => .error e
      | .ok (s,true) => .ok (s,true)
      | .ok (s,false) => loop n s

def start (v : V) : Walk V := ⟨[v],[v],.ok,0,[]⟩

def traversePredNonRecursive (n : ℕ) (v : V) : Except Fault (Result V) :=
  match loop parents func cycleDetection n (start v) with
  | .error e => .error e
  | .ok (s,true) => .ok ⟨s.ret,s.calls,[]⟩
  | .ok (s,false) => .ok ⟨s.ret,s.calls,s.walked⟩

/-- Reachable along edges for which `func` answers `Ok`. -/
def OkReach : V → V → Prop := Relation.ReflTransGen fun v w => w ∈ parents v ∧ func v w = .ok

def edgeCount [Fintype V] : ℕ := ∑ v, (parents v).length

end Model

variable {parents : V → List V} {func : V → V → SearchHint} {s : Walk V} {v r : V}

def pushed (func : V → V → SearchHint) (walked : List V) (v : V) (ws : List V) : List V :=
  ws.filter fun w => func v w = .ok ∧ w ∉ walked

/-- Looking at parents other than the vertex itself goes through all of them, if `func`
does not ask for the end. -/
theorem lookAt_eq {ws : List V} (hself : v ∉ ws) (hfunc : ∀ w ∈ ws, func v w ≠ .exit) :
    ∃ ret, lookAt func true v s ws = .ok ({s with
        toWalk := (pushed func s.walked v ws).reverse++s.toWalk
        ret := ret
        calls := s.calls++ws.map (Prod.mk v)},false) := by
  induction ws generalizing s with
  | nil => exact ⟨s.ret,by simp [lookAt,pushed]⟩
  | cons w ws ih =>
    rw [mem_cons,not_or] at hself
    have hrest : ∀ u ∈ ws, func v u ≠ .exit := fun u hu => hfunc u (mem_cons_of_mem _ hu)
    have hw := hfunc w (mem_cons_self ..)
    -- where the parent is not pushed
    obtain ⟨ret,hret⟩ := ih (s:={s with ret := func v w, calls := s.calls++[(v,w)]}) hself.2 hrest
    rw [lookAt,if_neg hself.1]
    cases hhint : func v w with
    | exit => exact absurd hhint hw
    | skip =>
      refine ⟨ret,?_⟩
      dsimp only
      rw [← hhint,hret]
      simp [pushed,hhint]
    | ok =>
      by_cases hmem : w ∈ s.walked
      · refine ⟨ret,?_⟩
        dsimp only
        rw [if_pos ⟨rfl,hmem⟩,← hhint,hret]
        simp [pushed,hmem]
      · obtain ⟨ret,hret⟩ :=
          ih (s:={s with toWalk := w::s.toWalk, ret := func v w, calls := s.calls++[(v,w)]})
            hself.2 hrest
        refine ⟨ret,?_⟩
        dsimp only
        rw [if_neg (fun h => hmem h.2),← hhint,hret]
        simp [pushed,hmem,hhint]

/-- At the head of the loop, for the set `E` of expanded vertices: what one of them on the stack
may still go to is marked or above it. -/
structure Inv (parents : V → List V) (func : V → V → SearchHint) (r : V) (E : Finset V)
    (s : Walk V) : Prop where
  seen : ∀ x, x ∈ s.walked ↔ x = r ∨ x ∈ E
  nodup : s.walked.Nodup
  root : r ∉ E → s.toWalk = [r]
  reach : ∀ x, x ∈ s.toWalk ∨ x ∈ E → OkReach parents func r x
  above : ∀ a u b, s.toWalk = a++u::b → u ∈ E → ∀ w ∈ parents u, func u w = .ok →
    w ∈ s.walked ∨ w ∈ a
  closed : ∀ x ∈ E, ∀ w ∈ parents x, func x w = .ok → w ∈ s.walked ∨ w ∈ s.toWalk
  called : ∀ x ∈ E, (parents x).map (Prod.mk x) <:+: s.calls
  count : s.depth+s.toWalk.length ≤ 1+∑ x ∈ E, (parents x).length

omit [DecidableEq V] in
theorem Inv.start (parents : V → List V) (func : V → V → SearchHint) (r : V) :
    Inv parents func r ∅ (start r) := by
  refine ⟨by simp [Traverse.start],nodup_singleton r,fun _ => rfl,?_,by simp,by simp,by simp,
    by simp [Traverse.start]⟩
  intro x hx
  obtain rfl : x = r := by simpa [Traverse.start] using hx
  exact refl

def expanded (parents : V → List V) (func : V → V → SearchHint) (s : Walk V) (v : V)
    (rest : List V) (ret : SearchHint) : Walk V where
  toWalk := (pushed func (s.walked.insert v) v (parents v)).reverse++rest
  walked := s.walked.insert v
  ret := ret
  depth := s.depth+1
  calls := s.calls++(parents v).map (Prod.mk v)

theorem Inv.again (h : Inv parents func r E s) (hs : s.toWalk = v::rest) (hv : v ∈ E) :
    Inv parents func r E (expanded parents func s v rest ret) := by
  have hwalked : s.walked.insert v = s.walked :=
    insert_of_mem ((h.seen v).mpr (Or.inr hv))
  have hpush : pushed func (s.walked.insert v) v (parents v) = [] := by
    unfold pushed
    rw [filter_eq_nil_iff,hwalked]
    intro w hw
    simp only [decide_eq_true_eq,not_and,not_not]
    intro hok
    simpa using h.above [] v rest hs hv w hw hok
  have hmem : ∀ w, w ∈ s.walked ∨ w ∈ s.toWalk → w ∈ s.walked ∨ w ∈ rest := by
    rintro w (hw | hw)
    · exact Or.inl hw
    · rw [hs,mem_cons] at hw
      rcases hw with rfl | hw
      · exact Or.inl ((h.seen w).mpr (Or.inr hv))
      · exact Or.inr hw
  have hcount := h.count
  rw [hs,length_cons] at hcount
  unfold expanded
  rw [hpush,hwalked]
  refine ⟨h.seen,h.nodup,?_,?_,?_,?_,?_,?_⟩
  · intro hr
    have htop := h.root hr
    rw [hs,cons.injEq] at htop
    exact absurd (htop.1 ▸ hv) hr
  · intro x hx
    apply h.reach
    rw [hs]
    exact hx.imp (fun hx => mem_cons_of_mem _ (by simpa using hx)) id
  · intro a u b hab hu w hw hok
    have hab' : s.toWalk = (v::a)++u::b := by
      rw [hs,cons_append]
      exact congrArg _ (by simpa using hab)
    rcases h.above (v::a) u b hab' hu w hw hok with hw | hw
    · exact Or.inl hw
    · rcases mem_cons.mp hw with rfl | hw
      · exact Or.inl ((h.seen w).mpr (Or.inr hv))
      · exact Or.inr hw
  · intro x hx w hw hok
    simpa using hmem w (h.closed x hx w hw hok)
  · intro x hx
    exact (h.called x hx).trans (prefix_append _ _).isInfix
  · simp only [reverse_nil,nil_append]
    omega

/-- The first expansion of a vertex pushes its parents above all other copies of it. -/
theorem Inv.first (h : Inv parents func r E s) (hs : s.toWalk = v::rest) (hv : v ∉ E) :
    Inv parents func r (insert v E) (expanded parents func s v rest ret) := by
  have hseen : ∀ x, x ∈ s.walked.insert v ↔ x = r ∨ x ∈ insert v E := by
    intro x
    rw [mem_insert_iff,h.seen,Finset.mem_insert]
    tauto
  set new := pushed func (s.walked.insert v) v (parents v) with hnew
  have hpush : ∀ w, w ∈ new ↔ w ∈ parents v ∧ func v w = .ok ∧ w ∉ s.walked.insert v := by
    simp [hnew,pushed]
  have hnext : ∀ w ∈ parents v, func v w = .ok → w ∈ s.walked.insert v ∨ w ∈ new.reverse := by
    intro w hw hok
    by_cases hmem : w ∈ s.walked.insert v
    · exact Or.inl hmem
    · exact Or.inr (mem_reverse.mpr ((hpush w).mpr ⟨hw,hok,hmem⟩))
  have hold : ∀ {w l}, w ∈ s.walked ∨ w ∈ v::l → w ∈ s.walked.insert v ∨ w ∈ new.reverse++l := by
    rintro w l (hw | hw)
    · exact Or.inl (mem_insert_of_mem hw)
    · rcases mem_cons.mp hw with rfl | hw
      · exact Or.inl mem_insert_self
      · exact Or.inr (mem_append_right _ hw)
  have hvreach : OkReach parents func r v := h.reach v (Or.inl (by simp [hs]))
  refine ⟨hseen,h.nodup.insert,?_,?_,?_,?_,?_,?_⟩
  · intro hr
    rw [Finset.mem_insert,not_or] at hr
    have htop := h.root hr.2
    rw [hs,cons.injEq] at htop
    exact absurd htop.1.symm hr.1
  · rintro x (hx | hx)
    · rcases mem_append.mp hx with hx | hx
      · obtain ⟨hx,hok,-⟩ := (hpush x).mp (mem_reverse.mp hx)
        exact hvreach.tail ⟨hx,hok⟩
      · exact h.reach x (Or.inl (by simp [hs,hx]))
    · rcases Finset.mem_insert.mp hx with rfl | hx
      · exact hvreach
      · exact h.reach x (Or.inr hx)
  · intro a u b hab hu w hw hok
    -- an expanded vertex is marked, so that its copy is not among those just pushed
    have hsplit : ∃ a', a = new.reverse++a' ∧ rest = a'++u::b := by
      rcases append_eq_append_iff.mp hab with ⟨a',ha,hb⟩ | ⟨c,hc,hb⟩
      · exact ⟨a',ha,hb⟩
      · cases c with
        | nil => exact ⟨[],by simpa using hc.symm,by simpa using hb.symm⟩
        | cons x c =>
          obtain ⟨rfl,-⟩ := cons.inj hb
          have hx : u ∈ new := by
            rw [← mem_reverse,hc]
            simp
          exact absurd ((hseen u).mpr (Or.inr hu)) ((hpush u).mp hx).2.2
    obtain ⟨a',rfl,hrest⟩ := hsplit
    rcases Finset.mem_insert.mp hu with rfl | hu
    · exact (hnext w hw hok).imp id (mem_append_left _)
    · have hab' : s.toWalk = (v::a')++u::b := by rw [hs,hrest,cons_append]
      exact hold (h.above (v::a') u b hab' hu w hw hok)
  · intro x hx w hw hok
    rcases Finset.mem_insert.mp hx with rfl | hx
    · exact (hnext w hw hok).imp id (mem_append_left _)
    · exact hold (hs ▸ h.closed x hx w hw hok)
  · intro x hx
    rcases Finset.mem_insert.mp hx with rfl | hx
    · exact (suffix_append _ _).isInfix
    · exact (h.called x hx).trans (prefix_append _ _).isInfix
  · have hcount := h.count
    rw [hs,length_cons] at hcount
    have hle : new.length ≤ (parents v).length := length_filter_le _ _
    rw [Finset.sum_insert hv]
    simp only [expanded,length_append,length_reverse,← hnew]
    omega

omit [DecidableEq V] in
theorem Inv.depth_lt [Fintype V] (h : Inv parents func r E s)
    (hne : s.toWalk ≠ []) : s.depth < 1+edgeCount parents := by
  have hle : ∑ x ∈ E, (parents x).length ≤ edgeCount parents :=
    Finset.sum_le_sum_of_subset (Finset.subset_univ E)
  have hpos := length_pos_of_ne_nil hne
  have hcount := h.count
  omega

/-- One iteration keeps the invariant, for a set of expanded vertices that may have grown. -/
theorem Inv.iterate [Fintype V] (h : Inv parents func r E s)
    (hself : ∀ v, v ∉ parents v) (hfunc : ∀ v w, func v w ≠ .exit)
    (hsize : edgeCount parents < 100000000) (hne : s.toWalk ≠ []) :
    ∃ t E', iterate parents func true s = .ok (t,false) ∧ Inv parents func r E' t ∧
      t.depth = s.depth+1 := by
  have hdepth := h.depth_lt hne
  cases hs : s.toWalk with
  | nil => exact absurd hs hne
  | cons v rest =>
    obtain ⟨ret,hret⟩ := lookAt_eq (s:={s with
      toWalk := rest, walked := s.walked.insert v, depth := s.depth+1}) (hself v)
      (fun w _ => hfunc v w)
    have hstep : Traverse.iterate parents func true s =
        .ok (expanded parents func s v rest ret,false) := by
      unfold Traverse.iterate
      rw [hs]
      dsimp only
      rw [if_pos (by omega),if_pos rfl,hret]
      rfl
    by_cases hv : v ∈ E
    · exact ⟨_,E,hstep,h.again hs hv,rfl⟩
    · exact ⟨_,insert v E,hstep,h.first hs hv,rfl⟩

theorem Inv.loop [Fintype V] (n : ℕ) (h : Inv parents func r E s)
    (hself : ∀ v, v ∉ parents v) (hfunc : ∀ v w, func v w ≠ .exit)
    (hsize : edgeCount parents < 100000000) (hn : 1+edgeCount parents ≤ s.depth+n) :
    ∃ t E', loop parents func true n s = .ok (t,false) ∧ Inv parents func r E' t ∧
      t.toWalk = [] := by
  induction n generalizing s E with
  | zero =>
    have hnil : s.toWalk = [] := by
      by_contra hne
      have := h.depth_lt hne
      omega
    exact ⟨s,E,if_pos hnil,h,hnil⟩
  | succ n ih =>
    by_cases hnil : s.toWalk = []
    · exact ⟨s,E,if_pos hnil,h,hnil⟩
    · obtain ⟨t,E',hstep,hinv,hdepth⟩ := h.iterate hself hfunc hsize hnil
      obtain ⟨u,E'',hloop,hend⟩ := ih hinv (by omega)
      refine ⟨u,E'',?_,hend⟩
      rw [Traverse.loop,if_neg hnil,hstep]
      exact hloop

theorem Inv.mem_iff (h : Inv parents func r E s) (hnil : s.toWalk = []) (x : V) :
    x ∈ E ↔ OkReach parents func r x := by
  have hroot : r ∈ E := by
    by_contra hr
    have := h.root hr
    rw [hnil] at this
    cases this
  refine ⟨fun hx => h.reach x (Or.inr hx),?_⟩
  intro hx
  induction hx with
  | refl => exact hroot
  | tail _ hedge ih =>
    rcases h.closed _ ih _ hedge.1 hedge.2 with hw | hw
    · rcases (h.seen _).mp hw with rfl | hw
      · exact hroot
      · exact hw
    · rw [hnil] at hw
      cases hw

/-- The traversal returns within one iteration more than there are edges. It called `func` on all
parent edges of what it can reach, and `func_end` once on each. -/
theorem traversePred_complete [Fintype V] (parents : V → List V) (func : V → V → SearchHint)
    (hself : ∀ v, v ∉ parents v) (hfunc : ∀ v w, func v w ≠ .exit)
    (hsize : edgeCount parents < 100000000) (v : V) :
    ∃ res, traversePredNonRecursive parents func true (1+edgeCount parents) v = .ok res ∧
      (∀ x, OkReach parents func v x → (parents x).map (Prod.mk x) <:+: res.calls) ∧
      res.ended.Nodup ∧ ∀ x, x ∈ res.ended ↔ OkReach parents func v x := by
  obtain ⟨t,E,hloop,hinv,hnil⟩ :=
    (Inv.start parents func v).loop (1+edgeCount parents) hself hfunc hsize (by omega)
  have hmem := hinv.mem_iff hnil
  refine ⟨⟨t.ret,t.calls,t.walked⟩,?_,fun x hx => hinv.called x ((hmem x).mpr hx),hinv.nodup,?_⟩
  · unfold traversePredNonRecursive
    rw [hloop]
  · intro x
    rw [hinv.seen,hmem]
    refine or_iff_right_of_imp ?_
    rintro rfl
    exact refl

theorem traversePred_complete_pair :
    ∃ res, traversePredNonRecursive (fun v : Bool => if v then [false,false] else [])
        (fun _ _ => .ok) true 3 true = .ok res ∧ res.ended.Nodup := by
  obtain ⟨res,hres,-,hnodup,-⟩ := traversePred_complete
    (fun v : Bool => if v then [false,false] else []) (fun _ _ => .ok) (by decide)
    (by decide) (by decide) true
  exact ⟨res,hres,hnodup⟩

/-- Copies of a vertex without parents are popped one by one, until the check fails. -/
theorem loop_replicate_error {w : V} (hw : parents w = []) {k : ℕ}
    (hs : s.toWalk = List.replicate k w) (hk : 100000000 < s.depth+k) (hn : k ≤ n)
    (hle : s.depth ≤ 100000000) : loop parents func true n s = .error .verify := by
  induction k generalizing s n with
  | zero => omega
  | succ k ih =>
    cases n with
    | zero => omega
    | succ n =>
      have hcons : s.toWalk = w::replicate k w := hs
      rw [loop,if_neg (by simp [hcons])]
      unfold iterate
      rw [hcons]
      dsimp only
      by_cases hlt : s.depth < 100000000
      · rw [if_pos hlt,hw]
        exact ih rfl (by dsimp only; omega) (by omega) hlt
      · rw [if_neg hlt]

def always (_ _ : V) : SearchHint := .ok

def bundle (n : ℕ) (v : Bool) : List Bool := if v then List.replicate n false else []

theorem not_mem_bundle (n : ℕ) (v : Bool) : v ∉ bundle n v := by
  intro hv
  cases v with
  | false => cases hv
  | true => exact absurd (eq_of_mem_replicate hv) (by decide)

theorem edgeCount_bundle (n : ℕ) : edgeCount (bundle n) = n := by
  simp [edgeCount,bundle]

theorem bundle_error_of_le (h : 100000000 ≤ n) :
    traversePredNonRecursive (bundle n) always true (1+edgeCount (bundle n)) true =
      .error .verify := by
  have halways : ∀ w ∈ bundle n true, always true w ≠ .exit := fun _ _ => nofun
  obtain ⟨ret,hret⟩ := lookAt_eq (s:=⟨[],[true],.ok,1,[]⟩) (not_mem_bundle n true) halways
  have hpush : pushed always [true] true (bundle n true) = replicate n false := by
    simp [pushed,bundle,always]
  have hfirst : iterate (bundle n) always true (start true) =
      .ok (⟨replicate n false,[true],ret,1,(bundle n true).map (Prod.mk true)⟩,false) := by
    refine hret.trans ?_
    rw [hpush,reverse_replicate,append_nil,nil_append]
  have hloop : loop (bundle n) always true (1+edgeCount (bundle n)) (start true) =
      .error .verify := by
    rw [edgeCount_bundle,Nat.add_comm,loop,if_neg (by simp [start]),hfirst]
    exact loop_replicate_error (w:=false) rfl rfl (by dsimp only; omega) le_rfl (by dsimp only; omega)
  unfold traversePredNonRecursive
  rw [hloop]

/-- With as many edges as there may be iterations, the last iteration fails its check. -/
theorem bundle_error : (∀ v, v ∉ bundle 100000000 v) ∧
    traversePredNonRecursive (bundle 100000000) always true
      (1+edgeCount (bundle 100000000)) true = .error .verify :=
  ⟨not_mem_bundle _,bundle_error_of_le le_rfl⟩

end Janus.Traverse
