import Mathlib

/-!
# Strongly connected components by depth-first search

Tarjan's algorithm with an explicit search stack, over adjacency lists. The members of a component
share a cell; a vertex whose cell is not empty is done and not entered again, so that a search may
start where earlier ones have left off. The invariant cuts the vertex stack into one block for each
open frame.
-/

namespace Janus.Tarjan

open Function List List.Pairwise

variable {V C : Type}

section Graph

variable (adj : V → List V) {v w : V} {u : V} {l : List V}

def Reach : V → V → Prop := Relation.ReflTransGen fun v w => w ∈ adj v

/-- The two vertices lie on a common cycle, or are equal. -/
def Mutual (v w : V) : Prop := Reach adj v w ∧ Reach adj w v

/-- A strictly increasing list of exactly the vertices of the component of `v`. -/
structure IsComponent [LinearOrder V] (v : V) (l : List V) : Prop where
  sorted : l.Pairwise (· < ·)
  mem : ∀ w, w ∈ l ↔ Mutual adj v w

variable {adj}

theorem Reach.refl (v : V) : Reach adj v v := Relation.ReflTransGen.refl

theorem Reach.trans (h : Reach adj u v) (h' : Reach adj v w) : Reach adj u w :=
  Relation.ReflTransGen.trans h h'

theorem Reach.single (h : w ∈ adj v) : Reach adj v w := Relation.ReflTransGen.single h

theorem Mutual.refl (v : V) : Mutual adj v v := ⟨Reach.refl v,Reach.refl v⟩

theorem Mutual.symm (h : Mutual adj v w) : Mutual adj w v := ⟨h.2,h.1⟩

theorem Mutual.trans (h : Mutual adj u v) (h' : Mutual adj v w) : Mutual adj u w :=
  ⟨h.1.trans h'.1,h'.2.trans h.2⟩

theorem IsComponent.eq_of_mutual [LinearOrder V] {m : List V}
    (hl : IsComponent adj v l) (hm : IsComponent adj w m) (h : Mutual adj v w) : l = m := by
  apply hl.sorted.eq_of_mem_iff hm.sorted
  intro x
  rw [hl.mem,hm.mem]
  exact ⟨fun hx => h.symm.trans hx,fun hx => h.trans hx⟩

theorem IsComponent.of_mutual [LinearOrder V] (hl : IsComponent adj v l)
    (h : Mutual adj v w) : IsComponent adj w l := by
  refine ⟨hl.sorted,?_⟩
  intro x
  rw [hl.mem]
  exact ⟨fun hx => h.symm.trans hx,fun hx => h.trans hx⟩

/-- Going backwards along the edges, to a smaller vertex or out of the component, ends. -/
theorem descent_wellFounded [Finite V] [Preorder V] (adj : V → List V) :
    WellFounded fun w v => Reach adj v w ∧ (w < v ∨ ¬Reach adj w v) := by
  have htrans : IsTrans V fun w v => Reach adj v w ∧ (w < v ∨ ¬Reach adj w v) := by
    refine ⟨?_⟩
    rintro u v w ⟨hvu,huv⟩ ⟨hwv,hvw⟩
    refine ⟨hwv.trans hvu,?_⟩
    by_cases huw : Reach adj u w
    · exact Or.inl ((huv.resolve_right fun h => h (huw.trans hwv)).trans
        (hvw.resolve_right fun h => h (hvu.trans huw)))
    · exact Or.inr huw
  have hirrefl : Std.Irrefl fun w v => Reach adj v w ∧ (w < v ∨ ¬Reach adj w v) :=
    ⟨fun v h => h.2.elim (lt_irrefl v) fun hnot => hnot (Reach.refl v)⟩
  exact Finite.wellFounded_of_trans_of_irrefl _

end Graph

/-- Both stacks have their top at the head; a frame is a vertex with the number of its successors
that were looked at. -/
structure Search (V C : Type) where
  frames : List (V × ℕ)
  stack : List V
  index : V → Option ℕ
  low : V → ℕ
  onStack : V → Bool
  next : ℕ
  cell : V → C
  content : C → List V

namespace Search

def done (σ : Search V C) (v : V) : Prop := σ.content (σ.cell v) ≠ []

instance [DecidableEq V] (σ : Search V C) (v : V) : Decidable (σ.done v) :=
  inferInstanceAs (Decidable (σ.content (σ.cell v) ≠ []))

variable [LinearOrder V] [DecidableEq C]

def visit (σ : Search V C) (v : V) : Search V C :=
  {σ with
   index := update σ.index v (some σ.next)
   low := update σ.low v σ.next
   next := σ.next+1
   stack := v::σ.stack
   onStack := update σ.onStack v true}

def lower (σ : Search V C) (v : V) (k : ℕ) : Search V C :=
  {σ with low := update σ.low v (min (σ.low v) k)}

/-- Look at successors of `v` up to the first one never visited, returned with the number of
successors looked at. -/
def scan (v : V) : Search V C → ℕ → List V → Search V C × Option (V × ℕ)
  | σ, _, [] => (σ,none)
  | σ, i, w::ws =>
    if σ.done w then scan v σ (i+1) ws
    else match σ.index w with
      | none => (σ,some (w,i+1))
      | some k => scan v (if σ.onStack w then σ.lower v k else σ) (i+1) ws

def popTo (v : V) : List V → List V × List V
  | [] => ([],[])
  | w::ws => if w = v then ([w],ws) else (w::(popTo v ws).1,(popTo v ws).2)

scoped instance : LawfulBEq V := inferInstance

/-- Close the component of the root `v`: its members go to the cell of `v`, in order,
and share it. -/
def close (σ : Search V C) (v : V) : Search V C :=
  let members := (popTo v σ.stack).1
  {σ with
   stack := (popTo v σ.stack).2
   onStack := fun x => if x ∈ members then false else σ.onStack x
   content := update σ.content (σ.cell v)
     ((σ.content (σ.cell v)++members).insertionSort (· ≤ ·))
   cell := fun x => if x ∈ members then σ.cell v else σ.cell x}

/-- All successors of `v` were looked at: close its component if it is a root, and
hand its low link down. -/
def finish (σ : Search V C) (v : V) : Search V C :=
  let σ := if σ.index v = some (σ.low v) then σ.close v else σ
  match σ.frames with
  | [] => σ
  | (u,_)::_ => σ.lower u (σ.low v)

def step (adj : V → List V) (σ : Search V C) : Search V C :=
  match σ.frames with
  | [] => σ
  | (v,i)::fs =>
    let σ := {σ with frames := fs}
    let σ := if i = 0 then σ.visit v else σ
    match scan v σ i ((adj v).drop i) with
    | (σ,some (w,k)) => {σ with frames := (w,0)::(v,k)::σ.frames}
    | (σ,none) => σ.finish v

def run (adj : V → List V) : ℕ → Search V C → Search V C
  | 0, σ => σ
  | n+1, σ => run adj n (σ.step adj)

/-- Every visited vertex is entered once and returned to once for each vertex entered from it,
which bounds the iterations. -/
def search [Fintype V] (adj : V → List V) (σ : Search V C) (v : V) : Search V C :=
  run adj (2*Fintype.card V) {σ with frames := [(v,0)]}

end Search

structure Block (V : Type) where
  above : List V
  vertex : V
  seen : ℕ

def Block.members (b : Block V) : List V := b.above++[b.vertex]

def Block.frame (b : Block V) : V × ℕ := (b.vertex,b.seen)

theorem Block.vertex_mem (b : Block V) : b.vertex ∈ b.members := by simp [Block.members]

namespace Search

variable {adj : V → List V} {σ : Search V C} {bs : List (Block V)} {v : V} {p : List (Block V)}
variable {above : List V} {i : ℕ}

def num (σ : Search V C) (v : V) : ℕ := (σ.index v).getD 0

def Settled (σ : Search V C) (v y : V) : Prop := σ.done y ∨ (y ∈ σ.stack ∧ σ.low v ≤ σ.num y)

/-- The vertices of a block are on cycles through the frame's vertex, and its low link is exact for
the successors looked at. -/
structure BlockOK (adj : V → List V) (σ : Search V C) (b : Block V) : Prop where
  cyclic : ∀ x ∈ b.above, Mutual adj b.vertex x
  low_le : σ.low b.vertex ≤ σ.num b.vertex
  low_reach : ∃ y ∈ σ.stack, σ.num y = σ.low b.vertex ∧ Reach adj b.vertex y
  above : ∀ x ∈ b.above, ∀ y ∈ adj x, σ.Settled b.vertex y
  seen : ∀ y ∈ (adj b.vertex).take b.seen, σ.Settled b.vertex y

/-- The part of the state that outlives a search: what is done is whole components,
and what is not done has a cell of its own. -/
structure CellsOK (adj : V → List V) (σ : Search V C) : Prop where
  closed : ∀ v w, σ.done v → Mutual adj v w → σ.done w
  separate : ∀ v w, ¬σ.done v → σ.cell w = σ.cell v → w = v

structure Inv (adj : V → List V) (σ : Search V C) (bs : List (Block V)) : Prop where
  cells : CellsOK adj σ
  stack_eq : σ.stack = bs.flatMap Block.members
  stack_mem : ∀ v, v ∈ σ.stack ↔ (σ.index v).isSome ∧ ¬σ.done v
  on_stack : ∀ v, σ.onStack v = true ↔ v ∈ σ.stack
  below_next : ∀ v ∈ σ.stack, σ.num v < σ.next
  decreasing : σ.stack.Pairwise fun v w => σ.num w < σ.num v
  chain : bs.Pairwise fun b b' => Reach adj b'.vertex b.vertex
  block : ∀ b ∈ bs, BlockOK adj σ b

namespace Inv

variable {bs : List (Block V)} {b : Block V} {v : V}

section

variable (h : Inv adj σ bs)
include h

theorem vertex_mem (hb : b ∈ bs) : b.vertex ∈ σ.stack := by
  rw [h.stack_eq]
  exact mem_flatMap.mpr ⟨b,hb,b.vertex_mem⟩

theorem index_eq (hv : v ∈ σ.stack) : σ.index v = some (σ.num v) := by
  obtain ⟨k,hk⟩ := Option.isSome_iff_exists.mp ((h.stack_mem v).mp hv).1
  simp [num,hk]

theorem not_done (hv : v ∈ σ.stack) : ¬σ.done v := ((h.stack_mem v).mp hv).2

/-- Changing the counters or low links of blocks needs the blocks to be checked only. -/
theorem of_blocks {bs' : List (Block V)} {low : V → ℕ} {frames : List (V × ℕ)}
    (hm : bs'.flatMap Block.members = bs.flatMap Block.members)
    (hc : bs'.Pairwise fun b b' => Reach adj b'.vertex b.vertex)
    (hb : ∀ b ∈ bs', BlockOK adj {σ with low := low, frames := frames} b) :
    Inv adj {σ with low := low, frames := frames} bs' where
  cells := ⟨h.cells.closed,h.cells.separate⟩
  stack_eq := h.stack_eq.trans hm.symm
  stack_mem := h.stack_mem
  on_stack := h.on_stack
  below_next := h.below_next
  decreasing := h.decreasing
  chain := hc
  block := hb

end

end Inv

theorem Inv.withFrames (h : Inv adj σ bs) (frames : List (V × ℕ)) :
    Inv adj {σ with frames := frames} bs := by
  refine h.of_blocks rfl h.chain ?_
  intro b hb
  exact {h.block b hb with}

/-- The counter of a frame moves over successors that are settled. -/
theorem Inv.recount {j : ℕ} (h : Inv adj σ (p++⟨above,v,i⟩::bs))
    (hj : ∀ y ∈ (adj v).take j, y ∈ (adj v).take i ∨ σ.Settled v y) :
    Inv adj σ (p++⟨above,v,j⟩::bs) := by
  have hblock : ∀ b ∈ p++⟨above,v,j⟩::bs, BlockOK adj σ b := by
    intro b hb
    rcases mem_append.mp hb with hb | hb
    · exact h.block b (mem_append_left _ hb)
    rcases mem_cons.mp hb with rfl | hb
    · obtain ⟨hcyc,hle,hreach,habove,hseen⟩ := h.block ⟨above,v,i⟩ (by simp)
      refine ⟨hcyc,hle,hreach,habove,?_⟩
      intro y hy
      rcases hj y hy with hold | hset
      · exact hseen y hold
      · exact hset
    · exact h.block b (by simp [hb])
  have hchain : (p++⟨above,v,j⟩::bs).Pairwise fun b b' => Reach adj b'.vertex b.vertex := by
    have hc := h.chain
    rw [pairwise_append,pairwise_cons] at hc ⊢
    obtain ⟨hpre,⟨hhead,htail⟩,hcross⟩ := hc
    refine ⟨hpre,⟨hhead,htail⟩,?_⟩
    intro b hb b' hb'
    rcases mem_cons.mp hb' with rfl | hb'
    · exact hcross b hb ⟨above,v,i⟩ (by simp)
    · exact hcross b hb b' (mem_cons_of_mem _ hb')
  exact h.of_blocks (by simp [Block.members]) hchain hblock

theorem Inv.see {y : V} (h : Inv adj σ (p++⟨above,v,i⟩::bs)) (hy : (adj v)[i]? = some y)
    (hset : σ.Settled v y) : Inv adj σ (p++⟨above,v,i+1⟩::bs) := by
  apply h.recount
  intro z hz
  simp only [take_add_one,hy,Option.toList_some,mem_append,mem_singleton] at hz
  rcases hz with hz | rfl
  · exact Or.inl hz
  · exact Or.inr hset

structure SameSearch (σ σ' : Search V C) : Prop where
  frames : σ'.frames = σ.frames
  stack : σ'.stack = σ.stack
  index : σ'.index = σ.index
  cell : σ'.cell = σ.cell
  content : σ'.content = σ.content

theorem SameSearch.done {σ' : Search V C} (h : SameSearch σ σ') (x : V) : σ'.done x ↔ σ.done x := by
  unfold Search.done
  rw [h.cell,h.content]

section Top

variable {v : V} {above : List V} {i : ℕ} {bs : List (Block V)}

section

variable (h : Inv adj σ (⟨above,v,i⟩::bs))
include h

theorem Inv.stack_cons : σ.stack = above++v::bs.flatMap Block.members := by
  rw [h.stack_eq]
  simp [Block.members]

theorem Inv.num_above :
    (∀ x ∈ above, σ.num v < σ.num x) ∧ ∀ x ∈ bs.flatMap Block.members, σ.num x < σ.num v := by
  have hdec := h.decreasing
  rw [h.stack_cons,pairwise_append,pairwise_cons] at hdec
  exact ⟨fun x hx => hdec.2.2 x hx v (mem_cons_self ..),hdec.2.1.1⟩

theorem Inv.mem_stack (x : V) : x ∈ σ.stack ↔ x ∈ above++[v] ∨ x ∈ bs.flatMap Block.members := by
  rw [h.stack_cons]
  simp [or_assoc]

theorem Inv.mem_top_iff {x : V} (hx : x ∈ σ.stack) : x ∈ above++[v] ↔ σ.num v ≤ σ.num x := by
  constructor
  · intro hmem
    rcases mem_append.mp hmem with hmem | hmem
    · exact (h.num_above.1 x hmem).le
    · rw [mem_singleton.mp hmem]
  · intro hle
    rcases (h.mem_stack x).mp hx with hmem | hmem
    · exact hmem
    · exact absurd (h.num_above.2 x hmem) (not_lt.mpr hle)

end

/-- A finished block whose frame is a root is a whole component: a path out of it goes to done
vertices and does not come back. -/
theorem Inv.members_iff (h : Inv adj σ (⟨above,v,(adj v).length⟩::bs))
    (hroot : σ.low v = σ.num v) (x : V) : x ∈ above++[v] ↔ Mutual adj v x := by
  have hb := h.block ⟨above,v,(adj v).length⟩ (mem_cons_self ..)
  have hv : v ∈ σ.stack := h.vertex_mem (mem_cons_self ..)
  constructor
  · intro hx
    rcases mem_append.mp hx with hx | hx
    · exact hb.cyclic x hx
    · rw [mem_singleton.mp hx]
      exact Mutual.refl v
  · rintro ⟨hvx,hxv⟩
    induction hvx with
    | refl => simp
    | @tail y z _ hyz ih =>
      have hy := ih (Relation.ReflTransGen.head hyz hxv)
      have hset : σ.Settled v z := by
        rcases mem_append.mp hy with hy | hy
        · exact hb.above y hy z hyz
        · rw [mem_singleton.mp hy] at hyz
          exact hb.seen z (by rwa [take_length])
      rcases hset with hdone | ⟨hz,hle⟩
      · have hvz : Reach adj v z := by
          rcases mem_append.mp hy with hy | hy
          · exact (hb.cyclic y hy).1.trans (Reach.single hyz)
          · rw [mem_singleton.mp hy] at hyz
            exact Reach.single hyz
        exact absurd (h.cells.closed z v hdone ⟨hxv,hvz⟩) (h.not_done hv)
      · exact (h.mem_top_iff hz).mpr (hroot ▸ hle)

end Top

variable [LinearOrder V]

section Visit

variable {v x : V}

@[simp] theorem visit_stack : (σ.visit v).stack = v::σ.stack := rfl

@[simp] theorem visit_done : (σ.visit v).done x ↔ σ.done x := Iff.rfl

@[simp] theorem visit_index_self : (σ.visit v).index v = some σ.next := by simp [visit]

theorem visit_index_of_ne (h : x ≠ v) : (σ.visit v).index x = σ.index x := by simp [visit,h]

@[simp] theorem visit_num_self : (σ.visit v).num v = σ.next := by simp [num,visit]

theorem visit_num_of_ne (h : x ≠ v) : (σ.visit v).num x = σ.num x := by simp [num,visit,h]

@[simp] theorem visit_low_self : (σ.visit v).low v = σ.next := by simp [visit]

theorem visit_low_of_ne (h : x ≠ v) : (σ.visit v).low x = σ.low x := by simp [visit,h]

end Visit

theorem Inv.visit (h : Inv adj σ bs) (hidx : σ.index v = none)
    (hdone : ¬σ.done v) (hreach : ∀ b ∈ bs, Reach adj b.vertex v) :
    Inv adj (σ.visit v) (⟨[],v,0⟩::bs) := by
  have hne : ∀ x ∈ σ.stack, x ≠ v := by
    rintro x hx rfl
    simpa [hidx] using ((h.stack_mem x).mp hx).1
  refine ⟨⟨h.cells.closed,h.cells.separate⟩,?_,?_,?_,?_,?_,?_,?_⟩
  · simp [h.stack_eq,Block.members]
  · intro x
    by_cases hx : x = v
    · subst hx
      simp [hdone]
    · rw [visit_stack,visit_done,visit_index_of_ne hx,← h.stack_mem x]
      simp [hx]
  · intro x
    by_cases hx : x = v
    · subst hx
      simp [Search.visit]
    · simpa [Search.visit,hx] using h.on_stack x
  · intro x hx
    by_cases hxv : x = v
    · subst hxv
      rw [visit_num_self]
      exact Nat.lt_succ_self _
    · have hx' : x ∈ σ.stack := by simpa [hxv] using hx
      rw [visit_num_of_ne hxv]
      exact (h.below_next x hx').trans (Nat.lt_succ_self _)
  · refine cons ?_ ?_
    · intro x hx
      rw [visit_num_self,visit_num_of_ne (hne x hx)]
      exact h.below_next x hx
    · refine h.decreasing.imp_of_mem ?_
      intro x y hx hy hlt
      rwa [visit_num_of_ne (hne x hx),visit_num_of_ne (hne y hy)]
  · exact cons hreach h.chain
  · intro b hb
    rcases mem_cons.mp hb with rfl | hb
    · exact ⟨by simp,by simp,⟨v,by simp,by simp,Reach.refl v⟩,by simp,by simp⟩
    · have hbv := hne _ (h.vertex_mem hb)
      obtain ⟨hcyc,hle,⟨y,hy,hyn,hyr⟩,habove,hseen⟩ := h.block b hb
      have hset : ∀ y, σ.Settled b.vertex y → (σ.visit v).Settled b.vertex y := by
        rintro y (hy | ⟨hy,hle⟩)
        · exact Or.inl hy
        · refine Or.inr ⟨mem_cons_of_mem _ hy,?_⟩
          rwa [visit_low_of_ne hbv,visit_num_of_ne (hne y hy)]
      refine ⟨hcyc,?_,⟨y,mem_cons_of_mem _ hy,?_,hyr⟩,?_,?_⟩
      · rwa [visit_low_of_ne hbv,visit_num_of_ne hbv]
      · rw [visit_num_of_ne (hne y hy),visit_low_of_ne hbv,hyn]
      · exact fun x hx y hy => hset y (habove x hx y hy)
      · exact fun y hy => hset y (hseen y hy)

section Scan

variable {v : V} {above : List V} {i : ℕ} {bs : List (Block V)} {k : ℕ}

theorem lower_low_le (v : V) (k : ℕ) (x : V) : (σ.lower v k).low x ≤ σ.low x := by
  by_cases hx : x = v
  · subst hx
    simp [lower]
  · simp [lower,hx]

theorem lower_of_le {v : V} (h : σ.low v ≤ k) : σ.lower v k = σ := by
  simp [lower,min_eq_left h]

theorem Settled.lower {x y : V} (h : σ.Settled x y) : (σ.lower v k).Settled x y := by
  rcases h with h | ⟨hy,hle⟩
  · exact Or.inl h
  · exact Or.inr ⟨hy,(lower_low_le v k x).trans hle⟩

theorem BlockOK.lower {b : Block V} (h : BlockOK adj σ b)
    (hk : b.vertex = v → ∃ y ∈ σ.stack, σ.num y = k ∧ Reach adj v y) :
    BlockOK adj (σ.lower v k) b := by
  obtain ⟨hcyc,hle,hreach,habove,hseen⟩ := h
  refine ⟨hcyc,(lower_low_le v k _).trans hle,?_,fun x hx y hy => (habove x hx y hy).lower,
    fun y hy => (hseen y hy).lower⟩
  by_cases hb : b.vertex = v
  · rcases Nat.le_total (σ.low v) k with hle | hle
    · rw [lower_of_le hle]
      exact hreach
    · obtain ⟨y,hy,hyk,hyr⟩ := hk hb
      refine ⟨y,hy,?_,by rwa [hb]⟩
      show σ.num y = _
      simp [Search.lower,hb,hyk,hle]
  · obtain ⟨y,hy,hyn,hyr⟩ := hreach
    refine ⟨y,hy,?_,hyr⟩
    show σ.num y = _
    simp [Search.lower,hb,hyn]

theorem Inv.lower (h : Inv adj σ bs)
    (hk : ∃ y ∈ σ.stack, σ.num y = k ∧ Reach adj v y) : Inv adj (σ.lower v k) bs :=
  h.of_blocks rfl h.chain fun b hb => (h.block b hb).lower fun _ => hk

theorem scan_same (v : V) (σ : Search V C) (i : ℕ) (ws : List V) :
    SameSearch σ (scan v σ i ws).1 := by
  induction ws generalizing σ i with
  | nil => exact ⟨rfl,rfl,rfl,rfl,rfl⟩
  | cons w ws ih =>
    simp only [scan]
    split_ifs with hdone hon
    · exact ih σ (i+1)
    · split
      · exact ⟨rfl,rfl,rfl,rfl,rfl⟩
      · obtain ⟨hf,hs,hi,hc,hcc⟩ := ih (σ.lower v ‹ℕ›) (i+1)
        exact ⟨hf,hs,hi,hc,hcc⟩
    · split
      · exact ⟨rfl,rfl,rfl,rfl,rfl⟩
      · exact ih σ (i+1)

/-- A scan that starts where the top block stands either looks at all successors or
stops at one that was never visited. -/
theorem Inv.scan {ws : List V} (h : Inv adj σ (⟨above,v,i⟩::bs)) (hws : (adj v).drop i = ws) :
    ((scan v σ i ws).2 = none ∧ Inv adj (scan v σ i ws).1 (⟨above,v,(adj v).length⟩::bs)) ∨
    ∃ w j, (scan v σ i ws).2 = some (w,j+1) ∧ (adj v)[j]? = some w ∧ σ.index w = none ∧
      ¬σ.done w ∧ Inv adj (scan v σ i ws).1 (⟨above,v,j⟩::bs) := by
  induction ws generalizing σ i with
  | nil =>
    left
    refine ⟨rfl,?_⟩
    have hlen : (adj v).length ≤ i := drop_eq_nil_iff.mp hws
    apply Inv.recount (p:=[]) h
    intro y hy
    rw [take_of_length_le hlen]
    exact Or.inl (mem_of_mem_take hy)
  | cons w ws ih =>
    have hw : (adj v)[i]? = some w := by
      have hget := congrArg (·[0]?) hws
      simpa using hget
    have htail : (adj v).drop (i+1) = ws := by
      rw [← tail_drop,hws,tail_cons]
    simp only [Search.scan]
    split_ifs with hdone hon
    · exact ih (Inv.see (p:=[]) h hw (Or.inl hdone)) htail
    · have hmem := (h.on_stack w).mp hon
      rw [h.index_eq hmem]
      have hlow : Inv adj (σ.lower v (σ.num w)) (⟨above,v,i⟩::bs) :=
        h.lower ⟨w,hmem,rfl,Reach.single (mem_of_getElem? hw)⟩
      have hset : (σ.lower v (σ.num w)).Settled v w := by
        refine Or.inr ⟨hmem,?_⟩
        show _ ≤ σ.num w
        simp [Search.lower]
      exact ih (Inv.see (p:=[]) hlow hw hset) htail
    · have hidx : σ.index w = none := by
        by_contra hsome
        exact hon ((h.on_stack w).mpr ((h.stack_mem w).mpr
          ⟨Option.isSome_iff_ne_none.mpr hsome,hdone⟩))
      rw [hidx]
      exact Or.inr ⟨w,i,rfl,hw,hidx,hdone,h⟩

end Scan

section Finish

variable {v : V} {above : List V} {i : ℕ} {bs : List (Block V)}

theorem popTo_append {rest : List V} (h : v ∉ above) :
    popTo v (above++v::rest) = (above++[v],rest) := by
  induction above with
  | nil => simp [popTo]
  | cons x xs ih =>
    rw [mem_cons,not_or] at h
    simp [popTo,Ne.symm h.1,ih h.2]

theorem Inv.popTo_stack (h : Inv adj σ (⟨above,v,i⟩::bs)) :
    popTo v σ.stack = (above++[v],bs.flatMap Block.members) := by
  rw [h.stack_cons]
  apply popTo_append
  intro hv
  exact lt_irrefl _ (h.num_above.1 v hv)

section Close

variable [DecidableEq C]

theorem Inv.close_fields (h : Inv adj σ (⟨above,v,i⟩::bs)) :
    (σ.close v).stack = bs.flatMap Block.members ∧
    (∀ x, (σ.close v).cell x = if x ∈ above++[v] then σ.cell v else σ.cell x) ∧
    (σ.close v).content (σ.cell v) = (above++[v]).insertionSort (· ≤ ·) ∧
    (∀ x, x ∉ above++[v] → (σ.close v).content (σ.cell x) = σ.content (σ.cell x)) := by
  have hv : v ∈ σ.stack := h.vertex_mem (mem_cons_self ..)
  have hempty : σ.content (σ.cell v) = [] := not_not.mp (h.not_done hv)
  simp only [close,h.popTo_stack,update_self,hempty,nil_append,true_and]
  refine ⟨fun _ => trivial,?_⟩
  intro x hx
  rw [update_of_ne]
  intro hcell
  apply hx
  rw [h.cells.separate v x (h.not_done hv) hcell]
  simp

theorem Inv.close_done (h : Inv adj σ (⟨above,v,i⟩::bs)) (x : V) :
    (σ.close v).done x ↔ x ∈ above++[v] ∨ σ.done x := by
  obtain ⟨-,hcell,hcontent,hother⟩ := h.close_fields
  unfold Search.done
  rw [hcell]
  split_ifs with hx
  · rw [hcontent]
    simp only [hx,true_or,iff_true]
    intro hnil
    have hperm := perm_insertionSort (· ≤ ·) (above++[v])
    rw [hnil] at hperm
    simpa using hperm.length_eq
  · rw [hother x hx]
    simp [hx]

theorem Inv.close (h : Inv adj σ (⟨above,v,(adj v).length⟩::bs)) (hroot : σ.low v = σ.num v) :
    Inv adj (σ.close v) bs := by
  have hv : v ∈ σ.stack := h.vertex_mem (mem_cons_self ..)
  have hmem := h.members_iff hroot
  obtain ⟨hstack,hcell,-,-⟩ := h.close_fields
  have hdisj : ∀ x ∈ bs.flatMap Block.members, x ∉ above++[v] := by
    intro x hx hx'
    have hxs := (h.mem_stack x).mpr (Or.inr hx)
    exact absurd (h.num_above.2 x hx) (not_lt.mpr ((h.mem_top_iff hxs).mp hx'))
  have hsub : ∀ x ∈ bs.flatMap Block.members, x ∈ σ.stack :=
    fun x hx => (h.mem_stack x).mpr (Or.inr hx)
  refine ⟨⟨?_,?_⟩,hstack,?_,?_,?_,?_,(pairwise_cons.mp h.chain).2,?_⟩
  · intro a b ha hab
    rw [h.close_done] at ha ⊢
    rcases ha with ha | ha
    · exact Or.inl ((hmem b).mpr (((hmem a).mp ha).trans hab))
    · exact Or.inr (h.cells.closed a b ha hab)
  · intro a b ha hab
    rw [h.close_done,not_or] at ha
    rw [hcell a,hcell b,if_neg ha.1] at hab
    split_ifs at hab with hb
    · have hav := h.cells.separate v a (h.not_done hv) hab.symm
      exact absurd (by simp [hav]) ha.1
    · exact h.cells.separate a b ha.2 hab
  · intro x
    rw [hstack,h.close_done]
    constructor
    · intro hx
      have hxs := (h.stack_mem x).mp (hsub x hx)
      exact ⟨hxs.1,not_or.mpr ⟨hdisj x hx,hxs.2⟩⟩
    · rintro ⟨hidx,hnot⟩
      rw [not_or] at hnot
      rcases (h.mem_stack x).mp ((h.stack_mem x).mpr ⟨hidx,hnot.2⟩) with hx | hx
      · exact absurd hx hnot.1
      · exact hx
  · intro x
    simp only [Search.close,h.popTo_stack]
    split_ifs with hx
    · simp only [false_iff]
      exact fun hx' => hdisj x hx' hx
    · rw [h.on_stack,h.mem_stack]
      simp [hx]
  · intro x hx
    rw [hstack] at hx
    exact h.below_next x (hsub x hx)
  · rw [hstack]
    have hdec := h.decreasing
    rw [h.stack_cons,pairwise_append,pairwise_cons] at hdec
    exact hdec.2.1.2
  · intro b hb
    obtain ⟨hcyc,hle,⟨y,hy,hyn,hyr⟩,habove,hseen⟩ := h.block b (mem_cons_of_mem _ hb)
    have hbv : b.vertex ∈ bs.flatMap Block.members :=
      mem_flatMap.mpr ⟨b,hb,b.vertex_mem⟩
    have hset : ∀ y, σ.Settled b.vertex y → (σ.close v).Settled b.vertex y := by
      rintro z (hz | ⟨hz,hlez⟩)
      · exact Or.inl ((h.close_done z).mpr (Or.inr hz))
      · rcases (h.mem_stack z).mp hz with hz | hz
        · exact Or.inl ((h.close_done z).mpr (Or.inl hz))
        · exact Or.inr ⟨hstack ▸ hz,hlez⟩
    refine ⟨hcyc,hle,⟨y,?_,hyn,hyr⟩,fun x hx z hz => hset z (habove x hx z hz),
      fun z hz => hset z (hseen z hz)⟩
    rcases (h.mem_stack y).mp hy with hyt | hyb
    · have hvy := (h.mem_top_iff hy).mp hyt
      have hbn := h.num_above.2 b.vertex hbv
      omega
    · exact hstack ▸ hyb

/-- Components that were done stay, and new ones are whole, sorted and inside `A`. -/
structure Found (adj : V → List V) (A : V → Prop) (σ σ' : Search V C) : Prop where
  old : ∀ v, σ.done v → σ'.cell v = σ.cell v ∧ σ'.content (σ.cell v) = σ.content (σ.cell v)
  new : ∀ v, σ'.done v → ¬σ.done v → A v ∧ IsComponent adj v (σ'.content (σ'.cell v)) ∧
    ∀ w, Mutual adj v w → σ'.cell w = σ'.cell v
  rest : ∀ v, ¬σ'.done v → σ'.cell v = σ.cell v

structure Grown (adj : V → List V) (A : V → Prop) (σ σ' : Search V C) : Prop
    extends Found adj A σ σ' where
  fill : ∀ r, σ'.content r ≠ σ.content r → ∃ v, ¬σ.done v ∧ r = σ.cell v

theorem Inv.close_grown {A : V → Prop} (h : Inv adj σ (⟨above,v,(adj v).length⟩::bs))
    (hroot : σ.low v = σ.num v) (hA : ∀ x ∈ σ.stack, A x) : Grown adj A σ (σ.close v) := by
  obtain ⟨-,hcell,hcontent,hother⟩ := h.close_fields
  have hmem := h.members_iff hroot
  have htop : ∀ x ∈ above++[v], x ∈ σ.stack := fun x hx => (h.mem_stack x).mpr (Or.inl hx)
  refine ⟨⟨?_,?_,?_⟩,?_⟩
  · intro x hx
    have hx' : x ∉ above++[v] := fun hm => h.not_done (htop x hm) hx
    rw [hcell,if_neg hx',hother x hx']
    exact ⟨rfl,rfl⟩
  · intro x hx hold
    have hxm : x ∈ above++[v] := ((h.close_done x).mp hx).resolve_right hold
    have hvx := (hmem x).mp hxm
    refine ⟨hA x (htop x hxm),⟨?_,?_⟩,?_⟩
    · rw [hcell,if_pos hxm,hcontent]
      have hperm := perm_insertionSort (· ≤ ·) (above++[v])
      have hnodup : (above++[v]).Nodup := by
        have hdec := h.decreasing
        rw [h.stack_eq] at hdec
        have hsub : (above++[v]).Sublist (List.flatMap Block.members (⟨above,v,(adj v).length⟩::bs)) :=
          sublist_append_left _ _
        exact (hdec.sublist hsub).imp fun hlt he => by simp [he] at hlt
      exact (pairwise_insertionSort (· ≤ ·) _).imp₂ (fun _ _ hle hne => lt_of_le_of_ne hle hne)
        (hperm.nodup_iff.mpr hnodup)
    · intro w
      rw [hcell,if_pos hxm,hcontent,(perm_insertionSort (· ≤ ·) _).mem_iff,hmem]
      exact ⟨fun hw => hvx.symm.trans hw,fun hw => hvx.trans hw⟩
    · intro w hw
      have hwm : w ∈ above++[v] := (hmem w).mpr (hvx.trans hw)
      rw [hcell,hcell,if_pos hxm,if_pos hwm]
  · intro x hx
    rw [h.close_done,not_or] at hx
    rw [hcell,if_neg hx.1]
  · intro r hr
    refine ⟨v,h.not_done (htop v (by simp)),?_⟩
    by_contra hne
    exact hr (update_of_ne hne _ _)

end Close

/-- A finished frame that is not a root lies on a cycle through the frame below, and
its block joins that frame's block. -/
theorem Inv.join (h : Inv adj σ (⟨above,v,(adj v).length⟩::bs)) (hroot : σ.low v ≠ σ.num v) :
    ∃ b bs', bs = b::bs' ∧
      Inv adj (σ.lower b.vertex (σ.low v)) (⟨above++v::b.above,b.vertex,b.seen⟩::bs') := by
  obtain ⟨hcyc,hle,⟨y,hy,hyn,hyr⟩,-,-⟩ := h.block ⟨above,v,(adj v).length⟩ (mem_cons_self ..)
  simp only at hcyc hle hyn hyr
  have hyb : y ∈ bs.flatMap Block.members := by
    rcases (h.mem_stack y).mp hy with hyt | hyb
    · have := (h.mem_top_iff hy).mp hyt
      omega
    · exact hyb
  obtain ⟨d,hd,hyd⟩ := mem_flatMap.mp hyb
  cases bs with
  | nil => cases hd
  | cons b bs' =>
    refine ⟨b,bs',rfl,?_⟩
    have hchain := pairwise_cons.mp h.chain
    have hbv : Reach adj b.vertex v := hchain.1 b (mem_cons_self ..)
    have hdb : Reach adj d.vertex b.vertex := by
      rcases mem_cons.mp hd with rfl | hd
      · exact Reach.refl _
      · exact (pairwise_cons.mp hchain.2).1 d hd
    have hyd' : Reach adj y d.vertex := by
      rcases mem_append.mp hyd with hyd | hyd
      · exact ((h.block d (mem_cons_of_mem _ hd)).cyclic y hyd).2
      · rw [mem_singleton.mp hyd]
        exact Reach.refl _
    have hmutual : Mutual adj b.vertex v := ⟨hbv,hyr.trans (hyd'.trans hdb)⟩
    have hlow := h.lower (v:=b.vertex) (k:=σ.low v) ⟨y,hy,hyn,hbv.trans hyr⟩
    have hmin : (σ.lower b.vertex (σ.low v)).low b.vertex ≤ (σ.lower b.vertex (σ.low v)).low v := by
      have hne : v ≠ b.vertex := by
        intro he
        have := h.num_above.2 b.vertex (mem_flatMap.mpr ⟨b,mem_cons_self ..,b.vertex_mem⟩)
        rw [← he] at this
        exact lt_irrefl _ this
      simp [Search.lower,hne]
    have hset : ∀ {z}, (σ.lower b.vertex (σ.low v)).Settled v z →
        (σ.lower b.vertex (σ.low v)).Settled b.vertex z := by
      rintro z (hz | ⟨hz,hlez⟩)
      · exact Or.inl hz
      · exact Or.inr ⟨hz,hmin.trans hlez⟩
    refine hlow.of_blocks (by simp [Block.members]) (pairwise_cons.mpr
      (pairwise_cons.mp hchain.2)) ?_
    intro d hd
    rcases mem_cons.mp hd with rfl | hd
    · obtain ⟨-,-,-,habove,hseen⟩ :=
        hlow.block ⟨above,v,(adj v).length⟩ (mem_cons_self ..)
      obtain ⟨hbcyc,hble,hbreach,hbabove,hbseen⟩ :=
        hlow.block b (mem_cons_of_mem _ (mem_cons_self ..))
      refine ⟨?_,hble,hbreach,?_,hbseen⟩
      · intro x hx
        rcases mem_append.mp hx with hx | hx
        · exact hmutual.trans (hcyc x hx)
        rcases mem_cons.mp hx with rfl | hx
        · exact hmutual
        · exact hbcyc x hx
      · intro x hx z hz
        rcases mem_append.mp hx with hx | hx
        · exact hset (habove x hx z hz)
        rcases mem_cons.mp hx with rfl | hx
        · exact hset (hseen z (by rwa [take_length]))
        · exact hbabove x hx z hz
    · exact hlow.block d (mem_cons_of_mem _ (mem_cons_of_mem _ hd))

end Finish

section Loop

variable {A : V → Prop} {σ' σ'' : Search V C} {v : V} {adj' : V → List V} {i : ℕ} {above : List V}

theorem Grown.of_cells (hcell : σ'.cell = σ.cell) (hcontent : σ'.content = σ.content) :
    Grown adj A σ σ' := by
  have hdone : ∀ v, σ'.done v ↔ σ.done v := by
    intro v
    unfold Search.done
    rw [hcell,hcontent]
  refine ⟨⟨?_,fun v hv hold => absurd ((hdone v).mp hv) hold,?_⟩,?_⟩
  · intro v _
    rw [hcell,hcontent]
    exact ⟨rfl,rfl⟩
  · intro v _
    rw [hcell]
  · intro r hr
    exact absurd (by rw [hcontent]) hr

theorem Found.done_mono (h : Found adj A σ σ') (hv : σ.done v) : σ'.done v := by
  unfold Search.done
  rw [(h.old v hv).1,(h.old v hv).2]
  exact hv

theorem Grown.trans (h : Grown adj A σ σ') (h' : Grown adj A σ' σ'') : Grown adj A σ σ'' := by
  refine ⟨⟨?_,?_,?_⟩,?_⟩
  · intro v hv
    obtain ⟨hc,hcc⟩ := h.old v hv
    obtain ⟨hc',hcc'⟩ := h'.old v (h.done_mono hv)
    rw [hc] at hc' hcc'
    exact ⟨hc',hcc'.trans hcc⟩
  · intro v hv hold
    by_cases hmid : σ'.done v
    · obtain ⟨hA,hcomp,hcell⟩ := h.new v hmid hold
      obtain ⟨hc',hcc'⟩ := h'.old v hmid
      refine ⟨hA,by rw [hc',hcc']; exact hcomp,?_⟩
      intro w hw
      have hwd : σ'.done w := by
        unfold Search.done
        rw [hcell w hw]
        exact hmid
      rw [(h'.old w hwd).1,hc',hcell w hw]
    · exact h'.new v hv hmid
  · intro v hv
    have hmid : ¬σ'.done v := fun hd => hv (h'.done_mono hd)
    rw [h'.rest v hv,h.rest v hmid]
  · intro r hr
    by_cases hmid : σ'.content r = σ.content r
    · rw [← hmid] at hr
      obtain ⟨v,hv,hrv⟩ := h'.fill r hr
      exact ⟨v,fun hd => hv (h.done_mono hd),hrv.trans (h.rest v hv)⟩
    · exact h.fill r hmid

def potential [Fintype V] (σ : Search V C) : ℕ :=
  2*(Finset.univ.filter fun v => σ.index v = none ∧ ∀ f ∈ σ.frames, f.1 ≠ v).card+σ.frames.length

/-- An iteration that visits at most `v`, and then leaves its frame or enters a fresh vertex,
lowers the potential. -/
theorem potential_lt [Fintype V] {fs : List (V × ℕ)} (hf : σ.frames = (v,i)::fs)
    (hidx : ∀ x, σ'.index x = none → σ.index x = none ∧ x ≠ v)
    (hframes : σ'.frames = fs ∨ ∃ w k, σ'.frames = (w,0)::(v,k)::fs ∧ σ'.index w = none ∧
      ∀ f ∈ fs, f.1 ≠ w) : σ'.potential < σ.potential := by
  unfold potential
  rw [hf]
  have hsub : ∀ x, (σ'.index x = none ∧ ∀ f ∈ fs, f.1 ≠ x) →
      σ.index x = none ∧ ∀ f ∈ (v,i)::fs, f.1 ≠ x := fun x hx =>
    ⟨(hidx x hx.1).1,forall_mem_cons.mpr ⟨Ne.symm (hidx x hx.1).2,hx.2⟩⟩
  rcases hframes with hfs | ⟨w,k,hfs,hw,hfresh⟩
  · rw [hfs]
    have hcard := Finset.card_le_card (Finset.monotone_filter_right Finset.univ fun x _ => hsub x)
    simp only [length_cons]
    omega
  · rw [hfs]
    have hsubset := Finset.monotone_filter_right Finset.univ
      (p:=fun x => σ'.index x = none ∧ ∀ f ∈ ((w,0)::(v,k)::fs : List (V × ℕ)), f.1 ≠ x)
      fun x _ hx => hsub x ⟨hx.1,fun f hf => hx.2 f (by simp [hf])⟩
    have hcard := Finset.card_lt_card ((Finset.ssubset_iff_of_subset hsubset).mpr
      ⟨w,Finset.mem_filter.mpr ⟨Finset.mem_univ w,hsub w ⟨hw,hfresh⟩⟩,by simp⟩)
    simp only [length_cons]
    omega

structure Rest (adj : V → List V) (σ : Search V C) : Prop where
  cells : CellsOK adj σ
  stack : σ.stack = []
  visited : ∀ v, (σ.index v).isSome → σ.done v
  off : ∀ v, σ.onStack v = false

theorem Rest.inv (h : Rest adj σ) : Inv adj σ [] where
  cells := h.cells
  stack_eq := h.stack
  stack_mem v := by
    rw [h.stack]
    simpa using h.visited v
  on_stack v := by simp [h.stack,h.off v]
  below_next := by simp [h.stack]
  decreasing := by simp [h.stack]
  chain := nil
  block := by simp

theorem Rest.found (h : Rest adj σ) (hfound : Found adj A σ σ')
    (hstack : σ'.stack = σ.stack) (hindex : σ'.index = σ.index) (hon : σ'.onStack = σ.onStack) :
    Rest adj σ' := by
  refine ⟨⟨?_,?_⟩,hstack.trans h.stack,?_,fun v => by rw [hon,h.off v]⟩
  · intro v w hv hvw
    by_cases hold : σ.done v
    · exact hfound.done_mono (h.cells.closed v w hold hvw)
    · unfold Search.done
      rw [(hfound.new v hv hold).2.2 w hvw]
      exact hv
  · intro v w hv hcell
    have hw : ¬σ'.done w := by
      unfold Search.done
      rw [hcell]
      exact hv
    rw [hfound.rest v hv,hfound.rest w hw] at hcell
    exact h.cells.separate v w (fun hd => hv (hfound.done_mono hd)) hcell
  · intro v hv
    rw [hindex] at hv
    exact hfound.done_mono (h.visited v hv)

variable [DecidableEq C]

/-- The invariant at the head of the loop: all frames are open, or the top one is a
vertex that is about to be entered. -/
inductive LoopInv (adj : V → List V) (A : V → Prop) (σ : Search V C) : Prop
  | opened (bs : List (Block V)) (hf : σ.frames = bs.map Block.frame) (h : Inv adj σ bs)
    (hseen : ∀ b ∈ bs, 0 < b.seen) (hA : ∀ x ∈ σ.stack, A x)
  | enter (w : V) (bs : List (Block V)) (hf : σ.frames = (w,0)::bs.map Block.frame)
    (hidx : σ.index w = none) (h : Inv adj (σ.visit w) (⟨[],w,0⟩::bs))
    (hseen : ∀ b ∈ bs, 0 < b.seen) (hA : ∀ x ∈ (σ.visit w).stack, A x)

theorem Inv.finish {bs : List (Block V)}
    (h : Inv adj σ (⟨above,v,(adj v).length⟩::bs)) (hf : σ.frames = bs.map Block.frame)
    (hseen : ∀ b ∈ bs, 0 < b.seen) (hA : ∀ x ∈ σ.stack, A x) :
    LoopInv adj A (σ.finish v) ∧ Grown adj A σ (σ.finish v) ∧
      (σ.finish v).frames = σ.frames ∧ (σ.finish v).index = σ.index := by
  have hv : v ∈ σ.stack := h.vertex_mem (mem_cons_self ..)
  unfold Search.finish
  simp only [h.index_eq hv,Option.some.injEq]
  by_cases hroot : σ.num v = σ.low v
  · rw [if_pos hroot]
    have hclose := h.close hroot.symm
    have hgrown := h.close_grown hroot.symm hA
    have hA' : ∀ x ∈ (σ.close v).stack, A x := by
      intro x hx
      rw [h.close_fields.1] at hx
      exact hA x ((h.mem_stack x).mpr (Or.inr hx))
    have hsame : (match (σ.close v).frames with
        | [] => σ.close v
        | (u,_)::_ => (σ.close v).lower u ((σ.close v).low v)) = σ.close v := by
      show (match σ.frames with
        | [] => σ.close v
        | (u,_)::_ => (σ.close v).lower u (σ.low v)) = σ.close v
      rw [hf]
      cases bs with
      | nil => rfl
      | cons b bs =>
        apply lower_of_le
        have hle := (h.block b (mem_cons_of_mem _ (mem_cons_self ..))).low_le
        have hlt := h.num_above.2 b.vertex (mem_flatMap.mpr ⟨b,mem_cons_self ..,b.vertex_mem⟩)
        show σ.low b.vertex ≤ σ.low v
        omega
    rw [hsame]
    exact ⟨LoopInv.opened bs hf hclose hseen hA',hgrown,rfl,rfl⟩
  · rw [if_neg hroot]
    obtain ⟨b,bs',rfl,hjoin⟩ := h.join (Ne.symm hroot)
    have hlower : (match σ.frames with
        | [] => σ
        | (u,_)::_ => σ.lower u (σ.low v)) = σ.lower b.vertex (σ.low v) := by
      rw [hf]
      rfl
    rw [hlower]
    refine ⟨LoopInv.opened _ ?_ hjoin ?_ hA,Grown.of_cells rfl rfl,rfl,rfl⟩
    · simpa [Search.lower,Block.frame] using hf
    · intro d hd
      rcases mem_cons.mp hd with rfl | hd
      · exact hseen b (mem_cons_self ..)
      · exact hseen d (mem_cons_of_mem _ hd)

theorem Inv.advance {bs : List (Block V)}
    (h : Inv adj σ (⟨above,v,i⟩::bs)) (hf : σ.frames = bs.map Block.frame)
    (hseen : ∀ b ∈ bs, 0 < b.seen) (hA : ∀ x ∈ σ.stack, A x)
    (hclosed : ∀ x, A x → ¬σ.done x → ∀ y ∈ adj x, A y ∨ σ.done y) :
    ∃ σ', (match Search.scan v σ i ((adj v).drop i) with
        | (σ,some (w,k)) => {σ with frames := (w,0)::(v,k)::σ.frames}
        | (σ,none) => σ.finish v) = σ' ∧ LoopInv adj A σ' ∧ Grown adj A σ σ' ∧
      σ'.index = σ.index ∧ (σ'.frames = σ.frames ∨ ∃ w k, σ'.frames = (w,0)::(v,k)::σ.frames ∧
        σ.index w = none) := by
  refine ⟨_,rfl,?_⟩
  have hsame := scan_same v σ i ((adj v).drop i)
  rcases h.scan rfl with ⟨hnone,hinv⟩ | ⟨w,j,hsome,hw,hidx,hdone,hinv⟩
  · rw [show Search.scan v σ i ((adj v).drop i) = ((Search.scan v σ i ((adj v).drop i)).1,none) from
      Prod.ext rfl hnone]
    obtain ⟨hloop,hgrown,hframes,hindex⟩ :=
      hinv.finish (A:=A) (hsame.frames.trans hf) hseen (by rw [hsame.stack]; exact hA)
    exact ⟨hloop,(Grown.of_cells hsame.cell hsame.content).trans hgrown,hindex.trans hsame.index,
      Or.inl (hframes.trans hsame.frames)⟩
  · rw [show Search.scan v σ i ((adj v).drop i) =
      ((Search.scan v σ i ((adj v).drop i)).1,some (w,j+1)) from Prod.ext rfl hsome]
    set τ := (Search.scan v σ i ((adj v).drop i)).1
    have hv : v ∈ σ.stack := h.vertex_mem (mem_cons_self ..)
    have hidx' : τ.index w = none := by rw [hsame.index,hidx]
    have hdone' : ¬τ.done w := fun hd => hdone ((hsame.done w).mp hd)
    have hreach : ∀ b ∈ (⟨above,v,j⟩::bs : List (Block V)), Reach adj b.vertex w := by
      have hvw : Reach adj v w := Reach.single (mem_of_getElem? hw)
      intro b hb
      rcases mem_cons.mp hb with rfl | hb
      · exact hvw
      · exact ((pairwise_cons.mp h.chain).1 b hb).trans hvw
    have hvisit := (hinv.withFrames ((w,0)::(v,j+1)::τ.frames)).visit hidx' hdone' hreach
    have hset : ({τ with frames := (w,0)::(v,j+1)::τ.frames}.visit w).Settled v w := by
      have hvw : v ≠ w := by
        rintro rfl
        simpa [hidx] using ((h.stack_mem v).mp hv).1
      have hle := (hinv.block ⟨above,v,j⟩ (mem_cons_self ..)).low_le
      have hlt := hinv.below_next v (hsame.stack ▸ hv)
      refine Or.inr ⟨by simp,?_⟩
      rw [visit_low_of_ne hvw,visit_num_self]
      exact hle.trans hlt.le
    have hAw : A w := by
      rcases hclosed v (hA v hv) (h.not_done hv) w (mem_of_getElem? hw) with hAw | hd
      · exact hAw
      · exact absurd hd hdone
    refine ⟨LoopInv.enter w (⟨above,v,j+1⟩::bs) ?_ hidx'
      (Inv.see (p:=[⟨[],w,0⟩]) hvisit hw hset) ?_ ?_,
      (Grown.of_cells hsame.cell hsame.content).trans (Grown.of_cells rfl rfl),hsame.index,
      Or.inr ⟨w,j+1,by rw [← hsame.frames],hidx⟩⟩
    · show (w,0)::(v,j+1)::τ.frames = _
      rw [hsame.frames,hf]
      rfl
    · intro b hb
      rcases mem_cons.mp hb with rfl | hb
      · exact Nat.succ_pos j
      · exact hseen b hb
    · intro x hx
      rcases mem_cons.mp hx with rfl | hx
      · exact hAw
      · exact hA x (hsame.stack ▸ hx)

omit [DecidableEq C] in
/-- The top frame: its vertex is visited now if the frame is new. -/
theorem LoopInv.top (h : LoopInv adj A σ) (hne : σ.frames ≠ []) : ∃ above v i bs τ,
    σ.frames = (v,i)::bs.map Block.frame ∧ (if i = 0 then σ.visit v else σ) = τ ∧
    Inv adj τ (⟨above,v,i⟩::bs) ∧ (∀ b ∈ bs, 0 < b.seen) ∧ (∀ x ∈ τ.stack, A x) ∧
    (i = 0 → σ.index v = none) := by
  cases h with
  | opened bs hf hinv hseen hA =>
    cases bs with
    | nil => exact absurd hf hne
    | cons b bs =>
      have hi : b.seen ≠ 0 := (hseen b (mem_cons_self ..)).ne'
      exact ⟨_,_,b.seen,bs,σ,hf,if_neg hi,hinv,fun b hb => hseen b (mem_cons_of_mem _ hb),hA,
        fun h => absurd h hi⟩
  | enter w bs hf hidx hinv hseen hA =>
    exact ⟨[],w,0,bs,_,hf,if_pos rfl,hinv,hseen,hA,fun _ => hidx⟩

/-- One iteration keeps the loop invariant and brings the end nearer, also on other adjacency lists
that agree inside `A`. -/
theorem LoopInv.step [Fintype V] (h : LoopInv adj A σ)
    (hadj : ∀ x, A x → ¬σ.done x → adj' x = adj x)
    (hclosed : ∀ x, A x → ¬σ.done x → ∀ y ∈ adj x, A y ∨ σ.done y) (hne : σ.frames ≠ []) :
    LoopInv adj A (σ.step adj') ∧ Grown adj A σ (σ.step adj') ∧
      (σ.step adj').potential < σ.potential ∧
      ∀ x, (σ.step adj').index x = none → σ.index x = none ∧ ∀ f ∈ σ.frames.head?, f.1 ≠ x := by
  obtain ⟨above,v,i,bs,τ,hf,hτ,h,hseen,hA,-⟩ := h.top hne
  have hvisited : ∀ b ∈ (⟨above,v,i⟩::bs : List (Block V)), ∀ {x}, τ.index x = none →
      b.vertex ≠ x := by
    rintro b hb x hx rfl
    simpa [hx] using ((h.stack_mem _).mp (h.vertex_mem hb)).1
  obtain ⟨hcell,hcontent,hother⟩ : τ.cell = σ.cell ∧ τ.content = σ.content ∧
      ∀ x ≠ v, τ.index x = σ.index x := by
    rw [← hτ]
    split_ifs
    · exact ⟨rfl,rfl,fun x hx => visit_index_of_ne hx⟩
    · exact ⟨rfl,rfl,fun _ _ => rfl⟩
  have hdone : σ.done = τ.done := by
    funext x
    rw [Search.done,Search.done,hcell,hcontent]
  rw [hdone] at hadj hclosed
  have hv : v ∈ τ.stack := h.vertex_mem (mem_cons_self ..)
  obtain ⟨σ',hstep,hloop,hgrown,hindex,hframes⟩ :=
    (h.withFrames (bs.map Block.frame)).advance (A:=A) rfl hseen hA hclosed
  have hσ : σ.step adj' = σ' := by
    rw [← hstep,← hτ]
    unfold Search.step
    rw [hf]
    dsimp only
    rw [hadj v (hA v hv) (h.not_done hv)]
    split_ifs <;> rfl
  have hidx : ∀ x, σ'.index x = none → σ.index x = none ∧ x ≠ v := by
    intro x hx
    rw [hindex] at hx
    have hxv := Ne.symm (hvisited ⟨above,v,i⟩ (mem_cons_self ..) hx)
    exact ⟨(hother x hxv).symm.trans hx,hxv⟩
  rw [hσ]
  have hsame : Grown adj A σ {τ with frames := bs.map Block.frame} := Grown.of_cells hcell hcontent
  refine ⟨hloop,hsame.trans hgrown,potential_lt hf hidx (hframes.imp id ?_),fun x hx => ?_⟩
  · rintro ⟨w,k,hfs,hw⟩
    refine ⟨w,k,hfs,hindex ▸ hw,fun f hfmem => ?_⟩
    obtain ⟨b,hb,rfl⟩ := List.mem_map.mp hfmem
    exact hvisited b (mem_cons_of_mem _ hb) hw
  · rw [hf]
    simpa [eq_comm] using hidx x hx

theorem run_of_nil (h : σ.frames = []) (n : ℕ) : σ.run adj' n = σ := by
  induction n with
  | zero => rfl
  | succ n ih =>
    have hstep : σ.step adj' = σ := by
      unfold Search.step
      rw [h]
    rw [Search.run,hstep,ih]

theorem LoopInv.run [Fintype V] (n : ℕ) (h : LoopInv adj A σ)
    (hadj : ∀ x, A x → ¬σ.done x → adj' x = adj x)
    (hclosed : ∀ x, A x → ¬σ.done x → ∀ y ∈ adj x, A y ∨ σ.done y) (hn : σ.potential ≤ n) :
    LoopInv adj A (σ.run adj' n) ∧ Grown adj A σ (σ.run adj' n) ∧ (σ.run adj' n).frames = [] ∧
      ∀ x, (σ.run adj' n).index x = none → σ.index x = none ∧ ∀ f ∈ σ.frames.head?, f.1 ≠ x := by
  induction n generalizing σ with
  | zero =>
    have hnil : σ.frames = [] := by
      unfold potential at hn
      exact length_eq_zero_iff.mp (by omega)
    exact ⟨h,Grown.of_cells rfl rfl,hnil,fun x hx => ⟨hx,by simp [hnil]⟩⟩
  | succ n ih =>
    by_cases hnil : σ.frames = []
    · rw [run_of_nil hnil]
      exact ⟨h,Grown.of_cells rfl rfl,hnil,fun x hx => ⟨hx,by simp [hnil]⟩⟩
    · obtain ⟨hloop,hgrown,hlt,hidx⟩ := h.step hadj hclosed hnil
      have hstay : ∀ x, ¬(σ.step adj').done x → ¬σ.done x := fun x hx hd => hx (hgrown.done_mono hd)
      obtain ⟨hloop',hgrown',hend,hidx'⟩ := ih hloop (fun x hA hx => hadj x hA (hstay x hx))
        (fun x hA hx y hy => (hclosed x hA (hstay x hx) y hy).imp id hgrown.done_mono) (by omega)
      exact ⟨hloop',hgrown.trans hgrown',hend,fun x hx => hidx x (hidx' x hx).1⟩

omit [DecidableEq C] in
theorem Rest.start (h : Rest adj σ) (hv : ¬σ.done v) (hA : A v) :
    LoopInv adj A {σ with frames := [(v,0)]} := by
  have hidx : σ.index v = none := by
    cases hk : σ.index v with
    | none => rfl
    | some k => exact absurd (h.visited v (by rw [hk]; rfl)) hv
  refine LoopInv.enter v [] rfl hidx ((h.inv.withFrames _).visit hidx hv (by simp)) (by simp) ?_
  intro x hx
  rw [visit_stack,mem_cons] at hx
  rcases hx with rfl | hx
  · exact hA
  · rw [show ({σ with frames := [(v,0)]} : Search V C).stack = [] from h.stack] at hx
    cases hx

omit [DecidableEq C] in
theorem potential_start [Fintype V] (v : V) :
    ({σ with frames := [(v,0)]} : Search V C).potential ≤ 2*Fintype.card V := by
  have hsub : (Finset.univ.filter fun x => σ.index x = none ∧
      ∀ f ∈ ([(v,0)] : List (V × ℕ)), f.1 ≠ x).card < Fintype.card V := by
    apply Finset.card_lt_univ_of_notMem (x:=v)
    simp
  simp only [potential,length_singleton]
  omega

/-- A search from a vertex that is not done ends with whole components: what was done is as before,
the newly done is inside `A`. -/
theorem Rest.search [Fintype V] (h : Rest adj σ) (hv : ¬σ.done v)
    (hA : A v) (hadj : ∀ x, A x → ¬σ.done x → adj' x = adj x)
    (hclosed : ∀ x, A x → ¬σ.done x → ∀ y ∈ adj x, A y ∨ σ.done y) :
    Rest adj (σ.search adj' v) ∧ Grown adj A σ (σ.search adj' v) ∧ (σ.search adj' v).done v := by
  obtain ⟨hloop,hgrown,hend,hindex⟩ :=
    (h.start hv hA).run (2*Fintype.card V) hadj hclosed (potential_start v)
  have hgrown₀ : Grown adj A σ {σ with frames := [(v,0)]} := Grown.of_cells rfl rfl
  have hfinal : Inv adj (σ.search adj' v) [] := by
    cases hloop with
    | opened bs hf hinv _ _ =>
      rw [hend] at hf
      rw [map_eq_nil_iff.mp hf.symm] at hinv
      exact hinv
    | enter w bs hf _ _ _ _ =>
      rw [hend] at hf
      cases hf
  have hstack : (σ.search adj' v).stack = [] := hfinal.stack_eq
  have hvisited : ∀ x, ((σ.search adj' v).index x).isSome → (σ.search adj' v).done x := by
    intro x hx
    by_contra hd
    have hmem := (hfinal.stack_mem x).mpr ⟨hx,hd⟩
    rw [hstack] at hmem
    cases hmem
  refine ⟨⟨hfinal.cells,hstack,hvisited,?_⟩,hgrown₀.trans hgrown,?_⟩
  · intro x
    by_contra hon
    have hmem := (hfinal.on_stack x).mp (by simpa using hon)
    rw [hstack] at hmem
    cases hmem
  · apply hvisited
    rw [Option.isSome_iff_ne_none]
    intro hnone
    exact (hindex v hnone).2 (v,0) rfl rfl

end Loop

end Search

end Janus.Tarjan
