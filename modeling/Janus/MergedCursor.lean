import Janus.StagedRefinement
import Janus.TableCursor

/-! `MergedCursor`, with its `reset` and the order of its rows. Of the next row of the table and
the next staged one, the cursor takes the one at the lower address, whatever their keys are. -/
namespace Janus.Memdb

open Transition List Staging Option

/-- `Enumerator<const Row*>`. `left` are the rows ahead, and they decide what the calls return. -/
structure Enumerator (β : Type) where
  hasNext : β → Bool × β
  next : β → Option (RowId × β)
  reset : β → Option β
  left : β → List RowId
  size : β → ℕ
  length_le : ∀ b, (left b).length ≤ size b
  hasNext_fst : ∀ b, (hasNext b).1 = !(left b).isEmpty
  hasNext_snd : ∀ b, left (hasNext b).2 = left b
  next_nil : ∀ b, left b = [] → next b = none
  next_cons : ∀ b r l, left b = r::l → ∃ b', next b = some (r,b') ∧ left b' = l

namespace Enumerator

variable {β : Type} (E : Enumerator β)

def take : ℕ → β → List RowId
  | 0, _ => []
  | n+1, b =>
    match E.next b with
    | none => []
    | some p => p.1::take n p.2

theorem take_eq (n : ℕ) (b : β) : E.take n b = (E.left b).take n := by
  induction n generalizing b with
  | zero => rfl
  | succ n ih =>
    cases hl : E.left b with
    | nil => simp [take,E.next_nil b hl]
    | cons r l =>
      obtain ⟨b',hnext,rfl⟩ := E.next_cons b r l hl
      simp [take,hnext,ih]

theorem take_size (b : β) : E.take (E.size b) b = E.left b := by
  rw [take_eq,take_of_length_le (E.length_le b)]

end Enumerator

/-- The cursor of a table, which is what is left of the rows. That of a snapshot table does not
rewind. -/
def tableCursor (rewinds : Bool) (rows : List RowId) : Enumerator (List RowId) where
  hasNext l := (!l.isEmpty,l)
  next l := l.head?.map fun r => (r,l.tail)
  reset _ := if rewinds then some rows else none
  left := id
  size := length
  length_le _ := le_rfl
  hasNext_fst _ := rfl
  hasNext_snd _ := rfl
  next_nil _ h := congrArg (fun l => l.head?.map fun r => (r,l.tail)) h
  next_cons _ _ l h := ⟨l,congrArg (fun l => l.head?.map fun r => (r,l.tail)) h,rfl⟩

/-- The cursor of the table or of the base transaction, the staged rows that are left,
`next_candidate_` and `cached_next_`. -/
structure MergedCursor (β : Type) where
  base : β
  inserts : List RowId
  candidate : Option RowId
  cached : Option RowId

namespace MergedCursor

variable {β : Type}

def create (base : β) (inserts : List RowId) : MergedCursor β := ⟨base,inserts,none,none⟩

variable (E : Enumerator β) (removed : RowId → Bool) (c : MergedCursor β)

def seek : ℕ → β → Option RowId × β
  | 0, b => (none,(E.hasNext b).2)
  | n+1, b =>
    if (E.hasNext b).1 then
      match E.next (E.hasNext b).2 with
      | none => (none,(E.hasNext b).2)
      | some (r,b) => if removed r then seek n b else (some r,b)
    else (none,(E.hasNext b).2)

def pick : MergedCursor β :=
  match c.candidate,c.inserts with
  | none,[] => c
  | none,i::inserts => {c with cached := some i, inserts := inserts}
  | some r,[] => {c with cached := some r, candidate := none}
  | some r,i::inserts =>
    if r < i then {c with cached := some r, candidate := none}
    else {c with cached := some i, inserts := inserts}

def prefetch : MergedCursor β :=
  match c.candidate with
  | some _ => c.pick
  | none =>
    let (candidate,base) := seek E removed (E.size c.base) c.base
    pick {c with candidate := candidate, base := base}

def hasNext : MergedCursor β := if c.cached.isSome then c else c.prefetch E removed

def next : Option (RowId × MergedCursor β) :=
  (c.hasNext E removed).cached.map fun r => (r,{c.hasNext E removed with cached := none})

/-- `insert_reset` does nothing. -/
def reset : Option (MergedCursor β) := (E.reset c.base).map fun base => {c with base := base}

def kept (l : List RowId) : List RowId := l.filter fun r => !removed r

/-- Of the next row below and the next staged one, the one at the lower address comes first. -/
def mergeRows (l m : List RowId) : List RowId := merge l m fun r i => decide (r < i)

def left : List RowId :=
  c.cached.toList++mergeRows (c.candidate.toList++kept removed (E.left c.base)) c.inserts

variable {E : Enumerator β} (removed : RowId → Bool) {c : MergedCursor β}

/-- Only removed rows are passed over. -/
theorem seek_spec (n : ℕ) (b : β) (hn : (E.left b).length ≤ n) :
    let p := seek E removed n b
    p.1.toList++kept removed (E.left p.2) = kept removed (E.left b) ∧
      (p.1 = none → E.left p.2 = []) := by
  induction n generalizing b with
  | zero =>
    have hnil := eq_nil_of_length_eq_zero (Nat.le_zero.mp hn)
    simp [seek,E.hasNext_snd,hnil]
  | succ n ih =>
    cases hl : E.left b with
    | nil => simp [seek,E.hasNext_fst,E.hasNext_snd,hl]
    | cons r l =>
      obtain ⟨b',hnext,rfl⟩ := E.next_cons (E.hasNext b).2 r l (by rw [E.hasNext_snd,hl])
      have hb := ih b' (by grind)
      cases hr : removed r <;> simp_all [seek,E.hasNext_fst,kept]

theorem pick_spec (hcached : c.cached = none)
    (hnone : c.candidate = none → E.left c.base = []) :
    left E removed c.pick = left E removed c ∧
      (c.pick.cached = none → left E removed c = []) := by
  obtain ⟨base,inserts,candidate,cached⟩ := c
  obtain rfl : cached = none := hcached
  cases candidate with
  | none =>
    have hbase : E.left base = [] := hnone rfl
    cases inserts <;> simp [pick,left,mergeRows,hbase,kept]
  | some r =>
    cases inserts with
    | nil => simp [pick,left,mergeRows]
    | cons i inserts => by_cases hlt : r < i <;> simp [pick,left,mergeRows,hlt]

variable (E) in
/-- `has_next` looks ahead without losing a row. -/
theorem hasNext_spec (c : MergedCursor β) :
    left E removed (c.hasNext E removed) = left E removed c ∧
      ((c.hasNext E removed).cached = none → left E removed c = []) := by
  unfold hasNext
  split_ifs with hcached
  · exact ⟨rfl,fun h => by simp [h] at hcached⟩
  · have hnone : c.cached = none := by simpa using hcached
    unfold prefetch
    cases hcand : c.candidate with
    | some r => exact pick_spec removed hnone fun h => by simp [h] at hcand
    | none =>
      obtain ⟨hleft,hend⟩ := seek_spec removed _ _ (E.length_le c.base)
      have hp := pick_spec removed (c := {c with
        candidate := (seek E removed (E.size c.base) c.base).1,
        base := (seek E removed (E.size c.base) c.base).2}) hnone hend
      have heq : left E removed c = left E removed {c with
          candidate := (seek E removed (E.size c.base) c.base).1,
          base := (seek E removed (E.size c.base) c.base).2} := by
        simp only [left,hleft,hcand,toList_none,nil_append]
      exact heq ▸ hp

variable {removed}

/-- A merged cursor is an enumerator again, as a nested transaction needs. -/
def enumerator (E : Enumerator β) (removed : RowId → Bool) : Enumerator (MergedCursor β) where
  hasNext c := ((c.hasNext E removed).cached.isSome,c.hasNext E removed)
  next c := c.next E removed
  reset c := c.reset E
  left := left E removed
  size c := E.size c.base+c.inserts.length+2
  length_le c := by
    have hle : (kept removed (E.left c.base)).length ≤ E.size c.base :=
      (length_filter_le _ _).trans (E.length_le c.base)
    rw [left,mergeRows,length_append,(merge_perm_append _).length_eq]
    cases c.cached <;> cases c.candidate <;> simp <;> omega
  hasNext_fst c := by
    obtain ⟨hleft,hnone⟩ := hasNext_spec E removed c
    cases h : (c.hasNext E removed).cached with
    | none => simp [hnone h]
    | some r =>
      rw [← hleft,left,h]
      rfl
  hasNext_snd c := (hasNext_spec E removed c).1
  next_nil c h := by
    rw [← (hasNext_spec E removed c).1,left,append_eq_nil_iff,toList_eq_nil_iff] at h
    rw [next,h.1,map_none]
  next_cons c r l h := by
    obtain ⟨hleft,hnone⟩ := hasNext_spec E removed c
    cases hc : (c.hasNext E removed).cached with
    | none => simp [hnone hc] at h
    | some x =>
      obtain ⟨rfl,rfl⟩ : x = r ∧ _ = l := cons.inj (by simpa [left,hc] using hleft.trans h)
      exact ⟨_,by rw [next,hc]; rfl,rfl⟩

inductive Call
  | hasNext | next

def system (E : Enumerator β) (removed : RowId → Bool) (base : β) (inserts : List RowId) :
    System (MergedCursor β) Call where
  init c := c = create base inserts
  step
    | c, .hasNext => some (c.hasNext E removed)
    | c, .next => (c.next E removed).map Prod.snd

variable {base : β} {inserts : List RowId}

structure Inv (E : Enumerator β) (removed : RowId → Bool) (base : β) (inserts : List RowId)
    (c : MergedCursor β) : Prop where
  below : c.candidate.toList++kept removed (E.left c.base) ⊆ E.left base
  staged : c.inserts ⊆ inserts
  lower : ∀ r ∈ c.cached, r ∉ inserts → ∀ i ∈ c.inserts.head?, r < i

theorem Inv.pick (h : Inv E removed base inserts c) : Inv E removed base inserts c.pick := by
  obtain ⟨hbelow,hstaged,hlower⟩ := h
  obtain ⟨b,ins,candidate,cached⟩ := c
  rcases candidate with _ | r <;> rcases ins with _ | ⟨i,ins⟩
  all_goals
    simp only [MergedCursor.pick]
    try split_ifs
    all_goals constructor <;> grind

theorem Inv.hasNext (h : Inv E removed base inserts c) :
    Inv E removed base inserts (c.hasNext E removed) := by
  unfold MergedCursor.hasNext prefetch
  split_ifs
  · exact h
  · cases hcand : c.candidate with
    | some r => exact h.pick
    | none =>
      have hbelow := h.below
      rw [hcand,toList_none,nil_append,← (seek_spec removed _ _ (E.length_le c.base)).1] at hbelow
      exact Inv.pick {h with below := hbelow}

theorem Inv.reachable (h : Reachable (system E removed base inserts) c) :
    Inv E removed base inserts c := by
  obtain ⟨_,rfl,hrun⟩ := h
  refine hrun.invariant (fun c a c' _ hc hstep => ?_)
    ⟨filter_subset_self _,by simp [create],nofun⟩
  cases a with
  | hasNext => exact some.inj hstep ▸ hc.hasNext
  | next =>
    obtain ⟨p,hp,rfl⟩ := map_eq_some_iff.mp hstep
    obtain ⟨r,-,rfl⟩ := map_eq_some_iff.mp hp
    exact {hc.hasNext with lower := nofun}

theorem mergeRows_filter {p : RowId → Bool} {l m : List RowId} (hl : ∀ r ∈ l, p r = false)
    (hm : ∀ i ∈ m, p i = true) :
    (mergeRows l m).filter p = m ∧ (mergeRows l m).filter (fun r => !p r) = l := by
  unfold mergeRows
  fun_induction merge l m (fun r i => decide (r < i)) <;> grind [filter_eq_self,filter_eq_nil_iff]

theorem mergeRows_cons_right {i : RowId} {l m : List RowId} (h : ∀ r ∈ l.head?, ¬r < i) :
    mergeRows l (i::m) = i::mergeRows l m := by
  cases l with
  | nil => simp [mergeRows]
  | cons r l => simp [mergeRows,h r rfl]

theorem mergeRows_cons_left {r : RowId} {l m : List RowId} (h : ∀ i ∈ m.head?, r < i) :
    mergeRows (r::l) m = r::mergeRows l m := by
  cases m with
  | nil => simp [mergeRows]
  | cons i m => simp [mergeRows,h i rfl]

/-- The rows ahead, as long as none below is staged: what is held back must be the staged row or
the row below that came first. -/
theorem left_eq_iff {l n m staged : List RowId} {x : Option RowId}
    (hl : ∀ r ∈ l++n, r ∉ staged) (hm : m ⊆ staged)
    (hx : ∀ r ∈ x, r ∉ staged → ∀ i ∈ m.head?, r < i) :
    x.toList++mergeRows l m = mergeRows n staged ↔
      m = staged ∧ x.toList++l = n ∨
      ∃ i, x = some i ∧ i::m = staged ∧ l = n ∧ ∀ r ∈ l.head?, ¬r < i := by
  have hrows := mergeRows_filter (p := (decide <| · ∈ staged)) (l := l) (m := m) (by simp_all)
    fun i hi => decide_eq_true (hm hi)
  have hrows' := mergeRows_filter (p := (decide <| · ∈ staged)) (l := n) (m := staged)
    (by simp_all) (by simp)
  constructor
  · intro heq
    have hin := congrArg (filter (decide <| · ∈ staged)) heq
    have hout := congrArg (filter (fun r => !decide (r ∈ staged))) heq
    rw [filter_append,hrows.1,hrows'.1] at hin
    rw [filter_append,hrows.2,hrows'.2] at hout
    cases x with
    | none => exact .inl ⟨hin,hout⟩
    | some x =>
      by_cases hmem : x ∈ staged
      · simp only [toList_some,filter_cons,hmem,decide_true,if_true,filter_nil,Bool.not_true,
          Bool.false_eq_true,if_false,nil_append,cons_append] at hin hout
        subst hout
        refine .inr ⟨x,rfl,hin,rfl,fun r hr hlt => ?_⟩
        obtain ⟨l,rfl⟩ : ∃ l', l = r::l' := ⟨_,eq_cons_of_mem_head? hr⟩
        rw [← hin,mergeRows_cons_left (m := x::m) (by simpa using hlt)] at heq
        exact hl r (by simp) ((cons.inj heq).1 ▸ hmem)
      · simp only [toList_some,filter_cons,hmem,decide_false,if_true,filter_nil,Bool.not_false,
          Bool.false_eq_true,if_false,nil_append,cons_append] at hin hout
        exact .inl ⟨hin,hout⟩
  · rintro (⟨rfl,rfl⟩ | ⟨i,rfl,rfl,rfl,hfirst⟩)
    · cases x with
      | none => rfl
      | some x => exact (mergeRows_cons_left (hx x rfl (hl x (by simp)))).symm
    · exact (mergeRows_cons_right hfirst).symm

def Restarts (E : Enumerator β) (removed : RowId → Bool) (base : β) (inserts : List RowId)
    (c : MergedCursor β) : Prop :=
  ∀ n, (c.reset E).map ((enumerator E removed).take n) =
    some ((enumerator E removed).take n (create base inserts))

theorem restarts_iff_left : c.Restarts E removed base inserts ↔
    (c.reset E).map (left E removed) = some (left E removed (create base inserts)) := by
  unfold Restarts
  cases c.reset E with
  | none => simp
  | some c' =>
    simp only [map_some,some.injEq,Enumerator.take_eq]
    refine ⟨fun heq => ?_,fun heq n => congrArg (List.take n) heq⟩
    have hall := heq ((left E removed c').length+(left E removed (create base inserts)).length)
    exact (take_of_length_le (Nat.le_add_right _ _)).symm.trans
      (hall.trans (take_of_length_le (Nat.le_add_left _ _)))

theorem restarts_iff (h : Reachable (system E removed base inserts) c)
    (hnew : ∀ r ∈ E.left base, r ∉ inserts)
    (hagain : ∀ b ∈ E.reset c.base, ∀ r ∈ E.left b, r ∉ inserts) :
    c.Restarts E removed base inserts ↔
    ∃ b ∈ E.reset c.base, let rows := c.candidate.toList++kept removed (E.left b);
      c.inserts = inserts ∧ c.cached.toList++rows = kept removed (E.left base) ∨
      ∃ i, c.cached = some i ∧ i::c.inserts = inserts ∧ rows = kept removed (E.left base) ∧
        ∀ r ∈ rows.head?, ¬r < i := by
  obtain ⟨hbelow,hstaged,hlower⟩ := Inv.reachable h
  rw [restarts_iff_left]
  cases hb : E.reset c.base with
  | none => simp [reset,hb]
  | some b =>
    have hkept : ∀ {l : List RowId}, (∀ r ∈ l, r ∉ inserts) → ∀ r ∈ kept removed l, r ∉ inserts :=
      fun hl r hr => hl r (mem_of_mem_filter hr)
    have hiff := left_eq_iff (l := c.candidate.toList++kept removed (E.left b))
      (n := kept removed (E.left base)) (by
        intro r hr
        rcases mem_append.mp hr with hr | hr
        · rcases mem_append.mp hr with hr | hr
          · exact hnew r (hbelow (mem_append_left _ hr))
          · exact hkept (hagain b hb) r hr
        · exact hkept hnew r hr) hstaged hlower
    simpa [reset,hb,left,create] using hiff

/-- A cursor on a table starts again after `reset` if and only if that of the table rewinds, no row
of the table is held back, and no staged row is gone, except that the first one may be prefetched
when it is the first of all. On any other cursor, the rows held back and those that it gives after
its own `reset` must be those that it gave at first. -/
theorem reset_restarts (removed : RowId → Bool) (inserts : List RowId) :
    (∀ rewinds rows c, let E := tableCursor rewinds rows
      Reachable (system E removed rows inserts) c → (∀ r ∈ rows, r ∉ inserts) →
      (c.Restarts E removed rows inserts ↔
      rewinds = true ∧ c.candidate = none ∧ (c.cached = none ∧ c.inserts = inserts ∨
        ∃ i, c.cached = some i ∧ i::c.inserts = inserts ∧
          ∀ r ∈ (kept removed rows).head?, ¬r < i))) ∧
    ∀ (β : Type) (E : Enumerator β) base c, Reachable (system E removed base inserts) c →
      (∀ r ∈ E.left base, r ∉ inserts) → (∀ b ∈ E.reset c.base, ∀ r ∈ E.left b, r ∉ inserts) →
      (c.Restarts E removed base inserts ↔
      ∃ b ∈ E.reset c.base, let rows := c.candidate.toList++kept removed (E.left b);
        c.inserts = inserts ∧ c.cached.toList++rows = kept removed (E.left base) ∨
        ∃ i, c.cached = some i ∧ i::c.inserts = inserts ∧ rows = kept removed (E.left base) ∧
          ∀ r ∈ rows.head?, ¬r < i) := by
  refine ⟨?_,fun β E base c h hnew hagain => restarts_iff h hnew hagain⟩
  intro rewinds rows c E h hnew
  cases rewinds with
  | false =>
    rw [restarts_iff h hnew (by simp [E,tableCursor])]
    simp [E,tableCursor]
  | true =>
    have hreset : E.reset c.base = some rows := rfl
    rw [restarts_iff h hnew (by rintro _ hb; cases hreset.symm.trans hb; exact hnew),hreset]
    simp only [E,tableCursor,mem_def,some.injEq,exists_eq_left',true_and,id]
    cases c.candidate <;> cases c.cached <;> simp
    exact fun _ h => absurd (congrArg length h) (by grind)

theorem reset_restarts_prefetched :
    (after (system (tableCursor true [1]) (· = 1) [1] [2]) (fun _ _ => True) (create [1] [2])
      [.hasNext]).Restarts (tableCursor true [1]) (· = 1) [1] [2] ∧
    let E := enumerator (tableCursor true []) fun _ => false
    (after (system E (fun _ => false) (create [] [5]) []) (fun _ _ => True)
      (create (create [] [5]) []) [.hasNext]).Restarts E (fun _ => false) (create [] [5]) [] := by
  constructor
  · refine ((reset_restarts (· = 1) [2]).1 true [1] _ ⟨_,rfl,run_after _ _⟩ (by decide)).mpr ?_
    exact ⟨rfl,rfl,.inr ⟨2,rfl,rfl,by simp [kept]⟩⟩
  · refine ((reset_restarts (fun _ => false) []).2 _ _ _ _ ⟨_,rfl,run_after _ _⟩ (by simp)
      (by simp)).mpr ?_
    refine ⟨create [] [],rfl,.inl ⟨rfl,?_⟩⟩
    change 5::kept _ (left (tableCursor true []) _ (create [] [])) =
      kept _ (left (tableCursor true []) _ (create [] [5]))
    simp [left,create,tableCursor,mergeRows,kept]

/-- A staged row that was returned does not come again, a row that was prefetched comes twice, and
a snapshot table ends the process. -/
theorem reset_continues : let kept := fun _ => false
    let E := tableCursor true [1]
    ((create [1] [0]).next E kept).bind (fun p =>
      (p.2.reset E).map ((enumerator E kept).take 3)) = some [1,1] ∧
    (((create [1] []).hasNext E kept).reset E).map ((enumerator E kept).take 3) = some [1,1] ∧
    ((create [1] []).reset (tableCursor false [1])).isNone :=
  ⟨rfl,rfl,rfl⟩

end MergedCursor

structure AnyCursor where
  {State : Type}
  enumerator : Enumerator State
  state : State

def AnyCursor.rows (c : AnyCursor) : List RowId :=
  c.enumerator.take (c.enumerator.size c.state) c.state

/-- The staged inserts for a table, in the order of `inserts_`, and the removed rows. -/
structure Level where
  inserts : List RowId
  removed : RowId → Bool

def Order.le (key : RowId → List Value) : Order → RowId → RowId → Prop
  | .desc, a, b => keyRank (key b) ≤ keyRank (key a)
  | _, a, b => keyRank (key a) ≤ keyRank (key b)

theorem Order.le_trans {key : RowId → List Value} {o : Order} {a b c : RowId}
    (hab : o.le key a b) (hbc : o.le key b c) : o.le key a c := by
  cases o with
  | desc => exact LE.le.trans hbc hab
  | _ => exact LE.le.trans hab hbc

namespace Level

open MergedCursor

variable (key : RowId → List Value) (table : List RowId) (q : Query) (o : Order)

/-- The cursor of a query through nested transactions, the innermost first. -/
def query : List Level → Option AnyCursor
  | [] => (sortedRows key table q o).map fun rows => ⟨tableCursor true rows,rows⟩
  | L::base =>
    (query base).bind fun cursor =>
      (sortedRows key L.inserts q o).map fun inserts =>
        ⟨MergedCursor.enumerator cursor.enumerator L.removed,.create cursor.state inserts⟩

/-- Of two rows that the cursor compares, the one it takes does not come behind the other in the
order `R`. Rows hidden above do not count. -/
def Agrees (R : RowId → RowId → Prop) (hidden : RowId → Bool) : List RowId → List RowId → Prop
  | r::cursor, i::inserts =>
    if r < i then
      (hidden r = false → ∀ j ∈ (i::inserts).find? (!hidden ·), R r j) ∧
        Agrees R hidden cursor (i::inserts)
    else
      (hidden i = false → ∀ j ∈ (r::cursor).find? (!hidden ·), R i j) ∧
        Agrees R hidden (r::cursor) inserts
  | _, _ => True
termination_by cursor inserts => cursor.length+inserts.length

/-- The comparisons of all the cursors, each with the rows that are removed above it. -/
def InStep : (RowId → Bool) → List Level → Prop
  | _, [] => True
  | hidden, L::base => InStep (fun r => L.removed r || hidden r) base ∧
      ∀ cursor ∈ query key table q o base, ∀ inserts ∈ sortedRows key L.inserts q o,
        Agrees (o.le key) hidden (kept L.removed cursor.rows) inserts

variable {key table q o} {l : List RowId} {R : RowId → RowId → Prop} {hidden : RowId → Bool}

theorem rows_create {β : Type} (E : Enumerator β) (removed : RowId → Bool) (b : β)
    (inserts : List RowId) : AnyCursor.rows ⟨MergedCursor.enumerator E removed,.create b inserts⟩ =
      mergeRows (kept removed (AnyCursor.rows ⟨E,b⟩)) inserts := by
  simp only [AnyCursor.rows,Enumerator.take_size]
  rfl

/-- In a list in order, what is before the first is before all. -/
theorem forall_mem_iff_head? (htrans : ∀ a b c, R a b → R b c → R a c) {x : RowId}
    (hl : (kept hidden l).Pairwise R) :
    (∀ y ∈ kept hidden l, R x y) ↔ ∀ j ∈ l.find? (!hidden ·), R x j := by
  rw [← head?_filter]
  change _ ↔ ∀ j ∈ (kept hidden l).head?, R x j
  cases hk : kept hidden l with
  | nil => simp
  | cons y l =>
    rw [hk] at hl
    simp only [head?_cons,mem_def,some.injEq,forall_eq',mem_cons,forall_eq_or_imp,and_iff_left_iff_imp]
    exact fun hxy z hz => htrans _ _ _ hxy ((pairwise_cons.mp hl).1 z hz)

theorem kept_mergeRows_forall {P : RowId → Prop} (l m : List RowId) :
    (∀ y ∈ kept hidden (mergeRows l m), P y) ↔
      (∀ y ∈ kept hidden l, P y) ∧ ∀ y ∈ kept hidden m, P y := by
  simp only [kept,mergeRows,mem_filter,mem_merge]
  grind

theorem mergeRows_pairwise_iff (htrans : ∀ a b c, R a b → R b c → R a c) (l m : List RowId) :
    (kept hidden (mergeRows l m)).Pairwise R ↔ (kept hidden l).Pairwise R ∧
      (kept hidden m).Pairwise R ∧ Agrees R hidden l m := by
  have hskip : ∀ {x l}, hidden x = true → kept hidden (x::l) = kept hidden l := fun h =>
    filter_cons_of_neg (by simp [h])
  have hkeep : ∀ {x l}, hidden x = false → kept hidden (x::l) = x::kept hidden l := fun h =>
    filter_cons_of_pos (by simp [h])
  have hhead : ∀ x l, (kept hidden l).Pairwise R → ((∀ y ∈ kept hidden l, R x y) ↔
      ∀ j ∈ l.find? (!hidden ·), R x j) := fun x l hl => forall_mem_iff_head? htrans hl
  fun_induction Agrees R hidden l m with
  | case1 r l i m hlt ih =>
    rw [mergeRows_cons_left (by simpa using hlt)]
    cases hr : hidden r with
    | true => simp [hskip hr,ih]
    | false =>
      have hhead := hhead r (i::m)
      simp only [hkeep hr,pairwise_cons,ih,kept_mergeRows_forall]
      grind
  | case2 r l i m hlt ih =>
    rw [mergeRows_cons_right (by simpa using hlt)]
    cases hi : hidden i with
    | true => simp [hskip hi,ih]
    | false =>
      have hhead := hhead i (r::l)
      simp only [hkeep hi,pairwise_cons,ih,kept_mergeRows_forall]
      grind
  | case3 l m h =>
    cases l with
    | nil => simp [mergeRows,kept]
    | cons r l =>
      cases m with
      | nil => simp [mergeRows,kept]
      | cons i m => exact absurd rfl (h r l i m rfl)

theorem sortedRows_pairwise (hq : ∀ k, q ≠ .key k) (hallowed : q.allowed .sorted = true)
    (hl : Multimap.Sorted (fun r => keyRank (key r)) l ∧ ∀ k ∈ q.keys, Comparable key l k) :
    ∃ rows, sortedRows key l q o = some rows ∧ rows.Pairwise (o.le key) := by
  have hasc := sortedRows_asc hl.1 hallowed hl.2
  have hpair := hl.1.filter fun r => q.selects (key r)
  cases o with
  | asc => exact ⟨_,hasc,hpair⟩
  | any => exact ⟨_,.trans (by cases q <;> rfl) hasc,hpair⟩
  | desc => exact ⟨_,(sortedRows_desc key hq).trans (congrArg _ hasc),pairwise_reverse.mpr hpair⟩

theorem query_pairwise_iff (levels : List Level) (hq : ∀ k, q ≠ .key k)
    (hallowed : q.allowed .sorted = true)
    (hl : ∀ l ∈ table::levels.map inserts, Multimap.Sorted (fun r => keyRank (key r)) l ∧
      ∀ k ∈ q.keys, Comparable key l k) : ∃ c, query key table q o levels = some c ∧
      ∀ hidden, (kept hidden c.rows).Pairwise (o.le key) ↔ InStep key table q o hidden levels := by
  induction levels with
  | nil =>
    obtain ⟨rows,hrows,hpair⟩ := sortedRows_pairwise (o := o) hq hallowed (hl table mem_cons_self)
    refine ⟨_,congrArg _ hrows,fun hidden => iff_of_true ?_ trivial⟩
    rw [AnyCursor.rows,Enumerator.take_size]
    exact hpair.filter _
  | cons L base ih =>
    obtain ⟨c,hc,hiff⟩ := ih (by grind)
    obtain ⟨staged,hstaged,hpair⟩ :=
      sortedRows_pairwise (o := o) hq hallowed (hl L.inserts (by simp))
    refine ⟨_,by rw [query,hc,bind_some,hstaged]; rfl,fun hidden => ?_⟩
    have hkept : kept hidden (kept L.removed c.rows) =
        kept (fun r => L.removed r || hidden r) c.rows := by
      simp [kept,List.filter_filter,Bool.and_comm]
    rw [rows_create,mergeRows_pairwise_iff (R := o.le key) fun _ _ _ => Order.le_trans,hkept,hiff,
      InStep,hc,hstaged]
    simp [hpair.filter,kept]

/-- A query enumerates its rows in order if and only if each cursor takes, of the two rows that it
compares, one that does not come behind the other. -/
theorem query_ordered (key : RowId → List Value) (table : List RowId) (levels : List Level)
    (q : Query) (o : Order) (hq : ∀ k, q ≠ .key k) (hallowed : q.allowed .sorted = true)
    (hl : ∀ l ∈ table::levels.map inserts, Multimap.Sorted (fun r => keyRank (key r)) l ∧
      ∀ k ∈ q.keys, Comparable key l k) : ∃ c, query key table q o levels = some c ∧
      (c.rows.Pairwise (o.le key) ↔ InStep key table q o (fun _ => false) levels) := by
  obtain ⟨c,hc,hiff⟩ := query_pairwise_iff levels hq hallowed hl
  refine ⟨c,hc,?_⟩
  rw [← hiff,kept]
  simp

theorem query_ordered_nested : let key := fun r =>
      [.i32 (if r = 10 then 2#32 else if r = 20 then 3#32 else if r = 1 then 4#32 else 5#32)];
    let levels := [⟨[30],(· = 20)⟩,⟨[10],fun _ => false⟩];
    InStep key [20,1] (.gt [.i32 0#32]) .asc (fun _ => false) levels ∧
      (query key [20,1] (.gt [.i32 0#32]) .asc levels).map AnyCursor.rows = some [10,1,30] := by
  intro key levels
  have hrows : (query key [20,1] (.gt [.i32 0#32]) .asc levels).map AnyCursor.rows =
      some [10,1,30] := by decide +kernel
  obtain ⟨c,hc,hiff⟩ := query_ordered key [20,1] levels (.gt [.i32 0#32]) .asc nofun rfl
    (fun l hl => by
      constructor
      · revert l
        unfold Multimap.Sorted
        decide +kernel
      · intro k hk
        obtain rfl := mem_singleton.mp hk
        exact ⟨rfl,by revert l; decide +kernel⟩)
  rw [hc,map_some,some.injEq] at hrows
  refine ⟨hiff.mp ?_,by rw [hc,map_some,hrows]⟩
  rw [hrows]
  change [10,1,30].Pairwise fun a b => keyRank (key a) ≤ keyRank (key b)
  decide +kernel

/-- The staged row with the greater key is at the lower address. -/
theorem query_unordered : (query (fun r => [.i32 (.ofNat 32 (2-r))]) [1] .all .asc
    [⟨[0],fun _ => false⟩]).map AnyCursor.rows = some [0,1] ∧
      keyLt [.i32 1#32] [.i32 2#32] = true := by
  decide +kernel

end Level
/-! ### The order of `inserts_` -/

structure TableRowPair where
  table : TableId
  key : List Value
  row : RowId
  deriving DecidableEq

namespace TableRowPair

def lt (e x : TableRowPair) : Bool :=
  if e.table = x.table then keyLt e.key x.key else e.table < x.table

def Comparable (kinds : TableId → List Kind) (e : TableRowPair) : Prop :=
  e.key.map Value.kind = kinds e.table ∧ keyOrdered e.key

instance (kinds : TableId → List Kind) (e : TableRowPair) : Decidable (Comparable kinds e) :=
  inferInstanceAs (Decidable (_ ∧ _))

def rank (e : TableRowPair) : TableId ×ₗ List (List ℤ) := toLex (e.table,keyRank e.key)

theorem lt_iff {kinds : TableId → List Kind} {e x : TableRowPair} (he : e.Comparable kinds)
    (hx : x.Comparable kinds) : e.lt x = true ↔ e.rank < x.rank := by
  rw [lt,rank,rank,Prod.Lex.toLex_lt_toLex]
  split_ifs with h
  · rw [keyLt_iff (by rw [he.1,hx.1,h]) he.2 hx.2]
    simp [h]
  · simp [h]

end TableRowPair

abbrev Inserts := List TableRowPair

namespace Inserts

/-- What a change of a column makes of the key of a staged row is given. -/
inductive Change
  | insertRow (table : TableId) (row : RowId) (key : List Value)
  | writeColumn (row : RowId) (key : List Value)
  | removeRow (table : TableId) (row : RowId)

def insert (e : TableRowPair) : Inserts → Inserts
  | [] => [e]
  | x::l => if e.lt x then e::x::l else x::insert e l

def range (l : Inserts) (e : TableRowPair) : Inserts :=
  let lower := (l.takeWhile fun x => x.lt e).length
  (l.drop lower).take ((l.takeWhile fun x => !e.lt x).length-lower)

def query (l : Inserts) (t : TableId) (k : List Value) : Inserts := l.range ⟨t,k,0⟩

/-- The sweep of the range for the row, which is released: staged once more it would leave an entry
of a deleted row. One not found goes to `removes_`. -/
def removeRow (l : Inserts) (t : TableId) (row : RowId) : Option Inserts :=
  match l.find? (·.row = row) with
  | none => some l
  | some e =>
    if ⟨t,e.key,row⟩ ∈ l.range ⟨t,e.key,row⟩ then
      let l := l.erase ⟨t,e.key,row⟩
      if ∃ x ∈ l, x.row = row then none else some l
    else some l

def system (kinds : TableId → List Kind) : System Inserts Change where
  init l := l = []
  step l
    | .insertRow t row k =>
      if TableRowPair.Comparable kinds ⟨t,k,row⟩ ∧ ∀ e ∈ l, e.row = row → e.key = k then
        some (l.insert ⟨t,k,row⟩) else none
    | .writeColumn row k =>
      if ∀ e ∈ l, e.row = row → TableRowPair.Comparable kinds {e with key := k} then
        some (l.map fun e => if e.row = row then {e with key := k} else e) else none
    | .removeRow t row => l.removeRow t row

/-- A row is staged once, and its key is not written. -/
def KeepsKey (l : Inserts) : Change → Prop
  | .insertRow _ row _ => ∀ e ∈ l, e.row ≠ row
  | .writeColumn row k => ∀ e ∈ l, e.row = row → e.key = k
  | .removeRow .. => True

instance (l : Inserts) (a : Change) : Decidable (KeepsKey l a) := by
  cases a <;> unfold KeepsKey <;> infer_instance

structure Searchable (kinds : TableId → List Kind) (l : Inserts) : Prop where
  sorted : Multimap.Sorted TableRowPair.rank l
  keys : ∀ e ∈ l, e.Comparable kinds
  once : (l.map TableRowPair.row).Nodup

namespace Searchable

variable {kinds : TableId → List Kind} {l l' : Inserts} {e : TableRowPair}

theorem range_eq (h : Searchable kinds l) (he : e.Comparable kinds) :
    l.range e = l.filter fun x => x.rank = e.rank := by
  have hlt : ∀ x ∈ l, (x.lt e = true ↔ x.rank < e.rank) ∧ (e.lt x = true ↔ e.rank < x.rank) :=
    fun x hx => ⟨TableRowPair.lt_iff (h.keys x hx) he,TableRowPair.lt_iff he (h.keys x hx)⟩
  refine (Multimap.take_drop_takeWhile (h.sorted.imp_of_mem fun ha hb hab => ?_)
    (h.sorted.imp_of_mem fun ha hb hab => ?_) fun x hx => ?_).2.trans (filter_congr fun x hx => ?_)
  · rw [(hlt _ ha).1,(hlt _ hb).1]
    exact lt_of_le_of_lt hab
  · have hna := (hlt _ ha).2
    have hnb := (hlt _ hb).2
    grind
  · have hx := hlt x hx
    grind
  · have hx := hlt x hx
    grind

theorem eq_of_row (h : Searchable kinds l) {x : TableRowPair} (hx : x ∈ l) (he : e ∈ l)
    (hrow : x.row = e.row) : x = e := inj_on_of_nodup_map h.once hx he hrow

theorem removeRow_eq (h : Searchable kinds l) (he : e ∈ l) :
    l.removeRow e.table e.row = some (l.erase e) := by
  unfold removeRow
  cases hfind : l.find? (·.row = e.row) with
  | none => simpa using find?_eq_none.mp hfind e he
  | some x =>
    obtain rfl := h.eq_of_row (mem_of_find?_eq_some hfind) he (by simpa using find?_some hfind)
    have hrange : x ∈ l.range x := by simpa [h.range_eq (h.keys x he)] using he
    have hlast : ¬∃ y ∈ l.erase x, y.row = x.row := by
      rintro ⟨y,hy,hrow⟩
      obtain ⟨hne,hmem⟩ := h.once.of_map.mem_erase_iff.mp hy
      exact hne (h.eq_of_row hmem he hrow)
    exact (if_pos hrange).trans (if_neg hlast)

theorem insert_perm (e : TableRowPair) (l : Inserts) : (l.insert e).Perm (e::l) := by
  induction l with
  | nil => rfl
  | cons x l ih =>
    rw [Inserts.insert]
    split_ifs
    · rfl
    · exact (ih.cons x).trans (.swap e x l)

theorem insert_eq (h : Searchable kinds l) (he : e.Comparable kinds) :
    l.insert e = Multimap.insert TableRowPair.rank e l := by
  have hkeys := h.keys
  clear h
  induction l with
  | nil => rfl
  | cons x l ih =>
    rw [Inserts.insert,Multimap.insert,ih (by grind)]
    simp only [TableRowPair.lt_iff he (hkeys x mem_cons_self)]

theorem step (a : Change) (ha : KeepsKey l a) (h : Searchable kinds l)
    (hs : (system kinds).step l a = some l') : Searchable kinds l' := by
  cases a with
  | insertRow t row k =>
    simp only [system,Option.ite_none_right_eq_some,Option.some.injEq] at hs
    obtain ⟨⟨hk,-⟩,rfl⟩ := hs
    refine ⟨h.insert_eq hk ▸ h.sorted.insert _,fun e he => ?_,?_⟩
    · rcases mem_cons.mp ((insert_perm _ l).mem_iff.mp he) with rfl | he
      exacts [hk,h.keys e he]
    · rw [((insert_perm _ l).map _).nodup_iff]
      refine nodup_cons.mpr ⟨fun hrow => ?_,h.once⟩
      obtain ⟨e,he,hrow⟩ := mem_map.mp hrow
      exact ha e he hrow
  | writeColumn row k =>
    have hid : (l.map fun e => if e.row = row then {e with key := k} else e) = l := by
      conv_rhs => rw [← map_id l]
      refine map_congr_left fun e he => ?_
      split_ifs with hr
      · rw [← ha e he hr,id]
      · rfl
    simp only [system,Option.ite_none_right_eq_some,Option.some.injEq,hid] at hs
    exact hs.2 ▸ h
  | removeRow t row =>
    have hsub : l'.Sublist l := by
      simp only [system,removeRow] at hs
      grind [erase_sublist]
    exact ⟨h.sorted.sublist hsub,fun e he => h.keys e (hsub.subset he),h.once.sublist (hsub.map _)⟩

end Searchable

/-- If no row is staged twice and no key of a staged row changed, `inserts_` is ordered by table
and key, a query by key finds the rows of the table with that key, and `remove_row` finds every
row. -/
theorem staged_searchable (kinds : TableId → List Kind) (l : Inserts)
    (h : ReachableBy (system kinds) KeepsKey l) : Multimap.Sorted TableRowPair.rank l ∧
      (∀ t k, k.map Value.kind = kinds t → keyOrdered k →
        l.query t k = l.filter fun e => e.table = t ∧ keyRank e.key = keyRank k) ∧
      ∀ e ∈ l, l.removeRow e.table e.row = some (l.erase e) := by
  obtain ⟨_,rfl,hrun⟩ := h
  have hs : Searchable kinds l := hrun.invariant (fun _ a _ ha h hs => h.step a ha hs)
    ⟨Pairwise.nil,nofun,nodup_nil⟩
  refine ⟨hs.sorted,fun t k hk hord => ?_,fun e he => hs.removeRow_eq he⟩
  rw [query,hs.range_eq ⟨hk,hord⟩]
  simp [TableRowPair.rank]

theorem staged_searchable_two : let l := after (system fun _ => [.I32]) KeepsKey [] [.insertRow 1 0 [.i32 2#32],
      .insertRow 1 1 [.i32 1#32],.insertRow 0 2 [.i32 3#32],.writeColumn 1 [.i32 1#32]];
    l = [⟨0,[.i32 3#32],2⟩,⟨1,[.i32 1#32],1⟩,⟨1,[.i32 2#32],0⟩] ∧
      l.removeRow 1 0 = some [⟨0,[.i32 3#32],2⟩,⟨1,[.i32 1#32],1⟩] := by
  have h := staged_searchable (fun _ => [.I32]) (after (system fun _ => [.I32]) KeepsKey [] [.insertRow 1 0 [.i32 2#32],
      .insertRow 1 1 [.i32 1#32],.insertRow 0 2 [.i32 3#32],.writeColumn 1 [.i32 1#32]]) ⟨_,rfl,run_after _ _⟩
  exact ⟨by decide +kernel,h.2.2 ⟨1,[.i32 2#32],0⟩ (by decide +kernel)⟩

/-- After the key 1 of a staged row is overwritten with 3, the row with key 2 is neither found nor
removed, and is returned for the key 3. A row staged twice is deleted with an entry left. -/
theorem staged_lost : let l := after (system fun _ => [.I32]) (fun _ _ => True) [] [.insertRow 0 0 [.i32 1#32],
      .insertRow 0 1 [.i32 2#32],.writeColumn 0 [.i32 3#32]];
    let twice := after (system fun _ => [.I32]) (fun _ _ => True) [] [.insertRow 0 0 [.i32 1#32],
      .insertRow 0 0 [.i32 1#32]];
    (l = [⟨0,[.i32 3#32],0⟩,⟨0,[.i32 2#32],1⟩] ∧ l.query 0 [.i32 2#32] = [] ∧
      l.query 0 [.i32 3#32] = l ∧ l.removeRow 0 1 = some l) ∧
    twice = [⟨0,[.i32 1#32],0⟩,⟨0,[.i32 1#32],0⟩] ∧ twice.removeRow 0 0 = none := by
  decide +kernel

end Inserts
end Janus.Memdb
