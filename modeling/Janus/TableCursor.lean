import Janus.IndexedCoherence

/-! Cursors of sorted tables and of their indices (`SortedTable::Cursor`, `Index::Cursor`). An
iterator of a multimap is a position in its entries; a reverse iterator stands for the entry before
it. -/
namespace Janus.Memdb

open Transition List

inductive Order
  | asc | desc | any
  deriving DecidableEq

structure Cursor where
  reverse : Bool
  next : ℕ
  stop : ℕ

section Multimap

variable {α : Type} (key : α → List Value) (l : List α)

def lowerBound (k : List Value) : ℕ := (l.takeWhile fun e => keyLt (key e) k).length

def upperBound (k : List Value) : ℕ := (l.takeWhile fun e => !keyLt k (key e)).length

namespace Cursor

def advance (c : Cursor) : Option (α × Cursor) :=
  if c.reverse then
    match c.next with
    | 0 => none
    | i+1 => l[i]?.map fun e => (e,{c with next := i})
  else l[c.next]?.map fun e => (e,{c with next := c.next+1})

def drain : ℕ → Cursor → Option (List α)
  | 0, c => if c.next = c.stop then some [] else none
  | n+1, c =>
    if c.next = c.stop then some []
    else (c.advance l).bind fun p => (drain n p.2).map (p.1::·)

def rows (c : Cursor) : Option (List α) := c.drain l l.length

end Cursor

def bounds : Query → ℕ × ℕ
  | .key k => (lowerBound key l k,upperBound key l k)
  | .lt k => (0,lowerBound key l k)
  | .gt k => (upperBound key l k,l.length)
  | .between low high => (upperBound key l low,lowerBound key l high)
  | .all => (0,l.length)

/-- Bounds can be found only for keys that compare with those of the entries. -/
def Findable (q : Query) : Prop := q.keys ≠ [] → ∀ k ∈ q.keys++l.map key, keyOrdered k = true

instance (q : Query) : Decidable (Findable key l q) := inferInstanceAs (Decidable (_ → _))

/-- `SortedTable::all`, `query`, `query_lt`, `query_gt` and `query_in`; `query` has no order. -/
def sortedCursor (q : Query) (o : Order) : Option Cursor :=
  if q.allowed .sorted = false ∨ ¬Findable key l q then none
  else
    match q,o with
    | .key _,_ | _,.asc | _,.any => some ⟨false,(bounds key l q).1,(bounds key l q).2⟩
    | _,.desc => some ⟨true,(bounds key l q).2,(bounds key l q).1⟩

def sortedRows (q : Query) (o : Order) : Option (List α) :=
  (sortedCursor key l q o).bind fun c => c.rows l

end Multimap

namespace IndexedTable

/-- The queries of an `Index`: `all` does not pass its order on. -/
def indexEntries (s : IndexedTable) (i : ℕ) (q : Query) (o : Order) : Option (List IndexRow) :=
  match q with
  | .all => sortedRows IndexRow.key (s.index i) .all .asc
  | q => sortedRows IndexRow.key (s.index i) q o

def indexRows (s : IndexedTable) (i : ℕ) (q : Query) (o : Order) : Option (List RowId) :=
  (s.indexEntries i q o).bind fun l => l.mapM fun e => (s.masters e.master).map Master.back

end IndexedTable

section Mirror

variable {α : Type} {l : List α}

namespace Cursor

theorem drain_forward (n a b : ℕ) (hn : b ≤ a+n) (hb : b ≤ l.length) :
    drain l n ⟨false,a,b⟩ = if a ≤ b then some ((l.drop a).take (b-a)) else none := by
  induction n generalizing a with
  | zero =>
    by_cases hab : a = b
    · simp [drain,hab]
    · rw [drain,if_neg hab,if_neg (by omega)]
  | succ n ih =>
    by_cases hab : a = b
    · simp [drain,hab]
    by_cases hal : a < l.length
    · have hstep : (⟨false,a,b⟩ : Cursor).advance l = some (l[a],⟨false,a+1,b⟩) := by simp [advance,hal]
      rw [drain,if_neg hab,hstep,Option.bind_some,ih (a+1) (by omega)]
      by_cases hle : a+1 ≤ b
      · rw [if_pos hle,if_pos (by omega),drop_eq_getElem_cons hal,show b-a = b-(a+1)+1 by omega]
        rfl
      · rw [if_neg hle,if_neg (by omega)]
        rfl
    · have hstep : (⟨false,a,b⟩ : Cursor).advance l = none := by simp [advance,hal]
      rw [drain,if_neg hab,hstep,if_neg (by omega)]
      rfl

theorem drain_reverse (n a b : ℕ) (hn : b ≤ a+n) (hb : b ≤ l.length) :
    drain l n ⟨true,b,a⟩ = if a ≤ b then some ((l.drop a).take (b-a)).reverse else none := by
  induction n generalizing b with
  | zero =>
    by_cases hab : b = a
    · simp [drain,hab]
    · rw [drain,if_neg hab,if_neg (by omega)]
  | succ n ih =>
    by_cases hab : b = a
    · simp [drain,hab]
    rw [drain,if_neg hab]
    cases b with
    | zero => rw [if_neg (by omega)]; rfl
    | succ b =>
      have hstep : (⟨true,b+1,a⟩ : Cursor).advance l = some (l[b],⟨true,b,a⟩) := by simp [advance]
      rw [hstep,Option.bind_some,ih b (by omega) (by omega)]
      by_cases hle : a ≤ b
      · have hget : (l.drop a)[b-a]? = some l[b] := by
          rw [getElem?_drop,show a+(b-a) = b by omega,getElem?_eq_getElem (by omega)]
        rw [if_pos hle,if_pos (by omega),show b+1-a = b-a+1 by omega,take_add_one,hget]
        simp
      · rw [if_neg hle,if_neg (by omega)]
        rfl

/-- A reverse cursor between two positions enumerates backwards what the forward one does. -/
theorem rows_reverse {a b : ℕ} (hb : b ≤ l.length) :
    rows l ⟨true,b,a⟩ = (rows l ⟨false,a,b⟩).map List.reverse := by
  rw [rows,rows,drain_reverse _ a b (by omega) hb,drain_forward _ a b (by omega) hb]
  split_ifs <;> rfl

end Cursor

theorem bounds_le (key : α → List Value) (q : Query) : (bounds key l q).2 ≤ l.length := by
  cases q <;> first | exact (takeWhile_sublist _).length_le | exact le_rfl

theorem sortedRows_desc (key : α → List Value) {q : Query} (hq : ∀ k, q ≠ .key k) :
    sortedRows key l q .desc = (sortedRows key l q .asc).map List.reverse := by
  unfold sortedRows sortedCursor
  split_ifs
  · rfl
  · cases q with
    | key k => exact absurd rfl (hq k)
    | _ => exact Cursor.rows_reverse (bounds_le key _)

theorem mapM_reverse {β : Type} (f : α → Option β) :
    l.reverse.mapM f = (l.mapM f).map List.reverse := by
  induction l with
  | nil => rfl
  | cons x l ih =>
    rw [reverse_cons,mapM_append,ih,mapM_cons]
    cases hx : f x <;> cases hl : l.mapM f <;> simp [hx,hl]

end Mirror

section Selection

variable {α : Type} {key : α → List Value} {l : List α} {q : Query} {k : List Value}

structure Comparable (key : α → List Value) (l : List α) (k : List Value) : Prop where
  ordered : keyOrdered k = true
  all : ∀ e ∈ l, keyOrdered (key e) = true ∧ (key e).map Value.kind = k.map Value.kind

theorem Comparable.lt_iff (h : Comparable key l k) {e : α} (he : e ∈ l) :
    (keyLt (key e) k = true ↔ keyRank (key e) < keyRank k) ∧
      (keyLt k (key e) = true ↔ keyRank k < keyRank (key e)) :=
  ⟨keyLt_iff (h.all e he).2 (h.all e he).1 h.ordered,
    keyLt_iff (h.all e he).2.symm h.ordered (h.all e he).1⟩

theorem Comparable.lower (h : Comparable key l k)
    (hsorted : Multimap.Sorted (fun e => keyRank (key e)) l) :
    l.Pairwise fun a b => keyLt (key b) k = true → keyLt (key a) k = true :=
  hsorted.imp_of_mem fun ha hb hab => by grind [h.lt_iff ha,h.lt_iff hb]

theorem Comparable.upper (h : Comparable key l k)
    (hsorted : Multimap.Sorted (fun e => keyRank (key e)) l) :
    l.Pairwise fun a b => (!keyLt k (key b)) = true → (!keyLt k (key a)) = true :=
  hsorted.imp_of_mem fun ha hb hab => by grind [h.lt_iff ha,h.lt_iff hb]

/-- The entries between the bounds of a query are those that it selects. -/
theorem sortedRows_asc (hsorted : Multimap.Sorted (fun e => keyRank (key e)) l)
    (hq : q.allowed .sorted = true) (h : ∀ k ∈ q.keys, Comparable key l k) :
    sortedRows key l q .asc = some (l.filter fun e => q.selects (key e)) := by
  have hcut : ∀ {p p' : α → Bool}, (l.Pairwise fun a b => p b = true → p a = true) →
      (l.Pairwise fun a b => p' b = true → p' a = true) → (∀ e ∈ l, p e = true → p' e = true) →
      Cursor.rows l ⟨false,(l.takeWhile p).length,(l.takeWhile p').length⟩ =
        some (l.filter fun e => !p e && p' e) := by
    intro p p' hp hp' hpp
    obtain ⟨hle,heq⟩ := Multimap.take_drop_takeWhile hp hp' hpp
    have hlen := (takeWhile_sublist p' (l:=l)).length_le
    rw [Cursor.rows,Cursor.drain_forward _ _ _ (by omega) hlen,if_pos hle,heq]
  have hfind : Findable key l q := by
    intro hne x hx
    obtain ⟨k,hk⟩ := exists_mem_of_ne_nil _ hne
    rcases mem_append.mp hx with hx | hx
    · exact (h x hx).ordered
    · obtain ⟨e,he,rfl⟩ := mem_map.mp hx
      exact ((h k hk).all e he).1
  have hrows : sortedRows key l q .asc =
      Cursor.rows l ⟨false,(bounds key l q).1,(bounds key l q).2⟩ := by
    unfold sortedRows sortedCursor
    rw [if_neg (by simp [hq,hfind])]
    cases q <;> rfl
  have htriv : ∀ b : Bool, l.Pairwise fun _ _ => b = true → b = true := fun b =>
    pairwise_of_forall fun _ _ => id
  have hnone : l.takeWhile (fun _ => false) = [] := by cases l <;> rfl
  have hall : l.takeWhile (fun _ => true) = l := by simp
  rw [hrows]
  cases q with
  | key k =>
    have hk := h k (by simp [Query.keys])
    exact hcut (hk.lower hsorted) (hk.upper hsorted) fun e he => by grind [hk.lt_iff he]
  | lt k =>
    have hk := h k (by simp [Query.keys])
    simpa [hnone,bounds,lowerBound,Query.selects] using hcut (htriv false) (hk.lower hsorted) (by simp)
  | gt k =>
    have hk := h k (by simp [Query.keys])
    simpa [hall,bounds,upperBound,Query.selects] using
      hcut (hk.upper hsorted) (htriv true) fun _ _ _ => rfl
  | between low high =>
    have hlow := h low (by simp [Query.keys])
    have hhigh := h high (by simp [Query.keys])
    simpa [bounds,lowerBound,upperBound,Query.selects] using
      hcut (hlow.upper hsorted) (hhigh.lower hsorted) fun e he => by
        have hlt := (keyLt_iff ((hlow.all e he).2.symm.trans (hhigh.all e he).2) hlow.ordered
          hhigh.ordered).mp hq
        grind [hlow.lt_iff he,hhigh.lt_iff he]
  | all => simpa [hall,hnone,bounds,Query.selects] using hcut (htriv false) (htriv true) (by simp)

end Selection

theorem reverse_eq_self_iff {α : Type} {l : List α} (h : l.Nodup) : l.reverse = l ↔ l.length ≤ 1 := by
  constructor
  · intro hl
    by_contra hlen
    have hends : l.reverse[0]? = l[0]? := by rw [hl]
    rw [getElem?_reverse (by omega),getElem?_eq_getElem (by omega),getElem?_eq_getElem (by omega),
      Option.some.injEq,h.getElem_inj_iff] at hends
    omega
  · intro hlen
    match l,hlen with
    | [],_ | [x],_ => rfl

namespace IndexedTable

variable {S : IndexedSchema} {s : IndexedTable} {i : ℕ} {q : Query}

theorem indexRows_desc (hq : ∀ k, q ≠ .key k) (hall : q ≠ .all) :
    s.indexRows i q .desc = (s.indexRows i q .asc).map List.reverse := by
  cases q with
  | key k => exact absurd rfl (hq k)
  | all => exact absurd rfl hall
  | _ =>
    simp only [indexRows,indexEntries,sortedRows_desc _ hq]
    cases sortedRows IndexRow.key (s.index i) _ .asc with
    | none => rfl
    | some l => exact mapM_reverse _

/-- In a coherent table `all` enumerates every row once. -/
theorem Coherent.indexRows_all (h : s.Coherent S) (hi : i < S.indices.length) :
    ∃ l, s.indexRows i .all .asc = some l ∧ l.Nodup ∧ l.Perm (s.db.ids 0) := by
  obtain ⟨l,hl,hnodup,hperm,-⟩ := h i hi
  refine ⟨l,?_,hnodup,hperm⟩
  have hentries : s.indexEntries i .all .asc = some (s.index i) := by
    have hnone : Findable IndexRow.key (s.index i) .all := fun hne => absurd rfl hne
    simp only [indexEntries,sortedRows,sortedCursor]
    rw [if_neg (by simp [Query.allowed,hnone])]
    exact (Cursor.drain_forward _ 0 _ (Nat.le_add_left _ _) le_rfl).trans (by simp)
  unfold cursor at hl
  split_ifs at hl
  rw [indexRows,hentries,Option.bind_some,← hl]
  simp [Query.selects]

end IndexedTable

end Janus.Memdb
