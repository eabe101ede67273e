import Mathlib

/-! Two containers. An ordered multimap is a list sorted by a key, in which a new element goes
behind those with the same key. A circular doubly linked list is a relation between neighbours. -/

namespace Janus

open List
namespace Multimap

variable {α β K : Type*} [LinearOrder K] {key : α → K} {x : α} {l : List α}

def insert (key : α → K) (x : α) : List α → List α
  | [] => [x]
  | y::l => if key x < key y then x::y::l else y::insert key x l

def Sorted (key : α → K) (l : List α) : Prop := l.Pairwise fun a b => key a ≤ key b

theorem mem_insert {a : α} : a ∈ insert key x l ↔ a = x ∨ a ∈ l := by
  induction l with
  | nil => simp [insert]
  | cons y l ih =>
    simp only [insert]
    split_ifs
    · simp only [mem_cons]
    · simp only [mem_cons,ih]
      tauto

theorem Sorted.insert (h : Sorted key l) (x : α) : Sorted key (insert key x l) := by
  induction l with
  | nil => exact pairwise_singleton _ _
  | cons y l ih =>
    obtain ⟨hy,hl⟩ := pairwise_cons.mp h
    simp only [Multimap.insert]
    split_ifs with hlt
    · refine pairwise_cons.mpr ⟨fun a ha => ?_,h⟩
      rcases mem_cons.mp ha with rfl | hmem
      · exact hlt.le
      · exact hlt.le.trans (hy a hmem)
    · refine pairwise_cons.mpr ⟨fun a ha => ?_,ih hl⟩
      rcases mem_insert.mp ha with rfl | hmem
      · exact not_lt.mp hlt
      · exact hy a hmem

theorem map_insert (key' : β → K) (f : α → β) (h : ∀ a, key' (f a) = key a) :
    (insert key x l).map f = insert key' (f x) (l.map f) := by
  induction l with
  | nil => rfl
  | cons y l ih =>
    simp only [insert,map_cons,h]
    split_ifs
    · rfl
    · rw [map_cons,ih]

theorem insert_of_forall_lt (h : ∀ a ∈ l, key x < key a) : insert key x l = x::l := by
  cases l with
  | nil => rfl
  | cons y l => rw [insert,if_pos (h y mem_cons_self)]

theorem insert_of_forall_le (h : ∀ a ∈ l, key a ≤ key x) : insert key x l = l++[x] := by
  induction l with
  | nil => rfl
  | cons y l ih =>
    rw [insert,if_neg (h y mem_cons_self).not_gt,ih fun a ha => h a (mem_cons_of_mem y ha)]
    rfl

theorem filter_insert_of_neg {p : α → Bool} (hx : p x = false) :
    (insert key x l).filter p = l.filter p := by
  induction l with
  | nil => simp [insert,hx]
  | cons y l ih =>
    simp only [insert]
    split_ifs
    · simp [hx]
    · simp only [filter_cons,ih]

/-- In a sorted list the place of a new element does not depend on the elements left out. -/
theorem filter_insert_of_pos {p : α → Bool} (h : Sorted key l) (hx : p x = true) :
    (insert key x l).filter p = insert key x (l.filter p) := by
  induction l with
  | nil => simp [insert,hx]
  | cons y l ih =>
    obtain ⟨hy,hl⟩ := pairwise_cons.mp h
    simp only [insert]
    split_ifs with hlt
    · rw [filter_cons_of_pos hx,insert_of_forall_lt]
      intro a ha
      rcases mem_cons.mp (mem_of_mem_filter ha) with rfl | hmem
      · exact hlt
      · exact hlt.trans_le (hy a hmem)
    · by_cases hpy : p y = true
      · rw [filter_cons_of_pos hpy,filter_cons_of_pos hpy,ih hl,insert,if_neg hlt]
      · rw [filter_cons_of_neg hpy,filter_cons_of_neg hpy,ih hl]

omit [LinearOrder K] in
theorem takeWhile_dropWhile {p : α → Bool} (h : l.Pairwise fun a b => p b = true → p a = true) :
    l.takeWhile p = l.filter p ∧ l.dropWhile p = l.filter fun a => !p a := by
  induction l with
  | nil => exact ⟨rfl,rfl⟩
  | cons y l ih =>
    obtain ⟨hy,hl⟩ := pairwise_cons.mp h
    obtain ⟨htake,hdrop⟩ := ih hl
    by_cases hpy : p y = true
    · simp [hpy,htake,hdrop]
    · have hnone : ∀ a ∈ l, p a = false := fun a ha => by simpa using mt (hy a ha) hpy
      constructor
      · simp only [takeWhile_cons,filter_cons,hpy]
        exact (filter_eq_nil_iff.mpr fun a ha => by simp [hnone a ha]).symm
      · simp only [dropWhile_cons,filter_cons,hpy,Bool.not_false,if_true]
        exact congrArg (y::·) (filter_eq_self.mpr fun a ha => by simp [hnone a ha]).symm

/-- In a sorted list the elements with keys on the lower side of a cut are a prefix. -/
theorem Sorted.takeWhile_dropWhile {p : K → Bool} (h : Sorted key l)
    (hp : ∀ a b, a ≤ b → p b = true → p a = true) :
    l.takeWhile (fun a => p (key a)) = l.filter (fun a => p (key a)) ∧
      l.dropWhile (fun a => p (key a)) = l.filter fun a => !p (key a) :=
  Multimap.takeWhile_dropWhile (h.imp fun hab => hp _ _ hab)

omit [LinearOrder K] in
theorem take_drop_takeWhile {p q : α → Bool} (hp : l.Pairwise fun a b => p b = true → p a = true)
    (hq : l.Pairwise fun a b => q b = true → q a = true) (hpq : ∀ a ∈ l, p a = true → q a = true) :
    (l.takeWhile p).length ≤ (l.takeWhile q).length ∧
      (l.drop (l.takeWhile p).length).take ((l.takeWhile q).length-(l.takeWhile p).length) =
        l.filter fun a => !p a && q a := by
  have htake : l.take (l.takeWhile q).length = l.filter q :=
    (prefix_iff_eq_take.mp (List.takeWhile_prefix q)).symm.trans (takeWhile_dropWhile hq).1
  obtain ⟨hp₁,hp₂⟩ := takeWhile_dropWhile (hp.sublist (filter_sublist (p := q)))
  have hboth : (l.filter q).takeWhile p = l.takeWhile p := by
    rw [hp₁,(takeWhile_dropWhile hp).1,filter_filter]
    exact filter_congr fun a ha => by simpa using hpq a ha
  have hsplit := takeWhile_append_dropWhile (p := p) (l := l.filter q)
  constructor
  · rw [← hboth,(takeWhile_dropWhile hq).1]
    exact (takeWhile_sublist p).length_le
  · rw [← drop_take,htake,← hboth]
    nth_rewrite 2 [← hsplit]
    rw [drop_left,hp₂,filter_filter]

end Multimap

/-- The nodes `a :: t` in a circle, where `L x y` says that `y` comes right after `x`. -/
structure Ring {α : Type*} (L : α → α → Prop) (a : α) (t : List α) : Prop where
  nodup : (a::t).Nodup
  chain : (a::t).IsChain L
  close : L ((a::t).getLast (List.cons_ne_nil a t)) a

namespace Ring

variable {α : Type*} {L L' : α → α → Prop} {a b n : α} {t : List α}

theorem rotate (h : Ring L a (b::t)) : Ring L b (t++[a]) := by
  have hclose := h.close
  obtain ⟨hab,hchain⟩ := isChain_cons_cons.mp h.chain
  constructor
  · have hperm : (b::(t++[a])).Perm (a::b::t) := by
      exact perm_append_singleton a (b::t)
    exact hperm.nodup_iff.mpr h.nodup
  · refine isChain_append.mpr ⟨hchain,isChain_singleton a,fun x hx y hy => ?_⟩
    cases hx
    cases hy
    exact hclose
  · simpa using hab

theorem focus {l₁ l₂ : List α} (h : Ring L a t) (hl : a::t = l₁++b::l₂) : Ring L b (l₂++l₁) := by
  induction l₁ generalizing a t l₂ with
  | nil =>
    cases hl
    simpa using h
  | cons c l₁ ih =>
    obtain ⟨rfl,rfl⟩ := cons.inj hl
    cases l₁ with
    | nil => exact h.rotate
    | cons d l₁ =>
      have hnext : d::(l₁++b::l₂)++[a] = d::l₁++b::(l₂++[a]) := by simp
      simpa using ih h.rotate hnext

theorem mono (h : Ring L a t) (hle : ∀ x ∈ a::t, ∀ y ∈ a::t, L x y → L' x y) : Ring L' a t := by
  refine ⟨h.nodup,?_,hle _ (getLast_mem _) a mem_cons_self h.close⟩
  exact h.chain.imp_of_mem_imp fun x y hx hy => hle x hx y hy

theorem chain_keep (hnodup : (a::t).Nodup) (h : (a::t).IsChain L)
    (hkeep : ∀ x ∈ a::t, ∀ y ∈ t, x ≠ (a::t).getLast (List.cons_ne_nil a t) → L x y → L' x y) :
    (a::t).IsChain L' := by
  induction t generalizing a with
  | nil => exact isChain_singleton a
  | cons b t ih =>
    obtain ⟨hab,hchain⟩ := isChain_cons_cons.mp h
    obtain ⟨ha,hnodup'⟩ := nodup_cons.mp hnodup
    refine isChain_cons_cons.mpr ⟨?_,ih hnodup' hchain fun x hx y hy => ?_⟩
    · exact hkeep a mem_cons_self b mem_cons_self (fun he => ha (he ▸ getLast_mem _)) hab
    · exact hkeep x (mem_cons_of_mem a hx) y (mem_cons_of_mem b hy)

theorem insertLeft (h : Ring L a t) (hn : n ∉ a::t)
    (hkeep : ∀ x ∈ a::t, ∀ y ∈ t, x ≠ (a::t).getLast (List.cons_ne_nil a t) → L x y → L' x y)
    (hlast : L' ((a::t).getLast (List.cons_ne_nil a t)) n) (hfirst : L' n a) :
    Ring L' a (t++[n]) := by
  constructor
  · exact (perm_append_singleton n (a::t)).nodup_iff.mpr (nodup_cons.mpr ⟨hn,h.nodup⟩)
  · refine isChain_append.mpr
      ⟨chain_keep h.nodup h.chain hkeep,isChain_singleton n,fun x hx y hy => ?_⟩
    cases hx
    cases hy
    exact hlast
  · simpa using hfirst

theorem remove (h : Ring L a (b::t))
    (hkeep : ∀ x ∈ b::t, ∀ y ∈ t, x ≠ (b::t).getLast (List.cons_ne_nil b t) → L x y → L' x y)
    (hclose : L' ((b::t).getLast (List.cons_ne_nil b t)) b) : Ring L' b t := by
  have hnodup := (nodup_cons.mp h.nodup).2
  exact ⟨hnodup,chain_keep hnodup (isChain_cons_cons.mp h.chain).2 hkeep,hclose⟩

theorem exists_focus (h : Ring L a t) (hb : b ∈ a::t) :
    ∃ t', Ring L b t' ∧ ∀ c, c ∈ b::t' ↔ c ∈ a::t := by
  obtain ⟨l₁,l₂,hl⟩ := append_of_mem hb
  refine ⟨l₂++l₁,h.focus hl,fun c => ?_⟩
  rw [hl]
  simp only [mem_cons,mem_append]
  tauto

end Ring

theorem span_ne {α β : Type*} [DecidableEq β] {f : α → β} {b : β} {l before after : List α}
    (h : l.span (fun a => f a ≠ b) = (before,after)) :
    l = before++after ∧ (∀ a ∈ before, f a ≠ b) ∧ ∀ a ∈ after.head?, f a = b := by
  rw [span_eq_takeWhile_dropWhile] at h
  obtain ⟨rfl,rfl⟩ := Prod.mk.inj h
  refine ⟨takeWhile_append_dropWhile.symm,fun a ha => ?_,fun a ha => ?_⟩
  · simpa using mem_takeWhile_imp ha
  · rw [← find?_not_eq_head?_dropWhile] at ha
    simpa using find?_some ha

end Janus
