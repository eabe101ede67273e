import Mathlib

/-! The counter over the foreign-key columns of a row (`deptran/sharding.cc`): a set of columns
with a position and a bound for each. A position is incremented only below its bound, so that no
`uint32_t` wraps around. A failed `verify` gives `none`. -/

namespace Janus.Sharding

open Function List Option

structure Index where
  cols : Finset ℕ
  pos : ℕ → ℕ
  bound : ℕ → ℕ

def carry (bound : ℕ → ℕ) : List ℕ → (ℕ → ℕ) → Option ((ℕ → ℕ) × ℤ)
  | [], pos => some (pos,-1)
  | c::cs, pos =>
    if pos c + 1 < bound c then some (update pos c (pos c + 1),0)
    else if pos c + 1 - bound c = 0 then carry bound cs (update pos c 0) else none

namespace Index

def initIndex (m : Index) : Option (Index × ℤ) :=
  if m.cols = ∅ then some (m,-1)
  else if ∀ c ∈ m.cols, 0 < m.bound c then some ({m with pos := fun _ => 0},0) else none

def order (m : Index) (rev : Bool) : List ℕ := if rev then m.cols.sort.reverse else m.cols.sort

def increase (rev : Bool) (m : Index) : Option (Index × ℤ) :=
  (carry m.bound (m.order rev) m.pos).map fun pr => ({m with pos := pr.1},pr.2)

def erase (m : Index) (cs : List ℕ) : Index := {m with cols := m.cols \ cs.toFinset}

/-- `index[c] = index[d]`, which adds a missing column `d` with the pair of zeros. -/
def assign (d : ℕ) (m : Index) (c : ℕ) : Index :=
  let p := if d ∈ m.cols then (m.pos d,m.bound d) else (0,0)
  { cols := insert c (insert d m.cols)
    pos := update (update m.pos d p.1) c p.1
    bound := update (update m.bound d p.2) c p.2 }

def increaseBound (rev : Bool) (m : Index) : List ℕ → Option (Index × ℤ)
  | d::c::cs =>
    ((m.erase (c::cs)).increase rev).map fun mr => ((c::cs).foldl (assign d) mr.1,mr.2)
  | _ => m.increase rev

def indexIncrease : Index → List ℕ → Option (Index × ℤ) := increaseBound false

def indexReverseIncrease : Index → List ℕ → Option (Index × ℤ) := increaseBound true

def calls (f : Index → List ℕ → Option (Index × ℤ)) (m : Index) (bi : List ℕ) :
    ℕ → Option (Index × ℤ)
  | 0 => m.initIndex
  | n+1 => (calls f m bi n).bind fun mr => f mr.1 bi

end Index

/-- Positions as a number in mixed radix, the first column being the least significant. -/
def value (bound pos : ℕ → ℕ) : List ℕ → ℕ
  | [] => 0
  | c::cs => pos c + bound c * value bound pos cs

def Next (bound : ℕ → ℕ) (cs : List ℕ) (pos pos' : ℕ → ℕ) (r : ℤ) : Prop :=
  r = 0 ∧ value bound pos' cs = value bound pos cs + 1 ∨
    r = -1 ∧ value bound pos' cs = 0 ∧ value bound pos cs + 1 = (cs.map bound).prod

section Counter

variable {bound pos t : ℕ → ℕ} {cs : List ℕ}

theorem value_congr (h : ∀ c ∈ cs, pos c = t c) : value bound pos cs = value bound t cs := by
  induction cs with
  | nil => rfl
  | cons c cs ih =>
    obtain ⟨hc,hcs⟩ := forall_mem_cons.mp h
    rw [value,value,hc,ih hcs]

theorem value_zero (bound : ℕ → ℕ) (cs : List ℕ) : value bound (fun _ => 0) cs = 0 := by
  induction cs with
  | nil => rfl
  | cons c cs ih => simp [value,ih]

section

variable (hpos : ∀ c ∈ cs, pos c < bound c)
include hpos

theorem value_lt : value bound pos cs < (cs.map bound).prod := by
  induction cs with
  | nil => simp [value]
  | cons c cs ih =>
    obtain ⟨hc,hcs⟩ := forall_mem_cons.mp hpos
    rw [value,map_cons,prod_cons]
    calc pos c + bound c * value bound pos cs
        < bound c * (value bound pos cs + 1) := by rw [Nat.mul_add]; omega
      _ ≤ bound c * (cs.map bound).prod := Nat.mul_le_mul_left _ (ih hcs)

theorem value_inj (ht : ∀ c ∈ cs, t c < bound c) (h : value bound pos cs = value bound t cs) :
    ∀ c ∈ cs, pos c = t c := by
  induction cs with
  | nil => simp
  | cons c cs ih =>
    obtain ⟨hc,hcs⟩ := forall_mem_cons.mp hpos
    obtain ⟨htc,htcs⟩ := forall_mem_cons.mp ht
    have hmod := congrArg (· % bound c) h
    have hdiv := congrArg (· / bound c) h
    have hb : 0 < bound c := by omega
    simp only [value,Nat.add_mul_mod_self_left,Nat.mod_eq_of_lt hc,Nat.mod_eq_of_lt htc] at hmod
    simp only [value,Nat.add_mul_div_left _ _ hb,Nat.div_eq_of_lt hc,Nat.div_eq_of_lt htc,
      zero_add] at hdiv
    exact forall_mem_cons.mpr ⟨hmod,ih hcs htcs hdiv⟩

/-- The carry comes to an end, at the next tuple. -/
theorem carry_spec (hnd : cs.Nodup) : ∃ pos' r, carry bound cs pos = some (pos',r) ∧
    (∀ c ∈ cs, pos' c < bound c) ∧ (∀ c ∉ cs, pos' c = pos c) ∧ Next bound cs pos pos' r := by
  induction cs generalizing pos with
  | nil => exact ⟨pos,-1,rfl,hpos,fun _ _ => rfl,.inr ⟨rfl,rfl,rfl⟩⟩
  | cons c cs ih =>
    obtain ⟨hc,hcs⟩ := forall_mem_cons.mp hpos
    obtain ⟨hnotin,hnd⟩ := nodup_cons.mp hnd
    have hout : ∀ p, ∀ d ∈ cs, update pos c p d = pos d :=
      fun p d hd => update_of_ne (ne_of_mem_of_not_mem hd hnotin) _ _
    rw [carry]
    split_ifs with hlt hzero
    · refine ⟨_,_,rfl,?_,fun d hd => update_of_ne (ne_of_not_mem_cons hd) _ _,.inl ⟨rfl,?_⟩⟩
      · rw [forall_mem_cons,update_self]
        exact ⟨hlt,fun d hd => (hout _ d hd).trans_lt (hcs d hd)⟩
      · rw [value,value,update_self,value_congr (hout _)]
        omega
    · obtain ⟨pos',r,hcarry,hrange,hsame,hnext⟩ :=
        ih (fun d hd => (hout 0 d hd).trans_lt (hcs d hd)) hnd
      have hc' : pos' c = 0 := (hsame c hnotin).trans (update_self c 0 pos)
      have hsum : pos c + bound c * value bound pos cs + 1 =
          bound c * (value bound pos cs + 1) := by
        rw [Nat.mul_add]
        omega
      refine ⟨pos',r,hcarry,forall_mem_cons.mpr ⟨by omega,hrange⟩,fun d hd => ?_,?_⟩
      · rw [hsame d (not_mem_of_not_mem_cons hd),update_of_ne (ne_of_not_mem_cons hd)]
      · rw [Next,value_congr (hout 0)] at hnext
        rw [Next,value,value,hc',zero_add,hsum,map_cons,prod_cons]
        rcases hnext with ⟨hr,hv⟩ | ⟨hr,hv,hp⟩
        · exact .inl ⟨hr,by rw [hv]⟩
        · exact .inr ⟨hr,by rw [hv,Nat.mul_zero],by rw [hp]⟩
    · omega

end

end Counter

namespace Index

structure Tuple (m : Index) (bi : List ℕ) (pos : ℕ → ℕ) : Prop where
  range : ∀ c ∈ m.cols, pos c < m.bound c
  tied : ∀ c ∈ bi, ∀ d ∈ bi, pos c = pos d

def independent (m : Index) (bi : List ℕ) (rev : Bool) : List ℕ := (m.erase bi.tail).order rev

variable {m : Index} {d c : ℕ} {cs bi : List ℕ} {rev : Bool} {pos t : ℕ → ℕ}

theorem mem_independent : c ∈ m.independent bi rev ↔ c ∈ m.cols ∧ c ∉ bi.tail := by
  cases rev <;> simp [independent,erase,order]

theorem foldl_assign (hd : cs ≠ [] → d ∈ m.cols) (hnotin : d ∉ cs) : cs.foldl (assign d) m =
    { cols := m.cols ∪ cs.toFinset
      pos := fun c => if c ∈ cs then m.pos d else m.pos c
      bound := fun c => if c ∈ cs then m.bound d else m.bound c } := by
  induction cs generalizing m with
  | nil => simp
  | cons c cs ih =>
    have hd := hd (cons_ne_nil c cs)
    have hassign : assign d m c = ⟨insert c m.cols,update m.pos c (m.pos d),
        update m.bound c (m.bound d)⟩ := by simp [assign,hd]
    rw [foldl_cons,hassign,ih (fun _ => by simp [hd]) (not_mem_of_not_mem_cons hnotin)]
    simp only [update_of_ne (ne_of_not_mem_cons hnotin),toFinset_cons,Finset.insert_union,
      Finset.union_insert,mem_cons,mk.injEq,true_and]
    constructor <;> funext e <;> by_cases he : e = c <;> simp [he,update_of_ne]

theorem increaseBound_eq (rev : Bool) (m : Index) (bi : List ℕ) : m.increaseBound rev bi =
    ((m.erase bi.tail).increase rev).map fun mr =>
      (bi.tail.foldl (assign (bi.headD 0)) mr.1,mr.2) := by
  match bi with
  | [] | [_] => simp [increaseBound,erase]
  | _::_::_ => rfl

theorem Tuple.value_lt (h : m.Tuple bi pos) :
    value m.bound pos (m.independent bi rev) < ((m.independent bi rev).map m.bound).prod :=
  Sharding.value_lt fun c hc => h.range c (mem_independent.mp hc).1

section

variable (rev) (hnd : bi.Nodup) (hsub : ∀ c ∈ bi, c ∈ m.cols)
include hnd hsub

/-- The first of several tied columns counts for all of them. -/
theorem head_independent (hc : c ∈ bi.tail) :
    bi.headD 0 ∈ bi ∧ bi.headD 0 ∈ m.independent bi rev := by
  cases bi with
  | nil => cases hc
  | cons d cs =>
    exact ⟨mem_cons_self,mem_independent.mpr ⟨hsub d mem_cons_self,(nodup_cons.mp hnd).1⟩⟩

theorem Tuple.eq_of_value (hp : m.Tuple bi pos) (ht : m.Tuple bi t)
    (h : value m.bound pos (m.independent bi rev) = value m.bound t (m.independent bi rev)) :
    ∀ c ∈ m.cols, pos c = t c := by
  have heq := value_inj (fun c hc => hp.range c (mem_independent.mp hc).1)
    (fun c hc => ht.range c (mem_independent.mp hc).1) h
  intro c hc
  by_cases hmem : c ∈ bi.tail
  · obtain ⟨hhead,hind⟩ := head_independent rev hnd hsub hmem
    have hc := mem_of_mem_tail hmem
    rw [hp.tied c hc _ hhead,heq _ hind,ht.tied _ hhead c hc]
  · exact heq c (mem_independent.mpr ⟨hc,hmem⟩)

variable (heq : ∀ c ∈ bi, ∀ d ∈ bi, m.bound c = m.bound d)
include heq

theorem Tuple.increase (hp : m.Tuple bi pos) : ∃ pos' r,
    increaseBound rev {m with pos := pos} bi = some ({m with pos := pos'},r) ∧
      m.Tuple bi pos' ∧ Next m.bound (m.independent bi rev) pos pos' r := by
  have hind : (m.independent bi rev).Nodup := by
    cases rev <;> simp [independent,order]
  obtain ⟨pos',r,hcarry,hrange,-,hnext⟩ :=
    carry_spec (fun c hc => hp.range c (mem_independent.mp hc).1) hind
  have hhead := fun c => head_independent (c:=c) rev hnd hsub
  have hnotin : bi.headD 0 ∉ bi.tail := fun hc => (mem_independent.mp (hhead _ hc).2).2 hc
  have hcall := increaseBound_eq rev {m with pos := pos} bi
  have hplain : (erase {m with pos := pos} bi.tail).increase rev =
      some (⟨m.cols \ bi.tail.toFinset,pos',m.bound⟩,r) := congrArg (Option.map _) hcarry
  rw [hplain,map_some,foldl_assign (fun hne => ?_) hnotin] at hcall
  · -- the tied columns are back, with the bound they had
    have hcols : m.cols \ bi.tail.toFinset ∪ bi.tail.toFinset = m.cols :=
      Finset.sdiff_union_of_subset fun c hc => hsub c (mem_of_mem_tail (mem_toFinset.mp hc))
    have hbound : (fun c => if c ∈ bi.tail then m.bound (bi.headD 0) else m.bound c) = m.bound := by
      funext c
      split_ifs with hc
      · exact heq _ (hhead c hc).1 c (mem_of_mem_tail hc)
      · rfl
    rw [hcols,hbound] at hcall
    refine ⟨_,r,hcall,⟨fun c hc => ?_,fun c hc e he => ?_⟩,?_⟩
    · split_ifs with hmem
      · obtain ⟨hbi,hd⟩ := hhead c hmem
        exact (hrange _ hd).trans_eq (heq _ hbi c (mem_of_mem_tail hmem))
      · exact hrange c (mem_independent.mpr ⟨hc,hmem⟩)
    · have hall : ∀ c ∈ bi, (if c ∈ bi.tail then pos' (bi.headD 0) else pos' c) =
          pos' (bi.headD 0) := by
        cases bi <;> simp +contextual
      rw [hall c hc,hall e he]
    · rwa [Next,value_congr fun c hc => if_neg (mem_independent.mp hc).2]
  · obtain ⟨c,hc⟩ := exists_mem_of_ne_nil _ hne
    simpa using mem_independent.mp (hhead c hc).2

variable (hne : m.cols.Nonempty) (hpos : ∀ c ∈ m.cols, 0 < m.bound c)
include hne hpos

theorem calls_spec (n : ℕ) : ∃ pos, calls (increaseBound rev) m bi n = some ({m with pos := pos},
      if 0 < n ∧ ((m.independent bi rev).map m.bound).prod ∣ n then -1 else 0) ∧ m.Tuple bi pos ∧
    value m.bound pos (m.independent bi rev) = n % ((m.independent bi rev).map m.bound).prod := by
  induction n with
  | zero =>
    refine ⟨fun _ => 0,?_,⟨hpos,fun _ _ _ _ => rfl⟩,by rw [Nat.zero_mod,value_zero]⟩
    rw [calls,initIndex,if_neg hne.ne_empty,if_pos hpos]
    rfl
  | succ n ih =>
    obtain ⟨pos,hcalls,hp,hv⟩ := ih
    obtain ⟨pos',r,hcall,hp',hnext⟩ := hp.increase rev hnd hsub heq
    have hvalue : value m.bound pos' (m.independent bi rev) =
        (n+1) % ((m.independent bi rev).map m.bound).prod := by
      rw [← Nat.mod_add_mod,← hv]
      rcases hnext with ⟨-,hv'⟩ | ⟨-,hv',hlast⟩
      · rw [← hv',Nat.mod_eq_of_lt hp'.value_lt]
      · rw [hlast,Nat.mod_self,hv']
    refine ⟨pos',?_,hp',hvalue⟩
    rw [calls,hcalls,bind_some,hcall]
    rcases hnext with ⟨rfl,hv'⟩ | ⟨rfl,hv',-⟩ <;> simp [Nat.dvd_iff_mod_eq_zero,← hvalue,hv']

end

/-- From `init_index` on the calls run through the tuples in their order, over and over, and only a
call that comes back to the first returns -1. -/
theorem index_increase_enumerates (m : Index) {bi : List ℕ} (rev : Bool) (hne : m.cols.Nonempty)
    (hpos : ∀ c ∈ m.cols, 0 < m.bound c) (hnd : bi.Nodup) (hsub : ∀ c ∈ bi, c ∈ m.cols)
    (heq : ∀ c ∈ bi, ∀ d ∈ bi, m.bound c = m.bound d) :
    let f := if rev then indexReverseIncrease else indexIncrease;
    let size := ((m.independent bi rev).map m.bound).prod;
    (∀ n, ∃ pos, calls f m bi n = some ({m with pos := pos},if 0 < n ∧ size ∣ n then -1 else 0) ∧
      m.Tuple bi pos ∧ value m.bound pos (m.independent bi rev) = n % size ∧
      (size ∣ n → ∀ c ∈ m.cols, pos c = 0)) ∧
    ∀ t, m.Tuple bi t → ∃! n, n < size ∧ ∃ pos r, calls f m bi n = some ({m with pos := pos},r) ∧
      ∀ c ∈ m.cols, pos c = t c := by
  intro f size
  have hf : f = increaseBound rev := by
    cases rev <;> rfl
  have hrun := calls_spec rev hnd hsub heq hne hpos
  rw [hf]
  refine ⟨fun n => ?_,fun t ht => ?_⟩
  · obtain ⟨pos,hcalls,hp,hv⟩ := hrun n
    refine ⟨pos,hcalls,hp,hv,fun hdvd => hp.eq_of_value rev hnd hsub
      ⟨hpos,fun _ _ _ _ => rfl⟩ ?_⟩
    rw [hv,value_zero,Nat.mod_eq_zero_of_dvd hdvd]
  · refine ⟨value m.bound t (m.independent bi rev),⟨ht.value_lt,?_⟩,?_⟩
    · obtain ⟨pos,hcalls,hp,hv⟩ := hrun (value m.bound t (m.independent bi rev))
      rw [Nat.mod_eq_of_lt ht.value_lt] at hv
      exact ⟨pos,_,hcalls,hp.eq_of_value rev hnd hsub ht hv⟩
    · rintro n ⟨hn,pos,r,hcalls,hsame⟩
      obtain ⟨pos',hcalls',-,hv⟩ := hrun n
      obtain rfl : pos' = pos := congrArg (fun mr => mr.1.pos) (some.inj (hcalls'.symm.trans hcalls))
      rw [← (Nat.mod_eq_of_lt hn),← hv]
      exact value_congr fun c hc => hsame c (mem_independent.mp hc).1

theorem index_increase_enumerates_tied :
    let m : Index := ⟨{0,1,2},fun _ => 0,fun c => if c = 1 then 3 else 2⟩;
    ∀ t, m.Tuple [2,0] t → ∃! n, n < ((m.independent [2,0] true).map m.bound).prod ∧
      ∃ pos r, calls indexReverseIncrease m [2,0] n = some ({m with pos := pos},r) ∧
        ∀ c ∈ m.cols, pos c = t c := by
  intro m
  exact (index_increase_enumerates m true (by decide) (by decide) (by decide) (by decide)
    (by decide)).2

end Index

end Janus.Sharding
