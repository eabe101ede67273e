import Janus.SparseInt

/-! Values, keys and rows of memdb (`value.h`, `row.cc`, `SortedMultiKey::compare`). A double is
its 64 bits, a string its bytes. A row keeps its strings in one block of memory or, when it is
sparse, each for itself; the key under which a row is filed points into that memory. -/
namespace Janus.Memdb

open List Bool

open SparseInt (Byte pv ofBytes_congr ofBytes_pv)

inductive Kind
  | I32 | I64 | DOUBLE | STR
  deriving DecidableEq

inductive Value
  | i32 (v : BitVec 32)
  | i64 (v : BitVec 64)
  | double (bits : BitVec 64)
  | str (s : List Byte)
  deriving DecidableEq

def Value.kind : Value → Kind
  | .i32 _ => .I32
  | .i64 _ => .I64
  | .double _ => .DOUBLE
  | .str _ => .STR

def Value.length : Value → ℕ
  | .str s => s.length
  | _ => 0

namespace Double

def magnitude (b : BitVec 64) : ℕ := b.toNat%2^63

def isNaN (b : BitVec 64) : Bool := 0x7FF0000000000000 < magnitude b

/-- Doubles that are not NaN have the order of these integers. -/
def value (b : BitVec 64) : ℤ := if b.toNat < 2^63 then magnitude b else -magnitude b

def lt (a b : BitVec 64) : Bool := !isNaN a && !isNaN b && value a < value b

def negZero : BitVec 64 := 0x8000000000000000#64

theorem value_inj {a b : BitVec 64} (ha : a ≠ negZero) (hb : b ≠ negZero)
    (h : value a = value b) : a = b := by
  have hz : ∀ c : BitVec 64, c ≠ negZero → c.toNat ≠ 2^63 := by
    intro c hc hn
    exact hc (BitVec.eq_of_toNat_eq hn)
  have ha := hz a ha
  have hb := hz b hb
  apply BitVec.eq_of_toNat_eq
  simp only [value,magnitude] at h
  split_ifs at h <;> omega

end Double

def memcmp : List Byte → List Byte → Ordering
  | a::s, b::t => if a < b then .lt else if b < a then .gt else memcmp s t
  | _, _ => .eq

def compareStr (s t : List Byte) : Ordering :=
  match memcmp s t with
  | .eq => if s.length < t.length then .lt else if t.length < s.length then .gt else .eq
  | o => o

/-- One turn of `SortedMultiKey::compare`. Both sides have the kind of the column, so
the last case does not occur. -/
def compareColumn : Value → Value → Ordering
  | .i32 a, .i32 b => if a.toInt < b.toInt then .lt else if b.toInt < a.toInt then .gt else .eq
  | .i64 a, .i64 b => if a.toInt < b.toInt then .lt else if b.toInt < a.toInt then .gt else .eq
  | .double a, .double b => if Double.lt a b then .lt else if Double.lt b a then .gt else .eq
  | .str s, .str t => compareStr s t
  | _, _ => .eq

/-- `SortedMultiKey::compare`. Both keys have one value for each key column. -/
def compareKey : List Value → List Value → Ordering
  | a::s, b::t =>
    match compareColumn a b with
    | .eq => compareKey s t
    | o => o
  | _, _ => .eq

def keyLt (s t : List Value) : Bool := compareKey s t == .lt

def Value.ordered : Value → Bool
  | .double b => !Double.isNaN b
  | _ => true

/-- No other value compares equal: no NaN and no negative zero. -/
def Value.plain : Value → Bool
  | .double b => !Double.isNaN b && b ≠ Double.negZero
  | _ => true

def keyOrdered (k : List Value) : Bool := k.all Value.ordered

def keyPlain (k : List Value) : Bool := k.all Value.plain

theorem keyOrdered_of_plain {k : List Value} (h : keyPlain k = true) : keyOrdered k = true := by
  simp only [keyPlain,keyOrdered,List.all_eq_true] at h ⊢
  intro v hv
  have hp := h v hv
  cases v with
  | double b => simp_all [Value.plain,Value.ordered]
  | _ => rfl

theorem memcmp_self (s : List Byte) : memcmp s s = .eq := by
  induction s with
  | nil => rfl
  | cons a s ih => rw [memcmp,if_neg (BitVec.lt_irrefl a),if_neg (BitVec.lt_irrefl a),ih]

theorem compareStr_self (s : List Byte) : compareStr s s = .eq := by
  rw [compareStr,memcmp_self]
  simp

theorem compareColumn_self (v : Value) : compareColumn v v = .eq := by
  cases v with
  | double b => simp [compareColumn,Double.lt]
  | str s => exact compareStr_self s
  | _ => simp [compareColumn]

theorem compareKey_self (k : List Value) : compareKey k k = .eq := by
  induction k with
  | nil => rfl
  | cons v k ih => rw [compareKey,compareColumn_self,ih]

theorem memcmp_swap (s t : List Byte) : memcmp t s = (memcmp s t).swap := by
  induction s generalizing t with
  | nil => cases t <;> rfl
  | cons a s ih =>
    cases t with
    | nil => rfl
    | cons b t =>
      simp only [memcmp,BitVec.lt_def]
      split_ifs
      · omega
      · rfl
      · rfl
      · exact ih t

theorem compareStr_swap (s t : List Byte) : compareStr t s = (compareStr s t).swap := by
  unfold compareStr
  rw [memcmp_swap s t]
  cases memcmp s t with
  | eq =>
    split_ifs
    · omega
    · rfl
    · rfl
    · rfl
  | _ => rfl

theorem compareColumn_swap (a b : Value) : compareColumn b a = (compareColumn a b).swap := by
  have hint : ∀ x y : ℤ, (if y < x then Ordering.lt else if x < y then .gt else .eq) =
      (if x < y then Ordering.lt else if y < x then .gt else .eq).swap := by
    intro x y
    split_ifs
    · omega
    · rfl
    · rfl
    · rfl
  cases a <;> cases b <;> first | rfl | exact hint _ _ | exact compareStr_swap _ _ | skip
  simp only [compareColumn,Double.lt,and_eq_true,decide_eq_true_eq]
  split_ifs with hba hab
  · omega
  · rfl
  · rfl
  · rfl

theorem compareKey_swap (s t : List Value) : compareKey t s = (compareKey s t).swap := by
  induction s generalizing t with
  | nil => cases t <;> rfl
  | cons a s ih =>
    cases t with
    | nil => rfl
    | cons b t =>
      rw [compareKey,compareKey,compareColumn_swap a b]
      cases compareColumn a b with
      | eq => exact ih t
      | _ => rfl

variable {s t : List Value}

theorem compareKey_eq_iff : compareKey s t = .eq ↔ keyLt s t = false ∧ keyLt t s = false := by
  unfold keyLt
  rw [compareKey_swap s t]
  cases compareKey s t <;> decide

theorem eq_of_compareStr {s t : List Byte} (h : compareStr s t = .eq) : s = t := by
  have hm : memcmp s t = .eq → s.length = t.length → s = t := by
    clear h
    intro hm hlen
    induction s generalizing t with
    | nil => exact (length_eq_zero_iff.mp hlen.symm).symm
    | cons a s ih =>
      cases t with
      | nil => cases hlen
      | cons b t =>
        rw [memcmp] at hm
        split_ifs at hm with hab hba
        have hEq : a = b := BitVec.eq_of_toNat_eq (by
          rw [BitVec.lt_def] at hab hba
          omega)
        rw [hEq,ih hm (by simpa using hlen)]
  unfold compareStr at h
  split at h
  · rename_i heq
    split_ifs at h with hlt hgt
    exact hm heq (by omega)
  · rename_i hne
    exact absurd h hne

variable {a b : Value}

theorem eq_of_compareColumn (hkind : a.kind = b.kind) (ha : a.plain = true)
    (hb : b.plain = true) (h : compareColumn a b = .eq) : a = b := by
  have hint : ∀ x y : ℤ, (if x < y then Ordering.lt else if y < x then .gt else .eq) = .eq →
      x = y := by
    intro x y hxy
    split_ifs at hxy
    omega
  cases a <;> cases b <;> cases hkind
  · rw [BitVec.eq_of_toInt_eq (hint _ _ h)]
  · rw [BitVec.eq_of_toInt_eq (hint _ _ h)]
  · simp only [Value.plain,and_eq_true,not_eq_true',decide_eq_true_eq] at ha hb
    simp only [compareColumn,Double.lt,ha.1,hb.1,Bool.not_false,Bool.true_and,decide_eq_true_eq] at h
    rw [Double.value_inj ha.2 hb.2 (hint _ _ h)]
  · rw [eq_of_compareStr h]

theorem eq_of_compareKey (hkind : s.map Value.kind = t.map Value.kind)
    (hs : keyPlain s = true) (ht : keyPlain t = true) (h : compareKey s t = .eq) : s = t := by
  induction s generalizing t with
  | nil =>
    cases t with
    | nil => rfl
    | cons b t => cases hkind
  | cons a s ih =>
    cases t with
    | nil => cases hkind
    | cons b t =>
      simp only [map_cons,List.cons.injEq] at hkind
      simp only [keyPlain,all_cons,and_eq_true] at hs ht
      rw [compareKey] at h
      split at h
      · rename_i heq
        rw [eq_of_compareColumn hkind.1 hs.1 ht.1 heq,ih hkind.2 hs.2 ht.2 h]
      · rename_i hne
        exact absurd h hne

/-! Keys of the same columns that can be compared have the order of these ranks. -/

def Value.rank : Value → List ℤ
  | .i32 v => [v.toInt]
  | .i64 v => [v.toInt]
  | .double b => [Double.value b]
  | .str s => s.map fun b => (b.toNat : ℤ)

def keyRank (k : List Value) : List (List ℤ) := k.map Value.rank

theorem compareStr_lt_iff {s t : List Byte} : compareStr s t = .lt ↔
      (s.map fun b => (b.toNat : ℤ)) < t.map fun b => (b.toNat : ℤ) := by
  induction s generalizing t with
  | nil => cases t <;> simp [compareStr,memcmp]
  | cons a s ih =>
    cases t with
    | nil => simp [compareStr,memcmp]
    | cons b t =>
      rw [map_cons,map_cons,cons_lt_cons_iff,← ih]
      simp only [compareStr,memcmp,BitVec.lt_def,length_cons,Nat.add_lt_add_iff_right]
      rcases lt_trichotomy a.toNat b.toNat with hab | hab | hab
      · simp [hab]
      · simp [hab]
      · have hn : ¬a.toNat < b.toNat := by omega
        have hi : ¬(a.toNat : ℤ) < b.toNat ∧ (a.toNat : ℤ) ≠ b.toNat := by omega
        simp [hab,hn,hi]

theorem compareColumn_lt_iff (hkind : a.kind = b.kind) (ha : a.ordered = true)
    (hb : b.ordered = true) : compareColumn a b = .lt ↔ a.rank < b.rank := by
  have hint : ∀ x y : ℤ, (if x < y then Ordering.lt else if y < x then .gt else .eq) = .lt ↔
      [x] < [y] := by
    intro x y
    rw [cons_lt_cons_iff]
    split_ifs <;> simp_all
  cases a <;> cases b <;> cases hkind
  · exact hint _ _
  · exact hint _ _
  · simp only [Value.ordered,not_eq_true'] at ha hb
    simp only [compareColumn,Double.lt,ha,hb,Bool.not_false,Bool.true_and,decide_eq_true_eq]
    exact hint _ _
  · exact compareStr_lt_iff

theorem compareColumn_eq_iff (hkind : a.kind = b.kind) (ha : a.ordered = true)
    (hb : b.ordered = true) : compareColumn a b = .eq ↔ a.rank = b.rank := by
  have hab := compareColumn_lt_iff hkind ha hb
  have hba := compareColumn_lt_iff hkind.symm hb ha
  rw [compareColumn_swap a b] at hba
  rcases lt_trichotomy a.rank b.rank with h | h | h
  · rw [hab.mpr h]
    simp [h.ne]
  · cases hc : compareColumn a b <;> simp_all
  · rw [Ordering.swap_eq_lt.mp (hba.mpr h)]
    simp [h.ne']

/-- Keys without NaN are ordered as their ranks. -/
theorem keyLt_iff (hkind : s.map Value.kind = t.map Value.kind)
    (hs : keyOrdered s = true) (ht : keyOrdered t = true) :
    keyLt s t = true ↔ keyRank s < keyRank t := by
  unfold keyLt
  induction s generalizing t with
  | nil =>
    cases t with
    | nil => simp [compareKey,keyRank]
    | cons b t => cases hkind
  | cons a s ih =>
    cases t with
    | nil => cases hkind
    | cons b t =>
      simp only [map_cons,List.cons.injEq] at hkind
      simp only [keyOrdered,all_cons,and_eq_true] at hs ht
      have hlt := compareColumn_lt_iff hkind.1 hs.1 ht.1
      have heq := compareColumn_eq_iff hkind.1 hs.1 ht.1
      rw [keyRank,keyRank,map_cons,map_cons,cons_lt_cons_iff,← hlt,← heq,compareKey]
      cases hc : compareColumn a b with
      | eq => simpa [keyRank] using ih hkind.2 hs.2 ht.2
      | lt | gt => simp

structure Column where
  kind : Kind
  /-- Part of the primary key or of a secondary index. -/
  indexed : Bool
  deriving DecidableEq

structure Schema where
  columns : List Column
  /-- `key_cols_id_`. -/
  keys : List ℕ
  deriving DecidableEq

abbrev RowId := ℕ
abbrev TableId := ℕ

structure Row where
  schema : Schema
  values : ℕ → Value
  sparse : Bool
  tbl : Option TableId

def Schema.strKey (s : Schema) : Bool :=
  s.keys.any fun c => (s.columns[c]?).any fun col => col.kind = .STR

def Schema.strCols (s : Schema) : List ℕ :=
  (List.range s.columns.length).filter fun c => (s.columns[c]?).any fun col => col.kind = .STR

def Schema.keyKinds (s : Schema) : List (Option Kind) :=
  s.keys.map fun c => (s.columns[c]?).map Column.kind

namespace Row

def key (row : Row) : List Value := row.schema.keys.map row.values

def Typed (row : Row) : Prop :=
  ∀ p ∈ row.schema.columns.zipIdx, (row.values p.2).kind = p.1.kind

instance (row : Row) : Decidable row.Typed := inferInstanceAs (Decidable (∀ p ∈ _, _))

/-- `memcpy` into the fixed part, or into the string when its length stays; otherwise the row is
made sparse, which frees the block of its strings. -/
def store (row : Row) (c : ℕ) (v : Value) : Row :=
  {row with
    values := Function.update row.values c v
    sparse := row.sparse || (v.kind = .STR && v.length ≠ (row.values c).length)}

/-! ### `to_string` -/

def fixedBytes : Value → List Byte
  | .i32 v => (List.range 4).map (pv v.toNat)
  | .i64 v => (List.range 8).map (pv v.toNat)
  | .double b => (List.range 8).map (pv b.toNat)
  | .str _ => []

def strBytes : Value → List Byte
  | .str s => s
  | _ => []

def part (row : Row) (f : Value → List Byte) (n : ℕ) : List Byte :=
  (List.range n).flatMap fun c => f (row.values c)

def int (n : ℕ) : List Byte := fixedBytes (.i32 (.ofNat 32 n))

/-- The array `dense_var_idx_`, which says where each string ends in the block. -/
def varIdx (row : Row) : List Byte :=
  row.schema.strCols.flatMap fun c => int (row.part strBytes (c+1)).length

/-- `to_string`. Of the array `dense_var_idx_` it copies as many bytes as there are entries. The
lengths are below 2^31. -/
def toString (row : Row) (str : List Byte) : List Byte :=
  let n := row.schema.columns.length
  let fixedPart := row.part fixedBytes n
  let strCols := row.schema.strCols
  str++(int fixedPart.length++(fixedPart++(int row.sparse.toNat++
    if !row.sparse && strCols ≠ [] then
      row.varIdx.take strCols.length++row.part strBytes n
    else [])))

variable {v w : Value} {a b : Row} {c k n : ℕ} {f : Value → List Byte}

theorem fixedBytes_length (hk : v.kind = w.kind) : (fixedBytes v).length = (fixedBytes w).length := by
  cases v <;> cases w <;> cases hk <;> simp [fixedBytes]

theorem pv_inj {x y : ℕ} (hx : x < 256^n) (hy : y < 256^n)
    (h : (List.range n).map (pv x) = (List.range n).map (pv y)) : x = y := by
  have hb := ofBytes_congr (w:=n) fun i hi => map_inj_left.mp h i (mem_range.mpr hi)
  rwa [ofBytes_pv,ofBytes_pv,Nat.mod_eq_of_lt hx,Nat.mod_eq_of_lt hy] at hb

theorem value_eq (hk : v.kind = w.kind) (hf : fixedBytes v = fixedBytes w)
    (hs : v.kind = .STR → strBytes v = strBytes w) : v = w := by
  cases v <;> cases w <;> cases hk
  on_goal 4 => exact congrArg _ (hs rfl)
  all_goals rw [BitVec.eq_of_toNat_eq (pv_inj (BitVec.isLt _) (BitVec.isLt _) hf)]

theorem part_length (row : Row) (f : Value → List Byte) (n : ℕ) :
    (row.part f n).length = ∑ c ∈ Finset.range n, (f (row.values c)).length :=
  length_flatMap

theorem part_inj (hlen : ∀ c < n, (f (a.values c)).length = (f (b.values c)).length)
    (h : a.part f n = b.part f n) : ∀ c < n, f (a.values c) = f (b.values c) := by
  induction n with
  | zero => exact fun c hc => absurd hc c.not_lt_zero
  | succ n ih =>
    simp only [part,range_succ,flatMap_append,flatMap_singleton] at h
    obtain ⟨h,hn⟩ := append_inj' h (hlen n n.lt_succ_self)
    intro c hc
    rcases Nat.lt_succ_iff_lt_or_eq.mp hc with hc | rfl
    · exact ih (fun c hc => hlen c (hc.trans n.lt_succ_self)) h c hc
    · exact hn

theorem part_inj_but_one
    (hlen : ∀ c < n, c ≠ k → (f (a.values c)).length = (f (b.values c)).length)
    (h : a.part f n = b.part f n) : ∀ c < n, f (a.values c) = f (b.values c) := by
  refine part_inj (fun c hc => ?_) h
  rcases eq_or_ne c k with rfl | hne
  · have hsum := congrArg length h
    rw [part_length,part_length,← Finset.add_sum_erase _ _ (Finset.mem_range.mpr hc),
      ← Finset.add_sum_erase _ _ (Finset.mem_range.mpr hc),Finset.sum_congr rfl fun x hx => hlen x
        (Finset.mem_range.mp (Finset.mem_of_mem_erase hx)) (Finset.ne_of_mem_erase hx)] at hsum
    exact Nat.add_right_cancel hsum
  · exact hlen c hc hne

theorem Typed.kind (h : a.Typed) (hc : c < a.schema.columns.length) :
    (a.values c).kind = (a.schema.columns[c]).kind :=
  h (_,c) (mk_mem_zipIdx_iff_getElem?.mpr (getElem?_eq_getElem hc))

theorem strBytes_eq_nil (h : a.Typed) (hc : c < a.schema.columns.length)
    (hnot : c ∉ a.schema.strCols) : strBytes (a.values c) = [] := by
  have hkind : (a.values c).kind ≠ .STR := by
    rw [h.kind hc]
    simpa [Schema.strCols,hc] using hnot
  cases hv : a.values c with
  | str s => exact absurd (congrArg Value.kind hv) hkind
  | _ => rfl

def Faithful (a b : Row) : Prop :=
  ∀ s u t, a.toString s = s++t → b.toString u = u++t →
    ∀ c < a.schema.columns.length, a.values c = b.values c

/-- Rows whose strings have equal lengths in all columns but one are told apart, if the first is
dense or there are no strings. -/
theorem toString_faithful (ha : a.Typed) (hb : b.Typed)
    (hschema : a.schema = b.schema) (hdense : a.sparse = false ∨ a.schema.strCols = [])
    (hlen : ∀ c < a.schema.columns.length, c ≠ k →
      (strBytes (a.values c)).length = (strBytes (b.values c)).length) : a.Faithful b := by
  intro s u t hta htb
  obtain ⟨S,va,sa,_⟩ := a
  obtain ⟨_,vb,sb,_⟩ := b
  cases hschema
  have hkind : ∀ c < S.columns.length, (va c).kind = (vb c).kind := fun c hc =>
    (ha.kind hc).trans (hb.kind hc).symm
  have h := (append_cancel_left hta).trans (append_cancel_left htb).symm
  obtain ⟨-,h⟩ := append_inj h (by simp [int,fixedBytes])
  obtain ⟨hfix,h⟩ := append_inj h (by
    rw [part_length,part_length]
    exact Finset.sum_congr rfl fun c hc => fixedBytes_length (hkind c (Finset.mem_range.mp hc)))
  obtain ⟨hs,h⟩ := append_inj h (by simp [int,fixedBytes])
  have hfix := part_inj (fun c hc => fixedBytes_length (hkind c hc)) hfix
  intro c hc
  refine value_eq (hkind c hc) (hfix c hc) fun hstr => ?_
  have hmem : c ∈ S.strCols := by
    refine mem_filter.mpr ⟨mem_range.mpr hc,?_⟩
    rw [getElem?_eq_getElem hc]
    simpa using (ha.kind hc).symm.trans hstr
  have hne := ne_nil_of_mem hmem
  obtain rfl : sa = false := hdense.resolve_right hne
  obtain rfl : sb = false := by
    cases sb with
    | false => rfl
    | true => exact absurd hs (show fixedBytes (.i32 0) ≠ fixedBytes (.i32 1) by decide)
  rw [if_pos (by simpa using hne),if_pos (by simpa using hne)] at h
  obtain ⟨-,h⟩ := append_inj h (by simp [varIdx,int,fixedBytes])
  exact part_inj_but_one hlen h c hc

def filled (S : Schema) (strs : ℕ → List Byte) (sparse : Bool) : Row where
  schema := S
  values c := match (S.columns[c]?).map Column.kind with
    | some .STR => .str (strs c)
    | some .I64 => .i64 0
    | some .DOUBLE => .double 0
    | _ => .i32 0
  sparse := sparse
  tbl := none

variable {S : Schema} {strs strs' : ℕ → List Byte} {sparse : Bool} {d d' : ℕ}

theorem mem_strCols : c ∈ S.strCols ↔ (S.columns[c]?).map Column.kind = some .STR := by
  rw [Schema.strCols,mem_filter,mem_range]
  cases h : S.columns[c]? with
  | none => simp
  | some col =>
    have hlt : c < S.columns.length := (List.getElem?_eq_some_iff.mp h).1
    simp [hlt]

theorem filled_typed : (filled S strs sparse).Typed := by
  rintro ⟨col,c⟩ hp
  have hcol : S.columns[c]? = some col := mk_mem_zipIdx_iff_getElem?.mp hp
  obtain ⟨kind,_⟩ := col
  cases kind <;> simp [filled,hcol,Value.kind]

theorem filled_str (hc : c ∈ S.strCols) : (filled S strs sparse).values c = .str (strs c) := by
  simp only [filled,mem_strCols.mp hc]

theorem strBytes_filled (hc : c ∉ S.strCols) : strBytes ((filled S strs sparse).values c) = [] := by
  rw [mem_strCols] at hc
  simp only [filled]
  split <;> first | rfl | exact absurd ‹_› hc

variable (S strs strs') in
theorem fixed_filled : (filled S strs sparse).part fixedBytes n =
    (filled S strs' sparse).part fixedBytes n := by
  unfold part
  congr 1
  funext c
  simp only [filled]
  split <;> rfl

/-- The block of a row in which one string is not empty. -/
theorem block_filled (hd : d ∈ S.strCols) (s : List Byte) (n : ℕ) :
    (filled S (fun c => if c = d then s else []) sparse).part strBytes n =
      if d < n then s else [] := by
  induction n with
  | zero => rfl
  | succ n ih =>
    unfold part at ih ⊢
    rw [range_succ,flatMap_append,ih,flatMap_singleton]
    by_cases hn : n ∈ S.strCols
    · rw [filled_str hn]
      rcases Nat.lt_trichotomy d n with hlt | rfl | hlt
      · simp [strBytes,hlt,hlt.ne',Nat.lt_succ_of_lt hlt]
      · simp [strBytes]
      · simp [strBytes,hlt.ne,hlt.not_gt,Nat.not_lt.mpr (Nat.succ_le_of_lt hlt)]
    · have hne : d ≠ n := fun h => hn (h ▸ hd)
      rw [strBytes_filled hn,append_nil]
      have hiff : d < n+1 ↔ d < n := by omega
      simp only [hiff]

theorem toString_congr (hschema : a.schema = b.schema) (hsparse : a.sparse = b.sparse)
    (hfix : a.part fixedBytes a.schema.columns.length = b.part fixedBytes a.schema.columns.length)
    (hidx : a.varIdx.take a.schema.strCols.length = b.varIdx.take a.schema.strCols.length)
    (hblock : a.part strBytes a.schema.columns.length = b.part strBytes a.schema.columns.length) :
    a.toString [] = b.toString [] := by
  simp only [toString,← hschema,← hsparse,hfix,hidx,hblock]

def lone (S : Schema) (s : List Byte) (d : ℕ) : Row :=
  filled S (fun c => if c = d then s else []) false

theorem varIdx_lone (hd : d ∈ S.strCols) (s : List Byte) :
    (lone S s d).varIdx = S.strCols.flatMap fun c => int (if d ≤ c then s.length else 0) := by
  unfold varIdx
  refine flatMap_congr fun c _ => ?_
  rw [lone,block_filled hd]
  by_cases hdc : d ≤ c
  · simp [hdc,Nat.lt_succ_of_le hdc]
  · simp [hdc]

/-- The rows divide the bytes of the block differently between the last two strings, which the
copied bytes of `dense_var_idx_` do not show. -/
theorem toString_lone {pre : List ℕ} (hcols : S.strCols = pre++[d,d']) {s : List Byte}
    (hs : s.length = 65536) : (lone S s d).toString [] = (lone S s d').toString [] := by
  have hd : d ∈ S.strCols := by simp [hcols]
  have hd' : d' ∈ S.strCols := by simp [hcols]
  have hsorted : (pre++[d,d']).Pairwise (· < ·) := hcols ▸ pairwise_lt_range.filter _
  obtain ⟨-,htwo,hpre⟩ := pairwise_append.mp hsorted
  have hlt : d < d' := (pairwise_cons.mp htwo).1 d' (by simp)
  have hlast : d' < S.columns.length := mem_range.mp (mem_of_mem_filter hd')
  have hzero : ∀ x, d ≤ x →
      pre.flatMap (fun c => int (if x ≤ c then 65536 else 0)) = pre.flatMap fun _ => int 0 := by
    intro x hx
    refine flatMap_congr fun c hc => ?_
    rw [if_neg (not_le.mpr ((hpre c hc d (by simp)).trans_le hx))]
  have hlen : (pre.flatMap fun _ => int 0).length = pre.length*4 := by
    simp [length_flatMap,int,fixedBytes]
  have hends : ∀ k ≤ 2, (int 65536++int 65536).take k = (int 0++int 65536).take k := by
    decide
  have hidx : (lone S s d).varIdx.take S.strCols.length =
      (lone S s d').varIdx.take S.strCols.length := by
    rw [varIdx_lone hd,varIdx_lone hd',hs,hcols,flatMap_append,flatMap_append,hzero d le_rfl,
      hzero d' hlt.le,take_append,take_append,hlen,length_append]
    congr 1
    simp only [flatMap_cons,flatMap_nil,append_nil,le_refl,hlt.le,hlt.not_ge,if_true,if_false]
    exact hends _ (by simp only [length_cons,length_nil]; omega)
  refine toString_congr rfl rfl (fixed_filled ..) hidx ?_
  exact (block_filled hd _ _).trans
    ((if_pos (hlt.trans hlast)).trans ((block_filled hd' _ _).trans (if_pos hlast)).symm)

/-- Equal bytes from `to_string` mean equal values exactly if no column holds strings, and for
dense rows exactly if at most one does. -/
theorem toString_faithful_iff (S : Schema) :
    ((∀ a b : Row, a.schema = S → b.schema = S → a.Typed → b.Typed → a.Faithful b) ↔
      S.strCols = []) ∧
    ((∀ a b : Row, a.schema = S → b.schema = S → a.Typed → b.Typed → a.sparse = false →
      b.sparse = false → a.Faithful b) ↔ S.strCols.length ≤ 1) := by
  refine ⟨⟨fun h => ?_,fun hnil => ?_⟩,fun h => ?_,fun hone => ?_⟩
  · refine eq_nil_iff_forall_not_mem.mpr fun c hc => ?_
    have hsame : (filled S (fun _ => []) true).toString [] = (filled S (fun _ => [0]) true).toString [] := by
      simp only [toString,fixed_filled S (fun _ => []) fun _ => [0]]
      rfl
    have hvalue := h _ _ rfl rfl filled_typed filled_typed [] [] _ rfl hsame.symm c
      (mem_range.mp (mem_of_mem_filter hc))
    simp [filled_str hc] at hvalue
  · rintro a b rfl hb ha' hb'
    refine toString_faithful (k:=0) ha' hb' hb.symm (.inr hnil) fun c hc _ => ?_
    rw [strBytes_eq_nil ha' hc (by simp [hnil]),strBytes_eq_nil hb' (hb ▸ hc) (by simp [hb,hnil])]
  · by_contra hlen
    obtain ⟨pre,d,d',hcols⟩ : ∃ pre d d', S.strCols = pre++[d,d'] := by
      rcases eq_nil_or_concat' S.strCols with hnil | ⟨l,d',hl⟩
      · simp [hnil] at hlen
      rcases eq_nil_or_concat' l with rfl | ⟨pre,d,rfl⟩
      · simp [hl] at hlen
      · exact ⟨pre,d,d',by simp [hl]⟩
    have hc : d ∈ S.strCols := by simp [hcols]
    have hne : d ≠ d' := by
      have hnodup : (pre++[d,d']).Nodup := hcols ▸ nodup_range.filter _
      simpa using (nodup_append.mp hnodup).2.1
    have hvalue := h _ _ rfl rfl filled_typed filled_typed rfl rfl [] [] _ rfl
      (toString_lone hcols (length_replicate (n:=65536) (a:=0))).symm d
      (mem_range.mp (mem_of_mem_filter hc))
    simp only [filled_str hc,if_neg hne,if_true,Value.str.injEq] at hvalue
    exact absurd (congrArg length hvalue) (by rw [length_replicate]; decide)
  · rintro a b rfl hb ha' hb' ha -
    have hcols : ∀ c ∈ a.schema.strCols, c = a.schema.strCols.headD 0 := by
      intro c hc
      cases hl : a.schema.strCols with
      | nil => simp [hl] at hc
      | cons d l =>
        rw [hl] at hc hone
        have hnil : l = [] := length_eq_zero_iff.mp (by simpa using hone)
        simpa [hnil] using hc
    refine toString_faithful (k:=a.schema.strCols.headD 0) ha' hb' hb.symm (.inl ha)
      fun c hc hne => ?_
    rw [strBytes_eq_nil ha' hc (hne ∘ hcols c),strBytes_eq_nil hb' (hb ▸ hc) (hb ▸ hne ∘ hcols c)]

/-- Two sparse rows, and two dense ones with the strings "", "a", "" and "", "", "a". -/
theorem toString_strings_lost :
    let row (k : ℕ) (sparse : Bool) (c : ℕ) : Row :=
      ⟨⟨replicate k ⟨.STR,false⟩,[]⟩,fun c' => .str (if c' = c then [97] else []),sparse,none⟩;
    (row 1 true 0).toString [] = (row 1 true 1).toString [] ∧
      (row 1 true 0).values 0 ≠ (row 1 true 1).values 0 ∧
      (row 3 false 1).toString [] = (row 3 false 2).toString [] ∧
      (row 3 false 1).values 1 ≠ (row 3 false 2).values 1 := by
  decide

end Row

end Janus.Memdb
