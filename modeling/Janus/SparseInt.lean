import Mathlib

/-! The variable-length integers of the RPC layer: `SparseInt` (`rrr/base/basetypes.cpp`) and the
operators for a `Marshal` (`rrr/misc/marshal.hpp`). The leading ones of the first byte give the
number of bytes behind it; its rest and these bytes hold the low bits of the value, most
significant byte first. The machine is little endian. What stands in a buffer before is `garbage`.
-/

namespace Janus.SparseInt

open List Nat Option

abbrev Byte := BitVec 8

variable {b i k u w limit : ℕ} {buf : ℕ → Byte} {bytes : List Byte} {v : BitVec 64}

/-- `buf_size`: the number of bytes of a value, from its first one. -/
def bufSize (byte0 : Byte) : ℕ :=
  if byte0 &&& 0x80 = 0 then 1
  else if byte0 &&& 0xC0 = 0x80 then 2
  else if byte0 &&& 0xE0 = 0xC0 then 3
  else if byte0 &&& 0xF0 = 0xE0 then 4
  else if byte0 &&& 0xF8 = 0xF0 then 5
  else if byte0 &&& 0xFC = 0xF8 then 6
  else if byte0 &&& 0xFE = 0xFC then 7
  else if byte0 &&& 0xFF = 0xFE then 8
  else 9

def valSize (val : ℤ) : ℕ :=
  if -64 ≤ val ∧ val ≤ 63 then 1
  else if -8192 ≤ val ∧ val ≤ 8191 then 2
  else if -1048576 ≤ val ∧ val ≤ 1048575 then 3
  else if -134217728 ≤ val ∧ val ≤ 134217727 then 4
  else if -17179869184 ≤ val ∧ val ≤ 17179869183 then 5
  else if -2199023255552 ≤ val ∧ val ≤ 2199023255551 then 6
  else if -281474976710656 ≤ val ∧ val ≤ 281474976710655 then 7
  else if -36028797018963968 ≤ val ∧ val ≤ 36028797018963967 then 8
  else 9

def pv (u i : ℕ) : Byte := BitVec.ofNat 8 (u/256^i)

/-- `dump` of an `i32`: the bytes of the buffer that are set, and the size that is returned. -/
def dump32 (val : BitVec 32) : List Byte × ℕ :=
  let pv := pv val.toNat
  if -64 ≤ val.toInt ∧ val.toInt ≤ 63 then ([pv 0 &&& 0x7F],1)
  else if -8192 ≤ val.toInt ∧ val.toInt ≤ 8191 then ([pv 1 &&& 0x3F ||| 0x80,pv 0],2)
  else if -1048576 ≤ val.toInt ∧ val.toInt ≤ 1048575 then
    ([pv 2 &&& 0x1F ||| 0xC0,pv 1,pv 0],3)
  else if -134217728 ≤ val.toInt ∧ val.toInt ≤ 134217727 then
    ([pv 3 &&& 0x0F ||| 0xE0,pv 2,pv 1,pv 0],4)
  else ([if val.toInt < 0 then 0xF7 else 0xF0,pv 3,pv 2,pv 1,pv 0],5)

def dump64 (val : BitVec 64) : List Byte × ℕ :=
  let pv := pv val.toNat
  if -64 ≤ val.toInt ∧ val.toInt ≤ 63 then ([pv 0 &&& 0x7F],1)
  else if -8192 ≤ val.toInt ∧ val.toInt ≤ 8191 then ([pv 1 &&& 0x3F ||| 0x80,pv 0],2)
  else if -1048576 ≤ val.toInt ∧ val.toInt ≤ 1048575 then
    ([pv 2 &&& 0x1F ||| 0xC0,pv 1,pv 0],3)
  else if -134217728 ≤ val.toInt ∧ val.toInt ≤ 134217727 then
    ([pv 3 &&& 0x0F ||| 0xE0,pv 2,pv 1,pv 0],4)
  else if -17179869184 ≤ val.toInt ∧ val.toInt ≤ 17179869183 then
    ([pv 4 &&& 0x07 ||| 0xF0,pv 3,pv 2,pv 1,pv 0],5)
  else if -2199023255552 ≤ val.toInt ∧ val.toInt ≤ 2199023255551 then
    ([pv 5 &&& 0x03 ||| 0xF8,pv 4,pv 3,pv 2,pv 1,pv 0],6)
  else if -281474976710656 ≤ val.toInt ∧ val.toInt ≤ 281474976710655 then
    ([pv 6 &&& 0x01 ||| 0xFC,pv 5,pv 4,pv 3,pv 2,pv 1,pv 0],7)
  else if -36028797018963968 ≤ val.toInt ∧ val.toInt ≤ 36028797018963967 then
    ([0xFE,pv 7,pv 6,pv 5,pv 4,pv 3,pv 2,pv 1,pv 0],8)
  else ([0xFF,pv 7,pv 6,pv 5,pv 4,pv 3,pv 2,pv 1,pv 0],9)

/-- `load_i32` and `load_i64`: the short forms are extended by their sign, the others hold all
`width` bytes behind the first one. -/
def load (limit width : ℕ) (buf : ℕ → Byte) (i : ℕ) : Byte :=
  let bsize := bufSize (buf 0)
  if bsize < limit then
    let top := buf 0 &&& 0xFF >>> bsize
    if top >>> (7-bsize) &&& 1 = 1 then
      if i < bsize-1 then buf (bsize-i-1)
      else if i = bsize-1 then top ||| 0xFF <<< (7-bsize)
      else 0xFF
    else
      if i < bsize-1 then buf (bsize-i-1)
      else if i = bsize-1 then top
      else 0
  else buf (width-i)

def ofBytes (f : ℕ → Byte) : ℕ → ℕ
  | 0 => 0
  | w+1 => ofBytes f w+256^w*(f w).toNat

def loadI32 (buf : ℕ → Byte) : BitVec 32 := BitVec.ofNat 32 (ofBytes (load 5 4 buf) 4)

def loadI64 (buf : ℕ → Byte) : BitVec 64 := BitVec.ofNat 64 (ofBytes (load 8 8 buf) 8)

def putV32 (val : BitVec 32) : List Byte := (dump32 val).1.take (dump32 val).2

def putV64 (val : BitVec 64) : List Byte := (dump64 val).1.take (dump64 val).2

/-- `operator>>`: the buffer after as many bytes were read as the first one tells, and the rest;
`none` where there are too few. -/
def fetch (garbage : ℕ → Byte) (q : List Byte) : Option ((ℕ → Byte) × List Byte) :=
  match q with
  | [] => none
  | byte0::_ =>
    let bsize := bufSize byte0
    if q.length < bsize then none
    else some (fun i => if i < bsize then q.getD i 0 else garbage i,q.drop bsize)

def getV32 (garbage : ℕ → Byte) (q : List Byte) : Option (BitVec 32 × List Byte) :=
  (fetch garbage q).map fun p => (loadI32 p.1,p.2)

def getV64 (garbage : ℕ → Byte) (q : List Byte) : Option (BitVec 64 × List Byte) :=
  (fetch garbage q).map fun p => (loadI64 p.1,p.2)

/-! ### Bytes -/

def lead (k : ℕ) (b : Byte) : Byte := b &&& 0xFF >>> k ||| 0xFF <<< (9-k)

theorem bufSize_lead : ∀ k ∈ List.range' 1 7, ∀ b : Byte, bufSize (lead k b) = k ∧
    lead k b &&& 0xFF >>> k = b &&& 0xFF >>> k := by
  decide +kernel

theorem top_nonneg : ∀ k ∈ List.range' 1 7, ∀ b : Byte, b.toNat < 2^(7-k) →
    (b &&& 0xFF >>> k) >>> (7-k) &&& 1 ≠ 1 ∧ b &&& 0xFF >>> k = b := by
  decide +kernel

theorem top_neg : ∀ k ∈ List.range' 1 7, ∀ b : Byte, 255-b.toNat < 2^(7-k) →
    (b &&& 0xFF >>> k) >>> (7-k) &&& 1 = 1 ∧ b &&& 0xFF >>> k ||| 0xFF <<< (7-k) = b := by
  decide +kernel

theorem pv_toNat (u i : ℕ) : (pv u i).toNat = u/256^i % 256 := BitVec.toNat_ofNat _ _

theorem ofBytes_pv (u w : ℕ) : ofBytes (pv u) w = u % 256^w := by
  induction w with
  | zero => simp [ofBytes,mod_one]
  | succ w ih => rw [ofBytes,ih,pv_toNat,mod_pow_succ]

theorem ofBytes_congr {f f' : ℕ → Byte} (h : ∀ i < w, f i = f' i) : ofBytes f w = ofBytes f' w := by
  induction w with
  | zero => rfl
  | succ w ih =>
    rw [ofBytes,ofBytes,ih fun i hi => h i (lt_succ_of_lt hi),h w (lt_succ_self w)]

theorem ofBytes_mod (f : ℕ → Byte) (w : ℕ) : ofBytes f (w+1) % 256 = (f 0).toNat := by
  induction w with
  | zero =>
    simp only [ofBytes]
    omega
  | succ w ih => rw [ofBytes,pow_succ',Nat.mul_assoc,add_mul_mod_self_left,ih]

/-- A value that a short form of `k` bytes can hold, in terms of its bytes. -/
def Short (k w u : ℕ) : Prop :=
  (pv u (k-1)).toNat < 2^(7-k) ∧ (∀ i, k ≤ i → i < w → pv u i = 0) ∨
  255-(pv u (k-1)).toNat < 2^(7-k) ∧ ∀ i, k ≤ i → i < w → pv u i = 0xFF

theorem load_short (hk : k ∈ List.range' 1 7) (hlimit : k < limit) (hshort : Short k w u)
    (hlead : buf 0 = lead k (pv u (k-1))) (hlow : ∀ i < k-1, buf (k-i-1) = pv u i) (hi : i < w) :
    load limit w buf i = pv u i := by
  obtain ⟨hsize,htop⟩ := bufSize_lead k hk (pv u (k-1))
  unfold load
  dsimp only
  rw [hlead,hsize,htop,if_pos hlimit]
  rcases hshort with ⟨hb,hrest⟩ | ⟨hb,hrest⟩
  · obtain ⟨hsign,hself⟩ := top_nonneg k hk _ hb
    rw [if_neg hsign,hself]
    split_ifs with hlt heq
    · exact hlow i hlt
    · rw [heq]
    · exact (hrest i (by omega) hi).symm
  · obtain ⟨hsign,hself⟩ := top_neg k hk _ hb
    rw [if_pos hsign,hself]
    split_ifs with hlt heq
    · exact hlow i hlt
    · rw [heq]
    · exact (hrest i (by omega) hi).symm

theorem load_long (h : limit ≤ bufSize (buf 0)) (i : ℕ) : load limit w buf i = buf (w-i) := by
  unfold load
  rw [if_neg (Nat.not_lt.mpr h)]

theorem bytes_of_lt {x : ℕ} (hx : x < 2^(7*k-1)) :
    x/256^(k-1) < 2^(7-k) ∧ ∀ i, k ≤ i → x/256^i = 0 := by
  have hpow : ∀ i, (256 : ℕ)^i = 2^(8*i) := fun i => by rw [pow_mul]; norm_num
  constructor
  · rw [hpow]
    refine Nat.div_lt_of_lt_mul ?_
    rw [← pow_add]
    exact hx.trans_le (Nat.pow_le_pow_right (by norm_num) (by omega))
  · intro i hi
    rw [hpow]
    exact div_eq_of_lt (hx.trans_le (Nat.pow_le_pow_right (by norm_num) (by omega)))

theorem pv_compl (hu : u < 256^w) (hi : i < w) :
    (pv u i).toNat = 255-(256^w-(u+1))/256^i % 256 := by
  have hsplit : (256 : ℕ)^w = 256^i*(256*256^(w-i-1)) := by
    rw [← pow_succ',← pow_add]
    congr 1
    omega
  rw [hsplit] at hu ⊢
  rw [mul_sub_div _ _ _ hu,pv_toNat]
  have hlt := Nat.div_lt_of_lt_mul hu
  omega

theorem short_of_bits (hk : k ∈ List.range' 1 7) (hkw : k ≤ w) (hu : u < 256^w)
    (h : u < 2^(7*k-1) ∨ 256^w-(u+1) < 2^(7*k-1)) : Short k w u := by
  have hk1 : 1 ≤ k := (mem_range'_1.mp hk).1
  rcases h with h | h
  · obtain ⟨htop,hrest⟩ := bytes_of_lt h
    refine .inl ⟨?_,fun i hi hiw => BitVec.eq_of_toNat_eq ?_⟩
    · exact (mod_le _ _).trans_lt htop
    · rw [pv_toNat,hrest i hi]
      rfl
  · obtain ⟨htop,hrest⟩ := bytes_of_lt h
    refine .inr ⟨?_,fun i hi hiw => BitVec.eq_of_toNat_eq ?_⟩
    · rw [pv_compl hu (by omega)]
      have := mod_le ((256^w-(u+1))/256^(k-1)) 256
      omega
    · rw [pv_compl hu hiw,hrest i hi]
      rfl

theorem short_of_toInt {m : ℕ} {v : BitVec m} (hm : 2^m = 256^w) (hk : k ∈ List.range' 1 7)
    (hkw : k ≤ w) (hb : b = 2^(7*k-1)) (hlo : -(b : ℤ) ≤ v.toInt) (hhi : v.toInt < b) :
    Short k w v.toNat := by
  have hv := v.isLt
  rw [hm] at hv
  refine short_of_bits hk hkw hv ?_
  rw [BitVec.toInt_eq_toNat_cond,hm] at hlo hhi
  split_ifs at hlo hhi <;> omega

/-! ### Round trips -/

theorem fetch_append {garbage : ℕ → Byte} {byte0 : Byte} {bs rest : List Byte}
    (h : bufSize byte0 = bs.length+1) : fetch garbage (byte0::bs++rest) =
      some (fun i => if i < bs.length+1 then (byte0::bs).getD i 0 else garbage i,rest) := by
  unfold fetch
  rw [cons_append]
  dsimp only
  rw [h,if_neg (by simp)]
  congr 2
  · funext i
    split_ifs with hi
    · rw [← cons_append,getD_append _ _ _ _ (by simpa using hi)]
    · rfl
  · simp

theorem load_eq {m : ℕ} {v : BitVec m} (hm : 2^m = 256^w)
    (h : ∀ i < w, load limit w buf i = pv v.toNat i) :
    BitVec.ofNat m (ofBytes (load limit w buf) w) = v := by
  rw [ofBytes_congr h,ofBytes_pv,← hm,mod_eq_of_lt v.isLt,BitVec.ofNat_toNat,BitVec.setWidth_eq]

def lower (u k : ℕ) : List Byte := (List.range (k-1)).reverse.map (pv u)

theorem lower_getD (hi : i < k-1) (b : Byte) : (b::lower u k).getD (k-i-1) 0 = pv u i := by
  obtain ⟨j,hj⟩ : ∃ j, k-i-1 = j+1 := ⟨k-i-2,by omega⟩
  rw [hj,getD_cons_succ,lower,getD_eq_getElem _ _ (by simp; omega)]
  simp only [getElem_map,getElem_reverse,getElem_range,length_range]
  congr 1
  omega

theorem lead_eq : ∀ b : Byte, b &&& 0x7F = lead 1 b ∧ b &&& 0x3F ||| 0x80 = lead 2 b ∧
    b &&& 0x1F ||| 0xC0 = lead 3 b ∧ b &&& 0x0F ||| 0xE0 = lead 4 b ∧ b &&& 0x07 ||| 0xF0 = lead 5 b ∧
    b &&& 0x03 ||| 0xF8 = lead 6 b ∧ b &&& 0x01 ||| 0xFC = lead 7 b := by
  decide +kernel

/-- The bytes of a short form, which is read by its sign. -/
def ShortForm (limit w u : ℕ) (bytes : List Byte) : Prop :=
  ∃ k ∈ List.range' 1 7, k < limit ∧ Short k w u ∧ bytes = lead k (pv u (k-1))::lower u k

theorem ShortForm.get (h : ShortForm limit w u bytes) (garbage : ℕ → Byte) (rest : List Byte) :
    ∃ buf, fetch garbage (bytes++rest) = some (buf,rest) ∧ ∀ i < w, load limit w buf i = pv u i := by
  obtain ⟨k,hk,hlimit,hshort,rfl⟩ := h
  have hk1 : 1 ≤ k := (mem_range'_1.mp hk).1
  have hlen : (lower u k).length+1 = k := by
    simp only [lower,length_map,length_reverse,length_range]
    omega
  refine ⟨_,fetch_append (by rw [(bufSize_lead k hk _).1,hlen]),fun i hi => ?_⟩
  refine load_short hk hlimit hshort ?_ (fun j hj => ?_) hi
  · rfl
  · rw [hlen,if_pos (by omega)]
    exact lower_getD hj _

theorem shortForm_of_toInt {m : ℕ} {v : BitVec m} (k : ℕ) (hm : 2^m = 256^w)
    (hk : k ∈ List.range' 1 7 ∧ k ≤ w ∧ k < limit) (hb : b = 2^(7*k-1)) (hlo : -(b : ℤ) ≤ v.toInt)
    (hhi : v.toInt < b) (hbytes : bytes = lead k (pv v.toNat (k-1))::lower v.toNat k) :
    ShortForm limit w v.toNat bytes :=
  ⟨k,hk.1,hk.2.2,short_of_toInt hm hk.1 hk.2.1 hb hlo hhi,hbytes⟩

theorem putV64_cases (v : BitVec 64) :
    ShortForm 8 8 v.toNat (putV64 v) ∧ -2^48 ≤ v.toInt ∧ v.toInt < 2^48 ∨
    (-2^55 ≤ v.toInt ∧ v.toInt < 2^55 ∧ ¬(-2^48 ≤ v.toInt ∧ v.toInt < 2^48)) ∧
      putV64 v = [0xFE,pv v.toNat 7,pv v.toNat 6,pv v.toNat 5,pv v.toNat 4,pv v.toNat 3,
        pv v.toNat 2,pv v.toNat 1] ∨
    (v.toInt < -2^55 ∨ 2^55 ≤ v.toInt) ∧ putV64 v = [0xFF,pv v.toNat 7,pv v.toNat 6,pv v.toNat 5,
      pv v.toNat 4,pv v.toNat 3,pv v.toNat 2,pv v.toNat 1,pv v.toNat 0] := by
  unfold putV64 dump64
  simp only [lead_eq]
  split_ifs with h1 h2 h3 h4 h5 h6 h7 h8
  · exact .inl ⟨shortForm_of_toInt 1 rfl (by decide) rfl (by omega) (by omega) rfl,by omega⟩
  · exact .inl ⟨shortForm_of_toInt 2 rfl (by decide) rfl (by omega) (by omega) rfl,by omega⟩
  · exact .inl ⟨shortForm_of_toInt 3 rfl (by decide) rfl (by omega) (by omega) rfl,by omega⟩
  · exact .inl ⟨shortForm_of_toInt 4 rfl (by decide) rfl (by omega) (by omega) rfl,by omega⟩
  · exact .inl ⟨shortForm_of_toInt 5 rfl (by decide) rfl (by omega) (by omega) rfl,by omega⟩
  · exact .inl ⟨shortForm_of_toInt 6 rfl (by decide) rfl (by omega) (by omega) rfl,by omega⟩
  · exact .inl ⟨shortForm_of_toInt 7 rfl (by decide) rfl (by omega) (by omega) rfl,by omega⟩
  · exact .inr (.inl ⟨by omega,rfl⟩)
  · exact .inr (.inr ⟨by omega,rfl⟩)

theorem putV32_cases (v : BitVec 32) : ShortForm 5 4 v.toNat (putV32 v) ∨ ∃ byte0,
    bufSize byte0 = 5 ∧ putV32 v = [byte0,pv v.toNat 3,pv v.toNat 2,pv v.toNat 1,pv v.toNat 0] := by
  unfold putV32 dump32
  simp only [lead_eq]
  split_ifs with h1 h2 h3 h4
  · exact .inl (shortForm_of_toInt 1 rfl (by decide) rfl (by omega) (by omega) rfl)
  · exact .inl (shortForm_of_toInt 2 rfl (by decide) rfl (by omega) (by omega) rfl)
  · exact .inl (shortForm_of_toInt 3 rfl (by decide) rfl (by omega) (by omega) rfl)
  · exact .inl (shortForm_of_toInt 4 rfl (by decide) rfl (by omega) (by omega) rfl)
  · exact .inr ⟨0xF7,by decide,rfl⟩
  · exact .inr ⟨0xF0,by decide,rfl⟩

theorem getV32_putV32 (v : BitVec 32) (rest : List Byte) (garbage : ℕ → Byte) :
    getV32 garbage (putV32 v++rest) = some (v,rest) := by
  unfold getV32
  rcases putV32_cases v with hshort | ⟨byte0,hsize,hput⟩
  · obtain ⟨buf,hfetch,hload⟩ := hshort.get garbage rest
    rw [hfetch,map_some,loadI32,load_eq rfl hload]
  · rw [hput,fetch_append hsize,map_some]
    refine congrArg (fun x => some (x,rest)) (load_eq rfl fun i hi => ?_)
    rw [load_long (show 5 ≤ bufSize byte0 from hsize.ge)]
    interval_cases i <;> rfl

theorem getV64_long (hput : putV64 v = [0xFF,pv v.toNat 7,pv v.toNat 6,pv v.toNat 5,
      pv v.toNat 4,pv v.toNat 3,pv v.toNat 2,pv v.toNat 1,pv v.toNat 0]) (rest : List Byte)
    (garbage : ℕ → Byte) : getV64 garbage (putV64 v++rest) = some (v,rest) := by
  unfold getV64
  rw [hput,fetch_append (show bufSize 0xFF = 9 by decide),map_some]
  refine congrArg (fun x => some (x,rest)) (load_eq rfl fun i hi => ?_)
  rw [load_long (show 8 ≤ bufSize 0xFF by decide)]
  interval_cases i <;> rfl

/-- The form with eight bytes lacks the lowest byte: it is what stood in the buffer. -/
theorem getV64_eight (hput : putV64 v = [0xFE,pv v.toNat 7,pv v.toNat 6,
      pv v.toNat 5,pv v.toNat 4,pv v.toNat 3,pv v.toNat 2,pv v.toNat 1]) (rest : List Byte)
    (garbage : ℕ → Byte) : ∃ v', getV64 garbage (putV64 v++rest) = some (v',rest) ∧
      pv v'.toNat 0 = garbage 8 := by
  unfold getV64
  rw [hput,fetch_append (show bufSize 0xFE = 8 by decide),map_some]
  refine ⟨_,rfl,BitVec.eq_of_toNat_eq ?_⟩
  unfold loadI64
  rw [pv_toNat,BitVec.toNat_ofNat,pow_zero,Nat.div_one,mod_mod_of_dvd _ (by norm_num),ofBytes_mod,
    load_long (show 8 ≤ bufSize 0xFE by decide)]
  rfl

theorem getV64_putV64 (hv : -2^48 ≤ v.toInt ∧ v.toInt < 2^48 ∨ v.toInt < -2^55 ∨ 2^55 ≤ v.toInt)
    (rest : List Byte) (garbage : ℕ → Byte) :
    getV64 garbage (putV64 v++rest) = some (v,rest) := by
  rcases putV64_cases v with ⟨hshort,-⟩ | ⟨hrange,-⟩ | ⟨-,hput⟩
  · obtain ⟨buf,hfetch,hload⟩ := hshort.get garbage rest
    rw [getV64,hfetch,map_some,loadI64,load_eq rfl hload]
  · omega
  · exact getV64_long hput rest garbage

/-- What is written can be read again, except for the values that take eight bytes, for which
`dump` fills nine and returns eight. -/
theorem sparse_int_round_trip (v : BitVec 64) (w : BitVec 32) (rest : List Byte) :
    ((∀ garbage, getV64 garbage (putV64 v++rest) = some (v,rest)) ↔
      -2^48 ≤ v.toInt ∧ v.toInt < 2^48 ∨ v.toInt < -2^55 ∨ 2^55 ≤ v.toInt) ∧
    ∀ garbage, getV32 garbage (putV32 w++rest) = some (w,rest) := by
  refine ⟨⟨fun hall => ?_,fun hv => getV64_putV64 hv rest⟩,getV32_putV32 w rest⟩
  rcases putV64_cases v with ⟨-,hrange⟩ | ⟨-,hput⟩ | ⟨hrange,-⟩
  · exact .inl hrange
  · -- a buffer that held another byte
    obtain ⟨v',hget,hbyte⟩ := getV64_eight hput rest fun _ => ~~~pv v.toNat 0
    cases (hall _).symm.trans hget
    exact absurd hbyte ((by decide +kernel : ∀ b : Byte, b ≠ ~~~b) _)
  · exact .inr hrange

/-- The value `2^50+1` comes back as `2^50` if the buffer of `operator>>` held zeros. -/
theorem sparse_int_drops_byte : putV64 1125899906842625#64 = [0xFE,0,4,0,0,0,0,0] ∧
    getV64 (fun _ => 0) (putV64 1125899906842625#64) = some (1125899906842624#64,[]) := by
  decide +kernel

/-! ### The two encoders -/

theorem pv_signExtend (v : BitVec 32) : (∀ i < 4, pv (v.signExtend 64).toNat i = pv v.toNat i) ∧
      pv (v.signExtend 64).toNat 4 = if v.toInt < 0 then 0xFF else 0 := by
  have hint : (v.signExtend 64).toInt = v.toInt := BitVec.toInt_signExtend_of_le (by decide)
  rw [BitVec.toInt_eq_toNat_cond,BitVec.toInt_eq_toNat_cond] at hint
  refine ⟨fun i hi => BitVec.eq_of_toNat_eq ?_,?_⟩
  · rw [pv_toNat,pv_toNat]
    interval_cases i <;> split_ifs at hint <;> omega
  · rw [BitVec.toInt_eq_toNat_cond]
    split_ifs at hint ⊢ <;> refine BitVec.eq_of_toNat_eq ?_ <;> rw [pv_toNat] <;> simp <;> omega

theorem dump32_eq (v : BitVec 32) : dump32 v = dump64 (v.signExtend 64) := by
  obtain ⟨hlow,htop⟩ := pv_signExtend v
  have hint : (v.signExtend 64).toInt = v.toInt := BitVec.toInt_signExtend_of_le (by decide)
  have hlo := v.le_toInt
  have hhi := v.toInt_lt
  unfold dump32 dump64
  dsimp only
  rw [hint,hlow 0 (by decide),hlow 1 (by decide),hlow 2 (by decide),hlow 3 (by decide),htop,
    if_pos (show -17179869184 ≤ v.toInt ∧ v.toInt ≤ 17179869183 by omega)]
  split_ifs <;> rfl

theorem dump64_size (v : BitVec 64) : (dump64 v).2 = valSize v.toInt ∧
    bufSize ((dump64 v).1.getD 0 0) = (dump64 v).2 := by
  unfold dump64 valSize
  split_ifs <;> refine ⟨rfl,?_⟩ <;> simp only [getD_cons_zero,lead_eq]
  all_goals first | exact (bufSize_lead _ (by decide) _).1 | decide

theorem dump32_length (v : BitVec 32) : (dump32 v).1.length = (dump32 v).2 := by
  unfold dump32
  split_ifs <;> rfl

def dumped (v : BitVec 32) (garbage : ℕ → Byte) (i : ℕ) : Byte :=
  if i < (dump32 v).2 then (dump32 v).1.getD i 0 else garbage i

theorem fetch_dump32 (v : BitVec 32) (garbage : ℕ → Byte) :
    fetch garbage (putV32 v) = some (dumped v garbage,[]) := by
  have hbuf := (dump64_size (v.signExtend 64)).2
  have hlen := dump32_length v
  have hput : putV32 v = (dump32 v).1 := by rw [putV32,← hlen,take_length]
  rw [← dump32_eq,← hlen] at hbuf
  unfold dumped
  rw [hput,← hlen]
  generalize (dump32 v).1 = bytes at hbuf ⊢
  cases bytes with
  | nil => cases hbuf
  | cons byte0 bs =>
    have hfetch : fetch garbage (byte0::bs++[]) = _ := fetch_append hbuf
    rwa [append_nil] at hfetch

/-- Both encoders write an `i32` alike and both decoders read it; the sizes that `dump` returns
are those of `val_size` and `buf_size`. -/
theorem encoders_agree (v : BitVec 32) (w : BitVec 64) :
    dump32 v = dump64 (v.signExtend 64) ∧ (dump32 v).1.length = valSize v.toInt ∧
    bufSize ((dump32 v).1.getD 0 0) = valSize v.toInt ∧
    (∀ garbage, loadI32 (dumped v garbage) = v ∧ loadI64 (dumped v garbage) = v.signExtend 64) ∧
    (dump64 w).2 = valSize w.toInt ∧ bufSize ((dump64 w).1.getD 0 0) = valSize w.toInt := by
  have hint : (v.signExtend 64).toInt = v.toInt := BitVec.toInt_signExtend_of_le (by decide)
  obtain ⟨hsize,hbuf⟩ := dump64_size (v.signExtend 64)
  obtain ⟨hsizew,hbufw⟩ := dump64_size w
  have hput : putV64 (v.signExtend 64) = putV32 v := by rw [putV64,putV32,dump32_eq]
  refine ⟨dump32_eq v,?_,?_,fun garbage => ?_,hsizew,hbufw.trans hsizew⟩
  · rw [dump32_length,dump32_eq,hsize,hint]
  · rw [dump32_eq,hbuf,hsize,hint]
  · have h32 := getV32_putV32 v [] garbage
    have h64 := getV64_putV64 (v := v.signExtend 64) (.inl ?_) [] garbage
    · rw [append_nil,getV32,fetch_dump32] at h32
      rw [append_nil,getV64,hput,fetch_dump32] at h64
      exact ⟨(Prod.mk.inj (some.inj h32)).1,(Prod.mk.inj (some.inj h64)).1⟩
    · have hlo := v.le_toInt
      have hhi := v.toInt_lt
      omega

end Janus.SparseInt
