import Janus.Marshal
import Janus.Transition

/-! `Marshal` objects refine byte queues. Next to its bytes a queue counts the bytes that have left
it, so that a bookmark is a range of positions. -/

namespace Janus.Marshal

open Function List Option Chunk Transition
open SparseInt (Byte)

variable {N : ℕ} {α : Type*}

def move (a b : Fin N) (k : ℕ) (P : Fin N → List α) : Fin N → List α :=
  let P₁ := update P a (P a++(P b).take k)
  update P₁ b ((P₁ b).drop k)

variable {a b : Fin N} {k k' n : ℕ} {P : Fin N → List α}

theorem move_self : move a a k P = update P a ((P a++(P a).take k).drop k) := by
  simp [move]

theorem move_of_ne (hab : a ≠ b) : move a b k P =
    update (update P a (P a++(P b).take k)) b ((P b).drop k) := by
  simp [move,hab.symm]

theorem move_eq (hk : k ≤ (P b).length) : move a b k P = update (update P b ((P b).drop k)) a
      (update P b ((P b).drop k) a++(P b).take k) := by
  by_cases hab : a = b
  · subst hab
    rw [move_self,drop_append_of_le_length hk]
    simp
  · rw [move_of_ne hab,update_comm hab]
    simp [hab]

theorem rotate_rotate {l : List α} (hk : k+k' ≤ l.length) :
    ((l.drop k++l.take k)++(l.drop k++l.take k).take k').drop k' =
      l.drop (k+k')++l.take (k+k') := by
  have hk' : k' ≤ (l.drop k).length := by
    rw [length_drop]
    omega
  rw [take_append_of_le_length hk',append_assoc,drop_append_of_le_length hk',drop_drop,← take_add]

theorem move_move (hk : k+k' ≤ (P b).length) : move a b k' (move a b k P) = move a b (k+k') P := by
  by_cases hab : a = b
  · subst hab
    have hrot : (P a++(P a).take k).drop k = (P a).drop k++(P a).take k :=
      drop_append_of_le_length (by omega)
    simp only [move_self,update_self,update_idem,hrot]
    rw [rotate_rotate hk,drop_append_of_le_length hk]
  · funext c
    simp only [move_of_ne hab,update_self,update_of_ne hab]
    by_cases hcb : c = b
    · subst hcb
      simp
    · by_cases hca : c = a
      · subst hca
        simp [hcb,take_add]
      · simp [hcb,hca]

theorem length_move (hk : k ≤ (P b).length) : (P b).length-k ≤ (move a b k P b).length := by
  by_cases hab : a = b
  · subst hab
    simp [move_self]
    omega
  · simp [move_of_ne hab]

theorem map_move {β : Type*} (f : α → β) :
    (fun c => (move a b k P c).map f) = move a b k fun c => (P c).map f := by
  funext c
  unfold move
  by_cases hcb : c = b
  · subst hcb
    by_cases hca : c = a
    · subst hca
      simp
    · simp [hca]
  · by_cases hca : c = a
    · subst hca
      simp [hcb]
    · simp [hcb,hca]

/-! ### The queues -/

structure Mark (N : ℕ) where
  owner : Fin N
  start : ℕ
  size : ℕ

structure Queues (N : ℕ) where
  bytes : Fin N → List Byte
  taken : Fin N → ℕ
  marks : List (Mark N)

namespace Queues

def empty (N : ℕ) : Queues N := ⟨fun _ => [],fun _ => 0,[]⟩

def append (Q : Queues N) (a : Fin N) (l : List Byte) : Queues N :=
  {Q with bytes := update Q.bytes a (Q.bytes a++l)}

def drop (Q : Queues N) (a : Fin N) (k : ℕ) : Queues N :=
  {Q with bytes := update Q.bytes a ((Q.bytes a).drop k)
          taken := update Q.taken a (Q.taken a+k)}

def next (Q : Queues N) : Op N → List Byte → Queues N
  | .write a p n,_ => Q.append a ((List.range n).map p)
  | .read a _,out => Q.drop a out.length
  | .peek _ _,_ => Q
  | .readFromMarshal a m n,_ =>
    {Q with bytes := move a m n Q.bytes, taken := update Q.taken m (Q.taken m+n)}
  | .setBookmark a n,out =>
    {Q.append a out with marks := Q.marks++[⟨a,Q.taken a+(Q.bytes a).length,n⟩]}
  | .writeBookmark k p,_ =>
    match Q.marks[k]? with
    | none => Q
    | some m =>
      let i := m.start-Q.taken m.owner
      {Q with bytes := update Q.bytes m.owner ((Q.bytes m.owner).take i ++
       (List.range m.size).map p++(Q.bytes m.owner).drop (i+m.size))}
  | .writeToFd a _,out => Q.drop a out.length
  | .readFromFd a _ _,out => Q.append a out
  | .getAndResetWriteCnt _,_ => Q

def Allows (Q : Queues N) : Op N → List Byte → Prop
  | .read a n,out | .peek a n,out => out = (Q.bytes a).take n
  | .setBookmark _ n,out => out.length = n
  | .writeToFd a _,out => out <+: Q.bytes a
  | .readFromFd _ input _,out => out <+: input
  | _,out => out = []

end Queues

def joint (N : ℕ) : Transition.System (Store N × Queues N) (Op N) where
  init x := (∀ a, x.1.marshals a = ⟨[],0,0⟩) ∧ (∀ d, x.1.heap.ref d = 0) ∧ x.1.bookmarks = [] ∧
    x.2 = Queues.empty N
  step x op := (x.1.step op).map fun r => (r.2,x.2.next op r.1)

namespace Store

variable {s s' : Store N} {new : List Place}
variable {x : Heap × List Chunk} {h' : Heap} {cs' : List Chunk} {k : ℕ} {m : Fin N}

def spots (s : Store N) (a : Fin N) : List Place := places (s.chunks a)

def content (s : Store N) (a : Fin N) : List Byte := (s.spots a).map s.heap.byte

def Apart (s : Store N) (a : Fin N) (d : ℕ) : Prop :=
  ∀ b, b ≠ a → ∀ c ∈ s.chunks b, c.data = d → c.contentSize = 0

/-- No other object has unread bytes in the buffer of a tail that can be written to. -/
def TailApart (s : Store N) (a : Fin N) : Prop :=
  ∀ t ∈ (s.chunks a).getLast?, t.fullyWritten s.heap = false → s.Apart a t.data

def TailAlone (s : Store N) (a : Fin N) : Prop :=
  s.TailApart a ∧ ∀ t ∈ (s.chunks a).getLast?, t.fullyWritten s.heap = false →
    ∀ c ∈ (s.chunks a).dropLast, c.data = t.data → c.contentSize = 0

/-- At most one chunk has unread bytes in the buffer, and it belongs to the object. -/
def Alone (s : Store N) (a : Fin N) (d : ℕ) : Prop :=
  s.Apart a d ∧ (s.chunks a).countP (fun c => c.data = d ∧ c.contentSize ≠ 0) ≤ 1

def beforeCopy (s : Store N) (a m : Fin N) (n : ℕ) : Store N :=
  (s.read m (min (room s.heap (s.chunks a)) n)).2

/-! ### Sound stores -/

structure Sound (s : Store N) : Prop where
  linked : ∀ a, Linked s.heap (s.chunks a)
  counted : ∀ d, s.heap.ref d = ∑ a, refs (s.chunks a) d

def Sized (s : Store N) : Prop := ∀ a, (s.marshals a).contentSize = (s.spots a).length

theorem Sound.ready (hs : s.Sound) (a : Fin N) : Ready s.heap (s.chunks a) where
  toLinked := hs.linked a
  held d := by
    rw [hs.counted]
    exact Finset.single_le_sum (f:=fun b => refs (s.chunks b) d) (fun _ _ => Nat.zero_le _)
      (Finset.mem_univ a)
  fresh d hd := by
    rw [hs.counted]
    refine Finset.sum_eq_zero fun b _ => countP_eq_zero.mpr fun c hc => ?_
    have := ((hs.linked b).fits c hc).alloc
    simp only [decide_eq_true_eq]
    omega

theorem chunks_put : (s.put a x).chunks = update s.chunks a x.2 := by
  funext b
  by_cases hb : b = a
  · subst hb
    simp [chunks,put,set]
  · simp [chunks,put,set,hb]

theorem chunks_set {m : Marshal} (hm : m.chunks = s.chunks a) : (s.set a m).chunks = s.chunks := by
  funext b
  by_cases hb : b = a
  · subst hb
    simpa [chunks,set] using hm
  · simp [chunks,set,hb]

@[simp] theorem chunks_grow : (s.grow a n).chunks = s.chunks := chunks_set rfl

@[simp] theorem chunks_enlarge : (s.enlarge a n).chunks = s.chunks := chunks_set rfl

@[simp] theorem chunks_shrink : (s.shrink a n).chunks = s.chunks := chunks_set rfl

theorem Sound.congr (hs : s.Sound) (hheap : s'.heap = s.heap) (hchunks : s'.chunks = s.chunks) :
    s'.Sound where
  linked a := by
    rw [hheap,hchunks]
    exact hs.linked a
  counted d := by
    rw [hheap,hchunks]
    exact hs.counted d

theorem Sound.put (hs : s.Sound) (ht : Turns s.heap (s.chunks a) h' cs' k new) :
    (s.put a (h',cs')).Sound where
  linked b := by
    rw [chunks_put]
    by_cases hb : b = a
    · subst hb
      rw [update_self]
      exact ht.ready.toLinked
    · rw [update_of_ne hb]
      exact (hs.linked b).frame ht.size ht.next
  counted d := by
    have hrefs := ht.refs d
    have hsum := hs.counted d
    rw [chunks_put,← Finset.add_sum_erase _ _ (Finset.mem_univ a),update_self]
    rw [← Finset.add_sum_erase _ _ (Finset.mem_univ a)] at hsum
    have herase : ∑ b ∈ Finset.univ.erase a, refs (update s.chunks a cs' b) d =
        ∑ b ∈ Finset.univ.erase a, refs (s.chunks b) d :=
      Finset.sum_congr rfl fun b hb => by rw [update_of_ne (Finset.ne_of_mem_erase hb)]
    change h'.ref d = refs cs' d+_
    rw [herase]
    omega

theorem spots_put : (s.put a x).spots = update s.spots a (places x.2) := by
  funext b
  unfold spots
  rw [chunks_put]
  by_cases hb : b = a
  · subst hb
    simp
  · simp [hb]

def Same (s s' : Store N) : Prop := s'.heap.byte = s.heap.byte ∧ s'.bookmarks = s.bookmarks

theorem spots_of_takes (ht : Takes s.heap (s.chunks a) h' cs' k) :
    ((s.put a (h',cs')).shrink a k).spots = update s.spots a ((s.spots a).drop k) := by
  have hput : ((s.put a (h',cs')).shrink a k).spots = (s.put a (h',cs')).spots := by
    funext b
    unfold spots
    rw [chunks_shrink]
  rw [hput,spots_put,ht.places,append_nil]
  rfl

theorem sized_of_takes (hz : s.Sized) (ht : Takes s.heap (s.chunks a) h' cs' k) :
    ((s.put a (h',cs')).shrink a k).Sized := by
  intro b
  rw [spots_of_takes ht]
  have hb' := hz b
  by_cases hb : b = a
  · subst hb
    simp [shrink,set,put,hb']
  · simp [shrink,set,put,hb,hb']

theorem read_spec (hs : s.Sound) (hz : s.Sized) (a : Fin N) (n : ℕ) :
    (s.read a n).1 = (s.content a).take n ∧ (s.read a n).2.Sound ∧ (s.read a n).2.Sized ∧
      (s.read a n).2.spots = update s.spots a ((s.spots a).drop (s.read a n).1.length) ∧
      s.Same (s.read a n).2 := by
  obtain ⟨hbytes,htakes⟩ := readChunks_spec (hs.ready a) n
  refine ⟨?_,(hs.put htakes.toTurns).congr rfl chunks_shrink,sized_of_takes hz htakes,
    spots_of_takes htakes,htakes.byte,rfl⟩
  unfold content spots
  rw [← map_take,← hbytes]
  rfl

def Ahead (s : Store N) (a : Fin N) : Prop :=
  ∀ t ∈ (s.chunks a).getLast?, t.fullyWritten s.heap = false → ∀ b, ∀ c ∈ s.chunks b,
    c.data = t.data → c.contentSize ≠ 0 → c.writeIdx ≤ t.writeIdx

theorem Ahead.not_beyond (hs : s.Sound) (ha : s.Ahead a) {x : Place} (hx : x ∈ s.spots b) :
    ¬Beyond s.heap (s.chunks a) x.1 x.2 := by
  obtain ⟨c,hc,hxc⟩ := mem_flatMap.mp hx
  obtain ⟨hd,hlo,hhi⟩ := mem_places.mp hxc
  have hfits := (hs.linked b).fits c hc
  have hw : x.2 < c.writeIdx := by
    unfold Chunk.contentSize at hhi
    omega
  rintro (hnext | ⟨t,ht,hdt,hi⟩)
  · have := hfits.alloc
    omega
  · cases hfull : t.fullyWritten s.heap with
    | false =>
      have := ha t ht hfull b c hc (hd.symm.trans hdt) (by unfold Chunk.contentSize; omega)
      omega
    | true =>
      have hsize : t.writeIdx = s.heap.size t.data := of_decide_eq_true hfull
      have := hfits.bound
      rw [← hd,hdt] at this
      omega

theorem spots_kept (hs : s.Sound) (ha : s.Ahead a)
    (hw : Writes s.heap (s.chunks a) h' cs' new) (b : Fin N) :
    (s.spots b).map h'.byte = s.content b :=
  map_congr_left fun x hx => hw.kept x ((hs.linked b).alloc hx) fun hnew =>
    ha.not_beyond hs hx (hw.beyond x hnew)

structure Grown (s s' : Store N) (a : Fin N) (new : List Place) : Prop where
  sound : s'.Sound
  sized : s'.Sized
  spots : s'.spots = update s.spots a (s.spots a++new)

theorem grown_of_writes (hs : s.Sound) (hz : s.Sized)
    (hw : Writes s.heap (s.chunks a) h' cs' new) (hheap : s'.heap = h')
    (hchunks : s'.chunks = update s.chunks a cs') (hsize : ∀ b, (s'.marshals b).contentSize =
      (s.marshals b).contentSize+if b = a then new.length else 0) : Grown s s' a new := by
  have hput : s'.chunks = (s.put a (h',cs')).chunks := by rw [hchunks,chunks_put]
  have hspots : s'.spots = update s.spots a (s.spots a++new) := by
    have : s'.spots = (s.put a (h',cs')).spots := by
      funext b
      unfold Store.spots
      rw [hput]
    rw [this,spots_put,hw.places]
    rfl
  refine ⟨(hs.put hw.toTurns).congr hheap hput,fun b => ?_,hspots⟩
  rw [hspots,hsize,hz b]
  by_cases hb : b = a
  · subst hb
    simp
  · simp [hb]

theorem Grown.content (hg : Grown s s' a new)
    (hkept : ∀ b, (s.spots b).map s'.heap.byte = s.content b) :
    s'.content = update s.content a (s.content a++new.map s'.heap.byte) := by
  funext b
  unfold Store.content
  rw [hg.spots]
  by_cases hb : b = a
  · subst hb
    rw [update_self,update_self,map_append]
    exact congrArg (·++_) (hkept b)
  · rw [update_of_ne hb,update_of_ne hb]
    exact hkept b

theorem grow_spec (hs : s.Sound) (hz : s.Sized) (ha : s.Ahead a) {h' : Heap} {cs' : List Chunk}
    {l : List Byte} (hw : Writes s.heap (s.chunks a) h' cs' new)
    (hbytes : new.map h'.byte = l) (hn : l.length = n) :
    Grown s ((s.put a (h',cs')).grow a n) a new ∧ ((s.put a (h',cs')).grow a n).content =
      update s.content a (s.content a++l) := by
  have hlen : new.length = n := by rw [← hn,← hbytes,length_map]
  have hg : Grown s ((s.put a (h',cs')).grow a n) a new := by
    refine grown_of_writes hs hz hw rfl (by rw [chunks_grow,chunks_put]) fun b => ?_
    by_cases hb : b = a
    · subst hb
      simp [grow,put,set,hlen]
    · simp [grow,put,set,hb]
  refine ⟨hg,?_⟩
  rw [hg.content (spots_kept hs ha hw),← hbytes]
  rfl

theorem write_spec (hs : s.Sound) (hz : s.Sized) (ha : s.Ahead a) (p : ℕ → Byte) (n : ℕ) :
    ∃ new, Grown s (s.write a p n) a new ∧ (s.write a p n).content =
      update s.content a (s.content a++(List.range n).map p) := by
  obtain ⟨new,hw,hbytes⟩ := writeChunks_spec (hs.ready a) p n
  exact ⟨new,grow_spec hs hz ha hw hbytes (by simp)⟩

/-! ### Moving bytes between two objects -/

theorem fetchTurn_spec {c : Chunk} {rest : List Chunk} {cnt : ℕ} (hs : s.Sound)
    (hroom : hasRoom s.heap (s.chunks a) = false) (hm : s.chunks m = c::rest)
    (hcnt : cnt ≤ c.contentSize) : let s' := s.fetchTurn a m c cnt
    s'.Sound ∧ s'.spots = move a m cnt s.spots ∧ s.Same s' ∧
      (∀ b, (s'.marshals b).contentSize = (s.marshals b).contentSize) ∧
      (c.readIdx+cnt = s.heap.size c.data → hasRoom s'.heap (s'.chunks a) = false) := by
  intro s'
  have hc : c.Fits s.heap := (hs.linked m).fits c (hm ▸ mem_cons_self)
  have hle : c.readIdx+cnt ≤ c.writeIdx := by
    have := hc.le
    unfold Chunk.contentSize at hcnt
    omega
  set chnk : Chunk := {c with writeIdx := c.readIdx+cnt} with hchnk
  have hplaces : chnk.places = (s.spots m).take cnt := by
    unfold spots
    rw [hchnk,places_take hcnt,hm,places_cons,take_append_of_le_length (by simpa using hcnt)]
  have hpush := shared_turns (hs.ready a) hroom
    (c:=chnk) ⟨Nat.le_add_right _ _,hle.trans hc.bound,hc.unread,hc.alloc⟩
  set s₁ := s.put a (s.heap.refCopy c.data,s.chunks a++[chnk]) with hs₁
  have hsound₁ : s₁.Sound := hs.put hpush
  have hspots₁ : s₁.spots = update s.spots a (s.spots a++(s.spots m).take cnt) := by
    rw [hs₁,spots_put,← hplaces]
    simp [spots]
  -- the head is still there
  obtain ⟨rest₁,hm₁⟩ : ∃ rest₁, s₁.chunks m = c::rest₁ := by
    rw [hs₁,chunks_put]
    by_cases hb : m = a
    · subst hb
      exact ⟨rest++[chnk],by rw [update_self,hm]; rfl⟩
    · exact ⟨rest,by rw [update_of_ne hb,hm]⟩
  have hadv := advance_takes (hm₁ ▸ hsound₁.ready m) hcnt
  rw [← hm₁] at hadv
  have heq : s' = s₁.put m (advance s₁.heap (s₁.chunks m) cnt) := rfl
  rw [heq]
  refine ⟨hsound₁.put hadv.toTurns,?_,⟨hadv.byte.trans (Heap.refCopy_byte _),rfl⟩,fun b => ?_,
    fun hfull => ?_⟩
  · rw [spots_put,hadv.places,append_nil]
    unfold move
    rw [← hspots₁]
    rfl
  · by_cases hbm : b = m
    · subst hbm
      by_cases hba : b = a
      · subst hba
        simp [s₁,put,set]
      · simp [s₁,put,set,hba]
    · by_cases hba : b = a
      · subst hba
        simp [s₁,put,set,hbm]
      · simp [s₁,put,set,hba,hbm]
  · have hlast : ∀ t ∈ (s₁.chunks a).getLast?, t.writeIdx = s₁.heap.size t.data := by
      rw [hs₁,chunks_put,update_self,getLast?_concat]
      rintro t ⟨⟩
      exact hfull.trans (Heap.refCopy_size _ _).symm
    rw [hasRoom_eq_false,chunks_put]
    intro t ht
    have halloc : ∀ t ∈ (s₁.chunks a).getLast?, t.data < s₁.heap.next := fun t ht =>
      ((hsound₁.linked a).fits t (mem_of_getLast? ht)).alloc
    by_cases hb : a = m
    · subst hb
      rw [update_self] at ht
      obtain ⟨t₁,ht₁,hd,hw⟩ := hadv.last t ht
      rw [hw,hd,hlast t₁ ht₁]
      exact (hadv.size _ (halloc t₁ ht₁)).symm
    · rw [update_of_ne hb] at ht
      rw [hlast t ht]
      exact (hadv.size _ (halloc t ht)).symm

theorem fetch_spec {fuel n : ℕ} (hs : s.Sound) (hroom : n ≠ 0 → hasRoom s.heap (s.chunks a) = false)
    (hn : n ≤ (s.spots m).length) (hfuel : n ≤ fuel) :
    ∃ s', s.fetch a m fuel n = some s' ∧ s'.Sound ∧ s'.spots = move a m n s.spots ∧ s.Same s' ∧
      ∀ b, (s'.marshals b).contentSize = (s.marshals b).contentSize := by
  induction fuel generalizing s n with
  | zero =>
    obtain rfl : n = 0 := by omega
    exact ⟨s,by unfold fetch; rfl,hs,by simp [move],⟨rfl,rfl⟩,fun _ => rfl⟩
  | succ fuel ih =>
    cases n with
    | zero => exact ⟨s,by unfold fetch; rfl,hs,by simp [move],⟨rfl,rfl⟩,fun _ => rfl⟩
    | succ n =>
      cases hm : s.chunks m with
      | nil =>
        unfold spots at hn
        rw [hm] at hn
        simp at hn
      | cons c rest =>
        have hlink := hs.linked m
        rw [hm] at hlink
        have hlen : (s.spots m).length = c.contentSize+(places rest).length := by
          unfold spots
          rw [hm]
          simp
        have hpos : c.contentSize ≠ 0 := by
          intro hzero
          have hnil := hlink.places_eq_nil hzero
          unfold spots at hn
          rw [hm,hnil] at hn
          simp at hn
        have hcnt : min c.contentSize (n+1) ≤ c.contentSize := min_le_left _ _
        obtain ⟨hsound,hspots,hsame,hsize,hfull⟩ := fetchTurn_spec hs (hroom (by omega)) hm hcnt
        set cnt := min c.contentSize (n+1) with hcntdef
        have hroom' : n+1-cnt ≠ 0 → hasRoom (s.fetchTurn a m c cnt).heap
            ((s.fetchTurn a m c cnt).chunks a) = false := by
          -- more is wanted than the head has: it is not the tail
          intro hmore
          have hall : cnt = c.contentSize := by omega
          have hrest : rest ≠ [] := by
            rintro rfl
            simp at hlen
            omega
          refine hfull ?_
          have := (hlink.fits c mem_cons_self).le
          rw [hall,← hlink.head_full hrest]
          unfold Chunk.contentSize
          omega
        obtain ⟨s',hfetch,hsound',hspots',hsame',hsize'⟩ := ih hsound hroom'
          (by rw [hspots]; exact le_trans (by omega) (length_move (by omega))) (by omega)
        refine ⟨s',?_,hsound',?_,⟨hsame'.1.trans hsame.1,hsame'.2.trans hsame.2⟩,
          fun b => (hsize' b).trans (hsize b)⟩
        · unfold fetch
          rw [hm]
          exact hfetch
        · rw [hspots',hspots,move_move (by omega)]
          congr 1
          omega

def Shifts (s s' : Store N) (k : Fin N → ℕ) : Prop :=
  ∀ b, ∃ new, s'.spots b = (s.spots b).drop (k b)++new

theorem Grown.shifts (hg : Grown s s' a new) : s.Shifts s' fun _ => 0 := by
  intro b
  rw [hg.spots]
  by_cases hb : b = a
  · subst hb
    exact ⟨new,by simp⟩
  · exact ⟨[],by simp [hb]⟩

theorem Shifts.trans {s'' : Store N} {k k' : Fin N → ℕ} (h₁ : s.Shifts s' k)
    (h₂ : s'.Shifts s'' k') (hk : ∀ b, k b+k' b ≤ (s.spots b).length) :
    s.Shifts s'' fun b => k b+k' b := by
  intro b
  obtain ⟨new,hnew⟩ := h₁ b
  obtain ⟨new',hnew'⟩ := h₂ b
  refine ⟨new++new',?_⟩
  have := hk b
  rw [hnew',hnew,drop_append_of_le_length (by rw [length_drop]; omega),drop_drop,append_assoc]

theorem shifts_move (hn : n ≤ (s.spots m).length) (hspots : s'.spots = move a m n s.spots) :
    s.Shifts s' (update (fun _ => 0) m n) := by
  intro b
  rw [hspots,move_eq hn]
  by_cases hba : b = a
  · subst hba
    by_cases hbm : b = m
    · subst hbm
      exact ⟨_,by simp; rfl⟩
    · exact ⟨_,by simp [hbm]; rfl⟩
  · by_cases hbm : b = m
    · subst hbm
      exact ⟨[],by simp [hba]⟩
    · exact ⟨[],by simp [hba,hbm]⟩

theorem Same.content_move (hsame : s.Same s') (hspots : s'.spots = move a m n s.spots) :
    s'.content = move a m n s.content := by
  have hmap := map_move (a:=a) (b:=m) (k:=n) (P:=s.spots) s.heap.byte
  unfold content
  rw [hspots,hsame.1]
  exact hmap

theorem share_spec (hs : s.Sound) (hz : s.Sized) (hroom : hasRoom s.heap (s.chunks a) = false)
    (hn : n ≤ (s.marshals m).contentSize) :
    ∃ s', s.share a m n = some s' ∧ s'.Sound ∧ s'.Sized ∧ s'.spots = move a m n s.spots ∧
      s.Same s' := by
  have hlen : n ≤ (s.spots m).length := hz m ▸ hn
  obtain ⟨s₁,hfetch,hsound,hspots,hsame,hsize⟩ := fetch_spec hs (fun _ => hroom) hlen le_rfl
  have hcheck : n ≤ ((s₁.grow a n).marshals m).contentSize := by
    have := hsize m
    by_cases hb : m = a
    · subst hb
      simp [grow,set]
    · simp [grow,set,hb]
      omega
  have hspots' : ((s₁.grow a n).shrink m n).spots = move a m n s.spots := by
    rw [← hspots]
    funext c
    unfold spots
    simp
  refine ⟨(s₁.grow a n).shrink m n,?_,hsound.congr rfl (by simp),fun b => ?_,hspots',hsame⟩
  · unfold share
    rw [hfetch]
    simp only [bind_eq_bind,bind_some]
    rw [if_pos hcheck]
  · rw [hspots']
    have hb := hsize b
    have hzb := hz b
    by_cases ham : a = m
    · subst ham
      rw [move_self]
      by_cases hba : b = a
      · subst hba
        simp [shrink,grow,set,hb,hzb,hlen]
      · simp [shrink,grow,set,hba,hb,hzb]
    · rw [move_of_ne ham]
      by_cases hbm : b = m
      · subst hbm
        simp [shrink,grow,set,Ne.symm ham,hb,hzb]
      · by_cases hba : b = a
        · subst hba
          simp [shrink,grow,set,hbm,hb,hzb,hlen]
        · simp [shrink,grow,set,hbm,hba,hb,hzb]

theorem map_getD_range (l : List Byte) : (List.range l.length).map (fun i => l.getD i 0) = l := by
  apply ext_getElem
  · simp
  · intro i h₁ h₂
    simp [h₂]

theorem copy_spec (hs : s.Sound) (hz : s.Sized) (hk : k ≤ (s.marshals m).contentSize)
    (ha : (s.read m k).2.Ahead a) : ∃ buf, (s.read m k).1 = buf ∧ buf.length = k ∧
      let s' := (s.read m k).2.write a (fun i => buf.getD i 0) k
      s'.Sound ∧ s'.Sized ∧ s'.content = move a m k s.content ∧
        s.Shifts s' (update (fun _ => 0) m k) := by
  obtain ⟨hbytes,hs₁,hz₁,hspots₁,hsame₁⟩ := read_spec hs hz m k
  have hlen : k ≤ (s.spots m).length := hz m ▸ hk
  have hlen' : k ≤ (s.content m).length := by simpa [content] using hlen
  have hbuf : (s.read m k).1.length = k := by
    rw [hbytes,length_take,min_eq_left hlen']
  obtain ⟨new,hg,hcontent⟩ := write_spec hs₁ hz₁ ha (fun i => (s.read m k).1.getD i 0) k
  have hrange : (range k).map (fun i => (s.read m k).1.getD i 0) = (s.content m).take k := by
    have hmap := map_getD_range (s.read m k).1
    rw [hbuf] at hmap
    exact hmap.trans hbytes
  rw [hbuf] at hspots₁
  have hcontent₁ : (s.read m k).2.content = update s.content m ((s.content m).drop k) := by
    funext b
    unfold content
    rw [hspots₁,hsame₁.1]
    by_cases hb : b = m
    · subst hb
      simp
    · simp [hb]
  refine ⟨_,rfl,hbuf,hg.sound,hg.sized,?_,fun b => ?_⟩
  · rw [hcontent,hrange,hcontent₁,move_eq hlen']
  · obtain ⟨new',hnew'⟩ := hg.shifts b
    rw [hnew',hspots₁]
    by_cases hb : b = m
    · subst hb
      simp
    · simp [hb]

theorem room_read (hs : s.Sound) (hroom : hasRoom s.heap (s.chunks a) = true) :
    hasRoom (s.read m k).2.heap ((s.read m k).2.chunks a) = true ∧
      room (s.read m k).2.heap ((s.read m k).2.chunks a) = room s.heap (s.chunks a) := by
  have htakes := (readChunks_spec (hs.ready m) k).2
  have hchunks : (s.read m k).2.chunks =
      update s.chunks m (readChunks s.heap (s.chunks m) k).2.2 := by
    unfold read
    simp only [chunks_shrink,chunks_put]
  rw [hchunks]
  by_cases hb : a = m
  · subst hb
    rw [update_self]
    exact htakes.room (hs.linked a) hroom
  · rw [update_of_ne hb]
    change hasRoom (readChunks s.heap (s.chunks m) k).2.1 _ = true ∧
      room (readChunks s.heap (s.chunks m) k).2.1 _ = _
    unfold hasRoom room at *
    cases hlast : (s.chunks a).getLast? with
    | none =>
      rw [hlast] at hroom
      cases hroom
    | some t =>
      rw [hlast] at hroom
      have hsize := htakes.size _ ((hs.linked a).fits t (mem_of_getLast? hlast)).alloc
      simp only [any_some,fullyWritten] at hroom ⊢
      rw [hsize]
      exact ⟨hroom,rfl⟩

theorem readFromMarshal_spec (hs : s.Sound) (hz : s.Sized) (hn : n ≤ (s.marshals m).contentSize)
    (ha : hasRoom s.heap (s.chunks a) = true → (s.beforeCopy a m n).Ahead a) :
    ∃ s', s.readFromMarshal a m n = some s' ∧ s'.Sound ∧ s'.Sized ∧
      s'.content = move a m n s.content ∧ s.Shifts s' (update (fun _ => 0) m n) ∧
      s'.bookmarks = s.bookmarks := by
  have hlen : n ≤ (s.spots m).length := hz m ▸ hn
  unfold readFromMarshal
  split_ifs with hroom
  · set k := min (room s.heap (s.chunks a)) n with hk
    obtain ⟨buf,hread,hbuf,hs₂,hz₂,hcontent,hshifts⟩ := copy_spec hs hz
      (show k ≤ (s.marshals m).contentSize by omega) (ha hroom)
    dsimp only
    rw [hread,if_pos hbuf]
    set s₂ := (s.read m k).2.write a (fun i => buf.getD i 0) k with hs₂def
    by_cases hrest : n-k = 0
    · have hkn : k = n := by omega
      rw [if_pos hrest]
      exact ⟨s₂,rfl,hs₂,hz₂,hkn ▸ hcontent,hkn ▸ hshifts,rfl⟩
    rw [if_neg hrest]
    -- the tail has been filled
    have hfull : hasRoom s₂.heap (s₂.chunks a) = false := by
      obtain ⟨-,hs₁,-,-,-⟩ := read_spec hs hz m k
      have hroom₁ := room_read (k:=k) (m:=m) hs hroom
      have hw := writeChunks_full (hs₁.ready a) hroom₁.1 fun i => buf.getD i 0
      rw [hroom₁.2,show room s.heap (s.chunks a) = k by omega] at hw
      rw [hs₂def]
      unfold write
      simp only [chunks_grow,chunks_put,update_self]
      exact hw
    rw [if_neg (by simp [hfull])]
    have hcs : (s₂.content m).length = (s₂.marshals m).contentSize := by
      rw [hz₂ m]
      simp [content]
    have hlenc : n ≤ (s.content m).length := by simpa [content] using hlen
    have hn₂ : n-k ≤ (s₂.marshals m).contentSize := by
      rw [← hcs,hcontent]
      exact le_trans (by omega) (length_move (by omega))
    obtain ⟨s',hshare,hs',hz',hspots',hsame'⟩ := share_spec hs₂ hz₂ hfull hn₂
    refine ⟨s',hshare,hs',hz',?_,?_,hsame'.2⟩
    · rw [hsame'.content_move hspots',hcontent,move_move (by omega)]
      congr 1
      omega
    · have hsum : update (fun _ => 0) m n = fun b => update (fun _ : Fin N => 0) m k b+
            update (fun _ : Fin N => 0) m (n-k) b := by
        funext b
        by_cases hb : b = m
        · subst hb
          simp
          omega
        · simp [hb]
      rw [hsum]
      refine hshifts.trans (shifts_move (hz₂ m ▸ hn₂) hspots') fun b => ?_
      by_cases hb : b = m
      · subst hb
        simp
        omega
      · simp [hb]
  · obtain ⟨s',hshare,hs',hz',hspots',hsame'⟩ := share_spec hs hz (by simpa using hroom) hn
    exact ⟨s',hshare,hs',hz',hsame'.content_move hspots',shifts_move hlen hspots',hsame'.2⟩

end Store

/-! ### Refinement -/

open Store

/-- The pointers of a bookmark, as long as all its bytes are unread. -/
def MarkOk (spots : Fin N → List Place) (taken : Fin N → ℕ) (ptr : List Place) (m : Mark N) : Prop :=
  ptr.length = m.size ∧ (taken m.owner ≤ m.start →
    ∃ pre post, spots m.owner = pre++ptr++post ∧ taken m.owner+pre.length = m.start)

structure Refines (s : Store N) (Q : Queues N) : Prop where
  sound : s.Sound
  sized : s.Sized
  bytes : Q.bytes = s.content
  marks : List.Forall₂ (MarkOk s.spots Q.taken) s.bookmarks Q.marks

variable {s s' : Store N} {Q : Queues N}
variable {k : Fin N → ℕ} {ptr : List Place} {m : Mark N} {op : Op N}

theorem MarkOk.shifts (h : MarkOk s.spots Q.taken ptr m) (hshift : s.Shifts s' k) :
    MarkOk s'.spots (fun b => Q.taken b+k b) ptr m := by
  refine ⟨h.1,fun hle => ?_⟩
  dsimp only at hle
  obtain ⟨pre,post,hspots,hstart⟩ := h.2 (by omega)
  obtain ⟨new,hnew⟩ := hshift m.owner
  refine ⟨pre.drop (k m.owner),post++new,?_,?_⟩
  · rw [hnew,hspots,append_assoc,drop_append_of_le_length (by omega)]
    simp
  · dsimp only
    rw [length_drop]
    omega

theorem Refines.marks_of_shifts (hx : Refines s Q) (hshift : s.Shifts s' k) :
    List.Forall₂ (MarkOk s'.spots fun b => Q.taken b+k b) s.bookmarks Q.marks :=
  hx.marks.imp fun _ _ h => h.shifts hshift

def Clear (s : Store N) (Q : Queues N) : Op N → Prop
  | .write a _ _ => s.Ahead a
  | .readFromMarshal a m n => n ≤ (s.marshals m).contentSize ∧
    (hasRoom s.heap (s.chunks a) = true → (s.beforeCopy a m n).Ahead a)
  | .setBookmark a _ => (s.marshals a).writeCnt = 0
  | .writeBookmark k _ => ∃ ptr m, s.bookmarks[k]? = some ptr ∧ Q.marks[k]? = some m ∧
    Q.taken m.owner ≤ m.start ∧ ∀ y ∈ ptr, (s.spots m.owner).count y ≤ 1 ∧
      ∀ b, b ≠ m.owner → y ∉ s.spots b
  | .readFromFd a _ _ => s.Ahead a
  | _ => True

section

variable (hx : Refines s Q)
include hx

theorem Refines.length (a : Fin N) : (Q.bytes a).length = (s.spots a).length := by
  rw [hx.bytes]
  exact length_map ..

theorem refines_write (ha : s.Ahead a) (p : ℕ → Byte) (n : ℕ) :
    Refines (s.write a p n) (Q.next (.write a p n) []) := by
  obtain ⟨new,hg,hcontent⟩ := write_spec hx.sound hx.sized ha p n
  refine ⟨hg.sound,hg.sized,?_,hx.marks_of_shifts hg.shifts⟩
  change update Q.bytes a _ = _
  rw [hcontent,hx.bytes]

theorem refines_take {l : List Byte} (hs : s'.Sound) (hz : s'.Sized)
    (hspots : s'.spots = update s.spots a ((s.spots a).drop l.length))
    (hsame : s.Same s') : Refines s' (Q.drop a l.length) := by
  refine ⟨hs,hz,?_,?_⟩
  · funext b
    change update Q.bytes a _ b = (s'.spots b).map s'.heap.byte
    rw [hx.bytes,hspots,hsame.1]
    by_cases hb : b = a
    · subst hb
      simp [content]
    · simp [content,hb]
  · have hshift : s.Shifts s' (update (fun _ => 0) a l.length) := by
      intro b
      rw [hspots]
      by_cases hb : b = a
      · subst hb
        exact ⟨[],by simp⟩
      · exact ⟨[],by simp [hb]⟩
    have htaken : (Q.drop a l.length).taken =
        fun b => Q.taken b+update (fun _ => 0) a l.length b := by
      funext b
      by_cases hb : b = a
      · subst hb
        simp [Queues.drop]
      · simp [Queues.drop,hb]
    rw [htaken]
    rw [hsame.2]
    exact hx.marks_of_shifts hshift

theorem refines_readFromMarshal {m : Fin N} (hn : n ≤ (s.marshals m).contentSize)
    (ha : hasRoom s.heap (s.chunks a) = true → (s.beforeCopy a m n).Ahead a) :
    ∃ s', s.readFromMarshal a m n = some s' ∧ Refines s' (Q.next (.readFromMarshal a m n) []) := by
  obtain ⟨s',hrun,hs,hz,hcontent,hshift,hmarks⟩ := readFromMarshal_spec hx.sound hx.sized hn ha
  refine ⟨s',hrun,hs,hz,?_,?_⟩
  · change move a m n Q.bytes = _
    rw [hcontent,hx.bytes]
  · have htaken : (Q.next (.readFromMarshal a m n) []).taken =
        fun b => Q.taken b+update (fun _ => 0) m n b := by
      funext b
      by_cases hb : b = m
      · subst hb
        simp [Queues.next]
      · simp [Queues.next,hb]
    rw [htaken]
    rw [hmarks]
    exact hx.marks_of_shifts hshift

theorem refines_setBookmark (hcnt : (s.marshals a).writeCnt = 0) (n : ℕ) :
    ∃ out s', s.step (.setBookmark a n) = some (out,s') ∧ out.length = n ∧
      Refines s' (Q.next (.setBookmark a n) out) := by
  obtain ⟨hw,hlen,hquiet⟩ := bookmarkChunks_spec (hx.sound.ready a) n
  simp only [step]
  rw [if_pos hcnt]
  refine ⟨_,_,rfl,by simpa using hlen,?_⟩
  generalize bookmarkChunks s.heap (s.chunks a) n = r at hw hlen hquiet
  obtain ⟨ptr,h',cs'⟩ := r
  set s' : Store N := {(s.put a (h',cs')).enlarge a n with bookmarks := s.bookmarks++[ptr]} with hs'
  have hg : Grown s s' a ptr := by
    refine grown_of_writes hx.sound hx.sized hw rfl ?_ fun b => ?_
    · exact chunks_enlarge.trans chunks_put
    · by_cases hb : b = a
      · subst hb
        simp [hs',Store.enlarge,Store.put,Store.set,hlen]
      · simp [hs',Store.enlarge,Store.put,Store.set,hb]
  have hkept : ∀ b, (s.spots b).map s'.heap.byte = s.content b := fun b =>
    map_congr_left fun x hxb => hquiet x ((hx.sound.linked b).alloc hxb)
  refine ⟨hg.sound,hg.sized,?_,?_⟩
  · change update Q.bytes a _ = _
    rw [hg.content hkept,hx.bytes]
    rfl
  · refine rel_append (hx.marks_of_shifts hg.shifts) (.cons ⟨hlen,fun _ => ?_⟩ .nil)
    refine ⟨s.spots a,[],?_,?_⟩
    · rw [hg.spots]
      simp
    · change Q.taken a+_ = Q.taken a+(Q.bytes a).length
      rw [hx.length a]

theorem refines_writeBookmark {k : ℕ} (hptr : s.bookmarks[k]? = some ptr)
    (hm : Q.marks[k]? = some m) (hle : Q.taken m.owner ≤ m.start)
    (hown : ∀ y ∈ ptr, (s.spots m.owner).count y ≤ 1)
    (hother : ∀ y ∈ ptr, ∀ b, b ≠ m.owner → y ∉ s.spots b) (p : ℕ → Byte) :
    ∃ s', s.step (.writeBookmark k p) = some ([],s') ∧
      Refines s' (Q.next (.writeBookmark k p) []) := by
  obtain ⟨hk,hget⟩ := List.getElem?_eq_some_iff.mp hptr
  obtain ⟨hk',hget'⟩ := List.getElem?_eq_some_iff.mp hm
  have hmark := List.Forall₂.get hx.marks hk hk'
  simp only [get_eq_getElem,hget,hget'] at hmark
  obtain ⟨hsize,hparts⟩ := hmark
  obtain ⟨pre,post,hspots,hstart⟩ := hparts hle
  -- the places of the bookmark occur nowhere else
  have hcount : ∀ y ∈ ptr, pre.count y+ptr.count y+post.count y ≤ 1 := by
    intro y hy
    have := hown y hy
    rwa [hspots,count_append,count_append] at this
  have hpos : ∀ y ∈ ptr, 0 < ptr.count y := fun y hy => count_pos_iff.mpr hy
  have hnd : ptr.Nodup := by
    refine nodup_iff_count_le_one.mpr fun y => ?_
    by_cases hy : y ∈ ptr
    · have := hcount y hy
      omega
    · rw [count_eq_zero_of_not_mem hy]
      exact Nat.zero_le _
  have hpre : ∀ y ∈ pre, y ∉ ptr := fun y hy hyp => by
    have := hcount y hyp
    have := hpos y hyp
    have := count_pos_iff.mpr hy
    omega
  have hpost : ∀ y ∈ post, y ∉ ptr := fun y hy hyp => by
    have := hcount y hyp
    have := hpos y hyp
    have := count_pos_iff.mpr hy
    omega
  have href : ∀ y ∈ ptr, 0 < s.heap.ref y.1 := by
    intro y hy
    have hin : y ∈ s.spots m.owner := by
      rw [hspots]
      simp [hy]
    obtain ⟨c,hc,hyc⟩ := mem_flatMap.mp hin
    rw [(mem_places.mp hyc).1]
    exact (refs_pos hc).trans_le ((hx.sound.ready m.owner).held _)
  obtain ⟨hsame,hnext,hkept,hbytes⟩ := writePlaces_spec s.heap ptr p
  refine ⟨{s with heap := writePlaces s.heap ptr p},?_,⟨fun a => ?_,fun d => ?_⟩,hx.sized,?_,?_⟩
  · simp only [step,hptr,bind_eq_bind,bind_some]
    rw [if_pos (all_eq_true.mpr fun y hy => decide_eq_true (href y hy))]
  · exact (hx.sound.linked a).frame (fun d _ => (hsame d).1) hnext.ge
  · exact (hsame d).2.trans (hx.sound.counted d)
  · have hi : m.start-Q.taken m.owner = pre.length := by omega
    have hold : ∀ l : List Place, (∀ y ∈ l, y ∉ ptr) →
        l.map (writePlaces s.heap ptr p).byte = l.map s.heap.byte := fun l hl =>
      map_congr_left fun y hy => hkept y (hl y hy)
    simp only [Queues.next,hm,hi]
    funext b
    change _ = (s.spots b).map (writePlaces s.heap ptr p).byte
    by_cases hb : b = m.owner
    · subst hb
      have hcontent : Q.bytes m.owner = pre.map s.heap.byte++ptr.map s.heap.byte ++
          post.map s.heap.byte := by
        rw [hx.bytes]
        unfold content
        rw [hspots,map_append,map_append]
      rw [update_self,hspots,map_append,map_append,hold pre hpre,hbytes hnd,
        hold post hpost,hcontent,hsize,append_assoc (pre.map _),
        take_left' (length_map _),← drop_drop,drop_left' (length_map _),
        drop_left' ((length_map _).trans hsize)]
    · rw [update_of_ne hb,hold _ fun y hy hyp => hother y hyp b hb hy,hx.bytes]
      rfl
  · simp only [Queues.next,hm]
    exact hx.marks

/-- Each call does to the objects what it does to their queues. -/
theorem refines_step (hok : Clear s Q op) :
    ∃ out s', s.step op = some (out,s') ∧ Q.Allows op out ∧ Refines s' (Q.next op out) := by
  cases op with
  | write a p n => exact ⟨[],_,rfl,rfl,refines_write hx hok p n⟩
  | read a n =>
    obtain ⟨hbytes,hs,hz,hspots,hsame⟩ := read_spec hx.sound hx.sized a n
    refine ⟨_,_,rfl,?_,refines_take hx hs hz hspots hsame⟩
    change (s.read a n).1 = (Q.bytes a).take n
    rw [hbytes,hx.bytes]
  | peek a n =>
    refine ⟨_,_,rfl,?_,hx⟩
    change _ = (Q.bytes a).take n
    rw [peekChunks_eq (hx.sound.linked a),map_take,hx.bytes]
    rfl
  | readFromMarshal a m n =>
    obtain ⟨s',hrun,hr⟩ := refines_readFromMarshal hx hok.1 hok.2
    exact ⟨[],s',by simp only [step,hrun,map_some],rfl,hr⟩
  | setBookmark a n => exact refines_setBookmark hx hok n
  | writeBookmark k p =>
    obtain ⟨ptr,m,hptr,hm,hle,hall⟩ := hok
    obtain ⟨s',hrun,hr⟩ := refines_writeBookmark hx hptr hm hle (fun y hy => (hall y hy).1)
      (fun y hy => (hall y hy).2) p
    exact ⟨[],s',hrun,rfl,hr⟩
  | writeToFd a calls =>
    obtain ⟨hbytes,htakes⟩ := writeFd_spec (hx.sound.ready a) (s.marshals a).contentSize calls
    refine ⟨_,_,rfl,?_,refines_take hx ((hx.sound.put htakes.toTurns).congr rfl chunks_shrink)
      (sized_of_takes hx.sized htakes) (spots_of_takes htakes) ⟨htakes.byte,rfl⟩⟩
    change _ <+: Q.bytes a
    rw [hx.bytes]
    exact hbytes
  | readFromFd a input calls =>
    obtain ⟨hpre,new,hw,hbytes⟩ := readFd_spec (hx.sound.ready a) input calls
    obtain ⟨hg,hcontent⟩ := grow_spec hx.sound hx.sized hok hw hbytes rfl
    refine ⟨_,_,rfl,hpre,hg.sound,hg.sized,?_,hx.marks_of_shifts hg.shifts⟩
    change update Q.bytes a _ = _
    rw [hx.bytes]
    exact hcontent.symm
  | getAndResetWriteCnt a =>
    have hchunks : (s.set a {s.marshals a with writeCnt := 0}).chunks = s.chunks :=
      chunks_set rfl
    have hspots : (s.set a {s.marshals a with writeCnt := 0}).spots = s.spots := by
      funext b
      unfold spots
      rw [hchunks]
    refine ⟨[],_,rfl,rfl,hx.sound.congr rfl hchunks,fun b => ?_,?_,?_⟩
    · rw [hspots,← hx.sized b]
      by_cases hb : b = a
      · subst hb
        simp [Store.set]
      · simp [Store.set,hb]
    · unfold content
      rw [hspots]
      exact hx.bytes
    · rw [hspots]
      exact hx.marks

end

/-- No object writes to a buffer in which another object has unread bytes. -/
def Unshared (x : Store N × Queues N) : Op N → Prop
  | .write a _ n => 1 ≤ n ∧ x.1.TailApart a
  | .readFromMarshal a m n => n ≤ (x.1.marshals m).contentSize ∧
    (hasRoom x.1.heap (x.1.chunks a) = true → (x.1.beforeCopy a m n).TailApart a)
  | .writeBookmark k _ => ∀ ptr ∈ x.1.bookmarks[k]?, ∀ m ∈ x.2.marks[k]?,
    ∀ y ∈ ptr, x.1.Apart m.owner y.1
  | .readFromFd a _ _ => x.1.TailApart a
  | _ => True

/-- No object writes to a buffer in which another chunk has unread bytes; a bookmark is set when no
bytes are counted, and written while unread. -/
def Ok (x : Store N × Queues N) : Op N → Prop
  | .write a _ n => 1 ≤ n ∧ x.1.TailAlone a
  | .readFromMarshal a m n => n ≤ (x.1.marshals m).contentSize ∧
    (hasRoom x.1.heap (x.1.chunks a) = true → (x.1.beforeCopy a m n).TailAlone a)
  | .setBookmark a _ => (x.1.marshals a).writeCnt = 0
  | .writeBookmark k _ => ∃ ptr ∈ x.1.bookmarks[k]?, ∃ m ∈ x.2.marks[k]?,
    x.2.taken m.owner ≤ m.start ∧ ∀ y ∈ ptr, x.1.Alone m.owner y.1
  | .readFromFd a _ _ => x.1.TailAlone a
  | _ => True

instance (s : Store N) (a : Fin N) (d : ℕ) : Decidable (s.Apart a d) :=
  inferInstanceAs (Decidable (∀ b, b ≠ a → ∀ c ∈ s.chunks b, c.data = d → c.contentSize = 0))

instance (s : Store N) (a : Fin N) : Decidable (s.TailApart a) :=
  inferInstanceAs (Decidable (∀ t ∈ (s.chunks a).getLast?, t.fullyWritten s.heap = false →
    s.Apart a t.data))

instance (s : Store N) (a : Fin N) : Decidable (s.TailAlone a) :=
  inferInstanceAs (Decidable (s.TailApart a ∧ ∀ t ∈ (s.chunks a).getLast?,
    t.fullyWritten s.heap = false → ∀ c ∈ (s.chunks a).dropLast, c.data = t.data →
      c.contentSize = 0))

instance (s : Store N) (a : Fin N) (d : ℕ) : Decidable (s.Alone a d) :=
  inferInstanceAs (Decidable (s.Apart a d ∧
    (s.chunks a).countP (fun c => c.data = d ∧ c.contentSize ≠ 0) ≤ 1))

instance (x : Store N × Queues N) (op : Op N) : Decidable (Unshared x op) :=
  match op with
  | .write .. | .readFromMarshal .. | .writeBookmark .. | .readFromFd .. =>
    by unfold Unshared; infer_instance
  | .read .. | .peek .. | .setBookmark .. | .writeToFd .. | .getAndResetWriteCnt _ =>
    inferInstanceAs (Decidable True)

instance (x : Store N × Queues N) (op : Op N) : Decidable (Ok x op) :=
  match op with
  | .write .. | .readFromMarshal .. | .setBookmark .. | .writeBookmark .. | .readFromFd .. =>
    by unfold Ok; infer_instance
  | .read .. | .peek .. | .writeToFd .. | .getAndResetWriteCnt _ => inferInstanceAs (Decidable True)

theorem ahead_of_alone (h : s.TailAlone a) : s.Ahead a := by
  intro t ht hroom b c hc hd hne
  by_cases hb : b = a
  · subst hb
    rcases eq_nil_or_concat (s.chunks b) with hnil | ⟨pre,t',hpre⟩
    · rw [hnil] at hc
      cases hc
    · have hdrop := h.2 t ht hroom c
      rw [hpre,concat_eq_append] at ht hc hdrop
      rw [getLast?_concat] at ht
      cases ht
      rcases mem_append.mp hc with hc | hc
      · exact absurd (hdrop (by rwa [dropLast_concat]) hd) hne
      · rw [mem_singleton.mp hc]
  · exact absurd (h.1 t ht hroom b hb c hc hd) hne

theorem count_places_le (cs : List Chunk) (y : Place) :
    (places cs).count y ≤ cs.countP fun c => c.data = y.1 ∧ c.contentSize ≠ 0 := by
  induction cs with
  | nil => simp
  | cons c cs ih =>
    rw [places_cons,count_append,countP_cons]
    have hone : c.places.count y ≤ 1 := nodup_iff_count_le_one.mp
      (List.Nodup.map (fun _ _ he => (Prod.mk.inj he).2) nodup_range') y
    by_cases hy : y ∈ c.places
    · obtain ⟨hd,hlo,hhi⟩ := mem_places.mp hy
      have hne : c.contentSize ≠ 0 := by omega
      rw [if_pos (by simp [hd,hne])]
      omega
    · rw [count_eq_zero_of_not_mem hy]
      omega

theorem clear_of_ok (hok : Ok (s,Q) op) : Clear s Q op := by
  cases op with
  | write a p n => exact ahead_of_alone hok.2
  | readFromMarshal a m n => exact ⟨hok.1,fun hroom => ahead_of_alone (hok.2 hroom)⟩
  | setBookmark a n => exact hok
  | writeBookmark k p =>
    obtain ⟨ptr,hptr,m,hm,hle,hall⟩ := hok
    refine ⟨ptr,m,hptr,hm,hle,fun y hy => ⟨(count_places_le _ y).trans (hall y hy).2,?_⟩⟩
    intro b hb hin
    obtain ⟨c,hc,hyc⟩ := mem_flatMap.mp hin
    obtain ⟨hd,hlo,hhi⟩ := mem_places.mp hyc
    have := (hall y hy).1 b hb c hc hd.symm
    omega
  | readFromFd a input calls => exact ahead_of_alone hok
  | read | peek | writeToFd | getAndResetWriteCnt => trivial

theorem refines_init {x : Store N × Queues N} (hx : (joint N).init x) : Refines x.1 x.2 := by
  obtain ⟨s,Q⟩ := x
  obtain ⟨hempty,href,hmarks,hQ⟩ := hx
  subst hQ
  have hchunks : ∀ a, s.chunks a = [] := fun a => by
    unfold Store.chunks
    rw [hempty]
  refine ⟨⟨fun a => ?_,fun d => ?_⟩,fun a => ?_,?_,?_⟩
  · rw [hchunks]
    exact ⟨forall_mem_nil _,forall_mem_nil _⟩
  · rw [href]
    exact (Finset.sum_eq_zero fun a _ => by rw [hchunks]; rfl).symm
  · unfold spots
    rw [hempty,hchunks]
    rfl
  · funext a
    unfold content spots
    rw [hchunks]
    rfl
  · rw [hmarks]
    exact .nil

/-- In every run the objects behave as byte queues. -/
theorem marshal_refines_queue {x : Store N × Queues N} (h : Transition.ReachableBy (joint N) Ok x) :
    (∀ a, x.1.content a = x.2.bytes a ∧ (x.1.marshals a).contentSize = (x.2.bytes a).length) ∧
    ∀ op, Ok x op → ∃ out s', x.1.step op = some (out,s') ∧ x.2.Allows op out ∧
      (joint N).step x op = some (s',x.2.next op out) := by
  obtain ⟨x₀,hinit,hrun⟩ := h
  have hx : Refines x.1 x.2 := by
    refine hrun.invariant (P:=fun y => Refines y.1 y.2) (fun y op z hok hy hstep => ?_)
      (refines_init hinit)
    obtain ⟨out,s',hrun,-,hr⟩ := refines_step hy (clear_of_ok hok)
    simp only [joint,hrun,map_some,Option.some.injEq] at hstep
    exact hstep ▸ hr
  refine ⟨fun a => ⟨congrFun hx.bytes.symm a,(hx.sized a).trans (hx.length a).symm⟩,
    fun op hok => ?_⟩
  obtain ⟨out,s',hrun,hallows,-⟩ := refines_step hx (clear_of_ok hok)
  exact ⟨out,s',hrun,hallows,by simp only [joint,hrun,map_some]⟩

def start (N : ℕ) : Store N × Queues N :=
  ({heap := ⟨fun _ => ⟨fun _ => 0,0,0⟩,0⟩, marshals := fun _ => ⟨[],0,0⟩, bookmarks := []},
    Queues.empty N)

/-- Bytes that another object gets on the same buffer, and a bookmark. -/
def exchange : List (Op 2) :=
  [.setBookmark 0 2,.write 0 (fun i => BitVec.ofNat 8 (i+7)) 3,.writeBookmark 0 fun _ => 5,
    .readFromMarshal 1 0 4,.read 0 1]

theorem marshal_refines_queue_exchange :
    (Transition.after (joint 2) Ok (start 2) exchange).1.content 1 = [5,5,7,8] ∧
    ∃ out s', (Transition.after (joint 2) Ok (start 2) exchange).1.step (.peek 1 3) =
        some (out,s') ∧
      (Transition.after (joint 2) Ok (start 2) exchange).2.Allows (.peek 1 3) out := by
  have h := marshal_refines_queue (N:=2)
    ⟨_,⟨fun _ => rfl,fun _ => rfl,rfl,rfl⟩,run_after (start 2) exchange⟩
  refine ⟨(h.1 1).1.trans (by decide +kernel),?_⟩
  obtain ⟨out,s',hstep,hallows,-⟩ := h.2 (.peek 1 3) trivial
  exact ⟨out,s',hstep,hallows⟩

def returning : List (Op 2) :=
  [.write 0 (fun _ => 0) 8192,.readFromMarshal 1 0 10,.readFromMarshal 0 1 10,.write 0 (fun _ => 1) 5]

def bookmarkRead : List (Op 2) := [.setBookmark 0 4,.write 0 (fun _ => 0) 8188,.read 0 8192]

/-- An object that gets its own bytes back overwrites unread ones, a bookmark can be written in a
deleted buffer, and none can be set after a write. -/
theorem marshal_overwrites_itself :
    (∃ x, Transition.exec (joint 2) Unshared (start 2) returning = some x ∧
      (x.1.step (.read 0 1)).map Prod.fst = some [1] ∧ ¬x.2.Allows (.read 0 1) [1]) ∧
    (∃ x, Transition.exec (joint 2) Unshared (start 2) bookmarkRead = some x ∧
      Unshared x (.writeBookmark 0 fun _ => 1) ∧ x.1.step (.writeBookmark 0 fun _ => 1) = none) ∧
    ∃ x, Transition.exec (joint 2) Unshared (start 2) [.write 0 (fun _ => 0) 1] = some x ∧
      x.1.step (.setBookmark 0 1) = none := by
  refine ⟨⟨after (joint 2) Unshared (start 2) returning,?_,?_,?_⟩,
    ⟨after (joint 2) Unshared (start 2) bookmarkRead,?_,?_,?_⟩,
    ⟨after (joint 2) Unshared (start 2) [.write 0 (fun _ => 0) 1],?_,?_⟩⟩
  · rfl
  · decide +kernel
  · change ¬[1] = ((after (joint 2) Unshared (start 2) returning).2.bytes 0).take 1
    decide +kernel
  · rfl
  · decide +kernel
  · exact isNone_iff_eq_none.mp (by decide +kernel)
  · rfl
  · exact isNone_iff_eq_none.mp (by decide +kernel)

end Janus.Marshal
