import Janus.SparseInt

/-! `Marshal` (`rrr/misc/marshal.hpp`, `marshal.cpp`): a list of chunks, each with a read and a
write index into a buffer. Buffers are counted references, numbered: `read_from_marshal` moves
bytes between two objects by a second chunk on the same buffer. A `Marshal` without chunks has two
null pointers; a new buffer holds what was in memory there. Assertions are left out by `NDEBUG`. -/

namespace Janus

open List Nat

open SparseInt (Byte)

namespace Marshal

structure RawBytes where
  ptr : ℕ → Byte
  size : ℕ
  ref : ℕ

def minSize : ℕ := 8192

structure Chunk where
  data : ℕ
  readIdx : ℕ
  writeIdx : ℕ
deriving DecidableEq

structure Heap where
  bufs : ℕ → RawBytes
  next : ℕ

abbrev Place := ℕ × ℕ

namespace Heap

def size (h : Heap) (d : ℕ) : ℕ := (h.bufs d).size

def ref (h : Heap) (d : ℕ) : ℕ := (h.bufs d).ref

def byte (h : Heap) (x : Place) : Byte := (h.bufs x.1).ptr x.2

def alloc (h : Heap) (sz : ℕ) : Heap where
  bufs := Function.update h.bufs h.next
    {ptr := (h.bufs h.next).ptr, size := max sz minSize, ref := 1}
  next := h.next+1

def memcpy (h : Heap) (d off : ℕ) (p : ℕ → Byte) (n : ℕ) : Heap where
  bufs := Function.update h.bufs d
    {h.bufs d with
     ptr := fun i => if off ≤ i ∧ i < off+n then p (i-off) else (h.bufs d).ptr i}
  next := h.next

def refCopy (h : Heap) (d : ℕ) : Heap where
  bufs := Function.update h.bufs d {h.bufs d with ref := h.ref d+1}
  next := h.next

def release (h : Heap) (d : ℕ) : Heap where
  bufs := Function.update h.bufs d {h.bufs d with ref := h.ref d-1}
  next := h.next

end Heap

namespace Chunk

def contentSize (c : Chunk) : ℕ := c.writeIdx-c.readIdx

def fullyWritten (c : Chunk) (h : Heap) : Bool := c.writeIdx = h.size c.data

def fullyRead (c : Chunk) (h : Heap) : Bool := c.readIdx = h.size c.data

/-- The bytes that `read` and `peek` copy out, and what `write` hands to the socket. -/
def front (c : Chunk) (h : Heap) (n : ℕ) : List Byte :=
  (List.range n).map fun i => (h.bufs c.data).ptr (c.readIdx+i)

end Chunk

variable (h : Heap)

def hasRoom (cs : List Chunk) : Bool := cs.getLast?.any fun t => !t.fullyWritten h

def pushNew (cs : List Chunk) (sz : ℕ) : Heap × List Chunk :=
  (h.alloc sz,cs++[⟨h.next,0,0⟩])

def bump (cs : List Chunk) (n : ℕ) : List Chunk :=
  match cs.getLast? with
  | none => cs
  | some t => cs.dropLast++[{t with writeIdx := t.writeIdx+n}]

def tailWrite (cs : List Chunk) (p : ℕ → Byte) (n : ℕ) : Heap × List Chunk :=
  match cs.getLast? with
  | none => (h,cs)
  | some t => (h.memcpy t.data t.writeIdx p n,bump cs n)

def room (cs : List Chunk) : ℕ :=
  match cs.getLast? with
  | none => 0
  | some t => h.size t.data-t.writeIdx

def pushWrite (cs : List Chunk) (p : ℕ → Byte) (n : ℕ) : Heap × List Chunk :=
  tailWrite (pushNew h cs n).1 (pushNew h cs n).2 p n

def writeChunks (cs : List Chunk) (p : ℕ → Byte) (n : ℕ) : Heap × List Chunk :=
  if hasRoom h cs then
    let nWrite := min n (room h cs)
    let (h₁,cs₁) := tailWrite h cs p nWrite
    if nWrite < n then pushWrite h₁ cs₁ (fun i => p (i+nWrite)) (n-nWrite) else (h₁,cs₁)
  else pushWrite h cs p n

/-- The head after `cnt` of its bytes have been taken; it is deleted if it can give no more. -/
def advance (cs : List Chunk) (cnt : ℕ) : Heap × List Chunk :=
  match cs with
  | [] => (h,[])
  | c::cs =>
    let c' := {c with readIdx := c.readIdx+cnt}
    if c'.fullyRead h then (h.release c.data,cs) else (h,c'::cs)

/-- What `Marshal::read` does to the chunks. Where the head is kept, all its bytes have been read
or there is nothing left to read. -/
def readChunks (h : Heap) (cs : List Chunk) (n : ℕ) : List Byte × Heap × List Chunk :=
  match cs with
  | [] => ([],h,[])
  | c::rest =>
    if n = 0 ∨ c.contentSize = 0 then ([],h,c::rest)
    else
      let cnt := min n c.contentSize
      let c' := {c with readIdx := c.readIdx+cnt}
      if c'.fullyRead h then
        let (bytes,h',cs') := readChunks (h.release c.data) rest (n-cnt)
        (c.front h cnt++bytes,h',cs')
      else (c.front h cnt,h,c'::rest)

def peekChunks (h : Heap) : List Chunk → ℕ → List Byte
  | [],_ => []
  | c::rest,n =>
    let cnt := min n c.contentSize
    if cnt = 0 then [] else c.front h cnt++peekChunks h rest (n-cnt)

/-- A tail with room, as `read_from_fd` and `set_bookmark` make it. -/
def ensureRoom (cs : List Chunk) : Heap × List Chunk :=
  if hasRoom h cs then (h,cs) else pushNew h cs 0

/-- What `Marshal::read_from_fd` does to the chunks. The calls of `::read` return as many bytes of
`input` as `calls` tells, if there are so many and so much room; the next call returns none. -/
def readFd (h : Heap) (cs : List Chunk) (input : List Byte) : List ℕ → List Byte × Heap × List Chunk
  | [] => ([],ensureRoom h cs)
  | r::calls =>
    let (h₁,cs₁) := ensureRoom h cs
    let cnt := min r (min (room h₁ cs₁) input.length)
    if cnt = 0 then ([],h₁,cs₁)
    else
      let (h₂,cs₂) := tailWrite h₁ cs₁ (fun i => input.getD i 0) cnt
      let (bytes,h₃,cs₃) := readFd h₂ cs₂ (input.drop cnt) calls
      (input.take cnt++bytes,h₃,cs₃)

/-- What `Marshal::write_to_fd` does to the chunks, and the bytes sent. The calls of `::write`
return what `calls` tells, at most what they are given; the next call returns none. -/
def writeFd (h : Heap) (cs : List Chunk) (size : ℕ) : List ℤ → List Byte × Heap × List Chunk
  | [] => ([],h,cs)
  | r::calls =>
    match size,cs with
    | _+1,c::_ =>
      let cnt := min r c.contentSize
      if cnt ≤ 0 then ([],h,cs)
      else
        let (h₁,cs₁) := advance h cs cnt.toNat
        let (bytes,h₂,cs₂) := writeFd h₁ cs₁ (size-cnt.toNat) calls
        (c.front h cnt.toNat++bytes,h₂,cs₂)
    | _,_ => ([],h,cs)

/-- What `Marshal::set_bookmark` does to the chunks, and the pointers of the bookmark. -/
def bookmarkChunks (h : Heap) (cs : List Chunk) : ℕ → List Place × Heap × List Chunk
  | 0 => ([],h,cs)
  | n+1 =>
    let (h₁,cs₁) := ensureRoom h cs
    match cs₁.getLast? with
    | none => ([],h₁,cs₁)
    | some t =>
      let (ptr,h₂,cs₂) := bookmarkChunks h₁ (bump cs₁ 1) n
      ((t.data,t.writeIdx)::ptr,h₂,cs₂)

def writePlaces (h : Heap) : List Place → (ℕ → Byte) → Heap
  | [],_ => h
  | x::xs,pc => writePlaces (h.memcpy x.1 x.2 (fun _ => pc 0) 1) xs fun i => pc (i+1)

end Marshal

structure Marshal where
  chunks : List Marshal.Chunk
  writeCnt : BitVec 32
  contentSize : ℕ

namespace Marshal

structure Store (N : ℕ) where
  heap : Heap
  marshals : Fin N → Marshal
  bookmarks : List (List Place)

inductive Op (N : ℕ)
  | write (a : Fin N) (p : ℕ → Byte) (n : ℕ)
  | read (a : Fin N) (n : ℕ)
  | peek (a : Fin N) (n : ℕ)
  | readFromMarshal (a m : Fin N) (n : ℕ)
  | setBookmark (a : Fin N) (n : ℕ)
  | writeBookmark (k : ℕ) (p : ℕ → Byte)
  | writeToFd (a : Fin N) (calls : List ℤ)
  | readFromFd (a : Fin N) (input : List Byte) (calls : List ℕ)
  | getAndResetWriteCnt (a : Fin N)

namespace Store

variable {N : ℕ}

variable (s : Store N)

def set (a : Fin N) (m : Marshal) : Store N :=
  {s with marshals := Function.update s.marshals a m}

def chunks (s : Store N) (a : Fin N) : List Chunk := (s.marshals a).chunks

def put (a : Fin N) (x : Heap × List Chunk) : Store N :=
  {s.set a {s.marshals a with chunks := x.2} with heap := x.1}

def grow (a : Fin N) (n : ℕ) : Store N :=
  s.set a {s.marshals a with
    writeCnt := (s.marshals a).writeCnt+BitVec.ofNat 32 n
    contentSize := (s.marshals a).contentSize+n}

def enlarge (a : Fin N) (n : ℕ) : Store N :=
  s.set a {s.marshals a with contentSize := (s.marshals a).contentSize+n}

def shrink (a : Fin N) (n : ℕ) : Store N :=
  s.set a {s.marshals a with contentSize := (s.marshals a).contentSize-n}

def write (a : Fin N) (p : ℕ → Byte) (n : ℕ) : Store N :=
  (s.put a (writeChunks s.heap (s.chunks a) p n)).grow a n

def read (a : Fin N) (n : ℕ) : List Byte × Store N :=
  let (bytes,x) := readChunks s.heap (s.chunks a) n
  (bytes,(s.put a x).shrink a bytes.length)

/-- A turn of the loop of `read_from_marshal`: a copy of the head `c` of `m`, cut to `cnt` bytes,
comes behind the tail of `a`. -/
def fetchTurn (a m : Fin N) (c : Chunk) (cnt : ℕ) : Store N :=
  let chnk := {c with writeIdx := c.readIdx+cnt}
  let s₁ := s.put a (s.heap.refCopy c.data,s.chunks a++[chnk])
  s₁.put m (advance s₁.heap (s₁.chunks m) cnt)

/-- The loop of `read_from_marshal` over the chunks that can be shared, with `n` bytes left to
fetch; each turn takes one of `fuel`. -/
def fetch (s : Store N) (a m : Fin N) : ℕ → ℕ → Option (Store N)
  | _,0 => some s
  | 0,_+1 => none
  | fuel+1,n+1 =>
    match s.chunks m with
    | [] => none
    | c::_ =>
      let cnt := min c.contentSize (n+1)
      fetch (s.fetchTurn a m c cnt) a m fuel (n+1-cnt)

def share (a m : Fin N) (n : ℕ) : Option (Store N) := do
  let s₁ := (← s.fetch a m n n).grow a n
  if n ≤ (s₁.marshals m).contentSize then some (s₁.shrink m n) else none

/-- What the tail has room for is copied; the call for the rest finds a tail that is fully written
and takes the first branch. -/
def readFromMarshal (a m : Fin N) (n : ℕ) : Option (Store N) :=
  if hasRoom s.heap (s.chunks a) then
    let copyN := min (room s.heap (s.chunks a)) n
    let (buf,s₁) := s.read m copyN
    if buf.length = copyN then
      let s₂ := s₁.write a (fun i => buf.getD i 0) copyN
      if n-copyN = 0 then some s₂
      else if hasRoom s₂.heap (s₂.chunks a) then none else s₂.share a m (n-copyN)
    else none
  else s.share a m n

/-- One operation and the bytes it returns: read, sent or received, or those a new bookmark points
to. A failed check, a null pointer or a write to a deleted buffer ends the run. -/
def step : Op N → Option (List Byte × Store N)
  | .write a p n => some ([],s.write a p n)
  | .read a n => some (s.read a n)
  | .peek a n => some (peekChunks s.heap (s.chunks a) n,s)
  | .readFromMarshal a m n => (s.readFromMarshal a m n).map fun t => ([],t)
  | .setBookmark a n =>
    if (s.marshals a).writeCnt = 0 then
      let (ptr,x) := bookmarkChunks s.heap (s.chunks a) n
      some (ptr.map x.1.byte,{(s.put a x).enlarge a n with bookmarks := s.bookmarks++[ptr]})
    else none
  | .writeBookmark k p => do
    let ptr ← s.bookmarks[k]?
    if ptr.all fun x => 0 < s.heap.ref x.1 then
      some ([],{s with heap := writePlaces s.heap ptr p})
    else none
  | .writeToFd a calls =>
    let (bytes,x) := writeFd s.heap (s.chunks a) (s.marshals a).contentSize calls
    some (bytes,(s.put a x).shrink a bytes.length)
  | .readFromFd a input calls =>
    let (bytes,x) := readFd s.heap (s.chunks a) input calls
    some (bytes,(s.put a x).grow a bytes.length)
  | .getAndResetWriteCnt a => some ([],s.set a {s.marshals a with writeCnt := 0})

end Store

/-! ### Places -/

variable {h h' h'' : Heap} {c t : Chunk} {cs cs' cs'' : List Chunk} {x : Place}
  {new new' : List Place}
variable {n d : ℕ}

def Chunk.places (c : Chunk) : List Place := (List.range' c.readIdx c.contentSize).map (Prod.mk c.data)

def places (cs : List Chunk) : List Place := cs.flatMap Chunk.places

def refs (cs : List Chunk) (d : ℕ) : ℕ := cs.countP (·.data = d)

@[simp] theorem Chunk.length_places : c.places.length = c.contentSize := by simp [places]

theorem Chunk.mem_places :
    x ∈ c.places ↔ x.1 = c.data ∧ c.readIdx ≤ x.2 ∧ x.2 < c.readIdx+c.contentSize := by
  rcases x with ⟨d,i⟩
  simp only [places,mem_map,mem_range'_1,Prod.mk.injEq]
  exact ⟨fun ⟨_,hi,hd,hj⟩ => ⟨hd.symm,hj ▸ hi.1,hj ▸ hi.2⟩,fun ⟨hd,hi⟩ => ⟨i,hi,hd.symm,rfl⟩⟩

theorem Chunk.front_eq (hn : n ≤ c.contentSize) : c.front h n = (c.places.take n).map h.byte := by
  apply ext_getElem
  · simp [front,hn]
  · simp [front,places,Heap.byte]

theorem Chunk.places_drop (n : ℕ) :
    ({c with readIdx := c.readIdx+n} : Chunk).places = c.places.drop n := by
  apply ext_getElem
  · simp [contentSize]
    omega
  · simp [places]
    omega

theorem Chunk.places_take (hn : n ≤ c.contentSize) :
    ({c with writeIdx := c.readIdx+n} : Chunk).places = c.places.take n := by
  apply ext_getElem
  · simp [contentSize] at hn ⊢
    omega
  · simp [places]

def Chunk.behind (t : Chunk) (n : ℕ) : List Place := (List.range' t.writeIdx n).map (Prod.mk t.data)

theorem Chunk.places_bump (ht : t.readIdx ≤ t.writeIdx) :
    ({t with writeIdx := t.writeIdx+n} : Chunk).places = t.places++t.behind n := by
  have hsize : t.writeIdx+n-t.readIdx = t.writeIdx-t.readIdx+n := by omega
  have hstart : t.readIdx+(t.writeIdx-t.readIdx) = t.writeIdx := by omega
  simp only [places,behind,contentSize,hsize]
  rw [← map_append,← range'_append_1,hstart]

@[simp] theorem places_nil : places [] = [] := rfl

@[simp] theorem places_cons : places (c::cs) = c.places++places cs := flatMap_cons

@[simp] theorem places_append : places (cs++cs') = places cs++places cs' :=
  flatMap_append

@[simp] theorem refs_nil : refs [] d = 0 := rfl

theorem refs_cons : refs (c::cs) d = refs cs d+if c.data = d then 1 else 0 := by
  simp [refs,countP_cons]

theorem refs_append : refs (cs++cs') d = refs cs d+refs cs' d := countP_append

theorem refs_pos (hc : c ∈ cs) : 0 < refs cs c.data :=
  countP_pos_iff.mpr ⟨c,hc,by simp⟩

theorem bump_concat : bump (cs++[t]) n = cs++[{t with writeIdx := t.writeIdx+n}] := by
  simp [bump]

/-! ### What is kept -/

structure Chunk.Fits (c : Chunk) (h : Heap) : Prop where
  le : c.readIdx ≤ c.writeIdx
  bound : c.writeIdx ≤ h.size c.data
  unread : c.readIdx < h.size c.data
  alloc : c.data < h.next

structure Linked (h : Heap) (cs : List Chunk) : Prop where
  fits : ∀ c ∈ cs, c.Fits h
  full : ∀ c ∈ cs.dropLast, c.writeIdx = h.size c.data

structure Ready (h : Heap) (cs : List Chunk) : Prop extends Linked h cs where
  held : ∀ d, refs cs d ≤ h.ref d
  fresh : ∀ d, h.next ≤ d → h.ref d = 0

structure Turns (h : Heap) (cs : List Chunk) (h' : Heap) (cs' : List Chunk) (k : ℕ)
    (new : List Place) : Prop where
  places : places cs' = (places cs).drop k++new
  size : ∀ d < h.next, h'.size d = h.size d
  next : h.next ≤ h'.next
  refs : ∀ d, h'.ref d+refs cs d = h.ref d+refs cs' d
  ready : Ready h' cs'

structure Takes (h : Heap) (cs : List Chunk) (h' : Heap) (cs' : List Chunk) (k : ℕ) : Prop
    extends Turns h cs h' cs' k [] where
  byte : h'.byte = h.byte
  last : ∀ t' ∈ cs'.getLast?, ∃ t ∈ cs.getLast?, t'.data = t.data ∧ t'.writeIdx = t.writeIdx
  tail : ∀ t ∈ cs.getLast?, t.writeIdx ≠ h.size t.data →
    ∃ t' ∈ cs'.getLast?, t'.data = t.data ∧ t'.writeIdx = t.writeIdx

def Beyond (h : Heap) (cs : List Chunk) (d i : ℕ) : Prop :=
  h.next ≤ d ∨ ∃ t ∈ cs.getLast?, d = t.data ∧ t.writeIdx ≤ i

structure Writes (h : Heap) (cs : List Chunk) (h' : Heap) (cs' : List Chunk) (new : List Place) :
    Prop extends Turns h cs h' cs' 0 new where
  beyond : ∀ x ∈ new, Beyond h cs x.1 x.2
  apart : ∀ x ∈ new, ¬Beyond h' cs' x.1 x.2
  last : ∀ t' ∈ cs'.getLast?, Beyond h cs t'.data t'.writeIdx
  kept : ∀ x : Place, x.1 < h.next → x ∉ new → h'.byte x = h.byte x

theorem Chunk.Fits.frame (hc : c.Fits h) (hsize : ∀ d < h.next, h'.size d = h.size d)
    (hnext : h.next ≤ h'.next) : c.Fits h' where
  le := hc.le
  bound := by rw [hsize _ hc.alloc]; exact hc.bound
  unread := by rw [hsize _ hc.alloc]; exact hc.unread
  alloc := hc.alloc.trans_le hnext

theorem Linked.frame (hl : Linked h cs) (hsize : ∀ d < h.next, h'.size d = h.size d)
    (hnext : h.next ≤ h'.next) : Linked h' cs where
  fits c hc := (hl.fits c hc).frame hsize hnext
  full c hc := by
    rw [hsize _ (hl.fits c (dropLast_subset cs hc)).alloc]
    exact hl.full c hc

theorem Linked.alloc (hl : Linked h cs) (hx : x ∈ places cs) : x.1 < h.next := by
  obtain ⟨c,hc,hxc⟩ := mem_flatMap.mp hx
  rw [(Chunk.mem_places.mp hxc).1]
  exact (hl.fits c hc).alloc

theorem linked_concat : Linked h (cs++[t]) ↔
    (∀ c ∈ cs, c.Fits h ∧ c.writeIdx = h.size c.data) ∧ t.Fits h := by
  constructor
  · intro hl
    refine ⟨fun c hc => ⟨hl.fits c (by simp [hc]),hl.full c ?_⟩,hl.fits t (by simp)⟩
    rwa [dropLast_concat]
  · rintro ⟨hall,ht⟩
    refine ⟨fun c hc => ?_,fun c hc => ?_⟩
    · rcases mem_append.mp hc with hc | hc
      · exact (hall c hc).1
      · rwa [mem_singleton.mp hc]
    · rw [dropLast_concat] at hc
      exact (hall c hc).2

theorem Linked.tail (hl : Linked h (c::cs)) : Linked h cs where
  fits c' hc := hl.fits c' (mem_cons_of_mem _ hc)
  full c' hc := by
    refine hl.full c' ?_
    cases cs with
    | nil => cases hc
    | cons d cs => exact mem_cons_of_mem _ hc

theorem Linked.head_full (hl : Linked h (c::cs)) (hcs : cs ≠ []) : c.writeIdx = h.size c.data := by
  refine hl.full c ?_
  rw [dropLast_cons_of_ne_nil hcs]
  exact mem_cons_self

theorem linked_cons (hc : c.Fits h) (hcs : cs ≠ [] → c.writeIdx = h.size c.data)
    (hl : Linked h cs) : Linked h (c::cs) where
  fits := forall_mem_cons.mpr ⟨hc,hl.fits⟩
  full := by
    cases cs with
    | nil => exact forall_mem_nil _
    | cons d cs => exact forall_mem_cons.mpr ⟨hcs (cons_ne_nil _ _),hl.full⟩

theorem hasRoom_concat : hasRoom h (cs++[t]) = !t.fullyWritten h := by simp [hasRoom]

theorem Ready.frame_refs (hr : Ready h cs) (hl : Linked h' cs')
    (hrefs : ∀ d, h'.ref d+refs cs d = h.ref d+refs cs' d)
    (hfresh : ∀ d, h'.next ≤ d → h'.ref d = 0) : Ready h' cs' where
  toLinked := hl
  held d := by
    have := hrefs d
    have := hr.held d
    omega
  fresh := hfresh

/-! ### Taking bytes -/

theorem Takes.refl (hr : Ready h cs) : Takes h cs h cs 0 where
  places := by simp
  size _ _ := rfl
  next := le_rfl
  refs _ := rfl
  ready := hr
  byte := rfl
  last t ht := ⟨t,ht,rfl,rfl⟩
  tail t ht _ := ⟨t,ht,rfl,rfl⟩

theorem Takes.trans {k k' : ℕ} (hl : Linked h cs) (h₁ : Takes h cs h' cs' k)
    (h₂ : Takes h' cs' h'' cs'' k') : Takes h cs h'' cs'' (k+k') where
  places := by
    rw [h₂.places,h₁.places]
    simp [drop_drop]
  size d hd := (h₂.size d (hd.trans_le h₁.next)).trans (h₁.size d hd)
  next := h₁.next.trans h₂.next
  refs d := by
    have := h₁.refs d
    have := h₂.refs d
    omega
  ready := h₂.ready
  byte := h₂.byte.trans h₁.byte
  last t'' ht'' := by
    obtain ⟨t',ht',hd',hw'⟩ := h₂.last t'' ht''
    obtain ⟨t,ht,hd,hw⟩ := h₁.last t' ht'
    exact ⟨t,ht,hd'.trans hd,hw'.trans hw⟩
  tail t ht hroom := by
    obtain ⟨t',ht',hd',hw'⟩ := h₁.tail t ht hroom
    have hsize := h₁.size t.data (hl.fits t (mem_of_getLast? ht)).alloc
    obtain ⟨t'',ht'',hd'',hw''⟩ := h₂.tail t' ht' (by rwa [hw',hd',hsize])
    exact ⟨t'',ht'',hd''.trans hd',hw''.trans hw'⟩

theorem Heap.release_ref (d e : ℕ) :
    (h.release d).ref e = if e = d then h.ref e-1 else h.ref e := by
  unfold release ref
  by_cases he : e = d <;> simp [he]

theorem Heap.release_size (d e : ℕ) : (h.release d).size e = h.size e := by
  unfold release size
  by_cases he : e = d <;> simp [he]

theorem Heap.release_byte (d : ℕ) : (h.release d).byte = h.byte := by
  funext x
  unfold release byte
  by_cases he : x.1 = d <;> simp [he]

theorem advance_takes {cnt : ℕ} (hr : Ready h (c::cs)) (hcnt : cnt ≤ c.contentSize) :
    Takes h (c::cs) (advance h (c::cs) cnt).1 (advance h (c::cs) cnt).2 cnt := by
  have hc := hr.fits c mem_cons_self
  have hle : c.readIdx+cnt ≤ c.writeIdx := by
    have := hc.le
    unfold Chunk.contentSize at hcnt
    omega
  have hdrop : (places (c::cs)).drop cnt = c.places.drop cnt++places cs := by
    rw [places_cons,drop_append_of_le_length (by simpa using hcnt)]
  simp only [advance]
  split_ifs with hread
  · -- the head has been read to the end of its buffer
    have hsize : c.readIdx+cnt = h.size c.data := of_decide_eq_true hread
    have hall : c.contentSize = cnt := by
      have := hc.bound
      unfold Chunk.contentSize at hcnt ⊢
      omega
    have hrefs : ∀ d, (h.release c.data).ref d+refs (c::cs) d = h.ref d+refs cs d := by
      intro d
      have hheld := hr.held d
      rw [refs_cons] at hheld ⊢
      rw [Heap.release_ref]
      by_cases hd : d = c.data
      · subst hd
        simp only [if_true] at hheld ⊢
        omega
      · rw [if_neg hd,if_neg (Ne.symm hd)]
        omega
    have hlink : Linked (h.release c.data) cs :=
      hr.tail.frame (fun _ _ => Heap.release_size _ _) le_rfl
    refine ⟨⟨?_,fun _ _ => Heap.release_size _ _,le_rfl,hrefs,hr.frame_refs hlink hrefs ?_⟩,
      Heap.release_byte _,fun t ht => ⟨t,?_,rfl,rfl⟩,fun t ht hroom => ⟨t,?_,rfl,rfl⟩⟩
    · rw [hdrop,drop_of_length_le (by simp [hall]),nil_append,append_nil]
    · intro d hd
      rw [Heap.release_ref,if_neg (hc.alloc.trans_le hd).ne',hr.fresh d hd]
    · cases cs with
      | nil => cases ht
      | cons d cs => rwa [getLast?_cons_cons]
    · cases cs with
      | nil =>
        -- a tail with room is not fully read
        cases ht
        exact absurd (le_antisymm hc.bound (hsize ▸ hle)) hroom
      | cons d cs => rwa [getLast?_cons_cons] at ht
  · have hsize : c.readIdx+cnt ≠ h.size c.data := fun he => hread (decide_eq_true he)
    have hfits : ({c with readIdx := c.readIdx+cnt} : Chunk).Fits h :=
      ⟨hle,hc.bound,lt_of_le_of_ne (hle.trans hc.bound) hsize,hc.alloc⟩
    have hlink : Linked h ({c with readIdx := c.readIdx+cnt}::cs) :=
      linked_cons hfits hr.head_full hr.tail
    have hrefs : ∀ d, h.ref d+refs (c::cs) d =
        h.ref d+refs ({c with readIdx := c.readIdx+cnt}::cs) d := by
      intro d
      rw [refs_cons,refs_cons]
    refine ⟨⟨?_,fun _ _ => rfl,le_rfl,hrefs,hr.frame_refs hlink hrefs hr.fresh⟩,rfl,fun t ht => ?_,
      fun t ht _ => ?_⟩
    · rw [hdrop,places_cons,Chunk.places_drop,append_nil]
    · cases cs with
      | nil =>
        cases ht
        exact ⟨c,rfl,rfl,rfl⟩
      | cons d cs =>
        exact ⟨t,by rwa [getLast?_cons_cons],rfl,rfl⟩
    · cases cs with
      | nil =>
        cases ht
        exact ⟨_,rfl,rfl,rfl⟩
      | cons d cs =>
        exact ⟨t,by rwa [getLast?_cons_cons],rfl,rfl⟩

theorem Linked.rest_eq_nil (hl : Linked h (c::cs)) (hc : c.writeIdx ≠ h.size c.data) : cs = [] := by
  by_contra hcs
  exact hc (hl.head_full hcs)

theorem Linked.places_eq_nil (hl : Linked h (c::cs)) (hc : c.contentSize = 0) :
    places (c::cs) = [] := by
  have hfits := hl.fits c mem_cons_self
  have hfull : c.writeIdx ≠ h.size c.data := by
    have := hfits.unread
    unfold Chunk.contentSize at hc
    omega
  rw [hl.rest_eq_nil hfull,places_cons,places_nil,append_nil]
  exact eq_nil_of_length_eq_zero (Chunk.length_places.trans hc)

theorem take_cons_of_le (hn : n ≤ c.contentSize) :
    ((places (c::cs)).take n).map h.byte = c.front h n := by
  rw [places_cons,take_append_of_le_length (by simpa using hn),Chunk.front_eq hn]

theorem take_cons_of_ge (hn : c.contentSize ≤ n) : ((places (c::cs)).take n).map h.byte =
      c.front h c.contentSize++((places cs).take (n-c.contentSize)).map h.byte := by
  have hall : c.places.take n = c.places := take_of_length_le (by simpa using hn)
  rw [places_cons,take_append,Chunk.length_places,hall,map_append,Chunk.front_eq le_rfl,
    take_of_length_le Chunk.length_places.le]

/-- `read` gives the front of the content and takes it off. -/
theorem readChunks_spec (hr : Ready h cs) (n : ℕ) :
    (readChunks h cs n).1 = ((places cs).take n).map h.byte ∧
      Takes h cs (readChunks h cs n).2.1 (readChunks h cs n).2.2 (readChunks h cs n).1.length := by
  induction cs generalizing h n with
  | nil => exact ⟨by simp [readChunks],Takes.refl hr⟩
  | cons c rest ih =>
    have hc := hr.fits c mem_cons_self
    unfold readChunks
    split_ifs with hstop
    · refine ⟨?_,Takes.refl hr⟩
      rcases hstop with rfl | hempty
      · rfl
      · rw [hr.places_eq_nil hempty,take_nil]
        rfl
    · have hadv := advance_takes hr (min_le_right n c.contentSize)
      have hlen : (c.front h (min n c.contentSize)).length = min n c.contentSize := by
        simp [Chunk.front]
      dsimp only
      simp only [advance] at hadv
      by_cases hread : ({c with readIdx := c.readIdx+min n c.contentSize} : Chunk).fullyRead h = true
      · -- the whole head has been read
        rw [if_pos hread] at hadv ⊢
        have hall : c.contentSize ≤ n := by
          have hsize : c.readIdx+min n c.contentSize = h.size c.data := of_decide_eq_true hread
          have := hc.bound
          unfold Chunk.contentSize at hsize ⊢
          omega
        obtain ⟨hbytes,htakes⟩ := ih hadv.ready (n-min n c.contentSize)
        rw [Heap.release_byte] at hbytes
        refine ⟨?_,?_⟩
        · rw [take_cons_of_ge hall]
          dsimp only
          rw [hbytes,min_eq_right hall]
        · rw [length_append,hlen]
          exact hadv.trans hr.toLinked htakes
      · rw [if_neg hread] at hadv ⊢
        refine ⟨?_,hlen.symm ▸ hadv⟩
        rcases le_total n c.contentSize with hle | hle
        · rw [min_eq_left hle,take_cons_of_le hle]
        · -- the head has no more bytes, and nothing stands behind it
          rw [min_eq_right hle] at hread ⊢
          have hfull : c.writeIdx ≠ h.size c.data := by
            intro hw
            refine hread (decide_eq_true ?_)
            have := hc.le
            simp only [Chunk.contentSize]
            omega
          rw [take_cons_of_ge hle,hr.rest_eq_nil hfull]
          simp

theorem peekChunks_eq (hl : Linked h cs) (n : ℕ) :
    peekChunks h cs n = ((places cs).take n).map h.byte := by
  induction cs generalizing n with
  | nil => simp [peekChunks]
  | cons c rest ih =>
    simp only [peekChunks]
    split_ifs with hstop
    · rcases min_eq_zero_iff.mp hstop with rfl | hempty
      · rfl
      · rw [hl.places_eq_nil hempty,take_nil]
        rfl
    · rw [ih hl.tail]
      rcases le_total n c.contentSize with hle | hle
      · rw [min_eq_left hle,Nat.sub_self,take_cons_of_le hle]
        simp
      · rw [min_eq_right hle,take_cons_of_ge hle]

/-- `write_to_fd` sends a part of the front and takes it off. -/
theorem writeFd_spec (hr : Ready h cs) (size : ℕ) (calls : List ℤ) :
    (writeFd h cs size calls).1 <+: (places cs).map h.byte ∧
      Takes h cs (writeFd h cs size calls).2.1 (writeFd h cs size calls).2.2
        (writeFd h cs size calls).1.length := by
  induction calls generalizing h cs size with
  | nil => exact ⟨List.nil_prefix,Takes.refl hr⟩
  | cons r calls ih =>
    unfold writeFd
    split
    · next size c rest =>
      dsimp only
      split_ifs with hstop
      · exact ⟨List.nil_prefix,Takes.refl hr⟩
      · set cnt := (min r (c.contentSize : ℤ)).toNat with hcnt
        have hle : cnt ≤ c.contentSize := by omega
        have hadv := advance_takes hr hle
        obtain ⟨hbytes,htakes⟩ := ih hadv.ready (size+1-cnt)
        refine ⟨?_,?_⟩
        · rw [hadv.places,append_nil,hadv.byte] at hbytes
          have hsplit : (places (c::rest)).map h.byte =
              c.front h cnt++((places (c::rest)).drop cnt).map h.byte := by
            rw [← take_cons_of_le hle,← map_append,take_append_drop]
          rw [hsplit]
          exact (prefix_append_right_inj _).mpr hbytes
        · rw [length_append]
          have hlen : (c.front h cnt).length = cnt := by simp [Chunk.front]
          rw [hlen]
          exact hadv.trans hr.toLinked htakes
    · exact ⟨List.nil_prefix,Takes.refl hr⟩

/-! ### Writing bytes -/

theorem Writes.beyond_of (hw : Writes h cs h' cs' new) {i : ℕ} (hb : Beyond h' cs' d i) :
    Beyond h cs d i := by
  rcases hb with hd | ⟨t',ht',rfl,hi⟩
  · exact .inl (hw.next.trans hd)
  · rcases hw.last t' ht' with hd | ⟨t,ht,hd,hle⟩
    · exact .inl hd
    · exact .inr ⟨t,ht,hd,hle.trans hi⟩

theorem Writes.alloc (hw : Writes h cs h' cs' new) (hx : x ∈ new) : x.1 < h'.next :=
  hw.ready.alloc (by rw [hw.places]; exact mem_append_right _ hx)

theorem Writes.stays (h₁ : Writes h cs h' cs' new) (h₂ : Writes h' cs' h'' cs'' new') :
    new.map h''.byte = new.map h'.byte :=
  map_congr_left fun x hx => h₂.kept x (h₁.alloc hx) fun hx' =>
    h₁.apart x hx (h₂.beyond x hx')

theorem Writes.refl (hr : Ready h cs) : Writes h cs h cs [] where
  places := by simp
  size _ _ := rfl
  next := le_rfl
  refs _ := rfl
  ready := hr
  beyond := forall_mem_nil _
  apart := forall_mem_nil _
  last t ht := .inr ⟨t,ht,rfl,le_rfl⟩
  kept _ _ _ := rfl

theorem Writes.trans (h₁ : Writes h cs h' cs' new) (h₂ : Writes h' cs' h'' cs'' new') :
    Writes h cs h'' cs'' (new++new') where
  places := by
    rw [h₂.places,h₁.places]
    simp
  size d hd := (h₂.size d (hd.trans_le h₁.next)).trans (h₁.size d hd)
  next := h₁.next.trans h₂.next
  refs d := by
    have := h₁.refs d
    have := h₂.refs d
    omega
  ready := h₂.ready
  beyond := forall_mem_append.mpr ⟨h₁.beyond,fun x hx => h₁.beyond_of (h₂.beyond x hx)⟩
  apart := forall_mem_append.mpr ⟨fun x hx hb => h₁.apart x hx (h₂.beyond_of hb),h₂.apart⟩
  last t ht := h₁.beyond_of (h₂.last t ht)
  kept x hx hnew := by
    rw [mem_append,not_or] at hnew
    rw [h₂.kept x (hx.trans_le h₁.next) hnew.2,h₁.kept x hx hnew.1]

theorem pushNew_writes (hr : Ready h cs) (hroom : hasRoom h cs = false) (sz : ℕ) :
    Writes h cs (pushNew h cs sz).1 (pushNew h cs sz).2 [] := by
  have hsize : ∀ d < h.next, (h.alloc sz).size d = h.size d := by
    intro d hd
    simp [Heap.alloc,Heap.size,hd.ne]
  have hlink : Linked (h.alloc sz) (cs++[⟨h.next,0,0⟩]) := by
    have hold := hr.frame hsize (le_succ _ : h.next ≤ (h.alloc sz).next)
    have hnew : (0 : ℕ) < (h.alloc sz).size h.next := by simp [Heap.alloc,Heap.size,minSize]
    refine linked_concat.mpr ⟨fun c hc => ⟨hold.fits c hc,?_⟩,le_rfl,hnew.le,hnew,lt_succ_self _⟩
    -- the tail so far is fully written
    rcases eq_nil_or_concat cs with rfl | ⟨pre,t,rfl⟩
    · cases hc
    · rw [concat_eq_append] at hroom hold hc
      rw [hasRoom_concat,Bool.not_eq_false'] at hroom
      rcases mem_append.mp hc with hc | hc
      · exact hold.full c (by rwa [dropLast_concat])
      · rw [mem_singleton.mp hc] at *
        rw [hsize _ (hr.fits t (by simp)).alloc]
        exact of_decide_eq_true hroom
  have hrefs : ∀ d, (h.alloc sz).ref d+refs cs d = h.ref d+refs (cs++[⟨h.next,0,0⟩]) d := by
    intro d
    rw [refs_append,refs_cons,refs_nil]
    by_cases hd : d = h.next
    · subst hd
      have := hr.fresh h.next le_rfl
      simp [Heap.alloc,Heap.ref] at this ⊢
      omega
    · simp [Heap.alloc,Heap.ref,hd,Ne.symm hd]
  refine ⟨⟨by simp [pushNew,Chunk.places,Chunk.contentSize],hsize,le_succ _,hrefs,
    hr.frame_refs hlink hrefs fun d hd => ?_⟩,forall_mem_nil _,forall_mem_nil _,
    fun t ht => ?_,fun x hx _ => ?_⟩
  · have hd' : h.next < d := hd
    simp only [pushNew,Heap.alloc,Heap.ref,Function.update_of_ne hd'.ne']
    exact hr.fresh d hd'.le
  · simp only [pushNew,getLast?_concat,Option.mem_def,Option.some.injEq] at ht
    exact .inl (ht ▸ le_rfl)
  · simp [pushNew,Heap.alloc,Heap.byte,hx.ne]

theorem Heap.memcpy_byte (d off n : ℕ) (p : ℕ → Byte) (x : Place) : (h.memcpy d off p n).byte x =
      if x.1 = d ∧ off ≤ x.2 ∧ x.2 < off+n then p (x.2-off) else h.byte x := by
  unfold memcpy byte
  by_cases hd : x.1 = d
  · subst hd
    simp
  · simp [hd]

theorem Heap.memcpy_size (d off n : ℕ) (p : ℕ → Byte) (e : ℕ) :
    (h.memcpy d off p n).size e = h.size e := by
  unfold memcpy size
  by_cases hd : e = d <;> simp [hd]

theorem Heap.memcpy_ref (d off n : ℕ) (p : ℕ → Byte) (e : ℕ) :
    (h.memcpy d off p n).ref e = h.ref e := by
  unfold memcpy ref
  by_cases hd : e = d <;> simp [hd]

theorem Chunk.mem_behind :
    x ∈ t.behind n ↔ x.1 = t.data ∧ t.writeIdx ≤ x.2 ∧ x.2 < t.writeIdx+n := by
  rcases x with ⟨d,i⟩
  simp only [behind,mem_map,mem_range'_1,Prod.mk.injEq]
  exact ⟨fun ⟨_,hi,hd,hj⟩ => ⟨hd.symm,hj ▸ hi.1,hj ▸ hi.2⟩,fun ⟨hd,hi⟩ => ⟨i,hi,hd.symm,rfl⟩⟩

/-- The write index of the tail moves over bytes of `h'`, which is `h` elsewhere. -/
theorem bump_writes (hr : Ready h (cs++[t])) (hn : t.writeIdx+n ≤ h.size t.data)
    (hsize : ∀ d, h'.size d = h.size d) (hnext : h'.next = h.next)
    (hrefs : ∀ d, h'.ref d = h.ref d) (hkept : ∀ x, x ∉ t.behind n → h'.byte x = h.byte x) :
    Writes h (cs++[t]) h' (bump (cs++[t]) n) (t.behind n) := by
  obtain ⟨hold,ht⟩ := linked_concat.mp hr.toLinked
  have hlink : Linked h (cs++[{t with writeIdx := t.writeIdx+n}]) := by
    refine linked_concat.mpr ⟨hold,?_,hn,ht.unread,ht.alloc⟩
    exact ht.le.trans (le_add_right _ _)
  have hcounts : ∀ d, h'.ref d+refs (cs++[t]) d =
      h.ref d+refs (cs++[{t with writeIdx := t.writeIdx+n}]) d := by
    intro d
    rw [hrefs,refs_append,refs_append,refs_cons,refs_cons]
  rw [bump_concat]
  refine ⟨⟨?_,fun d _ => hsize d,hnext.ge,hcounts,hr.frame_refs
    (hlink.frame (fun d _ => hsize d) hnext.ge) hcounts fun d hd => ?_⟩,fun x hx => ?_,
    fun x hx hb => ?_,fun t' ht' => ?_,fun x _ hx => hkept x hx⟩
  · rw [places_append,places_append,places_cons,places_cons,Chunk.places_bump ht.le]
    simp
  · rw [hrefs,hr.fresh d (hnext ▸ hd)]
  · obtain ⟨hd,hi,-⟩ := Chunk.mem_behind.mp hx
    exact .inr ⟨t,by simp,hd,hi⟩
  · obtain ⟨hd,-,hi⟩ := Chunk.mem_behind.mp hx
    rcases hb with hb | ⟨t',ht',-,hle⟩
    · have := ht.alloc
      omega
    · simp only [getLast?_concat,Option.mem_def,Option.some.injEq] at ht'
      subst ht'
      exact absurd hi (not_lt.mpr hle)
  · simp only [getLast?_concat,Option.mem_def,Option.some.injEq] at ht'
    subst ht'
    exact .inr ⟨t,by simp,rfl,le_add_right _ _⟩

theorem tailWrite_spec (hr : Ready h cs) (hn : n ≤ room h cs) (hcs : cs ≠ [])
    (p : ℕ → Byte) : ∃ new, Writes h cs (tailWrite h cs p n).1 (tailWrite h cs p n).2 new ∧
      new.map (tailWrite h cs p n).1.byte = (List.range n).map p := by
  rcases eq_nil_or_concat cs with rfl | ⟨pre,t,rfl⟩
  · exact absurd rfl hcs
  rw [concat_eq_append] at hr hn ⊢
  have ht := hr.fits t (by simp)
  simp only [room,getLast?_concat] at hn
  simp only [tailWrite,getLast?_concat]
  refine ⟨t.behind n,bump_writes hr ?_ (Heap.memcpy_size _ _ _ _) rfl (Heap.memcpy_ref _ _ _ _)
    fun x hx => ?_,?_⟩
  · have := ht.bound
    omega
  · rw [Heap.memcpy_byte,if_neg fun hin => hx (Chunk.mem_behind.mpr hin)]
  · apply ext_getElem
    · simp [Chunk.behind]
    · intro i h₁ h₂
      have hi : i < n := by simpa using h₂
      simp [Chunk.behind,Heap.memcpy_byte,hi]

theorem pushWrite_spec (hr : Ready h cs) (hroom : hasRoom h cs = false) (p : ℕ → Byte) (n : ℕ) :
    ∃ new, Writes h cs (pushWrite h cs p n).1 (pushWrite h cs p n).2 new ∧
      new.map (pushWrite h cs p n).1.byte = (List.range n).map p := by
  have hpush := pushNew_writes hr hroom n
  have hn : n ≤ room (pushNew h cs n).1 (pushNew h cs n).2 := by
    simp [room,pushNew,Heap.alloc,Heap.size]
  obtain ⟨new,hw,hbytes⟩ := tailWrite_spec hpush.ready hn (by simp [pushNew]) p
  exact ⟨new,hpush.trans hw,hbytes⟩

theorem hasRoom_iff (hl : Linked h cs) : hasRoom h cs = true ↔ 0 < room h cs := by
  rcases eq_nil_or_concat cs with rfl | ⟨pre,t,rfl⟩
  · simp [hasRoom,room]
  · rw [concat_eq_append] at hl ⊢
    have ht := hl.fits t (by simp)
    have := ht.bound
    simp only [hasRoom_concat,room,getLast?_concat,Chunk.fullyWritten,Bool.not_eq_true',
      decide_eq_false_iff_not]
    omega

theorem ne_nil_of_hasRoom (hroom : hasRoom h cs = true) : cs ≠ [] := by
  rintro rfl
  cases hroom

section

variable (hr : Ready h cs)
include hr

theorem tailWrite_full (hn : n = room h cs) (p : ℕ → Byte) :
    hasRoom (tailWrite h cs p n).1 (tailWrite h cs p n).2 = false := by
  rcases eq_nil_or_concat cs with rfl | ⟨pre,t,rfl⟩
  · rfl
  · rw [concat_eq_append] at hr hn ⊢
    have ht := hr.fits t (by simp)
    simp only [room,getLast?_concat] at hn
    simp only [tailWrite,getLast?_concat,bump_concat,hasRoom_concat,Chunk.fullyWritten,
      Heap.memcpy_size,Bool.not_eq_false',decide_eq_true_eq]
    have := ht.bound
    omega

theorem writeChunks_spec (p : ℕ → Byte) (n : ℕ) :
    ∃ new, Writes h cs (writeChunks h cs p n).1 (writeChunks h cs p n).2 new ∧
      new.map (writeChunks h cs p n).1.byte = (List.range n).map p := by
  unfold writeChunks
  split_ifs with hroom
  · obtain ⟨new,hw,hbytes⟩ := tailWrite_spec hr (min_le_right n _) (ne_nil_of_hasRoom hroom) p
    dsimp only
    split_ifs with hlt
    · -- the tail is full, and the rest goes to a new chunk
      have hfull := tailWrite_full hr (by omega : min n (room h cs) = room h cs) p
      obtain ⟨new',hw',hbytes'⟩ := pushWrite_spec hw.ready hfull
        (fun i => p (i+min n (room h cs))) (n-min n (room h cs))
      refine ⟨new++new',hw.trans hw',?_⟩
      have hsplit : range n = range (min n (room h cs)) ++
          (range (n-min n (room h cs))).map (min n (room h cs)+·) := by
        rw [← range_add]
        congr 1
        omega
      rw [map_append,hw.stays hw',hbytes,hbytes',hsplit,map_append,map_map]
      simp only [Function.comp_def,add_comm]
    · have hn : min n (room h cs) = n := by omega
      rw [hn] at hw hbytes ⊢
      exact ⟨new,hw,hbytes⟩
  · exact pushWrite_spec hr (by simpa using hroom) p n

theorem ensureRoom_writes :
    Writes h cs (ensureRoom h cs).1 (ensureRoom h cs).2 [] ∧
      hasRoom (ensureRoom h cs).1 (ensureRoom h cs).2 = true := by
  unfold ensureRoom
  split_ifs with hroom
  · exact ⟨Writes.refl hr,hroom⟩
  · refine ⟨pushNew_writes hr (by simpa using hroom) 0,?_⟩
    simp [pushNew,hasRoom_concat,Chunk.fullyWritten,Heap.alloc,Heap.size,minSize]

theorem readFd_spec (input : List Byte) (calls : List ℕ) : let y := readFd h cs input calls
    y.1 <+: input ∧ ∃ new, Writes h cs y.2.1 y.2.2 new ∧ new.map y.2.1.byte = y.1 := by
  induction calls generalizing h cs input with
  | nil => exact ⟨List.nil_prefix,[],(ensureRoom_writes hr).1,rfl⟩
  | cons r calls ih =>
    obtain ⟨hw₁,hroom⟩ := ensureRoom_writes hr
    simp only [readFd]
    split_ifs with hstop
    · exact ⟨List.nil_prefix,[],hw₁,rfl⟩
    set cnt := min r (min (room (ensureRoom h cs).1 (ensureRoom h cs).2) input.length) with hcnt
    have hle : cnt ≤ input.length := by omega
    obtain ⟨new,hw₂,hbytes⟩ := tailWrite_spec hw₁.ready (n:=cnt) (by omega)
      (ne_nil_of_hasRoom hroom) fun i => input.getD i 0
    obtain ⟨hpre,new',hw₃,hbytes'⟩ := ih hw₂.ready (input.drop cnt)
    have htake : (range cnt).map (fun i => input.getD i 0) = input.take cnt := by
      apply ext_getElem
      · simp [hle]
      · intro i h₁ h₂
        have hi : i < input.length := by
          simp at h₂
          omega
        simp [hi]
    refine ⟨?_,[]++new++new',(hw₁.trans hw₂).trans hw₃,?_⟩
    · obtain ⟨rest,hrest⟩ := hpre
      exact ⟨rest,by rw [append_assoc,hrest,take_append_drop]⟩
    · rw [nil_append,map_append,hw₂.stays hw₃,hbytes,hbytes',htake]

/-- `set_bookmark` sets places at the end aside and writes nothing. -/
theorem bookmarkChunks_spec (n : ℕ) : let y := bookmarkChunks h cs n
    Writes h cs y.2.1 y.2.2 y.1 ∧ y.1.length = n ∧
      ∀ x : Place, x.1 < h.next → y.2.1.byte x = h.byte x := by
  induction n generalizing h cs with
  | zero => exact ⟨Writes.refl hr,rfl,fun _ _ => rfl⟩
  | succ n ih =>
    obtain ⟨hw₁,hroom⟩ := ensureRoom_writes hr
    simp only [bookmarkChunks]
    generalize ensureRoom h cs = y at hw₁ hroom
    obtain ⟨h₁,cs₁⟩ := y
    rcases eq_nil_or_concat cs₁ with rfl | ⟨pre,t,rfl⟩
    · cases hroom
    rw [concat_eq_append] at hw₁ hroom ⊢
    have hn : t.writeIdx+1 ≤ h₁.size t.data := by
      have := (hasRoom_iff hw₁.ready.toLinked).mp hroom
      simp only [room,getLast?_concat] at this
      omega
    have hw₂ := bump_writes hw₁.ready hn (fun _ => rfl) rfl (fun _ => rfl) fun _ _ => rfl
    obtain ⟨hw₃,hlen,hquiet⟩ := ih hw₂.ready
    rw [getLast?_concat]
    refine ⟨(hw₁.trans hw₂).trans hw₃,by simp [hlen],fun x hx => ?_⟩
    rw [hquiet x (hx.trans_le hw₁.next)]
    exact hw₁.kept x hx not_mem_nil

end

theorem writePlaces_spec (h : Heap) (xs : List Place) (p : ℕ → Byte) :
    (∀ d, (writePlaces h xs p).size d = h.size d ∧ (writePlaces h xs p).ref d = h.ref d) ∧
    (writePlaces h xs p).next = h.next ∧
    (∀ x, x ∉ xs → (writePlaces h xs p).byte x = h.byte x) ∧
    (xs.Nodup → xs.map (writePlaces h xs p).byte = (List.range xs.length).map p) := by
  induction xs generalizing h p with
  | nil => exact ⟨fun _ => ⟨rfl,rfl⟩,rfl,fun _ _ => rfl,fun _ => rfl⟩
  | cons y xs ih =>
    obtain ⟨hsame,hnext,hkept,hbytes⟩ := ih (h.memcpy y.1 y.2 (fun _ => p 0) 1) fun i => p (i+1)
    simp only [writePlaces]
    refine ⟨fun d => ?_,hnext,fun x hx => ?_,fun hnd => ?_⟩
    · rw [(hsame d).1,(hsame d).2,Heap.memcpy_size,Heap.memcpy_ref]
      exact ⟨rfl,rfl⟩
    · rw [mem_cons,not_or] at hx
      rw [hkept x hx.2,Heap.memcpy_byte,if_neg]
      rintro ⟨hd,hlo,hhi⟩
      exact hx.1 (Prod.ext hd (by omega))
    · obtain ⟨hy,hnd⟩ := nodup_cons.mp hnd
      rw [map_cons,hbytes hnd,hkept y hy,Heap.memcpy_byte,if_pos ⟨rfl,le_rfl,by omega⟩,
        length_cons,range_succ_eq_map]
      simp [Function.comp_def]

theorem hasRoom_eq_false : hasRoom h cs = false ↔ ∀ t ∈ cs.getLast?, t.writeIdx = h.size t.data := by
  unfold hasRoom
  cases cs.getLast? with
  | none => simp
  | some t => simp [Chunk.fullyWritten]

theorem Heap.refCopy_ref (d e : ℕ) : (h.refCopy d).ref e = h.ref e+if d = e then 1 else 0 := by
  unfold refCopy ref
  by_cases he : e = d
  · subst he
    simp
  · simp [he,Ne.symm he]

theorem Heap.refCopy_size (d e : ℕ) : (h.refCopy d).size e = h.size e := by
  unfold refCopy size
  by_cases he : e = d <;> simp [he]

theorem Heap.refCopy_byte (d : ℕ) : (h.refCopy d).byte = h.byte := by
  funext x
  unfold refCopy byte
  by_cases he : x.1 = d <;> simp [he]

theorem shared_turns (hr : Ready h cs) (hroom : hasRoom h cs = false) (hc : c.Fits h) :
    Turns h cs (h.refCopy c.data) (cs++[c]) 0 c.places := by
  have hfits : ∀ c' : Chunk, c'.Fits h → c'.Fits (h.refCopy c.data) := fun c' hc' =>
    hc'.frame (fun _ _ => Heap.refCopy_size _ _) le_rfl
  have hlink : Linked (h.refCopy c.data) (cs++[c]) := by
    refine linked_concat.mpr ⟨fun c' hc' => ⟨hfits c' (hr.fits c' hc'),?_⟩,hfits c hc⟩
    rw [Heap.refCopy_size]
    rcases eq_nil_or_concat cs with rfl | ⟨pre,t,rfl⟩
    · cases hc'
    · rw [concat_eq_append] at hr hroom hc'
      rcases mem_append.mp hc' with hc' | hc'
      · exact hr.full c' (by rwa [dropLast_concat])
      · rw [mem_singleton.mp hc']
        exact hasRoom_eq_false.mp hroom t (by simp)
  have hrefs : ∀ d, (h.refCopy c.data).ref d+refs cs d = h.ref d+refs (cs++[c]) d := by
    intro d
    rw [Heap.refCopy_ref,refs_append,refs_cons,refs_nil]
    omega
  refine ⟨by simp,fun _ _ => Heap.refCopy_size _ _,le_rfl,hrefs,hr.frame_refs hlink hrefs
    fun d hd => ?_⟩
  have hne : c.data ≠ d := (hc.alloc.trans_le hd).ne
  rw [Heap.refCopy_ref,if_neg hne,hr.fresh d hd]

theorem Takes.room {k : ℕ} (hl : Linked h cs) (ht : Takes h cs h' cs' k)
    (hroom : hasRoom h cs = true) : hasRoom h' cs' = true ∧ room h' cs' = room h cs := by
  rcases eq_nil_or_concat cs with rfl | ⟨pre,t,rfl⟩
  · cases hroom
  rw [concat_eq_append] at hl ht hroom ⊢
  have hne : t.writeIdx ≠ h.size t.data := by simpa [hasRoom_concat,Chunk.fullyWritten] using hroom
  obtain ⟨t',ht',hd,hw⟩ := ht.tail t (by simp) hne
  have hsize := ht.size t.data (hl.fits t (by simp)).alloc
  have hsome : cs'.getLast? = some t' := ht'
  unfold hasRoom Marshal.room
  rw [hsome]
  simp [Chunk.fullyWritten,hd,hw,hsize,hne]

theorem writeChunks_full (hr : Ready h cs) (hroom : hasRoom h cs = true) (p : ℕ → Byte) :
    hasRoom (writeChunks h cs p (room h cs)).1 (writeChunks h cs p (room h cs)).2 = false := by
  unfold writeChunks
  rw [if_pos hroom]
  simp only [min_self,lt_irrefl,if_false]
  exact tailWrite_full hr rfl p

end Marshal
end Janus
