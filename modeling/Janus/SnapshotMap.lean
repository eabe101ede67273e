import Janus.Containers
import Janus.Transition

/-! `snapshot_sortedmap` (`memdb/snapshot.h`) with asserts compiled out: handles that share the
versioned entries of a group and form a circular list in it, and the naive model in which every
handle has a multimap of its own. Handles and groups are numbered as they are allocated, also the
temporary snapshot in a range object. Versions do not wrap around. A failed `verify` is no step. -/

namespace Janus.Snapshot

open Transition Function Multimap List Option Nat List.Pairwise

/-- A key with its `versioned_value`; `removedAt` is `none` for -1. -/
structure Entry (K V : Type) where
  key : K
  createdAt : ℕ
  removedAt : Option ℕ := none
  val : V

def Entry.validAt {K V : Type} (e : Entry K V) (v : ℕ) : Bool :=
  decide (e.createdAt ≤ v) && e.removedAt.all fun r => decide (v < r)

def Entry.remove {K V : Type} (e : Entry K V) (v : ℕ) : Entry K V := {e with removedAt := some v}

def Entry.pair {K V : Type} (e : Entry K V) : K × V := (e.key,e.val)

structure Group (K V : Type) where
  data : List (Entry K V) := []
  writer : Option ℕ := none
  gcInsertCounter : ℕ := 0
  gcEraseCounter : ℕ := 0

/-- The second part of `gc_run`. `ver_high` stays the largest version, so no entry is dropped for
having been created later. -/
def Group.collect {K V : Type} (g : Group K V) (verLow : ℕ) : Group K V :=
  {g with
   data := g.data.filter fun e => !e.removedAt.any fun r => decide (r < verLow)
   gcInsertCounter := 0
   gcEraseCounter := 0}

structure Handle where
  ver : ℕ
  ssg : ℕ
  prev : ℕ
  next : ℕ

structure Heap (K V : Type) where
  handles : ℕ → Option Handle := fun _ => none
  groups : ℕ → Group K V := fun _ => {}
  nextHandle : ℕ := 0
  nextGroup : ℕ := 0

inductive Range (K : Type)
  | all
  | query (key : K)
  | lt (key : K)
  | gt (key : K)
  | inside (low high : K)

namespace Range

variable {K V : Type} [LinearOrder K]

def beforeBegin : Range K → K → Bool
  | all, _ => false
  | query key, k => k < key
  | lt _, _ => false
  | gt key, k => k ≤ key
  | inside low _, k => k ≤ low

def beforeEnd : Range K → K → Bool
  | all, _ => true
  | query key, k => k ≤ key
  | lt key, k => k < key
  | gt _, _ => true
  | inside _ high, k => k < high

/-- `query_in` is called with `low < high`; otherwise its iterators could be the wrong way
round. -/
def Valid : Range K → Prop
  | inside low high => low < high
  | _ => True

instance (r : Range K) : Decidable r.Valid := by
  cases r <;> unfold Valid <;> infer_instance

def slice (r : Range K) (data : List (Entry K V)) : List (Entry K V) :=
  (data.dropWhile fun e => r.beforeBegin e.key).takeWhile fun e => r.beforeEnd e.key

/-- The entries from `begin()` to `end()` are replaced or, for `none`, erased. -/
def visit (r : Range K) (f : Entry K V → Option (Entry K V)) (data : List (Entry K V)) :
    List (Entry K V) :=
  data.takeWhile (fun e => r.beforeBegin e.key)++(r.slice data).filterMap f ++
    (data.dropWhile fun e => r.beforeBegin e.key).dropWhile fun e => r.beforeEnd e.key

def mem (r : Range K) (k : K) : Bool := !r.beforeBegin k && r.beforeEnd k

end Range

namespace Heap

variable {K V : Type}

variable (s : Heap K V)

def modifyHandle (h : ℕ) (f : Handle → Handle) : Heap K V :=
  {s with handles := update s.handles h ((s.handles h).map f)}

def modifyGroup (g : ℕ) (f : Group K V → Group K V) : Heap K V :=
  {s with groups := update s.groups g (f (s.groups g))}

def relink (p next q prev : ℕ) : Heap K V :=
  (s.modifyHandle p fun y => {y with next := next}).modifyHandle q fun y => {y with prev := prev}

def readonly (h : ℕ) (x : Handle) : Bool := (s.groups x.ssg).writer ≠ some h

def hasReadonlySnapshot (h : ℕ) (x : Handle) : Option Bool :=
  if s.readonly h x then some true else (s.handles x.prev).map (s.readonly x.prev)

section Ordered

variable [LinearOrder K]

def enumerate (s : Heap K V) (x : Handle) (r : Range K) (reverse : Bool) : List (K × V) :=
  let pairs := ((r.slice (s.groups x.ssg).data).filter fun e => e.validAt x.ver).map Entry.pair
  if reverse then pairs.reverse else pairs

end Ordered

def view (x : Handle) : List (K × V) :=
  ((s.groups x.ssg).data.filter fun e => e.validAt x.ver).map Entry.pair

def all (h : ℕ) : Option (List (K × V)) := (s.handles h).map s.view

def newGroup (h : ℕ) : Heap K V :=
  {s with
   handles := update s.handles h (some {ver := 0, ssg := s.nextGroup, prev := h, next := h})
   groups := update s.groups s.nextGroup {writer := some h}
   nextGroup := s.nextGroup + 1}

def makeMeSnapshotOf (h src : ℕ) : Option (Heap K V) :=
  (s.handles src).map fun x =>
    let s₁ := {s with handles := update s.handles h (some {x with next := src})}
    let s₂ := s₁.relink x.prev h src h
    if s.readonly src x then s₂
    else s₂.modifyGroup x.ssg fun g => {g with gcInsertCounter := 0, gcEraseCounter := 0}

def walk (s : Heap K V) (p : ℕ) : ℕ → ℕ → Option (List ℕ)
  | 0, _ => none
  | n+1, q =>
    (s.handles q).bind fun x =>
      if x.next = p then some [x.ver] else (s.walk p n x.next).map (x.ver::·)

def gcRun (h : ℕ) : Option (Heap K V) :=
  (s.handles h).bind fun x =>
    (s.walk h s.nextHandle h).map fun vers =>
      s.modifyGroup x.ssg fun g => g.collect (vers.foldl min x.ver)

/-- The handle leaves the list of its group, and the group loses its writer if it was. -/
def unlink (h : ℕ) (x : Handle) : Heap K V :=
  let s₁ := if s.readonly h x then s else s.modifyGroup x.ssg fun g => {g with writer := none}
  let s₂ := if x.prev = h then s₁ else s₁.relink x.prev x.next x.next x.prev
  {s₂ with handles := update s₂.handles h none}

def destroyMe (h : ℕ) : Option (Heap K V) :=
  (s.handles h).bind fun x =>
    let g := s.groups x.ssg
    let counter := g.gcInsertCounter + g.gcEraseCounter
    let autoGc := !s.readonly h x && decide (16 ≤ counter) && decide (g.data.length / 2 ≤ counter)
    if x.prev ≠ h ∧ autoGc = true then (s.unlink h x).gcRun x.next else some (s.unlink h x)

section Ordered

variable [LinearOrder K]

def insertEntries (ver : ℕ) (kvs : List (K × V)) (data : List (Entry K V)) : List (Entry K V) :=
  kvs.foldl (fun data kv => insert Entry.key
    {key := kv.1, createdAt := ver, val := kv.2} data) data

/-- The `insert` functions: one new version for all the pairs. -/
def insertAll (s : Heap K V) (h : ℕ) (kvs : List (K × V)) : Option (Heap K V) :=
  (s.handles h).bind fun x =>
    if s.readonly h x then none
    else
      some ((s.modifyHandle h fun y => {y with ver := y.ver + 1}).modifyGroup x.ssg fun g =>
        {g with
         data := insertEntries (x.ver + 1) kvs g.data
         gcInsertCounter := g.gcInsertCounter + kvs.length})

/-- The `erase` functions: the entries of a range whose value satisfies `q`. Those of ranges
do not count for the garbage collection. -/
def eraseIn (s : Heap K V) (h : ℕ) (r : Range K) (q : V → Bool) (counted : Bool) :
    Option (Heap K V) :=
  (s.handles h).bind fun x =>
    if s.readonly h x then none
    else
      (s.hasReadonlySnapshot h x).map fun shared =>
        (s.modifyHandle h fun y => {y with ver := y.ver + 1}).modifyGroup x.ssg fun g =>
          if shared then
            -- only remove visible values
            {g with
             data := r.visit (fun e =>
               some (if q e.val && e.validAt x.ver then e.remove (x.ver + 1) else e)) g.data
             gcEraseCounter := g.gcEraseCounter + if counted then
               (g.data.filter fun e => r.mem e.key && q e.val && e.validAt x.ver).length else 0}
          else {g with data := r.visit (fun e => if q e.val then none else some e) g.data}

/-- A range object of the handle `h` around an operation: its snapshot is made first and
destroyed last. -/
def withRange (s : Heap K V) (h : ℕ) (f : ℕ → Heap K V → Option (Heap K V)) : Option (Heap K V) :=
  let t := s.nextHandle
  ((({s with nextHandle := t + 1}.makeMeSnapshotOf t h).bind (f t)).bind fun s' => s'.destroyMe t)

/-- The copy constructor and `operator=` for the handle `h`: a snapshot of a snapshot, otherwise a
new group with a copy of everything. -/
def become (s : Heap K V) (h src : ℕ) : Option (Heap K V) :=
  (s.handles src).bind fun x =>
    if s.readonly src x then s.makeMeSnapshotOf h src
    else (s.newGroup h).withRange src fun t s' => s'.insertAll h ((s'.all t).getD [])

end Ordered

end Heap

/-- A new handle gets the next address. `insert` is the single and the pair form, `insertRange`
that with two iterators, `insertFrom` that with a range of a handle, maybe of the same group: what
it adds is newer than the snapshot of the range. -/
inductive Op (K V : Type)
  | construct
  | constructRange (kvs : List (K × V))
  | snapshot (src : ℕ)
  | copy (src : ℕ)
  | assign (h src : ℕ)
  | insert (h : ℕ) (key : K) (value : V)
  | insertRange (h : ℕ) (kvs : List (K × V))
  | insertFrom (h src : ℕ) (r : Range K) (reverse : Bool)
  | erase (h : ℕ) (key : K)
  | eraseValue (h : ℕ) (key : K) (value : V)
  | eraseRange (h : ℕ) (r : Range K) (reverse : Bool)
  | query (h : ℕ)
  | destroy (h : ℕ)
  | gcRun (h : ℕ)

namespace Heap

variable {K V : Type} [LinearOrder K] [DecidableEq V]

def step (s : Heap K V) : Op K V → Option (Heap K V)
  | .construct => some ({s with nextHandle := s.nextHandle + 1}.newGroup s.nextHandle)
  | .constructRange kvs =>
    ({s with nextHandle := s.nextHandle + 1}.newGroup s.nextHandle).insertAll s.nextHandle kvs
  | .snapshot src => {s with nextHandle := s.nextHandle + 1}.makeMeSnapshotOf s.nextHandle src
  | .copy src => {s with nextHandle := s.nextHandle + 1}.become s.nextHandle src
  | .assign h src =>
    if h = src then (s.handles src).map fun _ => s
    else if (s.handles src).isSome then (s.destroyMe h).bind fun s' => s'.become h src else none
  | .insert h key value => s.insertAll h [(key,value)]
  | .insertRange h kvs => s.insertAll h kvs
  | .insertFrom h src r reverse =>
    if r.Valid then
      s.withRange src fun t s' =>
        (s'.handles t).bind fun x => s'.insertAll h (s'.enumerate x r reverse)
    else none
  | .erase h key => s.eraseIn h (.query key) (fun _ => true) true
  | .eraseValue h key value => s.eraseIn h (.query key) (fun v => v = value) true
  | .eraseRange h r _ =>
    if r.Valid then s.withRange h fun _ s' => s'.eraseIn h r (fun _ => true) false else none
  | .query h => s.withRange h fun _ s' => some s'
  | .destroy h => s.destroyMe h
  | .gcRun h => s.gcRun h

end Heap

/-- The naive model: a multimap of its own for every handle. -/
abbrev Naive (K V : Type) := ℕ → Option (List (K × V))

namespace Naive

variable {K V : Type} [LinearOrder K] [DecidableEq V]

def insertAll (m kvs : List (K × V)) : List (K × V) :=
  kvs.foldl (fun m kv => insert Prod.fst kv m) m

def enumerate (m : List (K × V)) (r : Range K) (reverse : Bool) : List (K × V) :=
  let pairs := m.filter fun p => r.mem p.1
  if reverse then pairs.reverse else pairs

def apply (n : Naive K V) (new : ℕ) : Op K V → Naive K V
  | .construct => update n new (some [])
  | .constructRange kvs => update n new (some (insertAll [] kvs))
  | .snapshot src => update n new (n src)
  | .copy src => update n new (n src)
  | .assign h src => update n h (n src)
  | .insert h key value => update n h ((n h).map fun m => insertAll m [(key,value)])
  | .insertRange h kvs => update n h ((n h).map fun m => insertAll m kvs)
  | .insertFrom h src r reverse =>
    update n h ((n h).map fun m => insertAll m (enumerate ((n src).getD []) r reverse))
  | .erase h key => update n h ((n h).map fun m => m.filter fun p => p.1 ≠ key)
  | .eraseValue h key value =>
    update n h ((n h).map fun m => m.filter fun p => p ≠ (key,value))
  | .eraseRange h r _ => update n h ((n h).map fun m => m.filter fun p => !r.mem p.1)
  | .query _ => n
  | .destroy h => update n h none
  | .gcRun _ => n

end Naive

def system (K V : Type) [LinearOrder K] [DecidableEq V] :
    System (Heap K V × Naive K V) (Op K V) where
  init s := s = ({},fun _ => none)
  step s op := (s.1.step op).map fun s' => (s',s.2.apply s.1.nextHandle op)

section Ranges

variable {K V : Type} [LinearOrder K] {data : List (Entry K V)}

namespace Range

theorem beforeBegin_mono (r : Range K) : ∀ a b, a ≤ b → r.beforeBegin b = true →
    r.beforeBegin a = true := by
  intro a b hab
  cases r <;> simp only [beforeBegin,decide_eq_true_eq,Bool.false_eq_true,false_implies]
  · exact hab.trans_lt
  · exact hab.trans
  · exact hab.trans

theorem beforeEnd_mono (r : Range K) : ∀ a b, a ≤ b → r.beforeEnd b = true →
    r.beforeEnd a = true := by
  intro a b hab
  cases r <;> simp only [beforeEnd,decide_eq_true_eq,implies_true]
  · exact hab.trans
  · exact hab.trans_lt
  · exact hab.trans_lt

variable {r : Range K}

theorem mem_query (key k : K) : (query key).mem k = decide (k = key) := by
  simp only [mem,beforeBegin,beforeEnd,← decide_not,not_lt,← Bool.decide_and]
  exact decide_eq_decide.mpr (and_comm.trans le_antisymm_iff.symm)

theorem slice_eq (h : Multimap.Sorted Entry.key data) :
    r.slice data = data.filter fun e => r.mem e.key := by
  have hrest : Multimap.Sorted Entry.key (data.dropWhile fun e => r.beforeBegin e.key) :=
    sublist (dropWhile_sublist _) h
  rw [slice,(hrest.takeWhile_dropWhile r.beforeEnd_mono).1,
    (h.takeWhile_dropWhile r.beforeBegin_mono).2,List.filter_filter]
  exact filter_congr fun e _ => Bool.and_comm _ _

theorem visit_eq (h : Multimap.Sorted Entry.key data) (f : Entry K V → Option (Entry K V)) :
    r.visit f data = data.filterMap fun e => if r.mem e.key then f e else some e := by
  have hrest : Multimap.Sorted Entry.key (data.dropWhile fun e => r.beforeBegin e.key) :=
    sublist (dropWhile_sublist _) h
  obtain ⟨hbefore,hdrop⟩ := h.takeWhile_dropWhile r.beforeBegin_mono
  obtain ⟨-,hbehind⟩ := hrest.takeWhile_dropWhile r.beforeEnd_mono
  have hkeep : ∀ l : List (Entry K V), (∀ e ∈ l, r.mem e.key = false) →
      l.filterMap (fun e => if r.mem e.key then f e else some e) = l := by
    intro l hl
    have hsome : ∀ e ∈ l, (if r.mem e.key then f e else some e) = some e :=
      fun e he => by simp [hl e he]
    rw [filterMap_congr hsome,filterMap_some]
  have hsplit : data = data.takeWhile (fun e => r.beforeBegin e.key) ++ (r.slice data ++
        (data.dropWhile fun e => r.beforeBegin e.key).dropWhile fun e => r.beforeEnd e.key) := by
    rw [slice,takeWhile_append_dropWhile,takeWhile_append_dropWhile]
  conv_rhs => rw [hsplit]
  rw [visit,filterMap_append,filterMap_append,append_assoc]
  congr 1
  · refine (hkeep _ fun e he => ?_).symm
    rw [hbefore,mem_filter] at he
    simp [mem,he.2]
  · congr 1
    · refine filterMap_congr fun e he => ?_
      rw [slice_eq h,mem_filter] at he
      simp [he.2]
    · refine (hkeep _ fun e he => ?_).symm
      rw [hbehind,mem_filter] at he
      simpa [mem] using fun _ => he.2

end Range

end Ranges

namespace Heap

variable {K V : Type} {s s' : Heap K V} {h src a b g : ℕ} {x y : Handle}

def Link (s : Heap K V) (a b : ℕ) : Prop :=
  ∃ x y, s.handles a = some x ∧ s.handles b = some y ∧ x.next = b ∧ y.prev = a

def InGroup (s : Heap K V) (g a : ℕ) : Prop := ∃ y, s.handles a = some y ∧ y.ssg = g

structure Writes (s : Heap K V) (g : ℕ) (x : Handle) : Prop where
  ssg : x.ssg = g
  handles : ∀ a y, s.handles a = some y → y.ssg = g → y.ver ≤ x.ver
  created : ∀ e ∈ (s.groups g).data, e.createdAt ≤ x.ver
  removed : ∀ e ∈ (s.groups g).data, ∀ r ∈ e.removedAt, r ≤ x.ver

def Live (s : Heap K V) (h : ℕ) : Prop := ∃ x, s.handles h = some x

def Writable (s : Heap K V) (h : ℕ) : Prop :=
  ∃ x, s.handles h = some x ∧ (s.groups x.ssg).writer = some h

/-- The entries are ordered by key, and none was removed before it was created. -/
def Dated [LinearOrder K] (data : List (Entry K V)) : Prop :=
  Multimap.Sorted Entry.key data ∧ ∀ e ∈ data, ∀ r ∈ e.removedAt, e.createdAt ≤ r

theorem Dated.sublist [LinearOrder K] {data l : List (Entry K V)} (h : Dated data)
    (hl : l.Sublist data) : Dated l :=
  ⟨h.1.sublist hl,fun e he => h.2 e (hl.subset he)⟩

structure Inv [LinearOrder K] (s : Heap K V) : Prop where
  bound : ∀ a x, s.handles a = some x → a < s.nextHandle ∧ x.ssg < s.nextGroup
  ring : ∀ a x, s.handles a = some x →
    ∃ t, Ring s.Link a t ∧ ∀ b, b ∈ a::t ↔ s.InGroup x.ssg b
  writer : ∀ g w, (s.groups g).writer = some w → ∃ x, s.handles w = some x ∧ s.Writes g x
  sorted : ∀ g, Dated (s.groups g).data

/-- Nothing in the group is newer than its writer, so that a new version sees what the last
one saw. -/
theorem Writes.validAt_succ (hwr : s.Writes g x) {e : Entry K V} (he : e ∈ (s.groups g).data) :
    e.validAt (x.ver + 1) = e.validAt x.ver := by
  have hc := hwr.created e he
  have hr := hwr.removed e he
  unfold Entry.validAt
  cases hrem : e.removedAt with
  | none => simp [hc,le_succ_of_le hc]
  | some r =>
    have hle := hr r (by simp [hrem])
    have h₁ : ¬x.ver < r := by omega
    have h₂ : ¬x.ver + 1 < r := by omega
    simp [h₁,h₂]

theorem Writes.removedAt_none (hwr : s.Writes g x) {e : Entry K V} (he : e ∈ (s.groups g).data)
    (hv : e.validAt x.ver = true) : e.removedAt = none := by
  cases hrem : e.removedAt with
  | none => rfl
  | some r =>
    have hle := hwr.removed e he r (by simp [hrem])
    simp only [Entry.validAt,hrem,all_some,Bool.and_eq_true,decide_eq_true_eq] at hv
    omega

theorem view_map {data : List (Entry K V)} {f : Entry K V → Entry K V} {v : ℕ}
    {p : Entry K V → Bool} (hpair : ∀ e, (f e).pair = e.pair)
    (hvalid : ∀ e ∈ data, (f e).validAt v = p e) :
    ((data.map f).filter fun e => e.validAt v).map Entry.pair = (data.filter p).map Entry.pair := by
  have hfilter : data.filter ((fun e => e.validAt v) ∘ f) = data.filter p := filter_congr hvalid
  rw [List.filter_map,List.map_map,hfilter]
  exact map_congr_left fun e _ => hpair e

theorem Live.all_isSome (hlive : s.Live h) : (s.all h).isSome = true := by
  obtain ⟨x,hx⟩ := hlive
  simp [all,hx]

theorem live_iff_all : s.Live h ↔ (s.all h).isSome = true := by
  simp [Live,all,isSome_iff_exists]

theorem ne_of_live (hh : s.handles h = none) (ha : s.handles a = some y) : a ≠ h := by
  rintro rfl
  exact absurd (hh.symm.trans ha) nofun

theorem Writable.live (hwritable : s.Writable h) : s.Live h :=
  hwritable.imp fun _ hx => hx.1

section Pointers

section

variable (s)

@[simp] theorem modifyHandle_apply (h : ℕ) (f : Handle → Handle) (a : ℕ) :
    (s.modifyHandle h f).handles a = if a = h then (s.handles a).map f else s.handles a := by
  rcases eq_or_ne a h with rfl | hne
  · simp [modifyHandle]
  · simp [modifyHandle,hne]

@[simp] theorem modifyHandle_groups (h : ℕ) (f : Handle → Handle) :
    (s.modifyHandle h f).groups = s.groups := rfl

@[simp] theorem relink_apply (p next q prev a : ℕ) :
    (s.relink p next q prev).handles a = (s.handles a).map fun y => {y with
      next := if a = p then next else y.next
      prev := if a = q then prev else y.prev} := by
  unfold relink
  rw [modifyHandle_apply,modifyHandle_apply]
  by_cases hp : a = p <;> by_cases hq : a = q
  · simp only [if_pos hp,if_pos hq,Option.map_map,comp_def]
  · simp only [if_pos hp,if_neg hq]
  · simp only [if_neg hp,if_pos hq]
  · simp only [if_neg hp,if_neg hq,Option.map_id']

@[simp] theorem relink_groups (p next q prev : ℕ) :
    (s.relink p next q prev).groups = s.groups := rfl

@[simp] theorem modifyGroup_handles (g : ℕ) (f : Group K V → Group K V) :
    (s.modifyGroup g f).handles = s.handles := rfl

@[simp] theorem modifyGroup_self (g : ℕ) (f : Group K V → Group K V) :
    (s.modifyGroup g f).groups g = f (s.groups g) := update_self _ _ _

theorem modifyGroup_of_ne (f : Group K V → Group K V) (hne : b ≠ a) :
    (s.modifyGroup a f).groups b = s.groups b := update_of_ne hne _ _

end

theorem destroyMe_nextHandle (hs : s.destroyMe h = some s') : s'.nextHandle = s.nextHandle := by
  have hunlink : ∀ x, (s.unlink h x).nextHandle = s.nextHandle := by
    intro x
    unfold unlink
    split_ifs <;> rfl
  obtain ⟨x,-,hrest⟩ := bind_eq_some_iff.mp hs
  dsimp only at hrest
  split_ifs at hrest
  · obtain ⟨y,-,hgc⟩ := bind_eq_some_iff.mp hrest
    obtain ⟨vers,-,rfl⟩ := map_eq_some_iff.mp hgc
    exact hunlink x
  · cases hrest
    exact hunlink x

end Pointers

theorem Writes.congr (hw : s.Writes g x) (hssg : y.ssg = x.ssg) (hver : y.ver = x.ver)
    (hdata : (s'.groups g).data = (s.groups g).data)
    (hhandles : ∀ a z, s'.handles a = some z → z.ssg = g → z.ver ≤ x.ver) : s'.Writes g y where
  ssg := hssg.trans hw.ssg
  handles a z ha hz := hver ▸ hhandles a z ha hz
  created := by
    rw [hdata,hver]
    exact hw.created
  removed := by
    rw [hdata,hver]
    exact hw.removed

/-- `h` comes or goes, and of the other handles only the successor of `p` and the predecessor of
`q` change. -/
structure Relinks (s s' : Heap K V) (h p next q prev : ℕ) : Prop where
  handles : ∀ a ≠ h, s'.handles a = (s.handles a).map fun y => {y with
    next := if a = p then next else y.next
    prev := if a = q then prev else y.prev}
  data : ∀ g, (s'.groups g).data = (s.groups g).data
  nextHandle : s'.nextHandle = s.nextHandle
  nextGroup : s'.nextGroup = s.nextGroup

section

variable {p n q r : ℕ} (hrel : s.Relinks s' h p n q r)
include hrel

theorem Relinks.new (ha : a ≠ h) (hy : s.handles a = some y) :
    s'.handles a = some {y with
      next := if a = p then n else y.next
      prev := if a = q then r else y.prev} := by
  rw [hrel.handles a ha,hy,map_some]

theorem Relinks.old (ha : a ≠ h) (hy : s'.handles a = some y) :
    ∃ z, s.handles a = some z ∧ y.ssg = z.ssg ∧ y.ver = z.ver := by
  rw [hrel.handles a ha] at hy
  obtain ⟨z,hz,rfl⟩ := map_eq_some_iff.mp hy
  exact ⟨z,hz,rfl,rfl⟩

theorem Relinks.all (ha : a ≠ h) : s'.all a = s.all a := by
  rw [Heap.all,Heap.all,hrel.handles a ha,Option.map_map]
  congr 1
  funext y
  simp only [comp_apply,view,hrel.data]

theorem Relinks.inGroup (ha : a ≠ h) : s'.InGroup g a ↔ s.InGroup g a := by
  simp [InGroup,hrel.handles a ha]

theorem Relinks.link {c d : ℕ} (hcd : s.Link c d) (hc : c ≠ h) (hd : d ≠ h) (hcp : c ≠ p)
    (hdq : d ≠ q) : s'.Link c d := by
  obtain ⟨y,z,hy,hz,hnext,hprev⟩ := hcd
  refine ⟨_,_,hrel.new hc hy,hrel.new hd hz,?_,?_⟩
  · simpa [hcp] using hnext
  · simpa [hdq] using hprev

theorem Relinks.writer {w : ℕ} (hy : s.handles w = some y) (hwr : s.Writes g y) (hw : w ≠ h)
    (hself : ∀ z, s'.handles h = some z → z.ssg = g → z.ver ≤ y.ver) :
    ∃ y', s'.handles w = some y' ∧ s'.Writes g y' := by
  refine ⟨_,hrel.new hw hy,hwr.congr rfl rfl (hrel.data g) fun a z ha hz => ?_⟩
  rcases eq_or_ne a h with rfl | hne
  · exact hself z ha hz
  · obtain ⟨z',hz',hg,hver⟩ := hrel.old hne ha
    exact hver ▸ hwr.handles a z' hz' (hg ▸ hz)

end

/-- The walk from `q` along the nodes `l` back to `p` sees their versions. -/
theorem walk_chain {p q : ℕ} {l : List ℕ} (hchain : (q::l).IsChain s.Link)
    (hclose : s.Link ((q::l).getLast (cons_ne_nil q l)) p) (hp : p ∉ l) {n : ℕ}
    (hn : (q::l).length ≤ n) :
    s.walk p n q = some ((q::l).filterMap fun a => (s.handles a).map Handle.ver) := by
  induction l generalizing q n with
  | nil =>
    obtain ⟨x,-,hx,-,hnext,-⟩ := hclose
    have hx' : s.handles q = some x := hx
    obtain ⟨n,rfl⟩ : ∃ m, n = m+1 := ⟨n-1,(Nat.sub_add_cancel hn).symm⟩
    simp [walk,hx',hnext]
  | cons r l ih =>
    obtain ⟨⟨x,-,hx,-,hnext,-⟩,hrest⟩ := isChain_cons_cons.mp hchain
    obtain ⟨n,rfl⟩ : ∃ m, n = m+1 := ⟨n-1,(Nat.sub_add_cancel (Nat.le_trans (by simp) hn)).symm⟩
    have hwalk := ih hrest hclose (fun h => hp (mem_cons_of_mem r h)) (le_of_succ_le_succ hn)
    have hne : x.next ≠ p := by
      rw [hnext]
      exact fun he => hp (he ▸ mem_cons_self)
    rw [← hnext] at hwalk
    simp [walk,hx,hne,hwalk,← hnext]

variable [LinearOrder K]
variable {f : ℕ → Heap K V → Option (Heap K V)}

section

variable (hinv : s.Inv)
include hinv

section

variable (hx : s.handles h = some x)
include hx

theorem Inv.neighbours : ∃ t, Ring s.Link h t ∧ (∀ b, b ∈ h::t ↔ s.InGroup x.ssg b) ∧
      x.prev = (h::t).getLast (cons_ne_nil h t) ∧ x.next = (t++[h]).head (by simp) := by
  obtain ⟨t,hring,hmem⟩ := hinv.ring h x hx
  refine ⟨t,hring,hmem,?_,?_⟩
  · obtain ⟨_,y,_,hy,_,hprev⟩ := hring.close
    rw [hx] at hy
    cases hy
    exact hprev
  · cases t with
    | nil =>
      obtain ⟨y,_,hy,_,hnext,_⟩ := hring.close
      rw [show s.handles ([h].getLast (cons_ne_nil h [])) = some x from hx] at hy
      cases hy
      exact hnext
    | cons b t =>
      obtain ⟨y,_,hy,_,hnext,_⟩ := (isChain_cons_cons.mp hring.chain).1
      rw [hx] at hy
      cases hy
      exact hnext

theorem Inv.writes (hw : (s.groups x.ssg).writer = some h) : s.Writes x.ssg x := by
  obtain ⟨y,hy,hwr⟩ := hinv.writer _ _ hw
  cases hx.symm.trans hy
  exact hwr

theorem Inv.prev_live : s.InGroup x.ssg x.prev := by
  obtain ⟨t,_,hmem,hprev,_⟩ := hinv.neighbours hx
  rw [hprev]
  exact (hmem _).mp (getLast_mem _)

theorem Inv.next_live : s.InGroup x.ssg x.next := by
  obtain ⟨t,_,hmem,_,hnext⟩ := hinv.neighbours hx
  rw [hnext]
  refine (hmem _).mp ?_
  have := head_mem (l:=t++[h]) (by simp)
  simp only [mem_append,mem_cons] at this ⊢
  tauto

theorem Inv.other_group (hy : s.handles a = some y)
    (hne : y.ssg ≠ x.ssg) : a ≠ h ∧ a ≠ x.prev ∧ a ≠ x.next := by
  have hout : ∀ b, s.InGroup x.ssg b → a ≠ b := by
    rintro b ⟨z,hz,hzg⟩ rfl
    rw [hy] at hz
    cases hz
    exact hne hzg
  exact ⟨hout h ⟨x,hx,rfl⟩,hout _ (hinv.prev_live hx),hout _ (hinv.next_live hx)⟩

end

theorem Inv.snapshot_ne (hh : s.handles h = none) (hx : s.handles src = some x) :
    h ≠ src ∧ h ≠ x.prev := by
  obtain ⟨y,hy,-⟩ := hinv.prev_live hx
  exact ⟨(ne_of_live hh hx).symm,(ne_of_live hh hy).symm⟩

/-- The lists of the other groups are as they were. -/
theorem Inv.relinks {p n q r : ℕ} (hrel : s.Relinks s' h p n q r) (hlt : h < s.nextHandle)
    (hself : ∀ z, s'.handles h = some z →
      z.ssg = g ∧ ∃ a y, s.handles a = some y ∧ z.ssg = y.ssg ∧ z.ver = y.ver)
    (hring : ∀ a, s'.InGroup g a → ∃ t, Ring s'.Link a t ∧ ∀ b, b ∈ a::t ↔ s'.InGroup g b)
    (hout : ∀ c y, s.handles c = some y → y.ssg ≠ g → c ≠ h ∧ c ≠ p ∧ c ≠ q)
    (hwriter : ∀ b w, (s'.groups b).writer = some w → (s.groups b).writer = some w ∧ w ≠ h) :
    s'.Inv := by
  constructor
  · intro a y ha
    rw [hrel.nextHandle,hrel.nextGroup]
    rcases eq_or_ne a h with rfl | hne
    · obtain ⟨-,b,z,hz,hg,-⟩ := hself y ha
      exact ⟨hlt,hg ▸ (hinv.bound b z hz).2⟩
    · obtain ⟨z,hz,hg,-⟩ := hrel.old hne ha
      exact ⟨(hinv.bound a z hz).1,hg ▸ (hinv.bound a z hz).2⟩
  · intro a y ha
    by_cases hg : y.ssg = g
    · rw [hg]
      exact hring a ⟨y,ha,hg⟩
    · have hne : a ≠ h := by
        rintro rfl
        exact hg (hself y ha).1
      obtain ⟨z,hz,hzg,-⟩ := hrel.old hne ha
      rw [hzg] at hg ⊢
      obtain ⟨t,hring',hmem⟩ := hinv.ring a z hz
      have hapart : ∀ c, s.InGroup z.ssg c → c ≠ h ∧ c ≠ p ∧ c ≠ q := by
        rintro c ⟨y,hy,hyg⟩
        exact hout c y hy (hyg.trans_ne hg)
      refine ⟨t,hring'.mono fun c hc d hd hcd => ?_,fun b => ?_⟩
      · obtain ⟨hch,hcp,-⟩ := hapart c ((hmem c).mp hc)
        obtain ⟨hdh,-,hdq⟩ := hapart d ((hmem d).mp hd)
        exact hrel.link hcd hch hdh hcp hdq
      · rw [hmem]
        rcases eq_or_ne b h with rfl | hb
        · refine iff_of_false (fun hb => (hapart b hb).1 rfl) ?_
          rintro ⟨y,hy,hyg⟩
          exact hg (hyg.symm.trans (hself y hy).1)
        · exact (hrel.inGroup hb).symm
  · intro b w hw
    obtain ⟨hw,hwh⟩ := hwriter b w hw
    obtain ⟨y,hy,hwr⟩ := hinv.writer b w hw
    refine hrel.writer hy hwr hwh fun z hz hzg => ?_
    obtain ⟨-,c,z',hz',hg,hver⟩ := hself z hz
    exact hver ▸ hwr.handles c z' hz' (hg ▸ hzg)
  · intro g
    rw [hrel.data]
    exact hinv.sorted g

theorem makeMeSnapshotOf_spec (hh : s.handles h = none) (hx : s.handles src = some x)
    (hs : s.makeMeSnapshotOf h src = some s') :
    s'.handles h = some {x with next := src} ∧ s.Relinks s' h x.prev h src h ∧
      ∀ g, (s'.groups g).writer = (s.groups g).writer := by
  obtain ⟨hsrc,hprev⟩ := hinv.snapshot_ne hh hx
  rw [makeMeSnapshotOf,hx,map_some] at hs
  have hs := some.inj hs
  have hgroups : ∀ g, (s'.groups g).data = (s.groups g).data ∧
      (s'.groups g).writer = (s.groups g).writer := by
    intro g
    rw [← hs]
    split_ifs
    · exact ⟨rfl,rfl⟩
    · rcases eq_or_ne g x.ssg with rfl | hne
      · rw [modifyGroup_self]
        exact ⟨rfl,rfl⟩
      · rw [modifyGroup_of_ne _ _ hne]
        exact ⟨rfl,rfl⟩
  refine ⟨?_,⟨fun a ha => ?_,fun g => (hgroups g).1,?_,?_⟩,fun g => (hgroups g).2⟩ <;> rw [← hs]
  · split_ifs <;> simp [hsrc,hprev]
  · by_cases hw : s.readonly src x = true
    · simp only [hw,if_true,relink_apply,update_of_ne ha]
    · simp only [hw,Bool.false_eq_true,if_false,modifyGroup_handles,relink_apply,update_of_ne ha]
  · split_ifs <;> rfl
  · split_ifs <;> rfl

theorem makeMeSnapshotOf_all (hh : s.handles h = none)
    (hs : s.makeMeSnapshotOf h src = some s') : s'.all = update s.all h (s.all src) := by
  obtain ⟨x,hx,-⟩ := map_eq_some_iff.mp hs
  obtain ⟨hself,hrel,-⟩ := makeMeSnapshotOf_spec hinv hh hx hs
  funext a
  rcases eq_or_ne a h with rfl | ha
  · rw [update_self,all,all,hself,hx]
    simp only [map_some,view,hrel.data]
  · rw [update_of_ne ha,hrel.all ha]

theorem Inv.makeMeSnapshotOf (hh : s.handles h = none) (hlt : h < s.nextHandle)
    (hs : s.makeMeSnapshotOf h src = some s') : s'.Inv := by
  obtain ⟨x,hx,-⟩ := map_eq_some_iff.mp hs
  obtain ⟨hsrc,hprev⟩ := hinv.snapshot_ne hh hx
  obtain ⟨hself,hrel,hwriter⟩ := makeMeSnapshotOf_spec hinv hh hx hs
  have hlive : ∀ {a y}, s.handles a = some y → a ≠ h := ne_of_live hh
  obtain ⟨t,hring,hmem,hlast,-⟩ := hinv.neighbours hx
  -- the new handle stands between the last one and the source
  have hnew : Ring s'.Link src (t++[h]) := by
    refine hring.insertLeft (fun hin => ?_) (fun c hc d hd hne hcd => ?_) ?_ ?_
    · obtain ⟨y,hy,-⟩ := (hmem h).mp hin
      exact hlive hy rfl
    · obtain ⟨y,z,hy,hz,-⟩ := id hcd
      exact hrel.link hcd (hlive hy) (hlive hz) (hlast ▸ hne)
        (ne_of_mem_of_not_mem hd (nodup_cons.mp hring.nodup).1)
    · rw [← hlast]
      obtain ⟨y,hy,-⟩ := hinv.prev_live hx
      exact ⟨_,_,hrel.new hprev.symm hy,hself,by simp,rfl⟩
    · exact ⟨_,_,hself,hrel.new hsrc.symm hx,rfl,by simp⟩
  have hnewmem : ∀ b, b ∈ src::(t++[h]) ↔ s'.InGroup x.ssg b := by
    intro b
    rcases eq_or_ne b h with rfl | hb
    · simp [InGroup,hself]
    · rw [hrel.inGroup hb,← hmem]
      simp [hb]
  refine hinv.relinks (g:=x.ssg) hrel hlt (fun z hz => ?_) (fun a ha => ?_)
    (fun c y hy hg => ?_) fun g w hw => ?_
  · cases hself.symm.trans hz
    exact ⟨rfl,src,x,hx,rfl,rfl⟩
  · obtain ⟨t',hring',hmem'⟩ := hnew.exists_focus ((hnewmem a).mpr ha)
    exact ⟨t',hring',fun b => by rw [hmem',hnewmem]⟩
  · obtain ⟨hcs,hcp,-⟩ := hinv.other_group hx hy hg
    exact ⟨hlive hy,hcp,hcs⟩
  · rw [hwriter] at hw
    obtain ⟨y,hy,-⟩ := hinv.writer g w hw
    exact ⟨hw,hlive hy⟩

section

variable (hx : s.handles h = some x)
include hx

theorem Inv.next_of_prev (hprev : x.prev = h) :
    x.next = h ∧ ∀ a y, s.handles a = some y → y.ssg = x.ssg → a = h := by
  obtain ⟨t,hring,hmem,hlast,hnext⟩ := hinv.neighbours hx
  cases t with
  | nil =>
    refine ⟨hnext,fun a y ha hy => ?_⟩
    simpa using (hmem a).mpr ⟨y,ha,hy⟩
  | cons b t =>
    rw [hprev,getLast_cons (cons_ne_nil b t)] at hlast
    exact absurd (hlast ▸ getLast_mem _) (nodup_cons.mp hring.nodup).1

theorem Inv.prev_of_next (hnext : x.next = h) : x.prev = h := by
  obtain ⟨t,hring,hmem,hlast,hfirst⟩ := hinv.neighbours hx
  cases t with
  | nil => exact hlast
  | cons b t =>
    have hb : b = h := hfirst.symm.trans hnext
    exact absurd (hb ▸ mem_cons_self) (nodup_cons.mp hring.nodup).1

theorem unlink_spec : (s.unlink h x).handles h = none ∧
    s.Relinks (s.unlink h x) h x.prev x.next x.next x.prev ∧
    ∀ g, ((s.unlink h x).groups g).writer =
      if (s.groups x.ssg).writer = some h ∧ g = x.ssg then none else (s.groups g).writer := by
  have hgroups : ∀ g, ((s.unlink h x).groups g).data = (s.groups g).data ∧
      ((s.unlink h x).groups g).writer =
        if (s.groups x.ssg).writer = some h ∧ g = x.ssg then none else (s.groups g).writer := by
    have hkeep : ∀ s₁ : Heap K V,
        (if x.prev = h then s₁ else s₁.relink x.prev x.next x.next x.prev).groups = s₁.groups := by
      intro s₁
      split_ifs <;> rfl
    intro g
    unfold unlink
    dsimp only
    rw [hkeep]
    by_cases hw : (s.groups x.ssg).writer = some h
    · simp only [readonly,hw,ne_eq,not_true_eq_false,decide_false,Bool.false_eq_true,if_false,true_and]
      rcases eq_or_ne g x.ssg with rfl | hne
      · simp
      · simp [modifyGroup_of_ne _ _ hne,hne]
    · simp [readonly,hw]
  refine ⟨update_self _ _ _,⟨fun a ha => ?_,fun g => (hgroups g).1,?_,?_⟩,fun g => (hgroups g).2⟩ <;>
    unfold unlink <;> dsimp only
  · rw [update_of_ne ha]
    by_cases hp : x.prev = h
    · rw [if_pos hp,hp,(hinv.next_of_prev hx hp).1]
      split_ifs <;> simp
    · rw [if_neg hp,relink_apply]
      split_ifs <;> rfl
  · split_ifs <;> rfl
  · split_ifs <;> rfl

theorem unlink_all : (s.unlink h x).all = update s.all h none := by
  obtain ⟨hself,hrel,-⟩ := unlink_spec hinv hx
  funext a
  rcases eq_or_ne a h with rfl | ha
  · rw [update_self,all,hself]
    rfl
  · rw [update_of_ne ha,hrel.all ha]

/-- The neighbours of the handle become neighbours of each other. -/
theorem Inv.ring_unlink {a : ℕ} (ha : s.InGroup x.ssg a) (hah : a ≠ h) :
    ∃ t, Ring (s.unlink h x).Link a t ∧ ∀ b, b ∈ a::t ↔ (s.unlink h x).InGroup x.ssg b := by
  obtain ⟨hself,hrel,-⟩ := unlink_spec hinv hx
  obtain ⟨t,hring,hmem,hlast,hfirst⟩ := hinv.neighbours hx
  have hat : a ∈ t := (mem_cons.mp ((hmem a).mpr ha)).resolve_left hah
  cases t with
  | nil => cases hat
  | cons b t =>
    have hout := (nodup_cons.mp hring.nodup).1
    have hnodup := (nodup_cons.mp hring.nodup).2
    rw [getLast_cons (cons_ne_nil b t)] at hlast
    have hfirst' : x.next = b := hfirst
    have hrest : Ring (s.unlink h x).Link b t := by
      refine hring.remove (fun c hc d hd hne' hcd => ?_) ?_
      · refine hrel.link hcd (ne_of_mem_of_not_mem hc hout)
          (ne_of_mem_of_not_mem (mem_cons_of_mem b hd) hout) (hlast ▸ hne') ?_
        rw [hfirst']
        exact ne_of_mem_of_not_mem hd (nodup_cons.mp hnodup).1
      · rw [← hlast]
        obtain ⟨y,hy,-⟩ := hinv.prev_live hx
        obtain ⟨w,hw,-⟩ := hinv.next_live hx
        have hp : x.prev ≠ h := by
          rw [hlast]
          exact ne_of_mem_of_not_mem (getLast_mem _) hout
        have hn : b ≠ h := ne_of_mem_of_not_mem mem_cons_self hout
        rw [hfirst'] at hw
        exact ⟨_,_,hrel.new hp hy,hrel.new hn hw,by simp [hfirst'],by simp [hfirst']⟩
    obtain ⟨t',hring',hmem'⟩ := hrest.exists_focus hat
    refine ⟨t',hring',fun c => ?_⟩
    rw [hmem']
    rcases eq_or_ne c h with rfl | hc
    · exact iff_of_false hout (by simp [InGroup,hself])
    · rw [hrel.inGroup hc,← hmem]
      simp [hc]

theorem Inv.unlink : (s.unlink h x).Inv := by
  obtain ⟨hself,hrel,hwriter⟩ := unlink_spec hinv hx
  refine hinv.relinks (g:=x.ssg) hrel (hinv.bound h x hx).1 (fun z hz => ?_) (fun a ha => ?_)
    (fun c y hy hg => ?_) fun g w hw => ?_
  · exact absurd (hself.symm.trans hz) nofun
  · obtain ⟨y,hy,-⟩ := id ha
    have hah := ne_of_live hself hy
    exact hinv.ring_unlink hx ((hrel.inGroup hah).mp ha) hah
  · exact hinv.other_group hx hy hg
  · rw [hwriter] at hw
    split_ifs at hw with hc
    refine ⟨hw,?_⟩
    rintro rfl
    obtain ⟨y,hy,hwr⟩ := hinv.writer g w hw
    cases hx.symm.trans hy
    exact hc ⟨hwr.ssg ▸ hw,hwr.ssg.symm⟩

end

theorem newGroup_all (h : ℕ) : (s.newGroup h).all = update s.all h (some []) := by
  funext a
  rcases eq_or_ne a h with rfl | ha
  · simp [all,newGroup,view]
  · rw [update_of_ne ha,all,all]
    simp only [newGroup,update_of_ne ha]
    refine map_congr fun x hx => ?_
    simp only [view,update_of_ne (hinv.bound a x hx).2.ne]

theorem Inv.newGroup (hh : s.handles h = none) (hlt : h < s.nextHandle) : (s.newGroup h).Inv := by
  have hself : (s.newGroup h).handles h =
      some {ver := 0, ssg := s.nextGroup, prev := h, next := h} := update_self _ _ _
  have hothers : ∀ a ≠ h, (s.newGroup h).handles a = s.handles a :=
    fun a ha => update_of_ne ha _ _
  have hold : ∀ {a y}, (s.newGroup h).handles a = some y →
      a = h ∧ y = {ver := 0, ssg := s.nextGroup, prev := h, next := h} ∨ s.handles a = some y := by
    intro a y ha
    rcases eq_or_ne a h with rfl | hne
    · exact .inl ⟨rfl,some.inj (ha.symm.trans hself)⟩
    · exact .inr ((hothers a hne).symm.trans ha)
  have hgroup : (s.newGroup h).groups s.nextGroup = {writer := some h} := update_self _ _ _
  have hgroups : ∀ g ≠ s.nextGroup, (s.newGroup h).groups g = s.groups g :=
    fun g hg => update_of_ne hg _ _
  have hlive : ∀ {a y}, s.handles a = some y → a ≠ h := ne_of_live hh
  constructor
  · intro a y ha
    rcases hold ha with ⟨rfl,rfl⟩ | ha
    · exact ⟨hlt,lt_succ_self _⟩
    · exact ⟨(hinv.bound a y ha).1,lt_succ_of_lt (hinv.bound a y ha).2⟩
  · intro a y ha
    rcases hold ha with ⟨rfl,rfl⟩ | hy
    · refine ⟨[],⟨nodup_singleton a,isChain_singleton a,_,_,hself,hself,rfl,rfl⟩,
        fun b => ⟨fun hb => ?_,?_⟩⟩
      · cases mem_singleton.mp hb
        exact ⟨_,hself,rfl⟩
      · rintro ⟨z,hz,hzg⟩
        by_contra hb
        rw [hothers b fun he => hb (he ▸ mem_cons_self)] at hz
        exact absurd hzg (hinv.bound b z hz).2.ne
    · obtain ⟨t,hring,hmem⟩ := hinv.ring a y hy
      refine ⟨t,hring.mono ?_,fun b => ?_⟩
      · rintro c _ d _ ⟨u,v,hu,hv,hrest⟩
        exact ⟨u,v,(hothers c (hlive hu)).trans hu,(hothers d (hlive hv)).trans hv,hrest⟩
      · rw [hmem]
        constructor
        · rintro ⟨z,hz,hzg⟩
          exact ⟨z,(hothers b (hlive hz)).trans hz,hzg⟩
        · rintro ⟨z,hz,hzg⟩
          rcases hold hz with ⟨rfl,rfl⟩ | hz
          · exact absurd hzg.symm (hinv.bound a y hy).2.ne
          · exact ⟨z,hz,hzg⟩
  · intro g w hw
    rcases eq_or_ne g s.nextGroup with rfl | hg
    · rw [hgroup] at hw
      cases hw
      refine ⟨_,hself,rfl,fun a z ha hz => ?_,by simp [hgroup],by simp [hgroup]⟩
      rcases hold ha with ⟨rfl,rfl⟩ | ha
      · exact le_rfl
      · exact absurd hz (hinv.bound a z ha).2.ne
    · rw [hgroups g hg] at hw
      obtain ⟨y,hy,hwr⟩ := hinv.writer g w hw
      refine ⟨y,(hothers w (hlive hy)).trans hy,hwr.congr rfl rfl (by rw [hgroups g hg])
        fun a z ha hz => ?_⟩
      rcases hold ha with ⟨rfl,rfl⟩ | ha
      · exact absurd hz.symm hg
      · exact hwr.handles a z ha hz
  · intro g
    rcases eq_or_ne g s.nextGroup with rfl | hg
    · rw [hgroup]
      exact ⟨nil,nofun⟩
    · rw [hgroups g hg]
      exact hinv.sorted g

/-- The walk ends, as a list is no longer than the number of addresses, and `ver_low` is the lowest
version of a member. -/
theorem Inv.gcRun_eq (hx : s.handles h = some x) :
    ∃ low, s.gcRun h = some (s.modifyGroup x.ssg (·.collect low)) ∧
      (∃ a y, s.handles a = some y ∧ y.ssg = x.ssg ∧ y.ver = low) ∧
      ∀ a y, s.handles a = some y → y.ssg = x.ssg → low ≤ y.ver := by
  obtain ⟨t,hring,hmem⟩ := hinv.ring h x hx
  have hlen : (h::t).length ≤ s.nextHandle := by
    have hsub : h::t ⊆ range s.nextHandle := by
      intro a ha
      obtain ⟨y,hy,-⟩ := (hmem a).mp ha
      exact mem_range.mpr (hinv.bound a y hy).1
    simpa using (subperm_of_subset hring.nodup hsub).length_le
  have hwalk := walk_chain hring.chain hring.close (nodup_cons.mp hring.nodup).1 hlen
  have hmin : (x.ver::(h::t).filterMap fun a => (s.handles a).map Handle.ver).min? = some _ :=
    min?_cons'
  obtain ⟨hlow,hle⟩ := min?_eq_some_iff.mp hmin
  refine ⟨_,by rw [gcRun,hx,bind_some,hwalk,map_some],?_,fun a y hy hg => hle _ ?_⟩
  · rcases mem_cons.mp hlow with he | hlow
    · exact ⟨h,x,hx,rfl,he.symm⟩
    · obtain ⟨a,ha,hver⟩ := mem_filterMap.mp hlow
      obtain ⟨y,hy,hg⟩ := (hmem a).mp ha
      rw [hy,map_some] at hver
      exact ⟨a,y,hy,hg,some.inj hver⟩
  · have ha : a ∈ h::t := (hmem a).mpr ⟨y,hy,hg⟩
    exact mem_cons_of_mem _ (mem_filterMap.mpr ⟨a,ha,by rw [hy,map_some]⟩)

theorem Inv.rewrite {ver : ℕ → Handle → ℕ}
    (hhandles : ∀ a, s'.handles a = (s.handles a).map fun y => {y with ver := ver a y})
    (hnh : s'.nextHandle = s.nextHandle) (hng : s'.nextGroup = s.nextGroup)
    (hwriter : ∀ g, (s'.groups g).writer = (s.groups g).writer)
    (hsorted : ∀ g, Dated (s'.groups g).data)
    (hwrites : ∀ g w x, s.handles w = some x → (s.groups g).writer = some w → s.Writes g x →
      s'.Writes g {x with ver := ver w x}) : s'.Inv := by
  have hin : ∀ g a, s'.InGroup g a ↔ s.InGroup g a := by
    simp [InGroup,hhandles]
  constructor
  · intro a y ha
    rw [hhandles] at ha
    obtain ⟨z,hz,rfl⟩ := map_eq_some_iff.mp ha
    rw [hnh,hng]
    exact hinv.bound a z hz
  · intro a y ha
    rw [hhandles] at ha
    obtain ⟨z,hz,rfl⟩ := map_eq_some_iff.mp ha
    obtain ⟨t,hring,hmem⟩ := hinv.ring a z hz
    refine ⟨t,hring.mono ?_,fun b => by rw [hmem,hin]⟩
    rintro c _ d _ ⟨u,v,hu,hv,hrest⟩
    have hu' := hhandles c
    have hv' := hhandles d
    rw [hu,map_some] at hu'
    rw [hv,map_some] at hv'
    exact ⟨_,_,hu',hv',hrest⟩
  · intro g w hw
    rw [hwriter] at hw
    obtain ⟨x,hx,hwr⟩ := hinv.writer g w hw
    exact ⟨_,(hhandles w).trans (by rw [hx]; rfl),hwrites g w x hx hw hwr⟩
  · exact hsorted

/-- `gc_run` changes nothing that a handle sees. -/
theorem gcRun_spec (hx : s.handles h = some x) :
    ∃ s', s.gcRun h = some s' ∧ s'.Inv ∧ s'.all = s.all := by
  obtain ⟨low,hs',-,hlow⟩ := hinv.gcRun_eq hx
  refine ⟨_,hs',?_,?_⟩
  · have hsub : ∀ g, ((s.modifyGroup x.ssg (·.collect low)).groups g).data.Sublist
        (s.groups g).data ∧
        ((s.modifyGroup x.ssg (·.collect low)).groups g).writer = (s.groups g).writer := by
      intro g
      rcases eq_or_ne g x.ssg with rfl | hne
      · rw [modifyGroup_self]
        exact ⟨filter_sublist,rfl⟩
      · rw [modifyGroup_of_ne _ _ hne]
        exact ⟨List.Sublist.refl _,rfl⟩
    have hhandles : ∀ a, (s.modifyGroup x.ssg (·.collect low)).handles a =
        (s.handles a).map fun y => {y with ver := y.ver} := by simp
    refine hinv.rewrite hhandles rfl rfl (fun g => (hsub g).2)
      (fun g => (hinv.sorted g).sublist (hsub g).1) fun g w y _ _ hwr => ?_
    exact ⟨hwr.ssg,hwr.handles,fun e he => hwr.created e ((hsub g).1.subset he),
      fun e he => hwr.removed e ((hsub g).1.subset he)⟩
  · funext a
    refine map_congr fun y hy => ?_
    by_cases hg : y.ssg = x.ssg
    · simp only [view,hg,modifyGroup_self,Group.collect,List.filter_filter]
      congr 1
      refine filter_congr fun e _ => ?_
      -- what is dropped was removed before every version
      cases hr : e.removedAt with
      | none => simp
      | some r =>
        have hlt : r < low → ¬y.ver < r := fun h => ((h.trans_le (hlow a y hy hg)).le).not_gt
        simp only [Entry.validAt,hr,all_some,any_some]
        by_cases hc : r < low
        · simp [hlt hc]
        · simp [hc]
    · simp only [view,modifyGroup_of_ne _ _ hg]

/-- A destroyed handle is gone, and the others see what they saw. -/
theorem destroyMe_spec (hx : s.handles h = some x) :
    ∃ s', s.destroyMe h = some s' ∧ s'.Inv ∧ s'.all = update s.all h none := by
  have hinv' := hinv.unlink hx
  have hall := unlink_all hinv hx
  rw [destroyMe,hx,bind_some]
  dsimp only
  split_ifs with hgc
  · have hnext : ∃ y, (s.unlink h x).handles x.next = some y := by
      obtain ⟨y,hy,-⟩ := hinv.next_live hx
      have hne : x.next ≠ h := fun he => hgc.1 (hinv.prev_of_next hx he)
      obtain ⟨-,hrel,-⟩ := unlink_spec hinv hx
      exact ⟨_,hrel.new hne hy⟩
    obtain ⟨y,hy⟩ := hnext
    obtain ⟨s',hs',hinv'',hall'⟩ := gcRun_spec hinv' hy
    exact ⟨s',hs',hinv'',hall'.trans hall⟩
  · exact ⟨_,rfl,hinv',hall⟩

end

section Writing

variable {F : Group K V → Group K V}

theorem write_spec (hinv : s.Inv) (hx : s.handles h = some x)
    (hw : (s.groups x.ssg).writer = some h) (hF : ∀ g, (F g).writer = g.writer)
    (hsorted : Dated (F (s.groups x.ssg)).data)
    (hcreated : ∀ e ∈ (F (s.groups x.ssg)).data, e.createdAt ≤ x.ver + 1)
    (hremoved : ∀ e ∈ (F (s.groups x.ssg)).data, ∀ r ∈ e.removedAt, r ≤ x.ver + 1)
    (hold : ∀ a y, a ≠ h → s.handles a = some y → y.ssg = x.ssg → y.ver ≤ x.ver →
      ((F (s.groups x.ssg)).data.filter fun e => e.validAt y.ver).map Entry.pair =
        ((s.groups x.ssg).data.filter fun e => e.validAt y.ver).map Entry.pair) :
    let s' := (s.modifyHandle h fun y => {y with ver := y.ver + 1}).modifyGroup x.ssg F
    s'.Inv ∧ s'.all = update s.all h (some
      (((F (s.groups x.ssg)).data.filter fun e => e.validAt (x.ver + 1)).map Entry.pair)) := by
  intro s'
  have hwr := hinv.writes hx hw
  have hhandles : ∀ a, s'.handles a = (s.handles a).map fun y => {y with
      ver := if a = h then y.ver + 1 else y.ver} := by
    intro a
    rw [modifyGroup_handles,modifyHandle_apply]
    split_ifs <;> simp
  have hgroups : ∀ g ≠ x.ssg, s'.groups g = s.groups g := fun g hg => modifyGroup_of_ne _ _ hg
  constructor
  · refine hinv.rewrite hhandles rfl rfl (fun g => ?_) (fun g => ?_) fun g w y hy hgw hwr' => ?_
    · rcases eq_or_ne g x.ssg with rfl | hg
      · rw [modifyGroup_self]
        exact hF _
      · rw [hgroups g hg]
    · rcases eq_or_ne g x.ssg with rfl | hg
      · rw [modifyGroup_self]
        exact hsorted
      · rw [hgroups g hg]
        exact hinv.sorted g
    · rcases eq_or_ne g x.ssg with rfl | hg
      · obtain rfl : h = w := some.inj (hw.symm.trans hgw)
        rw [hx] at hy
        cases hy
        refine ⟨rfl,fun a z ha hz => ?_,?_,?_⟩
        · rw [hhandles] at ha
          obtain ⟨z',hz',rfl⟩ := map_eq_some_iff.mp ha
          have hle := hwr.handles a z' hz' hz
          dsimp only
          split_ifs <;> omega
        · rw [modifyGroup_self,if_pos rfl]
          exact hcreated
        · rw [modifyGroup_self,if_pos rfl]
          exact hremoved
      · have hwh : w ≠ h := by
          rintro rfl
          rw [hx] at hy
          cases hy
          exact hg hwr'.ssg.symm
        refine hwr'.congr rfl (if_neg hwh) (by rw [hgroups g hg]) fun a z ha hz => ?_
        rw [hhandles] at ha
        obtain ⟨z',hz',rfl⟩ := map_eq_some_iff.mp ha
        have hah : a ≠ h := by
          rintro rfl
          rw [hx] at hz'
          cases hz'
          exact hg hz.symm
        rw [if_neg hah]
        exact hwr'.handles a z' hz' hz
  · funext a
    rcases eq_or_ne a h with rfl | ha
    · rw [update_self,all,hhandles,hx]
      simp [s',view]
    · rw [update_of_ne ha,all,hhandles,all,Option.map_map]
      refine map_congr fun y hy => ?_
      simp only [comp_apply,view,if_neg ha]
      by_cases hg : y.ssg = x.ssg
      · rw [hg,modifyGroup_self]
        exact hold a y ha hy hg (hwr.handles a y hy hg)
      · rw [hgroups y.ssg hg]

section Entries

variable {ver : ℕ} {kvs : List (K × V)} {data : List (Entry K V)}

theorem mem_insertEntries {e : Entry K V} (he : e ∈ insertEntries ver kvs data) :
    e ∈ data ∨ e.createdAt = ver ∧ e.removedAt = none := by
  induction kvs generalizing data with
  | nil => exact .inl he
  | cons kv kvs ih =>
    rcases ih he with hmem | hnew
    · rcases mem_insert.mp hmem with rfl | hold
      · exact .inr ⟨rfl,rfl⟩
      · exact .inl hold
    · exact .inr hnew

theorem Dated.insertEntries (h : Dated data) : Dated (insertEntries ver kvs data) := by
  constructor
  · have hsorted := h.1
    clear h
    induction kvs generalizing data with
    | nil => exact hsorted
    | cons kv kvs ih => exact ih (hsorted.insert _)
  · intro e he r hr
    rcases mem_insertEntries he with hold | ⟨-,hnone⟩
    · exact h.2 e hold r hr
    · exact absurd hr (by simp [hnone])

theorem filter_insertEntries_of_lt {v : ℕ} (hv : v < ver) :
    (insertEntries ver kvs data).filter (fun e => e.validAt v) =
      data.filter fun e => e.validAt v := by
  induction kvs generalizing data with
  | nil => rfl
  | cons kv kvs ih =>
    have hnew : Entry.validAt (⟨kv.1,ver,none,kv.2⟩ : Entry K V) v = false := by
      simp [Entry.validAt,hv]
    exact ih.trans (filter_insert_of_neg hnew)

theorem filter_insertEntries_self (h : Multimap.Sorted Entry.key data) :
    ((insertEntries ver kvs data).filter fun e => e.validAt ver).map Entry.pair =
      Naive.insertAll ((data.filter fun e => e.validAt ver).map Entry.pair) kvs := by
  induction kvs generalizing data with
  | nil => rfl
  | cons kv kvs ih =>
    refine (ih (h.insert _)).trans ?_
    have hmap : ∀ (e : Entry K V) l, (insert Entry.key e l).map Entry.pair =
        insert Prod.fst e.pair (l.map Entry.pair) :=
      fun e l => map_insert Prod.fst Entry.pair fun _ => rfl
    rw [filter_insert_of_pos h (by simp [Entry.validAt]),hmap]
    rfl

end Entries

theorem insertAll_spec (hinv : s.Inv) (hwritable : s.Writable h) (kvs : List (K × V)) :
    ∃ s', s.insertAll h kvs = some s' ∧ s'.Inv ∧
      s'.all = update s.all h ((s.all h).map fun m => Naive.insertAll m kvs) := by
  obtain ⟨x,hx,hw⟩ := hwritable
  have hwr := hinv.writes hx hw
  have hsorted := hinv.sorted x.ssg
  have hcreated : ∀ e ∈ insertEntries (x.ver + 1) kvs (s.groups x.ssg).data,
      e.createdAt ≤ x.ver + 1 := by
    intro e he
    rcases mem_insertEntries he with hold | ⟨hc,-⟩
    · exact le_succ_of_le (hwr.created e hold)
    · exact hc.le
  have hremoved : ∀ e ∈ insertEntries (x.ver + 1) kvs (s.groups x.ssg).data,
      ∀ r ∈ e.removedAt, r ≤ x.ver + 1 := by
    intro e he r hr
    rcases mem_insertEntries he with hold | ⟨-,hr'⟩
    · exact le_succ_of_le (hwr.removed e hold r hr)
    · rw [hr'] at hr
      cases hr
  obtain ⟨hinv',hall⟩ := write_spec (F:=fun g => {g with
    data := insertEntries (x.ver + 1) kvs g.data
    gcInsertCounter := g.gcInsertCounter + kvs.length}) hinv hx hw (fun _ => rfl)
    hsorted.insertEntries hcreated hremoved
    fun a y _ _ _ hle => congrArg _ (filter_insertEntries_of_lt (lt_succ_of_le hle))
  refine ⟨_,by rw [insertAll,hx,bind_some,if_neg (by simp [readonly,hw])],hinv',hall.trans ?_⟩
  rw [all,hx]
  simp only [filter_insertEntries_self hsorted.1,map_some,view]
  rw [filter_congr fun e he => hwr.validAt_succ he]

def mark (r : Range K) (q : V → Bool) (ver : ℕ) (e : Entry K V) : Entry K V :=
  if r.mem e.key && q e.val && e.validAt ver then e.remove (ver + 1) else e

section Mark

variable {r : Range K} {q : V → Bool} {ver : ℕ}
variable {data : List (Entry K V)} {e : Entry K V}

theorem mark_pair (e : Entry K V) : (mark r q ver e).pair = e.pair := by
  unfold mark
  split_ifs <;> rfl

theorem visit_mark (h : Multimap.Sorted Entry.key data) :
    r.visit (fun e => some (if q e.val && e.validAt ver then e.remove (ver + 1) else e)) data =
      data.map (mark r q ver) := by
  rw [Range.visit_eq h,← filterMap_eq_map]
  refine filterMap_congr fun e _ => ?_
  unfold mark
  cases hmem : r.mem e.key <;> simp [hmem]

/-- The versions there are go on seeing a value that is removed. -/
theorem Writes.validAt_mark (hwr : s.Writes g x) (he : e ∈ (s.groups g).data) {v : ℕ}
    (hv : v ≤ x.ver) : (mark r q x.ver e).validAt v = e.validAt v := by
  unfold mark
  split_ifs with hcond
  · simp only [Bool.and_eq_true] at hcond
    have hnone := hwr.removedAt_none he hcond.2
    simp only [Entry.validAt,Entry.remove,hnone,all_some,all_none,lt_succ_of_le hv,decide_true]
    rfl
  · rfl

theorem Writes.validAt_mark_succ (hwr : s.Writes g x) (he : e ∈ (s.groups g).data) :
    (mark r q x.ver e).validAt (x.ver + 1) = (!(r.mem e.key && q e.val) && e.validAt x.ver) := by
  unfold mark
  split_ifs with hcond
  · simp only [Bool.and_eq_true] at hcond
    simp [Entry.validAt,Entry.remove,hcond]
  · rw [hwr.validAt_succ he]
    cases hmq : r.mem e.key && q e.val <;> simp_all

theorem Writes.mark_bounds (hwr : s.Writes g x) (he : e ∈ (s.groups g).data.map (mark r q x.ver)) :
    e.createdAt ≤ x.ver + 1 ∧ ∀ r ∈ e.removedAt, r ≤ x.ver + 1 := by
  obtain ⟨e₀,he₀,rfl⟩ := mem_map.mp he
  have hc := hwr.created e₀ he₀
  have hr := hwr.removed e₀ he₀
  unfold mark
  split_ifs
  · exact ⟨le_succ_of_le hc,fun r' hr' => (some.inj hr').ge⟩
  · exact ⟨le_succ_of_le hc,fun r' hr' => le_succ_of_le (hr r' hr')⟩

theorem Dated.mark (h : Dated data) : Dated (data.map (mark r q ver)) := by
  constructor
  · have hkey : ∀ e : Entry K V, (Heap.mark r q ver e).key = e.key := fun e =>
      congrArg Prod.fst (mark_pair e)
    refine pairwise_map.mpr (h.1.imp fun hab => ?_)
    rw [hkey,hkey]
    exact hab
  · intro e he n hn
    obtain ⟨e₀,he₀,rfl⟩ := mem_map.mp he
    unfold Heap.mark at hn ⊢
    split_ifs at hn ⊢ with hcond
    · obtain rfl := some.inj hn
      have hvalid := (Bool.and_eq_true_iff.mp hcond).2
      exact le_succ_of_le (of_decide_eq_true (Bool.and_eq_true_iff.mp hvalid).1)
    · exact h.2 e₀ he₀ n hn

theorem visit_erase (h : Multimap.Sorted Entry.key data) :
    r.visit (fun e => if q e.val then none else some e) data =
      data.filter fun e => !(r.mem e.key && q e.val) := by
  rw [Range.visit_eq h,← filterMap_eq_filter]
  refine filterMap_congr fun e _ => ?_
  cases hmem : r.mem e.key <;> cases hq : q e.val <;> simp [Option.guard,hmem,hq]

end Mark

/-- The writer is the only handle of the group if no snapshot comes before it in the list. -/
theorem Inv.hasReadonlySnapshot (hinv : s.Inv) (hx : s.handles h = some x)
    (hw : (s.groups x.ssg).writer = some h) :
    ∃ shared, s.hasReadonlySnapshot h x = some shared ∧
      (shared = false → ∀ a y, s.handles a = some y → y.ssg = x.ssg → a = h) := by
  obtain ⟨y,hy,hssg⟩ := hinv.prev_live hx
  refine ⟨s.readonly x.prev y,?_,fun hprev => ?_⟩
  · rw [Heap.hasReadonlySnapshot,if_neg (by simp [readonly,hw]),hy,map_some]
  · simp only [readonly,decide_eq_false_iff_not,ne_eq,not_not,hssg,hw] at hprev
    exact (hinv.next_of_prev hx (some.inj hprev).symm).2

theorem eraseIn_spec (hinv : s.Inv) (hwritable : s.Writable h) (r : Range K) (q : V → Bool)
    (counted : Bool) :
    ∃ s', s.eraseIn h r q counted = some s' ∧ s'.Inv ∧ s'.all = update s.all h
      ((s.all h).map fun m => m.filter fun p => !(r.mem p.1 && q p.2)) := by
  obtain ⟨x,hx,hw⟩ := hwritable
  obtain ⟨shared,hshared,halone⟩ := hinv.hasReadonlySnapshot hx hw
  rw [eraseIn,hx,bind_some,if_neg (by simp [readonly,hw]),hshared,map_some]
  refine ⟨_,rfl,?_⟩
  have hwr := hinv.writes hx hw
  have hsorted := hinv.sorted x.ssg
  have hrest : (s.all h).map (fun m => m.filter fun p => !(r.mem p.1 && q p.2)) =
      some (((s.groups x.ssg).data.filter fun e =>
        !(r.mem e.key && q e.val) && e.validAt x.ver).map Entry.pair) := by
    rw [all,hx]
    simp only [map_some,view,List.filter_map,List.filter_filter]
    rfl
  rw [hrest]
  cases shared with
  | true =>
    have hvisit : r.visit _ _ = (s.groups x.ssg).data.map (mark r q x.ver) := visit_mark hsorted.1
    obtain ⟨hinv',hall⟩ := write_spec (F:=fun g => {g with
      data := r.visit (fun e =>
        some (if q e.val && e.validAt x.ver then e.remove (x.ver + 1) else e)) g.data
      gcEraseCounter := g.gcEraseCounter + if counted then
        (g.data.filter fun e => r.mem e.key && q e.val && e.validAt x.ver).length else 0})
      hinv hx hw (fun _ => rfl) (hvisit ▸ hsorted.mark)
      (fun e he => (hwr.mark_bounds (hvisit ▸ he)).1) (fun e he => (hwr.mark_bounds (hvisit ▸ he)).2)
      fun a y _ _ _ hle => by
        rw [hvisit]
        exact view_map mark_pair fun e he => hwr.validAt_mark he hle
    refine ⟨hinv',hall.trans ?_⟩
    rw [hvisit,view_map mark_pair fun e he => hwr.validAt_mark_succ he]
  | false =>
    have hvisit := visit_erase (r:=r) (q:=q) hsorted.1
    obtain ⟨hinv',hall⟩ := write_spec (F:=fun g => {g with
      data := r.visit (fun e => if q e.val then none else some e) g.data})
      hinv hx hw (fun _ => rfl) (hvisit ▸ hsorted.sublist filter_sublist)
      (fun e he => le_succ_of_le (hwr.created e (mem_of_mem_filter (hvisit ▸ he))))
      (fun e he r hr => le_succ_of_le (hwr.removed e (mem_of_mem_filter (hvisit ▸ he)) r hr))
      fun a y hne hy hg _ => absurd (halone rfl a y hy hg) hne
    refine ⟨hinv',hall.trans ?_⟩
    rw [hvisit,List.filter_filter]
    refine congrArg (fun l => update s.all h (some (l.map Entry.pair)))
      (filter_congr fun e he => ?_)
    rw [hwr.validAt_succ he,Bool.and_comm]

theorem writable_of_insertAll {kvs : List (K × V)} (hs : s.insertAll h kvs = some s') :
    s.Writable h := by
  obtain ⟨x,hx,hrest⟩ := bind_eq_some_iff.mp hs
  split_ifs at hrest with hro
  exact ⟨x,hx,by simpa [readonly] using hro⟩

theorem writable_of_eraseIn {r : Range K} {q : V → Bool} {counted : Bool}
    (hs : s.eraseIn h r q counted = some s') : s.Writable h := by
  obtain ⟨x,hx,hrest⟩ := bind_eq_some_iff.mp hs
  by_cases hro : s.readonly h x = true
  · rw [if_pos hro] at hrest
    cases hrest
  · exact ⟨x,hx,by simpa [readonly] using hro⟩

end Writing

theorem Inv.empty : ({} : Heap K V).Inv where
  bound a x hx := by cases hx
  ring a x hx := by cases hx
  writer g w hw := by cases hw
  sorted g := ⟨nil,nofun⟩

section

variable (hinv : s.Inv)
include hinv

theorem Inv.fresh : s.handles s.nextHandle = none := by
  cases hx : s.handles s.nextHandle with
  | none => rfl
  | some x => exact absurd (hinv.bound _ x hx).1 (lt_irrefl _)

theorem Inv.live_ne (hlive : s.Live h) : h ≠ s.nextHandle := by
  obtain ⟨x,hx⟩ := hlive
  exact ne_of_live hinv.fresh hx

theorem Inv.alloc : ({s with nextHandle := s.nextHandle + 1} : Heap K V).Inv where
  bound a x hx := ⟨lt_succ_of_lt (hinv.bound a x hx).1,(hinv.bound a x hx).2⟩
  ring := hinv.ring
  writer g w hw := by
    obtain ⟨x,hx,hwr⟩ := hinv.writer g w hw
    exact ⟨x,hx,hwr.congr rfl rfl rfl hwr.handles⟩
  sorted := hinv.sorted

theorem withRange_eq (hlive : s.Live h) (f : ℕ → Heap K V → Option (Heap K V)) :
    ∃ s₁, s₁.Inv ∧ s₁.all = update s.all s.nextHandle (s.all h) ∧
      (∀ b, s₁.Writable b ↔ s.Writable b) ∧
      s.withRange h f = (f s.nextHandle s₁).bind fun s' => s'.destroyMe s.nextHandle := by
  obtain ⟨x,hx⟩ := hlive
  have hfresh := hinv.fresh
  let s₀ : Heap K V := {s with nextHandle := s.nextHandle + 1}
  have hinv₀ : s₀.Inv := hinv.alloc
  have hx₀ : s₀.handles h = some x := hx
  have hfresh₀ : s₀.handles s.nextHandle = none := hfresh
  obtain ⟨s₁,hs₁⟩ : ∃ s₁, s₀.makeMeSnapshotOf s.nextHandle h = some s₁ :=
    ⟨_,congrArg (Option.map _) hx⟩
  obtain ⟨-,hrel,hwriter⟩ := makeMeSnapshotOf_spec hinv₀ hfresh₀ hx₀ hs₁
  refine ⟨s₁,hinv₀.makeMeSnapshotOf hfresh₀ (lt_succ_self _) hs₁,
    makeMeSnapshotOf_all (s:=s₀) hinv₀ hfresh₀ hs₁,fun b => ?_,?_⟩
  · rcases eq_or_ne b s.nextHandle with rfl | hb
    · constructor
      · rintro ⟨y,hy,hw⟩
        obtain ⟨z,hz,-⟩ := hinv.writer _ _ ((hwriter _).symm.trans hw)
        exact absurd (hfresh.symm.trans hz) nofun
      · rintro ⟨y,hy,-⟩
        exact absurd (hfresh.symm.trans hy) nofun
    · simp only [Writable,hrel.handles b hb,map_eq_some_iff,hwriter]
      constructor
      · rintro ⟨_,⟨y,hy,rfl⟩,hw⟩
        exact ⟨y,hy,hw⟩
      · rintro ⟨y,hy,hw⟩
        exact ⟨_,⟨y,hy,rfl⟩,hw⟩
  · exact congrArg (fun o => (bind o (f s.nextHandle)).bind _) hs₁

theorem withRange_spec {m : Option (List (K × V))} (hlive : s.Live h) (ha : s.Live a)
    (hf : ∀ s₁ : Heap K V, s₁.Inv → s₁.all = update s.all s.nextHandle (s.all h) →
      (∀ b, s₁.Writable b ↔ s.Writable b) →
      ∃ s₂, f s.nextHandle s₁ = some s₂ ∧ s₂.Inv ∧ s₂.all = update s₁.all a m) :
    ∃ s', s.withRange h f = some s' ∧ s'.Inv ∧ s'.all = update s.all a m := by
  obtain ⟨s₁,hinv₁,hall₁,hwritable,heq⟩ := withRange_eq hinv hlive f
  obtain ⟨s₂,hs₂,hinv₂,hall₂⟩ := hf s₁ hinv₁ hall₁ hwritable
  have hne := hinv.live_ne ha
  have htemp : s₂.Live s.nextHandle := by
    rw [live_iff_all,hall₂,update_of_ne hne.symm,hall₁,update_self]
    exact hlive.all_isSome
  obtain ⟨x,hx⟩ := htemp
  obtain ⟨s',hs',hinv',hall'⟩ := destroyMe_spec hinv₂ hx
  refine ⟨s',heq.trans (by rw [hs₂,bind_some,hs']),hinv',?_⟩
  have hnone : s.all s.nextHandle = none := by rw [all,hinv.fresh]; rfl
  rw [hall',hall₂,hall₁]
  funext b
  by_cases hb : b = s.nextHandle
  · subst hb
    rw [update_self,update_of_ne hne.symm,hnone]
  · rw [update_of_ne hb]
    rcases eq_or_ne b a with rfl | hba
    · rw [update_self,update_self]
    · rw [update_of_ne hba,update_of_ne hba,update_of_ne hb]

theorem withRange_some (hs : s.withRange h f = some s') :
    s.Live h ∧ ∃ s₁ s₂ : Heap K V, (∀ b, s₁.Writable b ↔ s.Writable b) ∧
      f s.nextHandle s₁ = some s₂ := by
  have hlive : s.Live h := by
    obtain ⟨s₂,h₂,-⟩ := bind_eq_some_iff.mp hs
    obtain ⟨s₁,h₁,-⟩ := bind_eq_some_iff.mp h₂
    obtain ⟨x,hx,-⟩ := map_eq_some_iff.mp h₁
    exact ⟨x,hx⟩
  obtain ⟨s₁,-,-,hwritable,heq⟩ := withRange_eq hinv hlive f
  obtain ⟨s₂,hs₂,-⟩ := bind_eq_some_iff.mp (heq.symm.trans hs)
  exact ⟨hlive,s₁,s₂,hwritable,hs₂⟩

theorem enumerate_eq (x : Handle) (r : Range K) (reverse : Bool) :
    s.enumerate x r reverse = Naive.enumerate (s.view x) r reverse := by
  have hpairs : ((r.slice (s.groups x.ssg).data).filter fun e => e.validAt x.ver).map Entry.pair =
      (s.view x).filter fun p => r.mem p.1 := by
    rw [Range.slice_eq (hinv.sorted x.ssg).1,view,List.filter_map,filter_comm]
    rfl
  unfold enumerate Naive.enumerate
  rw [hpairs]

theorem view_sorted (x : Handle) : Multimap.Sorted Prod.fst (s.view x) :=
  pairwise_map.mpr (filter _ (hinv.sorted x.ssg).1)

end

end Heap

theorem Naive.insertAll_nil {K V : Type} [LinearOrder K] {l : List (K × V)}
    (h : Multimap.Sorted Prod.fst l) : Naive.insertAll [] l = l := by
  have hgen : ∀ m, Multimap.Sorted Prod.fst (m++l) → Naive.insertAll m l = m++l := by
    clear h
    induction l with
    | nil => intro m _; simp [Naive.insertAll]
    | cons kv l ih =>
      intro m hm
      have hle : ∀ p ∈ m, p.1 ≤ kv.1 := fun p hp =>
        (pairwise_append.mp hm).2.2 p hp kv mem_cons_self
      have hsplit : m++kv::l = (m++[kv])++l := by simp
      rw [hsplit] at hm ⊢
      have hins : insert Prod.fst kv m = m++[kv] := insert_of_forall_le hle
      rw [← ih _ hm,← hins]
      rfl
  exact hgen [] h

namespace Heap

variable {K V : Type} [LinearOrder K] {s s' : Heap K V} {h src a : ℕ} {x : Handle}

theorem snapshot_spec (hinv : s.Inv) (hh : s.handles h = none) (hlt : h < s.nextHandle)
    (hlive : s.Live src) : ∃ s', s.makeMeSnapshotOf h src = some s' ∧ s'.Inv ∧
      s'.all = update s.all h (s.all src) := by
  obtain ⟨x,hx⟩ := hlive
  obtain ⟨s',hs'⟩ : ∃ s', s.makeMeSnapshotOf h src = some s' := ⟨_,congrArg (Option.map _) hx⟩
  exact ⟨s',hs',hinv.makeMeSnapshotOf hh hlt hs',makeMeSnapshotOf_all hinv hh hs'⟩

theorem become_spec (hinv : s.Inv) (hh : s.handles h = none) (hlt : h < s.nextHandle)
    (hlive : s.Live src) : ∃ s', s.become h src = some s' ∧ s'.Inv ∧
      s'.all = update s.all h (s.all src) := by
  obtain ⟨x,hx⟩ := hlive
  have hne : h ≠ src := (hinv.snapshot_ne hh hx).1
  rw [become,hx,bind_some]
  split_ifs
  · exact snapshot_spec hinv hh hlt ⟨x,hx⟩
  · have hinv₀ := hinv.newGroup hh hlt
    have hall₀ := newGroup_all hinv h
    have hwritable₀ : (s.newGroup h).Writable h :=
      ⟨_,update_self _ _ _,by simp [newGroup]⟩
    have hsrc : (s.newGroup h).all src = s.all src := by rw [hall₀,update_of_ne hne.symm]
    have hlive₀ : (s.newGroup h).Live src := by
      rw [live_iff_all,hsrc]
      exact Live.all_isSome ⟨x,hx⟩
    obtain ⟨s',hs',hinv',hall'⟩ := withRange_spec (m:=s.all src)
      (f:=fun t s' => s'.insertAll h ((s'.all t).getD [])) hinv₀ hlive₀ hwritable₀.live
      fun s₁ hinv₁ hall₁ hw => by
        obtain ⟨s₂,hs₂,hinv₂,hall₂⟩ := insertAll_spec hinv₁ ((hw h).mpr hwritable₀)
          ((s₁.all (s.newGroup h).nextHandle).getD [])
        refine ⟨s₂,hs₂,hinv₂,hall₂.trans ?_⟩
        have htemp : h ≠ (s.newGroup h).nextHandle := hlt.ne
        have hview : s.all src = some (s.view x) := by rw [all,hx,map_some]
        rw [hall₁,update_self,update_of_ne htemp,hsrc,hall₀,update_self,
          hview,map_some,getD_some,Naive.insertAll_nil (view_sorted hinv x)]
    refine ⟨s',hs',hinv',?_⟩
    rw [hall',hall₀,update_idem]

/-- The calls that the interface allows: the handles are live, and those that are written are
not snapshots. -/
def Admissible (s : Heap K V) : Op K V → Prop
  | .construct | .constructRange _ => True
  | .snapshot src | .copy src => s.Live src
  | .assign h src => s.Live h ∧ s.Live src
  | .insert h _ _ | .insertRange h _ | .erase h _ | .eraseValue h _ _ => s.Writable h
  | .insertFrom h src r _ => s.Writable h ∧ s.Live src ∧ r.Valid
  | .eraseRange h r _ => s.Writable h ∧ r.Valid
  | .query h | .destroy h | .gcRun h => s.Live h

theorem insertFrom_spec (hinv : s.Inv) (hwritable : s.Writable h) (hlive : s.Live src)
    (r : Range K) (reverse : Bool) :
    ∃ s', (s.withRange src fun t s' =>
        (s'.handles t).bind fun x => s'.insertAll h (s'.enumerate x r reverse)) = some s' ∧
      s'.Inv ∧ s'.all = update s.all h ((s.all h).map fun m =>
        Naive.insertAll m (Naive.enumerate ((s.all src).getD []) r reverse)) := by
  refine withRange_spec hinv hlive hwritable.live fun s₁ hinv₁ hall₁ hw => ?_
  have htemp : s₁.all s.nextHandle = s.all src := by rw [hall₁,update_self]
  obtain ⟨x,hx⟩ : s₁.Live s.nextHandle := by
    rw [live_iff_all,htemp]
    exact hlive.all_isSome
  obtain ⟨s₂,hs₂,hinv₂,hall₂⟩ :=
    insertAll_spec hinv₁ ((hw h).mpr hwritable) (s₁.enumerate x r reverse)
  refine ⟨s₂,by rw [hx,bind_some,hs₂],hinv₂,hall₂.trans ?_⟩
  have hne := hinv.live_ne hwritable.live
  have hview : s.all src = some (s₁.view x) := by rw [← htemp,all,hx,map_some]
  rw [enumerate_eq hinv₁,hview,getD_some]
  nth_rewrite 2 [hall₁]
  rw [update_of_ne hne]

section Step

variable [DecidableEq V]
variable {op : Op K V}

/-- One operation: it is possible, and its effect is that on the naive model. -/
theorem step_spec (hinv : s.Inv) (hop : s.Admissible op) :
    ∃ s', s.step op = some s' ∧ s'.Inv ∧ s'.all = Naive.apply s.all s.nextHandle op := by
  let s₀ : Heap K V := {s with nextHandle := s.nextHandle + 1}
  have hinv₀ : s₀.Inv := hinv.alloc
  have hfresh₀ : s₀.handles s.nextHandle = none := hinv.fresh
  have hlt₀ : s.nextHandle < s₀.nextHandle := lt_succ_self _
  cases op with
  | construct => exact ⟨_,rfl,hinv₀.newGroup hfresh₀ hlt₀,newGroup_all hinv₀ _⟩
  | constructRange kvs =>
    have hall := newGroup_all hinv₀ s.nextHandle
    obtain ⟨s',hs',hinv',hall'⟩ := insertAll_spec (hinv₀.newGroup hfresh₀ hlt₀)
      ⟨_,update_self _ _ _,by simp [newGroup]⟩ kvs
    refine ⟨s',hs',hinv',?_⟩
    rw [hall',hall,update_idem,update_self]
    rfl
  | snapshot src => exact snapshot_spec hinv₀ hfresh₀ hlt₀ hop
  | copy src => exact become_spec hinv₀ hfresh₀ hlt₀ hop
  | assign h src =>
    obtain ⟨⟨y,hy⟩,hsrc⟩ := hop
    simp only [step,Naive.apply]
    by_cases heq : h = src
    · subst heq
      rw [if_pos rfl,update_eq_self]
      exact ⟨s,by rw [hy,map_some],hinv,rfl⟩
    · obtain ⟨s₁,hs₁,hinv₁,hall₁⟩ := destroyMe_spec hinv hy
      have hdead : s₁.handles h = none := by
        have hnone : s₁.all h = none := by rw [hall₁,update_self]
        simpa [all] using hnone
      have hlt : h < s₁.nextHandle := destroyMe_nextHandle hs₁ ▸ (hinv.bound h y hy).1
      have hall : s₁.all src = s.all src := by rw [hall₁,update_of_ne (Ne.symm heq)]
      have hlive : s₁.Live src := live_iff_all.mpr (hall ▸ hsrc.all_isSome)
      obtain ⟨s',hs',hinv',hall'⟩ := become_spec hinv₁ hdead hlt hlive
      obtain ⟨x,hx⟩ := hsrc
      refine ⟨s',by rw [if_neg heq,hx,isSome_some,if_pos rfl,hs₁,bind_some,hs'],hinv',?_⟩
      rw [hall',hall,hall₁,update_idem]
  | insert h key value | insertRange h kvs => exact insertAll_spec hinv hop _
  | insertFrom h src r reverse =>
    obtain ⟨hw,hsrc,hr⟩ := hop
    simp only [step,if_pos hr]
    exact insertFrom_spec hinv hw hsrc r reverse
  | erase h key =>
    obtain ⟨s',hs',hinv',hall'⟩ := eraseIn_spec hinv hop (.query key) (fun _ => true) true
    refine ⟨s',hs',hinv',hall'.trans ?_⟩
    simp [Range.mem_query,Naive.apply]
  | eraseValue h key value =>
    obtain ⟨s',hs',hinv',hall'⟩ := eraseIn_spec hinv hop (.query key) (fun v => v = value) true
    refine ⟨s',hs',hinv',hall'.trans ?_⟩
    simp [Range.mem_query,Naive.apply,Prod.ext_iff]
  | eraseRange h r reverse =>
    obtain ⟨hw,hr⟩ := hop
    simp only [step,if_pos hr]
    refine withRange_spec hinv hw.live hw.live fun s₁ hinv₁ hall₁ hw₁ => ?_
    obtain ⟨s₂,hs₂,hinv₂,hall₂⟩ := eraseIn_spec hinv₁ ((hw₁ h).mpr hw) r (fun _ => true) false
    have hh : s₁.all h = s.all h := by rw [hall₁,update_of_ne (hinv.live_ne hw.live)]
    refine ⟨s₂,hs₂,hinv₂,hall₂.trans ?_⟩
    simp [hh]
  | query h =>
    obtain ⟨s',hs',hinv',hall'⟩ := withRange_spec (f:=fun _ s' => some s') (m:=s.all h) hinv hop hop
      fun s₁ hinv₁ hall₁ _ => by
        refine ⟨s₁,rfl,hinv₁,(update_eq_iff.mpr ⟨?_,fun _ _ => rfl⟩).symm⟩
        rw [hall₁,update_of_ne (hinv.live_ne hop)]
    exact ⟨s',hs',hinv',hall'.trans (update_eq_self h s.all)⟩
  | destroy h =>
    obtain ⟨x,hx⟩ := hop
    exact destroyMe_spec hinv hx
  | gcRun h =>
    obtain ⟨x,hx⟩ := hop
    exact gcRun_spec hinv hx

theorem admissible_of_step (hinv : s.Inv) (hs : s.step op = some s') : s.Admissible op := by
  cases op with
  | construct | constructRange kvs => trivial
  | snapshot src =>
    obtain ⟨x,hx,-⟩ := map_eq_some_iff.mp hs
    exact ⟨x,hx⟩
  | copy src | destroy h | gcRun h =>
    obtain ⟨x,hx,-⟩ := bind_eq_some_iff.mp hs
    exact ⟨x,hx⟩
  | assign h src =>
    simp only [step] at hs
    split_ifs at hs with heq hsrc
    · obtain ⟨x,hx,-⟩ := map_eq_some_iff.mp hs
      exact ⟨⟨x,heq ▸ hx⟩,x,hx⟩
    · obtain ⟨s₁,h₁,-⟩ := bind_eq_some_iff.mp hs
      obtain ⟨x,hx,-⟩ := bind_eq_some_iff.mp h₁
      exact ⟨⟨x,hx⟩,isSome_iff_exists.mp hsrc⟩
  | insert h key value | insertRange h kvs => exact writable_of_insertAll hs
  | insertFrom h src r reverse =>
    simp only [step] at hs
    split_ifs at hs with hr
    obtain ⟨hlive,s₁,s₂,hwritable,hs₂⟩ := withRange_some hinv hs
    obtain ⟨x,-,hins⟩ := bind_eq_some_iff.mp hs₂
    exact ⟨(hwritable h).mp (writable_of_insertAll hins),hlive,hr⟩
  | erase h key | eraseValue h key value =>
    rw [step] at hs
    exact writable_of_eraseIn hs
  | eraseRange h r reverse =>
    simp only [step] at hs
    split_ifs at hs with hr
    obtain ⟨-,s₁,s₂,hwritable,hs₂⟩ := withRange_some hinv hs
    exact ⟨(hwritable h).mp (writable_of_eraseIn hs₂),hr⟩
  | query h =>
    rw [step] at hs
    exact (withRange_some hinv hs).1

end Step

end Heap

def Op.target {K V : Type} (new : ℕ) : Op K V → Option ℕ
  | .construct | .constructRange _ | .snapshot _ | .copy _ => some new
  | .assign h _ | .insert h _ _ | .insertRange h _ | .insertFrom h _ _ _ => some h
  | .erase h _ | .eraseValue h _ _ | .eraseRange h _ _ | .destroy h => some h
  | .query _ | .gcRun _ => none

theorem Naive.apply_of_ne {K V : Type} [LinearOrder K] [DecidableEq V] (n : Naive K V) {new a : ℕ}
    {op : Op K V} (ha : op.target new ≠ some a) : n.apply new op a = n a := by
  cases op <;>
    first
      | rfl
      | exact update_of_ne (fun he => ha (congrArg some he.symm)) _ _

section Refinement

variable {K V : Type} [LinearOrder K] [DecidableEq V]

/-- Side by side the heap keeps its invariant and shows what the naive model holds. -/
theorem simulation {s : Heap K V} {n : Naive K V} (hr : Reachable (system K V) (s,n)) :
    s.Inv ∧ s.all = n := by
  obtain ⟨s₀,hinit,hrun⟩ := hr
  refine hrun.invariant (P:=fun sn => sn.1.Inv ∧ sn.1.all = sn.2) ?_ ?_
  · rintro sn op t - ⟨hinv,hall⟩ hstep
    obtain ⟨s',hs',rfl⟩ := map_eq_some_iff.mp hstep
    obtain ⟨s₁,hs₁,hinv₁,hall₁⟩ := Heap.step_spec hinv (Heap.admissible_of_step hinv hs')
    obtain rfl : s' = s₁ := some.inj (hs'.symm.trans hs₁)
    exact ⟨hinv₁,hall ▸ hall₁⟩
  · have hempty : s₀ = ({},fun _ => none) := hinit
    rw [hempty]
    exact ⟨Heap.Inv.empty,rfl⟩

/-- Every handle enumerates what its own multimap would hold, every allowed call goes through, and
no other handle sees it. -/
theorem snapshot_isolation {s : Heap K V} {n : Naive K V} (hr : Reachable (system K V) (s,n)) :
    (∀ a, s.all a = n a) ∧ (∀ op, s.Admissible op → ∃ s', s.step op = some s') ∧
      ∀ op s' a, s.step op = some s' → op.target s.nextHandle ≠ some a → s'.all a = s.all a := by
  obtain ⟨hinv,hall⟩ := simulation hr
  refine ⟨congrFun hall,fun op hop => ?_,fun op s' a hs ha => ?_⟩
  · obtain ⟨s',hs',-⟩ := Heap.step_spec hinv hop
    exact ⟨s',hs'⟩
  · obtain ⟨s₁,hs₁,-,hall₁⟩ := Heap.step_spec hinv (Heap.admissible_of_step hinv hs)
    obtain rfl : s' = s₁ := some.inj (hs.symm.trans hs₁)
    rw [hall₁,Naive.apply_of_ne _ ha]

/-- `gc_run` keeps what was created by the highest version of a member and not removed before the
lowest, exactly if a writer is left or no entry is newer than every member. -/
theorem gcRun_exact {s : Heap K V} {n : Naive K V} {h : ℕ} {x : Handle}
    (hr : Reachable (system K V) (s,n)) (hx : s.handles h = some x) :
    ∃ s' p, s.gcRun h = some s' ∧ s'.all = s.all ∧
      (s'.groups x.ssg).data = (s.groups x.ssg).data.filter p ∧
      ((∀ e ∈ (s.groups x.ssg).data, p e = true ↔
        (∃ a y, s.handles a = some y ∧ y.ssg = x.ssg ∧ e.createdAt ≤ y.ver) ∧
        ∃ a y, s.handles a = some y ∧ y.ssg = x.ssg ∧ ∀ r ∈ e.removedAt, y.ver ≤ r) ↔
      (s.groups x.ssg).writer ≠ none ∨ ∀ e ∈ (s.groups x.ssg).data,
        ∃ a y, s.handles a = some y ∧ y.ssg = x.ssg ∧ e.createdAt ≤ y.ver) := by
  obtain ⟨hinv,-⟩ := simulation hr
  obtain ⟨low,hs',⟨b,z,hz,hzg,rfl⟩,hlow⟩ := hinv.gcRun_eq hx
  obtain ⟨s',hs₁,-,hall⟩ := Heap.gcRun_spec hinv hx
  obtain rfl := some.inj (hs'.symm.trans hs₁)
  refine ⟨_,_,hs',hall,by rw [Heap.modifyGroup_self]; rfl,?_⟩
  simp only [Bool.not_eq_true',Option.any_eq_false,decide_eq_false_iff_not,not_lt]
  constructor
  · refine fun hexact => .inr fun e he => ?_
    -- what is newer than every member was not removed before the lowest one
    by_contra hnew
    refine hnew ((hexact e he).mp fun r hr => ?_).1
    have hlt : z.ver < e.createdAt := not_le.mp fun hle => hnew ⟨b,z,hz,hzg,hle⟩
    exact hlt.le.trans ((hinv.sorted x.ssg).2 e he r hr)
  · intro hnew e he
    have hcreated : ∃ a y, s.handles a = some y ∧ y.ssg = x.ssg ∧ e.createdAt ≤ y.ver := by
      rcases hnew with hw | hnew
      · obtain ⟨w,hw⟩ := ne_none_iff_exists'.mp hw
        obtain ⟨y,hy,hwr⟩ := hinv.writer _ w hw
        exact ⟨w,y,hy,hwr.ssg,hwr.created e he⟩
      · exact hnew e he
    refine ⟨fun hkept => ⟨hcreated,b,z,hz,hzg,hkept⟩,?_⟩
    rintro ⟨-,a,y,hy,hg,hle⟩ r hr
    exact (hlow a y hy hg).trans (hle r hr)

end Refinement

theorem gcRun_exact_writer :
    let s := after (system ℕ ℕ) (fun _ _ => True) ({},fun _ => none)
      [.construct,.insert 0 1 10,.erase 0 1,.insert 0 2 20];
    ∃ s' p, s.1.gcRun 0 = some s' ∧ s'.all = s.1.all ∧
      (s'.groups 0).data = (s.1.groups 0).data.filter p ∧
      ∀ e ∈ (s.1.groups 0).data, p e = true ↔
        (∃ a y, s.1.handles a = some y ∧ y.ssg = 0 ∧ e.createdAt ≤ y.ver) ∧
        ∃ a y, s.1.handles a = some y ∧ y.ssg = 0 ∧ ∀ r ∈ e.removedAt, y.ver ≤ r := by
  intro s
  have hr : Reachable (system ℕ ℕ) s := ⟨_,rfl,run_after _ _⟩
  obtain ⟨s',p,hs,hall,hdata,hiff⟩ := gcRun_exact (n:=s.2) (h:=0) (x:=⟨_,0,_,_⟩) hr rfl
  exact ⟨s',p,hs,hall,hdata,hiff.mpr (.inl (by decide +kernel))⟩

/-- The writer is gone, and the entry it added after the snapshot stays. -/
theorem gcRun_keeps_newer :
    let s := after (system ℕ ℕ) (fun _ _ => True) ({},fun _ => none)
      [.construct,.snapshot 0,.insert 0 1 10,.destroy 0];
    Reachable (system ℕ ℕ) s ∧ ∃ s', s.1.gcRun 1 = some s' ∧ ∃ e ∈ (s'.groups 0).data,
      ∀ a y, s.1.handles a = some y → y.ssg = 0 ∧ y.ver < e.createdAt := by
  intro s
  have hr : Reachable (system ℕ ℕ) s := ⟨_,rfl,run_after _ _⟩
  refine ⟨hr,_,rfl,⟨1,1,none,10⟩,mem_singleton.mpr rfl,fun a y hy => ?_⟩
  have hlt : a < 2 := ((simulation hr).1.bound a y hy).1
  obtain rfl | rfl : a = 0 ∨ a = 1 := by omega
  · cases hy
  · cases hy
    decide

/-- A snapshot keeps what the writer erases afterwards, a copy is written on its own, and the
writer is destroyed before the snapshot. -/
def shared : Heap ℕ ℕ × Naive ℕ ℕ :=
  after (system ℕ ℕ) (fun _ _ => True) ({},fun _ => none)
    [.construct,.insert 0 1 10,.insert 0 2 20,.snapshot 0,.erase 0 1,.copy 0,.insert 2 3 30,
      .insert 0 1 11,.gcRun 1,.destroy 0]

theorem snapshot_isolation_shared : Reachable (system ℕ ℕ) shared ∧
    (∀ a, shared.1.all a = shared.2 a) ∧
      shared.1.all 1 = some [(1,10),(2,20)] ∧ shared.1.all 2 = some [(2,20),(3,30)] := by
  have hr : Reachable (system ℕ ℕ) shared := by
    exact ⟨_,rfl,run_after _ _⟩
  exact ⟨hr,(snapshot_isolation hr).1,by decide +kernel,by decide +kernel⟩

end Janus.Snapshot
