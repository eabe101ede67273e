import Janus.Containers

/-! What `WaitDieALock` and `WoundDieALock` share (`rrr/misc/alock.hpp`, `alock.cpp`): a queue of
read and write requests of which a prefix holds the lock, and `abort`, which withdraws or releases
a request and lets in whoever is next. A failed `verify` is `none`. The callbacks are recorded in
the order of their calls; they do not call the lock again. -/

namespace Janus.QueuedLock

open List List.Perm

inductive LockType
  | rlock | wlock
  deriving DecidableEq

inductive LockStatus
  | free | wlocked | rlocked
  deriving DecidableEq

/-- `lock_req_t`; `locked` is the status `LOCK`, the alternative is `WAIT`. -/
structure LockReq where
  id : ℕ
  priority : Int64
  type : LockType
  locked : Bool := false
  deriving DecidableEq

namespace LockReq

def isRead (r : LockReq) : Bool := r.type = .rlock

def grant (r : LockReq) : LockReq := {r with locked := true}

end LockReq

open LockReq (isRead grant)

/-- `ALock` with the queue of its subclasses. `calls` holds the ids for which the yes or the no
callback has been called. -/
structure ALock where
  nextId : ℕ := 1
  status : LockStatus := .free
  nRlock : ℤ := 0
  requests : List LockReq := []
  calls : List (ℕ × Bool) := []
  deriving DecidableEq

namespace ALock

variable (l : ALock)

def getNextId : ALock := {l with nextId := l.nextId+1}

def writeAcquire (before : List LockReq) (r : LockReq) (after : List LockReq) :
    Option ALock :=
  if r.type = .wlock ∧ r.locked = false then
    some {l with
      status := .wlocked
      requests := before++r.grant::after
      calls := l.calls++[(r.id,true)]}
  else none

def readAcquire (before reqs after : List LockReq) : Option ALock :=
  if reqs = [] then some {l with requests := before++after}
  else if ∀ r ∈ reqs, r.type = .rlock ∧ r.locked = false then
    some {l with
      status := if l.nRlock = 0 then .rlocked else l.status
      nRlock := l.nRlock+reqs.length
      requests := before++reqs.map grant++after
      calls := l.calls++reqs.map fun r => (r.id,true)}
  else none

def refuse (id : ℕ) : ALock := {l with calls := l.calls++[(id,false)]}

def withdraw (before : List LockReq) (r : LockReq) (after : List LockReq) :
    Option ALock :=
  let nWBeforeThis := before.countP fun q => !q.isRead
  let l₁ :=
    if r.type = .wlock ∧ nWBeforeThis = 0 then
      -- the reads behind it, up to the next write, join those that hold the lock
      if l.status = .rlocked then
        l.readAcquire before (after.takeWhile isRead) (after.dropWhile isRead)
      else none
    else some {l with requests := before++after}
  l₁.map fun l₁ => l₁.refuse r.id

/-- The queue behind the last holder is empty, and so must be the queue. -/
def freeUp (before : List LockReq) : Option ALock :=
  if before = [] then some {l with status := .free, requests := []} else none

def unlock (before : List LockReq) (r : LockReq) (after : List LockReq) :
    Option ALock :=
  if r.type = .rlock then
    let l₁ : ALock := {l with nRlock := l.nRlock-1}
    if l₁.nRlock = 0 then
      match after with
      | [] => l₁.freeUp before
      | q::rest => l₁.writeAcquire before q rest
    else some {l₁ with requests := before++after}
  else
    match after with
    | [] => l.freeUp before
    | q::rest =>
      if q.type = .wlock then l.writeAcquire before q rest
      else
        (l.readAcquire before (after.takeWhile isRead)
          (after.dropWhile isRead)).filter fun l₁ => l₁.status = .rlocked

def abort (id : ℕ) : Option ALock :=
  match l.requests.span fun r => r.id ≠ id with
  | (_,[]) => some l
  | (before,r::after) =>
    if r.locked then l.unlock before r after else l.withdraw before r after

end ALock

/-- How the status and the number of read locks describe the requests that hold the lock. -/
inductive Holders : LockStatus → ℤ → List LockReq → Prop
  | free : Holders .free 0 []
  | wlocked {r : LockReq} (hr : r.type = .wlock) : Holders .wlocked 0 [r]
  | rlocked {g : List LockReq} (hne : g ≠ []) (hg : ∀ r ∈ g, r.type = .rlock) :
      Holders .rlocked g.length g

variable {g : List LockReq}

theorem Holders.inv {st : LockStatus} {n : ℤ} (h : Holders st n g) :
    st = .free ∧ n = 0 ∧ g = [] ∨ (∃ r, st = .wlocked ∧ n = 0 ∧ g = [r] ∧ r.type = .wlock) ∨
      st = .rlocked ∧ n = g.length ∧ g ≠ [] ∧ ∀ r ∈ g, r.type = .rlock := by
  cases h with
  | free => exact .inl ⟨rfl,rfl,rfl⟩
  | wlocked hr => exact .inr (.inl ⟨_,rfl,rfl,rfl,hr⟩)
  | rlocked hne hg => exact .inr (.inr ⟨rfl,rfl,hne,hg⟩)

structure Settled (status : LockStatus) (w : List LockReq) : Prop where
  free : status = .free → w = []
  rlocked : status = .rlocked → ∀ r ∈ w.head?, r.type = .wlock

namespace ALock

def Holds (l : ALock) (id : ℕ) : Prop := ∃ r ∈ l.requests, r.id = id ∧ r.locked = true

def Waits (l : ALock) (id : ℕ) : Prop := ∃ r ∈ l.requests, r.id = id ∧ r.locked = false

instance (l : ALock) (id : ℕ) : Decidable (l.Waits id) := by
  unfold Waits
  infer_instance

/-- Those that hold the lock are in front of those that wait, every id is given out once, and a
request has had its callback unless it waits. -/
structure Sane (l : ALock) : Prop where
  queue : ∃ g w, l.requests = g++w ∧ (∀ r ∈ g, r.locked = true) ∧ (∀ r ∈ w, r.locked = false) ∧
    Holders l.status l.nRlock g ∧ Settled l.status w
  nodup : (l.requests.map LockReq.id).Nodup
  lt_nextId : ∀ r ∈ l.requests, r.id < l.nextId
  once : (l.calls.map Prod.fst).Nodup
  called : ∀ c ∈ l.calls, c.1 < l.nextId
  granted : ∀ r ∈ l.requests, r.locked = true → (r.id,true) ∈ l.calls
  waiting : ∀ r ∈ l.requests, r.locked = false → r.id ∉ l.calls.map Prod.fst

/-- What a call makes of a queue: the requests `a` hold the lock, `b` wait, and `refused` have
had the no callback. -/
structure Becomes (l l' : ALock) (a b : List LockReq) (refused : List ℕ) : Prop where
  requests : l'.requests = a.map grant++b
  waits : ∀ r ∈ b, r.locked = false
  holders : Holders l'.status l'.nRlock (a.map grant)
  settled : Settled l'.status b
  calls : ∃ new, l'.calls = l.calls++new ∧
    new.Perm ((a.filter fun r => !r.locked).map (fun r => (r.id,true))++refused.map fun i => (i,false))

end ALock

theorem map_grant (h : ∀ r ∈ g, r.locked = true) : g.map grant = g := by
  refine (map_congr_left fun r hr => ?_).trans (map_id g)
  unfold grant
  rw [← h r hr]
  rfl

theorem filter_waits (h : ∀ r ∈ g, r.locked = true) : (g.filter fun r => !r.locked) = [] :=
  filter_eq_nil_iff.mpr fun r hr => by simp [h r hr]

namespace ALock

variable {l l' : ALock} {a b : List LockReq} {refused : List ℕ}
variable {r : LockReq} {g w rs after before : List LockReq} {i : ℕ}

theorem Sane.empty : Sane {} where
  queue := ⟨[],[],rfl,nofun,nofun,.free,⟨fun _ => rfl,nofun⟩⟩
  nodup := nodup_nil
  lt_nextId := nofun
  once := nodup_nil
  called := nofun
  granted := nofun
  waiting := nofun

theorem Becomes.mem (h : Becomes l l' a b refused) (hr : r ∈ l'.requests) :
    (∃ q ∈ a, r = q.grant) ∨ r ∈ b := by
  rw [h.requests] at hr
  rcases mem_append.mp hr with hr | hr
  · obtain ⟨q,hq,rfl⟩ := mem_map.mp hr
    exact .inl ⟨q,hq,rfl⟩
  · exact .inr hr

theorem Becomes.source (h : Becomes l l' a b refused) (hr : r ∈ l'.requests) :
    ∃ q ∈ a++b, q.id = r.id ∧ q.type = r.type := by
  rcases h.mem hr with ⟨q,hq,rfl⟩ | hr
  · exact ⟨q,mem_append_left _ hq,rfl,rfl⟩
  · exact ⟨r,mem_append_right _ hr,rfl,rfl⟩

theorem Becomes.stays (h : Becomes l l' a b refused) (hr : r ∈ a++b) :
    ∃ q ∈ l'.requests, q.id = r.id ∧ (r.locked = true → q = r) := by
  rw [h.requests]
  rcases mem_append.mp hr with ha | hb
  · refine ⟨r.grant,mem_append_left _ (mem_map_of_mem ha),rfl,fun hl => ?_⟩
    rw [grant,← hl]
  · exact ⟨r,mem_append_right _ hb,rfl,fun _ => rfl⟩

section Becomes

variable (hs : Sane l) (h : Becomes l l' a b refused)
  (hsrc : ∀ r ∈ a++b, r ∈ l.requests ∨ r.id = l.nextId ∧ r.locked = false)
include hs h hsrc

theorem Becomes.sane (hnodup : ((a++b).map LockReq.id++refused).Nodup)
    (hnext : l.nextId ≤ l'.nextId) (hlt : ∀ r ∈ a++b, r.id < l'.nextId)
    (href : ∀ i ∈ refused, i < l'.nextId ∧ i ∉ l.calls.map Prod.fst) : Sane l' := by
  obtain ⟨new,hnew,hperm⟩ := h.calls
  have hids : l'.requests.map LockReq.id = (a++b).map LockReq.id := by
    rw [h.requests,map_append,map_append,map_map]
    rfl
  have hfresh : ∀ r ∈ a++b, r.locked = false → r.id ∉ l.calls.map Prod.fst := by
    intro r hr hw
    rcases hsrc r hr with hr | ⟨hid,-⟩
    · exact hs.waiting r hr hw
    · intro hmem
      obtain ⟨c,hc,heq⟩ := mem_map.mp hmem
      have := hs.called c hc
      omega
  obtain ⟨hab,hrefnd,hdisj⟩ := nodup_append.mp hnodup
  -- the ids of the new callbacks
  have hnewids : (new.map Prod.fst).Perm
      ((a.filter fun r => !r.locked).map LockReq.id++refused) := by
    refine (hperm.map _).trans (of_eq ?_)
    rw [map_append,map_map,map_map]
    exact congrArg₂ _ rfl (map_id _)
  have hsub : ((a.filter fun r => !r.locked).map LockReq.id).Sublist ((a++b).map LockReq.id) :=
    (filter_sublist.trans (sublist_append_left a b)).map _
  have hnewmem : ∀ {i}, i ∈ new.map Prod.fst →
      (∃ r ∈ a, r.locked = false ∧ r.id = i) ∨ i ∈ refused := by
    intro i hi
    rcases mem_append.mp (hnewids.mem_iff.mp hi) with hi | hi
    · obtain ⟨r,hr,rfl⟩ := mem_map.mp hi
      obtain ⟨hr,hw⟩ := mem_filter.mp hr
      exact .inl ⟨r,hr,by simpa using hw,rfl⟩
    · exact .inr hi
  refine ⟨⟨_,b,h.requests,?_,h.waits,h.holders,h.settled⟩,hids ▸ hab,fun r hr => ?_,?_,
    fun c hc => ?_,fun r hr hl => ?_,fun r hr hw hmem => ?_⟩
  · intro r hr
    obtain ⟨q,-,rfl⟩ := mem_map.mp hr
    rfl
  · rcases h.mem hr with ⟨q,hq,rfl⟩ | hr
    · exact hlt q (mem_append_left _ hq)
    · exact hlt r (mem_append_right _ hr)
  · rw [hnew,map_append]
    refine nodup_append.mpr ⟨hs.once,?_,fun i hi j hj => ?_⟩
    · refine hnewids.nodup_iff.mpr (nodup_append.mpr ⟨hab.sublist hsub,hrefnd,?_⟩)
      exact fun i hi j hj => hdisj i (hsub.subset hi) j hj
    · rintro rfl
      rcases hnewmem hj with ⟨r,hr,hw,rfl⟩ | hj
      · exact hfresh r (mem_append_left _ hr) hw hi
      · exact (href i hj).2 hi
  · rw [hnew] at hc
    rcases mem_append.mp hc with hc | hc
    · exact (hs.called c hc).trans_le hnext
    · rcases hnewmem (mem_map_of_mem hc) with ⟨r,hr,-,heq⟩ | hi
      · exact heq ▸ hlt r (mem_append_left _ hr)
      · exact (href _ hi).1
  · rw [hnew]
    rcases h.mem hr with ⟨q,hq,rfl⟩ | hr
    · by_cases hlq : q.locked = true
      · rcases hsrc q (mem_append_left _ hq) with hq | ⟨-,hw⟩
        · exact mem_append_left _ (hs.granted q hq hlq)
        · rw [hlq] at hw
          cases hw
      · refine mem_append_right _ (hperm.mem_iff.mpr (mem_append_left _ ?_))
        exact mem_map.mpr ⟨q,mem_filter.mpr ⟨hq,by simpa using hlq⟩,rfl⟩
    · rw [h.waits r hr] at hl
      cases hl
  · rw [hnew,map_append] at hmem
    rcases h.mem hr with ⟨q,hq,rfl⟩ | hr
    · cases hw
    rcases mem_append.mp hmem with hmem | hmem
    · exact hfresh r (mem_append_right _ hr) hw hmem
    · rcases hnewmem hmem with ⟨q,hq,-,heq⟩ | hi
      · rw [map_append] at hab
        exact (nodup_append.mp hab).2.2 _ (mem_map_of_mem hq) _ (mem_map_of_mem hr) heq
      · exact hdisj r.id (mem_map_of_mem (mem_append_right _ hr)) _ hi rfl

theorem Becomes.reports : ∃ new, l'.calls = l.calls++new ∧
    (∀ i, (i,true) ∈ new ↔ l'.Holds i ∧ ¬l.Holds i) ∧ ∀ i, (i,false) ∈ new ↔ i ∈ refused := by
  obtain ⟨new,hnew,hperm⟩ := h.calls
  refine ⟨new,hnew,fun i => ?_,fun i => ?_⟩
  · have hyes : (i,true) ∈ new ↔ ∃ r ∈ a, r.locked = false ∧ r.id = i := by
      rw [hperm.mem_iff]
      simp [and_assoc]
    rw [hyes]
    constructor
    · rintro ⟨r,hr,hw,rfl⟩
      refine ⟨⟨r.grant,?_,rfl,rfl⟩,?_⟩
      · rw [h.requests]
        exact mem_append_left _ (mem_map_of_mem hr)
      · rintro ⟨q,hq,hid,hl⟩
        rcases hsrc r (mem_append_left _ hr) with hr | ⟨hid',-⟩
        · obtain rfl := inj_on_of_nodup_map hs.nodup hq hr hid
          rw [hw] at hl
          cases hl
        · have := hs.lt_nextId q hq
          omega
    · rintro ⟨⟨r,hr,rfl,hl⟩,hno⟩
      rcases h.mem hr with ⟨q,hq,rfl⟩ | hr
      · refine ⟨q,hq,?_,rfl⟩
        by_contra hlq
        rw [Bool.not_eq_false] at hlq
        rcases hsrc q (mem_append_left _ hq) with hq | ⟨-,hw⟩
        · exact hno ⟨q,hq,rfl,hlq⟩
        · rw [hlq] at hw
          cases hw
      · rw [h.waits r hr] at hl
        cases hl
  · rw [hperm.mem_iff]
    simp

end Becomes

/-! ### Abort -/

theorem filter_id (h : (rs.map LockReq.id).Nodup) (heq : rs = before++r::after) :
    (rs.filter fun q => q.id ≠ r.id) = before++after := by
  subst heq
  rw [map_append,map_cons] at h
  obtain ⟨-,hcons,hdisj⟩ := nodup_append.mp h
  have hbefore : ∀ q ∈ before, q.id ≠ r.id := fun q hq =>
    hdisj q.id (mem_map_of_mem hq) r.id mem_cons_self
  have hafter : ∀ q ∈ after, q.id ≠ r.id := fun q hq hid =>
    (nodup_cons.mp hcons).1 (mem_map.mpr ⟨q,hq,hid⟩)
  rw [filter_append,filter_cons_of_neg (by simp),
    filter_eq_self.mpr fun q hq => by simpa using hbefore q hq,
    filter_eq_self.mpr fun q hq => by simpa using hafter q hq]

theorem takeWhile_reads (w : List LockReq) :
    ∀ r ∈ w.takeWhile isRead, r.type = .rlock := fun r hr => by
  simpa [isRead] using mem_takeWhile_imp hr

theorem dropWhile_head (w : List LockReq) : ∀ r ∈ (w.dropWhile isRead).head?, r.type = .wlock := by
  intro r hr
  rw [← find?_not_eq_head?_dropWhile] at hr
  have hno := find?_some hr
  cases ht : r.type with
  | wlock => rfl
  | rlock => simp [isRead,ht] at hno

theorem readAcquire_spec (hg : ∀ r ∈ g, r.locked = true) (hw : ∀ r ∈ w, r.locked = false)
    (hgr : ∀ r ∈ g, r.type = .rlock) (hlen : l.nRlock = g.length)
    (hst : l.nRlock = 0 ∨ l.status = .rlocked) (hne : g++w.takeWhile isRead ≠ []) :
    ∃ l', l.readAcquire g (w.takeWhile isRead) (w.dropWhile isRead) = some l' ∧
      l'.nextId = l.nextId ∧ l'.status = .rlocked ∧
      Becomes l l' (g++w.takeWhile isRead) (w.dropWhile isRead) [] := by
  have hsub : ∀ r ∈ w.takeWhile isRead, r.locked = false :=
    fun r hr => hw r ((takeWhile_sublist _).subset hr)
  have hreads := takeWhile_reads w
  have hwaits : ∀ r ∈ w.dropWhile isRead, r.locked = false :=
    fun r hr => hw r ((dropWhile_sublist _).subset hr)
  have hset : Settled .rlocked (w.dropWhile isRead) := ⟨nofun,fun _ => dropWhile_head w⟩
  have hmap : (g++w.takeWhile isRead).map grant = g++(w.takeWhile isRead).map grant := by
    rw [map_append,map_grant hg]
  have hfil : ((g++w.takeWhile isRead).filter fun r => !r.locked) = w.takeWhile isRead := by
    rw [filter_append,filter_waits hg,nil_append]
    exact filter_eq_self.mpr fun r hr => by simp [hsub r hr]
  have hholders : Holders .rlocked (g.length+(w.takeWhile isRead).length : ℕ)
      ((g++w.takeWhile isRead).map grant) := by
    rw [← length_append,← length_map grant]
    refine .rlocked (by simpa using hne) fun r hr => ?_
    obtain ⟨q,hq,rfl⟩ := mem_map.mp hr
    rcases mem_append.mp hq with hq | hq
    · exact hgr q hq
    · exact hreads q hq
  generalize w.takeWhile isRead = reads at *
  unfold readAcquire
  by_cases hnil : reads = []
  · subst hnil
    have hst : l.status = .rlocked := by
      refine hst.resolve_left fun hzero => hne ?_
      rw [append_nil]
      exact length_eq_zero_iff.mp (by omega)
    refine ⟨_,if_pos rfl,rfl,hst,?_,hwaits,?_,hst ▸ hset,[],(append_nil _).symm,?_⟩
    · rw [hmap]
      simp
    · rw [hst,hlen]
      exact hholders
    · rw [hfil]
      exact nil
  · rw [if_neg hnil,if_pos fun r hr => ⟨hreads r hr,hsub r hr⟩]
    have hst' : (if l.nRlock = 0 then LockStatus.rlocked else l.status) = .rlocked := by
      split_ifs with hn
      · rfl
      · exact hst.resolve_left hn
    refine ⟨_,rfl,rfl,hst',by rw [hmap],hwaits,?_,?_,_,rfl,?_⟩
    · rw [hst',hlen,← Int.natCast_add]
      exact hholders
    · rw [hst']
      exact hset
    · rw [hfil]
      simp

theorem writeAcquire_spec {q : LockReq} (hq : q.type = .wlock) (hw : ∀ r ∈ q::w, r.locked = false)
    (hn : l.nRlock = 0) :
    ∃ l', l.writeAcquire [] q w = some l' ∧ l'.nextId = l.nextId ∧ Becomes l l' [q] w [] := by
  have hwait := hw q mem_cons_self
  refine ⟨_,if_pos ⟨hq,hwait⟩,rfl,rfl,fun r hr => hw r (mem_cons_of_mem _ hr),?_,⟨nofun,nofun⟩,
    _,rfl,?_⟩
  · simp only [hn]
    exact .wlocked hq
  · simp [hwait]

theorem Becomes.refuse (h : Becomes l l' a b []) (i : ℕ) : Becomes l (l'.refuse i) a b [i] := by
  obtain ⟨new,hnew,hperm⟩ := h.calls
  refine ⟨h.requests,h.waits,h.holders,h.settled,new++[(i,false)],?_,?_⟩
  · change l'.calls++_ = _
    rw [hnew,append_assoc]
  · rw [map_nil,append_nil] at hperm
    exact hperm.append_right _

theorem becomes_same {n : ℤ} (hg : ∀ r ∈ g, r.locked = true) (hw : ∀ r ∈ w, r.locked = false)
    (hh : Holders l.status n g) (hset : Settled l.status w) :
    Becomes l {l with nRlock := n, requests := g++w} g w [] :=
  ⟨by rw [map_grant hg],hw,by rwa [map_grant hg],hset,[],(append_nil _).symm,
    by rw [filter_waits hg]; exact nil⟩

theorem freeUp_spec (hn : l.nRlock = 0) :
    ∃ l', l.freeUp [] = some l' ∧ l'.nextId = l.nextId ∧ Becomes l l' [] [] [] :=
  ⟨_,if_pos rfl,rfl,rfl,nofun,hn ▸ .free,⟨fun _ => rfl,nofun⟩,[],(append_nil _).symm,nil⟩

theorem Becomes.congr {m : ALock} (h : Becomes m l' a b refused) (hcalls : m.calls = l.calls) :
    Becomes l l' a b refused := {h with calls := hcalls ▸ h.calls}

theorem withdraw_spec {w₁ : List LockReq} (hg : ∀ q ∈ g, q.locked = true)
    (hw : ∀ q ∈ w₁++r::after, q.locked = false) (hh : Holders l.status l.nRlock g)
    (hset : Settled l.status (w₁++r::after)) :
    ∃ l' a b, l.withdraw (g++w₁) r after = some l' ∧ l'.nextId = l.nextId ∧
      a++b = g++w₁++after ∧ Becomes l l' a b [r.id] := by
  have hafter : ∀ q ∈ after, q.locked = false := fun q hq => hw q (by simp [hq])
  have hfree : l.status ≠ .free := fun hf => by simpa using hset.free hf
  unfold withdraw
  dsimp only
  by_cases hfirst : r.type = .wlock ∧ (g++w₁).countP (fun q => !q.isRead) = 0
  · rw [if_pos hfirst]
    have hno : ∀ q ∈ g++w₁, q.type = .rlock := by
      intro q hq
      simpa [isRead] using countP_eq_zero.mp hfirst.2 q hq
    -- the lock is read locked, and no other request waits in front
    have hst : l.status = .rlocked ∧ l.nRlock = g.length := by
      rcases hh.inv with ⟨hs,-⟩ | ⟨q,-,-,rfl,hq⟩ | ⟨hs,hn,-⟩
      · exact absurd hs hfree
      · rw [hno q (by simp)] at hq
        cases hq
      · exact ⟨hs,hn⟩
    have hw₁ : w₁ = [] := by
      cases w₁ with
      | nil => rfl
      | cons q qs =>
        have hq := hset.rlocked hst.1 q rfl
        rw [hno q (by simp)] at hq
        cases hq
    subst hw₁
    rw [append_nil] at hno ⊢
    have hgne : g ≠ [] := by
      rcases hh.inv with ⟨hs,-⟩ | ⟨q,-,-,rfl,-⟩ | ⟨-,-,hne,-⟩
      · exact absurd hs hfree
      · simp
      · exact hne
    obtain ⟨l₁,hl₁,hnext,-,hb⟩ := readAcquire_spec hg hafter hno hst.2 (.inr hst.1) (by simp [hgne])
    rw [if_pos hst.1,hl₁]
    refine ⟨_,_,_,rfl,hnext,?_,hb.refuse r.id⟩
    rw [append_assoc,takeWhile_append_dropWhile]
  · rw [if_neg hfirst]
    have hset' : Settled l.status (w₁++after) := by
      refine ⟨fun hf => absurd hf hfree,fun hs => ?_⟩
      cases w₁ with
      | cons q qs => exact hset.rlocked hs
      | nil =>
        refine absurd ⟨hset.rlocked hs r rfl,?_⟩ hfirst
        rw [append_nil]
        refine countP_eq_zero.mpr fun q hq => ?_
        rcases hh.inv with ⟨hf,-⟩ | ⟨_,hf,-⟩ | ⟨-,-,-,hgr⟩
        · exact absurd hf hfree
        · rw [hs] at hf
          cases hf
        · simp [isRead,hgr q hq]
    have hw' : ∀ q ∈ w₁++after, q.locked = false := fun q hq => hw q (by
      simp only [mem_append,mem_cons] at hq ⊢
      tauto)
    refine ⟨_,g,w₁++after,rfl,rfl,(append_assoc _ _ _).symm,?_⟩
    have hb := (becomes_same hg hw' hh hset').refuse r.id
    rwa [← append_assoc] at hb

/-- `unlock` takes the request out and grants those at the front. -/
theorem unlock_spec {g₂ : List LockReq} (hg : ∀ q ∈ before++r::g₂, q.locked = true)
    (hw : ∀ q ∈ w, q.locked = false) (hh : Holders l.status l.nRlock (before++r::g₂))
    (hset : Settled l.status w) :
    ∃ l' a b, l.unlock before r (g₂++w) = some l' ∧ l'.nextId = l.nextId ∧
      a++b = before++(g₂++w) ∧ Becomes l l' a b [] := by
  unfold unlock
  rcases hh.inv with ⟨-,-,hnil⟩ | ⟨q,hs,hn,hq,hqw⟩ | ⟨hs,hn,-,hgr⟩
  · simp at hnil
  · -- the only holder is a write
    have hparts : before = [] ∧ r = q ∧ g₂ = [] := by
      cases before with
      | nil => simpa using hq
      | cons _ _ => simp at hq
    obtain ⟨rfl,rfl,rfl⟩ := hparts
    rw [if_neg (by simp [hqw])]
    cases w with
    | nil =>
      obtain ⟨l',hl',hnext,hb⟩ := freeUp_spec (l:=l) hn
      exact ⟨l',[],[],hl',hnext,rfl,hb⟩
    | cons x rest =>
      dsimp only [nil_append]
      split_ifs with hx
      · obtain ⟨l',hl',hnext,hb⟩ := writeAcquire_spec (l:=l) hx hw hn
        exact ⟨l',[x],rest,hl',hnext,rfl,hb⟩
      · have hread : x.isRead = true := by
          cases hxt : x.type with
          | rlock => simp [isRead,hxt]
          | wlock => exact absurd hxt hx
        obtain ⟨l',hl',hnext,hst',hb⟩ := readAcquire_spec (l:=l) (g:=[]) nofun hw nofun hn (.inl hn)
          (by simp [hread])
        refine ⟨l',_,_,?_,hnext,?_,hb⟩
        · rw [hl']
          simp [hst']
        · simp [takeWhile_append_dropWhile]
  · have hr := hgr r (by simp)
    dsimp only
    have hg' : ∀ q ∈ before++g₂, q.locked = true := fun q hq => hg q (by
      simp only [mem_append,mem_cons] at hq ⊢
      tauto)
    have hlen : l.nRlock-1 = (before++g₂).length := by
      rw [hn]
      simp only [length_append,length_cons]
      omega
    split_ifs with hzero
    · -- it was the last one
      have hnil : before++g₂ = [] := length_eq_zero_iff.mp (by omega)
      obtain ⟨rfl,rfl⟩ := append_eq_nil_iff.mp hnil
      cases w with
      | nil =>
        obtain ⟨l',hl',hnext,hb⟩ := freeUp_spec (l:={l with nRlock := l.nRlock-1}) hzero
        exact ⟨l',[],[],hl',hnext,rfl,hb.congr rfl⟩
      | cons x rest =>
        obtain ⟨l',hl',hnext,hb⟩ := writeAcquire_spec (l:={l with nRlock := l.nRlock-1})
          (hset.rlocked hs x rfl) hw hzero
        exact ⟨l',[x],rest,hl',hnext,rfl,hb.congr rfl⟩
    · refine ⟨_,before++g₂,w,rfl,rfl,append_assoc _ _ _,?_⟩
      have hne : before++g₂ ≠ [] := fun hnil => hzero (by rw [hlen,hnil]; rfl)
      have hh' : Holders l.status (l.nRlock-1) (before++g₂) := by
        rw [hs,hlen]
        exact .rlocked hne fun q hq => hgr q (by
          simp only [mem_append,mem_cons] at hq ⊢
          tauto)
      have hb := becomes_same hg' hw hh' hset
      rwa [append_assoc] at hb

theorem Sane.abort (h : Sane l) (i : ℕ) : ∃ l' a b, l.abort i = some l' ∧ l'.nextId = l.nextId ∧
    a++b = l.requests.filter (fun r => r.id ≠ i) ∧
    Becomes l l' a b (if l.Waits i then [i] else []) := by
  obtain ⟨g,w,hgw,hg,hw,hh,hset⟩ := h.queue
  unfold ALock.abort
  rcases hspan : l.requests.span fun r => r.id ≠ i with ⟨before,_ | ⟨r,after⟩⟩
  · -- no such request
    obtain ⟨heq,hbefore,-⟩ := span_ne hspan
    rw [append_nil] at heq
    have hno : ¬l.Waits i := fun ⟨r,hr,hid,_⟩ => hbefore r (heq ▸ hr) hid
    rw [hspan]
    refine ⟨l,g,w,rfl,rfl,?_,?_⟩
    · rw [← hgw]
      exact (filter_eq_self.mpr fun r hr => by simpa using hbefore r (heq ▸ hr)).symm
    · rw [if_neg hno]
      have hb := becomes_same hg hw hh hset
      rwa [← hgw] at hb
  · obtain ⟨heq,hbefore,hid⟩ := span_ne hspan
    have hid : r.id = i := hid r rfl
    have hfilter : (l.requests.filter fun r => r.id ≠ i) = before++after :=
      hid ▸ filter_id h.nodup heq
    have hwaits : l.Waits i ↔ r.locked = false := by
      constructor
      · rintro ⟨q,hq,hqi,hwq⟩
        obtain rfl := inj_on_of_nodup_map h.nodup hq (heq ▸ by simp) (hqi.trans hid.symm)
        exact hwq
      · exact fun hwr => ⟨r,heq ▸ by simp,hid,hwr⟩
    rw [hfilter,hspan]
    dsimp only
    rcases append_eq_append_iff.mp (hgw.symm.trans heq) with ⟨w₁,rfl,rfl⟩ | ⟨g₂,rfl,hrest⟩
    · have hwr : r.locked = false := hw r (by simp)
      rw [if_neg (by simp [hwr]),if_pos (hwaits.mpr hwr),← hid]
      exact withdraw_spec hg hw hh hset
    · cases g₂ with
      | nil =>
        rw [nil_append] at hrest
        rw [append_nil] at hg hh
        have hwr : r.locked = false := hw r (hrest ▸ mem_cons_self)
        rw [if_neg (by simp [hwr]),if_pos (hwaits.mpr hwr),← hid]
        rw [← hrest] at hw hset
        have hw' : ∀ q ∈ []++r::after, q.locked = false := hw
        obtain ⟨l',a,b,hl',hnext,hab,hb⟩ := withdraw_spec hg hw' hh hset
        rw [append_nil] at hl' hab
        exact ⟨l',a,b,hl',hnext,hab,hb⟩
      | cons x g₂ =>
        obtain ⟨rfl,rfl⟩ := cons.inj hrest
        have hlr : r.locked = true := hg r (by simp)
        rw [if_pos hlr,if_neg fun hwr => by simp [hwaits.mp hwr] at hlr]
        exact unlock_spec hg hw hh hset

theorem Sane.becomes_abort (h : Sane l) (hnext : l'.nextId = l.nextId)
    (hab : a++b = l.requests.filter fun r => r.id ≠ i)
    (hb : Becomes l l' a b (if l.Waits i then [i] else [])) : Sane l' := by
  have hsub : (a++b).Sublist l.requests := hab ▸ filter_sublist
  refine hb.sane h (fun r hr => .inl (hsub.subset hr)) ?_ hnext.ge (fun r hr => ?_) fun j hj => ?_
  · refine nodup_append.mpr ⟨h.nodup.sublist (hsub.map _),by split_ifs <;> simp,?_⟩
    intro j hj k hk
    rw [hab] at hj
    obtain ⟨r,hr,rfl⟩ := mem_map.mp hj
    have hne := (mem_filter.mp hr).2
    split_ifs at hk
    · rw [mem_singleton.mp hk]
      simpa using hne
    · cases hk
  · rw [hnext]
    exact h.lt_nextId r (hsub.subset hr)
  · split_ifs at hj with hw
    · obtain ⟨r,hr,hid,hwait⟩ := hw
      rw [mem_singleton.mp hj,hnext,← hid]
      exact ⟨h.lt_nextId r hr,h.waiting r hr hwait⟩
    · cases hj

/-! ### What the status says -/

theorem Sane.free_iff (h : Sane l) : l.status = .free ↔ l.requests = [] := by
  obtain ⟨g,w,hgw,hg,hw,hh,hset⟩ := h.queue
  rcases hh.inv with ⟨hs,-,rfl⟩ | ⟨r,hs,-,rfl,-⟩ | ⟨hs,-,hne,-⟩
  · simp [hs,hgw,hset.free hs]
  · simp [hs,hgw]
  · simp [hs,hgw,hne]

theorem filter_locked (hg : ∀ r ∈ g, r.locked = true) (hw : ∀ r ∈ w, r.locked = false) :
    (g++w).filter LockReq.locked = g := by
  rw [filter_append,filter_eq_self.mpr hg,
    filter_eq_nil_iff.mpr fun r hr => by simp [hw r hr],append_nil]

/-- A queue splits in one way into granted and waiting requests. -/
theorem parts_unique {g' w' : List LockReq} (heq : g++w = g'++w')
    (hg : ∀ r ∈ g, r.locked = true) (hw : ∀ r ∈ w, r.locked = false)
    (hg' : ∀ r ∈ g', r.locked = true) (hw' : ∀ r ∈ w', r.locked = false) : g = g' ∧ w = w' := by
  have hgg : g = g' := by rw [← filter_locked hg hw,heq,filter_locked hg' hw']
  subst hgg
  exact ⟨rfl,append_cancel_left heq⟩

theorem Sane.wlocked_iff (h : Sane l) : l.status = .wlocked ↔ ∃ r rest, l.requests = r::rest ∧
    r.type = .wlock ∧ r.locked = true ∧ ∀ q ∈ rest, q.locked = false := by
  obtain ⟨g,w,hgw,hg,hw,hh,hset⟩ := h.queue
  constructor
  · intro hs
    rcases hh.inv with ⟨hf,-⟩ | ⟨r,-,-,rfl,hr⟩ | ⟨hf,-⟩
    · rw [hs] at hf
      cases hf
    · exact ⟨r,w,hgw,hr,hg r mem_cons_self,hw⟩
    · rw [hs] at hf
      cases hf
  · rintro ⟨r,rest,heq,ht,hl,hrest⟩
    obtain ⟨rfl,rfl⟩ := parts_unique (show g++w = [r]++rest from hgw.symm.trans heq) hg hw
      (by simpa using hl) hrest
    rcases hh.inv with ⟨-,-,hf⟩ | ⟨_,hs,-⟩ | ⟨-,-,-,hgr⟩
    · cases hf
    · exact hs
    · rw [hgr r mem_cons_self] at ht
      cases ht

theorem Sane.rlocked_iff (h : Sane l) : l.status = .rlocked ↔ ∃ g w, l.requests = g++w ∧ g ≠ [] ∧
    (∀ r ∈ g, r.type = .rlock ∧ r.locked = true) ∧ (∀ r ∈ w, r.locked = false) ∧
      ∀ r ∈ w.head?, r.type = .wlock := by
  obtain ⟨g,w,hgw,hg,hw,hh,hset⟩ := h.queue
  constructor
  · intro hs
    rcases hh.inv with ⟨hf,-⟩ | ⟨r,hf,-⟩ | ⟨-,-,hne,hgr⟩
    · rw [hs] at hf
      cases hf
    · rw [hs] at hf
      cases hf
    · exact ⟨g,w,hgw,hne,fun r hr => ⟨hgr r hr,hg r hr⟩,hw,hset.rlocked hs⟩
  · rintro ⟨g',w',heq,hne,hg',hw',-⟩
    obtain ⟨rfl,rfl⟩ := parts_unique (hgw.symm.trans heq) hg hw (fun r hr => (hg' r hr).2) hw'
    rcases hh.inv with ⟨-,-,hf⟩ | ⟨r,-,-,rfl,hr⟩ | ⟨hs,-⟩
    · exact absurd hf hne
    · rw [(hg' r mem_cons_self).1] at hr
      cases hr
    · exact hs

theorem Sane.nRlock_eq (h : Sane l) :
    l.nRlock = l.requests.countP fun r => r.locked && r.isRead := by
  obtain ⟨g,w,hgw,hg,hw,hh,-⟩ := h.queue
  have hwaits : w.countP (fun r => r.locked && r.isRead) = 0 :=
    countP_eq_zero.mpr fun r hr => by simp [hw r hr]
  rw [hgw,countP_append,hwaits,Nat.add_zero]
  rcases hh.inv with ⟨-,hn,rfl⟩ | ⟨r,-,hn,rfl,hr⟩ | ⟨-,hn,-,hgr⟩
  · exact hn
  · simp [hn,isRead,hr]
  · rw [hn,countP_eq_length.mpr fun r hr => by simp [isRead,hg r hr,hgr r hr]]

end ALock
end Janus.QueuedLock
