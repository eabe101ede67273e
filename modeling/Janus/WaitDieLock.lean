import Janus.QueuedLock
import Janus.Transition

/-! `WaitDieALock` (`rrr/misc/alock.hpp`, `alock.cpp`). A request that cannot have the lock waits
if it is older than the requests in its way, and dies otherwise. Ids do not wrap around. -/

namespace Janus.QueuedLock

open Transition List Nat

structure WaitDieALock extends ALock where
  nRInQueue : ℕ := 0
  nWInQueue : ℕ := 0
  deriving DecidableEq

/-- `wait_die` for a write, from the back of the queue: whether it waits. -/
def waitDieWrite (priority : Int64) : List LockReq → Bool
  | [] => true
  | r::rs =>
    if r.priority ≤ priority then false
    else if r.type = .wlock then true
    else waitDieWrite priority rs

/-- `wait_die` for a read: the last write of the queue decides. -/
def waitDieRead (priority : Int64) : List LockReq → Option Bool
  | [] => none
  | r::rs =>
    if r.type = .wlock then some (decide (priority < r.priority)) else waitDieRead priority rs

namespace WaitDieALock

variable (l : WaitDieALock)

def waitDie (type : LockType) (priority : Int64) : Option Bool :=
  match type with
  | .wlock => some (waitDieWrite priority l.requests.reverse)
  | .rlock => waitDieRead priority l.requests.reverse

def enqueued (type : LockType) (base : ALock) : WaitDieALock :=
  match type with
  | .rlock => {base with nRInQueue := l.nRInQueue+1, nWInQueue := l.nWInQueue}
  | .wlock => {base with nRInQueue := l.nRInQueue, nWInQueue := l.nWInQueue+1}

def dequeued (type : LockType) (base : ALock) : WaitDieALock :=
  match type with
  | .rlock => {base with nRInQueue := l.nRInQueue-1, nWInQueue := l.nWInQueue}
  | .wlock => {base with nRInQueue := l.nRInQueue, nWInQueue := l.nWInQueue-1}

def request (type : LockType) (priority : UInt64) : LockReq :=
  {id := l.nextId, priority := priority.toInt64, type := type}

def vlock (type : LockType) (priority : UInt64) : Option WaitDieALock :=
  let req := l.request type priority
  let base := l.toALock.getNextId
  if l.status = .free ∨ l.status = .rlocked ∧ type = .rlock ∧ l.nWInQueue = 0 then
    (match type with
      | .rlock => base.readAcquire l.requests [req] []
      | .wlock => base.writeAcquire l.requests req []).map fun b => l.enqueued type b
  else
    (l.waitDie type req.priority).map fun wait =>
      if wait then l.enqueued type {base with requests := l.requests++[req]}
      else {base.refuse req.id with nRInQueue := l.nRInQueue, nWInQueue := l.nWInQueue}

/-- `abort` also counts the request that leaves the queue. -/
def abort (l : WaitDieALock) (id : ℕ) : Option WaitDieALock :=
  (l.toALock.abort id).map fun b =>
    match l.requests.find? fun r => r.id = id with
    | none => {b with nRInQueue := l.nRInQueue, nWInQueue := l.nWInQueue}
    | some r => l.dequeued r.type b

end WaitDieALock

inductive WaitDieCall
  | vlock (type : LockType) (priority : UInt64)
  | abort (id : ℕ)

namespace WaitDieALock

def step (l : WaitDieALock) : WaitDieCall → Option WaitDieALock
  | .vlock type priority => l.vlock type priority
  | .abort id => l.abort id

def system : System WaitDieALock WaitDieCall where
  init l := l = {}
  step := step

structure Counted (l : WaitDieALock) : Prop where
  sane : l.toALock.Sane
  reads : l.nRInQueue = l.requests.countP LockReq.isRead
  writes : l.nWInQueue = l.requests.countP fun r => !r.isRead

def Refuses (l l' : WaitDieALock) (i : ℕ) : WaitDieCall → Prop
  | .vlock _ _ => i = l.nextId ∧ ∀ r ∈ l'.requests, r.id ≠ i
  | .abort id => i = id ∧ l.toALock.Waits id

def Reports (l l' : WaitDieALock) (c : WaitDieCall) : Prop :=
  ∃ new, l'.calls = l.calls++new ∧
    (∀ i, (i,true) ∈ new ↔ l'.toALock.Holds i ∧ ¬l.toALock.Holds i) ∧
    ∀ i, (i,false) ∈ new ↔ l.Refuses l' i c

variable {l l' : WaitDieALock} {type : LockType} {priority : UInt64}

theorem countP_grant (a b : List LockReq) (f : LockReq → Bool) (hf : ∀ r, f r.grant = f r) :
    (a.map LockReq.grant++b).countP f = (a++b).countP f := by
  rw [countP_append,countP_append,countP_map]
  congr 2
  funext r
  exact hf r

theorem Counted.empty : Counted {} := ⟨ALock.Sane.empty,rfl,rfl⟩

section Vlock

variable (h : Counted l) {base : ALock} {a b : List LockReq}
include h

theorem Counted.request_ids (type : LockType) (priority : UInt64) :
    ((l.requests++[l.request type priority]).map LockReq.id).Nodup ∧
      ∀ r ∈ l.requests++[l.request type priority], r.id < l.nextId+1 := by
  constructor
  · rw [map_append]
    refine nodup_append.mpr ⟨h.sane.nodup,nodup_singleton _,fun i hi j hj => ?_⟩
    obtain ⟨r,hr,rfl⟩ := mem_map.mp hi
    rw [map_singleton,mem_singleton] at hj
    have := h.sane.lt_nextId r hr
    change j = l.nextId at hj
    omega
  · intro r hr
    rcases mem_append.mp hr with hr | hr
    · exact (h.sane.lt_nextId r hr).trans (lt_succ_self _)
    · rw [mem_singleton.mp hr]
      exact lt_succ_self _

theorem Counted.enqueue (hb : l.toALock.Becomes base a b [])
    (hab : a++b = l.requests++[l.request type priority]) (hnext : base.nextId = l.nextId+1) :
    Counted (l.enqueued type base) ∧ Reports l (l.enqueued type base) (.vlock type priority) := by
  have hbase : (l.enqueued type base).toALock = base := by
    cases type <;> rfl
  obtain ⟨hnodup,hlt⟩ := h.request_ids type priority
  have hsrc : ∀ r ∈ a++b, r ∈ l.requests ∨ r.id = l.nextId ∧ r.locked = false := by
    intro r hr
    rw [hab] at hr
    rcases mem_append.mp hr with hr | hr
    · exact .inl hr
    · rw [mem_singleton.mp hr]
      exact .inr ⟨rfl,rfl⟩
  have hcount : ∀ f : LockReq → Bool, (∀ r, f r.grant = f r) → base.requests.countP f =
      l.requests.countP f + if f (l.request type priority) then 1 else 0 := by
    intro f hf
    rw [hb.requests,countP_grant a b f hf,hab,countP_append,countP_singleton]
  have hreads := hcount LockReq.isRead fun _ => rfl
  have hwrites := hcount (fun r => !r.isRead) fun _ => rfl
  rw [← h.reads] at hreads
  rw [← h.writes] at hwrites
  refine ⟨⟨?_,?_,?_⟩,?_⟩
  · rw [hbase]
    refine hb.sane h.sane hsrc ?_ (by omega) ?_ nofun
    · rwa [append_nil,hab]
    · rw [hab,hnext]
      exact hlt
  · rw [hbase,hreads]
    cases type <;> rfl
  · rw [hbase,hwrites]
    cases type <;> rfl
  · obtain ⟨new,hnew,hyes,hno⟩ := hb.reports h.sane hsrc
    unfold Reports
    rw [hbase]
    refine ⟨new,hnew,hyes,fun i => (hno i).trans (iff_of_false not_mem_nil ?_)⟩
    rintro ⟨rfl,hall⟩
    rw [hbase,hb.requests] at hall
    have hmem : l.request type priority ∈ a++b := hab ▸ mem_append_right _ mem_cons_self
    rcases mem_append.mp hmem with hmem | hmem
    · exact hall _ (mem_append_left _ (mem_map_of_mem hmem)) rfl
    · exact hall _ (mem_append_right _ hmem) rfl

theorem Counted.die : let l' : WaitDieALock := {l.toALock.getNextId.refuse l.nextId with
      nRInQueue := l.nRInQueue, nWInQueue := l.nWInQueue}
    Counted l' ∧ Reports l l' (.vlock type priority) := by
  intro l'
  obtain ⟨g,w,hgw,hg,hw,hh,hset⟩ := h.sane.queue
  have hb : l.toALock.Becomes (l.toALock.getNextId.refuse l.nextId) g w [l.nextId] := by
    have hsame := (ALock.becomes_same (l:=l.toALock.getNextId) hg hw hh hset).refuse l.nextId
    rw [← hgw] at hsame
    exact hsame.congr rfl
  have hsrc : ∀ r ∈ g++w, r ∈ l.requests ∨ r.id = l.nextId ∧ r.locked = false :=
    fun r hr => .inl (hgw ▸ hr)
  refine ⟨⟨hb.sane h.sane hsrc ?_ (le_succ _) (fun r hr => ?_) fun i hi => ?_,h.reads,h.writes⟩,?_⟩
  · rw [← hgw]
    refine nodup_append.mpr ⟨h.sane.nodup,nodup_singleton _,fun i hi j hj => ?_⟩
    obtain ⟨r,hr,rfl⟩ := mem_map.mp hi
    have := h.sane.lt_nextId r hr
    rw [mem_singleton.mp hj]
    omega
  · exact (h.sane.lt_nextId r (hgw ▸ hr)).trans (lt_succ_self _)
  · rw [mem_singleton.mp hi]
    refine ⟨lt_succ_self _,fun hmem => ?_⟩
    obtain ⟨c,hc,heq⟩ := mem_map.mp hmem
    have := h.sane.called c hc
    omega
  · obtain ⟨new,hnew,hyes,hno⟩ := hb.reports h.sane hsrc
    refine ⟨new,hnew,hyes,fun i => (hno i).trans ?_⟩
    rw [mem_singleton]
    exact ⟨fun hi => ⟨hi,fun r hr hid => (h.sane.lt_nextId r hr).ne (hid.trans hi)⟩,And.left⟩

end Vlock

/-- `wait_die` for a read finds a write in the queue. -/
theorem waitDieRead_spec {p : Int64} {q : List LockReq} (h : ∃ r ∈ q, r.type = .wlock) :
    ∃ wait, waitDieRead p q = some wait := by
  induction q with
  | nil =>
    obtain ⟨r,hr,-⟩ := h
    cases hr
  | cons r rs ih =>
    unfold waitDieRead
    split_ifs with hr
    · exact ⟨_,rfl⟩
    · obtain ⟨x,hx,hw⟩ := h
      rcases mem_cons.mp hx with rfl | hx
      · exact absurd hw hr
      · exact ih ⟨x,hx,hw⟩

section Queue

variable {g w : List LockReq} (h : Counted l) (hgw : l.requests = g++w)
  (hh : Holders l.status l.nRlock g) (hset : Settled l.status w)
include h hgw hh hset

/-- Where a request gets the lock at once, nobody waits, and the lock is free or shared. -/
theorem Counted.vacant
    (hacq : l.status = .free ∨ l.status = .rlocked ∧ type = .rlock ∧ l.nWInQueue = 0) :
    w = [] ∧ (∀ r ∈ g, r.type = .rlock) ∧ l.nRlock = g.length ∧
      (l.nRlock = 0 ∨ l.status = .rlocked) ∧ (type = .wlock → g = []) := by
  rcases hh.inv with ⟨hs,hn,rfl⟩ | ⟨r,hs,-⟩ | ⟨hs,hn,hne,hgr⟩
  · exact ⟨hset.free hs,nofun,hn,.inl hn,fun _ => rfl⟩
  · simp [hs] at hacq
  · obtain ⟨-,ht,hzero⟩ := hacq.resolve_left (by simp [hs])
    refine ⟨?_,hgr,hn,.inr hs,fun hw => by simp [ht] at hw⟩
    rw [h.writes,hgw,countP_append,Nat.add_eq_zero_iff] at hzero
    cases w with
    | nil => rfl
    | cons q qs =>
      have hq := countP_eq_zero.mp hzero.2 q mem_cons_self
      simp [LockReq.isRead,hset.rlocked hs q rfl] at hq

theorem Counted.vlock_acquires (hg : ∀ r ∈ g, r.locked = true)
    (hacq : l.status = .free ∨ l.status = .rlocked ∧ type = .rlock ∧ l.nWInQueue = 0) :
    ∃ l', l.vlock type priority = some l' ∧ Counted l' ∧ Reports l l' (.vlock type priority) := by
  obtain ⟨rfl,hgr,hn,hst,hgnil⟩ := h.vacant hgw hh hset hacq
  rw [append_nil] at hgw
  have hreq : ∀ r ∈ [l.request type priority], r.locked = false := by simp [request]
  unfold WaitDieALock.vlock
  dsimp only
  rw [if_pos hacq]
  cases type with
  | rlock =>
    have htake : [l.request .rlock priority].takeWhile LockReq.isRead = [l.request .rlock priority] := rfl
    have hdrop : [l.request .rlock priority].dropWhile LockReq.isRead = [] := rfl
    obtain ⟨base,hbase,hnext,-,hb⟩ := ALock.readAcquire_spec
      (l:=l.toALock.getNextId) (w:=[l.request .rlock priority]) hg hreq hgr hn hst
      (by simp [htake])
    rw [htake,hdrop] at hbase hb
    rw [← hgw] at hbase
    rw [hbase]
    exact ⟨_,rfl,h.enqueue (hb.congr rfl) (by rw [hgw,append_nil]) hnext⟩
  | wlock =>
    obtain rfl := hgnil rfl
    obtain ⟨base,hbase,hnext,hb⟩ := ALock.writeAcquire_spec
      (l:=l.toALock.getNextId) (q:=l.request .wlock priority) rfl hreq hn
    have hacquire : l.toALock.getNextId.writeAcquire l.requests (l.request .wlock priority) [] =
        some base := by
      rw [hgw]
      exact hbase
    rw [hacquire]
    exact ⟨_,rfl,h.enqueue (hb.congr rfl) (by rw [hgw]; rfl) hnext⟩

variable (hacq : ¬(l.status = .free ∨ l.status = .rlocked ∧ type = .rlock ∧ l.nWInQueue = 0))
include hacq

omit hset in
theorem Counted.waitDie_isSome (prio : Int64) : ∃ wait, l.waitDie type prio = some wait := by
  cases type with
  | wlock => exact ⟨_,rfl⟩
  | rlock =>
    refine waitDieRead_spec ?_
    rcases hh.inv with ⟨hs,-⟩ | ⟨r,-,-,rfl,hr⟩ | ⟨hs,-,-,-⟩
    · exact absurd (.inl hs) hacq
    · exact ⟨r,by simp [hgw],hr⟩
    · have hpos : l.nWInQueue ≠ 0 := fun hz => hacq (.inr ⟨hs,rfl,hz⟩)
      rw [h.writes] at hpos
      obtain ⟨r,hr,hw⟩ := countP_pos_iff.mp (Nat.pos_of_ne_zero hpos)
      refine ⟨r,mem_reverse.mpr hr,?_⟩
      cases ht : r.type with
      | wlock => rfl
      | rlock => simp [LockReq.isRead,ht] at hw

variable (priority) in
theorem Counted.settled_wait : Settled l.status (w++[l.request type priority]) := by
  refine ⟨fun hf => absurd (.inl hf) hacq,fun hs => ?_⟩
  cases w with
  | cons q qs => exact hset.rlocked hs
  | nil =>
    rintro r ⟨⟩
    cases type with
    | wlock => rfl
    | rlock =>
      refine absurd (.inr ⟨hs,rfl,?_⟩) hacq
      rw [h.writes,hgw,append_nil]
      rcases hh.inv with ⟨hf,-⟩ | ⟨_,hf,-⟩ | ⟨-,-,-,hgr⟩
      · exact absurd (.inl hf) hacq
      · rw [hs] at hf
        cases hf
      · exact countP_eq_zero.mpr fun q hq => by simp [LockReq.isRead,hgr q hq]

end Queue

theorem Counted.vlock (h : Counted l) (type : LockType) (priority : UInt64) :
    ∃ l', l.vlock type priority = some l' ∧ Counted l' ∧ Reports l l' (.vlock type priority) := by
  obtain ⟨g,w,hgw,hg,hw,hh,hset⟩ := h.sane.queue
  by_cases hacq : l.status = .free ∨ l.status = .rlocked ∧ type = .rlock ∧ l.nWInQueue = 0
  · exact h.vlock_acquires hgw hh hset hg hacq
  obtain ⟨wait,hwait⟩ := h.waitDie_isSome hgw hh hacq (l.request type priority).priority
  unfold WaitDieALock.vlock
  dsimp only
  rw [if_neg hacq,hwait]
  refine ⟨_,rfl,?_⟩
  cases wait with
  | false => exact h.die
  | true =>
    have hw' : ∀ r ∈ w++[l.request type priority], r.locked = false := by
      intro r hr
      rcases mem_append.mp hr with hr | hr
      · exact hw r hr
      · rw [mem_singleton.mp hr]
        rfl
    have hb := ALock.becomes_same (l:=l.toALock.getNextId) hg hw' hh
      (h.settled_wait priority hgw hh hset hacq)
    rw [← append_assoc,← hgw] at hb
    exact h.enqueue (hb.congr rfl) (by rw [hgw,append_assoc]) rfl

theorem Counted.abort (h : Counted l) (i : ℕ) :
    ∃ l', l.abort i = some l' ∧ Counted l' ∧ Reports l l' (.abort i) := by
  obtain ⟨base,a,b,hbase,hnext,hab,hb⟩ := h.sane.abort i
  have hsub : (a++b).Sublist l.requests := hab ▸ filter_sublist
  have hsrc : ∀ r ∈ a++b, r ∈ l.requests ∨ r.id = l.nextId ∧ r.locked = false :=
    fun r hr => .inl (hsub.subset hr)
  have hsane : base.Sane := h.sane.becomes_abort hnext hab hb
  have hcount : ∀ f : LockReq → Bool, (∀ r, f r.grant = f r) →
      base.requests.countP f = (l.requests.filter fun r => r.id ≠ i).countP f := by
    intro f hf
    rw [hb.requests,countP_grant a b f hf,hab]
  have hreports : ∀ {l' : WaitDieALock}, l'.toALock = base → Reports l l' (.abort i) := by
    rintro l' rfl
    obtain ⟨new,hnew,hyes,hno⟩ := hb.reports h.sane hsrc
    refine ⟨new,hnew,hyes,fun j => (hno j).trans ?_⟩
    unfold Refuses
    split_ifs with hw
    · simp [hw]
    · simp [hw]
  unfold WaitDieALock.abort
  rw [hbase]
  refine ⟨_,rfl,?_⟩
  split
  next hfind =>
    have hall : ∀ r ∈ l.requests, r.id ≠ i := by simpa using hfind
    have hself : (l.requests.filter fun r => r.id ≠ i) = l.requests :=
      filter_eq_self.mpr fun r hr => by simpa using hall r hr
    rw [hself] at hcount
    exact ⟨⟨hsane,h.reads.trans (hcount _ fun _ => rfl).symm,
      h.writes.trans (hcount _ fun _ => rfl).symm⟩,hreports rfl⟩
  next r hfind =>
    have hbase' : (l.dequeued r.type base).toALock = base := by
      cases r.type <;> rfl
    have hid : r.id = i := by simpa using find?_some hfind
    obtain ⟨before,after,heq⟩ := append_of_mem (mem_of_find?_eq_some hfind)
    have hless : ∀ f : LockReq → Bool, (∀ r, f r.grant = f r) →
        l.requests.countP f = base.requests.countP f + if f r then 1 else 0 := by
      intro f hf
      rw [hcount f hf,← hid,ALock.filter_id h.sane.nodup heq,heq,countP_append,countP_cons,
        countP_append]
      omega
    have hreads := hless LockReq.isRead fun _ => rfl
    have hwrites := hless (fun r => !r.isRead) fun _ => rfl
    rw [← h.reads] at hreads
    rw [← h.writes] at hwrites
    refine ⟨⟨by rwa [hbase'],?_,?_⟩,hreports hbase'⟩
    · unfold dequeued
      cases ht : r.type with
      | rlock =>
        simp only [LockReq.isRead,ht,decide_true,if_true] at hreads
        exact Nat.sub_eq_of_eq_add hreads
      | wlock => simpa [LockReq.isRead,ht] using hreads
    · unfold dequeued
      cases ht : r.type with
      | rlock => simpa [LockReq.isRead,ht] using hwrites
      | wlock =>
        simp only [LockReq.isRead,ht,reduceCtorEq,decide_false,Bool.not_false,if_true] at hwrites
        exact Nat.sub_eq_of_eq_add hwrites

theorem Counted.step (h : Counted l) (c : WaitDieCall) :
    ∃ l', l.step c = some l' ∧ Counted l' ∧ Reports l l' c := by
  cases c with
  | vlock type priority => exact h.vlock type priority
  | abort id => exact h.abort id

theorem counted_of_reachable (h : Reachable system l) : Counted l := by
  obtain ⟨_,rfl,hrun⟩ := h
  refine hrun.invariant (fun s c t _ hs hst => ?_) Counted.empty
  obtain ⟨t',ht',hcounted,-⟩ := hs.step c
  cases ht'.symm.trans hst
  exact hcounted

theorem step_nextId (h : Counted l) {c : WaitDieCall} (hs : l.step c = some l') :
    l.nextId ≤ l'.nextId := by
  cases c with
  | vlock type priority =>
    simp only [WaitDieALock.step,WaitDieALock.vlock] at hs
    split_ifs at hs
    · obtain ⟨b,hb,rfl⟩ := Option.map_eq_some_iff.mp hs
      cases type with
      | rlock =>
        simp only [ALock.readAcquire,cons_ne_nil,if_false] at hb
        split_ifs at hb <;> cases hb <;> exact le_succ _
      | wlock =>
        simp only [ALock.writeAcquire] at hb
        split_ifs at hb
        cases hb
        exact le_succ _
    · obtain ⟨wait,-,rfl⟩ := Option.map_eq_some_iff.mp hs
      cases wait <;> cases type <;> exact le_succ _
  | abort id =>
    obtain ⟨b,hb,rfl⟩ := Option.map_eq_some_iff.mp hs
    obtain ⟨b',_,_,hb',hnext,-⟩ := h.sane.abort id
    cases hb'.symm.trans hb
    refine hnext.ge.trans_eq ?_
    split
    · rfl
    · rename_i r _
      cases r.type <;> rfl

theorem nextId_pos_of_reachable (h : Reachable system l) : 0 < l.nextId := by
  have hboth : Counted l ∧ 0 < l.nextId := by
    obtain ⟨_,rfl,hrun⟩ := h
    refine hrun.invariant (P:=fun s => Counted s ∧ 0 < s.nextId) (fun s c t _ hs hst => ?_)
      ⟨Counted.empty,Nat.one_pos⟩
    obtain ⟨t',ht',hcounted,-⟩ := hs.1.step c
    cases ht'.symm.trans hst
    exact ⟨hcounted,hs.2.trans_le (step_nextId hs.1 hst)⟩
  exact hboth.2

/-- The status and the counters describe the queue, and the next call returns; it calls back
exactly those whom it grants, lets die or aborts while they wait, and nobody is called twice. -/
theorem wait_die_correct (h : Reachable system l) : (l.status = .free ↔ l.requests = []) ∧
    (l.status = .wlocked ↔ ∃ r rest, l.requests = r::rest ∧ r.type = .wlock ∧ r.locked = true ∧
      ∀ q ∈ rest, q.locked = false) ∧
    (l.status = .rlocked ↔ ∃ g w, l.requests = g++w ∧ g ≠ [] ∧
      (∀ r ∈ g, r.type = .rlock ∧ r.locked = true) ∧ (∀ r ∈ w, r.locked = false) ∧
        ∀ r ∈ w.head?, r.type = .wlock) ∧
    l.nRlock = l.requests.countP (fun r => r.locked && r.isRead) ∧
    l.nRInQueue = l.requests.countP LockReq.isRead ∧
    l.nWInQueue = l.requests.countP (fun r => !r.isRead) ∧
    (l.calls.map Prod.fst).Nodup ∧
    ∀ c, ∃ l', l.step c = some l' ∧ Reports l l' c := by
  have hc := counted_of_reachable h
  refine ⟨hc.sane.free_iff,hc.sane.wlocked_iff,hc.sane.rlocked_iff,hc.sane.nRlock_eq,hc.reads,hc.writes,
    hc.sane.once,fun c => ?_⟩
  obtain ⟨l',hl',-,hrep⟩ := hc.step c
  exact ⟨l',hl',hrep⟩

def abortedWriter : WaitDieALock := after system (fun _ _ => True) {}
  [.vlock .rlock 9,.vlock .wlock 5,.vlock .rlock 3,.vlock .rlock 7,.abort 2,.abort 2]

theorem wait_die_correct_aborted : Reachable system abortedWriter ∧
    abortedWriter.requests = [⟨1,9,.rlock,true⟩,⟨3,3,.rlock,true⟩] ∧
    abortedWriter.calls = [(1,true),(4,false),(3,true),(2,false)] ∧
    abortedWriter.nRlock = abortedWriter.requests.countP fun r => r.locked && r.isRead := by
  have hrun : Reachable system abortedWriter := ⟨_,rfl,run_after _ _⟩
  exact ⟨hrun,by decide +kernel,by decide +kernel,(wait_die_correct hrun).2.2.2.1⟩

end WaitDieALock
end Janus.QueuedLock
