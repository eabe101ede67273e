import Janus.QueuedLock
import Janus.Transition

/-! `WoundDieALock` (`rrr/misc/alock.hpp`, `alock.cpp`). A new request wounds the requests in its
way that are not older: one that waits gets its no callback, one that holds the lock loses it
unless its wound callback, an argument of the call, refuses. The loop over a queue does not end
when a read meets an older request. -/

namespace Janus.QueuedLock

open Transition List

inductive Fault
  | verify
  | diverges
  deriving DecidableEq

abbrev WoundDieALock := ALock

namespace WoundDieALock

/-- `wound`: the lock, and whether the request is wounded (the result `0`). -/
def wound (woundCallback : ℕ → ℤ) (l : WoundDieALock) (r : LockReq) :
    Except Fault (WoundDieALock × Bool) :=
  if r.locked then
    if woundCallback r.id = 0 then
      match r.type with
      | .wlock => if l.status = .wlocked then .ok ({l with status := .free},true) else .error .verify
      | .rlock =>
        if l.status = .rlocked then
          .ok ({l with
            status := if l.nRlock-1 = 0 then .free else l.status
            nRlock := l.nRlock-1},true)
        else .error .verify
    else .ok (l,false)
  else if woundCallback r.id = 0 then .ok (l.refuse r.id,true)
  else .error .verify

/-- A request is wounded and erased, or stays in front of `kept`. -/
def tryWound (woundCallback : ℕ → ℤ) (l : WoundDieALock) (r : LockReq) (kept : List LockReq) :
    Except Fault (WoundDieALock × List LockReq) := do
  let (l,wounded) ← wound woundCallback l r
  .ok (l,if wounded then kept else r::kept)

/-- The loop of `wound_die` from the back of the queue: the lock and the requests that stay. -/
def woundDie (woundCallback : ℕ → ℤ) (type : LockType) (priority : Int64) :
    WoundDieALock → List LockReq → Except Fault (WoundDieALock × List LockReq)
  | l, [] => .ok (l,[])
  | l, r::rs => do
    let (l,kept) ← woundDie woundCallback type priority l rs
    match type with
    | .wlock => if priority ≤ r.priority then tryWound woundCallback l r kept else .ok (l,r::kept)
    | .rlock =>
      if r.priority < priority then .error .diverges
      else if r.type = .wlock then tryWound woundCallback l r kept
      else .ok (l,r::kept)

/-- The loop of `vlock` over a queue that is read locked: the requests that hold the lock, the
reads to let in and the rest. -/
def collect : Bool → List LockReq → Option (List LockReq × List LockReq × List LockReq)
  | _, [] => some ([],[],[])
  | newAcquired, r::rs =>
    if r.locked then
      if r.type = .rlock ∧ newAcquired = false then
        (collect newAcquired rs).map fun p => (r::p.1,p.2.1,p.2.2)
      else none
    else if r.type = .rlock then
      (collect true rs).map fun p => (p.1,r::p.2.1,p.2.2)
    else some ([],[],r::rs)

def enter (l : WoundDieALock) (front : LockReq) (rest : List LockReq) : Option WoundDieALock :=
  match l.status with
  | .free =>
    if front.type = .wlock then l.writeAcquire [] front rest
    else
      l.readAcquire [] ((front::rest).takeWhile LockReq.isRead)
        ((front::rest).dropWhile LockReq.isRead)
  | .rlocked =>
    if front.type = .rlock ∧ front.locked = true then
      (collect false (front::rest)).bind fun p => l.readAcquire p.1 p.2.1 p.2.2
    else none
  | .wlocked =>
    if front.type = .wlock ∧ front.locked = true then some {l with requests := front::rest}
    else none

def request (l : WoundDieALock) (type : LockType) (priority : UInt64) : LockReq :=
  {id := l.nextId, priority := priority.toInt64, type := type}

def vlock (l : WoundDieALock) (woundCallback : ℕ → ℤ) (type : LockType) (priority : UInt64) :
    Except Fault WoundDieALock := do
  let (l₁,kept) ← woundDie woundCallback type priority.toInt64 l.getNextId l.requests
  match kept++[request l type priority] with
  | [] => .error .verify
  | front::rest =>
    match enter l₁ front rest with
    | none => .error .verify
    | some l₂ => .ok l₂

end WoundDieALock

/-- The calls of a client, with the answers that the wound callbacks would give. -/
inductive WoundDieCall
  | vlock (woundCallback : ℕ → ℤ) (type : LockType) (priority : UInt64)
  | abort (id : ℕ)

namespace WoundDieALock

def call (l : WoundDieALock) : WoundDieCall → Except Fault WoundDieALock
  | .vlock woundCallback type priority => l.vlock woundCallback type priority
  | .abort id =>
    match l.abort id with
    | none => .error .verify
    | some l' => .ok l'

def system : System WoundDieALock WoundDieCall where
  init l := l = {}
  step l c := (l.call c).toOption

def Refusable (l : WoundDieALock) : WoundDieCall → Prop
  | .vlock woundCallback _ _ => ∀ r ∈ l.requests, r.locked = false → woundCallback r.id = 0
  | .abort _ => True

instance (l : WoundDieALock) (c : WoundDieCall) : Decidable (l.Refusable c) := by
  unfold Refusable
  split <;> infer_instance

def Victim (woundCallback : ℕ → ℤ) (type : LockType) (priority : Int64) (r : LockReq) : Bool :=
  (type = .wlock && decide (priority ≤ r.priority) || type = .rlock && r.type = .wlock) &&
    woundCallback r.id = 0

variable {l l' : WoundDieALock} {woundCallback : ℕ → ℤ} {type : LockType} {priority : Int64}
variable {pre q kept : List LockReq} {r : LockReq}

theorem wound_holder {post : List LockReq}
    (hh : Holders l.status l.nRlock (pre++r::post)) (hl : r.locked = true)
    (hcb : woundCallback r.id = 0) :
    ∃ l', wound woundCallback l r = .ok (l',true) ∧ l'.nextId = l.nextId ∧ l'.calls = l.calls ∧
      Holders l'.status l'.nRlock (pre++post) := by
  unfold wound
  rw [if_pos hl,if_pos hcb]
  rcases hh.inv with ⟨-,-,hnil⟩ | ⟨q,hs,hn,hq,hqw⟩ | ⟨hs,hn,-,hgr⟩
  · simp at hnil
  · have hparts : pre = [] ∧ r = q ∧ post = [] := by
      cases pre with
      | nil => simpa using hq
      | cons _ _ => simp at hq
    obtain ⟨rfl,rfl,rfl⟩ := hparts
    rw [hqw]
    refine ⟨_,if_pos hs,rfl,rfl,?_⟩
    simp only [hn]
    exact .free
  · rw [hgr r (by simp)]
    refine ⟨_,if_pos hs,rfl,rfl,?_⟩
    have hlen : l.nRlock-1 = (pre++post).length := by
      rw [hn]
      simp only [length_append,length_cons]
      omega
    rw [hlen,hs]
    split_ifs with hzero
    · rw [length_eq_zero_iff.mp (by exact_mod_cast hzero : (pre++post).length = 0)]
      exact .free
    · refine .rlocked (fun hnil => hzero (by rw [hnil]; rfl)) fun q hq => hgr q ?_
      simp only [mem_append,mem_cons] at hq ⊢
      tauto

def Refuses (woundCallback : ℕ → ℤ) (q : List LockReq) : Prop :=
  ∃ r ∈ q, r.locked = false ∧ woundCallback r.id ≠ 0

structure Wounds (woundCallback : ℕ → ℤ) (type : LockType) (priority : Int64)
    (l l' : WoundDieALock) (pre q kept : List LockReq) : Prop where
  stays : kept = q.filter fun r => !Victim woundCallback type priority r
  nextId : l'.nextId = l.nextId
  holders : Holders l'.status l'.nRlock (pre.filter LockReq.locked++kept.filter LockReq.locked)
  calls : ∃ new, l'.calls = l.calls++new ∧ new.Perm ((q.filter fun r =>
    Victim woundCallback type priority r && !r.locked).map fun r => (r.id,false))

section

variable (h : Wounds woundCallback type priority l l' (pre++[r]) q kept)
include h

theorem Wounds.keep
    (hv : Victim woundCallback type priority r = false) :
    Wounds woundCallback type priority l l' pre (r::q) (r::kept) := by
  obtain ⟨new,hnew,hperm⟩ := h.calls
  refine ⟨by rw [h.stays,filter_cons_of_pos (by simp [hv])],h.nextId,?_,new,hnew,?_⟩
  · have hh := h.holders
    rw [filter_append] at hh
    rw [show r::kept = [r]++kept from rfl,filter_append,← append_assoc]
    exact hh
  · rwa [filter_cons_of_neg (by simp [hv])]

theorem Wounds.wound
    (hv : Victim woundCallback type priority r = true) :
    ∃ l'', WoundDieALock.wound woundCallback l' r = .ok (l'',true) ∧
      Wounds woundCallback type priority l l'' pre (r::q) kept := by
  have hcb : woundCallback r.id = 0 := by
    simp only [Victim,Bool.and_eq_true,decide_eq_true_eq] at hv
    exact hv.2
  have hkept : kept = (r::q).filter fun r => !Victim woundCallback type priority r := by
    rw [h.stays,filter_cons_of_neg (by simp [hv])]
  obtain ⟨new,hnew,hperm⟩ := h.calls
  have hh := h.holders
  by_cases hl : r.locked = true
  · rw [filter_append,filter_cons_of_pos hl,filter_nil,append_assoc] at hh
    obtain ⟨l'',hw,hnext,hcalls,hh'⟩ := wound_holder hh hl hcb
    refine ⟨l'',hw,hkept,hnext.trans h.nextId,hh',new,hcalls.trans hnew,?_⟩
    rwa [filter_cons_of_neg (by simp [hl])]
  · rw [filter_append,filter_cons_of_neg hl,filter_nil,append_nil] at hh
    refine ⟨l'.refuse r.id,?_,hkept,h.nextId,hh,new++[(r.id,false)],?_,?_⟩
    · unfold WoundDieALock.wound
      rw [if_neg hl,if_pos hcb]
    · change l'.calls++_ = _
      rw [hnew,append_assoc]
    · rw [filter_cons_of_pos (by simp [hv,hl])]
      exact (perm_append_singleton _ _).trans (hperm.cons _)

theorem Wounds.tried
    (htry : Victim woundCallback type priority r = decide (woundCallback r.id = 0)) :
    (tryWound woundCallback l' r kept = .error .verify ∧ Refuses woundCallback (r::q)) ∨
    ∃ l'' kept', tryWound woundCallback l' r kept = .ok (l'',kept') ∧
      Wounds woundCallback type priority l l'' pre (r::q) kept' := by
  unfold tryWound
  by_cases hzero : woundCallback r.id = 0
  · obtain ⟨l'',hw,hwounds⟩ := h.wound (htry.trans (decide_eq_true hzero))
    rw [hw]
    exact .inr ⟨l'',kept,rfl,hwounds⟩
  · cases hl : r.locked with
    | true =>
      have hw : WoundDieALock.wound woundCallback l' r = .ok (l',false) := by
        unfold WoundDieALock.wound
        rw [if_pos hl,if_neg hzero]
      rw [hw]
      exact .inr ⟨l',r::kept,rfl,h.keep (htry.trans (decide_eq_false hzero))⟩
    | false =>
      have hw : WoundDieALock.wound woundCallback l' r = .error .verify := by
        unfold WoundDieALock.wound
        rw [if_neg (by simp [hl]),if_neg hzero]
      rw [hw]
      exact .inl ⟨rfl,r,mem_cons_self,hl,hzero⟩

end

variable (l type priority) in
theorem woundDie_spec (q pre : List LockReq)
    (hh : Holders l.status l.nRlock ((pre++q).filter LockReq.locked)) :
    (∃ f, woundDie woundCallback type priority l q = .error f ∧
      (f = .verify → Refuses woundCallback q)) ∨
    ∃ l' kept, woundDie woundCallback type priority l q = .ok (l',kept) ∧
      Wounds woundCallback type priority l l' pre q kept := by
  induction q generalizing pre with
  | nil =>
    refine .inr ⟨l,[],rfl,rfl,rfl,?_,[],(append_nil _).symm,List.Perm.nil⟩
    simpa using hh
  | cons r q ih =>
    have hassoc : pre++r::q = pre++[r]++q := by simp
    unfold woundDie
    rcases ih (pre++[r]) (hassoc ▸ hh) with ⟨f,hf,hwhy⟩ | ⟨l',kept,hok,hw⟩
    · rw [hf]
      refine .inl ⟨f,rfl,fun hv => ?_⟩
      obtain ⟨x,hx,hwait⟩ := hwhy hv
      exact ⟨x,mem_cons_of_mem _ hx,hwait⟩
    rw [hok]
    have htried : Victim woundCallback type priority r = decide (woundCallback r.id = 0) →
        (∃ f, tryWound woundCallback l' r kept = .error f ∧
          (f = .verify → Refuses woundCallback (r::q))) ∨
        ∃ l'' kept', tryWound woundCallback l' r kept = .ok (l'',kept') ∧
          Wounds woundCallback type priority l l'' pre (r::q) kept' :=
      fun htry => (hw.tried htry).imp_left fun ⟨hf,hno⟩ => ⟨.verify,hf,fun _ => hno⟩
    cases type with
    | wlock =>
      change (∃ _, (if priority ≤ r.priority then _ else _) = _ ∧ _) ∨
        ∃ _ _, (if priority ≤ r.priority then _ else _) = _ ∧ _
      split_ifs with hp
      · exact htried (by simp [Victim,hp])
      · exact .inr ⟨l',r::kept,rfl,hw.keep (by simp [Victim,hp])⟩
    | rlock =>
      change (∃ _, (if r.priority < priority then _ else if r.type = .wlock then _ else _) = _ ∧ _) ∨
        ∃ _ _, (if r.priority < priority then _ else if r.type = .wlock then _ else _) = _ ∧ _
      split_ifs with hp ht
      · exact .inl ⟨.diverges,rfl,nofun⟩
      · exact htried (by simp [Victim,ht])
      · exact .inr ⟨l',r::kept,rfl,hw.keep (by simp [Victim,ht])⟩

/-- The granted reads, the waiting reads in front, and the rest. -/
theorem collect_spec {g w : List LockReq} (hg : ∀ r ∈ g, r.locked = true ∧ r.type = .rlock)
    (hw : ∀ r ∈ w, r.locked = false) :
    collect false (g++w) = some (g,w.takeWhile LockReq.isRead,w.dropWhile LockReq.isRead) := by
  have hwait : ∀ {w : List LockReq} (newAcquired : Bool), (∀ r ∈ w, r.locked = false) →
      collect newAcquired w = some ([],w.takeWhile LockReq.isRead,w.dropWhile LockReq.isRead) := by
    intro w
    induction w with
    | nil => exact fun _ _ => rfl
    | cons r rs ih =>
      intro newAcquired hw
      have hrs := ih true fun x hx => hw x (mem_cons_of_mem _ hx)
      unfold collect
      rw [if_neg (by simp [hw r mem_cons_self]),hrs]
      cases ht : r.type with
      | rlock | wlock => simp [LockReq.isRead,ht]
  induction g with
  | nil => exact hwait false hw
  | cons r rs ih =>
    obtain ⟨hl,ht⟩ := hg r mem_cons_self
    rw [cons_append]
    unfold collect
    rw [if_pos hl,if_pos ⟨ht,rfl⟩,ih fun x hx => hg x (mem_cons_of_mem _ hx)]
    rfl

theorem enter_spec {g w rest : List LockReq} {front : LockReq} (heq : g++w = front::rest)
    (hg : ∀ r ∈ g, r.locked = true) (hw : ∀ r ∈ w, r.locked = false)
    (hh : Holders l.status l.nRlock g) (hne : w ≠ []) :
    ∃ l' a b, enter l front rest = some l' ∧ l'.nextId = l.nextId ∧ a++b = front::rest ∧
      ALock.Becomes l l' a b [] := by
  unfold enter
  rcases hh.inv with ⟨hs,hn,rfl⟩ | ⟨q,hs,hn,rfl,hq⟩ | ⟨hs,hn,hgne,hgr⟩
  · subst heq
    rw [hs]
    dsimp only
    split_ifs with ht
    · obtain ⟨l',hl',hnext,hb⟩ := ALock.writeAcquire_spec ht hw hn
      exact ⟨l',[front],rest,hl',hnext,rfl,hb⟩
    · have hread : front.isRead = true := by
        cases hf : front.type with
        | rlock => simp [LockReq.isRead,hf]
        | wlock => exact absurd hf ht
      obtain ⟨l',hl',hnext,-,hb⟩ := ALock.readAcquire_spec (g:=[]) (by simp) hw (by simp) hn (.inl hn)
        (by simp [hread])
      exact ⟨l',_,_,hl',hnext,takeWhile_append_dropWhile,hb⟩
  · obtain ⟨rfl,rfl⟩ := List.cons.inj heq
    rw [hs]
    refine ⟨_,[q],w,if_pos ⟨hq,hg q mem_cons_self⟩,rfl,rfl,?_⟩
    have hb := ALock.becomes_same hg hw hh
      ⟨fun hf => by simp [hs] at hf,fun hf => by simp [hs] at hf⟩
    rwa [hs] at hb
  · have hfront : front ∈ g := by
      cases g with
      | nil => exact absurd rfl hgne
      | cons x xs =>
        rw [← (List.cons.inj heq).1]
        exact mem_cons_self
    obtain ⟨l',hl',hnext,-,hb⟩ := ALock.readAcquire_spec hg hw hgr hn (.inr hs) (by simp [hgne])
    rw [hs]
    refine ⟨l',_,_,?_,hnext,?_,hb⟩
    · dsimp only
      rw [if_pos ⟨hgr front hfront,hg front hfront⟩,← heq,
        collect_spec (fun r hr => ⟨hg r hr,hgr r hr⟩) hw]
      exact hl'
    · rw [append_assoc,takeWhile_append_dropWhile,heq]

/-- The new request goes behind those that are not wounded. -/
theorem vlock_becomes (h : ALock.Sane l) (type : LockType) (priority : UInt64) :
    let victim := Victim woundCallback type priority.toInt64
    (∃ f, vlock l woundCallback type priority = .error f ∧
      (f = .verify → Refuses woundCallback l.requests)) ∨
    ∃ l' a b, vlock l woundCallback type priority = .ok l' ∧ l'.nextId = l.nextId+1 ∧
      a++b = l.requests.filter (fun r => !victim r)++[request l type priority] ∧
      ALock.Becomes l l' a b ((l.requests.filter fun r => victim r && !r.locked).map LockReq.id) := by
  intro victim
  obtain ⟨g,w,hgw,hg,hw,hh,-⟩ := h.queue
  unfold vlock
  rcases woundDie_spec l.getNextId type priority.toInt64 l.requests [] (by
      rw [nil_append,hgw,ALock.filter_locked hg hw]
      exact hh) with ⟨f,hf,hwhy⟩ | ⟨l₁,kept,hok,hwounds⟩
  · rw [hf]
    exact .inl ⟨f,rfl,hwhy⟩
  rw [hok]
  have hstays := hwounds.stays
  set stays := fun r => !victim r
  set new := request l type priority
  have hkept : kept = g.filter stays++w.filter stays := by
    rw [hstays,hgw,filter_append]
  have hg' : ∀ r ∈ g.filter stays, r.locked = true := fun r hr => hg r (mem_filter.mp hr).1
  have hw' : ∀ r ∈ w.filter stays, r.locked = false := fun r hr => hw r (mem_filter.mp hr).1
  have hreq : ∀ r ∈ w.filter stays++[new], r.locked = false := by
    intro r hr
    rcases mem_append.mp hr with hr | hr
    · exact hw' r hr
    · rw [mem_singleton.mp hr]
      rfl
  have hh' : Holders l₁.status l₁.nRlock (g.filter stays) := by
    have hh₁ := hwounds.holders
    rwa [filter_nil,nil_append,hkept,ALock.filter_locked hg' hw'] at hh₁
  rcases hq : kept++[new] with _ | ⟨front,rest⟩
  · simp at hq
  obtain ⟨l₂,a,b,henter,hnext,hab,hb⟩ := enter_spec (l:=l₁)
    (by rw [← hq,hkept,append_assoc]) hg' hreq hh' (by simp)
  rw [← hq,hstays] at hab
  refine .inr ⟨l₂,a,b,?_,hnext.trans hwounds.nextId,hab,?_⟩
  · change (match kept++[new] with | [] => _ | front::rest => _) = _
    rw [hq]
    dsimp only
    rw [henter]
  -- the callbacks of `wound_die` and those of the `switch`
  obtain ⟨no,hno,hnoperm⟩ := hwounds.calls
  obtain ⟨yes,hyes,hyesperm⟩ := hb.calls
  refine ⟨hb.requests,hb.waits,hb.holders,hb.settled,no++yes,?_,?_⟩
  · rw [hyes,hno,append_assoc]
    rfl
  · rw [map_nil,append_nil] at hyesperm
    refine (hnoperm.append hyesperm).trans (perm_append_comm.trans (List.Perm.of_eq ?_))
    rw [List.map_map]
    rfl

section Entered

variable {a b : List LockReq} {p : LockReq → Bool} {new : LockReq} (h : ALock.Sane l)
  (hnew : new.id = l.nextId ∧ new.locked = false)
  (hab : a++b = l.requests.filter (fun r => !p r)++[new])
include hab

theorem mem_entered : ∀ r ∈ a++b, r ∈ l.requests ∧ p r = false ∨ r = new := by
  intro r hr
  rw [hab] at hr
  refine (mem_append.mp hr).imp (fun hr => ?_) mem_singleton.mp
  exact ⟨(mem_filter.mp hr).1,by simpa using (mem_filter.mp hr).2⟩

include h hnew

theorem entered_nodup :
    ((a++b).map LockReq.id++(l.requests.filter fun r => p r && !r.locked).map LockReq.id).Nodup := by
  rw [hab,map_append]
  have hlt : ∀ {q : LockReq → Bool}, ∀ i ∈ (l.requests.filter q).map LockReq.id, i < l.nextId := by
    intro q i hi
    obtain ⟨r,hr,rfl⟩ := mem_map.mp hi
    exact h.lt_nextId r (mem_filter.mp hr).1
  have hsub : ∀ q : LockReq → Bool, ((l.requests.filter q).map LockReq.id).Nodup := fun q =>
    h.nodup.sublist (filter_sublist.map _)
  refine nodup_append.mpr ⟨nodup_append.mpr ⟨hsub _,nodup_singleton _,?_⟩,hsub _,?_⟩
  · intro i hi j hj
    rw [map_singleton,mem_singleton,hnew.1] at hj
    exact hj ▸ (hlt i hi).ne
  · intro i hi j hj heq
    rcases mem_append.mp hi with hi | hi
    · obtain ⟨r,hr,hid⟩ := mem_map.mp hi
      obtain ⟨q,hq,hid'⟩ := mem_map.mp hj
      obtain ⟨hq,hv⟩ := mem_filter.mp hq
      obtain ⟨hr,hstay⟩ := mem_filter.mp hr
      obtain rfl := inj_on_of_nodup_map h.nodup hr hq (hid.trans (heq.trans hid'.symm))
      simp_all
    · rw [map_singleton,mem_singleton,hnew.1] at hi
      exact (hlt j hj).ne (heq.symm.trans hi)

theorem entered_sane (hnext : l'.nextId = l.nextId+1) (hb : ALock.Becomes l l' a b
    ((l.requests.filter fun r => p r && !r.locked).map LockReq.id)) : ALock.Sane l' := by
  have hmem := mem_entered hab
  refine hb.sane h (fun r hr => ?_) (entered_nodup h hnew hab) (by omega) (fun r hr => ?_)
    fun i hi => ?_
  · rcases hmem r hr with hr | rfl
    · exact .inl hr.1
    · exact .inr hnew
  · rw [hnext]
    rcases hmem r hr with hr | rfl
    · exact (h.lt_nextId r hr.1).trans (Nat.lt_succ_self _)
    · omega
  · obtain ⟨q,hq,rfl⟩ := mem_map.mp hi
    obtain ⟨hq,hv⟩ := mem_filter.mp hq
    have hlt := h.lt_nextId q hq
    exact ⟨by omega,h.waiting q hq (by simpa using (Bool.and_eq_true_iff.mp hv).2)⟩

end Entered

structure Entered (victim : LockReq → Bool) (type : LockType) (l l' : WoundDieALock) : Prop where
  sane : ALock.Sane l'
  nextId : l'.nextId = l.nextId+1
  stays : ∀ r ∈ l.requests, victim r = false →
    ∃ q ∈ l'.requests, q.id = r.id ∧ (r.locked = true → q = r)
  source : ∀ r ∈ l'.requests, r.id = l.nextId ∧ r.type = type ∨
    ∃ q ∈ l.requests, q.id = r.id ∧ q.type = r.type ∧ victim q = false

variable (woundCallback) in
theorem vlock_spec (h : ALock.Sane l) (type : LockType) (priority : UInt64) :
    (∃ f, vlock l woundCallback type priority = .error f ∧
      (f = .verify → Refuses woundCallback l.requests)) ∨
    ∃ l', vlock l woundCallback type priority = .ok l' ∧
      Entered (Victim woundCallback type priority.toInt64) type l l' := by
  refine (vlock_becomes h type priority).imp_right fun ⟨l',a,b,hl',hnext,hab,hb⟩ => ?_
  refine ⟨l',hl',entered_sane h ⟨rfl,rfl⟩ hab hnext hb,hnext,fun r hr hv => hb.stays ?_,
    fun r hr => ?_⟩
  · rw [hab]
    exact mem_append_left _ (mem_filter.mpr ⟨hr,by simpa using hv⟩)
  · obtain ⟨q,hq,hid,ht⟩ := hb.source hr
    rcases mem_entered hab q hq with ⟨hq,hv⟩ | rfl
    · exact .inr ⟨q,hq,hid,ht,hv⟩
    · exact .inl ⟨hid.symm,ht.symm⟩

theorem Entered.holder {victim : LockReq → Bool} (hin : Entered victim type l l') (h : ALock.Sane l)
    (hr : r ∈ l.requests) (hl : r.locked = true) :
    r.id ∉ l'.requests.map LockReq.id ∨ r ∈ l'.requests := by
  by_contra hno
  push Not at hno
  obtain ⟨q,hq,hid⟩ := mem_map.mp hno.1
  rcases hin.source q hq with ⟨hnew,-⟩ | ⟨q',hq',hid',-,hv⟩
  · have := h.lt_nextId r hr
    omega
  · obtain rfl := inj_on_of_nodup_map h.nodup hq' hr (hid'.trans hid)
    obtain ⟨q'',hq'',-,heq⟩ := hin.stays q' hr hv
    exact hno.2 (heq hl ▸ hq'')

theorem call_spec (h : ALock.Sane l) {c : WoundDieCall} (hc : Refusable l c) :
    call l c = .error .diverges ∨
      ∃ l', call l c = .ok l' ∧ ALock.Sane l' ∧ l.nextId ≤ l'.nextId := by
  cases c with
  | vlock woundCallback type priority =>
    rcases vlock_spec woundCallback h type priority with ⟨f,hf,hwhy⟩ | ⟨l',hl',hin⟩
    · cases f with
      | diverges => exact .inl hf
      | verify =>
        obtain ⟨r,hr,hwait,hne⟩ := hwhy rfl
        exact absurd (hc r hr hwait) hne
    · exact .inr ⟨l',hl',hin.sane,hin.nextId ▸ Nat.le_succ _⟩
  | abort id =>
    obtain ⟨l',a,b,hl',hnext,hab,hb⟩ := h.abort id
    refine .inr ⟨l',?_,h.becomes_abort hnext hab hb,hnext.ge⟩
    change (match ALock.abort l id with | none => _ | some l' => _) = _
    rw [hl']

theorem sane_and_nextId_of_reachable (h : ReachableBy system Refusable l) :
    ALock.Sane l ∧ 0 < l.nextId := by
  obtain ⟨_,rfl,hrun⟩ := h
  refine hrun.invariant (P:=fun s => ALock.Sane s ∧ 0 < s.nextId) (fun s c t hok hs hst => ?_)
    ⟨ALock.Sane.empty,Nat.one_pos⟩
  change (call s c).toOption = some t at hst
  rcases call_spec hs.1 hok with hdiv | ⟨t',ht',hsane,hnext⟩
  · rw [hdiv] at hst
    cases hst
  · rw [ht'] at hst
    cases hst
    exact ⟨hsane,hs.2.trans_le hnext⟩

theorem sane_of_reachable (h : ReachableBy system Refusable l) : ALock.Sane l :=
  (sane_and_nextId_of_reachable h).1

/-- Granted requests are in front of the others, a granted write is alone, a free lock has no
queue, no request has had both callbacks, and the next call does not fail, in all runs of calls
that return. -/
theorem wound_wait_correct (h : ReachableBy system Refusable l) :
    (∃ g w, l.requests = g++w ∧ (∀ r ∈ g, r.locked = true) ∧ (∀ r ∈ w, r.locked = false) ∧
      ∀ r ∈ g, r.type = .wlock → g = [r]) ∧
    (l.status = .free ↔ l.requests = []) ∧
    l.nRlock = l.requests.countP (fun r => r.locked && r.isRead) ∧
    (l.calls.map Prod.fst).Nodup ∧
    ∀ c, Refusable l c → call l c ≠ .error .verify := by
  have hs := sane_of_reachable h
  refine ⟨?_,hs.free_iff,hs.nRlock_eq,hs.once,fun c hc => ?_⟩
  · obtain ⟨g,w,hgw,hg,hw,hh,-⟩ := hs.queue
    refine ⟨g,w,hgw,hg,hw,fun r hr ht => ?_⟩
    rcases hh.inv with ⟨-,-,rfl⟩ | ⟨q,-,-,rfl,-⟩ | ⟨-,-,-,hgr⟩
    · cases hr
    · rw [mem_singleton.mp hr]
    · rw [hgr r hr] at ht
      cases ht
  · rcases call_spec hs hc with hdiv | ⟨l',hl',-⟩
    · rw [hdiv]
      nofun
    · rw [hl']
      nofun

def refusedWound : WoundDieALock := after system Refusable {}
  [.vlock (fun _ => 0) .rlock 9,.vlock (fun i => if i = 1 then 1 else 0) .wlock 7,
    .vlock (fun _ => 0) .rlock 6,.abort 1]

theorem wound_wait_correct_refused : ReachableBy system Refusable refusedWound ∧
    refusedWound.requests = [⟨3,6,.rlock,true⟩] ∧
    refusedWound.calls = [(1,true),(2,false),(3,true)] ∧
    refusedWound.nRlock = refusedWound.requests.countP fun r => r.locked && r.isRead := by
  have hrun : ReachableBy system Refusable refusedWound := ⟨_,rfl,run_after _ _⟩
  exact ⟨hrun,by decide +kernel,by decide +kernel,(wound_wait_correct hrun).2.2.1⟩

end WoundDieALock
end Janus.QueuedLock
