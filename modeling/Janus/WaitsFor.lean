import Janus.WaitDieLock

/-! The locks of a server that are used by many transactions (`WaitDieALock` in
`rrr/misc/alock.cpp`), each with one priority. A request that waits is older than every request in
its way, so that no transactions wait in a circle. -/

namespace Janus.QueuedLock

open Transition Relation List WaitDieALock Option Function

def Conflict (q r : LockReq) : Prop := q.type = .wlock ∨ r.type = .wlock

instance (q r : LockReq) : Decidable (Conflict q r) := by
  unfold Conflict
  infer_instance

def Aged (q : List LockReq) : Prop := q.Pairwise fun a b => Conflict a b → b.priority < a.priority

theorem Aged.grant {a b : List LockReq} (h : Aged (a++b)) : Aged (a.map LockReq.grant++b) := by
  obtain ⟨ha,hb,hab⟩ := pairwise_append.mp h
  refine pairwise_append.mpr ⟨pairwise_map.mpr ha,hb,fun x hx y hy => ?_⟩
  obtain ⟨r,hr,rfl⟩ := mem_map.mp hx
  exact hab r hr y hy

variable {q : List LockReq} {r : LockReq} {priority : Int64}

theorem Aged.concat (h : Aged q)
    (hr : ∀ x ∈ q, Conflict x r → r.priority < x.priority) : Aged (q++[r]) := by
  refine pairwise_append.mpr ⟨h,pairwise_singleton _ _,fun x hx y hy => ?_⟩
  obtain rfl := mem_singleton.mp hy
  exact hr x hx

theorem Aged.older {x : LockReq} (h : Aged (q++[r])) (hr : r.type = .wlock)
    (hx : x ∈ q) : r.priority < x.priority :=
  (pairwise_append.mp h).2.2 x hx r mem_cons_self (.inr hr)

theorem Aged.of_waitDieWrite (h : Aged q)
    (hw : waitDieWrite priority q.reverse = true) : ∀ x ∈ q, priority < x.priority := by
  -- the loop stops at the last write, which is older than the rest
  induction q using reverseRecOn with
  | nil => exact nofun
  | append_singleton q r ih =>
    rw [reverse_append,reverse_singleton,singleton_append] at hw
    unfold waitDieWrite at hw
    split_ifs at hw with hp ht
    · intro x hx
      have hr : priority < r.priority := Int64.not_le.mp hp
      rcases mem_append.mp hx with hx | hx
      · exact Int64.lt_trans hr (h.older ht hx)
      · rwa [mem_singleton.mp hx]
    · intro x hx
      rcases mem_append.mp hx with hx | hx
      · exact ih (pairwise_append.mp h).1 hw x hx
      · rw [mem_singleton.mp hx]
        exact Int64.not_le.mp hp

theorem Aged.of_waitDieRead (h : Aged q) (hw : waitDieRead priority q.reverse = some true) :
    ∀ x ∈ q, x.type = .wlock → priority < x.priority := by
  induction q using reverseRecOn with
  | nil => exact nofun
  | append_singleton q r ih =>
    rw [reverse_append,reverse_singleton,singleton_append] at hw
    unfold waitDieRead at hw
    split_ifs at hw with ht
    · intro x hx hxw
      have hr : priority < r.priority := by simpa using hw
      rcases mem_append.mp hx with hx | hx
      · exact Int64.lt_trans hr (h.older ht hx)
      · rwa [mem_singleton.mp hx]
    · intro x hx hxw
      rcases mem_append.mp hx with hx | hx
      · exact ih (pairwise_append.mp h).1 hw x hx hxw
      · rw [mem_singleton.mp hx] at hxw
        exact absurd hxw ht

namespace WaitDieALock

variable {l l' : WaitDieALock} {type : LockType} {priority : UInt64} {i : ℕ}

theorem vlock_requests (hc : Counted l) (h : Aged l.requests)
    (hv : l.vlock type priority = some l') :
    l'.requests = l.requests ∨
    ∃ r : LockReq, l'.requests = l.requests++[r] ∧ r.id = l.nextId ∧ r.type = type ∧
      r.priority = priority.toInt64 ∧ ∀ x ∈ l.requests, Conflict x r → r.priority < x.priority := by
  unfold vlock at hv
  split_ifs at hv with hacq
  · -- nobody in the queue excludes a request that is granted at once
    have hnone : ∀ x ∈ l.requests, ¬(x.type = .wlock ∨ type = .wlock) := by
      intro x hx hxt
      rcases hacq with hfree | ⟨-,rfl,hzero⟩
      · rw [hc.sane.free_iff.mp hfree] at hx
        cases hx
      · rw [hc.writes] at hzero
        have hread : x.type = .rlock := by
          simpa [LockReq.isRead] using countP_eq_zero.mp hzero x hx
        simp [hread] at hxt
    obtain ⟨base,hbase,rfl⟩ := map_eq_some_iff.mp hv
    refine .inr ⟨(l.request type priority).grant,?_,rfl,rfl,rfl,fun x hx hxr => absurd hxr (hnone x hx)⟩
    cases type with
    | rlock =>
      cases hbase
      simp [enqueued,request]
    | wlock =>
      cases hbase
      rfl
  · obtain ⟨wait,hwait,rfl⟩ := map_eq_some_iff.mp hv
    cases wait with
    | false => exact .inl rfl
    | true =>
      refine .inr ⟨l.request type priority,by cases type <;> rfl,rfl,rfl,rfl,fun x hx hxr => ?_⟩
      cases type with
      | wlock => exact h.of_waitDieWrite (some.inj hwait) x hx
      | rlock => exact h.of_waitDieRead hwait x hx (hxr.resolve_right (by rintro ⟨⟩))

theorem Aged.vlock (hc : Counted l) (h : Aged l.requests)
    (hv : l.vlock type priority = some l') : Aged l'.requests := by
  rcases vlock_requests hc h hv with hsame | ⟨r,hr,-,-,-,hold⟩
  · rwa [hsame]
  · rw [hr]
    exact h.concat hold

theorem abort_requests (hc : Counted l) (ha : l.abort i = some l') :
    ∃ a b, l'.requests = a.map LockReq.grant++b ∧ (a++b).Sublist l.requests := by
  obtain ⟨base,a,b,hbase,-,hab,hb⟩ := hc.sane.abort i
  unfold abort at ha
  rw [hbase] at ha
  refine ⟨a,b,?_,hab ▸ filter_sublist⟩
  cases ha
  rw [← hb.requests]
  split
  · rfl
  · unfold dequeued
    split <;> rfl

theorem Aged.abort (hc : Counted l) (h : Aged l.requests) (ha : l.abort i = some l') :
    Aged l'.requests := by
  obtain ⟨a,b,hreq,hsub⟩ := abort_requests hc ha
  rw [hreq]
  exact Aged.grant (List.Pairwise.sublist hsub h)

end WaitDieALock

/-- The locks `ι` of a server, and the transaction that made the request of a lock with an id. -/
structure Locks (ι τ : Type) where
  lock : ι → WaitDieALock := fun _ => {}
  owner : ι → ℕ → Option τ := fun _ _ => none

inductive LocksCall (ι τ : Type)
  | vlock (i : ι) (t : τ) (type : LockType)
  | abort (i : ι) (id : ℕ)

namespace Locks

variable {ι τ : Type}

section Steps

variable [DecidableEq ι]

def step (priority : τ → UInt64) (s : Locks ι τ) : LocksCall ι τ → Option (Locks ι τ)
  | .vlock i t type =>
    ((s.lock i).vlock type (priority t)).map fun l =>
      {lock := Function.update s.lock i l
       owner := Function.update s.owner i (Function.update (s.owner i) (s.lock i).nextId (some t))}
  | .abort i id =>
    ((s.lock i).abort id).map fun l => {s with lock := Function.update s.lock i l}

def system (priority : τ → UInt64) : System (Locks ι τ) (LocksCall ι τ) where
  init s := s = {}
  step := step priority

end Steps

/-- A request of `t` waits behind a request of `u` that excludes it. -/
def WaitsFor (s : Locks ι τ) (t u : τ) : Prop :=
  ∃ i before r after q, (s.lock i).requests = before++r::after ∧ r.locked = false ∧
    q ∈ before ∧ Conflict q r ∧ s.owner i r.id = some t ∧ s.owner i q.id = some u

/-- The queue of each lock is in order, and its requests have the priorities of their owners. -/
structure Inv (priority : τ → UInt64) (s : Locks ι τ) : Prop where
  counted : ∀ i, (s.lock i).Counted
  aged : ∀ i, Aged (s.lock i).requests
  owned : ∀ i, ∀ r ∈ (s.lock i).requests,
    ∃ t, s.owner i r.id = some t ∧ r.priority = (priority t).toInt64

variable {priority : τ → UInt64} {s s' : Locks ι τ}

theorem Inv.init : Inv priority ({} : Locks ι τ) where
  counted _ := WaitDieALock.Counted.empty
  aged _ := List.Pairwise.nil
  owned _ := nofun

theorem Inv.older (h : Inv priority s) {i : ι} {before after : List LockReq} {r q : LockReq}
    (heq : (s.lock i).requests = before++r::after) (hq : q ∈ before) (hc : Conflict q r) :
    r.priority < q.priority := by
  have haged := h.aged i
  rw [heq] at haged
  exact (pairwise_append.mp haged).2.2 q hq r mem_cons_self hc

theorem Inv.waitsFor (h : Inv priority s) {t u : τ} (hw : s.WaitsFor t u) :
    (priority t).toInt64 < (priority u).toInt64 := by
  obtain ⟨i,before,r,after,q,heq,-,hq,hc,ht,hu⟩ := hw
  obtain ⟨t',ht',hrp⟩ := h.owned i r (heq ▸ mem_append_right _ mem_cons_self)
  obtain ⟨u',hu',hqp⟩ := h.owned i q (heq ▸ mem_append_left _ hq)
  obtain rfl := some.inj (ht'.symm.trans ht)
  obtain rfl := some.inj (hu'.symm.trans hu)
  rw [← hrp,← hqp]
  exact h.older heq hq hc

/-- Who waits has a request in front that excludes it. -/
theorem Inv.blocked (h : Inv priority s) {i : ι} {r : LockReq} {t : τ}
    (hr : r ∈ (s.lock i).requests) (hw : r.locked = false) (ht : s.owner i r.id = some t) :
    ∃ u, s.WaitsFor t u := by
  obtain ⟨g,w,hreq,hg,-,hh,hs⟩ := (h.counted i).sane.queue
  have hrw : r ∈ w := by grind
  obtain ⟨w₁,w₂,rfl⟩ := append_of_mem hrw
  have hq : ∃ q ∈ g++w₁, Conflict q r := by
    rcases hh.inv with ⟨hst,-,-⟩ | ⟨q,-,-,rfl,hq⟩ | ⟨hst,-,hne,-⟩
    · simpa using hs.free hst
    · exact ⟨q,by simp,.inl hq⟩
    · have hhead := hs.rlocked hst
      cases w₁ with
      | nil =>
        obtain ⟨q,hq⟩ := exists_mem_of_ne_nil g hne
        exact ⟨q,by simp [hq],.inr (hhead r rfl)⟩
      | cons q w₁ => exact ⟨q,by simp,.inl (hhead q rfl)⟩
  obtain ⟨q,hq,hc⟩ := hq
  rw [← append_assoc] at hreq
  obtain ⟨u,hu,-⟩ := h.owned i q (hreq ▸ mem_append_left _ hq)
  exact ⟨u,i,_,r,w₂,q,hreq,hw,hq,hc,ht,hu⟩

variable [DecidableEq ι]

theorem Inv.update (h : Inv priority s) (i : ι) {l : WaitDieALock} (owner : ℕ → Option τ)
    (hc : l.Counted) (ha : Aged l.requests)
    (ho : ∀ r ∈ l.requests, ∃ t, owner r.id = some t ∧ r.priority = (priority t).toInt64) :
    Inv priority {lock := Function.update s.lock i l, owner := Function.update s.owner i owner} := by
  refine ⟨fun j => ?_,fun j => ?_,fun j => ?_⟩ <;> rcases eq_or_ne j i with rfl | hne
  · simpa using hc
  · simpa [hne] using h.counted j
  · simpa using ha
  · simpa [hne] using h.aged j
  · simpa using ho
  · simpa [hne] using h.owned j

theorem Inv.step (h : Inv priority s) {c : LocksCall ι τ} (hs : s.step priority c = some s') :
    Inv priority s' := by
  cases c with
  | vlock i t type =>
    obtain ⟨l,hl,rfl⟩ := map_eq_some_iff.mp hs
    have hcounted : l.Counted := by
      obtain ⟨l₁,hl₁,hc₁,-⟩ := (h.counted i).vlock type (priority t)
      cases hl.symm.trans hl₁
      exact hc₁
    refine h.update i _ hcounted (WaitDieALock.Aged.vlock (h.counted i) (h.aged i) hl) ?_
    -- the requests that were there have other ids than the new one
    have hold : ∀ r ∈ (s.lock i).requests, ∃ u,
        Function.update (s.owner i) (s.lock i).nextId (some t) r.id = some u ∧
          r.priority = (priority u).toInt64 := by
      intro r hr
      rw [update_of_ne ((h.counted i).sane.lt_nextId r hr).ne]
      exact h.owned i r hr
    rcases vlock_requests (h.counted i) (h.aged i) hl with hsame | ⟨r,hr,hid,-,hp,-⟩
    · rwa [hsame]
    · rw [hr]
      intro x hx
      rcases mem_append.mp hx with hx | hx
      · exact hold x hx
      · rw [mem_singleton.mp hx]
        exact ⟨t,by rw [hid,update_self],hp⟩
  | abort i id =>
    obtain ⟨l,hl,rfl⟩ := map_eq_some_iff.mp hs
    have hcounted : l.Counted := by
      obtain ⟨l₁,hl₁,hc₁,-⟩ := (h.counted i).abort id
      cases hl.symm.trans hl₁
      exact hc₁
    have hinv := h.update i (s.owner i) hcounted
      (WaitDieALock.Aged.abort (h.counted i) (h.aged i) hl) ?_
    · rwa [update_eq_self] at hinv
    · obtain ⟨a,b,hreq,hsub⟩ := abort_requests (h.counted i) hl
      rw [hreq]
      intro r hr
      rcases mem_append.mp hr with hr | hr
      · obtain ⟨q,hq,rfl⟩ := mem_map.mp hr
        exact h.owned i q (hsub.subset (mem_append_left _ hq))
      · exact h.owned i r (hsub.subset (mem_append_right _ hr))

theorem inv_of_reachable (h : Reachable (system priority) s) : Inv priority s := by
  obtain ⟨_,rfl,hrun⟩ := h
  exact hrun.invariant (fun _ _ _ _ hi hs => hi.step hs) Inv.init

/-- A request that waits is older than every request in front that excludes it, and the
transactions do not wait in a circle. -/
theorem wait_die_acyclic (h : Reachable (system priority) s) :
    (∀ i before r after, (s.lock i).requests = before++r::after → r.locked = false →
      ∀ q ∈ before, Conflict q r → r.priority < q.priority) ∧
    ∀ t, ¬TransGen s.WaitsFor t t := by
  have hinv := inv_of_reachable h
  refine ⟨fun i before r after heq _ q hq hc => hinv.older heq hq hc,fun t hcycle => ?_⟩
  have hlt : ∀ u, TransGen s.WaitsFor t u → (priority t).toInt64 < (priority u).toInt64 := by
    intro u hu
    induction hu with
    | single hw => exact hinv.waitsFor hw
    | tail _ hw ih => exact Int64.lt_trans ih (hinv.waitsFor hw)
  exact Int64.lt_irrefl (hlt t hcycle)

/-- Transactions 3, 5 and 9 have their numbers as priorities: 5 and 3 wait at lock `false` behind
9, and 3 waits behind 5 at lock `true`. -/
def threeWaiting : Locks Bool ℕ := after (system fun t => t.toUInt64) (fun _ _ => True) {}
  [.vlock false 9 .rlock,.vlock true 5 .wlock,.vlock false 5 .wlock,.vlock true 3 .rlock,
    .vlock false 3 .rlock,.vlock true 9 .rlock]

theorem wait_die_acyclic_three : Reachable (system fun t => t.toUInt64) threeWaiting ∧
    (threeWaiting.lock false).requests = [⟨1,9,.rlock,true⟩,⟨2,5,.wlock,false⟩,⟨3,3,.rlock,false⟩] ∧
    threeWaiting.WaitsFor 3 5 ∧ threeWaiting.WaitsFor 5 9 ∧
    ¬TransGen threeWaiting.WaitsFor 5 5 := by
  have hrun : Reachable (system fun t => t.toUInt64) threeWaiting := ⟨_,rfl,run_after _ _⟩
  refine ⟨hrun,by decide +kernel,?_,?_,(wait_die_acyclic hrun).2 5⟩
  · exact ⟨true,[⟨1,5,.wlock,true⟩],⟨2,3,.rlock,false⟩,[],⟨1,5,.wlock,true⟩,by decide +kernel⟩
  · exact ⟨false,[⟨1,9,.rlock,true⟩],⟨2,5,.wlock,false⟩,[⟨3,3,.rlock,false⟩],⟨1,9,.rlock,true⟩,
      by decide +kernel⟩

/-- Whoever waits, waits in the end for a transaction whose requests are all granted. -/
theorem waits_end (h : Reachable (system priority) s) (t : τ) :
    ∃ u, ReflTransGen s.WaitsFor t u ∧ ∀ i, ∀ r ∈ (s.lock i).requests,
      s.owner i r.id = some u → r.locked = true := by
  have hinv := inv_of_reachable h
  -- the priority grows along the chain
  induction hn : (2^63-(priority t).toInt64.toInt).toNat using Nat.strong_induction_on
    generalizing t with
  | _ n ih =>
    by_cases hw : ∃ u, s.WaitsFor t u
    · obtain ⟨u,hu⟩ := hw
      have hlt := Int64.lt_iff_toInt_lt.mp (hinv.waitsFor hu)
      have hmax := (priority u).toInt64.toInt_lt
      obtain ⟨v,hv,hend⟩ := ih _ (by omega) u rfl
      exact ⟨v,.head hu hv,hend⟩
    · refine ⟨t,.refl,fun i r hr ht => ?_⟩
      by_contra hl
      exact hw (hinv.blocked hr (by simpa using hl) ht)

theorem waits_end_three : let s := threeWaiting
    ∃ u, ReflTransGen s.WaitsFor 3 u ∧
      ∀ i, ∀ r ∈ (s.lock i).requests, s.owner i r.id = some u → r.locked = true :=
  waits_end ⟨_,rfl,run_after _ _⟩ 3

end Locks
end Janus.QueuedLock
