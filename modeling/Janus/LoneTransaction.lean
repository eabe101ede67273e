import Janus.Scheduler2pl
import Janus.WaitDieLock
import Janus.WoundDieLock

/-! One transaction alone on a two-phase locking server (`2pl/scheduler.cc`,
`SchedulerClassic::DispatchPiece`), with locks of either kind, which have no notion of an owner: a
request meets an earlier one of its own transaction like any other. A failed `verify` and a call
that does not return are `none`. -/

namespace Janus.QueuedLock

open Transition List Option WaitDieALock WoundDieALock
open TwoPhase (Tx2pl)

inductive ColumnLock
  | waitDie (l : WaitDieALock)
  | woundDie (l : WoundDieALock)

namespace ColumnLock

def base : ColumnLock → ALock
  | waitDie l => l.toALock
  | woundDie l => l

/-- Every wound callback in the queue is one of the transaction, which answers `0` as long as it is
woundable. -/
def vlock (woundable : Bool) (priority : UInt64) : ColumnLock → Option ColumnLock
  | waitDie l => (l.vlock .wlock priority).map waitDie
  | woundDie l => (WoundDieALock.vlock l (fun _ => if woundable then 0 else 1) .wlock
      priority).toOption.map woundDie

def wounds (priority : UInt64) : ColumnLock → Bool
  | waitDie _ => false
  | woundDie l => l.requests.any fun r => decide (priority.toInt64 ≤ r.priority)

def abort (id : ℕ) : ColumnLock → Option ColumnLock
  | waitDie l => (l.abort id).map waitDie
  | woundDie l => (ALock.abort l id).map woundDie

def Idle : ColumnLock → Prop
  | waitDie l => Reachable WaitDieALock.system l ∧ l.requests = []
  | woundDie l => ReachableBy WoundDieALock.system WoundDieALock.Refusable l ∧ l.requests = []

end ColumnLock

structure LoneScheduler (K : Type) where
  locks : K → ColumnLock
  tid : UInt64
  tx : Tx2pl K := {}

namespace LoneScheduler

variable {K : Type} [DecidableEq K]

/-- The event holds the id of the request after the yes callback and `0` after the no callback;
without a callback the call waits. -/
def lock (s : LoneScheduler K) (k : K) : Option (LoneScheduler K × ℕ) :=
  let id := (s.locks k).base.nextId
  ((s.locks k).vlock s.tx.woundable s.tid).bind fun l =>
    (l.base.calls.lookup id).map fun yes =>
      ({s with
        locks := Function.update s.locks k l
        tx := {s.tx with
          wounded := s.tx.wounded || (s.locks k).wounds s.tid && s.tx.woundable}},
        if yes then id else 0)

def guardReturn (s : LoneScheduler K) (k : K) (id : ℕ) : Option (LoneScheduler K × Bool) :=
  if s.tx.committed then none
  else if id = 0 then some (s,false)
  else
    let s' := {s with tx := {s.tx with nLockGranted := s.tx.nLockGranted+1}}
    if s.tx.aborted then
      ((s.locks k).abort id).map fun l => ({s' with locks := Function.update s.locks k l},false)
    else
      some ({s' with tx := {s'.tx with lockedLocks := s.tx.lockedLocks++[(k,id)]}},true)

def guard (s : LoneScheduler K) (k : K) : Option (LoneScheduler K × Bool) :=
  if s.tx.aborted ∨ s.tx.committed then none
  else if s.tx.wounded then some (s,false)
  else
    ({s with tx := {s.tx with nLockRequested := s.tx.nLockRequested+1}}.lock k).bind fun p =>
      p.1.guardReturn k p.2

/-- `DispatchPiece` for the columns of one piece. The first refusal ends it and aborts the
transaction. -/
def guardAll : List K → LoneScheduler K → Option (LoneScheduler K × List Bool)
  | [], s => some (s,[])
  | k::ks, s =>
    (s.guard k).bind fun p =>
      if p.2 then (guardAll ks p.1).map fun q => (q.1,true::q.2)
      else some ({p.1 with tx := {p.1.tx with inuse := false, aborted := true}},[false])

/-- The pieces of the transaction, one after another. An aborted transaction makes no more
calls. -/
def dispatch : List (List K) → LoneScheduler K → Option (LoneScheduler K × List Bool)
  | [], s => some (s,[])
  | piece::pieces, s =>
    (if s.tx.aborted then some (s,[]) else guardAll piece s).bind fun p =>
      (dispatch pieces p.1).map fun q => (q.1,p.2++q.2)

def doPrepare (s : LoneScheduler K) : Option (LoneScheduler K × Bool) :=
  if s.tx.inuse ∨ s.tx.nLockGranted ≠ s.tx.nLockRequested then none
  else if s.tx.wounded then some ({s with tx := {s.tx with inuse := true}},false)
  else some ({s with tx := {s.tx with woundable := false}},true)

end LoneScheduler

namespace ColumnLock

variable {l l' : ColumnLock} {priority : UInt64}

structure Free (l : ColumnLock) : Prop where
  status : l.base.status = .free
  requests : l.base.requests = []
  called : ∀ c ∈ l.base.calls, c.1 < l.base.nextId
  nextId : 0 < l.base.nextId

structure Held (priority : UInt64) (l : ColumnLock) : Prop where
  status : l.base.status = .wlocked
  requests : ∃ r, l.base.requests = [r] ∧ r.priority = priority.toInt64
  called : ∀ c ∈ l.base.calls, c.1 < l.base.nextId

theorem lookup_concat {calls : List (ℕ × Bool)} {n : ℕ} (h : ∀ c ∈ calls, c.1 < n) (b : Bool) :
    (calls++[(n,b)]).lookup n = some b := by
  have hnone : calls.lookup n = none :=
    lookup_eq_none_iff.mpr fun c hc => by simpa using (h c hc).ne'
  simp [lookup_append,hnone]

theorem Idle.free (h : l.Idle) : l.Free := by
  cases l with
  | waitDie l =>
    obtain ⟨hreach,hnil⟩ := h
    have hsane := (counted_of_reachable hreach).sane
    exact ⟨hsane.free_iff.mpr hnil,hnil,hsane.called,nextId_pos_of_reachable hreach⟩
  | woundDie l =>
    obtain ⟨hreach,hnil⟩ := h
    obtain ⟨hsane,hpos⟩ := sane_and_nextId_of_reachable hreach
    exact ⟨hsane.free_iff.mpr hnil,hnil,hsane.called,hpos⟩

theorem Free.vlock (h : l.Free) (woundable : Bool) (priority : UInt64) :
    ∃ l', l.vlock woundable priority = some l' ∧ l'.Held priority ∧
      l'.base.calls.lookup l.base.nextId = some true ∧ l.wounds priority = false := by
  have hbound : ∀ c ∈ l.base.calls++[(l.base.nextId,true)], c.1 < l.base.nextId+1 := by
    intro c hc
    rcases mem_append.mp hc with hc | hc
    · exact (h.called c hc).trans (Nat.lt_succ_self _)
    · rw [mem_singleton.mp hc]
      exact Nat.lt_succ_self _
  cases l with
  | waitDie l =>
    have hstatus : l.status = .free := h.status
    have hnil : l.requests = [] := h.requests
    refine ⟨waitDie (l.enqueued .wlock {l.toALock.getNextId with
      status := .wlocked
      requests := [(l.request .wlock priority).grant]
      calls := l.calls++[(l.nextId,true)]}),?_,⟨rfl,⟨_,rfl,rfl⟩,hbound⟩,
      lookup_concat h.called true,rfl⟩
    simp [ColumnLock.vlock,WaitDieALock.vlock,hstatus,hnil,ALock.writeAcquire,
      WaitDieALock.request,ALock.getNextId]
  | woundDie l =>
    have hstatus : ALock.status l = .free := h.status
    have hnil : ALock.requests l = [] := h.requests
    refine ⟨woundDie {ALock.getNextId l with
      status := .wlocked
      requests := [(request l .wlock priority).grant]
      calls := ALock.calls l++[(ALock.nextId l,true)]},?_,⟨rfl,⟨_,rfl,rfl⟩,hbound⟩,
      lookup_concat h.called true,by simp [wounds,hnil]⟩
    simp [ColumnLock.vlock,WoundDieALock.vlock,WoundDieALock.woundDie,WoundDieALock.enter,hstatus,
      hnil,ALock.writeAcquire,WoundDieALock.request,ALock.getNextId]
    rfl

/-- A second request for a lock that the transaction has dies under wait-die, and wounds the
transaction itself under wound-die. -/
theorem Held.vlock (h : l.Held priority) {woundable : Bool}
    (hl : l.vlock woundable priority = some l') :
    l'.base.calls.lookup l.base.nextId = some false ∨ l.wounds priority = true := by
  obtain ⟨r,hr,hp⟩ := h.requests
  cases l with
  | waitDie l =>
    have hstatus : l.status = .wlocked := h.status
    have hr' : l.requests = [r] := hr
    simp only [ColumnLock.vlock,WaitDieALock.vlock,hstatus,WaitDieALock.waitDie,hr',
      reverse_singleton,waitDieWrite,WaitDieALock.request,hp] at hl
    simp at hl
    subst hl
    exact Or.inl (lookup_concat h.called false)
  | woundDie l =>
    have hr' : ALock.requests l = [r] := hr
    exact Or.inr (by simp [wounds,hr',hp])

end ColumnLock

namespace LoneScheduler

variable {K : Type} [DecidableEq K] {s s' : LoneScheduler K} {done ks : List K} {k : K}
  {oks : List Bool} {pieces : List (List K)}

structure Going (s : LoneScheduler K) (done : List K) : Prop where
  wounded : s.tx.wounded = false
  woundable : s.tx.woundable = true
  aborted : s.tx.aborted = false
  committed : s.tx.committed = false
  inuse : s.tx.inuse = false
  granted : s.tx.nLockGranted = s.tx.nLockRequested
  held : ∀ k ∈ done, (s.locks k).Held s.tid
  free : ∀ k ∉ done, (s.locks k).Free

theorem Going.guard (h : Going s done) (hk : k ∉ done) :
    ∃ s', s.guard k = some (s',true) ∧ Going s' (k::done) := by
  obtain ⟨l,hl,hheld,hyes,hwounds⟩ := (h.free k hk).vlock s.tx.woundable s.tid
  have hpos : (s.locks k).base.nextId ≠ 0 := (h.free k hk).nextId.ne'
  refine ⟨{s with
    locks := Function.update s.locks k l
    tx := {s.tx with
      nLockRequested := s.tx.nLockRequested+1
      nLockGranted := s.tx.nLockGranted+1
      lockedLocks := s.tx.lockedLocks++[(k,(s.locks k).base.nextId)]}},?_,?_⟩
  · simp [LoneScheduler.guard,lock,guardReturn,h.aborted,h.committed,h.wounded,hl,hyes,hwounds,hpos]
  · refine ⟨h.wounded,h.woundable,h.aborted,h.committed,h.inuse,?_,?_,?_⟩
    · exact congrArg (· + 1) h.granted
    · intro c hc
      rcases eq_or_ne c k with rfl | hne
      · simpa using hheld
      · simpa [hne] using h.held c ((mem_cons.mp hc).resolve_left hne)
    · intro c hc
      obtain ⟨hne,hc⟩ := not_or.mp (mt mem_cons.mpr hc)
      simpa [hne] using h.free c hc

theorem guardReturn_true {id : ℕ} (h : s.guardReturn k id = some (s',true)) :
    id ≠ 0 ∧ s'.tx.wounded = s.tx.wounded := by
  unfold guardReturn at h
  split_ifs at h with hc hzero ha
  · cases h
  · obtain ⟨l,-,heq⟩ := map_eq_some_iff.mp h
    cases heq
  · cases h
    exact ⟨hzero,rfl⟩

/-- A column that is guarded again: the call is refused, or the transaction is wounded. -/
theorem Going.guard_again (h : Going s done) (hk : k ∈ done) (hs : s.guard k = some (s',true)) :
    s'.tx.wounded = true := by
  have hgo : ¬(s.tx.aborted = true ∨ s.tx.committed = true) := by simp [h.aborted,h.committed]
  have hunwounded : ¬s.tx.wounded = true := by simp [h.wounded]
  rw [LoneScheduler.guard,if_neg hgo,if_neg hunwounded] at hs
  obtain ⟨p,hp,hrest⟩ := bind_eq_some_iff.mp hs
  obtain ⟨l,hl,hp⟩ := bind_eq_some_iff.mp hp
  obtain ⟨yes,hyes,rfl⟩ := map_eq_some_iff.mp hp
  obtain ⟨hid,hwounded⟩ := guardReturn_true hrest
  have hwounds : (s.locks k).wounds s.tid = true := by
    refine ((h.held k hk).vlock hl).resolve_left fun hno => ?_
    cases hyes.symm.trans hno
    exact hid rfl
  simp [hwounded,hwounds,h.woundable]

theorem guard_wounded (h : s.tx.wounded = true) : s.guard k ≠ some (s',true) := by
  unfold LoneScheduler.guard
  split_ifs <;> simp

theorem guardAll_wounded (h : s.tx.wounded = true) (hs : guardAll ks s = some (s',oks))
    (hoks : ∀ ok ∈ oks, ok = true) : s'.tx.wounded = true := by
  cases ks with
  | nil =>
    cases hs
    exact h
  | cons k ks =>
    obtain ⟨p,hp,hrest⟩ := bind_eq_some_iff.mp hs
    obtain ⟨s₁,ok⟩ := p
    cases ok with
    | true => exact absurd hp (guard_wounded h)
    | false =>
      cases hrest
      simp at hoks

theorem dispatch_wounded (h : s.tx.wounded = true) (hs : dispatch pieces s = some (s',oks))
    (hoks : ∀ ok ∈ oks, ok = true) : s'.tx.wounded = true := by
  induction pieces generalizing s oks with
  | nil =>
    cases hs
    exact h
  | cons piece pieces ih =>
    obtain ⟨p,hp,hrest⟩ := bind_eq_some_iff.mp hs
    obtain ⟨q,hq,heq⟩ := map_eq_some_iff.mp hrest
    cases heq
    have hp' : p.1.tx.wounded = true := by
      split_ifs at hp
      · cases hp
        exact h
      · exact guardAll_wounded h hp fun ok hok => hoks ok (mem_append_left _ hok)
    exact ih hp' hq fun ok hok => hoks ok (mem_append_right _ hok)

theorem Going.guardAll (h : Going s done) (hks : ks.Nodup) (hnew : ∀ k ∈ ks, k ∉ done) :
    ∃ s', LoneScheduler.guardAll ks s = some (s',List.replicate ks.length true) ∧
      Going s' (ks.reverse++done) := by
  induction ks generalizing s done with
  | nil => exact ⟨s,rfl,h⟩
  | cons k ks ih =>
    obtain ⟨hk,hnodup⟩ := nodup_cons.mp hks
    obtain ⟨s₁,hs₁,hgo⟩ := h.guard (hnew k mem_cons_self)
    obtain ⟨s₂,hs₂,hgo₂⟩ := ih hgo hnodup fun c hc hmem => by
      rcases mem_cons.mp hmem with rfl | hmem
      · exact hk hc
      · exact hnew c (mem_cons_of_mem _ hc) hmem
    refine ⟨s₂,?_,by simpa using hgo₂⟩
    rw [LoneScheduler.guardAll,hs₁,bind_some,if_pos rfl,hs₂]
    rfl

theorem Going.nodup_of_guardAll (h : Going s done)
    (hs : LoneScheduler.guardAll ks s = some (s',oks)) (hoks : ∀ ok ∈ oks, ok = true)
    (hw : s'.tx.wounded = false) : ks.Nodup ∧ ∀ k ∈ ks, k ∉ done := by
  induction ks generalizing s done oks with
  | nil => exact ⟨nodup_nil,nofun⟩
  | cons k ks ih =>
    obtain ⟨p,hp,hrest⟩ := bind_eq_some_iff.mp hs
    obtain ⟨s₁,ok⟩ := p
    cases ok with
    | false =>
      cases hrest
      simp at hoks
    | true =>
      obtain ⟨q,hq,heq⟩ := map_eq_some_iff.mp hrest
      cases heq
      have hoks' : ∀ ok ∈ q.2, ok = true := fun ok hok => hoks ok (mem_cons_of_mem _ hok)
      have hk : k ∉ done := by
        intro hk
        have hwounded := guardAll_wounded (h.guard_again hk hp) hq hoks'
        rw [hw] at hwounded
        cases hwounded
      obtain ⟨s₂,hs₂,hgo⟩ := h.guard hk
      cases hs₂.symm.trans hp
      obtain ⟨hnodup,hnew⟩ := ih hgo hq hoks'
      refine ⟨nodup_cons.mpr ⟨fun hmem => hnew k hmem mem_cons_self,hnodup⟩,?_⟩
      intro c hc
      rcases mem_cons.mp hc with rfl | hc
      · exact hk
      · exact fun hmem => hnew c hc (mem_cons_of_mem _ hmem)

theorem Going.dispatch (h : Going s done) (hnodup : pieces.flatten.Nodup)
    (hnew : ∀ k ∈ pieces.flatten, k ∉ done) :
    ∃ s' oks done', LoneScheduler.dispatch pieces s = some (s',oks) ∧ (∀ ok ∈ oks, ok = true) ∧
      Going s' done' := by
  induction pieces generalizing s done with
  | nil => exact ⟨s,[],done,rfl,nofun,h⟩
  | cons piece pieces ih =>
    obtain ⟨hpiece,hpieces,hdisjoint⟩ := nodup_append.mp hnodup
    obtain ⟨s₁,hs₁,hgo⟩ := h.guardAll hpiece fun c hc => hnew c (mem_append_left _ hc)
    obtain ⟨s₂,oks,done',hs₂,hoks,hgo₂⟩ := ih hgo hpieces fun c hc hmem => by
      rcases mem_append.mp hmem with hmem | hmem
      · exact hdisjoint c (mem_reverse.mp hmem) c hc rfl
      · exact hnew c (mem_append_right _ hc) hmem
    refine ⟨s₂,List.replicate piece.length true++oks,done',?_,?_,hgo₂⟩
    · rw [LoneScheduler.dispatch,if_neg (by simp [h.aborted]),hs₁,bind_some,hs₂]
      rfl
    · intro ok hok
      rcases mem_append.mp hok with hok | hok
      · exact (mem_replicate.mp hok).2
      · exact hoks ok hok

theorem Going.nodup_of_dispatch (h : Going s done)
    (hs : LoneScheduler.dispatch pieces s = some (s',oks)) (hoks : ∀ ok ∈ oks, ok = true)
    (hw : s'.tx.wounded = false) : pieces.flatten.Nodup ∧ ∀ k ∈ pieces.flatten, k ∉ done := by
  induction pieces generalizing s done oks with
  | nil => exact ⟨nodup_nil,nofun⟩
  | cons piece pieces ih =>
    obtain ⟨p,hp,hrest⟩ := bind_eq_some_iff.mp hs
    rw [if_neg (by simp [h.aborted])] at hp
    obtain ⟨q,hq,heq⟩ := map_eq_some_iff.mp hrest
    cases heq
    have hoks₁ : ∀ ok ∈ p.2, ok = true := fun ok hok => hoks ok (mem_append_left _ hok)
    have hoks₂ : ∀ ok ∈ q.2, ok = true := fun ok hok => hoks ok (mem_append_right _ hok)
    -- a wound would stay to the end
    have hw₁ : p.1.tx.wounded = false := by
      by_contra hc
      have hwounded := dispatch_wounded (by simpa using hc) hq hoks₂
      rw [hw] at hwounded
      cases hwounded
    obtain ⟨hpiece,hnew⟩ := h.nodup_of_guardAll hp hoks₁ hw₁
    obtain ⟨s₁,hs₁,hgo⟩ := h.guardAll hpiece hnew
    cases hs₁.symm.trans hp
    obtain ⟨hpieces,hrest⟩ := ih hgo hq hoks₂
    refine ⟨nodup_append.mpr ⟨hpiece,hpieces,?_⟩,?_⟩
    · rintro a ha b hb rfl
      exact hrest a hb (mem_append_left _ (mem_reverse.mpr ha))
    · intro c hc
      rcases mem_append.mp hc with hc | hc
      · exact hnew c hc
      · exact fun hmem => hrest c hc (mem_append_right _ hmem)

omit [DecidableEq K] in
theorem Going.doPrepare (h : Going s done) : (s.doPrepare).map Prod.snd = some true := by
  simp [LoneScheduler.doPrepare,h.inuse,h.granted,h.wounded]

omit [DecidableEq K] in
theorem going_of_idle {locks : K → ColumnLock} (h : ∀ k, (locks k).Idle) (tid : UInt64) :
    Going (K:=K) {locks := locks, tid := tid} [] :=
  ⟨rfl,rfl,rfl,rfl,rfl,rfl,nofun,fun k _ => (h k).free⟩

/-- A transaction alone on the server gets all its locks, is not wounded and prepares, exactly if
its pieces guard no column twice. -/
theorem lone_transaction_passes {locks : K → ColumnLock} (h : ∀ k, (locks k).Idle) (tid : UInt64)
    (pieces : List (List K)) :
    (∃ s oks, dispatch pieces {locks := locks, tid := tid} = some (s,oks) ∧
      (∀ ok ∈ oks, ok = true) ∧ s.tx.wounded = false ∧ s.doPrepare.map Prod.snd = some true) ↔
    pieces.flatten.Nodup := by
  have hgo := going_of_idle h tid
  constructor
  · rintro ⟨s,oks,hs,hoks,hw,-⟩
    exact (hgo.nodup_of_dispatch hs hoks hw).1
  · intro hnodup
    obtain ⟨s,oks,done,hs,hoks,hgo⟩ := hgo.dispatch hnodup nofun
    exact ⟨s,oks,hs,hoks,hgo.wounded,hgo.doPrepare⟩

theorem waitDie_idle : (ColumnLock.waitDie {}).Idle := ⟨⟨_,rfl,Run.refl _⟩,rfl⟩

theorem woundDie_idle : (ColumnLock.woundDie {}).Idle := ⟨⟨_,rfl,Run.refl _⟩,rfl⟩

theorem lone_transaction_passes_two :
    (∃ s oks, dispatch (K:=ℕ) [[4,7],[9]] {locks := fun _ => .waitDie {}, tid := 5} = some (s,oks) ∧
      (∀ ok ∈ oks, ok = true) ∧ s.tx.wounded = false ∧ s.doPrepare.map Prod.snd = some true) ∧
    ∃ s oks, dispatch (K:=ℕ) [[4,7],[9]] {locks := fun _ => .woundDie {}, tid := 5} = some (s,oks) ∧
      (∀ ok ∈ oks, ok = true) ∧ s.tx.wounded = false ∧ s.doPrepare.map Prod.snd = some true :=
  ⟨(lone_transaction_passes (fun _ => waitDie_idle) 5 [[4,7],[9]]).mpr (by decide),
    (lone_transaction_passes (fun _ => woundDie_idle) 5 [[4,7],[9]]).mpr (by decide)⟩

/-- The second piece guards a column of the first: it is refused under wait-die; under wound-die it
wounds its own transaction, whose prepare fails. -/
theorem guarded_twice :
    ((dispatch (K:=ℕ) [[4],[4]] {locks := fun _ => .waitDie {}, tid := 5}).map fun p =>
      (p.2,p.1.tx.aborted)) = some ([true,false],true) ∧
    ((dispatch (K:=ℕ) [[4],[4]] {locks := fun _ => .woundDie {}, tid := 5}).map fun p =>
      (p.2,p.1.tx.wounded,p.1.doPrepare.map Prod.snd)) = some ([true,true],true,some false) := by
  decide +kernel

end LoneScheduler

end Janus.QueuedLock
