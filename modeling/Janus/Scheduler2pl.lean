import Janus.WoundDieLock

/-! The two-phase locking scheduler (`2pl/scheduler.cc`) over columns guarded by `WoundDieALock`. A
`Guard` call that is not answered at once leaves a coroutine waiting for its event; every other
call runs to its end. A failed `verify` is no step. -/

namespace Janus.TwoPhase

open Transition Function List QueuedLock

/-- `Tx2pl`. `mdbTxn` says whether the scheduler still has the `mdb::Txn` of the
transaction, which `RemoveMTxn` takes out. -/
structure Tx2pl (K : Type) where
  lockedLocks : List (K × ℕ) := []
  woundable : Bool := true
  wounded : Bool := false
  nLockRequested : ℕ := 0
  nLockGranted : ℕ := 0
  inuse : Bool := false
  aborted : Bool := false
  committed : Bool := false
  mdbTxn : Bool := true

structure Guard (K : Type) where
  tid : ℕ
  lock : K
  id : ℕ
  deriving DecidableEq

/-- `owner` is the transaction of each request, `waiting` the coroutines in `Guard`, `prepared` the
transactions for which `DoPrepare` returned true. -/
structure Scheduler2pl (K : Type) where
  locks : K → WoundDieALock := fun _ => {}
  owner : K → ℕ → ℕ := fun _ _ => 0
  txs : ℕ → Tx2pl K := fun _ => {}
  waiting : List (Guard K) := []
  prepared : ℕ → Bool := fun _ => false

namespace Scheduler2pl

variable {K : Type} [DecidableEq K]

variable (s : Scheduler2pl K)

def modify (tid : ℕ) (f : Tx2pl K → Tx2pl K) : Scheduler2pl K :=
  {s with txs := Function.update s.txs tid (f (s.txs tid))}

def woundCallback (k : K) (id : ℕ) : ℤ :=
  if (s.txs (s.owner k id)).woundable then 0 else 1

/-- The value of the event of a request, which its yes or its no callback sets. -/
def event (k : K) (id : ℕ) : Option ℕ :=
  ((s.locks k).calls.lookup id).map fun yes => if yes then id else 0

/-- The transactions of the requests that have left a queue, whose wound callbacks returned `0`. -/
def wounds (k : K) (l : WoundDieALock) : List ℕ :=
  ((s.locks k).requests.filter fun r => r.id ∉ l.requests.map LockReq.id).map fun r => s.owner k r.id

/-- `ALock::Lock` up to its wait, with the id of the request. -/
def lock (tid : ℕ) (k : K) : Option (Scheduler2pl K × ℕ) :=
  match (s.locks k).vlock (s.woundCallback k) .wlock (.ofNat tid) with
  | .error _ => none
  | .ok l =>
    some ({s with
      locks := Function.update s.locks k l
      owner := Function.update s.owner k (Function.update (s.owner k) (s.locks k).nextId tid)
      txs := fun t => if t ∈ s.wounds k l then {s.txs t with wounded := true} else s.txs t},
      (s.locks k).nextId)

def release (p : K × ℕ) : Option (Scheduler2pl K) :=
  ((s.locks p.1).abort p.2).map fun l => {s with locks := Function.update s.locks p.1 l}

def guardReturn (g : Guard K) (v : ℕ) : Option (Scheduler2pl K) :=
  if (s.txs g.tid).committed then none
  else if v = 0 then some s
  else
    let s' := s.modify g.tid fun tx => {tx with nLockGranted := tx.nLockGranted+1}
    if (s.txs g.tid).aborted then s'.release (g.lock,g.id)
    else some (s'.modify g.tid fun tx => {tx with lockedLocks := tx.lockedLocks++[(g.lock,g.id)]})

def guard (tid : ℕ) (k : K) : Option (Scheduler2pl K) :=
  if (s.txs tid).aborted ∨ (s.txs tid).committed then none
  else if (s.txs tid).wounded then some s
  else
    match (s.modify tid fun tx => {tx with nLockRequested := tx.nLockRequested+1}).lock tid k with
    | none => none
    | some (s',id) =>
      match s'.event k id with
      | some v => s'.guardReturn ⟨tid,k,id⟩ v
      | none => some {s' with waiting := s'.waiting++[⟨tid,k,id⟩]}

def doPrepare (tid : ℕ) : Option (Scheduler2pl K × Bool) :=
  let tx := s.txs tid
  if tx.inuse ∨ tx.nLockGranted ≠ tx.nLockRequested then none
  else if tx.wounded then some (s.modify tid fun tx => {tx with inuse := true},false)
  else some (s.modify tid fun tx => {tx with woundable := false},true)

def doCommit (tid : ℕ) : Option (Scheduler2pl K) :=
  match (s.txs tid).lockedLocks.foldlM release s with
  | none => none
  | some s' =>
    if (s'.txs tid).mdbTxn then
      some (s'.modify tid fun tx => {tx with committed := true, mdbTxn := false})
    else none

def doAbort (tid : ℕ) : Option (Scheduler2pl K) :=
  match (s.txs tid).lockedLocks.foldlM release
      (s.modify tid fun tx => {tx with aborted := true}) with
  | none => none
  | some s' =>
    if (s'.txs tid).mdbTxn then some (s'.modify tid fun tx => {tx with mdbTxn := false})
    else none

end Scheduler2pl

inductive Action (K : Type)
  | guard (tid : ℕ) (k : K)
  | resume (g : Guard K)
  | doPrepare (tid : ℕ)
  | doCommit (tid : ℕ)
  | doAbort (tid : ℕ)

namespace Scheduler2pl

variable {K : Type} [DecidableEq K]

def step (s : Scheduler2pl K) : Action K → Option (Scheduler2pl K)
  | .guard tid k => s.guard tid k
  | .resume g =>
    if g ∈ s.waiting then
      match s.event g.lock g.id with
      | none => none
      | some v => ({s with waiting := s.waiting.erase g}).guardReturn g v
    else none
  | .doPrepare tid =>
    (s.doPrepare tid).map fun (s',ret) =>
      {s' with prepared := Function.update s'.prepared tid (ret || s'.prepared tid)}
  | .doCommit tid => s.doCommit tid
  | .doAbort tid => s.doAbort tid

/-- A transaction is committed only after its `DoPrepare` returned true. -/
def Permitted (s : Scheduler2pl K) : Action K → Prop
  | .doCommit tid => s.prepared tid = true
  | _ => True

instance (s : Scheduler2pl K) (a : Action K) : Decidable (s.Permitted a) := by
  cases a <;> unfold Permitted <;> infer_instance

end Scheduler2pl

def system (K : Type) [DecidableEq K] : System (Scheduler2pl K) (Action K) where
  init s := s = {}
  step s a := s.step a

namespace Scheduler2pl

variable {K : Type} {s s' s'' : Scheduler2pl K}

def Over (s : Scheduler2pl K) (t : ℕ) : Prop :=
  (s.txs t).wounded = true ∨ (s.txs t).aborted = true ∨ (s.txs t).committed = true

def Owns (s : Scheduler2pl K) (t : ℕ) (k : K) (id : ℕ) : Prop :=
  id < (s.locks k).nextId ∧ s.owner k id = t

def Holds (s : Scheduler2pl K) (t : ℕ) (k : K) (r : LockReq) : Prop :=
  r ∈ (s.locks k).requests ∧ s.owner k r.id = t ∧ r.locked = true

structure WriteOnly (l : WoundDieALock) : Prop extends ALock.Sane l where
  wlock : ∀ r ∈ l.requests, r.type = .wlock

/-- At most one request holds a lock. -/
theorem WriteOnly.holder_unique {l : WoundDieALock} (h : WriteOnly l) {q r : LockReq}
    (hq : q ∈ l.requests) (hlq : q.locked = true) (hr : r ∈ l.requests) (hlr : r.locked = true) :
    q = r := by
  obtain ⟨g,w,hgw,hg,hw,hh,-⟩ := h.queue
  have hmem : ∀ {x}, x ∈ l.requests → x.locked = true → x ∈ g := by
    intro x hx hl
    rw [← ALock.filter_locked hg hw,← hgw]
    exact mem_filter.mpr ⟨hx,hl⟩
  have hqg := hmem hq hlq
  have hrg := hmem hr hlr
  rcases hh.inv with ⟨-,-,rfl⟩ | ⟨x,-,-,rfl,-⟩ | ⟨-,-,-,hread⟩
  · cases hqg
  · exact (mem_singleton.mp hqg).trans (mem_singleton.mp hrg).symm
  · exact nomatch (h.wlock q hq).symm.trans (hread q hqg)

structure Evolves (s s' : Scheduler2pl K) (gone : K → ℕ → Prop) : Prop where
  ok : ∀ k, WriteOnly (s'.locks k)
  owns : ∀ t k id, s.Owns t k id → s'.Owns t k id
  holder : ∀ t k r, s.Holds t k r → gone k r.id ∨ s'.Holds t k r

section Locks

variable {gone gone' : K → ℕ → Prop}
variable {k : K} {id : ℕ}

theorem Evolves.trans (h : Evolves s s' gone) (h' : Evolves s' s'' gone') :
    Evolves s s'' fun k id => gone k id ∨ gone' k id := by
  refine ⟨h'.ok,fun t k id ho => h'.owns t k id (h.owns t k id ho),fun t k r hr => ?_⟩
  rcases h.holder t k r hr with hg | hr'
  · exact .inl (.inl hg)
  · exact (h'.holder t k r hr').imp_left .inr

theorem Evolves.mono (h : Evolves s s' gone) (hle : ∀ k id, gone k id → gone' k id) :
    Evolves s s' gone' :=
  {h with holder := fun t k r hr => (h.holder t k r hr).imp_left (hle k r.id)}

variable [DecidableEq K]

theorem Evolves.update (hok : ∀ k, WriteOnly (s.locks k)) {l : WoundDieALock}
    (hs : s'.locks = Function.update s.locks k l) (hl : WriteOnly l)
    (hle : (s.locks k).nextId ≤ l.nextId)
    (howner : ∀ k' id, id < (s.locks k').nextId → s'.owner k' id = s.owner k' id)
    (hholder : ∀ r ∈ (s.locks k).requests, r.locked = true → gone k r.id ∨ r ∈ l.requests) :
    Evolves s s' gone := by
  have hself : s'.locks k = l := by rw [hs,update_self]
  have hother : ∀ k' ≠ k, s'.locks k' = s.locks k' := fun k' hk => by
    rw [hs,update_of_ne hk]
  refine ⟨fun k' => ?_,fun t k' id ho => ⟨?_,(howner k' id ho.1).trans ho.2⟩,fun t k' r hr => ?_⟩ <;>
    rcases eq_or_ne k' k with rfl | hk
  · exact hself ▸ hl
  · exact hother k' hk ▸ hok k'
  · exact ho.1.trans_le (hself ▸ hle)
  · exact (hother k' hk).symm ▸ ho.1
  · have ho := (howner k' r.id ((hok k').lt_nextId r hr.1)).trans hr.2.1
    exact (hholder r hr.1 hr.2.2).imp_right fun hr' => ⟨hself ▸ hr',ho,hr.2.2⟩
  · have ho := (howner k' r.id ((hok k').lt_nextId r hr.1)).trans hr.2.1
    exact .inr ⟨(hother k' hk).symm ▸ hr.1,ho,hr.2.2⟩

theorem release_evolves (hok : ∀ k, WriteOnly (s.locks k)) {p : K × ℕ} (h : s.release p = some s') :
    Evolves s s' (fun k id => (k,id) = p) ∧ s' = {s with locks := s'.locks} := by
  obtain ⟨l,hl,rfl⟩ := Option.map_eq_some_iff.mp h
  obtain ⟨l',a,b,hl',hnext,hab,hb⟩ := (hok p.1).abort p.2
  obtain rfl := Option.some.inj (hl.symm.trans hl')
  refine ⟨Evolves.update hok rfl ⟨(hok p.1).becomes_abort hnext hab hb,fun r hr => ?_⟩ hnext.ge
    (fun _ _ _ => rfl) fun r hr hlk => ?_,rfl⟩
  · obtain ⟨q,hq,-,ht⟩ := hb.source hr
    rw [hab] at hq
    exact ht ▸ (hok p.1).wlock q (mem_filter.mp hq).1
  · by_cases hid : r.id = p.2
    · exact .inl (Prod.ext rfl hid)
    · obtain ⟨q,hq,-,heq⟩ := hb.stays (r:=r) (hab ▸ mem_filter.mpr ⟨hr,decide_eq_true hid⟩)
      exact .inr (heq hlk ▸ hq)

theorem releases_evolves (ps : List (K × ℕ)) : ∀ {s : Scheduler2pl K},
    (∀ k, WriteOnly (s.locks k)) → ps.foldlM release s = some s' →
    Evolves s s' (fun k id => (k,id) ∈ ps) ∧ s' = {s with locks := s'.locks} := by
  induction ps with
  | nil =>
    intro s hok h
    cases h
    exact ⟨⟨hok,fun _ _ _ => id,fun _ _ _ => .inr⟩,rfl⟩
  | cons p ps ih =>
    intro s hok h
    obtain ⟨s₁,h₁,hrest⟩ := Option.bind_eq_some_iff.mp h
    obtain ⟨he₁,heq₁⟩ := release_evolves hok h₁
    obtain ⟨he,heq⟩ := ih he₁.ok hrest
    refine ⟨(he₁.trans he).mono fun k id hg => ?_,?_⟩
    · rcases hg with rfl | hmem
      · exact mem_cons_self
      · exact mem_cons_of_mem _ hmem
    · rw [heq,heq₁]

theorem lock_evolves (hok : ∀ k, WriteOnly (s.locks k)) {tid : ℕ}
    (h : s.lock tid k = some (s',id)) :
    Evolves s s' (fun k id => (s'.txs (s.owner k id)).wounded = true) ∧ s'.Owns tid k id ∧
    (∀ t, s'.txs t = s.txs t ∨
      (s.txs t).woundable = true ∧ s'.txs t = {s.txs t with wounded := true}) ∧
    s'.waiting = s.waiting ∧ s'.prepared = s.prepared := by
  unfold lock at h
  have hspec := WoundDieALock.vlock_spec (s.woundCallback k) (hok k).toSane .wlock (.ofNat tid)
  rcases hspec with ⟨f,hf,-⟩ | ⟨l,hl,hin⟩
  · rw [hf] at h
    cases h
  rw [hl] at h
  cases h
  refine ⟨Evolves.update hok rfl ⟨hin.sane,fun r hr => ?_⟩ (hin.nextId ▸ Nat.le_succ _)
    (fun k' i hi => ?_) fun r hr hlk => ?_,⟨?_,?_⟩,fun t => ?_,rfl,rfl⟩
  · rcases hin.source r hr with ⟨-,ht⟩ | ⟨q,hq,-,ht,-⟩
    · exact ht
    · exact ht ▸ (hok k).wlock q hq
  · rcases eq_or_ne k' k with rfl | hk
    · simp [update_of_ne hi.ne]
    · simp [update_of_ne hk]
  · refine (hin.holder (hok k).toSane hr hlk).imp_left fun hout => ?_
    have hmem : s.owner k r.id ∈ s.wounds k l :=
      mem_map.mpr ⟨r,mem_filter.mpr ⟨hr,decide_eq_true hout⟩,rfl⟩
    dsimp only
    rw [if_pos hmem]
  · simp [hin.nextId]
  · simp
  · dsimp only
    split_ifs with hmem
    · obtain ⟨r,hr,rfl⟩ := mem_map.mp hmem
      obtain ⟨hr,hout⟩ := mem_filter.mp hr
      refine .inr ⟨?_,rfl⟩
      by_contra hw
      obtain ⟨q,hq,hid,-⟩ := hin.stays r hr (by simp [WoundDieALock.Victim,woundCallback,hw])
      exact of_decide_eq_true hout (hid ▸ mem_map_of_mem hq)
    · exact .inl rfl

end Locks

section Invariant

variable {f : Tx2pl K → Tx2pl K} {tid : ℕ} {t : ℕ}

@[simp] theorem modify_txs_self (s : Scheduler2pl K) (t : ℕ) (f : Tx2pl K → Tx2pl K) :
    (s.modify t f).txs t = f (s.txs t) := update_self _ _ _

theorem modify_txs_of_ne (s : Scheduler2pl K) {u : ℕ} (h : u ≠ t) (f : Tx2pl K → Tx2pl K) :
    (s.modify t f).txs u = s.txs u := update_of_ne h _ _

structure TxOk (tx : Tx2pl K) : Prop where
  unwounded : tx.woundable = false → tx.wounded = false
  aborted : tx.aborted = true → tx.mdbTxn = false
  committed : tx.committed = true → tx.mdbTxn = false

/-- The queues are in order, a transaction gives back the ids of its own requests, and a prepared
one cannot be wounded. -/
structure Inv (s : Scheduler2pl K) : Prop where
  ok : ∀ k, WriteOnly (s.locks k)
  held : ∀ t, ∀ p ∈ (s.txs t).lockedLocks, s.Owns t p.1 p.2
  waits : ∀ g ∈ s.waiting, s.Owns g.tid g.lock g.id
  tx : ∀ t, TxOk (s.txs t)
  prepared : ∀ t, s.prepared t = true → (s.txs t).woundable = false

structure Progress (s s' : Scheduler2pl K) : Prop where
  wounded : ∀ t, (s.txs t).wounded = true → (s'.txs t).wounded = true
  aborted : ∀ t, (s.txs t).aborted = true → (s'.txs t).aborted = true
  committed : ∀ t, (s.txs t).committed = true → (s'.txs t).committed = true
  holder : ∀ t k r, s.Holds t k r → s'.Over t ∨ s'.Holds t k r

theorem Progress.over (h : Progress s s') (ho : s.Over t) : s'.Over t :=
  ho.imp (h.wounded t) (Or.imp (h.aborted t) (h.committed t))

theorem Progress.trans (h : Progress s s') (h' : Progress s' s'') : Progress s s'' := by
  refine ⟨fun t ht => h'.wounded t (h.wounded t ht),fun t ht => h'.aborted t (h.aborted t ht),
    fun t ht => h'.committed t (h.committed t ht),fun t k r hr => ?_⟩
  rcases h.holder t k r hr with ho | hr'
  · exact .inl (h'.over ho)
  · exact h'.holder t k r hr'

theorem Inv.init : Inv ({} : Scheduler2pl K) where
  ok _ := ⟨.empty,nofun⟩
  held := by simp
  waits := by simp
  tx _ := by constructor <;> simp
  prepared := by simp

theorem Inv.modify (h : Inv s) {f : Tx2pl K → Tx2pl K}
    (hheld : ∀ p ∈ (f (s.txs t)).lockedLocks, s.Owns t p.1 p.2) (htx : TxOk (f (s.txs t)))
    (hw : (s.txs t).woundable = false → (f (s.txs t)).woundable = false) : Inv (s.modify t f) := by
  refine ⟨h.ok,fun u p hp => ?_,h.waits,fun u => ?_,fun u hu => ?_⟩ <;>
    rcases eq_or_ne u t with rfl | hne
  · exact hheld p (by simpa using hp)
  · exact h.held u p (by simpa only [modify_txs_of_ne s hne] using hp)
  · exact (modify_txs_self s u f).symm ▸ htx
  · exact (modify_txs_of_ne s hne f).symm ▸ h.tx u
  · exact (modify_txs_self s u f).symm ▸ hw (h.prepared u hu)
  · exact (modify_txs_of_ne s hne f).symm ▸ h.prepared u hu

theorem Progress.modify (hw : (s.txs t).wounded = true → (f (s.txs t)).wounded = true)
    (ha : (s.txs t).aborted = true → (f (s.txs t)).aborted = true)
    (hc : (s.txs t).committed = true → (f (s.txs t)).committed = true) :
    Progress s (s.modify t f) := by
  refine ⟨fun u hu => ?_,fun u hu => ?_,fun u hu => ?_,fun _ _ _ => .inr⟩ <;>
    rcases eq_or_ne u t with rfl | hne
  · exact (modify_txs_self s u f).symm ▸ hw hu
  · exact (modify_txs_of_ne s hne f).symm ▸ hu
  · exact (modify_txs_self s u f).symm ▸ ha hu
  · exact (modify_txs_of_ne s hne f).symm ▸ hu
  · exact (modify_txs_self s u f).symm ▸ hc hu
  · exact (modify_txs_of_ne s hne f).symm ▸ hu

theorem Inv.evolves (h : Inv s) {gone : K → ℕ → Prop} (he : Evolves s s' gone)
    (htxs : s'.txs = s.txs) (hwait : s'.waiting = s.waiting) (hprep : s'.prepared = s.prepared) :
    Inv s' := by
  refine ⟨he.ok,fun t p hp => ?_,fun g hg => ?_,fun t => htxs ▸ h.tx t,fun t ht => ?_⟩
  · exact he.owns _ _ _ (h.held t p (htxs ▸ hp))
  · exact he.owns _ _ _ (h.waits g (hwait ▸ hg))
  · exact htxs ▸ h.prepared t (hprep ▸ ht)

theorem Inv.giveBack (h : Inv s) {s₁ : Scheduler2pl K} (hf : TxOk (f (s.txs tid)))
    (hlocks : (f (s.txs tid)).lockedLocks = (s.txs tid).lockedLocks)
    (hw : (f (s.txs tid)).wounded = (s.txs tid).wounded)
    (hwb : (f (s.txs tid)).woundable = (s.txs tid).woundable)
    (ha : (s.txs tid).aborted = true → (f (s.txs tid)).aborted = true)
    (hc : (s.txs tid).committed = true → (f (s.txs tid)).committed = true)
    (hover : (s.modify tid f).Over tid)
    (he : Evolves s s₁ fun k id => (k,id) ∈ (s.txs tid).lockedLocks) :
    Inv {s.modify tid f with locks := s₁.locks, owner := s₁.owner} ∧
    Progress s {s.modify tid f with locks := s₁.locks, owner := s₁.owner} := by
  have hmod : Inv (s.modify tid f) :=
    h.modify (fun p hp => h.held tid p (hlocks ▸ hp)) hf fun hwf => hwb.trans hwf
  have hprog : Progress s (s.modify tid f) := Progress.modify (fun ht => hw.trans ht) ha hc
  have he' : Evolves (s.modify tid f) {s.modify tid f with locks := s₁.locks, owner := s₁.owner}
      fun k id => (k,id) ∈ (s.txs tid).lockedLocks := {he with}
  refine ⟨hmod.evolves he' rfl rfl rfl,{hprog with holder := fun t k r hr => ?_}⟩
  refine (he.holder t k r hr).imp_left fun hg => ?_
  rw [hr.2.1.symm.trans (h.held tid _ hg).2]
  exact hover

variable [DecidableEq K]

section

variable (h : Inv s)
include h

theorem Inv.lock {id : ℕ} {k : K} (hs : s.lock tid k = some (s',id)) :
    Inv s' ∧ Progress s s' ∧ s'.Owns tid k id := by
  obtain ⟨he,hown,htx,hwait,hprep⟩ := lock_evolves h.ok hs
  refine ⟨⟨he.ok,fun t p hp => ?_,fun g hg => ?_,fun t => ?_,fun t ht => ?_⟩,
    ⟨fun t ht => ?_,fun t ht => ?_,fun t ht => ?_,fun t k r hr => ?_⟩,hown⟩
  · refine he.owns _ _ _ (h.held t p ?_)
    rcases htx t with heq | ⟨-,heq⟩ <;> simpa [heq] using hp
  · exact he.owns _ _ _ (h.waits g (hwait ▸ hg))
  · rcases htx t with heq | ⟨hw,heq⟩
    · exact heq ▸ h.tx t
    · rw [heq]
      exact ⟨fun hf => absurd (hw.symm.trans hf) (by decide),(h.tx t).aborted,(h.tx t).committed⟩
  · have hold := h.prepared t (hprep ▸ ht)
    rcases htx t with heq | ⟨-,heq⟩ <;> rw [heq] <;> exact hold
  · rcases htx t with heq | ⟨-,heq⟩ <;> simp [heq,ht]
  · rcases htx t with heq | ⟨-,heq⟩ <;> simp [heq,ht]
  · rcases htx t with heq | ⟨-,heq⟩ <;> simp [heq,ht]
  · exact (he.holder t k r hr).imp_left fun hg => .inl (hr.2.1 ▸ hg)

theorem Inv.guardReturn {g : Guard K} {v : ℕ} (hown : s.Owns g.tid g.lock g.id)
    (hs : s.guardReturn g v = some s') : Inv s' ∧ Progress s s' := by
  unfold Scheduler2pl.guardReturn at hs
  have hmod : Inv (s.modify g.tid fun tx => {tx with nLockGranted := tx.nLockGranted+1}) :=
    h.modify (h.held g.tid) {h.tx g.tid with} id
  have hprog : Progress s (s.modify g.tid fun tx => {tx with nLockGranted := tx.nLockGranted+1}) :=
    Progress.modify id id id
  split_ifs at hs with hc hv ha
  · cases hs
    exact ⟨h,⟨fun _ => id,fun _ => id,fun _ => id,fun _ _ _ => .inr⟩⟩
  · -- aborted while waiting: the lock just granted is given back
    obtain ⟨he,heq⟩ := release_evolves hmod.ok hs
    have htxs : s'.txs = (s.modify g.tid
        fun tx => {tx with nLockGranted := tx.nLockGranted+1}).txs := by rw [heq]
    have hover : s'.Over g.tid := by
      refine .inr (.inl ?_)
      rw [htxs,modify_txs_self]
      exact ha
    refine ⟨hmod.evolves he htxs (by rw [heq]) (by rw [heq]),hprog.trans ⟨fun t ht => htxs ▸ ht,fun t ht => htxs ▸ ht,
      fun t ht => htxs ▸ ht,fun t k r hr => ?_⟩⟩
    refine (he.holder t k r hr).imp_left fun hg => ?_
    obtain ⟨rfl,hid⟩ := Prod.mk.inj hg
    rw [← hr.2.1,hid,show (s.modify g.tid _).owner g.lock g.id = g.tid from hown.2]
    exact hover
  · cases hs
    refine ⟨hmod.modify (fun p hp => ?_) ?_ id,hprog.trans (Progress.modify id id id)⟩
    · rcases mem_append.mp hp with hmem | hmem
      · exact hmod.held g.tid p hmem
      · rw [mem_singleton.mp hmem]
        exact hown
    · exact {hmod.tx g.tid with}

theorem Inv.guard {k : K} (hs : s.guard tid k = some s') : Inv s' ∧ Progress s s' := by
  unfold Scheduler2pl.guard at hs
  have hmod : Inv (s.modify tid fun tx => {tx with nLockRequested := tx.nLockRequested+1}) :=
    h.modify (h.held tid) {h.tx tid with} id
  split_ifs at hs with hover hw
  · cases hs
    exact ⟨h,⟨fun _ => id,fun _ => id,fun _ => id,fun _ _ _ => .inr⟩⟩
  · split at hs
    · cases hs
    next s₁ id₁ hlock =>
      obtain ⟨hinv,hprog,hown⟩ := hmod.lock hlock
      have hprog := (Progress.modify id id id).trans hprog
      split at hs
      next v _ =>
        obtain ⟨hinv',hprog'⟩ := hinv.guardReturn hown hs
        exact ⟨hinv',hprog.trans hprog'⟩
      next =>
        cases hs
        refine ⟨{hinv with waits := fun g hg => ?_},{hprog with}⟩
        rcases mem_append.mp hg with hmem | hmem
        · exact hinv.waits g hmem
        · rw [mem_singleton.mp hmem]
          exact hown

theorem Inv.doPrepare (hs : s.step (.doPrepare tid) = some s') : Inv s' ∧ Progress s s' := by
  obtain ⟨⟨s₁,ret⟩,hp,rfl⟩ := Option.map_eq_some_iff.mp hs
  simp only [Scheduler2pl.doPrepare] at hp
  split_ifs at hp with hbusy hw
  · cases hp
    have hinv : Inv (s.modify tid fun tx => {tx with inuse := true}) :=
      h.modify (h.held tid) {h.tx tid with} id
    have hprog : Progress s (s.modify tid fun tx => {tx with inuse := true}) :=
      Progress.modify id id id
    refine ⟨{hinv with prepared := fun t ht => hinv.prepared t ?_},{hprog with}⟩
    simpa [update_eq_self] using ht
  · cases hp
    have hinv : Inv (s.modify tid fun tx => {tx with woundable := false}) :=
      h.modify (h.held tid) ⟨fun _ => by simpa using hw,(h.tx tid).aborted,(h.tx tid).committed⟩
        fun _ => rfl
    have hprog : Progress s (s.modify tid fun tx => {tx with woundable := false}) :=
      Progress.modify id id id
    refine ⟨{hinv with prepared := fun t ht => ?_},{hprog with}⟩
    rcases eq_or_ne t tid with rfl | hne
    · rw [modify_txs_self]
    · simp only [update_of_ne hne] at ht
      exact hinv.prepared t ht

theorem Inv.doCommit (hs : s.doCommit tid = some s') : Inv s' ∧ Progress s s' := by
  unfold Scheduler2pl.doCommit at hs
  split at hs
  · cases hs
  next s₁ hrel =>
    obtain ⟨he,heq⟩ := releases_evolves _ h.ok hrel
    split_ifs at hs
    cases hs
    have hgive := h.giveBack (f:=fun tx => {tx with committed := true, mdbTxn := false})
      ⟨(h.tx tid).unwounded,fun _ => rfl,fun _ => rfl⟩ rfl rfl rfl id (fun _ => rfl)
      (.inr (.inr (by rw [modify_txs_self]))) he
    rw [heq] at hgive ⊢
    exact hgive

theorem Inv.doAbort (hs : s.doAbort tid = some s') : Inv s' ∧ Progress s s' := by
  unfold Scheduler2pl.doAbort at hs
  split at hs
  · cases hs
  next s₁ hrel =>
    obtain ⟨he,heq⟩ := releases_evolves _ (s:=s.modify tid fun tx => {tx with aborted := true})
      h.ok hrel
    split_ifs at hs
    cases hs
    have hgive := h.giveBack (f:=fun tx => {tx with aborted := true, mdbTxn := false})
      ⟨(h.tx tid).unwounded,fun _ => rfl,fun _ => rfl⟩ rfl rfl rfl (fun _ => rfl) id
      (.inr (.inl (by rw [modify_txs_self]))) {he with}
    have hfin : s₁.modify tid (fun tx => {tx with mdbTxn := false}) =
        {s.modify tid (fun tx => {tx with aborted := true, mdbTxn := false}) with
         locks := s₁.locks, owner := s₁.owner} := by
      rw [heq]
      simp [Scheduler2pl.modify]
    rw [hfin]
    exact hgive

theorem Inv.step {a : Action K} (hs : s.step a = some s') : Inv s' ∧ Progress s s' := by
  cases a with
  | guard tid k => exact h.guard hs
  | resume g =>
    simp only [Scheduler2pl.step] at hs
    split_ifs at hs with hg
    split at hs
    · cases hs
    next v _ =>
      have hinv : Inv {s with waiting := s.waiting.erase g} :=
        {h with waits := fun g' hg' => h.waits g' (mem_of_mem_erase hg')}
      obtain ⟨hinv',hp⟩ := hinv.guardReturn (h.waits g hg) hs
      exact ⟨hinv',{hp with}⟩
  | doPrepare tid => exact h.doPrepare hs
  | doCommit tid => exact h.doCommit hs
  | doAbort tid => exact h.doAbort hs

theorem Inv.run (hr : Run (system K) Permitted s s') : Inv s' ∧ Progress s s' := by
  induction hr with
  | refl => exact ⟨h,⟨fun _ => id,fun _ => id,fun _ => id,fun _ _ _ => .inr⟩⟩
  | tail _ _ hstep ih =>
    obtain ⟨hinv,hprog⟩ := ih
    obtain ⟨hinv',hprog'⟩ := hinv.step hstep
    exact ⟨hinv',hprog.trans hprog'⟩

end

theorem Inv.reachable (h : ReachableBy (system K) Permitted s) : Inv s := by
  obtain ⟨s₀,rfl,hr⟩ := h
  exact (Inv.init.run hr).1

/-- A transaction that was wounded, aborted or committed does not commit. -/
theorem Inv.not_over (h : Inv s) (hp : s.Permitted (.doCommit t))
    (hs : s.doCommit t = some s') : ¬s.Over t := by
  have hmdb : (s.txs t).mdbTxn = true := by
    unfold Scheduler2pl.doCommit at hs
    split at hs
    · cases hs
    next s₁ hrel =>
      obtain ⟨-,heq⟩ := releases_evolves _ h.ok hrel
      split_ifs at hs with hm
      rwa [heq] at hm
  rintro (hw | ha | hc)
  · rw [(h.tx t).unwounded (h.prepared t hp)] at hw
    cases hw
  · rw [(h.tx t).aborted ha] at hmdb
    cases hmdb
  · rw [(h.tx t).committed hc] at hmdb
    cases hmdb

end Invariant

def Granted (s : Scheduler2pl K) (t : ℕ) (k : K) : Prop :=
  ∃ r ∈ (s.locks k).requests, s.owner k r.id = t ∧ r.locked = true

instance (s : Scheduler2pl K) (t : ℕ) (k : K) : Decidable (s.Granted t k) :=
  inferInstanceAs (Decidable (∃ r ∈ (s.locks k).requests, s.owner k r.id = t ∧ r.locked = true))

variable [DecidableEq K]

/-- From the grant of a lock to the commit of its transaction the lock is granted to nobody else;
and a wounded transaction is never prepared. -/
theorem strict_two_phase_locking :
    (∀ (s₁ s s₂ s₃ : Scheduler2pl K) (t : ℕ) (k : K), ReachableBy (system K) Permitted s₁ →
      s₁.Granted t k → Run (system K) Permitted s₁ s → Run (system K) Permitted s s₂ →
      s₂.Permitted (.doCommit t) → s₂.step (.doCommit t) = some s₃ →
      s.Granted t k ∧ ∀ u, s.Granted u k → u = t) ∧
    ∀ (s s' : Scheduler2pl K) (t : ℕ), ReachableBy (system K) Permitted s →
      (s.txs t).wounded = true → Run (system K) Permitted s s' →
      ∀ s'', s'.doPrepare t ≠ some (s'',true) := by
  constructor
  · intro s₁ s s₂ s₃ t k h₁ hgrant hrun hrun₂ hp hc
    obtain ⟨hinv,hprog⟩ := (Inv.reachable h₁).run hrun
    obtain ⟨hinv₂,hprog₂⟩ := hinv.run hrun₂
    have hnot : ¬s.Over t := fun ho => hinv₂.not_over hp hc (hprog₂.over ho)
    obtain ⟨r,hr⟩ := hgrant
    obtain ⟨hr,ho,hl⟩ := (hprog.holder t k r hr).resolve_left hnot
    refine ⟨⟨r,hr,ho,hl⟩,?_⟩
    rintro u ⟨q,hq,rfl,hlq⟩
    rw [(hinv.ok k).holder_unique hq hlq hr hl,ho]
  · intro s s' t h hw hrun s'' hprep
    obtain ⟨-,hprog⟩ := (Inv.reachable h).run hrun
    simp only [doPrepare] at hprep
    rw [if_pos (hprog.wounded t hw)] at hprep
    split_ifs at hprep
    cases hprep

def andThen (s : Scheduler2pl Unit) (as : List (Action Unit)) : Scheduler2pl Unit :=
  after (system Unit) Permitted s as

theorem run_andThen (s : Scheduler2pl Unit) (as : List (Action Unit)) :
    Run (system Unit) Permitted s (s.andThen as) := run_after s as

/-- Transaction 2 waits for 1, which commits; later 3 holds the lock and is wounded by 2. -/
theorem strict_two_phase_locking_three :
    (((({} : Scheduler2pl Unit).andThen [.guard 1 ()]).andThen [.guard 2 ()]).Granted 1 () ∧
      ∀ u, ((({} : Scheduler2pl Unit).andThen [.guard 1 ()]).andThen [.guard 2 ()]).Granted u () →
        u = 1) ∧
    ∀ s'', ((({} : Scheduler2pl Unit).andThen [.guard 3 (),.guard 2 ()]).andThen
      [.guard 4 ()]).doPrepare 3 ≠ some (s'',true) := by
  constructor
  · exact strict_two_phase_locking.1 (({} : Scheduler2pl Unit).andThen [.guard 1 ()]) _
      (((({} : Scheduler2pl Unit).andThen [.guard 1 ()]).andThen [.guard 2 ()]).andThen
        [.doPrepare 1]) _ 1 () ⟨_,rfl,run_andThen _ _⟩ (by decide +kernel) (run_andThen _ _)
      (run_andThen _ _) (by decide +kernel) (Option.some_get (by decide +kernel)).symm
  · exact strict_two_phase_locking.2 _ _ 3 ⟨_,rfl,run_andThen _ _⟩ (by decide +kernel)
      (run_andThen _ _)

end Scheduler2pl
end Janus.TwoPhase
