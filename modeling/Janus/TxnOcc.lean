import Janus.Serial
import Janus.Transition

/-! Optimistic concurrency control at a leader: `TxnOCC` (`memdb/txn_occ.cc`), the row locks
(`memdb/locking.h`) and `SchedulerOcc` (`occ/scheduler.cc`), for column reads and writes on
existing rows. Versions do not wrap around. Rows are locked in the order of a hash table or of
addresses, which is part of the call. A failed `verify` is no step. -/

namespace Janus.Occ

open Serial Transition Function List

/-- `RWLock`: the write owner while `wlocked_`, and the read owners. -/
structure RWLock where
  w : Option ℕ := none
  r : Finset ℕ := ∅

namespace RWLock

def wlockBy (l : RWLock) (o : ℕ) : RWLock × Bool :=
  match l.w with
  | some w => (l,o = w)
  | none =>
    if l.r = ∅ then ({w := some o, r := ∅},true)
    else if l.r = {o} then ({w := some o, r := ∅},true)
    else (l,false)

def rlockBy (l : RWLock) (o : ℕ) : RWLock × Bool :=
  match l.w with
  | some w => (l,o = w)
  | none => ({l with r := insert o l.r},true)

def unlockBy (l : RWLock) (o : ℕ) : RWLock :=
  {w := if l.w = some o then none else l.w, r := l.r.erase o}

end RWLock

namespace RWLock

def Ok (l : RWLock) : Prop := ∀ o, l.w = some o → l.r = ∅

def Holds (l : RWLock) (o : ℕ) : Prop := l.w = some o ∨ o ∈ l.r

def SameFor (t : ℕ) (l l' : RWLock) : Prop :=
  ∀ o ≠ t, (l'.w = some o ↔ l.w = some o) ∧ (o ∈ l'.r ↔ o ∈ l.r)

variable {l l' : RWLock} {t o : ℕ} {l'' : RWLock}

theorem SameFor.refl (t : ℕ) (l : RWLock) : SameFor t l l := fun _ _ => ⟨Iff.rfl,Iff.rfl⟩

theorem SameFor.trans (h : SameFor t l l') (h' : SameFor t l' l'') : SameFor t l l'' :=
  fun o ho => ⟨(h' o ho).1.trans (h o ho).1,(h' o ho).2.trans (h o ho).2⟩

theorem SameFor.holds (h : SameFor t l l') (ho : o ≠ t) (hl : l.Holds o) : l'.Holds o :=
  hl.imp (h o ho).1.mpr (h o ho).2.mpr

theorem Ok.exclusive (h : l.Ok) (hw : l.w = some t) (ho : l.Holds o) : o = t := by
  rcases ho with hw' | hr
  · exact Option.some.inj (hw'.symm.trans hw)
  · rw [h t hw] at hr
    exact absurd hr (Finset.notMem_empty o)

structure Step (t : ℕ) (l l' : RWLock) : Prop where
  ok : l.Ok → l'.Ok
  same : SameFor t l l'
  holds : l.Holds t → l'.Holds t
  writes : l.w = some t → l'.w = some t

theorem Step.refl (t : ℕ) (l : RWLock) : Step t l l := ⟨id,.refl t l,id,id⟩

theorem Step.trans (h : Step t l l') (h' : Step t l' l'') : Step t l l'' :=
  ⟨fun hl => h'.ok (h.ok hl),h.same.trans h'.same,fun hl => h'.holds (h.holds hl),
    fun hl => h'.writes (h.writes hl)⟩

theorem rlockBy_step (t : ℕ) (l : RWLock) : Step t l (l.rlockBy t).1 := by
  unfold rlockBy
  cases hw : l.w with
  | some w => exact .refl t l
  | none =>
    refine ⟨fun _ o ho => ?_,fun o ho => ⟨by simp [hw],?_⟩,fun _ => .inr (Finset.mem_insert_self t _),
      fun h => ?_⟩
    · cases ho
    · rw [Finset.mem_insert]
      exact or_iff_right ho
    · rw [hw] at h
      cases h

theorem rlockBy_holds (h : (l.rlockBy t).2 = true) : (l.rlockBy t).1.Holds t := by
  unfold rlockBy at h ⊢
  cases hw : l.w with
  | some w =>
    simp only [hw,decide_eq_true_eq] at h ⊢
    exact .inl (h ▸ hw)
  | none => exact .inr (Finset.mem_insert_self t _)

theorem wlockBy_step (t : ℕ) (l : RWLock) : Step t l (l.wlockBy t).1 := by
  unfold wlockBy
  cases hw : l.w with
  | some w => exact .refl t l
  | none =>
    have hnone : ∀ o, ¬l.w = some o := by simp [hw]
    have hgrab : (∀ o ≠ t, o ∉ l.r) → Step t l {w := some t, r := ∅} := by
      refine fun hr => ⟨fun _ _ _ => rfl,fun o ho => ⟨?_,?_⟩,fun _ => .inl rfl,fun _ => rfl⟩
      · simp [hnone,ho.symm]
      · simp [hr o ho]
    split_ifs with hempty hsingle
    · exact hgrab (by simp [hempty])
    · exact hgrab (by simp [hsingle])
    · exact .refl t l

theorem wlockBy_writes (h : (l.wlockBy t).2 = true) : (l.wlockBy t).1.w = some t := by
  unfold wlockBy at h ⊢
  cases hw : l.w with
  | some w =>
    simp only [hw,decide_eq_true_eq] at h ⊢
    rw [h]
  | none =>
    simp only [hw] at h ⊢
    split_ifs at h ⊢ <;> rfl

theorem unlockBy_same (t : ℕ) (l : RWLock) : SameFor t l (l.unlockBy t) := by
  intro o ho
  unfold unlockBy
  refine ⟨?_,?_⟩
  · by_cases hw : l.w = some t
    · simp [hw,ho.symm]
    · simp [hw]
  · simp [ho]

theorem Ok.unlockBy (h : l.Ok) (t : ℕ) : (l.unlockBy t).Ok := by
  intro o ho
  unfold RWLock.unlockBy at ho ⊢
  have hw : l.w = some o := by
    by_cases hw : l.w = some t
    · simp [hw] at ho
    · simpa [hw] using ho
  simp [h o hw]

end RWLock

/-- `ended` is `outcome_ != NONE`. The last two fields record its operations with the values they
returned, and for each read from the table the version and value that was there. -/
structure TxnOcc (R C V : Type) where
  verCheckRead : List ((R × C) × ℕ) := []
  updates : List ((R × C) × V) := []
  locks : List R := []
  verified : Bool := false
  debugAbort : Bool := false
  ended : Bool := false
  trace : List (Op (R × C) V) := []
  tableReads : List ((R × C) × ℕ × V) := []

/-- The table with its versions and row locks, the transactions, and the operations of the
committed ones in their order. -/
structure SchedulerOcc (R C V : Type) where
  value : R × C → V
  ver : R × C → ℕ := fun _ => 0
  lock : R → RWLock := fun _ => {}
  txns : ℕ → TxnOcc R C V := fun _ => {}
  committed : List (List (Op (R × C) V)) := []

section Loops

variable {R : Type} {row : R} {l : RWLock} {ok : Bool}

structure Locking (t : ℕ) (lock lock' : R → RWLock) : Prop where
  ok : (∀ row, (lock row).Ok) → ∀ row, (lock' row).Ok
  same : ∀ row, RWLock.SameFor t (lock row) (lock' row)

theorem Locking.refl (t : ℕ) (lock : R → RWLock) : Locking t lock lock :=
  ⟨id,fun _ => .refl t _⟩

theorem Locking.trans {t : ℕ} {lock lock' lock'' : R → RWLock} (h : Locking t lock lock')
    (h' : Locking t lock' lock'') : Locking t lock lock'' :=
  ⟨fun hok => h'.ok (h.ok hok),fun row => (h.same row).trans (h'.same row)⟩

variable [DecidableEq R]

def unlockAll (t : ℕ) (lock : R → RWLock) (rows : List R) : R → RWLock :=
  rows.foldl (fun lock row => update lock row ((lock row).unlockBy t)) lock

/-- The loops of `DoPrepare` over the rows to lock, with `locks_`. After a refusal the rows `undo`
are unlocked. -/
def lockAll (t : ℕ) (take : RWLock → RWLock × Bool) (undo : List R → R → List R) :
    (R → RWLock) → List R → List R → (R → RWLock) × List R × Bool
  | lock, [], held => (lock,held,true)
  | lock, row::rows, held =>
    if (take (lock row)).2 then
      lockAll t take undo (update lock row (take (lock row)).1) rows (held++[row])
    else (unlockAll t lock (undo held row),[],false)

def rlockAll (t : ℕ) : (R → RWLock) → List R → List R → (R → RWLock) × List R × Bool :=
  lockAll t (·.rlockBy t) fun held _ => held

/-- Where the write lock loop fails it unlocks the row it failed on, once for every lock held. -/
def wlockAll (t : ℕ) : (R → RWLock) → List R → List R → (R → RWLock) × List R × Bool :=
  lockAll t (·.wlockBy t) fun held row => held.map fun _ => row

variable {t : ℕ} {lock lock' : R → RWLock} {rows held held' : List R}

theorem unlockAll_same (t : ℕ) (lock : R → RWLock) (rows : List R) :
    ∀ row, RWLock.SameFor t (lock row) (unlockAll t lock rows row) := by
  induction rows generalizing lock with
  | nil => exact fun row => .refl t _
  | cons r rows ih =>
    intro row
    refine RWLock.SameFor.trans ?_ (ih (update lock r ((lock r).unlockBy t)) row)
    rcases eq_or_ne row r with rfl | hne
    · rw [update_self]
      exact RWLock.unlockBy_same t _
    · rw [update_of_ne hne]
      exact .refl t _

theorem unlockAll_ok (t : ℕ) (hok : ∀ row, (lock row).Ok) (rows : List R) :
    ∀ row, (unlockAll t lock rows row).Ok := by
  induction rows generalizing lock with
  | nil => exact hok
  | cons r rows ih =>
    refine ih fun row => ?_
    dsimp only
    rcases eq_or_ne row r with rfl | hne
    · rw [update_self]
      exact (hok row).unlockBy t
    · rw [update_of_ne hne]
      exact hok row

theorem Locking.unlockAll (t : ℕ) (lock : R → RWLock) (rows : List R) :
    Locking t lock (unlockAll t lock rows) :=
  ⟨fun hok => unlockAll_ok t hok rows,unlockAll_same t lock rows⟩

theorem step_update (h : RWLock.Step t (lock row) l) :
    ∀ r, RWLock.Step t (lock r) (update lock row l r) := by
  intro r
  rcases eq_or_ne r row with rfl | hne
  · rwa [update_self]
  · rw [update_of_ne hne]
    exact .refl t _

theorem Locking.cons (h : RWLock.Step t (lock row) l)
    (h' : Locking t (update lock row l) lock') : Locking t lock lock' :=
  ⟨fun hok => h'.ok fun r => (step_update h r).ok (hok r),
    fun r => (step_update h r).same.trans (h'.same r)⟩

variable {take : RWLock → RWLock × Bool} {undo : List R → R → List R}

theorem lockAll_locking (hstep : ∀ l, RWLock.Step t l (take l).1) : ∀ {lock : R → RWLock}
    {held : List R}, lockAll t take undo lock rows held = (lock',held',ok) → Locking t lock lock' := by
  induction rows with
  | nil =>
    rintro lock held ⟨⟩
    exact .refl t _
  | cons row rows ih =>
    intro lock held h
    simp only [lockAll] at h
    split_ifs at h
    · exact .cons (hstep _) (ih h)
    · cases h
      exact .unlockAll t lock _

theorem lockAll_takes {P : RWLock → Prop} (hstep : ∀ l, RWLock.Step t l (take l).1)
    (htake : ∀ l, (take l).2 = true → P (take l).1) (hkeep : ∀ l l', RWLock.Step t l l' → P l → P l') :
    ∀ {lock : R → RWLock} {held : List R}, lockAll t take undo lock rows held = (lock',held',true) →
    (∀ row, RWLock.Step t (lock row) (lock' row)) ∧ ∀ row ∈ rows, P (lock' row) := by
  induction rows with
  | nil =>
    rintro lock held ⟨⟩
    exact ⟨fun _ => .refl t _,by simp⟩
  | cons row rows ih =>
    intro lock held h
    simp only [lockAll] at h
    split_ifs at h with hok
    · obtain ⟨hsteps,hrest⟩ := ih h
      refine ⟨fun r => (step_update (hstep _) r).trans (hsteps r),fun r hr => ?_⟩
      rcases mem_cons.mp hr with rfl | hmem
      · have hself := hsteps r
        rw [update_self] at hself
        exact hkeep _ _ hself (htake _ hok)
      · exact hrest r hmem
    · cases h

theorem rlockAll_locking (h : rlockAll t lock rows held = (lock',held',ok)) : Locking t lock lock' :=
  lockAll_locking (RWLock.rlockBy_step t) h

theorem wlockAll_locking (h : wlockAll t lock rows held = (lock',held',ok)) : Locking t lock lock' :=
  lockAll_locking (RWLock.wlockBy_step t) h

theorem rlockAll_holds (h : rlockAll t lock rows held = (lock',held',true)) :
    (∀ row, RWLock.Step t (lock row) (lock' row)) ∧ ∀ row ∈ rows, (lock' row).Holds t :=
  lockAll_takes (RWLock.rlockBy_step t) (fun _ => RWLock.rlockBy_holds) (fun _ _ h => h.holds) h

theorem wlockAll_writes (h : wlockAll t lock rows held = (lock',held',true)) :
    (∀ row, RWLock.Step t (lock row) (lock' row)) ∧ ∀ row ∈ rows, (lock' row).w = some t :=
  lockAll_takes (RWLock.wlockBy_step t) (fun _ => RWLock.wlockBy_writes) (fun _ _ h => h.writes) h

end Loops

/-- The calls. `doPrepare` comes with the order in which the columns read and written are
visited. -/
inductive Action (R C V : Type)
  | readColumn (t : ℕ) (k : R × C)
  | writeColumn (t : ℕ) (k : R × C) (v : V)
  | doPrepare (t : ℕ) (reads writes : List (R × C))
  | doCommit (t : ℕ)
  | abort (t : ℕ)

namespace SchedulerOcc

variable {R C V : Type} [DecidableEq R] [DecidableEq C]

variable (s : SchedulerOcc R C V)

def setTxn (t : ℕ) (x : TxnOcc R C V) : SchedulerOcc R C V :=
  {s with txns := update s.txns t x}

def readColumn (t : ℕ) (k : R × C) : Option (SchedulerOcc R C V) :=
  let x := s.txns t
  if x.ended then none
  else
    match x.updates.lookup k with
    | some v => some (s.setTxn t {x with trace := x.trace++[.read k v]})
    | none =>
      let x' := {x with
        trace := x.trace++[.read k (s.value k)]
        tableReads := x.tableReads++[(k,s.ver k,s.value k)]}
      match x.verCheckRead.lookup k with
      | some ver => if ver < s.ver k then none else some (s.setTxn t x')
      | none => some (s.setTxn t {x' with verCheckRead := x.verCheckRead++[(k,s.ver k)]})

def writeColumn (t : ℕ) (k : R × C) (v : V) :
    Option (SchedulerOcc R C V) :=
  let x := s.txns t
  let x' : TxnOcc R C V := {x with trace := x.trace++[.write k v]}
  if x.ended then none
  else
    match x.updates.lookup k with
    | some _ =>
      some (s.setTxn t {x' with
        updates := x.updates.map fun p : (R × C) × V => if p.1 = k then (k,v) else p})
    | none =>
      if (x.verCheckRead.lookup k).any (· < s.ver k) then none
      else some (s.setTxn t {x' with updates := x.updates++[(k,v)]})

def doPrepare (t : ℕ) (reads writes : List (R × C)) :
    Option (SchedulerOcc R C V × Bool) :=
  let x := s.txns t
  if ¬(reads.Perm (x.verCheckRead.map Prod.fst) ∧ writes.Perm (x.updates.map Prod.fst)) then none
  else if x.ended ∨ x.verified then none
  else if ∃ p ∈ x.verCheckRead, s.ver p.1 ≠ p.2 then
    some (s.setTxn t {x with debugAbort := true},false)
  else
    match rlockAll t s.lock (reads.map Prod.fst) x.locks with
    | (lock,held,false) =>
      some ({s with lock := lock}.setTxn t {x with locks := held, debugAbort := true},false)
    | (lock,held,true) =>
      match wlockAll t lock (writes.map Prod.fst) held with
      | (lock,held,false) =>
        some ({s with lock := lock}.setTxn t {x with locks := held, debugAbort := true},false)
      | (lock,held,true) =>
        some ({s with lock := lock}.setTxn t
          {x with locks := held, debugAbort := false, verified := true},true)

def releaseResource (t : ℕ) : SchedulerOcc R C V :=
  let x := s.txns t
  {s with lock := unlockAll t s.lock x.locks}.setTxn t
    {x with updates := [], locks := [], verCheckRead := []}

def applyUpdates (updates : List ((R × C) × V)) : SchedulerOcc R C V :=
  updates.foldl (fun s p => {s with
    value := update s.value p.1 p.2
    ver := update s.ver p.1 (s.ver p.1+1)}) s

def doCommit (t : ℕ) : Option (SchedulerOcc R C V) :=
  let x := s.txns t
  if x.debugAbort ∨ x.ended ∨ x.verified = false then none
  else
    let s' := (s.applyUpdates x.updates).setTxn t {x with ended := true}
    some {s'.releaseResource t with committed := s.committed++[x.trace]}

def abort (t : ℕ) : Option (SchedulerOcc R C V) :=
  let x := s.txns t
  if x.ended then none
  else some ((s.setTxn t {x with ended := true}).releaseResource t)

def step : Action R C V → Option (SchedulerOcc R C V)
  | .readColumn t k => s.readColumn t k
  | .writeColumn t k v => s.writeColumn t k v
  | .doPrepare t reads writes => (s.doPrepare t reads writes).map Prod.fst
  | .doCommit t => s.doCommit t
  | .abort t => s.abort t

def CommitPrepared : Action R C V → Prop
  | .doCommit t => (s.txns t).verified = true
  | _ => True

def Permitted : Action R C V → Prop
  | .readColumn t _ | .writeColumn t _ _ => (s.txns t).verified = false
  | a => s.CommitPrepared a

instance (s : SchedulerOcc R C V) (a : Action R C V) : Decidable (s.CommitPrepared a) := by
  cases a <;> unfold CommitPrepared <;> infer_instance

instance (s : SchedulerOcc R C V) (a : Action R C V) : Decidable (s.Permitted a) := by
  cases a <;> unfold Permitted <;> infer_instance

end SchedulerOcc

def system {R C V : Type} [DecidableEq R] [DecidableEq C] (σ : R × C → V) :
    System (SchedulerOcc R C V) (Action R C V) where
  init s := s = {value := σ}
  step s a := s.step a

section Updates

variable {K V : Type} {l : List (K × V)} {k : K} {v : V}

theorem mem_of_lookup [BEq K] [LawfulBEq K] (h : l.lookup k = some v) : (k,v) ∈ l := by
  obtain ⟨l₁,l₂,rfl,-⟩ := lookup_eq_some_iff.mp h
  exact mem_append_right _ mem_cons_self

theorem lookup_eq_none [BEq K] [LawfulBEq K] : l.lookup k = none ↔ k ∉ l.map Prod.fst := by
  rw [lookup_eq_none_iff]
  simp only [bne_iff_ne,mem_map,not_exists,not_and]
  exact forall₂_congr fun p _ => ne_comm

theorem keys_replace [DecidableEq K] (l : List (K × V)) (k : K) (v : V) :
    (l.map fun p => if p.1 = k then (k,v) else p).map Prod.fst = l.map Prod.fst := by
  rw [map_map]
  refine map_congr_left fun p _ => ?_
  by_cases hp : p.1 = k
  · simp [hp]
  · simp [hp]

variable [DecidableEq K] [BEq K] [LawfulBEq K]

theorem lookup_cons_eq (p : K × V) (l : List (K × V)) (k : K) :
    (p::l).lookup k = if k = p.1 then some p.2 else l.lookup k := by
  obtain ⟨a,b⟩ := p
  rw [lookup_cons]
  by_cases h : k = a
  · simp [h]
  · rw [beq_false_of_ne h,if_neg h]

theorem lookup_replace (l : List (K × V)) (k k' : K) (v : V) :
    (l.map fun p => if p.1 = k then (k,v) else p).lookup k' =
      if k' = k then (l.lookup k).map fun _ => v else l.lookup k' := by
  induction l with
  | nil => simp
  | cons p l ih =>
    rw [map_cons,lookup_cons_eq,lookup_cons_eq,lookup_cons_eq,ih]
    by_cases hp : p.1 = k
    · by_cases hk : k' = k <;> simp [hp,hk]
    · have hp' : ¬k = p.1 := fun he => hp he.symm
      by_cases hk : k' = k
      · simp [hk,hp,hp']
      · simp [hk,hp]

theorem lookup_concat (h : l.lookup k = none) :
    (fun k' => (l++[(k,v)]).lookup k') = update (fun k' => l.lookup k') k (some v) := by
  funext k'
  rw [lookup_append,lookup_cons_eq]
  rcases eq_or_ne k' k with rfl | hne
  · simp [h]
  · simp [hne]

theorem lookup_overwrite {v' : V} (h : l.lookup k = some v') :
    (fun k' => (l.map fun p => if p.1 = k then (k,v) else p).lookup k') =
      update (fun k' => l.lookup k') k (some v) := by
  funext k'
  rw [lookup_replace,h]
  rcases eq_or_ne k' k with rfl | hne
  · simp
  · simp [hne]

end Updates

namespace SchedulerOcc

variable {R C V : Type} {s s' : SchedulerOcc R C V} {t : ℕ} {σ : R × C → V} {u : ℕ}
variable {x : TxnOcc R C V} {k : R × C}

@[simp] theorem setTxn_self (s : SchedulerOcc R C V) (t : ℕ) (x : TxnOcc R C V) :
    (s.setTxn t x).txns t = x := update_self _ _ _

theorem setTxn_of_ne (s : SchedulerOcc R C V) (h : u ≠ t) (x : TxnOcc R C V) :
    (s.setTxn t x).txns u = s.txns u := update_of_ne h _ _

variable [DecidableEq R] [DecidableEq C]

theorem applyUpdates_value {updates : List ((R × C) × V)} :
    ∀ {s : SchedulerOcc R C V}, (updates.map Prod.fst).Nodup →
    (s.applyUpdates updates).value = overlay s.value fun k => updates.lookup k := by
  induction updates with
  | nil => exact fun _ => rfl
  | cons p ps ih =>
    intro s hnd
    rw [map_cons,nodup_cons] at hnd
    refine (ih (s:={s with value := update s.value p.1 p.2,
                           ver := update s.ver p.1 (s.ver p.1+1)}) hnd.2).trans ?_
    funext k
    rcases eq_or_ne k p.1 with rfl | hne
    · simp only [overlay]
      rw [lookup_eq_none.mpr hnd.1,lookup_cons_eq]
      simp
    · simp only [overlay]
      rw [lookup_cons_eq,if_neg hne,update_of_ne hne]

theorem applyUpdates_ver (updates : List ((R × C) × V)) : ∀ (s : SchedulerOcc R C V) (k : R × C),
    (k ∉ updates.map Prod.fst → (s.applyUpdates updates).ver k = s.ver k) ∧
    s.ver k ≤ (s.applyUpdates updates).ver k ∧
    (k ∈ updates.map Prod.fst → s.ver k < (s.applyUpdates updates).ver k) := by
  induction updates with
  | nil => exact fun s k => ⟨fun _ => rfl,le_rfl,by simp⟩
  | cons p ps ih =>
    intro s k
    obtain ⟨hother,hle,hlt⟩ := ih {s with value := update s.value p.1 p.2,
                                          ver := update s.ver p.1 (s.ver p.1+1)} k
    rcases eq_or_ne k p.1 with rfl | hne
    · simp only [update_self] at hle
      exact ⟨fun h => absurd mem_cons_self h,Nat.le_of_succ_le hle,fun _ => hle⟩
    · simp only [update_of_ne hne] at hother hle hlt
      simp only [map_cons,mem_cons,hne,false_or]
      exact ⟨hother,hle,hlt⟩

theorem applyUpdates_frame (updates : List ((R × C) × V)) : ∀ (s : SchedulerOcc R C V),
    (s.applyUpdates updates).lock = s.lock ∧ (s.applyUpdates updates).txns = s.txns := by
  induction updates with
  | nil => exact fun s => ⟨rfl,rfl⟩
  | cons p ps ih => exact fun s => ih _

/-- What holds of a transaction that has not ended. Its operations follow from its buffer and its
reads of the table; a version it read is not above the present one, and the value is the same if it
is that one; once it is prepared, it has its locks and what it read is present. -/
structure TxnInv (s : SchedulerOcc R C V) (t : ℕ) (x : TxnOcc R C V) : Prop where
  buffered : Buffered x.trace (fun k => x.updates.lookup k) (x.tableReads.map fun p => (p.1,p.2.2))
  nodup : (x.updates.map Prod.fst).Nodup
  reads : ∀ p ∈ x.tableReads, (p.1,p.2.1) ∈ x.verCheckRead ∧
    (p.2.1 = s.ver p.1 → p.2.2 = s.value p.1)
  checked : ∀ p ∈ x.verCheckRead, p.2 ≤ s.ver p.1
  prepared : x.verified = true → (∀ p ∈ x.verCheckRead, s.ver p.1 = p.2) ∧
    (∀ p ∈ x.verCheckRead, (s.lock p.1.1).Holds t) ∧ ∀ p ∈ x.updates, (s.lock p.1.1).w = some t

structure Inv (σ : R × C → V) (s : SchedulerOcc R C V) : Prop where
  locks : ∀ row, (s.lock row).Ok
  txn : ∀ t, (s.txns t).ended = false → s.TxnInv t (s.txns t)
  serial : SerialRun σ s.committed s.value

theorem Inv.init (σ : R × C → V) : Inv σ {value := σ} where
  locks _ _ h := by cases h
  txn t _ := by
    refine ⟨.nil,by simp,by simp,by simp,by simp⟩
  serial := rfl

theorem TxnInv.congr (h : s.TxnInv t x) (hver : ∀ k, s.ver k ≤ s'.ver k)
    (hval : ∀ k, s'.ver k = s.ver k → s'.value k = s.value k)
    (hread : x.verified = true → ∀ p ∈ x.verCheckRead, s'.ver p.1 = s.ver p.1)
    (hlock : ∀ row, (s.lock row).Holds t → (s'.lock row).Holds t)
    (hw : ∀ row, (s.lock row).w = some t → (s'.lock row).w = some t) : s'.TxnInv t x := by
  refine ⟨h.buffered,h.nodup,fun p hp => ⟨(h.reads p hp).1,fun he => ?_⟩,
    fun p hp => (h.checked p hp).trans (hver p.1),fun hv => ?_⟩
  · have hle := h.checked _ (h.reads p hp).1
    have hsame : s'.ver p.1 = s.ver p.1 := le_antisymm (he ▸ hle) (hver p.1)
    rw [hval p.1 hsame]
    exact (h.reads p hp).2 (he.trans hsame)
  · obtain ⟨hv₁,hv₂,hv₃⟩ := h.prepared hv
    exact ⟨fun p hp => (hread hv p hp).trans (hv₁ p hp),fun p hp => hlock _ (hv₂ p hp),
      fun p hp => hw _ (hv₃ p hp)⟩

section

variable (h : Inv σ s)
include h

theorem Inv.setTxn {lock : R → RWLock} (hlock : Locking t s.lock lock)
    (hx : x.ended = false → ({s with lock := lock} : SchedulerOcc R C V).TxnInv t x) :
    Inv σ (({s with lock := lock} : SchedulerOcc R C V).setTxn t x) := by
  refine ⟨hlock.ok h.locks,fun u hu => ?_,h.serial⟩
  rcases eq_or_ne u t with rfl | hne
  · rw [setTxn_self] at hu ⊢
    have hx := hx hu
    exact {hx with}
  · rw [setTxn_of_ne _ hne] at hu ⊢
    exact (h.txn u hu).congr (fun _ => le_rfl) (fun _ _ => rfl) (fun _ _ _ => rfl)
      (fun row hr => (hlock.same row).holds hne hr) fun row hr => ((hlock.same row) u hne).1.mpr hr

theorem Inv.readColumn
    (hp : (s.txns t).verified = false) (hs : s.readColumn t k = some s') : Inv σ s' := by
  simp only [SchedulerOcc.readColumn] at hs
  split_ifs at hs with hend
  have hx := h.txn t (by simpa using hend)
  have hnot : ¬(s.txns t).verified = true := by simp [hp]
  split at hs
  next v hv =>
    cases hs
    refine h.setTxn (.refl t s.lock) fun _ => ⟨?_,hx.nodup,hx.reads,hx.checked,
      fun hver => absurd hver hnot⟩
    exact hx.buffered.own hv
  next hnone =>
    have hbuf : Buffered ((s.txns t).trace++[.read k (s.value k)])
        (fun k => (s.txns t).updates.lookup k)
        (((s.txns t).tableReads++[(k,s.ver k,s.value k)]).map fun p => (p.1,p.2.2)) := by
      rw [map_append]
      exact hx.buffered.store hnone
    split at hs
    next ver hver =>
      split_ifs at hs with hlt
      cases hs
      have hmem := mem_of_lookup hver
      have heq : ver = s.ver k := le_antisymm (hx.checked _ hmem) (Nat.le_of_not_lt hlt)
      refine h.setTxn (.refl t s.lock) fun _ => ⟨hbuf,hx.nodup,fun p hp => ?_,hx.checked,
        fun hver => absurd hver hnot⟩
      rcases mem_append.mp hp with hold | hnew
      · exact hx.reads p hold
      · rw [mem_singleton.mp hnew]
        exact ⟨heq ▸ hmem,fun _ => rfl⟩
    next =>
      cases hs
      refine h.setTxn (.refl t s.lock) fun _ => ⟨hbuf,hx.nodup,fun p hp => ?_,fun p hp => ?_,
        fun hver => absurd hver hnot⟩
      · rcases mem_append.mp hp with hold | hnew
        · exact ⟨mem_append_left _ (hx.reads p hold).1,(hx.reads p hold).2⟩
        · rw [mem_singleton.mp hnew]
          exact ⟨mem_append_right _ mem_cons_self,fun _ => rfl⟩
      · rcases mem_append.mp hp with hold | hnew
        · exact hx.checked p hold
        · rw [mem_singleton.mp hnew]

theorem Inv.writeColumn {v : V}
    (hp : (s.txns t).verified = false) (hs : s.writeColumn t k v = some s') : Inv σ s' := by
  simp only [SchedulerOcc.writeColumn] at hs
  by_cases hend : (s.txns t).ended = true
  · rw [if_pos hend] at hs
    cases hs
  rw [if_neg hend] at hs
  have hx := h.txn t (by simpa using hend)
  have hnot : ¬(s.txns t).verified = true := by simp [hp]
  split at hs
  next v' hv =>
    cases hs
    refine h.setTxn (.refl t s.lock) fun _ => ⟨?_,?_,hx.reads,hx.checked,
      fun hver => absurd hver hnot⟩
    · rw [lookup_overwrite hv]
      exact hx.buffered.write
    · rw [keys_replace]
      exact hx.nodup
  next hnone =>
    split_ifs at hs
    cases hs
    refine h.setTxn (.refl t s.lock) fun _ => ⟨?_,?_,hx.reads,hx.checked,
      fun hver => absurd hver hnot⟩
    · rw [lookup_concat hnone]
      exact hx.buffered.write
    · rw [map_append,nodup_append]
      refine ⟨hx.nodup,by simp,fun a ha b hb => ?_⟩
      rw [map_singleton,mem_singleton] at hb
      rw [hb]
      exact fun he => lookup_eq_none.mp hnone ((show a = k from he) ▸ ha)

theorem Inv.doPrepare {reads writes : List (R × C)}
    {ret : Bool} (hs : s.doPrepare t reads writes = some (s',ret)) : Inv σ s' := by
  simp only [SchedulerOcc.doPrepare] at hs
  split_ifs at hs with hperm hbusy hcheck
  · cases hs
    have hx := h.txn t (by simpa using fun he => hbusy (.inl he))
    exact h.setTxn (.refl t s.lock) fun _ =>
      {hx with prepared := fun hv => absurd (.inr hv) hbusy}
  · have hx := h.txn t (by simpa using fun he => hbusy (.inl he))
    have hfail : ∀ (lock : R → RWLock) (held : List R), Locking t s.lock lock → Inv σ
        (({s with lock := lock} : SchedulerOcc R C V).setTxn t
          {s.txns t with locks := held, debugAbort := true}) := fun lock held hl =>
      h.setTxn hl fun _ => {hx with prepared := fun hv => absurd (.inr hv) hbusy}
    split at hs
    next lock held hr =>
      cases hs
      exact hfail lock held (rlockAll_locking hr)
    next lock₁ held₁ hr =>
      split at hs
      next lock held hw =>
        cases hs
        exact hfail lock held ((rlockAll_locking hr).trans (wlockAll_locking hw))
      next lock held hw =>
        cases hs
        obtain ⟨-,hholds⟩ := rlockAll_holds hr
        obtain ⟨hstep,hwrites⟩ := wlockAll_writes hw
        simp only [not_exists,not_and,not_not] at hcheck
        refine h.setTxn ((rlockAll_locking hr).trans (wlockAll_locking hw)) fun _ =>
          {hx with prepared := fun _ => ⟨hcheck,fun p hp => ?_,fun p hp => ?_⟩}
        · have hmem : p.1 ∈ reads := hperm.1.mem_iff.mpr (mem_map.mpr ⟨p,hp,rfl⟩)
          exact (hstep p.1.1).holds (hholds p.1.1 (mem_map.mpr ⟨p.1,hmem,rfl⟩))
        · have hmem : p.1 ∈ writes := hperm.2.mem_iff.mpr (mem_map.mpr ⟨p,hp,rfl⟩)
          exact hwrites p.1.1 (mem_map.mpr ⟨p.1,hmem,rfl⟩)

/-- What a transaction has read is still current when it commits. -/
theorem Inv.reads_current (hs : s.doCommit t = some s') :
    ∀ p ∈ (s.txns t).tableReads, s.ver p.1 = p.2.1 ∧ s.value p.1 = p.2.2 := by
  simp only [SchedulerOcc.doCommit] at hs
  split_ifs at hs with hbad
  rw [not_or,not_or] at hbad
  have hx := h.txn t (by simpa using hbad.2.1)
  obtain ⟨hver,-,-⟩ := hx.prepared (by simpa using hbad.2.2)
  intro p hp
  have hcur := hver _ (hx.reads p hp).1
  exact ⟨hcur,((hx.reads p hp).2 hcur.symm).symm⟩

/-- The columns another prepared transaction read are not among the updates of a prepared
one: it has the write lock of their rows. -/
theorem Inv.disjoint (hne : u ≠ t)
    (ht : (s.txns t).ended = false) (hvt : (s.txns t).verified = true)
    (hu : (s.txns u).ended = false) (hvu : (s.txns u).verified = true) :
    ∀ p ∈ (s.txns u).verCheckRead, p.1 ∉ (s.txns t).updates.map Prod.fst := by
  intro p hp hmem
  obtain ⟨q,hq,heq⟩ := mem_map.mp hmem
  have hw := ((h.txn t ht).prepared hvt).2.2 q hq
  have hheld := ((h.txn u hu).prepared hvu).2.1 p hp
  rw [heq] at hw
  exact hne ((h.locks p.1.1).exclusive hw hheld)

theorem Inv.doCommit (hs : s.doCommit t = some s') : Inv σ s' := by
  have hcur := h.reads_current hs
  simp only [SchedulerOcc.doCommit] at hs
  split_ifs at hs with hbad
  rw [not_or,not_or] at hbad
  have ht : (s.txns t).ended = false := by simpa using hbad.2.1
  have hvt : (s.txns t).verified = true := by simpa using hbad.2.2
  have hx := h.txn t ht
  cases hs
  obtain ⟨hlk,htx⟩ := applyUpdates_frame (s.txns t).updates s
  have hval := applyUpdates_value (s:=s) hx.nodup
  have hver := applyUpdates_ver (s.txns t).updates s
  refine ⟨fun row => ?_,fun u hu => ?_,?_⟩
  · simp only [releaseResource,SchedulerOcc.setTxn,update_self,hlk]
    exact unlockAll_ok t h.locks _ row
  · rcases eq_or_ne u t with rfl | hne
    · simp [releaseResource] at hu
    · simp only [releaseResource,setTxn_of_ne _ hne,htx] at hu ⊢
      refine (h.txn u hu).congr (fun k => (hver k).2.1) (fun k hk => ?_) (fun hv p hp => ?_)
        (fun row hr => ?_) fun row hr => ?_
      · -- a column with the same version was not updated
        have hk' : k ∉ (s.txns t).updates.map Prod.fst := fun hmem =>
          absurd hk (Nat.ne_of_gt ((hver k).2.2 hmem))
        simp only [SchedulerOcc.setTxn,hval,overlay]
        rw [lookup_eq_none.mpr hk']
        rfl
      · exact (hver p.1).1 (h.disjoint hne ht hvt hu hv p hp)
      · simp only [SchedulerOcc.setTxn,update_self,hlk]
        exact (unlockAll_same t s.lock _ row).holds hne hr
      · simp only [SchedulerOcc.setTxn,update_self,hlk]
        exact (unlockAll_same t s.lock _ row u hne).1.mpr hr
  · simp only [releaseResource,SchedulerOcc.setTxn,hval]
    refine h.serial.concat (hx.buffered.replays fun p hp => ?_)
    obtain ⟨q,hq,rfl⟩ := mem_map.mp hp
    exact (hcur q hq).2

theorem Inv.abort (hs : s.abort t = some s') : Inv σ s' := by
  simp only [SchedulerOcc.abort] at hs
  split_ifs at hs
  cases hs
  have hinv := h.setTxn (x:={s.txns t with ended := true, updates := [], locks := [], verCheckRead := []})
    (Locking.unlockAll t s.lock (s.txns t).locks) (by simp)
  simpa [releaseResource,SchedulerOcc.setTxn] using hinv

theorem Inv.step {a : Action R C V} (hp : s.Permitted a) (hs : s.step a = some s') : Inv σ s' := by
  cases a with
  | readColumn t k => exact h.readColumn hp hs
  | writeColumn t k v => exact h.writeColumn hp hs
  | doPrepare t reads writes =>
    obtain ⟨⟨s₁,ret⟩,hpre,rfl⟩ := Option.map_eq_some_iff.mp hs
    exact h.doPrepare hpre
  | doCommit t => exact h.doCommit hs
  | abort t => exact h.abort hs

end

/-- If a transaction reads and writes before its `DoPrepare` returns true and is committed after
that: at a `DoCommit` every column it read from the table has the version and the value it read;
and the committed transactions replay in the order of their commits from the initial table to the
present one. -/
theorem occ_isolation (σ : R × C → V) {s : SchedulerOcc R C V}
    (h : ReachableBy (system σ) Permitted s) :
    (∀ t s', s.Permitted (.doCommit t) → s.step (.doCommit t) = some s' →
      ∀ p ∈ (s.txns t).tableReads, s.ver p.1 = p.2.1 ∧ s.value p.1 = p.2.2) ∧
    SerialRun σ s.committed s.value := by
  obtain ⟨s₀,rfl,hrun⟩ := h
  have hinv : Inv σ s := hrun.invariant (fun _ _ _ hp hi hs => hi.step hp hs) (Inv.init σ)
  exact ⟨fun t s' _ hs => hinv.reads_current hs,hinv.serial⟩

/-- Transaction 1 reads row `false` and writes row `true`, transaction 2 the other way
round; 2 commits, and the check of 1 fails. -/
def skew : List (Action Bool Unit ℕ) :=
  [.readColumn 1 (false,()),.writeColumn 1 (true,()) 5,.readColumn 2 (true,()),
    .writeColumn 2 (false,()) 7,.doPrepare 2 [(true,())] [(false,())]]

theorem occ_isolation_skew :
    (∀ p ∈ ((after (system fun _ => 0) Permitted {value := fun _ => 0} skew).txns 2).tableReads,
      (after (system fun _ => 0) Permitted {value := fun _ => 0} skew).ver p.1 = p.2.1 ∧
      (after (system fun _ => 0) Permitted {value := fun _ => 0} skew).value p.1 = p.2.2) ∧
    ((after (system fun _ => 0) Permitted {value := fun _ => 0} skew).txns 2).tableReads ≠ [] :=
  ⟨(occ_isolation (fun _ => 0) ⟨_,rfl,run_after _ skew⟩).1 2 _ (by decide +kernel)
    (Option.some_get (by decide +kernel)).symm,by decide +kernel⟩

/-- Nothing stops a transaction from reading after its `DoPrepare` returned true; such a
read can be out of date at its `DoCommit`. -/
theorem stale_read_after_prepare :
    ¬∀ s : SchedulerOcc Unit Unit ℕ, ReachableBy (system fun _ => 0) CommitPrepared s →
      ∀ t s', s.CommitPrepared (.doCommit t) → s.step (.doCommit t) = some s' →
      ∀ p ∈ (s.txns t).tableReads, s.ver p.1 = p.2.1 ∧ s.value p.1 = p.2.2 := by
  intro h
  have hrun : ReachableBy (system fun _ => 0) CommitPrepared
      (after (system fun _ => 0) CommitPrepared ({value := fun _ => 0} : SchedulerOcc Unit Unit ℕ)
        [.doPrepare 1 [] [],.readColumn 1 ((),()),.writeColumn 2 ((),()) 7,
          .doPrepare 2 [] [((),())],.doCommit 2]) := ⟨_,rfl,run_after _ _⟩
  have hall := h _ hrun 1 _ (by decide +kernel) (Option.some_get (by decide +kernel)).symm
  exact absurd hall (by decide +kernel)

end SchedulerOcc
end Janus.Occ
