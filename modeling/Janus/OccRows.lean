import Janus.TxnOcc

/-! `TxnOCC` (`memdb/txn_occ.cc`) and `SchedulerOcc` (`occ/scheduler.cc`) with rows that are
inserted and removed, on leaders and followers. A row outside of the tables is read and written in
place. -/

namespace Janus.OccRows

open Occ Transition List

/-- A `verify` of `TxnOCC`, of the scheduler or of the tables, or the use of the table of a row
that has none. -/
inductive Fault where
  | txnOcc
  | scheduler
  | memdb
  | null
  deriving DecidableEq

/-- The last field records which columns in `verCheckRead` another transaction has changed by its
commit since. -/
structure Txn (T R C V : Type) where
  started : Bool := false
  verCheckRead : List ((R × C) × ℕ) := []
  verCheckWrite : List ((R × C) × ℕ) := []
  updates : List ((R × C) × V) := []
  inserts : List (T × R) := []
  removes : List (T × R) := []
  locks : List R := []
  verified : Bool := false
  debugAbort : ℤ := -1
  overtaken : List (R × C) := []

structure Server (T R C V : Type) where
  value : R × C → V
  ver : R × C → ℕ
  table : R → Option T
  lock : R → RWLock := fun _ => {}
  txns : ℕ → Txn T R C V := fun _ => {}

/-- The calls. The iteration orders of `ver_check_read_` and `updates_` are part of
`doPrepare`, as rows. -/
inductive Action (T R C V : Type) where
  | readColumn (t : ℕ) (k : R × C)
  | writeColumn (t : ℕ) (k : R × C) (v : V)
  | insertRow (t : ℕ) (tbl : T) (row : R)
  | removeRow (t : ℕ) (tbl : T) (row : R)
  | doPrepare (t : ℕ) (leader : Bool) (reads writes : List R)
  | doCommit (t : ℕ)
  | abort (t : ℕ)

namespace Server

variable {T R C V : Type}

def setTxn (s : Server T R C V) (t : ℕ) (x : Txn T R C V) : Server T R C V :=
  {s with txns := Function.update s.txns t x}

def getMdbTxn (s : Server T R C V) (t : ℕ) : Txn T R C V := {s.txns t with started := true}

section Calls

variable [DecidableEq T] [DecidableEq R] [DecidableEq C]

variable (s : Server T R C V)

def readColumn (t : ℕ) (k : R × C) : Except Fault (Server T R C V × V) :=
  let x := s.getMdbTxn t
  if s.table k.1 = none then .ok (s.setTxn t x,s.value k)
  else
    match x.updates.lookup k with
    | some v => .ok (s.setTxn t x,v)
    | none =>
      match x.verCheckRead.lookup k with
      | some ver => if ver < s.ver k then .error .txnOcc else .ok (s.setTxn t x,s.value k)
      | none =>
        .ok (s.setTxn t {x with verCheckRead := x.verCheckRead++[(k,s.ver k)]},s.value k)

def writeColumn (t : ℕ) (k : R × C) (v : V) : Except Fault (Server T R C V) :=
  let x := s.getMdbTxn t
  if s.table k.1 = none then .ok {s.setTxn t x with value := Function.update s.value k v}
  else
    match x.updates.lookup k with
    | some _ =>
      .ok (s.setTxn t {x with
        updates := x.updates.map fun p : (R × C) × V => if p.1 = k then (k,v) else p})
    | none =>
      if (x.verCheckRead.lookup k).any (· < s.ver k) then .error .txnOcc
      else .ok (s.setTxn t {x with updates := x.updates++[(k,v)]})

def insertRow (t : ℕ) (tbl : T) (row : R) : Except Fault (Server T R C V) :=
  let x := s.getMdbTxn t
  if s.table row = none then
    .ok (s.setTxn t {x with
      inserts := x.inserts++[(tbl,row)]
      removes := x.removes.erase (tbl,row)})
  else .error .txnOcc

def rememberRow (ver : R × C → ℕ) (row : R) (cols : List C) (l : List ((R × C) × ℕ)) :
    List ((R × C) × ℕ) :=
  cols.foldl (fun l c => if (l.lookup (row,c)).isSome then l else l++[((row,c),ver (row,c))]) l

def removeRow (columns : R → List C) (s : Server T R C V) (t : ℕ) (tbl : T) (row : R) :
    Except Fault (Server T R C V) :=
  let x := s.getMdbTxn t
  let x' := {x with updates := x.updates.filter fun p => p.1.1 ≠ row}
  if (tbl,row) ∈ x.inserts then
    .ok (s.setTxn t {x' with inserts := x.inserts.erase (tbl,row)})
  else
    .ok (s.setTxn t {x' with
      verCheckWrite := rememberRow s.ver row (columns row) x.verCheckWrite
      removes := x.removes.insert (tbl,row)})

def debugVersionCheck (x : Txn T R C V) : Bool :=
  x.verCheckRead.all fun p => !(x.verCheckWrite.lookup p.1).any (p.2 < ·)

def versionCheck (x : Txn T R C V) : Bool :=
  (x.verCheckRead++x.verCheckWrite).all fun p => s.ver p.1 = p.2

def doPrepare (t : ℕ) (leader : Bool) (reads writes : List R) :
    Except Fault (Server T R C V × Bool) :=
  let x := s.getMdbTxn t
  if x.verified then .error .scheduler
  else if leader ∧ debugVersionCheck x = false then .error .txnOcc
  else if leader ∧ s.versionCheck x = false then .ok (s.setTxn t {x with debugAbort := 1},false)
  else
    match rlockAll t s.lock reads x.locks with
    | (lock,held,false) =>
      .ok ({s with lock := lock}.setTxn t {x with locks := held, debugAbort := 1},false)
    | (lock,held,true) =>
      match wlockAll t lock writes held with
      | (lock,held,false) =>
        .ok ({s with lock := lock}.setTxn t {x with locks := held, debugAbort := 1},false)
      | (lock,held,true) =>
        .ok ({s with lock := lock}.setTxn t
          {x with locks := held, debugAbort := 0, verified := true},true)

/-- The insertions of `DoCommit`; `Row::set_table` refuses a row that has a table. -/
def insertAll : (R → Option T) → List (T × R) → Except Fault (R → Option T)
  | table, [] => .ok table
  | table, (tbl,row)::rest =>
    if table row = none then insertAll (Function.update table row (some tbl)) rest
    else .error .memdb

def applyUpdates : Server T R C V → List ((R × C) × V) → Except Fault (Server T R C V)
  | s, [] => .ok s
  | s, (k,v)::rest =>
    if s.table k.1 = none then .error .null
    else applyUpdates {s with
      value := Function.update s.value k v
      ver := Function.update s.ver k (s.ver k+1)} rest

/-- The removals of `DoCommit`: all columns of the row get a new version, and the table
gives up the row if it has it. -/
def removeAll (columns : R → List C) (s : Server T R C V) (removes : List (T × R)) :
    Server T R C V :=
  removes.foldl (fun s p => {s with
    ver := (columns p.2).foldl (fun ver c => Function.update ver (p.2,c) (ver (p.2,c)+1)) s.ver
    table := if s.table p.2 = some p.1 then Function.update s.table p.2 none else s.table}) s

/-- `TxnOCC::release_resource` with the deletion of the transaction; the locks are given
back for the given rows. -/
def release (t : ℕ) (locks : List R) : Server T R C V :=
  {s with lock := unlockAll t s.lock locks}.setTxn t {}

/-- The commit of `x` changes columns that other transactions have read. -/
def overtake (t : ℕ) (x : Txn T R C V) : Server T R C V :=
  {s with txns := fun u =>
      if u = t then s.txns u
      else {s.txns u with
        overtaken := (s.txns u).overtaken++((s.txns u).verCheckRead.map Prod.fst).filter
          fun k => k ∈ x.updates.map Prod.fst ∨ k.1 ∈ x.removes.map Prod.snd}}

/-- `SchedulerOcc::DoCommit`. The locks of a row that is removed are not given back. -/
def doCommit (columns : R → List C) (s : Server T R C V) (t : ℕ) :
    Except Fault (Server T R C V) :=
  let x := s.getMdbTxn t
  if x.debugAbort ≠ 0 ∨ x.verified = false then .error .scheduler
  else
    match insertAll s.table x.inserts with
    | .error e => .error e
    | .ok table =>
      match applyUpdates {s with table := table} x.updates with
      | .error e => .error e
      | .ok s =>
        .ok (((removeAll columns s x.removes).overtake t x).release t
          (x.locks.filter fun row => row ∉ x.removes.map Prod.snd))

def abort (t : ℕ) : Except Fault (Server T R C V) :=
  if (s.txns t).started then .ok (s.release t (s.txns t).locks) else .error .scheduler

def call (columns : R → List C) (s : Server T R C V) : Action T R C V → Except Fault (Server T R C V)
  | .readColumn t k => (s.readColumn t k).map Prod.fst
  | .writeColumn t k v => s.writeColumn t k v
  | .insertRow t tbl row => s.insertRow t tbl row
  | .removeRow t tbl row => s.removeRow columns t tbl row
  | .doPrepare t leader reads writes => (s.doPrepare t leader reads writes).map Prod.fst
  | .doCommit t => s.doCommit columns t
  | .abort t => s.abort t

def Orders : Action T R C V → Prop
  | .doPrepare t _ reads writes =>
    reads.Perm ((s.txns t).verCheckRead.map fun p => p.1.1) ∧
    writes.Perm ((s.txns t).updates.map fun p => p.1.1)
  | _ => True

instance (s : Server T R C V) (a : Action T R C V) : Decidable (s.Orders a) := by
  cases a <;> unfold Orders <;> infer_instance

def system (columns : R → List C) : System (Server T R C V) (Action T R C V) where
  init s := (∀ row, s.lock row = {}) ∧ ∀ t, s.txns t = {}
  step s a := if s.Orders a then (s.call columns a).toOption else none

end Calls

end Server

/-! ### The leader's model

Without insertions and removals a leader does what `Occ.SchedulerOcc` does, call by call. -/

section Leader

variable {T R C V : Type} {x : TxnOcc R C V} {y : Txn T R C V}
variable {s s' : SchedulerOcc R C V} {r r' : Server T R C V} {t : ℕ}

def TxnAgrees (x : TxnOcc R C V) (y : Txn T R C V) : Prop :=
  ∃ started debugAbort overtaken,
    y = {started, verCheckRead := x.verCheckRead, updates := x.updates, locks := x.locks,
         verified := x.verified, debugAbort, overtaken} ∧
    (started = false → x = {}) ∧ (x.verified = true → x.debugAbort = false ∧ debugAbort = 0)

structure Agrees (s : SchedulerOcc R C V) (r : Server T R C V) : Prop where
  value : r.value = s.value
  ver : r.ver = s.ver
  table : ∀ row, r.table row ≠ none
  lock : r.lock = s.lock
  txns : ∀ t, (s.txns t).ended = false → TxnAgrees (s.txns t) (r.txns t)

/-- Both calls end the process, or both return and the states agree. -/
inductive Together : Option (SchedulerOcc R C V) → Except Fault (Server T R C V) → Prop
  | fault {e : Fault} : Together none (.error e)
  | done {s : SchedulerOcc R C V} {r : Server T R C V} (h : Agrees s r) : Together (some s) (.ok r)

def txnOf : Occ.Action R C V → ℕ
  | .readColumn t _ | .writeColumn t _ _ | .doPrepare t _ _ | .doCommit t | .abort t => t

def leaderCall : Occ.Action R C V → Action T R C V
  | .readColumn t k => .readColumn t k
  | .writeColumn t k v => .writeColumn t k v
  | .doPrepare t reads writes => .doPrepare t true (reads.map Prod.fst) (writes.map Prod.fst)
  | .doCommit t => .doCommit t
  | .abort t => .abort t

def Underway (s : SchedulerOcc R C V) (a : Occ.Action R C V) : Prop :=
  (s.txns (txnOf a)).ended = false ∧ ∀ t, a = .abort t → s.txns t ≠ {}

theorem Agrees.setTxn (h : Agrees s r) (hx : x.ended = false → TxnAgrees x y) :
    Agrees (s.setTxn t x) (r.setTxn t y) := by
  refine ⟨h.value,h.ver,h.table,h.lock,fun u hu => ?_⟩
  unfold SchedulerOcc.setTxn Server.setTxn at *
  rcases eq_or_ne u t with rfl | hne
  · simp only [Function.update_self] at hu ⊢
    exact hx hu
  · simp only [Function.update_of_ne hne] at hu ⊢
    exact h.txns u hu

variable [DecidableEq R]

theorem Agrees.release (h : Agrees s r) (hx : x.ended = true) :
    Agrees ((s.setTxn t x).releaseResource t) (r.release t x.locks) := by
  have hself : (s.setTxn t x).txns t = x := Function.update_self ..
  unfold SchedulerOcc.releaseResource Server.release
  refine ⟨h.value,h.ver,h.table,?_,fun u hu => ?_⟩
  · rw [hself,h.lock]
    rfl
  · have hne : u ≠ t := by
      rintro rfl
      simp [SchedulerOcc.setTxn,hx] at hu
    simp only [SchedulerOcc.setTxn,Server.setTxn,Function.update_of_ne hne] at hu ⊢
    exact h.txns u hu

variable [DecidableEq C]

theorem Agrees.applyUpdates : ∀ (updates : List ((R × C) × V)) {s : SchedulerOcc R C V}
    {r : Server T R C V}, Agrees s r →
    ∃ r', r.applyUpdates updates = .ok r' ∧ Agrees (s.applyUpdates updates) r' := by
  intro updates
  induction updates with
  | nil => exact fun h => ⟨_,rfl,h⟩
  | cons p rest ih =>
    intro s r h
    unfold Server.applyUpdates
    rw [if_neg (h.table p.1.1),h.value,h.ver]
    exact ih ⟨rfl,rfl,h.table,h.lock,h.txns⟩

theorem Agrees.overtake (h : Agrees s r) (t : ℕ) (y : Txn T R C V) :
    Agrees s (r.overtake t y) := by
  refine ⟨h.value,h.ver,h.table,h.lock,fun u hu => ?_⟩
  obtain ⟨started,debugAbort,overtaken,hx,hd⟩ := h.txns u hu
  unfold Server.overtake
  dsimp only
  split_ifs
  · exact ⟨_,_,_,hx,hd⟩
  · rw [hx]
    exact ⟨_,_,_,rfl,hd⟩

section

variable (h : Agrees s r) (ht : (s.txns t).ended = false)
include h ht

theorem Agrees.readColumn (k : R × C) :
    Together (s.readColumn t k) ((r.readColumn t k).map Prod.fst) := by
  obtain ⟨started,debugAbort,overtaken,hx,-,hd⟩ := h.txns t ht
  unfold SchedulerOcc.readColumn Server.readColumn Server.getMdbTxn
  rw [hx,h.ver]
  dsimp only
  rw [if_neg (by simp [ht]),if_neg (h.table k.1)]
  cases (s.txns t).updates.lookup k with
  | some v => exact .done (h.setTxn fun _ => ⟨_,_,_,rfl,nofun,hd⟩)
  | none =>
    cases (s.txns t).verCheckRead.lookup k with
    | some ver =>
      dsimp only
      split_ifs
      · exact .fault
      · exact .done (h.setTxn fun _ => ⟨_,_,_,rfl,nofun,hd⟩)
    | none => exact .done (h.setTxn fun _ => ⟨_,_,_,rfl,nofun,hd⟩)

theorem Agrees.writeColumn (k : R × C) (v : V) :
    Together (s.writeColumn t k v) (r.writeColumn t k v) := by
  obtain ⟨started,debugAbort,overtaken,hx,-,hd⟩ := h.txns t ht
  unfold SchedulerOcc.writeColumn Server.writeColumn Server.getMdbTxn
  rw [hx,h.ver]
  dsimp only
  rw [if_neg (by simp [ht]),if_neg (h.table k.1)]
  cases (s.txns t).updates.lookup k with
  | some v => exact .done (h.setTxn fun _ => ⟨_,_,_,rfl,nofun,hd⟩)
  | none =>
    dsimp only
    split_ifs
    · exact .fault
    · exact .done (h.setTxn fun _ => ⟨_,_,_,rfl,nofun,hd⟩)

theorem Agrees.doPrepare {reads writes : List (R × C)}
    (hreads : reads.Perm ((s.txns t).verCheckRead.map Prod.fst))
    (hwrites : writes.Perm ((s.txns t).updates.map Prod.fst)) :
    Together ((s.doPrepare t reads writes).map Prod.fst)
      ((r.doPrepare t true (reads.map Prod.fst) (writes.map Prod.fst)).map Prod.fst) := by
  obtain ⟨started,debugAbort,overtaken,hx,-⟩ := h.txns t ht
  have hlock : ∀ lock, Agrees {s with lock := lock} {r with lock := lock} := fun lock =>
    ⟨h.value,h.ver,h.table,rfl,h.txns⟩
  unfold SchedulerOcc.doPrepare Server.doPrepare Server.getMdbTxn
  rw [hx,h.lock,if_neg (not_not_intro ⟨hreads,hwrites⟩)]
  dsimp only
  by_cases hv : (s.txns t).verified = true
  · rw [if_pos (.inr hv),if_pos hv]
    exact .fault
  rw [if_neg (by simp [ht,hv]),if_neg hv]
  by_cases hc : ∃ p ∈ (s.txns t).verCheckRead, s.ver p.1 ≠ p.2
  · rw [if_pos hc,if_neg (by simp [Server.debugVersionCheck]),
      if_pos (by simpa [Server.versionCheck,h.ver] using hc)]
    exact .done (h.setTxn fun _ => ⟨_,_,_,rfl,nofun,fun hv' => absurd hv' hv⟩)
  rw [if_neg hc,if_neg (by simp [Server.debugVersionCheck]),
    if_neg (by simpa [Server.versionCheck,h.ver] using hc)]
  rcases rlockAll t s.lock (reads.map Prod.fst) (s.txns t).locks with ⟨lock,held,_ | _⟩
  · exact .done ((hlock lock).setTxn fun _ => ⟨_,_,_,rfl,nofun,fun hv' => absurd hv' hv⟩)
  dsimp only
  rcases wlockAll t lock (writes.map Prod.fst) held with ⟨lock,held,_ | _⟩
  · exact .done ((hlock lock).setTxn fun _ => ⟨_,_,_,rfl,nofun,fun hv' => absurd hv' hv⟩)
  · exact .done ((hlock lock).setTxn fun _ => ⟨_,_,_,rfl,nofun,fun _ => ⟨rfl,rfl⟩⟩)

omit [DecidableEq C] in
theorem Agrees.abort (hne : s.txns t ≠ {}) : Together (s.abort t) (r.abort t) := by
  obtain ⟨started,debugAbort,overtaken,hx,hstart,-⟩ := h.txns t ht
  have hstarted : started = true := by
    by_contra hno
    exact hne (hstart (by simpa using hno))
  unfold SchedulerOcc.abort Server.abort
  rw [hx]
  dsimp only
  rw [if_neg (by simp [ht]),if_pos hstarted]
  exact .done (h.release rfl)

variable [DecidableEq T]

theorem Agrees.doCommit (columns : R → List C) : Together (s.doCommit t) (r.doCommit columns t) := by
  obtain ⟨started,debugAbort,overtaken,hx,-,hd⟩ := h.txns t ht
  unfold SchedulerOcc.doCommit Server.doCommit Server.getMdbTxn
  rw [hx]
  dsimp only
  by_cases hv : (s.txns t).verified = true
  · obtain ⟨hs,hr⟩ := hd hv
    obtain ⟨r₁,hr₁,hagree⟩ := h.applyUpdates (s.txns t).updates
    rw [if_neg (by simp [hs,ht,hv]),if_neg (by simp [hr,hv])]
    change Together _ (match r.applyUpdates (s.txns t).updates with | .error e => _ | .ok s => _)
    rw [hr₁]
    have hrel := fun y => (hagree.overtake t y).release (t:=t) (x:={s.txns t with ended := true}) rfl
    have hlocks : ((s.txns t).locks.filter fun row => row ∉ ([] : List (T × R)).map Prod.snd) =
        (s.txns t).locks := by simp
    rw [hlocks]
    exact .done {hrel _ with}
  · rw [if_pos (by simp [hv]),if_pos (by simp [hv])]
    exact .fault

end

variable [DecidableEq T]

theorem Agrees.call (columns : R → List C) (h : Agrees s r) {a : Occ.Action R C V}
    (ha : Underway s a) (hs : s.step a = some s') :
    ∃ r', (Server.system columns).step r (leaderCall a) = some r' ∧ Agrees s' r' := by
  have hboth : Together (s.step a) (r.call columns (leaderCall a)) ∧ r.Orders (leaderCall a) := by
    cases a with
    | readColumn t k => exact ⟨h.readColumn ha.1 k,trivial⟩
    | writeColumn t k v => exact ⟨h.writeColumn ha.1 k v,trivial⟩
    | doPrepare t reads writes =>
      have hperm : reads.Perm ((s.txns t).verCheckRead.map Prod.fst) ∧
          writes.Perm ((s.txns t).updates.map Prod.fst) := by
        by_contra hno
        simp [SchedulerOcc.step,SchedulerOcc.doPrepare,hno] at hs
      obtain ⟨_,_,_,hx,-⟩ := h.txns t ha.1
      refine ⟨h.doPrepare ha.1 hperm.1 hperm.2,?_⟩
      change List.Perm _ ((r.txns t).verCheckRead.map _) ∧ List.Perm _ ((r.txns t).updates.map _)
      rw [hx]
      have hreads := hperm.1.map Prod.fst
      have hwrites := hperm.2.map Prod.fst
      rw [map_map] at hreads hwrites
      exact ⟨hreads,hwrites⟩
    | doCommit t => exact ⟨h.doCommit ha.1 columns,trivial⟩
    | abort t => exact ⟨h.abort ha.1 (ha.2 t rfl),trivial⟩
  obtain ⟨htogether,horders⟩ := hboth
  rw [hs] at htogether
  generalize hr : r.call columns (leaderCall a) = res at htogether
  cases htogether with
  | done hagree =>
    refine ⟨_,?_,hagree⟩
    change (if r.Orders (leaderCall a) then (r.call columns (leaderCall a)).toOption else none) = _
    rw [if_pos horders,hr]
    rfl

/-- Every run of the leader's model without late calls is a run here. -/
theorem leader_run (columns : R → List C) (table : R → T) {σ : R × C → V}
    (h : ReachableBy (Occ.system σ) Underway s) :
    ∃ r : Server T R C V, Reachable (Server.system columns) r ∧ Agrees s r := by
  obtain ⟨s₀,rfl,hrun⟩ := h
  induction hrun with
  | refl =>
    let r₀ : Server T R C V := {value := σ, ver := fun _ => 0, table := fun row => some (table row)}
    refine ⟨r₀,⟨r₀,⟨fun _ => rfl,fun _ => rfl⟩,.refl r₀⟩,rfl,rfl,by simp [r₀],rfl,fun t _ => ?_⟩
    exact ⟨_,_,_,rfl,fun _ => rfl,nofun⟩
  | tail _ ha hs ih =>
    obtain ⟨r,⟨r₀,hinit,hr⟩,hagree⟩ := ih
    obtain ⟨r',hr',hagree'⟩ := hagree.call columns ha hs
    exact ⟨r',⟨r₀,hinit,hr.tail trivial hr'⟩,hagree'⟩

end Leader

section Locks

variable {l : RWLock} {t : ℕ}

theorem not_holds_unlockBy (l : RWLock) (t : ℕ) : ¬(l.unlockBy t).Holds t := by
  unfold RWLock.unlockBy RWLock.Holds
  rintro (hw | hr)
  · by_cases h : l.w = some t
    · simp [h] at hw
    · simp [h] at hw
  · simp at hr

structure Took (t : ℕ) (l l' : RWLock) : Prop where
  holds : l'.Holds t
  same : RWLock.SameFor t l l'
  read : (l'.rlockBy t).2 = (l.rlockBy t).2
  write : (l'.wlockBy t).2 = (l.wlockBy t).2

theorem Took.rlockBy (h : (l.rlockBy t).2 = true) : Took t l (l.rlockBy t).1 := by
  refine ⟨RWLock.rlockBy_holds h,(RWLock.rlockBy_step t l).same,?_,?_⟩
  · cases hw : l.w with
    | some w | none => simp [RWLock.rlockBy,hw]
  · cases hw : l.w with
    | some w => simp [RWLock.rlockBy,hw]
    | none =>
      -- the only reader may also be the one that asks
      have hempty : insert t l.r ≠ ∅ := Finset.insert_ne_empty t l.r
      have hone : insert t l.r = {t} ↔ l.r = ∅ ∨ l.r = {t} := by
        rw [← Finset.subset_singleton_iff]
        constructor
        · intro he
          exact he ▸ Finset.subset_insert t l.r
        · intro hsub
          exact Finset.Subset.antisymm (Finset.insert_subset (Finset.mem_singleton_self t) hsub)
            (Finset.singleton_subset_iff.mpr (Finset.mem_insert_self t _))
      simp only [RWLock.rlockBy,RWLock.wlockBy,hw,if_neg hempty,hone]
      by_cases he : l.r = ∅
      · simp [he]
      · by_cases ho : l.r = {t}
        · simp [ho]
        · simp [he,ho]

theorem granted_of_writes (h : l.w = some t) : (l.rlockBy t).2 = true ∧ (l.wlockBy t).2 = true := by
  simp [RWLock.rlockBy,RWLock.wlockBy,h]

theorem Took.wlockBy (h : (l.wlockBy t).2 = true) : Took t l (l.wlockBy t).1 := by
  have hw' := RWLock.wlockBy_writes h
  refine ⟨Or.inl hw',(RWLock.wlockBy_step t l).same,?_,(granted_of_writes hw').2.trans h.symm⟩
  rw [(granted_of_writes hw').1]
  cases hw : l.w with
  | some w =>
    simp only [RWLock.wlockBy,hw] at h
    simp [RWLock.rlockBy,hw,of_decide_eq_true h]
  | none => simp [RWLock.rlockBy,hw]

end Locks

section Loops

variable {R : Type} [DecidableEq R] {t : ℕ} {lock lock' : R → RWLock} {rows held : List R}

theorem unlockAll_holds (t : ℕ) (rows : List R) : ∀ (lock : R → RWLock) (row : R),
    (unlockAll t lock rows row).Holds t ↔ (lock row).Holds t ∧ row ∉ rows := by
  induction rows with
  | nil => exact fun lock row => by simp [unlockAll]
  | cons r rows ih =>
    intro lock row
    refine (ih (Function.update lock r ((lock r).unlockBy t)) row).trans ?_
    rcases eq_or_ne row r with rfl | hne
    · simp [not_holds_unlockBy]
    · simp [hne]

structure Taken (t : ℕ) (lock lock' : R → RWLock) (rows : List R) : Prop where
  holds : ∀ row, (lock' row).Holds t ↔ (lock row).Holds t ∨ row ∈ rows
  same : ∀ row, RWLock.SameFor t (lock row) (lock' row)
  read : ∀ row, ((lock' row).rlockBy t).2 = ((lock row).rlockBy t).2
  write : ∀ row, ((lock' row).wlockBy t).2 = ((lock row).wlockBy t).2

omit [DecidableEq R] in
theorem Taken.nil (t : ℕ) (lock : R → RWLock) : Taken t lock lock [] :=
  ⟨by simp,fun _ => .refl t _,fun _ => rfl,fun _ => rfl⟩

omit [DecidableEq R] in
theorem Taken.append {lock'' : R → RWLock} {rows' : List R} (h : Taken t lock lock' rows)
    (h' : Taken t lock' lock'' rows') : Taken t lock lock'' (rows++rows') := by
  refine ⟨?_,fun row => (h.same row).trans (h'.same row),
    fun row => (h'.read row).trans (h.read row),fun row => (h'.write row).trans (h.write row)⟩
  intro row
  rw [h'.holds,h.holds,mem_append,or_assoc]

theorem Taken.update {row : R} {l : RWLock} (h : Took t (lock row) l) :
    Taken t lock (Function.update lock row l) [row] := by
  refine ⟨?_,?_,?_,?_⟩ <;> intro r <;> rcases eq_or_ne r row with rfl | hne
  · simp [h.holds]
  · simp [hne]
  · simpa using h.same
  · simpa [hne] using RWLock.SameFor.refl t (lock r)
  · simpa using h.read
  · simp [hne]
  · simpa using h.write
  · simp [hne]

theorem lockAll_append {take : RWLock → RWLock × Bool} {undo : List R → R → List R} {pre : List R}
    (htook : ∀ l, (take l).2 = true → Took t l (take l).1)
    (hkeep : ∀ {lock lock' : R → RWLock} {rows : List R}, Taken t lock lock' rows →
      ∀ row, (take (lock' row)).2 = (take (lock row)).2) : ∀ (lock : R → RWLock) (held : List R),
    (∀ row ∈ pre, (take (lock row)).2 = true) → ∃ lock', Taken t lock lock' pre ∧
      ∀ rows, lockAll t take undo lock (pre++rows) held = lockAll t take undo lock' rows (held++pre) := by
  induction pre with
  | nil => exact fun lock held _ => ⟨lock,.nil t lock,fun rows => by simp⟩
  | cons row pre ih =>
    intro lock held h
    have hrow := h row (mem_cons_self ..)
    have htaken := Taken.update (htook _ hrow)
    obtain ⟨lock',htaken',hloop⟩ := ih _ (held++[row])
      (fun r hr => (hkeep htaken r).trans (h r (mem_cons_of_mem _ hr)))
    refine ⟨lock',htaken.append htaken',fun rows => ?_⟩
    rw [cons_append,lockAll,if_pos hrow,hloop,append_assoc]
    rfl

theorem rlockAll_append {pre : List R} (lock : R → RWLock) (held : List R)
    (h : ∀ row ∈ pre, ((lock row).rlockBy t).2 = true) : ∃ lock', Taken t lock lock' pre ∧
      ∀ rows, rlockAll t lock (pre++rows) held = rlockAll t lock' rows (held++pre) :=
  lockAll_append (fun _ => Took.rlockBy) (fun h => h.read) lock held h

theorem wlockAll_append {pre : List R} (lock : R → RWLock) (held : List R)
    (h : ∀ row ∈ pre, ((lock row).wlockBy t).2 = true) : ∃ lock', Taken t lock lock' pre ∧
      ∀ rows, wlockAll t lock (pre++rows) held = wlockAll t lock' rows (held++pre) :=
  lockAll_append (fun _ => Took.wlockBy) (fun h => h.write) lock held h

end Loops

namespace Server

variable {T R C V : Type} [DecidableEq R] [DecidableEq C] {s s' : Server T R C V}

/-- A `DoPrepare` of `t` that returns false gives back all locks of `t`. After a failed read lock
these are the ones noted before; after a failed write lock only that row, and only if any was
noted. -/
def Cleans (s : Server T R C V) (t : ℕ) (leader : Bool) (reads writes : List R) : Prop :=
  let x := s.getMdbTxn t
  let readable := fun row => ((s.lock row).rlockBy t).2
  let writable := fun row => ((s.lock row).wlockBy t).2
  if leader ∧ s.versionCheck x = false then ∀ row, ¬(s.lock row).Holds t
  else
    match reads.dropWhile readable with
    | _::_ => ∀ row, (s.lock row).Holds t → row ∈ x.locks++reads.takeWhile readable
    | [] =>
      match writes.dropWhile writable with
      | k::_ => ∀ row, (s.lock row).Holds t ∨ row ∈ reads++writes.takeWhile writable →
        row = k ∧ x.locks++reads++writes.takeWhile writable ≠ []
      | [] => True

omit [DecidableEq R] in
theorem eq_append_of_dropWhile {p : R → Bool} {rows post : List R} {k : R}
    (h : rows.dropWhile p = k::post) :
    rows = rows.takeWhile p++k::post ∧ (∀ row ∈ rows.takeWhile p, p row = true) ∧ p k = false := by
  refine ⟨?_,fun row hr => mem_takeWhile_imp hr,?_⟩
  · rw [← h,takeWhile_append_dropWhile]
  · have hhead := head_dropWhile_not p (l:=rows) (by simp [h])
    simpa [h] using hhead

/-- A failed prepare. The others have the locks they had, and the transaction has none
left in just the cases above. -/
theorem doPrepare_false {t : ℕ} {leader : Bool} {reads writes : List R}
    (h : s.doPrepare t leader reads writes = .ok (s',false)) :
    (∀ row, RWLock.SameFor t (s.lock row) (s'.lock row)) ∧
    ((∀ row, ¬(s'.lock row).Holds t) ↔ s.Cleans t leader reads writes) := by
  unfold doPrepare at h
  unfold Cleans
  dsimp only at h ⊢
  split_ifs at h with hver hdebug hcheck
  · cases h
    rw [if_pos hcheck]
    exact ⟨fun row => .refl t _,Iff.rfl⟩
  rw [if_neg hcheck]
  set held := (s.getMdbTxn t).locks
  cases hr : reads.dropWhile fun row => ((s.lock row).rlockBy t).2 with
  | cons k post =>
    obtain ⟨hsplit,hpre,hk⟩ := eq_append_of_dropWhile hr
    obtain ⟨lock,htaken,hloop⟩ := rlockAll_append _ held hpre
    have hfail : rlockAll t s.lock reads held = (unlockAll t lock
        (held++reads.takeWhile fun row => ((s.lock row).rlockBy t).2),[],false) := by
      conv_lhs => rw [hsplit]
      rw [hloop,rlockAll,lockAll,if_neg (by simp [htaken.read,hk])]
    rw [hfail] at h
    cases h
    refine ⟨fun row => (htaken.same row).trans (unlockAll_same t _ _ row),?_⟩
    refine forall_congr' fun row => ?_
    show ¬(unlockAll t lock _ row).Holds t ↔ _
    rw [unlockAll_holds,htaken.holds,mem_append]
    tauto
  | nil =>
    have hall : ∀ row ∈ reads, ((s.lock row).rlockBy t).2 = true := by
      exact dropWhile_eq_nil_iff.mp hr
    obtain ⟨lock,htaken,hloop⟩ := rlockAll_append _ held hall
    have hread : rlockAll t s.lock reads held = (lock,held++reads,true) :=
      (congrArg (rlockAll t s.lock · held) (append_nil reads)).symm.trans (hloop [])
    rw [hread] at h
    dsimp only at h
    cases hw : writes.dropWhile fun row => ((s.lock row).wlockBy t).2 with
    | cons k post =>
      obtain ⟨hsplit,hpre,hk⟩ := eq_append_of_dropWhile hw
      obtain ⟨lock',htaken',hloop'⟩ := wlockAll_append _ (held++reads)
        (fun row hrow => (htaken.write row).trans (hpre row hrow))
      have hboth := htaken.append htaken'
      have hfail : wlockAll t lock writes (held++reads) =
          (unlockAll t lock' ((held++reads++writes.takeWhile fun row =>
            ((s.lock row).wlockBy t).2).map fun _ => k),[],false) := by
        conv_lhs => rw [hsplit]
        rw [hloop',wlockAll,lockAll,if_neg (by simp [hboth.write,hk])]
      rw [hfail] at h
      cases h
      refine ⟨fun row => (hboth.same row).trans (unlockAll_same t _ _ row),?_⟩
      refine forall_congr' fun row => ?_
      show ¬(unlockAll t lock' _ row).Holds t ↔ _
      rw [unlockAll_holds,hboth.holds,not_and,not_not,map_const',mem_replicate,
        Ne,length_eq_zero_iff]
      exact imp_congr_right fun _ => and_comm
    | nil =>
      -- then nothing stops the write lock loop, and the answer is true
      have hall' : ∀ row ∈ writes, ((lock row).wlockBy t).2 = true := by
        intro row hrow
        rw [htaken.write]
        exact dropWhile_eq_nil_iff.mp hw row hrow
      obtain ⟨lock',-,hloop'⟩ := wlockAll_append _ (held++reads) hall'
      have hwrite : wlockAll t lock writes (held++reads) = (lock',held++reads++writes,true) :=
        (congrArg (wlockAll t lock · _) (append_nil writes)).symm.trans (hloop' [])
      rw [hwrite] at h
      cases h

def contended : Server Unit Bool Unit ℕ where
  value _ := 0
  ver _ := 0
  table _ := some ()
  lock row := if row then {w := some 2} else {}
  txns t := if t = 1 then {verCheckRead := [((false,()),0)], updates := [((true,()),5)]} else {}

theorem doPrepare_false_contended :
    ∃ s', contended.doPrepare 1 true [false] [true] = .ok (s',false) ∧
      ((∀ row, ¬(s'.lock row).Holds 1) ↔ contended.Cleans 1 true [false] [true]) :=
  ⟨_,rfl,(doPrepare_false rfl).2⟩

/-- The failed write lock is cleaned up on its own row, and the read lock stays. -/
theorem read_lock_left :
    (contended.doPrepare 1 true [false] [true]).map (fun r => (r.2,decide (1 ∈ (r.1.lock false).r))) =
      .ok (false,true) := by
  decide +kernel

end Server

end Janus.OccRows
