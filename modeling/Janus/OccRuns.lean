import Janus.OccRows

/-! Runs of the OCC scheduler with rows that come and go. A removal is neither kept out by a lock
nor does it take one, and a transaction that comes back to a column after another one has committed
it fails a `verify` on the spot. -/

namespace Janus.OccRows

open Occ Transition Function List Except

variable {T R C V : Type}

def Txn.readRows (x : Txn T R C V) : List R := x.verCheckRead.map fun p => p.1.1

def Txn.updateRows (x : Txn T R C V) : List R := x.updates.map fun p => p.1.1

def Txn.removeRows (x : Txn T R C V) : List R := x.removes.map Prod.snd

def Txn.touched (x : Txn T R C V) : List R := x.readRows++x.updateRows++x.removeRows

structure Txn.Same (x y : Txn T R C V) : Prop where
  verCheckRead : y.verCheckRead = x.verCheckRead
  verCheckWrite : y.verCheckWrite = x.verCheckWrite
  updates : y.updates = x.updates
  removes : y.removes = x.removes
  verified : y.verified = x.verified

theorem Txn.Same.refl (x : Txn T R C V) : Txn.Same x x := ⟨rfl,rfl,rfl,rfl,rfl⟩

/-- A column was written: all but the updates and the start is as before. -/
structure Txn.Wrote (x y : Txn T R C V) : Prop where
  overtaken : y.overtaken = x.overtaken
  verCheckRead : y.verCheckRead = x.verCheckRead
  verCheckWrite : y.verCheckWrite = x.verCheckWrite
  removes : y.removes = x.removes
  verified : y.verified = x.verified

theorem Txn.Same.rows {x y : Txn T R C V} (h : Txn.Same x y) :
    y.readRows = x.readRows ∧ y.updateRows = x.updateRows ∧ y.removeRows = x.removeRows ∧
      y.touched = x.touched := by
  unfold Txn.touched Txn.readRows Txn.updateRows Txn.removeRows
  rw [h.verCheckRead,h.updates,h.removes]
  exact ⟨rfl,rfl,rfl,rfl⟩

namespace Server

variable {s s' : Server T R C V} {t u : ℕ} {x : Txn T R C V}

@[simp] theorem setTxn_self (s : Server T R C V) (t : ℕ) (x : Txn T R C V) :
    (s.setTxn t x).txns t = x := update_self _ _ _

theorem setTxn_of_ne (s : Server T R C V) (h : u ≠ t) (x : Txn T R C V) :
    (s.setTxn t x).txns u = s.txns u := update_of_ne h _ _

theorem same_of_eq (h : ∀ u ≠ t, s'.txns u = s.txns u) :
    ∀ u ≠ t, Txn.Same (s.txns u) (s'.txns u) := fun u hu => h u hu ▸ .refl _

/-- A call of `t` that leaves the tables, versions and locks as they are and `t` with the
transaction `x`. -/
structure Local (t : ℕ) (x : Txn T R C V) (s s' : Server T R C V) : Prop where
  ver : s'.ver = s.ver
  table : s'.table = s.table
  lock : s'.lock = s.lock
  own : s'.txns t = x
  others : ∀ u ≠ t, s'.txns u = s.txns u

theorem Local.setTxn (s : Server T R C V) (t : ℕ) (x : Txn T R C V) : Local t x s (s.setTxn t x) :=
  ⟨rfl,rfl,rfl,s.setTxn_self t x,fun _ hu => s.setTxn_of_ne hu x⟩

section Calls

variable [DecidableEq R] {tbl : T} {row : R}

theorem insertAll_some {l : List (T × R)} : ∀ {table table' : R → Option T},
    insertAll table l = .ok table' → table row = some tbl → table' row = some tbl := by
  induction l with
  | nil =>
    rintro table _ ⟨⟩ h
    exact h
  | cons p l ih =>
    intro table table' h hrow
    simp only [insertAll] at h
    split_ifs at h with hnone
    refine ih h ?_
    have hne : row ≠ p.2 := by
      rintro rfl
      rw [hnone] at hrow
      cases hrow
    rw [update_of_ne hne,hrow]

theorem abort_spec (h : s.abort t = .ok s') :
    s'.ver = s.ver ∧ s'.table = s.table ∧ s'.txns t = {} ∧ (∀ u ≠ t, s'.txns u = s.txns u) ∧
      Locking t s.lock s'.lock := by
  unfold abort at h
  split_ifs at h
  cases h
  exact ⟨rfl,rfl,setTxn_self _ t _,fun u hu => setTxn_of_ne _ hu _,.unlockAll t s.lock _⟩

variable [DecidableEq C]

/-- A column read notes the version of a column that it first takes from a table, and fails if a
noted column has a newer version. -/
theorem readColumn_cases (s : Server T R C V) (t : ℕ) (k : R × C) :
    (∃ r x, s.readColumn t k = .ok r ∧ Local t x s r.1 ∧ Txn.Same (s.txns t) x ∧
      x.overtaken = (s.txns t).overtaken) ∨
    (∃ r x, s.readColumn t k = .ok r ∧ Local t x s r.1 ∧ (s.txns t).verCheckRead.lookup k = none ∧
      x = {s.getMdbTxn t with verCheckRead := (s.txns t).verCheckRead++[(k,s.ver k)]}) ∨
    ∃ ver, s.readColumn t k = .error .txnOcc ∧ s.table k.1 ≠ none ∧
      (s.txns t).updates.lookup k = none ∧ (s.txns t).verCheckRead.lookup k = some ver ∧
      ver < s.ver k := by
  have hkeep : Local t (s.getMdbTxn t) s (s.setTxn t (s.getMdbTxn t)) := Local.setTxn s t _
  have hsame : Txn.Same (s.txns t) (s.getMdbTxn t) := ⟨rfl,rfl,rfl,rfl,rfl⟩
  unfold readColumn
  by_cases htab : s.table k.1 = none
  · rw [if_pos htab]
    exact Or.inl ⟨_,_,rfl,hkeep,hsame,rfl⟩
  rw [if_neg htab]
  cases hup : (s.getMdbTxn t).updates.lookup k with
  | some v => exact Or.inl ⟨_,_,rfl,hkeep,hsame,rfl⟩
  | none =>
    cases hread : (s.getMdbTxn t).verCheckRead.lookup k with
    | none => exact Or.inr (Or.inl ⟨_,_,rfl,Local.setTxn s t _,hread,rfl⟩)
    | some ver =>
      by_cases hlt : ver < s.ver k
      · exact Or.inr (Or.inr ⟨ver,if_pos hlt,htab,hup,hread,hlt⟩)
      · exact Or.inl ⟨_,_,if_neg hlt,hkeep,hsame,rfl⟩

theorem writeColumn_cases (s : Server T R C V) (t : ℕ) (k : R × C) (v : V) :
    (∃ s' x, s.writeColumn t k v = .ok s' ∧ Local t x s s' ∧ Txn.Wrote (s.txns t) x) ∨
    ∃ ver, s.writeColumn t k v = .error .txnOcc ∧ s.table k.1 ≠ none ∧
      (s.txns t).updates.lookup k = none ∧ (s.txns t).verCheckRead.lookup k = some ver ∧
      ver < s.ver k := by
  unfold writeColumn
  by_cases htab : s.table k.1 = none
  · rw [if_pos htab]
    obtain ⟨hver,htable,hlock,hown,hother⟩ := Local.setTxn s t (s.getMdbTxn t)
    exact Or.inl ⟨_,_,rfl,⟨hver,htable,hlock,hown,hother⟩,rfl,rfl,rfl,rfl,rfl⟩
  rw [if_neg htab]
  cases hup : (s.getMdbTxn t).updates.lookup k with
  | some w => exact Or.inl ⟨_,_,rfl,Local.setTxn s t _,rfl,rfl,rfl,rfl,rfl⟩
  | none =>
    by_cases hstale : ((s.getMdbTxn t).verCheckRead.lookup k).any (· < s.ver k) = true
    · cases hread : (s.getMdbTxn t).verCheckRead.lookup k with
      | none => simp [hread] at hstale
      | some ver =>
        refine Or.inr ⟨ver,?_,htab,hup,hread,?_⟩
        · rw [← hread,if_pos hstale]
        · simpa [hread] using hstale
    · rw [if_neg hstale]
      exact Or.inl ⟨_,_,rfl,Local.setTxn s t _,rfl,rfl,rfl,rfl,rfl⟩

structure Prepared (t : ℕ) (reads writes : List R) (ok : Bool) (s s' : Server T R C V) : Prop where
  ver : s'.ver = s.ver
  table : s'.table = s.table
  others : ∀ u ≠ t, s'.txns u = s.txns u
  own : (s'.txns t).verCheckRead = (s.txns t).verCheckRead ∧
    (s'.txns t).verCheckWrite = (s.txns t).verCheckWrite ∧
    (s'.txns t).updates = (s.txns t).updates ∧ (s'.txns t).removes = (s.txns t).removes ∧
    (s'.txns t).overtaken = (s.txns t).overtaken ∧ (s'.txns t).verified = ok
  locking : Locking t s.lock s'.lock
  held : ok = true → (∀ row ∈ reads, (s'.lock row).Holds t) ∧
    ∀ row ∈ writes, (s'.lock row).w = some t

theorem doPrepare_spec {leader ok : Bool} {reads writes : List R}
    (h : s.doPrepare t leader reads writes = .ok (s',ok)) : Prepared t reads writes ok s s' := by
  unfold doPrepare at h
  dsimp only at h
  split_ifs at h with hver hdebug hcheck
  · cases h
    exact ⟨rfl,rfl,fun u hu => setTxn_of_ne s hu _,by simpa [getMdbTxn] using hver,.refl t _,by simp⟩
  have hfalse : (s.txns t).verified = false := by simpa [getMdbTxn] using hver
  have hfail : ∀ (lock : R → RWLock) (held : List R), Locking t s.lock lock →
      Prepared t reads writes false s ({s with lock := lock}.setTxn t
        {s.getMdbTxn t with locks := held, debugAbort := 1}) := by
    intro lock held hlocking
    exact ⟨rfl,rfl,fun u hu => setTxn_of_ne _ hu _,by simpa [getMdbTxn] using hfalse,hlocking,by simp⟩
  split at h
  next lock held hr =>
    cases h
    exact hfail lock held (rlockAll_locking hr)
  next lock₁ held₁ hr =>
    have hlocking := rlockAll_locking hr
    obtain ⟨-,hholds⟩ := rlockAll_holds hr
    split at h
    next lock held hw =>
      cases h
      exact hfail lock held (hlocking.trans (wlockAll_locking hw))
    next lock held hw =>
      cases h
      obtain ⟨hstep,hwrites⟩ := wlockAll_writes hw
      refine ⟨rfl,rfl,fun u hu => setTxn_of_ne _ hu _,by simp [getMdbTxn],
        hlocking.trans (wlockAll_locking hw),fun _ => ⟨?_,hwrites⟩⟩
      intro row hrow
      exact (hstep row).holds (hholds row hrow)

theorem applyUpdates_spec {l : List ((R × C) × V)} : ∀ {s s' : Server T R C V},
    applyUpdates s l = .ok s' → s'.table = s.table ∧ s'.lock = s.lock ∧ s'.txns = s.txns ∧
      ∀ k, k ∉ l.map Prod.fst → s'.ver k = s.ver k := by
  induction l with
  | nil =>
    rintro s _ ⟨⟩
    exact ⟨rfl,rfl,rfl,fun _ _ => rfl⟩
  | cons p l ih =>
    intro s s' h
    simp only [applyUpdates] at h
    split_ifs at h
    obtain ⟨htable,hlock,htxns,hver⟩ := ih h
    refine ⟨htable,hlock,htxns,?_⟩
    intro k hk
    rw [map_cons,mem_cons,not_or] at hk
    exact (hver k hk.2).trans (update_of_ne hk.1 _ _)

theorem foldl_bump (row : R) (cols : List C) : ∀ (ver : R × C → ℕ) {k : R × C}, k.1 ≠ row →
    cols.foldl (fun ver c => update ver (row,c) (ver (row,c)+1)) ver k = ver k := by
  induction cols with
  | nil => exact fun _ _ _ => rfl
  | cons c cols ih =>
    intro ver k hk
    refine (ih _ hk).trans (update_of_ne ?_ _ _)
    rintro rfl
    exact hk rfl

variable [DecidableEq T] {columns : R → List C}

omit [DecidableEq C] in
theorem insertRow_local (h : s.insertRow t tbl row = .ok s') :
    ∃ x, Local t x s s' ∧ x.verified = (s.txns t).verified := by
  unfold insertRow at h
  split_ifs at h
  cases h
  exact ⟨_,Local.setTxn s t _,rfl⟩

theorem removeRow_local (h : s.removeRow columns t tbl row = .ok s') :
    ∃ x, Local t x s s' ∧ x.verified = (s.txns t).verified := by
  unfold removeRow at h
  dsimp only at h
  split_ifs at h <;> cases h
  · exact ⟨_,Local.setTxn s t _,rfl⟩
  · exact ⟨_,Local.setTxn s t _,rfl⟩

theorem removeAll_spec (columns : R → List C) (l : List (T × R)) : ∀ (s : Server T R C V),
    (removeAll columns s l).lock = s.lock ∧ (removeAll columns s l).txns = s.txns ∧
    (∀ k, k.1 ∉ l.map Prod.snd → (removeAll columns s l).ver k = s.ver k) ∧
    ∀ row, row ∉ l.map Prod.snd → (removeAll columns s l).table row = s.table row := by
  induction l with
  | nil => exact fun s => ⟨rfl,rfl,fun _ _ => rfl,fun _ _ => rfl⟩
  | cons p l ih =>
    intro s
    obtain ⟨hlock,htxns,hver,htable⟩ := ih {s with
      ver := (columns p.2).foldl (fun ver c => update ver (p.2,c) (ver (p.2,c)+1)) s.ver
      table := if s.table p.2 = some p.1 then update s.table p.2 none else s.table}
    refine ⟨hlock,htxns,?_,?_⟩
    · intro k hk
      rw [map_cons,mem_cons,not_or] at hk
      exact (hver k hk.2).trans (foldl_bump p.2 _ s.ver hk.1)
    · intro row hrow
      rw [map_cons,mem_cons,not_or] at hrow
      refine (htable row hrow.2).trans ?_
      dsimp only
      split_ifs
      · rw [update_of_ne hrow.1]
      · rfl

structure Committed (t : ℕ) (s s' : Server T R C V) : Prop where
  verified : (s.txns t).verified = true
  own : s'.txns t = {}
  others : ∀ u ≠ t, Txn.Same (s.txns u) (s'.txns u) ∧
    (∀ k ∈ (s.txns u).overtaken, k ∈ (s'.txns u).overtaken) ∧
    ∀ p ∈ (s.txns u).verCheckRead, s'.ver p.1 ≠ s.ver p.1 → p.1 ∈ (s'.txns u).overtaken
  locking : Locking t s.lock s'.lock
  ver : ∀ k, k.1 ∉ (s.txns t).updateRows → k.1 ∉ (s.txns t).removeRows → s'.ver k = s.ver k
  table : ∀ row tbl, s.table row = some tbl → row ∉ (s.txns t).removeRows →
    s'.table row = some tbl

theorem doCommit_spec (h : s.doCommit columns t = .ok s') : Committed t s s' := by
  unfold doCommit at h
  dsimp only at h
  split_ifs at h with hbad
  rw [not_or] at hbad
  split at h
  next => cases h
  next table hins =>
    split at h
    next => cases h
    next s₁ hup =>
      cases h
      obtain ⟨htable₁,hlock₁,htxns₁,hver₁⟩ := applyUpdates_spec hup
      obtain ⟨hlock₂,htxns₂,hver₂,htable₂⟩ :=
        removeAll_spec columns (s.getMdbTxn t).removes s₁
      have hver : ∀ k, k ∉ (s.txns t).updates.map Prod.fst → k.1 ∉ (s.txns t).removeRows →
          (removeAll columns s₁ (s.getMdbTxn t).removes).ver k = s.ver k :=
        fun k hk hk' => (hver₂ k hk').trans (hver₁ k hk)
      refine ⟨by simpa [getMdbTxn] using hbad.2,setTxn_self _ t _,?_,?_,?_,?_⟩
      · intro u hu
        have hu' : ∀ (lock : R → RWLock), ({(removeAll columns s₁ (s.getMdbTxn t).removes).overtake
            t (s.getMdbTxn t) with lock := lock}.setTxn t {}).txns u =
            ((removeAll columns s₁ (s.getMdbTxn t).removes).overtake t (s.getMdbTxn t)).txns u :=
          fun _ => setTxn_of_ne _ hu _
        simp only [release,hu']
        simp only [overtake,if_neg hu,htxns₂,htxns₁]
        refine ⟨⟨rfl,rfl,rfl,rfl,rfl⟩,fun k hk => mem_append_left _ hk,?_⟩
        intro p hp hne
        refine mem_append_right _ (mem_filter.mpr ⟨mem_map.mpr ⟨p,hp,rfl⟩,?_⟩)
        rw [decide_eq_true_eq]
        by_contra hnot
        rw [not_or] at hnot
        exact hne (hver p.1 hnot.1 hnot.2)
      · show Locking t s.lock (unlockAll t _ _)
        rw [show ((removeAll columns s₁ (s.getMdbTxn t).removes).overtake t (s.getMdbTxn t)).lock =
          s.lock from hlock₂.trans hlock₁]
        exact .unlockAll t s.lock _
      · intro k hk hk'
        refine hver k (fun hmem => hk ?_) hk'
        obtain ⟨p,hp,rfl⟩ := mem_map.mp hmem
        exact mem_map.mpr ⟨p,hp,rfl⟩
      · intro row tbl hrow hnot
        refine (htable₂ row hnot).trans ?_
        rw [htable₁]
        exact insertAll_some hins hrow

end Calls

section Protection

variable [DecidableEq T] [DecidableEq R] [DecidableEq C] {columns : R → List C} {k : R × C}
variable {a : Action T R C V}

/-- A transaction does nothing between its prepare and its outcome, and when it prepares, no
prepared one removes a row it touches or touches one it removes. -/
def Unhindered (s : Server T R C V) : Action T R C V → Prop
  | .readColumn t _ | .writeColumn t _ _ | .insertRow t _ _ | .removeRow t _ _ =>
    (s.txns t).verified = false
  | .doPrepare t _ _ _ => ∀ u ≠ t, (s.txns u).verified = true →
    (∀ row ∈ (s.txns u).removeRows, row ∉ (s.txns t).touched) ∧
    ∀ row ∈ (s.txns t).removeRows, row ∉ (s.txns u).touched
  | _ => True

structure Guarded (s : Server T R C V) : Prop where
  locks : ∀ row, (s.lock row).Ok
  held : ∀ t, (s.txns t).verified = true → (∀ row ∈ (s.txns t).readRows, (s.lock row).Holds t) ∧
    ∀ row ∈ (s.txns t).updateRows, (s.lock row).w = some t
  apart : ∀ t u, u ≠ t → (s.txns t).verified = true → (s.txns u).verified = true →
    ∀ row ∈ (s.txns u).removeRows, row ∉ (s.txns t).touched

omit [DecidableEq T] [DecidableEq R] [DecidableEq C] in
theorem Guarded.change (h : Guarded s) (hlock : Locking t s.lock s'.lock)
    (hother : ∀ u ≠ t, Txn.Same (s.txns u) (s'.txns u))
    (hown : (s'.txns t).verified = true → ((∀ row ∈ (s'.txns t).readRows, (s'.lock row).Holds t) ∧
        ∀ row ∈ (s'.txns t).updateRows, (s'.lock row).w = some t) ∧
      ∀ u ≠ t, (s.txns u).verified = true →
        (∀ row ∈ (s.txns u).removeRows, row ∉ (s'.txns t).touched) ∧
        ∀ row ∈ (s'.txns t).removeRows, row ∉ (s.txns u).touched) : Guarded s' := by
  refine ⟨hlock.ok h.locks,?_,?_⟩
  · intro u hu
    rcases eq_or_ne u t with rfl | hne
    · exact (hown hu).1
    · obtain ⟨hreads,hupdates,-,-⟩ := (hother u hne).rows
      rw [(hother u hne).verified] at hu
      rw [hreads,hupdates]
      exact ⟨fun row hr => (hlock.same row).holds hne ((h.held u hu).1 row hr),
        fun row hr => (hlock.same row u hne).1.mpr ((h.held u hu).2 row hr)⟩
  · intro u w hne hu hw
    rcases eq_or_ne u t with rfl | hut
    · obtain ⟨-,-,hremoves,-⟩ := (hother w hne).rows
      rw [(hother w hne).verified] at hw
      rw [hremoves]
      exact ((hown hu).2 w hne hw).1
    obtain ⟨-,-,-,htouched⟩ := (hother u hut).rows
    rw [(hother u hut).verified] at hu
    rw [htouched]
    rcases eq_or_ne w t with rfl | hwt
    · exact ((hown hw).2 u hut hu).2
    · obtain ⟨-,-,hremoves,-⟩ := (hother w hwt).rows
      rw [(hother w hwt).verified] at hw
      rw [hremoves]
      exact h.apart u w hne hu hw

omit [DecidableEq T] [DecidableEq R] [DecidableEq C] in
theorem Guarded.ofLocal (h : Guarded s) (hl : Local t x s s') (hx : x.verified = false) :
    Guarded s' := by
  refine h.change (t:=t) (by rw [hl.lock]; exact .refl t _) (same_of_eq hl.others) fun hv => ?_
  rw [hl.own,hx] at hv
  cases hv

theorem readColumn_of_call (h : s.call columns (.readColumn t k) = .ok s') :
    (∃ x, Local t x s s' ∧ Txn.Same (s.txns t) x ∧ x.overtaken = (s.txns t).overtaken) ∨
    Local t {s.getMdbTxn t with verCheckRead := (s.txns t).verCheckRead++[(k,s.ver k)]} s s' := by
  rcases readColumn_cases s t k with ⟨r,x,hr,hl,hsame,hover⟩ | ⟨r,x,hr,hl,-,rfl⟩ | ⟨ver,hr,-⟩
  · simp only [call,hr,Except.map,Except.ok.injEq] at h
    exact Or.inl ⟨x,h ▸ hl,hsame,hover⟩
  · simp only [call,hr,Except.map,Except.ok.injEq] at h
    exact Or.inr (h ▸ hl)
  · simp [call,hr,Except.map] at h

theorem writeColumn_of_call {v : V} (h : s.call columns (.writeColumn t k v) = .ok s') :
    ∃ x, Local t x s s' ∧ Txn.Wrote (s.txns t) x := by
  rcases writeColumn_cases s t k v with ⟨r,x,hr,hx⟩ | ⟨ver,hr,-⟩
  · simp only [call,hr,ok.injEq] at h
    exact ⟨x,h ▸ hx⟩
  · simp [call,hr] at h

theorem prepared_of_call {leader : Bool} {reads writes : List R}
    (h : s.call columns (.doPrepare t leader reads writes) = .ok s') :
    ∃ ok, Prepared t reads writes ok s s' := by
  cases hpre : s.doPrepare t leader reads writes with
  | error e => simp [call,hpre,Except.map] at h
  | ok r =>
    obtain ⟨s₁,ok⟩ := r
    simp only [call,hpre,Except.map,Except.ok.injEq] at h
    exact ⟨ok,h ▸ doPrepare_spec hpre⟩

theorem Guarded.step (h : Guarded s) (hok : s.Unhindered a)
    (hord : s.Orders a) (hstep : s.call columns a = .ok s') : Guarded s' := by
  cases a with
  | readColumn t k =>
    rcases readColumn_of_call hstep with ⟨x,hl,hsame,-⟩ | hl
    · exact h.ofLocal hl (hsame.verified.trans hok)
    · exact h.ofLocal hl hok
  | writeColumn t k v =>
    obtain ⟨x,hl,hx⟩ := writeColumn_of_call hstep
    exact h.ofLocal hl (hx.verified.trans hok)
  | insertRow t tbl row =>
    obtain ⟨x,hl,hver⟩ := insertRow_local hstep
    exact h.ofLocal hl (hver.trans hok)
  | removeRow t tbl row =>
    obtain ⟨x,hl,hver⟩ := removeRow_local hstep
    exact h.ofLocal hl (hver.trans hok)
  | doPrepare t leader reads writes =>
    obtain ⟨ok,hp⟩ := prepared_of_call hstep
    obtain ⟨hread,-,hupdates,hremoves,-,hver⟩ := hp.own
    refine h.change hp.locking (same_of_eq hp.others) ?_
    intro hv
    have htouched : (s'.txns t).touched = (s.txns t).touched := by
      unfold Txn.touched Txn.readRows Txn.updateRows Txn.removeRows
      rw [hread,hupdates,hremoves]
    rw [hver] at hv
    refine ⟨⟨?_,?_⟩,?_⟩
    · intro row hrow
      unfold Txn.readRows at hrow
      rw [hread] at hrow
      exact (hp.held hv).1 row (hord.1.mem_iff.mpr hrow)
    · intro row hrow
      unfold Txn.updateRows at hrow
      rw [hupdates] at hrow
      exact (hp.held hv).2 row (hord.2.mem_iff.mpr hrow)
    · intro u hu huv
      rw [htouched,show (s'.txns t).removeRows = (s.txns t).removeRows by
        unfold Txn.removeRows; rw [hremoves]]
      exact hok u hu huv
  | doCommit t =>
    have hc := doCommit_spec hstep
    refine h.change hc.locking (fun u hu => (hc.others u hu).1) ?_
    intro hv
    rw [hc.own] at hv
    cases hv
  | abort t =>
    obtain ⟨-,-,hown,hother,hlock⟩ := abort_spec hstep
    refine h.change hlock (same_of_eq hother) ?_
    intro hv
    rw [hown] at hv
    cases hv

theorem call_of_step (h : (system columns).step s a = some s') :
    s.Orders a ∧ s.call columns a = .ok s' := by
  simp only [system] at h
  split_ifs at h with hord
  refine ⟨hord,?_⟩
  cases hc : s.call columns a with
  | error e =>
    rw [hc] at h
    cases h
  | ok s₁ =>
    rw [hc] at h
    cases h
    rfl

theorem Guarded.init (h : (system columns).init s) : Guarded s := by
  refine ⟨?_,?_,?_⟩
  · intro row o ho
    rw [h.1 row] at ho
    cases ho
  · intro t ht
    rw [h.2 t] at ht
    cases ht
  · intro t u _ ht
    rw [h.2 t] at ht
    cases ht

theorem guarded_of_reachable (h : ReachableBy (system columns) Unhindered s) : Guarded s := by
  obtain ⟨s₀,hinit,hrun⟩ := h
  refine hrun.invariant ?_ (Guarded.init hinit)
  intro s a s' hok hinv hstep
  obtain ⟨hord,hcall⟩ := call_of_step hstep
  exact hinv.step hok hord hcall

/-- While a transaction is prepared, the commit of another one leaves the rows that it
touches alone. -/
theorem prepared_protected (h : ReachableBy (system columns) Unhindered s) (hne : u ≠ t)
    (hv : (s.txns t).verified = true) (hc : s.doCommit columns u = .ok s') {row : R}
    (hrow : row ∈ (s.txns t).touched) :
    (∀ c, s'.ver (row,c) = s.ver (row,c)) ∧
    ∀ tbl, s.table row = some tbl → s'.table row = some tbl := by
  have hg := guarded_of_reachable h
  have hcommit := doCommit_spec hc
  have hremoved : row ∉ (s.txns u).removeRows := fun hr =>
    hg.apart t u hne hv hcommit.verified row hr hrow
  have hupdated : row ∉ (s.txns u).updateRows := by
    intro hr
    have hw := (hg.held u hcommit.verified).2 row hr
    rcases mem_append.mp hrow with hrow | hrow
    · -- the row is locked by both
      have hheld : (s.lock row).Holds t := by
        rcases mem_append.mp hrow with hrow | hrow
        · exact (hg.held t hv).1 row hrow
        · exact Or.inl ((hg.held t hv).2 row hrow)
      exact hne ((hg.locks row).exclusive hw hheld).symm
    · have htouched : row ∈ (s.txns u).touched :=
        mem_append_left _ (mem_append_right _ hr)
      exact hg.apart u t hne.symm hcommit.verified hv row hrow htouched
  exact ⟨fun c => hcommit.ver (row,c) hupdated hremoved,
    fun tbl htbl => hcommit.table row tbl htbl hremoved⟩

end Protection

section Conflicts

variable [DecidableEq T] [DecidableEq R] [DecidableEq C] {columns : R → List C} {a : Action T R C V}
variable {e : Fault}

def Plain (s : Server T R C V) : Prop :=
  ∀ t, (s.txns t).verCheckWrite = [] ∧ (s.txns t).removes = []

omit [DecidableEq T] [DecidableEq R] [DecidableEq C] in
theorem Plain.change (h : Plain s)
    (hown : (s'.txns t).verCheckWrite = [] ∧ (s'.txns t).removes = [])
    (hother : ∀ u ≠ t, Txn.Same (s.txns u) (s'.txns u)) : Plain s' := by
  intro u
  rcases eq_or_ne u t with rfl | hne
  · exact hown
  · rw [(hother u hne).verCheckWrite,(hother u hne).removes]
    exact h u

def OnColumns : Action T R C V → Prop
  | .insertRow _ _ _ | .removeRow _ _ _ => False
  | _ => True

theorem Plain.step (h : Plain s) (ha : OnColumns a)
    (hstep : s.call columns a = .ok s') : Plain s' := by
  cases a with
  | readColumn t k =>
    rcases readColumn_of_call hstep with ⟨x,hl,hsame,-⟩ | hl
    · refine h.change ?_ (same_of_eq hl.others)
      rw [hl.own,hsame.verCheckWrite,hsame.removes]
      exact h t
    · refine h.change ?_ (same_of_eq hl.others)
      rw [hl.own]
      exact h t
  | writeColumn t k v =>
    obtain ⟨x,hl,hx⟩ := writeColumn_of_call hstep
    refine h.change ?_ (same_of_eq hl.others)
    rw [hl.own,hx.verCheckWrite,hx.removes]
    exact h t
  | insertRow t tbl row | removeRow t tbl row => exact ha.elim
  | doPrepare t leader reads writes =>
    obtain ⟨ok,hp⟩ := prepared_of_call hstep
    refine h.change ?_ (same_of_eq hp.others)
    rw [hp.own.2.1,hp.own.2.2.2.1]
    exact h t
  | doCommit t =>
    have hc := doCommit_spec hstep
    refine h.change ?_ fun u hu => (hc.others u hu).1
    rw [hc.own]
    exact ⟨rfl,rfl⟩
  | abort t =>
    obtain ⟨-,-,hown,hother,-⟩ := abort_spec hstep
    refine h.change ?_ (same_of_eq hother)
    rw [hown]
    exact ⟨rfl,rfl⟩

/-- Only columns are read and written, and a transaction that comes back to a column of a table,
without an own update to it, finds no change of it committed by another since its first read. -/
def Timely (s : Server T R C V) : Action T R C V → Prop
  | .readColumn t k | .writeColumn t k _ =>
    s.table k.1 = none ∨ (s.txns t).updates.lookup k ≠ none ∨ k ∉ (s.txns t).overtaken
  | .insertRow _ _ _ | .removeRow _ _ _ => False
  | _ => True

instance : LawfulBEq (R × C) := inferInstance

instance (s : Server T R C V) (a : Action T R C V) : Decidable (s.Timely a) := by
  induction a using Action.casesOn <;> dsimp only [Timely] <;> infer_instance

omit [DecidableEq T] in
theorem Timely.onColumns (h : s.Timely a) : OnColumns a := by
  cases a <;> first | exact h.elim | trivial

def Current (s : Server T R C V) : Prop :=
  ∀ t, ∀ p ∈ (s.txns t).verCheckRead, p.1 ∉ (s.txns t).overtaken → s.ver p.1 = p.2

omit [DecidableEq T] [DecidableEq R] [DecidableEq C] in
theorem Current.change (h : Current s) (hver : s'.ver = s.ver)
    (hother : ∀ u ≠ t, s'.txns u = s.txns u)
    (hown : ∀ p ∈ (s'.txns t).verCheckRead, p.1 ∉ (s'.txns t).overtaken → s.ver p.1 = p.2) :
    Current s' := by
  intro u p hp hnot
  rw [hver]
  rcases eq_or_ne u t with rfl | hne
  · exact hown p hp hnot
  · rw [hother u hne] at hp hnot
    exact h u p hp hnot

/-- A version read is current until it is noted as overtaken. -/
theorem Current.step (h : Current s) (ha : OnColumns a)
    (hstep : s.call columns a = .ok s') : Current s' := by
  cases a with
  | readColumn t k =>
    rcases readColumn_of_call hstep with ⟨x,hl,hsame,hover⟩ | hl
    · refine h.change hl.ver hl.others ?_
      rw [hl.own,hsame.verCheckRead,hover]
      exact h t
    · refine h.change hl.ver hl.others ?_
      rw [hl.own]
      intro p hp hnot
      rcases mem_append.mp hp with hp | hp
      · exact h t p hp hnot
      · rw [mem_singleton.mp hp]
  | writeColumn t k v =>
    obtain ⟨x,hl,hx⟩ := writeColumn_of_call hstep
    refine h.change hl.ver hl.others ?_
    rw [hl.own,hx.verCheckRead,hx.overtaken]
    exact h t
  | insertRow t tbl row | removeRow t tbl row => exact ha.elim
  | doPrepare t leader reads writes =>
    obtain ⟨ok,hp⟩ := prepared_of_call hstep
    refine h.change hp.ver hp.others ?_
    rw [hp.own.1,hp.own.2.2.2.2.1]
    exact h t
  | doCommit t =>
    have hc := doCommit_spec hstep
    intro u p hp hnot
    rcases eq_or_ne u t with rfl | hne
    · rw [hc.own] at hp
      cases hp
    obtain ⟨hsame,hover,hnew⟩ := hc.others u hne
    rw [hsame.verCheckRead] at hp
    by_cases hver : s'.ver p.1 = s.ver p.1
    · rw [hver]
      exact h u p hp fun hmem => hnot (hover _ hmem)
    · exact absurd (hnew p hp hver) hnot
  | abort t =>
    obtain ⟨hver,-,hown,hother,-⟩ := abort_spec hstep
    refine h.change hver hother ?_
    rw [hown]
    intro p hp
    cases hp

omit [DecidableEq T] in
/-- Without removals the versions that a prepare compares with one another agree. -/
theorem doPrepare_ne_error (leader : Bool) (reads writes : List R)
    (h : (s.txns t).verCheckWrite = []) : s.doPrepare t leader reads writes ≠ .error .txnOcc := by
  have hdebug : debugVersionCheck (s.getMdbTxn t) = true := by
    simp [debugVersionCheck,getMdbTxn,h]
  intro herr
  unfold doPrepare at herr
  dsimp only at herr
  split_ifs at herr with hver hbad hcheck
  · cases herr
  · simp [hdebug] at hbad
  · split at herr
    · cases herr
    · split at herr <;> cases herr

omit [DecidableEq T] [DecidableEq C] in
theorem insertAll_error {l : List (T × R)} : ∀ {table : R → Option T},
    insertAll table l = .error e → e = .memdb := by
  induction l with
  | nil => exact fun h => nomatch h
  | cons p l ih =>
    intro table h
    simp only [insertAll] at h
    split_ifs at h
    · exact ih h
    · cases h
      rfl

omit [DecidableEq T] in
theorem applyUpdates_error {l : List ((R × C) × V)} : ∀ {s : Server T R C V},
    applyUpdates s l = .error e → e = .null := by
  induction l with
  | nil => exact fun h => nomatch h
  | cons p l ih =>
    intro s h
    simp only [applyUpdates] at h
    split_ifs at h
    · cases h
      rfl
    · exact ih h

theorem doCommit_ne_error : s.doCommit columns t ≠ .error .txnOcc := by
  intro herr
  unfold doCommit at herr
  dsimp only at herr
  split_ifs at herr
  · cases herr
  split at herr
  next e he =>
    cases herr
    cases insertAll_error he
  next table hins =>
    split at herr
    next e he =>
      cases herr
      cases applyUpdates_error he
    next => cases herr

omit [DecidableEq T] in
theorem Current.not_stale {k : R × C} {ver : ℕ} (h : Current s)
    (htime : s.table k.1 = none ∨ (s.txns t).updates.lookup k ≠ none ∨ k ∉ (s.txns t).overtaken)
    (htab : s.table k.1 ≠ none) (hup : (s.txns t).updates.lookup k = none)
    (hread : (s.txns t).verCheckRead.lookup k = some ver) : ¬ver < s.ver k := by
  have hnot : k ∉ (s.txns t).overtaken :=
    (htime.resolve_left htab).resolve_left (not_not.mpr hup)
  have heq := h t (k,ver) (mem_of_lookup hread) hnot
  exact fun hlt => absurd heq (Nat.ne_of_gt hlt)

theorem call_ne_error (hplain : Plain s) (hcur : Current s)
    (ha : s.Timely a) : s.call columns a ≠ .error .txnOcc := by
  cases a with
  | readColumn t k =>
    rcases readColumn_cases s t k with ⟨r,x,hr,-⟩ | ⟨r,x,hr,-⟩ | ⟨ver,-,htab,hup,hread,hlt⟩
    · simp [call,hr,Except.map]
    · simp [call,hr,Except.map]
    · exact absurd hlt (hcur.not_stale ha htab hup hread)
  | writeColumn t k v =>
    rcases writeColumn_cases s t k v with ⟨r,x,hr,-⟩ | ⟨ver,-,htab,hup,hread,hlt⟩
    · simp [call,hr]
    · exact absurd hlt (hcur.not_stale ha htab hup hread)
  | insertRow t tbl row | removeRow t tbl row => exact ha.elim
  | doPrepare t leader reads writes =>
    have hne := doPrepare_ne_error leader reads writes (hplain t).1
    cases hp : s.doPrepare t leader reads writes with
    | error e =>
      simpa [call,hp,Except.map] using hne
    | ok r => simp [call,hp,Except.map]
  | doCommit t => exact doCommit_ne_error
  | abort t =>
    simp only [call,abort]
    split_ifs <;> simp

/-- In timely runs no `verify` of a transaction fails, and a leader refuses to prepare one that
read a column with another version by now. -/
theorem conflicts_reported (h : ReachableBy (system columns) Timely s) :
    (∀ a, s.Timely a → s.call columns a ≠ .error .txnOcc) ∧
    ∀ t reads writes, (s.txns t).verified = false →
      (∃ p ∈ (s.txns t).verCheckRead, s.ver p.1 ≠ p.2) →
      ∃ s', s.doPrepare t true reads writes = .ok (s',false) := by
  obtain ⟨s₀,hinit,hrun⟩ := h
  have hinv : Plain s ∧ Current s := by
    refine hrun.invariant (P:=fun s => Plain s ∧ Current s) ?_ ⟨?_,?_⟩
    · intro s a s' hok hinv hstep
      obtain ⟨-,hcall⟩ := call_of_step hstep
      exact ⟨hinv.1.step hok.onColumns hcall,hinv.2.step hok.onColumns hcall⟩
    · intro t
      rw [hinit.2 t]
      exact ⟨rfl,rfl⟩
    · intro t p hp
      rw [hinit.2 t] at hp
      cases hp
  refine ⟨fun a ha => call_ne_error hinv.1 hinv.2 ha,?_⟩
  rintro t reads writes hver ⟨p,hp,hne⟩
  have hdebug : debugVersionCheck (s.getMdbTxn t) = true := by
    simp [debugVersionCheck,getMdbTxn,(hinv.1 t).1]
  have hcheck : s.versionCheck (s.getMdbTxn t) = false := by
    rw [versionCheck,all_eq_false]
    exact ⟨p,mem_append_left _ hp,by simpa using hne⟩
  refine ⟨s.setTxn t {s.getMdbTxn t with debugAbort := 1},?_⟩
  unfold doPrepare
  rw [if_neg (by simp [getMdbTxn,hver]),if_neg (by simp [hdebug]),if_pos ⟨rfl,hcheck⟩]

def Quiet (s : Server T R C V) : Action T R C V → Prop
  | .readColumn t _ | .writeColumn t _ _ => (s.txns t).verified = false
  | .insertRow _ _ _ | .removeRow _ _ _ => False
  | _ => True

instance (s : Server T R C V) (a : Action T R C V) : Decidable (s.Quiet a) := by
  induction a using Action.casesOn <;> dsimp only [Quiet] <;> infer_instance

theorem unhindered_of_quiet {s₀ : Server T R C V} (hinit : (system columns).init s₀)
    (h : Run (system columns) Quiet s₀ s) : ReachableBy (system columns) Unhindered s := by
  have hinv : Plain s ∧ Run (system columns) Unhindered s₀ s := by
    refine h.invariant (P:=fun s => Plain s ∧ Run (system columns) Unhindered s₀ s) ?_
      ⟨?_,Run.refl s₀⟩
    · rintro s a s' hok ⟨hplain,hrun⟩ hstep
      obtain ⟨-,hcall⟩ := call_of_step hstep
      have ha : OnColumns a := by
        cases a <;> first | exact hok.elim | trivial
      refine ⟨hplain.step ha hcall,Run.tail hrun ?_ hstep⟩
      cases a with
      | readColumn t k | writeColumn t k v => exact hok
      | insertRow t tbl row | removeRow t tbl row => exact hok.elim
      | doPrepare t leader reads writes =>
        intro u _ _
        simp [Txn.removeRows,(hplain u).2,(hplain t).2]
      | doCommit t | abort t => trivial
    · intro t
      rw [hinit.2 t]
      exact ⟨rfl,rfl⟩
  exact ⟨s₀,hinit,hinv.2⟩

end Conflicts

section Runs

def twoRows : Server Unit Bool Unit ℕ where
  value _ := 0
  ver _ := 0
  table _ := some ()

theorem twoRows_init : (system fun _ => [()]).init twoRows := ⟨fun _ => rfl,fun _ => rfl⟩

def sideBySide : Server Unit Bool Unit ℕ :=
  after (system fun _ => [()]) Quiet twoRows
    [.readColumn 1 (false,()),.doPrepare 1 true [false] [],.writeColumn 2 (true,()) 7,
      .doPrepare 2 true [] [true]]

theorem prepared_protected_sideBySide : (sideBySide.doCommit (fun _ => [()]) 2).isOk = true ∧
    ∀ s', sideBySide.doCommit (fun _ => [()]) 2 = .ok s' →
      s'.ver (false,()) = sideBySide.ver (false,()) := by
  refine ⟨by decide +kernel,?_⟩
  intro s' hs'
  have hrow : false ∈ (sideBySide.txns 1).touched := by decide +kernel
  exact (prepared_protected (unhindered_of_quiet twoRows_init (run_after _ _)) (by decide)
    (by decide +kernel) hs' hrow).1 ()

def removedUnder : Server Unit Bool Unit ℕ :=
  after (system fun _ => [()]) (fun _ _ => True) twoRows
    [.readColumn 1 (false,()),.doPrepare 1 true [false] [],.removeRow 2 () false,
      .doPrepare 2 true [] []]

/-- The commit of a removal changes and removes a row that a prepared transaction read. -/
theorem removed_while_prepared :
    Reachable (system fun _ => [()]) removedUnder ∧ (removedUnder.txns 1).verified = true ∧
    false ∈ (removedUnder.txns 1).touched ∧ removedUnder.ver (false,()) = 0 ∧
    removedUnder.table false = some () ∧
    (removedUnder.doCommit (fun _ => [()]) 2).map (fun s => (s.ver (false,()),s.table false)) =
      .ok (1,none) :=
  ⟨⟨_,twoRows_init,run_after _ _⟩,by decide +kernel,by decide +kernel,by decide +kernel,
    by decide +kernel,by decide +kernel⟩

def overtakenBy : List (Action Unit Bool Unit ℕ) :=
  [.readColumn 1 (false,()),.writeColumn 2 (false,()) 7,.doPrepare 2 true [] [false],.doCommit 2]

theorem conflicts_reported_overtaken :
    ∃ s', (after (system fun _ => [()]) Timely twoRows overtakenBy).doPrepare 1 true [false] [] =
      .ok (s',false) :=
  (conflicts_reported ⟨_,twoRows_init,run_after _ _⟩).2 1 [false] [] (by decide +kernel)
    ⟨((false,()),0),by decide +kernel,by decide +kernel⟩

/-- A second read of the column fails a `verify`. -/
theorem second_read_fails :
    Reachable (system fun _ => [()]) (after (system fun _ => [()]) (fun _ _ => True) twoRows
      overtakenBy) ∧
    ((after (system fun _ => [()]) (fun _ _ => True) twoRows overtakenBy).readColumn 1
      (false,())).map Prod.snd = .error .txnOcc :=
  ⟨⟨_,twoRows_init,run_after _ _⟩,by decide +kernel⟩

end Runs

end Server

end Janus.OccRows
