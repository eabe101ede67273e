import Janus.Serial
import Janus.Transition

/-! Tapir's validation at one replica: `ReadColumn` and `WriteColumn` (`tapir/tx.cc`), the prepared
version lists of a column (`memdb/row.h`), and `OnFastAccept` and `OnDecide`
(`tapir/scheduler.cc`). A transaction reads and writes only before `OnFastAccept`, which visits its
columns in the order of their addresses; that order is part of the call. -/

namespace Janus.Tapir

open Serial Transition Function List

structure Column (V : Type) where
  value : V
  ver : ℕ := 0
  preparedRver : List ℕ := []
  preparedWver : List ℕ := []

namespace Column

variable {V : Type}

/-- `max_prepared_rver`, which looks at the write list. -/
def maxPreparedRver (c : Column V) : ℕ := c.preparedWver.getLast?.getD 0

/-- `min_prepared_wver`, which looks at the read list. -/
def minPreparedWver (c : Column V) : ℕ := c.preparedRver.head?.getD 0

def insertPreparedRver (c : Column V) (ver : ℕ) : Column V :=
  {c with preparedRver := (c.preparedRver++[ver]).insertionSort (· ≤ ·)}

def removePreparedRver (c : Column V) (ver : ℕ) : Column V :=
  {c with preparedRver := c.preparedRver.filter (· ≠ ver)}

def removePreparedWver (c : Column V) (ver : ℕ) : Column V :=
  {c with preparedWver := c.preparedWver.filter (· ≠ ver)}

end Column

inductive Result
  | success | retry | abstain | reject
  deriving DecidableEq

/-- With its timestamp, the answer of `OnFastAccept` and the decision. `reads` records every
`ReadColumn` with the version and value. -/
structure TxTapir (K V : Type) where
  readVers : K → Option ℕ := fun _ => none
  writeBufs : K → Option V := fun _ => none
  preparedRvers : K → Option ℕ := fun _ => none
  preparedWvers : K → Option ℕ := fun _ => none
  timestamp : ℕ := 0
  result : Option Result := none
  decision : Option Bool := none
  reads : List (K × ℕ × V) := []

/-- The columns, the transactions, and those whose `OnFastAccept` returned SUCCESS, in the
order of these calls. -/
structure SchedulerTapir (K V : Type) where
  cols : K → Column V
  txs : ℕ → TxTapir K V := fun _ => {}
  prepared : List ℕ := []

/-- `onFastAccept` comes with whether the transaction was aborted in dispatch and the order of its
columns; `true` is the decision COMMIT. -/
inductive Action (K V : Type)
  | readColumn (t : ℕ) (k : K)
  | writeColumn (t : ℕ) (k : K) (v : V)
  | onFastAccept (t : ℕ) (abortedInDispatch : Bool) (reads writes : List K)
  | onDecide (t : ℕ) (commit : Bool)

namespace SchedulerTapir

variable {K V : Type} [DecidableEq K]

variable (s : SchedulerTapir K V)

def setTx (t : ℕ) (x : TxTapir K V) : SchedulerTapir K V :=
  {s with txs := update s.txs t x}

def readColumn (t : ℕ) (k : K) : SchedulerTapir K V :=
  let x := s.txs t
  s.setTx t {x with
    readVers := update x.readVers k (some (s.cols k).ver)
    reads := x.reads++[(k,(s.cols k).ver,(s.cols k).value)]}

def writeColumn (t : ℕ) (k : K) (v : V) : SchedulerTapir K V :=
  let x := s.txs t
  s.setTx t {x with writeBufs := update x.writeBufs k (some v)}

/-- The loop of `OnFastAccept` over the columns read; `none` if it does not return. -/
def validateReads (readVers : K → Option ℕ) :
    List K → (K → Column V) → (K → Option ℕ) → (K → Column V) × (K → Option ℕ) × Option Result
  | [], cols, prepared => (cols,prepared,none)
  | k::ks, cols, prepared =>
    let ver := (readVers k).getD 0
    if ver < (cols k).ver then (cols,prepared,some .reject)
    else if ver < (cols k).minPreparedWver then (cols,prepared,some .abstain)
    else validateReads readVers ks (update cols k ((cols k).insertPreparedRver ver))
      (update prepared k (some ver))

def validateWrites (ts : ℕ) :
    List K → (K → Column V) → (K → Option ℕ) → Result → (K → Column V) × (K → Option ℕ) × Result
  | [], cols, prepared, ret => (cols,prepared,ret)
  | k::ks, cols, prepared, ret =>
    validateWrites ts ks (update cols k ((cols k).insertPreparedRver ts))
      (update prepared k (some ts))
      (if ts < (cols k).maxPreparedRver then .retry
        else if ts < (cols k).ver then .retry else ret)

def onFastAccept (t ts : ℕ) (abortedInDispatch : Bool)
    (reads writes : List K) : SchedulerTapir K V × Result :=
  let x := s.txs t
  if abortedInDispatch then (s.setTx t {x with result := some .reject},.reject)
  else
    match validateReads x.readVers reads s.cols x.preparedRvers with
    | (cols,prepared,some ret) =>
      ({s with cols := cols}.setTx t {x with preparedRvers := prepared, result := some ret},ret)
    | (cols,prepared,none) =>
      let (cols',prepared',ret) := validateWrites ts writes cols x.preparedWvers .success
      ({s with cols := cols'}.setTx t
        {x with preparedRvers := prepared, preparedWvers := prepared', timestamp := ts
                result := some ret},ret)

def cleanUp (x : TxTapir K V) (k : K) (c : Column V) : Column V :=
  let c₁ := match x.preparedRvers k with
    | none => c
    | some ver => c.removePreparedRver ver
  match x.preparedWvers k with
  | none => c₁
  | some ver => c₁.removePreparedWver ver

def onDecide (t : ℕ) (commit : Bool) : SchedulerTapir K V :=
  let x := s.txs t
  {s with
   cols := fun k =>
     cleanUp x k (match commit,x.writeBufs k with
       | true,some v => {s.cols k with value := v, ver := x.timestamp}
       | _,_ => s.cols k)}.setTx t {x with decision := some commit}

/-- A transaction reads and writes until its `OnFastAccept`, which happens once; a decided
transaction is gone. -/
def step (ts : ℕ → ℕ) (s : SchedulerTapir K V) : Action K V → Option (SchedulerTapir K V)
  | .readColumn t k =>
    if (s.txs t).result = none ∧ (s.txs t).decision = none then some (s.readColumn t k) else none
  | .writeColumn t k v =>
    if (s.txs t).result = none ∧ (s.txs t).decision = none then some (s.writeColumn t k v)
    else none
  | .onFastAccept t aborted reads writes =>
    if (s.txs t).result = none ∧ (s.txs t).decision = none then
      match s.onFastAccept t (ts t) aborted reads writes with
      | (s',.success) => some {s' with prepared := s.prepared++[t]}
      | (s',_) => some s'
    else none
  | .onDecide t commit =>
    if (s.txs t).decision = none then some (s.onDecide t commit) else none

/-- `OnFastAccept` visits exactly the columns read and written, and a transaction is decided COMMIT
only if it returned SUCCESS. -/
def Permitted : Action K V → Prop
  | .onFastAccept t _ reads writes =>
    reads.Nodup ∧ writes.Nodup ∧ (∀ k, k ∈ reads ↔ (s.txs t).readVers k ≠ none) ∧
      ∀ k, k ∈ writes ↔ (s.txs t).writeBufs k ≠ none
  | .onDecide t true => (s.txs t).result = some .success
  | _ => True

/-- A column is read twice only at one version. No transaction is validated while another that
wrote a column it read is undecided. A write is committed only over an older version, after every
earlier prepared write of the column is decided. -/
def Ordered : Action K V → Prop
  | .readColumn t k => ∀ ver ∈ (s.txs t).readVers k, ver = (s.cols k).ver
  | .onFastAccept t _ _ _ =>
    ∀ u ∈ s.prepared, (s.txs u).decision = none →
      ∀ k, (s.txs t).readVers k ≠ none → (s.txs u).writeBufs k = none
  | .onDecide t true =>
    ∀ k, (s.txs t).writeBufs k ≠ none → (s.cols k).ver < (s.txs t).timestamp ∧
      ∀ u ∈ s.prepared, [u,t].Sublist s.prepared → (s.txs u).decision = none →
        (s.txs u).writeBufs k = none
  | _ => True

def writes (t : ℕ) : K → Option V := (s.txs t).writeBufs

/-- The committed transactions have an order in which each read, column by column, what the last
writer before it had written. -/
def Serializable (σ : K → V) (s : SchedulerTapir K V) : Prop :=
  ∃ order : List ℕ, order.Nodup ∧ (∀ t, t ∈ order ↔ (s.txs t).decision = some true) ∧
    SerialOrder σ s.writes (fun t => (s.txs t).reads.map fun r => (r.1,r.2.2)) order

end SchedulerTapir

def system {K V : Type} [DecidableEq K] (σ : K → V) (ts : ℕ → ℕ) :
    System (SchedulerTapir K V) (Action K V) where
  init s := s = {cols := fun k => {value := σ k}}
  step s a := s.step ts a

namespace SchedulerTapir

variable {K V : Type} {s s' : SchedulerTapir K V} {t u : ℕ} {k : K} {reads : List K}

def committed (s : SchedulerTapir K V) (l : List ℕ) : List ℕ :=
  l.filter fun t => (s.txs t).decision = some true

/-- The database is the result of the committed transactions in the order of their prepares, each
prepared one read what the committed ones before it had left, and no later one has read the writes
of an undecided one or has committed a write of the same column. -/
structure Log (σ : K → V) (s : SchedulerTapir K V) : Prop where
  store : ∀ k, (s.cols k).value = afterAll σ s.writes (s.committed s.prepared) k
  view : ∀ l₁ t l₂, s.prepared = l₁++t::l₂ →
    ∀ r ∈ (s.txs t).reads, afterAll σ s.writes (s.committed l₁) r.1 = r.2.2
  room : ∀ t u, [t,u].Sublist s.prepared → (s.txs t).decision = none →
    ∀ k, s.writes t k ≠ none → (s.txs u).readVers k = none ∧
      ((s.txs u).decision = some true → s.writes u k = none)

/-- A read is recorded at its version; the column has that value as long as it has that
version. -/
def Seen (s : SchedulerTapir K V) (t : ℕ) : Prop :=
  ∀ r ∈ (s.txs t).reads, (s.txs t).readVers r.1 = some r.2.1 ∧ r.2.1 ≤ (s.cols r.1).ver ∧
    (r.2.1 = (s.cols r.1).ver → r.2.2 = (s.cols r.1).value)

structure Inv (σ : K → V) (s : SchedulerTapir K V) : Prop where
  nodup : s.prepared.Nodup
  success : ∀ t, t ∈ s.prepared ↔ (s.txs t).result = some .success
  commit : ∀ t, (s.txs t).decision = some true → t ∈ s.prepared
  seen : ∀ t, s.Seen t
  log : s.Log σ

variable {σ : K → V}

structure Keeps (x x' : TxTapir K V) : Prop where
  readVers : x'.readVers = x.readVers
  writeBufs : x'.writeBufs = x.writeBufs
  reads : x'.reads = x.reads
  commit : x'.decision = some true ↔ x.decision = some true
  undecided : x'.decision = none → x.decision = none

theorem Keeps.of_eq {x x' : TxTapir K V} (h : x' = x) : Keeps x x' := by
  subst h
  exact ⟨rfl,rfl,rfl,Iff.rfl,id⟩

theorem Log.congr (h : s.Log σ) (hprep : s'.prepared = s.prepared)
    (htxs : ∀ u ∈ s.prepared, Keeps (s.txs u) (s'.txs u))
    (hvalue : ∀ k, (s'.cols k).value = (s.cols k).value) : s'.Log σ := by
  have hafter : ∀ l ⊆ s.prepared,
      afterAll σ s'.writes (s'.committed l) = afterAll σ s.writes (s.committed l) := by
    intro l hl
    have hcomm : s'.committed l = s.committed l :=
      filter_congr fun u hu => by simp only [(htxs u (hl hu)).commit]
    rw [hcomm]
    exact afterAll_congr fun u hu => (htxs u (hl (mem_of_mem_filter hu))).writeBufs
  constructor
  · intro k
    rw [hvalue,hprep,hafter _ (List.Subset.refl _)]
    exact h.store k
  · intro l₁ t l₂ hsplit
    rw [hprep] at hsplit
    rw [(htxs t (by simp [hsplit])).reads,hafter l₁ (by simp [hsplit])]
    exact h.view l₁ t l₂ hsplit
  · intro t u hsub ht
    rw [hprep] at hsub
    have hkt := htxs t (hsub.subset (by simp))
    have hku := htxs u (hsub.subset (by simp))
    rw [writes,writes,hkt.writeBufs,hku.writeBufs,hku.readVers,hku.commit]
    exact h.room t u hsub (hkt.undecided ht)

theorem pair_sublist_concat {l : List ℕ} {u v t : ℕ} (h : [u,v].Sublist (l++[t])) :
    [u,v].Sublist l ∨ u ∈ l ∧ v = t := by
  obtain ⟨m₁,m₂,hm,hm₁,hm₂⟩ := sublist_append_iff.mp h
  rcases sublist_singleton.mp hm₂ with rfl | rfl
  · rw [append_nil] at hm
    exact .inl (hm ▸ hm₁)
  · obtain ⟨rfl,hv⟩ := append_inj' (show [u]++[v] = _ from hm) rfl
    cases hv
    exact .inr ⟨hm₁.subset mem_cons_self,rfl⟩

/-- A validated transaction joins the end of the order: it read the database as it is. -/
theorem Log.concat (h : s.Log σ) (hund : (s.txs t).decision = none)
    (hreads : ∀ r ∈ (s.txs t).reads, r.2.2 = (s.cols r.1).value)
    (hroom : ∀ u ∈ s.prepared, (s.txs u).decision = none →
      ∀ k, (s.txs t).readVers k ≠ none → s.writes u k = none) :
    Log σ {s with prepared := s.prepared++[t]} := by
  constructor
  · intro k
    have hlast : s.committed (s.prepared++[t]) = s.committed s.prepared := by
      simp [committed,hund]
    exact (h.store k).trans (by rw [← hlast]; rfl)
  · intro l₁ u l₂ hsplit r hr
    rcases eq_nil_or_concat l₂ with rfl | ⟨l₂',v,rfl⟩
    · obtain ⟨rfl,hu⟩ := append_inj' hsplit rfl
      cases hu
      exact ((hreads r hr).trans (h.store r.1)).symm
    · rw [concat_eq_append,← cons_append,← append_assoc] at hsplit
      exact h.view l₁ u l₂' (append_inj' hsplit rfl).1 r hr
  · intro u v hsub hu k hk
    rcases pair_sublist_concat hsub with hsub' | ⟨hmem,rfl⟩
    · exact h.room u v hsub' hu k hk
    · refine ⟨?_,fun hv => ?_⟩
      · by_contra hread
        exact hk (hroom u hmem hu k hread)
      · exact absurd (hund.symm.trans hv) nofun

/-- A commit goes into the order where the transaction was prepared. -/
theorem Log.commit (h : s.Log σ) (hnodup : s.prepared.Nodup) (hmem : t ∈ s.prepared)
    (hund : (s.txs t).decision = none) (hprep : s'.prepared = s.prepared)
    (hself : s'.txs t = {s.txs t with decision := some true})
    (hothers : ∀ u ≠ t, s'.txs u = s.txs u)
    (hvalue : ∀ k, (s'.cols k).value = (s.writes t k).getD (s.cols k).value)
    (hread : ∀ u, ∀ r ∈ (s.txs u).reads, (s.txs u).readVers r.1 ≠ none)
    (hroom : ∀ u, [u,t].Sublist s.prepared → (s.txs u).decision = none →
      ∀ k, s.writes t k ≠ none → s.writes u k = none) : s'.Log σ := by
  obtain ⟨l₁,l₂,hl⟩ := append_of_mem hmem
  have hwrites : s'.writes = s.writes := by
    funext u
    rcases eq_or_ne u t with rfl | hne
    · simp [writes,hself]
    · simp [writes,hothers u hne]
  have hcomm : ∀ l, t ∉ l → s'.committed l = s.committed l := by
    intro l ht
    refine filter_congr fun u hu => ?_
    rw [hothers u (ne_of_mem_of_not_mem hu ht)]
  have hjoin : ∀ l l', t ∉ l → t ∉ l' →
      s'.committed (l++t::l') = s.committed l++t::s.committed l' := by
    intro l l' ht ht'
    rw [← hcomm l ht,← hcomm l' ht']
    simp [committed,hself]
  have hskip : ∀ l l', s.committed (l++t::l') = s.committed l++s.committed l' := by
    simp [committed,hund]
  have hout : t ∉ l₁ ∧ t ∉ l₂ := by
    rw [hl,nodup_middle,nodup_cons,mem_append] at hnodup
    exact not_or.mp hnodup.1
  constructor
  · intro k
    rw [hvalue,hprep,hwrites,hl,hjoin l₁ l₂ hout.1 hout.2]
    cases hk : s.writes t k with
    | some v =>
      refine (afterAll_last hk fun u hu => ?_).symm
      have hmem := mem_filter.mp hu
      have hsub : [t,u].Sublist s.prepared := by
        rw [hl]
        exact ((singleton_sublist.mpr hmem.1).cons_cons t).trans (sublist_append_right _ _)
      exact (h.room t u hsub hund k (by simp [hk])).2 (of_decide_eq_true hmem.2)
    | none =>
      rw [afterAll_insert_none hk,← hskip,← hl]
      exact h.store k
  · intro m₁ u m₂ hsplit r hr
    have hr' : r ∈ (s.txs u).reads := by
      rcases eq_or_ne u t with rfl | hne
      · rwa [hself] at hr
      · rwa [hothers u hne] at hr
    rw [hprep] at hsplit
    rw [← h.view m₁ u m₂ hsplit r hr',hwrites]
    by_cases ht : t ∈ m₁
    · obtain ⟨a,b,rfl⟩ := append_of_mem ht
      rw [hsplit,append_assoc,cons_append,nodup_middle,nodup_cons,
        mem_append,mem_append,not_or,not_or] at hnodup
      rw [hjoin a b hnodup.1.1 hnodup.1.2.1,hskip]
      refine afterAll_insert_none ?_
      by_contra hk
      have hsub : [t,u].Sublist s.prepared := by
        rw [hsplit]
        exact (singleton_sublist.mpr ht).append (singleton_sublist.mpr (mem_cons_self (l:=m₂)))
      exact hread u r hr' (h.room t u hsub hund r.1 hk).1
    · rw [hcomm m₁ ht]
  · intro u v hsub hu k hk
    rw [hprep] at hsub
    have hne : u ≠ t := by
      rintro rfl
      rw [hself] at hu
      cases hu
    rw [hothers u hne] at hu
    rw [hwrites] at hk ⊢
    obtain ⟨hread',hlate⟩ := h.room u v hsub hu k hk
    rcases eq_or_ne v t with rfl | hv
    · refine ⟨by rw [hself]; exact hread',fun _ => ?_⟩
      by_contra hw
      exact hk (hroom u hsub hu k hw)
    · rw [hothers v hv]
      exact ⟨hread',hlate⟩

structure Validated (s s' : SchedulerTapir K V) (t : ℕ) (reads : List K) (ret : Result) : Prop where
  readVers : (s'.txs t).readVers = (s.txs t).readVers
  writeBufs : (s'.txs t).writeBufs = (s.txs t).writeBufs
  trace : (s'.txs t).reads = (s.txs t).reads
  decision : (s'.txs t).decision = (s.txs t).decision
  result : (s'.txs t).result = some ret
  others : ∀ u ≠ t, s'.txs u = s.txs u
  prepared : s'.prepared = s.prepared
  same : ∀ k, (s'.cols k).value = (s.cols k).value ∧ (s'.cols k).ver = (s.cols k).ver
  current : ret = .success → ∀ k ∈ reads, (s.cols k).ver ≤ ((s.txs t).readVers k).getD 0

theorem Validated.of_setTx {cols : K → Column V} {x : TxTapir K V} {ret : Result}
    (hver : x.readVers = (s.txs t).readVers) (hbuf : x.writeBufs = (s.txs t).writeBufs)
    (hreads : x.reads = (s.txs t).reads) (hdec : x.decision = (s.txs t).decision)
    (hres : x.result = some ret)
    (hsame : ∀ k, (cols k).value = (s.cols k).value ∧ (cols k).ver = (s.cols k).ver)
    (hcur : ret = .success → ∀ k ∈ reads, (s.cols k).ver ≤ ((s.txs t).readVers k).getD 0) :
    Validated s ({s with cols := cols}.setTx t x) t reads ret where
  readVers := by simpa only [setTx,update_self] using hver
  writeBufs := by simpa only [setTx,update_self] using hbuf
  trace := by simpa only [setTx,update_self] using hreads
  decision := by simpa only [setTx,update_self] using hdec
  result := by simpa only [setTx,update_self] using hres
  others u hu := by simp only [setTx,update_of_ne hu]
  prepared := rfl
  same := hsame
  current := hcur

theorem Inv.touch (h : s.Inv σ) (hout : t ∉ s.prepared) (hprep : s'.prepared = s.prepared)
    (hothers : ∀ u ≠ t, s'.txs u = s.txs u)
    (hsame : ∀ k, (s'.cols k).value = (s.cols k).value ∧ (s'.cols k).ver = (s.cols k).ver)
    (hres : (s'.txs t).result ≠ some .success) (hdec : (s'.txs t).decision ≠ some true)
    (hseen : s'.Seen t) : s'.Inv σ where
  nodup := hprep ▸ h.nodup
  success u := by
    rw [hprep]
    rcases eq_or_ne u t with rfl | hne
    · exact iff_of_false hout hres
    · rw [hothers u hne]
      exact h.success u
  commit u hu := by
    rcases eq_or_ne u t with rfl | hne
    · exact absurd hu hdec
    · rw [hothers u hne] at hu
      exact hprep ▸ h.commit u hu
  seen u := by
    rcases eq_or_ne u t with rfl | hne
    · exact hseen
    · intro r hr
      rw [hothers u hne] at hr ⊢
      rw [(hsame r.1).1,(hsame r.1).2]
      exact h.seen u r hr
  log := h.log.congr hprep
    (fun u hu => .of_eq (hothers u (ne_of_mem_of_not_mem hu hout))) fun k => (hsame k).1

theorem Inv.not_prepared (h : s.Inv σ) (hres : (s.txs t).result = none) : t ∉ s.prepared := by
  rw [h.success t,hres]
  nofun

theorem Validated.seen {ret : Result} (h : Validated s s' t reads ret)
    (hseen : s.Seen u) : s'.Seen u := by
  intro r hr
  have hx : (s'.txs u).reads = (s.txs u).reads ∧ (s'.txs u).readVers = (s.txs u).readVers := by
    rcases eq_or_ne u t with rfl | hne
    · exact ⟨h.trace,h.readVers⟩
    · rw [h.others u hne]
      exact ⟨rfl,rfl⟩
  rw [hx.1] at hr
  rw [hx.2,(h.same r.1).1,(h.same r.1).2]
  exact hseen r hr

theorem Inv.prepare (h : s.Inv σ) (hv : Validated s s' t reads .success)
    (hres : (s.txs t).result = none) (hdec : (s.txs t).decision = none)
    (hreads : ∀ k, k ∈ reads ↔ (s.txs t).readVers k ≠ none)
    (hord : ∀ u ∈ s.prepared, (s.txs u).decision = none →
      ∀ k, (s.txs t).readVers k ≠ none → (s.txs u).writeBufs k = none) :
    Inv σ {s' with prepared := s.prepared++[t]} := by
  have hout := h.not_prepared hres
  have hold : ∀ u ∈ s.prepared, s'.txs u = s.txs u :=
    fun u hu => hv.others u (ne_of_mem_of_not_mem hu hout)
  constructor
  · exact nodup_append.mpr ⟨h.nodup,nodup_singleton t,fun u hu v hv =>
      mem_singleton.mp hv ▸ ne_of_mem_of_not_mem hu hout⟩
  · intro u
    rw [mem_append,mem_singleton]
    rcases eq_or_ne u t with rfl | hne
    · exact iff_of_true (.inr rfl) hv.result
    · rw [hv.others u hne,or_iff_left hne]
      exact h.success u
  · intro u hu
    rcases eq_or_ne u t with rfl | hne
    · exact mem_append_right _ mem_cons_self
    · rw [hv.others u hne] at hu
      exact mem_append_left _ (h.commit u hu)
  · exact fun u => hv.seen (h.seen u)
  · have hlog : s'.Log σ :=
      h.log.congr hv.prepared (fun u hu => .of_eq (hold u hu)) fun k => (hv.same k).1
    rw [← hv.prepared]
    refine hlog.concat (hv.decision.trans hdec) (fun r hr => ?_) fun u hu hund k hk => ?_
    · -- validation has compared the version read with the current one
      rw [hv.trace] at hr
      obtain ⟨hread,hle,hcur⟩ := h.seen t r hr
      have hge := hv.current rfl r.1 ((hreads r.1).mpr (by simp [hread]))
      rw [hread,Option.getD_some] at hge
      rw [(hv.same r.1).1]
      exact hcur (le_antisymm hle hge)
    · rw [hv.prepared] at hu
      rw [hold u hu] at hund
      rw [hv.readVers] at hk
      rw [writes,hold u hu]
      exact hord u hu hund k hk

theorem onDecide_txs (s : SchedulerTapir K V) (t : ℕ) (commit : Bool) (u : ℕ) :
    (s.onDecide t commit).txs u =
      {s.txs u with decision := if u = t then some commit else (s.txs u).decision} := by
  rcases eq_or_ne u t with rfl | hne
  · rw [if_pos rfl]
    exact update_self _ _ _
  · rw [if_neg hne]
    exact update_of_ne hne _ _

theorem onDecide_cols (s : SchedulerTapir K V) (t : ℕ) (commit : Bool) (k : K) :
    ((s.onDecide t commit).cols k).value =
        (if commit then ((s.txs t).writeBufs k).getD (s.cols k).value else (s.cols k).value) ∧
      ((s.onDecide t commit).cols k).ver =
        if commit ∧ (s.txs t).writeBufs k ≠ none then (s.txs t).timestamp else (s.cols k).ver := by
  have hclean : ∀ c : Column V, (cleanUp (s.txs t) k c).value = c.value ∧
      (cleanUp (s.txs t) k c).ver = c.ver := by
    intro c
    unfold cleanUp
    cases (s.txs t).preparedRvers k <;> cases (s.txs t).preparedWvers k <;> exact ⟨rfl,rfl⟩
  unfold onDecide setTx
  rw [(hclean _).1,(hclean _).2]
  cases commit <;> cases (s.txs t).writeBufs k <;> simp

theorem inv_init (σ : K → V) : Inv σ ({cols := fun k => {value := σ k}} : SchedulerTapir K V) := by
  constructor
  · exact nodup_nil
  · simp
  · simp
  · simp [Seen]
  · exact ⟨fun _ => rfl,by simp,by simp⟩

theorem Inv.serializable (h : s.Inv σ) : s.Serializable σ := by
  refine ⟨s.committed s.prepared,h.nodup.filter _,fun t => ?_,fun m₁ t m₂ hsplit p hp => ?_⟩
  · rw [committed,mem_filter,decide_eq_true_eq]
    exact and_iff_right_of_imp (h.commit t)
  · obtain ⟨r,hr,rfl⟩ := List.mem_map.mp hp
    obtain ⟨l₁,l,hl,hm₁,hm⟩ := filter_eq_append_iff.mp hsplit
    obtain ⟨l₂,l₃,rfl,hnone,_,_⟩ := filter_eq_cons_iff.mp hm
    have hcomm : s.committed (l₁++l₂) = m₁ := by
      rw [committed,filter_append,hm₁,filter_eq_nil_iff.mpr hnone,append_nil]
    rw [← hcomm]
    exact h.log.view (l₁++l₂) t l₃ (by rw [hl,append_assoc]) r hr

theorem Inv.onDecide {commit : Bool} (h : s.Inv σ) (hdec : (s.txs t).decision = none)
    (hperm : s.Permitted (.onDecide t commit)) (hord : s.Ordered (.onDecide t commit)) :
    (s.onDecide t commit).Inv σ := by
  have htxs := onDecide_txs s t commit
  constructor
  · exact h.nodup
  · intro u
    rw [htxs]
    exact h.success u
  · intro u hu
    rw [htxs] at hu
    dsimp only at hu
    split_ifs at hu with heq
    · cases hu
      exact heq ▸ (h.success t).mpr hperm
    · exact h.commit u hu
  · intro u r hr
    rw [htxs] at hr ⊢
    obtain ⟨hread,hle,hcur⟩ := h.seen u r hr
    obtain ⟨hvalue,hver⟩ := onDecide_cols s t commit r.1
    refine ⟨hread,?_⟩
    by_cases hw : commit = true ∧ (s.txs t).writeBufs r.1 ≠ none
    · obtain ⟨rfl,hw'⟩ := hw
      have hlt := (hord r.1 hw').1
      rw [hver,if_pos ⟨rfl,hw'⟩]
      omega
    · rw [hver,if_neg hw,hvalue]
      refine ⟨hle,fun heq => (hcur heq).trans ?_⟩
      cases commit with
      | false => rfl
      | true => simp [not_not.mp fun hne => hw ⟨rfl,hne⟩]
  · cases commit with
    | true =>
      refine h.log.commit h.nodup ((h.success t).mpr hperm) hdec rfl (by rw [htxs,if_pos rfl])
        (fun u hu => by rw [htxs,if_neg hu]) (fun k => (onDecide_cols s t true k).1)
        (fun u r hr => ?_) fun u hsub hund k hk => ?_
      · simp [(h.seen u r hr).1]
      · exact (hord k hk).2 u (hsub.subset mem_cons_self) hsub hund
    | false =>
      refine h.log.congr rfl (fun u _ => ?_) fun k => (onDecide_cols s t false k).1
      rw [htxs]
      refine ⟨rfl,rfl,rfl,?_,?_⟩
      · rcases eq_or_ne u t with rfl | hne
        · simp [hdec]
        · simp [hne]
      · rcases eq_or_ne u t with rfl | hne
        · simp
        · simp [hne]

variable [DecidableEq K]

section Validation

variable {readVers prepared prepared' : K → Option ℕ} {cols cols' : K → Column V} {ks : List K}

theorem insertPreparedRver_same {ver : ℕ} (cols : K → Column V) (k' : K) :
    (update cols k ((cols k).insertPreparedRver ver) k').value = (cols k').value ∧
      (update cols k ((cols k).insertPreparedRver ver) k').ver = (cols k').ver := by
  rcases eq_or_ne k' k with rfl | hne
  · rw [update_self]
    exact ⟨rfl,rfl⟩
  · rw [update_of_ne hne]
    exact ⟨rfl,rfl⟩

theorem validateReads_same {ret : Option Result}
    (h : validateReads readVers ks cols prepared = (cols',prepared',ret)) (k : K) :
    (cols' k).value = (cols k).value ∧ (cols' k).ver = (cols k).ver := by
  induction ks generalizing cols prepared with
  | nil =>
    cases h
    exact ⟨rfl,rfl⟩
  | cons k₁ ks ih =>
    simp only [validateReads] at h
    split_ifs at h
    · cases h
      exact ⟨rfl,rfl⟩
    · cases h
      exact ⟨rfl,rfl⟩
    · obtain ⟨hvalue,hver⟩ := ih h
      obtain ⟨hvalue',hver'⟩ := insertPreparedRver_same cols k
      exact ⟨hvalue.trans hvalue',hver.trans hver'⟩

theorem validateReads_le (h : validateReads readVers ks cols prepared = (cols',prepared',none)) :
    ∀ k ∈ ks, (cols k).ver ≤ (readVers k).getD 0 := by
  induction ks generalizing cols prepared with
  | nil => simp
  | cons k₁ ks ih =>
    simp only [validateReads] at h
    split_ifs at h with hver hmin
    · cases h
    · cases h
    intro k hk
    rcases mem_cons.mp hk with rfl | hmem
    · exact Nat.not_lt.mp hver
    · have hle := ih h k hmem
      rwa [(insertPreparedRver_same cols k).2] at hle

theorem validateReads_ne_success {ret : Result}
    (h : validateReads readVers ks cols prepared = (cols',prepared',some ret)) :
    ret ≠ .success := by
  induction ks generalizing cols prepared with
  | nil => cases h
  | cons k₁ ks ih =>
    simp only [validateReads] at h
    split_ifs at h
    · cases h
      nofun
    · cases h
      nofun
    · exact ih h

theorem validateWrites_same (ts : ℕ) (ks : List K) (cols : K → Column V)
    (prepared : K → Option ℕ) (ret : Result) (k : K) :
    ((validateWrites ts ks cols prepared ret).1 k).value = (cols k).value ∧
      ((validateWrites ts ks cols prepared ret).1 k).ver = (cols k).ver := by
  induction ks generalizing cols prepared ret with
  | nil => exact ⟨rfl,rfl⟩
  | cons k₁ ks ih =>
    obtain ⟨hvalue,hver⟩ := ih (update cols k₁ ((cols k₁).insertPreparedRver ts)) _ _
    obtain ⟨hvalue',hver'⟩ := insertPreparedRver_same cols k
    exact ⟨hvalue.trans hvalue',hver.trans hver'⟩

end Validation

theorem onFastAccept_validated (s : SchedulerTapir K V) (t ts : ℕ) (aborted : Bool)
    (reads writes : List K) :
    Validated s (s.onFastAccept t ts aborted reads writes).1 t reads
      (s.onFastAccept t ts aborted reads writes).2 := by
  unfold onFastAccept
  dsimp only
  split_ifs
  · exact .of_setTx rfl rfl rfl rfl rfl (fun _ => ⟨rfl,rfl⟩) nofun
  · rcases hr : validateReads (s.txs t).readVers reads s.cols (s.txs t).preparedRvers with
      ⟨cols,prepared,_ | ret⟩
    · refine .of_setTx rfl rfl rfl rfl rfl (fun k => ?_) fun _ => validateReads_le hr
      obtain ⟨hvalue,hver⟩ := validateReads_same hr k
      obtain ⟨hvalue',hver'⟩ := validateWrites_same ts writes cols (s.txs t).preparedWvers .success k
      exact ⟨hvalue'.trans hvalue,hver'.trans hver⟩
    · exact .of_setTx rfl rfl rfl rfl rfl (validateReads_same hr)
        fun hret => absurd hret (validateReads_ne_success hr)

theorem Inv.readColumn (h : s.Inv σ) (hres : (s.txs t).result = none)
    (hdec : (s.txs t).decision = none)
    (hver : ∀ ver ∈ (s.txs t).readVers k, ver = (s.cols k).ver) : (s.readColumn t k).Inv σ := by
  have hself : ((s.readColumn t k).txs t) = {s.txs t with
      readVers := update (s.txs t).readVers k (some (s.cols k).ver)
      reads := (s.txs t).reads++[(k,(s.cols k).ver,(s.cols k).value)]} := update_self _ _ _
  refine h.touch (h.not_prepared hres) rfl (fun u hu => update_of_ne hu _ _)
    (fun _ => ⟨rfl,rfl⟩) (by simp [hself,hres]) (by simp [hself,hdec]) fun r hr => ?_
  rw [hself] at hr ⊢
  rcases mem_append.mp hr with hold | hnew
  · obtain ⟨hread,hrest⟩ := h.seen t r hold
    refine ⟨?_,hrest⟩
    rcases eq_or_ne r.1 k with rfl | hne
    · simp [hver _ hread]
    · simp [update_of_ne hne,hread]
  · cases mem_singleton.mp hnew
    exact ⟨update_self _ _ _,le_rfl,fun _ => rfl⟩

theorem Inv.writeColumn {v : V} (h : s.Inv σ) (hres : (s.txs t).result = none)
    (hdec : (s.txs t).decision = none) : (s.writeColumn t k v).Inv σ := by
  have hself : ((s.writeColumn t k v).txs t) = {s.txs t with
      writeBufs := update (s.txs t).writeBufs k (some v)} := update_self _ _ _
  refine h.touch (h.not_prepared hres) rfl (fun u hu => update_of_ne hu _ _)
    (fun _ => ⟨rfl,rfl⟩) (by simp [hself,hres]) (by simp [hself,hdec]) fun r hr => ?_
  rw [hself] at hr ⊢
  exact h.seen t r hr

theorem Inv.step {ts : ℕ → ℕ} {a : Action K V} (h : s.Inv σ) (hperm : s.Permitted a)
    (hord : s.Ordered a) (hs : s.step ts a = some s') : s'.Inv σ := by
  cases a <;> simp only [SchedulerTapir.step,Option.ite_none_right_eq_some] at hs <;>
    obtain ⟨hc,hs⟩ := hs
  case readColumn t k =>
    cases hs
    exact h.readColumn hc.1 hc.2 hord
  case writeColumn t k v =>
    cases hs
    exact h.writeColumn hc.1 hc.2
  case onFastAccept t aborted reads writes =>
    have hv := onFastAccept_validated s t (ts t) aborted reads writes
    rcases hr : s.onFastAccept t (ts t) aborted reads writes with ⟨s₁,ret⟩
    rw [hr] at hs hv
    have hreject : ret ≠ .success → s₁.Inv σ := by
      intro hne
      refine h.touch (h.not_prepared hc.1) hv.prepared hv.others hv.same ?_ ?_ (hv.seen (h.seen t))
      · rw [hv.result]
        exact fun he => hne (Option.some.inj he)
      · rw [hv.decision,hc.2]
        nofun
    cases ret with
    | success =>
      cases hs
      exact h.prepare hv hc.1 hc.2 hperm.2.2.1 hord
    | retry | abstain | reject =>
      cases hs
      exact hreject nofun
  case onDecide t commit =>
    cases hs
    exact h.onDecide hc hperm hord

instance [Fintype K] [DecidableEq V] (s : SchedulerTapir K V) (a : Action K V) :
    Decidable (s.Permitted a) := by
  rcases a with _ | _ | _ | ⟨_,_ | _⟩ <;> unfold Permitted <;> infer_instance

instance [Fintype K] [DecidableEq V] (s : SchedulerTapir K V) (a : Action K V) :
    Decidable (s.Ordered a) := by
  rcases a with _ | _ | _ | ⟨_,_ | _⟩ <;> unfold Ordered <;> infer_instance

def increment (t v : ℕ) : List (Action Unit ℕ) := [.readColumn t (),.writeColumn t () v]

def prepare (t : ℕ) : Action Unit ℕ := .onFastAccept t false [()] [()]

def runCalls (ok : SchedulerTapir Unit ℕ → Action Unit ℕ → Prop) [∀ s a, Decidable (ok s a)]
    (calls : List (Action Unit ℕ)) : SchedulerTapir Unit ℕ :=
  after (system (fun _ => 0) id) ok {cols := fun _ => {value := 0}} calls

/-- Two increments that both read 0 are committed: the first prepared read hides the prepared write
from `min_prepared_wver`. -/
def lostIncrement : SchedulerTapir Unit ℕ :=
  runCalls Permitted (increment 1 1++increment 2 2 ++
    [prepare 1,prepare 2,.onDecide 1 true,.onDecide 2 true])

theorem lostIncrement_spec {t : ℕ} (h : (lostIncrement.txs t).decision = some true) :
    (lostIncrement.txs t).reads = [((),0,0)] ∧ lostIncrement.writes t () = some t ∧ t ≠ 0 :=
  match t, h with
  | 1, _ => by decide +kernel
  | 2, _ => by decide +kernel
  | 0, h => nomatch h
  | _+3, h => nomatch h

end SchedulerTapir

end Janus.Tapir
