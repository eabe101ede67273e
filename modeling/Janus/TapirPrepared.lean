import Janus.Tapir

/-! The prepared version lists of Tapir (`memdb/row.h`, `tapir/scheduler.cc`). `OnFastAccept`
records the versions that a transaction read or will write, and `OnDecide` takes them out. Writes
are recorded in the list of the reads and taken out of the other one, and a version is taken out as
often as it occurs. -/

namespace Janus.Tapir
namespace SchedulerTapir

open Transition Function List List.Perm Option

variable {K V : Type} {f : ℕ → Option ℕ} {ts : List ℕ}

def Undecided (s : SchedulerTapir K V) (t : ℕ) : Prop :=
  (s.txs t).result ≠ none ∧ (s.txs t).decision = none

def Recorded (s : SchedulerTapir K V) (pending : ℕ → Prop) : Prop :=
  ∃ ts : List ℕ, ts.Nodup ∧ (∀ t, t ∈ ts ↔ pending t) ∧ ∀ k,
    (s.cols k).preparedRver.Perm (ts.filterMap fun t => (s.txs t).preparedRvers k) ∧
    (s.cols k).preparedRver.Pairwise (· ≤ ·) ∧
    (s.cols k).preparedWver.Perm (ts.filterMap fun t => (s.txs t).preparedWvers k) ∧
    (s.cols k).preparedWver.Pairwise (· ≤ ·)

def Visits (s : SchedulerTapir K V) : Action K V → Prop
  | .onFastAccept t _ reads writes =>
    reads.Nodup ∧ writes.Nodup ∧ (∀ k, k ∈ reads ↔ (s.txs t).readVers k ≠ none) ∧
      ∀ k, k ∈ writes ↔ (s.txs t).writeBufs k ≠ none
  | _ => True

/-- A transaction that wrote gets no further in `OnFastAccept` than its reads, and is decided only
while each version it recorded occurs once. -/
def KeptApart (s : SchedulerTapir K V) : Action K V → Prop
  | .onFastAccept t aborted _ _ =>
    aborted = true ∨ (∀ k, (s.txs t).writeBufs k = none) ∨
      ∃ k, ∃ ver ∈ (s.txs t).readVers k, ver < (s.cols k).ver
  | .onDecide t _ =>
    ∀ k, ∀ ver ∈ (s.txs t).preparedRvers k, (s.cols k).preparedRver.count ver ≤ 1
  | _ => True

/-- The bookkeeping of reads. A transaction has recorded nothing before its `OnFastAccept`, and
nobody has recorded a write. -/
structure Booked (s : SchedulerTapir K V) : Prop where
  reads : ∃ ts : List ℕ, ts.Nodup ∧ (∀ t, t ∈ ts ↔ s.Undecided t) ∧
    ∀ k, (s.cols k).preparedRver.Perm (ts.filterMap fun t => (s.txs t).preparedRvers k)
  sorted : ∀ k, (s.cols k).preparedRver.Pairwise (· ≤ ·)
  fresh : ∀ t, (s.txs t).result = none → ∀ k, (s.txs t).preparedRvers k = none
  writes : ∀ t k, (s.txs t).preparedWvers k = none
  empty : ∀ k, (s.cols k).preparedWver = []

variable {s s' : SchedulerTapir K V} {t : ℕ} {k : K}

theorem Booked.init (σ : K → V) :
    Booked ({cols := fun k => {value := σ k}} : SchedulerTapir K V) where
  reads := ⟨[],nodup_nil,fun t => by simp [Undecided],fun _ => nil⟩
  sorted _ := List.Pairwise.nil
  fresh _ _ _ := rfl
  writes _ _ := rfl
  empty _ := rfl

theorem Booked.recorded (h : s.Booked) : s.Recorded s.Undecided := by
  obtain ⟨ts,hnodup,hmem,hreads⟩ := h.reads
  refine ⟨ts,hnodup,hmem,fun k => ⟨hreads k,h.sorted k,?_,?_⟩⟩
  · simp [h.empty k,h.writes]
  · simp [h.empty k]

/-- Transactions that have recorded nothing do not matter. -/
theorem Recorded.restrict {p q : ℕ → Prop} [DecidablePred q] (h : s.Recorded p)
    (hq : ∀ t, q t → p t) (hnone : ∀ t, p t → ¬q t → ∀ k,
      (s.txs t).preparedRvers k = none ∧ (s.txs t).preparedWvers k = none) : s.Recorded q := by
  obtain ⟨ts,hnodup,hmem,hlists⟩ := h
  have hskip : ∀ f : ℕ → Option ℕ, (∀ t, p t → ¬q t → f t = none) →
      (ts.filter q).filterMap f = ts.filterMap f := by
    intro f hf
    rw [filterMap_filter]
    refine filterMap_congr fun t ht => ?_
    by_cases hqt : q t
    · simp [hqt]
    · simp [hqt,hf t ((hmem t).mp ht) hqt]
  refine ⟨ts.filter q,hnodup.filter _,fun t => ?_,fun k => ?_⟩
  · rw [mem_filter,hmem,decide_eq_true_eq]
    exact ⟨And.right,fun hqt => ⟨hq t hqt,hqt⟩⟩
  · rw [hskip _ fun t hp hn => (hnone t hp hn k).1,hskip _ fun t hp hn => (hnone t hp hn k).2]
    exact hlists k

theorem Recorded.nil {p : ℕ → Prop} (h : s.Recorded p) (hp : ∀ t, ¬p t) (k : K) :
    (s.cols k).preparedRver = [] ∧ (s.cols k).preparedWver = [] := by
  obtain ⟨ts,-,hmem,hlists⟩ := h
  have hts : ts = [] := eq_nil_iff_forall_not_mem.mpr fun t ht => hp t ((hmem t).mp ht)
  obtain ⟨hreads,-,hwrites,-⟩ := hlists k
  rw [hts] at hreads hwrites
  exact ⟨hreads.eq_nil,hwrites.eq_nil⟩

/-- What a call adds to the lists of a column, if the transaction had recorded `prepared` before
and `prepared'` after it. -/
structure Adds (prepared prepared' : K → Option ℕ) (cols cols' : K → Column V) (k : K) : Prop where
  keep : prepared k ≠ none → prepared' k = prepared k
  perm : (cols' k).preparedRver.Perm
    ((if prepared k = none then (prepared' k).toList else [])++(cols k).preparedRver)
  sorted : (cols k).preparedRver.Pairwise (· ≤ ·) → (cols' k).preparedRver.Pairwise (· ≤ ·)
  write : (cols' k).preparedWver = (cols k).preparedWver

theorem Adds.refl (prepared : K → Option ℕ) (cols : K → Column V) (k : K) :
    Adds prepared prepared cols cols k := by
  refine ⟨fun _ => rfl,?_,id,rfl⟩
  split_ifs with hk
  · simp [hk]
  · simp

theorem Booked.accept (h : s.Booked) (hres : (s.txs t).result = none)
    (hothers : ∀ u ≠ t, s'.txs u = s.txs u) (hself : s'.Undecided t)
    (hwrites : ∀ k, (s'.txs t).preparedWvers k = none)
    (hadds : ∀ k, Adds (s.txs t).preparedRvers (s'.txs t).preparedRvers s.cols s'.cols k) :
    s'.Booked := by
  obtain ⟨ts,hnodup,hmem,hreads⟩ := h.reads
  have hout : t ∉ ts := fun ht => ((hmem t).mp ht).1 hres
  refine ⟨⟨t::ts,nodup_cons.mpr ⟨hout,hnodup⟩,fun u => ?_,fun k => ?_⟩,
    fun k => (hadds k).sorted (h.sorted k),fun u hu k => ?_,fun u k => ?_,
    fun k => (hadds k).write.trans (h.empty k)⟩
  · rcases eq_or_ne u t with rfl | hne
    · exact iff_of_true mem_cons_self hself
    · rw [mem_cons,or_iff_right hne,hmem,Undecided,Undecided,hothers u hne]
  · have hrest : (ts.filterMap fun u => (s'.txs u).preparedRvers k) =
        ts.filterMap fun u => (s.txs u).preparedRvers k :=
      filterMap_congr fun u hu => by rw [hothers u (ne_of_mem_of_not_mem hu hout)]
    have hperm := (hadds k).perm
    rw [if_pos (h.fresh t hres k)] at hperm
    refine hperm.trans (((hreads k).append_left _).trans (of_eq ?_))
    rw [filterMap_cons,hrest]
    cases (s'.txs t).preparedRvers k <;> rfl
  · rcases eq_or_ne u t with rfl | hne
    · exact absurd hu hself.1
    · rw [hothers u hne] at hu ⊢
      exact h.fresh u hu k
  · rcases eq_or_ne u t with rfl | hne
    · exact hwrites k
    · rw [hothers u hne]
      exact h.writes u k

theorem recorded_once {u ver : ℕ}
    (hcount : (ts.filterMap f).count ver ≤ 1) (ht : t ∈ ts) (hft : f t = some ver) (hu : u ∈ ts)
    (hfu : f u = some ver) : u = t := by
  have hlen : (ts.filter fun v => f v = some ver).length ≤ 1 := by
    refine le_trans (le_of_eq ?_) hcount
    rw [List.count,countP_filterMap,countP_eq_length_filter]
    congr 2
    funext v
    cases f v with
    | none => simp
    | some w =>
      simp only [some.injEq]
      rfl
  have hmem : ∀ v ∈ ts, f v = some ver → v ∈ ts.filter fun v => f v = some ver :=
    fun v hv hfv => mem_filter.mpr ⟨hv,by simpa using hfv⟩
  rcases hl : ts.filter fun v => f v = some ver with _ | ⟨v,_ | ⟨_,_⟩⟩
  · simpa [hl] using hmem t ht hft
  · have hut := hmem u hu hfu
    have htt := hmem t ht hft
    rw [hl,mem_singleton] at hut htt
    exact hut.trans htt.symm
  · simp [hl] at hlen

theorem filter_recorded {ver : ℕ} (ht : f t = some ver) (hu : ∀ u ∈ ts, u ≠ t → f u ≠ some ver) :
    ((ts.filterMap f).filter (· ≠ ver)) = (ts.filter (· ≠ t)).filterMap f := by
  induction ts with
  | nil => rfl
  | cons u ts ih =>
    have ih := ih fun v hv => hu v (mem_cons_of_mem _ hv)
    rcases eq_or_ne u t with rfl | hne
    · rw [filterMap_cons_some ht,filter_cons_of_neg (by simp),ih,filter_cons_of_neg (by simp)]
    · rw [filter_cons_of_pos (by simpa using hne)]
      cases hf : f u with
      | none => rw [filterMap_cons_none hf,filterMap_cons_none hf,ih]
      | some v =>
        have hv : v ≠ ver := fun he => hu u mem_cons_self hne (he ▸ hf)
        rw [filterMap_cons_some hf,filterMap_cons_some hf,
          filter_cons_of_pos (by simpa using hv),ih]

theorem filter_unrecorded (ht : f t = none) : (ts.filter (· ≠ t)).filterMap f = ts.filterMap f := by
  rw [filterMap_filter]
  refine filterMap_congr fun u _ => ?_
  rcases eq_or_ne u t with rfl | hne
  · simp [ht]
  · simp [hne]

theorem onDecide_lists (s : SchedulerTapir K V) (t : ℕ) (commit : Bool) (k : K)
    (hw : (s.txs t).preparedWvers k = none) :
    ((s.onDecide t commit).cols k).preparedRver = (match (s.txs t).preparedRvers k with
        | none => (s.cols k).preparedRver
        | some ver => (s.cols k).preparedRver.filter (· ≠ ver)) ∧
    ((s.onDecide t commit).cols k).preparedWver = (s.cols k).preparedWver := by
  unfold onDecide setTx cleanUp
  dsimp only
  rw [hw]
  cases commit <;> cases (s.txs t).preparedRvers k <;> cases (s.txs t).writeBufs k <;> exact ⟨rfl,rfl⟩

theorem Booked.onDecide (h : s.Booked) {commit : Bool} (hdec : (s.txs t).decision = none)
    (hapart : s.KeptApart (.onDecide t commit)) : (s.onDecide t commit).Booked := by
  obtain ⟨ts,hnodup,hmem,hreads⟩ := h.reads
  have htxs := onDecide_txs s t commit
  refine ⟨⟨ts.filter (· ≠ t),hnodup.filter _,fun u => ?_,fun k => ?_⟩,fun k => ?_,fun u hu k => ?_,
    fun u k => ?_,fun k => ?_⟩
  · rcases eq_or_ne u t with rfl | hne
    · simp [Undecided,htxs]
    · rw [mem_filter,hmem,Undecided,Undecided,htxs]
      simp [hne]
  · simp only [htxs]
    rw [(onDecide_lists s t commit k (h.writes t k)).1]
    cases hver : (s.txs t).preparedRvers k with
    | none =>
      rw [filter_unrecorded hver]
      exact hreads k
    | some ver =>
      have ht : t ∈ ts := by
        refine (hmem t).mpr ⟨fun hres => ?_,hdec⟩
        rw [h.fresh t hres k] at hver
        cases hver
      have honce := hapart k ver hver
      rw [(hreads k).count_eq] at honce
      rw [← filter_recorded hver fun u hu hne hfu => hne (recorded_once honce ht hver hu hfu)]
      exact (hreads k).filter _
  · rw [(onDecide_lists s t commit k (h.writes t k)).1]
    cases (s.txs t).preparedRvers k with
    | none => exact h.sorted k
    | some ver => exact (h.sorted k).filter _
  · rw [htxs] at hu ⊢
    exact h.fresh u hu k
  · rw [htxs]
    exact h.writes u k
  · rw [(onDecide_lists s t commit k (h.writes t k)).2]
    exact h.empty k

theorem Booked.congr (h : s.Booked) (hcols : s'.cols = s.cols)
    (htxs : ∀ u, (s'.txs u).preparedRvers = (s.txs u).preparedRvers ∧
      (s'.txs u).preparedWvers = (s.txs u).preparedWvers ∧ (s'.txs u).result = (s.txs u).result ∧
      (s'.txs u).decision = (s.txs u).decision) : s'.Booked := by
  obtain ⟨ts,hnodup,hmem,hreads⟩ := h.reads
  refine ⟨⟨ts,hnodup,fun u => ?_,fun k => ?_⟩,fun k => ?_,fun u hu k => ?_,fun u k => ?_,fun k => ?_⟩
  · rw [hmem,Undecided,Undecided,(htxs u).2.2.1,(htxs u).2.2.2]
  · rw [hcols]
    refine (hreads k).trans (of_eq (filterMap_congr fun u _ => ?_))
    rw [(htxs u).1]
  · rw [hcols]
    exact h.sorted k
  · rw [(htxs u).2.2.1] at hu
    rw [(htxs u).1]
    exact h.fresh u hu k
  · rw [(htxs u).2.1]
    exact h.writes u k
  · rw [hcols]
    exact h.empty k

theorem Booked.setTx (h : s.Booked) {x : TxTapir K V}
    (hrvers : x.preparedRvers = (s.txs t).preparedRvers)
    (hwvers : x.preparedWvers = (s.txs t).preparedWvers) (hres : x.result = (s.txs t).result)
    (hdec : x.decision = (s.txs t).decision) : (s.setTx t x).Booked := by
  refine h.congr rfl fun u => ?_
  unfold SchedulerTapir.setTx
  dsimp only
  rcases eq_or_ne u t with rfl | hne
  · rw [update_self]
    exact ⟨hrvers,hwvers,hres,hdec⟩
  · rw [update_of_ne hne]
    exact ⟨rfl,rfl,rfl,rfl⟩

def AllZero (cols : K → Column V) : Prop :=
  ∀ k, (cols k).ver = 0 ∧ ∀ ver ∈ (cols k).preparedRver, ver = 0

/-- Without a validated write no version changes, so that nobody is refused after a read. -/
structure Still (s : SchedulerTapir K V) : Prop where
  cols : AllZero s.cols
  reads : ∀ t k, ∀ ver ∈ (s.txs t).readVers k, ver = 0
  timestamp : ∀ t, (s.txs t).result = none ∨ (∃ k, (s.txs t).writeBufs k ≠ none) →
    (s.txs t).timestamp = 0
  refused : ∀ t, (s.txs t).result ≠ some .success → ∀ k, (s.txs t).preparedRvers k = none

theorem Still.setTx (h : s.Still) {x : TxTapir K V} (hread : ∀ k, ∀ ver ∈ x.readVers k, ver = 0)
    (htime : x.result = none ∨ (∃ k, x.writeBufs k ≠ none) → x.timestamp = 0)
    (hrefused : x.result ≠ some .success → ∀ k, x.preparedRvers k = none) :
    (s.setTx t x).Still := by
  refine ⟨h.cols,?_,?_,?_⟩ <;> intro u <;> rcases eq_or_ne u t with rfl | hne
  · simpa [SchedulerTapir.setTx] using hread
  · simpa [SchedulerTapir.setTx,hne] using h.reads u
  · simpa [SchedulerTapir.setTx] using htime
  · simpa [SchedulerTapir.setTx,hne] using h.timestamp u
  · simpa [SchedulerTapir.setTx] using hrefused
  · simpa [SchedulerTapir.setTx,hne] using h.refused u

section Steps

variable [DecidableEq K]

theorem validateReads_adds {readVers prepared prepared' : K → Option ℕ} {cols cols' : K → Column V}
    {ks : List K} {ret : Option Result} (hnodup : ks.Nodup) (hfresh : ∀ k ∈ ks, prepared k = none)
    (h : validateReads readVers ks cols prepared = (cols',prepared',ret)) (k : K) :
    Adds prepared prepared' cols cols' k := by
  induction ks generalizing cols prepared with
  | nil =>
    cases h
    exact .refl _ _ k
  | cons k₁ ks ih =>
    obtain ⟨hout,hnodup⟩ := nodup_cons.mp hnodup
    simp only [validateReads] at h
    split_ifs at h
    · cases h
      exact .refl _ _ k
    · cases h
      exact .refl _ _ k
    · obtain ⟨hkeep,hperm,hsorted,hwrite⟩ := ih hnodup (fun k' hk' => by
        rw [update_of_ne (ne_of_mem_of_not_mem hk' hout)]
        exact hfresh k' (mem_cons_of_mem _ hk')) h
      rcases eq_or_ne k k₁ with rfl | hne
      · have hnone := hfresh k mem_cons_self
        rw [update_self] at hkeep hperm hsorted hwrite
        rw [update_self,if_neg (by simp),nil_append] at hperm
        refine ⟨fun hk => absurd hnone hk,?_,fun _ => hsorted ?_,hwrite⟩
        · rw [if_pos hnone,hkeep (by simp)]
          exact hperm.trans ((perm_insertionSort _ _).trans (perm_append_singleton _ _))
        · exact pairwise_insertionSort _ _
      · rw [update_of_ne hne] at hkeep hperm hsorted hwrite
        rw [update_of_ne hne] at hperm
        exact ⟨hkeep,hperm,hsorted,hwrite⟩

theorem validateReads_still {readVers prepared : K → Option ℕ} {cols : K → Column V}
    (hcols : AllZero cols) (hread : ∀ k, ∀ ver ∈ readVers k, ver = 0) (ks : List K) :
    ∃ cols' prepared', validateReads readVers ks cols prepared = (cols',prepared',none) ∧
      AllZero cols' := by
  induction ks generalizing cols prepared with
  | nil => exact ⟨cols,prepared,rfl,hcols⟩
  | cons k ks ih =>
    have hver : (readVers k).getD 0 = 0 := by
      cases h : readVers k with
      | none => rfl
      | some ver => exact hread k ver h
    have hmin : (cols k).minPreparedWver = 0 := by
      unfold Column.minPreparedWver
      cases h : (cols k).preparedRver.head? with
      | none => rfl
      | some ver => exact (hcols k).2 ver (mem_of_mem_head? h)
    simp only [validateReads,hver,(hcols k).1,hmin,lt_irrefl,if_false]
    refine ih fun k' => ?_
    rcases eq_or_ne k' k with rfl | hne
    · simpa [Column.insertPreparedRver,or_imp,forall_and] using hcols k'
    · simpa [hne] using hcols k'

/-- The loop over the reads gets to its end, and that over the writes has nothing to do. -/
theorem Still.validated (h : s.Still) {reads writes : List K}
    (hvisits : s.Visits (.onFastAccept t false reads writes))
    (hapart : s.KeptApart (.onFastAccept t false reads writes)) :
    (∀ k, (s.txs t).writeBufs k = none) ∧ writes = [] ∧ ∃ cols prepared,
      validateReads (s.txs t).readVers reads s.cols (s.txs t).preparedRvers = (cols,prepared,none) ∧
      AllZero cols := by
  have hbufs : ∀ k, (s.txs t).writeBufs k = none := by
    rcases hapart with hab | hnone | ⟨k,ver,-,hlt⟩
    · cases hab
    · exact hnone
    · simp [(h.cols k).1] at hlt
  exact ⟨hbufs,eq_nil_iff_forall_not_mem.mpr fun k hk => (hvisits.2.2.2 k).mp hk (hbufs k),
    validateReads_still h.cols (h.reads t) reads⟩

theorem Still.onFastAccept (h : s.Still) (ts : ℕ) {aborted : Bool} {reads writes : List K}
    (hres : (s.txs t).result = none) (hvisits : s.Visits (.onFastAccept t aborted reads writes))
    (hapart : s.KeptApart (.onFastAccept t aborted reads writes)) :
    (s.onFastAccept t ts aborted reads writes).1.Still := by
  have hnone := h.refused t (by simp [hres])
  cases aborted with
  | true => exact h.setTx (h.reads t) (fun _ => h.timestamp t (.inl hres)) fun _ => hnone
  | false =>
    obtain ⟨hbufs,rfl,cols,prepared,hval,hcols⟩ := h.validated hvisits hapart
    simp only [SchedulerTapir.onFastAccept,hval,validateWrites,Bool.false_eq_true,if_false]
    refine Still.setTx (s := {s with cols := cols}) {h with cols := hcols} (h.reads t) ?_ ?_
    · simp [hbufs]
    · simp

theorem Still.step {ts : ℕ → ℕ} {a : Action K V} (h : s.Still) (hvisits : s.Visits a)
    (hapart : s.KeptApart a) (hs : s.step ts a = some s') : s'.Still := by
  cases a <;> simp only [SchedulerTapir.step,Option.ite_none_right_eq_some] at hs <;>
    obtain ⟨hc,hs⟩ := hs
  case readColumn t k =>
    cases hs
    refine h.setTx (fun k' ver hver => ?_) (h.timestamp t) (h.refused t)
    rcases eq_or_ne k' k with rfl | hne
    · simp only [update_self,mem_def,some.injEq] at hver
      exact hver ▸ (h.cols k').1
    · simp only [update_of_ne hne] at hver
      exact h.reads t k' ver hver
  case writeColumn t k v =>
    cases hs
    exact h.setTx (h.reads t) (fun _ => h.timestamp t (.inl hc.1)) (h.refused t)
  case onFastAccept t aborted reads writes =>
    have hb := h.onFastAccept (ts t) hc.1 hvisits hapart
    rcases hr : s.onFastAccept t (ts t) aborted reads writes with ⟨s₁,ret⟩
    rw [hr] at hs hb
    cases ret <;> cases hs <;> exact {hb with}
  case onDecide t commit =>
    cases hs
    dsimp only [SchedulerTapir.onDecide]
    apply Still.setTx
    · refine ⟨fun k => ?_,h.reads,h.timestamp,h.refused⟩
      have htime := h.timestamp t
      have hcols := h.cols k
      unfold cleanUp Column.removePreparedRver Column.removePreparedWver
      grind
    exacts [h.reads t,h.timestamp t,h.refused t]

theorem Booked.onFastAccept (h : s.Booked) (hstill : s.Still) (ts : ℕ) {aborted : Bool}
    {reads writes : List K} (hres : (s.txs t).result = none) (hdec : (s.txs t).decision = none)
    (hvisits : s.Visits (.onFastAccept t aborted reads writes))
    (hapart : s.KeptApart (.onFastAccept t aborted reads writes)) :
    (s.onFastAccept t ts aborted reads writes).1.Booked := by
  have hv := onFastAccept_validated s t ts aborted reads writes
  have hself : (s.onFastAccept t ts aborted reads writes).1.Undecided t := by
    refine ⟨?_,hv.decision.trans hdec⟩
    rw [hv.result]
    nofun
  have hlists : ∀ k, ((s.onFastAccept t ts aborted reads writes).1.txs t).preparedWvers k = none ∧
      Adds (s.txs t).preparedRvers ((s.onFastAccept t ts aborted reads writes).1.txs t).preparedRvers
        s.cols (s.onFastAccept t ts aborted reads writes).1.cols k := by
    intro k
    cases aborted with
    | true =>
      simpa [SchedulerTapir.onFastAccept,SchedulerTapir.setTx] using
        ⟨h.writes t k,Adds.refl (s.txs t).preparedRvers s.cols k⟩
    | false =>
      obtain ⟨-,rfl,cols,prepared,hval,-⟩ := hstill.validated hvisits hapart
      have hadds := validateReads_adds hvisits.1 (fun k _ => h.fresh t hres k) hval k
      simpa [SchedulerTapir.onFastAccept,SchedulerTapir.setTx,hval,validateWrites] using
        ⟨h.writes t k,hadds⟩
  exact h.accept hres hv.others hself (fun k => (hlists k).1) fun k => (hlists k).2

theorem Booked.step {ts : ℕ → ℕ} {a : Action K V} (h : s.Booked) (hstill : s.Still) (hvisits : s.Visits a)
    (hapart : s.KeptApart a) (hs : s.step ts a = some s') : s'.Booked := by
  cases a <;> simp only [SchedulerTapir.step,Option.ite_none_right_eq_some] at hs <;>
    obtain ⟨hc,hs⟩ := hs
  case readColumn t k | writeColumn t k v =>
    cases hs
    exact h.setTx rfl rfl rfl rfl
  case onFastAccept t aborted reads writes =>
    have hb := h.onFastAccept hstill (ts t) hc.1 hc.2 hvisits hapart
    rcases hr : s.onFastAccept t (ts t) aborted reads writes with ⟨s₁,ret⟩
    rw [hr] at hs hb
    cases ret with
    | success =>
      cases hs
      exact hb.congr rfl fun _ => ⟨rfl,rfl,rfl,rfl⟩
    | retry | abstain | reject =>
      cases hs
      exact hb
  case onDecide t commit =>
    cases hs
    exact h.onDecide hc hapart

/-- If no transaction that wrote is validated, and no version is taken out while it is recorded
twice, the lists of a column are, in order, what the undecided transactions, and so the prepared
ones, have recorded; they are empty once all are decided. -/
theorem prepared_versions (σ : K → V) (ts : ℕ → ℕ)
    (h : ReachableBy (system σ ts) (fun s a => s.Visits a ∧ s.KeptApart a) s) :
    s.Recorded s.Undecided ∧
    (s.Recorded fun t => (s.txs t).result = some .success ∧ (s.txs t).decision = none) ∧
    ((∀ t, ¬s.Undecided t) → ∀ k, (s.cols k).preparedRver = [] ∧ (s.cols k).preparedWver = []) := by
  obtain ⟨s₀,rfl,hrun⟩ := h
  obtain ⟨hstill,hbooked⟩ := hrun.invariant (P := fun s => s.Still ∧ s.Booked)
    (fun _ _ _ hok h hs => ⟨h.1.step hok.1 hok.2 hs,h.2.step h.1 hok.1 hok.2 hs⟩)
    ⟨⟨fun _ => ⟨rfl,nofun⟩,fun _ _ _ => nofun,fun _ _ => rfl,fun _ _ _ => rfl⟩,Booked.init σ⟩
  have hrec := hbooked.recorded
  refine ⟨hrec,hrec.restrict (fun t ht => ⟨by simp [ht.1],ht.2⟩) fun t ht hns k => ?_,hrec.nil⟩
  exact ⟨hstill.refused t (fun hres => hns ⟨hres,ht.2⟩) k,hbooked.writes t k⟩

instance [Fintype K] [DecidableEq V] (s : SchedulerTapir K V) (a : Action K V) :
    Decidable (s.Visits a) := by
  cases a <;> unfold Visits <;> infer_instance

instance [Fintype K] [DecidableEq V] (s : SchedulerTapir K V) (a : Action K V) :
    Decidable (s.KeptApart a) := by
  cases a <;> unfold KeptApart <;> infer_instance

def afterCalls [Fintype K] (ok : SchedulerTapir K ℕ → Action K ℕ → Prop)
    [∀ s a, Decidable (ok s a)] (calls : List (Action K ℕ)) : SchedulerTapir K ℕ :=
  after (system (fun _ => 0) id) ok {cols := fun _ => {value := 0}} calls

theorem reachable_afterCalls [Fintype K] (ok : SchedulerTapir K ℕ → Action K ℕ → Prop)
    [∀ s a, Decidable (ok s a)] (calls : List (Action K ℕ)) :
    ReachableBy (system (fun _ => 0) id) ok (afterCalls ok calls) := ⟨_,rfl,run_after _ calls⟩

def twoReaders : SchedulerTapir Bool ℕ :=
  afterCalls (fun s a => s.Visits a ∧ s.KeptApart a)
    [.readColumn 1 false,.readColumn 2 true,.onFastAccept 1 false [false] [],
      .onFastAccept 2 false [true] [],.onDecide 1 true]

theorem prepared_versions_two :
    ReachableBy (system (fun _ => 0) id) (fun s a => s.Visits a ∧ s.KeptApart a) twoReaders ∧
    twoReaders.Recorded twoReaders.Undecided ∧ twoReaders.Undecided 2 ∧ ¬twoReaders.Undecided 1 ∧
    (twoReaders.cols false).preparedRver = [] ∧ (twoReaders.cols true).preparedRver = [0] := by
  have hrun : ReachableBy (system (fun _ => 0) id) (fun s a => s.Visits a ∧ s.KeptApart a)
      twoReaders := reachable_afterCalls _ _
  refine ⟨hrun,(prepared_versions _ _ hrun).1,?_,?_,by decide +kernel,by decide +kernel⟩
  all_goals
    unfold Undecided
    decide +kernel

def oneWriter : SchedulerTapir Unit ℕ :=
  afterCalls Visits [.writeColumn 1 () 5,.onFastAccept 1 false [] [()],.onDecide 1 true]

def sharedVersion : SchedulerTapir Unit ℕ :=
  afterCalls Visits [.readColumn 1 (),.readColumn 2 (),.onFastAccept 1 false [()] [],
    .onFastAccept 2 false [()] [],.onDecide 1 true]

/-- A decided write stays in the list of the reads; and the decision of one reader takes the
version of the other out as well. -/
theorem versions_left_and_lost :
    ReachableBy (system (fun _ => 0) id) Visits oneWriter ∧ (∀ t, ¬oneWriter.Undecided t) ∧
    (oneWriter.cols ()).preparedRver = [1] ∧
    ReachableBy (system (fun _ => 0) id) Visits sharedVersion ∧ sharedVersion.Undecided 2 ∧
    (sharedVersion.txs 2).preparedRvers () = some 0 ∧ (sharedVersion.cols ()).preparedRver = [] := by
  refine ⟨reachable_afterCalls _ _,fun t => ?_,by decide +kernel,reachable_afterCalls _ _,?_,
    by decide +kernel,by decide +kernel⟩
  · rintro ⟨hres,hdec⟩
    match t with
    | 0 => exact hres rfl
    | 1 => cases hdec
    | _+2 => exact hres rfl
  · unfold Undecided
    decide +kernel

end Steps

end SchedulerTapir
end Janus.Tapir
