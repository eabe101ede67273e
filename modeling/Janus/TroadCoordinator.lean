import Janus.Transition
import Janus.TroadServer

/-! `CoordinatorTroad` (`troad/coordinator.cc`) and its broadcasts (`troad/commo.cc`) over the
servers of all partitions. A transaction is dispatched piece by piece, then pre-accepted by all
replicas of its partitions, accepted by a majority unless the replies agree, and committed.
Messages arrive in any order; a pre-accept and its reply arrive at different times. -/

namespace Janus.Troad

open Transition Function List Option List.Subset Relation

/-- The partition sizes and the transactions. The pieces of a transaction are a map from
their `inn_id`. -/
structure Workload (P K Tx : Type) where
  size : P → ℕ
  rank : Tx → Rank
  pieces : Tx → List (Piece P K)
  innId_nodup : ∀ t, ((pieces t).map Piece.innId).Nodup

namespace Workload

variable {P K Tx : Type} [DecidableEq P]

def partitions (W : Workload P K Tx) (t : Tx) : List P := ((W.pieces t).map Piece.partition).dedup

def cmds (W : Workload P K Tx) (t : Tx) (p : P) : List (Piece P K) :=
  (W.pieces t).filter fun c => c.partition = p

def Conflicts (W : Workload P K Tx) (t : Tx) (p : P) (k : K) : Prop :=
  ∃ c ∈ W.cmds t p, k ∈ c.columns

end Workload

inductive Phase
  | dispatch | preAccept | accept | commit
  deriving DecidableEq

/-- `inFlight` are the pre-accept replies on their way, `vecParents` the arrived ones with their
sender, `accepted` the senders of accept replies. -/
structure Coordinator (P Tx : Type) where
  phase : Phase := .dispatch
  inFlight : P → ℕ → Option (List Tx) := fun _ _ => none
  vecParents : P → List (ℕ × List Tx) := fun _ => []
  fastPath : Bool := false
  parents : List Tx := []
  ballot : ℕ := 0
  accepted : P → List ℕ := fun _ => []

/-- `FastQuorumGraphCheck`, where edges count as equal if they lead to the same parent. -/
def fastQuorumGraphCheck {Tx : Type} [DecidableEq Tx] (vec : List (List Tx)) : Bool :=
  vec.all fun g => g = vec.headD []

/-- The end of `PreAccept`: `fast_path_` and the merged parents. -/
def mergeParents {Tx : Type} [DecidableEq Tx] (vecs : List (List (List Tx))) :
    Option (Bool × List Tx) :=
  if [] ∈ vecs then none
  else if vecs.all fastQuorumGraphCheck then some (true,vecs.flatMap fun vec => vec.headD [])
  else some (false,vecs.flatMap List.flatten)

structure Cluster (P K Tx : Type) where
  servers : P → ℕ → Server P K Tx := fun _ _ => {}
  coords : Tx → Coordinator P Tx := fun _ => {}

inductive Action (P K Tx : Type)
  | dispatch (t : Tx) (p : P) (r : ℕ) (cmds : List (Piece P K))
  | beginPreAccept (t : Tx)
  | preAccept (t : Tx) (p : P) (r : ℕ)
  | preAcceptReply (t : Tx) (p : P) (r : ℕ)
  | endPreAccept (t : Tx)
  | accept (t : Tx) (p : P) (r : ℕ)
  | endAccept (t : Tx)
  | commit (t : Tx) (p : P) (r : ℕ)

namespace Cluster

variable {P K Tx : Type} [DecidableEq P] [DecidableEq K] [DecidableEq Tx]

def setServer (s : Cluster P K Tx) (p : P) (r : ℕ) (σ : Server P K Tx) : Cluster P K Tx :=
  {s with servers := update s.servers p (update (s.servers p) r σ)}

def setCoord (s : Cluster P K Tx) (t : Tx) (c : Coordinator P Tx) : Cluster P K Tx :=
  {s with coords := update s.coords t c}

def step (W : Workload P K Tx) (s : Cluster P K Tx) :
    Action P K Tx → Option (Cluster P K Tx)
  | .dispatch t p r cmds =>
    if (s.coords t).phase = .dispatch ∧ r < W.size p ∧ cmds ⊆ W.cmds t p then
      ((s.servers p r).onDispatch (W.rank t) t cmds).map (s.setServer p r)
    else none
  | .beginPreAccept t =>
    if (s.coords t).phase = .dispatch then
      some (s.setCoord t {s.coords t with phase := .preAccept})
    else none
  | .preAccept t p r =>
    if (s.coords t).phase = .preAccept ∧ p ∈ W.partitions t ∧ r < W.size p then
      ((s.servers p r).onPreAccept (W.rank t) t (W.cmds t p)).map fun (σ,parents) =>
        let c := s.coords t
        (s.setServer p r σ).setCoord t {c with
          inFlight := update c.inFlight p
            (update (c.inFlight p) r (some parents))}
    else none
  | .preAcceptReply t p r =>
    let c := s.coords t
    if c.phase = .preAccept then
      (c.inFlight p r).map fun parents =>
        s.setCoord t {c with
          inFlight := update c.inFlight p (update (c.inFlight p) r none)
          vecParents := update c.vecParents p (c.vecParents p++[(r,parents)])}
    else none
  | .endPreAccept t =>
    let c := s.coords t
    if c.phase = .preAccept ∧ ∀ p ∈ W.partitions t, (c.vecParents p).length = W.size p then
      (mergeParents ((W.partitions t).map fun p => (c.vecParents p).map Prod.snd)).bind
        fun (fast,parents) =>
          -- `MergeParents` verifies that no transaction is its own parent
          if t ∈ parents then none
          else
            some (s.setCoord t {c with
              phase := if fast then .commit else .accept, fastPath := fast, parents := parents})
    else none
  | .accept t p r =>
    let c := s.coords t
    if (c.phase = .accept ∨ c.phase = .commit ∧ c.fastPath = false) ∧ p ∈ W.partitions t ∧
        r < W.size p ∧ r ∉ c.accepted p then
      ((s.servers p r).onAccept t c.ballot c.parents).map fun σ =>
        (s.setServer p r σ).setCoord t {c with
          accepted := update c.accepted p (c.accepted p++[r])}
    else none
  | .endAccept t =>
    let c := s.coords t
    if c.phase = .accept ∧ ∀ p ∈ W.partitions t, W.size p / 2 + 1 ≤ (c.accepted p).length then
      some (s.setCoord t {c with phase := .commit})
    else none
  | .commit t p r =>
    let c := s.coords t
    if c.phase = .commit ∧ p ∈ W.partitions t ∧ r < W.size p then
      ((s.servers p r).onCommit t c.parents).map (s.setServer p r)
    else none

end Cluster

def system {P K Tx : Type} [DecidableEq P] [DecidableEq K] [DecidableEq Tx]
    (W : Workload P K Tx) : System (Cluster P K Tx) (Action P K Tx) where
  init s := s = {}
  step s a := s.step W a

namespace Cluster

variable {P K Tx : Type} {s s' : Cluster P K Tx} {t u : Tx} {p : P} {r : ℕ} {k : K}
variable {a b : Tx} {fast : Bool} {parents : List Tx} {status : Status} {σ : Server P K Tx}
  {cmds : List (Piece P K)}

def Committed (s : Cluster P K Tx) (t : Tx) : Prop := (s.coords t).phase = .commit

def Final (s : Cluster P K Tx) (a b : Tx) : Prop := s.Committed a ∧ b ∈ (s.coords a).parents

/-- A transaction that is not committed counts with the parents recorded at its replicas. -/
def Edge (s : Cluster P K Tx) (a b : Tx) : Prop :=
  s.Final a b ∨ ¬s.Committed a ∧ ∃ p r, b ∈ ((s.servers p r).txs a).parents

/-- If all ancestors are committed, they are ancestors by the final lists. -/
theorem final_of_ancestors (ha : s.Committed a)
    (hall : ∀ x, TransGen s.Edge a x → s.Committed x) (h : TransGen s.Edge a b) :
    TransGen s.Final a b := by
  have hedge : ∀ x y, s.Committed x → s.Edge x y → s.Final x y :=
    fun x y hx hxy => hxy.resolve_right fun hr => hr.1 hx
  induction h with
  | single hab => exact .single (hedge _ _ ha hab)
  | tail hax hxy ih => exact .tail ih (hedge _ _ (hall _ hax) hxy)

variable [DecidableEq P]

def Past (c : Coordinator P Tx) : Prop := c.phase = .accept ∨ c.phase = .commit

structure Local (W : Workload P K Tx) (t : Tx) (c : Coordinator P Tx) (p : P) (r : ℕ)
    (x : SubTx P K Tx) : Prop where
  reqs : x.dreqs ⊆ W.cmds t p
  inside : x.parents ≠ [] → p ∈ W.partitions t ∧ r < W.size p
  early : ¬Past c → x.status ≠ .committing
  full : x.fullyDispatched = true → W.cmds t p ⊆ x.dreqs
  reply : c.phase = .preAccept → ∀ l, c.inFlight p r = some l ∨ (r,l) ∈ c.vecParents p →
    x.fullyDispatched = true ∧ l = x.parents
  past : Past c → p ∈ W.partitions t → r < W.size p → x.fullyDispatched = true ∧
    x.parents ⊆ c.parents

structure Replies (W : Workload P K Tx) (t : Tx) (c : Coordinator P Tx) : Prop where
  none : c.phase = .dispatch → ∀ p, c.vecParents p = [] ∧ ∀ r, c.inFlight p r = .none
  nodup : ∀ p, ((c.vecParents p).map Prod.fst).Nodup
  lt : ∀ p, ∀ v ∈ c.vecParents p, v.1 < W.size p
  flight : ∀ p r, c.inFlight p r ≠ .none → r < W.size p ∧ r ∉ (c.vecParents p).map Prod.fst
  pos : Past c → ∀ p ∈ W.partitions t, 0 < W.size p

structure Inv (W : Workload P K Tx) (s : Cluster P K Tx) : Prop where
  consistent : ∀ p r, (s.servers p r).Consistent
  loc : ∀ t p r, Local W t (s.coords t) p r ((s.servers p r).txs t)
  replies : ∀ t, Replies W t (s.coords t)

theorem mergeParents_subset [DecidableEq Tx] {vecs : List (List (List Tx))}
    (h : mergeParents vecs = some (fast,parents)) :
    ∀ vec ∈ vecs, vec ≠ [] ∧ ∀ g ∈ vec, g ⊆ parents := by
  intro vec hvec
  unfold mergeParents at h
  split_ifs at h with hempty hfast
  · cases h
    refine ⟨fun he => hempty (he ▸ hvec),fun g hg x hx => mem_flatMap.mpr ⟨vec,hvec,?_⟩⟩
    have hall := List.all_eq_true.mp (List.all_eq_true.mp hfast vec hvec) g hg
    rwa [← of_decide_eq_true hall]
  · cases h
    exact ⟨fun he => hempty (he ▸ hvec),fun g hg x hx =>
      mem_flatMap.mpr ⟨vec,hvec,mem_flatten.mpr ⟨g,hg,hx⟩⟩⟩

theorem mem_of_nodup_length {l : List ℕ} {n : ℕ} (hnodup : l.Nodup) (hlt : ∀ x ∈ l, x < n)
    (hlen : l.length = n) (hr : r < n) : r ∈ l := by
  have hsub : l.toFinset ⊆ Finset.range n := fun x hx =>
    Finset.mem_range.mpr (hlt x (List.mem_toFinset.mp hx))
  have hcard : (Finset.range n).card ≤ l.toFinset.card := by
    rw [Finset.card_range,toFinset_card_of_nodup hnodup,hlen]
  have heq := Finset.eq_of_subset_of_card_le hsub hcard
  exact List.mem_toFinset.mp (heq ▸ Finset.mem_range.mpr hr)

theorem Workload.mem_partitions {W : Workload P K Tx} {c : Piece P K} (h : c ∈ W.cmds t p) :
    p ∈ W.partitions t := by
  obtain ⟨hmem,hp⟩ := mem_filter.mp h
  exact mem_dedup.mpr (mem_map.mpr ⟨c,hmem,of_decide_eq_true hp⟩)

theorem Workload.mem_of_innId {W : Workload P K Tx} {c : Piece P K} {reqs : List (Piece P K)}
    (hreqs : reqs ⊆ W.cmds t p) (hc : c ∈ W.cmds t p) (h : c.innId ∈ reqs.map Piece.innId) :
    c ∈ reqs := by
  obtain ⟨d,hd,hid⟩ := List.mem_map.mp h
  have hinj := inj_on_of_nodup_map (W.innId_nodup t)
  rwa [← hinj (mem_of_mem_filter (hreqs hd)) (mem_of_mem_filter hc) hid]

variable {W : Workload P K Tx} {c c' : Coordinator P Tx} {x x' : SubTx P K Tx}

theorem status_update_ne_committing {status' : Status} (h : status ≠ .committing)
    (h' : status' ≠ .committing) : status.update status' ≠ .committing := by
  unfold Status.update
  split_ifs
  · exact h'
  · exact h

theorem Local.congr (h : Local W t c p r x) (hphase : c'.phase = c.phase)
    (hpar : c'.parents = c.parents)
    (hreply : c.phase = .preAccept → ∀ l, c'.inFlight p r = some l ∨ (r,l) ∈ c'.vecParents p →
      c.inFlight p r = some l ∨ (r,l) ∈ c.vecParents p) : Local W t c' p r x where
  reqs := h.reqs
  inside := h.inside
  early hp := h.early fun hc => hp (by unfold Past; rwa [hphase])
  full := h.full
  reply hp l hl := by
    rw [hphase] at hp
    exact h.reply hp l (hreply hp l hl)
  past hp := by
    rw [hpar]
    exact h.past (by unfold Past at hp ⊢; rwa [← hphase])

theorem Local.extend [DecidableEq Tx] {σ' : Server P K Tx} (h : Local W t c p r (σ.txs t))
    (hc : ¬Past c) (hext : Server.Extends t cmds (σ.updateStatus t status) σ')
    (hst : status ≠ .committing) (hcmds : cmds ⊆ W.cmds t p) (hr : r < W.size p) :
    (σ'.txs t).dreqs ⊆ W.cmds t p ∧ ((σ'.txs t).parents ≠ [] → p ∈ W.partitions t ∧ r < W.size p) ∧
      (σ'.txs t).status ≠ .committing ∧
      ((σ.txs t).fullyDispatched = true → W.cmds t p ⊆ (σ'.txs t).dreqs) := by
  have hself : (σ.updateStatus t status).txs t =
      {σ.txs t with status := (σ.txs t).status.update status} := Server.modify_self _ _ _
  have hstatus : (σ'.txs t).status = (σ.txs t).status.update status := by
    have := congrArg (·.1) hext.same
    rwa [hself] at this
  refine ⟨fun d hd => ?_,fun hpar => ?_,?_,fun hfull d hd => ?_⟩
  · rcases hext.new d hd with hold | hnew
    · rw [hself] at hold
      exact h.reqs hold
    · exact hcmds hnew
  · cases cmds with
    | nil =>
      rw [hext.quiet rfl,hself] at hpar
      exact h.inside hpar
    | cons d ds => exact ⟨Workload.mem_partitions (hcmds mem_cons_self),hr⟩
  · rw [hstatus]
    exact status_update_ne_committing (h.early hc) hst
  · exact hext.dreqs (by rw [hself]; exact h.full hfull hd)

theorem setServer_self (s : Cluster P K Tx) (p : P) (r : ℕ) (σ : Server P K Tx) :
    (s.setServer p r σ).servers p r = σ := by
  simp [setServer]

theorem setServer_of_ne {p' : P} {r' : ℕ} (s : Cluster P K Tx) (σ : Server P K Tx)
    (h : ¬(p' = p ∧ r' = r)) : (s.setServer p r σ).servers p' r' = s.servers p' r' := by
  rcases eq_or_ne p' p with rfl | hp
  · have hr : r' ≠ r := fun hr => h ⟨rfl,hr⟩
    simp [setServer,update_of_ne hr]
  · simp [setServer,update_of_ne hp]

theorem Inv.replica (h : s.Inv W) (hservers : s'.servers = (s.setServer p r σ).servers)
    (hothers : ∀ u ≠ t, σ.txs u = (s.servers p r).txs u)
    (hcoords : ∀ u ≠ t, s'.coords u = s.coords u) (hcons : σ.Consistent)
    (hself : Local W t (s'.coords t) p r (σ.txs t))
    (hrest : ∀ p' r', ¬(p' = p ∧ r' = r) → Local W t (s'.coords t) p' r' ((s.servers p' r').txs t))
    (hrep : Replies W t (s'.coords t)) : s'.Inv W := by
  constructor
  · intro p' r'
    rw [hservers]
    by_cases heq : p' = p ∧ r' = r
    · obtain ⟨rfl,rfl⟩ := heq
      rwa [setServer_self]
    · rw [setServer_of_ne s σ heq]
      exact h.consistent p' r'
  · intro u p' r'
    rw [hservers]
    by_cases heq : p' = p ∧ r' = r
    · obtain ⟨rfl,rfl⟩ := heq
      rw [setServer_self]
      rcases eq_or_ne u t with rfl | hu
      · exact hself
      · rw [hothers u hu,hcoords u hu]
        exact h.loc u p' r'
    · rw [setServer_of_ne s σ heq]
      rcases eq_or_ne u t with rfl | hu
      · exact hrest p' r' heq
      · rw [hcoords u hu]
        exact h.loc u p' r'
  · intro u
    rcases eq_or_ne u t with rfl | hu
    · exact hrep
    · rw [hcoords u hu]
      exact h.replies u

theorem inv_init (W : Workload P K Tx) : Inv W ({} : Cluster P K Tx) := by
  refine ⟨fun p r => ⟨?_,?_⟩,fun t p r => ?_,fun t => ?_⟩
  · rintro k a ⟨c,hc,-⟩
    cases hc
  · rintro k a b ⟨c,hc,-⟩
    cases hc
  · refine ⟨nil_subset _,fun h => absurd rfl h,fun _ => nofun,nofun,nofun,fun hp => ?_⟩
    rcases hp with hp | hp <;> cases hp
  · refine ⟨fun _ _ => ⟨rfl,fun _ => rfl⟩,fun _ => nodup_nil,nofun,fun _ _ h => absurd rfl h,
      fun hp => ?_⟩
    rcases hp with hp | hp <;> cases hp

theorem Inv.edge (h : s.Inv W) (hab : (s.servers p r).Edge a b) : s.Edge a b := by
  by_cases ha : s.Committed a
  · have hne : ((s.servers p r).txs a).parents ≠ [] := ne_nil_of_mem hab
    obtain ⟨hp,hr⟩ := (h.loc a p r).inside hne
    exact .inl ⟨ha,((h.loc a p r).past (.inr ha) hp hr).2 hab⟩
  · exact .inr ⟨ha,p,r,hab⟩

theorem Inv.touches (h : s.Inv W) (ht : s.Committed t) (hk : W.Conflicts t p k)
    (hr : r < W.size p) : (s.servers p r).Touches k t := by
  obtain ⟨c,hc,hck⟩ := hk
  have hloc := h.loc t p r
  obtain ⟨hfull,_⟩ := hloc.past (.inr ht) (Workload.mem_partitions hc) hr
  exact ⟨c,hloc.full hfull hc,hck⟩

variable [DecidableEq Tx]

theorem Inv.coord (h : s.Inv W) (hloc : ∀ p r, Local W t c p r ((s.servers p r).txs t))
    (hrep : Replies W t c) : (s.setCoord t c).Inv W := by
  refine ⟨h.consistent,fun u p r => ?_,fun u => ?_⟩
  · rcases eq_or_ne u t with rfl | hu
    · simpa [setCoord] using hloc p r
    · simpa [setCoord,update_of_ne hu] using h.loc u p r
  · rcases eq_or_ne u t with rfl | hu
    · simpa [setCoord] using hrep
    · simpa [setCoord,update_of_ne hu] using h.replies u

theorem Inv.preAcceptReply {l : List Tx} (h : s.Inv W)
    (hphase : (s.coords t).phase = .preAccept) (hl : (s.coords t).inFlight p r = some l) :
    (s.setCoord t {s.coords t with
      inFlight := update (s.coords t).inFlight p (update ((s.coords t).inFlight p) r none)
      vecParents := update (s.coords t).vecParents p
        ((s.coords t).vecParents p++[(r,l)])}).Inv W := by
  have hrep := h.replies t
  have hpast : ¬Past (s.coords t) := by simp [Past,hphase]
  have hless : ∀ p' r' l', update (s.coords t).inFlight p
      (update ((s.coords t).inFlight p) r none) p' r' = some l' →
      (s.coords t).inFlight p' r' = some l' ∧ ¬(p' = p ∧ r' = r) := by
    intro p' r' l' hfl
    rcases eq_or_ne p' p with rfl | hp'
    · rcases eq_or_ne r' r with rfl | hr'
      · simp at hfl
      · exact ⟨by simpa [update_of_ne hr'] using hfl,fun he => hr' he.2⟩
    · exact ⟨by simpa [update_of_ne hp'] using hfl,fun he => hp' he.1⟩
  have hvec : ∀ p' v, v ∈ update (s.coords t).vecParents p ((s.coords t).vecParents p++[(r,l)]) p' →
      v ∈ (s.coords t).vecParents p' ∨ p' = p ∧ v = (r,l) := by
    intro p' v hv
    rcases eq_or_ne p' p with rfl | hp'
    · simpa using hv
    · exact .inl (by simpa [update_of_ne hp'] using hv)
  obtain ⟨hr,hout⟩ := hrep.flight p r (by simp [hl])
  refine h.coord (fun p' r' => ?_) ?_
  · refine (h.loc t p' r').congr rfl rfl fun _ l' hl' => ?_
    rcases hl' with hfl | hmem
    · exact .inl (hless p' r' l' hfl).1
    · rcases hvec p' (r',l') hmem with hold | ⟨rfl,he⟩
      · exact .inr hold
      · cases he
        exact .inl hl
  · refine ⟨fun hd => absurd (hphase.symm.trans hd) nofun,fun p' => ?_,fun p' v hv => ?_,
      fun p' r' hfl => ?_,fun hp' => absurd hp' hpast⟩
    · rcases eq_or_ne p' p with rfl | hp'
      · simp only [update_self,map_append,map_cons,map_nil]
        refine nodup_append.mpr ⟨hrep.nodup p',nodup_singleton r,fun a ha b hb => ?_⟩
        rw [mem_singleton.mp hb]
        exact ne_of_mem_of_not_mem ha hout
      · simpa [update_of_ne hp'] using hrep.nodup p'
    · rcases hvec p' v hv with hold | ⟨rfl,rfl⟩
      · exact hrep.lt p' v hold
      · exact hr
    · obtain ⟨l',hl'⟩ := ne_none_iff_exists'.mp hfl
      obtain ⟨hold,hne⟩ := hless p' r' l' hl'
      obtain ⟨hlt,hmem⟩ := hrep.flight p' r' (by simp [hold])
      refine ⟨hlt,fun hnew => ?_⟩
      obtain ⟨v,hv,rfl⟩ := mem_map.mp hnew
      rcases hvec p' v hv with hv' | ⟨rfl,rfl⟩
      · exact hmem (mem_map_of_mem hv')
      · exact hne ⟨rfl,rfl⟩

theorem Inv.endPreAccept (h : s.Inv W) (hphase : (s.coords t).phase = .preAccept)
    (hlen : ∀ p ∈ W.partitions t, ((s.coords t).vecParents p).length = W.size p)
    (hmerge : mergeParents ((W.partitions t).map fun p =>
      ((s.coords t).vecParents p).map Prod.snd) = some (fast,parents)) :
    (s.setCoord t {s.coords t with
      phase := if fast then .commit else .accept, fastPath := fast, parents := parents}).Inv W := by
  have hrep := h.replies t
  have hpast : Past ({s.coords t with
      phase := if fast then .commit else .accept, fastPath := fast, parents := parents} :
      Coordinator P Tx) := by
    cases fast
    · exact .inl rfl
    · exact .inr rfl
  have hsub := mergeParents_subset hmerge
  refine h.coord (fun p r => ?_) ?_
  · have hloc := h.loc t p r
    refine ⟨hloc.reqs,hloc.inside,fun hc => absurd hpast hc,hloc.full,?_,fun _ hp hr => ?_⟩
    · intro hc
      cases fast <;> cases hc
    · -- all replicas of the partition have answered
      have hmem := mem_of_nodup_length (hrep.nodup p) (fun x hx => by
        obtain ⟨v,hv,rfl⟩ := List.mem_map.mp hx
        exact hrep.lt p v hv) (by rw [length_map,hlen p hp]) hr
      obtain ⟨v,hv,hvr⟩ := List.mem_map.mp hmem
      obtain ⟨hfull,hl⟩ := hloc.reply hphase v.2 (.inr (hvr ▸ hv))
      rw [← hl]
      exact ⟨hfull,(hsub _ (mem_map_of_mem hp)).2 _ (mem_map_of_mem hv)⟩
  · refine ⟨fun hd => ?_,hrep.nodup,hrep.lt,hrep.flight,fun _ p hp => ?_⟩
    · cases fast <;> cases hd
    · have hne := (hsub _ (List.mem_map_of_mem hp)).1
      rw [← hlen p hp]
      exact length_pos_iff.mpr fun he => hne (by simp [he])

theorem Inv.replaceParents {f : SubTx P K Tx → SubTx P K Tx} (h : s.Inv W) (hpast : Past (s.coords t))
    (hp : p ∈ W.partitions t) (hr : r < W.size p) (hcoords : ∀ u ≠ t, s'.coords u = s.coords u)
    (hservers : s'.servers = (s.setServer p r ((s.servers p r).modify t f)).servers)
    (hphase : (s'.coords t).phase = (s.coords t).phase)
    (hpar : (s'.coords t).parents = (s.coords t).parents)
    (hvec : (s'.coords t).vecParents = (s.coords t).vecParents)
    (hfl : (s'.coords t).inFlight = (s.coords t).inFlight)
    (hf : ∀ x, (f x).parents = (s.coords t).parents ∧ (f x).dreqs = x.dreqs ∧
      (f x).fullyDispatched = x.fullyDispatched) :
    s'.Inv W := by
  have hloc := h.loc t p r
  obtain ⟨hfull,hsub⟩ := hloc.past hpast hp hr
  have hpast' : Past (s'.coords t) := by
    unfold Past
    rwa [hphase]
  have hrep := h.replies t
  have hnotpre : (s'.coords t).phase ≠ .preAccept := by
    rcases hpast' with he | he <;> rw [he] <;> nofun
  obtain ⟨hpar',hreqs',hfull'⟩ := hf ((s.servers p r).txs t)
  refine h.replica hservers (fun u hu => Server.modify_of_ne _ _ hu) hcoords ?_ ?_
    (fun p' r' _ => ?_) ?_
  · exact (h.consistent p r).modify (by rwa [hpar']) hreqs'
  · rw [Server.modify_self]
    refine ⟨hreqs' ▸ hloc.reqs,fun _ => ⟨hp,hr⟩,fun hc => absurd hpast' hc,
      fun _ => hreqs' ▸ hloc.full hfull,fun hc => absurd hc hnotpre,fun _ _ _ => ?_⟩
    rw [hfull',hpar',hpar]
    exact ⟨hfull,List.Subset.refl _⟩
  · exact (h.loc t p' r').congr hphase hpar fun hc => absurd (hphase.trans hc) hnotpre
  · constructor
    · intro hd
      rw [hvec,hfl]
      exact hrep.none (hphase.symm.trans hd)
    · rw [hvec]
      exact hrep.nodup
    · rw [hvec]
      exact hrep.lt
    · rw [hvec,hfl]
      exact hrep.flight
    · exact fun _ => hrep.pos hpast

variable [DecidableEq K]

theorem Inv.dispatch (h : s.Inv W) (hphase : (s.coords t).phase = .dispatch) (hr : r < W.size p)
    (hcmds : cmds ⊆ W.cmds t p) (hσ : (s.servers p r).onDispatch (W.rank t) t cmds = some σ) :
    (s.setServer p r σ).Inv W := by
  obtain ⟨_,hext⟩ := Server.onDispatch_spec hσ
  have hpast : ¬Past (s.coords t) := by simp [Past,hphase]
  have hloc := h.loc t p r
  obtain ⟨hreqs,hinside,hearly,hfull⟩ := hloc.extend hpast hext (by simp) hcmds hr
  have hfd : (σ.txs t).fullyDispatched = ((s.servers p r).txs t).fullyDispatched := by
    have := congrArg (·.2.2.1) hext.same
    simpa [Server.updateStatus] using this
  refine h.replica rfl (fun u hu => ?_) (fun _ _ => rfl) ?_ ?_ (fun p' r' _ => h.loc t p' r')
    (h.replies t)
  · rw [hext.others u hu]
    exact Server.modify_of_ne _ _ hu
  · exact hext.consistent ((h.consistent p r).modify (List.Subset.refl _) rfl)
  · refine ⟨hreqs,hinside,fun _ => hearly,fun hf => hfull (hfd ▸ hf),fun hp => ?_,fun hp => ?_⟩
    · cases hphase.symm.trans hp
    · exact absurd hp hpast

theorem Inv.preAccept {l : List Tx} (h : s.Inv W) (hphase : (s.coords t).phase = .preAccept)
    (hr : r < W.size p) (hσ : (s.servers p r).onPreAccept (W.rank t) t (W.cmds t p) = some (σ,l)) :
    ((s.setServer p r σ).setCoord t {s.coords t with
      inFlight := update (s.coords t).inFlight p
        (update ((s.coords t).inFlight p) r (some l))}).Inv W := by
  have hpast : ¬Past (s.coords t) := by simp [Past,hphase]
  have hloc := h.loc t p r
  obtain ⟨σ₂,hext,rfl,rfl,hfresh⟩ := Server.onPreAccept_spec (hloc.early hpast) hσ
  obtain ⟨hreqs,hinside,hearly,_⟩ := hloc.extend hpast hext nofun (List.Subset.refl _) hr
  have hnew : ∀ l', ¬((r,l') ∈ (s.coords t).vecParents p) := by
    intro l' hl'
    have hdone := (hloc.reply hphase l' (.inr hl')).1
    rw [hfresh] at hdone
    cases hdone
  refine h.replica (p:=p) (r:=r) (t:=t) rfl (fun u hu => ?_) (fun u hu => ?_) ?_ ?_
    (fun p' r' hne => ?_) ?_
  · rw [Server.modify_of_ne _ _ hu,hext.others u hu]
    exact Server.modify_of_ne _ _ hu
  · simp [setCoord,update_of_ne hu,setServer]
  · exact (hext.consistent ((h.consistent p r).modify (refl _) rfl)).modify (refl _) rfl
  · simp only [setCoord,update_self,Server.modify_self]
    refine ⟨hreqs,hinside,fun _ => hearly,fun _ d hd => ?_,
      fun _ l' hl' => ⟨rfl,?_⟩,fun hp' => absurd hp' hpast⟩
    · exact Workload.mem_of_innId hreqs hd (hext.executed d hd)
    · rcases hl' with hfl | hvec
      · simpa using hfl.symm
      · exact absurd hvec (hnew l')
  · simp only [setCoord,update_self]
    refine (h.loc t p' r').congr rfl rfl fun _ l' hl' => ?_
    rcases eq_or_ne p' p with rfl | hp'
    · have hr' : r' ≠ r := fun hr' => hne ⟨rfl,hr'⟩
      simpa [update_of_ne hr'] using hl'
    · simpa [update_of_ne hp'] using hl'
  · have hrep := h.replies t
    simp only [setCoord,update_self]
    refine ⟨fun hd => absurd (hphase.symm.trans hd) nofun,hrep.nodup,hrep.lt,fun p' r' hfl => ?_,
      fun hp' => absurd hp' hpast⟩
    by_cases heq : p' = p ∧ r' = r
    · obtain ⟨rfl,rfl⟩ := heq
      refine ⟨hr,fun hmem => ?_⟩
      obtain ⟨v,hv,rfl⟩ := mem_map.mp hmem
      exact hnew v.2 hv
    · refine hrep.flight p' r' ?_
      rcases eq_or_ne p' p with rfl | hp'
      · have hr' : r' ≠ r := fun hr' => heq ⟨rfl,hr'⟩
        simpa [update_of_ne hr'] using hfl
      · simpa [update_of_ne hp'] using hfl

theorem Inv.step {a : Action P K Tx} (h : s.Inv W) (hs : s.step W a = some s') : s'.Inv W := by
  cases a <;> simp only [Cluster.step,ite_none_right_eq_some] at hs <;> obtain ⟨hc,hs⟩ := hs
  case dispatch t p r cmds =>
    obtain ⟨σ,hσ,rfl⟩ := map_eq_some_iff.mp hs
    exact h.dispatch hc.1 hc.2.1 hc.2.2 hσ
  case beginPreAccept t =>
    cases hs
    have hrep := h.replies t
    have hpast : ¬Past (s.coords t) := by simp [Past,hc]
    refine h.coord (fun p r => ?_) ?_
    · have hloc := h.loc t p r
      refine ⟨hloc.reqs,hloc.inside,fun _ => hloc.early hpast,hloc.full,fun _ l hl => ?_,
        fun hp => ?_⟩
      · simp [(hrep.none hc p).1,(hrep.none hc p).2 r] at hl
      · rcases hp with hp | hp <;> cases hp
    · refine ⟨nofun,hrep.nodup,hrep.lt,hrep.flight,fun hp => ?_⟩
      rcases hp with hp | hp <;> cases hp
  case preAccept t p r =>
    obtain ⟨⟨σ,l⟩,hσ,rfl⟩ := map_eq_some_iff.mp hs
    exact h.preAccept hc.1 hc.2.2 hσ
  case preAcceptReply t p r =>
    obtain ⟨l,hl,rfl⟩ := map_eq_some_iff.mp hs
    exact h.preAcceptReply hc hl
  case endPreAccept t =>
    obtain ⟨⟨fast,parents⟩,hm,hrest⟩ := bind_eq_some_iff.mp hs
    by_cases hself : t ∈ parents
    · simp only [if_pos hself,reduceCtorEq] at hrest
    · simp only [if_neg hself] at hrest
      cases hrest
      exact h.endPreAccept hc.1 hc.2 hm
  case accept t p r =>
    obtain ⟨σ,hσ,rfl⟩ := map_eq_some_iff.mp hs
    unfold Server.onAccept at hσ
    split_ifs at hσ
    cases hσ
    refine h.replaceParents (t:=t) (hc.1.imp id And.left) hc.2.1 hc.2.2.1 (fun u hu => ?_) rfl
      ?_ ?_ ?_ ?_ fun x => ⟨rfl,rfl,rfl⟩
    · simp [setCoord,setServer,update_of_ne hu]
    all_goals simp [setCoord,setServer]
  case endAccept t =>
    cases hs
    have hrep := h.replies t
    have hpast : Past (s.coords t) := .inl hc.1
    refine h.coord (fun p r => ?_) ⟨nofun,hrep.nodup,hrep.lt,hrep.flight,fun _ => hrep.pos hpast⟩
    have hloc := h.loc t p r
    exact ⟨hloc.reqs,hloc.inside,fun hp => absurd (.inr rfl) hp,hloc.full,nofun,
      fun _ => hloc.past hpast⟩
  case commit t p r =>
    obtain ⟨σ,hσ,rfl⟩ := map_eq_some_iff.mp hs
    unfold Server.onCommit at hσ
    split_ifs at hσ
    cases hσ
    exact h.replaceParents (t:=t) (.inr hc.1) hc.2.1 hc.2.2 (fun _ _ => rfl) rfl rfl rfl rfl rfl
      fun x => ⟨rfl,rfl,rfl⟩

/-- Two committed transactions that conflict on a column are ordered by the parent lists, those
recorded so far where one is not committed; hence by the final lists alone once all their ancestors
are committed, which `OnCommit` waits for. -/
theorem conflicts_ordered (W : Workload P K Tx) (h : Reachable (system W) s) {S T : Tx}
    (hne : S ≠ T) (hS : s.Committed S) (hT : s.Committed T) (hSk : W.Conflicts S p k)
    (hTk : W.Conflicts T p k) :
    (TransGen s.Edge S T ∨ TransGen s.Edge T S) ∧
      ((∀ a, TransGen s.Edge S a ∨ TransGen s.Edge T a → s.Committed a) →
        TransGen s.Final S T ∨ TransGen s.Final T S) := by
  obtain ⟨s₀,rfl,hrun⟩ := h
  have hinv : s.Inv W := hrun.invariant (fun _ _ _ _ hi hs => hi.step hs) (inv_init W)
  have hpos : 0 < W.size p := by
    obtain ⟨c,hc,-⟩ := hSk
    exact (hinv.replies S).pos (.inr hS) p (Workload.mem_partitions hc)
  have hpath : ∀ a b, a ≠ b → (s.servers p 0).Reach a b → TransGen s.Edge a b := by
    intro a b hab hreach
    have hmono := ReflTransGen.mono (fun x y => hinv.edge (a:=x) (b:=y)) _ _ hreach
    exact (reflTransGen_iff_eq_or_transGen.mp hmono).resolve_left hab.symm
  have hedges : TransGen s.Edge S T ∨ TransGen s.Edge T S :=
    ((hinv.consistent p 0).total k S T (hinv.touches hS hSk hpos) (hinv.touches hT hTk hpos)).imp
      (hpath S T hne) (hpath T S hne.symm)
  refine ⟨hedges,fun hall => hedges.imp (fun hST => ?_) fun hTS => ?_⟩
  · exact final_of_ancestors hS (fun a ha => hall a (.inl ha)) hST
  · exact final_of_ancestors hT (fun a ha => hall a (.inr ha)) hTS

/-- One replica and one column; every transaction has one piece, on that column. -/
def oneColumn : Workload Unit Unit ℕ where
  size _ := 1
  rank _ := .i
  pieces _ := [{innId := 0, partition := (), columns := [()]}]
  innId_nodup _ := nodup_singleton 0

def dispatchOne (t : ℕ) : Action Unit Unit ℕ := .dispatch t () 0 (oneColumn.pieces t)

def commitOne (t : ℕ) : List (Action Unit Unit ℕ) :=
  [dispatchOne t,.beginPreAccept t,.preAccept t () 0,.preAcceptReply t () 0,.endPreAccept t]

def runOne (actions : List (Action Unit Unit ℕ)) : Cluster Unit Unit ℕ :=
  after (system oneColumn) (fun _ _ => True) {} actions

theorem conflicts_ordered_two : let s := runOne (commitOne 0++commitOne 2)
    s.Committed 0 ∧ s.Committed 2 ∧ (TransGen s.Edge 0 2 ∨ TransGen s.Edge 2 0) ∧
        ((∀ a, TransGen s.Edge 0 a ∨ TransGen s.Edge 2 a → s.Committed a) →
          TransGen s.Final 0 2 ∨ TransGen s.Final 2 0) := by
  have hS : (runOne (commitOne 0++commitOne 2)).Committed 0 := by
    unfold Committed
    decide +kernel
  have hT : (runOne (commitOne 0++commitOne 2)).Committed 2 := by
    unfold Committed
    decide +kernel
  have hk : ∀ t, oneColumn.Conflicts t () () := fun t => ⟨_,mem_cons_self,mem_cons_self⟩
  exact ⟨hS,hT,conflicts_ordered oneColumn ⟨_,rfl,run_after _ _⟩ (by decide) hS hT (hk 0) (hk 2)⟩

/-- A transaction between the two that is dispatched but not committed breaks the chain of
final lists. -/
def brokenChain : Cluster Unit Unit ℕ :=
  runOne (commitOne 0++[dispatchOne 1]++commitOne 2)

theorem unordered_by_final_lists :
    ∃ s : Cluster Unit Unit ℕ, Reachable (system oneColumn) s ∧ s.Committed 0 ∧ s.Committed 2 ∧
      oneColumn.Conflicts 0 () () ∧ oneColumn.Conflicts 2 () () ∧
      ¬(TransGen s.Final 0 2 ∨ TransGen s.Final 2 0) := by
  have hk : ∀ t, oneColumn.Conflicts t () () := fun t => ⟨_,mem_cons_self,mem_cons_self⟩
  have hreach : Reachable (system oneColumn) brokenChain := by
    unfold brokenChain
    exact ⟨_,rfl,run_after _ _⟩
  have hphases : (brokenChain.coords 0).phase = .commit ∧ (brokenChain.coords 1).phase ≠ .commit ∧
      (brokenChain.coords 2).phase = .commit := by
    decide +kernel
  have hparents : (brokenChain.coords 0).parents = [] ∧ (brokenChain.coords 2).parents = [1] := by
    decide +kernel
  refine ⟨brokenChain,hreach,hphases.1,hphases.2.2,hk 0,hk 2,?_⟩
  rintro (hST | hTS)
  · obtain ⟨c,⟨_,hc⟩,_⟩ := TransGen.head'_iff.mp hST
    cases hc
  · obtain ⟨c,⟨_,hc⟩,hrest⟩ := TransGen.head'_iff.mp hTS
    rw [hparents.2,mem_singleton] at hc
    subst hc
    rcases hrest.cases_head with heq | ⟨d,⟨hcommit,_⟩,_⟩
    · cases heq
    · exact hphases.2.1 hcommit

end Cluster
end Janus.Troad
