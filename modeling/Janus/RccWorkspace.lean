import Mathlib

/-! The inputs that the pieces of a transaction run with. A `TxWorkspace` holds its values in a map
behind a shared pointer, so that a request and its copy fill one map: the maps stand in a heap. -/
namespace Janus.Workspace

open Function List Nat Option

abbrev ValueMap (Key Val : Type) := Key → Option Val

/-- `map::insert`: a key that is present keeps its value. -/
def ValueMap.insert {Key Val : Type} (m n : ValueMap Key Val) : ValueMap Key Val :=
  fun k => (m k).or (n k)

def ValueMap.empty {Key Val : Type} : ValueMap Key Val := fun _ => none

abbrev Heap (Key Val : Type) := ℕ → ValueMap Key Val

structure TxWorkspace (Key : Type) where
  keys : Key → Bool
  values : ℕ

variable {Key Val : Type} {heap : Heap Key Val}

namespace TxWorkspace

def aggregate (heap : Heap Key Val) (ws rhs : TxWorkspace Key) :
    Heap Key Val × TxWorkspace Key :=
  (if ws.values ≠ rhs.values then
    update heap ws.values ((heap ws.values).insert (heap rhs.values)) else heap,
   {ws with keys := fun k => ws.keys k || rhs.keys k})

def insert (heap : Heap Key Val) (ws : TxWorkspace Key) (m : ValueMap Key Val) :
    Heap Key Val × TxWorkspace Key :=
  (update heap ws.values ((heap ws.values).insert m),
   {ws with keys := fun k => ws.keys k || (m k).isSome})

end TxWorkspace

inductive Rank
  | i
  | d
  deriving DecidableEq

structure Request (Ty Key Val : Type) where
  innId : ℕ
  rank : Rank
  type : Ty
  keys : Key → Bool
  values : ValueMap Key Val

/-- A piece at the server. A copy shares the map of its input. -/
structure SimpleCommand (Ty Key : Type) where
  innId : ℕ
  rank : Rank
  type : Ty
  input : TxWorkspace Key

variable {Ty DB : Type} {c : SimpleCommand Ty Key} {p : Request Ty Key Val}

/-- The handlers: functions of the input workspace and the database. -/
abbrev TxnRegistry (Ty Key Val DB : Type) :=
  Ty → (Key → Bool) → ValueMap Key Val → DB → ValueMap Key Val × DB

/-- The transaction at one server. Address 0 is the map of `ws_`. -/
structure RccTx (Ty Key Val : Type) where
  heap : Heap Key Val := fun _ => ValueMap.empty
  next : ℕ := 1
  ws : TxWorkspace Key := ⟨fun _ => false,0⟩
  dreqs : Rank → List (SimpleCommand Ty Key) := fun _ => []
  output : Rank → ℕ → ValueMap Key Val := fun _ _ => ValueMap.empty

namespace RccTx

def receive (tx : RccTx Ty Key Val) (q : Request Ty Key Val) :
    RccTx Ty Key Val × SimpleCommand Ty Key :=
  ({tx with heap := update tx.heap tx.next q.values, next := tx.next+1},
   {innId := q.innId, rank := q.rank, type := q.type, input := ⟨q.keys,tx.next⟩})

/-- `DispatchExecute` without the tracing of dependencies: the copy that is stored shares
the map that `Aggregate` then fills. -/
def dispatchExecute (reg : TxnRegistry Ty Key Val DB) (tx : RccTx Ty Key Val)
    (cmd : SimpleCommand Ty Key) (db : DB) : RccTx Ty Key Val × DB :=
  if (tx.dreqs cmd.rank).any fun c => c.innId == cmd.innId then (tx,db)
  else
    let dreqs := update tx.dreqs cmd.rank (tx.dreqs cmd.rank++[cmd])
    let a := cmd.input.aggregate tx.heap tx.ws
    let r := reg cmd.type a.2.keys (a.1 a.2.values) db
    let w := tx.ws.insert a.1 r.1
    ({tx with heap := w.1, ws := w.2, dreqs := dreqs},r.2)

def dispatch (reg : TxnRegistry Ty Key Val DB) (tx : RccTx Ty Key Val)
    (q : Request Ty Key Val × DB) : RccTx Ty Key Val :=
  let r := tx.receive q.1
  (r.1.dispatchExecute reg r.2 q.2).1

end RccTx

structure PieceRun (Key Val : Type) where
  keys : Key → Bool
  values : ValueMap Key Val
  output : ValueMap Key Val

structure CommitState (Ty Key Val DB : Type) where
  heap : Heap Key Val
  ws : TxWorkspace Key
  output : ℕ → ValueMap Key Val
  db : DB
  runs : List (PieceRun Key Val)

def commitPiece (reg : TxnRegistry Ty Key Val DB) (rank : Rank)
    (σ : CommitState Ty Key Val DB) (cmd : SimpleCommand Ty Key) :
    Option (CommitState Ty Key Val DB) :=
  if cmd.rank = rank then
    let a := cmd.input.aggregate σ.heap σ.ws
    let r := reg cmd.type a.2.keys (a.1 a.2.values) σ.db
    let m := r.1.insert (σ.output cmd.innId)
    let w := σ.ws.insert a.1 m
    some {heap := w.1, ws := w.2, output := update σ.output cmd.innId m, db := r.2,
          runs := σ.runs++[⟨a.2.keys,a.1 a.2.values,m⟩]}
  else none

def RccTx.commitExecute (reg : TxnRegistry Ty Key Val DB) (tx : RccTx Ty Key Val) (rank : Rank)
    (db : DB) : Option (CommitState Ty Key Val DB) :=
  (tx.dreqs rank).foldlM (commitPiece reg rank)
    {heap := update tx.heap tx.next ValueMap.empty, ws := ⟨fun _ => false,tx.next⟩,
     output := tx.output rank, db := db, runs := []}

def dispatched (reg : TxnRegistry Ty Key Val DB) (qs : List (Request Ty Key Val × DB)) :
    RccTx Ty Key Val :=
  qs.foldl (RccTx.dispatch reg) {}

def pieces (qs : List (Request Ty Key Val × DB)) (rank : Rank) : List (Request Ty Key Val) :=
  qs.foldl (fun ps q => if q.1.rank = rank ∧ ∀ p ∈ ps, p.innId ≠ q.1.innId then ps++[q.1] else ps) []

/-- Every piece ran with its original input, extended for the other keys by what the
pieces before it returned in this run. -/
def UsesCommitInputs : ValueMap Key Val → List (Request Ty Key Val) →
    List (PieceRun Key Val) → Prop
  | _, [], [] => True
  | w, p::ps, r::rs => r.values = p.values.insert w ∧
      (r.keys = fun k => p.keys k || (w k).isSome) ∧ UsesCommitInputs (w.insert r.output) ps rs
  | _, _, _ => False

/-- Outside its original input a stored request holds only values that the pieces before it return
when they run in turn on the database of the commit, each with its input and what came before. -/
def NoStale (reg : TxnRegistry Ty Key Val DB) (heap : Heap Key Val) :
    ValueMap Key Val → DB → List (SimpleCommand Ty Key) → List (Request Ty Key Val) → Prop
  | w, db, c::cs, p::ps =>
      (∀ k v, p.values k = none → heap c.input.values k = some v → w k = some v) ∧
      let r := reg p.type (fun k => p.keys k || (w k).isSome) (p.values.insert w) db
      NoStale reg heap (w.insert r.1) r.2 cs ps
  | _, _, _, _ => True

structure Holds (heap : Heap Key Val) (c : SimpleCommand Ty Key) (p : Request Ty Key Val) :
    Prop where
  innId : c.innId = p.innId
  rank : c.rank = p.rank
  type : c.type = p.type
  keys : c.input.keys = p.keys
  values : ∀ k v, p.values k = some v → heap c.input.values k = some v

theorem Holds.mono {heap' : Heap Key Val} (h : Holds heap c p)
    (hle : ∀ k v, heap c.input.values k = some v → heap' c.input.values k = some v) :
    Holds heap' c p :=
  {h with values := fun k v hv => hle k v (h.values k v hv)}

/-- What the stored map adds to the original input is what makes the two inputs differ. -/
theorem Holds.insert_eq_iff (h : Holds heap c p) (w : ValueMap Key Val) :
    (heap c.input.values).insert w = p.values.insert w ↔
      ∀ k v, p.values k = none → heap c.input.values k = some v → w k = some v := by
  constructor
  · intro he k v hp hv
    have hk := congrFun he k
    simp only [ValueMap.insert,hp,hv,some_or,none_or] at hk
    exact hk.symm
  · intro hstale
    funext k
    simp only [ValueMap.insert]
    cases hp : p.values k with
    | some v => rw [h.values k v hp]
    | none =>
      cases hv : heap c.input.values k with
      | none => rfl
      | some v => simpa using (hstale k v hp hv).symm

/-- The maps of the stored requests are pairwise different, none of them is that of the
workspace, and all have been allocated. -/
structure Apart (ws : ℕ) (next : ℕ) (cs : List (SimpleCommand Ty Key)) : Prop where
  nodup : (cs.map fun c => c.input.values).Nodup
  ne : ∀ c ∈ cs, c.input.values ≠ ws
  lt : ∀ c ∈ cs, c.input.values < next

section Commit

variable (reg : TxnRegistry Ty Key Val DB) (rank : Rank)

theorem commitPiece_eq {σ : CommitState Ty Key Val DB} {c : SimpleCommand Ty Key}
    {w : ValueMap Key Val} (hrank : c.rank = rank) (hw : σ.heap σ.ws.values = w)
    (hkeys : σ.ws.keys = fun k => (w k).isSome) (hne : c.input.values ≠ σ.ws.values)
    (hout : σ.output c.innId = ValueMap.empty) :
    let r := reg c.type (fun k => c.input.keys k || (w k).isSome)
      ((σ.heap c.input.values).insert w) σ.db
    ∃ σ', commitPiece reg rank σ c = some σ' ∧ σ'.ws.values = σ.ws.values ∧
      σ'.heap σ.ws.values = w.insert r.1 ∧
      (σ'.ws.keys = fun k => (w.insert r.1 k).isSome) ∧ σ'.db = r.2 ∧
      (∀ l, l ≠ c.input.values → l ≠ σ.ws.values → σ'.heap l = σ.heap l) ∧
      (∀ i, i ≠ c.innId → σ'.output i = σ.output i) ∧
      σ'.runs = σ.runs++[⟨fun k => c.input.keys k || (w k).isSome,
        (σ.heap c.input.values).insert w,r.1⟩] := by
  intro r
  have hm : ∀ m : ValueMap Key Val, m.insert (σ.output c.innId) = m := by
    intro m
    funext k
    simp [hout,ValueMap.insert,ValueMap.empty]
  have ha : (c.input.aggregate σ.heap σ.ws).1 = update σ.heap c.input.values
      ((σ.heap c.input.values).insert w) := by
    simp [TxWorkspace.aggregate,hne,hw]
  unfold commitPiece
  rw [if_pos hrank]
  refine ⟨_,rfl,rfl,?_,?_,?_,?_,?_,?_⟩
  all_goals simp only [hm,ha,TxWorkspace.insert]
  all_goals simp only [TxWorkspace.aggregate,update_self,update_of_ne hne.symm,hkeys,hw]
  · rfl
  · funext k
    simp only [ValueMap.insert]
    cases w k <;> rfl
  · rfl
  · intro l hc hs
    rw [update_of_ne hs,update_of_ne hc]
  · intro i hi
    rw [update_of_ne hi]
  · rfl

/-- The pieces run with their commit-time inputs exactly if no stored map holds a stale value. -/
theorem commitLoop_iff {heap : Heap Key Val} {next : ℕ} (cs : List (SimpleCommand Ty Key)) :
    ∀ (ps : List (Request Ty Key Val)) (σ : CommitState Ty Key Val DB) (w : ValueMap Key Val),
    List.Forall₂ (Holds heap) cs ps → Apart σ.ws.values next cs →
    (cs.map SimpleCommand.innId).Nodup → (∀ c ∈ cs, c.rank = rank) →
    (∀ c ∈ cs, σ.heap c.input.values = heap c.input.values) →
    (∀ c ∈ cs, σ.output c.innId = ValueMap.empty) →
    σ.heap σ.ws.values = w → (σ.ws.keys = fun k => (w k).isSome) →
    ∃ σ' rs, cs.foldlM (commitPiece reg rank) σ = some σ' ∧ σ'.runs = σ.runs++rs ∧
      (UsesCommitInputs w ps rs ↔ NoStale reg heap w σ.db cs ps) := by
  induction cs with
  | nil =>
    intro ps σ w hps _ _ _ _ _ _ _
    cases hps
    exact ⟨σ,[],rfl,by simp,by simp [UsesCommitInputs,NoStale]⟩
  | cons c cs ih =>
    intro ps σ w hps hapart hids hranks hheap hout hw hkeys
    cases hps with
    | cons hhold hrest =>
    rename_i p ps
    have hnd := nodup_cons.mp hapart.nodup
    have hid := nodup_cons.mp hids
    obtain ⟨σ',hstep,hloc,hw',hkeys',hdb,hheap',hout',hruns⟩ :=
      commitPiece_eq reg rank (hranks c (by simp)) hw hkeys (hapart.ne c (by simp))
        (hout c (by simp))
    rw [hheap c (by simp),hhold.keys,hhold.type] at hw' hkeys' hdb hruns
    obtain ⟨σ'',rs,hfold,hrs,hiff⟩ := ih ps σ' _ hrest
      ⟨hnd.2,fun d hd => hloc ▸ hapart.ne d (by simp [hd]),fun d hd => hapart.lt d (by simp [hd])⟩
      hid.2 (fun d hd => hranks d (by simp [hd]))
      (fun d hd => by
        have hdc : d.input.values ≠ c.input.values := by
          intro he
          exact hnd.1 (mem_map.mpr ⟨d,hd,he⟩)
        rw [hheap' _ hdc (hapart.ne d (by simp [hd]))]
        exact hheap d (by simp [hd]))
      (fun d hd => by
        have hdc : d.innId ≠ c.innId := by
          intro he
          exact hid.1 (mem_map.mpr ⟨d,hd,he⟩)
        rw [hout' _ hdc]
        exact hout d (by simp [hd]))
      (hloc ▸ hw') hkeys'
    refine ⟨σ'',_::rs,by simp [hstep,hfold],by rw [hrs,hruns]; simp; rfl,?_⟩
    simp only [UsesCommitInputs,NoStale,true_and]
    rw [hhold.insert_eq_iff]
    refine and_congr_right fun hfresh => ?_
    -- the piece ran as intended, so what follows starts from the intended state
    have hval := (hhold.insert_eq_iff w).mpr hfresh
    rw [hdb,hval] at hiff
    rw [hval]
    exact hiff

end Commit

structure Stored (qs : List (Request Ty Key Val × DB)) (tx : RccTx Ty Key Val) : Prop where
  pieces : ∀ rank, List.Forall₂ (Holds tx.heap) (tx.dreqs rank) (pieces qs rank)
  apart : ∀ rank, Apart tx.ws.values tx.next (tx.dreqs rank)
  ids : ∀ rank, ((tx.dreqs rank).map SimpleCommand.innId).Nodup
  rank_eq : ∀ rank, ∀ c ∈ tx.dreqs rank, c.rank = rank
  ws_lt : tx.ws.values < tx.next
  output : ∀ rank i, tx.output rank i = ValueMap.empty

theorem Stored.init : Stored ([] : List (Request Ty Key Val × DB)) {} :=
  ⟨fun _ => List.Forall₂.nil,fun _ => ⟨by simp,by simp,by simp⟩,by simp,by simp,Nat.one_pos,
    fun _ _ => rfl⟩

theorem Holds.innId_eq {cs : List (SimpleCommand Ty Key)}
    {ps : List (Request Ty Key Val)} (h : List.Forall₂ (Holds heap) cs ps) :
    cs.map SimpleCommand.innId = ps.map Request.innId := by
  induction h with
  | nil => rfl
  | cons hc _ ih => simp [hc.innId,ih]

theorem pieces_concat (qs : List (Request Ty Key Val × DB)) (q : Request Ty Key Val × DB)
    (rank : Rank) : pieces (qs++[q]) rank =
      if q.1.rank = rank ∧ ∀ p ∈ pieces qs rank, p.innId ≠ q.1.innId
      then pieces qs rank++[q.1] else pieces qs rank := by
  unfold pieces
  rw [foldl_append]
  rfl

section Dispatch

variable {reg : TxnRegistry Ty Key Val DB} {qs : List (Request Ty Key Val × DB)}
  {tx : RccTx Ty Key Val}
variable {q : Request Ty Key Val × DB}
variable {heap : Heap Key Val}

theorem Holds.all_mono {heap' : Heap Key Val} {cs : List (SimpleCommand Ty Key)}
    {ps : List (Request Ty Key Val)} (h : List.Forall₂ (Holds heap) cs ps)
    (hkeep : ∀ c ∈ cs, heap' c.input.values = heap c.input.values) :
    List.Forall₂ (Holds heap') cs ps := by
  induction h with
  | nil => exact List.Forall₂.nil
  | cons hc _ ih =>
    refine List.Forall₂.cons (hc.mono fun k v hv => ?_) (ih fun c hm => hkeep c (by simp [hm]))
    rw [hkeep _ (by simp)]
    exact hv

theorem Stored.holds (h : Stored qs tx)
    (hkeep : ∀ l, l ≠ tx.ws.values → l < tx.next → heap l = tx.heap l) (rank : Rank) :
    List.Forall₂ (Holds heap) (tx.dreqs rank) (Workspace.pieces qs rank) :=
  Holds.all_mono (h.pieces rank) fun c hc =>
    hkeep _ ((h.apart rank).ne c hc) ((h.apart rank).lt c hc)

theorem Stored.push (h : Stored qs tx) (hnone : ∀ c ∈ tx.dreqs q.1.rank, c.innId ≠ q.1.innId)
    {ws : TxWorkspace Key} (hws : ws.values = tx.ws.values)
    (hkeep : ∀ l, l ≠ tx.ws.values → l < tx.next → heap l = tx.heap l)
    (hval : ∀ k v, q.1.values k = some v → heap tx.next k = some v) : Stored (qs++[q]) {tx with
      heap := heap, next := tx.next+1, ws := ws
      dreqs := update tx.dreqs q.1.rank (tx.dreqs q.1.rank++[(tx.receive q.1).2])} := by
  have hfresh : ∀ p ∈ Workspace.pieces qs q.1.rank, p.innId ≠ q.1.innId := by
    intro p hp he
    have hmem : p.innId ∈ (tx.dreqs q.1.rank).map SimpleCommand.innId :=
      Holds.innId_eq (h.pieces q.1.rank) ▸ mem_map_of_mem hp
    obtain ⟨c,hc,hce⟩ := mem_map.mp hmem
    exact hnone c hc (hce.trans he)
  refine ⟨fun rank => ?_,fun rank => ?_,fun rank => ?_,fun rank c hc => ?_,
    hws ▸ lt_succ_of_lt h.ws_lt,h.output⟩
  all_goals rcases eq_or_ne rank q.1.rank with rfl | he
  · rw [pieces_concat,if_pos ⟨rfl,hfresh⟩]
    simp only [update_self]
    exact rel_append (h.holds hkeep _) (List.Forall₂.cons ⟨rfl,rfl,rfl,rfl,hval⟩ List.Forall₂.nil)
  · rw [pieces_concat,if_neg fun hc => he hc.1.symm]
    simp only [update_of_ne he]
    exact h.holds hkeep rank
  · have hold := h.apart q.1.rank
    simp only [update_self]
    refine ⟨?_,fun c hc => ?_,fun c hc => ?_⟩
    · rw [map_append]
      refine List.Nodup.append hold.nodup (by simp) ?_
      intro l hl hl'
      obtain ⟨c,hc,rfl⟩ := mem_map.mp hl
      have hlt := hold.lt c hc
      have heq : c.input.values = tx.next := by simpa [RccTx.receive] using hl'
      omega
    · rcases mem_append.mp hc with hc | hc
      · exact hws ▸ hold.ne c hc
      · obtain rfl := mem_singleton.mp hc
        exact hws ▸ (Nat.ne_of_lt h.ws_lt).symm
    · rcases mem_append.mp hc with hc | hc
      · exact lt_succ_of_lt (hold.lt c hc)
      · obtain rfl := mem_singleton.mp hc
        exact lt_succ_self _
  · have hold := h.apart rank
    simp only [update_of_ne he]
    exact ⟨hold.nodup,hws ▸ hold.ne,fun c hc => lt_succ_of_lt (hold.lt c hc)⟩
  · simp only [update_self,map_append]
    refine List.Nodup.append (h.ids _) (by simp) ?_
    intro i hi hi'
    obtain ⟨c,hc,rfl⟩ := mem_map.mp hi
    exact hnone c hc (by simpa [RccTx.receive] using hi')
  · simp only [update_of_ne he]
    exact h.ids rank
  · simp only [update_self] at hc
    rcases mem_append.mp hc with hc | hc
    · exact h.rank_eq _ c hc
    · obtain rfl := mem_singleton.mp hc
      rfl
  · simp only [update_of_ne he] at hc
    exact h.rank_eq rank c hc

/-- A piece that is there already is not stored again: only a map that nothing refers to
has been allocated. -/
theorem Stored.skip (h : Stored qs tx)
    {c : SimpleCommand Ty Key} (hc : c ∈ tx.dreqs q.1.rank) (he : c.innId = q.1.innId) :
    Stored (qs++[q]) (tx.receive q.1).1 := by
  refine ⟨fun rank => ?_,fun rank => ?_,h.ids,h.rank_eq,lt_succ_of_lt h.ws_lt,h.output⟩
  · rw [pieces_concat,if_neg]
    · exact h.holds (fun l _ hl => update_of_ne (Nat.ne_of_lt hl) _ _) rank
    · rintro ⟨rfl,hnone⟩
      have hmem : c.innId ∈ (Workspace.pieces qs q.1.rank).map Request.innId :=
        Holds.innId_eq (h.pieces q.1.rank) ▸ mem_map_of_mem hc
      obtain ⟨p,hp,hpe⟩ := mem_map.mp hmem
      exact hnone p hp (hpe.trans he)
  · exact ⟨(h.apart rank).nodup,(h.apart rank).ne,
      fun c hc => lt_succ_of_lt ((h.apart rank).lt c hc)⟩

theorem Stored.dispatch (h : Stored qs tx) (q : Request Ty Key Val × DB) :
    Stored (qs++[q]) (tx.dispatch reg q) := by
  have hne : tx.next ≠ tx.ws.values := (Nat.ne_of_lt h.ws_lt).symm
  unfold RccTx.dispatch RccTx.dispatchExecute
  simp only
  split_ifs with hany
  · obtain ⟨c,hc,he⟩ := any_eq_true.mp hany
    exact h.skip hc (beq_iff_eq.mp he)
  · refine h.push (fun c hc he => hany (any_eq_true.mpr ⟨c,hc,beq_iff_eq.mpr he⟩)) rfl
      (fun l hl hlt => ?_) (fun k v hv => ?_)
    all_goals simp only [RccTx.receive,TxWorkspace.aggregate,TxWorkspace.insert,ne_eq,hne,
      not_false_eq_true,if_true]
    · have hln := Nat.ne_of_lt hlt
      simp [hl,hln]
    · simp [hne,ValueMap.insert,hv]

end Dispatch

theorem stored_dispatched (reg : TxnRegistry Ty Key Val DB)
    (qs : List (Request Ty Key Val × DB)) : Stored qs (dispatched reg qs) := by
  induction qs using reverseRecOn with
  | nil => exact Stored.init
  | append_singleton qs q ih =>
    have hfold : dispatched reg (qs++[q]) = (dispatched reg qs).dispatch reg q := by
      simp [dispatched]
    rw [hfold]
    exact ih.dispatch q

/-- `CommitExecute` completes, and runs every piece with its original input and what the pieces
before it returned in the same run exactly if no stored request holds a stale optimistic value. -/
theorem commit_inputs_iff (reg : TxnRegistry Ty Key Val DB)
    (qs : List (Request Ty Key Val × DB)) (rank : Rank) (db : DB) :
    ∃ σ, (dispatched reg qs).commitExecute reg rank db = some σ ∧
      (UsesCommitInputs ValueMap.empty (pieces qs rank) σ.runs ↔
        NoStale reg (dispatched reg qs).heap ValueMap.empty db ((dispatched reg qs).dreqs rank)
          (pieces qs rank)) := by
  have h := stored_dispatched reg qs
  have hlt : ∀ c ∈ (dispatched reg qs).dreqs rank, c.input.values ≠ (dispatched reg qs).next :=
    fun c hc => Nat.ne_of_lt ((h.apart rank).lt c hc)
  obtain ⟨σ,rs,hfold,hruns,hiff⟩ := commitLoop_iff reg rank
    ((dispatched reg qs).dreqs rank) (pieces qs rank)
    {heap := update (dispatched reg qs).heap (dispatched reg qs).next ValueMap.empty,
     ws := ⟨fun _ => false,(dispatched reg qs).next⟩, output := (dispatched reg qs).output rank,
     db := db, runs := []} ValueMap.empty (h.pieces rank)
    ⟨(h.apart rank).nodup,hlt,(h.apart rank).lt⟩ (h.ids rank) (h.rank_eq rank)
    (fun c hc => update_of_ne (hlt c hc) _ _) (fun c _ => h.output rank _)
    (update_self _ _ _) rfl
  have hrs : σ.runs = rs := by simpa using hruns
  exact ⟨σ,hfold,hrs ▸ hiff⟩

/-- Two pieces of a transaction on one number: the first returns it under key 1, the
second has no input of its own. -/
def readThenUse : TxnRegistry Bool ℕ ℕ ℕ := fun type _ _ db =>
  (if type then fun k => if k = 1 then some db else none else ValueMap.empty,db)

def twoPieces : List (Request Bool ℕ ℕ × ℕ) :=
  [(⟨0,.d,true,fun _ => false,ValueMap.empty⟩,0),(⟨1,.d,false,fun _ => false,ValueMap.empty⟩,0)]

/-- The number changes from 0 to 5 between dispatch and commit: the first piece returns 5, and the
second still runs with the 0. -/
theorem stale_input_at_commit :
    ((dispatched readThenUse twoPieces).commitExecute readThenUse .d 5).map
      (fun σ => σ.runs.map fun r => (r.values 1,r.output 1)) = some [(none,some 5),(some 0,none)] ∧
    ∀ σ, (dispatched readThenUse twoPieces).commitExecute readThenUse .d 5 = some σ →
      ¬UsesCommitInputs ValueMap.empty (pieces twoPieces .d) σ.runs := by
  have hruns : ((dispatched readThenUse twoPieces).commitExecute readThenUse .d 5).map
      (fun σ => σ.runs.map fun r => (r.values 1,r.output 1)) =
        some [(none,some 5),(some 0,none)] := by decide +kernel
  refine ⟨hruns,fun σ hσ huse => ?_⟩
  rw [hσ,map_some] at hruns
  match hr : σ.runs with
  | [r₀,r₁] =>
    rw [hr] at hruns huse
    have hvalues : r₁.values = ValueMap.insert ValueMap.empty (ValueMap.empty.insert r₀.output) :=
      huse.2.2.1
    have hone := congrFun hvalues 1
    simp only [map_cons,map_nil,some.injEq,cons.injEq,Prod.mk.injEq] at hruns
    simp [ValueMap.insert,ValueMap.empty,hruns.1.2,hruns.2.1.1] at hone
  | [] => simp [hr] at hruns
  | [_] => simp [hr] at hruns
  | _::_::_::_ => simp [hr] at hruns

end Janus.Workspace
