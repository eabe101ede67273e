import Janus.ClassicCoordinator

/-! The dispatches of the classic coordinator, piece by piece (`DispatchAsync`,
`Communicator::BroadcastDispatch`, `AllDispatchAcked`). Each call carries pieces, and the outputs
in its reply can make more pieces dispatchable. -/
namespace Janus.ClassicCoordinator

open Finset List Coordinator Transition

structure Pieces (V : Type) where
  /-- The pieces whose status is `DISPATCHABLE`, in the order of `status_`, each with its
  partition. -/
  ready : List (ℕ × ParId)
  outputs : ℕ → Option V
  /-- The keys of `dispatch_acks_`, and those that it maps to true. -/
  keys : Finset ℕ
  acked : Finset ℕ
  /-- `n_dispatch_` and `n_dispatch_ack_`. -/
  nPieces : ℕ
  nPiecesAck : ℕ
  cmds : Call → Finset ℕ

structure Dispatcher (V : Type) extends Coordinator, Pieces V

namespace Dispatcher

variable {V : Type}

def parallelDispatch : ℕ := 100

def inOrder (pieces : List (ℕ × ParId)) : List (ℕ × ParId) :=
  pieces.insertionSort fun p q => p.1 ≤ q.1

variable (d : Dispatcher V)

def taken : List (ℕ × ParId) := d.ready.take parallelDispatch

def parts (ready : List (ℕ × ParId)) : List ParId :=
  ((ready.take parallelDispatch).map Prod.snd).dedup

def ofPar (pieces : List (ℕ × ParId)) (q : ParId) : Finset ℕ :=
  ((pieces.filter fun p => p.2 = q).map Prod.fst).toFinset

def dispatched : Dispatcher V where
  toCoordinator := d.toCoordinator.dispatchAsync (parts d.ready)
  ready := d.ready.drop parallelDispatch
  outputs := d.outputs
  keys := d.keys ∪ (d.taken.map Prod.fst).toFinset
  acked := d.acked \ (d.taken.map Prod.fst).toFinset
  nPieces := d.nPieces+d.taken.length
  nPiecesAck := d.nPiecesAck
  cmds call := if call.kind = .dispatch ∧ call.event = d.net.nextEvent then ofPar d.taken call.par
    else d.cmds call

/-- `GetReadyPiecesData` needs a piece that is dispatchable. -/
def dispatchAsync : Option (Dispatcher V) :=
  if d.ready = [] then none else some d.dispatched

def commit (d : Dispatcher V) : Option (Dispatcher V) :=
  if d.keys = ∅ then none
  else d.toCoordinator.commit.map fun c => {d with
    toCoordinator := c
    acked := d.acked ∪ d.keys.filter fun p => ∀ q ∈ d.keys, p ≤ q}

def finish (d : Dispatcher V) : Option (Dispatcher V) :=
  d.toCoordinator.finish.map fun c => {d with toCoordinator := c}

def reset (d : Dispatcher V) (pieces : List (ℕ × ParId)) : Dispatcher V where
  toCoordinator := d.toCoordinator.reset.resetTx
  ready := inOrder pieces
  outputs _ := none
  keys := ∅
  acked := ∅
  nPieces := 0
  nPiecesAck := 0
  cmds := d.cmds

def restart (maxRetry : ℤ) (pieces : List (ℕ × ParId))
    (goto : Dispatcher V → Option (Dispatcher V)) (d : Dispatcher V) : Option (Dispatcher V) :=
  if d.aborted = false ∨ 5 ≤ d.nRetry+1 then none
  else if maxRetry < d.nRetry+1 ∧ 0 ≤ maxRetry then
    finish {d with toCoordinator := d.toCoordinator.renew}
  else goto (reset {d with toCoordinator := d.toCoordinator.renew} pieces)

def casePrepare : Option (Dispatcher V) :=
  if d.phase%4 = 3 then commit {d with phase := d.phase+1} else none

def caseCommit (maxRetry : ℤ) (pieces : List (ℕ × ParId))
    (goto : Dispatcher V → Option (Dispatcher V)) (d : Dispatcher V) : Option (Dispatcher V) :=
  if d.phase%4 ≠ 0 ∨ d.committed = d.aborted then none
  else if d.committed then finish d
  else restart maxRetry pieces goto d

def gotoNextPhase (maxRetry : ℤ) (pieces : List (ℕ × ParId)) :
    ℕ → Dispatcher V → Option (Dispatcher V)
  | 0, _ => none
  | n+1, d =>
    let next : Dispatcher V := {d with phase := d.phase+1}
    match d.phase%4 with
    | 0 => if next.phase%4 = 1 then next.dispatchAsync else none
    | 1 =>
      if next.phase%4 ≠ 2 ∨ d.committed then none
      else if d.aborted = false then
        some {d with toCoordinator := Coordinator.prepare {d.toCoordinator with phase := d.phase+2}}
      else
        gotoNextPhase maxRetry pieces n {d with
          phase := d.phase+2
          res := .REJECT
          net := d.net.send .earlyAbort d.id d.partitions (d.phase+2)}
    | 2 => casePrepare next
    | _ => caseCommit maxRetry pieces (gotoNextPhase maxRetry pieces n) next

def doTxAsync (maxRetry : ℤ) (d : Dispatcher V) (pieces : List (ℕ × ParId)) (flag : Bool) :
    Option (Dispatcher V) :=
  gotoNextPhase maxRetry pieces Coordinator.depth
    (reset {d with toCoordinator := d.toCoordinator.newRequest flag} pieces)

/-- The outputs of a call are merged into the transaction data; `enabled` are the pieces
that become dispatchable with them. -/
def merge (call : Call) (out : ℕ → V) (enabled : List (ℕ × ParId)) :
    Dispatcher V where
  toCoordinator := {d.toCoordinator with
    nDispatchAck := d.nDispatchAck+1
    ints := Function.update d.ints call.event
      ((d.ints call.event).1+1,(d.ints call.event).2)}
  ready := inOrder (d.ready++enabled)
  outputs p := if p ∈ d.cmds call then some (out p) else d.outputs p
  keys := d.keys ∪ d.cmds call
  acked := d.acked ∪ d.cmds call
  nPieces := d.nPieces
  nPiecesAck := d.nPiecesAck+(d.cmds call).card
  cmds := d.cmds

/-- The callbacks. A successful reply has an output for each piece of its dispatch, which `Merge`
takes once. `DispatchAsync(false)` fails in a callback. -/
def onReply (d : Dispatcher V) (call : Call) (res : Res) (out : ℕ → V)
    (enabled : List (ℕ × ParId)) : Option (Dispatcher V) :=
  match call.kind,res with
  | .dispatch,.SUCCESS =>
    if call.phase ≠ d.phase ∨ ∃ p ∈ d.cmds call, (d.outputs p).isSome then none
    else
      let d := d.merge call out enabled
      if d.ready = [] then some d else none
  | _,_ => (d.toCoordinator.onReply call res false).map fun c => {d with toCoordinator := c}

def allDispatchAcked : Option Bool :=
  if d.keys ⊆ d.acked then if d.nPiecesAck = d.nPieces then some true else none
  else some false

def afterDispatch (maxRetry : ℤ) (d : Dispatcher V) (pieces : List (ℕ × ParId)) :
    Option (Dispatcher V) :=
  d.allDispatchAcked.bind fun all =>
    if all || d.aborted then gotoNextPhase maxRetry pieces Coordinator.depth d
    else some {d with wait := .stuck}

def afterPrepare : Option (Dispatcher V) :=
  casePrepare (if d.aborted then d else {d with commitFlag := true, committed := true})

def afterCommit (maxRetry : ℤ) (d : Dispatcher V) (pieces : List (ℕ × ParId)) :
    Option (Dispatcher V) :=
  caseCommit maxRetry pieces (gotoNextPhase maxRetry pieces Coordinator.depth)
    (if d.res = .REJECT then {d with aborted := true} else {d with committed := true})

def EventReady : Prop :=
  match d.wait with
  | .idle | .stuck => False
  | .dispatch e => (d.ints e).2 ≤ (d.ints e).1
  | .prepare e | .finish e => (d.ands e).all (0 < ·.2) = true

instance (d : Dispatcher V) : Decidable d.EventReady := by
  unfold EventReady
  split <;> infer_instance

def resume (maxRetry : ℤ) (d : Dispatcher V) (pieces : List (ℕ × ParId)) :
    Option (Dispatcher V) :=
  match d.wait with
  | .idle | .stuck => none
  | .dispatch _ => afterDispatch maxRetry d pieces
  | .prepare _ => afterPrepare d
  | .finish _ => afterCommit maxRetry d pieces

end Dispatcher

inductive PieceLabel (V : Type)
  | doTxAsync (pieces : List (ℕ × ParId)) (flag : Bool)
  | reply (call : Call) (res : Res) (out : ℕ → V) (enabled : List (ℕ × ParId))
  | resume (pieces : List (ℕ × ParId))

namespace Dispatcher

variable {V : Type}

def First (pieces : List (ℕ × ParId)) : Prop := pieces ≠ [] ∧ (pieces.map Prod.fst).Nodup

instance (pieces : List (ℕ × ParId)) : Decidable (First pieces) :=
  inferInstanceAs (Decidable (_ ∧ _))

/-- A request to an idle coordinator, the reply of any call on its way, or the return of the
coroutine to a ready event. -/
def Enabled (d : Dispatcher V) : PieceLabel V → Prop
  | .doTxAsync pieces _ => d.wait = .idle ∧ First pieces
  | .reply call _ _ _ => call ∈ d.net.outstanding
  | .resume pieces => d.EventReady ∧ First pieces

instance (d : Dispatcher V) (l : PieceLabel V) : Decidable (d.Enabled l) := by
  cases l <;> unfold Enabled <;> infer_instance

def handle (maxRetry : ℤ) (d : Dispatcher V) : PieceLabel V → Option (Dispatcher V)
  | .doTxAsync pieces flag => d.doTxAsync maxRetry pieces flag
  | .reply call res out enabled =>
    onReply {d with net := d.net.reply call res} call res out enabled
  | .resume pieces => d.resume maxRetry pieces

def initial (k : TxId) : Dispatcher V where
  toCoordinator := ClassicCoordinator.initial k
  ready := []
  outputs _ := none
  keys := ∅
  acked := ∅
  nPieces := 0
  nPiecesAck := 0
  cmds _ := ∅

end Dispatcher

def pieceSystem (V : Type) (maxRetry : ℤ) :
    System (Dispatcher V) (PieceLabel V) where
  init d := ∃ k, d = Dispatcher.initial k
  step d l := if d.Enabled l then d.handle maxRetry l else none

namespace Dispatcher

variable {V : Type} {maxRetry : ℤ} {pieces : List (ℕ × ParId)} {d d' : Dispatcher V} {e : ℕ}
variable {kind : Kind}

theorem perm_inOrder (pieces : List (ℕ × ParId)) : (inOrder pieces).Perm pieces :=
  perm_insertionSort _ _

theorem inOrder_ne_nil (h : pieces ≠ []) : inOrder pieces ≠ [] := fun hnil =>
  h (perm_nil.mp (hnil ▸ perm_inOrder pieces).symm)

theorem nodup_parts (ready : List (ℕ × ParId)) : (parts ready).Nodup := nodup_dedup _

/-! ### The cases of the switch

Each succeeds, leaves pieces as stated, and is the one of `ClassicCoordinator` for the
partitions of the pieces. -/

theorem gotoNextPhase_init (n : ℕ) (h : d.phase%4 = 0) (hready : d.ready ≠ []) :
    gotoNextPhase maxRetry pieces (n+1) d = some (dispatched {d with phase := d.phase+1}) := by
  have hnext : (d.phase+1)%4 = 1 := by omega
  simp only [gotoNextPhase,h,hnext,if_true]
  exact if_neg hready

theorem forget_init (n : ℕ) (h : d.phase%4 = 0) :
    Coordinator.gotoNextPhase maxRetry (parts d.ready) (n+1) d.toCoordinator =
      some (dispatched {d with phase := d.phase+1}).toCoordinator := by
  have hnext : (d.phase+1)%4 = 1 := by omega
  simp only [Coordinator.gotoNextPhase,h]
  exact if_pos ⟨hnext,nodup_parts _⟩

structure Ended (d d' : Dispatcher V) : Prop where
  wait : d'.wait = .idle
  phase : d'.phase = d.phase
  outstanding : d'.net.outstanding = d.net.outstanding

theorem finish_spec (h : (d.committed || d.aborted) = true) :
    ∃ d', finish d = some d' ∧ d.toCoordinator.finish = some d'.toCoordinator ∧ Ended d d' := by
  have hfinish : ∃ c, d.toCoordinator.finish = some c ∧ c.wait = .idle ∧ c.phase = d.phase ∧
      c.net.outstanding = d.net.outstanding := ⟨_,if_pos h,rfl,rfl,rfl⟩
  obtain ⟨c,hc,hwait,hphase,hout⟩ := hfinish
  exact ⟨{d with toCoordinator := c},congrArg (Option.map _) hc,hc,hwait,hphase,hout⟩

def retried (d : Dispatcher V) (pieces : List (ℕ × ParId)) : Dispatcher V :=
  dispatched {reset {d with toCoordinator := d.toCoordinator.renew} pieces with
    phase := d.phase+1}

theorem restart_spec (n : ℕ) (hphase : d.phase%4 = 0) (haborted : d.aborted = true)
    (hretry : d.nRetry < 4) (hpieces : pieces ≠ []) :
    ∃ d', restart maxRetry pieces (gotoNextPhase maxRetry pieces (n+1)) d = some d' ∧
      Coordinator.restart maxRetry (Coordinator.gotoNextPhase maxRetry (parts (inOrder pieces)) (n+1))
        d.toCoordinator = some d'.toCoordinator ∧ (Ended d d' ∨ d' = retried d pieces) := by
  have hgo : ¬(d.aborted = false ∨ 5 ≤ d.nRetry+1) := by
    simp only [haborted,Bool.true_eq_false,false_or]
    omega
  rw [restart,Coordinator.restart,if_neg hgo,if_neg hgo]
  split_ifs
  · obtain ⟨d',hd',hc',hended⟩ := finish_spec
      (d:={d with toCoordinator := d.toCoordinator.renew}) (by simp [renew,haborted])
    exact ⟨d',hd',hc',Or.inl {hended with}⟩
  · exact ⟨_,gotoNextPhase_init (d:=reset _ pieces) n hphase (inOrder_ne_nil hpieces),
      forget_init (d:=reset {d with toCoordinator := d.toCoordinator.renew} pieces) n hphase,
      Or.inr rfl⟩

variable (maxRetry) in
theorem caseCommit_spec (n : ℕ) (hphase : d.phase%4 = 0) (hne : d.committed ≠ d.aborted)
    (hretry : d.aborted = true → d.nRetry < 4) (hpieces : pieces ≠ []) :
    ∃ d', caseCommit maxRetry pieces (gotoNextPhase maxRetry pieces (n+1)) d = some d' ∧
      Coordinator.caseCommit maxRetry
        (Coordinator.gotoNextPhase maxRetry (parts (inOrder pieces)) (n+1)) d.toCoordinator =
        some d'.toCoordinator ∧ (Ended d d' ∨ d' = retried d pieces) := by
  have hgo : ¬(d.phase%4 ≠ 0 ∨ d.committed = d.aborted) := by simp [hphase,hne]
  rw [caseCommit,Coordinator.caseCommit,if_neg hgo,if_neg hgo]
  split_ifs with hc
  · obtain ⟨d',hd',hc',hended⟩ := finish_spec (d:=d) (by simp [hc])
    exact ⟨d',hd',hc',Or.inl hended⟩
  · have haborted : d.aborted = true := by
      cases ha : d.aborted with
      | true => rfl
      | false => exact absurd ((Bool.eq_false_of_not_eq_true hc).trans ha.symm) hne
    exact restart_spec n hphase haborted (hretry haborted) hpieces

def earlyAborted (d : Dispatcher V) : Dispatcher V :=
  {d with
    phase := d.phase+3
    res := .REJECT
    net := d.net.send .earlyAbort d.id d.partitions (d.phase+2)}

variable (maxRetry) in
theorem gotoNextPhase_spec (n : ℕ) (hphase : d.phase%4 = 1) (hcommitted : d.committed = false)
    (hretry : d.aborted = true → d.nRetry < 4) (hpieces : pieces ≠ []) :
    ∃ d', gotoNextPhase maxRetry pieces (n+3) d = some d' ∧
      Coordinator.gotoNextPhase maxRetry (parts (inOrder pieces)) (n+3) d.toCoordinator =
        some d'.toCoordinator ∧
      (d.aborted = false ∧ d' = {d with
        toCoordinator := Coordinator.prepare {d.toCoordinator with phase := d.phase+2}} ∨
      d.aborted = true ∧ (Ended d.earlyAborted d' ∨ d' = retried d.earlyAborted pieces)) := by
  have hgo : ¬((d.phase+1)%4 ≠ 2 ∨ d.committed = true) := by
    rw [hcommitted]
    simp only [Bool.false_eq_true,or_false,not_not]
    omega
  rw [gotoNextPhase_dispatch (n+2) hphase,gotoNextPhase]
  simp only [hphase]
  rw [if_neg hgo,if_neg hgo]
  by_cases ha : d.aborted = false
  · rw [if_pos ha,if_pos ha]
    exact ⟨_,rfl,rfl,Or.inl ⟨ha,rfl⟩⟩
  · have hp : (d.phase+2)%4 = 3 := by omega
    have hinit : (d.phase+3)%4 = 0 := by omega
    have haborted : d.aborted = true := Bool.eq_true_of_not_eq_false ha
    rw [if_neg ha,if_neg ha,gotoNextPhase_commit (n+1) hp,gotoNextPhase]
    simp only [hp]
    obtain ⟨d',hd',hc',hshape⟩ := caseCommit_spec maxRetry (d:=d.earlyAborted) n hinit
      (show d.committed ≠ d.aborted by simp [hcommitted,haborted]) hretry hpieces
    exact ⟨d',hd',hc',Or.inr ⟨haborted,hshape⟩⟩

structure Finishes (d d' : Dispatcher V) : Prop where
  phase : d'.phase = d.phase+1
  wait : d'.wait ≠ .idle
  keys : d'.keys = d.keys
  nDispatch : d'.nDispatch = d.nDispatch
  outstanding : ∀ call ∈ d'.net.outstanding, call.kind = .dispatch → call ∈ d.net.outstanding

theorem sendQuorum_outstanding {c : Coordinator} (hkind : kind ≠ .dispatch)
    {call : Call} (hcall : call ∈ (c.sendQuorum kind).net.outstanding)
    (hdispatch : call.kind = .dispatch) : call ∈ c.net.outstanding := by
  obtain hcall | ⟨q,_,rfl⟩ := mem_send_outstanding.mp hcall
  · exact hcall
  · exact absurd hdispatch hkind

theorem casePrepare_spec (hphase : d.phase%4 = 3) (hkeys : d.keys ≠ ∅) (hsent : d.nDispatch ≠ 0)
    (hflag : d.commitFlag = d.committed) (hne : d.committed ≠ d.aborted) :
    ∃ d', casePrepare d = some d' ∧ d.toCoordinator.casePrepare = some d'.toCoordinator ∧
      Finishes d d' := by
  have hcommit : ∃ c, d.toCoordinator.casePrepare = some c ∧ c.phase = d.phase+1 ∧
      c.wait ≠ .idle ∧ c.nDispatch = d.nDispatch ∧
      ∀ call ∈ c.net.outstanding, call.kind = .dispatch → call ∈ d.net.outstanding := by
    rw [Coordinator.casePrepare,if_pos hphase,Coordinator.commit,if_neg (by simp [hsent,hflag,hne])]
    split_ifs
    · exact ⟨_,rfl,rfl,Wait.noConfusion,rfl,fun _ hcall => sendQuorum_outstanding
        (c:={d.toCoordinator with phase := d.phase+1}) Kind.noConfusion hcall⟩
    · exact ⟨_,rfl,rfl,Wait.noConfusion,rfl,fun _ hcall => sendQuorum_outstanding
        (c:={d.toCoordinator with phase := d.phase+1}) Kind.noConfusion hcall⟩
  obtain ⟨c,hc,hcphase,hwait,hdispatch,hout⟩ := hcommit
  refine ⟨{d with
    toCoordinator := c
    acked := d.acked ∪ d.keys.filter fun p => ∀ q ∈ d.keys, p ≤ q},?_,hc,hcphase,hwait,rfl,
    hdispatch,hout⟩
  rw [Coordinator.casePrepare,if_pos hphase] at hc
  rw [casePrepare,if_pos hphase,commit,if_neg hkeys]
  exact congrArg (Option.map _) hc

theorem afterPrepare_spec (hphase : d.phase%4 = 3) (hkeys : d.keys ≠ ∅) (hsent : d.nDispatch ≠ 0)
    (hcommitted : d.committed = false) (hflag : d.aborted = true → d.commitFlag = false) :
    ∃ d', afterPrepare d = some d' ∧ d.toCoordinator.afterPrepare = some d'.toCoordinator ∧
      Finishes d d' := by
  by_cases ha : d.aborted = true
  · rw [afterPrepare,Coordinator.afterPrepare,if_pos ha,if_pos ha]
    exact casePrepare_spec hphase hkeys hsent (by rw [hflag ha,hcommitted])
      (by simp [hcommitted,ha])
  · rw [afterPrepare,Coordinator.afterPrepare,if_neg ha,if_neg ha]
    obtain ⟨d',hd',hc',hf⟩ := casePrepare_spec
      (d:={d with commitFlag := true, committed := true}) hphase hkeys hsent rfl
      (fun h => ha h.symm)
    exact ⟨d',hd',hc',{hf with}⟩

/-! ### The pieces of an attempt -/

/-- `L` are the calls of the attempt that no success has answered yet; the pieces in them are not
acknowledged, and no others. -/
structure Ledger (d : Dispatcher V) (L : Finset Call) : Prop where
  current : ∀ call ∈ L, call.kind = .dispatch ∧ call.tid = d.id ∧ call.phase = d.phase
  event : ∀ call ∈ L, call.event < d.net.nextEvent
  pending : ∀ call ∈ d.net.outstanding, call.kind = .dispatch → call ∈ L
  calls : d.nDispatch = d.nDispatchAck+L.card
  filled : ∀ call ∈ L, (d.cmds call).Nonempty
  disjoint : ∀ a ∈ L, ∀ b ∈ L, a ≠ b → Disjoint (d.cmds a) (d.cmds b)
  unacked : d.keys \ d.acked = L.biUnion d.cmds
  acked : d.acked ⊆ d.keys
  nPieces : d.nPieces = d.keys.card
  nPiecesAck : d.nPiecesAck = d.acked.card
  outputs : ∀ p, (d.outputs p).isSome → p ∈ d.acked

section Books

variable {L : Finset Call} {p : ℕ} {q : ParId} {call : Call}

theorem Ledger.keys_subset_iff (h : Ledger d L) : d.keys ⊆ d.acked ↔ d.nDispatchAck = d.nDispatch := by
  have hcalls := h.calls
  have hzero : d.nDispatchAck = d.nDispatch ↔ L = ∅ := by
    rw [← card_eq_zero]
    omega
  rw [hzero,← sdiff_eq_empty_iff_subset,h.unacked]
  constructor
  · intro hempty
    refine eq_empty_of_forall_notMem fun call hcall => ?_
    obtain ⟨p,hp⟩ := h.filled call hcall
    exact notMem_empty p (hempty ▸ mem_biUnion.mpr ⟨call,hcall,hp⟩)
  · rintro rfl
    rfl

theorem Ledger.allDispatchAcked (h : Ledger d L) :
    d.allDispatchAcked = some (decide (d.nDispatchAck = d.nDispatch)) := by
  rw [Dispatcher.allDispatchAcked]
  by_cases hall : d.keys ⊆ d.acked
  · have hsame : d.nPiecesAck = d.nPieces := by
      rw [h.nPieces,h.nPiecesAck,Finset.Subset.antisymm h.acked hall]
    rw [if_pos hall,if_pos hsame,decide_eq_true (h.keys_subset_iff.mp hall)]
  · rw [if_neg hall,decide_eq_false (hall ∘ h.keys_subset_iff.mpr)]

theorem mem_ofPar : p ∈ ofPar pieces q ↔ (p,q) ∈ pieces := by
  simp [ofPar]

def newCalls (d : Dispatcher V) : Finset Call :=
  (parts d.ready).toFinset.image fun q => ⟨.dispatch,d.id,q,d.phase,d.net.nextEvent⟩

theorem mem_newCalls : call ∈ d.newCalls ↔
    ∃ q ∈ parts d.ready, call = ⟨.dispatch,d.id,q,d.phase,d.net.nextEvent⟩ := by
  simp [newCalls,eq_comm]

theorem card_newCalls : d.newCalls.card = (parts d.ready).length := by
  rw [newCalls,card_image_of_injective _ fun q q' hq => congrArg Call.par hq]
  exact toFinset_card_of_nodup (nodup_parts _)

theorem mem_parts : q ∈ parts d.ready ↔ ∃ p, (p,q) ∈ d.taken := by
  rw [parts,mem_dedup,List.mem_map]
  simp [taken]

def takenIds (d : Dispatcher V) : Finset ℕ := (d.taken.map Prod.fst).toFinset

theorem mem_takenIds : p ∈ d.takenIds ↔ ∃ q, (p,q) ∈ d.taken := by
  simp [takenIds]

theorem nodup_taken (hpieces : (pieces.map Prod.fst).Nodup) :
    ((d.reset pieces).taken.map Prod.fst).Nodup :=
  (((perm_inOrder pieces).map Prod.fst).nodup_iff.mpr hpieces).sublist ((take_sublist _ _).map _)

theorem cmds_dispatched (hcall : call ∈ d.newCalls) :
    d.dispatched.cmds call = ofPar d.taken call.par := by
  obtain ⟨q,_,rfl⟩ := mem_newCalls.mp hcall
  exact if_pos ⟨rfl,rfl⟩

theorem biUnion_newCalls : d.newCalls.biUnion d.dispatched.cmds = d.takenIds := by
  ext p
  rw [mem_biUnion,mem_takenIds]
  constructor
  · rintro ⟨call,hcall,hp⟩
    rw [cmds_dispatched hcall] at hp
    exact ⟨call.par,mem_ofPar.mp hp⟩
  · rintro ⟨q,hq⟩
    have hcall : (⟨.dispatch,d.id,q,d.phase,d.net.nextEvent⟩ : Call) ∈ d.newCalls :=
      mem_newCalls.mpr ⟨q,mem_parts.mpr ⟨p,hq⟩,rfl⟩
    refine ⟨_,hcall,?_⟩
    rw [cmds_dispatched hcall]
    exact mem_ofPar.mpr hq

/-- Calls of one dispatch have different pieces, because the partitions differ. -/
theorem disjoint_newCalls (hnodup : (d.taken.map Prod.fst).Nodup) {a b : Call}
    (ha : a ∈ d.newCalls) (hb : b ∈ d.newCalls) (hne : a ≠ b) :
    Disjoint (d.dispatched.cmds a) (d.dispatched.cmds b) := by
  rw [cmds_dispatched ha,cmds_dispatched hb]
  obtain ⟨q,_,rfl⟩ := mem_newCalls.mp ha
  obtain ⟨q',_,rfl⟩ := mem_newCalls.mp hb
  refine disjoint_left.mpr fun p hp hp' => hne ?_
  have heq : (p,q) = (p,q') :=
    inj_on_of_nodup_map hnodup (mem_ofPar.mp hp) (mem_ofPar.mp hp') rfl
  obtain rfl : q = q' := congrArg Prod.snd heq
  rfl

/-- The books of the first dispatch of an attempt. -/
theorem Ledger.start (hnone : ∀ call ∈ d.net.outstanding, call.kind ≠ .dispatch)
    (hpieces : (pieces.map Prod.fst).Nodup) :
    Ledger (d.reset pieces).dispatched (d.reset pieces).newCalls where
  current call hcall := by
    obtain ⟨q,_,rfl⟩ := mem_newCalls.mp hcall
    exact ⟨rfl,rfl,rfl⟩
  event call hcall := by
    obtain ⟨q,_,rfl⟩ := mem_newCalls.mp hcall
    exact Nat.lt_succ_self _
  pending call hcall hkind := by
    obtain hcall | hnew := mem_send_outstanding.mp hcall
    · exact absurd hkind (hnone call hcall)
    · exact mem_newCalls.mpr hnew
  calls := by
    rw [card_newCalls]
    rfl
  filled call hcall := by
    rw [cmds_dispatched hcall]
    obtain ⟨q,hq,rfl⟩ := mem_newCalls.mp hcall
    obtain ⟨p,hp⟩ := mem_parts.mp hq
    exact ⟨p,mem_ofPar.mpr hp⟩
  disjoint a ha b hb := disjoint_newCalls (nodup_taken hpieces) ha hb
  unacked := by
    rw [biUnion_newCalls]
    show (∅ ∪ (d.reset pieces).takenIds) \ (∅ \ _) = _
    simp
  acked := by simp [Dispatcher.reset,Dispatcher.dispatched]
  nPieces := by
    show 0+(d.reset pieces).taken.length = (∅ ∪ (d.reset pieces).takenIds).card
    rw [empty_union,takenIds,toFinset_card_of_nodup (nodup_taken hpieces),length_map,Nat.zero_add]
  nPiecesAck := by simp [Dispatcher.reset,Dispatcher.dispatched]
  outputs := by simp [Dispatcher.reset,Dispatcher.dispatched]

namespace Ledger

variable {call : Call} (h : Ledger d L)
include h

theorem cmds_subset (hcall : call ∈ L) : d.cmds call ⊆ d.keys \ d.acked := by
  rw [h.unacked]
  exact subset_biUnion_of_mem _ hcall

theorem reply (call : Call) (res : Res) : Ledger {d with net := d.net.reply call res} L :=
  {h with pending := fun a ha => h.pending a (mem_of_mem_erase ha)}

theorem outputs_none (hcall : call ∈ L) : ¬∃ p ∈ d.cmds call, (d.outputs p).isSome := by
  rintro ⟨p,hp,hout⟩
  exact (mem_sdiff.mp (h.cmds_subset hcall hp)).2 (h.outputs p hout)

theorem merge (hcall : call ∈ L) (hgone : call ∉ d.net.outstanding) (out : ℕ → V)
    (enabled : List (ℕ × ParId)) : Ledger (d.merge call out enabled) (L.erase call) := by
  have hkeys : d.cmds call ⊆ d.keys := (h.cmds_subset hcall).trans sdiff_subset
  have hacked : Disjoint d.acked (d.cmds call) :=
    disjoint_right.mpr fun p hp => (mem_sdiff.mp (h.cmds_subset hcall hp)).2
  have hsame : d.keys ∪ d.cmds call = d.keys := union_eq_left.mpr hkeys
  refine ⟨fun a ha => h.current a (mem_of_mem_erase ha),
    fun a ha => h.event a (mem_of_mem_erase ha),?_,?_,
    fun a ha => h.filled a (mem_of_mem_erase ha),
    fun a ha b hb => h.disjoint a (mem_of_mem_erase ha) b (mem_of_mem_erase hb),
    ?_,union_subset_union_left h.acked,?_,?_,?_⟩
  · intro a ha hkind
    refine mem_erase.mpr ⟨?_,h.pending a ha hkind⟩
    rintro rfl
    exact hgone ha
  · have hcalls := h.calls
    have hpos : 0 < L.card := card_pos.mpr ⟨call,hcall⟩
    show d.nDispatch = d.nDispatchAck+1+(L.erase call).card
    rw [card_erase_of_mem hcall]
    omega
  · show (d.keys ∪ d.cmds call) \ (d.acked ∪ d.cmds call) = (L.erase call).biUnion d.cmds
    rw [hsame,← sup_eq_union,← sdiff_sdiff_left,h.unacked]
    ext p
    simp only [mem_sdiff,mem_biUnion,mem_erase]
    constructor
    · rintro ⟨⟨a,ha,hp⟩,hnot⟩
      refine ⟨a,⟨?_,ha⟩,hp⟩
      rintro rfl
      exact hnot hp
    · rintro ⟨a,⟨hne,ha⟩,hp⟩
      exact ⟨⟨a,ha,hp⟩,disjoint_left.mp (h.disjoint a ha call hcall hne) hp⟩
  · show d.nPieces = (d.keys ∪ d.cmds call).card
    rw [hsame,h.nPieces]
  · show d.nPiecesAck+(d.cmds call).card = (d.acked ∪ d.cmds call).card
    rw [card_union_of_disjoint hacked,h.nPiecesAck]
  · intro p hp
    by_cases hmem : p ∈ d.cmds call
    · exact mem_union_right _ hmem
    · have hp : (if p ∈ d.cmds call then some (out p) else d.outputs p).isSome := hp
      rw [if_neg hmem] at hp
      exact mem_union_left _ (h.outputs p hp)

theorem congr (hid : d'.id = d.id) (hphase : d'.phase = d.phase)
    (hnet : d'.net = d.net) (hcalls : d'.nDispatch = d.nDispatch)
    (hacks : d'.nDispatchAck = d.nDispatchAck) (hpieces : d'.toPieces = d.toPieces) :
    Ledger d' L := by
  obtain ⟨c,P⟩ := d'
  obtain rfl : P = d.toPieces := hpieces
  refine {h with current := ?_, event := ?_, pending := ?_, calls := ?_}
  · rw [hid,hphase]
    exact h.current
  · rw [hnet]
    exact h.event
  · rw [hnet]
    exact h.pending
  · rw [hcalls,hacks]
    exact h.calls

end Ledger

end Books

/-! ### Runs -/

/-- In the dispatch stage the books are in order; in the others no dispatch is on its way. -/
structure Inv (d : Dispatcher V) : Prop where
  sound : Sound d.toCoordinator
  ledger : d.phase%4 = 1 → ∃ L, Ledger d L
  answered : d.phase%4 ≠ 1 → ∀ call ∈ d.net.outstanding, call.kind ≠ .dispatch
  started : d.wait ≠ .idle → d.keys ≠ ∅ ∧ d.nDispatch ≠ 0

theorem takenIds_ne_empty (h : d.ready ≠ []) : d.takenIds ≠ ∅ := by
  obtain ⟨p,l,hl⟩ := exists_cons_of_ne_nil h
  refine nonempty_iff_ne_empty.mp ⟨p.1,mem_takenIds.mpr ⟨p.2,?_⟩⟩
  simp [taken,hl,parallelDispatch]

theorem parts_ne_nil (h : d.ready ≠ []) : parts d.ready ≠ [] := by
  obtain ⟨p,l,hl⟩ := exists_cons_of_ne_nil h
  refine ne_nil_of_mem (a:=p.2) (mem_parts.mpr ⟨p.1,?_⟩)
  simp [taken,hl,parallelDispatch]

theorem Inv.start (hphase : d.phase%4 = 0)
    (hnone : ∀ call ∈ d.net.outstanding, call.kind ≠ .dispatch) (hfirst : First pieces)
    (hsound : Sound (dispatched {reset d pieces with phase := d.phase+1}).toCoordinator) :
    Inv (dispatched {reset d pieces with phase := d.phase+1}) := by
  have hready : ({reset d pieces with phase := d.phase+1} : Dispatcher V).ready ≠ [] :=
    inOrder_ne_nil hfirst.1
  refine ⟨hsound,fun _ => ?_,fun hne => ?_,fun _ => ⟨?_,?_⟩⟩
  · exact ⟨_,Ledger.start (d:={d with phase := d.phase+1}) hnone hfirst.2⟩
  · have hne : (d.phase+1)%4 ≠ 1 := hne
    omega
  · intro hempty
    exact takenIds_ne_empty hready (union_eq_empty.mp hempty).2
  · have hlength : 0+(parts (inOrder pieces)).length ≠ 0 := by
      rw [Nat.zero_add]
      exact fun hzero => parts_ne_nil hready (length_eq_zero_iff.mp hzero)
    exact hlength

theorem Inv.doTxAsync (h : Inv d) (hwait : d.wait = .idle) (hfirst : First pieces) (flag : Bool) :
    ∃ d', d.doTxAsync maxRetry pieces flag = some d' ∧ Inv d' := by
  have hphase : d.phase%4 = 0 := by
    have hstage := h.sound.stage
    rwa [hwait] at hstage
  have hforget : d.toCoordinator.doTxAsync maxRetry (parts (inOrder pieces)) flag = some _ :=
    forget_init (d:=reset {d with toCoordinator := d.toCoordinator.newRequest flag} pieces) 2 hphase
  refine ⟨_,gotoNextPhase_init (d:=reset _ pieces) 2 hphase (inOrder_ne_nil hfirst.1),?_⟩
  exact Inv.start (d:={d with toCoordinator := d.toCoordinator.newRequest flag}) hphase
    (h.answered (by omega)) hfirst (sound_of_doTxAsync h.sound hwait hforget)

theorem Inv.next (hphase : d.phase%4 = 0)
    (hnone : ∀ call ∈ d.net.outstanding, call.kind ≠ .dispatch) (hfirst : First pieces)
    (hsound : Sound d'.toCoordinator) (hshape : Ended d d' ∨ d' = retried d pieces) : Inv d' := by
  obtain hended | rfl := hshape
  · refine ⟨hsound,fun hone => ?_,fun _ => ?_,fun hwait => absurd hended.wait hwait⟩
    · rw [hended.phase,hphase] at hone
      exact absurd hone (by decide)
    · rw [hended.outstanding]
      exact hnone
  · exact Inv.start (d:={d with toCoordinator := d.toCoordinator.renew}) hphase hnone hfirst hsound

/-- A successful dispatch leaves no piece to be sent; after a reject the coroutine goes on when the
replies of the attempt are in, and starts a fifth attempt at most. -/
def Prompt (d : Dispatcher V) : PieceLabel V → Prop
  | .reply call res _ enabled =>
    call.kind = .dispatch → res = .SUCCESS → d.ready = [] ∧ enabled = []
  | .resume _ =>
    match d.wait with
    | .dispatch _ =>
      d.aborted = true → d.nRetry < 4 ∧ ∀ call ∈ d.net.outstanding, call.kind ≠ .dispatch
    | .finish _ => d.aborted = true → d.nRetry < 4
    | _ => True
  | _ => True

instance (d : Dispatcher V) (l : PieceLabel V) : Decidable (d.Prompt l) := by
  cases l with
  | resume pieces =>
    unfold Prompt
    dsimp only
    split <;> infer_instance
  | reply call res out enabled => exact inferInstanceAs (Decidable (_ → _ → _ ∧ _))
  | doTxAsync pieces flag => exact isTrue trivial

theorem send_outstanding {n : Net} {tid : TxId} {pars : List ParId} {phase : ℕ}
    (hkind : kind ≠ .dispatch) (hnone : ∀ call ∈ n.outstanding, call.kind ≠ .dispatch) :
    ∀ call ∈ (n.send kind tid pars phase).outstanding, call.kind ≠ .dispatch := by
  intro call hcall
  obtain hcall | ⟨q,_,rfl⟩ := mem_send_outstanding.mp hcall
  · exact hnone call hcall
  · exact hkind

theorem Inv.stage (h : Inv d) (hwait : d.wait = w) : Stage d.toCoordinator w :=
  hwait ▸ h.sound.stage

theorem Inv.resume_dispatch (h : Inv d) (hwait : d.wait = .dispatch e)
    (hready : (d.ints e).2 ≤ (d.ints e).1) (hfirst : First pieces)
    (hprompt : d.aborted = true → d.nRetry < 4 ∧ ∀ call ∈ d.net.outstanding, call.kind ≠ .dispatch) :
    ∃ d', afterDispatch maxRetry d pieces = some d' ∧ Inv d' := by
  obtain ⟨_,hstage⟩ := h.stage hwait
  have hphase := hstage.phase
  obtain ⟨L,hL⟩ := h.ledger hphase
  have hafter : d.afterDispatch maxRetry pieces =
      if d.nDispatchAck = d.nDispatch ∨ d.aborted = true then
        gotoNextPhase maxRetry pieces depth d
      else some {d with wait := .stuck} := by
    rw [afterDispatch,hL.allDispatchAcked,Option.bind_some]
    simp only [Bool.or_eq_true,decide_eq_true_eq]
  have hresume : d.toCoordinator.resume maxRetry (parts (inOrder pieces)) =
      if d.nDispatchAck = d.nDispatch ∨ d.aborted = true then
        Coordinator.gotoNextPhase maxRetry (parts (inOrder pieces)) Coordinator.depth d.toCoordinator
      else some {d.toCoordinator with wait := .stuck} := by
    simp only [Coordinator.resume,hwait]
    rw [if_pos hready]
    rfl
  have hsound : ∀ t, d.toCoordinator.resume maxRetry (parts (inOrder pieces)) = some t →
      Sound t := fun t => sound_of_resume h.sound
  rw [hresume] at hsound
  rw [hafter]
  split_ifs at hsound ⊢ with hgo
  · obtain ⟨d',hd',hc',hshape⟩ := gotoNextPhase_spec maxRetry 0 hphase hstage.committed
      (fun ha => (hprompt ha).1) hfirst.1
    refine ⟨d',hd',?_⟩
    have hs := hsound _ hc'
    obtain ⟨ha,rfl⟩ | ⟨ha,hshape⟩ := hshape
    · -- all calls are answered with success, so nothing is pending
      have hnone : ∀ call ∈ d.net.outstanding, call.kind ≠ .dispatch := by
        intro call hcall hkind
        have hcalls := hL.calls
        have hpos : 0 < L.card := card_pos.mpr ⟨call,hL.pending call hcall hkind⟩
        simp only [ha,Bool.false_eq_true,or_false] at hgo
        omega
      have hthree : (d.phase+2)%4 = 3 := by omega
      refine ⟨hs,fun hone => ?_,fun _ => send_outstanding Kind.noConfusion hnone,
        fun _ => h.started (by rw [hwait]; exact Wait.noConfusion)⟩
      exact absurd (hthree.symm.trans hone) (by decide)
    · have hzero : (d.phase+3)%4 = 0 := by omega
      exact Inv.next (d:=d.earlyAborted) hzero
        (send_outstanding Kind.noConfusion (hprompt ha).2) hfirst hs hshape
  · exact ⟨_,rfl,hsound _ rfl,fun _ => ⟨L,hL.congr rfl rfl rfl rfl rfl rfl⟩,
      fun hne => absurd hphase hne,fun _ => h.started (by rw [hwait]; exact Wait.noConfusion)⟩

theorem Inv.resume_prepare (h : Inv d) (hwait : d.wait = .prepare e)
    (hready : (d.ands e).all (0 < ·.2) = true) : ∃ d', afterPrepare d = some d' ∧ Inv d' := by
  obtain ⟨_,hstage⟩ := h.stage hwait
  have hphase := hstage.phase
  obtain ⟨hkeys,hsent⟩ := h.started (by rw [hwait]; exact Wait.noConfusion)
  obtain ⟨d',hd',hc',hf⟩ := afterPrepare_spec hphase hkeys hsent hstage.committed hstage.rejected
  have hresume : d.toCoordinator.resume 0 [] = some d'.toCoordinator := by
    simp only [Coordinator.resume,hwait]
    rw [if_pos hready,hc']
  refine ⟨d',hd',sound_of_resume h.sound hresume,fun hone => ?_,fun _ call hcall hkind => ?_,
    fun _ => ?_⟩
  · rw [hf.phase] at hone
    omega
  · exact h.answered (by omega) call (hf.outstanding call hcall hkind) hkind
  · rw [hf.keys,hf.nDispatch]
    exact ⟨hkeys,hsent⟩

theorem Inv.resume_finish (h : Inv d) (hwait : d.wait = .finish e)
    (hready : (d.ands e).all (0 < ·.2) = true) (hfirst : First pieces)
    (hprompt : d.aborted = true → d.nRetry < 4) :
    ∃ d', afterCommit maxRetry d pieces = some d' ∧ Inv d' := by
  obtain ⟨_,hstage⟩ := h.stage hwait
  have hphase := hstage.phase
  have hnone := h.answered (by omega)
  -- the flags are set already
  have hflags : (if d.res = .REJECT then {d with aborted := true}
      else {d with committed := true}) = d ∧ d.committed ≠ d.aborted := by
    by_cases hres : d.res = .REJECT
    · obtain ⟨hc,ha,_⟩ := hstage.aborted hres
      have hsame : ({d with aborted := true} : Dispatcher V) = d := by rw [← ha]
      exact ⟨(if_pos hres).trans hsame,by simp [hc,ha]⟩
    · have hsuccess : d.res = .SUCCESS := by
        cases hd : d.res with
        | SUCCESS => rfl
        | REJECT => exact absurd hd hres
      obtain ⟨hc,ha,_⟩ := hstage.committed hsuccess
      have hsame : ({d with committed := true} : Dispatcher V) = d := by rw [← hc]
      exact ⟨(if_neg hres).trans hsame,by simp [hc,ha]⟩
  obtain ⟨d',hd',hc',hshape⟩ := caseCommit_spec maxRetry 2 hphase hflags.2 hprompt hfirst.1
  have hresume : d.toCoordinator.resume maxRetry (parts (inOrder pieces)) =
      some d'.toCoordinator := by
    have hsame : (if d.res = .REJECT then {d.toCoordinator with aborted := true}
        else {d.toCoordinator with committed := true}) = d.toCoordinator := by
      refine Eq.trans ?_ (congrArg toCoordinator hflags.1)
      split_ifs <;> rfl
    simp only [Coordinator.resume,hwait]
    rw [if_pos hready,Coordinator.afterCommit,hsame]
    exact hc'
  refine ⟨d',?_,Inv.next hphase hnone hfirst (sound_of_resume h.sound hresume) hshape⟩
  rw [afterCommit,hflags.1]
  exact hd'

theorem Inv.resume (h : Inv d) (hready : d.EventReady) (hfirst : First pieces)
    (hprompt : d.Prompt (.resume pieces)) :
    ∃ d', d.resume maxRetry pieces = some d' ∧ Inv d' := by
  unfold EventReady at hready
  unfold Prompt at hprompt
  unfold Dispatcher.resume
  cases hwait : d.wait with
  | idle | stuck => simp [hwait] at hready
  | dispatch e =>
    simp only [hwait] at hready hprompt ⊢
    exact h.resume_dispatch hwait hready hfirst hprompt
  | prepare e =>
    simp only [hwait] at hready ⊢
    exact h.resume_prepare hwait hready
  | finish e =>
    simp only [hwait] at hready hprompt ⊢
    exact h.resume_finish hwait hready hfirst hprompt

section Replies

variable {call : Call} {res : Res} {out : ℕ → V} {enabled : List (ℕ × ParId)}

theorem Inv.dispatch_current (h : Inv d) (hcall : call ∈ d.net.outstanding)
    (hkind : call.kind = .dispatch) :
    ∃ L, Ledger d L ∧ call ∈ L ∧ call.tid = d.id ∧ call.phase = d.phase ∧ d.phase%4 = 1 := by
  by_cases hphase : d.phase%4 = 1
  · obtain ⟨L,hL⟩ := h.ledger hphase
    have hmem := hL.pending call hcall hkind
    exact ⟨L,hL,hmem,(hL.current call hmem).2.1,(hL.current call hmem).2.2,hphase⟩
  · exact absurd hkind (h.answered hphase call hcall)

variable (res) (out) (enabled) in
theorem onReply_other_kind (hkind : call.kind ≠ .dispatch) : ∃ c,
    d.toCoordinator.onReply call res false = some c ∧
    d.onReply call res out enabled = some {d with toCoordinator := c} ∧
    c.id = d.id ∧ c.phase = d.phase ∧ c.net = d.net ∧ c.nDispatch = d.nDispatch ∧
    c.nDispatchAck = d.nDispatchAck ∧ c.wait = d.wait := by
  have hon : d.onReply call res out enabled =
      (d.toCoordinator.onReply call res false).map fun c => {d with toCoordinator := c} := by
    cases hk : call.kind with
    | dispatch => exact absurd hk hkind
    | _ => simp only [onReply,hk]
  rw [hon]
  cases hk : call.kind with
  | dispatch => exact absurd hk hkind
  | earlyAbort =>
    simp only [Coordinator.onReply,hk]
    exact ⟨_,rfl,rfl,rfl,rfl,rfl,rfl,rfl,rfl⟩
  | _ =>
    cases res <;> simp only [Coordinator.onReply,hk] <;> split_ifs <;>
      exact ⟨_,rfl,rfl,rfl,rfl,rfl,rfl,rfl,rfl⟩

theorem Inv.reply_other (h : Inv d) (hcall : call ∈ d.net.outstanding)
    (hkind : call.kind ≠ .dispatch) :
    ∃ d', d.handle maxRetry (.reply call res out enabled) = some d' ∧ Inv d' := by
  obtain ⟨c,hc,hd',hid,hphase,hnet,hcalls,hacks,hwait⟩ := onReply_other_kind
    (d:={d with net := d.net.reply call res}) res out enabled hkind
  refine ⟨_,hd',sound_of_reply h.sound hcall hc,fun hone => ?_,fun hne a ha => ?_,fun hw => ?_⟩
  · obtain ⟨L,hL⟩ := h.ledger (hphase ▸ hone)
    exact ⟨L,(hL.reply call res).congr hid hphase hnet hcalls hacks rfl⟩
  · rw [hnet] at ha
    exact h.answered (hphase ▸ hne) a (mem_of_mem_erase ha)
  · have hstarted := h.started (hwait ▸ hw)
    exact ⟨hstarted.1,fun hzero => hstarted.2 (hcalls.symm.trans hzero)⟩

theorem Inv.reply_reject (h : Inv d) (hcall : call ∈ d.net.outstanding)
    (hkind : call.kind = .dispatch) :
    ∃ d', d.handle maxRetry (.reply call .REJECT out enabled) = some d' ∧ Inv d' := by
  obtain ⟨L,hL,_,_,hcphase,hphase⟩ := h.dispatch_current hcall hkind
  let c : Coordinator := {d.toCoordinator with
    net := d.net.reply call .REJECT
    aborted := true
    commitFlag := false
    ints := Function.update d.ints call.event ((d.ints call.event).2,(d.ints call.event).2)}
  have hreply : Coordinator.onReply {d.toCoordinator with net := d.net.reply call .REJECT} call
      .REJECT false = some c := by
    simp only [Coordinator.onReply,hkind,hcphase,ne_eq,not_true_eq_false,if_false,c]
  refine ⟨{d with toCoordinator := c},?_,sound_of_reply h.sound hcall hreply,
    fun _ => ⟨L,(hL.reply call .REJECT).congr rfl rfl rfl rfl rfl rfl⟩,
    fun hne => absurd hphase hne,h.started⟩
  simp only [handle,onReply,hkind]
  exact congrArg (Option.map _) hreply

theorem Inv.reply_success (h : Inv d) (hcall : call ∈ d.net.outstanding)
    (hkind : call.kind = .dispatch) (hready : d.ready = []) (henabled : enabled = []) :
    ∃ d', d.handle maxRetry (.reply call .SUCCESS out enabled) = some d' ∧ Inv d' := by
  obtain ⟨L,hL,hmem,_,hcphase,hphase⟩ := h.dispatch_current hcall hkind
  let r : Dispatcher V := {d with net := d.net.reply call .SUCCESS}
  have hforget : r.toCoordinator.onReply call .SUCCESS false =
      some (r.merge call out enabled).toCoordinator := by
    have hsame : call.phase = r.phase := hcphase
    simp only [Coordinator.onReply,hkind,hsame,ne_eq,not_true_eq_false,Bool.false_eq_true,or_self,
      if_false]
    rfl
  refine ⟨r.merge call out enabled,?_,sound_of_reply h.sound hcall hforget,fun _ => ⟨L.erase call,?_⟩,
    fun hne => absurd hphase hne,fun hwait => ?_⟩
  · have hok : ¬(call.phase ≠ r.phase ∨ ∃ p ∈ r.cmds call, (r.outputs p).isSome) := by
      rintro (hne | hout)
      · exact hne hcphase
      · exact hL.outputs_none hmem hout
    have hnone : (r.merge call out enabled).ready = [] := by
      show inOrder (d.ready++enabled) = []
      rw [hready,henabled]
      rfl
    simp only [handle,onReply,hkind]
    exact (if_neg hok).trans (if_pos hnone)
  · exact (hL.reply call .SUCCESS).merge hmem h.sound.coherent.nodup.not_mem_erase out enabled
  · obtain ⟨hkeys,hcalls⟩ := h.started hwait
    exact ⟨fun hempty => hkeys (union_eq_empty.mp hempty).1,hcalls⟩

theorem Inv.handle (h : Inv d) {l : PieceLabel V} (hl : d.Enabled l) (hprompt : d.Prompt l) :
    ∃ d', d.handle maxRetry l = some d' ∧ Inv d' := by
  cases l with
  | doTxAsync pieces flag => exact h.doTxAsync hl.1 hl.2 flag
  | resume pieces => exact h.resume hl.1 hl.2 hprompt
  | reply call res out enabled =>
    by_cases hkind : call.kind = .dispatch
    · cases res with
      | SUCCESS =>
        obtain ⟨hready,henabled⟩ := hprompt hkind rfl
        exact h.reply_success hl hkind hready henabled
      | REJECT => exact h.reply_reject hl hkind
    · exact h.reply_other hl hkind

theorem Inv.reply_earlier (h : Inv d) (hcall : call ∈ d.net.outstanding) (htid : call.tid ≠ d.id)
    (hd' : d.handle maxRetry (.reply call res out enabled) = some d') :
    d'.toPieces = d.toPieces ∧ d'.aborted = d.aborted := by
  have hkind : call.kind ≠ .dispatch := by
    intro hkind
    obtain ⟨_,_,_,hid,_⟩ := h.dispatch_current hcall hkind
    exact htid hid
  have hsent := h.sound.coherent.sent call hcall
  have hprepare : call.kind = .dispatch ∨ call.kind = .prepare → call.phase ≠ d.phase := by
    rintro (hk | hk) hphase
    · exact hkind hk
    · have hthree : d.phase%4 = 3 := by
        rw [← hphase,h.sound.coherent.phase call hsent,hk]
        rfl
      obtain ⟨e,_,hp,_⟩ := h.sound.stage.preparing hthree
      exact htid (hp.current call hsent hk hphase).1
  obtain ⟨c,hc,hon,_⟩ := onReply_other_kind (d:={d with net := d.net.reply call res}) res out
    enabled hkind
  obtain rfl := Option.some.inj (hon.symm.trans hd')
  obtain rfl | ⟨_,_,rfl⟩ := onReply_other (c:={d.toCoordinator with net := d.net.reply call res})
    hprepare hc
  · exact ⟨rfl,rfl⟩
  · exact ⟨rfl,rfl⟩

end Replies

theorem inv_initial (k : TxId) : Inv (initial k : Dispatcher V) where
  sound := sound_initial k
  ledger hone := nomatch (show (0 : ℕ) = 1 from hone)
  answered _ call hcall := nomatch (show call ∈ [] from hcall)
  started hwait := absurd rfl hwait

theorem inv_of_prompt (h : ReachableBy (pieceSystem V maxRetry) Prompt d) : Inv d := by
  obtain ⟨d₀,⟨k,rfl⟩,hrun⟩ := h
  refine Run.invariant (fun s l t hprompt hinv hstep => ?_) hrun (inv_initial k)
  simp only [pieceSystem] at hstep
  split_ifs at hstep with henabled
  obtain ⟨t',ht',hinv'⟩ := hinv.handle henabled hprompt
  rw [ht'] at hstep
  exact Option.some.inj hstep ▸ hinv'

/-- If the dispatches leave no piece to be sent, and the coroutine goes on after a rejected one
only when the others are answered and at most four aborts happened before: no check fails, the
dispatches on their way are of the current attempt, and a reply of an earlier one changes nothing
of it. -/
theorem dispatch_replies_in_time (maxRetry : ℤ) {d : Dispatcher V}
    (h : ReachableBy (pieceSystem V maxRetry) Prompt d) :
    (∀ l, d.Enabled l → d.Prompt l → ∃ d', d.handle maxRetry l = some d') ∧
    (∀ call ∈ d.net.outstanding, call.kind = .dispatch → call.tid = d.id ∧ call.phase = d.phase) ∧
    ∀ call ∈ d.net.outstanding, call.tid ≠ d.id → ∀ res out enabled d',
      d.handle maxRetry (.reply call res out enabled) = some d' →
      d'.toPieces = d.toPieces ∧ d'.aborted = d.aborted := by
  have hinv := inv_of_prompt h
  refine ⟨fun l hl hprompt => ?_,fun call hcall hkind => ?_,
    fun call hcall htid res out enabled d' => hinv.reply_earlier hcall htid⟩
  · obtain ⟨d',hd',_⟩ := hinv.handle hl hprompt
    exact ⟨d',hd'⟩
  · obtain ⟨_,_,_,hid,hphase,_⟩ := hinv.dispatch_current hcall hkind
    exact ⟨hid,hphase⟩

/-- One of two partitions rejects the first attempt after the other accepted it; the early aborts
are on their way when the second starts. -/
def rejectedOnce : Dispatcher ℕ :=
  after (pieceSystem ℕ 3) Prompt (initial 1)
    [.doTxAsync [(1,10),(2,20),(3,20)] true,.reply ⟨.dispatch,1,20,1,0⟩ .SUCCESS (fun p => p) [],
      .reply ⟨.dispatch,1,10,1,0⟩ .REJECT (fun p => p) [],.resume [(1,10),(2,20),(3,20)],
      .reply ⟨.dispatch,2,10,5,2⟩ .SUCCESS (fun p => p) []]

theorem dispatch_replies_in_time_retry :
    ReachableBy (pieceSystem ℕ 3) Prompt rejectedOnce ∧ rejectedOnce.id = 2 ∧
    rejectedOnce.acked = {1} ∧ rejectedOnce.keys = {1,2,3} ∧
    (⟨.earlyAbort,1,20,3,1⟩ : Call) ∈ rejectedOnce.net.outstanding ∧
    ∀ d', rejectedOnce.handle 3 (.reply ⟨.earlyAbort,1,20,3,1⟩ .SUCCESS (fun p => p) []) = some d' →
      d'.toPieces = rejectedOnce.toPieces ∧ d'.aborted = rejectedOnce.aborted := by
  have hrun : ReachableBy (pieceSystem ℕ 3) Prompt rejectedOnce :=
    ⟨_,⟨1,rfl⟩,run_after _ _⟩
  have hcall : (⟨.earlyAbort,1,20,3,1⟩ : Call) ∈ rejectedOnce.net.outstanding := by decide +kernel
  exact ⟨hrun,by decide +kernel,by decide +kernel,by decide +kernel,hcall,fun d' =>
    (dispatch_replies_in_time 3 hrun).2.2 _ hcall (by decide +kernel) _ _ _ d'⟩

/-- The same rejection, with the other reply still on its way when the coroutine goes on. -/
def leftBehind : Dispatcher ℕ :=
  after (pieceSystem ℕ 3) (fun _ _ => True) (initial 1)
    [.doTxAsync [(1,10),(2,20),(3,20)] true,.reply ⟨.dispatch,1,10,1,0⟩ .REJECT (fun p => p) [],
      .resume [(1,10),(2,20),(3,20)]]

def onePiece : Dispatcher ℕ :=
  after (pieceSystem ℕ 3) (fun _ _ => True) (initial 1) [.doTxAsync [(1,10)] true]

theorem late_reply_fails : Reachable (pieceSystem ℕ 3) leftBehind ∧ leftBehind.id = 2 ∧
    leftBehind.Enabled (.reply ⟨.dispatch,1,20,1,0⟩ .SUCCESS (fun p => p) []) ∧
    leftBehind.handle 3 (.reply ⟨.dispatch,1,20,1,0⟩ .SUCCESS (fun p => p) []) = none ∧
    Reachable (pieceSystem ℕ 3) onePiece ∧
    onePiece.Enabled (.reply ⟨.dispatch,1,10,1,0⟩ .SUCCESS (fun p => p) [(2,20)]) ∧
    onePiece.handle 3 (.reply ⟨.dispatch,1,10,1,0⟩ .SUCCESS (fun p => p) [(2,20)]) = none := by
  refine ⟨⟨_,⟨1,rfl⟩,run_after _ _⟩,by decide +kernel,by decide +kernel,?_,
    ⟨_,⟨1,rfl⟩,run_after _ _⟩,by decide +kernel,?_⟩
  · rw [← Option.isNone_iff_eq_none]
    decide +kernel
  · rw [← Option.isNone_iff_eq_none]
    decide +kernel

end Dispatcher

end Janus.ClassicCoordinator
