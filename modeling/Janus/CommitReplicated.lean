import Janus.Transition

/-! The replicated commit path of the classic scheduler. `Next` hands a replica the prepares,
commits and batches of commits in its log. With Copilot each commit stands in two logs, so
`commit_result` remembers that it was executed; `CopilotServer::removeCmd` destroys the records of
old entries. -/
namespace Janus.CommitReplicated

open Function List Option Transition

abbrev TxId := ℕ

def SUCCESS : ℤ := 0
def REJECT : ℤ := -10

/-- What the derived schedulers choose: whether pieces run straight on the tables (`SchedulerNone`)
or are staged, which pieces touch a row, and the answers of `DispatchPiece` and `DoPrepare`. -/
structure Protocol (P : Type*) where
  direct : Bool
  queries : P → Bool
  dispatchPiece : TxId → P → Bool
  doPrepare : TxId → Bool

/-- The record of a transaction. `mdbTxn` says that the pointer to its memdb
transaction is set. -/
structure TxClassic (P : Type*) where
  cmd : Option (List P) := none
  isLeaderHint : Bool := false
  prepareResult : Option Bool := none
  commitResult : Bool := false
  committed : Bool := false
  aborted : Bool := false
  mdbTxn : Bool := false

structure TpcCommitCommand (P : Type*) where
  txId : TxId
  ret : ℤ
  cmd : Option (List P)

inductive Command (P : Type*)
  | prepare (txId : TxId) (cmd : Option (List P))
  | commit (c : TpcCommitCommand P)
  | empty
  | batch (cmds : List (TpcCommitCommand P))
  | noop

def Command.commits {P : Type*} : Command P → List (TpcCommitCommand P)
  | .commit c => [c]
  | .batch cmds => cmds
  | _ => []

/-- `applied` lists the transactions whose effects the commands have put into the tables, one entry
for each time. -/
structure Scheduler (P : Type*) where
  dtxns : TxId → Option (TxClassic P)
  mdbTxns : TxId → Bool
  applied : List TxId

variable {P : Type*} (p : Protocol P)

namespace Scheduler

def getOrCreateTx (s : Scheduler P) (tid : TxId) : TxClassic P := (s.dtxns tid).getD {}

def put (s : Scheduler P) (tid : TxId) (tx : TxClassic P) : Scheduler P :=
  {s with dtxns := update s.dtxns tid (some tx)}

def destroyTx (s : Scheduler P) (tid : TxId) : Scheduler P :=
  {s with dtxns := update s.dtxns tid none}

def ready (s : Scheduler P) (tid : TxId) : Bool := (s.getOrCreateTx tid).commitResult

end Scheduler

def reached (tid : TxId) : List P → List P
  | [] => []
  | piece::rest => if p.dispatchPiece tid piece then piece::reached tid rest else [piece]

variable (s : Scheduler P)

/-- The loop of `Dispatch`. The first row a piece touches makes the record fetch or create its
memdb transaction. -/
def dispatchPieces (tid : TxId) (tx : TxClassic P) (cmd : List P) :
    Scheduler P × TxClassic P :=
  if (reached p tid cmd).any p.queries then
    ({s with mdbTxns := update s.mdbTxns tid true},{tx with mdbTxn := true})
  else (s,tx)

def onDispatch (tid : TxId) (cmd : List P) : Scheduler P :=
  let tx := s.getOrCreateTx tid
  let r := dispatchPieces p s tid {tx with cmd := some (tx.cmd.getD []++cmd)} cmd
  r.1.put tid r.2

def lead (tid : TxId) : Scheduler P :=
  s.put tid {s.getOrCreateTx tid with isLeaderHint := true}

def prepareReplicated (tid : TxId) (cmd : Option (List P)) : Scheduler P :=
  let tx := s.getOrCreateTx tid
  let tx := {tx with cmd := tx.cmd.or cmd}
  if tx.isLeaderHint then s.put tid {tx with prepareResult := some (p.doPrepare tid)}
  else s.put tid tx

def removeMTxn (tid : TxId) (tx : TxClassic P) :
    Option (Scheduler P × TxClassic P) :=
  if s.mdbTxns tid && tx.mdbTxn then
    some ({s with mdbTxns := update s.mdbTxns tid false},{tx with mdbTxn := false})
  else none

def doCommit (tid : TxId) (tx : TxClassic P) :
    Option (Scheduler P × TxClassic P) :=
  (removeMTxn s tid tx).map fun r =>
    ({r.1 with applied := if p.direct then r.1.applied else r.1.applied++[tid]},r.2)

def doAbort (tid : TxId) (tx : TxClassic P) :
    Option (Scheduler P × TxClassic P) := removeMTxn s tid tx

def onEarlyAbort (tid : TxId) : Option (Scheduler P) :=
  (doAbort s tid (s.getOrCreateTx tid)).map fun r => r.1.put tid r.2

/-- The end of `CommitReplicated`: commit or abort, and raise `commit_result`. -/
def conclude (tid : TxId) (tx : TxClassic P) (ret : ℤ) : Option (Scheduler P) :=
  let r :=
    if ret = SUCCESS then doCommit p s tid {tx with committed := true}
    else if ret = REJECT then doAbort s tid {tx with aborted := true}
    else none
  r.map fun r => r.1.put tid {r.2 with commitResult := true}

def commitReplicated (c : TpcCommitCommand P) : Option (Scheduler P) :=
  let tx := s.getOrCreateTx c.txId
  if tx.commitResult then some (s.put c.txId tx)
  else
    let tx := {tx with cmd := tx.cmd.or c.cmd}
    if tx.isLeaderHint then conclude p s c.txId tx c.ret
    else if c.ret = REJECT then some (s.put c.txId {tx with commitResult := true})
    else
      match tx.cmd with
      | none => none
      | some cmd =>
        -- the record's own command object, so nothing is merged into it
        let r := dispatchPieces p s c.txId tx cmd
        let applied := if p.direct then s.applied++[c.txId] else s.applied
        conclude p {r.1 with applied := applied} c.txId r.2 c.ret

/-- `SchedulerClassic::Next`; `none` is a failed `verify`. -/
def next : Command P → Option (Scheduler P)
  | .prepare tid cmd => some (prepareReplicated p s tid cmd)
  | .commit c => commitReplicated p s c
  | .empty => some s
  | .batch cmds => cmds.foldlM (commitReplicated p) s
  | .noop => none

/-- `CopilotServer::removeCmd`, as far as the scheduler sees it. -/
def removeCmd (cmd : Command P) : Scheduler P :=
  cmd.commits.foldl (fun s c => s.destroyTx c.txId) s

/-- `CheckCommitted`: a record that is gone counts as committed. -/
def checkCommitted (c : TpcCommitCommand P) : Bool :=
  match s.dtxns c.txId with
  | none => true
  | some tx => tx.commitResult

inductive Event (P : Type*)
  | next (cmd : Command P)
  | removeCmd (cmd : Command P)
  | onDispatch (tid : TxId) (cmd : List P)
  | lead (tid : TxId)
  | onEarlyAbort (tid : TxId)

def Scheduler.step : Event P → Option (Scheduler P)
  | .next cmd => CommitReplicated.next p s cmd
  | .removeCmd cmd => some (CommitReplicated.removeCmd s cmd)
  | .onDispatch tid cmd => some (CommitReplicated.onDispatch p s tid cmd)
  | .lead tid => some (CommitReplicated.lead s tid)
  | .onEarlyAbort tid => CommitReplicated.onEarlyAbort s tid

/-- What was asked of the replica: the commit commands given so far, in order, and
the transactions of the log entries removed so far. -/
structure History (P : Type*) where
  given : List (TpcCommitCommand P)
  removed : List TxId

def History.next (h : History P) : Event P → History P
  | .next cmd => {h with given := h.given++cmd.commits}
  | .removeCmd cmd => {h with removed := h.removed++cmd.commits.map (·.txId)}
  | _ => h

def History.first (h : History P) (tid : TxId) : Option (TpcCommitCommand P) :=
  h.given.find? (·.txId == tid)

def recorded : Transition.System (Scheduler P × History P) (Event P) where
  init x := x = (⟨fun _ => none,fun _ => false,[]⟩,⟨[],[]⟩)
  step x e := (x.1.step p e).map fun s => (s,x.2.next e)

/-- No commit command is given for a transaction once a log entry that holds a commit
of it has been removed. -/
def Ok (x : Scheduler P × History P) : Event P → Prop
  | .next cmd => ∀ c ∈ cmd.commits, c.txId ∉ x.2.removed
  | _ => True

instance (x : Scheduler P × History P) (e : Event P) : Decidable (Ok x e) := by
  unfold Ok
  cases e <;> infer_instance

/-! ### Effects of one commit command -/

section effects

variable {p} {s t : Scheduler P} {tid : TxId} {tx : TxClassic P}

@[simp] theorem put_dtxns (tx : TxClassic P) :
    (s.put tid tx).dtxns = update s.dtxns tid (some tx) := rfl

@[simp] theorem put_applied (tx : TxClassic P) : (s.put tid tx).applied = s.applied := rfl

theorem ready_congr (h : t.dtxns tid = s.dtxns tid) : t.ready tid = s.ready tid := by
  simp only [Scheduler.ready,Scheduler.getOrCreateTx,h]

theorem ready_put (tx : TxClassic P) (k : TxId) :
    (s.put tid tx).ready k = if k = tid then tx.commitResult else s.ready k := by
  by_cases hk : k = tid <;>
    simp [Scheduler.ready,Scheduler.getOrCreateTx,Scheduler.put,hk]

@[simp] theorem dispatchPieces_dtxns (cmd : List P) :
    (dispatchPieces p s tid tx cmd).1.dtxns = s.dtxns := by
  unfold dispatchPieces
  split <;> rfl

@[simp] theorem dispatchPieces_applied (cmd : List P) :
    (dispatchPieces p s tid tx cmd).1.applied = s.applied := by
  unfold dispatchPieces
  split <;> rfl

@[simp] theorem dispatchPieces_commitResult (cmd : List P) :
    (dispatchPieces p s tid tx cmd).2.commitResult = tx.commitResult := by
  unfold dispatchPieces
  split <;> rfl

theorem removeMTxn_spec {r : Scheduler P × TxClassic P} (h : removeMTxn s tid tx = some r) :
    r.1.dtxns = s.dtxns ∧ r.1.applied = s.applied ∧ r.2.commitResult = tx.commitResult := by
  unfold removeMTxn at h
  split at h
  · cases h
    exact ⟨rfl,rfl,rfl⟩
  · cases h

/-- A commit writes only its own record, marks it, and applies the transaction at most once, and
only when told to commit. -/
structure Decides (s t : Scheduler P) (tid : TxId) (ret : ℤ) : Prop where
  frame : ∀ k, k ≠ tid → t.dtxns k = s.dtxns k
  ready : t.ready tid = true
  applied : t.applied = s.applied ∨ t.applied = s.applied++[tid] ∧ ret ≠ REJECT

theorem conclude_spec {ret : ℤ} (h : conclude p s tid tx ret = some t) :
    (∀ k, k ≠ tid → t.dtxns k = s.dtxns k) ∧ t.ready tid = true ∧
      t.applied = if ret = SUCCESS ∧ p.direct = false then s.applied++[tid] else s.applied := by
  obtain ⟨r,hr,rfl⟩ := map_eq_some_iff.mp h
  have hready : (r.1.put tid {r.2 with commitResult := true}).ready tid = true := by
    simp [ready_put]
  split_ifs at hr with hsuccess hreject
  · -- the staged effects reach the tables in `mdb_txn->commit()`
    obtain ⟨q,hq,rfl⟩ := map_eq_some_iff.mp hr
    obtain ⟨hd,ha,-⟩ := removeMTxn_spec hq
    refine ⟨fun k hk => ?_,hready,?_⟩
    · simp [update_of_ne hk,hd]
    · cases p.direct <;> simp [hsuccess,ha]
  · obtain ⟨hd,ha,-⟩ := removeMTxn_spec hr
    refine ⟨fun k hk => ?_,hready,?_⟩
    · simp [update_of_ne hk,hd]
    · simp [hsuccess,ha]

theorem commitReplicated_ready {c : TpcCommitCommand P} (hready : s.ready c.txId = true)
    (h : commitReplicated p s c = some t) :
    (∀ k, k ≠ c.txId → t.dtxns k = s.dtxns k) ∧ t.ready c.txId = true ∧ t.applied = s.applied := by
  have hr : (s.getOrCreateTx c.txId).commitResult = true := hready
  simp only [commitReplicated,hr,if_true,some.injEq] at h
  subst h
  exact ⟨fun k hk => update_of_ne hk _ _,by simp [ready_put,hr],rfl⟩

theorem commitReplicated_spec {c : TpcCommitCommand P} (h : commitReplicated p s c = some t) :
    Decides s t c.txId c.ret := by
  by_cases hready : (s.getOrCreateTx c.txId).commitResult = true
  · obtain ⟨hframe,hr,happlied⟩ := commitReplicated_ready hready h
    exact ⟨hframe,hr,.inl happlied⟩
  · simp only [commitReplicated,hready,if_false,Bool.false_eq_true] at h
    by_cases hlead : (s.getOrCreateTx c.txId).isLeaderHint = true
    · simp only [hlead,if_true] at h
      obtain ⟨hframe,hr,happlied⟩ := conclude_spec h
      refine ⟨hframe,hr,?_⟩
      split_ifs at happlied with hs
      · exact .inr ⟨happlied,by rw [hs.1]; decide⟩
      · exact .inl happlied
    · simp only [hlead,if_false,Bool.false_eq_true] at h
      by_cases hreject : c.ret = REJECT
      · simp only [hreject,if_true,some.injEq] at h
        subst h
        exact ⟨fun k hk => update_of_ne hk _ _,by simp [ready_put],.inl rfl⟩
      · simp only [hreject,if_false] at h
        cases hcmd : (s.getOrCreateTx c.txId).cmd.or c.cmd with
        | none => simp [hcmd] at h
        | some cmd =>
          simp only [hcmd] at h
          obtain ⟨hframe,hr,happlied⟩ := conclude_spec h
          refine ⟨by simpa using hframe,hr,?_⟩
          -- a direct protocol applies the effects in `Dispatch`, a staged one in `DoCommit`
          cases hp : p.direct with
          | true => exact .inr ⟨by simpa [hp] using happlied,hreject⟩
          | false =>
            by_cases hs : c.ret = SUCCESS
            · exact .inr ⟨by simpa [hp,hs] using happlied,hreject⟩
            · exact .inl (by simpa [hp,hs] using happlied)

end effects

/-! ### Runs -/

structure Settled (s : Scheduler P) (h : History P) (tid : TxId) : Prop where
  fresh : h.first tid = none → tid ∉ s.applied ∧ s.ready tid = false
  done : h.first tid ≠ none → tid ∉ h.removed → s.ready tid = true
  once : s.applied.count tid ≤ 1
  reject : ∀ c, h.first tid = some c → c.ret = REJECT → tid ∉ s.applied

section runs

variable {p} {s t : Scheduler P} {h : History P} {tid : TxId}

theorem Settled.congr (hs : Settled s h tid) (hready : t.ready tid = s.ready tid)
    (happlied : t.applied = s.applied) : Settled t h tid := by
  obtain ⟨hfresh,hdone,honce,hreject⟩ := hs
  refine ⟨?_,?_,?_,?_⟩
  · rwa [hready,happlied]
  · rwa [hready]
  · rwa [happlied]
  · rwa [happlied]

theorem first_append (c : TpcCommitCommand P) : History.first {h with given := h.given++[c]} tid =
      (h.first tid).or (if c.txId = tid then some c else none) := by
  by_cases hc : c.txId = tid <;>
    simp [History.first,List.find?_append,List.find?_nil,hc]

/-- One more commit command keeps every transaction settled, unless the record of
its own transaction was destroyed. -/
theorem Settled.commit {c : TpcCommitCommand P} (hs : ∀ tid, Settled s h tid)
    (hc : c.txId ∉ h.removed) (hstep : commitReplicated p s c = some t) :
    ∀ tid, Settled t {h with given := h.given++[c]} tid := by
  intro tid
  obtain ⟨hframe,hready,happlied⟩ := commitReplicated_spec hstep
  by_cases htid : c.txId = tid
  · subst htid
    obtain ⟨hfresh,hdone,honce,hreject⟩ := hs c.txId
    cases hfirst : h.first c.txId with
    | some d =>
      -- a repeated command finds the record marked and changes nothing
      have hmarked := hdone (by simp [hfirst]) hc
      obtain ⟨-,-,hsame⟩ := commitReplicated_ready hmarked hstep
      refine ⟨?_,fun _ _ => hready,hsame ▸ honce,?_⟩
      · simp [first_append,hfirst]
      · intro e he
        rw [first_append,hfirst] at he
        exact hsame ▸ hreject e (hfirst.trans he)
    | none =>
      obtain ⟨hnot,-⟩ := hfresh hfirst
      refine ⟨?_,fun _ _ => hready,?_,?_⟩
      · simp [first_append,hfirst]
      · obtain ha | ⟨ha,-⟩ := happlied
        · exact ha ▸ honce
        · simp [ha,count_eq_zero_of_not_mem hnot]
      · intro e he hret
        rw [first_append,hfirst] at he
        have hce : c = e := by simpa using he
        obtain ha | ⟨-,hne⟩ := happlied
        · exact ha ▸ hnot
        · exact absurd (hce ▸ hret) hne
  · have hfirst : History.first {h with given := h.given++[c]} tid = h.first tid := by
      simp [first_append,htid]
    have hr : t.ready tid = s.ready tid := ready_congr (hframe tid (Ne.symm htid))
    have hmem : tid ∈ t.applied ↔ tid ∈ s.applied := by
      obtain ha | ⟨ha,-⟩ := happlied
      · rw [ha]
      · simp [ha,Ne.symm htid]
    have hcount : t.applied.count tid = s.applied.count tid := by
      obtain ha | ⟨ha,-⟩ := happlied
      · rw [ha]
      · simp [ha,count_append,htid]
    obtain ⟨hfresh,hdone,honce,hreject⟩ := hs tid
    refine ⟨?_,?_,hcount ▸ honce,?_⟩
    · rw [hfirst,hr,hmem]
      exact hfresh
    · rw [hfirst,hr]
      exact hdone
    · rw [hfirst,hmem]
      exact hreject

theorem Settled.batch (cmds : List (TpcCommitCommand P)) (hs : ∀ tid, Settled s h tid)
    (hc : ∀ c ∈ cmds, c.txId ∉ h.removed)
    (hstep : cmds.foldlM (commitReplicated p) s = some t) :
    ∀ tid, Settled t {h with given := h.given++cmds} tid := by
  induction cmds generalizing s h with
  | nil =>
    obtain rfl : s = t := by simpa using hstep
    simpa using hs
  | cons c cmds ih =>
    obtain ⟨u,hu,hrest⟩ := bind_eq_some_iff.mp hstep
    have hone := Settled.commit hs (hc c mem_cons_self) hu
    have hall := ih hone (fun d hd => hc d (mem_cons_of_mem c hd)) hrest
    simpa using hall

theorem Settled.destroy (cmds : List (TpcCommitCommand P)) (hs : Settled s h tid) :
    Settled (cmds.foldl (fun s c => s.destroyTx c.txId) s)
      {h with removed := h.removed++cmds.map (·.txId)} tid := by
  induction cmds generalizing s h with
  | nil => simpa using hs
  | cons c cmds ih =>
    have hone : Settled (s.destroyTx c.txId) {h with removed := h.removed++[c.txId]} tid := by
      obtain ⟨hfresh,hdone,honce,hreject⟩ := hs
      have hready : (s.destroyTx c.txId).ready tid =
          if tid = c.txId then false else s.ready tid := by
        by_cases hk : tid = c.txId <;>
          simp [Scheduler.ready,Scheduler.getOrCreateTx,Scheduler.destroyTx,hk]
      refine ⟨fun hf => ⟨(hfresh hf).1,?_⟩,fun hf hr => ?_,honce,hreject⟩
      · rw [hready]
        split_ifs
        · rfl
        · exact (hfresh hf).2
      · simp only [mem_append,mem_singleton,not_or] at hr
        rw [hready,if_neg hr.2]
        exact hdone hf hr.1
    simpa using ih hone

theorem ready_put_self (tx : TxClassic P) (htx : tx.commitResult = s.ready tid) (k : TxId) :
    (s.put tid tx).ready k = s.ready k := by
  rw [ready_put]
  split_ifs with hk
  · rw [htx,hk]
  · rfl

theorem Settled.put {tx : TxClassic P} {k : TxId} (hs : Settled s h tid)
    (ht : t.dtxns = s.dtxns) (happlied : t.applied = s.applied)
    (htx : tx.commitResult = s.ready k) : Settled (t.put k tx) h tid := by
  have hready : ∀ j, t.ready j = s.ready j := fun j => ready_congr (congrFun ht j)
  refine hs.congr ?_ happlied
  rw [ready_put_self tx (htx.trans (hready k).symm)]
  exact hready tid

theorem settled_step (e : Event P) (hok : Ok (s,h) e) (hs : ∀ tid, Settled s h tid)
    (hstep : s.step p e = some t) : ∀ tid, Settled t (h.next e) tid := by
  cases e with
  | next cmd =>
    cases cmd with
    | prepare k cmd =>
      obtain rfl := some.inj hstep
      have hsame : h.next (.next (.prepare k cmd)) = h := by simp [History.next,Command.commits]
      rw [hsame]
      intro tid
      unfold prepareReplicated
      dsimp only
      split
      · exact (hs tid).put rfl rfl rfl
      · exact (hs tid).put rfl rfl rfl
    | commit c => exact Settled.commit hs (hok c mem_cons_self) hstep
    | empty =>
      obtain rfl := some.inj hstep
      have hsame : h.next (.next .empty) = h := by simp [History.next,Command.commits]
      rwa [hsame]
    | batch cmds => exact Settled.batch cmds hs hok hstep
    | noop => cases hstep
  | removeCmd cmd =>
    obtain rfl := some.inj hstep
    exact fun tid => Settled.destroy cmd.commits (hs tid)
  | onDispatch k cmd =>
    obtain rfl := some.inj hstep
    exact fun tid => (hs tid).put (dispatchPieces_dtxns cmd) (dispatchPieces_applied cmd)
      (dispatchPieces_commitResult cmd)
  | lead k =>
    obtain rfl := some.inj hstep
    exact fun tid => (hs tid).put rfl rfl rfl
  | onEarlyAbort k =>
    obtain ⟨r,hr,rfl⟩ := map_eq_some_iff.mp hstep
    obtain ⟨hd,ha,hc⟩ := removeMTxn_spec hr
    exact fun tid => (hs tid).put hd ha hc

theorem settled_reachable {x : Scheduler P × History P}
    (hx : Transition.ReachableBy (recorded p) Ok x) : ∀ tid, Settled x.1 x.2 tid := by
  obtain ⟨x₀,rfl,hrun⟩ := hx
  refine hrun.invariant (P:=fun x => ∀ tid, Settled x.1 x.2 tid) ?_ ?_
  · rintro ⟨s,h⟩ e y hok hs hstep
    obtain ⟨t,ht,rfl⟩ := map_eq_some_iff.mp hstep
    exact settled_step e hok hs ht
  · intro tid
    exact ⟨fun _ => ⟨by simp,rfl⟩,fun hne => absurd rfl hne,by simp,fun c hc => nomatch hc⟩

end runs

/-! ### After a removal -/

theorem removeCmd_spec (cmds : List (TpcCommitCommand P)) (s : Scheduler P) (tid : TxId) :
    let s' := cmds.foldl (fun s c => s.destroyTx c.txId) s
    (s.dtxns tid = none ∨ (∃ c ∈ cmds, c.txId = tid) → s'.dtxns tid = none) ∧
      s'.applied = s.applied := by
  induction cmds generalizing s with
  | nil => simp
  | cons c cmds ih =>
    obtain ⟨hnone,happlied⟩ := ih (s.destroyTx c.txId)
    refine ⟨fun h => hnone ?_,happlied⟩
    rcases eq_or_ne tid c.txId with rfl | hc
    · simp [Scheduler.destroyTx]
    · simpa [Scheduler.destroyTx,hc,hc.symm] using h

/-- Once the log entry of a commit is removed, `CheckCommitted` calls it executed, but the same
commit in the other log is applied again. -/
theorem removed_commit_applies (cmd : Command P) (c : TpcCommitCommand P)
    (pieces : List P) (hc : c ∈ cmd.commits) (hret : c.ret = SUCCESS)
    (hcmd : c.cmd = some pieces) (hrow : (reached p c.txId pieces).any p.queries = true) :
    checkCommitted (removeCmd s cmd) c = true ∧
      ∃ t, commitReplicated p (removeCmd s cmd) c = some t ∧ t.applied = s.applied++[c.txId] := by
  obtain ⟨hdtxns,happlied⟩ := removeCmd_spec cmd.commits s c.txId
  rw [← removeCmd] at hdtxns happlied
  have hnone := hdtxns (.inr ⟨c,hc,rfl⟩)
  have hnew : (removeCmd s cmd).getOrCreateTx c.txId = {} := by
    rw [Scheduler.getOrCreateTx,hnone]
    rfl
  have hne : ¬SUCCESS = REJECT := by decide
  refine ⟨by rw [checkCommitted,hnone],?_⟩
  cases hp : p.direct <;>
    simp [commitReplicated,hnew,hcmd,hret,hne,dispatchPieces,hrow,conclude,doCommit,removeMTxn,
      hp,happlied]

def staged : Protocol ℕ := ⟨false,fun _ => true,fun _ _ => true,fun _ => true⟩

def start : Scheduler ℕ × History ℕ := (⟨fun _ => none,fun _ => false,[]⟩,⟨[],[]⟩)

/-- Both logs hold the commits of 7 and of 8, which says `REJECT` first; the entries of the first
are removed after those of the second. -/
def twoLogs : List (Event ℕ) :=
  [.onDispatch 7 [1],.lead 7,.next (.batch [⟨7,SUCCESS,some [1]⟩,⟨8,REJECT,some [2]⟩]),
    .next (.batch [⟨8,SUCCESS,some [2]⟩,⟨7,SUCCESS,some [1]⟩]),
    .removeCmd (.batch [⟨7,SUCCESS,some [1]⟩,⟨8,REJECT,some [2]⟩])]

def removedEarly : List (Event ℕ) :=
  [.next (.batch [⟨7,SUCCESS,some [1]⟩,⟨8,REJECT,some [2]⟩]),
    .removeCmd (.batch [⟨7,SUCCESS,some [1]⟩,⟨8,REJECT,some [2]⟩]),
    .next (.commit ⟨7,SUCCESS,some [1]⟩),.next (.commit ⟨8,SUCCESS,some [2]⟩)]

end Janus.CommitReplicated
