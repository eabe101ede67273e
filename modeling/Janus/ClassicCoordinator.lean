import Janus.Transition

/-! The coordinator of the classic protocols (2PL and OCC). It runs the attempts of a client
request one after another. Its coroutine goes through dispatch, prepare and commit, and waits for
events that the callbacks of its calls raise; a callback compares the phase number it was created
with to the current one. Calls are answered in any order and at any time. -/
namespace Janus.ClassicCoordinator

open Function List Nat Option

abbrev TxId := ℕ
abbrev ParId := ℕ

inductive Kind
  | dispatch | prepare | commit | abort | earlyAbort
  deriving DecidableEq

inductive Res
  | SUCCESS | REJECT
  deriving DecidableEq

structure Call where
  kind : Kind
  tid : TxId
  par : ParId
  phase : ℕ
  event : ℕ
  deriving DecidableEq

/-- What the client was told: all transaction ids its request used, the id in the
reply, and the outcome. -/
structure Report where
  ids : List TxId
  txId : TxId
  res : Res
  deriving DecidableEq

/-- `outstanding` are the calls not answered yet; the other lists are the history: everything sent,
every answer, every report. -/
structure Net where
  outstanding : List Call
  sent : List Call
  replies : List (Call × Res)
  reports : List Report
  nextEvent : ℕ

/-- Where the coroutine of the coordinator stands: `finish` is the wait in `Commit`,
and in `stuck` it has ended without a next phase. -/
inductive Wait
  | idle
  | dispatch (event : ℕ)
  | prepare (event : ℕ)
  | finish (event : ℕ)
  | stuck
  deriving DecidableEq

structure Coordinator where
  phase : ℕ
  committed : Bool
  aborted : Bool
  /-- `commit_` of the transaction data. -/
  commitFlag : Bool
  res : Res
  nRetry : ℕ
  id : TxId
  ids : List TxId
  nextTxnId : TxId
  /-- `partition_ids_`, a set, as a list without repetition. -/
  partitions : List ParId
  /-- Counted in calls: the pieces of one call are acknowledged together. -/
  nDispatch : ℕ
  nDispatchAck : ℕ
  wait : Wait
  /-- Value and target of the integer events. -/
  ints : ℕ → ℕ × ℕ
  /-- The quorum events of the conjunctions, with their votes. -/
  ands : ℕ → List (ParId × ℕ)
  net : Net

def Net.send (n : Net) (kind : Kind) (tid : TxId) (pars : List ParId) (phase : ℕ) : Net :=
  let calls := pars.map fun q => ⟨kind,tid,q,phase,n.nextEvent⟩
  {n with outstanding := n.outstanding++calls, sent := n.sent++calls,
          nextEvent := n.nextEvent+1}

def Net.reply (n : Net) (call : Call) (res : Res) : Net :=
  {n with outstanding := n.outstanding.erase call, replies := n.replies++[(call,res)]}

namespace Coordinator

variable {maxRetry : ℤ} {pars : List ParId} {c : Coordinator}

/-- `DispatchAsync(true)` up to its wait, with the partitions of the pieces that are ready. -/
def dispatchAsync (c : Coordinator) (pars : List ParId) : Coordinator where
  __ := c
  partitions := c.partitions ∪ pars
  nDispatch := c.nDispatch+pars.length
  ints := update c.ints c.net.nextEvent (0,pars.length)
  net := c.net.send .dispatch c.id pars c.phase
  wait := .dispatch c.net.nextEvent

/-- `SendPrepare`, `SendCommit` and `SendAbort`: one call and one quorum event for each partition,
and their conjunction. -/
def sendQuorum (c : Coordinator) (kind : Kind) : Coordinator where
  __ := c
  ands := update c.ands c.net.nextEvent (c.partitions.map fun q => (q,0))
  net := c.net.send kind c.id c.partitions c.phase

def prepare (c : Coordinator) : Coordinator :=
  {c.sendQuorum .prepare with wait := .prepare c.net.nextEvent}

/-- `Commit` up to its wait. It starts with `dispatch_acks_.begin()->second = true`,
which needs that something was dispatched. -/
def commit (c : Coordinator) : Option Coordinator :=
  if c.nDispatch = 0 ∨ c.commitFlag ≠ c.committed ∨ c.committed = c.aborted then none
  else if c.committed then
    some {({c with res := .SUCCESS} : Coordinator).sendQuorum .commit with
      wait := .finish c.net.nextEvent}
  else
    some {({c with res := .REJECT} : Coordinator).sendQuorum .abort with
      wait := .finish c.net.nextEvent}

def finish (c : Coordinator) : Option Coordinator :=
  if c.committed || c.aborted then
    let res := if c.committed then Res.SUCCESS else .REJECT
    some {c with
      res := res
      wait := .idle
      net := {c.net with reports := c.net.reports++[⟨c.ids,c.id,res⟩]}}
  else none

def reset (c : Coordinator) : Coordinator :=
  {c with committed := false, aborted := false, nDispatch := 0, nDispatchAck := 0}

def resetTx (c : Coordinator) : Coordinator := {c with partitions := []}

def renew (c : Coordinator) : Coordinator :=
  {c with
    nRetry := c.nRetry+1
    id := c.nextTxnId
    ids := c.ids++[c.nextTxnId]
    nextTxnId := c.nextTxnId+1}

def restart (maxRetry : ℤ) (goto : Coordinator → Option Coordinator) (c : Coordinator) :
    Option Coordinator :=
  if c.aborted = false ∨ 5 ≤ c.nRetry+1 then none
  else if maxRetry < c.nRetry+1 ∧ 0 ≤ maxRetry then finish c.renew
  else goto c.renew.reset.resetTx

/-- `case PREPARE` of the switch, which falls through to the wait in `Commit`. -/
def casePrepare (c : Coordinator) : Option Coordinator :=
  if c.phase%4 = 3 then commit {c with phase := c.phase+1} else none

def caseCommit (maxRetry : ℤ) (goto : Coordinator → Option Coordinator) (c : Coordinator) :
    Option Coordinator :=
  if c.phase%4 ≠ 0 ∨ c.committed = c.aborted then none
  else if c.committed then finish c
  else restart maxRetry goto c

/-- `GotoNextPhase`, with a bound on its nested calls. `pars` are the partitions of
the pieces that are ready when it dispatches. -/
def gotoNextPhase (maxRetry : ℤ) (pars : List ParId) : ℕ → Coordinator → Option Coordinator
  | 0, _ => none
  | n+1, c =>
    let next : Coordinator := {c with phase := c.phase+1}
    match c.phase%4 with
    | 0 => if next.phase%4 = 1 ∧ pars.Nodup then some (next.dispatchAsync pars) else none
    | 1 =>
      if next.phase%4 ≠ 2 ∨ c.committed then none
      else if c.aborted = false then some (prepare {c with phase := c.phase+2})
      else
        -- `EarlyAbort`, which nobody waits for
        gotoNextPhase maxRetry pars n {c with
          phase := c.phase+2
          res := .REJECT
          net := c.net.send .earlyAbort c.id c.partitions (c.phase+2)}
    | 2 => casePrepare next
    | _ => caseCommit maxRetry (gotoNextPhase maxRetry pars n) next

def depth : ℕ := 3

/-- A new request: new transaction data with a fresh id. `flag` is what `commit_` of
the data happens to hold. -/
def newRequest (c : Coordinator) (flag : Bool) : Coordinator :=
  {c with
    id := c.nextTxnId
    ids := [c.nextTxnId]
    nextTxnId := c.nextTxnId+1
    partitions := []
    commitFlag := flag
    nRetry := 0}

def doTxAsync (maxRetry : ℤ) (c : Coordinator) (pars : List ParId) (flag : Bool) :
    Option Coordinator := gotoNextPhase maxRetry pars depth (c.newRequest flag).reset

def vote (c : Coordinator) (call : Call) : Coordinator :=
  let votes := (c.ands call.event).map fun v => if v.1 = call.par then (v.1,v.2+1) else v
  {c with ands := update c.ands call.event votes}

/-- The callbacks. If there are `more` pieces to send, `DispatchAsync(false)` makes an event
outside of a coroutine, which a check forbids. -/
def onReply (c : Coordinator) (call : Call) (res : Res) (more : Bool) :
    Option Coordinator :=
  match call.kind,res with
  | .dispatch,.REJECT =>
    if call.phase ≠ c.phase then none
    else
      let e := c.ints call.event
      some {c with
        aborted := true
        commitFlag := false
        ints := update c.ints call.event (e.2,e.2)}
  | .dispatch,.SUCCESS =>
    if call.phase ≠ c.phase ∨ more then none
    else
      let e := c.ints call.event
      some {c with
        nDispatchAck := c.nDispatchAck+1
        ints := update c.ints call.event (e.1+1,e.2)}
  | .prepare,.REJECT =>
    if call.phase ≠ c.phase then some c
    else some (vote {c with commitFlag := false, aborted := true} call)
  | .prepare,.SUCCESS | .commit,_ | .abort,_ =>
    if call.phase ≠ c.phase then some c else some (c.vote call)
  | .earlyAbort,_ => some c

def afterDispatch (maxRetry : ℤ) (c : Coordinator) (pars : List ParId) : Option Coordinator :=
  if c.nDispatchAck = c.nDispatch ∨ c.aborted then gotoNextPhase maxRetry pars depth c
  else some {c with wait := .stuck}

def afterPrepare (c : Coordinator) : Option Coordinator :=
  casePrepare (if c.aborted then c else {c with commitFlag := true, committed := true})

def afterCommit (maxRetry : ℤ) (c : Coordinator) (pars : List ParId) : Option Coordinator :=
  caseCommit maxRetry (gotoNextPhase maxRetry pars depth)
    (if c.res = .REJECT then {c with aborted := true} else {c with committed := true})

def resume (maxRetry : ℤ) (c : Coordinator) (pars : List ParId) : Option Coordinator :=
  match c.wait with
  | .idle | .stuck => none
  | .dispatch e => if (c.ints e).2 ≤ (c.ints e).1 then afterDispatch maxRetry c pars else none
  | .prepare e => if (c.ands e).all (0 < ·.2) then afterPrepare c else none
  | .finish e => if (c.ands e).all (0 < ·.2) then afterCommit maxRetry c pars else none

/-! The bound on the nesting is never met. -/

theorem gotoNextPhase_commit (n : ℕ) (h : c.phase%4 = 3) : gotoNextPhase maxRetry pars (n+1) c =
      caseCommit maxRetry (gotoNextPhase maxRetry pars n) {c with phase := c.phase+1} := by
  rw [gotoNextPhase]
  simp only [h]

theorem gotoNextPhase_dispatch (n : ℕ) (h : c.phase%4 = 1) : gotoNextPhase maxRetry pars (n+1) c =
      if (c.phase+1)%4 ≠ 2 ∨ c.committed then none
      else if c.aborted = false then some (prepare {c with phase := c.phase+2})
      else gotoNextPhase maxRetry pars n {c with
        phase := c.phase+2
        res := .REJECT
        net := c.net.send .earlyAbort c.id c.partitions (c.phase+2)} := by
  rw [gotoNextPhase]
  simp only [h]

theorem gotoNextPhase_depth (maxRetry : ℤ) (pars : List ParId) (n : ℕ) (c : Coordinator) :
    gotoNextPhase maxRetry pars (n+depth) c = gotoNextPhase maxRetry pars depth c := by
  have hlt : c.phase%4 < 4 := mod_lt _ (by decide)
  interval_cases h : c.phase%4 <;> simp only [depth,gotoNextPhase,h]
  · -- the early abort goes on in the last case
    have hnext : (c.phase+2)%4 = 3 := by omega
    have hnew : (c.phase+2+1)%4 = 0 := by omega
    simp [hnext,caseCommit,restart,renew,reset,resetTx,hnew]
  · have hnew : (c.phase+1)%4 = 0 := by omega
    simp [caseCommit,restart,renew,reset,resetTx,hnew]

end Coordinator

inductive Label
  | doTxAsync (pars : List ParId) (flag : Bool)
  | reply (call : Call) (res : Res) (more : Bool)
  | resume (pars : List ParId)

def Coordinator.step (maxRetry : ℤ) (c : Coordinator) : Label → Option Coordinator
  | .doTxAsync pars flag => if c.wait = .idle then c.doTxAsync maxRetry pars flag else none
  | .reply call res more =>
    if call ∈ c.net.outstanding then
      Coordinator.onReply {c with net := c.net.reply call res} call res more
    else none
  | .resume pars => c.resume maxRetry pars

def initial (k : TxId) : Coordinator where
  phase := 0
  committed := false
  aborted := false
  commitFlag := false
  res := .REJECT
  nRetry := 0
  id := 0
  ids := []
  nextTxnId := k
  partitions := []
  nDispatch := 0
  nDispatchAck := 0
  wait := .idle
  ints := fun _ => (0,0)
  ands := fun _ => []
  net := ⟨[],[],[],[],0⟩

def system (maxRetry : ℤ) : Transition.System Coordinator Label where
  init c := ∃ k, c = initial k
  step := Coordinator.step maxRetry

/-! ### What the calls say -/

def Prepared (n : Net) (tid : TxId) (q : ParId) : Prop :=
  ∃ p, p.kind = .prepare ∧ p.tid = tid ∧ p.par = q ∧ (p,Res.SUCCESS) ∈ n.replies

/-- Every partition that was sent anything for the transaction prepared it, and no
partition answered otherwise. -/
structure Agreed (n : Net) (tid : TxId) : Prop where
  prepared : ∀ b ∈ n.sent, b.tid = tid → Prepared n tid b.par
  unanimous : ∀ r ∈ n.replies, r.1.kind = .prepare → r.1.tid = tid → r.2 = .SUCCESS

def Kind.phase : Kind → ℕ
  | .dispatch => 1
  | .prepare | .earlyAbort => 3
  | .commit | .abort => 0

def Kind.aborts (k : Kind) : Prop := k = .abort ∨ k = .earlyAbort

def Uncommitted (n : Net) (tid : TxId) : Prop := ∀ a ∈ n.sent, a.kind = .commit → a.tid ≠ tid

structure Coherent (n : Net) : Prop where
  sent : ∀ a ∈ n.outstanding, a ∈ n.sent
  event : ∀ a ∈ n.sent, a.event < n.nextEvent
  phase : ∀ a ∈ n.sent, a.phase%4 = a.kind.phase
  nodup : n.outstanding.Nodup
  replied : ∀ r ∈ n.replies, r.1 ∈ n.sent ∧ r.1 ∉ n.outstanding
  unique : ∀ a ∈ n.sent, ∀ b ∈ n.sent, a.kind = .prepare → b.kind = .prepare →
    a.tid = b.tid → a.par = b.par → a = b
  agreed : ∀ a ∈ n.sent, a.kind = .commit → Agreed n a.tid
  exclusive : ∀ a ∈ n.sent, ∀ b ∈ n.sent, a.kind = .commit → b.kind.aborts → a.tid ≠ b.tid
  reported : ∀ r ∈ n.reports, r.res = .SUCCESS ↔ ∃ a ∈ n.sent, a.kind = .commit ∧ a.tid ∈ r.ids

section net

variable {n : Net} {tid : TxId} {q : ParId} {kind : Kind} {pars : List ParId} {phase : ℕ}
variable {a call : Call} {t : TxId}

theorem mem_send : a ∈ (n.send kind tid pars phase).sent ↔
    a ∈ n.sent ∨ ∃ q ∈ pars, a = ⟨kind,tid,q,phase,n.nextEvent⟩ := by
  simp only [Net.send,mem_append,List.mem_map,eq_comm]

theorem mem_send_outstanding : a ∈ (n.send kind tid pars phase).outstanding ↔
    a ∈ n.outstanding ∨ ∃ q ∈ pars, a = ⟨kind,tid,q,phase,n.nextEvent⟩ := by
  simp only [Net.send,mem_append,List.mem_map,eq_comm]

/-- The calls of one broadcast have a new event, so they are new. -/
theorem Coherent.not_sent (h : Coherent n) (q : ParId) :
    (⟨kind,tid,q,phase,n.nextEvent⟩ : Call) ∉ n.sent :=
  fun hm => (h.event _ hm).ne rfl

theorem Uncommitted.send (h : Uncommitted n t) (ht : kind = .commit → tid ≠ t) :
    Uncommitted (n.send kind tid pars phase) t := by
  intro a ha hk
  rcases mem_send.mp ha with ha | ⟨q,-,rfl⟩
  · exact h a ha hk
  · exact ht hk

theorem Agreed.send (h : Agreed n t) (hnew : t = tid → ∀ q ∈ pars, Prepared n tid q) :
    Agreed (n.send kind tid pars phase) t := by
  refine ⟨fun b hb ht => ?_,h.unanimous⟩
  rcases mem_send.mp hb with hb | ⟨q,hq,rfl⟩
  · exact h.prepared b hb ht
  · subst ht
    exact hnew rfl q hq

/-- When a commit may be sent: every partition prepared, nobody was told to abort, and
the outcome is not reported yet. -/
structure MayCommit (n : Net) (tid : TxId) (pars : List ParId) : Prop where
  agreed : Agreed n tid
  prepared : ∀ q ∈ pars, Prepared n tid q
  exclusive : ∀ b ∈ n.sent, b.kind.aborts → b.tid ≠ tid
  unreported : ∀ r ∈ n.reports, tid ∉ r.ids

theorem Coherent.send (h : Coherent n) (hpars : pars.Nodup) (hphase : phase%4 = kind.phase)
    (hprepare : kind = .prepare → ∀ a ∈ n.sent, a.kind = .prepare → a.tid ≠ tid)
    (hfree : kind ≠ .commit → Uncommitted n tid)
    (hcommit : kind = .commit → MayCommit n tid pars) :
    Coherent (n.send kind tid pars phase) where
  sent a ha := by
    rcases mem_send_outstanding.mp ha with ha | hnew
    · exact mem_send.mpr (.inl (h.sent a ha))
    · exact mem_send.mpr (.inr hnew)
  event a ha := by
    rcases mem_send.mp ha with ha | ⟨q,-,rfl⟩
    · exact (h.event a ha).trans (lt_succ_self _)
    · exact lt_succ_self _
  phase a ha := by
    rcases mem_send.mp ha with ha | ⟨q,-,rfl⟩
    · exact h.phase a ha
    · exact hphase
  nodup := by
    refine List.Nodup.append h.nodup (hpars.map fun q q' hq => ?_) fun a ha hnew => ?_
    · exact congrArg Call.par hq
    · obtain ⟨q,-,rfl⟩ := mem_map.mp hnew
      exact h.not_sent q (h.sent _ ha)
  replied r hr := by
    refine ⟨mem_send.mpr (.inl (h.replied r hr).1),fun ho => ?_⟩
    rcases mem_send_outstanding.mp ho with ho | ⟨q,-,hq⟩
    · exact (h.replied r hr).2 ho
    · exact h.not_sent q (hq ▸ (h.replied r hr).1)
  unique a ha b hb hka hkb htid hpar := by
    rcases mem_send.mp ha with ha | ⟨q,-,rfl⟩ <;> rcases mem_send.mp hb with hb | ⟨q',-,rfl⟩
    · exact h.unique a ha b hb hka hkb htid hpar
    · exact absurd htid (hprepare hkb a ha hka)
    · exact absurd htid.symm (hprepare hka b hb hkb)
    · have hq : q = q' := hpar
      rw [hq]
  agreed a ha hk := by
    rcases mem_send.mp ha with ha | ⟨q,-,rfl⟩
    · refine (h.agreed a ha hk).send fun ht => ?_
      by_cases hc : kind = .commit
      · exact (hcommit hc).prepared
      · exact absurd ht (hfree hc a ha hk)
    · exact (hcommit hk).agreed.send fun _ => (hcommit hk).prepared
  exclusive a ha b hb hk hab := by
    rcases mem_send.mp ha with ha | ⟨q,-,rfl⟩ <;> rcases mem_send.mp hb with hb | ⟨q',-,rfl⟩
    · exact h.exclusive a ha b hb hk hab
    · refine hfree ?_ a ha hk
      rintro rfl
      exact absurd hab (by simp [Kind.aborts])
    · exact ((hcommit hk).exclusive b hb hab).symm
    · subst hk
      exact absurd hab (by simp [Kind.aborts])
  reported r hr := by
    rw [h.reported r hr]
    constructor
    · rintro ⟨a,ha,hk,hid⟩
      exact ⟨a,mem_send.mpr (.inl ha),hk,hid⟩
    · rintro ⟨a,ha,hk,hid⟩
      rcases mem_send.mp ha with ha | ⟨q,-,rfl⟩
      · exact ⟨a,ha,hk,hid⟩
      · exact absurd hid ((hcommit hk).unreported r hr)

theorem mem_reply {res : Res} {r : Call × Res} :
    r ∈ (n.reply call res).replies ↔ r ∈ n.replies ∨ r = (call,res) := by
  simp [Net.reply]

theorem Prepared.reply (call : Call) (res : Res) (h : Prepared n tid q) :
    Prepared (n.reply call res) tid q := by
  obtain ⟨p,hk,ht,hq,hr⟩ := h
  exact ⟨p,hk,ht,hq,mem_reply.mpr (.inl hr)⟩

theorem Coherent.no_prepare (h : Coherent n) (hagreed : Agreed n tid) (hcall : call ∈ n.outstanding)
    (hkind : call.kind = .prepare) : call.tid ≠ tid := by
  intro htid
  obtain ⟨p,hk,ht,hq,hr⟩ := hagreed.prepared call (h.sent call hcall) htid
  have hp := h.replied _ hr
  have heq : p = call :=
    h.unique p hp.1 call (h.sent call hcall) hk hkind (ht.trans htid.symm) hq
  exact hp.2 (heq ▸ hcall)

theorem Coherent.reply (res : Res) (h : Coherent n) (hcall : call ∈ n.outstanding) :
    Coherent (n.reply call res) where
  sent a ha := h.sent a (mem_of_mem_erase ha)
  event := h.event
  phase := h.phase
  nodup := h.nodup.erase call
  replied r hr := by
    rcases mem_reply.mp hr with hr | rfl
    · exact ⟨(h.replied r hr).1,fun ho => (h.replied r hr).2 (mem_of_mem_erase ho)⟩
    · exact ⟨h.sent call hcall,h.nodup.not_mem_erase⟩
  unique := h.unique
  agreed a ha hk := by
    have hagreed := h.agreed a ha hk
    refine ⟨fun b hb ht => (hagreed.prepared b hb ht).reply call res,fun r hr hkind ht => ?_⟩
    rcases mem_reply.mp hr with hr | rfl
    · exact hagreed.unanimous r hr hkind ht
    · exact absurd ht (h.no_prepare hagreed hcall hkind)
  exclusive := h.exclusive
  reported := h.reported

end net

/-! ### The stages of an attempt -/

structure Bounded (c : Coordinator) : Prop where
  tid : ∀ a ∈ c.net.sent, a.tid < c.nextTxnId
  phase : ∀ a ∈ c.net.sent, a.phase ≤ c.phase
  report : ∀ r ∈ c.net.reports, ∀ i ∈ r.ids, i < c.nextTxnId

structure Active (c : Coordinator) : Prop where
  id : c.id ∈ c.ids
  ids : ∀ i ∈ c.ids, i < c.nextTxnId
  earlier : ∀ i ∈ c.ids, i ≠ c.id → Uncommitted c.net i
  unreported : ∀ r ∈ c.net.reports, c.id ∉ r.ids
  nodup : c.partitions.Nodup
  dispatched : c.nDispatch ≠ 0 → c.partitions ≠ []

structure Dispatching (c : Coordinator) : Prop where
  phase : c.phase%4 = 1
  committed : c.committed = false
  calls : ∀ a ∈ c.net.sent, a.tid = c.id → a.kind = .dispatch ∧ a.par ∈ c.partitions

structure Preparing (c : Coordinator) (e : ℕ) : Prop where
  phase : c.phase%4 = 3
  committed : c.committed = false
  calls : ∀ a ∈ c.net.sent, a.tid = c.id →
    (a.kind = .dispatch ∨ a.kind = .prepare) ∧ a.par ∈ c.partitions
  current : ∀ a ∈ c.net.sent, a.kind = .prepare → a.phase = c.phase →
    a.tid = c.id ∧ a.event = e
  own : ∀ a ∈ c.net.sent, a.kind = .prepare → a.tid = c.id → a.phase = c.phase
  quorums : (c.ands e).map Prod.fst = c.partitions
  voted : ∀ v ∈ c.ands e, 0 < v.2 →
    ∃ r ∈ c.net.replies, r.1.kind = .prepare ∧ r.1.tid = c.id ∧ r.1.par = v.1
  rejected : c.aborted = true → c.commitFlag = false
  accepted : c.aborted = false →
    ∀ r ∈ c.net.replies, r.1.kind = .prepare → r.1.tid = c.id → r.2 = .SUCCESS

structure Finishing (c : Coordinator) : Prop where
  phase : c.phase%4 = 0
  committed : c.res = .SUCCESS → c.committed = true ∧ c.aborted = false ∧
    ∃ a ∈ c.net.sent, a.kind = .commit ∧ a.tid = c.id
  aborted : c.res = .REJECT → c.committed = false ∧ c.aborted = true ∧ Uncommitted c.net c.id

structure Serving (c : Coordinator) : Prop where
  coherent : Coherent c.net
  bounded : Bounded c
  active : Active c

def Stage (c : Coordinator) : Wait → Prop
  | .idle => c.phase%4 = 0
  | .dispatch _ | .stuck => Serving c ∧ Dispatching c
  | .prepare e => Serving c ∧ Preparing c e
  | .finish _ => Serving c ∧ Finishing c

structure Sound (c : Coordinator) : Prop where
  coherent : Coherent c.net
  bounded : Bounded c
  stage : Stage c c.wait

section stages

variable {maxRetry : ℤ} {pars : List ParId} {c t : Coordinator} {kind : Kind}

open Coordinator

variable {e n : ℕ}

theorem Serving.lt (h : Serving c) : c.id < c.nextTxnId := h.active.ids _ h.active.id

theorem Bounded.fresh (h : Bounded c) : Bounded {c with nextTxnId := c.nextTxnId+1} where
  tid a ha := (h.tid a ha).trans (lt_succ_self _)
  phase := h.phase
  report r hr i hi := (h.report r hr i hi).trans (lt_succ_self _)

theorem Bounded.uncommitted (h : Bounded c) : Uncommitted c.net c.nextTxnId :=
  fun a ha _ => (h.tid a ha).ne

theorem Serving.phase (h : Serving c) {p : ℕ} (hp : c.phase ≤ p) :
    Serving {c with phase := p} :=
  ⟨h.coherent,{h.bounded with phase := fun a hm => (h.bounded.phase a hm).trans hp},{h.active with}⟩

structure Sends (c t : Coordinator) (kind : Kind) (pars : List ParId) : Prop where
  id : t.id = c.id
  ids : t.ids = c.ids
  next : t.nextTxnId = c.nextTxnId
  phase : c.phase ≤ t.phase
  net : t.net = c.net.send kind c.id pars t.phase

theorem Bounded.sends (h : Bounded c) (hid : c.id < c.nextTxnId)
    (hs : Sends c t kind pars) : Bounded t := by
  refine ⟨fun a ha => ?_,fun a ha => ?_,?_⟩
  · rw [hs.net] at ha
    rw [hs.next]
    rcases mem_send.mp ha with ha | ⟨q,-,rfl⟩
    · exact h.tid a ha
    · exact hid
  · rw [hs.net] at ha
    rcases mem_send.mp ha with ha | ⟨q,-,rfl⟩
    · exact (h.phase a ha).trans hs.phase
    · exact le_rfl
  · rw [hs.net,hs.next]
    exact h.report

theorem Active.sends (h : Active c) (hs : Sends c t kind pars)
    (hnodup : t.partitions.Nodup) (hdisp : t.nDispatch ≠ 0 → t.partitions ≠ []) : Active t := by
  refine ⟨by rw [hs.id,hs.ids]; exact h.id,by rw [hs.ids,hs.next]; exact h.ids,?_,?_,hnodup,hdisp⟩
  · intro i hi hne
    rw [hs.net]
    rw [hs.ids] at hi
    rw [hs.id] at hne
    exact (h.earlier i hi hne).send fun _ => hne.symm
  · rw [hs.net,hs.id]
    exact h.unreported

/-- A broadcast to the partitions of the transaction that is no prepare and no commit,
or that is one when it may be. -/
theorem Serving.broadcast (h : Serving c) (hs : Sends c t kind c.partitions)
    (hparts : t.partitions = c.partitions) (hdisp : t.nDispatch = c.nDispatch)
    (hphase : t.phase%4 = kind.phase)
    (hprepare : kind = .prepare → ∀ a ∈ c.net.sent, a.kind = .prepare → a.tid ≠ c.id)
    (hfree : kind ≠ .commit → Uncommitted c.net c.id)
    (hcommit : kind = .commit → MayCommit c.net c.id c.partitions) : Serving t := by
  refine ⟨?_,h.bounded.sends h.lt hs,h.active.sends hs ?_ ?_⟩
  · rw [hs.net]
    exact h.coherent.send h.active.nodup hphase hprepare hfree hcommit
  · rw [hparts]
    exact h.active.nodup
  · rw [hparts,hdisp]
    exact h.active.dispatched

theorem Dispatching.uncommitted (h : Dispatching c) : Uncommitted c.net c.id := by
  intro a ha hk htid
  have hd := (h.calls a ha htid).1
  simp [hk] at hd

theorem Dispatching.dispatchAsync (hpars : pars.Nodup) (hserving : Serving c)
    (h : Dispatching c) :
    Serving (c.dispatchAsync pars) ∧ Dispatching (c.dispatchAsync pars) := by
  have hs : Sends c (c.dispatchAsync pars) .dispatch pars := ⟨rfl,rfl,rfl,le_rfl,rfl⟩
  refine ⟨⟨?_,hserving.bounded.sends hserving.lt hs,hserving.active.sends hs ?_ ?_⟩,?_⟩
  · exact hserving.coherent.send hpars h.phase (fun hk => nomatch hk) (fun _ => h.uncommitted)
      fun hk => nomatch hk
  · exact List.Nodup.union _ hpars
  · intro hne hnil
    have hmem : ∀ q, q ∉ c.partitions ∪ pars := fun q hq => by
      have hq : q ∈ (c.dispatchAsync pars).partitions := hq
      rw [hnil] at hq
      cases hq
    have hpars : pars = [] :=
      eq_nil_iff_forall_not_mem.mpr fun q hq => hmem q (mem_union_right _ hq)
    have hparts : c.partitions = [] :=
      eq_nil_iff_forall_not_mem.mpr fun q hq => hmem q (mem_union_left hq _)
    refine hserving.active.dispatched (fun hzero => hne ?_) hparts
    show c.nDispatch+pars.length = 0
    rw [hzero,hpars]
    rfl
  · refine ⟨h.phase,h.committed,fun a ha htid => ?_⟩
    rcases mem_send.mp ha with ha | ⟨q,hq,rfl⟩
    · obtain ⟨hk,hp⟩ := h.calls a ha htid
      exact ⟨hk,mem_union_left hp _⟩
    · exact ⟨rfl,mem_union_right _ hq⟩

/-! ### The cases of the switch -/

section

variable (h : Serving c)
include h

theorem sound_of_start (hphase : c.phase%4 = 0) (hcommitted : c.committed = false)
    (hnew : ∀ a ∈ c.net.sent, a.tid ≠ c.id) (hgoto : gotoNextPhase maxRetry pars (n+1) c = some t) :
    Sound t := by
  simp only [gotoNextPhase,hphase] at hgoto
  split_ifs at hgoto with hok
  obtain rfl := some.inj hgoto
  have hd : Dispatching {c with phase := c.phase+1} :=
    ⟨hok.1,hcommitted,fun a hm htid => absurd htid (hnew a hm)⟩
  have hnext := hd.dispatchAsync hok.2 (h.phase (le_succ _))
  exact ⟨hnext.1.coherent,hnext.1.bounded,hnext⟩

theorem sound_of_finish (hphase : c.phase%4 = 0)
    (hcommit : c.committed = true → ∃ a ∈ c.net.sent, a.kind = .commit ∧ a.tid = c.id)
    (habort : c.committed = false → Uncommitted c.net c.id) (hfinish : finish c = some t) :
    Sound t := by
  obtain ⟨hc,hb,ha⟩ := h
  by_cases hok : (c.committed || c.aborted) = true
  swap
  · rw [finish,if_neg hok] at hfinish
    cases hfinish
  rw [finish,if_pos hok] at hfinish
  obtain rfl := some.inj hfinish
  refine ⟨{hc with agreed := fun a hm hk => ?_, reported := ?_},{hb with report := ?_},hphase⟩
  · exact ⟨(hc.agreed a hm hk).prepared,(hc.agreed a hm hk).unanimous⟩
  · intro r hr
    rcases mem_append.mp hr with hr | hr
    · exact hc.reported r hr
    · obtain rfl := mem_singleton.mp hr
      cases hcm : c.committed with
      | true =>
        obtain ⟨a,hm,hk,htid⟩ := hcommit hcm
        exact iff_of_true rfl ⟨a,hm,hk,htid ▸ ha.id⟩
      | false =>
        refine iff_of_false (by simp) ?_
        rintro ⟨a,hm,hk,hid⟩
        by_cases htid : a.tid = c.id
        · exact habort hcm a hm hk htid
        · exact ha.earlier _ hid htid a hm hk rfl
  · intro r hr i hi
    rcases mem_append.mp hr with hr | hr
    · exact hb.report r hr i hi
    · obtain rfl := mem_singleton.mp hr
      exact ha.ids i hi

theorem Serving.renew (hfree : Uncommitted c.net c.id) : Serving c.renew := by
  obtain ⟨hc,hb,ha⟩ := h
  refine ⟨hc,{hb.fresh with},⟨?_,?_,?_,?_,ha.nodup,ha.dispatched⟩⟩
  · exact mem_append_right _ mem_cons_self
  · intro i hi
    rcases mem_append.mp hi with hi | hi
    · exact (ha.ids i hi).trans (lt_succ_self _)
    · rw [mem_singleton.mp hi]
      exact lt_succ_self _
  · intro i hi hne
    rcases mem_append.mp hi with hi | hi
    · by_cases hid : i = c.id
      · exact hid ▸ hfree
      · exact ha.earlier i hi hid
    · exact absurd (mem_singleton.mp hi) hne
  · intro r hr hid
    exact (hb.report r hr _ hid).ne rfl

theorem Serving.reset : Serving c.reset.resetTx :=
  ⟨h.coherent,{h.bounded with},
    {h.active with nodup := nodup_nil, dispatched := fun hne => absurd rfl hne}⟩

theorem sound_of_restart (hphase : c.phase%4 = 0) (hcommitted : c.committed = false)
    (hfree : Uncommitted c.net c.id)
    (hrestart : restart maxRetry (gotoNextPhase maxRetry pars (n+1)) c = some t) : Sound t := by
  unfold restart at hrestart
  have hrenew := h.renew hfree
  split_ifs at hrestart
  · refine sound_of_finish hrenew hphase (fun hc => ?_) (fun _ => ?_) hrestart
    · exact absurd (hcommitted.symm.trans hc) Bool.false_ne_true
    · exact h.bounded.uncommitted
  · exact sound_of_start hrenew.reset hphase rfl (fun a hm => (h.bounded.tid a hm).ne) hrestart

theorem sound_of_caseCommit
    (hcommit : c.committed = true → ∃ a ∈ c.net.sent, a.kind = .commit ∧ a.tid = c.id)
    (habort : c.committed = false → Uncommitted c.net c.id)
    (hcase : caseCommit maxRetry (gotoNextPhase maxRetry pars (n+1)) c = some t) : Sound t := by
  unfold caseCommit at hcase
  split_ifs at hcase with hbad hc
  · rw [not_or,not_not] at hbad
    exact sound_of_finish h hbad.1 hcommit habort hcase
  · rw [not_or,not_not] at hbad
    have hc : c.committed = false := by simpa using hc
    exact sound_of_restart h hbad.1 hc (habort hc) hcase

theorem sound_of_prepare (hstage : Dispatching c) (haborted : c.aborted = false) :
    Sound (prepare {c with phase := c.phase+2}) := by
  have hphase : (c.phase+2)%4 = 3 := by
    have := hstage.phase
    omega
  have hs : Sends c (prepare {c with phase := c.phase+2}) .prepare c.partitions :=
    ⟨rfl,rfl,rfl,Nat.le_add_right _ _,rfl⟩
  have hnone : ∀ a ∈ c.net.sent, a.kind = .prepare → a.tid ≠ c.id := by
    intro a ha hk htid
    have hd := (hstage.calls a ha htid).1
    simp [hk] at hd
  have hvotes : (prepare {c with phase := c.phase+2}).ands c.net.nextEvent =
      c.partitions.map fun q => (q,0) := update_self ..
  have hserving := h.broadcast hs rfl rfl hphase (fun _ => hnone) (fun _ => hstage.uncommitted)
    fun hk => nomatch hk
  refine ⟨hserving.coherent,hserving.bounded,hserving,hphase,hstage.committed,?_,?_,?_,?_,?_,?_,?_⟩
  · intro a ha htid
    rcases mem_send.mp ha with ha | ⟨q,hq,rfl⟩
    · exact ⟨.inl (hstage.calls a ha htid).1,(hstage.calls a ha htid).2⟩
    · exact ⟨.inr rfl,hq⟩
  · intro a ha hk hp
    rcases mem_send.mp ha with ha | ⟨q,hq,rfl⟩
    · have hle := h.bounded.phase a ha
      have hp : a.phase = c.phase+2 := hp
      omega
    · exact ⟨rfl,rfl⟩
  · intro a ha hk htid
    rcases mem_send.mp ha with ha | ⟨q,hq,rfl⟩
    · exact absurd htid (hnone a ha hk)
    · rfl
  · rw [hvotes,List.map_map]
    exact map_id _
  · intro v hv hpos
    rw [hvotes] at hv
    obtain ⟨q,-,rfl⟩ := mem_map.mp hv
    exact absurd hpos (lt_irrefl 0)
  · intro hab
    exact absurd (haborted.symm.trans hab) Bool.false_ne_true
  · intro _ r hr hk htid
    exact absurd htid (hnone r.1 (h.coherent.replied r hr).1 hk)

theorem sound_of_dispatched (hstage : Dispatching c)
    (hgoto : gotoNextPhase maxRetry pars (n+1+1+1) c = some t) : Sound t := by
  have hphase := hstage.phase
  have hp : (c.phase+2)%4 = 3 := by omega
  rw [gotoNextPhase_dispatch _ hphase] at hgoto
  split_ifs at hgoto with hbad habort
  · exact some.inj hgoto ▸ sound_of_prepare h hstage habort
  · -- the early abort is followed at once by the last case of the switch
    rw [gotoNextPhase_commit _ hp] at hgoto
    have hs : Sends c {c with
        phase := c.phase+2
        res := .REJECT
        net := c.net.send .earlyAbort c.id c.partitions (c.phase+2)} .earlyAbort c.partitions :=
      ⟨rfl,rfl,rfl,Nat.le_add_right _ _,rfl⟩
    have hserving := h.broadcast hs rfl rfl hp (fun hk => nomatch hk)
      (fun _ => hstage.uncommitted) fun hk => nomatch hk
    refine sound_of_caseCommit (hserving.phase (le_succ _)) (fun hc => ?_) (fun _ => ?_) hgoto
    · exact absurd (hstage.committed.symm.trans hc) Bool.false_ne_true
    · exact hstage.uncommitted.send fun hk => nomatch hk

end

theorem Preparing.all_replied (h : Preparing c e) (hready : (c.ands e).all (0 < ·.2) = true)
    {q : ParId} (hq : q ∈ c.partitions) :
    ∃ r ∈ c.net.replies, r.1.kind = .prepare ∧ r.1.tid = c.id ∧ r.1.par = q := by
  rw [← h.quorums] at hq
  obtain ⟨v,hv,rfl⟩ := mem_map.mp hq
  have hpos := all_eq_true.mp hready v hv
  exact h.voted v hv (by simpa using hpos)

theorem Preparing.uncommitted (h : Preparing c e) : Uncommitted c.net c.id := by
  intro a ha hk htid
  have hd := (h.calls a ha htid).1
  simp [hk] at hd

/-- With all answers in and none of them a reject, the transaction may commit. -/
theorem Preparing.mayCommit (hactive : Active c) (h : Preparing c e)
    (hready : (c.ands e).all (0 < ·.2) = true) (haborted : c.aborted = false) :
    MayCommit c.net c.id c.partitions := by
  have hprepared : ∀ q ∈ c.partitions, Prepared c.net c.id q := by
    intro q hq
    obtain ⟨r,hr,hk,htid,hpar⟩ := h.all_replied hready hq
    have hres := h.accepted haborted r hr hk htid
    exact ⟨r.1,hk,htid,hpar,hres ▸ hr⟩
  refine ⟨⟨fun b hb htid => ?_,h.accepted haborted⟩,hprepared,fun b hb hab htid => ?_,
    hactive.unreported⟩
  · exact hprepared _ (h.calls b hb htid).2
  · have hk := (h.calls b hb htid).1
    rcases hab with hab | hab <;> simp [hab] at hk

theorem sound_of_commit (h : Serving c) (hphase : c.phase%4 = 0)
    (hmay : c.committed = true → MayCommit c.net c.id c.partitions)
    (hfree : Uncommitted c.net c.id) (hcommit : Coordinator.commit c = some t) : Sound t := by
  unfold commit at hcommit
  split_ifs at hcommit with hbad hc
  · rw [not_or,not_or] at hbad
    have haborted : c.aborted = false := by simpa [hc] using hbad.2.2
    obtain rfl := some.inj hcommit
    have hs : Sends c {({c with res := .SUCCESS} : Coordinator).sendQuorum .commit with
        wait := .finish c.net.nextEvent} .commit c.partitions := ⟨rfl,rfl,rfl,le_rfl,rfl⟩
    have hserving := h.broadcast hs rfl rfl hphase (fun hk => nomatch hk)
      (fun hk => absurd rfl hk) (fun _ => hmay hc)
    refine ⟨hserving.coherent,hserving.bounded,hserving,hphase,fun _ => ⟨hc,haborted,?_⟩,
      fun hres => nomatch hres⟩
    obtain ⟨q,hq⟩ := exists_mem_of_ne_nil _ (h.active.dispatched hbad.1)
    exact ⟨_,mem_send.mpr (.inr ⟨q,hq,rfl⟩),rfl,rfl⟩
  · rw [not_or,not_or] at hbad
    have hc : c.committed = false := by simpa using hc
    have haborted : c.aborted = true := by simpa [hc] using hbad.2.2
    obtain rfl := some.inj hcommit
    have hs : Sends c {({c with res := .REJECT} : Coordinator).sendQuorum .abort with
        wait := .finish c.net.nextEvent} .abort c.partitions := ⟨rfl,rfl,rfl,le_rfl,rfl⟩
    have hserving := h.broadcast hs rfl rfl hphase (fun hk => nomatch hk) (fun _ => hfree)
      (fun hk => nomatch hk)
    refine ⟨hserving.coherent,hserving.bounded,hserving,hphase,(fun hres => nomatch hres),
      fun _ => ⟨hc,haborted,hfree.send fun hk => nomatch hk⟩⟩

theorem sound_of_prepared (h : Serving c) (hstage : Preparing c e)
    (hready : (c.ands e).all (0 < ·.2) = true) (hafter : afterPrepare c = some t) : Sound t := by
  have hphase := hstage.phase
  have hp : (c.phase+1)%4 = 0 := by omega
  have hnext := h.phase (le_succ c.phase)
  have hfree := hstage.uncommitted
  unfold afterPrepare at hafter
  cases hab : c.aborted with
  | true =>
    rw [if_pos hab,casePrepare,if_pos hphase] at hafter
    refine sound_of_commit hnext hp (fun hc => ?_) hfree hafter
    exact absurd (hstage.committed.symm.trans hc) Bool.false_ne_true
  | false =>
    rw [if_neg (by simp [hab]),casePrepare,if_pos hphase] at hafter
    have hserving : Serving {c with
        commitFlag := true, committed := true, phase := c.phase+1} :=
      ⟨hnext.coherent,{hnext.bounded with},{hnext.active with}⟩
    have hmay := hstage.mayCommit h.active hready hab
    exact sound_of_commit hserving hp (fun _ => hmay) hfree hafter

theorem sound_of_finished (h : Serving c) (hstage : Finishing c)
    (hafter : afterCommit maxRetry c pars = some t) : Sound t := by
  unfold afterCommit at hafter
  cases hres : c.res with
  | SUCCESS =>
    obtain ⟨hc,-,hcall⟩ := hstage.committed hres
    have hsame : ({c with committed := true} : Coordinator) = c := by rw [← hc]
    rw [if_neg (by simp [hres]),hsame] at hafter
    refine sound_of_caseCommit h (fun _ => hcall) (fun hf => ?_) hafter
    exact absurd (hf.symm.trans hc) Bool.false_ne_true
  | REJECT =>
    obtain ⟨hc,hab,hfree⟩ := hstage.aborted hres
    have hsame : ({c with aborted := true} : Coordinator) = c := by rw [← hab]
    rw [if_pos hres,hsame] at hafter
    refine sound_of_caseCommit h (fun ht => ?_) (fun _ => hfree) hafter
    exact absurd (hc.symm.trans ht) Bool.false_ne_true

/-! ### Callbacks -/

section callbacks

variable {call : Call} {res : Res} {more : Bool}
variable {w : Wait}

theorem Serving.reply (res : Res) (h : Serving c) (hcall : call ∈ c.net.outstanding) :
    Serving {c with net := c.net.reply call res} :=
  ⟨h.coherent.reply res hcall,{h.bounded with},{h.active with}⟩

theorem Stage.reply (res : Res) (h : Stage c w) (hcoherent : Coherent c.net)
    (hcall : call ∈ c.net.outstanding) (hother : call.kind = .prepare → call.phase ≠ c.phase) :
    Stage {c with net := c.net.reply call res} w := by
  cases w with
  | idle => exact h
  | dispatch e | stuck => exact ⟨h.1.reply res hcall,{h.2 with}⟩
  | prepare e =>
    obtain ⟨hserving,hp⟩ := h
    refine ⟨hserving.reply res hcall,{hp with
      voted := fun v hv hpos => ?_, accepted := fun hab r hr hk htid => ?_}⟩
    · obtain ⟨r,hr,hrest⟩ := hp.voted v hv hpos
      exact ⟨r,mem_reply.mpr (.inl hr),hrest⟩
    · rcases mem_reply.mp hr with hr | rfl
      · exact hp.accepted hab r hr hk htid
      · exact absurd (hp.own call (hcoherent.sent call hcall) hk htid) (hother hk)
  | finish e => exact ⟨h.1.reply res hcall,{h.2 with}⟩

/-- A callback that is neither of a current dispatch nor of a current prepare at most
adds a vote. -/
theorem onReply_other (hother : call.kind = .dispatch ∨ call.kind = .prepare → call.phase ≠ c.phase)
    (h : onReply c call res more = some t) :
    t = c ∨ call.kind.phase = 0 ∧ call.phase = c.phase ∧ t = c.vote call := by
  cases hk : call.kind with
  | dispatch =>
    have hp := hother (.inl hk)
    cases res <;> simp [onReply,hk,hp] at h
  | prepare =>
    have hp := hother (.inr hk)
    cases res <;> simp only [onReply,hk,hp,ne_eq,not_false_eq_true,if_true,some.injEq] at h <;>
      exact .inl h.symm
  | commit | abort =>
    by_cases hp : call.phase = c.phase <;> simp only [onReply,hk,hp,ne_eq,not_true_eq_false,
      not_false_eq_true,if_true,if_false,some.injEq] at h
    · exact .inr ⟨rfl,hp,h.symm⟩
    · exact .inl h.symm
  | earlyAbort =>
    simp only [onReply,hk,some.injEq] at h
    exact .inl h.symm

theorem Stage.vote (h : Stage c w) (hphase : c.phase%4 = 0) : Stage (c.vote call) w := by
  have hserving : Serving c → Serving (c.vote call) := fun hs =>
    ⟨hs.coherent,{hs.bounded with},{hs.active with}⟩
  cases w with
  | idle => exact h
  | dispatch e | stuck => exact ⟨hserving h.1,{h.2 with}⟩
  | prepare e => exact absurd (h.2.phase.symm.trans hphase) (by decide)
  | finish e => exact ⟨hserving h.1,{h.2 with}⟩

theorem Stage.dispatching (h : Stage c w) (hphase : c.phase%4 = 1) :
    Serving c ∧ Dispatching c ∧ ∀ d, Serving d → Dispatching d → Stage d w := by
  cases w with
  | idle => exact absurd (hphase.symm.trans h) (by decide)
  | dispatch e | stuck => exact ⟨h.1,h.2,fun d hs hd => ⟨hs,hd⟩⟩
  | prepare e | finish e => exact absurd (hphase.symm.trans h.2.phase) (by decide)

theorem Stage.preparing (h : Stage c w) (hphase : c.phase%4 = 3) :
    ∃ e, Serving c ∧ Preparing c e ∧ ∀ d, Serving d → Preparing d e → Stage d w := by
  cases w with
  | idle => exact absurd (hphase.symm.trans h) (by decide)
  | dispatch e | stuck | finish e => exact absurd (hphase.symm.trans h.2.phase) (by decide)
  | prepare e => exact ⟨e,h.1,h.2,fun d hs hd => ⟨hs,hd⟩⟩

theorem Preparing.vote (res : Res) (flag aborted : Bool) {e : ℕ} (h : Preparing c e)
    (hsent : call ∈ c.net.sent) (hkind : call.kind = .prepare) (hphase : call.phase = c.phase)
    (hreject : aborted = true → flag = false)
    (haccept : aborted = false → c.aborted = false ∧ res = .SUCCESS) :
    Preparing (Coordinator.vote {c with
      net := c.net.reply call res, commitFlag := flag, aborted := aborted} call) e := by
  obtain ⟨htid,rfl⟩ := h.current call hsent hkind hphase
  have hvotes : (Coordinator.vote {c with
      net := c.net.reply call res, commitFlag := flag, aborted := aborted} call).ands call.event =
      (c.ands call.event).map fun v => if v.1 = call.par then (v.1,v.2+1) else v :=
    update_self ..
  refine ⟨h.phase,h.committed,h.calls,h.current,h.own,?_,?_,hreject,?_⟩
  · rw [hvotes,List.map_map]
    refine (map_congr_left fun v _ => ?_).trans h.quorums
    simp only [Function.comp]
    split <;> rfl
  · intro v hv hpos
    rw [hvotes] at hv
    obtain ⟨u,hu,rfl⟩ := mem_map.mp hv
    by_cases hq : u.1 = call.par
    · refine ⟨(call,res),mem_reply.mpr (.inr rfl),hkind,htid,?_⟩
      rw [if_pos hq]
      exact hq.symm
    · rw [if_neg hq] at hpos ⊢
      obtain ⟨r,hr,hrest⟩ := h.voted u hu hpos
      exact ⟨r,mem_reply.mpr (.inl hr),hrest⟩
  · intro hab r hr hk ht
    rcases mem_reply.mp hr with hr | rfl
    · exact h.accepted (haccept hab).1 r hr hk ht
    · exact (haccept hab).2

theorem sound_of_current_prepare (h : Sound c) (hcall : call ∈ c.net.outstanding)
    (hkind : call.kind = .prepare) (hphase : call.phase = c.phase)
    (hreply : onReply {c with net := c.net.reply call res} call res more = some t) : Sound t := by
  have hsent := h.coherent.sent call hcall
  have hc : c.phase%4 = 3 := by
    rw [← hphase,h.coherent.phase call hsent,hkind]
    rfl
  obtain ⟨e,hserving,hp,hback⟩ := h.stage.preparing hc
  have hnext := hserving.reply res hcall
  have hsound : ∀ d : Coordinator, Serving d → Preparing d e → d.wait = c.wait → Sound d :=
    fun d hd hpd hw => ⟨hd.coherent,hd.bounded,hw ▸ hback d hd hpd⟩
  cases res <;>
    simp only [onReply,hkind,hphase,ne_eq,not_true_eq_false,if_false,some.injEq] at hreply <;>
    subst hreply <;>
    refine hsound _ ⟨hnext.coherent,{hnext.bounded with},{hnext.active with}⟩ ?_ rfl
  case REJECT =>
    exact hp.vote .REJECT false true hsent hkind hphase (fun _ => rfl) (fun hf => nomatch hf)
  case SUCCESS =>
    exact hp.vote .SUCCESS c.commitFlag c.aborted hsent hkind hphase hp.rejected
      (fun hf => ⟨hf,rfl⟩)

theorem sound_of_current_dispatch (h : Sound c) (hcall : call ∈ c.net.outstanding)
    (hkind : call.kind = .dispatch) (hphase : call.phase = c.phase)
    (hreply : onReply {c with net := c.net.reply call res} call res more = some t) : Sound t := by
  have hc : c.phase%4 = 1 := by
    rw [← hphase,h.coherent.phase call (h.coherent.sent call hcall),hkind]
    rfl
  have hstage := h.stage.reply res h.coherent hcall fun hk => by simp [hkind] at hk
  obtain ⟨hserving,hd,hback⟩ := hstage.dispatching hc
  obtain ⟨hc',hb,ha⟩ := hserving
  cases res <;>
    simp only [onReply,hkind,hphase,ne_eq,not_true_eq_false,if_false,false_or] at hreply
  case REJECT =>
    cases hreply
    exact ⟨hc',{hb with},hback _ ⟨hc',{hb with},{ha with}⟩ {hd with}⟩
  case SUCCESS =>
    split_ifs at hreply
    cases hreply
    exact ⟨hc',{hb with},hback _ ⟨hc',{hb with},{ha with}⟩ {hd with}⟩

theorem sound_of_reply (h : Sound c) (hcall : call ∈ c.net.outstanding)
    (hreply : onReply {c with net := c.net.reply call res} call res more = some t) : Sound t := by
  by_cases hphase : call.phase = c.phase
  swap
  · obtain rfl | hvote := onReply_other (c:={c with net := c.net.reply call res})
      (fun _ => hphase) hreply
    · exact ⟨h.coherent.reply res hcall,{h.bounded with},
        h.stage.reply res h.coherent hcall fun _ => hphase⟩
    · exact absurd hvote.2.1 hphase
  cases hkind : call.kind with
  | dispatch => exact sound_of_current_dispatch h hcall hkind hphase hreply
  | prepare => exact sound_of_current_prepare h hcall hkind hphase hreply
  | _ =>
    have hstage := h.stage.reply res h.coherent hcall fun hk => by simp [hkind] at hk
    have hb : Bounded {c with net := c.net.reply call res} := {h.bounded with}
    obtain rfl | ⟨hk,-,rfl⟩ := onReply_other (by simp [hkind]) hreply
    · exact ⟨h.coherent.reply res hcall,hb,hstage⟩
    · have hc : c.phase%4 = 0 := by
        rw [← hphase,h.coherent.phase call (h.coherent.sent call hcall),hk]
      exact ⟨h.coherent.reply res hcall,{hb with},hstage.vote hc⟩

end callbacks

/-! ### Runs -/

theorem sound_of_doTxAsync {flag : Bool} (h : Sound c) (hidle : c.wait = .idle)
    (hstep : c.doTxAsync maxRetry pars flag = some t) : Sound t := by
  have hphase : c.phase%4 = 0 := by
    have hstage := h.stage
    rwa [hidle] at hstage
  obtain ⟨hc,hb,-⟩ := h
  have hserving : Serving (c.newRequest flag).reset := by
    refine ⟨hc,{hb.fresh with},⟨mem_cons_self,?_,?_,?_,nodup_nil,fun hne => absurd rfl hne⟩⟩
    · intro i hi
      rw [mem_singleton.mp hi]
      exact lt_succ_self _
    · intro i hi hne
      exact absurd (mem_singleton.mp hi) hne
    · intro r hr hid
      exact (hb.report r hr _ hid).ne rfl
  exact sound_of_start hserving hphase rfl (fun a hm => (hb.tid a hm).ne) hstep

theorem sound_of_resume (h : Sound c) (hstep : c.resume maxRetry pars = some t) : Sound t := by
  obtain ⟨-,-,hstage⟩ := h
  unfold resume at hstep
  cases hw : c.wait with
  | idle | stuck => simp [hw] at hstep
  | dispatch e =>
    simp only [hw,afterDispatch] at hstep hstage
    split_ifs at hstep
    · exact sound_of_dispatched hstage.1 hstage.2 hstep
    · obtain rfl := some.inj hstep
      obtain ⟨⟨hc,hb,ha⟩,hd⟩ := hstage
      exact ⟨hc,{hb with},⟨hc,{hb with},{ha with}⟩,{hd with}⟩
  | prepare e =>
    simp only [hw] at hstep hstage
    split_ifs at hstep with hready
    exact sound_of_prepared hstage.1 hstage.2 hready hstep
  | finish e =>
    simp only [hw] at hstep hstage
    split_ifs at hstep
    exact sound_of_finished hstage.1 hstage.2 hstep

theorem sound_step (l : Label) (h : Sound c) (hstep : c.step maxRetry l = some t) : Sound t := by
  cases l with
  | doTxAsync pars flag =>
    simp only [step] at hstep
    split_ifs at hstep with hidle
    exact sound_of_doTxAsync h hidle hstep
  | reply call res more =>
    simp only [step] at hstep
    split_ifs at hstep with hcall
    exact sound_of_reply h hcall hstep
  | resume pars => exact sound_of_resume h hstep

theorem sound_initial (k : TxId) : Sound (initial k) := by
  refine ⟨?_,?_,rfl⟩
  · constructor <;> simp [initial]
  · constructor <;> simp [initial]

theorem sound_reachable (h : Transition.Reachable (system maxRetry) c) : Sound c := by
  obtain ⟨c₀,⟨k,rfl⟩,hrun⟩ := h
  exact hrun.invariant (P:=Sound) (fun _ l _ _ hs hstep => sound_step l hs hstep) (sound_initial k)

end stages

/-- In every reachable state a commit was sent only for a transaction that every partition it
reached has prepared, nobody was told to abort such a transaction, and the client was told success
exactly for the requests of which a commit was sent. -/
theorem atomic_commitment (maxRetry : ℤ) (c : Coordinator)
    (h : Transition.Reachable (system maxRetry) c) :
    (∀ a ∈ c.net.sent, a.kind = .commit → Agreed c.net a.tid) ∧
      (∀ a ∈ c.net.sent, ∀ b ∈ c.net.sent, a.kind = .commit → b.kind.aborts → a.tid ≠ b.tid) ∧
      ∀ r ∈ c.net.reports,
        (r.res = .SUCCESS ↔ ∃ a ∈ c.net.sent, a.kind = .commit ∧ a.tid ∈ r.ids) :=
  ⟨(sound_reachable h).coherent.agreed,(sound_reachable h).coherent.exclusive,
    (sound_reachable h).coherent.reported⟩

/-! ### A retry -/

/-- Two partitions; the first attempt is rejected by one of them, the second commits.
Prepares are answered in both orders. -/
def retry : List Label :=
  [.doTxAsync [10,20] false,
    .reply ⟨.dispatch,1,20,1,0⟩ .SUCCESS false,.reply ⟨.dispatch,1,10,1,0⟩ .SUCCESS false,.resume [],
    .reply ⟨.prepare,1,10,3,1⟩ .SUCCESS false,.reply ⟨.prepare,1,20,3,1⟩ .REJECT false,.resume [],
    .reply ⟨.abort,1,10,4,2⟩ .SUCCESS false,.reply ⟨.abort,1,20,4,2⟩ .SUCCESS false,.resume [10,20],
    .reply ⟨.dispatch,2,10,5,3⟩ .SUCCESS false,.reply ⟨.dispatch,2,20,5,3⟩ .SUCCESS false,.resume [],
    .reply ⟨.prepare,2,20,7,4⟩ .SUCCESS false,.reply ⟨.prepare,2,10,7,4⟩ .SUCCESS false,.resume [],
    .reply ⟨.commit,2,10,8,5⟩ .SUCCESS false,.reply ⟨.commit,2,20,8,5⟩ .SUCCESS false,.resume []]

def retried : Coordinator := Transition.after (system 3) (fun _ _ => True) (initial 1) retry

theorem atomic_commitment_retry : retried.net.reports = [⟨[1,2],2,.SUCCESS⟩] ∧
      (⟨.commit,2,10,8,5⟩ : Call) ∈ retried.net.sent ∧ Agreed retried.net 2 ∧
      (∀ b ∈ retried.net.sent, b.kind.aborts → 2 ≠ b.tid) := by
  have hreach : Transition.Reachable (system 3) retried :=
    ⟨_,⟨1,rfl⟩,Transition.run_after (initial 1) retry⟩
  have hsent : (⟨.commit,2,10,8,5⟩ : Call) ∈ retried.net.sent := by decide +kernel
  obtain ⟨hagreed,hexclusive,-⟩ := atomic_commitment 3 retried hreach
  exact ⟨by decide +kernel,hsent,hagreed _ hsent rfl,
    fun b hb hab => hexclusive _ hsent b hb rfl hab⟩

end Janus.ClassicCoordinator
