import Janus.Tarjan

/-! One RCC server at one rank: the subtransactions it knows, their components and the coroutines
of `OnCommit`. A transaction id stands for a transaction at one rank, and every field of a
subtransaction is a map from ids with default values. A component is a vector that its members
share, named by what allocated it. A failed `verify` is no step. -/
namespace Janus.Rcc

inductive Status
  | unknown
  | preAccepted
  | committing
  | decided
  deriving DecidableEq

def Status.value : Status → ℕ
  | unknown => 0x00
  | preAccepted => 0x02
  | committing => 0x08
  | decided => 0x20

/-- `UpdateStatus` and `UpgradeStatus`, up to flags below the highest one: a status is
only ever compared with `TXN_CMT` and `TXN_DCD`. -/
def Status.update (status s : Status) : Status := if status.value < s.value then s else status

inductive InvolveEnum
  | unknown
  | involved
  | foreign
  deriving DecidableEq

/-- A component vector: the one a vertex is created with, or the one that
`InquireAboutIfNeeded` allocates for its reply. -/
inductive SccRef (Tx : Type)
  | own (tx : Tx)
  | inquired (tx : Tx)
  deriving DecidableEq

abbrev ParentSet (Par Tx : Type) := List (Tx × Finset Par)

/-- The map that `OnInquire` returns: the parents under the key `0`, or one entry for
each member of the component. -/
inductive InquireReply (Par Tx : Type)
  | committing (parents : ParentSet Par Tx)
  | decided (scc : List (Tx × ParentSet Par Tx))

inductive Inquiry (Site Par Tx : Type)
  | idle
  | sent (par : Par)
  | waiting (site : Site)
  | replied (reply : InquireReply Par Tx)

structure Walk (Tx : Type) where
  toWalk : List Tx
  walked : Finset Tx

def Walk.push [DecidableEq Tx] (w : Walk Tx) (v : Tx) : Walk Tx :=
  {w with toWalk := if v ∈ w.walked then w.toWalk else v::w.toWalk}

/-- Where the `OnCommit` coroutine of a transaction stands. In a traversal, `vs` are the parents of
`self` left to look at. -/
inductive Coroutine (Tx : Type)
  | idle
  | waitAncCommit
  | walk (w : Walk Tx)
  | visit (w : Walk Tx) (self : Tx) (vs : List Tx)
  | waitApplied (w : Walk Tx) (self parent : Tx) (vs : List Tx)
  | inquire (w : Walk Tx) (self parent : Tx) (vs : List Tx)
  | waitCommitting (w : Walk Tx) (self parent : Tx) (vs : List Tx)
  | checkMember (r : SccRef Tx) (i : ℕ)
  | checkParent (r : SccRef Tx) (i j : ℕ)
  | waitParent (r : SccRef Tx) (i j : ℕ) (parent : Tx)
  | waitEnd (r : SccRef Tx) (v : Tx)
  | execute (r : SccRef Tx) (vs : List Tx)
  | waitCommit (r : SccRef Tx) (v : Tx) (vs : List Tx)
  | finished

structure RccServer (Site Par Tx : Type) where
  status : Tx → Status
  parents : Tx → ParentSet Par Tx
  sccIndex : Tx → Option ℕ
  sccLowlink : Tx → ℕ
  sccOnstack : Tx → Bool
  scc : Tx → SccRef Tx
  sccs : SccRef Tx → List Tx
  sccNextIndex : ℕ
  sccS : List Tx
  partition : Tx → Finset Par
  involveFlag : Tx → InvolveEnum
  duringAsking : Tx → Bool
  allAncCmtHint : Tx → Bool
  waitingAllAncCommitting : Tx → Bool
  waitAllAncCommitDone : Tx → Bool
  allNonsccParentsExecutedHint : Tx → Bool
  sccAllNonsccParentsExecutedHint : Tx → Bool
  fullyDispatched : Tx → Bool
  commitReceived : Tx → Bool
  logApplyStarted : Tx → Bool
  logApplyFinished : Tx → Bool
  inquiry : Tx → Inquiry Site Par Tx
  coroutine : Tx → Coroutine Tx
  executed : List Tx

namespace RccServer

open scoped Tarjan.Search
open Function (update)

variable {Site Par Tx : Type}

def init : RccServer Site Par Tx where
  status _ := .unknown
  parents _ := []
  sccIndex _ := none
  sccLowlink _ := 0
  sccOnstack _ := false
  scc t := .own t
  sccs _ := []
  sccNextIndex := 1
  sccS := []
  partition _ := ∅
  involveFlag _ := .unknown
  duringAsking _ := false
  allAncCmtHint _ := false
  waitingAllAncCommitting _ := false
  waitAllAncCommitDone _ := false
  allNonsccParentsExecutedHint _ := false
  sccAllNonsccParentsExecutedHint _ := false
  fullyDispatched _ := false
  commitReceived _ := false
  logApplyStarted _ := false
  logApplyFinished _ := false
  inquiry _ := .idle
  coroutine _ := .idle
  executed := []

variable (σ : RccServer Site Par Tx)

def sccOf (t : Tx) : List Tx := σ.sccs (σ.scc t)

def IsCommitting (t : Tx) : Prop := Status.committing.value ≤ (σ.status t).value

def IsDecided (t : Tx) : Prop := σ.status t = .decided

instance (t : Tx) : Decidable (σ.IsCommitting t) :=
  inferInstanceAs (Decidable (Status.committing.value ≤ (σ.status t).value))

instance (t : Tx) : Decidable (σ.IsDecided t) :=
  inferInstanceAs (Decidable (σ.status t = .decided))

def parentIds (t : Tx) : List Tx := (σ.parents t).map Prod.fst

variable [LinearOrder Tx]

def goto (t : Tx) (k : Coroutine Tx) : RccServer Site Par Tx :=
  {σ with coroutine := update σ.coroutine t k}

def setStatus (t : Tx) (s : Status) : RccServer Site Par Tx :=
  {σ with status := update σ.status t ((σ.status t).update s)}

def replaceParentEdges (t : Tx) (parents : ParentSet Par Tx) : RccServer Site Par Tx :=
  {σ with parents := update σ.parents t parents}

def markWaiting (t : Tx) : RccServer Site Par Tx :=
  {σ with waitingAllAncCommitting := update σ.waitingAllAncCommitting t true}

def markScc (r : SccRef Tx) : RccServer Site Par Tx :=
  {σ with
   sccAllNonsccParentsExecutedHint := fun v =>
     σ.sccAllNonsccParentsExecutedHint v || decide (v ∈ σ.sccs r)}

def markMember (v : Tx) : RccServer Site Par Tx :=
  {σ with
   allNonsccParentsExecutedHint := update σ.allNonsccParentsExecutedHint v true}

def start (v : Tx) : RccServer Site Par Tx :=
  {σ with logApplyStarted := update σ.logApplyStarted v true}

def finish (v : Tx) : RccServer Site Par Tx :=
  {σ with logApplyFinished := update σ.logApplyFinished v true}

def search : Tarjan.Search Tx (SccRef Tx) where
  frames := []
  stack := σ.sccS
  index := σ.sccIndex
  low := σ.sccLowlink
  onStack := σ.sccOnstack
  next := σ.sccNextIndex
  cell := σ.scc
  content := σ.sccs

def withSearch (τ : Tarjan.Search Tx (SccRef Tx)) : RccServer Site Par Tx :=
  {σ with
   sccS := τ.stack
   sccIndex := τ.index
   sccLowlink := τ.low
   sccOnstack := τ.onStack
   sccNextIndex := τ.next
   scc := τ.cell
   sccs := τ.content}

def findSccPred [Fintype Tx] (v : Tx) : RccServer Site Par Tx :=
  if σ.sccOf v ≠ [] then σ else σ.withSearch (σ.search.search σ.parentIds v)

/-- `Decide`, which stops at the first member that is decided already. -/
def decideScc : List Tx → RccServer Site Par Tx → RccServer Site Par Tx
  | [], σ => σ
  | v::vs, σ => if σ.IsDecided v then σ else decideScc vs (σ.setStatus v .decided)

def resolve [Fintype Tx] (t : Tx) : Option (RccServer Site Par Tx) :=
  let σ := σ.findSccPred t
  if σ.sccOf t = [] then none
  else some ((decideScc (σ.sccOf t) σ).goto t (.checkMember (σ.scc t) 0))

def finishWalk (w : Walk Tx) : RccServer Site Par Tx :=
  {σ with
   allAncCmtHint := fun t => σ.allAncCmtHint t || decide (t ∈ w.walked)
   waitAllAncCommitDone := fun t => σ.waitAllAncCommitDone t || decide (t ∈ w.walked)}

def inquireReply (t : Tx) : Option (InquireReply Par Tx) :=
  if σ.IsDecided t then
    if σ.sccOf t = [] then none
    else some (.decided (((σ.sccOf t).dedup.insertionSort (· ≤ ·)).map fun v => (v,σ.parents v)))
  else some (.committing (σ.parents t))

/-- A reply with one entry pushes the transaction to its vector; a longer one goes to a new vector,
that of the members with an empty one. -/
def inquired (t : Tx) : InquireReply Par Tx → RccServer Site Par Tx
  | .committing parents => (σ.replaceParentEdges t parents).setStatus t .committing
  | .decided [(_,parents)] =>
    let σ := (σ.replaceParentEdges t parents).setStatus t .decided
    {σ with sccs := update σ.sccs (σ.scc t) (σ.sccOf t++[t])}
  | .decided scc =>
    let members := scc.map Prod.fst
    {σ with
     parents := fun v => ((scc.find? fun e => e.1 = v).map Prod.snd).getD (σ.parents v)
     status := fun v => if v ∈ members then (σ.status v).update .decided else σ.status v
     allAncCmtHint := fun v => σ.allAncCmtHint v || decide (v ∈ members)
     sccs := update σ.sccs (.inquired t) members
     scc := fun v => if v ∈ members ∧ σ.sccOf v = [] then .inquired t else σ.scc v}

def executeScc (t : Tx) (r : SccRef Tx) : Option (RccServer Site Par Tx) :=
  match (σ.sccs r).head?, (σ.sccs r).getLast? with
  | some vBegin, some vEnd =>
    if σ.logApplyStarted vBegin then some (σ.goto t (.waitEnd r vEnd))
    else some ((σ.start vBegin).goto t (.execute r (σ.sccs r)))
  | _, _ => none

/-- One iteration of the outer loop of `WaitNonSccParentsExecuted`, and `Execute` when
the loop is left. -/
def checkMember (t : Tx) (r : SccRef Tx) (i : ℕ) : Option (RccServer Site Par Tx) :=
  match (σ.sccs r)[i]? with
  | none => (σ.markScc r).executeScc t r
  | some v =>
    if σ.sccAllNonsccParentsExecutedHint v then σ.executeScc t r
    else if σ.allNonsccParentsExecutedHint v then some (σ.goto t (.checkMember r (i+1)))
    else some (σ.goto t (.checkParent r i 0))

def commitExecute (t : Tx) (r : SccRef Tx) (v : Tx) (vs : List Tx) : RccServer Site Par Tx :=
  ({σ with executed := σ.executed++[v]}.finish v).goto t (.execute r vs)

def waitPredecessors [Fintype Tx] (t : Tx) : Option (RccServer Site Par Tx) :=
  if σ.allAncCmtHint t then σ.resolve t
  else if σ.waitingAllAncCommitting t then some (σ.goto t .waitAncCommit)
  else some (σ.goto t (.walk ⟨[t],{t}⟩))

variable [LinearOrder Par]

def insertPartition (t : Tx) (ps : Finset Par) : RccServer Site Par Tx :=
  {σ with partition := update σ.partition t (σ.partition t ∪ ps)}

def involve (id : Par) (t : Tx) : Bool :=
  match σ.involveFlag t with
  | .involved => true
  | .foreign => false
  | .unknown => decide (id ∈ σ.partition t)

def cacheInvolve (id : Par) (t : Tx) : RccServer Site Par Tx :=
  if σ.involveFlag t = .unknown ∧ σ.IsCommitting t then
    {σ with
     involveFlag := update σ.involveFlag t
       (if id ∈ σ.partition t then .involved else .foreign)}
  else σ

/-- `OnPreAccept` at a server of partition `id`; the dependencies that the execution of
the pieces has traced are given. -/
def onPreAccept (id : Par) (t : Tx) (deps : ParentSet Par Tx) :
    Option (RccServer Site Par Tx) :=
  if σ.fullyDispatched t then none
  else
    let σ := (σ.insertPartition t {id}).setStatus t .preAccepted
    let σ := if σ.IsCommitting t then σ else σ.replaceParentEdges t (σ.parents t++deps)
    some {σ with
      involveFlag := update σ.involveFlag t .involved
      fullyDispatched := update σ.fullyDispatched t true}

def onInquire (id : Par) (t : Tx) : Option (RccServer Site Par Tx) :=
  let σ := σ.insertPartition t {id}
  if σ.involve id t then some (σ.cacheInvolve id t) else none

def receiveCommit (id : Par) (t : Tx) (parents : ParentSet Par Tx) : RccServer Site Par Tx :=
  let σ := ((σ.insertPartition t {id}).cacheInvolve id t).replaceParentEdges t parents
  {σ with commitReceived := update σ.commitReceived t true}.setStatus t .committing

/-- `OnCommit` up to its first wait. The result of the local validation, which it checks
to be open, is set with `log_apply_finished_`. -/
def onCommit [Fintype Tx] (id : Par) (t : Tx) (parents : ParentSet Par Tx) :
    Option (RccServer Site Par Tx) :=
  if (σ.insertPartition t {id}).involve id t ∧ ¬σ.commitReceived t ∧ ¬σ.logApplyFinished t then
    (σ.receiveCommit id t parents).waitPredecessors t
  else none

def fillPartition (self parent : Tx) : RccServer Site Par Tx :=
  if σ.partition parent = ∅ then
    match (σ.parents self).find? fun e => e.1 = parent with
    | some e => σ.insertPartition parent e.2
    | none => σ
  else σ

/-- `InquireAboutIfNeeded` for a parent that is not committing, up to its wait or to the
wait that follows it. -/
def inquireAboutIfNeeded (id : Par) (t : Tx) (w : Walk Tx) (self parent : Tx) (vs : List Tx) :
    Option (RccServer Site Par Tx) :=
  if σ.involve id parent then some (σ.goto t (.waitCommitting w self parent vs))
  else if hne : (σ.partition parent).Nonempty then
    if σ.duringAsking parent then some (σ.goto t (.waitCommitting w self parent vs))
    else some ({σ with
      duringAsking := update σ.duringAsking parent true
      inquiry := update σ.inquiry parent (.sent ((σ.partition parent).min' hne))}.goto t
        (.inquire w self parent vs))
  else none

/-- The callback from where it has asked whether the parent is involved. -/
def visitUndecided (id : Par) (t : Tx) (w : Walk Tx) (self parent : Tx) (vs : List Tx) :
    Option (RccServer Site Par Tx) :=
  if σ.involve id parent ∧ parent < t then some (σ.goto t (.waitApplied w self parent vs))
  else if σ.IsCommitting parent then some (σ.goto t (.visit (w.push parent) self vs))
  else if σ.involve id parent then some (σ.goto t (.waitCommitting w self parent vs))
  else (σ.fillPartition self parent).inquireAboutIfNeeded id t w self parent vs

/-- The callback of the traversal from `t` on one edge, up to its first wait. -/
def visitParent (id : Par) (t : Tx) (w : Walk Tx) (self parent : Tx) (vs : List Tx) :
    Option (RccServer Site Par Tx) :=
  if σ.allAncCmtHint self then some ((σ.markWaiting self).goto t (.visit w self vs))
  else if σ.allAncCmtHint parent then some ((σ.markWaiting self).goto t (.visit w self vs))
  else if σ.logApplyStarted parent then
    if σ.IsCommitting parent ∧ σ.allAncCmtHint parent then
      some ((σ.markWaiting self).goto t (.visit w self vs))
    else none
  else if σ.IsDecided parent then some ((σ.markWaiting self).goto t (.visit w self vs))
  else ((σ.markWaiting self).cacheInvolve id parent).visitUndecided id t w self parent vs

/-- One iteration of the inner loop of `WaitNonSccParentsExecuted`, with the mark that
follows the loop. -/
def checkParent (id : Par) (t : Tx) (r : SccRef Tx) (i j : ℕ) :
    Option (RccServer Site Par Tx) :=
  match (σ.sccs r)[i]? with
  | none => none
  | some v =>
    match (σ.parentIds v)[j]? with
    | none => some ((σ.markMember v).goto t (.checkMember r (i+1)))
    | some parent =>
      if σ.involve id parent ∧ (σ.sccs r).head?.map σ.scc ≠ some (σ.scc parent) then
        some ((σ.cacheInvolve id parent).goto t (.waitParent r i j parent))
      else some ((σ.cacheInvolve id parent).goto t (.checkParent r i (j+1)))

def executeTx (id : Par) (t : Tx) (r : SccRef Tx) (v : Tx) (vs : List Tx) :
    Option (RccServer Site Par Tx) :=
  if σ.allAncCmtHint v ∧ σ.IsDecided v then
    if σ.involve id v then some (((σ.start v).cacheInvolve id v).goto t (.waitCommit r v vs))
    else some ((((σ.start v).cacheInvolve id v).finish v).goto t (.execute r vs))
  else none

/-- Run the `OnCommit` coroutine of `t` from one point where it may yield to the next. -/
def resume [Fintype Tx] (id : Par) (t : Tx) : Option (RccServer Site Par Tx) :=
  match σ.coroutine t with
  | .idle => none
  | .waitAncCommit =>
    if σ.waitAllAncCommitDone t then some (σ.goto t (.walk ⟨[t],{t}⟩)) else none
  | .walk w =>
    match w.toWalk with
    | [] => (σ.finishWalk w).resolve t
    | v::toWalk => some (σ.goto t (.visit ⟨toWalk,insert v w.walked⟩ v (σ.parentIds v)))
  | .visit w _ [] => some (σ.goto t (.walk w))
  | .visit w self (parent::vs) =>
    if parent = self then none else σ.visitParent id t w self parent vs
  | .waitApplied w self parent vs =>
    if σ.logApplyFinished parent then some (σ.goto t (.visit w self vs)) else none
  | .inquire w self parent vs =>
    match σ.inquiry parent with
    | .replied reply =>
      let σ := σ.inquired parent reply
      some (σ.goto t (if σ.allAncCmtHint parent then .visit w self vs
        else .waitCommitting w self parent vs))
    | _ => none
  | .waitCommitting w self parent vs =>
    if σ.IsCommitting parent then some (σ.goto t (.visit (w.push parent) self vs)) else none
  | .checkMember r i => σ.checkMember t r i
  | .checkParent r i j => σ.checkParent id t r i j
  | .waitParent r i j parent =>
    if σ.logApplyFinished parent then some (σ.goto t (.checkParent r i (j+1))) else none
  | .waitEnd _ v => if σ.logApplyFinished v then some (σ.goto t .finished) else none
  | .execute _ [] => some (σ.goto t .finished)
  | .execute r (v::vs) => σ.executeTx id t r v vs
  | .waitCommit r v vs => if σ.commitReceived v then some (σ.commitExecute t r v vs) else none
  | .finished => none

end RccServer
end Janus.Rcc
