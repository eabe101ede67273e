import Mathlib

/-! A Copilot replica (`copilot/server.cc`): the two logs, the message handlers and the execution
of committed entries. Log indices are the source's `is_pilot`. A coroutine that runs `executeCmds`
gives up the reactor thread only where it waits for a commit; it is a program counter that advances
by one loop iteration at a time. The Ping-Pong wait is left to the scheduler. Slots and ballots do
not wrap around. -/

namespace Janus.Copilot

inductive Status
  | notAccepted | fastAccepted | fastAcceptedEq | accepted | committed | executed
  deriving DecidableEq

def Status.toNat : Status → ℕ
  | .notAccepted => 0
  | .fastAccepted => 1
  | .fastAcceptedEq => 2
  | .accepted => 3
  | .committed => 4
  | .executed => 5

theorem Status.toNat_injective : Function.Injective Status.toNat := by
  intro a b h
  cases a <;> cases b <;> first | rfl | exact absurd h (by decide)

instance : LinearOrder Status := LinearOrder.lift' Status.toNat Status.toNat_injective

inductive Command (C : Type)
  | noop
  | op (c : C)
  deriving DecidableEq

/-- `CopilotData`. `cmd` is `none` for the null pointer and `cmitEvt` says whether
`cmit_evt` was set. -/
structure CopilotData (C : Type) where
  cmd : Option (Command C) := none
  depId : ℕ := 0
  ballot : ℕ := 0
  status : Status := .notAccepted
  takeover : Bool := false
  cmitEvt : Bool := false
  deriving DecidableEq

/-- The answer to a Prepare; the takeover flag in the status is masked by its receiver. -/
structure PrepareReply (C : Type) where
  maxBallot : ℕ
  cmd : Command C
  dep : ℕ
  status : Status
  deriving DecidableEq

section Instance

variable {C : Type}

namespace CopilotData

variable (ins : CopilotData C)

def isNoop : Bool :=
  match ins.cmd with
  | some .noop => true
  | _ => false

def prepare (ballot : ℕ) : CopilotData C :=
  if ins.ballot < ballot then {ins with ballot := ballot} else ins

def prepareReply : PrepareReply C :=
  {maxBallot := ins.ballot, cmd := ins.cmd.getD .noop, dep := ins.depId, status := ins.status}

def fastAccept (ballot dep : ℕ) (cmd : Option (Command C))
    (suggest : ℕ) : CopilotData C :=
  if ins.ballot ≤ ballot then
    {ins with
     ballot := ballot, depId := dep, cmd := cmd, takeover := false
     status := if suggest = dep then .fastAcceptedEq else .fastAccepted}
  else ins

def accept (ballot dep : ℕ) (cmd : Option (Command C)) : CopilotData C :=
  if ins.ballot ≤ ballot then
    {ins with ballot := ballot, depId := dep, cmd := cmd, status := .accepted, takeover := false}
  else ins

/-- The update of `OnCommit`: the command is stored, the dependency of the message is not. -/
def commit (cmd : Option (Command C)) : CopilotData C :=
  {ins with cmd := cmd, status := .committed, takeover := false, cmitEvt := true}

def execute : CopilotData C :=
  {ins with status := .executed, takeover := false}

def eliminate : CopilotData C :=
  {ins with status := .executed, takeover := false, cmitEvt := true}

end CopilotData
end Instance

def nCmdKeep : ℕ := 15000

/-- An entry of the map `logs` may be absent (`none`) or hold a null pointer (`some none`), which
`operator[]` leaves behind. -/
structure CopilotLogInfo (C : Type) where
  logs : ℕ → Option (Option (CopilotData C)) := fun _ => none
  currentSlot : ℕ := 0
  minActiveSlot : ℕ := 1
  maxExecutedSlot : ℕ := 0
  maxCommittedSlot : ℕ := 0
  maxAcceptedSlot : ℕ := 0

namespace CopilotLogInfo

variable {C : Type}

variable (l : CopilotLogInfo C)

def set (slot : ℕ) (ins : CopilotData C) : CopilotLogInfo C :=
  {l with logs := Function.update l.logs slot (some (some ins))}

def see (slot : ℕ) : CopilotLogInfo C :=
  {l with currentSlot := max slot l.currentSlot}

def Freed (slot : ℕ) : Prop := slot < l.minActiveSlot ∧ slot ≠ 0

instance (l : CopilotLogInfo C) (slot : ℕ) : Decidable (l.Freed slot) := by
  unfold Freed
  infer_instance

def ins (slot : ℕ) : CopilotData C := (l.logs slot).join.getD {}

def getInstance (slot : ℕ) : Option (CopilotData C × CopilotLogInfo C) :=
  if l.Freed slot then none else some (l.ins slot,l.set slot (l.ins slot))

/-- The loop of `updateMaxExecSlot`, `updateMaxAcptSlot` and `updateMaxCmtdSlot`: the first slot
from `i` on with an instance below `bound`. -/
def scan (l : CopilotLogInfo C) (bound : Status) : ℕ → ℕ → ℕ
  | 0, i => i
  | k+1, i =>
    match l.logs i with
    | some (some d) => if d.status < bound then i else l.scan bound k (i+1)
    | _ => l.scan bound k (i+1)

def scanMax (bound : Status) (old slot : ℕ) : ℕ :=
  l.scan bound (slot-old) (old+1)-1

def touch (old new : ℕ) : CopilotLogInfo C :=
  {l with
   logs := fun i => if old < i ∧ i ≤ new ∧ (l.logs i).isNone then some none else l.logs i}

def updateMaxExecSlot (slot : ℕ) : CopilotLogInfo C :=
  {l.touch l.maxExecutedSlot (l.scanMax .executed l.maxExecutedSlot slot) with
   maxExecutedSlot := l.scanMax .executed l.maxExecutedSlot slot}

def updateMaxAcptSlot (slot : ℕ) : CopilotLogInfo C :=
  {l.touch l.maxAcceptedSlot (l.scanMax .fastAcceptedEq l.maxAcceptedSlot slot) with
   maxAcceptedSlot := l.scanMax .fastAcceptedEq l.maxAcceptedSlot slot}

def updateMaxCmtdSlot (slot : ℕ) : CopilotLogInfo C :=
  {l.touch l.maxCommittedSlot (l.scanMax .committed l.maxCommittedSlot slot) with
   maxCommittedSlot := l.scanMax .committed l.maxCommittedSlot slot}

/-- The check of `OnFastAccept` against the other pilot's log, from `j` on; `none` where
it meets a null entry. -/
def checkFrom (l : CopilotLogInfo C) (slot dep : ℕ) : ℕ → ℕ → Option ℕ
  | 0, _ => some dep
  | k+1, j =>
    match l.logs j with
    | none => l.checkFrom slot dep k (j+1)
    | some none => none
    | some (some d) =>
      if d.depId ≠ 0 ∧ d.depId < slot then some l.maxAcceptedSlot
      else l.checkFrom slot dep k (j+1)

def suggestDep (slot dep : ℕ) : Option ℕ :=
  if dep = 0 then some dep else l.checkFrom slot dep (l.maxAcceptedSlot-dep) (dep+1)

/-- The loop at the end of `OnCommit` that frees executed entries, with `removeCmd`. -/
def freeLoop : ℕ → CopilotLogInfo C → Option (CopilotLogInfo C)
  | 0, l => some l
  | k+1, l =>
    if l.minActiveSlot+nCmdKeep < l.maxExecutedSlot then
      match (l.logs l.minActiveSlot).join.bind CopilotData.cmd with
      | none => none
      | some _ =>
        freeLoop k {l with
          logs := Function.update l.logs l.minActiveSlot none
          minActiveSlot := l.minActiveSlot+1}
    else some l

end CopilotLogInfo

/-- `CopilotServer`. `applied` is the sequence of calls of `app_next_`, each with the log
and slot of its entry. -/
structure CopilotServer (C : Type) where
  logInfos : Bool → CopilotLogInfo C
  applied : List (Bool × ℕ × C) := []

/-- Where a coroutine in `executeCmds` stands: at the head of the loop over its own log, waiting
for the commit of entry `i` with the dependency looked up before, at the head of the loop over the
dependencies of `i`, or waiting for one of them. -/
inductive Pc
  | entry (i : ℕ)
  | waitEntry (i dep : ℕ)
  | deps (i j : ℕ)
  | waitDep (i j : ℕ)
  deriving DecidableEq

structure Task where
  isPilot : Bool
  slot : ℕ
  pc : Pc
  deriving DecidableEq

inductive Next
  | run (pc : Pc)
  | wait (pc : Pc)
  | finished

namespace CopilotServer

variable {C : Type}

def setup : CopilotServer C :=
  {logInfos := fun _ => ({} : CopilotLogInfo C).set 0 {status := .executed}}

variable (s : CopilotServer C)

def setLog (p : Bool) (l : CopilotLogInfo C) : CopilotServer C :=
  {s with logInfos := Function.update s.logInfos p l}

def pickInitSlotAndDep (p : Bool) : ℕ × ℕ × CopilotServer C :=
  let slot := (s.logInfos p).currentSlot+1
  (slot,(s.logInfos !p).currentSlot,s.setLog p {s.logInfos p with currentSlot := slot})

def onPrepare (p : Bool) (slot ballot : ℕ) :
    CopilotServer C × PrepareReply C :=
  match (s.logInfos p).getInstance slot with
  | none =>
    -- this entry is so old that it is already freed
    (s.setLog p ((s.logInfos p).see slot),
      {maxBallot := ballot, cmd := .noop, dep := 0, status := .executed})
  | some (ins,l) =>
    (s.setLog p ((l.see slot).set slot (ins.prepare ballot)),(ins.prepare ballot).prepareReply)

/-- `OnFastAccept` answers with the ballot of the request and a dependency. -/
def onFastAccept (p : Bool) (slot ballot dep : ℕ)
    (cmd : Option (Command C)) : Option (CopilotServer C × ℕ × ℕ) :=
  match (s.logInfos p).getInstance slot with
  | none => none
  | some (ins,l) =>
    match (s.logInfos !p).suggestDep slot dep with
    | none => none
    | some suggest =>
      let l' := (l.see slot).set slot (ins.fastAccept ballot dep cmd suggest)
      some (s.setLog p
        (if ins.ballot ≤ ballot ∧ suggest = dep then l'.updateMaxAcptSlot slot else l'),
        ballot,suggest)

def onAccept (p : Bool) (slot ballot dep : ℕ)
    (cmd : Option (Command C)) : Option (CopilotServer C × ℕ) :=
  match (s.logInfos p).getInstance slot with
  | none => none
  | some (ins,l) =>
    let l' := (l.see slot).set slot (ins.accept ballot dep cmd)
    some (s.setLog p (if ins.ballot ≤ ballot then l'.updateMaxAcptSlot slot else l'),ballot)

/-- `OnCommit` up to its call of `executeCmds`, and whether it comes to that call. -/
def onCommit (p : Bool) (slot _dep : ℕ) (cmd : Option (Command C)) :
    CopilotServer C × Bool :=
  match (s.logInfos p).getInstance slot with
  | none => (s.setLog p ((s.logInfos p).see slot),false)
  | some (ins,l) =>
    if .committed ≤ ins.status then (s.setLog p (l.see slot),false)
    else (s.setLog p (((l.see slot).set slot (ins.commit cmd)).updateMaxCmtdSlot slot),true)

def executeCmd (p : Bool) (slot : ℕ) : Option (CopilotServer C) :=
  let ins := (s.logInfos p).ins slot
  let s' := s.setLog p (((s.logInfos p).set slot ins.execute).updateMaxExecSlot slot)
  match ins.cmd with
  | none => none
  | some .noop => some s'
  | some (.op c) => some {s' with applied := s.applied++[(p,slot,c)]}

/-- `EliminateNullDep`; `committed` is the answer of the transaction scheduler for the
batch of the entry. -/
def eliminateNullDep (p : Bool) (slot : ℕ) (committed : Bool) :
    Option (CopilotServer C × Bool) :=
  let ins := (s.logInfos p).ins slot
  let s' := s.setLog p
    ((((s.logInfos p).set slot ins.eliminate).updateMaxCmtdSlot slot).updateMaxExecSlot slot)
  if ins.status < .fastAccepted then some (s,false)
  else if ins.status = .executed then some (s,true)
  else
    match ins.cmd with
    | none => none
    | some .noop => some (s',true)
    | some (.op _) => if committed then some (s',true) else some (s,false)

/-- `AllDepsEliminated` from entry `i` of log `p` on, for `k` entries. -/
def allDepsEliminated (p : Bool) (committed : ℕ → Bool) :
    ℕ → ℕ → CopilotServer C → Option (CopilotServer C × Bool)
  | 0, _, s => some (s,true)
  | k+1, i, s =>
    match (s.logInfos p).getInstance i with
    | none => none
    | some (_,l) =>
      match (s.setLog p l).eliminateNullDep p i (committed i) with
      | none => none
      | some (s',true) => allDepsEliminated p committed k (i+1) s'
      | some (s',false) => some (s',false)

def awake (t : Task) : Bool :=
  match t.pc with
  | .waitEntry i _ => ((s.logInfos t.isPilot).ins i).cmitEvt
  | .waitDep _ j => ((s.logInfos !t.isPilot).ins j).cmitEvt
  | _ => false

/-- `executeCmds` from the point where entry `i` of log `p` counts as committed. -/
def runEntry (p : Bool) (i dep : ℕ) : Option (CopilotServer C × Next) :=
  let w := (s.logInfos p).ins i
  if (s.logInfos p).Freed i ∨ (w.depId ≠ 0 ∧ w.cmd = none) then none
  else if w.depId = 0 ∨ w.isNoop ∨ (s.logInfos !p).Freed dep ∨
      ((s.logInfos !p).ins dep).status = .executed then
    -- case 1: no dependency, no-op, or dependency has been executed
    (s.executeCmd p i).map fun s' => (s',.run (.entry (i+1)))
  else some (s,.run (.deps i ((s.logInfos !p).maxExecutedSlot+1)))

/-- The loop over the dependencies from the point where `j` counts as committed. -/
def runDep (p : Bool) (i j : ℕ) : Option (CopilotServer C × Next) :=
  let d := (s.logInfos !p).ins j
  if (s.logInfos !p).Freed j then none
  else if .executed ≤ d.status then some (s,.run (.deps i (j+1)))
  else if d.depId ≠ 0 ∧ d.cmd = none then none
  else if d.depId ≠ 0 ∧ d.isNoop = false ∧ i ≤ d.depId ∧ p = true then
    -- case 2.3.1: a cycle, and d has lower priority
    (s.executeCmd p i).map fun s' => (s',.run (.entry (i+1)))
  else (s.executeCmd (!p) j).map fun s' => (s',.run (.deps i (j+1)))

/-- One iteration of a coroutine; `committed` is the answer of the transaction scheduler if
it is asked. -/
def runTask (committed : Bool) (t : Task) : Option (CopilotServer C × Next) :=
  let p := t.isPilot
  match t.pc with
  | .entry i =>
    if t.slot < i then
      -- back in OnCommit: free old entries
      (CopilotLogInfo.freeLoop (s.logInfos p).maxExecutedSlot (s.logInfos p)).map fun l =>
        (s.setLog p l,.finished)
    else
      match (s.logInfos p).getInstance i with
      | none => none
      | some (w,l) =>
        let s₁ := s.setLog p l
        match (s₁.logInfos !p).getInstance w.depId with
        | none => some (s₁,.run (.entry (i+1)))
        | some (_,l') =>
          let s₂ := s₁.setLog (!p) l'
          if w.status = .executed then some (s₂,.run (.entry (i+1)))
          else if w.status < .committed ∧ w.cmitEvt = false then
            some (s₂,.wait (.waitEntry i w.depId))
          else s₂.runEntry p i w.depId
  | .waitEntry i dep => s.runEntry p i dep
  | .deps i j =>
    if ((s.logInfos p).ins i).depId < j then
      (s.executeCmd p i).map fun s' => (s',.run (.entry (i+1)))
    else
      match (s.logInfos !p).getInstance j with
      | none => none
      | some (d,l) =>
        let s₁ := s.setLog (!p) l
        if i ≤ d.depId ∧ p = true then
          -- case 1: a cycle, and d has lower priority
          (s₁.executeCmd p i).map fun s' => (s',.run (.entry (i+1)))
        else
          match s₁.eliminateNullDep (!p) j committed with
          | none => none
          | some (s₂,true) => some (s₂,.run (.deps i (j+1)))
          | some (s₂,false) =>
            if d.cmitEvt then s₂.runDep p i j else some (s₂,.wait (.waitDep i j))
  | .waitDep i j => s.runDep p i j

end CopilotServer

end Janus.Copilot
