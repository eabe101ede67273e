import Janus.CopilotServer

/-! The decisions of a Copilot coordinator (`copilot/coordinator.cc`) and its quorum events
(`copilot/commo.cc`), which are the lists of the answers fed to them, in their order of arrival. -/

namespace Janus.Copilot

def maxFailure (n : ℕ) : ℕ := n/2

def fastQuorumSize (n : ℕ) : ℕ := maxFailure n+(maxFailure n+1)/2

def quorumSize (n : ℕ) : ℕ := maxFailure n+1

def maxFail (n : ℕ) : ℕ := (n-1)/2

def makeUniqueBallot (locId ballot : ℕ) : ℕ := ballot <<< 8 ||| locId

def pickGreaterBallot (locId ballot : ℕ) : ℕ := makeUniqueBallot locId (ballot >>> 8+1)

section Prepare

variable {C : Type}

/-- The bucket of `FeedRetCmd` for an answer with this status. -/
def Status.reduce (st : Status) : Status :=
  if .committed ≤ st then .committed else if st = .fastAccepted then .fastAcceptedEq else st

def getCmds (oks : List (PrepareReply C)) (st : Status) : List (PrepareReply C) :=
  oks.filter fun r => r.status.reduce = st

/-- What `Prepare` does: it gives up, starts again, or goes on to Accept or Commit with a command
and a dependency. -/
inductive Choice (C : Type)
  | ended
  | retry
  | accept (cmd : Option (Command C)) (dep : ℕ)
  | commit (cmd : Option (Command C)) (dep : ℕ)
  deriving DecidableEq

/-- The choice of `Prepare` before it looks at the status of its own instance. -/
def select (n : ℕ) (oks : List (PrepareReply C)) (curr : CopilotData C) : Choice C :=
  match getCmds oks .committed with
  | r::_ => .commit (some r.cmd) r.dep
  | [] =>
    match getCmds oks .accepted with
    | r::_ => .accept (some r.cmd) r.dep
    | [] =>
      match getCmds oks .fastAcceptedEq with
      | r::rs =>
        if rs.length+1 < (maxFail n+1)/2 then .accept (some .noop) 0
        else if maxFail n ≤ rs.length+1 then .accept (some r.cmd) r.dep
        else .accept curr.cmd curr.depId
      | [] =>
        if maxFail n+1 ≤ (getCmds oks .notAccepted).length then .accept (some .noop) 0
        else .retry

/-- `CoordinatorCopilot::Prepare` after its wait, where `curr` is the instance of its own
server (`none` if freed). -/
def prepareChoice (n : ℕ) (oks : List (PrepareReply C)) (curr : Option (CopilotData C)) :
    Choice C :=
  match curr with
  | none => .ended
  | some ins =>
    match select n oks ins with
    | .retry => .retry
    | choice => if .committed ≤ ins.status then .ended else choice

end Prepare

section FastAccept

/-- `GetFinalDep`: of the sorted dependencies the one at position `n/2`. -/
def getFinalDep (n : ℕ) (retDeps : List ℕ) : ℕ := (retDeps.mergeSort (· ≤ ·)).getD (n/2) 0

end FastAccept

end Janus.Copilot
