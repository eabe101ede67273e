import Janus.CopilotCoordinator
import Janus.CopilotEffects
import Janus.Transition

/-! A Copilot partition: replicas `0`, ..., `n-1`, of which `0` is the pilot and `1` the copilot,
their coordinators (`copilot/coordinator.cc`) and broadcasts (`copilot/commo.cc`). Messages and
replies may take any time, and those that are lost never arrive. The handlers, coordinators and
`executeCmds` coroutines of a replica share one reactor thread. -/

namespace Janus.Copilot

open Transition Function CopilotServer Option

inductive Message (C : Type)
  | fastAccept (ballot dep : ℕ) (cmd : Option (Command C))
  | accept (ballot dep : ℕ) (cmd : Option (Command C))
  | prepare (ballot : ℕ)
  | commit (dep : ℕ) (cmd : Option (Command C))

inductive Reply (C : Type)
  | dep (d : ℕ)
  | ok
  | prepared (r : PrepareReply C)

/-- A broadcast for a slot with its quorum event: the replies sent so far, and the sites whose
replies have been fed to the event, in that order. -/
structure Cast (C : Type) where
  site : ℕ
  isPilot : Bool
  slot : ℕ
  msg : Message C
  replies : ℕ → Option (Reply C) := fun _ => none
  answers : List ℕ := []

namespace Cast

variable {C : Type}

def fresh (site : ℕ) (p : Bool) (slot : ℕ) (msg : Message C) : Cast C :=
  {site := site, isPilot := p, slot := slot, msg := msg}

def withReply (e : Cast C) (r : ℕ) (ρ : Reply C) : Cast C :=
  {e with replies := update e.replies r (some ρ)}

def withAnswer (e : Cast C) (r : ℕ) : Cast C := {e with answers := e.answers++[r]}

def retDeps (e : Cast C) : List ℕ :=
  e.answers.filterMap fun r =>
    match e.replies r with
    | some (.dep d) => some d
    | _ => none

def prepared (e : Cast C) : List (ℕ × PrepareReply C) :=
  e.answers.filterMap fun r =>
    match e.replies r with
    | some (.prepared rep) => some (r,rep)
    | _ => none

def oks (e : Cast C) (ballot : ℕ) : List (ℕ × PrepareReply C) :=
  e.prepared.filter fun a => a.2.maxBallot = ballot

def prepareReady (e : Cast C) (n ballot : ℕ) : Prop :=
  (∃ a ∈ e.oks ballot, .committed ≤ a.2.status) ∨ quorumSize n ≤ (e.oks ballot).length ∨
    n-quorumSize n < (e.prepared.filter fun a => a.2.maxBallot ≠ ballot).length

instance (e : Cast C) (n ballot : ℕ) : Decidable (e.prepareReady n ballot) := by
  unfold prepareReady
  infer_instance

def fastYes (e : Cast C) (n dep : ℕ) : Bool :=
  fastQuorumSize n ≤ (e.retDeps.filter fun d => d = dep).length

end Cast

/-- Where a coordinator stands: waiting for the event of a broadcast in FastAccept or Accept, after
the Commit for the dependency, or in the loop over the slots it takes over, at the head, in Prepare
with `curr_ballot_`, or in Accept. -/
inductive Phase (C : Type)
  | fastAccept (k : ℕ)
  | accept (k : ℕ)
  | waiting
  | takeover (i : ℕ)
  | prepare (i ballot k : ℕ)
  | takeoverAccept (i dep : ℕ) (cmd : Option (Command C)) (k : ℕ)
  | done

/-- `CoordinatorCopilot`, with the values for its own slot. The loop over the takeovers keeps what
it needs in variables of its own. -/
structure Coord (C : Type) where
  site : ℕ
  slot : ℕ
  dep : ℕ
  ballot : ℕ
  cmd : Option (Command C)
  phase : Phase C

def pilotLog (site : ℕ) : Bool := site = 0

def Coord.isPilot {C : Type} (x : Coord C) : Bool := pilotLog x.site

/-- A replica: its server, the coroutine that runs, those that wait for a commit, and the
instances that `OnCommit` has marked. -/
structure Replica (C : Type) where
  server : CopilotServer C
  running : Option Task := none
  waiting : List Task := []
  marked : Bool → ℕ → Bool := fun _ _ => false

structure Cluster (C : Type) where
  replicas : ℕ → Replica C
  casts : ℕ → Option (Cast C) := fun _ => none
  nextCast : ℕ := 0
  coords : ℕ → Option (Coord C) := fun _ => none
  nextCoord : ℕ := 0

/-- A client command reaches a pilot, a message a replica, a reply the event; a coordinator goes
on, a coroutine makes an iteration or is resumed. The transaction scheduler's answers are part of
the step. -/
inductive Action (C : Type)
  | submit (site : ℕ) (c : C)
  | receive (k r : ℕ)
  | arrive (k r : ℕ)
  | resume (c : ℕ) (committed : ℕ → Bool)
  | exec (r : ℕ) (committed : Bool)
  | wake (r m : ℕ)

namespace Cluster

variable {C : Type}

def start : Cluster C := {replicas := fun _ => {server := .setup}}

def server (s : Cluster C) (r : ℕ) : CopilotServer C := (s.replicas r).server

def marked (s : Cluster C) (r : ℕ) (p : Bool) (slot : ℕ) : Bool := (s.replicas r).marked p slot

variable (s : Cluster C)

def setServer (r : ℕ) (v : CopilotServer C) : Cluster C :=
  {s with replicas := update s.replicas r {s.replicas r with server := v}}

def setCoord (c : ℕ) (x : Coord C) : Cluster C :=
  {s with coords := update s.coords c (some x)}

def post (e : Cast C) : Cluster C :=
  {s with casts := update s.casts s.nextCast (some e), nextCast := s.nextCast + 1}

def postLocal (e : Cast C) (ρ : Reply C) : Cluster C :=
  s.post ((e.withReply e.site ρ).withAnswer e.site)

def addCoord (x : Coord C) : Cluster C :=
  {s with
   coords := update s.coords s.nextCoord (some x)
   nextCoord := s.nextCoord + 1}

/-- `Submit` up to the wait in `FastAccept`. The site counts its own answer as an agreement
whatever its check came to. -/
def submit (site : ℕ) (c : C) : Option (Cluster C) :=
  let p := pilotLog site
  let pick := (s.server site).pickInitSlotAndDep p
  let slot := pick.1
  let dep := pick.2.1
  let ballot := makeUniqueBallot site 0
  let cmd : Option (Command C) := some (.op c)
  (pick.2.2.onFastAccept p slot ballot dep cmd).map fun a =>
    ((s.setServer site a.1).postLocal (.fresh site p slot (.fastAccept ballot dep cmd))
      (.dep dep)).addCoord
      {site := site, slot := slot, dep := dep, ballot := ballot, cmd := cmd
       phase := .fastAccept s.nextCast}

def setReply (k : ℕ) (e : Cast C) (r : ℕ) (ρ : Reply C) : Cluster C :=
  {s with casts := update s.casts k (some (e.withReply r ρ))}

def setAnswer (k : ℕ) (e : Cast C) (r : ℕ) : Cluster C :=
  {s with casts := update s.casts k (some (e.withAnswer r))}

def setMarked (r : ℕ) (p : Bool) (slot : ℕ) : Cluster C :=
  {s with
   replicas := update s.replicas r {s.replicas r with
     running := some ⟨p,slot,.entry (((s.server r).logInfos p).maxExecutedSlot+1)⟩
     marked := fun q j => decide (q = p ∧ j = slot) || (s.replicas r).marked q j}}

def receive (k : ℕ) (e : Cast C) (r : ℕ) : Option (Cluster C) :=
  let v := s.server r
  match e.msg with
  | .fastAccept ballot dep cmd =>
    (v.onFastAccept e.isPilot e.slot ballot dep cmd).map fun a =>
      (s.setServer r a.1).setReply k e r (.dep a.2.2)
  | .accept ballot dep cmd =>
    (v.onAccept e.isPilot e.slot ballot dep cmd).map fun a =>
      (s.setServer r a.1).setReply k e r .ok
  | .prepare ballot =>
    let a := v.onPrepare e.isPilot e.slot ballot
    some ((s.setServer r a.1).setReply k e r (.prepared a.2))
  | .commit dep cmd =>
    let a := v.onCommit e.isPilot e.slot dep cmd
    let s₁ := (s.setServer r a.1).setReply k e r .ok
    some (if a.2 then s₁.setMarked r e.isPilot e.slot else s₁)

def broadcastAccept (site : ℕ) (p : Bool) (slot ballot dep : ℕ)
    (cmd : Option (Command C)) : Option (Cluster C) :=
  if cmd.isNone then none
  else
    ((s.server site).onAccept p slot ballot dep cmd).map fun a =>
      (s.setServer site a.1).postLocal (.fresh site p slot (.accept ballot dep cmd)) .ok

def commit (s : Cluster C) (c : ℕ) (x : Coord C) (committed : ℕ → Bool) : Option (Cluster C) :=
  let p := x.isPilot
  let s₁ := s.post (.fresh x.site p x.slot (.commit x.dep x.cmd))
  let v := s.server x.site
  match (v.logInfos !p).getInstance x.dep with
  | none => some (s₁.setCoord c {x with phase := .done})
  | some (_,l) =>
    let v₁ := v.setLog (!p) l
    if x.dep = 0 then some ((s₁.setServer x.site v₁).setCoord c {x with phase := .done})
    else
      let start := (v.logInfos !p).maxExecutedSlot
      (allDepsEliminated (!p) committed (x.dep-start) (start+1) v₁).map fun a =>
        (s₁.setServer x.site a.1).setCoord c {x with phase := if a.2 then .done else .waiting}

def commitTaken (c : ℕ) (x : Coord C) (i dep : ℕ) (cmd : Option (Command C)) :
    Cluster C :=
  let p := x.isPilot
  let s₁ := s.post (.fresh x.site (!p) i (.commit dep cmd))
  let v := s.server x.site
  let v₁ := match (v.logInfos p).getInstance dep with
    | none => v
    | some (_,l) => v.setLog p l
  (s₁.setServer x.site v₁).setCoord c {x with phase := .takeover (i+1)}

def broadcastPrepare (c : ℕ) (x : Coord C) (i ballot : ℕ) : Cluster C :=
  (s.post (.fresh x.site (!x.isPilot) i (.prepare (pickGreaterBallot x.site ballot)))).setCoord c
    {x with phase := .prepare i ballot s.nextCast}

def takeover (s : Cluster C) (c : ℕ) (x : Coord C) (i : ℕ) (committed : Bool) :
    Option (Cluster C) :=
  let q := !x.isPilot
  let v := s.server x.site
  let skip (s : Cluster C) : Cluster C := s.setCoord c {x with phase := .takeover (i+1)}
  if x.dep < i then some (s.setCoord c {x with phase := .done})
  else
    match (v.logInfos q).getInstance i with
    | none => some (skip s)
    | some (ins,l) =>
      let v₁ := v.setLog q l
      if ins.takeover = true ∨ .committed ≤ ins.status then some (skip (s.setServer x.site v₁))
      else
        match v₁.eliminateNullDep q i committed with
        | none => none
        | some (v₂,true) => some (skip (s.setServer x.site v₂))
        | some (v₂,false) =>
          some ((s.setServer x.site (v₂.setLog q ((v₂.logInfos q).set i {ins with takeover := true}))
            ).broadcastPrepare c x i ins.ballot)

def prepared (n : ℕ) (s : Cluster C) (c : ℕ) (x : Coord C) (i ballot : ℕ) (e : Cast C) :
    Option (Cluster C) :=
  let q := !x.isPilot
  let v := s.server x.site
  let oks := e.oks (pickGreaterBallot x.site ballot)
  if e.prepareReady n (pickGreaterBallot x.site ballot) then
    match (v.logInfos q).getInstance i with
    | none => some (s.setCoord c {x with phase := .takeover (i+1)})
    | some (ins,l) =>
      let s₁ := s.setServer x.site (v.setLog q l)
      match prepareChoice n (oks.map Prod.snd) (some ins) with
      | .ended => some (s₁.setCoord c {x with phase := .takeover (i+1)})
      | .retry => some (s₁.broadcastPrepare c x i ballot)
      | .accept cmd dep =>
        (s₁.broadcastAccept x.site q i ballot dep cmd).map fun s₂ =>
          s₂.setCoord c {x with phase := .takeoverAccept i dep cmd s.nextCast}
      | .commit cmd dep => some (s₁.commitTaken c x i dep cmd)
  else none

def resume (n : ℕ) (s : Cluster C) (c : ℕ) (x : Coord C) (committed : ℕ → Bool) :
    Option (Cluster C) :=
  match x.phase with
  | .fastAccept k =>
    (s.casts k).bind fun e =>
      if e.answers.length < fastQuorumSize n then none
      else if e.fastYes n x.dep then s.commit c x committed
      else if e.retDeps.length < n/2+1 then none
      else
        (s.broadcastAccept x.site x.isPilot x.slot x.ballot (getFinalDep n e.retDeps) x.cmd).map
          fun s₁ => s₁.setCoord c {x with
            dep := getFinalDep n e.retDeps
            phase := .accept s.nextCast}
  | .accept k =>
    (s.casts k).bind fun e =>
      if e.answers.length < quorumSize n then none else s.commit c x committed
  | .waiting =>
    -- the dependency is committed, or the wait has timed out
    let start := ((s.server x.site).logInfos !x.isPilot).maxCommittedSlot+1
    some (s.setCoord c {x with phase := if x.dep < start then .done else .takeover start})
  | .takeover i => s.takeover c x i (committed i)
  | .prepare i ballot k => (s.casts k).bind fun e => s.prepared n c x i ballot e
  | .takeoverAccept i dep cmd k =>
    (s.casts k).bind fun e =>
      if e.answers.length < quorumSize n then none else some (s.commitTaken c x i dep cmd)
  | .done => none

def setTasks (r : ℕ) (running : Option Task) (waiting : List Task) : Cluster C :=
  {s with
   replicas := update s.replicas r
     {s.replicas r with running := running, waiting := waiting}}

def exec (r : ℕ) (t : Task) (committed : Bool) : Option (Cluster C) :=
  (( s.server r).runTask committed t).map fun a =>
    let waiting := (s.replicas r).waiting
    match a.2 with
    | .run pc => (s.setServer r a.1).setTasks r (some {t with pc := pc}) waiting
    | .wait pc => (s.setServer r a.1).setTasks r none (waiting++[{t with pc := pc}])
    | .finished => (s.setServer r a.1).setTasks r none waiting

def step (n : ℕ) (s : Cluster C) : Action C → Option (Cluster C)
  | .submit site c =>
    if site < n ∧ site < 2 ∧ (s.replicas site).running = none then s.submit site c else none
  | .receive k r =>
    (s.casts k).bind fun e =>
      if r < n ∧ (e.replies r).isNone ∧ (s.replicas r).running = none then s.receive k e r else none
  | .arrive k r =>
    (s.casts k).bind fun e =>
      if (e.replies r).isSome ∧ r ∉ e.answers then some (s.setAnswer k e r) else none
  | .resume c committed =>
    (s.coords c).bind fun x =>
      if (s.replicas x.site).running = none then s.resume n c x committed else none
  | .exec r committed => (s.replicas r).running.bind fun t => s.exec r t committed
  | .wake r m =>
    ((s.replicas r).waiting[m]?).bind fun t =>
      if (s.replicas r).running = none ∧ (s.server r).awake t = true then
        some (s.setTasks r (some t) ((s.replicas r).waiting.eraseIdx m))
      else none

end Cluster

def system (C : Type) (n : ℕ) : System (Cluster C) (Action C) where
  init s := s = .start
  step := Cluster.step n

namespace Cluster

variable {C : Type} {n : ℕ} {s s' : Cluster C}

section Views

variable (s) (r : ℕ) (v : CopilotServer C) (c : ℕ) (x : Coord C) (e : Cast C)

@[simp] theorem server_setServer (a : ℕ) :
    (s.setServer r v).server a = if a = r then v else s.server a := by
  unfold server setServer
  rcases eq_or_ne a r with rfl | hne
  · simp
  · simp [hne]

@[simp] theorem marked_setServer (a : ℕ) : (s.setServer r v).marked a = s.marked a := by
  unfold marked setServer
  rcases eq_or_ne a r with rfl | hne
  · simp
  · simp [hne]

@[simp] theorem casts_setServer : (s.setServer r v).casts = s.casts := rfl

@[simp] theorem server_post : (s.post e).server = s.server := rfl

@[simp] theorem marked_post : (s.post e).marked = s.marked := rfl

@[simp] theorem casts_post (k : ℕ) :
    (s.post e).casts k = if k = s.nextCast then some e else s.casts k := by
  unfold post
  rcases eq_or_ne k s.nextCast with rfl | hne
  · simp
  · simp [hne]

@[simp] theorem server_setCoord : (s.setCoord c x).server = s.server := rfl

@[simp] theorem marked_setCoord : (s.setCoord c x).marked = s.marked := rfl

@[simp] theorem casts_setCoord : (s.setCoord c x).casts = s.casts := rfl

@[simp] theorem coords_setCoord (a : ℕ) :
    (s.setCoord c x).coords a = if a = c then some x else s.coords a := by
  unfold setCoord
  rcases eq_or_ne a c with rfl | hne
  · simp
  · simp [hne]

@[simp] theorem server_addCoord : (s.addCoord x).server = s.server := rfl

@[simp] theorem marked_addCoord : (s.addCoord x).marked = s.marked := rfl

@[simp] theorem casts_addCoord : (s.addCoord x).casts = s.casts := rfl

@[simp] theorem coords_addCoord (a : ℕ) :
    (s.addCoord x).coords a = if a = s.nextCoord then some x else s.coords a := by
  unfold addCoord
  rcases eq_or_ne a s.nextCoord with rfl | hne
  · simp
  · simp [hne]

theorem setServer_self : s.setServer r (s.server r) = s := by
  unfold setServer server
  rw [update_eq_self]

@[simp] theorem setServer_setServer (v' : CopilotServer C) :
    (s.setServer r v).setServer r v' = s.setServer r v' := by
  unfold setServer
  simp [update_idem]

theorem post_setServer : (s.setServer r v).post e = (s.post e).setServer r v := rfl

@[simp] theorem server_setReply (k : ℕ) (ρ : Reply C) : (s.setReply k e r ρ).server = s.server := rfl

@[simp] theorem marked_setReply (k : ℕ) (ρ : Reply C) : (s.setReply k e r ρ).marked = s.marked := rfl

@[simp] theorem casts_setReply (k : ℕ) (ρ : Reply C) (a : ℕ) : (s.setReply k e r ρ).casts a =
    if a = k then some (e.withReply r ρ) else s.casts a := by
  unfold setReply
  rcases eq_or_ne a k with rfl | hne
  · simp
  · simp [hne]

@[simp] theorem server_setMarked (p : Bool) (slot a : ℕ) :
    (s.setMarked r p slot).server a = s.server a := by
  unfold server setMarked
  rcases eq_or_ne a r with rfl | hne
  · simp [server]
  · simp [hne]

@[simp] theorem marked_setMarked (p : Bool) (slot a : ℕ) (q : Bool) (j : ℕ) :
    (s.setMarked r p slot).marked a q j =
      if a = r ∧ q = p ∧ j = slot then true else s.marked a q j := by
  unfold marked setMarked
  rcases eq_or_ne a r with rfl | hne
  · by_cases hq : q = p ∧ j = slot
    · simp [hq]
    · simp [hq]
  · simp [hne]

@[simp] theorem server_setTasks (running : Option Task) (waiting : List Task) (a : ℕ) :
    (s.setTasks r running waiting).server a = s.server a := by
  unfold server setTasks
  rcases eq_or_ne a r with rfl | hne
  · simp
  · simp [hne]

@[simp] theorem marked_setTasks (running : Option Task) (waiting : List Task) (a : ℕ) :
    (s.setTasks r running waiting).marked a = s.marked a := by
  unfold marked setTasks
  rcases eq_or_ne a r with rfl | hne
  · simp
  · simp [hne]

end Views

def Eliminates (v : CopilotServer C) (x : Coord C) (committed : ℕ → Bool) (v' : CopilotServer C) :
    Prop :=
  v.Alike v' ∨ ∃ v₁ b, v.Alike v₁ ∧ allDepsEliminated (!x.isPilot) committed
    (x.dep-(v.logInfos !x.isPilot).maxExecutedSlot) ((v.logInfos !x.isPilot).maxExecutedSlot+1) v₁ =
      some (v',b)

inductive Resumes (n : ℕ) (s : Cluster C) (c : ℕ) (x : Coord C) (committed : ℕ → Bool) :
    Cluster C → Prop
  | commits {k e v ph} (hk : s.casts k = some e)
      (hph : x.phase = .fastAccept k ∧ fastQuorumSize n ≤ e.answers.length ∧
          e.fastYes n x.dep = true ∨
        x.phase = .accept k ∧ quorumSize n ≤ e.answers.length)
      (hv : Eliminates (s.server x.site) x committed v) (hdone : ph = .done ∨ ph = .waiting) :
      Resumes n s c x committed
        (((s.post (.fresh x.site x.isPilot x.slot (.commit x.dep x.cmd))).setServer x.site v).setCoord
          c {x with phase := ph})
  | accepts {k e v b} (hk : s.casts k = some e) (hph : x.phase = .fastAccept k)
      (hyes : fastQuorumSize n ≤ e.answers.length) (hno : e.fastYes n x.dep = false)
      (hlen : n/2 < e.retDeps.length)
      (hv : (s.server x.site).onAccept x.isPilot x.slot x.ballot (getFinalDep n e.retDeps) x.cmd =
        some (v,b)) :
      Resumes n s c x committed (((s.setServer x.site v).postLocal
        (.fresh x.site x.isPilot x.slot (.accept x.ballot (getFinalDep n e.retDeps) x.cmd)) .ok).setCoord c
        {x with dep := getFinalDep n e.retDeps, phase := .accept s.nextCast})
  | quiet {v ph} (hph : x.phase = .waiting ∨ (∃ i, x.phase = .takeover i) ∨
        ∃ i b k, x.phase = .prepare i b k)
      (hv : (s.server x.site).Keeps v) (hnext : ph = .done ∨ ∃ i, ph = .takeover i)
      (hwait : x.phase = .waiting → v = s.server x.site ∧
        (x.dep ≤ ((s.server x.site).logInfos !x.isPilot).maxCommittedSlot → ph = .done)) :
      Resumes n s c x committed ((s.setServer x.site v).setCoord c {x with phase := ph})
  | prepares {i v b} (hph : x.phase = .takeover i ∧ i ≤ x.dep ∧
          ¬(s.server x.site).Freed (!x.isPilot) i ∧
          b = ((s.server x.site).ins (!x.isPilot) i).ballot ∧
          ((s.server x.site).ins (!x.isPilot) i).takeover = false ∧
          ((s.server x.site).ins (!x.isPilot) i).status < .committed ∨ ∃ k, x.phase = .prepare i b k)
      (hv : (s.server x.site).Keeps v) :
      Resumes n s c x committed ((s.setServer x.site v).broadcastPrepare c x i b)
  | acceptsTaken {i b k e v v' b' cmd dep} (hk : s.casts k = some e) (hph : x.phase = .prepare i b k)
      (hready : e.prepareReady n (pickGreaterBallot x.site b))
      (hchoice : prepareChoice n ((e.oks (pickGreaterBallot x.site b)).map Prod.snd)
        (some ((s.server x.site).ins (!x.isPilot) i)) = .accept cmd dep)
      (hcmd : cmd ≠ none) (hv : (s.server x.site).Alike v)
      (hv' : v.onAccept (!x.isPilot) i b dep cmd = some (v',b')) :
      Resumes n s c x committed (((s.setServer x.site v').postLocal
        (.fresh x.site (!x.isPilot) i (.accept b dep cmd)) .ok).setCoord c
        {x with phase := .takeoverAccept i dep cmd s.nextCast})
  | commitsTaken {i k e v cmd dep} (hk : s.casts k = some e)
      (hph : x.phase = .takeoverAccept i dep cmd k ∧ quorumSize n ≤ e.answers.length ∨
        ∃ b, x.phase = .prepare i b k ∧ prepareChoice n
          ((e.oks (pickGreaterBallot x.site b)).map Prod.snd)
          (some ((s.server x.site).ins (!x.isPilot) i)) = .commit cmd dep)
      (hv : (s.server x.site).Alike v) :
      Resumes n s c x committed
        (((s.post (.fresh x.site (!x.isPilot) i (.commit dep cmd))).setServer x.site v).setCoord
          c {x with phase := .takeover (i+1)})

theorem Resumes.still {c : ℕ} {x : Coord C} {committed : ℕ → Bool} {ph : Phase C}
    (hph : x.phase = .waiting ∨ (∃ i, x.phase = .takeover i) ∨ ∃ i b k, x.phase = .prepare i b k)
    (hnext : ph = .done ∨ ∃ i, ph = .takeover i) (hwait : x.phase = .waiting →
      x.dep ≤ ((s.server x.site).logInfos !x.isPilot).maxCommittedSlot → ph = .done) :
    Resumes n s c x committed (s.setCoord c {x with phase := ph}) := by
  have hquiet : Resumes n s c x committed _ :=
    .quiet hph (.refl _) hnext fun hw => ⟨rfl,hwait hw⟩
  rwa [setServer_self] at hquiet

theorem commit_spec {c : ℕ} {x : Coord C} {committed : ℕ → Bool}
    (h : s.commit c x committed = some s') :
    ∃ v ph, Eliminates (s.server x.site) x committed v ∧ (ph = .done ∨ ph = .waiting) ∧
      s' = ((s.post (.fresh x.site x.isPilot x.slot (.commit x.dep x.cmd))).setServer
        x.site v).setCoord c {x with phase := ph} := by
  unfold commit at h
  dsimp only at h
  rcases (s.server x.site).getInstance_cases (!x.isPilot) x.dep with ⟨-,hget⟩ | ⟨-,l,hget,hs⟩
  · rw [hget] at h
    cases h
    refine ⟨s.server x.site,.done,.inl (.refl _),.inl rfl,?_⟩
    conv_rhs =>
      rw [← server_post s (.fresh x.site x.isPilot x.slot (.commit x.dep x.cmd)),setServer_self]
  rw [hget] at h
  dsimp only at h
  split_ifs at h
  · cases h
    exact ⟨_,_,.inl hs,.inl rfl,rfl⟩
  · obtain ⟨a,ha,rfl⟩ := map_eq_some_iff.mp h
    refine ⟨a.1,_,.inr ⟨_,a.2,hs,ha⟩,?_,rfl⟩
    cases a.2
    · exact .inr rfl
    · exact .inl rfl

theorem commitTaken_spec (s : Cluster C) (c : ℕ) (x : Coord C) (i dep : ℕ)
    (cmd : Option (Command C)) : ∃ v, (s.server x.site).Alike v ∧ s.commitTaken c x i dep cmd =
      ((s.post (.fresh x.site (!x.isPilot) i (.commit dep cmd))).setServer x.site v).setCoord
        c {x with phase := .takeover (i+1)} := by
  refine ⟨_,?_,rfl⟩
  split
  · exact .refl _
  next ins l hget =>
    rcases (s.server x.site).getInstance_cases x.isPilot dep with ⟨-,hnone⟩ | ⟨-,l,hsome,hs⟩
    · cases hget.symm.trans hnone
    · cases hget.symm.trans hsome
      exact hs

theorem takeover_spec {c i : ℕ} {x : Coord C} {committed : ℕ → Bool} (hph : x.phase = .takeover i)
    (h : s.takeover c x i (committed i) = some s') : Resumes n s c x committed s' := by
  have hquiet : ∀ v ph, (s.server x.site).Keeps v → (ph = .done ∨ ∃ i, ph = .takeover i) →
      Resumes n s c x committed ((s.setServer x.site v).setCoord c {x with phase := ph}) :=
    fun v ph hv hnext => .quiet (.inr (.inl ⟨i,hph⟩)) hv hnext (by simp [hph])
  have hself : ∀ ph, (ph = .done ∨ ∃ i, ph = .takeover i) →
      Resumes n s c x committed (s.setCoord c {x with phase := ph}) :=
    fun ph hnext => .still (.inr (.inl ⟨i,hph⟩)) hnext (by simp [hph])
  unfold takeover at h
  dsimp only at h
  split_ifs at h with hi
  · cases h
    exact hself _ (.inl rfl)
  rcases (s.server x.site).getInstance_cases (!x.isPilot) i with ⟨-,hget⟩ | ⟨hf,l,hget,hs⟩
  · rw [hget] at h
    cases h
    exact hself _ (.inr ⟨_,rfl⟩)
  rw [hget] at h
  dsimp only at h
  generalize (s.server x.site).setLog (!x.isPilot) l = v₁ at h hs
  split_ifs at h with hdone
  · cases h
    exact hquiet _ _ hs.keeps (.inr ⟨_,rfl⟩)
  push Not at hdone
  split at h
  · cases h
  next v₂ hel =>
    cases h
    exact hquiet _ _ (hs.keeps.trans (eliminateNullDep_keeps hel)) (.inr ⟨_,rfl⟩)
  next v₂ hel =>
    cases h
    refine .prepares (.inl ⟨hph,not_lt.mp hi,hf,rfl,by simpa using hdone.1,hdone.2⟩) ?_
    have hkeep := hs.keeps.trans (eliminateNullDep_keeps hel)
    obtain rfl : v₂ = v₁ := by
      rcases eliminateNullDep_spec hel with ⟨rfl,-⟩ | ⟨hfalse,-⟩
      · rfl
      · cases hfalse
    refine hkeep.trans (keeps_set _ _ _ ?_)
    rw [hs.ins]
    exact ⟨rfl,rfl,rfl,.inl rfl⟩

theorem prepared_spec {c i b k : ℕ} {x : Coord C} {e : Cast C} {committed : ℕ → Bool}
    (hk : s.casts k = some e) (hph : x.phase = .prepare i b k)
    (h : s.prepared n c x i b e = some s') : Resumes n s c x committed s' := by
  unfold prepared at h
  dsimp only at h
  split_ifs at h with hready
  have hquiet : ∀ v i', (s.server x.site).Keeps v → Resumes n s c x committed
      ((s.setServer x.site v).setCoord c {x with phase := .takeover i'}) :=
    fun v i' hv => .quiet (.inr (.inr ⟨i,b,k,hph⟩)) hv (.inr ⟨i',rfl⟩) (by simp [hph])
  rcases (s.server x.site).getInstance_cases (!x.isPilot) i with ⟨-,hget⟩ | ⟨-,l,hget,hs⟩
  · rw [hget] at h
    cases h
    exact .still (.inr (.inr ⟨i,b,k,hph⟩)) (.inr ⟨_,rfl⟩) (by simp [hph])
  rw [hget] at h
  dsimp only at h
  generalize (s.server x.site).setLog (!x.isPilot) l = v₁ at h hs
  split at h
  · cases h
    exact hquiet _ _ hs.keeps
  · cases h
    exact .prepares (.inr ⟨k,hph⟩) hs.keeps
  next cmd dep hchoice =>
    obtain ⟨s₂,hs₂,rfl⟩ := map_eq_some_iff.mp h
    unfold broadcastAccept at hs₂
    split_ifs at hs₂ with hcmd
    obtain ⟨a,ha,rfl⟩ := map_eq_some_iff.mp hs₂
    rw [server_setServer,if_pos rfl] at ha
    rw [setServer_setServer]
    exact .acceptsTaken hk hph hready hchoice (fun hn => hcmd (by simp [hn])) hs ha
  next cmd dep hchoice =>
    cases h
    obtain ⟨v,hv,heq⟩ := commitTaken_spec (s.setServer x.site v₁) c x i dep cmd
    rw [server_setServer,if_pos rfl] at hv
    rw [heq,post_setServer,setServer_setServer]
    exact .commitsTaken hk (.inr ⟨b,hph,hchoice⟩) (hs.trans hv)

theorem resume_spec {c : ℕ} {x : Coord C} {committed : ℕ → Bool}
    (h : s.resume n c x committed = some s') : Resumes n s c x committed s' := by
  unfold resume at h
  split at h
  next k hph =>
    obtain ⟨e,hk,h⟩ := bind_eq_some_iff.mp h
    split_ifs at h with hlen hyes hdeps
    · obtain ⟨v,ph,hv,hdone,rfl⟩ := commit_spec h
      exact .commits hk (.inl ⟨hph,not_lt.mp hlen,hyes⟩) hv hdone
    · obtain ⟨s₁,hs₁,rfl⟩ := map_eq_some_iff.mp h
      unfold broadcastAccept at hs₁
      split_ifs at hs₁
      obtain ⟨a,ha,rfl⟩ := map_eq_some_iff.mp hs₁
      exact .accepts hk hph (not_lt.mp hlen) (by simpa using hyes) (by omega) ha
  next k hph =>
    obtain ⟨e,hk,h⟩ := bind_eq_some_iff.mp h
    split_ifs at h with hlen
    obtain ⟨v,ph,hv,hdone,rfl⟩ := commit_spec h
    exact .commits hk (.inr ⟨hph,not_lt.mp hlen⟩) hv hdone
  next hph =>
    cases h
    refine Resumes.still (.inl hph) ?_ fun _ hle => if_pos (Nat.lt_succ_of_le hle)
    split_ifs
    · exact .inl rfl
    · exact .inr ⟨_,rfl⟩
  next i hph => exact takeover_spec hph h
  next i b k hph =>
    obtain ⟨e,hk,h⟩ := bind_eq_some_iff.mp h
    exact prepared_spec hk hph h
  next i dep cmd k hph =>
    obtain ⟨e,hk,h⟩ := bind_eq_some_iff.mp h
    split_ifs at h with hlen
    cases h
    obtain ⟨v,hv,heq⟩ := commitTaken_spec s c x i dep cmd
    rw [heq]
    exact .commitsTaken hk (.inl ⟨hph,not_lt.mp hlen⟩) hv
  next => cases h

inductive Receives (s : Cluster C) (k : ℕ) (e : Cast C) (r : ℕ) : Cluster C → Prop
  | fastAccept {b d cmd sug v} (hmsg : e.msg = .fastAccept b d cmd)
      (hf : ¬(s.server r).Freed e.isPilot e.slot)
      (hsug : ((s.server r).logInfos !e.isPilot).suggestDep e.slot d = some sug)
      (hv : (s.server r).Updates v e.isPilot e.slot
        (((s.server r).ins e.isPilot e.slot).fastAccept b d cmd sug))
      (hseen : e.slot ≤ (v.logInfos e.isPilot).currentSlot) :
      Receives s k e r ((s.setServer r v).setReply k e r (.dep sug))
  | accept {b d cmd v} (hmsg : e.msg = .accept b d cmd) (hf : ¬(s.server r).Freed e.isPilot e.slot)
      (hv : (s.server r).Updates v e.isPilot e.slot
        (((s.server r).ins e.isPilot e.slot).accept b d cmd))
      (hseen : e.slot ≤ (v.logInfos e.isPilot).currentSlot) :
      Receives s k e r ((s.setServer r v).setReply k e r .ok)
  | prepare {b v} (hmsg : e.msg = .prepare b) (hf : ¬(s.server r).Freed e.isPilot e.slot)
      (hv : (s.server r).Updates v e.isPilot e.slot (((s.server r).ins e.isPilot e.slot).prepare b))
      (hseen : e.slot ≤ (v.logInfos e.isPilot).currentSlot) :
      Receives s k e r ((s.setServer r v).setReply k e r
        (.prepared (((s.server r).ins e.isPilot e.slot).prepare b).prepareReply))
  | prepareFreed {b v ρ} (hmsg : e.msg = .prepare b) (hf : (s.server r).Freed e.isPilot e.slot)
      (hv : (s.server r).Updates v e.isPilot e.slot ((s.server r).ins e.isPilot e.slot))
      (hseen : e.slot ≤ (v.logInfos e.isPilot).currentSlot) :
      Receives s k e r ((s.setServer r v).setReply k e r (.prepared ρ))
  | commit {d cmd v} (hmsg : e.msg = .commit d cmd) (hf : ¬(s.server r).Freed e.isPilot e.slot)
      (hst : ((s.server r).ins e.isPilot e.slot).status < .committed)
      (hv : (s.server r).Updates v e.isPilot e.slot
        (((s.server r).ins e.isPilot e.slot).commit cmd))
      (hseen : e.slot ≤ (v.logInfos e.isPilot).currentSlot) :
      Receives s k e r (((s.setServer r v).setReply k e r .ok).setMarked r e.isPilot e.slot)
  | commitKnown {d cmd v} (hmsg : e.msg = .commit d cmd)
      (hv : (s.server r).Updates v e.isPilot e.slot ((s.server r).ins e.isPilot e.slot))
      (hseen : e.slot ≤ (v.logInfos e.isPilot).currentSlot) :
      Receives s k e r ((s.setServer r v).setReply k e r .ok)

theorem receive_spec {k r : ℕ} {e : Cast C} (h : s.receive k e r = some s') :
    Receives s k e r s' := by
  unfold receive at h
  split at h
  next b d cmd hmsg =>
    obtain ⟨⟨v,b',sug⟩,ha,rfl⟩ := map_eq_some_iff.mp h
    obtain ⟨hf,hsug,hv,hseen⟩ := onFastAccept_spec ha
    exact .fastAccept hmsg hf hsug hv hseen
  next b d cmd hmsg =>
    obtain ⟨⟨v,b'⟩,ha,rfl⟩ := map_eq_some_iff.mp h
    obtain ⟨hf,hv,hseen⟩ := onAccept_spec ha
    exact .accept hmsg hf hv hseen
  next b hmsg =>
    cases h
    by_cases hf : (s.server r).Freed e.isPilot e.slot
    · obtain ⟨hv,hseen⟩ := onPrepare_freed (s.server r) b hf
      exact .prepareFreed hmsg hf hv hseen
    · obtain ⟨hrep,hv,hseen⟩ := onPrepare_spec (s.server r) b hf
      rw [hrep]
      exact .prepare hmsg hf hv hseen
  next d cmd hmsg =>
    cases h
    rcases ha : (s.server r).onCommit e.isPilot e.slot d cmd with ⟨v,go⟩
    obtain ⟨⟨rfl,hf,hst,hv⟩ | ⟨rfl,-,hv⟩,hseen⟩ := onCommit_spec ha
    · exact .commit hmsg hf hst hv hseen
    · exact .commitKnown hmsg hv hseen

inductive Stepped (n : ℕ) (s : Cluster C) : Action C → Cluster C → Prop
  | submit {site c sug v} (hsite : site < n) (hpilot : site < 2)
      (hrun : (s.replicas site).running = none)
      (hf : ¬(s.server site).Freed (pilotLog site)
        (((s.server site).logInfos (pilotLog site)).currentSlot+1))
      (hv : (s.server site).Updates v (pilotLog site)
        (((s.server site).logInfos (pilotLog site)).currentSlot+1)
        (((s.server site).ins (pilotLog site)
          (((s.server site).logInfos (pilotLog site)).currentSlot+1)).fastAccept
            (makeUniqueBallot site 0) ((s.server site).logInfos !pilotLog site).currentSlot
            (some (.op c)) sug))
      (hseen : ((s.server site).logInfos (pilotLog site)).currentSlot+1 ≤
        (v.logInfos (pilotLog site)).currentSlot) :
      Stepped n s (.submit site c) (((s.setServer site v).postLocal
        (.fresh site (pilotLog site) (((s.server site).logInfos (pilotLog site)).currentSlot+1)
          (.fastAccept (makeUniqueBallot site 0) ((s.server site).logInfos !pilotLog site).currentSlot
            (some (.op c)))) (.dep ((s.server site).logInfos !pilotLog site).currentSlot)).addCoord
        ⟨site,((s.server site).logInfos (pilotLog site)).currentSlot+1,
          ((s.server site).logInfos !pilotLog site).currentSlot,makeUniqueBallot site 0,
          some (.op c),.fastAccept s.nextCast⟩)
  | receive {k r e t} (hk : s.casts k = some e) (hr : r < n) (hnew : e.replies r = none)
      (hrun : (s.replicas r).running = none) (h : Receives s k e r t) : Stepped n s (.receive k r) t
  | arrive {k r e} (hk : s.casts k = some e) (hsent : e.replies r ≠ none) (hnew : r ∉ e.answers) :
      Stepped n s (.arrive k r) (s.setAnswer k e r)
  | resume {c x committed t} (hx : s.coords c = some x)
      (hrun : (s.replicas x.site).running = none) (h : Resumes n s c x committed t) :
      Stepped n s (.resume c committed) t
  | exec {r t committed v nx running waiting} (hrun : (s.replicas r).running = some t)
      (h : (s.server r).Iteration t.isPilot t.slot committed t.pc v nx)
      (hnext : running = none ∧
          (waiting = (s.replicas r).waiting ∧ nx = .finished ∨
            ∃ pc, waiting = (s.replicas r).waiting++[{t with pc := pc}] ∧ nx = .wait pc) ∨
        ∃ pc, running = some {t with pc := pc} ∧ waiting = (s.replicas r).waiting ∧ nx = .run pc) :
      Stepped n s (.exec r committed) ((s.setServer r v).setTasks r running waiting)
  | wake {r m t} (hm : (s.replicas r).waiting[m]? = some t) (hrun : (s.replicas r).running = none)
      (hawake : (s.server r).awake t = true) :
      Stepped n s (.wake r m) (s.setTasks r (some t) ((s.replicas r).waiting.eraseIdx m))

/-- What each action can do to the cluster. -/
theorem step_spec {a : Action C} (h : s.step n a = some s') : Stepped n s a s' := by
  cases a with
  | submit site c =>
    simp only [step] at h
    split_ifs at h with hg
    obtain ⟨⟨v,b,sug⟩,ha,rfl⟩ := map_eq_some_iff.mp h
    obtain ⟨hf,hv,hseen⟩ := propose_spec ha
    exact .submit hg.1 hg.2.1 hg.2.2 hf hv hseen
  | receive k r =>
    obtain ⟨e,hk,h⟩ := bind_eq_some_iff.mp h
    split_ifs at h with hg
    exact .receive hk hg.1 (isNone_iff_eq_none.mp hg.2.1) hg.2.2 (receive_spec h)
  | arrive k r =>
    obtain ⟨e,hk,h⟩ := bind_eq_some_iff.mp h
    split_ifs at h with hg
    cases h
    exact .arrive hk (isSome_iff_ne_none.mp hg.1) hg.2
  | resume c committed =>
    obtain ⟨x,hx,h⟩ := bind_eq_some_iff.mp h
    split_ifs at h with hg
    exact .resume hx hg (resume_spec h)
  | exec r committed =>
    obtain ⟨t,ht,h⟩ := bind_eq_some_iff.mp h
    obtain ⟨⟨v,nx⟩,ha,rfl⟩ := map_eq_some_iff.mp h
    have hit := runTask_iteration ha
    cases nx with
    | run pc => exact .exec ht hit (.inr ⟨pc,rfl,rfl,rfl⟩)
    | wait pc => exact .exec ht hit (.inl ⟨rfl,.inr ⟨pc,rfl,rfl⟩⟩)
    | finished => exact .exec ht hit (.inl ⟨rfl,.inl ⟨rfl,rfl⟩⟩)
  | wake r m =>
    obtain ⟨t,hm,h⟩ := bind_eq_some_iff.mp h
    split_ifs at h with hg
    cases h
    exact .wake hm hg.1 hg.2

end Cluster

end Janus.Copilot
