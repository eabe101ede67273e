import Janus.Tapir

/-! The coordinator of Tapir (`tapir/coordinator.cc`). It asks all replicas of all partitions of a
transaction for their votes, decides when all have said yes or one has not, and starts again after
an abort. The dispatch before is one step; the votes come back in any order and at any time. -/

namespace Janus.TapirCoordinator

open Tapir Transition Function List Nat

def SUCCESS : ℤ := 0

def REJECT : ℤ := -10

def code : Result → ℤ
  | .success => SUCCESS
  | .reject => REJECT
  | .abstain => -10
  | .retry => -10

/-- The replicas of each partition, at least one, the number of retries allowed, or a negative
number, and whether a client runs its callbacks with its lock held, as `Client::handle_read` does.
-/
structure Config (P S : Type) where
  sites : P → List S
  nodup : ∀ par, (sites par).Nodup
  nonempty : ∀ par, sites par ≠ []
  maxRetry : ℤ
  locked : Bool

structure Call (P S : Type) where
  tid : ℕ
  phase : ℕ
  par : P
  site : S
  deriving DecidableEq

inductive Decision where
  | commit
  | abort
  deriving DecidableEq

inductive Wait where
  | idle
  | dispatch
  | votes
  deriving DecidableEq

structure Attempt (P : Type) where
  tid : ℕ
  phase : ℕ
  pars : List P

/-- The last two fields are the history: the rounds of votes, and the decisions sent, by
transaction and partition. -/
structure Coordinator (P S : Type) where
  phase : ℕ := 0
  committed : Bool := false
  aborted : Bool := false
  nRetry : ℕ := 0
  id : ℕ := 0
  nextTxnId : ℕ := 0
  pieces : List (ℕ × P) := []
  oks : P → ℕ := fun _ => 0
  rejects : P → ℕ := fun _ => 0
  wait : Wait := .idle
  outstanding : List (Call P S) := []
  attempts : List (Attempt P) := []
  decides : List (ℕ × P × Decision) := []

/-- A request, the reply that ends its dispatch, which comes from a site of `par`, and a vote. -/
inductive Label (P S : Type) where
  | doTxAsync
  | dispatched (pieces : List (ℕ × P)) (par : P)
  | vote (call : Call P S)

variable {P S : Type} [DecidableEq P]

/-- Calls to all sites of the partitions do not return in the callback of a `reply` from one of
them whose client holds its lock. -/
def Config.blocks (cfg : Config P S) (reply : Option P) (pars : List P) : Bool :=
  cfg.locked && pars.any fun par => reply = some par

def Attempt.calls (cfg : Config P S) (a : Attempt P) : List (Call P S) :=
  a.pars.flatMap fun par => (cfg.sites par).map fun site => ⟨a.tid,a.phase,par,site⟩

def cmdsByPartition (pieces : List (ℕ × P)) (par : P) : List (ℕ × P) :=
  pieces.filter fun p => p.2 = par

namespace Coordinator

variable (c : Coordinator P S)

def partitionIds : List P := (c.pieces.map Prod.snd).dedup

def attempt : Attempt P := ⟨c.id,c.phase,c.partitionIds⟩

variable (cfg : Config P S)

def fastAccept (reply : Option P) (c : Coordinator P S) :
    Option (Coordinator P S) :=
  let pars := c.partitionIds
  if cfg.blocks reply pars ∨ pars = [] ∨ (∃ par ∈ pars, cmdsByPartition c.pieces par = [] ∨
      10000 ≤ (cmdsByPartition c.pieces par).length) ∨
      (pars.map fun par => (cmdsByPartition c.pieces par).length).sum ≠ c.pieces.length then none
  else some {c with
    oks := fun par => if par ∈ pars then 0 else c.oks par
    rejects := fun par => if par ∈ pars then 0 else c.rejects par
    wait := .votes
    outstanding := c.outstanding++c.attempt.calls cfg
    attempts := c.attempts++[c.attempt]}

def getFastQuorum (par : P) : ℕ := (cfg.sites par).length

def fastQuorumPossible (c : Coordinator P S) : Bool :=
  c.partitionIds.all fun par => ¬c.rejects par > (cfg.sites par).length-getFastQuorum cfg par

def allFastQuorumReached (c : Coordinator P S) : Bool :=
  c.partitionIds.all fun par => ¬c.oks par < getFastQuorum cfg par

def decide (reply : Option P)
    (goto : Coordinator P S → Option (Coordinator P S)) (c : Coordinator P S) :
    Option (Coordinator P S) :=
  if c.committed = c.aborted ∨ cfg.blocks reply c.partitionIds then none
  else
    let d := if c.committed then Decision.commit else .abort
    goto {c with decides := c.decides++c.partitionIds.map fun par => (c.id,par,d)}

def finish : Option (Coordinator P S) :=
  if c.committed || c.aborted then some {c with wait := .idle} else none

def reset : Coordinator P S :=
  {c with committed := false, aborted := false, oks := fun _ => 0, rejects := fun _ => 0}

def nextId : Coordinator P S :=
  {c with id := c.nextTxnId, nextTxnId := c.nextTxnId+1}

def restartClassic (goto : Coordinator P S → Option (Coordinator P S))
    (c : Coordinator P S) : Option (Coordinator P S) :=
  if c.aborted = false then none
  else if 5 ≤ c.nRetry+1 then none
  else
    let c := ({c with nRetry := c.nRetry+1} : Coordinator P S).nextId
    if cfg.maxRetry < c.nRetry ∧ 0 ≤ cfg.maxRetry then c.finish else goto c.reset

/-- `CoordinatorTapir::Restart`, which takes an id of its own first. -/
def restart (goto : Coordinator P S → Option (Coordinator P S))
    (c : Coordinator P S) : Option (Coordinator P S) := c.nextId.restartClassic cfg goto

/-- `GotoNextPhase`, with a bound on its nested calls, in the callback of a `reply`. -/
def gotoNextPhase (cfg : Config P S) (reply : Option P) :
    ℕ → Coordinator P S → Option (Coordinator P S)
  | 0, _ => none
  | n+1, c =>
    let next : Coordinator P S := {c with phase := c.phase+1}
    match c.phase%4 with
    | 0 => if next.phase%4 = 1 then some {next with wait := .dispatch} else none
    | 1 => if next.phase%4 = 2 then next.fastAccept cfg reply else none
    | 2 => if next.phase%4 = 3 then next.decide cfg reply (gotoNextPhase cfg reply n) else none
    | _ =>
      if next.phase%4 ≠ 0 then none
      else if next.committed then next.finish
      else if next.aborted then next.restart cfg (gotoNextPhase cfg reply n)
      else none

def depth : ℕ := 3

def fastAcceptAck (c : Coordinator P S) (phase : ℕ) (par : P) (res : ℤ) :
    Option (Coordinator P S) :=
  if c.phase > phase then some c
  else
    let counted : Option (Coordinator P S) :=
      if res = SUCCESS then some {c with oks := update c.oks par (c.oks par+1)}
      else if res = REJECT then
        some {c with rejects := update c.rejects par (c.rejects par+1)}
      else none
    counted.bind fun c =>
      if c.fastQuorumPossible cfg then
        if c.allFastQuorumReached cfg then
          gotoNextPhase cfg (some par) depth {c with committed := true}
        else some c
      else gotoNextPhase cfg (some par) depth {c with aborted := true}

/-- The pieces of a transaction: at least one, and fewer than 10000 in each partition. -/
def Dispatchable (pieces : List (ℕ × P)) : Prop :=
  pieces ≠ [] ∧ ∀ p ∈ pieces, (cmdsByPartition pieces p.2).length < 10000

instance (pieces : List (ℕ × P)) : Decidable (Dispatchable pieces) :=
  inferInstanceAs (Decidable (_ ∧ _))

variable [DecidableEq S]

/-- What may happen next: a request to an idle coordinator, the end of a dispatch, the
arrival of any vote that is on its way. -/
def Enabled : Label P S → Prop
  | .doTxAsync => c.wait = .idle
  | .dispatched pieces par => c.wait = .dispatch ∧ Dispatchable pieces ∧ par ∈ pieces.map Prod.snd
  | .vote call => call ∈ c.outstanding

instance (c : Coordinator P S) (a : Label P S) : Decidable (c.Enabled a) := by
  cases a <;> unfold Enabled <;> infer_instance

def handle (votes : Call P S → Result) (c : Coordinator P S) :
    Label P S → Option (Coordinator P S)
  | .doTxAsync =>
    gotoNextPhase cfg none depth (({c with nRetry := 0} : Coordinator P S).nextId.reset)
  | .dispatched pieces par => gotoNextPhase cfg (some par) depth {c with pieces := pieces}
  | .vote call => fastAcceptAck cfg {c with outstanding := c.outstanding.erase call} call.phase
      call.par (code (votes call))

def system (votes : Call P S → Result) :
    System (Coordinator P S) (Label P S) where
  init c := c = {}
  step c a := if c.Enabled a then c.handle cfg votes a else none

def Patient (votes : Call P S → Result) (c : Coordinator P S) : Label P S → Prop
  | .vote call => votes call ≠ .success → c.phase ≤ call.phase → c.nRetry < 4
  | _ => True

instance (votes : Call P S → Result) (c : Coordinator P S) (a : Label P S) :
    Decidable (c.Patient votes a) := by
  cases a <;> unfold Patient <;> infer_instance

end Coordinator

def Attempt.verdict (cfg : Config P S) (votes : Call P S → Result) (a : Attempt P) : Decision :=
  if ∀ call ∈ a.calls cfg, votes call = .success then .commit else .abort

namespace Coordinator

def decisions (c : Coordinator P S) (tid : ℕ) : List (ℕ × P × Decision) :=
  c.decides.filter fun m => m.1 = tid

section Calls

variable {cfg : Config P S} {a : Attempt P} {call : Call P S}

omit [DecidableEq P] in
theorem mem_calls : call ∈ a.calls cfg ↔
    call.tid = a.tid ∧ call.phase = a.phase ∧ call.par ∈ a.pars ∧ call.site ∈ cfg.sites call.par := by
  obtain ⟨tid,phase,par,site⟩ := call
  simp only [Attempt.calls,mem_flatMap,mem_map,Call.mk.injEq]
  constructor
  · rintro ⟨q,hq,r,hr,rfl,rfl,rfl,rfl⟩
    exact ⟨rfl,rfl,hq,hr⟩
  · rintro ⟨rfl,rfl,hpar,hsite⟩
    exact ⟨par,hpar,site,hsite,rfl,rfl,rfl,rfl⟩

omit [DecidableEq P] in
theorem nodup_calls (h : a.pars.Nodup) : (a.calls cfg).Nodup := by
  refine nodup_flatMap.mpr ⟨?_,?_⟩
  · intro par _
    refine (cfg.nodup par).map ?_
    intro s s' he
    exact (Call.mk.injEq .. ▸ he).2.2.2
  · refine h.imp ?_
    intro par par' hne call hcall hcall'
    obtain ⟨_,_,rfl⟩ := mem_map.mp hcall
    obtain ⟨_,_,he⟩ := mem_map.mp hcall'
    exact hne (Call.mk.injEq .. ▸ he).2.2.1.symm

theorem countP_calls (h : a.pars.Nodup) {par : P} (hpar : par ∈ a.pars) :
    (a.calls cfg).countP (fun call => call.phase = a.phase ∧ call.par = par) =
      (cfg.sites par).length := by
  have hone : ∀ q, ((cfg.sites q).map fun site => (⟨a.tid,a.phase,q,site⟩ : Call P S)).countP
      (fun call => call.phase = a.phase ∧ call.par = par) =
      if q = par then (cfg.sites par).length else 0 := by
    intro q
    rw [countP_map]
    split_ifs with hq
    · rw [countP_eq_length.mpr (by simp [hq]),hq]
    · exact countP_eq_zero.mpr (by simp [hq])
  rw [Attempt.calls,countP_flatMap]
  refine (congrArg sum (map_congr_left fun q _ => hone q)).trans ?_
  have hsum : (a.pars.map fun q => if q = par then (cfg.sites par).length else 0).sum =
      a.pars.count par * (cfg.sites par).length := by
    induction a.pars with
    | nil => simp
    | cons q pars ih =>
      rw [map_cons,sum_cons,ih,count_cons]
      by_cases hq : q = par
      · simp [hq,add_mul,add_comm]
      · simp [hq]
  rw [hsum,count_eq_one_of_mem h hpar,one_mul]

end Calls

theorem sum_cmdsByPartition (pieces : List (ℕ × P)) :
    ((pieces.map Prod.snd).dedup.map fun par => (cmdsByPartition pieces par).length).sum =
      pieces.length := by
  have hcount : ∀ par, (cmdsByPartition pieces par).length = (pieces.map Prod.snd).count par := by
    intro par
    rw [cmdsByPartition,← countP_eq_length_filter,List.count,countP_map]
    rfl
  rw [map_congr_left (fun par _ => hcount par),sum_map_count_dedup_eq_length,length_map]

section Goto

variable {cfg : Config P S} {c c' : Coordinator P S} {reply : Option P}

theorem gotoNextPhase_init (n : ℕ) (h : c.phase%4 = 0) :
    gotoNextPhase cfg reply (n+1) c = some {c with phase := c.phase+1, wait := .dispatch} := by
  have hnext : (c.phase+1)%4 = 1 := by omega
  simp only [gotoNextPhase,h,hnext,if_true]

theorem gotoNextPhase_dispatch (n : ℕ) (h : c.phase%4 = 1) :
    gotoNextPhase cfg reply (n+1) c = fastAccept cfg reply {c with phase := c.phase+1} := by
  have hnext : (c.phase+1)%4 = 2 := by omega
  simp only [gotoNextPhase,h,hnext,if_true]

theorem gotoNextPhase_fastAccept (n : ℕ) (h : c.phase%4 = 2) : gotoNextPhase cfg reply (n+1) c =
      decide cfg reply (gotoNextPhase cfg reply n) {c with phase := c.phase+1} := by
  have hnext : (c.phase+1)%4 = 3 := by omega
  simp only [gotoNextPhase,h,hnext,if_true]

variable (cfg reply) in
theorem gotoNextPhase_decide (n : ℕ) (h : c.phase%4 = 3) : gotoNextPhase cfg reply (n+1) c =
      if c.committed then finish {c with phase := c.phase+1}
      else if c.aborted then
        restart cfg (gotoNextPhase cfg reply n) {c with phase := c.phase+1}
      else none := by
  have hnext : (c.phase+1)%4 = 0 := by omega
  simp only [gotoNextPhase,h,hnext,ne_eq,not_true_eq_false,if_false]

/-- What a coordinator that has just decided looks like afterwards: idle, or in the dispatch of
the next attempt. -/
structure Settled (d : Decision) (c c' : Coordinator P S) : Prop where
  attempts : c'.attempts = c.attempts
  outstanding : c'.outstanding = c.outstanding
  decides : c'.decides = c.decides++c.partitionIds.map fun par => (c.id,par,d)
  nextTxnId : c.nextTxnId ≤ c'.nextTxnId
  phase : c.phase < c'.phase
  shape : c'.wait = .idle ∧ c'.phase%4 = 0 ∨
    c'.wait = .dispatch ∧ c'.phase%4 = 1 ∧ c'.committed = false ∧ c'.aborted = false ∧
      c.nextTxnId ≤ c'.id ∧ c'.id < c'.nextTxnId

omit [DecidableEq P] in
theorem finish_eq (h : c.committed = true ∨ c.aborted = true) :
    c.finish = some {c with wait := .idle} := if_pos (by simpa using h)

variable (cfg reply) in
theorem restart_settled (h : c.aborted = true) (hretry : c.nRetry < 4) (hphase : c.phase%4 = 0)
    (n : ℕ) : ∃ c', restart cfg (gotoNextPhase cfg reply (n+1)) c = some c' ∧ c'.attempts = c.attempts ∧
      c'.outstanding = c.outstanding ∧ c'.decides = c.decides ∧ c.nextTxnId ≤ c'.nextTxnId ∧
      c.phase ≤ c'.phase ∧ (c'.wait = .idle ∧ c'.phase%4 = 0 ∨
        c'.wait = .dispatch ∧ c'.phase%4 = 1 ∧ c'.committed = false ∧ c'.aborted = false ∧
          c.nextTxnId ≤ c'.id ∧ c'.id < c'.nextTxnId) := by
  have haborted : c.nextId.aborted = true := h
  unfold restart restartClassic
  rw [if_neg (by simp [haborted]),if_neg (show ¬5 ≤ c.nextId.nRetry+1 from not_le.mpr (Nat.add_lt_add_right hretry 1))]
  dsimp only
  split_ifs
  · exact ⟨_,finish_eq (Or.inr h),rfl,rfl,rfl,(le_succ _).trans (le_succ _),le_rfl,
      Or.inl ⟨rfl,hphase⟩⟩
  · refine ⟨_,gotoNextPhase_init n hphase,rfl,rfl,rfl,(le_succ _).trans (le_succ _),
      le_succ _,Or.inr ⟨rfl,?_,rfl,rfl,le_succ _,lt_succ_self _⟩⟩
    show (c.phase+1)%4 = 1
    omega

variable (cfg) in
theorem gotoNextPhase_settled (hfree : cfg.locked = false) (hphase : c.phase%4 = 2)
    (hne : c.committed ≠ c.aborted) (hretry : c.aborted = true → c.nRetry < 4) :
    ∃ c', gotoNextPhase cfg reply depth c = some c' ∧
      Settled (if c.committed then .commit else .abort) c c' := by
  have hdecide : (c.phase+1)%4 = 3 := by omega
  have hinit : (c.phase+1+1)%4 = 0 := by omega
  have hlt : c.phase < c.phase+1+1 := lt_succ_of_lt (lt_succ_self _)
  rw [depth,gotoNextPhase_fastAccept 2 hphase,decide,
    if_neg (by simp [hne,Config.blocks,hfree])]
  have hgoto := gotoNextPhase_decide cfg reply (c:={c with
    phase := c.phase+1
    decides := c.decides++c.partitionIds.map fun par =>
      (c.id,par,if c.committed then Decision.commit else .abort)}) 1 hdecide
  by_cases hc : c.committed = true
  · refine ⟨_,(hgoto.trans (if_pos hc)).trans (finish_eq (Or.inl hc)),rfl,rfl,rfl,le_rfl,hlt,
      Or.inl ⟨rfl,hinit⟩⟩
  · have ha : c.aborted = true := by
      cases ha : c.aborted with
      | true => rfl
      | false => exact absurd ((Bool.eq_false_of_not_eq_true hc).trans ha.symm) hne
    obtain ⟨c',hc',hattempts,hout,hdec,hid,hle,hshape⟩ := restart_settled cfg reply (c:={c with
      phase := c.phase+1+1
      decides := c.decides++c.partitionIds.map fun par =>
        (c.id,par,if c.committed then Decision.commit else .abort)}) ha (hretry ha) hinit 0
    exact ⟨c',((hgoto.trans (if_neg hc)).trans (if_pos ha)).trans hc',hattempts,hout,hdec,hid,
      lt_of_lt_of_le hlt hle,hshape⟩

end Goto

section Runs

variable (cfg : Config P S) (votes : Call P S → Result)

/-- In every phase a round of an earlier phase is decided as its votes ask, and no other
transaction is. -/
structure Base (c : Coordinator P S) : Prop where
  past : ∀ a ∈ c.attempts, a.phase < c.phase →
    c.decisions a.tid = a.pars.map fun par => (a.tid,par,a.verdict cfg votes)
  ids : ∀ a ∈ c.attempts, a.tid < c.nextTxnId
  sent : ∀ m ∈ c.decides, ∃ a ∈ c.attempts, a.tid = m.1 ∧ a.phase < c.phase
  pending : ∀ call ∈ c.outstanding, ∃ a ∈ c.attempts, call ∈ a.calls cfg
  nodup : c.outstanding.Nodup

structure Asked (c : Coordinator P S) : Prop where
  current : c.attempt ∈ c.attempts
  own : ∀ a ∈ c.attempts, a.tid = c.id → a.phase = c.phase
  older : ∀ a ∈ c.attempts, a.phase < c.phase ∨ a = c.attempt

def waitingFor (c : Coordinator P S) (par : P) : ℕ :=
  c.outstanding.countP fun call => call.phase = c.phase ∧ call.par = par

structure Voting (c : Coordinator P S) : Prop where
  undecided : c.committed = false ∧ c.aborted = false
  oks : ∀ par ∈ c.partitionIds, c.oks par+c.waitingFor par = (cfg.sites par).length
  rejects : ∀ par ∈ c.partitionIds, c.rejects par = 0
  answered : ∀ call ∈ c.attempt.calls cfg, call ∈ c.outstanding ∨ votes call = .success

inductive Shape (c : Coordinator P S) : Prop
  | rest (wait : c.wait = .idle) (phase : c.phase%4 = 0)
      (older : ∀ a ∈ c.attempts, a.phase < c.phase)
  | dispatch (wait : c.wait = .dispatch) (phase : c.phase%4 = 1)
      (undecided : c.committed = false ∧ c.aborted = false)
      (older : ∀ a ∈ c.attempts, a.phase < c.phase)
      (fresh : ∀ a ∈ c.attempts, a.tid < c.id) (id : c.id < c.nextTxnId)
  | votes (wait : c.wait = .votes) (phase : c.phase%4 = 2) (asked : Asked c)
      (voting : Voting cfg votes c)
      (waiting : ∃ call ∈ c.attempt.calls cfg, call ∈ c.outstanding)

structure Inv (c : Coordinator P S) : Prop extends Base cfg votes c where
  shape : Shape cfg votes c

variable {cfg votes} {c c' : Coordinator P S}

theorem Inv.init : Inv cfg votes {} where
  past := by simp
  ids := by simp
  sent := by simp
  pending := by simp
  nodup := nodup_nil
  shape := .rest rfl rfl (by simp)

theorem Base.decisions_current (h : Base cfg votes c) (hasked : Asked c) :
    c.decisions c.id = [] := by
  refine filter_eq_nil_iff.mpr fun m hm heq => ?_
  obtain ⟨a,ha,hid,hphase⟩ := h.sent m hm
  exact hphase.ne (hasked.own a ha (hid.trans (of_decide_eq_true heq)))

/-- After its decision the coordinator has decided the current round, and the others as
before. -/
theorem Base.settled (h : Base cfg votes c) (hasked : Asked c)
    (hs : Settled (c.attempt.verdict cfg votes) c c') : Inv cfg votes c' := by
  have holder : ∀ a ∈ c'.attempts, a.phase < c'.phase := by
    intro a ha
    obtain hlt | rfl := hasked.older a (hs.attempts ▸ ha)
    · exact hlt.trans hs.phase
    · exact hs.phase
  have hdecisions : ∀ tid, c'.decisions tid = c.decisions tid ++
      (c.partitionIds.map fun par => (c.id,par,c.attempt.verdict cfg votes)).filter
        fun m => m.1 = tid := by
    intro tid
    rw [decisions,hs.decides,filter_append]
    rfl
  refine ⟨⟨?_,?_,?_,?_,?_⟩,?_⟩
  · intro a ha _
    rw [hdecisions]
    by_cases hown : a.tid = c.id
    · have hacur : a = c.attempt :=
        (hasked.older a (hs.attempts ▸ ha)).resolve_left
          fun hlt => hlt.ne (hasked.own a (hs.attempts ▸ ha) hown)
      subst hacur
      rw [show c.attempt.tid = c.id from rfl,h.decisions_current hasked,nil_append]
      exact filter_eq_self.mpr (by simp)
    · have hlt : a.phase < c.phase := (hasked.older a (hs.attempts ▸ ha)).resolve_right
        fun heq => hown (heq ▸ rfl)
      rw [h.past a (hs.attempts ▸ ha) hlt,filter_eq_nil_iff.mpr,append_nil]
      intro m hm heq
      obtain ⟨par,_,rfl⟩ := mem_map.mp hm
      exact hown (of_decide_eq_true heq).symm
  · intro a ha
    exact (h.ids a (hs.attempts ▸ ha)).trans_le hs.nextTxnId
  · intro m hm
    rw [hs.decides,mem_append] at hm
    obtain hm | hm := hm
    · obtain ⟨a,ha,hid,hphase⟩ := h.sent m hm
      exact ⟨a,hs.attempts ▸ ha,hid,hphase.trans hs.phase⟩
    · obtain ⟨par,_,rfl⟩ := mem_map.mp hm
      exact ⟨c.attempt,hs.attempts ▸ hasked.current,rfl,hs.phase⟩
  · rw [hs.outstanding,hs.attempts]
    exact h.pending
  · rw [hs.outstanding]
    exact h.nodup
  · obtain ⟨hidle,hphase⟩ | ⟨hwait,hphase,hc,ha,hid,hid'⟩ := hs.shape
    · exact .rest hidle hphase holder
    · exact .dispatch hwait hphase ⟨hc,ha⟩ holder
        (fun a hmem => (h.ids a (hs.attempts ▸ hmem)).trans_le hid) hid'

theorem fastAccept_eq (hfree : cfg.locked = false) (h : Dispatchable c.pieces) (reply : Option P) :
    fastAccept cfg reply c = some {c with
    oks := fun par => if par ∈ c.partitionIds then 0 else c.oks par
    rejects := fun par => if par ∈ c.partitionIds then 0 else c.rejects par
    wait := .votes
    outstanding := c.outstanding++c.attempt.calls cfg
    attempts := c.attempts++[c.attempt]} := by
  refine if_neg ?_
  rintro (hblocks | hnil | ⟨par,hpar,hnil | hlarge⟩ | hsum)
  · simp [Config.blocks,hfree] at hblocks
  · obtain ⟨p,hp⟩ := exists_mem_of_ne_nil _ h.1
    have hmem : p.2 ∈ c.partitionIds := mem_dedup.mpr (mem_map_of_mem hp)
    exact not_mem_nil (hnil ▸ hmem)
  · obtain ⟨p,hp,rfl⟩ := mem_map.mp (mem_dedup.mp hpar)
    exact filter_eq_nil_iff.mp hnil p hp (by simp)
  · obtain ⟨p,hp,rfl⟩ := mem_map.mp (mem_dedup.mp hpar)
    exact absurd (h.2 p hp) (not_lt.mpr hlarge)
  · exact hsum (sum_cmdsByPartition c.pieces)

theorem partitionIds_ne_nil (h : Dispatchable c.pieces) : c.partitionIds ≠ [] := by
  simpa [partitionIds] using h.1

variable [DecidableEq S]

theorem Inv.doTxAsync (h : Inv cfg votes c) (hwait : c.wait = .idle) :
    ∃ c', c.handle cfg votes .doTxAsync = some c' ∧ Inv cfg votes c' := by
  cases h.shape with
  | dispatch hd => exact absurd (hwait.symm.trans hd) Wait.noConfusion
  | votes hv => exact absurd (hwait.symm.trans hv) Wait.noConfusion
  | rest _ hphase holder =>
    refine ⟨_,gotoNextPhase_init 2 hphase,⟨?_,?_,?_,h.pending,h.nodup⟩,.dispatch rfl ?_ ⟨rfl,rfl⟩
      (fun a ha => (holder a ha).trans (lt_succ_self _)) h.ids (lt_succ_self _)⟩
    · intro a ha _
      exact h.past a ha (holder a ha)
    · intro a ha
      exact (h.ids a ha).trans (lt_succ_self _)
    · intro m hm
      obtain ⟨a,ha,hid,hlt⟩ := h.sent m hm
      exact ⟨a,ha,hid,hlt.trans (lt_succ_self _)⟩
    · show (c.phase+1)%4 = 1
      omega

theorem Inv.dispatched (h : Inv cfg votes c) (hfree : cfg.locked = false)
    (hwait : c.wait = .dispatch) {pieces : List (ℕ × P)} (hpieces : Dispatchable pieces) (par : P) :
    ∃ c', c.handle cfg votes (.dispatched pieces par) = some c' ∧ Inv cfg votes c' ∧
      ⟨c.id,c.phase+1,(pieces.map Prod.snd).dedup⟩ ∈ c'.attempts := by
  cases h.shape with
  | rest hrest => exact absurd (hrest.symm.trans hwait) Wait.noConfusion
  | votes hv => exact absurd (hwait.symm.trans hv) Wait.noConfusion
  | dispatch _ hphase hundecided holder hfresh hid =>
    let d : Coordinator P S := {c with pieces := pieces, phase := c.phase+1}
    have hpars : d.partitionIds.Nodup := nodup_dedup _
    have hgone : ∀ call ∈ c.outstanding, call.phase < c.phase := by
      intro call hcall
      obtain ⟨a,ha,hmem⟩ := h.pending call hcall
      exact (mem_calls.mp hmem).2.1 ▸ holder a ha
    have hnew : ∀ call ∈ d.attempt.calls cfg, call.phase = c.phase+1 := fun call hcall =>
      (mem_calls.mp hcall).2.1
    have hzero : ∀ par, c.outstanding.countP
        (fun call => call.phase = c.phase+1 ∧ call.par = par) = 0 := by
      refine fun par => countP_eq_zero.mpr fun call hcall heq => ?_
      have := hgone call hcall
      have := (of_decide_eq_true heq).1
      omega
    refine ⟨_,(gotoNextPhase_dispatch (c:={c with pieces := pieces}) 2 hphase).trans
      (fastAccept_eq (c:=d) hfree hpieces _),
      ⟨⟨?_,?_,?_,?_,?_⟩,.votes rfl ?_ ⟨?_,?_,?_⟩ ⟨hundecided,?_,?_,?_⟩ ?_⟩,?_⟩
    · intro a ha hlt
      obtain ha | ha := mem_append.mp ha
      · exact h.past a ha (holder a ha)
      · rw [mem_singleton.mp ha] at hlt
        exact absurd hlt (lt_irrefl _)
    · intro a ha
      obtain ha | ha := mem_append.mp ha
      · exact h.ids a ha
      · rw [mem_singleton.mp ha]
        exact hid
    · intro m hm
      obtain ⟨a,ha,htid,hlt⟩ := h.sent m hm
      exact ⟨a,mem_append_left _ ha,htid,hlt.trans (lt_succ_self _)⟩
    · intro call hcall
      obtain hcall | hcall := mem_append.mp hcall
      · obtain ⟨a,ha,hmem⟩ := h.pending call hcall
        exact ⟨a,mem_append_left _ ha,hmem⟩
      · exact ⟨d.attempt,mem_append_right _ (mem_singleton_self _),hcall⟩
    · refine h.nodup.append (nodup_calls hpars) fun call hold hcall => ?_
      have := hgone call hold
      have := hnew call hcall
      omega
    · show (c.phase+1)%4 = 2
      omega
    · exact mem_append_right _ (mem_singleton_self _)
    · intro a ha htid
      obtain ha | ha := mem_append.mp ha
      · exact absurd htid (hfresh a ha).ne
      · rw [mem_singleton.mp ha]
        rfl
    · intro a ha
      obtain ha | ha := mem_append.mp ha
      · exact Or.inl ((holder a ha).trans (lt_succ_self _))
      · exact Or.inr (mem_singleton.mp ha)
    · intro par hpar
      have hoks : (if par ∈ d.partitionIds then 0 else c.oks par) = 0 := if_pos hpar
      have hcount : (c.outstanding++d.attempt.calls cfg).countP
          (fun call => call.phase = c.phase+1 ∧ call.par = par) = (cfg.sites par).length := by
        rw [countP_append,hzero,zero_add]
        exact countP_calls (a:=d.attempt) hpars hpar
      exact (congrArg₂ (·+·) hoks hcount).trans (zero_add _)
    · exact fun par hpar => if_pos hpar
    · exact fun call hcall => Or.inl (mem_append_right _ hcall)
    · obtain ⟨par,hpar⟩ := exists_mem_of_ne_nil _ (partitionIds_ne_nil (c:=d) hpieces)
      obtain ⟨site,hsite⟩ := exists_mem_of_ne_nil _ (cfg.nonempty par)
      have hcall : (⟨c.id,c.phase+1,par,site⟩ : Call P S) ∈ d.attempt.calls cfg :=
        mem_calls.mpr ⟨rfl,rfl,hpar,hsite⟩
      exact ⟨_,hcall,mem_append_right _ hcall⟩
    · exact mem_append_right _ (mem_singleton_self _)

variable {call : Call P S}

theorem Base.erase (h : Base cfg votes c) (call : Call P S) :
    Base cfg votes {c with outstanding := c.outstanding.erase call} :=
  {h with pending := fun q hq => h.pending q (mem_of_mem_erase hq), nodup := h.nodup.erase _}

theorem Inv.late (h : Inv cfg votes c) (hlt : call.phase < c.phase) :
    Inv cfg votes {c with outstanding := c.outstanding.erase call} := by
  refine ⟨h.toBase.erase call,?_⟩
  cases h.shape with
  | rest hwait hphase holder => exact .rest hwait hphase holder
  | dispatch hwait hphase hundecided holder hfresh hid =>
    exact .dispatch hwait hphase hundecided holder hfresh hid
  | votes hwait hphase hasked hvoting hwaiting =>
    have hkeep : ∀ q ∈ c.attempt.calls cfg, q ∈ c.outstanding → q ∈ c.outstanding.erase call := by
      intro q hq hmem
      refine (mem_erase_of_ne ?_).mpr hmem
      rintro rfl
      exact hlt.ne (mem_calls.mp hq).2.1
    have hcount : ∀ par, (c.outstanding.erase call).countP
        (fun q => q.phase = c.phase ∧ q.par = par) = c.waitingFor par := by
      intro par
      rw [countP_erase,if_neg (by simp [hlt.ne]),Nat.sub_zero]
      rfl
    obtain ⟨q,hq,hmem⟩ := hwaiting
    refine .votes hwait hphase {hasked with} ⟨hvoting.undecided,?_,
      hvoting.rejects,fun q hq => (hvoting.answered q hq).imp_left (hkeep q hq)⟩
      ⟨q,hq,hkeep q hq hmem⟩
    intro par hpar
    exact (congrArg (c.oks par+·) (hcount par)).trans (hvoting.oks par hpar)

omit [DecidableEq S] in
theorem Base.mem_calls_of_phase (h : Base cfg votes c) (hasked : Asked c)
    (hcall : call ∈ c.outstanding) (hphase : c.phase ≤ call.phase) :
    call ∈ c.attempt.calls cfg := by
  obtain ⟨a,ha,hmem⟩ := h.pending call hcall
  obtain hlt | rfl := hasked.older a ha
  · exact absurd ((mem_calls.mp hmem).2.1 ▸ hlt) (not_lt.mpr hphase)
  · exact hmem

omit [DecidableEq S] in
theorem Voting.possible (h : Voting cfg votes c) : c.fastQuorumPossible cfg = true := by
  refine all_eq_true.mpr fun par hpar => ?_
  simp [h.rejects par hpar]

omit [DecidableEq S] in
theorem Voting.reached_iff (hbase : Base cfg votes c) (hasked : Asked c)
    (h : Voting cfg votes c) : c.allFastQuorumReached cfg = true ↔
      ∀ call ∈ c.attempt.calls cfg, call ∉ c.outstanding := by
  have hzero : ∀ par ∈ c.partitionIds, ¬c.oks par < getFastQuorum cfg par ↔
      c.waitingFor par = 0 := by
    intro par hpar
    have hoks := h.oks par hpar
    unfold getFastQuorum
    omega
  simp only [allFastQuorumReached,all_eq_true,decide_eq_true_eq]
  constructor
  · intro hall q hq hmem
    obtain ⟨_,hphase,hpar,_⟩ := mem_calls.mp hq
    have hnone := (hzero q.par hpar).mp (hall q.par hpar)
    exact countP_eq_zero.mp hnone q hmem (decide_eq_true ⟨hphase,rfl⟩)
  · intro hnone par hpar
    refine (hzero par hpar).mpr (countP_eq_zero.mpr fun q hmem heq => ?_)
    have hphase := (of_decide_eq_true heq).1
    exact hnone q (hbase.mem_calls_of_phase hasked hmem hphase.ge) hmem

theorem Voting.success (h : Voting cfg votes c) (hcall : call ∈ c.attempt.calls cfg)
    (hmem : call ∈ c.outstanding) (hyes : votes call = .success) :
    Voting cfg votes {c with
      outstanding := c.outstanding.erase call
      oks := update c.oks call.par (c.oks call.par+1)} := by
  have hphase : call.phase = c.phase := (mem_calls.mp hcall).2.1
  refine ⟨h.undecided,?_,h.rejects,?_⟩
  · intro par hpar
    have hoks : c.oks par+c.waitingFor par = (cfg.sites par).length := h.oks par hpar
    show update c.oks call.par (c.oks call.par+1) par+(c.outstanding.erase call).countP
      (fun q => q.phase = c.phase ∧ q.par = par) = (cfg.sites par).length
    rw [countP_erase]
    by_cases heq : par = call.par
    · subst heq
      have hpos : 0 < c.waitingFor call.par :=
        countP_pos_iff.mpr ⟨call,hmem,decide_eq_true ⟨hphase,rfl⟩⟩
      rw [update_self,if_pos ⟨hmem,decide_eq_true ⟨hphase,rfl⟩⟩]
      unfold waitingFor at hoks hpos
      omega
    · rw [update_of_ne heq,if_neg (by simp [Ne.symm heq]),Nat.sub_zero]
      exact hoks
  · intro q hq
    by_cases heq : q = call
    · exact Or.inr (heq ▸ hyes)
    · exact (h.answered q hq).imp_left fun hq => (mem_erase_of_ne heq).mpr hq

omit [DecidableEq S] in
theorem fastAcceptAck_success {phase : ℕ} (par : P) (hphase : c.phase ≤ phase) :
    let c' := {c with oks := update c.oks par (c.oks par+1)}
    fastQuorumPossible cfg c' = true → fastAcceptAck cfg c phase par SUCCESS =
      if allFastQuorumReached cfg c' then
        gotoNextPhase cfg (some par) depth {c' with committed := true}
      else some c' := by
  intro c' hpossible
  rw [fastAcceptAck,if_neg (not_lt.mpr hphase),if_pos rfl]
  exact if_pos hpossible

variable (cfg) in
omit [DecidableEq S] in
/-- One vote other than yes, and the transaction is aborted: the fast quorum is all the
replicas. -/
theorem fastAcceptAck_reject {phase : ℕ} {par : P} (hphase : c.phase ≤ phase)
    (hpar : par ∈ c.partitionIds) :
    fastAcceptAck cfg c phase par REJECT = gotoNextPhase cfg (some par) depth {c with
      rejects := update c.rejects par (c.rejects par+1)
      aborted := true} := by
  rw [fastAcceptAck,if_neg (not_lt.mpr hphase),if_neg (by decide),if_pos rfl]
  refine if_neg fun hpossible => ?_
  have hone := all_eq_true.mp hpossible par hpar
  simp [getFastQuorum] at hone

theorem code_reject {r : Result} (h : r ≠ .success) : code r = REJECT := by
  cases r <;> first | rfl | exact absurd rfl h

omit [DecidableEq S] in
theorem Voting.verdict_commit (h : Voting cfg votes c)
    (hnone : ∀ call ∈ c.attempt.calls cfg, call ∉ c.outstanding) :
    c.attempt.verdict cfg votes = .commit :=
  if_pos fun call hcall => (h.answered call hcall).resolve_left (hnone call hcall)

omit [DecidableEq S] in
theorem Base.decided (h : Base cfg votes c) (hfree : cfg.locked = false) (hasked : Asked c)
    (hphase : c.phase%4 = 2) (hne : c.committed ≠ c.aborted)
    (hretry : c.aborted = true → c.nRetry < 4) {reply : Option P}
    (hverdict : c.attempt.verdict cfg votes = if c.committed then .commit else .abort) :
    ∃ c', gotoNextPhase cfg reply depth c = some c' ∧ Inv cfg votes c' := by
  obtain ⟨c',hc',hs⟩ := gotoNextPhase_settled cfg hfree hphase hne hretry
  exact ⟨c',hc',h.settled hasked (hverdict ▸ hs)⟩

theorem Inv.vote_current (h : Inv cfg votes c) (hfree : cfg.locked = false)
    (hphase : c.phase%4 = 2) (hwait : c.wait = .votes)
    (hasked : Asked c) (hvoting : Voting cfg votes c) (hmem : call ∈ c.outstanding)
    (hcall : call ∈ c.attempt.calls cfg) (hok : c.Patient votes (.vote call)) :
    ∃ c', c.handle cfg votes (.vote call) = some c' ∧ Inv cfg votes c' := by
  obtain ⟨_,hcphase,hpar,_⟩ := mem_calls.mp hcall
  have hbase := h.toBase.erase call
  by_cases hyes : votes call = .success
  · have hcount := hvoting.success hcall hmem hyes
    have hbase' : Base cfg votes {c with
        outstanding := c.outstanding.erase call
        oks := update c.oks call.par (c.oks call.par+1)} :=
      {hbase with}
    have hreached := hcount.reached_iff hbase' {hasked with}
    have hack := fastAcceptAck_success (c:={c with outstanding := c.outstanding.erase call})
      call.par hcphase.ge hcount.possible
    rw [handle,hyes]
    refine hack ▸ ?_
    split_ifs with hdone
    · have hverdict := hcount.verdict_commit (hreached.mp hdone)
      apply Base.decided
      · exact {hbase with}
      · exact hfree
      · exact {hasked with}
      · exact hphase
      · simp [hvoting.undecided.2]
      · simp [hvoting.undecided.2]
      · exact hverdict
    · refine ⟨_,rfl,hbase',.votes hwait hphase {hasked with} hcount ?_⟩
      by_contra hnone
      exact hdone (hreached.mpr fun q hq hq' => hnone ⟨q,hq,hq'⟩)
  · have hack := fastAcceptAck_reject cfg
      (c:={c with outstanding := c.outstanding.erase call}) hcphase.ge hpar
    have hverdict : c.attempt.verdict cfg votes = .abort := if_neg fun hall =>
      hyes (hall call hcall)
    rw [handle,code_reject hyes]
    refine hack ▸ ?_
    apply Base.decided
    · exact {hbase with}
    · exact hfree
    · exact {hasked with}
    · exact hphase
    · simp [hvoting.undecided.1]
    · exact fun _ => hok hyes hcphase.ge
    · exact hverdict.trans (if_neg (by simp [hvoting.undecided.1])).symm

theorem handle_vote_late (hlt : call.phase < c.phase) :
    c.handle cfg votes (.vote call) = some {c with outstanding := c.outstanding.erase call} :=
  if_pos hlt

theorem Inv.vote (h : Inv cfg votes c) (hfree : cfg.locked = false) (hmem : call ∈ c.outstanding)
    (hok : c.Patient votes (.vote call)) :
    ∃ c', c.handle cfg votes (.vote call) = some c' ∧ Inv cfg votes c' := by
  by_cases hlt : call.phase < c.phase
  · exact ⟨_,handle_vote_late hlt,h.late hlt⟩
  · obtain ⟨a,ha,hcall⟩ := h.pending call hmem
    have haphase := (mem_calls.mp hcall).2.1
    cases h.shape with
    | rest _ _ holder | dispatch _ _ _ holder => exact absurd (haphase ▸ holder a ha) hlt
    | votes hwait hphase hasked hvoting =>
      exact h.vote_current hfree hphase hwait hasked hvoting hmem
        (h.mem_calls_of_phase hasked hmem (not_lt.mp hlt)) hok

theorem Inv.handle (h : Inv cfg votes c) (hfree : cfg.locked = false) {a : Label P S}
    (ha : c.Enabled a) (hok : c.Patient votes a) :
    ∃ c', c.handle cfg votes a = some c' ∧ Inv cfg votes c' := by
  cases a with
  | doTxAsync => exact h.doTxAsync ha
  | dispatched pieces par =>
    obtain ⟨c',hc',hinv,_⟩ := h.dispatched hfree ha.1 ha.2.1 par
    exact ⟨c',hc',hinv⟩
  | vote call => exact h.vote hfree ha hok

theorem inv_of_reachable (hfree : cfg.locked = false)
    (h : ReachableBy (system cfg votes) (Patient votes) c) : Inv cfg votes c := by
  obtain ⟨s₀,rfl,hrun⟩ := h
  refine Run.invariant (fun s a t hok hinv hstep => ?_) hrun Inv.init
  simp only [system] at hstep
  split_ifs at hstep with henabled
  obtain ⟨t',ht',hinv'⟩ := hinv.handle hfree henabled hok
  rw [ht'] at hstep
  exact Option.some.inj hstep ▸ hinv'

omit [DecidableEq S] in
theorem Inv.decided_or_waiting (h : Inv cfg votes c) {a : Attempt P} (ha : a ∈ c.attempts) :
    (c.decisions a.tid = [] ∧ ∃ call ∈ a.calls cfg, c.Enabled (.vote call)) ∨
      c.decisions a.tid = a.pars.map fun par => (a.tid,par,a.verdict cfg votes) := by
  cases h.shape with
  | rest _ _ holder | dispatch _ _ _ holder => exact Or.inr (h.past a ha (holder a ha))
  | votes hwait _ hasked _ hwaiting =>
    obtain hlt | rfl := hasked.older a ha
    · exact Or.inr (h.past a ha hlt)
    · obtain ⟨call,hcall,hmem⟩ := hwaiting
      exact Or.inl ⟨h.decisions_current hasked,call,hcall,hmem⟩

omit [DecidableEq S] in
theorem Inv.phase_lt_of_decided (h : Inv cfg votes c) (hmem : call ∈ c.outstanding)
    (hdecided : c.decisions call.tid ≠ []) : call.phase < c.phase := by
  obtain ⟨a,ha,hcall⟩ := h.pending call hmem
  obtain ⟨htid,hphase,_⟩ := mem_calls.mp hcall
  rw [hphase]
  cases h.shape with
  | rest _ _ holder | dispatch _ _ _ holder => exact holder a ha
  | votes _ _ hasked =>
    refine (hasked.older a ha).resolve_right ?_
    rintro rfl
    exact hdecided (htid ▸ h.decisions_current hasked)

def twoByTwo (locked : Bool) : Config Bool Bool :=
  ⟨fun _ => [false,true],by decide,by decide,-1,locked⟩

def oneAbstains (call : Call Bool Bool) : Result :=
  if call.tid = 0 ∧ call.par ∧ call.site then .abstain else .success

/-- The first round is aborted by the second vote; of the second round, three votes are in. -/
def secondRound : Coordinator Bool Bool :=
  after (system (twoByTwo false) oneAbstains) (Patient oneAbstains) {}
    [.doTxAsync,.dispatched [(1,false),(2,true),(3,true)] true,.vote ⟨0,2,false,true⟩,
      .vote ⟨0,2,true,true⟩,.dispatched [(1,false),(2,true),(3,true)] false,.vote ⟨2,6,true,true⟩,
      .vote ⟨2,6,false,true⟩,.vote ⟨2,6,false,false⟩]

def abortedRound (n : ℕ) : List (Label Bool Bool) :=
  [.dispatched [(1,false)] false,.vote ⟨2*n,4*n+2,false,false⟩]

end Runs

end Coordinator

end Janus.TapirCoordinator
