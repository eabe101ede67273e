import Janus.Transition

/-! The part of a multi-Paxos replica that applies the log. While the loop of `OnCommit` waits for
`app_next_`, other calls of `OnCommit` record their command and leave the loop to it. -/
namespace Janus.Paxos

open Transition Function Option List

structure PaxosData (Cmd : Type) where
  committedCmd : Option Cmd := none
  deriving DecidableEq

/-- With the commands passed to `app_next_` and, while one of these calls is running, the `id` of
the loop that made it. -/
structure PaxosServer (Cmd : Type) where
  minActiveSlot : ℕ := 0
  maxExecutedSlot : ℕ := 0
  maxCommittedSlot : ℕ := 0
  logs : ℕ → Option (PaxosData Cmd) := fun _ => none
  inApplyingLogs : Bool := false
  applied : List Cmd := []
  running : Option ℕ := none

variable {Cmd : Type} {N : ℕ}

namespace PaxosServer

variable (s : PaxosServer Cmd)

/-- The entry of a slot, created when it is missing. A freed slot fails the check. -/
def getInstance (id : ℕ) : Option (PaxosData Cmd × PaxosServer Cmd) :=
  if s.minActiveSlot ≤ id then
    let d := (s.logs id).getD {}
    some (d,{s with logs := update s.logs id (some d)})
  else none

def toInt (slot : ℕ) : ℤ := Int.bmod slot (2^32)

/-- The loop that frees everything 1000 slots behind. The comparison is one of
`uint64_t` values. -/
def freeLoop (maxExecuted : ℕ) :
    ℕ → ℤ → (ℕ → Option (PaxosData Cmd)) → ℤ × (ℕ → Option (PaxosData Cmd))
  | 0, i, logs => (i,logs)
  | n+1, i, logs =>
    if (i+1000) % 2^64 < maxExecuted then
      freeLoop maxExecuted n (i+1) (update logs (i % 2^64).toNat none)
    else (i,logs)

/-- While slots fit an `int` the loop stops 1000 slots behind and has freed exactly the
slots that it passed. -/
theorem freeLoop_eq {maxExecuted : ℕ} (hmax : maxExecuted < 2^31) (n i : ℕ)
    (hn : maxExecuted ≤ i+1000+n) (hi : i < 2^31) (logs : ℕ → Option (PaxosData Cmd)) :
    freeLoop maxExecuted n i logs = (((max i (maxExecuted-1000) : ℕ) : ℤ),
      fun j => if i ≤ j ∧ j < maxExecuted-1000 then none else logs j) := by
  induction n generalizing i logs with
  | zero =>
    have hle : maxExecuted-1000 ≤ i := by omega
    have hnone : ∀ j, ¬(i ≤ j ∧ j < maxExecuted-1000) := by omega
    simp [freeLoop,max_eq_left hle,hnone]
  | succ n ih =>
    have hmod : ((i : ℤ)+1000) % 2^64 = i+1000 := Int.emod_eq_of_lt (by omega) (by omega)
    rw [freeLoop,hmod]
    split_ifs with hlt
    · have hslot : ((i : ℤ) % 2^64).toNat = i := by omega
      have hcast : (i : ℤ)+1 = ((i+1 : ℕ) : ℤ) := by push_cast; rfl
      rw [hslot,hcast,ih (i+1) (by omega) (by omega)]
      refine Prod.ext ?_ (funext fun j => ?_)
      · have hm : max (i+1) (maxExecuted-1000) = max i (maxExecuted-1000) := by omega
        simp only [hm]
      · simp only [update_apply]
        split_ifs <;> first | rfl | omega
    · have hle : maxExecuted-1000 ≤ i := by omega
      have hnone : ∀ j, ¬(i ≤ j ∧ j < maxExecuted-1000) := by omega
      simp [max_eq_left hle,hnone]

def finish : PaxosServer Cmd :=
  let r := freeLoop s.maxExecutedSlot s.maxExecutedSlot (toInt s.minActiveSlot) s.logs
  {s with logs := r.2, minActiveSlot := (r.1 % 2^64).toNat, inApplyingLogs := false}

theorem toInt_of_lt {slot : ℕ} (h : slot < 2^31) : toInt slot = slot := by
  unfold toInt
  rw [Int.bmod_eq_of_le] <;> omega

theorem finish_eq {s : PaxosServer Cmd} (hmin : s.minActiveSlot < 2^31)
    (hmax : s.maxExecutedSlot < 2^31) : s.finish =
    {s with
     logs := fun j =>
       if s.minActiveSlot ≤ j ∧ j < s.maxExecutedSlot-1000 then none else s.logs j
     minActiveSlot := max s.minActiveSlot (s.maxExecutedSlot-1000)
     inApplyingLogs := false} := by
  have hmod : (((max s.minActiveSlot (s.maxExecutedSlot-1000) : ℕ) : ℤ) % 2^64).toNat =
      max s.minActiveSlot (s.maxExecutedSlot-1000) := by omega
  unfold finish
  rw [toInt_of_lt hmin,freeLoop_eq hmax _ _ (by omega) hmin]
  simp only [hmod]

/-- The loop of `OnCommit` from one value of `id` to its next call of `app_next_`, or to
the end. -/
def applyFrom (id : ℕ) : Option (PaxosServer Cmd) :=
  if id ≤ s.maxCommittedSlot then
    (s.getInstance id).map fun r =>
      match r.1.committedCmd with
      | some cmd => {r.2 with applied := r.2.applied++[cmd], running := some id}
      | none => r.2.finish
  else some s.finish

def recordCommit (d : PaxosData Cmd) (slot : ℕ) (cmd : Cmd) :
    PaxosServer Cmd :=
  {s with
   logs := update s.logs slot (some {d with committedCmd := some cmd})
   maxCommittedSlot := if slot > s.maxCommittedSlot then slot else s.maxCommittedSlot}

def onCommit (slot : ℕ) (cmd : Cmd) : Option (PaxosServer Cmd) :=
  (s.getInstance slot).bind fun r =>
    let s := r.2.recordCommit r.1 slot cmd
    if slot > s.maxExecutedSlot then
      if s.inApplyingLogs then some s
      else applyFrom {s with inApplyingLogs := true} (s.maxExecutedSlot+1)
    else none

def appNextReturns : Option (PaxosServer Cmd) :=
  match s.running with
  | some id => applyFrom {s with running := none, maxExecutedSlot := s.maxExecutedSlot+1} (id+1)
  | none => none

end PaxosServer

structure Replica (Cmd : Type) where
  server : PaxosServer Cmd := {}
  calls : ℕ → Option Cmd := fun _ => none

inductive Action (Cmd : Type)
  | onCommit (slot : ℕ) (cmd : Cmd)
  | appNextReturns

/-- Every slot from 1 to `N` is committed by at most one call. -/
def step (N : ℕ) (r : Replica Cmd) : Action Cmd → Option (Replica Cmd)
  | .onCommit slot cmd =>
    if 1 ≤ slot ∧ slot ≤ N ∧ (r.calls slot).isNone then
      (r.server.onCommit slot cmd).map fun s =>
        {server := s, calls := update r.calls slot (some cmd)}
    else none
  | .appNextReturns => r.server.appNextReturns.map fun s => {r with server := s}

def system (Cmd : Type) (N : ℕ) : System (Replica Cmd) (Action Cmd) where
  init r := r = {}
  step := step N

/-- How many commands have been passed to `app_next_`: those of the executed slots, and
the one that a running call is applying. -/
def PaxosServer.passed (s : PaxosServer Cmd) : ℕ :=
  s.maxExecutedSlot + if s.running.isSome then 1 else 0

structure LogInv (N : ℕ) (r : Replica Cmd) : Prop where
  executed_le : r.server.maxExecutedSlot ≤ r.server.maxCommittedSlot
  committed_le : r.server.maxCommittedSlot ≤ N
  called_le : ∀ i c, r.calls i = some c → 1 ≤ i ∧ i ≤ r.server.maxCommittedSlot
  min_le : r.server.minActiveSlot ≤ r.server.maxExecutedSlot-1000
  freed : ∀ i < r.server.minActiveSlot, r.server.logs i = none
  committedCmd : ∀ i, r.server.minActiveSlot ≤ i →
    (r.server.logs i).bind PaxosData.committedCmd = r.calls i

/-- Either the loop is inside a call of `app_next_` for the slot after the executed ones, or no
call is in progress and that slot is missing. -/
structure Inv (N : ℕ) (r : Replica Cmd) : Prop extends LogInv N r where
  applied : r.server.applied.map some = (List.range' 1 r.server.passed).map r.calls
  applying : ∀ id, r.server.running = some id → id = r.server.maxExecutedSlot+1 ∧
    id ≤ r.server.maxCommittedSlot ∧ r.server.inApplyingLogs = true
  idle : r.server.running = none →
    r.calls (r.server.maxExecutedSlot+1) = none ∧ r.server.inApplyingLogs = false

theorem Inv.init (N : ℕ) : Inv N ({} : Replica Cmd) := by
  refine ⟨⟨le_rfl,Nat.zero_le N,?_,Nat.zero_le _,?_,?_⟩,rfl,?_,?_⟩ <;> simp

section Loop

variable {N : ℕ} {r : Replica Cmd} {slot : ℕ}

theorem LogInv.getInstance (h : LogInv N r) (id : ℕ) (hid : r.server.minActiveSlot ≤ id) :
    ∃ d s, r.server.getInstance id = some (d,s) ∧ d.committedCmd = r.calls id ∧
      s = {r.server with logs := s.logs} ∧ LogInv N {r with server := s} := by
  refine ⟨_,_,if_pos hid,?_,rfl,?_⟩
  · rw [← h.committedCmd id hid]
    cases r.server.logs id <;> rfl
  · refine {h with freed := fun i hi => ?_, committedCmd := fun i hi => ?_}
    · have hne : i ≠ id := by
        intro he
        subst he
        exact absurd hid (not_le.mpr hi)
      simpa [update_of_ne hne] using h.freed i hi
    · rw [← h.committedCmd i hi]
      by_cases he : i = id
      · subst he
        cases r.server.logs i <;> simp
      · simp [update_of_ne he]

theorem LogInv.finish (h : LogInv N r) (hN : N < 2^31) :
    LogInv N {r with server := r.server.finish} := by
  have hmax : r.server.maxExecutedSlot < 2^31 := by
    have := h.executed_le
    have := h.committed_le
    omega
  have hmin := h.min_le
  rw [PaxosServer.finish_eq (by omega) hmax]
  refine ⟨h.executed_le,h.committed_le,h.called_le,?_,fun i hi => ?_,fun i hi => ?_⟩
  · exact (max_le hmin le_rfl)
  · have hi : i < max r.server.minActiveSlot (r.server.maxExecutedSlot-1000) := hi
    simp only
    split_ifs with hc
    · rfl
    · exact h.freed i (by omega)
  · have hi : max r.server.minActiveSlot (r.server.maxExecutedSlot-1000) ≤ i := hi
    have hc : ¬(r.server.minActiveSlot ≤ i ∧ i < r.server.maxExecutedSlot-1000) := by omega
    simp only [hc,if_false]
    exact h.committedCmd i (by omega)

/-- The loop goes from the slot after the executed ones to its next call of `app_next_`
or to its end, and no check fails on the way. -/
theorem LogInv.applyFrom (h : LogInv N r) (hN : N < 2^31) (happlied : r.server.applied.map some =
      (List.range' 1 r.server.maxExecutedSlot).map r.calls)
    (hrunning : r.server.running = none) (hflag : r.server.inApplyingLogs = true) :
    ∃ s, r.server.applyFrom (r.server.maxExecutedSlot+1) = some s ∧ Inv N {r with server := s} := by
  have hmin := h.min_le
  have hexec := h.executed_le
  have hmax : r.server.maxExecutedSlot < 2^31 := by
    have := h.committed_le
    omega
  -- the loop ends at a slot that has not been committed
  have hend : ∀ s : PaxosServer Cmd, s = {r.server with logs := s.logs} →
      LogInv N {r with server := s} → r.calls (r.server.maxExecutedSlot+1) = none →
      Inv N {r with server := s.finish} := by
    intro s hs hinv hnone
    have hfin := hinv.finish hN
    rw [hs] at hfin ⊢
    rw [PaxosServer.finish_eq (by simp only; omega) (by simpa using hmax)] at hfin ⊢
    refine ⟨hfin,?_,?_,?_⟩
    · simpa [PaxosServer.passed,hrunning] using happlied
    · simp [hrunning]
    · exact fun _ => ⟨hnone,rfl⟩
  unfold PaxosServer.applyFrom
  split_ifs with hid
  · obtain ⟨d,s,hget,hd,hs,hinv⟩ := h.getInstance (r.server.maxExecutedSlot+1) (by omega)
    rw [hget]
    cases hcmd : d.committedCmd with
    | some cmd =>
      refine ⟨_,rfl,?_⟩
      simp only [hcmd]
      have hcall : r.calls (r.server.maxExecutedSlot+1) = some cmd := hd ▸ hcmd
      rw [hs] at hinv ⊢
      refine ⟨{hinv with},?_,?_,?_⟩
      · simp [PaxosServer.passed,happlied,range'_concat,hcall,Nat.add_comm 1]
      · simpa using ⟨hid,hflag⟩
      · simp
    | none =>
      refine ⟨_,rfl,?_⟩
      simp only [hcmd]
      exact hend s hs hinv (hd ▸ hcmd)
  · refine ⟨_,rfl,hend r.server rfl h ?_⟩
    cases hc : r.calls (r.server.maxExecutedSlot+1) with
    | none => rfl
    | some c => exact absurd (h.called_le _ c hc).2 hid

theorem LogInv.recordCommit (h : LogInv N r) (d : PaxosData Cmd) (cmd : Cmd)
    (hslot : 1 ≤ slot) (hle : slot ≤ N) (hmin : r.server.minActiveSlot ≤ slot) :
    LogInv N {server := r.server.recordCommit d slot cmd,
              calls := update r.calls slot (some cmd)} := by
  refine ⟨?_,?_,fun i c hc => ?_,h.min_le,fun i hi => ?_,fun i hi => ?_⟩
  · have := h.executed_le
    simp only [PaxosServer.recordCommit]
    split_ifs <;> omega
  · have := h.committed_le
    simp only [PaxosServer.recordCommit]
    split_ifs <;> omega
  · simp only [update_apply] at hc
    simp only [PaxosServer.recordCommit]
    split_ifs at hc with he
    · subst he
      exact ⟨hslot,by split_ifs <;> omega⟩
    · have hold := h.called_le i c hc
      exact ⟨hold.1,by split_ifs <;> omega⟩
  · have hi : i < r.server.minActiveSlot := hi
    have hne : i ≠ slot := by omega
    simpa [PaxosServer.recordCommit,update_of_ne hne] using h.freed i hi
  · by_cases he : i = slot
    · subst he
      simp [PaxosServer.recordCommit]
    · simpa [PaxosServer.recordCommit,update_of_ne he] using h.committedCmd i hi

theorem Inv.passed_lt (h : Inv N r) (hslot : 1 ≤ slot) (hnew : r.calls slot = none) :
    r.server.passed < slot := by
  by_contra hge
  have hmem : r.calls slot ∈ (range' 1 r.server.passed).map r.calls :=
    mem_map_of_mem (mem_range'_1.mpr ⟨hslot,by omega⟩)
  rw [← h.applied,hnew] at hmem
  simp at hmem

theorem Inv.onCommit (h : Inv N r) (hN : N < 2^31) (cmd : Cmd) (hslot : 1 ≤ slot)
    (hle : slot ≤ N) (hnew : r.calls slot = none) : ∃ s, r.server.onCommit slot cmd = some s ∧
      Inv N {server := s, calls := update r.calls slot (some cmd)} := by
  have hmin := h.min_le
  have hpassed := h.passed_lt hslot hnew
  have hexec : r.server.maxExecutedSlot < slot := by
    unfold PaxosServer.passed at hpassed
    omega
  obtain ⟨d,s,hget,-,hs,hinv⟩ := h.getInstance slot (by omega)
  have hlog := hinv.recordCommit d cmd hslot hle (by rw [hs]; simp only; omega)
  have hsame : (range' 1 r.server.passed).map (update r.calls slot (some cmd)) =
      (range' 1 r.server.passed).map r.calls := by
    refine map_congr_left fun i hi => update_of_ne ?_ _ _
    have := (mem_range'_1.mp hi).2
    omega
  -- what recording the command leaves as it was
  have hx : (s.recordCommit d slot cmd).maxExecutedSlot = r.server.maxExecutedSlot := by rw [hs]; rfl
  have hr : (s.recordCommit d slot cmd).running = r.server.running := by rw [hs]; rfl
  have ha : (s.recordCommit d slot cmd).applied = r.server.applied := by rw [hs]; rfl
  have hf : (s.recordCommit d slot cmd).inApplyingLogs = r.server.inApplyingLogs := by rw [hs]; rfl
  unfold PaxosServer.onCommit
  rw [hget]
  simp only [bind_some]
  rw [if_pos (hx ▸ hexec)]
  cases hrun : r.server.running with
  | some id =>
    obtain ⟨hid,hidle,hflag⟩ := h.applying id hrun
    rw [if_pos (hf.trans hflag)]
    refine ⟨_,rfl,⟨hlog,?_,?_,?_⟩⟩
    · have hp : (s.recordCommit d slot cmd).passed = r.server.passed := by
        simp [PaxosServer.passed,hx,hr]
      simp only [hp,ha,hsame]
      exact h.applied
    · intro id' hid'
      have he : some id = some id' := (hrun.symm.trans hr.symm).trans hid'
      obtain rfl := some.inj he
      refine ⟨hid.trans (by rw [hx]),hidle.trans ?_,hf.trans hflag⟩
      have hc : s.maxCommittedSlot = r.server.maxCommittedSlot := by rw [hs]
      simp only [PaxosServer.recordCommit,hc]
      split_ifs <;> omega
    · intro hnone
      exact absurd (hr.symm.trans hnone) (by simp [hrun])
  | none =>
    obtain ⟨-,hflag⟩ := h.idle hrun
    have hp : r.server.passed = r.server.maxExecutedSlot := by simp [PaxosServer.passed,hrun]
    rw [if_neg (by rw [hf,hflag]; simp)]
    refine LogInv.applyFrom (r:=⟨{s.recordCommit d slot cmd with inApplyingLogs := true},
        update r.calls slot (some cmd)⟩)
      {hlog with} hN ?_ (hr.trans hrun) rfl
    have happlied := h.applied
    rw [← hsame,hp] at happlied
    simpa only [hx,ha] using happlied

theorem Inv.appNextReturns (h : Inv N r) (hN : N < 2^31) {id : ℕ}
    (hrun : r.server.running = some id) :
    ∃ s, r.server.appNextReturns = some s ∧ Inv N {r with server := s} := by
  obtain ⟨hid,hle,hflag⟩ := h.applying id hrun
  subst hid
  have hlog : LogInv N {r with server :=
      {r.server with running := none, maxExecutedSlot := r.server.maxExecutedSlot+1}} :=
    {h with
      executed_le := hle
      min_le := h.min_le.trans (Nat.sub_le_sub_right (Nat.le_succ _) 1000)}
  unfold PaxosServer.appNextReturns
  rw [hrun]
  refine hlog.applyFrom hN ?_ rfl hflag
  have := h.applied
  rwa [PaxosServer.passed,hrun] at this

end Loop

variable {r : Replica Cmd}

theorem Inv.step {r' : Replica Cmd} {a : Action Cmd} (h : Inv N r) (hN : N < 2^31)
    (hstep : step N r a = some r') : Inv N r' := by
  cases a with
  | onCommit slot cmd =>
    simp only [Paxos.step] at hstep
    split_ifs at hstep with hc
    obtain ⟨hslot,hle,hnew⟩ := hc
    obtain ⟨s,hs,hinv⟩ := h.onCommit hN cmd hslot hle (isNone_iff_eq_none.mp hnew)
    rw [hs] at hstep
    exact some.inj hstep ▸ hinv
  | appNextReturns =>
    simp only [Paxos.step] at hstep
    cases hrun : r.server.running with
    | none => simp [PaxosServer.appNextReturns,hrun] at hstep
    | some id =>
      obtain ⟨s,hs,hinv⟩ := h.appNextReturns hN hrun
      rw [hs] at hstep
      exact some.inj hstep ▸ hinv

theorem Inv.reachable (hN : N < 2^31) (h : Reachable (system Cmd N) r) : Inv N r := by
  obtain ⟨r₀,hinit,hrun⟩ := h
  subst hinit
  exact Run.invariant (fun _ _ _ _ hinv hstep => hinv.step hN hstep) hrun (Inv.init N)

/-- The log is applied once and in order. The commands passed to `app_next_` are those of the
executed slots and the one being applied; the counters are ordered; with no call in progress every
contiguous committed prefix is executed; freed slots stay out of the log; and neither a call for a
new slot nor the return of `app_next_` fails a check, as one for a freed slot does. -/
theorem applied_in_order {N : ℕ} (hN : N < 2^31) {r : Replica Cmd}
    (h : Reachable (system Cmd N) r) :
    r.server.applied.map some = (List.range' 1 r.server.passed).map r.calls ∧
    (∀ id, r.server.running = some id → id = r.server.maxExecutedSlot+1) ∧
    r.server.minActiveSlot ≤ r.server.maxExecutedSlot+1 ∧
    r.server.maxExecutedSlot ≤ r.server.maxCommittedSlot ∧
    (r.server.running = none → ∀ k, (∀ i, 1 ≤ i → i ≤ k → r.calls i ≠ none) →
      k ≤ r.server.maxExecutedSlot) ∧
    (∀ i < r.server.minActiveSlot, r.server.logs i = none) ∧
    (∀ slot cmd, 1 ≤ slot → slot ≤ N → r.calls slot = none → (r.server.onCommit slot cmd).isSome) ∧
    (r.server.running.isSome → r.server.appNextReturns.isSome) := by
  have hinv := Inv.reachable hN h
  refine ⟨hinv.applied,fun id hid => (hinv.applying id hid).1,?_,hinv.executed_le,?_,hinv.freed,
    ?_,?_⟩
  · have := hinv.min_le
    omega
  · intro hidle k hk
    by_contra hlt
    exact hk _ (by omega) (by omega) (hinv.idle hidle).1
  · intro slot cmd hslot hle hnew
    obtain ⟨s,hs,-⟩ := hinv.onCommit hN cmd hslot hle hnew
    rw [hs]
    rfl
  · intro hrun
    obtain ⟨id,hid⟩ := isSome_iff_exists.mp hrun
    obtain ⟨s,hs,-⟩ := hinv.appNextReturns hN hid
    rw [hs]
    rfl

/-- Slot 2 is committed first, then slot 1, slot 3 while slot 1 is being applied; then all calls of
`app_next_` return. -/
def outOfOrder : List (Action String) :=
  [.onCommit 2 "b",.onCommit 1 "a",.onCommit 3 "c",.appNextReturns,.appNextReturns,
    .appNextReturns]

theorem applied_in_order_three :
    (after (system String 3) (fun _ _ => True) {} outOfOrder).server.applied = ["a","b","c"] ∧
    (after (system String 3) (fun _ _ => True) {} outOfOrder).server.minActiveSlot ≤ 4 := by
  have hrun : Reachable (system String 3) (after (system String 3) (fun _ _ => True) {} outOfOrder) :=
    ⟨{},rfl,run_after _ _⟩
  have h := applied_in_order (N:=3) (by decide) hrun
  exact ⟨by decide +kernel,h.2.2.1.trans (by decide +kernel)⟩

/-- While a call of `app_next_` is running its command has been passed but the slot does
not count as executed. -/
theorem applied_before_executed : ¬∀ N < 2^31, ∀ r : Replica String, Reachable (system String N) r →
      r.server.applied.map some = (List.range' 1 r.server.maxExecutedSlot).map r.calls := by
  intro h
  have hrun : Reachable (system String 1)
      (after (system String 1) (fun _ _ => True) {} [.onCommit 1 "a"]) := ⟨{},rfl,run_after _ _⟩
  exact absurd (h 1 (by decide) _ hrun) (by decide +kernel)

end Janus.Paxos
