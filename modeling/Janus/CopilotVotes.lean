import Janus.CopilotRuns

/-! What a yes to a FastAccept or an Accept says. A replica answers with the ballot of the request,
so that each answer is counted as a yes, and the site that broadcasts counts itself. A record says
what each replica had stored for the slot when it answered. -/

namespace Janus.Copilot

open Transition Option

def Message.StoredIn {C : Type} (m : Message C) (ins : CopilotData C) : Prop :=
  match m with
  | .fastAccept b d cmd => ins.ballot = b ∧ ins.cmd = cmd ∧ ins.depId = d
  | .accept b d cmd => ins.ballot = b ∧ ins.cmd = cmd ∧ ins.depId = d
  | _ => True

def Message.Unsurpassed {C : Type} (m : Message C) (ins : CopilotData C) : Prop :=
  match m with
  | .fastAccept b _ _ => ins.ballot ≤ b
  | .accept b _ _ => ins.ballot ≤ b
  | _ => True

def Choice.isAccept {C : Type} : Choice C → Bool
  | .accept _ _ => true
  | _ => false

/-- The Accept for which a coordinator waits: the number of the broadcast, log and slot,
dependency and command. -/
def Coord.accepting {C : Type} (x : Coord C) : Option (ℕ × Bool × ℕ × ℕ × Option (Command C)) :=
  match x.phase with
  | .accept k => some (k,x.isPilot,x.slot,x.dep,x.cmd)
  | .takeoverAccept i d cmd k => some (k,!x.isPilot,i,d,cmd)
  | _ => none

section Instance

variable {C : Type} (ins : CopilotData C) (b d : ℕ) (cmd : Option (Command C))

theorem storedIn_fastAccept (sug : ℕ) (h : ins.ballot ≤ b) :
    (Message.fastAccept b d cmd).StoredIn (ins.fastAccept b d cmd sug) := by
  rw [CopilotData.fastAccept,if_pos h]
  exact ⟨rfl,rfl,rfl⟩

theorem storedIn_accept (h : ins.ballot ≤ b) :
    (Message.accept b d cmd).StoredIn (ins.accept b d cmd) := by
  rw [CopilotData.accept,if_pos h]
  exact ⟨rfl,rfl,rfl⟩

end Instance

def Cluster.reply {C : Type} (s : Cluster C) (k r : ℕ) : Option (Reply C) := (s.casts k).bind fun e => e.replies r

/-- A cluster with, for each broadcast and replica, the instance of the broadcast's slot that
the replica had when it answered. -/
structure Ledger (C : Type) where
  cluster : Cluster C
  stored : ℕ → ℕ → Option (CopilotData C)

namespace Ledger

variable {C : Type} {n : ℕ}

def start : Ledger C := ⟨.start,fun _ _ => none⟩

def note (x : Ledger C) (s' : Cluster C) : Ledger C :=
  ⟨s',fun k r =>
    match s'.casts k with
    | some e =>
      if e.replies r ≠ none ∧ x.cluster.reply k r = none then
        some ((s'.server r).ins e.isPilot e.slot)
      else x.stored k r
    | none => x.stored k r⟩

end Ledger

def recorded (C : Type) (n : ℕ) : System (Ledger C) (Action C) where
  init x := x = .start
  step x a := (x.cluster.step n a).map x.note

namespace Cluster

variable {C : Type} {n : ℕ} {s s' : Cluster C} {site i k r : ℕ} {p : Bool} {m : Message C}
variable {ρ : Reply C} {e : Cast C}

/-- What a coordinator's own replica handles when the coordinator goes on is not older than what
the replica has promised. -/
def AsksInTime (n : ℕ) (s : Cluster C) (x : Coord C) : Prop :=
  match x.phase with
  | .fastAccept k => ∀ e ∈ s.casts k, e.fastYes n x.dep = false →
      ((s.server x.site).ins x.isPilot x.slot).ballot ≤ x.ballot
  | .prepare i b k => ∀ e ∈ s.casts k,
      (prepareChoice n ((e.oks (pickGreaterBallot x.site b)).map Prod.snd)
        (some ((s.server x.site).ins (!x.isPilot) i))).isAccept = true →
      ((s.server x.site).ins (!x.isPilot) i).ballot ≤ b
  | _ => True

/-- No replica handles a FastAccept or an Accept after it has promised a higher ballot. -/
def Unsurpassed (n : ℕ) (s : Cluster C) : Action C → Prop
  | .receive k r => ∀ e ∈ s.casts k, e.msg.Unsurpassed ((s.server r).ins e.isPilot e.slot)
  | .resume c _ => ∀ x ∈ s.coords c, s.AsksInTime n x
  | _ => True

def Answers (s s' : Cluster C) : Prop :=
  ∀ k e' r, s'.casts k = some e' → e'.replies r ≠ none →
    (∃ e, s.casts k = some e ∧ e.replies r ≠ none ∧ e'.msg = e.msg) ∨
      s.reply k r = none ∧ e'.msg.StoredIn ((s'.server r).ins e'.isPilot e'.slot)

theorem answers_same (hcasts : s'.casts = s.casts) : s.Answers s' :=
  fun _ e _ he hr => .inl ⟨e,hcasts ▸ he,hr,rfl⟩

theorem Wf.casts_next (hwf : s.Wf n) : s.casts s.nextCast = none := by
  cases he : s.casts s.nextCast with
  | none => rfl
  | some e => exact absurd (hwf.casts _ _ he) (lt_irrefl _)

theorem answers_fresh
    (hcasts : ∀ k, s'.casts k = if k = s.nextCast then some (.fresh site p i m) else s.casts k) :
    s.Answers s' := by
  intro k e' r he' hr
  rw [hcasts] at he'
  split_ifs at he'
  · cases he'
    exact absurd rfl hr
  · exact .inl ⟨e',he',hr,rfl⟩

theorem answers_local (hwf : s.Wf n) (hcasts : ∀ k, s'.casts k = if k = s.nextCast then
      some (((Cast.fresh site p i m).withReply site ρ).withAnswer site) else s.casts k)
    (hm : m.StoredIn ((s'.server site).ins p i)) : s.Answers s' := by
  intro k e' r he' hr
  rw [hcasts] at he'
  split_ifs at he' with hk
  · cases he'
    obtain ⟨ρ',hρ'⟩ := ne_none_iff_exists'.mp hr
    rcases Cast.withReply_cases hρ' with ⟨rfl,-⟩ | hold
    · exact .inr ⟨by rw [reply,hk,hwf.casts_next]; rfl,hm⟩
    · cases hold
  · exact .inl ⟨e',he',hr,rfl⟩

theorem answers_reply (hk : s.casts k = some e) (hnew : e.replies r = none)
    (hcasts : ∀ a, s'.casts a = if a = k then some (e.withReply r ρ) else s.casts a)
    (hm : e.msg.StoredIn ((s'.server r).ins e.isPilot e.slot)) : s.Answers s' := by
  intro k' e' r' he' hr
  rw [hcasts] at he'
  split_ifs at he' with hkk
  · cases he'
    obtain ⟨ρ',hρ'⟩ := ne_none_iff_exists'.mp hr
    rcases Cast.withReply_cases hρ' with ⟨rfl,-⟩ | hold
    · exact .inr ⟨by rw [reply,hkk,hk]; exact hnew,hm⟩
    · exact .inl ⟨e,hkk ▸ hk,by simp [hold],rfl⟩
  · exact .inl ⟨e',he',hr,rfl⟩

theorem Receives.answers (hk : s.casts k = some e) (hnew : e.replies r = none)
    (hin : e.msg.Unsurpassed ((s.server r).ins e.isPilot e.slot)) (h : Receives s k e r s') :
    s.Answers s' := by
  cases h with
  | fastAccept hmsg _ _ hv =>
    rw [hmsg] at hin
    refine answers_reply hk hnew (casts_setReply _ _ _ _ _) ?_
    rw [server_setReply,server_setServer,if_pos rfl,hv.self,hmsg]
    exact storedIn_fastAccept _ _ _ _ _ hin
  | accept hmsg _ hv =>
    rw [hmsg] at hin
    refine answers_reply hk hnew (casts_setReply _ _ _ _ _) ?_
    rw [server_setReply,server_setServer,if_pos rfl,hv.self,hmsg]
    exact storedIn_accept _ _ _ _ hin
  | prepare hmsg | prepareFreed hmsg | commit hmsg | commitKnown hmsg =>
    refine answers_reply hk hnew (casts_setReply _ _ _ _ _) ?_
    rw [hmsg]
    trivial

theorem Resumes.answers {c : ℕ} {x : Coord C} {committed : ℕ → Bool} (hwf : s.Wf n)
    (hin : s.AsksInTime n x) (h : Resumes n s c x committed s') : s.Answers s' := by
  unfold AsksInTime at hin
  cases h with
  | commits | commitsTaken => exact answers_fresh fun k => by simp; rfl
  | accepts hk hph _ hno _ hv =>
    rw [hph] at hin
    refine answers_local hwf (fun k => by simp [postLocal]; rfl) ?_
    rw [server_setCoord,postLocal,server_post,server_setServer,if_pos rfl,
      (CopilotServer.onAccept_spec hv).2.1.self]
    exact storedIn_accept _ _ _ _ (hin _ hk hno)
  | quiet => exact answers_same rfl
  | prepares => exact answers_fresh fun k => by simp [broadcastPrepare]; rfl
  | acceptsTaken hk hph _ hchoice _ hv hv' =>
    rw [hph] at hin
    have hle := hin _ hk (by rw [hchoice]; rfl)
    refine answers_local hwf (fun k => by simp [postLocal]; rfl) ?_
    rw [server_setCoord,postLocal,server_post,server_setServer,if_pos rfl,
      (CopilotServer.onAccept_spec hv').2.1.self]
    exact storedIn_accept _ _ _ _ (hv.ins _ _ ▸ hle)

theorem Stepped.answers {a : Action C} (hs : s.Regular n) (hin : s.Unsurpassed n a)
    (h : Stepped n s a s') : s.Answers s' := by
  have hwf := hs.wf
  cases h with
  | @submit site _ _ _ _ _ _ hf hv =>
    refine answers_local hwf (fun k => by simp [postLocal]; rfl) ?_
    rw [server_addCoord,postLocal,server_post,server_setServer,if_pos rfl,hv.self]
    -- nobody has promised a ballot for a slot that is proposed now
    refine storedIn_fastAccept _ _ _ _ _ ?_
    rw [((hs.sound site).unseen _ _ hf (Nat.lt_succ_self _)).1]
    exact Nat.zero_le _
  | receive hk _ hnew _ h => exact h.answers hk hnew (hin _ hk)
  | @arrive k r e hk =>
    intro k' e' r' he' hr
    rw [casts_setAnswer] at he'
    split_ifs at he' with hkk
    · cases he'
      exact .inl ⟨e,hkk ▸ hk,hr,rfl⟩
    · exact .inl ⟨e',he',hr,rfl⟩
  | resume hx _ h => exact h.answers hwf (hin _ hx)
  | exec | wake => exact answers_same rfl

end Cluster

namespace Ledger

variable {C : Type} {n : ℕ} {x : Ledger C}

def Truthful (x : Ledger C) : Prop :=
  ∀ k e r, x.cluster.casts k = some e → e.replies r ≠ none →
    ∃ ins, x.stored k r = some ins ∧ e.msg.StoredIn ins

theorem Truthful.note {s' : Cluster C} (h : x.Truthful) (hs : x.cluster.Answers s') :
    (x.note s').Truthful := by
  intro k e' r he' hr
  have he : s'.casts k = some e' := he'
  simp only [Ledger.note,he]
  rcases hs k e' r he' hr with ⟨e,hk,hold,hmsg⟩ | ⟨hnew,hin⟩
  · rw [if_neg (fun hno => hold (by simpa [Cluster.reply,hk] using hno.2)),hmsg]
    exact h k e r hk hold
  · rw [if_pos ⟨hr,hnew⟩]
    exact ⟨_,rfl,hin⟩

theorem truthful_of_reachable
    (h : ReachableBy (recorded C n) (fun x => x.cluster.Unsurpassed n) x) :
    x.cluster.Regular n ∧ x.Truthful := by
  obtain ⟨_,rfl,hrun⟩ := h
  refine hrun.invariant (P:=fun x => x.cluster.Regular n ∧ x.Truthful) (fun x a y hok hx hst => ?_)
    ⟨Cluster.regular_start n,nofun⟩
  obtain ⟨s',hs',rfl⟩ := map_eq_some_iff.mp hst
  have hstep := Cluster.step_spec hs'
  exact ⟨hx.1.step hstep,hx.2.note (hstep.answers hx.1 hok)⟩

def Backed (n : ℕ) (x : Ledger C) (k : ℕ) (m : Message C) : Prop :=
  ∃ Q : Finset ℕ, n < 2*Q.card ∧
    ∀ r ∈ Q, r < n ∧ ∃ ins, x.stored k r = some ins ∧ m.StoredIn ins

theorem Truthful.backed (h : x.Truthful) {k : ℕ} {e : Cast C} (hk : x.cluster.casts k = some e)
    (hfed : e.Fed n) (hyes : quorumSize n ≤ e.answers.length) : x.Backed n k e.msg := by
  obtain ⟨Q,hcard,hQ⟩ := hfed.answerers
  refine ⟨Q,?_,fun r hr => ?_⟩
  · unfold quorumSize maxFailure at hyes
    omega
  · obtain ⟨hr,ρ,hρ⟩ := hQ r hr
    exact ⟨hr,h k e r hk (by simp [hρ])⟩

/-- Where no replica handles a FastAccept or an Accept after promising a higher ballot, every
counted answer comes from a replica that had stored what was asked, and enough answers are a
majority. -/
theorem accept_votes_truthful
    (h : ReachableBy (recorded C n) (fun x => x.cluster.Unsurpassed n) x) :
    (∀ k e b d cmd, x.cluster.casts k = some e →
      e.msg = .fastAccept b d cmd ∨ e.msg = .accept b d cmd → ∀ r ∈ e.answers,
        ∃ ins, x.stored k r = some ins ∧ ins.ballot = b ∧ ins.cmd = cmd ∧ ins.depId = d) ∧
    ∀ c y k p i d cmd, x.cluster.coords c = some y → y.accepting = some (k,p,i,d,cmd) →
      ∃ e b, x.cluster.casts k = some e ∧ e.For p i y.site (.accept b d cmd) ∧
        (quorumSize n ≤ e.answers.length → x.Backed n k (.accept b d cmd)) := by
  obtain ⟨⟨hwf,-⟩,htrue⟩ := truthful_of_reachable h
  refine ⟨fun k e b d cmd hk hmsg r hr => ?_,fun c y k p i d cmd hc hacc => ?_⟩
  · obtain ⟨ins,hins,hm⟩ := htrue k e r hk ((hwf.fed k e hk).sent r hr)
    refine ⟨ins,hins,?_⟩
    rcases hmsg with hmsg | hmsg
    all_goals
      rw [hmsg] at hm
      exact hm
  · have hplaced := hwf.placed c y hc
    have hfor : ∃ e b, x.cluster.casts k = some e ∧ e.For p i y.site (.accept b d cmd) := by
      unfold Cluster.Placed at hplaced
      unfold Coord.accepting at hacc
      split at hacc
      next k' hph =>
        cases hacc
        rw [hph] at hplaced
        obtain ⟨e,hk,hfor⟩ := hplaced
        exact ⟨e,_,hk,hfor⟩
      next hph =>
        cases hacc
        rw [hph] at hplaced
        exact hplaced
      next => cases hacc
    obtain ⟨e,b,hk,hfor⟩ := hfor
    exact ⟨e,b,hk,hfor,fun hyes => hfor.msg ▸ htrue.backed hk (hwf.fed k e hk) hyes⟩

instance (m : Message C) (ins : CopilotData C) : Decidable (m.Unsurpassed ins) := by
  induction m using Message.casesOn <;> dsimp only [Message.Unsurpassed] <;> infer_instance

instance (n : ℕ) (s : Cluster C) (x : Coord C) : Decidable (s.AsksInTime n x) := by
  unfold Cluster.AsksInTime
  induction x.phase using Phase.casesOn <;> infer_instance

instance (n : ℕ) (s : Cluster C) (a : Action C) : Decidable (s.Unsurpassed n a) := by
  induction a using Action.casesOn <;> dsimp only [Cluster.Unsurpassed] <;> infer_instance

def missedRun : Ledger ℕ := after (recorded ℕ 3) (fun x => x.cluster.Unsurpassed 3) .start
  [.submit 0 7,.receive 0 1,.submit 1 8,.receive 1 0,.submit 1 9,.submit 0 5,.receive 2 2,
    .receive 3 2,.arrive 3 2]

def acceptedRun : Ledger ℕ :=
  (((missedRun.cluster.broadcastAccept 0 true 2 0 2 (some (.op 5))).map fun s => s.setCoord 3
    ⟨0,2,2,0,some (.op 5),.accept 4⟩).map missedRun.note).getD .start

def regularRun : Ledger ℕ := after (recorded ℕ 3) (fun x => x.cluster.Unsurpassed 3) acceptedRun
  [.receive 4 2,.arrive 4 2]

theorem regularRun_reachable :
    ReachableBy (recorded ℕ 3) (fun x => x.cluster.Unsurpassed 3) regularRun := by
  have hdep : getFinalDep 3 [1,2] = 2 := by
    simp [getFinalDep,List.mergeSort]
  have hstep : (recorded ℕ 3).step missedRun (.resume 3 fun _ => false) = some acceptedRun := by
    have heq : (recorded ℕ 3).step missedRun (.resume 3 fun _ => false) =
        ((missedRun.cluster.broadcastAccept 0 true 2 0 (getFinalDep 3 [1,2]) (some (.op 5))).map
          fun s => s.setCoord 3 ⟨0,2,getFinalDep 3 [1,2],0,some (.op 5),.accept 4⟩).map
            missedRun.note := rfl
    rw [heq,hdep]
    rfl
  have hin : missedRun.cluster.Unsurpassed 3 (.resume 3 fun _ => false) := by decide +kernel
  exact ⟨_,rfl,((run_after _ _).tail hin hstep).trans (run_after _ _)⟩

theorem accept_votes_truthful_regular :
    ReachableBy (recorded ℕ 3) (fun x => x.cluster.Unsurpassed 3) regularRun ∧
    regularRun.cluster.coords 3 = some ⟨0,2,2,0,some (.op 5),.accept 4⟩ ∧
    regularRun.Backed 3 4 (.accept 0 2 (some (.op 5))) := by
  have hy : regularRun.cluster.coords 3 = some ⟨0,2,2,0,some (.op 5),.accept 4⟩ := rfl
  have hmsg : (regularRun.cluster.casts 4).map Cast.msg = some (.accept 0 2 (some (.op 5))) := rfl
  have hlen : (regularRun.cluster.casts 4).map (fun e => e.answers.length) = some 2 := rfl
  obtain ⟨e,b,hk,hfor,hyes⟩ :=
    (accept_votes_truthful regularRun_reachable).2 3 _ 4 true 2 2 _ hy rfl
  rw [hk,map_some,some_inj] at hmsg hlen
  cases hfor.msg.symm.trans hmsg
  exact ⟨regularRun_reachable,hy,hyes hlen.ge⟩

/-- The copilot takes over the pilot's first slot: after the Prepare its Accept goes out with
the old ballot. -/
def surpassedRun : Ledger ℕ := after (recorded ℕ 3) (fun _ _ => True) .start
  [.submit 0 7,.receive 0 1,.submit 1 8,.receive 1 2,.arrive 1 2,.resume 1 fun _ => false,
    .resume 1 fun _ => false,.resume 1 fun _ => false,.receive 3 1,.receive 3 2,.arrive 3 1,
    .arrive 3 2,.resume 1 fun _ => false,.receive 4 2,.arrive 4 2]

/-- The Accept of the takeover has its majority, and no replica has stored it. -/
theorem accept_votes_empty : Reachable (recorded ℕ 3) surpassedRun ∧
    (surpassedRun.cluster.coords 1).bind Coord.accepting = some (4,true,1,0,some (.op 7)) ∧
    (surpassedRun.cluster.casts 4).map Cast.msg = some (.accept 0 0 (some (.op 7))) ∧
    (surpassedRun.cluster.casts 4).map Cast.answers = some [1,2] ∧
    surpassedRun.stored 4 0 = none ∧
    (surpassedRun.stored 4 1).map CopilotData.ballot = some 257 ∧
    (surpassedRun.stored 4 2).map (fun ins => (ins.ballot,ins.cmd)) = some (257,none) :=
  ⟨⟨_,rfl,run_after _ _⟩,rfl,rfl,rfl,rfl,rfl,rfl⟩

end Ledger
end Janus.Copilot
