import Janus.CopilotCoordinator

/-! Recovery of a slot by the other pilot, after the pilot of the slot proposed one client command
with one dependency at one ballot and committed it on the fast path. The events are what can then
happen to the slot's instance on a replica, in any order. -/

namespace Janus.Copilot

open List CopilotData Status

/-- What can happen to an instance of a slot proposed once: the FastAccept (with the dependency of
the replica's check), the Commit, Prepare messages, and the steps of the replica on its own. -/
inductive Event
  | fastAccept (suggest : ℕ)
  | commit
  | prepare (ballot : ℕ)
  | takeover
  | execute
  | eliminate
  | free
  deriving DecidableEq

section Recovery

variable {C : Type} (b : ℕ) (c : C) (dep : ℕ)

def handle : Option (CopilotData C) → Event → Option (CopilotData C)
  | none, _ => none
  | some ins, .fastAccept suggest => some (ins.fastAccept b dep (some (.op c)) suggest)
  | some ins, .commit =>
    if .committed ≤ ins.status then some ins else some (ins.commit (some (.op c)))
  | some ins, .prepare ballot => some (ins.prepare ballot)
  | some ins, .takeover => some {ins with takeover := true}
  | some ins, .execute => some (if ins.cmitEvt then ins.execute else ins)
  | some ins, .eliminate => some (if .fastAccepted ≤ ins.status then ins.eliminate else ins)
  | some ins, .free => if ins.status = .executed then none else some ins

def stores : Option (CopilotData C) → Event → Bool
  | some ins, .fastAccept _ => ins.ballot ≤ b
  | _, _ => false

def history (es : List Event) : Option (CopilotData C) × Bool :=
  es.foldl (fun s e => (handle b c dep s.1 e,s.2 || stores b s.1 e)) (some {},false)

def answer (nb : ℕ) : Option (CopilotData C) → PrepareReply C
  | none => {maxBallot := nb, cmd := .noop, dep := 0, status := .executed}
  | some ins => (ins.prepare nb).prepareReply

theorem onPrepare_reply (s : CopilotServer C) (p : Bool) (slot nb : ℕ) :
    (s.onPrepare p slot nb).2 = answer nb
      (if (s.logInfos p).Freed slot then none else some ((s.logInfos p).ins slot)) := by
  unfold CopilotServer.onPrepare CopilotLogInfo.getInstance
  by_cases h : (s.logInfos p).Freed slot
  · rw [if_pos h,if_pos h,answer]
  · rw [if_neg h,if_neg h,answer]

/-- An instance that stored the FastAccept holds its pair; any other is untouched, or holds the
command of the Commit with no dependency. -/
inductive Traced : Bool → CopilotData C → Prop
  | stored {ins} (hcmd : ins.cmd = some (.op c)) (hdep : ins.depId = dep)
      (hst : .fastAccepted ≤ ins.status) (hne : ins.status ≠ .accepted) : Traced true ins
  | untouched {ins} (hcmd : ins.cmd = none) (hdep : ins.depId = 0)
      (hst : ins.status = .notAccepted) (hevt : ins.cmitEvt = false) : Traced false ins
  | missed {ins} (hcmd : ins.cmd = some (.op c)) (hdep : ins.depId = 0)
      (hst : .committed ≤ ins.status) : Traced false ins

variable {b c dep}
variable {t : Bool} {ins' : CopilotData C}

theorem Traced.congr {ins : CopilotData C} (h : Traced c dep t ins) (hcmd : ins'.cmd = ins.cmd)
    (hdep : ins'.depId = ins.depId) (hst : ins'.status = ins.status)
    (hevt : ins'.cmitEvt = ins.cmitEvt) : Traced c dep t ins' := by
  cases h with
  | stored h₁ h₂ h₃ h₄ => exact .stored (hcmd ▸ h₁) (hdep ▸ h₂) (hst ▸ h₃) (hst ▸ h₄)
  | untouched h₁ h₂ h₃ h₄ => exact .untouched (hcmd ▸ h₁) (hdep ▸ h₂) (hst ▸ h₃) (hevt ▸ h₄)
  | missed h₁ h₂ h₃ => exact .missed (hcmd ▸ h₁) (hdep ▸ h₂) (hst ▸ h₃)

theorem Traced.executed {ins : CopilotData C} (h : Traced c dep t ins) (hcmd : ins'.cmd = ins.cmd)
    (hdep : ins'.depId = ins.depId) (hst : ins'.status = .executed)
    (hsome : .fastAccepted ≤ ins.status ∨ ins.cmitEvt = true) : Traced c dep t ins' := by
  cases h with
  | stored h₁ h₂ => exact .stored (hcmd ▸ h₁) (hdep ▸ h₂) (hst ▸ by decide) (hst ▸ by decide)
  | untouched _ _ h₃ h₄ =>
    rw [h₃,h₄] at hsome
    exact absurd hsome (by decide)
  | missed h₁ h₂ => exact .missed (hcmd ▸ h₁) (hdep ▸ h₂) (hst ▸ by decide)

theorem Traced.prepare {ins : CopilotData C} (h : Traced c dep t ins) (nb : ℕ) :
    Traced c dep t (ins.prepare nb) := by
  unfold CopilotData.prepare
  split_ifs
  · exact h.congr rfl rfl rfl rfl
  · exact h

theorem Traced.fastAccept {ins : CopilotData C} (h : Traced c dep t ins) (suggest : ℕ) :
    Traced c dep (t || decide (ins.ballot ≤ b)) (ins.fastAccept b dep (some (.op c)) suggest) := by
  unfold CopilotData.fastAccept
  by_cases hb : ins.ballot ≤ b
  · rw [if_pos hb,decide_eq_true hb,Bool.or_true]
    refine .stored rfl rfl ?_ ?_ <;> dsimp only <;> split_ifs <;> decide
  · rwa [if_neg hb,decide_eq_false hb,Bool.or_false]

theorem Traced.commit {ins : CopilotData C} (h : Traced c dep t ins) :
    Traced c dep t (ins.commit (some (.op c))) := by
  cases h with
  | stored _ h₂ =>
    have hlt : fastAccepted ≤ .committed := by decide
    have hne : committed ≠ .accepted := by decide
    exact .stored rfl h₂ hlt hne
  | untouched _ h₂ | missed _ h₂ => exact .missed rfl h₂ le_rfl

theorem Traced.step {ins : CopilotData C} (h : Traced c dep t ins) (e : Event)
    (he : handle b c dep (some ins) e = some ins') :
    Traced c dep (t || stores b (some ins) e) ins' := by
  cases e with
  | fastAccept suggest =>
    cases he
    exact h.fastAccept suggest
  | commit =>
    simp only [handle,stores,Bool.or_false] at he ⊢
    split_ifs at he
    · cases he
      exact h
    · cases he
      exact h.commit
  | prepare ballot =>
    cases he
    simpa only [stores,Bool.or_false] using h.prepare ballot
  | takeover =>
    cases he
    simp only [stores,Bool.or_false]
    exact h.congr rfl rfl rfl rfl
  | execute =>
    cases he
    simp only [stores,Bool.or_false]
    split_ifs with hevt
    · exact h.executed rfl rfl rfl (.inr hevt)
    · exact h
  | eliminate =>
    cases he
    simp only [stores,Bool.or_false]
    split_ifs with hst
    · exact h.executed rfl rfl rfl (.inl hst)
    · exact h
  | free =>
    simp only [handle,stores,Bool.or_false] at he ⊢
    split_ifs at he
    cases he
    exact h

theorem history_concat (es : List Event) (e : Event) :
    history b c dep (es++[e]) = (handle b c dep (history b c dep es).1 e,
      (history b c dep es).2 || stores b (history b c dep es).1 e) := by
  unfold history
  rw [foldl_append]
  rfl

theorem traced_history (es : List Event) :
    ∀ ins, (history b c dep es).1 = some ins → Traced c dep (history b c dep es).2 ins := by
  induction es using reverseRecOn with
  | nil =>
    rintro _ ⟨⟩
    exact .untouched rfl rfl rfl rfl
  | append_singleton es e ih =>
    intro ins' h
    rw [history_concat] at h ⊢
    cases hins : (history b c dep es).1 with
    | none =>
      rw [hins] at h
      cases h
    | some ins =>
      rw [hins] at h
      exact (ih ins hins).step e h

section Answers

variable (b c dep)

/-- The slot counts as committed on the replica: its instance is committed, executed or
freed. -/
def Done (es : List Event) : Prop :=
  match (history b c dep es).1 with
  | none => True
  | some ins => .committed ≤ ins.status

instance (es : List Event) : Decidable (Done b c dep es) := by
  unfold Done
  split <;> infer_instance

def Stored (es : List Event) : Prop := (history b c dep es).2 = true

instance (es : List Event) : Decidable (Stored b c dep es) :=
  inferInstanceAs (Decidable (_ = true))

variable {b c dep}
variable {es : List Event}

@[simp] theorem prepare_status (ins : CopilotData C) (nb : ℕ) :
    (ins.prepare nb).status = ins.status := by
  unfold prepare
  split_ifs <;> rfl

theorem answer_done (nb : ℕ) (h : Done b c dep es) :
    (answer nb (history b c dep es).1).status.reduce = .committed := by
  unfold Done at h
  split at h
  next hnone => rw [hnone]; rfl
  next ins hsome =>
    rw [hsome]
    simp only [answer,prepareReply,prepare_status,reduce]
    rw [if_pos h]

/-- A committed answer holds the proposed pair if the instance is there and stored the FastAccept
or the dependency is the default. -/
theorem answer_done_iff (nb : ℕ) (h : Done b c dep es) :
    ((answer nb (history b c dep es).1).cmd = .op c ∧
      (answer nb (history b c dep es).1).dep = dep) ↔
    (history b c dep es).1.isSome ∧ (Stored b c dep es ∨ dep = 0) := by
  unfold Done at h
  split at h
  next hnone => simp [hnone,answer]
  next ins hsome =>
    have htr := (traced_history es ins hsome).prepare nb
    rw [hsome]
    simp only [answer,prepareReply,Option.isSome_some,true_and,Stored]
    generalize (history b c dep es).2 = t at htr
    cases htr with
    | stored hcmd hdep => simp [hcmd,hdep]
    | untouched _ _ hst =>
      rw [prepare_status] at hst
      exact absurd (hst ▸ h) (by decide)
    | missed hcmd hdep =>
      simp only [hcmd,hdep,Option.getD_some,true_and,Bool.false_eq_true,false_or]
      exact eq_comm

theorem answer_stored (nb : ℕ) (h : ¬Done b c dep es) (hst : Stored b c dep es) :
    (answer nb (history b c dep es).1).status.reduce = .fastAcceptedEq ∧
    (answer nb (history b c dep es).1).cmd = .op c ∧
    (answer nb (history b c dep es).1).dep = dep := by
  unfold Done at h
  split at h
  next => exact absurd trivial h
  next ins hsome =>
    have htr := (traced_history es ins hsome).prepare nb
    rw [hst] at htr
    rw [hsome]
    cases htr with
    | stored hcmd hdep hfast hne =>
      rw [prepare_status] at hfast hne
      simp only [answer,prepareReply,hcmd,hdep,prepare_status,Option.getD_some,and_true]
      revert h hfast hne
      generalize ins.status = st
      cases st <;> decide

theorem answer_missed (nb : ℕ) (h : ¬Done b c dep es) (hst : ¬Stored b c dep es) :
    (answer nb (history b c dep es).1).status.reduce = .notAccepted := by
  unfold Done at h
  split at h
  next => exact absurd trivial h
  next ins hsome =>
    have htr := (traced_history es ins hsome).prepare nb
    unfold Stored at hst
    rw [Bool.not_eq_true] at hst
    rw [hst] at htr
    rw [hsome]
    simp only [answer,prepareReply]
    cases htr with
    | untouched _ _ hst' => rw [hst']; rfl
    | missed _ _ hst' =>
      rw [prepare_status] at hst'
      exact absurd hst' h

theorem reduce_committed_iff (es : List Event) (nb : ℕ) :
    (answer nb (history b c dep es).1).status.reduce = .committed ↔ Done b c dep es := by
  refine ⟨fun h => ?_,answer_done nb⟩
  by_contra hd
  by_cases hs : Stored b c dep es
  · rw [(answer_stored nb hd hs).1] at h
    exact absurd h (by decide)
  · rw [answer_missed nb hd hs] at h
    exact absurd h (by decide)

theorem reduce_ne_accepted (es : List Event) (nb : ℕ) :
    (answer nb (history b c dep es).1).status.reduce ≠ .accepted := by
  by_cases hd : Done b c dep es
  · rw [answer_done nb hd]
    decide
  by_cases hs : Stored b c dep es
  · rw [(answer_stored nb hd hs).1]
    decide
  · rw [answer_missed nb hd hs]
    decide

end Answers

section Takeover

variable (b c dep) {n : ℕ}

def oks (nb : ℕ) (answers : List (Fin n × List Event)) : List (PrepareReply C) :=
  answers.map fun a => answer nb (history b c dep a.2).1

def nStored (answers : List (Fin n × List Event)) : ℕ :=
  answers.countP fun a => Stored b c dep a.2

/-- `Prepare` can find the proposed pair in these histories: the slot is done on its own replica;
or the first answer in which it is done comes from an instance that was not freed and had stored
the FastAccept (or the dependency is the default); or no answer is done, at least half of `f+1` had
stored the FastAccept, and either `f` of them or its own replica had. -/
def Recoverable (answers : List (Fin n × List Event)) (own : List Event) : Prop :=
  Done b c dep own ∨
    match answers.find? fun a => Done b c dep a.2 with
    | some a => (history b c dep a.2).1.isSome ∧ (Stored b c dep a.2 ∨ dep = 0)
    | none => 0 < nStored b c dep answers ∧ (maxFail n+1)/2 ≤ nStored b c dep answers ∧
        (maxFail n ≤ nStored b c dep answers ∨ Stored b c dep own)

instance (answers : List (Fin n × List Event)) (own : List Event) :
    Decidable (Recoverable b c dep answers own) := by
  unfold Recoverable
  exact @instDecidableOr _ _ _ (by split <;> infer_instance)

def Choice.Keeps : Choice C → Prop
  | .ended | .retry => True
  | .accept cmd d | .commit cmd d => cmd = some (.op c) ∧ d = dep

variable {b c dep} {nb : ℕ} {answers : List (Fin n × List Event)}
variable {own : List Event} {ins : CopilotData C}

theorem getCmds_oks (st : Status) : getCmds (oks b c dep nb answers) st =
    (answers.filter fun a => (answer nb (history b c dep a.2).1).status.reduce = st).map
      fun a => answer nb (history b c dep a.2).1 := by
  unfold getCmds oks
  rw [filter_map]
  rfl

theorem getCmds_committed : getCmds (oks b c dep nb answers) .committed =
    (answers.filter fun a => Done b c dep a.2).map fun a => answer nb (history b c dep a.2).1 := by
  rw [getCmds_oks]
  congr 2
  funext a
  exact decide_eq_decide.mpr (reduce_committed_iff a.2 nb)

theorem getCmds_accepted : getCmds (oks b c dep nb answers) .accepted = [] := by
  rw [getCmds_oks,map_eq_nil_iff,filter_eq_nil_iff]
  intro a _
  simpa using reduce_ne_accepted a.2 nb

/-- Without a committed answer, the fast-accepted bucket holds the answers that stored the
FastAccept and the last bucket the others. -/
theorem getCmds_fastAccepted (h : ∀ a ∈ answers, ¬Done b c dep a.2) :
    getCmds (oks b c dep nb answers) .fastAcceptedEq =
      (answers.filter fun a => Stored b c dep a.2).map
        fun a => answer nb (history b c dep a.2).1 := by
  rw [getCmds_oks]
  congr 1
  refine filter_congr fun a ha => decide_eq_decide.mpr ⟨fun hr => ?_,fun hs => ?_⟩
  · by_contra hs
    rw [answer_missed nb (h a ha) hs] at hr
    exact absurd hr (by decide)
  · exact (answer_stored nb (h a ha) hs).1

theorem getCmds_notAccepted (h : ∀ a ∈ answers, ¬Done b c dep a.2)
    (hs : ∀ a ∈ answers, ¬Stored b c dep a.2) :
    (getCmds (oks b c dep nb answers) .notAccepted).length = answers.length := by
  rw [getCmds_oks,length_map,filter_eq_self.mpr]
  intro a ha
  exact decide_eq_true (answer_missed nb (h a ha) (hs a ha))

theorem select_done {a : Fin n × List Event} (curr : CopilotData C)
    (ha : answers.find? (fun a => Done b c dep a.2) = some a) :
    select n (oks b c dep nb answers) curr = .commit (some (answer nb (history b c dep a.2).1).cmd)
        (answer nb (history b c dep a.2).1).dep := by
  rw [← head?_filter] at ha
  obtain ⟨l,hl⟩ := head?_eq_some_iff.mp ha
  unfold select
  rw [getCmds_committed,hl]
  rfl

theorem select_stored (curr : CopilotData C) (h : ∀ a ∈ answers, ¬Done b c dep a.2)
    (hpos : 0 < nStored b c dep answers) :
    select n (oks b c dep nb answers) curr =
      if nStored b c dep answers < (maxFail n+1)/2 then .accept (some .noop) 0
      else if maxFail n ≤ nStored b c dep answers then .accept (some (.op c)) dep
      else .accept curr.cmd curr.depId := by
  have hnone : answers.filter (fun a => Done b c dep a.2) = [] := by
    simpa [filter_eq_nil_iff] using h
  unfold nStored at hpos ⊢
  rw [countP_eq_length_filter] at hpos ⊢
  unfold select
  rw [getCmds_committed,hnone,getCmds_accepted,getCmds_fastAccepted h]
  cases hl : answers.filter fun a => Stored b c dep a.2 with
  | nil =>
    rw [hl] at hpos
    exact absurd hpos (Nat.lt_irrefl 0)
  | cons a l =>
    have hmem : a ∈ answers.filter fun a => Stored b c dep a.2 := hl ▸ mem_cons_self
    rw [mem_filter,decide_eq_true_iff] at hmem
    obtain ⟨-,hcmd,hdep⟩ := answer_stored nb (h a hmem.1) hmem.2
    simp only [map_nil,map_cons,length_map,length_cons,hcmd,hdep]

theorem select_missed (curr : CopilotData C) (h : ∀ a ∈ answers, ¬Done b c dep a.2)
    (hzero : nStored b c dep answers = 0) (hmaj : maxFail n+1 ≤ answers.length) :
    select n (oks b c dep nb answers) curr = .accept (some .noop) 0 := by
  have hnone : answers.filter (fun a => Done b c dep a.2) = [] := by
    simpa [filter_eq_nil_iff] using h
  have hs : ∀ a ∈ answers, ¬Stored b c dep a.2 := by
    simpa [nStored,countP_eq_zero] using hzero
  have hs' : answers.filter (fun a => Stored b c dep a.2) = [] := by
    simpa [filter_eq_nil_iff] using hs
  unfold select
  rw [getCmds_committed,hnone,getCmds_accepted,getCmds_fastAccepted h,hs']
  simp only [map_nil]
  rw [getCmds_notAccepted h hs,if_pos hmaj]

theorem own_pair_iff (hown : (history b c dep own).1 = some ins)
    (hst : ¬Status.committed ≤ ins.status) :
    (ins.cmd = some (.op c) ∧ ins.depId = dep) ↔ Stored b c dep own := by
  have htr := traced_history own ins hown
  unfold Stored
  generalize (history b c dep own).2 = t at htr ⊢
  cases htr with
  | stored hcmd hdep => simp [hcmd,hdep]
  | untouched hcmd => simp [hcmd]
  | missed _ _ hst' => exact absurd hst' hst

theorem select_keeps_iff (hown : (history b c dep own).1 = some ins)
    (hst : ¬Status.committed ≤ ins.status)
    (hready : (∃ a ∈ answers, Done b c dep a.2) ∨ maxFail n+1 ≤ answers.length) :
    (select n (oks b c dep nb answers) ins).Keeps c dep ↔
      match answers.find? fun a => Done b c dep a.2 with
      | some a => (history b c dep a.2).1.isSome ∧ (Stored b c dep a.2 ∨ dep = 0)
      | none => 0 < nStored b c dep answers ∧ (maxFail n+1)/2 ≤ nStored b c dep answers ∧
          (maxFail n ≤ nStored b c dep answers ∨ Stored b c dep own) := by
  cases hfind : answers.find? fun a => Done b c dep a.2 with
  | some a =>
    have hdone : Done b c dep a.2 := by simpa using find?_some hfind
    rw [select_done ins hfind]
    simp only [Choice.Keeps,Option.some.injEq]
    exact answer_done_iff nb hdone
  | none =>
    have hnone : ∀ a ∈ answers, ¬Done b c dep a.2 := by
      simpa [find?_eq_none] using hfind
    have hmaj : maxFail n+1 ≤ answers.length := by
      rcases hready with ⟨a,ha,hd⟩ | h
      · exact absurd hd (hnone a ha)
      · exact h
    rcases Nat.eq_zero_or_pos (nStored b c dep answers) with hzero | hpos
    · rw [select_missed ins hnone hzero hmaj]
      simp [Choice.Keeps,hzero]
    · rw [select_stored ins hnone hpos]
      split_ifs with hlt hge
      · simp only [Choice.Keeps,Option.some.injEq,reduceCtorEq,false_and,false_iff]
        omega
      · simp only [Choice.Keeps,true_and,true_iff]
        exact ⟨hpos,by omega,.inl hge⟩
      · simp only [Choice.Keeps]
        rw [own_pair_iff hown hst]
        simp only [hpos,hge,true_and,false_or]
        exact ⟨fun h => ⟨by omega,h⟩,fun h => h.2⟩

/-- A fast quorum and a majority of answers have at least half of `f+1` replicas in common. -/
theorem quorum_overlap {Q : Finset (Fin n)} (hne : Q.Nonempty)
    (hQ : fastQuorumSize n ≤ Q.card) (hnodup : (answers.map Prod.fst).Nodup)
    (hmaj : quorumSize n ≤ answers.length) (hs : ∀ a ∈ answers, a.1 ∈ Q → Stored b c dep a.2) :
    0 < nStored b c dep answers ∧ (maxFail n+1)/2 ≤ nStored b c dep answers := by
  have hcard : (answers.map Prod.fst).toFinset.card = answers.length := by
    rw [toFinset_card_of_nodup hnodup,length_map]
  have hinter : (Q ∩ (answers.map Prod.fst).toFinset).card ≤ nStored b c dep answers := by
    have hsub : Q ∩ (answers.map Prod.fst).toFinset ⊆
        ((answers.filter fun a => Stored b c dep a.2).map Prod.fst).toFinset := by
      intro r hr
      rw [Finset.mem_inter,mem_toFinset,mem_map] at hr
      obtain ⟨hrQ,a,ha,rfl⟩ := hr
      rw [mem_toFinset,mem_map]
      exact ⟨a,mem_filter.mpr ⟨ha,decide_eq_true (hs a ha hrQ)⟩,rfl⟩
    refine (Finset.card_le_card hsub).trans ((toFinset_card_le _).trans ?_)
    rw [length_map,nStored,countP_eq_length_filter]
  have hunion := Finset.card_union_add_card_inter Q (answers.map Prod.fst).toFinset
  have hle : (Q ∪ (answers.map Prod.fst).toFinset).card ≤ n := by
    simpa using Finset.card_le_univ (Q ∪ (answers.map Prod.fst).toFinset)
  have hpos := hne.card_pos
  unfold fastQuorumSize quorumSize maxFailure at *
  unfold maxFail
  omega

/-- A takeover of a fast-committed slot, the first after its Commit, goes on with the proposed pair
exactly in these cases, whenever it goes on. A fast quorum that stored the FastAccept leaves half
of `f+1` in every majority. -/
theorem takeover_keeps_iff (hn : Odd n) (hnodup : (answers.map Prod.fst).Nodup)
    (hok : ∀ a ∈ answers, (answer nb (history b c dep a.2).1).maxBallot = nb)
    (hready : (∃ a ∈ answers, Done b c dep a.2) ∨ quorumSize n ≤ answers.length)
    (own : List Event) :
    ((prepareChoice n ((oks b c dep nb answers).filter (·.maxBallot = nb))
        (history b c dep own).1).Keeps c dep ↔ Recoverable b c dep answers own) ∧
    ∀ Q : Finset (Fin n), Q.Nonempty → fastQuorumSize n ≤ Q.card →
      (∀ a ∈ answers, a.1 ∈ Q → Stored b c dep a.2) → (∀ a ∈ answers, ¬Done b c dep a.2) →
      0 < nStored b c dep answers ∧ (maxFail n+1)/2 ≤ nStored b c dep answers := by
  have hsize : quorumSize n = maxFail n+1 := by
    obtain ⟨k,rfl⟩ := hn
    unfold quorumSize maxFailure maxFail
    omega
  have hall : (oks b c dep nb answers).filter (·.maxBallot = nb) = oks b c dep nb answers := by
    refine filter_eq_self.mpr fun r hr => ?_
    obtain ⟨a,ha,rfl⟩ := mem_map.mp hr
    exact decide_eq_true (hok a ha)
  constructor
  · rw [hall]
    unfold prepareChoice Recoverable
    cases hown : (history b c dep own).1 with
    | none => simp [Choice.Keeps,Done,hown]
    | some ins =>
      have hdone : Done b c dep own ↔ committed ≤ ins.status := by simp [Done,hown]
      rw [hdone]
      by_cases hst : committed ≤ ins.status
      · simp only [hst,true_or,iff_true]
        split <;> simp [Choice.Keeps]
      · simp only [hst,false_or]
        rw [← select_keeps_iff hown hst (hsize ▸ hready)]
        split
        next h => rw [h]
        next => rw [if_neg not_false]
  · intro Q hne hQ hs hnone
    have hmaj : quorumSize n ≤ answers.length := by
      rcases hready with ⟨a,ha,hd⟩ | h
      · exact absurd hd (hnone a ha)
      · exact h
    exact quorum_overlap hne hQ hnodup hmaj hs

/-- Three replicas: two answers that stored the FastAccept are enough. -/
theorem takeover_keeps_three : (prepareChoice 3 ((oks 0 "a" 1 257 [((0 : Fin 3),[.fastAccept 1]),
        (1,[.fastAccept 1,.takeover])]).filter (·.maxBallot = 257))
      (history 0 "a" 1 [.fastAccept 1,.takeover]).1).Keeps "a" 1 :=
  (takeover_keeps_iff (by decide) (by decide) (by decide) (by decide) _).1.mpr (by decide)

/-- Two takeovers that lose the fast-committed pair `("a",1)`. Of five replicas the copilot has
missed the FastAccept and sees one of the fast quorum: it falls back to its own empty instance. Of
three, one that missed the FastAccept answers with the command and no dependency. -/
theorem takeover_loses_pair :
    (∃ (Q : Finset (Fin 5)) (answers : List (Fin 5 × List Event)) (own : List Event),
      Q.Nonempty ∧ fastQuorumSize 5 ≤ Q.card ∧ (answers.map Prod.fst).Nodup ∧
      quorumSize 5 ≤ answers.length ∧ (∀ a ∈ answers, a.1 ∈ Q → Stored 0 "a" 1 a.2) ∧
      (∀ a ∈ answers, (answer 257 (history 0 "a" 1 a.2).1).maxBallot = 257) ∧
      ¬(prepareChoice 5 ((oks 0 "a" 1 257 answers).filter (·.maxBallot = 257))
        (history 0 "a" 1 own).1).Keeps "a" 1) ∧
    ∃ (Q : Finset (Fin 3)) (answers : List (Fin 3 × List Event)) (own : List Event),
      Q.Nonempty ∧ fastQuorumSize 3 ≤ Q.card ∧ (answers.map Prod.fst).Nodup ∧
      quorumSize 3 ≤ answers.length ∧ (∀ a ∈ answers, a.1 ∈ Q → Stored 0 "a" 1 a.2) ∧
      (∀ a ∈ answers, (answer 257 (history 0 "a" 1 a.2).1).maxBallot = 257) ∧
      ¬(prepareChoice 3 ((oks 0 "a" 1 257 answers).filter (·.maxBallot = 257))
        (history 0 "a" 1 own).1).Keeps "a" 1 := by
  constructor
  · refine ⟨{0,2,3},[(1,[.takeover]),(4,[]),(2,[.fastAccept 1])],[.takeover,.prepare 257],
      by decide,by decide,by decide,by decide,by decide,by decide,?_⟩
    rintro ⟨h,-⟩
    exact absurd h (by decide)
  · refine ⟨{0,1},[(1,[.fastAccept 1,.takeover]),(2,[.commit])],
      [.fastAccept 1,.takeover,.prepare 257],
      by decide,by decide,by decide,by decide,by decide,by decide,?_⟩
    rintro ⟨-,h⟩
    exact absurd h (by decide)

end Takeover
end Recovery
end Janus.Copilot
