import Janus.CopilotServer

/-! What the operations of a Copilot replica change. A handler changes the instance of one slot; an
iteration in `executeCmds` executes at most one entry and changes no command, dependency or ballot.
-/

namespace Janus.Copilot

open Function CopilotLogInfo

namespace CopilotLogInfo

variable {C : Type} (l : CopilotLogInfo C)

theorem set_ins (slot : ℕ) (d : CopilotData C) (j : ℕ) :
    (l.set slot d).ins j = if j = slot then d else l.ins j := by
  unfold ins set
  rcases eq_or_ne j slot with rfl | hne
  · simp
  · simp [hne]

@[simp] theorem see_ins (slot j : ℕ) : (l.see slot).ins j = l.ins j := rfl

@[simp] theorem touch_ins (old new j : ℕ) : (l.touch old new).ins j = l.ins j := by
  unfold ins touch
  dsimp only
  split_ifs with h
  · rw [Option.isNone_iff_eq_none.mp h.2.2]
    rfl
  · rfl

@[simp] theorem updateMaxExecSlot_ins (slot j : ℕ) : (l.updateMaxExecSlot slot).ins j = l.ins j :=
  l.touch_ins _ _ j

@[simp] theorem updateMaxAcptSlot_ins (slot j : ℕ) : (l.updateMaxAcptSlot slot).ins j = l.ins j :=
  l.touch_ins _ _ j

@[simp] theorem updateMaxCmtdSlot_ins (slot j : ℕ) : (l.updateMaxCmtdSlot slot).ins j = l.ins j :=
  l.touch_ins _ _ j

structure Same (l' : CopilotLogInfo C) : Prop where
  minActive : l'.minActiveSlot = l.minActiveSlot
  maxExecuted : l'.maxExecutedSlot = l.maxExecutedSlot
  seen : l.currentSlot ≤ l'.currentSlot

end CopilotLogInfo

namespace CopilotServer

variable {C : Type} {s s' s'' : CopilotServer C} {p : Bool} {slot : ℕ} {d : CopilotData C}
variable {q : Bool} {sug k : ℕ} {pc : Pc}
variable {ballot b : ℕ} {cmd : Option (Command C)}

def ins (s : CopilotServer C) (p : Bool) (slot : ℕ) : CopilotData C := (s.logInfos p).ins slot

def Freed (s : CopilotServer C) (p : Bool) (slot : ℕ) : Prop := (s.logInfos p).Freed slot

instance (s : CopilotServer C) (p : Bool) (slot : ℕ) : Decidable (s.Freed p slot) :=
  inferInstanceAs (Decidable ((s.logInfos p).Freed slot))

theorem setLog_ins (s : CopilotServer C) (p : Bool) (l : CopilotLogInfo C) (q : Bool) (j : ℕ) :
    (s.setLog p l).ins q j = if q = p then l.ins j else s.ins q j := by
  unfold ins setLog
  rcases eq_or_ne q p with rfl | hne
  · simp
  · simp [hne]

@[simp] theorem setLog_self (s : CopilotServer C) (p : Bool) (l : CopilotLogInfo C) :
    (s.setLog p l).logInfos p = l := update_self _ _ _

structure Updates (s s' : CopilotServer C) (p : Bool) (slot : ℕ) (d : CopilotData C) : Prop where
  ins : ∀ q j, s'.ins q j = if q = p ∧ j = slot then d else s.ins q j
  same : ∀ q, (s.logInfos q).Same (s'.logInfos q)
  applied : s'.applied = s.applied

theorem Updates.self (h : s.Updates s' p slot d) : s'.ins p slot = d := by
  rw [h.ins,if_pos ⟨rfl,rfl⟩]

theorem Updates.other (h : s.Updates s' p slot d) {j : ℕ}
    (hne : ¬(q = p ∧ j = slot)) : s'.ins q j = s.ins q j := by
  rw [h.ins,if_neg hne]

theorem Updates.freed (h : s.Updates s' p slot d) (q : Bool) (j : ℕ) :
    s'.Freed q j ↔ s.Freed q j := by
  unfold Freed CopilotLogInfo.Freed
  rw [(h.same q).minActive]

theorem updates_setLog {l : CopilotLogInfo C} (s : CopilotServer C)
    (hins : ∀ j, l.ins j = if j = slot then d else s.ins p j) (hsame : (s.logInfos p).Same l) :
    s.Updates (s.setLog p l) p slot d where
  ins q j := by
    rw [setLog_ins,hins]
    rcases eq_or_ne q p with rfl | hne
    · simp
    · simp [hne]
  same q := by
    unfold setLog
    rcases eq_or_ne q p with rfl | hne
    · simpa using hsame
    · simp only [update_of_ne hne]
      exact ⟨rfl,rfl,le_rfl⟩
  applied := rfl

theorem getInstance_freed (hf : s.Freed p slot) : (s.logInfos p).getInstance slot = none := if_pos hf

theorem getInstance_active (hf : ¬s.Freed p slot) : (s.logInfos p).getInstance slot =
    some (s.ins p slot,(s.logInfos p).set slot (s.ins p slot)) := if_neg hf

theorem updates_getInstance (s : CopilotServer C) (p : Bool) (slot : ℕ) :
    s.Updates (s.setLog p ((s.logInfos p).set slot (s.ins p slot))) p slot (s.ins p slot) :=
  updates_setLog s (fun _ => set_ins _ _ _ _) ⟨rfl,rfl,le_rfl⟩

theorem updates_store (s : CopilotServer C) (p : Bool) (slot : ℕ) (d : CopilotData C)
    {l : CopilotLogInfo C} (hins : ∀ j, l.ins j =
      (((((s.logInfos p).set slot (s.ins p slot)).see slot).set slot d).ins j))
    (hmin : l.minActiveSlot = (s.logInfos p).minActiveSlot)
    (hmax : l.maxExecutedSlot = (s.logInfos p).maxExecutedSlot)
    (hseen : l.currentSlot = max slot (s.logInfos p).currentSlot) :
    s.Updates (s.setLog p l) p slot d ∧ slot ≤ ((s.setLog p l).logInfos p).currentSlot := by
  refine ⟨updates_setLog s (fun j => ?_) ⟨hmin,hmax,hseen ▸ le_max_right _ _⟩,?_⟩
  · rw [hins,set_ins,see_ins,set_ins]
    split_ifs <;> rfl
  · rw [setLog_self,hseen]
    exact le_max_left _ _

theorem updates_see (s : CopilotServer C) (p : Bool) (slot : ℕ) :
    s.Updates (s.setLog p ((s.logInfos p).see slot)) p slot (s.ins p slot) ∧
      slot ≤ ((s.setLog p ((s.logInfos p).see slot)).logInfos p).currentSlot := by
  refine ⟨updates_setLog s (fun j => ?_) ⟨rfl,rfl,le_max_right _ _⟩,?_⟩
  · split_ifs with hj
    · rw [hj]
      rfl
    · rfl
  · rw [setLog_self]
    exact le_max_left _ _

theorem onPrepare_spec (s : CopilotServer C) (ballot : ℕ) (hf : ¬s.Freed p slot) :
    (s.onPrepare p slot ballot).2 = ((s.ins p slot).prepare ballot).prepareReply ∧
      s.Updates (s.onPrepare p slot ballot).1 p slot ((s.ins p slot).prepare ballot) ∧
      slot ≤ ((s.onPrepare p slot ballot).1.logInfos p).currentSlot := by
  unfold onPrepare
  rw [getInstance_active hf]
  exact ⟨rfl,updates_store s p slot _ (fun _ => rfl) rfl rfl rfl⟩

theorem onPrepare_freed (s : CopilotServer C) (ballot : ℕ) (hf : s.Freed p slot) :
    s.Updates (s.onPrepare p slot ballot).1 p slot (s.ins p slot) ∧
      slot ≤ ((s.onPrepare p slot ballot).1.logInfos p).currentSlot := by
  unfold onPrepare
  rw [getInstance_freed hf]
  exact updates_see s p slot

theorem onFastAccept_spec {dep : ℕ} (h : s.onFastAccept p slot ballot dep cmd = some (s',b,sug)) :
    ¬s.Freed p slot ∧ (s.logInfos !p).suggestDep slot dep = some sug ∧
      s.Updates s' p slot ((s.ins p slot).fastAccept ballot dep cmd sug) ∧
      slot ≤ (s'.logInfos p).currentSlot := by
  unfold onFastAccept at h
  by_cases hf : s.Freed p slot
  · rw [getInstance_freed hf] at h
    cases h
  rw [getInstance_active hf] at h
  dsimp only at h
  split at h
  · cases h
  next sug' hsug =>
    cases h
    refine ⟨hf,hsug,updates_store s p slot _ (fun j => ?_) ?_ ?_ ?_⟩
    · split_ifs <;> simp
    all_goals split_ifs <;> rfl

theorem onAccept_spec {dep : ℕ} (h : s.onAccept p slot ballot dep cmd = some (s',b)) :
    ¬s.Freed p slot ∧ s.Updates s' p slot ((s.ins p slot).accept ballot dep cmd) ∧
      slot ≤ (s'.logInfos p).currentSlot := by
  unfold onAccept at h
  by_cases hf : s.Freed p slot
  · rw [getInstance_freed hf] at h
    cases h
  rw [getInstance_active hf] at h
  cases h
  refine ⟨hf,updates_store s p slot _ (fun j => ?_) ?_ ?_ ?_⟩
  · split_ifs <;> simp
  all_goals split_ifs <;> rfl

theorem onCommit_spec {dep : ℕ} {go : Bool} (h : s.onCommit p slot dep cmd = (s',go)) :
    (go = true ∧ ¬s.Freed p slot ∧ (s.ins p slot).status < .committed ∧
        s.Updates s' p slot ((s.ins p slot).commit cmd) ∨
      go = false ∧ (s.Freed p slot ∨ .committed ≤ (s.ins p slot).status) ∧
        s.Updates s' p slot (s.ins p slot)) ∧
    slot ≤ (s'.logInfos p).currentSlot := by
  unfold onCommit at h
  by_cases hf : s.Freed p slot
  · rw [getInstance_freed hf] at h
    cases h
    exact ⟨.inr ⟨rfl,.inl hf,(updates_see s p slot).1⟩,(updates_see s p slot).2⟩
  rw [getInstance_active hf] at h
  dsimp only at h
  split_ifs at h with hst
  · cases h
    have hstore := updates_store s p slot (s.ins p slot)
      (l:=((s.logInfos p).set slot (s.ins p slot)).see slot) (fun j => by
        simp only [set_ins,see_ins]
        split_ifs <;> rfl) rfl rfl rfl
    exact ⟨.inr ⟨rfl,.inr hst,hstore.1⟩,hstore.2⟩
  · cases h
    have hstore := updates_store s p slot ((s.ins p slot).commit cmd)
      (l:=((((s.logInfos p).set slot (s.ins p slot)).see slot).set slot
        ((s.ins p slot).commit cmd)).updateMaxCmtdSlot slot) (fun j => by simp) rfl rfl rfl
    exact ⟨.inl ⟨rfl,hf,not_le.mp hst,hstore.1⟩,hstore.2⟩

theorem propose_spec
    (h : (s.pickInitSlotAndDep p).2.2.onFastAccept p (s.pickInitSlotAndDep p).1 ballot
      (s.pickInitSlotAndDep p).2.1 cmd = some (s',b,sug)) :
    ¬s.Freed p ((s.logInfos p).currentSlot+1) ∧ s.Updates s' p ((s.logInfos p).currentSlot+1)
        ((s.ins p ((s.logInfos p).currentSlot+1)).fastAccept ballot (s.logInfos !p).currentSlot cmd
          sug) ∧
      (s.logInfos p).currentSlot+1 ≤ (s'.logInfos p).currentSlot := by
  obtain ⟨hf,-,hup,hseen⟩ := onFastAccept_spec h
  have hins : ∀ q j, (s.pickInitSlotAndDep p).2.2.ins q j = s.ins q j := by
    intro q j
    refine (setLog_ins s p _ q j).trans ?_
    split_ifs with hq
    · rw [hq]
      rfl
    · rfl
  have hsame : ∀ q, (s.logInfos q).Same ((s.pickInitSlotAndDep p).2.2.logInfos q) := by
    intro q
    unfold pickInitSlotAndDep setLog
    rcases eq_or_ne q p with rfl | hne
    · simp only [update_self]
      exact ⟨rfl,rfl,Nat.le_succ _⟩
    · simp only [update_of_ne hne]
      exact ⟨rfl,rfl,le_rfl⟩
  refine ⟨fun hfreed => hf ⟨(hsame p).minActive ▸ hfreed.1,hfreed.2⟩,⟨fun q j => ?_,fun q => ?_,
    hup.applied⟩,hseen⟩
  · rw [hup.ins,hins,hins]
    rfl
  · exact ⟨(hup.same q).minActive.trans (hsame q).minActive,
      (hup.same q).maxExecuted.trans (hsame q).maxExecuted,(hsame q).seen.trans (hup.same q).seen⟩

/-! ### Execution -/

structure Finishes (s s' : CopilotServer C) (p : Bool) (i : ℕ) (d : CopilotData C)
    (apps : List (Bool × ℕ × C)) : Prop where
  ins : ∀ q j, s'.ins q j = if q = p ∧ j = i then d else s.ins q j
  active : ∀ q, (s'.logInfos q).minActiveSlot = (s.logInfos q).minActiveSlot
  seen : ∀ q, (s'.logInfos q).currentSlot = (s.logInfos q).currentSlot
  other : (s'.logInfos !p).maxExecutedSlot = (s.logInfos !p).maxExecutedSlot
  next : i = (s.logInfos p).maxExecutedSlot + 1 → (s'.logInfos p).maxExecutedSlot = i
  applied : s'.applied = s.applied++apps

theorem finishes_setLog {i : ℕ} (s : CopilotServer C) {l : CopilotLogInfo C}
    (hins : ∀ j, l.ins j = if j = i then d else s.ins p j)
    (hactive : l.minActiveSlot = (s.logInfos p).minActiveSlot)
    (hseen : l.currentSlot = (s.logInfos p).currentSlot)
    (hnext : i = (s.logInfos p).maxExecutedSlot + 1 → l.maxExecutedSlot = i) :
    s.Finishes (s.setLog p l) p i d [] := by
  have hlog : ∀ q, q ≠ p → (s.setLog p l).logInfos q = s.logInfos q :=
    fun q hq => update_of_ne hq _ _
  have hcases : ∀ {P : Bool → Prop}, P p → (∀ q ≠ p, P q) → ∀ q, P q := by
    intro P hp hne q
    rcases eq_or_ne q p with rfl | hq
    · exact hp
    · exact hne q hq
  refine ⟨fun q j => ?_,hcases ?_ fun q hq => ?_,hcases ?_ fun q hq => ?_,?_,?_,?_⟩
  · rw [setLog_ins,hins]
    rcases eq_or_ne q p with rfl | hne
    · simp
    · simp [hne]
  · rw [setLog_self,hactive]
  · rw [hlog q hq]
  · rw [setLog_self,hseen]
  · rw [hlog q hq]
  · rw [hlog (!p) (by simp)]
  · rw [setLog_self]
    exact hnext
  · exact (List.append_nil _).symm

theorem scanMax_next (l : CopilotLogInfo C) {i : ℕ}
    (hd : l.logs i = some (some d)) (hst : d.status = .executed) (hi : i = l.maxExecutedSlot + 1) :
    l.scanMax .executed l.maxExecutedSlot i = i := by
  have hone : i - l.maxExecutedSlot = 1 := by omega
  unfold scanMax
  rw [hone,← hi]
  simp [scan,hd,hst]

def apps (p : Bool) (i : ℕ) : Command C → List (Bool × ℕ × C)
  | .noop => []
  | .op c => [(p,i,c)]

theorem executeCmd_spec {i : ℕ} (h : s.executeCmd p i = some s') :
    ∃ c, (s.ins p i).cmd = some c ∧ s.Finishes s' p i (s.ins p i).execute (apps p i c) := by
  have hfin : s.Finishes (s.setLog p (((s.logInfos p).set i (s.ins p i).execute).updateMaxExecSlot i))
      p i (s.ins p i).execute [] := by
    refine finishes_setLog s (fun j => ?_) rfl rfl fun hi => ?_
    · rw [updateMaxExecSlot_ins,set_ins]
      rfl
    · exact scanMax_next ((s.logInfos p).set i (s.ins p i).execute) (update_self _ _ _) rfl hi
  unfold executeCmd at h
  dsimp only at h
  split at h
  · cases h
  next hc =>
    cases h
    exact ⟨_,hc,hfin⟩
  next c hc =>
    cases h
    exact ⟨_,hc,{hfin with applied := rfl}⟩

theorem eliminateNullDep_spec {i : ℕ} {committed b : Bool}
    (h : s.eliminateNullDep p i committed = some (s',b)) :
    s' = s ∧ (b = true → (s.ins p i).status = .executed) ∨
      b = true ∧ .fastAccepted ≤ (s.ins p i).status ∧ (s.ins p i).status ≠ .executed ∧
        (s.ins p i).cmd ≠ none ∧ (committed = true ∨ (s.ins p i).isNoop = true) ∧
        s.Finishes s' p i (s.ins p i).eliminate [] := by
  have hfin : s.Finishes (s.setLog p ((((s.logInfos p).set i (s.ins p i).eliminate).updateMaxCmtdSlot
      i).updateMaxExecSlot i)) p i (s.ins p i).eliminate [] := by
    refine finishes_setLog s (fun j => ?_) rfl rfl fun hi => ?_
    · rw [updateMaxExecSlot_ins,updateMaxCmtdSlot_ins,set_ins]
      rfl
    · refine scanMax_next (((s.logInfos p).set i (s.ins p i).eliminate).updateMaxCmtdSlot i)
        (d:=(s.ins p i).eliminate) ?_ rfl hi
      simp [CopilotLogInfo.updateMaxCmtdSlot,CopilotLogInfo.touch,CopilotLogInfo.set]
  unfold eliminateNullDep at h
  by_cases hlow : (s.ins p i).status < .fastAccepted
  · rw [if_pos (show ((s.logInfos p).ins i).status < .fastAccepted from hlow)] at h
    cases h
    exact .inl ⟨rfl,by simp⟩
  rw [if_neg (show ¬((s.logInfos p).ins i).status < .fastAccepted from hlow)] at h
  by_cases hex : (s.ins p i).status = .executed
  · rw [if_pos (show ((s.logInfos p).ins i).status = .executed from hex)] at h
    cases h
    exact .inl ⟨rfl,fun _ => hex⟩
  rw [if_neg (show ¬((s.logInfos p).ins i).status = .executed from hex)] at h
  split at h
  · cases h
  next hc =>
    replace hc : (s.ins p i).cmd = some .noop := hc
    cases h
    exact .inr ⟨rfl,not_lt.mp hlow,hex,by simp [hc],.inr (by simp [CopilotData.isNoop,hc]),hfin⟩
  next c hc =>
    replace hc : (s.ins p i).cmd = some (.op c) := hc
    split_ifs at h with hcom
    · cases h
      exact .inr ⟨rfl,not_lt.mp hlow,hex,by simp [hc],.inl hcom,hfin⟩
    · cases h
      exact .inl ⟨rfl,by simp⟩

theorem freeLoop_spec {l l' : CopilotLogInfo C} (h : CopilotLogInfo.freeLoop k l = some l')
    (hpos : 0 < l.minActiveSlot) : l.minActiveSlot ≤ l'.minActiveSlot ∧
      (l'.minActiveSlot ≤ l.minActiveSlot ∨ l'.minActiveSlot ≤ l.maxExecutedSlot) ∧
      l'.maxExecutedSlot = l.maxExecutedSlot ∧ l'.currentSlot = l.currentSlot ∧
      ∀ j, ¬l'.Freed j → l'.ins j = l.ins j := by
  induction k generalizing l with
  | zero =>
    cases h
    exact ⟨le_rfl,.inl le_rfl,rfl,rfl,fun _ _ => rfl⟩
  | succ k ih =>
    unfold freeLoop at h
    split_ifs at h with hlt
    · split at h
      · cases h
      · obtain ⟨hle,hup,hmax,hcur,hins⟩ := ih h (Nat.succ_pos _)
        dsimp only at hle hup hmax hcur
        refine ⟨by omega,.inr (by omega),hmax,hcur,fun j hj => (hins j hj).trans ?_⟩
        have hne : j ≠ l.minActiveSlot := by
          rintro rfl
          exact hj ⟨by omega,by omega⟩
        simp only [CopilotLogInfo.ins,update_of_ne hne]
    · cases h
      exact ⟨le_rfl,.inl le_rfl,rfl,rfl,fun _ _ => rfl⟩

/-- Execution keeps what an instance holds; it executes only where there is a command. -/
structure Carries (d d' : CopilotData C) : Prop where
  cmd : d'.cmd = d.cmd
  depId : d'.depId = d.depId
  ballot : d'.ballot = d.ballot
  status : d'.status = d.status ∨ d'.status = .executed ∧ d.cmd ≠ none

structure Keeps (s s' : CopilotServer C) : Prop where
  active : ∀ q, (s.logInfos q).minActiveSlot ≤ (s'.logInfos q).minActiveSlot
  seen : ∀ q, (s'.logInfos q).currentSlot = (s.logInfos q).currentSlot
  held : ∀ q j, ¬s'.Freed q j → Carries (s.ins q j) (s'.ins q j)

theorem Carries.refl (d : CopilotData C) : Carries d d := ⟨rfl,rfl,rfl,.inl rfl⟩

theorem Carries.trans {d' d'' : CopilotData C} (h : Carries d d') (h' : Carries d' d'') :
    Carries d d'' where
  cmd := h'.cmd.trans h.cmd
  depId := h'.depId.trans h.depId
  ballot := h'.ballot.trans h.ballot
  status := by
    rcases h'.status with hst | ⟨hst,hcmd⟩
    · rw [hst]
      exact h.status
    · exact .inr ⟨hst,h.cmd ▸ hcmd⟩

theorem Keeps.refl (s : CopilotServer C) : s.Keeps s :=
  ⟨fun _ => le_rfl,fun _ => rfl,fun _ _ _ => .refl _⟩

theorem Keeps.freed (h : s.Keeps s') {j : ℕ} (hf : s.Freed q j) : s'.Freed q j :=
  ⟨hf.1.trans_le (h.active q),hf.2⟩

theorem Keeps.trans (h : s.Keeps s') (h' : s'.Keeps s'') : s.Keeps s'' where
  active q := (h.active q).trans (h'.active q)
  seen q := (h'.seen q).trans (h.seen q)
  held q j hj := (h.held q j fun hf => hj (h'.freed hf)).trans (h'.held q j hj)

theorem keeps_set (s : CopilotServer C) (p : Bool) (slot : ℕ)
    (hd : Carries (s.ins p slot) d) : s.Keeps (s.setLog p ((s.logInfos p).set slot d)) where
  active q := by
    unfold setLog
    rcases eq_or_ne q p with rfl | hne
    · simp [CopilotLogInfo.set]
    · simp [hne]
  seen q := by
    unfold setLog
    rcases eq_or_ne q p with rfl | hne
    · simp [CopilotLogInfo.set]
    · simp [hne]
  held q j _ := by
    rw [setLog_ins,set_ins]
    by_cases hq : q = p
    · subst hq
      rw [if_pos rfl]
      split_ifs with hj
      · rw [hj]
        exact hd
      · exact .refl _
    · rw [if_neg hq]
      exact .refl _

theorem Finishes.keeps {i : ℕ} {l : List (Bool × ℕ × C)}
    (h : s.Finishes s' p i d l) (hd : Carries (s.ins p i) d) : s.Keeps s' where
  active q := (h.active q).ge
  seen := h.seen
  held q j _ := by
    rw [h.ins]
    split_ifs with hq
    · rw [hq.1,hq.2]
      exact hd
    · exact .refl _

theorem eliminateNullDep_keeps {i : ℕ} {committed b : Bool}
    (h : s.eliminateNullDep p i committed = some (s',b)) : s.Keeps s' := by
  rcases eliminateNullDep_spec h with ⟨rfl,-⟩ | ⟨-,-,-,hc,-,hfin⟩
  · exact .refl _
  · exact hfin.keeps ⟨rfl,rfl,rfl,.inr ⟨rfl,hc⟩⟩

theorem allDepsEliminated_keeps {committed : ℕ → Bool} {i : ℕ} {b : Bool}
    (h : allDepsEliminated p committed k i s = some (s',b)) : s.Keeps s' := by
  induction k generalizing i s with
  | zero =>
    cases h
    exact .refl _
  | succ k ih =>
    unfold allDepsEliminated at h
    by_cases hf : s.Freed p i
    · rw [getInstance_freed hf] at h
      cases h
    rw [getInstance_active hf] at h
    dsimp only at h
    split at h
    · cases h
    next s₁ hel =>
      exact ((keeps_set s p i (.refl _)).trans (eliminateNullDep_keeps hel)).trans (ih h)
    next s₁ hel =>
      cases h
      exact (keeps_set s p i (.refl _)).trans (eliminateNullDep_keeps hel)

structure Alike (s s' : CopilotServer C) : Prop where
  ins : ∀ q j, s'.ins q j = s.ins q j
  same : ∀ q, (s.logInfos q).Same (s'.logInfos q)
  seen : ∀ q, (s'.logInfos q).currentSlot = (s.logInfos q).currentSlot
  applied : s'.applied = s.applied

theorem Alike.refl (s : CopilotServer C) : s.Alike s :=
  ⟨fun _ _ => rfl,fun _ => ⟨rfl,rfl,le_rfl⟩,fun _ => rfl,rfl⟩

theorem Alike.freed (h : s.Alike s') (q : Bool) (j : ℕ) : s'.Freed q j ↔ s.Freed q j := by
  unfold Freed CopilotLogInfo.Freed
  rw [(h.same q).minActive]

theorem Alike.trans (h : s.Alike s') (h' : s'.Alike s'') : s.Alike s'' where
  ins q j := (h'.ins q j).trans (h.ins q j)
  same q := ⟨(h'.same q).minActive.trans (h.same q).minActive,
    (h'.same q).maxExecuted.trans (h.same q).maxExecuted,(h.same q).seen.trans (h'.same q).seen⟩
  seen q := (h'.seen q).trans (h.seen q)
  applied := h'.applied.trans h.applied

theorem alike_getInstance (s : CopilotServer C) (p : Bool) (slot : ℕ) :
    s.Alike (s.setLog p ((s.logInfos p).set slot (s.ins p slot))) where
  ins q j := by
    rw [(updates_getInstance s p slot).ins]
    split_ifs with h
    · rw [h.1,h.2]
    · rfl
  same := (updates_getInstance s p slot).same
  seen := (keeps_set s p slot (.refl _)).seen
  applied := rfl

/-- `GetInstance` refuses a slot that has been freed, and leaves every instance as it was. -/
theorem getInstance_cases (s : CopilotServer C) (p : Bool) (slot : ℕ) :
    s.Freed p slot ∧ (s.logInfos p).getInstance slot = none ∨ ¬s.Freed p slot ∧
      ∃ l, (s.logInfos p).getInstance slot = some (s.ins p slot,l) ∧ s.Alike (s.setLog p l) := by
  by_cases hf : s.Freed p slot
  · exact .inl ⟨hf,getInstance_freed hf⟩
  · exact .inr ⟨hf,_,getInstance_active hf,alike_getInstance s p slot⟩

theorem Alike.keeps (h : s.Alike s') : s.Keeps s' where
  active q := (h.same q).minActive.ge
  seen := h.seen
  held q j _ := by
    rw [h.ins]
    exact .refl _

theorem Alike.finishes {i : ℕ} {l : List (Bool × ℕ × C)} (h : s.Alike s')
    (hfin : s'.Finishes s'' p i d l) : s.Finishes s'' p i d l where
  ins q j := by rw [hfin.ins,h.ins]
  active q := (hfin.active q).trans (h.same q).minActive
  seen q := (hfin.seen q).trans (h.seen q)
  other := hfin.other.trans (h.same _).maxExecuted
  next hi := hfin.next (hi.trans (congrArg (· + 1) (h.same p).maxExecuted.symm))
  applied := by rw [hfin.applied,h.applied]

theorem Alike.updates {i : ℕ} (h : s.Alike s') (hup : s'.Updates s'' p i d) :
    s.Updates s'' p i d where
  ins q j := by rw [hup.ins,h.ins]
  same q := ⟨(hup.same q).minActive.trans (h.same q).minActive,
    (hup.same q).maxExecuted.trans (h.same q).maxExecuted,(h.same q).seen.trans (hup.same q).seen⟩
  applied := hup.applied.trans h.applied

inductive RunsEntry (s : CopilotServer C) (p : Bool) (i dep : ℕ) : CopilotServer C → Next → Prop
  | executed {t c} (hf : ¬s.Freed p i) (hc : (s.ins p i).cmd = some c)
      (hdep : (s.ins p i).depId = 0 ∨ (s.ins p i).isNoop = true ∨ s.Freed (!p) dep ∨
        (s.ins (!p) dep).status = .executed)
      (hfin : s.Finishes t p i (s.ins p i).execute (apps p i c)) :
      RunsEntry s p i dep t (.run (.entry (i+1)))
  | turned {t} (hs : s.Alike t) :
      RunsEntry s p i dep t (.run (.deps i ((s.logInfos !p).maxExecutedSlot+1)))

inductive RunsDep (s : CopilotServer C) (p : Bool) (i j : ℕ) : CopilotServer C → Next → Prop
  | passed {t} (hf : ¬s.Freed (!p) j) (hst : (s.ins (!p) j).status = .executed) (hs : s.Alike t) :
      RunsDep s p i j t (.run (.deps i (j+1)))
  | cycled {t c} (hf : ¬s.Freed (!p) j) (hcyc : i ≤ (s.ins (!p) j).depId) (hp : p = true)
      (hc : (s.ins p i).cmd = some c) (hfin : s.Finishes t p i (s.ins p i).execute (apps p i c)) :
      RunsDep s p i j t (.run (.entry (i+1)))
  | executed {t c} (hf : ¬s.Freed (!p) j) (hst : (s.ins (!p) j).status ≠ .executed)
      (hcyc : (s.ins (!p) j).depId = 0 ∨ (s.ins (!p) j).isNoop = true ∨ (s.ins (!p) j).depId < i ∨
        p = false)
      (hc : (s.ins (!p) j).cmd = some c)
      (hfin : s.Finishes t (!p) j (s.ins (!p) j).execute (apps (!p) j c)) :
      RunsDep s p i j t (.run (.deps i (j+1)))

inductive Iteration (s : CopilotServer C) (p : Bool) (slot : ℕ) (committed : Bool) :
    Pc → CopilotServer C → Next → Prop
  | freed {i l} (hi : slot < i)
      (hl : CopilotLogInfo.freeLoop (s.logInfos p).maxExecutedSlot (s.logInfos p) = some l) :
      Iteration s p slot committed (.entry i) (s.setLog p l) .finished
  | passed {i t} (hi : i ≤ slot) (hf : ¬s.Freed p i)
      (hpass : s.Freed (!p) (s.ins p i).depId ∨ (s.ins p i).status = .executed) (hs : s.Alike t) :
      Iteration s p slot committed (.entry i) t (.run (.entry (i+1)))
  | waits {i t} (hi : i ≤ slot) (hs : s.Alike t) :
      Iteration s p slot committed (.entry i) t (.wait (.waitEntry i (s.ins p i).depId))
  | entered {i t nx} (hi : i ≤ slot) (hst : (s.ins p i).status ≠ .executed)
      (hcom : .committed ≤ (s.ins p i).status ∨ (s.ins p i).cmitEvt = true)
      (hrun : s.RunsEntry p i (s.ins p i).depId t nx) :
      Iteration s p slot committed (.entry i) t nx
  | resumed {i dep t nx} (hrun : s.RunsEntry p i dep t nx) :
      Iteration s p slot committed (.waitEntry i dep) t nx
  | completed {i j t c} (hj : (s.ins p i).depId < j) (hc : (s.ins p i).cmd = some c)
      (hfin : s.Finishes t p i (s.ins p i).execute (apps p i c)) :
      Iteration s p slot committed (.deps i j) t (.run (.entry (i+1)))
  | broken {i j t c} (hf : ¬s.Freed (!p) j) (hcyc : i ≤ (s.ins (!p) j).depId) (hp : p = true)
      (hc : (s.ins p i).cmd = some c) (hfin : s.Finishes t p i (s.ins p i).execute (apps p i c)) :
      Iteration s p slot committed (.deps i j) t (.run (.entry (i+1)))
  | eliminated {i j t} (hj : j ≤ (s.ins p i).depId) (hf : ¬s.Freed (!p) j)
      (hst : s.Alike t ∧ (s.ins (!p) j).status = .executed ∨
        .fastAccepted ≤ (s.ins (!p) j).status ∧ (s.ins (!p) j).status ≠ .executed ∧
          (s.ins (!p) j).cmd ≠ none ∧ (committed = true ∨ (s.ins (!p) j).isNoop = true) ∧
          s.Finishes t (!p) j (s.ins (!p) j).eliminate []) :
      Iteration s p slot committed (.deps i j) t (.run (.deps i (j+1)))
  | blocked {i j t} (hj : j ≤ (s.ins p i).depId) (hs : s.Alike t) :
      Iteration s p slot committed (.deps i j) t (.wait (.waitDep i j))
  | proceeded {i j t nx} (hj : j ≤ (s.ins p i).depId) (hevt : (s.ins (!p) j).cmitEvt = true)
      (hrun : s.RunsDep p i j t nx) : Iteration s p slot committed (.deps i j) t nx
  | woken {i j t nx} (hrun : s.RunsDep p i j t nx) :
      Iteration s p slot committed (.waitDep i j) t nx

theorem executed_of_map {i : ℕ} {nx : Next}
    (h : ((s.executeCmd p i).map fun s' => (s',Next.run pc)) = some (s',nx)) :
    nx = .run pc ∧ ∃ c, (s.ins p i).cmd = some c ∧
      s.Finishes s' p i (s.ins p i).execute (apps p i c) := by
  obtain ⟨s₁,hs₁,heq⟩ := Option.map_eq_some_iff.mp h
  cases heq
  exact ⟨rfl,executeCmd_spec hs₁⟩

theorem runEntry_runs {i dep : ℕ} {nx : Next} (h : s.runEntry p i dep = some (s',nx)) :
    s.RunsEntry p i dep s' nx := by
  unfold runEntry at h
  dsimp only at h
  split_ifs at h with hbad hcase
  · obtain ⟨rfl,c,hc,hfin⟩ := executed_of_map h
    exact .executed (fun hf => hbad (.inl hf)) hc hcase hfin
  · cases h
    exact .turned (.refl s)

theorem runDep_runs {i j : ℕ} {nx : Next} (h : s.runDep p i j = some (s',nx)) :
    s.RunsDep p i j s' nx := by
  unfold runDep at h
  dsimp only at h
  split_ifs at h with hf hst hbad hcyc
  · cases h
    have hex : (s.ins (!p) j).status = .executed :=
      le_antisymm (by generalize (s.ins (!p) j).status = st; cases st <;> decide) hst
    exact .passed hf hex (.refl s)
  · obtain ⟨rfl,c,hc,hfin⟩ := executed_of_map h
    exact .cycled hf hcyc.2.2.1 hcyc.2.2.2 hc hfin
  · obtain ⟨rfl,c,hc,hfin⟩ := executed_of_map h
    refine .executed hf (fun he => hst he.ge) ?_ hc hfin
    by_contra hno
    push Not at hno
    exact hcyc ⟨hno.1,Bool.not_eq_true _ ▸ hno.2.1,hno.2.2.1,Bool.not_eq_false _ ▸ hno.2.2.2⟩

theorem RunsEntry.alike {i dep : ℕ} {nx : Next} (hs : s.Alike s')
    (h : s'.RunsEntry p i dep s'' nx) : s.RunsEntry p i dep s'' nx := by
  cases h with
  | executed hf hc hdep hfin =>
    rw [hs.freed] at hf hdep
    rw [hs.ins] at hc hdep hfin
    rw [hs.ins] at hdep
    exact .executed hf hc hdep (hs.finishes hfin)
  | turned hs' =>
    rw [(hs.same _).maxExecuted]
    exact .turned (hs.trans hs')

theorem RunsDep.alike {i j : ℕ} {nx : Next} (hs : s.Alike s')
    (h : s'.RunsDep p i j s'' nx) : s.RunsDep p i j s'' nx := by
  cases h with
  | passed hf hst hs' =>
    rw [hs.freed] at hf
    rw [hs.ins] at hst
    exact .passed hf hst (hs.trans hs')
  | cycled hf hcyc hp hc hfin =>
    rw [hs.freed] at hf
    rw [hs.ins] at hc hfin hcyc
    exact .cycled hf hcyc hp hc (hs.finishes hfin)
  | executed hf hst hcyc hc hfin =>
    rw [hs.freed] at hf
    rw [hs.ins] at hc hfin hcyc hst
    exact .executed hf hst hcyc hc (hs.finishes hfin)

theorem runTask_iteration {committed : Bool} {t : Task} {nx : Next}
    (h : s.runTask committed t = some (s',nx)) :
    s.Iteration t.isPilot t.slot committed t.pc s' nx := by
  obtain ⟨p,slot,pc⟩ := t
  cases pc with
  | entry i =>
    simp only [runTask] at h
    split_ifs at h with hi
    · obtain ⟨l,hl,heq⟩ := Option.map_eq_some_iff.mp h
      cases heq
      exact .freed hi hl
    · rcases s.getInstance_cases p i with ⟨hf,hget⟩ | ⟨hf,l,hget,hs₁⟩
      · rw [hget] at h
        cases h
      rw [hget] at h
      dsimp only at h
      generalize s.setLog p l = s₁ at h hs₁
      rcases s₁.getInstance_cases (!p) (s.ins p i).depId with ⟨hd,hget⟩ | ⟨-,l',hget,hs⟩
      · rw [hget] at h
        cases h
        exact .passed (not_lt.mp hi) hf (.inl ((hs₁.freed _ _).mp hd)) hs₁
      rw [hget] at h
      have hs₂ := hs₁.trans hs
      split_ifs at h with hex hwait
      · cases h
        exact .passed (not_lt.mp hi) hf (.inr hex) hs₂
      · cases h
        exact .waits (not_lt.mp hi) hs₂
      · refine .entered (not_lt.mp hi) hex ?_ ((runEntry_runs h).alike hs₂)
        by_contra hno
        push Not at hno
        exact hwait ⟨hno.1,Bool.not_eq_true _ ▸ hno.2⟩
  | waitEntry i dep => exact .resumed (runEntry_runs h)
  | deps i j =>
    simp only [runTask] at h
    by_cases hj : (s.ins p i).depId < j
    · rw [if_pos (show ((s.logInfos p).ins i).depId < j from hj)] at h
      obtain ⟨rfl,c,hc,hfin⟩ := executed_of_map h
      exact .completed hj hc hfin
    rw [if_neg (show ¬((s.logInfos p).ins i).depId < j from hj)] at h
    rcases s.getInstance_cases (!p) j with ⟨hf,hget⟩ | ⟨hf,l,hget,hs₁⟩
    · rw [hget] at h
      cases h
    rw [hget] at h
    dsimp only at h
    generalize s.setLog (!p) l = s₁ at h hs₁
    by_cases hcyc : i ≤ (s.ins (!p) j).depId ∧ p = true
    · rw [if_pos hcyc] at h
      obtain ⟨rfl,c,hc,hfin⟩ := executed_of_map h
      rw [hs₁.ins] at hc hfin
      exact .broken hf hcyc.1 hcyc.2 hc (hs₁.finishes hfin)
    rw [if_neg hcyc] at h
    split at h
    · cases h
    next s₂ hel =>
      cases h
      refine .eliminated (not_lt.mp hj) hf ?_
      rcases eliminateNullDep_spec hel with ⟨rfl,hst⟩ | ⟨-,h₁,h₂,h₃,h₄,hfin⟩
      · exact .inl ⟨hs₁,hs₁.ins _ _ ▸ hst rfl⟩
      · rw [hs₁.ins] at h₁ h₂ h₃ h₄ hfin
        exact .inr ⟨h₁,h₂,h₃,h₄,hs₁.finishes hfin⟩
    next s₂ hel =>
      obtain rfl : s₂ = s₁ := by
        rcases eliminateNullDep_spec hel with ⟨rfl,-⟩ | ⟨hfalse,-⟩
        · rfl
        · cases hfalse
      split_ifs at h with hevt
      · exact .proceeded (not_lt.mp hj) hevt ((runDep_runs h).alike hs₁)
      · cases h
        exact .blocked (not_lt.mp hj) hs₁
  | waitDep i j => exact .woken (runDep_runs h)

theorem execute_keeps {i : ℕ} {c : Command C} (hc : (s.ins p i).cmd = some c)
    (hfin : s.Finishes s' p i (s.ins p i).execute (apps p i c)) : s.Keeps s' :=
  hfin.keeps ⟨rfl,rfl,rfl,.inr ⟨rfl,by simp [hc]⟩⟩

theorem RunsEntry.keeps {i dep : ℕ} {nx : Next} (h : s.RunsEntry p i dep s' nx) : s.Keeps s' := by
  cases h with
  | executed _ hc _ hfin => exact execute_keeps hc hfin
  | turned hs => exact hs.keeps

theorem RunsDep.keeps {i j : ℕ} {nx : Next} (h : s.RunsDep p i j s' nx) : s.Keeps s' := by
  cases h with
  | passed _ _ hs => exact hs.keeps
  | cycled _ _ _ hc hfin | executed _ _ _ hc hfin => exact execute_keeps hc hfin

theorem Iteration.keeps {committed : Bool} {nx : Next}
    (hpos : ∀ q, 0 < (s.logInfos q).minActiveSlot)
    (h : s.Iteration p slot committed pc s' nx) : s.Keeps s' := by
  cases h with
  | freed hi hl =>
    obtain ⟨hmin,-,-,hcur,hins⟩ := freeLoop_spec hl (hpos p)
    refine ⟨fun q => ?_,fun q => ?_,fun q j hj => ?_⟩
    all_goals rcases eq_or_ne q p with rfl | hne
    · rwa [setLog_self]
    · exact (congrArg _ (update_of_ne hne _ _)).ge
    · rwa [setLog_self]
    · exact congrArg _ (update_of_ne hne _ _)
    · unfold Freed at hj
      rw [setLog_self] at hj
      rw [setLog_ins,if_pos rfl,hins j hj]
      exact .refl _
    · rw [setLog_ins,if_neg hne]
      exact .refl _
  | passed _ _ _ hs | waits _ hs | blocked _ hs => exact hs.keeps
  | entered _ _ _ hrun | resumed hrun | proceeded _ _ hrun | woken hrun => exact hrun.keeps
  | completed _ hc hfin | broken _ _ _ hc hfin => exact execute_keeps hc hfin
  | eliminated _ _ hst =>
    rcases hst with ⟨hs,-⟩ | ⟨-,-,hc,-,hfin⟩
    · exact hs.keeps
    · exact hfin.keeps ⟨rfl,rfl,rfl,.inr ⟨rfl,hc⟩⟩

end CopilotServer
end Janus.Copilot
