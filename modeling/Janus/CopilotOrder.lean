import Janus.CopilotDependencies

/-! The order in which the replicas of Copilot execute, without takeovers. A replica executes each
log in the order of its slots. An entry of the copilot's log waits for its dependency, and one of
the pilot's log unless an entry of the other log that is not behind it depends on it. So the
dependencies of the copilot's log tell which of two entries comes first. -/

namespace Janus.Copilot

open Transition CopilotServer List Nat CopilotData Bool

def CopilotServer.last {C : Type} (v : CopilotServer C) (p : Bool) : ℕ :=
  (v.logInfos p).maxExecutedSlot

namespace Cluster

variable {C : Type} {n : ℕ} {s s' : Cluster C} {v v' v'' : CopilotServer C} {p : Bool} {i r : ℕ}
variable {d : CopilotData C}

def Turn (s : Cluster C) (v : CopilotServer C) (p : Bool) (i : ℕ) : Prop :=
  match p with
  | false => ∃ e ≤ v.last true, s.Settled false i e
  | true => ∃ d, s.Settled true i d ∧ (d ≤ v.last false ∨ s.Reaches false (v.last false+1) i ∨
      ∃ j e, 0 < j ∧ j ≤ v.last false ∧ s.Settled false j e ∧ i ≤ e)

/-- Which entry comes first, read off the dependencies of the copilot's log. -/
def Before (s : Cluster C) (a b : Bool × ℕ) : Prop :=
  match a.1,b.1 with
  | true,false => ∃ j e, 0 < j ∧ j ≤ b.2 ∧ s.Settled false j e ∧ a.2 ≤ e
  | false,true => ∀ j, 0 < j → j ≤ a.2 → ∃ e < b.2, s.Settled false j e
  | _,_ => a.2 < b.2

theorem Before.asymm (hwf : s.Wf n) {a b : Bool × ℕ} (h : s.Before a b) : ¬s.Before b a := by
  have hcross : ∀ {i j : ℕ}, s.Before (true,i) (false,j) → ¬s.Before (false,j) (true,i) := by
    rintro i j ⟨k,e,hk,hle,hs,hie⟩ hall
    obtain ⟨e',hlt,hs'⟩ := hall k hk hle
    have := hwf.settled_unique hs hs'
    omega
  obtain ⟨p,i⟩ := a
  obtain ⟨q,j⟩ := b
  cases p <;> cases q
  · exact fun h' => absurd (show i < j from h) (show j < i from h').not_gt
  · exact fun h' => hcross h' h
  · exact hcross h
  · exact fun h' => absurd (show i < j from h) (show j < i from h').not_gt

theorem Turn.mono (h : s.Turn v p i) (hsus : s.Sustains s') : s'.Turn v p i := by
  cases p with
  | false =>
    obtain ⟨e,he,hs⟩ := h
    exact ⟨e,he,hsus.settled hs⟩
  | true =>
    obtain ⟨d,hd,hcase⟩ := h
    refine ⟨d,hsus.settled hd,?_⟩
    rcases hcase with h | h | ⟨j,e,h₁,h₂,h₃,h₄⟩
    · exact .inl h
    · exact .inr (.inl (hsus.reaches h))
    · exact .inr (.inr ⟨j,e,h₁,h₂,hsus.settled h₃,h₄⟩)

theorem Turn.congr (h : s.Turn v p i) (hlast : ∀ q, v'.last q = v.last q) : s.Turn v' p i := by
  unfold Turn at h ⊢
  simp only [hlast]
  exact h

theorem Before.mono {a b : Bool × ℕ} (h : s.Before a b) (hsus : s.Sustains s') : s'.Before a b := by
  obtain ⟨p,i⟩ := a
  obtain ⟨q,j⟩ := b
  cases p <;> cases q
  · exact h
  · intro k hk hle
    obtain ⟨e,hlt,hs⟩ := h k hk hle
    exact ⟨e,hlt,hsus.settled hs⟩
  · obtain ⟨k,e,hk,hle,hs,hie⟩ := h
    exact ⟨k,e,hk,hle,hsus.settled hs,hie⟩
  · exact h

/-- The entries that have been executed are those up to the last one, each in its turn, and they
have been applied in order. -/
structure Ranked (s : Cluster C) (v : CopilotServer C) : Prop where
  done : ∀ p i, ¬v.Freed p i → ((v.ins p i).status = .executed ↔ i ≤ v.last p)
  active : ∀ p, (v.logInfos p).minActiveSlot ≤ v.last p+1
  turn : ∀ p i, 0 < i → i ≤ v.last p → s.Turn v p i
  bound : ∀ a ∈ v.applied, 0 < a.2.1 ∧ a.2.1 ≤ v.last a.1
  order : v.applied.Pairwise fun a b => s.Before (a.1,a.2.1) (b.1,b.2.1)

section

variable (h : s.Ranked v)
include h

theorem Ranked.mono (hsus : s.Sustains s') : s'.Ranked v where
  done := h.done
  active := h.active
  turn p i hpos hi := (h.turn p i hpos hi).mono hsus
  bound := h.bound
  order := h.order.imp fun hab => hab.mono hsus

theorem Ranked.freed_le (hf : v.Freed p i) : i ≤ v.last p := by
  have := h.active p
  have := hf.1
  omega

theorem Ranked.congr (hlast : ∀ q, v'.last q = v.last q)
    (hactive : ∀ q, (v.logInfos q).minActiveSlot ≤ (v'.logInfos q).minActiveSlot ∧
      (v'.logInfos q).minActiveSlot ≤ v.last q+1) (hst : ∀ q j, ¬v'.Freed q j →
      ((v'.ins q j).status = .executed ↔ (v.ins q j).status = .executed))
    (happ : v'.applied = v.applied) : s.Ranked v' where
  done q j hf := by
    rw [hst q j hf,hlast]
    exact h.done q j fun hfr => hf ⟨hfr.1.trans_le (hactive q).1,hfr.2⟩
  active q := hlast q ▸ (hactive q).2
  turn q j hpos hj := (h.turn q j hpos (hlast q ▸ hj)).congr hlast
  bound a ha := hlast a.1 ▸ h.bound a (happ ▸ ha)
  order := happ ▸ h.order

theorem Ranked.updates (hup : v.Updates v' p i d)
    (hst : ¬v.Freed p i → (d.status = .executed ↔ (v.ins p i).status = .executed)) :
    s.Ranked v' := by
  refine h.congr (fun q => (hup.same q).maxExecuted) (fun q => ⟨(hup.same q).minActive.ge,?_⟩)
    (fun q j hf => ?_) hup.applied
  · rw [(hup.same q).minActive]
    exact h.active q
  · rw [hup.ins]
    split_ifs with hq
    · rw [hq.1,hq.2]
      rw [hup.freed,hq.1,hq.2] at hf
      exact hst hf
    · exact Iff.rfl

theorem Ranked.alike (ha : v.Alike v') : s.Ranked v' := by
  refine h.congr (fun q => (ha.same q).maxExecuted) (fun q => ⟨(ha.same q).minActive.ge,?_⟩)
    (fun q j _ => by rw [ha.ins]) ha.applied
  rw [(ha.same q).minActive]
  exact h.active q

/-- An entry of the pilot orders each executed entry of the copilot before the next one. -/
theorem Ranked.crosses (hwf : s.Wf n) (hv : s.Votes n) (hturn : s.Turn v false i)
    (hi : i = v.last false+1) {k : ℕ} (hk : 0 < k) (hle : k ≤ v.last true) :
    ∃ j e, 0 < j ∧ j ≤ i ∧ s.Settled false j e ∧ k ≤ e := by
  obtain ⟨e,-,he⟩ := hturn
  obtain ⟨d',hd',h₁ | h₁ | ⟨j,e',h₁,h₂,h₃,h₄⟩⟩ := h.turn true k hk hle
  · rcases hv.comparable (p:=true) hd' he hwf with h₂ | h₂
    · omega
    · exact ⟨i,e,by omega,le_rfl,he,h₂⟩
  · exact ⟨i,e,by omega,le_rfl,he,hwf.settled_ge he (hi ▸ h₁)⟩
  · exact ⟨j,e',h₁,by omega,h₃,h₄⟩

/-- What has been executed comes before the next entry. -/
theorem Ranked.before_next (hwf : s.Wf n) (hv : s.Votes n) (hturn : s.Turn v p i)
    (hi : i = v.last p+1) {q : Bool} {j : ℕ} (hpos : 0 < j) (hle : j ≤ v.last q) : s.Before (q,j) (p,i) := by
  cases p with
  | false =>
    cases q with
    | false => exact show j < i by omega
    | true => exact h.crosses hwf hv hturn hi hpos hle
  | true =>
    cases q with
    | false =>
      intro k hk hkj
      obtain ⟨e,he,hs⟩ := h.turn false k hk (hkj.trans hle)
      exact ⟨e,show e < i by omega,hs⟩
    | true => exact show j < i by omega

section Finishes

variable {d : CopilotData C} {apps : List (Bool × ℕ × C)}
  (hfin : v.Finishes v' p i d apps) (hi : i = v.last p+1)
include hfin hi

omit h in
theorem last_finishes (q : Bool) : v'.last q = if q = p then i else v.last q := by
  split_ifs with hq
  · rw [hq]
    exact hfin.next hi
  · rw [eq_not_of_ne hq]
    exact hfin.other

omit h in
theorem last_le_finishes (q : Bool) : v.last q ≤ v'.last q := by
  rw [last_finishes hfin hi]
  split_ifs with hq
  · rw [hq]
    omega
  · exact le_rfl

theorem Ranked.done_finishes (hst : d.status = .executed) (q : Bool) (j : ℕ) (hf : ¬v'.Freed q j) :
    (v'.ins q j).status = .executed ↔ j ≤ v'.last q := by
  unfold CopilotServer.Freed CopilotLogInfo.Freed at hf
  rw [hfin.active] at hf
  have hd := h.done q j hf
  rw [hfin.ins,last_finishes hfin hi]
  by_cases hq : q = p
  · subst hq
    rw [if_pos rfl]
    split_ifs with hj
    · simp [hst,hj]
    · have hne : j ≠ i := fun he => hj ⟨rfl,he⟩
      rw [hd]
      omega
  · rw [if_neg fun hh => hq hh.1,if_neg hq,hd]

theorem Ranked.turn_finishes (hwf : s.Wf n) (hv : s.Votes n) (hturn : s.Turn v p i) (q : Bool) (j : ℕ)
    (hpos : 0 < j) (hj : j ≤ v'.last q) : s.Turn v' q j := by
  have hlast := last_finishes hfin hi
  have ht : s.Turn v q j := by
    rw [hlast] at hj
    split_ifs at hj with hq
    · subst hq
      rcases hj.eq_or_lt with rfl | hlt
      · exact hturn
      · exact h.turn q j hpos (by omega)
    · exact h.turn q j hpos hj
  cases q with
  | false =>
    obtain ⟨e,he,hs⟩ := ht
    exact ⟨e,he.trans (last_le_finishes hfin hi true),hs⟩
  | true =>
    obtain ⟨d',hd',hcase⟩ := ht
    refine ⟨d',hd',?_⟩
    cases p with
    | false =>
      obtain ⟨k,e,hk,hki,hs⟩ := h.crosses hwf hv hturn hi hpos (hj.trans (hlast true).le)
      exact .inr (.inr ⟨k,e,hk,hki.trans (hlast false).ge,hs⟩)
    | true =>
      rw [hlast false]
      exact hcase

theorem Ranked.finishes (hwf : s.Wf n) (hv : s.Votes n) (hst : d.status = .executed)
    (hturn : s.Turn v p i) (happs : apps = [] ∨ ∃ c, apps = [(p,i,c)]) : s.Ranked v' := by
  have hmono := last_le_finishes hfin hi
  refine ⟨h.done_finishes hfin hi hst,fun q => ?_,h.turn_finishes hfin hi hwf hv hturn,fun a ha => ?_,?_⟩
  · rw [hfin.active]
    exact (h.active q).trans (succ_le_succ (hmono q))
  · rw [hfin.applied] at ha
    rcases mem_append.mp ha with ha | ha
    · exact ⟨(h.bound a ha).1,(h.bound a ha).2.trans (hmono a.1)⟩
    · rcases happs with rfl | ⟨c,rfl⟩
      · cases ha
      · rw [mem_singleton.mp ha]
        exact ⟨by change 0 < i; omega,(hfin.next hi).ge⟩
  · rw [hfin.applied]
    rcases happs with rfl | ⟨c,rfl⟩
    · rw [append_nil]
      exact h.order
    refine pairwise_append.mpr ⟨h.order,pairwise_singleton _ _,fun a ha b hb => ?_⟩
    rw [mem_singleton.mp hb]
    exact h.before_next hwf hv hturn hi (h.bound a ha).1 (h.bound a ha).2

end Finishes

end

/-! ### Coroutines -/

structure Retains (v v' : CopilotServer C) : Prop where
  last : ∀ q, v.last q ≤ v'.last q
  active : ∀ q, (v.logInfos q).minActiveSlot ≤ (v'.logInfos q).minActiveSlot
  held : ∀ q j, ¬v'.Freed q j → .committed ≤ (v.ins q j).status →
    .committed ≤ (v'.ins q j).status ∧ (v'.ins q j).depId = (v.ins q j).depId

theorem Retains.refl (v : CopilotServer C) : Retains v v :=
  ⟨fun _ => le_rfl,fun _ => le_rfl,fun _ _ _ h => ⟨h,rfl⟩⟩

theorem Retains.freed (h : Retains v v') {q : Bool} {j : ℕ} (hf : v.Freed q j) : v'.Freed q j :=
  ⟨hf.1.trans_le (h.active q),hf.2⟩

theorem Executes.retains (h : Executes v v') (hlast : ∀ q, v.last q ≤ v'.last q) : Retains v v' where
  last := hlast
  active := h.active
  held q j hf hcom := by
    rcases h.held q j hf with heq | ⟨-,-,hd,-,he⟩
    · rw [heq]
      exact ⟨hcom,rfl⟩
    · exact ⟨he ▸ by decide,hd⟩

def Fits (v : CopilotServer C) (t : Task) : Prop :=
  match t.pc with
  | .entry i | .waitEntry i _ => 0 < i ∧ i ≤ v.last t.isPilot+1
  | .deps i j => 0 < i ∧ i ≤ v.last t.isPilot+1 ∧ 0 < j ∧ j ≤ v.last (!t.isPilot)+1 ∧
      (¬v.Freed t.isPilot i → .committed ≤ (v.ins t.isPilot i).status)
  | .waitDep i j => 0 < i ∧ i ≤ v.last t.isPilot+1 ∧ 0 < j ∧ j ≤ v.last (!t.isPilot)+1 ∧
      (¬v.Freed t.isPilot i → .committed ≤ (v.ins t.isPilot i).status ∧
        j ≤ (v.ins t.isPilot i).depId)

def Woken (v : CopilotServer C) (t : Task) : Prop :=
  match t.pc with
  | .waitEntry i _ => ¬v.Freed t.isPilot i → .committed ≤ (v.ins t.isPilot i).status
  | .waitDep _ j => ¬v.Freed (!t.isPilot) j → .committed ≤ (v.ins (!t.isPilot) j).status
  | _ => True

theorem Fits.mono {t : Task} (h : Fits v t) (hr : Retains v v') : Fits v' t := by
  obtain ⟨p,slot,pc⟩ := t
  have hp := hr.last p
  have hq := hr.last (!p)
  cases pc with
  | entry i | waitEntry i dep =>
    obtain ⟨h₁,h₂⟩ := h
    exact ⟨h₁,h₂.trans (succ_le_succ hp)⟩
  | deps i j =>
    obtain ⟨h₁,h₂,h₃,h₄,h₅⟩ := h
    exact ⟨h₁,h₂.trans (succ_le_succ hp),h₃,h₄.trans (succ_le_succ hq),
      fun hf => (hr.held p i hf (h₅ fun hfr => hf (hr.freed hfr))).1⟩
  | waitDep i j =>
    obtain ⟨h₁,h₂,h₃,h₄,h₅⟩ := h
    refine ⟨h₁,h₂.trans (succ_le_succ hp),h₃,h₄.trans (succ_le_succ hq),fun hf => ?_⟩
    obtain ⟨hcom,hj⟩ := h₅ fun hfr => hf (hr.freed hfr)
    obtain ⟨hcom',hd⟩ := hr.held p i hf hcom
    exact ⟨hcom',hj.trans hd.ge⟩

theorem Woken.mono {t : Task} (h : Woken v t) (hr : Retains v v') : Woken v' t := by
  obtain ⟨p,slot,pc⟩ := t
  cases pc with
  | entry | deps => trivial
  | waitEntry i dep => exact fun hf => (hr.held p i hf (h fun hfr => hf (hr.freed hfr))).1
  | waitDep i j => exact fun hf => (hr.held (!p) j hf (h fun hfr => hf (hr.freed hfr))).1

/-- The steps of a coroutine after which the entries are executed in their turn: none that another
coroutine has executed meanwhile, each by the dependency it had when it was looked up, and no null
dependency skipped or eliminated before its turn. -/
def Minds (v : CopilotServer C) (committed : Bool) (t : Task) : Prop :=
  match t.pc with
  | .entry i => i ≤ t.slot → (v.ins t.isPilot i).status ≠ .executed →
      ¬v.Freed (!t.isPilot) (v.ins t.isPilot i).depId
  | .waitEntry i dep => ¬v.Freed t.isPilot i ∧ (v.ins t.isPilot i).status ≠ .executed ∧
      dep = (v.ins t.isPilot i).depId
  | .deps i j => ¬v.Freed t.isPilot i ∧ (v.ins t.isPilot i).status ≠ .executed ∧
      (committed = true → .fastAccepted ≤ (v.ins (!t.isPilot) j).status →
        (v.ins (!t.isPilot) j).status ≠ .executed →
        .committed ≤ (v.ins (!t.isPilot) j).status ∧
          (v.ins (!t.isPilot) j).depId ≤ (v.logInfos t.isPilot).maxExecutedSlot)
  | .waitDep i _ => ¬v.Freed t.isPilot i ∧ (v.ins t.isPilot i).status ≠ .executed

structure Progress (s : Cluster C) (v v' : CopilotServer C) : Prop where
  ranked : s.Ranked v'
  executes : Executes v v'
  retains : Retains v v'

theorem Executes.trans (h : Executes v v') (h' : Executes v' v'') : Executes v v'' where
  active q := (h.active q).trans (h'.active q)
  seen q := (h'.seen q).trans (h.seen q)
  held q j hf := by
    rcases h'.held q j hf with heq' | ⟨hcom',hb',hd',hc',he'⟩
    · rw [heq']
      exact h.held q j fun hfr => hf (h'.freed hfr)
    · rcases h.held q j (fun hfr => hf (h'.freed hfr)) with heq | ⟨hcom,hb,hd,hc,-⟩
      · rw [heq] at hcom' hb' hd' hc'
        exact .inr ⟨hcom',hb',hd',hc',he'⟩
      · exact .inr ⟨hcom,hb'.trans hb,hd'.trans hd,hc'.trans hc,he'⟩

theorem Progress.trans (h : s.Progress v v') (h' : s.Progress v' v'') : s.Progress v v'' :=
  ⟨h'.ranked,h.executes.trans h'.executes,(h.executes.trans h'.executes).retains
    fun q => (h.retains.last q).trans (h'.retains.last q)⟩

def Lands (v : CopilotServer C) (t : Task) : Next → Prop
  | .run pc => Fits v {t with pc := pc} ∧ Woken v {t with pc := pc}
  | .wait pc => Fits v {t with pc := pc}
  | .finished => True

/-- A committed entry that is not behind the next one to execute. -/
structure Pending (v : CopilotServer C) (p : Bool) (i : ℕ) : Prop where
  pos : 0 < i
  le : i ≤ v.last p+1
  active : ¬v.Freed p i
  committed : .committed ≤ (v.ins p i).status
  fresh : (v.ins p i).status ≠ .executed

section Iteration

variable {d j : ℕ} {c : Command C} {committed : Bool} {t : Task} {nx : Next}

theorem turn_of_settled (h : s.Settled p i d) (hle : d ≤ v.last (!p)) : s.Turn v p i := by
  cases p with
  | false => exact ⟨d,hle,h⟩
  | true => exact ⟨d,h,.inl hle⟩

def Knows (s : Cluster C) (r : ℕ) (v : CopilotServer C) : Prop :=
  ∀ p i, i ≠ 0 → ¬v.Freed p i → s.Stores p i r (v.ins p i)

theorem Knows.executes (h : s.Knows r v) (hex : Executes v v') : s.Knows r v' := by
  intro p i hi hf
  have hst := h p i hi fun hfr => hf (hex.freed hfr)
  rcases hex.held p i hf with heq | ⟨hcom,hb,hd,hc,he⟩
  · rwa [heq]
  · exact hst.executed hcom hb hd hc he

theorem Ranked.turn_of_cycle (h : s.Ranked v) (hk : s.Knows r v) (hi : 0 < i)
    (hs : s.Settled true i d) (hf : ¬v.Freed false j) (hj : 0 < j) (hle : j ≤ v.last false+1)
    (hcyc : i ≤ (v.ins false j).depId) : s.Turn v true i := by
  have hst := hk false j hj.ne' hf
  refine ⟨d,hs,.inr ?_⟩
  rcases hle.eq_or_lt with rfl | hlt
  · have hfast : Status.fastAccepted ≤ (v.ins false (v.last false+1)).status := by
      by_contra hlow
      have hzero := hst.low (by
        generalize (v.ins false (v.last false+1)).status = st at hlow
        cases st <;> first | rfl | exact absurd (by decide) hlow)
      omega
    obtain ⟨x,hx,hle,-⟩ := hst.owner hfast
    exact .inl ⟨x,hx,hcyc.trans hle⟩
  · have hex := (h.done false j hf).mpr (by omega)
    exact .inr ⟨j,_,hj,by omega,hst.settled (hex ▸ by decide),hcyc⟩

theorem Stores.not_noop (hwf : s.Wf n) {d : CopilotData C} (h : s.Stores p i r d)
    (hst : .fastAccepted ≤ d.status) : d.isNoop = false := by
  obtain ⟨x,⟨c,hc,-⟩,-,hcmd⟩ := h.owner hst
  obtain ⟨-,-,-,-,-,a,ha⟩ := hwf.coord c x hc
  unfold isNoop
  rw [hcmd,ha]

theorem executes_alike (h : v.Alike v') : Executes v v' :=
  ⟨fun q => (h.same q).minActive.ge,h.seen,fun q j _ => .inl (h.ins q j)⟩

theorem Ranked.progress_alike (h : s.Ranked v) (ha : v.Alike v') : s.Progress v v' :=
  ⟨h.alike ha,executes_alike ha,(executes_alike ha).retains fun q => (ha.same q).maxExecuted.ge⟩

variable (hwf : s.Wf n) (hv : s.Votes n)
include hwf hv

theorem Ranked.progress {d : CopilotData C} {apps : List (Bool × ℕ × C)} (h : s.Ranked v)
    (hfin : v.Finishes v' p i d apps) (hp : Pending v p i) (hturn : s.Turn v p i)
    (hb : d.ballot = (v.ins p i).ballot) (hd : d.depId = (v.ins p i).depId)
    (hc : d.cmd = (v.ins p i).cmd) (hst : d.status = .executed)
    (happs : apps = [] ∨ ∃ c, apps = [(p,i,c)]) :
    s.Progress v v' ∧ v'.last p = i ∧ v'.last (!p) = v.last (!p) := by
  have hi : i = v.last p+1 := by
    have := (h.done p i hp.active).not.mp hp.fresh
    have := hp.le
    omega
  have hlast : v'.last p = i := hfin.next hi
  have hother : v'.last (!p) = v.last (!p) := hfin.other
  have hex : Executes v v' := by
    refine ⟨fun q => (hfin.active q).ge,hfin.seen,fun q j _ => ?_⟩
    rw [hfin.ins]
    split_ifs with hq
    · obtain ⟨rfl,rfl⟩ := hq
      exact .inr ⟨hp.committed,hb,hd,hc,hst⟩
    · exact .inl rfl
  refine ⟨⟨h.finishes hfin hi hwf hv hst hturn happs,hex,hex.retains fun q => ?_⟩,hlast,hother⟩
  by_cases hq : q = p
  · subst hq
    omega
  · rw [eq_not_of_ne hq,hother]

theorem Ranked.execute (h : s.Ranked v)
    (hfin : v.Finishes v' p i (v.ins p i).execute (apps p i c)) (hp : Pending v p i)
    (hturn : s.Turn v p i) : s.Progress v v' ∧ v'.last p = i ∧ v'.last (!p) = v.last (!p) := by
  refine h.progress hwf hv hfin hp hturn rfl rfl rfl rfl ?_
  cases c with
  | noop => exact .inl rfl
  | op c => exact .inr ⟨c,rfl⟩

theorem Ranked.eliminate (h : s.Ranked v) (hk : s.Knows r v)
    (hfin : v.Finishes v' p i (v.ins p i).eliminate []) (hi : 0 < i) (hf : ¬v.Freed p i)
    (hle : i ≤ v.last p+1) (hfast : .fastAccepted ≤ (v.ins p i).status)
    (hne : (v.ins p i).status ≠ .executed) (hcase : committed = true ∨ (v.ins p i).isNoop = true)
    (hok : committed = true → .fastAccepted ≤ (v.ins p i).status →
      (v.ins p i).status ≠ .executed → .committed ≤ (v.ins p i).status ∧
        (v.ins p i).depId ≤ v.last (!p)) :
    s.Progress v v' ∧ v'.last p = i ∧ v'.last (!p) = v.last (!p) := by
  have hst := hk p i hi.ne' hf
  have hcommitted : committed = true := by
    refine hcase.resolve_right fun hno => ?_
    rw [hst.not_noop hwf hfast] at hno
    cases hno
  obtain ⟨hcom,hd⟩ := hok hcommitted hfast hne
  exact h.progress hwf hv hfin ⟨hi,hle,hf,hcom,hne⟩ (turn_of_settled (hst.settled hcom) hd) rfl rfl
    rfl rfl (.inl rfl)

omit hwf hv in
theorem fits_deps (hr : Retains v v') (hi : 0 < i) (hle : i ≤ v.last t.isPilot+1)
    (hcom : ¬v.Freed t.isPilot i → .committed ≤ (v.ins t.isPilot i).status)
    (hj : j ≤ v'.last (!t.isPilot)) : Fits v' {t with pc := .deps i (j+1)} :=
  ⟨hi,hle.trans (succ_le_succ (hr.last _)),succ_pos j,succ_le_succ hj,
    fun hf => (hr.held _ _ hf (hcom fun hfr => hf (hr.freed hfr))).1⟩

omit hwf hv in
theorem Pending.fits (h : Pending v t.isPilot i) (hr : Retains v v') (hj : j ≤ v'.last (!t.isPilot)) :
    Fits v' {t with pc := .deps i (j+1)} :=
  fits_deps hr h.pos h.le (fun _ => h.committed) hj

theorem Ranked.runsEntry {dep : ℕ} (h : s.Ranked v) (hk : s.Knows r v) (hi : 0 < i)
    (hle : i ≤ v.last t.isPilot+1) (hne : (v.ins t.isPilot i).status ≠ .executed)
    (hcom : ¬v.Freed t.isPilot i → .committed ≤ (v.ins t.isPilot i).status)
    (hdep : dep = (v.ins t.isPilot i).depId) (hrun : v.RunsEntry t.isPilot i dep v' nx) :
    s.Progress v v' ∧ Lands v' t nx := by
  cases hrun with
  | executed hf hc hcase hfin =>
    have hst := hk _ i hi.ne' hf
    have hfast : Status.fastAccepted ≤ (v.ins t.isPilot i).status :=
      (show Status.fastAccepted ≤ .committed by decide).trans (hcom hf)
    have hd : (v.ins t.isPilot i).depId ≤ v.last (!t.isPilot) := by
      rcases hcase with hzero | hno | hfr | hex
      · omega
      · rw [hst.not_noop hwf hfast] at hno
        cases hno
      · exact hdep ▸ h.freed_le hfr
      · by_cases hfr : v.Freed (!t.isPilot) dep
        · exact hdep ▸ h.freed_le hfr
        · exact hdep ▸ (h.done _ dep hfr).mp hex
    obtain ⟨hprog,hlast,-⟩ := h.execute hwf hv hfin ⟨hi,hle,hf,hcom hf,hne⟩
      (turn_of_settled (hst.settled (hcom hf)) hd)
    exact ⟨hprog,⟨succ_pos i,succ_le_succ hlast.ge⟩,trivial⟩
  | turned hs =>
    have hprog := h.progress_alike hs
    exact ⟨hprog,fits_deps hprog.retains hi hle hcom (hprog.retains.last _),trivial⟩

theorem Ranked.breaks (h : s.Ranked v) (hk : s.Knows r v) (hp : t.isPilot = true)
    (hfin : v.Finishes v' t.isPilot i (v.ins t.isPilot i).execute (apps t.isPilot i c))
    (hi : Pending v t.isPilot i) (hj : 0 < j) (hle : j ≤ v.last (!t.isPilot)+1)
    (hf : ¬v.Freed (!t.isPilot) j) (hcyc : i ≤ (v.ins (!t.isPilot) j).depId) :
    s.Progress v v' ∧ Lands v' t (.run (.entry (i+1))) := by
  have hset := (hk _ i hi.pos.ne' hi.active).settled hi.committed
  have hturn : s.Turn v t.isPilot i := by
    rw [hp] at hset hle hf hcyc ⊢
    exact h.turn_of_cycle hk hi.pos hset hf hj hle hcyc
  obtain ⟨hprog,hlast,-⟩ := h.execute hwf hv hfin hi hturn
  exact ⟨hprog,⟨succ_pos i,succ_le_succ hlast.ge⟩,trivial⟩

theorem Ranked.runsDep (h : s.Ranked v) (hk : s.Knows r v) (hi : Pending v t.isPilot i)
    (hj : 0 < j) (hjle : j ≤ v.last (!t.isPilot)+1) (hjd : j ≤ (v.ins t.isPilot i).depId)
    (hcomj : ¬v.Freed (!t.isPilot) j → .committed ≤ (v.ins (!t.isPilot) j).status)
    (hrun : v.RunsDep t.isPilot i j v' nx) : s.Progress v v' ∧ Lands v' t nx := by
  cases hrun with
  | passed hfj hst hs =>
    have hprog := h.progress_alike hs
    have hjl := (h.done _ j hfj).mp hst
    exact ⟨hprog,hi.fits hprog.retains (hjl.trans (hprog.retains.last _)),trivial⟩
  | cycled hfj hcyc hp hc hfin => exact h.breaks hwf hv hk hp hfin hi hj hjle hfj hcyc
  | executed hfj hst hcyc hc hfin =>
    have hstj := hk _ j hj.ne' hfj
    have hset := hstj.settled (hcomj hfj)
    have hturn : s.Turn v (!t.isPilot) j := by
      rcases hcyc with hzero | hno | hlt | hp
      · exact turn_of_settled (hzero ▸ hset) (Nat.zero_le _)
      · rw [hstj.not_noop hwf ((show Status.fastAccepted ≤ .committed by decide).trans
          (hcomj hfj))] at hno
        cases hno
      · refine turn_of_settled hset ?_
        rw [Bool.not_not]
        have := hi.le
        omega
      · -- the copilot executes the pilot's entry first
        rw [hp] at hset hi hjd ⊢
        exact h.turn_of_cycle hk hj hset hi.active hi.pos hi.le hjd
    obtain ⟨hprog,hlast,-⟩ := h.execute hwf hv hfin ⟨hj,hjle,hfj,hcomj hfj,hst⟩ hturn
    exact ⟨hprog,hi.fits hprog.retains hlast.ge,trivial⟩

omit hwf hv in
theorem Ranked.frees {l : CopilotLogInfo C} (h : s.Ranked v)
    (hpos : ∀ q, 0 < (v.logInfos q).minActiveSlot)
    (hl : CopilotLogInfo.freeLoop (v.logInfos p).maxExecutedSlot (v.logInfos p) = some l) :
    s.Progress v (v.setLog p l) := by
  obtain ⟨hle,hup,hmax,hcur,hins⟩ := freeLoop_spec hl (hpos p)
  have hlog : ∀ q, (v.setLog p l).logInfos q = l ∧ q = p ∨
      (v.setLog p l).logInfos q = v.logInfos q := by
    intro q
    by_cases hq : q = p
    · subst hq
      exact .inl ⟨Function.update_self _ _ _,rfl⟩
    · exact .inr (Function.update_of_ne hq _ _)
  have hlast : ∀ q, (v.setLog p l).last q = v.last q := by
    intro q
    unfold last
    rcases hlog q with ⟨hq,rfl⟩ | hq
    · rw [hq,hmax]
    · rw [hq]
  have hsame : ∀ q j, ¬(v.setLog p l).Freed q j → (v.setLog p l).ins q j = v.ins q j := by
    intro q j hf
    unfold CopilotServer.Freed at hf
    unfold ins
    rcases hlog q with ⟨hq,rfl⟩ | hq
    · rw [hq] at hf ⊢
      exact hins j hf
    · rw [hq]
  have hactive : ∀ q, (v.logInfos q).minActiveSlot ≤ ((v.setLog p l).logInfos q).minActiveSlot := by
    intro q
    rcases hlog q with ⟨hq,rfl⟩ | hq
    · rwa [hq]
    · rw [hq]
  have hex : Executes v (v.setLog p l) := by
    refine ⟨hactive,fun q => ?_,fun q j hf => .inl (hsame q j hf)⟩
    rcases hlog q with ⟨hq,rfl⟩ | hq
    · rw [hq,hcur]
    · rw [hq]
  refine ⟨h.congr hlast (fun q => ⟨hactive q,?_⟩) (fun q j hf => by rw [hsame q j hf]) rfl,hex,
    hex.retains fun q => (hlast q).ge⟩
  have hq' := h.active q
  rcases hlog q with ⟨hq,rfl⟩ | hq
  · rw [hq]
    unfold last at hq' ⊢
    omega
  · rw [hq]
    exact hq'

theorem Ranked.iteration (h : s.Ranked v) (hk : s.Knows r v)
    (hpos : ∀ q, 0 < (v.logInfos q).minActiveSlot) (hfits : Fits v t) (hwoken : Woken v t)
    (hok : Minds v committed t) (hit : v.Iteration t.isPilot t.slot committed t.pc v' nx) :
    s.Progress v v' ∧ Lands v' t nx := by
  unfold Fits at hfits
  unfold Woken at hwoken
  unfold Minds at hok
  generalize hpc : t.pc = pc at hit
  rw [hpc] at hfits hwoken hok
  cases hit with
  | freed hi hl => exact ⟨h.frees hpos hl,trivial⟩
  | @passed i _ hi hf hpass hs =>
    have hprog := h.progress_alike hs
    have hex : (v.ins t.isPilot i).status = .executed := by
      by_contra hne
      exact hok hi hne (hpass.resolve_right hne)
    have hil := (h.done _ i hf).mp hex
    exact ⟨hprog,⟨succ_pos i,succ_le_succ (hil.trans (hprog.retains.last _))⟩,trivial⟩
  | waits hi hs =>
    have hprog := h.progress_alike hs
    exact ⟨hprog,hfits.1,hfits.2.trans (succ_le_succ (hprog.retains.last _))⟩
  | @entered i _ _ hi hst hcom hrun =>
    refine h.runsEntry hwf hv hk hfits.1 hfits.2 hst (fun hf => ?_) rfl hrun
    exact hcom.elim id (hk _ i hfits.1.ne' hf).event
  | resumed hrun => exact h.runsEntry hwf hv hk hfits.1 hfits.2 hok.2.1 hwoken hok.2.2 hrun
  | @completed i j _ c hj hc hfin =>
    obtain ⟨hi,hle,hj0,hjle,hcom⟩ := hfits
    obtain ⟨hf,hne,-⟩ := hok
    have hst := hk _ i hi.ne' hf
    obtain ⟨hprog,hlast,-⟩ := h.execute hwf hv hfin ⟨hi,hle,hf,hcom hf,hne⟩
      (turn_of_settled (hst.settled (hcom hf)) (by omega))
    exact ⟨hprog,⟨succ_pos i,succ_le_succ hlast.ge⟩,trivial⟩
  | broken hfj hcyc hp hc hfin =>
    obtain ⟨hi,hle,hj0,hjle,hcom⟩ := hfits
    exact h.breaks hwf hv hk hp hfin ⟨hi,hle,hok.1,hcom hok.1,hok.2.1⟩ hj0 hjle hfj hcyc
  | @eliminated i j _ hj hfj hst =>
    obtain ⟨hi,hle,hj0,hjle,hcom⟩ := hfits
    rcases hst with ⟨hs,hex⟩ | ⟨hfast,hne,-,hcase,hfin⟩
    · have hprog := h.progress_alike hs
      have hjl := (h.done _ j hfj).mp hex
      exact ⟨hprog,fits_deps hprog.retains hi hle hcom (hjl.trans (hprog.retains.last _)),trivial⟩
    · obtain ⟨hprog,hlast,-⟩ := h.eliminate hwf hv hk hfin hj0 hfj hjle hfast hne hcase
        (by rw [Bool.not_not]; exact hok.2.2)
      exact ⟨hprog,fits_deps hprog.retains hi hle hcom hlast.ge,trivial⟩
  | @blocked i j _ hj hs =>
    obtain ⟨hi,hle,hj0,hjle,hcom⟩ := hfits
    have hprog := h.progress_alike hs
    refine ⟨hprog,hi,hle.trans (succ_le_succ (hprog.retains.last _)),hj0,
      hjle.trans (succ_le_succ (hprog.retains.last (!t.isPilot))),fun hf => ?_⟩
    rw [hs.ins]
    exact ⟨hcom fun hfr => hf (hprog.retains.freed hfr),hj⟩
  | @proceeded i j _ _ hj hevt hrun =>
    obtain ⟨hi,hle,hj0,hjle,hcom⟩ := hfits
    exact h.runsDep hwf hv hk ⟨hi,hle,hok.1,hcom hok.1,hok.2.1⟩ hj0 hjle hj
      (fun hfj => (hk _ j hj0.ne' hfj).event hevt) hrun
  | woken hrun =>
    obtain ⟨hi,hle,hj0,hjle,hcom⟩ := hfits
    obtain ⟨hcom',hjd⟩ := hcom hok.1
    exact h.runsDep hwf hv hk ⟨hi,hle,hok.1,hcom',hok.2⟩ hj0 hjle hjd hwoken hrun

theorem Ranked.allDepsEliminated {committed : ℕ → Bool} {k : ℕ} {b : Bool} (h : s.Ranked v)
    (hk : s.Knows r v) (hi : 0 < i) (hle : i ≤ v.last p+1)
    (hok : ∀ a, i ≤ a → a < i+k → committed a = true → .fastAccepted ≤ (v.ins p a).status →
      (v.ins p a).status ≠ .executed →
      .committed ≤ (v.ins p a).status ∧ (v.ins p a).depId ≤ v.last (!p))
    (hel : allDepsEliminated p committed k i v = some (v',b)) : s.Progress v v' := by
  induction k generalizing i v with
  | zero =>
    cases hel
    exact h.progress_alike (.refl _)
  | succ k ih =>
    unfold allDepsEliminated at hel
    rcases v.getInstance_cases p i with ⟨hf,hget⟩ | ⟨hf,l,hget,hs⟩
    · rw [hget] at hel
      cases hel
    rw [hget] at hel
    dsimp only at hel
    generalize v.setLog p l = v₁ at hel hs
    -- what one entry comes to
    have hone : ∀ {v₂ b}, v₁.eliminateNullDep p i (committed i) = some (v₂,b) →
        v.Alike v₂ ∧ (b = true → (v.ins p i).status = .executed) ∨
          s.Progress v v₂ ∧ v₂.last p = i ∧ v₂.last (!p) = v.last (!p) ∧
            ∀ a, a ≠ i → v₂.ins p a = v.ins p a := by
      intro v₂ b hel
      rcases eliminateNullDep_spec hel with ⟨rfl,hb⟩ | ⟨-,hfast,hne,-,hcase,hfin⟩
      · exact .inl ⟨hs,fun hb' => hs.ins p i ▸ hb hb'⟩
      · rw [hs.ins] at hfast hne hcase hfin
        have hfin' := hs.finishes hfin
        obtain ⟨hprog,hlast,hother⟩ := h.eliminate hwf hv hk hfin' hi hf hle hfast hne hcase
          (hok i le_rfl (by omega))
        refine .inr ⟨hprog,hlast,hother,fun a ha => ?_⟩
        rw [hfin'.ins,if_neg fun hh => ha hh.2]
    split at hel
    · cases hel
    next v₂ hel₂ =>
      rcases hone hel₂ with ⟨hs₂,hex⟩ | ⟨hprog,hlast,hother,hins⟩
      · have hprog := h.progress_alike hs₂
        have hil := (h.done p i hf).mp (hex rfl)
        have hlast : ∀ q, v₂.last q = v.last q := fun q => (hs₂.same q).maxExecuted
        refine hprog.trans (ih hprog.ranked (hk.executes hprog.executes) (succ_pos i)
          (by rw [hlast]; omega) (fun a ha hlt => ?_) hel)
        rw [hs₂.ins,hlast]
        exact hok a (by omega) (by omega)
      · refine hprog.trans (ih hprog.ranked (hk.executes hprog.executes) (succ_pos i)
          (by omega) (fun a ha hlt => ?_) hel)
        rw [hins a (by omega),hother]
        exact hok a (by omega) (by omega)
    next v₂ hel₂ =>
      cases hel
      rcases hone hel₂ with ⟨hs₂,-⟩ | ⟨hprog,-⟩
      · exact h.progress_alike hs₂
      · exact hprog

end Iteration

/-! ### Runs -/

def tasks (s : Cluster C) (r : ℕ) : Option Task × List Task :=
  ((s.replicas r).running,(s.replicas r).waiting)

section Tasks

variable (s) (r : ℕ)

@[simp] theorem tasks_setServer (v : CopilotServer C) (a : ℕ) :
    (s.setServer r v).tasks a = s.tasks a := by
  unfold tasks setServer
  rcases eq_or_ne a r with rfl | hne
  · simp
  · simp [hne]

@[simp] theorem tasks_setMarked (p : Bool) (slot a : ℕ) : (s.setMarked r p slot).tasks a =
    if a = r then (some ⟨p,slot,.entry ((s.server r).last p+1)⟩,(s.tasks r).2) else s.tasks a := by
  unfold tasks setMarked last
  rcases eq_or_ne a r with rfl | hne
  · simp
  · simp [hne]

@[simp] theorem tasks_setTasks (running : Option Task) (waiting : List Task) (a : ℕ) :
    (s.setTasks r running waiting).tasks a = if a = r then (running,waiting) else s.tasks a := by
  unfold tasks setTasks
  rcases eq_or_ne a r with rfl | hne
  · simp
  · simp [hne]

@[simp] theorem tasks_post (e : Cast C) (a : ℕ) : (s.post e).tasks a = s.tasks a := rfl

@[simp] theorem tasks_setReply (k : ℕ) (e : Cast C) (b : ℕ) (ρ : Reply C) (a : ℕ) :
    (s.setReply k e b ρ).tasks a = s.tasks a := rfl

@[simp] theorem tasks_setAnswer (k : ℕ) (e : Cast C) (b a : ℕ) :
    (s.setAnswer k e b).tasks a = s.tasks a := rfl

@[simp] theorem tasks_setCoord (c : ℕ) (x : Coord C) (a : ℕ) :
    (s.setCoord c x).tasks a = s.tasks a := rfl

@[simp] theorem tasks_addCoord (x : Coord C) (a : ℕ) : (s.addCoord x).tasks a = s.tasks a := rfl

end Tasks

def Rests (v : CopilotServer C) (x : Coord C) : Prop :=
  match x.phase with
  | .waiting => x.dep ≤ (v.logInfos !x.isPilot).maxCommittedSlot
  | _ => True

def FailureFree (s : Cluster C) : Action C → Prop
  | .resume c _ => ∀ x ∈ s.coords c, Rests (s.server x.site) x
  | _ => True

/-- A dependency of the coordinator's slot is eliminated only where it could be executed. -/
def Clears (v : CopilotServer C) (x : Coord C) (a : ℕ) : Prop :=
  (v.logInfos !x.isPilot).maxExecutedSlot < a → .fastAccepted ≤ (v.ins (!x.isPilot) a).status →
    (v.ins (!x.isPilot) a).status ≠ .executed → .committed ≤ (v.ins (!x.isPilot) a).status ∧
      (v.ins (!x.isPilot) a).depId ≤ (v.logInfos x.isPilot).maxExecutedSlot

/-- Messages meet what they are compared with, and coroutines and coordinators execute entries only
in their turn. -/
def Orderly (s : Cluster C) : Action C → Prop
  | .receive k r => ∀ e ∈ s.casts k, s.Takes r e
  | .resume c committed => ∀ x ∈ s.coords c, ∀ a ≤ x.dep, committed a = true →
      Clears (s.server x.site) x a
  | .exec r committed => ∀ t ∈ (s.replicas r).running, Minds (s.server r) committed t
  | _ => True

structure Ordered (n : ℕ) (s : Cluster C) : Prop where
  regular : s.Regular n
  votes : s.Votes n
  ranked : ∀ r, s.Ranked (s.server r)
  running : ∀ r, ∀ t ∈ (s.tasks r).1, Fits (s.server r) t ∧ Woken (s.server r) t
  waiting : ∀ r, ∀ t ∈ (s.tasks r).2, Fits (s.server r) t

theorem Ordered.knows (h : s.Ordered n) (r : ℕ) : s.Knows r (s.server r) := h.votes.stores r

theorem Ranked.stores (h : s.Ranked v) (hup : v.Updates v' p i d)
    (hst : ¬v.Freed p i → (v.ins p i).status < .committed ∧ d.status ≠ .executed ∨ d = v.ins p i) :
    s.Ranked v' ∧ Retains v v' := by
  refine ⟨h.updates hup fun hf => ?_,fun q => (hup.same q).maxExecuted.ge,
    fun q => (hup.same q).minActive.ge,fun q j hf hcom => ?_⟩
  · rcases hst hf with ⟨hlow,hne⟩ | rfl
    · exact iff_of_false hne fun he => absurd hlow (he ▸ by decide)
    · exact Iff.rfl
  · by_cases hq : q = p ∧ j = i
    · obtain ⟨rfl,rfl⟩ := hq
      rw [hup.self]
      rcases hst ((hup.freed _ _).not.mp hf) with ⟨hlow,-⟩ | rfl
      · exact absurd hlow hcom.not_gt
      · exact ⟨hcom,rfl⟩
    · rw [hup.other hq]
      exact ⟨hcom,rfl⟩

theorem Ordered.next {a : ℕ} (h : s.Ordered n) (hreg : s'.Regular n) (hv : s'.Votes n)
    (hsus : s.Sustains s') (hserver : ∀ r, s'.server r = if r = a then v else s.server r)
    (hrank : s.Ranked v ∧ Retains (s.server a) v)
    (hrunning : ∀ r, ∀ t ∈ (s'.tasks r).1, t ∈ (s.tasks r).1 ∨ r = a ∧ Fits v t ∧ Woken v t)
    (hwaiting : ∀ r, ∀ t ∈ (s'.tasks r).2, t ∈ (s.tasks r).2 ∨ r = a ∧ Fits v t) : s'.Ordered n := by
  have hall : ∀ r, s'.Ranked (s'.server r) ∧ Retains (s.server r) (s'.server r) := by
    intro r
    rw [hserver]
    split_ifs with hr
    · exact ⟨hrank.1.mono hsus,hr ▸ hrank.2⟩
    · exact ⟨(h.ranked r).mono hsus,.refl _⟩
  refine ⟨hreg,hv,fun r => (hall r).1,fun r t ht => ?_,fun r t ht => ?_⟩
  · rcases hrunning r t ht with ht | ⟨rfl,ht⟩
    · exact ⟨(h.running r t ht).1.mono (hall r).2,(h.running r t ht).2.mono (hall r).2⟩
    · rwa [hserver,if_pos rfl]
  · rcases hwaiting r t ht with ht | ⟨rfl,ht⟩
    · exact (h.waiting r t ht).mono (hall r).2
    · rwa [hserver,if_pos rfl]

theorem Ordered.handled {a : ℕ} (h : s.Ordered n) (hreg : s'.Regular n) (hv : s'.Votes n)
    (hsus : s.Sustains s') (hserver : ∀ r, s'.server r = if r = a then v else s.server r)
    (hrank : s.Ranked v ∧ Retains (s.server a) v) (htasks : ∀ r, s'.tasks r = s.tasks r) :
    s'.Ordered n :=
  h.next hreg hv hsus hserver hrank (fun r _ ht => .inl (htasks r ▸ ht))
    fun r _ ht => .inl (htasks r ▸ ht)

theorem ordered_start (n : ℕ) : (start : Cluster C).Ordered n := by
  have hrep : ∀ {p i site m r ρ}, ¬(start : Cluster C).Replied p i site m r ρ :=
    fun ⟨_,_,h,_⟩ => nomatch h
  have hfast : ∀ {p i r}, ¬(start : Cluster C).FastReplied p i r :=
    fun ⟨_,_,_,_,_,h⟩ => hrep h
  have hins : ∀ r p i, ((start : Cluster C).server r).ins p i =
      if i = 0 then {status := .executed} else {} := by
    intro r p i
    change (CopilotLogInfo.set _ 0 _).ins i = _
    rw [CopilotLogInfo.set_ins]
    rfl
  refine ⟨regular_start n,⟨nofun,?_,?_,fun _ _ _ _ _ _ _ _ h => absurd h hrep,nofun,
    fun _ _ _ h => absurd h hfast,fun r p i hi hf => ?_,
    fun _ _ _ _ _ _ ⟨_,_,_,_,h⟩ => absurd h hrep⟩,fun r => ⟨fun p i _ => ?_,fun p => le_rfl,
    fun p i hpos hi => ?_,nofun,List.Pairwise.nil⟩,nofun,nofun⟩
  · rintro _ _ _ _ ⟨_,_,h,_⟩
    cases h
  · rintro _ _ _ _ _ _ _ ⟨_,_,h,_⟩
    cases h
  · rw [hins,if_neg hi]
    exact ⟨Nat.zero_le _,fun _ => rfl,fun h => absurd h (show ¬Status.fastAccepted ≤ .notAccepted by decide),
      fun h => absurd h (show ¬Status.committed ≤ .notAccepted by decide),nofun,fun h => absurd h hfast⟩
  · rw [hins]
    change _ ↔ i ≤ 0
    split_ifs with hi
    · simp [hi]
    · simp [hi]
  · exact absurd hi (Nat.not_le.mpr hpos)

section Steps

variable (h : s.Ordered n)
variable {c r : ℕ} {committed : ℕ → Bool}
include h

theorem Ordered.submit {site : ℕ} {a : C} (hst : Stepped n s (.submit site a) s') :
    s'.Ordered n := by
  have hreg' := h.regular.step hst
  have hv' := h.votes.submit h.regular hst
  cases hst with
  | @submit _ _ sug v hsite hpilot hrun hf hv hseen =>
    refine h.handled hreg' hv' (h.regular.wf.sustains_new (coords_addCoord _ _))
      (fun r => by simp [postLocal]) ((h.ranked site).stores hv fun hf => ?_)
      fun r => by simp [postLocal]
    obtain ⟨-,hlow,-⟩ := (h.regular.sound site).unseen _ _ hf (lt_succ_self _)
    refine .inl ⟨hlow ▸ by decide,?_⟩
    unfold fastAccept
    split_ifs <;> simp [hlow]

theorem Ordered.receive {k : ℕ} (hok : ∀ e ∈ s.casts k, s.Takes r e)
    (hst : Stepped n s (.receive k r) s') : s'.Ordered n := by
  have hreg' := h.regular.step hst
  have hv' := h.votes.receive h.regular hok hst
  cases hst with
  | @receive _ _ e _ hk hr hnew hrun hst =>
  have hadm : s.Takes r e := hok e hk
  obtain ⟨-,hprep⟩ := h.votes.owner _ _ _ _ ⟨k,e,hk,rfl,rfl,rfl,rfl⟩
  -- what is the same for all messages
  have hnext : ∀ {v : CopilotServer C} {d : CopilotData C} {ρ : Reply C},
      ((s.setServer r v).setReply k e r ρ).Regular n → ((s.setServer r v).setReply k e r ρ).Votes n →
      (s.server r).Updates v e.isPilot e.slot d →
      (¬(s.server r).Freed e.isPilot e.slot →
        ((s.server r).ins e.isPilot e.slot).status < .committed ∧ d.status ≠ .executed ∨
          d = (s.server r).ins e.isPilot e.slot) →
      ((s.setServer r v).setReply k e r ρ).Ordered n :=
    fun hreg' hv' hup hst => h.handled hreg' hv' (sustains_same rfl) (fun a => by simp)
      ((h.ranked r).stores hup hst) fun a => by simp
  unfold Takes at hadm
  cases hst with
  | @fastAccept b d cmd sug v hmsg hf hsug hup hseen =>
    rw [hmsg] at hadm
    refine hnext hreg' hv' hup fun _ => ?_
    have hlow := hadm.1.trans (show Status.accepted < .committed by decide)
    unfold fastAccept
    split_ifs
    · exact .inl ⟨hlow,nofun⟩
    · exact .inl ⟨hlow,nofun⟩
    · exact .inr rfl
  | @accept b d cmd v hmsg hf hup hseen =>
    rw [hmsg] at hadm
    refine hnext hreg' hv' hup fun _ => ?_
    unfold accept
    split_ifs
    · exact .inl ⟨hadm,nofun⟩
    · exact .inr rfl
  | prepare hmsg | prepareFreed hmsg => exact absurd hmsg (hprep _)
  | @commit d cmd v hmsg hf hlow hup hseen =>
    refine h.next hreg' hv' (sustains_same rfl) (fun a => by simp)
      ((h.ranked r).stores hup fun _ => .inl ⟨hlow,nofun⟩) (fun a t ht => ?_) fun a t ht => ?_
    · simp only [tasks_setMarked,tasks_setReply,tasks_setServer,server_setReply,server_setServer] at ht
      split_ifs at ht with ha
      · cases ht
        exact .inr ⟨ha,⟨succ_pos _,by simp⟩,trivial⟩
      · exact .inl ht
    · simp only [tasks_setMarked,tasks_setReply,tasks_setServer] at ht
      split_ifs at ht with ha
      · exact .inl (ha ▸ ht)
      · exact .inl ht
  | commitKnown hmsg hup hseen => exact hnext hreg' hv' hup fun _ => .inr rfl

theorem Ordered.eliminates {x : Coord C} (hok : s.Orderly (.resume c committed))
    (hx : s.coords c = some x) (hel : Eliminates (s.server x.site) x committed v) :
    s.Progress (s.server x.site) v := by
  have hrank := h.ranked x.site
  rcases hel with hs | ⟨v₁,b,hs,hel⟩
  · exact hrank.progress_alike hs
  · have hprog := hrank.progress_alike hs
    have hlast : ∀ q, v₁.last q = (s.server x.site).last q := fun q => (hs.same q).maxExecuted
    refine hprog.trans (hprog.ranked.allDepsEliminated h.regular.wf h.votes
      ((h.knows x.site).executes hprog.executes) (succ_pos _) ?_ (fun a hlo hhi => ?_) hel)
    · rw [hlast]
      exact le_rfl
    · rw [hs.ins,hlast,Bool.not_not]
      exact fun hcom => hok x hx a (by omega) hcom (by omega)

theorem Ordered.resume (hfree : s.FailureFree (.resume c committed))
    (hok : s.Orderly (.resume c committed)) (hst : Stepped n s (.resume c committed) s') :
    s'.Ordered n := by
  have hreg' := h.regular.step hst
  cases hst with
  | @resume _ x _ _ hx hrun hst =>
  have hcalm := h.votes.calm c x hx
  unfold Coord.Calm at hcalm
  have hwf := h.regular.wf
  cases hst with
  | @commits k e v ph hk hph hv hdone =>
    have hprog := h.eliminates hok hx hv
    have hpast := Coord.past_of_done hdone
    exact h.handled hreg' (h.votes.commits hwf hx hk hph hprog.executes hdone hreg'.wf)
      (sustains_evolves hx (x.evolves_past hpast) le_rfl (coords_setCoord _ c _)) (fun r => by simp)
      ⟨hprog.ranked,hprog.retains⟩ fun r => by simp
  | @accepts k e v b hk hph hyes hno hlen hv =>
    obtain ⟨hf,hup,-⟩ := onAccept_spec hv
    refine h.handled hreg' (h.votes.accepts h.regular hx hk hph hlen hv hreg'.wf)
      (h.votes.sustains_accept hwf hx hk hph hlen (coords_setCoord _ c _))
      (fun r => by simp [postLocal]) ((h.ranked x.site).stores hup fun hf => ?_)
      fun r => by simp [postLocal]
    unfold accept
    split_ifs
    · exact .inl ⟨h.votes.proposing_low hwf hx ⟨k,hph⟩ hf,by simp⟩
    · exact .inr rfl
  | @quiet v ph hph hv hnext hwait =>
    have hphase : x.phase = .waiting := by
      rcases hph with hph | ⟨i,hph⟩ | ⟨i,b,k,hph⟩
      · exact hph
      · simp [hph] at hcalm
      · simp [hph] at hcalm
    have hcom := hfree x hx
    unfold Rests at hcom
    rw [hphase] at hcom
    obtain ⟨rfl,hdone⟩ := hwait hphase
    obtain rfl := hdone hcom
    have hcoords := coords_setCoord (s.setServer x.site (s.server x.site)) c {x with phase := .done}
    have hsus := sustains_evolves hx (x.evolves_past (Coord.past_of_done (.inl rfl))) le_rfl hcoords
    have hadd : s.Adds ((s.setServer x.site (s.server x.site)).setCoord c {x with phase := .done})
      none none := adds_same rfl
    refine h.handled (a:=x.site) (v:=s.server x.site) hreg' (h.votes.still hwf hreg'.wf hadd hsus
      (fun a y hy => ?_) (fun a y hy hprop => ?_) fun r => ?_) hsus (fun r => by simp)
      ⟨h.ranked _,.refl _⟩ fun r => by simp
    · rcases update_some hcoords hy with rfl | hy
      · exact .inr (.inr (.inr rfl))
      · exact h.votes.calm a y hy
    · rcases update_some hcoords hy with rfl | hy
      · exact Voted.mono (h.votes.voted c x hx (by simp [Coord.Proposing,hphase])) hadd.ext
      · exact (h.votes.voted a y hy hprop).mono hadd.ext
    · rw [setServer_self]
      exact executes_alike (.refl _)
  | prepares hph =>
    rcases hph with ⟨hph,-⟩ | ⟨k,hph⟩
    · simp [hph] at hcalm
    · simp [hph] at hcalm
  | acceptsTaken hk hph =>
    simp [hph] at hcalm
  | commitsTaken hk hph =>
    rcases hph with ⟨hph,-⟩ | ⟨b,hph,-⟩
    · simp [hph] at hcalm
    · simp [hph] at hcalm

theorem Ordered.votes_tasks {running : Option Task} {waiting : List Task}
    (hreg : ((s.setServer r v).setTasks r running waiting).Regular n)
    (hex : Executes (s.server r) v) : ((s.setServer r v).setTasks r running waiting).Votes n := by
  have hadd : s.Adds ((s.setServer r v).setTasks r running waiting) none none := adds_same rfl
  refine h.votes.still h.regular.wf hreg.wf hadd (sustains_same rfl) h.votes.calm
    (fun c x hx hprop => (h.votes.voted c x hx hprop).mono hadd.ext) fun a => ?_
  rw [server_setTasks,server_setServer]
  split_ifs with ha
  · exact ha ▸ hex
  · exact executes_alike (.refl _)

theorem Ordered.exec {committed : Bool} (hok : s.Orderly (.exec r committed))
    (hst : Stepped n s (.exec r committed) s') : s'.Ordered n := by
  have hreg' := h.regular.step hst
  cases hst with
  | @exec _ t _ v nx running waiting hrun hit hnext =>
    obtain ⟨hfits,hwoken⟩ := h.running r t hrun
    obtain ⟨hprog,hlands⟩ := (h.ranked r).iteration h.regular.wf h.votes (h.knows r)
      (h.regular.sound r).active hfits hwoken (hok t hrun) hit
    refine h.next hreg' (h.votes_tasks hreg' hprog.executes) (sustains_same rfl) (fun a => by simp)
      ⟨hprog.ranked,hprog.retains⟩ (fun a t' ht => ?_) fun a t' ht => ?_
    · simp only [tasks_setTasks,tasks_setServer] at ht
      split_ifs at ht with ha
      · rcases hnext with ⟨rfl,-⟩ | ⟨pc,rfl,-,rfl⟩
        · cases ht
        · cases ht
          exact .inr ⟨ha,hlands⟩
      · exact .inl ht
    · simp only [tasks_setTasks,tasks_setServer] at ht
      split_ifs at ht with ha
      · subst ha
        rcases hnext with ⟨-,⟨rfl,-⟩ | ⟨pc,rfl,rfl⟩⟩ | ⟨pc,-,rfl,-⟩
        · exact .inl ht
        · rcases mem_append.mp ht with ht | ht
          · exact .inl ht
          · rw [mem_singleton.mp ht]
            exact .inr ⟨rfl,hlands⟩
        · exact .inl ht
      · exact .inl ht

theorem Ordered.wake {m : ℕ} (hst : Stepped n s (.wake r m) s') : s'.Ordered n := by
  have hreg' := h.regular.step hst
  cases hst with
  | @wake _ _ t hm hrun hawake =>
    have hmem : t ∈ (s.tasks r).2 := mem_of_getElem? hm
    have hfits := h.waiting r t hmem
    have hwoken : Woken (s.server r) t := by
      obtain ⟨p,slot,pc⟩ := t
      cases pc with
      | entry | deps => trivial
      | waitEntry i dep => exact fun hf => (h.knows r p i hfits.1.ne' hf).event hawake
      | waitDep i j => exact fun hf => (h.knows r (!p) j hfits.2.2.1.ne' hf).event hawake
    have hsame : ∀ w, s.setTasks r (some t) w = (s.setServer r (s.server r)).setTasks r (some t) w :=
      fun w => by rw [setServer_self]
    rw [hsame] at hreg' ⊢
    refine h.next hreg' (h.votes_tasks hreg' (executes_alike (.refl _))) (sustains_same rfl)
      (fun a => by simp) ⟨h.ranked r,.refl _⟩ (fun a t' ht => ?_) fun a t' ht => ?_
    · simp only [tasks_setTasks,tasks_setServer] at ht
      split_ifs at ht with ha
      · cases ht
        exact .inr ⟨ha,hfits,hwoken⟩
      · exact .inl ht
    · simp only [tasks_setTasks,tasks_setServer] at ht
      split_ifs at ht with ha
      · subst ha
        exact .inl (mem_of_mem_eraseIdx ht)
      · exact .inl ht

theorem Ordered.step {a : Action C} (hfree : s.FailureFree a) (hok : s.Orderly a)
    (hst : Stepped n s a s') : s'.Ordered n := by
  have hreg' := h.regular.step hst
  cases a with
  | submit site c => exact h.submit hst
  | receive k r => exact h.receive hok hst
  | resume c committed => exact h.resume hfree hok hst
  | exec r committed => exact h.exec hok hst
  | wake r m => exact h.wake hst
  | arrive k r =>
    cases hst with
    | @arrive _ _ e hk hsent hnew =>
      have hadd := adds_answer (r:=r) hk
      refine h.handled (a:=r) (v:=s.server r) hreg' (h.votes.still h.regular.wf hreg'.wf hadd
        (sustains_same rfl) h.votes.calm (fun c x hx hprop => (h.votes.voted c x hx hprop).mono hadd.ext)
        fun a => executes_alike (.refl _)) (sustains_same rfl) (fun a => ?_) ⟨h.ranked r,.refl _⟩
        fun a => rfl
      split_ifs with ha
      · rw [ha]
        rfl
      · rfl

end Steps

theorem ordered_of_reachable
    (h : ReachableBy (system C n) (fun s a => s.FailureFree a ∧ s.Orderly a) s) : s.Ordered n := by
  obtain ⟨_,rfl,hrun⟩ := h
  exact hrun.invariant (fun s a t hok hs hst => hs.step hok.1 hok.2 (step_spec hst)) (ordered_start n)

def executions (s : Cluster C) (r : ℕ) : List (Bool × ℕ) :=
  (s.server r).applied.map fun a => (a.1,a.2.1)

/-- The replicas execute the entries of both logs in the same relative order. -/
theorem execution_order_agrees
    (h : ReachableBy (system C n) (fun s a => s.FailureFree a ∧ s.Orderly a) s) (r r' : ℕ)
    (a b : Bool × ℕ) (hab : [a,b].Sublist (s.executions r)) :
    ¬[b,a].Sublist (s.executions r') := by
  have hs := ordered_of_reachable h
  have horder : ∀ r, (s.executions r).Pairwise s.Before := fun r =>
    pairwise_map.mpr (hs.ranked r).order
  have hbefore : ∀ {r a b}, [a,b].Sublist (s.executions r) → s.Before a b :=
    fun hsub => pairwise_pair.mp ((horder _).sublist hsub)
  exact fun hba => (hbefore hab).asymm hs.regular.wf (hbefore hba)

instance (s : Cluster C) (r : ℕ) (e : Cast C) : Decidable (s.Takes r e) := by
  unfold Takes
  induction e.msg using Message.casesOn <;> infer_instance

instance (v : CopilotServer C) (committed : Bool) (t : Task) : Decidable (Minds v committed t) := by
  unfold Minds
  induction t.pc using Pc.casesOn <;> infer_instance

instance (v : CopilotServer C) (x : Coord C) : Decidable (Rests v x) := by
  unfold Rests
  induction x.phase using Phase.casesOn <;> infer_instance

instance (v : CopilotServer C) (x : Coord C) (a : ℕ) : Decidable (Clears v x a) := by
  unfold Clears
  infer_instance

instance (s : Cluster C) (a : Action C) : Decidable (s.FailureFree a) := by
  induction a using Action.casesOn <;> dsimp only [FailureFree] <;> infer_instance

instance (s : Cluster C) (a : Action C) : Decidable (s.Orderly a) := by
  induction a using Action.casesOn <;> dsimp only [Orderly] <;> infer_instance

/-- The pilot's first command and one of the copilot that depends on it. The Commit of the
latter reaches the copilot first. -/
def dependentRun : Cluster ℕ :=
  after (system ℕ 3) (fun s a => s.FailureFree a ∧ s.Orderly a) .start
    [.submit 0 7,.receive 0 1,.submit 1 8,.receive 1 0,.arrive 0 1,.arrive 1 0,
      .resume 0 fun _ => false,.resume 1 fun _ => false,.receive 2 0,.exec 0 false,.exec 0 false,
      .receive 3 0,.exec 0 false,.exec 0 false,.receive 3 1,.exec 1 false,.exec 1 false,
      .receive 2 1,.exec 1 false,.exec 1 false,.wake 1 0,.exec 1 false,.exec 1 false,.exec 1 false]

theorem execution_order_agrees_dependent :
    ReachableBy (system ℕ 3) (fun s a => s.FailureFree a ∧ s.Orderly a) dependentRun ∧
    dependentRun.executions 0 = [(true,1),(false,1)] ∧
    dependentRun.executions 1 = [(true,1),(false,1)] ∧
    ¬[(false,1),(true,1)].Sublist (dependentRun.executions 1) := by
  have hrun : ReachableBy (system ℕ 3) (fun s a => s.FailureFree a ∧ s.Orderly a) dependentRun :=
    ⟨_,rfl,run_after _ _⟩
  exact ⟨hrun,by decide +kernel,by decide +kernel,
    execution_order_agrees hrun 0 1 (true,1) (false,1) (by decide +kernel)⟩

/-- The first commands of both pilots, neither of which has seen the other. Both have the
dependency 0, with which `OnFastAccept` skips its check: both go the fast path and are not ordered.
-/
def uncheckedRun : Cluster ℕ := after (system ℕ 3) FailureFree .start
  [.submit 0 7,.submit 1 8,.receive 0 1,.receive 1 0,.arrive 0 1,.arrive 1 0,
    .resume 0 fun _ => false,.resume 1 fun _ => false,.receive 2 0,.exec 0 false,.exec 0 false,
    .receive 3 0,.exec 0 false,.exec 0 false,.receive 3 1,.exec 1 false,.exec 1 false,
    .receive 2 1,.exec 1 false,.exec 1 false]

theorem execution_order_differs : ReachableBy (system ℕ 3) FailureFree uncheckedRun ∧
    [(true,1),(false,1)].Sublist (uncheckedRun.executions 0) ∧
    [(false,1),(true,1)].Sublist (uncheckedRun.executions 1) :=
  ⟨⟨_,rfl,run_after _ _⟩,by decide +kernel⟩

end Cluster
end Janus.Copilot
