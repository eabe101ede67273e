import Janus.Transition

/-! The events of a reactor (`rrr/reactor/event.cc`), and `SharedIntEvent`: coroutines that wait for
a value of one integer. A failed `verify` has no result. -/
namespace Janus.Reactor

open Transition Function

inductive EventStatus
  | INIT | WAIT | READY | DONE | TIMEOUT
  deriving DecidableEq

def EventStatus.test (ready : Bool) : EventStatus → Option EventStatus
  | .WAIT => some (if ready then .READY else .WAIT)
  | .DONE => some (if ready then .DONE else .INIT)
  | .TIMEOUT => if ready then none else some .TIMEOUT
  | st => some st

def EventStatus.wait (ready : Bool) (st : EventStatus) : EventStatus :=
  if st = .DONE ∨ ready then .DONE else .WAIT

structure IntEvent where
  status : EventStatus := .INIT
  value : ℤ
  target : ℤ := 1
  test : Option (ℤ → Bool) := none

namespace IntEvent

def wants (e : IntEvent) (v : ℤ) : Bool := (e.test.map (· v)).getD (e.target ≤ v)

def isReady (e : IntEvent) : Bool := e.wants e.value

def set (e : IntEvent) (v : ℤ) : Option IntEvent :=
  (e.status.test (e.wants v)).map fun st => {e with value := v, status := st}

def wait (e : IntEvent) : IntEvent := {e with status := e.status.wait e.isReady}

end IntEvent

structure Waiter where
  id : ℕ
  event : IntEvent
  seen : List ℤ := []

def Waiter.set (v : ℤ) (w : Waiter) : Option Waiter :=
  (if (w.event.status = .INIT ∨ w.event.status = .WAIT) ∧ w.event.target ≤ v then w.event.set v
    else some w.event).map fun e =>
      {w with event := e, seen := if w.event.status = .WAIT then w.seen++[v] else w.seen}

structure SharedIntEvent where
  value : ℤ := 0
  events : List Waiter := []

namespace SharedIntEvent

def set (s : SharedIntEvent) (v : ℤ) : Option SharedIntEvent :=
  (s.events.mapM (Waiter.set v)).map fun l => ⟨v,l⟩

variable (s : SharedIntEvent)

def register (id : ℕ) (stop : Bool) (e : IntEvent) : SharedIntEvent :=
  if stop then s else {s with events := s.events++[⟨id,e.wait,[]⟩]}

def waitUntilGreaterOrEqualThan (id : ℕ) (x : ℤ) : SharedIntEvent :=
  s.register id (x ≤ s.value) {value := s.value, target := x}

def wait (id : ℕ) (f : ℤ → Bool) : SharedIntEvent :=
  s.register id (f s.value) {value := s.value, test := some f}

/-- The reactor continues a coroutine whose event is ready. It takes its event off the list only
in `WaitUntilGreaterOrEqualThan`. -/
def resume (id : ℕ) : SharedIntEvent :=
  {s with events := s.events.filterMap fun w =>
    if w.id = id ∧ w.event.status = .READY then
      w.event.test.map fun _ => {w with event := {w.event with status := .DONE}}
    else some w}

inductive Call
  | set (v : ℤ)
  | waitUntilGreaterOrEqualThan (id : ℕ) (x : ℤ)
  | wait (id : ℕ) (f : ℤ → Bool)
  | resume (id : ℕ)

def system : System SharedIntEvent Call where
  init s := s.events = []
  step s
    | .set v => s.set v
    | .waitUntilGreaterOrEqualThan id x => some (s.waitUntilGreaterOrEqualThan id x)
    | .wait id f => some (s.wait id f)
    | .resume id => some (s.resume id)

/-- No value below the default `target_` is one that somebody waits for with a predicate. -/
def Heard : Call → Prop
  | .set v => ∀ w ∈ s.events, w.event.status = .WAIT → w.event.test.isSome → w.event.wants v → 1 ≤ v
  | _ => True

instance (s : SharedIntEvent) (a : Call) : Decidable (s.Heard a) := by
  cases a <;> unfold Heard <;> infer_instance

end SharedIntEvent

structure Waiter.Ok (w : Waiter) : Prop where
  target : w.event.test.isSome → w.event.target = 1
  status : w.event.status = .WAIT ∧ (∀ v ∈ w.seen, ¬w.event.wants v) ∨
    (w.event.status = .READY ∨ w.event.status = .DONE) ∧ ∃ vs v, w.seen = vs++[v] ∧
      w.event.wants v ∧ ∀ u ∈ vs, ¬w.event.wants u

theorem Waiter.Ok.set {w : Waiter} (h : w.Ok) (v : ℤ) : ∃ w', w.set v = some w' ∧
    ((w.event.status = .WAIT → w.event.test.isSome → w.event.wants v → 1 ≤ v) → w'.Ok) := by
  obtain ⟨id,e,seen⟩ := w
  have hst := h.status
  obtain ⟨e',hset,htest,htarget,hstatus⟩ : ∃ e', (if (e.status = .INIT ∨ e.status = .WAIT) ∧
      e.target ≤ v then e.set v else some e) = some e' ∧ e'.test = e.test ∧ e'.target = e.target ∧
      e'.status = if e.status = .WAIT ∧ e.target ≤ v ∧ e.wants v then .READY else e.status := by
    cases hs : e.status <;> grind [IntEvent.set,EventStatus.test]
  have hwants : e'.wants = e.wants := by
    funext u
    simp [IntEvent.wants,htest,htarget]
  refine ⟨_,congrArg (Option.map _) hset,fun hv => ⟨by simpa [htest,htarget] using h.target,?_⟩⟩
  -- what is wanted passes the comparison with `target_`
  have hlow : e.status = .WAIT → e.wants v → e.target ≤ v := by
    have ht := h.target
    cases hf : e.test <;> grind [IntEvent.wants]
  simp only [hwants,hstatus]
  rcases hst with ⟨hwait,hseen⟩ | ⟨hdone,hseen⟩
  · cases hw : e.wants v with
    | false => exact .inl (by grind)
    | true => exact .inr ⟨by simp_all,seen,v,by simp_all,hw,hseen⟩
  · exact .inr (by grind)

namespace SharedIntEvent

variable {s s' : SharedIntEvent} {a : Call}

section

variable (h : ∀ w ∈ s.events, w.Ok)
include h

theorem set_spec (v : ℤ) : ∃ s', s.set v = some s' ∧
    (s.Heard (.set v) → ∀ w ∈ s'.events, w.Ok) := by
  have hall : ∀ l : List Waiter, (∀ w ∈ l, w ∈ s.events) → ∃ l', l.mapM (Waiter.set v) = some l' ∧
      (s.Heard (.set v) → ∀ w ∈ l', w.Ok) := by
    intro l hl
    induction l with
    | nil => exact ⟨[],rfl,nofun⟩
    | cons w l ih =>
      obtain ⟨w',hw,hok⟩ := (h w (hl w (by simp))).set v
      obtain ⟨l',hl',hoks⟩ := ih fun w hw => hl w (by simp [hw])
      refine ⟨w'::l',by simp [hw,hl'],fun hs => ?_⟩
      simpa using ⟨hok (hs w (hl w (by simp))),hoks hs⟩
  obtain ⟨l,hl,hok⟩ := hall s.events fun _ => id
  exact ⟨⟨v,l⟩,congrArg (Option.map _) hl,hok⟩

theorem ok_register {e : IntEvent} (id : ℕ) (hinit : e.status = .INIT)
    (ht : e.test.isSome → e.target = 1) : ∀ w ∈ (s.register id e.isReady e).events, w.Ok := by
  unfold register
  split_ifs with hready
  · exact h
  · have hnew : Waiter.Ok ⟨id,e.wait,[]⟩ := by
      have hwait : e.wait = {e with status := .WAIT} := by
        simp [IntEvent.wait,EventStatus.wait,hinit,hready]
      exact hwait ▸ ⟨ht,.inl ⟨rfl,nofun⟩⟩
    simpa [or_imp,forall_and] using ⟨h,hnew⟩

theorem ok_step (ha : s.Heard a) (hs : system.step s a = some s') :
    ∀ w ∈ s'.events, w.Ok := by
  cases a with
  | set v =>
    obtain ⟨s₁,hs₁,hok⟩ := set_spec h v
    cases hs₁.symm.trans hs
    exact hok ha
  | waitUntilGreaterOrEqualThan id x =>
    cases hs
    exact ok_register (e := {value := s.value, target := x}) h id rfl (by simp)
  | wait id f =>
    cases hs
    exact ok_register (e := {value := s.value, test := some f}) h id rfl fun _ => rfl
  | resume id =>
    cases hs
    intro w hw
    obtain ⟨u,hu,huw⟩ := List.mem_filterMap.mp hw
    split_ifs at huw with hr
    · obtain ⟨f,hf,rfl⟩ := Option.map_eq_some_iff.mp huw
      obtain ⟨ht,hst⟩ := h u hu
      exact ⟨ht,.inr (by grind [IntEvent.wants])⟩
    · cases huw
      exact h w hu

end

end SharedIntEvent

/-! ### The life of an event

`Wait`, `Test` and `CheckTimeout`, built without `EVENT_TIMEOUT_CHECK`, and the turns of
`Reactor::Loop` over the ready events, in any order. -/

/-- An event, how often it stands in `timeout_events_` and among the ready events, the coroutines
paused in `Wait`, and those continued: the condition and the status then. -/
structure Event where
  status : EventStatus := .INIT
  ready : Bool := false
  wakeup : ℕ := 0
  coro : ℕ := 0
  timeouts : ℕ := 0
  queued : ℕ := 0
  held : Bool := false
  waits : List ℕ := []
  resumed : List (ℕ × Bool × EventStatus) := []

namespace Event

@[grind]
def waiting (e : Event) : Option ℕ :=
  if e.status = .WAIT ∨ 0 < e.queued then some e.coro else none

@[grind]
def stop (e : Event) : Event :=
  {e with status := if e.ready then .READY else .TIMEOUT, queued := e.queued+1, held := e.ready}

/-- The condition changes, and `Test` is called. It may also change without a call. -/
def trigger (e : Event) (ready : Bool) : Option Event :=
  if e.status = .WAIT ∧ ready then some (stop {e with ready := true})
  else (e.status.test ready).map fun st => {e with ready := ready, status := st}

def checkTimeout (now : ℕ) : ℕ → Event → Option Event
  | 0, e => some e
  | n+1, e =>
    match e.status with
    | .INIT | .TIMEOUT => none
    | .WAIT =>
      if e.wakeup = 0 then none
      else if e.wakeup < now then checkTimeout now n {e.stop with timeouts := e.timeouts-1}
      else checkTimeout now n e
    | _ => checkTimeout now n {e with timeouts := e.timeouts-1}

@[grind cases]
structure Ok (e : Event) : Prop where
  waits : e.waits = e.resumed.map (·.1)++e.waiting.toList
  queued : e.queued ≤ 1 ∧ (e.queued = 1 → e.status = .READY ∨ e.status = .TIMEOUT)
  ready : e.status = .READY → e.queued = 1
  timeouts : e.timeouts ≤ 1 ∧
    (e.timeouts = 1 → 0 < e.wakeup ∧ (e.status = .WAIT ∨ e.status = .READY ∨ e.status = .DONE))
  held : e.queued = 1 → (e.held ↔ e.status = .READY)
  resumed : ∀ p ∈ e.resumed, p.2.2 = if p.2.1 then .DONE else .TIMEOUT

variable {e : Event} (h : e.Ok)
include h

theorem Ok.trigger {ready : Bool} (hlate : e.status = .TIMEOUT → ¬ready)
    (hdone : e.status = .DONE → ready ∨ e.timeouts = 0) :
    ∃ e', e.trigger ready = some e' ∧ e'.Ok ∧ e'.waiting = e.waiting := by
  unfold Event.trigger
  split_ifs with hw
  · exact ⟨_,rfl,by constructor <;> grind,by grind⟩
  · cases hs : e.status <;> cases ready <;> simp_all [EventStatus.test,waiting]
    all_goals constructor <;> grind

theorem Ok.checkTimeout (now : ℕ) : ∃ e', e.checkTimeout now e.timeouts = some e' ∧ e'.Ok ∧
    e'.waiting = e.waiting ∧ (e.timeouts = 1 → e.wakeup < now → e'.status ≠ .WAIT) := by
  rcases Nat.le_one_iff_eq_zero_or_eq_one.mp h.timeouts.1 with hz | hone
  · rw [hz]
    exact ⟨e,rfl,h,rfl,by simp⟩
  obtain ⟨hpos,hs⟩ := h.timeouts.2 hone
  rw [hone]
  rcases hs with hs | hs | hs <;> simp only [Event.checkTimeout,hs]
  · rw [if_neg hpos.ne']
    split_ifs with hnow
    · exact ⟨_,rfl,by constructor <;> grind,by grind,by grind⟩
    · exact ⟨e,rfl,h,rfl,by simp [hnow]⟩
  all_goals exact ⟨_,rfl,by constructor <;> grind,by grind,by simp⟩

end Event

structure Thread where
  events : ℕ → Event := fun _ => {}
  paused : ℕ → Option ℕ := fun _ => none

inductive Call
  | wait (coro timeout now : ℕ)
  | change (ready : Bool)
  | trigger (ready : Bool)
  | checkTimeout (now : ℕ)
  | continueCoro

namespace Thread

variable {s : Thread} {i : ℕ}

def put (s : Thread) (i : ℕ) (e : Event) : Thread := {s with events := update s.events i e}

def wait (s : Thread) (i coro timeout now : ℕ) : Option Thread :=
  let e := s.events i
  let st := e.status.wait e.ready
  if st = .DONE then some (s.put i {e with status := st})
  else if s.paused coro ≠ none then none
  else some {
    events := update s.events i {e with
      status := st
      wakeup := if 0 < timeout then (now+timeout)%2^64 else e.wakeup
      coro := coro
      timeouts := if 0 < timeout then e.timeouts+1 else e.timeouts
      waits := e.waits++[coro]}
    paused := update s.paused coro (some i)}

def continueCoro (s : Thread) (i : ℕ) : Option Thread :=
  let e := s.events i
  let st := if e.status = .READY then .DONE else e.status
  if e.status = .DONE ∨ s.paused e.coro = none ∨ st ≠ .DONE ∧ st ≠ .TIMEOUT then none
  else some {
    events := update s.events i {e with
      status := st, queued := e.queued-1, resumed := e.resumed++[(e.coro,e.held,st)]}
    paused := update s.paused e.coro none}

def system : System Thread (ℕ × Call) where
  init s := s = {}
  step s
    | (i,.wait coro timeout now) => s.wait i coro timeout now
    | (i,.change ready) => some (s.put i {s.events i with ready := ready})
    | (i,.trigger ready) => ((s.events i).trigger ready).map (s.put i)
    | (i,.checkTimeout now) => ((s.events i).checkTimeout now (s.events i).timeouts).map (s.put i)
    | (i,.continueCoro) => s.continueCoro i

/-- One coroutine waits at a time, no wakeup time is 0, and `Test` finds the condition true only
before a timeout and false only outside `timeout_events_`. -/
def Timely (s : Thread) : ℕ × Call → Prop
  | (i,.wait coro timeout now) => s.paused coro = none ∧
    (s.events i).waits.length = (s.events i).resumed.length ∧
    (0 < timeout → 0 < (now+timeout)%2^64)
  | (i,.trigger ready) => ((s.events i).status = .TIMEOUT → ¬ready) ∧
    ((s.events i).status = .DONE → ready ∨ (s.events i).timeouts = 0)
  | (_,.change _) | (_,.checkTimeout _) => True
  | (i,.continueCoro) => 0 < (s.events i).queued

instance (a : ℕ × Call) : Decidable (s.Timely a) := by
  obtain ⟨i,a⟩ := a
  induction a using Call.casesOn <;> dsimp only [Timely] <;> infer_instance

def Inv (s : Thread) : Prop :=
  ∀ i, (s.events i).Ok ∧ ∀ c ∈ (s.events i).waiting, s.paused c = some i

theorem Inv.set {e : Event} {p : ℕ → Option ℕ} (h : s.Inv) (he : e.Ok)
    (hp : ∀ c ∈ e.waiting, p c = some i)
    (hothers : ∀ j ≠ i, ∀ c, s.paused c = some j → p c = some j) : Inv ⟨update s.events i e,p⟩ := by
  intro j
  rcases eq_or_ne j i with rfl | hne
  · simpa using ⟨he,hp⟩
  · simpa [hne] using ⟨(h j).1,fun c hc => hothers j hne c ((h j).2 c hc)⟩

/-- Timely calls do not fail, and keep the invariant. -/
theorem Inv.step (h : s.Inv) {a : ℕ × Call} (ha : s.Timely a) :
    ∃ s', system.step s a = some s' ∧ s'.Inv := by
  obtain ⟨i,a⟩ := a
  obtain ⟨hok,hpaused⟩ := h i
  -- a call that changes only the event
  have hput : ∀ {e}, e.Ok → e.waiting = (s.events i).waiting → (s.put i e).Inv :=
    fun he hw => h.set he (hw ▸ hpaused) fun _ _ _ => id
  cases a with
  | wait coro timeout now =>
    obtain ⟨hrun,hlen,htime⟩ := ha
    have hidle : (s.events i).waiting = none := by
      have hw := congrArg List.length hok.waits
      grind
    dsimp only [system,wait]
    by_cases hst : (s.events i).status.wait (s.events i).ready = .DONE
    · rw [if_pos hst]
      exact ⟨_,rfl,hput (by constructor <;> grind) (by grind)⟩
    · rw [if_neg hst,if_neg (not_not.mpr hrun)]
      refine ⟨_,rfl,h.set ?_ (by grind) fun j _ c hc => ?_⟩
      · constructor <;> grind [EventStatus.wait]
      · grind
  | change ready => exact ⟨_,rfl,hput (by constructor <;> grind) (by grind)⟩
  | trigger ready =>
    obtain ⟨e,he,hok',hw⟩ := hok.trigger ha.1 ha.2
    exact ⟨_,congrArg (Option.map (s.put i)) he,hput hok' hw⟩
  | checkTimeout now =>
    obtain ⟨e,he,hok',hw,-⟩ := hok.checkTimeout now
    exact ⟨_,congrArg (Option.map (s.put i)) he,hput hok' hw⟩
  | continueCoro =>
    have hq : 0 < (s.events i).queued := ha
    have hp := hpaused (s.events i).coro (by simp [Event.waiting,hq])
    refine ⟨_,if_neg ?_,h.set ?_ ?_ fun j hj c hc => ?_⟩
    · grind
    · constructor <;> grind
    all_goals grind

/-- A coroutine pauses twice: one wait ends by the condition, which no trigger reports, the other
by its timeout. -/
def pausedTwice : Thread := after system Timely {} [(0,.wait 7 100 5),(0,.change true),
  (0,.checkTimeout 106),(0,.continueCoro),(0,.trigger false),(0,.wait 7 100 120),
  (0,.checkTimeout 221),(0,.continueCoro)]

end Thread
end Janus.Reactor
