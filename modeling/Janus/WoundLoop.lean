import Janus.WoundDieLock

/-! The loop of `WoundDieALock::wound_die` iteration by iteration (`rrr/misc/alock.cpp`). A request
is passed by `rit++` or erased when it is wounded; a read that meets an older one goes round by
`continue` alone, with the iterator where it was. -/

namespace Janus.QueuedLock
namespace WoundDieALock

open List

/-- Between two iterations: the requests that `rit` has not passed, nearest first, those it passed
and left in the queue, and those examined. -/
structure Scan where
  lock : WoundDieALock
  ahead : List LockReq
  behind : List LockReq := []
  examined : List LockReq := []

namespace Scan

/-- `wound` of the next request: it is erased, or passed if it refuses. -/
def attempt (answer : ℤ) (s : Scan) (r : LockReq) (rest : List LockReq) : Except Fault Scan := do
  let (l,wounded) ← wound (fun _ => answer) s.lock r
  .ok {s with lock := l, ahead := rest, behind := if wounded then s.behind else r::s.behind}

def pass (s : Scan) (r : LockReq) (rest : List LockReq) : Scan :=
  {s with ahead := rest, behind := r::s.behind}

/-- One iteration. A wound callback that is called in iteration `n` gives the answer `answers n`. -/
def iterate (answers : ℕ → LockReq → ℤ) (type : LockType) (priority : Int64) (s : Scan)
    (r : LockReq) (rest : List LockReq) : Except Fault Scan :=
  let answer := answers s.examined.length r
  let s := {s with examined := s.examined++[r]}
  match type with
  | .wlock => if priority ≤ r.priority then s.attempt answer r rest else .ok (s.pass r rest)
  | .rlock =>
    if r.priority < priority then .ok s
    else if r.type = .wlock then s.attempt answer r rest
    else .ok (s.pass r rest)

/-- At most `n` iterations: the loop stops at the end of the queue or at a failed `verify`. -/
def loop (answers : ℕ → LockReq → ℤ) (type : LockType) (priority : Int64) :
    ℕ → Scan → Except Fault Scan
  | 0, s => .ok s
  | n+1, s =>
    match s.ahead with
    | [] => .ok s
    | r::rest => do
      let s' ← s.iterate answers type priority r rest
      loop answers type priority n s'

end Scan

def Ended : Except Fault Scan → Prop
  | .ok s => s.ahead = []
  | .error _ => True

instance (e : Except Fault Scan) : Decidable (Ended e) :=
  match e with
  | .ok s => decidable_of_iff (s.ahead.isEmpty = true) List.isEmpty_iff
  | .error _ => .isTrue trivial

def scan (l : WoundDieALock) : Scan := {lock := l, ahead := l.requests.reverse}

/-- The loop ends after one iteration for each request, and has then examined none twice. -/
def Terminates (answers : ℕ → LockReq → ℤ) (type : LockType) (priority : Int64)
    (l : WoundDieALock) : Prop :=
  Ended (l.scan.loop answers type priority l.requests.length) ∧
  ∀ n s, l.scan.loop answers type priority n = .ok s → s.examined <+: l.requests.reverse

def Passable (type : LockType) (priority : Int64) (q : List LockReq) : Prop :=
  type = .wlock ∨ ∀ r ∈ q, priority ≤ r.priority

namespace Scan

variable {answers : ℕ → LockReq → ℤ} {type : LockType} {priority : Int64} {s s' : Scan}
  {r : LockReq} {rest : List LockReq}

theorem attempt_ahead {answer : ℤ} (h : s.attempt answer r rest = .ok s') :
    s'.ahead = rest ∧ s'.examined = s.examined := by
  unfold attempt at h
  cases hw : wound (fun _ => answer) s.lock r with
  | error f =>
    rw [hw] at h
    cases h
  | ok p =>
    rw [hw] at h
    cases h
    exact ⟨rfl,rfl⟩

theorem iterate_ahead (hr : Passable type priority [r])
    (h : s.iterate answers type priority r rest = .ok s') :
    s'.ahead = rest ∧ s'.examined = s.examined++[r] := by
  unfold iterate at h
  cases type with
  | wlock =>
    dsimp only at h
    split_ifs at h
    · exact attempt_ahead h
    · cases h
      exact ⟨rfl,rfl⟩
  | rlock =>
    have hr : priority ≤ r.priority := hr.resolve_left nofun r mem_cons_self
    dsimp only at h
    rw [if_neg (Int64.not_lt.mpr hr)] at h
    split_ifs at h
    · exact attempt_ahead h
    · cases h
      exact ⟨rfl,rfl⟩

theorem loop_nil (n : ℕ) (h : s.ahead = []) : s.loop answers type priority n = .ok s := by
  cases n with
  | zero => rfl
  | succ n =>
    unfold loop
    rw [h]

theorem loop_cons (n : ℕ) (h : s.ahead = r::rest) : s.loop answers type priority (n+1) =
    (s.iterate answers type priority r rest).bind fun s' => s'.loop answers type priority n := by
  rw [loop,h]
  rfl

theorem loop_ended (answers : ℕ → LockReq → ℤ) (h : Passable type priority s.ahead) :
    Ended (s.loop answers type priority s.ahead.length) := by
  -- each iteration takes one request off the queue
  induction hq : s.ahead generalizing s with
  | nil =>
    exact hq
  | cons r rest ih =>
    rw [hq] at h
    rw [length_cons,loop_cons _ hq]
    cases hit : s.iterate answers type priority r rest with
    | error f => exact trivial
    | ok s' =>
      obtain ⟨hahead,-⟩ := iterate_ahead (h.imp_right fun hall x hx =>
        hall x (mem_cons.mpr (.inl (mem_singleton.mp hx)))) hit
      refine ih ?_ hahead
      rw [hahead]
      exact h.imp_right fun hall x hx => hall x (mem_cons_of_mem _ hx)

theorem loop_examined (h : Passable type priority s.ahead) {n : ℕ}
    (hl : s.loop answers type priority n = .ok s') :
    s'.examined++s'.ahead = s.examined++s.ahead := by
  induction n generalizing s with
  | zero =>
    cases hl
    rfl
  | succ n ih =>
    rcases hq : s.ahead with _ | ⟨r,rest⟩
    · rw [loop_nil _ hq] at hl
      cases hl
      rw [hq]
    · rw [hq] at h
      rw [loop_cons _ hq] at hl
      cases hit : s.iterate answers type priority r rest with
      | error f =>
        rw [hit] at hl
        cases hl
      | ok s₁ =>
        rw [hit] at hl
        obtain ⟨hahead,hexamined⟩ := iterate_ahead (h.imp_right fun hall x hx =>
          hall x (mem_cons.mpr (.inl (mem_singleton.mp hx)))) hit
        have hrest : Passable type priority s₁.ahead := by
          rw [hahead]
          exact h.imp_right fun hall x hx => hall x (mem_cons_of_mem _ hx)
        rw [ih hrest hl,hahead,hexamined,append_assoc,singleton_append]

/-- Callbacks that refuse while the request is granted, and only then: no `verify` of `wound`
fails. -/
def reluctant (_ : ℕ) (r : LockReq) : ℤ := if r.locked then 1 else 0

theorem attempt_reluctant (s : Scan) (r : LockReq) (rest : List LockReq) (n : ℕ) :
    ∃ s', s.attempt (reluctant n r) r rest = .ok s' := by
  unfold attempt wound reluctant
  cases r.locked with
  | true | false => exact ⟨_,rfl⟩

theorem loop_stuck (n : ℕ) (h : ∃ x ∈ s.ahead, x.priority < priority) :
    ∃ s', s.loop reluctant .rlock priority n = .ok s' ∧ ∃ x ∈ s'.ahead, x.priority < priority := by
  induction n generalizing s with
  | zero => exact ⟨s,rfl,h⟩
  | succ n ih =>
    rcases hq : s.ahead with _ | ⟨r,rest⟩
    · simp [hq] at h
    rw [loop_cons _ hq]
    by_cases hr : r.priority < priority
    · have hit : s.iterate reluctant .rlock priority r rest =
          .ok {s with examined := s.examined++[r]} := if_pos hr
      rw [hit]
      exact ih h
    · have hpass : Passable .rlock priority [r] := .inr fun x hx => by
        rw [mem_singleton.mp hx]
        exact Int64.not_lt.mp hr
      have hok : ∃ s', s.iterate reluctant .rlock priority r rest = .ok s' := by
        unfold iterate
        dsimp only
        split_ifs
        · exact attempt_reluctant _ r rest _
        · exact ⟨_,rfl⟩
      obtain ⟨s',hit⟩ := hok
      rw [hit]
      refine ih ?_
      obtain ⟨x,hx,hlt⟩ := h
      rw [hq] at hx
      rcases mem_cons.mp hx with rfl | hx
      · exact absurd hlt hr
      · exact ⟨x,(iterate_ahead hpass hit).1 ▸ hx,hlt⟩

end Scan

variable {woundCallback : ℕ → ℤ} {type : LockType} {priority : Int64} {l : WoundDieALock}
variable {answers : ℕ → LockReq → ℤ}

/-! ### The loop and the function over the queue -/

theorem wound_congr (l : WoundDieALock) (r : LockReq) :
    wound (fun _ => woundCallback r.id) l r = wound woundCallback l r := rfl

theorem Scan.loop_add (m n : ℕ) (s : Scan) : s.loop answers type priority (m+n) =
      (s.loop answers type priority m).bind fun s' => s'.loop answers type priority n := by
  induction m generalizing s with
  | zero =>
    rw [Nat.zero_add]
    rfl
  | succ m ih =>
    rw [Nat.succ_add]
    rcases hq : s.ahead with _ | ⟨r,rest⟩
    · rw [loop_nil _ hq,loop_nil _ hq]
      exact (loop_nil _ hq).symm
    · rw [loop_cons _ hq,loop_cons _ hq]
      cases s.iterate answers type priority r rest with
      | error f => rfl
      | ok s' => exact ih s'

theorem Scan.loop_running {m n : ℕ} {s s' : Scan} (hmn : m ≤ n)
    (h : s.loop answers type priority n = .ok s') (hne : s'.ahead ≠ []) :
    ∃ s'', s.loop answers type priority m = .ok s'' ∧ s''.ahead ≠ [] := by
  obtain ⟨k,rfl⟩ := Nat.exists_eq_add_of_le hmn
  rw [loop_add] at h
  cases hm : s.loop answers type priority m with
  | error f =>
    rw [hm] at h
    cases h
  | ok s'' =>
    rw [hm] at h
    refine ⟨s'',rfl,fun hnil => hne ?_⟩
    have hsame : s''.loop answers type priority k = .ok s' := h
    rw [loop_nil _ hnil] at hsame
    cases hsame
    exact hnil

def visit (woundCallback : ℕ → ℤ) (type : LockType) (priority : Int64) (l : WoundDieALock)
    (r : LockReq) (kept : List LockReq) : Except Fault (WoundDieALock × List LockReq) :=
  match type with
  | .wlock => if priority ≤ r.priority then tryWound woundCallback l r kept else .ok (l,r::kept)
  | .rlock =>
    if r.priority < priority then .error .diverges
    else if r.type = .wlock then tryWound woundCallback l r kept
    else .ok (l,r::kept)

theorem woundDie_cons (l : WoundDieALock) (r : LockReq) (q : List LockReq) :
    woundDie woundCallback type priority l (r::q) =
      (woundDie woundCallback type priority l q).bind fun p =>
        visit woundCallback type priority p.1 r p.2 := rfl

theorem wound_fault {f : Fault} {r : LockReq} (h : wound woundCallback l r = .error f) :
    f = .verify := by
  unfold wound at h
  cases ht : r.type with
  | rlock | wlock =>
    simp only [ht] at h
    split_ifs at h <;> exact (Except.error.inj h).symm

section Iteration

variable {r : LockReq} {kept kept' more behind examined : List LockReq} {l' : WoundDieALock}
variable {s : Scan}

theorem attempt_eq (l : WoundDieALock) (r : LockReq) (kept more behind examined : List LockReq) :
    (Scan.mk l (r::more) (kept++behind) examined).attempt (woundCallback r.id) r more =
      (tryWound woundCallback l r kept).map fun p => ⟨p.1,more,p.2++behind,examined⟩ := by
  unfold Scan.attempt tryWound
  rw [wound_congr]
  rcases wound woundCallback l r with f | ⟨l',wounded⟩
  · rfl
  · cases wounded <;> rfl

theorem tryWound_fault {f : Fault} (h : tryWound woundCallback l r kept = .error f) :
    f = .verify := by
  unfold tryWound at h
  cases hw : wound woundCallback l r with
  | error g =>
    rw [hw] at h
    cases h
    exact wound_fault hw
  | ok p =>
    rw [hw] at h
    cases h

/-- An iteration does what `woundDie` does with one request, if that is not an older one. -/
theorem iterate_eq (h : visit woundCallback type priority l r kept ≠ .error .diverges) :
    (Scan.mk l (r::more) (kept++behind) examined).iterate (fun _ r => woundCallback r.id) type
        priority r more =
      (visit woundCallback type priority l r kept).map fun p =>
        ⟨p.1,more,p.2++behind,examined++[r]⟩ := by
  unfold Scan.iterate visit at *
  cases type with
  | wlock =>
    dsimp only
    split_ifs
    · exact attempt_eq l r kept more behind (examined++[r])
    · rfl
  | rlock =>
    dsimp only at h ⊢
    split_ifs with hp ht
    · exact absurd (if_pos hp) h
    · exact attempt_eq l r kept more behind (examined++[r])
    · rfl

theorem iterate_older {answers : ℕ → LockReq → ℤ}
    (h : visit woundCallback type priority l r kept = .error .diverges) :
    s.iterate answers type priority r more = .ok {s with examined := s.examined++[r]} := by
  unfold visit at h
  cases type with
  | wlock =>
    dsimp only at h
    split_ifs at h
    cases tryWound_fault h
  | rlock =>
    dsimp only at h
    split_ifs at h with hp
    · exact if_pos hp
    · cases tryWound_fault h

theorem loop_older (answers : ℕ → LockReq → ℤ) (n : ℕ) (hs : s.ahead = r::more)
    (h : visit woundCallback type priority l r kept = .error .diverges) :
    ∃ s', s.loop answers type priority n = .ok s' ∧ s'.ahead = r::more ∧
      s'.examined = s.examined++List.replicate n r := by
  induction n generalizing s with
  | zero => exact ⟨s,rfl,hs,by simp⟩
  | succ n ih =>
    rw [Scan.loop_cons n hs,iterate_older h]
    obtain ⟨s',hs',hahead,hexamined⟩ := ih (s:={s with examined := s.examined++[r]}) hs
    refine ⟨s',hs',hahead,?_⟩
    rw [hexamined,append_assoc,singleton_append,replicate_succ]

end Iteration

section Queue

variable {l' : WoundDieALock} {kept : List LockReq} {q : List LockReq}

/-- Where `woundDie` returns, so does the loop, after one iteration for each request; `more` is what
stands in front of the queue. -/
theorem loop_of_ok (h : woundDie woundCallback type priority l q = .ok (l',kept))
    (more behind examined : List LockReq) : (Scan.mk l (q.reverse++more) behind examined).loop
    (fun _ r => woundCallback r.id) type priority
      q.length = .ok ⟨l',more,kept++behind,examined++q.reverse⟩ := by
  induction q generalizing more l' kept with
  | nil =>
    cases h
    simp [Scan.loop]
  | cons r q ih =>
    rw [woundDie_cons] at h
    cases hq : woundDie woundCallback type priority l q with
    | error f =>
      rw [hq] at h
      cases h
    | ok p =>
      rw [hq] at h
      have hvisit : visit woundCallback type priority p.1 r p.2 = .ok (l',kept) := h
      have hrev : (r::q).reverse++more = q.reverse++r::more := by simp
      rw [hrev,length_cons,Scan.loop_add,ih hq]
      dsimp only [Except.bind]
      rw [Scan.loop_cons 0 rfl,iterate_eq (by simp [hvisit]),hvisit]
      simp [Except.map,Except.bind,Scan.loop]

theorem loop_of_verify (h : woundDie woundCallback type priority l q = .error .verify)
    (more behind examined : List LockReq) : (Scan.mk l (q.reverse++more) behind examined).loop
    (fun _ r => woundCallback r.id) type priority q.length = .error .verify := by
  induction q generalizing more with
  | nil => cases h
  | cons r q ih =>
    have hrev : (r::q).reverse++more = q.reverse++r::more := by simp
    rw [hrev,length_cons,Scan.loop_add]
    rw [woundDie_cons] at h
    rcases hq : woundDie woundCallback type priority l q with f | p <;> rw [hq] at h
    · cases h
      rw [ih hq]
      rfl
    · have hvisit : visit woundCallback type priority p.1 r p.2 = .error .verify := h
      rw [loop_of_ok hq]
      dsimp only [Except.bind]
      rw [Scan.loop_cons 0 rfl,iterate_eq (by simp [hvisit]),hvisit]
      rfl

/-- Where `woundDie` says so, the loop goes round for ever. -/
theorem loop_of_diverges (h : woundDie woundCallback type priority l q = .error .diverges)
    (more behind examined : List LockReq) (n : ℕ) :
    ∃ s', (Scan.mk l (q.reverse++more) behind examined).loop (fun _ r => woundCallback r.id) type
      priority n = .ok s' ∧ s'.ahead ≠ [] := by
  induction q generalizing more with
  | nil => cases h
  | cons r q ih =>
    have hrev : (r::q).reverse++more = q.reverse++r::more := by simp
    rw [woundDie_cons] at h
    rw [hrev]
    cases hq : woundDie woundCallback type priority l q with
    | error f =>
      rw [hq] at h
      cases h
      exact ih hq _
    | ok p =>
      rw [hq] at h
      have hvisit : visit woundCallback type priority p.1 r p.2 = .error .diverges := h
      obtain ⟨s',hs',hahead,-⟩ := loop_older (fun _ r => woundCallback r.id) n
        (s:=⟨p.1,r::more,p.2++behind,examined++q.reverse⟩) rfl hvisit
      have hne : s'.ahead ≠ [] := by simp [hahead]
      refine Scan.loop_running (Nat.le_add_left n q.length) ?_ hne
      rw [Scan.loop_add,loop_of_ok hq]
      exact hs'

end Queue

/-! ### Termination -/

theorem woundDie_passable {q : List LockReq} (h : Passable type priority q) :
    woundDie woundCallback type priority l q ≠ .error .diverges := by
  intro hdiv
  obtain ⟨s,hs,hne⟩ := loop_of_diverges hdiv [] [] [] q.length
  have hended := Scan.loop_ended (fun _ r => woundCallback r.id)
    (s:=⟨l,q.reverse++[],[],[]⟩) (h.imp_right fun hall r hr => hall r (by simpa using hr))
  rw [show (Scan.mk l (q.reverse++[]) [] []).ahead.length = q.length by simp,hs] at hended
  exact hne hended

theorem vlock_diverges {priority : UInt64}
    (h : vlock l woundCallback type priority = .error .diverges) :
    woundDie woundCallback type priority.toInt64 l.getNextId l.requests = .error .diverges := by
  unfold vlock at h
  rcases hw : woundDie woundCallback type priority.toInt64 l.getNextId l.requests with f | ⟨l₁,kept⟩
  · rw [hw] at h
    cases h
    rfl
  · rw [hw] at h
    rcases hq : kept++[request l type priority] with _ | ⟨front,rest⟩
    · simp at hq
    · change (match kept++[request l type priority] with | [] => _ | front::rest => _) = _ at h
      rw [hq] at h
      dsimp only at h
      split at h <;> cases h

/-- `wound_die` ends with every behaviour of the wound callbacks, after examining each request at
most once, exactly if the new request is a write or none in the queue is older; then `vlock` ends
too. -/
theorem wound_die_terminates (l : WoundDieALock) (type : LockType) (priority : Int64) :
    ((∀ answers, Terminates answers type priority l) ↔
      type = .wlock ∨ ∀ r ∈ l.requests, priority ≤ r.priority) ∧
    ((type = .wlock ∨ ∀ r ∈ l.requests, priority ≤ r.priority) →
      ∀ woundCallback p, p.toInt64 = priority → vlock l woundCallback type p ≠ .error .diverges) := by
  refine ⟨⟨fun hall => ?_,fun hpass answers => ?_⟩,fun hpass woundCallback p hp hdiv => ?_⟩
  · cases type with
    | wlock => exact .inl rfl
    | rlock =>
      refine .inr fun r hr => Int64.not_lt.mp fun hlt => ?_
      obtain ⟨s,hs,x,hx,-⟩ := Scan.loop_stuck (s:=l.scan) l.requests.length
        ⟨r,mem_reverse.mpr hr,hlt⟩
      have hended := (hall Scan.reluctant).1
      rw [hs] at hended
      have hnil : s.ahead = [] := hended
      rw [hnil] at hx
      cases hx
  · have hpass : Passable type priority l.scan.ahead :=
      hpass.imp_right fun hall r hr => hall r (mem_reverse.mp hr)
    refine ⟨?_,fun n s hs => ⟨s.ahead,Scan.loop_examined hpass hs⟩⟩
    have hended := Scan.loop_ended answers hpass
    rwa [show l.scan.ahead.length = l.requests.length from length_reverse] at hended
  · subst hp
    exact woundDie_passable hpass (vlock_diverges hdiv)

/-- A write with priority 1 holds the lock, and a read with priority 2 asks for it. -/
def olderWriter : WoundDieALock := Transition.after system Refusable {} [.vlock (fun _ => 0) .wlock 1]

theorem read_behind_older_writer : olderWriter.requests = [⟨1,1,.wlock,true⟩] ∧
    olderWriter.vlock (fun _ => 0) .rlock 2 = .error .diverges ∧
    ∀ n, ∃ s, olderWriter.scan.loop (fun _ _ => 0) .rlock 2 n = .ok s ∧
      s.examined = List.replicate n ⟨1,1,.wlock,true⟩ ∧ s.ahead = [⟨1,1,.wlock,true⟩] := by
  have hqueue : olderWriter.requests = [⟨1,1,.wlock,true⟩] := by decide +kernel
  refine ⟨hqueue,by decide +kernel,fun n => ?_⟩
  have hstart : olderWriter.scan.ahead = [⟨1,1,.wlock,true⟩] := by simp [scan,hqueue]
  have hvisit : visit (fun _ => 0) .rlock 2 olderWriter ⟨1,1,.wlock,true⟩ [] = .error .diverges := by
    decide +kernel
  obtain ⟨s,hs,hahead,hexamined⟩ := loop_older (fun _ _ => 0) n hstart hvisit
  exact ⟨s,hs,hexamined,hahead⟩

end WoundDieALock
end Janus.QueuedLock
