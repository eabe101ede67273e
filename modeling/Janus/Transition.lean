import Mathlib

/-! Labelled transition systems whose label resolves every choice. A step is a partial function of
the state and the label. The rules carry a predicate, or one about the state and a growing history,
from one step to whole runs. -/
namespace Janus.Transition

/-- A system: its initial states and one partial step for each label. -/
structure System (σ α : Type*) where
  init : σ → Prop
  step : σ → α → Option σ

variable {σ α γ : Type*} {M : System σ α} {ok : σ → α → Prop} {s t u : σ}

/-- A run all of whose steps satisfy `ok` in the state they start from. -/
inductive Run (M : System σ α) (ok : σ → α → Prop) : σ → σ → Prop
  | refl (s : σ) : Run M ok s s
  | tail {s t u : σ} {a : α} : Run M ok s t → ok t a → M.step t a = some u → Run M ok s u

def Steps (M : System σ α) : σ → σ → Prop := Run M fun _ _ => True

def Reachable (M : System σ α) (s : σ) : Prop := ∃ s₀, M.init s₀ ∧ Steps M s₀ s

def ReachableBy (M : System σ α) (ok : σ → α → Prop) (s : σ) : Prop :=
  ∃ s₀, M.init s₀ ∧ Run M ok s₀ s

/-- Execute a list of labels, failing at the first one that is not admissible or
not enabled. -/
def exec (M : System σ α) (ok : σ → α → Prop) [∀ s a, Decidable (ok s a)] :
    σ → List α → Option σ
  | s, [] => some s
  | s, a::as => if ok s a then (M.step s a).bind fun t => exec M ok t as else none

namespace Run

theorem trans (hst : Run M ok s t) (htu : Run M ok t u) : Run M ok s u := by
  induction htu with
  | refl => exact hst
  | tail _ hok hstep ih => exact Run.tail ih hok hstep

theorem single {a : α} (hok : ok s a) (h : M.step s a = some t) : Run M ok s t :=
  Run.tail (Run.refl s) hok h

theorem weaken {ok' : σ → α → Prop} (hle : ∀ s a, ok s a → ok' s a) (h : Run M ok s t) :
    Run M ok' s t := by
  induction h with
  | refl => exact Run.refl _
  | tail _ hok hstep ih => exact Run.tail ih (hle _ _ hok) hstep

theorem steps (h : Run M ok s t) : Steps M s t := weaken (fun _ _ _ => trivial) h

/-- A predicate that every admissible step preserves holds along the run. -/
theorem invariant {P : σ → Prop} (hstep : ∀ s a t, ok s a → P s → M.step s a = some t → P t)
    (h : Run M ok s t) (hs : P s) : P t := by
  induction h with
  | refl => exact hs
  | tail _ hok hst ih => exact hstep _ _ _ hok ih hst

/-- A predicate that relates the state to a history, which every step can extend, is carried along
a run. -/
theorem history {P : σ → γ → Prop} {le : γ → γ → Prop} (hrefl : ∀ g, le g g)
    (htrans : ∀ g h k, le g h → le h k → le g k)
    (hstep : ∀ s a t g, ok s a → P s g → M.step s a = some t → ∃ g', P t g' ∧ le g g')
    (h : Run M ok s t) (g : γ) (hs : P s g) : ∃ g', P t g' ∧ le g g' := by
  induction h with
  | refl => exact ⟨g,hs,hrefl g⟩
  | tail _ hok hst ih =>
    obtain ⟨g₁,hP₁,hle₁⟩ := ih
    obtain ⟨g₂,hP₂,hle₂⟩ := hstep _ _ _ g₁ hok hP₁ hst
    exact ⟨g₂,hP₂,htrans _ _ _ hle₁ hle₂⟩

end Run

theorem Steps.trans (hst : Steps M s t) (htu : Steps M t u) : Steps M s u := Run.trans hst htu

theorem Steps.single {a : α} (h : M.step s a = some t) : Steps M s t := Run.single trivial h

theorem Reachable.steps (hs : Reachable M s) (h : Steps M s t) : Reachable M t := by
  obtain ⟨s₀,hinit,hrun⟩ := hs
  exact ⟨s₀,hinit,hrun.trans h⟩

theorem ReachableBy.reachable (hs : ReachableBy M ok s) : Reachable M s := by
  obtain ⟨s₀,hinit,hrun⟩ := hs
  exact ⟨s₀,hinit,hrun.steps⟩

/-- Permitted steps that a well-founded measure counts come to an end. -/
theorem not_endless {β : Type*} [LT β] [WellFoundedLT β] {P : σ → Prop} (μ : σ → β)
    (hstep : ∀ s a t, ok s a → P s → M.step s a = some t → P t ∧ μ t < μ s) {f : ℕ → σ}
    (hP : P (f 0)) : ¬∀ n, ∃ a, ok (f n) a ∧ M.step (f n) a = some (f (n+1)) := by
  intro hrun
  have hall : ∀ n, P (f n) := by
    intro n
    induction n with
    | zero => exact hP
    | succ n ih =>
      obtain ⟨a,hok,hs⟩ := hrun n
      exact (hstep _ a _ hok ih hs).1
  obtain ⟨n,hn⟩ := WellFounded.not_rel_apply_succ (r:=(· < ·)) fun n => μ (f n)
  obtain ⟨a,hok,hs⟩ := hrun n
  exact hn (hstep _ a _ hok (hall n) hs).2

theorem exec_run [∀ s a, Decidable (ok s a)] (s : σ) (as : List α)
    (h : exec M ok s as = some t) : Run M ok s t := by
  induction as generalizing s with
  | nil =>
    have he : s = t := Option.some.inj h
    exact he ▸ Run.refl s
  | cons a as ih =>
    simp only [exec] at h
    split_ifs at h with hok
    obtain ⟨u,hu,ht⟩ := Option.bind_eq_some_iff.mp h
    exact (Run.single hok hu).trans (ih u ht)

/-- The state after a list of labels, or the start if they cannot all be executed. -/
def after (M : System σ α) (ok : σ → α → Prop) [∀ s a, Decidable (ok s a)] (s : σ)
    (as : List α) : σ := (exec M ok s as).getD s

theorem run_after [∀ s a, Decidable (ok s a)] (s : σ) (as : List α) :
    Run M ok s (after M ok s as) := by
  unfold after
  cases h : exec M ok s as with
  | none => exact Run.refl s
  | some t => exact exec_run s as h

end Janus.Transition
