import Mathlib

/-! Serial executions of transactions over a store. A transaction is the list of its reads, each
with the value it returned, and of its writes; it is reproduced alone if every read returns what
the store holds. The second part is about transactions that buffer their writes, the third about
those that never read their own. -/

namespace Janus.Serial

inductive Op (K V : Type*)
  | read (k : K) (v : V)
  | write (k : K) (v : V)
  deriving DecidableEq

variable {K V : Type*} [DecidableEq K] {σ ρ τ : K → V}

/-- Alone on the store `σ` these operations return the values they carry and leave `τ`. -/
def Replays (σ : K → V) : List (Op K V) → (K → V) → Prop
  | [], τ => τ = σ
  | .read k v::os, τ => σ k = v ∧ Replays σ os τ
  | .write k v::os, τ => Replays (Function.update σ k v) os τ

def SerialRun (σ : K → V) : List (List (Op K V)) → (K → V) → Prop
  | [], τ => τ = σ
  | t::ts, τ => ∃ ρ, Replays σ t ρ ∧ SerialRun ρ ts τ

theorem Replays.append {os os' : List (Op K V)} (h : Replays σ os ρ) (h' : Replays ρ os' τ) :
    Replays σ (os++os') τ := by
  induction os generalizing σ with
  | nil => exact h ▸ h'
  | cons o os ih =>
    cases o with
    | read k v => exact ⟨h.1,ih h.2⟩
    | write k v => exact ih h

theorem SerialRun.concat {ts : List (List (Op K V))} {t : List (Op K V)} (h : SerialRun σ ts ρ)
    (ht : Replays ρ t τ) : SerialRun σ (ts++[t]) τ := by
  induction ts generalizing σ with
  | nil =>
    cases h
    exact ⟨τ,ht,rfl⟩
  | cons t' ts ih =>
    obtain ⟨ρ',ht',hrest⟩ := h
    exact ⟨ρ',ht',ih hrest⟩

def overlay (σ : K → V) (buf : K → Option V) : K → V := fun k => (buf k).getD (σ k)

theorem overlay_update (σ : K → V) (buf : K → Option V) (k : K) (v : V) :
    overlay σ (Function.update buf k (some v)) = Function.update (overlay σ buf) k v := by
  funext k'
  rcases eq_or_ne k' k with rfl | hne
  · simp [overlay]
  · simp [overlay,Function.update_of_ne hne]

/-- The operations of a transaction that reads its own writes, with the buffer and the reads it
took from the store. -/
inductive Buffered : List (Op K V) → (K → Option V) → List (K × V) → Prop
  | nil : Buffered [] (fun _ => none) []
  | own {os buf ext k v} (h : Buffered os buf ext) (hk : buf k = some v) :
      Buffered (os++[.read k v]) buf ext
  | store {os buf ext k v} (h : Buffered os buf ext) (hk : buf k = none) :
      Buffered (os++[.read k v]) buf (ext++[(k,v)])
  | write {os buf ext k v} (h : Buffered os buf ext) :
      Buffered (os++[.write k v]) (Function.update buf k (some v)) ext

/-- Such a transaction replays on every store that holds what it read from the store. -/
theorem Buffered.replays {os : List (Op K V)} {buf : K → Option V} {ext : List (K × V)}
    (h : Buffered os buf ext) (hext : ∀ p ∈ ext, σ p.1 = p.2) :
    Replays σ os (overlay σ buf) := by
  induction h with
  | nil => rfl
  | own _ hk ih =>
    refine (ih hext).append ⟨?_,rfl⟩
    simp [overlay,hk]
  | store _ hk ih =>
    refine (ih fun p hp => hext p (List.mem_append_left _ hp)).append ⟨?_,rfl⟩
    simpa [overlay,hk] using hext _ (List.mem_append_right _ List.mem_cons_self)
  | write _ ih =>
    rw [overlay_update]
    exact (ih hext).append rfl

end Serial

namespace Serial

variable {ι K V : Type*} {σ τ : K → V} {w w' : ι → K → Option V} {l l₁ l₂ : List ι} {k : K}

def afterAll (σ : K → V) (w : ι → K → Option V) (l : List ι) : K → V :=
  l.foldl (fun ρ t => overlay ρ (w t)) σ

/-- In this order every transaction read what those before it had left. -/
def SerialOrder (σ : K → V) (w : ι → K → Option V) (reads : ι → List (K × V)) (order : List ι) :
    Prop :=
  ∀ l₁ t l₂, order = l₁++t::l₂ → ∀ p ∈ reads t, afterAll σ w l₁ p.1 = p.2

theorem afterAll_append (σ : K → V) (w : ι → K → Option V) (l₁ l₂ : List ι) :
    afterAll σ w (l₁++l₂) = afterAll (afterAll σ w l₁) w l₂ := List.foldl_append

theorem afterAll_cons (σ : K → V) (w : ι → K → Option V) (t : ι) (l : List ι) :
    afterAll σ w (t::l) = afterAll (overlay σ (w t)) w l := rfl

theorem afterAll_congr (h : ∀ t ∈ l, w t = w' t) : afterAll σ w l = afterAll σ w' l := by
  induction l generalizing σ with
  | nil => rfl
  | cons t l ih =>
    rw [afterAll_cons,afterAll_cons,h t List.mem_cons_self]
    exact ih fun u hu => h u (List.mem_cons_of_mem t hu)

theorem afterAll_apply_congr (h : σ k = τ k) : afterAll σ w l k = afterAll τ w l k := by
  induction l generalizing σ τ with
  | nil => exact h
  | cons t l ih => exact ih (by simp only [overlay,h])

theorem afterAll_of_none (h : ∀ t ∈ l, w t k = none) : afterAll σ w l k = σ k := by
  induction l generalizing σ with
  | nil => rfl
  | cons t l ih =>
    rw [afterAll_cons,ih fun u hu => h u (List.mem_cons_of_mem t hu)]
    simp only [overlay,h t List.mem_cons_self,Option.getD_none]

theorem afterAll_insert_none {t : ι} (h : w t k = none) :
    afterAll σ w (l₁++t::l₂) k = afterAll σ w (l₁++l₂) k := by
  rw [afterAll_append,afterAll_append,afterAll_cons]
  exact afterAll_apply_congr (by simp only [overlay,h,Option.getD_none])

theorem afterAll_last {t : ι} {v : V} (ht : w t k = some v) (h : ∀ u ∈ l₂, w u k = none) :
    afterAll σ w (l₁++t::l₂) k = v := by
  rw [afterAll_append,afterAll_cons,afterAll_of_none h]
  simp only [overlay,ht,Option.getD_some]

end Janus.Serial
