import Janus.RccServer

/-! How a server traces dependencies: `TraceDep` and `DispatchExecute` (`rcc/tx.cc`), and
`OnDispatch`, `OnPreAccept`, `OnAccept` and `OnCommit` (`rcc/server.cc`) as far as they change
parent lists. Each column remembers the rank it is used at. `SKIP_I` and `SKIP_D` are false. A
failed `verify` is no step. -/

namespace Janus.Troad

open List List.Subset Function Option

inductive Rank
  | i | d
  deriving DecidableEq

/-- A piece of a transaction at one rank, with the columns of its conflicts in the order in
which they are traced. -/
structure Piece (P K : Type) where
  innId : ℕ
  partition : P
  columns : List K
  deriving DecidableEq

structure Entry (Tx : Type) where
  rank : Option Rank := none
  last : Option Tx := none

inductive Status
  | unknown | started | preAccepted | committing
  deriving DecidableEq

def Status.value : Status → ℕ
  | unknown => 0x00
  | started => 0x01
  | preAccepted => 0x02
  | committing => 0x08

/-- `UpdateStatus`, up to flags below the highest one. -/
def Status.update (status s : Status) : Status := if status.value < s.value then s else status

structure SubTx (P K Tx : Type) where
  status : Status := .unknown
  parents : List Tx := []
  dreqs : List (Piece P K) := []
  maxSeenBallot : ℕ := 0
  fullyDispatched : Bool := false
  commitReceived : Bool := false

/-- What `Rcc.RccServer` has of a transaction too. -/
def SubTx.view {P K Tx : Type} (x : SubTx P K Tx) : List Tx × Prop × Bool × Bool :=
  (x.parents,x.status = .committing,x.fullyDispatched,x.commitReceived)

structure Server (P K Tx : Type) where
  entries : K → Entry Tx := fun _ => {}
  txs : Tx → SubTx P K Tx := fun _ => {}

namespace Server

variable {P K Tx : Type} [DecidableEq K] [DecidableEq Tx]

variable (s : Server P K Tx)

def modify (t : Tx) (f : SubTx P K Tx → SubTx P K Tx) : Server P K Tx :=
  {s with txs := Function.update s.txs t (f (s.txs t))}

def updateStatus (t : Tx) (status : Status) : Server P K Tx :=
  s.modify t fun x => {x with status := x.status.update status}

def addParentEdge (t other : Tx) : Server P K Tx :=
  s.modify t fun x => {x with parents := x.parents++[other]}

def traceDep (rank : Rank) (t : Tx) (k : K) : Option (Server P K Tx) :=
  let entry := s.entries k
  if entry.rank.getD rank ≠ rank then none
  else
    let s' := {s with
      entries := Function.update s.entries k {rank := some rank, last := some t}}
    match entry.last with
    | none => some s'
    | some last => if last = t then some s' else some (s'.addParentEdge t last)

def dispatchExecute (rank : Rank) (t : Tx) (c : Piece P K) :
    Option (Server P K Tx) :=
  if c.innId ∈ (s.txs t).dreqs.map Piece.innId then some s
  else
    (c.columns.foldlM (fun s k => traceDep s rank t k) s).map fun s =>
      s.modify t fun x => {x with dreqs := x.dreqs++[c]}

def dispatchAll (rank : Rank) (t : Tx) (cmds : List (Piece P K)) :
    Option (Server P K Tx) :=
  cmds.foldlM (fun s c => dispatchExecute s rank t c) s

def onDispatch (rank : Rank) (t : Tx) (cmds : List (Piece P K)) :
    Option (Server P K Tx) :=
  if cmds = [] then none else (s.updateStatus t .started).dispatchAll rank t cmds

/-- `OnPreAccept`, with the parents it returns. The coordinator gives up at a REJECT. -/
def onPreAccept (rank : Rank) (t : Tx) (cmds : List (Piece P K)) :
    Option (Server P K Tx × List Tx) :=
  let s₁ := s.updateStatus t .preAccepted
  if 0 < (s₁.txs t).maxSeenBallot then none
  else do
    let s₂ ←
      if (s₁.txs t).status ≠ .committing then s₁.dispatchAll rank t cmds
      else if (s₁.txs t).dreqs = [] then some (s₁.modify t fun x => {x with dreqs := cmds})
      else some s₁
    if (s₂.txs t).fullyDispatched then none
    else
      some (s₂.modify t fun x => {x with fullyDispatched := true},(s₂.txs t).parents)

def onAccept (t : Tx) (ballot : ℕ) (parents : List Tx) :
    Option (Server P K Tx) :=
  if ballot < (s.txs t).maxSeenBallot then none
  else some (s.modify t fun x => {x with maxSeenBallot := ballot, parents := parents})

def onCommit (t : Tx) (parents : List Tx) : Option (Server P K Tx) :=
  if (s.txs t).commitReceived then none
  else
    some (s.modify t fun x => {x with
      parents := parents, commitReceived := true, status := x.status.update .committing})

end Server

namespace Server

variable {P K Tx : Type} {s s' s'' : Server P K Tx} {t u a b : Tx} {k : K} {τ : K → Tx → Prop}

def Edge (s : Server P K Tx) (a b : Tx) : Prop := b ∈ (s.txs a).parents

def Reach (s : Server P K Tx) : Tx → Tx → Prop := Relation.ReflTransGen s.Edge

/-- The last accessor of a column reaches every accessor of it, and of two accessors one
reaches the other. -/
structure Tracks (s : Server P K Tx) (τ : K → Tx → Prop) : Prop where
  last : ∀ k a, τ k a → ∃ l, (s.entries k).last = some l ∧ s.Reach l a
  total : ∀ k a b, τ k a → τ k b → s.Reach a b ∨ s.Reach b a

def Touches (s : Server P K Tx) (k : K) (a : Tx) : Prop := ∃ c ∈ (s.txs a).dreqs, k ∈ c.columns

def Consistent (s : Server P K Tx) : Prop := s.Tracks s.Touches

theorem Reach.mono (hsub : ∀ a, (s.txs a).parents ⊆ (s'.txs a).parents) (h : s.Reach a b) :
    s'.Reach a b :=
  Relation.ReflTransGen.mono (fun x _ hxy => hsub x hxy) _ _ h

theorem Tracks.imp {τ' : K → Tx → Prop} (h : s.Tracks τ) (hle : ∀ k a, τ' k a → τ k a) :
    s.Tracks τ' :=
  ⟨fun k a hka => h.last k a (hle k a hka),
    fun k a b hka hkb => h.total k a b (hle k a hka) (hle k b hkb)⟩

theorem Tracks.mono (h : s.Tracks τ) (hsub : ∀ a, (s.txs a).parents ⊆ (s'.txs a).parents)
    (hlast : ∀ k, (s'.entries k).last = (s.entries k).last) : s'.Tracks τ := by
  constructor
  · intro k a hka
    obtain ⟨l,hl,hla⟩ := h.last k a hka
    exact ⟨l,(hlast k).trans hl,hla.mono hsub⟩
  · exact fun k a b hka hkb => (h.total k a b hka hkb).imp (.mono hsub) (.mono hsub)

/-- An accessor that is linked to the last one before it becomes the last. -/
theorem Tracks.touch (h : s.Tracks τ) (hsub : ∀ a, (s.txs a).parents ⊆ (s'.txs a).parents)
    (hself : (s'.entries k).last = some t)
    (hothers : ∀ k' ≠ k, (s'.entries k').last = (s.entries k').last)
    (hlink : ∀ l, (s.entries k).last = some l → l = t ∨ s'.Edge t l) :
    s'.Tracks fun k' a => τ k' a ∨ k' = k ∧ a = t := by
  have hnew : ∀ a, τ k a → s'.Reach t a := by
    intro a ha
    obtain ⟨l,hl,hla⟩ := h.last k a ha
    rcases hlink l hl with rfl | hedge
    · exact hla.mono hsub
    · exact .head hedge (hla.mono hsub)
  constructor
  · intro k' a hka
    rcases eq_or_ne k' k with rfl | hne
    · refine ⟨t,hself,?_⟩
      rcases hka with hold | ⟨-,rfl⟩
      · exact hnew a hold
      · exact .refl
    · rcases hka with hold | ⟨rfl,-⟩
      · obtain ⟨l,hl,hla⟩ := h.last k' a hold
        exact ⟨l,(hothers k' hne).trans hl,hla.mono hsub⟩
      · exact absurd rfl hne
  · rintro k' a b (ha | ⟨rfl,rfl⟩) (hb | ⟨hk,rfl⟩)
    · exact (h.total k' a b ha hb).imp (.mono hsub) (.mono hsub)
    · exact .inr (hnew a (hk ▸ ha))
    · exact .inl (hnew b hb)
    · exact .inl .refl

structure Traces (t : Tx) (ks : List K) (s s' : Server P K Tx) : Prop where
  others : ∀ u ≠ t, s'.txs u = s.txs u
  parents : (s.txs t).parents <+: (s'.txs t).parents
  same : {s'.txs t with parents := (s.txs t).parents} = s.txs t
  tracks : ∀ τ, s.Tracks τ → s'.Tracks fun k a => τ k a ∨ k ∈ ks ∧ a = t

theorem Traces.refl (t : Tx) (s : Server P K Tx) : Traces t [] s s where
  others _ _ := rfl
  parents := prefix_rfl
  same := rfl
  tracks τ h := by simpa using h

theorem Traces.cons {ks : List K} (h : Traces t [k] s s') (h' : Traces t ks s' s'') :
    Traces t (k::ks) s s'' where
  others u hu := (h'.others u hu).trans (h.others u hu)
  parents := h.parents.trans h'.parents
  same := by rw [← h.same,← h'.same]
  tracks τ hτ := by
    refine (h'.tracks _ (h.tracks τ hτ)).imp ?_
    rintro k' a (hold | ⟨hk,rfl⟩)
    · exact .inl (.inl hold)
    · rcases mem_cons.mp hk with rfl | hmem
      · exact .inl (.inr ⟨mem_cons_self,rfl⟩)
      · exact .inr ⟨hmem,rfl⟩

structure Extends (t : Tx) (cmds : List (Piece P K)) (s s' : Server P K Tx) : Prop where
  others : ∀ u ≠ t, s'.txs u = s.txs u
  parents : (s.txs t).parents <+: (s'.txs t).parents
  dreqs : (s.txs t).dreqs ⊆ (s'.txs t).dreqs
  new : ∀ c ∈ (s'.txs t).dreqs, c ∈ (s.txs t).dreqs ∨ c ∈ cmds
  executed : ∀ c ∈ cmds, c.innId ∈ (s'.txs t).dreqs.map Piece.innId
  quiet : cmds = [] → (s'.txs t).parents = (s.txs t).parents
  same : ((s'.txs t).status,(s'.txs t).maxSeenBallot,(s'.txs t).fullyDispatched,
      (s'.txs t).commitReceived) =
    ((s.txs t).status,(s.txs t).maxSeenBallot,(s.txs t).fullyDispatched,(s.txs t).commitReceived)
  consistent : s.Consistent → s'.Consistent

theorem Extends.refl (t : Tx) (s : Server P K Tx) : Extends t [] s s where
  others _ _ := rfl
  parents := prefix_rfl
  dreqs := List.Subset.refl _
  new _ hc := .inl hc
  executed := by simp
  quiet _ := rfl
  same := rfl
  consistent := id

theorem Extends.cons {c : Piece P K} {cmds : List (Piece P K)} (h : Extends t [c] s s')
    (h' : Extends t cmds s' s'') : Extends t (c::cmds) s s'' where
  others u hu := (h'.others u hu).trans (h.others u hu)
  parents := h.parents.trans h'.parents
  dreqs := List.Subset.trans h.dreqs h'.dreqs
  new d hd := by
    rcases h'.new d hd with hd' | hmem
    · rcases h.new d hd' with hold | hc
      · exact .inl hold
      · exact .inr (mem_singleton.mp hc ▸ mem_cons_self)
    · exact .inr (mem_cons_of_mem c hmem)
  executed d hd := by
    rcases mem_cons.mp hd with rfl | hmem
    · exact map_subset _ h'.dreqs (h.executed d mem_cons_self)
    · exact h'.executed d hmem
  quiet := nofun
  same := h'.same.trans h.same
  consistent hs := h'.consistent (h.consistent hs)

variable [DecidableEq Tx]

@[simp] theorem modify_self (s : Server P K Tx) (t : Tx) (f : SubTx P K Tx → SubTx P K Tx) :
    (s.modify t f).txs t = f (s.txs t) := update_self _ _ _

theorem modify_of_ne (s : Server P K Tx) (f : SubTx P K Tx → SubTx P K Tx) (h : u ≠ t) :
    (s.modify t f).txs u = s.txs u := update_of_ne h _ _

@[simp] theorem modify_entries (s : Server P K Tx) (t : Tx) (f : SubTx P K Tx → SubTx P K Tx) :
    (s.modify t f).entries = s.entries := rfl

theorem Consistent.modify {f : SubTx P K Tx → SubTx P K Tx} (h : s.Consistent)
    (hsub : (s.txs t).parents ⊆ (f (s.txs t)).parents)
    (hreqs : (f (s.txs t)).dreqs = (s.txs t).dreqs) : (s.modify t f).Consistent := by
  refine Tracks.imp (Tracks.mono h (fun a => ?_) ?_) ?_
  · rcases eq_or_ne a t with rfl | hne
    · simpa using hsub
    · rw [modify_of_ne _ f hne]
      exact refl _
  · exact fun _ => rfl
  · rintro k a ⟨c,hc,hk⟩
    refine ⟨c,?_,hk⟩
    rcases eq_or_ne a t with rfl | hne
    · rwa [modify_self,hreqs] at hc
    · rwa [modify_of_ne _ f hne] at hc

section Tracing

variable [DecidableEq K] {rank : Rank} {c : Piece P K} {cmds : List (Piece P K)}

theorem traceDep_traces (h : s.traceDep rank t k = some s') : Traces t [k] s s' := by
  have hentry : ∀ {f : SubTx P K Tx → SubTx P K Tx} {e : Entry Tx}, e.last = some t →
      (∀ x, x.parents <+: (f x).parents) → (∀ x, {f x with parents := x.parents} = x) →
      (∀ l, (s.entries k).last = some l → l = t ∨ l ∈ (f (s.txs t)).parents) →
      Traces t [k] s ({s with entries := update s.entries k e}.modify t f) := by
    intro f e he hsub hsame hlink
    refine ⟨fun u hu => modify_of_ne _ f hu,?_,?_,fun τ hτ => ?_⟩
    · simpa using hsub (s.txs t)
    · simpa using hsame (s.txs t)
    · refine (hτ.touch (k:=k) (t:=t) (fun a => ?_) ?_ (fun k' hne => ?_) ?_).imp ?_
      · rcases eq_or_ne a t with rfl | hne
        · simpa using (hsub (s.txs a)).subset
        · rw [modify_of_ne _ f hne]
          exact refl _
      · simpa using he
      · simp [update_of_ne hne]
      · simpa [Edge] using hlink
      · simp
  have hid : ∀ e : Entry Tx, ({s with entries := update s.entries k e}.modify t id) =
      {s with entries := update s.entries k e} := by
    simp [modify]
  unfold traceDep at h
  by_cases hrank : (s.entries k).rank.getD rank ≠ rank
  · rw [if_pos hrank] at h
    cases h
  rw [if_neg hrank] at h
  cases hl : (s.entries k).last with
  | none =>
    rw [hl] at h
    cases h
    rw [← hid]
    exact hentry rfl (fun _ => prefix_rfl) (fun _ => rfl) (by simp [hl])
  | some l =>
    rw [hl] at h
    by_cases hself : l = t
    · simp only [hself,if_true] at h
      cases h
      rw [← hid]
      refine hentry rfl (fun _ => prefix_rfl) (fun _ => rfl) fun l' hl' => .inl ?_
      exact (some.inj (hl'.symm.trans hl)).trans hself
    · simp only [hself,if_false] at h
      cases h
      refine hentry rfl (fun _ => prefix_append _ _) (fun _ => rfl) fun l' hl' => .inr ?_
      simp [some.inj (hl'.symm.trans hl)]

theorem traceAll_traces {ks : List K} (h : ks.foldlM (fun s k => traceDep s rank t k) s = some s') :
    Traces t ks s s' := by
  induction ks generalizing s with
  | nil =>
    obtain rfl : s = s' := some.inj h
    exact .refl t s
  | cons k ks ih =>
    obtain ⟨s₁,h₁,hrest⟩ := bind_eq_some_iff.mp h
    exact (traceDep_traces h₁).cons (ih hrest)

theorem dispatchExecute_extends (h : s.dispatchExecute rank t c = some s') :
    Extends t [c] s s' := by
  unfold dispatchExecute at h
  split_ifs at h with hdone
  · cases h
    exact {Extends.refl t s with
      new := fun _ hd => .inl hd
      executed := fun d hd => mem_singleton.mp hd ▸ hdone
      quiet := nofun}
  · obtain ⟨s₁,h₁,rfl⟩ := map_eq_some_iff.mp h
    have htr := traceAll_traces h₁
    have hreqs : (s₁.txs t).dreqs = (s.txs t).dreqs := by rw [← htr.same]
    refine ⟨fun u hu => (modify_of_ne _ _ hu).trans (htr.others u hu),?_,?_,?_,?_,nofun,?_,?_⟩
    · simpa using htr.parents
    · simp [hreqs]
    · simp [hreqs]
    · simp
    · simp only [modify_self]
      rw [← htr.same]
    · intro h₀
      refine Tracks.imp (Tracks.mono (htr.tracks _ h₀) ?_ ?_) ?_
      · intro a
        rcases eq_or_ne a t with rfl | hne
        · simp
        · rw [modify_of_ne _ _ hne]
          exact refl _
      · exact fun _ => rfl
      · rintro k a ⟨d,hd,hk⟩
        rcases eq_or_ne a t with rfl | hne
        · rw [modify_self,mem_append,hreqs] at hd
          rcases hd with hold | hnew
          · exact .inl ⟨d,hold,hk⟩
          · exact .inr ⟨mem_singleton.mp hnew ▸ hk,rfl⟩
        · rw [modify_of_ne _ _ hne,htr.others a hne] at hd
          exact .inl ⟨d,hd,hk⟩

theorem dispatchAll_extends (h : s.dispatchAll rank t cmds = some s') : Extends t cmds s s' := by
  induction cmds generalizing s with
  | nil =>
    obtain rfl : s = s' := some.inj h
    exact .refl t s
  | cons c cmds ih =>
    obtain ⟨s₁,h₁,hrest⟩ := bind_eq_some_iff.mp h
    exact (dispatchExecute_extends h₁).cons (ih hrest)

theorem onDispatch_spec (h : s.onDispatch rank t cmds = some s') :
    cmds ≠ [] ∧ Extends t cmds (s.updateStatus t .started) s' := by
  unfold onDispatch at h
  split_ifs at h with hempty
  exact ⟨hempty,dispatchAll_extends h⟩

/-- As long as the transaction is not committing, `OnPreAccept` executes all its pieces and
returns the parents recorded here. -/
theorem onPreAccept_spec {l : List Tx} (hst : (s.txs t).status ≠ .committing)
    (h : s.onPreAccept rank t cmds = some (s',l)) :
    ∃ s₂, Extends t cmds (s.updateStatus t .preAccepted) s₂ ∧
      s' = s₂.modify t (fun x => {x with fullyDispatched := true}) ∧
      l = (s₂.txs t).parents ∧ (s.txs t).fullyDispatched = false := by
  have hst' : ((s.updateStatus t .preAccepted).txs t).status ≠ .committing := by
    simp only [updateStatus,modify_self,Status.update]
    split_ifs
    · nofun
    · exact hst
  simp only [onPreAccept,if_pos hst'] at h
  split_ifs at h
  obtain ⟨s₂,h₂,hrest⟩ := bind_eq_some_iff.mp h
  have hext := dispatchAll_extends h₂
  split_ifs at hrest with hfull
  cases hrest
  refine ⟨s₂,hext,rfl,rfl,?_⟩
  have hsame := congrArg (·.2.2.1) hext.same
  simp only [updateStatus,modify_self] at hsame
  rw [← hsame]
  simpa using hfull

theorem onPreAccept_view {l : List Tx} (h : s.onPreAccept rank t cmds = some (s',l)) :
    (∀ u ≠ t, s'.txs u = s.txs u) ∧ (s.txs t).fullyDispatched = false ∧
    (s.txs t).parents <+: l ∧ ((s.txs t).status = .committing → (s.txs t).parents = l) ∧
    (s'.txs t).view = (l,((s.txs t).status = .committing),true,(s.txs t).commitReceived) := by
  have hcommitting : (s.txs t).status.update .preAccepted = .committing ↔
      (s.txs t).status = .committing := by
    cases (s.txs t).status <;> decide
  by_cases hst : (s.txs t).status = .committing
  · have hst' := hcommitting.mpr hst
    simp only [onPreAccept,updateStatus,modify_self,hst',ne_eq,not_true_eq_false,if_false] at h
    split_ifs at h
    all_goals
      obtain ⟨-,⟨⟩,h⟩ := bind_eq_some_iff.mp h
      split_ifs at h with hfull
      cases h
      refine ⟨fun u hu => by simp only [modify_of_ne _ _ hu],by simpa using hfull,?_⟩
      simp [SubTx.view,hst,hst ▸ hst']
  · obtain ⟨s₂,hext,rfl,rfl,hfull⟩ := onPreAccept_spec hst h
    have hpar := hext.parents
    have hsame := hext.same
    simp only [updateStatus,modify_self,Prod.mk.injEq] at hpar hsame
    refine ⟨fun u hu => ?_,hfull,hpar,fun hc => absurd hc hst,?_⟩
    · rw [modify_of_ne _ _ hu,hext.others u hu,updateStatus,modify_of_ne _ _ hu]
    · simp [SubTx.view,hsame,hcommitting]

end Tracing

end Server

/-! ### The server of `Rcc` -/

namespace Server

open Rcc RccServer

variable {P K Tx Site Par : Type} {s s' : Server P K Tx} {σ : RccServer Site Par Tx} {t : Tx}

def rccView (σ : RccServer Site Par Tx) (t : Tx) : List Tx × Prop × Bool × Bool :=
  (σ.parentIds t,σ.IsCommitting t,σ.fullyDispatched t,σ.commitReceived t)

/-- `Rcc.RccServer` has the same parents, with the partitions of their edges, and the same flags. -/
def Refines (s : Server P K Tx) (σ : RccServer Site Par Tx) : Prop :=
  ∀ t, (s.txs t).view = rccView σ t

variable [LinearOrder Tx] [LinearOrder Par]

/-- The parents that the pieces have traced are the argument of the other model. -/
theorem Refines.onPreAccept [DecidableEq K] (h : Refines s σ) (id : Par) {rank : Rank}
    {cmds : List (Piece P K)} {l : List Tx} (hs : s.onPreAccept rank t cmds = some (s',l)) :
    ∃ deps σ', σ.onPreAccept id t deps = some σ' ∧ l = σ'.parentIds t ∧ Refines s' σ' := by
  obtain ⟨hothers,hfull,⟨added,rfl⟩,hsame,hview⟩ := onPreAccept_view hs
  have ht := h t
  simp only [SubTx.view,rccView,parentIds,Prod.mk.injEq] at ht
  obtain ⟨hp,hc,hf,hr⟩ := ht
  refine ⟨added.map fun v => (v,∅),_,if_neg (by simp [← hf,hfull]),?_⟩
  suffices hrefines : Refines s' _ from
    ⟨(congrArg Prod.fst hview).symm.trans (congrArg Prod.fst (hrefines t)),hrefines⟩
  have hpre : ((σ.insertPartition t {id}).setStatus t .preAccepted).IsCommitting t ↔
      σ.IsCommitting t := by
    simp only [IsCommitting,setStatus,insertPartition,
      update_self]
    cases σ.status t <;> decide
  intro u
  rcases eq_or_ne u t with rfl | hne
  · have hfull' := (update_self u true σ.fullyDispatched).symm
    rw [hview,hr,hc]
    by_cases hcom : σ.IsCommitting u
    · rw [if_pos (hpre.mpr hcom),← hsame (hc ▸ hcom),hp]
      exact Prod.ext rfl (Prod.ext (propext hpre.symm) (Prod.ext hfull' rfl))
    · rw [if_neg (mt hpre.mp hcom)]
      refine Prod.ext ?_ (Prod.ext (propext hpre.symm) (Prod.ext hfull' rfl))
      simp [rccView,parentIds,replaceParentEdges,hp,comp_def]
      rfl
  · rw [hothers u hne,h u]
    split_ifs
    all_goals
      simp [rccView,parentIds,IsCommitting,setStatus,
        insertPartition,replaceParentEdges,hne]

theorem Refines.onCommit (h : Refines s σ) (id : Par) {parents : ParentSet Par Tx}
    (hs : s.onCommit t (parents.map Prod.fst) = some s') :
    σ.commitReceived t = false ∧ Refines s' (σ.receiveCommit id t parents) := by
  unfold Server.onCommit at hs
  split_ifs at hs with hrec
  cases hs
  have ht := h t
  simp only [SubTx.view,rccView,Prod.mk.injEq] at ht
  refine ⟨by simpa [← ht.2.2.2] using hrec,fun u => ?_⟩
  have hcache : rccView ((σ.insertPartition t {id}).cacheInvolve id t) = rccView σ := by
    unfold cacheInvolve
    split_ifs <;> rfl
  have hu := (h u).trans (congrFun hcache u).symm
  simp only [SubTx.view,rccView,Prod.mk.injEq] at hu
  rcases eq_or_ne u t with rfl | hne
  · simp only [modify_self,SubTx.view,rccView,receiveCommit,replaceParentEdges,setStatus,parentIds,
      IsCommitting,update_self,hu]
    refine congrArg (fun c => (_,c,_)) (propext ?_)
    cases (s.txs u).status <;> cases RccServer.status _ u <;> decide
  · rw [modify_of_ne _ _ hne]
    simp [SubTx.view,rccView,receiveCommit,replaceParentEdges,setStatus,parentIds,IsCommitting,hu,hne]

end Server

end Janus.Troad
