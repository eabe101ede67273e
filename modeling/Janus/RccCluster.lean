import Janus.Transition
import Janus.RccServer

/-! The servers of all partitions. Every transaction has one final parent list, which each replica
of its partitions receives once all of them have pre-accepted the transaction; the parents that a
pre-accept traces are arbitrary. Messages may arrive in any order that this leaves. -/
namespace Janus.Rcc

open Transition Function

/-- The partitions and their servers, and the committed transactions. An edge carries some of the
parent's partitions, those its server has seen. -/
structure Deployment (Site Par Tx : Type) where
  partitionId : Site → Par
  nearest : Site → Par → Site
  partitions : Tx → Finset Par
  parents : Tx → ParentSet Par Tx
  nearest_partitionId : ∀ s p, partitionId (nearest s p) = p
  parent_ne : ∀ t, ∀ e ∈ parents t, e.1 ≠ t
  edge_nonempty : ∀ t, ∀ e ∈ parents t, e.2.Nonempty
  edge_subset : ∀ t, ∀ e ∈ parents t, e.2 ⊆ partitions e.1

variable {Site Par Tx : Type}

def Deployment.adj (D : Deployment Site Par Tx) (t : Tx) : List Tx := (D.parents t).map Prod.fst

abbrev Cluster (Site Par Tx : Type) := Site → RccServer Site Par Tx

inductive Action (Site Par Tx : Type)
  | preAccept (s : Site) (t : Tx) (deps : ParentSet Par Tx)
  | commit (s : Site) (t : Tx)
  | deliverInquire (s : Site) (t : Tx)
  | answerInquire (s : Site) (t : Tx)
  | resume (s : Site) (t : Tx)

def Ready (D : Deployment Site Par Tx) (c : Cluster Site Par Tx) (t : Tx) : Prop :=
  ∀ s, D.partitionId s ∈ D.partitions t → (c s).fullyDispatched t = true

instance [Fintype Site] [DecidableEq Par] (D : Deployment Site Par Tx) (c : Cluster Site Par Tx)
    (t : Tx) : Decidable (Ready D c t) :=
  inferInstanceAs (Decidable (∀ s, D.partitionId s ∈ D.partitions t → (c s).fullyDispatched t = true))

theorem ready_update [DecidableEq Site] {D : Deployment Site Par Tx} {c : Cluster Site Par Tx}
    {σ : RccServer Site Par Tx} {s : Site} (hkeep : ∀ x, (c s).fullyDispatched x = true →
    σ.fullyDispatched x = true) {t : Tx} (h : Ready D c t) : Ready D (update c s σ) t := by
  intro s' hs'
  simp only [update_apply]
  split_ifs with he
  · subst he
    exact hkeep t (h s' hs')
  · exact h s' hs'

def setInquiry [DecidableEq Site] [DecidableEq Tx] (c : Cluster Site Par Tx) (s : Site) (t : Tx) (i : Inquiry Site Par Tx) :
    Cluster Site Par Tx :=
  update c s {c s with inquiry := update (c s).inquiry t i}

variable [DecidableEq Site] [Fintype Site] [LinearOrder Par] [LinearOrder Tx] [Fintype Tx]

def step (D : Deployment Site Par Tx) (c : Cluster Site Par Tx) :
    Action Site Par Tx → Option (Cluster Site Par Tx)
  | .preAccept s t deps =>
    if D.partitionId s ∈ D.partitions t then
      ((c s).onPreAccept (D.partitionId s) t deps).map (update c s)
    else none
  | .commit s t =>
    if D.partitionId s ∈ D.partitions t ∧ Ready D c t then
      ((c s).onCommit (D.partitionId s) t (D.parents t)).map (update c s)
    else none
  | .deliverInquire s t =>
    match (c s).inquiry t with
    | .sent par =>
      let q := D.nearest s par
      ((c q).onInquire (D.partitionId q) t).map fun σ =>
        setInquiry (update c q σ) s t (.waiting q)
    | _ => none
  | .answerInquire s t =>
    match (c s).inquiry t with
    | .waiting q =>
      if (c q).IsCommitting t then
        ((c q).inquireReply t).map fun reply => setInquiry c s t (.replied reply)
      else none
    | _ => none
  | .resume s t => ((c s).resume (D.partitionId s) t).map (update c s)

def system (D : Deployment Site Par Tx) : System (Cluster Site Par Tx) (Action Site Par Tx) where
  init c := c = fun _ => RccServer.init
  step := step D

end Janus.Rcc
