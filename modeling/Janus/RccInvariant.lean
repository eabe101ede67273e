import Janus.RccSteps

/-! What a server knows is true: the parents of a committing transaction are final, a component
vector that is not empty is the component in that graph, and a traversal leaves no ancestor behind
that is neither committing nor marked. `ready` are the transactions that all their replicas have
pre-accepted. -/
namespace Janus.Rcc

open Tarjan Function List RccServer

variable {Site Par Tx : Type} {σ : RccServer Site Par Tx}

theorem Status.committing_le_update (a b : Status) : committing.value ≤ (a.update b).value ↔
      committing.value ≤ a.value ∨ committing.value ≤ b.value := by
  cases a <;> cases b <;> decide

theorem Status.update_eq_decided (a b : Status) :
    a.update b = decided ↔ a = decided ∨ b = decided := by
  cases a <;> cases b <;> decide

namespace RccServer

variable (σ : RccServer Site Par Tx)

def Done (t : Tx) : Prop := σ.sccOf t ≠ []

def Covered (t : Tx) : Prop := σ.allAncCmtHint t = true ∨ σ.Done t

theorem isCommitting_of_isDecided {t : Tx} (h : σ.IsDecided t) : σ.IsCommitting t := by
  unfold IsCommitting
  rw [show σ.status t = .decided from h]
  decide

variable [LinearOrder Tx]

theorem isCommitting_setStatus (t : Tx) (s : Status) (x : Tx) : (σ.setStatus t s).IsCommitting x ↔
      σ.IsCommitting x ∨ x = t ∧ Status.committing.value ≤ s.value := by
  simp only [IsCommitting,setStatus,update_apply]
  split_ifs with hx
  · subst hx
    simp [Status.committing_le_update]
  · simp [hx]

theorem isDecided_setStatus (t : Tx) (s : Status) (x : Tx) :
    (σ.setStatus t s).IsDecided x ↔ σ.IsDecided x ∨ x = t ∧ s = .decided := by
  simp only [IsDecided,setStatus,update_apply]
  split_ifs with hx
  · subst hx
    simp [Status.update_eq_decided]
  · simp [hx]

end RccServer

/-- The next step of the coroutine of `t` does not push to a vector that is filled. -/
def RccServer.freshReply (σ : RccServer Site Par Tx) (t : Tx) : Bool :=
  match σ.coroutine t with
  | .inquire _ _ parent _ =>
    match σ.inquiry parent with
    | .replied (.decided [_]) => (σ.sccOf parent).isEmpty
    | _ => true
  | _ => true

theorem freshReply_single {t self parent : Tx} {w : Walk Tx} {vs : List Tx}
    {reply : InquireReply Par Tx} (hok : σ.freshReply t = true)
    (hk : σ.coroutine t = .inquire w self parent vs) (hreply : σ.inquiry parent = .replied reply) :
    ∀ e, reply = .decided [e] → ¬σ.Done parent := by
  rintro e rfl
  unfold freshReply at hok
  simp only [hk,hreply] at hok
  exact not_not.mpr (List.isEmpty_iff.mp hok)

/-- The steps that do not push a reply to a vector that is filled. -/
def FreshReply (c : Cluster Site Par Tx) (a : Action Site Par Tx) : Prop :=
  (match a with
  | .resume s t => (c s).freshReply t
  | _ => true) = true

instance (c : Cluster Site Par Tx) (a : Action Site Par Tx) : Decidable (FreshReply c a) :=
  inferInstanceAs (Decidable (_ = true))

structure Ext (σ σ' : RccServer Site Par Tx) : Prop where
  committing : ∀ t, σ.IsCommitting t → σ'.IsCommitting t
  hint : ∀ t, σ.allAncCmtHint t = true → σ'.allAncCmtHint t = true
  done : ∀ t, σ.Done t → σ'.Done t

theorem Ext.covered {σ' : RccServer Site Par Tx} (h : Ext σ σ') {t : Tx} (ht : σ.Covered t) :
    σ'.Covered t := ht.imp (h.hint t) (h.done t)

theorem Quiet.ext {τ : RccServer Site Par Tx} (h : Quiet σ τ) : Ext σ τ := by
  obtain ⟨_,_,_,rfl⟩ := h
  exact ⟨fun _ ht => ht,fun _ ht => ht,fun _ ht => ht⟩

section Walks

variable (adj : Tx → List Tx)

def Looked (σ : RccServer Site Par Tx) (w : Walk Tx) (x : Tx) : Prop :=
  σ.Done x ∨ ∀ y ∈ adj x, σ.Covered y ∨ y ∈ w.walked ∨ y ∈ w.toWalk

/-- The traversal from `t` at the head of its loop, or inside the loop over the parents
of `cur`. -/
structure WalkOK (σ : RccServer Site Par Tx) (t : Tx) (w : Walk Tx) (cur : Option Tx) : Prop where
  root : t ∈ w.walked
  known : ∀ x, x ∈ w.walked ∨ x ∈ w.toWalk → σ.IsCommitting x ∧ Reach adj t x
  looked : ∀ x ∈ w.walked, x ∈ w.toWalk ∨ cur = some x ∨ Looked adj σ w x

structure VisitOK (σ : RccServer Site Par Tx) (t : Tx) (w : Walk Tx) (cur : Tx)
    (vs : List Tx) : Prop where
  walk : WalkOK adj σ t w (some cur)
  mem : cur ∈ w.walked
  subset : ∀ y ∈ vs, y ∈ adj cur
  seen : σ.Done cur ∨ ∀ y ∈ adj cur, y ∈ vs ∨ σ.Covered y ∨ y ∈ w.walked ∨ y ∈ w.toWalk

def Walking (σ : RccServer Site Par Tx) (t : Tx) : Coroutine Tx → Prop
  | .waitAncCommit => σ.IsCommitting t
  | .walk w => WalkOK adj σ t w none
  | .visit w self vs => VisitOK adj σ t w self vs
  | .waitApplied w self parent vs => VisitOK adj σ t w self (parent::vs)
  | .inquire w self parent vs => VisitOK adj σ t w self (parent::vs)
  | .waitCommitting w self parent vs => VisitOK adj σ t w self (parent::vs)
  | .waitCommit _ v _ => σ.allAncCmtHint v = true
  | _ => True

variable {adj} {σ σ' : RccServer Site Par Tx} {t self y : Tx} {w : Walk Tx} {vs : List Tx}

theorem WalkOK.mono {cur : Option Tx} (hext : Ext σ σ') (h : WalkOK adj σ t w cur) :
    WalkOK adj σ' t w cur := by
  refine ⟨h.root,fun x hx => ⟨hext.committing x (h.known x hx).1,(h.known x hx).2⟩,?_⟩
  intro x hx
  refine (h.looked x hx).imp id (Or.imp id ?_)
  exact Or.imp (hext.done x) fun hy y hadj => (hy y hadj).imp hext.covered id

theorem VisitOK.mono (hext : Ext σ σ') (h : VisitOK adj σ t w self vs) :
    VisitOK adj σ' t w self vs := by
  refine ⟨h.walk.mono hext,h.mem,h.subset,h.seen.imp (hext.done _) ?_⟩
  exact fun hy y hadj => (hy y hadj).imp id (Or.imp hext.covered id)

theorem Walking.mono {k : Coroutine Tx} (hext : Ext σ σ') (h : Walking adj σ t k) :
    Walking adj σ' t k := by
  cases k with
  | waitAncCommit => exact hext.committing t h
  | walk w => exact WalkOK.mono hext h
  | visit w self vs | waitApplied w self parent vs | inquire w self parent vs
  | waitCommitting w self parent vs => exact VisitOK.mono hext h
  | waitCommit r v vs => exact hext.hint v h
  | _ => trivial

theorem VisitOK.committing (h : VisitOK adj σ t w self vs) : σ.IsCommitting self :=
  (h.walk.known self (Or.inl h.mem)).1

theorem WalkOK.start [DecidableEq Tx] (h : σ.IsCommitting t) : WalkOK adj σ t ⟨[t],{t}⟩ none := by
  refine ⟨by simp,?_,?_⟩
  · intro x hx
    have hxt : x = t := by simpa using hx
    rw [hxt]
    exact ⟨h,Reach.refl t⟩
  · intro x hx
    exact Or.inl (by simpa using hx)

theorem WalkOK.pop [DecidableEq Tx] {x : Tx} {xs : List Tx} (h : WalkOK adj σ t w none)
    (hw : w.toWalk = x::xs) : VisitOK adj σ t ⟨xs,insert x w.walked⟩ x (adj x) := by
  have hkeep : ∀ y, y ∈ w.walked ∨ y ∈ w.toWalk → y ∈ insert x w.walked ∨ y ∈ xs := by
    intro y hy
    rw [hw,mem_cons] at hy
    rw [Finset.mem_insert]
    tauto
  refine ⟨⟨Finset.mem_insert_of_mem h.root,?_,?_⟩,Finset.mem_insert_self _ _,fun _ hy => hy,
    Or.inr fun _ hy => Or.inl hy⟩
  · intro y hy
    apply h.known
    rw [hw,mem_cons]
    rw [Finset.mem_insert] at hy
    tauto
  · intro y hy
    rcases Finset.mem_insert.mp hy with rfl | hy
    · exact Or.inr (Or.inl rfl)
    rcases h.looked y hy with hyw | hcur | hl
    · rw [hw,mem_cons] at hyw
      rcases hyw with rfl | hyw
      · exact Or.inr (Or.inl rfl)
      · exact Or.inl hyw
    · cases hcur
    · refine Or.inr (Or.inr (hl.imp id fun hall z hz => ?_))
      exact (hall z hz).imp id (hkeep z)

theorem VisitOK.close (h : VisitOK adj σ t w self []) : WalkOK adj σ t w none := by
  refine ⟨h.walk.root,h.walk.known,?_⟩
  intro x hx
  rcases h.walk.looked x hx with hxw | hcur | hl
  · exact Or.inl hxw
  · cases hcur
    refine Or.inr (Or.inr (h.seen.imp id fun hall y hy => ?_))
    exact (hall y hy).resolve_left not_mem_nil
  · exact Or.inr (Or.inr hl)

theorem VisitOK.skip (h : VisitOK adj σ t w self (y::vs)) (hy : σ.Done self ∨ σ.Covered y) :
    VisitOK adj σ t w self vs := by
  refine ⟨h.walk,h.mem,fun z hz => h.subset z (mem_cons_of_mem _ hz),?_⟩
  rcases hy with hself | hy
  · exact Or.inl hself
  refine h.seen.imp id fun hall z hz => ?_
  rcases hall z hz with hzv | hz
  · rcases mem_cons.mp hzv with rfl | hzv
    · exact Or.inr (Or.inl hy)
    · exact Or.inl hzv
  · exact Or.inr hz

theorem VisitOK.push [DecidableEq Tx] (h : VisitOK adj σ t w self (y::vs))
    (hy : σ.IsCommitting y) : VisitOK adj σ t (w.push y) self vs := by
  have hkeep : ∀ z ∈ w.toWalk, z ∈ (w.push y).toWalk := by
    intro z hz
    unfold Walk.push
    split_ifs
    · exact hz
    · exact mem_cons_of_mem _ hz
  have hnew : y ∈ w.walked ∨ y ∈ (w.push y).toWalk := by
    unfold Walk.push
    split_ifs with hw
    · exact Or.inl hw
    · exact Or.inr mem_cons_self
  have hold : ∀ z, z ∈ (w.push y).toWalk → z = y ∨ z ∈ w.toWalk := by
    intro z hz
    unfold Walk.push at hz
    split_ifs at hz
    · exact Or.inr hz
    · exact mem_cons.mp hz
  refine ⟨⟨h.walk.root,?_,?_⟩,h.mem,fun z hz => h.subset z (mem_cons_of_mem _ hz),?_⟩
  · intro z hz
    rcases hz with hz | hz
    · exact h.walk.known z (Or.inl hz)
    rcases hold z hz with rfl | hz
    · exact ⟨hy,(h.walk.known self (Or.inl h.mem)).2.trans
        (Reach.single (h.subset z mem_cons_self))⟩
    · exact h.walk.known z (Or.inr hz)
  · intro x hx
    rcases h.walk.looked x hx with hxw | hcur | hl
    · exact Or.inl (hkeep x hxw)
    · exact Or.inr (Or.inl hcur)
    · refine Or.inr (Or.inr (hl.imp id fun hall z hz => ?_))
      exact (hall z hz).imp id (Or.imp id (hkeep z))
  · refine h.seen.imp id fun hall z hz => ?_
    rcases hall z hz with hzv | hz | hz
    · rcases mem_cons.mp hzv with rfl | hzv
      · exact Or.inr (Or.inr hnew)
      · exact Or.inl hzv
    · exact Or.inr (Or.inl hz)
    · exact Or.inr (Or.inr (hz.imp id (hkeep z)))

end Walks

/-- Parents, partitions and marks of involvement are those of the deployment. -/
structure Known (D : Deployment Site Par Tx) (ready : Tx → Prop) (p : Par)
    (σ : RccServer Site Par Tx) : Prop where
  final : ∀ t, σ.IsCommitting t → σ.parents t = D.parents t
  ready : ∀ t, σ.IsCommitting t → ready t
  partition : ∀ t, σ.partition t ⊆ D.partitions t
  dispatched : ∀ t, σ.fullyDispatched t = true → σ.involveFlag t = .involved
  involved : ∀ t, σ.involveFlag t = .involved → p ∈ D.partitions t
  foreign : ∀ t, σ.involveFlag t = .foreign → p ∉ D.partitions t
  received : ∀ t, σ.commitReceived t = true → σ.IsCommitting t ∧ p ∈ D.partitions t

/-- Component vectors hold components, and the marks mean what they say. -/
structure Components [LinearOrder Tx] (D : Deployment Site Par Tx) (ready : Tx → Prop)
    (σ : RccServer Site Par Tx) : Prop where
  rest : Search.Rest D.adj σ.search
  component : ∀ t, σ.Done t → IsComponent D.adj t (σ.sccOf t)
  shared : ∀ t w, σ.Done t → Mutual D.adj t w → σ.scc w = σ.scc t
  own : ∀ t, ¬σ.Done t → σ.scc t = .own t
  committing : ∀ t, σ.Done t → σ.IsCommitting t
  parents : ∀ t, σ.Done t → ∀ y ∈ D.adj t, ready y
  decided : ∀ t, σ.IsDecided t → σ.Done t
  together : ∀ t w, σ.IsDecided t → Mutual D.adj t w → σ.IsDecided w
  hinted : ∀ t, σ.allAncCmtHint t = true → σ.IsCommitting t
  covered : ∀ t, σ.allAncCmtHint t = true → ¬σ.Done t → ∀ y ∈ D.adj t, σ.Covered y
  alone : ∀ t, σ.Done t → σ.allAncCmtHint t = true ∨ σ.sccOf t = [t]
  finished : ∀ t, σ.logApplyFinished t = true → σ.allAncCmtHint t = true

def ReplyOK [LinearOrder Tx] (D : Deployment Site Par Tx) (ready : Tx → Prop) (t : Tx) :
    InquireReply Par Tx → Prop
  | .committing parents => parents = D.parents t ∧ ready t
  | .decided scc => IsComponent D.adj t (scc.map Prod.fst) ∧
      ∀ e ∈ scc, e.2 = D.parents e.1 ∧ ready e.1 ∧ ∀ y ∈ D.adj e.1, ready y

def InquiryOK [LinearOrder Tx] (D : Deployment Site Par Tx) (ready : Tx → Prop) (t : Tx) :
    Inquiry Site Par Tx → Prop
  | .idle => True
  | .sent par => par ∈ D.partitions t
  | .waiting site => D.partitionId site ∈ D.partitions t
  | .replied reply => ReplyOK D ready t reply

def Coroutine.asking : Coroutine Tx → Option Tx
  | .inquire _ _ parent _ => some parent
  | _ => none

structure ServerOK [LinearOrder Tx] (D : Deployment Site Par Tx) (ready : Tx → Prop) (p : Par)
    (σ : RccServer Site Par Tx) : Prop where
  known : Known D ready p σ
  comps : Components D ready σ
  walking : ∀ t, Walking D.adj σ t (σ.coroutine t)
  asked : ∀ t, InquiryOK D ready t (σ.inquiry t)
  asking : ∀ t y, (σ.coroutine t).asking = some y →
    σ.duringAsking y = true ∧ σ.sccs (.inquired y) = []
  once : ∀ t t' y, (σ.coroutine t).asking = some y → (σ.coroutine t').asking = some y → t = t'
  unasked : ∀ y, σ.duringAsking y = false → σ.sccs (.inquired y) = []

section Ready

variable [LinearOrder Tx] {D : Deployment Site Par Tx} {ready ready' : Tx → Prop} {p : Par}
  {σ : RccServer Site Par Tx}

theorem InquiryOK.mono (hle : ∀ t, ready t → ready' t) {t : Tx} {i : Inquiry Site Par Tx}
    (h : InquiryOK D ready t i) : InquiryOK D ready' t i := by
  cases i with
  | replied reply =>
    cases reply with
    | committing parents => exact ⟨h.1,hle t h.2⟩
    | decided scc =>
      refine ⟨h.1,fun e he => ?_⟩
      obtain ⟨hpar,hr,hy⟩ := h.2 e he
      exact ⟨hpar,hle _ hr,fun y hadj => hle y (hy y hadj)⟩
  | _ => exact h

theorem ServerOK.mono (hle : ∀ t, ready t → ready' t) (h : ServerOK D ready p σ) :
    ServerOK D ready' p σ :=
  {h with
   known := {h.known with ready := fun t ht => hle t (h.known.ready t ht)}
   comps := {h.comps with parents := fun t ht y hy => hle y (h.comps.parents t ht y hy)}
   asked := fun t => (h.asked t).mono hle}

end Ready

section Frames

variable [LinearOrder Tx] {D : Deployment Site Par Tx} {ready : Tx → Prop} {p : Par}
  {σ : RccServer Site Par Tx}

section

variable (h : ServerOK D ready p σ)
include h

theorem ServerOK.frame (waiting done hint sccHint started : Tx → Bool) (executed : List Tx) :
    let σ' := {σ with
      waitingAllAncCommitting := waiting
      waitAllAncCommitDone := done
      allNonsccParentsExecutedHint := hint
      sccAllNonsccParentsExecutedHint := sccHint
      logApplyStarted := started
      executed := executed}
    ServerOK D ready p σ' := by
  intro σ'
  have hext : Ext σ σ' := ⟨fun _ ht => ht,fun _ ht => ht,fun _ ht => ht⟩
  exact {h with
    known := {h.known with}
    comps := {h.comps with}
    walking := fun t => (h.walking t).mono hext}

/-- A step that leaves the coroutines where they are keeps the invariant if it keeps
what the server knows and the components. -/
theorem ServerOK.update {σ' : RccServer Site Par Tx}
    (hknown : Known D ready p σ') (hcomps : Components D ready σ') (hext : Ext σ σ')
    (hco : σ'.coroutine = σ.coroutine) (hinq : σ'.inquiry = σ.inquiry)
    (hasking : σ'.duringAsking = σ.duringAsking)
    (hfresh : ∀ t y, (σ.coroutine t).asking = some y ∨ σ.duringAsking y = false →
      σ'.sccs (.inquired y) = σ.sccs (.inquired y)) : ServerOK D ready p σ' where
  known := hknown
  comps := hcomps
  walking t := by
    rw [hco]
    exact (h.walking t).mono hext
  asked t := by
    rw [hinq]
    exact h.asked t
  asking t y hy := by
    rw [hco] at hy
    rw [hasking,hfresh t y (Or.inl hy)]
    exact h.asking t y hy
  once t t' y hy hy' := by
    rw [hco] at hy hy'
    exact h.once t t' y hy hy'
  unasked y hy := by
    rw [hasking] at hy
    rw [hfresh y y (Or.inr hy)]
    exact h.unasked y hy

theorem ServerOK.goto {t : Tx} {k : Coroutine Tx}
    (hk : Walking D.adj σ t k) (hask : k.asking = none) : ServerOK D ready p (σ.goto t k) := by
  have hext : Ext σ (σ.goto t k) := ⟨fun _ ht => ht,fun _ ht => ht,fun _ ht => ht⟩
  have hold : ∀ x y, ((σ.goto t k).coroutine x).asking = some y →
      (σ.coroutine x).asking = some y := by
    intro x y hy
    simp only [RccServer.goto,update_apply] at hy
    split_ifs at hy
    · rw [hask] at hy
      cases hy
    · exact hy
  refine {h with
    known := {h.known with}
    comps := {h.comps with}
    walking := fun x => ?_
    asking := fun x y hy => h.asking x y (hold x y hy)
    once := fun x x' y hy hy' => h.once x x' y (hold x y hy) (hold x' y hy')}
  simp only [RccServer.goto,update_apply]
  split_ifs with hx
  · rw [hx]
    exact hk.mono hext
  · exact (h.walking x).mono hext

theorem ServerOK.ask {t self parent : Tx} {w : Walk Tx} {vs : List Tx} {par : Par}
    (hk : VisitOK D.adj σ t w self (parent::vs))
    (hnot : σ.duringAsking parent = false) (hpar : par ∈ D.partitions parent) :
    let σ' := {σ with
      duringAsking := Function.update σ.duringAsking parent true
      inquiry := Function.update σ.inquiry parent (.sent par)}.goto t (.inquire w self parent vs)
    ServerOK D ready p σ' := by
  intro σ'
  have hext : Ext σ σ' := ⟨fun _ ht => ht,fun _ ht => ht,fun _ ht => ht⟩
  have hother : ∀ x, (σ.coroutine x).asking ≠ some parent := by
    intro x hx
    rw [(h.asking x parent hx).1] at hnot
    cases hnot
  refine ⟨{h.known with},{h.comps with},?_,?_,?_,?_,?_⟩
  · intro x
    simp only [σ',RccServer.goto,update_apply]
    split_ifs with hx
    · rw [hx]
      exact hk.mono hext
    · exact (h.walking x).mono hext
  · intro x
    simp only [σ',RccServer.goto,update_apply]
    split_ifs with hx
    · rw [hx]
      exact hpar
    · exact h.asked x
  · intro x y hy
    simp only [σ',RccServer.goto,update_apply] at hy ⊢
    split_ifs at hy with hx
    · cases hy
      exact ⟨by simp,h.unasked parent hnot⟩
    · obtain ⟨hd,hs⟩ := h.asking x y hy
      exact ⟨by simp [hd],hs⟩
  · intro x x' y hy hy'
    simp only [σ',RccServer.goto,update_apply] at hy hy'
    split_ifs at hy hy' with hx hx' hx'
    · rw [hx,hx']
    · cases hy
      exact absurd hy' (hother x')
    · cases hy'
      exact absurd hy (hother x)
    · exact h.once x x' y hy hy'
  · intro y hy
    simp only [σ',RccServer.goto,update_apply] at hy
    split_ifs at hy
    exact h.unasked y hy

end

end Frames

section Involve

variable {D : Deployment Site Par Tx} {ready : Tx → Prop} {p : Par} {σ : RccServer Site Par Tx}
variable {t : Tx}

theorem Components.frame [LinearOrder Tx] (h : Components D ready σ) (partition : Tx → Finset Par)
    (flag : Tx → InvolveEnum) (dispatched received : Tx → Bool) (parents : Tx → ParentSet Par Tx) :
    Components D ready {σ with
      partition := partition
      involveFlag := flag
      fullyDispatched := dispatched
      commitReceived := received
      parents := parents} :=
  {h with}

theorem Known.parentIds (h : Known D ready p σ) (ht : σ.IsCommitting t) :
    σ.parentIds t = D.adj t := congrArg (List.map Prod.fst) (h.final t ht)

variable [LinearOrder Par]

theorem Known.of_involve (h : Known D ready p σ) (hi : σ.involve p t = true) :
    p ∈ D.partitions t := by
  unfold involve at hi
  split at hi
  · next hflag => exact h.involved t hflag
  · cases hi
  · exact h.partition t (by simpa using hi)

theorem Known.involve_of_dispatched (h : Known D ready p σ)
    (hd : σ.fullyDispatched t = true) : σ.involve p t = true := by
  unfold involve
  rw [h.dispatched t hd]

variable (D ready p σ) in
def Here : Prop := ∀ t, ready t → p ∈ D.partitions t → σ.fullyDispatched t = true

variable [LinearOrder Tx]

theorem Known.insertPartition {ps : Finset Par} (h : Known D ready p σ)
    (hps : ps ⊆ D.partitions t) : Known D ready p (σ.insertPartition t ps) := by
  refine {h with partition := fun x => ?_}
  simp only [RccServer.insertPartition,update_apply]
  split_ifs with hx
  · rw [hx]
    exact Finset.union_subset (h.partition t) hps
  · exact h.partition x

/-- The answer that is kept is right, since a committing transaction was pre-accepted
here if it involves this partition. -/
theorem Known.cacheInvolve (h : Known D ready p σ) (hhere : Here D ready p σ) :
    Known D ready p (σ.cacheInvolve p t) := by
  unfold RccServer.cacheInvolve
  split
  · next hc =>
    have hnot : ∀ x, σ.fullyDispatched x = true → x ≠ t := by
      rintro x hx rfl
      rw [h.dispatched x hx] at hc
      cases hc.1
    refine {h with
      dispatched := fun x hx => ?_
      involved := fun x hx => ?_
      foreign := fun x hx => ?_}
    · simp only [update_of_ne (hnot x hx)]
      exact h.dispatched x hx
    · simp only [update_apply] at hx
      split_ifs at hx with hxt hp
      · rw [hxt]
        exact h.partition t hp
      · exact h.involved x hx
    · simp only [update_apply] at hx
      split_ifs at hx with hxt hp
      · rw [hxt]
        exact fun hpt => hnot t (hhere t (h.ready t hc.2) hpt) rfl
      · exact h.foreign x hx
  · exact h

theorem cacheInvolve_eq (t : Tx) :
    σ.cacheInvolve p t = {σ with involveFlag := (σ.cacheInvolve p t).involveFlag} := by
  unfold cacheInvolve
  split <;> rfl

theorem ServerOK.insertPartition {ps : Finset Par} (h : ServerOK D ready p σ)
    (hps : ps ⊆ D.partitions t) : ServerOK D ready p (σ.insertPartition t ps) :=
  h.update (h.known.insertPartition hps) (h.comps.frame _ _ _ _ _)
    ⟨fun _ ht => ht,fun _ ht => ht,fun _ ht => ht⟩ rfl rfl rfl fun _ _ _ => rfl

theorem ServerOK.cacheInvolve (h : ServerOK D ready p σ) (hhere : Here D ready p σ) :
    ServerOK D ready p (σ.cacheInvolve p t) := by
  have hknown := h.known.cacheInvolve hhere (t:=t)
  rw [cacheInvolve_eq] at hknown ⊢
  exact h.update hknown (h.comps.frame _ _ _ _ _)
    ⟨fun _ ht => ht,fun _ ht => ht,fun _ ht => ht⟩ rfl rfl rfl fun _ _ _ => rfl

end Involve

end Janus.Rcc
