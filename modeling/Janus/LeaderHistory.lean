import Mathlib

/-!
# Histories of elected leaders and their logs

The record that a leader-based replicated log leaves behind: the votes of each term, the logs with
which servers stood for election, who won, how the winner's log grew, and how far each server has
acknowledged it. `Valid` is kept by the five operations at the end, and `Valid.leader_completeness`
is its consequence.
-/

namespace Janus.LeaderHistory

open List Option

variable {σ ε : Type*}
variable {l m : List ε} {n : ℕ}

def Majority [Fintype σ] (Q : Finset σ) : Prop := Fintype.card σ < 2*Q.card

theorem majority_inter [Fintype σ] [DecidableEq σ] {P Q : Finset σ} (hP : Majority P)
    (hQ : Majority Q) : ∃ v, v ∈ P ∧ v ∈ Q := by
  unfold Majority at hP hQ
  have hcard : (Finset.univ : Finset σ).card < P.card+Q.card := by
    rw [Finset.card_univ]
    omega
  obtain ⟨v,hv⟩ := Finset.inter_nonempty_of_card_lt_card_add_card
    (Finset.subset_univ P) (Finset.subset_univ Q) hcard
  exact ⟨v,Finset.mem_of_mem_inter_left hv,Finset.mem_of_mem_inter_right hv⟩

theorem prefix_take_eq (h : l <+: m) (hn : n ≤ l.length) : m.take n = l.take n := by
  obtain ⟨r,rfl⟩ := h
  exact take_append_of_le_length hn

theorem prefix_getElem?_eq {k : ℕ} {e : ε} (h : l <+: m) (hk : l[k]? = some e) :
    m[k]? = some e := by
  obtain ⟨r,rfl⟩ := h
  have hlt : k < l.length := (List.getElem?_eq_some_iff.mp hk).1
  rwa [getElem?_append_left hlt]

/-- `candLog c T` is the log with which `c` stood in term `T`, `leadLog T` that of the leader of
`T` so far, and `acked v T` how many of its entries `v` has acknowledged in that term. -/
structure History (σ ε : Type*) where
  voted : σ → ℕ → Option σ
  candLog : σ → ℕ → List ε
  led : ℕ → Option σ
  leadLog : ℕ → List ε
  acked : σ → ℕ → ℕ

namespace History

variable (term : ε → ℕ) (g : History σ ε) {e : ε} {T : ℕ} {β : Type*} {v c : σ}

def electLog (T : ℕ) : List ε := (g.led T).elim [] fun c => g.candLog c T

/-- Each entry of the log was put there by the leader of its term, on top of the
same entries as in that leader's log. -/
def Sourced (log : List ε) : Prop :=
  ∀ k e, log[k]? = some e → (g.led (term e)).isSome ∧ log.take (k+1) <+: g.leadLog (term e)

/-- The first `i` entries of the leader of `T` reached every later leader below `T'`. -/
def Kept (T i T' : ℕ) : Prop :=
  ∀ U, T < U → U < T' → (g.led U).isSome → (g.leadLog T).take i <+: g.electLog U

/-- The log that `v` gave its vote of `T'` to has every entry of an earlier leader's own term that
`v` acknowledged and the leaders in between kept. -/
def Vouches (v : σ) (T' : ℕ) (log : List ε) : Prop :=
  ∀ T i, T < T' → 0 < i → i ≤ g.acked v T → (g.leadLog T)[i-1]?.map term = some T →
    g.Kept T i T' → (g.leadLog T).take i <+: log

/-- A majority acknowledged the entry at one-based `i`, which is of the leader's own term. -/
def Committed [Fintype σ] (T i : ℕ) : Prop :=
  0 < i ∧ (g.leadLog T)[i-1]?.map term = some T ∧
    ∃ Q : Finset σ, Majority Q ∧ ∀ v ∈ Q, i ≤ g.acked v T

structure Valid [Fintype σ] : Prop where
  led_pos : ∀ T c, g.led T = some c → 0 < T
  led_voted : ∀ T c, g.led T = some c → g.voted c T = some c
  voted_self : ∀ v T c, g.voted v T = some c → g.voted c T = some c
  quorum : ∀ T c, g.led T = some c → ∃ Q : Finset σ, Majority Q ∧
    ∀ v ∈ Q, g.voted v T = some c ∧ g.Vouches term v T (g.candLog c T)
  vouches : ∀ v T c, g.led T = none → g.voted v T = some c → g.Vouches term v T (g.candLog c T)
  unled : ∀ T, g.led T = none → g.leadLog T = []
  cand_prefix : ∀ T c, g.led T = some c → g.candLog c T <+: g.leadLog T
  lead_term : ∀ T, ∀ e ∈ g.leadLog T, term e ≤ T
  lead_sourced : ∀ T, g.Sourced term (g.leadLog T)
  cand_term : ∀ T c, g.voted c T = some c → ∀ e ∈ g.candLog c T, term e < T
  cand_sourced : ∀ T c, g.voted c T = some c → g.Sourced term (g.candLog c T)
  acked_le : ∀ v T, g.acked v T ≤ (g.leadLog T).length

structure Extends (g g' : History σ ε) : Prop where
  led : ∀ T c, g.led T = some c → g'.led T = some c
  cand : ∀ T c, g.voted c T = some c → g'.candLog c T = g.candLog c T
  lead : ∀ T, g.leadLog T <+: g'.leadLog T
  voted : ∀ v T c, g.voted v T = some c → g'.voted v T = some c
  acked : ∀ v T, g.acked v T ≤ g'.acked v T

namespace Extends

variable {g} {g' g'' : History σ ε}
variable {T i : ℕ} {log : List ε}

theorem refl (g : History σ ε) : Extends g g where
  led _ _ h := h
  cand _ _ _ := rfl
  lead _ := prefix_refl _
  voted _ _ _ h := h
  acked _ _ := le_rfl

section

variable (h : Extends g g')
include h

theorem trans (h' : Extends g' g'') : Extends g g'' where
  led T c hc := h'.led T c (h.led T c hc)
  cand T c hc := (h'.cand T c (h.voted c T c hc)).trans (h.cand T c hc)
  lead T := (h.lead T).trans (h'.lead T)
  voted v T c hc := h'.voted v T c (h.voted v T c hc)
  acked v T := (h.acked v T).trans (h'.acked v T)

theorem isSome (hT : (g.led T).isSome) : (g'.led T).isSome := by
  obtain ⟨c,hc⟩ := isSome_iff_exists.mp hT
  rw [h.led T c hc]
  rfl

theorem electLog [Fintype σ] (hg : g.Valid term) (hT : (g.led T).isSome) :
    g'.electLog T = g.electLog T := by
  obtain ⟨c,hc⟩ := isSome_iff_exists.mp hT
  simp only [History.electLog,h.led T c hc,hc,elim_some]
  exact h.cand T c (hg.led_voted T c hc)

theorem take_lead (hi : i ≤ (g.leadLog T).length) :
    (g'.leadLog T).take i = (g.leadLog T).take i := prefix_take_eq (h.lead T) hi

theorem sourced (hs : g.Sourced term log) : g'.Sourced term log := by
  intro k e he
  obtain ⟨hled,hpre⟩ := hs k e he
  exact ⟨h.isSome hled,hpre.trans (h.lead _)⟩

theorem committed [Fintype σ] (hc : g.Committed term T i) : g'.Committed term T i := by
  obtain ⟨hpos,hterm,Q,hQ,hack⟩ := hc
  refine ⟨hpos,?_,Q,hQ,fun v hv => (hack v hv).trans (h.acked v T)⟩
  obtain ⟨e,he,het⟩ := map_eq_some_iff.mp hterm
  rw [prefix_getElem?_eq (h.lead T) he]
  exact congrArg some het

/-- A vouching vote survives every extension that leaves the voter's older
acknowledgements alone. -/
theorem vouchesFor [Fintype σ] (hg : g.Valid term) {v : σ} {T' : ℕ}
    (hack : ∀ T, T < T' → g'.acked v T = g.acked v T) (hv : g.Vouches term v T' log) :
    g'.Vouches term v T' log := by
  intro T i hT hi hacked hterm hkept
  rw [hack T hT] at hacked
  have hlen : i ≤ (g.leadLog T).length := hacked.trans (hg.acked_le v T)
  have htake := h.take_lead hlen
  rw [htake]
  apply hv T i hT hi hacked
  · have hlt : i-1 < (g.leadLog T).length := by omega
    have he : (g.leadLog T)[i-1]? = some (g.leadLog T)[i-1] := getElem?_eq_getElem hlt
    rw [he]
    rw [prefix_getElem?_eq (h.lead T) he] at hterm
    exact hterm
  · intro U hTU hUT hU
    have hk := hkept U hTU hUT (h.isSome hU)
    rwa [htake,h.electLog term hg hU] at hk

end

end Extends

variable {term} {g}
variable {l m : List ε} {w : σ} {U : ℕ}

theorem Sourced.mono (hm : g.Sourced term m) (h : l <+: m) : g.Sourced term l := by
  intro k e he
  obtain ⟨hled,hpre⟩ := hm k e (prefix_getElem?_eq h he)
  have hlt : k < l.length := (List.getElem?_eq_some_iff.mp he).1
  rw [prefix_take_eq h (by omega)] at hpre
  exact ⟨hled,hpre⟩

/-- Log matching: one term at one index fixes everything up to it. -/
theorem Sourced.matching (hl : g.Sourced term l) (hm : g.Sourced term m) {k : ℕ} {d : ε}
    (hd : l[k]? = some d) (he : m[k]? = some e) (ht : term d = term e) :
    l.take (k+1) = m.take (k+1) := by
  have hpl := (hl k d hd).2
  have hpm := (hm k e he).2
  rw [ht] at hpl
  have hkl : k < l.length := (List.getElem?_eq_some_iff.mp hd).1
  have hkm : k < m.length := (List.getElem?_eq_some_iff.mp he).1
  have hll : (l.take (k+1)).length = k+1 := by
    rw [length_take]
    omega
  have hlm : (m.take (k+1)).length = k+1 := by
    rw [length_take]
    omega
  have hpre := prefix_of_prefix_length_le hpl hpm (by omega)
  exact hpre.eq_of_length (by omega)

theorem Sourced.getLast (hl : g.Sourced term l) (he : l.getLast? = some e) :
    (g.led (term e)).isSome ∧ l <+: g.leadLog (term e) := by
  rw [getLast?_eq_getElem?] at he
  obtain ⟨hled,hpre⟩ := hl _ e he
  rw [take_of_length_le (by omega)] at hpre
  exact ⟨hled,hpre⟩

theorem Committed.length_le [Fintype σ] {i : ℕ} (hc : g.Committed term T i) :
    i ≤ (g.leadLog T).length := by
  obtain ⟨hpos,hterm,-⟩ := hc
  obtain ⟨e,he,-⟩ := map_eq_some_iff.mp hterm
  have hlt := (List.getElem?_eq_some_iff.mp he).1
  omega

namespace Valid

variable [Fintype σ] (hg : g.Valid term)
variable {T i : ℕ} {e : ε} {log : List ε}
include hg

theorem electLog_prefix (T : ℕ) : g.electLog T <+: g.leadLog T := by
  unfold electLog
  cases hT : g.led T with
  | none => simp
  | some c => exact hg.cand_prefix T c hT

theorem electLog_term (he : e ∈ g.electLog T) : term e < T := by
  unfold electLog at he
  cases hT : g.led T with
  | none => simp [hT] at he
  | some c =>
    rw [hT] at he
    exact hg.cand_term T c (hg.led_voted T c hT) e he

theorem led_of_lead (h : g.leadLog T ≠ []) : (g.led T).isSome := by
  cases hT : g.led T with
  | none => exact absurd (hg.unled T hT) h
  | some c => rfl

theorem term_pos (hs : g.Sourced term log) (he : e ∈ log) : 0 < term e := by
  obtain ⟨k,hk⟩ := mem_iff_getElem?.mp he
  obtain ⟨c,hc⟩ := isSome_iff_exists.mp (hs k e hk).1
  exact hg.led_pos _ c hc

/-- What a majority acknowledged in `T` is in the log of every later leader: the election majority
shares a server with it, whose vote vouches for the entry, because the leaders in between kept it.
-/
theorem leader_completeness [DecidableEq σ] (hc : g.Committed term T i) (T' : ℕ) (hTT : T < T')
    (hled : (g.led T').isSome) : (g.leadLog T).take i <+: g.electLog T' := by
  induction T' using Nat.strong_induction_on with
  | _ T' ih =>
    obtain ⟨c,hled'⟩ := isSome_iff_exists.mp hled
    obtain ⟨hpos,hterm,Q,hQ,hack⟩ := hc
    obtain ⟨P,hP,hvote⟩ := hg.quorum T' c hled'
    obtain ⟨v,hvP,hvQ⟩ := majority_inter hP hQ
    have hkept : g.Kept T i T' := fun U hTU hUT hU => ih U hUT hTU hU
    have hpre := (hvote v hvP).2 T i hTT hpos (hack v hvQ) hterm hkept
    simpa only [electLog,hled',elim_some] using hpre

/-- What is committed is a front part of every later leader's log. -/
theorem committed_prefix [DecidableEq σ] (hc : g.Committed term T i) (T' : ℕ) (hTT : T ≤ T')
    (hled : (g.led T').isSome) : (g.leadLog T).take i <+: g.leadLog T' := by
  rcases Nat.eq_or_lt_of_le hTT with rfl | hlt
  · exact take_prefix _ _
  · exact (hg.leader_completeness hc T' hlt hled).trans (hg.electLog_prefix T')

theorem committed_led (hc : g.Committed term T i) : (g.led T).isSome := by
  apply hg.led_of_lead
  intro hnil
  have hlen := hc.length_le
  rw [hnil] at hlen
  have hpos := hc.1
  simp at hlen
  omega

/-- A log whose last entry is as new as that of a log holding an acknowledged entry holds it too:
on equal last terms it contains the other log, otherwise what the leader of its last term began
with. -/
theorem held_of_up_to_date {own : List ε} {T' : ℕ} (hi : 0 < i)
    (hterm : (g.leadLog T)[i-1]?.map term = some T) (hkept : g.Kept T i T')
    (hheld : (g.leadLog T).take i <+: own) (hown : g.Sourced term own) (hlog : g.Sourced term log)
    (hlogT : ∀ e ∈ log, term e < T')
    (hnew : (own.getLast?.map term).getD 0 < (log.getLast?.map term).getD 0 ∨
      ((own.getLast?.map term).getD 0 = (log.getLast?.map term).getD 0 ∧
        own.length ≤ log.length)) : (g.leadLog T).take i <+: log := by
  obtain ⟨x,hx,hxT⟩ := map_eq_some_iff.mp hterm
  have hxlt := (List.getElem?_eq_some_iff.mp hx).1
  have hxtake : ((g.leadLog T).take i)[i-1]? = some x := by
    rw [getElem?_take_of_lt (by omega),hx]
  have hxown := prefix_getElem?_eq hheld hxtake
  have hownlt := (List.getElem?_eq_some_iff.mp hxown).1
  obtain ⟨d,hd⟩ : ∃ d, own.getLast? = some d :=
    ⟨_,List.getLast?_eq_some_getLast (ne_nil_of_length_pos (by omega))⟩
  obtain ⟨hdled,hdpre⟩ := hown.getLast hd
  have hTd : T ≤ term d := by
    rw [← hxT]
    exact hg.lead_term _ x (mem_of_getElem? (prefix_getElem?_eq hdpre hxown))
  have hdpos : 0 < term d := hg.term_pos hown (mem_of_getLast? hd)
  simp only [hd,map_some,getD_some] at hnew
  obtain ⟨e,he⟩ : ∃ e, log.getLast? = some e := by
    cases hlast : log.getLast? with
    | some e => exact ⟨e,rfl⟩
    | none =>
      simp only [hlast,map_none,getD_none] at hnew
      omega
  obtain ⟨heled,hepre⟩ := hlog.getLast he
  simp only [he,map_some,getD_some] at hnew
  rcases hnew with hlt | ⟨heq,hlen⟩
  · have heT : term e < T' := hlogT e (mem_of_getLast? he)
    apply (hkept (term e) (by omega) heT heled).trans
    apply prefix_of_prefix_length_le (hg.electLog_prefix _) hepre
    by_contra hshort
    have hin := prefix_of_prefix_length_le hepre (hg.electLog_prefix (term e)) (by omega)
    exact absurd (hg.electLog_term (hin.subset (mem_of_getLast? he))) (lt_irrefl _)
  · rw [← heq] at hepre
    exact hheld.trans (prefix_of_prefix_length_le hdpre hepre hlen)

end Valid

def put {β : Type*} [DecidableEq σ] (f : σ → ℕ → β) (v : σ) (T : ℕ) (x : β) : σ → ℕ → β :=
  fun w U => if w = v ∧ U = T then x else f w U

@[simp] theorem put_same [DecidableEq σ] (f : σ → ℕ → β) (v : σ) (T : ℕ) (x : β) :
    put f v T x v T = x := by simp [put]

theorem put_of_ne [DecidableEq σ] (f : σ → ℕ → β) (x : β)
    (h : ¬(w = v ∧ U = T)) : put f v T x w U = f w U := by simp [put,h]

theorem put_eq_some [DecidableEq σ] {f : σ → ℕ → Option β} {x y : β}
    (h : put f v T (some x) w U = some y) : w = v ∧ U = T ∧ y = x ∨ f w U = some y := by
  by_cases hw : w = v ∧ U = T
  · obtain ⟨rfl,rfl⟩ := hw
    rw [put_same,some.injEq] at h
    exact .inl ⟨rfl,rfl,h.symm⟩
  · rw [put_of_ne _ _ hw] at h
    exact .inr h

variable [DecidableEq σ]

def castVote (g : History σ ε) (v : σ) (T : ℕ) (c : σ) : History σ ε :=
  {g with voted := put g.voted v T (some c)}

def stand (g : History σ ε) (c : σ) (T : ℕ) (log : List ε) : History σ ε :=
  {g with
   voted := put g.voted c T (some c)
   candLog := put g.candLog c T log}

def elect (g : History σ ε) (c : σ) (T : ℕ) : History σ ε :=
  {g with
   led := Function.update g.led T (some c)
   leadLog := Function.update g.leadLog T (g.candLog c T)
   acked := put g.acked c T (g.candLog c T).length}

def append (g : History σ ε) (c : σ) (T : ℕ) (e : ε) : History σ ε :=
  {g with
   leadLog := Function.update g.leadLog T (g.leadLog T++[e])
   acked := put g.acked c T ((g.leadLog T).length+1)}

def acknowledge (g : History σ ε) (v : σ) (T n : ℕ) : History σ ε :=
  {g with acked := put g.acked v T (max (g.acked v T) n)}

theorem castVote_voted_of_ne (h : ¬(w = v ∧ U = T)) :
    (g.castVote v T c).voted w U = g.voted w U := put_of_ne _ _ h

theorem stand_voted_of_ne {log : List ε} (h : ¬(w = c ∧ U = T)) :
    (g.stand c T log).voted w U = g.voted w U := put_of_ne _ _ h

@[simp] theorem elect_led_self : (g.elect c T).led T = some c := by
  simp [elect]

theorem elect_led_of_ne (h : U ≠ T) : (g.elect c T).led U = g.led U :=
  Function.update_of_ne h _ _

@[simp] theorem elect_leadLog_self : (g.elect c T).leadLog T = g.candLog c T := by simp [elect]

theorem elect_leadLog_of_ne (h : U ≠ T) :
    (g.elect c T).leadLog U = g.leadLog U := Function.update_of_ne h _ _

theorem elect_acked_of_ne (h : ¬(w = c ∧ U = T)) :
    (g.elect c T).acked w U = g.acked w U := put_of_ne _ _ h

theorem elect_led {d : σ} (h : (g.elect c T).led U = some d) :
    U = T ∧ d = c ∨ g.led U = some d := by
  by_cases hU : U = T
  · subst hU
    rw [elect_led_self,some.injEq] at h
    exact .inl ⟨rfl,h.symm⟩
  · rw [elect_led_of_ne hU] at h
    exact .inr h

theorem elect_led_none (h : (g.elect c T).led U = none) : U ≠ T ∧ g.led U = none := by
  have hU : U ≠ T := by
    rintro rfl
    simp at h
  rw [elect_led_of_ne hU] at h
  exact ⟨hU,h⟩

/-- A server that votes in no later term changes what it has acknowledged behind its votes only. -/
theorem put_acked {d : σ} {n : ℕ} (hfuture : ∀ T', T < T' → g.voted c T' = none)
    (h : g.voted w U = some d) (V : ℕ) (hV : V < U) : put g.acked c T n w V = g.acked w V := by
  apply put_of_ne
  rintro ⟨rfl,rfl⟩
  simp [hfuture U hV] at h

@[simp] theorem append_leadLog_self :
    (g.append c T e).leadLog T = g.leadLog T++[e] := by simp [append]

theorem append_leadLog_of_ne (h : U ≠ T) :
    (g.append c T e).leadLog U = g.leadLog U := Function.update_of_ne h _ _

theorem append_acked_of_ne (h : ¬(w = c ∧ U = T)) :
    (g.append c T e).acked w U = g.acked w U := put_of_ne _ _ h

theorem acknowledge_acked_of_ne {n : ℕ} (h : ¬(w = v ∧ U = T)) :
    (g.acknowledge v T n).acked w U = g.acked w U := put_of_ne _ _ h

theorem castVote_extends (hfresh : g.voted v T = none) : Extends g (g.castVote v T c) where
  led _ _ h := h
  cand _ _ _ := rfl
  lead _ := prefix_refl _
  voted w U d h := by
    rw [castVote_voted_of_ne (by rintro ⟨rfl,rfl⟩; simp [hfresh] at h)]
    exact h
  acked _ _ := le_rfl

theorem stand_extends (log : List ε) (hfresh : g.voted c T = none) :
    Extends g (g.stand c T log) where
  led _ _ h := h
  cand U d h := put_of_ne _ _ (by rintro ⟨rfl,rfl⟩; simp [hfresh] at h)
  lead _ := prefix_refl _
  voted w U d h := by
    rw [stand_voted_of_ne (by rintro ⟨rfl,rfl⟩; simp [hfresh] at h)]
    exact h
  acked _ _ := le_rfl

section Operations

variable [Fintype σ] (hg : g.Valid term)
variable {c v : σ} {T n : ℕ} {e : ε}
include hg

omit [DecidableEq σ] in
theorem Extends.quorum {g' : History σ ε} (hext : Extends g g')
    (hkeep : ∀ {w U d}, g.voted w U = some d → ∀ V, V < U → g'.acked w V = g.acked w V)
    (hled : g.led T = some c) : ∃ Q : Finset σ, Majority Q ∧
      ∀ v ∈ Q, g'.voted v T = some c ∧ g'.Vouches term v T (g'.candLog c T) := by
  obtain ⟨Q,hQ,hvote⟩ := hg.quorum T c hled
  refine ⟨Q,hQ,fun w hw => ⟨hext.voted _ _ _ (hvote w hw).1,?_⟩⟩
  rw [hext.cand T c (hg.led_voted T c hled)]
  exact hext.vouchesFor term hg (hkeep (hvote w hw).1) (hvote w hw).2

theorem elect_extends (hled : g.led T = none) : Extends g (g.elect c T) where
  led U d h := by
    rw [elect_led_of_ne (by rintro rfl; simp [hled] at h)]
    exact h
  cand _ _ _ := rfl
  lead U := by
    by_cases hU : U = T
    · subst hU
      rw [hg.unled U hled]
      exact nil_prefix
    · rw [elect_leadLog_of_ne hU]
  voted _ _ _ h := h
  acked w U := by
    by_cases hU : w = c ∧ U = T
    · obtain ⟨rfl,rfl⟩ := hU
      have hle := hg.acked_le w U
      rw [hg.unled U hled] at hle
      exact (hle.trans_eq rfl).trans (Nat.zero_le _)
    · rw [elect_acked_of_ne hU]

theorem append_extends : Extends g (g.append c T e) where
  led _ _ h := h
  cand _ _ _ := rfl
  lead U := by
    by_cases hU : U = T
    · subst hU
      simp [append]
    · rw [append_leadLog_of_ne hU]
  voted _ _ _ h := h
  acked w U := by
    by_cases hU : w = c ∧ U = T
    · obtain ⟨rfl,rfl⟩ := hU
      have hle := hg.acked_le w U
      simp only [append,put_same]
      omega
    · rw [append_acked_of_ne hU]

omit hg [Fintype σ] in
theorem acknowledge_extends : Extends g (g.acknowledge v T n) where
  led _ _ h := h
  cand _ _ _ := rfl
  lead _ := prefix_refl _
  voted _ _ _ h := h
  acked w U := by
    by_cases hU : w = v ∧ U = T
    · obtain ⟨rfl,rfl⟩ := hU
      simp [acknowledge]
    · rw [acknowledge_acked_of_ne hU]

theorem Valid.castVote (hfresh : g.voted v T = none) (hc : g.voted c T = some c)
    (hv : g.led T = none → g.Vouches term v T (g.candLog c T)) : (g.castVote v T c).Valid term := by
  have hext := castVote_extends (c:=c) hfresh
  have hold : ∀ {w U d}, (g.castVote v T c).voted w U = some d →
      w = v ∧ U = T ∧ d = c ∨ g.voted w U = some d := put_eq_some
  have hself : ∀ {U d}, (g.castVote v T c).voted d U = some d → g.voted d U = some d := by
    intro U d h
    rcases hold h with ⟨rfl,rfl,rfl⟩ | h
    · exact hc
    · exact h
  refine ⟨hg.led_pos,?_,?_,fun U d => hext.quorum hg fun _ _ _ => rfl,?_,hg.unled,hg.cand_prefix,
    hg.lead_term,hg.lead_sourced,fun U d h => hg.cand_term U d (hself h),fun U d h => hg.cand_sourced U d (hself h),hg.acked_le⟩
  · intro U d h
    exact hext.voted _ _ _ (hg.led_voted U d h)
  · intro w U d h
    rcases hold h with ⟨rfl,rfl,rfl⟩ | h
    · exact hext.voted _ _ _ hc
    · exact hext.voted _ _ _ (hg.voted_self w U d h)
  · intro w U d hU h
    apply hext.vouchesFor term hg (fun _ _ => rfl)
    rcases hold h with ⟨rfl,rfl,rfl⟩ | h
    · exact hv hU
    · exact hg.vouches w U d hU h

theorem Valid.stand {log : List ε} (hfresh : g.voted c T = none) (hlog : g.Sourced term log)
    (hterm : ∀ e ∈ log, term e < T) (hv : g.led T = none → g.Vouches term c T log) :
    (g.stand c T log).Valid term := by
  have hext := stand_extends log hfresh
  have hold : ∀ {w U d}, (g.stand c T log).voted w U = some d →
      w = c ∧ U = T ∧ d = c ∨ g.voted w U = some d := put_eq_some
  have hnew : (g.stand c T log).candLog c T = log := by simp [History.stand]
  refine ⟨hg.led_pos,?_,?_,fun U d => hext.quorum hg fun _ _ _ => rfl,?_,hg.unled,?_,hg.lead_term,
    hg.lead_sourced,?_,?_,hg.acked_le⟩
  · intro U d h
    exact hext.voted _ _ _ (hg.led_voted U d h)
  · intro w U d h
    rcases hold h with ⟨rfl,rfl,rfl⟩ | h
    · simp [History.stand]
    · exact hext.voted _ _ _ (hg.voted_self w U d h)
  · intro w U d hU h
    apply hext.vouchesFor term hg (fun _ _ => rfl)
    rcases hold h with ⟨rfl,rfl,rfl⟩ | h
    · rw [hnew]
      exact hv hU
    · rw [hext.cand U d (hg.voted_self w U d h)]
      exact hg.vouches w U d hU h
  · intro U d h
    rw [hext.cand U d (hg.led_voted U d h)]
    exact hg.cand_prefix U d h
  · intro U d h
    rcases hold h with ⟨rfl,rfl,-⟩ | h
    · rw [hnew]
      exact hterm
    · rw [hext.cand U d h]
      exact hg.cand_term U d h
  · intro U d h
    rcases hold h with ⟨rfl,rfl,-⟩ | h
    · rw [hnew]
      exact hlog
    · rw [hext.cand U d h]
      exact hg.cand_sourced U d h

/-- An election needs a majority of votes in a term nobody has won, and a winner
that has not gone on to a later term. -/
theorem Valid.elect (hled : g.led T = none) (hpos : 0 < T) (hself : g.voted c T = some c)
    {Q : Finset σ} (hQ : Majority Q) (hvote : ∀ v ∈ Q, g.voted v T = some c)
    (hfuture : ∀ T', T < T' → g.voted c T' = none) : (g.elect c T).Valid term := by
  have hext := elect_extends hg (c:=c) hled
  have hkeep : ∀ {w U d}, g.voted w U = some d → ∀ V, V < U →
      (g.elect c T).acked w V = g.acked w V := put_acked hfuture
  refine ⟨?_,?_,hg.voted_self,?_,?_,?_,?_,?_,?_,hg.cand_term,?_,?_⟩
  · intro U d h
    rcases elect_led h with ⟨rfl,-⟩ | h
    · exact hpos
    · exact hg.led_pos U d h
  · intro U d h
    rcases elect_led h with ⟨rfl,rfl⟩ | h
    · exact hself
    · exact hg.led_voted U d h
  · intro U d h
    rcases elect_led h with ⟨rfl,rfl⟩ | h
    · refine ⟨Q,hQ,fun w hw => ⟨hvote w hw,?_⟩⟩
      exact hext.vouchesFor term hg (hkeep (hvote w hw)) (hg.vouches w U d hled (hvote w hw))
    · exact hext.quorum hg hkeep h
  · intro w U d hU h
    exact hext.vouchesFor term hg (hkeep h) (hg.vouches w U d (elect_led_none hU).2 h)
  · intro U hU
    obtain ⟨hUT,hU⟩ := elect_led_none hU
    rw [elect_leadLog_of_ne hUT]
    exact hg.unled U hU
  · intro U d h
    rcases elect_led h with ⟨rfl,rfl⟩ | h
    · rw [elect_leadLog_self]
      exact prefix_refl _
    · exact (hg.cand_prefix U d h).trans (hext.lead U)
  · intro U e he
    by_cases hU : U = T
    · subst hU
      rw [elect_leadLog_self] at he
      exact (hg.cand_term U c hself e he).le
    · rw [elect_leadLog_of_ne hU] at he
      exact hg.lead_term U e he
  · intro U
    apply hext.sourced
    by_cases hU : U = T
    · subst hU
      rw [elect_leadLog_self]
      exact hg.cand_sourced U c hself
    · rw [elect_leadLog_of_ne hU]
      exact hg.lead_sourced U
  · intro U d h
    exact hext.sourced term (hg.cand_sourced U d h)
  · intro w U
    by_cases hU : w = c ∧ U = T
    · obtain ⟨rfl,rfl⟩ := hU
      simp [History.elect]
    · have hle := (hext.lead U).length_le
      rw [elect_acked_of_ne hU]
      exact (hg.acked_le w U).trans hle

omit hg [Fintype σ] [DecidableEq σ] in
theorem Sourced.concat {l : List ε} (hl : g.Sourced term l) (hled : (g.led (term e)).isSome)
    (he : l++[e] <+: g.leadLog (term e)) : g.Sourced term (l++[e]) := by
  intro k d hd
  by_cases hk : k < l.length
  · rw [getElem?_append_left hk] at hd
    rw [take_append_of_le_length (by omega)]
    exact hl k d hd
  · have hlt := (List.getElem?_eq_some_iff.mp hd).1
    rw [length_append,length_singleton] at hlt
    have hkl : k = l.length := by omega
    subst hkl
    rw [getElem?_concat_length,some.injEq] at hd
    subst hd
    rw [take_of_length_le (by simp)]
    exact ⟨hled,he⟩

theorem Valid.append (hled : g.led T = some c) (he : term e = T)
    (hfuture : ∀ T', T < T' → g.voted c T' = none) : (g.append c T e).Valid term := by
  have hext := append_extends hg (c:=c) (T:=T) (e:=e)
  have hkeep : ∀ {w U d}, g.voted w U = some d → ∀ V, V < U →
      (g.append c T e).acked w V = g.acked w V := put_acked hfuture
  refine ⟨hg.led_pos,hg.led_voted,hg.voted_self,?_,?_,?_,?_,?_,?_,hg.cand_term,?_,?_⟩
  · exact fun U d => hext.quorum hg hkeep
  · intro w U d hU h
    exact hext.vouchesFor term hg (hkeep h) (hg.vouches w U d hU h)
  · intro U hU
    have hUT : U ≠ T := by
      rintro rfl
      simp [History.append,hled] at hU
    rw [append_leadLog_of_ne hUT]
    exact hg.unled U hU
  · intro U d h
    exact (hg.cand_prefix U d h).trans (hext.lead U)
  · intro U d hd
    by_cases hU : U = T
    · subst hU
      rw [append_leadLog_self,mem_append,mem_singleton] at hd
      rcases hd with hd | rfl
      · exact hg.lead_term U d hd
      · exact he.le
    · rw [append_leadLog_of_ne hU] at hd
      exact hg.lead_term U d hd
  · intro U
    by_cases hU : U = T
    · subst hU
      rw [append_leadLog_self]
      apply Sourced.concat (hext.sourced term (hg.lead_sourced U))
      · rw [he,hext.led U c hled]
        rfl
      · rw [he,append_leadLog_self]
    · rw [append_leadLog_of_ne hU]
      exact hext.sourced term (hg.lead_sourced U)
  · intro U d h
    exact hext.sourced term (hg.cand_sourced U d h)
  · intro w U
    by_cases hU : w = c ∧ U = T
    · obtain ⟨rfl,rfl⟩ := hU
      simp [History.append]
    · have hle := (hext.lead U).length_le
      rw [append_acked_of_ne hU]
      exact (hg.acked_le w U).trans hle

theorem Valid.acknowledge (hn : n ≤ (g.leadLog T).length)
    (hfuture : ∀ T', T < T' → g.voted v T' = none) : (g.acknowledge v T n).Valid term := by
  have hext := acknowledge_extends (g:=g) (v:=v) (T:=T) (n:=n)
  have hkeep : ∀ {w U d}, g.voted w U = some d → ∀ V, V < U →
      (g.acknowledge v T n).acked w V = g.acked w V := put_acked hfuture
  refine {hg with quorum := ?_, vouches := ?_, acked_le := ?_}
  · exact fun U d => hext.quorum hg hkeep
  · intro w U d hU h
    exact hext.vouchesFor term hg (hkeep h) (hg.vouches w U d hU h)
  · intro w U
    by_cases hU : w = v ∧ U = T
    · obtain ⟨rfl,rfl⟩ := hU
      simp only [History.acknowledge,put_same]
      exact max_le (hg.acked_le w U) hn
    · rw [acknowledge_acked_of_ne hU]
      exact hg.acked_le w U

end Operations

def empty : History σ ε where
  voted _ _ := none
  candLog _ _ := []
  led _ := none
  leadLog _ := []
  acked _ _ := 0

omit [DecidableEq σ] in
theorem Valid.empty [Fintype σ] : (empty : History σ ε).Valid term := by
  constructor <;> simp [History.empty,Sourced]

end History
end Janus.LeaderHistory
