import Janus.CopilotCluster

/-! Runs of a Copilot partition: what has been broadcast and answered, who proposed what, and
what the replicas cannot know yet. -/

namespace Janus.Copilot

open Transition List Option Nat Cast CopilotServer

def own (p : Bool) : ℕ := if p then 0 else 1

theorem own_pilotLog {site : ℕ} (h : site < 2) : own (pilotLog site) = site := by
  match site,h with
  | 0,_ => rfl
  | 1,_ => rfl

theorem own_lt (p : Bool) : own p < 2 := by
  cases p <;> decide

theorem own_not (p : Bool) : own (!p) ≠ own p := by
  cases p <;> decide

/-- Two sets with more than `n` replicas together meet. -/
theorem exists_common {n : ℕ} {A P : Finset ℕ} (hA : ∀ r ∈ A, r < n) (hP : ∀ r ∈ P, r < n)
    (h : n < A.card+P.card) : ∃ r ∈ A, r ∈ P := by
  have hsub : ∀ {B : Finset ℕ}, (∀ r ∈ B, r < n) → B ⊆ Finset.range n := fun hB r hr =>
    Finset.mem_range.mpr (hB r hr)
  obtain ⟨r,hr⟩ := Finset.inter_nonempty_of_card_lt_card_add_card (hsub hA) (hsub hP)
    (by rwa [Finset.card_range])
  exact ⟨r,Finset.mem_inter.mp hr⟩

variable {β : Type} {f f' : ℕ → Option β} {k a : ℕ} {b : β}

theorem update_cases {v : Option β}
    (h : ∀ a, f' a = if a = k then v else f a) (hb : f' a = some b) :
    f a = some b ∨ v = some b ∧ a = k := by
  rw [h] at hb
  split_ifs at hb with hk
  · exact .inr ⟨hb,hk⟩
  · exact .inl hb

theorem update_some {v : β} (h : ∀ a, f' a = if a = k then some v else f a)
    (hb : f' a = some b) : b = v ∨ f a = some b := by
  rcases update_cases h hb with hb | ⟨hb,-⟩
  · exact .inr hb
  · exact .inl (some.inj hb).symm

theorem CopilotData.fastAccept_status {C : Type} {d : CopilotData C} {b : ℕ} (hb : d.ballot ≤ b)
    (dep sug : ℕ) (cmd : Option (Command C)) :
    (d.fastAccept b dep cmd sug).status = .fastAcceptedEq ∨
      (d.fastAccept b dep cmd sug).status = .fastAccepted := by
  unfold fastAccept
  rw [if_pos hb]
  split_ifs
  · exact .inl rfl
  · exact .inr rfl

namespace Cast

variable {C : Type} {e : Cast C} {site n r : ℕ} {m : Message C} {ρ : Reply C} {e' : Cast C}
variable {p : Bool} {i : ℕ}

structure For (e : Cast C) (p : Bool) (i site : ℕ) (m : Message C) : Prop where
  isPilot : e.isPilot = p
  slot : e.slot = i
  site : e.site = site
  msg : e.msg = m

structure Grew (e e' : Cast C) : Prop where
  isPilot : e'.isPilot = e.isPilot
  slot : e'.slot = e.slot
  site : e'.site = e.site
  msg : e'.msg = e.msg
  replies : ∀ r ρ, e.replies r = some ρ → e'.replies r = some ρ

theorem Grew.refl (e : Cast C) : e.Grew e := ⟨rfl,rfl,rfl,rfl,fun _ _ => id⟩

theorem For.grew (h : e.For p i site m) (hg : e.Grew e') : e'.For p i site m :=
  ⟨hg.isPilot.trans h.isPilot,hg.slot.trans h.slot,hg.site.trans h.site,hg.msg.trans h.msg⟩

theorem For.ungrew (h : e'.For p i site m) (hg : e.Grew e') : e.For p i site m :=
  ⟨hg.isPilot ▸ h.isPilot,hg.slot ▸ h.slot,hg.site ▸ h.site,hg.msg ▸ h.msg⟩

theorem for_fresh (site : ℕ) (p : Bool) (i : ℕ) (m : Message C) :
    (fresh site p i m).For p i site m := ⟨rfl,rfl,rfl,rfl⟩

/-- The answers of an event come from different replicas, a site that broadcasts a FastAccept or an
Accept has answered it, and the replies have the right kind. -/
structure Fed (n : ℕ) (e : Cast C) : Prop where
  nodup : e.answers.Nodup
  sent : ∀ r ∈ e.answers, e.replies r ≠ none
  bound : ∀ r, e.replies r ≠ none → r < n
  fastAccept : ∀ b d cmd, e.msg = .fastAccept b d cmd →
    e.site ∈ e.answers ∧ e.replies e.site = some (.dep d) ∧
      ∀ r ρ, e.replies r = some ρ → ∃ d, ρ = .dep d
  accept : ∀ b d cmd, e.msg = .accept b d cmd → e.site ∈ e.answers
  prepare : ∀ b, e.msg = .prepare b → ∀ r ρ, e.replies r = some ρ → ∃ rep, ρ = .prepared rep

theorem fed_fresh (site : ℕ) (p : Bool) (i : ℕ)
    (hf : ∀ b d cmd, m ≠ .fastAccept b d cmd) (ha : ∀ b d cmd, m ≠ .accept b d cmd) :
    (fresh site p i m).Fed n where
  nodup := nodup_nil
  sent := nofun
  bound r hr := absurd rfl hr
  fastAccept b d cmd hm := absurd hm (hf b d cmd)
  accept b d cmd hm := absurd hm (ha b d cmd)
  prepare _ _ r ρ hr := by cases hr

@[simp] theorem withReply_replies (e : Cast C) (r : ℕ) (ρ : Reply C) (r' : ℕ) :
    (e.withReply r ρ).replies r' = if r' = r then some ρ else e.replies r' := by
  unfold withReply
  rcases eq_or_ne r' r with rfl | hne
  · simp
  · simp [hne]

theorem withReply_cases {r' : ℕ} {ρ' : Reply C}
    (h : (e.withReply r ρ).replies r' = some ρ') : r' = r ∧ ρ' = ρ ∨ e.replies r' = some ρ' := by
  rw [withReply_replies] at h
  split_ifs at h with hr
  · exact .inl ⟨hr,(some.inj h).symm⟩
  · exact .inr h

theorem grew_reply (ρ : Reply C) (hnew : e.replies r = none) : e.Grew (e.withReply r ρ) := by
  refine ⟨rfl,rfl,rfl,rfl,fun r' ρ' hr => ?_⟩
  have hne : r' ≠ r := by
    rintro rfl
    rw [hnew] at hr
    cases hr
  rw [withReply_replies,if_neg hne,hr]

theorem grew_answer (e : Cast C) (r : ℕ) : e.Grew (e.withAnswer r) :=
  ⟨rfl,rfl,rfl,rfl,fun _ _ => id⟩

theorem fed_local (hsite : site < n) (p : Bool) (i : ℕ)
    (hm : (∃ b d cmd, m = .fastAccept b d cmd ∧ ρ = .dep d) ∨ ∃ b d cmd, m = .accept b d cmd) :
    Fed n (((fresh site p i m).withReply site ρ).withAnswer site) := by
  have hreply : ∀ r ρ', ((fresh site p i m).withReply site ρ).replies r = some ρ' →
      r = site ∧ ρ' = ρ := by
    intro r ρ' hr
    rcases withReply_cases hr with h | h
    · exact h
    · cases h
  refine ⟨nodup_singleton _,fun r hr => ?_,fun r hr => ?_,fun b d cmd hfa => ?_,
    fun _ _ _ _ => mem_singleton_self _,fun b hp => ?_⟩
  · rw [mem_singleton.mp hr]
    exact (withReply_replies _ _ _ _).trans_ne (by simp)
  · obtain ⟨ρ',hρ⟩ := ne_none_iff_exists'.mp hr
    exact (hreply r ρ' hρ).1 ▸ hsite
  · rcases hm with ⟨b',d',cmd',rfl,rfl⟩ | ⟨b',d',cmd',rfl⟩
    · cases hfa
      refine ⟨mem_singleton_self _,(withReply_replies _ _ _ _).trans (if_pos rfl),
        fun r ρ' hr => ?_⟩
      exact ⟨d,(hreply r ρ' hr).2⟩
    · cases hfa
  · rcases hm with ⟨b',d',cmd',rfl,-⟩ | ⟨b',d',cmd',rfl⟩ <;> cases hp

theorem Fed.reply (h : e.Fed n) (hr : r < n) (hnew : e.replies r = none)
    (hfa : ∀ b d cmd, e.msg = .fastAccept b d cmd → ∃ d, ρ = .dep d)
    (hp : ∀ b, e.msg = .prepare b → ∃ rep, ρ = .prepared rep) : Fed n (e.withReply r ρ) := by
  have hg := grew_reply ρ hnew
  refine ⟨h.nodup,fun r' hr' => ?_,fun r' hr' => ?_,fun b d cmd hm => ?_,h.accept,
    fun b hm r' ρ' hr' => ?_⟩
  · obtain ⟨ρ',hρ⟩ := ne_none_iff_exists'.mp (h.sent r' hr')
    exact ne_none_iff_exists'.mpr ⟨ρ',hg.replies r' ρ' hρ⟩
  · obtain ⟨ρ',hρ⟩ := ne_none_iff_exists'.mp hr'
    rcases withReply_cases hρ with ⟨rfl,-⟩ | hold
    · exact hr
    · exact h.bound r' (by simp [hold])
  · obtain ⟨hmem,hself,hdep⟩ := h.fastAccept b d cmd hm
    refine ⟨hmem,hg.replies _ _ hself,fun r' ρ' hr' => ?_⟩
    rcases withReply_cases hr' with ⟨-,rfl⟩ | hold
    · exact hfa b d cmd hm
    · exact hdep r' ρ' hold
  · rcases withReply_cases hr' with ⟨-,rfl⟩ | hold
    · exact hp b hm
    · exact h.prepare b hm r' ρ' hold

theorem Fed.answer (h : e.Fed n) (hsent : e.replies r ≠ none)
    (hnew : r ∉ e.answers) : Fed n (e.withAnswer r) where
  nodup := nodup_append.mpr ⟨h.nodup,nodup_singleton r,fun a ha b hb he =>
    hnew (mem_singleton.mp hb ▸ he ▸ ha)⟩
  sent r' hr' := by
    rcases mem_append.mp hr' with hold | hr'
    · exact h.sent r' hold
    · exact mem_singleton.mp hr' ▸ hsent
  bound := h.bound
  fastAccept b d cmd hm := by
    obtain ⟨hmem,hrest⟩ := h.fastAccept b d cmd hm
    exact ⟨mem_append_left _ hmem,hrest⟩
  accept b d cmd hm := mem_append_left _ (h.accept b d cmd hm)
  prepare := h.prepare

def votes (e : Cast C) (P : ℕ → Bool) (r : ℕ) : Bool :=
  match e.replies r with
  | some (.dep d) => P d
  | _ => false

theorem votes_iff {P : ℕ → Bool} :
    e.votes P r = true ↔ ∃ d, P d = true ∧ e.replies r = some (.dep d) := by
  unfold votes
  split
  next d hd => simp [hd]
  next hno =>
    refine ⟨nofun,?_⟩
    rintro ⟨d,-,hd⟩
    exact absurd hd (hno d)

theorem retDeps_filter_length (e : Cast C) (P : ℕ → Bool) :
    (e.retDeps.filter P).length = (e.answers.filter (e.votes P)).length := by
  unfold retDeps
  induction e.answers with
  | nil => rfl
  | cons r l ih =>
    by_cases hdep : ∃ d, e.replies r = some (.dep d)
    · obtain ⟨d,hd⟩ := hdep
      have hv : e.votes P r = P d := by simp only [votes,hd]
      rw [filterMap_cons_some (by rw [hd]),filter_cons,filter_cons,hv]
      by_cases hP : P d = true
      · rw [if_pos hP,if_pos hP,length_cons,length_cons,ih]
      · rw [if_neg hP,if_neg hP,ih]
    · have hv : ¬e.votes P r = true := fun hv => hdep ((votes_iff.mp hv).imp fun _ h => h.2)
      rw [filterMap_cons_none,filter_cons_of_neg hv,ih]
      split
      next d hd => exact absurd ⟨d,hd⟩ hdep
      · rfl

theorem Fed.voters (h : e.Fed n) (P : ℕ → Bool) :
    ∃ A : Finset ℕ, A.card = (e.retDeps.filter P).length ∧
      ∀ r ∈ A, r < n ∧ ∃ d, P d = true ∧ e.replies r = some (.dep d) := by
  refine ⟨(e.answers.filter (e.votes P)).toFinset,?_,fun r hr => ?_⟩
  · rw [retDeps_filter_length,toFinset_card_of_nodup (h.nodup.filter _)]
  · obtain ⟨hmem,hv⟩ := mem_filter.mp (List.mem_toFinset.mp hr)
    exact ⟨h.bound r (h.sent r hmem),votes_iff.mp hv⟩

/-- A fast quorum: its site is in it even where `fastQuorumSize` is zero. -/
theorem Fed.fastQuorum {b d : ℕ} {cmd : Option (Command C)} (h : e.Fed n)
    (hm : e.msg = .fastAccept b d cmd) (hyes : e.fastYes n d = true) :
    ∃ A : Finset ℕ, max 1 (fastQuorumSize n) ≤ A.card ∧
      ∀ r ∈ A, r < n ∧ e.replies r = some (.dep d) := by
  obtain ⟨A,hcard,hA⟩ := h.voters fun d' => d' = d
  obtain ⟨hmem,hself,-⟩ := h.fastAccept b d cmd hm
  refine ⟨A,max_le ?_ (hcard ▸ of_decide_eq_true hyes),fun r hr => ?_⟩
  · rw [hcard,retDeps_filter_length]
    exact length_pos_of_mem (mem_filter.mpr ⟨hmem,votes_iff.mpr ⟨d,by simp,hself⟩⟩)
  · obtain ⟨hr,d',hd,hrep⟩ := hA r hr
    exact ⟨hr,of_decide_eq_true hd ▸ hrep⟩

theorem Fed.answerers (h : e.Fed n) :
    ∃ A : Finset ℕ, A.card = e.answers.length ∧ ∀ r ∈ A, r < n ∧ ∃ ρ, e.replies r = some ρ := by
  refine ⟨e.answers.toFinset,toFinset_card_of_nodup h.nodup,fun r hr => ?_⟩
  have hsent := h.sent r (List.mem_toFinset.mp hr)
  exact ⟨h.bound r hsent,ne_none_iff_exists'.mp hsent⟩

end Cast

namespace Coord

variable {C : Type} {x : Coord C} {ph : Phase C}

def Proposing (x : Coord C) : Prop := ∃ k, x.phase = .fastAccept k

def Decided (x : Coord C) : Prop := (∀ k, x.phase ≠ .fastAccept k) ∧ ∀ k, x.phase ≠ .accept k

structure Evolves (x y : Coord C) : Prop where
  site : y.site = x.site
  slot : y.slot = x.slot
  ballot : y.ballot = x.ballot
  cmd : y.cmd = x.cmd
  proposing : ¬y.Proposing
  dep : ¬x.Proposing → y.dep = x.dep
  decided : x.Decided → y.Decided

theorem Evolves.isPilot {y : Coord C} (h : x.Evolves y) : y.isPilot = x.isPilot := by
  unfold Coord.isPilot
  rw [h.site]

theorem Decided.not_proposing (h : x.Decided) : ¬x.Proposing := fun ⟨k,hk⟩ => h.1 k hk

def Past (ph : Phase C) : Prop := (∀ k, ph ≠ .fastAccept k) ∧ ∀ k, ph ≠ .accept k

theorem past_of_done (h : ph = .done ∨ ph = .waiting) : Past ph := by
  rcases h with rfl | rfl
  · exact ⟨nofun,nofun⟩
  · exact ⟨nofun,nofun⟩

theorem evolves_past (x : Coord C) (h : Past ph) : x.Evolves {x with phase := ph} :=
  ⟨rfl,rfl,rfl,rfl,fun ⟨k,hk⟩ => h.1 k hk,fun _ => rfl,fun _ => h⟩

end Coord

namespace CopilotServer

variable {C : Type} {v v' : CopilotServer C}

structure Sound (v : CopilotServer C) : Prop where
  active : ∀ q, 0 < (v.logInfos q).minActiveSlot
  unseen : ∀ q j, ¬v.Freed q j → (v.logInfos q).currentSlot < j →
    (v.ins q j).ballot = 0 ∧ (v.ins q j).status = .notAccepted ∧ (v.ins q j).cmd = none

/-- A handler stores something for a slot that it has seen, or there is only execution. -/
inductive Moves (v v' : CopilotServer C) : Prop
  | keeps (h : v.Keeps v')
  | updates {p : Bool} {i : ℕ} {d : CopilotData C} (h : v.Updates v' p i d)
      (hseen : i ≤ (v'.logInfos p).currentSlot)

theorem Moves.refl (v : CopilotServer C) : v.Moves v := .keeps (.refl v)

theorem Moves.seen (h : v.Moves v') (q : Bool) :
    (v.logInfos q).currentSlot ≤ (v'.logInfos q).currentSlot := by
  cases h with
  | keeps h => exact (h.seen q).ge
  | updates h _ => exact (h.same q).seen

theorem Sound.moves (hs : v.Sound) (h : v.Moves v') : v'.Sound := by
  cases h with
  | keeps h =>
    refine ⟨fun q => (hs.active q).trans_le (h.active q),fun q j hf hj => ?_⟩
    obtain ⟨hb,hst,hcmd⟩ := hs.unseen q j (fun hfr => hf (h.freed hfr)) (h.seen q ▸ hj)
    have hc := h.held q j hf
    refine ⟨hc.ballot.trans hb,?_,hc.cmd.trans hcmd⟩
    rcases hc.status with he | ⟨-,hne⟩
    · exact he.trans hst
    · exact absurd hcmd hne
  | @updates p i d h hseen =>
    refine ⟨fun q => (h.same q).minActive ▸ hs.active q,fun q j hf hj => ?_⟩
    have hne : ¬(q = p ∧ j = i) := by
      rintro ⟨rfl,rfl⟩
      omega
    rw [h.other hne]
    exact hs.unseen q j ((h.freed q j).not.mp hf) (((h.same q).seen).trans_lt hj)

theorem sound_setup : (setup : CopilotServer C).Sound where
  active q := Nat.one_pos
  unseen q j _ hj := by
    have hins : (setup : CopilotServer C).ins q j = {} := by
      refine (CopilotLogInfo.set_ins _ _ _ _).trans ?_
      rw [if_neg (by exact hj.ne')]
      rfl
    rw [hins]
    exact ⟨rfl,rfl,rfl⟩

end CopilotServer

/-- A broadcast: the log and the slot, the site and the message. -/
abbrev Saying (C : Type) := Bool × ℕ × ℕ × Message C

/-- The reply of a replica to it. -/
abbrev Replying (C : Type) := Bool × ℕ × ℕ × Message C × ℕ × Reply C

namespace Cluster

variable {C : Type} {n : ℕ} {s s' : Cluster C} {p : Bool} {i site r k c : ℕ} {m : Message C}
variable {ρ : Reply C} {x y : Coord C} {e : Cast C} {a : Action C}
variable {rep : Option (Replying C)}
variable {e' : Cast C} {new : Option (Cast C)} {v : CopilotServer C} {committed : ℕ → Bool}

def Said (s : Cluster C) (p : Bool) (i site : ℕ) (m : Message C) : Prop :=
  ∃ k e, s.casts k = some e ∧ e.For p i site m

def Replied (s : Cluster C) (p : Bool) (i site : ℕ) (m : Message C) (r : ℕ) (ρ : Reply C) : Prop :=
  ∃ k e, s.casts k = some e ∧ e.For p i site m ∧ e.replies r = some ρ

theorem Replied.said (h : s.Replied p i site m r ρ) : s.Said p i site m := by
  obtain ⟨k,e,he,hfor,-⟩ := h
  exact ⟨k,e,he,hfor⟩

def Extends (s s' : Cluster C) : Prop :=
  ∀ k e, s.casts k = some e → ∃ e', s'.casts k = some e' ∧ e.Grew e'

theorem Extends.said (h : s.Extends s') (hs : s.Said p i site m) : s'.Said p i site m := by
  obtain ⟨k,e,he,hfor⟩ := hs
  obtain ⟨e',he',hg⟩ := h k e he
  exact ⟨k,e',he',hfor.grew hg⟩

theorem Extends.replied (h : s.Extends s')
    (hs : s.Replied p i site m r ρ) : s'.Replied p i site m r ρ := by
  obtain ⟨k,e,he,hfor,hr⟩ := hs
  obtain ⟨e',he',hg⟩ := h k e he
  exact ⟨k,e',he',hfor.grew hg,hg.replies r ρ hr⟩

def Owns (s : Cluster C) (p : Bool) (i : ℕ) (x : Coord C) : Prop :=
  ∃ c, s.coords c = some x ∧ x.isPilot = p ∧ x.slot = i

def Placed (s : Cluster C) (x : Coord C) : Prop :=
  match x.phase with
  | .fastAccept k =>
    ∃ e, s.casts k = some e ∧ e.For x.isPilot x.slot x.site (.fastAccept x.ballot x.dep x.cmd)
  | .accept k =>
    ∃ e, s.casts k = some e ∧ e.For x.isPilot x.slot x.site (.accept x.ballot x.dep x.cmd)
  | .prepare i b k =>
    ∃ e, s.casts k = some e ∧ e.For (!x.isPilot) i x.site (.prepare (pickGreaterBallot x.site b))
  | .takeoverAccept i d cmd k =>
    ∃ e b, s.casts k = some e ∧ e.For (!x.isPilot) i x.site (.accept b d cmd)
  | _ => True

def Justified (s : Cluster C) (e : Cast C) : Prop :=
  match e.msg with
  | .fastAccept b d cmd => e.site = own e.isPilot ∧ b = e.site ∧
      ∃ x, s.Owns e.isPilot e.slot x ∧ cmd = x.cmd ∧ (x.Proposing → d = x.dep)
  | .accept b d cmd => e.site = own e.isPilot → b = e.site ∧
      ∃ x, s.Owns e.isPilot e.slot x ∧ cmd = x.cmd ∧ d = x.dep ∧ ¬x.Proposing
  | .prepare _ => e.site ≠ own e.isPilot
  | .commit d cmd => e.site = own e.isPilot →
      ∃ x, s.Owns e.isPilot e.slot x ∧ cmd = x.cmd ∧ d = x.dep ∧ x.Decided

def Seated (n : ℕ) (s : Cluster C) (x : Coord C) : Prop :=
  x.site < 2 ∧ x.site < n ∧ 0 < x.slot ∧
    x.slot ≤ ((s.server x.site).logInfos x.isPilot).currentSlot ∧ x.ballot = x.site ∧
    ∃ a, x.cmd = some (.op a)

structure Wf (n : ℕ) (s : Cluster C) : Prop where
  casts : ∀ k e, s.casts k = some e → k < s.nextCast
  coords : ∀ c x, s.coords c = some x → c < s.nextCoord
  coord : ∀ c x, s.coords c = some x → s.Seated n x
  inj : ∀ c c' x y, s.coords c = some x → s.coords c' = some y → x.isPilot = y.isPilot →
    x.slot = y.slot → c = c'
  placed : ∀ c x, s.coords c = some x → s.Placed x
  decided : ∀ c x, s.coords c = some x → x.Decided →
    s.Said x.isPilot x.slot x.site (.commit x.dep x.cmd)
  site : ∀ k e, s.casts k = some e → e.site < 2
  justified : ∀ k e, s.casts k = some e → s.Justified e
  fed : ∀ k e, s.casts k = some e → e.Fed n
  fastAccept : ∀ p i site site' b b' d d' cmd cmd', s.Said p i site (.fastAccept b d cmd) →
    s.Said p i site' (.fastAccept b' d' cmd') → d = d'

/-- An entry has one coordinator. -/
theorem Wf.owns_unique (hwf : s.Wf n) (hx : s.Owns p i x) (hy : s.Owns p i y) : x = y := by
  obtain ⟨c,hc,hp,hi⟩ := hx
  obtain ⟨c',hc',hp',hi'⟩ := hy
  obtain rfl := hwf.inj c c' x y hc hc' (hp.trans hp'.symm) (hi.trans hi'.symm)
  rw [hc] at hc'
  exact some.inj hc'

theorem Placed.fastAccept (h : s.Placed x)
    (hk : s.casts k = some e) (hph : x.phase = .fastAccept k) :
    e.For x.isPilot x.slot x.site (.fastAccept x.ballot x.dep x.cmd) := by
  unfold Placed at h
  rw [hph] at h
  obtain ⟨e',he',hfor⟩ := h
  cases hk.symm.trans he'
  exact hfor

theorem Placed.extends (h : s.Extends s') (hx : s.Placed x) : s'.Placed x := by
  unfold Placed at hx ⊢
  split at hx
  iterate 3
    obtain ⟨e,he,hfor⟩ := hx
    obtain ⟨e',he',hg⟩ := h _ _ he
    exact ⟨e',he',hfor.grew hg⟩
  · obtain ⟨e,b,he,hfor⟩ := hx
    obtain ⟨e',he',hg⟩ := h _ _ he
    exact ⟨e',b,he',hfor.grew hg⟩
  · trivial

theorem Justified.grew (hg : e.Grew e') (h : s.Justified e) : s.Justified e' := by
  unfold Justified at h ⊢
  rw [hg.msg,hg.site,hg.isPilot,hg.slot]
  exact h

theorem Wf.said (hwf : s.Wf n) (h : s.Said p i site m) : s.Justified (.fresh site p i m) := by
  obtain ⟨k,e,he,rfl,rfl,rfl,rfl⟩ := h
  exact hwf.justified k e he

theorem Justified.evolves (h : s.Justified e)
    (hown : ∀ p i x, s.Owns p i x → ∃ y, s'.Owns p i y ∧ (y = x ∨ x.Evolves y)) :
    s'.Justified e := by
  unfold Justified at h ⊢
  split at h
  · obtain ⟨hsite,hb,x,hx,hcmd,hdep⟩ := h
    obtain ⟨y,hy,rfl | hev⟩ := hown _ _ _ hx
    · exact ⟨hsite,hb,y,hy,hcmd,hdep⟩
    · exact ⟨hsite,hb,y,hy,hcmd.trans hev.cmd.symm,fun hp => absurd hp hev.proposing⟩
  · intro hsite
    obtain ⟨hb,x,hx,hcmd,hdep,hprop⟩ := h hsite
    obtain ⟨y,hy,rfl | hev⟩ := hown _ _ _ hx
    · exact ⟨hb,y,hy,hcmd,hdep,hprop⟩
    · exact ⟨hb,y,hy,hcmd.trans hev.cmd.symm,hdep.trans (hev.dep hprop).symm,hev.proposing⟩
  · exact h
  · intro hsite
    obtain ⟨x,hx,hcmd,hdep,hdec⟩ := h hsite
    obtain ⟨y,hy,rfl | hev⟩ := hown _ _ _ hx
    · exact ⟨y,hy,hcmd,hdep,hdec⟩
    · exact ⟨y,hy,hcmd.trans hev.cmd.symm,hdep.trans (hev.dep hdec.not_proposing).symm,
        hev.decided hdec⟩

def Sees (s s' : Cluster C) : Prop :=
  ∀ r q, ((s.server r).logInfos q).currentSlot ≤ ((s'.server r).logInfos q).currentSlot

theorem Seated.sees (h : s.Seated n x) (hsees : s.Sees s') : s'.Seated n x := by
  obtain ⟨h₁,h₂,h₃,h₄,h₅⟩ := h
  exact ⟨h₁,h₂,h₃,h₄.trans (hsees _ _),h₅⟩

theorem Wf.spread (hwf : s.Wf n) (hext : s.Extends s') (hsees : s.Sees s')
    (hcasts : ∀ k e', s'.casts k = some e' → ∃ e, s.casts k = some e ∧ e.Grew e' ∧ e'.Fed n)
    (hcoords : s'.coords = s.coords) (hnext : s'.nextCast = s.nextCast)
    (hnextc : s'.nextCoord = s.nextCoord) : s'.Wf n := by
  have hsaid : ∀ {p i site m}, s'.Said p i site m → s.Said p i site m := by
    rintro p i site m ⟨k,e',he',hfor⟩
    obtain ⟨e,he,hg,-⟩ := hcasts k e' he'
    exact ⟨k,e,he,hfor.ungrew hg⟩
  refine ⟨fun k e' he' => ?_,fun c x hx => ?_,fun c x hx => ?_,?_,fun c x hx => ?_,
    fun c x hx hdec => ?_,fun k e' he' => ?_,fun k e' he' => ?_,fun k e' he' => ?_,?_⟩
  · obtain ⟨e,he,-⟩ := hcasts k e' he'
    exact hnext ▸ hwf.casts k e he
  · exact hnextc ▸ hwf.coords c x (hcoords ▸ hx)
  · exact (hwf.coord c x (hcoords ▸ hx)).sees hsees
  · rw [hcoords]
    exact hwf.inj
  · exact (hwf.placed c x (hcoords ▸ hx)).extends hext
  · exact hext.said (hwf.decided c x (hcoords ▸ hx) hdec)
  · obtain ⟨e,he,hg,-⟩ := hcasts k e' he'
    exact hg.site ▸ hwf.site k e he
  · obtain ⟨e,he,hg,-⟩ := hcasts k e' he'
    refine ((hwf.justified k e he).grew hg).evolves fun p i x hx => ⟨x,?_,.inl rfl⟩
    unfold Owns at hx ⊢
    rwa [hcoords]
  · exact (hcasts k e' he').choose_spec.2.2
  · intro p i site site' b b' d d' cmd cmd' h h'
    exact hwf.fastAccept p i site site' b b' d d' cmd cmd' (hsaid h) (hsaid h')

theorem Wf.extends_new (hwf : s.Wf n)
    (hcasts : ∀ k, s'.casts k = if k = s.nextCast then new else s.casts k) : s.Extends s' := by
  intro k e he
  refine ⟨e,?_,.refl e⟩
  rw [hcasts,if_neg (hwf.casts k e he).ne,he]

section Changed

variable {c : ℕ} {y : Coord C} (hwf : s.Wf n) (hsees : s.Sees s')
  (hcoords : ∀ a, s'.coords a = if a = c then some y else s.coords a)
  (hcasts : ∀ k, s'.casts k = if k = s.nextCast then new else s.casts k)
  (hnext : s.nextCast ≤ s'.nextCast ∧ (new ≠ none → s.nextCast < s'.nextCast))
include hwf hsees hcoords hcasts hnext

/-- One coordinator is new or has gone on, and has broadcast one message at most. -/
theorem Wf.changed (hnextc : s.nextCoord ≤ s'.nextCoord ∧ c < s'.nextCoord) (hseated : s'.Seated n y)
    (hinj : ∀ a z, s.coords a = some z → z.isPilot = y.isPilot → z.slot = y.slot → a = c)
    (hown : ∀ p i z, s.Owns p i z → ∃ z', s'.Owns p i z' ∧ (z' = z ∨ z.Evolves z'))
    (hnew : ∀ e, new = some e → e.site < 2 ∧ s'.Justified e ∧ e.Fed n) (hplaced : s'.Placed y)
    (hdec : y.Decided → s'.Said y.isPilot y.slot y.site (.commit y.dep y.cmd))
    (hfast : ∀ p i site site' b b' d d' cmd cmd', s'.Said p i site (.fastAccept b d cmd) →
      s'.Said p i site' (.fastAccept b' d' cmd') → d = d') : s'.Wf n := by
  have hext : s.Extends s' := hwf.extends_new hcasts
  refine ⟨fun k e he => ?_,fun a z hz => ?_,fun a z hz => ?_,fun a a' z z' hz hz' hp hi => ?_,
    fun a z hz => ?_,fun a z hz hdz => ?_,fun k e he => ?_,fun k e he => ?_,fun k e he => ?_,hfast⟩
  · rcases update_cases hcasts he with he | ⟨hne,rfl⟩
    · exact (hwf.casts k e he).trans_le hnext.1
    · exact hnext.2 (by simp [hne])
  · rcases update_cases hcoords hz with hz | ⟨-,rfl⟩
    · exact (hwf.coords a z hz).trans_le hnextc.1
    · exact hnextc.2
  · rcases update_cases hcoords hz with hz | ⟨⟨⟩,-⟩
    · exact (hwf.coord a z hz).sees hsees
    · exact hseated
  · rcases update_cases hcoords hz with hz | ⟨⟨⟩,rfl⟩ <;>
      rcases update_cases hcoords hz' with hz' | ⟨⟨⟩,rfl⟩
    · exact hwf.inj a a' z z' hz hz' hp hi
    · exact hinj a z hz hp hi
    · exact (hinj a' z' hz' hp.symm hi.symm).symm
    · rfl
  · rcases update_cases hcoords hz with hz | ⟨⟨⟩,-⟩
    · exact (hwf.placed a z hz).extends hext
    · exact hplaced
  · rcases update_cases hcoords hz with hz | ⟨⟨⟩,-⟩
    · exact hext.said (hwf.decided a z hz hdz)
    · exact hdec hdz
  · rcases update_cases hcasts he with he | ⟨hne,-⟩
    · exact hwf.site k e he
    · exact (hnew e hne).1
  · rcases update_cases hcasts he with he | ⟨hne,-⟩
    · exact (hwf.justified k e he).evolves hown
    · exact (hnew e hne).2.1
  · rcases update_cases hcasts he with he | ⟨hne,-⟩
    · exact hwf.fed k e he
    · exact (hnew e hne).2.2

theorem Wf.resumed (hx : s.coords c = some x) (hev : x.Evolves y) (hnextc : s'.nextCoord = s.nextCoord)
    (hnew : ∀ e, new = some e → (e.site < 2 ∧ s'.Justified e ∧ e.Fed n) ∧
      ∀ b d cmd, e.msg ≠ .fastAccept b d cmd) (hplaced : s'.Placed y)
    (hdec : x.Decided ∨ (y.Decided → s'.Said y.isPilot y.slot y.site (.commit y.dep y.cmd))) :
    s'.Wf n := by
  have hfast : ∀ {p i site b d cmd}, s'.Said p i site (.fastAccept b d cmd) →
      s.Said p i site (.fastAccept b d cmd) := by
    rintro p i site b d cmd ⟨k,e,he,hfor⟩
    rcases update_cases hcasts he with he | ⟨hne,-⟩
    · exact ⟨k,e,he,hfor⟩
    · exact absurd hfor.msg ((hnew e hne).2 b d cmd)
  refine hwf.changed hsees hcoords hcasts hnext ⟨hnextc.ge,hnextc ▸ hwf.coords c x hx⟩ ?_
    (fun a z hz hp hi => ?_) ?_ (fun e he => (hnew e he).1) hplaced (fun hdy => ?_)
    fun p i site site' b b' d d' cmd cmd' h h' =>
      hwf.fastAccept p i site site' b b' d d' cmd cmd' (hfast h) (hfast h')
  · unfold Seated
    rw [hev.isPilot,hev.site,hev.slot,hev.ballot,hev.cmd]
    exact (hwf.coord c x hx).sees hsees
  · exact hwf.inj a c z x hz hx (hp.trans hev.isPilot) (hi.trans hev.slot)
  · rintro p i z ⟨a,ha,hp,hi⟩
    rcases eq_or_ne a c with rfl | hne
    · cases hx.symm.trans ha
      exact ⟨y,⟨a,by rw [hcoords,if_pos rfl],hev.isPilot.trans hp,hev.slot.trans hi⟩,.inr hev⟩
    · exact ⟨z,⟨a,by rw [hcoords,if_neg hne,ha],hp,hi⟩,.inl rfl⟩
  · rcases hdec with hd | hd
    · rw [hev.isPilot,hev.slot,hev.site,hev.cmd,hev.dep hd.not_proposing]
      exact (hwf.extends_new hcasts).said (hwf.decided c x hx hd)
    · exact hd hdy

end Changed

theorem Eliminates.keeps {v' : CopilotServer C} (h : Eliminates v x committed v') : v.Keeps v' := by
  rcases h with h | ⟨v₁,b,h,hall⟩
  · exact h.keeps
  · exact h.keeps.trans (allDepsEliminated_keeps hall)

theorem Resumes.moves (h : Resumes n s c x committed s') (r : ℕ) :
    (s.server r).Moves (s'.server r) := by
  have hset : ∀ v, (s.server x.site).Moves v →
      (s.server r).Moves (if r = x.site then v else s.server r) := by
    intro v hv
    split_ifs with hr
    · exact hr ▸ hv
    · exact .refl _
  cases h with
  | commits _ _ hv _ | commitsTaken _ _ hv =>
    simp only [server_setCoord,server_setServer,server_post]
    exact hset _ (.keeps hv.keeps)
  | accepts _ _ _ _ _ hv =>
    obtain ⟨-,hup,hseen⟩ := onAccept_spec hv
    simp only [server_setCoord,postLocal,server_setServer,server_post]
    exact hset _ (.updates hup hseen)
  | quiet _ hv _ _ =>
    simp only [server_setCoord,server_setServer]
    exact hset _ (.keeps hv)
  | prepares _ hv =>
    simp only [broadcastPrepare,server_setCoord,server_setServer,server_post]
    exact hset _ (.keeps hv)
  | acceptsTaken _ _ _ _ _ hv hv' =>
    obtain ⟨-,hup,hseen⟩ := onAccept_spec hv'
    simp only [server_setCoord,postLocal,server_setServer,server_post]
    exact hset _ (.updates (hv.updates hup) hseen)

theorem Receives.moves {a : ℕ} (h : Receives s k e a s') (r : ℕ) :
    (s.server r).Moves (s'.server r) := by
  have hset : ∀ v, (s.server a).Moves v → (s.server r).Moves (if r = a then v else s.server r) := by
    intro v hv
    split_ifs with hr
    · exact hr ▸ hv
    · exact .refl _
  cases h with
  | fastAccept _ _ _ hv hseen | accept _ _ hv hseen | prepare _ _ hv hseen
  | prepareFreed _ _ hv hseen | commitKnown _ hv hseen =>
    simp only [server_setReply,server_setServer]
    exact hset _ (.updates hv hseen)
  | commit _ _ _ hv hseen =>
    simp only [server_setMarked,server_setReply,server_setServer]
    exact hset _ (.updates hv hseen)

theorem Stepped.moves (hs : ∀ r, (s.server r).Sound) (h : Stepped n s a s') (r : ℕ) :
    (s.server r).Moves (s'.server r) := by
  cases h with
  | @submit site c sug v _ _ _ _ hv hseen =>
    simp only [server_addCoord,postLocal,server_post,server_setServer]
    split_ifs with hr
    · exact hr ▸ .updates hv hseen
    · exact .refl _
  | receive _ _ _ _ h | resume _ _ h => exact h.moves r
  | arrive => exact .refl _
  | @exec a t committed v nx running waiting _ hit _ =>
    simp only [server_setTasks,server_setServer]
    split_ifs with hr
    · exact hr ▸ .keeps (hit.keeps (hs a).active)
    · exact .refl _
  | wake =>
    rw [server_setTasks]
    exact .refl _

theorem Wf.site_eq (hwf : s.Wf n) (hx : s.coords c = some x) :
    x.site = own x.isPilot := (own_pilotLog (hwf.coord c x hx).1).symm

theorem Wf.not_owns (hwf : s.Wf n)
    (hi : ((s.server (own p)).logInfos p).currentSlot < i) (x : Coord C) : ¬s.Owns p i x := by
  rintro ⟨c,hc,rfl,rfl⟩
  have hle := (hwf.coord c x hc).2.2.2.1
  rw [hwf.site_eq hc] at hle
  omega

theorem makeUniqueBallot_zero (site : ℕ) : makeUniqueBallot site 0 = site := by
  simp [makeUniqueBallot]

theorem Wf.submitted {dep : ℕ} {a : C} (hwf : s.Wf n) (hsite : site < n) (hpilot : site < 2)
    (hi : ((s.server site).logInfos (pilotLog site)).currentSlot < i)
    (hseen : i ≤ (v.logInfos (pilotLog site)).currentSlot) (hmoves : (s.server site).Moves v) :
    let x : Coord C := ⟨site,i,dep,makeUniqueBallot site 0,some (.op a),.fastAccept s.nextCast⟩
    (((s.setServer site v).postLocal (.fresh site (pilotLog site) i
      (.fastAccept (makeUniqueBallot site 0) dep (some (.op a)))) (.dep dep)).addCoord x).Wf n := by
  intro x
  set e := ((fresh site (pilotLog site) i
    (.fastAccept (makeUniqueBallot site 0) dep (some (.op a)))).withReply site (.dep dep)).withAnswer
      site with he
  change (((s.setServer site v).post e).addCoord x).Wf n
  set s' := ((s.setServer site v).post e).addCoord x with hs'
  have hcasts : ∀ k, s'.casts k = if k = s.nextCast then some e else s.casts k :=
    (s.setServer site v).casts_post e
  have hcoords : ∀ c, s'.coords c = if c = s.nextCoord then some x else s.coords c :=
    ((s.setServer site v).post e).coords_addCoord x
  have hfor : e.For (pilotLog site) i site (.fastAccept (makeUniqueBallot site 0) dep (some (.op a))) :=
    ⟨rfl,rfl,rfl,rfl⟩
  have hfresh : ∀ y, ¬s.Owns (pilotLog site) i y := by
    refine hwf.not_owns ?_
    rwa [own_pilotLog hpilot]
  have hxe : s'.coords s.nextCoord = some x := by rw [hcoords,if_pos rfl]
  have hsees : s.Sees s' := by
    intro r q
    simp only [hs',server_addCoord,server_post,server_setServer]
    split_ifs with hr
    · exact hr ▸ hmoves.seen q
    · exact le_rfl
  refine hwf.changed hsees hcoords hcasts ⟨le_succ _,fun _ => lt_succ_self _⟩
    ⟨le_succ _,lt_succ_self _⟩ ?_ (fun c y hy hp hj => absurd ⟨c,hy,hp,hj⟩ (hfresh y)) ?_ (fun e' he' => ?_)
    ⟨e,by rw [hcasts,if_pos rfl],hfor⟩ (fun hdec => absurd rfl (hdec.1 s.nextCast))
    fun p j st st' b b' d d' cmd cmd' h h' => ?_
  · refine ⟨hpilot,hsite,by change 0 < i; omega,?_,makeUniqueBallot_zero site,a,rfl⟩
    simpa [hs',x,Coord.isPilot] using hseen
  · rintro p j y ⟨c,hc,hp,hj⟩
    exact ⟨y,⟨c,by rw [hcoords,if_neg (hwf.coords c y hc).ne,hc],hp,hj⟩,.inl rfl⟩
  · cases he'
    refine ⟨hpilot,?_,fed_local hsite _ _ (.inl ⟨_,_,_,rfl,rfl⟩)⟩
    exact ⟨(own_pilotLog hpilot).symm,makeUniqueBallot_zero site,x,⟨s.nextCoord,hxe,rfl,rfl⟩,rfl,
      fun _ => rfl⟩
  · -- an old FastAccept is for a slot that was proposed before
    have hcases : ∀ {st b d cmd}, s'.Said p j st (.fastAccept b d cmd) →
        s.Said p j st (.fastAccept b d cmd) ∧ (∃ y, s.Owns p j y) ∨
          (p = pilotLog site ∧ j = i) ∧ d = dep := by
      rintro st b d cmd ⟨k,e',he',hf⟩
      rcases update_cases hcasts he' with hk | ⟨⟨⟩,-⟩
      · obtain ⟨-,-,y,hy,-⟩ := hwf.said ⟨k,e',hk,hf⟩
        exact .inl ⟨⟨k,e',hk,hf⟩,y,hy⟩
      · cases hfor.msg.symm.trans hf.msg
        exact .inr ⟨⟨hf.isPilot.symm.trans hfor.isPilot,hf.slot.symm.trans hfor.slot⟩,rfl⟩
    rcases hcases h with ⟨h,y,hy⟩ | ⟨⟨rfl,rfl⟩,rfl⟩ <;> rcases hcases h' with ⟨h',y',hy'⟩ | ⟨hpj,rfl⟩
    · exact hwf.fastAccept p j st st' b b' d d' cmd cmd' h h'
    · exact absurd (hpj.1 ▸ hpj.2 ▸ hy) (hfresh y)
    · exact absurd hy' (hfresh y')
    · rfl

theorem Wf.server_sees (hs : ∀ r, (s.server r).Sound) (h : Stepped n s a s') :
    s.Sees s' := fun r q => (h.moves hs r).seen q

theorem Receives.reply (h : Receives s k e r s') :
    ∃ ρ, (∀ a, s'.casts a = if a = k then some (e.withReply r ρ) else s.casts a) ∧
      (∀ b d cmd, e.msg = .fastAccept b d cmd → ∃ d, ρ = .dep d) ∧
      (∀ b, e.msg = .prepare b → ∃ rep, ρ = .prepared rep) ∧
      s'.coords = s.coords ∧ s'.nextCast = s.nextCast ∧ s'.nextCoord = s.nextCoord := by
  cases h with
  | fastAccept hmsg =>
    refine ⟨_,casts_setReply _ _ _ _ _,fun _ _ _ _ => ⟨_,rfl⟩,fun b hp => ?_,rfl,rfl,rfl⟩
    cases hmsg.symm.trans hp
  | accept hmsg | commit hmsg | commitKnown hmsg =>
    refine ⟨.ok,casts_setReply _ _ _ _ _,fun b d cmd hf => ?_,fun b hp => ?_,rfl,rfl,rfl⟩
    · cases hmsg.symm.trans hf
    · cases hmsg.symm.trans hp
  | prepare hmsg | prepareFreed hmsg =>
    refine ⟨_,casts_setReply _ _ _ _ _,fun b d cmd hf => ?_,fun _ _ => ⟨_,rfl⟩,rfl,rfl,rfl⟩
    cases hmsg.symm.trans hf

theorem casts_setAnswer (s : Cluster C) (k : ℕ) (e : Cast C) (r a : ℕ) :
    (s.setAnswer k e r).casts a = if a = k then some (e.withAnswer r) else s.casts a := by
  unfold setAnswer
  rcases eq_or_ne a k with rfl | hne
  · simp
  · simp [hne]

section Grown

variable {k r : ℕ} {e e' : Cast C}

theorem extends_grown (hk : s.casts k = some e) (hg : e.Grew e')
    (hcasts : ∀ a, s'.casts a = if a = k then some e' else s.casts a) : s.Extends s' := by
  intro a f hf
  rw [hcasts]
  split_ifs with ha
  · cases (ha ▸ hf).symm.trans hk
    exact ⟨e',rfl,hg⟩
  · exact ⟨f,hf,.refl f⟩

theorem Wf.grown (hwf : s.Wf n) (hk : s.casts k = some e) (hg : e.Grew e') (hfed : e'.Fed n)
    (hcasts : ∀ a, s'.casts a = if a = k then some e' else s.casts a) (hsees : s.Sees s')
    (hcoords : s'.coords = s.coords) (hnext : s'.nextCast = s.nextCast)
    (hnextc : s'.nextCoord = s.nextCoord) : s'.Wf n := by
  refine hwf.spread (extends_grown hk hg hcasts) hsees (fun a f hf => ?_) hcoords hnext hnextc
  rcases update_cases hcasts hf with hf | ⟨⟨⟩,rfl⟩
  · exact ⟨f,hf,.refl f,hwf.fed a f hf⟩
  · exact ⟨e,hk,hg,hfed⟩

theorem Wf.received (hwf : s.Wf n) (hk : s.casts k = some e) (hr : r < n)
    (hnew : e.replies r = none) (h : Receives s k e r s') (hsees : s.Sees s') : s'.Wf n := by
  obtain ⟨ρ,hcasts,hfa,hp,hcoords,hnext,hnextc⟩ := h.reply
  exact hwf.grown hk (grew_reply ρ hnew) ((hwf.fed k e hk).reply hr hnew hfa hp) hcasts hsees
    hcoords hnext hnextc

theorem Wf.arrived (hwf : s.Wf n) (hk : s.casts k = some e) (hsent : e.replies r ≠ none)
    (hnew : r ∉ e.answers) : (s.setAnswer k e r).Wf n :=
  hwf.grown hk (grew_answer e r) ((hwf.fed k e hk).answer hsent hnew)
    (casts_setAnswer s k e r) (fun _ _ => le_rfl) rfl rfl rfl

end Grown

theorem Wf.resume (hwf : s.Wf n) (hx : s.coords c = some x)
    (h : Resumes n s c x committed s') (hsees : s.Sees s') : s'.Wf n := by
  obtain ⟨hpilot,hsite,-,-,hballot,-⟩ := hwf.coord c x hx
  have hown := hwf.site_eq hx
  have hother : x.site ≠ own !x.isPilot := by
    rw [hown]
    exact (own_not _).symm
  have hlt : ∀ {new : Option (Cast C)}, s.nextCast ≤ s.nextCast+1 ∧
      (new ≠ none → s.nextCast < s.nextCast+1) := ⟨le_succ _,fun _ => lt_succ_self _⟩
  have hpost : ∀ (v : CopilotServer C) e y k, ((((s.post e).setServer x.site v).setCoord c y).casts k =
      if k = s.nextCast then some e else s.casts k) := fun v e y => s.casts_post e
  have hlocal : ∀ (v : CopilotServer C) e ρ y k,
      ((((s.setServer x.site v).postLocal e ρ).setCoord c y).casts k =
        if k = s.nextCast then some ((e.withReply e.site ρ).withAnswer e.site) else s.casts k) :=
    fun v e ρ y => (s.setServer x.site v).casts_post _
  cases h with
  | @commits k e v ph hk hph _ hdone =>
    have hpast := Coord.past_of_done hdone
    refine hwf.resumed hsees (coords_setCoord _ c _) (hpost _ _ _) hlt hx (x.evolves_past hpast) rfl
      (fun e' he' => ?_) ?_ (.inr fun _ => ?_)
    · cases he'
      refine ⟨⟨hpilot,fun _ => ?_,fed_fresh _ _ _ nofun nofun⟩,nofun⟩
      exact ⟨_,⟨c,(coords_setCoord _ c _ c).trans (if_pos rfl),rfl,rfl⟩,rfl,rfl,hpast⟩
    · rcases hdone with rfl | rfl
      · trivial
      · trivial
    · exact ⟨s.nextCast,_,(hpost _ _ _ _).trans (if_pos rfl),for_fresh _ _ _ _⟩
  | @accepts k e v b hk hph _ _ _ _ =>
    have hprop : x.Proposing := ⟨k,hph⟩
    have hev : x.Evolves {x with dep := getFinalDep n e.retDeps, phase := .accept s.nextCast} :=
      ⟨rfl,rfl,rfl,rfl,(fun ⟨_,hk⟩ => nomatch hk),fun h => absurd hprop h,
        fun h => absurd hprop h.not_proposing⟩
    refine hwf.resumed hsees (coords_setCoord _ c _) (hlocal _ _ _ _) hlt hx hev rfl
      (fun e' he' => ?_) ?_ (.inr fun hdec => ?_)
    · cases he'
      refine ⟨⟨hpilot,fun _ => ?_,fed_local hsite _ _ (.inr ⟨_,_,_,rfl⟩)⟩,nofun⟩
      exact ⟨hballot,_,⟨c,(coords_setCoord _ c _ c).trans (if_pos rfl),rfl,rfl⟩,rfl,rfl,
        hev.proposing⟩
    · exact ⟨_,(hlocal _ _ _ _ _).trans (if_pos rfl),rfl,rfl,rfl,rfl⟩
    · exact absurd rfl (hdec.2 s.nextCast)
  | @quiet v ph hph _ hnext _ =>
    have hdec : x.Decided := by
      rcases hph with h | ⟨i,h⟩ | ⟨i,b,k,h⟩ <;> exact ⟨by simp [h],by simp [h]⟩
    have hcasts : ∀ k, ((s.setServer x.site v).setCoord c {x with phase := ph}).casts k =
        if k = s.nextCast then none else s.casts k := by
      intro k
      split_ifs with hk
      · by_contra hne
        obtain ⟨e,he⟩ := ne_none_iff_exists'.mp hne
        exact (hwf.casts k e he).ne hk
      · rfl
    refine hwf.resumed hsees (coords_setCoord _ c _) hcasts ⟨le_rfl,fun h => absurd rfl h⟩ hx
      (x.evolves_past ?_) rfl nofun ?_ (.inl hdec)
    all_goals rcases hnext with rfl | ⟨i,rfl⟩
    · exact ⟨nofun,nofun⟩
    · exact ⟨nofun,nofun⟩
    · trivial
    · trivial
  | @prepares i v b hph _ =>
    have hdec : x.Decided := by
      rcases hph with ⟨h,-⟩ | ⟨k,h⟩ <;> exact ⟨by simp [h],by simp [h]⟩
    have hcasts : ∀ k, ((s.setServer x.site v).broadcastPrepare c x i b).casts k =
        if k = s.nextCast then _ else s.casts k := hpost v _ _
    refine hwf.resumed hsees (coords_setCoord _ c _) hcasts hlt hx (x.evolves_past ⟨nofun,nofun⟩) rfl
      (fun e' he' => ?_) ?_ (.inl hdec)
    · cases he'
      exact ⟨⟨hpilot,hother,fed_fresh _ _ _ nofun nofun⟩,nofun⟩
    · exact ⟨_,(hcasts _).trans (if_pos rfl),for_fresh _ _ _ _⟩
  | @acceptsTaken i b k e v v' b' cmd dep hk hph _ _ _ _ _ =>
    have hdec : x.Decided := ⟨by simp [hph],by simp [hph]⟩
    refine hwf.resumed hsees (coords_setCoord _ c _) (hlocal _ _ _ _) hlt hx
      (x.evolves_past ⟨nofun,nofun⟩) rfl (fun e' he' => ?_) ?_ (.inl hdec)
    · cases he'
      exact ⟨⟨hpilot,fun h => absurd h hother,fed_local hsite _ _ (.inr ⟨_,_,_,rfl⟩)⟩,nofun⟩
    · exact ⟨_,b,(hlocal _ _ _ _ _).trans (if_pos rfl),rfl,rfl,rfl,rfl⟩
  | @commitsTaken i k e v cmd dep hk hph _ =>
    have hdec : x.Decided := by
      rcases hph with ⟨h,-⟩ | ⟨b,h,-⟩ <;> exact ⟨by simp [h],by simp [h]⟩
    refine hwf.resumed hsees (coords_setCoord _ c _) (hpost _ _ _) hlt hx
      (x.evolves_past ⟨nofun,nofun⟩) rfl (fun e' he' => ?_) trivial (.inl hdec)
    cases he'
    exact ⟨⟨hpilot,fun h => absurd h hother,fed_fresh _ _ _ nofun nofun⟩,nofun⟩

theorem Wf.step (hwf : s.Wf n) (hs : ∀ r, (s.server r).Sound) (h : Stepped n s a s') : s'.Wf n := by
  have hsees := Wf.server_sees hs h
  cases h with
  | submit hsite hpilot _ _ hv hseen =>
    exact hwf.submitted hsite hpilot (lt_succ_self _) hseen (.updates hv hseen)
  | receive hk hr hnew _ h => exact hwf.received hk hr hnew h hsees
  | arrive hk hsent hnew => exact hwf.arrived hk hsent hnew
  | resume hx _ h => exact hwf.resume hx h hsees
  | exec | wake =>
    exact hwf.spread (fun k e he => ⟨e,he,.refl e⟩) hsees
      (fun k e he => ⟨e,he,.refl e,hwf.fed k e he⟩) rfl rfl rfl

structure Regular (n : ℕ) (s : Cluster C) : Prop where
  wf : s.Wf n
  sound : ∀ r, (s.server r).Sound

theorem regular_start (n : ℕ) : (start : Cluster C).Regular n where
  wf := ⟨nofun,nofun,nofun,nofun,nofun,nofun,nofun,nofun,nofun,
    fun _ _ _ _ _ _ _ _ _ _ ⟨_,_,h,_⟩ => nomatch h⟩
  sound _ := sound_setup

theorem Regular.step (hs : s.Regular n) (h : Stepped n s a s') : s'.Regular n where
  wf := hs.wf.step hs.sound h
  sound r := (hs.sound r).moves (h.moves hs.sound r)

theorem ins_elsewhere {q : Bool} {j a : ℕ} {v : CopilotServer C} {d : CopilotData C}
    (hv : (s.server a).Updates v q j d)
    (hserver : ∀ r, s'.server r = if r = a then v else s.server r)
    (hne : ¬(r = a ∧ p = q ∧ i = j)) : (s'.server r).ins p i = (s.server r).ins p i ∧
      ((s'.server r).Freed p i ↔ (s.server r).Freed p i) := by
  rw [hserver]
  split_ifs with hr
  · subst hr
    exact ⟨hv.other fun h => hne ⟨rfl,h⟩,hv.freed _ _⟩
  · exact ⟨rfl,Iff.rfl⟩

/-! ### What a step adds -/

/-- A step broadcasts at most the message `said`, and sends at most the reply `rep`. -/
structure Adds (s s' : Cluster C) (said : Option (Saying C)) (rep : Option (Replying C)) : Prop where
  ext : s.Extends s'
  said : ∀ p i site m, s'.Said p i site m → s.Said p i site m ∨ said = some (p,i,site,m)
  replied : ∀ p i site m r ρ, s'.Replied p i site m r ρ →
    s.Replied p i site m r ρ ∨ rep = some (p,i,site,m,r,ρ)

variable {said : Option (Saying C)}

theorem adds_same (hcasts : s'.casts = s.casts) : s.Adds s' none none where
  ext k e he := ⟨e,hcasts ▸ he,.refl e⟩
  said p i site m h := by
    unfold Said at h ⊢
    exact .inl (hcasts ▸ h)
  replied p i site m r ρ h := by
    unfold Replied at h ⊢
    exact .inl (hcasts ▸ h)

theorem adds_grown (hk : s.casts k = some e) (hg : e.Grew e')
    (hcasts : ∀ a, s'.casts a = if a = k then some e' else s.casts a)
    (hrep : ∀ r ρ, e'.replies r = some ρ →
      e.replies r = some ρ ∨ rep = some (e.isPilot,e.slot,e.site,e.msg,r,ρ)) :
    s.Adds s' none rep where
  ext := extends_grown hk hg hcasts
  said := by
    rintro p i site m ⟨a,f,hf,hfor⟩
    rcases update_cases hcasts hf with hf | ⟨⟨⟩,-⟩
    · exact .inl ⟨a,f,hf,hfor⟩
    · exact .inl ⟨k,e,hk,hfor.ungrew hg⟩
  replied := by
    rintro p i site m r ρ ⟨a,f,hf,hfor,hr⟩
    rcases update_cases hcasts hf with hf | ⟨⟨⟩,-⟩
    · exact .inl ⟨a,f,hf,hfor,hr⟩
    · obtain ⟨rfl,rfl,rfl,rfl⟩ := hfor.ungrew hg
      exact (hrep r ρ hr).imp_left fun hold => ⟨k,e,hk,⟨rfl,rfl,rfl,rfl⟩,hold⟩

theorem adds_answer (hk : s.casts k = some e) : s.Adds (s.setAnswer k e r) none none :=
  adds_grown hk (grew_answer e r) (casts_setAnswer s k e r) fun _ _ => .inl

theorem adds_reply (hk : s.casts k = some e) (hnew : e.replies r = none)
    (hcasts : ∀ a, s'.casts a = if a = k then some (e.withReply r ρ) else s.casts a) :
    s.Adds s' none (some (e.isPilot,e.slot,e.site,e.msg,r,ρ)) := by
  refine adds_grown hk (grew_reply ρ hnew) hcasts fun r' ρ' hr => ?_
  rcases withReply_cases hr with ⟨rfl,rfl⟩ | hold
  · exact .inr rfl
  · exact .inl hold

theorem Wf.adds_new {new : Cast C} (hwf : s.Wf n)
    (hcasts : ∀ k, s'.casts k = if k = s.nextCast then some new else s.casts k)
    (hrep : ∀ r ρ, new.replies r = some ρ → rep = some (new.isPilot,new.slot,new.site,new.msg,r,ρ)) :
    s.Adds s' (some (new.isPilot,new.slot,new.site,new.msg)) rep where
  ext := hwf.extends_new hcasts
  said := by
    rintro p i site m ⟨k,e,he,rfl,rfl,rfl,rfl⟩
    rcases update_cases hcasts he with he | ⟨⟨⟩,-⟩
    · exact .inl ⟨k,e,he,rfl,rfl,rfl,rfl⟩
    · exact .inr rfl
  replied := by
    rintro p i site m r ρ ⟨k,e,he,⟨rfl,rfl,rfl,rfl⟩,hr⟩
    rcases update_cases hcasts he with he | ⟨⟨⟩,-⟩
    · exact .inl ⟨k,e,he,⟨rfl,rfl,rfl,rfl⟩,hr⟩
    · exact .inr (hrep r ρ hr)

theorem Wf.adds_fresh (hwf : s.Wf n)
    (hcasts : ∀ k, s'.casts k = if k = s.nextCast then some (.fresh site p i m) else s.casts k) :
    s.Adds s' (some (p,i,site,m)) none := hwf.adds_new hcasts nofun

theorem Wf.adds_local (hwf : s.Wf n) (hcasts : ∀ k, s'.casts k = if k = s.nextCast then
      some (((Cast.fresh site p i m).withReply site ρ).withAnswer site) else s.casts k) :
    s.Adds s' (some (p,i,site,m)) (some (p,i,site,m,site,ρ)) := by
  refine hwf.adds_new hcasts fun r ρ' hr => ?_
  rcases withReply_cases hr with ⟨rfl,rfl⟩ | hold
  · rfl
  · cases hold

def FastReplied (s : Cluster C) (p : Bool) (i r : ℕ) : Prop :=
  ∃ site b d cmd ρ, s.Replied p i site (.fastAccept b d cmd) r ρ

theorem Adds.fastReplied (h : s.Adds s' said rep) (hs : s'.FastReplied p i r) :
    s.FastReplied p i r ∨ ∃ site b d cmd ρ, rep = some (p,i,site,.fastAccept b d cmd,r,ρ) := by
  obtain ⟨site,b,d,cmd,ρ,hr⟩ := hs
  rcases h.replied _ _ _ _ _ _ hr with hold | hnew
  · exact .inl ⟨site,b,d,cmd,ρ,hold⟩
  · exact .inr ⟨site,b,d,cmd,ρ,hnew⟩

structure Commits (n : ℕ) (s : Cluster C) (x y : Coord C) : Prop where
  phase : ∃ k e, s.casts k = some e ∧
    (x.phase = .fastAccept k ∧ e.fastYes n x.dep = true ∨
      x.phase = .accept k ∧ quorumSize n ≤ e.answers.length)
  site : y.site = x.site
  slot : y.slot = x.slot
  dep : y.dep = x.dep
  ballot : y.ballot = x.ballot
  cmd : y.cmd = x.cmd

theorem Resumes.evolves (h : Resumes n s c x committed s') :
    ∃ y, (∀ a, s'.coords a = if a = c then some y else s.coords a) ∧ x.Evolves y ∧
      (x.Decided ∨ ¬y.Decided ∨ Commits n s x y) := by
  have hpast : ∀ {ph : Phase C} {t : Cluster C}, x.Decided → Coord.Past ph →
      t.coords = s.coords → ∃ y, (∀ a, (t.setCoord c {x with phase := ph}).coords a =
        if a = c then some y else s.coords a) ∧ x.Evolves y ∧
        (x.Decided ∨ ¬y.Decided ∨ Commits n s x y) :=
    fun hdec hph ht => ⟨_,ht ▸ coords_setCoord _ c _,x.evolves_past hph,.inl hdec⟩
  cases h with
  | @commits k e v ph hk hph _ hdone =>
    refine ⟨{x with phase := ph},coords_setCoord _ c _,x.evolves_past ?_,
      .inr (.inr ⟨⟨k,e,hk,?_⟩,rfl,rfl,rfl,rfl,rfl⟩)⟩
    · rcases hdone with rfl | rfl
      · exact ⟨nofun,nofun⟩
      · exact ⟨nofun,nofun⟩
    · exact hph.imp (fun h => ⟨h.1,h.2.2⟩) id
  | @accepts k e v b hk hph _ _ _ _ =>
    have hprop : x.Proposing := ⟨k,hph⟩
    refine ⟨{x with dep := getFinalDep n e.retDeps, phase := .accept s.nextCast},
      coords_setCoord _ c _,⟨rfl,rfl,rfl,rfl,?_,fun h => absurd hprop h,
        fun h => absurd hprop h.not_proposing⟩,.inr (.inl fun h => h.2 s.nextCast rfl)⟩
    rintro ⟨_,hk⟩
    cases hk
  | quiet hph _ hnext _ =>
    refine hpast ?_ ?_ rfl
    · rcases hph with h | ⟨i,h⟩ | ⟨i,b,k,h⟩ <;> exact ⟨by simp [h],by simp [h]⟩
    · rcases hnext with rfl | ⟨i,rfl⟩
      · exact ⟨nofun,nofun⟩
      · exact ⟨nofun,nofun⟩
  | prepares hph _ =>
    refine hpast ?_ ⟨nofun,nofun⟩ rfl
    rcases hph with ⟨h,-⟩ | ⟨k,h⟩ <;> exact ⟨by simp [h],by simp [h]⟩
  | acceptsTaken _ hph => exact hpast ⟨by simp [hph],by simp [hph]⟩ ⟨nofun,nofun⟩ rfl
  | commitsTaken _ hph _ =>
    refine hpast ?_ ⟨nofun,nofun⟩ rfl
    rcases hph with ⟨h,-⟩ | ⟨b,h,-⟩ <;> exact ⟨by simp [h],by simp [h]⟩

/-- A coordinator that has decided did so before, or commits now. -/
theorem Stepped.decides (h : Stepped n s a s') (hy : s'.coords c = some y) (hdec : y.Decided) :
    ∃ x, s.coords c = some x ∧ (x = y ∨ x.Evolves y ∧ (x.Decided ∨ Commits n s x y)) := by
  cases h with
  | submit =>
    rw [coords_addCoord] at hy
    split_ifs at hy
    · cases hy
      exact absurd rfl (hdec.1 s.nextCast)
    · exact ⟨y,hy,.inl rfl⟩
  | receive _ _ _ _ h =>
    obtain ⟨ρ,-,-,-,hcoords,-⟩ := h.reply
    exact ⟨y,hcoords ▸ hy,.inl rfl⟩
  | @resume c' x committed _ hx _ h =>
    obtain ⟨z,hcoords,hev,hz⟩ := h.evolves
    rw [hcoords] at hy
    split_ifs at hy with hc
    · cases hy
      refine ⟨x,hc ▸ hx,.inr ⟨hev,?_⟩⟩
      rcases hz with hz | hz | hz
      · exact .inl hz
      · exact absurd hdec hz
      · exact .inr hz
    · exact ⟨y,hy,.inl rfl⟩
  | arrive | exec | wake => exact ⟨y,hy,.inl rfl⟩

end Cluster
end Janus.Copilot
