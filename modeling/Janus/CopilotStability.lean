import Janus.CopilotCluster

/-! Committed instances of a replica. `OnFastAccept` and `OnAccept` look at the ballot of an
instance and not at its status, and a coroutine executes the entry that it looked up before it
waited. The calls on the server of a replica come in any order. -/

namespace Janus.Copilot

open Transition List Option CopilotData

inductive Call (C : Type)
  | message (p : Bool) (slot : ℕ) (m : Message C)
  | lookUp (p : Bool) (slot : ℕ)
  | takeOver (p : Bool) (slot : ℕ)
  | eliminate (p : Bool) (slot : ℕ) (committed : Bool)
  | run (t : Task) (committed : Bool)

def Message.Overwrites {C : Type} (ins : CopilotData C) : Message C → Prop
  | .fastAccept b _ _ => ins.ballot ≤ b
  | .accept b _ _ => ins.ballot ≤ b
  | _ => False

def Pc.pending : Pc → Option ℕ
  | .entry _ => none
  | .waitEntry i _ => some i
  | .deps i _ => some i
  | .waitDep i _ => some i

namespace CopilotData

variable {C : Type} {d d' d'' : CopilotData C}

def Settles (d d' : CopilotData C) : Prop :=
  .committed ≤ d.status → d.status ≤ d'.status ∧ d'.cmd = d.cmd ∧ d'.depId = d.depId

theorem Settles.refl (d : CopilotData C) : d.Settles d := fun _ => ⟨le_rfl,rfl,rfl⟩

theorem settles_of_lt (h : d.status < .committed) : d.Settles d' := fun hc => absurd hc (not_le.mpr h)

theorem Settles.trans (h : d.Settles d') (h' : d'.Settles d'') : d.Settles d'' := by
  intro hc
  obtain ⟨hst,hcmd,hdep⟩ := h hc
  obtain ⟨hst',hcmd',hdep'⟩ := h' (hc.trans hst)
  exact ⟨hst.trans hst',hcmd'.trans hcmd,hdep'.trans hdep⟩

end CopilotData

theorem Status.le_executed (st : Status) : st ≤ .executed := by cases st <;> decide

namespace CopilotServer

variable {C : Type} {v v' v'' : CopilotServer C} {p : Bool} {i : ℕ} {j : ℕ} {d : CopilotData C}
variable {nx : Next}

def call (v : CopilotServer C) : Call C → Option (CopilotServer C)
  | .message p slot (.fastAccept b d cmd) => (v.onFastAccept p slot b d cmd).map Prod.fst
  | .message p slot (.accept b d cmd) => (v.onAccept p slot b d cmd).map Prod.fst
  | .message p slot (.prepare b) => some (v.onPrepare p slot b).1
  | .message p slot (.commit d cmd) => some (v.onCommit p slot d cmd).1
  | .lookUp p slot => ((v.logInfos p).getInstance slot).map fun a => v.setLog p a.2
  | .takeOver p slot => ((v.logInfos p).getInstance slot).map fun a =>
    v.setLog p (a.2.set slot {a.1 with takeover := true})
  | .eliminate p slot committed => (v.eliminateNullDep p slot committed).map Prod.fst
  | .run t committed => (v.runTask committed t).map Prod.fst

/-- What is overwritten is not committed, and what a coroutine is about to execute is still
there and has not been executed meanwhile. -/
def Heeds (v : CopilotServer C) : Call C → Prop
  | .message p slot m => m.Overwrites (v.ins p slot) → (v.ins p slot).status < .committed
  | .run t _ => ∀ i ∈ t.pc.pending, ¬v.Freed t.isPilot i ∧ (v.ins t.isPilot i).status ≠ .executed
  | _ => True

structure Stable (v v' : CopilotServer C) : Prop where
  active : ∀ q, (v.logInfos q).minActiveSlot ≤ (v'.logInfos q).minActiveSlot
  held : ∀ q j, ¬v'.Freed q j → (v.ins q j).Settles (v'.ins q j)

theorem Stable.freed (h : v.Stable v') {q : Bool} (hf : v.Freed q j) : v'.Freed q j :=
  ⟨hf.1.trans_le (h.active q),hf.2⟩

theorem Stable.trans (h : v.Stable v') (h' : v'.Stable v'') : v.Stable v'' where
  active q := (h.active q).trans (h'.active q)
  held q j hf := (h.held q j fun hf' => hf (h'.freed hf')).trans (h'.held q j hf)

theorem Keeps.stable (h : v.Keeps v') : v.Stable v' := by
  refine ⟨h.active,fun q j hf _ => ?_⟩
  obtain ⟨hcmd,hdep,-,he | ⟨he,-⟩⟩ := h.held q j hf
  · exact ⟨he.ge,hcmd,hdep⟩
  · exact ⟨he ▸ Status.le_executed _,hcmd,hdep⟩

theorem Updates.stable (h : v.Updates v' p i d) (hd : (v.ins p i).Settles d) : v.Stable v' := by
  refine ⟨fun q => (h.same q).minActive.ge,fun q j _ => ?_⟩
  rw [h.ins]
  split_ifs with hq
  · rwa [hq.1,hq.2]
  · exact .refl _

inductive Acts (v v' : CopilotServer C) : Prop
  | quiet (hs : v.Stable v') (happ : v'.applied = v.applied)
  | applies {p i a} (hs : v.Stable v') (hf : ¬v.Freed p i) (hst : (v.ins p i).status ≠ .executed)
      (hex : (v'.ins p i).status = .executed) (happ : v'.applied = v.applied++[(p,i,a)])

theorem Acts.stable (h : v.Acts v') : v.Stable v' := by
  cases h with
  | quiet hs _ | applies hs _ _ _ _ => exact hs

theorem Alike.acts (h : v.Alike v') : v.Acts v' := .quiet h.keeps.stable h.applied

theorem Updates.acts (h : v.Updates v' p i d) (hd : (v.ins p i).Settles d) :
    v.Acts v' := .quiet (h.stable hd) h.applied

theorem Finishes.eliminate_acts (h : v.Finishes v' p i (v.ins p i).eliminate [])
    (hc : (v.ins p i).cmd ≠ none) : v.Acts v' :=
  .quiet (h.keeps ⟨rfl,rfl,rfl,.inr ⟨rfl,hc⟩⟩).stable (h.applied.trans (append_nil _))

theorem Finishes.execute_acts {c : Command C}
    (h : v.Finishes v' p i (v.ins p i).execute (apps p i c)) (hc : (v.ins p i).cmd = some c)
    (hf : ¬v.Freed p i) (hst : (v.ins p i).status ≠ .executed) : v.Acts v' := by
  have hs := (execute_keeps hc h).stable
  cases c with
  | noop => exact .quiet hs (h.applied.trans (append_nil _))
  | op a => exact .applies hs hf hst (by rw [h.ins,if_pos ⟨rfl,rfl⟩]; rfl) h.applied

theorem RunsEntry.acts {dep : ℕ} (h : v.RunsEntry p i dep v' nx)
    (hst : (v.ins p i).status ≠ .executed) : v.Acts v' := by
  cases h with
  | executed hf hc _ hfin => exact hfin.execute_acts hc hf hst
  | turned hs => exact hs.acts

theorem RunsDep.acts (h : v.RunsDep p i j v' nx)
    (hok : ¬v.Freed p i ∧ (v.ins p i).status ≠ .executed) : v.Acts v' := by
  cases h with
  | passed _ _ hs => exact hs.acts
  | cycled _ _ _ hc hfin => exact hfin.execute_acts hc hok.1 hok.2
  | executed hf hst _ hc hfin => exact hfin.execute_acts hc hf hst

theorem Iteration.acts {slot : ℕ} {committed : Bool} {pc : Pc}
    (hpos : ∀ q, 0 < (v.logInfos q).minActiveSlot) (h : v.Iteration p slot committed pc v' nx)
    (hok : ∀ i ∈ pc.pending, ¬v.Freed p i ∧ (v.ins p i).status ≠ .executed) : v.Acts v' := by
  have hkeeps := (h.keeps hpos).stable
  cases h with
  | freed _ _ => exact .quiet hkeeps rfl
  | passed _ _ _ hs | waits _ hs | blocked _ hs => exact hs.acts
  | entered _ hst _ hrun => exact hrun.acts hst
  | resumed hrun => exact hrun.acts (hok _ rfl).2
  | completed _ hc hfin | broken _ _ _ hc hfin =>
    exact hfin.execute_acts hc (hok _ rfl).1 (hok _ rfl).2
  | eliminated _ _ hst =>
    rcases hst with ⟨hs,-⟩ | ⟨-,-,hc,-,hfin⟩
    · exact hs.acts
    · exact hfin.eliminate_acts hc
  | proceeded _ _ hrun | woken hrun => exact hrun.acts (hok _ rfl)

theorem message_acts {m : Message C} (hok : v.Heeds (.message p i m))
    (h : v.call (.message p i m) = some v') : v.Acts v' := by
  cases m with
  | fastAccept b d cmd =>
    obtain ⟨⟨w,b',sug⟩,hw,rfl⟩ := map_eq_some_iff.mp h
    obtain ⟨-,-,hup,-⟩ := onFastAccept_spec hw
    refine hup.acts ?_
    unfold fastAccept
    split
    next hb => exact settles_of_lt (hok hb)
    next => exact .refl _
  | accept b d cmd =>
    obtain ⟨⟨w,b'⟩,hw,rfl⟩ := map_eq_some_iff.mp h
    obtain ⟨-,hup,-⟩ := onAccept_spec hw
    refine hup.acts ?_
    unfold accept
    split_ifs with hb
    · exact settles_of_lt (hok hb)
    · exact .refl _
  | prepare b =>
    cases h
    by_cases hf : v.Freed p i
    · exact (onPrepare_freed v b hf).1.acts (.refl _)
    · refine (onPrepare_spec v b hf).2.1.acts ?_
      unfold prepare
      split_ifs
      · exact fun _ => ⟨le_rfl,rfl,rfl⟩
      · exact .refl _
  | commit d cmd =>
    cases h
    rcases hcom : v.onCommit p i d cmd with ⟨w,go⟩
    obtain ⟨⟨-,-,hst,hup⟩ | ⟨-,-,hup⟩,-⟩ := onCommit_spec hcom
    · exact hup.acts (settles_of_lt hst)
    · exact hup.acts (.refl _)

theorem of_getInstance {a : CopilotData C × CopilotLogInfo C}
    (h : (v.logInfos p).getInstance i = some a) :
    a = (v.ins p i,(v.logInfos p).set i (v.ins p i)) := by
  unfold CopilotLogInfo.getInstance at h
  split_ifs at h
  exact (Option.some.inj h).symm

theorem call_acts {c : Call C} (hpos : ∀ q, 0 < (v.logInfos q).minActiveSlot) (hok : v.Heeds c)
    (h : v.call c = some v') : v.Acts v' := by
  cases c with
  | message p slot m => exact message_acts hok h
  | lookUp p slot =>
    obtain ⟨a,ha,rfl⟩ := map_eq_some_iff.mp h
    rw [of_getInstance ha]
    exact (alike_getInstance v p slot).acts
  | takeOver p slot =>
    obtain ⟨a,ha,rfl⟩ := map_eq_some_iff.mp h
    rw [of_getInstance ha]
    have hset := keeps_set v p slot (d:={v.ins p slot with takeover := true}) ⟨rfl,rfl,rfl,.inl rfl⟩
    refine .quiet (Keeps.stable ?_) rfl
    simpa [CopilotLogInfo.set] using hset
  | eliminate p slot committed =>
    obtain ⟨⟨w,b⟩,hw,rfl⟩ := map_eq_some_iff.mp h
    rcases eliminateNullDep_spec hw with ⟨rfl,-⟩ | ⟨-,-,-,hc,-,hfin⟩
    · exact (Alike.refl _).acts
    · exact hfin.eliminate_acts hc
  | run t committed =>
    obtain ⟨⟨w,nx⟩,hw,rfl⟩ := map_eq_some_iff.mp h
    exact (runTask_iteration hw).acts hpos hok

structure Once (v : CopilotServer C) : Prop where
  active : ∀ q, 0 < (v.logInfos q).minActiveSlot
  nodup : (v.applied.map fun a => (a.1,a.2.1)).Nodup
  executed : ∀ a ∈ v.applied, v.Freed a.1 a.2.1 ∨ (v.ins a.1 a.2.1).status = .executed

theorem Once.acts (h : v.Once) (ha : v.Acts v') : v'.Once := by
  have hpos q := (h.active q).trans_le (ha.stable.active q)
  have hold : ∀ a ∈ v.applied, v'.Freed a.1 a.2.1 ∨ (v'.ins a.1 a.2.1).status = .executed := by
    intro a hmem
    by_cases hf : v'.Freed a.1 a.2.1
    · exact .inl hf
    have hex := (h.executed a hmem).resolve_left fun hf' => hf (ha.stable.freed hf')
    have hle := (ha.stable.held _ _ hf (hex ▸ by decide)).1
    exact .inr (le_antisymm (Status.le_executed _) (hex ▸ hle))
  cases ha with
  | quiet _ happ => exact ⟨hpos,happ ▸ h.nodup,happ ▸ hold⟩
  | applies _ hf hst hex happ =>
    refine ⟨hpos,?_,fun a hmem => ?_⟩
    · rw [happ,map_append]
      refine h.nodup.append (nodup_singleton _) ?_
      rintro _ hmem hnew
      obtain ⟨a,ha,rfl⟩ := List.mem_map.mp hmem
      cases mem_singleton.mp hnew
      exact (h.executed a ha).elim hf hst
    · rw [happ] at hmem
      rcases mem_append.mp hmem with hmem | hmem
      · exact hold a hmem
      · cases mem_singleton.mp hmem
        exact .inr hex

def replica (C : Type) : System (CopilotServer C) (Call C) where
  init v := v = .setup
  step := call

/-- Where nothing committed is overwritten and no coroutine finds its entry executed, committed
instances are stable until freed, and executed at most once. -/
theorem committed_stable (h : ReachableBy (replica C) Heeds v) (hrun : Run (replica C) Heeds v v') :
    (∀ p i, ¬v'.Freed p i → .committed ≤ (v.ins p i).status → ¬v.Freed p i ∧
      .committed ≤ (v'.ins p i).status ∧ (v'.ins p i).cmd = (v.ins p i).cmd ∧
      (v'.ins p i).depId = (v.ins p i).depId) ∧
    (v'.applied.map fun a => (a.1,a.2.1)).Nodup := by
  obtain ⟨_,rfl,hrun₀⟩ := h
  have hstep : ∀ v c v', v.Heeds c → v.Once → (replica C).step v c = some v' → v'.Once :=
    fun v c v' hok hv hst => hv.acts (call_acts hv.active hok hst)
  have hv := hrun₀.invariant hstep ⟨fun _ => Nat.one_pos,nodup_nil,nofun⟩
  have hlast := hrun.invariant (P:=fun w => w.Once ∧ v.Stable w)
    (fun w c w' hok hw hst => ⟨hstep w c w' hok hw.1 hst,
      hw.2.trans (call_acts hw.1.active hok hst).stable⟩)
    ⟨hv,fun _ => le_rfl,fun _ _ _ => .refl _⟩
  refine ⟨fun p i hf hc => ?_,hlast.1.nodup⟩
  obtain ⟨hst,hcmd,hdep⟩ := hlast.2.held p i hf hc
  exact ⟨fun hf' => hf (hlast.2.freed hf'),hc.trans hst,hcmd,hdep⟩

instance (m : Message C) (ins : CopilotData C) : Decidable (m.Overwrites ins) := by
  unfold Message.Overwrites
  split <;> infer_instance

instance (v : CopilotServer C) (c : Call C) : Decidable (v.Heeds c) := by
  unfold Heeds
  split <;> infer_instance

def committedServer : CopilotServer ℕ := after (replica ℕ) Heeds .setup
  [.message true 1 (.fastAccept 0 0 (some (.op 7))),.message true 1 (.commit 0 (some (.op 7)))]

def executedServer : CopilotServer ℕ := after (replica ℕ) Heeds committedServer
  [.message true 1 (.prepare 257),.run ⟨true,1,.entry 1⟩ false,
    .message true 1 (.accept 0 0 (some .noop))]

theorem committed_stable_executed : ReachableBy (replica ℕ) Heeds committedServer ∧
    Run (replica ℕ) Heeds committedServer executedServer ∧
    (committedServer.ins true 1).status = .committed ∧ (executedServer.ins true 1).ballot = 257 ∧
    (executedServer.ins true 1).cmd = some (.op 7) ∧ executedServer.applied = [(true,1,7)] := by
  have hreach : ReachableBy (replica ℕ) Heeds committedServer :=
    ⟨_,rfl,run_after _ _⟩
  have hrun : Run (replica ℕ) Heeds committedServer executedServer := run_after _ _
  have hcmd := ((committed_stable hreach hrun).1 true 1 (by decide +kernel) (by decide +kernel)).2.2.1
  exact ⟨hreach,hrun,by decide +kernel,by decide +kernel,hcmd.trans (by decide +kernel),by decide +kernel⟩

def takenRun : Cluster ℕ := after (system ℕ 3) (fun _ _ => True) .start
  [.submit 0 7,.receive 0 1,.submit 1 8,.receive 1 2,.arrive 1 2,.resume 1 fun _ => false,
    .resume 1 fun _ => false,.resume 1 fun _ => false,.receive 3 1,.receive 3 2,.arrive 3 1,
    .arrive 3 2,.resume 1 fun _ => false,.receive 4 2,.arrive 4 2,.resume 1 fun _ => false,
    .receive 5 0,.exec 0 false,.exec 0 false]

/-- The Accept of the takeover comes late and puts the pilot's instance back. -/
theorem accept_after_commit : Reachable (system ℕ 3) takenRun ∧
    ((takenRun.server 0).ins true 1).status = .executed ∧
    (takenRun.casts 4).map Cast.msg = some (.accept 0 0 (some (.op 7))) ∧
    (((system ℕ 3).step takenRun (.receive 4 0)).map fun s => ((s.server 0).ins true 1).status) =
      some .accepted :=
  ⟨⟨_,rfl,run_after _ _⟩,by decide +kernel,rfl,by decide +kernel⟩

end CopilotServer
end Janus.Copilot
