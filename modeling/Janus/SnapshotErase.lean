import Janus.SnapshotMap

/-! `erase` of one pair of a `snapshot_sortedmap` (`first_match_only`): the first visible pair
where the group has a read-only snapshot, a position of the multimap where it has none. And
`SnapshotTable::remove` of a row, which calls it. -/
namespace Janus.Snapshot

open Transition Function List Option Entry Heap

variable {K V : Type} [LinearOrder K] [DecidableEq V]

def hits (key : K) (target : Option V) (p : K × V) : Bool :=
  p.1 = key && target.all fun v => v = p.2

def erased (key : K) (target : Option V) (first : Bool) (m : List (K × V)) : List (K × V) :=
  if first then m.eraseP (hits key target) else m.filter fun p => !hits key target p

section Data

variable (key : K) (target : Option V) (ver : ℕ) (shared : Bool) (data : List (Entry K V))

def visibleHit (e : Entry K V) : Bool := hits key target e.pair && e.validAt ver

/-- Where `erase` with `first_match_only` stops: at a visible match; without a read-only snapshot
at `lower_bound(key)` or any match of the target. -/
def stops (e : Entry K V) : Bool :=
  if shared then visibleHit key target ver e
  else if target.isNone then key ≤ e.key else hits key target e.pair

/-- The data afterwards. `data.erase(data.lower_bound(key))` has to find an entry. -/
def eraseFirst : Option (List (Entry K V)) :=
  match data.dropWhile fun e => !stops key target ver shared e with
  | [] => if shared || target.isSome then some data else none
  | e::l => some ((data.takeWhile fun e => !stops key target ver shared e) ++
      if shared then e.remove (ver+1)::l else l)

structure Takes (A : List (Entry K V)) (e : Entry K V) (B : List (Entry K V)) : Prop where
  split : data = A++e::B
  result : eraseFirst key target ver shared data = some (A++if shared then e.remove (ver+1)::B else B)
  before : ∀ a ∈ A, stops key target ver shared a = false
  stop : stops key target ver shared e = true
  behind : hits key target e.pair = true ∨ ∀ b ∈ B, hits key target b.pair = false

end Data

namespace Heap

def erase (s : Heap K V) (h : ℕ) (key : K) (target : Option V) (first : Bool) :
    Option (Heap K V) :=
  if first then
    (s.handles h).bind fun x =>
      if s.readonly h x then none
      else
        (s.hasReadonlySnapshot h x).bind fun shared =>
          (eraseFirst key target x.ver shared (s.groups x.ssg).data).map fun data =>
            (s.modifyHandle h fun y => {y with ver := y.ver+1}).modifyGroup x.ssg fun g =>
              {g with
                data := data
                gcEraseCounter := g.gcEraseCounter +
                  if shared && g.data.any (visibleHit key target x.ver) then 1 else 0}
  else s.eraseIn h (.query key) (fun v => target.all fun w => w = v) true

end Heap

section Data

variable {key : K} {target : Option V} {ver : ℕ} {shared : Bool} {data A B : List (Entry K V)}
variable {e : Entry K V}

theorem hits_of_not_stops (h : stops key target ver shared e = false)
    (hv : shared = true → e.validAt ver = true) : hits key target e.pair = false := by
  unfold stops at h
  split_ifs at h with hs
  · simpa [visibleHit,hv hs] using h
  · have hne : e.key ≠ key := (not_le.mp (of_decide_eq_false h)).ne
    simp [hits,pair,hne]
  · exact h

theorem eraseFirst_cases (hsorted : Multimap.Sorted Entry.key data) (key : K) (target : Option V)
    (ver : ℕ) (shared : Bool) :
    (∀ a ∈ data, stops key target ver shared a = false) ∧
        eraseFirst key target ver shared data = (if shared || target.isSome then some data else none) ∨
      ∃ A e B, Takes key target ver shared data A e B := by
  have hdata := takeWhile_append_dropWhile (p:=fun e => !stops key target ver shared e) (l:=data)
  have hA : ∀ a ∈ data.takeWhile fun e => !stops key target ver shared e,
      stops key target ver shared a = false := fun a ha => by simpa using mem_takeWhile_imp ha
  cases hd : data.dropWhile fun e => !stops key target ver shared e with
  | nil =>
    rw [hd,append_nil] at hdata
    exact .inl ⟨hdata ▸ hA,by rw [eraseFirst,hd]⟩
  | cons e B =>
    rw [hd] at hdata
    have he : stops key target ver shared e = true := by
      simpa [hd] using head_dropWhile_not (fun e => !stops key target ver shared e) (l:=data)
        (by simp [hd])
    refine .inr ⟨_,e,B,hdata.symm,by rw [eraseFirst,hd],hA,he,
      or_iff_not_imp_left.mpr fun hne b hb => ?_⟩
    -- only the lower bound of a key that is not there is no match
    have hle : (e::B).Pairwise fun a b => a.key ≤ b.key :=
      hd ▸ List.Pairwise.sublist (dropWhile_sublist _) hsorted
    unfold stops at he
    split_ifs at he with h₁ h₂
    · exact absurd (Bool.and_eq_true_iff.mp he).1 hne
    · have hlt : key < e.key := lt_of_le_of_ne (of_decide_eq_true he) fun hk =>
        hne (by simp [hits,pair,hk,isNone_iff_eq_none.mp h₂])
      have hbk : b.key ≠ key := (hlt.trans_le ((pairwise_cons.mp hle).1 b hb)).ne'
      simp [hits,pair,hbk]
    · exact absurd he hne

/-- The content allows `erase` to take one pair where there is no read-only snapshot: no removed
match stands before the first visible one, and for `erase(key)` an entry at or above the key
exists, the first of which is not visible if no match is. -/
structure Erasable (key : K) (target : Option V) (ver : ℕ) (data : List (Entry K V)) : Prop where
  bound : target = none → ∃ e ∈ data, key ≤ e.key
  unmasked : (∃ e ∈ data, visibleHit key target ver e) →
    ∀ a ∈ data.takeWhile fun e => !visibleHit key target ver e, hits key target a.pair = false
  absent : target = none → (∀ e ∈ data, visibleHit key target ver e = false) →
    ∀ e ∈ (data.filter fun e => key ≤ e.key).head?, e.validAt ver = false

def Proper (key : K) (target : Option V) (ver : ℕ) (data : List (Entry K V)) (e : Entry K V) : Prop :=
  e.validAt ver = true ∧ hits key target e.pair = true ∨
    e.validAt ver = false ∧ ∀ x ∈ data, x.validAt ver = true → hits key target x.pair = false

theorem view_erased (hA : ∀ a ∈ A, a.validAt ver = true → hits key target a.pair = false)
    (hB : hits key target e.pair = true ∨ ∀ b ∈ B, hits key target b.pair = false) :
    ((A++B).filter fun e => e.validAt ver).map Entry.pair =
      (((A++e::B).filter fun e => e.validAt ver).map Entry.pair).eraseP (hits key target) ↔
        Proper key target ver (A++e::B) e := by
  have hmiss : ∀ l : List (Entry K V), (∀ a ∈ l, a.validAt ver = true → hits key target a.pair = false) →
      ∀ p ∈ (l.filter fun e => e.validAt ver).map pair, ¬hits key target p = true := by
    intro l hl p hp
    obtain ⟨a,ha,rfl⟩ := mem_map.mp hp
    obtain ⟨ha,hav⟩ := mem_filter.mp ha
    simp [hl a ha hav]
  unfold Proper
  cases hv : e.validAt ver with
  | true =>
    simp only [filter_append,filter_cons,hv,if_true,map_append,map_cons]
    rw [eraseP_append_right _ (hmiss A hA)]
    cases he : hits key target e.pair with
    | true => simp [he]
    | false =>
      have hB' := hmiss B fun b hb _ => hB.resolve_left (by simp [he]) b hb
      rw [eraseP_cons_of_neg (by simp [he]),eraseP_of_forall_not hB']
      simp
  | false =>
    have hsame : ((A++e::B).filter fun e => e.validAt ver) = (A++B).filter fun e => e.validAt ver := by
      simp [hv]
    rw [hsame,eq_comm,eraseP_eq_self_iff]
    simp only [Bool.false_eq_true,false_and,true_and,false_or]
    refine ⟨fun h x hx hxv => ?_,fun h => hsame ▸ hmiss _ h⟩
    simpa using h x.pair (mem_map_of_mem (hsame ▸ mem_filter.mpr ⟨hx,hxv⟩))

theorem Takes.proper_iff (h : Takes key target ver false data A e B) :
    Proper key target ver data e ↔ Erasable key target ver data := by
  obtain ⟨rfl,-,hbefore,hstop,hbehind⟩ := h
  have hA : ∀ a ∈ A, hits key target a.pair = false := fun a ha =>
    hits_of_not_stops (hbefore a ha) (by simp)
  have htake : (A++e::B).takeWhile (fun e => !visibleHit key target ver e) =
      A++(e::B).takeWhile fun e => !visibleHit key target ver e :=
    takeWhile_append_of_pos fun a ha => by simp [visibleHit,hA a ha]
  have hbound : target = none → key ≤ e.key ∧
      ((A++e::B).filter fun e => key ≤ e.key).head? = some e := by
    rintro rfl
    have hle : key ≤ e.key := by simpa [stops] using hstop
    have hlt : ∀ a ∈ A, ¬key ≤ a.key := fun a ha => by simpa [stops] using hbefore a ha
    refine ⟨hle,?_⟩
    rw [filter_append,filter_eq_nil_iff.mpr (by simpa using hlt),nil_append,
      filter_cons_of_pos (by simpa using hle)]
    rfl
  constructor
  · rintro (⟨hv,hhit⟩ | ⟨hv,hnone⟩)
    · refine ⟨fun ht => ⟨e,by simp,(hbound ht).1⟩,fun _ a ha => ?_,fun _ hno => ?_⟩
      · rw [htake,takeWhile_cons_of_neg (by simp [visibleHit,hv,hhit]),append_nil] at ha
        exact hA a ha
      · have hsee := hno e (by simp)
        simp [visibleHit,hv,hhit] at hsee
    · refine ⟨fun ht => ⟨e,by simp,(hbound ht).1⟩,?_,fun ht _ y hy => ?_⟩
      · rintro ⟨x,hx,hsee⟩
        obtain ⟨hhit,hxv⟩ := Bool.and_eq_true_iff.mp hsee
        exact absurd hhit (by simp [hnone x hx hxv])
      · rw [(hbound ht).2] at hy
        exact mem_some.mp hy ▸ hv
  · intro hE
    cases hv : e.validAt ver with
    | true =>
      refine .inl ⟨hv,?_⟩
      by_contra hhit
      have hnohit := hbehind.resolve_left hhit
      have ht : target = none := by
        cases target with
        | none => rfl
        | some v => exact absurd hstop hhit
      have hno : ∀ x ∈ A++e::B, visibleHit key target ver x = false := by
        intro x hx
        rcases mem_append.mp hx with hx | hx
        · simp [visibleHit,hA x hx]
        · rcases mem_cons.mp hx with rfl | hx
          · simp [visibleHit,hhit]
          · simp [visibleHit,hnohit x hx]
      have hgone := hE.absent ht hno e (hbound ht).2
      rw [hv] at hgone
      cases hgone
    | false =>
      refine .inr ⟨hv,fun x hx hxv => ?_⟩
      by_contra hhit
      have hmiss := hE.unmasked ⟨x,hx,by simpa [visibleHit,hxv] using hhit⟩ e (by
        rw [htake,takeWhile_cons_of_pos (by simp [visibleHit,hv])]
        simp)
      have hnohit := hbehind.resolve_left (by simp [hmiss])
      rcases mem_append.mp hx with hx | hx
      · exact hhit (hA x hx)
      · rcases mem_cons.mp hx with rfl | hx
        · exact hhit hmiss
        · exact hhit (hnohit x hx)

end Data

namespace Heap

variable {s s' : Heap K V} {h : ℕ} {x : Handle} {shared : Bool}

theorem erase_write {data : List (Entry K V)} {key : K} {target : Option V} (hinv : s.Inv)
    (hx : s.handles h = some x) (hw : (s.groups x.ssg).writer = some h)
    (hshared : s.hasReadonlySnapshot h x = some shared)
    (hdata : eraseFirst key target x.ver shared (s.groups x.ssg).data = some data)
    (hkeys : (data.map Entry.key).Sublist ((s.groups x.ssg).data.map Entry.key))
    (hmem : ∀ e ∈ data, e ∈ (s.groups x.ssg).data ∨
      ∃ y ∈ (s.groups x.ssg).data, e = y.remove (x.ver+1))
    (hold : shared = true → ∀ v ≤ x.ver, (data.filter fun e => e.validAt v).map Entry.pair =
      ((s.groups x.ssg).data.filter fun e => e.validAt v).map Entry.pair) :
    ∃ s', s.erase h key target true = some s' ∧ s'.all = update s.all h
      (some ((data.filter fun e => e.validAt (x.ver+1)).map Entry.pair)) := by
  have hwr := hinv.writes hx hw
  obtain ⟨b,hb,halone⟩ := hinv.hasReadonlySnapshot hx hw
  obtain rfl : shared = b := some.inj (hshared.symm.trans hb)
  simp only [erase,if_true,hx,bind_some,readonly,hw,ne_eq,not_true_eq_false,decide_false,
    Bool.false_eq_true,if_false,hshared,hdata,map_some,some.injEq,exists_eq_left']
  refine (write_spec (F:=fun g => {g with data := data, gcEraseCounter := _}) hinv hx hw
    (fun _ => rfl) ?_ (fun e he => ?_) (fun e he r hr => ?_) fun a y hne hy hg hle => ?_).2
  · refine ⟨pairwise_map.mp ((pairwise_map.mpr (hinv.sorted x.ssg).1).sublist hkeys),
      fun e he r hr => ?_⟩
    rcases hmem e he with hold | ⟨y,hold,rfl⟩
    · exact (hinv.sorted x.ssg).2 e hold r hr
    · exact some.inj hr ▸ Nat.le_succ_of_le (hwr.created y hold)
  · rcases hmem e he with hold | ⟨y,hold,rfl⟩
    · exact Nat.le_succ_of_le (hwr.created e hold)
    · exact Nat.le_succ_of_le (hwr.created y hold)
  · rcases hmem e he with hold | ⟨y,-,rfl⟩
    · exact Nat.le_succ_of_le (hwr.removed e hold r hr)
    · exact (some.inj hr).ge
  · cases shared with
    | true => exact hold rfl y.ver hle
    | false => exact absurd (halone rfl a y hy hg) hne

theorem erase_first (hinv : s.Inv) (hx : s.handles h = some x)
    (hw : (s.groups x.ssg).writer = some h) (hshared : s.hasReadonlySnapshot h x = some shared)
    (key : K) (target : Option V) :
    (∀ a ∈ (s.groups x.ssg).data, stops key target x.ver shared a = false) ∧
        (if shared || target.isSome then ∃ s', s.erase h key target true = some s' ∧
          s'.all = update s.all h (some (s.view x)) else s.erase h key target true = none) ∨
      ∃ s' A e B, Takes key target x.ver shared (s.groups x.ssg).data A e B ∧
        s.erase h key target true = some s' ∧
        s'.all = update s.all h (some (((A++B).filter fun e => e.validAt x.ver).map Entry.pair)) := by
  have hwr := hinv.writes hx hw
  have hview : ∀ l : List (Entry K V), (∀ e ∈ l, e ∈ (s.groups x.ssg).data) →
      (l.filter fun e => e.validAt (x.ver+1)) = l.filter fun e => e.validAt x.ver :=
    fun l hl => filter_congr fun e he => hwr.validAt_succ (hl e he)
  rcases eraseFirst_cases (hinv.sorted x.ssg).1 key target x.ver shared with
    ⟨hno,hres⟩ | ⟨A,e,B,htakes⟩
  · refine .inl ⟨hno,?_⟩
    split_ifs at hres ⊢ with hdef
    · obtain ⟨s',hs',hall⟩ := erase_write hinv hx hw hshared hres (.refl _) (fun _ => .inl)
        fun _ _ _ => rfl
      rw [hview _ fun _ => id] at hall
      exact ⟨s',hs',hall⟩
    · simp [erase,hx,readonly,hw,hshared,hres]
  · have hsplit := htakes.split
    have hres := htakes.result
    have hsub : ∀ a ∈ A++B, a ∈ (s.groups x.ssg).data := by
      rw [hsplit]
      exact fun a ha => ((sublist_cons_self e B).append_left A).subset ha
    have hmem : e ∈ (s.groups x.ssg).data := by simp [hsplit]
    have hwrite : ∃ s', s.erase h key target true = some s' ∧ s'.all = update s.all h
        (some (((A++B).filter fun e => e.validAt (x.ver+1)).map pair)) := by
      cases shared with
      | true =>
        have hvis : e.validAt x.ver = true := (Bool.and_eq_true_iff.mp htakes.stop).2
        have hgone : (e.remove (x.ver+1)).validAt (x.ver+1) = false := by
          simp [validAt,remove]
        refine (erase_write hinv hx hw hshared hres (by simp [hsplit,remove]) (fun a ha => ?_)
          fun _ v hv => ?_).imp fun s' hs' => ⟨hs'.1,hs'.2.trans ?_⟩
        · rcases mem_append.mp ha with ha | ha
          · exact .inl (hsub a (mem_append_left _ ha))
          · rcases mem_cons.mp ha with rfl | ha
            · exact .inr ⟨e,hmem,rfl⟩
            · exact .inl (hsub a (mem_append_right _ ha))
        · have hkept : (e.remove (x.ver+1)).validAt v = e.validAt v := by
            simp only [validAt,remove,hwr.removedAt_none hmem hvis,all_some,
              all_none,Nat.lt_succ_of_le hv,decide_true]
            rfl
          rw [hsplit,if_pos rfl,filter_append,filter_append,filter_cons,filter_cons,hkept]
          cases e.validAt v <;> simp [pair,remove]
        · simp [hgone]
      | false =>
        exact erase_write hinv hx hw hshared hres
          (hsplit ▸ ((sublist_cons_self e B).append_left A).map _)
          (fun a ha => .inl (hsub a ha)) (by simp)
    rw [hview _ hsub] at hwrite
    obtain ⟨s',hs',hall⟩ := hwrite
    exact .inr ⟨s',A,e,B,htakes,hs',hall⟩

end Heap

/-- `erase` leaves what it should, unless it is to take one pair only, there is no read-only
snapshot, and the content does not allow it. -/
theorem erase_agrees_iff (s : Heap K V) (hinv : s.Inv) (h : ℕ) (x : Handle)
    (hx : s.handles h = some x) (hw : (s.groups x.ssg).writer = some h) (key : K)
    (target : Option V) (first : Bool) :
    (s.erase h key target first).bind (fun s' => s'.all h) = some (erased key target first (s.view x)) ↔
      first = false ∨ s.hasReadonlySnapshot h x = some true ∨
        Erasable key target x.ver (s.groups x.ssg).data := by
  cases first with
  | false =>
    refine iff_of_true ?_ (.inl rfl)
    obtain ⟨s',hs',-,hall⟩ := eraseIn_spec hinv ⟨x,hx,hw⟩ (.query key)
      (fun v => target.all fun w => w = v) true
    rw [show s.erase h key target false = some s' from hs',bind_some,hall,update_self,Heap.all,hx]
    simp [erased,hits,Range.mem_query]
  | true =>
    obtain ⟨shared,hshared,-⟩ := hinv.hasReadonlySnapshot hx hw
    rcases erase_first hinv hx hw hshared key target with
      ⟨hno,hres⟩ | ⟨s',A,e,B,htakes,hs',hall⟩
    · split_ifs at hres with hdef
      · obtain ⟨s',hs',hall⟩ := hres
        refine iff_of_true ?_ ?_
        · rw [hs',bind_some,hall,update_self]
          refine congrArg some (eraseP_of_forall_not fun p hp => ?_).symm
          obtain ⟨a,ha,rfl⟩ := mem_map.mp hp
          obtain ⟨ha,hav⟩ := mem_filter.mp ha
          simp [hits_of_not_stops (hno a ha) fun _ => hav]
        · cases shared with
          | true => exact .inr (.inl hshared)
          | false =>
            have hmiss : ∀ a ∈ (s.groups x.ssg).data, hits key target a.pair = false := fun a ha =>
              hits_of_not_stops (hno a ha) (by simp)
            have hsome : target ≠ none := by rintro rfl; simp at hdef
            exact .inr (.inr ⟨fun ht => absurd ht hsome,
              fun _ a ha => hmiss a (takeWhile_subset _ ha),fun ht => absurd ht hsome⟩)
      · simp only [Bool.or_eq_true,not_or,Bool.not_eq_true,isSome_eq_false_iff,
          isNone_iff_eq_none] at hdef
        obtain ⟨rfl,rfl⟩ := hdef
        refine iff_of_false (by simp [hres]) ?_
        rintro (hf | hs | hE)
        · cases hf
        · simp [hshared] at hs
        · obtain ⟨e,he,hle⟩ := hE.bound rfl
          simpa [stops,hle] using hno e he
    · rw [hs',bind_some,hall,update_self,some.injEq]
      have hiff := view_erased (fun a ha hav => hits_of_not_stops (htakes.before a ha) fun _ => hav)
        htakes.behind
      rw [← htakes.split] at hiff
      refine hiff.trans ?_
      cases shared with
      | true =>
        obtain ⟨hhit,hvis⟩ := Bool.and_eq_true_iff.mp htakes.stop
        exact iff_of_true (.inl ⟨hvis,hhit⟩) (.inr (.inl hshared))
      | false => simp [hshared,htakes.proper_iff]

def garbage : Heap ℕ ℕ × Naive ℕ ℕ :=
  after (system ℕ ℕ) (fun _ _ => True) ({},fun _ => none)
    [.construct,.insert 0 1 10,.snapshot 0,.erase 0 1,.destroy 1,.insert 0 1 11,.insert 0 2 20]

theorem garbage_reachable : Reachable (system ℕ ℕ) garbage := by
  exact ⟨_,rfl,run_after _ _⟩

theorem erase_agrees_garbage :
    (garbage.1.erase 0 2 none true).bind (fun s' => s'.all 0) = some [(1,11)] :=
  (erase_agrees_iff garbage.1 (simulation garbage_reachable).1 0 ⟨4,0,0,0⟩ rfl rfl 2 none true).mpr
    (.inr (.inr ⟨by decide +kernel,by decide +kernel,by decide +kernel⟩))

/-- The removed entry of key 1 is erased in place of the visible one; that one is erased for key 0,
which is not there; and for key 3 there is no entry. -/
theorem erase_paths_differ : Reachable (system ℕ ℕ) garbage ∧
    garbage.1.all 0 = some [(1,11),(2,20)] ∧
    (garbage.1.erase 0 1 none true).bind (fun s' => s'.all 0) = some [(1,11),(2,20)] ∧
    ((garbage.1.erase 0 1 none true).bind fun s' => s'.erase 0 0 none true).bind
      (fun s' => s'.all 0) = some [(2,20)] ∧
    (garbage.1.erase 0 3 none true).isNone = true :=
  ⟨garbage_reachable,by decide +kernel,by decide +kernel,by decide +kernel,by decide +kernel⟩

/-! ### Rows of a `SnapshotTable` -/

/-- In `rows_.erase(key, row)` the pointer becomes the flag `first_match_only`, since it converts
to `bool` without a constructor. -/
def Heap.removeRow (s : Heap K ℕ) (rowKey : ℕ → K) (h r : ℕ) : Option (Heap K ℕ) :=
  s.erase h (rowKey r) none true

omit [LinearOrder K] in
theorem append_eq_filter {L R : List (K × ℕ)} {p : K × ℕ} {r : ℕ}
    (hnodup : ((L++p::R).map Prod.snd).Nodup) :
    L++R = (L++p::R).filter (fun q => q.2 ≠ r) ↔ p.2 = r := by
  have hp : p.2 ∉ (L++R).map Prod.snd := by
    rw [map_append,map_cons,nodup_middle,← map_append] at hnodup
    exact (nodup_cons.mp hnodup).1
  constructor
  · intro h
    by_contra hne
    exact hp (mem_map_of_mem (h ▸ mem_filter.mpr ⟨by simp,by simpa using hne⟩))
  · rintro rfl
    rw [filter_append,filter_cons_of_neg (by simp),← filter_append]
    refine (filter_eq_self.mpr fun q hq => ?_).symm
    simp only [ne_eq,decide_eq_true_eq]
    exact fun he => hp (he ▸ mem_map_of_mem hq)

/-- The entry that is taken is that of the row exactly if none of its key stands before. -/
theorem Takes.row_iff {key : K} {ver r : ℕ} {shared : Bool} {data A B : List (Entry K ℕ)}
    {e z : Entry K ℕ} (h : Takes key none ver shared data A e B)
    (hsorted : Multimap.Sorted Entry.key data)
    (hnodup : (((data.filter fun e => e.validAt ver).map pair).map Prod.snd).Nodup)
    (hz : z ∈ data) (hzv : z.validAt ver = true) (hzr : z.pair = (key,r)) :
    (e.validAt ver = true ∧ e.val = r) ↔
      ∀ a ∈ data.takeWhile fun e => !(e.validAt ver && e.val = r),
        a.key = key → shared = true ∧ a.validAt ver = false := by
  obtain ⟨rfl,-,hbefore,hstop,-⟩ := h
  have hzk : z.key = key := congrArg Prod.fst hzr
  have hstops : ∀ a : Entry K ℕ, a.key = key → stops key none ver shared a = false →
      shared = true ∧ a.validAt ver = false := by
    rintro a rfl ha
    cases shared with
    | true => simpa [stops,visibleHit,hits,pair] using ha
    | false => simp [stops] at ha
  constructor
  · rintro ⟨hv,hr⟩ a ha hk
    rw [takeWhile_append,takeWhile_cons_of_neg (by simp [hv,hr]),append_nil] at ha
    refine hstops a hk (hbefore a ?_)
    split_ifs at ha
    · exact ha
    · exact takeWhile_subset _ ha
  · intro hall
    by_contra hne
    have hA : ∀ a ∈ A, (!(a.validAt ver && decide (a.val = r))) = true := by
      intro a ha
      by_contra hsame
      obtain ⟨hav,har⟩ : a.validAt ver = true ∧ a.val = r := by simpa using hsame
      have hpair : a.pair = z.pair :=
        inj_on_of_nodup_map hnodup (mem_map_of_mem (mem_filter.mpr ⟨by simp [ha],hav⟩))
          (mem_map_of_mem (mem_filter.mpr ⟨hz,hzv⟩)) (har.trans (congrArg Prod.snd hzr).symm)
      have hgone := hstops a ((congrArg Prod.fst hpair).trans hzk) (hbefore a ha)
      simp [hav] at hgone
    have he : (!(e.validAt ver && decide (e.val = r))) = true := by
      cases hv : e.validAt ver with
      | false => rfl
      | true => simpa [hv] using hne
    have hlast := hall e (by
      rw [takeWhile_append_of_pos hA,takeWhile_cons,if_pos he]
      simp)
    cases shared with
    | true =>
      obtain ⟨hhit,hv⟩ := Bool.and_eq_true_iff.mp hstop
      simp only [hits,pair,Option.all_none,Bool.and_true] at hhit
      have hgone := (hlast (of_decide_eq_true hhit)).2
      rw [hv] at hgone
      cases hgone
    | false =>
      have hle : key ≤ e.key := by simpa [stops] using hstop
      have hge : e.key ≤ z.key := by
        rcases mem_append.mp hz with hz | hz
        · exact absurd (hbefore z hz) (by simp [stops,hzk])
        · rcases mem_cons.mp hz with rfl | hz
          · exact le_rfl
          · exact (pairwise_cons.mp (pairwise_append.mp hsorted).2.1).1 z hz
      exact Bool.false_ne_true (hlast (le_antisymm (hzk ▸ hge) hle)).1

/-- The table enumerates its rows without the given one exactly if no entry of its key (with a
read-only snapshot: no visible one) stands before its own. No other handle sees a difference. -/
theorem remove_row_iff (rowKey : ℕ → K) (s : Heap K ℕ) (hinv : s.Inv) (h : ℕ) (x : Handle)
    (hx : s.handles h = some x) (hw : (s.groups x.ssg).writer = some h) (shared : Bool)
    (hshared : s.hasReadonlySnapshot h x = some shared) (hnodup : ((s.view x).map Prod.snd).Nodup)
    (r : ℕ) (hr : (rowKey r,r) ∈ s.view x) :
    ∃ s', s.removeRow rowKey h r = some s' ∧ (∀ a ≠ h, s'.all a = s.all a) ∧
      (s'.all h = some ((s.view x).filter fun p => p.2 ≠ r) ↔
        ∀ a ∈ (s.groups x.ssg).data.takeWhile fun e => !(e.validAt x.ver && e.val = r),
          a.key = rowKey r → shared = true ∧ a.validAt x.ver = false) := by
  obtain ⟨z,hz,hzr⟩ := mem_map.mp hr
  obtain ⟨hz,hzv⟩ := mem_filter.mp hz
  rcases erase_first hinv hx hw hshared (rowKey r) none with
    ⟨hno,-⟩ | ⟨s',A,e,B,htakes,hs',hall⟩
  · have hmiss := hits_of_not_stops (hno z hz) fun _ => hzv
    rw [hzr] at hmiss
    simp [hits] at hmiss
  refine ⟨s',hs',fun a ha => by rw [hall,update_of_ne ha],?_⟩
  rw [← htakes.row_iff (hinv.sorted x.ssg).1 hnodup hz hzv hzr,hall,update_self,some.injEq,
    filter_append,map_append]
  cases hv : e.validAt x.ver with
  | true =>
    have hview : s.view x = (A.filter fun e => e.validAt x.ver).map pair ++
        e.pair::(B.filter fun e => e.validAt x.ver).map pair := by
      simp [view,htakes.split,hv]
    rw [hview] at hnodup ⊢
    rw [append_eq_filter hnodup]
    simp [pair]
  | false =>
    have hview : s.view x = (A.filter fun e => e.validAt x.ver).map pair ++
        (B.filter fun e => e.validAt x.ver).map pair := by
      simp [view,htakes.split,hv]
    rw [← hview]
    refine iff_of_false (fun he => ?_) (by simp)
    have hmem := of_mem_filter (he ▸ hr)
    simp at hmem

theorem remove_row_garbage : ∃ s', garbage.1.removeRow (· / 10) 0 20 = some s' ∧
    s'.all 0 = some [(1,11)] := by
  obtain ⟨s',hs',-,hall⟩ := remove_row_iff (· / 10) garbage.1 (simulation garbage_reachable).1 0
    ⟨4,0,0,0⟩ rfl rfl false rfl (by decide +kernel) 20 (by decide +kernel)
  exact ⟨s',hs',hall.mpr (by decide +kernel)⟩

def twins : Heap ℕ ℕ × Naive ℕ ℕ :=
  after (system ℕ ℕ) (fun _ _ => True) ({},fun _ => none)
    [.construct,.insert 0 1 10,.insert 0 1 11,.snapshot 0]

/-- Row 11 is to be removed: with a snapshot row 10 goes instead, and without one nothing where a
removed row of the key is in the data. -/
theorem remove_row_takes_another :
    Reachable (system ℕ ℕ) twins ∧ twins.1.all 0 = some [(1,10),(1,11)] ∧
    (twins.1.removeRow (· / 10) 0 11).bind (fun s' => s'.all 0) = some [(1,11)] ∧
    Reachable (system ℕ ℕ) garbage ∧ garbage.1.all 0 = some [(1,11),(2,20)] ∧
    (garbage.1.removeRow (· / 10) 0 11).bind (fun s' => s'.all 0) = some [(1,11),(2,20)] := by
  refine ⟨?_,by decide +kernel,by decide +kernel,garbage_reachable,by decide +kernel,by decide +kernel⟩
  exact ⟨_,rfl,run_after _ _⟩

end Janus.Snapshot
