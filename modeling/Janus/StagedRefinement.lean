import Janus.StagedTxn

/-! A staged transaction shows what direct execution shows, as long as the keys of the
tables stay in place and compare alike in all containers: on the way, after its commit and
after its abort. -/
namespace Janus.Memdb

open Transition Function List Option List.Perm Staging

def Row.Shows (row : Row) (f : ℕ → Option Value) (row' : Row) : Prop :=
  row'.schema = row.schema ∧ ∀ c, row'.values c = (f c).getD (row.values c)

def Db.Takes (db : Db) (u : RowId × ℕ × Value) : Prop :=
  ∃ row, db.rows u.1 = some row ∧ row.tbl ≠ none ∧ u.2.1 ∉ row.schema.keys ∧
    ((row.schema.columns[u.2.1]?).any fun col => u.2.2.kind = col.kind) = true ∧
    (row.schema.strKey = true → row.sparse = false →
      u.2.2.length = (row.values u.2.1).length)

section Commit

variable {cat : TableId → TableInfo} {db : Db} {L : List (TableId × RowId)} {t : TableId}
  {r : RowId} {row : Row}
variable {c : ℕ} {v : Value} {l : List (RowId × ℕ × Value)}

theorem Row.store_sparse (h : row.sparse = false → v.length = (row.values c).length) :
    (row.store c v).sparse = row.sparse := by
  cases hs : row.sparse with
  | true => simp [store,hs]
  | false => simp [store,hs,h hs]

def findIn (l : List (RowId × ℕ × Value)) (r : RowId) (c : ℕ) : Option Value :=
  (l.find? fun u => u.1 = r ∧ u.2.1 = c).map fun u => u.2.2

theorem mem_of_findIn (h : findIn l r c = some v) : (r,c,v) ∈ l := by
  obtain ⟨⟨r',c',v'⟩,hu,rfl⟩ := map_eq_some_iff.mp h
  have hp := find?_some hu
  simp only [decide_eq_true_eq] at hp
  obtain ⟨rfl,rfl⟩ := hp
  exact mem_of_find?_eq_some hu

theorem findIn_cons (u : RowId × ℕ × Value) (l : List (RowId × ℕ × Value)) (r : RowId) (c : ℕ) :
    findIn (u::l) r c = if u.1 = r ∧ u.2.1 = c then some u.2.2 else findIn l r c := by
  unfold findIn
  by_cases h : u.1 = r ∧ u.2.1 = c
  · simp [h]
  · rw [find?_cons_of_neg (by simpa using h),if_neg h]

theorem findIn_filter {x : RowId} (hx : x ≠ r) (c : ℕ) :
    findIn (l.filter fun u => u.1 ≠ r) x c = findIn l x c := by
  induction l with
  | nil => rfl
  | cons u l ih =>
    by_cases hu : u.1 = r
    · have hux : ¬(u.1 = x ∧ u.2.1 = c) := fun h => hx (h.1.symm.trans hu)
      rw [filter_cons_of_neg (by simpa using hu),ih,findIn_cons,if_neg hux]
    · rw [filter_cons_of_pos (by simpa using hu),findIn_cons,findIn_cons,ih]

theorem findIn_append (h : findIn l r c = none) (x : RowId) (c' : ℕ) :
    findIn (l++[(r,c,v)]) x c' = if r = x ∧ c = c' then some v else findIn l x c' := by
  induction l with
  | nil => exact findIn_cons _ _ _ _
  | cons u l ih =>
    rw [findIn_cons] at h
    split_ifs at h with hu
    rw [cons_append,findIn_cons,findIn_cons,ih h]
    by_cases hx : r = x ∧ c = c'
    · obtain ⟨rfl,rfl⟩ := hx
      rw [if_neg hu,if_pos ⟨rfl,rfl⟩,if_pos ⟨rfl,rfl⟩]
    · rw [if_neg hx,if_neg hx]

theorem findIn_replace (l : List (RowId × ℕ × Value)) (r x : RowId) (c c' : ℕ) (v : Value) :
    findIn (l.map fun u => if u.1 = r ∧ u.2.1 = c then (r,c,v) else u) x c' =
      if r = x ∧ c = c' then (findIn l r c).map fun _ => v else findIn l x c' := by
  induction l with
  | nil => simp [findIn]
  | cons u l ih =>
    rw [map_cons,findIn_cons,findIn_cons,findIn_cons,ih]
    by_cases hx : r = x ∧ c = c'
    · obtain ⟨rfl,rfl⟩ := hx
      by_cases hu : u.1 = r ∧ u.2.1 = c <;> simp [hu]
    · by_cases hu : u.1 = r ∧ u.2.1 = c <;> simp [hu,hx]

namespace Db

theorem Takes.store {u : RowId × ℕ × Value} (h : db.Takes u) {db' : Db} {c : ℕ} {v : Value}
    (hrow : db.rows r = some row) (hne : (u.1,u.2.1) ≠ (r,c))
    (hdb : db'.rows = Function.update db.rows r (some (row.store c v)))
    (hsparse : row.schema.strKey = true → (row.store c v).sparse = row.sparse) :
    db'.Takes u := by
  obtain ⟨z,hz,htbl,hkey,hcol,hlen⟩ := h
  by_cases hr : u.1 = r
  · have hc : u.2.1 ≠ c := fun hc => hne (by rw [hr,hc])
    have hzr : row = z := some.inj (hrow.symm.trans (hr ▸ hz))
    subst hzr
    refine ⟨row.store c v,by rw [hdb,hr,update_self],htbl,hkey,hcol,?_⟩
    intro hstr hs
    have hval : (row.store c v).values u.2.1 = row.values u.2.1 := update_of_ne hc _ _
    rw [hval]
    exact hlen hstr (by rw [← hsparse hstr,hs])
  · exact ⟨z,by rw [hdb,update_of_ne hr,hz],htbl,hkey,hcol,hlen⟩

theorem Valid.insertAll_spec (h : db.Valid cat L) :
    ∃ db', db.insertAll cat L = some db' ∧ db'.Valid cat [] ∧
      (∀ t, db'.ids t = db.ids t++(L.filter fun p => p.1 = t).map Prod.snd) ∧
      ∀ r row, db.rows r = some row → ∃ row', db'.rows r = some row' ∧
        row'.schema = row.schema ∧ row'.values = row.values ∧ (row.tbl ≠ none → row' = row) := by
  induction L generalizing db with
  | nil => exact ⟨db,rfl,h,by simp,fun r row hrow => ⟨row,hrow,rfl,rfl,fun _ => rfl⟩⟩
  | cons p L ih =>
    obtain ⟨t,r⟩ := p
    obtain ⟨row,hrow,htbl⟩ := h.loose (t,r) mem_cons_self
    obtain ⟨db',hdb',hvalid,hids,hrows⟩ := ih (h.file hrow)
    refine ⟨db',?_,hvalid,?_,?_⟩
    · rw [insertAll,h.insert_eq hrow]
      exact hdb'
    · intro t'
      rw [hids,ids_setTable]
      by_cases ht : t' = t
      · subst ht
        simp [ids]
      · simp [ht,Ne.symm ht]
    · intro x z hz
      by_cases hx : x = r
      · subst hx
        cases some.inj (hrow.symm.trans hz)
        obtain ⟨z',hz',hs,hv,-⟩ := hrows x _ (update_self ..)
        exact ⟨z',hz',hs,hv,fun hne => absurd htbl hne⟩
      · exact hrows x z (by rw [setTable_rows,setRow_rows,update_of_ne hx,hz])

theorem Valid.updateAll_spec (h : db.Valid cat []) {l : List (RowId × ℕ × Value)}
    (hnd : (l.map fun u => (u.1,u.2.1)).Nodup) (htakes : ∀ u ∈ l, db.Takes u) :
    ∃ db', db.updateAll cat l = some db' ∧ db'.Valid cat [] ∧ (∀ t, (db'.ids t).Perm (db.ids t)) ∧
      ∀ r row, db.rows r = some row → ∃ row', db'.rows r = some row' ∧
        row'.tbl = row.tbl ∧ row.Shows (findIn l r) row' := by
  induction l generalizing db with
  | nil =>
    exact ⟨db,rfl,h,fun t => List.Perm.refl _,fun r row hrow => ⟨row,hrow,rfl,rfl,fun c => rfl⟩⟩
  | cons u l ih =>
    obtain ⟨r,c,v⟩ := u
    rw [map_cons,nodup_cons] at hnd
    obtain ⟨row,hrow,htbl,hkey,hcol,hlen⟩ := htakes (r,c,v) mem_cons_self
    have hsparse : row.schema.strKey = true → (row.store c v).sparse = row.sparse :=
      fun hstr => Row.store_sparse (hlen hstr)
    obtain ⟨db₁,hdb₁,hrows₁,hids₁,-,hvalid₁⟩ := h.update_spec hrow hkey hcol fun _ => hsparse
    have hne : ∀ u ∈ l, (u.1,u.2.1) ≠ (r,c) := fun u hu heq =>
      hnd.1 (mem_map.mpr ⟨u,hu,heq⟩)
    have htakes₁ : ∀ u ∈ l, db₁.Takes u := fun u hu =>
      (htakes u (mem_cons_of_mem _ hu)).store hrow (hne u hu) hrows₁ hsparse
    obtain ⟨db',hdb',hvalid',hids',hrows'⟩ := ih hvalid₁ hnd.2 htakes₁
    refine ⟨db',?_,hvalid',fun t => (hids' t).trans (hids₁ t),?_⟩
    · have hin : ¬(db.rows r).bind Row.tbl = none := by rwa [hrow]
      rw [updateAll,if_neg hin,hdb₁]
      exact hdb'
    · intro x z hz
      by_cases hx : x = r
      · subst hx
        cases some.inj (hrow.symm.trans hz)
        obtain ⟨z',hz',ht',hs',hv'⟩ := hrows' x (row.store c v) (by
          rw [hrows₁,update_self])
        refine ⟨z',hz',ht',hs',fun c' => ?_⟩
        rw [hv' c',findIn_cons]
        by_cases hc : c = c'
        · subst hc
          have hno : findIn l x c = none := by
            cases hf : findIn l x c with
            | none => rfl
            | some w => exact absurd rfl (hne _ (mem_of_findIn hf))
          simp [hno,Row.store]
        · simp [hc,Row.store,update_of_ne (Ne.symm hc)]
      · obtain ⟨z',hz',ht',hs',hv'⟩ := hrows' x z (by rw [hrows₁,update_of_ne hx,hz])
        refine ⟨z',hz',ht',hs',fun c' => ?_⟩
        rw [hv' c',findIn_cons,if_neg fun hc => hx hc.1.symm]

theorem Valid.removeAll_spec (h : db.Valid cat L) {l : List (TableId × RowId)} (hnd : l.Nodup)
    (hl : ∀ p ∈ l, ∃ row, db.rows p.2 = some row ∧ row.tbl = some p.1) :
    ∃ db', db.removeAll cat l = some db' ∧ (∀ t, db'.ids t = (db.ids t).filter fun r => (t,r) ∉ l) ∧
      ∀ r, (∀ t, (t,r) ∉ l) → db'.rows r = db.rows r := by
  induction l generalizing db L with
  | nil => exact ⟨db,rfl,by simp,fun r _ => rfl⟩
  | cons p l ih =>
    obtain ⟨t,r⟩ := p
    rw [nodup_cons] at hnd
    obtain ⟨row,hrow,htbl⟩ : ∃ row, db.rows r = some row ∧ row.tbl = some t :=
      hl (t,r) mem_cons_self
    have hl₁ : ∀ p ∈ l, ∃ z, Function.update db.rows r (some {row with tbl := none}) p.2 = some z ∧
        z.tbl = some p.1 := by
      intro p hp
      obtain ⟨z,hz,hzt⟩ := hl p (mem_cons_of_mem _ hp)
      have hx : p.2 ≠ r := by
        intro hx
        rw [hx] at hz
        rw [some.inj (hz.symm.trans hrow),htbl,some.injEq] at hzt
        exact hnd.1 (by rw [hzt,← hx]; exact hp)
      exact ⟨z,by rw [update_of_ne hx,hz],hzt⟩
    obtain ⟨db',hdb',hids',hrows'⟩ := ih (h.unfile hrow htbl) hnd.2 hl₁
    refine ⟨db',?_,?_,?_⟩
    · rw [removeAll,h.remove_eq hrow htbl]
      exact hdb'
    · intro t'
      rw [hids',ids_setTable]
      by_cases ht : t' = t
      · subst ht
        have hnodup : ((db.tables t').map Entry.row).Nodup := h.nodup t'
        rw [if_pos rfl,map_eraseP_row,hnodup.erase_eq_filter,List.filter_filter]
        refine filter_congr fun x _ => ?_
        by_cases hx : x = r <;> simp [hx]
      · rw [if_neg ht]
        simp [ht]
    · intro x hx
      rw [hrows' x fun t' ht' => hx t' (mem_cons_of_mem _ ht')]
      have hxr : x ≠ r := fun hxr => hx t (hxr ▸ mem_cons_self)
      exact update_of_ne hxr _ _

@[simp] theorem ids_freeAll (l : List RowId) : (db.freeAll l).ids = db.ids := by
  induction l generalizing db with
  | nil => rfl
  | cons r l ih => rw [freeAll,ih,ids_setRow]

theorem freeAll_rows {l : List RowId} (hr : r ∉ l) : (db.freeAll l).rows r = db.rows r := by
  induction l generalizing db with
  | nil => rfl
  | cons x l ih =>
    rw [mem_cons,not_or] at hr
    rw [freeAll,ih hr.2,setRow_rows,update_of_ne hr.1]

end Db

end Commit

/-- The two executions of a program agree: the tables of the direct one hold what the
staged one will hold after its commit. -/
structure Sim (cat : TableId → TableInfo) (j : Pair) : Prop where
  direct : j.direct.Valid cat []
  staged : j.staged.Valid cat j.staging.inserts
  ids : ∀ t, (j.direct.ids t).Perm
    (((j.staged.ids t).filter fun r => (t,r) ∉ j.staging.removes)++j.staging.rowsFor t)
  rows : ∀ r row', j.direct.rows r = some row' → ∃ row, j.staged.rows r = some row ∧
    row.Shows (findIn j.staging.updates r) row' ∧
    (row.tbl ≠ none → row.schema.strKey = true → row'.sparse = row.sparse)
  takes : ∀ u ∈ j.staging.updates, j.staged.Takes u
  nodup : (j.staging.updates.map fun u => (u.1,u.2.1)).Nodup
  removes : ∀ p ∈ j.staging.removes,
    ∃ row, j.staged.rows p.2 = some row ∧ row.tbl = some p.1
  nodupRemoves : j.staging.removes.Nodup
  tables : j.staged.tables = j.initial.tables
  kept : ∀ r row, j.initial.rows r = some row → row.tbl ≠ none ∧ j.staged.rows r = some row

namespace Sim

variable {cat : TableId → TableInfo} {j : Pair} {t : TableId} {r : RowId} {row row' : Row}

theorem mem_rowsFor {s : Staging} : r ∈ s.rowsFor t ↔ (t,r) ∈ s.inserts := by
  simp [rowsFor]

section

variable (h : Sim cat j)
include h

/-- Updates are kept for stored rows only, outside the key. -/
theorem find_eq_none (c : ℕ) (hrow : ∀ row, j.staged.rows r = some row →
    row.tbl = none ∨ c ∈ row.schema.keys) : findIn j.staging.updates r c = none := by
  cases hf : findIn j.staging.updates r c with
  | none => rfl
  | some v =>
    obtain ⟨z,hz,htbl,hkey,-⟩ := h.takes _ (mem_of_findIn hf)
    rcases hrow z hz with hno | hc
    · exact absurd hno htbl
    · exact absurd hc hkey

theorem keyOf_eq (hrow : j.direct.rows r = some row') : j.direct.keyOf r = j.staged.keyOf r := by
  obtain ⟨row,hs,⟨hschema,hvals⟩,-⟩ := h.rows r row' hrow
  rw [Db.keyOf,Db.keyOf,hrow,hs]
  simp only [map_some,getD_some,Row.key,hschema]
  refine map_congr_left fun c hc => ?_
  have hno : findIn j.staging.updates r c = none := by
    refine h.find_eq_none c fun z hz => .inr ?_
    rwa [← some.inj (hs.symm.trans hz)]
  rw [hvals c,hno,getD_none]

theorem fit_loose (hr : r ∈ j.staging.rowsFor t) : Fit (cat t) (j.staged.keyOf r) := by
  obtain ⟨row,hrow,htbl⟩ := h.staged.loose (t,r) (mem_rowsFor.mp hr)
  rw [Db.keyOf,hrow]
  exact (h.staged.home r row t hrow (.inr ⟨htbl,mem_rowsFor.mp hr⟩)).2.2

theorem searchable {ks : List (List Value)} (hks : ∀ k ∈ ks, Fit (cat t) k) :
    j.staging.Searchable j.staged t ks := by
  intro k hk
  rcases mem_append.mp hk with hk | hk
  · exact (hks k hk).ordered
  · obtain ⟨r,hr,rfl⟩ := mem_map.mp hk
    exact (h.fit_loose hr).ordered

/-- What is staged for the stored rows is in order as long as these rows stay. -/
theorem of_stored {s : Db}
    (hs : ∀ x z, j.staged.rows x = some z → z.tbl ≠ none → s.rows x = some z) :
    (∀ u ∈ j.staging.updates, s.Takes u) ∧
      (∀ p ∈ j.staging.removes, ∃ row, s.rows p.2 = some row ∧ row.tbl = some p.1) ∧
      ∀ r row, j.initial.rows r = some row → row.tbl ≠ none ∧ s.rows r = some row := by
  refine ⟨fun u hu => ?_,fun p hp => ?_,fun r row hrow => ?_⟩
  · obtain ⟨z,hz,hzt,hrest⟩ := h.takes u hu
    exact ⟨z,hs _ z hz hzt,hzt,hrest⟩
  · obtain ⟨z,hz,hzt⟩ := h.removes p hp
    exact ⟨z,hs _ z hz (by rw [hzt]; simp),hzt⟩
  · obtain ⟨htbl,hrow⟩ := h.kept r row hrow
    exact ⟨htbl,hs r row hrow htbl⟩

theorem stored_or_staged (hrow : j.direct.rows r = some row') (htbl : row'.tbl = some t) :
    (r ∈ j.staged.ids t ∧ (t,r) ∉ j.staging.removes) ∨ (t,r) ∈ j.staging.inserts := by
  have hmem := (h.ids t).mem_iff.mp (h.direct.stored r row' t hrow htbl)
  rcases mem_append.mp hmem with hmem | hmem
  · obtain ⟨hr,hrem⟩ := mem_filter.mp hmem
    exact .inl ⟨hr,of_decide_eq_true hrem⟩
  · exact .inr (mem_rowsFor.mp hmem)

end

end Sim

/-! The steps of a program. -/

section Merge

variable {removed : RowId → Bool}

theorem Staging.merged_perm (n : ℕ) (cursor inserts : List RowId)
    (hn : cursor.length+inserts.length ≤ n) :
    (merged removed n cursor inserts).Perm ((cursor.filter fun r => !removed r)++inserts) := by
  induction n generalizing cursor inserts with
  | zero =>
    have hc : cursor = [] := length_eq_zero_iff.mp (by omega)
    have hi : inserts = [] := length_eq_zero_iff.mp (by omega)
    subst hc hi
    exact List.Perm.refl _
  | succ n ih =>
    cases cursor with
    | nil =>
      cases inserts with
      | nil => exact List.Perm.refl _
      | cons i inserts =>
        exact (ih [] inserts (by simpa using hn)).cons i
    | cons r cursor =>
      rw [length_cons] at hn
      by_cases hr : removed r = true
      · have hskip : merged removed (n+1) (r::cursor) inserts = merged removed n cursor inserts := by
          cases inserts <;> simp [merged,hr]
        rw [hskip,filter_cons_of_neg (by simp [hr])]
        exact ih cursor inserts (by omega)
      · cases inserts with
        | nil =>
          rw [merged,if_neg hr,filter_cons_of_pos (by simp [hr])]
          exact (ih cursor [] (by omega)).cons r
        | cons i inserts =>
          rw [merged,if_neg hr]
          split_ifs with hlt
          · rw [filter_cons_of_pos (by simp [hr])]
            exact (ih cursor (i::inserts) (by omega)).cons r
          · refine ((ih (r::cursor) inserts (by
              rw [length_cons] at hn ⊢
              omega)).cons i).trans ?_
            exact perm_middle.symm

theorem Staging.query_eq {cat : TableId → TableInfo} {s : Staging} {db : Db} {t : TableId}
    {q : Query} {cursor : List RowId} (hs : s.Searchable db t q.keys)
    (hc : db.query cat t q = some cursor) :
    s.query cat db t q = some (merged (fun r => (t,r) ∈ s.removes)
      (cursor.length+((s.rowsFor t).filter fun r => q.selects (db.keyOf r)).length) cursor
      ((s.rowsFor t).filter fun r => q.selects (db.keyOf r))) := by
  rw [query,if_neg (not_not_intro hs),hc,map_some]

end Merge

theorem Row.Typed.key_kinds {row : Row} (h : row.Typed) {k : List Value}
    (hk : k.map (fun v => some v.kind) = row.schema.keyKinds) :
    row.key.map Value.kind = k.map Value.kind := by
  have hsome : row.key.map (fun v => some v.kind) = row.schema.keyKinds := by
    unfold Row.key Schema.keyKinds
    rw [List.map_map]
    refine map_congr_left fun c hc => ?_
    have hmem : (row.schema.columns[c]?).map Column.kind ∈ k.map (fun v => some v.kind) :=
      hk ▸ mem_map_of_mem hc
    obtain ⟨v,-,hv⟩ := mem_map.mp hmem
    obtain ⟨col,hcol,-⟩ := map_eq_some_iff.mp hv.symm
    rw [hcol,map_some,comp_apply]
    exact congrArg some (h (col,c) (mem_zipIdx_iff_getElem?.mpr hcol))
  have hmap : (row.key.map Value.kind).map some = (k.map Value.kind).map some := by
    rw [List.map_map,List.map_map]
    exact hsome.trans hk.symm
  exact map_injective_iff.mpr (some_injective _) hmap

theorem Query.selectsIn_eq {info : TableInfo} {q : Query} {x : List Value} (hx : Fit info x)
    (hq : ∀ k ∈ q.keys, Fit info k) (hkind : ∀ k ∈ q.keys, x.map Value.kind = k.map Value.kind) :
    q.selectsIn info.kind x = q.selects x := by
  obtain ⟨kind,schema⟩ := info
  cases kind with
  | sorted => cases q <;> rfl
  | unsorted =>
    cases q with
    | key k =>
      have hmem : k ∈ (Query.key k).keys := mem_singleton_self k
      have hiff : x = k ↔ keyLt x k = false ∧ keyLt k x = false := by
        rw [← compareKey_eq_iff]
        constructor
        · rintro rfl
          exact compareKey_self x
        · exact eq_of_compareKey (hkind k hmem) hx (hq k hmem)
      simp [selectsIn,selects,hiff]
    | _ => rfl

namespace Sim

variable {cat : TableId → TableInfo} {j : Pair} {t : TableId} {r : RowId} {row row' : Row}
variable {d : Db} {c : ℕ} {v : Value}

section

variable (h : Sim cat j)
include h

theorem readColumn_eq (hrow : j.direct.rows r = some row') (c : ℕ) :
    j.staging.readColumn j.staged r c = some (row'.values c) := by
  obtain ⟨row,hs,⟨-,hvals⟩,-⟩ := h.rows r row' hrow
  rw [readColumn,hs,map_some,hvals c]
  split_ifs with htbl
  · have hno : findIn j.staging.updates r c = none := by
      refine h.find_eq_none c fun z hz => .inl ?_
      rwa [← some.inj (hs.symm.trans hz)]
    rw [hno,getD_none]
  · rfl

theorem query_perm {q : Query} (hlegal : j.Legal cat (.query t q)) (hapt : j.Apt cat (.query t q)) :
    ∃ l l', j.direct.query cat t q = some l ∧ j.staging.query cat j.staged t q = some l' ∧
      l.Perm l' := by
  obtain ⟨hall,hkinds⟩ := hlegal
  have hsearch : j.staging.Searchable j.staged t q.keys := h.searchable hapt
  refine ⟨_,_,h.direct.query_eq hall hapt,query_eq hsearch (h.staged.query_eq hall hapt),?_⟩
  refine List.Perm.trans ?_ (Staging.merged_perm _ _ _ le_rfl).symm
  have hkey : ∀ x ∈ j.direct.ids t, j.direct.keyOf x = j.staged.keyOf x := by
    intro x hx
    obtain ⟨z,hz,-⟩ := h.direct.mem_ids.mp hx
    exact h.keyOf_eq hz
  have hsel : ∀ x ∈ j.staging.rowsFor t,
      q.selectsIn (cat t).kind (j.staged.keyOf x) = q.selects (j.staged.keyOf x) := by
    intro x hx
    refine Query.selectsIn_eq (h.fit_loose hx) hapt fun k hk => ?_
    obtain ⟨z,hz,htbl⟩ := h.staged.loose (t,x) (mem_rowsFor.mp hx)
    obtain ⟨hschema,htyped,-⟩ := h.staged.home x z t hz (.inr ⟨htbl,mem_rowsFor.mp hx⟩)
    rw [Db.keyOf,hz]
    exact htyped.key_kinds (hschema ▸ hkinds k hk)
  rw [filter_congr fun x hx => congrArg _ (hkey x hx)]
  refine ((h.ids t).filter _).trans ?_
  rw [filter_append,filter_congr hsel,List.filter_filter,List.filter_filter]
  refine List.Perm.append_right _ (List.Perm.of_eq (filter_congr fun x _ => ?_))
  rw [Bool.and_comm]
  simp

theorem insertRow_step (hlegal : j.Legal cat (.insertRow t r row))
    (hapt : j.Apt cat (.insertRow t r row)) :
    ∃ d s, (j.direct.setRow r (some row)).insert cat t r = some d ∧
      j.staging.insertRow j.staged t r row = some s ∧
      Sim cat {j with direct := d, staged := s.1, staging := s.2} := by
  obtain ⟨hd,hs,htbl,hschema,htyped⟩ := hlegal
  have hsearch : j.staging.Searchable j.staged t [row.key] :=
    h.searchable fun k hk => mem_singleton.mp hk ▸ hapt
  have hvd := h.direct.stage hd htbl hschema htyped hapt
  have hrow : (j.direct.setRow r (some row)).rows r = some row := update_self ..
  have hnrem : ∀ t', (t',r) ∉ j.staging.removes := by
    intro t' hmem
    obtain ⟨z,hz,-⟩ := h.removes _ hmem
    rw [hs] at hz
    cases hz
  have hnew : ∀ x z, j.staged.rows x = some z →
      x ≠ r ∧ (j.staged.setRow r (some row)).rows x = some z := by
    intro x z hz
    have hx : x ≠ r := by
      rintro rfl
      rw [hs] at hz
      cases hz
    exact ⟨hx,Db.setRow_rows_eq_some.mpr (.inr ⟨hx,hz⟩)⟩
  obtain ⟨htakes,hremoves,hkept⟩ := h.of_stored fun x z hz _ => (hnew x z hz).2
  refine ⟨_,_,hvd.insert_eq hrow,if_neg (by simp [htbl,hsearch]),?_⟩
  refine ⟨hvd.file hrow,?_,?_,?_,htakes,h.nodup,fun p hp => hremoves p (mem_of_mem_erase hp),
    h.nodupRemoves.erase _,h.tables,hkept⟩
  · exact (h.staged.stage hs htbl hschema htyped hapt).of_perm (perm_append_singleton _ _).symm
  · intro t'
    have hids := h.ids t'
    rw [erase_of_not_mem (hnrem t),Db.ids_setTable,Db.ids_setRow]
    by_cases ht : t' = t
    · subst ht
      simpa [rowsFor,Db.ids] using hids.append_right [r]
    · simpa [ht,rowsFor,Ne.symm ht] using hids
  · intro x z hz
    rcases Db.setRow_rows_eq_some.mp hz with ⟨rfl,heq⟩ | ⟨hx,hz⟩
    · cases heq
      refine ⟨row,Db.setRow_rows_eq_some.mpr (.inl ⟨rfl,rfl⟩),⟨rfl,fun c => ?_⟩,
        fun hne => absurd htbl hne⟩
      have hno := h.find_eq_none (r:=x) c fun z hz => by
        rw [hs] at hz
        cases hz
      rw [hno,getD_none]
    · rw [Db.setRow_rows,update_of_ne hx] at hz
      obtain ⟨y,hy,hshow,hsparse⟩ := h.rows x z hz
      exact ⟨y,(hnew x y hy).2,hshow,hsparse⟩

section

variable (hrow : j.direct.rows r = some row')
include hrow

theorem unstage (htbl : row'.tbl = some t)
    (hin : (t,r) ∈ j.staging.inserts) : Sim cat {j with
      direct := (j.direct.setRow r none).setTable t ((j.direct.tables t).eraseP fun e => e.row = r)
      staged := j.staged.setRow r none
      staging := {j.staging with
        updates := j.staging.updates.filter fun u => u.1 ≠ r
        inserts := j.staging.inserts.erase (t,r)}} := by
  obtain ⟨row,hs,hloose⟩ := h.staged.loose (t,r) hin
  have hne : ∀ x z, j.staged.rows x = some z → z.tbl ≠ none →
      (j.staged.setRow r none).rows x = some z := by
    intro x z hz hzt
    refine Db.setRow_rows_eq_some.mpr (.inr ⟨?_,hz⟩)
    rintro rfl
    rw [some.inj (hz.symm.trans hs)] at hzt
    exact hzt hloose
  obtain ⟨htakes,hremoves,hkept⟩ := h.of_stored hne
  refine ⟨?_,(h.staged.of_perm (perm_cons_erase hin)).free,?_,?_,
    fun u hu => htakes u (mem_of_mem_filter hu),(filter_sublist.map _).nodup h.nodup,
    hremoves,h.nodupRemoves,h.tables,hkept⟩
  · exact h.direct.forget hrow htbl
  · intro t'
    have hwait : (j.staging.rowsFor t').Perm
        ((((t,r)::j.staging.inserts.erase (t,r)).filter fun p => p.1 = t').map Prod.snd) :=
      ((perm_cons_erase hin).filter _).map Prod.snd
    have hids := (h.ids t').trans (append_left _ hwait)
    rw [Db.ids_setTable,Db.ids_setRow,map_eraseP_row]
    by_cases ht : t' = t
    · subst ht
      rw [if_pos rfl]
      refine cons_inv (a:=r) ?_
      refine (perm_cons_erase (h.direct.stored r row' t' hrow htbl)).symm.trans (hids.trans ?_)
      simp [rowsFor]
    · simpa [ht,Ne.symm ht,rowsFor] using hids
  · intro x z hz
    rcases Db.setRow_rows_eq_some.mp hz with ⟨-,heq⟩ | ⟨hx,hz⟩
    · cases heq
    · obtain ⟨y,hy,⟨hsy,hvy⟩,hsp⟩ := h.rows x z hz
      refine ⟨y,Db.setRow_rows_eq_some.mpr (.inr ⟨hx,hy⟩),⟨hsy,fun c => ?_⟩,hsp⟩
      rw [hvy c,findIn_filter hx]

theorem mark (htbl : row'.tbl = some t)
    (hin : (t,r) ∉ j.staging.inserts) : Sim cat {j with
      direct := (j.direct.setRow r none).setTable t ((j.direct.tables t).eraseP fun e => e.row = r)
      staging := {j.staging with
        updates := j.staging.updates.filter fun u => u.1 ≠ r
        removes := j.staging.removes.insert (t,r)}} := by
  obtain ⟨hids,hrem⟩ := (h.stored_or_staged hrow htbl).resolve_right hin
  rw [insert_of_not_mem hrem]
  refine ⟨?_,h.staged,?_,?_,?_,?_,?_,nodup_cons.mpr ⟨hrem,h.nodupRemoves⟩,h.tables,h.kept⟩
  · exact h.direct.forget hrow htbl
  · intro t'
    rw [Db.ids_setTable,Db.ids_setRow,map_eraseP_row]
    by_cases ht : t' = t
    · subst ht
      have hmem : r ∈ (j.staged.ids t').filter fun r => (t',r) ∉ j.staging.removes :=
        mem_filter.mpr ⟨hids,decide_eq_true hrem⟩
      have hperm := (h.ids t').erase r
      rw [erase_append_left _ hmem,
        ((h.staged.nodup t').filter _).erase_eq_filter,List.filter_filter] at hperm
      rw [if_pos rfl]
      refine hperm.trans (append_right _ (of_eq (filter_congr ?_)))
      intro x _
      by_cases hx : x = r <;> simp [hx]
    · simpa [ht,rowsFor] using h.ids t'
  · intro x z hz
    rcases Db.setRow_rows_eq_some.mp hz with ⟨-,heq⟩ | ⟨hx,hz⟩
    · cases heq
    · obtain ⟨y,hy,⟨hsy,hvy⟩,hsp⟩ := h.rows x z hz
      refine ⟨y,hy,⟨hsy,fun c => ?_⟩,hsp⟩
      rw [hvy c,findIn_filter hx]
  · exact fun u hu => h.takes u (mem_of_mem_filter hu)
  · exact (filter_sublist.map _).nodup h.nodup
  · intro p hp
    rcases mem_cons.mp hp with rfl | hp
    · exact h.staged.mem_ids.mp hids
    · exact h.removes p hp

theorem removeRow_step (htbl : row'.tbl = some t) :
    ∃ d s, j.direct.remove cat t r true = some d ∧ j.staging.removeRow j.staged t r = some s ∧
      Sim cat {j with direct := d, staged := s.1, staging := s.2} := by
  have hkey : Fit (cat t) (j.staged.keyOf r) := by
    rw [← h.keyOf_eq hrow,Db.keyOf,hrow]
    exact (h.direct.home r row' t hrow (.inl htbl)).2.2
  have hsearch : j.staging.Searchable j.staged t [j.staged.keyOf r] :=
    h.searchable fun k hk => mem_singleton.mp hk ▸ hkey
  rw [h.direct.remove_eq hrow htbl,removeRow,if_neg (not_not_intro hsearch)]
  by_cases hin : (t,r) ∈ j.staging.inserts
  · exact ⟨_,_,rfl,if_pos hin,h.unstage hrow htbl hin⟩
  · exact ⟨_,_,rfl,if_neg hin,h.mark hrow htbl hin⟩

end

section

variable (hrow' : j.direct.rows r = some row')
include hrow'

theorem write_loose {s : Db}
    (hrow : j.staged.rows r = some row) (htbl : row.tbl = none) (hd : d.Valid cat [])
    (hs : s.Valid cat j.staging.inserts)
    (hdrows : d.rows = Function.update j.direct.rows r (some (row'.store c v)))
    (hsrows : s.rows = Function.update j.staged.rows r (some (row.store c v)))
    (hids : ∀ t, (d.ids t).Perm (j.direct.ids t)) (htables : s.tables = j.staged.tables) :
    Sim cat {j with direct := d, staged := s} := by
  have hne : ∀ x z, j.staged.rows x = some z → z.tbl ≠ none → s.rows x = some z := by
    intro x z hz hzt
    have hx : x ≠ r := by
      rintro rfl
      rw [some.inj (hz.symm.trans hrow)] at hzt
      exact hzt htbl
    rw [hsrows,update_of_ne hx,hz]
  obtain ⟨htakes,hremoves,hkept⟩ := h.of_stored hne
  refine ⟨hd,hs,?_,?_,htakes,h.nodup,hremoves,h.nodupRemoves,htables.trans h.tables,hkept⟩
  · intro t
    have hsids : s.ids t = j.staged.ids t := by rw [Db.ids,Db.ids,htables]
    rw [hsids]
    exact (hids t).trans (h.ids t)
  · intro x z hz
    rw [hdrows] at hz
    by_cases hx : x = r
    · subst hx
      rw [update_self,some.injEq] at hz
      subst hz
      obtain ⟨y,hy,⟨hsy,hvy⟩,-⟩ := h.rows x row' hrow'
      cases some.inj (hrow.symm.trans hy)
      refine ⟨row.store c v,by rw [hsrows,update_self],⟨hsy,fun c' => ?_⟩,
        fun hno => absurd htbl hno⟩
      have hno := h.find_eq_none (r:=x) c' fun z hz => .inl
        (by rwa [← some.inj (hrow.symm.trans hz)])
      have hval := hvy c'
      rw [hno,getD_none] at hval ⊢
      by_cases hc : c' = c <;> simp [Row.store,update,hc,hval]
    · rw [update_of_ne hx] at hz
      obtain ⟨y,hy,hrest⟩ := h.rows x z hz
      exact ⟨y,by rw [hsrows,update_of_ne hx,hy],hrest⟩

theorem write_stored {l : List (RowId × ℕ × Value)}
    (hd : d.Valid cat [])
    (hdrows : d.rows = Function.update j.direct.rows r (some (row'.store c v)))
    (hids : ∀ t, (d.ids t).Perm (j.direct.ids t))
    (hsparse : row'.schema.strKey = true → (row'.store c v).sparse = row'.sparse)
    (htakes : j.staged.Takes (r,c,v)) (hl : ∀ u ∈ l, u = (r,c,v) ∨ u ∈ j.staging.updates)
    (hfind : ∀ x c', findIn l x c' =
      if r = x ∧ c = c' then some v else findIn j.staging.updates x c')
    (hnodup : (l.map fun u => (u.1,u.2.1)).Nodup) :
    Sim cat {j with direct := d, staging := {j.staging with updates := l}} := by
  refine ⟨hd,h.staged,fun t => (hids t).trans (h.ids t),?_,?_,hnodup,h.removes,h.nodupRemoves,
    h.tables,h.kept⟩
  · intro x z hz
    rw [hdrows] at hz
    by_cases hx : x = r
    · subst hx
      rw [update_self,some.injEq] at hz
      subst hz
      obtain ⟨y,hy,⟨hsy,hvy⟩,hsp⟩ := h.rows x row' hrow'
      refine ⟨y,hy,⟨hsy,fun c' => ?_⟩,fun hno hstr => ?_⟩
      · rw [hfind]
        by_cases hc : c = c'
        · subst hc
          simp [Row.store]
        · simp [Row.store,update_of_ne (Ne.symm hc),hc,hvy c']
      · rw [hsparse (by rwa [hsy]),hsp hno hstr]
    · rw [update_of_ne hx] at hz
      obtain ⟨y,hy,⟨hsy,hvy⟩,hsp⟩ := h.rows x z hz
      refine ⟨y,hy,⟨hsy,fun c' => ?_⟩,hsp⟩
      rw [hfind,if_neg fun heq => hx heq.1.symm]
      exact hvy c'
  · intro u hu
    rcases hl u hu with rfl | hu
    · exact htakes
    · exact h.takes u hu

theorem writeColumn_step (hc : c ∉ row'.schema.keys)
    (hcol : ((row'.schema.columns[c]?).any fun col => v.kind = col.kind) = true)
    (hlen : row'.schema.strKey = true → row'.sparse = false → v.length = (row'.values c).length) :
    ∃ d s, j.direct.update cat r c v = some d ∧ j.staging.writeColumn cat j.staged r c v = some s ∧
      Sim cat {j with direct := d, staged := s.1, staging := s.2} := by
  have hsparse : row'.schema.strKey = true → (row'.store c v).sparse = row'.sparse :=
    fun hstr => Row.store_sparse (hlen hstr)
  obtain ⟨d,hd,hdrows,hids,-,hvalid⟩ := h.direct.update_spec hrow' hc hcol fun _ => hsparse
  obtain ⟨row,hrow,⟨hschema,hvals⟩,hsame⟩ := h.rows r row' hrow'
  rw [hd,writeColumn,hrow]
  dsimp only
  by_cases htbl : row.tbl = none
  · obtain ⟨s,hs,hsrows,-,htables,hsvalid⟩ := h.staged.update_spec hrow (hschema ▸ hc)
      (hschema ▸ hcol) fun hno => absurd htbl hno
    rw [if_pos htbl,hs]
    exact ⟨d,_,rfl,rfl,h.write_loose hrow' hrow htbl hvalid hsvalid hdrows hsrows hids
      (htables htbl)⟩
  rw [if_neg htbl]
  have htakes : j.staged.Takes (r,c,v) := by
    refine ⟨row,hrow,htbl,hschema ▸ hc,hschema ▸ hcol,fun hstr hs => ?_⟩
    have hv := hlen (by rwa [hschema]) (by rw [hsame htbl hstr,hs])
    rw [hv,hvals c]
    cases hf : findIn j.staging.updates r c with
    | none => rfl
    | some w =>
      obtain ⟨z,hz,-,-,-,hw⟩ := h.takes _ (mem_of_findIn hf)
      cases some.inj (hrow.symm.trans hz)
      exact hw hstr hs
  by_cases hf : (j.staging.find r c).isSome = true
  · rw [if_pos hf]
    refine ⟨d,_,rfl,rfl,h.write_stored hrow' hvalid hdrows hids hsparse htakes ?_ ?_ ?_⟩
    · intro u hu
      obtain ⟨w,hw,rfl⟩ := mem_map.mp hu
      split_ifs
      · exact .inl rfl
      · exact .inr hw
    · intro x c'
      obtain ⟨w,hw⟩ := isSome_iff_exists.mp hf
      have hw' : findIn j.staging.updates r c = some w := hw
      rw [findIn_replace,hw',map_some]
    · rw [List.map_map]
      refine (map_congr_left fun u _ => ?_) ▸ h.nodup
      simp only [comp_apply]
      split_ifs with hu
      · rw [hu.1,hu.2]
      · rfl
  · rw [if_neg hf]
    have hno : findIn j.staging.updates r c = none := not_isSome_iff_eq_none.mp hf
    refine ⟨d,_,rfl,rfl,h.write_stored hrow' hvalid hdrows hids hsparse htakes ?_
      (findIn_append hno) ?_⟩
    · intro u hu
      rcases mem_append.mp hu with hu | hu
      · exact .inr hu
      · exact .inl (mem_singleton.mp hu)
    · rw [map_append,map_singleton]
      refine List.Nodup.append h.nodup (nodup_singleton _) ?_
      rw [disjoint_singleton]
      intro hmem
      obtain ⟨u,hu,heq⟩ := mem_map.mp hmem
      have hu' := find?_eq_none.mp (map_eq_none_iff.mp hno) u hu
      exact hu' (by simpa using heq)

end

/-- A commit leaves the rows and the values of the direct transaction. -/
theorem commit_spec : ∃ s, j.staging.commit cat j.staged = some s ∧
      ∀ t, (s.ids t).Perm (j.direct.ids t) ∧
        ∀ r ∈ s.ids t, ∃ row row', s.rows r = some row ∧ j.direct.rows r = some row' ∧
          row.schema = row'.schema ∧ row.values = row'.values := by
  obtain ⟨db₁,hdb₁,hvalid₁,hids₁,hrows₁⟩ := h.staged.insertAll_spec
  have hstored₁ : ∀ r row, j.staged.rows r = some row → row.tbl ≠ none → db₁.rows r = some row := by
    intro r row hrow htbl
    obtain ⟨row₁,hrow₁,-,-,hsame⟩ := hrows₁ r row hrow
    rw [hrow₁,hsame htbl]
  have htakes₁ : ∀ u ∈ j.staging.updates, db₁.Takes u := by
    intro u hu
    obtain ⟨z,hz,hzt,hrest⟩ := h.takes u hu
    exact ⟨z,hstored₁ _ z hz hzt,hzt,hrest⟩
  obtain ⟨db₂,hdb₂,hvalid₂,hids₂,hrows₂⟩ := hvalid₁.updateAll_spec h.nodup htakes₁
  have hremoves₂ : ∀ p ∈ j.staging.removes, ∃ row, db₂.rows p.2 = some row ∧
      row.tbl = some p.1 := by
    intro p hp
    obtain ⟨z,hz,hzt⟩ := h.removes p hp
    obtain ⟨z₂,hz₂,ht₂,-⟩ := hrows₂ _ z (hstored₁ _ z hz (by rw [hzt]; simp))
    exact ⟨z₂,hz₂,ht₂.trans hzt⟩
  obtain ⟨db₃,hdb₃,hids₃,hrows₃⟩ := hvalid₂.removeAll_spec h.nodupRemoves hremoves₂
  refine ⟨db₃.freeAll (j.staging.removes.map Prod.snd),?_,fun t => ?_⟩
  · rw [commit,hdb₁,bind_some,hdb₂,bind_some,hdb₃,map_some]
  have hperm : (db₃.ids t).Perm (j.direct.ids t) := by
    have hwait : (j.staging.rowsFor t).filter (fun r => (t,r) ∉ j.staging.removes) =
        j.staging.rowsFor t := by
      refine filter_eq_self.mpr fun r hr => decide_eq_true fun hrem => ?_
      obtain ⟨z,hz,hzt⟩ := h.staged.loose (t,r) (mem_rowsFor.mp hr)
      obtain ⟨y,hy,hyt⟩ := h.removes _ hrem
      rw [← some.inj (hz.symm.trans hy),hzt] at hyt
      cases hyt
    have hids : db₁.ids t = j.staged.ids t++j.staging.rowsFor t := hids₁ t
    rw [hids₃]
    refine ((hids₂ t).filter _).trans ?_
    rw [hids,filter_append,hwait]
    exact (h.ids t).symm
  rw [Db.ids_freeAll]
  refine ⟨hperm,fun r hr => ?_⟩
  obtain ⟨row',hrow',-⟩ := h.direct.mem_ids.mp (hperm.mem_iff.mp hr)
  obtain ⟨row,hrow,⟨hschema,hvals⟩,-⟩ := h.rows r row' hrow'
  obtain ⟨row₁,hrow₁,hschema₁,hvals₁,-⟩ := hrows₁ r row hrow
  obtain ⟨row₂,hrow₂,-,hschema₂,hvals₂⟩ := hrows₂ r row₁ hrow₁
  have hnrem : ∀ t', (t',r) ∉ j.staging.removes := by
    intro t' hrem
    rw [hids₃] at hr
    obtain ⟨hr,hnot⟩ := mem_filter.mp hr
    obtain ⟨z,hz,hzt⟩ := hremoves₂ _ hrem
    obtain ⟨y,hy,hyt⟩ := hvalid₂.mem_ids.mp hr
    rw [← some.inj (hz.symm.trans hy),hzt,some.injEq] at hyt
    exact of_decide_eq_true hnot (hyt ▸ hrem)
  have hnfree : r ∉ j.staging.removes.map Prod.snd := by
    intro hmem
    obtain ⟨p,hp,rfl⟩ := mem_map.mp hmem
    exact hnrem p.1 hp
  refine ⟨row₂,row',?_,hrow',by rw [hschema₂,hschema₁,hschema],?_⟩
  · rw [Db.freeAll_rows hnfree,hrows₃ r hnrem,hrow₂]
  · funext c
    rw [hvals₂ c,hvals c,hvals₁]

theorem step {op : Op} (hlegal : j.Legal cat op) (hapt : j.Apt cat op) :
    ∃ d s out, Memdb.direct cat j.direct op = some (d,out) ∧
      Memdb.staged cat j.staged j.staging op = some (s,out) ∧
      Sim cat {j with direct := d, staged := s.1, staging := s.2} := by
  cases op with
  | readColumn r c =>
    obtain ⟨row',hrow'⟩ := isSome_iff_exists.mp hlegal
    refine ⟨j.direct,(j.staged,j.staging),.value (row'.values c),?_,?_,h⟩
    · rw [Memdb.direct,hrow',map_some]
    · rw [Memdb.staged,h.readColumn_eq hrow',map_some]
  | writeColumn r c v =>
    cases hrow' : j.direct.rows r with
    | none => simp only [Pair.Legal,hrow'] at hlegal
    | some row' =>
      simp only [Pair.Legal,Pair.Apt,hrow'] at hlegal hapt
      obtain ⟨d,s,hd,hs,hsim⟩ := h.writeColumn_step hrow' hlegal.1 hlegal.2 hapt
      exact ⟨d,s,.done,by rw [Memdb.direct,hd,map_some],by rw [Memdb.staged,hs,map_some],hsim⟩
  | insertRow t r row =>
    obtain ⟨d,s,hd,hs,hsim⟩ := h.insertRow_step hlegal hapt
    exact ⟨d,s,.done,by rw [Memdb.direct,hd,map_some],by rw [Memdb.staged,hs,map_some],hsim⟩
  | removeRow t r =>
    cases hrow' : j.direct.rows r with
    | none => simp only [Pair.Legal,hrow'] at hlegal
    | some row' =>
      simp only [Pair.Legal,hrow'] at hlegal
      obtain ⟨d,s,hd,hs,hsim⟩ := h.removeRow_step hrow' hlegal
      exact ⟨d,s,.done,by rw [Memdb.direct,hd,map_some],by rw [Memdb.staged,hs,map_some],hsim⟩
  | query t q =>
    obtain ⟨l,l',hd,hs,hperm⟩ := h.query_perm hlegal hapt
    refine ⟨j.direct,(j.staged,j.staging),.rows l,?_,?_,h⟩
    · rw [Memdb.direct,hd,map_some]
    · rw [Memdb.staged,hs,map_some,Multiset.coe_eq_coe.mpr hperm]

end

theorem init (h : (pairSystem cat).init j) : Sim cat j := by
  obtain ⟨initial,direct,staged,staging⟩ := j
  obtain ⟨hd,hs,hst,hvalid⟩ := h
  dsimp only at hd hs hst hvalid
  subst hd hs hst
  refine ⟨hvalid,hvalid,fun t => ?_,fun r row hrow => ⟨row,hrow,⟨rfl,fun c => rfl⟩,fun _ _ => rfl⟩,
    by simp,by simp,by simp,by simp,rfl,fun r row hrow => ⟨fun htbl => ?_,hrow⟩⟩
  · simp [rowsFor]
  · obtain ⟨t,ht⟩ := hvalid.unfiled r row hrow htbl
    cases ht

theorem reachable (h : ReachableBy (pairSystem cat) (fun j op => j.Apt cat op) j) : Sim cat j := by
  obtain ⟨j₀,hinit,hrun⟩ := h
  refine hrun.invariant (fun j op j' hapt hsim hstep => ?_) (Sim.init hinit)
  simp only [pairSystem] at hstep
  split_ifs at hstep with hlegal
  obtain ⟨d,s,out,hd,hs,hsim'⟩ := hsim.step hlegal hapt
  rw [Pair.step,hd,bind_some,hs,map_some,some.injEq] at hstep
  exact hstep ▸ hsim'

end Sim

/-- A program that leaves the keys of the tables in place, with keys that compare alike in all
containers, sees the same through a staged as through a direct transaction; the tables are the same
after its commit, and as before after its abort. -/
theorem staged_refines_direct (cat : TableId → TableInfo) (j : Pair)
    (h : ReachableBy (pairSystem cat) (fun j op => j.Apt cat op) j) :
    (∀ op, j.Legal cat op → j.Apt cat op → ∃ d s out, direct cat j.direct op = some (d,out) ∧
        staged cat j.staged j.staging op = some (s,out)) ∧
      (∃ s, j.staging.commit cat j.staged = some s ∧ ∀ t, (s.ids t).Perm (j.direct.ids t) ∧
          ∀ r ∈ s.ids t, ∃ row row', s.rows r = some row ∧ j.direct.rows r = some row' ∧
            row.schema = row'.schema ∧ row.values = row'.values) ∧
      (j.staging.abort j.staged).tables = j.initial.tables ∧
        ∀ r row, j.initial.rows r = some row → (j.staging.abort j.staged).rows r = some row := by
  have hsim := Sim.reachable h
  refine ⟨fun op hlegal hapt => ?_,hsim.commit_spec,hsim.tables,
    fun r row hrow => (hsim.kept r row hrow).2⟩
  obtain ⟨d,s,out,hd,hs,-⟩ := hsim.step hlegal hapt
  exact ⟨d,s,out,hd,hs⟩

def Db.empty : Db := ⟨fun _ => none,fun _ => []⟩

theorem Db.empty_valid (cat : TableId → TableInfo) : Db.empty.Valid cat [] := by
  constructor <;> simp [Db.empty,Db.ids]

def fresh : Pair := ⟨Db.empty,Db.empty,Db.empty,{}⟩

theorem fresh_init (cat : TableId → TableInfo) : (pairSystem cat).init fresh :=
  ⟨rfl,rfl,rfl,Db.empty_valid cat⟩

/-- Table 0 is sorted by a string, table 1 is unsorted and has a double as its key. Both
have a string beside the key. -/
def twoTables : TableId → TableInfo
  | 0 => ⟨.sorted,⟨[⟨.STR,true⟩,⟨.STR,false⟩],[0]⟩⟩
  | _ => ⟨.unsorted,⟨[⟨.DOUBLE,true⟩,⟨.STR,false⟩],[0]⟩⟩

def rowOf (t : TableId) (k : Value) : Row :=
  ⟨(twoTables t).schema,fun c => if c = 0 then k else .str [120#8],false,none⟩

def keyA : Value := .str [97#8]

/-- Two rows with one key; one is written and then removed, the other is written. -/
def equalKeys : Pair :=
  after (pairSystem twoTables) (fun j op => j.Apt twoTables op) fresh
    [.insertRow 0 0 (rowOf 0 keyA),.insertRow 0 1 (rowOf 0 keyA),.writeColumn 0 1 (.str [121#8]),
      .removeRow 0 0,.writeColumn 1 1 (.str [122#8])]

theorem staged_refines_direct_equalKeys : equalKeys.direct.ids 0 = [1] ∧ ∃ d s out,
      direct twoTables equalKeys.direct (.query 0 (.key [keyA])) = some (d,out) ∧
        staged twoTables equalKeys.staged equalKeys.staging (.query 0 (.key [keyA])) =
          some (s,out) :=
  ⟨by decide +kernel,(staged_refines_direct twoTables equalKeys
    ⟨_,fresh_init _,run_after _ _⟩).1 (.query 0 (.key [keyA])) (by decide +kernel)
    (by decide +kernel)⟩

def longer : Pair :=
  after (pairSystem twoTables) (fun _ _ => True) fresh
    [.insertRow 0 0 (rowOf 0 keyA),.writeColumn 0 1 (.str [121#8,121#8])]

def negative : Pair :=
  after (pairSystem twoTables) (fun _ _ => True) fresh
    [.insertRow 1 0 (rowOf 1 (.double Double.negZero))]

/-- After the longer string the key of the direct table points to freed memory, so that only the
staged search has a result. A query for zero finds a staged row with negative zero, but none in the
unsorted table. -/
theorem queries_differ : (Reachable (pairSystem twoTables) longer ∧
      longer.Legal twoTables (.query 0 (.key [keyA])) ∧
      direct twoTables longer.direct (.query 0 (.key [keyA])) = none ∧
      (staged twoTables longer.staged longer.staging (.query 0 (.key [keyA]))).map Prod.snd =
        some (.rows {0})) ∧
    Reachable (pairSystem twoTables) negative ∧
      negative.Legal twoTables (.query 1 (.key [.double 0#64])) ∧
      (direct twoTables negative.direct (.query 1 (.key [.double 0#64]))).map Prod.snd =
        some (.rows 0) ∧
      (staged twoTables negative.staged negative.staging (.query 1 (.key [.double 0#64]))).map
        Prod.snd = some (.rows {0}) := by
  refine ⟨⟨⟨_,fresh_init _,run_after _ _⟩,by decide +kernel,?_,by decide +kernel⟩,
    ⟨_,fresh_init _,run_after _ _⟩,by decide +kernel,by decide +kernel,by decide +kernel⟩
  refine map_eq_none_iff.mp (?_ : Option.map Prod.snd _ = none)
  decide +kernel

end Janus.Memdb
