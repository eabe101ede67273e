import Janus.IndexedTable

/-! The indices of an `IndexedTable` stay coherent under the operations that neither copy a
row into the table, nor clear it, nor remove rows in a commit, nor move a string key under
its entry, nor bring NaN into a key. -/
namespace Janus.Memdb

open Transition Function List List.Perm IndexRow List.Pairwise
open Option (bind_some map_some getD_some)
open SparseInt (Byte)

section Lists

variable {e : IndexRow} {l : List IndexRow} {l' : List IndexRow}

theorem insertSorted_perm (e : IndexRow) (l : List IndexRow) : (insertSorted e l).Perm (e::l) := by
  induction l with
  | nil => exact List.Perm.refl _
  | cons x l ih =>
    rw [insertSorted]
    split_ifs
    · exact List.Perm.refl _
    · exact (ih.cons x).trans (swap e x l)

def SortedIndex (l : List IndexRow) : Prop := Multimap.Sorted (fun e => keyRank e.key) l

theorem SortedIndex.insert (h : SortedIndex l) (he : keyOrdered e.key = true)
    (hl : ∀ x ∈ l, e.key.map Value.kind = x.key.map Value.kind ∧ keyOrdered x.key = true) :
    SortedIndex (insertSorted e l) := by
  have heq : insertSorted e l = Multimap.insert (fun e => keyRank e.key) e l := by
    clear h
    induction l with
    | nil => rfl
    | cons x l ih =>
      obtain ⟨hkind,hx⟩ := hl x mem_cons_self
      rw [insertSorted,Multimap.insert,ih fun y hy => hl y (mem_cons_of_mem x hy)]
      by_cases hlt : keyLt e.key x.key = true
      · rw [if_pos hlt,if_pos ((keyLt_iff hkind he hx).mp hlt)]
      · rw [if_neg hlt,if_neg fun h => hlt ((keyLt_iff hkind he hx).mpr h)]
  rw [heq]
  exact Multimap.Sorted.insert h e

theorem SortedIndex.sublist (h : SortedIndex l) (hl : l'.Sublist l) :
    SortedIndex l' := List.Pairwise.sublist hl h

theorem eraseP_hit_perm (hl : l.Perm (e::l'))
    (hnd : (l.map IndexRow.master).Nodup) : (l.eraseP e.hit).Perm l' := by
  have hmem : e ∈ l := hl.mem_iff.mpr mem_cons_self
  have hhit : ∀ x ∈ l, e.hit x = (e == x) := by
    intro x hx
    by_cases hxe : e = x
    · subst hxe
      simp [hit,compareKey_self]
    · have hm : x.master ≠ e.master := fun hm =>
        hxe (inj_on_of_nodup_map hnd hmem hx hm.symm)
      simp [hit,hm,hxe]
  have herase : l.eraseP e.hit = l.erase e := by
    rw [erase_eq_eraseP]
    clear hl hnd hmem
    induction l with
    | nil => rfl
    | cons x l ih =>
      rw [eraseP_cons,eraseP_cons,hhit x mem_cons_self,
        ih fun y hy => hhit y (mem_cons_of_mem x hy)]
  rw [herase]
  exact (hl.erase e).trans (by rw [erase_cons_head])

theorem mapM_eq_map {α β : Type*} {f : α → Option β} {g : α → β} {l : List α}
    (h : ∀ a ∈ l, f a = some (g a)) : l.mapM f = some (l.map g) := by
  induction l with
  | nil => rfl
  | cons a l ih =>
    rw [mapM_cons,h a mem_cons_self,ih fun b hb => h b (mem_cons_of_mem a hb)]
    rfl

end Lists

theorem Db.Valid.exchange {cat : TableId → TableInfo} {db : Db} {L : List (TableId × RowId)}
    {t : TableId} {r : RowId} {row : Row} (h : db.Valid cat L) (row' : Row)
    (hrow : db.rows r = some row) (htbl : row.tbl = some t) (htbl' : row'.tbl = none)
    (hschema : row'.schema = (cat t).schema) (htyped : row'.Typed) (hfit : Fit (cat t) row'.key) :
    ∃ db', (((db.setRow r (some {row with tbl := none})).setTable t
        ((db.tables t).eraseP fun e => e.row = r)).setRow r (some row')).insert cat t r = some db' ∧
      db'.Valid cat L ∧
      db'.rows = Function.update db.rows r (some {row' with tbl := some t}) ∧
      db'.ids t = (db.ids t).erase r++[r] := by
  have hfree := (h.unfile hrow htbl).free
  have hstage := hfree.stage (update_self ..) htbl' hschema htyped hfit
  rw [Db.setRow_setRow] at hstage
  refine ⟨_,hstage.insert_eq (update_self ..),hstage.file (update_self ..),?_,?_⟩
  · simp
  · rw [Db.ids_setTable,if_pos rfl,map_append]
    simp only [Db.setRow_tables,Db.setTable_tables,update_self,map_eraseP_row]
    rfl

namespace IndexedTable

section Rows

variable {S : IndexedSchema} {s : IndexedTable} {r : RowId} {m : MasterId} {M : Master} {row : Row}
variable {is : List ℕ}

@[simp] theorem setMaster_db (x : Option Master) : (s.setMaster m x).db = s.db := rfl

@[simp] theorem setMaster_index (x : Option Master) : (s.setMaster m x).index = s.index := rfl

@[simp] theorem setMaster_masters (x : Option Master) :
    (s.setMaster m x).masters = Function.update s.masters m x := rfl

theorem dropIndexRows_eq (hnd : is.Nodup) (hm : s.masters m = some M)
    (h : ∀ i ∈ is, ∃ key, M.slots i = some key ∧ s.Searchable i [key]) :
    dropIndexRows m is s = some {s with
      masters := Function.update s.masters m
        (some {M with slots := fun i => if i ∈ is then none else M.slots i})
      index := fun i => if i ∈ is then
        (s.index i).eraseP (IndexRow.hit ⟨(M.slots i).getD [],m⟩) else s.index i} := by
  induction is generalizing s M with
  | nil => simp [dropIndexRows,← hm]
  | cons i is ih =>
    rw [nodup_cons] at hnd
    obtain ⟨key,hkey,hsearch⟩ := h i mem_cons_self
    rw [dropIndexRows,dropIndexRow,hm]
    simp only [hkey,hsearch,not_true_eq_false,if_false,bind_some]
    have hne : ∀ j ∈ is, j ≠ i := fun j hj hji => hnd.1 (hji ▸ hj)
    rw [ih hnd.2 (M:={M with slots := Function.update M.slots i none})
      (by simp [setIndex,setMaster])]
    · simp only [setIndex,setMaster,update_idem,Option.some.injEq,mk.injEq,true_and]
      refine ⟨?_,?_⟩
      · congr 3
        funext j
        by_cases hji : j = i
        · subst hji
          simp
        · simp [hji]
      · funext j
        by_cases hji : j = i
        · subst hji
          simp [hnd.1,hkey]
        · simp [hji]
    · intro j hj
      obtain ⟨k,hk,hs⟩ := h j (mem_cons_of_mem i hj)
      refine ⟨k,by simpa [hne j hj] using hk,?_⟩
      simpa [Searchable,setIndex,hne j hj] using hs

theorem addIndexRows_eq (hnd : is.Nodup) (hrow : s.db.rows r = some row) (hm : s.masters m = some M)
    (h : ∀ i ∈ is, M.slots i = none ∧ s.Searchable i [(S.getIndex i).map row.values]) :
    addIndexRows S r m is s = some {s with
      masters := Function.update s.masters m (some {M with
        slots := fun i => if i ∈ is then some ((S.getIndex i).map row.values) else M.slots i})
      index := fun i => if i ∈ is then
        insertSorted ⟨(S.getIndex i).map row.values,m⟩ (s.index i) else s.index i} := by
  induction is generalizing s M with
  | nil => simp [addIndexRows,← hm]
  | cons i is ih =>
    rw [nodup_cons] at hnd
    obtain ⟨hslot,hsearch⟩ := h i mem_cons_self
    rw [addIndexRows,addIndexRow,hrow,hm]
    simp only [hslot,hsearch,ne_eq,not_true_eq_false,or_self,if_false,bind_some]
    have hne : ∀ j ∈ is, j ≠ i := fun j hj hji => hnd.1 (hji ▸ hj)
    rw [ih hnd.2 (M:={M with
      slots := Function.update M.slots i (some ((S.getIndex i).map row.values))})
      (by exact hrow) (by simp [setIndex,setMaster])]
    · simp only [setIndex,setMaster,update_idem,Option.some.injEq,mk.injEq,true_and]
      refine ⟨?_,?_⟩
      · congr 3
        funext j
        by_cases hji : j = i
        · subst hji
          simp
        · simp [hji]
      · funext j
        by_cases hji : j = i
        · subst hji
          simp [hnd.1]
        · simp [hji]
    · intro j hj
      obtain ⟨hk,hs⟩ := h j (mem_cons_of_mem i hj)
      refine ⟨by simpa [hne j hj] using hk,?_⟩
      simpa [Searchable,setIndex,hne j hj] using hs

end Rows

variable {S : IndexedSchema} {s : IndexedTable} {r : RowId} {m : MasterId} {M : Master} {row : Row}
variable {i : ℕ}
variable {c : ℕ} {s' : IndexedTable}

variable (S) in
def entry (s : IndexedTable) (i : ℕ) (r : RowId) : IndexRow :=
  ⟨s.indexKey S i r,(s.hidden r).getD 0⟩

variable (S) in
structure Linked (s : IndexedTable) (r : RowId) (m : MasterId) (M : Master) : Prop where
  hidden : s.hidden r = some m
  master : s.masters m = some M
  back : M.back = r
  slots : ∀ i < S.indices.length, M.slots i = some (s.indexKey S i r)

variable (S) in
structure Inv (s : IndexedTable) : Prop where
  valid : s.db.Valid S.catalog []
  linked : ∀ r ∈ s.db.ids 0, ∃ m M, s.Linked S r m M
  fine : ∀ r ∈ s.db.ids 0, ∀ row, s.db.rows r = some row → Fine S row
  index : ∀ i < S.indices.length, (s.index i).Perm ((s.db.ids 0).map (s.entry S i))
  sorted : ∀ i < S.indices.length, SortedIndex (s.index i)

theorem indexKey_eq (hrow : s.db.rows r = some row) (i : ℕ) :
    s.indexKey S i r = (S.getIndex i).map row.values := by
  rw [indexKey,hrow,map_some,getD_some]

theorem columns_schema (c : ℕ) :
    S.schema.columns[c]? = (S.columns[c]?).map fun kind => ⟨kind,S.indexed c⟩ := by
  simp only [IndexedSchema.schema,getElem?_map,getElem?_zipIdx,Option.map_map]
  cases S.columns[c]? <;> simp

theorem kind_of_typed (htyped : row.Typed) (hschema : row.schema = S.schema) {kind : Kind}
    (hc : S.columns[c]? = some kind) : (row.values c).kind = kind := by
  refine htyped (⟨kind,S.indexed c⟩,c) (mem_zipIdx_iff_getElem?.mpr ?_)
  rw [hschema,columns_schema,hc,map_some]

theorem lt_of_mem_getIndex (h : c ∈ S.getIndex i) : c < S.columns.length := by
  by_cases hi : i < S.indices.length
  · rw [IndexedSchema.getIndex,getD_eq_getElem _ _ hi] at h
    exact S.indices_lt _ (getElem_mem hi) c h
  · rw [IndexedSchema.getIndex,getD_eq_default _ _ (Nat.le_of_not_lt hi)] at h
    cases h

theorem indexed_of_mem_getIndex (h : c ∈ S.getIndex i) : S.indexed c = true := by
  have hi : i < S.indices.length := by
    by_contra hi
    rw [IndexedSchema.getIndex,getD_eq_default _ _ (Nat.le_of_not_lt hi)] at h
    cases h
  rw [IndexedSchema.getIndex,getD_eq_getElem _ _ hi] at h
  rw [IndexedSchema.indexed,Bool.or_eq_true,any_eq_true]
  exact .inr ⟨_,getElem_mem hi,decide_eq_true h⟩

theorem not_mem_keys (hc : S.indexed c = false) : c ∉ S.keys := fun hmem => by
  rw [IndexedSchema.indexed,decide_eq_true hmem,Bool.true_or] at hc
  cases hc

theorem key_ordered (hfine : Fine S row) (i : ℕ) :
    keyOrdered ((S.getIndex i).map row.values) = true := by
  rw [keyOrdered,all_map,all_eq_true]
  exact fun c hc => hfine c (mem_range.mpr (lt_of_mem_getIndex hc)) (indexed_of_mem_getIndex hc)

theorem index_kinds {row' : Row} (ht : row.Typed) (hs : row.schema = S.schema) (ht' : row'.Typed)
    (hs' : row'.schema = S.schema) (i : ℕ) :
    ((S.getIndex i).map row.values).map Value.kind =
      ((S.getIndex i).map row'.values).map Value.kind := by
  rw [map_map,map_map]
  refine map_congr_left fun c hc => ?_
  have hlt := lt_of_mem_getIndex hc
  have hget : S.columns[c]? = some S.columns[c] := getElem?_eq_getElem hlt
  exact (kind_of_typed ht hs hget).trans (kind_of_typed ht' hs' hget).symm

theorem primary_fit (hfine : Fine S row) (hschema : row.schema = S.schema) (t : TableId) :
    Fit (S.catalog t) row.key := by
  have hkey : row.key = S.keys.map row.values := by
    rw [Row.key,hschema]
    rfl
  have hord : keyOrdered row.key = true := by
    rw [hkey,keyOrdered,all_map,all_eq_true]
    refine fun c hc => hfine c (mem_range.mpr (S.keys_lt c hc)) ?_
    rw [IndexedSchema.indexed,decide_eq_true hc,Bool.true_or]
  exact hord

theorem indexKey_congr (h : s'.db.rows r = s.db.rows r) (i : ℕ) :
    s'.indexKey S i r = s.indexKey S i r := by
  rw [indexKey,indexKey,h]

theorem entry_congr (h : s'.db.rows r = s.db.rows r)
    (hhidden : s'.hidden r = s.hidden r) (i : ℕ) : s'.entry S i r = s.entry S i r := by
  rw [entry,entry,indexKey_congr h,hhidden]

theorem Linked.congr (hl : s.Linked S r m M)
    (h : s'.db.rows r = s.db.rows r) (hhidden : s'.hidden r = s.hidden r)
    (hmaster : s'.masters m = s.masters m) : s'.Linked S r m M :=
  ⟨hhidden.trans hl.hidden,hmaster.trans hl.master,hl.back,fun i hi => by
    rw [hl.slots i hi,indexKey_congr h]⟩

namespace Inv

theorem row_of_mem (h : s.Inv S) (hr : r ∈ s.db.ids 0) :
    ∃ row, s.db.rows r = some row ∧ row.tbl = some 0 ∧ row.schema = S.schema ∧ row.Typed ∧
      Fine S row := by
  obtain ⟨row,hrow,htbl⟩ := h.valid.mem_ids.mp hr
  obtain ⟨hschema,htyped,-⟩ := h.valid.home r row 0 hrow (.inl htbl)
  exact ⟨row,hrow,htbl,hschema,htyped,h.fine r hr row hrow⟩

theorem entry_eq (h : s.Linked S r m M) (i : ℕ) : s.entry S i r = ⟨s.indexKey S i r,m⟩ := by
  rw [entry,h.hidden,getD_some]

variable {i : ℕ} {e : IndexRow} {q : Query}

theorem of_mem_index (h : s.Inv S) (hi : i < S.indices.length) (he : e ∈ s.index i) :
    ∃ r m M, r ∈ s.db.ids 0 ∧ s.Linked S r m M ∧ e = ⟨s.indexKey S i r,m⟩ := by
  obtain ⟨r,hr,rfl⟩ := mem_map.mp ((h.index i hi).mem_iff.mp he)
  obtain ⟨m,M,hlink⟩ := h.linked r hr
  exact ⟨r,m,M,hr,hlink,entry_eq hlink i⟩

theorem index_key (h : s.Inv S) (hi : i < S.indices.length) (htyped : row.Typed)
    (hschema : row.schema = S.schema) (he : e ∈ s.index i) :
    ((S.getIndex i).map row.values).map Value.kind = e.key.map Value.kind ∧
      keyOrdered e.key = true := by
  obtain ⟨x,m,M,hx,hlink,rfl⟩ := h.of_mem_index hi he
  obtain ⟨z,hz,-,hzs,hzt,hzf⟩ := h.row_of_mem hx
  rw [indexKey_eq hz]
  exact ⟨index_kinds htyped hschema hzt hzs i,key_ordered hzf i⟩

theorem searchable (h : s.Inv S) (hi : i < S.indices.length) {ks : List (List Value)}
    (hks : ∀ k ∈ ks, keyOrdered k = true) : s.Searchable i ks := by
  intro k hk
  rcases mem_append.mp hk with hk | hk
  · exact hks k hk
  · obtain ⟨e,he,rfl⟩ := mem_map.mp hk
    obtain ⟨x,m,M,hx,hlink,rfl⟩ := h.of_mem_index hi he
    obtain ⟨z,hz,-,-,-,hzf⟩ := h.row_of_mem hx
    rw [indexKey_eq hz]
    exact key_ordered hzf i

theorem link_inj (h : s.Linked S r m M) {x : RowId} {M' : Master} (hx : s.Linked S x m M') :
    x = r := by
  rw [← hx.back,← h.back,Option.some.inj (hx.master.symm.trans h.master)]

section

variable (h : s.Inv S)
include h

theorem nodup_masters (hi : i < S.indices.length) :
    ((s.index i).map IndexRow.master).Nodup := by
  have hperm := (h.index i hi).map master
  rw [hperm.nodup_iff,map_map]
  refine List.Nodup.map_on ?_ (h.valid.nodup 0)
  intro x hx y hy hxy
  obtain ⟨m,M,hxl⟩ := h.linked x hx
  obtain ⟨m',M',hyl⟩ := h.linked y hy
  simp only [comp_apply,entry,hxl.hidden,hyl.hidden,getD_some] at hxy
  subst hxy
  exact link_inj hyl hxl

theorem index_split (hr : r ∈ s.db.ids 0) (hlink : s.Linked S r m M)
    (hi : i < S.indices.length) : (s.index i).Perm
      (⟨s.indexKey S i r,m⟩::((s.db.ids 0).erase r).map (s.entry S i)) := by
  rw [← entry_eq hlink]
  exact (h.index i hi).trans ((perm_cons_erase hr).map _)

theorem cursor_eq (hi : i < S.indices.length)
    (hq : q.allowed .sorted = true) (hks : ∀ k ∈ q.keys, keyOrdered k = true) :
    ∃ l, s.cursor i q = some l ∧ l.Nodup ∧
      l.Perm ((s.db.ids 0).filter fun r => q.selects (s.indexKey S i r)) ∧
      l.Pairwise fun a b => keyLt (s.indexKey S i b) (s.indexKey S i a) = false := by
  let back : IndexRow → RowId := fun e => ((s.masters e.master).map Master.back).getD 0
  have hback : ∀ r ∈ s.db.ids 0, back (s.entry S i r) = r ∧
      (s.masters (s.entry S i r).master).map Master.back = some r := by
    intro r hr
    obtain ⟨m,M,hlink⟩ := h.linked r hr
    have hm : (s.masters (s.entry S i r).master).map Master.back = some r := by
      rw [entry_eq hlink,hlink.master,map_some,hlink.back]
    exact ⟨by simp only [back,hm,getD_some],hm⟩
  have hentry : ∀ e ∈ s.index i, ∃ r ∈ s.db.ids 0, s.entry S i r = e := fun e he =>
    mem_map.mp ((h.index i hi).mem_iff.mp he)
  have hcursor : s.cursor i q = some (((s.index i).filter fun e => q.selects e.key).map back) := by
    rw [cursor,if_neg (by simp [hq,h.searchable hi hks])]
    refine mapM_eq_map fun e he => ?_
    obtain ⟨r,hr,rfl⟩ := hentry e (mem_of_mem_filter he)
    rw [(hback r hr).1,(hback r hr).2]
  have hperm : (((s.index i).filter fun e => q.selects e.key).map back).Perm
      ((s.db.ids 0).filter fun r => q.selects (s.indexKey S i r)) := by
    refine (((h.index i hi).filter _).map back).trans (of_eq ?_)
    rw [filter_map,map_map]
    refine (map_congr_left fun r hr => ?_).trans (map_id _)
    exact (hback r (mem_of_mem_filter hr)).1
  refine ⟨_,hcursor,hperm.nodup_iff.mpr ((h.valid.nodup 0).filter _),hperm,?_⟩
  rw [pairwise_map]
  refine imp_of_mem (fun {a b} ha hb hab => ?_) ((h.sorted i hi).sublist filter_sublist)
  obtain ⟨x,hx,rfl⟩ := hentry a (mem_of_mem_filter ha)
  obtain ⟨y,hy,rfl⟩ := hentry b (mem_of_mem_filter hb)
  obtain ⟨z,hz,-,hzs,hzt,hzf⟩ := h.row_of_mem hx
  obtain ⟨w,hw,-,hws,hwt,hwf⟩ := h.row_of_mem hy
  rw [(hback x hx).1,(hback y hy).1]
  simp only [entry,indexKey_eq hz,indexKey_eq hw] at hab ⊢
  rw [Bool.eq_false_iff,ne_eq,keyLt_iff (index_kinds hwt hws hzt hzs i) (key_ordered hwf i)
    (key_ordered hzf i)]
  exact not_lt.mpr hab

theorem coherent : s.Coherent S := by
  intro i hi
  obtain ⟨l,hl,hnd,hperm,hsorted⟩ := h.cursor_eq hi (q:=.all) rfl (by simp [Query.keys])
  refine ⟨l,hl,hnd,?_,hsorted⟩
  simpa [Query.selects] using hperm

/-! Removal. -/

theorem slots_searchable (hr : r ∈ s.db.ids 0) (hlink : s.Linked S r m M)
    (hi : i < S.indices.length) : ∃ key, M.slots i = some key ∧ s.Searchable i [key] := by
  obtain ⟨row,hrow,-,-,-,hfine⟩ := h.row_of_mem hr
  refine ⟨_,hlink.slots i hi,h.searchable hi ?_⟩
  rw [indexKey_eq hrow]
  simpa using key_ordered hfine i

theorem removeAt_spec (hr : r ∈ s.db.ids 0) :
    ∃ s', s.removeAt S r true = some s' ∧ s'.Inv S ∧ s'.db.ids 0 = (s.db.ids 0).erase r := by
  obtain ⟨m,M,hlink⟩ := h.linked r hr
  obtain ⟨row,hrow,htbl,-⟩ := h.row_of_mem hr
  have hdrop := dropIndexRows_eq nodup_range hlink.master fun i hi =>
    h.slots_searchable hr hlink (mem_range.mp hi)
  obtain ⟨s',hs',hdb,hhidden,hmasters,hindex⟩ : ∃ s', s.removeAt S r true = some s' ∧
      s'.db = (s.db.setRow r none).setTable 0 ((s.db.tables 0).eraseP fun e => e.row = r) ∧
      s'.hidden = s.hidden ∧ s'.masters = Function.update s.masters m none ∧
      ∀ i < S.indices.length, s'.index i = (s.index i).eraseP (hit ⟨(M.slots i).getD [],m⟩) := by
    simp only [removeAt,hrow,if_true,hlink.hidden,bind_some,destroySecondaryIndices,hdrop,
      map_some,setMaster,update_idem]
    exact ⟨_,rfl,rfl,rfl,rfl,fun i hi => if_pos (mem_range.mpr hi)⟩
  have hids : s'.db.ids 0 = (s.db.ids 0).erase r := by
    rw [hdb,Db.ids_setTable,if_pos rfl,map_eraseP_row]
    rfl
  have hother : ∀ x ∈ s'.db.ids 0, x ≠ r ∧ x ∈ s.db.ids 0 := by
    rw [hids]
    exact fun x hx => (h.valid.nodup 0).mem_erase_iff.mp hx
  have hrows : ∀ x ≠ r, s'.db.rows x = s.db.rows x := by
    rw [hdb]
    exact fun x hx => update_of_ne hx _ _
  refine ⟨s',hs',⟨?_,?_,?_,?_,?_⟩,hids⟩
  · have hvalid := h.valid.forget hrow htbl
    rwa [← hdb] at hvalid
  · intro x hx
    obtain ⟨hxr,hx⟩ := hother x hx
    obtain ⟨m',M',hl⟩ := h.linked x hx
    have hm : m' ≠ m := by
      rintro rfl
      exact hxr (link_inj hlink hl)
    exact ⟨m',M',hl.congr (hrows x hxr) (by rw [hhidden]) (by rw [hmasters,update_of_ne hm])⟩
  · intro x hx z hz
    obtain ⟨hxr,hx⟩ := hother x hx
    exact h.fine x hx z ((hrows x hxr).symm.trans hz)
  · intro i hi
    have hold := h.index_split hr hlink hi
    rw [hindex i hi,hlink.slots i hi,getD_some]
    refine (eraseP_hit_perm hold (h.nodup_masters hi)).trans (of_eq ?_)
    rw [← hids]
    refine map_congr_left fun x hx => ?_
    exact (entry_congr (hrows x (hother x hx).1) (by rw [hhidden]) i).symm
  · intro i hi
    rw [hindex i hi]
    exact (h.sorted i hi).sublist eraseP_sublist

end

theorem remove_eq (h : s.db.Valid S.catalog []) (hrow : s.db.rows r = some row)
    (htbl : row.tbl = some 0) (free : Bool) : s.remove S r free = s.removeAt S r free := by
  have hs : s.db.Searchable S.catalog 0 [row.key] :=
    h.searchable (by simpa using (h.home r row 0 hrow (.inl htbl)).2.2)
  have hmem : r ∈ (s.db.ids 0).filter fun x => Query.selects (.key row.key) (s.db.keyOf x) := by
    refine mem_filter.mpr ⟨h.stored r row 0 hrow htbl,?_⟩
    rw [Db.keyOf,hrow]
    exact Query.selectsIn_self .sorted row.key
  simp only [remove,hrow,hs,not_true_eq_false,if_false,hmem,if_true]

theorem removeAll_spec (h : s.Inv S) {l : List RowId} (hnd : l.Nodup)
    (hl : ∀ r ∈ l, r ∈ s.db.ids 0) :
    ∃ s', removeAtAll S l s = some s' ∧ removeEach S true l s = some s' ∧ s'.Inv S := by
  induction l generalizing s with
  | nil => exact ⟨s,rfl,rfl,h⟩
  | cons r l ih =>
    rw [nodup_cons] at hnd
    have hr := hl r mem_cons_self
    obtain ⟨s₁,hs₁,h₁,hids⟩ := h.removeAt_spec hr
    obtain ⟨s',hs',hs'',h'⟩ := ih h₁ hnd.2 fun x hx => by
      rw [hids,(h.valid.nodup 0).mem_erase_iff]
      exact ⟨fun hxr => hnd.1 (hxr ▸ hx),hl x (mem_cons_of_mem r hx)⟩
    refine ⟨s',?_,?_,h'⟩
    · rw [removeAtAll,hs₁]
      exact hs'
    · obtain ⟨row,hrow,htbl,-⟩ := h.row_of_mem hr
      rw [removeEach,remove_eq h.valid hrow htbl,hs₁]
      exact hs''

theorem removeKey_spec (h : s.Inv S) {k : List Value} (hk : keyOrdered k = true) :
    ∃ s', s.removeKey S k = some s' ∧ s'.Inv S := by
  have hq := h.valid.query_eq (t:=0) (q:=.key k) rfl fun x hx => by
    rw [mem_singleton.mp hx]
    exact hk
  obtain ⟨s',hs',-,h'⟩ := h.removeAll_spec ((h.valid.nodup 0).filter _)
    fun r hr => mem_of_mem_filter hr
  refine ⟨s',?_,h'⟩
  rw [removeKey,hq]
  exact hs'

theorem removeCursor_spec (h : s.Inv S) (hi : i < S.indices.length)
    (hq : q.allowed .sorted = true) (hks : ∀ k ∈ q.keys, keyOrdered k = true) :
    ∃ s', s.removeCursor S i q = some s' ∧ s'.Inv S := by
  obtain ⟨l,hl,hnd,hperm,-⟩ := h.cursor_eq hi hq hks
  obtain ⟨s',-,hs',h'⟩ := h.removeAll_spec hnd fun r hr => mem_of_mem_filter (hperm.mem_iff.mp hr)
  refine ⟨s',?_,h'⟩
  rw [removeCursor,hl]
  exact hs'

/-! Insertion. -/

theorem insertNew_spec (h : s.Inv S) {a : Insertion} (hlegal : a.Legal S s) (hapt : a.Apt S) :
    ∃ s', s.insertNew S a = some s' ∧ s'.Inv S ∧ s'.db.ids 0 = s.db.ids 0++[a.row] ∧
      (∀ x ≠ a.row, s'.db.rows x = s.db.rows x) ∧
      ∀ m ≠ a.master, s'.masters m = s.masters m := by
  obtain ⟨r,origin,m⟩ := a
  cases origin with
  | copy x => cases hapt
  | fresh row =>
    obtain ⟨hr,hm,htbl,hschema,htyped⟩ := hlegal
    have hfine : Fine S row := hapt
    have hstage := h.valid.stage hr htbl hschema htyped (primary_fit hfine hschema 0)
    have hrow : (s.db.setRow r (some row)).rows r = some row := update_self ..
    have hadd := addIndexRows_eq (S:=S)
      (s:=setMaster ⟨s.db.setRow r (some row),Function.update s.hidden r none,s.masters,s.index⟩ m
        (some ⟨fun _ => none,r⟩)) (M:=⟨fun _ => none,r⟩) nodup_range hrow
      (update_self ..) fun i hi => ⟨rfl,h.searchable (mem_range.mp hi)
        (by simpa using key_ordered hfine i)⟩
    obtain ⟨s',hs',hdb,hhidden,hmasters,hindex⟩ : ∃ s', s.insertNew S ⟨r,.fresh row,m⟩ = some s' ∧
        s'.db = ((s.db.setRow r (some row)).setRow r (some {row with tbl := some 0})).setTable 0
          (s.db.tables 0++[⟨r,!row.sparse⟩]) ∧
        s'.hidden = Function.update s.hidden r (some m) ∧
        s'.masters = Function.update s.masters m (some ⟨fun i =>
          if i ∈ range S.indices.length then some ((S.getIndex i).map row.values) else none,r⟩) ∧
        ∀ i < S.indices.length,
          s'.index i = insertSorted ⟨(S.getIndex i).map row.values,m⟩ (s.index i) := by
      simp only [insertNew,place,bind_some,insert,update_self,hadd,insertBase,
        setMaster_db,hstage.insert_eq hrow,map_some,setMaster_masters,update_idem]
      exact ⟨_,rfl,rfl,by simp [setMaster],rfl,fun i hi => if_pos (mem_range.mpr hi)⟩
    have hids : s'.db.ids 0 = s.db.ids 0++[r] := by
      rw [hdb,Db.ids_setTable,if_pos rfl,map_append]
      rfl
    have hrows : ∀ x ≠ r, s'.db.rows x = s.db.rows x := by
      intro x hx
      rw [hdb,Db.setTable_rows,Db.setRow_rows,Db.setRow_rows,update_of_ne hx,update_of_ne hx]
    have hnew : s'.db.rows r = some {row with tbl := some 0} := by
      rw [hdb,Db.setTable_rows,Db.setRow_rows,update_self]
    have hkey : ∀ i, s'.indexKey S i r = (S.getIndex i).map row.values := fun i =>
      indexKey_eq hnew i
    have hold : ∀ x ∈ s.db.ids 0, x ≠ r := by
      rintro x hx rfl
      obtain ⟨z,hz,-⟩ := h.row_of_mem hx
      rw [hr] at hz
      cases hz
    have hlink : s'.Linked S r m ⟨fun i => if i ∈ range S.indices.length then
        some ((S.getIndex i).map row.values) else none,r⟩ := by
      refine ⟨by rw [hhidden,update_self],by rw [hmasters,update_self],rfl,?_⟩
      intro i hi
      rw [hkey]
      exact if_pos (mem_range.mpr hi)
    have hkept : ∀ x ∈ s.db.ids 0, s'.hidden x = s.hidden x := fun x hx => by
      rw [hhidden,update_of_ne (hold x hx)]
    refine ⟨s',hs',⟨?_,?_,?_,?_,?_⟩,hids,hrows,fun m' hm' => by
      rw [hmasters,update_of_ne hm']⟩
    · rw [hdb]
      exact hstage.file hrow
    · intro x hx
      rw [hids] at hx
      rcases mem_append.mp hx with hx | hx
      · obtain ⟨m',M',hl⟩ := h.linked x hx
        have hmm : m' ≠ m := by
          rintro rfl
          exact Option.some_ne_none _ (hl.master.symm.trans hm)
        exact ⟨m',M',hl.congr (hrows x (hold x hx)) (hkept x hx)
          (by rw [hmasters,update_of_ne hmm])⟩
      · rw [mem_singleton.mp hx]
        exact ⟨m,_,hlink⟩
    · intro x hx z hz
      rw [hids] at hx
      rcases mem_append.mp hx with hx | hx
      · exact h.fine x hx z ((hrows x (hold x hx)).symm.trans hz)
      · rw [mem_singleton.mp hx,hnew,Option.some.injEq] at hz
        subst hz
        exact hfine
    · intro i hi
      have hmap : (s.db.ids 0).map (s'.entry S i) = (s.db.ids 0).map (s.entry S i) :=
        map_congr_left fun x hx => entry_congr (hrows x (hold x hx)) (hkept x hx) i
      rw [hindex i hi,hids,map_append,hmap,map_singleton,entry_eq hlink,hkey]
      refine (insertSorted_perm _ _).trans (((h.index i hi).cons _).trans ?_)
      exact (perm_append_singleton _ _).symm
    · intro i hi
      rw [hindex i hi]
      exact (h.sorted i hi).insert (key_ordered hfine i)
        fun e he => h.index_key hi htyped hschema he

/-! Updates. -/

variable {c : ℕ}

theorem not_mem_getIndex (hc : S.indexed c = false) (i : ℕ) : c ∉ S.getIndex i :=
  fun hmem => by rw [indexed_of_mem_getIndex hmem] at hc; cases hc

variable {v : Value}

theorem map_store {idx : List ℕ} (hc : c ∉ idx) :
    idx.map (row.store c v).values = idx.map row.values := by
  refine map_congr_left fun c' hc' => update_of_ne ?_ _ _
  rintro rfl
  exact hc hc'

theorem Fine.store (h : Fine S row)
    (hv : S.indexed c = true → v.ordered = true) : Fine S (row.store c v) := by
  intro c' hc' hind
  by_cases hcc : c' = c
  · subst hcc
    simpa [Row.store] using hv hind
  · have hval : (row.store c v).values c' = row.values c' := update_of_ne hcc _ _
    rw [hval]
    exact h c' hc' hind

theorem store_spec (h : s.Inv S) (hr : r ∈ s.db.ids 0) (hrow : s.db.rows r = some row)
    (hcol : S.columns[c]? = some v.kind) (hc : S.indexed c = false)
    (hsparse : S.schema.strKey = true → (row.store c v).sparse = row.sparse) :
    Inv S {s with db := s.db.setRow r (some (row.store c v))} := by
  obtain ⟨z,hz,htbl,hschema,htyped,hfine⟩ := h.row_of_mem hr
  cases Option.some.inj (hrow.symm.trans hz)
  have hkey : (row.store c v).key = row.key :=
    Row.store_key (by rw [hschema]; exact not_mem_keys hc)
  have hany : ((row.schema.columns[c]?).any fun col => v.kind = col.kind) = true := by
    rw [hschema,columns_schema,hcol]
    simp
  have hindex : ∀ i x, indexKey S {s with db := s.db.setRow r (some (row.store c v))} i x =
      s.indexKey S i x := by
    intro i x
    by_cases hx : x = r
    · subst hx
      rw [indexKey_eq hrow,indexKey_eq (update_self ..),map_store (not_mem_getIndex hc i)]
    · exact indexKey_congr (update_of_ne hx _ _) i
  have hentry : ∀ i x, entry S {s with db := s.db.setRow r (some (row.store c v))} i x =
      s.entry S i x := fun i x => by rw [entry,entry,hindex]
  refine ⟨?_,?_,?_,?_,h.sorted⟩
  · exact h.valid.setRow _ hrow rfl rfl hkey (htyped.store hany) fun _ hstr =>
      hsparse (by rwa [← hschema])
  · intro x hx
    obtain ⟨m,M,hl⟩ := h.linked x hx
    exact ⟨m,M,hl.hidden,hl.master,hl.back,fun i hi => by rw [hl.slots i hi,hindex]⟩
  · intro x hx z hz
    rcases Db.setRow_rows_eq_some.mp hz with ⟨-,heq⟩ | ⟨-,hz⟩
    · cases heq
      exact Fine.store hfine fun hind => absurd hind (by rw [hc]; decide)
    · exact h.fine x hx z hz
  · intro i hi
    refine (h.index i hi).trans (of_eq (map_congr_left fun x _ => ?_))
    exact (hentry i x).symm

theorem mem_affected : i ∈ S.affected c ↔ i < S.indices.length ∧ c ∈ S.getIndex i := by
  simp [IndexedSchema.affected]

/-- Between the notifications the row is taken out of the table, changed and inserted again;
the indices are not looked at. -/
theorem move_spec (h : s.db.Valid S.catalog []) (hrow : s.db.rows r = some row)
    (htbl : row.tbl = some 0) (hm : s.hidden r = some m)
    (hschema : row.schema = S.schema) (htyped : (row.store c v).Typed)
    (hfine : Fine S (row.store c v)) :
    ∃ s₁ db', s.remove S r false = some s₁ ∧
      insert S {s₁ with db := s₁.db.setRow r (some {row.store c v with tbl := none})} r 0 =
        some {s with db := db'} ∧
      db'.Valid S.catalog [] ∧ db'.rows = Function.update s.db.rows r (some (row.store c v)) ∧
      db'.ids 0 = (s.db.ids 0).erase r++[r] := by
  obtain ⟨db',hins,hvalid,hrows,hids⟩ := h.exchange {row.store c v with tbl := none} hrow htbl rfl
    hschema htyped (primary_fit hfine hschema 0)
  refine ⟨s.eraseEntry r (some {row with tbl := none}),db',?_,?_,hvalid,?_,hids⟩
  · rw [remove_eq h hrow htbl,removeAt,hrow]
    rfl
  · simp only [insert,eraseEntry,hm,insertBase]
    rw [hins]
    rfl
  · rw [hrows,← htbl]
    rfl

section

variable (h : s.Inv S)
include h

/-- A row with a new value in an indexed column is filed anew, and so are its index rows in
the indices that have the column. -/
theorem refile_eq (hr : r ∈ s.db.ids 0) (hrow : s.db.rows r = some row)
    (hlink : s.Linked S r m M) (hcol : S.columns[c]? = some v.kind)
    (hc : S.indexed c = true) (hne : row.values c ≠ v) (htyped : (row.store c v).Typed)
    (hfine : Fine S (row.store c v)) :
    ∃ s' M', s.update S r c v = some s' ∧ s'.db.Valid S.catalog [] ∧
      s'.db.rows = Function.update s.db.rows r (some (row.store c v)) ∧
      s'.db.ids 0 = (s.db.ids 0).erase r++[r] ∧ s'.hidden = s.hidden ∧
      s'.masters = Function.update s.masters m (some M') ∧ M'.back = r ∧
      (∀ i < S.indices.length, M'.slots i = some ((S.getIndex i).map (row.store c v).values)) ∧
      ∀ i, s'.index i = if i ∈ S.affected c then
        insertSorted ⟨(S.getIndex i).map (row.store c v).values,m⟩
          ((s.index i).eraseP (IndexRow.hit ⟨(M.slots i).getD [],m⟩)) else s.index i := by
  obtain ⟨z,hz,htbl,hschema,-⟩ := h.row_of_mem hr
  cases Option.some.inj (hrow.symm.trans hz)
  have hnd : (S.affected c).Nodup := nodup_range.filter _
  have hdrop := dropIndexRows_eq hnd hlink.master fun i hi =>
    h.slots_searchable hr hlink (mem_affected.mp hi).1
  -- the state without the affected index rows
  obtain ⟨s₁,hs₁,hdb₁,hhidden₁,hmasters₁,hindex₁⟩ : ∃ s₁,
      s.notifyBeforeUpdate S r c = some s₁ ∧ s₁.db = s.db ∧ s₁.hidden = s.hidden ∧
      s₁.masters = Function.update s.masters m
        (some {M with slots := fun i => if i ∈ S.affected c then none else M.slots i}) ∧
      s₁.index = fun i => if i ∈ S.affected c then
        (s.index i).eraseP (hit ⟨(M.slots i).getD [],m⟩) else s.index i := by
    rw [notifyBeforeUpdate,hlink.hidden,bind_some,hdrop]
    exact ⟨_,rfl,rfl,rfl,rfl,rfl⟩
  -- the row in its new place
  obtain ⟨s₀,db',hs₀,hs₂,hvalid,hrows,hids⟩ := move_spec (hdb₁ ▸ h.valid) (by rw [hdb₁,hrow])
    htbl (by rw [hhidden₁,hlink.hidden]) hschema htyped hfine
  rw [hdb₁] at hrows hids
  have hnew : db'.rows r = some (row.store c v) := by rw [hrows,update_self]
  have hadd := addIndexRows_eq (S:=S) (s:={s₁ with db := db'}) hnd hnew
    (by rw [hmasters₁,update_self]) fun i hi => by
      refine ⟨if_pos hi,fun k hk => ?_⟩
      rcases mem_append.mp hk with hk | hk
      · rw [mem_singleton.mp hk]
        exact key_ordered hfine i
      · obtain ⟨e,he,rfl⟩ := mem_map.mp hk
        rw [hindex₁] at he
        simp only [hi,if_true] at he
        exact (h.index_key (mem_affected.mp hi).1 htyped hschema (mem_of_mem_eraseP he)).2
  have hupdate : s.update S r c v = addIndexRows S r m (S.affected c) {s₁ with db := db'} := by
    have hget : row.schema.columns[c]? = some ⟨v.kind,true⟩ := by
      rw [hschema,columns_schema,hcol,map_some,hc]
    simp only [update,hrow,hget,ne_eq,not_true_eq_false,if_false,hne,htbl,and_self,if_true,hs₁,
      bind_some,hs₀]
    rw [hs₂,bind_some,notifyAfterUpdate,hhidden₁,hlink.hidden,bind_some]
  refine ⟨_,⟨fun i => if i ∈ S.affected c then some ((S.getIndex i).map (row.store c v).values)
    else if i ∈ S.affected c then none else M.slots i,M.back⟩,hupdate.trans hadd,hvalid,hrows,hids,
    hhidden₁,by rw [hmasters₁,update_idem],hlink.back,?_,?_⟩
  · intro i hi
    by_cases haff : i ∈ S.affected c
    · simp only [haff,if_true]
    · have hsame : (S.getIndex i).map (row.store c v).values = (S.getIndex i).map row.values :=
        map_store fun hmem => haff (mem_affected.mpr ⟨hi,hmem⟩)
      simp only [haff,if_false,hlink.slots i hi,indexKey_eq hrow,hsame]
  · intro i
    simp only [hindex₁]
    by_cases hi : i ∈ S.affected c
    · simp only [hi,if_true]
    · simp only [hi,if_false]

theorem refile_spec (hr : r ∈ s.db.ids 0) (hrow : s.db.rows r = some row)
    (hcol : S.columns[c]? = some v.kind) (hc : S.indexed c = true)
    (hv : v.ordered = true) (hne : row.values c ≠ v) : ∃ s', s.update S r c v = some s' ∧ s'.Inv S ∧
      s'.db.rows = Function.update s.db.rows r (some (row.store c v)) ∧
      (s'.db.ids 0).Perm (s.db.ids 0) := by
  obtain ⟨z,hz,htbl,hschema,htyped,hfine⟩ := h.row_of_mem hr
  cases Option.some.inj (hrow.symm.trans hz)
  obtain ⟨m,M,hlink⟩ := h.linked r hr
  have hfine' : Fine S (row.store c v) := Fine.store hfine fun _ => hv
  have hany : ((row.schema.columns[c]?).any fun col => v.kind = col.kind) = true := by
    rw [hschema,columns_schema,hcol]
    simp
  obtain ⟨s',M',hs',hvalid,hrows,hids,hhidden,hmasters,hback',hslots,hindex⟩ :=
    h.refile_eq hr hrow hlink hcol hc hne (htyped.store hany) hfine'
  have hnew : s'.db.rows r = some (row.store c v) := by rw [hrows,update_self]
  have hsame : ∀ i < S.indices.length, i ∉ S.affected c →
      (S.getIndex i).map (row.store c v).values = (S.getIndex i).map row.values :=
    fun i hi hno => map_store fun hmem => hno (mem_affected.mpr ⟨hi,hmem⟩)
  have hother : ∀ x ≠ r, s'.db.rows x = s.db.rows x := fun x hx => by
    rw [hrows,update_of_ne hx]
  have hkey : ∀ i, s'.indexKey S i r = (S.getIndex i).map (row.store c v).values := fun i =>
    indexKey_eq hnew i
  have hlink' : s'.Linked S r m M' :=
    ⟨by rw [hhidden,hlink.hidden],by rw [hmasters,update_self],hback',fun i hi => by
      rw [hslots i hi,hkey]⟩
  have hperm : (s'.db.ids 0).Perm (s.db.ids 0) := by
    rw [hids]
    exact (perm_append_singleton _ _).trans (perm_cons_erase hr).symm
  have herase : ∀ i, ((s.db.ids 0).erase r).map (s'.entry S i) =
      ((s.db.ids 0).erase r).map (s.entry S i) := fun i => map_congr_left fun x hx =>
    entry_congr (hother x ((h.valid.nodup 0).mem_erase_iff.mp hx).1) (by rw [hhidden]) i
  refine ⟨s',hs',⟨hvalid,?_,?_,?_,?_⟩,hrows,hperm⟩
  · intro x hx
    by_cases hxr : x = r
    · exact ⟨m,M',hxr ▸ hlink'⟩
    · obtain ⟨mx,Mx,hl⟩ := h.linked x (hperm.mem_iff.mp hx)
      have hm : mx ≠ m := by
        rintro rfl
        exact hxr (link_inj hlink hl)
      exact ⟨mx,Mx,hl.congr (hother x hxr) (by rw [hhidden]) (by rw [hmasters,update_of_ne hm])⟩
  · intro x hx z hz
    by_cases hxr : x = r
    · rw [hxr,hnew,Option.some.injEq] at hz
      exact hz ▸ hfine'
    · exact h.fine x (hperm.mem_iff.mp hx) z ((hother x hxr).symm.trans hz)
  · intro i hi
    have hold := h.index_split hr hlink hi
    rw [hids,map_append,herase,map_singleton,entry_eq hlink',hkey,hindex]
    refine List.Perm.trans ?_ (perm_append_singleton _ _).symm
    split_ifs with haff
    · refine (insertSorted_perm _ _).trans (cons _ ?_)
      rw [hlink.slots i hi,getD_some]
      exact eraseP_hit_perm hold (h.nodup_masters hi)
    · rwa [indexKey_eq hrow,← hsame i hi haff] at hold
  · intro i hi
    rw [hindex]
    split_ifs with haff
    · refine SortedIndex.insert ((h.sorted i hi).sublist eraseP_sublist)
        (key_ordered hfine' i) fun e he => ?_
      exact h.index_key hi (htyped.store hany) hschema (mem_of_mem_eraseP he)
    · exact h.sorted i hi

theorem update_spec (hlegal : s.UpdateLegal S (r,c,v)) (hapt : s.UpdateApt S (r,c,v)) :
    ∃ s' row, s.update S r c v = some s' ∧ s'.Inv S ∧ s.db.rows r = some row ∧
      s'.db.rows = Function.update s.db.rows r (some (row.store c v)) ∧
      (s'.db.ids 0).Perm (s.db.ids 0) := by
  obtain ⟨hr,hcol⟩ := hlegal
  obtain ⟨row,hrow,htbl,hschema,-⟩ := h.row_of_mem hr
  by_cases hne : row.values c = v
  · have hget : row.schema.columns[c]? = some ⟨v.kind,S.indexed c⟩ := by
      rw [hschema,columns_schema,hcol,map_some]
    refine ⟨s,row,?_,h,hrow,?_,List.Perm.refl _⟩
    · simp only [update,hrow,hget,ne_eq,not_true_eq_false,if_false,hne,if_true]
    · rw [← hne,Row.store_self,← hrow,update_eq_self]
  cases hc : S.indexed c with
  | true =>
    obtain ⟨s',hs',h',hrows,hperm⟩ := h.refile_spec hr hrow hcol hc (hapt.1 hc) hne
    exact ⟨s',row,hs',h',hrow,hrows,hperm⟩
  | false =>
    have hget : row.schema.columns[c]? = some ⟨v.kind,false⟩ := by
      rw [hschema,columns_schema,hcol,map_some,hc]
    refine ⟨_,row,?_,h.store_spec hr hrow hcol hc fun hstr => ?_,hrow,rfl,List.Perm.refl _⟩
    · simp only [update,hrow,hget,ne_eq,not_true_eq_false,if_false,hne,Bool.false_eq_true,
        false_and]
    · have hlen := hapt.2 hc hstr row hrow
      cases hsp : row.sparse with
      | true => simp [Row.store,hsp]
      | false => simp [Row.store,hsp,hlen hsp]

/-! Commits. -/

theorem insertEach_spec {l : List Insertion} (hlegal : ∀ a ∈ l, a.Legal S s)
    (hapt : ∀ a ∈ l, a.Apt S) (hrows : (l.map Insertion.row).Nodup)
    (hmasters : (l.map Insertion.master).Nodup) : ∃ s', insertEach S l s = some s' ∧ s'.Inv S ∧
      (∀ x row, s.db.rows x = some row → s'.db.rows x = some row) ∧
      ∀ x ∈ s.db.ids 0, x ∈ s'.db.ids 0 := by
  induction l generalizing s with
  | nil => exact ⟨s,rfl,h,fun _ _ hx => hx,fun _ hx => hx⟩
  | cons a l ih =>
    rw [map_cons,nodup_cons] at hrows hmasters
    have ha := hlegal a mem_cons_self
    obtain ⟨s₁,hs₁,h₁,hids₁,hkept₁,hfree₁⟩ := h.insertNew_spec ha (hapt a mem_cons_self)
    have hlegal₁ : ∀ b ∈ l, b.Legal S s₁ := by
      intro b hb
      have hrow : b.row ≠ a.row := fun hba =>
        hrows.1 (mem_map.mpr ⟨b,hb,hba⟩)
      have hmaster : b.master ≠ a.master := fun hba =>
        hmasters.1 (mem_map.mpr ⟨b,hb,hba⟩)
      obtain ⟨hbr,hbm,horigin⟩ := hlegal b (mem_cons_of_mem a hb)
      have hbapt := hapt b (mem_cons_of_mem a hb)
      refine ⟨(hkept₁ _ hrow).trans hbr,(hfree₁ _ hmaster).trans hbm,?_⟩
      obtain ⟨r,origin,m⟩ := b
      cases origin with
      | fresh row => exact horigin
      | copy x => cases hbapt
    obtain ⟨s',hs',h',hkept',hids'⟩ := ih h₁ hlegal₁
      (fun b hb => hapt b (mem_cons_of_mem a hb)) hrows.2 hmasters.2
    refine ⟨s',?_,h',fun x row hx => hkept' x row ?_,fun x hx => hids' x ?_⟩
    · rw [insertEach,hs₁]
      exact hs'
    · have hxa : x ≠ a.row := by
        rintro rfl
        rw [ha.1] at hx
        cases hx
      rw [hkept₁ x hxa,hx]
    · rw [hids₁]
      exact mem_append_left _ hx

theorem updateEach_spec {l : List (RowId × ℕ × Value)}
    (hlegal : ∀ u ∈ l, s.UpdateLegal S u) (hapt : ∀ u ∈ l, s.UpdateApt S u)
    (hnd : (l.map fun u => (u.1,u.2.1)).Nodup) : ∃ s', updateEach S l s = some s' ∧ s'.Inv S := by
  induction l generalizing s with
  | nil => exact ⟨s,rfl,h⟩
  | cons u l ih =>
    obtain ⟨r,c,v⟩ := u
    rw [map_cons,nodup_cons] at hnd
    obtain ⟨s₁,row,hs₁,h₁,hrow,hrows₁,hperm₁⟩ := h.update_spec (hlegal _ mem_cons_self)
      (hapt _ mem_cons_self)
    have hapt₁ : ∀ w ∈ l, s₁.UpdateApt S w := by
      intro w hw
      obtain ⟨hord,hlen⟩ := hapt w (mem_cons_of_mem _ hw)
      refine ⟨hord,fun hind hstr z hz hsp => ?_⟩
      have hz : s₁.db.rows w.1 = some z := hz
      rw [hrows₁] at hz
      by_cases hwr : w.1 = r
      · rw [hwr,update_self,Option.some.injEq] at hz
        subst hz
        have hwc : w.2.1 ≠ c := fun hwc => hnd.1 (mem_map.mpr ⟨w,hw,by rw [hwr,hwc]⟩)
        have hval : (row.store c v).values w.2.1 = row.values w.2.1 :=
          update_of_ne hwc _ _
        rw [hval]
        exact hlen hind hstr row (hwr ▸ hrow) (Bool.or_eq_false_iff.mp hsp).1
      · rw [update_of_ne hwr] at hz
        exact hlen hind hstr z hz hsp
    obtain ⟨s',hs',h'⟩ := ih h₁ (fun w hw => by
      obtain ⟨hwr,hwc⟩ := hlegal w (mem_cons_of_mem _ hw)
      exact ⟨hperm₁.mem_iff.mpr hwr,hwc⟩) hapt₁ hnd.2
    refine ⟨s',?_,h'⟩
    rw [updateEach,hs₁]
    exact hs'

theorem commit_spec {inserts : List Insertion} {updates : List (RowId × ℕ × Value)}
    {removes : List RowId} (hlegal : s.Legal S (.commit inserts updates removes))
    (hapt : s.Apt S (.commit inserts updates removes)) :
    ∃ s', s.commit S inserts updates removes = some s' ∧ s'.Inv S := by
  obtain ⟨hins,hrows,hmasters,hupd,hnd,-,-⟩ := hlegal
  obtain ⟨hinsApt,hupdApt,rfl⟩ := hapt
  obtain ⟨s₁,hs₁,h₁,hkept₁,hids₁⟩ := h.insertEach_spec hins hinsApt hrows hmasters
  obtain ⟨s₂,hs₂,h₂⟩ := h₁.updateEach_spec (l:=updates)
    (fun u hu => ⟨hids₁ _ (hupd u hu).1,(hupd u hu).2⟩)
    (fun u hu => by
      obtain ⟨hord,hlen⟩ := hupdApt u hu
      refine ⟨hord,fun hind hstr z hz hsp => ?_⟩
      obtain ⟨row,hrow,-⟩ := h.row_of_mem (hupd u hu).1
      have hz : s₁.db.rows u.1 = some z := hz
      rw [hkept₁ _ row hrow,Option.some.injEq] at hz
      subst hz
      exact hlen hind hstr row hrow hsp) hnd
  refine ⟨s₂,?_,h₂⟩
  rw [commit,hs₁,bind_some,hs₂,bind_some]
  rfl

theorem apply_spec {op : Op} (hlegal : s.Legal S op) (hapt : s.Apt S op) :
    ∃ s', s.apply S op = some s' ∧ s'.Inv S := by
  cases op with
  | insert a =>
    obtain ⟨s',hs',h',-⟩ := h.insertNew_spec hlegal hapt
    exact ⟨s',hs',h'⟩
  | update r c v =>
    obtain ⟨s',-,hs',h',-⟩ := h.update_spec hlegal hapt
    exact ⟨s',hs',h'⟩
  | removeKey k => exact h.removeKey_spec hapt
  | removeRow r =>
    obtain ⟨row,hrow,htbl,-⟩ := h.row_of_mem hlegal
    obtain ⟨s',hs',h',-⟩ := h.removeAt_spec hlegal
    exact ⟨s',(remove_eq h.valid hrow htbl true).trans hs',h'⟩
  | removeCursor i q => exact h.removeCursor_spec hlegal.1 hlegal.2.1 hapt
  | clear =>
    have hids : s.db.ids 0 = [] := hapt
    have htables : s.db.tables 0 = [] := map_eq_nil_iff.mp hids
    refine ⟨s,?_,h⟩
    simp only [apply,clear,hids,Db.freeAll,Db.setTable,← htables,update_eq_self]
  | commit inserts updates removes => exact h.commit_spec hlegal hapt

end

theorem new_inv : (new : IndexedTable).Inv S := by
  refine ⟨?_,by simp [new,Db.ids],by simp [new,Db.ids],by simp [new,Db.ids],fun i _ => ?_⟩
  · constructor <;> simp [new,Db.ids]
  · exact nil

theorem reachable (h : ReachableBy (system S) (fun s op => s.Apt S op) s) : s.Inv S := by
  obtain ⟨s₀,rfl,hrun⟩ := h
  refine hrun.invariant (fun s op s' hapt hs hstep => ?_) new_inv
  simp only [system] at hstep
  split_ifs at hstep with hlegal
  obtain ⟨t,ht,h'⟩ := hs.apply_spec hlegal hapt
  rw [ht,Option.some.injEq] at hstep
  exact hstep ▸ h'

end Inv

end IndexedTable

/-- As long as no copy of a row is inserted, no table with rows cleared, no row removed in a
commit, no string key moved under its entry and no NaN put in a key, operations have results and
the indices are coherent. -/
theorem indices_coherent (S : IndexedSchema) (s : IndexedTable)
    (h : ReachableBy (IndexedTable.system S) (fun s op => s.Apt S op) s) :
    s.Coherent S ∧ ∀ op, s.Legal S op → s.Apt S op → ∃ s', s.apply S op = some s' := by
  have hinv := IndexedTable.Inv.reachable h
  refine ⟨hinv.coherent,fun op hlegal hapt => ?_⟩
  obtain ⟨s',hs',-⟩ := hinv.apply_spec hlegal hapt
  exact ⟨s',hs'⟩

namespace IndexedTable

def people : IndexedSchema :=
  ⟨[.STR,.I32,.STR],[0],[[1]],by decide,by decide⟩

def person (name : Byte) (n : BitVec 32) : Row :=
  ⟨people.schema,fun c => if c = 0 then .str [name] else if c = 1 then .i32 n else .str [120#8],
    false,none⟩

def swapped : IndexedTable :=
  after (system people) (fun s op => s.Apt people op) new
    [.insert ⟨0,.fresh (person 97#8 3#32),0⟩,.insert ⟨1,.fresh (person 98#8 5#32),1⟩,
      .update 0 1 (.i32 7#32)]

theorem indices_coherent_swapped : swapped.cursor 0 .all = some [1,0] ∧ swapped.Coherent people :=
  ⟨by decide +kernel,(indices_coherent people swapped ⟨_,rfl,run_after _ _⟩).1⟩

def afterOne (ops : List Op) : IndexedTable :=
  after (system people) (fun _ _ => True) new (.insert ⟨0,.fresh (person 97#8 3#32),0⟩::ops)

theorem afterOne_reachable (ops : List Op) : Reachable (system people) (afterOne ops) :=
  ⟨_,rfl,run_after _ _⟩

theorem not_coherent {s : IndexedTable} {l : List RowId} (hl : s.cursor 0 .all = some l)
    (hlen : l.length ≠ (s.db.ids 0).length) : ¬s.Coherent people := by
  intro h
  obtain ⟨l',hl',-,hperm,-⟩ := h 0 (by decide)
  rw [hl,Option.some.injEq] at hl'
  exact hlen (hl' ▸ hperm.length_eq)

/-- The index lacks an inserted copy, has rows that were cleared or removed in a commit, and a
longer string beside a string key fails the next search. -/
theorem indices_incoherent : (∀ ops, Reachable (system people) (afterOne ops)) ∧
    ¬(afterOne [.insert ⟨1,.copy 0,1⟩]).Coherent people ∧ ¬(afterOne [.clear]).Coherent people ∧
    ¬(afterOne [.commit [] [] [0]]).Coherent people ∧
    (afterOne [.update 0 2 (.str [121#8,121#8])]).Legal people (.removeRow 0) ∧
    ((afterOne [.update 0 2 (.str [121#8,121#8])]).apply people (.removeRow 0)).isNone = true := by
  have hone : ∀ op, (afterOne [op]).cursor 0 .all = some [0] →
      ((afterOne [op]).db.ids 0).length ≠ 1 → ¬(afterOne [op]).Coherent people :=
    fun op hl hlen => not_coherent hl (Ne.symm hlen)
  refine ⟨afterOne_reachable,hone _ ?_ ?_,hone _ ?_ ?_,hone _ ?_ ?_,?_,?_⟩ <;> decide +kernel

end IndexedTable

end Janus.Memdb
