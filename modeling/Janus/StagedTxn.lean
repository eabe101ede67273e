import Janus.MemdbRow
import Janus.Transition

/-! Transactions on the tables of memdb: direct ones (`TxnUnsafe`), and staged ones (`Txn2PL`),
which keep their inserts, updates and removals apart until they commit. Tables are multimaps from
keys to rows, and results of queries are multisets, so tables are lists without regard to order. A
step that reads a freed key, or puts an incomparable one into an ordered container, has no result.
-/
namespace Janus.Memdb

open Transition Function List Option

inductive TableKind
  | sorted | unsorted
  deriving DecidableEq

structure TableInfo where
  kind : TableKind
  schema : Schema

/-- A row in a table. Its key points into the block of strings of the row if the row was
dense when it was inserted. -/
structure Entry where
  row : RowId
  dense : Bool
  deriving DecidableEq

structure Db where
  rows : RowId → Option Row
  tables : TableId → List Entry

inductive Query
  | key (k : List Value)
  | lt (k : List Value)
  | gt (k : List Value)
  | between (low high : List Value)
  | all

namespace Query

def keys : Query → List (List Value)
  | .key k | .lt k | .gt k => [k]
  | .between low high => [low,high]
  | .all => []

/-- The keys between the bounds in a container ordered by `operator<`. -/
def selects : Query → List Value → Bool
  | .key k, x => !keyLt x k && !keyLt k x
  | .lt k, x => keyLt x k
  | .gt k, x => keyLt k x
  | .between low high, x => keyLt low x && keyLt x high
  | .all, _ => true

/-- In an unsorted table equal keys are equal bytes. -/
def selectsIn (kind : TableKind) (q : Query) (x : List Value) : Bool :=
  match kind,q with
  | .unsorted,.key k => x = k
  | _,_ => q.selects x

/-- Unsorted tables have no range queries; the bounds of a range must not be the wrong
way round. -/
def allowed (kind : TableKind) : Query → Bool
  | .key _ | .all => true
  | .lt _ | .gt _ => kind = .sorted
  | .between low high => kind = .sorted && keyLt low high

end Query

namespace Db

variable (cat : TableId → TableInfo)

variable (db : Db)

def ids (t : TableId) : List RowId := (db.tables t).map Entry.row

def setRow (r : RowId) (row : Option Row) : Db :=
  {db with rows := Function.update db.rows r row}

def setTable (t : TableId) (l : List Entry) : Db :=
  {db with tables := Function.update db.tables t l}

def readable (t : TableId) (e : Entry) : Bool :=
  match db.rows e.row with
  | some row => !(e.dense && row.sparse && (cat t).schema.strKey)
  | none => false

def keyOf (r : RowId) : List Value := ((db.rows r).map Row.key).getD []

def Searchable (t : TableId) (ks : List (List Value)) : Prop :=
  (∀ e ∈ db.tables t, db.readable cat t e = true) ∧
    ((cat t).kind = .sorted → ∀ k ∈ ks++(db.ids t).map db.keyOf, keyOrdered k = true)

instance (db : Db) (t : TableId) (ks : List (List Value)) :
    Decidable (db.Searchable cat t ks) := inferInstanceAs (Decidable (_ ∧ _))

/-- `SortedTable::query…`, `UnsortedTable::query` and `all`, which looks at no key. -/
def query (t : TableId) (q : Query) : Option (List RowId) :=
  if q.allowed (cat t).kind = false then none
  else
    match q with
    | .all => some (db.ids t)
    | q =>
      if db.Searchable cat t q.keys then
        some ((db.ids t).filter fun r => q.selectsIn (cat t).kind (db.keyOf r))
      else none

def insert (t : TableId) (r : RowId) : Option Db :=
  match db.rows r with
  | none => none
  | some row =>
    if row.schema ≠ (cat t).schema ∨ row.tbl ≠ none ∨ ¬db.Searchable cat t [row.key] then none
    else some ((db.setRow r (some {row with tbl := some t})).setTable t
      (db.tables t++[⟨r,!row.sparse⟩]))

/-- `Table::remove` of a row: it is looked for among those with its key. -/
def remove (t : TableId) (r : RowId) (free : Bool) : Option Db :=
  match db.rows r with
  | none => none
  | some row =>
    if ¬db.Searchable cat t [row.key] then none
    else if r ∈ (db.ids t).filter
        fun x => Query.selectsIn (cat t).kind (.key row.key) (db.keyOf x) then
      some ((db.setRow r (if free then none else some {row with tbl := none})).setTable t
        ((db.tables t).eraseP fun e => e.row = r))
    else some db

/-- `Row::update`. A row in a table is filed anew when the column is indexed. -/
def update (r : RowId) (c : ℕ) (v : Value) : Option Db :=
  match db.rows r with
  | none => none
  | some row =>
    match row.schema.columns[c]? with
    | none => none
    | some col =>
      if v.kind ≠ col.kind then none
      else if row.values c = v then some db
      else
        match col.indexed,row.tbl with
        | true,some t =>
          (db.remove cat t r false).bind fun db =>
            (db.setRow r (some {row.store c v with tbl := none})).insert cat t r
        | _,_ => some (db.setRow r (some (row.store c v)))

/-! The loops of `Txn2PL::commit`. -/

def insertAll : List (TableId × RowId) → Db → Option Db
  | [], db => some db
  | p::l, db => (db.insert cat p.1 p.2).bind (insertAll l)

def updateAll : List (RowId × ℕ × Value) → Db → Option Db
  | [], db => some db
  | u::l, db =>
    if (db.rows u.1).bind Row.tbl = none then none
    else (db.update cat u.1 u.2.1 u.2.2).bind (updateAll l)

def removeAll : List (TableId × RowId) → Db → Option Db
  | [], db => some db
  | p::l, db => (db.remove cat p.1 p.2 false).bind (removeAll l)

def freeAll : List RowId → Db → Db
  | [], db => db
  | r::l, db => (db.setRow r none).freeAll l

end Db

structure Staging where
  updates : List (RowId × ℕ × Value) := []
  inserts : List (TableId × RowId) := []
  removes : List (TableId × RowId) := []

/-- A step of a program. A row is inserted with all that it holds by then. -/
inductive Op
  | readColumn (r : RowId) (c : ℕ)
  | writeColumn (r : RowId) (c : ℕ) (v : Value)
  | insertRow (t : TableId) (r : RowId) (row : Row)
  | removeRow (t : TableId) (r : RowId)
  | query (t : TableId) (q : Query)

inductive Output
  | done
  | value (v : Value)
  | rows (l : Multiset RowId)
  deriving DecidableEq

section Steps

variable (cat : TableId → TableInfo)

def direct (db : Db) : Op → Option (Db × Output)
  | .readColumn r c => (db.rows r).map fun row => (db,.value (row.values c))
  | .writeColumn r c v => (db.update cat r c v).map fun db => (db,.done)
  | .insertRow t r row => ((db.setRow r (some row)).insert cat t r).map fun db => (db,.done)
  | .removeRow t r => (db.remove cat t r true).map fun db => (db,.done)
  | .query t q => (db.query cat t q).map fun l => (db,.rows (Multiset.ofList l))

namespace Staging

variable (s : Staging)

def rowsFor (t : TableId) : List RowId :=
  (s.inserts.filter fun p => p.1 = t).map Prod.snd

def find (s : Staging) (r : RowId) (c : ℕ) : Option Value :=
  (s.updates.find? fun u => u.1 = r ∧ u.2.1 = c).map fun u => u.2.2

/-- Where `inserts_`, which is ordered by table and key, can be searched. -/
def Searchable (db : Db) (t : TableId) (ks : List (List Value)) : Prop :=
  ∀ k ∈ ks++(s.rowsFor t).map db.keyOf, keyOrdered k = true

instance (s : Staging) (db : Db) (t : TableId) (ks : List (List Value)) :
    Decidable (s.Searchable db t ks) := inferInstanceAs (Decidable (∀ k ∈ _, _))

def readColumn (db : Db) (r : RowId) (c : ℕ) : Option Value :=
  (db.rows r).map fun row =>
    if row.tbl = none then row.values c else (s.find r c).getD (row.values c)

def writeColumn (db : Db) (r : RowId) (c : ℕ) (v : Value) : Option (Db × Staging) :=
  match db.rows r with
  | none => none
  | some row =>
    if row.tbl = none then (db.update cat r c v).map fun db => (db,s)
    else if (s.find r c).isSome then
      some (db,{s with
        updates := s.updates.map fun u => if u.1 = r ∧ u.2.1 = c then (r,c,v) else u})
    else some (db,{s with updates := s.updates++[(r,c,v)]})

def insertRow (db : Db) (t : TableId) (r : RowId) (row : Row) :
    Option (Db × Staging) :=
  if row.tbl ≠ none ∨ ¬s.Searchable db t [row.key] then none
  else some (db.setRow r (some row),{s with
    inserts := s.inserts++[(t,r)]
    removes := s.removes.erase (t,r)})

/-- A staged insert is taken back and its row freed; any other row is marked. -/
def removeRow (db : Db) (t : TableId) (r : RowId) : Option (Db × Staging) :=
  if ¬s.Searchable db t [db.keyOf r] then none
  else
    let s' := {s with updates := s.updates.filter fun u => u.1 ≠ r}
    if (t,r) ∈ s.inserts then
      some (db.setRow r none,{s' with inserts := s.inserts.erase (t,r)})
    else some (db,{s' with removes := s.removes.insert (t,r)})

/-- `MergedCursor`: the rows of the table that are not removed, and the staged ones, whichever
comes first in memory. -/
def merged (removed : RowId → Bool) : ℕ → List RowId → List RowId → List RowId
  | 0, _, _ => []
  | n+1, r::cursor, inserts =>
    if removed r then merged removed n cursor inserts
    else
      match inserts with
      | [] => r::merged removed n cursor []
      | i::inserts =>
        if r < i then r::merged removed n cursor (i::inserts)
        else i::merged removed n (r::cursor) inserts
  | n+1, [], i::inserts => i::merged removed n [] inserts
  | _+1, [], [] => []

def query (s : Staging) (db : Db) (t : TableId) (q : Query) : Option (List RowId) :=
  if ¬s.Searchable db t q.keys then none
  else
    (db.query cat t q).map fun cursor =>
      let inserts := (s.rowsFor t).filter fun r => q.selects (db.keyOf r)
      merged (fun r => (t,r) ∈ s.removes) (cursor.length+inserts.length) cursor inserts

/-- `commit`: the inserts, then the updates, then the removals, whose rows are freed at the
end. -/
def commit (db : Db) : Option Db :=
  (db.insertAll cat s.inserts).bind fun db =>
  (db.updateAll cat s.updates).bind fun db =>
  (db.removeAll cat s.removes).map fun db => db.freeAll (s.removes.map Prod.snd)

def abort (_ : Staging) (db : Db) : Db := db

end Staging

def staged (db : Db) (s : Staging) : Op → Option ((Db × Staging) × Output)
  | .readColumn r c => (s.readColumn db r c).map fun v => ((db,s),.value v)
  | .writeColumn r c v => (s.writeColumn cat db r c v).map fun p => (p,.done)
  | .insertRow t r row => (s.insertRow db t r row).map fun p => (p,.done)
  | .removeRow t r => (s.removeRow db t r).map fun p => (p,.done)
  | .query t q => (s.query cat db t q).map fun l => ((db,s),.rows (Multiset.ofList l))

end Steps

structure Pair where
  initial : Db
  direct : Db
  staged : Db
  staging : Staging

/-- The keys that the containers of a table and of a staging area tell apart alike. -/
def Fit (info : TableInfo) (k : List Value) : Prop :=
  match info.kind with
  | .sorted => keyOrdered k = true
  | .unsorted => keyPlain k = true

instance (info : TableInfo) (k : List Value) : Decidable (Fit info k) := by
  unfold Fit
  split <;> infer_instance

namespace Pair

variable (cat : TableId → TableInfo)

/-- On rows that the program has not removed, on columns outside the key, with values and keys of
the right kinds. -/
def Legal (j : Pair) : Op → Prop
  | .readColumn r _ => (j.direct.rows r).isSome
  | .writeColumn r c v =>
    match j.direct.rows r with
    | some row => c ∉ row.schema.keys ∧
        ((row.schema.columns[c]?).any fun col => v.kind = col.kind) = true
    | none => False
  | .insertRow t r row => j.direct.rows r = none ∧ j.staged.rows r = none ∧ row.tbl = none ∧
      row.schema = (cat t).schema ∧ row.Typed
  | .removeRow t r =>
    match j.direct.rows r with
    | some row => row.tbl = some t
    | none => False
  | .query t q => q.allowed (cat t).kind = true ∧
      ∀ k ∈ q.keys, k.map (fun v => some v.kind) = (cat t).schema.keyKinds

/-- The keys of the tables stay in place and comparable: a string of a dense row keeps its length
if the key has strings. -/
def Apt (j : Pair) : Op → Prop
  | .writeColumn r c v =>
    match j.direct.rows r with
    | some row => row.schema.strKey = true → row.sparse = false →
        v.length = (row.values c).length
    | none => True
  | .insertRow t _ row => Fit (cat t) row.key
  | .query t q => ∀ k ∈ q.keys, Fit (cat t) k
  | _ => True

instance (j : Pair) (op : Op) : Decidable (j.Legal cat op) := by
  cases op <;> unfold Legal <;> (try dsimp only; split) <;> infer_instance

instance (j : Pair) (op : Op) : Decidable (j.Apt cat op) := by
  cases op <;> unfold Apt <;> (try dsimp only; split) <;> infer_instance

def step (j : Pair) (op : Op) : Option Pair :=
  (Memdb.direct cat j.direct op).bind fun d =>
    (Memdb.staged cat j.staged j.staging op).map fun s =>
      {j with direct := d.1, staged := s.1.1, staging := s.1.2}

end Pair

/-- Every row is in one table, under a key that can be read, or it is one of those in `L`, which go
to a table later. -/
structure Db.Valid (cat : TableId → TableInfo) (db : Db) (L : List (TableId × RowId)) :
    Prop where
  entry : ∀ t, ∀ e ∈ db.tables t, ∃ row, db.rows e.row = some row ∧ row.tbl = some t
  stored : ∀ r row t, db.rows r = some row → row.tbl = some t → r ∈ db.ids t
  home : ∀ r row t, db.rows r = some row → row.tbl = some t ∨ row.tbl = none ∧ (t,r) ∈ L →
    row.schema = (cat t).schema ∧ row.Typed ∧ Fit (cat t) row.key
  unfiled : ∀ r row, db.rows r = some row → row.tbl = none → ∃ t, (t,r) ∈ L
  loose : ∀ p ∈ L, ∃ row, db.rows p.2 = some row ∧ row.tbl = none
  readable : ∀ t, ∀ e ∈ db.tables t, db.readable cat t e = true
  nodup : ∀ t, (db.ids t).Nodup
  nodupLoose : (L.map Prod.snd).Nodup

def pairSystem (cat : TableId → TableInfo) : System Pair Op where
  init j := j.direct = j.initial ∧ j.staged = j.initial ∧ j.staging = {} ∧ j.initial.Valid cat []
  step j op := if j.Legal cat op then j.step cat op else none

section Valid

variable {cat : TableId → TableInfo} {db : Db} {L : List (TableId × RowId)} {t : TableId}
  {r : RowId} {row : Row}
variable {c : ℕ} {v : Value}

@[simp] theorem Db.setRow_rows (x : Option Row) :
    (db.setRow r x).rows = Function.update db.rows r x := rfl

@[simp] theorem Db.setRow_tables (x : Option Row) : (db.setRow r x).tables = db.tables := rfl

@[simp] theorem Db.setTable_rows (l : List Entry) : (db.setTable t l).rows = db.rows := rfl

@[simp] theorem Db.setTable_tables (l : List Entry) :
    (db.setTable t l).tables = Function.update db.tables t l := rfl

@[simp] theorem Db.ids_setRow (x : Option Row) : (db.setRow r x).ids = db.ids := rfl

theorem Db.ids_setTable (l : List Entry) (t' : TableId) :
    (db.setTable t l).ids t' = if t' = t then l.map Entry.row else db.ids t' := by
  by_cases ht : t' = t
  · subst ht
    simp [ids]
  · simp [ids,ht]

theorem Db.setRow_rows_eq_some {x : Option Row} {q : RowId} {row : Row} :
    (db.setRow r x).rows q = some row ↔ q = r ∧ x = some row ∨ q ≠ r ∧ db.rows q = some row := by
  by_cases hq : q = r
  · subst hq
    simp
  · simp [hq]

theorem Db.setRow_setTable_setRow (x y : Option Row) (l : List Entry) :
    (((db.setRow r x).setTable t l).setRow r y) = (db.setRow r y).setTable t l := by
  simp [setRow,setTable]

theorem Db.setRow_setRow (x y : Option Row) : (db.setRow r x).setRow r y = db.setRow r y := by
  simp [setRow]

/-- A row is at most once in a table, so taking it out is a filter. -/
theorem eraseP_row_eq_filter {l : List Entry} (h : (l.map Entry.row).Nodup) :
    (l.eraseP fun e => e.row = r) = l.filter fun e => e.row ≠ r := by
  induction l with
  | nil => rfl
  | cons e l ih =>
    rw [map_cons,nodup_cons] at h
    by_cases he : e.row = r
    · rw [eraseP_cons_of_pos (by simpa using he),filter_cons_of_neg (by simpa using he)]
      refine (filter_eq_self.mpr fun x hx => ?_).symm
      have hne : x.row ≠ e.row := fun hxe => h.1 (hxe ▸ mem_map_of_mem hx)
      simpa [he] using hne
    · rw [eraseP_cons_of_neg (by simpa using he),filter_cons_of_pos (by simpa using he),ih h.2]

theorem map_eraseP_row (l : List Entry) :
    (l.eraseP fun e => e.row = r).map Entry.row = (l.map Entry.row).erase r := by
  rw [erase_eq_eraseP,eraseP_map]
  congr 2
  funext e
  exact decide_eq_decide.mpr eq_comm

theorem Fit.ordered {info : TableInfo} {k : List Value} (h : Fit info k) : keyOrdered k = true := by
  unfold Fit at h
  split at h
  · exact h
  · exact keyOrdered_of_plain h

/-- An entry can be read as long as its row does not turn sparse under it. -/
theorem Db.readable_iff {e : Entry} (hrow : db.rows e.row = some row) : db.readable cat t e = true ↔
      ((cat t).schema.strKey = true → e.dense = true → row.sparse = false) := by
  simp only [readable,hrow]
  cases e.dense <;> cases row.sparse <;> cases (cat t).schema.strKey <;> decide

namespace Db.Valid

theorem mem_ids (h : db.Valid cat L) :
    r ∈ db.ids t ↔ ∃ row, db.rows r = some row ∧ row.tbl = some t := by
  constructor
  · intro hr
    obtain ⟨e,he,rfl⟩ := mem_map.mp hr
    exact h.entry t e he
  · rintro ⟨row,hrow,htbl⟩
    exact h.stored r row t hrow htbl

variable {L' : List (TableId × RowId)}

section

variable (h : db.Valid cat L)
include h

theorem of_perm (hL : L.Perm L') : db.Valid cat L' where
  entry := h.entry
  stored := h.stored
  home r row t hrow ht := h.home r row t hrow (ht.imp_right fun ht => ⟨ht.1,hL.mem_iff.mpr ht.2⟩)
  unfiled r row hrow ht := by
    obtain ⟨t,htr⟩ := h.unfiled r row hrow ht
    exact ⟨t,hL.mem_iff.mp htr⟩
  loose p hp := h.loose p (hL.mem_iff.mpr hp)
  readable := h.readable
  nodup := h.nodup
  nodupLoose := (hL.map Prod.snd).nodup_iff.mp h.nodupLoose

theorem searchable {ks : List (List Value)}
    (hks : ∀ k ∈ ks, Fit (cat t) k) : db.Searchable cat t ks := by
  refine ⟨h.readable t,fun _ k hk => ?_⟩
  rcases mem_append.mp hk with hk | hk
  · exact (hks k hk).ordered
  · obtain ⟨r,hr,rfl⟩ := mem_map.mp hk
    obtain ⟨row,hrow,htbl⟩ := h.mem_ids.mp hr
    rw [keyOf,hrow]
    exact (h.home r row t hrow (.inl htbl)).2.2.ordered

theorem tbl_of_entry (hrow : db.rows r = some row) {e : Entry}
    (he : e ∈ db.tables t) (hx : e.row = r) : row.tbl = some t := by
  obtain ⟨z,hz,hzt⟩ := h.entry t e he
  rw [hx,hrow] at hz
  cases hz
  exact hzt

theorem tbl_of_loose (hrow : db.rows r = some row) {p : TableId × RowId}
    (hp : p ∈ L) (hx : p.2 = r) : row.tbl = none := by
  obtain ⟨z,hz,hzt⟩ := h.loose p hp
  rw [hx,hrow] at hz
  cases hz
  exact hzt

/-- A row may change where it stands, if its key stays and stays in place. -/
theorem setRow (row' : Row) (hrow : db.rows r = some row)
    (hschema : row'.schema = row.schema) (htbl : row'.tbl = row.tbl) (hkey : row'.key = row.key)
    (htyped : row'.Typed)
    (hsparse : row.tbl ≠ none → row.schema.strKey = true → row'.sparse = row.sparse) :
    (db.setRow r (some row')).Valid cat L := by
  have hold : ∀ x y, (db.setRow r (some row')).rows x = some y →
      ∃ z, db.rows x = some z ∧ y.tbl = z.tbl ∧ y.schema = z.schema ∧ y.key = z.key ∧
        (z.Typed → y.Typed) := by
    intro x y hxy
    rcases setRow_rows_eq_some.mp hxy with ⟨rfl,heq⟩ | ⟨-,hy⟩
    · cases heq
      exact ⟨row,hrow,htbl,hschema,hkey,fun _ => htyped⟩
    · exact ⟨y,hy,rfl,rfl,rfl,id⟩
  have hnew : ∀ x z, db.rows x = some z →
      ∃ y, (db.setRow r (some row')).rows x = some y ∧ y.tbl = z.tbl := by
    intro x z hz
    by_cases hx : x = r
    · subst hx
      rw [hrow,some.injEq] at hz
      exact ⟨row',setRow_rows_eq_some.mpr (.inl ⟨rfl,rfl⟩),hz ▸ htbl⟩
    · exact ⟨z,setRow_rows_eq_some.mpr (.inr ⟨hx,hz⟩),rfl⟩
  refine ⟨?_,?_,?_,?_,?_,?_,h.nodup,h.nodupLoose⟩
  · intro t e he
    obtain ⟨z,hz,hzt⟩ := h.entry t e he
    obtain ⟨y,hy,hyt⟩ := hnew e.row z hz
    exact ⟨y,hy,hyt.trans hzt⟩
  · intro x y t hy hyt
    obtain ⟨z,hz,hyz,-⟩ := hold x y hy
    exact h.stored x z t hz (hyz ▸ hyt)
  · intro x y t hy hyt
    obtain ⟨z,hz,hyz,hs,hk,hty⟩ := hold x y hy
    obtain ⟨h₁,h₂,h₃⟩ := h.home x z t hz (by rwa [← hyz])
    exact ⟨hs.trans h₁,hty h₂,hk ▸ h₃⟩
  · intro x y hy hyt
    obtain ⟨z,hz,hyz,-⟩ := hold x y hy
    exact h.unfiled x z hz (hyz ▸ hyt)
  · intro p hp
    obtain ⟨z,hz,hzt⟩ := h.loose p hp
    obtain ⟨y,hy,hyt⟩ := hnew p.2 z hz
    exact ⟨y,hy,hyt.trans hzt⟩
  · intro t e he
    obtain ⟨z,hz,hzt⟩ := h.entry t e he
    have hread := (readable_iff hz).mp (h.readable t e he)
    by_cases hx : e.row = r
    · have hzr : row = z := some.inj (hrow.symm.trans (hx ▸ hz))
      subst hzr
      refine (readable_iff (setRow_rows_eq_some.mpr (.inl ⟨hx,rfl⟩))).mpr fun hstr hdense => ?_
      have hs := (h.home r row t hrow (.inl hzt)).1
      rw [hsparse (by rw [hzt]; simp) (by rw [hs,hstr])]
      exact hread hstr hdense
    · exact (readable_iff (setRow_rows_eq_some.mpr (.inr ⟨hx,hz⟩))).mpr hread

theorem discard (r : RowId) :
    Db.Valid cat ⟨Function.update db.rows r none,fun t => (db.tables t).filter fun e => e.row ≠ r⟩
      (L.filter fun p => p.2 ≠ r) := by
  have hrows : ∀ x y, Function.update db.rows r none x = some y ↔ x ≠ r ∧ db.rows x = some y := by
    intro x y
    simpa using setRow_rows_eq_some (x:=none)
  refine ⟨?_,?_,?_,?_,?_,?_,?_,?_⟩
  · intro t e he
    obtain ⟨he,hx⟩ := mem_filter.mp he
    obtain ⟨z,hz,hzt⟩ := h.entry t e he
    exact ⟨z,(hrows _ _).mpr ⟨by simpa using hx,hz⟩,hzt⟩
  · intro x y t hy hyt
    obtain ⟨hx,hy⟩ := (hrows x y).mp hy
    obtain ⟨e,he,rfl⟩ := mem_map.mp (h.stored x y t hy hyt)
    exact mem_map_of_mem (mem_filter.mpr ⟨he,by simpa using hx⟩)
  · intro x y t hy hyt
    exact h.home x y t ((hrows x y).mp hy).2
      (hyt.imp_right fun hyt => ⟨hyt.1,mem_of_mem_filter hyt.2⟩)
  · intro x y hy hyt
    obtain ⟨hx,hy⟩ := (hrows x y).mp hy
    obtain ⟨t,ht⟩ := h.unfiled x y hy hyt
    exact ⟨t,mem_filter.mpr ⟨ht,by simpa using hx⟩⟩
  · intro p hp
    obtain ⟨hp,hx⟩ := mem_filter.mp hp
    obtain ⟨z,hz,hzt⟩ := h.loose p hp
    exact ⟨z,(hrows _ _).mpr ⟨by simpa using hx,hz⟩,hzt⟩
  · intro t e he
    obtain ⟨he,hx⟩ := mem_filter.mp he
    obtain ⟨z,hz,-⟩ := h.entry t e he
    exact (readable_iff ((hrows _ _).mpr ⟨by simpa using hx,hz⟩)).mpr
      ((readable_iff hz).mp (h.readable t e he))
  · exact fun t => (filter_sublist.map Entry.row).nodup (h.nodup t)
  · exact (filter_sublist.map Prod.snd).nodup h.nodupLoose

end

theorem free (h : db.Valid cat ((t,r)::L)) : (db.setRow r none).Valid cat L := by
  obtain ⟨row,hrow,htbl⟩ := h.loose (t,r) mem_cons_self
  have hL : ((t,r)::L).filter (fun p => p.2 ≠ r) = L := by
    rw [filter_cons_of_neg (by simp)]
    refine filter_eq_self.mpr fun p hp => ?_
    simpa using fun hx => (nodup_cons.mp h.nodupLoose).1 (mem_map.mpr ⟨p,hp,hx⟩)
  have htables : (fun t => (db.tables t).filter fun e => e.row ≠ r) = db.tables := by
    funext t'
    refine filter_eq_self.mpr fun e he => ?_
    simpa using fun hx => nomatch htbl.symm.trans (h.tbl_of_entry hrow he hx)
  have hdiscarded := h.discard r
  rwa [hL,htables] at hdiscarded

theorem forget (h : db.Valid cat L) (hrow : db.rows r = some row) (htbl : row.tbl = some t) :
    ((db.setRow r none).setTable t ((db.tables t).eraseP fun e => e.row = r)).Valid cat L := by
  have hL : L.filter (fun p => p.2 ≠ r) = L := by
    refine filter_eq_self.mpr fun p hp => ?_
    simpa using fun hx => nomatch htbl.symm.trans (h.tbl_of_loose hrow hp hx)
  have htables : (fun t => (db.tables t).filter fun e => e.row ≠ r) =
      Function.update db.tables t ((db.tables t).eraseP fun e => e.row = r) := by
    refine (update_eq_iff.mpr ⟨eraseP_row_eq_filter (h.nodup t),fun t' ht => ?_⟩).symm
    refine (filter_eq_self.mpr fun e he => ?_).symm
    simpa using fun hx => ht (some.inj ((h.tbl_of_entry hrow he hx).symm.trans htbl))
  have hdiscarded := h.discard r
  rwa [hL,htables] at hdiscarded

theorem add (h : db.Valid cat L) (hfresh : db.rows r = none) {T : TableId → List Entry}
    (htbl : row.tbl = none ∨ row.tbl = some t)
    (hT : ∀ t' e, e ∈ T t' ↔ e ∈ db.tables t' ∨ row.tbl = some t' ∧ e = ⟨r,!row.sparse⟩)
    (hL : ∀ p, p ∈ L' ↔ p ∈ L ∨ row.tbl = none ∧ p = (t,r))
    (hnodup : ∀ t, ((T t).map Entry.row).Nodup) (hnodupLoose : (L'.map Prod.snd).Nodup)
    (hschema : row.schema = (cat t).schema) (htyped : row.Typed) (hfit : Fit (cat t) row.key) :
    Db.Valid cat ⟨Function.update db.rows r (some row),T⟩ L' := by
  have hself : (db.setRow r (some row)).rows r = some row := update_self ..
  have hnew : ∀ {x z}, db.rows x = some z → (db.setRow r (some row)).rows x = some z := by
    intro x z hz
    refine setRow_rows_eq_some.mpr (.inr ⟨?_,hz⟩)
    rintro rfl
    cases hfresh.symm.trans hz
  refine ⟨?_,?_,?_,?_,?_,?_,hnodup,hnodupLoose⟩
  · intro t' e he
    rcases (hT t' e).mp he with he | ⟨ht,rfl⟩
    · obtain ⟨z,hz,hzt⟩ := h.entry t' e he
      exact ⟨z,hnew hz,hzt⟩
    · exact ⟨row,hself,ht⟩
  · intro x y t' hy hyt
    rcases setRow_rows_eq_some.mp hy with ⟨rfl,heq⟩ | ⟨-,hy⟩
    · cases heq
      exact mem_map_of_mem ((hT _ _).mpr (.inr ⟨hyt,rfl⟩))
    · obtain ⟨e,he,rfl⟩ := mem_map.mp (h.stored x y t' hy hyt)
      exact mem_map_of_mem ((hT _ _).mpr (.inl he))
  · intro x y t' hy hyt
    rcases setRow_rows_eq_some.mp hy with ⟨rfl,heq⟩ | ⟨hx,hy⟩
    · cases heq
      obtain rfl : t = t' := by
        rcases hyt with hyt | ⟨-,hmem⟩
        · simpa [hyt,eq_comm] using htbl
        · rcases (hL _).mp hmem with hmem | ⟨-,heq⟩
          · obtain ⟨z,hz,-⟩ := h.loose _ hmem
            cases hfresh.symm.trans hz
          · exact (Prod.mk.inj heq).1.symm
      exact ⟨hschema,htyped,hfit⟩
    · refine h.home x y t' hy (hyt.imp_right fun hyt => ⟨hyt.1,((hL _).mp hyt.2).resolve_right ?_⟩)
      exact fun heq => hx (Prod.mk.inj heq.2).2
  · intro x y hy hyt
    rcases setRow_rows_eq_some.mp hy with ⟨rfl,heq⟩ | ⟨-,hy⟩
    · cases heq
      exact ⟨t,(hL _).mpr (.inr ⟨hyt,rfl⟩)⟩
    · obtain ⟨t',ht'⟩ := h.unfiled x y hy hyt
      exact ⟨t',(hL _).mpr (.inl ht')⟩
  · intro p hp
    rcases (hL p).mp hp with hp | ⟨hnone,rfl⟩
    · obtain ⟨z,hz,hzt⟩ := h.loose p hp
      exact ⟨z,hnew hz,hzt⟩
    · exact ⟨row,hself,hnone⟩
  · intro t' e he
    rcases (hT t' e).mp he with he | ⟨-,rfl⟩
    · obtain ⟨z,hz,-⟩ := h.entry t' e he
      have hz' : (db.setRow r (some row)).rows e.row = some z := hnew hz
      exact (readable_iff hz').mpr ((readable_iff hz).mp (h.readable t' e he))
    · exact (readable_iff (e:=⟨r,!row.sparse⟩) hself).mpr fun _ hdense => by simpa using hdense

theorem stage (h : db.Valid cat L) (hfresh : db.rows r = none) (htbl : row.tbl = none)
    (hschema : row.schema = (cat t).schema) (htyped : row.Typed) (hfit : Fit (cat t) row.key) :
    (db.setRow r (some row)).Valid cat ((t,r)::L) := by
  refine h.add hfresh (.inl htbl) (by simp [htbl]) (by simp [htbl,or_comm]) h.nodup ?_ hschema
    htyped hfit
  rw [map_cons,nodup_cons]
  refine ⟨fun hmem => ?_,h.nodupLoose⟩
  obtain ⟨p,hp,rfl⟩ := mem_map.mp hmem
  obtain ⟨z,hz,-⟩ := h.loose p hp
  cases hfresh.symm.trans hz

theorem file (h : db.Valid cat ((t,r)::L)) (hrow : db.rows r = some row) :
    ((db.setRow r (some {row with tbl := some t})).setTable t
      (db.tables t++[⟨r,!row.sparse⟩])).Valid cat L := by
  have htbl : row.tbl = none := h.tbl_of_loose hrow mem_cons_self rfl
  obtain ⟨hschema,htyped,hfit⟩ := h.home r row t hrow (.inr ⟨htbl,mem_cons_self⟩)
  have hnodup : ∀ t', ((db.setTable t (db.tables t++[⟨r,!row.sparse⟩])).ids t').Nodup := by
    intro t'
    rw [ids_setTable]
    split_ifs
    · rw [map_append,map_singleton,nodup_append]
      refine ⟨h.nodup t,nodup_singleton _,fun x hx y hy hxy => ?_⟩
      obtain ⟨e,he,rfl⟩ := mem_map.mp hx
      cases htbl.symm.trans (h.tbl_of_entry hrow he (hxy.trans (mem_singleton.mp hy)))
    · exact h.nodup t'
  have htables : ∀ t' e, e ∈ (db.setTable t (db.tables t++[⟨r,!row.sparse⟩])).tables t' ↔
      e ∈ db.tables t' ∨ some t = some t' ∧ e = ⟨r,!row.sparse⟩ := by
    intro t' e
    by_cases ht : t' = t
    · subst ht
      simp
    · simp [ht,Ne.symm ht]
  have hstored : Db.Valid cat ⟨Function.update (db.setRow r none).rows r
      (some {row with tbl := some t}),_⟩ L := h.free.add (update_self ..) (.inr rfl) htables
    (by simp) hnodup h.free.nodupLoose hschema htyped hfit
  simpa [setTable,setRow] using hstored

theorem unfile (h : db.Valid cat L) (hrow : db.rows r = some row) (htbl : row.tbl = some t) :
    ((db.setRow r (some {row with tbl := none})).setTable t
      ((db.tables t).eraseP fun e => e.row = r)).Valid cat ((t,r)::L) := by
  obtain ⟨hschema,htyped,hfit⟩ := h.home r row t hrow (.inl htbl)
  have hstaged : (((db.setRow r none).setTable t _).setRow r (some {row with tbl := none})).Valid
      cat ((t,r)::L) :=
    (h.forget hrow htbl).stage (update_self ..) rfl hschema htyped hfit
  rwa [setRow_setTable_setRow] at hstaged

end Db.Valid

/-! What the operations on tables do to valid ones. -/

theorem Query.selectsIn_self (kind : TableKind) (k : List Value) :
    Query.selectsIn kind (.key k) k = true := by
  cases kind with
  | sorted =>
    have hself := compareKey_eq_iff.mp (compareKey_self k)
    simp [selectsIn,selects,hself.1]
  | unsorted => simp [selectsIn]

theorem Row.store_self (c : ℕ) : row.store c (row.values c) = row := by
  simp [store]

theorem Row.store_key (hc : c ∉ row.schema.keys) : (row.store c v).key = row.key := by
  refine map_congr_left fun c' hc' => update_of_ne ?_ _ _
  rintro rfl
  exact hc hc'

theorem Row.Typed.store (h : row.Typed)
    (hcol : ((row.schema.columns[c]?).any fun col => v.kind = col.kind) = true) :
    (row.store c v).Typed := by
  intro p hp
  by_cases hpc : p.2 = c
  · obtain ⟨col,i⟩ := p
    subst hpc
    have hget : row.schema.columns[i]? = some col := mem_zipIdx_iff_getElem?.mp hp
    simpa [Row.store,hget] using hcol
  · have hval : (row.store c v).values p.2 = row.values p.2 := update_of_ne hpc _ _
    rw [hval]
    exact h p hp

namespace Db.Valid

theorem query_eq (h : db.Valid cat L) {q : Query} (hall : q.allowed (cat t).kind = true)
    (hfit : ∀ k ∈ q.keys, Fit (cat t) k) :
    db.query cat t q = some ((db.ids t).filter fun r => q.selectsIn (cat t).kind (db.keyOf r)) := by
  have hs := h.searchable hfit
  have hnall : ¬q.allowed (cat t).kind = false := by rw [hall]; decide
  unfold query
  rw [if_neg hnall]
  cases q with
  | all => cases (cat t).kind <;> simp [Query.selectsIn,Query.selects]
  | _ => exact if_pos hs

theorem insert_eq (h : db.Valid cat ((t,r)::L)) (hrow : db.rows r = some row) :
    db.insert cat t r = some ((db.setRow r (some {row with tbl := some t})).setTable t
      (db.tables t++[⟨r,!row.sparse⟩])) := by
  obtain ⟨z,hz,htbl⟩ := h.loose (t,r) mem_cons_self
  cases some.inj (hrow.symm.trans hz)
  obtain ⟨hschema,-,hfit⟩ := h.home r row t hrow (.inr ⟨htbl,mem_cons_self⟩)
  have hs : db.Searchable cat t [row.key] := h.searchable (by simpa using hfit)
  rw [insert,hrow]
  exact if_neg (by simp [hschema,htbl,hs])

theorem remove_eq (h : db.Valid cat L) (hrow : db.rows r = some row) (htbl : row.tbl = some t)
    (free : Bool) :
    db.remove cat t r free =
      some ((db.setRow r (if free then none else some {row with tbl := none})).setTable t
        ((db.tables t).eraseP fun e => e.row = r)) := by
  have hs : db.Searchable cat t [row.key] :=
    h.searchable (by simpa using (h.home r row t hrow (.inl htbl)).2.2)
  have hmem : r ∈ (db.ids t).filter
      fun x => Query.selectsIn (cat t).kind (.key row.key) (db.keyOf x) := by
    refine mem_filter.mpr ⟨h.stored r row t hrow htbl,?_⟩
    rw [keyOf,hrow]
    exact Query.selectsIn_self _ _
  rw [remove,hrow]
  simp only [hs,not_true_eq_false,if_false,hmem,if_true]

theorem update_spec (h : db.Valid cat L) (hrow : db.rows r = some row) {c : ℕ} {v : Value}
    (hc : c ∉ row.schema.keys)
    (hcol : ((row.schema.columns[c]?).any fun col => v.kind = col.kind) = true)
    (hsparse : row.tbl ≠ none → row.schema.strKey = true → (row.store c v).sparse = row.sparse) :
    ∃ db', db.update cat r c v = some db' ∧
      db'.rows = Function.update db.rows r (some (row.store c v)) ∧
      (∀ t, (db'.ids t).Perm (db.ids t)) ∧ (row.tbl = none → db'.tables = db.tables) ∧
      db'.Valid cat L := by
  have htyped : row.Typed := by
    cases htbl : row.tbl with
    | none =>
      obtain ⟨t,ht⟩ := h.unfiled r row hrow htbl
      exact (h.home r row t hrow (.inr ⟨htbl,ht⟩)).2.1
    | some t => exact (h.home r row t hrow (.inl htbl)).2.1
  have hkey : (row.store c v).key = row.key := Row.store_key hc
  have hplain := h.setRow (row.store c v) hrow rfl rfl hkey (htyped.store hcol) hsparse
  obtain ⟨col,hget,hkind⟩ : ∃ col, row.schema.columns[c]? = some col ∧ v.kind = col.kind := by
    cases hget : row.schema.columns[c]? with
    | none => simp [hget] at hcol
    | some col => exact ⟨col,rfl,by simpa [hget] using hcol⟩
  simp only [update,hrow,hget,hkind,ne_eq,not_true_eq_false,if_false]
  split_ifs with hsame
  · subst hsame
    refine ⟨db,rfl,?_,fun t => List.Perm.refl _,fun _ => rfl,h⟩
    rw [Row.store_self,← hrow,update_eq_self]
  split
  · rename_i t hidx htbl
    rw [h.remove_eq hrow htbl,bind_some]
    have hloose := h.unfile hrow htbl
    have hrow₁ : ((db.setRow r (some {row with tbl := none})).setTable t
        ((db.tables t).eraseP fun e => e.row = r)).rows r = some {row with tbl := none} :=
      update_self ..
    have hstored := hloose.setRow {row.store c v with tbl := none} hrow₁ rfl rfl hkey
      (htyped.store hcol) fun hne => absurd rfl hne
    refine ⟨_,hstored.insert_eq (update_self ..),?_,?_,
      fun hnone => absurd (htbl.symm.trans hnone) (by simp),
      hstored.file (update_self ..)⟩
    · have hback : ({({row.store c v with tbl := none} : Row) with tbl := some t}) =
          row.store c v := by
        rw [← htbl]
        rfl
      simp [hback]
    · intro t'
      rw [ids_setTable]
      split_ifs with ht
      · subst ht
        simp only [setRow_tables,setTable_tables,update_self,map_append,
          map_eraseP_row,map_singleton]
        exact (perm_append_singleton _ _).trans (perm_cons_erase (h.stored r row t' hrow htbl)).symm
      · rw [ids_setRow,ids_setRow,ids_setTable,if_neg ht]
        rfl
  · exact ⟨_,rfl,rfl,fun t => List.Perm.refl _,fun _ => rfl,hplain⟩

end Db.Valid

end Valid

end Janus.Memdb
