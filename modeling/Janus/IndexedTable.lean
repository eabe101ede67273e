import Janus.Containers
import Janus.StagedTxn

/-! Sorted tables with secondary indices (`IndexedTable`), which are sorted tables too. An index
row holds the values of the indexed columns and a pointer to the master index of the base row, a
vector of the index rows with the base row at its back. A hidden column of the base row points to
it. -/
namespace Janus.Memdb

open Transition

/-- `IndexedSchema`: the kinds of the visible columns, the key and the columns of each
index, which `index_sanity_check` has looked at. -/
structure IndexedSchema where
  columns : List Kind
  keys : List ℕ
  indices : List (List ℕ)
  keys_lt : ∀ c ∈ keys, c < columns.length
  indices_lt : ∀ idx ∈ indices, ∀ c ∈ idx, c < columns.length

namespace IndexedSchema

/-- `indexed` is set by `add_key_column` and by `add_index`. -/
def indexed (S : IndexedSchema) (c : ℕ) : Bool :=
  c ∈ S.keys || S.indices.any fun idx => c ∈ idx

def schema (S : IndexedSchema) : Schema :=
  ⟨S.columns.zipIdx.map fun p => ⟨p.1,S.indexed p.2⟩,S.keys⟩

def getIndex (S : IndexedSchema) (i : ℕ) : List ℕ := S.indices.getD i []

def affected (S : IndexedSchema) (c : ℕ) : List ℕ :=
  (List.range S.indices.length).filter fun i => c ∈ S.getIndex i

def catalog (S : IndexedSchema) : TableId → TableInfo := fun _ => ⟨.sorted,S.schema⟩

end IndexedSchema

abbrev MasterId := ℕ

structure IndexRow where
  key : List Value
  master : MasterId
  deriving DecidableEq

/-- `master_index`. An index row is known by its index and its master index, so a slot
holds its key. -/
structure Master where
  slots : ℕ → Option (List Value)
  back : RowId

structure IndexedTable where
  db : Db
  /-- The hidden column. It is zero in a new row. -/
  hidden : RowId → Option MasterId
  masters : MasterId → Option Master
  index : ℕ → List IndexRow

def insertSorted (e : IndexRow) : List IndexRow → List IndexRow
  | [] => [e]
  | x::l => if keyLt e.key x.key then e::x::l else x::insertSorted e l

def IndexRow.hit (e x : IndexRow) : Bool := compareKey x.key e.key = .eq && x.master = e.master

namespace IndexedTable

variable (S : IndexedSchema)

variable (s : IndexedTable)

def setMaster (m : MasterId) (M : Option Master) : IndexedTable :=
  {s with masters := Function.update s.masters m M}

def setIndex (i : ℕ) (l : List IndexRow) : IndexedTable :=
  {s with index := Function.update s.index i l}

def Searchable (i : ℕ) (ks : List (List Value)) : Prop :=
  ∀ k ∈ ks++(s.index i).map IndexRow.key, keyOrdered k = true

instance (s : IndexedTable) (i : ℕ) (ks : List (List Value)) : Decidable (s.Searchable i ks) :=
  inferInstanceAs (Decidable (∀ k ∈ _, _))

/-- `make_index_row` and the insertion into the table of the index. The slot must be free. -/
def addIndexRow (r : RowId) (m : MasterId) (i : ℕ) : Option IndexedTable :=
  match s.db.rows r,s.masters m with
  | some row,some M =>
    let key := (S.getIndex i).map row.values
    if M.slots i ≠ none ∨ ¬s.Searchable i [key] then none
    else some ((s.setMaster m (some {M with slots := Function.update M.slots i (some key)})).setIndex
      i (insertSorted ⟨key,m⟩ (s.index i)))
  | _,_ => none

def addIndexRows (r : RowId) (m : MasterId) : List ℕ → IndexedTable → Option IndexedTable
  | [], s => some s
  | i::is, s => (s.addIndexRow S r m i).bind (addIndexRows r m is)

def dropIndexRow (m : MasterId) (i : ℕ) : Option IndexedTable :=
  match s.masters m with
  | none => none
  | some M =>
    match M.slots i with
    | none => none
    | some key =>
      if ¬s.Searchable i [key] then none
      else some ((s.setMaster m (some {M with slots := Function.update M.slots i none})).setIndex
        i ((s.index i).eraseP (IndexRow.hit ⟨key,m⟩)))

def dropIndexRows (m : MasterId) : List ℕ → IndexedTable → Option IndexedTable
  | [], s => some s
  | i::is, s => (s.dropIndexRow m i).bind (dropIndexRows m is)

def destroySecondaryIndices (m : MasterId) : Option IndexedTable :=
  (dropIndexRows m (List.range S.indices.length) s).map fun s => s.setMaster m none

def insertBase (r : RowId) : Option IndexedTable :=
  (s.db.insert S.catalog 0 r).map fun db => {s with db := db}

/-- `IndexedTable::insert`. Only a row with a zero in its hidden column gets a master index,
at the address `m`, and index rows. -/
def insert (r : RowId) (m : MasterId) : Option IndexedTable :=
  match s.hidden r with
  | some _ => s.insertBase S r
  | none =>
    (addIndexRows S r m (List.range S.indices.length)
      (s.setMaster m (some ⟨fun _ => none,r⟩))).bind fun s =>
        insertBase S {s with hidden := Function.update s.hidden r (some m)} r

def eraseEntry (r : RowId) (x : Option Row) : IndexedTable :=
  {s with db := (s.db.setRow r x).setTable 0 ((s.db.tables 0).eraseP fun e => e.row = r)}

def removeAt (r : RowId) (free : Bool) : Option IndexedTable :=
  match s.db.rows r with
  | none => none
  | some row =>
    if free then
      (s.hidden r).bind fun m => (s.destroySecondaryIndices S m).map fun s => s.eraseEntry r none
    else some (s.eraseEntry r (some {row with tbl := none}))

def removeAtAll : List RowId → IndexedTable → Option IndexedTable
  | [], s => some s
  | r::l, s => (s.removeAt S r true).bind (removeAtAll l)

def remove (r : RowId) (free : Bool) : Option IndexedTable :=
  match s.db.rows r with
  | none => none
  | some row =>
    if ¬s.db.Searchable S.catalog 0 [row.key] then none
    else if r ∈ (s.db.ids 0).filter fun x => Query.selects (.key row.key) (s.db.keyOf x) then
      s.removeAt S r free
    else some s

def removeEach (free : Bool) : List RowId → IndexedTable → Option IndexedTable
  | [], s => some s
  | r::l, s => (s.remove S r free).bind (removeEach free l)

def removeKey (k : List Value) : Option IndexedTable :=
  (s.db.query S.catalog 0 (.key k)).bind fun l => removeAtAll S l s

def cursor (i : ℕ) (q : Query) : Option (List RowId) :=
  if q.allowed .sorted = false ∨ q.keys ≠ [] ∧ ¬s.Searchable i q.keys then none
  else ((s.index i).filter fun e => q.selects e.key).mapM fun e =>
    (s.masters e.master).map Master.back

def removeCursor (i : ℕ) (q : Query) : Option IndexedTable :=
  (s.cursor i q).bind fun l => removeEach S true l s

def clear : IndexedTable :=
  {s with db := (s.db.freeAll (s.db.ids 0)).setTable 0 []}

def notifyBeforeUpdate (r : RowId) (c : ℕ) : Option IndexedTable :=
  (s.hidden r).bind fun m => dropIndexRows m (S.affected c) s

def notifyAfterUpdate (r : RowId) (c : ℕ) : Option IndexedTable :=
  (s.hidden r).bind fun m => addIndexRows S r m (S.affected c) s

/-- `Row::update` of a row of the table. The hidden column is set on the next insertion, so no
address is taken for a master index. -/
def update (r : RowId) (c : ℕ) (v : Value) : Option IndexedTable :=
  match s.db.rows r with
  | none => none
  | some row =>
    match row.schema.columns[c]? with
    | none => none
    | some col =>
      if v.kind ≠ col.kind then none
      else if row.values c = v then some s
      else if col.indexed = true ∧ row.tbl = some 0 then
        (s.notifyBeforeUpdate S r c).bind fun s =>
        (s.remove S r false).bind fun s =>
        (insert S {s with db := s.db.setRow r (some {row.store c v with tbl := none})} r 0).bind
          fun s => s.notifyAfterUpdate S r c
      else some {s with db := s.db.setRow r (some (row.store c v))}

/-- Where an inserted row is from: `Row::create`, or `Row::copy` of another row. -/
inductive Origin
  | fresh (row : Row)
  | copy (r : RowId)

/-- The row on the heap. A copy is dense and outside every table; the hidden column is
copied with the others. -/
def place (r : RowId) : Origin → Option IndexedTable
  | .fresh row => some {s with
      db := s.db.setRow r (some row)
      hidden := Function.update s.hidden r none}
  | .copy x => (s.db.rows x).map fun row => {s with
      db := s.db.setRow r (some {row with sparse := false, tbl := none})
      hidden := Function.update s.hidden r (s.hidden x)}

structure Insertion where
  row : RowId
  origin : Origin
  master : MasterId

def insertNew (a : Insertion) : Option IndexedTable :=
  (s.place a.row a.origin).bind fun s => s.insert S a.row a.master

/-! `Txn2PL::commit`: the staged inserts, then the updates, then the removals, whose rows
are freed at the end. -/

def insertEach : List Insertion → IndexedTable → Option IndexedTable
  | [], s => some s
  | a::l, s => (s.insertNew S a).bind (insertEach l)

def updateEach : List (RowId × ℕ × Value) → IndexedTable → Option IndexedTable
  | [], s => some s
  | u::l, s => (s.update S u.1 u.2.1 u.2.2).bind (updateEach l)

def commit (inserts : List Insertion) (updates : List (RowId × ℕ × Value))
    (removes : List RowId) : Option IndexedTable :=
  (insertEach S inserts s).bind fun s =>
  (updateEach S updates s).bind fun s =>
  (removeEach S false removes s).map fun s => {s with db := s.db.freeAll removes}

inductive Op
  | insert (a : Insertion)
  | update (r : RowId) (c : ℕ) (v : Value)
  | removeKey (k : List Value)
  | removeRow (r : RowId)
  | removeCursor (i : ℕ) (q : Query)
  | clear
  | commit (inserts : List Insertion) (updates : List (RowId × ℕ × Value)) (removes : List RowId)

def apply : Op → Option IndexedTable
  | .insert a => s.insertNew S a
  | .update r c v => s.update S r c v
  | .removeKey k => s.removeKey S k
  | .removeRow r => s.remove S r true
  | .removeCursor i q => s.removeCursor S i q
  | .clear => some s.clear
  | .commit inserts updates removes => s.commit S inserts updates removes

/-- An insert that a program can make: at free addresses, of a new row of the schema or of
a copy of a row of the table. -/
def Insertion.Legal (a : Insertion) : Prop :=
  s.db.rows a.row = none ∧ s.masters a.master = none ∧
    match a.origin with
    | .fresh row => row.tbl = none ∧ row.schema = S.schema ∧ row.Typed
    | .copy x => x ∈ s.db.ids 0

def UpdateLegal (u : RowId × ℕ × Value) : Prop :=
  u.1 ∈ s.db.ids 0 ∧ S.columns[u.2.1]? = some u.2.2.kind

/-- The operations that a program can make next. A transaction has one update at most for
a column of a row. -/
def Legal (s : IndexedTable) : Op → Prop
  | .insert a => a.Legal S s
  | .update r c v => s.UpdateLegal S (r,c,v)
  | .removeKey k => k.map (fun v => some v.kind) = S.schema.keyKinds
  | .removeRow r => r ∈ s.db.ids 0
  | .removeCursor i q => i < S.indices.length ∧ q.allowed .sorted = true ∧
      ∀ k ∈ q.keys, k.map (fun v => some v.kind) = (S.getIndex i).map fun c => S.columns[c]?
  | .clear => True
  | .commit inserts updates removes =>
    (∀ a ∈ inserts, a.Legal S s) ∧ (inserts.map Insertion.row).Nodup ∧
      (inserts.map Insertion.master).Nodup ∧ (∀ u ∈ updates, s.UpdateLegal S u) ∧
      (updates.map fun u => (u.1,u.2.1)).Nodup ∧ (∀ r ∈ removes, r ∈ s.db.ids 0) ∧ removes.Nodup

def Fine (row : Row) : Prop :=
  ∀ c ∈ List.range S.columns.length, S.indexed c = true → (row.values c).ordered = true

def Insertion.Apt (a : Insertion) : Prop :=
  match a.origin with
  | .fresh row => Fine S row
  | .copy _ => False

/-- The update brings no NaN into the key or an index, and does not move the strings of a
key without filing the row anew. -/
def UpdateApt (u : RowId × ℕ × Value) : Prop :=
  (S.indexed u.2.1 = true → u.2.2.ordered = true) ∧
    (S.indexed u.2.1 = false → S.schema.strKey = true →
      ∀ row ∈ s.db.rows u.1, row.sparse = false → u.2.2.length = (row.values u.2.1).length)

def Apt (s : IndexedTable) : Op → Prop
  | .insert a => a.Apt S
  | .update r c v => s.UpdateApt S (r,c,v)
  | .removeKey k => keyOrdered k = true
  | .removeRow _ => True
  | .removeCursor _ q => ∀ k ∈ q.keys, keyOrdered k = true
  | .clear => s.db.ids 0 = []
  | .commit inserts updates removes =>
    (∀ a ∈ inserts, a.Apt S) ∧ (∀ u ∈ updates, s.UpdateApt S u) ∧ removes = []

instance (s : IndexedTable) (a : Insertion) : Decidable (a.Legal S s) := by
  unfold Insertion.Legal
  cases a.origin <;> infer_instance

instance (s : IndexedTable) (u : RowId × ℕ × Value) : Decidable (s.UpdateLegal S u) :=
  inferInstanceAs (Decidable (_ ∧ _))

instance (s : IndexedTable) (op : Op) : Decidable (s.Legal S op) := by
  cases op <;> unfold Legal <;> infer_instance

instance (row : Row) : Decidable (Fine S row) := inferInstanceAs (Decidable (∀ c ∈ _, _))

instance (a : Insertion) : Decidable (a.Apt S) := by
  unfold Insertion.Apt
  cases a.origin <;> infer_instance

instance (s : IndexedTable) (u : RowId × ℕ × Value) : Decidable (s.UpdateApt S u) :=
  inferInstanceAs (Decidable (_ ∧ _))

instance (s : IndexedTable) (op : Op) : Decidable (s.Apt S op) := by
  cases op <;> unfold Apt <;> infer_instance

def new : IndexedTable := ⟨⟨fun _ => none,fun _ => []⟩,fun _ => none,fun _ => none,fun _ => []⟩

def system : System IndexedTable Op where
  init s := s = new
  step s op := if s.Legal S op then s.apply S op else none

def indexKey (i : ℕ) (r : RowId) : List Value :=
  ((s.db.rows r).map fun row => (S.getIndex i).map row.values).getD []

/-- Each index runs over the rows of the table, each once, in the order of their values. -/
def Coherent : Prop :=
  ∀ i < S.indices.length, ∃ l, s.cursor i .all = some l ∧ l.Nodup ∧ l.Perm (s.db.ids 0) ∧
    l.Pairwise fun a b => keyLt (s.indexKey S i b) (s.indexKey S i a) = false

end IndexedTable

end Janus.Memdb
