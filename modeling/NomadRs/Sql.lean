import NomadRs.HashMap

/-!
# Keyed tables under foreign keys

The statements of an SQL database that work on one table: an insert that updates the row it
conflicts with, and a deletion by the value of a column. A statement takes effect as a whole, or
not at all if it would leave a row without the row it refers to. So a `Database` carries with it
that every row lies under its own key and that every reference has a target.
-/

namespace Sql

inductive Value
  | text (s : String)
  | integer (n : ℤ)
  deriving DecidableEq

/-- The values of a row by column; a column without a value is null. -/
abbrev Row := String → Option Value

def Row.select (row : Row) (columns : List String) : List (Option Value) := columns.map row

abbrev Table := HashMap (List (Option Value)) Row

/-- Columns whose values have to be a primary key of another table. -/
structure ForeignKey (τ : Type) where
  child : τ
  columns : List String
  parent : τ

structure Schema (τ : Type) where
  key : τ → List String
  foreignKeys : List (ForeignKey τ)

/-- `INSERT INTO table (columns) VALUES (values) ON CONFLICT(key) DO UPDATE SET updated`, each
updated column to the value that was to be inserted, or `DELETE FROM table WHERE column = value`. -/
inductive Statement (τ : Type)
  | upsert (table : τ) (columns : List String) (values : List Value) (updated : List String)
  | delete (table : τ) (column : String) (value : Value)

variable {τ : Type} [DecidableEq τ] {S : Schema τ}

def inserted (columns : List String) (values : List Value) : Row :=
  fun column => (columns.zip values).lookup column

def Row.update (old : Row) (updated : List String) (new : Row) : Row :=
  fun column => if column ∈ updated then new column else old column

def Row.upserted (new : Row) (updated : List String) (old : Option Row) : Row :=
  (old.map fun old => old.update updated new).getD new

def upsertRow (key : List String) (new : Row) (updated : List String) (table : Table) : Table :=
  table.insert (new.select key) (new.upserted updated (table.lookup (new.select key)))

def deleteRows (column : String) (value : Value) (table : Table) : Table :=
  table.filter fun row => row column ≠ some value

/-- What a statement does to the tables, whether or not it may. -/
def Statement.effect (S : Schema τ) (tables : τ → Table) : Statement τ → τ → Table
  | .upsert table columns values updated =>
    Function.update tables table
      (upsertRow (S.key table) (inserted columns values) updated (tables table))
  | .delete table column value =>
    Function.update tables table (deleteRows column value (tables table))

def Keyed (key : List String) (table : Table) : Prop :=
  ∀ k row, table.lookup k = some row → row.select key = k

def Consistent (S : Schema τ) (tables : τ → Table) : Prop :=
  ∀ fk ∈ S.foreignKeys, ∀ row ∈ (tables fk.child).values,
    ((tables fk.parent).lookup (row.select fk.columns)).isSome

instance (tables : τ → Table) : Decidable (Consistent S tables) :=
  inferInstanceAs (Decidable (∀ fk ∈ S.foreignKeys, _))

structure Database (S : Schema τ) where
  tables : τ → Table
  keyed : ∀ table, Keyed (S.key table) (tables table)
  consistent : Consistent S tables

def Database.empty : Database S where
  tables _ := ∅
  keyed _ k row h := by simp at h
  consistent fk _ row h := by simp at h

/-! ## Statements keep rows under their keys -/

theorem Keyed.upsertRow {key : List String} {table : Table} (h : Keyed key table) (new : Row)
    (updated : List String) : Keyed key (upsertRow key new updated table) := by
  intro k row hrow
  rcases HashMap.lookup_insert_eq_some.1 hrow with ⟨rfl, rfl⟩ | ⟨_, hrow⟩
  · cases hold : table.lookup (new.select key) with
    | none => rfl
    | some old =>
        -- the two rows agree on the key, so it does not matter which the update takes it from
        have hsame : ∀ column ∈ key, old column = new column :=
          List.map_inj_left.1 (h _ old hold)
        refine List.map_congr_left fun column hcolumn => ?_
        simp [Row.upserted, Row.update, hsame column hcolumn]
  · exact h k row hrow

theorem Keyed.deleteRows {key : List String} {table : Table} (h : Keyed key table)
    (column : String) (value : Value) : Keyed key (deleteRows column value table) :=
  fun k row hrow => h k row (HashMap.lookup_filter_eq_some.1 hrow).1

/-- Where the key is one column, what a deletion by this column takes is one row. -/
theorem isSome_lookup_deleteRows {column : String} {value : Value} {v : Option Value}
    {table : Table} (h : Keyed [column] table) :
    ((deleteRows column value table).lookup [v]).isSome ↔
      (table.lookup [v]).isSome ∧ v ≠ some value := by
  simp only [Option.isSome_iff_exists, deleteRows, HashMap.lookup_filter_eq_some]
  constructor
  · rintro ⟨row, hrow, hkept⟩
    obtain rfl : row column = v := (List.cons.inj (h _ row hrow)).1
    exact ⟨⟨row, hrow⟩, by simpa using hkept⟩
  · rintro ⟨⟨row, hrow⟩, hne⟩
    obtain rfl : row column = v := (List.cons.inj (h _ row hrow)).1
    exact ⟨row, hrow, by simpa using hne⟩

theorem values_deleteRows_filter (column : String) (value : Value) (table : Table) :
    (deleteRows column value table).values.filter (fun row => row column = some value) = [] := by
  rw [deleteRows, HashMap.values_filter, List.filter_filter, List.filter_eq_nil_iff]
  simp

/-! ## The tables after a statement -/

variable {tables : τ → Table} {table changed : τ} {columns updated : List String}
  {values : List Value} {column : String} {value : Value}

@[simp] theorem effect_upsert_self :
    (Statement.upsert table columns values updated).effect S tables table =
      upsertRow (S.key table) (inserted columns values) updated (tables table) :=
  Function.update_self _ _ _

@[simp] theorem effect_delete_self : (Statement.delete table column value).effect S tables table =
    deleteRows column value (tables table) := Function.update_self _ _ _

theorem effect_upsert_of_ne (h : table ≠ changed) :
    (Statement.upsert changed columns values updated).effect S tables table = tables table :=
  Function.update_of_ne h _ _

theorem effect_delete_of_ne (h : table ≠ changed) :
    (Statement.delete changed column value).effect S tables table = tables table :=
  Function.update_of_ne h _ _

theorem Database.keyed_effect (db : Database S) (statement : Statement τ) (table : τ) :
    Keyed (S.key table) (statement.effect S db.tables table) := by
  cases statement with
  | upsert changed columns values updated =>
      by_cases h : table = changed
      · subst h
        rw [effect_upsert_self]
        exact (db.keyed table).upsertRow _ _
      · rw [effect_upsert_of_ne h]
        exact db.keyed table
  | delete changed column value =>
      by_cases h : table = changed
      · subst h
        rw [effect_delete_self]
        exact (db.keyed table).deleteRows _ _
      · rw [effect_delete_of_ne h]
        exact db.keyed table

/-- A statement that would leave a reference without a target has no effect. -/
def Database.exec (db : Database S) (statement : Statement τ) : Option (Database S) :=
  if h : Consistent S (statement.effect S db.tables) then
    some { tables := statement.effect S db.tables, keyed := db.keyed_effect statement,
           consistent := h }
  else none

theorem Database.exec_eq_some {db db' : Database S} {statement : Statement τ}
    (h : db.exec statement = some db') : db'.tables = statement.effect S db.tables := by
  unfold exec at h
  split at h
  · cases h
    rfl
  · cases h

theorem Database.isSome_exec_iff {db : Database S} {statement : Statement τ} :
    (db.exec statement).isSome ↔ Consistent S (statement.effect S db.tables) := by
  unfold exec
  split <;> simp_all

end Sql
