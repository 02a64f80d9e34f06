import Mathlib.Tactic

/-!
# Errors

The crate's error type, its `Result`, and the checks its validators are made of.
-/

namespace NomadRs

inductive IoErrorKind
  | unexpectedEof | other
  deriving DecidableEq

/-- `rusqlite::Error`: a constraint is violated, a value cannot be read as the type asked for, or
the database cannot be read or written. -/
inductive DatabaseError
  | foreignKey
  | invalidColumnType (index : ℕ)
  | outOfRange (index : ℕ)
  | failure
  deriving DecidableEq

inductive Error
  | io (kind : IoErrorKind)
  | serialize (message : String)
  | database (e : DatabaseError)
  | config (message : String)
  | runtime (message : String)
  | validation (message : String)
  deriving DecidableEq

abbrev Result (α : Type) := Except Error α

/-- `if !ok { return Err(e) }`. -/
def ensure (ok : Bool) (e : Error) : Result Unit := if ok then .ok () else .error e

@[simp] theorem ensure_eq_ok {ok : Bool} {e : Error} {u : Unit} :
    ensure ok e = .ok u ↔ ok = true := by
  cases ok <;> simp [ensure]

theorem Result.bind_eq_ok {α β : Type} {x : Result α} {f : α → Result β} {b : β} :
    x >>= f = .ok b ↔ ∃ a, x = .ok a ∧ f a = .ok b := by
  cases x with
  | error e => simp [bind, Except.bind]
  | ok a => simp [bind, Except.bind]

theorem Result.bind_check_eq_ok {β : Type} {x : Result Unit} {f : Unit → Result β} {b : β} :
    x >>= f = .ok b ↔ x = .ok () ∧ f () = .ok b := by
  rw [bind_eq_ok]
  exact ⟨fun ⟨_, h⟩ => h, fun h => ⟨(), h⟩⟩

theorem mapError_eq_ok {ε ε' α : Type} {f : ε → ε'} {x : Except ε α} {a : α} :
    x.mapError f = .ok a ↔ x = .ok a := by
  cases x <;> simp [Except.mapError]

/-- `Option::ok_or_else`. -/
def okOr {α : Type} (x : Option α) (e : Error) : Result α := x.elim (.error e) .ok

@[simp] theorem okOr_eq_ok {α : Type} {x : Option α} {e : Error} {a : α} :
    okOr x e = .ok a ↔ x = some a := by
  cases x <;> simp [okOr]

def requireNonEmpty (value : String) (e : Error) : Result Unit := ensure (!value.isEmpty) e

end NomadRs
