import NomadRs.Error
import NomadRs.HashMap

/-!
# Placement constraints, affinities and spreads

The operands a node's attributes are tested with, and the checks of constraints, affinities and
spreads. Regular expressions and semantic versions are third-party code: `Crates` stands for the
two crates, and every result holds for any behaviour of theirs.
-/

namespace NomadRs

/-- The parts of the `regex` and `semver` crates that constraint evaluation calls. -/
class Crates where
  Regex : Type
  regexNew : String → Option Regex
  isMatch : Regex → String → Bool
  Version : Type
  parseVersion : String → Option Version
  VersionReq : Type
  parseVersionReq : String → Option VersionReq
  reqMatches : VersionReq → Version → Bool

/-- The crates on patterns without metacharacters and on versions required exactly. -/
@[reducible] def Crates.literal : Crates where
  Regex := String
  regexNew := some
  isMatch pattern s := s.toList.tails.any pattern.toList.isPrefixOf
  Version := String
  parseVersion := some
  VersionReq := String
  parseVersionReq := some
  reqMatches req version := req == s!"={version}"

/-- The Unicode `White_Space` property, which `str::trim` strips. -/
def isWhiteSpace (c : Char) : Bool :=
  (9 ≤ c.toNat && c.toNat ≤ 13) || (0x2000 ≤ c.toNat && c.toNat ≤ 0x200A) ||
    [0x20, 0x85, 0xA0, 0x1680, 0x2028, 0x2029, 0x202F, 0x205F, 0x3000].contains c.toNat

def trim (s : List Char) : List Char :=
  ((s.dropWhile isWhiteSpace).reverse.dropWhile isWhiteSpace).reverse

def parseDigits (ds : List Char) : Option Int :=
  if ds.isEmpty || !ds.all Char.isDigit then none
  else some (ds.foldl (fun n c => n * 10 + (c.toNat - 48)) 0)

/-- `str::parse::<i64>`: an optional sign, ASCII digits, and a value in the `i64` range. -/
def parseI64 (s : String) : Option Int :=
  let value := match s.toList with
    | '-' :: ds => (parseDigits ds).map Neg.neg
    | '+' :: ds => parseDigits ds
    | ds => parseDigits ds
  value.filter fun v => -2 ^ 63 ≤ v && v < 2 ^ 63

def cmpNum (left right : String) (cmp : Int → Int → Bool) : Bool :=
  match parseI64 left, parseI64 right with
  | some l, some r => cmp l r
  | _, _ => false

section Operands
variable [Crates]

def evalRegexp (val pattern : String) : Bool :=
  (Crates.regexNew pattern).any fun re => Crates.isMatch re val

def evalVersion (val constraint : String) : Bool :=
  match Crates.parseVersion val with
  | none => false
  | some ver =>
      (Crates.parseVersionReq (String.ofList (trim constraint.toList))).any fun req =>
        Crates.reqMatches req ver

/-- The operand table that `Constraint` and `Affinity` each carry a copy of. -/
def operandHolds (operand attrVal right : String) : Bool :=
  match operand with
  | "=" => attrVal == right
  | "!=" => attrVal != right
  | ">" => cmpNum attrVal right fun a b => a > b
  | ">=" => cmpNum attrVal right fun a b => a ≥ b
  | "<" => cmpNum attrVal right fun a b => a < b
  | "<=" => cmpNum attrVal right fun a b => a ≤ b
  | "regexp" => evalRegexp attrVal right
  | "version" => evalVersion attrVal right
  | "set_contains" => (attrVal.toList.splitOn ',').any fun v => trim v == right.toList
  | "distinct_hosts" | "distinct_property" => true
  | _ => false

structure Constraint where
  left : String
  right : String
  operand : String
  deriving DecidableEq

def knownOperands : List String :=
  ["=", "!=", ">", ">=", "<", "<=", "regexp", "version", "set_contains", "distinct_hosts",
    "distinct_property"]

def Constraint.validate (self : Constraint) : Result Unit := do
  requireNonEmpty self.left (.config "constraint left target cannot be empty")
  ensure (!self.right.isEmpty || ["distinct_hosts", "distinct_property"].contains self.operand)
    (.config "constraint right target cannot be empty")
  ensure (knownOperands.contains self.operand)
    (.config s!"unknown constraint operand '{self.operand}'")

def Constraint.satisfiedBy (self : Constraint) (attributes : HashMap String String) : Bool :=
  operandHolds self.operand ((attributes.lookup self.left).getD "") self.right

/-- A soft placement preference; `weight` is an `i8`. -/
structure Affinity where
  left : String
  right : String
  operand : String
  weight : Int
  deriving DecidableEq

def Affinity.validate (self : Affinity) : Result Unit := do
  ensure (-100 ≤ self.weight && self.weight ≤ 100)
    (.config s!"affinity weight {self.weight} out of range [-100, 100]")
  requireNonEmpty self.left (.config "affinity left target cannot be empty")
  ensure (knownOperands.contains self.operand)
    (.config s!"unknown affinity operand '{self.operand}'")

def Affinity.satisfiedBy (self : Affinity) (attributes : HashMap String String) : Bool :=
  operandHolds self.operand ((attributes.lookup self.left).getD "") self.right

end Operands

/-- A desired share of allocations for one attribute value; `percent` is a `u8`. -/
structure SpreadTarget where
  value : String
  percent : Nat
  deriving DecidableEq

/-- Spreads allocations across the values of an attribute; `attr` is the source's `attribute`. -/
structure Spread where
  attr : String
  targets : List SpreadTarget
  deriving DecidableEq

/-- The total is a `u16`, which wraps around as in a release build. -/
def Spread.validate (self : Spread) : Result Unit := do
  requireNonEmpty self.attr (.config "spread attribute cannot be empty")
  let total : UInt16 :=
    self.targets.foldl (fun total t => total + UInt16.ofNat t.percent) 0
  ensure (total ≤ 100) (.config s!"spread target percents sum to {total}, exceeding 100")

end NomadRs
