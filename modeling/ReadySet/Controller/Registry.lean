import Mathlib.Data.Finset.Insert
import Mathlib.Data.Finset.Erase
import Mathlib.Logic.Function.Basic
import ReadySet.Dataflow.Processing

/-!
Owns the registry of the tables, views and caches of a recipe
(`ExprRegistry`): adding an expression, removing one by its name or an alias,
its custom types, and finding the caches a query could reuse
(`ExprSkeletons`).

A map is the function that looks a key up. A statement is kept as the tables
its FROM and JOIN clauses name, its custom types, its literals in the order
they are visited, and the rest of it. The id of an expression is a parameter.
Does not own the caches that borrow another's view (`reused_caches`), nor the
queries a new table invalidates.
-/

namespace ReadySet.Controller

open Dataflow

structure Relation where
  schema : Option String
  name : String
deriving DecidableEq, Repr

/-- `Relation::fmt`. -/
def Relation.toString (relation : Relation) : String :=
  (match relation.schema with
    | some schema => "`" ++ schema ++ "`."
    | none => "") ++ "`" ++ relation.name ++ "`"

inductive ItemPlaceholder where
  | questionMark
  | dollarNumber (index : Nat)
  | colonNumber (index : Nat)
deriving DecidableEq, Repr

/-- `Literal`, with the values of type `L`. -/
inductive Literal (L : Type) where
  | placeholder (item : ItemPlaceholder)
  | value (value : L)
deriving DecidableEq, Repr

def Literal.isPlaceholder {L : Type} : Literal L → Bool
  | .placeholder _ => true
  | .value _ => false

inductive TableExprInner (R : Type) where
  | table (name : Relation)
  | subquery (query : R)
deriving DecidableEq, Repr

def TableExprInner.asTable {R : Type} : TableExprInner R → Option Relation
  | .table name => some name
  | .subquery _ => none

/-- `SelectStatement`. `join` has the right side of each join clause. -/
structure SelectStatement (L R : Type) where
  tables : List (TableExprInner R)
  join : List (List (TableExprInner R))
  customTypes : List Relation
  literals : List (Literal L)
  rest : R
deriving DecidableEq, Repr

inductive SelectSpecification (L R : Type) where
  | compound (selects : List (SelectStatement L R))
  | simple (statement : SelectStatement L R)

/-- The innermost type of a column, as far as the registry reads it. -/
inductive SqlType where
  | builtin
  | other (name : Relation)
deriving DecidableEq, Repr

structure CreateTableBody (R : Type) where
  fields : List SqlType
  rest : R

inductive RecipeExpr (L R : Type) where
  | table (name : Relation) (body : CreateTableBody R)
  | view (name : Relation) (definition : SelectSpecification L R)
  | cache (name : Relation) (statement : SelectStatement L R) (always : Bool)

variable {L R : Type}

namespace RecipeExpr

def name : RecipeExpr L R → Relation
  | .table name _ => name
  | .view name _ => name
  | .cache name _ _ => name

def isTable : RecipeExpr L R → Bool
  | .table _ _ => true
  | _ => false

def isCache : RecipeExpr L R → Bool
  | .cache _ _ _ => true
  | _ => false

def selects : RecipeExpr L R → List (SelectStatement L R)
  | .table _ _ => []
  | .view _ (.compound selects) => selects
  | .view _ (.simple statement) => [statement]
  | .cache _ statement _ => [statement]

/-- `RecipeExpr::table_references`: the tables of the FROM clauses. -/
def tableReferences (expression : RecipeExpr L R) : List Relation :=
  expression.selects.flatMap fun select => select.tables.filterMap TableExprInner.asTable

def customTypeReferences : RecipeExpr L R → List Relation
  | .table _ body => body.fields.filterMap fun ty =>
    match ty with
    | .other name => some name
    | .builtin => none
  | .view _ (.simple statement) => statement.customTypes
  | .cache _ statement _ => statement.customTypes
  | .view _ (.compound _) => []

end RecipeExpr

/-! ## Skeletons -/

/-- `SelectStatementSkeleton::decompose_select`: the statement with its
literals replaced by question marks, and the literals. -/
def decomposeSelect (statement : SelectStatement L R) : SelectStatement L R × List (Literal L) :=
  ({ statement with literals := statement.literals.map fun _ => .placeholder .questionMark },
    statement.literals)

structure MatchedCache (L : Type) where
  name : Relation
  requiredValues : Nat → Option (Literal L)
  keyMapping : Nat → Option (Literal L)

/-- One pair of literals of `MatchedCache::new`. -/
def MatchedCache.addPair (matched : MatchedCache L) : Literal L × Literal L →
    ReadySetResult (MatchedCache L)
  | (.placeholder (.dollarNumber index), given) =>
    .ok { matched with keyMapping := Function.update matched.keyMapping index (some given) }
  | (cached, .placeholder (.dollarNumber index)) =>
    .ok { matched with
      requiredValues := Function.update matched.requiredValues index (some cached) }
  | (.placeholder _, _) => .error (.internal "Expected numbered placeholder")
  | (_, .placeholder _) => .error (.internal "Expected numbered placeholder")
  | (.value _, .value _) => .ok matched

def MatchedCache.new (name : Relation) (literals : List (Literal L × Literal L)) :
    ReadySetResult (MatchedCache L) :=
  literals.foldlM MatchedCache.addPair
    { name := name, requiredValues := fun _ => none, keyMapping := fun _ => none }

/-- `ExprSkeletons`: the names and literals under each skeleton; a skeleton
that is absent has none. -/
abbrev ExprSkeletons (L R : Type) := SelectStatement L R → List (Relation × List (Literal L))

section

variable [DecidableEq L] [DecidableEq R]

def ExprSkeletons.insert (skeletons : ExprSkeletons L R) (query : SelectStatement L R)
    (name : Relation) : ExprSkeletons L R :=
  let (skeleton, literals) := decomposeSelect query
  let exprs := skeletons skeleton
  if exprs.any fun expr => expr.1 = name then skeletons
  else Function.update skeletons skeleton (exprs ++ [(name, literals)])

def ExprSkeletons.removeExpressions (skeletons : ExprSkeletons L R) (exprs : Relation → Bool) :
    ExprSkeletons L R :=
  fun skeleton => (skeletons skeleton).filter fun expr => !exprs expr.1

/-- Whether literals are equal (`some true`), match (`some false`) or differ. -/
def matchLiterals (cached given : List (Literal L)) : Option Bool :=
  (cached.zip given).foldlM (fun acc (l1, l2) =>
    if l1 = l2 then some acc
    else if l1.isPlaceholder || l2.isPlaceholder then some false
    else none) true

/-- One cached query of `ExprSkeletons::caches_for_query`. -/
def matchCache (given : List (Literal L)) (acc : List (MatchedCache L))
    (expr : Relation × List (Literal L)) : ReadySetResult (List (MatchedCache L)) :=
  match matchLiterals expr.2 given with
  | some false => do
      let matched ← MatchedCache.new expr.1 (expr.2.zip given)
      pure (acc ++ [matched])
  | _ => .ok acc

def ExprSkeletons.cachesForQuery (skeletons : ExprSkeletons L R) (query : SelectStatement L R) :
    ReadySetResult (List (MatchedCache L)) :=
  let (skeleton, literals) := decomposeSelect query
  (skeletons skeleton).foldlM (matchCache literals) []

end

/-! ## The registry -/

abbrev QueryID := Nat

@[ext] structure ExprRegistry (L R : Type) where
  expressions : QueryID → Option (RecipeExpr L R)
  skeletons : ExprSkeletons L R
  dependencies : QueryID → Option (Finset QueryID)
  customTypeDependencies : Relation → Option (Finset QueryID)
  aliases : Relation → Option QueryID

namespace ExprRegistry

/-- The registry of an empty recipe. -/
def empty : ExprRegistry L R where
  expressions _ := none
  skeletons _ := []
  dependencies _ := none
  customTypeDependencies _ := none
  aliases _ := none

def get (registry : ExprRegistry L R) (label : Relation) : Option (RecipeExpr L R) :=
  (registry.aliases label).bind registry.expressions

def assignAlias (registry : ExprRegistry L R) (label : Relation) (queryId : QueryID) :
    ReadySetResult (ExprRegistry L R) :=
  match registry.aliases label with
  | some existing =>
    if existing ≠ queryId then
      .error (.recipeInvariantViolated
        ("Query name exists but existing query is different: " ++ label.toString))
    else .ok registry
  | none => .ok { registry with aliases := Function.update registry.aliases label (some queryId) }

/-- The dependencies of a new expression on the tables it references. -/
def addDependencies (aliases : Relation → Option QueryID) (queryId : QueryID)
    (references : List Relation) (dependencies : QueryID → Option (Finset QueryID)) :
    QueryID → Option (Finset QueryID) :=
  references.foldl (fun dependencies reference =>
    match aliases reference with
    | none => dependencies
    | some tableId => Function.update dependencies tableId
        (some (insert queryId ((dependencies tableId).getD ∅)))) dependencies

def addCustomTypeDependencies (queryId : QueryID) (references : List Relation)
    (dependencies : Relation → Option (Finset QueryID)) : Relation → Option (Finset QueryID) :=
  references.foldl (fun dependencies ty =>
    match dependencies ty with
    | none => dependencies
    | some deps => Function.update dependencies ty (some (insert queryId deps))) dependencies

/-- `ExprRegistry::add_query`, with `RecipeExpr::calculate_hash` as a parameter. -/
def addQuery [DecidableEq L] [DecidableEq R] (calculateHash : RecipeExpr L R → QueryID)
    (registry : ExprRegistry L R) (expression : RecipeExpr L R) :
    ReadySetResult (Bool × ExprRegistry L R) := do
  let queryId := calculateHash expression
  let registry ← registry.assignAlias expression.name queryId
  if (registry.expressions queryId).isSome then return (false, registry)
  let skeletons := match expression with
    | .cache name statement _ => registry.skeletons.insert statement name
    | _ => registry.skeletons
  return (true,
    { registry with
      skeletons := skeletons
      dependencies := addDependencies registry.aliases queryId expression.tableReferences
        registry.dependencies
      customTypeDependencies := addCustomTypeDependencies queryId expression.customTypeReferences
        registry.customTypeDependencies
      expressions := Function.update registry.expressions queryId (some expression) })

def removeExpression (registry : ExprRegistry L R) (nameOrAlias : Relation) :
    Option (RecipeExpr L R) × ExprRegistry L R :=
  match registry.aliases nameOrAlias with
  | none => (none, registry)
  | some queryId =>
    let exprAliases := fun label => decide (registry.aliases label = some queryId)
    let registry := { registry with
      aliases := fun label => if exprAliases label then none else registry.aliases label
      skeletons := registry.skeletons.removeExpressions exprAliases }
    match registry.expressions queryId with
    | none => (none, registry)
    | some expression =>
      let registry := { registry with
        expressions := Function.update registry.expressions queryId none }
      if expression.isTable then
        match registry.dependencies queryId with
        | none => (some expression, registry)
        | some deps =>
          (some expression,
            { registry with
              dependencies := Function.update registry.dependencies queryId none
              aliases := fun label => (registry.aliases label).filter (· ∉ deps)
              expressions := fun id => if id ∈ deps then none else registry.expressions id })
      else
        (some expression,
          { registry with
            dependencies := fun id =>
              (registry.dependencies id).map fun deps => deps.erase queryId })

def addCustomType (registry : ExprRegistry L R) (name : Relation) : ExprRegistry L R :=
  { registry with customTypeDependencies :=
      match registry.customTypeDependencies name with
      | some _ => registry.customTypeDependencies
      | none => Function.update registry.customTypeDependencies name (some ∅) }

def removeCustomType (registry : ExprRegistry L R) (name : Relation) : Bool × ExprRegistry L R :=
  ((registry.customTypeDependencies name).isSome,
    { registry with
      customTypeDependencies := Function.update registry.customTypeDependencies name none })

def renameCustomType (registry : ExprRegistry L R) (oldName newName : Relation) :
    ExprRegistry L R :=
  match registry.customTypeDependencies oldName with
  | none => registry
  | some prev =>
    { registry with
      customTypeDependencies :=
        Function.update (Function.update registry.customTypeDependencies oldName none)
          newName (some prev) }

end ExprRegistry

end ReadySet.Controller
