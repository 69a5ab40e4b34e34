import ReadySet.Controller.Registry

/-!
Owns runs of the expression registry, and when its documented invariants hold
in every state of a run.

Every operation but a removal keeps them. A removal deletes the expression
and, for a table, its recorded dependents, but not every mention of them:
`Isolated` says that nothing else mentions what goes and that all expressions
that name a removed table go with it. `states_sound_iff` says that the
invariants hold throughout exactly when every removal is isolated.
-/

namespace ReadySet.Controller

open Dataflow Library ExprRegistry Function Option Except

variable {L R : Type} {id : QueryID} {expr : RecipeExpr L R} {label : Relation}
  {kind : RecipeExpr L R → Bool}

/-! ## Runs -/

inductive Operation (L R : Type) where
  | addQuery (expression : RecipeExpr L R)
  | removeExpression (nameOrAlias : Relation)
  | addCustomType (name : Relation)
  | removeCustomType (name : Relation)
  | renameCustomType (oldName newName : Relation)

/-- Whether a name stands for a stored table. -/
def ExprRegistry.hasTable (registry : ExprRegistry L R) (name : Relation) : Bool :=
  (registry.get name).any RecipeExpr.isTable

/-- Whether a name stands for a stored cache. -/
def ExprRegistry.hasCache (registry : ExprRegistry L R) (name : Relation) : Bool :=
  (registry.get name).any RecipeExpr.isCache

/-- A registry with its history: which tables were there when an expression
was added. -/
structure Tracked (L R : Type) where
  registry : ExprRegistry L R
  addedWith : QueryID → Relation → Bool

namespace Tracked

def empty : Tracked L R where
  registry := .empty
  addedWith _ _ := false

variable [DecidableEq L] [DecidableEq R]

/-- One operation; one that fails changes nothing. -/
def step (calculateHash : RecipeExpr L R → QueryID) (tracked : Tracked L R) :
    Operation L R → Tracked L R
  | .addQuery expression =>
    match tracked.registry.addQuery calculateHash expression with
    | .error _ => tracked
    | .ok (false, registry) => { tracked with registry := registry }
    | .ok (true, registry) =>
      { registry := registry
        addedWith := Function.update tracked.addedWith (calculateHash expression)
          tracked.registry.hasTable }
  | .removeExpression nameOrAlias =>
    { tracked with registry := (tracked.registry.removeExpression nameOrAlias).2 }
  | .addCustomType name => { tracked with registry := tracked.registry.addCustomType name }
  | .removeCustomType name =>
    { tracked with registry := (tracked.registry.removeCustomType name).2 }
  | .renameCustomType oldName newName =>
    { tracked with registry := tracked.registry.renameCustomType oldName newName }

end Tracked

def RecipeExpr.tablesNamed (expression : RecipeExpr L R) : List Relation :=
  expression.selects.flatMap fun select =>
    select.tables.filterMap TableExprInner.asTable ++
      select.join.flatten.filterMap TableExprInner.asTable

def ExprRegistry.Stored (registry : ExprRegistry L R) (id : QueryID) : Prop :=
  (registry.expressions id).isSome = true

/-- The invariants of the registry. The last one says that a table that was
there when an expression naming it was added is there as long as the
expression is. -/
structure Sound [DecidableEq L] (tracked : Tracked L R) : Prop where
  aliases : ∀ label id, tracked.registry.aliases label = some id → tracked.registry.Stored id
  dependencyKeys : ∀ id deps, tracked.registry.dependencies id = some deps →
    tracked.registry.Stored id
  dependencyValues : ∀ id deps, tracked.registry.dependencies id = some deps →
    ∀ dependent ∈ deps, tracked.registry.Stored dependent
  customTypes : ∀ ty deps, tracked.registry.customTypeDependencies ty = some deps →
    ∀ dependent ∈ deps, tracked.registry.Stored dependent
  caches : ∀ query matched, tracked.registry.skeletons.cachesForQuery query = .ok matched →
    ∀ cache ∈ matched, tracked.registry.hasCache cache.name = true
  tables : ∀ id expression, tracked.registry.expressions id = some expression →
    ∀ table ∈ expression.tablesNamed, tracked.addedWith id table = true →
      tracked.registry.hasTable table = true

/-! ## Isolated removals -/

def ExprRegistry.removedIds (registry : ExprRegistry L R) (queryId : QueryID)
    (expression : RecipeExpr L R) : Finset QueryID :=
  insert queryId (if expression.isTable then (registry.dependencies queryId).getD ∅ else ∅)

/-- Nothing that stays mentions what the removal of an expression deletes: no
other entry of the dependencies, no custom type, no cached query with literals
except under the expression's own names, and no expression that names a deleted
table. -/
structure IsolatedAt (tracked : Tracked L R) (queryId : QueryID)
    (expression : RecipeExpr L R) (removed : Finset QueryID) : Prop where
  dependencyKeys : ∀ id deps, tracked.registry.dependencies id = some deps → id ∈ removed →
    expression.isTable = true ∧ id = queryId
  dependencyValues : ∀ id deps, tracked.registry.dependencies id = some deps →
    ¬(expression.isTable = true ∧ id = queryId) → ∀ dependent ∈ deps, dependent ∈ removed →
      expression.isTable = false ∧ dependent = queryId
  customTypes : ∀ ty deps, tracked.registry.customTypeDependencies ty = some deps →
    ∀ dependent ∈ deps, dependent ∉ removed
  caches : ∀ statement, statement.literals ≠ [] →
    ∀ cached ∈ tracked.registry.skeletons (decomposeSelect statement).1, cached.2 ≠ [] →
      tracked.registry.aliases cached.1 ≠ some queryId →
        ∃ id ∉ removed, tracked.registry.aliases cached.1 = some id ∧
          (tracked.registry.expressions id).any RecipeExpr.isCache = true
  tables : ∀ id user, tracked.registry.expressions id = some user → id ∉ removed →
    ∀ table ∈ user.tablesNamed, tracked.addedWith id table = true →
      ∀ tableId, tracked.registry.aliases table = some tableId → tableId ∉ removed

/-- The removal of what a name stands for is isolated. -/
def Isolated (tracked : Tracked L R) (nameOrAlias : Relation) : Prop :=
  ∀ queryId expression, tracked.registry.aliases nameOrAlias = some queryId →
    tracked.registry.expressions queryId = some expression →
      IsolatedAt tracked queryId expression (tracked.registry.removedIds queryId expression)

/-- The condition on an operation. -/
def Admissible (tracked : Tracked L R) : Operation L R → Prop
  | .removeExpression nameOrAlias => Isolated tracked nameOrAlias
  | _ => True

/-! ## What a removal leaves -/

def ExprRegistry.without (registry : ExprRegistry L R) (removed : Finset QueryID)
    (skeletons : ExprSkeletons L R) (dependencies : QueryID → Option (Finset QueryID)) :
    ExprRegistry L R :=
  { registry with
    expressions := fun id => if id ∈ removed then none else registry.expressions id
    aliases := fun label => (registry.aliases label).filter (· ∉ removed)
    skeletons := skeletons
    dependencies := dependencies }

/-- The dependencies that a removal leaves. -/
def remainingDependencies (registry : ExprRegistry L R) (queryId : QueryID)
    (expression : RecipeExpr L R) : QueryID → Option (Finset QueryID) :=
  if expression.isTable then Function.update registry.dependencies queryId none
  else fun id => (registry.dependencies id).map fun deps => deps.erase queryId

namespace ExprRegistry

variable {registry : ExprRegistry L R} {nameOrAlias : Relation}

/-- A removal as one change: the ids go from the expressions and the aliases. -/
theorem removeExpression_eq {queryId : QueryID}
    (named : registry.aliases nameOrAlias = some queryId)
    (stored : registry.expressions queryId = some expr) :
    (registry.removeExpression nameOrAlias).2 =
      registry.without (registry.removedIds queryId expr)
        (registry.skeletons.removeExpressions fun label =>
          decide (registry.aliases label = some queryId))
        (remainingDependencies registry queryId expr) := by
  have expressions : update registry.expressions queryId none =
      fun id => if id = queryId then none else registry.expressions id := by
    funext id
    rw [update_apply]
  have aliases (label : Relation) : (if decide (registry.aliases label = some queryId) then none
      else registry.aliases label) = (registry.aliases label).filter (· ≠ queryId) := by
    rcases registry.aliases label with _ | id
    · rfl
    · simp [filter_some]
  simp only [removeExpression, named, stored, expressions, aliases, without,
    remainingDependencies, removedIds]
  by_cases table : expr.isTable = true
  · rcases eq_none_or_eq_some (registry.dependencies queryId) with found | ⟨deps, found⟩
    · simp [table, found]
    · simp only [table, found, Finset.insert_eq, Finset.union_comm, Finset.mem_union, ite_or]
      simp [and_comm]
  · simp [table]

theorem get_eq_some_iff :
    registry.get label = some expr ↔
      ∃ id, registry.aliases label = some id ∧ registry.expressions id = some expr :=
  bind_eq_some_iff

end ExprRegistry

/-! ## The caches that queries are matched with -/

section

variable {name : Relation} {index : Nat}

theorem matchedCache_new_name {literals : List (Literal L × Literal L)}
    {matched : MatchedCache L} (built : MatchedCache.new name literals = .ok matched) :
    matched.name = name := by
  refine foldlM_ok_invariant MatchedCache.addPair (fun _ matched => matched.name = name) literals
    ?_ rfl built
  rintro _ ⟨cached, given⟩ _ state next _ named added
  unfold MatchedCache.addPair at added
  split at added
  · obtain rfl := ok.inj added
    exact named
  · obtain rfl := ok.inj added
    exact named
  · cases added
  · cases added
  · obtain rfl := ok.inj added
    exact named

theorem exists_matchedCache_new {literals : List (Literal L × Literal L)}
    (asked : ∀ pair ∈ literals, pair.2 = .placeholder (.dollarNumber index)) :
    ∃ matched, MatchedCache.new name literals = .ok matched := by
  obtain ⟨matched, built, -⟩ := foldlM_invariant MatchedCache.addPair (fun _ _ => True) literals
    (fun done pair rest state whole _ => by
      have numbered := asked pair (by simp [whole])
      obtain ⟨cached, given⟩ := pair
      obtain rfl : given = _ := numbered
      rcases cached with (_ | _ | _) | _ <;> exact ⟨_, rfl, trivial⟩) trivial
  exact ⟨matched, built⟩

variable [DecidableEq L] {given : List (Literal L)} {exprs : List (Relation × List (Literal L))}
  {matched : List (MatchedCache L)}

theorem ne_nil_of_matchLiterals {cached : List (Literal L)}
    (matching : matchLiterals cached given = some false) : cached ≠ [] ∧ given ≠ [] := by
  constructor
  · rintro rfl
    simp [matchLiterals] at matching
  · rintro rfl
    simp [matchLiterals] at matching

theorem matchLiterals_numbered {first : Literal L} {cached : List (Literal L)}
    (differs : first ≠ .placeholder (.dollarNumber index))
    (asked : ∀ literal ∈ given, literal = .placeholder (.dollarNumber index)) :
    matchLiterals (first :: cached) (.placeholder (.dollarNumber index) :: given) = some false := by
  rw [matchLiterals, List.zip_cons_cons, List.foldlM_cons]
  -- Once a literal only matches, the others match or are equal.
  have rest : ∀ pairs : List (Literal L × Literal L),
      (∀ pair ∈ pairs, pair.2 = .placeholder (.dollarNumber index)) →
        pairs.foldlM (fun acc pair => if pair.1 = pair.2 then some acc
          else if pair.1.isPlaceholder || pair.2.isPlaceholder then some false else none) false =
            some false := by
    intro pairs numbered
    induction pairs with
    | nil => rfl
    | cons pair pairs ih =>
      have here := numbered pair List.mem_cons_self
      rw [List.foldlM_cons]
      by_cases same : pair.1 = pair.2 <;>
        simpa [same, here, Literal.isPlaceholder] using
          ih fun other mem => numbered other (List.mem_cons_of_mem _ mem)
  simp only [differs, if_false, Literal.isPlaceholder, Bool.or_true, if_true,
    Option.bind_eq_bind, Option.bind_some]
  exact rest (cached.zip given) fun pair mem => asked pair.2 (List.of_mem_zip mem).2

theorem of_mem_matchCache (found : exprs.foldlM (matchCache given) [] = .ok matched) :
    ∀ cache ∈ matched, ∃ expr ∈ exprs,
      matchLiterals expr.2 given = some false ∧ cache.name = expr.1 := by
  refine foldlM_ok_invariant (matchCache given) (fun done matched => ∀ cache ∈ matched,
    ∃ expr ∈ done, matchLiterals expr.2 given = some false ∧ cache.name = expr.1) exprs
    ?_ (fun _ mem => absurd mem List.not_mem_nil) found
  intro done expr _ before after _ holds step cache mem
  have old (inBefore : cache ∈ before) : ∃ other ∈ done ++ [expr],
      matchLiterals other.2 given = some false ∧ cache.name = other.1 := by
    obtain ⟨other, earlier, matches_⟩ := holds cache inBefore
    exact ⟨other, List.mem_append_left _ earlier, matches_⟩
  unfold matchCache at step
  split at step
  case h_1 matching =>
    obtain ⟨new, built, step⟩ := bind_eq_ok.mp step
    obtain rfl := ok.inj step
    rcases List.mem_append.mp mem with inBefore | isNew
    · exact old inBefore
    · obtain rfl := List.mem_singleton.mp isNew
      exact ⟨expr, by simp, matching, matchedCache_new_name built⟩
  case h_2 =>
    obtain rfl := ok.inj step
    exact old mem

/-- A query that asks with placeholders finds every cache whose literals match. -/
theorem exists_matchCache
    (asked : ∀ literal ∈ given, literal = .placeholder (.dollarNumber index)) :
    ∃ matched, exprs.foldlM (matchCache given) [] = .ok matched ∧
      ∀ expr ∈ exprs, matchLiterals expr.2 given = some false →
        ∃ cache ∈ matched, cache.name = expr.1 := by
  refine foldlM_invariant (matchCache given) (fun done matched => ∀ expr ∈ done,
    matchLiterals expr.2 given = some false → ∃ cache ∈ matched, cache.name = expr.1) exprs
    ?_ (fun _ mem => absurd mem List.not_mem_nil)
  intro done expr _ before _ holds
  by_cases matching : matchLiterals expr.2 given = some false
  · obtain ⟨new, built⟩ : ∃ new, MatchedCache.new expr.1 (expr.2.zip given) = .ok new :=
      exists_matchedCache_new fun pair mem => asked pair.2 (List.of_mem_zip mem).2
    refine ⟨before ++ [new], by simp [matchCache, matching, built], fun other mem named => ?_⟩
    rcases List.mem_append.mp mem with earlier | last
    · obtain ⟨cache, inBefore, same⟩ := holds other earlier named
      exact ⟨cache, List.mem_append_left _ inBefore, same⟩
    · obtain rfl := List.mem_singleton.mp last
      exact ⟨new, by simp, matchedCache_new_name built⟩
  · refine ⟨before, ?_, fun other mem named => ?_⟩
    · unfold matchCache
      split
      · contradiction
      · rfl
    · rcases List.mem_append.mp mem with earlier | last
      · exact holds other earlier named
      · exact absurd (List.mem_singleton.mp last ▸ named) matching

/-- **What `caches_for_query` can name**: every cached query with literals. A query
with the skeleton and numbered placeholders that the cached one does not have is
matched with it. -/
theorem cachesForQuery_iff (skeletons : ExprSkeletons L R) (named : Relation → Prop) :
    (∀ query matched, skeletons.cachesForQuery query = .ok matched →
        ∀ cache ∈ matched, named cache.name) ↔
      ∀ statement, statement.literals ≠ [] → ∀ cached ∈ skeletons (decomposeSelect statement).1,
        cached.2 ≠ [] → named cached.1 := by
  constructor
  · intro all statement literals cached mem nonempty
    obtain ⟨first, rest, isCached⟩ := List.exists_cons_of_ne_nil nonempty
    obtain ⟨index, differs⟩ : ∃ index, first ≠ .placeholder (.dollarNumber index) := by
      rcases first with (_ | other | _) | _
      case placeholder.dollarNumber => exact ⟨other + 1, by simp⟩
      all_goals exact ⟨0, nofun⟩
    obtain ⟨one, others, isStatement⟩ := List.exists_cons_of_ne_nil literals
    let query : SelectStatement L R := { statement with
      literals := statement.literals.map fun _ => .placeholder (.dollarNumber index) }
    have skeleton : (decomposeSelect query).1 = (decomposeSelect statement).1 := by
      simp [decomposeSelect, query]
    obtain ⟨matched, found, names⟩ := @exists_matchCache L index _ query.literals
      (skeletons (decomposeSelect statement).1) (by simp [query])
    obtain ⟨cache, inMatched, same⟩ := names cached mem (by
      rw [isCached]
      simp only [query, isStatement, List.map_cons]
      exact matchLiterals_numbered differs (by simp))
    rw [← same]
    refine all query matched ?_ cache inMatched
    rw [← skeleton] at found
    exact found
  · intro all query matched found cache mem
    obtain ⟨cached, inSkeleton, matching, same⟩ := of_mem_matchCache found cache mem
    obtain ⟨nonempty, literals⟩ := ne_nil_of_matchLiterals matching
    rw [same]
    exact all query literals cached inSkeleton nonempty

end

/-! ## Removals -/

section

variable [DecidableEq L] [DecidableEq R] {tracked : Tracked L R} {nameOrAlias : Relation}
  {queryId : QueryID} {expr : RecipeExpr L R}
  {registry : ExprRegistry L R} {removed : Finset QueryID} {skeletons : ExprSkeletons L R}
  {dependencies : QueryID → Option (Finset QueryID)} {deps : Finset QueryID}

section

omit [DecidableEq L] [DecidableEq R]

theorem stored_without_iff :
    (registry.without removed skeletons dependencies).Stored id ↔
      registry.Stored id ∧ id ∉ removed := by
  by_cases gone : id ∈ removed <;> simp [ExprRegistry.Stored, without, gone]

theorem aliases_without_iff :
    (registry.without removed skeletons dependencies).aliases label = some id ↔
      registry.aliases label = some id ∧ id ∉ removed := by
  simp [without]

theorem get_without_any_iff :
    ((registry.without removed skeletons dependencies).get label).any kind = true ↔
      ∃ id ∉ removed, registry.aliases label = some id ∧
        (registry.expressions id).any kind = true := by
  rw [any_eq_true]
  constructor
  · rintro ⟨expr, found, ofKind⟩
    obtain ⟨id, labelled, stored⟩ := get_eq_some_iff.mp found
    obtain ⟨before, stays⟩ := aliases_without_iff.mp labelled
    have storedBefore : registry.expressions id = some expr := (if_neg stays).symm.trans stored
    exact ⟨id, stays, before, (any_eq_true _ _).mpr ⟨expr, storedBefore, ofKind⟩⟩
  · rintro ⟨id, stays, before, any⟩
    obtain ⟨expr, stored, ofKind⟩ := (any_eq_true _ _).mp any
    refine ⟨expr, get_eq_some_iff.mpr ⟨id, ?_, (if_neg stays).trans stored⟩, ofKind⟩
    exact aliases_without_iff.mpr ⟨before, stays⟩

theorem remainingDependencies_eq_some_iff :
    remainingDependencies registry queryId expr id = some deps ↔
      ∃ before, registry.dependencies id = some before ∧
        ¬(expr.isTable = true ∧ id = queryId) ∧
        deps = if expr.isTable then before else before.erase queryId := by
  by_cases table : expr.isTable = true
  · by_cases same : id = queryId <;> simp [remainingDependencies, table, same]
  · simp [remainingDependencies, table, eq_comm]

theorem mem_remaining_iff {dep : QueryID} :
    dep ∈ (if expr.isTable then deps else deps.erase queryId) ↔
      dep ∈ deps ∧ ¬(expr.isTable = false ∧ dep = queryId) := by
  by_cases table : expr.isTable = true <;> simp [table, and_comm]

end

omit [DecidableEq R]

variable (tracked queryId expr removed) in
/-- What is tracked once the ids are removed. -/
def Tracked.removing : Tracked L R :=
  { tracked with
    registry := tracked.registry.without removed
      (tracked.registry.skeletons.removeExpressions fun label =>
        decide (tracked.registry.aliases label = some queryId))
      (remainingDependencies tracked.registry queryId expr) }

/-- A removal that keeps the registry sound is isolated. -/
theorem Sound.isolatedAt (after : Sound (tracked.removing queryId expr removed)) :
    IsolatedAt tracked queryId expr removed := by
  constructor
  · intro id deps recorded gone
    by_contra other
    have remains := remainingDependencies_eq_some_iff.mpr ⟨deps, recorded, other, rfl⟩
    exact (stored_without_iff.mp (after.dependencyKeys id _ remains)).2 gone
  · intro id deps recorded other dep mem gone
    have remains := remainingDependencies_eq_some_iff.mpr ⟨deps, recorded, other, rfl⟩
    by_contra lost
    have kept := mem_remaining_iff.mpr ⟨mem, lost⟩
    exact (stored_without_iff.mp (after.dependencyValues id _ remains dep kept)).2 gone
  · exact fun ty deps recorded dep mem =>
      (stored_without_iff.mp (after.customTypes ty deps recorded dep mem)).2
  · intro statement literals cached mem nonempty other
    refine get_without_any_iff.mp ((cachesForQuery_iff _ (hasCache _ · = true)).mp after.caches
      statement literals cached ?_ nonempty)
    exact List.mem_filter.mpr ⟨mem, by simpa using other⟩
  · intro id user used stays table named mem tableId labelled
    obtain ⟨otherId, otherStays, otherLabelled, _⟩ := get_without_any_iff.mp
      (after.tables id user ((if_neg stays).trans used) table named mem)
    obtain rfl := some.inj (labelled.symm.trans otherLabelled)
    exact otherStays

/-- An isolated removal keeps the registry sound. -/
theorem IsolatedAt.sound (isolated : IsolatedAt tracked queryId expr removed)
    (sound : Sound tracked) : Sound (tracked.removing queryId expr removed) := by
  constructor
  · intro label id labelled
    obtain ⟨before, stays⟩ := aliases_without_iff.mp labelled
    exact stored_without_iff.mpr ⟨sound.aliases label id before, stays⟩
  · intro id deps remains
    obtain ⟨before, recorded, other, _⟩ := remainingDependencies_eq_some_iff.mp remains
    exact stored_without_iff.mpr ⟨sound.dependencyKeys id before recorded,
      fun gone => other (isolated.dependencyKeys id before recorded gone)⟩
  · intro id deps remains dep mem
    obtain ⟨before, recorded, other, rfl⟩ := remainingDependencies_eq_some_iff.mp remains
    obtain ⟨presentBefore, notLost⟩ := mem_remaining_iff.mp mem
    exact stored_without_iff.mpr ⟨sound.dependencyValues id before recorded dep presentBefore,
      fun gone => notLost
        (isolated.dependencyValues id before recorded other dep presentBefore gone)⟩
  · exact fun ty deps recorded dep mem => stored_without_iff.mpr
      ⟨sound.customTypes ty deps recorded dep mem, isolated.customTypes ty deps recorded dep mem⟩
  · refine (cachesForQuery_iff _ (hasCache _ · = true)).mpr
      fun statement literals cached mem nonempty => ?_
    obtain ⟨before, other⟩ := List.mem_filter.mp mem
    exact get_without_any_iff.mpr
      (isolated.caches statement literals cached before nonempty (by simpa using other))
  · intro id user used table named mem
    have stays : id ∉ removed := fun gone => nomatch (if_pos gone).symm.trans used
    have usedBefore : tracked.registry.expressions id = some user := (if_neg stays).symm.trans used
    have tableBefore := sound.tables id user usedBefore table named mem
    obtain ⟨tableExpr, found, isTable⟩ := (any_eq_true _ _).mp tableBefore
    obtain ⟨tableId, labelled, tableStored⟩ := get_eq_some_iff.mp found
    refine get_without_any_iff.mpr ⟨tableId,
      isolated.tables id user usedBefore stays table named mem tableId labelled, labelled, ?_⟩
    exact (any_eq_true _ _).mpr ⟨tableExpr, tableStored, isTable⟩

/-- From a sound registry, a removal leads to a sound one exactly when it is
isolated. -/
theorem sound_remove_iff (sound : Sound tracked) :
    Sound { tracked with registry := (tracked.registry.removeExpression nameOrAlias).2 } ↔
      Isolated tracked nameOrAlias := by
  rcases named : tracked.registry.aliases nameOrAlias with _ | queryId
  · have unchanged : (tracked.registry.removeExpression nameOrAlias).2 = tracked.registry := by
      simp [removeExpression, named]
    rw [unchanged]
    refine iff_of_true sound ?_
    intro queryId expr found
    cases named.symm.trans found
  obtain ⟨expr, stored⟩ := isSome_iff_exists.mp (sound.aliases nameOrAlias queryId named)
  have whole : Isolated tracked nameOrAlias ↔ IsolatedAt tracked queryId expr
      (tracked.registry.removedIds queryId expr) := by
    constructor
    · exact fun isolated => isolated queryId expr named stored
    · intro isolated otherId other labelled found
      obtain rfl := some.inj (named.symm.trans labelled)
      obtain rfl := some.inj (stored.symm.trans found)
      exact isolated
  rw [whole, removeExpression_eq named stored]
  exact ⟨Sound.isolatedAt, fun isolated => isolated.sound sound⟩

end

/-! ## Additions -/

section

variable {registry : ExprRegistry L R} {queryId : QueryID} {name : Relation}

theorem assignAlias_ok {assigned : ExprRegistry L R}
    (succeeded : registry.assignAlias label queryId = .ok assigned) :
    (∀ id, registry.aliases label = some id → id = queryId) ∧
      assigned = { registry with
        aliases := update registry.aliases label (some queryId) } := by
  rw [assignAlias] at succeeded
  rcases labelled : registry.aliases label with _ | existing
  · simp only [labelled] at succeeded
    exact ⟨fun _ found => (nomatch found), (ok.inj succeeded).symm⟩
  · simp only [labelled] at succeeded
    split_ifs at succeeded with ne
    obtain rfl : existing = queryId := not_not.mp ne
    obtain rfl := ok.inj succeeded
    refine ⟨fun id found => (some.inj found).symm, ?_⟩
    rw [← labelled, update_eq_self]

section

variable {references : List Relation} {deps : Finset QueryID}

/-- New dependencies are on tables that a reference stands for, and of the new
expression. -/
theorem addDependencies_eq_some {aliases : Relation → Option QueryID}
    {dependencies : QueryID → Option (Finset QueryID)}
    (recorded : addDependencies aliases queryId references dependencies id = some deps) :
    ((∃ before, dependencies id = some before) ∨ ∃ reference, aliases reference = some id) ∧
      ∀ dep ∈ deps, dep = queryId ∨ ∃ before, dependencies id = some before ∧ dep ∈ before := by
  induction references generalizing dependencies with
  | nil => exact ⟨.inl ⟨deps, recorded⟩, fun _ mem => .inr ⟨deps, recorded, mem⟩⟩
  | cons reference references ih =>
    obtain ⟨key, values⟩ := ih recorded
    rcases labelled : aliases reference with _ | tableId
    · simp only [labelled] at key values
      exact ⟨key, values⟩
    · simp only [labelled] at key values
      by_cases same : id = tableId
      · subst same
        refine ⟨.inr ⟨reference, labelled⟩, fun dep mem => ?_⟩
        rcases values dep mem with new | ⟨before, updated, old⟩
        · exact .inl new
        · rw [update_self] at updated
          obtain rfl := some.inj updated
          rcases Finset.mem_insert.mp old with new | older
          · exact .inl new
          · rcases known : dependencies id with _ | before
            · rw [known] at older
              exact absurd older (Finset.notMem_empty _)
            · rw [known] at older
              exact .inr ⟨before, rfl, older⟩
      · simp only [update_of_ne same] at key values
        exact ⟨key, values⟩

theorem addCustomTypeDependencies_eq_some {dependencies : Relation → Option (Finset QueryID)}
    {ty : Relation}
    (recorded : addCustomTypeDependencies queryId references dependencies ty = some deps) :
    ∀ dep ∈ deps, dep = queryId ∨ ∃ before, dependencies ty = some before ∧ dep ∈ before := by
  induction references generalizing dependencies with
  | nil => exact fun _ mem => .inr ⟨deps, recorded, mem⟩
  | cons reference references ih =>
    have values := ih recorded
    rcases known : dependencies reference with _ | before
    · simp only [known] at values
      exact values
    · simp only [known] at values
      by_cases same : ty = reference
      · subst same
        intro dep mem
        rcases values dep mem with new | ⟨updated, found, old⟩
        · exact .inl new
        · rw [update_self] at found
          obtain rfl := some.inj found
          exact (Finset.mem_insert.mp old).imp_right fun older => ⟨before, known, older⟩
      · simp only [update_of_ne same] at values
        exact values

end

variable [DecidableEq L] [DecidableEq R] {larger : ExprRegistry L R}

/-- A registry that has all aliases and expressions of another. -/
def ExprRegistry.Extends (larger registry : ExprRegistry L R) : Prop :=
  (∀ label id, registry.aliases label = some id → larger.aliases label = some id) ∧
    ∀ id expression, registry.expressions id = some expression →
      larger.expressions id = some expression

omit [DecidableEq L] [DecidableEq R] in
theorem ExprRegistry.Extends.stored
    (extended : larger.Extends registry) (stored : registry.Stored id) : larger.Stored id := by
  obtain ⟨expr, found⟩ := isSome_iff_exists.mp stored
  exact isSome_iff_exists.mpr ⟨expr, extended.2 id expr found⟩

omit [DecidableEq L] [DecidableEq R] in
theorem ExprRegistry.Extends.get_any (extended : larger.Extends registry)
    (any : (registry.get label).any kind = true) : (larger.get label).any kind = true := by
  obtain ⟨expr, found, ofKind⟩ := (any_eq_true _ _).mp any
  obtain ⟨id, labelled, stored⟩ := get_eq_some_iff.mp found
  exact (any_eq_true _ _).mpr ⟨expr, get_eq_some_iff.mpr
    ⟨id, extended.1 label id labelled, extended.2 id expr stored⟩, ofKind⟩

/-- The registry with one more alias. -/
def ExprRegistry.named (registry : ExprRegistry L R) (label : Relation) (queryId : QueryID) :
    ExprRegistry L R :=
  { registry with aliases := Function.update registry.aliases label (some queryId) }

def ExprRegistry.withExpression (registry : ExprRegistry L R) (queryId : QueryID)
    (expression : RecipeExpr L R) : ExprRegistry L R :=
  { registry.named expression.name queryId with
    skeletons := match expression with
      | .cache name statement _ => registry.skeletons.insert statement name
      | _ => registry.skeletons
    dependencies := addDependencies (registry.named expression.name queryId).aliases queryId
      expression.tableReferences registry.dependencies
    customTypeDependencies := addCustomTypeDependencies queryId expression.customTypeReferences
      registry.customTypeDependencies
    expressions := Function.update registry.expressions queryId (some expression) }

/-- The outcomes of adding an expression: its name is taken, it is there
already, or it is new. -/
theorem addQuery_cases (calculateHash : RecipeExpr L R → QueryID) (registry : ExprRegistry L R)
    (expr : RecipeExpr L R) :
    (∃ problem, registry.addQuery calculateHash expr = .error problem) ∨
      (∀ id, registry.aliases expr.name = some id → id = calculateHash expr) ∧
        (registry.Stored (calculateHash expr) ∧
            registry.addQuery calculateHash expr
              = .ok (false, registry.named expr.name (calculateHash expr)) ∨
          ¬registry.Stored (calculateHash expr) ∧
            registry.addQuery calculateHash expr
              = .ok (true, registry.withExpression (calculateHash expr) expr)) := by
  rcases assignment : registry.assignAlias expr.name (calculateHash expr) with
    problem | assigned
  · refine .inl ⟨problem, ?_⟩
    rw [addQuery, assignment]
    rfl
  · obtain ⟨unclaimed, rfl⟩ := assignAlias_ok assignment
    refine .inr ⟨unclaimed, ?_⟩
    by_cases mem : registry.Stored (calculateHash expr)
    · refine .inl ⟨mem, ?_⟩
      rw [addQuery, assignment]
      exact if_pos mem
    · refine .inr ⟨mem, ?_⟩
      rw [addQuery, assignment]
      exact if_neg mem

omit [DecidableEq L] [DecidableEq R] in
theorem named_extends (unclaimed : ∀ id, registry.aliases label = some id → id = queryId) :
    (registry.named label queryId).Extends registry := by
  refine ⟨fun other id found => ?_, fun _ _ stored => stored⟩
  by_cases same : other = label
  · subst same
    exact (update_self ..).trans (congrArg some (unclaimed id found).symm)
  · exact (update_of_ne same _ _).trans found

omit [DecidableEq L] [DecidableEq R] in
theorem aliases_named {other : Relation}
    (found : (registry.named label queryId).aliases other = some id) :
    registry.aliases other = some id ∨ id = queryId := by
  by_cases same : other = label
  · subst same
    have claimed : (registry.named other queryId).aliases other = some queryId := update_self ..
    exact .inr (some.inj (found.symm.trans claimed))
  · exact .inl ((update_of_ne same _ _).symm.trans found)

theorem withExpression_extends
    (unclaimed : ∀ id, registry.aliases expr.name = some id → id = queryId)
    (new : ¬registry.Stored queryId) : (registry.withExpression queryId expr).Extends registry := by
  refine ⟨(named_extends unclaimed).1, fun id other stored => ?_⟩
  have ne : id ≠ queryId := by
    rintro rfl
    exact new (isSome_iff_exists.mpr ⟨other, stored⟩)
  exact (update_of_ne ne _ _).trans stored

theorem mem_skeletons_withExpression {skeleton : SelectStatement L R}
    {cached : Relation × List (Literal L)}
    (mem : cached ∈ (registry.withExpression queryId expr).skeletons skeleton) :
    cached ∈ registry.skeletons skeleton ∨ cached.1 = expr.name ∧ expr.isCache = true := by
  cases expr with
  | cache name statement always =>
    simp only [withExpression, ExprSkeletons.insert] at mem
    split at mem
    · exact .inl mem
    · by_cases same : skeleton = (decomposeSelect statement).1
      · subst same
        rw [update_self] at mem
        exact (List.mem_append.mp mem).imp_right fun last =>
          ⟨congrArg Prod.fst (List.mem_singleton.mp last), rfl⟩
      · rw [update_of_ne same] at mem
        exact .inl mem
  | _ => exact .inl mem

variable {tracked : Tracked L R}

omit [DecidableEq R] in
theorem sound_named (sound : Sound tracked)
    (unclaimed : ∀ id, tracked.registry.aliases label = some id → id = queryId)
    (mem : tracked.registry.Stored queryId) :
    Sound { tracked with registry := tracked.registry.named label queryId } := by
  have extended := named_extends unclaimed
  constructor
  · intro other id found
    rcases aliases_named found with before | rfl
    · exact sound.aliases other id before
    · exact mem
  · exact sound.dependencyKeys
  · exact sound.dependencyValues
  · exact sound.customTypes
  · exact fun query matched found cache mem =>
      extended.get_any (sound.caches query matched found cache mem)
  · exact fun id expr stored table named added =>
      extended.get_any (sound.tables id expr stored table named added)

/-- So does a new expression under an unclaimed name. -/
theorem sound_withExpression (sound : Sound tracked)
    (unclaimed : ∀ id, tracked.registry.aliases expr.name = some id → id = queryId)
    (new : ¬tracked.registry.Stored queryId) :
    Sound
      { registry := tracked.registry.withExpression queryId expr
        addedWith := update tracked.addedWith queryId tracked.registry.hasTable } := by
  have extended := withExpression_extends unclaimed new
  have added : (tracked.registry.withExpression queryId expr).Stored queryId :=
    isSome_iff_exists.mpr ⟨expr, update_self ..⟩
  constructor
  · intro label id found
    rcases aliases_named found with before | rfl
    · exact extended.stored (sound.aliases label id before)
    · exact added
  · intro id deps recorded
    rcases (addDependencies_eq_some recorded).1 with ⟨before, known⟩ | ⟨reference, found⟩
    · exact extended.stored (sound.dependencyKeys id before known)
    · rcases aliases_named found with before | rfl
      · exact extended.stored (sound.aliases reference id before)
      · exact added
  · intro id deps recorded dep mem
    rcases (addDependencies_eq_some recorded).2 dep mem with rfl | ⟨before, known, old⟩
    · exact added
    · exact extended.stored (sound.dependencyValues id before known dep old)
  · intro ty deps recorded dep mem
    rcases addCustomTypeDependencies_eq_some recorded dep mem with rfl | ⟨before, known, old⟩
    · exact added
    · exact extended.stored (sound.customTypes ty before known dep old)
  · refine (cachesForQuery_iff _ (hasCache _ · = true)).mpr
      fun statement literals cached mem nonempty => ?_
    rcases mem_skeletons_withExpression mem with old | ⟨named, isCache⟩
    · exact extended.get_any ((cachesForQuery_iff _ (hasCache _ · = true)).mp sound.caches
        statement literals cached old nonempty)
    · rw [named]
      exact (any_eq_true _ _).mpr ⟨expr,
        get_eq_some_iff.mpr ⟨queryId, update_self .., update_self ..⟩, isCache⟩
  · intro id user stored table named mem
    dsimp only at mem
    by_cases same : id = queryId
    · subst same
      rw [update_self] at mem
      exact extended.get_any mem
    · rw [update_of_ne same] at mem
      have storedBefore := (update_of_ne same _ _).symm.trans stored
      exact extended.get_any (sound.tables id user storedBefore table named mem)

theorem sound_addQuery (calculateHash : RecipeExpr L R → QueryID)
    (sound : Sound tracked) (expr : RecipeExpr L R) :
    Sound (tracked.step calculateHash (.addQuery expr)) := by
  rw [Tracked.step]
  rcases addQuery_cases calculateHash tracked.registry expr with
    ⟨problem, failed⟩ | ⟨unclaimed, ⟨mem, known⟩ | ⟨new, added⟩⟩
  · simp only [failed]
    exact sound
  · simp only [known]
    exact sound_named sound unclaimed mem
  · simp only [added]
    exact sound_withExpression sound unclaimed new

end

/-! ## Custom types -/

section

variable [DecidableEq L] {tracked : Tracked L R}

section

variable (sound : Sound tracked) {name : Relation}

include sound

theorem sound_of_customTypes {customTypeDependencies : Relation → Option (Finset QueryID)}
    (old : ∀ ty deps, customTypeDependencies ty = some deps → deps = ∅ ∨ ∃ before,
      tracked.registry.customTypeDependencies before = some deps) :
    Sound { tracked with
      registry := { tracked.registry with customTypeDependencies := customTypeDependencies } } := by
  constructor
  · exact sound.aliases
  · exact sound.dependencyKeys
  · exact sound.dependencyValues
  · intro ty deps recorded dep mem
    rcases old ty deps recorded with rfl | ⟨before, known⟩
    · exact absurd mem (Finset.notMem_empty dep)
    · exact sound.customTypes before deps known dep mem
  · exact sound.caches
  · exact sound.tables

theorem sound_addCustomType :
    Sound { tracked with registry := tracked.registry.addCustomType name } := by
  refine sound_of_customTypes sound fun ty deps recorded => ?_
  rcases known : tracked.registry.customTypeDependencies name with _ | before
  · simp only [known] at recorded
    by_cases same : ty = name
    · subst same
      rw [update_self] at recorded
      exact .inl (some.inj recorded).symm
    · rw [update_of_ne same] at recorded
      exact .inr ⟨ty, recorded⟩
  · simp only [known] at recorded
    exact .inr ⟨ty, recorded⟩

theorem sound_removeCustomType :
    Sound { tracked with registry := (tracked.registry.removeCustomType name).2 } := by
  refine sound_of_customTypes sound fun ty deps recorded => ?_
  by_cases same : ty = name
  · subst same
    rw [update_self] at recorded
    cases recorded
  · rw [update_of_ne same] at recorded
    exact .inr ⟨ty, recorded⟩

theorem sound_renameCustomType (oldName newName : Relation) :
    Sound { tracked with registry := tracked.registry.renameCustomType oldName newName } := by
  rw [renameCustomType]
  rcases known : tracked.registry.customTypeDependencies oldName with _ | prev
  · exact sound
  · refine sound_of_customTypes sound fun ty deps recorded => ?_
    by_cases renamed : ty = newName
    · subst renamed
      rw [update_self] at recorded
      exact .inr ⟨oldName, known.trans recorded⟩
    · rw [update_of_ne renamed] at recorded
      by_cases same : ty = oldName
      · subst same
        rw [update_self] at recorded
        cases recorded
      · rw [update_of_ne same] at recorded
        exact .inr ⟨ty, recorded⟩

end

end

/-! ## Every run -/

section

variable [DecidableEq L] [DecidableEq R]

omit [DecidableEq R] in
theorem sound_empty : Sound (Tracked.empty : Tracked L R) := by
  constructor
  · exact fun _ _ found => nomatch found
  · exact fun _ _ found => nomatch found
  · exact fun _ _ found => nomatch found
  · exact fun _ _ found => nomatch found
  · intro query matched found cache mem
    obtain rfl := ok.inj found
    cases mem
  · exact fun _ _ found => nomatch found

/-- From a sound registry, an operation leads to a sound one exactly when it is
admissible. -/
theorem sound_step_iff {calculateHash : RecipeExpr L R → QueryID} (tracked : Tracked L R)
    (op : Operation L R) (sound : Sound tracked) :
    Sound (tracked.step calculateHash op) ↔ Admissible tracked op := by
  cases op with
  | addQuery expr => exact iff_of_true (sound_addQuery calculateHash sound expr) trivial
  | removeExpression nameOrAlias => exact sound_remove_iff sound
  | addCustomType name => exact iff_of_true (sound_addCustomType sound) trivial
  | removeCustomType name => exact iff_of_true (sound_removeCustomType sound) trivial
  | renameCustomType oldName newName =>
    exact iff_of_true (sound_renameCustomType sound oldName newName) trivial

/-- For every sequence of operations, the invariants hold in every state of the
run exactly when every removal is isolated in the state it is made in. -/
theorem states_sound_iff (calculateHash : RecipeExpr L R → QueryID)
    (operations : List (Operation L R)) :
    (∀ earlier later, operations = earlier ++ later →
      Sound (earlier.foldl (Tracked.step calculateHash) Tracked.empty)) ↔
      EveryStep (fun earlier operation =>
        Admissible (earlier.foldl (Tracked.step calculateHash) Tracked.empty) operation)
        operations :=
  foldl_good_iff (sound_step_iff) sound_empty operations

end

/-! ## Removals that are not isolated -/

def unqualified (name : String) : Relation := ⟨none, name⟩

/-- A table with a column of each of some custom types. -/
def tableOf (name : String) (types : List Relation) : RecipeExpr Nat Unit :=
  .table (unqualified name) { fields := types.map .other, rest := () }

/-- A cache `q` over tables of its FROM and JOIN clauses, with one literal. -/
def cacheOver (tables join : List String) : RecipeExpr Nat Unit :=
  .cache (unqualified "q")
    { tables := tables.map fun name => .table (unqualified name)
      join := join.map fun name => [.table (unqualified name)]
      customTypes := []
      literals := [.placeholder (.dollarNumber 1)]
      rest := () } false

/-- Ids for the expressions of the examples. -/
def exampleHash (expression : RecipeExpr Nat Unit) : QueryID :=
  if expression.isCache then 0 else expression.name.name.length

/-- Three runs whose last step, a removal of the table `a`, breaks an
invariant. A cache with `a` in its JOIN clause stays. A cache with `a` and
`bb` in its FROM clause goes, but stays a dependent of `bb` and is still found
for the queries it matches. The custom type of a column of `a` still has the
id of `a`. -/
theorem removals_not_sound :
    let after := fun (operations : List (Operation Nat Unit)) =>
      operations.foldl (Tracked.step exampleHash) Tracked.empty
    let joined := after [.addQuery (tableOf "a" []), .addQuery (tableOf "bb" []),
      .addQuery (cacheOver ["bb"] ["a"]), .removeExpression (unqualified "a")]
    let shared := after [.addQuery (tableOf "a" []), .addQuery (tableOf "bb" []),
      .addQuery (cacheOver ["a", "bb"] []), .removeExpression (unqualified "a")]
    let typed := after [.addCustomType (unqualified "t"), .addQuery (tableOf "a" [unqualified "t"]),
      .removeExpression (unqualified "a")]
    (joined.registry.hasTable (unqualified "a") = false ∧
        joined.registry.get (unqualified "q") = some (cacheOver ["bb"] ["a"]) ∧ ¬Sound joined) ∧
      (shared.registry.dependencies 2 = some {0} ∧ shared.registry.expressions 0 = none ∧
        ¬Sound shared) ∧
      (typed.registry.customTypeDependencies (unqualified "t") = some {1} ∧
        typed.registry.expressions 1 = none ∧ ¬Sound typed) := by
  refine ⟨⟨rfl, rfl, fun sound => ?_⟩, ⟨rfl, rfl, fun sound => ?_⟩, ⟨rfl, rfl, fun sound => ?_⟩⟩
  · have stays := sound.tables 0 (cacheOver ["bb"] ["a"]) rfl (unqualified "a") (by decide) rfl
    exact absurd stays (by decide)
  · exact nomatch sound.dependencyValues 2 {0} rfl 0 (by decide)
  · exact nomatch sound.customTypes (unqualified "t") {1} rfl 1 (by decide)

end ReadySet.Controller
