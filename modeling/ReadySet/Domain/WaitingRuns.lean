import ReadySet.Domain.Waiting

/-!
Owns what the bookkeeping of waiting redos keeps over whole runs: a redo is
registered on exactly the holes that its misses named and that are not filled yet
(`outstanding`), its counter is their number, and it is issued again exactly when
the last of them is filled.

Steps may fail, with the error of a node that cannot remap a miss or of a hole
that nobody waits for, which ends the domain; `waiting_kept` says that they
never panic, and what they do otherwise.
-/

namespace ReadySet.Domain

open Data Dataflow Library List
open Waiting (registerAll register notify fill fillAll)
open Finmap (mem_keys mem_iff lookup_eq_none mem_erase ext_lookup)

universe u

variable {V : Type u} [DecidableEq V]

/-! ## Counters -/

/-- The counters are the numbers of holes, and no hole is without redos. -/
structure Waiting.Counted (w : Waiting V) : Prop where
  counts : ∀ redo, (w.holes.lookup redo).getD 0 = (w.registeredOn redo).card
  positive : ∀ redo, w.holes.lookup redo ≠ some 0
  nonempty : ∀ hole redos, w.redos.lookup hole = some redos → redos ≠ []
  nodup : ∀ hole redos, w.redos.lookup hole = some redos → redos.Nodup

variable {w : Waiting V} {hole : Hole V} {redo : Redo V}

theorem mem_registeredOn :
    hole ∈ w.registeredOn redo ↔ ∃ redos, w.redos.lookup hole = some redos ∧ redo ∈ redos := by
  rw [Waiting.registeredOn, Finset.mem_filter, Finmap.mem_keys, Finmap.mem_iff]
  constructor
  · rintro ⟨⟨redos, found⟩, mem⟩
    rw [found] at mem
    exact ⟨redos, found, mem⟩
  · rintro ⟨redos, found, mem⟩
    exact ⟨⟨redos, found⟩, by rw [found]; exact mem⟩

namespace Waiting.Counted

variable (counted : w.Counted)

include counted

theorem lookup_eq (redo : Redo V) :
    w.holes.lookup redo
      = if (w.registeredOn redo).card = 0 then none else some (w.registeredOn redo).card := by
  have number := counted.counts redo
  rcases found : w.holes.lookup redo with _ | left
  · rw [found] at number
    exact (if_pos number.symm).symm
  · rw [found] at number
    have positive : left ≠ 0 := by
      rintro rfl
      exact counted.positive redo found
    have same : left = (w.registeredOn redo).card := number
    rw [← same, if_neg positive]

theorem mem_holes_iff (redo : Redo V) : redo ∈ w.holes ↔ (w.registeredOn redo).Nonempty := by
  rw [← Finmap.lookup_isSome, counted.lookup_eq redo, ← Finset.card_pos]
  by_cases none_left : (w.registeredOn redo).card = 0
  · simp [none_left]
  · simp [none_left, Nat.pos_of_ne_zero none_left]

theorem keys_nonempty_iff : w.holes.keys.Nonempty ↔ w.redos.keys.Nonempty := by
  constructor
  · rintro ⟨redo, present⟩
    obtain ⟨hole, registered⟩ := (counted.mem_holes_iff redo).mp (mem_keys.mp present)
    obtain ⟨redos, found, _⟩ := mem_registeredOn.mp registered
    exact ⟨hole, mem_keys.mpr (mem_iff.mpr ⟨redos, found⟩)⟩
  · rintro ⟨hole, present⟩
    obtain ⟨redos, found⟩ := mem_iff.mp (mem_keys.mp present)
    obtain ⟨redo, mem⟩ := exists_mem_of_ne_nil redos (counted.nonempty hole redos found)
    exact ⟨redo, mem_keys.mpr ((counted.mem_holes_iff redo).mpr
      ⟨hole, mem_registeredOn.mpr ⟨redos, found, mem⟩⟩)⟩

end Waiting.Counted

theorem counted_of (lookups : ∀ redo, w.holes.lookup redo =
      if (w.registeredOn redo).card = 0 then none else some (w.registeredOn redo).card)
    (nonempty : ∀ hole redos, w.redos.lookup hole = some redos → redos ≠ [])
    (nodup : ∀ hole redos, w.redos.lookup hole = some redos → redos.Nodup) : w.Counted := by
  refine ⟨fun redo => ?_, fun redo => ?_, nonempty, nodup⟩
  · rw [lookups]
    split <;> simp_all
  · rw [lookups]
    split <;> simp_all

theorem counted_default : (Waiting.default : Waiting V).Counted where
  counts _ := rfl
  positive _ found := nomatch found
  nonempty _ _ found := nomatch found
  nodup _ _ found := nomatch found

/-! ## Misses -/

variable {redos : List (Redo V)} {first second third : Waiting V}

/-- What registering the holes that redos need does: the counters stay right, every
redo is registered on just these in addition, and the holes to request are the new
ones. -/
structure Registered (needs : Redo V → Finset (Hole V)) (before after : Waiting V)
    (requested : List (Hole V)) : Prop where
  counted : after.Counted
  registeredOn : ∀ redo, after.registeredOn redo = before.registeredOn redo ∪ needs redo
  nodup : requested.Nodup
  requests : ∀ hole, hole ∈ after.redos ↔ hole ∈ before.redos ∨ hole ∈ requested
  new : ∀ hole ∈ requested, hole ∉ before.redos

theorem Registered.trans {needs others : Redo V → Finset (Hole V)} {some_ more : List (Hole V)}
    (left : Registered needs first second some_) (right : Registered others second third more) :
    Registered (fun redo => needs redo ∪ others redo) first third (some_ ++ more) where
  counted := right.counted
  registeredOn redo := by
    rw [right.registeredOn, left.registeredOn, Finset.union_assoc]
  nodup := by
    refine left.nodup.append right.nodup fun hole early late => ?_
    exact right.new hole late ((left.requests hole).mpr (.inr early))
  requests hole := by
    rw [right.requests, left.requests, mem_append, or_assoc]
  new hole mem := by
    rcases List.mem_append.mp mem with early | late
    · exact left.new hole early
    · exact fun known => right.new hole late ((left.requests hole).mpr (.inl known))

theorem Registered.congr {needs others : Redo V → Finset (Hole V)} {requested : List (Hole V)}
    (registered : Registered needs first second requested)
    (same : ∀ redo, needs redo = others redo) : Registered others first second requested :=
  (funext same : needs = others) ▸ registered

theorem registerAll_concat (redo : Redo V) (holes : List (Hole V)) (hole : Hole V) (w : Waiting V) :
    w.registerAll redo (holes ++ [hole]) =
      ((w.registerAll redo holes).1
        ++ if ((w.registerAll redo holes).2.register redo hole).1 then [hole] else [],
        ((w.registerAll redo holes).2.register redo hole).2) := by
  rw [registerAll, foldl_concat, ← registerAll]
  rcases w.registerAll redo holes with ⟨requested, next⟩
  by_cases new : (next.register redo hole).1 = true <;> simp [new]

section

variable (counted : w.Counted)

include counted

/-- One hole more for one redo keeps the counters right. -/
theorem counted_insert (before : (w.redos.lookup hole).getD [] = redos) (new : redo ∉ redos) :
    let next : Waiting V := ⟨w.addHole redo, w.redos.insert hole (redos ++ [redo])⟩
    next.Counted ∧ next.registeredOn redo = insert hole (w.registeredOn redo) ∧
      ∀ other, other ≠ redo → next.registeredOn other = w.registeredOn other := by
  intro next
  have lookupHole : next.redos.lookup hole = some (redos ++ [redo]) := Finmap.lookup_insert _
  have lookupOther : ∀ other, other ≠ hole → next.redos.lookup other = w.redos.lookup other :=
    fun other ne => Finmap.lookup_insert_of_ne _ ne
  have members : ∀ other otherRedo, other ∈ next.registeredOn otherRedo ↔
      other ∈ w.registeredOn otherRedo ∨ other = hole ∧ otherRedo = redo := by
    intro other otherRedo
    rw [mem_registeredOn, mem_registeredOn]
    by_cases same : other = hole
    · subst same
      rw [lookupHole]
      rcases found : w.redos.lookup other with _ | old
      · rw [found] at before
        simp [← before]
      · rw [found] at before
        simp [← before]
    · rw [lookupOther other same]
      simp [same]
  have absent : hole ∉ w.registeredOn redo := by
    rw [mem_registeredOn]
    rintro ⟨old, found, mem⟩
    rw [found] at before
    exact new (before ▸ mem)
  have ofRedo : next.registeredOn redo = insert hole (w.registeredOn redo) := by
    ext other
    rw [members]
    simp [or_comm]
  have ofOthers : ∀ other, other ≠ redo → next.registeredOn other = w.registeredOn other := by
    intro other ne
    ext hole
    rw [members]
    simp [ne]
  refine ⟨counted_of ?_ ?_ ?_, ofRedo, ofOthers⟩
  · intro other
    by_cases same : other = redo
    · subst same
      refine (Finmap.lookup_insert _).trans ?_
      rw [ofRedo, Finset.card_insert_of_notMem absent, counted.counts, if_neg (Nat.succ_ne_zero _)]
    · rw [ofOthers other same, ← counted.lookup_eq]
      exact Finmap.lookup_insert_of_ne _ same
  · intro other otherRedos found
    by_cases same : other = hole
    · subst same
      obtain rfl := Option.some.inj (lookupHole.symm.trans found)
      simp
    · exact counted.nonempty other otherRedos ((lookupOther other same).symm.trans found)
  · intro other otherRedos found
    by_cases same : other = hole
    · subst same
      obtain rfl := Option.some.inj (lookupHole.symm.trans found)
      have old : redos.Nodup := by
        rcases known : w.redos.lookup other with _ | old
        · rw [known] at before
          rw [← before]
          exact nodup_nil
        · rw [known] at before
          exact before ▸ counted.nodup other old known
      rw [← concat_eq_append]
      exact old.concat new
    · exact counted.nodup other otherRedos ((lookupOther other same).symm.trans found)

/-- Registering a redo on a hole keeps the counters and all that was
registered. -/
theorem counted_register :
    (w.register redo hole).2.Counted ∧
      (w.register redo hole).2.registeredOn redo = insert hole (w.registeredOn redo) ∧
      ∀ other, other ≠ redo →
        (w.register redo hole).2.registeredOn other = w.registeredOn other := by
  rw [register]
  rcases found : w.redos.lookup hole with _ | redos
  · exact counted_insert counted (by rw [found]; rfl) not_mem_nil
  · by_cases mem : redo ∈ redos
    · simp only [if_pos mem]
      have registered : hole ∈ w.registeredOn redo := mem_registeredOn.mpr ⟨redos, found, mem⟩
      exact ⟨counted, (Finset.insert_eq_of_mem registered).symm, fun _ _ => trivial⟩
    · simp only [if_neg mem]
      exact counted_insert counted (by rw [found]; rfl) mem

theorem Registered.refl : Registered (fun _ => ∅) w w [] where
  counted := counted
  registeredOn _ := (Finset.union_empty _).symm
  nodup := nodup_nil
  requests _ := by simp
  new _ mem := nomatch mem

theorem registered_register :
    Registered (fun other => if other = redo then {hole} else ∅) w (w.register redo hole).2
      (if (w.register redo hole).1 then [hole] else []) := by
  obtain ⟨countedAfter, ofRedo, ofOthers⟩ := counted_register counted
  have grows : ∀ other, (w.register redo hole).2.registeredOn other =
      w.registeredOn other ∪ if other = redo then {hole} else ∅ := by
    intro other
    by_cases same : other = redo
    · rw [same, ofRedo, if_pos rfl, Finset.union_comm, Finset.insert_eq]
    · rw [ofOthers other same, if_neg same, Finset.union_empty]
  rcases found : w.redos.lookup hole with _ | redos
  · have absent : hole ∉ w.redos := lookup_eq_none.mp found
    have result : w.register redo hole = (true, ⟨w.addHole redo, w.redos.insert hole [redo]⟩) := by
      rw [register, found]
    refine ⟨countedAfter, grows, ?_, ?_, ?_⟩
    · simp [result]
    · intro other
      simp [result, or_comm]
    · simp [absent]
  · have mem : hole ∈ w.redos := mem_iff.mpr ⟨redos, found⟩
    refine ⟨countedAfter, grows, ?_, ?_, ?_⟩
    · by_cases known : redo ∈ redos <;> simp [register, found, known]
    · intro other
      by_cases known : redo ∈ redos
      · simp [register, found, known]
      · have same : other = hole → other ∈ w.redos := fun equal => equal ▸ mem
        simpa [register, found, known] using same
    · by_cases known : redo ∈ redos <;> simp [register, found, known]

theorem registered_registerAll (redo : Redo V) (holes : List (Hole V)) :
    Registered (fun other => if other = redo then holes.toFinset else ∅) w
      (w.registerAll redo holes).2 (w.registerAll redo holes).1 := by
  induction holes using List.reverseRecOn with
  | nil => exact (Registered.refl counted).congr fun other => by simp
  | append_singleton holes hole ih =>
    rw [registerAll_concat]
    refine (ih.trans (registered_register ih.counted)).congr fun other => ?_
    by_cases same : other = redo <;> simp [same]

end

variable {waiting : Option (Waiting V)} {before after : Option (Waiting V)} {output : Output V}
  {event : Event V}

/-- The holes that one missed key stands for. -/
def ReplayMisses.holesOf (misses : ReplayMisses V) (missKey : KeyComparison V) : List (Hole V) :=
  match misses.remap missKey with
  | .ok remapped => remapped.flatMap ColumnMiss.holes
  | .error _ => []

/-- The holes that a redo misses in, by some of the missed keys. -/
def ReplayMisses.needs (misses : ReplayMisses V)
    (missed : List (KeyComparison V × KeyComparison V)) (redo : Redo V) : Finset (Hole V) :=
  ((missed.filter fun keys => misses.redo keys.1 = redo).flatMap fun keys =>
    misses.holesOf keys.2).toFinset

/-- Misses are registered on their holes, or one cannot be remapped. -/
theorem onReplayMisses_spec (counted : (waiting.getD .default).Counted) (misses : ReplayMisses V) :
    (∃ requested after, onReplayMisses misses waiting = .ok (requested, after) ∧
        Registered (misses.needs misses.missedKeys) (waiting.getD .default) after requested) ∨
      ∃ problem, onReplayMisses misses waiting = .error problem ∧
        ∃ keys ∈ misses.missedKeys, misses.remap keys.2 = .error problem := by
  rw [onReplayMisses]
  generalize waiting.getD .default = before at counted
  -- The induction is on the missed keys; what was requested so far is carried along.
  suffices general : ∀ (missed : List (KeyComparison V × KeyComparison V)) (early : List (Hole V))
      (w : Waiting V) (needs : Redo V → Finset (Hole V)), Registered needs before w early →
      (∃ requested after, missed.foldlM misses.registerKey (early, w) = .ok (requested, after) ∧
          Registered (fun redo => needs redo ∪ misses.needs missed redo) before after requested) ∨
        ∃ problem, missed.foldlM misses.registerKey (early, w) = .error problem ∧
          ∃ keys ∈ missed, misses.remap keys.2 = .error problem by
    simpa using general misses.missedKeys [] before _ (.refl counted)
  intro missed
  induction missed with
  | nil =>
    intro early w needs registered
    refine .inl ⟨early, w, rfl, registered.congr fun redo => ?_⟩
    simp [ReplayMisses.needs]
  | cons keys missed ih =>
    intro early w needs registered
    rcases remapping : misses.remap keys.2 with problem | remapped
    · refine .inr ⟨problem, ?_, keys, mem_cons_self, remapping⟩
      rw [foldlM_cons, ReplayMisses.registerKey, remapping]
      rfl
    · have next := registered.trans (registered_registerAll registered.counted
        (misses.redo keys.1) (remapped.flatMap ColumnMiss.holes))
      have stepped : misses.registerKey (early, w) keys =
          .ok (early ++ (w.registerAll (misses.redo keys.1) (remapped.flatMap ColumnMiss.holes)).1,
            (w.registerAll (misses.redo keys.1) (remapped.flatMap ColumnMiss.holes)).2) := by
        rw [ReplayMisses.registerKey, remapping]
        rfl
      rw [foldlM_cons, stepped]
      rcases ih _ _ _ next with ⟨requested, after, done, all⟩ | ⟨problem, failed, other, mem, cause⟩
      · refine .inl ⟨requested, after, done, all.congr fun redo => ?_⟩
        rw [Finset.union_assoc]
        refine congrArg _ ?_
        by_cases same : misses.redo keys.1 = redo
        · subst same
          simp [ReplayMisses.needs, ReplayMisses.holesOf, remapping]
        · simp [ReplayMisses.needs, same, Ne.symm same]
      · exact .inr ⟨problem, failed, other, mem_cons_of_mem _ mem, cause⟩

/-! ## Filled holes -/

/-- A counter that goes down, until it is gone. -/
def decrement (left : Nat) : Option Nat := if left ≤ 1 then none else some (left - 1)

/-- Every redo of a filled hole is counted down, and released at zero. -/
theorem foldlM_notify (nodup : redos.Nodup) {holes : Finmap fun _ : Redo V => Nat}
    (positive : ∀ redo ∈ redos, ∃ left, holes.lookup redo = some (left + 1))
    (ready : List (Redo V)) :
    ∃ after : Finmap fun _ : Redo V => Nat, redos.foldlM notify (ready, holes)
        = .ok (ready ++ redos.filter (fun redo => holes.lookup redo = some 1), after) ∧
      ∀ redo, after.lookup redo =
        if redo ∈ redos then (holes.lookup redo).bind decrement else holes.lookup redo := by
  induction redos generalizing holes ready with
  | nil => exact ⟨holes, by simp, fun redo => by simp⟩
  | cons redo redos ih =>
    obtain ⟨absent, nodupRest⟩ := List.nodup_cons.mp nodup
    obtain ⟨left, counter⟩ := positive redo mem_cons_self
    have others : ∀ other ∈ redos, other ≠ redo := fun other mem same => absent (same ▸ mem)
    -- The first redo changes its own counter only.
    obtain ⟨first, next, notified, first_eq, own, rest⟩ :
        ∃ (first : List (Redo V)) (next : Finmap fun _ : Redo V => Nat),
          notify (ready, holes) redo = .ok (ready ++ first, next) ∧
          first = [redo].filter (fun redo => holes.lookup redo = some 1) ∧
          next.lookup redo = (holes.lookup redo).bind decrement ∧
          ∀ other, other ≠ redo → next.lookup other = holes.lookup other := by
      by_cases last : left = 0
      · subst last
        refine ⟨[redo], holes.erase redo, ?_, by simp [counter], ?_,
          fun other ne => Finmap.lookup_erase_ne ne⟩
        · simp [notify, counter]
        · rw [Finmap.lookup_erase, counter]
          rfl
      · refine ⟨[], holes.insert redo left, ?_, by simp [counter, last], ?_,
          fun other ne => Finmap.lookup_insert_of_ne _ ne⟩
        · simp [notify, counter, last]
        · rw [counter]
          simp [decrement, last]
    have positiveNext : ∀ other ∈ redos, ∃ left, next.lookup other = some (left + 1) := by
      intro other mem
      rw [rest other (others other mem)]
      exact positive other (mem_cons_of_mem _ mem)
    obtain ⟨after, folded, lookups⟩ := ih nodupRest positiveNext (ready ++ first)
    refine ⟨after, ?_, fun other => ?_⟩
    · have sameReady : redos.filter (fun redo => next.lookup redo = some 1)
          = redos.filter (fun redo => holes.lookup redo = some 1) :=
        filter_congr fun other mem => by rw [rest other (others other mem)]
      rw [foldlM_cons, notified]
      refine folded.trans ?_
      rw [sameReady, append_assoc, first_eq, ← filter_append, singleton_append]
    · rw [lookups other]
      by_cases same : other = redo
      · subst same
        rw [if_neg absent, if_pos mem_cons_self, own]
      · rw [rest other same]
        simp [same]

/-- What filling holes does: they are no longer waited for, the counters stay
right, and the redos all of whose holes are filled are issued again, each
once. -/
structure Filled (before after : Waiting V) (holes : Finset (Hole V)) (reissued : List (Redo V)) :
    Prop where
  counted : after.Counted
  registeredOn : ∀ redo, after.registeredOn redo = before.registeredOn redo \ holes
  nodup : reissued.Nodup
  reissues : ∀ redo, redo ∈ reissued ↔
    (before.registeredOn redo).Nonempty ∧ before.registeredOn redo ⊆ holes

theorem registeredOn_erase (w : Waiting V) (holes : Finmap fun _ : Redo V => Nat) (hole : Hole V)
    (redo : Redo V) :
    (⟨holes, w.redos.erase hole⟩ : Waiting V).registeredOn redo = w.registeredOn redo \ {hole} := by
  ext other
  rw [mem_registeredOn, Finset.mem_sdiff, mem_registeredOn]
  by_cases same : other = hole
  · subst same
    simp
  · simp [same]

theorem lookup_of_erase {redos : Finmap fun _ : Hole V => List (Redo V)} {other : Hole V}
    {found : List (Redo V)} (left : (redos.erase hole).lookup other = some found) :
    redos.lookup other = some found := by
  have ne : other ≠ hole := by
    rintro rfl
    cases (Finmap.lookup_erase other redos).symm.trans left
  exact (Finmap.lookup_erase_ne ne).symm.trans left

/-- A filled hole is taken from its redos. -/
theorem filled_fill (counted : w.Counted) (found : w.redos.lookup hole = some redos) :
    ∃ ready after, w.fill hole = .ok (ready, after) ∧ Filled w after {hole} ready ∧
      after.redos = w.redos.erase hole := by
  have nodup := counted.nodup hole redos found
  have mem : ∀ redo, redo ∈ redos ↔ hole ∈ w.registeredOn redo := by
    intro redo
    rw [mem_registeredOn]
    constructor
    · exact fun present => ⟨redos, found, present⟩
    · rintro ⟨other, same, present⟩
      obtain rfl := Option.some.inj (found.symm.trans same)
      exact present
  have positive : ∀ redo ∈ redos, ∃ left, w.holes.lookup redo = some (left + 1) := by
    intro redo present
    have some_hole : 0 < (w.registeredOn redo).card :=
      Finset.card_pos.mpr ⟨hole, (mem redo).mp present⟩
    refine ⟨(w.registeredOn redo).card - 1, ?_⟩
    rw [counted.lookup_eq, if_neg (by omega)]
    exact congrArg some (by omega)
  obtain ⟨holes, folded, lookups⟩ := foldlM_notify nodup positive []
  refine ⟨redos.filter (fun redo => w.holes.lookup redo = some 1), ⟨holes, w.redos.erase hole⟩,
    ?_, ?_⟩
  · rw [fill, found]
    simp only [folded]
    rfl
  -- The counters of the redos of the hole go down by one, the others stay.
  have counter : ∀ redo, holes.lookup redo =
      if (w.registeredOn redo \ {hole}).card = 0 then none
      else some (w.registeredOn redo \ {hole}).card := by
    intro redo
    rw [lookups, counted.lookup_eq]
    by_cases present : redo ∈ redos
    · have taken : (w.registeredOn redo \ {hole}).card + 1 = (w.registeredOn redo).card := by
        rw [Finset.sdiff_singleton_eq_erase]
        exact Finset.card_erase_add_one ((mem redo).mp present)
      rw [if_pos present, ← taken]
      by_cases last : (w.registeredOn redo \ {hole}).card = 0
      · simp [decrement]
      · simp [last, decrement]
    · have same : w.registeredOn redo \ {hole} = w.registeredOn redo :=
        Finset.sdiff_singleton_eq_erase hole _ ▸ Finset.erase_eq_of_notMem fun registered =>
          present ((mem redo).mpr registered)
      rw [if_neg present, same]
  refine ⟨⟨counted_of ?_ ?_ ?_, registeredOn_erase w holes hole, nodup.filter _, ?_⟩, rfl⟩
  · intro redo
    rw [registeredOn_erase, counter]
  · exact fun other otherRedos left => counted.nonempty other otherRedos (lookup_of_erase left)
  · exact fun other otherRedos left => counted.nodup other otherRedos (lookup_of_erase left)
  · intro redo
    have single : (w.registeredOn redo).Nonempty ∧ w.registeredOn redo ⊆ {hole} ↔
        hole ∈ w.registeredOn redo ∧ (w.registeredOn redo).card = 1 := by
      constructor
      · rintro ⟨some_hole, only⟩
        have same := some_hole.subset_singleton_iff.mp only
        rw [same]
        simp
      · rintro ⟨registered, one⟩
        refine ⟨⟨hole, registered⟩, ?_⟩
        obtain ⟨other, same⟩ := Finset.card_eq_one.mp one
        rw [same] at registered ⊢
        rw [Finset.mem_singleton.mp registered]
    rw [single, mem_filter, ← mem, counted.lookup_eq]
    by_cases none_left : (w.registeredOn redo).card = 0 <;> simp [none_left]

/-- Holes may be filled in two rounds. -/
theorem Filled.trans {some_ more : Finset (Hole V)}
    {early late : List (Redo V)} (left : Filled first second some_ early)
    (right : Filled second third more late) : Filled first third (some_ ∪ more) (early ++ late) where
  counted := right.counted
  registeredOn redo := by
    rw [right.registeredOn, left.registeredOn]
    exact sdiff_sdiff_left
  nodup := by
    refine left.nodup.append right.nodup fun redo inEarly inLate => ?_
    obtain ⟨_, all⟩ := (left.reissues redo).mp inEarly
    obtain ⟨⟨hole, remains⟩, _⟩ := (right.reissues redo).mp inLate
    rw [left.registeredOn, Finset.sdiff_eq_empty_iff_subset.mpr all] at remains
    exact absurd remains (Finset.notMem_empty hole)
  reissues redo := by
    rw [mem_append, left.reissues, right.reissues, left.registeredOn]
    by_cases all : first.registeredOn redo ⊆ some_
    · rw [Finset.sdiff_eq_empty_iff_subset.mpr all]
      simp [all, all.trans Finset.subset_union_left]
    · have remain : (first.registeredOn redo \ some_).Nonempty := Finset.sdiff_nonempty.mpr all
      have some_hole : (first.registeredOn redo).Nonempty := remain.mono Finset.sdiff_subset
      simp [all, remain, some_hole]

theorem Filled.none_ (counted : w.Counted) : Filled w w ∅ [] where
  counted := counted
  registeredOn _ := by simp
  nodup := nodup_nil
  reissues redo := by
    simp only [not_mem_nil, false_iff, not_and, Finset.subset_empty]
    exact fun some_hole => some_hole.ne_empty

/-- The holes of a finished replay are filled, or one of them is not waited
for. -/
theorem fillAll_spec (counted : w.Counted) {holes : List (Hole V)} :
    (∃ reissued after, w.fillAll holes = .ok (reissued, after) ∧
        Filled w after holes.toFinset reissued ∧ ∀ hole ∈ holes, hole ∈ w.redos) ∨
      (∃ message, w.fillAll holes = .error (.internal message)) ∧
        ¬(holes.Nodup ∧ ∀ hole ∈ holes, hole ∈ w.redos) := by
  induction holes generalizing w with
  | nil => exact .inl ⟨[], w, rfl, .none_ counted, fun _ absent => nomatch absent⟩
  | cons hole holes ih =>
    rcases found : w.redos.lookup hole with _ | redos
    · have absent : hole ∉ w.redos := lookup_eq_none.mp found
      refine .inr ⟨⟨"got backfill for unnecessary hole", ?_⟩, fun all =>
        absent (all.2 hole mem_cons_self)⟩
      rw [fillAll, fill, found]
      rfl
    obtain ⟨ready, next, filled, first, erased⟩ := filled_fill counted found
    have present : hole ∈ w.redos := mem_iff.mpr ⟨redos, found⟩
    rcases ih first.counted with
      ⟨reissued, after, rest, second, known⟩ | ⟨⟨message, failed⟩, cause⟩
    · refine .inl ⟨ready ++ reissued, after, ?_, ?_, List.forall_mem_cons.mpr ⟨present, ?_⟩⟩
      · rw [fillAll, filled]
        simp only [rest, ok_bind]
        rfl
      · rw [toFinset_cons]
        exact first.trans second
      · intro other mem
        have left := known other mem
        rw [erased] at left
        exact (mem_erase.mp left).2
    · refine .inr ⟨⟨message, ?_⟩, fun ⟨nodup, all⟩ => cause ?_⟩
      · rw [fillAll, filled]
        simp [failed]
      · obtain ⟨absent, nodupRest⟩ := List.nodup_cons.mp nodup
        refine ⟨nodupRest, fun other mem => ?_⟩
        have ne : other ≠ hole := fun same => absent (same ▸ mem)
        rw [erased]
        exact mem_erase.mpr ⟨ne, all other (mem_cons_of_mem _ mem)⟩

/-! ## Steps -/

theorem eq_default (noHoles : ¬w.holes.keys.Nonempty) (noRedos : ¬w.redos.keys.Nonempty) :
    w = .default := by
  have holes : w.holes = ∅ := by
    refine ext_lookup fun redo => lookup_eq_none.mpr fun mem => ?_
    exact noHoles ⟨redo, mem_keys.mpr mem⟩
  have redos : w.redos = ∅ := by
    refine ext_lookup fun hole => lookup_eq_none.mpr fun mem => ?_
    exact noRedos ⟨hole, mem_keys.mpr mem⟩
  cases w
  simp_all [Waiting.default]

/-- What a node waits for; nothing when it has no bookkeeping. -/
def waitingFor (waiting : Option (Waiting V)) : Waiting V := waiting.getD .default

/-- A finished replay fills its holes, or nobody waits for one of them. -/
theorem finishReplay_spec (counted : (waitingFor waiting).Counted) (finished : FinishedReplay V) :
    (∃ reissued next, finishReplay finished waiting = .ok (reissued, next) ∧
        Filled (waitingFor waiting) (waitingFor next) finished.holes.toFinset reissued) ∨
      (∃ message, finishReplay finished waiting = .error (.internal message)) ∧
        ¬(waiting.isSome = true ∧ finished.holes.Nodup ∧
          ∀ hole ∈ finished.holes, hole ∈ (waitingFor waiting).redos) := by
  rcases waiting with _ | w
  · exact .inr ⟨⟨_, rfl⟩, fun all => nomatch all.1⟩
  rcases fillAll_spec counted with
    ⟨reissued, after, filled, spec, _⟩ | ⟨⟨message, failed⟩, cause⟩
  · have ran : w.fillAll finished.holes = .ok (reissued, after) := filled
    have both := spec.counted.keys_nonempty_iff
    by_cases remain : after.holes.keys.Nonempty
    · refine .inl ⟨reissued, some after, ?_, spec⟩
      simp only [finishReplay, ran, if_pos remain, if_pos (both.mp remain), ok_bind]
      rfl
    · have noRedos : ¬after.redos.keys.Nonempty := fun some_redo => remain (both.mpr some_redo)
      refine .inl ⟨reissued, none, ?_, ?_⟩
      · simp only [finishReplay, ran, if_neg remain, if_neg noRedos, ok_bind]
        rfl
      · have nothing : waitingFor (none : Option (Waiting V)) = after :=
          (eq_default remain noRedos).symm
        rw [nothing]
        exact spec
  · have ran : w.fillAll finished.holes = .error (.internal message) := failed
    refine .inr ⟨⟨message, ?_⟩, fun all => cause all.2⟩
    simp [finishReplay, ran]

/-- What a step does that succeeds. -/
def Follows (before : Option (Waiting V)) (output : Output V) (after : Option (Waiting V)) :
    Event V → Prop
  | .missed misses =>
    Registered (misses.needs misses.missedKeys) (waitingFor before) (waitingFor after)
        output.requested ∧
      output.reissued = []
  | .finished replay =>
    Filled (waitingFor before) (waitingFor after) replay.holes.toFinset output.reissued ∧
      output.requested = []

/-- Why a step fails: the node cannot remap a miss, or a replay fills what is
not waited for. -/
def Refused (before : Option (Waiting V)) (problem : ReadySetError) : Event V → Prop
  | .missed misses => ∃ keys ∈ misses.missedKeys, misses.remap keys.2 = .error problem
  | .finished replay => (∃ message, problem = .internal message) ∧
      ¬(before.isSome = true ∧ replay.holes.Nodup ∧
        ∀ hole ∈ replay.holes, hole ∈ (waitingFor before).redos)

/-- What one event does. -/
theorem step_spec (counted : (waitingFor waiting).Counted) (event : Event V) :
    (∃ output next, step waiting event = .ok (output, next) ∧ Follows waiting output next event) ∨
      ∃ problem, step waiting event = .error problem ∧ Refused waiting problem event := by
  cases event with
  | missed misses =>
    rcases onReplayMisses_spec counted misses with
      ⟨requested, after, registered, spec⟩ | ⟨problem, failed, cause⟩
    · refine .inl ⟨⟨requested, []⟩, some after, ?_, spec, rfl⟩
      simp only [step, registered]
      rfl
    · refine .inr ⟨problem, ?_, cause⟩
      simp [step, failed]
  | finished replay =>
    rcases finishReplay_spec counted replay with
      ⟨reissued, next, finished, spec⟩ | ⟨⟨message, failed⟩, cause⟩
    · refine .inl ⟨⟨[], reissued⟩, next, ?_, spec, rfl⟩
      simp only [step, finished]
      rfl
    · refine .inr ⟨_, ?_, ⟨message, rfl⟩, cause⟩
      simp [step, failed]

theorem Follows.counted
    (follows : Follows before output after event) : (waitingFor after).Counted := by
  cases event with
  | missed misses | finished replay => exact follows.1.counted

/-! ## Every run -/

/-- What an event makes of the holes that a redo waits for: misses add the holes
that they name for it, a finished replay fills holes. -/
def Event.outstanding (redo : Redo V) (holes : Finset (Hole V)) : Event V → Finset (Hole V)
  | .missed misses => holes ∪ misses.needs misses.missedKeys redo
  | .finished replay => holes \ replay.holes.toFinset

/-- The holes that a redo waits for after a run. -/
def outstanding (redo : Redo V) (events : List (Event V)) : Finset (Hole V) :=
  events.foldl (Event.outstanding redo) ∅

/-- How often a redo starts to wait in a run: it waited for no hole and then does. -/
def starts (redo : Redo V) : Finset (Hole V) → List (Event V) → Nat
  | _, [] => 0
  | holes, event :: events =>
    (if holes = ∅ ∧ event.outstanding redo holes ≠ ∅ then 1 else 0) +
      starts redo (event.outstanding redo holes) events

/-- Whether a redo waits. -/
def waits (waiting : Option (Waiting V)) (redo : Redo V) : Bool := redo ∈ (waitingFor waiting).holes

/-- How often a redo is issued again in a run. -/
def reissues (redo : Redo V) (trace : List (Event V × Output V)) : Nat :=
  (trace.map fun entry => entry.2.reissued.count redo).sum

theorem Follows.registeredOn (follows : Follows before output after event) (redo : Redo V) :
    (waitingFor after).registeredOn redo =
      event.outstanding redo ((waitingFor before).registeredOn redo) := by
  cases event with
  | missed misses | finished replay => exact follows.1.registeredOn redo

theorem waits_iff (counted : (waitingFor waiting).Counted) (redo : Redo V) :
    waits waiting redo = true ↔ ((waitingFor waiting).registeredOn redo).Nonempty := by
  rw [waits, decide_eq_true_eq, counted.mem_holes_iff]

theorem count_reissued
    (counted : (waitingFor before).Counted) (follows : Follows before output after event)
    (redo : Redo V) :
    let holes := (waitingFor before).registeredOn redo
    output.reissued.count redo + (if waits after redo then 1 else 0)
      = (if holes = ∅ ∧ event.outstanding redo holes ≠ ∅ then 1 else 0)
        + (if waits before redo then 1 else 0) := by
  simp only [waits_iff counted redo, waits_iff follows.counted redo, follows.registeredOn redo,
    Finset.nonempty_iff_ne_empty]
  cases event with
  | missed misses =>
    rw [follows.2, Event.outstanding]
    generalize (waitingFor before).registeredOn redo = holes
    by_cases idle : holes = ∅ <;> simp [idle]
  | finished replay =>
    have filled := follows.1
    have mem := filled.reissues redo
    rw [filled.nodup.count, Event.outstanding]
    generalize (waitingFor before).registeredOn redo = holes at mem
    by_cases idle : holes = ∅
    · simp [mem, idle]
    · by_cases all : holes ⊆ replay.holes.toFinset <;>
        simp [mem, idle, all, Finset.nonempty_iff_ne_empty, Finset.sdiff_eq_empty_iff_subset]

/-- The counts along a run, by induction on its events. -/
theorem count_run {final : Option (Waiting V)} {events : List (Event V)}
    {trace : List (Event V × Output V)} (counted : (waitingFor waiting).Counted)
    (ran : run step waiting events = .ok (trace, final)) :
    (waitingFor final).Counted ∧
      (∀ redo, (waitingFor final).registeredOn redo =
        events.foldl (Event.outstanding redo) ((waitingFor waiting).registeredOn redo)) ∧
      ∀ redo, reissues redo trace + (if waits final redo then 1 else 0)
        = starts redo ((waitingFor waiting).registeredOn redo) events +
          (if waits waiting redo then 1 else 0) := by
  induction events generalizing waiting trace with
  | nil =>
    obtain ⟨rfl, rfl⟩ := ok_pair_inj ran
    exact ⟨counted, fun _ => rfl, fun redo => by simp [reissues, starts]⟩
  | cons event events ih =>
    rcases step_spec counted event with ⟨output, next, stepped, follows⟩ | ⟨problem, failed, _⟩
    · rcases rest : run step next events with problem | ⟨later, last⟩
      · simp [run, stepped, rest] at ran
      · have whole := run_cons_ok step stepped rest
        obtain ⟨rfl, rfl⟩ := ok_pair_inj (whole.symm.trans ran)
        obtain ⟨countedLast, registered, counts⟩ := ih follows.counted rest
        refine ⟨countedLast, fun redo => ?_, fun redo => ?_⟩
        · rw [registered, follows.registeredOn, foldl_cons]
        · have here := count_reissued counted follows redo
          have there := counts redo
          rw [follows.registeredOn] at there
          simp only [reissues, map_cons, sum_cons, starts] at here there ⊢
          omega
    · simp [run, failed] at ran

/-- In every run of misses and finished replays, and in every state it reaches:
a redo is registered on exactly the holes that its misses named and that were not
filled since, its counter is their number, no hole is left when no redo is, and a
redo has been issued again once for every time it waited to the end. The next step
does not panic: it registers misses, or takes the filled holes from their redos and
issues those again that have no other, or is refused. -/
theorem waiting_kept (events : List (Event V)) (trace : List (Event V × Output V))
    (state : Option (Waiting V)) (ran : run step none events = .ok (trace, state)) :
    (∀ redo, (waitingFor state).registeredOn redo = outstanding redo events ∧
        ((waitingFor state).holes.lookup redo).getD 0 = (outstanding redo events).card) ∧
      ((waitingFor state).holes.keys = ∅ ↔ (waitingFor state).redos.keys = ∅) ∧
      (∀ redo, reissues redo trace + (if waits state redo then 1 else 0)
        = starts redo ∅ events) ∧
      ∀ event,
        (∃ output next, step state event = .ok (output, next) ∧ Follows state output next event) ∨
          ∃ problem, step state event = .error problem ∧ Refused state problem event := by
  have initial : (waitingFor (none : Option (Waiting V))).Counted := counted_default
  obtain ⟨counted, registered, counts⟩ := count_run initial ran
  have holes : ∀ redo, (waitingFor state).registeredOn redo = outstanding redo events := registered
  refine ⟨fun redo => ⟨holes redo, ?_⟩, ?_, fun redo => ?_, step_spec counted⟩
  · rw [counted.counts, holes]
  · rw [← Finset.not_nonempty_iff_eq_empty, ← Finset.not_nonempty_iff_eq_empty]
    exact not_congr counted.keys_nonempty_iff
  · have balance := counts redo
    have idle : waits (none : Option (Waiting V)) redo = false := rfl
    rw [idle] at balance
    exact balance

/-- The redo of a replay of the key `0`. -/
def zeroRedo : Redo Nat where
  tag := 7
  replayKey := compared (.equal [.value 0])
  unishard := false
  requestingShard := 0
  requestingReplica := 0

/-- A replay of the key `0` that misses on the keys `1` and `2`. The first is filled,
then the second, as a range. -/
def twoHoles : List (Event Nat) :=
  [.missed
    { missIn := 3
      missColumns := [0]
      missedKeys := [(.equal [.value 0], .equal [.value 1]), (.equal [.value 0], .equal [.value 2])]
      wasSingleShard := false
      requestingShard := 0
      requestingReplica := 0
      neededFor := 7
      handleUpquery := none },
    .finished { target := 3, columns := [0], forKeys := [.equal [.value 1]] },
    .finished
      { target := 3
        columns := [0]
        forKeys := [.range (.included [.value 2]) (.included [.value 2])] }]

/-- The redo waits for one hole after the first is filled, and is issued again when
the second is. -/
theorem waiting_kept_twoHoles :
    (∃ trace state, run step none (twoHoles.take 2) = .ok (trace, state) ∧
      (waitingFor state).registeredOn zeroRedo = {⟨3, [0], compared (.equal [.value 2])⟩} ∧
      ((waitingFor state).holes.lookup zeroRedo).getD 0 = 1 ∧ reissues zeroRedo trace = 0) ∧
    ∃ trace state, run step none twoHoles = .ok (trace, state) ∧
      (waitingFor state).registeredOn zeroRedo = ∅ ∧
      ((waitingFor state).holes.lookup zeroRedo).getD 0 = 0 ∧ reissues zeroRedo trace = 1 := by
  have ranTo (events : List (Event Nat)) (waiting : Bool)
      (succeeds : ((run step none events).toOption.any fun ran =>
        waits ran.2 zeroRedo == waiting) = true) :
      ∃ trace state, run step none events = .ok (trace, state) ∧ waits state zeroRedo = waiting := by
    rcases ran : run step none events with problem | ⟨trace, state⟩
    · rw [ran] at succeeds
      cases succeeds
    · rw [ran] at succeeds
      exact ⟨trace, state, rfl, beq_iff_eq.mp succeeds⟩
  constructor
  · obtain ⟨trace, state, ran, waiting⟩ := ranTo (twoHoles.take 2) true (by decide)
    obtain ⟨registered, -, balance, -⟩ := waiting_kept (twoHoles.take 2) trace state ran
    have left : outstanding zeroRedo (twoHoles.take 2) =
        {⟨3, [0], compared (.equal [.value 2])⟩} := by decide
    have started : starts zeroRedo ∅ (twoHoles.take 2) = 1 := by decide
    have reissued := balance zeroRedo
    rw [waiting, started] at reissued
    refine ⟨trace, state, ran, left ▸ (registered zeroRedo).1, ?_, Nat.succ.inj reissued⟩
    rw [(registered zeroRedo).2, left, Finset.card_singleton]
  · obtain ⟨trace, state, ran, waiting⟩ := ranTo twoHoles false (by decide)
    obtain ⟨registered, -, balance, -⟩ := waiting_kept twoHoles trace state ran
    have left : outstanding zeroRedo twoHoles = ∅ := by decide
    have started : starts zeroRedo ∅ twoHoles = 1 := by decide
    have reissued := balance zeroRedo
    rw [waiting, started] at reissued
    refine ⟨trace, state, ran, left ▸ (registered zeroRedo).1, ?_, reissued⟩
    rw [(registered zeroRedo).2, left, Finset.card_empty]

end ReadySet.Domain
