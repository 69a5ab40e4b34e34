import Mathlib

/-!
Owns runs of a machine that may fail: the trace of inputs and outputs, what it
means for every step of a trace to have a property of the steps before it, and
the rule that turns a step lemma into a statement about whole runs.
-/

namespace ReadySet.Library

open List

universe u v w

section

variable {ε : Type u} {α β : Type v} {first : Except ε α}

@[simp] theorem ok_bind (value : α) (next : α → Except ε β) :
    (Except.ok value >>= next) = next value := rfl

@[simp] theorem error_bind (error : ε) (next : α → Except ε β) :
    (Except.error error >>= next) = .error error := rfl

@[simp] theorem pure_eq_ok (value : α) :
    (pure value : Except ε α) = .ok value := rfl

theorem bind_eq_ok {next : α → Except ε β} {result : β} :
    (first >>= next) = .ok result ↔ ∃ value, first = .ok value ∧ next value = .ok result := by
  cases first <;> simp

theorem map_eq_ok {β : Type w} {f : α → β} {result : β} :
    first.map f = .ok result ↔ ∃ value, first = .ok value ∧ f value = result := by
  cases first <;> simp [Except.map]

theorem ok_pair_inj {β : Type w} {left first : α} {right second : β}
    (same : (.ok (left, right) : Except ε (α × β)) = .ok (first, second)) :
    left = first ∧ right = second :=
  Prod.mk.inj (Except.ok.inj same)

end

/-! ## Properties of every step -/

section

variable {α : Type u}

/-- Every element has a property that may depend on the elements before it. -/
def EveryStep (property : List α → α → Prop) (list : List α) : Prop :=
  ∀ earlier element later, list = earlier ++ element :: later → property earlier element

variable {property : List α → α → Prop} {list : List α}

@[simp] theorem everyStep_nil : EveryStep property [] := by
  intro earlier elem later same
  simp at same

theorem EveryStep.and {other : List α → α → Prop}
    (first : EveryStep property list) (second : EveryStep other list) :
    EveryStep (fun earlier elem => property earlier elem ∧ other earlier elem) list :=
  fun earlier elem later split => ⟨first earlier elem later split, second earlier elem later split⟩

theorem everyStep_concat {last : α} :
    EveryStep property (list ++ [last]) ↔ EveryStep property list ∧ property list last := by
  constructor
  · intro every
    refine ⟨fun earlier elem later same => ?_, every list last [] rfl⟩
    exact every earlier elem (later ++ [last]) (by simp [same])
  · rintro ⟨every, atLast⟩ earlier elem later same
    rcases eq_nil_or_concat later with rfl | ⟨front, final, rfl⟩
    · obtain ⟨rfl, rfl⟩ : list = earlier ∧ last = elem := by
        simpa using append_inj' same rfl
      exact atLast
    · have inner : list = earlier ++ elem :: front := by
        have regrouped : list ++ [last] = (earlier ++ elem :: front) ++ [final] := by
          simpa using same
        exact (append_inj' regrouped rfl).1
      exact every earlier elem front inner

/-- Where a step from a good state leads to a good state exactly when it is
admissible, all states of a run are good exactly when all its steps are
admissible. -/
theorem foldl_good_iff {σ : Type v} {step : σ → α → σ} {good : σ → Prop} {admissible : σ → α → Prop}
    (keeps : ∀ state input, good state → (good (step state input) ↔ admissible state input))
    {start : σ} (initially : good start) (inputs : List α) :
    (∀ earlier later, inputs = earlier ++ later → good (earlier.foldl step start)) ↔
      EveryStep (fun earlier input => admissible (earlier.foldl step start) input) inputs := by
  constructor
  · intro always earlier input later same
    have before := always earlier (input :: later) same
    have after := always (earlier ++ [input]) later (by simp [same])
    rw [foldl_concat] at after
    exact (keeps _ input before).mp after
  · intro every earlier
    induction earlier using reverseRecOn with
    | nil => exact fun _ _ => initially
    | append_singleton earlier input ih =>
      intro later same
      have split : inputs = earlier ++ input :: later := by simp [same]
      rw [foldl_concat]
      exact (keeps _ input (ih _ split)).mpr (every earlier input later split)

end

/-! ## Runs -/

section

variable {σ ο : Type u} {ι : Type u} {ε : Type w} (step : σ → ι → Except ε (ο × σ))

/-- The trace of a run, and the state it ends in. -/
def run : σ → List ι → Except ε (List (ι × ο) × σ)
  | state, [] => .ok ([], state)
  | state, input :: inputs => do
      let (output, state) ← step state input
      let (trace, state) ← run state inputs
      return ((input, output) :: trace, state)

variable {inputs : List ι} {trace : List (ι × ο)} {output : ο} {input : ι}

theorem run_cons_ok {state middle final : σ} (first : step state input = .ok (output, middle))
    (rest : run step middle inputs = .ok (trace, final)) :
    run step state (input :: inputs) = .ok ((input, output) :: trace, final) := by
  simp [run, first, rest]

theorem run_inputs {initial final : σ}
    (ran : run step initial inputs = .ok (trace, final)) : trace.map Prod.fst = inputs := by
  induction inputs generalizing initial trace with
  | nil =>
    obtain ⟨rfl, -⟩ := ok_pair_inj ran
    rfl
  | cons input inputs ih =>
    obtain ⟨⟨output, next⟩, _, ran⟩ := bind_eq_ok.mp ran
    obtain ⟨⟨later, _⟩, rest, same⟩ := bind_eq_ok.mp ran
    obtain ⟨rfl, rfl⟩ := ok_pair_inj same
    rw [map_cons, ih rest]

variable {initial : σ}

/-- If every admissible step from a state that satisfies the invariant succeeds
and keeps it, every admissible run succeeds and ends in a state that satisfies
it. The invariant may speak of the trace so far. -/
theorem run_invariant (inv : List (ι × ο) → σ → Prop) {admissible : List ι → ι → Prop}
    (keeps : ∀ trace state input, inv trace state → admissible (trace.map Prod.fst) input →
      ∃ output next, step state input = .ok (output, next) ∧
      inv (trace ++ [(input, output)]) next)
    (start : inv [] initial) (every : EveryStep admissible inputs) :
    ∃ trace final, run step initial inputs = .ok (trace, final) ∧
      trace.map Prod.fst = inputs ∧ inv trace final := by
  suffices general : ∀ (later : List ι) (past : List (ι × ο)) (state : σ),
      EveryStep admissible (past.map Prod.fst ++ later) → inv past state →
        ∃ trace final, run step state later = .ok (trace, final) ∧
          trace.map Prod.fst = later ∧ inv (past ++ trace) final by
    simpa using general inputs [] initial (by simpa using every) start
  intro later
  induction later with
  | nil =>
    intro past state _ holds
    exact ⟨[], state, rfl, rfl, by simpa using holds⟩
  | cons input later ih =>
    intro past state admitted holds
    obtain ⟨output, next, stepped, kept⟩ :=
      keeps past state input holds (admitted _ input later rfl)
    obtain ⟨trace, final, ran, inputsOf, finally_⟩ :=
      ih (past ++ [(input, output)]) next (by simpa using admitted) kept
    refine ⟨(input, output) :: trace, final, run_cons_ok step stepped ran, ?_, ?_⟩
    · simp [inputsOf]
    · simpa using finally_

/-- Every step of a run is admissible in the state it is taken in. -/
def Along (admissible : σ → ι → Prop) : σ → List ι → Prop
  | _, [] => True
  | state, input :: inputs => admissible state input ∧
      ∀ output next, step state input = .ok (output, next) → Along admissible next inputs

variable {admissible : σ → ι → Prop}

theorem along_cons {state next : σ} (here : admissible state input)
    (stepped : step state input = .ok (output, next)) (later : Along step admissible next inputs) :
    Along step admissible state (input :: inputs) := by
  refine ⟨here, fun other following steppedTo => ?_⟩
  rw [stepped] at steppedTo
  obtain ⟨rfl, rfl⟩ := ok_pair_inj steppedTo
  exact later

/-- If every admissible step from a state that satisfies the invariant succeeds
and keeps it, every run with admissible steps does. The invariant may speak of
the trace so far. -/
theorem run_along_trace (inv : List (ι × ο) → σ → Prop)
    (keeps : ∀ trace state input, inv trace state → admissible state input →
      ∃ output next, step state input = .ok (output, next) ∧
      inv (trace ++ [(input, output)]) next)
    (start : inv [] initial) (along : Along step admissible initial inputs) :
    ∃ trace final, run step initial inputs = .ok (trace, final) ∧ inv trace final := by
  suffices general : ∀ (past : List (ι × ο)) (state : σ), inv past state →
      Along step admissible state inputs →
        ∃ trace final, run step state inputs = .ok (trace, final) ∧ inv (past ++ trace) final by
    exact general [] initial start along
  clear start along
  induction inputs with
  | nil =>
    intro past state holds _
    exact ⟨[], state, rfl, by rwa [append_nil]⟩
  | cons input inputs ih =>
    rintro past state holds ⟨here, later⟩
    obtain ⟨output, next, stepped, kept⟩ := keeps past state input holds here
    obtain ⟨trace, final, ran, finally_⟩ := ih _ next kept (later output next stepped)
    refine ⟨(input, output) :: trace, final, run_cons_ok step stepped ran, ?_⟩
    rwa [append_assoc] at finally_

/-- If every admissible step from a good state succeeds and leads to a good
state, every run with admissible steps does. -/
theorem run_along (good : σ → Prop) (keeps : ∀ state input, good state → admissible state input →
      ∃ output next, step state input = .ok (output, next) ∧ good next)
    (start : good initial) (along : Along step admissible initial inputs) :
    ∃ trace final, run step initial inputs = .ok (trace, final) ∧ good final :=
  run_along_trace step (fun _ state => good state) (fun _ => keeps) start along

end

/-! ## Folds and maps that may fail -/

section

variable {α : Type v} {β : Type u} {ε : Type w}

section

variable (f : β → α → Except ε β) (inv : List α → β → Prop) (list : List α)

/-- The invariant rule for a fold, with the elements already worked off. -/
theorem foldlM_invariant
    (keeps : ∀ done elem rest state, list = done ++ elem :: rest → inv done state → ∃ next,
      f state elem = .ok next ∧ inv (done ++ [elem]) next) {initial : β} (start : inv [] initial) :
    ∃ final, list.foldlM f initial = .ok final ∧ inv list final := by
  suffices general : ∀ (rest done : List α) (state : β), list = done ++ rest →
      inv done state → ∃ final, rest.foldlM f state = .ok final ∧ inv list final by
    exact general list [] initial rfl start
  intro rest
  induction rest with
  | nil =>
    intro done state whole holds
    refine ⟨state, rfl, ?_⟩
    rw [whole, append_nil]
    exact holds
  | cons elem rest ih =>
    intro done state whole holds
    obtain ⟨next, stepped, kept⟩ := keeps done elem rest state whole holds
    obtain ⟨final, folded, holdsFinally⟩ := ih (done ++ [elem]) next (by simp [whole]) kept
    refine ⟨final, ?_, holdsFinally⟩
    simp [stepped, folded]

/-- The invariant rule for a fold that is known to succeed. -/
theorem foldlM_ok_invariant
    (keeps : ∀ done elem rest state next, list = done ++ elem :: rest → inv done state →
      f state elem = .ok next → inv (done ++ [elem]) next)
    {initial final : β} (start : inv [] initial) (folded : list.foldlM f initial = .ok final) :
    inv list final := by
  suffices general : ∀ (rest done : List α) (state : β), list = done ++ rest →
      inv done state → rest.foldlM f state = .ok final → inv list final by
    exact general list [] initial rfl start folded
  intro rest
  induction rest with
  | nil =>
    intro done state whole holds finished
    rw [whole, append_nil, ← Except.ok.inj finished]
    exact holds
  | cons elem rest ih =>
    intro done state whole holds finished
    obtain ⟨next, stepped, finished⟩ := bind_eq_ok.mp finished
    exact ih (done ++ [elem]) next (by simp [whole])
      (keeps done elem rest state next whole holds stepped) finished

end

variable {γ : Type u} {list : List α} {f : α → Except ε γ}

theorem mapM_ok {g : α → γ} (ok : ∀ elem ∈ list, f elem = .ok (g elem)) :
    list.mapM f = .ok (list.map g) := by
  induction list with
  | nil => rfl
  | cons head tail ih =>
    have tailSucceeds := ih fun elem mem =>
      ok elem (by simp [mem])
    rw [mapM_cons, ok head (by simp), tailSucceeds]
    rfl

theorem mapM_some {f : α → Option γ} {results : List γ} (mapped : list.mapM f = some results) :
    List.Forall₂ (fun elem result => f elem = some result) list results := by
  induction list generalizing results with
  | nil =>
    obtain rfl : [] = results := Option.some.inj mapped
    exact .nil
  | cons head tail ih =>
    rw [mapM_cons] at mapped
    obtain ⟨first, ofHead, mapped⟩ := Option.bind_eq_some_iff.mp mapped
    obtain ⟨rest, ofTail, same⟩ := Option.bind_eq_some_iff.mp mapped
    obtain rfl := Option.some.inj same
    exact .cons ofHead (ih ofTail)

section

variable {related : α → γ → Prop} {left : List α} {right : List γ}
  (all : List.Forall₂ related left right)

include all

/-- Every element of the left list has a related one in the right list. -/
theorem exists_right_of_forall₂ {elem : α} (mem : elem ∈ left) :
    ∃ result ∈ right, related elem result := by
  induction all with
  | nil => nomatch mem
  | cons heads tails ih =>
    rcases mem_cons.mp mem with same | later
    · subst same
      exact ⟨_, mem_cons_self, heads⟩
    · obtain ⟨result, found, holds⟩ := ih later
      exact ⟨result, mem_cons_of_mem _ found, holds⟩

/-- Every element of the right list has a related one in the left list. -/
theorem exists_left_of_forall₂ {result : γ} (mem : result ∈ right) :
    ∃ elem ∈ left, related elem result :=
  exists_right_of_forall₂ all.flip mem

end

/-- A list is worked off element by element. -/
theorem exists_mapM_iff {property : α → γ → Prop} :
    (∃ results, list.mapM f = .ok results ∧ List.Forall₂ property list results) ↔
      ∀ elem ∈ list, ∃ result, f elem = .ok result ∧ property elem result := by
  induction list with
  | nil => exact iff_of_true ⟨[], rfl, .nil⟩ (fun _ mem => absurd mem not_mem_nil)
  | cons head tail ih =>
    rw [forall_mem_cons, ← ih]
    constructor
    · rintro ⟨results, mapped, related⟩
      rw [mapM_cons] at mapped
      obtain ⟨result, first, mapped⟩ := bind_eq_ok.mp mapped
      obtain ⟨others, rest, mapped⟩ := bind_eq_ok.mp mapped
      obtain rfl := Except.ok.inj mapped
      obtain ⟨relatedHead, relatedTail⟩ := forall₂_cons.mp related
      exact ⟨⟨result, first, relatedHead⟩, others, rest, relatedTail⟩
    · rintro ⟨⟨result, first, relatedHead⟩, others, rest, relatedTail⟩
      refine ⟨result :: others, ?_, .cons relatedHead relatedTail⟩
      rw [mapM_cons, first, rest]
      rfl

end

end ReadySet.Library
