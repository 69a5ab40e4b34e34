import ReadySet.DataflowState.Persistent.Range

/-!
Owns the comparator of B-tree column families as an order of written keys
(`make_compare_keys!`): for which columns it reads every key back, orders the
byte strings, and puts keys in the order of their values.

In a key of several columns a text is written without its variant. NULL and the
empty text are one key there, and other texts are read as something else or not
at all. Elsewhere only keys that compare equal but are written differently can
be confused, and are unless their last bytes differ.
-/

namespace ReadySet.DataflowState.Persistent

open Data Library Dataflow DataflowState Key

variable {X : Type} {env : Externals X} {kinds : List Kind} {kind : Kind}

/-- The comparator on the written keys at hand, with any suffixes: it does not
panic, it is a total order, and keys of different values stand in the order of
the values. -/
structure Orders (env : Externals X) (kinds : List Kind) (keys : Key (Datum X) → Prop) : Prop where
  reads : ∀ key extra, keys key →
    (deserializeKey env kinds.length (serializeKey (.ofExternals env) key extra)).isSome = true
  total : OrderedOn (compareKeys env kinds.length) (Holds env keys)
  follows : ∀ left right leftExtra rightExtra, keys left → keys right →
    compareIn env (left.transform env) (right.transform env) ≠ .eq →
    compareKeys env kinds.length (serializeKey (.ofExternals env) left leftExtra)
        (serializeKey (.ofExternals env) right rightExtra) =
      compareIn env (left.transform env) (right.transform env)

/-- The last bytes of a written key, as many as its length takes: the comparator
reads the suffix from the size of the key on, and so these once more. -/
def keyEnd (env : Externals X) (key : Key (Datum X)) : Bytes :=
  (serializePrefix (.ofExternals env) key).drop (serialize env key).length

/-- Keys of equal values are written alike, or their last bytes tell them apart. -/
def ToldApart (env : Externals X) (keys : Key (Datum X) → Prop) : Prop :=
  ∀ left right, keys left → keys right →
    compareIn env (left.transform env) (right.transform env) = .eq →
    keyEnd env left <+: keyEnd env right ∨ keyEnd env right <+: keyEnd env left →
      serialize env left = serialize env right

/-- Values of the kind that compare equal are identical, once texts are
normalised. Timestamps and times hold more than they compare. -/
def Discrete (env : Externals X) : Kind → Prop
  | .int | .text | .byteArray | .max => True
  | .foreign kind => ∀ left right, env.cmpForeign kind left right = .eq → left = right
  | .float | .double | .timestampTz | .time => False

/-! ## Keys as they are written -/

theorem transform_transform (cell : DfValue (Datum X)) :
    (cell.transformForSerializedKey env).transformForSerializedKey env =
      cell.transformForSerializedKey env := by
  cases cell with
  | none => rfl
  | value datum =>
    cases datum with
    | text collation bytes => rw [transform_text, transform_text]; rfl
    | _ => rfl

theorem serialize_transform (key : Key (Datum X)) :
    serialize env (key.transform env) = serialize env key := by
  have element : ∀ cell : DfValue (Datum X),
      (cell.transformForSerializedKey env).serializeElement env = cell.serializeElement env := by
    intro cell
    rw [DfValue.serializeElement, transform_transform, DfValue.serializeElement]
  rcases key with _ | ⟨cell, _ | ⟨second, rest⟩⟩
  · rfl
  · exact congrArg (DfValue.serialize env) (transform_transform cell)
  · simp [transform, serialize, List.flatMap_map, element]

/-- Normalised values of a discrete kind that compare equal are identical. -/
theorem eq_of_compareIn_eq (discrete : Discrete env kind)
    {left right : DfValue (Datum X)} (isLeft : left.Typed kind) (isRight : right.Typed kind)
    (same : DfValue.compareIn env (left.transformForSerializedKey env)
      (right.transformForSerializedKey env) = .eq) :
    left.transformForSerializedKey env = right.transformForSerializedKey env := by
  cases left with
  | none =>
    cases right with
    | none => rfl
    | value datum =>
      obtain ⟨held, isHeld, _⟩ := transform_value env datum
      rw [isHeld] at same
      contradiction
  | value left =>
    cases right with
    | none =>
      obtain ⟨held, isHeld, _⟩ := transform_value env left
      rw [isHeld] at same
      contradiction
    | value right =>
      have kinds : left.kind = right.kind := Eq.trans isLeft (Eq.symm isRight)
      subst isLeft
      cases left with
      | text collation bytes =>
        cases right with
        | text other otherBytes =>
          rw [transform_text, transform_text] at same ⊢
          have normal : collation.normalize env bytes = other.normalize env otherBytes :=
            Std.LawfulEqCmp.eq_of_compare (show Bytes.cmp _ _ = .eq from same)
          rw [normal]
        | _ => cases kinds
      | foreign kind datum =>
        cases right with
        | foreign other otherDatum =>
          obtain rfl := Kind.foreign.inj kinds
          rw [discrete datum otherDatum ((if_pos rfl).symm.trans same)]
        | _ => cases kinds
      | _ =>
        cases right <;> simp_all [Discrete, Datum.kind, DfValue.transformForSerializedKey,
          DfValue.compareIn, Datum.cmp]

theorem transform_eq_of_compareIn {left right : Key (Datum X)}
    (discrete : ∀ kind ∈ kinds, Discrete env kind) (isLeft : Key.Typed kinds left)
    (isRight : Key.Typed kinds right)
    (same : compareIn env (left.transform env) (right.transform env) = .eq) :
    left.transform env = right.transform env := by
  induction isLeft generalizing right with
  | nil =>
    cases isRight
    rfl
  | cons head _ ih =>
    cases isRight with
    | cons otherHead otherTail =>
      simp only [compareIn, transform, List.map_cons, List.compareLex_cons_cons,
        Ordering.then_eq_eq] at same
      rw [List.forall_mem_cons] at discrete
      have rest := ih discrete.2 otherTail same.2
      simp only [transform, List.map_cons] at rest ⊢
      rw [eq_of_compareIn_eq discrete.1 head otherHead same.1, rest]

/-- Keys of columns without hidden differences are told apart. -/
theorem toldApart_of_discrete (discrete : ∀ kind ∈ kinds, Discrete env kind) :
    ToldApart env (Key.Typed kinds) := by
  intro left right isLeft isRight same _
  rw [← serialize_transform left, ← serialize_transform right,
    transform_eq_of_compareIn discrete isLeft isRight same]

/-- So are timestamps that print alike, such as those in UTC. -/
theorem toldApart_of_extra (extra : UInt8 × UInt8 × UInt8) :
    ToldApart env fun key => ∃ seconds nanos, key = [.value (.timestampTz seconds nanos extra)] := by
  rintro _ _ ⟨seconds, nanos, rfl⟩ ⟨otherSeconds, otherNanos, rfl⟩ same _
  obtain ⟨rfl, rfl⟩ : seconds = otherSeconds ∧ nanos = otherNanos := by
    simpa [compareIn, transform, DfValue.transformForSerializedKey, DfValue.compareIn, Datum.cmp,
      List.compareLex_cons_cons, List.compareLex_nil_nil,
      BitVec.toInt_inj, BitVec.toNat_inj] using same
  rfl

/-! ## The keys that the comparator orders -/

/-- Keys by their values, then by their last bytes and suffixes. -/
def endCmp (env : Externals X) (kinds : List Kind) :
    Key (Datum X) × Bytes → Key (Datum X) × Bytes → Ordering :=
  compareLex (Ordering.byKey (fun pair => pair.1.transform env) (Key.cmpWithin env kinds))
    (Ordering.byKey (fun pair => keyEnd env pair.1 ++ pair.2) Bytes.cmp)

section

variable {keys : Key (Datum X) → Prop} (readBack : ReadBack kinds keys)
  {left right : Key (Datum X)}

include readBack

theorem compareIn_eq_cmpWithin (isLeft : keys left) (isRight : keys right) :
    compareIn env (left.transform env) (right.transform env) =
      Key.cmpWithin env kinds (left.transform env) (right.transform env) :=
  compareIn_transform (readBack.bounded left isLeft) (readBack.bounded right isRight)

theorem ReadBack.compareKeys_eq (isLeft : keys left) (isRight : keys right)
    (leftExtra rightExtra : Bytes) :
    compareKeys env kinds.length (serializeKey (.ofExternals env) left leftExtra)
        (serializeKey (.ofExternals env) right rightExtra) =
      endCmp env kinds (left, leftExtra) (right, rightExtra) := by
  rw [compareKeys, readBack.deserializeKey_eq isLeft, readBack.deserializeKey_eq isRight]
  simp only [drop_serializeKey]
  rw [compareIn_eq_cmpWithin readBack isLeft isRight]
  rfl

/-- Two written keys compare equal exactly if their values do and one goes on
where the other ends. -/
theorem ReadBack.compareKeys_eq_eq (isLeft : keys left) (isRight : keys right)
    {leftExtra rightExtra : Bytes} :
    compareKeys env kinds.length (serializeKey (.ofExternals env) left leftExtra)
        (serializeKey (.ofExternals env) right rightExtra) = .eq ↔
      compareIn env (left.transform env) (right.transform env) = .eq ∧
        keyEnd env left ++ leftExtra = keyEnd env right ++ rightExtra := by
  rw [readBack.compareKeys_eq isLeft isRight, endCmp, compareLex_eq_eq,
    compareIn_eq_cmpWithin readBack isLeft isRight]
  refine and_congr_right fun _ => ?_
  change Bytes.cmp _ _ = .eq ↔ _
  exact Std.LawfulEqCmp.compare_eq_iff_eq

theorem toldApart_of_separates
    (separates : ∀ left right, Holds env keys left → Holds env keys right →
      compareKeys env kinds.length left right = .eq → left = right) : ToldApart env keys := by
  intro left right isLeft isRight same ends
  -- the longer end goes on with a suffix of the shorter one
  obtain ⟨leftExtra, rightExtra, joined⟩ : ∃ leftExtra rightExtra,
      keyEnd env left ++ leftExtra = keyEnd env right ++ rightExtra := by
    rcases ends with ⟨rest, whole⟩ | ⟨rest, whole⟩
    · exact ⟨rest, [], by rw [whole, List.append_nil]⟩
    · exact ⟨[], rest, by rw [whole, List.append_nil]⟩
  have bytes := separates _ _ ⟨left, leftExtra, isLeft, rfl⟩ ⟨right, rightExtra, isRight, rfl⟩
    ((readBack.compareKeys_eq_eq isLeft isRight).mpr ⟨same, joined⟩)
  exact (serializeKey_inj bytes).1

theorem ToldApart.separates (told : ToldApart env keys) (isLeft : keys left) (isRight : keys right)
    {leftExtra rightExtra : Bytes}
    (same : compareKeys env kinds.length (serializeKey (.ofExternals env) left leftExtra)
      (serializeKey (.ofExternals env) right rightExtra) = .eq) :
    serializeKey (.ofExternals env) left leftExtra =
      serializeKey (.ofExternals env) right rightExtra := by
  obtain ⟨keyed, joined⟩ := (readBack.compareKeys_eq_eq isLeft isRight).mp same
  have written := told left right isLeft isRight keyed
    (List.prefix_or_prefix_of_prefix (List.prefix_append _ leftExtra)
      (joined ▸ List.prefix_append _ rightExtra))
  have ends : keyEnd env left = keyEnd env right := by
    simp [keyEnd, serializePrefix, serializeKey, ValueFormat.ofExternals, written]
  rw [ends, List.append_cancel_left_eq] at joined
  simp [serializeKey, ValueFormat.ofExternals, written, joined]

/-- Keys that are read back are ordered exactly if they are told apart. -/
theorem ReadBack.orders_iff_toldApart (ordered : env.Ordered) :
    Orders env kinds keys ↔ ToldApart env keys := by
  refine ⟨fun orders => toldApart_of_separates readBack orders.total.separates, fun told => ?_⟩
  have := ordered.transCmp_key kinds
  have lawful : Std.TransCmp (endCmp env kinds) :=
    inferInstanceAs (Std.TransCmp (compareLex
      (Ordering.byKey (fun pair : Key (Datum X) × Bytes => pair.1.transform env)
        (Key.cmpWithin env kinds))
      (Ordering.byKey (fun pair : Key (Datum X) × Bytes => keyEnd env pair.1 ++ pair.2) Bytes.cmp)))
  refine ⟨fun key extra isKey => ?_, ⟨?_, ?_, ?_, ?_⟩, ?_⟩
  · rw [readBack.deserializeKey_eq isKey]
    rfl
  · rintro _ ⟨key, extra, isKey, rfl⟩
    rw [readBack.compareKeys_eq isKey isKey]
    exact Std.ReflCmp.compare_self
  · rintro _ _ ⟨left, leftExtra, isLeft, rfl⟩ ⟨right, rightExtra, isRight, rfl⟩
    rw [readBack.compareKeys_eq isLeft isRight, readBack.compareKeys_eq isRight isLeft]
    exact Std.OrientedCmp.eq_swap
  · rintro _ _ _ ⟨left, leftExtra, isLeft, rfl⟩ ⟨middle, middleExtra, isMiddle, rfl⟩
      ⟨right, rightExtra, isRight, rfl⟩
    rw [readBack.compareKeys_eq isLeft isMiddle, readBack.compareKeys_eq isMiddle isRight,
      readBack.compareKeys_eq isLeft isRight]
    exact Std.TransCmp.lt_trans
  · rintro _ _ ⟨left, leftExtra, isLeft, rfl⟩ ⟨right, rightExtra, isRight, rfl⟩
    exact told.separates readBack isLeft isRight
  · intro left right leftExtra rightExtra isLeft isRight apart
    rw [readBack.compareKeys_eq isLeft isRight, compareIn_eq_cmpWithin readBack isLeft isRight]
    rw [compareIn_eq_cmpWithin readBack isLeft isRight] at apart
    simp only [endCmp, compareLex, Ordering.byKey]
    cases order : Key.cmpWithin env kinds (left.transform env) (right.transform env) with
    | eq => exact absurd order apart
    | lt => rfl
    | gt => rfl

end

/-- Beside another column, NULL and the empty text are written alike. -/
theorem exists_written_alike (mem : Kind.text ∈ kinds) :
    ∃ left right : Key (Datum X), Key.Typed kinds left ∧ Key.Typed kinds right ∧
      List.Forall₂ (DfValue.WrittenAlike env true) left right ∧
      compareIn env (left.transform env) (right.transform env) = .lt := by
  have nulls : ∀ kinds : List Kind, ∃ key : Key (Datum X), Key.Typed kinds key ∧
      List.Forall₂ (DfValue.WrittenAlike env true) key key := by
    intro kinds
    induction kinds with
    | nil => exact ⟨[], .nil, .nil⟩
    | cons kind kinds ih =>
      obtain ⟨key, typed, alike⟩ := ih
      exact ⟨.none :: key, .cons trivial typed, .cons rfl alike⟩
  induction kinds with
  | nil => simp at mem
  | cons kind kinds ih =>
    rcases List.mem_cons.mp mem with rfl | mem
    · obtain ⟨key, typed, alike⟩ := nulls kinds
      exact ⟨.none :: key, .value (.text .utf8 []) :: key, .cons trivial typed, .cons rfl typed,
        .cons ⟨rfl, rfl⟩ alike, rfl⟩
    · obtain ⟨left, right, isLeft, isRight, alike, below⟩ := ih mem
      exact ⟨.none :: left, .none :: right, .cons trivial isLeft, .cons trivial isRight,
        .cons rfl alike, below⟩

/-- Beside another column, texts keep the keys of all values from being ordered. -/
theorem Orders.several (orders : Orders env kinds (Key.Typed kinds)) (several : kinds.length ≠ 1) :
    Kind.text ∉ kinds := by
  intro mem
  obtain ⟨left, right, isLeft, isRight, alike, below⟩ := @exists_written_alike X env kinds mem
  have written : serialize env left = serialize env right := by
    rw [serialize_eq_iff isLeft isRight, WrittenAlike, ← isLeft.length_eq]
    simpa [several] using alike
  have same : serializeKey (.ofExternals env) left [] =
      serializeKey (.ofExternals env) right [] := by
    simp [serializeKey, ValueFormat.ofExternals, written]
  have apart := orders.follows left right [] [] isLeft isRight (by rw [below]; decide)
  rw [same, below, orders.total.refl _ ⟨right, [], isRight, rfl⟩] at apart
  contradiction

/-- **The comparator orders the keys of some columns exactly if a text stands
alone and keys of equal values are told apart.** For columns without a text
beside another one the condition is exact on any set of keys, such as the
timestamps of one offset. -/
theorem orders_iff (ordered : env.Ordered) :
    (Orders env kinds (Key.Typed kinds) ↔
      (kinds.length ≠ 1 → Kind.text ∉ kinds) ∧ ToldApart env (Key.Typed kinds)) ∧
    ((kinds.length ≠ 1 → Kind.text ∉ kinds) → ∀ keys : Key (Datum X) → Prop,
      (∀ key, keys key → Key.Typed kinds key) → (Orders env kinds keys ↔ ToldApart env keys)) := by
  have exact_ (several : kinds.length ≠ 1 → Kind.text ∉ kinds) (keys : Key (Datum X) → Prop)
      (typed : ∀ key, keys key → Key.Typed kinds key) : Orders env kinds keys ↔ ToldApart env keys :=
    ReadBack.orders_iff_toldApart
      ⟨fun key isKey => (typed key isKey).imp fun _ _ => .inl, several⟩ ordered
  refine ⟨⟨fun orders => ?_, fun both => ?_⟩, exact_⟩
  · exact ⟨orders.several, (exact_ orders.several _ fun _ => id).mp orders⟩
  · exact (exact_ both.1 _ fun _ => id).mpr both.2

/-- Two keys of a number and a text: NULL and the empty text compare equal, and a
text of twelve bytes cannot be read. -/
theorem text_beside_number_misread :
    (compareIn .ascii [.none, .none] [.none, .value (.text .utf8 [])] = .lt ∧
      compareKeys .ascii 2 (serializeKey (.ofExternals .ascii) [.none, .none] [])
        (serializeKey (.ofExternals .ascii) [.none, .value (.text .utf8 [])] []) = .eq) ∧
    deserializeKey .ascii 2 (serializeKey (.ofExternals .ascii)
      [.none, .value (.text .utf8 (List.replicate 12 97))] []) = none := by
  decide

theorem number_and_bytes_ordered :
    Orders Externals.ascii [.int, .byteArray] (Key.Typed [.int, .byteArray]) :=
  (orders_iff ascii_ordered).1.mpr ⟨by simp, toldApart_of_discrete (by simp [Discrete])⟩

end ReadySet.DataflowState.Persistent
