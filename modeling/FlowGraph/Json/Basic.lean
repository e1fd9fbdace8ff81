/-
**JSON values.**

A JSON value keeps whole numbers apart from floating-point numbers. The fields of an object stand in
the order in which they are written. `Json.object` builds an object whose fields are sorted by key
and whose keys are distinct, the last of several fields with one key winning.

* `Json.same`: equality of content, in which `0.0` and `-0.0` are equal and whole numbers differ
  from floating-point numbers;
* an instance of `DecidableEq`, for equality of values.
-/

namespace FlowGraph

/-- A JSON value. -/
inductive Json where
  | null
  | bool (b : Bool)
  | int (n : Int)
  | float (x : Float)
  | str (s : String)
  | arr (items : List Json)
  | obj (fields : List (String × Json))

namespace Json

/-! ### Equality -/

mutual

/-- Equality of values up to a given equality of floating-point numbers. -/
def eqBy (eqFloat : Float → Float → Bool) : Json → Json → Bool
  | .null, .null => true
  | .bool a, .bool b => a == b
  | .int a, .int b => a == b
  | .float a, .float b => eqFloat a b
  | .str a, .str b => a == b
  | .arr as, .arr bs => eqItemsBy eqFloat as bs
  | .obj as, .obj bs => eqFieldsBy eqFloat as bs
  | _, _ => false

/-- Equality of rows of items. -/
def eqItemsBy (eqFloat : Float → Float → Bool) : List Json → List Json → Bool
  | [], [] => true
  | a :: as, b :: bs => eqBy eqFloat a b && eqItemsBy eqFloat as bs
  | _, _ => false

/-- Equality of rows of fields. -/
def eqFieldsBy (eqFloat : Float → Float → Bool) :
    List (String × Json) → List (String × Json) → Bool
  | [], [] => true
  | (k, a) :: as, (l, b) :: bs => k == l && eqBy eqFloat a b && eqFieldsBy eqFloat as bs
  | _, _ => false

end

/-- Equality of content, floating-point numbers being compared as numbers. -/
def same : Json → Json → Bool :=
  eqBy fun a b => a == b

mutual

/-- Up to equal floating-point numbers, equality is equality of values. -/
theorem eqBy_iff : ∀ a b : Json, eqBy (fun x y => decide (x = y)) a b = true ↔ a = b
  | .null, b => by cases b <;> simp [eqBy]
  | .bool _, b => by cases b <;> simp [eqBy]
  | .int _, b => by cases b <;> simp [eqBy]
  | .float _, b => by cases b <;> simp [eqBy]
  | .str _, b => by cases b <;> simp [eqBy]
  | .arr as, b => by
    cases b with
    | arr bs => simp [eqBy, eqItemsBy_iff as bs]
    | _ => simp [eqBy]
  | .obj as, b => by
    cases b with
    | obj bs => simp [eqBy, eqFieldsBy_iff as bs]
    | _ => simp [eqBy]

/-- The same for rows of items. -/
theorem eqItemsBy_iff : ∀ as bs : List Json,
    eqItemsBy (fun x y => decide (x = y)) as bs = true ↔ as = bs
  | [], bs => by cases bs <;> simp [eqItemsBy]
  | a :: as, bs => by
    cases bs with
    | nil => simp [eqItemsBy]
    | cons b bs => simp [eqItemsBy, eqBy_iff a b, eqItemsBy_iff as bs]

/-- The same for rows of fields. -/
theorem eqFieldsBy_iff : ∀ as bs : List (String × Json),
    eqFieldsBy (fun x y => decide (x = y)) as bs = true ↔ as = bs
  | [], bs => by cases bs <;> simp [eqFieldsBy]
  | (k, a) :: as, bs => by
    cases bs with
    | nil => simp [eqFieldsBy]
    | cons field bs => simp [eqFieldsBy, eqBy_iff a field.2, eqFieldsBy_iff as bs, Prod.ext_iff]

end

instance : DecidableEq Json :=
  fun a b => decidable_of_iff _ (eqBy_iff a b)

/-! ### Objects -/

/-- Puts a field among fields sorted by key, in place of a field with the same key. -/
def setField (key : String) (value : Json) : List (String × Json) → List (String × Json)
  | [] => [(key, value)]
  | (k, v) :: rest =>
    if key = k then (key, value) :: rest
    else if key < k then (key, value) :: (k, v) :: rest
    else (k, v) :: setField key value rest

/-- The fields sorted by key; of several fields with one key the last stays. -/
def sortFields (fields : List (String × Json)) : List (String × Json) :=
  fields.foldl (fun sorted field => setField field.1 field.2 sorted) []

/-- The object with the given fields, sorted by key. -/
def object (fields : List (String × Json)) : Json :=
  .obj (sortFields fields)

/-! ### Views -/

/-- The value of a field of an object. -/
def field? (key : String) : Json → Option Json
  | .obj fields => fields.lookup key
  | _ => none

/-- A text. -/
def str? : Json → Option String
  | .str s => some s
  | _ => none

/-- A truth value. -/
def bool? : Json → Option Bool
  | .bool b => some b
  | _ => none

/-- Any number, as a floating-point number. -/
def number? : Json → Option Float
  | .int n => some (Float.ofInt n)
  | .float x => some x
  | _ => none

/-- A floating-point number; those that are not finite have no JSON number and become `null`. -/
def ofFloat (x : Float) : Json :=
  if x.isFinite then .float x else .null

/-- A natural number. -/
def ofNat (n : Nat) : Json :=
  .int n

/-- A row of values. -/
def ofList {α : Type} (f : α → Json) (values : List α) : Json :=
  .arr (values.map f)

end Json

end FlowGraph
