import Ember.Decimal.Layout
import Ember.Text.Quoted

/-!
# Datum — plain data

The payloads of tree nodes and the data a host program exchanges with the language: nothing, truth
values, numbers, texts, lists and records.

* `Datum.quoted`: the notation of listings, texts in quotation marks.
* `Datum.bare`: the same, except that a text stands for itself.
* `Datum.truthy`: a datum that counts as set.
* `Datum.same`: equality in which a number equals every other spelling of its value.
-/

namespace Ember

/-- Plain data. -/
inductive Datum where
  | null
  | bool (b : Bool)
  | int (i : Int)
  | float (x : Float)
  | str (s : String)
  | list (items : List Datum)
  | record (fields : List (String × Datum))
deriving Inhabited

namespace Datum

mutual

/-- A datum in the notation of listings. -/
def quoted : Datum → String
  | null => "None"
  | bool true => "True"
  | bool false => "False"
  | int i => toString i
  | float x => Decimal.floatText x
  | str s => Text.quoted s
  | list items => "[" ++ quotedItems items ++ "]"
  | record fields => "\x7b" ++ quotedFields fields ++ "\x7d"

/-- The items of a list, separated by commas. -/
def quotedItems : List Datum → String
  | [] => ""
  | [d] => d.quoted
  | d :: ds => d.quoted ++ ", " ++ quotedItems ds

/-- The fields of a record, separated by commas. -/
def quotedFields : List (String × Datum) → String
  | [] => ""
  | [(k, d)] => Text.quoted k ++ ": " ++ d.quoted
  | (k, d) :: fs => Text.quoted k ++ ": " ++ d.quoted ++ ", " ++ quotedFields fs

end

/-- A datum in the notation of listings, but a text without quotation marks. -/
def bare : Datum → String
  | str s => s
  | d => d.quoted

/-- A datum that counts as set: not nothing, not false, not zero and not empty. -/
def truthy : Datum → Bool
  | null => false
  | bool b => b
  | int i => i != 0
  | float x => x != 0.0
  | str s => !s.isEmpty
  | list items => !items.isEmpty
  | record fields => !fields.isEmpty

/-- The field of a record. -/
def field? (name : String) : Datum → Option Datum
  | record fields => (fields.find? (·.1 == name)).map (·.2)
  | _ => none

/-- The number a datum counts as in comparisons; truth values count as one and zero. -/
def asInt? : Datum → Option Int
  | bool b => some (if b then 1 else 0)
  | int i => some i
  | _ => none

mutual

/-- Equality of data: numbers by value, records whatever the order of their fields. -/
def same : Datum → Datum → Bool
  | null, null => true
  | str s, str t => s == t
  | float x, float y => x == y
  | float x, d => d.asInt?.any fun i => Decimal.compareIntFloat i x == some .eq
  | d, float y => d.asInt?.any fun i => Decimal.compareIntFloat i y == some .eq
  | list xs, list ys => sameItems xs ys
  | record fs, record gs => fs.length == gs.length && sameFields fs gs
  | x, y => match x.asInt?, y.asInt? with
    | some i, some j => i == j
    | _, _ => false

/-- Equality of lists, item by item. -/
def sameItems : List Datum → List Datum → Bool
  | [], [] => true
  | x :: xs, y :: ys => x.same y && sameItems xs ys
  | _, _ => false

/-- Every field on the left has an equal field on the right. -/
def sameFields : List (String × Datum) → List (String × Datum) → Bool
  | [], _ => true
  | (k, d) :: fs, gs => (match gs.find? (·.1 == k) with
      | some g => d.same g.2
      | none => false) && sameFields fs gs

end

end Datum

end Ember
