import Monkey.Syntax.Printer
import Monkey.Value

/-!
# The text of values

Values as a reader of results sees them: texts in double quotes, as they are; the pairs of a hash
in the order of their keys; a function with the canonical text of its body; the markers as what
they carry.
-/

namespace Monkey

/-- A text in double quotes; nothing inside is changed. -/
def quoted (s : String) : String := "\"" ++ s ++ "\""

/-- The text of a key. -/
def HashKey.text : HashKey → String
  | int value => intText value
  | bool value => boolText value
  | str value => quoted value

namespace Value

mutual

/-- The text of a value. -/
def text : Value → String
  | .int value => intText value
  | .bool value => boolText value
  | .str value => quoted value
  | .null => "null"
  | .array items => "[" ++ commaSeparated (texts items) ++ "]"
  | .hash pairs => "\x7b" ++ commaSeparated (pairTexts pairs) ++ "\x7d"
  | .fn f => "fn(" ++ commaSeparated f.params ++ ") " ++ Block.text f.body
  | .builtin b => "builtin function " ++ b.name
  | .returned value => text value
  | .error message => message

/-- The texts of values. -/
def texts : List Value → List String
  | [] => []
  | v :: rest => text v :: texts rest

/-- The texts of the pairs of a hash, with a colon between key and value. -/
def pairTexts : List (HashKey × Value) → List String
  | [] => []
  | (k, v) :: rest => (k.text ++ ": " ++ text v) :: pairTexts rest

end

/-- The texts of a list of values are the texts of its elements. -/
theorem texts_eq_map (vs : List Value) : texts vs = vs.map text := by
  induction vs with
  | nil => rfl
  | cons v vs ih => simp [texts, ih]

/-- The texts of the pairs of a hash are the texts of its entries. -/
theorem pairTexts_eq_map (ps : List (HashKey × Value)) :
    pairTexts ps = ps.map fun p => p.1.text ++ ": " ++ text p.2 := by
  induction ps with
  | nil => rfl
  | cons p ps ih => simp [pairTexts, ih]

theorem text_array (items : List Value) :
    (array items).text = "[" ++ commaSeparated (items.map text) ++ "]" := by
  rw [← texts_eq_map]
  rfl

theorem text_hash (pairs : List (HashKey × Value)) : (hash pairs).text =
    "\x7b" ++ commaSeparated (pairs.map fun p => p.1.text ++ ": " ++ text p.2) ++ "\x7d" := by
  rw [← pairTexts_eq_map]
  rfl

/-- A function is shown with its parameters and its body. -/
theorem text_fn (f : Closure) :
    (fn f).text = "fn(" ++ commaSeparated f.params ++ ") " ++ Block.text f.body := rfl

theorem text_returned (v : Value) : (returned v).text = v.text := rfl

end Value

/-- The text of a key is the text of the value it stands for. -/
theorem HashKey.text_toValue (k : HashKey) : k.toValue.text = k.text := by
  cases k <;> rfl

end Monkey
