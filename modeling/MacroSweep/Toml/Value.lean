/-! Values of a TOML document. -/
namespace MacroSweep.Toml

/-- A value. Of floats and dates only the kind is kept. -/
inductive Value where
  | string (s : String)
  | integer (n : Int)
  | float
  | boolean (b : Bool)
  | datetime
  | array (items : List Value)
  | table (fields : List (String × Value))
  deriving Inhabited

end MacroSweep.Toml
