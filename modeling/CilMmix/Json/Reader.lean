import CilMmix.Json.Token

/-! Reading a JSON text. The reader takes one token at a time and keeps the arrays and objects that
are still open, so nesting costs no recursion. -/

namespace CilMmix.Json

/-- An open array or object with what it holds so far, the last item first. -/
inductive Open where
  | array (items : List Json)
  /-- The value of the member called `key` is being read. -/
  | object (members : List (Option String × Json)) (key : Option String)

/-- What may come next, inside the arrays and objects that are open. -/
inductive Expected where
  | value (outer : List Open)
  /-- A value, or the end of an array that is still empty. -/
  | firstItem (outer : List Open)
  /-- A name, or the end of an object that is still empty. -/
  | firstName (outer : List Open)
  | name (outer : List Open) (members : List (Option String × Json))
  | colon (outer : List Open) (members : List (Option String × Json)) (key : Option String)
  /-- A comma or the end of the array. -/
  | afterItem (outer : List Open) (items : List Json)
  /-- A comma or the end of the object. -/
  | afterMember (outer : List Open) (members : List (Option String × Json))
  | nothing (document : Json)

/-- The object with the given members, the last one first. -/
def ofMembers (members : List (Option String × Json)) : Json :=
  match members.reverse.mapM fun m => m.1.map fun key => (key, m.2) with
  | some members => .obj members
  | none => .garbled

namespace Expected

/-- A value is complete. -/
def deliver (j : Json) : List Open → Expected
  | [] => .nothing j
  | .array items :: outer => .afterItem outer (j :: items)
  | .object members key :: outer => .afterMember outer ((key, j) :: members)

/-- The first token of a value. -/
def begin (outer : List Open) : Token → Option Expected
  | .null => some (deliver .null outer)
  | .bool b => some (deliver (.bool b) outer)
  | .num n => some (deliver (.num n) outer)
  | .str (some s) => some (deliver (.str s) outer)
  | .str none => some (deliver .garbled outer)
  | .beginArray => some (.firstItem outer)
  | .beginObject => some (.firstName outer)
  | .endArray | .endObject | .colon | .comma => none

def step : Expected → Token → Option Expected
  | .value outer, t => begin outer t
  | .firstItem outer, .endArray => some (deliver (.arr []) outer)
  | .firstItem outer, t => begin (.array [] :: outer) t
  | .firstName outer, .endObject => some (deliver (.obj []) outer)
  | .firstName outer, .str s => some (.colon outer [] s)
  | .name outer members, .str s => some (.colon outer members s)
  | .colon outer members key, .colon => some (.value (.object members key :: outer))
  | .afterItem outer items, .comma => some (.value (.array items :: outer))
  | .afterItem outer items, .endArray => some (deliver (.arr items.reverse) outer)
  | .afterMember outer members, .comma => some (.name outer members)
  | .afterMember outer members, .endObject => some (deliver (ofMembers members) outer)
  | _, _ => none

def document? : Expected → Option Json
  | .nothing j => some j
  | _ => none

end Expected

def ofTokens? (ts : List Token) : Option Json :=
  (ts.foldlM Expected.step (.value [])).bind Expected.document?

def parse? (text : String) : Option Json :=
  (Token.tokens? text.toList).bind ofTokens?

end CilMmix.Json
