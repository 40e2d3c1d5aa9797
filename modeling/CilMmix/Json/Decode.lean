import CilMmix.Json.Basic

/-! Taking values out of JSON documents. A decoder is told how many more levels of nesting are
allowed; opening an array or an object takes one. -/

namespace CilMmix.Json

abbrev Decoder (α : Type) := Nat → Json → Option α

/-- Arrays and objects that may be open at once. -/
def maxNesting : Nat := 127

def string? : Json → Option String
  | .str s => some s
  | _ => none

def bool? : Json → Option Bool
  | .bool b => some b
  | _ => none

def null? : Json → Option Unit
  | .null => some ()
  | _ => none

def int? : Json → Option Int
  | .num n => n.toInt?
  | _ => none

/-- An integer that is not below `low` and below `bound`. -/
def intWithin? (low bound : Int) (j : Json) : Option Int :=
  j.int?.filter fun n => low ≤ n && n < bound

def uint8? (j : Json) : Option UInt8 :=
  (j.intWithin? 0 UInt8.size).map fun n => UInt8.ofNat n.toNat

def uint16? (j : Json) : Option UInt16 :=
  (j.intWithin? 0 UInt16.size).map fun n => UInt16.ofNat n.toNat

def uint32? (j : Json) : Option UInt32 :=
  (j.intWithin? 0 UInt32.size).map fun n => UInt32.ofNat n.toNat

def int32? (j : Json) : Option Int32 :=
  (j.intWithin? (-0x80000000) 0x80000000).map Int32.ofInt

def int64? (j : Json) : Option Int64 :=
  (j.intWithin? (-0x8000000000000000) 0x8000000000000000).map Int64.ofInt

/-- All items of an array. -/
def list? {α : Type} (item : Decoder α) : Decoder (List α)
  | room + 1, .arr items => items.mapM (item room)
  | _, _ => none

/-- The members with the given names, absent ones as none. Members with other names do not matter,
but none of these may be there twice. An array stands for an object if it holds exactly these
members in order. -/
def members? (names : List String) : Json → Option (List (Option Json))
  | .obj members =>
    if names.all fun n => (members.filter fun m => m.1 == n).length ≤ 1 then
      some (names.map fun n => members.lookup n)
    else none
  | .arr items => if items.length = names.length then some (items.map some) else none
  | _ => none

/-- The members with the given names, all of them present. -/
def record? (names : List String) (j : Json) : Option (List Json) :=
  (j.members? names).bind fun ms => ms.mapM id

end CilMmix.Json
