import Mathlib.Logic.Basic
import CilMmix.Json.Decode

/-! Decoders and nesting. A decoder that gives a value back does so exactly when the document is not
nested deeper than there is room for. -/

namespace CilMmix

namespace Json

mutual

/-- How many arrays and objects are open at once at most. -/
def nesting : Json → Nat
  | .arr items => nestingOfItems items + 1
  | .obj members => nestingOfMembers members + 1
  | _ => 0

def nestingOfItems : List Json → Nat
  | [] => 0
  | item :: items => max (nesting item) (nestingOfItems items)

def nestingOfMembers : List (String × Json) → Nat
  | [] => 0
  | (_, value) :: members => max (nesting value) (nestingOfMembers members)

end

/-- The decoder finds the value in the document if there is room for it, and nothing otherwise. -/
def Decodes {α : Type} (d : Decoder α) (j : Json) (a : α) : Prop :=
  ∀ room, d room j = if j.nesting ≤ room then some a else none

theorem bind_ite {α β : Type} {p : Prop} [Decidable p] {a : α} {f : α → Option β} :
    ((if p then some a else none) >>= f) = if p then f a else none := by
  split <;> rfl

theorem mapM_of_decodes {α : Type} {d : Decoder α} {toJson : α → Json} {as : List α}
    (h : ∀ a ∈ as, Decodes d (toJson a) a) (room : Nat) :
    (as.map toJson).mapM (d room) =
      if nestingOfItems (as.map toJson) ≤ room then some as else none := by
  induction as with
  | nil => simp [nestingOfItems]
  | cons a as ih =>
    have hfirst := h a List.mem_cons_self room
    have hmore := ih fun b hb => h b (List.mem_cons_of_mem a hb)
    rw [List.map_cons, List.mapM_cons, hfirst, hmore, nestingOfItems]
    simp only [bind_ite, ← ite_and, Nat.max_le]
    rfl

theorem decodes_list {α : Type} {d : Decoder α} {toJson : α → Json} {as : List α}
    (h : ∀ a ∈ as, Decodes d (toJson a) a) : Decodes (list? d) (.arr (as.map toJson)) as := by
  intro room
  cases room with
  | zero => simp [list?, nesting]
  | succ room => simp [list?, nesting, mapM_of_decodes h room]

theorem decodes_obj {α : Type} {d : Decoder α} {members : List (String × Json)} {a : α}
    (hzero : d 0 (.obj members) = none) (hsucc : ∀ room, d (room + 1) (.obj members) =
      if nestingOfMembers members ≤ room then some a else none) : Decodes d (.obj members) a := by
  intro room
  cases room with
  | zero => simp [hzero, nesting]
  | succ room => simp [hsucc room, nesting]

/-- A choice is decoded by way of its content. -/
theorem Decodes.tagged {α β : Type} {d : Decoder α} {d' : Decoder β} {key : String} {content : Json}
    {b : β} {f : β → α} (h : Decodes d' content b) (hzero : d 0 (.obj [(key, content)]) = none)
    (hsucc : ∀ room, d (room + 1) (.obj [(key, content)]) = (d' room content).map f) :
    Decodes d (.obj [(key, content)]) (f b) := by
  refine decodes_obj hzero fun room => ?_
  have hnesting : nestingOfMembers [(key, content)] = content.nesting := by simp [nestingOfMembers]
  rw [hsucc, h room, hnesting]
  split <;> rfl

theorem Decodes.map {α β : Type} {d : Decoder α} {j : Json} {a : α} (h : Decodes d j a) (f : α → β) :
    Decodes (fun room j => (d room j).map f) j (f a) := by
  intro room
  change (d room j).map f = _
  rw [h room]
  split <;> rfl

theorem decodes_string (s : String) : Decodes (fun _ => string?) (.str s) s := by
  intro room
  simp [string?, nesting]

theorem int?_ofInt (n : Int) : int? (.num (.ofInt n)) = some n := by
  by_cases hn : n < 0
  · have hwhole : n.natAbs ≠ 0 := by omega
    have hvalue : -(n.natAbs : Int) = n := by omega
    rw [int?, Numeral.ofInt, Numeral.toInt?, decide_eq_true hn, if_pos rfl, if_neg hwhole, hvalue]
  · have hvalue : (n.natAbs : Int) = n := by omega
    rw [int?, Numeral.ofInt, Numeral.toInt?, decide_eq_false hn, if_neg Bool.false_ne_true, hvalue]

/-- A number in its range. -/
theorem decodes_within {α : Type} {low bound n : Int} {f : Int → α} {a : α} (hlow : low ≤ n)
    (hhigh : n < bound) (hf : f n = a) :
    Decodes (fun _ j => (intWithin? low bound j).map f) (.num (.ofInt n)) a := by
  intro room
  have hint : intWithin? low bound (.num (.ofInt n)) = some n := by
    simp [intWithin?, int?_ofInt, hlow, hhigh]
  simp [hint, hf, nesting]

theorem decodes_uint8 (n : UInt8) : Decodes (fun _ => uint8?) (.num (.ofInt n.toNat)) n :=
  decodes_within (Int.natCast_nonneg _) (Int.ofNat_lt.mpr n.toNat_lt_size) (by simp)

theorem decodes_uint16 (n : UInt16) : Decodes (fun _ => uint16?) (.num (.ofInt n.toNat)) n :=
  decodes_within (Int.natCast_nonneg _) (Int.ofNat_lt.mpr n.toNat_lt_size) (by simp)

theorem decodes_uint32 (n : UInt32) : Decodes (fun _ => uint32?) (.num (.ofInt n.toNat)) n :=
  decodes_within (Int.natCast_nonneg _) (Int.ofNat_lt.mpr n.toNat_lt_size) (by simp)

theorem decodes_int32 (n : Int32) : Decodes (fun _ => int32?) (.num (.ofInt n.toInt)) n :=
  decodes_within n.le_toInt n.toInt_lt (Int32.ofInt_toInt n)

theorem decodes_int64 (n : Int64) : Decodes (fun _ => int64?) (.num (.ofInt n.toInt)) n :=
  decodes_within n.le_toInt n.toInt_lt (Int64.ofInt_toInt n)

end Json

end CilMmix
