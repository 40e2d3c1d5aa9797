import CilMmix.Code.Catalogue
import CilMmix.Code.Enumerated

/-! The numbers and names of stored modules lead back to what they were given to. -/

namespace CilMmix

namespace Enumerated

/-- Each value is found by its number and by its name. -/
class Lawful (α : Type) [Enumerated α] : Prop where
  numbered_number : ∀ a : α, numbered? (number a) = some a
  named_name : ∀ a : α, named? (name a) = some a

instance : Lawful Primitive := ⟨fun a => by cases a <;> rfl, fun a => by cases a <;> rfl⟩

instance : Lawful Width := ⟨fun a => by cases a <;> rfl, fun a => by cases a <;> rfl⟩

instance : Lawful Conversion := ⟨fun a => by cases a <;> rfl, fun a => by cases a <;> rfl⟩

instance : Lawful TypeKind := ⟨fun a => by cases a <;> rfl, fun a => by cases a <;> rfl⟩

end Enumerated

/-- The instruction with the given operand, if it is of the kind that the instruction waits for. -/
def Form.fill? : Form → StoredOperand → Option Op
  | .plain op, .plain => some op
  | .slot make, .slot i => some (make i)
  | .int32 make, .int32 n => some (make n)
  | .int64 make, .int64 n => some (make n)
  | .real32 make, .real32 x => some (make x)
  | .real64 make, .real64 x => some (make x)
  | .text make, .text s => some (make s)
  | .method make, .method m => some (make m)
  | .target make, .target t => some (make t)
  | .targets make, .targets ts => some (make ts)
  | .width make, .width w => some (make w)
  | .conversion make, .conversion k => some (make k)
  | .type make, .type t => some (make t)
  | .field make, .field f => some (make f)
  | .byte make, .byte n => some (make n)
  | _, _ => none

namespace Op

/-- The kind of operand that an instruction waits for. -/
def form (op : Op) : Form := (catalogue.get op.stored.number).form

theorem fill?_stored (op : Op) : op.form.fill? op.stored.operand = some op := by
  cases op with
  | load v | address v | store v => cases v <;> rfl
  | push l => cases l <;> rfl
  | brIf c t => cases c <;> rfl
  | arith a | checked a => cases a <;> rfl
  | conv check k => cases check <;> rfl
  | compare c => cases c <;> rfl
  | field a f | staticField a f => cases a <;> rfl
  | _ => rfl

theorem formNumbered?_number (op : Op) : formNumbered? op.stored.number = some op.form := by
  rw [formNumbered?, Vector.getElem?_eq_getElem op.stored.number.isLt]
  rfl

theorem nodup_names : (catalogue.toList.map Variant.name).Nodup := by decide +kernel

theorem find?_name {vs : List Variant} (h : (vs.map Variant.name).Nodup) {v : Variant} (hv : v ∈ vs) :
    vs.find? (fun u => u.name == v.name) = some v := by
  induction vs with
  | nil => cases hv
  | cons u vs ih =>
    obtain ⟨hu, hrest⟩ := List.nodup_cons.mp h
    by_cases hname : u.name = v.name
    · rcases List.mem_cons.mp hv with rfl | hv
      · simp
      · exact absurd (hname ▸ List.mem_map_of_mem hv) hu
    · have hmem : v ∈ vs := by
        rcases List.mem_cons.mp hv with rfl | hv
        · exact absurd rfl hname
        · exact hv
      simpa [hname] using ih hrest hmem

theorem formNamed?_storedName (op : Op) : formNamed? op.storedName = some op.form := by
  have hmem : catalogue[op.stored.number] ∈ catalogue.toList := by simp
  rw [formNamed?, storedName, find?_name nodup_names hmem]
  rfl

end Op

end CilMmix
