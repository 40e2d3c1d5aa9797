import Mathlib.Data.List.Basic
import CilMmix.Proofs.Outcome
import CilMmix.Window.OperandStack

/-! The registers of the operand stack. Operands lie one above the other from the end of the frame on,
and an instruction takes some of them off and puts at most one back. -/

namespace CilMmix

theorem Size.isZero_iff (s : Size) : s.isZero = true ↔ s.words = 0 := by
  simp only [Size.isZero, Size.words, wordBytes, beq_iff_eq]
  omega

theorem Reg.ofIndex_eq_ok {n : Nat} {r : Reg} : Reg.ofIndex n = .ok r ↔ r.index.val = n := by
  obtain ⟨⟨k, hk⟩⟩ := r
  unfold Reg.ofIndex
  split
  · simp [eq_comm]
  · rename_i hn
    simp only [reduceCtorEq, false_iff]
    omega

theorem Reg.exists_ofIndex {n : Nat} (h : n < registerCount) :
    ∃ r, Reg.ofIndex n = .ok r ∧ r.index.val = n :=
  ⟨⟨⟨n, h⟩⟩, dif_pos h, rfl⟩

theorem Block.elem_ok {b : Block} {index : Nat} {e : Element} :
    b.elem index = .ok e ↔ b.elems[index]? = some e := by
  unfold elem
  cases b.elems[index]? <;> simp

theorem Block.reg_ok {b : Block} {index word : Nat} {r : Reg} :
    b.reg index word = .ok r ↔ ∃ e, b.elems[index]? = some e ∧ r.index.val = e.offset + word := by
  simp only [reg, bind_eq_ok, elem_ok, Reg.ofIndex_eq_ok]

/-- First register and number of words of each operand, top first. -/
abbrev Shape := List (Nat × Nat)

namespace Shape

/-- One past the registers in use, for operands from register `base` on. -/
def top (base : Nat) : Shape → Nat
  | [] => base
  | (offset, words) :: _ => offset + words

/-- Puts a value of so many words on top; one of no words leaves no trace. -/
def push (base words : Nat) (shape : Shape) : Shape :=
  if words = 0 then shape else (shape.top base, words) :: shape

/-- Operands follow each other without gaps, none is without words, and all are in the window. -/
def Stacked (base : Nat) : Shape → Prop
  | [] => True
  | (offset, words) :: rest =>
    offset = top base rest ∧ 0 < words ∧ offset + words ≤ registerCount ∧ Stacked base rest

theorem Stacked.tail {base : Nat} {slot : Nat × Nat} {shape : Shape}
    (h : Stacked base (slot :: shape)) : Stacked base shape := h.2.2.2

theorem Stacked.drop {base : Nat} {shape : Shape} (h : Stacked base shape) (n : Nat) :
    Stacked base (shape.drop n) := by
  induction n generalizing shape with
  | zero => exact h
  | succ n ih =>
    cases shape with
    | nil => exact h
    | cons slot shape => exact ih h.tail

theorem Stacked.base_le_top {base : Nat} {shape : Shape} (h : Stacked base shape) :
    base ≤ shape.top base := by
  induction shape with
  | nil => exact Nat.le_refl _
  | cons slot shape ih =>
    have hh := ih h.tail
    have ho := h.1
    simp only [top]
    omega

theorem Stacked.mem {base : Nat} {shape : Shape} (h : Stacked base shape) {slot : Nat × Nat}
    (hs : slot ∈ shape) : base ≤ slot.1 ∧ 0 < slot.2 ∧ slot.1 + slot.2 ≤ shape.top base := by
  induction shape with
  | nil => simp at hs
  | cons first shape ih =>
    have hb := h.tail.base_le_top
    have ho := h.1
    rcases List.mem_cons.mp hs with rfl | hs
    · simp only [top]
      exact ⟨by omega, h.2.1, Nat.le_refl _⟩
    · have hh := ih h.tail hs
      simp only [top]
      omega

theorem Stacked.top_drop_le {base : Nat} {shape : Shape} (h : Stacked base shape) (n : Nat) :
    top base (shape.drop n) ≤ top base shape := by
  cases hd : shape.drop n with
  | nil => exact h.base_le_top
  | cons slot rest => exact (h.mem (List.mem_of_mem_drop (hd ▸ List.mem_cons_self))).2.2

theorem Stacked.push {base words : Nat} {shape : Shape} (h : Stacked base shape)
    (hfit : words = 0 ∨ shape.top base + words ≤ registerCount) :
    Stacked base (Shape.push base words shape) := by
  unfold Shape.push
  split
  · exact h
  · exact ⟨rfl, by omega, by omega, h⟩

end Shape

@[simp] theorem shape_nil : shape [] = [] := rfl

@[simp] theorem shape_cons (e : Element) (elems : List Element) :
    shape (e :: elems) = (e.offset, e.size.words) :: shape elems := rfl

theorem Shape.Stacked.number {base : Nat} {e : Element} {elems : List Element}
    (h : Stacked base (shape elems)) (ho : e.offset = top base (shape elems))
    (he : e.size.words = 1) (hfit : e.offset + 1 ≤ registerCount) : Stacked base (shape (e :: elems)) :=
  ⟨ho, he.symm ▸ Nat.one_pos, he.symm ▸ hfit, h⟩

theorem shape_drop (n : Nat) (elems : List Element) :
    shape (elems.drop n) = (shape elems).drop n := List.map_drop

theorem length_shape (elems : List Element) : (shape elems).length = elems.length :=
  List.length_map _

theorem sameShape_iff {a b : List Element} : sameShape a b = true ↔ shape a = shape b := by
  simp [sameShape]

namespace OperandStack

theorem top_eq (s : OperandStack) : s.top = Shape.top s.base (shape s.elems) := by
  unfold top
  cases s.elems <;> rfl

theorem push_eq_ok {s t : OperandStack} {ty : TypeRef} {size : Size} {origin : Option String} :
    s.push ty size origin = .ok t ↔ (size.words = 0 ∧ t = s) ∨ (0 < size.words ∧
      s.top + size.words ≤ registerCount ∧
      t = { s with elems := ⟨s.top, size, ty, origin⟩ :: s.elems }) := by
  unfold push
  split
  · rename_i hz
    have hz := size.isZero_iff.mp hz
    simp only [Except.ok.injEq, hz, true_and, Nat.lt_irrefl, false_and, or_false]
    exact eq_comm
  · rename_i hz
    have hz : size.words ≠ 0 := fun h => hz (size.isZero_iff.mpr h)
    have hp : 0 < size.words := by omega
    simp only [hz, hp, false_and, true_and, false_or]
    split
    · rename_i hlt
      simp only [reduceCtorEq, false_iff]
      omega
    · rename_i hle
      simp only [Except.ok.injEq, Nat.not_lt.mp hle, true_and]
      exact eq_comm

theorem pop_eq_ok {s t : OperandStack} {r : Reg} {ty : TypeRef} :
    s.pop = .ok ((r, ty), t) ↔ ∃ e rest, s.elems = e :: rest ∧ r.index.val = e.offset ∧
      ty = e.ty ∧ t = { s with elems := rest } := by
  unfold pop
  cases hs : s.elems with
  | nil => simp
  | cons e rest =>
    simp only [bind_eq_ok, pure_eq_ok, Reg.ofIndex_eq_ok, Prod.mk.injEq, List.cons.injEq]
    constructor
    · rintro ⟨r', hr, ⟨rfl, rfl⟩, rfl⟩
      exact ⟨e, rest, ⟨rfl, rfl⟩, hr, rfl, rfl⟩
    · rintro ⟨_, _, ⟨rfl, rfl⟩, hr, rfl, rfl⟩
      exact ⟨r, hr, ⟨rfl, rfl⟩, rfl⟩

theorem peek_eq_ok {s : OperandStack} {index : Nat} {e : Element} :
    s.peek index = .ok e ↔ s.elems[index]? = some e := by
  unfold peek
  cases s.elems[index]? <;> simp

theorem reg_eq_ok {s : OperandStack} {index word : Nat} {r : Reg} :
    s.reg index word = .ok r ↔ ∃ e, s.elems[index]? = some e ∧ r.index.val = e.offset + word := by
  simp only [reg, bind_eq_ok, peek_eq_ok, Reg.ofIndex_eq_ok]

/-- How the operands change: some are taken off, and a value of so many words comes on top of those
that remain. -/
structure Replaced (takes words : Nat) (s t : OperandStack) : Prop where
  base_eq : t.base = s.base
  enough : takes ≤ s.depth
  elems_eq : ∃ new, t.elems = new ++ s.elems.drop takes ∧
    shape t.elems = Shape.push s.base words (shape (s.elems.drop takes))
  fits : words = 0 ∨ Shape.top s.base (shape (s.elems.drop takes)) + words ≤ registerCount

theorem Replaced.refl (s : OperandStack) : Replaced 0 0 s s where
  base_eq := rfl
  enough := Nat.zero_le _
  elems_eq := ⟨[], rfl, by simp [Shape.push]⟩
  fits := .inl rfl

theorem Replaced.elems_of_zero {takes : Nat} {s t : OperandStack} (h : Replaced takes 0 s t) :
    t.elems = s.elems.drop takes := by
  obtain ⟨new, he, hs⟩ := h.elems_eq
  have hlen := congrArg List.length hs
  simp only [Shape.push, if_true, length_shape, he, List.length_append] at hlen
  have hnil : new = [] := List.eq_nil_of_length_eq_zero (by omega)
  rw [he, hnil, List.nil_append]

theorem Replaced.eq_of_zero {s t : OperandStack} (h : Replaced 0 0 s t) : t = s := by
  obtain ⟨base, elems⟩ := t
  obtain rfl : base = s.base := h.base_eq
  obtain rfl : elems = s.elems := h.elems_of_zero
  rfl

/-- First some operands go, then others with a value in their place. -/
theorem Replaced.trans {k l words : Nat} {s t u : OperandStack} (h : Replaced k 0 s t)
    (h' : Replaced l words t u) : Replaced (k + l) words s u := by
  have he := h.elems_of_zero
  have hdrop : t.elems.drop l = s.elems.drop (k + l) := by rw [he, List.drop_drop]
  have hk := h.enough
  have hl := h'.enough
  simp only [depth, he, List.length_drop] at hk hl
  exact {
    base_eq := h'.base_eq.trans h.base_eq
    enough := by simp only [depth]; omega
    elems_eq := by simpa only [hdrop, h.base_eq] using h'.elems_eq
    fits := by simpa only [hdrop, h.base_eq] using h'.fits }

theorem Replaced.of_push {s t : OperandStack} {ty : TypeRef} {size : Size} {origin : Option String}
    (h : s.push ty size origin = .ok t) : Replaced 0 size.words s t := by
  rcases push_eq_ok.mp h with ⟨hz, rfl⟩ | ⟨hp, hfit, rfl⟩
  · rw [hz]
    exact .refl _
  · have hne : size.words ≠ 0 := by omega
    rw [top_eq] at hfit
    exact ⟨rfl, Nat.zero_le _, ⟨[_], rfl, by simp [Shape.push, hne, top_eq]⟩, .inr hfit⟩

theorem Replaced.of_pop {s t : OperandStack} {r : Reg} {ty : TypeRef}
    (h : s.pop = .ok ((r, ty), t)) : Replaced 1 0 s t := by
  obtain ⟨e, rest, he, -, -, rfl⟩ := pop_eq_ok.mp h
  exact ⟨rfl, by simp [depth, he], ⟨[], by simp [he], by simp [he, Shape.push]⟩, .inl rfl⟩

theorem Replaced.stacked {takes words : Nat} {s t : OperandStack} (h : Replaced takes words s t)
    (hs : Shape.Stacked s.base (shape s.elems)) : Shape.Stacked t.base (shape t.elems) := by
  obtain ⟨new, -, he⟩ := h.elems_eq
  rw [he, h.base_eq, shape_drop]
  have hfit := h.fits
  rw [shape_drop] at hfit
  exact (hs.drop takes).push hfit

theorem Replaced.shape_eq {takes words : Nat} {s t : OperandStack} (h : Replaced takes words s t) :
    shape t.elems = Shape.push s.base words ((shape s.elems).drop takes) := by
  obtain ⟨new, -, he⟩ := h.elems_eq
  rw [he, shape_drop]

end OperandStack

end CilMmix
