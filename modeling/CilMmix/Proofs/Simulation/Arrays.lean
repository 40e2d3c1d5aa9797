import CilMmix.Proofs.Lowering.Growth
import CilMmix.Proofs.Machine.Scaling
import CilMmix.Proofs.Simulation.Numbers

/-! Arrays in memory. The count stands in the word before the elements; an array value is the address of
the first element and the count. -/

namespace CilMmix

/-- The number of bytes of an element that is accessed at once. -/
def elementBytes : List Nat := [1, 2, 4, 8]

theorem elementBytes_bounds {n : Nat} (h : n ∈ elementBytes) : 0 < n ∧ n ≤ 8 := by
  simp only [elementBytes, List.mem_cons, List.not_mem_nil, or_false] at h
  omega

theorem elementBytes_isPowerOfTwo {n : Nat} (h : n ∈ elementBytes) : n.isPowerOfTwo := by
  simp only [elementBytes, List.mem_cons, List.not_mem_nil, or_false] at h
  rcases h with rfl | rfl | rfl | rfl
  · exact ⟨0, rfl⟩
  · exact ⟨1, rfl⟩
  · exact ⟨2, rfl⟩
  · exact ⟨3, rfl⟩

/-- An index is multiplied by the bytes of an element. -/
theorem run_scale {r : Reg} {stride scratch : Nat} {lines : List Line} (hs : stride ∈ elementBytes)
    (h : scale r stride scratch = .ok lines) (m : Machine) :
    run lines m = (m.set r.index.val (m.regs r.index.val * BitVec.ofNat 64 stride), .fall) := by
  have hbounds := elementBytes_bounds hs
  obtain ⟨lines', hlines, hrun⟩ :=
    run_scale_of_power (elementBytes_isPowerOfTwo hs) (by omega) r scratch
  cases h.symm.trans hlines
  exact hrun m

/-- The memory of an array: the word with the count and the elements. -/
structure ArrayBlock where
  address : Word
  count : Nat
  bytes : Nat
  bytes_mem : bytes ∈ elementBytes
  aligned : address.toNat % 8 = 0
  fits : count * bytes + 8 < 2 ^ 64

namespace ArrayBlock

variable (b : ArrayBlock)

def size : Nat := b.count * b.bytes + 8

/-- The address of the first element. -/
def data : Word := b.address + BitVec.ofNat 64 8

def element (i : Nat) : Word := b.data + BitVec.ofNat 64 (i * b.bytes)

def elementSpan (i : Nat) : List Word := span (b.element i) b.bytes

variable {b}

theorem stop_le {i j : Nat} (h : i < j) : i * b.bytes + b.bytes ≤ j * b.bytes := by
  rw [← Nat.succ_mul]
  exact Nat.mul_le_mul_right _ h

theorem aligned_element (i : Nat) : Word.aligned (b.element i) b.bytes = b.element i := by
  have haligned := b.aligned
  have hlt := (b.element i).isLt
  have hdvd : (b.element i).toNat / b.bytes * b.bytes = (b.element i).toNat := by
    have hbytes := b.bytes_mem
    -- Addresses wrap around at a multiple of every element size.
    simp only [element, data, BitVec.toNat_add, BitVec.toNat_ofNat]
    simp only [elementBytes, List.mem_cons, List.not_mem_nil, or_false] at hbytes
    rcases hbytes with he | he | he | he <;> rw [he] <;> omega
  rw [Word.aligned, hdvd, BitVec.ofNat_toNat, BitVec.setWidth_eq]

theorem mem_data_of_mem_element {i : Nat} (hi : i < b.count) {x : Word} (hx : x ∈ b.elementSpan i) :
    x ∈ span b.data (b.count * b.bytes) :=
  mem_span_of_part (b.stop_le hi) hx

theorem mem_block_of_mem_data {x : Word} (hx : x ∈ span b.data (b.count * b.bytes)) :
    x ∈ span b.address b.size :=
  mem_span_of_part (Nat.le_of_eq (Nat.add_comm _ _)) hx

theorem mem_block_of_mem_header {x : Word} (hx : x ∈ span b.address 8) : x ∈ span b.address b.size := by
  obtain ⟨k, hk, rfl⟩ := mem_span.mp hx
  exact mem_span.mpr ⟨k, by unfold size; omega, rfl⟩

theorem elements_apart {i j : Nat} (hi : i < b.count) (hj : j < b.count) (hne : i ≠ j) {x : Word}
    (hx : x ∈ b.elementSpan i) : x ∉ b.elementSpan j := by
  have hfits := b.fits
  have hei := b.stop_le hi
  have hej := b.stop_le hj
  refine not_mem_span_of_part ?_ (by omega) (by omega) hx
  rcases Nat.lt_or_gt_of_ne hne with hlt | hgt
  · exact .inl (b.stop_le hlt)
  · exact .inr (b.stop_le hgt)

theorem header_apart {i : Nat} (hi : i < b.count) {x : Word} (hx : x ∈ span b.address 8) :
    x ∉ b.elementSpan i := by
  intro hmem
  have hfits := b.fits
  have hheader : x ∈ span (b.address + BitVec.ofNat 64 0) 8 := by rwa [BitVec.add_zero]
  exact not_mem_span_of_part (.inl (by omega)) (by omega) (by omega) hheader
    (b.mem_data_of_mem_element hi hmem)

end ArrayBlock

/-- Whether the first bit of a value of this width is a sign. -/
def Width.signed : Width → Bool
  | i1 | i2 | i4 | i8 | i => true
  | _ => false

/-- What is left of a word after it was stored and loaded with this width. -/
def Width.extended (w : Width) (v : Word) : Word :=
  if w.signed then (v.setWidth (8 * w.bytes)).signExtend 64 else (v.setWidth (8 * w.bytes)).setWidth 64

theorem extend_mod (bytes : Nat) (signed : Bool) (v : Word) :
    Word.extend bytes signed (v.toNat % 256 ^ bytes) =
      if signed then (v.setWidth (8 * bytes)).signExtend 64 else (v.setWidth (8 * bytes)).setWidth 64 := by
  have hpow : 2 ^ (8 * bytes) = 256 ^ bytes := Nat.pow_mul ..
  unfold Word.extend
  cases signed with
  | true =>
    rw [if_pos rfl, if_pos rfl]
    congr 1
    apply BitVec.eq_of_toNat_eq
    rw [BitVec.toNat_ofNat, BitVec.toNat_setWidth, hpow, Nat.mod_mod]
  | false =>
    rw [if_neg Bool.false_ne_true, if_neg Bool.false_ne_true]
    apply BitVec.eq_of_toNat_eq
    rw [BitVec.toNat_ofNat, BitVec.toNat_setWidth, BitVec.toNat_setWidth, hpow]

theorem Width.load?_loadCode {w : Width} {code : Opcode} (h : w.loadCode? = some code) :
    ∃ signed, code.load? = some (w.bytes, signed) ∧
      ∀ v : Word, Word.extend w.bytes signed (v.toNat % 256 ^ w.bytes) = w.extended v := by
  cases w with
  | i1 | i2 | i4 | i8 | i =>
    cases h
    exact ⟨true, rfl, extend_mod _ true⟩
  | u1 | u2 | u4 =>
    cases h
    exact ⟨false, rfl, extend_mod _ false⟩
  | ref =>
    cases h
    refine ⟨true, rfl, fun v => (extend_mod _ true v).trans ?_⟩
    -- A whole word has nothing to extend.
    change (v.setWidth 64).signExtend 64 = (v.setWidth 64).setWidth 64
    rw [BitVec.setWidth_eq, BitVec.signExtend_eq, BitVec.setWidth_eq]
  | r4 | r8 => cases h

theorem Width.store?_storeCode {w : Width} {code : Opcode} (h : w.storeCode? = some code) :
    code.store? = some w.bytes := by
  cases w <;> cases h <;> rfl

/-- The code of an instruction and a machine that is about to run it: the first registers of its operands
hold the given values, that of the last operand first. -/
structure Ready (site : Site) (op : Op) (values : List Word) (h : Host) where
  offset : UInt32
  before : LowerState
  after : LowerState
  lines : List Line
  code_eq : Lower.instruction site ⟨offset, op⟩ before = .ok (lines, after)
  stacked : Shape.Stacked before.stack.base (shape before.stack.elems)
  held : values <+: before.stack.elems.map fun e => h.regs e.offset

namespace Lower

theorem supported_ok {α : Type} {i : Instruction} {x : Option α} {a : α} {s t : LowerState} :
    supported i x s = .ok (a, t) ↔ x = some a ∧ t = s := by
  cases x with
  | none => exact ⟨fun h => (by cases h), fun h => (by cases h.1)⟩
  | some b =>
    rw [supported, pure_ok, Option.some.injEq]
    exact ⟨fun h => ⟨h.1.symm, h.2⟩, fun h => ⟨h.1.symm, h.2⟩⟩

theorem storeElement_ok {i : Instruction} {w : Width} {s t : LowerState} {lines : List Line}
    (h : storeElement i w s = .ok (lines, t)) :
    ∃ code e₀ e₁ e₂ rest scaling, ∃ value index array : Reg, ∃ scratch : Nat, w.storeCode? = some code ∧
      s.stack.elems = e₀ :: e₁ :: e₂ :: rest ∧ value.index.val = e₀.offset ∧ index.index.val = e₁.offset ∧
      array.index.val = e₂.offset ∧ scale index w.bytes scratch = .ok scaling ∧
      lines = scaling ++ [.ins code [.reg value, .reg array, .reg index]] := by
  simp only [storeElement, bind_ok, pure_ok, supported_ok, top_ok, pop_ok, lift_ok] at h
  obtain ⟨code, _, ⟨hcode, rfl⟩, scratch, _, ⟨-, rfl⟩, value, _, ⟨e₀, _, he₀, hvalue, rfl⟩, index, _,
    ⟨e₁, _, he₁, hindex, rfl⟩, array, _, ⟨e₂, rest, he₂, harray, rfl⟩, scaling, _, ⟨hscaling, rfl⟩,
    rfl, rfl⟩ := h
  simp only [LowerState.withElems_elems] at he₁ he₂
  subst he₁ he₂
  exact ⟨code, e₀, e₁, e₂, rest, scaling, value, index, array, scratch, hcode, he₀, hvalue, hindex, harray,
    hscaling, rfl⟩

theorem exists_primitive {w : Width} {ty : TypeRef} (h : w.loaded? = some ty) :
    ∃ p : Primitive, ty = .primitive p ∧ p.size.words = 1 := by
  cases w <;> cases h <;> exact ⟨_, rfl, by decide⟩

theorem loadElement_ok {i : Instruction} {w : Width} {s t : LowerState} {lines : List Line}
    (h : loadElement i w s = .ok (lines, t)) :
    ∃ code e₀ e₁ rest scaling result, ∃ index array into : Reg, ∃ scratch : Nat, w.loadCode? = some code ∧
      s.stack.elems = e₀ :: e₁ :: rest ∧ index.index.val = e₀.offset ∧ array.index.val = e₁.offset ∧
      scale index w.bytes scratch = .ok scaling ∧ t.stack.elems = result :: rest ∧
      result.offset = Shape.top s.stack.base (shape rest) ∧ into.index.val = result.offset ∧
      lines = scaling ++ [.ins code [.reg into, .reg array, .reg index]] := by
  simp only [loadElement, bind_ok, pure_ok, supported_ok, top_ok, pop_ok, operand_ok, lift_ok] at h
  obtain ⟨code, _, ⟨hcode, rfl⟩, ty, _, ⟨hty, rfl⟩, scratch, _, ⟨-, rfl⟩, index, _, ⟨e₀, _, he₀, hindex, rfl⟩,
    array, _, ⟨e₁, rest, he₁, harray, rfl⟩, _, _, hpush, into, _, ⟨⟨result, hresult, hinto⟩, rfl⟩, scaling, _,
    ⟨hscaling, rfl⟩, rfl, rfl⟩ := h
  obtain ⟨p, rfl, hp⟩ := exists_primitive hty
  obtain ⟨-, rfl⟩ := (push_primitive_ok hp).mp hpush
  simp only [LowerState.withElems_elems] at he₁
  subst he₁
  cases hresult
  exact ⟨code, e₀, e₁, rest, scaling, _, index, array, into, scratch, hcode, he₀, hindex, harray, hscaling,
    rfl, rfl, hinto, rfl⟩

theorem length_ok {origin : String} {s t : LowerState} {lines : List Line}
    (h : length origin s = .ok (lines, t)) :
    ∃ e rest result, ∃ array : Reg, s.stack.elems = e :: rest ∧ array.index.val = e.offset ∧
      t.stack.elems = result :: rest ∧ result.offset = Shape.top s.stack.base (shape rest) ∧
      lines = [.ins .sub [.reg array, .reg array, .imm wordBytes],
        .ins .ldo [.reg array, .reg array, .imm 0]] := by
  simp only [length, bind_ok, pure_ok, pop_ok, push_primitive_ok (p := .uint64) rfl] at h
  obtain ⟨array, _, ⟨e, rest, he, harray, rfl⟩, _, _, ⟨-, rfl⟩, rfl, rfl⟩ := h
  exact ⟨e, rest, _, array, he, harray, rfl, rfl, rfl⟩

theorem sizeOf_fst {elem : TypeRef} {s t : LowerState} {size : Size}
    (h : sizeOf elem s = .ok (size, t)) : (s.layout.sizeOf elem).1 = .ok size := by
  unfold sizeOf at h
  split at h
  · rename_i he
    cases h
    rw [he]
  · cases h

theorem newArray_ok {origin : String} {elem : TypeRef} {s t : LowerState} {lines : List Line}
    (h : newArray origin elem s = .ok (lines, t)) :
    ∃ size u e rest scaling array, ∃ count data bytes : Reg, sizeOf elem s = .ok (size, u) ∧
      s.stack.elems = e :: rest ∧ count.index.val = e.offset ∧ data.index.val = e.offset + 1 ∧
      bytes.index.val = e.offset + 2 ∧ scale bytes size.bytes (e.offset + 3) = .ok scaling ∧
      t.stack.elems = array :: rest ∧ array.offset = Shape.top s.stack.base (shape rest) ∧
      array.size.words = 2 ∧ lines = (.ins .set [.reg bytes, .reg count] :: scaling ++
          [.ins .add [.reg bytes, .reg bytes, .imm wordBytes]]) ++
        [.ins .pushj [.reg data, .sym "malloc"], .ins .stou [.reg count, .reg data, .imm 0]] ++
        [.ins .set [.reg bytes, .reg count], .ins .add [.reg count, .reg data, .imm wordBytes],
          .ins .set [.reg data, .reg bytes]] := by
  simp only [newArray, Reg.above, bind_ok, pure_ok, pop_ok, lift_ok, Reg.ofIndex_eq_ok] at h
  obtain ⟨size, u, hsize, count, _, ⟨e, rest, he, hcount, rfl⟩, data, _, ⟨hdata, rfl⟩, bytes, _,
    ⟨hbytes, rfl⟩, scaling, _, ⟨hscaling, rfl⟩, _, v, hpush, rfl, rfl⟩ := h
  obtain ⟨words, u', hwords, hpush⟩ := bind_ok.mp hpush
  have htwo : sizeOf (.array elem) (u.withElems rest) = .ok (.ofWords 2, u.withElems rest) := rfl
  cases htwo.symm.trans hwords
  have hstack := (sizeOf_keeps hsize).1
  rcases pushSized_ok.mp hpush with ⟨hzero, -⟩ | ⟨-, -, rfl⟩
  · cases hzero
  · rw [hcount] at hdata hbytes hscaling
    refine ⟨size, u, e, rest, scaling, _, count, data, bytes, hsize, hstack ▸ he, hcount, hdata, hbytes,
      hscaling, rfl, ?_, show (Size.ofWords 2).words = 2 by decide, ?_⟩
    · rw [← hstack]
      rfl
    · simp only [List.cons_append, List.append_assoc, List.nil_append]

end Lower

theorem Shape.Stacked.offset_lt {base : Nat} {e f : Element} {rest : List Element}
    (h : Stacked base (shape (e :: f :: rest))) : f.offset < e.offset := by
  have ho : e.offset = f.offset + f.size.words := h.1
  have hpos : 0 < f.size.words := h.tail.2.1
  omega

theorem Width.bytes_mem (w : Width) : w.bytes ∈ elementBytes := by
  cases w <;> decide

theorem ArrayBlock.data_add_mul (b : ArrayBlock) (i : Nat) :
    b.data + BitVec.ofNat 64 i * BitVec.ofNat 64 b.bytes = b.element i := by
  rw [element, BitVec.ofNat_mul]

namespace Ready

variable (calls : String → Subroutine) {site : Site} {h : Host} {b : ArrayBlock} {w : Width} {i : Nat}

theorem run_storeElement {v : Word} (r : Ready site (.stelem w) [v, BitVec.ofNat 64 i, b.data] h)
    (hw : w.bytes = b.bytes) : ∃ m, Host.run calls r.lines h =
      some (⟨m, h.memory.write (b.element i) b.bytes v.toNat⟩, [.writes (b.elementSpan i)]) := by
  obtain ⟨code, e₀, e₁, e₂, rest, scaling, value, index, array, scratch, hcode, he, hvalue, hindex, harray,
    hscaling, hlines⟩ := Lower.storeElement_ok r.code_eq
  have hheld := r.held
  simp only [he, List.map_cons, List.cons_prefix_cons] at hheld
  obtain ⟨hv, hi, hd, -⟩ := hheld
  have hs := r.stacked
  rw [he] at hs
  have hlt₀ := hs.offset_lt
  have hlt₁ := hs.tail.offset_lt
  -- Only the register of the index changes before the store.
  have hvalue_ne : e₀.offset ≠ e₁.offset := by omega
  have harray_ne : e₂.offset ≠ e₁.offset := by omega
  rw [hlines, Host.run_concat (run_scale w.bytes_mem hscaling h.toMachine),
    Line.perform_store (Width.store?_storeCode hcode) rfl rfl]
  simp only [Machine.set_regs, hvalue, harray, hindex, Function.update_of_ne hvalue_ne,
    Function.update_of_ne harray_ne, Function.update_self, ← hv, ← hi, ← hd, hw, b.data_add_mul, Host.store,
    b.aligned_element]
  exact ⟨_, rfl⟩

theorem run_loadElement (r : Ready site (.ldelem w) [BitVec.ofNat 64 i, b.data] h)
    (hw : w.bytes = b.bytes) : ∃ m e, Host.run calls r.lines h =
      some (⟨m, h.memory⟩, [.reads (b.elementSpan i)]) ∧ r.after.stack.elems.head? = some e ∧
      ∀ v : Word, h.memory.read (b.element i) b.bytes = v.toNat % 256 ^ b.bytes →
        m.regs e.offset = w.extended v := by
  obtain ⟨code, e₀, e₁, rest, scaling, result, index, array, into, scratch, hcode, he, hindex, harray,
    hscaling, hafter, hresult, hinto, hlines⟩ := Lower.loadElement_ok r.code_eq
  obtain ⟨signed, hload, hextend⟩ := Width.load?_loadCode hcode
  have hheld := r.held
  simp only [he, List.map_cons, List.cons_prefix_cons] at hheld
  obtain ⟨hi, hd, -⟩ := hheld
  have hs := r.stacked
  rw [he] at hs
  have hlt := hs.offset_lt
  have harray_ne : e₁.offset ≠ e₀.offset := by omega
  rw [hlines, Host.run_concat (run_scale w.bytes_mem hscaling h.toMachine),
    Line.perform_load hload rfl rfl]
  simp only [Machine.set_regs, harray, hindex, Function.update_of_ne harray_ne, Function.update_self,
    ← hi, ← hd, hw, b.data_add_mul, Host.load, b.aligned_element]
  refine ⟨_, result, rfl, by rw [hafter, List.head?_cons], fun v hv => ?_⟩
  rw [Machine.set_regs, hinto, Function.update_self, hv, ← hextend v, hw]

theorem run_length (r : Ready site .ldlen [b.data] h) : ∃ m e, Host.run calls r.lines h =
      some (⟨m, h.memory⟩, [.reads (span b.address 8)]) ∧ r.after.stack.elems.head? = some e ∧
      (h.memory.read b.address 8 = b.count → m.regs e.offset = BitVec.ofNat 64 b.count) := by
  obtain ⟨e, rest, result, array, he, harray, hafter, hresult, hlines⟩ := Lower.length_ok r.code_eq
  have hheld := r.held
  simp only [he, List.map_cons, List.cons_prefix_cons] at hheld
  obtain ⟨hd, -⟩ := hheld
  have hs := r.stacked
  rw [he] at hs
  have hplace : result.offset = e.offset := hresult.trans hs.1.symm
  have hback : b.data - BitVec.ofNat 64 wordBytes + BitVec.ofNat 64 0 = b.address := by
    rw [BitVec.add_zero]
    exact BitVec.add_sub_cancel _ _
  have hsub : run [.ins .sub [.reg array, .reg array, .imm wordBytes]] h.toMachine =
      (h.toMachine.set array.index.val (h.regs array.index.val - BitVec.ofNat 64 wordBytes), .fall) := rfl
  rw [hlines, ← List.singleton_append, Host.run_concat hsub, Line.perform_load rfl rfl rfl]
  simp only [Machine.set_regs, harray, Function.update_self, ← hd, hback, Host.load, Word.aligned_eight b.aligned]
  refine ⟨_, result, rfl, by rw [hafter, List.head?_cons], fun hcount => ?_⟩
  rw [Machine.set_regs, hplace, Function.update_self, hcount]
  exact BitVec.signExtend_eq (BitVec.ofNat 64 b.count)

end Ready

/-- What an allocation leaves: the address of a block of so many bytes, and all memory elsewhere. -/
structure Return.Block (r : Return) (bytes : Nat) (memory : Memory) : Prop where
  words_eq : r.words = 1
  aligned : (r.regs 0).toNat % 8 = 0
  elsewhere : ∀ x ∉ span (r.regs 0) bytes, r.memory x = memory x

/-- A subroutine that gives a block of so many bytes when it is asked for them. -/
def Subroutine.Allocates (f : Subroutine) (bytes : Nat) : Prop :=
  ∀ regs memory, regs 0 = BitVec.ofNat 64 bytes → (f regs memory).Block bytes memory

theorem Registers.popped_block {r : Registers} {ret : Return} {bytes : Nat} {memory : Memory}
    (h : ret.Block bytes memory) (hole : Nat) : r.popped ret.regs hole ret.words hole = ret.regs 0 := by
  rw [h.words_eq, popped, if_neg (Nat.lt_irrefl hole), Nat.sub_self]
  rfl

/-- Up to the call the bytes for the elements and the count are worked out. -/
theorem run_request (count : Reg) {bytes : Reg} {stride scratch : Nat} {scaling : List Line}
    (hs : stride ∈ elementBytes) (hscaling : scale bytes stride scratch = .ok scaling) (m : Machine) :
    run (.ins .set [.reg bytes, .reg count] :: scaling ++
        [.ins .add [.reg bytes, .reg bytes, .imm wordBytes]]) m =
      (m.set bytes.index.val (m.regs count.index.val * BitVec.ofNat 64 stride +
        BitVec.ofNat 64 wordBytes), .fall) := by
  have hset : run [.ins .set [.reg bytes, .reg count]] m =
      (m.set bytes.index.val (m.regs count.index.val), .fall) := rfl
  have hscale := run_scale hs hscaling (m.set bytes.index.val (m.regs count.index.val))
  rw [Machine.set_set, Machine.set_regs, Function.update_self] at hscale
  rw [List.cons_append, ← List.singleton_append, run_append hset, run_append hscale]
  have hadd (m : Machine) : run [.ins .add [.reg bytes, .reg bytes, .imm wordBytes]] m =
      (m.set bytes.index.val (m.regs bytes.index.val + BitVec.ofNat 64 wordBytes), .fall) := rfl
  rw [hadd, Machine.set_set, Machine.set_regs, Function.update_self]

/-- After the call the registers of the count and of the address become the array. -/
theorem run_arrange {count data bytes : Reg} {c : Nat} (hcount : count.index.val = c)
    (hdata : data.index.val = c + 1) (hbytes : bytes.index.val = c + 2) (m : Machine) :
    run [.ins .set [.reg bytes, .reg count], .ins .add [.reg count, .reg data, .imm wordBytes],
        .ins .set [.reg data, .reg bytes]] m =
      (((m.set (c + 2) (m.regs c)).set c (m.regs (c + 1) + BitVec.ofNat 64 wordBytes)).set (c + 1)
        (m.regs c), .fall) := by
  have hrun : run [.ins .set [.reg bytes, .reg count], .ins .add [.reg count, .reg data, .imm wordBytes],
        .ins .set [.reg data, .reg bytes]] m =
      (let first := m.set bytes.index.val (m.regs count.index.val)
       let second := first.set count.index.val (first.regs data.index.val + BitVec.ofNat 64 wordBytes)
       second.set data.index.val (second.regs bytes.index.val), .fall) := rfl
  have hdata_ne : c + 1 ≠ c + 2 := by omega
  have hbytes_ne : c + 2 ≠ c := by omega
  rw [hrun, hcount, hdata, hbytes]
  simp only [Machine.set_regs, Function.update_of_ne hdata_ne, Function.update_of_ne hbytes_ne,
    Function.update_self]

/-- What the code of a new array does: it asks for a block, puts the count into its first word, and pushes
the address of the elements and the count. -/
structure Ready.Creates {site : Site} {elem : TypeRef} {n : Nat} {h : Host}
    (r : Ready site (.newarr elem) [BitVec.ofNat 64 n] h) (calls : String → Subroutine) (b : ArrayBlock)
    (h' : Host) (array : Element) : Prop where
  count_eq : b.count = n
  runs : Host.run calls r.lines h =
    some (h', [.calls "malloc" (BitVec.ofNat 64 b.size) b.address, .writes (span b.address 8)])
  head_eq : r.after.stack.elems.head? = some array
  words_eq : array.size.words = 2
  first_eq : h'.regs array.offset = b.data
  second_eq : h'.regs (array.offset + 1) = BitVec.ofNat 64 n
  stored : h'.memory.read b.address 8 = n
  lower : ∀ k < array.offset, h'.regs k = h.regs k
  elsewhere : ∀ x ∉ span b.address b.size, h'.memory x = h.memory x

/-- The call for a new block, and the count in its first word. -/
theorem run_allocate {calls : String → Subroutine} {count data : Reg} {c bytes : Nat}
    (hcount : count.index.val = c) (hdata : data.index.val = c + 1) {h : Host}
    (hrequest : h.regs (c + 2) = BitVec.ofNat 64 bytes) (hmalloc : (calls "malloc").Allocates bytes) :
    ∃ (ret : Return) (m : Machine), ret.Block bytes h.memory ∧ m.regs (c + 1) = ret.regs 0 ∧
      (∀ k ≤ c, m.regs k = h.regs k) ∧
      Host.run calls [.ins .pushj [.reg data, .sym "malloc"], .ins .stou [.reg count, .reg data, .imm 0]] h =
        some (⟨m, ret.memory.write (ret.regs 0) 8 (h.regs c).toNat⟩,
          [.calls "malloc" (BitVec.ofNat 64 bytes) (ret.regs 0), .writes (span (ret.regs 0) 8)]) := by
  obtain ⟨ret, hret⟩ : ∃ ret, ret = calls "malloc" (h.regs.pushed (c + 1)) h.memory := ⟨_, rfl⟩
  have hblock : ret.Block bytes h.memory := hret ▸ hmalloc _ _ hrequest
  have hresult := Registers.popped_block (r := h.regs) hblock (c + 1)
  have hlower (k : Nat) (hk : k ≤ c) : h.regs.popped ret.regs (c + 1) ret.words k = h.regs k :=
    Registers.popped_of_lt _ _ _ (by omega)
  refine ⟨ret, ⟨h.regs.popped ret.regs (c + 1) ret.words, ret.special⟩, hblock, hresult, hlower, ?_⟩
  rw [Host.run, Line.perform_pushj, Option.bind_some, Host.run_singleton, Line.perform_store rfl rfl rfl]
  simp only [Host.call, hdata, ← hret, hcount, hresult, hlower c (Nat.le_refl c), hrequest, BitVec.add_zero,
    Host.store, Word.aligned_eight hblock.aligned, Option.map_some, List.cons_append, List.nil_append]

theorem run_create {calls : String → Subroutine} {count data bytes : Reg} {c n stride scratch : Nat}
    {scaling : List Line} (hcount : count.index.val = c) (hdata : data.index.val = c + 1)
    (hbytes : bytes.index.val = c + 2) (hstride : stride ∈ elementBytes)
    (hscaling : scale bytes stride scratch = .ok scaling) {h : Host} (hn : h.regs c = BitVec.ofNat 64 n)
    (hlt : n < 2 ^ 64) (hmalloc : (calls "malloc").Allocates (n * stride + 8)) :
    ∃ (ret : Return) (m : Machine), ret.Block (n * stride + 8) h.memory ∧
      m.regs c = ret.regs 0 + BitVec.ofNat 64 8 ∧ m.regs (c + 1) = BitVec.ofNat 64 n ∧
      (∀ k < c, m.regs k = h.regs k) ∧
      Host.run calls ((.ins .set [.reg bytes, .reg count] :: scaling ++
          [.ins .add [.reg bytes, .reg bytes, .imm wordBytes]]) ++
        [.ins .pushj [.reg data, .sym "malloc"], .ins .stou [.reg count, .reg data, .imm 0]] ++
        [.ins .set [.reg bytes, .reg count], .ins .add [.reg count, .reg data, .imm wordBytes],
          .ins .set [.reg data, .reg bytes]]) h =
        some (⟨m, ret.memory.write (ret.regs 0) 8 n⟩,
          [.calls "malloc" (BitVec.ofNat 64 (n * stride + 8)) (ret.regs 0), .writes (span (ret.regs 0) 8)]) := by
  have hrequest : h.regs c * BitVec.ofNat 64 stride + BitVec.ofNat 64 wordBytes =
      BitVec.ofNat 64 (n * stride + 8) := by
    rw [hn, ← BitVec.ofNat_mul, ← BitVec.ofNat_add]
    rfl
  have hfirst := run_request count hstride hscaling h.toMachine
  rw [hcount, hbytes, hrequest] at hfirst
  -- The machine at the call, and what comes back from it.
  obtain ⟨h₁, hh₁⟩ : ∃ h₁ : Host, h₁ =
    ⟨h.toMachine.set (c + 2) (BitVec.ofNat 64 (n * stride + 8)), h.memory⟩ := ⟨_, rfl⟩
  have hargument : h₁.regs (c + 2) = BitVec.ofNat 64 (n * stride + 8) := by
    rw [hh₁]
    exact Function.update_self ..
  have hkept (k : Nat) (hk : k ≤ c) : h₁.regs k = h.regs k := by
    rw [hh₁]
    exact Function.update_of_ne (by omega) ..
  obtain ⟨ret, m, hblock, haddress, hlower, hcall⟩ := run_allocate hcount hdata hargument hmalloc
  have hstored : (h₁.regs c).toNat = n := by
    rw [hkept c (Nat.le_refl c), hn, BitVec.toNat_ofNat, Nat.mod_eq_of_lt hlt]
  rw [hstored] at hcall
  refine ⟨ret, ((m.set (c + 2) (m.regs c)).set c (m.regs (c + 1) + BitVec.ofNat 64 wordBytes)).set (c + 1)
    (m.regs c), by rwa [hh₁] at hblock, ?_, ?_, ?_, ?_⟩
  · have hne : c ≠ c + 1 := by omega
    rw [Machine.set_regs, Function.update_of_ne hne, Machine.set_regs, Function.update_self, haddress]
    rfl
  · rw [Machine.set_regs, Function.update_self, hlower c (Nat.le_refl c), hkept c (Nat.le_refl c), hn]
  · intro k hk
    have hdata_ne : k ≠ c + 1 := by omega
    have hbytes_ne : k ≠ c + 2 := by omega
    simp only [Machine.set_regs, Function.update_of_ne hdata_ne, Function.update_of_ne (Nat.ne_of_lt hk),
      Function.update_of_ne hbytes_ne, hlower k (Nat.le_of_lt hk), hkept k (Nat.le_of_lt hk)]
  · rw [List.append_assoc, Host.run_append (Host.run_of_fall hfirst h.memory), ← hh₁,
      Host.run_append hcall, Host.run_of_fall (run_arrange hcount hdata hbytes m) _]
    rfl

theorem Ready.run_newArray {calls : String → Subroutine} {site : Site} {h : Host} {elem : TypeRef} {n : Nat}
    {types : List TypeDef} {size : Size} (r : Ready site (.newarr elem) [BitVec.ofNat 64 n] h)
    (hlayout : r.before.layout.Sound types) (hsize : HasSize types elem size)
    (hbytes : size.bytes ∈ elementBytes) (hn : n * size.bytes + 8 < 2 ^ 64)
    (hmalloc : (calls "malloc").Allocates (n * size.bytes + 8)) :
    ∃ b h' array, b.bytes = size.bytes ∧ r.Creates calls b h' array := by
  obtain ⟨size', u, e, rest, scaling, array, count, data, bytes, hsizeOf, he, hcount, hdata, hreg, hscaling,
    hafter, harray, hwords, hlines⟩ := Lower.newArray_ok r.code_eq
  cases hsize.unique ((hlayout.sizeOf elem).2.1 size' (Lower.sizeOf_fst hsizeOf))
  have hheld := r.held
  simp only [he, List.map_cons, List.cons_prefix_cons] at hheld
  obtain ⟨hvalue, -⟩ := hheld
  have hs := r.stacked
  rw [he] at hs
  have hplace : array.offset = e.offset := harray.trans hs.1.symm
  have hlt : n < 2 ^ 64 := by
    have hle := Nat.le_mul_of_pos_right n (elementBytes_bounds hbytes).1
    omega
  obtain ⟨ret, m, hblock, hfirst, hsecond, hlower, hrun⟩ :=
    run_create hcount hdata hreg hbytes hscaling hvalue.symm hlt hmalloc
  rw [← hlines] at hrun
  rw [← hplace] at hfirst hsecond hlower
  let b : ArrayBlock := ⟨ret.regs 0, n, size.bytes, hbytes, hblock.aligned, hn⟩
  refine ⟨b, _, array, rfl, rfl, hrun, by rw [hafter, List.head?_cons], hwords, hfirst, hsecond, ?_, hlower, ?_⟩
  · rw [Memory.read_write (by decide)]
    exact Nat.mod_eq_of_lt hlt
  · intro x hx
    have hheader : x ∉ span b.address 8 := fun hmem => hx (b.mem_block_of_mem_header hmem)
    calc
      _ = ret.memory x := Memory.write_outside hheader n
      _ = h.memory x := hblock.elsewhere x hx

end CilMmix
