import CilMmix.Proofs.Lowering.Balance
import CilMmix.Proofs.Lowering.Statics
import CilMmix.Proofs.Simulation.Fields
import CilMmix.Proofs.Storage.Image

/-! Fields that are accessed through their address. A field of one word takes up the whole word, but an access
of a width that is narrower goes to the bytes at the address, which are the most significant ones. -/

namespace CilMmix

/-- The width in which a number of this type is accessed. -/
def Primitive.width? : Primitive → Option Width
  | int8 => some .i1
  | uint8 => some .u1
  | int16 => some .i2
  | uint16 => some .u2
  | int32 => some .i4
  | uint32 => some .u4
  | int64 | uint64 => some .i8
  | nativeInt | nativeUInt => some .i
  | void | bool => none

theorem Primitive.words_of_width? {p : Primitive} {w : Width} (h : p.width? = some w) : p.size.words = 1 := by
  cases p <;> cases h <;> rfl

namespace Width

/-- What a load of this width makes of the word at the address. -/
def leading (w : Width) (u : Word) : Word := w.extended (u >>> (64 - 8 * w.bytes))

/-- What a store of this width makes of the word at the address. -/
def overlay (w : Width) (v u : Word) : Word :=
  BitVec.ofNat 64 (v.toNat % 256 ^ w.bytes * 256 ^ (wordBytes - w.bytes) +
    u.toNat % 256 ^ (wordBytes - w.bytes))

/-- The low bytes of a word, as many as the width has. -/
def low (w : Width) (v : Word) : BitVec (8 * w.bytes) := v.setWidth (8 * w.bytes)

theorem bytes_le (w : Width) : w.bytes ≤ wordBytes := (elementBytes_bounds w.bytes_mem).2

theorem toInt_extended {w : Width} (h : w.signed = true) (v : Word) :
    (w.extended v).toInt = (v.toNat : Int).bmod (2 ^ (8 * w.bytes)) := by
  have hle : 8 * w.bytes ≤ 64 := by
    have hbytes := w.bytes_le
    rw [wordBytes] at hbytes
    omega
  rw [extended, if_pos h, BitVec.toInt_signExtend_of_le hle, BitVec.toInt_setWidth]

theorem toNat_extended {w : Width} (h : w.signed = false) (v : Word) :
    (w.extended v).toNat = v.toNat % 2 ^ (8 * w.bytes) := by
  have hlt : v.toNat % 2 ^ (8 * w.bytes) ≤ v.toNat := Nat.mod_le ..
  have hv := v.isLt
  rw [extended, if_neg (by rw [h]; exact Bool.false_ne_true), BitVec.toNat_setWidth, BitVec.toNat_setWidth]
  exact Nat.mod_eq_of_lt (by omega)

theorem toNat_shifted (w : Width) (u : Word) :
    (u >>> (64 - 8 * w.bytes)).toNat = u.toNat / 2 ^ (64 - 8 * w.bytes) := by
  rw [BitVec.toNat_ushiftRight, Nat.shiftRight_eq_div_pow]

/-- The first bytes of a number that does not need them only show its sign. -/
theorem leading_narrow {w : Width} {v : Word} (h : w.extended v = v) (hb : w.bytes ≠ 8) :
    w.leading v = 0 ∨ w.leading v = -1 := by
  have hlt := v.isLt
  cases w with
  | i1 | i2 | i4 =>
    -- The bits from that of the sign on are the same, and the first bytes are among them.
    have hv := congrArg BitVec.toInt h
    have hzero : (0 : Word).toInt = 0 := rfl
    have hone : (-1 : Word).toInt = -1 := rfl
    rw [toInt_extended rfl, BitVec.toInt_eq_toNat_bmod] at hv
    rw [← BitVec.toInt_inj, ← BitVec.toInt_inj, leading, toInt_extended rfl, toNat_shifted, hzero, hone]
    simp only [bytes, Int.bmod_def] at hv ⊢
    omega
  | u1 | u2 | u4 | r4 =>
    have hv := congrArg BitVec.toNat h
    have hzero : (0 : Word).toNat = 0 := rfl
    rw [toNat_extended rfl] at hv
    left
    rw [← BitVec.toNat_inj, leading, toNat_extended rfl, toNat_shifted, hzero]
    simp only [bytes] at hv ⊢
    omega
  | i8 | i | r8 | ref => exact absurd rfl hb

/-- A number that fits its width is found in the first bytes of the word only if there are no others, or if
all bytes are the same. -/
theorem leading_eq_iff {w : Width} {v : Word} (h : w.extended v = v) :
    w.leading v = v ↔ w.bytes = 8 ∨ v = 0 ∨ v = -1 := by
  by_cases hb : w.bytes = 8
  · have hshift : v >>> (64 - 8 * w.bytes) = v := by rw [hb, Nat.sub_self, BitVec.ushiftRight_zero]
    rw [leading, hshift]
    exact iff_of_true h (.inl hb)
  · constructor
    · intro hsame
      rw [← hsame]
      exact .inr (leading_narrow h hb)
    · rintro (hwide | rfl | rfl)
      · exact absurd hwide hb
      · cases w <;> decide
      · -- Minus one fits a narrow width only if that has a sign.
        revert h
        cases w <;> decide

theorem overlay_of_bytes_eq {w : Width} (h : w.bytes = 8) (v u : Word) : w.overlay v u = v := by
  have hv : v.toNat % 256 ^ 8 = v.toNat := Nat.mod_eq_of_lt v.isLt
  rw [overlay, h, wordBytes, Nat.sub_self, pow_zero, Nat.mul_one, Nat.mod_one, Nat.add_zero, hv,
    BitVec.ofNat_toNat, BitVec.setWidth_eq]

/-- The low bytes of a word are not those that a narrow store changes. -/
theorem low_overlay_eq_iff (w : Width) (v u : Word) :
    w.low (w.overlay v u) = w.low v ↔ w.bytes = 8 ∨ w.low u = w.low v := by
  by_cases hb : w.bytes = 8
  · rw [overlay_of_bytes_eq hb]
    exact iff_of_true rfl (.inl hb)
  · have hlow : w.low (w.overlay v u) = w.low u := by
      rw [← BitVec.toNat_inj, low, low, overlay, BitVec.toNat_setWidth, BitVec.toNat_setWidth,
        BitVec.toNat_ofNat]
      cases w with
      | i8 | i | r8 | ref => exact absurd rfl hb
      | _ =>
        simp only [bytes, wordBytes]
        omega
    rw [hlow]
    exact ⟨.inr, fun h => h.resolve_left hb⟩

theorem extended_congr {w : Width} {v u : Word} (h : w.low v = w.low u) : w.extended v = w.extended u := by
  rw [low, low] at h
  rw [extended, extended, h]

/-- What a store puts into the first bytes is what a load finds there. -/
theorem leading_overlay (w : Width) (v u : Word) : w.leading (w.overlay v u) = w.extended v := by
  refine extended_congr ?_
  have hv := v.isLt
  have hu := u.isLt
  rw [← BitVec.toNat_inj, low, low, BitVec.toNat_setWidth, BitVec.toNat_setWidth, toNat_shifted, overlay,
    BitVec.toNat_ofNat]
  cases w <;> simp only [bytes, wordBytes] <;> omega

theorem read_eq_shifted (w : Width) (m : Memory) (a : Word) :
    m.read a w.bytes = (m.word a >>> (64 - 8 * w.bytes)).toNat % 256 ^ w.bytes := by
  have hbits : 64 - 8 * w.bytes = 8 * (wordBytes - w.bytes) := by
    rw [wordBytes]
    omega
  rw [toNat_shifted, hbits, Nat.pow_mul, ← Memory.read_first w.bytes_le,
    Nat.mod_eq_of_lt (m.read_lt ..)]

theorem word_write (w : Width) (m : Memory) (a v : Word) :
    (m.write a w.bytes v.toNat).word a = w.overlay v (m.word a) := by
  rw [overlay, ← Memory.word_write_first w.bytes_le, BitVec.ofNat_toNat, BitVec.setWidth_eq]

end Width

theorem Word.aligned_of_mod {a : Word} {n : Nat} (h : a.toNat % 8 = 0) (hn : n ∈ elementBytes) :
    a.aligned n = a := by
  apply BitVec.eq_of_toNat_eq
  have hlt := a.isLt
  rw [aligned, BitVec.toNat_ofNat]
  simp only [elementBytes, List.mem_cons, List.not_mem_nil, or_false] at hn
  rcases hn with rfl | rfl | rfl | rfl <;> omega

theorem LowerState.elems_pushed {s u : LowerState} (h : u.stack = s.stack) (e : Element) :
    (u.withElems (e :: u.stack.elems)).stack.elems = e :: s.stack.elems := by
  rw [withElems_elems, h]

namespace Lower

variable {s t : LowerState} {lines : List Line} {f : FieldRef} {origin : String}

theorem push_byRef_ok {ty : TypeRef} {u : Unit} (h : push origin (.byRef ty) s = .ok (u, t)) :
    t = s.withElems (⟨Shape.top s.stack.base (shape s.stack.elems), .word, .byRef ty, some origin⟩ ::
      s.stack.elems) := by
  obtain ⟨size, v, hsize, hpush⟩ := bind_ok.mp h
  have hword : sizeOf (.byRef ty) s = .ok (.word, s) := rfl
  cases hword.symm.trans hsize
  rcases pushSized_ok.mp hpush with ⟨hzero, -⟩ | ⟨-, -, rfl⟩
  · cases hzero
  · rfl

theorem fieldAddress_ok (h : fieldAddress origin f s = .ok (lines, t)) :
    ∃ offset object rest result, ∃ source : Reg, (s.layout.fieldOffset f).1 = .ok offset ∧
      s.stack.elems = object :: rest ∧ source.index.val = object.offset ∧ t.stack.elems = result :: rest ∧
      result.offset = Shape.top s.stack.base (shape rest) ∧ result.size.words = 1 ∧
      addNumber source offset.roundedBytes (object.offset + object.size.words) = .ok lines := by
  simp only [fieldAddress, bind_ok, top_ok, pop_ok, lift_ok] at h
  obtain ⟨offset, _, hoffset, ty, u, hty, scratch, _, ⟨rfl, rfl⟩, source, _,
    ⟨object, rest, he, hsource, rfl⟩, _, _, hpush, hlines, rfl⟩ := h
  cases fieldType_ok hty
  have hstack := (fieldOffset_ok hoffset).1
  rw [he] at hlines
  cases push_byRef_ok hpush
  refine ⟨offset, object, rest, _, source, fieldOffset_fst hoffset, hstack ▸ he, hsource, rfl, ?_,
    show Size.word.words = 1 by decide, hlines⟩
  rw [← hstack]
  rfl

theorem loadIndirect_ok {i : Instruction} {w : Width} (h : loadIndirect i w s = .ok (lines, t)) :
    ∃ code e rest result, ∃ address into : Reg, w.loadCode? = some code ∧ s.stack.elems = e :: rest ∧
      address.index.val = e.offset ∧ t.stack.elems = result :: rest ∧ result.size.words = 1 ∧
      into.index.val = result.offset ∧ lines = [.ins code [.reg into, .reg address, .imm 0]] := by
  simp only [loadIndirect, bind_ok, pure_ok, supported_ok, pop_ok, operand_ok] at h
  obtain ⟨code, _, ⟨hcode, rfl⟩, ty, _, ⟨hty, rfl⟩, address, _, ⟨e, rest, he, haddress, rfl⟩, _, _, hpush,
    into, _, ⟨⟨result, hresult, hinto⟩, rfl⟩, rfl, rfl⟩ := h
  obtain ⟨p, rfl, hp⟩ := exists_primitive hty
  obtain ⟨-, rfl⟩ := (push_primitive_ok hp).mp hpush
  cases hresult
  exact ⟨code, e, rest, _, address, into, hcode, he, haddress, rfl, hp, hinto, rfl⟩

theorem storeIndirect_ok {i : Instruction} {w : Width} (h : storeIndirect i w s = .ok (lines, t)) :
    ∃ code e₀ e₁ rest, ∃ value address : Reg, w.storeCode? = some code ∧ s.stack.elems = e₀ :: e₁ :: rest ∧
      value.index.val = e₀.offset ∧ address.index.val = e₁.offset ∧
      lines = [.ins code [.reg value, .reg address, .imm 0]] := by
  simp only [storeIndirect, bind_ok, pure_ok, supported_ok, pop_ok] at h
  obtain ⟨code, _, ⟨hcode, rfl⟩, value, _, ⟨e₀, _, he₀, hvalue, rfl⟩, address, _,
    ⟨e₁, rest, he₁, haddress, rfl⟩, rfl, rfl⟩ := h
  rw [LowerState.withElems_elems] at he₁
  subst he₁
  exact ⟨code, e₀, e₁, rest, value, address, hcode, he₀, hvalue, haddress, rfl⟩

theorem access_one {opcode : Opcode} {address : Reg} {lines : List Line} {e : Element}
    (he : s.stack.elems[0]? = some e) (h : [0].mapM (access opcode address) s = .ok (lines, t)) :
    t = s ∧ ∃ x : Reg, x.index.val = e.offset ∧ lines = [.ins opcode [.reg x, .reg address, .imm 0]] := by
  rw [List.mapM_cons, List.mapM_nil] at h
  simp only [access, bind_ok, pure_ok, operand_ok] at h
  obtain ⟨_, _, ⟨x, _, ⟨⟨e', he', hx⟩, rfl⟩, rfl, rfl⟩, _, _, ⟨rfl, rfl⟩, rfl, rfl⟩ := h
  cases he.symm.trans he'
  exact ⟨rfl, x, hx, rfl⟩

theorem storeStatic_one (h : storeStatic f s = .ok (lines, t)) {e : Element} {rest : List Element}
    (he : s.stack.elems = e :: rest) (hone : e.size.words = 1) :
    ∃ a, ∃ address value : Reg, t.statics.find? (.field f.text) = some a ∧ value.index.val = e.offset ∧
      address.index.val = e.offset + 1 ∧
      lines = loadConstant address (.ofNat a.address.raw) ++ [.ins .stou [.reg value, .reg address, .imm 0]] := by
  simp only [storeStatic, bind_ok, pure_ok, lift_ok, peek_ok, top_ok, pop_ok, Reg.ofIndex_eq_ok] at h
  obtain ⟨a, _, ha, _, _, ⟨rfl, rfl⟩, address, u, ⟨haddress, rfl⟩, e', _, ⟨he', rfl⟩, words, _, hwords,
    _, _, ⟨_, _, -, -, rfl⟩, rfl, rfl⟩ := h
  obtain ⟨hstack, hfind⟩ := staticField_ok ha
  rw [hstack, he] at haddress
  have htop := he'
  rw [hstack, he] at htop
  cases htop
  rw [hone, List.range_one] at hwords
  obtain ⟨rfl, value, hvalue, rfl⟩ := access_one he' hwords
  rw [shape_cons, Shape.top, hone] at haddress
  exact ⟨a, address, value, hfind, hvalue, haddress, rfl⟩

theorem loadStatic_one {types : List TypeDef} (hs : s.layout.Sound types) {p : Primitive}
    (hty : FieldHasType types f (.primitive p)) (hone : p.size.words = 1)
    (h : loadStatic origin f s = .ok (lines, t)) :
    ∃ a result, ∃ address into : Reg, t.statics.find? (.field f.text) = some a ∧
      t.stack.elems = result :: s.stack.elems ∧ result.size.words = 1 ∧ into.index.val = result.offset ∧
      lines = loadConstant address (.ofNat a.address.raw) ++ [.ins .ldou [.reg into, .reg address, .imm 0]] := by
  simp only [loadStatic, bind_ok, pure_ok, lift_ok, peek_ok, top_ok, Reg.ofIndex_eq_ok] at h
  obtain ⟨a, _, ha, ty, _, hty', _, _, ⟨rfl, rfl⟩, address, u, ⟨-, rfl⟩, _, v, hpush, e, _, ⟨he, rfl⟩,
    words, _, hwords, rfl, rfl⟩ := h
  obtain rfl := fieldType_ok hty'
  obtain ⟨hstack, hfind⟩ := staticField_ok ha
  -- Static storage was asked for first; the layout is sound after it too, so the type is the declared one.
  obtain ⟨hsound, -, -⟩ := (quiet_staticField types f s hs).2 a u ha
  obtain ⟨-, -, hfield⟩ := (quiet_fieldType types f u hsound).2 ty u hty'
  obtain rfl := hfield.unique hty
  obtain ⟨-, rfl⟩ := (push_primitive_ok hone).mp hpush
  have htop := he
  cases he
  rw [hone, List.range_one, List.reverse_singleton] at hwords
  obtain ⟨rfl, into, hinto, rfl⟩ := access_one htop hwords
  exact ⟨a, _, address, into, hfind, LowerState.elems_pushed hstack _, hone, hinto, rfl⟩

theorem staticAddress_pushes (h : staticAddress origin f s = .ok (lines, t)) :
    ∃ a result, ∃ r : Reg, t.statics.find? (.field f.text) = some a ∧
      t.stack.elems = result :: s.stack.elems ∧ result.size.words = 1 ∧ r.index.val = result.offset ∧
      lines = loadConstant r (.ofNat a.address.raw) := by
  obtain ⟨a, u, ha, h⟩ := bind_ok.mp h
  simp only [constant, bind_ok, pure_ok, operand_ok, push_primitive_ok (p := .nativeUInt) rfl] at h
  obtain ⟨_, _, ⟨-, rfl⟩, r, _, ⟨⟨e, he, hr⟩, rfl⟩, rfl, rfl⟩ := h
  obtain ⟨hstack, hfind⟩ := staticField_ok ha
  cases he
  exact ⟨a, _, r, hfind, LowerState.elems_pushed hstack _,
    show (Primitive.size .nativeUInt).words = 1 by decide, hr, rfl⟩

end Lower

section

variable (calls : String → Subroutine) (h : Host) {n : Nat} {place : Word}

theorem constant_add_zero (hplace : place = BitVec.ofNat 64 n) :
    (UInt64.ofNat n).toBitVec + BitVec.ofNat 64 0 = place := by
  rw [BitVec.add_zero, hplace]
  rfl

theorem run_storeConstant {address value : Reg} (hne : value.index.val ≠ address.index.val)
    (hplace : place = BitVec.ofNat 64 n) (haligned : place.aligned 8 = place) :
    ∃ m, Host.run calls
        (loadConstant address (.ofNat n) ++ [.ins .stou [.reg value, .reg address, .imm 0]]) h =
      some (⟨m, h.memory.write place wordBytes (h.regs value.index.val).toNat⟩,
        [.writes (span place wordBytes)]) := by
  rw [Host.run_concat (run_loadConstant address _ h.toMachine), Line.perform_store rfl rfl rfl]
  simp only [Host.store, Machine.set_regs, Function.update_self, Function.update_of_ne hne,
    constant_add_zero hplace, haligned]
  exact ⟨_, rfl⟩

theorem run_loadFromConstant {address into : Reg} (hplace : place = BitVec.ofNat 64 n)
    (haligned : place.aligned 8 = place) :
    ∃ m, Host.run calls
        (loadConstant address (.ofNat n) ++ [.ins .ldou [.reg into, .reg address, .imm 0]]) h =
      some (⟨m, h.memory⟩, [.reads (span place wordBytes)]) ∧
        m.regs into.index.val = h.memory.word place := by
  rw [Host.run_concat (run_loadConstant address _ h.toMachine), Line.perform_load rfl rfl rfl]
  simp only [Host.load, Machine.set_regs, Function.update_self, constant_add_zero hplace, haligned]
  exact ⟨_, rfl, Function.update_self ..⟩

end

/-- What a field belongs to: an object, by its address, or the type. -/
inductive FieldOwner where
  | object (address : Word)
  | type

namespace FieldOwner

def op : FieldOwner → FieldAccess → FieldRef → Op
  | object _, access, f => .field access f
  | type, access, f => .staticField access f

/-- The operands of an access to the field, besides a value that is stored. -/
def operands : FieldOwner → List (List Word)
  | object address => [[address]]
  | type => []

/-- The word of the field is at its offset from the object, or where the field has its storage. -/
inductive Places (f : FieldRef) (place : Word) (s t : LowerState) : FieldOwner → Prop
  | object {address : Word} {k : Nat} : address.toNat % 8 = 0 →
      (s.layout.fieldOffset f).1 = .ok (.ofWords k) → place = address.skip k →
      Places f place s t (.object address)
  | type {P : String → Size → Prop} {a : Allocation} : t.statics.Sound P →
      t.statics.find? (.field f.text) = some a → place = BitVec.ofNat 64 a.address.raw →
      Places f place s t .type

theorem Places.mod_eight {o : FieldOwner} {f : FieldRef} {place : Word} {s t : LowerState}
    (h : o.Places f place s t) : place.toNat % 8 = 0 := by
  cases h with
  | object haligned _ hplace =>
    rw [hplace]
    exact Word.toNat_skip_mod haligned _
  | type hs hfind hplace =>
    have hmod := hs.mod_address (Statics.mem_of_find? hfind).1
    rw [wordBytes] at hmod
    rw [hplace, BitVec.toNat_ofNat]
    omega

end FieldOwner

namespace Poised

section

variable {site : Site} {op : Op} {values : List (List Word)} {h : Host} (r : Poised site op values h)

/-- The code is about a number in a field that is at the place. -/
structure Reaches (types : List TypeDef) (o : FieldOwner) (f : FieldRef) (p : Primitive) (place : Word) :
    Prop where
  sound : r.before.layout.Sound types
  typed : Lower.FieldHasType types f (.primitive p)
  placed : o.Places f place r.before r.after

/-- The code pushes a word and leaves memory as it is. -/
structure Gives (calls : String → Subroutine) (effects : List Host.Effect) (x : Word) (h' : Host)
    (e : Element) : Prop where
  runs : Host.run calls r.lines h = some (h', effects)
  head_eq : r.after.stack.elems.head? = some e
  words_eq : e.size.words = 1
  given : h'.regs e.offset = x
  memory_eq : h'.memory = h.memory

end

variable (calls : String → Subroutine) {site : Site} {h : Host} {types : List TypeDef} {o : FieldOwner}
  {f : FieldRef} {p : Primitive} {place : Word}

theorem run_storeDirect {v : Word} (r : Poised site (o.op .store f) ([v] :: o.operands) h)
    (hr : r.Reaches types o f p place) :
    ∃ h', Host.run calls r.lines h = some (h', [.writes (span place wordBytes)]) ∧
      h'.memory.word place = v := by
  have haligned := Word.aligned_eight hr.placed.mod_eight
  cases hr.placed with
  | @object address k hmod hoffset hplace =>
    let b : FieldBlock := ⟨address, k, 1, Nat.one_pos, hmod⟩
    obtain ⟨h', hstores⟩ := run_storeField (b := b) calls r hoffset rfl
    have hruns : Host.run calls r.lines h = some (h', [.writes (b.wordSpan 0)]) := hstores.runs
    have hstored : [h'.memory.word (b.address.skip 0)] = [v] := hstores.stored
    rw [Word.skip_zero] at hstored
    rw [b.wordSpan_zero] at hruns
    rw [hplace]
    exact ⟨h', hruns, (List.cons.inj hstored).1⟩
  | @type P a hs hfind hplace =>
    obtain ⟨e, rest, he⟩ := r.exists_top
    obtain ⟨hone, hv⟩ := r.held_word he
    obtain ⟨a', address, value, hfind', hvalue, haddress, hlines⟩ := Lower.storeStatic_one r.code_eq he hone
    cases hfind.symm.trans hfind'
    have hne : value.index.val ≠ address.index.val := by omega
    obtain ⟨m, hrun⟩ := run_storeConstant calls h hne hplace haligned
    rw [← hlines, hvalue, hv] at hrun
    exact ⟨_, hrun, Memory.word_write ..⟩

theorem run_loadDirect (hp : p.size.words = 1) (r : Poised site (o.op .load f) o.operands h)
    (hr : r.Reaches types o f p place) (hmemory : o = .type ∨ r.structOnTop = false) :
    ∃ h' e, r.Gives calls [.reads (span place wordBytes)] (h.memory.word place) h' e := by
  have haligned := Word.aligned_eight hr.placed.mod_eight
  cases hr.placed with
  | @object address k hmod hoffset hplace =>
    obtain ⟨d, hd, hty⟩ := hr.typed
    let b : FieldBlock := ⟨address, k, 1, Nat.one_pos, hmod⟩
    have hwords : HasWords types d.ty b.words := ⟨_, hty ▸ .primitive p, hp⟩
    have hclass : r.structOnTop = false := hmemory.resolve_left FieldOwner.noConfusion
    obtain ⟨h', e, hloads⟩ := run_loadField (b := b) calls r hr.sound hd hwords hoffset hclass
    have hruns : Host.run calls r.lines h = some (h', [.reads (b.wordSpan 0)]) := hloads.runs
    have hloaded : [h'.regs (e.offset + 0)] = [h.memory.word (b.address.skip 0)] := hloads.loaded
    rw [Word.skip_zero] at hloaded
    rw [b.wordSpan_zero] at hruns
    rw [hplace]
    exact ⟨h', e, hruns, hloads.head_eq, hloads.words_eq, (List.cons.inj hloaded).1, hloads.memory_eq⟩
  | @type P a hs hfind hplace =>
    obtain ⟨a', result, address, into, hfind', hafter, hwords, hinto, hlines⟩ :=
      Lower.loadStatic_one hr.sound hr.typed hp r.code_eq
    cases hfind.symm.trans hfind'
    obtain ⟨m, hrun, hword⟩ := run_loadFromConstant calls h hplace haligned
    rw [← hlines] at hrun
    exact ⟨_, result, hrun, by rw [hafter, List.head?_cons], hwords, hinto ▸ hword, rfl⟩

theorem run_address (r : Poised site (o.op .address f) o.operands h) (hr : r.Reaches types o f p place) :
    ∃ h' e, r.Gives calls [] place h' e := by
  cases hr.placed with
  | @object address k hmod hoffset hplace =>
    obtain ⟨offset, object, rest, result, source, ho, he, hsource, hafter, hresult, hwords, hcode⟩ :=
      Lower.fieldAddress_ok r.code_eq
    cases ho.symm.trans hoffset
    obtain ⟨hone, hreg⟩ := held_word (a := address) r he
    have hs := r.stacked
    rw [he] at hs
    -- The sum is in the register of the object, which is that of the result.
    have hsame : result.offset = object.offset := hresult.trans hs.1.symm
    obtain ⟨m, hrun, hsum⟩ := run_addNumber hcode (by omega) h.toMachine
    refine ⟨⟨m, h.memory⟩, result, Host.run_of_fall hrun h.memory, by rw [hafter, List.head?_cons], hwords,
      ?_, rfl⟩
    rw [hsame, ← hsource, hsum, hsource, hreg, hplace, Size.roundedBytes, Size.words_ofWords]
    rfl
  | @type P a hs hfind hplace =>
    obtain ⟨a', result, x, hfind', hafter, hwords, hx, hlines⟩ := Lower.staticAddress_pushes r.code_eq
    cases hfind.symm.trans hfind'
    have hrun := run_loadConstant x (UInt64.ofNat a.address.raw) h.toMachine
    rw [← hlines] at hrun
    refine ⟨_, result, Host.run_of_fall hrun h.memory, by rw [hafter, List.head?_cons], hwords, ?_, rfl⟩
    rw [Machine.set_regs, hx, Function.update_self, hplace]
    rfl

theorem run_loadIndirect {w : Width} {a : Word} (r : Poised site (.ldind w) [[a]] h) (ha : a = place)
    (hplace : place.toNat % 8 = 0) :
    ∃ h' e, r.Gives calls [.reads (span place w.bytes)] (w.leading (h.memory.word place)) h' e := by
  obtain ⟨code, e, rest, result, address, into, hcode, he, haddress, hafter, hwords, hinto, hlines⟩ :=
    Lower.loadIndirect_ok r.code_eq
  obtain ⟨signed, hload, hextend⟩ := Width.load?_loadCode hcode
  obtain ⟨-, hreg⟩ := r.held_word he
  have hrun : Host.run calls r.lines h = some (h.load into place w.bytes signed) := by
    rw [hlines, Host.run_singleton, Line.perform_load hload rfl rfl, haddress, hreg, BitVec.add_zero, ha]
  simp only [Host.load, Word.aligned_of_mod hplace w.bytes_mem, w.read_eq_shifted, hextend] at hrun
  refine ⟨_, result, hrun, by rw [hafter, List.head?_cons], hwords, ?_, rfl⟩
  rw [Machine.set_regs, hinto, Function.update_self, Width.leading]

theorem run_storeIndirect {w : Width} {v a : Word} (r : Poised site (.stind w) [[v], [a]] h)
    (ha : a = place) (hplace : place.toNat % 8 = 0) :
    ∃ h', Host.run calls r.lines h = some (h', [.writes (span place w.bytes)]) ∧
      h'.memory.word place = w.overlay v (h.memory.word place) := by
  obtain ⟨code, e₀, e₁, rest, value, address, hcode, he, hvalue, haddress, hlines⟩ :=
    Lower.storeIndirect_ok r.code_eq
  obtain ⟨-, hv⟩ := r.held_word he
  obtain ⟨-, hreg⟩ := r.held_below he
  have hrun : Host.run calls r.lines h = some (h.store v place w.bytes) := by
    rw [hlines, Host.run_singleton, Line.perform_store (Width.store?_storeCode hcode) rfl rfl, haddress, hvalue,
      hreg, hv, BitVec.add_zero, ha]
  simp only [Host.store, Word.aligned_of_mod hplace w.bytes_mem] at hrun
  exact ⟨_, hrun, w.word_write ..⟩

end Poised

/-- What can be seen of a field that is at a place in memory: the word that its load gives, and the word that
comes from its address by a load of its width. Other code may run before, if it leaves the word alone. -/
structure FieldOwner.Shows (calls : String → Subroutine) (types : List TypeDef) (o : FieldOwner)
    (f : FieldRef) (p : Primitive) (w : Width) (place : Word) (memory : Memory) (direct indirect : Word) :
    Prop where
  load : ∀ {site h} (q : Poised site (o.op .load f) o.operands h), q.Reaches types o f p place →
    o = .type ∨ q.structOnTop = false → (∀ x ∈ span place wordBytes, h.memory x = memory x) →
    ∃ h' e, q.Gives calls [.reads (span place wordBytes)] direct h' e
  loadIndirect : ∀ {site h} (q : Poised site (o.op .address f) o.operands h), q.Reaches types o f p place →
    ∃ h' e, q.Gives calls [] place h' e ∧
      ∀ {site h₁} (i : Poised site (.ldind w) [[h'.regs e.offset]] h₁),
        (∀ x ∈ span place wordBytes, h₁.memory x = memory x) →
        ∃ h₂ e', i.Gives calls [.reads (span place w.bytes)] indirect h₂ e'

namespace Poised

variable {calls : String → Subroutine} {types : List TypeDef} {o : FieldOwner} {f : FieldRef}
  {p : Primitive} {w : Width} {place : Word}

theorem shows_word (hp : p.size.words = 1) (hplace : place.toNat % 8 = 0) (memory : Memory) :
    o.Shows calls types f p w place memory (memory.word place) (w.leading (memory.word place)) where
  load q hq hmemory hkept := by
    obtain ⟨h', e, hgives⟩ := q.run_loadDirect calls hp hq hmemory
    rw [Memory.word_congr hkept] at hgives
    exact ⟨h', e, hgives⟩
  loadIndirect q hq := by
    obtain ⟨h', e, hgives⟩ := q.run_address calls hq
    refine ⟨h', e, hgives, fun i hkept => ?_⟩
    obtain ⟨h₂, e', hloaded⟩ := i.run_loadIndirect calls hgives.given hplace
    rw [Memory.word_congr hkept] at hloaded
    exact ⟨h₂, e', hloaded⟩

/-- After a direct store the field gives the stored word, and its address gives the first bytes of that word;
after a store through the address the first bytes of the word are those of the value. So the two ways agree
for numbers of eight bytes, and for others by chance only. -/
theorem direct_indirect (calls : String → Subroutine) (types : List TypeDef) (o : FieldOwner) (f : FieldRef)
    (place : Word) (hw : p.width? = some w) :
    (∀ {site v h} (r : Poised site (o.op .store f) ([v] :: o.operands) h), r.Reaches types o f p place →
      ∃ h', Host.run calls r.lines h = some (h', [.writes (span place wordBytes)]) ∧
        o.Shows calls types f p w place h'.memory v (w.leading v)) ∧
    (∀ {site h} (q : Poised site (o.op .address f) o.operands h), q.Reaches types o f p place →
      ∃ h' e, q.Gives calls [] place h' e ∧
        ∀ {site v h₁} (i : Poised site (.stind w) [[v], [h'.regs e.offset]] h₁),
          ∃ h₂, Host.run calls i.lines h₁ = some (h₂, [.writes (span place w.bytes)]) ∧
            o.Shows calls types f p w place h₂.memory (w.overlay v (h₁.memory.word place))
              (w.extended v)) ∧
    (∀ v, w.extended v = v → (w.leading v = v ↔ w.bytes = 8 ∨ v = 0 ∨ v = -1)) ∧
    ∀ v u, w.low (w.overlay v u) = w.low v ↔ w.bytes = 8 ∨ w.low u = w.low v := by
  have hp := Primitive.words_of_width? hw
  refine ⟨fun r hr => ?_, fun q hq => ?_, fun v => Width.leading_eq_iff,
    fun v u => w.low_overlay_eq_iff v u⟩
  · obtain ⟨h', hrun, hword⟩ := r.run_storeDirect calls hr
    exact ⟨h', hrun, hword ▸ shows_word hp hr.placed.mod_eight h'.memory⟩
  · obtain ⟨h', e, hgives⟩ := q.run_address calls hq
    refine ⟨h', e, hgives, fun i => ?_⟩
    obtain ⟨h₂, hrun, hword⟩ := i.run_storeIndirect calls hgives.given hq.placed.mod_eight
    rw [← w.leading_overlay, ← hword]
    exact ⟨h₂, hrun, shows_word hp hq.placed.mod_eight h₂.memory⟩

def cell : TypeDef where
  name := "Cell"
  kind := .classType
  fields := [⟨"value", .primitive .int32, false⟩, ⟨"total", .primitive .int32, true⟩]

def cells : List TypeDef := [cell]

def withCell (above : List Element) : LowerState :=
  ⟨.ofModule ⟨"cells", cells⟩, ⟨0, above ++ [⟨0, .word, .named "Cell", none⟩]⟩⟩

def numbered (memory : Memory) : Host := ⟨⟨fun k => if k = 0 then 4096 else 7, fun _ => 0⟩, memory⟩

theorem reaches_value {op : Op} {values : List (List Word)} {h : Host} {r : Poised Ready.bareSite op values h}
    {above : List Element} (hr : r.before = withCell above) :
    r.Reaches cells (.object 4096) ⟨"Cell", "value"⟩ .int32 4096 where
  sound := by
    rw [hr]
    exact Layout.sound_ofModule ⟨"cells", cells⟩
  typed := ⟨_, rfl, rfl⟩
  placed := by
    have hoffset : ((withCell above).layout.fieldOffset ⟨"Cell", "value"⟩).1 = .ok (.ofWords 0) := by rfl
    exact .object (by decide) (hr ▸ hoffset) (by decide)

/-- Seven is stored, and comes back from the field but not from its address. -/
theorem direct_indirect_cell :
    ∃ (r : Poised Ready.bareSite (.field .store ⟨"Cell", "value"⟩) [[7], [4096]] (numbered fun _ => 0))
      (h' h₁ h₂ h₃ : Host) (e₁ e₂ e₃ : Element)
      (q : Poised Ready.bareSite (.field .load ⟨"Cell", "value"⟩) [[4096]] (numbered h'.memory))
      (a : Poised Ready.bareSite (.field .address ⟨"Cell", "value"⟩) [[4096]] (numbered h'.memory))
      (i : Poised Ready.bareSite (.ldind .i4) [[h₂.regs e₂.offset]] (numbered h'.memory)),
      Primitive.width? .int32 = some .i4 ∧ Width.i4.extended 7 = 7 ∧
      Host.run Ready.onePage r.lines (numbered fun _ => 0) = some (h', [.writes (span 4096 8)]) ∧
      q.Gives Ready.onePage [.reads (span 4096 8)] 7 h₁ e₁ ∧ a.Gives Ready.onePage [] 4096 h₂ e₂ ∧
      i.Gives Ready.onePage [.reads (span 4096 4)] 0 h₃ e₃ := by
  have hobject : Shape.Stacked 0 (shape (withCell []).stack.elems) :=
    ⟨by decide, by decide, by decide, trivial⟩
  obtain ⟨r, hr⟩ : ∃ r : Poised Ready.bareSite (.field .store ⟨"Cell", "value"⟩) [[7], [4096]]
      (numbered fun _ => 0), r.before = withCell [Ready.number 1] :=
    exists_of_code _ (by decide +kernel) ⟨by decide, by decide, by decide, hobject⟩ ⟨[], rfl⟩
  have haccess := direct_indirect Ready.onePage cells (.object 4096) ⟨"Cell", "value"⟩ 4096
    (show Primitive.width? .int32 = some .i4 from rfl)
  obtain ⟨h', hrun, hshows⟩ := haccess.1 r (reaches_value hr)
  obtain ⟨q, hq⟩ : ∃ q : Poised Ready.bareSite (.field .load ⟨"Cell", "value"⟩) [[4096]]
      (numbered h'.memory), q.before = withCell [] := exists_of_code _ (by decide +kernel) hobject ⟨[], rfl⟩
  obtain ⟨h₁, e₁, hdirect⟩ := hshows.load q (reaches_value hq) (.inr (structOnTop_eq hq)) fun _ _ => rfl
  obtain ⟨a, ha⟩ : ∃ a : Poised Ready.bareSite (.field .address ⟨"Cell", "value"⟩) [[4096]]
      (numbered h'.memory), a.before = withCell [] := exists_of_code _ (by decide +kernel) hobject ⟨[], rfl⟩
  obtain ⟨h₂, e₂, haddress, hindirect⟩ := hshows.loadIndirect a (reaches_value ha)
  obtain ⟨i, -⟩ : ∃ i : Poised Ready.bareSite (.ldind .i4) [[h₂.regs e₂.offset]] (numbered h'.memory),
      i.before = withCell [] := by
    rw [haddress.given]
    exact exists_of_code _ (by decide +kernel) hobject ⟨[], rfl⟩
  obtain ⟨h₃, e₃, hzero⟩ := hindirect i fun _ _ => rfl
  have hleading : Width.i4.leading 7 = 0 := by decide
  rw [hleading] at hzero
  exact ⟨r, h', h₁, h₂, h₃, e₁, e₂, e₃, q, a, i, rfl, by decide, hrun, hdirect, haddress, hzero⟩

def throughAddress (store address : Op) : List Instruction := [⟨0, store⟩, ⟨1, address⟩, ⟨2, .ldind .i4⟩]

/-- What is in a register after code that follows on two cells and a number. -/
def leftIn (register : Nat) (is : List Instruction) : Option Word :=
  ((Lower.straight false Ready.bareSite (fun _ => none) is).run
      (withCell [Ready.number 2, ⟨1, .word, .named "Cell", none⟩])).toOption.bind fun code =>
    (Host.run Ready.onePage code.1.flatten
        ⟨⟨fun k => if k = 2 then 7 else 4096, fun _ => 0⟩, fun _ => 0⟩).map fun r => r.1.regs register

theorem seven_not_through_address : Width.i4.extended 7 = 7 ∧
    leftIn 0 (throughAddress (.field .store ⟨"Cell", "value"⟩) (.field .address ⟨"Cell", "value"⟩)) =
      some 0 ∧
    leftIn 2 (throughAddress (.staticField .store ⟨"Cell", "total"⟩)
      (.staticField .address ⟨"Cell", "total"⟩)) = some 0 := by
  decide +kernel

end Poised

end CilMmix
