import CilMmix.Proofs.Lowering.Growth
import CilMmix.Proofs.Lowering.Interchange

/-! Code for static storage: the address that it loads is the one that the allocation has, and each word
is accessed at its distance from there. -/

namespace CilMmix

/-- A line that moves a word between a register and memory at a distance from an address. -/
def Line.IsAccess (code : Opcode) (address : Reg) (word : Nat) (l : Line) : Prop :=
  ∃ x : Reg, l = .ins code [.reg x, .reg address, .imm (word * wordBytes)]

theorem Line.exists_word {opcode : Opcode} {address : Reg} {words : List Nat} {lines : List Line}
    (h : List.Forall₂ (IsAccess opcode address) words lines) {l : Line} (hl : l ∈ lines) :
    ∃ word ∈ words, l.IsAccess opcode address word := by
  induction h with
  | nil => cases hl
  | @cons word first words lines hfirst _ ih =>
    rcases List.mem_cons.mp hl with rfl | hl
    · exact ⟨word, List.mem_cons_self, hfirst⟩
    · obtain ⟨word', hmem, hl⟩ := ih hl
      exact ⟨word', List.mem_cons_of_mem _ hmem, hl⟩

/-- How static storage is accessed, if it is. -/
def FieldAccess.accessCode? : FieldAccess → Option Opcode
  | load => some .ldou
  | store => some .stou
  | address => none

/-- How many words are moved from or to static storage. A value without words is not pushed, and its load
is then about the operand that is on top. -/
inductive Op.StaticWords (types : List TypeDef) (elems : List Element) : Op → Nat → Prop
  | load {f : FieldRef} {ty : TypeRef} {words : Nat} : Lower.FieldHasType types f ty →
      HasWords types ty words → 0 < words → StaticWords types elems (.staticField .load f) words
  | loadNothing {f : FieldRef} {ty : TypeRef} {e : Element} : Lower.FieldHasType types f ty →
      HasWords types ty 0 → elems.head? = some e →
      StaticWords types elems (.staticField .load f) e.size.words
  | store {f : FieldRef} {e : Element} : elems.head? = some e →
      StaticWords types elems (.staticField .store f) e.size.words

theorem Op.StaticWords.unique {types : List TypeDef} {elems : List Element} {op : Op} {a b : Nat}
    (ha : op.StaticWords types elems a) (hb : op.StaticWords types elems b) : a = b := by
  cases ha with
  | load hty hw hpos =>
    obtain ⟨d, hd, rfl⟩ := hty
    cases hb with
    | load hty' hw' _ =>
      obtain ⟨d', hd', rfl⟩ := hty'
      cases hd.symm.trans hd'
      exact hw.unique hw'
    | loadNothing hty' hw' _ =>
      obtain ⟨d', hd', rfl⟩ := hty'
      cases hd.symm.trans hd'
      exact absurd (hw.unique hw') (Nat.ne_of_gt hpos)
  | loadNothing hty hw he =>
    obtain ⟨d, hd, rfl⟩ := hty
    cases hb with
    | load hty' hw' hpos' =>
      obtain ⟨d', hd', rfl⟩ := hty'
      cases hd.symm.trans hd'
      exact absurd (hw'.unique hw) (Nat.ne_of_gt hpos')
    | loadNothing _ _ he' =>
      cases he.symm.trans he'
      rfl
  | store he =>
    cases hb with
    | store he' =>
      cases he.symm.trans he'
      rfl

namespace Lower

variable {s t : LowerState} {code : List Line}

/-- The storage of a static field is found under its id from then on. -/
theorem staticField_ok {f : FieldRef} {a : Allocation} (h : staticField f s = .ok (a, t)) :
    t.stack = s.stack ∧ t.statics.find? (.field f.text) = some a := by
  obtain ⟨ty, _, hty, hrest⟩ := bind_ok.mp h
  cases fieldType_ok hty
  obtain ⟨size, u, hsize, hfield⟩ := bind_ok.mp hrest
  have hfind : (u.statics.field f.text size).2.find? (.field f.text) =
      some (u.statics.field f.text size).1 :=
    (Statics.served_field (P := fun _ _ => True) trivial).find?
  cases hfield
  exact ⟨(sizeOf_keeps hsize).1, hfind⟩

/-- The access to one word of the top value. -/
def access (opcode : Opcode) (address : Reg) (word : Nat) : Lower Line := do
  let x ← operand 0 word
  return .ins opcode [.reg x, .reg address, .imm (word * wordBytes)]

theorem access_ok {opcode : Opcode} {address : Reg} {word : Nat} {l : Line}
    (h : access opcode address word s = .ok (l, t)) : t = s ∧ l.IsAccess opcode address word := by
  simp only [access, bind_ok, pure_ok, operand_ok] at h
  obtain ⟨x, _, ⟨-, rfl⟩, rfl, rfl⟩ := h
  exact ⟨rfl, x, rfl⟩

theorem accesses_ok {opcode : Opcode} {address : Reg} {words : List Nat} {lines : List Line}
    (h : words.mapM (access opcode address) s = .ok (lines, t)) :
    t = s ∧ List.Forall₂ (Line.IsAccess opcode address) words lines := by
  obtain ⟨rfl, hall⟩ := mapM_ok (fun _ _ _ _ hl => (access_ok hl).1) h
  exact ⟨rfl, hall.imp fun _ _ hl => (access_ok hl).2⟩

theorem loadStatic_ok (types : List TypeDef) {origin : String} {f : FieldRef}
    (h : loadStatic origin f s = .ok (code, t)) :
    ∃ a u address words lines, staticField f s = .ok (a, u) ∧ t.statics = u.statics ∧
      address.index.val = Shape.top s.stack.base (shape s.stack.elems) ∧
      code = loadConstant address (.ofNat a.address.raw) ++ lines ∧
      List.Forall₂ (Line.IsAccess .ldou address) (List.range words).reverse lines ∧
      (s.layout.Sound types → (Op.staticField .load f).StaticWords types s.stack.elems words) := by
  simp only [loadStatic, push, bind_ok, pure_ok, lift_ok, peek_ok, top_ok, Reg.ofIndex_eq_ok,
    pushSized_ok] at h
  obtain ⟨a, u, ha, ty, _, hty, top, _, ⟨rfl, rfl⟩, address, _, ⟨haddress, rfl⟩, _, v,
    ⟨size, w, hsize, hpush⟩, e, _, ⟨he, rfl⟩, lines, x, hlines, rfl, rfl⟩ := h
  cases fieldType_ok hty
  obtain ⟨hstack, hstatics⟩ := sizeOf_keeps hsize
  obtain ⟨rfl, haccess⟩ := accesses_ok hlines
  have hkept := (staticField_ok ha).1
  refine ⟨a, u, address, e.size.words, lines, ha, ?_, hkept ▸ haddress, rfl, haccess, fun hs => ?_⟩
  · rcases hpush with ⟨-, rfl⟩ | ⟨-, -, rfl⟩ <;> exact hstatics
  · obtain ⟨hu, -, -⟩ := (quiet_staticField types f s hs).2 a u ha
    obtain ⟨-, -, hfield⟩ := (quiet_fieldType types f u hu).2 ty _ hty
    obtain ⟨-, -, hsized⟩ := (quiet_sizeOf types ty u hu).2 size w hsize
    rcases hpush with ⟨hzero, rfl⟩ | ⟨hpos, -, rfl⟩
    · rw [hstack, hkept] at he
      exact .loadNothing hfield ⟨size, hsized, hzero⟩ (List.head?_eq_getElem? .. ▸ he)
    · cases he
      exact .load hfield ⟨size, hsized, rfl⟩ hpos

theorem storeStatic_ok (types : List TypeDef) {f : FieldRef}
    (h : storeStatic f s = .ok (code, t)) :
    ∃ a u address words lines, staticField f s = .ok (a, u) ∧ t.statics = u.statics ∧
      address.index.val = Shape.top s.stack.base (shape s.stack.elems) ∧
      code = loadConstant address (.ofNat a.address.raw) ++ lines ∧
      List.Forall₂ (Line.IsAccess .stou address) (List.range words) lines ∧
      (Op.staticField .store f).StaticWords types s.stack.elems words := by
  simp only [storeStatic, bind_ok, pure_ok, lift_ok, peek_ok, top_ok, pop_ok, Reg.ofIndex_eq_ok] at h
  obtain ⟨a, u, ha, top, _, ⟨rfl, rfl⟩, address, _, ⟨haddress, rfl⟩, e, _, ⟨he, rfl⟩, lines, x, hlines,
    _, _, ⟨_, _, -, -, rfl⟩, rfl, rfl⟩ := h
  obtain ⟨rfl, haccess⟩ := accesses_ok hlines
  have hkept := (staticField_ok ha).1
  rw [hkept] at he
  exact ⟨a, _, address, e.size.words, lines, ha, rfl, hkept ▸ haddress, rfl, haccess,
    .store (List.head?_eq_getElem? .. ▸ he)⟩

theorem staticAddress_ok {origin : String} {f : FieldRef}
    (h : staticAddress origin f s = .ok (code, t)) :
    ∃ a u r, staticField f s = .ok (a, u) ∧ t.statics = u.statics ∧
      r.index.val = Shape.top s.stack.base (shape s.stack.elems) ∧
      code = loadConstant r (.ofNat a.address.raw) := by
  obtain ⟨a, u, ha, h⟩ := bind_ok.mp h
  simp only [constant, bind_ok, pure_ok, operand_ok, push_primitive_ok (p := .nativeUInt) rfl] at h
  obtain ⟨_, _, ⟨-, rfl⟩, r, _, ⟨⟨e, he, hr⟩, rfl⟩, rfl, rfl⟩ := h
  cases he
  exact ⟨a, u, r, ha, rfl, (staticField_ok ha).1 ▸ hr, rfl⟩

/-- Code about a static field loads the address of its storage first, above the operands. -/
theorem static_ok {origin : String} {f : FieldRef} {kind : FieldAccess}
    (h : static origin f kind s = .ok (code, t)) :
    ∃ a r lines, t.statics.find? (.field f.text) = some a ∧
      r.index.val = Shape.top s.stack.base (shape s.stack.elems) ∧
      code = loadConstant r (.ofNat a.address.raw) ++ lines ∧
      ∀ l ∈ lines, ∃ opcode word, kind.accessCode? = some opcode ∧ l.IsAccess opcode r word := by
  cases kind with
  | load =>
    obtain ⟨a, u, r, words, lines, ha, hstatics, hr, hcode, haccess, -⟩ := loadStatic_ok [] h
    refine ⟨a, r, lines, hstatics ▸ (staticField_ok ha).2, hr, hcode, fun l hl => ?_⟩
    obtain ⟨word, -, hl⟩ := Line.exists_word haccess hl
    exact ⟨_, word, rfl, hl⟩
  | store =>
    obtain ⟨a, u, r, words, lines, ha, hstatics, hr, hcode, haccess, -⟩ := storeStatic_ok [] h
    refine ⟨a, r, lines, hstatics ▸ (staticField_ok ha).2, hr, hcode, fun l hl => ?_⟩
    obtain ⟨word, -, hl⟩ := Line.exists_word haccess hl
    exact ⟨_, word, rfl, hl⟩
  | address =>
    obtain ⟨a, u, r, ha, hstatics, hr, hcode⟩ := staticAddress_ok h
    exact ⟨a, r, [], hstatics ▸ (staticField_ok ha).2, hr, by rw [hcode, List.append_nil],
      List.forall_mem_nil _⟩

/-- A string value is the address of its text and the length. -/
theorem loadString_ok {origin text : String} (h : loadString origin text s = .ok (code, t)) :
    ∃ (a : Allocation) (r r' : Reg), t.statics.find? (.literal text) = some a ∧
      r.index.val = Shape.top s.stack.base (shape s.stack.elems) ∧ r'.index.val = r.index.val + 1 ∧
      code = loadConstant r (.ofNat (a.address.add Statics.headerSize).raw) ++
        loadConstant r' (.ofNat (Statics.textBytes text).length) := by
  have hfind : (s.statics.literal text).2.find? (.literal text) = some (s.statics.literal text).1 :=
    (Statics.served_literal (P := fun _ _ => True) text).find?
  have hsize : ∀ (u : LowerState) (size : Size) (w : LowerState),
      sizeOf .string u = .ok (size, w) → size.words = 2 := by
    intro u size w hu
    cases hu
    rfl
  obtain ⟨a, u, ha, h⟩ := bind_ok.mp h
  cases ha
  simp only [push, bind_ok, pure_ok, operand_ok, pushSized_ok] at h
  obtain ⟨_, v, ⟨size, w, hw, hpush⟩, r, _, ⟨⟨e, he, hr⟩, rfl⟩, r', _, ⟨⟨e', he', hr'⟩, rfl⟩, rfl, rfl⟩ := h
  have htwo := hsize _ size w hw
  obtain ⟨hstack, hstatics⟩ := sizeOf_keeps hw
  rcases hpush with ⟨hzero, -⟩ | ⟨-, -, rfl⟩
  · omega
  · cases he
    cases he'
    rw [hstack] at hr hr'
    refine ⟨_, r, r', ?_, hr, by simp only at hr hr'; omega, rfl⟩
    exact hstatics ▸ hfind

end Lower

end CilMmix
