import CilMmix.Proofs.Lowering.Room

/-! Two words of headroom. On top of the operands the code of an instruction uses scratch registers, holes
and temporaries, and two spare registers before and after it are enough for all of them. -/

namespace CilMmix

namespace Lower

variable {types : List TypeDef} {base : Nat} {elems : List Element} {α β : Type}

section

variable (hs : Shape.Stacked base (shape elems))

include hs

theorem safe_constant {ty : TypeRef} (hfit : Admits types base elems ty) (origin : String)
    (value : UInt64) : Safe types base elems (constant origin ty value) := by
  refine (fits_push hs hfit origin).bind ?_
  rintro _ left ⟨words, -, hleft⟩
  exact (looks_first hleft.stacked 0).then fun _ _ => safe_pure _

theorem safe_loadSlot {b : Block} {index : Nat}
    (hslot : ∀ e, b.elems[index]? = some e → e.stop ≤ registerCount ∧
      Shape.top base (shape elems) + e.size.words ≤ registerCount) :
    Safe types base elems (loadSlot b index) := by
  refine (looks_lift (b.elem_roomy index)).then fun e he => ?_
  have he := Block.elem_ok.mp he
  obtain ⟨hstop, hfit⟩ := hslot e he
  refine (fits_pushSized hs hfit e.ty e.origin).bind fun _ left hleft => ?_
  refine (looks_mapM fun word hword => ?_).safe
  have hword := List.mem_range.mp hword
  refine (hleft.looks_word hword).then fun _ _ => (looks_lift (Block.reg_roomy fun e' he' => ?_)).then fun _ _ =>
    fits_pure ⟨trivial, rfl⟩
  cases he.symm.trans he'
  simp only [Element.stop] at hstop
  omega

theorem safe_storeSlot {b : Block} {index : Nat}
    (hslot : ∀ e, b.elems[index]? = some e → e.stop ≤ registerCount ∧
      ∀ value, elems[0]? = some value → e.size.words ≤ value.size.words) :
    Safe types base elems (storeSlot b index) := by
  refine (looks_lift (b.elem_roomy index)).then fun e he => ?_
  have he := Block.elem_ok.mp he
  obtain ⟨hstop, hwide⟩ := hslot e he
  refine (looks_mapM fun word hword => ?_).then fun _ _ => fits_pop_then hs fun _ _ _ _ _ _ => safe_pure _
  have hword := List.mem_range.mp hword
  refine (looks_lift (Block.reg_roomy fun e' he' => ?_)).then fun _ _ =>
    (looks_word hs fun value hvalue => ?_).then fun _ _ => fits_pure ⟨trivial, rfl⟩
  · cases he.symm.trans he'
    simp only [Element.stop] at hstop
    omega
  · have hle := hwide value hvalue
    omega

theorem safe_slotAddress (hfit : Admits types base elems (.primitive .nativeUInt)) (origin : String)
    (b : Block) (index : Nat) : Safe types base elems (slotAddress origin b index) := by
  refine (looks_lift (b.elem_roomy index)).then fun e _ => (fits_push hs hfit origin).bind ?_
  rintro _ left ⟨words, hwords, hleft⟩
  refine (looks_first hleft.stacked 0).then fun r _ => looks_top.then fun n hn => ?_
  have hfit := hfit words hwords
  have htop := hleft.top_eq
  have hroom : Roomy (addNumber r (e.offset * wordBytes) n) :=
    addNumber_throws_of (Reg.ofIndex_roomy (by omega)) _ _
  exact (looks_lift hroom).then fun _ _ => safe_pure _

theorem safe_binary (code : Opcode) : Safe types base elems (binary code) := by
  refine (looks_first hs 1).then fun _ _ => (looks_first hs 0).then fun _ _ => ?_
  exact fits_pop_then hs fun _ _ _ _ _ _ => safe_pure _

theorem safe_arith (a : Arith) : Safe types base elems (arith a) := by
  have hrem (divide : Opcode) : Safe types base elems (remainder divide) :=
    (looks_first hs 1).then fun _ _ => (safe_binary hs divide).bind fun _ _ _ => safe_pure _
  cases a with
  | rem => exact hrem .div
  | remUn => exact hrem .divu
  | _ => exact safe_binary hs _

theorem safe_compare (hfit : Admits types base (elems.drop 2) (.primitive .bool)) (origin : String)
    (c : Comparison) : Safe types base elems (compare origin c) := by
  refine (looks_first hs 1).then fun _ _ => (looks_first hs 0).then fun _ _ => ?_
  refine fits_pop_then hs ?_
  rintro b _ _ rfl - hs
  refine fits_pop_then hs ?_
  rintro a rest _ rfl - hs
  exact (fits_push hs hfit origin).bind fun _ _ _ => safe_pure _

theorem safe_compareBranch (c : Condition) (label : String) :
    Safe types base elems (compareBranch c label) := by
  refine (looks_first hs 1).then fun _ _ => (looks_first hs 0).then fun _ _ => ?_
  exact fits_pop_then hs fun _ _ _ _ _ hs => fits_pop_then hs fun _ _ _ _ _ _ => safe_pure _

theorem safe_testBranch (code : Opcode) (label : String) :
    Safe types base elems (testBranch code label) :=
  (looks_first hs 0).then fun _ _ => fits_pop_then hs fun _ _ _ _ _ _ => safe_pure _

theorem safe_convert {k : Conversion} (hfit : ∀ p, k.target? = some p →
      Admits types base (elems.drop 1) (.primitive p)) (i : Instruction) :
    Safe types base elems (convert i k) := by
  unfold convert
  split
  · exact fits_throw id
  · rename_i p hp
    refine fits_pop_then hs ?_
    rintro e rest _ rfl - hs
    exact (fits_push hs (hfit p hp) _).bind fun _ _ _ => safe_pure _

end

theorem safe_supported {i : Instruction} {o : Option α} {f : α → Lower β}
    (hf : ∀ a, o = some a → Safe types base elems (f a)) : Safe types base elems (supported i o >>= f) := by
  cases o with
  | none => exact fits_throw id
  | some a => exact hf a rfl

section

variable (hs : Shape.Stacked base (shape elems))

include hs

theorem safe_loadIndirect {w : Width}
    (hfit : ∀ ty, w.loaded? = some ty → Admits types base (elems.drop 1) ty) (i : Instruction) :
    Safe types base elems (loadIndirect i w) := by
  refine safe_supported fun _ _ => safe_supported fun ty hty => fits_pop_then hs ?_
  rintro e rest _ rfl - hs
  refine (fits_push hs (hfit ty hty) _).bind ?_
  rintro _ left ⟨words, -, hleft⟩
  exact (looks_first hleft.stacked 0).then fun _ _ => safe_pure _

theorem safe_storeIndirect (i : Instruction) (w : Width) :
    Safe types base elems (storeIndirect i w) :=
  safe_supported fun _ _ => fits_pop_then hs fun _ _ _ _ _ hs => fits_pop_then hs fun _ _ _ _ _ _ =>
    safe_pure _

theorem safe_loadString (hfit : Admits types base elems .string) (origin text : String) :
    Safe types base elems (loadString origin text) := by
  refine (looks_literal text).then fun _ _ => (fits_push hs hfit origin).bind ?_
  rintro _ left ⟨words, hwords, hleft⟩
  have htwo : words = 2 := hwords.unique ⟨_, .string, rfl⟩
  exact (looks_first hleft.stacked 0).then fun _ _ => (hleft.looks_word (by omega)).then fun _ _ => safe_pure _

theorem safe_duplicate
    (hfit : ∀ e, elems[0]? = some e → Shape.top base (shape elems) + e.size.words ≤ registerCount) :
    Safe types base elems duplicate := by
  refine (looks_peek 0).then fun e he => ?_
  have hfit := hfit e he
  have hle := stop_le_of_getElem? hs he
  have hcopy : Roomy (copyWords e.offset e.stop e.size.words).complete :=
    copyWords_roomy hle.2.2 (by omega)
  exact (looks_lift hcopy).then fun _ _ => (fits_pushSized hs hfit _ _).bind fun _ _ _ => safe_pure _

theorem safe_length (hfit : Admits types base (elems.drop 1) (.primitive .uint64)) (origin : String) :
    Safe types base elems (length origin) := by
  refine fits_pop_then hs ?_
  rintro e rest _ rfl - hs
  exact (fits_push hs hfit origin).bind fun _ _ _ => safe_pure _

/-- The size of an array in bytes is two registers above the count, and what it is counted with three. -/
theorem safe_newArray {elem : TypeRef} (hfit : Admits types base (elems.drop 1) (.array elem))
    (origin : String) : Safe types base elems (newArray origin elem) := by
  refine (looks_sizeOf elem).then fun size _ => fits_pop_then hs ?_
  rintro e rest count rfl hcount hs'
  have htwo : Shape.top base (shape rest) + 2 + 2 ≤ registerCount := hfit 2 ⟨_, .array elem, rfl⟩
  have ho : e.offset = Shape.top base (shape rest) := hs.1
  refine (looks_address (by omega)).then fun _ _ => (looks_address (by omega)).then fun bytes _ => ?_
  have hscale : Roomy (scale bytes size.bytes (count.index.val + 3)) :=
    scale_throws_of (Reg.ofIndex_roomy (by omega)) _ _
  refine (looks_lift hscale).then fun _ _ => ?_
  exact (fits_push hs' hfit origin).bind fun _ _ _ => safe_pure _

end

section

variable (hs : Shape.Stacked base (shape elems))
  (hroom : Shape.top base (shape elems) + 2 ≤ registerCount)

include hs hroom

theorem safe_storeField (f : FieldRef) : Safe types base elems (storeField f) := by
  refine (looks_fieldOffset f).then fun _ _ => (looks_first hs 1).then fun target _ => ?_
  refine (looks_peek 0).then fun e he => looks_top.then fun scratch hscratch => ?_
  refine (looks_mapM fun word hword => ?_).then fun _ _ => ?_
  · refine (looks_word hs fun e' he' => ?_).then fun value _ => looks_accessAt (by omega) _ _ _ _
    cases he.symm.trans he'
    exact List.mem_range.mp hword
  · exact fits_pop_then hs fun _ _ _ _ _ hs => fits_pop_then hs fun _ _ _ _ _ _ => safe_pure _

theorem safe_fieldAddress {f : FieldRef}
    (hfit : ∀ ty, FieldHasType types f ty → Admits types base (elems.drop 1) (.byRef ty))
    (origin : String) : Safe types base elems (fieldAddress origin f) := by
  refine (looks_fieldOffset f).then fun offset _ => (looks_fieldType f).then fun ty hty => ?_
  refine looks_top.then fun scratch hscratch => fits_pop_then hs ?_
  rintro e rest object rfl - hs
  refine (fits_push hs (hfit ty hty) origin).bind fun _ _ _ => ?_
  exact (looks_lift (addNumber_throws_of (Reg.ofIndex_roomy (by omega)) _ _)).safe

theorem safe_loadStatic {f : FieldRef} (hfield : ∀ ty, FieldHasType types f ty → ¬ HasWords types ty 0)
    (hfit : ∀ ty, FieldHasType types f ty → Admits types base elems ty) (origin : String) :
    Safe types base elems (loadStatic origin f) := by
  refine (looks_staticField f).then fun _ _ => (looks_fieldType f).then fun ty hty => ?_
  refine looks_top.then fun n hn => (looks_address (by omega)).then fun _ _ => ?_
  refine (fits_push hs (hfit ty hty) origin).bind ?_
  rintro _ left ⟨words, hwords, hleft⟩
  refine (looks_peek 0).then fun e he => (looks_mapM fun word hword => ?_).then fun _ _ => safe_pure _
  refine (hleft.looks_word ?_).then fun _ _ => fits_pure ⟨trivial, rfl⟩
  obtain ⟨e', he', -, rfl⟩ := hleft.head (Nat.pos_of_ne_zero fun hz => hfield ty hty (hz ▸ hwords))
  cases he.symm.trans he'
  exact List.mem_range.mp (List.mem_reverse.mp hword)

theorem safe_storeStatic (f : FieldRef) : Safe types base elems (storeStatic f) := by
  refine (looks_staticField f).then fun _ _ => looks_top.then fun n hn => ?_
  refine (looks_address (by omega)).then fun _ _ => (looks_peek 0).then fun e he => ?_
  refine (looks_mapM fun word hword => ?_).then fun _ _ => fits_pop_then hs fun _ _ _ _ _ _ => safe_pure _
  refine (looks_word hs fun e' he' => ?_).then fun _ _ => fits_pure ⟨trivial, rfl⟩
  cases he.symm.trans he'
  exact List.mem_range.mp hword

theorem safe_clear (ty : TypeRef) : Safe types base elems (clear ty) := by
  refine (looks_sizeOf ty).then fun _ _ => looks_top.then fun scratch hscratch => fits_pop_then hs ?_
  rintro e rest address rfl - -
  exact (looks_mapM fun word _ => looks_accessAt (by omega) _ _ _ _).then fun _ _ => safe_pure _

theorem safe_loadElement {w : Width}
    (hfit : ∀ ty, w.loaded? = some ty → Admits types base (elems.drop 2) ty) (i : Instruction) :
    Safe types base elems (loadElement i w) := by
  refine safe_supported fun _ _ => safe_supported fun ty hty => looks_top.then fun scratch hscratch => ?_
  refine fits_pop_then hs ?_
  rintro b _ _ rfl - hs
  refine fits_pop_then hs ?_
  rintro a rest _ rfl - hs
  refine (fits_push hs (hfit ty hty) _).bind ?_
  rintro _ left ⟨words, -, hleft⟩
  exact (looks_first hleft.stacked 0).then fun _ _ => safe_scale (by omega) _ _ _

theorem safe_storeElement (i : Instruction) (w : Width) :
    Safe types base elems (storeElement i w) := by
  refine safe_supported fun _ _ => looks_top.then fun scratch hscratch => ?_
  refine fits_pop_then hs fun _ _ _ _ _ hs => fits_pop_then hs fun _ _ _ _ _ hs =>
    fits_pop_then hs fun _ _ _ _ _ _ => ?_
  exact safe_scale (by omega) _ _ _

theorem safe_elementAddress {elem : TypeRef} (hfit : Admits types base (elems.drop 2) (.byRef elem))
    (origin : String) : Safe types base elems (elementAddress origin elem) := by
  refine (looks_sizeOf elem).then fun _ _ => looks_top.then fun scratch hscratch => ?_
  refine fits_pop_then hs ?_
  rintro b _ _ rfl - hs
  refine fits_pop_then hs ?_
  rintro a rest _ rfl - hs
  refine (fits_push hs hfit origin).bind ?_
  rintro _ left ⟨words, -, hleft⟩
  exact (looks_first hleft.stacked 0).then fun _ _ => safe_scale (by omega) _ _ _

end

theorem fits_pops (hs : Shape.Stacked base (shape elems)) (l : List α) :
    Fits types base elems (fun _ left => left = elems.drop l.length)
      (l.forM fun _ => discard pop : Lower PUnit) := by
  induction l generalizing elems with
  | nil => exact fits_pure rfl
  | cons a l ih =>
    have hpop : Fits types base elems (fun _ left => left = elems.drop 1 ∧ Shape.Stacked base (shape left))
        (discard pop : Lower PUnit) := by
      change Fits types base elems _ (pop >>= fun _ => (pure ⟨⟩ : Lower PUnit))
      refine fits_pop_then hs ?_
      rintro e rest _ rfl - hs
      exact fits_pure ⟨rfl, hs⟩
    refine hpop.bind ?_
    rintro _ _ ⟨rfl, hs⟩
    refine (ih hs).mono fun _ left hleft => ?_
    rw [hleft, List.drop_drop, List.length_cons, Nat.add_comm]

/-- The arguments move up by the hole, which is where the first of them was. -/
theorem safe_call (hs : Shape.Stacked base (shape elems))
    (hroom : Shape.top base (shape elems) + 2 ≤ registerCount) {ref : MethodRef}
    (hfit : Admits types base (elems.drop ref.params.length) ref.ret) (origin : String) :
    Safe types base elems (call origin ref) := by
  refine looks_top.then fun stop hstop => (fits_pops hs ref.params).bind ?_
  rintro _ _ rfl
  refine looks_top.then fun first hfirst => ?_
  have hle := hs.top_drop_le ref.params.length
  rw [← shape_drop, ← hfirst, ← hstop] at hle
  have hcopy : Roomy (copyWords first (first + 1) (stop - first)).complete :=
    copyWords_roomy (by omega) (by omega)
  refine (looks_lift hcopy).then fun _ _ => (looks_address (by omega)).then fun _ _ => ?_
  have hbelow : Shape.Stacked base (shape (elems.drop ref.params.length)) := by
    rw [shape_drop]
    exact hs.drop _
  exact (fits_push hbelow hfit origin).bind fun _ _ _ => safe_pure _

theorem Fits.roomy {Q : α → List Element → Prop} {x : Lower α} (hx : Fits types base elems Q x)
    {s : LowerState} (hsound : s.layout.Sound types) (hstack : s.stack = ⟨base, elems⟩) :
    Roomy (x s) := (hx s hsound hstack).1

/-- A field of an object in registers is copied from inside of the object. -/
theorem loadField_roomy (hs : Shape.Stacked base (shape elems)) {f : FieldRef}
    (hfield : ∀ ty, FieldHasType types f ty → ¬ HasWords types ty 0)
    (hfit : ∀ ty, FieldHasType types f ty → Admits types base (elems.drop 1) ty) {s : LowerState}
    (hsound : s.layout.Sound types) (hstack : s.stack = ⟨base, elems⟩)
    (hwide : ∀ object offset ty words, elems[0]? = some object → s.layout.isStruct object.ty = true →
      (s.layout.fieldOffset f).1 = .ok offset → FieldHasType types f ty → HasWords types ty words →
      offset.words + words ≤ object.size.words) (origin : String) : Roomy (loadField origin f s) := by
  refine bind_throws ((looks_fieldType f).roomy hsound hstack) fun ty t ht => ?_
  obtain rfl := (fieldType_ok ht).symm
  obtain ⟨-, -, -, hty, -⟩ := (looks_fieldType f s hsound hstack).2 ty s ht
  refine bind_throws (fieldOffset_roomy f s) fun offset u hu => ?_
  obtain ⟨husound, _, hustack, -, rfl⟩ := (looks_fieldOffset f s hsound hstack).2 offset u hu
  have hoffset : (s.layout.fieldOffset f).1 = .ok offset := by
    unfold fieldOffset at hu
    split at hu <;> cases hu
    rename_i he
    rw [he]
  refine Fits.roomy (Q := fun _ _ => True) ?_ husound hustack
  refine (looks_peek 0).then fun object hobject => fits_pop_then hs ?_
  rintro e rest source rfl hsource hs'
  obtain rfl : e = object := Option.some.inj hobject
  have hle := stop_le_of_getElem? hs (show (e :: rest)[0]? = some e from rfl)
  have ho : e.offset = Shape.top base (shape rest) := hs.1
  refine (fits_push hs' (hfit ty hty) origin).bind ?_
  rintro _ left ⟨words, hwords, hleft⟩
  have hroom : Shape.top base (shape rest) + words + 2 ≤ registerCount := hfit ty hty words hwords
  have hpos : 0 < words := Nat.pos_of_ne_zero fun hz => hfield ty hty (hz ▸ hwords)
  refine (looks_peek 0).then fun e' he' => looks_get.then fun v hv => ?_
  obtain ⟨e'', he'', -, hsize⟩ := hleft.head hpos
  cases he'.symm.trans he''
  split
  · rename_i hstruct
    rw [Layout.isStruct_congr (hv.types_eq.trans hsound.types_eq.symm)] at hstruct
    have hin := hwide e offset ty words rfl hstruct hoffset hty hwords
    simp only [Element.stop] at hle
    exact (looks_lift (copyWords_roomy (by omega) (by omega))).safe
  · refine looks_top.then fun scratch hscratch => (looks_mapM fun word hword => ?_).then fun _ _ => safe_pure _
    have htop := hleft.top_eq
    refine (hleft.looks_word ?_).then fun _ _ => looks_accessAt (by omega) _ _ _ _
    exact hsize ▸ List.mem_range.mp (List.mem_reverse.mp hword)

end Lower

namespace Frame

variable {types : List TypeDef} {m : MethodDef} {f : Frame}

theorem Laid.ret_words_le (hf : f.Laid m) : f.ret.words ≤ f.stop := by
  obtain ⟨hret, hparams, hbackup, hlocals⟩ := hf.ordered
  simp only [Block.stop] at hparams hbackup hlocals
  omega

/-- The return address has a register of its own. -/
theorem Laid.exists_backupReg (hf : f.Laid m) (hs : f.Sized types) : ∃ o, f.backupReg = .ok o := by
  unfold backupReg
  split
  · rename_i hcalls
    have htypes := hf.backup.types_eq
    rw [if_pos hcalls, List.map_eq_singleton_iff] at htypes
    obtain ⟨e, he, hty⟩ := htypes
    have hmem : e ∈ f.backup.elems := he ▸ List.mem_singleton_self e
    have hsize : HasSize types e.ty e.size := hs f.backup (by simp) e hmem
    rw [hty] at hsize
    have hone : e.size.words = 1 := HasWords.unique ⟨_, hsize, rfl⟩ ⟨_, .primitive .nativeUInt, rfl⟩
    have hstop := (hf.backup.mem hmem).2
    have hle := hf.backup_le.2
    have hcount := hf.stop_le
    simp only [Element.stop] at hstop
    obtain ⟨r, -, hr⟩ := Reg.exists_ofIndex (n := e.offset) (by omega)
    have hreg : f.backup.reg 0 0 = .ok r := Block.reg_ok.mpr ⟨e, by rw [he]; rfl, hr⟩
    exact ⟨some r, by rw [hreg]; rfl⟩
  · exact ⟨none, rfl⟩

end Frame

namespace Lower

variable {types : List TypeDef} {m : MethodDef} {site : Site} {elems : List Element}

theorem safe_giveBack {f : Frame} (hf : f.Laid m) (hs : Shape.Stacked f.stop (shape elems))
    (hroom : Shape.top f.stop (shape elems) + 2 ≤ registerCount) (hwords : f.ret.words ≠ 0) :
    Safe types f.stop elems (giveBack f) := by
  have hoffset := hf.ret_offset
  have hret := hf.ret_words_le
  have hstop := hf.stop_le
  refine looks_top.then fun stop htop => ?_
  split
  · exact fits_throw id
  rename_i hle
  dsimp only
  refine (looks_lift (copyWords_roomy (by omega) (by omega))).then fun _ _ => ?_
  refine (looks_lift (copyWords_roomy (by omega) (by omega))).then fun _ _ => ?_
  exact fits_pop_then hs fun _ _ _ _ _ _ => safe_pure _

theorem safe_ret (hf : site.frame.Laid m) (hsized : site.frame.Sized types)
    (hs : Shape.Stacked site.frame.stop (shape elems))
    (hroom : Shape.top site.frame.stop (shape elems) + 2 ≤ registerCount)
    (hret : site.frame.ret.elems.isEmpty = false → site.frame.ret.words ≠ 0) :
    Safe types site.frame.stop elems (ret site) := by
  obtain ⟨o, ho⟩ := hf.exists_backupReg hsized
  have hlink : Roomy site.frame.backupReg := by
    rw [ho]
    exact .ok o
  have hend (g : LowerState → List Line) (left : List Element) :
      Safe types site.frame.stop left (do return g (← get)) := looks_get.then fun _ _ => safe_pure _
  refine (looks_lift hlink).then fun _ _ => ?_
  dsimp only
  split
  · exact (safe_pure _).bind fun _ left _ => hend _ left
  · rename_i hvalue
    exact (safe_giveBack hf hs hroom (hret (by simpa using hvalue))).bind fun _ left _ => hend _ left

/-- A result without words has no last register. -/
theorem ret_of_wordless (hf : site.frame.Laid m) (hsized : site.frame.Sized types)
    (hvalue : site.frame.ret.elems.isEmpty = false) (hwords : site.frame.ret.words = 0) {s : LowerState}
    (hstack : s.stack = ⟨site.frame.stop, elems⟩)
    (hs : Shape.Stacked site.frame.stop (shape elems)) :
    ret site s = .error .indexUnderflow := by
  obtain ⟨o, ho⟩ := hf.exists_backupReg hsized
  have htop : top s = .ok (Shape.top site.frame.stop (shape elems), s) := by
    refine top_ok.mpr ⟨?_, rfl⟩
    rw [hstack]
  have hbelow := hs.base_le_top
  have hgive : giveBack site.frame s = .error .indexUnderflow := by
    rw [giveBack, bind_run htop, hwords, Nat.add_zero, if_neg (Nat.not_lt.mpr hbelow), if_pos rfl]
    rfl
  rw [ret, bind_run (lift_ok.mpr ⟨ho, rfl⟩)]
  dsimp only
  rw [hvalue, if_neg Bool.false_ne_true]
  change (giveBack site.frame s >>= _) = _
  rw [hgive]
  rfl

end Lower

/-- An instruction with two registers to spare above the operands that it finds and above those that it
leaves. -/
structure Op.Spacious (types : List TypeDef) (m : MethodDef) (f : Frame) (l : Layout)
    (elems : List Element) (op : Op) : Prop where
  before : Shape.top f.stop (shape elems) + 2 ≤ registerCount
  after : ∀ words, op.Leaves types f (shape elems) words →
    Shape.top f.stop (shape (elems.drop (op.takes f))) + words + 2 ≤ registerCount
  /-- The fields that are loaded have words. -/
  fields : ∀ r, op = .field .load r ∨ op = .staticField .load r → ∀ ty, Lower.FieldHasType types r ty →
    ¬ HasWords types ty 0
  /-- A variable is not wider than the value that is stored in it. -/
  slots : ∀ v ty words value, op = .store v → m.typeOf? v = some ty → HasWords types ty words →
    elems[0]? = some value → words ≤ value.size.words
  /-- An object in registers holds all of the field that is loaded from it. -/
  objects : ∀ r object offset ty words, op = .field .load r → elems[0]? = some object →
    l.isStruct object.ty = true → (l.fieldOffset r).1 = .ok offset → Lower.FieldHasType types r ty →
    HasWords types ty words → offset.words + words ≤ object.size.words

namespace Lower

variable {types : List TypeDef} {m : MethodDef} {site : Site} {elems : List Element}

theorem instruction_roomy (hf : site.frame.Laid m) (hsized : site.frame.Sized types)
    (hs : Shape.Stacked site.frame.stop (shape elems)) {s : LowerState}
    (hsound : s.layout.Sound types) (hstack : s.stack = ⟨site.frame.stop, elems⟩) {i : Instruction}
    (h : i.op.Spacious types m site.frame s.layout elems)
    (hret : i.op = .ret → site.frame.ret.elems.isEmpty = false → site.frame.ret.words ≠ 0) :
    Roomy (instruction site i s) := by
  obtain ⟨offset, op⟩ := i
  have hroom := h.before
  have hslot {v : Variable} {e : Element} (he : (v.slot site.frame).1.elems[(v.slot site.frame).2]? = some e) :
      e.stop ≤ registerCount := Nat.le_trans (hf.slot_le he) hf.stop_le
  by_cases hload : ∃ r, op = .field .load r
  · -- Where the field is depends on what the layout remembers.
    obtain ⟨r, rfl⟩ := hload
    refine loadField_roomy hs (h.fields r (.inl rfl)) (fun ty hty words hw => ?_) hsound hstack ?_ _
    · exact h.after words ⟨ty, hty, hw⟩
    · exact fun object offset ty words => h.objects r object offset ty words rfl
  suffices hsafe : Safe types site.frame.stop elems (instruction site ⟨offset, op⟩) from
    hsafe.roomy hsound hstack
  cases op with
  | nop | br => exact safe_pure _
  | load v =>
    refine safe_loadSlot hs fun e he => ⟨hslot he, ?_⟩
    have hafter := h.after e.size.words ⟨e, he, rfl⟩
    exact Nat.le_trans (Nat.le_add_right _ 2) hafter
  | store v =>
    refine safe_storeSlot hs fun e he => ⟨hslot he, fun value hvalue => ?_⟩
    exact h.slots v e.ty e.size.words value rfl (hf.typeOf? he) (hsized.hasWords he) hvalue
  | address v => exact safe_slotAddress hs (fun words hw => h.after words ⟨_, rfl, hw⟩) _ _ _
  | push l =>
    cases l with
    | null | int32 | int64 => exact safe_constant hs (fun words hw => h.after words ⟨_, rfl, hw⟩) _ _
    | str text => exact safe_loadString hs (fun words hw => h.after words ⟨_, rfl, hw⟩) _ _
    | real32 | real64 => exact fits_throw id
  | dup =>
    refine safe_duplicate hs fun e he => ?_
    have hafter := h.after e.size.words ⟨e.offset, by
      rw [List.head?_eq_getElem?, shape, List.getElem?_map, he]
      rfl⟩
    exact Nat.le_trans (Nat.le_add_right _ 2) hafter
  | pop => exact fits_pop_then hs fun _ _ _ _ _ _ => safe_pure _
  | call ref => exact safe_call hs hroom (fun words hw => h.after words ⟨_, rfl, hw⟩) _
  | ret => exact safe_ret hf hsized hs hroom (hret rfl)
  | brFalse | brTrue => exact safe_testBranch hs _ _
  | brIf c t => exact safe_compareBranch hs _ _
  | ldind w => exact safe_loadIndirect hs (fun ty hty words hw => h.after words ⟨ty, hty, hw⟩) _
  | stind w => exact safe_storeIndirect hs _ _
  | arith a => exact safe_arith hs a
  | neg | not => exact (looks_first hs 0).then fun _ _ => safe_pure _
  | conv check k =>
    exact safe_convert hs (fun p hp words hw => h.after words ⟨_, ⟨p, hp, rfl⟩, hw⟩) _
  | compare c => exact safe_compare hs (fun words hw => h.after words ⟨_, rfl, hw⟩) _ _
  | field a r =>
    cases a with
    | load => exact absurd ⟨r, rfl⟩ hload
    | store => exact safe_storeField hs hroom r
    | address =>
      exact safe_fieldAddress hs hroom (fun ty hty words hw => h.after words ⟨_, ⟨ty, hty, rfl⟩, hw⟩) _
  | staticField a r =>
    cases a with
    | load =>
      exact safe_loadStatic hs hroom (h.fields r (.inr rfl))
        (fun ty hty words hw => h.after words ⟨ty, hty, hw⟩) _
    | store => exact safe_storeStatic hs hroom r
    | address =>
      refine (looks_staticField r).then fun _ _ => ?_
      exact safe_constant hs (fun words hw => h.after words ⟨_, rfl, hw⟩) _ _
  | initobj ty => exact safe_clear hs hroom ty
  | «sizeof» ty =>
    refine (looks_sizeOf ty).then fun _ _ => ?_
    exact safe_constant hs (fun words hw => h.after words ⟨_, rfl, hw⟩) _ _
  | newarr elem => exact safe_newArray hs (fun words hw => h.after words ⟨_, rfl, hw⟩) _
  | ldlen => exact safe_length hs (fun words hw => h.after words ⟨_, rfl, hw⟩) _
  | ldelem w => exact safe_loadElement hs hroom (fun ty hty words hw => h.after words ⟨ty, hty, hw⟩) _
  | stelem w => exact safe_storeElement hs hroom _ _
  | ldelema elem => exact safe_elementAddress hs hroom (fun words hw => h.after words ⟨_, rfl, hw⟩) _
  | _ => exact fits_throw id

/-- Registers run out in a frame exactly if its values have more than 256 words, and with two registers
to spare no instruction needs one outside of the window, but for the return of a result without words. -/
theorem two_words_of_headroom {M : Module} {m : MethodDef} {session : Session}
    (hsession : session.Reached M) :
    (∀ total, HasWidth M.types m.windowTypes total → ∀ fault,
      (Frame.build m).run session.layout = .error fault ↔
        registerCount < total ∧ fault = .registerExhausted (total - 1)) ∧
    ∀ site layout, (Frame.build m).run session.layout = .ok (site.frame, layout) →
      ∀ σ : Session, σ.Reached M → ∀ elems, Shape.Stacked site.frame.stop (shape elems) →
      ∀ i : Instruction, i.op.Spacious M.types m site.frame σ.layout elems → ∀ annotate label fault,
        (piece annotate site label i).run { σ with stack := ⟨site.frame.stop, elems⟩ } = .error fault ∧
            fault.Exhausts ↔
          i.op = .ret ∧ m.ret.isVoid = false ∧ HasWords M.types m.ret 0 ∧ fault = .indexUnderflow := by
  refine ⟨fun total htotal fault => Frame.build_eq_error hsession.sound htotal, ?_⟩
  intro site layout hframe σ hσ elems hs i h annotate label fault
  obtain ⟨hf, hsizes⟩ := Frame.build_ok hframe
  have hsized := (hsizes M.types hsession.sound).2
  have hwords := hf.hasWords_ret hsized
  have hpiece : (piece annotate site label i).run { σ with stack := ⟨site.frame.stop, elems⟩ } =
        .error fault ↔
      instruction site i { σ with stack := ⟨site.frame.stop, elems⟩ } = .error fault := by
    change (instruction site i _ >>= fun _ => pure _) = _ ↔ _
    rw [bind_eq_error]
    exact or_iff_left nofun
  rw [hpiece]
  by_cases hcase : i.op = .ret ∧ m.ret.isVoid = false ∧ site.frame.ret.words = 0
  · obtain ⟨offset, op⟩ := i
    obtain ⟨rfl, hvalue, hzero⟩ := hcase
    have hfault := ret_of_wordless (s := { σ with stack := ⟨site.frame.stop, elems⟩ }) hf hsized
      (hf.ret_isEmpty.trans hvalue) hzero rfl hs
    change ret site _ = _ ∧ _ ↔ _
    rw [hfault, Except.error.injEq]
    constructor
    · rintro ⟨rfl, -⟩
      exact ⟨rfl, hvalue, hzero ▸ hwords, rfl⟩
    · rintro ⟨-, -, -, rfl⟩
      exact ⟨rfl, trivial⟩
  · constructor
    · rintro ⟨hfault, hout⟩
      refine absurd hout (instruction_roomy hf hsized hs hσ.sound rfl h ?_ _ hfault)
      exact fun hret hvalue hzero => hcase ⟨hret, hf.ret_isEmpty.symm.trans hvalue, hzero⟩
    · rintro ⟨hret, hvalue, hzero, -⟩
      exact absurd ⟨hret, hvalue, hwords.unique hzero⟩ hcase

def office : Module := ⟨"office", Poised.sheets⟩

/-- A method with so many numbers. -/
def crowd (count : Nat) : MethodDef where
  name := "crowd"
  locals := List.replicate count (.primitive .int64)

theorem hasWidth_crowd (types : List TypeDef) (count : Nat) :
    HasWidth types (crowd count).windowTypes count := by
  change HasWidth types (List.replicate count _) count
  induction count with
  | zero => exact .nil
  | succ count ih =>
    rw [List.replicate_succ, Nat.add_comm]
    exact .cons ⟨_, .primitive .int64, rfl⟩ ih

def countAt (base : Nat) : List Element := [⟨base, ⟨4⟩, .primitive .int32, none⟩]

theorem spacious_newarr {f : Frame} (hstop : f.stop = 252) (l : Layout) :
    (Op.newarr (.named "Form")).Spacious office.types (crowd 252) f l (countAt f.stop) where
  before := by
    rw [hstop]
    decide
  after := by
    rintro words ⟨_, rfl, hw⟩
    rw [hw.unique ⟨_, .array _, rfl⟩, hstop]
    exact show 252 + 2 + 2 ≤ registerCount by decide
  fields := by rintro r (h | h) <;> cases h
  slots := nofun
  objects := nofun

/-- On 252 numbers a new array of forms needs all registers, and 257 numbers are too many. -/
theorem two_words_of_headroom_crowd : ∃ frame layout,
    (Frame.build (crowd 252)).run (Session.ofModule office).layout = .ok (frame, layout) ∧
    frame.stop = 252 ∧
    (∀ annotate label fault, fault.Exhausts →
      (piece annotate ((crowd 252).site {} frame) label ⟨4, .newarr (.named "Form")⟩).run
          ⟨.ofModule office, ⟨frame.stop, countAt frame.stop⟩⟩ ≠ .error fault) ∧
    (Frame.build (crowd 257)).run (Session.ofModule office).layout = .error (.registerExhausted 256) := by
  have hsound := Layout.sound_ofModule office
  obtain ⟨frame, layout, hstop, hframe⟩ := Frame.build_of_hasWidth hsound (hasWidth_crowd _ 252)
  rw [if_neg (by decide)] at hframe
  have hs : Shape.Stacked frame.stop (shape (countAt frame.stop)) := by
    rw [hstop]
    exact ⟨rfl, by decide, by decide, trivial⟩
  refine ⟨frame, layout, hframe, hstop, fun annotate label fault hout hfault => ?_, ?_⟩
  · have hnever := (two_words_of_headroom .start).2 ((crowd 252).site {} frame) layout hframe
      (.ofModule office) .start (countAt frame.stop) hs ⟨4, .newarr (.named "Form")⟩
      (spacious_newarr hstop _) annotate label fault
    cases (hnever.mp ⟨hfault, hout⟩).1
  · exact ((two_words_of_headroom .start).1 257 (hasWidth_crowd _ 257) _).mpr ⟨by decide, rfl⟩

/-- A method that gives its argument back. -/
def handBack : MethodDef where
  name := "handBack"
  params := [.named "Unit"]
  ret := .named "Unit"

/-- The frame is empty, and a value without words has no register to be returned in. -/
theorem return_of_unit_underflows : ∃ frame layout,
    (Frame.build handBack).run (Session.ofModule hollow).layout = .ok (frame, layout) ∧
    frame.stop = 0 ∧
    Op.ret.Spacious hollow.types handBack frame (Session.ofModule hollow).layout [] ∧
    (piece false (handBack.site {} frame) none ⟨1, .ret⟩).run ⟨.ofModule hollow, ⟨frame.stop, []⟩⟩ =
      .error .indexUnderflow := by
  have hsound := Layout.sound_ofModule hollow
  have hwidth : HasWidth hollow.types handBack.windowTypes 0 := .cons hasWords_unit (.cons hasWords_unit .nil)
  obtain ⟨frame, layout, hstop, hframe⟩ := Frame.build_of_hasWidth hsound hwidth
  rw [if_neg (by decide)] at hframe
  obtain ⟨hf, hsizes⟩ := Frame.build_ok hframe
  have hsized := (hsizes hollow.types hsound).2
  have hwords := (hf.hasWords_ret hsized).unique hasWords_unit
  have hfault : ret (handBack.site {} frame) ⟨.ofModule hollow, ⟨frame.stop, []⟩⟩ =
      .error .indexUnderflow := ret_of_wordless hf hsized hf.ret_isEmpty hwords rfl trivial
  refine ⟨frame, layout, hframe, hstop, ?_, ?_⟩
  · refine ⟨?_, ?_, ?_, nofun, nofun⟩
    · rw [hstop]
      decide
    · rintro words ⟨_, rfl, hw⟩
      rw [hw.void, hstop, List.drop_nil]
      decide
    · rintro r (h | h) <;> cases h
  · change (ret (handBack.site {} frame) _ >>= fun _ => pure _) = _
    rw [hfault]
    rfl

end Lower

end CilMmix
