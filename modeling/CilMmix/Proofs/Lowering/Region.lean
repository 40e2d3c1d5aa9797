import CilMmix.Proofs.Assembly.Written
import CilMmix.Proofs.Lowering.Steps
import CilMmix.Proofs.Machine.Moves

/-! Where the code of an instruction writes. Results, scratch registers and the holes of calls are all
found by looking at the operand stack, which begins at register `base`. -/

namespace CilMmix

namespace Lower

variable {base : Nat} {calls : Bool} {target : Option String} {α β : Type}

/-- A computation that keeps the operands from register `base` on, with a property of its result. -/
def Stays (base : Nat) (R : α → Prop) (x : Lower α) : Prop :=
  ∀ s, s.stack.base = base → Shape.Stacked base (shape s.stack.elems) → ∀ a t, x s = .ok (a, t) →
    t.stack.base = base ∧ Shape.Stacked base (shape t.stack.elems) ∧ R a

/-- A computation that writes code of such lines. -/
abbrev Emits (base : Nat) (calls : Bool) (target : Option String) (x : Lower (List Line)) : Prop :=
  Stays base (fun lines => ∀ l ∈ lines, l.Works base calls target) x

theorem Stays.bind {P : α → Prop} {Q : β → Prop} {x : Lower α} {f : α → Lower β}
    (hx : Stays base P x) (hf : ∀ a, P a → Stays base Q (f a)) : Stays base Q (x >>= f) := by
  intro s hb hs b u h
  obtain ⟨a, t, ha, hfa⟩ := bind_ok.mp h
  obtain ⟨htb, hts, hp⟩ := hx s hb hs a t ha
  exact hf a hp t htb hts b u hfa

theorem Emits.then {x : Lower (List Line)} {f : List Line → Lower (List Line)}
    (hx : Emits base calls target x)
    (hf : ∀ lines, (∀ l ∈ lines, l.Works base calls target) → Emits base calls target (f lines)) :
    Emits base calls target (x >>= f) := Stays.bind hx hf

theorem Stays.mono {P Q : α → Prop} {x : Lower α} (hx : Stays base P x) (h : ∀ a, P a → Q a) :
    Stays base Q x := by
  intro s hb hs a t ha
  obtain ⟨htb, hts, hp⟩ := hx s hb hs a t ha
  exact ⟨htb, hts, h a hp⟩

theorem stays_pure {R : α → Prop} {a : α} (ha : R a) : Stays base R (pure a) := by
  intro s hb hs b t h
  obtain ⟨rfl, rfl⟩ := pure_ok.mp h
  exact ⟨hb, hs, ha⟩

theorem stays_throw {R : α → Prop} (fault : Fault) : Stays base R (throw fault : Lower α) := nofun

theorem stays_lift (x : Except Fault α) : Stays base (fun a => x = .ok a) (liftM x : Lower α) := by
  intro s hb hs b t h
  obtain ⟨hx, rfl⟩ := lift_ok.mp h
  exact ⟨hb, hs, hx⟩

theorem stays_get : Stays base (fun _ => True) (get : Lower LowerState) := by
  intro s hb hs b t h
  obtain ⟨-, rfl⟩ := get_ok.mp h
  exact ⟨hb, hs, trivial⟩

/-- What only looks at types and static storage leaves the operands alone. -/
theorem stays_of_stack {x : Lower α} (h : ∀ s a t, x s = .ok (a, t) → t.stack = s.stack) :
    Stays base (fun _ => True) x := by
  intro s hb hs a t hx
  have he := h s a t hx
  exact ⟨he ▸ hb, he ▸ hs, trivial⟩

theorem stays_sizeOf (ty : TypeRef) : Stays base (fun _ => True) (sizeOf ty) := by
  refine stays_of_stack fun s a t h => ?_
  unfold sizeOf at h
  split at h <;> cases h
  rfl

theorem stays_fieldOffset (f : FieldRef) : Stays base (fun _ => True) (fieldOffset f) := by
  refine stays_of_stack fun s a t h => ?_
  unfold fieldOffset at h
  split at h <;> cases h
  rfl

theorem stays_fieldType (f : FieldRef) : Stays base (fun _ => True) (fieldType f) :=
  stays_get.bind fun _ _ => (stays_lift _).bind fun _ _ => stays_pure trivial

theorem stays_literal (text : String) : Stays base (fun _ => True) (literal text) := by
  refine stays_of_stack fun s a t h => ?_
  cases h
  rfl

theorem stays_staticField (f : FieldRef) : Stays base (fun _ => True) (staticField f) := by
  refine (stays_fieldType f).bind fun ty _ => (stays_sizeOf ty).bind fun size _ => ?_
  refine stays_of_stack fun s a t h => ?_
  cases h
  rfl

theorem stays_operand (index word : Nat) :
    Stays base (fun r => base ≤ r.index.val) (operand index word) := by
  intro s hb hs r t h
  obtain ⟨⟨e, he, hr⟩, rfl⟩ := operand_ok.mp h
  have hmem := (hs.mem (List.mem_map.mpr ⟨e, List.mem_of_getElem? he, rfl⟩)).1
  exact ⟨hb, hs, by simp only at hmem; omega⟩

theorem stays_peek (index : Nat) : Stays base (fun e => base ≤ e.offset) (peek index) := by
  intro s hb hs e t h
  obtain ⟨he, rfl⟩ := peek_ok.mp h
  exact ⟨hb, hs, (hs.mem (List.mem_map.mpr ⟨e, List.mem_of_getElem? he, rfl⟩)).1⟩

theorem stays_top : Stays base (fun n => base ≤ n) top := by
  intro s hb hs n t h
  obtain ⟨rfl, rfl⟩ := top_ok.mp h
  exact ⟨hb, hs, hb ▸ hs.base_le_top⟩

theorem stays_pop : Stays base (fun r => base ≤ r.index.val) pop := by
  intro s hb hs r t h
  obtain ⟨e, rest, he, hr, rfl⟩ := pop_ok.mp h
  rw [he] at hs
  have hmem := (hs.mem List.mem_cons_self).1
  exact ⟨hb, hs.tail, by simp only at hmem; omega⟩

theorem stays_pushSized (ty : TypeRef) (size : Size) (origin : Option String) :
    Stays base (fun _ => True) (pushSized ty size origin) := by
  intro s hb hs u t h
  rcases pushSized_ok.mp h with ⟨-, rfl⟩ | ⟨hpos, hfit, rfl⟩
  · exact ⟨hb, hs, trivial⟩
  · rw [hb] at hfit ⊢
    exact ⟨hb, ⟨rfl, hpos, hfit, hs⟩, trivial⟩

theorem stays_push (origin : String) (ty : TypeRef) :
    Stays base (fun _ => True) (push origin ty) :=
  (stays_sizeOf ty).bind fun _ _ => stays_pushSized _ _ _

theorem stays_mapM {R : β → Prop} {f : α → Lower β} {l : List α} (hf : ∀ a, Stays base R (f a)) :
    Stays base (fun bs => ∀ b ∈ bs, R b) (l.mapM f) := by
  induction l with
  | nil => exact stays_pure nofun
  | cons a l ih =>
    rw [List.mapM_cons]
    refine (hf a).bind fun b hb => ih.bind fun bs hbs => stays_pure ?_
    exact List.forall_mem_cons.mpr ⟨hb, hbs⟩

/-- Pieces of code one after the other. -/
theorem emits_flatten {f : α → Lower (List Line)} {l : List α}
    (hf : ∀ a, Emits base calls target (f a)) :
    Stays base (fun bs => ∀ l ∈ bs.flatten, l.Works base calls target) (l.mapM f) := by
  refine (stays_mapM hf).mono fun bs hbs l hl => ?_
  obtain ⟨b, hb, hl⟩ := List.mem_flatten.mp hl
  exact hbs b hb l hl

theorem copyPairs_ge {source dest count : Nat} (h : base ≤ dest) :
    ∀ p ∈ copyPairs source dest count, base ≤ p.1 := by
  intro p hp
  obtain ⟨k, -, rfl⟩ := mem_copyPairs hp
  exact Nat.le_trans h (Nat.le_add_right ..)

theorem emits_copyWords {source dest count : Nat} (h : base ≤ dest) :
    Emits base calls target (liftM (copyWords source dest count).complete) :=
  (stays_lift _).mono fun _ hlines => (copyWords_ok hlines).works (copyPairs_ge h)

theorem emits_accessAt {code : Opcode} {x : Operand} {address : Reg} {bytes scratch : Nat}
    (hcode : code.ordinary = true) (hx : ∀ name, x ≠ .sym name)
    (hw : code.spares = true ∨ ∃ r : Reg, x = .reg r ∧ base ≤ r.index.val) (hs : base ≤ scratch) :
    Emits base calls target (liftM (accessAt code x address bytes scratch)) :=
  (stays_lift _).mono fun _ hlines => accessAt_works hlines hcode hx hw hs

theorem emits_constant (origin : String) (ty : TypeRef) (value : UInt64) :
    Emits base calls target (constant origin ty value) := by
  refine (stays_push origin ty).bind fun _ _ => (stays_operand 0 0).bind fun r hr => ?_
  exact stays_pure (loadConstant_works hr value)

theorem emits_loadSlot (b : Block) (index : Nat) : Emits base calls target (loadSlot b index) := by
  refine (stays_lift _).bind fun e _ => (stays_pushSized _ _ _).bind fun _ _ => stays_mapM fun word => ?_
  refine (stays_operand 0 word).bind fun into hinto => (stays_lift _).bind fun value _ => ?_
  exact stays_pure (.sets rfl hinto (by simp))

theorem emits_slotAddress (origin : String) (b : Block) (index : Nat) :
    Emits base calls target (slotAddress origin b index) := by
  refine (stays_lift _).bind fun e _ => (stays_push _ _).bind fun _ _ => ?_
  refine (stays_operand 0 0).bind fun r hr => stays_top.bind fun n hn => ?_
  refine (stays_lift _).bind fun sum hsum => stays_pure (List.forall_mem_cons.mpr ⟨?_, ?_⟩)
  · exact .get hr (by decide) (by decide)
  · exact addNumber_works hsum hr hn

theorem emits_binary {code : Opcode} (hcode : code.ordinary = true) :
    Emits base calls target (binary code) := by
  refine (stays_operand 1 0).bind fun a ha => (stays_operand 0 0).bind fun b _ => ?_
  refine stays_pop.bind fun _ _ => stays_pure (List.forall_mem_singleton.mpr ?_)
  exact .sets hcode ha (by simp)

theorem emits_remainder {divide : Opcode} (hcode : divide.ordinary = true) :
    Emits base calls target (remainder divide) := by
  refine (stays_operand 1 0).bind fun a ha => (emits_binary hcode).then fun lines hlines => ?_
  refine stays_pure (List.forall_mem_append.mpr ⟨hlines, List.forall_mem_singleton.mpr ?_⟩)
  exact .get ha (by decide) (by decide)

theorem emits_arith (a : Arith) : Emits base calls target (arith a) := by
  cases a with
  | rem | remUn => exact emits_remainder rfl
  | _ => exact emits_binary rfl

theorem emits_negate : Emits base calls target negate := by
  refine (stays_operand 0 0).bind fun r hr => stays_pure (List.forall_mem_singleton.mpr ?_)
  exact .sets rfl hr (by simp)

theorem emits_complement : Emits base calls target complement := by
  refine (stays_operand 0 0).bind fun r hr => stays_pure (List.forall_mem_singleton.mpr ?_)
  exact .sets rfl hr (by simp)

theorem emits_compare (origin : String) (c : Comparison) :
    Emits base calls target (compare origin c) := by
  have hcodes : c.codes.1.ordinary = true ∧ c.codes.2.ordinary = true := by cases c <;> exact ⟨rfl, rfl⟩
  refine (stays_operand 1 0).bind fun a ha => (stays_operand 0 0).bind fun b _ => ?_
  refine stays_pop.bind fun _ _ => stays_pop.bind fun _ _ => (stays_push _ _).bind fun _ _ => ?_
  refine stays_pure (List.forall_mem_cons.mpr ⟨?_, List.forall_mem_singleton.mpr ?_⟩)
  · exact .sets hcodes.1 ha (by simp)
  · exact .sets hcodes.2 ha (by simp)

theorem emits_compareBranch (c : Condition) (label : String) :
    Emits base calls (some label) (compareBranch c label) := by
  have hcodes : c.codes.1.ordinary = true ∧ c.codes.2.test?.isSome = true := by
    cases c <;> exact ⟨rfl, rfl⟩
  refine (stays_operand 1 0).bind fun a ha => (stays_operand 0 0).bind fun b _ => ?_
  refine stays_pop.bind fun _ _ => stays_pop.bind fun _ _ => stays_pure ?_
  refine List.forall_mem_cons.mpr ⟨.sets hcodes.1 ha (by simp), List.forall_mem_singleton.mpr ?_⟩
  exact .test hcodes.2

theorem emits_testBranch {code : Opcode} (hcode : code.test?.isSome = true) (label : String) :
    Emits base calls (some label) (testBranch code label) := by
  refine (stays_operand 0 0).bind fun r _ => stays_pop.bind fun _ _ => stays_pure ?_
  exact List.forall_mem_singleton.mpr (.test hcode)

theorem emits_convert (i : Instruction) (k : Conversion) :
    Emits base calls target (convert i k) := by
  unfold convert
  split
  · exact stays_throw _
  · refine stays_pop.bind fun r hr => (stays_push _ _).bind fun _ _ => stays_pure ?_
    cases k <;> simp only [Conversion.narrow, List.forall_mem_cons, List.not_mem_nil, false_imp_iff,
      implies_true, and_true] <;>
      first | exact ⟨.sets rfl hr (by simp), .sets rfl hr (by simp)⟩ | exact .sets rfl hr (by simp)

theorem stays_supported (i : Instruction) (o : Option α) :
    Stays base (fun a => o = some a) (supported i o) := by
  cases o with
  | none => exact stays_throw _
  | some a => exact stays_pure rfl

theorem ordinary_of_loadCode? {w : Width} {code : Opcode} (h : w.loadCode? = some code) :
    code.ordinary = true := by
  cases w <;> cases h <;> rfl

theorem spares_of_storeCode? {w : Width} {code : Opcode} (h : w.storeCode? = some code) :
    code.ordinary = true ∧ code.spares = true := by
  cases w <;> cases h <;> exact ⟨rfl, rfl⟩

theorem emits_loadIndirect (i : Instruction) (w : Width) :
    Emits base calls target (loadIndirect i w) := by
  refine (stays_supported i _).bind fun code hcode => (stays_supported i _).bind fun ty _ => ?_
  refine stays_pop.bind fun address _ => (stays_push _ _).bind fun _ _ => ?_
  refine (stays_operand 0 0).bind fun r hr => stays_pure (List.forall_mem_singleton.mpr ?_)
  exact .sets (ordinary_of_loadCode? hcode) hr (by simp)

theorem emits_storeIndirect (i : Instruction) (w : Width) :
    Emits base calls target (storeIndirect i w) := by
  refine (stays_supported i _).bind fun code hcode => stays_pop.bind fun value _ => ?_
  refine stays_pop.bind fun address _ => stays_pure (List.forall_mem_singleton.mpr ?_)
  obtain ⟨hord, hspares⟩ := spares_of_storeCode? hcode
  exact .spares hord hspares (by simp)

theorem emits_loadString (origin : String) (text : String) :
    Emits base calls target (loadString origin text) := by
  refine (stays_literal text).bind fun a _ => (stays_push _ _).bind fun _ _ => ?_
  refine (stays_operand 0 0).bind fun r hr => (stays_operand 0 1).bind fun r' hr' => ?_
  refine stays_pure (List.forall_mem_append.mpr ⟨?_, ?_⟩)
  · exact loadConstant_works hr _
  · exact loadConstant_works hr' _

theorem emits_loadField (origin : String) (f : FieldRef) :
    Emits base calls target (loadField origin f) := by
  refine (stays_fieldType f).bind fun ty _ => (stays_fieldOffset f).bind fun offset _ => ?_
  refine (stays_peek 0).bind fun object _ => stays_pop.bind fun source hsource => ?_
  refine (stays_push _ _).bind fun _ _ => (stays_peek 0).bind fun e _ => stays_get.bind fun s _ => ?_
  split
  · exact emits_copyWords hsource
  · refine stays_top.bind fun scratch hscratch => (emits_flatten fun word => ?_).bind fun lines hlines =>
      stays_pure hlines
    refine (stays_operand 0 word).bind fun into hinto => ?_
    exact emits_accessAt rfl nofun (.inr ⟨into, rfl, hinto⟩) hscratch

theorem emits_storeField (f : FieldRef) : Emits base calls target (storeField f) := by
  refine (stays_fieldOffset f).bind fun offset _ => (stays_operand 1 0).bind fun object _ => ?_
  refine (stays_peek 0).bind fun e _ => stays_top.bind fun scratch hscratch => ?_
  refine (emits_flatten fun word => ?_).bind fun lines hlines => stays_pop.bind fun _ _ =>
    stays_pop.bind fun _ _ => stays_pure hlines
  refine (stays_operand 0 word).bind fun value _ => ?_
  exact emits_accessAt rfl nofun (.inl rfl) hscratch

theorem emits_fieldAddress (origin : String) (f : FieldRef) :
    Emits base calls target (fieldAddress origin f) := by
  refine (stays_fieldOffset f).bind fun offset _ => (stays_fieldType f).bind fun ty _ => ?_
  refine stays_top.bind fun scratch hscratch => stays_pop.bind fun object hobject => ?_
  refine (stays_push _ _).bind fun _ _ => (stays_lift _).mono fun lines hlines => ?_
  exact addNumber_works hlines hobject hscratch

theorem emits_field (origin : String) (f : FieldRef) (a : FieldAccess) :
    Emits base calls target (field origin f a) := by
  cases a with
  | load => exact emits_loadField origin f
  | address => exact emits_fieldAddress origin f
  | store => exact emits_storeField f

theorem emits_loadStatic (origin : String) (f : FieldRef) :
    Emits base calls target (loadStatic origin f) := by
  refine (stays_staticField f).bind fun a _ => (stays_fieldType f).bind fun ty _ => ?_
  refine stays_top.bind fun n hn => (stays_lift _).bind fun address haddress => ?_
  have haddress := Reg.ofIndex_eq_ok.mp haddress
  refine (stays_push _ _).bind fun _ _ => (stays_peek 0).bind fun e _ => ?_
  refine (stays_mapM fun word => ?_).bind fun lines hlines =>
    stays_pure (List.forall_mem_append.mpr ⟨loadConstant_works (by omega) _, hlines⟩)
  refine (stays_operand 0 word).bind fun into hinto => stays_pure ?_
  exact .sets rfl hinto (by simp)

theorem emits_storeStatic (f : FieldRef) : Emits base calls target (storeStatic f) := by
  refine (stays_staticField f).bind fun a _ => stays_top.bind fun n hn => ?_
  refine (stays_lift _).bind fun address haddress => (stays_peek 0).bind fun e _ => ?_
  have haddress := Reg.ofIndex_eq_ok.mp haddress
  refine (stays_mapM fun word => ?_).bind fun lines hlines => stays_pop.bind fun _ _ =>
    stays_pure (List.forall_mem_append.mpr ⟨loadConstant_works (by omega) _, hlines⟩)
  refine (stays_operand 0 word).bind fun value _ => stays_pure ?_
  exact .spares rfl rfl (by simp)

theorem emits_static (origin : String) (f : FieldRef) (a : FieldAccess) :
    Emits base calls target (static origin f a) := by
  cases a with
  | load => exact emits_loadStatic origin f
  | store => exact emits_storeStatic f
  | address => exact (stays_staticField f).bind fun a _ => emits_constant _ _ _

theorem emits_clear (ty : TypeRef) : Emits base calls target (clear ty) := by
  refine (stays_sizeOf ty).bind fun size _ => stays_top.bind fun scratch hscratch => ?_
  refine stays_pop.bind fun address _ => (emits_flatten fun word => ?_).bind fun lines hlines =>
    stays_pure hlines
  exact emits_accessAt rfl nofun (.inl rfl) hscratch

theorem emits_newArray (origin : String) (elem : TypeRef) :
    Emits base true target (newArray origin elem) := by
  refine (stays_sizeOf elem).bind fun size _ => stays_pop.bind fun count hcount => ?_
  refine (stays_lift _).bind fun data hdata => (stays_lift _).bind fun bytes hbytes => ?_
  have hdata : data.index.val = count.index.val + 1 := Reg.ofIndex_eq_ok.mp hdata
  have hbytes : bytes.index.val = count.index.val + 2 := Reg.ofIndex_eq_ok.mp hbytes
  refine (stays_lift _).bind fun scaling hscaling => (stays_push _ _).bind fun _ _ => stays_pure ?_
  have hscaling : ∀ l ∈ scaling, l.Works base true target :=
    scale_works hscaling (by omega) (by omega)
  simp only [List.cons_append, List.forall_mem_cons, List.forall_mem_append, List.not_mem_nil,
    false_imp_iff, implies_true, and_true]
  exact ⟨.sets rfl (by omega) (by simp), hscaling, .sets rfl (by omega) (by simp),
    .pushj (by omega) (by decide), .spares rfl rfl (by simp), .sets rfl (by omega) (by simp),
    .sets rfl hcount (by simp), .sets rfl (by omega) (by simp)⟩

theorem emits_length (origin : String) : Emits base calls target (length origin) := by
  refine stays_pop.bind fun array harray => (stays_push _ _).bind fun _ _ => stays_pure ?_
  exact List.forall_mem_cons.mpr ⟨.sets rfl harray (by simp),
    List.forall_mem_singleton.mpr (.sets rfl harray (by simp))⟩

theorem emits_loadElement (i : Instruction) (w : Width) :
    Emits base calls target (loadElement i w) := by
  refine (stays_supported i _).bind fun code hcode => (stays_supported i _).bind fun ty _ => ?_
  refine stays_top.bind fun scratch hscratch => stays_pop.bind fun index hindex => ?_
  refine stays_pop.bind fun array _ => (stays_push _ _).bind fun _ _ => ?_
  refine (stays_operand 0 0).bind fun into hinto => (stays_lift _).bind fun scaling hscaling => ?_
  refine stays_pure (List.forall_mem_append.mpr ⟨scale_works hscaling hindex hscratch, ?_⟩)
  exact List.forall_mem_singleton.mpr (.sets (ordinary_of_loadCode? hcode) hinto (by simp))

theorem emits_storeElement (i : Instruction) (w : Width) :
    Emits base calls target (storeElement i w) := by
  refine (stays_supported i _).bind fun code hcode => stays_top.bind fun scratch hscratch => ?_
  refine stays_pop.bind fun value _ => stays_pop.bind fun index hindex => stays_pop.bind fun array _ => ?_
  refine (stays_lift _).bind fun scaling hscaling => ?_
  obtain ⟨hord, hspares⟩ := spares_of_storeCode? hcode
  exact stays_pure (List.forall_mem_append.mpr ⟨scale_works hscaling hindex hscratch,
    List.forall_mem_singleton.mpr (.spares hord hspares (by simp))⟩)

theorem emits_elementAddress (origin : String) (elem : TypeRef) :
    Emits base calls target (elementAddress origin elem) := by
  refine (stays_sizeOf elem).bind fun size _ => stays_top.bind fun scratch hscratch => ?_
  refine stays_pop.bind fun index hindex => stays_pop.bind fun array _ => ?_
  refine (stays_push _ _).bind fun _ _ => (stays_operand 0 0).bind fun into hinto => ?_
  refine (stays_lift _).bind fun scaling hscaling => ?_
  refine stays_pure (List.forall_mem_append.mpr ⟨scale_works hscaling hindex hscratch, ?_⟩)
  exact List.forall_mem_singleton.mpr (.sets rfl hinto (by simp))

theorem stays_pops (l : List α) :
    Stays base (fun _ => True) (l.forM fun _ => discard pop : Lower PUnit) := by
  induction l with
  | nil => exact stays_pure trivial
  | cons a l ih =>
    have hpop : Stays base (fun _ => True) (discard pop : Lower PUnit) :=
      stays_pop.bind fun _ _ => stays_pure trivial
    exact hpop.bind fun _ _ => ih

theorem emits_call (origin : String) (m : MethodRef) : Emits base true target (call origin m) := by
  refine stays_top.bind fun stop _ => (stays_pops m.params).bind fun _ _ => stays_top.bind fun n hn => ?_
  refine (emits_copyWords (by omega)).then fun moves hmoves => (stays_lift _).bind fun hole hhole => ?_
  have hhole := Reg.ofIndex_eq_ok.mp hhole
  refine (stays_push _ _).bind fun _ _ => stays_pure (List.forall_mem_append.mpr ⟨hmoves, ?_⟩)
  exact List.forall_mem_singleton.mpr (.pushj (by omega) (isSymbol_mangle m.name).inline)

theorem emits_literalValue (i : Instruction) (l : Literal) :
    Emits base calls target (literalValue i l) := by
  cases l with
  | null | int32 | int64 => exact emits_constant _ _ _
  | str text => exact emits_loadString _ _
  | real32 | real64 => exact stays_throw _

theorem emits_duplicate : Emits base calls target duplicate := by
  refine (stays_peek 0).bind fun e he => ?_
  have hstop : base ≤ e.stop := Nat.le_trans he (Nat.le_add_right ..)
  exact (emits_copyWords hstop).then fun lines hlines => (stays_pushSized _ _ _).bind fun _ _ =>
    stays_pure hlines

/-- All but the stores to variables and the return write to the registers of the operands and above. -/
theorem emits_instruction (site : Site) (i : Instruction) (hstore : ∀ v, i.op ≠ .store v)
    (hret : i.op ≠ .ret) :
    Emits base i.op.isCall (i.op.branchTarget?.map site.branchLabel) (instruction site i) := by
  obtain ⟨offset, op⟩ := i
  cases op with
  | store v => exact absurd rfl (hstore v)
  | ret => exact absurd rfl hret
  | nop => exact stays_pure nofun
  | load v => exact emits_loadSlot _ _
  | address v => exact emits_slotAddress _ _ _
  | push l => exact emits_literalValue _ _
  | dup => exact emits_duplicate
  | pop => exact stays_pop.bind fun _ _ => stays_pure nofun
  | call m => exact emits_call _ _
  | br t => exact stays_pure (List.forall_mem_singleton.mpr (.jmp _))
  | brFalse t => exact emits_testBranch rfl _
  | brTrue t => exact emits_testBranch rfl _
  | brIf c t => exact emits_compareBranch _ _
  | ldind w => exact emits_loadIndirect _ _
  | stind w => exact emits_storeIndirect _ _
  | arith a => exact emits_arith a
  | neg => exact emits_negate
  | not => exact emits_complement
  | conv check k => exact emits_convert _ _
  | compare c => exact emits_compare _ _
  | field a f => exact emits_field _ _ _
  | staticField a f => exact emits_static _ _ _
  | initobj t => exact emits_clear t
  | «sizeof» t => exact (stays_sizeOf t).bind fun _ _ => emits_constant _ _ _
  | newarr elem => exact emits_newArray _ _
  | ldlen => exact emits_length _
  | ldelem w => exact emits_loadElement _ _
  | stelem w => exact emits_storeElement _ _
  | ldelema elem => exact emits_elementAddress _ _
  | _ => exact stays_throw _

theorem stays_storeSlot (b : Block) (index : Nat) :
    Stays base (fun _ => True) (storeSlot b index) := by
  refine (stays_lift _).bind fun e _ => Stays.bind (P := fun _ => True) ?_ fun lines _ =>
    stays_pop.bind fun _ _ => stays_pure trivial
  refine (stays_mapM (R := fun _ => True) fun word => ?_).mono fun _ _ => trivial
  exact (stays_lift _).bind fun _ _ => (stays_operand 0 word).bind fun _ _ => stays_pure trivial

theorem stays_giveBack (f : Frame) : Stays base (fun _ => True) (giveBack f) := by
  refine stays_top.bind fun stop _ => ?_
  split
  · exact stays_throw _
  split
  · exact stays_throw _
  exact (stays_lift _).bind fun _ _ => (stays_lift _).bind fun _ _ => stays_pop.bind fun _ _ =>
    stays_pure trivial

theorem stays_ret (site : Site) : Stays base (fun _ => True) (ret site) := by
  refine (stays_lift _).bind fun o _ => ?_
  dsimp only
  split
  · exact (stays_pure trivial : Stays base (fun _ => True) _).bind fun _ _ => stays_get.bind fun _ _ =>
      stays_pure trivial
  · exact (stays_giveBack site.frame).bind fun _ _ => stays_get.bind fun _ _ => stays_pure trivial

theorem stays_instruction (site : Site) (i : Instruction) :
    Stays base (fun _ => True) (instruction site i) := by
  obtain ⟨offset, op⟩ := i
  by_cases hret : op = .ret
  · subst hret
    exact stays_ret site
  by_cases hstore : ∃ v, op = .store v
  · obtain ⟨v, rfl⟩ := hstore
    exact stays_storeSlot _ _
  · exact Stays.mono (emits_instruction site ⟨offset, op⟩ (fun v hv => hstore ⟨v, hv⟩) hret)
      fun _ _ => trivial

end Lower

end CilMmix
