import CilMmix.Proofs.Lowering.Balance
import CilMmix.Proofs.Lowering.Region

/-! The code of an instruction does not depend on the operands below those that it uses. In place of
them there may be nothing at all, with the same registers left free. -/

namespace CilMmix

namespace Shape

variable {base : Nat} {upper below : Shape}

theorem top_append (base : Nat) (upper below : Shape) :
    top base (upper ++ below) = top (top base below) upper := by
  cases upper <;> rfl

/-- Operands above others are stacked from where those end. -/
theorem Stacked.above (h : Stacked base (upper ++ below)) : Stacked (top base below) upper := by
  induction upper with
  | nil => trivial
  | cons slot upper ih =>
    obtain ⟨ho, hpos, hfit, hrest⟩ := h
    exact ⟨ho.trans (top_append ..), hpos, hfit, ih hrest⟩

end Shape

theorem shape_append (a b : List Element) : shape (a ++ b) = shape a ++ shape b := List.map_append

/-- The state with an operand stack of its own. -/
def LowerState.over (s : LowerState) (base : Nat) (elems : List Element) : LowerState :=
  { s with stack := ⟨base, elems⟩ }

namespace Lower

variable {types : List TypeDef} {base : Nat} {below : List Element} {n k l : Nat} {α β : Type}

/-- A computation that finds `n` operands above others and leaves `k` there, and that does the same where
these are the only ones. -/
def Local (types : List TypeDef) (base : Nat) (below : List Element) (n k : Nat) (P : α → Prop)
    (x : Lower α) : Prop :=
  ∀ s upper, s.layout.Sound types → upper.length = n → s.stack = ⟨base, upper ++ below⟩ →
    ∀ a t, x s = .ok (a, t) → t.layout.Sound types ∧ P a ∧
      ∃ upper', upper'.length = k ∧ t.stack = ⟨base, upper' ++ below⟩ ∧
        x (s.over (Shape.top base (shape below)) upper) =
          .ok (a, t.over (Shape.top base (shape below)) upper')

theorem Local.bind {P : α → Prop} {Q : β → Prop} {x : Lower α} {f : α → Lower β}
    (hx : Local types base below n k P x) (hf : ∀ a, P a → Local types base below k l Q (f a)) :
    Local types base below n l Q (x >>= f) := by
  intro s upper hs hn hstack b u h
  obtain ⟨a, t, ha, hfa⟩ := bind_ok.mp h
  obtain ⟨ht, hp, upper', hk, hstack', hcut⟩ := hx s upper hs hn hstack a t ha
  obtain ⟨hu, hq, upper'', hl, hstack'', hcut'⟩ := hf a hp t upper' ht hk hstack' b u hfa
  exact ⟨hu, hq, upper'', hl, hstack'', bind_ok.mpr ⟨_, _, hcut, hcut'⟩⟩

theorem local_pure {P : α → Prop} {a : α} (ha : P a) : Local types base below n n P (pure a) := by
  intro s upper hs hn hstack b t h
  obtain ⟨rfl, rfl⟩ := pure_ok.mp h
  exact ⟨hs, ha, upper, hn, hstack, rfl⟩

theorem local_lift (x : Except Fault α) :
    Local types base below n n (fun _ => True) (liftM x : Lower α) := by
  intro s upper hs hn hstack b t h
  obtain ⟨hx, rfl⟩ := lift_ok.mp h
  exact ⟨hs, trivial, upper, hn, hstack, lift_ok.mpr ⟨hx, rfl⟩⟩

/-- A look at the types. -/
theorem local_layout {P : α → Prop} {f : Layout → Lower α}
    (hf : ∀ layout, layout.Sound types → Local types base below n k P (f layout)) :
    Local types base below n k P (get >>= fun s => f s.layout) := by
  intro s upper hs hn hstack a t h
  exact hf s.layout hs s upper hs hn hstack a t h

/-- What has to do with types and static storage only. -/
theorem local_session {P : α → Prop} {x : Lower α} {f : Session → Except Fault (α × Session)}
    (hx : ∀ s, x s = (f s.toSession).map fun p => (p.1, { p.2 with stack := s.stack }))
    (hq : Quiet types P x) : Local types base below n n P x := by
  intro s upper hs hn hstack a t h
  obtain ⟨ht, -, hp⟩ := (hq s hs).2 a t h
  rw [hx] at h
  obtain ⟨p, hf, hpair⟩ := map_eq_ok.mp h
  cases hpair
  refine ⟨ht, hp, upper, hn, hstack, ?_⟩
  rw [hx]
  exact map_eq_ok.mpr ⟨p, hf, rfl⟩

theorem local_sizeOf (ty : TypeRef) :
    Local types base below n n (HasSize types ty) (sizeOf ty) := by
  refine local_session (f := fun σ => (σ.layout.sizeOf ty).1.map fun size =>
    (size, { σ with layout := (σ.layout.sizeOf ty).2 })) (fun s => ?_) (quiet_sizeOf types ty)
  unfold sizeOf
  rcases s.layout.sizeOf ty with ⟨_ | _, layout⟩ <;> rfl

theorem local_fieldOffset (f : FieldRef) :
    Local types base below n n (fun _ => True) (fieldOffset f) := by
  refine local_session (f := fun σ => (σ.layout.fieldOffset f).1.map fun offset =>
    (offset, { σ with layout := (σ.layout.fieldOffset f).2 })) (fun s => ?_) (quiet_fieldOffset types f)
  unfold fieldOffset
  rcases s.layout.fieldOffset f with ⟨_ | _, layout⟩ <;> rfl

theorem local_fieldType (f : FieldRef) :
    Local types base below n n (FieldHasType types f) (fieldType f) := by
  refine local_session (f := fun σ => (σ.layout.resolveField f).map fun d => (d.ty, σ)) (fun s => ?_)
    (quiet_fieldType types f)
  change (liftM (s.layout.resolveField f) >>= fun d => pure d.ty : Lower TypeRef) s = _
  cases s.layout.resolveField f <;> rfl

theorem local_staticField (f : FieldRef) :
    Local types base below n n (fun _ => True) (staticField f) := by
  refine (local_fieldType f).bind fun ty _ => (local_sizeOf ty).bind fun size _ => ?_
  intro s upper hs hn hstack a t h
  cases h
  exact ⟨hs, trivial, upper, hn, hstack, rfl⟩

theorem local_operand {index : Nat} (h : index < n) (word : Nat) :
    Local types base below n n (fun _ => True) (operand index word) := by
  intro s upper hs hn hstack r t hr
  obtain ⟨⟨e, he, hword⟩, rfl⟩ := operand_ok.mp hr
  rw [hstack, List.getElem?_append_left (hn ▸ h)] at he
  exact ⟨hs, trivial, upper, hn, hstack, operand_ok.mpr ⟨⟨e, he, hword⟩, rfl⟩⟩

theorem local_peek {index : Nat} (h : index < n) :
    Local types base below n n (fun _ => True) (peek index) := by
  intro s upper hs hn hstack e t he
  obtain ⟨he, rfl⟩ := peek_ok.mp he
  rw [hstack, List.getElem?_append_left (hn ▸ h)] at he
  exact ⟨hs, trivial, upper, hn, hstack, peek_ok.mpr ⟨he, rfl⟩⟩

theorem top_over (s : LowerState) {upper : List Element} (hstack : s.stack = ⟨base, upper ++ below⟩) :
    Shape.top s.stack.base (shape s.stack.elems) =
      Shape.top (Shape.top base (shape below)) (shape upper) := by
  rw [hstack, shape_append, Shape.top_append]

theorem local_top : Local types base below n n (fun _ => True) top := by
  intro s upper hs hn hstack m t h
  obtain ⟨rfl, rfl⟩ := top_ok.mp h
  exact ⟨hs, trivial, upper, hn, hstack, top_ok.mpr ⟨top_over t hstack, rfl⟩⟩

theorem local_pop : Local types base below (n + 1) n (fun _ => True) pop := by
  intro s upper hs hn hstack r t h
  obtain ⟨e, rest, he, hr, rfl⟩ := pop_ok.mp h
  cases upper with
  | nil => cases hn
  | cons first upper =>
    rw [hstack, List.cons_append] at he
    obtain ⟨rfl, rfl⟩ := List.cons.inj he
    refine ⟨hs, trivial, upper, Nat.succ.inj hn, ?_, pop_ok.mpr ⟨first, upper, rfl, hr, rfl⟩⟩
    simp only [LowerState.withElems, hstack]

theorem local_pushSized {ty : TypeRef} {size : Size} (h : size.words ≠ 0) (origin : Option String) :
    Local types base below n (n + 1) (fun _ => True) (pushSized ty size origin) := by
  intro s upper hs hn hstack u t hpush
  rcases pushSized_ok.mp hpush with ⟨hz, -⟩ | ⟨hpos, hfit, rfl⟩
  · exact absurd hz h
  · rw [top_over s hstack] at hfit ⊢
    refine ⟨hs, trivial, _ :: upper, congrArg Nat.succ hn, ?_, pushSized_ok.mpr (.inr ⟨hpos, hfit, rfl⟩)⟩
    simp only [LowerState.withElems, hstack, List.cons_append]
    rfl

theorem local_push {ty : TypeRef} (h : ¬ HasWords types ty 0) (origin : String) :
    Local types base below n (n + 1) (fun _ => True) (push origin ty) :=
  (local_sizeOf ty).bind fun size hsize => local_pushSized (fun hz => h ⟨size, hsize, hz⟩) _

/-- A value without words leaves no trace on the stack. -/
theorem local_pushSized_zero {ty : TypeRef} {size : Size} (hz : size.words = 0)
    (origin : Option String) :
    Local types base below n n (fun _ => True) (pushSized ty size origin) := by
  intro s upper hs hn hstack u t hpush
  rcases pushSized_ok.mp hpush with ⟨-, rfl⟩ | ⟨hpos, -⟩
  · exact ⟨hs, trivial, upper, hn, hstack, pushSized_ok.mpr (.inl ⟨hz, rfl⟩)⟩
  · omega

theorem local_push_zero {ty : TypeRef} (h : HasWords types ty 0) (origin : String) :
    Local types base below n n (fun _ => True) (push origin ty) :=
  (local_sizeOf ty).bind fun size hsize =>
    local_pushSized_zero (HasWords.unique ⟨size, hsize, rfl⟩ h) _

theorem local_push_primitive {p : Primitive} (h : p ≠ .void) (origin : String) :
    Local types base below n (n + 1) (fun _ => True) (push origin (.primitive p)) :=
  local_push (fun hz => hz.primitive_pos h rfl) origin

theorem local_push_byRef (ty : TypeRef) (origin : String) :
    Local types base below n (n + 1) (fun _ => True) (push origin (.byRef ty)) :=
  local_push (fun hz => absurd (hz.unique ⟨_, .byRef ty, rfl⟩) (by decide)) origin

theorem local_mapM {f : α → Lower β} {as : List α}
    (hf : ∀ a, Local types base below n n (fun _ => True) (f a)) :
    Local types base below n n (fun _ => True) (as.mapM f) := by
  induction as with
  | nil => exact local_pure trivial
  | cons a as ih =>
    rw [List.mapM_cons]
    exact (hf a).bind fun _ _ => ih.bind fun _ _ => local_pure trivial

theorem local_pops (as : List α) : Local types base below (n + as.length) n (fun _ => True)
    (as.forM fun _ => discard pop : Lower PUnit) := by
  induction as with
  | nil => exact local_pure trivial
  | cons a as ih =>
    refine Local.bind (P := fun _ => True) ?_ fun _ _ => ih
    exact local_pop.bind fun _ _ => local_pure trivial

theorem local_elem (b : Block) (index : Nat) :
    Local types base below n n (fun e => b.elems[index]? = some e)
      (liftM (b.elem index) : Lower Element) := by
  intro s upper hs hn hstack e t he
  obtain ⟨hx, rfl⟩ := lift_ok.mp he
  exact ⟨hs, Block.elem_ok.mp hx, upper, hn, hstack, lift_ok.mpr ⟨hx, rfl⟩⟩

theorem local_loadSlot {b : Block} {index : Nat}
    (h : ∀ e, b.elems[index]? = some e → e.size.words ≠ 0) :
    Local types base below 0 1 (fun _ => True) (loadSlot b index) := by
  refine (local_elem b index).bind fun e he => (local_pushSized (h e he) _).bind fun _ _ =>
    local_mapM fun word => ?_
  exact (local_operand Nat.one_pos word).bind fun _ _ => (local_lift _).bind fun _ _ => local_pure trivial

theorem local_loadSlot_zero {b : Block} {index : Nat}
    (h : ∀ e, b.elems[index]? = some e → e.size.words = 0) :
    Local types base below 0 0 (fun _ => True) (loadSlot b index) := by
  refine (local_elem b index).bind fun e he => (local_pushSized_zero (h e he) _).bind fun _ _ => ?_
  rw [h e he]
  exact local_pure trivial

theorem local_storeSlot (b : Block) (index : Nat) :
    Local types base below 1 0 (fun _ => True) (storeSlot b index) := by
  refine (local_lift _).bind fun e _ => (local_mapM fun word => ?_).bind fun lines _ =>
    local_pop.bind fun _ _ => local_pure trivial
  exact (local_lift _).bind fun _ _ => (local_operand Nat.one_pos word).bind fun _ _ => local_pure trivial

theorem local_loadField {f : FieldRef}
    (h : ∀ ty, FieldHasType types f ty → ¬ HasWords types ty 0) (origin : String) :
    Local types base below 1 1 (fun _ => True) (loadField origin f) := by
  refine (local_fieldType f).bind fun ty hty => (local_fieldOffset f).bind fun offset _ => ?_
  refine (local_peek Nat.one_pos).bind fun object _ => local_pop.bind fun source _ => ?_
  refine (local_push (h ty hty) _).bind fun _ _ => (local_peek Nat.one_pos).bind fun e _ => ?_
  refine local_layout (f := fun layout => if layout.isStruct object.ty then _ else _) fun layout _ => ?_
  split
  · exact local_lift _
  · refine local_top.bind fun scratch _ => (local_mapM fun word => ?_).bind fun _ _ => local_pure trivial
    exact (local_operand Nat.one_pos word).bind fun _ _ => local_lift _

theorem local_loadStatic {f : FieldRef}
    (h : ∀ ty, FieldHasType types f ty → ¬ HasWords types ty 0) (origin : String) :
    Local types base below 0 1 (fun _ => True) (loadStatic origin f) := by
  refine (local_staticField f).bind fun a _ => (local_fieldType f).bind fun ty hty => ?_
  refine local_top.bind fun m _ => (local_lift _).bind fun address _ => ?_
  refine (local_push (h ty hty) _).bind fun _ _ => (local_peek Nat.one_pos).bind fun e _ => ?_
  refine (local_mapM fun word => ?_).bind fun _ _ => local_pure trivial
  exact (local_operand Nat.one_pos word).bind fun _ _ => local_pure trivial

theorem local_storeStatic (f : FieldRef) :
    Local types base below 1 0 (fun _ => True) (storeStatic f) := by
  refine (local_staticField f).bind fun a _ => local_top.bind fun m _ => ?_
  refine (local_lift _).bind fun address _ => (local_peek Nat.one_pos).bind fun e _ => ?_
  refine (local_mapM fun word => ?_).bind fun _ _ => local_pop.bind fun _ _ => local_pure trivial
  exact (local_operand Nat.one_pos word).bind fun _ _ => local_pure trivial

theorem local_call {ref : MethodRef} {k : Nat} (origin : String)
    (hret : Local types base below 0 k (fun _ => True) (push origin ref.ret)) :
    Local types base below ref.params.length k (fun _ => True) (call origin ref) := by
  refine local_top.bind fun stop _ => ?_
  have hpops : Local types base below ref.params.length 0 (fun _ => True)
      (ref.params.forM fun _ => discard pop : Lower PUnit) := by
    simpa only [Nat.zero_add] using local_pops (n := 0) ref.params
  refine hpops.bind fun _ _ => local_top.bind fun m _ => (local_lift _).bind fun moves _ => ?_
  exact (local_lift _).bind fun hole _ => hret.bind fun _ _ => local_pure trivial

theorem local_throw {P : α → Prop} (fault : Fault) :
    Local types base below n k P (throw fault : Lower α) := nofun

theorem local_slotAddress (origin : String) (b : Block) (index : Nat) :
    Local types base below 0 1 (fun _ => True) (slotAddress origin b index) := by
  refine (local_lift _).bind fun e _ => (local_push_primitive (by decide) _).bind fun _ _ => ?_
  refine (local_operand Nat.one_pos 0).bind fun r _ => local_top.bind fun scratch _ => ?_
  exact (local_lift _).bind fun _ _ => local_pure trivial

theorem local_constant {p : Primitive} (h : p ≠ .void) (origin : String) (value : UInt64) :
    Local types base below 0 1 (fun _ => True) (constant origin (.primitive p) value) :=
  (local_push_primitive h _).bind fun _ _ => (local_operand Nat.one_pos 0).bind fun _ _ =>
    local_pure trivial

theorem local_loadString (origin text : String) :
    Local types base below 0 1 (fun _ => True) (loadString origin text) := by
  have hliteral : Local types base below 0 0 (fun _ => True) (literal text) := by
    intro s upper hs hn hstack a t h
    cases h
    exact ⟨hs, trivial, upper, hn, hstack, rfl⟩
  have hstring : ¬ HasWords types .string 0 :=
    fun hz => absurd (hz.unique ⟨_, .string, rfl⟩) (by decide)
  refine hliteral.bind fun a _ => (local_push hstring _).bind fun _ _ => ?_
  exact (local_operand Nat.one_pos 0).bind fun _ _ => (local_operand Nat.one_pos 1).bind fun _ _ =>
    local_pure trivial

theorem local_literalValue (i : Instruction) (l : Literal) :
    Local types base below 0 1 (fun _ => True) (literalValue i l) := by
  cases l with
  | null | int32 | int64 => exact local_constant (by decide) _ _
  | str text => exact local_loadString _ _
  | real32 | real64 => exact local_throw _

theorem local_binary (code : Opcode) :
    Local types base below 2 1 (fun _ => True) (binary code) :=
  (local_operand Nat.one_lt_two 0).bind fun _ _ => (local_operand Nat.two_pos 0).bind fun _ _ =>
    local_pop.bind fun _ _ => local_pure trivial

theorem local_arith (a : Arith) : Local types base below 2 1 (fun _ => True) (arith a) := by
  have hremainder : ∀ code, Local types base below 2 1 (fun _ => True) (remainder code) := fun code =>
    (local_operand Nat.one_lt_two 0).bind fun _ _ => (local_binary code).bind fun _ _ => local_pure trivial
  cases a with
  | rem | remUn => exact hremainder _
  | _ => exact local_binary _

theorem local_compare (origin : String) (c : Comparison) :
    Local types base below 2 1 (fun _ => True) (compare origin c) := by
  refine (local_operand Nat.one_lt_two 0).bind fun _ _ => (local_operand Nat.two_pos 0).bind fun _ _ => ?_
  exact local_pop.bind fun _ _ => local_pop.bind fun _ _ =>
    (local_push_primitive (by decide) _).bind fun _ _ => local_pure trivial

theorem local_compareBranch (c : Condition) (label : String) :
    Local types base below 2 0 (fun _ => True) (compareBranch c label) := by
  refine (local_operand Nat.one_lt_two 0).bind fun _ _ => (local_operand Nat.two_pos 0).bind fun _ _ => ?_
  exact local_pop.bind fun _ _ => local_pop.bind fun _ _ => local_pure trivial

theorem local_testBranch (code : Opcode) (label : String) :
    Local types base below 1 0 (fun _ => True) (testBranch code label) :=
  (local_operand Nat.one_pos 0).bind fun _ _ => local_pop.bind fun _ _ => local_pure trivial

theorem local_supported (i : Instruction) (o : Option α) :
    Local types base below n n (fun a => o = some a) (supported i o) := by
  cases o with
  | none => exact local_throw _
  | some a => exact local_pure rfl

theorem local_convert (i : Instruction) (c : Conversion) :
    Local types base below 1 1 (fun _ => True) (convert i c) := by
  unfold convert
  cases htarget : c.target? with
  | none => exact local_throw _
  | some p =>
    have hp : p ≠ .void := by
      rintro rfl
      cases c <;> cases htarget
    exact local_pop.bind fun _ _ => (local_push_primitive hp _).bind fun _ _ => local_pure trivial

theorem local_push_loaded {w : Width} {ty : TypeRef} (h : w.loaded? = some ty) (origin : String) :
    Local types base below n (n + 1) (fun _ => True) (push origin ty) := by
  cases w <;> cases h <;> exact local_push_primitive (by decide) _

theorem local_loadIndirect (i : Instruction) (w : Width) :
    Local types base below 1 1 (fun _ => True) (loadIndirect i w) := by
  refine (local_supported i _).bind fun code _ => (local_supported i _).bind fun ty hty => ?_
  refine local_pop.bind fun address _ => (local_push_loaded hty _).bind fun _ _ => ?_
  exact (local_operand Nat.one_pos 0).bind fun _ _ => local_pure trivial

theorem local_storeIndirect (i : Instruction) (w : Width) :
    Local types base below 2 0 (fun _ => True) (storeIndirect i w) :=
  (local_supported i _).bind fun _ _ => local_pop.bind fun _ _ => local_pop.bind fun _ _ =>
    local_pure trivial

theorem local_storeField (f : FieldRef) :
    Local types base below 2 0 (fun _ => True) (storeField f) := by
  refine (local_fieldOffset f).bind fun offset _ => (local_operand Nat.one_lt_two 0).bind fun target _ => ?_
  refine (local_peek Nat.two_pos).bind fun e _ => local_top.bind fun scratch _ => ?_
  refine (local_mapM fun word => ?_).bind fun _ _ => local_pop.bind fun _ _ => local_pop.bind fun _ _ =>
    local_pure trivial
  exact (local_operand Nat.two_pos word).bind fun _ _ => local_lift _

theorem local_fieldAddress (origin : String) (f : FieldRef) :
    Local types base below 1 1 (fun _ => True) (fieldAddress origin f) := by
  refine (local_fieldOffset f).bind fun offset _ => (local_fieldType f).bind fun ty _ => ?_
  exact local_top.bind fun scratch _ => local_pop.bind fun object _ =>
    (local_push_byRef _ _).bind fun _ _ => local_lift _

theorem local_clear (ty : TypeRef) : Local types base below 1 0 (fun _ => True) (clear ty) := by
  refine (local_sizeOf ty).bind fun size _ => local_top.bind fun scratch _ => local_pop.bind fun r _ => ?_
  exact (local_mapM fun word => local_lift _).bind fun _ _ => local_pure trivial

theorem local_newArray (origin : String) (elem : TypeRef) :
    Local types base below 1 1 (fun _ => True) (newArray origin elem) := by
  have harray : ¬ HasWords types (.array elem) 0 :=
    fun hz => absurd (hz.unique ⟨_, .array elem, rfl⟩) (by decide)
  refine (local_sizeOf elem).bind fun size _ => local_pop.bind fun count _ => ?_
  refine (local_lift _).bind fun data _ => (local_lift _).bind fun bytes _ => ?_
  exact (local_lift _).bind fun _ _ => (local_push harray _).bind fun _ _ => local_pure trivial

theorem local_length (origin : String) :
    Local types base below 1 1 (fun _ => True) (length origin) :=
  local_pop.bind fun _ _ => (local_push_primitive (by decide) _).bind fun _ _ => local_pure trivial

theorem local_loadElement (i : Instruction) (w : Width) :
    Local types base below 2 1 (fun _ => True) (loadElement i w) := by
  refine (local_supported i _).bind fun code _ => (local_supported i _).bind fun ty hty => ?_
  refine local_top.bind fun scratch _ => local_pop.bind fun index _ => local_pop.bind fun array _ => ?_
  refine (local_push_loaded hty _).bind fun _ _ => (local_operand Nat.one_pos 0).bind fun into _ => ?_
  exact (local_lift _).bind fun _ _ => local_pure trivial

theorem local_storeElement (i : Instruction) (w : Width) :
    Local types base below 3 0 (fun _ => True) (storeElement i w) := by
  refine (local_supported i _).bind fun code _ => local_top.bind fun scratch _ => ?_
  refine local_pop.bind fun value _ => local_pop.bind fun index _ => local_pop.bind fun array _ => ?_
  exact (local_lift _).bind fun _ _ => local_pure trivial

theorem local_elementAddress (origin : String) (elem : TypeRef) :
    Local types base below 2 1 (fun _ => True) (elementAddress origin elem) := by
  refine (local_sizeOf elem).bind fun size _ => local_top.bind fun scratch _ => ?_
  refine local_pop.bind fun index _ => local_pop.bind fun array _ => ?_
  refine (local_push_byRef elem _).bind fun _ _ => (local_operand Nat.one_pos 0).bind fun into _ => ?_
  exact (local_lift _).bind fun _ _ => local_pure trivial

/-- Every instruction finds the operands that it pops, and leaves some number of others. A load of a field
that has no words is different, as it writes where it has pushed nothing. -/
theorem local_instruction {site : Site} {i : Instruction} (m : MethodDef) (hret : i.op ≠ .ret)
    (hdup : i.op ≠ .dup) (hfield : ∀ f, i.op = .field .load f ∨ i.op = .staticField .load f →
      ∀ ty, FieldHasType types f ty → ¬ HasWords types ty 0) :
    ∃ k, Local types base below (i.op.pops m) k (fun _ => True) (instruction site i) := by
  obtain ⟨offset, op⟩ := i
  cases op with
  | ret => exact absurd rfl hret
  | dup => exact absurd rfl hdup
  | nop | br t => exact ⟨0, local_pure trivial⟩
  | load v =>
    by_cases hz : ∀ e, (v.slot site.frame).1.elems[(v.slot site.frame).2]? = some e → e.size.words = 0
    · exact ⟨0, local_loadSlot_zero hz⟩
    · refine ⟨1, local_loadSlot fun e he hwords => hz fun e' he' => ?_⟩
      cases he.symm.trans he'
      exact hwords
  | store v => exact ⟨0, local_storeSlot _ _⟩
  | address v => exact ⟨1, local_slotAddress _ _ _⟩
  | push l => exact ⟨1, local_literalValue _ l⟩
  | pop => exact ⟨0, local_pop.bind fun _ _ => local_pure trivial⟩
  | call ref =>
    by_cases hz : HasWords types ref.ret 0
    · exact ⟨0, local_call _ (local_push_zero hz _)⟩
    · exact ⟨1, local_call _ (local_push hz _)⟩
  | brFalse t | brTrue t => exact ⟨0, local_testBranch _ _⟩
  | brIf c t => exact ⟨0, local_compareBranch _ _⟩
  | ldind w => exact ⟨1, local_loadIndirect _ _⟩
  | stind w => exact ⟨0, local_storeIndirect _ _⟩
  | arith a => exact ⟨1, local_arith a⟩
  | neg | not =>
    exact ⟨1, (local_operand Nat.one_pos 0).bind fun _ _ => local_pure trivial⟩
  | conv check c => exact ⟨1, local_convert _ _⟩
  | compare c => exact ⟨1, local_compare _ _⟩
  | field a f =>
    cases a with
    | load => exact ⟨1, local_loadField (hfield f (.inl rfl)) _⟩
    | address => exact ⟨1, local_fieldAddress _ _⟩
    | store => exact ⟨0, local_storeField f⟩
  | staticField a f =>
    cases a with
    | load => exact ⟨1, local_loadStatic (hfield f (.inr rfl)) _⟩
    | address => exact ⟨1, (local_staticField f).bind fun _ _ => local_constant (by decide) _ _⟩
    | store => exact ⟨0, local_storeStatic f⟩
  | initobj t => exact ⟨0, local_clear t⟩
  | «sizeof» t => exact ⟨1, (local_sizeOf t).bind fun _ _ => local_constant (by decide) _ _⟩
  | newarr elem => exact ⟨1, local_newArray _ _⟩
  | ldlen => exact ⟨1, local_length _⟩
  | ldelem w => exact ⟨1, local_loadElement _ _⟩
  | stelem w => exact ⟨0, local_storeElement _ _⟩
  | ldelema elem => exact ⟨1, local_elementAddress _ _⟩
  | _ => exact ⟨0, local_throw _⟩

end Lower

end CilMmix
