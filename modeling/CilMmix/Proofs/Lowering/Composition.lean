import CilMmix.Proofs.Lowering.Faults

/-! What lowering is composed of. Every instruction works on the operand stack, looks at the declared
types, asks for sizes, and asks for the few other things that its operation names. -/

namespace CilMmix

/-- What an instruction may ask of the session besides sizes. -/
inductive Request where
  | offset (f : FieldRef)
  | literal (text : String)
  | storage (f : FieldRef)

/-- The requests that the operation makes. -/
def Op.Asks : Op → Request → Prop
  | .field _ f, r => r = .offset f
  | .push (.str text), r => r = .literal text
  | .staticField _ f, r => r = .storage f
  | _, _ => False

namespace Lower

/-- Storage of a static field with the size of its type. -/
def storage (f : FieldRef) (size : Size) : Lower Allocation := fun s =>
  .ok ((s.statics.field f.text size).1, { s with statics := (s.statics.field f.text size).2 })

/-- A computation that is composed of steps. -/
inductive Composed (asks : Request → Prop) : {α : Type} → Lower α → Prop
  | stack {α : Type} (f : OperandStack → Except Fault (α × OperandStack)) :
      (∀ stack, Throws Fault.Bare (f stack)) →
      Composed asks fun s => (f s.stack).map fun r => (r.1, { s with stack := r.2 })
  | types {α : Type} (f : List TypeDef → Except Fault α) : (∀ types, Throws Fault.Bare (f types)) →
      Composed asks fun s => (f s.layout.types).map fun a => (a, s)
  | size (ty : TypeRef) : Composed asks (sizeOf ty)
  | offset (f : FieldRef) : asks (.offset f) → Composed asks (fieldOffset f)
  | literal (text : String) : asks (.literal text) → Composed asks (literal text)
  | storage (f : FieldRef) (size : Size) : asks (.storage f) → Composed asks (storage f size)
  | bind {α β : Type} {x : Lower α} {f : α → Lower β} :
      Composed asks x → (∀ a, Composed asks (f a)) → Composed asks (x >>= f)

variable {asks : Request → Prop} {α β : Type}

/-- A step on the operand stack, in any spelling. -/
theorem composed_of_stack {x : Lower α} {f : OperandStack → Except Fault (α × OperandStack)}
    (hx : ∀ s, x s = (f s.stack).map fun r => (r.1, { s with stack := r.2 }))
    (hf : ∀ stack, Throws Fault.OfWindow (f stack)) : Composed asks x := by
  obtain rfl : x = fun s => (f s.stack).map fun r => (r.1, { s with stack := r.2 }) := funext hx
  exact .stack f fun stack => (hf stack).mono fun _ => Fault.OfWindow.bare

theorem composed_look {f : OperandStack → Except Fault α}
    (h : ∀ stack, Throws Fault.OfWindow (f stack)) :
    Composed asks (get >>= fun s => liftM (f s.stack) : Lower α) := by
  refine composed_of_stack (f := fun stack => (f stack).map fun a => (a, stack)) (fun s => ?_)
    fun stack => (h stack).map _
  change (liftM (f s.stack) : Lower α) s = _
  cases f s.stack <;> rfl

theorem composed_lift {x : Except Fault α} (h : Throws Fault.OfWindow x) :
    Composed asks (liftM x : Lower α) := composed_look fun _ => h

theorem composed_pure (a : α) : Composed asks (pure a : Lower α) := composed_lift (x := .ok a) (.ok a)

/-- What only looks at the declared types. -/
theorem composed_types {f : List TypeDef → Except Fault α}
    (h : ∀ types, Throws Fault.Bare (f types)) :
    Composed asks (get >>= fun s => liftM (f s.layout.types) : Lower α) := by
  have heq : (get >>= fun s => liftM (f s.layout.types) : Lower α) =
      fun s => (f s.layout.types).map fun a => (a, s) := by
    funext s
    change (liftM (f s.layout.types) : Lower α) s = _
    cases f s.layout.types <;> rfl
  rw [heq]
  exact .types f h

theorem composed_throw {fault : Fault} (h : fault.Bare) : Composed asks (throw fault : Lower α) :=
  composed_types (f := fun _ => .error fault) fun _ => .error h

theorem composed_peek (index : Nat) : Composed asks (peek index) :=
  composed_look fun stack => stack.peek_throws index

theorem composed_operand (index word : Nat) : Composed asks (operand index word) :=
  composed_look (f := fun stack => stack.reg index word) fun stack =>
    .bind (stack.peek_throws index) fun _ => Reg.ofIndex_throws _

theorem composed_top : Composed asks top :=
  composed_look (f := fun stack => .ok stack.top) fun _ => .ok _

theorem composed_pop : Composed asks pop := by
  refine composed_of_stack (f := fun stack => stack.pop.map fun r => (r.1.1, r.2)) (fun s => ?_)
    fun stack => stack.pop_throws.map _
  unfold pop
  cases s.stack.pop <;> rfl

theorem composed_pushSized (ty : TypeRef) (size : Size) (origin : Option String) :
    Composed asks (pushSized ty size origin) := by
  refine composed_of_stack (f := fun stack => (stack.push ty size origin).map fun r => ((), r))
    (fun s => ?_) fun stack => (stack.push_throws ty size origin).map _
  unfold pushSized
  cases s.stack.push ty size origin <;> rfl

theorem composed_fieldType (f : FieldRef) : Composed asks (fieldType f) := by
  refine .bind (x := get >>= fun s => liftM (s.layout.resolveField f)) ?_ fun _ => composed_pure _
  refine composed_types (f := fun types => Layout.resolveField { types } f) fun types => ?_
  unfold Layout.resolveField
  split
  · exact .ok _
  · exact .error rfl

theorem composed_staticField {f : FieldRef} (h : asks (.storage f)) :
    Composed asks (staticField f) :=
  (composed_fieldType f).bind fun ty => (Composed.size ty).bind fun size => .storage f size h

theorem composed_push (origin : String) (ty : TypeRef) : Composed asks (push origin ty) :=
  (Composed.size ty).bind fun _ => composed_pushSized _ _ _

theorem composed_constant (origin : String) (ty : TypeRef) (value : UInt64) :
    Composed asks (constant origin ty value) :=
  (composed_push origin ty).bind fun _ => (composed_operand 0 0).bind fun _ => composed_pure _

theorem composed_mapM {f : β → Lower α} (l : List β) (hf : ∀ b, Composed asks (f b)) :
    Composed asks (l.mapM f) := by
  induction l with
  | nil => exact composed_pure _
  | cons b l ih =>
    rw [List.mapM_cons]
    exact (hf b).bind fun _ => ih.bind fun _ => composed_pure _

theorem composed_supported (i : Instruction) (o : Option α) : Composed asks (supported i o) := by
  cases o with
  | none => exact composed_throw rfl
  | some a => exact composed_pure a

theorem composed_loadSlot (b : Block) (k : Nat) : Composed asks (loadSlot b k) := by
  refine (composed_lift (b.elem_throws k)).bind fun e => (composed_pushSized _ _ _).bind fun _ => ?_
  exact composed_mapM _ fun word => (composed_operand 0 word).bind fun _ =>
    (composed_lift (b.reg_throws k word)).bind fun _ => composed_pure _

theorem composed_storeSlot (b : Block) (k : Nat) : Composed asks (storeSlot b k) := by
  refine (composed_lift (b.elem_throws k)).bind fun e => .bind ?_ fun _ =>
    composed_pop.bind fun _ => composed_pure _
  exact composed_mapM _ fun word => (composed_lift (b.reg_throws k word)).bind fun _ =>
    (composed_operand 0 word).bind fun _ => composed_pure _

theorem composed_slotAddress (origin : String) (b : Block) (k : Nat) :
    Composed asks (slotAddress origin b k) :=
  (composed_lift (b.elem_throws k)).bind fun _ => (composed_push _ _).bind fun _ =>
    (composed_operand 0 0).bind fun r => composed_top.bind fun n =>
    (composed_lift (addNumber_throws r _ n)).bind fun _ => composed_pure _

theorem composed_binary (code : Opcode) : Composed asks (binary code) :=
  (composed_operand 1 0).bind fun _ => (composed_operand 0 0).bind fun _ =>
    composed_pop.bind fun _ => composed_pure _

theorem composed_arith (a : Arith) : Composed asks (arith a) := by
  cases a with
  | rem | remUn => exact (composed_operand 1 0).bind fun _ =>
      (composed_binary _).bind fun _ => composed_pure _
  | _ => exact composed_binary _

theorem composed_compare (origin : String) (c : Comparison) : Composed asks (compare origin c) :=
  (composed_operand 1 0).bind fun _ => (composed_operand 0 0).bind fun _ =>
    composed_pop.bind fun _ => composed_pop.bind fun _ =>
    (composed_push _ _).bind fun _ => composed_pure _

theorem composed_compareBranch (c : Condition) (label : String) :
    Composed asks (compareBranch c label) :=
  (composed_operand 1 0).bind fun _ => (composed_operand 0 0).bind fun _ =>
    composed_pop.bind fun _ => composed_pop.bind fun _ => composed_pure _

theorem composed_testBranch (code : Opcode) (label : String) :
    Composed asks (testBranch code label) :=
  (composed_operand 0 0).bind fun _ => composed_pop.bind fun _ => composed_pure _

theorem composed_convert (i : Instruction) (k : Conversion) : Composed asks (convert i k) := by
  unfold convert
  cases k.target? with
  | none => exact composed_throw rfl
  | some target =>
    exact composed_pop.bind fun _ => (composed_push _ _).bind fun _ => composed_pure _

theorem composed_loadIndirect (i : Instruction) (w : Width) : Composed asks (loadIndirect i w) :=
  (composed_supported i _).bind fun _ => (composed_supported i _).bind fun _ =>
    composed_pop.bind fun _ => (composed_push _ _).bind fun _ =>
    (composed_operand 0 0).bind fun _ => composed_pure _

theorem composed_storeIndirect (i : Instruction) (w : Width) : Composed asks (storeIndirect i w) :=
  (composed_supported i _).bind fun _ => composed_pop.bind fun _ =>
    composed_pop.bind fun _ => composed_pure _

theorem composed_loadString (origin : String) {text : String} (h : asks (.literal text)) :
    Composed asks (loadString origin text) :=
  (Composed.literal text h).bind fun _ => (composed_push _ _).bind fun _ =>
    (composed_operand 0 0).bind fun _ => (composed_operand 0 1).bind fun _ => composed_pure _

/-- A choice by the kind of a type. -/
theorem composed_isStruct (ty : TypeRef) {f : Bool → Lower α} (hf : ∀ b, Composed asks (f b)) :
    Composed asks (get >>= fun s => f (s.layout.isStruct ty)) := by
  have hread : Composed asks (get >>= fun s =>
      liftM (.ok (Layout.isStruct { types := s.layout.types } ty) : Except Fault Bool) : Lower Bool) :=
    composed_types (f := fun types => .ok (Layout.isStruct { types } ty)) fun _ => .ok _
  have heq : (get >>= fun s => f (s.layout.isStruct ty)) = (get >>= fun s =>
      liftM (.ok (Layout.isStruct { types := s.layout.types } ty) : Except Fault Bool) : Lower Bool) >>= f := by
    funext s
    have hkind : s.layout.isStruct ty = Layout.isStruct { types := s.layout.types } ty := by
      apply Layout.isStruct_congr
      rfl
    change f (s.layout.isStruct ty) s = _
    rw [hkind]
    rfl
  rw [heq]
  exact hread.bind hf

theorem composed_loadField (origin : String) {f : FieldRef} (h : asks (.offset f)) :
    Composed asks (loadField origin f) := by
  refine (composed_fieldType f).bind fun ty => (Composed.offset f h).bind fun offset =>
    (composed_peek 0).bind fun object => composed_pop.bind fun source =>
    (composed_push origin ty).bind fun _ => (composed_peek 0).bind fun e => ?_
  refine composed_isStruct object.ty (f := fun inWindow => if inWindow = true then _ else _)
    fun inWindow => ?_
  split
  · exact composed_lift (copyWords_throws _ _ _)
  · refine composed_top.bind fun scratch => .bind ?_ fun _ => composed_pure _
    exact composed_mapM _ fun word => (composed_operand 0 word).bind fun into =>
      composed_lift (accessAt_throws _ _ _ _ _)

theorem composed_storeField {f : FieldRef} (h : asks (.offset f)) : Composed asks (storeField f) := by
  refine (Composed.offset f h).bind fun offset => (composed_operand 1 0).bind fun target =>
    (composed_peek 0).bind fun e => composed_top.bind fun scratch => .bind ?_ fun _ =>
    composed_pop.bind fun _ => composed_pop.bind fun _ => composed_pure _
  exact composed_mapM _ fun word => (composed_operand 0 word).bind fun _ =>
    composed_lift (accessAt_throws _ _ _ _ _)

theorem composed_fieldAddress (origin : String) {f : FieldRef} (h : asks (.offset f)) :
    Composed asks (fieldAddress origin f) :=
  (Composed.offset f h).bind fun _ => (composed_fieldType f).bind fun _ =>
    composed_top.bind fun _ => composed_pop.bind fun _ =>
    (composed_push _ _).bind fun _ => composed_lift (addNumber_throws _ _ _)

theorem composed_loadStatic (origin : String) {f : FieldRef} (h : asks (.storage f)) :
    Composed asks (loadStatic origin f) := by
  refine (composed_staticField h).bind fun a => (composed_fieldType f).bind fun ty =>
    composed_top.bind fun n => (composed_lift (Reg.ofIndex_throws n)).bind fun address =>
    (composed_push _ _).bind fun _ => (composed_peek 0).bind fun e => .bind ?_ fun _ =>
    composed_pure _
  exact composed_mapM _ fun word => (composed_operand 0 word).bind fun _ => composed_pure _

theorem composed_storeStatic {f : FieldRef} (h : asks (.storage f)) :
    Composed asks (storeStatic f) := by
  refine (composed_staticField h).bind fun a => composed_top.bind fun n =>
    (composed_lift (Reg.ofIndex_throws n)).bind fun address => (composed_peek 0).bind fun e =>
    .bind ?_ fun _ => composed_pop.bind fun _ => composed_pure _
  exact composed_mapM _ fun word => (composed_operand 0 word).bind fun _ => composed_pure _

theorem composed_clear (ty : TypeRef) : Composed asks (clear ty) := by
  refine (Composed.size ty).bind fun size => composed_top.bind fun scratch =>
    composed_pop.bind fun address => .bind ?_ fun _ => composed_pure _
  exact composed_mapM _ fun word => composed_lift (accessAt_throws _ _ _ _ _)

theorem composed_newArray (origin : String) (elem : TypeRef) :
    Composed asks (newArray origin elem) :=
  (Composed.size elem).bind fun _ => composed_pop.bind fun _ =>
    (composed_lift (Reg.ofIndex_throws _)).bind fun _ =>
    (composed_lift (Reg.ofIndex_throws _)).bind fun _ =>
    (composed_lift (scale_throws _ _ _)).bind fun _ => (composed_push _ _).bind fun _ =>
    composed_pure _

theorem composed_length (origin : String) : Composed asks (length origin) :=
  composed_pop.bind fun _ => (composed_push _ _).bind fun _ => composed_pure _

theorem composed_loadElement (i : Instruction) (w : Width) : Composed asks (loadElement i w) :=
  (composed_supported i _).bind fun _ => (composed_supported i _).bind fun _ =>
    composed_top.bind fun _ => composed_pop.bind fun _ => composed_pop.bind fun _ =>
    (composed_push _ _).bind fun _ => (composed_operand 0 0).bind fun _ =>
    (composed_lift (scale_throws _ _ _)).bind fun _ => composed_pure _

theorem composed_storeElement (i : Instruction) (w : Width) : Composed asks (storeElement i w) :=
  (composed_supported i _).bind fun _ => composed_top.bind fun _ =>
    composed_pop.bind fun _ => composed_pop.bind fun _ => composed_pop.bind fun _ =>
    (composed_lift (scale_throws _ _ _)).bind fun _ => composed_pure _

theorem composed_elementAddress (origin : String) (elem : TypeRef) :
    Composed asks (elementAddress origin elem) :=
  (Composed.size elem).bind fun _ => composed_top.bind fun _ =>
    composed_pop.bind fun _ => composed_pop.bind fun _ => (composed_push _ _).bind fun _ =>
    (composed_operand 0 0).bind fun _ => (composed_lift (scale_throws _ _ _)).bind fun _ =>
    composed_pure _

theorem composed_pops (l : List β) : Composed asks (l.forM fun _ => discard pop) := by
  induction l with
  | nil => exact composed_pure _
  | cons b l ih =>
    refine Composed.bind (x := discard pop) ?_ fun _ => ih
    exact composed_pop.bind fun _ => composed_pure _

theorem composed_call (origin : String) (m : MethodRef) : Composed asks (call origin m) :=
  composed_top.bind fun _ => (composed_pops _).bind fun _ => composed_top.bind fun _ =>
    (composed_lift (copyWords_throws _ _ _)).bind fun _ =>
    (composed_lift (Reg.ofIndex_throws _)).bind fun _ => (composed_push _ _).bind fun _ =>
    composed_pure _

theorem composed_giveBack (f : Frame) : Composed asks (giveBack f) := by
  refine composed_top.bind fun stop => ?_
  split
  · exact composed_throw rfl
  split
  · exact composed_throw rfl
  exact (composed_lift (copyWords_throws _ _ _)).bind fun _ =>
    (composed_lift (copyWords_throws _ _ _)).bind fun _ => composed_pop.bind fun _ => composed_pure _

theorem composed_ret (site : Site) : Composed asks (ret site) := by
  have hremark : ∀ lines : List Line, Composed asks (do
      let remark := if (← get).stack.elems.isEmpty then [] else [.comment "stack not empty !!"]
      return lines ++ remark : Lower (List Line)) := by
    intro lines
    exact composed_look (f := fun stack => .ok (lines ++
      if stack.elems.isEmpty then [] else [.comment "stack not empty !!"])) fun _ => .ok _
  refine (composed_lift site.frame.backupReg_throws).bind fun backup => ?_
  dsimp only
  split
  · exact hremark _
  · exact (composed_giveBack _).bind fun _ => hremark _

theorem composed_duplicate : Composed asks duplicate :=
  (composed_peek 0).bind fun _ => (composed_lift (copyWords_throws _ _ _)).bind fun _ =>
    (composed_pushSized _ _ _).bind fun _ => composed_pure _

/-- An instruction asks for nothing but what its operation names. -/
theorem composed_instruction (site : Site) (i : Instruction) :
    Composed i.op.Asks (instruction site i) := by
  obtain ⟨offset, op⟩ := i
  cases op with
  | nop | br => exact composed_pure _
  | load v => exact composed_loadSlot _ _
  | store v => exact composed_storeSlot _ _
  | address v => exact composed_slotAddress _ _ _
  | push l =>
    cases l with
    | null | int32 | int64 => exact composed_constant _ _ _
    | str text => exact composed_loadString _ rfl
    | real32 | real64 => exact composed_throw rfl
  | dup => exact composed_duplicate
  | pop => exact composed_pop.bind fun _ => composed_pure _
  | call m => exact composed_call _ m
  | ret => exact composed_ret site
  | brFalse | brTrue => exact composed_testBranch _ _
  | brIf c t => exact composed_compareBranch c _
  | ldind w => exact composed_loadIndirect _ w
  | stind w => exact composed_storeIndirect _ w
  | arith a => exact composed_arith a
  | neg | not => exact (composed_operand 0 0).bind fun _ => composed_pure _
  | conv check k => exact composed_convert _ k
  | compare c => exact composed_compare _ c
  | field a f =>
    cases a with
    | load => exact composed_loadField _ rfl
    | address => exact composed_fieldAddress _ rfl
    | store => exact composed_storeField rfl
  | staticField a f =>
    cases a with
    | load => exact composed_loadStatic _ rfl
    | address => exact .bind (composed_staticField rfl) fun _ => composed_constant _ _ _
    | store => exact composed_storeStatic rfl
  | initobj t => exact composed_clear t
  | «sizeof» t => exact (Composed.size t).bind fun _ => composed_constant _ _ _
  | newarr elem => exact composed_newArray _ elem
  | ldlen => exact composed_length _
  | ldelem w => exact composed_loadElement _ w
  | stelem w => exact composed_storeElement _ w
  | ldelema elem => exact composed_elementAddress _ elem
  | _ => exact composed_throw rfl

end Lower

end CilMmix
