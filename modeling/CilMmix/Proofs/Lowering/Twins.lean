import CilMmix.Proofs.Lowering.Steps

/-! Lowering for two operand stacks of one shape. Code depends on the registers of the operands; the
steps that lowering is made of do not tell the stacks apart. -/

namespace CilMmix

/-- Elements in the same registers. -/
def Element.SameSlot (a b : Element) : Prop := a.offset = b.offset ∧ a.size.words = b.size.words

theorem sameSlot_of_shape {a b : List Element} (h : shape a = shape b) (k : Nat) :
    (a[k]? = none ∧ b[k]? = none) ∨
      ∃ x y, a[k]? = some x ∧ b[k]? = some y ∧ x.SameSlot y := by
  have hk := congrArg (fun sh : Shape => sh[k]?) h
  simp only [shape, List.getElem?_map] at hk
  cases ha : a[k]? with
  | none =>
    rw [ha] at hk
    exact .inl ⟨rfl, Option.map_eq_none_iff.mp hk.symm⟩
  | some x =>
    rw [ha] at hk
    obtain ⟨y, hy, he⟩ := Option.map_eq_some_iff.mp hk.symm
    obtain ⟨ho, hw⟩ := Prod.mk.inj he
    exact .inr ⟨x, y, rfl, hy, ho.symm, hw.symm⟩

namespace Lower

/-- States that differ at most in the types and the origins of operands. -/
structure Twin (s t : LowerState) : Prop where
  session_eq : s.toSession = t.toSession
  base_eq : s.stack.base = t.stack.base
  shape_eq : shape s.stack.elems = shape t.stack.elems

/-- Both computations fail, or both end in twin states with results in a relation. -/
inductive Alike {α β : Type} (R : α → β → Prop) :
    Except Fault (α × LowerState) → Except Fault (β × LowerState) → Prop
  | ok {a : α} {b : β} {s t : LowerState} : R a b → Twin s t → Alike R (.ok (a, s)) (.ok (b, t))
  | error {f g : Fault} : Alike R (.error f) (.error g)

def Rel {α β : Type} (R : α → β → Prop) (x : Lower α) (y : Lower β) : Prop :=
  ∀ s t, Twin s t → Alike R (x s) (y t)

/-- A computation that does not tell twin states apart. -/
abbrev Uniform {α : Type} (x : Lower α) : Prop := Rel Eq x x

theorem Rel.bind {α β γ δ : Type} {R : α → β → Prop} {S : γ → δ → Prop} {x : Lower α} {y : Lower β}
    {f : α → Lower γ} {g : β → Lower δ} (hx : Rel R x y) (hf : ∀ a b, R a b → Rel S (f a) (g b)) :
    Rel S (x >>= f) (y >>= g) := by
  intro s t hst
  have hh := hx s t hst
  change Alike S (x s >>= fun p => f p.1 p.2) (y t >>= fun p => g p.1 p.2)
  generalize x s = p at hh ⊢
  generalize y t = q at hh ⊢
  cases hh with
  | ok hab hst => exact hf _ _ hab _ _ hst
  | error => exact .error

theorem Rel.bind_eq {α γ δ : Type} {S : γ → δ → Prop} {x : Lower α} {f : α → Lower γ}
    {g : α → Lower δ} (hx : Uniform x) (hf : ∀ a, Rel S (f a) (g a)) :
    Rel S (x >>= f) (x >>= g) := by
  refine hx.bind fun a b hab => ?_
  subst hab
  exact hf a

theorem uniform_pure {α : Type} (a : α) : Uniform (pure a) := fun _ _ hst => .ok rfl hst

theorem uniform_throw {α : Type} (fault : Fault) : Uniform (throw fault : Lower α) :=
  fun _ _ _ => .error

theorem uniform_lift {α : Type} (x : Except Fault α) : Uniform (liftM x : Lower α) := by
  intro s t hst
  cases x with
  | error fault => exact .error
  | ok a => exact .ok rfl hst

theorem rel_get : Rel Twin get get := fun _ _ hst => .ok hst hst

theorem rel_lift {α β : Type} {R : α → β → Prop} {x : Except Fault α} {y : Except Fault β}
    (h : (∃ a b, x = .ok a ∧ y = .ok b ∧ R a b) ∨ ∃ f g, x = .error f ∧ y = .error g) :
    Rel R (liftM x : Lower α) (liftM y : Lower β) := by
  intro s t hst
  rcases h with ⟨a, b, rfl, rfl, hab⟩ | ⟨f, g, rfl, rfl⟩
  · exact .ok hab hst
  · exact .error

theorem rel_peek (k : Nat) : Rel Element.SameSlot (peek k) (peek k) := by
  refine rel_get.bind fun s t hst => rel_lift ?_
  unfold OperandStack.peek
  rcases sameSlot_of_shape hst.shape_eq k with ⟨hs, ht⟩ | ⟨x, y, hs, ht, hxy⟩
  · rw [hs, ht]
    exact .inr ⟨_, _, rfl, rfl⟩
  · rw [hs, ht]
    exact .inl ⟨x, y, rfl, rfl, hxy⟩

theorem uniform_operand (k word : Nat) : Uniform (operand k word) := by
  refine rel_get.bind fun s t hst => ?_
  have hreg : s.stack.reg k word = t.stack.reg k word ∨
      ∃ f g, s.stack.reg k word = .error f ∧ t.stack.reg k word = .error g := by
    unfold OperandStack.reg OperandStack.peek
    rcases sameSlot_of_shape hst.shape_eq k with ⟨hs, ht⟩ | ⟨x, y, hs, ht, hxy⟩
    · rw [hs, ht]
      exact .inr ⟨_, _, rfl, rfl⟩
    · rw [hs, ht]
      exact .inl (congrArg (fun o => Reg.ofIndex (o + word)) hxy.1)
  rcases hreg with he | ⟨f, g, hs, ht⟩
  · rw [he]
    exact uniform_lift _
  · exact rel_lift (.inr ⟨f, g, hs, ht⟩)

theorem Twin.symm {s t : LowerState} (h : Twin s t) : Twin t s :=
  ⟨h.session_eq.symm, h.base_eq.symm, h.shape_eq.symm⟩

theorem Twin.top_eq {s t : LowerState} (h : Twin s t) : s.stack.top = t.stack.top := by
  rw [OperandStack.top_eq, OperandStack.top_eq, h.base_eq, h.shape_eq]

theorem uniform_top : Uniform top := by
  refine rel_get.bind fun s t hst => ?_
  rw [hst.top_eq]
  exact uniform_pure _

theorem Twin.withElems {s t : LowerState} (h : Twin s t) {a b : List Element}
    (hab : shape a = shape b) : Twin (s.withElems a) (t.withElems b) :=
  ⟨h.session_eq, h.base_eq, hab⟩

theorem uniform_session {α : Type} {x : Lower α} {f : Session → Except Fault (α × Session)}
    (h : ∀ s, x s = (f s.toSession).map fun p => (p.1, { p.2 with stack := s.stack })) :
    Uniform x := by
  intro s t hst
  rw [h s, h t, hst.session_eq]
  cases f t.toSession with
  | error fault => exact .error
  | ok p => exact .ok rfl ⟨rfl, hst.base_eq, hst.shape_eq⟩

theorem uniform_sizeOf (ty : TypeRef) : Uniform (sizeOf ty) := by
  refine uniform_session (f := fun σ => (σ.layout.sizeOf ty).1.map fun size =>
    (size, { σ with layout := (σ.layout.sizeOf ty).2 })) fun s => ?_
  unfold sizeOf
  rcases s.layout.sizeOf ty with ⟨_ | _, layout⟩ <;> rfl

theorem uniform_fieldOffset (f : FieldRef) : Uniform (fieldOffset f) := by
  refine uniform_session (f := fun σ => (σ.layout.fieldOffset f).1.map fun offset =>
    (offset, { σ with layout := (σ.layout.fieldOffset f).2 })) fun s => ?_
  unfold fieldOffset
  rcases s.layout.fieldOffset f with ⟨_ | _, layout⟩ <;> rfl

theorem uniform_fieldType (f : FieldRef) : Uniform (fieldType f) := by
  refine rel_get.bind fun s t hst => ?_
  rw [hst.session_eq]
  exact (uniform_lift _).bind_eq fun d => uniform_pure d.ty

theorem uniform_literal (text : String) : Uniform (literal text) :=
  uniform_session (f := fun σ =>
    .ok ((σ.statics.literal text).1, { σ with statics := (σ.statics.literal text).2 })) fun _ => rfl

theorem uniform_staticField (f : FieldRef) : Uniform (staticField f) := by
  refine (uniform_fieldType f).bind_eq fun ty => (uniform_sizeOf ty).bind_eq fun size => ?_
  exact uniform_session (f := fun σ =>
    .ok ((σ.statics.field f.text size).1, { σ with statics := (σ.statics.field f.text size).2 }))
    fun _ => rfl

theorem uniform_pop : Uniform pop := by
  intro s t hst
  have hsh := hst.shape_eq
  unfold pop OperandStack.pop
  cases hs : s.stack.elems with
  | nil =>
    rw [hs] at hsh
    rw [List.map_eq_nil_iff.mp hsh.symm]
    exact .error
  | cons x a =>
    cases ht : t.stack.elems with
    | nil =>
      rw [hs, ht] at hsh
      cases hsh
    | cons y b =>
      rw [hs, ht] at hsh
      obtain ⟨hxy, hab⟩ := List.cons.inj hsh
      simp only [(Prod.mk.inj hxy).1]
      cases Reg.ofIndex y.offset with
      | error fault => exact .error
      | ok r => exact .ok rfl (hst.withElems hab)

theorem rel_pushSized {ty ty' : TypeRef} {size size' : Size} {origin origin' : Option String}
    (hw : size.words = size'.words) : Rel Eq (pushSized ty size origin) (pushSized ty' size' origin') := by
  intro s t hst
  have hzero : size.isZero = size'.isZero := by
    rw [Bool.eq_iff_iff, Size.isZero_iff, Size.isZero_iff, hw]
  unfold pushSized OperandStack.push
  rw [hzero, hst.top_eq, hw]
  split
  · exact .ok rfl hst
  · dsimp only
    split
    · exact .error
    · refine .ok rfl (hst.withElems ?_)
      simp only [shape_cons, hw, hst.shape_eq]

theorem uniform_push (origin : String) (ty : TypeRef) : Uniform (push origin ty) :=
  (uniform_sizeOf ty).bind_eq fun _ => rel_pushSized rfl

theorem uniform_constant (origin : String) (ty : TypeRef) (value : UInt64) :
    Uniform (constant origin ty value) :=
  (uniform_push origin ty).bind_eq fun _ => (uniform_operand 0 0).bind_eq fun _ => uniform_pure _

theorem uniform_mapM {α β : Type} {f : α → Lower β} (l : List α) (hf : ∀ a, Uniform (f a)) :
    Uniform (l.mapM f) := by
  induction l with
  | nil => exact uniform_pure _
  | cons a l ih =>
    rw [List.mapM_cons]
    exact (hf a).bind_eq fun _ => ih.bind_eq fun _ => uniform_pure _

theorem uniform_supported (i : Instruction) {α : Type} (o : Option α) : Uniform (supported i o) := by
  cases o with
  | none => exact uniform_throw _
  | some a => exact uniform_pure a

theorem uniform_loadSlot (b : Block) (k : Nat) : Uniform (loadSlot b k) := by
  refine (uniform_lift _).bind_eq fun e => (rel_pushSized rfl).bind_eq fun _ => ?_
  exact uniform_mapM _ fun word => (uniform_operand 0 word).bind_eq fun _ =>
    (uniform_lift _).bind_eq fun _ => uniform_pure _

theorem uniform_storeSlot (b : Block) (k : Nat) : Uniform (storeSlot b k) := by
  refine (uniform_lift _).bind_eq fun e => Rel.bind_eq ?_ fun _ =>
    uniform_pop.bind_eq fun _ => uniform_pure _
  exact uniform_mapM _ fun word => (uniform_lift _).bind_eq fun _ =>
    (uniform_operand 0 word).bind_eq fun _ => uniform_pure _

theorem uniform_slotAddress (origin : String) (b : Block) (k : Nat) :
    Uniform (slotAddress origin b k) :=
  (uniform_lift _).bind_eq fun _ => (uniform_push _ _).bind_eq fun _ =>
    (uniform_operand 0 0).bind_eq fun _ => uniform_top.bind_eq fun _ =>
    (uniform_lift _).bind_eq fun _ => uniform_pure _

theorem uniform_binary (code : Opcode) : Uniform (binary code) :=
  (uniform_operand 1 0).bind_eq fun _ => (uniform_operand 0 0).bind_eq fun _ =>
    uniform_pop.bind_eq fun _ => uniform_pure _

theorem uniform_arith (a : Arith) : Uniform (arith a) := by
  cases a with
  | rem | remUn => exact (uniform_operand 1 0).bind_eq fun _ =>
      (uniform_binary _).bind_eq fun _ => uniform_pure _
  | _ => exact uniform_binary _

theorem uniform_compare (origin : String) (c : Comparison) : Uniform (compare origin c) :=
  (uniform_operand 1 0).bind_eq fun _ => (uniform_operand 0 0).bind_eq fun _ =>
    uniform_pop.bind_eq fun _ => uniform_pop.bind_eq fun _ =>
    (uniform_push _ _).bind_eq fun _ => uniform_pure _

theorem uniform_compareBranch (c : Condition) (label : String) : Uniform (compareBranch c label) :=
  (uniform_operand 1 0).bind_eq fun _ => (uniform_operand 0 0).bind_eq fun _ =>
    uniform_pop.bind_eq fun _ => uniform_pop.bind_eq fun _ => uniform_pure _

theorem uniform_testBranch (code : Opcode) (label : String) : Uniform (testBranch code label) :=
  (uniform_operand 0 0).bind_eq fun _ => uniform_pop.bind_eq fun _ => uniform_pure _

theorem uniform_convert (i : Instruction) (k : Conversion) : Uniform (convert i k) := by
  unfold convert
  cases k.target? with
  | none => exact uniform_throw _
  | some target => exact uniform_pop.bind_eq fun _ => (uniform_push _ _).bind_eq fun _ => uniform_pure _

theorem uniform_loadIndirect (i : Instruction) (w : Width) : Uniform (loadIndirect i w) :=
  (uniform_supported i _).bind_eq fun _ => (uniform_supported i _).bind_eq fun _ =>
    uniform_pop.bind_eq fun _ => (uniform_push _ _).bind_eq fun _ =>
    (uniform_operand 0 0).bind_eq fun _ => uniform_pure _

theorem uniform_storeIndirect (i : Instruction) (w : Width) : Uniform (storeIndirect i w) :=
  (uniform_supported i _).bind_eq fun _ => uniform_pop.bind_eq fun _ =>
    uniform_pop.bind_eq fun _ => uniform_pure _

theorem uniform_loadString (origin : String) (text : String) : Uniform (loadString origin text) :=
  (uniform_literal text).bind_eq fun _ => (uniform_push _ _).bind_eq fun _ =>
    (uniform_operand 0 0).bind_eq fun _ => (uniform_operand 0 1).bind_eq fun _ => uniform_pure _

theorem uniform_storeField (f : FieldRef) : Uniform (storeField f) := by
  refine (uniform_fieldOffset f).bind_eq fun offset => (uniform_operand 1 0).bind_eq fun target =>
    (rel_peek 0).bind fun x y hxy => ?_
  rw [hxy.2]
  refine uniform_top.bind_eq fun scratch => Rel.bind_eq ?_ fun _ => uniform_pop.bind_eq fun _ =>
    uniform_pop.bind_eq fun _ => uniform_pure _
  exact uniform_mapM _ fun word => (uniform_operand 0 word).bind_eq fun _ => uniform_lift _

theorem uniform_fieldAddress (origin : String) (f : FieldRef) : Uniform (fieldAddress origin f) :=
  (uniform_fieldOffset f).bind_eq fun _ => (uniform_fieldType f).bind_eq fun _ =>
    uniform_top.bind_eq fun _ => uniform_pop.bind_eq fun _ =>
    (uniform_push _ _).bind_eq fun _ => uniform_lift _

theorem uniform_loadStatic (origin : String) (f : FieldRef) : Uniform (loadStatic origin f) := by
  refine (uniform_staticField f).bind_eq fun a => (uniform_fieldType f).bind_eq fun ty =>
    uniform_top.bind_eq fun n => (uniform_lift _).bind_eq fun address =>
    (uniform_push _ _).bind_eq fun _ => (rel_peek 0).bind fun x y hxy => ?_
  rw [hxy.2]
  refine Rel.bind_eq ?_ fun _ => uniform_pure _
  exact uniform_mapM _ fun word => (uniform_operand 0 word).bind_eq fun _ => uniform_pure _

theorem uniform_storeStatic (f : FieldRef) : Uniform (storeStatic f) := by
  refine (uniform_staticField f).bind_eq fun a => uniform_top.bind_eq fun n =>
    (uniform_lift _).bind_eq fun address => (rel_peek 0).bind fun x y hxy => ?_
  rw [hxy.2]
  refine Rel.bind_eq ?_ fun _ => uniform_pop.bind_eq fun _ => uniform_pure _
  exact uniform_mapM _ fun word => (uniform_operand 0 word).bind_eq fun _ => uniform_pure _

theorem uniform_static (origin : String) (f : FieldRef) (a : FieldAccess) :
    Uniform (static origin f a) := by
  cases a with
  | load => exact uniform_loadStatic origin f
  | address => exact (uniform_staticField f).bind_eq fun _ => uniform_constant _ _ _
  | store => exact uniform_storeStatic f

theorem uniform_clear (ty : TypeRef) : Uniform (clear ty) := by
  refine (uniform_sizeOf ty).bind_eq fun size => uniform_top.bind_eq fun scratch =>
    uniform_pop.bind_eq fun address => Rel.bind_eq ?_ fun _ => uniform_pure _
  exact uniform_mapM _ fun word => uniform_lift _

theorem uniform_newArray (origin : String) (elem : TypeRef) : Uniform (newArray origin elem) :=
  (uniform_sizeOf elem).bind_eq fun _ => uniform_pop.bind_eq fun _ =>
    (uniform_lift _).bind_eq fun _ => (uniform_lift _).bind_eq fun _ =>
    (uniform_lift _).bind_eq fun _ => (uniform_push _ _).bind_eq fun _ => uniform_pure _

theorem uniform_length (origin : String) : Uniform (length origin) :=
  uniform_pop.bind_eq fun _ => (uniform_push _ _).bind_eq fun _ => uniform_pure _

theorem uniform_loadElement (i : Instruction) (w : Width) : Uniform (loadElement i w) :=
  (uniform_supported i _).bind_eq fun _ => (uniform_supported i _).bind_eq fun _ =>
    uniform_top.bind_eq fun _ => uniform_pop.bind_eq fun _ => uniform_pop.bind_eq fun _ =>
    (uniform_push _ _).bind_eq fun _ => (uniform_operand 0 0).bind_eq fun _ =>
    (uniform_lift _).bind_eq fun _ => uniform_pure _

theorem uniform_storeElement (i : Instruction) (w : Width) : Uniform (storeElement i w) :=
  (uniform_supported i _).bind_eq fun _ => uniform_top.bind_eq fun _ =>
    uniform_pop.bind_eq fun _ => uniform_pop.bind_eq fun _ => uniform_pop.bind_eq fun _ =>
    (uniform_lift _).bind_eq fun _ => uniform_pure _

theorem uniform_elementAddress (origin : String) (elem : TypeRef) :
    Uniform (elementAddress origin elem) :=
  (uniform_sizeOf elem).bind_eq fun _ => uniform_top.bind_eq fun _ =>
    uniform_pop.bind_eq fun _ => uniform_pop.bind_eq fun _ => (uniform_push _ _).bind_eq fun _ =>
    (uniform_operand 0 0).bind_eq fun _ => (uniform_lift _).bind_eq fun _ => uniform_pure _

theorem uniform_pops {α : Type} (l : List α) : Uniform (l.forM fun _ => discard pop) := by
  induction l with
  | nil => exact uniform_pure _
  | cons a l ih =>
    refine Rel.bind_eq (x := discard pop) ?_ fun _ => ih
    exact uniform_pop.bind_eq fun _ => uniform_pure _

theorem uniform_call (origin : String) (m : MethodRef) : Uniform (call origin m) :=
  uniform_top.bind_eq fun _ => (uniform_pops _).bind_eq fun _ => uniform_top.bind_eq fun _ =>
    (uniform_lift _).bind_eq fun _ => (uniform_lift _).bind_eq fun _ =>
    (uniform_push _ _).bind_eq fun _ => uniform_pure _

theorem uniform_giveBack (f : Frame) : Uniform (giveBack f) := by
  refine uniform_top.bind_eq fun stop => ?_
  split
  · exact uniform_throw _
  split
  · exact uniform_throw _
  exact (uniform_lift _).bind_eq fun _ => (uniform_lift _).bind_eq fun _ =>
    uniform_pop.bind_eq fun _ => uniform_pure _

theorem uniform_remark (lines : List Line) : Uniform (do
    let remark := if (← get).stack.elems.isEmpty then [] else [.comment "stack not empty !!"]
    return lines ++ remark : Lower (List Line)) := by
  refine rel_get.bind fun s t hst => ?_
  have hempty : s.stack.elems.isEmpty = t.stack.elems.isEmpty := by
    have hlen := congrArg List.isEmpty hst.shape_eq
    simpa [shape] using hlen
  rw [hempty]
  exact uniform_pure _

theorem uniform_ret (site : Site) : Uniform (ret site) := by
  refine (uniform_lift _).bind_eq fun backup => ?_
  dsimp only
  split
  · exact uniform_remark _
  · exact (uniform_giveBack _).bind_eq fun _ => uniform_remark _

theorem uniform_literalValue (i : Instruction) (l : Literal) : Uniform (literalValue i l) := by
  cases l with
  | null | int32 | int64 => exact uniform_constant _ _ _
  | str text => exact uniform_loadString _ text
  | real32 | real64 => exact uniform_throw _

theorem uniform_duplicate : Uniform duplicate := by
  refine (rel_peek 0).bind fun x y hxy => ?_
  have hlines : copyWords x.offset x.stop x.size.words = copyWords y.offset y.stop y.size.words := by
    simp only [Element.stop, hxy.1, hxy.2]
  rw [hlines]
  exact (uniform_lift _).bind_eq fun _ => (rel_pushSized hxy.2).bind fun _ _ _ => uniform_pure _

/-- Only the load of a field looks at the type of its operand. -/
theorem uniform_instruction (site : Site) (i : Instruction) (h : ∀ f, i.op ≠ .field .load f) :
    Uniform (instruction site i) := by
  obtain ⟨offset, op⟩ := i
  cases op with
  | nop | br => exact uniform_pure _
  | load v => exact uniform_loadSlot _ _
  | store v => exact uniform_storeSlot _ _
  | address v => exact uniform_slotAddress _ _ _
  | push l => exact uniform_literalValue _ l
  | dup => exact uniform_duplicate
  | pop => exact uniform_pop.bind_eq fun _ => uniform_pure _
  | call m => exact uniform_call _ m
  | ret => exact uniform_ret site
  | brFalse | brTrue => exact uniform_testBranch _ _
  | brIf c t => exact uniform_compareBranch c _
  | ldind w => exact uniform_loadIndirect _ w
  | stind w => exact uniform_storeIndirect _ w
  | arith a => exact uniform_arith a
  | neg | not => exact (uniform_operand 0 0).bind_eq fun _ => uniform_pure _
  | conv check k => exact uniform_convert _ k
  | compare c => exact uniform_compare _ c
  | field a f =>
    cases a with
    | load => exact absurd rfl (h f)
    | address => exact uniform_fieldAddress _ f
    | store => exact uniform_storeField f
  | staticField a f => exact uniform_static _ f a
  | initobj t => exact uniform_clear t
  | «sizeof» t => exact (uniform_sizeOf t).bind_eq fun _ => uniform_constant _ _ _
  | newarr elem => exact uniform_newArray _ elem
  | ldlen => exact uniform_length _
  | ldelem w => exact uniform_loadElement _ w
  | stelem w => exact uniform_storeElement _ w
  | ldelema elem => exact uniform_elementAddress _ elem
  | _ => exact uniform_throw _

end Lower

end CilMmix
