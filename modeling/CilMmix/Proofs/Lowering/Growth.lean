import CilMmix.Proofs.Assembly.Encoding
import CilMmix.Proofs.Lowering.Effect
import CilMmix.Proofs.Simulation.Return
import CilMmix.Proofs.Storage.Allocation

/-! What lowering adds to static storage, and how large the numbers in its lines are. Storage only grows,
by fields that are as large as their types say and by literals. -/

namespace CilMmix

namespace Lower

variable {types : List TypeDef} {n : Nat} {α β : Type}

/-- The size of a field that has such an id. -/
def Declared (types : List TypeDef) (id : String) (size : Size) : Prop :=
  ∃ f ty, f.text = id ∧ FieldHasType types f ty ∧ HasSize types ty size

/-- A computation that only adds to static storage, with a property of its result. -/
def Yields (types : List TypeDef) (R : α → Prop) (x : Lower α) : Prop :=
  ∀ s, s.layout.Sound types → ∀ a t, x s = .ok (a, t) →
    t.layout.Sound types ∧ s.statics.Grows (Declared types) t.statics ∧ R a

/-- A computation that writes lines with numbers of at most `n`. -/
abbrev Limited (types : List TypeDef) (n : Nat) (x : Lower (List Line)) : Prop :=
  Yields types (fun lines => ∀ l ∈ lines, l.Fits n) x

theorem Yields.bind {P : α → Prop} {Q : β → Prop} {x : Lower α} {f : α → Lower β}
    (hx : Yields types P x) (hf : ∀ a, P a → Yields types Q (f a)) : Yields types Q (x >>= f) := by
  intro s hs b u h
  obtain ⟨a, t, ha, hfa⟩ := bind_ok.mp h
  obtain ⟨ht, hgrows, hp⟩ := hx s hs a t ha
  obtain ⟨hu, hgrows', hq⟩ := hf a hp t ht b u hfa
  exact ⟨hu, hgrows.trans hgrows', hq⟩

theorem Limited.then {x : Lower (List Line)} {f : List Line → Lower (List Line)}
    (hx : Limited types n x)
    (hf : ∀ lines, (∀ l ∈ lines, l.Fits n) → Limited types n (f lines)) : Limited types n (x >>= f) :=
  Yields.bind hx hf

theorem Yields.mono {P Q : α → Prop} {x : Lower α} (hx : Yields types P x) (h : ∀ a, P a → Q a) :
    Yields types Q x := by
  intro s hs a t ha
  obtain ⟨ht, hgrows, hp⟩ := hx s hs a t ha
  exact ⟨ht, hgrows, h a hp⟩

/-- What only looks at the operands leaves the rest alone. -/
theorem yields_of_session {R : α → Prop} {x : Lower α}
    (h : ∀ s a t, x s = .ok (a, t) → t.toSession = s.toSession ∧ R a) : Yields types R x := by
  intro s hs a t hx
  obtain ⟨he, ha⟩ := h s a t hx
  exact ⟨he ▸ hs, he ▸ .refl, ha⟩

theorem yields_pure {R : α → Prop} {a : α} (ha : R a) : Yields types R (pure a) := by
  refine yields_of_session fun s b t h => ?_
  obtain ⟨rfl, rfl⟩ := pure_ok.mp h
  exact ⟨rfl, ha⟩

theorem yields_throw {R : α → Prop} (fault : Fault) : Yields types R (throw fault : Lower α) := by
  intro s hs a t h
  cases h

theorem yields_lift (x : Except Fault α) :
    Yields types (fun a => x = .ok a) (liftM x : Lower α) := by
  refine yields_of_session fun s b t h => ?_
  obtain ⟨hx, rfl⟩ := lift_ok.mp h
  exact ⟨rfl, hx⟩

theorem yields_get :
    Yields types (fun s => s.layout.Sound types) (get : Lower LowerState) := by
  intro s hs b t h
  obtain ⟨rfl, rfl⟩ := get_ok.mp h
  exact ⟨hs, .refl, hs⟩

theorem yields_operand (index word : Nat) : Yields types (fun _ => True) (operand index word) := by
  refine yields_of_session fun s r t h => ?_
  obtain ⟨-, rfl⟩ := operand_ok.mp h
  exact ⟨rfl, trivial⟩

theorem yields_peek (index : Nat) : Yields types (fun _ => True) (peek index) := by
  refine yields_of_session fun s e t h => ?_
  obtain ⟨-, rfl⟩ := peek_ok.mp h
  exact ⟨rfl, trivial⟩

theorem yields_top : Yields types (fun _ => True) top := by
  refine yields_of_session fun s k t h => ?_
  obtain ⟨-, rfl⟩ := top_ok.mp h
  exact ⟨rfl, trivial⟩

theorem yields_pop : Yields types (fun _ => True) pop := by
  refine yields_of_session fun s r t h => ?_
  obtain ⟨e, rest, -, -, rfl⟩ := pop_ok.mp h
  exact ⟨rfl, trivial⟩

theorem yields_pushSized (ty : TypeRef) (size : Size) (origin : Option String) :
    Yields types (fun _ => True) (pushSized ty size origin) := by
  refine yields_of_session fun s u t h => ?_
  rcases pushSized_ok.mp h with ⟨-, rfl⟩ | ⟨-, -, rfl⟩ <;> exact ⟨rfl, trivial⟩

theorem sizeOf_keeps {ty : TypeRef} {s t : LowerState} {size : Size}
    (h : sizeOf ty s = .ok (size, t)) : t.stack = s.stack ∧ t.statics = s.statics := by
  unfold sizeOf at h
  split at h <;> cases h
  exact ⟨rfl, rfl⟩

theorem fieldOffset_statics {f : FieldRef} {s t : LowerState} {size : Size}
    (h : fieldOffset f s = .ok (size, t)) : t.statics = s.statics := by
  unfold fieldOffset at h
  split at h <;> cases h
  rfl

theorem yields_sizeOf (ty : TypeRef) : Yields types (HasSize types ty) (sizeOf ty) := by
  intro s hs size t h
  obtain ⟨ht, -, hsize⟩ := (quiet_sizeOf types ty s hs).2 size t h
  exact ⟨ht, (sizeOf_keeps h).2 ▸ .refl, hsize⟩

theorem yields_fieldOffset (f : FieldRef) : Yields types (fun _ => True) (fieldOffset f) := by
  intro s hs size t h
  obtain ⟨ht, -, -⟩ := (quiet_fieldOffset types f s hs).2 size t h
  exact ⟨ht, fieldOffset_statics h ▸ .refl, trivial⟩

theorem yields_fieldType (f : FieldRef) : Yields types (FieldHasType types f) (fieldType f) := by
  refine yields_get.bind fun s hs => (yields_lift _).bind fun d hd => yields_pure ?_
  exact ⟨d, hs.resolveField f ▸ hd, rfl⟩

theorem yields_push (origin : String) (ty : TypeRef) :
    Yields types (fun _ => True) (push origin ty) :=
  (yields_sizeOf ty).bind fun _ _ => yields_pushSized _ _ _

theorem yields_literal (text : String) : Yields types (fun _ => True) (literal text) := by
  intro s hs a t h
  cases h
  exact ⟨hs, (Statics.served_literal text).grows, trivial⟩

theorem yields_staticField (f : FieldRef) : Yields types (fun _ => True) (staticField f) := by
  refine (yields_fieldType f).bind fun ty hty => (yields_sizeOf ty).bind fun size hsize => ?_
  intro s hs a t h
  cases h
  exact ⟨hs, (Statics.served_field ⟨f, ty, rfl, hty, hsize⟩).grows, trivial⟩

theorem yields_mapM {R : β → Prop} {f : α → Lower β} {l : List α}
    (hf : ∀ a ∈ l, Yields types R (f a)) : Yields types (fun bs => ∀ b ∈ bs, R b) (l.mapM f) := by
  induction l with
  | nil => exact yields_pure (List.forall_mem_nil _)
  | cons a l ih =>
    obtain ⟨ha, hl⟩ := List.forall_mem_cons.mp hf
    rw [List.mapM_cons]
    refine ha.bind fun b hb => (ih hl).bind fun bs hbs => yields_pure ?_
    exact List.forall_mem_cons.mpr ⟨hb, hbs⟩

theorem limited_flatten {f : α → Lower (List Line)} {l : List α} (hf : ∀ a, Limited types n (f a)) :
    Yields types (fun bs => ∀ l ∈ bs.flatten, l.Fits n) (l.mapM f) := by
  refine (yields_mapM fun a _ => hf a).mono fun bs hbs l hl => ?_
  obtain ⟨b, hb, hl⟩ := List.mem_flatten.mp hl
  exact hbs b hb l hl

theorem limited_copyWords (source dest count : Nat) :
    Limited types n (liftM (copyWords source dest count).complete) :=
  (yields_lift _).mono fun _ hlines => (copyWords_ok hlines).fits

theorem limited_accessAt {code : Opcode} {x : Operand} {address : Reg} {bytes scratch : Nat}
    (hcode : code.steps = true) (hx : x.fits maxImmediate = true) :
    Limited types n (liftM (accessAt code x address bytes scratch)) :=
  (yields_lift _).mono fun _ hlines => accessAt_fits hlines hcode hx

/-- An operation on registers only. -/
theorem limited_ins {code : Opcode} {operands : List Operand} (hcode : code.steps = true)
    (h : ∀ o ∈ operands, o.fits maxImmediate = true) :
    Limited types n (pure [.ins code operands]) :=
  yields_pure (List.forall_mem_singleton.mpr (.small hcode h))

theorem limited_constant (origin : String) (ty : TypeRef) (value : UInt64) :
    Limited types n (constant origin ty value) :=
  (yields_push origin ty).bind fun _ _ => (yields_operand 0 0).bind fun r _ =>
    yields_pure (loadConstant_fits r value)

theorem limited_loadSlot (b : Block) (index : Nat) : Limited types n (loadSlot b index) := by
  refine (yields_lift _).bind fun e _ => (yields_pushSized _ _ _).bind fun _ _ =>
    yields_mapM fun word _ => ?_
  refine (yields_operand 0 word).bind fun into _ => (yields_lift _).bind fun value _ => ?_
  exact yields_pure (.small rfl (by simp))

theorem limited_storeSlot (b : Block) (index : Nat) : Limited types n (storeSlot b index) := by
  refine (yields_lift _).bind fun e _ => (yields_mapM fun word _ => ?_).bind fun lines hlines =>
    yields_pop.bind fun _ _ => yields_pure hlines
  refine (yields_lift _).bind fun into _ => (yields_operand 0 word).bind fun value _ => ?_
  exact yields_pure (.small rfl (by simp))

theorem limited_slotAddress (origin : String) (b : Block) (index : Nat) :
    Limited types n (slotAddress origin b index) := by
  refine (yields_lift _).bind fun e _ => (yields_push _ _).bind fun _ _ => ?_
  refine (yields_operand 0 0).bind fun r _ => yields_top.bind fun k _ => ?_
  refine (yields_lift _).bind fun sum hsum => yields_pure (List.forall_mem_cons.mpr ⟨?_, ?_⟩)
  · exact .small rfl (by simp)
  · exact addNumber_fits hsum

theorem limited_binary {code : Opcode} (hcode : code.steps = true) :
    Limited types n (binary code) := by
  refine (yields_operand 1 0).bind fun a _ => (yields_operand 0 0).bind fun b _ => ?_
  exact yields_pop.bind fun _ _ => limited_ins hcode (by simp)

theorem limited_remainder {divide : Opcode} (hcode : divide.steps = true) :
    Limited types n (remainder divide) := by
  refine (yields_operand 1 0).bind fun a _ => (limited_binary hcode).then fun lines hlines => ?_
  refine yields_pure (List.forall_mem_append.mpr ⟨hlines, List.forall_mem_singleton.mpr ?_⟩)
  exact .small rfl (by simp)

theorem limited_arith (a : Arith) : Limited types n (arith a) := by
  cases a with
  | rem | remUn => exact limited_remainder rfl
  | _ => exact limited_binary rfl

theorem limited_compare (origin : String) (c : Comparison) :
    Limited types n (compare origin c) := by
  have hcodes : c.codes.1.steps = true ∧ c.codes.2.steps = true := by cases c <;> exact ⟨rfl, rfl⟩
  refine (yields_operand 1 0).bind fun a _ => (yields_operand 0 0).bind fun b _ => ?_
  refine yields_pop.bind fun _ _ => yields_pop.bind fun _ _ => (yields_push _ _).bind fun _ _ => ?_
  refine yields_pure (List.forall_mem_cons.mpr ⟨?_, List.forall_mem_singleton.mpr ?_⟩)
  · exact .small hcodes.1 (by simp)
  · exact .small hcodes.2 (by simp [maxImmediate])

theorem limited_compareBranch (c : Condition) (label : String) :
    Limited types n (compareBranch c label) := by
  have hcodes : c.codes.1.steps = true ∧ c.codes.2.steps = true := by cases c <;> exact ⟨rfl, rfl⟩
  refine (yields_operand 1 0).bind fun a _ => (yields_operand 0 0).bind fun b _ => ?_
  refine yields_pop.bind fun _ _ => yields_pop.bind fun _ _ => yields_pure ?_
  refine List.forall_mem_cons.mpr ⟨.small hcodes.1 (by simp), List.forall_mem_singleton.mpr ?_⟩
  exact .small hcodes.2 (by simp)

theorem limited_testBranch {code : Opcode} (hcode : code.steps = true) (label : String) :
    Limited types n (testBranch code label) :=
  (yields_operand 0 0).bind fun r _ => yields_pop.bind fun _ _ => limited_ins hcode (by simp)

theorem limited_convert (i : Instruction) (k : Conversion) : Limited types n (convert i k) := by
  unfold convert
  split
  · exact yields_throw _
  · refine yields_pop.bind fun r _ => (yields_push _ _).bind fun _ _ => yields_pure ?_
    cases k <;> simp only [Conversion.narrow, List.forall_mem_cons, List.not_mem_nil, false_imp_iff,
      implies_true, and_true] <;>
      first
        | exact ⟨.small rfl (by simp [maxImmediate]), .small rfl (by simp [maxImmediate])⟩
        | exact .small rfl (by simp [maxImmediate])

theorem yields_supported (i : Instruction) (o : Option α) :
    Yields types (fun a => o = some a) (supported i o) := by
  cases o with
  | none => exact yields_throw _
  | some a => exact yields_pure rfl

theorem steps_of_loadCode? {w : Width} {code : Opcode} (h : w.loadCode? = some code) :
    code.steps = true := by
  cases w <;> cases h <;> rfl

theorem steps_of_storeCode? {w : Width} {code : Opcode} (h : w.storeCode? = some code) :
    code.steps = true := by
  cases w <;> cases h <;> rfl

theorem limited_loadIndirect (i : Instruction) (w : Width) :
    Limited types n (loadIndirect i w) := by
  refine (yields_supported i _).bind fun code hcode => (yields_supported i _).bind fun ty _ => ?_
  refine yields_pop.bind fun address _ => (yields_push _ _).bind fun _ _ => ?_
  exact (yields_operand 0 0).bind fun r _ => limited_ins (steps_of_loadCode? hcode) (by simp)

theorem limited_storeIndirect (i : Instruction) (w : Width) :
    Limited types n (storeIndirect i w) := by
  refine (yields_supported i _).bind fun code hcode => yields_pop.bind fun value _ => ?_
  exact yields_pop.bind fun address _ => limited_ins (steps_of_storeCode? hcode) (by simp)

theorem limited_loadString (origin : String) (text : String) :
    Limited types n (loadString origin text) := by
  refine (yields_literal text).bind fun a _ => (yields_push _ _).bind fun _ _ => ?_
  refine (yields_operand 0 0).bind fun r _ => (yields_operand 0 1).bind fun r' _ => yields_pure ?_
  exact List.forall_mem_append.mpr ⟨loadConstant_fits r _, loadConstant_fits r' _⟩

theorem limited_loadField (origin : String) (f : FieldRef) :
    Limited types n (loadField origin f) := by
  refine (yields_fieldType f).bind fun ty _ => (yields_fieldOffset f).bind fun offset _ => ?_
  refine (yields_peek 0).bind fun object _ => yields_pop.bind fun source _ => ?_
  refine (yields_push _ _).bind fun _ _ => (yields_peek 0).bind fun e _ => yields_get.bind fun s _ => ?_
  split
  · exact limited_copyWords _ _ _
  · refine yields_top.bind fun scratch _ => (limited_flatten fun word => ?_).bind fun lines hlines =>
      yields_pure hlines
    exact (yields_operand 0 word).bind fun into _ => limited_accessAt rfl rfl

theorem limited_storeField (f : FieldRef) : Limited types n (storeField f) := by
  refine (yields_fieldOffset f).bind fun offset _ => (yields_operand 1 0).bind fun object _ => ?_
  refine (yields_peek 0).bind fun e _ => yields_top.bind fun scratch _ => ?_
  refine (limited_flatten fun word => ?_).bind fun lines hlines => yields_pop.bind fun _ _ =>
    yields_pop.bind fun _ _ => yields_pure hlines
  exact (yields_operand 0 word).bind fun value _ => limited_accessAt rfl rfl

theorem limited_fieldAddress (origin : String) (f : FieldRef) :
    Limited types n (fieldAddress origin f) := by
  refine (yields_fieldOffset f).bind fun offset _ => (yields_fieldType f).bind fun ty _ => ?_
  refine yields_top.bind fun scratch _ => yields_pop.bind fun object _ => ?_
  exact (yields_push _ _).bind fun _ _ => (yields_lift _).mono fun lines => addNumber_fits

theorem limited_field (origin : String) (f : FieldRef) (a : FieldAccess) :
    Limited types n (field origin f a) := by
  cases a with
  | load => exact limited_loadField origin f
  | address => exact limited_fieldAddress origin f
  | store => exact limited_storeField f

/-- A word of static storage is named by its distance in bytes, however large. -/
theorem fits_access {code : Opcode} (hcode : code.steps = true) {x address : Reg} {word words : Nat}
    (hword : word < words) :
    (Line.ins code [.reg x, .reg address, .imm (word * wordBytes)]).Fits (words * wordBytes) := by
  refine ⟨code, _, rfl, hcode, ?_⟩
  have hle : word * wordBytes ≤ max code.limit (words * wordBytes) := by
    simp only [wordBytes]
    omega
  simpa using hle

theorem yields_loadStatic (origin : String) (f : FieldRef) :
    Yields types (fun lines => ∃ n, ∀ l ∈ lines, l.Fits n) (loadStatic origin f) := by
  refine (yields_staticField f).bind fun a _ => (yields_fieldType f).bind fun ty _ => ?_
  refine yields_top.bind fun k _ => (yields_lift _).bind fun address _ => ?_
  refine (yields_push _ _).bind fun _ _ => (yields_peek 0).bind fun e _ => ?_
  refine (yields_mapM (R := Line.Fits (e.size.words * wordBytes)) fun word hword => ?_).bind
    fun lines hlines => yields_pure
      ⟨_, List.forall_mem_append.mpr ⟨loadConstant_fits address _, hlines⟩⟩
  refine (yields_operand 0 word).bind fun into _ => yields_pure ?_
  exact fits_access rfl (List.mem_range.mp (List.mem_reverse.mp hword))

theorem yields_storeStatic (f : FieldRef) :
    Yields types (fun lines => ∃ n, ∀ l ∈ lines, l.Fits n) (storeStatic f) := by
  refine (yields_staticField f).bind fun a _ => yields_top.bind fun k _ => ?_
  refine (yields_lift _).bind fun address _ => (yields_peek 0).bind fun e _ => ?_
  refine (yields_mapM (R := Line.Fits (e.size.words * wordBytes)) fun word hword => ?_).bind
    fun lines hlines => yields_pop.bind fun _ _ => yields_pure
      ⟨_, List.forall_mem_append.mpr ⟨loadConstant_fits address _, hlines⟩⟩
  refine (yields_operand 0 word).bind fun value _ => yields_pure ?_
  exact fits_access rfl (List.mem_range.mp hword)

theorem limited_clear (ty : TypeRef) : Limited types n (clear ty) := by
  refine (yields_sizeOf ty).bind fun size _ => yields_top.bind fun scratch _ => ?_
  refine yields_pop.bind fun address _ => (limited_flatten fun word => ?_).bind fun lines hlines =>
    yields_pure hlines
  exact limited_accessAt rfl rfl

/-- The logarithm of the size of a type. -/
def HasLog (types : List TypeDef) (ty : TypeRef) (n : Nat) : Prop :=
  ∃ size, HasSize types ty size ∧ n = size.bytes.log2

theorem yields_newArray (origin : String) (elem : TypeRef) :
    Yields types (fun lines => ∃ n, HasLog types elem n ∧ ∀ l ∈ lines, l.Fits n)
      (newArray origin elem) := by
  refine (yields_sizeOf elem).bind fun size hsize => yields_pop.bind fun count _ => ?_
  refine (yields_lift _).bind fun data _ => (yields_lift _).bind fun bytes _ => ?_
  refine (yields_lift _).bind fun scaling hscaling => (yields_push _ _).bind fun _ _ => yields_pure ?_
  refine ⟨size.bytes.log2, ⟨size, hsize, rfl⟩, ?_⟩
  simp only [List.cons_append, List.forall_mem_cons, List.forall_mem_append, List.not_mem_nil,
    false_imp_iff, implies_true, and_true]
  exact ⟨.small rfl (by simp), scale_fits hscaling (Nat.le_max_right ..),
    .small rfl (by simp [wordBytes, maxImmediate]), .small rfl (by simp), .small rfl (by simp),
    .small rfl (by simp), .small rfl (by simp [wordBytes, maxImmediate]), .small rfl (by simp)⟩

theorem limited_length (origin : String) : Limited types n (length origin) := by
  refine yields_pop.bind fun array _ => (yields_push _ _).bind fun _ _ => yields_pure ?_
  exact List.forall_mem_cons.mpr ⟨.small rfl (by simp [wordBytes, maxImmediate]),
    List.forall_mem_singleton.mpr (.small rfl (by simp))⟩

theorem log_bytes_le (w : Width) : w.bytes.log2 ≤ maxImmediate := by
  cases w <;> decide

theorem limited_loadElement (i : Instruction) (w : Width) :
    Limited types n (loadElement i w) := by
  have hlog := log_bytes_le w
  refine (yields_supported i _).bind fun code hcode => (yields_supported i _).bind fun ty _ => ?_
  refine yields_top.bind fun scratch _ => yields_pop.bind fun index _ => ?_
  refine yields_pop.bind fun array _ => (yields_push _ _).bind fun _ _ => ?_
  refine (yields_operand 0 0).bind fun into _ => (yields_lift _).bind fun scaling hscaling => ?_
  refine yields_pure (List.forall_mem_append.mpr ⟨scale_fits hscaling (by omega), ?_⟩)
  exact List.forall_mem_singleton.mpr (.small (steps_of_loadCode? hcode) (by simp))

theorem limited_storeElement (i : Instruction) (w : Width) :
    Limited types n (storeElement i w) := by
  have hlog := log_bytes_le w
  refine (yields_supported i _).bind fun code hcode => yields_top.bind fun scratch _ => ?_
  refine yields_pop.bind fun value _ => yields_pop.bind fun index _ => yields_pop.bind fun array _ => ?_
  refine (yields_lift _).bind fun scaling hscaling => ?_
  refine yields_pure (List.forall_mem_append.mpr ⟨scale_fits hscaling (by omega), ?_⟩)
  exact List.forall_mem_singleton.mpr (.small (steps_of_storeCode? hcode) (by simp))

theorem yields_elementAddress (origin : String) (elem : TypeRef) :
    Yields types (fun lines => ∃ n, HasLog types elem n ∧ ∀ l ∈ lines, l.Fits n)
      (elementAddress origin elem) := by
  refine (yields_sizeOf elem).bind fun size hsize => yields_top.bind fun scratch _ => ?_
  refine yields_pop.bind fun index _ => yields_pop.bind fun array _ => ?_
  refine (yields_push _ _).bind fun _ _ => (yields_operand 0 0).bind fun into _ => ?_
  refine (yields_lift _).bind fun scaling hscaling => yields_pure ?_
  refine ⟨size.bytes.log2, ⟨size, hsize, rfl⟩, List.forall_mem_append.mpr ⟨?_, ?_⟩⟩
  · exact scale_fits hscaling (Nat.le_max_right ..)
  · exact List.forall_mem_singleton.mpr (.small rfl (by simp))

theorem yields_pops (l : List α) :
    Yields types (fun _ => True) (l.forM fun _ => discard pop : Lower PUnit) := by
  induction l with
  | nil => exact yields_pure trivial
  | cons a l ih =>
    have hpop : Yields types (fun _ => True) (discard pop : Lower PUnit) :=
      yields_pop.bind fun _ _ => yields_pure trivial
    exact hpop.bind fun _ _ => ih

theorem limited_call (origin : String) (m : MethodRef) : Limited types n (call origin m) := by
  refine yields_top.bind fun stop _ => (yields_pops m.params).bind fun _ _ => yields_top.bind fun k _ => ?_
  refine (limited_copyWords _ _ _).then fun moves hmoves => (yields_lift _).bind fun hole _ => ?_
  refine (yields_push _ _).bind fun _ _ => yields_pure (List.forall_mem_append.mpr ⟨hmoves, ?_⟩)
  exact List.forall_mem_singleton.mpr (.small rfl (by simp))

theorem limited_literalValue (i : Instruction) (l : Literal) :
    Limited types n (literalValue i l) := by
  cases l with
  | null | int32 | int64 => exact limited_constant _ _ _
  | str text => exact limited_loadString _ _
  | real32 | real64 => exact yields_throw _

theorem limited_duplicate : Limited types n duplicate := by
  refine (yields_peek 0).bind fun e _ => (limited_copyWords _ _ _).then fun lines hlines => ?_
  exact (yields_pushSized _ _ _).bind fun _ _ => yields_pure hlines

theorem yields_giveBack (f : Frame) : Yields types (fun _ => True) (giveBack f) := by
  refine yields_top.bind fun stop _ => ?_
  split
  · exact yields_throw _
  split
  · exact yields_throw _
  exact (yields_lift _).bind fun _ _ => (yields_lift _).bind fun _ _ => yields_pop.bind fun _ _ =>
    yields_pure trivial

theorem yields_ret (site : Site) : Yields types (fun _ => True) (ret site) := by
  refine (yields_lift _).bind fun o _ => ?_
  dsimp only
  split
  · exact (yields_pure trivial : Yields types (fun _ => True) _).bind fun _ _ =>
      yields_get.bind fun _ _ => yields_pure trivial
  · exact (yields_giveBack site.frame).bind fun _ _ => yields_get.bind fun _ _ => yields_pure trivial

end Lower

namespace Op

/-- How large the numbers of an instruction's code can get, where eight bits may not do. -/
def Reaches (types : List TypeDef) : Op → Nat → Prop
  | newarr elem, n | ldelema elem, n => Lower.HasLog types elem n
  | staticField .load _, _ | staticField .store _, _ => True
  | _, n => n = 0

/-- Instructions whose code ends by going elsewhere. -/
def departs : Op → Bool
  | ret | br _ => true
  | _ => false

end Op

namespace Lower

variable {types : List TypeDef}

/-- The code of an instruction that goes on to the next one. -/
theorem yields_instruction (site : Site) (i : Instruction) (h : i.op.departs = false) :
    Yields types (fun lines => ∃ n, i.op.Reaches types n ∧ ∀ l ∈ lines, l.Fits n)
      (instruction site i) := by
  have hzero : ∀ {x : Lower (List Line)} {op : Op}, Limited types 0 x → op.Reaches types 0 →
      Yields types (fun lines => ∃ n, op.Reaches types n ∧ ∀ l ∈ lines, l.Fits n) x :=
    fun hx hop => hx.mono fun _ hlines => ⟨0, hop, hlines⟩
  have hany : ∀ {lines : List Line}, (∃ n, ∀ l ∈ lines, l.Fits n) →
      ∃ n, True ∧ ∀ l ∈ lines, l.Fits n := by
    rintro lines ⟨n, hlines⟩
    exact ⟨n, trivial, hlines⟩
  obtain ⟨offset, op⟩ := i
  cases op with
  | ret | br => cases h
  | nop => exact hzero (yields_pure (List.forall_mem_nil _)) rfl
  | load v => exact hzero (limited_loadSlot _ _) rfl
  | store v => exact hzero (limited_storeSlot _ _) rfl
  | address v => exact hzero (limited_slotAddress _ _ _) rfl
  | push l => exact hzero (limited_literalValue _ _) rfl
  | dup => exact hzero limited_duplicate rfl
  | pop => exact hzero (yields_pop.bind fun _ _ => yields_pure (List.forall_mem_nil _)) rfl
  | call m => exact hzero (limited_call _ _) rfl
  | brFalse t => exact hzero (limited_testBranch rfl _) rfl
  | brTrue t => exact hzero (limited_testBranch rfl _) rfl
  | brIf c t => exact hzero (limited_compareBranch _ _) rfl
  | ldind w => exact hzero (limited_loadIndirect _ _) rfl
  | stind w => exact hzero (limited_storeIndirect _ _) rfl
  | arith a => exact hzero (limited_arith a) rfl
  | neg => exact hzero ((yields_operand 0 0).bind fun r _ => limited_ins rfl (by simp)) rfl
  | not => exact hzero ((yields_operand 0 0).bind fun r _ => limited_ins rfl (by simp)) rfl
  | conv check k => exact hzero (limited_convert _ _) rfl
  | compare c => exact hzero (limited_compare _ _) rfl
  | field a f => exact hzero (limited_field _ _ _) rfl
  | staticField a f =>
    cases a with
    | load => exact (yields_loadStatic _ f).mono fun _ => hany
    | store => exact (yields_storeStatic f).mono fun _ => hany
    | address => exact hzero ((yields_staticField f).bind fun _ _ => limited_constant _ _ _) rfl
  | initobj t => exact hzero (limited_clear t) rfl
  | «sizeof» t => exact hzero ((yields_sizeOf t).bind fun _ _ => limited_constant _ _ _) rfl
  | newarr elem => exact yields_newArray _ elem
  | ldlen => exact hzero (limited_length _) rfl
  | ldelem w => exact hzero (limited_loadElement _ _) rfl
  | stelem w => exact hzero (limited_storeElement _ _) rfl
  | ldelema elem => exact yields_elementAddress _ elem
  | _ => exact yields_throw _

/-- No instruction takes storage back. -/
theorem grows_instruction (site : Site) (i : Instruction) :
    Yields types (fun _ => True) (instruction site i) := by
  cases h : i.op.departs with
  | false => exact (yields_instruction site i h).mono fun _ _ => trivial
  | true =>
    obtain ⟨offset, op⟩ := i
    cases op with
    | ret => exact yields_ret site
    | br t => exact yields_pure trivial
    | _ => cases h

end Lower

/-- Lines that end the code of a jump or return. The words that are handed back lie above the frame. -/
inductive Line.Ends (f : Frame) (top : Nat) : Line → Prop
  | remark (text : String) : Ends f top (.comment text)
  | jump (label : String) : Ends f top (.ins .jmp [.sym label])
  | halt : Ends f top (.ins .trap [.imm 0, .sym "Halt", .imm 0])
  | nothing : Ends f top (.ins .pop [.imm 0, .imm 0])
  | result : 0 < f.ret.words → f.stop + f.ret.words ≤ top →
      Ends f top (.ins .pop [.imm f.ret.words, .imm 0])

namespace Lower

variable {types : List TypeDef} {site : Site} {s t : LowerState} {code : List Line}

theorem ret_lines (h : ret site s = .ok (code, t)) : ∀ l ∈ code, l.Fits 0 ∨
    l.Ends site.frame (Shape.top s.stack.base (shape s.stack.elems)) := by
  obtain ⟨o, leave, remark, -, rfl, hremark, hleave⟩ := ret_ok h
  have hlink : ∀ l ∈ linkLines o, l.Fits 0 := by
    intro l hl
    cases o with
    | none => cases hl
    | some r =>
      obtain rfl := List.mem_singleton.mp hl
      exact .small rfl (by simp)
  intro l hl
  rcases List.mem_append.mp hl with hl | hl
  · rcases List.mem_append.mp hl with hl | hl
    · exact .inl (hlink l hl)
    · rcases hleave with ⟨-, rfl, -⟩ | ⟨-, hgive⟩
      · cases hhalts : site.halts with
        | true =>
          rw [hhalts] at hl
          rcases List.mem_cons.mp hl with rfl | hl
          · exact .inl (.small rfl (by simp))
          · obtain rfl := List.mem_singleton.mp hl
            exact .inr .halt
        | false =>
          rw [hhalts] at hl
          obtain rfl := List.mem_singleton.mp hl
          exact .inr .nothing
      · obtain ⟨first, others, e, rest, -, -, hpos, hle, rfl, hfirst, hothers⟩ := giveBack_ok hgive
        rcases List.mem_append.mp hl with hl | hl
        · rcases List.mem_append.mp hl with hl | hl
          · exact .inl (hfirst.fits l hl)
          · exact .inl (hothers.fits l hl)
        · obtain rfl := List.mem_singleton.mp hl
          exact .inr (.result hpos hle)
  · rw [hremark l hl]
    exact .inr (.remark _)

/-- The lines of any instruction. -/
theorem instruction_lines (hs : s.layout.Sound types) {i : Instruction}
    (h : instruction site i s = .ok (code, t)) :
    ∃ n, i.op.Reaches types n ∧ ∀ l ∈ code, l.Fits n ∨
      l.Ends site.frame (Shape.top s.stack.base (shape s.stack.elems)) := by
  cases hop : i.op.departs with
  | true =>
    obtain ⟨offset, op⟩ := i
    cases op with
    | ret => exact ⟨0, rfl, ret_lines h⟩
    | br target =>
      cases h
      exact ⟨0, rfl, List.forall_mem_singleton.mpr (.inr (.jump _))⟩
    | _ => cases hop
  | false =>
    obtain ⟨-, -, n, hreach, hfits⟩ := yields_instruction site i hop s hs code t h
    exact ⟨n, hreach, fun l hl => .inl (hfits l hl)⟩

end Lower

end CilMmix
