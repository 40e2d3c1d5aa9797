import CilMmix.Proofs.Lowering.Faults
import CilMmix.Proofs.Lowering.Steps

/-! What each instruction does to the operand stack. How many operands go and how many words come is
given by the instruction and the types, whatever the layout remembers; and no instruction faults with
a mismatch of shapes. -/

namespace CilMmix

namespace Lower

/-- A computation that takes operands off and gives a result with a property. -/
def Takes (types : List TypeDef) (takes : Nat) {α : Type} (P : α → Prop) (x : Lower α) : Prop :=
  ∀ s, s.layout.Sound types →
    Clean (x s) ∧ ∀ a t, x s = .ok (a, t) → t.layout.Sound types ∧
      OperandStack.Replaced takes 0 s.stack t.stack ∧ P a

/-- A computation that takes operands off and puts a value on; its words have a property. -/
def Gives (types : List TypeDef) (takes : Nat) (W : Nat → Prop) {α : Type} (x : Lower α) : Prop :=
  ∀ s, s.layout.Sound types →
    Clean (x s) ∧ ∀ a t, x s = .ok (a, t) → t.layout.Sound types ∧
      ∃ words, W words ∧ OperandStack.Replaced takes words s.stack t.stack

/-- A computation that leaves the operands alone. -/
abbrev Quiet (types : List TypeDef) {α : Type} (P : α → Prop) (x : Lower α) : Prop :=
  Takes types 0 P x

theorem Takes.bind {types : List TypeDef} {k l : Nat} {α β : Type} {P : α → Prop} {Q : β → Prop}
    {x : Lower α} {f : α → Lower β} (hx : Takes types k P x)
    (hf : ∀ a, P a → Takes types l Q (f a)) : Takes types (k + l) Q (x >>= f) := by
  intro s hs
  obtain ⟨hc, hx⟩ := hx s hs
  refine ⟨bind_clean hc fun a t ha => (hf a (hx a t ha).2.2 t (hx a t ha).1).1, fun b u h => ?_⟩
  obtain ⟨a, t, ha, hb⟩ := bind_ok.mp h
  obtain ⟨ht, hr, hp⟩ := hx a t ha
  obtain ⟨hu, hr', hq⟩ := (hf a hp t ht).2 b u hb
  exact ⟨hu, hr.trans hr', hq⟩

theorem Takes.bind_gives {types : List TypeDef} {k l : Nat} {α β : Type} {P : α → Prop}
    {W : Nat → Prop} {x : Lower α} {f : α → Lower β} (hx : Takes types k P x)
    (hf : ∀ a, P a → Gives types l W (f a)) : Gives types (k + l) W (x >>= f) := by
  intro s hs
  obtain ⟨hc, hx⟩ := hx s hs
  refine ⟨bind_clean hc fun a t ha => (hf a (hx a t ha).2.2 t (hx a t ha).1).1, fun b u h => ?_⟩
  obtain ⟨a, t, ha, hb⟩ := bind_ok.mp h
  obtain ⟨ht, hr, hp⟩ := hx a t ha
  obtain ⟨hu, words, hw, hr'⟩ := (hf a hp t ht).2 b u hb
  exact ⟨hu, words, hw, hr.trans hr'⟩

theorem Takes.mono {types : List TypeDef} {k : Nat} {α : Type} {P Q : α → Prop} {x : Lower α}
    (hx : Takes types k P x) (h : ∀ a, P a → Q a) : Takes types k Q x := by
  intro s hs
  obtain ⟨hc, hx⟩ := hx s hs
  refine ⟨hc, fun a t ha => ?_⟩
  obtain ⟨ht, hr, hp⟩ := hx a t ha
  exact ⟨ht, hr, h a hp⟩

theorem Takes.gives {types : List TypeDef} {k : Nat} {α : Type} {P : α → Prop} {x : Lower α}
    (hx : Takes types k P x) : Gives types k (· = 0) x := by
  intro s hs
  obtain ⟨hc, hx⟩ := hx s hs
  refine ⟨hc, fun a t ha => ?_⟩
  obtain ⟨ht, hr, -⟩ := hx a t ha
  exact ⟨ht, 0, rfl, hr⟩

/-- What comes after the value is on the stack may only look at it. -/
theorem Gives.bind {types : List TypeDef} {k : Nat} {W : Nat → Prop} {α β : Type} {Q : β → Prop}
    {x : Lower α} {f : α → Lower β} (hx : Gives types k W x) (hf : ∀ a, Quiet types Q (f a)) :
    Gives types k W (x >>= f) := by
  intro s hs
  obtain ⟨hc, hx⟩ := hx s hs
  refine ⟨bind_clean hc fun a t ha => (hf a t (hx a t ha).1).1, fun b u h => ?_⟩
  obtain ⟨a, t, ha, hb⟩ := bind_ok.mp h
  obtain ⟨ht, words, hw, hr⟩ := hx a t ha
  obtain ⟨hu, hr', -⟩ := (hf a t ht).2 b u hb
  exact ⟨hu, words, hw, hr'.eq_of_zero ▸ hr⟩

theorem Quiet.then {types : List TypeDef} {l : Nat} {α β : Type} {P : α → Prop} {W : Nat → Prop}
    {x : Lower α} {f : α → Lower β} (hx : Quiet types P x)
    (hf : ∀ a, P a → Gives types l W (f a)) : Gives types l W (x >>= f) := by
  simpa only [Nat.zero_add] using hx.bind_gives hf

theorem Quiet.bind {types : List TypeDef} {α β : Type} {P : α → Prop} {Q : β → Prop}
    {x : Lower α} {f : α → Lower β} (hx : Quiet types P x)
    (hf : ∀ a, P a → Quiet types Q (f a)) : Quiet types Q (x >>= f) := Takes.bind hx hf

theorem quiet_pure {types : List TypeDef} {α : Type} {P : α → Prop} {a : α} (ha : P a) :
    Quiet types P (pure a) := by
  intro s hs
  refine ⟨nofun, fun b t h => ?_⟩
  obtain ⟨rfl, rfl⟩ := pure_ok.mp h
  exact ⟨hs, .refl _, ha⟩

theorem quiet_lift {types : List TypeDef} {α : Type} {x : Except Fault α} (hx : Clean x) :
    Quiet types (fun a => x = .ok a) (liftM x : Lower α) := by
  intro s hs
  refine ⟨lift_throws hx s, fun b t h => ?_⟩
  obtain ⟨hb, rfl⟩ := lift_ok.mp h
  exact ⟨hs, .refl _, hb⟩

theorem quiet_get {types : List TypeDef} :
    Quiet types (fun s : LowerState => s.layout.Sound types) get := by
  intro s hs
  refine ⟨nofun, fun b t h => ?_⟩
  obtain ⟨rfl, rfl⟩ := get_ok.mp h
  exact ⟨hs, .refl _, hs⟩

theorem quiet_mapM {types : List TypeDef} {α β : Type} {f : α → Lower β} {l : List α}
    (hf : ∀ a, Quiet types (fun _ => True) (f a)) : Quiet types (fun _ => True) (l.mapM f) := by
  induction l with
  | nil => exact quiet_pure trivial
  | cons a l ih =>
    rw [List.mapM_cons]
    exact (hf a).bind fun _ _ => ih.bind fun _ _ => quiet_pure trivial

theorem quiet_sizeOf (types : List TypeDef) (ty : TypeRef) :
    Quiet types (HasSize types ty) (sizeOf ty) := by
  intro s hs
  obtain ⟨hn, hok, hf⟩ := hs.sizeOf ty
  unfold sizeOf
  constructor
  · split
    · exact .ok _
    · rename_i fault layout he
      rw [he] at hf
      exact .error (hf fault rfl)
  · intro size t h
    split at h
    · rename_i layout he
      rw [he] at hn hok
      cases h
      exact ⟨hn, .refl _, hok size rfl⟩
    · cases h

theorem quiet_fieldOffset (types : List TypeDef) (f : FieldRef) :
    Quiet types (fun _ => True) (fieldOffset f) := by
  intro s hs
  obtain ⟨hn, hf⟩ := hs.fieldOffset f
  unfold fieldOffset
  constructor
  · split
    · exact .ok _
    · rename_i fault layout he
      rw [he] at hf
      exact .error (hf fault rfl)
  · intro size t h
    split at h
    · rename_i layout he
      rw [he] at hn
      cases h
      exact ⟨hn, .refl _, trivial⟩
    · cases h

/-- The declaration of a field is found in the types. -/
def FieldHasType (types : List TypeDef) (f : FieldRef) (ty : TypeRef) : Prop :=
  ∃ d, Layout.resolveField { types } f = .ok d ∧ d.ty = ty

theorem quiet_fieldType (types : List TypeDef) (f : FieldRef) :
    Quiet types (FieldHasType types f) (fieldType f) := by
  refine quiet_get.bind fun s hs => ?_
  refine (quiet_lift fun _ => Layout.resolveField_fault).bind fun d hd => quiet_pure ?_
  exact ⟨d, hs.resolveField f ▸ hd, rfl⟩

theorem quiet_literal (types : List TypeDef) (text : String) :
    Quiet types (fun _ => True) (literal text) := by
  intro s hs
  refine ⟨nofun, fun a t h => ?_⟩
  cases h
  exact ⟨hs, .refl _, trivial⟩

theorem quiet_staticField (types : List TypeDef) (f : FieldRef) :
    Quiet types (fun _ => True) (staticField f) := by
  refine (quiet_fieldType types f).bind fun ty _ => (quiet_sizeOf types ty).bind fun size _ => ?_
  intro s hs
  refine ⟨nofun, fun a t h => ?_⟩
  cases h
  exact ⟨hs, .refl _, trivial⟩

theorem quiet_operand (types : List TypeDef) (index word : Nat) :
    Quiet types (fun _ => True) (operand index word) := by
  refine quiet_get.bind fun s _ => ?_
  have hc : Clean (s.stack.reg index word) :=
    .bind (s.stack.peek_throws index).clean fun _ => (Reg.ofIndex_throws _).clean
  exact Takes.mono (quiet_lift hc) fun _ _ => trivial

theorem quiet_peek (types : List TypeDef) (index : Nat) :
    Quiet types (fun _ => True) (peek index) := by
  refine quiet_get.bind fun s _ => ?_
  exact Takes.mono (quiet_lift (s.stack.peek_throws index).clean) fun _ _ => trivial

theorem quiet_top (types : List TypeDef) : Quiet types (fun _ => True) top :=
  quiet_get.bind fun _ _ => quiet_pure trivial

theorem takes_pop (types : List TypeDef) : Takes types 1 (fun _ => True) pop := by
  intro s hs
  constructor
  · exact (s.stack.pop_throws.bind fun _ => .pure _).clean
  · intro r t h
    simp only [pop, bind_eq_ok, pure_eq_ok, Prod.exists, Prod.mk.injEq] at h
    obtain ⟨_, _, stack, hp, -, rfl⟩ := h
    exact ⟨hs, .of_pop hp, trivial⟩

theorem pop_then {types : List TypeDef} {l : Nat} {β : Type} {W : Nat → Prop}
    {f : Reg → Lower β} (hf : ∀ r, Gives types l W (f r)) : Gives types (l + 1) W (pop >>= f) := by
  simpa only [Nat.add_comm] using (takes_pop types).bind_gives fun r _ => hf r

theorem gives_pushSized (types : List TypeDef) (ty : TypeRef) (size : Size)
    (origin : Option String) : Gives types 0 (· = size.words) (pushSized ty size origin) := by
  intro s hs
  constructor
  · exact ((s.stack.push_throws ty size origin).bind fun _ => .pure _).clean
  · intro u t h
    simp only [pushSized, bind_eq_ok, pure_eq_ok, Prod.mk.injEq] at h
    obtain ⟨stack, hp, -, rfl⟩ := h
    exact ⟨hs, size.words, rfl, .of_push hp⟩

theorem Gives.mono {types : List TypeDef} {k : Nat} {W W' : Nat → Prop} {α : Type} {x : Lower α}
    (hx : Gives types k W x) (h : ∀ words, W words → W' words) : Gives types k W' x := by
  intro s hs
  obtain ⟨hc, hx⟩ := hx s hs
  refine ⟨hc, fun a t ha => ?_⟩
  obtain ⟨ht, words, hw, hr⟩ := hx a t ha
  exact ⟨ht, words, h words hw, hr⟩

theorem gives_push (types : List TypeDef) (origin : String) (ty : TypeRef) :
    Gives types 0 (HasWords types ty) (push origin ty) := by
  refine (quiet_sizeOf types ty).then fun size hsize => ?_
  exact (gives_pushSized types ty size (some origin)).mono fun words hw => ⟨size, hsize, hw.symm⟩

theorem push_then {types : List TypeDef} {origin : String} {ty : TypeRef} {β : Type}
    {f : Unit → Lower β} (hf : ∀ u, Quiet types (fun _ => True) (f u)) :
    Gives types 0 (HasWords types ty) (push origin ty >>= f) :=
  (gives_push types origin ty).bind hf

theorem gives_constant (types : List TypeDef) (origin : String) (ty : TypeRef) (value : UInt64) :
    Gives types 0 (HasWords types ty) (constant origin ty value) :=
  push_then fun _ => (quiet_operand types 0 0).bind fun _ _ => quiet_pure trivial

theorem gives_loadSlot (types : List TypeDef) (b : Block) (index : Nat) :
    Gives types 0 (fun words => ∃ e, b.elems[index]? = some e ∧ words = e.size.words)
      (loadSlot b index) := by
  refine (quiet_lift (b.elem_throws index).clean).then fun e he => ?_
  refine ((gives_pushSized types e.ty e.size e.origin).mono ?_).bind fun _ => quiet_mapM fun word => ?_
  · rintro words rfl
    refine ⟨e, ?_, rfl⟩
    unfold Block.elem at he
    split at he
    · cases he
      assumption
    · cases he
  · refine (quiet_operand types 0 word).bind fun _ _ => ?_
    exact (quiet_lift (b.reg_throws index word).clean).bind fun _ _ => quiet_pure trivial

theorem gives_nothing {types : List TypeDef} {α : Type} (a : α) :
    Gives types 0 (· = 0) (pure a : Lower α) := (quiet_pure trivial : Quiet types (fun _ => True) _).gives

theorem gives_throw {types : List TypeDef} {k : Nat} {W : Nat → Prop} {α : Type} {fault : Fault}
    (h : ¬ fault.OfFlow) : Gives types k W (throw fault : Lower α) := by
  intro s hs
  refine ⟨fun fault' he => ?_, nofun⟩
  cases he
  exact h

theorem gives_storeSlot (types : List TypeDef) (b : Block) (index : Nat) :
    Gives types 1 (· = 0) (storeSlot b index) := by
  refine (quiet_lift (b.elem_throws index).clean).then fun e _ => ?_
  refine (quiet_mapM fun word => ?_).then fun _ _ => pop_then fun _ => gives_nothing _
  refine (quiet_lift (b.reg_throws index word).clean).bind fun _ _ => ?_
  exact (quiet_operand types 0 word).bind fun _ _ => quiet_pure trivial

theorem gives_slotAddress (types : List TypeDef) (origin : String) (b : Block) (index : Nat) :
    Gives types 0 (HasWords types (.primitive .nativeUInt)) (slotAddress origin b index) := by
  refine (quiet_lift (b.elem_throws index).clean).then fun e _ => push_then fun _ => ?_
  refine (quiet_operand types 0 0).bind fun r _ => (quiet_top types).bind fun n _ => ?_
  exact (quiet_lift (addNumber_throws r _ n).clean).bind fun _ _ => quiet_pure trivial

theorem gives_binary (types : List TypeDef) (code : Opcode) :
    Gives types 1 (· = 0) (binary code) := by
  refine (quiet_operand types 1 0).then fun a _ => (quiet_operand types 0 0).then fun b _ => ?_
  exact pop_then fun _ => gives_nothing _

theorem gives_arith (types : List TypeDef) (a : Arith) : Gives types 1 (· = 0) (arith a) := by
  have hrem (divide : Opcode) : Gives types 1 (· = 0) (remainder divide) := by
    refine (quiet_operand types 1 0).then fun a _ => ?_
    exact (gives_binary types divide).bind fun _ => (quiet_pure trivial : Quiet types (fun _ => True) _)
  cases a with
  | rem => exact hrem .div
  | remUn => exact hrem .divu
  | _ => exact gives_binary types _

theorem gives_negate (types : List TypeDef) : Gives types 0 (· = 0) negate :=
  (quiet_operand types 0 0).then fun _ _ => gives_nothing _

theorem gives_complement (types : List TypeDef) : Gives types 0 (· = 0) complement :=
  (quiet_operand types 0 0).then fun _ _ => gives_nothing _

theorem gives_compare (types : List TypeDef) (origin : String) (c : Comparison) :
    Gives types 2 (HasWords types (.primitive .bool)) (compare origin c) := by
  refine (quiet_operand types 1 0).then fun a _ => (quiet_operand types 0 0).then fun b _ => ?_
  exact pop_then fun _ => pop_then fun _ => push_then fun _ => quiet_pure trivial

theorem gives_compareBranch (types : List TypeDef) (c : Condition) (label : String) :
    Gives types 2 (· = 0) (compareBranch c label) := by
  refine (quiet_operand types 1 0).then fun a _ => (quiet_operand types 0 0).then fun b _ => ?_
  exact pop_then fun _ => pop_then fun _ => gives_nothing _

theorem gives_testBranch (types : List TypeDef) (code : Opcode) (label : String) :
    Gives types 1 (· = 0) (testBranch code label) :=
  (quiet_operand types 0 0).then fun _ _ => pop_then fun _ => gives_nothing _

theorem gives_convert (types : List TypeDef) (i : Instruction) (k : Conversion) :
    Gives types 1 (fun words => ∃ p, k.target? = some p ∧ HasWords types (.primitive p) words)
      (convert i k) := by
  unfold convert
  split
  · exact gives_throw id
  · rename_i p hp
    refine pop_then fun _ => (push_then fun _ => quiet_pure trivial).mono fun words hw => ?_
    exact ⟨p, hp, hw⟩

theorem gives_supported {types : List TypeDef} {i : Instruction} {k : Nat} {α β : Type} {W : Nat → Prop}
    {o : Option α} {f : α → Lower β} (hf : ∀ a, o = some a → Gives types k W (f a)) :
    Gives types k W (supported i o >>= f) := by
  cases o with
  | none => exact gives_throw id
  | some a => exact (quiet_pure rfl : Quiet types (fun b => a = b) _).then fun b hb => hf b (by rw [hb])

theorem gives_loadIndirect (types : List TypeDef) (i : Instruction) (w : Width) :
    Gives types 1 (fun words => ∃ ty, w.loaded? = some ty ∧ HasWords types ty words)
      (loadIndirect i w) := by
  refine gives_supported fun code _ => gives_supported fun ty hty => pop_then fun _ => ?_
  refine (push_then fun _ => ?_).mono fun words hw => ⟨ty, hty, hw⟩
  exact (quiet_operand types 0 0).bind fun _ _ => quiet_pure trivial

theorem gives_storeIndirect (types : List TypeDef) (i : Instruction) (w : Width) :
    Gives types 2 (· = 0) (storeIndirect i w) :=
  gives_supported fun _ _ => pop_then fun _ => pop_then fun _ => gives_nothing _

theorem gives_loadString (types : List TypeDef) (origin : String) (text : String) :
    Gives types 0 (HasWords types .string) (loadString origin text) := by
  refine (quiet_literal types text).then fun a _ => push_then fun _ => ?_
  refine (quiet_operand types 0 0).bind fun _ _ => ?_
  exact (quiet_operand types 0 1).bind fun _ _ => quiet_pure trivial

theorem gives_loadField (types : List TypeDef) (origin : String) (f : FieldRef) :
    Gives types 1 (fun words => ∃ ty, FieldHasType types f ty ∧ HasWords types ty words)
      (loadField origin f) := by
  refine (quiet_fieldType types f).then fun ty hty => (quiet_fieldOffset types f).then fun offset _ => ?_
  refine (quiet_peek types 0).then fun object _ => pop_then fun source => ?_
  refine (push_then fun _ => ?_).mono fun words hw => ⟨ty, hty, hw⟩
  refine (quiet_peek types 0).bind fun e _ => quiet_get.bind fun s _ => ?_
  split
  · exact Takes.mono (quiet_lift (copyWords_throws _ _ _).clean) fun _ _ => trivial
  · refine (quiet_top types).bind fun scratch _ => (quiet_mapM fun word => ?_).bind fun _ _ => quiet_pure trivial
    refine (quiet_operand types 0 word).bind fun into _ => ?_
    exact Takes.mono (quiet_lift (accessAt_throws _ _ _ _ _).clean) fun _ _ => trivial

theorem gives_storeField (types : List TypeDef) (f : FieldRef) :
    Gives types 2 (· = 0) (storeField f) := by
  refine (quiet_fieldOffset types f).then fun offset _ => (quiet_operand types 1 0).then fun target _ => ?_
  refine (quiet_peek types 0).then fun e _ => (quiet_top types).then fun scratch _ => ?_
  refine (quiet_mapM fun word => ?_).then fun _ _ => pop_then fun _ => pop_then fun _ => gives_nothing _
  refine (quiet_operand types 0 word).bind fun value _ => ?_
  exact Takes.mono (quiet_lift (accessAt_throws _ _ _ _ _).clean) fun _ _ => trivial

theorem gives_fieldAddress (types : List TypeDef) (origin : String) (f : FieldRef) :
    Gives types 1 (fun words => ∃ ty, FieldHasType types f ty ∧ HasWords types (.byRef ty) words)
      (fieldAddress origin f) := by
  refine (quiet_fieldOffset types f).then fun offset _ => (quiet_fieldType types f).then fun ty hty => ?_
  refine (quiet_top types).then fun scratch _ => pop_then fun object => ?_
  refine (push_then fun _ => ?_).mono fun words hw => ⟨ty, hty, hw⟩
  exact Takes.mono (quiet_lift (addNumber_throws _ _ _).clean) fun _ _ => trivial

theorem gives_loadStatic (types : List TypeDef) (origin : String) (f : FieldRef) :
    Gives types 0 (fun words => ∃ ty, FieldHasType types f ty ∧ HasWords types ty words)
      (loadStatic origin f) := by
  refine (quiet_staticField types f).then fun a _ => (quiet_fieldType types f).then fun ty hty => ?_
  refine (quiet_top types).then fun n _ => (quiet_lift (Reg.ofIndex_throws n).clean).then fun address _ => ?_
  refine (push_then fun _ => ?_).mono fun words hw => ⟨ty, hty, hw⟩
  refine (quiet_peek types 0).bind fun e _ => (quiet_mapM fun word => ?_).bind fun _ _ => quiet_pure trivial
  exact (quiet_operand types 0 word).bind fun _ _ => quiet_pure trivial

theorem gives_storeStatic (types : List TypeDef) (f : FieldRef) :
    Gives types 1 (· = 0) (storeStatic f) := by
  refine (quiet_staticField types f).then fun a _ => (quiet_top types).then fun n _ => ?_
  refine (quiet_lift (Reg.ofIndex_throws n).clean).then fun address _ => (quiet_peek types 0).then fun e _ => ?_
  refine (quiet_mapM fun word => ?_).then fun _ _ => pop_then fun _ => gives_nothing _
  exact (quiet_operand types 0 word).bind fun _ _ => quiet_pure trivial

theorem gives_clear (types : List TypeDef) (ty : TypeRef) : Gives types 1 (· = 0) (clear ty) := by
  refine (quiet_sizeOf types ty).then fun size _ => (quiet_top types).then fun scratch _ => ?_
  refine pop_then fun address => (quiet_mapM fun word => ?_).then fun _ _ => gives_nothing _
  exact Takes.mono (quiet_lift (accessAt_throws _ _ _ _ _).clean) fun _ _ => trivial

theorem gives_newArray (types : List TypeDef) (origin : String) (elem : TypeRef) :
    Gives types 1 (HasWords types (.array elem)) (newArray origin elem) := by
  refine (quiet_sizeOf types elem).then fun size _ => pop_then fun count => ?_
  refine (quiet_lift (Reg.ofIndex_throws _).clean).then fun data _ => ?_
  refine (quiet_lift (Reg.ofIndex_throws _).clean).then fun bytes _ => ?_
  refine (quiet_lift (scale_throws _ _ _).clean).then fun scaling _ => ?_
  exact push_then fun _ => quiet_pure trivial

theorem gives_length (types : List TypeDef) (origin : String) :
    Gives types 1 (HasWords types (.primitive .uint64)) (length origin) :=
  pop_then fun _ => push_then fun _ => quiet_pure trivial

theorem gives_loadElement (types : List TypeDef) (i : Instruction) (w : Width) :
    Gives types 2 (fun words => ∃ ty, w.loaded? = some ty ∧ HasWords types ty words)
      (loadElement i w) := by
  refine gives_supported fun code _ => gives_supported fun ty hty => (quiet_top types).then fun n _ => ?_
  refine pop_then fun index => pop_then fun array => ?_
  refine (push_then fun _ => ?_).mono fun words hw => ⟨ty, hty, hw⟩
  refine (quiet_operand types 0 0).bind fun into _ => ?_
  exact (quiet_lift (scale_throws _ _ _).clean).bind fun _ _ => quiet_pure trivial

theorem gives_storeElement (types : List TypeDef) (i : Instruction) (w : Width) :
    Gives types 3 (· = 0) (storeElement i w) := by
  refine gives_supported fun code _ => (quiet_top types).then fun n _ => ?_
  refine pop_then fun value => pop_then fun index => pop_then fun array => ?_
  exact (quiet_lift (scale_throws _ _ _).clean).then fun _ _ => gives_nothing _

theorem gives_elementAddress (types : List TypeDef) (origin : String) (elem : TypeRef) :
    Gives types 2 (HasWords types (.byRef elem)) (elementAddress origin elem) := by
  refine (quiet_sizeOf types elem).then fun size _ => (quiet_top types).then fun n _ => ?_
  refine pop_then fun index => pop_then fun array => push_then fun _ => ?_
  refine (quiet_operand types 0 0).bind fun into _ => ?_
  exact (quiet_lift (scale_throws _ _ _).clean).bind fun _ _ => quiet_pure trivial

theorem takes_pops (types : List TypeDef) {α : Type} (l : List α) :
    Takes types l.length (fun _ => True) (l.forM fun _ => discard pop : Lower PUnit) := by
  induction l with
  | nil => exact quiet_pure trivial
  | cons a l ih =>
    have hpop : Takes types 1 (fun _ => True) (discard pop : Lower PUnit) := by
      exact (takes_pop types).bind fun _ _ => quiet_pure trivial
    have h := hpop.bind fun _ _ => ih
    rw [Nat.add_comm] at h
    exact h

theorem gives_call (types : List TypeDef) (origin : String) (m : MethodRef) :
    Gives types m.params.length (HasWords types m.ret) (call origin m) := by
  refine (quiet_top types).then fun stop _ => ?_
  refine (takes_pops types m.params).bind_gives (l := 0) fun _ _ => (quiet_top types).then fun base _ => ?_
  refine (quiet_lift (copyWords_throws _ _ _).clean).then fun moves _ => ?_
  exact (quiet_lift (Reg.ofIndex_throws base).clean).then fun hole _ => push_then fun _ => quiet_pure trivial

theorem gives_giveBack (types : List TypeDef) (f : Frame) : Gives types 1 (· = 0) (giveBack f) := by
  refine (quiet_top types).then fun stop _ => ?_
  split
  · exact gives_throw id
  split
  · exact gives_throw id
  refine (quiet_lift (copyWords_throws _ _ _).clean).then fun first _ => ?_
  refine (quiet_lift (copyWords_throws _ _ _).clean).then fun others _ => ?_
  exact pop_then fun _ => gives_nothing _

theorem gives_ret (types : List TypeDef) (site : Site) :
    Gives types (if site.frame.ret.elems.isEmpty then 0 else 1) (· = 0) (ret site) := by
  refine (quiet_lift site.frame.backupReg_throws.clean).then fun r _ => ?_
  have hend (f : LowerState → List Line) : Quiet types (fun _ => True) (do return f (← get)) :=
    quiet_get.bind fun _ _ => quiet_pure trivial
  dsimp only
  split
  · exact (gives_nothing _).bind fun _ => hend _
  · exact (gives_giveBack types site.frame).bind fun _ => hend _

theorem gives_duplicate (types : List TypeDef) {s : LowerState} (hs : s.layout.Sound types) :
    Clean (duplicate s) ∧ ∀ lines t, duplicate s = .ok (lines, t) → t.layout.Sound types ∧
      ∃ words, (∃ offset, (shape s.stack.elems).head? = some (offset, words)) ∧
        OperandStack.Replaced 0 words s.stack t.stack := by
  constructor
  · have h : Gives types 0 (fun _ => True) duplicate := by
      refine (quiet_peek types 0).then fun e _ => (quiet_lift (copyWords_throws _ _ _).clean).then fun _ _ => ?_
      refine Gives.bind (Q := fun _ => True) ?_ fun _ => quiet_pure trivial
      exact (gives_pushSized types e.ty e.size e.origin).mono fun _ _ => trivial
    exact (h s hs).1
  · intro lines t h
    obtain ⟨e, s', hpeek, hcopy⟩ := bind_ok.mp h
    obtain ⟨he, rfl⟩ := peek_ok.mp hpeek
    have hrest : Gives types 0 (· = e.size.words) (do
        let lines ← (copyWords e.offset e.stop e.size.words).complete
        pushSized e.ty e.size e.origin
        return lines) := by
      refine (quiet_lift (copyWords_throws _ _ _).clean).then fun _ _ => ?_
      exact Gives.bind (Q := fun _ => True) (gives_pushSized types e.ty e.size e.origin) fun _ =>
        quiet_pure trivial
    obtain ⟨ht, words, rfl, hr⟩ := (hrest s' hs).2 lines t hcopy
    refine ⟨ht, e.size.words, ⟨e.offset, ?_⟩, hr⟩
    rw [List.head?_eq_getElem?, shape, List.getElem?_map, he]
    rfl

end Lower

namespace Op

/-- The operands that an instruction takes off the stack. An operation on two numbers leaves its
result in the place of the lower one, which stays. -/
def takes (f : Frame) : Op → Nat
  | store _ | pop | brFalse _ | brTrue _ | ldind _ | arith _ | conv _ _ | field .load _
  | field .address _ | staticField .store _ | initobj _ | newarr _ | ldlen => 1
  | brIf _ _ | stind _ | compare _ | field .store _ | ldelem _ | ldelema _ => 2
  | stelem _ => 3
  | call m => m.params.length
  | ret => if f.ret.elems.isEmpty then 0 else 1
  | _ => 0

/-- The type of the value that an instruction puts on the stack, `void` if it puts none. What the
loads of variables and `dup` put there is given by the value itself. -/
def Results (types : List TypeDef) : Op → TypeRef → Prop
  | address _, ty | push .null, ty | staticField .address _, ty => ty = .primitive .nativeUInt
  | push (.int32 _), ty => ty = .primitive .int32
  | push (.int64 _), ty => ty = .primitive .int64
  | push (.str _), ty => ty = .string
  | call m, ty => ty = m.ret
  | ldind w, ty | ldelem w, ty => w.loaded? = some ty
  | conv _ k, ty => ∃ p, k.target? = some p ∧ ty = .primitive p
  | compare _, ty => ty = .primitive .bool
  | field .load f, ty | staticField .load f, ty => Lower.FieldHasType types f ty
  | field .address f, ty => ∃ inner, Lower.FieldHasType types f inner ∧ ty = .byRef inner
  | sizeof _, ty | ldlen, ty => ty = .primitive .uint64
  | newarr elem, ty => ty = .array elem
  | ldelema elem, ty => ty = .byRef elem
  | nop, ty | store _, ty | pop, ty | ret, ty | br _, ty | brFalse _, ty | brTrue _, ty | brIf _ _, ty
  | stind _, ty | arith _, ty | neg, ty | not, ty | field .store _, ty | staticField .store _, ty
  | initobj _, ty | stelem _, ty => ty = .void
  | _, _ => False

/-- The words that an instruction puts on the stack. -/
def Leaves (types : List TypeDef) (f : Frame) (before : Shape) : Op → Nat → Prop
  | load v, words =>
    ∃ e, (v.slot f).1.elems[(v.slot f).2]? = some e ∧ words = e.size.words
  | dup, words => ∃ offset, before.head? = some (offset, words)
  | op, words => ∃ ty, op.Results types ty ∧ HasWords types ty words

end Op

namespace Lower

theorem Gives.nothing {types : List TypeDef} {k : Nat} {α : Type} {x : Lower α} {P : TypeRef → Prop}
    (hx : Gives types k (· = 0) x) (hv : P .void) :
    Gives types k (fun words => ∃ ty, P ty ∧ HasWords types ty words) x :=
  hx.mono fun _ hw => ⟨.void, hv, .zero, .primitive .void, hw.symm⟩

theorem gives_field (types : List TypeDef) (f : Frame) (before : Shape) (origin : String)
    (r : FieldRef) (a : FieldAccess) :
    Gives types ((Op.field a r).takes f) ((Op.field a r).Leaves types f before) (field origin r a) := by
  cases a with
  | load => exact gives_loadField types origin r
  | store => exact (gives_storeField types r).nothing rfl
  | address =>
    refine (gives_fieldAddress types origin r).mono ?_
    rintro words ⟨ty, hty, hw⟩
    exact ⟨.byRef ty, ⟨ty, hty, rfl⟩, hw⟩

theorem gives_static (types : List TypeDef) (f : Frame) (before : Shape) (origin : String)
    (r : FieldRef) (a : FieldAccess) : Gives types ((Op.staticField a r).takes f)
      ((Op.staticField a r).Leaves types f before) (static origin r a) := by
  cases a with
  | load => exact gives_loadStatic types origin r
  | store => exact (gives_storeStatic types r).nothing rfl
  | address =>
    refine (quiet_staticField types r).then fun a _ => (gives_constant types origin _ _).mono ?_
    exact fun words hw => ⟨_, rfl, hw⟩

theorem gives_literalValue (types : List TypeDef) (f : Frame) (before : Shape) (i : Instruction)
    (l : Literal) : Gives types 0 ((Op.push l).Leaves types f before) (literalValue i l) := by
  cases l with
  | null | int32 | int64 => exact (gives_constant types _ _ _).mono fun words hw => ⟨_, rfl, hw⟩
  | str text => exact (gives_loadString types _ text).mono fun words hw => ⟨_, rfl, hw⟩
  | real32 | real64 => exact gives_throw id

/-- What an instruction does to the operands, when there is code for it. -/
theorem instruction_effect {types : List TypeDef} (site : Site) (i : Instruction) {s : LowerState}
    (hs : s.layout.Sound types) :
    Clean (instruction site i s) ∧ ∀ lines t, instruction site i s = .ok (lines, t) →
      t.layout.Sound types ∧
      ∃ words, i.op.Leaves types site.frame (shape s.stack.elems) words ∧
        OperandStack.Replaced (i.op.takes site.frame) words s.stack t.stack := by
  obtain ⟨offset, op⟩ := i
  by_cases hdup : op = .dup
  · subst hdup
    exact gives_duplicate types hs
  · suffices h : Gives types (op.takes site.frame)
        (op.Leaves types site.frame (shape s.stack.elems)) (instruction site ⟨offset, op⟩) from h s hs
    cases op with
    | dup => exact absurd rfl hdup
    | nop | br => exact (gives_nothing _).nothing rfl
    | load v => exact gives_loadSlot types _ _
    | store v => exact (gives_storeSlot types _ _).nothing rfl
    | address v => exact (gives_slotAddress types _ _ _).mono fun words hw => ⟨_, rfl, hw⟩
    | push l => exact gives_literalValue types site.frame _ _ l
    | pop => exact (pop_then fun _ => gives_nothing _).nothing rfl
    | call m => exact (gives_call types _ m).mono fun words hw => ⟨_, rfl, hw⟩
    | ret => exact (gives_ret types site).nothing rfl
    | brFalse | brTrue => exact (gives_testBranch types _ _).nothing rfl
    | brIf c t => exact (gives_compareBranch types c _).nothing rfl
    | ldind w => exact gives_loadIndirect types _ w
    | stind w => exact (gives_storeIndirect types _ w).nothing rfl
    | arith a => exact (gives_arith types a).nothing rfl
    | neg => exact (gives_negate types).nothing rfl
    | not => exact (gives_complement types).nothing rfl
    | conv check k =>
      refine (gives_convert types _ k).mono ?_
      rintro words ⟨p, hp, hw⟩
      exact ⟨.primitive p, ⟨p, hp, rfl⟩, hw⟩
    | compare c => exact (gives_compare types _ c).mono fun words hw => ⟨_, rfl, hw⟩
    | field a f => exact gives_field types site.frame _ _ f a
    | staticField a f => exact gives_static types site.frame _ _ f a
    | initobj t => exact (gives_clear types t).nothing rfl
    | «sizeof» t =>
      refine (quiet_sizeOf types t).then fun size _ => (gives_constant types _ _ _).mono ?_
      exact fun words hw => ⟨_, rfl, hw⟩
    | newarr elem => exact (gives_newArray types _ elem).mono fun words hw => ⟨_, rfl, hw⟩
    | ldlen => exact (gives_length types _).mono fun words hw => ⟨_, rfl, hw⟩
    | ldelem w => exact gives_loadElement types _ w
    | stelem w => exact (gives_storeElement types _ w).nothing rfl
    | ldelema elem => exact (gives_elementAddress types _ elem).mono fun words hw => ⟨_, rfl, hw⟩
    | _ => exact gives_throw id

end Lower

theorem Lower.FieldHasType.unique {types : List TypeDef} {f : FieldRef} {a b : TypeRef}
    (ha : FieldHasType types f a) (hb : FieldHasType types f b) : a = b := by
  obtain ⟨d, hd, rfl⟩ := ha
  obtain ⟨e, he, rfl⟩ := hb
  cases hd.symm.trans he
  rfl

theorem Op.Results.unique {types : List TypeDef} {op : Op} {a b : TypeRef} (ha : op.Results types a)
    (hb : op.Results types b) : a = b := by
  cases op with
  | push l => cases l <;> simp_all [Results]
  | ldind w | ldelem w => exact Option.some.inj (ha.symm.trans hb)
  | conv check k =>
    obtain ⟨p, hp, rfl⟩ := ha
    obtain ⟨q, hq, rfl⟩ := hb
    rw [Option.some.inj (hp.symm.trans hq)]
  | field access f =>
    cases access with
    | load => exact Lower.FieldHasType.unique ha hb
    | store => exact Eq.trans ha hb.symm
    | address =>
      obtain ⟨p, hp, rfl⟩ := ha
      obtain ⟨q, hq, rfl⟩ := hb
      rw [hp.unique hq]
  | staticField access f =>
    cases access with
    | load => exact Lower.FieldHasType.unique ha hb
    | store | address => exact Eq.trans ha hb.symm
  | address | call | compare | «sizeof» | ldlen | newarr | ldelema | nop | store | pop | ret | br
  | brFalse | brTrue | brIf | stind | arith | neg | not | initobj | stelem => exact Eq.trans ha hb.symm
  | _ => exact ha.elim

theorem Op.Leaves.unique {types : List TypeDef} {f : Frame} {before : Shape} {op : Op} {a b : Nat}
    (ha : op.Leaves types f before a) (hb : op.Leaves types f before b) : a = b := by
  cases op with
  | load v =>
    obtain ⟨e, he, rfl⟩ := ha
    obtain ⟨e', he', rfl⟩ := hb
    rw [Option.some.inj (he.symm.trans he')]
  | dup =>
    obtain ⟨_, ha⟩ := ha
    obtain ⟨_, hb⟩ := hb
    exact (Prod.mk.inj (Option.some.inj (ha.symm.trans hb))).2
  | _ =>
    obtain ⟨ty, hty, hw⟩ := ha
    obtain ⟨ty', hty', hw'⟩ := hb
    cases hty.unique hty'
    exact hw.unique hw'

end CilMmix
