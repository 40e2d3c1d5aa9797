import CilMmix.Proofs.Lowering.Balance
import CilMmix.Proofs.Simulation.Fields

/-! Room in the register window. A frame needs as many registers as its values have words. A computation of
code fits on the operands that it finds if every register that it asks for is in the window. -/

namespace CilMmix

/-- An index outside of the register window. -/
def Fault.Exhausts : Fault → Prop
  | .registerExhausted _ | .indexUnderflow => True
  | _ => False

/-- A computation that does not run out of registers. -/
abbrev Roomy {α : Type} (x : Except Fault α) : Prop := Throws (fun fault => ¬ fault.Exhausts) x

namespace Layout

open Search

/-- Sizes and offsets are found without registers. -/
theorem Search.Ends.roomy {task : Task} {s s' : Search} {answer : Except Fault Size}
    (h : Ends task s answer s') : Roomy answer := by
  induction h with
  | plain | known | reference | struct | totalNil | placeNil | offsetKnown => exact .ok _
  | undeclared | recursive | offsetUndeclared => exact .error id
  | pinned _ ih | structFault _ _ _ _ _ ih | totalCons _ _ _ ih | totalFault _ ih | placeCons _ _ _ ih
  | placeFault _ ih | offsetFault _ _ _ ih => exact ih
  | @offsetPlaced _ s' f =>
    cases s'.layout.offsets.lookup f.text with
    | none => exact .error id
    | some offset => exact .ok _

theorem resolveField_roomy (l : Layout) (f : FieldRef) : Roomy (l.resolveField f) := by
  unfold resolveField
  split
  · exact .ok _
  · exact .error id

theorem size_of_hasSize {types : List TypeDef} {l : Layout} (hl : l.Sound types) {ty : TypeRef}
    {size : Size} (h : HasSize types ty size) :
    ∃ l', Layout.size ty l = .ok (size, l') ∧ l'.Sound types := by
  refine ⟨(l.sizeOf ty).2, size_ok.mpr ?_, (hl.sizeOf ty).1⟩
  exact Prod.ext (hl.sizeOf_eq_ok.mpr h) rfl

end Layout

namespace Block

variable {types : List TypeDef} {values : List (TypeRef × String)} {width : Nat}

theorem place_of_hasWidth (h : HasWidth types (values.map Prod.fst) width) {l : Layout}
    (hl : l.Sound types) (offset : Nat) :
    ∃ elems l', place offset values l = .ok (elems, l') ∧ l'.Sound types ∧
      Element.totalWords elems = width := by
  induction values generalizing l offset width with
  | nil =>
    cases h
    exact ⟨[], l, rfl, hl, rfl⟩
  | cons value values ih =>
    obtain ⟨ty, origin⟩ := value
    cases h with
    | cons hty hrest =>
      obtain ⟨size, hsize, rfl⟩ := hty
      obtain ⟨l₁, hone, hl₁⟩ := Layout.size_of_hasSize hl hsize
      obtain ⟨elems, l₂, hall, hl₂, rfl⟩ := ih hrest hl₁ (offset + size.words)
      refine ⟨⟨offset, size, ty, some origin⟩ :: elems, l₂, ?_, hl₂, rfl⟩
      rw [place, bind_run hone, bind_run hall]
      rfl

theorem after_of_hasWidth (h : HasWidth types (values.map Prod.fst) width) {l : Layout}
    (hl : l.Sound types) (before : Block) :
    ∃ b l', before.after values l = .ok (b, l') ∧ l'.Sound types ∧ b.stop = before.stop + width := by
  obtain ⟨elems, l', hplace, hl', rfl⟩ := place_of_hasWidth h hl before.stop
  refine ⟨⟨before.stopIndex, before.stop, elems⟩, l', ?_, hl', rfl⟩
  rw [after, bind_run hplace]
  rfl

end Block

/-- The types of all values in the frame of a method. -/
def MethodDef.windowTypes (m : MethodDef) : List TypeRef :=
  (if m.ret.isVoid then [] else [m.ret]) ++ m.params ++
    (if m.code.any fun i => i.op.isCall then [.primitive .nativeUInt] else []) ++ m.locals

namespace Frame

variable {types : List TypeDef} {l : Layout} {m : MethodDef} {total : Nat}

/-- A frame whose types all have a size takes up as many registers as they have words. -/
theorem build_of_hasWidth (hl : l.Sound types) (h : HasWidth types m.windowTypes total) :
    ∃ f l', f.stop = total ∧ build m l =
      if registerCount < total then .error (.registerExhausted (total - 1)) else .ok (f, l') := by
  obtain ⟨_, words, hthree, hlocals, rfl⟩ := h.of_append
  obtain ⟨_, link, htwo, hlink, rfl⟩ := hthree.of_append
  obtain ⟨result, arguments, hresult, harguments, rfl⟩ := htwo.of_append
  have hresult : HasWidth types ((if m.ret.isVoid then [] else [(m.ret, "ret")]).map Prod.fst) result := by
    cases hv : m.ret.isVoid <;> simpa [hv] using hresult
  have hlink : HasWidth types ((if m.code.any fun i => i.op.isCall then
      [((.primitive .nativeUInt : TypeRef), "rJ")] else []).map Prod.fst) link := by
    cases hc : m.code.any fun i => i.op.isCall <;> simpa [hc] using hlink
  rw [← numbered_types "arg" m.params] at harguments
  rw [← numbered_types "loc" m.locals] at hlocals
  obtain ⟨ret, l₁, hret, hl₁, hstop₁⟩ := Block.after_of_hasWidth hresult hl .empty
  obtain ⟨params, l₂, hparams, hl₂, hstop₂⟩ := Block.after_of_hasWidth harguments hl₁ ret
  obtain ⟨backup, l₃, hbackup, hl₃, hstop₃⟩ := Block.after_of_hasWidth hlink hl₂ params
  obtain ⟨locals, l₄, hlocals, -, hstop₄⟩ := Block.after_of_hasWidth hlocals hl₃ backup
  have hstop : locals.stop = result + arguments + link + words := by
    rw [hstop₄, hstop₃, hstop₂, hstop₁, show Block.empty.stop = 0 from rfl, Nat.zero_add]
  refine ⟨⟨ret, params, backup, locals, m.code.any fun i => i.op.isCall⟩, l₄, hstop, ?_⟩
  unfold build
  simp only [bind_run hret, bind_run hparams, bind_run hbackup, bind_run hlocals, hstop]
  split <;> rfl

theorem build_eq_error (hl : l.Sound types) (h : HasWidth types m.windowTypes total) {fault : Fault} :
    build m l = .error fault ↔ registerCount < total ∧ fault = .registerExhausted (total - 1) := by
  obtain ⟨f, l', -, hbuild⟩ := build_of_hasWidth hl h
  rw [hbuild]
  split
  · rename_i hlt
    simp only [Except.error.injEq, hlt, true_and]
    exact eq_comm
  · rename_i hle
    simp only [reduceCtorEq, hle, false_and]

end Frame

theorem Reg.ofIndex_roomy {n : Nat} (h : n < registerCount) : Roomy (Reg.ofIndex n) := by
  obtain ⟨r, hr, -⟩ := Reg.exists_ofIndex h
  rw [hr]
  exact .ok r

theorem copyWords_roomy {source dest count : Nat} (hs : source + count ≤ registerCount)
    (hd : dest + count ≤ registerCount) : Roomy (copyWords source dest count).complete :=
  copyWords_throws_of fun _ _ =>
    copyWord_throws_of (Reg.ofIndex_roomy (by omega)) (Reg.ofIndex_roomy (by omega))

theorem Block.elem_roomy (b : Block) (index : Nat) : Roomy (b.elem index) := by
  unfold elem
  split
  · exact .ok _
  · exact .error id

theorem Block.reg_roomy {b : Block} {index word : Nat}
    (h : ∀ e, b.elems[index]? = some e → e.offset + word < registerCount) : Roomy (b.reg index word) := by
  intro fault hf
  rcases bind_eq_error.mp hf with hf | ⟨e, he, hf⟩
  · exact b.elem_roomy index fault hf
  · exact Reg.ofIndex_roomy (h e (Block.elem_ok.mp he)) fault hf

theorem OperandStack.peek_roomy (s : OperandStack) (index : Nat) : Roomy (s.peek index) := by
  unfold peek
  split
  · exact .ok _
  · exact .error id

namespace Lower

variable {types : List TypeDef} {base : Nat} {elems : List Element} {α β : Type}

/-- On these operands the computation does not run out of registers; its result and the operands that it
leaves have a property. -/
def Fits (types : List TypeDef) (base : Nat) (elems : List Element) (Q : α → List Element → Prop)
    (x : Lower α) : Prop :=
  ∀ s, s.layout.Sound types → s.stack = ⟨base, elems⟩ → Roomy (x s) ∧ ∀ a t, x s = .ok (a, t) →
    t.layout.Sound types ∧ ∃ left, t.stack = ⟨base, left⟩ ∧ Q a left

/-- The same of one that leaves the operands alone. -/
abbrev Looks (types : List TypeDef) (base : Nat) (elems : List Element) (P : α → Prop) (x : Lower α) :
    Prop := Fits types base elems (fun a left => P a ∧ left = elems) x

abbrev Safe (types : List TypeDef) (base : Nat) (elems : List Element) (x : Lower α) : Prop :=
  Fits types base elems (fun _ _ => True) x

theorem Fits.bind {Q : α → List Element → Prop} {R : β → List Element → Prop} {x : Lower α}
    {f : α → Lower β} (hx : Fits types base elems Q x)
    (hf : ∀ a left, Q a left → Fits types base left R (f a)) : Fits types base elems R (x >>= f) := by
  intro s hs hstack
  obtain ⟨hroom, hx⟩ := hx s hs hstack
  refine ⟨bind_throws hroom fun a t ha => ?_, fun b u h => ?_⟩
  · obtain ⟨ht, left, hleft, hq⟩ := hx a t ha
    exact (hf a left hq t ht hleft).1
  · obtain ⟨a, t, ha, hb⟩ := bind_ok.mp h
    obtain ⟨ht, left, hleft, hq⟩ := hx a t ha
    exact (hf a left hq t ht hleft).2 b u hb

theorem Looks.then {P : α → Prop} {R : β → List Element → Prop} {x : Lower α} {f : α → Lower β}
    (hx : Looks types base elems P x) (hf : ∀ a, P a → Fits types base elems R (f a)) :
    Fits types base elems R (x >>= f) := by
  refine Fits.bind hx ?_
  rintro a _ ⟨ha, rfl⟩
  exact hf a ha

theorem Fits.mono {Q R : α → List Element → Prop} {x : Lower α} (hx : Fits types base elems Q x)
    (h : ∀ a left, Q a left → R a left) : Fits types base elems R x := by
  intro s hs hstack
  obtain ⟨hroom, hx⟩ := hx s hs hstack
  refine ⟨hroom, fun a t ha => ?_⟩
  obtain ⟨ht, left, hleft, hq⟩ := hx a t ha
  exact ⟨ht, left, hleft, h a left hq⟩

theorem Fits.safe {Q : α → List Element → Prop} {x : Lower α} (hx : Fits types base elems Q x) :
    Safe types base elems x := hx.mono fun _ _ _ => trivial

theorem fits_pure {Q : α → List Element → Prop} {a : α} (h : Q a elems) :
    Fits types base elems Q (pure a) := by
  intro s hs hstack
  refine ⟨.ok _, fun b t hb => ?_⟩
  obtain ⟨rfl, rfl⟩ := pure_ok.mp hb
  exact ⟨hs, elems, hstack, h⟩

theorem safe_pure (a : α) : Safe types base elems (pure a : Lower α) := fits_pure trivial

theorem fits_throw {Q : α → List Element → Prop} {fault : Fault} (h : ¬ fault.Exhausts) :
    Fits types base elems Q (throw fault : Lower α) :=
  fun _ _ _ => ⟨.error h, nofun⟩

/-- What a quiet computation says of its result holds on all operands. -/
theorem Quiet.looks {P : α → Prop} {x : Lower α} (hx : Quiet types P x)
    (hroom : ∀ s, s.stack = ⟨base, elems⟩ → Roomy (x s)) : Looks types base elems P x := by
  intro s hs hstack
  refine ⟨hroom s hstack, fun a t h => ?_⟩
  obtain ⟨ht, hr, hp⟩ := (hx s hs).2 a t h
  exact ⟨ht, elems, hr.eq_of_zero.trans hstack, hp, rfl⟩

theorem looks_lift {x : Except Fault α} (hx : Roomy x) :
    Looks types base elems (fun a => x = .ok a) (liftM x : Lower α) := by
  intro s hs hstack
  refine ⟨lift_throws hx s, fun a t h => ?_⟩
  obtain ⟨ha, rfl⟩ := lift_ok.mp h
  exact ⟨hs, elems, hstack, ha, rfl⟩

theorem looks_get : Looks types base elems (fun s : LowerState => s.layout.Sound types) get :=
  Quiet.looks quiet_get fun _ _ => .ok _

theorem looks_mapM {f : α → Lower β} {l : List α}
    (h : ∀ a ∈ l, Looks types base elems (fun _ => True) (f a)) :
    Looks types base elems (fun _ => True) (l.mapM f) := by
  induction l with
  | nil => exact fits_pure ⟨trivial, rfl⟩
  | cons a l ih =>
    obtain ⟨ha, hl⟩ := List.forall_mem_cons.mp h
    rw [List.mapM_cons]
    exact ha.then fun _ _ => (ih hl).then fun _ _ => fits_pure ⟨trivial, rfl⟩

theorem looks_sizeOf (ty : TypeRef) : Looks types base elems (HasSize types ty) (sizeOf ty) := by
  refine Quiet.looks (quiet_sizeOf types ty) fun s _ => ?_
  have hroom := (Layout.ends_sizeOf s.layout ty).roomy
  unfold sizeOf
  split
  · exact .ok _
  · rename_i fault layout he
    rw [he] at hroom
    exact .error (hroom fault rfl)

theorem fieldOffset_roomy (f : FieldRef) (s : LowerState) : Roomy (fieldOffset f s) := by
  have hroom := (Layout.ends_fieldOffset s.layout f).roomy
  unfold fieldOffset
  split
  · exact .ok _
  · rename_i fault layout he
    rw [he] at hroom
    exact .error (hroom fault rfl)

theorem looks_fieldOffset (f : FieldRef) : Looks types base elems (fun _ => True) (fieldOffset f) :=
  Quiet.looks (quiet_fieldOffset types f) fun s _ => fieldOffset_roomy f s

theorem looks_fieldType (f : FieldRef) :
    Looks types base elems (FieldHasType types f) (fieldType f) := by
  refine Quiet.looks (quiet_fieldType types f) fun s _ => ?_
  refine bind_throws (.ok _) fun u t _ => bind_throws (lift_throws ?_ t) fun _ _ _ => .ok _
  exact Layout.resolveField_roomy u.layout f

theorem looks_literal (text : String) : Looks types base elems (fun _ => True) (literal text) :=
  Quiet.looks (quiet_literal types text) fun _ _ => .ok _

theorem looks_staticField (f : FieldRef) : Looks types base elems (fun _ => True) (staticField f) := by
  refine (looks_fieldType f).then fun ty _ => (looks_sizeOf ty).then fun size _ => ?_
  intro s hs hstack
  refine ⟨.ok _, fun a t h => ?_⟩
  cases h
  exact ⟨hs, elems, hstack, trivial, rfl⟩

theorem looks_peek (index : Nat) :
    Looks types base elems (fun e => elems[index]? = some e) (peek index) := by
  intro s hs hstack
  refine ⟨bind_throws (.ok _) fun u t _ => lift_throws (u.stack.peek_roomy index) t, fun e t h => ?_⟩
  obtain ⟨he, rfl⟩ := peek_ok.mp h
  rw [hstack] at he
  exact ⟨hs, elems, hstack, he, rfl⟩

theorem looks_top : Looks types base elems (fun n => n = Shape.top base (shape elems)) top := by
  intro s hs hstack
  refine ⟨.ok _, fun n t h => ?_⟩
  obtain ⟨hn, rfl⟩ := top_ok.mp h
  rw [hstack] at hn
  exact ⟨hs, elems, hstack, hn, rfl⟩

/-- A word of an operand has a register if the operand has so many words. -/
theorem looks_operand {index word : Nat}
    (h : ∀ e, elems[index]? = some e → e.offset + word < registerCount) :
    Looks types base elems (fun _ => True) (operand index word) := by
  refine Quiet.looks (quiet_operand types index word) fun s hstack => ?_
  refine bind_throws (.ok _) fun u t hu => lift_throws ?_ t
  obtain ⟨rfl, -⟩ := get_ok.mp hu
  intro fault hf
  rcases bind_eq_error.mp hf with hf | ⟨e, he, hf⟩
  · exact u.stack.peek_roomy index fault hf
  · rw [hstack] at he
    exact Reg.ofIndex_roomy (h e (OperandStack.peek_eq_ok.mp he)) fault hf

section

variable (hs : Shape.Stacked base (shape elems))

include hs

theorem stop_le_of_getElem? {index : Nat} {e : Element} (he : elems[index]? = some e) :
    e.offset < e.stop ∧ e.stop ≤ Shape.top base (shape elems) ∧ e.stop ≤ registerCount := by
  have hmem := hs.mem (List.mem_map.mpr ⟨e, List.mem_of_getElem? he, rfl⟩)
  have htop : Shape.top base (shape elems) ≤ registerCount := by
    cases elems with
    | nil => cases he
    | cons first rest => exact hs.2.2.1
  simp only [Element.stop] at hmem ⊢
  omega

theorem looks_word {index word : Nat} (h : ∀ e, elems[index]? = some e → word < e.size.words) :
    Looks types base elems (fun _ => True) (operand index word) := by
  refine looks_operand fun e he => ?_
  have hle := stop_le_of_getElem? hs he
  have hword := h e he
  simp only [Element.stop] at hle
  omega

theorem looks_first (index : Nat) : Looks types base elems (fun _ => True) (operand index 0) :=
  looks_word hs fun _ he => (hs.mem (List.mem_map.mpr ⟨_, List.mem_of_getElem? he, rfl⟩)).2.1

theorem fits_pop :
    Fits types base elems (fun (r : Reg) left => ∃ e, elems = e :: left ∧ r.index.val = e.offset) pop := by
  intro s hsound hstack
  refine ⟨Throws.bind ?_ fun _ => .pure _, fun r t h => ?_⟩
  · rw [hstack]
    unfold OperandStack.pop
    split
    · exact .error id
    · rename_i e rest he
      have hle := stop_le_of_getElem? hs (show elems[0]? = some e by rw [show elems = e :: rest from he]; rfl)
      exact .bind (Reg.ofIndex_roomy (by omega)) fun _ => .pure _
  · obtain ⟨e, rest, he, hr, rfl⟩ := pop_ok.mp h
    rw [hstack] at he
    exact ⟨hsound, rest, by rw [LowerState.withElems, hstack], e, he, hr⟩

/-- After a pop the operands below are at work. -/
theorem fits_pop_then {R : β → List Element → Prop} {f : Reg → Lower β}
    (hf : ∀ e rest (r : Reg), elems = e :: rest → r.index.val = e.offset →
      Shape.Stacked base (shape rest) → Fits types base rest R (f r)) :
    Fits types base elems R (pop >>= f) := by
  refine (fits_pop hs).bind ?_
  rintro r rest ⟨e, rfl, hr⟩
  exact hf e rest r rfl hr hs.tail

end

/-- A value of so many words was put on the operands. -/
structure Pushed (base words : Nat) (elems left : List Element) : Prop where
  stacked : Shape.Stacked base (shape left)
  top_eq : Shape.top base (shape left) = Shape.top base (shape elems) + words
  head : 0 < words → ∃ e, left[0]? = some e ∧ e.offset = Shape.top base (shape elems) ∧
    e.size.words = words

/-- On the operands there is room for a value of the type, and for two words more. -/
def Admits (types : List TypeDef) (base : Nat) (elems : List Element) (ty : TypeRef) : Prop :=
  ∀ words, HasWords types ty words → Shape.top base (shape elems) + words + 2 ≤ registerCount

theorem fits_pushSized (hs : Shape.Stacked base (shape elems)) {size : Size}
    (hfit : Shape.top base (shape elems) + size.words ≤ registerCount) (ty : TypeRef)
    (origin : Option String) :
    Fits types base elems (fun _ left => Pushed base size.words elems left)
      (pushSized ty size origin) := by
  intro s hsound hstack
  refine ⟨Throws.bind ?_ fun _ => .pure _, fun u t h => ?_⟩
  · unfold OperandStack.push
    split
    · exact .ok _
    · dsimp only
      rw [OperandStack.top_eq, hstack, if_neg (Nat.not_lt.mpr hfit)]
      exact .ok _
  · rcases pushSized_ok.mp h with ⟨hz, rfl⟩ | ⟨hpos, -, rfl⟩
    · rw [hz]
      exact ⟨hsound, elems, hstack, hs, rfl, fun h => absurd h (Nat.lt_irrefl 0)⟩
    · rw [LowerState.withElems, hstack]
      exact ⟨hsound, _, rfl, ⟨rfl, hpos, hfit, hs⟩, rfl, fun _ => ⟨_, rfl, rfl, rfl⟩⟩

theorem fits_push (hs : Shape.Stacked base (shape elems)) {ty : TypeRef}
    (hfit : Admits types base elems ty) (origin : String) :
    Fits types base elems (fun _ left => ∃ words, HasWords types ty words ∧ Pushed base words elems left)
      (push origin ty) := by
  refine (looks_sizeOf ty).then fun size hsize => ?_
  have hwords := hfit size.words ⟨size, hsize, rfl⟩
  refine (fits_pushSized hs (by omega) ty _).mono fun _ left hleft => ?_
  exact ⟨size.words, ⟨size, hsize, rfl⟩, hleft⟩

theorem Pushed.looks_word {words word : Nat} {left : List Element} (h : Pushed base words elems left)
    (hword : word < words) : Looks types base left (fun _ => True) (operand 0 word) := by
  refine Lower.looks_word h.stacked fun e he => ?_
  obtain ⟨e', he', -, hwords⟩ := h.head (by omega)
  cases he.symm.trans he'
  omega

theorem looks_address {n : Nat} (hn : n < registerCount) :
    Looks types base elems (fun _ => True) (liftM (Reg.ofIndex n) : Lower Reg) :=
  (looks_lift (Reg.ofIndex_roomy hn)).mono fun _ _ h => ⟨trivial, h.2⟩

theorem looks_accessAt {scratch : Nat} (hn : scratch < registerCount) (code : Opcode) (x : Operand)
    (address : Reg) (bytes : Nat) : Looks types base elems (fun _ => True)
      (liftM (accessAt code x address bytes scratch) : Lower (List Line)) :=
  (looks_lift (accessAt_throws_of (Reg.ofIndex_roomy hn) _ _ _ _)).mono fun _ _ h => ⟨trivial, h.2⟩

theorem safe_scale {scratch : Nat} (hn : scratch < registerCount) (r : Reg) (stride : Nat)
    (f : List Line → List Line) : Safe types base elems (do
      return f (← liftM (scale r stride scratch : Except Fault (List Line))) : Lower (List Line)) :=
  (looks_lift (scale_throws_of (Reg.ofIndex_roomy hn) _ _)).then fun _ _ => safe_pure _

end Lower

end CilMmix
