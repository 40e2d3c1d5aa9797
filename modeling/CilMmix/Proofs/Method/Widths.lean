import CilMmix.Proofs.Assembly.Transfers
import CilMmix.Proofs.Lowering.Interchange
import CilMmix.Proofs.Lowering.Statics
import CilMmix.Proofs.Method.Pieces
import CilMmix.Proofs.Simulation.Calls

/-! How many words an instruction hands on to a variable, a field, a callee or the caller, and from
where. For a variable and a result it is the declaration that counts the words, for the others it is the
operand; the two are never compared. -/

namespace CilMmix

/-- As many words as wanted are moved, and every one of them is a word of one of the values. -/
structure Delivers (wanted : Nat) (values : List Element) (lines : List Line) : Prop where
  length_eq : (Line.transfers lines).length = wanted
  source : ∀ t ∈ Line.transfers lines, ∃ e ∈ values, e.offset ≤ t.source ∧ t.source < e.stop

/-- Lines that hand on a run of registers at the lower or the upper end of the last operands. -/
structure Handover (base : Nat) (elems : List Element) (n count : Nat) (Into : Place → Prop)
    (lines : List Line) : Prop where
  enough : n ≤ elems.length
  hands : ∃ source, Line.Hands source count Into lines ∧
    (source = Shape.top base (shape (elems.drop n)) ∨ source + count = Shape.top base (shape elems))

theorem Handover.delivers_iff {base n count wanted : Nat} {elems : List Element} {Into : Place → Prop}
    {lines : List Line} (h : Handover base elems n count Into lines)
    (hs : Shape.Stacked base (shape elems)) : Delivers wanted (elems.take n).reverse lines ↔
      count = wanted ∧ count ≤ Element.totalWords (elems.take n).reverse := by
  obtain ⟨source, hands, hend⟩ := h.hands
  obtain ⟨htiled, htop⟩ := hs.tiled_take h.enough
  constructor
  · rintro ⟨hlen, hsource⟩
    refine ⟨hands.length_eq.symm.trans hlen, ?_⟩
    by_cases hz : count = 0
    · omega
    -- The first and the last word belong to one of the operands, so the whole run lies among them.
    have hinside : ∀ k, source ≤ k → k < source + count → Shape.top base (shape (elems.drop n)) ≤ k ∧
        k < Shape.top base (shape (elems.drop n)) + Element.totalWords (elems.take n).reverse := by
      intro k hge hlt
      obtain ⟨t, ht, rfl⟩ := hands.mem_iff.mpr ⟨hge, hlt⟩
      obtain ⟨e, he, hmem⟩ := hsource t ht
      have hbounds := htiled.mem he
      omega
    have hfirst := hinside source (Nat.le_refl _) (by omega)
    have hlast := hinside (source + count - 1) (by omega) (by omega)
    omega
  · rintro ⟨rfl, hle⟩
    refine ⟨hands.length_eq, fun t ht => ?_⟩
    have hmem := hands.mem_iff.mp ⟨t, ht, rfl⟩
    exact htiled.exists_mem (by omega) (by omega)

namespace Lower

variable {s t : LowerState} {code : List Line}

theorem storeSlot_hands {b : Block} {index : Nat} (h : storeSlot b index s = .ok (code, t)) :
    ∃ slot e rest, b.elems[index]? = some slot ∧ s.stack.elems = e :: rest ∧
      Line.Hands e.offset slot.size.words
        (fun p => ∃ k, p = .window k ∧ slot.offset ≤ k ∧ k < slot.stop) code := by
  obtain ⟨slot, e, rest, hslot, helems, -, hmoves⟩ := storeSlot_ok h
  exact ⟨slot, e, rest, hslot, helems, hmoves.hands (.refl _)⟩

theorem storeField_hands {f : FieldRef} (h : storeField f s = .ok (code, t)) :
    ∃ e object rest, s.stack.elems = e :: object :: rest ∧
      Line.Hands e.offset e.size.words (· = .memory object.offset) code := by
  simp only [storeField, bind_ok, pure_ok, operand_ok, peek_ok, top_ok, pop_ok] at h
  obtain ⟨offset, s₁, hoffset, target, _, ⟨⟨object, hobject, htarget⟩, rfl⟩, e, _, ⟨he, rfl⟩, scratch, _,
    ⟨-, rfl⟩, parts, s₂, hparts, _, _, -, _, _, -, rfl, -⟩ := h
  have hstack := (fieldOffset_ok hoffset).1
  rw [hstack] at hobject he
  obtain ⟨below, helems⟩ := List.head?_eq_some_iff.mp (List.head?_eq_getElem?.trans he)
  rw [helems, List.getElem?_cons_succ, ← List.head?_eq_getElem?] at hobject
  obtain ⟨rest, rfl⟩ := List.head?_eq_some_iff.mp hobject
  refine ⟨e, object, rest, helems, .of_perm (fun _ => .memory object.offset) (.of_eq ?_)
    fun _ _ => rfl⟩
  have hkeep : ∀ (word : Nat) s₁ part s₂, (do
      let value ← operand 0 word
      accessAt .stou (.reg value) target (offset.roundedBytes + word * wordBytes) scratch :
        Lower (List Line)) s₁ = .ok (part, s₂) → s₂ = s₁ ∧ ∃ top, s₁.stack.elems[0]? = some top ∧
      Line.transfers part = [⟨.memory object.offset, top.offset + word⟩] := by
    intro word s₁ part s₂ h
    simp only [bind_ok, operand_ok, lift_ok] at h
    obtain ⟨value, _, ⟨⟨top, htop, hvalue⟩, rfl⟩, haccess, rfl⟩ := h
    refine ⟨rfl, top, htop, ?_⟩
    rw [accessAt_transfers haccess, htarget, hvalue, Nat.add_zero]
  obtain ⟨-, hall⟩ := mapM_ok (fun a t b t' h => (hkeep a t b t' h).1) hparts
  refine Line.transfers_flatten (hall.imp fun word part hpart => ?_)
  obtain ⟨-, top, htop, hone⟩ := hkeep _ _ _ _ hpart
  rw [hstack, he] at htop
  cases htop
  exact hone

theorem storeStatic_hands {f : FieldRef} (h : storeStatic f s = .ok (code, t)) :
    ∃ e rest, s.stack.elems = e :: rest ∧ Line.Hands e.offset e.size.words
      (· = .memory (Shape.top s.stack.base (shape s.stack.elems))) code := by
  simp only [storeStatic, bind_ok, pure_ok, lift_ok, peek_ok, top_ok, pop_ok, Reg.ofIndex_eq_ok] at h
  obtain ⟨a, s₁, ha, top, _, ⟨rfl, rfl⟩, address, _, ⟨haddress, rfl⟩, e, _, ⟨he, rfl⟩, lines, s₂, hlines,
    _, _, -, rfl, -⟩ := h
  have hstack := (staticField_ok ha).1
  rw [hstack] at haddress he
  obtain ⟨rest, helems⟩ := List.head?_eq_some_iff.mp (List.head?_eq_getElem?.trans he)
  refine ⟨e, rest, helems, .of_perm (fun _ => .memory address.index.val) (.of_eq ?_)
    fun _ _ => congrArg _ haddress⟩
  have hkeep : ∀ (word : Nat) s₁ line s₂, (do
      let value ← operand 0 word
      return .ins .stou [.reg value, .reg address, .imm (word * wordBytes)] : Lower Line) s₁ =
        .ok (line, s₂) → s₂ = s₁ ∧ ∃ top, s₁.stack.elems[0]? = some top ∧
      line.transfer? = some ⟨.memory address.index.val, top.offset + word⟩ := by
    intro word s₁ line s₂ h
    simp only [bind_ok, operand_ok, pure_ok] at h
    obtain ⟨value, _, ⟨⟨top, htop, hvalue⟩, rfl⟩, rfl, rfl⟩ := h
    refine ⟨rfl, top, htop, ?_⟩
    rw [← hvalue]
    rfl
  obtain ⟨-, hall⟩ := mapM_ok (fun a t b t' h => (hkeep a t b t' h).1) hlines
  rw [Line.transfers_append, loadConstant_transfers, List.nil_append]
  refine Line.transfers_eq_map (hall.imp fun word line hline => ?_)
  obtain ⟨-, top, htop, hone⟩ := hkeep _ _ _ _ hline
  rw [hstack, he] at htop
  cases htop
  exact hone

theorem call_hands {origin : String} {ref : MethodRef}
    (hs : Shape.Stacked s.stack.base (shape s.stack.elems)) (h : call origin ref s = .ok (code, t)) :
    ref.params.length ≤ s.stack.elems.length ∧
      ∃ hole, hole = Shape.top s.stack.base (shape (s.stack.elems.drop ref.params.length)) ∧
        Line.Hands hole (Element.totalWords (s.stack.elems.take ref.params.length).reverse)
          (fun p => ∃ k, p = .window k ∧ hole < k ∧ k ≤ Shape.top s.stack.base (shape s.stack.elems))
          code := by
  obtain ⟨moves, hole, rfl, hle, hhole, hmoves⟩ := call_ok h
  obtain ⟨-, htop⟩ := hs.tiled_take hle
  rw [← hhole] at htop
  rw [htop, Nat.add_sub_cancel_left] at hmoves
  have hands := hmoves.hands (copyPairs_perm _ (Nat.ne_of_lt (Nat.lt_succ_self _)))
  refine ⟨hle, hole.index.val, hhole,
    (hands.of_transfers_eq (Line.transfers_append_of_nil rfl)).mono ?_⟩
  rintro p ⟨k, rfl, hge, hlt⟩
  exact ⟨k, rfl, by omega, by omega⟩

theorem giveBack_hands {f : Frame} {m : MethodDef} (hf : f.Laid m) (h : giveBack f s = .ok (code, t)) :
    ∃ source, s.stack.elems ≠ [] ∧
      source + f.ret.words = Shape.top s.stack.base (shape s.stack.elems) ∧
      Line.Hands source f.ret.words (fun p => ∃ k, p = .window k ∧ k < f.ret.words) code := by
  obtain ⟨first, others, e, rest, helems, -, hpos, hle, rfl, hfirst, hothers⟩ := giveBack_ok h
  generalize Shape.top s.stack.base (shape s.stack.elems) = top at hle hfirst hothers ⊢
  -- The operands lie above the place of the result, so every word has to be moved.
  have hstop : f.ret.words ≤ f.stop := by
    have hb := hf.backup_le
    have ho := hf.ordered
    have hp : f.params.offset ≤ f.params.stop := Nat.le_add_right ..
    omega
  rw [hf.ret_offset] at hfirst hothers
  have hlow : Line.Hands (top - f.ret.words) 1 (fun p => ∃ k, p = .window k ∧ k < f.ret.words) first := by
    refine (hfirst.hands (copyPairs_perm _ (by omega))).mono ?_
    rintro p ⟨k, rfl, hge, hlt⟩
    exact ⟨k, rfl, by omega⟩
  have hands := hlow.append ((hothers.hands (copyPairs_perm _ (by omega))).mono fun p => ?_)
  · rw [Nat.add_sub_cancel' hpos] at hands
    exact ⟨_, by simp [helems], by omega, hands.of_transfers_eq (Line.transfers_append_of_nil rfl)⟩
  · rintro ⟨k, rfl, hge, hlt⟩
    exact ⟨k, rfl, by omega⟩

theorem ret_hands {site : Site} {m : MethodDef} (hf : site.frame.Laid m)
    (h : ret site s = .ok (code, t)) :
    ∃ source, (m.ret.isVoid = false → s.stack.elems ≠ []) ∧
      source + site.frame.ret.words = Shape.top s.stack.base (shape s.stack.elems) ∧
      Line.Hands source site.frame.ret.words
        (fun p => ∃ k, p = .window k ∧ k < site.frame.ret.words) code := by
  obtain ⟨o, leave, remark, -, rfl, hremark, hleave⟩ := ret_ok h
  have hlink : Line.transfers (linkLines o) = [] := by
    cases o <;> rfl
  have hafter : Line.transfers remark = [] :=
    Line.transfers_eq_nil fun l hl => by rw [hremark l hl]; rfl
  have he : Line.transfers (linkLines o ++ leave ++ remark) = Line.transfers leave := by
    rw [Line.transfers_append_of_nil hafter, Line.transfers_append, hlink, List.nil_append]
  rcases hleave with ⟨hempty, rfl, -⟩ | ⟨-, hgive⟩
  · have hstop : Line.transfers (stopLines site.halts) = [] := by
      cases site.halts <;> rfl
    have hnil := List.isEmpty_iff.mp hempty
    have hwords : site.frame.ret.words = 0 := by rw [Block.words, hnil]; rfl
    have htypes := hf.ret.types_eq
    rw [hnil, List.map_nil] at htypes
    refine ⟨Shape.top s.stack.base (shape s.stack.elems), fun hv => ?_, by rw [hwords]; rfl, ?_, ?_⟩
    · rw [hv, if_neg Bool.false_ne_true] at htypes
      cases htypes
    · rw [he, hstop, hwords]
      exact .nil
    · rw [he, hstop]
      exact List.forall_mem_nil _
  · obtain ⟨source, hne, hsource, hands⟩ := giveBack_hands hf hgive
    exact ⟨source, fun _ => hne, hsource, hands.of_transfers_eq he⟩

end Lower

namespace Op

/-- The types that are declared for what an instruction hands on. -/
inductive Declares (types : List TypeDef) (m : MethodDef) : Op → List TypeRef → Prop
  | arg {i : UInt16} {ty : TypeRef} : m.params[i.toNat]? = some ty →
      Declares types m (.store (.arg i)) [ty]
  | loc {i : UInt16} {ty : TypeRef} : m.locals[i.toNat]? = some ty →
      Declares types m (.store (.loc i)) [ty]
  | field {f : FieldRef} {ty : TypeRef} : Lower.FieldHasType types f ty →
      Declares types m (.field .store f) [ty]
  | static {f : FieldRef} {ty : TypeRef} : Lower.FieldHasType types f ty →
      Declares types m (.staticField .store f) [ty]
  | call (ref : MethodRef) : Declares types m (.call ref) ref.params
  | ret : Declares types m .ret [m.ret]

/-- How many operands an instruction hands on: the value of a store, the arguments of a call, and the
result of a method that has one. -/
def handsOn (m : MethodDef) : Op → Nat
  | store _ | field .store _ | staticField .store _ => 1
  | call ref => ref.params.length
  | ret => if m.ret.isVoid then 0 else 1
  | _ => 0

/-- Those operands, the first one pushed first. -/
def values (m : MethodDef) (elems : List Element) (op : Op) : List Element :=
  (elems.take (op.handsOn m)).reverse

/-- The places of what an instruction hands on: the registers of the variable, of the callee's arguments
or of the result, and memory at the object or at the address of the static field. -/
def Receives (f : Frame) (elems : List Element) : Op → Place → Prop
  | store v, .window k => ∃ slot, (v.slot f).1.elems[(v.slot f).2]? = some slot ∧
      slot.offset ≤ k ∧ k < slot.stop
  | field .store _, .memory r => ∃ object, elems[1]? = some object ∧ r = object.offset
  | staticField .store _, .memory r => r = Shape.top f.stop (shape elems)
  | call ref, .window k => Shape.top f.stop (shape (elems.drop ref.params.length)) < k ∧
      k ≤ Shape.top f.stop (shape elems)
  | ret, .window k => k < f.ret.words
  | _, _ => False

/-- Whether the declaration says how many words are moved, and not the operand. -/
def byDeclaration : Op → Bool
  | store _ | ret => true
  | _ => false

def moved (declared given : Nat) (op : Op) : Nat := if op.byDeclaration then declared else given

/-- Widths with which an instruction moves what is declared, and nothing else. -/
def Suits (declared given : Nat) (op : Op) : Prop :=
  if op.byDeclaration then declared ≤ given else declared = given

end Op

theorem hasWidth_singleton {types : List TypeDef} {ty : TypeRef} {width : Nat} :
    HasWidth types [ty] width ↔ HasWords types ty width := by
  constructor
  · intro h
    cases h with
    | cons hty hnil =>
      cases hnil
      exact hty
  · exact fun h => .cons h .nil

theorem Block.Follows.words_eq {types : List TypeDef} {before b : Block} {tys : List TypeRef}
    (h : before.Follows tys b) (hs : ∀ e ∈ b.elems, HasSize types e.ty e.size) {i width : Nat}
    {ty : TypeRef} (hty : tys[i]? = some ty) (hw : HasWords types ty width) {slot : Element}
    (hslot : b.elems[i]? = some slot) : slot.size.words = width := by
  rw [← h.types_eq, List.getElem?_map, hslot] at hty
  cases hty
  exact HasWords.unique ⟨slot.size, hs slot (List.mem_of_getElem? hslot), rfl⟩ hw

namespace Lower

variable {site : Site} {m : MethodDef} {s t : LowerState} {code : List Line}

theorem store_handover (hs : Shape.Stacked site.frame.stop (shape s.stack.elems)) {v : Variable}
    {width : Nat} (hwords : ∀ slot, (v.slot site.frame).1.elems[(v.slot site.frame).2]? = some slot →
      slot.size.words = width)
    (h : storeSlot (v.slot site.frame).1 (v.slot site.frame).2 s = .ok (code, t)) :
    Handover site.frame.stop s.stack.elems 1 width
      ((Op.store v).Receives site.frame s.stack.elems) code := by
  obtain ⟨slot, e, rest, hslot, helems, hands⟩ := storeSlot_hands h
  rw [hwords slot hslot] at hands
  rw [helems] at hs ⊢
  refine ⟨by simp, e.offset, hands.mono ?_, .inl hs.1⟩
  rintro p ⟨k, rfl, hk⟩
  exact ⟨slot, hslot, hk⟩

theorem instruction_handover {types : List TypeDef} (hf : site.frame.Laid m)
    (hsize : site.frame.Sized types) (hb : s.stack.base = site.frame.stop)
    (hs : Shape.Stacked site.frame.stop (shape s.stack.elems)) {i : Instruction} {tys : List TypeRef}
    {width : Nat} (hd : i.op.Declares types m tys) (hw : HasWidth types tys width)
    (h : instruction site i s = .ok (code, t)) :
    Handover site.frame.stop s.stack.elems (i.op.handsOn m)
      (i.op.moved width (Element.totalWords (i.op.values m s.stack.elems)))
      (i.op.Receives site.frame s.stack.elems) code := by
  obtain ⟨offset, op⟩ := i
  cases hd with
  | arg hty =>
    exact store_handover hs (fun slot hslot =>
      hf.params.words_eq (hsize _ (by simp)) hty (hasWidth_singleton.mp hw) hslot) h
  | loc hty =>
    exact store_handover hs (fun slot hslot =>
      hf.locals.words_eq (hsize _ (by simp)) hty (hasWidth_singleton.mp hw) hslot) h
  | field hty =>
    obtain ⟨e, object, rest, helems, hands⟩ := storeField_hands h
    rw [helems] at hs ⊢
    refine ⟨by simp [Op.handsOn], e.offset, hands.mono ?_, .inl hs.1⟩
    rintro p rfl
    exact ⟨object, rfl, rfl⟩
  | static hty =>
    obtain ⟨e, rest, helems, hands⟩ := storeStatic_hands h
    rw [hb, helems] at hands
    rw [helems] at hs ⊢
    refine ⟨by simp [Op.handsOn], e.offset, hands.mono ?_, .inl hs.1⟩
    rintro p rfl
    exact rfl
  | call ref =>
    obtain ⟨hle, hole, rfl, hands⟩ := call_hands (hb ▸ hs) h
    rw [hb] at hands
    refine ⟨hle, _, hands.mono ?_, .inl rfl⟩
    rintro p ⟨k, rfl, hk⟩
    exact hk
  | ret =>
    obtain ⟨source, hne, hsource, hands⟩ := ret_hands hf h
    obtain rfl := (hf.hasWords_ret hsize).unique (hasWidth_singleton.mp hw)
    rw [hb] at hsource
    refine ⟨?_, source, hands.mono ?_, .inr hsource⟩
    · simp only [Op.handsOn]
      cases hv : m.ret.isVoid with
      | true => exact Nat.zero_le _
      | false => exact List.length_pos_iff.mpr (hne hv)
    · rintro p ⟨k, rfl, hk⟩
      exact hk

end Lower

namespace MethodDef

variable {M : Module} {m : MethodDef} {options : Options} {session : Session}

theorem Compilation.handover (c : m.Compilation options session) (hs : session.Reached M) {i : Nat}
    {instruction : Instruction} {v : Visit} (hi : m.code[i]? = some instruction)
    (hv : c.visit? i = some v) {tys : List TypeRef} {width : Nat}
    (hd : instruction.op.Declares M.types m tys) (hw : HasWidth M.types tys width) :
    Shape.Stacked c.frame.stop (shape v.arrival) ∧
      Handover c.frame.stop v.arrival (instruction.op.handsOn m)
        (instruction.op.moved width (Element.totalWords (instruction.op.values m v.arrival)))
        (instruction.op.Receives c.frame v.arrival) v.lines := by
  obtain ⟨instruction', σ, after, code, hi', hstacked, -, hcode, hlines⟩ := c.visit_code hv
  cases hi.symm.trans hi'
  obtain ⟨henough, source, hands, hend⟩ :=
    Lower.instruction_handover c.laid (c.sized hs) rfl hstacked hd hw hcode
  have hisCode := Lower.instruction_isCode c.laid rfl hstacked hcode
  refine ⟨hstacked, henough, source, hands.of_transfers_eq ?_, hend⟩
  rw [hlines, Line.transfers_piece hisCode]

/-- Every store, call and return hands on as many words as the declaration says for a variable or a
result, and as the operands have for a field or the arguments, and puts them where they belong. These are
the words of the declared type and words of the operands just when the declaration asks for no more than
the operand has, in the one case, and when the two widths are the same, in the other. -/
theorem moved_widths (m : MethodDef) (options : Options) {session session' : Session}
    {lines : List Line} (hs : session.Reached M)
    (h : m.compile options session = .ok (lines, session')) :
    ∃ c : m.Compilation options session, c.lines = lines ∧ ∀ i instruction v tys width,
      m.code[i]? = some instruction → c.visit? i = some v →
      instruction.op.Declares M.types m tys → HasWidth M.types tys width →
      (Line.transfers v.lines).length = instruction.op.moved width
        (Element.totalWords (instruction.op.values m v.arrival)) ∧
      (∀ t ∈ Line.transfers v.lines, instruction.op.Receives c.frame v.arrival t.into) ∧
      (Delivers width (instruction.op.values m v.arrival) v.lines ↔
        instruction.op.Suits width (Element.totalWords (instruction.op.values m v.arrival))) := by
  obtain ⟨c, hlines, -⟩ := compile_ok.mp h
  refine ⟨c, hlines, fun i instruction v tys width hi hv hd hw => ?_⟩
  obtain ⟨hstacked, handover⟩ := c.handover hs hi hv hd hw
  obtain ⟨source, hands, -⟩ := handover.hands
  refine ⟨hands.length_eq, hands.into, (handover.delivers_iff hstacked).trans ?_⟩
  simp only [Op.moved, Op.Suits, Op.values]
  split
  · simp
  · simp only [Nat.le_refl, and_true, eq_comm]

/-- A module with a class whose first field takes any object. -/
def boxes : Module where
  name := "boxes"
  types := [⟨"Object", .classType, [], []⟩, ⟨"Box", .classType,
    [⟨"value", .named "Object", false⟩, ⟨"next", .primitive .int64, false⟩], []⟩]

/-- A method that keeps a text, calls another one with it, and returns what it gets. -/
def passOn : MethodDef where
  name := "passOn"
  params := [.string]
  ret := .string
  locals := [.string]
  body := some (number [.load (.arg 0), .store (.loc 0), .load (.loc 0),
    .call ⟨"Other", "trim", [.string], .string⟩, .ret])

theorem moved_widths_passOn : ∃ c : passOn.Compilation {} (.ofModule boxes),
    ∀ i ∈ [1, 3, 4], ∃ instruction v, passOn.code[i]? = some instruction ∧ c.visit? i = some v ∧
      Delivers 2 (instruction.op.values passOn v.arrival) v.lines := by
  have hok : (passOn.compile {} (.ofModule boxes)).toBool = true := by decide +kernel
  obtain ⟨⟨lines, session⟩, h⟩ := exists_of_toBool hok
  obtain ⟨c, -, hc⟩ := moved_widths passOn {} .start h
  have hwidth : HasWidth boxes.types [.string] 2 := hasWidth_singleton.mpr ⟨_, .string, rfl⟩
  have htotals := c.parts_eq (fun _ walk => [1, 3, 4].map fun i =>
    passOn.code[i]?.bind fun instruction => (walk.stops[i]?.bind Stop.visit).map fun v =>
      Element.totalWords (instruction.op.values passOn v.arrival)) (a := [some 2, some 2, some 2])
      (by decide +kernel)
  simp only [List.map_cons, List.map_nil, List.cons.injEq, and_true] at htotals
  have hdelivers : ∀ i instruction, passOn.code[i]? = some instruction →
      instruction.op.Declares boxes.types passOn [.string] → instruction.op.Suits 2 2 →
      ((passOn.code[i]?.bind fun instruction => (c.visit? i).map fun v =>
        Element.totalWords (instruction.op.values passOn v.arrival)) = some 2) →
      ∃ instruction v, passOn.code[i]? = some instruction ∧ c.visit? i = some v ∧
        Delivers 2 (instruction.op.values passOn v.arrival) v.lines := by
    intro i instruction hi hd hsuits htotal
    rw [hi, Option.bind_some] at htotal
    obtain ⟨v, hv, hgiven⟩ := Option.map_eq_some_iff.mp htotal
    have hiff := (hc i instruction v _ 2 hi hv hd hwidth).2.2
    rw [hgiven] at hiff
    exact ⟨instruction, v, hi, hv, hiff.mpr hsuits⟩
  simp only [List.forall_mem_cons, List.not_mem_nil, false_implies, implies_true, and_true]
  exact ⟨c, hdelivers 1 _ rfl (.loc rfl) (Nat.le_refl 2) htotals.1,
    hdelivers 3 _ rfl (.call _) rfl htotals.2.1,
    hdelivers 4 _ rfl .ret (Nat.le_refl 2) htotals.2.2⟩

/-- A method that puts a text, which has two words, into a field of one word. -/
def keepText : MethodDef where
  name := "keep"
  params := [.named "Box", .string]
  body := some (number [.load (.arg 0), .load (.arg 1), .field .store ⟨"Box", "value"⟩, .ret])

/-- A method that puts a null, which has one word, into a variable of two words. -/
def forgetText : MethodDef where
  name := "forget"
  locals := [.string]
  body := some (number [.push .null, .store (.loc 0), .ret])

/-- The text overwrites the next field as well, and the variable gets a word from above the operands. -/
theorem widths_disagree :
    (∃ (c : keepText.Compilation {} (.ofModule boxes)) (v : Visit), c.visit? 2 = some v ∧
      (Op.field .store ⟨"Box", "value"⟩).Declares boxes.types keepText [.named "Object"] ∧
      HasWidth boxes.types [.named "Object"] 1 ∧ (Line.transfers v.lines).length = 2 ∧
      ¬ Delivers 1 ((Op.field .store ⟨"Box", "value"⟩).values keepText v.arrival) v.lines) ∧
    ∃ (c : forgetText.Compilation {} (.ofModule boxes)) (v : Visit), c.visit? 1 = some v ∧
      (Op.store (.loc 0)).Declares boxes.types forgetText [.string] ∧
      HasWidth boxes.types [.string] 2 ∧
      (∃ t ∈ Line.transfers v.lines, ∀ e ∈ v.arrival, e.stop ≤ t.source) ∧
      ¬ Delivers 2 ((Op.store (.loc 0)).values forgetText v.arrival) v.lines := by
  have hkeep : (keepText.compile {} (.ofModule boxes)).toBool = true := by decide +kernel
  have hforget : (forgetText.compile {} (.ofModule boxes)).toBool = true := by decide +kernel
  constructor
  · obtain ⟨result, h⟩ := exists_of_toBool hkeep
    obtain ⟨c, -⟩ := compile_ok.mp h
    have hmoved := c.parts_eq (fun _ walk => (walk.stops[2]?.bind Stop.visit).map fun v =>
      (Line.transfers v.lines).length) (a := some 2) (by decide +kernel)
    obtain ⟨v, hv, hlen⟩ := Option.map_eq_some_iff.mp hmoved
    have hty : Lower.FieldHasType boxes.types ⟨"Box", "value"⟩ (.named "Object") := ⟨_, rfl, rfl⟩
    refine ⟨c, v, hv, .field hty, hasWidth_singleton.mpr ⟨_, .reference rfl nofun, rfl⟩, hlen, ?_⟩
    intro hdelivers
    cases hlen.symm.trans hdelivers.length_eq
  · obtain ⟨result, h⟩ := exists_of_toBool hforget
    obtain ⟨c, -⟩ := compile_ok.mp h
    have hmoved := c.parts_eq (fun _ walk => (walk.stops[1]?.bind Stop.visit).map fun v =>
      (Line.transfers v.lines).any fun t => v.arrival.all fun e => e.stop ≤ t.source)
      (a := some true) (by decide +kernel)
    obtain ⟨v, hv, hany⟩ := Option.map_eq_some_iff.mp hmoved
    obtain ⟨t, ht, hall⟩ := List.any_eq_true.mp hany
    have habove : ∀ e ∈ v.arrival, e.stop ≤ t.source := fun e he =>
      of_decide_eq_true (List.all_eq_true.mp hall e he)
    refine ⟨c, v, hv, .loc rfl, hasWidth_singleton.mpr ⟨_, .string, rfl⟩, ⟨t, ht, habove⟩, ?_⟩
    intro hdelivers
    obtain ⟨e, he, -, hlt⟩ := hdelivers.source t ht
    have hle := habove e (List.mem_of_mem_take (List.mem_reverse.mp he))
    omega

end MethodDef

end CilMmix
