import CilMmix.Proofs.Lowering.Effect
import CilMmix.Proofs.Method.Compilation

/-! The balance of straight code. Every instruction pops and pushes as many operands as the bytecode says,
so that instructions one after the other do so too, and what lies below is left alone. -/

namespace CilMmix

/-- The declared type of a variable. -/
def MethodDef.typeOf? (m : MethodDef) : Variable → Option TypeRef
  | .arg i => m.params[i.toNat]?
  | .loc i => m.locals[i.toNat]?

namespace Op

/-- The operands that an instruction pops, by the definition of the bytecode. -/
def pops (m : MethodDef) : Op → Nat
  | store _ | dup | pop | brFalse _ | brTrue _ | ldind _ | neg | not | conv _ _ | field .load _
  | field .address _ | staticField .store _ | initobj _ | newarr _ | ldlen => 1
  | brIf _ _ | stind _ | arith _ | compare _ | field .store _ | ldelem _ | ldelema _ => 2
  | stelem _ => 3
  | call ref => ref.params.length
  | ret => if m.ret.isVoid then 0 else 1
  | _ => 0

/-- The operands that an instruction pushes, by the definition of the bytecode. -/
def pushes : Op → Nat
  | load _ | address _ | push _ | ldind _ | arith _ | neg | not | conv _ _ | compare _ | field .load _
  | field .address _ | staticField .load _ | staticField .address _ | sizeof _ | newarr _ | ldlen
  | ldelem _ | ldelema _ => 1
  | dup => 2
  | call ref => if ref.ret.isVoid then 0 else 1
  | _ => 0

/-- The types of the variables, fields and results whose values an instruction brings on the stack. -/
inductive Brings (types : List TypeDef) (m : MethodDef) : Op → TypeRef → Prop
  | variable {v : Variable} {ty : TypeRef} : m.typeOf? v = some ty → Brings types m (.load v) ty
  | field {f : FieldRef} {ty : TypeRef} : Lower.FieldHasType types f ty →
      Brings types m (.field .load f) ty
  | static {f : FieldRef} {ty : TypeRef} : Lower.FieldHasType types f ty →
      Brings types m (.staticField .load f) ty
  | result {ref : MethodRef} : ref.ret.isVoid = false → Brings types m (.call ref) ref.ret

end Op

theorem TypeRef.eq_void {ty : TypeRef} (h : ty.isVoid = true) : ty = .void := by
  unfold isVoid at h
  split at h
  · rfl
  · cases h

theorem HasWords.void {types : List TypeDef} {words : Nat} (h : HasWords types .void words) :
    words = 0 := h.unique ⟨_, .primitive .void, rfl⟩

/-- Only the primitive type without values has no words. -/
theorem HasWords.primitive_pos {types : List TypeDef} {p : Primitive} {words : Nat}
    (h : HasWords types (.primitive p) words) (hp : p ≠ .void) : words ≠ 0 := by
  have hw : words = p.size.words := h.unique ⟨_, .primitive p, rfl⟩
  cases p with
  | void => exact absurd rfl hp
  | _ => exact hw ▸ Nat.one_ne_zero

namespace OperandStack

/-- So many operands were popped, and so many pushed. -/
structure Exchanged (pops pushes : Nat) (s t : OperandStack) : Prop where
  enough : pops ≤ s.depth
  elems_eq : ∃ new, new.length = pushes ∧ t.elems = new ++ s.elems.drop pops

variable {s t u : OperandStack} {pops pushes : Nat}

theorem Exchanged.refl (s : OperandStack) : Exchanged 0 0 s s := ⟨Nat.zero_le _, [], rfl, rfl⟩

theorem Exchanged.depth_eq (h : Exchanged pops pushes s t) : t.depth + pops = s.depth + pushes := by
  obtain ⟨henough, new, hnew, he⟩ := h
  simp only [depth] at henough ⊢
  rw [he, List.length_append, List.length_drop, hnew]
  omega

/-- An operand that stays where it is counts as popped and pushed again. -/
theorem Exchanged.deepen (h : Exchanged pops pushes s t) {n : Nat} (hn : pops + n ≤ s.depth) :
    Exchanged (pops + n) (pushes + n) s t := by
  obtain ⟨-, new, hnew, he⟩ := h
  simp only [depth] at hn
  refine ⟨hn, new ++ (s.elems.drop pops).take n, ?_, ?_⟩
  · rw [List.length_append, List.length_take, List.length_drop, hnew]
    omega
  · rw [he, List.append_assoc, ← List.drop_drop, List.take_append_drop]

/-- Of what comes second, the operands that the first exchange pushed do not reach below it. -/
theorem Exchanged.trans {pops' pushes' : Nat} (h : Exchanged pops pushes s t)
    (h' : Exchanged pops' pushes' t u) :
    Exchanged (pops + (pops' - pushes)) (pushes' + (pushes - pops')) s u := by
  have hdepth := h.depth_eq
  obtain ⟨henough, new, hnew, he⟩ := h
  obtain ⟨henough', new', hnew', he'⟩ := h'
  refine ⟨by omega, new' ++ new.drop pops', ?_, ?_⟩
  · rw [List.length_append, List.length_drop, hnew, hnew']
  · rw [he', he, List.drop_append, hnew, List.drop_drop, List.append_assoc]

theorem Replaced.exchanged {takes words : Nat} (h : Replaced takes words s t) :
    Exchanged takes (if words = 0 then 0 else 1) s t := by
  obtain ⟨new, he, hshape⟩ := h.elems_eq
  refine ⟨h.enough, new, ?_, he⟩
  have hlen := congrArg List.length hshape
  rw [length_shape, he, List.length_append, Shape.push] at hlen
  split at hlen
  · rename_i hz
    rw [length_shape] at hlen
    rw [if_pos hz]
    omega
  · rename_i hz
    rw [List.length_cons, length_shape] at hlen
    rw [if_neg hz]
    omega

end OperandStack

namespace Frame

variable {types : List TypeDef} {m : MethodDef} {f : Frame}

theorem Laid.typeOf?_eq (hf : f.Laid m) (v : Variable) :
    m.typeOf? v = (v.slot f).1.elems[(v.slot f).2]?.map Element.ty := by
  cases v with
  | arg i => simp only [MethodDef.typeOf?, ← hf.params.types_eq, List.getElem?_map, Variable.slot]
  | loc i => simp only [MethodDef.typeOf?, ← hf.locals.types_eq, List.getElem?_map, Variable.slot]

theorem Laid.typeOf? (hf : f.Laid m) {v : Variable} {e : Element}
    (he : (v.slot f).1.elems[(v.slot f).2]? = some e) : m.typeOf? v = some e.ty := by
  rw [hf.typeOf?_eq, he, Option.map_some]

theorem Sized.hasWords (hs : f.Sized types) {v : Variable} {e : Element}
    (he : (v.slot f).1.elems[(v.slot f).2]? = some e) : HasWords types e.ty e.size.words := by
  have hmem := List.mem_of_getElem? he
  cases v with
  | arg i => exact ⟨_, hs f.params (by simp) e hmem, rfl⟩
  | loc i => exact ⟨_, hs f.locals (by simp) e hmem, rfl⟩

theorem Laid.ret_isEmpty (hf : f.Laid m) : f.ret.elems.isEmpty = m.ret.isVoid := by
  have htypes := congrArg List.length hf.ret.types_eq
  rw [List.length_map] at htypes
  cases hv : m.ret.isVoid with
  | true =>
    rw [hv, if_pos rfl, List.length_nil] at htypes
    rw [List.eq_nil_of_length_eq_zero htypes]
    rfl
  | false =>
    rw [hv, if_neg Bool.false_ne_true] at htypes
    cases he : f.ret.elems with
    | nil =>
      rw [he] at htypes
      cases htypes
    | cons => rfl

end Frame

namespace Op

/-- Operands that an instruction uses where they are: it leaves its result in their place or copies
them. -/
def keeps : Op → Nat
  | arith _ | neg | not | dup => 1
  | _ => 0

theorem pops_eq {m : MethodDef} {f : Frame} (hf : f.Laid m) (op : Op) :
    op.pops m = op.takes f + op.keeps := by
  cases op with
  | ret =>
    simp only [pops, takes, keeps, hf.ret_isEmpty]
    rfl
  | field a | staticField a => cases a <;> rfl
  | _ => rfl

/-- Words come on the stack if and only if the instruction pushes something. -/
theorem pushes_eq {types : List TypeDef} {m : MethodDef} {f : Frame} (hf : f.Laid m)
    (hs : f.Sized types) {before : Shape} (hbefore : ∀ slot ∈ before, 0 < slot.2) {op : Op} {words : Nat}
    (h : op.Leaves types f before words)
    (hm : ∀ ty, op.Brings types m ty → ¬ HasWords types ty 0) :
    op.pushes = (if words = 0 then 0 else 1) + op.keeps := by
  have hsome (hne : words ≠ 0) : 1 = (if words = 0 then 0 else 1) + 0 := by rw [if_neg hne]
  have hnone (hz : words = 0) (n : Nat) : n = (if words = 0 then 0 else 1) + n := by
    rw [if_pos hz, Nat.zero_add]
  have hbrought {ty : TypeRef} (hw : HasWords types ty words) (hty : op.Brings types m ty) :
      words ≠ 0 := by
    rintro rfl
    exact hm ty hty hw
  cases op with
  | load v =>
    obtain ⟨e, he, rfl⟩ := h
    exact hsome (hbrought (hs.hasWords he) (.variable (hf.typeOf? he)))
  | dup =>
    obtain ⟨offset, he⟩ := h
    have hpos : 0 < words := hbefore (offset, words) (List.mem_of_mem_head? he)
    have hne : words ≠ 0 := by omega
    simp only [pushes, keeps, if_neg hne]
  | push l =>
    obtain ⟨ty, hty, hw⟩ := h
    cases l with
    | null | int32 | int64 =>
      cases hty
      exact hsome (hw.primitive_pos (by decide))
    | str text =>
      cases hty
      exact hsome (hw.unique ⟨_, .string, rfl⟩ ▸ Nat.succ_ne_zero 1)
    | real32 | real64 => exact hty.elim
  | call ref =>
    obtain ⟨ty, rfl, hw⟩ := h
    simp only [pushes, keeps]
    cases hv : ref.ret.isVoid with
    | true =>
      rw [TypeRef.eq_void hv] at hw
      exact hnone hw.void 0
    | false => exact hsome (hbrought hw (.result hv))
  | ldind w | ldelem w =>
    obtain ⟨ty, hty, hw⟩ := h
    cases w <;> cases hty <;> exact hsome (hw.primitive_pos (by decide))
  | conv check k =>
    obtain ⟨ty, ⟨p, hp, rfl⟩, hw⟩ := h
    cases k <;> cases hp <;> exact hsome (hw.primitive_pos (by decide))
  | field a f =>
    obtain ⟨ty, hty, hw⟩ := h
    cases a with
    | load => exact hsome (hbrought hw (.field hty))
    | store =>
      cases hty
      exact hnone hw.void 0
    | address =>
      obtain ⟨inner, -, rfl⟩ := hty
      exact hsome (hw.unique ⟨_, .byRef inner, rfl⟩ ▸ Nat.one_ne_zero)
  | staticField a f =>
    obtain ⟨ty, hty, hw⟩ := h
    cases a with
    | load => exact hsome (hbrought hw (.static hty))
    | store =>
      cases hty
      exact hnone hw.void 0
    | address =>
      cases hty
      exact hsome (hw.primitive_pos (by decide))
  | address | compare | «sizeof» | ldlen =>
    obtain ⟨ty, rfl, hw⟩ := h
    exact hsome (hw.primitive_pos (by decide))
  | newarr elem =>
    obtain ⟨ty, rfl, hw⟩ := h
    exact hsome (hw.unique ⟨_, .array elem, rfl⟩ ▸ Nat.succ_ne_zero 1)
  | ldelema elem =>
    obtain ⟨ty, rfl, hw⟩ := h
    exact hsome (hw.unique ⟨_, .byRef elem, rfl⟩ ▸ Nat.one_ne_zero)
  | arith | neg | not | nop | store | pop | ret | br | brFalse | brTrue | brIf | stind | initobj
  | stelem =>
    obtain ⟨ty, rfl, hw⟩ := h
    exact hnone hw.void _
  | _ =>
    obtain ⟨ty, hty, -⟩ := h
    exact hty.elim

end Op

namespace Lower

variable {types : List TypeDef} {m : MethodDef} {site : Site} {s t : LowerState} {lines : List Line}

theorem arith_depth {a : Arith} (h : arith a s = .ok (lines, t)) : 2 ≤ s.stack.depth := by
  have hfirst : ∃ r u, operand 1 0 s = .ok (r, u) := by
    cases a <;> exact (bind_ok.mp h).imp fun _ h => h.imp fun _ h => h.1
  obtain ⟨r, u, hr⟩ := hfirst
  obtain ⟨⟨e, he, -⟩, -⟩ := operand_ok.mp hr
  exact (List.getElem?_eq_some_iff.mp he).1

theorem keeps_le {i : Instruction} (h : instruction site i s = .ok (lines, t)) :
    i.op.takes site.frame + i.op.keeps ≤ s.stack.depth ∨ i.op.keeps = 0 := by
  have hone {index word : Nat} {r : Reg} {u : LowerState} (hr : operand index word s = .ok (r, u)) :
      index + 1 ≤ s.stack.depth := by
    obtain ⟨⟨e, he, -⟩, -⟩ := operand_ok.mp hr
    exact (List.getElem?_eq_some_iff.mp he).1
  obtain ⟨offset, op⟩ := i
  cases op with
  | arith a => exact .inl (arith_depth h)
  | neg | not =>
    obtain ⟨r, u, hr, -⟩ := bind_ok.mp h
    exact .inl (hone hr)
  | dup =>
    obtain ⟨e, u, he, -⟩ := bind_ok.mp h
    exact .inl (List.getElem?_eq_some_iff.mp (peek_ok.mp he).1).1
  | _ => exact .inr rfl

theorem instruction_exchanges (hf : site.frame.Laid m) (hsized : site.frame.Sized types)
    (hl : s.layout.Sound types) (hs : Shape.Stacked s.stack.base (shape s.stack.elems)) {i : Instruction}
    (hm : ∀ ty, i.op.Brings types m ty → ¬ HasWords types ty 0)
    (h : instruction site i s = .ok (lines, t)) :
    OperandStack.Exchanged (i.op.pops m) i.op.pushes s.stack t.stack := by
  obtain ⟨-, words, hleaves, hr⟩ := (instruction_effect site i hl).2 lines t h
  rw [Op.pops_eq hf, Op.pushes_eq hf hsized (fun slot hslot => (hs.mem hslot).2.1) hleaves hm]
  rcases keeps_le h with hle | hzero
  · exact hr.exchanged.deepen hle
  · rw [hzero]
    exact hr.exchanged

/-- Instructions one after the other, each for the operands that the one before it leaves. -/
def straight (annotate : Bool) (site : Site) (label : Instruction → Option String)
    (is : List Instruction) : Lower (List (List Line)) :=
  is.mapM fun i => piece annotate site (label i) i

end Lower

namespace MethodDef

def popped (m : MethodDef) : List Instruction → Nat
  | [] => 0
  | i :: is => i.op.pops m + popped m is

def pushed : List Instruction → Nat
  | [] => 0
  | i :: is => i.op.pushes + pushed is

/-- How many of the operands that are there at the start the instructions consume. What one of them pushes
is consumed first by those after it. -/
def consumed (m : MethodDef) : List Instruction → Nat
  | [] => 0
  | i :: is => i.op.pops m + (consumed m is - i.op.pushes)

end MethodDef

theorem Lower.straight_exchanges {types : List TypeDef} {m : MethodDef} {site : Site}
    (hf : site.frame.Laid m) (hsized : site.frame.Sized types) {annotate : Bool}
    {label : Instruction → Option String} {is : List Instruction} {pieces : List (List Line)}
    {s t : LowerState} (hl : s.layout.Sound types)
    (hs : Shape.Stacked s.stack.base (shape s.stack.elems))
    (hm : ∀ i ∈ is, ∀ ty, i.op.Brings types m ty → ¬ HasWords types ty 0)
    (h : straight annotate site label is s = .ok (pieces, t)) :
    t.stack.depth + m.popped is = s.stack.depth + MethodDef.pushed is ∧
      t.stack.base = s.stack.base ∧ Shape.Stacked t.stack.base (shape t.stack.elems) ∧
      ∃ left, OperandStack.Exchanged (m.consumed is) left s.stack t.stack := by
  induction is generalizing s pieces with
  | nil =>
    obtain ⟨-, rfl⟩ := pure_ok.mp h
    exact ⟨rfl, rfl, hs, 0, .refl _⟩
  | cons i is ih =>
    rw [straight, List.mapM_cons] at h
    simp only [bind_ok, pure_ok, piece] at h
    obtain ⟨_, u, ⟨lines, _, hfirst, -, rfl⟩, rest, _, hrest, -, rfl⟩ := h
    obtain ⟨hmi, hmis⟩ := List.forall_mem_cons.mp hm
    have hone := instruction_exchanges hf hsized hl hs hmi hfirst
    obtain ⟨hlu, words, -, hr⟩ := (instruction_effect site i hl).2 lines u hfirst
    obtain ⟨hdepth, hbase, hstacked, left, hall⟩ := ih hlu (hr.stacked hs) hmis hrest
    have hfirstDepth := hone.depth_eq
    refine ⟨?_, hbase.trans hr.base_eq, hstacked, _, hone.trans hall⟩
    simp only [MethodDef.popped, MethodDef.pushed]
    omega

namespace MethodDef

/-- Straight code is balanced: the depth changes by what the instructions push and pop, the operands fill
the registers after the frame, and those below all that is consumed stay as they are. -/
theorem straight_line_balance {M : Module} {m : MethodDef} {session σ : Session} {site : Site}
    {layout : Layout} (hsession : session.Reached M)
    (hframe : (Frame.build m).run session.layout = .ok (site.frame, layout)) (hσ : σ.Reached M)
    {elems : List Element} (hs : Shape.Stacked site.frame.stop (shape elems)) {annotate : Bool}
    {label : Instruction → Option String} {is : List Instruction} {pieces : List (List Line)}
    {after : LowerState} (hm : ∀ i ∈ is, ∀ ty, i.op.Brings M.types m ty → ¬ HasWords M.types ty 0)
    (h : (Lower.straight annotate site label is).run { σ with stack := ⟨site.frame.stop, elems⟩ } =
      .ok (pieces, after)) :
    after.stack.depth + m.popped is = elems.length + pushed is ∧
      after.stack.top = site.frame.stop + Element.totalWords after.stack.elems ∧
      m.consumed is ≤ elems.length ∧
      ∃ new, after.stack.elems = new ++ elems.drop (m.consumed is) := by
  obtain ⟨hlaid, hsizes⟩ := Frame.build_ok hframe
  obtain ⟨-, hsized⟩ := hsizes M.types hsession.sound
  obtain ⟨hdepth, hbase, hstacked, left, henough, new, -, he⟩ :=
    Lower.straight_exchanges hlaid hsized hσ.sound hs hm h
  refine ⟨hdepth, ?_, henough, new, he⟩
  rw [OperandStack.top_eq, hstacked.top_eq, hbase]

def ledger : Module := ⟨"ledger", [⟨"Entry", .classType, [⟨"amount", .primitive .int64, false⟩], []⟩]⟩

/-- A method that adds two numbers, compares the sum with a field, and takes the copy of a text twice. -/
def post : MethodDef where
  name := "post"
  params := [.named "Entry", .string]
  locals := [.primitive .int64]
  body := some (number [.arith .add, .load (.arg 0), .field .load ⟨"Entry", "amount"⟩, .compare .eq,
    .store (.loc 0), .load (.arg 1), .call ⟨"Text", "copy", [.string], .string⟩, .dup])

def threeNumbers (base : Nat) : List Element :=
  [⟨base + 2, ⟨8⟩, .primitive .int64, none⟩, ⟨base + 1, ⟨8⟩, .primitive .int64, none⟩,
    ⟨base, ⟨8⟩, .primitive .int64, some "below"⟩]

/-- Of three numbers the lowest is left, and on it lies a text twice. -/
theorem straight_line_balance_post : ∃ (frame : Frame) (layout : Layout) (pieces : List (List Line))
    (after : LowerState),
    (Frame.build post).run (Session.ofModule ledger).layout = .ok (frame, layout) ∧
    (Lower.straight true (post.site {} frame) (fun _ => none) post.code).run
        ⟨.ofModule ledger, ⟨frame.stop, threeNumbers frame.stop⟩⟩ = .ok (pieces, after) ∧
    after.stack.depth = 3 ∧
    after.stack.top = frame.stop + Element.totalWords after.stack.elems ∧
    ∃ new, after.stack.elems = new ++ [⟨frame.stop, ⟨8⟩, .primitive .int64, some "below"⟩] := by
  have hok : ((Frame.build post).run (Session.ofModule ledger).layout >>= fun built =>
      (Lower.straight true (post.site {} built.1) (fun _ => none) post.code).run
        ⟨.ofModule ledger, ⟨built.1.stop, threeNumbers built.1.stop⟩⟩).toBool = true := by
    decide +kernel
  have hstop : ((Frame.build post).run (Session.ofModule ledger).layout).toOption.map
      (fun built => built.1.stop) = some 5 := by decide +kernel
  obtain ⟨⟨pieces, after⟩, hrun⟩ := exists_of_toBool hok
  obtain ⟨⟨frame, layout⟩, hframe, h⟩ := bind_eq_ok.mp hrun
  rw [hframe] at hstop
  have hstop : frame.stop = 5 := Option.some.inj hstop
  have hs : Shape.Stacked frame.stop (shape (threeNumbers frame.stop)) := by
    rw [hstop]
    exact ⟨rfl, by decide, by decide, rfl, by decide, by decide, rfl, by decide, by decide, trivial⟩
  have hpos {ty : TypeRef} {size : Size} (hsize : HasSize ledger.types ty size) (hne : size.words ≠ 0) :
      ¬ HasWords ledger.types ty 0 := by
    intro hz
    exact hne (HasWords.unique ⟨size, hsize, rfl⟩ hz)
  have hm : ∀ i ∈ post.code, ∀ ty, i.op.Brings ledger.types post ty → ¬ HasWords ledger.types ty 0 := by
    intro i hi ty hb
    have hi : i.op ∈ post.code.map Instruction.op := List.mem_map_of_mem hi
    generalize i.op = op at hi hb
    cases hb with
    | «variable» hty =>
      rename_i v
      have hv : v = .arg 0 ∨ v = .arg 1 := by simpa [post, MethodDef.code, number] using hi
      rcases hv with rfl | rfl
      · cases hty
        exact hpos (.reference rfl (by decide)) (by decide)
      · cases hty
        exact hpos .string (by decide)
    | field hty =>
      rename_i f
      have hf : f = ⟨"Entry", "amount"⟩ := by simpa [post, MethodDef.code, number] using hi
      subst hf
      obtain ⟨d, hd, rfl⟩ := hty
      cases hd
      exact hpos (.primitive .int64) (by decide)
    | static => simp [post, MethodDef.code, number] at hi
    | result =>
      rename_i ref _
      have href : ref = ⟨"Text", "copy", [.string], .string⟩ := by
        simpa [post, MethodDef.code, number] using hi
      subst href
      exact hpos .string (by decide)
  obtain ⟨hdepth, htop, -, new, he⟩ := straight_line_balance .start hframe .start hs hm h
  exact ⟨frame, layout, pieces, after, hframe, h, Nat.add_right_cancel hdepth, htop, new, he⟩

end MethodDef

end CilMmix
