import CilMmix.Proofs.Lowering.Balance
import CilMmix.Proofs.Lowering.Locality
import CilMmix.Proofs.Lowering.Statics
import CilMmix.Proofs.Method.Protection
import CilMmix.Proofs.Storage.Recall

/-! Values that are used as soon as they are there. A value with words leaves the operands below it alone;
one without words is never on the stack, and its use falls on the next operand. -/

namespace CilMmix

namespace Op

/-- The instructions that use up one value of a type and leave nothing. -/
inductive Uses (types : List TypeDef) (m : MethodDef) : Op → TypeRef → Prop
  | variable {v : Variable} {ty : TypeRef} : m.typeOf? v = some ty → Uses types m (.store v) ty
  | static {f : FieldRef} {ty : TypeRef} : Lower.FieldHasType types f ty →
      Uses types m (.staticField .store f) ty
  | pop {ty : TypeRef} : Uses types m .pop ty
  | argument {ref : MethodRef} {ty : TypeRef} : ref.params = [ty] → ref.ret.isVoid = true →
      Uses types m (.call ref) ty

end Op

theorem copyDownward_complete {source dest count : Nat} (hs : source + count ≤ registerCount)
    (hd : dest + count ≤ registerCount) : ∃ lines, (copyDownward source dest count).complete = .ok lines := by
  induction count with
  | zero => exact ⟨[], rfl⟩
  | succ count ih =>
    obtain ⟨into, hinto, -⟩ := Reg.exists_ofIndex (n := dest + count) (by omega)
    obtain ⟨value, hvalue, -⟩ := Reg.exists_ofIndex (n := source + count) (by omega)
    have hword : copyWord source dest count = .ok (.ins .set [.reg into, .reg value]) := by
      simp only [copyWord, bind_eq_ok, pure_eq_ok]
      exact ⟨into, hinto, value, hvalue, rfl⟩
    obtain ⟨rest, hrest⟩ := ih (by omega) (by omega)
    rw [copyDownward, hword]
    exact ⟨_, (Draft.complete_cons _ _).mpr ⟨rest, hrest, rfl⟩⟩

/-- No line writes a register of these values. -/
def Line.Spares (elems : List Element) (lines : List Line) : Prop :=
  ∀ l ∈ lines, ∀ e ∈ elems, ∀ r, e.offset ≤ r → r < e.stop → ¬ l.Writes r

theorem Line.Spares.append {elems : List Element} {a b : List Line} (ha : Spares elems a)
    (hb : Spares elems b) : Spares elems (a ++ b) :=
  fun l hl => (List.mem_append.mp hl).elim (ha l) (hb l)

namespace Lower

variable {types : List TypeDef} {m : MethodDef} {site : Site} {base : Nat} {below : List Element}
  {i j : Instruction} {ty : TypeRef}

theorem local_of_brings (hf : site.frame.Laid m) (hsized : site.frame.Sized types)
    (h : i.op.Brings types m ty) (hty : ¬ HasWords types ty 0) :
    Local types base below (i.op.pops m) 1 (fun _ => True) (instruction site i) := by
  obtain ⟨offset, op⟩ := i
  cases h with
  | «variable» hv =>
    refine local_loadSlot fun e he hz => hty ?_
    obtain rfl := Option.some.inj ((hf.typeOf? he).symm.trans hv)
    exact hz ▸ hsized.hasWords he
  | field hfield => exact local_loadField (fun ty' hty' => hty'.unique hfield ▸ hty) _
  | static hfield => exact local_loadStatic (fun ty' hty' => hty'.unique hfield ▸ hty) _
  | result => exact local_call _ (local_push hty _)

theorem local_of_uses (h : i.op.Uses types m ty) :
    Local types base below 1 0 (fun _ => True) (instruction site i) := by
  obtain ⟨offset, op⟩ := i
  cases h with
  | «variable» => exact local_storeSlot _ _
  | static => exact local_storeStatic _
  | pop => exact local_pop.bind fun _ _ => local_pure trivial
  | argument hparams hret =>
    rename_i ref
    have hvoid : HasWords types ref.ret 0 := by
      rw [TypeRef.eq_void hret]
      exact ⟨_, .primitive .void, rfl⟩
    have hcall : Local types base below ref.params.length 0 (fun _ => True)
        (call (Op.call ref).mnemonic ref) := local_call _ (local_push_zero hvoid _)
    rw [hparams] at hcall
    exact hcall

/-- Code that depends only on the operands above others writes no register of those. -/
theorem Local.spares {n k : Nat} {s t : LowerState} {upper : List Element} {lines : List Line}
    (hx : Local types base below n k (fun _ => True) (instruction site i)) (hs : s.layout.Sound types)
    (hn : upper.length = n) (hstack : s.stack = ⟨base, upper ++ below⟩)
    (hstacked : Shape.Stacked base (shape (upper ++ below))) (hstore : ∀ v, i.op ≠ .store v)
    (hret : i.op ≠ .ret) (h : instruction site i s = .ok (lines, t)) : Line.Spares below lines := by
  intro l hl e he r hge hlt hr
  obtain ⟨-, -, upper', -, -, hcut⟩ := hx s upper hs hn hstack lines t h
  rw [shape_append] at hstacked
  have hworks := emits_instruction site i hstore hret _ rfl hstacked.above lines _ hcut
  have hfloor : Shape.top base (shape below) ≤ r := (hworks.2.2 l hl).writes r hr
  have hbelow : Shape.Stacked base (shape below) := by
    have hdrop := hstacked.drop (shape upper).length
    rwa [List.drop_left] at hdrop
  have hstop := (hbelow.mem (List.mem_map.mpr ⟨e, he, rfl⟩)).2.2
  simp only [Element.stop] at hlt
  simp only at hstop
  omega

theorem takes_of_uses {f : Frame} {op : Op} (h : op.Uses types m ty) : op.takes f = 1 := by
  cases h with
  | argument hparams => exact congrArg List.length hparams
  | _ => rfl

theorem leaves_of_uses {f : Frame} {before : Shape} {op : Op} {words : Nat} (h : op.Uses types m ty)
    (hl : op.Leaves types f before words) : words = 0 := by
  cases h with
  | argument hparams hret =>
    obtain ⟨_, rfl, hw⟩ := hl
    rw [TypeRef.eq_void hret] at hw
    exact hw.void
  | _ =>
    obtain ⟨_, rfl, hw⟩ := hl
    exact hw.void

theorem use_elems {s t : LowerState} {lines : List Line} (hs : s.layout.Sound types)
    (hj : j.op.Uses types m ty) (h : instruction site j s = .ok (lines, t)) :
    ∃ e, s.stack.elems = e :: t.stack.elems := by
  obtain ⟨-, words, hleaves, hr⟩ := (instruction_effect site j hs).2 lines t h
  rw [leaves_of_uses hj hleaves, takes_of_uses hj] at hr
  have helems := hr.elems_of_zero
  have henough := hr.enough
  cases he : s.stack.elems with
  | nil =>
    rw [OperandStack.depth, he] at henough
    cases henough
  | cons e rest =>
    rw [he] at helems
    exact ⟨e, congrArg _ helems.symm⟩

theorem leaves_of_brings {f : Frame} (hf : f.Laid m) (hsized : f.Sized types) {before : Shape} {op : Op}
    {words : Nat} (h : op.Brings types m ty) (hl : op.Leaves types f before words) :
    HasWords types ty words := by
  cases h with
  | «variable» hv =>
    obtain ⟨e, he, rfl⟩ := hl
    obtain rfl := Option.some.inj ((hf.typeOf? he).symm.trans hv)
    exact hsized.hasWords he
  | field hfield | static hfield =>
    obtain ⟨ty', hty', hw⟩ := hl
    exact hty'.unique hfield ▸ hw
  | result =>
    obtain ⟨_, rfl, hw⟩ := hl
    exact hw

theorem takes_of_brings {f : Frame} {op : Op} (h : op.Brings types m ty) : op.takes f = op.pops m := by
  cases h <;> rfl

theorem load_elems_zero (hf : site.frame.Laid m) (hsized : site.frame.Sized types) {s t : LowerState}
    {lines : List Line} (hs : s.layout.Sound types) (hi : i.op.Brings types m ty)
    (hz : HasWords types ty 0) (h : instruction site i s = .ok (lines, t)) :
    t.stack.elems = s.stack.elems.drop (i.op.pops m) := by
  obtain ⟨-, words, hleaves, hr⟩ := (instruction_effect site i hs).2 lines t h
  rw [(leaves_of_brings hf hsized hi hleaves).unique hz, takes_of_brings hi] at hr
  exact hr.elems_of_zero

theorem mapM_exists {α β : Type} {f : α → Lower β} {as : List α} {s : LowerState}
    (h : ∀ a ∈ as, ∃ b, f a s = .ok (b, s)) : ∃ bs, as.mapM f s = .ok (bs, s) := by
  induction as with
  | nil => exact ⟨[], rfl⟩
  | cons a as ih =>
    obtain ⟨⟨b, hb⟩, hrest⟩ := List.forall_mem_cons.mp h
    obtain ⟨bs, hbs⟩ := ih hrest
    rw [List.mapM_cons]
    exact ⟨b :: bs, bind_ok.mpr ⟨b, s, hb, bind_ok.mpr ⟨bs, s, hbs, rfl⟩⟩⟩

section

variable {s : LowerState} {e : Element} {rest : List Element}

theorem pop_exists (he : s.stack.elems = e :: rest) (hfit : e.stop ≤ registerCount)
    (hpos : e.offset < e.stop) : ∃ r, pop s = .ok (r, s.withElems rest) := by
  obtain ⟨r, -, hr⟩ := Reg.exists_ofIndex (n := e.offset) (by omega)
  exact ⟨r, pop_ok.mpr ⟨e, rest, he, hr, rfl⟩⟩

theorem operand_exists (he : s.stack.elems = e :: rest) (hfit : e.stop ≤ registerCount) {word : Nat}
    (hword : word < e.size.words) : ∃ r, operand 0 word s = .ok (r, s) := by
  obtain ⟨r, -, hr⟩ := Reg.exists_ofIndex (n := e.offset + word) (by
    simp only [Element.stop] at hfit
    omega)
  exact ⟨r, operand_ok.mpr ⟨⟨e, by rw [he]; rfl, hr⟩, rfl⟩⟩

theorem sizeOf_exists (hs : s.layout.Sound types) {size : Size}
    (hsize : (Layout.sizeOf { types } ty).1 = .ok size) :
    ∃ t, sizeOf ty s = .ok (size, t) ∧ t.stack = s.stack := by
  have hagain : (s.layout.sizeOf ty).1 = .ok size := (hs.sizeOf_eq ty).1.trans hsize
  refine ⟨{ s with layout := (s.layout.sizeOf ty).2 }, ?_, rfl⟩
  unfold sizeOf
  split
  · rename_i size' layout hl
    rw [hl] at hagain
    cases hagain
    rw [hl]
  · rename_i hl
    rw [hl] at hagain
    cases hagain

theorem staticField_exists (hs : s.layout.Sound types) {f : FieldRef} (hf : FieldHasType types f ty)
    {size : Size} (hsize : (Layout.sizeOf { types } ty).1 = .ok size) :
    ∃ a t, staticField f s = .ok (a, t) ∧ t.stack = s.stack := by
  obtain ⟨d, hd, rfl⟩ := hf
  have htype : fieldType f s = .ok (d.ty, s) := by
    simp only [fieldType, bind_ok, get_ok, lift_ok, pure_ok]
    exact ⟨s, s, ⟨rfl, rfl⟩, d, s, ⟨(hs.resolveField f).trans hd, rfl⟩, rfl, rfl⟩
  obtain ⟨t, hsizeOf, hstack⟩ := sizeOf_exists hs hsize
  exact ⟨_, _, bind_ok.mpr ⟨_, _, htype, bind_ok.mpr ⟨_, _, hsizeOf, rfl⟩⟩, hstack⟩

theorem storeSlot_exists {b : Block} {index : Nat} {slot : Element} (hslot : b.elems[index]? = some slot)
    (hz : slot.size.words = 0) {r : Reg} {t : LowerState} (hpop : pop s = .ok (r, t)) :
    ∃ p, storeSlot b index s = .ok p := by
  refine ⟨_, bind_ok.mpr ⟨slot, s, lift_ok.mpr ⟨Block.elem_ok.mpr hslot, rfl⟩,
    bind_ok.mpr ⟨[], s, ?_, bind_ok.mpr ⟨r, t, hpop, rfl⟩⟩⟩⟩
  rw [hz]
  rfl

theorem storeStatic_exists (hs : s.layout.Sound types) {f : FieldRef} (hf : FieldHasType types f ty)
    {size : Size} (hsize : (Layout.sizeOf { types } ty).1 = .ok size) (he : s.stack.elems = e :: rest)
    (hfit : e.stop < registerCount) (hpos : e.offset < e.stop) : ∃ p, storeStatic f s = .ok p := by
  obtain ⟨a, t, hfield, hstack⟩ := staticField_exists hs hf hsize
  rw [← hstack] at he
  have htop : Shape.top t.stack.base (shape t.stack.elems) = e.stop := by
    rw [he]
    rfl
  obtain ⟨address, haddress, -⟩ := Reg.exists_ofIndex hfit
  obtain ⟨r, hpop⟩ := pop_exists he (Nat.le_of_lt hfit) hpos
  have hwords : ∃ lines, (List.range e.size.words).mapM (access .stou address) t = .ok (lines, t) := by
    refine mapM_exists fun word hword => ?_
    obtain ⟨value, hvalue⟩ := operand_exists he (Nat.le_of_lt hfit) (List.mem_range.mp hword)
    exact ⟨_, bind_ok.mpr ⟨value, t, hvalue, rfl⟩⟩
  obtain ⟨lines, hlines⟩ := hwords
  exact ⟨_, bind_ok.mpr ⟨a, t, hfield, bind_ok.mpr ⟨e.stop, t, top_ok.mpr ⟨htop.symm, rfl⟩,
    bind_ok.mpr ⟨address, t, lift_ok.mpr ⟨haddress, rfl⟩, bind_ok.mpr ⟨e, t, peek_ok.mpr ⟨by rw [he]; rfl, rfl⟩,
    bind_ok.mpr ⟨lines, t, hlines, bind_ok.mpr ⟨r, _, hpop, rfl⟩⟩⟩⟩⟩⟩⟩

/-- The top operand goes where the argument of a call should be. -/
theorem call_exists {ref : MethodRef} (origin : String) (hparams : ref.params = [ty])
    (hret : ref.ret.isVoid = true) (he : s.stack.elems = e :: rest)
    (ho : e.offset = Shape.top s.stack.base (shape rest)) (hfit : e.stop < registerCount)
    {r : Reg} (hpop : pop s = .ok (r, s.withElems rest)) : ∃ p, call origin ref s = .ok p := by
  have htop : Shape.top s.stack.base (shape s.stack.elems) = e.offset + e.size.words := by
    rw [he]
    rfl
  have hfit' : e.offset + e.size.words < registerCount := hfit
  have hone : (discard pop : Lower PUnit) s = .ok (⟨⟩, s.withElems rest) := by
    change (pop >>= fun _ => (pure ⟨⟩ : Lower PUnit)) s = _
    exact bind_ok.mpr ⟨r, _, hpop, rfl⟩
  have hpops : (ref.params.forM fun _ => discard pop : Lower PUnit) s = .ok (⟨⟩, s.withElems rest) := by
    rw [hparams]
    exact bind_ok.mpr ⟨⟨⟩, _, hone, rfl⟩
  have hmoved : ∃ moves, (copyDownward e.offset (e.offset + 1) e.size.words).complete = .ok moves :=
    copyDownward_complete (by omega) (by omega)
  obtain ⟨moves, hmoves⟩ := hmoved
  obtain ⟨hole, hhole, -⟩ := Reg.exists_ofIndex (n := e.offset) (by omega)
  have hcopy : (copyWords e.offset (e.offset + 1) (e.offset + e.size.words - e.offset)).complete =
      .ok moves := by
    rw [Nat.add_sub_cancel_left, copyWords, if_neg (by omega), if_pos (by omega)]
    exact hmoves
  have hpush : push origin ref.ret (s.withElems rest) = .ok (⟨⟩, s.withElems rest) := by
    rw [TypeRef.eq_void hret]
    exact bind_ok.mpr ⟨.zero, _, rfl, pushSized_ok.mpr (.inl ⟨rfl, rfl⟩)⟩
  exact ⟨_, bind_ok.mpr ⟨_, s, top_ok.mpr ⟨htop.symm, rfl⟩, bind_ok.mpr ⟨_, _, hpops,
    bind_ok.mpr ⟨e.offset, _, top_ok.mpr ⟨ho, rfl⟩, bind_ok.mpr ⟨moves, _, lift_ok.mpr ⟨hcopy, rfl⟩,
    bind_ok.mpr ⟨hole, _, lift_ok.mpr ⟨hhole, rfl⟩, bind_ok.mpr ⟨_, _, hpush, rfl⟩⟩⟩⟩⟩⟩⟩

end

/-- With a register to spare a use of a value without words works if there is an operand at all. -/
theorem use_exists (hf : site.frame.Laid m) (hsized : site.frame.Sized types) {s : LowerState}
    (hs : s.layout.Sound types) (hstacked : Shape.Stacked s.stack.base (shape s.stack.elems))
    (hroom : s.stack.top < registerCount) {size : Size}
    (hsize : (Layout.sizeOf { types } ty).1 = .ok size) (hz : HasWords types ty 0)
    (hj : j.op.Uses types m ty) (hne : s.stack.elems ≠ []) : ∃ p, instruction site j s = .ok p := by
  obtain ⟨e, rest, he⟩ := List.exists_cons_of_ne_nil hne
  rw [OperandStack.top_eq, he] at hroom
  have hfit : e.stop < registerCount := hroom
  rw [he] at hstacked
  obtain ⟨ho, hpos, -, -⟩ := hstacked
  have hlt : e.offset < e.stop := by
    simp only [Element.stop]
    omega
  obtain ⟨r, hpop⟩ := pop_exists he (Nat.le_of_lt hfit) hlt
  obtain ⟨offset, op⟩ := j
  cases hj with
  | «variable» hv =>
    rw [hf.typeOf?_eq] at hv
    obtain ⟨slot, hslot, rfl⟩ := Option.map_eq_some_iff.mp hv
    exact storeSlot_exists hslot ((hsized.hasWords hslot).unique hz) hpop
  | static hfield => exact storeStatic_exists hs hfield hsize he hfit hlt
  | pop => exact ⟨_, bind_ok.mpr ⟨r, _, hpop, rfl⟩⟩
  | argument hparams hret => exact call_exists _ hparams hret he ho hfit hpop

theorem loads_write {address : Reg} {words : List Nat} {s t : LowerState} {lines : List Line}
    (h : words.mapM (access .ldou address) s = .ok (lines, t)) {e : Element}
    (he : s.stack.elems.head? = some e) {word : Nat} (hword : word ∈ words) :
    ∃ l ∈ lines, l.Writes (e.offset + word) := by
  obtain ⟨-, hall⟩ := mapM_ok (fun _ _ _ _ hl => (access_ok hl).1) h
  obtain ⟨k, hk, rfl⟩ := List.getElem_of_mem hword
  have haccess := hall.get hk (hall.length_eq ▸ hk)
  have hmem := List.get_mem lines ⟨k, hall.length_eq ▸ hk⟩
  simp only [access, bind_ok, pure_ok, operand_ok, ← List.head?_eq_getElem?, he] at haccess
  obtain ⟨x, _, ⟨⟨e', he', hx⟩, -⟩, hline, -⟩ := haccess
  cases he'
  rw [hline] at hmem
  exact ⟨_, hmem, rfl, hx.symm⟩

/-- The load of a static field without words fills the registers of the operand that is there. -/
theorem loadStatic_overwrites {origin : String} {f : FieldRef} {s t : LowerState} {lines : List Line}
    (hs : s.layout.Sound types) (hf : FieldHasType types f ty) (hz : HasWords types ty 0)
    (h : loadStatic origin f s = .ok (lines, t)) {e : Element} (he : s.stack.elems.head? = some e) {r : Nat}
    (hge : e.offset ≤ r) (hlt : r < e.stop) : ∃ l ∈ lines, l.Writes r := by
  simp only [loadStatic, push, bind_ok, pure_ok, lift_ok, peek_ok, top_ok, Reg.ofIndex_eq_ok,
    pushSized_ok] at h
  obtain ⟨a, u, ha, ty', _, hty, top, _, ⟨rfl, rfl⟩, address, _, ⟨-, rfl⟩, _, v,
    ⟨size, w, hsize, hpush⟩, first, _, ⟨hfirst, rfl⟩, accesses, x, hlines, rfl, rfl⟩ := h
  obtain ⟨hu, -, -⟩ := (quiet_staticField types f s hs).2 a u ha
  obtain ⟨hv, -, hfield⟩ := (quiet_fieldType types f u hu).2 ty' _ hty
  obtain ⟨-, -, hsized⟩ := (quiet_sizeOf types ty' _ hv).2 size w hsize
  have hwords : size.words = 0 := HasWords.unique ⟨size, hsized, rfl⟩ (hfield.unique hf ▸ hz)
  cases fieldType_ok hty
  rcases hpush with ⟨-, rfl⟩ | ⟨hpos, -⟩
  · rw [(sizeOf_keeps hsize).1, (staticField_ok ha).1, ← List.head?_eq_getElem?, he] at hfirst
    cases hfirst
    have hword : r - e.offset ∈ (List.range e.size.words).reverse := by
      simp only [Element.stop] at hlt
      exact List.mem_reverse.mpr (List.mem_range.mpr (by omega))
    obtain ⟨l, hl, hwrites⟩ := loads_write hlines
      (by rw [(sizeOf_keeps hsize).1, (staticField_ok ha).1, he]) hword
    rw [Nat.add_sub_cancel' hge] at hwrites
    exact ⟨l, List.mem_append_right _ hl, hwrites⟩
  · omega

structure Transparent (below : List Element) (lines : List Line) (after : List Element) : Prop where
  kept : after = below
  spared : Line.Spares below lines

/-- The use of a value that was never put on the stack: it takes the next operand, and needs one. A static
field has been loaded over that operand before. -/
structure Mistaken (site : Site) (i j : Instruction) (below : List Element) (lines : List Line)
    (s : LowerState) : Prop where
  works_iff : (∃ p, instruction site j s = .ok p) ↔ below ≠ []
  taken : ∀ more t, instruction site j s = .ok (more, t) → ∃ e, below = e :: t.stack.elems
  overwritten : ∀ f e, i.op = .staticField .load f → below.head? = some e →
    ∀ r, e.offset ≤ r → r < e.stop → ∃ l ∈ lines, l.Writes r

theorem storeSlot_spares (hf : site.frame.Laid m) {v : Variable} {s t : LowerState} {lines : List Line}
    (hbelow : ∀ e ∈ below, site.frame.stop ≤ e.offset)
    (h : storeSlot (v.slot site.frame).1 (v.slot site.frame).2 s = .ok (lines, t)) :
    Line.Spares below lines := by
  intro l hl e he r hge hlt hr
  obtain ⟨slot, hslot, hwrites⟩ := storeSlot_writes h
  have hbounds := (hwrites r).mp ⟨l, hl, hr⟩
  have hstop := hf.slot_le hslot
  have hfloor := hbelow e he
  omega

/-- A value with words comes and goes above the other operands. -/
theorem pair_transparent (hf : site.frame.Laid m) (hsized : site.frame.Sized types)
    (hi : i.op.Brings types m ty) (hj : j.op.Uses types m ty) (hty : ¬ HasWords types ty 0)
    {s t u : LowerState} {upper : List Element} {lines more : List Line} (hs : s.layout.Sound types)
    (hlen : upper.length = i.op.pops m) (hstack : s.stack = ⟨site.frame.stop, upper ++ below⟩)
    (hstacked : Shape.Stacked site.frame.stop (shape (upper ++ below)))
    (hload : instruction site i s = .ok (lines, t)) (huse : instruction site j t = .ok (more, u)) :
    Transparent below (lines ++ more) u.stack.elems := by
  have hloads : Local types site.frame.stop below (i.op.pops m) 1 (fun _ => True) (instruction site i) :=
    local_of_brings hf hsized hi hty
  have huses : Local types site.frame.stop below 1 0 (fun _ => True) (instruction site j) :=
    local_of_uses hj
  obtain ⟨ht, -, between, hone, htstack, -⟩ := hloads s upper hs hlen hstack lines t hload
  obtain ⟨-, -, after, hnone, hustack, -⟩ := huses t between ht hone htstack more u huse
  obtain ⟨-, words, -, hr⟩ := (instruction_effect site i hs).2 lines t hload
  have htstacked : Shape.Stacked site.frame.stop (shape (between ++ below)) := by
    have hstays := hr.stacked (by rw [hstack]; exact hstacked)
    rwa [htstack] at hstays
  have hbelow : ∀ e ∈ below, site.frame.stop ≤ e.offset := by
    intro e he
    have hmem : (e.offset, e.size.words) ∈ shape (upper ++ below) :=
      List.mem_map.mpr ⟨e, List.mem_append_right _ he, rfl⟩
    exact (hstacked.mem hmem).1
  obtain rfl := List.eq_nil_of_length_eq_zero hnone
  refine ⟨congrArg OperandStack.elems hustack, .append ?_ ?_⟩
  · refine hloads.spares hs hlen hstack hstacked ?_ ?_ hload
    · rintro v hop
      rw [hop] at hi
      cases hi
    · intro hop
      rw [hop] at hi
      cases hi
  -- A store to a variable is the one use that writes below the operands, but there is the frame.
  · by_cases hstore : ∃ v, j.op = .store v
    · obtain ⟨v, hop⟩ := hstore
      obtain ⟨offset, op⟩ := j
      subst hop
      exact storeSlot_spares hf hbelow huse
    · refine huses.spares ht hone htstack htstacked (fun v hop => hstore ⟨v, hop⟩) ?_ huse
      intro hop
      rw [hop] at hj
      cases hj

theorem pair_mistaken (hf : site.frame.Laid m) (hsized : site.frame.Sized types)
    (hi : i.op.Brings types m ty) (hj : j.op.Uses types m ty) (hz : HasWords types ty 0) {size : Size}
    (hsize : (Layout.sizeOf { types } ty).1 = .ok size) {s t : LowerState} {lines : List Line}
    (hs : s.layout.Sound types) (hstacked : Shape.Stacked s.stack.base (shape s.stack.elems))
    (hload : instruction site i s = .ok (lines, t)) (hroom : t.stack.top < registerCount) :
    Mistaken site i j (s.stack.elems.drop (i.op.pops m)) lines t := by
  obtain ⟨ht, words, -, hr⟩ := (instruction_effect site i hs).2 lines t hload
  have helems := load_elems_zero hf hsized hs hi hz hload
  rw [← helems]
  refine ⟨⟨?_, use_exists hf hsized ht (hr.stacked hstacked) hroom hsize hz hj⟩,
    fun more u huse => use_elems ht hj huse, ?_⟩
  · rintro ⟨⟨more, u⟩, huse⟩ hnil
    obtain ⟨e, he⟩ := use_elems ht hj huse
    rw [hnil] at he
    cases he
  · intro f e hop he r hge hlt
    obtain ⟨offset, op⟩ := i
    subst hop
    rw [helems] at he
    cases hi with
    | static hfield => exact loadStatic_overwrites hs hfield hz hload he hge hlt

end Lower

namespace MethodDef

/-- A value that is used at once leaves the other operands alone if and only if it has words. Without words
it is not on the stack, and its use takes the next operand in its place. -/
theorem transparent_iff_words {M : Module} {m : MethodDef} {session σ : Session} {site : Site}
    {layout : Layout} (hsession : session.Reached M)
    (hframe : (Frame.build m).run session.layout = .ok (site.frame, layout)) (hσ : σ.Reached M)
    {elems : List Element} (hs : Shape.Stacked site.frame.stop (shape elems)) {i j : Instruction}
    {ty : TypeRef} {size : Size} (hi : i.op.Brings M.types m ty) (hj : j.op.Uses M.types m ty)
    (hsize : ((Session.ofModule M).layout.sizeOf ty).1 = .ok size) {lines : List Line} {s : LowerState}
    (hload : (Lower.instruction site i).run { σ with stack := ⟨site.frame.stop, elems⟩ } =
      .ok (lines, s)) :
    (∀ more t, (Lower.instruction site j).run s = .ok (more, t) →
      (Lower.Transparent (elems.drop (i.op.pops m)) (lines ++ more) t.stack.elems ↔ 0 < size.words)) ∧
    (size.words = 0 → s.stack.top < registerCount →
      Lower.Mistaken site i j (elems.drop (i.op.pops m)) lines s) := by
  obtain ⟨hlaid, hsizes⟩ := Frame.build_ok hframe
  obtain ⟨-, hsized⟩ := hsizes M.types hsession.sound
  have hhas : HasWords M.types ty size.words :=
    ⟨size, ((Layout.sound_ofModule M).sizeOf ty).2.1 size hsize, rfl⟩
  obtain ⟨hsound, words, hleaves, hr⟩ := (Lower.instruction_effect site i hσ.sound).2 lines s hload
  have hzero (hz : size.words = 0) : s.stack.elems = elems.drop (i.op.pops m) :=
    Lower.load_elems_zero hlaid hsized hσ.sound hi (hz ▸ hhas) hload
  constructor
  · intro more t huse
    obtain ⟨e, he⟩ := Lower.use_elems hsound hj huse
    constructor
    · intro htransparent
      -- Without words one operand fewer would be left.
      by_contra hpos
      have hlen := congrArg List.length (hzero (by omega))
      rw [he, ← htransparent.kept, List.length_cons] at hlen
      omega
    · intro hpos
      have henough : i.op.pops m ≤ elems.length := Lower.takes_of_brings hi ▸ hr.enough
      refine Lower.pair_transparent hlaid hsized hi hj ?_ hσ.sound (List.length_take_of_le henough)
        ?_ ?_ hload huse
      · intro hz
        have heq := hhas.unique hz
        omega
      · rw [List.take_append_drop]
      · rwa [List.take_append_drop]
  · intro hz hroom
    exact Lower.pair_mistaken hlaid hsized hi hj (hz ▸ hhas) hsize hσ.sound hs hload hroom

/-- A method with a parameter without words and one of one word. -/
def passUnit : MethodDef where
  name := "pass"
  params := [.named "Unit", .primitive .int64]

def seven (frame : Frame) : Element := ⟨frame.stop, ⟨4⟩, .primitive .int32, some "ldc.i4"⟩

def onSeven (frame : Frame) : LowerState := ⟨.ofModule hollow, ⟨frame.stop, [seven frame]⟩⟩

/-- The frame of the method, the code of one instruction and that of another one right after it. -/
def passing (i j : Op) (start : Frame → LowerState) :
    Except Fault (Frame × (List Line × LowerState) × (List Line × LowerState)) := do
  let built ← (Frame.build passUnit).run (Session.ofModule hollow).layout
  let loaded ← (Lower.instruction (passUnit.site {} built.1) ⟨0, i⟩).run (start built.1)
  let used ← (Lower.instruction (passUnit.site {} built.1) ⟨1, j⟩).run loaded.2
  return (built.1, loaded, used)

theorem passing_ok {i j : Op} {start : Frame → LowerState} (h : (passing i j start).toBool = true) :
    ∃ frame layout lines s more t,
      (Frame.build passUnit).run (Session.ofModule hollow).layout = .ok (frame, layout) ∧
      (Lower.instruction (passUnit.site {} frame) ⟨0, i⟩).run (start frame) = .ok (lines, s) ∧
      (Lower.instruction (passUnit.site {} frame) ⟨1, j⟩).run s = .ok (more, t) ∧
      passing i j start = .ok (frame, (lines, s), more, t) := by
  obtain ⟨result, hresult⟩ := exists_of_toBool h
  have hparts := hresult
  simp only [passing, bind_eq_ok, pure_eq_ok] at hparts
  obtain ⟨⟨frame, layout⟩, hframe, ⟨lines, s⟩, hload, ⟨more, t⟩, huse, rfl⟩ := hparts
  exact ⟨frame, layout, lines, s, more, t, hframe, hload, huse, hresult⟩

/-- The second parameter passes over the number; the first one, which has no words, takes it along. -/
theorem transparent_iff_words_passUnit : ∃ (frame : Frame) (lines more idle : List Line)
    (s t u : LowerState),
    (Lower.instruction (passUnit.site {} frame) ⟨0, .load (.arg 1)⟩).run (onSeven frame) = .ok (lines, s) ∧
    (Lower.instruction (passUnit.site {} frame) ⟨1, .pop⟩).run s = .ok (more, t) ∧
    Lower.Transparent [seven frame] (lines ++ more) t.stack.elems ∧
    (Lower.instruction (passUnit.site {} frame) ⟨0, .load (.arg 0)⟩).run (onSeven frame) = .ok (idle, u) ∧
    Lower.Mistaken (passUnit.site {} frame) ⟨0, .load (.arg 0)⟩ ⟨1, .store (.arg 0)⟩ [seven frame] idle u := by
  obtain ⟨frame, layout, lines, s, more, t, hframe, hload, huse, -⟩ := passing_ok
    (show (passing (.load (.arg 1)) .pop onSeven).toBool = true by decide +kernel)
  obtain ⟨frame', layout', idle, u, _, _, hframe', hload', -, hall⟩ := passing_ok
    (show (passing (.load (.arg 0)) (.store (.arg 0)) onSeven).toBool = true by decide +kernel)
  cases hframe.symm.trans hframe'
  have htops : (passing (.load (.arg 0)) (.store (.arg 0)) onSeven).toOption.map
      (fun r => (r.1.stop, r.2.1.2.stack.top)) = some (1, 2) := by decide +kernel
  rw [hall] at htops
  obtain ⟨hstop, htop⟩ := Prod.mk.inj (Option.some.inj htops)
  have hs : Shape.Stacked frame.stop (shape [seven frame]) := by
    have hfit : frame.stop + 1 ≤ registerCount := by
      rw [hstop]
      decide
    have hone : (seven frame).size.words = 1 := show Size.words ⟨4⟩ = 1 by decide
    exact Shape.Stacked.number trivial rfl hone hfit
  have hnumber := (transparent_iff_words .start hframe .start hs (.variable rfl) .pop rfl hload).1 more t huse
  have hroom : u.stack.top < registerCount := by
    rw [htop]
    decide
  have hunit := (transparent_iff_words (j := ⟨1, .store (.arg 0)⟩) .start hframe .start hs (.variable rfl)
    (.variable rfl) rfl hload').2 rfl hroom
  exact ⟨frame, lines, more, idle, s, t, u, hload, huse, hnumber.mpr Nat.one_pos, hload', hunit⟩

/-- A parameter without words takes the number off the stack when it is stored again, and cannot be popped
where there is nothing else, although a number can. -/
theorem unit_not_transparent :
    (∃ frame lines s more t, HasWords hollow.types (.named "Unit") 0 ∧
      (Lower.instruction (passUnit.site {} frame) ⟨0, .load (.arg 0)⟩).run (onSeven frame) = .ok (lines, s) ∧
      (Lower.instruction (passUnit.site {} frame) ⟨1, .store (.arg 0)⟩).run s = .ok (more, t) ∧
      t.stack.elems = [] ∧ ¬ Lower.Transparent [seven frame] (lines ++ more) t.stack.elems) ∧
    (passing (.load (.arg 0)) .pop fun frame => ⟨.ofModule hollow, .ofFrame frame⟩).toBool = false ∧
    (passing (.load (.arg 1)) .pop fun frame => ⟨.ofModule hollow, .ofFrame frame⟩).toBool = true := by
  refine ⟨?_, by decide +kernel, by decide +kernel⟩
  obtain ⟨frame, layout, lines, s, more, t, -, hload, huse, hall⟩ := passing_ok
    (show (passing (.load (.arg 0)) (.store (.arg 0)) onSeven).toBool = true by decide +kernel)
  have hdepth : (passing (.load (.arg 0)) (.store (.arg 0)) onSeven).toOption.map
      (fun r => r.2.2.2.stack.elems) = some [] := by decide +kernel
  rw [hall] at hdepth
  have hnil : t.stack.elems = [] := Option.some.inj hdepth
  refine ⟨frame, lines, s, more, t, hasWords_unit, hload, huse, hnil, fun htransparent => ?_⟩
  cases hnil.symm.trans htransparent.kept

end MethodDef

end CilMmix
