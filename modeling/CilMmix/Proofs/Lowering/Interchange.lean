import CilMmix.Proofs.Assembly.Moves
import CilMmix.Proofs.Assembly.Piece
import CilMmix.Proofs.Lowering.Twins
import CilMmix.Proofs.Method.Joins

/-! When two operand stacks of one shape get the same code. The load of a field copies registers if its
operand is a value type and goes to memory otherwise, which the shape does not tell. -/

namespace CilMmix

namespace Layout

theorem types_place (typeName : String) (fields : List FieldDef) (offset : Size) (l : Layout) :
    (place typeName fields offset l).2.types = l.types := by
  induction fields generalizing offset l with
  | nil => rfl
  | cons f fields ih =>
    rw [place]
    split
    · rename_i s l' he
      rw [ih]
      exact congrArg (fun p => p.2.types) he.symm
    · rename_i fault l' he
      exact congrArg (fun p => p.2.types) he.symm

theorem types_fieldOffset (f : FieldRef) (l : Layout) : (l.fieldOffset f).2.types = l.types := by
  unfold fieldOffset
  split
  · rfl
  · split
    · rfl
    · rename_i t _
      have hp := types_place t.name t.instanceFields .zero l
      split
      · rename_i he
        rw [he] at hp
        exact hp
      · rename_i he
        rw [he] at hp
        split <;> exact hp

/-- Whether the top operand is a value type. -/
def structOnTop (l : Layout) (elems : List Element) : Bool :=
  elems.head?.any fun e => l.isStruct e.ty

end Layout

namespace Lower

/-- Puts a field in the place of the object: the object, the offset of the field, the register of the
object and the words of the field. -/
def fieldPlace (origin : String) (f : FieldRef) : Lower (Element × Size × Reg × Nat) := do
  let ty ← fieldType f
  let offset ← fieldOffset f
  let object ← peek 0
  let source ← pop
  push origin ty
  return (object, offset, source, (← peek 0).size.words)

/-- The field of a value in registers. -/
def slide (offset : Size) (source : Reg) (words : Nat) : Lower (List Line) :=
  (copyWords (source.index.val + offset.words) source.index.val words).complete

/-- The field of an object in memory. -/
def fetch (offset : Size) (source : Reg) (words : Nat) : Lower (List Line) := do
  let scratch ← top
  let lines ← (List.range words).reverse.mapM fun word => do
    let into ← operand 0 word
    accessAt .ldou (.reg into) source (offset.roundedBytes + word * wordBytes) scratch
  return lines.flatten

theorem loadField_eq (origin : String) (f : FieldRef) : loadField origin f = (do
    let (object, offset, source, words) ← fieldPlace origin f
    if (← get).layout.isStruct object.ty then slide offset source words
    else fetch offset source words) := by
  simp only [loadField, fieldPlace, slide, fetch, bind_assoc, pure_bind]

theorem rel_fieldPlace (origin : String) (f : FieldRef) :
    Rel (fun p q => p.2 = q.2) (fieldPlace origin f) (fieldPlace origin f) := by
  refine (uniform_fieldType f).bind_eq fun ty => (uniform_fieldOffset f).bind_eq fun offset =>
    (rel_peek 0).bind fun x y _ => uniform_pop.bind_eq fun source =>
    (uniform_push _ _).bind_eq fun _ => (rel_peek 0).bind fun x' y' hxy => ?_
  rw [hxy.2]
  exact fun _ _ hst => .ok rfl hst

theorem uniform_slide (offset : Size) (source : Reg) (words : Nat) :
    Uniform (slide offset source words) := uniform_lift _

theorem uniform_fetch (offset : Size) (source : Reg) (words : Nat) :
    Uniform (fetch offset source words) := by
  refine uniform_top.bind_eq fun scratch => Rel.bind_eq ?_ fun _ => uniform_pure _
  exact uniform_mapM _ fun word => (uniform_operand 0 word).bind_eq fun _ => uniform_lift _

theorem fieldType_ok {s t : LowerState} {f : FieldRef} {ty : TypeRef}
    (h : fieldType f s = .ok (ty, t)) : t = s := by
  simp only [fieldType, bind_ok, get_ok, lift_ok, pure_ok] at h
  obtain ⟨_, _, ⟨rfl, rfl⟩, _, _, ⟨-, rfl⟩, -, rfl⟩ := h
  rfl

theorem fieldOffset_ok {s t : LowerState} {f : FieldRef} {offset : Size}
    (h : fieldOffset f s = .ok (offset, t)) :
    t.stack = s.stack ∧ t.layout.types = s.layout.types := by
  have hty := Layout.types_fieldOffset f s.layout
  unfold fieldOffset at h
  split at h
  · rename_i he
    cases h
    rw [he] at hty
    exact ⟨rfl, hty⟩
  · cases h

theorem push_ok {s t : LowerState} {origin : String} {ty : TypeRef} {u : Unit}
    (h : push origin ty s = .ok (u, t)) : t.layout.types = s.layout.types ∧
      ∀ e ∈ t.stack.elems, e ∈ s.stack.elems ∨ 0 < e.size.words := by
  obtain ⟨size, s₁, hsize, hpush⟩ := bind_ok.mp h
  unfold sizeOf at hsize
  split at hsize
  · rename_i layout he
    cases hsize
    have htypes : layout.types = s.layout.types := congrArg (fun p => p.2.types) he.symm
    rcases pushSized_ok.mp hpush with ⟨-, rfl⟩ | ⟨hpos, -, rfl⟩
    · exact ⟨htypes, fun e hmem => .inl hmem⟩
    · refine ⟨htypes, fun e hmem => ?_⟩
      rcases List.mem_cons.mp hmem with rfl | hmem
      · exact .inr hpos
      · exact .inl hmem
  · cases hsize

/-- The object is the top operand, and a field has words if all operands do. -/
theorem fieldPlace_ok {origin : String} {f : FieldRef} {s t : LowerState} {object : Element}
    {offset : Size} {source : Reg} {words : Nat}
    (h : fieldPlace origin f s = .ok ((object, offset, source, words), t)) :
    s.stack.elems.head? = some object ∧ t.layout.types = s.layout.types ∧
      ((∀ e ∈ s.stack.elems, 0 < e.size.words) → 0 < words) := by
  simp only [fieldPlace, bind_ok] at h
  obtain ⟨ty, s₁, hty, offset', s₂, hoffset, object', s₃, hpeek, source', s₄, hpop, _, s₅, hpush, e, s₆,
    htop, hres⟩ := h
  obtain ⟨hres, rfl⟩ := pure_ok.mp hres
  cases hres
  cases fieldType_ok hty
  obtain ⟨hstack, htypes⟩ := fieldOffset_ok hoffset
  obtain ⟨hobject, rfl⟩ := peek_ok.mp hpeek
  obtain ⟨x, rest, hx, -, rfl⟩ := pop_ok.mp hpop
  obtain ⟨htypes', hmem⟩ := push_ok hpush
  obtain ⟨he, rfl⟩ := peek_ok.mp htop
  rw [hstack] at hobject hx
  refine ⟨by rw [List.head?_eq_getElem?]; exact hobject, htypes'.trans htypes, fun hpos => ?_⟩
  rcases hmem e (List.mem_of_getElem? he) with hin | hpos'
  · exact hpos e (by rw [hx]; exact List.mem_cons_of_mem _ hin)
  · exact hpos'

theorem loadField_of_place {origin : String} {f : FieldRef} {s t : LowerState} {object : Element}
    {offset : Size} {source : Reg} {words : Nat}
    (h : fieldPlace origin f s = .ok ((object, offset, source, words), t)) :
    loadField origin f s =
      if s.layout.structOnTop s.stack.elems then slide offset source words t
      else fetch offset source words t := by
  obtain ⟨hhead, htypes, -⟩ := fieldPlace_ok h
  have hflag : s.layout.structOnTop s.stack.elems = t.layout.isStruct object.ty := by
    simp only [Layout.structOnTop, hhead, Option.any_some]
    exact Layout.isStruct_congr htypes.symm _
  rw [loadField_eq, hflag]
  change (fieldPlace origin f s >>= _) = _
  rw [h]
  change (if t.layout.isStruct object.ty then slide offset source words
    else fetch offset source words) t = _
  split <;> rfl

theorem loadField_of_no_place {origin : String} {f : FieldRef} {s : LowerState} {fault : Fault}
    (h : fieldPlace origin f s = .error fault) : loadField origin f s = .error fault := by
  rw [loadField_eq]
  change (fieldPlace origin f s >>= _) = _
  rw [h]
  rfl

/-- Operands that are both value types or both not are not told apart. -/
theorem loadField_alike {origin : String} {f : FieldRef} {s t : LowerState} (hst : Twin s t)
    (hflag : s.layout.structOnTop s.stack.elems = t.layout.structOnTop t.stack.elems) :
    Alike Eq (loadField origin f s) (loadField origin f t) := by
  have hplace := rel_fieldPlace origin f s t hst
  cases hs : fieldPlace origin f s with
  | error fault =>
    rw [hs] at hplace
    cases ht : fieldPlace origin f t with
    | error fault' =>
      rw [loadField_of_no_place hs, loadField_of_no_place ht]
      exact .error
    | ok q =>
      rw [ht] at hplace
      cases hplace
  | ok p =>
    obtain ⟨⟨x, offset, source, words⟩, s'⟩ := p
    cases ht : fieldPlace origin f t with
    | error fault' =>
      rw [hs, ht] at hplace
      cases hplace
    | ok q =>
      obtain ⟨⟨y, rest⟩, t'⟩ := q
      rw [hs, ht] at hplace
      cases hplace with
      | ok hpq hst' =>
        cases hpq
        rw [loadField_of_place hs, loadField_of_place ht, hflag]
        split
        · exact uniform_slide _ _ _ s' t' hst'
        · exact uniform_fetch _ _ _ s' t' hst'

theorem slide_ok {offset : Size} {source : Reg} {words : Nat} {s t : LowerState} {lines : List Line}
    (h : slide offset source words s = .ok (lines, t)) :
    ∀ l ∈ lines, ∃ x y : Reg, l = .ins .set [.reg x, .reg y] := by
  obtain ⟨hcopy, -⟩ := lift_ok.mp h
  intro l hl
  obtain ⟨_, -, x, y, -, -, rfl⟩ := (copyWords_ok hcopy).mem hl
  exact ⟨x, y, rfl⟩

theorem accessAt_ok {code : Opcode} {x : Operand} {r : Reg} {bytes scratch : Nat} {lines : List Line}
    (h : accessAt code x r bytes scratch = .ok lines) :
    (∀ l ∈ lines, ∃ code operands, l = .ins code operands) ∧ ∃ operands, .ins code operands ∈ lines := by
  simp only [accessAt, bind_eq_ok, pure_eq_ok] at h
  obtain ⟨⟨before, operand⟩, himm, rfl⟩ := h
  refine ⟨fun l hl => ?_, ⟨_, List.mem_append_right _ List.mem_cons_self⟩⟩
  rcases List.mem_append.mp hl with hl | hl
  · unfold immediate at himm
    split at himm
    · cases himm
      simp at hl
    · obtain ⟨scratchReg, -, hpure⟩ := bind_eq_ok.mp himm
      cases pure_eq_ok.mp hpure
      exact loadConstant_ins hl
  · exact ⟨_, _, List.mem_singleton.mp hl⟩

theorem fetch_ok {offset : Size} {source : Reg} {words : Nat} {s t : LowerState} {lines : List Line}
    (h : fetch offset source words s = .ok (lines, t)) (hw : 0 < words) :
    (∀ l ∈ lines, ∃ code operands, l = .ins code operands) ∧
      ∃ operands, .ins .ldou operands ∈ lines := by
  simp only [fetch, bind_ok, pure_ok] at h
  obtain ⟨scratch, s₁, -, parts, s₂, hparts, rfl, -⟩ := h
  obtain ⟨hspec, hlen⟩ := mapM_all (Q := fun part =>
    (∀ l ∈ part, ∃ code operands, l = .ins code operands) ∧ ∃ operands, .ins .ldou operands ∈ part)
    (fun word s part t hpart => by
      obtain ⟨into, s', -, haccess⟩ := bind_ok.mp hpart
      exact accessAt_ok (lift_ok.mp haccess).1) hparts
  rw [List.length_reverse, List.length_range] at hlen
  constructor
  · intro l hl
    obtain ⟨part, hmem, hl⟩ := List.mem_flatten.mp hl
    exact (hspec part hmem).1 l hl
  · obtain ⟨part, hmem⟩ := List.exists_mem_of_length_pos (hlen ▸ hw)
    obtain ⟨operands, ho⟩ := (hspec part hmem).2
    exact ⟨operands, List.mem_flatten.mpr ⟨part, hmem, ho⟩⟩

end Lower

namespace Line

theorem mem_render {c : Char} {lines : List Line} :
    c ∈ (render lines).toList ↔ ∃ l ∈ lines, c ∈ l.text.toList := by
  induction lines with
  | nil => simp [render, String.join]
  | cons l lines ih => simp [render_cons, ih]

/-- The name of a load has a letter that no move has. -/
theorem mem_text_ldou (operands : List Operand) : 'U' ∈ (ins .ldou operands).text.toList := by
  simp [ins, text, Opcode.text]

theorem not_mem_text_set (x y : Reg) : 'U' ∉ (ins .set [.reg x, .reg y]).text.toList := by
  have hdigits : ∀ n, 'U' ∉ Nat.toDigits 10 n := fun n h =>
    absurd (Nat.isDigit_of_mem_toDigits (by decide) (by decide) h) (by decide)
  simp [ins, text, Opcode.text, operandsText, Operand.text, Reg.text, hdigits]

end Line

/-- Code that moves registers is never the code that goes to memory, also as text. -/
theorem text_ne_of_moves {annotate : Bool} {label : Option String} {i : Instruction}
    {moves loads : List Line} (hmoves : ∀ l ∈ moves, ∃ x y : Reg, l = .ins .set [.reg x, .reg y])
    (hins : ∀ l ∈ loads, ∃ code operands, l = .ins code operands)
    (hload : ∃ operands, .ins .ldou operands ∈ loads) :
    Line.render (piece annotate label i moves) ≠ Line.render (piece annotate label i loads) := by
  obtain ⟨start, htext⟩ := render_piece annotate label i
  have hmovesIns : ∀ l ∈ moves, ∃ code operands, l = Line.ins code operands := by
    intro l hl
    obtain ⟨x, y, rfl⟩ := hmoves l hl
    exact ⟨_, _, rfl⟩
  rw [htext moves hmovesIns, htext loads hins]
  intro he
  have hrest := congrArg String.toList ((String.append_right_inj start).mp he)
  obtain ⟨operands, hmem⟩ := hload
  have hno : 'U' ∉ (if label.isSome && moves.isEmpty then " SWYM\n" else Line.render moves).toList := by
    split
    · decide
    · intro hu
      obtain ⟨l, hl, hu⟩ := Line.mem_render.mp hu
      obtain ⟨x, y, rfl⟩ := hmoves l hl
      exact Line.not_mem_text_set x y hu
  have hnonempty : loads.isEmpty = false := by
    cases loads with
    | nil => simp at hmem
    | cons => rfl
  rw [hrest, hnonempty, Bool.and_false, if_neg (by decide)] at hno
  exact hno (Line.mem_render.mpr ⟨_, hmem, Line.mem_text_ldou operands⟩)

/-- Two translations that both failed, or gave the same text and left operands of one shape. -/
def sameCode : Except Fault (List Line × LowerState) → Except Fault (List Line × LowerState) → Bool
  | .ok (a, s), .ok (b, t) =>
    Line.render a == Line.render b && sameShape s.stack.elems t.stack.elems
  | .error _, .error _ => true
  | _, _ => false

namespace Route

/-- An instruction does not tell two operand stacks apart. -/
def Interchangeable (route : Route) (i : Instruction) (session : Session) (a b : List Element) :
    Prop := sameCode (route.visit i a session) (route.visit i b session) = true

/-- There is no code for an instruction. -/
def Fails (route : Route) (i : Instruction) (session : Session) (a : List Element) : Prop :=
  ∃ fault, route.visit i a session = .error fault

theorem visit_eq (route : Route) (i : Instruction) (arriving : List Element) (session : Session) :
    route.visit i arriving session = (Lower.instruction route.site i
      { session with stack := ⟨route.site.frame.stop, arriving⟩ }).map
        fun p => (piece route.annotate (route.label? i.offset) i p.1, p.2) := by
  simp only [visit, StateT.run, Lower.piece]
  change (Lower.instruction route.site i _ >>= _) = _
  cases Lower.instruction route.site i _ <;> rfl

theorem interchangeable_of_alike {route : Route} {i : Instruction} {session : Session}
    {a b : List Element} (h : Lower.Alike Eq
      (Lower.instruction route.site i { session with stack := ⟨route.site.frame.stop, a⟩ })
      (Lower.instruction route.site i { session with stack := ⟨route.site.frame.stop, b⟩ })) :
    route.Interchangeable i session a b := by
  unfold Interchangeable
  rw [visit_eq, visit_eq]
  generalize Lower.instruction route.site i _ = x at h ⊢
  generalize Lower.instruction route.site i _ = y at h ⊢
  cases h with
  | error => rfl
  | ok hab hst =>
    subst hab
    simp [sameCode, Except.map, sameShape, hst.shape_eq]

/-- With a value type on one side only, the two loads have different texts. -/
theorem texts_ne {route : Route} {i : Instruction} {f : FieldRef} {origin : String}
    {s t s' t' : LowerState} {la lb : List Line} (hst : Lower.Twin s t)
    (hpos : ∀ e ∈ s.stack.elems, 0 < e.size.words)
    (hs : s.layout.structOnTop s.stack.elems = true)
    (ht : t.layout.structOnTop t.stack.elems = false)
    (ha : Lower.loadField origin f s = .ok (la, s')) (hb : Lower.loadField origin f t = .ok (lb, t')) :
    Line.render (piece route.annotate (route.label? i.offset) i la) ≠
      Line.render (piece route.annotate (route.label? i.offset) i lb) := by
  have hplace := Lower.rel_fieldPlace origin f s t hst
  cases hps : Lower.fieldPlace origin f s with
  | error fault =>
    rw [Lower.loadField_of_no_place hps] at ha
    cases ha
  | ok p =>
    cases hpt : Lower.fieldPlace origin f t with
    | error fault =>
      rw [Lower.loadField_of_no_place hpt] at hb
      cases hb
    | ok q =>
      obtain ⟨⟨x, offset, source, words⟩, s₁⟩ := p
      obtain ⟨⟨y, rest⟩, t₁⟩ := q
      rw [hps, hpt] at hplace
      cases hplace with
      | ok hpq hst' =>
        cases hpq
        rw [Lower.loadField_of_place hps, if_pos hs] at ha
        rw [Lower.loadField_of_place hpt, if_neg (by simp [ht])] at hb
        have hwords := (Lower.fieldPlace_ok hps).2.2 hpos
        obtain ⟨hins, hload⟩ := Lower.fetch_ok hb hwords
        exact text_ne_of_moves (Lower.slide_ok ha) hins hload

theorem pos_of_shape {a b : List Element} (hab : shape a = shape b)
    (hpos : ∀ e ∈ a, 0 < e.size.words) : ∀ e ∈ b, 0 < e.size.words := by
  intro e he
  obtain ⟨k, hk⟩ := List.mem_iff_getElem?.mp he
  rcases sameSlot_of_shape hab k with ⟨-, hnone⟩ | ⟨x, y, hx, hy, -, hw⟩
  · rw [hk] at hnone
    cases hnone
  · rw [hk] at hy
    cases hy
    exact hw ▸ hpos x (List.mem_of_getElem? hx)

theorem texts_ne_of_flags {route : Route} {i : Instruction} {f : FieldRef} {origin : String}
    {s t s' t' : LowerState} {la lb : List Line} (hst : Lower.Twin s t)
    (hpos : ∀ e ∈ s.stack.elems, 0 < e.size.words)
    (hflag : s.layout.structOnTop s.stack.elems ≠ t.layout.structOnTop t.stack.elems)
    (ha : Lower.loadField origin f s = .ok (la, s')) (hb : Lower.loadField origin f t = .ok (lb, t')) :
    Line.render (piece route.annotate (route.label? i.offset) i la) ≠
      Line.render (piece route.annotate (route.label? i.offset) i lb) := by
  cases hs : s.layout.structOnTop s.stack.elems with
  | true =>
    have ht : t.layout.structOnTop t.stack.elems = false := by simpa [hs] using hflag
    exact texts_ne hst hpos hs ht ha hb
  | false =>
    have ht : t.layout.structOnTop t.stack.elems = true := by simpa [hs] using hflag
    exact (texts_ne hst.symm (pos_of_shape hst.shape_eq hpos) ht hs hb ha).symm

/-- With a value type on one side only, the load of a field is interchangeable when there is none. -/
theorem fails_of_interchangeable {route : Route} {i : Instruction} {session : Session}
    {a b : List Element} {f : FieldRef} (hab : shape a = shape b)
    (hpos : ∀ e ∈ a, 0 < e.size.words) (hf : i.op = .field .load f)
    (hflag : session.layout.structOnTop a ≠ session.layout.structOnTop b)
    (h : route.Interchangeable i session a b) :
    route.Fails i session a ∧ route.Fails i session b := by
  have hst : Lower.Twin { session with stack := ⟨route.site.frame.stop, a⟩ }
      { session with stack := ⟨route.site.frame.stop, b⟩ } := ⟨rfl, rfl, hab⟩
  have hload : Lower.instruction route.site i = Lower.loadField i.op.mnemonic f := by
    unfold Lower.instruction
    rw [hf]
    rfl
  unfold Interchangeable at h
  unfold Fails
  rw [visit_eq, visit_eq, hload] at h ⊢
  cases ha : Lower.loadField i.op.mnemonic f
      { session with stack := ⟨route.site.frame.stop, a⟩ } with
  | error fault =>
    cases hb : Lower.loadField i.op.mnemonic f
        { session with stack := ⟨route.site.frame.stop, b⟩ } with
    | error fault' => exact ⟨⟨fault, rfl⟩, ⟨fault', rfl⟩⟩
    | ok q => simp [ha, hb, sameCode, Except.map] at h
  | ok p =>
    cases hb : Lower.loadField i.op.mnemonic f
        { session with stack := ⟨route.site.frame.stop, b⟩ } with
    | error fault' => simp [ha, hb, sameCode, Except.map] at h
    | ok q =>
      simp only [ha, hb, sameCode, Except.map, Bool.and_eq_true, beq_iff_eq] at h
      exact absurd h.1 (texts_ne_of_flags hst hpos hflag ha hb)

/-- Stacks of one shape are interchangeable for every instruction but the load of a field, and for that
one if both have a value type on top or both have not; otherwise only when there is no code at all. -/
theorem interchangeable_iff (route : Route) (i : Instruction) (session : Session)
    {a b : List Element} (hab : sameShape a b = true) (hpos : ∀ e ∈ a, 0 < e.size.words) :
    route.Interchangeable i session a b ↔ ∀ f, i.op = .field .load f →
      session.layout.structOnTop a = session.layout.structOnTop b ∨
        (route.Fails i session a ∧ route.Fails i session b) := by
  have hshape := sameShape_iff.mp hab
  have hst : Lower.Twin { session with stack := ⟨route.site.frame.stop, a⟩ }
      { session with stack := ⟨route.site.frame.stop, b⟩ } := ⟨rfl, rfl, hshape⟩
  constructor
  · intro h f hf
    by_cases hflag : session.layout.structOnTop a = session.layout.structOnTop b
    · exact .inl hflag
    · exact .inr (fails_of_interchangeable hshape hpos hf hflag h)
  · intro h
    by_cases hop : ∃ f, i.op = .field .load f
    · obtain ⟨f, hf⟩ := hop
      rcases h f hf with hflag | ⟨⟨fault, ha⟩, ⟨fault', hb⟩⟩
      · refine interchangeable_of_alike ?_
        unfold Lower.instruction
        rw [hf]
        exact Lower.loadField_alike hst hflag
      · unfold Interchangeable
        rw [ha, hb]
        rfl
    · exact interchangeable_of_alike
        (Lower.uniform_instruction route.site i (fun f hf => hop ⟨f, hf⟩) _ _ hst)

/-- A module with a value type of one word. -/
def cells : Module := ⟨"cells", [⟨"Cell", .structType, [⟨"value", .primitive .int64, false⟩], []⟩]⟩

/-- The body of a method without values, parameters and variables. -/
def plain : Route := ⟨⟨⟨.empty, .empty, .empty, .empty, false⟩, "plain", false⟩, false, []⟩

/-- A truth value and a number are tested by the same code. -/
theorem interchangeable_bool_int32 : plain.Interchangeable ⟨0, .brTrue 0⟩ (.ofModule cells)
    [⟨0, .word, .primitive .bool, none⟩] [⟨0, .word, .primitive .int32, none⟩] :=
  (interchangeable_iff plain _ _ (by decide) (by decide)).mpr nofun

/-- A method that loads the field of a cell, or of the cell at an address. -/
def eitherCell : MethodDef where
  name := "either"
  params := [.primitive .bool, .named "Cell", .pointer (.named "Cell")]
  ret := .primitive .int64
  body := some (MethodDef.number [.load (.arg 0), .brTrue 4, .load (.arg 1), .br 5, .load (.arg 2),
    .field .load ⟨"Cell", "value"⟩, .ret])

def cellOnTop : List Element := [⟨4, .word, .named "Cell", some "arg1"⟩]

def addressOnTop : List Element := [⟨4, .word, .pointer (.named "Cell"), some "arg2"⟩]

/-- A cell and the address of a cell come to one load in the same register. The method compiles, with the
code for the cell, and the field at the address is not loaded alike. -/
theorem not_interchangeable_cell_pointer : ∃ c : eitherCell.Compilation {} (.ofModule cells),
    c.route.Brings cells 5 cellOnTop ∧ c.route.Brings cells 5 addressOnTop ∧
    sameShape cellOnTop addressOnTop = true ∧ (c.visit? 5).map Visit.arrival = some cellOnTop ∧
    ¬ c.route.Interchangeable ⟨5, .field .load ⟨"Cell", "value"⟩⟩ (.ofModule cells) cellOnTop
      addressOnTop := by
  have hok : (eitherCell.compile {} (.ofModule cells)).toBool = true := by decide +kernel
  obtain ⟨⟨lines, session⟩, h⟩ := exists_of_toBool hok
  obtain ⟨c, -, -⟩ := MethodDef.compile_ok.mp h
  have harrivals : ((c.visit? 4).map Visit.arrival, (c.visit? 5).map Visit.arrival) =
      (some [], some cellOnTop) :=
    c.parts_eq (fun _ walk => ((walk.stops[4]?.bind Stop.visit).map Visit.arrival,
      (walk.stops[5]?.bind Stop.visit).map Visit.arrival)) (by decide +kernel)
  obtain ⟨hfour, hfive⟩ := Prod.mk.inj harrivals
  obtain ⟨v, hv, hempty⟩ := Option.map_eq_some_iff.mp hfour
  obtain ⟨w, hw, hcell⟩ := Option.map_eq_some_iff.mp hfive
  have hload : ((c.route.visit ⟨4, .load (.arg 2)⟩ [] (.ofModule cells)).toOption.map
      fun p => p.2.stack.elems) = some addressOnTop :=
    c.parts_eq (fun frame _ => ((eitherCell.route {} frame).visit ⟨4, .load (.arg 2)⟩ []
      (.ofModule cells)).toOption.map fun p => p.2.stack.elems) (by decide +kernel)
  have hcodes : sameCode (c.route.visit ⟨5, .field .load ⟨"Cell", "value"⟩⟩ cellOnTop (.ofModule cells))
      (c.route.visit ⟨5, .field .load ⟨"Cell", "value"⟩⟩ addressOnTop (.ofModule cells)) = false :=
    c.parts_eq (fun frame _ => sameCode
      ((eitherCell.route {} frame).visit ⟨5, .field .load ⟨"Cell", "value"⟩⟩ cellOnTop (.ofModule cells))
      ((eitherCell.route {} frame).visit ⟨5, .field .load ⟨"Cell", "value"⟩⟩ addressOnTop
        (.ofModule cells))) (by decide +kernel)
  have hbrings : c.route.Brings cells 5 addressOnTop := by
    obtain ⟨⟨code, after⟩, hvisit, hafter⟩ := exists_of_toOption hload
    have hstart := c.brings_arrival (M := cells) .start hv
    rw [hempty] at hstart
    have hedge : Edge eitherCell.code 4 5 := ⟨_, _, rfl, rfl, .inl rfl⟩
    rw [← hafter]
    exact .step hstart rfl hedge .start hvisit
  refine ⟨c, hcell ▸ c.brings_arrival .start hw, hbrings, by decide, hfive, fun hsame => ?_⟩
  cases hcodes.symm.trans hsame

end Route

end CilMmix
