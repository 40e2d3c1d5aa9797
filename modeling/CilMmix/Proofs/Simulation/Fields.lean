import CilMmix.Proofs.Lowering.Growth
import CilMmix.Proofs.Lowering.Interchange
import CilMmix.Proofs.Machine.Words
import CilMmix.Proofs.Simulation.ArrayHistory
import CilMmix.Proofs.Storage.Offsets

/-! Fields in memory. The words of a field stand in a row, at its offset from the address of the object. -/

namespace CilMmix

/-- The layout puts an instance field of so many words behind so many others. -/
structure Layout.Puts (types : List TypeDef) (l : Layout) (f : FieldRef) (t : TypeDef) (index : Nat)
    (d : FieldDef) (offset words : Nat) : Prop extends Located types f t index d offset where
  sound : l.Sound types
  resolved : Layout.resolveField { types } f = .ok d
  hasWords : HasWords types d.ty words
  offset_eq : (l.fieldOffset f).1 = .ok (.ofWords offset)

theorem Layout.mem_of_resolveField {types : List TypeDef} {f : FieldRef} {t : TypeDef} {d : FieldDef}
    (ht : declared? types f.declaringType = some t) (h : resolveField { types } f = .ok d) :
    d ∈ t.fields ∧ d.name = f.name := by
  unfold resolveField at h
  rw [ht, Option.bind_some] at h
  split at h
  · rename_i d' hfind
    cases h
    have hname := List.find?_some hfind
    exact ⟨List.mem_of_find?_eq_some hfind, eq_of_beq hname⟩
  · cases h

/-- Where names tell fields apart, an offset that a layout gives puts there the field of the name. -/
theorem Layout.Placing.puts {types : List TypeDef} {l : Layout} {f : FieldRef} {d : FieldDef} {size : Size}
    {words : Nat} (hnames : Legible types) (h : l.Placing types) (hd : resolveField { types } f = .ok d)
    (hinstance : d.isStatic = false) (hwords : HasWords types d.ty words)
    (hok : (l.fieldOffset f).1 = .ok size) :
    ∃ t index offset, l.Puts types f t index d offset words ∧ size = .ofWords offset := by
  obtain ⟨t, index, d', offset, hlocated, rfl⟩ := h.located hnames hok
  obtain ⟨hmem, hname⟩ := mem_of_resolveField hlocated.declared hd
  have hfield : d ∈ t.instanceFields := List.mem_filter.mpr ⟨hmem, by rw [hinstance, Bool.not_false]⟩
  obtain ⟨i, hi⟩ := List.mem_iff_getElem?.mp hfield
  obtain ⟨declaringType, name⟩ := f
  obtain rfl : d.name = name := hname
  obtain rfl := located_index hnames hi hlocated
  cases hlocated.field.symm.trans hi
  exact ⟨t, index, offset, ⟨hlocated, h.toSound, hd, hwords, hok⟩, rfl⟩

namespace Lower

variable {s t : LowerState} {lines : List Line} {f : FieldRef} {offset : Size}

theorem fieldOffset_fst (h : fieldOffset f s = .ok (offset, t)) : (s.layout.fieldOffset f).1 = .ok offset := by
  unfold fieldOffset at h
  split at h
  · rename_i he
    cases h
    rw [he]
  · cases h

theorem accessesWord_of_mapM {opcode : Opcode} {base : Reg} {scratch : Nat} {distances : List Nat}
    {parts : List (List Line)} {e : Element} (he : s.stack.elems[0]? = some e)
    (h : (distances.mapM fun word => do
      let x ← operand 0 word
      accessAt opcode (.reg x) base (offset.roundedBytes + word * wordBytes) scratch : Lower _) s =
        .ok (parts, t)) :
    t = s ∧ List.Forall₂ (AccessesWord opcode base offset.words e.offset scratch) distances parts := by
  have hstep {word : Nat} {u v : LowerState} {part : List Line} (hpart : (do
      let x ← operand 0 word
      accessAt opcode (.reg x) base (offset.roundedBytes + word * wordBytes) scratch : Lower _) u =
        .ok (part, v)) :
      v = u ∧ ∃ x : Reg, (∃ e, u.stack.elems[0]? = some e ∧ x.index.val = e.offset + word) ∧
      accessAt opcode (.reg x) base (offset.roundedBytes + word * wordBytes) scratch = .ok part := by
    simp only [bind_ok, operand_ok, lift_ok] at hpart
    obtain ⟨x, _, ⟨hx, rfl⟩, haccess, rfl⟩ := hpart
    exact ⟨rfl, x, hx, haccess⟩
  obtain ⟨rfl, hall⟩ := mapM_ok (fun _ _ _ _ hpart => (hstep hpart).1) h
  refine ⟨rfl, hall.imp fun word part hpart => ?_⟩
  obtain ⟨-, x, ⟨e', he', hx⟩, haccess⟩ := hstep hpart
  cases he.symm.trans he'
  exact ⟨x, hx, haccess⟩

theorem storeField_ok (h : storeField f s = .ok (lines, t)) :
    ∃ offset value object rest, ∃ (target : Reg) (parts : List (List Line)),
      (s.layout.fieldOffset f).1 = .ok offset ∧ s.stack.elems = value :: object :: rest ∧
      target.index.val = object.offset ∧ lines = parts.flatten ∧
      List.Forall₂ (AccessesWord .stou target offset.words value.offset
        (value.offset + value.size.words)) (List.range value.size.words) parts := by
  simp only [storeField, bind_ok, pure_ok, operand_ok, peek_ok, top_ok, pop_ok] at h
  obtain ⟨offset, u, hoffset, target, _, ⟨⟨object, hobject, htarget⟩, rfl⟩, value, _, ⟨hvalue, rfl⟩,
    scratch, _, ⟨rfl, rfl⟩, parts, v, hparts, _, _, ⟨e₀, _, he₀, -, rfl⟩, _, _, ⟨e₁, rest, he₁, -, rfl⟩,
    rfl, rfl⟩ := h
  obtain ⟨rfl, hall⟩ := accessesWord_of_mapM hvalue hparts
  rw [LowerState.withElems_elems] at he₁
  subst he₁
  rw [he₀] at hvalue hobject hall
  cases hvalue
  cases hobject
  rw [(fieldOffset_ok hoffset).1] at he₀
  exact ⟨offset, value, object, rest, target, parts, fieldOffset_fst hoffset, he₀, htarget, rfl, hall⟩

/-- A field with words takes the place of the object. -/
theorem fieldPlace_replaces {types : List TypeDef} {origin : String} {d : FieldDef} {object : Element}
    {source : Reg} {n words : Nat} (hs : s.layout.Sound types)
    (hd : Layout.resolveField { types } f = .ok d) (hn : HasWords types d.ty n) (hpos : 0 < n)
    (h : fieldPlace origin f s = .ok ((object, offset, source, words), t)) :
    ∃ rest result, (s.layout.fieldOffset f).1 = .ok offset ∧ s.stack.elems = object :: rest ∧
      source.index.val = object.offset ∧ t.stack.elems = result :: rest ∧
      result.offset = Shape.top s.stack.base (shape rest) ∧ result.size.words = n ∧ words = n := by
  simp only [fieldPlace, push, bind_ok, pure_ok, peek_ok, pop_ok] at h
  obtain ⟨ty, s₁, hty, offset', _, hoffset, object', s₂, ⟨hobject, rfl⟩, source', _,
    ⟨e, rest, he, hsource, rfl⟩, _, s₃, ⟨size, s₄, hsize, hpush⟩, top, _, ⟨htop, rfl⟩, hres, rfl⟩ := h
  cases hres
  cases fieldType_ok hty
  obtain ⟨-, -, d', hd', rfl⟩ := (quiet_fieldType types f s hs).2 ty s hty
  cases hd.symm.trans hd'
  obtain ⟨hs₂, -, -⟩ := (quiet_fieldOffset types f s hs).2 offset s₂ hoffset
  obtain ⟨-, -, hsized⟩ := (quiet_sizeOf types d.ty (s₂.withElems rest) hs₂).2 size s₄ hsize
  obtain rfl : size.words = n := HasWords.unique ⟨size, hsized, rfl⟩ hn
  have hstack := (fieldOffset_ok hoffset).1
  have hkept := (sizeOf_keeps hsize).1
  rw [he] at hobject
  cases hobject
  rcases pushSized_ok.mp hpush with ⟨hzero, -⟩ | ⟨-, -, rfl⟩
  · omega
  · -- The object is gone by now, so the field begins where the object did.
    cases htop
    have hrest : s₄.stack.elems = rest := by rw [hkept, LowerState.withElems_elems]
    have hbase : s₄.stack.base = s.stack.base := by rw [hkept, LowerState.withElems_base, hstack]
    refine ⟨rest, ⟨Shape.top s.stack.base (shape rest), size, d.ty, some origin⟩, fieldOffset_fst hoffset,
      hstack ▸ he, hsource, ?_, rfl, rfl, rfl⟩
    rw [LowerState.withElems_elems, hrest, hbase]

theorem loadField_ok {types : List TypeDef} {origin : String} {d : FieldDef} {n : Nat}
    (hs : s.layout.Sound types) (hd : Layout.resolveField { types } f = .ok d) (hn : HasWords types d.ty n)
    (hpos : 0 < n) (h : loadField origin f s = .ok (lines, t)) :
    ∃ offset object rest result, ∃ source : Reg, (s.layout.fieldOffset f).1 = .ok offset ∧
      s.stack.elems = object :: rest ∧ source.index.val = object.offset ∧ t.stack.elems = result :: rest ∧
      result.offset = Shape.top s.stack.base (shape rest) ∧ result.size.words = n ∧
      if s.layout.structOnTop s.stack.elems then
        (copyWords (source.index.val + offset.words) source.index.val n).complete = .ok lines
      else ∃ parts, lines = parts.flatten ∧ List.Forall₂ (AccessesWord .ldou source offset.words
        result.offset (result.offset + n)) (List.range n).reverse parts := by
  cases hplace : fieldPlace origin f s with
  | error fault =>
    rw [loadField_of_no_place hplace] at h
    cases h
  | ok p =>
    obtain ⟨⟨object, offset, source, words⟩, u⟩ := p
    obtain ⟨rest, result, hoffset, helems, hsource, hresult, hplaced, hwords, rfl⟩ :=
      fieldPlace_replaces hs hd hn hpos hplace
    rw [loadField_of_place hplace] at h
    have hcode : t = u ∧ if s.layout.structOnTop s.stack.elems then
        (copyWords (source.index.val + offset.words) source.index.val words).complete = .ok lines
      else ∃ parts, lines = parts.flatten ∧ List.Forall₂ (AccessesWord .ldou source offset.words
        result.offset (result.offset + words)) (List.range words).reverse parts := by
      split at h
      · rename_i hstruct
        obtain ⟨hcopy, ht⟩ := lift_ok.mp h
        rw [if_pos hstruct]
        exact ⟨ht, hcopy⟩
      · rename_i hstruct
        simp only [fetch, bind_ok, pure_ok, top_ok] at h
        obtain ⟨scratch, v, ⟨rfl, rfl⟩, parts, w, hparts, rfl, rfl⟩ := h
        have htop : v.stack.elems[0]? = some result := by rw [hresult, List.getElem?_cons_zero]
        obtain ⟨rfl, hall⟩ := accessesWord_of_mapM htop hparts
        rw [hresult, shape_cons, Shape.top, hwords] at hall
        rw [if_neg hstruct]
        exact ⟨rfl, parts, rfl, hall⟩
    obtain ⟨rfl, hcode⟩ := hcode
    exact ⟨offset, object, rest, result, source, hoffset, helems, hsource, hresult, hplaced, hwords, hcode⟩

end Lower

theorem Registers.read_eq_singleton {r : Registers} {offset words : Nat} {a : Word}
    (h : [a] = r.read offset words) : words = 1 ∧ r offset = a := by
  have hlength := congrArg List.length h
  rw [length_read] at hlength
  obtain rfl : words = 1 := hlength.symm
  rw [read_one] at h
  exact ⟨rfl, (List.cons.inj h).1.symm⟩

/-- The code of an instruction and a machine that is about to run it: its operands hold the given words,
those of the last operand first. -/
structure Poised (site : Site) (op : Op) (values : List (List Word)) (h : Host) extends
    Ready site op [] h where
  words_held : values <+: before.stack.elems.map fun e => h.regs.read e.offset e.size.words

/-- The memory of a field: the words behind some others of an object. -/
structure FieldBlock where
  object : Word
  offset : Nat
  words : Nat
  words_pos : 0 < words
  aligned : object.toNat % 8 = 0

namespace FieldBlock

variable (b : FieldBlock)

def address : Word := b.object.skip b.offset

def wordSpan (j : Nat) : List Word := span (b.address.skip j) wordBytes

def bytes : List Word := span b.address (b.words * wordBytes)

/-- Whether the field ends before addresses wrap around. -/
def Fits : Prop := (b.offset + b.words) * wordBytes ≤ 2 ^ 64

def content (memory : Memory) : List Word := memory.words b.address b.words

variable {b}

theorem wordSpan_zero : b.wordSpan 0 = span b.address wordBytes := by
  rw [wordSpan, Word.skip_zero]

/-- Different fields of an object lie apart. -/
theorem apart {types : List TypeDef} {f g : FieldRef} {t : TypeDef} {i j : Nat} {d e : FieldDef}
    {b' : FieldBlock} (hfits : b.Fits) (hfits' : b'.Fits) (hobject : b'.object = b.object)
    (hf : Located types f t i d b.offset) (hwords : HasWords types d.ty b.words)
    (hg : Located types g t j e b'.offset) (hwords' : HasWords types e.ty b'.words) (hij : i ≠ j) {x : Word}
    (hx : x ∈ b'.bytes) : x ∉ b.bytes := by
  have horder : b'.offset + b'.words ≤ b.offset ∨ b.offset + b.words ≤ b'.offset := by
    rcases Nat.lt_or_gt_of_ne hij with hlt | hgt
    · obtain ⟨n, hn, hle⟩ := hf.stop_le hg hlt
      rw [hwords.unique hn]
      exact .inr hle
    · obtain ⟨n, hn, hle⟩ := hg.stop_le hf hgt
      rw [hwords'.unique hn]
      exact .inl hle
  rw [bytes, address, hobject] at hx
  rw [Fits, wordBytes] at hfits hfits'
  have hx : x ∈ span (b.object + BitVec.ofNat 64 (b'.offset * 8)) (b'.words * 8) := hx
  show x ∉ span (b.object + BitVec.ofNat 64 (b.offset * 8)) (b.words * 8)
  exact not_mem_span_of_part (by omega) (by omega) (by omega) hx

end FieldBlock

namespace Poised

section

variable {site : Site} {op : Op} {values : List (List Word)} {h : Host} (r : Poised site op values h)
  (calls : String → Subroutine) (b : FieldBlock)

/-- The code writes the words of a value into those of a field, and nothing else. -/
structure Stores (v : List Word) (h' : Host) : Prop where
  runs : Host.run calls r.lines h = some (h', (List.range b.words).map fun j => .writes (b.wordSpan j))
  stored : b.content h'.memory = v
  elsewhere : ∀ x ∉ b.bytes, h'.memory x = h.memory x

/-- The code reads the words of a field, the last one first, and pushes a value of these words. -/
structure Loads (v : List Word) (h' : Host) (e : Element) : Prop where
  runs : Host.run calls r.lines h = some (h', (List.range b.words).reverse.map fun j => .reads (b.wordSpan j))
  head_eq : r.after.stack.elems.head? = some e
  words_eq : e.size.words = b.words
  loaded : h'.regs.read e.offset b.words = v
  memory_eq : h'.memory = h.memory

/-- Whether the last operand is a value type. -/
def structOnTop : Bool := r.before.layout.structOnTop r.before.stack.elems

variable {r}

theorem structOnTop_eq {s : LowerState} (hr : r.before = s) :
    r.structOnTop = s.layout.structOnTop s.stack.elems := by
  rw [structOnTop, hr]

end

section

variable {site : Site} {op : Op} {v : List Word} {a : Word} {values : List (List Word)} {h : Host}
  {e : Element} {rest : List Element}

theorem exists_top (r : Poised site op (v :: values) h) : ∃ e rest, r.before.stack.elems = e :: rest := by
  obtain ⟨others, hothers⟩ := r.words_held
  cases he : r.before.stack.elems with
  | nil =>
    rw [he] at hothers
    cases hothers
  | cons e rest => exact ⟨e, rest, rfl⟩

theorem held_top (r : Poised site op (v :: values) h) (he : r.before.stack.elems = e :: rest) :
    v = h.regs.read e.offset e.size.words ∧
      values <+: rest.map fun e => h.regs.read e.offset e.size.words := by
  have hheld := r.words_held
  rwa [he, List.map_cons, List.cons_prefix_cons] at hheld

theorem held_word (r : Poised site op ([a] :: values) h) (he : r.before.stack.elems = e :: rest) :
    e.size.words = 1 ∧ h.regs e.offset = a :=
  Registers.read_eq_singleton (r.held_top he).1

theorem held_below {e' : Element} (r : Poised site op (v :: [a] :: values) h)
    (he : r.before.stack.elems = e :: e' :: rest) : e'.size.words = 1 ∧ h.regs e'.offset = a := by
  obtain ⟨-, hheld⟩ := r.held_top he
  rw [List.map_cons, List.cons_prefix_cons] at hheld
  exact Registers.read_eq_singleton hheld.1

end

variable {site : Site} {h : Host} {f : FieldRef} {b : FieldBlock} (calls : String → Subroutine)

theorem run_storeField {v : List Word} (r : Poised site (.field .store f) [v, [b.object]] h)
    (hoffset : (r.before.layout.fieldOffset f).1 = .ok (.ofWords b.offset)) (hv : v.length = b.words) :
    ∃ h', r.Stores calls b v h' := by
  obtain ⟨offset, value, object, rest, target, parts, ho, he, htarget, hlines, hparts⟩ :=
    Lower.storeField_ok r.code_eq
  cases ho.symm.trans hoffset
  obtain ⟨hvalue, -⟩ := r.held_top he
  obtain ⟨hone, haddress⟩ := r.held_below he
  have hwords : value.size.words = b.words := by rw [← hv, hvalue, Registers.length_read]
  have hs := r.stacked
  rw [he] at hs
  have hlt := hs.offset_lt
  rw [hwords] at hparts hvalue
  rw [Size.words_ofWords] at hparts
  have hbelow (j : Nat) (hj : j ∈ List.range b.words) : value.offset + j < value.offset + b.words :=
    Nat.add_lt_add_left (List.mem_range.mp hj) _
  obtain ⟨m, hrun⟩ := run_stores calls hparts (fun j hj => ⟨hbelow j hj, rfl⟩) (by omega)
    (htarget ▸ haddress) b.aligned
  -- A value in registers is short.
  have hfits : b.words * wordBytes ≤ 2 ^ 64 := by
    have hwindow : value.offset + value.size.words ≤ registerCount := hs.2.2.1
    rw [registerCount] at hwindow
    rw [wordBytes]
    omega
  refine ⟨_, hlines ▸ hrun, ?_, fun x hx => ?_⟩
  · exact (Memory.words_put hfits).trans hvalue.symm
  · refine Memory.put_outside fun j hj hmem => hx ?_
    exact Word.mem_span_of_skip (List.mem_range.mp hj) hmem

theorem run_loadField {types : List TypeDef} {d : FieldDef} (r : Poised site (.field .load f) [[b.object]] h)
    (hs : r.before.layout.Sound types) (hd : Layout.resolveField { types } f = .ok d)
    (hwords : HasWords types d.ty b.words)
    (hoffset : (r.before.layout.fieldOffset f).1 = .ok (.ofWords b.offset)) (hmemory : r.structOnTop = false) :
    ∃ h' e, r.Loads calls b (b.content h.memory) h' e := by
  obtain ⟨offset, object, rest, result, source, ho, he, hsource, hafter, hplace, hresult, hcode⟩ :=
    Lower.loadField_ok hs hd hwords b.words_pos r.code_eq
  cases ho.symm.trans hoffset
  rw [structOnTop] at hmemory
  rw [hmemory, if_neg Bool.false_ne_true] at hcode
  obtain ⟨parts, hlines, hparts⟩ := hcode
  obtain ⟨hone, haddress⟩ := r.held_word he
  have hstacked := r.stacked
  rw [he] at hstacked
  have hsame : result.offset = object.offset := hplace.trans hstacked.1.symm
  rw [Size.words_ofWords] at hparts
  obtain ⟨m, hrun, hloaded, -⟩ := run_loads calls hparts (hsource.trans hsame.symm) (Nat.le_refl _)
    (fun _ => hsame ▸ haddress) b.aligned
  refine ⟨⟨m, h.memory⟩, result, hlines ▸ hrun, by rw [hafter, List.head?_cons], hresult, ?_, rfl⟩
  exact List.map_congr_left fun j hj => hloaded j (List.mem_range.mp hj)

end Poised

/-- A block of memory that serves as a field of an object: stores and loads touch all of it and nothing else,
what is stored comes back, and other fields of the object stay as they are. A field of a value in registers is
moved down to where the value begins. -/
structure FieldBlock.Serves (calls : String → Subroutine) (types : List TypeDef) (b : FieldBlock) (f : FieldRef)
    (t : TypeDef) (index : Nat) (d : FieldDef) : Prop where
  stores : ∀ {site v h} (r : Poised site (.field .store f) [v, [b.object]] h),
    r.before.layout.Puts types f t index d b.offset b.words → v.length = b.words → ∃ h', r.Stores calls b v h'
  loads : ∀ {site h} (r : Poised site (.field .load f) [[b.object]] h),
    r.before.layout.Puts types f t index d b.offset b.words → r.structOnTop = false →
    ∃ h' e, r.Loads calls b (b.content h.memory) h' e
  returns : ∀ {site site' v h h' h₁} (r : Poised site (.field .store f) [v, [b.object]] h)
    (q : Poised site' (.field .load f) [[b.object]] h₁), r.Stores calls b v h' →
    q.before.layout.Puts types f t index d b.offset b.words → q.structOnTop = false →
    (∀ x ∈ b.bytes, h₁.memory x = h'.memory x) → ∃ h₂ e, q.Loads calls b v h₂ e
  spares : ∀ {site site' v h h' h₁ g j d'} {c : FieldBlock}
    (r : Poised site (.field .store f) [v, [b.object]] h) (q : Poised site' (.field .load g) [[c.object]] h₁),
    r.before.layout.Puts types f t index d b.offset b.words → r.Stores calls b v h' →
    q.before.layout.Puts types g t j d' c.offset c.words → c.object = b.object → b.Fits → c.Fits →
    index ≠ j → q.structOnTop = false → (∀ x ∈ c.bytes, h₁.memory x = h'.memory x) →
    ∃ h₂ e, q.Loads calls c (c.content h.memory) h₂ e
  slides : ∀ {site h} (r : Poised site (.field .load f) [] h),
    r.before.layout.Puts types f t index d b.offset b.words → r.structOnTop = true →
    ∃ h' object e, Host.run calls r.lines h = some (h', []) ∧ r.before.stack.elems.head? = some object ∧
      r.after.stack.elems.head? = some e ∧ e.size.words = b.words ∧ h'.memory = h.memory ∧
      h'.regs.read e.offset b.words = h.regs.read (object.offset + b.offset) b.words

namespace Poised

theorem exists_of_code {site : Site} {op : Op} {s : LowerState} {values : List (List Word)} (h : Host)
    (hcode : (Lower.instruction site ⟨0, op⟩ s).toBool = true)
    (hs : Shape.Stacked s.stack.base (shape s.stack.elems))
    (hheld : values <+: s.stack.elems.map fun e => h.regs.read e.offset e.size.words) :
    ∃ r : Poised site op values h, r.before = s := by
  obtain ⟨r, rfl⟩ : ∃ r : Ready site op [] h, r.before = s :=
    Ready.exists_of_code h hcode hs List.nil_prefix
  exact ⟨⟨r, hheld⟩, rfl⟩

/-- A form in front of the other fields, too long for an offset in an instruction. -/
def form : TypeDef where
  name := "Form"
  kind := .structType
  fields := (List.range 33).map fun k => ⟨toString k, .primitive .int64, false⟩

def sheet : TypeDef where
  name := "Sheet"
  kind := .classType
  fields := [⟨"form", .named "Form", false⟩, ⟨"title", .string, false⟩,
    ⟨"copies", .primitive .int64, false⟩]

def sheets : List TypeDef := [form, sheet]

end Poised

end CilMmix
