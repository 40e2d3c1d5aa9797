import CilMmix.Module.Json
import CilMmix.Proofs.Code.Catalogue
import CilMmix.Proofs.Json.Decoding
import CilMmix.Proofs.Json.Reading

/-! Reading back the text of a module. -/

namespace CilMmix

open Json (Decodes)

namespace Enumerated

variable {α : Type} [Enumerated α] [Lawful α]

theorem decodes (a : α) : Decodes ofJson? (toJson a) a := by
  intro room
  have hnamed := Lawful.named_name a
  cases room <;> simp [toJson, ofJson?, Json.nesting, hnamed]

end Enumerated

theorem TypeRef.decodes (t : TypeRef) : Decodes ofJson? t.toJson t := by
  induction t with
  | primitive p => exact (Enumerated.decodes p).tagged rfl fun _ => rfl
  | array elem ih => exact ih.tagged rfl fun _ => rfl
  | pointer target ih => exact ih.tagged rfl fun _ => rfl
  | byRef target ih => exact ih.tagged rfl fun _ => rfl
  | pinned inner ih => exact ih.tagged rfl fun _ => rfl
  | named name => exact (Json.decodes_string name).tagged rfl fun _ => rfl
  | anyArray | string =>
    intro room
    cases room <;> rfl

theorem TypeRef.decodes_list (ts : List TypeRef) :
    Decodes (Json.list? ofJson?) (.arr (ts.map toJson)) ts :=
  Json.decodes_list fun t _ => t.decodes

theorem MethodRef.decodes (m : MethodRef) : Decodes ofJson? m.toJson m := by
  refine Json.decodes_obj rfl fun room => ?_
  have hparams := TypeRef.decodes_list m.params room
  have hret := m.ret.decodes room
  change (do
    let params ← Json.list? TypeRef.ofJson? room (.arr (m.params.map TypeRef.toJson))
    let ret ← TypeRef.ofJson? room m.ret.toJson
    return MethodRef.mk m.declaringType m.name params ret) = _
  rw [hparams, hret]
  simp only [Json.bind_ite, ← ite_and]
  exact if_congr (by simp only [Json.nestingOfMembers, Json.nesting]; omega) rfl rfl

theorem FieldRef.decodes (f : FieldRef) : Decodes ofJson? f.toJson f :=
  Json.decodes_obj rfl fun _ => rfl

namespace StoredOperand

def isReal : StoredOperand → Bool
  | real32 _ | real64 _ => true
  | _ => false

end StoredOperand

/-- The instruction that waits for an operand finds it in its content. -/
theorem Form.decodes {form : Form} {operand : StoredOperand} {content : Json} {op : Op}
    (hfill : form.fill? operand = some op) (hreal : operand.isReal = false)
    (hcontent : operand.toJson? = some content) :
    Decodes (fun room content => form.ofJson? room content) content op := by
  cases operand <;> cases form <;> cases hfill <;> cases hcontent
  case slot i make => exact (Json.decodes_uint16 i).map make
  case int32 n make => exact (Json.decodes_int32 n).map make
  case int64 n make => exact (Json.decodes_int64 n).map make
  case real32 | real64 => cases hreal
  case text s make => exact (Json.decodes_string s).map make
  case method m make => exact m.decodes.map make
  case target t make => exact (Json.decodes_uint32 t).map make
  case targets ts make => exact (Json.decodes_list fun t _ => Json.decodes_uint32 t).map make
  case width w make => exact (Enumerated.decodes w).map make
  case conversion k make => exact (Enumerated.decodes k).map make
  case type t make => exact t.decodes.map make
  case field f make => exact f.decodes.map make
  case byte n make => exact (Json.decodes_uint8 n).map make

namespace Op

/-- Whether the instruction pushes a floating-point number. -/
def isReal : Op → Bool
  | .push (.real32 _) | .push (.real64 _) => true
  | _ => false

theorem isReal_stored (op : Op) : op.stored.operand.isReal = op.isReal := by
  cases op with
  | load v | address v | store v => cases v <;> rfl
  | push l => cases l <;> rfl
  | brIf c t => cases c <;> rfl
  | arith a | checked a => cases a <;> rfl
  | conv check k => cases check <;> rfl
  | compare c => cases c <;> rfl
  | field a f | staticField a f => cases a <;> rfl
  | _ => rfl

theorem decodes {op : Op} (hreal : op.isReal = false) : Decodes ofJson? op.toJson op := by
  have hnamed := op.formNamed?_storedName
  have hfill := op.fill?_stored
  unfold toJson
  cases hcontent : op.stored.operand.toJson? with
  | none =>
    have hplain : op.form = .plain op := by
      cases hoperand : op.stored.operand <;> rw [hoperand] at hcontent hfill <;> try cases hcontent
      cases hform : op.form <;> rw [hform] at hfill <;> cases hfill
      rfl
    intro room
    cases room <;> simp [ofJson?, hnamed, hplain, Form.ofJson?, Json.null?, Json.nesting]
  | some content =>
    have hdecodes := Form.decodes hfill (op.isReal_stored.trans hreal) hcontent
    refine hdecodes.tagged (f := id) rfl fun room => ?_
    simp [ofJson?, hnamed]

end Op

namespace Instruction

theorem ofJson?_obj (offset op : Json) (room : Nat) :
    ofJson? (room + 1) (.obj [("offset", offset), ("op", op)]) = (do
      let offset ← offset.uint32?
      let op ← Op.ofJson? room op
      return Instruction.mk offset op) := rfl

theorem decodes {i : Instruction} (hreal : i.op.isReal = false) : Decodes ofJson? i.toJson i := by
  refine Json.decodes_obj rfl fun room => ?_
  have hoffset : Json.uint32? (.ofNat i.offset.toNat) = some i.offset := by
    simpa [Json.ofNat, Json.nesting] using Json.decodes_uint32 i.offset room
  have hop := Op.decodes hreal room
  rw [ofJson?_obj, hoffset, hop, Option.bind_eq_bind, Option.bind_some, Json.bind_ite]
  exact if_congr (by simp only [Json.nestingOfMembers, Json.nesting, Json.ofNat]; omega) rfl rfl

end Instruction

theorem FieldDef.decodes (f : FieldDef) : Decodes ofJson? f.toJson f := by
  refine Json.decodes_obj rfl fun room => ?_
  have hty := f.ty.decodes room
  change (do
    let ty ← TypeRef.ofJson? room f.ty.toJson
    return FieldDef.mk f.name ty f.isStatic) = _
  rw [hty, Json.bind_ite]
  exact if_congr (by simp [Json.nestingOfMembers, Json.nesting]) rfl rfl

namespace MethodDef

/-- No instruction pushes a floating-point number. -/
def RealFree (m : MethodDef) : Prop := ∀ i ∈ m.code, i.op.isReal = false

instance (m : MethodDef) : Decidable m.RealFree :=
  inferInstanceAs (Decidable (∀ i ∈ m.code, i.op.isReal = false))

theorem body_decodes {m : MethodDef} (h : m.RealFree) (room : Nat) :
    bodyOfJson? room (some (bodyToJson m.body)) =
      if (bodyToJson m.body).nesting ≤ room then some m.body else none := by
  cases hbody : m.body with
  | none => simp [bodyToJson, bodyOfJson?, Json.nesting]
  | some body =>
    have hinstructions : Decodes (Json.list? Instruction.ofJson?)
        (.arr (body.map Instruction.toJson)) body :=
      Json.decodes_list fun i hi => Instruction.decodes (h i (by simpa [code, hbody] using hi))
    exact hinstructions.map some room

theorem decodes {m : MethodDef} (h : m.RealFree) : Decodes ofJson? m.toJson m := by
  refine Json.decodes_obj rfl fun room => ?_
  have hparams := TypeRef.decodes_list m.params room
  have hret := m.ret.decodes room
  have hlocals := TypeRef.decodes_list m.locals room
  have hbody := body_decodes h room
  change (do
    let params ← Json.list? TypeRef.ofJson? room (.arr (m.params.map TypeRef.toJson))
    let ret ← TypeRef.ofJson? room m.ret.toJson
    let locals ← Json.list? TypeRef.ofJson? room (.arr (m.locals.map TypeRef.toJson))
    let body ← bodyOfJson? room (some (bodyToJson m.body))
    return MethodDef.mk m.name m.isStatic m.isConstructor params ret locals body) = _
  rw [hparams, hret, hlocals, hbody]
  simp only [Json.bind_ite, ← ite_and]
  exact if_congr (by simp only [Json.nestingOfMembers, Json.nesting]; omega) rfl rfl

end MethodDef

namespace TypeDef

def RealFree (t : TypeDef) : Prop := ∀ m ∈ t.methods, m.RealFree

instance (t : TypeDef) : Decidable t.RealFree :=
  inferInstanceAs (Decidable (∀ m ∈ t.methods, m.RealFree))

theorem decodes {t : TypeDef} (h : t.RealFree) : Decodes ofJson? t.toJson t := by
  refine Json.decodes_obj rfl fun room => ?_
  have hkind := Enumerated.decodes t.kind room
  have hfields : Decodes (Json.list? FieldDef.ofJson?) (.arr (t.fields.map FieldDef.toJson)) t.fields :=
    Json.decodes_list fun f _ => f.decodes
  have hmethods : Decodes (Json.list? MethodDef.ofJson?) (.arr (t.methods.map MethodDef.toJson))
      t.methods :=
    Json.decodes_list fun m hm => MethodDef.decodes (h m hm)
  change (do
    let kind ← Enumerated.ofJson? room (Enumerated.toJson t.kind)
    let fields ← Json.list? FieldDef.ofJson? room (.arr (t.fields.map FieldDef.toJson))
    let methods ← Json.list? MethodDef.ofJson? room (.arr (t.methods.map MethodDef.toJson))
    return TypeDef.mk t.name kind fields methods) = _
  rw [hkind, hfields room, hmethods room]
  simp only [Json.bind_ite, ← ite_and]
  exact if_congr (by simp only [Json.nestingOfMembers, Json.nesting]; omega) rfl rfl

end TypeDef

section

open Json (Plain)

theorem Json.plain_list {α : Type} {toJson : α → Json} {as : List α}
    (h : ∀ a ∈ as, Plain (toJson a)) : Plain (.arr (as.map toJson)) := by
  refine .arr fun j hj => ?_
  obtain ⟨a, ha, rfl⟩ := List.mem_map.mp hj
  exact h a ha

theorem Json.Plain.tagged {name : String} {content : Json} (h : Plain content) :
    Plain (.tagged name content) :=
  .obj (List.forall_mem_singleton.mpr h)

theorem TypeRef.plain (t : TypeRef) : Plain t.toJson := by
  induction t with
  | primitive p => exact .tagged (.str _)
  | named name => exact .tagged (.str name)
  | anyArray | string => exact .str _
  | array _ ih | pointer _ ih | byRef _ ih | pinned _ ih => exact .tagged ih

theorem MethodRef.plain (m : MethodRef) : Plain m.toJson := by
  have hparams : Plain (.arr (m.params.map TypeRef.toJson)) := Json.plain_list fun t _ => t.plain
  refine .obj ?_
  simp [Plain.str, hparams, m.ret.plain]

theorem FieldRef.plain (f : FieldRef) : Plain f.toJson := by
  refine .obj ?_
  simp [Plain.str]

theorem StoredOperand.plain_content {operand : StoredOperand} {content : Json}
    (hreal : operand.isReal = false) (h : operand.toJson? = some content) : Plain content := by
  cases operand with
  | plain => cases h
  | real32 | real64 => cases hreal
  | slot | int32 | int64 | target | byte => cases h; exact .int _
  | text | width | conversion => cases h; exact .str _
  | method m => cases h; exact m.plain
  | type t => cases h; exact t.plain
  | field f => cases h; exact f.plain
  | targets ts => cases h; exact Json.plain_list fun t _ => .int _

theorem Op.plain {op : Op} (hreal : op.isReal = false) : Plain op.toJson := by
  unfold toJson
  cases hcontent : op.stored.operand.toJson? with
  | none => exact .str _
  | some content =>
    exact .tagged (StoredOperand.plain_content (op.isReal_stored.trans hreal) hcontent)

theorem Instruction.plain {i : Instruction} (hreal : i.op.isReal = false) : Plain i.toJson := by
  refine .obj ?_
  simp [Op.plain hreal, Json.ofNat, Plain.int]

theorem FieldDef.plain (f : FieldDef) : Plain f.toJson := by
  refine .obj ?_
  simp [Plain.str, Plain.bool, f.ty.plain]

theorem MethodDef.plain {m : MethodDef} (h : m.RealFree) : Plain m.toJson := by
  have hparams : Plain (.arr (m.params.map TypeRef.toJson)) := Json.plain_list fun t _ => t.plain
  have hlocals : Plain (.arr (m.locals.map TypeRef.toJson)) := Json.plain_list fun t _ => t.plain
  have hbody : Plain (bodyToJson m.body) := by
    cases hbody : m.body with
    | none => exact .null
    | some body => exact Json.plain_list fun i hi => Instruction.plain (h i (by simpa [code, hbody] using hi))
  refine .obj ?_
  simp [Plain.str, Plain.bool, hparams, hlocals, hbody, m.ret.plain]

theorem TypeDef.plain {t : TypeDef} (h : t.RealFree) : Plain t.toJson := by
  have hfields : Plain (.arr (t.fields.map FieldDef.toJson)) := Json.plain_list fun f _ => f.plain
  have hmethods : Plain (.arr (t.methods.map MethodDef.toJson)) :=
    Json.plain_list fun m hm => MethodDef.plain (h m hm)
  refine .obj ?_
  simp [Plain.str, Enumerated.toJson, hfields, hmethods]

end

namespace Module

def RealFree (m : Module) : Prop := ∀ t ∈ m.types, t.RealFree

instance (m : Module) : Decidable m.RealFree :=
  inferInstanceAs (Decidable (∀ t ∈ m.types, t.RealFree))

theorem decodes {m : Module} (h : m.RealFree) : Decodes ofJson? m.toJson m := by
  refine Json.decodes_obj rfl fun room => ?_
  have htypes : Decodes (Json.list? TypeDef.ofJson?) (.arr (m.types.map TypeDef.toJson)) m.types :=
    Json.decodes_list fun t ht => TypeDef.decodes (h t ht)
  change (do
    let types ← Json.list? TypeDef.ofJson? room (.arr (m.types.map TypeDef.toJson))
    return Module.mk m.name types) = _
  rw [htypes room, Json.bind_ite]
  exact if_congr (by simp [Json.nestingOfMembers, Json.nesting]) rfl rfl

theorem plain {m : Module} (h : m.RealFree) : Json.Plain m.toJson := by
  have htypes : Json.Plain (.arr (m.types.map TypeDef.toJson)) :=
    Json.plain_list fun t ht => TypeDef.plain (h t ht)
  refine .obj ?_
  simp [Json.Plain.str, htypes]

/-- The text of a module without floating-point numbers is read back if it is not nested deeper than the
reader allows, and refused otherwise. -/
theorem ofText?_toText {m : Module} (h : m.RealFree) :
    ofText? m.toText = if m.toJson.nesting ≤ Json.maxNesting then some m else none := by
  have hparse := (plain h).parse?_text
  rw [ofText?, toText, hparse]
  exact decodes h Json.maxNesting

/-- Names with all kinds of escapes, integers at their limits, and a type inside types. -/
def escapes : Module where
  name := "\"\\\x08\t\n\x0c\r\x00\x1f\x7f"
  types := [
    { name := "größe 𝔸", kind := .interfaceType
      fields := [⟨"", .pinned (.pointer (.byRef (.array (.named "\u2028")))), true⟩]
      methods := [
        { name := "absent" },
        { name := "empty", isStatic := false, isConstructor := true, body := some [] },
        { name := "full", params := [.string, .anyArray], ret := .primitive .nativeUInt
          locals := [.primitive .uint16]
          body := some [
            ⟨0, .push (.int32 Int32.minValue)⟩, ⟨1, .push (.int64 Int64.minValue)⟩,
            ⟨2, .push (.int64 Int64.maxValue)⟩, ⟨3, .push (.str "/\x0b\\u0041")⟩, ⟨4, .switch []⟩,
            ⟨5, .switch [0, 0xFFFFFFFF]⟩, ⟨6, .call ⟨"größe 𝔸", "full", [.string], .void⟩⟩,
            ⟨0xFFFFFFFF, .load (.arg 0xFFFF)⟩, ⟨7, .no 255⟩] }] }]

theorem ofText?_toText_escapes : escapes.RealFree ∧ escapes.toJson.nesting = 10 ∧
    ofText? escapes.toText = some escapes := by
  have hreal : escapes.RealFree := by decide
  have hnesting : escapes.toJson.nesting = 10 := by decide +kernel
  have hread := ofText?_toText hreal
  rw [hnesting] at hread
  exact ⟨hreal, hnesting, hread⟩

end Module

end CilMmix
