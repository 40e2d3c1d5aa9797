import CilMmix.Module.Binary
import CilMmix.Proofs.Bytes.Framing
import CilMmix.Proofs.Code.Catalogue

/-! Reading back the binary form of a module. Each part of a module says where its bytes end, so the
whole is found in front of anything, and a file that breaks off early is noticed. -/

namespace CilMmix

open Bytes (Reader Reads)

namespace Enumerated

variable {α : Type} [Enumerated α] [Lawful α]

theorem reads_toBytes (a : α) (h : number a < UInt32.size) : Reads reader (toBytes a) a :=
  Bytes.reads_variant (Lawful.numbered_number a) h

end Enumerated

theorem Primitive.reads (p : Primitive) : Reads Enumerated.reader (Enumerated.toBytes p) p :=
  Enumerated.reads_toBytes p (by cases p <;> decide)

theorem Width.reads (w : Width) : Reads Enumerated.reader (Enumerated.toBytes w) w :=
  Enumerated.reads_toBytes w (by cases w <;> decide)

theorem Conversion.reads (k : Conversion) : Reads Enumerated.reader (Enumerated.toBytes k) k :=
  Enumerated.reads_toBytes k (by cases k <;> decide)

theorem TypeKind.reads (k : TypeKind) : Reads Enumerated.reader (Enumerated.toBytes k) k :=
  Enumerated.reads_toBytes k (by cases k <;> decide)

namespace TypeRef

/-- What follows the number of a kind of type. -/
def content : Nat → Reader TypeRef
  | 0 => return .primitive (← Enumerated.reader)
  | 1 => return .array (← reader)
  | 2 => return .anyArray
  | 3 => return .string
  | 4 => return .pointer (← reader)
  | 5 => return .byRef (← reader)
  | 6 => return .pinned (← reader)
  | 7 => return .named (← Bytes.text)
  | _ => throw .unknownVariant

theorem reader_eq : reader = Bytes.varintOf .bits32 >>= content := by
  funext bs
  change take bs = (Bytes.takeVarint Bytes.VarintWidth.bits32.lastGroup
    Bytes.VarintWidth.bits32.groups bs >>= fun s => content s.1 s.2)
  rw [take]
  split <;> rename_i h <;> rw [h]
  case h_10 p h₇ h₆ h₅ h₄ h₃ h₂ h₁ h₀ =>
    obtain ⟨n, rest⟩ := p
    have hn : content n = throw .unknownVariant := by
      rw [content] <;> rintro rfl
      · exact h₇ rest rfl
      · exact h₆ rest rfl
      · exact h₅ rest rfl
      · exact h₄ rest rfl
      · exact h₃ rest rfl
      · exact h₂ rest rfl
      · exact h₁ rest rfl
      · exact h₀ rest rfl
    change _ = content n rest
    rw [hn]
    rfl
  all_goals rfl

theorem toBytes_ne_nil (t : TypeRef) : t.toBytes ≠ [] := by
  cases t <;> simp [toBytes, Bytes.varint_ne_nil]

theorem reads_content {k : Nat} {w : List UInt8} {t : TypeRef} (hk : k < UInt32.size)
    (h : Reads (content k) w t) : Reads reader (Bytes.varint k ++ w) t := by
  rw [reader_eq]
  exact (Bytes.reads_varint32 hk).bind h

theorem reads {t : TypeRef} (h : t.toBytes.length < UInt64.size) : Reads reader t.toBytes t := by
  induction t with
  | primitive p => exact reads_content (by decide) (.map p.reads TypeRef.primitive)
  | anyArray =>
    have hread := reads_content (k := 2) (by decide) (.pure anyArray)
    rwa [List.append_nil] at hread
  | string =>
    have hread := reads_content (k := 3) (by decide) (.pure string)
    rwa [List.append_nil] at hread
  | named name =>
    simp only [toBytes, List.length_append] at h
    exact reads_content (by decide) (.map (Bytes.reads_text (by omega)) TypeRef.named)
  | array elem ih =>
    simp only [toBytes, List.length_append] at h
    exact reads_content (by decide) (.map (ih (by omega)) TypeRef.array)
  | pointer target ih =>
    simp only [toBytes, List.length_append] at h
    exact reads_content (by decide) (.map (ih (by omega)) TypeRef.pointer)
  | byRef target ih =>
    simp only [toBytes, List.length_append] at h
    exact reads_content (by decide) (.map (ih (by omega)) TypeRef.byRef)
  | pinned inner ih =>
    simp only [toBytes, List.length_append] at h
    exact reads_content (by decide) (.map (ih (by omega)) TypeRef.pinned)

theorem reads_list {ts : List TypeRef} (h : (Bytes.ofList toBytes ts).length < UInt64.size) :
    Reads (Bytes.list reader) (Bytes.ofList toBytes ts) ts :=
  Bytes.reads_list h toBytes_ne_nil fun _ => reads

end TypeRef

theorem MethodRef.reads {m : MethodRef} (h : m.toBytes.length < UInt64.size) :
    Reads reader m.toBytes m := by
  simp only [toBytes, List.append_assoc, List.length_append] at h ⊢
  exact .bind (Bytes.reads_text (by omega)) <| .bind (Bytes.reads_text (by omega)) <|
    .bind (TypeRef.reads_list (by omega)) <| .map (TypeRef.reads (by omega)) _

theorem FieldRef.reads {f : FieldRef} (h : f.toBytes.length < UInt64.size) :
    Reads reader f.toBytes f := by
  simp only [toBytes, List.length_append] at h
  exact .bind (Bytes.reads_text (by omega)) <| .map (Bytes.reads_text (by omega)) _

theorem Bytes.reads_offset (t : UInt32) : Reads offset (varint t.toNat) t := by
  have hread := (reads_varint32 t.toNat_lt_size).map UInt32.ofNat
  rwa [UInt32.ofNat_toNat] at hread

/-- The operand that an instruction waits for is read back. -/
theorem Form.reads {form : Form} {operand : StoredOperand} {op : Op}
    (hfill : form.fill? operand = some op) (h : operand.toBytes.length < UInt64.size) :
    Reads form.reader operand.toBytes op := by
  cases operand <;> cases form <;> cases hfill
  case plain => exact .pure op
  case slot i make =>
    have hread := (Bytes.reads_varint16 i.toNat_lt_size).map fun n => make (UInt16.ofNat n)
    rwa [UInt16.ofNat_toNat] at hread
  case int32 n make =>
    have hlt : Bytes.zigzag n.toInt < 2 * 2 ^ 31 := Bytes.zigzag_lt n.le_toInt n.toInt_lt
    have hread := (Bytes.reads_varint32 hlt).map fun k => make (Int32.ofInt (Bytes.unzigzag k))
    rwa [Bytes.unzigzag_zigzag, Int32.ofInt_toInt] at hread
  case int64 n make =>
    have hlt : Bytes.zigzag n.toInt < 2 * 2 ^ 63 := Bytes.zigzag_lt n.le_toInt n.toInt_lt
    have hread := (Bytes.reads_varint64 hlt).map fun k => make (Int64.ofInt (Bytes.unzigzag k))
    rwa [Bytes.unzigzag_zigzag, Int64.ofInt_toInt] at hread
  case real32 x make =>
    have hread := (Bytes.reads_fixed x.bits.toNat 4).map fun bs =>
      make ⟨UInt32.ofNat (Bytes.littleEndian bs)⟩
    rwa [Bytes.littleEndian_toLittleEndian x.bits.toNat_lt_size, UInt32.ofNat_toNat] at hread
  case real64 x make =>
    have hread := (Bytes.reads_fixed x.bits.toNat 8).map fun bs =>
      make ⟨UInt64.ofNat (Bytes.littleEndian bs)⟩
    rwa [Bytes.littleEndian_toLittleEndian x.bits.toNat_lt_size, UInt64.ofNat_toNat] at hread
  case text s make => exact (Bytes.reads_text h).map make
  case method m make => exact (MethodRef.reads h).map make
  case target t make => exact (Bytes.reads_offset t).map make
  case targets ts make =>
    exact (Bytes.reads_list h (fun t => Bytes.varint_ne_nil t.toNat) fun t _ => Bytes.reads_offset t).map make
  case width w make => exact w.reads.map make
  case conversion k make => exact k.reads.map make
  case type t make => exact (TypeRef.reads h).map make
  case field f make => exact (FieldRef.reads h).map make
  case byte n make => exact (Bytes.reads_byte n).map make

theorem Op.reads {op : Op} (h : op.toBytes.length < UInt64.size) : Reads reader op.toBytes op := by
  simp only [toBytes, List.length_append] at h
  have hnumber : op.stored.number.val < UInt32.size := by
    have hlt := op.stored.number.isLt
    have hsize : 112 ≤ UInt32.size := by decide
    omega
  exact .bind (Bytes.reads_variant op.formNumbered?_number hnumber) <|
    Form.reads op.fill?_stored (by omega)

namespace Instruction

theorem toBytes_ne_nil (i : Instruction) : i.toBytes ≠ [] := by
  simp [toBytes, Bytes.varint_ne_nil]

theorem reads {i : Instruction} (h : i.toBytes.length < UInt64.size) : Reads reader i.toBytes i := by
  simp only [toBytes, List.length_append] at h
  exact .bind (Bytes.reads_offset i.offset) <| .map (Op.reads (by omega)) _

end Instruction

theorem Bytes.ofText_ne_nil (s : String) : ofText s ≠ [] := by
  simp [ofText, varint_ne_nil]

theorem FieldDef.reads {f : FieldDef} (h : f.toBytes.length < UInt64.size) :
    Reads reader f.toBytes f := by
  simp only [toBytes, List.append_assoc, List.length_append] at h ⊢
  exact .bind (Bytes.reads_text (by omega)) <| .bind (TypeRef.reads (by omega)) <|
    .map (Bytes.reads_bool _) _

theorem MethodDef.reads {m : MethodDef} (h : m.toBytes.length < UInt64.size) :
    Reads reader m.toBytes m := by
  simp only [toBytes, List.append_assoc, List.length_append] at h ⊢
  have hbody : Reads (Bytes.option (Bytes.list Instruction.reader))
      (Bytes.ofOption (Bytes.ofList Instruction.toBytes) m.body) m.body := by
    refine Bytes.reads_option fun body hbody => ?_
    have hcount : (Bytes.ofOption (Bytes.ofList Instruction.toBytes) m.body).length =
        (Bytes.ofList Instruction.toBytes body).length + 1 := by
      rw [hbody]
      rfl
    exact Bytes.reads_list (by omega) Instruction.toBytes_ne_nil fun _ => Instruction.reads
  exact .bind (Bytes.reads_text (by omega)) <| .bind (Bytes.reads_bool _) <|
    .bind (Bytes.reads_bool _) <| .bind (TypeRef.reads_list (by omega)) <|
    .bind (TypeRef.reads (by omega)) <| .bind (TypeRef.reads_list (by omega)) <| .map hbody _

theorem TypeDef.reads {t : TypeDef} (h : t.toBytes.length < UInt64.size) :
    Reads reader t.toBytes t := by
  simp only [toBytes, List.append_assoc, List.length_append] at h ⊢
  have hfields : Reads (Bytes.list FieldDef.reader) (Bytes.ofList FieldDef.toBytes t.fields) t.fields :=
    Bytes.reads_list (by omega) (fun f => by simp [FieldDef.toBytes, Bytes.ofText_ne_nil])
      fun _ => FieldDef.reads
  have hmethods : Reads (Bytes.list MethodDef.reader) (Bytes.ofList MethodDef.toBytes t.methods)
      t.methods :=
    Bytes.reads_list (by omega) (fun m => by simp [MethodDef.toBytes, Bytes.ofText_ne_nil])
      fun _ => MethodDef.reads
  exact .bind (Bytes.reads_text (by omega)) <| .bind t.kind.reads <| .bind hfields <| .map hmethods _

namespace Module

theorem reads {m : Module} (h : m.toBytes.length < UInt64.size) : Reads reader m.toBytes m := by
  simp only [toBytes, List.length_append] at h
  have htypes : Reads (Bytes.list TypeDef.reader) (Bytes.ofList TypeDef.toBytes m.types) m.types :=
    Bytes.reads_list (by omega) (fun t => by simp [TypeDef.toBytes, Bytes.ofText_ne_nil])
      fun _ => TypeDef.reads
  exact .bind (Bytes.reads_text (by omega)) <| .map htypes _

/-- A module whose bytes can be counted is read back from them, whatever follows; bytes that break off
before their end hold no module. -/
theorem ofBytes_toBytes {m : Module} (h : m.toBytes.length < UInt64.size) :
    (∀ rest, ofBytes (m.toBytes ++ rest) = .ok m) ∧
      ∀ p, p <+: m.toBytes → p ≠ m.toBytes → ofBytes p = .error .truncated := by
  refine ⟨fun rest => ?_, fun p hp hne => ?_⟩
  · rw [ofBytes, (reads h).whole rest]
    rfl
  · obtain ⟨q, hq⟩ := hp
    have hcut : q ≠ [] := by
      rintro rfl
      exact hne (by simpa using hq)
    rw [ofBytes, (reads h).cut p q hq.symm hcut]
    rfl

/-- Every kind of content at its limits: an absent and an empty body, the least integers, a value that
is not a number, and characters of several bytes. -/
def extremes : Module where
  name := "größe"
  types := [
    { name := "Cell", kind := .structType
      fields := [⟨"next", .pinned (.pointer (.byRef (.array (.named "Cell")))), false⟩]
      methods := [
        { name := "absent" },
        { name := "empty", isStatic := false, isConstructor := true, body := some [] },
        { name := "full", params := [.string, .anyArray], ret := .primitive .nativeUInt
          locals := [.primitive .uint16]
          body := some [
            ⟨0, .push (.int32 Int32.minValue)⟩, ⟨1, .push (.int64 Int64.minValue)⟩,
            ⟨2, .push (.int64 Int64.maxValue)⟩, ⟨3, .push (.real32 ⟨0x7FC00001⟩)⟩,
            ⟨4, .push (.real64 ⟨0x8000000000000000⟩)⟩, ⟨127, .push (.str "\x00\"é\n")⟩,
            ⟨128, .switch [0, 127, 128, 0xFFFFFFFF]⟩, ⟨16384, .call ⟨"Cell", "full", [.string], .void⟩⟩,
            ⟨0xFFFFFFFF, .load (.arg 0xFFFF)⟩, ⟨7, .no 255⟩] }] }]

theorem ofBytes_toBytes_extremes : extremes.toBytes.length < UInt64.size ∧
    ofBytes (extremes.toBytes ++ [0xFF, 0]) = .ok extremes ∧
    ofBytes (extremes.toBytes.take 100) = .error .truncated := by
  have hcount : extremes.toBytes.length < UInt64.size := by decide +kernel
  obtain ⟨hwhole, hcut⟩ := ofBytes_toBytes hcount
  exact ⟨hcount, hwhole _, hcut _ (List.take_prefix ..) (by decide +kernel)⟩

end Module

end CilMmix
