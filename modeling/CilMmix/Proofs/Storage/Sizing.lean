import CilMmix.Storage.Statics
import Mathlib.Data.List.Forall2

/-! The size that a type has, without reference to what was asked before. A layout remembers answers;
as long as each of them is right, so are the answers it gives. -/

namespace CilMmix

/-- The faults of control flow: operand stacks that differ at a join, and a branch without a target. -/
def Fault.OfFlow : Fault → Prop
  | .shapeMismatch _ _ _ | .badBranchTarget _ => True
  | _ => False

/-- A type and its size. Only value types are entered, so a type that would have to hold itself has
none. -/
inductive HasSize (types : List TypeDef) : TypeRef → Size → Prop
  | primitive (p : Primitive) : HasSize types (.primitive p) p.size
  | array (elem : TypeRef) : HasSize types (.array elem) (.ofWords 2)
  | anyArray : HasSize types .anyArray (.ofWords 2)
  | string : HasSize types .string (.ofWords 2)
  | pointer (target : TypeRef) : HasSize types (.pointer target) .word
  | byRef (target : TypeRef) : HasSize types (.byRef target) .word
  | pinned {inner : TypeRef} {size : Size} :
      HasSize types inner size → HasSize types (.pinned inner) size
  | reference {name : String} {t : TypeDef} :
      Layout.declared? types name = some t → t.kind ≠ .structType → HasSize types (.named name) .word
  | struct {name : String} {t : TypeDef} {sizes : List Size} :
      Layout.declared? types name = some t → t.kind = .structType →
      sizes.length = t.instanceFields.length →
      (∀ p ∈ (t.instanceFields.map FieldDef.ty).zip sizes, HasSize types p.1 p.2) →
      HasSize types (.named name) (Size.sum sizes)

theorem sizes_unique {R : TypeRef → Size → Prop} {tys : List TypeRef} {a b : List Size}
    (hlen : a.length = tys.length) (ha : ∀ p ∈ tys.zip a, ∀ s, R p.1 s → p.2 = s)
    (hb : List.Forall₂ R tys b) : a = b := by
  induction hb generalizing a with
  | nil => simpa using hlen
  | cons hr _ ih =>
    cases a with
    | nil => simp at hlen
    | cons s a =>
      have hs : s = _ := ha (_, s) (by simp) _ hr
      have hrest := ih (by simpa using hlen) (fun p hp => ha p (List.mem_cons_of_mem _ hp))
      rw [hs, hrest]

theorem HasSize.unique {types : List TypeDef} {ty : TypeRef} {a b : Size}
    (ha : HasSize types ty a) (hb : HasSize types ty b) : a = b := by
  induction ha generalizing b with
  | primitive | array | anyArray | string | pointer | byRef => cases hb; rfl
  | pinned _ ih =>
    cases hb with
    | pinned hb => exact ih hb
  | reference hd hk =>
    cases hb with
    | reference => rfl
    | struct hd' hk' =>
      cases hd.symm.trans hd'
      exact absurd hk' hk
  | struct hd hk hlen _ ih =>
    cases hb with
    | reference hd' hk' =>
      cases hd.symm.trans hd'
      exact absurd hk hk'
    | struct hd' _ hlen' hs' =>
      cases hd.symm.trans hd'
      have hall := List.forall₂_iff_zip.mpr ⟨by simpa using hlen'.symm, fun {_ _} hp => hs' _ hp⟩
      rw [sizes_unique (by simpa using hlen) (fun p hp s hs => ih p hp hs) hall]

/-- A type of so many words. -/
def HasWords (types : List TypeDef) (ty : TypeRef) (words : Nat) : Prop :=
  ∃ size, HasSize types ty size ∧ size.words = words

theorem HasWords.unique {types : List TypeDef} {ty : TypeRef} {a b : Nat}
    (ha : HasWords types ty a) (hb : HasWords types ty b) : a = b := by
  obtain ⟨s, hs, rfl⟩ := ha
  obtain ⟨t, ht, rfl⟩ := hb
  rw [hs.unique ht]

/-- A module with a value type that has no words. -/
def hollow : Module := ⟨"hollow", [⟨"Unit", .structType, [], []⟩]⟩

theorem hasWords_unit : HasWords hollow.types (.named "Unit") 0 := by
  have hsize : HasSize hollow.types (.named "Unit") (Size.sum []) :=
    .struct (t := ⟨"Unit", .structType, [], []⟩) rfl rfl rfl (List.forall_mem_nil _)
  exact ⟨_, hsize, by decide⟩

/-- Types of so many words together. -/
inductive HasWidth (types : List TypeDef) : List TypeRef → Nat → Prop
  | nil : HasWidth types [] 0
  | cons {ty : TypeRef} {tys : List TypeRef} {words width : Nat} : HasWords types ty words →
      HasWidth types tys width → HasWidth types (ty :: tys) (words + width)

namespace Layout

/-- Every remembered size is right. -/
def Known (types : List TypeDef) (known : List (String × Size)) : Prop :=
  ∀ p ∈ known, HasSize types (.named p.1) p.2

/-- What an answer about the size of a type may be, whatever is remembered. -/
def Answers (types : List TypeDef) (ask : Sizing Size) (ty : TypeRef) : Prop :=
  ∀ known, Known types known → Known types (ask known).2 ∧
    (∀ size, (ask known).1 = .ok size → HasSize types ty size) ∧
    ∀ fault, (ask known).1 = .error fault → ¬ fault.OfFlow

theorem sizeBy_answers {types : List TypeDef} {declaredSize : String → Sizing Size}
    (h : ∀ name, Answers types (declaredSize name) (.named name)) (ty : TypeRef) :
    Answers types (sizeBy declaredSize ty) ty := by
  induction ty with
  | named name => exact h name
  | pinned inner ih =>
    intro known hk
    obtain ⟨hn, hs, hf⟩ := ih known hk
    exact ⟨hn, fun size he => .pinned (hs size he), hf⟩
  | primitive p => exact fun known hk => ⟨hk, fun _ he => by cases he; exact .primitive p, nofun⟩
  | array e => exact fun known hk => ⟨hk, fun _ he => by cases he; exact .array e, nofun⟩
  | anyArray => exact fun known hk => ⟨hk, fun _ he => by cases he; exact .anyArray, nofun⟩
  | string => exact fun known hk => ⟨hk, fun _ he => by cases he; exact .string, nofun⟩
  | pointer t => exact fun known hk => ⟨hk, fun _ he => by cases he; exact .pointer t, nofun⟩
  | byRef t => exact fun known hk => ⟨hk, fun _ he => by cases he; exact .byRef t, nofun⟩

theorem totalBy_answers {types : List TypeDef} {size : TypeRef → Sizing Size}
    (h : ∀ ty, Answers types (size ty) ty) (tys : List TypeRef) (total : Size)
    (known : List (String × Size)) (hk : Known types known) :
    Known types (totalBy size total tys known).2 ∧
    (∀ s, (totalBy size total tys known).1 = .ok s →
      ∃ sizes, List.Forall₂ (HasSize types) tys sizes ∧ s = sizes.foldl (· + ·) total) ∧
    ∀ fault, (totalBy size total tys known).1 = .error fault → ¬ fault.OfFlow := by
  induction tys generalizing total known with
  | nil => exact ⟨hk, fun s he => ⟨[], .nil, by cases he; rfl⟩, nofun⟩
  | cons ty tys ih =>
    obtain ⟨hn, hs, hf⟩ := h ty known hk
    unfold totalBy
    split
    · rename_i s known' he
      rw [he] at hn hs
      obtain ⟨hn', hs', hf'⟩ := ih (total + s) known' hn
      refine ⟨hn', fun t ht => ?_, hf'⟩
      obtain ⟨sizes, hsizes, rfl⟩ := hs' t ht
      exact ⟨s :: sizes, .cons (hs s rfl) hsizes, rfl⟩
    · rename_i fault known' he
      rw [he] at hn hf
      exact ⟨hn, nofun, hf⟩

theorem Known.cons {types : List TypeDef} {known : List (String × Size)} {name : String}
    {size : Size} (hk : Known types known) (hs : HasSize types (.named name) size) :
    Known types ((name, size) :: known) := by
  intro p hp
  rcases List.mem_cons.mp hp with rfl | hp
  · exact hs
  · exact hk p hp

/-- One declared type, given the answers about the types inside it. -/
theorem declaredSize_answers_of_inner {types : List TypeDef} {room : Nat} {outer : List String}
    {name : String} (h : ∀ r, room = r + 1 → ∀ outer name,
      Answers types (declaredSize types r outer name) (.named name)) :
    Answers types (declaredSize types room outer name) (.named name) := by
  intro known hk
  rw [declaredSize]
  split
  case h_1 s hs =>
    obtain ⟨before, after, hknown, -⟩ := List.lookup_eq_some_iff.mp hs
    refine ⟨hk, fun size he => ?_, nofun⟩
    cases he
    exact hk (name, s) (by simp [hknown])
  case h_2 =>
    split
    case h_1 => exact ⟨hk, nofun, fun fault he => by cases he; exact id⟩
    case h_2 t ht =>
      split
      case h_1 hkind =>
        have hs : HasSize types (.named name) .word := .reference ht (by simp [hkind])
        exact ⟨hk.cons hs, fun size he => by cases he; exact hs, nofun⟩
      case h_2 hkind =>
        have hs : HasSize types (.named name) .word := .reference ht (by simp [hkind])
        exact ⟨hk.cons hs, fun size he => by cases he; exact hs, nofun⟩
      case h_3 hkind =>
        split
        · exact ⟨hk, nofun, fun fault he => by cases he; exact id⟩
        · rename_i r
          split
          · exact ⟨hk, nofun, fun fault he => by cases he; exact id⟩
          · obtain ⟨hn, hs, hf⟩ := totalBy_answers (sizeBy_answers (h r rfl (name :: outer)))
              (t.instanceFields.map FieldDef.ty) .zero known hk
            dsimp only
            split
            · rename_i s known' he
              rw [he] at hn hs
              obtain ⟨sizes, hall, rfl⟩ := hs s rfl
              have hzip := List.forall₂_iff_zip.mp hall
              have hsize : HasSize types (.named name) (Size.sum sizes) :=
                .struct ht hkind (by simpa using hzip.1.symm) fun p hp => hzip.2 hp
              exact ⟨hn.cons hsize, fun size he => by cases he; exact hsize, nofun⟩
            · rename_i fault known' he
              rw [he] at hn hf
              exact ⟨hn, nofun, hf⟩

theorem declaredSize_answers (types : List TypeDef) (room : Nat) (outer : List String)
    (name : String) : Answers types (declaredSize types room outer name) (.named name) := by
  induction room generalizing outer name with
  | zero => exact declaredSize_answers_of_inner nofun
  | succ room ih =>
    refine declaredSize_answers_of_inner fun r hr => ?_
    cases hr
    exact ih

/-- A layout of the types that remembers nothing wrong. -/
structure Sound (types : List TypeDef) (l : Layout) : Prop where
  types_eq : l.types = types
  known : Known types l.sizes

theorem Sound.sizeOf {types : List TypeDef} {l : Layout} (h : l.Sound types) (ty : TypeRef) :
    (l.sizeOf ty).2.Sound types ∧
    (∀ size, (l.sizeOf ty).1 = .ok size → HasSize types ty size) ∧
    ∀ fault, (l.sizeOf ty).1 = .error fault → ¬ fault.OfFlow := by
  obtain ⟨rfl, hk⟩ := h
  obtain ⟨hn, hs, hf⟩ := sizeBy_answers
    (declaredSize_answers l.types (l.types.length + 1) []) ty l.sizes hk
  exact ⟨⟨rfl, hn⟩, hs, hf⟩

theorem Sound.place {types : List TypeDef} {l : Layout} (h : l.Sound types) (typeName : String)
    (fields : List FieldDef) (offset : Size) :
    (Layout.place typeName fields offset l).2.Sound types ∧
    ∀ fault, (Layout.place typeName fields offset l).1 = .error fault → ¬ fault.OfFlow := by
  induction fields generalizing offset l with
  | nil => exact ⟨h, nofun⟩
  | cons f fields ih =>
    have hl : Sound types
        { l with offsets := (FieldRef.text ⟨typeName, f.name⟩, offset) :: l.offsets } :=
      ⟨h.types_eq, h.known⟩
    obtain ⟨hn, -, hf⟩ := hl.sizeOf f.ty
    rw [Layout.place]
    split
    · rename_i s l' he
      rw [he] at hn
      exact ih hn (offset + s)
    · rename_i fault l' he
      rw [he] at hn hf
      exact ⟨hn, fun g hg => by cases hg; exact hf fault rfl⟩

theorem Sound.fieldOffset {types : List TypeDef} {l : Layout} (h : l.Sound types) (f : FieldRef) :
    (l.fieldOffset f).2.Sound types ∧
    ∀ fault, (l.fieldOffset f).1 = .error fault → ¬ fault.OfFlow := by
  unfold Layout.fieldOffset
  split
  · exact ⟨h, nofun⟩
  · split
    · exact ⟨h, fun fault he => by cases he; exact id⟩
    · rename_i t _
      obtain ⟨hn, hf⟩ := h.place t.name t.instanceFields .zero
      split
      · rename_i fault l' he
        rw [he] at hn hf
        exact ⟨hn, fun g hg => by cases hg; exact hf fault rfl⟩
      · rename_i l' he
        rw [he] at hn
        split
        · exact ⟨hn, nofun⟩
        · exact ⟨hn, fun fault he => by cases he; exact id⟩

theorem resolveField_fault {l : Layout} {f : FieldRef} {fault : Fault}
    (h : l.resolveField f = .error fault) : ¬ fault.OfFlow := by
  unfold resolveField at h
  split at h
  · cases h
  · cases h
    exact id

/-- Which field a reference names depends on the types only. -/
theorem Sound.resolveField {types : List TypeDef} {l : Layout} (h : l.Sound types) (f : FieldRef) :
    l.resolveField f = Layout.resolveField { types } f := by
  simp only [Layout.resolveField, h.types_eq]

theorem isStruct_congr {l l' : Layout} (h : l.types = l'.types) (ty : TypeRef) :
    l.isStruct ty = l'.isStruct ty := by
  induction ty with
  | named name => simp only [isStruct, h]
  | pinned inner ih => exact ih
  | _ => rfl

theorem sound_ofModule (m : Module) : (Session.ofModule m).layout.Sound m.types := ⟨rfl, nofun⟩

end Layout

end CilMmix
