import CilMmix.Proofs.Storage.Recall

/-! The size of a type, whatever was asked before. A type has a size exactly if the types that it holds are
declared and none of them holds itself. The search for it goes into the fields of value types and keeps
account of the types that it is inside of; it always ends, and is then inside of none. -/

namespace CilMmix

@[simp] theorem Size.words_ofWords (n : Nat) : (ofWords n).words = n := by
  simp only [ofWords, words, wordBytes]
  omega

theorem Size.ofWords_add (n : Nat) (s : Size) : ofWords n + s = ofWords (n + s.words) := by
  change ofWords ((ofWords n).words + s.words) = _
  rw [words_ofWords]

/-- Types of so many words have sizes that add up to as many whole words. -/
theorem HasWidth.exists_sizes {types : List TypeDef} {tys : List TypeRef} {width : Nat}
    (h : HasWidth types tys width) : ∃ sizes, List.Forall₂ (HasSize types) tys sizes ∧
      ∀ n, sizes.foldl (· + ·) (.ofWords n) = Size.ofWords (n + width) := by
  induction h with
  | nil => exact ⟨[], .nil, fun _ => rfl⟩
  | cons hty _ ih =>
    obtain ⟨size, hsize, rfl⟩ := hty
    obtain ⟨sizes, hsizes, hsum⟩ := ih
    refine ⟨size :: sizes, .cons hsize hsizes, fun n => ?_⟩
    rw [List.foldl_cons, Size.ofWords_add, hsum, Nat.add_assoc]

namespace Layout

variable {types : List TypeDef}

/-- The types that a value of the type holds are declared, and none of them holds itself. -/
def Grounded (types : List TypeDef) (ty : TypeRef) : Prop :=
  ∀ name, Holds types ty name → declared? types name ≠ none ∧ ¬ Encloses types name name

theorem declared_of_hasSize {ty : TypeRef} {size : Size} (h : HasSize types ty size) {name : String}
    (hn : Holds types ty name) : declared? types name ≠ none := by
  induction h with
  | primitive | array | anyArray | string | pointer | byRef => cases hn
  | pinned _ ih =>
    cases hn with
    | pinned hn => exact ih hn
  | reference hd hk =>
    cases hn with
    | named => simp [hd]
    | field hd' hk' => exact absurd (Option.some.inj (hd.symm.trans hd') ▸ hk') hk
  | struct hd _ hlen _ ih =>
    cases hn with
    | named => simp [hd]
    | field hd' _ hf hin =>
      cases hd.symm.trans hd'
      obtain ⟨s, hs⟩ := exists_mem_zip (by simpa using hlen.symm) (List.mem_map_of_mem hf)
      exact ih _ hs hin

theorem exists_sizes {tys : List TypeRef} (h : ∀ ty ∈ tys, ∃ size, HasSize types ty size) :
    ∃ sizes, List.Forall₂ (HasSize types) tys sizes := by
  induction tys with
  | nil => exact ⟨[], .nil⟩
  | cons ty tys ih =>
    obtain ⟨hty, htys⟩ := List.forall_mem_cons.mp h
    obtain ⟨size, hsize⟩ := hty
    obtain ⟨sizes, hsizes⟩ := ih htys
    exact ⟨size :: sizes, .cons hsize hsizes⟩

theorem hasSize_struct {name : String} {t : TypeDef} (hd : declared? types name = some t)
    (hk : t.kind = .structType) {sizes : List Size}
    (h : List.Forall₂ (HasSize types) (t.instanceFields.map FieldDef.ty) sizes) :
    HasSize types (.named name) (Size.sum sizes) := by
  obtain ⟨hlen, hzip⟩ := List.forall₂_iff_zip.mp h
  exact .struct hd hk (by simpa using hlen.symm) fun p hp => hzip hp

/-- Inside types that all enclose it, a grounded type has a size: as long as there is a field to enter, the
way in goes on through new types, and there are only so many. -/
theorem exists_hasSize_inside {room : Nat} {outer : List String} (hspace : Space types room outer)
    {ty : TypeRef} (hout : ∀ name, Holds types ty name → ∀ o ∈ outer, Encloses types o name)
    (h : Grounded types ty) : ∃ size, HasSize types ty size := by
  induction room using Nat.strongRecOn generalizing outer ty with
  | _ room ih =>
    induction ty with
    | primitive p => exact ⟨_, .primitive p⟩
    | array e => exact ⟨_, .array e⟩
    | anyArray => exact ⟨_, .anyArray⟩
    | string => exact ⟨_, .string⟩
    | pointer t => exact ⟨_, .pointer t⟩
    | byRef t => exact ⟨_, .byRef t⟩
    | pinned inner ihinner =>
      obtain ⟨size, hsize⟩ :=
        ihinner (fun name hn => hout name (.pinned hn)) fun name hn => h name (.pinned hn)
      exact ⟨size, .pinned hsize⟩
    | named name =>
      obtain ⟨hdeclared, hself⟩ := h name (.named name)
      obtain ⟨t, hd⟩ := Option.ne_none_iff_exists'.mp hdeclared
      by_cases hk : t.kind = .structType
      · have hname : name ∉ outer := fun hmem => hself (hout name (.named name) name hmem)
        obtain ⟨inner, rfl, hinner⟩ := hspace.enter hd hname
        have hfields : ∀ ty ∈ t.instanceFields.map FieldDef.ty, ∃ size, HasSize types ty size := by
          intro ty hty
          obtain ⟨f, hf, rfl⟩ := List.mem_map.mp hty
          apply ih inner (Nat.lt_succ_self inner) hinner
          · intro n hn
            exact encloses_field hd hk (hout name (.named name)) hf hn
          · intro n hn
            exact h n (.field hd hk hf hn)
        obtain ⟨sizes, hsizes⟩ := exists_sizes hfields
        exact ⟨_, hasSize_struct hd hk hsizes⟩
      · exact ⟨_, .reference hd hk⟩

/-- The types that have a size. -/
theorem exists_hasSize_iff {ty : TypeRef} : (∃ size, HasSize types ty size) ↔ Grounded types ty := by
  constructor
  · rintro ⟨size, h⟩ name hn
    exact ⟨declared_of_hasSize h hn, not_encloses_self h hn⟩
  · exact exists_hasSize_inside (space_nil types) fun _ _ => List.forall_mem_nil _

/-- Every layout that remembers nothing wrong answers with the size of the type. -/
theorem Sound.sizeOf_eq_ok {l : Layout} (h : l.Sound types) {ty : TypeRef} {size : Size} :
    (l.sizeOf ty).1 = .ok size ↔ HasSize types ty size := by
  refine ⟨(h.sizeOf ty).2.1 size, fun hsize => ?_⟩
  obtain ⟨rfl, hk⟩ := h
  obtain ⟨s, hs⟩ := sizeBy_ok hsize (space_nil l.types) (List.forall_mem_nil _) hk
  have hanswer : (l.sizeOf ty).1 = .ok s := hs
  rwa [hsize.unique ((Sound.sizeOf ⟨rfl, hk⟩ ty).2.1 s hanswer)]

end Layout

/-- The size of a type that is not looked into. -/
def TypeRef.plainSize? : TypeRef → Option Size
  | primitive p => some p.size
  | array _ | anyArray | string => some (.ofWords 2)
  | pointer _ | byRef _ => some .word
  | pinned _ | named _ => none

namespace Layout

/-- What a layout works on: the size of a type, the words of several types after a start, places for fields
from an offset on, and the place of one field. -/
inductive Task where
  | size (ty : TypeRef)
  | total (start : Size) (tys : List TypeRef)
  | place (typeName : String) (fields : List FieldDef) (offset : Size)
  | offset (f : FieldRef)

/-- A layout at work, and the value types that it is inside of. -/
structure Search where
  layout : Layout
  inside : List String

namespace Search

def enter (s : Search) (name : String) : Search := { s with inside := name :: s.inside }

def leave (s : Search) (name : String) : Search := { s with inside := s.inside.erase name }

def learn (s : Search) (name : String) (size : Size) : Search :=
  { s with layout := { s.layout with sizes := (name, size) :: s.layout.sizes } }

def record (s : Search) (key : String) (offset : Size) : Search :=
  { s with layout := { s.layout with offsets := (key, offset) :: s.layout.offsets } }

/-- Work that ends, with an answer. Nothing bounds how far it goes into fields; a value type is marked when
it is entered and no longer when it is left, with or without a fault. -/
inductive Ends : Task → Search → Except Fault Size → Search → Prop
  | plain {s : Search} {ty : TypeRef} {size : Size} :
      ty.plainSize? = some size → Ends (.size ty) s (.ok size) s
  | pinned {s s' : Search} {inner : TypeRef} {answer : Except Fault Size} :
      Ends (.size inner) s answer s' → Ends (.size (.pinned inner)) s answer s'
  | known {s : Search} {name : String} {size : Size} :
      s.layout.sizes.lookup name = some size → Ends (.size (.named name)) s (.ok size) s
  | undeclared {s : Search} {name : String} :
      s.layout.sizes.lookup name = none → declared? s.layout.types name = none →
      Ends (.size (.named name)) s (.error (.unknownSize name)) s
  | reference {s : Search} {name : String} {t : TypeDef} :
      s.layout.sizes.lookup name = none → declared? s.layout.types name = some t → t.kind ≠ .structType →
      Ends (.size (.named name)) s (.ok .word) (s.learn name .word)
  | recursive {s : Search} {name : String} {t : TypeDef} :
      s.layout.sizes.lookup name = none → declared? s.layout.types name = some t → t.kind = .structType →
      name ∈ s.inside → Ends (.size (.named name)) s (.error (.recursiveType name)) s
  | struct {s s' : Search} {name : String} {t : TypeDef} {size : Size} :
      s.layout.sizes.lookup name = none → declared? s.layout.types name = some t → t.kind = .structType →
      name ∉ s.inside → Ends (.total .zero (t.instanceFields.map FieldDef.ty)) (s.enter name) (.ok size) s' →
      Ends (.size (.named name)) s (.ok size) ((s'.leave name).learn name size)
  | structFault {s s' : Search} {name : String} {t : TypeDef} {fault : Fault} :
      s.layout.sizes.lookup name = none → declared? s.layout.types name = some t → t.kind = .structType →
      name ∉ s.inside →
      Ends (.total .zero (t.instanceFields.map FieldDef.ty)) (s.enter name) (.error fault) s' →
      Ends (.size (.named name)) s (.error fault) (s'.leave name)
  | totalNil {s : Search} {start : Size} : Ends (.total start []) s (.ok start) s
  | totalCons {s s' s'' : Search} {start size : Size} {ty : TypeRef} {tys : List TypeRef}
      {answer : Except Fault Size} :
      Ends (.size ty) s (.ok size) s' → Ends (.total (start + size) tys) s' answer s'' →
      Ends (.total start (ty :: tys)) s answer s''
  | totalFault {s s' : Search} {start : Size} {ty : TypeRef} {tys : List TypeRef} {fault : Fault} :
      Ends (.size ty) s (.error fault) s' → Ends (.total start (ty :: tys)) s (.error fault) s'
  | placeNil {s : Search} {typeName : String} {offset : Size} :
      Ends (.place typeName [] offset) s (.ok offset) s
  | placeCons {s s' s'' : Search} {typeName : String} {f : FieldDef} {fields : List FieldDef}
      {offset size : Size} {answer : Except Fault Size} :
      Ends (.size f.ty) (s.record (FieldRef.text ⟨typeName, f.name⟩) offset) (.ok size) s' →
      Ends (.place typeName fields (offset + size)) s' answer s'' →
      Ends (.place typeName (f :: fields) offset) s answer s''
  | placeFault {s s' : Search} {typeName : String} {f : FieldDef} {fields : List FieldDef} {offset : Size}
      {fault : Fault} :
      Ends (.size f.ty) (s.record (FieldRef.text ⟨typeName, f.name⟩) offset) (.error fault) s' →
      Ends (.place typeName (f :: fields) offset) s (.error fault) s'
  | offsetKnown {s : Search} {f : FieldRef} {offset : Size} :
      s.layout.offsets.lookup f.text = some offset → Ends (.offset f) s (.ok offset) s
  | offsetUndeclared {s : Search} {f : FieldRef} :
      s.layout.offsets.lookup f.text = none → declared? s.layout.types f.declaringType = none →
      Ends (.offset f) s (.error (.unresolvedField f.text)) s
  | offsetPlaced {s s' : Search} {f : FieldRef} {t : TypeDef} {size : Size} :
      s.layout.offsets.lookup f.text = none → declared? s.layout.types f.declaringType = some t →
      Ends (.place t.name t.instanceFields .zero) s (.ok size) s' →
      Ends (.offset f) s ((s'.layout.offsets.lookup f.text).elim (.error (.unresolvedField f.text)) .ok) s'
  | offsetFault {s s' : Search} {f : FieldRef} {t : TypeDef} {fault : Fault} :
      s.layout.offsets.lookup f.text = none → declared? s.layout.types f.declaringType = some t →
      Ends (.place t.name t.instanceFields .zero) s (.error fault) s' →
      Ends (.offset f) s (.error fault) s'

/-- Work ends in one way only. -/
theorem Ends.unique {task : Task} {s s₁ s₂ : Search} {a₁ a₂ : Except Fault Size}
    (h₁ : Ends task s a₁ s₁) (h₂ : Ends task s a₂ s₂) : a₁ = a₂ ∧ s₁ = s₂ := by
  -- Two rules for one task differ in a premise that only one of them meets.
  induction h₁ generalizing a₂ s₂ with
  | plain | pinned | known | undeclared | reference | recursive | struct | structFault =>
    cases h₂ <;> grind [TypeRef.plainSize?]
  | totalNil | totalCons | totalFault => cases h₂ <;> grind
  | placeNil | placeCons | placeFault => cases h₂ <;> grind
  | offsetKnown | offsetUndeclared | offsetPlaced | offsetFault => cases h₂ <;> grind

end Search

open Search

variable {types : List TypeDef}

/-- Inside the given types, the work ends with the answer of the function, and inside the same types. -/
def Works (types : List TypeDef) (outer : List String) (task : Task) (ask : Sizing Size) : Prop :=
  ∀ l : Layout, l.types = types →
    Ends task ⟨l, outer⟩ (ask l.sizes).1 ⟨{ l with sizes := (ask l.sizes).2 }, outer⟩

theorem sizeBy_works {outer : List String} {declaredSize : String → Sizing Size}
    (h : ∀ name, Works types outer (.size (.named name)) (declaredSize name)) (ty : TypeRef) :
    Works types outer (.size ty) (sizeBy declaredSize ty) := by
  induction ty with
  | named name => exact h name
  | pinned inner ih => exact fun l hl => .pinned (ih l hl)
  | primitive | array | anyArray | string | pointer | byRef => exact fun _ _ => .plain rfl

theorem totalBy_works {outer : List String} {size : TypeRef → Sizing Size}
    (h : ∀ ty, Works types outer (.size ty) (size ty)) (start : Size) (tys : List TypeRef) :
    Works types outer (.total start tys) (totalBy size start tys) := by
  induction tys generalizing start with
  | nil => exact fun _ _ => .totalNil
  | cons ty tys ih =>
    intro l hl
    have hty := h ty l hl
    simp only [totalBy]
    generalize size ty l.sizes = r at hty ⊢
    obtain ⟨answer, known⟩ := r
    cases answer with
    | ok s => exact .totalCons hty (ih (start + s) { l with sizes := known } hl)
    | error fault => exact .totalFault hty

/-- One declared type, given that work inside it ends. -/
theorem declaredSize_works_of_inner {room : Nat} {outer : List String} (hspace : Space types room outer)
    (h : ∀ r outer name, room = r + 1 → Space types r outer →
      Works types outer (.size (.named name)) (declaredSize types r outer name)) (name : String) :
    Works types outer (.size (.named name)) (declaredSize types room outer name) := by
  rintro l rfl
  rw [declaredSize]
  cases hl : l.sizes.lookup name with
  | some s => exact .known hl
  | none =>
    cases hd : declared? l.types name with
    | none => exact .undeclared hl hd
    | some t =>
      dsimp only
      cases hk : t.kind with
      | classType | interfaceType => exact .reference hl hd (by simp [hk])
      | structType =>
        by_cases hname : name ∈ outer
        · cases room with
          | zero => exact .recursive hl hd hk hname
          | succ r =>
            simp only [List.contains_iff_mem, hname, if_true]
            exact .recursive hl hd hk hname
        -- A new type is declared, so there is room for it.
        obtain ⟨r, rfl, hinner⟩ := hspace.enter hd hname
        have hwork := totalBy_works (sizeBy_works fun n => h r (name :: outer) n rfl hinner) .zero
          (t.instanceFields.map FieldDef.ty) l rfl
        simp only [List.contains_iff_mem, hname, if_false]
        generalize totalBy _ _ _ l.sizes = r at hwork ⊢
        obtain ⟨answer, known⟩ := r
        cases answer with
        | ok size =>
          have hend := Ends.struct (s := ⟨l, outer⟩) hl hd hk hname hwork
          simpa [leave, learn] using hend
        | error fault =>
          have hend := Ends.structFault (s := ⟨l, outer⟩) hl hd hk hname hwork
          simpa [leave] using hend

theorem declaredSize_works {room : Nat} {outer : List String} (hspace : Space types room outer)
    (name : String) : Works types outer (.size (.named name)) (declaredSize types room outer name) := by
  induction room generalizing outer name with
  | zero => exact declaredSize_works_of_inner hspace nofun name
  | succ room ih =>
    refine declaredSize_works_of_inner hspace (fun r outer name hr hspace => ?_) name
    cases hr
    exact ih hspace name

theorem ends_sizeOf (l : Layout) (ty : TypeRef) :
    Ends (.size ty) ⟨l, []⟩ (l.sizeOf ty).1 ⟨(l.sizeOf ty).2, []⟩ :=
  sizeBy_works (declaredSize_works (space_nil l.types)) ty l rfl

theorem ends_place (l : Layout) (typeName : String) (fields : List FieldDef) (offset : Size) :
    ∃ answer, (place typeName fields offset l).1 = answer.map (fun _ => ()) ∧
      Ends (.place typeName fields offset) ⟨l, []⟩ answer ⟨(place typeName fields offset l).2, []⟩ := by
  induction fields generalizing l offset with
  | nil => exact ⟨.ok offset, rfl, .placeNil⟩
  | cons f fields ih =>
    have hsize :=
      ends_sizeOf { l with offsets := (FieldRef.text ⟨typeName, f.name⟩, offset) :: l.offsets } f.ty
    rw [place]
    generalize sizeOf _ f.ty = r at hsize ⊢
    obtain ⟨answer, next⟩ := r
    cases answer with
    | ok s =>
      obtain ⟨answer, hanswer, hend⟩ := ih next (offset + s)
      exact ⟨answer, hanswer, .placeCons hsize hend⟩
    | error fault => exact ⟨.error fault, rfl, .placeFault hsize⟩

theorem ends_fieldOffset (l : Layout) (f : FieldRef) :
    Ends (.offset f) ⟨l, []⟩ (l.fieldOffset f).1 ⟨(l.fieldOffset f).2, []⟩ := by
  cases hl : l.offsets.lookup f.text with
  | some offset =>
    rw [fieldOffset_of_lookup_eq_some hl]
    exact .offsetKnown hl
  | none =>
    cases hd : declared? l.types f.declaringType with
    | none =>
      rw [fieldOffset_of_declared?_eq_none hl hd]
      exact .offsetUndeclared hl hd
    | some t =>
      obtain ⟨answer, hanswer, hend⟩ := ends_place l t.name t.instanceFields .zero
      rw [fieldOffset_of_lookup_eq_none hl hd, hanswer]
      cases answer with
      | ok size => exact .offsetPlaced hl hd hend
      | error fault => exact .offsetFault hl hd hend

/-- A question to a layout. -/
inductive Question where
  | size (ty : TypeRef)
  | offset (f : FieldRef)

def Question.task : Question → Task
  | size ty => .size ty
  | offset f => .offset f

def answer (l : Layout) : Question → Except Fault Size × Layout
  | .size ty => l.sizeOf ty
  | .offset f => l.fieldOffset f

/-- A new layout after some questions, the latest first, whether they were answered or not. -/
def after (types : List TypeDef) : List Question → Layout
  | [] => { types }
  | question :: earlier => ((after types earlier).answer question).2

/-- The work on these questions ends, one after the other. -/
inductive Search.Reached (types : List TypeDef) : List Question → Search → Prop
  | start : Reached types [] ⟨{ types }, []⟩
  | ask {earlier : List Question} {question : Question} {s s' : Search} {answer : Except Fault Size} :
      Reached types earlier s → Ends question.task s answer s' → Reached types (question :: earlier) s'

theorem ends_answer (l : Layout) (question : Question) :
    Ends question.task ⟨l, []⟩ (l.answer question).1 ⟨(l.answer question).2, []⟩ := by
  cases question with
  | size ty => exact ends_sizeOf l ty
  | offset f => exact ends_fieldOffset l f

theorem reached_iff {history : List Question} {s : Search} :
    Reached types history s ↔ s = ⟨after types history, []⟩ := by
  constructor
  · intro h
    induction h with
    | start => rfl
    | ask _ hend ih =>
      subst ih
      exact (hend.unique (ends_answer _ _)).2
  · rintro rfl
    induction history with
    | nil => exact .start
    | cons question earlier ih => exact .ask ih (ends_answer _ question)

theorem sound_after (types : List TypeDef) (history : List Question) : (after types history).Sound types := by
  induction history with
  | nil => exact sound_new types
  | cons question earlier ih =>
    cases question with
    | size ty => exact (ih.sizeOf ty).1
    | offset f => exact (ih.fieldOffset f).1

/-- Whatever was asked before, answered or not: the search for a size ends, in one way and inside of no type;
it is found exactly if the type is grounded, it is the size of the type, for a value type the sum of the words
of its fields, and a new layout gives the same answer. -/
theorem sizeOf_after (types : List TypeDef) (history : List Question) (ty : TypeRef) :
    (∀ s, Reached types history s ↔ s = ⟨after types history, []⟩) ∧
    (∀ answer s, Ends (.size ty) ⟨after types history, []⟩ answer s ↔
      answer = ((after types history).sizeOf ty).1 ∧ s = ⟨((after types history).sizeOf ty).2, []⟩) ∧
    ((∃ size, ((after types history).sizeOf ty).1 = .ok size) ↔ Grounded types ty) ∧
    (∀ size, ((after types history).sizeOf ty).1 = .ok size ↔ HasSize types ty size) ∧
    (∀ name t width, ty = .named name → declared? types name = some t → t.kind = .structType →
      HasWidth types (t.instanceFields.map FieldDef.ty) width →
      ((after types history).sizeOf ty).1 = .ok (.ofWords width)) ∧
    ((after types history).sizeOf ty).1 = (sizeOf { types } ty).1 := by
  have hsound := sound_after types history
  refine ⟨fun s => reached_iff, fun answer s => ?_, ?_, fun size => hsound.sizeOf_eq_ok, ?_,
    (hsound.sizeOf_eq ty).1⟩
  · constructor
    · exact fun hend => hend.unique (ends_sizeOf _ ty)
    · rintro ⟨rfl, rfl⟩
      exact ends_sizeOf _ ty
  · simp only [hsound.sizeOf_eq_ok, exists_hasSize_iff]
  · rintro name t width rfl hd hk hwidth
    obtain ⟨sizes, hsizes, hsum⟩ := hwidth.exists_sizes
    have hwords : Size.sum sizes = .ofWords width := (hsum 0).trans (by rw [Nat.zero_add])
    exact hsound.sizeOf_eq_ok.mpr (hwords ▸ hasSize_struct hd hk hsizes)

end Layout

end CilMmix
