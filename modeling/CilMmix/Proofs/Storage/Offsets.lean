import CilMmix.Proofs.Storage.Search

/-! The offsets of fields, whatever was asked before. A question that fails leaves the places of some fields
behind, and later questions rely on them. They are right: the place of a field only depends on the fields
before it. -/

namespace CilMmix

namespace HasWidth

variable {types : List TypeDef} {tys tys' : List TypeRef} {n n' : Nat}

theorem append (h : HasWidth types tys n) (h' : HasWidth types tys' n') :
    HasWidth types (tys ++ tys') (n + n') := by
  induction h with
  | nil => rwa [Nat.zero_add]
  | cons hty _ ih =>
    rw [Nat.add_assoc]
    exact .cons hty ih

theorem of_append (h : HasWidth types (tys ++ tys') n) :
    ∃ a b, HasWidth types tys a ∧ HasWidth types tys' b ∧ n = a + b := by
  induction tys generalizing n with
  | nil => exact ⟨0, n, .nil, h, (Nat.zero_add n).symm⟩
  | cons ty tys ih =>
    cases h with
    | cons hty hrest =>
      obtain ⟨a, b, ha, hb, rfl⟩ := ih hrest
      exact ⟨_, b, .cons hty ha, hb, (Nat.add_assoc ..).symm⟩

theorem unique (h : HasWidth types tys n) (h' : HasWidth types tys n') : n = n' := by
  induction h generalizing n' with
  | nil =>
    cases h'
    rfl
  | cons hty _ ih =>
    cases h' with
    | cons hty' hrest' => rw [hty.unique hty', ih hrest']

end HasWidth

/-- The text of a field without a colon in its names is the text of no other field. -/
theorem FieldRef.eq_of_text {f g : FieldRef} (htype : ':' ∉ g.declaringType.toList)
    (hname : ':' ∉ g.name.toList) (h : f.text = g.text) : f = g := by
  have hcount : f.text.toList.count ':' = g.text.toList.count ':' := by rw [h]
  -- Besides the two in the middle there is no colon in the text.
  have hclear : f.declaringType.toList.count ':' = 0 := by
    simp [text, List.count_eq_zero_of_not_mem htype, List.count_eq_zero_of_not_mem hname] at hcount
    omega
  exact Clear.eq_of_text (List.count_eq_zero.mp hclear) htype h

/-- Names that tell fields apart: none of them has a colon, and no two instance fields of a type have the
same. -/
structure Legible (types : List TypeDef) : Prop where
  type_clear : ∀ t ∈ types, ':' ∉ t.name.toList
  field_clear : ∀ t ∈ types, ∀ d ∈ t.fields, ':' ∉ d.name.toList
  distinct : ∀ t ∈ types, (t.instanceFields.map FieldDef.name).Nodup

/-- An instance field of the declared type, by its name; the fields before it have so many words together. -/
structure Located (types : List TypeDef) (f : FieldRef) (t : TypeDef) (index : Nat) (d : FieldDef)
    (words : Nat) : Prop where
  declared : Layout.declared? types f.declaringType = some t
  field : t.instanceFields[index]? = some d
  name_eq : d.name = f.name
  before : HasWidth types ((t.instanceFields.take index).map FieldDef.ty) words

/-- A field ends where the next one may begin. -/
theorem Located.stop_le {types : List TypeDef} {f g : FieldRef} {t : TypeDef} {i j : Nat} {d e : FieldDef}
    {a b : Nat} (hf : Located types f t i d a) (hg : Located types g t j e b) (hij : i < j) :
    ∃ n, HasWords types d.ty n ∧ a + n ≤ b := by
  have hsplit : t.instanceFields.take j =
      t.instanceFields.take i ++ d :: (t.instanceFields.take j).drop (i + 1) := by
    have htake : (t.instanceFields.take j)[i]? = some d := by rw [List.getElem?_take_of_lt hij, hf.field]
    obtain ⟨hlt, hget⟩ := List.getElem?_eq_some_iff.mp htake
    have hfirst : t.instanceFields.take i = (t.instanceFields.take j).take i := by
      rw [List.take_take, Nat.min_eq_left (Nat.le_of_lt hij)]
    rw [← hget, List.getElem_cons_drop hlt, hfirst, List.take_append_drop]
  have hb := hg.before
  rw [hsplit, List.map_append, List.map_cons] at hb
  obtain ⟨a', rest, ha', hrest, rfl⟩ := hb.of_append
  cases hrest with
  | cons hd _ =>
    rw [hf.before.unique ha']
    exact ⟨_, hd, by omega⟩

namespace Layout

variable {types : List TypeDef} {l : Layout}

/-- A layout that remembers only right sizes, and only right places of instance fields. -/
structure Placing (types : List TypeDef) (l : Layout) : Prop extends l.Sound types where
  placed : ∀ p ∈ l.offsets, ∃ t index d words, Located types ⟨t.name, d.name⟩ t index d words ∧
    p.1 = FieldRef.text ⟨t.name, d.name⟩ ∧ p.2 = .ofWords words

theorem Placing.sizeOf (h : l.Placing types) (ty : TypeRef) : (l.sizeOf ty).2.Placing types :=
  ⟨(h.toSound.sizeOf ty).1, h.placed⟩

/-- The places that are recorded for the fields of a type are right, up to the first without a size. -/
theorem Placing.place {t : TypeDef} (hd : declared? types t.name = some t) (h : l.Placing types)
    {earlier fields : List FieldDef} (hsplit : t.instanceFields = earlier ++ fields) {words : Nat}
    (hwidth : HasWidth types (earlier.map FieldDef.ty) words) :
    (Layout.place t.name fields (.ofWords words) l).2.Placing types := by
  induction fields generalizing l earlier words with
  | nil => exact h
  | cons f fields ih =>
    have hlocated : Located types ⟨t.name, f.name⟩ t earlier.length f words := by
      refine ⟨hd, by simp [hsplit], rfl, ?_⟩
      rwa [hsplit, List.take_left]
    have hnext : Placing types
        { l with offsets := (FieldRef.text ⟨t.name, f.name⟩, .ofWords words) :: l.offsets } := by
      refine ⟨⟨h.types_eq, h.known⟩, List.forall_mem_cons.mpr ⟨?_, h.placed⟩⟩
      exact ⟨t, _, f, words, hlocated, rfl, rfl⟩
    have hsized := hnext.sizeOf f.ty
    have hsize := (hnext.toSound.sizeOf f.ty).2.1
    rw [Layout.place]
    generalize Layout.sizeOf _ f.ty = r at hsized hsize ⊢
    obtain ⟨answer, next⟩ := r
    cases answer with
    | ok s =>
      dsimp only
      rw [Size.ofWords_add]
      have hrest : t.instanceFields = (earlier ++ [f]) ++ fields := by
        rw [hsplit, List.append_assoc, List.singleton_append]
      have hwider : HasWidth types ((earlier ++ [f]).map FieldDef.ty) (words + s.words) := by
        rw [List.map_append]
        exact hwidth.append (.cons ⟨s, hsize s rfl, rfl⟩ .nil)
      exact ih hsized hrest hwider
    | error fault => exact hsized

theorem Placing.fieldOffset (h : l.Placing types) (f : FieldRef) : (l.fieldOffset f).2.Placing types := by
  cases hl : l.offsets.lookup f.text with
  | some offset =>
    rw [fieldOffset_of_lookup_eq_some hl]
    exact h
  | none =>
    cases hd : declared? l.types f.declaringType with
    | none =>
      rw [fieldOffset_of_declared?_eq_none hl hd]
      exact h
    | some t =>
      rw [fieldOffset_of_lookup_eq_none hl hd]
      rw [h.types_eq] at hd
      obtain ⟨-, hname⟩ := declared?_eq_some hd
      exact h.place (hname ▸ hd) (List.nil_append _).symm .nil

theorem lookup_of_fieldOffset {f : FieldRef} {o : Size} (h : (l.fieldOffset f).1 = .ok o) :
    (l.fieldOffset f).2.offsets.lookup f.text = some o := by
  cases hl : l.offsets.lookup f.text with
  | some offset =>
    rw [fieldOffset_of_lookup_eq_some hl] at h ⊢
    cases h
    exact hl
  | none =>
    cases hd : declared? l.types f.declaringType with
    | none =>
      rw [fieldOffset_of_declared?_eq_none hl hd] at h
      cases h
    | some t =>
      rw [fieldOffset_of_lookup_eq_none hl hd] at h ⊢
      obtain ⟨-, -, hfound⟩ := bind_eq_ok.mp h
      cases hlook : (Layout.place t.name t.instanceFields .zero l).2.offsets.lookup f.text with
      | none =>
        rw [hlook] at hfound
        cases hfound
      | some offset =>
        rw [hlook] at hfound
        cases hfound
        rfl

theorem mem_of_lookup {α β : Type} [BEq α] [LawfulBEq α] {a : α} {b : β} {l : List (α × β)}
    (h : l.lookup a = some b) : (a, b) ∈ l := by
  obtain ⟨before, rest, rfl, -⟩ := List.lookup_eq_some_iff.mp h
  simp

/-- Every offset that is given is that of an instance field of the type. -/
theorem Placing.located (hnames : Legible types) (h : l.Placing types) {f : FieldRef} {o : Size}
    (hok : (l.fieldOffset f).1 = .ok o) :
    ∃ t index d words, Located types f t index d words ∧ o = .ofWords words := by
  have hmem := mem_of_lookup (lookup_of_fieldOffset hok)
  obtain ⟨t, index, d, words, hlocated, hkey, rfl⟩ := (h.fieldOffset f).placed _ hmem
  obtain ⟨ht, -⟩ := declared?_eq_some hlocated.declared
  have hd : d ∈ t.fields := (List.mem_filter.mp (List.mem_of_getElem? hlocated.field)).1
  obtain rfl := FieldRef.eq_of_text (hnames.type_clear t ht) (hnames.field_clear t ht d hd) hkey
  exact ⟨t, index, d, words, hlocated, rfl⟩

/-- The field of a name is the only one of its name. -/
theorem located_index (hnames : Legible types) {name : String} {t : TypeDef} {i index : Nat}
    {d d' : FieldDef} {words : Nat} (hi : t.instanceFields[i]? = some d)
    (h : Located types ⟨name, d.name⟩ t index d' words) : index = i := by
  obtain ⟨ht, -⟩ := declared?_eq_some h.declared
  have hname : (t.instanceFields.map FieldDef.name)[index]? = (t.instanceFields.map FieldDef.name)[i]? := by
    rw [List.getElem?_map, List.getElem?_map, h.field, hi]
    exact congrArg some h.name_eq
  have hlt : index < (t.instanceFields.map FieldDef.name).length := by
    rw [List.length_map]
    exact (List.getElem?_eq_some_iff.mp h.field).1
  exact (List.getElem?_inj hlt (hnames.distinct t ht)).mp hname

end Layout

end CilMmix
