import Mathlib.Data.List.Perm.Subperm
import CilMmix.Proofs.Outcome
import CilMmix.Proofs.Storage.Sizing

/-! A layout gives the answers that it would give if it remembered nothing. For sizes this holds of every
layout whose sizes are right: a type that has a size is sized from anywhere outside it. Offsets are
remembered by the text of the field, so they need names that can be told apart in it. -/

namespace CilMmix

namespace Layout

variable {types : List TypeDef}

theorem declared?_eq_some {name : String} {t : TypeDef} (h : declared? types name = some t) :
    t ∈ types ∧ t.name = name := by
  rw [declared?, List.findRev?_eq_find?_reverse] at h
  exact ⟨List.mem_reverse.mp (List.mem_of_find?_eq_some h), by simpa using List.find?_some h⟩

/-- A value of the type is, or holds in its fields, a value of the named type. -/
inductive Holds (types : List TypeDef) : TypeRef → String → Prop
  | named (name : String) : Holds types (.named name) name
  | pinned {inner : TypeRef} {name : String} : Holds types inner name →
      Holds types (.pinned inner) name
  | field {outer name : String} {t : TypeDef} {f : FieldDef} : declared? types outer = some t →
      t.kind = .structType → f ∈ t.instanceFields → Holds types f.ty name →
      Holds types (.named outer) name

/-- A value of the one type holds a value of the other in its fields. -/
def Encloses (types : List TypeDef) (outer name : String) : Prop :=
  ∃ t f, declared? types outer = some t ∧ t.kind = .structType ∧ f ∈ t.instanceFields ∧
    Holds types f.ty name

theorem Holds.trans {ty : TypeRef} {inner name : String} (h : Holds types ty inner)
    (h' : Holds types (.named inner) name) : Holds types ty name := by
  induction h with
  | named => exact h'
  | pinned _ ih => exact .pinned (ih h')
  | field hd hk hf _ ih => exact .field hd hk hf (ih h')

theorem Encloses.trans {outer inner name : String} (h : Encloses types outer inner)
    (h' : Holds types (.named inner) name) : Encloses types outer name := by
  obtain ⟨t, f, hd, hk, hf, hin⟩ := h
  exact ⟨t, f, hd, hk, hf, hin.trans h'⟩

theorem exists_mem_zip {α β : Type} {as : List α} {bs : List β} (hlen : as.length = bs.length) {a : α}
    (ha : a ∈ as) : ∃ b, (a, b) ∈ as.zip bs := by
  rw [← List.map_fst_zip (Nat.le_of_eq hlen)] at ha
  obtain ⟨p, hp, rfl⟩ := List.mem_map.mp ha
  exact ⟨p.2, hp⟩

/-- In a type with a size nothing holds itself. -/
theorem not_encloses_self {ty : TypeRef} {size : Size} (h : HasSize types ty size) {name : String}
    (hn : Holds types ty name) : ¬ Encloses types name name := by
  induction h with
  | primitive | array | anyArray | string | pointer | byRef => cases hn
  | pinned _ ih =>
    cases hn with
    | pinned hn => exact ih hn
  | reference hd hk =>
    rintro ⟨t, f, hd', hk', -, -⟩
    cases hn with
    | named => exact hk (Option.some.inj (hd.symm.trans hd') ▸ hk')
    | field hd'' hk'' => exact hk (Option.some.inj (hd.symm.trans hd'') ▸ hk'')
  | struct hd hk hlen _ ih =>
    intro hself
    -- The type itself, or one in a field: either way a field holds a type that holds itself.
    cases hn with
    | named =>
      obtain ⟨t, f, hd', hk', hf, hin⟩ := hself
      cases hd.symm.trans hd'
      obtain ⟨s, hs⟩ := exists_mem_zip (by simpa using hlen.symm) (List.mem_map_of_mem hf)
      exact ih _ hs hin ⟨_, f, hd, hk, hf, hin⟩
    | field hd' _ hf hin =>
      cases hd.symm.trans hd'
      obtain ⟨s, hs⟩ := exists_mem_zip (by simpa using hlen.symm) (List.mem_map_of_mem hf)
      exact ih _ hs hin hself

/-- The types on the way to the one that is sized are declared and all different, and the bound leaves
room for all others. -/
structure Space (types : List TypeDef) (room : Nat) (outer : List String) : Prop where
  nodup : outer.Nodup
  declared : ∀ name ∈ outer, name ∈ types.map TypeDef.name
  room_eq : room + outer.length = types.length + 1

theorem space_nil (types : List TypeDef) : Space types (types.length + 1) [] :=
  ⟨List.nodup_nil, List.forall_mem_nil _, rfl⟩

theorem Space.enter {room : Nat} {outer : List String} (h : Space types room outer) {name : String}
    {t : TypeDef} (hd : declared? types name = some t) (hn : name ∉ outer) :
    ∃ inner, room = inner + 1 ∧ Space types inner (name :: outer) := by
  have hname : name ∈ types.map TypeDef.name := by
    obtain ⟨ht, rfl⟩ := declared?_eq_some hd
    exact List.mem_map_of_mem ht
  have hnodup : (name :: outer).Nodup := List.nodup_cons.mpr ⟨hn, h.nodup⟩
  have hdeclared : ∀ n ∈ name :: outer, n ∈ types.map TypeDef.name :=
    List.forall_mem_cons.mpr ⟨hname, h.declared⟩
  have hlen : (name :: outer).length ≤ types.length := by
    have hsub := (List.subperm_of_subset hnodup hdeclared).length_le
    rwa [List.length_map] at hsub
  have hroom := h.room_eq
  rw [List.length_cons] at hlen
  refine ⟨room - 1, by omega, hnodup, hdeclared, ?_⟩
  rw [List.length_cons]
  omega

theorem totalBy_ok {size : TypeRef → Sizing Size} (hanswers : ∀ ty, Answers types (size ty) ty)
    {tys : List TypeRef}
    (h : ∀ ty ∈ tys, ∀ known, Known types known → ∃ s, (size ty known).1 = .ok s) (total : Size)
    {known : List (String × Size)} (hk : Known types known) :
    ∃ s, (totalBy size total tys known).1 = .ok s := by
  induction tys generalizing total known with
  | nil => exact ⟨total, rfl⟩
  | cons ty tys ih =>
    obtain ⟨s, hs⟩ := h ty List.mem_cons_self known hk
    have hnext := (hanswers ty known hk).1
    unfold totalBy
    split
    · rename_i s' known' he
      rw [he] at hnext
      exact ih (fun ty' hty' => h ty' (List.mem_cons_of_mem _ hty')) (total + s') hnext
    · rename_i fault known' he
      rw [he] at hs
      cases hs

/-- A type with a size is sized inside any types that it does not hold, whatever is remembered. -/
theorem sizeBy_ok {ty : TypeRef} {size : Size} (h : HasSize types ty size) {room : Nat}
    {outer : List String} (hspace : Space types room outer) (hout : ∀ o ∈ outer, ¬ Holds types ty o)
    {known : List (String × Size)} (hk : Known types known) :
    ∃ s, (sizeBy (declaredSize types room outer) ty known).1 = .ok s := by
  induction h generalizing room outer known with
  | primitive | array | anyArray | string | pointer | byRef => exact ⟨_, rfl⟩
  | pinned _ ih => exact ih hspace (fun o ho hh => hout o ho (.pinned hh)) hk
  | @reference name t hd hkind =>
    rw [sizeBy, declaredSize]
    split
    · exact ⟨_, rfl⟩
    rw [hd]
    dsimp only
    split
    · exact ⟨_, rfl⟩
    · exact ⟨_, rfl⟩
    · rename_i hstruct
      exact absurd hstruct hkind
  | @struct name t sizes hd hkind hlen hsizes ih =>
    have hself : ¬ Encloses types name name :=
      not_encloses_self (.struct hd hkind hlen hsizes) (.named name)
    have hname : name ∉ outer := fun hmem => hout name hmem (.named name)
    obtain ⟨inner, rfl, hinner⟩ := hspace.enter hd hname
    have hfields : ∀ ty ∈ t.instanceFields.map FieldDef.ty, ∀ known, Known types known →
        ∃ s, (sizeBy (declaredSize types inner (name :: outer)) ty known).1 = .ok s := by
      intro ty hty known' hk'
      obtain ⟨f, hf, rfl⟩ := List.mem_map.mp hty
      obtain ⟨s, hs⟩ := exists_mem_zip (by simpa using hlen.symm) hty
      apply ih _ hs hinner ?_ hk'
      intro o ho hh
      rcases List.mem_cons.mp ho with rfl | ho
      · exact hself ⟨t, f, hd, hkind, hf, hh⟩
      · exact hout o ho (.field hd hkind hf hh)
    obtain ⟨s, hs⟩ := totalBy_ok (sizeBy_answers (declaredSize_answers types inner (name :: outer)))
      hfields .zero hk
    rw [sizeBy, declaredSize]
    split
    · exact ⟨_, rfl⟩
    rw [hd]
    dsimp only
    rw [hkind]
    dsimp only
    rw [if_neg (by simpa using hname)]
    split
    · exact ⟨_, rfl⟩
    · rename_i he
      rw [he] at hs
      cases hs

/-- A question whose answer does not depend on what is remembered. -/
def Steady (types : List TypeDef) (ask : Sizing Size) : Prop :=
  ∀ known known', Known types known → Known types known' →
    (ask known).1 = (ask known').1 ∧ Throws Fault.Bare (ask known).1

theorem sizeBy_steady {declaredSize : String → Sizing Size} {ty : TypeRef}
    (h : ∀ name, Holds types ty name → Steady types (declaredSize name)) :
    Steady types (sizeBy declaredSize ty) := by
  induction ty with
  | named name => exact h name (.named name)
  | pinned inner ih => exact ih fun name hn => h name (.pinned hn)
  | primitive | array | anyArray | string | pointer | byRef => exact fun _ _ _ _ => ⟨rfl, .ok _⟩

theorem totalBy_steady {size : TypeRef → Sizing Size} (hanswers : ∀ ty, Answers types (size ty) ty)
    {tys : List TypeRef} (h : ∀ ty ∈ tys, Steady types (size ty)) (total : Size) :
    Steady types (totalBy size total tys) := by
  induction tys generalizing total with
  | nil => exact fun _ _ _ _ => ⟨rfl, .ok _⟩
  | cons ty tys ih =>
    intro known known' hk hk'
    obtain ⟨hsame, hbare⟩ := h ty List.mem_cons_self known known' hk hk'
    have hnext := (hanswers ty known hk).1
    have hnext' := (hanswers ty known' hk').1
    simp only [totalBy]
    generalize size ty known = r at hsame hbare hnext ⊢
    generalize size ty known' = r' at hsame hnext' ⊢
    obtain ⟨answer, next⟩ := r
    obtain ⟨answer', next'⟩ := r'
    cases hsame
    cases answer with
    | ok s => exact ih (fun ty' hty' => h ty' (List.mem_cons_of_mem _ hty')) (total + s) _ _ hnext hnext'
    | error fault => exact ⟨rfl, hbare⟩

/-- What encloses a type encloses what its fields hold. -/
theorem encloses_field {outer : List String} {name : String} {t : TypeDef}
    (hd : declared? types name = some t) (hkind : t.kind = .structType)
    (hout : ∀ o ∈ outer, Encloses types o name) {f : FieldDef} (hf : f ∈ t.instanceFields)
    {inner : String} (hin : Holds types f.ty inner) :
    ∀ o ∈ name :: outer, Encloses types o inner := by
  intro o ho
  rcases List.mem_cons.mp ho with rfl | ho
  · exact ⟨t, f, hd, hkind, hf, hin⟩
  · exact (hout o ho).trans (.field hd hkind hf hin)

theorem lookup_eq_none_of_known {known : List (String × Size)} (hk : Known types known) {name : String}
    (h : ¬ ∃ size, HasSize types (.named name) size) : known.lookup name = none := by
  cases hl : known.lookup name with
  | none => rfl
  | some size =>
    obtain ⟨before, after, hknown, -⟩ := List.lookup_eq_some_iff.mp hl
    exact absurd ⟨size, hk (name, size) (by simp [hknown])⟩ h

/-- A declared type with a size is sized wherever only types around it are under way. -/
theorem declaredSize_eq {room : Nat} {outer : List String} (hspace : Space types room outer)
    {name : String} (hout : ∀ o ∈ outer, Encloses types o name) {size : Size}
    (h : HasSize types (.named name) size) {known : List (String × Size)} (hk : Known types known) :
    (declaredSize types room outer name known).1 = .ok size := by
  have hno : ∀ o ∈ outer, ¬ Holds types (.named name) o :=
    fun o ho hh => not_encloses_self h hh ((hout o ho).trans hh)
  obtain ⟨s, hs⟩ := sizeBy_ok h hspace hno hk
  have hsize := (declaredSize_answers types room outer name known hk).2.1 s hs
  rw [← h.unique hsize] at hs
  exact hs

/-- One declared type, given that the answers about the types inside it are steady. -/
theorem declaredSize_steady_of_inner {room : Nat} {outer : List String}
    (hspace : Space types room outer) {name : String} (hout : ∀ o ∈ outer, Encloses types o name)
    (h : ∀ r outer name, room = r + 1 → Space types r outer → (∀ o ∈ outer, Encloses types o name) →
      Steady types (declaredSize types r outer name)) :
    Steady types (declaredSize types room outer name) := by
  intro known known' hk hk'
  by_cases hsize : ∃ size, HasSize types (.named name) size
  · obtain ⟨size, hsize⟩ := hsize
    rw [declaredSize_eq hspace hout hsize hk, declaredSize_eq hspace hout hsize hk']
    exact ⟨rfl, .ok size⟩
  -- A type without a size is not remembered, so both answers are worked out, and alike.
  rw [declaredSize, declaredSize, lookup_eq_none_of_known hk hsize, lookup_eq_none_of_known hk' hsize]
  cases hd : declared? types name with
  | none => exact ⟨rfl, .error rfl⟩
  | some t =>
    dsimp only
    cases hkind : t.kind with
    | classType | interfaceType => exact ⟨rfl, .ok _⟩
    | structType =>
      cases hr : room with
      | zero => exact ⟨rfl, .error rfl⟩
      | succ r =>
        by_cases hname : name ∈ outer
        · simp only [List.contains_iff_mem, hname, if_true]
          exact ⟨trivial, .error rfl⟩
        obtain ⟨r', hr', hinner⟩ := hspace.enter hd hname
        obtain rfl : r' = r := by omega
        have hfields : ∀ ty ∈ t.instanceFields.map FieldDef.ty,
            Steady types (sizeBy (declaredSize types r' (name :: outer)) ty) := by
          intro ty hty
          obtain ⟨f, hf, rfl⟩ := List.mem_map.mp hty
          apply sizeBy_steady
          intro inner hin
          exact h r' (name :: outer) inner hr hinner (encloses_field hd hkind hout hf hin)
        obtain ⟨hsame, hbare⟩ := totalBy_steady
          (sizeBy_answers (declaredSize_answers types r' (name :: outer))) hfields .zero _ _ hk hk'
        simp only [List.contains_iff_mem, hname, if_false]
        generalize totalBy _ _ _ known = a at hsame hbare ⊢
        generalize totalBy _ _ _ known' = b at hsame ⊢
        obtain ⟨answer, next⟩ := a
        obtain ⟨answer', next'⟩ := b
        cases hsame
        cases answer with
        | ok s => exact ⟨rfl, .ok s⟩
        | error fault => exact ⟨rfl, hbare⟩

theorem declaredSize_steady {room : Nat} {outer : List String} (hspace : Space types room outer)
    {name : String} (hout : ∀ o ∈ outer, Encloses types o name) :
    Steady types (declaredSize types room outer name) := by
  induction room generalizing outer name with
  | zero => exact declaredSize_steady_of_inner hspace hout nofun
  | succ room ih =>
    apply declaredSize_steady_of_inner hspace hout
    intro r outer name hr hspace hout
    cases hr
    exact ih hspace hout

theorem sizeOf_steady (types : List TypeDef) (ty : TypeRef) :
    Steady types (sizeBy (declaredSize types (types.length + 1) []) ty) :=
  sizeBy_steady fun _ _ => declaredSize_steady (space_nil types) (List.forall_mem_nil _)

/-- The size of a type does not depend on what the layout remembers. -/
theorem Sound.sizeOf_eq {l : Layout} (h : l.Sound types) (ty : TypeRef) :
    (l.sizeOf ty).1 = (Layout.sizeOf { types } ty).1 ∧ Throws Fault.Bare (l.sizeOf ty).1 := by
  obtain ⟨rfl, hk⟩ := h
  exact sizeOf_steady l.types ty l.sizes [] hk (List.forall_mem_nil _)

theorem offsets_sizeOf (l : Layout) (ty : TypeRef) : (l.sizeOf ty).2.offsets = l.offsets := rfl

/-- Placing fields comes to the same in all layouts of the types, and adds the same entries. -/
theorem place_eq {l l' : Layout} (h : l.Sound types) (h' : l'.Sound types) (typeName : String)
    (fields : List FieldDef) (offset : Size) :
    (place typeName fields offset l).1 = (place typeName fields offset l').1 ∧
    Throws Fault.Bare (place typeName fields offset l).1 ∧
    ∃ added, (∀ p ∈ added, ∃ f ∈ fields, p.1 = FieldRef.text ⟨typeName, f.name⟩) ∧
      (place typeName fields offset l).2.offsets = added ++ l.offsets ∧
      (place typeName fields offset l').2.offsets = added ++ l'.offsets := by
  induction fields generalizing offset l l' with
  | nil => exact ⟨rfl, .ok _, [], List.forall_mem_nil _, rfl, rfl⟩
  | cons f fields ih =>
    obtain ⟨key, hkey⟩ : ∃ key, key = FieldRef.text ⟨typeName, f.name⟩ := ⟨_, rfl⟩
    have hl : Sound types { l with offsets := (key, offset) :: l.offsets } := ⟨h.types_eq, h.known⟩
    have hl' : Sound types { l' with offsets := (key, offset) :: l'.offsets } := ⟨h'.types_eq, h'.known⟩
    obtain ⟨hsize, hbare⟩ := hl.sizeOf_eq f.ty
    have hsame := hsize.trans (hl'.sizeOf_eq f.ty).1.symm
    have hnext := (hl.sizeOf f.ty).1
    have hnext' := (hl'.sizeOf f.ty).1
    have hoffsets := offsets_sizeOf { l with offsets := (key, offset) :: l.offsets } f.ty
    have hoffsets' := offsets_sizeOf { l' with offsets := (key, offset) :: l'.offsets } f.ty
    simp only [place, ← hkey]
    generalize sizeOf { l with offsets := (key, offset) :: l.offsets } f.ty = r
      at hsame hbare hnext hoffsets ⊢
    generalize sizeOf { l' with offsets := (key, offset) :: l'.offsets } f.ty = r'
      at hsame hnext' hoffsets' ⊢
    obtain ⟨answer, next⟩ := r
    obtain ⟨answer', next'⟩ := r'
    cases hsame
    cases answer with
    | ok s =>
      obtain ⟨heq, hthrows, added, hmem, hadd, hadd'⟩ := ih hnext hnext' (offset + s)
      refine ⟨heq, hthrows, added ++ [(key, offset)], ?_, ?_, ?_⟩
      · intro p hp
        rcases List.mem_append.mp hp with hp | hp
        · obtain ⟨g, hg, hpg⟩ := hmem p hp
          exact ⟨g, List.mem_cons_of_mem _ hg, hpg⟩
        · obtain rfl := List.mem_singleton.mp hp
          exact ⟨f, List.mem_cons_self, hkey⟩
      · dsimp only at hoffsets ⊢
        rw [hadd, hoffsets]
        simp
      · dsimp only at hoffsets' ⊢
        rw [hadd', hoffsets']
        simp
    | error fault =>
      refine ⟨rfl, .error (hbare fault rfl), [(key, offset)], ?_, hoffsets, hoffsets'⟩
      intro p hp
      obtain rfl := List.mem_singleton.mp hp
      exact ⟨f, List.mem_cons_self, hkey⟩

end Layout

theorem append_cons_inj {α : Type} {c : α} {xs ys zs ws : List α} (hx : c ∉ xs) (hy : c ∉ ys)
    (h : xs ++ c :: zs = ys ++ c :: ws) : xs = ys ∧ zs = ws := by
  induction xs generalizing ys with
  | nil =>
    cases ys with
    | nil => exact ⟨rfl, (List.cons.inj h).2⟩
    | cons y ys => exact absurd (List.mem_cons.mpr (.inl (List.cons.inj h).1)) hy
  | cons x xs ih =>
    cases ys with
    | nil => exact absurd (List.mem_cons.mpr (.inl (List.cons.inj h).1.symm)) hx
    | cons y ys =>
      obtain ⟨hhead, htail⟩ := List.cons.inj h
      obtain ⟨hxs, hzs⟩ := ih (mt (List.mem_cons_of_mem x) hx) (mt (List.mem_cons_of_mem y) hy) htail
      exact ⟨by rw [hhead, hxs], hzs⟩

/-- A reference to a field of a type whose name has no colon. -/
def FieldRef.Clear (f : FieldRef) : Prop := ':' ∉ f.declaringType.toList

/-- The text of such a reference tells the type and the field. -/
theorem FieldRef.Clear.eq_of_text {f g : FieldRef} (hf : f.Clear) (hg : g.Clear)
    (h : f.text = g.text) : f = g := by
  have hlist : f.declaringType.toList ++ ':' :: ':' :: f.name.toList =
      g.declaringType.toList ++ ':' :: ':' :: g.name.toList := by
    simpa [text] using congrArg String.toList h
  obtain ⟨htype, hname⟩ := append_cons_inj hf hg hlist
  have htype' := String.toList_inj.mp htype
  have hname' := String.toList_inj.mp (List.cons.inj hname).2
  cases f
  cases g
  cases htype'
  cases hname'
  rfl

namespace Layout

variable {types : List TypeDef} {l : Layout}

/-- A layout that remembers what a new layout would find, also about the offsets of fields, as far as
their types have no colon in the name. -/
structure Faithful (types : List TypeDef) (l : Layout) : Prop extends l.Sound types where
  offset : ∀ f size, f.Clear → l.offsets.lookup f.text = some size →
    (fieldOffset { types } f).1 = .ok size

theorem faithful_ofModule (M : Module) : (Session.ofModule M).layout.Faithful M.types :=
  ⟨sound_ofModule M, fun _ _ _ h => by cases h⟩

theorem Faithful.sizeOf (h : l.Faithful types) (ty : TypeRef) : (l.sizeOf ty).2.Faithful types :=
  ⟨(h.toSound.sizeOf ty).1, h.offset⟩

theorem fieldOffset_of_lookup_eq_some {f : FieldRef} {size : Size}
    (hl : l.offsets.lookup f.text = some size) : l.fieldOffset f = (.ok size, l) := by
  rw [fieldOffset, hl]

theorem fieldOffset_of_declared?_eq_none {f : FieldRef} (hl : l.offsets.lookup f.text = none)
    (hd : declared? l.types f.declaringType = none) :
    l.fieldOffset f = (.error (.unresolvedField f.text), l) := by
  rw [fieldOffset, hl]
  dsimp only
  rw [hd]

/-- A field that is not remembered has the place that it gets with all fields of its type. -/
theorem fieldOffset_of_lookup_eq_none {f : FieldRef} {t : TypeDef}
    (hl : l.offsets.lookup f.text = none) (hd : declared? l.types f.declaringType = some t) :
    l.fieldOffset f = ((place t.name t.instanceFields .zero l).1 >>= fun _ =>
      ((place t.name t.instanceFields .zero l).2.offsets.lookup f.text).elim
        (.error (.unresolvedField f.text)) .ok, (place t.name t.instanceFields .zero l).2) := by
  rw [fieldOffset, hl]
  dsimp only
  rw [hd]
  dsimp only
  generalize place t.name t.instanceFields .zero l = r
  obtain ⟨answer, next⟩ := r
  cases answer with
  | error fault => rfl
  | ok u =>
    dsimp only
    cases next.offsets.lookup f.text <;> rfl

theorem Sound.fieldOffset_bare (h : l.Sound types) (f : FieldRef) :
    Throws Fault.Bare (l.fieldOffset f).1 := by
  cases hl : l.offsets.lookup f.text with
  | some size =>
    rw [fieldOffset_of_lookup_eq_some hl]
    exact .ok size
  | none =>
    cases hd : declared? l.types f.declaringType with
    | none =>
      rw [fieldOffset_of_declared?_eq_none hl hd]
      exact .error rfl
    | some t =>
      rw [fieldOffset_of_lookup_eq_none hl hd]
      apply Throws.bind (place_eq h h t.name t.instanceFields .zero).2.1
      intro u
      cases (Layout.place t.name t.instanceFields .zero l).2.offsets.lookup f.text with
      | none => exact .error rfl
      | some size => exact .ok size

theorem sound_new (types : List TypeDef) : Sound types { types } := ⟨rfl, List.forall_mem_nil _⟩

/-- The offset of a field does not depend on what the layout remembers. -/
theorem Faithful.fieldOffset_eq (h : l.Faithful types) {f : FieldRef} (hf : f.Clear) :
    (l.fieldOffset f).1 = (Layout.fieldOffset { types } f).1 := by
  cases hl : l.offsets.lookup f.text with
  | some size => rw [h.offset f size hf hl, fieldOffset_of_lookup_eq_some hl]
  | none =>
    have hnew : ({ types } : Layout).offsets.lookup f.text = none := rfl
    cases hd : declared? types f.declaringType with
    | none =>
      rw [fieldOffset_of_declared?_eq_none hl (h.types_eq ▸ hd),
        fieldOffset_of_declared?_eq_none hnew hd]
    | some t =>
      obtain ⟨hsame, -, added, -, hadd, hadd'⟩ :=
        place_eq h.toSound (sound_new types) t.name t.instanceFields .zero
      rw [fieldOffset_of_lookup_eq_none hl (h.types_eq ▸ hd), fieldOffset_of_lookup_eq_none hnew hd,
        hsame, hadd, hadd', List.lookup_append, List.lookup_append, hl, hnew]

/-- A new entry is for a field of the declared type, and a new layout finds the same place for it. -/
theorem Faithful.fieldOffset (hnames : ∀ t ∈ types, ':' ∉ t.name.toList) (h : l.Faithful types)
    {g : FieldRef} {size : Size} (hok : (l.fieldOffset g).1 = .ok size) :
    (l.fieldOffset g).2.Faithful types := by
  refine ⟨(h.toSound.fieldOffset g).1, fun f s hf hlook => ?_⟩
  cases hl : l.offsets.lookup g.text with
  | some known =>
    rw [fieldOffset_of_lookup_eq_some hl] at hlook
    exact h.offset f s hf hlook
  | none =>
    cases hd : declared? types g.declaringType with
    | none =>
      rw [fieldOffset_of_declared?_eq_none hl (h.types_eq ▸ hd)] at hok
      cases hok
    | some t =>
      rw [fieldOffset_of_lookup_eq_none hl (h.types_eq ▸ hd)] at hok hlook
      obtain ⟨u, hplaced, -⟩ := bind_eq_ok.mp hok
      obtain ⟨hsame, -, added, hmem, hadd, hadd'⟩ :=
        place_eq h.toSound (sound_new types) t.name t.instanceFields .zero
      rw [hadd, List.lookup_append] at hlook
      cases ha : added.lookup f.text with
      | none =>
        rw [ha] at hlook
        exact h.offset f s hf hlook
      | some s' =>
        rw [ha] at hlook
        cases hlook
        obtain ⟨before, after, hsplit, -⟩ := List.lookup_eq_some_iff.mp ha
        obtain ⟨ht, hname⟩ := declared?_eq_some hd
        obtain ⟨d, -, hkey⟩ := hmem (f.text, s) (by simp [hsplit])
        have hclear : FieldRef.Clear ⟨t.name, d.name⟩ := hnames t ht
        obtain rfl := hf.eq_of_text hclear hkey
        have hnew : ({ types } : Layout).offsets.lookup (FieldRef.text ⟨t.name, d.name⟩) = none := rfl
        rw [fieldOffset_of_lookup_eq_none hnew (hname ▸ hd), ← hsame, hplaced, hadd',
          List.lookup_append, ha]
        rfl

end Layout

end CilMmix
