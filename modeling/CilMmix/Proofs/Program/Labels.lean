import Mathlib.Data.List.Nodup
import Mathlib.Data.List.Perm.Basic
import CilMmix.Proofs.Assembly.Reading
import CilMmix.Proofs.Method.Stitching
import CilMmix.Proofs.Program.Assembled
import CilMmix.Proofs.Simulation.Calls

/-! The labels of a module. Those of methods, of branch targets, of static fields and of literals are made
independently, from names that may be anything. Some can never be the same; for the others it is said
exactly when all are different, and calls then find the method that they name. -/

namespace CilMmix

theorem underscore_not_mem_toString (n : Nat) : '_' ∉ (toString n).toList := by
  intro h
  rw [Nat.toString_eq_ofList_toDigits, String.toList_ofList] at h
  have hdigit := Nat.isDigit_of_mem_toDigits (by decide) (by decide) h
  exact absurd hdigit (by decide)

/-- A name and a number are found again in the name with the number behind an underscore. -/
theorem append_number_inj {a b : String} {m n : Nat}
    (h : a ++ "_" ++ toString m = b ++ "_" ++ toString n) : a = b ∧ m = n := by
  have hlist : a.toList ++ '_' :: (toString m).toList = b.toList ++ '_' :: (toString n).toList := by
    simpa using congrArg String.toList h
  have hnumber : (toString m).toList = (toString n).toList := by
    rw [← Row.rtakeWhile_append_stop (underscore_not_mem_toString m) a.toList, hlist,
      Row.rtakeWhile_append_stop (underscore_not_mem_toString n)]
  rw [hnumber] at hlist
  exact ⟨String.toList_inj.mp (List.append_cancel_right hlist), toString_injective hnumber⟩

/-- The label of a literal has one underscore, and that of a static field has two for the colons. -/
theorem count_literal (k : Nat) : ("Str_" ++ toString k).toList.count '_' = 1 := by
  rw [String.toList_append, List.count_append, List.count_eq_zero.mpr (underscore_not_mem_toString k)]
  decide

theorem count_mangle (f : FieldRef) : 2 ≤ (mangle f.text).toList.count '_' := by
  have hcolons : 2 ≤ (f.text.toList.map fun c => if c.isAlphanum then c else '_').count '_' := by
    simp only [FieldRef.text, String.toList_append, List.map_append, List.count_append]
    have htwo : (("::".toList).map fun c => if c.isAlphanum then c else '_').count '_' = 2 := by decide
    omega
  unfold mangle
  dsimp only
  split
  · rename_i hnil
    rw [hnil] at hcolons
    cases hcolons
  · rw [String.toList_ofList]
    split
    · exact Nat.le_trans hcolons (List.count_le_count_cons ..)
    · exact hcolons

theorem mangle_ne_literal (f : FieldRef) (k : Nat) : mangle f.text ≠ "Str_" ++ toString k := by
  intro h
  have hcount := count_mangle f
  rw [h, count_literal] at hcount
  omega

/-- The label that an operation calls. -/
def Opcode.callee? : Opcode → List Operand → Option String
  | pushj, [_, .sym name] => some name
  | _, _ => none

namespace Line

/-- The labels that lines define, in order. -/
def labels (lines : List Line) : List String := lines.filterMap label?

def callee? : Line → Option String
  | op _ code operands => code.callee? operands
  | note _ _ | comment _ | blank | verbatim _ => none

theorem labels_append (a b : List Line) : labels (a ++ b) = labels a ++ labels b :=
  List.filterMap_append

theorem labels_eq_nil {lines : List Line} (h : ∀ l ∈ lines, l.label? = none) : labels lines = [] :=
  List.filterMap_eq_nil_iff.mpr h

theorem count_labels (label : String) (lines : List Line) :
    (labels lines).count label = defs label lines := by
  induction lines with
  | nil => rfl
  | cons l lines ih =>
    rw [labels, List.filterMap_cons, defs, List.countP_cons]
    cases hl : l.label? with
    | none => simpa [labels, defs] using ih
    | some s => simpa [labels, defs, List.count_cons] using ih

theorem labels_piece {code : List Line} (hcode : IsCode code) (annotate : Bool) (label : Option String)
    (i : Instruction) : labels (piece annotate label i code) = label.toList := by
  have hremark : labels (if annotate then [.comment i.text] else []) = [] := by
    cases annotate <;> rfl
  have hplain : ∀ lines, (∀ l ∈ lines, l.Plain) → labels lines = [] :=
    fun lines h => labels_eq_nil fun l hl => label?_of_plain (h l hl)
  rw [piece_eq hcode.plain, labels_append, hremark, List.nil_append]
  cases label with
  | none => exact hplain code hcode.plain
  | some label =>
    rcases hcode.starts with rfl | ⟨opcode, operands, rest, rfl⟩
    · rfl
    · exact congrArg (label :: ·) (hplain rest fun l hl => hcode.plain l (List.mem_cons_of_mem _ hl))

theorem callees_piece {code : List Line} (hcode : IsCode code) (annotate : Bool)
    (label : Option String) (i : Instruction) :
    (piece annotate label i code).filterMap callee? = code.filterMap callee? := by
  have hremark : (if annotate then [.comment i.text] else []).filterMap callee? = [] := by
    cases annotate <;> rfl
  rw [piece_eq hcode.plain, List.filterMap_append, hremark, List.nil_append]
  cases label with
  | none => rfl
  | some label =>
    rcases hcode.starts with rfl | ⟨opcode, operands, rest, rfl⟩
    · rfl
    · show (op (some label) opcode operands :: rest).filterMap callee? = _
      rw [List.filterMap_cons, List.filterMap_cons]
      rfl

end Line

theorem Routine.labels_named {name : String} {lines : List Line} (h : named name = .ok lines) :
    Line.labels lines = [mangle name] ∧ lines.head?.bind Line.label? = some (mangle name) := by
  have hall : ∀ p ∈ table, Line.labels p.2 = [mangle p.1] ∧
      p.2.head?.bind Line.label? = some (mangle p.1) := by decide
  exact hall _ (mem_table h)

/-- The offsets of the targets that a walk reached, in the order of the body. -/
def Walk.landings (w : Walk) (body : List Instruction) : List UInt32 :=
  (w.stops.filter fun s => s.visit.isSome && (targets body).contains s.instruction.offset).map
    fun s => s.instruction.offset

namespace MethodDef.Compilation

variable {m : MethodDef} {options : Options} {session : Session}

theorem labels_stop (c : m.Compilation options session) {s : Stop} (hs : s ∈ c.walk.stops) :
    Line.labels s.lines =
      if s.visit.isSome && (targets m.code).contains s.instruction.offset then
        [c.route.site.branchLabel s.instruction.offset] else [] := by
  obtain ⟨i, hi⟩ := List.mem_iff_getElem?.mp hs
  obtain ⟨instruction, visit⟩ := s
  cases visit with
  | none => rfl
  | some v =>
    obtain ⟨-, code, hcode, hlines⟩ := c.coded i instruction v hi
    have hlabel : (c.route.label? instruction.offset).toList =
        if (targets m.code).contains instruction.offset then
          [c.route.site.branchLabel instruction.offset] else [] := by
      show (if (targets m.code).contains instruction.offset then some _ else none).toList = _
      split <;> rfl
    show Line.labels v.lines = _
    rw [hlines, Line.labels_piece hcode, hlabel]
    rfl

/-- The labels of a method: its own, then those of the targets reached. -/
theorem labels_lines (c : m.Compilation options session) : Line.labels c.lines =
    c.route.site.label :: (c.walk.landings m.code).map c.route.site.branchLabel := by
  have hwalk : ∀ stops : List Stop, (∀ s ∈ stops, s ∈ c.walk.stops) →
      Line.labels (stops.flatMap Stop.lines) =
        (((stops.filter fun s => s.visit.isSome && (targets m.code).contains s.instruction.offset).map
          fun s => s.instruction.offset).map c.route.site.branchLabel) := by
    intro stops hstops
    induction stops with
    | nil => rfl
    | cons s stops ih =>
      obtain ⟨hs, hrest⟩ := List.forall_mem_cons.mp hstops
      rw [List.flatMap_cons, Line.labels_append, ih hrest, c.labels_stop hs, List.filter_cons]
      split <;> rfl
  obtain ⟨rest, hhead, hrest⟩ := c.head_cons
  have hnone : Line.labels rest = [] := Line.labels_eq_nil fun l hl => (hrest l hl).1
  rw [lines, Line.labels_append, Line.labels_append, hhead]
  show (c.route.site.label :: Line.labels rest) ++ Line.labels (c.walk.stops.flatMap Stop.lines) ++ [] = _
  rw [hnone, hwalk _ fun _ hs => hs, List.append_nil]
  rfl

end MethodDef.Compilation

def StaticKey.field? : StaticKey → Option String
  | field id => some id
  | literal _ => none

namespace Statics

/-- The ids of the static fields that have storage. -/
def fields (s : Statics) : List String := s.allocations.filterMap fun a => a.key.field?

variable {P : String → Size → Prop} {s : Statics}

theorem labels_byteLines (bs : List UInt8) : Line.labels (byteLines bs) = [] := by
  induction hn : bs.length using Nat.strongRecOn generalizing bs with
  | ind n ih =>
    cases bs with
    | nil =>
      rw [byteLines]
      rfl
    | cons b rest =>
      have hshort : ((b :: rest).drop bytesPerLine).length < n := by
        rw [List.length_drop, List.length_cons, bytesPerLine, ← hn, List.length_cons]
        omega
      rw [byteLines]
      exact ih _ hshort _ rfl

theorem labels_lines (s : Statics) : Line.labels s.lines = s.allocations.map Allocation.label := by
  have hone : ∀ a : Allocation, Line.labels (allocationLines a) = [a.label] := by
    intro a
    unfold allocationLines
    cases a.key with
    | literal text => exact congrArg (a.label :: ·) (labels_byteLines _)
    | field id => rfl
  show Line.labels (s.allocations.flatMap allocationLines) = _
  induction s.allocations with
  | nil => rfl
  | cons a list ih => rw [List.flatMap_cons, Line.labels_append, hone, ih, List.map_cons,
      List.singleton_append]

/-- The labels of storage are those of the fields, and one for each literal. -/
theorem Sound.perm_labels (hs : s.Sound P) : (s.allocations.map Allocation.label).Perm
    (s.fields.map mangle ++ (List.range s.literals).map fun k => "Str_" ++ toString k) := by
  have hall : ∀ list : List Allocation,
      (∀ a ∈ list, ∀ id, a.key = .field id → a.label = mangle id) →
      (list.map Allocation.label).Perm ((list.filterMap fun a => a.key.field?).map mangle ++
        (list.filter fun a => isLiteral a.key).map Allocation.label) := by
    intro list hfield
    induction list with
    | nil => exact .refl _
    | cons a list ih =>
      obtain ⟨ha, hrest⟩ := List.forall_mem_cons.mp hfield
      cases hkey : a.key with
      | field id =>
        simp only [List.map_cons, List.filterMap_cons, List.filter_cons, hkey, StaticKey.field?,
          isLiteral, ha id hkey]
        exact (ih hrest).cons _
      | literal text =>
        simp only [List.map_cons, List.filterMap_cons, List.filter_cons, hkey, StaticKey.field?,
          isLiteral]
        exact ((ih hrest).cons _).trans List.perm_middle.symm
  rw [← hs.numbered]
  exact hall _ fun a ha id hkey => (hs.field a ha id hkey).1

theorem Sound.field_of_mem {types : List TypeDef} (hs : s.Sound (Lower.Declared types)) {id : String}
    (h : id ∈ s.fields) : ∃ f : FieldRef, f.text = id := by
  obtain ⟨a, ha, hid⟩ := List.mem_filterMap.mp h
  cases hkey : a.key with
  | literal text =>
    rw [hkey] at hid
    cases hid
  | field id' =>
    rw [hkey] at hid
    cases hid
    obtain ⟨-, f, _, hf, -⟩ := hs.field a ha id hkey
    exact ⟨f, hf⟩

/-- Labels of storage are different if those of the fields are. -/
theorem Sound.nodup_labels {types : List TypeDef} (hs : s.Sound (Lower.Declared types)) :
    (s.allocations.map Allocation.label).Nodup ↔ (s.fields.map mangle).Nodup := by
  rw [hs.perm_labels.nodup_iff, List.nodup_append']
  refine ⟨fun h => h.1, fun h => ⟨h, nodup_literals _, fun label hfield hliteral => ?_⟩⟩
  obtain ⟨id, hid, rfl⟩ := List.mem_map.mp hfield
  obtain ⟨k, -, hk⟩ := List.mem_map.mp hliteral
  obtain ⟨f, rfl⟩ := hs.field_of_mem hid
  exact mangle_ne_literal f k hk.symm

end Statics

namespace Module

namespace Assembled

variable {options : Options}

def label (a : Assembled options) : String := mangle a.method.name

def branchLabel (a : Assembled options) (t : UInt32) : String := a.label ++ "_" ++ toString t.toNat

/-- The offsets of the targets that were reached. -/
def landings (a : Assembled options) : List UInt32 :=
  (a.method.parts options a.before).toOption.elim [] fun p => p.2.landings a.method.code

theorem labels_lines (a : Assembled options) :
    Line.labels a.lines = a.label :: a.landings.map a.branchLabel := by
  rcases a.cases with ⟨hcode, hnamed, -⟩ | ⟨-, c, hlines, -⟩
  · have hnone : a.landings = [] := by
      rw [landings, hcode]
      cases (a.method.parts options a.before).toOption with
      | none => rfl
      | some p => simp [Walk.landings, targets]
    rw [(Routine.labels_named hnamed).1, hnone]
    rfl
  · have hlandings : a.landings = c.walk.landings a.method.code := by
      simp only [landings, MethodDef.parts, c.frame_eq, c.walk_eq, bind, Except.bind]
      rfl
    rw [← hlines, c.labels_lines, hlandings]
    rfl

theorem lines_cons (a : Assembled options) :
    ∃ first rest, a.lines = first :: rest ∧ first.label? = some a.label := by
  rcases a.cases with ⟨-, hnamed, -⟩ | ⟨-, c, hlines, -⟩
  · have hhead := (Routine.labels_named hnamed).2
    cases hlines : a.lines with
    | nil =>
      rw [hlines] at hhead
      cases hhead
    | cons first rest =>
      rw [hlines] at hhead
      exact ⟨first, rest, rfl, hhead⟩
  · obtain ⟨rest, hhead, -⟩ := c.head_cons
    rw [← hlines, MethodDef.Compilation.lines, hhead]
    exact ⟨_, _, rfl, rfl⟩

theorem branchLabel_inj {a b : Assembled options} {t u : UInt32}
    (h : a.branchLabel t = b.branchLabel u) : a.label = b.label ∧ t = u := by
  obtain ⟨hlabel, hoffset⟩ := append_number_inj h
  exact ⟨hlabel, UInt32.toNat_inj.mp hoffset⟩

end Assembled

namespace Compilation

variable {M : Module} {options : Options}

/-- The labels of the methods and of the targets in them. -/
def codeLabels (c : M.Compilation options) : List String :=
  c.methods.flatMap fun a => a.label :: a.landings.map a.branchLabel

theorem labels_lines (c : M.Compilation options) :
    Line.labels c.lines = c.codeLabels ++ c.statics.allocations.map Allocation.label := by
  have hcode : ∀ list : List (Assembled options), Line.labels (list.flatMap Assembled.lines) =
      list.flatMap fun a => a.label :: a.landings.map a.branchLabel := by
    intro list
    induction list with
    | nil => rfl
    | cons a list ih => rw [List.flatMap_cons, List.flatMap_cons, Line.labels_append, ih, a.labels_lines]
  rw [lines, List.cons_append]
  show Line.labels (c.methods.flatMap Assembled.lines ++ c.statics.lines) = _
  rw [Line.labels_append, hcode, Statics.labels_lines]
  rfl

/-- Names that lead to different labels. What is not asked for cannot be otherwise: the targets of
different methods, and the literals among each other and the fields, always have different labels. -/
structure Distinct (c : M.Compilation options) : Prop where
  methods : (c.methods.map Assembled.label).Nodup
  landings : ∀ a ∈ c.methods, a.landings.Nodup
  fields : (c.statics.fields.map mangle).Nodup
  method_branch : ∀ a ∈ c.methods, ∀ b ∈ c.methods, ∀ t ∈ b.landings, a.label ≠ b.branchLabel t
  method_field : ∀ a ∈ c.methods, ∀ id ∈ c.statics.fields, a.label ≠ mangle id
  branch_field : ∀ a ∈ c.methods, ∀ t ∈ a.landings, ∀ id ∈ c.statics.fields,
    a.branchLabel t ≠ mangle id
  method_literal : ∀ a ∈ c.methods, ∀ k < c.statics.literals, a.label ≠ "Str_" ++ toString k
  branch_literal : ∀ a ∈ c.methods, a.label = "Str" → ∀ t ∈ a.landings, c.statics.literals ≤ t.toNat

theorem nodup_branchLabels {list : List (Assembled options)}
    (hlist : (list.map Assembled.label).Nodup) :
    (list.flatMap fun a => a.landings.map a.branchLabel).Nodup ↔ ∀ a ∈ list, a.landings.Nodup := by
  have hinj : ∀ a : Assembled options, Function.Injective a.branchLabel :=
    fun a t u h => (Assembled.branchLabel_inj h).2
  have hpair : list.Pairwise fun a b => a.label ≠ b.label := List.pairwise_map.mp hlist
  rw [List.nodup_flatMap]
  constructor
  · exact fun h a ha => List.Nodup.of_map _ (h.1 a ha)
  · refine fun h => ⟨fun a ha => (h a ha).map (hinj a), hpair.imp fun {a b} hne label ha hb => ?_⟩
    obtain ⟨t, -, rfl⟩ := List.mem_map.mp ha
    obtain ⟨u, -, hu⟩ := List.mem_map.mp hb
    exact hne (Assembled.branchLabel_inj hu).1.symm

theorem nodup_codeLabels (c : M.Compilation options) : c.codeLabels.Nodup ↔
    (c.methods.map Assembled.label).Nodup ∧ (∀ a ∈ c.methods, a.landings.Nodup) ∧
      ∀ a ∈ c.methods, ∀ b ∈ c.methods, ∀ t ∈ b.landings, a.label ≠ b.branchLabel t := by
  have hperm := List.map_append_flatMap_perm c.methods Assembled.label
    fun a => a.landings.map a.branchLabel
  have hdisjoint : List.Disjoint (c.methods.map Assembled.label)
      (c.methods.flatMap fun a => a.landings.map a.branchLabel) ↔
      ∀ a ∈ c.methods, ∀ b ∈ c.methods, ∀ t ∈ b.landings, a.label ≠ b.branchLabel t := by
    constructor
    · intro h a ha b hb t ht he
      refine h (List.mem_map_of_mem ha) (List.mem_flatMap.mpr ⟨b, hb, ?_⟩)
      exact he ▸ List.mem_map_of_mem ht
    · intro h label hmethod hbranch
      obtain ⟨a, ha, rfl⟩ := List.mem_map.mp hmethod
      obtain ⟨b, hb, hmem⟩ := List.mem_flatMap.mp hbranch
      obtain ⟨t, ht, he⟩ := List.mem_map.mp hmem
      exact h a ha b hb t ht he.symm
  rw [codeLabels, ← hperm.nodup_iff, List.nodup_append', hdisjoint]
  constructor
  · rintro ⟨hmethods, hbranches, hapart⟩
    exact ⟨hmethods, (nodup_branchLabels hmethods).mp hbranches, hapart⟩
  · rintro ⟨hmethods, hlandings, hapart⟩
    exact ⟨hmethods, (nodup_branchLabels hmethods).mpr hlandings, hapart⟩

theorem mem_codeLabels {c : M.Compilation options} {label : String} : label ∈ c.codeLabels ↔
    ∃ a ∈ c.methods, label = a.label ∨ ∃ t ∈ a.landings, label = a.branchLabel t := by
  simp only [codeLabels, List.mem_flatMap, List.mem_cons, List.mem_map, eq_comm]

/-- Each label is defined once if and only if the names are distinct. -/
theorem nodup_labels (c : M.Compilation options) : (Line.labels c.lines).Nodup ↔ c.Distinct := by
  have hmem : ∀ label, label ∈ c.statics.allocations.map Allocation.label ↔
      (∃ id ∈ c.statics.fields, label = mangle id) ∨
        ∃ k < c.statics.literals, label = "Str_" ++ toString k := by
    intro label
    rw [c.sound.perm_labels.mem_iff, List.mem_append, List.mem_map, List.mem_map]
    simp only [List.mem_range, eq_comm]
  rw [c.labels_lines, List.nodup_append', c.nodup_codeLabels, c.sound.nodup_labels]
  constructor
  · rintro ⟨⟨hmethods, hlandings, hbranch⟩, hfields, hapart⟩
    have hfield : ∀ label ∈ c.codeLabels, ∀ id ∈ c.statics.fields, label ≠ mangle id :=
      fun label hlabel id hid he => hapart hlabel ((hmem label).mpr (.inl ⟨id, hid, he⟩))
    have hliteral : ∀ label ∈ c.codeLabels, ∀ k < c.statics.literals, label ≠ "Str_" ++ toString k :=
      fun label hlabel k hk he => hapart hlabel ((hmem label).mpr (.inr ⟨k, hk, he⟩))
    refine ⟨hmethods, hlandings, hfields, hbranch, fun a ha => hfield _ ?_, fun a ha t ht => hfield _ ?_,
      fun a ha => hliteral _ ?_, fun a ha hstr t ht => ?_⟩
    · exact mem_codeLabels.mpr ⟨a, ha, .inl rfl⟩
    · exact mem_codeLabels.mpr ⟨a, ha, .inr ⟨t, ht, rfl⟩⟩
    · exact mem_codeLabels.mpr ⟨a, ha, .inl rfl⟩
    · by_contra hlt
      refine hliteral _ (mem_codeLabels.mpr ⟨a, ha, .inr ⟨t, ht, rfl⟩⟩) t.toNat (by omega) ?_
      rw [Assembled.branchLabel, hstr]
      rfl
  · intro h
    refine ⟨⟨h.methods, h.landings, h.method_branch⟩, h.fields, fun label hcode hdata => ?_⟩
    obtain ⟨a, ha, hlabel⟩ := mem_codeLabels.mp hcode
    rcases (hmem label).mp hdata with ⟨id, hid, rfl⟩ | ⟨k, hk, rfl⟩
    · rcases hlabel with he | ⟨t, ht, he⟩
      · exact h.method_field a ha id hid he.symm
      · exact h.branch_field a ha t ht id hid he.symm
    · rcases hlabel with he | ⟨t, ht, he⟩
      · exact h.method_literal a ha k hk he.symm
      · -- The label of a literal is what a target of a method with the label `Str` would have.
        obtain ⟨hstr, hoffset⟩ := append_number_inj (a := "Str") he
        have hle := h.branch_literal a ha hstr.symm t ht
        omega

/-- A block begins with the label of its method, so a call of a label that is defined once goes there. -/
theorem target?_label (c : M.Compilation options) {a : Assembled options} (ha : a ∈ c.methods)
    (honce : (Line.labels c.lines).count a.label ≤ 1) :
    ∃ before after, c.lines = before ++ a.lines ++ after ∧
      target? c.lines a.label = some before.length := by
  obtain ⟨earlier, later, hsplit⟩ := List.append_of_mem ha
  obtain ⟨first, rest, hlines, hfirst⟩ : ∃ first rest, a.lines = first :: rest ∧
      first.label? = some a.label := a.lines_cons
  have hall : c.lines = (.ins .loc [.hex 1 options.textOrigin] :: earlier.flatMap Assembled.lines) ++
      a.lines ++ (later.flatMap Assembled.lines ++ c.statics.lines) := by
    simp [lines, hsplit]
  refine ⟨_, _, hall, ?_⟩
  rw [Line.count_labels, hall, Line.defs_append, Line.defs_append, hlines,
    Line.defs_cons_self hfirst] at honce
  have hzero : Line.defs a.label
      (.ins .loc [.hex 1 options.textOrigin] :: earlier.flatMap Assembled.lines) = 0 := by omega
  rw [hall, hlines, List.append_assoc]
  refine target?_of_split hfirst fun l hl he => ?_
  exact List.countP_eq_zero.mp hzero l hl (beq_iff_eq.mpr he)

/-- The code of a call names the label that the method's name stands for. -/
theorem Place.callee {c : M.Compilation options} (p : c.Place) {ref : MethodRef}
    (hop : p.instruction.op = .call ref) :
    p.visit.lines.filterMap Line.callee? = [mangle ref.name] := by
  obtain ⟨σ, after, code, -, hisCode, hcode, hlines, -⟩ := p.lowered
  simp only [Lower.instruction, hop] at hcode
  obtain ⟨moves, hole, rfl, -, -, hmoves⟩ := Lower.call_ok hcode
  have hnone : moves.filterMap Line.callee? = [] := by
    refine List.filterMap_eq_nil_iff.mpr fun l hl => ?_
    obtain ⟨q, -, x, y, -, -, rfl⟩ := hmoves.mem hl
    rfl
  rw [hlines, Line.callees_piece hisCode, List.filterMap_append, hnone]
  rfl

/-- Where the labels of a module are, when there is one of each, and where calls go. -/
structure Labelled (c : M.Compilation options) : Prop where
  order : Line.labels c.lines = c.codeLabels ++ c.statics.allocations.map Allocation.label
  once_iff : (Line.labels c.lines).Nodup ↔ c.Distinct
  /-- A call goes to the block of a method that it names, if no other line has the label. -/
  calls : ∀ (p : c.Place) ref a, p.instruction.op = .call ref → a ∈ c.methods →
    a.method.name = ref.name → p.visit.lines.filterMap Line.callee? = [a.label] ∧
      ((Line.labels c.lines).count a.label ≤ 1 → ∃ before after, c.lines = before ++ a.lines ++ after ∧
        target? c.lines a.label = some before.length)

end Compilation

theorem labels_once_iff {M : Module} {options : Options} {lines : List Line}
    (h : M.compile options = .ok lines) :
    ∃ c : M.Compilation options, c.lines = lines ∧ c.Labelled := by
  obtain ⟨c, hlines⟩ := compile_ok.mp h
  refine ⟨c, hlines, c.labels_lines, c.nodup_labels, fun p ref a hop ha hname => ⟨?_, ?_⟩⟩
  · rw [p.callee hop, Assembled.label, hname]
  · exact c.target?_label ha

/-- A module in which a method calls another one and branches, with static storage. -/
def clockwork : Module where
  name := "clockwork"
  types := [⟨"Clock", .classType, [⟨"hand", .primitive .int64, true⟩],
    [{ name := "wind", body := some (MethodDef.number [.br 1, .push (.str "tick"), .pop, .ret]) },
     { name := "Main", body := some (MethodDef.number [
        .call ⟨"Clock", "wind", [], .void⟩, .staticField .address ⟨"Clock", "hand"⟩, .brTrue 3,
        .push (.str "tock"), .pop, .ret]) }]⟩]

theorem labels_once_iff_clockwork : ∃ c : clockwork.Compilation {}, c.Labelled ∧ c.Distinct := by
  have hok : (clockwork.compile {}).toBool = true := by decide +kernel
  obtain ⟨lines, h⟩ := exists_of_toBool hok
  obtain ⟨c, hlines, hc⟩ := labels_once_iff h
  have hlabels : (clockwork.compile {}).toOption.map Line.labels =
      some ["wind", "wind_1", "Main", "Main_3", "Str_0", "Clock__hand", "Str_1"] := by decide +kernel
  rw [h] at hlabels
  refine ⟨c, hc, hc.once_iff.mp ?_⟩
  rw [hlines, Option.some.inj hlabels]
  decide

/-- Names that clash: of two methods, of a method and a target or a literal, and of two static fields. -/
def clash : Module where
  name := "clash"
  types := [
    ⟨"A.B", .classType, [⟨"c", .primitive .int64, true⟩],
      [{ name := "get", body := some (MethodDef.number [.ret]) }]⟩,
    ⟨"A_B", .classType, [⟨"c", .primitive .int64, true⟩],
      [{ name := "get", body := some (MethodDef.number [.nop, .ret]) },
       { name := "Main", body := some (MethodDef.number [
          .call ⟨"A_B", "get", [], .void⟩, .push (.str ""), .pop,
          .staticField .address ⟨"A.B", "c"⟩, .pop, .staticField .address ⟨"A_B", "c"⟩, .pop,
          .br 8, .ret]) },
       { name := "Main_8", body := some (MethodDef.number [.ret]) },
       { name := "Str_0", body := some (MethodDef.number [.ret]) }]⟩]

/-- The call is of the second method with that label, and goes to the block of the first, on line 1. -/
theorem labels_clash : (clash.compile { annotate := false }).toOption.map
    (fun lines => (Line.labels lines, lines.filterMap Line.callee?, target? lines "get")) =
      some (["get", "get", "Main", "Main_8", "Main_8", "Str_0", "Str_0", "A_B__c", "A_B__c"], ["get"],
        some 1) := by
  decide +kernel

end Module

end CilMmix
