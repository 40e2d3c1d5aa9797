import CilMmix.Proofs.Method.Accrual

/-! A module together with the code of its methods, each compiled in the session that the one before it
left. -/

namespace CilMmix

namespace Routine

def table : List (String × List Line) :=
  [("cread", cread), ("cwrite", cwrite), ("delarr", delarr), ("read_file", readFile)]

theorem mem_table {name : String} {lines : List Line} (h : named name = .ok lines) :
    (name, lines) ∈ table := by
  unfold named at h
  split at h
  · subst name
    cases h
    exact List.mem_cons_self
  split at h
  · subst name
    cases h
    exact List.mem_cons_of_mem _ List.mem_cons_self
  split at h
  · subst name
    cases h
    exact List.mem_cons_of_mem _ (List.mem_cons_of_mem _ List.mem_cons_self)
  split at h
  · subst name
    cases h
    exact List.mem_cons_of_mem _ (List.mem_cons_of_mem _ (List.mem_cons_of_mem _ List.mem_cons_self))
  · cases h

end Routine

namespace Module

/-- A method with its code, and the sessions before and after it. -/
structure Assembled (options : Options) where
  /-- The name that errors give it. -/
  name : String
  method : MethodDef
  before : Session
  lines : List Line
  after : Session
  assemble_eq : method.assemble options before = .ok (lines, after)

namespace Assembled

variable {options : Options} {types : List TypeDef} {s t : Session}

/-- Methods one after the other, each in the session that the one before it left. -/
def Follows : Session → List (Assembled options) → Session → Prop
  | s, [], t => s = t
  | s, a :: rest, t => a.before = s ∧ Follows a.after rest t

/-- The code of a method is that of a routine or is put together from its body. -/
theorem cases (a : Assembled options) :
    a.method.code = [] ∧ Routine.named a.method.name = .ok a.lines ∧ a.after = a.before ∨
      a.method.code ≠ [] ∧ ∃ c : a.method.Compilation options a.before,
        c.lines = a.lines ∧ c.walk.session = a.after := by
  have h := a.assemble_eq
  unfold MethodDef.assemble at h
  split at h
  · rename_i hempty
    obtain ⟨lines, hnamed, hpure⟩ := bind_eq_ok.mp h
    obtain ⟨rfl, hafter⟩ := Prod.mk.inj (Except.ok.inj hpure)
    exact .inl ⟨List.isEmpty_iff.mp hempty, hnamed, hafter.symm⟩
  · rename_i hempty
    exact .inr ⟨fun he => hempty (List.isEmpty_iff.mpr he), MethodDef.compile_ok.mp h⟩

theorem lines_eq (a : Assembled options) (hne : a.method.code ≠ [])
    (c : a.method.Compilation options a.before) : c.lines = a.lines ∧ c.walk.session = a.after := by
  have h := a.assemble_eq
  rw [MethodDef.assemble, if_neg fun he => hne (List.isEmpty_iff.mp he),
    MethodDef.compile_ok.mpr ⟨c, rfl, rfl⟩] at h
  exact Prod.mk.inj (Except.ok.inj h)

theorem grows (a : Assembled options) (h : a.before.layout.Sound types) :
    a.after.layout.Sound types ∧ a.before.statics.Grows (Lower.Declared types) a.after.statics := by
  rcases a.cases with ⟨-, -, he⟩ | ⟨-, c, -, he⟩
  · rw [he]
    exact ⟨h, .refl⟩
  · rw [← he]
    exact ⟨(c.accrues h).layout, (c.accrues h).grows⟩

/-- Storage grows from method to method. -/
theorem Follows.grows {list : List (Assembled options)} (h : Follows s list t)
    (hs : s.layout.Sound types) : s.statics.Grows (Lower.Declared types) t.statics ∧
      ∀ a ∈ list, a.before.layout.Sound types ∧
        a.after.statics.Grows (Lower.Declared types) t.statics := by
  induction list generalizing s with
  | nil =>
    cases h
    exact ⟨.refl, List.forall_mem_nil _⟩
  | cons a list ih =>
    obtain ⟨rfl, hrest⟩ := h
    obtain ⟨hafter, hgrows⟩ := a.grows hs
    obtain ⟨hall, hmem⟩ := ih hrest hafter
    exact ⟨hgrows.trans hall, List.forall_mem_cons.mpr ⟨⟨hs, hall⟩, hmem⟩⟩

end Assembled

theorem assembleAll_ok {options : Options} {list : List (String × MethodDef)} {s t : Session}
    {lines : List Line} : assembleAll options list s = .ok (lines, t) ↔
      ∃ methods : List (Assembled options), methods.map (fun a => (a.name, a.method)) = list ∧
        methods.flatMap Assembled.lines = lines ∧ Assembled.Follows s methods t := by
  induction list generalizing s lines with
  | nil =>
    simp only [assembleAll, Except.ok.injEq, Prod.mk.injEq, List.map_eq_nil_iff]
    constructor
    · rintro ⟨rfl, rfl⟩
      exact ⟨[], rfl, rfl, rfl⟩
    · rintro ⟨_, rfl, rfl, rfl⟩
      exact ⟨rfl, rfl⟩
  | cons first list ih =>
    obtain ⟨name, method⟩ := first
    rw [assembleAll]
    constructor
    · intro h
      split at h
      · cases h
      · rename_i here after hhere
        obtain ⟨⟨more, session⟩, hmore, hpure⟩ := bind_eq_ok.mp h
        cases hpure
        obtain ⟨methods, hmethods, hlines, hfollows⟩ := ih.mp hmore
        refine ⟨⟨name, method, s, here, after, hhere⟩ :: methods, ?_, ?_, rfl, hfollows⟩
        · rw [List.map_cons, hmethods]
        · rw [List.flatMap_cons, hlines]
    · rintro ⟨methods, hmethods, rfl, hfollows⟩
      obtain ⟨a, methods, rfl, ha, rfl⟩ := List.map_eq_cons_iff.mp hmethods
      obtain ⟨rfl, rfl⟩ := Prod.mk.inj ha
      obtain ⟨rfl, hrest⟩ := hfollows
      rw [a.assemble_eq]
      exact bind_eq_ok.mpr ⟨_, ih.mpr ⟨methods, rfl, rfl, hrest⟩, rfl⟩

/-- A module that compiles, with its methods and the session at the end. -/
structure Compilation (M : Module) (options : Options) where
  methods : List (Assembled options)
  session : Session
  methods_eq : methods.map (fun a => (a.name, a.method)) = M.compiledMethods
  follows : Assembled.Follows (.ofModule M) methods session

namespace Compilation

variable {M : Module} {options : Options}

def lines (c : M.Compilation options) : List Line :=
  .ins .loc [.hex 1 options.textOrigin] :: c.methods.flatMap Assembled.lines ++ c.session.statics.lines

/-- Static storage when all methods are compiled. -/
abbrev statics (c : M.Compilation options) : Statics := c.session.statics

/-- What the session at the end says can be computed. -/
theorem session_eq {α : Type} (c : M.Compilation options) (f : Session → α) {a : α}
    (h : (assembleAll options M.compiledMethods (.ofModule M)).toOption.map (fun r => f r.2) = some a) :
    f c.session = a := by
  rw [assembleAll_ok.mpr ⟨c.methods, c.methods_eq, rfl, c.follows⟩] at h
  exact Option.some.inj h

theorem sound (c : M.Compilation options) : c.statics.Sound (Lower.Declared M.types) :=
  Statics.sound_empty.grows (c.follows.grows (Layout.sound_ofModule M)).1

/-- An instruction of a module that got code. -/
structure Place (c : M.Compilation options) where
  assembled : Assembled options
  mem : assembled ∈ c.methods
  method : assembled.method.Compilation options assembled.before
  index : Nat
  instruction : Instruction
  visit : Visit
  instruction_eq : assembled.method.code[index]? = some instruction
  visit_eq : method.visit? index = some visit

namespace Place

variable {c : M.Compilation options}

/-- The code of an instruction is part of the assembly. -/
theorem isInfix (p : c.Place) : p.visit.lines <:+: c.lines := by
  have hne : p.assembled.method.code ≠ [] := List.ne_nil_of_mem (List.mem_of_getElem? p.instruction_eq)
  have hmethod : p.visit.lines <:+: p.assembled.lines := by
    rw [← (p.assembled.lines_eq hne p.method).1, MethodDef.Compilation.lines_eq p.visit_eq]
    exact List.infix_append ..
  have hcode : p.assembled.lines <:+: c.methods.flatMap Assembled.lines :=
    List.infix_of_mem_flatten (List.mem_map_of_mem p.mem)
  exact (hmethod.trans hcode).trans (List.infix_append [_] _ _)

/-- How the instruction got its code: all storage that there was then is part of what there is in the
end. -/
theorem lowered (p : c.Place) : ∃ (σ : Session) (after : LowerState) (code : List Line),
    σ.layout.Sound M.types ∧ Line.IsCode code ∧
      Lower.instruction p.method.route.site p.instruction
        { σ with stack := ⟨p.method.frame.stop, p.visit.arrival⟩ } = .ok (code, after) ∧
      p.visit.lines = piece options.annotate (p.method.route.label? p.instruction.offset)
        p.instruction code ∧
      after.statics.Grows (Lower.Declared M.types) c.statics := by
  have hne : p.assembled.method.code ≠ [] := List.ne_nil_of_mem (List.mem_of_getElem? p.instruction_eq)
  obtain ⟨hsound, hgrows⟩ := (c.follows.grows (Layout.sound_ofModule M)).2 p.assembled p.mem
  obtain ⟨σ, after, code, hσ, -, hisCode, hcode, hlines, hafter⟩ :=
    p.method.visit_sound hsound p.instruction_eq p.visit_eq
  rw [(p.assembled.lines_eq hne p.method).2] at hafter
  exact ⟨σ, after, code, hσ, hisCode, hcode, hlines, hafter.trans hgrows⟩

end Place

end Compilation

theorem compile_ok {M : Module} {options : Options} {lines : List Line} :
    M.compile options = .ok lines ↔ ∃ c : M.Compilation options, c.lines = lines := by
  constructor
  · intro h
    obtain ⟨⟨code, session⟩, hcode, hpure⟩ := bind_eq_ok.mp h
    obtain ⟨methods, hmethods, rfl, hfollows⟩ := assembleAll_ok.mp hcode
    cases hpure
    exact ⟨⟨methods, session, hmethods, hfollows⟩, rfl⟩
  · rintro ⟨c, rfl⟩
    exact bind_eq_ok.mpr ⟨_, assembleAll_ok.mpr ⟨c.methods, c.methods_eq, rfl, c.follows⟩, rfl⟩

end Module

end CilMmix
