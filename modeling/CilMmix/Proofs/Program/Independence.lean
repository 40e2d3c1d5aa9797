import CilMmix.Proofs.Method.Independence

/-! Methods that are compiled one after the other do not influence each other, as far as they use no static
storage: the assembly of a module then consists of what each method is alone. -/

namespace CilMmix

theorem mapM_eq_ok {ε α β : Type} {f : α → Except ε β} {xs : List α} {ys : List β} :
    xs.mapM f = .ok ys ↔ List.Forall₂ (fun x y => f x = .ok y) xs ys := by
  induction xs generalizing ys with
  | nil => simp [pure_eq_ok]
  | cons x xs ih =>
    simp only [List.mapM_cons, bind_eq_ok, pure_eq_ok, ih]
    constructor
    · rintro ⟨y, hy, ys, hys, rfl⟩
      exact .cons hy hys
    · rintro (_ | ⟨hy, hys⟩)
      exact ⟨_, hy, _, hys, rfl⟩

/-- Results are worked out one after the other, up to the first fault. -/
theorem mapM_eq_error {ε α β : Type} {f : α → Except ε β} {xs : List α} {e : ε} :
    xs.mapM f = .error e ↔ ∃ before x after, xs = before ++ x :: after ∧
      (∀ b ∈ before, ∃ y, f b = .ok y) ∧ f x = .error e := by
  induction xs with
  | nil => simp [pure, Except.pure]
  | cons x xs ih =>
    rw [List.mapM_cons, bind_eq_error]
    constructor
    · rintro (hx | ⟨y, hy, h⟩)
      · exact ⟨[], x, xs, rfl, List.forall_mem_nil _, hx⟩
      rcases bind_eq_error.mp h with h | ⟨_, -, h⟩
      · obtain ⟨before, x', after, rfl, hbefore, hx'⟩ := ih.mp h
        exact ⟨x :: before, x', after, rfl, List.forall_mem_cons.mpr ⟨⟨y, hy⟩, hbefore⟩, hx'⟩
      · cases h
    · rintro ⟨before, x', after, hsplit, hbefore, hx'⟩
      cases before with
      | nil =>
        cases hsplit
        exact .inl hx'
      | cons b before =>
        cases hsplit
        obtain ⟨⟨y, hy⟩, hbefore⟩ := List.forall_mem_cons.mp hbefore
        exact .inr ⟨y, hy, bind_eq_error.mpr (.inl (ih.mpr ⟨before, x', after, rfl, hbefore, hx'⟩))⟩

theorem map_eq_error {ε α β : Type} {x : Except ε α} {f : α → β} {e : ε} :
    x.map f = .error e ↔ x = .error e := by
  cases x <;> simp [Except.map]

theorem mapError_eq_ok {ε ε' α : Type} {x : Except ε α} {f : ε → ε'} {a : α} :
    x.mapError f = .ok a ↔ x = .ok a := by
  cases x <;> simp [Except.mapError]

theorem mapError_eq_error {ε ε' α : Type} {x : Except ε α} {f : ε → ε'} {e : ε'} :
    x.mapError f = .error e ↔ ∃ cause, x = .error cause ∧ e = f cause := by
  cases x <;> simp [Except.mapError, eq_comm]

theorem Routine.named_bare (name : String) : Throws Fault.Bare (Routine.named name) := by
  unfold Routine.named
  split
  · exact .ok _
  split
  · exact .ok _
  split
  · exact .ok _
  split
  · exact .ok _
  · exact .error rfl

namespace MethodDef

variable {types : List TypeDef} {m : MethodDef} {options : Options} {σ σ' : Session}

/-- The text or the fault is the same in both sessions, and static storage stays as it was. -/
theorem Independent.compile_eq (hnames : ∀ t ∈ types, ':' ∉ t.name.toList) (h : m.Independent)
    (hσ : σ.layout.Faithful types) (hσ' : σ'.layout.Faithful types) :
    (m.compile options σ').map Prod.fst = (m.compile options σ).map Prod.fst ∧
      ∀ lines after, m.compile options σ' = .ok (lines, after) → after.statics = σ'.statics := by
  have hagree : Agree _ (m.compile options σ) (m.compile options σ') :=
    h.agree_compile hnames hσ hσ'
  generalize m.compile options σ = x at hagree ⊢
  generalize m.compile options σ' = y at hagree ⊢
  cases hagree with
  | error fault => exact ⟨rfl, fun _ _ he => by cases he⟩
  | ok hr =>
    obtain ⟨heq, -, hstatics⟩ := hr
    refine ⟨congrArg Except.ok heq.symm, fun lines after he => ?_⟩
    cases he
    exact hstatics

theorem Independent.agree_assemble (hnames : ∀ t ∈ types, ':' ∉ t.name.toList) (h : m.Independent)
    (hσ : σ.layout.Faithful types) (hσ' : σ'.layout.Faithful types) :
    Agree (fun p q => p.1 = q.1 ∧ q.2.layout.Faithful types ∧ q.2.statics = σ'.statics)
      (m.assemble options σ) (m.assemble options σ') := by
  unfold assemble
  split
  · apply Agree.bind (.of_eq fun _ _ => rfl)
    rintro lines _ - - rfl
    exact .ok ⟨rfl, hσ', rfl⟩
  · exact h.agree_compile hnames hσ hσ'

theorem assemble_bare (hnames : ∀ t ∈ types, ':' ∉ t.name.toList) (hσ : σ.layout.Faithful types) :
    Throws Fault.Bare (m.assemble options σ) := by
  unfold assemble
  split
  · exact (Routine.named_bare m.name).bind fun _ => .pure _
  · exact compile_bare hnames hσ

end MethodDef

namespace Module

/-- A method compiled in a session of its own. -/
def alone (M : Module) (options : Options) (m : MethodDef) : Except Fault (List Line) :=
  (m.assemble options (.ofModule M)).map Prod.fst

theorem agree_assembleAll {M : Module} (hnames : ∀ t ∈ M.types, ':' ∉ t.name.toList)
    (options : Options) {list : List (String × MethodDef)} (h : ∀ d ∈ list, d.2.Independent)
    {σ : Session} (hσ : σ.layout.Faithful M.types) :
    Agree (fun texts r => r.1 = texts.flatten ∧ r.2.statics = σ.statics)
      (list.mapM fun d => (M.alone options d.2).mapError (.inMethod d.1))
      (assembleAll options list σ) := by
  induction list generalizing σ with
  | nil => exact .ok ⟨rfl, rfl⟩
  | cons first rest ih =>
    obtain ⟨name, d⟩ := first
    obtain ⟨hd, hrest⟩ := List.forall_mem_cons.mp h
    have hfirst : Agree _ (d.assemble options (.ofModule M)) (d.assemble options σ) :=
      hd.agree_assemble hnames (Layout.faithful_ofModule M) hσ
    rw [List.mapM_cons, assembleAll, alone]
    generalize d.assemble options (.ofModule M) = r at hfirst ⊢
    generalize d.assemble options σ = r' at hfirst ⊢
    cases hfirst with
    | error fault => exact .error _
    | @ok p q hr =>
      obtain ⟨lines, before⟩ := p
      obtain ⟨lines', after⟩ := q
      obtain ⟨rfl, hafter, hstatics⟩ := hr
      apply (ih hrest hafter).bind
      rintro texts ⟨more, last⟩ - - ⟨rfl, hlast⟩
      exact .ok ⟨rfl, hlast.trans hstatics⟩

theorem alone_bare {M : Module} (hnames : ∀ t ∈ M.types, ':' ∉ t.name.toList) (options : Options)
    (m : MethodDef) : Throws Fault.Bare (M.alone options m) :=
  (MethodDef.assemble_bare hnames (Layout.faithful_ofModule M)).map _

/-- A module is compiled as if each of its methods were the only one. -/
theorem compile_eq_alone {M : Module} (hnames : ∀ t ∈ M.types, ':' ∉ t.name.toList) (options : Options)
    (h : ∀ d ∈ M.compiledMethods, d.2.Independent) : M.compile options =
      (M.compiledMethods.mapM fun d => (M.alone options d.2).mapError (.inMethod d.1)).map
        fun texts => .ins .loc [.hex 1 options.textOrigin] :: texts.flatten ++
          [.ins .loc [.sym "Data_Segment"]] := by
  have hall := agree_assembleAll hnames options h (Layout.faithful_ofModule M)
  unfold compile
  generalize (M.compiledMethods.mapM _ : Except Fault _) = x at hall ⊢
  generalize assembleAll options M.compiledMethods (.ofModule M) = y at hall ⊢
  cases hall with
  | error fault => rfl
  | @ok texts r hr =>
    obtain ⟨lines, session⟩ := r
    obtain ⟨rfl, hstatics⟩ := hr
    change Except.ok _ = Except.ok _
    rw [hstatics]
    rfl

/-- What was compiled before makes no difference to a method without static storage. So a module of such
methods has the text of each method alone, and fails with the fault of the first one that does. -/
theorem methods_independent {M : Module} (hnames : ∀ t ∈ M.types, ':' ∉ t.name.toList)
    (options : Options) :
    (∀ (m : MethodDef) (σ : Session), m.Independent → σ.Compiled M →
      (m.compile options σ).map Prod.fst = (m.compile options (.ofModule M)).map Prod.fst ∧
      ∀ lines after, m.compile options σ = .ok (lines, after) → after.statics = σ.statics) ∧
    ((∀ d ∈ M.compiledMethods, d.2.Independent) →
      (∀ lines, M.compile options = .ok lines ↔ ∃ texts,
        List.Forall₂ (fun d text => M.alone options d.2 = .ok text) M.compiledMethods texts ∧
        lines = .ins .loc [.hex 1 options.textOrigin] :: texts.flatten ++
          [.ins .loc [.sym "Data_Segment"]]) ∧
      ∀ fault, M.compile options = .error fault ↔ ∃ before d after cause,
        M.compiledMethods = before ++ d :: after ∧
        (∀ b ∈ before, ∃ text, M.alone options b.2 = .ok text) ∧
        M.alone options d.2 = .error cause ∧ cause.Bare ∧ fault = .inMethod d.1 cause) := by
  constructor
  · intro m σ hm hσ
    exact hm.compile_eq hnames (Layout.faithful_ofModule M) (hσ.faithful hnames)
  intro h
  rw [compile_eq_alone hnames options h]
  constructor
  · intro lines
    simp only [map_eq_ok, mapM_eq_ok, mapError_eq_ok]
    exact exists_congr fun texts => and_congr_right fun _ => eq_comm
  · intro fault
    simp only [map_eq_error, mapM_eq_error, mapError_eq_ok, mapError_eq_error]
    constructor
    · rintro ⟨before, d, after, hsplit, hbefore, cause, hcause, rfl⟩
      exact ⟨before, d, after, cause, hsplit, hbefore, hcause, alone_bare hnames options d.2 cause hcause, rfl⟩
    · rintro ⟨before, d, after, cause, hsplit, hbefore, hcause, -, rfl⟩
      exact ⟨before, d, after, hsplit, hbefore, cause, hcause, rfl⟩

def bottom : MethodDef where
  name := "bottom"
  params := [.named "Range"]
  ret := .primitive .int64
  body := some (MethodDef.number [.load (.arg 0), .field .load ⟨"Range", "low"⟩, .ret])

def span : MethodDef where
  name := "span"
  params := [.named "Range"]
  ret := .primitive .int64
  body := some (MethodDef.number [.load (.arg 0), .field .load ⟨"Range", "high"⟩, .load (.arg 0),
    .field .load ⟨"Range", "low"⟩, .arith .sub, .ret])

def gauge : Module where
  name := "gauge"
  types := [⟨"Range", .structType, [⟨"low", .primitive .int64, false⟩, ⟨"high", .primitive .int64, false⟩], []⟩,
    ⟨"Gauge", .classType, [], [bottom, span]⟩]

/-- The second method finds the offsets that the first one left. -/
theorem methods_independent_gauge :
    (∃ σ : Session, σ.Compiled gauge ∧ σ.layout.offsets = [("Range::high", ⟨8⟩), ("Range::low", ⟨0⟩)] ∧
      (span.compile {} σ).map Prod.fst = (span.compile {} (.ofModule gauge)).map Prod.fst) ∧
    ∃ first second, gauge.alone {} bottom = .ok first ∧ gauge.alone {} span = .ok second ∧
      gauge.compile {} = .ok (.ins .loc [.hex 1 256] :: (first ++ second) ++
        [.ins .loc [.sym "Data_Segment"]]) := by
  have hnames : ∀ t ∈ gauge.types, ':' ∉ t.name.toList := by decide
  have hbottom : bottom.Independent := ⟨by decide, by decide⟩
  have hspan : span.Independent := ⟨by decide, by decide⟩
  obtain ⟨hmethod, hmodule⟩ := methods_independent hnames {}
  constructor
  · have hleft : (bottom.compile {} (.ofModule gauge)).toOption.map (fun r => r.2.layout.offsets) =
        some [("Range::high", ⟨8⟩), ("Range::low", ⟨0⟩)] := by decide +kernel
    obtain ⟨⟨lines, σ⟩, hr, hσ⟩ := Option.map_eq_some_iff.mp hleft
    have hok : bottom.compile {} (.ofModule gauge) = .ok (lines, σ) := by
      cases hb : bottom.compile {} (.ofModule gauge) with
      | error fault => simp [hb, Except.toOption] at hr
      | ok r => simpa [hb, Except.toOption] using hr
    have hcompiled : σ.Compiled gauge := .method .start hok
    exact ⟨σ, hcompiled, hσ, (hmethod span σ hspan hcompiled).1⟩
  · have hlist : gauge.compiledMethods = [("Gauge::bottom", bottom), ("Gauge::span", span)] := rfl
    have hall : ∀ d ∈ gauge.compiledMethods, d.2.Independent := by
      rw [hlist]
      simp [hbottom, hspan]
    obtain ⟨first, hfirst⟩ : ∃ text, gauge.alone {} bottom = .ok text :=
      exists_of_toBool (by decide +kernel)
    obtain ⟨second, hsecond⟩ : ∃ text, gauge.alone {} span = .ok text :=
      exists_of_toBool (by decide +kernel)
    refine ⟨first, second, hfirst, hsecond, ((hmodule hall).1 _).mpr ⟨[first, second], ?_, by simp⟩⟩
    rw [hlist]
    exact .cons hfirst (.cons hsecond .nil)

end Module

end CilMmix
