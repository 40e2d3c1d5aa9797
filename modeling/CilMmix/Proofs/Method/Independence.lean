import CilMmix.Proofs.Lowering.Composition
import CilMmix.Proofs.Method.Compilation
import CilMmix.Proofs.Method.Lockstep
import CilMmix.Proofs.Storage.Recall

/-! A method compiled in two sessions. If it asks for no static storage and only for fields that can be told
apart, it does not matter what the layouts of the sessions remember. -/

namespace CilMmix

variable {types : List TypeDef} {α β : Type}

/-- A request whose answer is the same in all sessions, and that leaves static storage alone. -/
def Request.Harmless : Request → Prop
  | .offset f => f.Clear
  | .literal _ | .storage _ => False

namespace Lower

/-- States with the same operands, whose layouts give the same answers. -/
structure Similar (types : List TypeDef) (s t : LowerState) : Prop where
  stack_eq : s.stack = t.stack
  left : s.layout.Faithful types
  right : t.layout.Faithful types

/-- Two runs with the same result. Both leave static storage as it was. -/
def Matches (types : List TypeDef) (s t : LowerState) (p q : α × LowerState) : Prop :=
  p.1 = q.1 ∧ Similar types p.2 q.2 ∧ p.2.statics = s.statics ∧ q.2.statics = t.statics

variable {asks : Request → Prop} {x : Lower α}

theorem agree_sizeOf {s t : LowerState} (h : Similar types s t) (ty : TypeRef) :
    Agree (Matches types s t) (sizeOf ty s) (sizeOf ty t) := by
  have hsame := (h.left.sizeOf_eq ty).1.trans (h.right.sizeOf_eq ty).1.symm
  have hleft := h.left.sizeOf ty
  have hright := h.right.sizeOf ty
  unfold sizeOf
  generalize s.layout.sizeOf ty = r at hsame hleft ⊢
  generalize t.layout.sizeOf ty = r' at hsame hright ⊢
  obtain ⟨answer, next⟩ := r
  obtain ⟨answer', next'⟩ := r'
  cases hsame
  cases answer with
  | ok size => exact .ok ⟨rfl, ⟨h.stack_eq, hleft, hright⟩, rfl, rfl⟩
  | error fault => exact .error fault

theorem agree_fieldOffset (hnames : ∀ t ∈ types, ':' ∉ t.name.toList) {s t : LowerState}
    (h : Similar types s t) {f : FieldRef} (hf : f.Clear) :
    Agree (Matches types s t) (fieldOffset f s) (fieldOffset f t) := by
  have hsame := (h.left.fieldOffset_eq hf).trans (h.right.fieldOffset_eq hf).symm
  have hleft : ∀ size, (s.layout.fieldOffset f).1 = .ok size →
      (s.layout.fieldOffset f).2.Faithful types := fun size => h.left.fieldOffset hnames
  have hright : ∀ size, (t.layout.fieldOffset f).1 = .ok size →
      (t.layout.fieldOffset f).2.Faithful types := fun size => h.right.fieldOffset hnames
  unfold fieldOffset
  generalize s.layout.fieldOffset f = r at hsame hleft ⊢
  generalize t.layout.fieldOffset f = r' at hsame hright ⊢
  obtain ⟨answer, next⟩ := r
  obtain ⟨answer', next'⟩ := r'
  cases hsame
  cases answer with
  | ok size => exact .ok ⟨rfl, ⟨h.stack_eq, hleft size rfl, hright size rfl⟩, rfl, rfl⟩
  | error fault => exact .error fault

/-- A computation with harmless requests does not tell similar states apart. -/
theorem Composed.agree (hnames : ∀ t ∈ types, ':' ∉ t.name.toList) (h : Composed asks x)
    (hasks : ∀ r, asks r → r.Harmless) {s t : LowerState} (hst : Similar types s t) :
    Agree (Matches types s t) (x s) (x t) := by
  induction h generalizing s t with
  | stack f _ =>
    dsimp only
    rw [hst.stack_eq]
    cases f t.stack with
    | ok r => exact .ok ⟨rfl, ⟨rfl, hst.left, hst.right⟩, rfl, rfl⟩
    | error fault => exact .error fault
  | types f _ =>
    dsimp only
    rw [hst.left.types_eq, hst.right.types_eq]
    cases f types with
    | ok a => exact .ok ⟨rfl, hst, rfl, rfl⟩
    | error fault => exact .error fault
  | size ty => exact agree_sizeOf hst ty
  | offset f hf => exact agree_fieldOffset hnames hst (hasks _ hf)
  | literal text hl => exact absurd (hasks _ hl) id
  | storage f size hs => exact absurd (hasks _ hs) id
  | bind _ _ ihx ihf =>
    apply (ihx hst).bind
    rintro ⟨a, s'⟩ ⟨_, t'⟩ - - ⟨rfl, hst', hs, ht⟩
    apply (ihf a hst').mono
    rintro p q ⟨heq, hsim, hp, hq⟩
    exact ⟨heq, hsim, hp.trans hs, hq.trans ht⟩

/-- Whatever is asked for, the layout stays faithful, and no fault names a method. -/
theorem Composed.faithful (hnames : ∀ t ∈ types, ':' ∉ t.name.toList) (h : Composed asks x)
    {s : LowerState} (hs : s.layout.Faithful types) : Throws Fault.Bare (x s) ∧
      ∀ a t, x s = .ok (a, t) → t.layout.Faithful types := by
  induction h generalizing s with
  | stack f hf =>
    refine ⟨(hf s.stack).map _, fun a t he => ?_⟩
    obtain ⟨r, -, hr⟩ := map_eq_ok.mp he
    cases hr
    exact hs
  | types f hf =>
    refine ⟨(hf s.layout.types).map _, fun a t he => ?_⟩
    obtain ⟨r, -, hr⟩ := map_eq_ok.mp he
    cases hr
    exact hs
  | size ty =>
    have hbare := (hs.sizeOf_eq ty).2
    have hnext := hs.sizeOf ty
    unfold sizeOf
    generalize s.layout.sizeOf ty = r at hbare hnext ⊢
    obtain ⟨answer, next⟩ := r
    cases answer with
    | ok size => exact ⟨.ok _, fun a t he => by cases he; exact hnext⟩
    | error fault => exact ⟨.error (hbare fault rfl), fun a t he => by cases he⟩
  | offset f _ =>
    have hbare := hs.fieldOffset_bare f
    have hnext : ∀ size, (s.layout.fieldOffset f).1 = .ok size →
        (s.layout.fieldOffset f).2.Faithful types := fun size => hs.fieldOffset hnames
    unfold fieldOffset
    generalize s.layout.fieldOffset f = r at hbare hnext ⊢
    obtain ⟨answer, next⟩ := r
    cases answer with
    | ok size => exact ⟨.ok _, fun a t he => by cases he; exact hnext size rfl⟩
    | error fault => exact ⟨.error (hbare fault rfl), fun a t he => by cases he⟩
  | literal text _ => exact ⟨.ok _, fun a t he => by cases he; exact hs⟩
  | storage f size _ => exact ⟨.ok _, fun a t he => by cases he; exact hs⟩
  | bind _ _ ihx ihf =>
    obtain ⟨hbare, hkeep⟩ := ihx hs
    constructor
    · intro fault he
      rcases bind_eq_error.mp he with he | ⟨⟨a, t⟩, hx, he⟩
      · exact hbare fault he
      · exact (ihf a (hkeep a t hx)).1 fault he
    · intro b u he
      obtain ⟨a, t, hx, hf⟩ := bind_ok.mp he
      exact (ihf a (hkeep a t hx)).2 b u hf

theorem composed_piece (annotate : Bool) (site : Site) (label : Option String) (i : Instruction) :
    Composed i.op.Asks (Lower.piece annotate site label i) :=
  (composed_instruction site i).bind fun _ => composed_pure _

end Lower

namespace Layout

/-- A computation on layouts that comes to the same for all faithful ones. -/
def Independent (types : List TypeDef) (x : Layout.Run α) : Prop :=
  ∀ l l', l.Faithful types → l'.Faithful types → Throws Fault.Bare (x l) ∧
    Agree (fun p q => p.1 = q.1 ∧ p.2.Faithful types ∧ q.2.Faithful types) (x l) (x l')

theorem independent_pure (a : α) : Independent types (pure a : Layout.Run α) :=
  fun _ _ hl hl' => ⟨.ok _, .ok ⟨rfl, hl, hl'⟩⟩

theorem Independent.bind {x : Layout.Run α} {f : α → Layout.Run β} (hx : Independent types x)
    (hf : ∀ a, Independent types (f a)) : Independent types (x >>= f) := by
  intro l l' hl hl'
  obtain ⟨hbare, hagree⟩ := hx l l' hl hl'
  obtain ⟨-, hself⟩ := hx l l hl hl
  constructor
  · intro fault he
    rcases bind_eq_error.mp he with he | ⟨⟨a, k⟩, hk, he⟩
    · exact hbare fault he
    · rw [hk] at hself
      cases hself with
      | ok hr => exact (hf a k k hr.2.1 hr.2.1).1 fault he
  · apply hagree.bind
    rintro ⟨a, k⟩ ⟨_, k'⟩ - - ⟨rfl, hk, hk'⟩
    exact (hf a k k' hk hk').2

theorem independent_size (ty : TypeRef) : Independent types (Layout.size ty) := by
  intro l l' hl hl'
  have hbare := (hl.sizeOf_eq ty).2
  have hsame := (hl.sizeOf_eq ty).1.trans (hl'.sizeOf_eq ty).1.symm
  have hnext := hl.sizeOf ty
  have hnext' := hl'.sizeOf ty
  unfold Layout.size
  generalize l.sizeOf ty = r at hbare hsame hnext ⊢
  generalize l'.sizeOf ty = r' at hsame hnext' ⊢
  obtain ⟨answer, next⟩ := r
  obtain ⟨answer', next'⟩ := r'
  cases hsame
  cases answer with
  | ok size => exact ⟨.ok _, .ok ⟨rfl, hnext, hnext'⟩⟩
  | error fault => exact ⟨.error (hbare fault rfl), .error fault⟩

end Layout

theorem Block.independent_place (offset : Nat) (values : List (TypeRef × String)) :
    Layout.Independent types (Block.place offset values) := by
  induction values generalizing offset with
  | nil => exact Layout.independent_pure _
  | cons value values ih =>
    obtain ⟨ty, origin⟩ := value
    exact (Layout.independent_size ty).bind fun size => (ih _).bind fun _ => Layout.independent_pure _

theorem Block.independent_after (before : Block) (values : List (TypeRef × String)) :
    Layout.Independent types (before.after values) :=
  (Block.independent_place _ values).bind fun _ => Layout.independent_pure _

theorem Frame.independent_build (m : MethodDef) : Layout.Independent types (Frame.build m) := by
  refine (Block.independent_after _ _).bind fun ret => (Block.independent_after _ _).bind fun params =>
    (Block.independent_after _ _).bind fun backup => (Block.independent_after _ _).bind fun locals => ?_
  split
  · exact fun _ _ _ _ => ⟨.error rfl, .error _⟩
  · exact Layout.independent_pure _

namespace Walk

variable {body : List Instruction} {first first' : Statics}

/-- Walks over one body that are equally far, in two sessions. -/
structure Alongside (types : List TypeDef) (body : List Instruction) (first first' : Statics)
    (w v : Walk) : Prop where
  queue_eq : v.queue = w.queue
  stops_eq : v.stops = w.stops
  body : ∀ s ∈ w.stops, s.instruction ∈ body
  left : w.session.layout.Faithful types
  right : v.session.layout.Faithful types
  statics_left : w.session.statics = first
  statics_right : v.session.statics = first'

theorem agree_visit (hnames : ∀ t ∈ types, ':' ∉ t.name.toList) (route : Route) {i : Instruction}
    (hi : ∀ r, i.op.Asks r → r.Harmless) (arriving : List Element) {session session' : Session}
    (h : session.layout.Faithful types) (h' : session'.layout.Faithful types) :
    Agree (fun p q => p.1 = q.1 ∧ Lower.Similar types p.2 q.2 ∧ p.2.statics = session.statics ∧
      q.2.statics = session'.statics) (route.visit i arriving session)
      (route.visit i arriving session') := by
  have hsimilar : Lower.Similar types { session with stack := ⟨route.site.frame.stop, arriving⟩ }
      { session' with stack := ⟨route.site.frame.stop, arriving⟩ } := ⟨rfl, h, h'⟩
  exact (Lower.composed_piece _ _ _ i).agree hnames hi hsimilar

theorem Alongside.step (hnames : ∀ t ∈ types, ':' ∉ t.name.toList) {route : Route}
    (hbody : ∀ i ∈ body, ∀ r, i.op.Asks r → r.Harmless) {w v : Walk}
    (h : Alongside types body first first' w v) (i : Nat) (arriving : List Element)
    (queue : List (Nat × List Element)) :
    Agree (Alongside types body first first') (w.step route i arriving queue)
      (v.step route i arriving queue) := by
  have hkept : Alongside types body first first' { w with queue }
      { queue, stops := w.stops, session := v.session } :=
    ⟨rfl, rfl, h.body, h.left, h.right, h.statics_left, h.statics_right⟩
  unfold Walk.step Walk.pass
  rw [h.stops_eq]
  cases hs : w.stops[i]? with
  | none => exact .ok hkept
  | some s =>
    obtain ⟨instruction, visit⟩ := s
    have hmem : instruction ∈ body := h.body _ (List.mem_of_getElem? hs)
    cases visit with
    | some earlier =>
      dsimp only
      split
      · exact .ok hkept
      · exact .error _
    | none =>
      apply (agree_visit hnames route (hbody instruction hmem) arriving h.left h.right).bind
      rintro ⟨lines, after⟩ ⟨_, after'⟩ - - ⟨rfl, hsimilar, hleft, hright⟩
      apply Agree.bind (.of_eq fun _ _ => rfl)
      rintro o _ - - rfl
      have hstops : v.stops.set i ⟨instruction, some ⟨arriving, lines⟩⟩ =
          w.stops.set i ⟨instruction, some ⟨arriving, lines⟩⟩ := by rw [h.stops_eq]
      refine .ok ⟨by rw [hsimilar.stack_eq], hstops, ?_, hsimilar.left, hsimilar.right,
        hleft.trans h.statics_left, hright.trans h.statics_right⟩
      intro s hmem'
      rcases List.mem_or_eq_of_mem_set hmem' with hmem' | rfl
      · exact h.body s hmem'
      · exact hmem

/-- In a single session the layout stays faithful all along, whatever the instructions are. -/
theorem faithful_run (hnames : ∀ t ∈ types, ':' ∉ t.name.toList) {route : Route} {w : Walk}
    (h : w.session.layout.Faithful types) : Throws Fault.Bare (w.run route) ∧
      ∀ w', w.run route = .ok w' → w'.session.layout.Faithful types := by
  have hvisit : ∀ (session : Session) i arriving, session.layout.Faithful types →
      Throws Fault.Bare (route.visit i arriving session) ∧ ∀ lines after,
        route.visit i arriving session = .ok (lines, after) → after.layout.Faithful types :=
    fun session i arriving hs => (Lower.composed_piece _ _ _ i).faithful hnames
      (s := { session with stack := ⟨route.site.frame.stop, arriving⟩ }) hs
  have hstep : ∀ (w : Walk) i arriving queue w', w.queue = (i, arriving) :: queue →
      w.step route i arriving queue = .ok w' → w.session.layout.Faithful types →
      w'.session.layout.Faithful types := by
    intro w i arriving queue w' _ hs hw
    rcases step_ok hs with ⟨-, rfl⟩ | ⟨_, _, -, -, rfl⟩ | ⟨instruction, lines, after, o, -, hv, -, rfl⟩
    · exact hw
    · exact hw
    · exact (hvisit _ instruction arriving hw).2 lines after hv
  refine ⟨fun fault he => ?_, fun w' hw' => (run_ok hstep h hw').1⟩
  obtain ⟨v, i, arriving, queue, hv, -, hs⟩ := run_error hstep h he
  rcases step_error hs with ⟨_, _, -, -, rfl⟩ | ⟨instruction, -, hfault⟩ | ⟨instruction, -, hfault⟩
  · rfl
  · exact (hvisit _ instruction arriving hv).1 fault hfault
  · obtain ⟨t, -, hposition⟩ := onward_eq_error hfault
    obtain ⟨-, rfl⟩ := position_eq_error hposition
    rfl

end Walk

/-- Whether an operation asks for static storage, of a field or of a string literal. -/
def Op.usesStatics : Op → Bool
  | .push (.str _) | .staticField _ _ => true
  | _ => false

/-- The instance field that an operation is about. -/
def Op.field? : Op → Option FieldRef
  | .field _ f => some f
  | _ => none

namespace MethodDef

/-- A method without static storage. The names of the types whose fields it uses have no colon. -/
structure Independent (m : MethodDef) : Prop where
  noStatics : ∀ i ∈ m.code, i.op.usesStatics = false
  clear : ∀ i ∈ m.code, ∀ f ∈ i.op.field?, ':' ∉ f.declaringType.toList

variable {m : MethodDef} {options : Options} {σ σ' : Session}

theorem Independent.harmless (h : m.Independent) :
    ∀ i ∈ m.code, ∀ r, i.op.Asks r → r.Harmless := by
  intro i hi r hr
  have hstatics := h.noStatics i hi
  have hclear := h.clear i hi
  obtain ⟨offset, op⟩ := i
  unfold Op.Asks at hr
  split at hr
  · rename_i heq
    subst heq
    subst hr
    exact hclear _ rfl
  · rename_i heq
    subst heq
    cases hstatics
  · rename_i heq
    subst heq
    cases hstatics
  · cases hr

/-- What a method comes to in one session, it comes to in another. -/
theorem Independent.agree_compile (hnames : ∀ t ∈ types, ':' ∉ t.name.toList) (h : m.Independent)
    (hσ : σ.layout.Faithful types) (hσ' : σ'.layout.Faithful types) :
    Agree (fun p q => p.1 = q.1 ∧ q.2.layout.Faithful types ∧ q.2.statics = σ'.statics)
      (m.compile options σ) (m.compile options σ') := by
  apply (Frame.independent_build m _ _ hσ hσ').2.bind
  rintro ⟨frame, layout⟩ ⟨_, layout'⟩ - - ⟨rfl, hl, hl'⟩
  apply Agree.bind (.of_eq fun _ _ => rfl)
  rintro head _ - - rfl
  apply Agree.bind (.of_eq fun _ _ => rfl)
  rintro u _ - - rfl
  have hstart : Walk.Alongside types m.code σ.statics σ'.statics
      (Walk.start m.code { σ with layout }) (Walk.start m.code { σ' with layout := layout' }) :=
    ⟨rfl, rfl, by simp [Walk.start], hl, hl', rfl, rfl⟩
  apply (Walk.agree_run (fun _ _ hw => hw.queue_eq)
    (fun w v i arriving queue _ hw => hw.step hnames h.harmless i arriving queue) hstart).bind
  rintro w v - - hw
  refine .ok ⟨?_, hw.right, hw.statics_right⟩
  simp only [Walk.lines, hw.stops_eq]

theorem faithful_build (hσ : σ.layout.Faithful types) {frame : Frame} {layout : Layout}
    (h : (Frame.build m).run σ.layout = .ok (frame, layout)) : layout.Faithful types := by
  have hself := (Frame.independent_build m _ _ hσ hσ).2
  change Frame.build m σ.layout = _ at h
  rw [h] at hself
  cases hself with
  | ok hr => exact hr.2.1

/-- Every method leaves the layout faithful. -/
theorem faithful_compile (hnames : ∀ t ∈ types, ':' ∉ t.name.toList)
    (hσ : σ.layout.Faithful types) {lines : List Line} {after : Session}
    (h : m.compile options σ = .ok (lines, after)) : after.layout.Faithful types := by
  obtain ⟨c, -, rfl⟩ := compile_ok.mp h
  exact (Walk.faithful_run hnames (faithful_build hσ c.frame_eq)).2 _ c.walk_eq

/-- The fault of a method names none. -/
theorem compile_bare (hnames : ∀ t ∈ types, ':' ∉ t.name.toList) (hσ : σ.layout.Faithful types) :
    Throws Fault.Bare (m.compile options σ) := by
  intro fault h
  rcases bind_eq_error.mp h with h | ⟨⟨frame, layout⟩, hframe, h⟩
  · exact (Frame.independent_build m _ _ hσ hσ).1 fault h
  rcases bind_eq_error.mp h with h | ⟨head, -, h⟩
  · exact (prologue_throws m frame fault h).bare
  rcases bind_eq_error.mp h with h | ⟨u, -, h⟩
  · obtain ⟨_, _, _, t, -, -, hposition, -⟩ := targets_eq_error.mp h
    obtain ⟨-, rfl⟩ := position_eq_error hposition
    rfl
  rcases bind_eq_error.mp h with h | ⟨walk, -, h⟩
  · exact (Walk.faithful_run hnames (faithful_build hσ hframe)).1 fault h
  · cases h

end MethodDef

/-- The sessions after methods of any kind were compiled in one of a module. -/
inductive Session.Compiled (M : Module) : Session → Prop
  | start : Compiled M (.ofModule M)
  | method {σ after : Session} {m : MethodDef} {options : Options} {lines : List Line} :
      Compiled M σ → m.compile options σ = .ok (lines, after) → Compiled M after

theorem Session.Compiled.faithful {M : Module} (hnames : ∀ t ∈ M.types, ':' ∉ t.name.toList)
    {σ : Session} (h : σ.Compiled M) : σ.layout.Faithful M.types := by
  induction h with
  | start => exact Layout.faithful_ofModule M
  | method _ hm ih => exact MethodDef.faithful_compile hnames ih hm

end CilMmix
