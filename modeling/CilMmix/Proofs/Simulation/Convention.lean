import CilMmix.Proofs.Simulation.Calls
import CilMmix.Proofs.Simulation.Places

/-! The calling convention: the code of a call and that of the method it goes to agree on where
arguments and results are. -/

namespace CilMmix

/-- Arguments do not come in registers that a method has for its return address or its variables. -/
theorem Frame.Laid.arguments_apart {m : MethodDef} {f : Frame} (hf : f.Laid m) :
    ∀ k < f.params.words, ∀ e ∈ f.backup.elems ++ f.locals.elems, k < e.offset := by
  intro k hk e he
  obtain ⟨-, hparams, hbackup, -⟩ := hf.ordered
  have hle : f.params.words ≤ f.backup.offset := by
    rw [← hparams]
    exact Nat.le_add_left ..
  rcases List.mem_append.mp he with he | he
  · have := (hf.backup.mem he).1
    omega
  · have := (hf.locals.mem he).1
    have := hf.backup_le.1
    omega

namespace MethodDef

variable {M : Module} {m callee : MethodDef} {options options' : Options} {τ σ : Session}

/-- A call from one compiled method to another, with operands that are as wide as the parameters. -/
structure CallSite (c : m.Compilation options τ) (d : callee.Compilation options' σ) where
  index : Nat
  offset : UInt32
  ref : MethodRef
  visit : Visit
  code_eq : m.code[index]? = some ⟨offset, .call ref⟩
  visit_eq : c.visit? index = some visit
  params_eq : ref.params = callee.params
  ret_eq : ref.ret = callee.ret
  words_eq : (visit.arrival.take callee.params.length).reverse.map (·.size.words) =
    d.frame.params.elems.map (·.size.words)

namespace CallSite

variable {c : m.Compilation options τ} {d : callee.Compilation options' σ}

/-- The operands that are the arguments, first to last. -/
def args (site : CallSite c d) : List Element :=
  (site.visit.arrival.take callee.params.length).reverse

/-- The operands that stay. -/
def below (site : CallSite c d) : List Element := site.visit.arrival.drop callee.params.length

/-- The register that the call leaves free. -/
def hole (site : CallSite c d) : Nat := Shape.top c.frame.stop (shape site.below)

/-- The shape of the operands after the call: the result, if it has words, begins at the hole. -/
def left (site : CallSite c d) : Shape :=
  Shape.push c.frame.stop d.frame.ret.words (shape site.below)

/-- After its prologue the callee has the arguments in its parameters, and the return address is
saved if there is a register for it. -/
def Enters (site : CallSite c d) (machine moved : Machine) : Prop :=
  ∀ link, ∃ begun, Reaches d.lines (0, moved.call site.hole link) (d.start 0, begun) ∧
    d.frame.params.elems.map (·.read begun.regs) = site.args.map (·.read machine.regs) ∧
    ∀ r, d.frame.backupReg = .ok (some r) → begun.regs r.index.val = link

/-- Whatever the callee did, a return from it that does not stop the machine gives its result to the
registers from the hole on, and those below are as they were before the call. -/
def Returns (site : CallSite c d) (machine moved : Machine) : Prop :=
  ∀ j offset w v inside, callee.code[j]? = some ⟨offset, .ret⟩ → d.visit? j = some w →
    d.frame.Result w.arrival inside.regs v →
    (d.frame.ret.elems.isEmpty && d.route.site.halts) = false →
    ∃ q line out, Reaches d.lines (d.entry j, inside) (q, out) ∧ d.lines[q]? = some line ∧
      line.unlabel = .ins .pop [.imm d.frame.ret.words, .imm 0] ∧
      (∀ r, d.frame.backupReg = .ok (some r) → out.special "rJ" = inside.regs r.index.val) ∧
      (moved.regs.popped out.regs site.hole d.frame.ret.words).read site.hole d.frame.ret.words = v ∧
      ∀ k < site.hole,
        moved.regs.popped out.regs site.hole d.frame.ret.words k = machine.regs k

/-- What caller and callee agree on. -/
structure Conforms (M : Module) (site : CallSite c d) : Prop where
  /-- The caller takes the registers from the hole on for the result. -/
  result : ∃ session after, session.Reached M ∧
    c.route.visit ⟨site.offset, .call site.ref⟩ site.visit.arrival session =
      .ok (site.visit.lines, after) ∧ shape after.stack.elems = site.left
  next : site.index + 1 < m.code.length →
    ∃ w, c.visit? (site.index + 1) = some w ∧ shape w.arrival = site.left
  apart : ∀ k < d.frame.params.words, ∀ e ∈ d.frame.backup.elems ++ d.frame.locals.elems, k < e.offset
  /-- The callee overwrites no argument before it has moved it. -/
  intact : ∀ machine, ReadsIntact d.head machine
  call : ∀ machine, ∃ p line moved, ∃ hole : Reg,
    Reaches c.lines (c.entry site.index, machine) (p, moved) ∧ c.lines[p]? = some line ∧
    hole.index.val = site.hole ∧
    line.unlabel = .ins .pushj [.reg hole, .sym (mangle site.ref.name)] ∧
    site.Enters machine moved ∧ site.Returns machine moved

theorem code_ok (site : CallSite c d) (hτ : τ.Reached M) : ∃ moves, ∃ hole : Reg,
    hole.index.val = site.hole ∧
    site.visit.lines = piece options.annotate (c.route.label? site.offset)
      ⟨site.offset, .call site.ref⟩
      (moves ++ [.ins .pushj [.reg hole, .sym (mangle site.ref.name)]]) ∧
    Moves (copyPairs site.hole (site.hole + 1) (Element.totalWords site.args)) moves ∧
    Tiled site.hole site.args := by
  obtain ⟨hs, instruction, σ₁, after, hi, -, hvisit, -⟩ :=
    (c.covers_stacked hτ).visit_spec site.visit_eq
  cases hi.symm.trans site.code_eq
  obtain ⟨code, hcode, hlines⟩ := Route.visit_ok.mp hvisit
  obtain ⟨moves, hole, rfl, hle, hhole, hmoves⟩ := Lower.call_ok hcode
  rw [site.params_eq] at hle hhole
  obtain ⟨htiled, htop⟩ := hs.tiled_take hle
  have hhole : hole.index.val = site.hole := hhole
  have hcount : Shape.top c.frame.stop (shape site.visit.arrival) - site.hole =
      Element.totalWords site.args := by
    rw [htop]
    exact Nat.add_sub_cancel_left ..
  refine ⟨moves, hole, hhole, hlines, ?_, htiled⟩
  rw [← hcount, ← hhole]
  exact hmoves

/-- The machine after the moves of the call. -/
def moved (site : CallSite c d) (machine : Machine) : Machine :=
  { machine with
    regs := runMoves (copyPairs site.hole (site.hole + 1) (Element.totalWords site.args)) machine.regs }

theorem reaches_call (site : CallSite c d) (hτ : τ.Reached M) (machine : Machine) :
    ∃ p line, ∃ hole : Reg, Reaches c.lines (c.entry site.index, machine) (p, site.moved machine) ∧
      c.lines[p]? = some line ∧ hole.index.val = site.hole ∧
      line.unlabel = .ins .pushj [.reg hole, .sym (mangle site.ref.name)] := by
  obtain ⟨moves, hole, hhole, hlines, hmoves, -⟩ := site.code_ok hτ
  have hcode : Line.IsCode (moves ++ [.ins .pushj [.reg hole, .sym (mangle site.ref.name)]]) :=
    Line.isCode_of_ins (List.forall_mem_append.mpr ⟨hmoves.ins, by simp⟩)
  have hrun : run (moves ++ [.ins .pushj [.reg hole, .sym (mangle site.ref.name)]]) machine =
      (site.moved machine, .stop (.ins .pushj [.reg hole, .sym (mangle site.ref.name)])) := by
    rw [run_append (run_moves hmoves machine)]
    rfl
  obtain ⟨p, line, hp, hline, hunlabel⟩ := Compilation.leads_visit site.visit_eq hlines hcode hrun
  exact ⟨p, line, hole, hp, hline, hhole, hunlabel⟩

theorem enters (site : CallSite c d) (hτ : τ.Reached M) (machine : Machine) :
    site.Enters machine (site.moved machine) := by
  intro link
  obtain ⟨-, -, -, -, -, htiled⟩ := site.code_ok hτ
  refine ⟨_, d.reaches_start _, (htiled.map_read_eq d.laid.params.tiled site.words_eq ?_).symm, ?_⟩
  · intro k hk
    have hwords : Element.totalWords site.args = d.frame.params.words :=
      Element.totalWords_congr site.words_eq
    rw [d.laid.entering_param _ (hwords ▸ hk)]
    exact (copy_inside hk machine.regs).symm
  · intro r hr
    obtain ⟨hcalls, hoffset⟩ := d.laid.backupReg_some hr
    rw [hoffset, d.laid.entering_backup _ hcalls]
    simp only [Machine.call, Function.update_self]

theorem returns (site : CallSite c d) (hσ : σ.Reached M) (machine : Machine) :
    site.Returns machine (site.moved machine) := by
  intro j offset w v inside hj hw hv hhalts
  obtain ⟨hs, instruction, σ₁, after, hi, -, hvisit, -⟩ := (d.covers_stacked hσ).visit_spec hw
  cases hi.symm.trans hj
  obtain ⟨code, hcode, hlines⟩ := Route.visit_ok.mp hvisit
  obtain ⟨hisCode, -, hleaves⟩ := Lower.leaves_ret d.laid hs hcode
  obtain ⟨out, line, hrun, hspecial, hexits⟩ := hleaves inside v hv
  obtain ⟨q, l, hq, hl, hunlabel⟩ := Compilation.leads_visit hw hlines hisCode hrun
  have hframe : d.route.site.frame = d.frame := rfl
  rw [Site.Exits, hframe, hhalts, if_neg Bool.false_ne_true, hv.length_eq] at hexits
  obtain ⟨rfl, hhanded⟩ := hexits
  refine ⟨q, l, out, hq, hl, hunlabel, fun r hr => ?_, ?_, fun k hk => ?_⟩
  · obtain ⟨hcalls, hoffset⟩ := d.laid.backupReg_some hr
    rw [hspecial, hframe, Frame.relink, if_pos hcalls, hoffset]
    simp only [Function.update_self]
  · rw [Registers.read_popped, hhanded]
  · rw [Registers.popped_of_lt _ _ _ hk]
    exact copy_outside (.inl (Nat.lt_succ_of_lt hk)) _

/-- The operand that stands for the result begins at the hole and is as wide as the callee's result. -/
theorem leaves_result (site : CallSite c d) (hτ : τ.Reached M) (hσ : σ.Reached M) :
    ∃ session after, session.Reached M ∧
      c.route.visit ⟨site.offset, .call site.ref⟩ site.visit.arrival session =
        .ok (site.visit.lines, after) ∧ shape after.stack.elems = site.left ∧
      (site.index + 1 < m.code.length →
        ∃ w, c.visit? (site.index + 1) = some w ∧ shape w.arrival = shape after.stack.elems) := by
  obtain ⟨-, instruction, τ₁, after, hi, hτ₁, hvisit, hnext⟩ :=
    (c.covers_stacked hτ).visit_spec site.visit_eq
  cases hi.symm.trans site.code_eq
  refine ⟨τ₁, after, hτ₁, hvisit, ?_, hnext _ ⟨_, _, hi, rfl, .inl rfl⟩⟩
  obtain ⟨code, hcode, -⟩ := Route.visit_ok.mp hvisit
  obtain ⟨-, words, ⟨ty, hty, hwords⟩, hreplaced⟩ :=
    (Lower.instruction_effect _ _ hτ₁.sound).2 code after hcode
  -- Caller and callee ask the same types how wide the result is.
  have hty : ty = callee.ret := Eq.trans hty site.ret_eq
  have hret : HasWords M.types callee.ret d.frame.ret.words :=
    d.laid.hasWords_ret ((Frame.build_ok d.frame_eq).2 M.types hσ.sound).2
  have hwords : words = d.frame.ret.words := (hty ▸ hwords).unique hret
  have htakes : (Op.call site.ref).takes c.route.site.frame = callee.params.length :=
    congrArg List.length site.params_eq
  rw [hreplaced.shape_eq, htakes, hwords, left, below, shape_drop]
  rfl

end CallSite

/-- Calls pass arguments and results between compiled methods, whatever their widths are. -/
theorem calling_convention {c : m.Compilation options τ} {d : callee.Compilation options' σ}
    (hτ : τ.Reached M) (hσ : σ.Reached M) (site : CallSite c d) : site.Conforms M := by
  obtain ⟨session, after, hsession, hvisit, hleft, hnext⟩ := site.leaves_result hτ hσ
  refine ⟨⟨session, after, hsession, hvisit, hleft⟩, hleft ▸ hnext, d.laid.arguments_apart,
    prologue_readsIntact d.laid d.head_eq, fun machine => ?_⟩
  obtain ⟨p, line, hole, hp, hline, hhole, hunlabel⟩ := site.reaches_call hτ machine
  exact ⟨p, line, _, hole, hp, hline, hhole, hunlabel, site.enters hτ machine,
    site.returns hσ machine⟩

/-- Gives its argument back. -/
def greet : MethodDef where
  name := "Greet"
  params := [.string]
  ret := .string
  body := some (number [.load (.arg 0), .ret])

/-- Hands its argument on to `greet`. -/
def relay : MethodDef where
  name := "Relay"
  params := [.string]
  ret := .string
  body := some (number [.load (.arg 0), .call ⟨"App.Program", "Greet", [.string], .string⟩, .ret])

/-- A string takes two words, on the way to a callee and back. -/
theorem calling_convention_relay :
    ∃ c : relay.Compilation {} (.ofModule ⟨"module", []⟩),
    ∃ d : greet.Compilation {} (.ofModule ⟨"module", []⟩),
    ∃ site : CallSite c d, site.index = 1 ∧ site.Conforms ⟨"module", []⟩ := by
  have hrelay : (relay.compile {} (.ofModule ⟨"module", []⟩)).toBool = true := by decide +kernel
  have hgreet : (greet.compile {} (.ofModule ⟨"module", []⟩)).toBool = true := by decide +kernel
  match hc : relay.compile {} (.ofModule ⟨"module", []⟩), hrelay with
  | .ok (relayLines, _), _ =>
  match hd : greet.compile {} (.ofModule ⟨"module", []⟩), hgreet with
  | .ok (greetLines, _), _ =>
    obtain ⟨c, -, -⟩ := compile_ok.mp hc
    obtain ⟨d, -, -⟩ := compile_ok.mp hd
    have harrival : (c.visit? 1).map (fun v => (v.arrival.take 1).reverse.map (·.size.words)) =
        some [2] :=
      c.parts_eq (fun _ w => (w.stops[1]?.bind Stop.visit).map _) (by decide +kernel)
    have hparams : d.frame.params.elems.map (·.size.words) = [2] :=
      d.parts_eq (fun f _ => f.params.elems.map _) (by decide +kernel)
    rw [Option.map_eq_some_iff] at harrival
    obtain ⟨v, hv, hwords⟩ := harrival
    exact ⟨c, d, ⟨1, 1, _, v, rfl, hv, rfl, rfl, hwords.trans hparams.symm⟩, rfl,
      calling_convention .start .start _⟩

end MethodDef

end CilMmix
