import CilMmix.Proofs.Window.Placement

/-! The register window as a whole. The values of a frame and the operands on it fill the registers from
the first one on, whatever is pushed, popped, saved and brought back. -/

namespace CilMmix

theorem Block.after_index {before b : Block} {values : List (TypeRef × String)} {l l' : Layout}
    (h : before.after values l = .ok (b, l')) : b.firstIndex = before.stopIndex := by
  simp only [after, bind_ok, pure_ok] at h
  obtain ⟨elems, l₁, -, rfl, -⟩ := h
  rfl

namespace Frame

/-- The values of a frame, in the order of its parts. -/
def values (f : Frame) : List Element :=
  f.ret.elems ++ f.params.elems ++ f.backup.elems ++ f.locals.elems

/-- The values of a frame and the operands on it, from the bottom up. -/
def window (f : Frame) (s : OperandStack) : List Element := f.values ++ s.elems.reverse

/-- The values of a frame are counted through from part to part. -/
structure Numbered (f : Frame) : Prop where
  ret : f.ret.firstIndex = 0
  params : f.params.firstIndex = f.ret.stopIndex
  backup : f.backup.firstIndex = f.params.stopIndex
  locals : f.locals.firstIndex = f.backup.stopIndex
  stop : f.stopIndex = f.values.length

theorem build_numbered {m : MethodDef} {l l' : Layout} {f : Frame} (h : build m l = .ok (f, l')) :
    f.Numbered := by
  simp only [build, bind_ok] at h
  obtain ⟨ret, l₁, hret, params, l₂, hparams, backup, l₃, hbackup, locals, l₄, hlocals, h⟩ := h
  have hr : ret.firstIndex = 0 := Block.after_index hret
  have hp := Block.after_index hparams
  have hb := Block.after_index hbackup
  have hl := Block.after_index hlocals
  split at h
  · cases h
  · obtain ⟨rfl, -⟩ := pure_ok.mp h
    refine ⟨hr, hp, hb, hl, ?_⟩
    simp only [stopIndex, Block.stopIndex, values, List.length_append] at *
    omega

theorem Laid.tiled_values {m : MethodDef} {f : Frame} (hf : f.Laid m) :
    Tiled 0 f.values ∧ Element.totalWords f.values = f.stop := by
  have hr : f.ret.offset = 0 := hf.ret.offset_eq
  have hp := hf.params.offset_eq
  have hb := hf.backup.offset_eq
  have hl := hf.locals.offset_eq
  simp only [Block.stop, Block.words] at hp hb hl
  constructor
  · refine (((hr ▸ hf.ret.tiled).append ?_).append ?_).append ?_
    · exact (by omega : f.params.offset = 0 + Element.totalWords f.ret.elems) ▸ hf.params.tiled
    · rw [Element.totalWords_append]
      exact (by omega : f.backup.offset = 0 + (Element.totalWords f.ret.elems +
        Element.totalWords f.params.elems)) ▸ hf.backup.tiled
    · rw [Element.totalWords_append, Element.totalWords_append]
      exact (by omega : f.locals.offset = 0 + (Element.totalWords f.ret.elems +
        Element.totalWords f.params.elems + Element.totalWords f.backup.elems)) ▸ hf.locals.tiled
  · simp only [values, Element.totalWords_append, stop, Block.stop, Block.words]
    omega

/-- The values of a frame and the operands on it share out the registers up to the top. -/
structure Tiles (f : Frame) (s : OperandStack) : Prop where
  /-- Each begins where the one before it ends, the first at register 0. -/
  tiled : Tiled 0 (f.window s)
  top_eq : s.top = Element.totalWords (f.window s)
  covered : ∀ k, k < s.top ↔ ∃ e ∈ f.window s, e.offset ≤ k ∧ k < e.stop
  apart : (f.window s).Pairwise fun a b => a.stop ≤ b.offset
  numbered : f.Numbered
  operands : ∀ e ∈ s.elems, 0 < e.size.words ∧ f.stop ≤ e.offset
  top_le : s.top ≤ registerCount

end Frame

theorem Shape.Stacked.top_le {base : Nat} {shape : Shape} (h : Stacked base shape)
    (hbase : base ≤ registerCount) : shape.top base ≤ registerCount := by
  cases shape with
  | nil => exact hbase
  | cons slot shape => exact h.2.2.1

theorem Frame.Laid.tiles {m : MethodDef} {f : Frame} (hf : f.Laid m) (hn : f.Numbered)
    {s : OperandStack} (hbase : s.base = f.stop) (hs : Shape.Stacked f.stop (shape s.elems)) :
    f.Tiles s := by
  obtain ⟨hvalues, htotal⟩ := hf.tiled_values
  obtain ⟨hoperands, htop⟩ := hs.tiled_take (Nat.le_refl _)
  have hbottom : Shape.top f.stop (shape (s.elems.drop s.elems.length)) = f.stop := by
    rw [List.drop_length]
    rfl
  rw [hbottom, List.take_length] at hoperands htop
  have htiled : Tiled 0 (f.window s) := by
    refine hvalues.append ?_
    rw [htotal, Nat.zero_add]
    exact hoperands
  have htopEq : s.top = Element.totalWords (f.window s) := by
    rw [OperandStack.top_eq, hbase, htop, window, Element.totalWords_append, htotal]
  refine ⟨htiled, htopEq, fun k => ⟨fun hk => ?_, ?_⟩, htiled.pairwise, hn, fun e he => ?_, ?_⟩
  · exact htiled.exists_mem (Nat.zero_le k) (by omega)
  · rintro ⟨e, he, -, hk⟩
    have hstop := (htiled.mem he).2
    omega
  · have hmem := hs.mem (List.mem_map.mpr ⟨e, he, rfl⟩)
    exact ⟨hmem.2.1, hmem.1⟩
  · rw [OperandStack.top_eq, hbase]
    exact hs.top_le hf.stop_le

inductive StackAction where
  | push (ty : TypeRef) (size : Size) (origin : Option String)
  | pop
  | save
  /-- Goes back to operands that were saved, counted from the last ones on. -/
  | load (index : Nat)

/-- An operand stack that is worked on in place, and the operands that were saved from it. -/
structure Bench where
  stack : OperandStack
  saved : List (List Element) := []

namespace Bench

/-- Works on the stack. An operand that is popped goes before its register is looked up, so it would be
lost if there were no such register. -/
def perform (b : Bench) : StackAction → Except Fault (Option (Reg × TypeRef)) × Bench
  | .push ty size origin => ((b.stack.push ty size origin).map fun _ => none,
      { b with stack := (b.stack.push ty size origin).toOption.getD b.stack })
  | .pop => (b.stack.pop.map fun p => some p.1,
      { b with stack := { b.stack with elems := b.stack.elems.tail } })
  | .save => (.ok none, { b with saved := b.stack.elems :: b.saved })
  | .load index => (.ok none,
      { b with stack := { b.stack with elems := b.saved[index]?.getD b.stack.elems } })

/-- The bench after several actions, failed ones included. -/
def after (b : Bench) (actions : List StackAction) : Bench :=
  actions.foldl (fun b action => (b.perform action).2) b

/-- The operands lie one above the other from the end of the frame on, and so did those that were saved. -/
structure Orderly (base : Nat) (b : Bench) : Prop where
  base_eq : b.stack.base = base
  stacked : Shape.Stacked base (shape b.stack.elems)
  saved : ∀ elems ∈ b.saved, Shape.Stacked base (shape elems)

variable {base : Nat} {b : Bench}

theorem Orderly.perform (h : b.Orderly base) (action : StackAction) :
    (b.perform action).2.Orderly base := by
  obtain ⟨hbase, hs, hsaved⟩ := h
  cases action with
  | push ty size origin =>
    simp only [Bench.perform]
    cases hpush : b.stack.push ty size origin with
    | error fault => exact ⟨hbase, hs, hsaved⟩
    | ok t =>
      have hr := OperandStack.Replaced.of_push hpush
      have ht : t.base = base := hr.base_eq.trans hbase
      exact ⟨ht, ht ▸ hr.stacked (hbase ▸ hs), hsaved⟩
  | pop =>
    refine ⟨hbase, ?_, hsaved⟩
    change Shape.Stacked base (shape b.stack.elems.tail)
    rw [← List.drop_one, shape_drop]
    exact hs.drop 1
  | save => exact ⟨hbase, hs, List.forall_mem_cons.mpr ⟨hs, hsaved⟩⟩
  | load index =>
    refine ⟨hbase, ?_, hsaved⟩
    change Shape.Stacked base (shape (b.saved[index]?.getD b.stack.elems))
    cases hload : b.saved[index]? with
    | none => exact hs
    | some elems => exact hsaved elems (List.mem_of_getElem? hload)

theorem Orderly.after (h : b.Orderly base) (actions : List StackAction) :
    (b.after actions).Orderly base := by
  induction actions generalizing b with
  | nil => exact h
  | cons action actions ih => exact ih (h.perform action)

/-- What holds of the next action on a stack over the registers of a frame. -/
structure Lawful (f : Frame) (b : Bench) : Prop where
  pop_fails : ∀ fault, b.stack.pop = .error fault ↔
    b.stack.elems = [] ∧ fault = .stackDiscipline .popEmpty
  pop_gives : ∀ r ty t, b.stack.pop = .ok ((r, ty), t) →
    r.index.val = t.top ∧ b.perform .pop = (.ok (some (r, ty)), { b with stack := t })
  push_fails : ∀ ty size origin fault, b.stack.push ty size origin = .error fault ↔
    registerCount < b.stack.top + size.words ∧
      fault = .registerExhausted (b.stack.top + size.words - 1)
  reg_gives : ∀ index e word, b.stack.elems[index]? = some e → word < e.size.words →
    ∃ r, b.stack.reg index word = .ok r ∧ r.index.val = e.offset + word ∧ f.stop ≤ r.index.val
  failed : ∀ action fault, (b.perform action).1 = .error fault → (b.perform action).2 = b
  pop_push : ∀ ty size origin t, size.isZero = false → b.stack.push ty size origin = .ok t →
    ∃ r, t.pop = .ok ((r, ty), b.stack) ∧ r.index.val = b.stack.top

end Bench

namespace OperandStack

variable {s : OperandStack}

/-- The top operand is always in the window, so it has a register. -/
theorem pop_of_stacked {e : Element} {rest : List Element} (he : s.elems = e :: rest)
    (hs : Shape.Stacked s.base (shape s.elems)) :
    ∃ r, s.pop = .ok ((r, e.ty), { s with elems := rest }) ∧ r.index.val = e.offset ∧
      e.offset = OperandStack.top { s with elems := rest } := by
  rw [he] at hs
  obtain ⟨ho, hpos, hle, -⟩ := hs
  obtain ⟨r, hr, hindex⟩ := Reg.exists_ofIndex (n := e.offset) (by omega)
  refine ⟨r, pop_eq_ok.mpr ⟨e, rest, he, hindex, rfl, rfl⟩, hindex, ?_⟩
  rw [top_eq]
  exact ho

theorem push_eq_error (htop : s.top ≤ registerCount) {ty : TypeRef} {size : Size}
    {origin : Option String} {fault : Fault} : s.push ty size origin = .error fault ↔
      registerCount < s.top + size.words ∧ fault = .registerExhausted (s.top + size.words - 1) := by
  unfold push
  split
  · rename_i hz
    have hwords := size.isZero_iff.mp hz
    simp only [reduceCtorEq, false_iff, not_and]
    omega
  · dsimp only
    split
    · rename_i hlt
      simp only [Except.error.injEq, hlt, true_and]
      exact eq_comm
    · rename_i hle
      simp only [reduceCtorEq, hle, false_and]

end OperandStack

theorem Bench.Orderly.lawful {f : Frame} {b : Bench} (h : b.Orderly f.stop) (ht : f.Tiles b.stack) :
    b.Lawful f := by
  obtain ⟨hbase, hs, -⟩ := h
  have hstacked : Shape.Stacked b.stack.base (shape b.stack.elems) := hbase ▸ hs
  have hpop : ∀ fault, b.stack.pop = .error fault ↔
      b.stack.elems = [] ∧ fault = .stackDiscipline .popEmpty := by
    intro fault
    cases he : b.stack.elems with
    | nil => simp [OperandStack.pop, he, eq_comm]
    | cons e rest =>
      obtain ⟨r, hr, -⟩ := OperandStack.pop_of_stacked he hstacked
      simp [hr]
  refine ⟨hpop, ?_, fun _ _ _ _ => OperandStack.push_eq_error ht.top_le, ?_, ?_, ?_⟩
  · intro r ty t hr
    obtain ⟨e, rest, he, hindex, rfl, rfl⟩ := OperandStack.pop_eq_ok.mp hr
    obtain ⟨-, -, -, htop⟩ := OperandStack.pop_of_stacked he hstacked
    refine ⟨hindex.trans htop, ?_⟩
    simp only [Bench.perform, hr, Except.map, he, List.tail_cons]
  · intro index e word he hword
    have hmem := hs.mem (List.mem_map.mpr ⟨e, List.mem_of_getElem? he, rfl⟩)
    have hle := ht.top_le
    rw [OperandStack.top_eq, hbase] at hle
    obtain ⟨r, hr, hindex⟩ := Reg.exists_ofIndex (n := e.offset + word) (by simp only at hmem; omega)
    refine ⟨r, OperandStack.reg_eq_ok.mpr ⟨e, he, hindex⟩, hindex, ?_⟩
    simp only at hmem
    omega
  · intro action fault hfault
    cases action with
    | push ty size origin =>
      simp only [Bench.perform] at hfault ⊢
      cases hpush : b.stack.push ty size origin with
      | ok t =>
        rw [hpush] at hfault
        cases hfault
      | error => rfl
    | pop =>
      -- A pop that fails finds nothing to take off.
      simp only [Bench.perform] at hfault ⊢
      cases hr : b.stack.pop with
      | ok p =>
        rw [hr] at hfault
        cases hfault
      | error fault' =>
        have hnil := ((hpop fault').mp hr).1
        rw [hnil, List.tail_nil, ← hnil]
    | save | load => cases hfault
  · intro ty size origin t hz hpush
    have hr := OperandStack.Replaced.of_push hpush
    rcases OperandStack.push_eq_ok.mp hpush with ⟨hzero, -⟩ | ⟨-, -, rfl⟩
    · rw [size.isZero_iff.mpr hzero] at hz
      cases hz
    · obtain ⟨r, hpopped, hindex, -⟩ := OperandStack.pop_of_stacked rfl (hr.stacked hstacked)
      exact ⟨r, hpopped, hindex⟩

namespace Frame

def bench (f : Frame) : Bench := ⟨.ofFrame f, []⟩

theorem bench_orderly (f : Frame) : f.bench.Orderly f.stop := ⟨rfl, trivial, List.forall_mem_nil _⟩

/-- Whatever is done with the operand stack of a method, the window stays without gaps and overlaps, and
the next action on it fails only if it must. -/
theorem window_tiled {m : MethodDef} {l l' : Layout} {f : Frame}
    (h : (Frame.build m).run l = .ok (f, l')) (actions : List StackAction) :
    f.Tiles (f.bench.after actions).stack ∧ (f.bench.after actions).Lawful f := by
  have horderly := f.bench_orderly.after actions
  have htiles := (build_ok h).1.tiles (build_numbered h) horderly.base_eq horderly.stacked
  exact ⟨htiles, horderly.lawful htiles⟩

/-- A method with two words to return, a parameter without words and a call. -/
def relayText : MethodDef where
  name := "relay"
  params := [.named "Unit", .primitive .int8]
  ret := .string
  locals := [.primitive .int64]
  body := some (MethodDef.number [.push (.str "text"),
    .call ⟨"Other", "copy", [.string], .string⟩, .ret])

/-- Actions with a pop of nothing, a push of too many words and one of no words among them. -/
def variousActions : List StackAction :=
  [.pop, .push .string (.ofWords 2) none, .save, .push .string ⟨2000⟩ none,
    .push (.primitive .bool) ⟨1⟩ none, .push (.named "Unit") .zero none, .pop, .pop, .load 0]

theorem window_tiled_relayText : ∃ f l',
    (Frame.build relayText).run { types := [⟨"Unit", .structType, [], []⟩] } = .ok (f, l') ∧
      f.Tiles (f.bench.after variousActions).stack ∧ (f.bench.after variousActions).Lawful f := by
  have hok : ((Frame.build relayText).run
      { types := [⟨"Unit", .structType, [], []⟩] }).toBool = true := by decide +kernel
  obtain ⟨⟨f, l'⟩, h⟩ := exists_of_toBool hok
  exact ⟨f, l', h, window_tiled h variousActions⟩

end Frame

end CilMmix
