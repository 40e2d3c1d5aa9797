import CilMmix.Proofs.Machine.Moves
import CilMmix.Proofs.Simulation.Evaluation
import CilMmix.Proofs.Window.Placement

/-! The store that the registers of a method hold, and how it changes when registers do. -/

namespace CilMmix

/-- The value in the registers of an element. -/
def Element.read (e : Element) (r : Registers) : Value := r.read e.offset e.size.words

@[simp] theorem Element.length_read (e : Element) (r : Registers) :
    (e.read r).length = e.size.words := Registers.length_read ..

theorem Element.read_congr {e : Element} {r r' : Registers}
    (h : ∀ k, e.offset ≤ k → k < e.stop → r k = r' k) : e.read r = e.read r' :=
  Registers.read_congr h

theorem Element.read_of_one {e : Element} (h : e.size.words = 1) (r : Registers) :
    e.read r = [r e.offset] := by
  rw [read, h, Registers.read_one]

theorem Element.read_of_pos (e : Element) (h : 0 < e.size.words) (r : Registers) :
    ∃ ws, e.read r = r e.offset :: ws := by
  obtain ⟨n, hn⟩ := Nat.exists_eq_add_of_lt h
  exact ⟨_, by rw [read, hn, Registers.read_succ]⟩

/-- The values of variables and operands in the registers that they have. -/
def Frame.store (f : Frame) (elems : List Element) (r : Registers) : Store where
  args := f.params.elems.map (·.read r)
  locals := f.locals.elems.map (·.read r)
  stack := elems.map (·.read r)

namespace Frame.Laid

variable {m : MethodDef} {f : Frame}

theorem ret_offset (hf : f.Laid m) : f.ret.offset = 0 := hf.ret.offset_eq

/-- The parts of a frame follow each other. -/
theorem ordered (hf : f.Laid m) : f.ret.words = f.params.offset ∧ f.params.stop = f.backup.offset ∧
    f.backup.stop = f.locals.offset ∧ f.locals.stop = f.stop := by
  have hr := hf.ret_offset
  have hp := hf.params.offset_eq
  exact ⟨by rw [hp, Block.stop, hr, Nat.zero_add], hf.backup.offset_eq.symm, hf.locals.offset_eq.symm,
    rfl⟩

theorem param_bounds (hf : f.Laid m) {e : Element} (he : e ∈ f.params.elems) :
    f.params.offset ≤ e.offset ∧ e.stop ≤ f.backup.offset := by
  rw [hf.backup.offset_eq]
  exact hf.params.mem he

theorem local_bounds (hf : f.Laid m) {e : Element} (he : e ∈ f.locals.elems) :
    f.backup.stop ≤ e.offset ∧ e.stop ≤ f.stop := by
  rw [← hf.locals.offset_eq]
  exact hf.locals.mem he

theorem backup_le (hf : f.Laid m) : f.backup.offset ≤ f.backup.stop ∧ f.backup.stop ≤ f.stop := by
  have hl := hf.locals.offset_eq
  unfold Frame.stop Block.stop at *
  omega

theorem slot_le (hf : f.Laid m) {v : Variable} {e : Element}
    (he : (v.slot f).1.elems[(v.slot f).2]? = some e) : e.stop ≤ f.stop := by
  have hb := hf.backup_le
  have hmem := List.mem_of_getElem? he
  cases v with
  | arg i =>
    have hp := hf.param_bounds hmem
    omega
  | loc i => exact (hf.local_bounds hmem).2

/-- Registers below the operands and those of the operands are all that a store depends on. -/
theorem store_congr (hf : f.Laid m) {elems : List Element} {r r' : Registers}
    (hs : Shape.Stacked f.stop (shape elems))
    (h : ∀ k, k < Shape.top f.stop (shape elems) → r k = r' k) : f.store elems r = f.store elems r' := by
  have hb := hf.backup_le
  have htop := hs.base_le_top
  unfold Frame.store
  congr 1
  · refine List.map_congr_left fun e he => Element.read_congr fun k _ hk => h k ?_
    have hp := hf.param_bounds he
    omega
  · refine List.map_congr_left fun e he => Element.read_congr fun k _ hk => h k ?_
    have hl := hf.local_bounds he
    omega
  · refine List.map_congr_left fun e he => Element.read_congr fun k _ hk => h k ?_
    have hm := hs.mem (List.mem_map.mpr ⟨e, he, rfl⟩)
    simp only [Element.stop] at hk
    omega

theorem store_push (hf : f.Laid m) {e : Element} {elems : List Element} {r r' : Registers}
    (hs : Shape.Stacked f.stop (shape (e :: elems))) (h : ∀ k, k < e.offset → r' k = r k) :
    f.store (e :: elems) r' = (f.store elems r).push (e.read r') := by
  have ho : e.offset = Shape.top f.stop (shape elems) := hs.1
  rw [← hf.store_congr hs.tail (r := r') fun k hk => h k (ho ▸ hk)]
  rfl

theorem store_set (hf : f.Laid m) {e : Element} {elems : List Element}
    (hs : Shape.Stacked f.stop (shape (e :: elems))) (he : e.size.words = 1) (r : Registers)
    (w : Word) :
    f.store (e :: elems) (Function.update r e.offset w) = (f.store elems r).push [w] := by
  rw [hf.store_push (r := r) hs fun k hk => Function.update_of_ne (Nat.ne_of_lt hk) ..,
    Element.read_of_one he, Function.update_self]

/-- A register above the operands does not matter. -/
theorem store_scratch (hf : f.Laid m) {elems : List Element} {k : Nat}
    (hs : Shape.Stacked f.stop (shape elems)) (hk : Shape.top f.stop (shape elems) ≤ k)
    (r : Registers) (w : Word) : f.store elems (Function.update r k w) = f.store elems r :=
  hf.store_congr hs fun _ hj => Function.update_of_ne (Nat.ne_of_lt (Nat.lt_of_lt_of_le hj hk)) ..

end Frame.Laid

theorem Frame.lookup?_store (f : Frame) (elems : List Element) (r : Registers) (v : Variable) :
    (f.store elems r).lookup? v = ((v.slot f).1.elems[(v.slot f).2]?).map (·.read r) := by
  cases v <;> simp [Store.lookup?, Frame.store, Variable.slot]

theorem Tiled.map_read {offset i : Nat} {elems : List Element} (h : Tiled offset elems) {e : Element}
    (he : elems[i]? = some e) {r r' : Registers}
    (hout : ∀ k, k < e.offset ∨ e.stop ≤ k → r' k = r k) :
    elems.map (·.read r') = (elems.map (·.read r)).set i (e.read r') := by
  have hpair := List.pairwise_iff_getElem.mp h.pairwise
  obtain ⟨hi, rfl⟩ := List.getElem?_eq_some_iff.mp he
  refine List.ext_getElem (by simp) fun j hj hj' => ?_
  simp only [List.length_map] at hj
  rw [List.getElem_set]
  split
  · subst_vars
    simp
  · rename_i hij
    simp only [List.getElem_map]
    refine Element.read_congr fun k hk hk' => hout k ?_
    rcases Nat.lt_or_gt_of_ne hij with hlt | hlt
    · have hh := hpair i j hi hj hlt
      omega
    · have hh := hpair j i hj hi hlt
      omega

theorem map_read_congr {elems : List Element} {r r' : Registers}
    (h : ∀ e ∈ elems, ∀ k, e.offset ≤ k → k < e.stop → r' k = r k) :
    elems.map (·.read r') = elems.map (·.read r) :=
  List.map_congr_left fun e he => Element.read_congr (h e he)

theorem Frame.Laid.store_setVariable {m : MethodDef} {f : Frame} (hf : f.Laid m)
    {elems : List Element} (hs : Shape.Stacked f.stop (shape elems)) {v : Variable} {e : Element}
    (he : (v.slot f).1.elems[(v.slot f).2]? = some e) {r r' : Registers}
    (hout : ∀ k, k < e.offset ∨ e.stop ≤ k → r' k = r k) :
    f.store elems r' = (f.store elems r).setVariable (e.read r') v := by
  have hb := hf.backup_le
  have hmem := List.mem_of_getElem? he
  have hstack : ∀ x ∈ elems, f.stop ≤ x.offset := fun x hx =>
    (hs.mem (List.mem_map.mpr ⟨x, hx, rfl⟩)).1
  cases v with
  | arg i =>
    have hbounds := hf.param_bounds hmem
    simp only [Frame.store, Store.setVariable]
    congr 1
    · exact hf.params.tiled.map_read he hout
    · refine map_read_congr fun x hx k hk _ => hout k ?_
      have hl := hf.local_bounds hx
      omega
    · refine map_read_congr fun x hx k hk _ => hout k ?_
      have hl := hstack x hx
      omega
  | loc i =>
    have hbounds := hf.local_bounds hmem
    simp only [Frame.store, Store.setVariable]
    congr 1
    · refine map_read_congr fun x hx k _ hk => hout k ?_
      have hp := hf.param_bounds hx
      omega
    · exact hf.locals.tiled.map_read he hout
    · refine map_read_congr fun x hx k hk _ => hout k ?_
      have hl := hstack x hx
      omega

theorem Element.read_eq_singleton {e : Element} {r : Registers} {w : Word} (h : e.read r = [w]) :
    e.size.words = 1 ∧ w = r e.offset := by
  have hlen : e.size.words = 1 := by simpa using congrArg List.length h
  rw [read_of_one hlen] at h
  exact ⟨hlen, (List.singleton_inj.mp h).symm⟩

namespace Frame

variable (f : Frame) (e e' : Element) (elems : List Element) (r : Registers)

theorem popNumber_store : (e.size.words = 1 ∧
      (f.store (e :: elems) r).popNumber = .ok (r e.offset, f.store elems r)) ∨
    (f.store (e :: elems) r).popNumber = .error .misfit := by
  simp only [Store.popNumber, store, List.map_cons]
  split
  · simp_all
  · rename_i w rest he
    obtain ⟨hw, rfl⟩ := List.cons.inj he
    obtain ⟨hlen, rfl⟩ := Element.read_eq_singleton hw
    exact .inl ⟨hlen, rfl⟩
  · exact .inr rfl

theorem popNumbers_store : (e.size.words = 1 ∧ e'.size.words = 1 ∧
      (f.store (e' :: e :: elems) r).popNumbers =
        .ok ((r e.offset, r e'.offset), f.store elems r)) ∨
    (f.store (e' :: e :: elems) r).popNumbers = .error .misfit := by
  simp only [Store.popNumbers, store, List.map_cons]
  split
  · simp_all
  · simp_all
  · rename_i b a rest he
    obtain ⟨hb, he⟩ := List.cons.inj he
    obtain ⟨ha, rfl⟩ := List.cons.inj he
    obtain ⟨hlen', rfl⟩ := Element.read_eq_singleton hb
    obtain ⟨hlen, rfl⟩ := Element.read_eq_singleton ha
    exact .inl ⟨hlen, hlen', rfl⟩
  · exact .inr rfl

end Frame

end CilMmix
