import CilMmix.Method.Compile
import CilMmix.Proofs.Lowering.Faults
import CilMmix.Proofs.Window.Shape

/-! The registers of a frame. Its parts follow each other, and so do the values in each part. -/

namespace CilMmix

/-- Values that follow each other without gaps, from a register on. -/
def Tiled : Nat → List Element → Prop
  | _, [] => True
  | offset, e :: elems => e.offset = offset ∧ Tiled (offset + e.size.words) elems

theorem Tiled.mem {offset : Nat} {elems : List Element} (h : Tiled offset elems) {e : Element}
    (he : e ∈ elems) : offset ≤ e.offset ∧ e.stop ≤ offset + Element.totalWords elems := by
  induction elems generalizing offset with
  | nil => simp at he
  | cons first elems ih =>
    obtain ⟨ho, hrest⟩ := h
    simp only [Element.totalWords]
    rcases List.mem_cons.mp he with rfl | he
    · simp only [Element.stop]
      omega
    · have hh := ih hrest he
      omega

theorem Tiled.exists_mem {offset : Nat} {elems : List Element} (h : Tiled offset elems) {k : Nat}
    (hge : offset ≤ k) (hlt : k < offset + Element.totalWords elems) :
    ∃ e ∈ elems, e.offset ≤ k ∧ k < e.stop := by
  induction elems generalizing offset with
  | nil =>
    simp only [Element.totalWords] at hlt
    omega
  | cons first elems ih =>
    obtain ⟨ho, hrest⟩ := h
    simp only [Element.totalWords] at hlt
    by_cases hk : k < offset + first.size.words
    · exact ⟨first, List.mem_cons_self, by omega, by simp only [Element.stop]; omega⟩
    · obtain ⟨e, he, hmem⟩ := ih hrest (by omega) (by omega)
      exact ⟨e, List.mem_cons_of_mem _ he, hmem⟩

/-- Of two values of a part the earlier one ends before the later one begins. -/
theorem Tiled.pairwise {offset : Nat} {elems : List Element} (h : Tiled offset elems) :
    elems.Pairwise fun a b => a.stop ≤ b.offset := by
  induction elems generalizing offset with
  | nil => exact .nil
  | cons e elems ih =>
    obtain ⟨ho, hrest⟩ := h
    refine .cons (fun b hb => ?_) (ih hrest)
    have hh := (hrest.mem hb).1
    simp only [Element.stop]
    omega

theorem Element.totalWords_append (a b : List Element) :
    totalWords (a ++ b) = totalWords a + totalWords b := by
  induction a with
  | nil => simp [totalWords]
  | cons e a ih =>
    simp only [List.cons_append, totalWords, ih]
    omega

/-- Values that follow each other, and others that follow them. -/
theorem Tiled.append {offset : Nat} {a b : List Element} (ha : Tiled offset a)
    (hb : Tiled (offset + Element.totalWords a) b) : Tiled offset (a ++ b) := by
  induction a generalizing offset with
  | nil => exact hb
  | cons e a ih =>
    refine ⟨ha.1, ih ha.2 ?_⟩
    simpa only [Element.totalWords, Nat.add_assoc] using hb

/-- Operands lie above the ones below them, from the first argument of a call on. -/
theorem Shape.Stacked.tiled_take {base n : Nat} {elems : List Element}
    (h : Stacked base (shape elems)) (hn : n ≤ elems.length) :
    Tiled (top base (shape (elems.drop n))) (elems.take n).reverse ∧ top base (shape elems) =
      top base (shape (elems.drop n)) + Element.totalWords (elems.take n).reverse := by
  induction n generalizing elems with
  | zero => exact ⟨trivial, rfl⟩
  | succ n ih =>
    cases elems with
    | nil => cases hn
    | cons e rest =>
      obtain ⟨htiled, htop⟩ := ih h.tail (Nat.le_of_succ_le_succ hn)
      have ho : e.offset = top base (shape rest) := h.1
      simp only [List.drop_succ_cons, List.take_succ_cons, List.reverse_cons]
      refine ⟨htiled.append ⟨ho.trans htop, trivial⟩, ?_⟩
      rw [Element.totalWords_append, ← Nat.add_assoc, ← htop, ← ho]
      rfl

/-- The operands fill the registers from their base to the top. -/
theorem Shape.Stacked.top_eq {base : Nat} {elems : List Element} (h : Stacked base (shape elems)) :
    top base (shape elems) = base + Element.totalWords elems := by
  induction elems with
  | nil => rfl
  | cons e rest ih =>
    have ho : e.offset = top base (shape rest) := h.1
    have htop : top base (shape (e :: rest)) = e.offset + e.size.words := rfl
    rw [htop, ho, ih h.tail, Element.totalWords]
    omega

theorem Layout.size_ok {l l' : Layout} {ty : TypeRef} {size : Size} :
    Layout.size ty l = .ok (size, l') ↔ l.sizeOf ty = (.ok size, l') := by
  unfold Layout.size
  split <;> rename_i he <;> simp [he]

namespace Block

theorem place_ok {offset : Nat} {values : List (TypeRef × String)} {l l' : Layout}
    {elems : List Element} (h : place offset values l = .ok (elems, l')) :
    Tiled offset elems ∧ elems.map Element.ty = values.map Prod.fst ∧
      ∀ types, l.Sound types → l'.Sound types ∧ ∀ e ∈ elems, HasSize types e.ty e.size := by
  induction values generalizing offset l elems with
  | nil =>
    obtain ⟨rfl, rfl⟩ := pure_ok.mp h
    exact ⟨trivial, rfl, fun types hs => ⟨hs, nofun⟩⟩
  | cons value values ih =>
    obtain ⟨ty, origin⟩ := value
    simp only [place, bind_ok, pure_ok, Layout.size_ok] at h
    obtain ⟨size, l₁, hsize, elems, l₂, hplace, rfl, rfl⟩ := h
    obtain ⟨htiled, htypes, hsound⟩ := ih hplace
    refine ⟨⟨rfl, htiled⟩, by simp [htypes], fun types hs => ?_⟩
    obtain ⟨hs₁, hone, -⟩ := hs.sizeOf ty
    rw [hsize] at hs₁ hone
    obtain ⟨hs₂, hall⟩ := hsound types hs₁
    refine ⟨hs₂, fun e he => ?_⟩
    rcases List.mem_cons.mp he with rfl | he
    · exact hone size rfl
    · exact hall e he

theorem place_clean {types : List TypeDef} {offset : Nat} {values : List (TypeRef × String)}
    {l : Layout} (hs : l.Sound types) : Clean (place offset values l) := by
  induction values generalizing offset l with
  | nil => exact .pure _
  | cons value values ih =>
    obtain ⟨hs₁, -, hf⟩ := hs.sizeOf value.1
    refine bind_clean ?_ fun size l₁ hsize => ?_
    · intro fault h
      unfold Layout.size at h
      split at h <;> cases h
      rename_i he
      rw [he] at hf
      exact hf fault rfl
    · rw [Layout.size_ok.mp hsize] at hs₁
      exact bind_clean (ih hs₁) fun _ _ _ => .pure _

/-- A block laid out for values of given types behind another one. -/
structure Follows (before : Block) (tys : List TypeRef) (b : Block) : Prop where
  offset_eq : b.offset = before.stop
  tiled : Tiled b.offset b.elems
  types_eq : b.elems.map Element.ty = tys

theorem after_ok {before b : Block} {values : List (TypeRef × String)} {l l' : Layout}
    (h : before.after values l = .ok (b, l')) : before.Follows (values.map Prod.fst) b ∧
      ∀ types, l.Sound types → l'.Sound types ∧ ∀ e ∈ b.elems, HasSize types e.ty e.size := by
  simp only [after, bind_ok, pure_ok] at h
  obtain ⟨elems, l₁, hplace, rfl, rfl⟩ := h
  obtain ⟨htiled, htypes, hsound⟩ := place_ok hplace
  exact ⟨⟨rfl, htiled, htypes⟩, hsound⟩

theorem after_clean {types : List TypeDef} {before : Block} {values : List (TypeRef × String)}
    {l : Layout} (hs : l.Sound types) : Clean (before.after values l) :=
  bind_clean (place_clean hs) fun _ _ _ => .pure _

theorem Follows.mem {before b : Block} {tys : List TypeRef} (h : before.Follows tys b) {e : Element}
    (he : e ∈ b.elems) : b.offset ≤ e.offset ∧ e.stop ≤ b.stop := h.tiled.mem he

end Block

namespace Frame

theorem numbered_types (name : String) (tys : List TypeRef) :
    (numbered name tys).map Prod.fst = tys := by
  simp [numbered, List.mapIdx_eq_zipIdx_map, Function.comp_def]

/-- A frame laid out for a method. -/
structure Laid (m : MethodDef) (f : Frame) : Prop where
  ret : Block.empty.Follows (if m.ret.isVoid then [] else [m.ret]) f.ret
  params : f.ret.Follows m.params f.params
  backup : f.params.Follows (if f.calls then [.primitive .nativeUInt] else []) f.backup
  locals : f.backup.Follows m.locals f.locals
  calls_eq : f.calls = m.code.any fun i => i.op.isCall
  stop_le : f.stop ≤ registerCount

/-- The values of a frame are as large as their types say. -/
def Sized (types : List TypeDef) (f : Frame) : Prop :=
  ∀ b ∈ [f.ret, f.params, f.backup, f.locals], ∀ e ∈ b.elems, HasSize types e.ty e.size

theorem build_ok {m : MethodDef} {l l' : Layout} {f : Frame} (h : build m l = .ok (f, l')) :
    f.Laid m ∧ ∀ types, l.Sound types → l'.Sound types ∧ f.Sized types := by
  simp only [build, bind_ok] at h
  obtain ⟨ret, l₁, hret, params, l₂, hparams, backup, l₃, hbackup, locals, l₄, hlocals, h⟩ := h
  obtain ⟨hr, hrs⟩ := Block.after_ok hret
  obtain ⟨hp, hps⟩ := Block.after_ok hparams
  obtain ⟨hb, hbs⟩ := Block.after_ok hbackup
  obtain ⟨hl, hls⟩ := Block.after_ok hlocals
  split at h
  · cases h
  · rename_i hstop
    obtain ⟨rfl, rfl⟩ := pure_ok.mp h
    refine ⟨⟨?_, ?_, ?_, ?_, rfl, Nat.not_lt.mp hstop⟩, fun types hs => ?_⟩
    · cases hv : m.ret.isVoid <;> simpa [hv] using hr
    · simpa only [numbered_types] using hp
    · cases hc : m.code.any fun i => i.op.isCall <;> simpa [hc] using hb
    · simpa only [numbered_types] using hl
    · obtain ⟨hs, hr⟩ := hrs types hs
      obtain ⟨hs, hp⟩ := hps types hs
      obtain ⟨hs, hb⟩ := hbs types hs
      obtain ⟨hs, hl⟩ := hls types hs
      exact ⟨hs, by simpa [Sized] using ⟨hr, hp, hb, hl⟩⟩

theorem build_clean {types : List TypeDef} {m : MethodDef} {l : Layout} (hs : l.Sound types) :
    Clean (build m l) := by
  refine bind_clean (Block.after_clean hs) fun ret l₁ hret => ?_
  have hs := ((Block.after_ok hret).2 types hs).1
  refine bind_clean (Block.after_clean hs) fun params l₂ hparams => ?_
  have hs := ((Block.after_ok hparams).2 types hs).1
  refine bind_clean (Block.after_clean hs) fun backup l₃ hbackup => ?_
  have hs := ((Block.after_ok hbackup).2 types hs).1
  refine bind_clean (Block.after_clean hs) fun locals l₄ _ => ?_
  split
  · exact .error id
  · exact .pure _

theorem Laid.hasWords_ret {types : List TypeDef} {m : MethodDef} {f : Frame} (hf : f.Laid m)
    (hs : f.Sized types) : HasWords types m.ret f.ret.words := by
  have htypes := hf.ret.types_eq
  have hsize : ∀ e ∈ f.ret.elems, HasSize types e.ty e.size := hs f.ret (by simp)
  cases hv : m.ret.isVoid with
  | true =>
    have hvoid : m.ret = .void := by
      unfold TypeRef.isVoid at hv
      split at hv
      · assumption
      · cases hv
    rw [hv, if_pos rfl, List.map_eq_nil_iff] at htypes
    exact ⟨.zero, hvoid ▸ .primitive .void, by rw [Block.words, htypes]; rfl⟩
  | false =>
    rw [hv, if_neg Bool.false_ne_true, List.map_eq_singleton_iff] at htypes
    obtain ⟨e, he, hty⟩ := htypes
    exact ⟨e.size, hty ▸ hsize e (by simp [he]), by rw [Block.words, he]; rfl⟩

theorem Laid.backupReg_ok {m : MethodDef} {f : Frame} (hf : f.Laid m) {o : Option Reg}
    (h : f.backupReg = .ok o) : (f.calls = false ∧ o = none) ∨
      ∃ r : Reg, f.calls = true ∧ o = some r ∧ r.index.val = f.backup.offset := by
  unfold backupReg at h
  cases hc : f.calls with
  | false =>
    rw [hc] at h
    cases h
    exact .inl ⟨rfl, rfl⟩
  | true =>
    rw [hc] at h
    cases hr : f.backup.reg 0 0 with
    | error fault =>
      rw [hr] at h
      cases h
    | ok r =>
      rw [hr] at h
      cases h
      obtain ⟨e, he, hoff⟩ := Block.reg_ok.mp hr
      have htiled := hf.backup.tiled
      cases helems : f.backup.elems with
      | nil => simp [helems] at he
      | cons x rest =>
        rw [helems] at he htiled
        cases he
        exact .inr ⟨r, rfl, rfl, hoff.trans htiled.1⟩

theorem Laid.backupReg_some {m : MethodDef} {f : Frame} (hf : f.Laid m) {r : Reg}
    (h : f.backupReg = .ok (some r)) : f.calls = true ∧ r.index.val = f.backup.offset := by
  rcases hf.backupReg_ok h with ⟨-, h⟩ | ⟨r', hcalls, h, hoffset⟩
  · cases h
  · cases h
    exact ⟨hcalls, hoffset⟩

end Frame

end CilMmix
