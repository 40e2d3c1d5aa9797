import CilMmix.Proofs.Simulation.Arrays

/-! What a program sees of an array while it stores and loads elements and asks for the count, in any order
and with any other code between. -/

namespace CilMmix

/-- An access to an array, and what came back from it. -/
inductive ArrayEvent where
  | stored (index : Nat) (value : Word)
  | loaded (width : Width) (index : Nat) (result : Word)
  | counted (result : Word)

namespace ArrayBlock

/-- The accesses to an array from one memory to another. Whatever else runs leaves its block alone. -/
inductive History (calls : String → Subroutine) (b : ArrayBlock) : Memory → List ArrayEvent → Memory → Prop
  | done (memory : Memory) : History calls b memory [] memory
  | elsewhere {memory memory' last : Memory} {events : List ArrayEvent} :
      (∀ x ∈ span b.address b.size, memory' x = memory x) → History calls b memory' events last →
      History calls b memory events last
  | store {site : Site} {w : Width} {i : Nat} {v : Word} {h h' : Host} {effects : List Host.Effect}
      {last : Memory} {events : List ArrayEvent}
      (r : Ready site (.stelem w) [v, BitVec.ofNat 64 i, b.data] h) :
      w.bytes = b.bytes → i < b.count → Host.run calls r.lines h = some (h', effects) →
      History calls b h'.memory events last → History calls b h.memory (.stored i v :: events) last
  | load {site : Site} {w : Width} {i : Nat} {h h' : Host} {e : Element} {effects : List Host.Effect}
      {last : Memory} {events : List ArrayEvent} (r : Ready site (.ldelem w) [BitVec.ofNat 64 i, b.data] h) :
      w.bytes = b.bytes → i < b.count → Host.run calls r.lines h = some (h', effects) →
      r.after.stack.elems.head? = some e → History calls b h'.memory events last →
      History calls b h.memory (.loaded w i (h'.regs e.offset) :: events) last
  | length {site : Site} {h h' : Host} {e : Element} {effects : List Host.Effect} {last : Memory}
      {events : List ArrayEvent} (r : Ready site .ldlen [b.data] h) :
      Host.run calls r.lines h = some (h', effects) → r.after.stack.elems.head? = some e →
      History calls b h'.memory events last →
      History calls b h.memory (.counted (h'.regs e.offset) :: events) last

/-- What comes back is what comes back from an array of words that holds at each index what was last stored
there, cut to the width and extended again. -/
def Conforms (b : ArrayBlock) : (Nat → Option Word) → List ArrayEvent → Prop
  | _, [] => True
  | content, .stored i v :: events => b.Conforms (Function.update content i (some v)) events
  | content, .loaded w i result :: events =>
      (∀ v, content i = some v → result = w.extended v) ∧ b.Conforms content events
  | content, .counted result :: events => result = BitVec.ofNat 64 b.count ∧ b.Conforms content events

/-- Memory with the count and the values that were stored so far. -/
structure Represents (b : ArrayBlock) (content : Nat → Option Word) (memory : Memory) : Prop where
  count_eq : memory.read b.address 8 = b.count
  element_eq : ∀ i < b.count, ∀ v, content i = some v →
    memory.read (b.element i) b.bytes = v.toNat % 256 ^ b.bytes

variable {calls : String → Subroutine} {b : ArrayBlock} {content : Nat → Option Word}
  {memory memory' last : Memory} {events : List ArrayEvent}

namespace Represents

theorem elsewhere (h : b.Represents content memory)
    (hkept : ∀ x ∈ span b.address b.size, memory' x = memory x) : b.Represents content memory' := by
  constructor
  · rw [← h.count_eq]
    exact Memory.read_congr fun x hx => hkept x (b.mem_block_of_mem_header hx)
  · intro i hi v hv
    rw [← h.element_eq i hi v hv]
    exact Memory.read_congr fun x hx => hkept x (b.mem_block_of_mem_data (b.mem_data_of_mem_element hi hx))

theorem store (h : b.Represents content memory) {i : Nat} (hi : i < b.count) (v : Word) :
    b.Represents (Function.update content i (some v)) (memory.write (b.element i) b.bytes v.toNat) := by
  constructor
  · rw [← h.count_eq]
    exact Memory.read_congr fun x hx => Memory.write_outside (b.header_apart hi hx) _
  · intro j hj u hu
    by_cases hji : j = i
    · subst hji
      rw [Function.update_self] at hu
      cases hu
      have hbytes := (elementBytes_bounds b.bytes_mem).2
      exact Memory.read_write (by omega) _
    · rw [Function.update_of_ne hji] at hu
      rw [← h.element_eq j hj u hu]
      exact Memory.read_congr fun x hx => Memory.write_outside (b.elements_apart hj hi hji hx) _

end Represents

/-- Along any accesses the memory holds what was stored last. -/
theorem History.conforms (hhistory : b.History calls memory events last)
    (h : b.Represents content memory) : b.Conforms content events := by
  -- The code of an access runs in one way only, so what the history saw is what was worked out.
  induction hhistory generalizing content with
  | done => trivial
  | elsewhere hkept _ ih => exact ih (h.elsewhere hkept)
  | store r hw hi hrun _ ih =>
    obtain ⟨m, hstore⟩ := r.run_storeElement calls hw
    cases hstore.symm.trans hrun
    exact ih (h.store hi _)
  | load r hw hi hrun he _ ih =>
    obtain ⟨m, e, hload, he', hresult⟩ := r.run_loadElement calls hw
    cases hload.symm.trans hrun
    cases he'.symm.trans he
    exact ⟨fun v hv => hresult v (h.element_eq _ hi v hv), ih h⟩
  | length r hrun he _ ih =>
    obtain ⟨m, e, hlength, he', hresult⟩ := r.run_length calls
    cases hlength.symm.trans hrun
    cases he'.symm.trans he
    exact ⟨hresult h.count_eq, ih h⟩

/-- A block of memory that serves as an array: its elements lie apart from each other and from the count,
each access runs and touches one of them, and what is stored comes back. -/
structure Serves (calls : String → Subroutine) (b : ArrayBlock) (memory : Memory) : Prop where
  inside : ∀ i < b.count, ∀ x ∈ b.elementSpan i, x ∈ span b.data (b.count * b.bytes)
  apart : ∀ i < b.count, ∀ j < b.count, i ≠ j → ∀ x ∈ b.elementSpan i, x ∉ b.elementSpan j
  stores : ∀ {site w i v h} (r : Ready site (.stelem w) [v, BitVec.ofNat 64 i, b.data] h),
    w.bytes = b.bytes → ∃ h', Host.run calls r.lines h = some (h', [.writes (b.elementSpan i)]) ∧
      ∀ x ∉ b.elementSpan i, h'.memory x = h.memory x
  loads : ∀ {site w i h} (r : Ready site (.ldelem w) [BitVec.ofNat 64 i, b.data] h),
    w.bytes = b.bytes → ∃ h', Host.run calls r.lines h = some (h', [.reads (b.elementSpan i)]) ∧
      h'.memory = h.memory
  counts : ∀ {site h} (r : Ready site .ldlen [b.data] h),
    ∃ h', Host.run calls r.lines h = some (h', [.reads (span b.address 8)]) ∧ h'.memory = h.memory
  conforms : ∀ events last, b.History calls memory events last → b.Conforms (fun _ => none) events

/-- The count alone makes a block an array. -/
theorem serves (calls : String → Subroutine) (h : memory.read b.address 8 = b.count) :
    b.Serves calls memory where
  inside _ hi _ hx := b.mem_data_of_mem_element hi hx
  apart _ hi _ hj hne _ hx := b.elements_apart hi hj hne hx
  stores r hw := by
    obtain ⟨m, hrun⟩ := r.run_storeElement calls hw
    exact ⟨_, hrun, fun x hx => Memory.write_outside hx _⟩
  loads r hw := by
    obtain ⟨m, e, hrun, -⟩ := r.run_loadElement calls hw
    exact ⟨_, hrun, rfl⟩
  counts r := by
    obtain ⟨m, e, hrun, -⟩ := r.run_length calls
    exact ⟨_, hrun, rfl⟩
  conforms events last hhistory := by
    have hempty : b.Represents (fun _ => none) memory := ⟨h, fun _ _ _ hv => by cases hv⟩
    exact hhistory.conforms hempty

end ArrayBlock

namespace Ready

/-- The code of a new array asks for its block, and from then on each element holds what was last stored
there, whatever else is stored elsewhere, and the count stays what it was. -/
theorem array_round_trip {calls : String → Subroutine} {site : Site} {h : Host} {elem : TypeRef} {n : Nat}
    {types : List TypeDef} {size : Size} (r : Ready site (.newarr elem) [BitVec.ofNat 64 n] h)
    (hlayout : r.before.layout.Sound types) (hsize : HasSize types elem size)
    (hbytes : size.bytes ∈ elementBytes) (hn : n * size.bytes + 8 < 2 ^ 64)
    (hmalloc : (calls "malloc").Allocates (n * size.bytes + 8)) :
    ∃ b h' array, b.bytes = size.bytes ∧ r.Creates calls b h' array ∧ b.Serves calls h'.memory := by
  obtain ⟨b, h', array, hb, hcreates⟩ := r.run_newArray hlayout hsize hbytes hn hmalloc
  exact ⟨b, h', array, hb, hcreates, b.serves calls (hcreates.stored.trans hcreates.count_eq.symm)⟩

theorem exists_of_code {site : Site} {op : Op} {s : LowerState} {values : List Word} (h : Host)
    (hcode : (Lower.instruction site ⟨0, op⟩ s).toBool = true)
    (hs : Shape.Stacked s.stack.base (shape s.stack.elems))
    (hheld : values <+: s.stack.elems.map fun e => h.regs e.offset) :
    ∃ r : Ready site op values h, r.before = s := by
  obtain ⟨⟨lines, after⟩, hok⟩ := exists_of_toBool hcode
  exact ⟨⟨0, s, after, lines, hok, hs, hheld⟩, rfl⟩

def bareSite : Site := ⟨⟨.empty, .empty, .empty, .empty, true⟩, "shorts", false⟩

/-- Operands in a module without types. -/
def withOperands (elems : List Element) : LowerState := ⟨.ofModule ⟨"shorts", []⟩, ⟨0, elems⟩⟩

def number (offset : Nat) : Element := ⟨offset, ⟨4⟩, .primitive .int32, none⟩

/-- An array and an index. -/
def indexed : List Element := [number 2, ⟨0, .ofWords 2, .array (.primitive .int16), none⟩]

/-- A machine with a count or an array in its first register. -/
def holding (first : Word) (memory : Memory) : Host :=
  ⟨⟨fun k => if k = 0 then first else if k = 2 then 2 else 0x1ffff, fun _ => 0⟩, memory⟩

/-- Hands out one block. -/
def onePage : String → Subroutine := fun _ _ memory => ⟨fun _ => 4096, 1, fun _ => 0, memory⟩

/-- An array of three numbers of two bytes takes up fourteen bytes, and the low half of a number in it comes
back with its sign. -/
theorem array_round_trip_shorts :
    ∃ (r : Ready bareSite (.newarr (.primitive .int16)) [BitVec.ofNat 64 3] (holding 3 fun _ => 0))
      (b : ArrayBlock) (h' : Host) (array : Element) (last : Memory),
      b.size = 14 ∧ r.Creates onePage b h' array ∧ b.Serves onePage h'.memory ∧
      b.History onePage h'.memory [.stored 2 0x1ffff, .loaded .i2 2 (-1)] last := by
  have hcounted : Shape.Stacked 0 (shape [number 0]) := ⟨by decide, by decide, by decide, trivial⟩
  have hindexed : Shape.Stacked 0 (shape indexed) :=
    ⟨by decide, by decide, by decide, by decide, by decide, by decide, trivial⟩
  have hstored : Shape.Stacked 0 (shape (number 3 :: indexed)) := ⟨by decide, by decide, by decide, hindexed⟩
  obtain ⟨r, hr⟩ : ∃ r : Ready bareSite (.newarr (.primitive .int16)) [BitVec.ofNat 64 3]
      (holding 3 fun _ => 0), r.before = withOperands [number 0] :=
    exists_of_code _ (by decide +kernel) hcounted ⟨[], rfl⟩
  have hlayout : r.before.layout.Sound [] := by
    rw [hr]
    exact Layout.sound_ofModule ⟨"shorts", []⟩
  have hmalloc : (onePage "malloc").Allocates (3 * 2 + 8) := fun _ _ _ =>
    ⟨rfl, show (4096 : Word).toNat % 8 = 0 by decide, fun _ _ => rfl⟩
  obtain ⟨b, h', array, hbytes, hcreates, hserves⟩ :=
    r.array_round_trip hlayout (.primitive .int16) (by decide) (by decide) hmalloc
  have hw : Width.i2.bytes = b.bytes := hbytes.symm
  have hi : 2 < b.count := by
    rw [hcreates.count_eq]
    decide
  obtain ⟨store, -⟩ : ∃ r : Ready bareSite (.stelem .i2) [0x1ffff, BitVec.ofNat 64 2, b.data]
      (holding b.data h'.memory), r.before = withOperands (number 3 :: indexed) :=
    exists_of_code _ (by decide +kernel) hstored ⟨[], rfl⟩
  obtain ⟨m, hstore⟩ := store.run_storeElement onePage hw
  obtain ⟨load, -⟩ : ∃ r : Ready bareSite (.ldelem .i2) [BitVec.ofNat 64 2, b.data]
      (holding b.data (h'.memory.write (b.element 2) b.bytes 0x1ffff)), r.before = withOperands indexed :=
    exists_of_code _ (by decide +kernel) hindexed ⟨[], rfl⟩
  obtain ⟨m', e, hload, he, -⟩ := load.run_loadElement onePage hw
  have hlast := ArrayBlock.History.load load hw hi hload he (.done _)
  have hhistory := ArrayBlock.History.store store hw hi hstore hlast
  obtain ⟨hresult, -⟩ := hserves.conforms _ _ hhistory
  have hsign : Width.i2.extended 0x1ffff = -1 := by decide
  rw [hresult _ (Function.update_self ..), hsign] at hhistory
  refine ⟨r, b, h', array, _, ?_, hcreates, hserves, hhistory⟩
  rw [ArrayBlock.size, hcreates.count_eq, hbytes]
  decide

end Ready

end CilMmix
