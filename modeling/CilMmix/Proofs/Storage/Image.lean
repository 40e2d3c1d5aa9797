import CilMmix.Proofs.Storage.Allocation

/-! The bytes that the directives of an assembly put into memory. The data segment has for each allocation
the bytes it stands for: a literal its text, a static field zeros. -/

namespace CilMmix

/-- Memory that is being filled: where the next byte goes, and the bytes so far. -/
structure Image where
  location : Nat := 0
  bytes : Nat → Option UInt8 := fun _ => none

namespace Image

def put (im : Image) (bs : List UInt8) : Image where
  location := im.location + bs.length
  bytes x := if im.location ≤ x ∧ x < im.location + bs.length then bs[x - im.location]? else im.bytes x

/-- Full words begin where a word can begin. -/
def align (im : Image) : Image := { im with location := (Address.alignUp ⟨im.location⟩).raw }

/-- The bytes of a word, the highest first. -/
def wordOf (n : Nat) : List UInt8 := (List.range wordBytes).reverse.map fun k => .ofNat (n >>> (8 * k))

end Image

/-- The number that an operand of a directive stands for. -/
def Operand.number : Operand → Nat
  | imm n | hex _ n => n
  | sym name => if name = "Data_Segment" then Address.dataSegment.raw else 0
  | reg _ => 0

namespace Image

/-- What a line puts into memory, if it is a directive. -/
def directive (im : Image) : Line → Image
  | .op _ .loc [o] => { im with location := o.number }
  | .op _ .octa operands => im.align.put (operands.flatMap fun o => wordOf o.number)
  | .op _ .byte operands => im.put (operands.map fun o => .ofNat o.number)
  | _ => im

/-- The directives among lines, one after the other. -/
def read (im : Image) (lines : List Line) : Image := lines.foldl directive im

theorem read_append (im : Image) (a b : List Line) : im.read (a ++ b) = (im.read a).read b :=
  List.foldl_append

theorem put_nil (im : Image) : im.put [] = im := by
  obtain ⟨location, bytes⟩ := im
  have hbytes : (fun x => if location ≤ x ∧ x < location + 0 then ([] : List UInt8)[x - location]?
      else bytes x) = bytes := by
    funext x
    exact if_neg (by omega)
  show Image.mk (location + 0) _ = _
  rw [Nat.add_zero]
  exact congrArg _ hbytes

theorem put_append (im : Image) (a b : List UInt8) : im.put (a ++ b) = (im.put a).put b := by
  obtain ⟨location, bytes⟩ := im
  simp only [put, List.length_append, mk.injEq, Nat.add_assoc, true_and]
  funext x
  by_cases hb : location + a.length ≤ x ∧ x < location + (a.length + b.length)
  · have hindex : x - location - a.length = x - (location + a.length) := by omega
    rw [if_pos hb, if_pos (by omega), List.getElem?_append_right (by omega), hindex]
  · rw [if_neg hb]
    by_cases ha : location ≤ x ∧ x < location + a.length
    · rw [if_pos ha, if_pos (by omega), List.getElem?_append_left (by omega)]
    · rw [if_neg ha, if_neg (by omega)]

theorem put_bytes {im : Image} {bs : List UInt8} {x k : Nat} (hx : x = im.location + k)
    (hk : k < bs.length) : (im.put bs).bytes x = bs[k]? := by
  have hindex : x - im.location = k := by omega
  show (if im.location ≤ x ∧ x < im.location + bs.length then bs[x - im.location]? else im.bytes x) = _
  rw [if_pos (by omega), hindex]

theorem put_bytes_outside {im : Image} {bs : List UInt8} {x : Nat}
    (hx : x < im.location ∨ im.location + bs.length ≤ x) : (im.put bs).bytes x = im.bytes x :=
  if_neg (by omega)

/-- Lines of bytes are the bytes, whatever the line they are on. -/
theorem read_byteLines (im : Image) (bs : List UInt8) : im.read (Statics.byteLines bs) = im.put bs := by
  induction hn : bs.length using Nat.strongRecOn generalizing im bs with
  | ind n ih =>
    cases bs with
    | nil => rw [Statics.byteLines, put_nil, read, List.foldl_nil]
    | cons b rest =>
      have hline : ((b :: rest).take Statics.bytesPerLine).map
          (fun b => UInt8.ofNat (Operand.hex 2 b.toNat).number) =
          (b :: rest).take Statics.bytesPerLine := by
        simp [Operand.number]
      have hshort : ((b :: rest).drop Statics.bytesPerLine).length < n := by
        rw [List.length_drop, hn, Statics.bytesPerLine]
        have hpos : 0 < (b :: rest).length := Nat.succ_pos _
        omega
      rw [Statics.byteLines, read, List.foldl_cons]
      show read (im.put (((((b :: rest).take Statics.bytesPerLine).map
        fun b => Operand.hex 2 b.toNat)).map fun o => UInt8.ofNat o.number)) _ = _
      rw [List.map_map, Function.comp_def, hline, ih _ hshort _ _ rfl, ← put_append,
        List.take_append_drop]

theorem align_of_mod {im : Image} (h : im.location % wordBytes = 0) : im.align = im := by
  have hraw : (Address.alignUp ⟨im.location⟩).raw = im.location := by
    simp only [Address.alignUp, wordBytes] at h ⊢
    omega
  rw [align, hraw]

theorem flatMap_zero_words (count : Nat) :
    (List.replicate count (Operand.imm 0)).flatMap (fun o => wordOf o.number) =
      List.replicate (count * wordBytes) 0 := by
  have hword : wordOf (Operand.imm 0).number = List.replicate wordBytes 0 := by decide
  induction count with
  | zero => rfl
  | succ count ih =>
    rw [List.replicate_succ, List.flatMap_cons, ih, hword, ← List.replicate_add]
    congr 1
    rw [Nat.succ_mul, Nat.add_comm]

end Image

namespace Allocation

/-- The bytes that the data segment has for an allocation. -/
def bytes (a : Allocation) : List UInt8 :=
  match a.key with
  | .literal text => List.replicate (2 * wordBytes) 0 ++ Statics.paddedBytes text
  | .field _ => List.replicate (max a.size.words 1 * wordBytes) 0

theorem bytes_of_literal {a : Allocation} {text : String} (h : a.key = .literal text) :
    a.bytes = List.replicate (2 * wordBytes) 0 ++ Statics.paddedBytes text := by
  rw [bytes, h]

theorem bytes_of_field {a : Allocation} {id : String} (h : a.key = .field id) :
    a.bytes = List.replicate (max a.size.words 1 * wordBytes) 0 := by
  rw [bytes, h]

/-- Every allocation begins with a word of zeros. -/
theorem exists_bytes_eq (a : Allocation) : ∃ more, a.bytes = List.replicate wordBytes 0 ++ more := by
  cases hkey : a.key with
  | literal text =>
    refine ⟨List.replicate wordBytes 0 ++ Statics.paddedBytes text, ?_⟩
    rw [bytes_of_literal hkey, ← List.append_assoc, ← List.replicate_add, Nat.two_mul]
  | field id =>
    refine ⟨List.replicate ((max a.size.words 1 - 1) * wordBytes) 0, ?_⟩
    rw [bytes_of_field hkey, ← List.replicate_add]
    congr 1
    rw [Nat.sub_mul, Nat.one_mul]
    have hle : 1 * wordBytes ≤ max a.size.words 1 * wordBytes :=
      Nat.mul_le_mul_right _ (Nat.le_max_right ..)
    omega

/-- The bytes fill the storage, but a field without words has a word of zeros. -/
theorem bytes_cases (a : Allocation)
    (hsize : ∀ text, a.key = .literal text → a.size = Statics.literalSize text) :
    a.bytes.length = a.size.roundedBytes ∨
      a.size.roundedBytes = 0 ∧ a.bytes = List.replicate wordBytes 0 := by
  cases hkey : a.key with
  | literal text =>
    left
    have hbytes : (Statics.literalSize text).bytes =
        (2 + (⟨(Statics.textBytes text).length + 1⟩ : Size).words) * wordBytes := rfl
    rw [bytes_of_literal hkey, hsize text hkey, Statics.paddedBytes]
    simp only [List.length_append, List.length_replicate, List.length_singleton, Size.roundedBytes,
      Size.words, wordBytes] at hbytes ⊢
    omega
  | field id =>
    rw [bytes_of_field hkey, List.length_replicate]
    by_cases hzero : a.size.words = 0
    · right
      rw [Size.roundedBytes, hzero, Nat.zero_mul]
      exact ⟨rfl, rfl⟩
    · left
      rw [Nat.max_eq_left (by omega), Size.roundedBytes]

end Allocation

namespace Image

variable {im : Image} {a : Allocation}

/-- The bytes from an address on. -/
def Holds (im : Image) (address : Nat) (bs : List UInt8) : Prop :=
  ∀ k < bs.length, im.bytes (address + k) = bs[k]?

theorem holds_append {address : Nat} {a b : List UInt8} : im.Holds address (a ++ b) ↔
    im.Holds address a ∧ im.Holds (address + a.length) b := by
  constructor
  · intro h
    refine ⟨fun k hk => ?_, fun k hk => ?_⟩
    · rw [h k (by rw [List.length_append]; omega), List.getElem?_append_left hk]
    · rw [Nat.add_assoc, h _ (by rw [List.length_append]; omega),
        List.getElem?_append_right (Nat.le_add_right ..), Nat.add_sub_cancel_left]
  · rintro ⟨ha, hb⟩ k hk
    by_cases hlt : k < a.length
    · rw [ha k hlt, List.getElem?_append_left hlt]
    · have hk' : k - a.length < b.length := by
        rw [List.length_append] at hk
        omega
      have hindex : address + k = address + a.length + (k - a.length) := by omega
      rw [hindex, hb _ hk', List.getElem?_append_right (by omega)]

/-- The lines of an allocation put its bytes at its address. -/
theorem read_allocationLines (im : Image) (hzero : a.initial = 0)
    (haligned : a.address.raw % wordBytes = 0) :
    im.read (Statics.allocationLines a) = { im with location := a.address.raw }.put a.bytes := by
  have hstart : ({ im with location := a.address.raw } : Image).align =
      { im with location := a.address.raw } := align_of_mod haligned
  cases hkey : a.key with
  | literal text =>
    have hheader : ([Operand.imm 0, .imm 0].flatMap fun o => wordOf o.number) =
        List.replicate (2 * wordBytes) 0 := flatMap_zero_words 2
    rw [Allocation.bytes_of_literal hkey, put_append, ← read_byteLines, ← hheader]
    conv_rhs => rw [← hstart]
    simp only [Statics.allocationLines, hkey]
    rfl
  | field id =>
    rw [Allocation.bytes_of_field hkey, ← flatMap_zero_words]
    conv_rhs => rw [← hstart]
    simp only [Statics.allocationLines, hkey, hzero]
    rfl

variable {start stop : Nat} {list : List Allocation}

theorem mod_of_adjoining (h : a.address.raw = start) (haligned : start % wordBytes = 0) :
    a.address.raw % wordBytes = 0 ∧ a.stop % wordBytes = 0 := by
  simp only [Allocation.stop, Size.roundedBytes, wordBytes] at haligned ⊢
  omega

/-- Allocations leave alone what is below them. -/
theorem read_below (h : Allocation.Adjoining start list stop) (hzero : ∀ a ∈ list, a.initial = 0)
    (haligned : start % wordBytes = 0) {x : Nat} (hx : x < start) (im : Image) :
    (im.read (list.flatMap Statics.allocationLines)).bytes x = im.bytes x := by
  induction list generalizing start im with
  | nil => rfl
  | cons a list ih =>
    obtain ⟨haddress, hrest⟩ := h
    obtain ⟨ha, hstop⟩ := mod_of_adjoining haddress haligned
    have hle : a.address.raw ≤ a.stop := Nat.le_add_right ..
    rw [List.flatMap_cons, read_append, read_allocationLines im (hzero a List.mem_cons_self) ha,
      ih hrest (fun b hb => hzero b (List.mem_cons_of_mem _ hb)) hstop (by omega)]
    exact put_bytes_outside (.inl (by show x < a.address.raw; omega))

/-- A word of zeros stays one when allocations begin there: every one of them begins with such a word. -/
theorem read_zeros (h : Allocation.Adjoining start list stop) (hzero : ∀ a ∈ list, a.initial = 0)
    (haligned : start % wordBytes = 0) {im : Image}
    (him : im.Holds start (List.replicate wordBytes 0)) :
    (im.read (list.flatMap Statics.allocationLines)).Holds start (List.replicate wordBytes 0) := by
  induction list generalizing start im with
  | nil => exact him
  | cons a list ih =>
    obtain ⟨haddress, hrest⟩ := h
    obtain ⟨ha, hstop⟩ := mod_of_adjoining haddress haligned
    obtain ⟨more, hmore⟩ := a.exists_bytes_eq
    have hzero' : ∀ b ∈ list, b.initial = 0 := fun b hb => hzero b (List.mem_cons_of_mem _ hb)
    rw [List.flatMap_cons, read_append, read_allocationLines im (hzero a List.mem_cons_self) ha]
    have hput : ({ im with location := a.address.raw }.put a.bytes).Holds start
        (List.replicate wordBytes 0) := by
      have hall : ({ im with location := a.address.raw }.put a.bytes).Holds a.address.raw a.bytes :=
        fun k hk => put_bytes rfl hk
      rw [hmore, haddress] at hall
      rw [hmore, haddress]
      exact (holds_append.mp hall).1
    by_cases hempty : a.stop = start
    · exact ih (hempty ▸ hrest) hzero' haligned hput
    · intro k hk
      have hlt : start + k < a.stop := by
        rw [List.length_replicate] at hk
        simp only [Allocation.stop, Size.roundedBytes, wordBytes] at hempty hk ⊢
        omega
      rw [read_below hrest hzero' hstop hlt]
      exact hput k hk

/-- An allocation has its bytes in the end. Those after it begin where its storage ends, and one without
storage has the zeros that the next begins with. -/
theorem read_holds (h : Allocation.Adjoining start list stop) (hzero : ∀ a ∈ list, a.initial = 0)
    (haligned : start % wordBytes = 0)
    (hsize : ∀ a ∈ list, ∀ text, a.key = .literal text → a.size = Statics.literalSize text)
    (ha : a ∈ list) (im : Image) :
    (im.read (list.flatMap Statics.allocationLines)).Holds a.address.raw a.bytes := by
  induction list generalizing start im with
  | nil => cases ha
  | cons b list ih =>
    obtain ⟨haddress, hrest⟩ := h
    obtain ⟨hb, hstop⟩ := mod_of_adjoining haddress haligned
    have hzero' : ∀ b ∈ list, b.initial = 0 := fun b hb => hzero b (List.mem_cons_of_mem _ hb)
    rw [List.flatMap_cons, read_append]
    rcases List.mem_cons.mp ha with rfl | hmem
    · rw [read_allocationLines im (hzero a List.mem_cons_self) hb]
      have hput : ({ im with location := a.address.raw }.put a.bytes).Holds a.address.raw a.bytes :=
        fun k hk => put_bytes rfl hk
      rcases a.bytes_cases (hsize a List.mem_cons_self) with hlength | ⟨hnone, hbytes⟩
      · intro k hk
        rw [read_below hrest hzero' hstop (by rw [Allocation.stop, ← hlength]; omega)]
        exact hput k hk
      · have hempty : a.stop = a.address.raw := by rw [Allocation.stop, hnone, Nat.add_zero]
        rw [hbytes] at hput ⊢
        exact read_zeros (hempty ▸ hrest) hzero' hb hput
    · exact ih hrest hzero' hstop (fun c hc => hsize c (List.mem_cons_of_mem _ hc)) hmem _

end Image

/-- The data segment of static storage has the bytes of all its allocations. -/
theorem Statics.Sound.holds {P : String → Size → Prop} {s : Statics} (hs : s.Sound P) {a : Allocation}
    (ha : a ∈ s.allocations) (im : Image) : (im.read s.lines).Holds a.address.raw a.bytes :=
  Image.read_holds hs.adjoining hs.initial (by decide) hs.literal ha _

theorem Statics.Sound.mod_address {P : String → Size → Prop} {s : Statics} (hs : s.Sound P)
    {a : Allocation} (ha : a ∈ s.allocations) : a.address.raw % wordBytes = 0 := by
  obtain ⟨before, after, hsplit⟩ := List.append_of_mem ha
  have hadjoining := hs.adjoining
  rw [hsplit] at hadjoining
  obtain ⟨middle, hbefore, haddress, -⟩ := Allocation.Adjoining.append_iff.mp hadjoining
  rw [haddress]
  exact hbefore.mod_stop (by decide)

/-- A text at an address: two words of zeros before it, its bytes, and zeros to the end of the word in
which it ends. -/
structure Image.HasText (im : Image) (address : Nat) (text : String) : Prop where
  header : ∀ x, address ≤ x + 2 * wordBytes → x < address → im.bytes x = some 0
  content : im.Holds address (Statics.textBytes text)
  rest : ∀ x, address + (Statics.textBytes text).length ≤ x →
    x < ((address + (Statics.textBytes text).length) / wordBytes + 1) * wordBytes → im.bytes x = some 0

theorem Image.Holds.eq_zero {im : Image} {address n x : Nat}
    (h : im.Holds address (List.replicate n 0)) (hle : address ≤ x) (hlt : x < address + n) :
    im.bytes x = some 0 := by
  have hk := h (x - address) (by rw [List.length_replicate]; omega)
  rw [List.getElem?_replicate, if_pos (by omega)] at hk
  rwa [Nat.add_sub_cancel' hle] at hk

theorem Image.hasText_of_holds {im : Image} {a : Allocation} {text : String}
    (hkey : a.key = .literal text) (haligned : a.address.raw % wordBytes = 0)
    (h : im.Holds a.address.raw a.bytes) :
    im.HasText (a.address.add Statics.headerSize).raw text := by
  have haddress : (a.address.add Statics.headerSize).raw = a.address.raw + 2 * wordBytes := rfl
  rw [Allocation.bytes_of_literal hkey, Statics.paddedBytes, holds_append, holds_append, holds_append,
    List.length_replicate] at h
  obtain ⟨hheader, ⟨htext, hend⟩, hrest⟩ := h
  rw [haddress]
  refine ⟨fun x hle hlt => hheader.eq_zero (by omega) hlt, htext, fun x hle hlt => ?_⟩
  by_cases hfirst : x = a.address.raw + 2 * wordBytes + (Statics.textBytes text).length
  · exact hend.eq_zero (n := 1) (by omega) (by omega)
  · refine hrest.eq_zero ?_ ?_ <;>
      simp only [List.length_append, List.length_singleton, Size.roundedBytes, Size.words, wordBytes]
        at hlt hle hfirst haligned ⊢ <;>
      omega

end CilMmix
