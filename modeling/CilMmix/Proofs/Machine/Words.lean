import CilMmix.Assembly.Immediate
import CilMmix.Proofs.Machine.Constant
import CilMmix.Proofs.Machine.Memory

/-! Whole words in memory, and the code that moves them one by one. -/

namespace CilMmix

namespace Word

/-- The address so many words further on. -/
def skip (a : Word) (words : Nat) : Word := a + BitVec.ofNat 64 (words * wordBytes)

@[simp] theorem skip_zero (a : Word) : a.skip 0 = a := by
  rw [skip, Nat.zero_mul, BitVec.add_zero]

theorem skip_skip (a : Word) (i j : Nat) : (a.skip i).skip j = a.skip (i + j) := by
  rw [skip, skip, skip, BitVec.add_assoc, ← BitVec.ofNat_add, Nat.add_mul]

/-- Addresses wrap around at a multiple of the size of a word. -/
theorem toNat_skip_mod {a : Word} (h : a.toNat % 8 = 0) (i : Nat) : (a.skip i).toNat % 8 = 0 := by
  rw [skip, BitVec.toNat_add, BitVec.toNat_ofNat, wordBytes]
  omega

theorem aligned_skip {a : Word} (h : a.toNat % 8 = 0) (i : Nat) : (a.skip i).aligned 8 = a.skip i :=
  aligned_eight (toNat_skip_mod h i)

theorem mem_span_of_skip {a x : Word} {i n : Nat} (h : i < n) (hx : x ∈ span (a.skip i) wordBytes) :
    x ∈ span a (n * wordBytes) := by
  refine mem_span_of_part ?_ hx
  rw [← Nat.succ_mul]
  exact Nat.mul_le_mul_right _ h

theorem skip_apart {a x : Word} {i j : Nat} (hi : (i + 1) * wordBytes ≤ 2 ^ 64)
    (hj : (j + 1) * wordBytes ≤ 2 ^ 64) (hij : i ≠ j) (hx : x ∈ span (a.skip i) wordBytes) :
    x ∉ span (a.skip j) wordBytes := by
  have hx : x ∈ span (a + BitVec.ofNat 64 (i * 8)) 8 := hx
  rw [wordBytes] at hi hj
  refine not_mem_span_of_part ?_ (by omega) (by rw [wordBytes]; omega) hx
  rw [wordBytes]
  omega

end Word

namespace Memory

def word (m : Memory) (a : Word) : Word := BitVec.ofNat 64 (m.read a wordBytes)

def words (m : Memory) (a : Word) (n : Nat) : List Word := (List.range n).map fun j => m.word (a.skip j)

/-- Puts words at their distances from an address. -/
def put (m : Memory) (a : Word) (v : Nat → Word) (distances : List Nat) : Memory :=
  distances.foldl (fun m j => m.write (a.skip j) wordBytes (v j).toNat) m

variable {m m' : Memory} {a : Word} {n : Nat}

theorem read_lt (m : Memory) (a : Word) (n : Nat) : m.read a n < 256 ^ n := by
  induction n with
  | zero => exact Nat.one_pos
  | succ n ih =>
    have hbyte := (m (a + BitVec.ofNat 64 n)).isLt
    rw [read, pow_succ]
    omega

/-- The bytes of a number come before those of the rest. -/
theorem read_add (m : Memory) (a : Word) (n k : Nat) :
    m.read a (n + k) = m.read a n * 256 ^ k + m.read (a + BitVec.ofNat 64 n) k := by
  induction k with
  | zero => simp [read]
  | succ k ih =>
    have hplace : a + BitVec.ofNat 64 (n + k) = a + BitVec.ofNat 64 n + BitVec.ofNat 64 k := by
      rw [BitVec.add_assoc, ← BitVec.ofNat_add]
    rw [← Nat.add_assoc, read, ih, hplace, read, pow_succ, Nat.add_mul, Nat.mul_assoc, Nat.add_assoc]

theorem toNat_word (m : Memory) (a : Word) : (m.word a).toNat = m.read a wordBytes := by
  rw [word, BitVec.toNat_ofNat]
  exact Nat.mod_eq_of_lt (m.read_lt a wordBytes)

/-- The first bytes of a word are its most significant ones. -/
theorem read_first (h : n ≤ wordBytes) : m.read a n = (m.word a).toNat / 256 ^ (wordBytes - n) := by
  have hpos : 0 < 256 ^ (wordBytes - n) := Nat.pow_pos (by decide)
  have hrest := m.read_lt (a + BitVec.ofNat 64 n) (wordBytes - n)
  have hsplit := m.read_add a n (wordBytes - n)
  rw [Nat.add_sub_cancel' h] at hsplit
  rw [toNat_word, hsplit, Nat.mul_comm, Nat.mul_add_div hpos, Nat.div_eq_of_lt hrest, Nat.add_zero]

/-- A number that is put into the first bytes of a word leaves the others. -/
theorem word_write_first (h : n ≤ wordBytes) (v : Nat) : ((m.write a n v).word a).toNat =
    v % 256 ^ n * 256 ^ (wordBytes - n) + (m.word a).toNat % 256 ^ (wordBytes - n) := by
  have hsmall : wordBytes ≤ 2 ^ 64 := by decide
  have hothers : (m.write a n v).read (a + BitVec.ofNat 64 n) (wordBytes - n) =
      m.read (a + BitVec.ofNat 64 n) (wordBytes - n) := by
    refine read_congr fun x hx => write_outside ?_ v
    have happart : x ∉ span (a + BitVec.ofNat 64 0) n :=
      not_mem_span_of_part (by omega) (by omega) (by omega) hx
    rwa [BitVec.add_zero] at happart
  have hsplit := (m.write a n v).read_add a n (wordBytes - n)
  have hbefore := m.read_add a n (wordBytes - n)
  rw [Nat.add_sub_cancel' h] at hsplit hbefore
  rw [toNat_word, toNat_word, hsplit, hothers, read_write (Nat.le_trans h hsmall), hbefore,
    Nat.mul_comm (m.read a n), Nat.mul_add_mod, Nat.mod_eq_of_lt (m.read_lt ..)]

theorem word_congr (h : ∀ x ∈ span a wordBytes, m x = m' x) : m.word a = m'.word a := by
  rw [word, word, read_congr h]

theorem word_write (m : Memory) (a v : Word) : (m.write a wordBytes v.toNat).word a = v := by
  have hlt : v.toNat < 256 ^ wordBytes := v.isLt
  rw [word, read_write (by decide), Nat.mod_eq_of_lt hlt, BitVec.ofNat_toNat, BitVec.setWidth_eq]

theorem put_outside {v : Nat → Word} {distances : List Nat} {x : Word}
    (hx : ∀ j ∈ distances, x ∉ span (a.skip j) wordBytes) : m.put a v distances x = m x := by
  induction distances generalizing m with
  | nil => rfl
  | cons j distances ih =>
    obtain ⟨hj, hrest⟩ := List.forall_mem_cons.mp hx
    exact (ih hrest).trans (write_outside hj _)

theorem word_put {v : Nat → Word} {distances : List Nat} {j : Nat} (hj : j ∈ distances)
    (hfit : ∀ i ∈ distances, (i + 1) * wordBytes ≤ 2 ^ 64) :
    (m.put a v distances).word (a.skip j) = v j := by
  induction distances generalizing m with
  | nil => cases hj
  | cons i distances ih =>
    obtain ⟨hi, hrest⟩ := List.forall_mem_cons.mp hfit
    by_cases hmem : j ∈ distances
    · exact ih hmem hrest
    · -- The word is written here, and none of those after it goes to the same place.
      obtain rfl : j = i := (List.mem_cons.mp hj).resolve_right hmem
      have hlater : ∀ x ∈ span (a.skip j) wordBytes, m.put a v (j :: distances) x =
          m.write (a.skip j) wordBytes (v j).toNat x := by
        intro x hx
        refine put_outside (m := m.write (a.skip j) wordBytes (v j).toNat) fun k hk => ?_
        have hne : j ≠ k := fun he => hmem (he ▸ hk)
        exact Word.skip_apart hi (hrest k hk) hne hx
      rw [word_congr hlater, word_write]

theorem words_put {v : Nat → Word} (hfit : n * wordBytes ≤ 2 ^ 64) :
    (m.put a v (List.range n)).words a n = (List.range n).map v := by
  refine List.map_congr_left fun j hj => word_put hj fun i hi => ?_
  have hle := Nat.mul_le_mul_right wordBytes (List.mem_range.mp hi)
  exact Nat.le_trans hle hfit

end Memory

/-- A number that is small is in the operand itself, and any other one in the scratch register. -/
theorem run_immediate_eq {value scratch : Nat} {before : List Line} {operand : Operand}
    (h : immediate value scratch = .ok (before, operand)) (m : Machine) :
    ∃ m', run before m = (m', .fall) ∧ operand.value m' = some (BitVec.ofNat 64 value) ∧
      m' = if value ≤ maxImmediate then m else m.set scratch (BitVec.ofNat 64 value) := by
  unfold immediate at h
  split at h
  · rename_i hle
    cases h
    exact ⟨m, rfl, rfl, (if_pos hle).symm⟩
  · rename_i hgt
    simp only [bind_eq_ok, pure_eq_ok, Reg.ofIndex_eq_ok, Prod.mk.injEq] at h
    obtain ⟨r, rfl, rfl, rfl⟩ := h
    refine ⟨_, run_loadConstant r _ m, ?_, (if_neg hgt).symm⟩
    rw [Operand.value, Machine.set_regs, Function.update_self]
    rfl

/-- The number that an operand stands for, once the lines before it have run. -/
theorem run_immediate {value scratch : Nat} {before : List Line} {operand : Operand}
    (h : immediate value scratch = .ok (before, operand)) (m : Machine) :
    ∃ m', run before m = (m', .fall) ∧ operand.value m' = some (BitVec.ofNat 64 value) ∧
      ∀ k ≠ scratch, m'.regs k = m.regs k := by
  obtain ⟨m', hrun, hoperand, hm'⟩ := run_immediate_eq h m
  refine ⟨m', hrun, hoperand, fun k hk => ?_⟩
  rw [hm']
  split
  · rfl
  · rw [Machine.set_regs, Function.update_of_ne hk]

theorem run_addNumber {r : Reg} {value scratch : Nat} {lines : List Line}
    (h : addNumber r value scratch = .ok lines) (hr : r.index.val ≠ scratch) (m : Machine) :
    ∃ m', run lines m = (m', .fall) ∧
      m'.regs r.index.val = m.regs r.index.val + BitVec.ofNat 64 value := by
  simp only [addNumber, bind_eq_ok, pure_eq_ok, Prod.exists] at h
  obtain ⟨before, operand, himmediate, rfl⟩ := h
  obtain ⟨m', hrun, hoperand, hkept⟩ := run_immediate himmediate m
  refine ⟨m'.set r.index.val (m.regs r.index.val + BitVec.ofNat 64 value), ?_, Function.update_self ..⟩
  rw [run_append hrun, run, Line.act_binary (y := .reg r) rfl rfl hoperand, hkept _ hr]
  rfl

section

variable (calls : String → Subroutine) {h : Host} {x base : Reg} {bytes scratch : Nat} {lines : List Line}
  {a : Word}

theorem run_storeAt (hlines : accessAt .stou (.reg x) base bytes scratch = .ok lines)
    (hx : x.index.val ≠ scratch) (hbase : base.index.val ≠ scratch)
    (ha : h.regs base.index.val + BitVec.ofNat 64 bytes = a) (haligned : a.aligned 8 = a) :
    ∃ m, Host.run calls lines h = some (⟨m, h.memory.write a wordBytes (h.regs x.index.val).toNat⟩,
      [.writes (span a wordBytes)]) ∧ ∀ k ≠ scratch, m.regs k = h.regs k := by
  simp only [accessAt, bind_eq_ok, pure_eq_ok, Prod.exists] at hlines
  obtain ⟨before, operand, himmediate, rfl⟩ := hlines
  obtain ⟨m, hrun, hoperand, hkept⟩ := run_immediate himmediate h.toMachine
  refine ⟨m, ?_, hkept⟩
  rw [Host.run_concat hrun, Line.perform_store (y := .reg base) rfl rfl hoperand]
  simp only [Host.store, hkept _ hx, hkept _ hbase, ha, haligned]
  rfl

theorem run_loadAt (hlines : accessAt .ldou (.reg x) base bytes scratch = .ok lines)
    (hbase : base.index.val ≠ scratch) (ha : h.regs base.index.val + BitVec.ofNat 64 bytes = a)
    (haligned : a.aligned 8 = a) :
    ∃ m, Host.run calls lines h = some (⟨m, h.memory⟩, [.reads (span a wordBytes)]) ∧
      m.regs x.index.val = h.memory.word a ∧ ∀ k ≠ scratch, k ≠ x.index.val → m.regs k = h.regs k := by
  simp only [accessAt, bind_eq_ok, pure_eq_ok, Prod.exists] at hlines
  obtain ⟨before, operand, himmediate, rfl⟩ := hlines
  obtain ⟨m, hrun, hoperand, hkept⟩ := run_immediate himmediate h.toMachine
  refine ⟨m.set x.index.val (h.memory.word a), ?_, Function.update_self .., fun k hk hne => ?_⟩
  · rw [Host.run_concat hrun, Line.perform_load (y := .reg base) rfl rfl hoperand]
    simp only [Host.load, hkept _ hbase, ha, haligned]
    rfl
  · rw [Machine.set_regs, Function.update_of_ne hne, hkept k hk]

end

/-- Code for one word of a value in registers: it goes to, or comes from, its distance behind an offset. -/
def AccessesWord (code : Opcode) (base : Reg) (offset first scratch word : Nat) (part : List Line) : Prop :=
  ∃ x : Reg, x.index.val = first + word ∧
    accessAt code (.reg x) base (offset * wordBytes + word * wordBytes) scratch = .ok part

section

variable (calls : String → Subroutine) {h : Host} {base : Reg} {offset scratch first : Nat} {a : Word}

theorem Word.add_bytes (a : Word) (offset word : Nat) :
    a + BitVec.ofNat 64 (offset * wordBytes + word * wordBytes) = (a.skip offset).skip word := by
  rw [skip_skip, skip, Nat.add_mul]

/-- Stores of words, each at its distance from the address. -/
theorem run_stores {v : Nat → Word} {distances : List Nat} {parts : List (List Line)}
    (hparts : List.Forall₂ (AccessesWord .stou base offset first scratch) distances parts)
    (hv : ∀ j ∈ distances, first + j < scratch ∧ h.regs (first + j) = v j)
    (hbase : base.index.val < scratch) (ha : h.regs base.index.val = a) (haligned : a.toNat % 8 = 0) :
    ∃ m, Host.run calls parts.flatten h = some (⟨m, h.memory.put (a.skip offset) v distances⟩,
      distances.map fun j => .writes (span ((a.skip offset).skip j) wordBytes)) := by
  induction hparts generalizing h with
  | nil => exact ⟨h.toMachine, rfl⟩
  | @cons j part distances parts hpart _ ih =>
    obtain ⟨x, hx, hpart⟩ := hpart
    obtain ⟨⟨hlt, hj⟩, hrest⟩ := List.forall_mem_cons.mp hv
    have hbytes : h.regs base.index.val + BitVec.ofNat 64 (offset * wordBytes + j * wordBytes) =
        (a.skip offset).skip j := by rw [ha, a.add_bytes]
    obtain ⟨m, hrun, hkept⟩ := run_storeAt calls hpart (by omega) (by omega) hbytes
      (Word.aligned_skip (Word.toNat_skip_mod haligned offset) j)
    rw [hx, hj] at hrun
    -- The registers of the value and of the address are as before.
    obtain ⟨m', hrun'⟩ := ih (h := ⟨m, _⟩)
      (fun i hi => ⟨(hrest i hi).1, (hkept _ (Nat.ne_of_lt (hrest i hi).1)).trans (hrest i hi).2⟩)
      ((hkept _ (Nat.ne_of_lt hbase)).trans ha)
    refine ⟨m', ?_⟩
    rw [List.flatten_cons, Host.run_append hrun, hrun']
    rfl

/-- Loads of words over the register of the address, the last word first. -/
theorem run_loads {n : Nat} {parts : List (List Line)}
    (hparts : List.Forall₂ (AccessesWord .ldou base offset first scratch) (List.range n).reverse parts)
    (hbase : base.index.val = first) (hscratch : first + n ≤ scratch) (ha : 0 < n → h.regs first = a)
    (haligned : a.toNat % 8 = 0) :
    ∃ m, Host.run calls parts.flatten h = some (⟨m, h.memory⟩,
        (List.range n).reverse.map fun j => .reads (span ((a.skip offset).skip j) wordBytes)) ∧
      (∀ j < n, m.regs (first + j) = h.memory.word ((a.skip offset).skip j)) ∧
      ∀ k < scratch, first + n ≤ k → m.regs k = h.regs k := by
  induction n generalizing h parts with
  | zero =>
    cases hparts
    exact ⟨h.toMachine, rfl, fun _ hj => (by omega), fun _ _ _ => rfl⟩
  | succ n ih =>
    rw [List.range_succ, List.reverse_append, List.reverse_singleton, List.singleton_append] at hparts ⊢
    cases hparts with
    | @cons _ part _ parts hpart hrest =>
      obtain ⟨x, hx, hpart⟩ := hpart
      have hbytes : h.regs base.index.val + BitVec.ofNat 64 (offset * wordBytes + n * wordBytes) =
          (a.skip offset).skip n := by
        rw [hbase, ha (Nat.succ_pos n), a.add_bytes]
      obtain ⟨m, hrun, hword, hkept⟩ := run_loadAt calls hpart (by omega) hbytes
        (Word.aligned_skip (Word.toNat_skip_mod haligned offset) n)
      rw [hx] at hword hkept
      -- Unless it was the only word, the register of the address has not been written yet.
      have hfirst : 0 < n → m.regs first = a :=
        fun hn => (hkept _ (by omega) (by omega)).trans (ha (Nat.succ_pos n))
      obtain ⟨m', hrun', hwords, hkept'⟩ := ih (h := ⟨m, h.memory⟩) hrest (by omega) hfirst
      refine ⟨m', ?_, fun j hj => ?_, fun k hk hle => ?_⟩
      · rw [List.flatten_cons, Host.run_append hrun, hrun']
        rfl
      · rcases Nat.lt_succ_iff_lt_or_eq.mp hj with hlt | rfl
        · exact hwords j hlt
        · exact (hkept' _ (by omega) (Nat.le_refl _)).trans hword
      · exact (hkept' k hk (by omega)).trans (hkept k (by omega) (by omega))

end

end CilMmix
