import Mathlib.Algebra.Group.Nat.Defs
import CilMmix.Bytes.Reader

/-! Bytes that say where they end. A reader finds a value in front of anything that may follow, and a
part of the bytes that lacks the end is reported as such. -/

namespace CilMmix.Bytes

/-- The bytes stand for the value: it is read off any bytes that begin with all of them, and none is
read if some are missing at the end. -/
structure Reads {α : Type} (r : Reader α) (w : List UInt8) (a : α) : Prop where
  whole : ∀ rest, r (w ++ rest) = .ok (a, rest)
  cut : ∀ p q, w = p ++ q → q ≠ [] → r p = .error .truncated

section

variable {α β : Type}

theorem Reads.pure (a : α) : Reads (Pure.pure a : Reader α) [] a where
  whole _ := rfl
  cut _ _ h hq := absurd (List.append_eq_nil_iff.mp h.symm).2 hq

/-- What is read in two steps. A cut falls into the bytes of the first step, or right after them or
later, where the second step meets it. -/
theorem Reads.bind {r : Reader α} {f : α → Reader β} {w v : List UInt8} {a : α} {b : β}
    (hr : Reads r w a) (hf : Reads (f a) v b) : Reads (r >>= f) (w ++ v) b where
  whole rest := by
    change (r (w ++ v ++ rest) >>= fun s => f s.1 s.2) = _
    rw [List.append_assoc, hr.whole]
    exact hf.whole rest
  cut p q h hq := by
    change (r p >>= fun s => f s.1 s.2) = _
    rcases List.append_eq_append_iff.mp h with ⟨c, hp, hv⟩ | ⟨c, hw, hc⟩
    · rw [hp, hr.whole]
      exact hf.cut c q hv hq
    · by_cases hnil : c = []
      · subst hnil
        have hread := hr.whole []
        have hrest := hf.cut [] q (by simpa using hc.symm) hq
        rw [List.append_nil, hw, List.append_nil] at hread
        rw [hread]
        exact hrest
      · rw [hr.cut p c hw hnil]
        rfl

/-- The last step may read nothing more. -/
theorem Reads.last {r : Reader α} {f : α → Reader β} {w : List UInt8} {a : α} {b : β}
    (hr : Reads r w a) (hf : Reads (f a) [] b) : Reads (r >>= f) w b := by
  have h := hr.bind hf
  rwa [List.append_nil] at h

theorem Reads.map {r : Reader α} {w : List UInt8} {a : α} (hr : Reads r w a) (f : α → β) :
    Reads (r >>= fun a => Pure.pure (f a)) w (f a) := hr.last (.pure (f a))

end

theorem toNat_ofNat {n : Nat} (h : n < 256) : (UInt8.ofNat n).toNat = n := by
  simp [Nat.mod_eq_of_lt h]

theorem varint_ne_nil (n : Nat) : varint n ≠ [] := by
  rw [varint]
  split <;> exact List.cons_ne_nil _ _

theorem varint_of_lt {n : Nat} (h : n < 128) : varint n = [UInt8.ofNat n] := by
  rw [varint, if_pos h]

theorem varint_of_le {n : Nat} (h : 128 ≤ n) :
    varint n = UInt8.ofNat (n % 128 + 128) :: varint (n / 128) := by
  rw [varint, if_neg (by omega)]

/-- The integers of a width are below this bound. -/
def VarintWidth.bound (w : VarintWidth) : Nat := 128 ^ (w.groups - 1) * (w.lastGroup + 1)

/-- What one more group makes of the bound. -/
theorem div_lt_bound {n k last : Nat} (h : n < 128 ^ (k + 1) * (last + 1)) :
    n / 128 < 128 ^ k * (last + 1) := by
  rw [Nat.div_lt_iff_lt_mul (by decide)]
  calc n < 128 ^ (k + 1) * (last + 1) := h
    _ = 128 ^ k * (last + 1) * 128 := by rw [Nat.pow_succ, Nat.mul_right_comm]

theorem takeVarint_varint {last k n : Nat} (hlast : last < 128) (h : n < 128 ^ k * (last + 1))
    (rest : List UInt8) : takeVarint last (k + 1) (varint n ++ rest) = .ok (n, rest) := by
  induction k generalizing n with
  | zero =>
    have hn : n < 128 := by omega
    have hbyte := toNat_ofNat (show n < 256 by omega)
    have hfits : ¬ last < n := by omega
    simp [varint_of_lt hn, takeVarint, hbyte, hn, hfits]
  | succ k ih =>
    by_cases hn : n < 128
    · have hbyte := toNat_ofNat (show n < 256 by omega)
      simp [varint_of_lt hn, takeVarint, hbyte, hn]
    · have hbyte := toNat_ofNat (show n % 128 + 128 < 256 by omega)
      have hmore : ¬ n % 128 + 128 < 128 := by omega
      have hread := ih (div_lt_bound h)
      have hlow : (n % 128 + 128) % 128 + 128 * (n / 128) = n := by omega
      rw [varint_of_le (by omega), List.cons_append, takeVarint, hbyte, if_neg hmore, hread]
      simp only [hlow]

theorem takeVarint_cut {last k n : Nat} (hlast : last < 128) (h : n < 128 ^ k * (last + 1))
    {p q : List UInt8} (hpq : varint n = p ++ q) (hq : q ≠ []) :
    takeVarint last (k + 1) p = .error .truncated := by
  induction k generalizing n p with
  | zero =>
    rw [varint_of_lt (by omega)] at hpq
    cases p with
    | nil => rfl
    | cons b p => exact absurd (List.append_eq_nil_iff.mp (List.cons.inj hpq).2.symm).2 hq
  | succ k ih =>
    cases p with
    | nil => rfl
    | cons b p =>
      by_cases hn : n < 128
      · rw [varint_of_lt hn] at hpq
        exact absurd (List.append_eq_nil_iff.mp (List.cons.inj hpq).2.symm).2 hq
      · rw [varint_of_le (by omega)] at hpq
        obtain ⟨rfl, hrest⟩ := List.cons.inj hpq
        have hbyte := toNat_ofNat (show n % 128 + 128 < 256 by omega)
        have hmore : ¬ n % 128 + 128 < 128 := by omega
        rw [takeVarint, hbyte, if_neg hmore, ih (div_lt_bound h) hrest]

theorem reads_varint {w : VarintWidth} {n : Nat} (hg : 0 < w.groups) (hlast : w.lastGroup < 128)
    (h : n < w.bound) : Reads (varintOf w) (varint n) n := by
  obtain ⟨groups, last⟩ := w
  obtain ⟨k, rfl⟩ := Nat.exists_eq_add_one.mpr hg
  have hread : ∀ rest, takeVarint last (k + 1) (varint n ++ rest) = .ok (n, rest) :=
    takeVarint_varint hlast h
  exact ⟨hread, fun p q hpq hq => takeVarint_cut hlast h hpq hq⟩

theorem reads_varint16 {n : Nat} (h : n < UInt16.size) : Reads (varintOf .bits16) (varint n) n :=
  reads_varint (by decide) (by decide) h

theorem reads_varint32 {n : Nat} (h : n < UInt32.size) : Reads (varintOf .bits32) (varint n) n :=
  reads_varint (by decide) (by decide) h

theorem reads_varint64 {n : Nat} (h : n < UInt64.size) : Reads (varintOf .bits64) (varint n) n :=
  reads_varint (by decide) (by decide) h

theorem reads_byte (b : UInt8) : Reads byte [b] b where
  whole _ := rfl
  cut p q h hq := by
    cases p with
    | nil => rfl
    | cons c p => exact absurd (List.append_eq_nil_iff.mp (List.cons.inj h).2.symm).2 hq

theorem reads_block (w : List UInt8) : Reads (block w.length) w w where
  whole rest := by
    have hlen : ¬ (w ++ rest).length < w.length := by simp
    simp only [block, if_neg hlen, List.take_left, List.drop_left]
  cut p q h hq := by
    have hpos := List.length_pos_iff.mpr hq
    have hlen : p.length < w.length := by
      rw [h, List.length_append]
      omega
    simp only [block, if_pos hlen]

theorem reads_bool (b : Bool) : Reads bool (ofBool b) b := by
  have h := (reads_byte (if b then 1 else 0)).bind (f := fun c =>
    if c = 0 then return false else if c = 1 then return true else throw .badBool) (v := []) (b := b)
  rw [List.append_nil] at h
  refine h ?_
  cases b with
  | false => exact .pure false
  | true => exact .pure true

theorem reads_variant {α : Type} {choices : Nat → Option α} {n : Nat} {a : α}
    (h : choices n = some a) (hn : n < UInt32.size) : Reads (variant choices) (varint n) a := by
  apply (reads_varint32 hn).last
  simp only [h]
  exact .pure a

theorem fromUTF8?_bytes (s : String) : String.fromUTF8? s.toUTF8.data.toList.toByteArray = some s := by
  have hbytes : s.toUTF8.data.toList.toByteArray = s.toUTF8 :=
    ByteArray.ext List.data_toByteArray
  rw [hbytes]
  simp [String.fromUTF8?, s.isValidUTF8, String.fromUTF8]

theorem reads_text {s : String} (h : (ofText s).length < UInt64.size) : Reads text (ofText s) s := by
  have hcount : s.toUTF8.data.toList.length < UInt64.size := by
    simp only [ofText, List.length_append] at h
    omega
  apply (reads_varint64 hcount).bind
  apply (reads_block s.toUTF8.data.toList).last
  simp only [fromUTF8?_bytes]
  exact .pure s

section

variable {α : Type} {item : Reader α} {toBytes : α → List UInt8}

theorem reads_times {as : List α} (h : ∀ a ∈ as, Reads item (toBytes a) a) :
    Reads (times item as.length) (as.flatMap toBytes) as := by
  induction as with
  | nil => exact .pure []
  | cons a as ih =>
    have hrest := ih fun b hb => h b (List.mem_cons_of_mem a hb)
    exact (h a List.mem_cons_self).bind (hrest.map (a :: ·))

theorem length_le_flatMap {as : List α} (h : ∀ a, toBytes a ≠ []) :
    as.length ≤ (as.flatMap toBytes).length := by
  induction as with
  | nil => exact Nat.le_refl 0
  | cons a as ih =>
    have hpos := List.length_pos_iff.mpr (h a)
    simp only [List.flatMap_cons, List.length_append, List.length_cons]
    omega

theorem length_le_of_mem {as : List α} {a : α} (h : a ∈ as) :
    (toBytes a).length ≤ (as.flatMap toBytes).length :=
  (List.sublist_flatten_of_mem (List.mem_map_of_mem h)).length_le

/-- Every item has a byte at least, so bytes that can be counted hold items that can be counted. -/
theorem reads_list {as : List α} (h : (ofList toBytes as).length < UInt64.size)
    (hne : ∀ a, toBytes a ≠ [])
    (hitem : ∀ a, (toBytes a).length < UInt64.size → Reads item (toBytes a) a) :
    Reads (list item) (ofList toBytes as) as := by
  simp only [ofList, List.length_append] at h
  have hcount : as.length ≤ (as.flatMap toBytes).length := length_le_flatMap hne
  have hall : ∀ a ∈ as, Reads item (toBytes a) a := by
    intro a ha
    have hle : (toBytes a).length ≤ (as.flatMap toBytes).length := length_le_of_mem ha
    exact hitem a (by omega)
  exact (reads_varint64 (by omega)).bind (reads_times hall)

theorem reads_option {o : Option α} (h : ∀ a, o = some a → Reads item (toBytes a) a) :
    Reads (option item) (ofOption toBytes o) o := by
  cases o with
  | none => exact (reads_byte 0).bind (.pure none)
  | some a => exact (reads_byte 1).bind ((h a rfl).map some)

end

theorem unzigzag_zigzag (n : Int) : unzigzag (zigzag n) = n := by
  cases n with
  | ofNat m =>
    have heven : 2 * m % 2 = 0 := by omega
    have hhalf : 2 * m / 2 = m := by omega
    simp only [zigzag, unzigzag, heven, hhalf, if_true]
  | negSucc m =>
    have hodd : ¬ (2 * m + 1) % 2 = 0 := by omega
    have hhalf : (2 * m + 1) / 2 = m := by omega
    simp only [zigzag, unzigzag, if_neg hodd, hhalf]

theorem zigzag_lt {n : Int} {bound : Nat} (hlow : -(bound : Int) ≤ n) (hhigh : n < bound) :
    zigzag n < 2 * bound := by
  cases n with
  | ofNat m =>
    have hm : (m : Int) < bound := hhigh
    simp only [zigzag]
    omega
  | negSucc m =>
    have hm : -(bound : Int) ≤ -((m : Int) + 1) := hlow
    simp only [zigzag]
    omega

theorem length_toLittleEndian (n count : Nat) : (toLittleEndian n count).length = count := by
  induction count generalizing n with
  | zero => rfl
  | succ count ih => rw [toLittleEndian, List.length_cons, ih]

theorem littleEndian_toLittleEndian {n count : Nat} (h : n < 256 ^ count) :
    littleEndian (toLittleEndian n count) = n := by
  induction count generalizing n with
  | zero =>
    have hn : n = 0 := by simpa using h
    rw [hn]
    rfl
  | succ count ih =>
    have hdiv : n / 256 < 256 ^ count := by
      rw [Nat.div_lt_iff_lt_mul (by decide)]
      exact h
    have hbyte := toNat_ofNat (show n % 256 < 256 by omega)
    have hrest := ih hdiv
    rw [littleEndian] at hrest
    rw [toLittleEndian, littleEndian, List.foldr_cons, hrest, hbyte]
    omega

/-- A number in a fixed count of bytes needs no mark of its end. -/
theorem reads_fixed (n count : Nat) :
    Reads (block count) (toLittleEndian n count) (toLittleEndian n count) := by
  have hread := reads_block (toLittleEndian n count)
  rwa [length_toLittleEndian] at hread

end CilMmix.Bytes
