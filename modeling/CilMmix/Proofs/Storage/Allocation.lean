import Mathlib.Data.List.Nodup
import Mathlib.Data.List.Pairwise
import Mathlib.Logic.Relation
import CilMmix.Storage.Statics

/-! Static storage as it grows. A key is looked up first and gets new storage only if it has none, at the
end of all that is there. So no allocation ever moves, and no two of them overlap. -/

namespace CilMmix

theorem toString_injective {m n : Nat} (h : (toString m).toList = (toString n).toList) : m = n := by
  rw [Nat.toString_eq_ofList_toDigits, Nat.toString_eq_ofList_toDigits, String.toList_ofList,
    String.toList_ofList] at h
  have hdigits := congrArg (Nat.ofDigitChars 10 · 0) h
  simpa only [Nat.ofDigitChars_ten_toDigits] using hdigits

namespace Allocation

/-- One past the storage of an allocation. -/
def stop (a : Allocation) : Nat := a.address.raw + a.size.roundedBytes

/-- Allocations one directly after the other, from one address to another. -/
def Adjoining : Nat → List Allocation → Nat → Prop
  | start, [], stop => start = stop
  | start, a :: rest, stop => a.address.raw = start ∧ Adjoining a.stop rest stop

namespace Adjoining

variable {start stop : Nat} {before after : List Allocation} {a : Allocation}

theorem append_iff : Adjoining start (before ++ after) stop ↔
    ∃ middle, Adjoining start before middle ∧ Adjoining middle after stop := by
  induction before generalizing start with
  | nil => simp [Adjoining]
  | cons b before ih =>
    simp only [List.cons_append, Adjoining, ih]
    constructor
    · rintro ⟨hb, middle, hbefore, hafter⟩
      exact ⟨middle, ⟨hb, hbefore⟩, hafter⟩
    · rintro ⟨middle, ⟨hb, hbefore⟩, hafter⟩
      exact ⟨hb, middle, hbefore, hafter⟩

theorem bounds (h : Adjoining start after stop) :
    start ≤ stop ∧ ∀ b ∈ after, start ≤ b.address.raw ∧ b.stop ≤ stop := by
  induction after generalizing start with
  | nil => exact ⟨Nat.le_of_eq h, List.forall_mem_nil _⟩
  | cons a after ih =>
    obtain ⟨ha, hafter⟩ := h
    obtain ⟨hle, hmem⟩ := ih hafter
    have hstop : a.address.raw ≤ a.stop := Nat.le_add_right ..
    refine ⟨by omega, List.forall_mem_cons.mpr ⟨⟨by omega, by omega⟩, fun b hb => ?_⟩⟩
    have hbounds := hmem b hb
    exact ⟨by omega, hbounds.2⟩

/-- Storage in whole words ends where a word can begin. -/
theorem mod_stop (h : Adjoining start after stop) (hstart : start % wordBytes = 0) :
    stop % wordBytes = 0 := by
  induction after generalizing start with
  | nil => exact h ▸ hstart
  | cons a after ih =>
    refine ih h.2 ?_
    rw [Allocation.stop, h.1, Size.roundedBytes, Nat.add_mul_mod_self_right, hstart]

theorem pairwise (h : Adjoining start after stop) :
    after.Pairwise fun a b => a.stop ≤ b.address.raw := by
  induction after generalizing start with
  | nil => exact .nil
  | cons a after ih =>
    have hfirst : ∀ b ∈ after, a.stop ≤ b.address.raw := fun b hb => (h.2.bounds.2 b hb).1
    exact .cons hfirst (ih h.2)

end Adjoining

end Allocation

namespace Statics

/-- The number of literals with storage. -/
def literals (s : Statics) : Nat := s.allocations.countP fun a => isLiteral a.key

/-- The bytes of a literal: two words, its text, and a zero at least. -/
def literalSize (text : String) : Size := headerSize + ⟨(textBytes text).length + 1⟩

/-- How much storage a key gets, and under which label. Sizes of fields are as `P` says. -/
inductive Suits (P : String → Size → Prop) (s : Statics) : StaticKey → Size → String → Prop
  | field {id : String} {size : Size} : P id size → Suits P s (.field id) size (mangle id)
  | literal (text : String) :
      Suits P s (.literal text) (literalSize text) ("Str_" ++ toString s.literals)

/-- A key is asked for. What it got before it gets again; else it gets storage at the end. -/
inductive Served (P : String → Size → Prop) (s : Statics) (key : StaticKey) :
    Allocation → Statics → Prop
  | known {a : Allocation} : s.find? key = some a → Served P s key a s
  | fresh {size : Size} {label : String} : s.find? key = none → s.Suits P key size label →
      Served P s key (s.allocate key size label).1 (s.allocate key size label).2

/-- Storage that another one came from. -/
def Grows (P : String → Size → Prop) : Statics → Statics → Prop :=
  Relation.ReflTransGen fun s t => ∃ key a, s.Served P key a t

variable {P : String → Size → Prop} {s t u : Statics} {key : StaticKey} {a : Allocation}

theorem served_field {id : String} {size : Size} (h : P id size) :
    s.Served P (.field id) (s.field id size).1 (s.field id size).2 := by
  unfold field
  split
  · exact .known ‹_›
  · exact .fresh ‹_› (.field h)

theorem served_literal (text : String) :
    s.Served P (.literal text) (s.literal text).1 (s.literal text).2 := by
  unfold literal
  split
  · exact .known ‹_›
  · exact .fresh ‹_› (.literal text)

theorem Served.grows (h : s.Served P key a t) : s.Grows P t := .single ⟨key, a, h⟩

/-- What a key was given is what it is found to have. -/
theorem Served.find? (h : s.Served P key a t) : t.find? key = some a := by
  cases h with
  | known h => exact h
  | fresh h _ =>
    unfold Statics.find? at h
    simp [Statics.find?, allocate, List.find?_append, h]

theorem Served.find?_of_find? (h : s.Served P key a t) {key' : StaticKey} {b : Allocation}
    (hb : s.find? key' = some b) : t.find? key' = some b := by
  cases h with
  | known => exact hb
  | fresh =>
    unfold Statics.find? at hb
    simp [Statics.find?, allocate, List.find?_append, hb]

/-- An allocation stays what it is. -/
theorem Grows.find? (h : s.Grows P t) (ha : s.find? key = some a) : t.find? key = some a := by
  induction h with
  | refl => exact ha
  | tail _ hstep ih =>
    obtain ⟨_, _, hserved⟩ := hstep
    exact hserved.find?_of_find? ih

theorem mem_of_find? (h : s.find? key = some a) : a ∈ s.allocations ∧ a.key = key := by
  unfold find? at h
  have hkey := List.find?_some h
  exact ⟨List.mem_of_find?_eq_some h, by simpa using hkey⟩

/-- Storage laid out from the pool segment on, one allocation for each key. -/
structure Sound (P : String → Size → Prop) (s : Statics) : Prop where
  adjoining : Allocation.Adjoining Address.poolSegment.raw s.allocations s.cursor.raw
  keys : (s.allocations.map Allocation.key).Nodup
  field : ∀ a ∈ s.allocations, ∀ id, a.key = .field id → a.label = mangle id ∧ P id a.size
  literal : ∀ a ∈ s.allocations, ∀ text, a.key = .literal text → a.size = literalSize text
  initial : ∀ a ∈ s.allocations, a.initial = 0
  /-- Literals are numbered in the order of their addresses. -/
  numbered : (s.allocations.filter fun a => isLiteral a.key).map Allocation.label =
    (List.range s.literals).map fun k => "Str_" ++ toString k

theorem nodup_literals (n : Nat) :
    ((List.range n).map fun k => "Str_" ++ toString k).Nodup := by
  refine List.nodup_range.map fun j k h => ?_
  exact toString_injective (congrArg String.toList ((String.append_right_inj "Str_").mp h))

theorem sound_empty : Sound P {} where
  adjoining := rfl
  keys := List.nodup_nil
  field := List.forall_mem_nil _
  literal := List.forall_mem_nil _
  initial := List.forall_mem_nil _
  numbered := rfl

theorem Sound.served (hs : s.Sound P) (h : s.Served P key a t) : t.Sound P := by
  cases h with
  | known => exact hs
  | @fresh size label hnew hsuits =>
    have hkey : key ∉ s.allocations.map Allocation.key := by
      intro hmem
      obtain ⟨b, hb, hkey⟩ := List.mem_map.mp hmem
      have hnone := List.find?_eq_none.mp hnew b hb
      simp [hkey] at hnone
    refine ⟨?_, ?_, ?_, ?_, ?_, ?_⟩
    · refine Allocation.Adjoining.append_iff.mpr ⟨_, hs.adjoining, rfl, ?_⟩
      rfl
    · simp only [allocate, List.map_append, List.map_cons, List.map_nil]
      exact List.Nodup.append hs.keys (List.nodup_singleton _) (by simpa using hkey)
    · refine List.forall_mem_append.mpr ⟨hs.field, List.forall_mem_singleton.mpr fun id hid => ?_⟩
      cases hid
      cases hsuits with
      | field hp => exact ⟨rfl, hp⟩
    · refine List.forall_mem_append.mpr ⟨hs.literal, List.forall_mem_singleton.mpr fun text hid => ?_⟩
      cases hid
      cases hsuits
      rfl
    · exact List.forall_mem_append.mpr ⟨hs.initial, List.forall_mem_singleton.mpr rfl⟩
    · have hnumbered := hs.numbered
      cases hsuits with
      | field => simpa [allocate, literals, isLiteral, List.countP_append] using hnumbered
      | literal =>
        simp only [allocate, literals, List.filter_append, List.map_append, List.countP_append]
        rw [hnumbered]
        simp [isLiteral, List.range_succ, literals]

theorem Sound.grows (hs : s.Sound P) (h : s.Grows P t) : t.Sound P := by
  induction h with
  | refl => exact hs
  | tail _ hstep ih =>
    obtain ⟨_, _, hserved⟩ := hstep
    exact ih.served hserved

/-- A key has the one allocation that is found for it. -/
theorem Sound.find?_eq_some_iff (hs : s.Sound P) :
    s.find? key = some a ↔ a ∈ s.allocations ∧ a.key = key := by
  refine ⟨mem_of_find?, fun ⟨hmem, hkey⟩ => ?_⟩
  obtain ⟨before, after, hsplit⟩ := List.append_of_mem hmem
  have hkeys := hs.keys
  rw [hsplit, List.map_append, List.map_cons, hkey] at hkeys
  have hbefore : ∀ b ∈ before, ¬ decide (b.key = key) = true := by
    intro b hb hdec
    have hmemb : b.key ∈ before.map Allocation.key := List.mem_map_of_mem hb
    rw [of_decide_eq_true hdec] at hmemb
    exact List.disjoint_of_nodup_append hkeys hmemb List.mem_cons_self
  rw [find?, hsplit, List.find?_append, List.find?_eq_none.mpr hbefore, Option.none_or]
  simp [hkey]

/-- Different keys have storage apart from each other. -/
theorem Sound.apart (hs : s.Sound P) {b : Allocation} (ha : a ∈ s.allocations)
    (hb : b ∈ s.allocations) (hne : a.key ≠ b.key) :
    a.stop ≤ b.address.raw ∨ b.stop ≤ a.address.raw := by
  have hpair : s.allocations.Pairwise fun a b =>
      a.stop ≤ b.address.raw ∨ b.stop ≤ a.address.raw := hs.adjoining.pairwise.imp .inl
  have : Std.Symm fun a b : Allocation => a.stop ≤ b.address.raw ∨ b.stop ≤ a.address.raw :=
    ⟨fun _ _ => Or.symm⟩
  exact hpair.forall ha hb fun he => hne (congrArg _ he)

end Statics

end CilMmix
