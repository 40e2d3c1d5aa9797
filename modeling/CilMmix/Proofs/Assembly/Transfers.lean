import CilMmix.Proofs.Assembly.Moves
import CilMmix.Proofs.Assembly.Piece

/-! The words that lines move out of registers, to other registers or to memory. -/

namespace CilMmix

/-- Where a word goes: into a register, or to memory at the address in a register. -/
inductive Place where
  | window (register : Nat)
  | memory (address : Nat)
  deriving DecidableEq

/-- A word that is moved, with the register that it comes from. -/
structure Transfer where
  into : Place
  source : Nat
  deriving DecidableEq

def Opcode.transfer? : Opcode → List Operand → Option Transfer
  | .set, [.reg x, .reg y] => some ⟨.window x.index.val, y.index.val⟩
  | .stou, [.reg y, .reg x, _] => some ⟨.memory x.index.val, y.index.val⟩
  | _, _ => none

namespace Line

def transfer? : Line → Option Transfer
  | op _ code operands => code.transfer? operands
  | _ => none

def transfers (lines : List Line) : List Transfer := lines.filterMap transfer?

theorem transfers_append (a b : List Line) : transfers (a ++ b) = transfers a ++ transfers b :=
  List.filterMap_append

theorem transfers_append_of_nil {a b : List Line} (h : transfers b = []) :
    transfers (a ++ b) = transfers a := by
  rw [transfers_append, h, List.append_nil]

theorem transfers_eq_nil {lines : List Line} (h : ∀ l ∈ lines, l.transfer? = none) :
    transfers lines = [] :=
  List.filterMap_eq_nil_iff.mpr h

theorem transfers_eq_map {α : Type} {g : α → Transfer} {as : List α} {lines : List Line}
    (h : List.Forall₂ (fun a l => transfer? l = some (g a)) as lines) : transfers lines = as.map g := by
  induction h with
  | nil => rfl
  | cons hone _ ih => rw [transfers, List.filterMap_cons_some hone, List.map_cons, ← ih, transfers]

theorem transfers_flatten {α : Type} {g : α → Transfer} {as : List α} {parts : List (List Line)}
    (h : List.Forall₂ (fun a part => transfers part = [g a]) as parts) :
    transfers parts.flatten = as.map g := by
  induction h with
  | nil => rfl
  | cons hone _ ih =>
    rw [List.flatten_cons, transfers_append, hone, ih]
    rfl

/-- A label and a remark move nothing. -/
theorem transfers_piece {lines : List Line} (h : IsCode lines) (annotate : Bool)
    (label : Option String) (i : Instruction) :
    transfers (piece annotate label i lines) = transfers lines := by
  have hremark : transfers (if annotate then [.comment i.text] else []) = [] := by
    cases annotate <;> rfl
  rw [piece_eq h.plain, transfers_append, hremark, List.nil_append]
  cases label with
  | none => rfl
  | some label =>
    rcases h.starts with rfl | ⟨code, operands, rest, rfl⟩
    · rfl
    · exact List.filterMap_cons.trans List.filterMap_cons.symm

/-- Lines that move each word of a run of registers once, to places of some kind. -/
structure Hands (source count : Nat) (Into : Place → Prop) (lines : List Line) : Prop where
  sources : ((transfers lines).map Transfer.source).Perm (List.range' source count)
  into : ∀ t ∈ transfers lines, Into t.into

namespace Hands

variable {source count : Nat} {Into : Place → Prop} {lines : List Line}

theorem length_eq (h : Hands source count Into lines) : (transfers lines).length = count := by
  have hlen := h.sources.length_eq
  rwa [List.length_map, List.length_range'] at hlen

theorem mem_iff (h : Hands source count Into lines) {k : Nat} :
    (∃ t ∈ transfers lines, t.source = k) ↔ source ≤ k ∧ k < source + count := by
  rw [← List.mem_range'_1, ← h.sources.mem_iff, List.mem_map]

theorem of_perm (place : Nat → Place) (h : (transfers lines).Perm
      ((List.range count).map fun k => ⟨place k, source + k⟩))
    (hinto : ∀ k, k < count → Into (place k)) : Hands source count Into lines := by
  constructor
  · have hsources := h.map Transfer.source
    rw [List.map_map] at hsources
    rw [List.range'_eq_map_range]
    exact hsources
  · intro t ht
    obtain ⟨k, hk, rfl⟩ := List.mem_map.mp (h.mem_iff.mp ht)
    exact hinto k (List.mem_range.mp hk)

theorem mono (h : Hands source count Into lines) {Into' : Place → Prop}
    (hinto : ∀ p, Into p → Into' p) : Hands source count Into' lines :=
  ⟨h.sources, fun t ht => hinto _ (h.into t ht)⟩

theorem append {more : Nat} {rest : List Line} (h : Hands source count Into lines)
    (hrest : Hands (source + count) more Into rest) :
    Hands source (count + more) Into (lines ++ rest) := by
  constructor
  · rw [transfers_append, List.map_append, ← List.range'_append_1]
    exact h.sources.append hrest.sources
  · rw [transfers_append]
    exact List.forall_mem_append.mpr ⟨h.into, hrest.into⟩

theorem of_transfers_eq (h : Hands source count Into lines) {lines' : List Line}
    (he : transfers lines' = transfers lines) : Hands source count Into lines' :=
  ⟨he ▸ h.sources, he ▸ h.into⟩

end Hands

end Line

theorem Moves.transfers {pairs : List (Nat × Nat)} {lines : List Line} (h : Moves pairs lines) :
    Line.transfers lines = pairs.map fun p => ⟨.window p.1, p.2⟩ := by
  refine Line.transfers_eq_map (h.imp fun p l hp => ?_)
  obtain ⟨x, y, hx, hy, rfl⟩ := hp
  rw [← hx, ← hy]
  rfl

theorem Moves.hands {pairs : List (Nat × Nat)} {source dest count : Nat} {lines : List Line}
    (h : Moves pairs lines)
    (hpairs : pairs.Perm ((List.range count).map fun k => (dest + k, source + k))) :
    Line.Hands source count (fun p => ∃ k, p = .window k ∧ dest ≤ k ∧ k < dest + count) lines := by
  refine .of_perm (fun k => .window (dest + k)) ?_ fun k hk => ⟨_, rfl, by omega, by omega⟩
  rw [h.transfers]
  have htransfers := hpairs.map fun p => (⟨.window p.1, p.2⟩ : Transfer)
  rwa [List.map_map] at htransfers

theorem copyPairs_perm {source dest : Nat} (count : Nat) (h : source ≠ dest) :
    (copyPairs source dest count).Perm
      ((List.range count).map fun k => (dest + k, source + k)) := by
  unfold copyPairs
  rw [if_neg h]
  split
  · exact (List.reverse_perm _).map _
  · exact .refl _

theorem loadConstant_transfers (r : Reg) (value : UInt64) :
    Line.transfers (loadConstant r value) = [] := by
  have hone : ∀ (code : Opcode) (n : Nat), code.transfer? [.reg r, .imm n] = none := by
    intro code n
    cases code <;> rfl
  refine Line.transfers_eq_nil fun l hl => ?_
  rcases mem_loadConstant hl with ⟨code, -, n, -, rfl⟩ | rfl | ⟨-, rfl⟩
  · exact hone code n
  · rfl
  · rfl

theorem accessAt_transfers {value address : Reg} {bytes scratch : Nat} {lines : List Line}
    (h : accessAt .stou (.reg value) address bytes scratch = .ok lines) :
    Line.transfers lines = [⟨.memory address.index.val, value.index.val⟩] := by
  simp only [accessAt, bind_eq_ok, pure_eq_ok, Prod.exists] at h
  obtain ⟨before, o, himm, rfl⟩ := h
  have hbefore : Line.transfers before = [] := by
    unfold immediate at himm
    split at himm
    · cases himm
      rfl
    · simp only [bind_eq_ok, pure_eq_ok, Prod.mk.injEq] at himm
      obtain ⟨r, -, rfl, -⟩ := himm
      exact loadConstant_transfers _ _
  rw [Line.transfers_append, hbefore]
  rfl

end CilMmix
