import Mathlib.Data.List.Nodup
import CilMmix.Proofs.Assembly.Piece
import CilMmix.Proofs.Method.Compilation
import CilMmix.Proofs.Simulation.Entry

/-! Where the code of each instruction stands among the lines of a method, and where its label
leads. -/

namespace CilMmix

theorem target?_of_split {before after : List Line} {l : Line} {label : String}
    (hl : l.label? = some label) (hb : ∀ x ∈ before, x.label? ≠ some label) :
    target? (before ++ l :: after) label = some before.length := by
  have hnone : before.findIdx? (fun x => x.label? == some label) = none :=
    List.findIdx?_eq_none_iff.mpr fun x hx => beq_eq_false_iff_ne.mpr (hb x hx)
  simp [target?, List.findIdx?_append, hnone, List.findIdx?_cons, hl]

namespace Line

theorem label?_of_plain {l : Line} (h : l.Plain) : l.label? = none := by
  match l with
  | op none _ _ | comment _ => rfl

/-- A label goes to one line, and no line gets another one. -/
theorem label?_of_mem_labelled? {label : Option String} {lines : List Line}
    (h : ∀ l ∈ lines, l.Plain) {l : Line} (hl : l ∈ labelled? label lines) :
    l.label? = none ∨ l.label? = label := by
  cases label with
  | none => exact .inl (label?_of_plain (h l hl))
  | some label =>
    induction lines with
    | nil =>
      obtain rfl := List.mem_singleton.mp hl
      exact .inr rfl
    | cons first lines ih =>
      have hrest : ∀ l ∈ lines, l.Plain := fun l hl => h l (List.mem_cons_of_mem _ hl)
      have hfirst := h first List.mem_cons_self
      match first with
      | op none code operands =>
        rcases List.mem_cons.mp hl with rfl | hl
        · exact .inr rfl
        · exact .inl (label?_of_plain (hrest l hl))
      | comment text =>
        rcases List.mem_cons.mp hl with rfl | hl
        · exact .inl rfl
        · exact ih hrest hl

/-- The first line of code gets the label. -/
theorem IsCode.labelled {lines : List Line} (h : IsCode lines) (label : String) :
    ∃ l rest, labelled label lines = l :: rest ∧ l.label? = some label := by
  rcases h.starts with rfl | ⟨code, operands, rest, rfl⟩
  · exact ⟨_, _, rfl, rfl⟩
  · exact ⟨_, _, rfl, rfl⟩

/-- A label does not change where code leads. -/
theorem IsCode.leads {lines : List Line} (h : IsCode lines) (label : Option String)
    {before after : List Line} {m m' : Machine} {e : Exit} (hr : run lines m = (m', e)) :
    e.Leads (before ++ labelled? label lines ++ after) before.length
      (before.length + (labelled? label lines).length) m m' := by
  cases label with
  | none => exact leads_of_run ⟨before, lines, after, rfl, rfl, rfl⟩ hr
  | some label =>
    rcases h.starts with rfl | ⟨code, operands, rest, rfl⟩
    · cases hr
      exact leads_of_run (e := .fall) ⟨before, [bare label], after, rfl, rfl, rfl⟩ rfl
    · have hat : At (before ++ labelled? (some label) (ins code operands :: rest) ++ after)
          before.length (ins code operands :: rest) := ⟨before, _, after, rfl, rfl, rfl⟩
      have hleads := leads_of_run hat hr
      exact hleads

end Line

theorem Site.branchLabel_injective (site : Site) {a b : UInt32}
    (h : site.branchLabel a = site.branchLabel b) : a = b := by
  simp only [branchLabel, String.append_right_inj, Nat.toString_eq_ofList_toDigits] at h
  have hdigits := congrArg (Nat.ofDigitChars 10 · 0) (String.ofList_injective h)
  simp only [Nat.ofDigitChars_ten_toDigits] at hdigits
  exact UInt32.toNat_inj.mp hdigits

theorem Site.branchLabel_ne (site : Site) (a : UInt32) : site.branchLabel a ≠ site.label := by
  intro h
  have hlen := congrArg String.length h
  have hone : "_".length = 1 := rfl
  simp only [branchLabel, String.length_append] at hlen
  omega

/-- The lines of an instruction, if it was reached. -/
def Stop.lines (s : Stop) : List Line :=
  match s.visit with
  | some v => v.lines
  | none => []

namespace MethodDef.Compilation

variable {m : MethodDef} {options : Options} {session : Session}
  {c : m.Compilation options session} {i : Nat} {v : Visit}

/-- Where the piece of an instruction begins. -/
def start (c : m.Compilation options session) (i : Nat) : Nat :=
  c.head.length + ((c.walk.stops.take i).flatMap Stop.lines).length

/-- Where the code of an instruction begins: after the remark, if there is one. -/
def entry (c : m.Compilation options session) (i : Nat) : Nat :=
  c.start i + if options.annotate then 1 else 0

theorem lines_eq (hv : c.visit? i = some v) : c.lines =
    (c.head ++ (c.walk.stops.take i).flatMap Stop.lines) ++ v.lines ++
      ((c.walk.stops.drop (i + 1)).flatMap Stop.lines ++ [.blank]) := by
  obtain ⟨instruction, hs⟩ := visit?_eq_some.mp hv
  obtain ⟨hi, hs⟩ := List.getElem?_eq_some_iff.mp hs
  have hsplit : c.walk.stops = c.walk.stops.take i ++
      ⟨instruction, some v⟩ :: c.walk.stops.drop (i + 1) := by
    rw [← hs, List.getElem_cons_drop, List.take_append_drop]
  have hwalk : c.walk.lines = (c.walk.stops.take i).flatMap Stop.lines ++
      (v.lines ++ (c.walk.stops.drop (i + 1)).flatMap Stop.lines) := by
    conv_lhs => rw [Walk.lines, hsplit]
    rw [List.flatMap_append, List.flatMap_cons]
    rfl
  rw [lines, hwalk]
  simp only [List.append_assoc]

theorem start_succ (hv : c.visit? i = some v) : c.start (i + 1) = c.start i + v.lines.length := by
  obtain ⟨instruction, hs⟩ := visit?_eq_some.mp hv
  rw [start, List.take_add_one, hs]
  simp [start, Stop.lines, Nat.add_assoc]

theorem reaches_start (c : m.Compilation options session) (machine : Machine) :
    Reaches c.lines (0, machine) (c.start 0, c.frame.entering machine) := by
  have hat : Line.At c.lines 0 c.head :=
    ⟨[], c.head, c.walk.lines ++ [.blank], by simp [lines], rfl, rfl⟩
  have hleads : Reaches _ _ _ := leads_of_run hat (run_prologue c.laid c.head_eq machine)
  simpa [start] using hleads

section

variable {instruction : Instruction} {label : Option String} {code : List Line}

theorem lines_split (hv : c.visit? i = some v)
    (hlines : v.lines = piece options.annotate label instruction code) (hcode : Line.IsCode code) :
    ∃ before after, c.lines = before ++ Line.labelled? label code ++ after ∧
      before.length = c.entry i ∧
      before = c.head ++ (c.walk.stops.take i).flatMap Stop.lines ++
        (if options.annotate then [.comment instruction.text] else []) := by
  refine ⟨_, (c.walk.stops.drop (i + 1)).flatMap Stop.lines ++ [.blank], ?_, ?_, rfl⟩
  · rw [lines_eq hv, hlines, piece_eq hcode.plain]
    simp only [List.append_assoc]
  · rw [List.length_append, List.length_append, entry, start]
    cases options.annotate <;> rfl

theorem start_succ_eq (hv : c.visit? i = some v)
    (hlines : v.lines = piece options.annotate label instruction code) (hcode : Line.IsCode code) :
    c.start (i + 1) = c.entry i + (Line.labelled? label code).length := by
  rw [start_succ hv, hlines, piece_eq hcode.plain, List.length_append, ← Nat.add_assoc, entry]
  cases options.annotate <;> rfl

theorem leads_visit (hv : c.visit? i = some v)
    (hlines : v.lines = piece options.annotate label instruction code) (hcode : Line.IsCode code)
    {machine machine' : Machine} {e : Exit} (hrun : run code machine = (machine', e)) :
    e.Leads c.lines (c.entry i) (c.start (i + 1)) machine machine' := by
  obtain ⟨before, after, hsplit, hlen, -⟩ := lines_split hv hlines hcode
  rw [start_succ_eq hv hlines hcode, hsplit, ← hlen]
  exact hcode.leads label hrun

/-- From the start of a piece control passes over the remark. -/
theorem reaches_entry (hv : c.visit? i = some v)
    (hlines : v.lines = piece options.annotate label instruction code) (hcode : Line.IsCode code)
    (machine : Machine) : Reaches c.lines (c.start i, machine) (c.entry i, machine) := by
  rw [entry]
  cases ha : options.annotate with
  | false => exact .refl
  | true =>
    refine .single ?_
    have hline : c.lines[c.start i]? = some (.comment instruction.text) := by
      rw [lines_eq hv, hlines, piece_eq hcode.plain, ha, start, ← List.length_append]
      simp
    simp [step?, hline, Line.act]

end

/-- Every visit has code of plain lines under the label of its instruction. -/
def Coded (c : m.Compilation options session) : Prop :=
  ∀ (i : Nat) instruction v, c.walk.stops[i]? = some (Stop.mk instruction (some v)) →
    m.code[i]? = some instruction ∧ ∃ code, Line.IsCode code ∧
      v.lines = piece options.annotate (c.route.label? instruction.offset) instruction code

/-- A label in the code of an instruction is that of its offset, which is a target. -/
theorem Coded.label_of_mem (h : c.Coded) {instruction : Instruction} {l : Line}
    (hs : c.walk.stops[i]? = some (Stop.mk instruction (some v))) (hl : l ∈ v.lines) :
    l.label? = none ∨ instruction.offset ∈ targets m.code ∧
      l.label? = some (c.route.site.branchLabel instruction.offset) := by
  obtain ⟨-, code, hcode, hlines⟩ := h i instruction v hs
  rw [hlines, piece_eq hcode.plain] at hl
  rcases List.mem_append.mp hl with hl | hl
  · left
    split at hl
    · obtain rfl := List.mem_singleton.mp hl
      rfl
    · cases hl
  · rcases Line.label?_of_mem_labelled? hcode.plain hl with hn | hn
    · exact .inl hn
    · rw [hn, Route.label?]
      split
      · rename_i ht
        exact .inr ⟨List.contains_iff_mem.mp ht, rfl⟩
      · exact .inl rfl

/-- No line of another instruction has the label of an offset. -/
theorem Coded.label_ne_of_ne (h : c.Coded) (hoffsets : (m.code.map Instruction.offset).Nodup)
    {j : Nat} {instruction : Instruction} (hi : m.code[i]? = some instruction)
    (hv : c.visit? j = some v) (hne : j ≠ i) {l : Line} (hl : l ∈ v.lines) :
    l.label? ≠ some (c.route.site.branchLabel instruction.offset) := by
  intro he
  obtain ⟨other, hstop⟩ := visit?_eq_some.mp hv
  rcases h.label_of_mem hstop hl with hn | ⟨-, hn⟩ <;> rw [he] at hn
  · cases hn
  · have hsame := c.route.site.branchLabel_injective (Option.some.inj hn)
    have hother := (h j other v hstop).1
    have hlt : j < (m.code.map Instruction.offset).length := by
      rw [List.length_map]
      exact (List.getElem?_eq_some_iff.mp hother).1
    refine hne ((List.getElem?_inj hlt hoffsets).mp ?_)
    rw [List.getElem?_map, List.getElem?_map, hother, hi]
    exact congrArg some hsame.symm

theorem visit_of_mem_lines {s : Stop} (hs : c.walk.stops[i]? = some s) {l : Line}
    (hl : l ∈ s.lines) : ∃ v, c.visit? i = some v ∧ l ∈ v.lines := by
  obtain ⟨instruction, visit⟩ := s
  cases visit with
  | none => cases hl
  | some v => exact ⟨v, visit?_eq_some.mpr ⟨instruction, hs⟩, hl⟩

theorem mem_lines_take {l : Line} (hl : l ∈ (c.walk.stops.take i).flatMap Stop.lines) :
    ∃ j v, j < i ∧ c.visit? j = some v ∧ l ∈ v.lines := by
  obtain ⟨s, hs, hl⟩ := List.mem_flatMap.mp hl
  obtain ⟨j, hj, hs⟩ := List.mem_take_iff_getElem.mp hs
  obtain ⟨v, hv, hl⟩ := visit_of_mem_lines (List.getElem?_eq_some_iff.mpr ⟨by omega, hs⟩) hl
  exact ⟨j, v, by omega, hv, hl⟩

theorem mem_lines_drop {l : Line} (hl : l ∈ (c.walk.stops.drop i).flatMap Stop.lines) :
    ∃ j v, i ≤ j ∧ c.visit? j = some v ∧ l ∈ v.lines := by
  obtain ⟨s, hs, hl⟩ := List.mem_flatMap.mp hl
  obtain ⟨j, hs⟩ := List.mem_iff_getElem?.mp hs
  rw [List.getElem?_drop] at hs
  obtain ⟨v, hv, hl⟩ := visit_of_mem_lines hs hl
  exact ⟨i + j, v, Nat.le_add_right .., hv, hl⟩

/-- The label of an instruction that is a target leads to its code. -/
theorem Coded.target?_eq (h : c.Coded) (hoffsets : (m.code.map Instruction.offset).Nodup)
    {instruction : Instruction} (hv : c.visit? i = some v) (hi : m.code[i]? = some instruction)
    (ht : instruction.offset ∈ targets m.code) :
    target? c.lines (c.route.site.branchLabel instruction.offset) = some (c.entry i) := by
  obtain ⟨instruction', hs⟩ := visit?_eq_some.mp hv
  obtain ⟨hi', code, hcode, hlines⟩ := h i instruction' v hs
  cases hi.symm.trans hi'
  have hlabel : c.route.label? instruction.offset =
      some (c.route.site.branchLabel instruction.offset) :=
    if_pos (List.contains_iff_mem.mpr ht)
  rw [hlabel] at hlines
  obtain ⟨before, after, hsplit, hlen, hbefore⟩ := lines_split hv hlines hcode
  obtain ⟨l, rest, hl, hll⟩ := hcode.labelled (c.route.site.branchLabel instruction.offset)
  rw [hsplit, Line.labelled?, hl, List.append_assoc, List.cons_append, ← hlen]
  refine target?_of_split hll fun x hx => ?_
  rw [hbefore, List.mem_append, List.mem_append] at hx
  rcases hx with (hx | hx) | hx
  · rcases MethodDef.label_of_mem_prologue c.head_eq hx with hn | hn <;> rw [hn]
    · simp
    · exact fun he => c.route.site.branchLabel_ne _ (Option.some.inj he).symm
  · obtain ⟨j, w, hj, hw, hx⟩ := mem_lines_take hx
    exact h.label_ne_of_ne hoffsets hi hw (Nat.ne_of_lt hj) hx
  · split at hx
    · obtain rfl := List.mem_singleton.mp hx
      simp [Line.label?]
    · cases hx

end MethodDef.Compilation

end CilMmix
