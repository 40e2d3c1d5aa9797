import Mathlib.Algebra.Order.Floor.Div
import Mathlib.Data.Finset.Card
import Mathlib.Data.Finset.Image
import CilMmix.Proofs.Storage.Allocation

/-! Static storage over a list of requests, for fields and for texts in any order. What a key is given at its
first request it is given at every later one. The storage then holds the keys in the order of their first
requests, one directly after the other. -/

namespace CilMmix

inductive StaticRequest where
  | field (id : String) (size : Size)
  | literal (text : String)

namespace StaticRequest

def key : StaticRequest → StaticKey
  | field id _ => .field id
  | literal text => .literal text

/-- The storage that is asked for. -/
def size : StaticRequest → Size
  | field _ size => size
  | literal text => Statics.literalSize text

def id? : StaticRequest → Option String
  | field id _ => some id
  | literal _ => none

def text? : StaticRequest → Option String
  | field _ _ => none
  | literal text => some text

end StaticRequest

namespace Statics

def serve (s : Statics) : StaticRequest → Allocation × Statics
  | .field id size => s.field id size
  | .literal text => s.literal text

/-- The storage after some requests. -/
def serveAll (s : Statics) (requests : List StaticRequest) : Statics :=
  requests.foldl (fun s r => (s.serve r).2) s

/-- What each request is given. -/
def answers (s : Statics) : List StaticRequest → List Allocation
  | [] => []
  | r :: rest => (s.serve r).1 :: (s.serve r).2.answers rest

variable {s : Statics} {r : StaticRequest} {requests before after : List StaticRequest}
variable {a : Allocation}

theorem serveAll_append : s.serveAll (before ++ after) = (s.serveAll before).serveAll after :=
  List.foldl_append

theorem serve_served : s.Served (fun _ _ => True) r.key (s.serve r).1 (s.serve r).2 := by
  cases r with
  | field id size => exact served_field trivial
  | literal text => exact served_literal text

theorem serveAll_grows (s : Statics) (requests : List StaticRequest) :
    s.Grows (fun _ _ => True) (s.serveAll requests) := by
  induction requests generalizing s with
  | nil => exact .refl
  | cons r rest ih => exact .head ⟨r.key, _, serve_served⟩ (ih _)

theorem serveAll_sound (requests : List StaticRequest) :
    (serveAll {} requests).Sound fun _ _ => True :=
  sound_empty.grows (serveAll_grows {} requests)

theorem serve_of_find? (h : s.find? r.key = some a) : s.serve r = (a, s) := by
  cases r with
  | field id size =>
    rw [StaticRequest.key] at h
    rw [serve, field, h]
  | literal text =>
    rw [StaticRequest.key] at h
    rw [serve, literal, h]

theorem serve_of_find?_eq_none (h : s.find? r.key = none) :
    ∃ label, s.serve r = s.allocate r.key r.size label := by
  cases r with
  | field id size =>
    rw [StaticRequest.key] at h
    exact ⟨mangle id, by rw [serve, field, h]; rfl⟩
  | literal text =>
    rw [StaticRequest.key] at h
    exact ⟨_, by rw [serve, literal, h]; rfl⟩

/-- A request for what was asked for before gets what was given then. -/
theorem serve_again {r' : StaticRequest} (s : Statics) (after : List StaticRequest)
    (h : r'.key = r.key) :
    (s.serveAll (r :: after)).serve r' = ((s.serve r).1, s.serveAll (r :: after)) := by
  refine serve_of_find? ?_
  rw [h]
  exact (serveAll_grows (s.serve r).2 after).find? serve_served.find?

theorem find?_of_mem_answers (h : a ∈ s.answers requests) :
    (s.serveAll requests).find? a.key = some a := by
  induction requests generalizing s with
  | nil => cases h
  | cons r rest ih =>
    cases h with
    | tail _ h => exact ih h
    | head =>
      have hfind := serve_served (s := s) (r := r) |>.find?
      rw [(mem_of_find? hfind).2]
      exact (serveAll_grows (s.serve r).2 rest).find? hfind

theorem map_key_answers (s : Statics) (requests : List StaticRequest) :
    (s.answers requests).map Allocation.key = requests.map StaticRequest.key := by
  induction requests generalizing s with
  | nil => rfl
  | cons r rest ih =>
    rw [answers, List.map_cons, List.map_cons, ih, (mem_of_find? serve_served.find?).2]

theorem find?_eq_none_iff {key : StaticKey} :
    s.find? key = none ↔ key ∉ s.allocations.map Allocation.key := by
  simp [find?]

/-- Keys have their storage in the order in which they were first asked for. -/
theorem map_key_serveAll (requests : List StaticRequest) :
    (serveAll {} requests).allocations.map Allocation.key =
      (requests.map StaticRequest.key).eraseDups := by
  -- Along the list from its end: the last request comes to the storage of all before it.
  induction requests using List.reverseRecOn with
  | nil => rfl
  | append_singleton before r ih =>
    rw [serveAll_append, List.map_append, List.eraseDups_append, ← ih]
    change ((serveAll {} before).serve r).2.allocations.map Allocation.key = _
    cases h : (serveAll {} before).find? r.key with
    | some a =>
      have hmem : r.key ∈ before.map StaticRequest.key := by
        rw [← List.mem_eraseDups, ← ih]
        obtain ⟨ha, hkey⟩ := mem_of_find? h
        exact List.mem_map.mpr ⟨a, ha, hkey⟩
      have hrest : ([r].map StaticRequest.key).removeAll (before.map StaticRequest.key) = [] := by
        simpa [List.removeAll, List.filter_cons] using hmem
      rw [serve_of_find? h, hrest]
      simp
    | none =>
      have hnot : r.key ∉ before.map StaticRequest.key := by
        rw [← List.mem_eraseDups, ← ih]
        exact find?_eq_none_iff.mp h
      have hrest : ([r].map StaticRequest.key).removeAll (before.map StaticRequest.key) = [r.key] := by
        simpa [List.removeAll, List.filter_cons] using hnot
      obtain ⟨label, hserve⟩ := serve_of_find?_eq_none h
      rw [hserve, hrest]
      simp [allocate, List.eraseDups_cons]

/-- Different keys are counted by the different names of fields and the different texts. -/
theorem card_keys (requests : List StaticRequest) :
    (requests.map StaticRequest.key).toFinset.card =
      (requests.filterMap StaticRequest.id?).toFinset.card +
        (requests.filterMap StaticRequest.text?).toFinset.card := by
  have hunion : (requests.map StaticRequest.key).toFinset =
      (requests.filterMap StaticRequest.id?).toFinset.image StaticKey.field ∪
        (requests.filterMap StaticRequest.text?).toFinset.image StaticKey.literal := by
    ext key
    simp only [List.mem_toFinset, List.mem_map, Finset.mem_union, Finset.mem_image,
      List.mem_filterMap]
    constructor
    · rintro ⟨r, hr, rfl⟩
      cases r with
      | field id size => exact .inl ⟨id, ⟨_, hr, rfl⟩, rfl⟩
      | literal text => exact .inr ⟨text, ⟨_, hr, rfl⟩, rfl⟩
    · rintro (⟨id, ⟨r, hr, hid⟩, rfl⟩ | ⟨text, ⟨r, hr, htext⟩, rfl⟩)
      · cases r with
        | field id' size => cases hid; exact ⟨_, hr, rfl⟩
        | literal text => cases hid
      · cases r with
        | field id size => cases htext
        | literal text' => cases htext; exact ⟨_, hr, rfl⟩
  have hfield : Function.Injective StaticKey.field := fun _ _ h => StaticKey.field.inj h
  have hliteral : Function.Injective StaticKey.literal := fun _ _ h => StaticKey.literal.inj h
  rw [hunion, Finset.card_union_of_disjoint, Finset.card_image_of_injective _ hfield,
    Finset.card_image_of_injective _ hliteral]
  rw [Finset.disjoint_left]
  intro key hid htext
  obtain ⟨id, -, rfl⟩ := Finset.mem_image.mp hid
  obtain ⟨text, -, h⟩ := Finset.mem_image.mp htext
  cases h

theorem words_literalSize (text : String) :
    (literalSize text).words = 2 + (text.utf8ByteSize + 1) ⌈/⌉ wordBytes := by
  have hbytes : (textBytes text).length = text.utf8ByteSize := rfl
  change (Size.ofWords (headerSize.words + (⟨(textBytes text).length + 1⟩ : Size).words)).words = _
  rw [hbytes, Nat.ceilDiv_eq_add_pred_div]
  simp only [Size.words, Size.ofWords, headerSize, wordBytes]
  omega

theorem mem_answers_iff : a ∈ answers {} requests ↔ a ∈ (serveAll {} requests).allocations := by
  constructor
  · intro h
    exact (mem_of_find? (find?_of_mem_answers h)).1
  · intro h
    have hkey : a.key ∈ (requests.map StaticRequest.key).eraseDups := by
      rw [← map_key_serveAll]
      exact List.mem_map_of_mem h
    rw [List.mem_eraseDups, ← map_key_answers {}] at hkey
    obtain ⟨b, hb, hab⟩ := List.mem_map.mp hkey
    have hfind := (serveAll_sound requests).find?_eq_some_iff.mpr ⟨h, rfl⟩
    rw [← hab, find?_of_mem_answers hb] at hfind
    cases hfind
    exact hb

/-- What requests, one after the other from empty storage on, are given and leave behind. -/
structure Allotted (requests : List StaticRequest) : Prop where
  keys : (answers {} requests).map Allocation.key = requests.map StaticRequest.key
  stored : ∀ a, a ∈ answers {} requests ↔ a ∈ (serveAll {} requests).allocations
  /-- A request like one of these gets what that one got, and changes nothing. -/
  again : ∀ before r after r', requests = before ++ r :: after → r'.key = r.key →
    (serveAll {} requests).serve r' = (((serveAll {} before).serve r).1, serveAll {} requests)
  /-- Any other gets as much as it asks for, behind all the rest. -/
  fresh : ∀ r : StaticRequest, r.key ∉ requests.map StaticRequest.key →
    ((serveAll {} requests).serve r).1.size = r.size ∧
      ((serveAll {} requests).serve r).1.address = (serveAll {} requests).cursor
  apart : ∀ a ∈ answers {} requests, ∀ b ∈ answers {} requests, a.key ≠ b.key →
    a.stop ≤ b.address.raw ∨ b.stop ≤ a.address.raw
  aligned : ∀ a ∈ answers {} requests, a.address.raw % wordBytes = 0
  adjoining : Allocation.Adjoining Address.poolSegment.raw (serveAll {} requests).allocations
    (serveAll {} requests).cursor.raw
  order : (serveAll {} requests).allocations.map Allocation.key =
    (requests.map StaticRequest.key).eraseDups
  literal : ∀ a ∈ answers {} requests, ∀ text, a.key = .literal text →
    a.size.words = 2 + (text.utf8ByteSize + 1) ⌈/⌉ wordBytes
  labels : ∀ a ∈ answers {} requests, ∀ b ∈ answers {} requests, isLiteral a.key → isLiteral b.key →
    a.key ≠ b.key → a.label ≠ b.label
  count : (serveAll {} requests).allocations.length =
    (requests.filterMap StaticRequest.id?).toFinset.card +
      (requests.filterMap StaticRequest.text?).toFinset.card

theorem requests_allotted (requests : List StaticRequest) : Allotted requests := by
  have hsound := serveAll_sound requests
  refine ⟨map_key_answers {} requests, fun _ => mem_answers_iff, ?again, ?fresh, ?apart, ?aligned,
    hsound.adjoining, map_key_serveAll requests, ?literal, ?labels, ?count⟩
  case again =>
    rintro before r after r' rfl hkey
    rw [serveAll_append]
    exact serve_again _ after hkey
  case fresh =>
    intro r hr
    rw [← List.mem_eraseDups, ← map_key_serveAll] at hr
    obtain ⟨label, hserve⟩ := serve_of_find?_eq_none (find?_eq_none_iff.mpr hr)
    rw [hserve]
    exact ⟨rfl, rfl⟩
  case apart =>
    intro a ha b hb hne
    exact hsound.apart (mem_answers_iff.mp ha) (mem_answers_iff.mp hb) hne
  case aligned =>
    intro a ha
    obtain ⟨before, after, hsplit⟩ := List.append_of_mem (mem_answers_iff.mp ha)
    have hadjoining := hsound.adjoining
    rw [hsplit, Allocation.Adjoining.append_iff] at hadjoining
    obtain ⟨_, hbefore, rfl, -⟩ := hadjoining
    exact hbefore.mod_stop rfl
  case literal =>
    intro a ha text hkey
    rw [hsound.literal a (mem_answers_iff.mp ha) text hkey, words_literalSize]
  case labels =>
    intro a ha b hb hla hlb hne hlabel
    have hnodup := nodup_literals (serveAll {} requests).literals
    rw [← hsound.numbered] at hnodup
    have hmem : ∀ c ∈ answers {} requests, isLiteral c.key →
        c ∈ (serveAll {} requests).allocations.filter fun c => isLiteral c.key :=
      fun c hc hl => List.mem_filter.mpr ⟨mem_answers_iff.mp hc, hl⟩
    exact hne (congrArg _ (List.inj_on_of_nodup_map hnodup (hmem a ha hla) (hmem b hb hlb) hlabel))
  case count =>
    have hkeys := List.toFinset_card_of_nodup hsound.keys
    have hsame : ((serveAll {} requests).allocations.map Allocation.key).toFinset =
        (requests.map StaticRequest.key).toFinset := by
      ext key
      rw [map_key_serveAll, List.mem_toFinset, List.mem_eraseDups, List.mem_toFinset]
    rw [← card_keys, ← hsame, hkeys, List.length_map]

end Statics

end CilMmix
