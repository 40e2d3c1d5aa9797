import CilMmix.Json.Reader
import CilMmix.Proofs.Json.Scanning

/-! Reading back a printed document. -/

namespace CilMmix.Json

open Expected

theorem tokens_cons (j : Json) : ∃ t ts, j.tokens = t :: ts ∧ t ≠ .endArray := by
  cases j with
  | arr items => cases items <;> exact ⟨_, _, rfl, by simp⟩
  | obj members => cases members <;> exact ⟨_, _, rfl, by simp⟩
  | _ => exact ⟨_, _, rfl, by simp⟩

/-- The first item of an array is read like any other value. -/
theorem step_firstItem {t : Token} (h : t ≠ .endArray) (outer : List Open) :
    step (.firstItem outer) t = step (.value (.array [] :: outer)) t := by
  cases t with
  | endArray => exact absurd rfl h
  | _ => rfl

theorem ofMembers_reverse (members : List (String × Json)) :
    ofMembers (members.map fun m => (some m.1, m.2)).reverse = .obj members := by
  have hall : (members.map fun m => (some m.1, m.2)).mapM
      (fun m => m.1.map fun key => (key, m.2)) = some members := by
    induction members with
    | nil => rfl
    | cons m members ih => simp [ih]
  rw [ofMembers, List.reverse_reverse, hall]

/-- The tokens of the document deliver it, inside whatever is open. -/
def Delivered (j : Json) : Prop :=
  ∀ outer ts, (j.tokens ++ ts).foldlM step (.value outer) = ts.foldlM step (deliver j outer)

theorem foldlM_items {items : List Json} (h : ∀ j ∈ items, Delivered j) (outer : List Open)
    (before : List Json) (ts : List Token) :
    (tokensOfItems items ++ ts).foldlM step (.afterItem outer before) =
      ts.foldlM step (.afterItem outer (items.reverse ++ before)) := by
  induction items generalizing before with
  | nil => rfl
  | cons item items ih =>
    have hitem := h item List.mem_cons_self (.array before :: outer) (tokensOfItems items ++ ts)
    have hmore := ih (fun j hj => h j (List.mem_cons_of_mem item hj)) (item :: before)
    rw [tokensOfItems, List.cons_append, List.append_assoc]
    change (item.tokens ++ (tokensOfItems items ++ ts)).foldlM step (.value (.array before :: outer)) = _
    rw [hitem]
    change (tokensOfItems items ++ ts).foldlM step (.afterItem outer (item :: before)) = _
    rw [hmore, List.reverse_cons, List.append_assoc]
    rfl

theorem foldlM_members {members : List (String × Json)} (h : ∀ m ∈ members, Delivered m.2)
    (outer : List Open) (before : List (Option String × Json)) (ts : List Token) :
    (tokensOfMembers members ++ ts).foldlM step (.afterMember outer before) =
      ts.foldlM step (.afterMember outer ((members.map fun m => (some m.1, m.2)).reverse ++ before)) := by
  induction members generalizing before with
  | nil => rfl
  | cons m members ih =>
    obtain ⟨name, value⟩ := m
    have hvalue := h (name, value) List.mem_cons_self (.object before (some name) :: outer)
      (tokensOfMembers members ++ ts)
    have hmore := ih (fun m hm => h m (List.mem_cons_of_mem _ hm)) ((some name, value) :: before)
    rw [tokensOfMembers, List.cons_append, List.cons_append, List.cons_append, List.append_assoc]
    change (value.tokens ++ (tokensOfMembers members ++ ts)).foldlM step
      (.value (.object before (some name) :: outer)) = _
    rw [hvalue]
    change (tokensOfMembers members ++ ts).foldlM step
      (.afterMember outer ((some name, value) :: before)) = _
    rw [hmore, List.map_cons, List.reverse_cons, List.append_assoc]
    rfl

theorem Plain.delivered {j : Json} (h : Plain j) : Delivered j := by
  induction h with
  | null | bool | int | str => exact fun _ _ => rfl
  | @arr items _ ih =>
    intro outer ts
    cases items with
    | nil => rfl
    | cons item items =>
      obtain ⟨t, rest, ht, hne⟩ := tokens_cons item
      have hitem := ih item List.mem_cons_self (.array [] :: outer)
        (tokensOfItems items ++ .endArray :: ts)
      have hmore := foldlM_items (fun j hj => ih j (List.mem_cons_of_mem item hj)) outer [item]
        (.endArray :: ts)
      have hfirst : (item.tokens ++ (tokensOfItems items ++ .endArray :: ts)).foldlM step
          (.firstItem outer) = (item.tokens ++ (tokensOfItems items ++ .endArray :: ts)).foldlM step
            (.value (.array [] :: outer)) := by
        rw [ht, List.cons_append, List.foldlM_cons, List.foldlM_cons, step_firstItem hne]
      have hlist : (tokens (.arr (item :: items)) ++ ts) =
          .beginArray :: (item.tokens ++ (tokensOfItems items ++ .endArray :: ts)) := by
        simp [tokens]
      rw [hlist]
      change (item.tokens ++ (tokensOfItems items ++ .endArray :: ts)).foldlM step (.firstItem outer) = _
      rw [hfirst, hitem]
      change (tokensOfItems items ++ .endArray :: ts).foldlM step (.afterItem outer [item]) = _
      rw [hmore]
      change ts.foldlM step (deliver (.arr (items.reverse ++ [item]).reverse) outer) = _
      rw [List.reverse_append, List.reverse_reverse]
      rfl
  | @obj members _ ih =>
    intro outer ts
    cases members with
    | nil => rfl
    | cons m members =>
      obtain ⟨name, value⟩ := m
      have hvalue := ih (name, value) List.mem_cons_self (.object [] (some name) :: outer)
        (tokensOfMembers members ++ .endObject :: ts)
      have hmore := foldlM_members (fun m hm => ih m (List.mem_cons_of_mem _ hm)) outer
        [(some name, value)] (.endObject :: ts)
      have hobject := ofMembers_reverse ((name, value) :: members)
      rw [List.map_cons, List.reverse_cons] at hobject
      have hlist : (tokens (.obj ((name, value) :: members)) ++ ts) =
          .beginObject :: .str (some name) :: .colon ::
            (value.tokens ++ (tokensOfMembers members ++ .endObject :: ts)) := by
        simp [tokens]
      rw [hlist]
      change (value.tokens ++ (tokensOfMembers members ++ .endObject :: ts)).foldlM step
        (.value (.object [] (some name) :: outer)) = _
      rw [hvalue]
      change (tokensOfMembers members ++ .endObject :: ts).foldlM step
        (.afterMember outer [(some name, value)]) = _
      rw [hmore]
      change ts.foldlM step (deliver (ofMembers ((members.map fun m => (some m.1, m.2)).reverse ++
        [(some name, value)])) outer) = _
      rw [hobject]

/-- A plain document is read back from its text. -/
theorem Plain.parse?_text {j : Json} (h : Plain j) : parse? j.text = some j := by
  have htokens := h.printed 0 [] trivial
  rw [Token.tokens?_nil, Option.map_some, List.append_nil] at htokens
  have hdeliver := h.delivered [] []
  rw [List.append_nil] at hdeliver
  rw [parse?, text, String.toList_ofList, htokens, Option.bind_some, ofTokens?, hdeliver]
  rfl

end CilMmix.Json
