import Mathlib.Data.List.Basic
import Consistency.Ordered.Map

/-!
# Look-ups in ordered maps

What a map gives for a key after an entry was put in. Nothing here needs the
keys to be in order: an entry is put before all others of its key. Maps are in
linear order if their keys and values are.
-/

set_option autoImplicit false

namespace Consistency

theorem mem_of_lookup {κ β : Type} [BEq κ] [LawfulBEq κ] {k : κ} {v : β} {es : List (κ × β)}
    (h : es.lookup k = some v) : (k, v) ∈ es := by
  obtain ⟨l₁, l₂, rfl, _⟩ := List.lookup_eq_some_iff.1 h
  simp

theorem lookup_eq_some_iff {κ β : Type} [BEq κ] [LawfulBEq κ] {k : κ} {v : β} {es : List (κ × β)}
    (h : (es.map Prod.fst).Nodup) : es.lookup k = some v ↔ (k, v) ∈ es := by
  refine ⟨mem_of_lookup, fun hmem => ?_⟩
  induction es with
  | nil => exact absurd hmem (by simp)
  | cons e es ih =>
    rw [List.map_cons, List.nodup_cons] at h
    rcases List.mem_cons.1 hmem with rfl | hmem
    · simp
    · have hne : (k == e.1) = false := by
        rw [beq_eq_false_iff_ne]
        rintro rfl
        exact h.1 (List.mem_map.2 ⟨_, hmem, rfl⟩)
      rw [List.lookup_cons, hne]
      exact ih h.2 hmem

namespace OrderedMap
variable {κ β : Type} [Ord κ] [Std.LawfulEqOrd κ] [BEq κ] [LawfulBEq κ]

omit [BEq κ] [LawfulBEq κ] in
theorem ne_of_compare_gt {a b : κ} (h : compare a b = .gt) : a ≠ b := by
  rintro rfl
  rw [Std.compare_self] at h
  exact Ordering.noConfusion h

theorem lookup_insertList (k k' : κ) (v : β) (es : List (κ × β)) :
    (insertList k v es).lookup k' = if k' == k then some v else es.lookup k' := by
  induction es with
  | nil => cases h : k' == k <;> simp [insertList, List.lookup_cons, h]
  | cons e es ih =>
    obtain ⟨a, b⟩ := e
    unfold insertList
    split
    · cases h : k' == k <;> simp [List.lookup_cons, h]
    · next hc =>
      obtain rfl : k = a := Std.LawfulEqOrd.eq_of_compare hc
      cases h : k' == k <;> simp [List.lookup_cons, h]
    · next hc =>
      have hka : k ≠ a := ne_of_compare_gt hc
      cases h : k' == a with
      | true =>
        obtain rfl := eq_of_beq h
        have hf : (k' == k) = false := by simpa using hka.symm
        simp [hf]
      | false => simp only [List.lookup_cons, h, ih]

theorem get?_insert (m : OrderedMap κ β) (k k' : κ) (v : β) :
    (m.insert k v).get? k' = if k' == k then some v else m.get? k' :=
  lookup_insertList k k' v m.entries

omit [BEq κ] [LawfulBEq κ] [Std.LawfulEqOrd κ] in
theorem mem_insertList {k : κ} {v : β} {es : List (κ × β)} {e : κ × β}
    (h : e ∈ insertList k v es) : e = (k, v) ∨ e ∈ es := by
  induction es with
  | nil => simpa [insertList] using h
  | cons d es ih =>
    unfold insertList at h
    split at h
    · simpa using h
    · rcases List.mem_cons.1 h with rfl | h
      · exact .inl rfl
      · exact .inr (List.mem_cons_of_mem _ h)
    · rcases List.mem_cons.1 h with rfl | h
      · exact .inr (by simp)
      · exact (ih h).imp_right (List.mem_cons_of_mem _)

omit [BEq κ] [LawfulBEq κ] [Std.LawfulEqOrd κ] in
theorem mem_insertList_self (k : κ) (v : β) (es : List (κ × β)) : (k, v) ∈ insertList k v es := by
  induction es with
  | nil => simp [insertList]
  | cons e es ih =>
    unfold insertList
    split <;> simp [ih]

/-- Only what was found for the key before may go. -/
theorem mem_insertList_of_mem {k : κ} {v : β} {es : List (κ × β)} {e : κ × β} (h : e ∈ es) :
    e ∈ insertList k v es ∨ (e.1 = k ∧ es.lookup k = some e.2) := by
  induction es with
  | nil => exact absurd h (by simp)
  | cons d es ih =>
    obtain ⟨a, b⟩ := d
    unfold insertList
    split
    · exact .inl (List.mem_cons_of_mem _ h)
    · next hc =>
      obtain rfl : k = a := Std.LawfulEqOrd.eq_of_compare hc
      rcases List.mem_cons.1 h with rfl | h
      · exact .inr ⟨rfl, by simp⟩
      · exact .inl (List.mem_cons_of_mem _ h)
    · next hc =>
      have hne : k ≠ a := ne_of_compare_gt hc
      rcases List.mem_cons.1 h with rfl | h
      · exact .inl (by simp)
      · rcases ih h with hm | ⟨hk, hl⟩
        · exact .inl (List.mem_cons_of_mem _ hm)
        · have hf : (k == a) = false := by simpa using hne
          exact .inr ⟨hk, by simp only [List.lookup_cons, hf, hl]⟩

omit [Ord κ] [Std.LawfulEqOrd κ] in
theorem get?_eq_none {m : OrderedMap κ β} {k : κ} (h : m.get? k = none) : k ∉ m.keys := by
  rw [get?, List.lookup_eq_none_iff] at h
  intro hk
  obtain ⟨e, he, rfl⟩ := List.mem_map.1 hk
  simpa using h e he

omit [BEq κ] [LawfulBEq κ] in
theorem keys_insert_perm {m : OrderedMap κ β} {k : κ} (v : β) (h : k ∉ m.keys) :
    (m.insert k v).keys.Perm (k :: m.keys) := by
  obtain ⟨es⟩ := m
  simp only [insert, keys] at h ⊢
  induction es with
  | nil => simp [insertList]
  | cons e es ih =>
    rw [List.map_cons, List.mem_cons, not_or] at h
    unfold insertList
    split
    · simp
    · next hc => exact absurd (Std.LawfulEqOrd.eq_of_compare hc) h.1
    · rw [List.map_cons, List.map_cons]
      exact ((ih h.2).cons e.1).trans (List.Perm.swap k e.1 _)

omit [BEq κ] [LawfulBEq κ] in
theorem mem_keys_insert {m : OrderedMap κ β} {k k' : κ} {v : β} :
    k' ∈ (m.insert k v).keys ↔ k' = k ∨ k' ∈ m.keys := by
  obtain ⟨es⟩ := m
  simp only [insert, keys]
  induction es with
  | nil => simp [insertList]
  | cons e es ih =>
    unfold insertList
    split
    · simp
    · next hc =>
      obtain rfl := Std.LawfulEqOrd.eq_of_compare hc
      simp
    · rw [List.map_cons, List.mem_cons, ih, List.map_cons, List.mem_cons]
      exact or_left_comm

def Sorted (m : OrderedMap κ β) : Prop := m.keys.Pairwise fun a b => compare a b = .lt

omit [Std.LawfulEqOrd κ] [BEq κ] [LawfulBEq κ] in
theorem empty_sorted : (empty : OrderedMap κ β).Sorted := .nil

omit [BEq κ] [LawfulBEq κ] in
theorem insert_sorted [Std.TransOrd κ] {m : OrderedMap κ β} (h : m.Sorted) (k : κ) (v : β) :
    (m.insert k v).Sorted := by
  obtain ⟨es⟩ := m
  simp only [Sorted, insert, keys] at h ⊢
  induction es with
  | nil => simp [insertList]
  | cons e es ih =>
    rw [List.map_cons, List.pairwise_cons] at h
    unfold insertList
    split
    · next hc =>
      refine List.pairwise_cons.2 ⟨fun b hb => ?_, List.pairwise_cons.2 h⟩
      rcases List.mem_cons.1 hb with rfl | hb
      · exact hc
      · exact Std.TransCmp.lt_trans hc (h.1 b hb)
    · next hc =>
      obtain rfl := Std.LawfulEqOrd.eq_of_compare hc
      exact List.pairwise_cons.2 h
    · next hc =>
      refine List.pairwise_cons.2 ⟨fun b hb => ?_, ih h.2⟩
      rcases (mem_keys_insert (m := ⟨es⟩)).1 hb with rfl | hb
      · exact Std.OrientedCmp.gt_iff_lt.1 hc
      · exact h.1 b hb

omit [Std.LawfulEqOrd κ] [BEq κ] [LawfulBEq κ] in
theorem Sorted.nodup [Std.TransOrd κ] {m : OrderedMap κ β} (h : m.Sorted) : m.keys.Nodup :=
  h.imp fun {a b} hab => by
    rintro rfl
    rw [Std.compare_self] at hab
    exact Ordering.noConfusion hab

omit [BEq κ] [LawfulBEq κ] in
theorem ofList_sorted [Std.TransOrd κ] (es : List (κ × β)) : (ofList es).Sorted := by
  suffices h : ∀ m : OrderedMap κ β, m.Sorted →
      (es.foldl (fun m e => m.insert e.1 e.2) m).Sorted from h _ empty_sorted
  induction es with
  | nil => exact fun m h => h
  | cons e es ih => exact fun m h => ih _ (insert_sorted h e.1 e.2)

omit [BEq κ] [LawfulBEq κ] in
theorem mem_keys_ofList {es : List (κ × β)} {k : κ} :
    k ∈ (ofList es).keys ↔ k ∈ es.map Prod.fst := by
  suffices h : ∀ m : OrderedMap κ β, k ∈ (es.foldl (fun m e => m.insert e.1 e.2) m).keys ↔
      k ∈ es.map Prod.fst ∨ k ∈ m.keys by
    simpa [ofList, empty, keys] using h empty
  induction es with
  | nil => simp
  | cons e es ih =>
    intro m
    rw [List.foldl_cons, ih, mem_keys_insert, List.map_cons, List.mem_cons]
    tauto

omit [Std.LawfulEqOrd κ] in
theorem mem_of_get?_ofList {es : List (κ × β)} {k : κ} {v : β}
    (h : (ofList es).get? k = some v) : (k, v) ∈ es := by
  suffices hall : ∀ m : OrderedMap κ β, ∀ e ∈ (es.foldl (fun m e => m.insert e.1 e.2) m).entries,
      e ∈ es ∨ e ∈ m.entries by
    simpa [empty] using hall empty _ (mem_of_lookup h)
  clear h
  induction es with
  | nil => simp
  | cons d es ih =>
    intro m e he
    rcases ih _ e he with he | he
    · exact .inl (List.mem_cons_of_mem _ he)
    · rcases mem_insertList he with rfl | he
      · exact .inl (by simp)
      · exact .inr he

omit [Ord κ] [Std.LawfulEqOrd κ] in
/-- Look-up in a map that was made key by key. -/
theorem get?_filterMap {α : Type} {f : α → Option (κ × β)}
    {k : α → κ} (hf : ∀ a e, f a = some e → e.1 = k a) {xs : List α} (h : (xs.map k).Nodup)
    {a : α} (ha : a ∈ xs) :
    (⟨xs.filterMap f⟩ : OrderedMap κ β).get? (k a) = (f a).map Prod.snd := by
  rw [get?]
  induction xs with
  | nil => exact absurd ha (by simp)
  | cons b xs ih =>
    rw [List.map_cons, List.nodup_cons] at h
    rw [List.filterMap_cons]
    have hrest : ∀ c ∈ xs, k c ≠ k b := fun c hc heq => h.1 (heq ▸ List.mem_map_of_mem hc)
    rcases List.mem_cons.1 ha with rfl | ha
    · cases hfa : f a with
      | some e =>
        rw [← hf a e hfa, List.lookup_cons, BEq.rfl]
        rfl
      | none =>
        refine List.lookup_eq_none_iff.2 fun e he => ?_
        obtain ⟨c, hc, hce⟩ := List.mem_filterMap.1 he
        rw [hf c e hce]
        simpa using (hrest c hc).symm
    · cases hfb : f b with
      | none => exact ih h.2 ha
      | some e =>
        have hne : (k a == e.1) = false := by
          rw [hf b e hfb]
          simpa using hrest a ha
        rw [List.lookup_cons, hne]
        exact ih h.2 ha

omit [Ord κ] [Std.LawfulEqOrd κ] in
/-- Look-up in a map whose entries were changed or left out. -/
theorem get?_filterMap_entries {α : Type} {m : OrderedMap κ α} (h : m.keys.Nodup)
    (f : α → Option β) (k : κ) :
    (⟨m.entries.filterMap fun e => (f e.2).map fun v => (e.1, v)⟩ : OrderedMap κ β).get? k =
      (m.get? k).bind f := by
  have hkey : ∀ (e : κ × α) (d : κ × β), (f e.2).map (fun v => (e.1, v)) = some d → d.1 = e.1 := by
    intro e d hd
    obtain ⟨v, -, rfl⟩ := Option.map_eq_some_iff.1 hd
    rfl
  cases hm : m.get? k with
  | some a =>
    refine (get?_filterMap (a := (k, a)) hkey h (mem_of_lookup hm)).trans ?_
    rw [Option.map_map, Option.bind_some]
    exact Option.map_id'
  | none =>
    refine List.lookup_eq_none_iff.2 fun d hd => ?_
    obtain ⟨e, he, hde⟩ := List.mem_filterMap.1 hd
    rw [hkey e d hde, bne_iff_ne]
    rintro rfl
    exact get?_eq_none hm (List.mem_map_of_mem he)

end OrderedMap

namespace OrderedMap
variable {κ β : Type} [Ord κ] [Ord β]

def compareEntry (d e : κ × β) : Ordering := (compare d.1 e.1).then (compare d.2 e.2)

theorem compareEntries_eq (ds es : List (κ × β)) :
    compareEntries ds es = ds.compareLex compareEntry es := by
  induction ds generalizing es with
  | nil => cases es <;> rfl
  | cons d ds ih =>
    cases es with
    | nil => rfl
    | cons e es =>
      rw [compareEntries, List.compareLex_cons_cons, ih, compareEntry, Ordering.then_assoc]

theorem compare_eq (m n : OrderedMap κ β) :
    compare m n = m.entries.compareLex compareEntry n.entries :=
  compareEntries_eq m.entries n.entries

instance [Std.TransOrd κ] [Std.TransOrd β] :
    Std.TransCmp (compareEntry : κ × β → κ × β → Ordering) :=
  inferInstanceAs (Std.TransCmp (compareLex (compareOn Prod.fst) (compareOn Prod.snd)))

instance [Std.LawfulEqOrd κ] [Std.LawfulEqOrd β] :
    Std.LawfulEqCmp (compareEntry : κ × β → κ × β → Ordering) where
  compare_self := by simp [compareEntry]
  eq_of_compare h := by
    rw [compareEntry, Ordering.then_eq_eq] at h
    exact Prod.ext (Std.LawfulEqOrd.eq_of_compare h.1) (Std.LawfulEqOrd.eq_of_compare h.2)

instance [Std.TransOrd κ] [Std.TransOrd β] : Std.TransOrd (OrderedMap κ β) where
  eq_swap {m n} := by
    rw [compare_eq, compare_eq]
    exact Std.OrientedCmp.eq_swap
  isLE_trans {l m n} := by
    rw [compare_eq, compare_eq, compare_eq]
    exact Std.TransCmp.isLE_trans

instance [Std.LawfulEqOrd κ] [Std.LawfulEqOrd β] : Std.LawfulEqOrd (OrderedMap κ β) where
  compare_self {m} := by rw [compare_eq, Std.LawfulEqCmp.compare_eq_iff_eq]
  eq_of_compare h := by
    rw [compare_eq, Std.LawfulEqCmp.compare_eq_iff_eq] at h
    exact congrArg OrderedMap.mk h

end OrderedMap
end Consistency
