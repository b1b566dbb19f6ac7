/-!
# Dictionaries in key order

A `Table` holds at most one value per name and lists its names in code point
order. The order is part of the type, so two tables with the same look-ups are
equal (`Table.ext_find?`).
-/

namespace Requirements

/-- A dictionary with string keys, listed in increasing order of the keys. -/
structure Table (β : Type) where
  entries : List (String × β)
  sorted : entries.Pairwise fun a b => a.1 < b.1
  deriving DecidableEq

namespace Table

variable {β : Type}

def empty : Table β :=
  ⟨[], .nil⟩

instance : Inhabited (Table β) :=
  ⟨empty⟩

/-- Put an entry at its place; an entry with the same key is replaced. -/
def insertEntry (k : String) (v : β) : List (String × β) → List (String × β)
  | [] => [(k, v)]
  | e :: rest =>
      if k < e.1 then (k, v) :: e :: rest
      else if k = e.1 then (k, v) :: rest
      else e :: insertEntry k v rest

theorem mem_insertEntry {k : String} {v : β} {e : String × β} {es : List (String × β)}
    (h : e ∈ insertEntry k v es) : e = (k, v) ∨ e ∈ es := by
  induction es with
  | nil => simpa [insertEntry] using h
  | cons d rest ih =>
      unfold insertEntry at h
      split at h
      · simpa using h
      · split at h
        · rcases List.mem_cons.1 h with h | h
          · exact .inl h
          · exact .inr (List.mem_cons_of_mem _ h)
        · rcases List.mem_cons.1 h with h | h
          · exact .inr (by simp [h])
          · exact (ih h).imp id (List.mem_cons_of_mem _)

/-- One of two different names precedes the other. -/
theorem lt_of_not_lt_of_ne {a b : String} (hlt : ¬a < b) (hne : a ≠ b) : b < a := by
  refine Decidable.byContradiction fun h => hne ?_
  exact String.le_antisymm (String.not_lt.1 h) (String.not_lt.1 hlt)

theorem sorted_insertEntry (k : String) (v : β) {es : List (String × β)}
    (h : es.Pairwise fun a b => a.1 < b.1) :
    (insertEntry k v es).Pairwise fun a b => a.1 < b.1 := by
  induction es with
  | nil => simp [insertEntry]
  | cons e rest ih =>
      obtain ⟨hhead, htail⟩ := List.pairwise_cons.1 h
      unfold insertEntry
      split
      · rename_i hlt
        refine List.pairwise_cons.2 ⟨fun d hd => ?_, h⟩
        rcases List.mem_cons.1 hd with rfl | hd
        · exact hlt
        · exact String.lt_trans hlt (hhead d hd)
      · split
        · rename_i heq
          exact List.pairwise_cons.2 ⟨fun d hd => heq ▸ hhead d hd, htail⟩
        · rename_i hlt hne
          refine List.pairwise_cons.2 ⟨fun d hd => ?_, ih htail⟩
          rcases mem_insertEntry hd with rfl | hd
          · exact lt_of_not_lt_of_ne hlt hne
          · exact hhead d hd

def insert (t : Table β) (k : String) (v : β) : Table β :=
  ⟨insertEntry k v t.entries, sorted_insertEntry k v t.sorted⟩

def find? (t : Table β) (k : String) : Option β :=
  (t.entries.find? fun e => e.1 == k).map (·.2)

def keys (t : Table β) : List String :=
  t.entries.map (·.1)

def values (t : Table β) : List β :=
  t.entries.map (·.2)

def size (t : Table β) : Nat :=
  t.entries.length

/-- The dictionary of a list of pairs; of two pairs with one key the later counts. -/
def ofList (pairs : List (String × β)) : Table β :=
  pairs.foldl (fun t e => t.insert e.1 e.2) empty

def map {γ : Type} (f : β → γ) (t : Table β) : Table γ where
  entries := t.entries.map fun e => (e.1, f e.2)
  sorted := List.pairwise_map.2 t.sorted

theorem find?_insertEntry (k k' : String) (v : β) {es : List (String × β)} :
    ((insertEntry k v es).find? fun e => e.1 == k') =
      if k = k' then some (k, v) else es.find? fun e => e.1 == k' := by
  induction es with
  | nil => by_cases h : k = k' <;> simp [insertEntry, h]
  | cons e rest ih =>
      unfold insertEntry
      split
      · by_cases h : k = k' <;> simp [h]
      · split
        · rename_i heq
          by_cases h : k = k'
          · simp [h]
          · have : (e.1 == k') = false := by simpa [heq] using h
            simp [h, this]
        · rename_i hne
          rw [List.find?_cons]
          by_cases h : k = k'
          · have : (e.1 == k') = false := by subst h; simpa using Ne.symm hne
            rw [this, ih]
            simp [h]
          · simp [List.find?_cons, ih, h]

/-- The last value set for a key is the one found. -/
@[simp] theorem find?_insert (t : Table β) (k k' : String) (v : β) :
    (t.insert k v).find? k' = if k = k' then some v else t.find? k' := by
  unfold find? insert
  rw [find?_insertEntry]
  split <;> simp

/-- A key below every key of a sorted list is not found in it. -/
theorem find?_eq_none_of_lt {k : String} {es : List (String × β)}
    (h : ∀ e ∈ es, k < e.1) : (es.find? fun e => e.1 == k) = none := by
  refine List.find?_eq_none.2 fun e he heq => ?_
  have : e.1 = k := by simpa using heq
  exact String.lt_irrefl k (this ▸ h e he)

theorem entries_eq_of_find? {es fs : List (String × β)}
    (he : es.Pairwise fun a b => a.1 < b.1) (hf : fs.Pairwise fun a b => a.1 < b.1)
    (h : ∀ k, (es.find? fun e => e.1 == k).map (·.2) = (fs.find? fun e => e.1 == k).map (·.2)) :
    es = fs := by
  induction es generalizing fs with
  | nil =>
      cases fs with
      | nil => rfl
      | cons f fs => simpa using h f.1
  | cons e es ih =>
      cases fs with
      | nil => simpa using h e.1
      | cons f fs =>
          obtain ⟨hehead, hetail⟩ := List.pairwise_cons.1 he
          obtain ⟨hfhead, hftail⟩ := List.pairwise_cons.1 hf
          have hkey : e.1 = f.1 := by
            refine Decidable.byContradiction fun hne => ?_
            by_cases hlt : e.1 < f.1
            · have hnone := @find?_eq_none_of_lt β e.1 (f :: fs) fun d hd => by
                rcases List.mem_cons.1 hd with rfl | hd
                · exact hlt
                · exact String.lt_trans hlt (hfhead d hd)
              have := h e.1
              rw [hnone] at this
              simp at this
            · have hlt := lt_of_not_lt_of_ne hlt hne
              have hnone := @find?_eq_none_of_lt β f.1 (e :: es) fun d hd => by
                rcases List.mem_cons.1 hd with rfl | hd
                · exact hlt
                · exact String.lt_trans hlt (hehead d hd)
              have := h f.1
              rw [hnone] at this
              simp at this
          have hval : e.2 = f.2 := by simpa [hkey] using h e.1
          have htail : es = fs := ih hetail hftail fun k => by
            by_cases hk : f.1 = k
            · subst hk
              rw [find?_eq_none_of_lt (fun d hd => hkey ▸ hehead d hd),
                find?_eq_none_of_lt hfhead]
            · simpa [List.find?_cons, hkey, hk] using h k
          rw [htail, Prod.ext hkey hval]

/-- Tables with the same look-ups are equal. -/
theorem ext_find? {s t : Table β} (h : ∀ k, s.find? k = t.find? k) : s = t := by
  have := entries_eq_of_find? s.sorted t.sorted h
  cases s
  cases t
  simpa using this

@[simp] theorem find?_empty (k : String) : (empty : Table β).find? k = none := rfl

@[simp] theorem keys_empty : (empty : Table β).keys = [] := rfl

@[simp] theorem length_keys (t : Table β) : t.keys.length = t.size :=
  List.length_map _

theorem mem_keys_of_find? {t : Table β} {k : String} {v : β} (h : t.find? k = some v) :
    k ∈ t.keys := by
  obtain ⟨e, he, _⟩ := Option.map_eq_some_iff.1 h
  have hk : e.1 = k := by simpa using List.find?_some he
  exact hk ▸ List.mem_map_of_mem (List.mem_of_find?_eq_some he)

theorem keys_nodup (t : Table β) : t.keys.Nodup := by
  refine List.pairwise_map.2 (t.sorted.imp fun {a b} hlt heq => ?_)
  rw [heq] at hlt
  exact String.lt_irrefl b.1 hlt

/-- A new key takes its place among the others, which all stay. -/
theorem keys_insert_perm {t : Table β} {k : String} {v : β} (h : k ∉ t.keys) :
    (t.insert k v).keys.Perm (k :: t.keys) := by
  have key : ∀ es : List (String × β), k ∉ es.map (·.1) →
      (insertEntry k v es).Perm ((k, v) :: es) := by
    intro es
    induction es with
    | nil => simp [insertEntry]
    | cons e rest ih =>
        intro hk
        obtain ⟨hne, hrest⟩ := not_or.1 (fun h => hk (List.mem_cons.2 h))
        unfold insertEntry
        rw [if_neg hne]
        split
        · exact .refl _
        · exact ((ih hrest).cons e).trans (.swap _ _ _)
  exact (key t.entries h).map (·.1)

/-- Of the pairs with a key the last one is found. -/
theorem find?_ofList (pairs : List (String × β)) (k : String) :
    (ofList pairs).find? k = (pairs.reverse.find? fun e => e.1 == k).map (·.2) := by
  have key : ∀ (pairs : List (String × β)) (t : Table β),
      (pairs.foldl (fun t e => t.insert e.1 e.2) t).find? k =
        ((pairs.reverse.find? fun e => e.1 == k).map (·.2)).or (t.find? k) := by
    intro pairs
    induction pairs with
    | nil =>
        intro t
        rfl
    | cons e rest ih =>
        intro t
        rw [List.foldl_cons, ih, find?_insert, List.reverse_cons, List.find?_append,
          List.find?_singleton]
        by_cases hk : e.1 = k
        · cases rest.reverse.find? (fun e => e.1 == k) <;> simp [hk]
        · cases rest.reverse.find? (fun e => e.1 == k) <;> simp [hk]
  rw [ofList, key, find?_empty, Option.or_none]

/-- A pair is found if no other one has its key. -/
theorem find?_ofList_of_mem {pairs : List (String × β)} (h : (pairs.map (·.1)).Nodup)
    {k : String} {v : β} (hmem : (k, v) ∈ pairs) : (ofList pairs).find? k = some v := by
  have key : ∀ {pairs : List (String × β)}, (pairs.map (·.1)).Nodup → (k, v) ∈ pairs →
      (pairs.find? fun e => e.1 == k) = some (k, v) := by
    intro pairs
    induction pairs with
    | nil =>
        intro _ hmem
        cases hmem
    | cons e rest ih =>
        intro h hmem
        rw [List.map_cons, List.nodup_cons] at h
        rcases List.mem_cons.1 hmem with rfl | hmem
        · simp
        · have hne : e.1 ≠ k := fun hk => h.1 (hk ▸ List.mem_map_of_mem (f := (·.1)) hmem)
          rw [List.find?_cons_of_neg (by simpa using hne), ih h.2 hmem]
  have hreverse : (pairs.reverse.map (·.1)).Nodup := by
    rw [List.map_reverse]
    exact List.pairwise_reverse.2 (h.imp Ne.symm)
  rw [find?_ofList, key hreverse (List.mem_reverse.2 hmem)]
  rfl

end Table

end Requirements
