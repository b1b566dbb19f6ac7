import Mathlib
import Requirements.Table

/-!
# Tables made from lists of pairs

A table has the keys of its pairs, each once. If no key occurs twice, the order of
the pairs does not matter. Lists that differ in the values only give tables that
differ in the values only.
-/

namespace Requirements.Table

variable {β γ : Type}

theorem find?_eq_some_iff {t : Table β} {k : String} {v : β} :
    t.find? k = some v ↔ (k, v) ∈ t.entries := by
  constructor
  · intro h
    obtain ⟨e, he, rfl⟩ := Option.map_eq_some_iff.1 h
    obtain rfl : e.1 = k := by simpa using List.find?_some he
    exact List.mem_of_find?_eq_some he
  · intro h
    have hsome : (t.entries.find? fun e => e.1 == k).isSome = true :=
      List.find?_isSome.2 ⟨_, h, beq_self_eq_true k⟩
    obtain ⟨e, he⟩ := Option.isSome_iff_exists.1 hsome
    -- A key stands for one entry only.
    have hkey : e.1 = k := by simpa using List.find?_some he
    obtain rfl : e = (k, v) :=
      List.inj_on_of_nodup_map t.keys_nodup (List.mem_of_find?_eq_some he) h hkey
    rw [find?, he]
    rfl

theorem exists_find?_of_mem_keys {t : Table β} {k : String} (h : k ∈ t.keys) :
    ∃ v, t.find? k = some v := by
  obtain ⟨e, he, rfl⟩ := List.mem_map.1 h
  exact ⟨e.2, find?_eq_some_iff.2 he⟩

theorem mem_keys_iff {t : Table β} {k : String} : k ∈ t.keys ↔ ∃ v, t.find? k = some v :=
  ⟨exists_find?_of_mem_keys, fun ⟨_, h⟩ => mem_keys_of_find? h⟩

theorem mem_of_find?_ofList {pairs : List (String × β)} {k : String} {v : β}
    (h : (ofList pairs).find? k = some v) : (k, v) ∈ pairs := by
  rw [find?_ofList] at h
  obtain ⟨e, he, rfl⟩ := Option.map_eq_some_iff.1 h
  obtain rfl : e.1 = k := by simpa using List.find?_some he
  exact List.mem_reverse.1 (List.mem_of_find?_eq_some he)

theorem mem_keys_ofList {pairs : List (String × β)} {k : String} :
    k ∈ (ofList pairs).keys ↔ k ∈ pairs.map (·.1) := by
  rw [mem_keys_iff]
  constructor
  · rintro ⟨v, hv⟩
    exact List.mem_map_of_mem (mem_of_find?_ofList hv)
  · intro h
    obtain ⟨e, he, rfl⟩ := List.mem_map.1 h
    have hsome : (pairs.reverse.find? fun d => d.1 == e.1).isSome = true :=
      List.find?_isSome.2 ⟨e, List.mem_reverse.2 he, beq_self_eq_true e.1⟩
    obtain ⟨d, hd⟩ := Option.isSome_iff_exists.1 hsome
    exact ⟨d.2, by rw [find?_ofList, hd]; rfl⟩

/-- If no key occurs twice, the entries are the pairs. -/
theorem entries_ofList_perm {pairs : List (String × β)} (h : (pairs.map (·.1)).Nodup) :
    (ofList pairs).entries.Perm pairs := by
  refine (List.perm_ext_iff_of_nodup (keys_nodup _).of_map h.of_map).2 fun e => ?_
  rw [← find?_eq_some_iff]
  exact ⟨mem_of_find?_ofList, find?_ofList_of_mem h⟩

/-- A table holds one entry for each key that the pairs have. -/
theorem size_ofList (pairs : List (String × β)) :
    (ofList pairs).size = (pairs.map (·.1)).toFinset.card := by
  rw [← length_keys, ← List.toFinset_card_of_nodup (keys_nodup _)]
  refine congrArg Finset.card (Finset.ext fun k => ?_)
  rw [List.mem_toFinset, List.mem_toFinset, mem_keys_ofList]

/-- The first entry whose key passes a test is that of the smallest key that does. -/
theorem find?_entries_eq (t : Table β) (p : String → Bool) :
    (t.entries.find? fun e => p e.1).map (·.2) = (t.keys.filter p).min?.bind t.find? := by
  cases hfind : t.entries.find? fun e => p e.1 with
  | none =>
      have hnone : t.keys.filter p = [] := by
        refine List.filter_eq_nil_iff.2 fun k hk => ?_
        obtain ⟨e, he, rfl⟩ := List.mem_map.1 hk
        exact List.find?_eq_none.1 hfind e he
      rw [hnone]
      rfl
  | some e =>
      obtain ⟨hp, front, back, hentries, hfront⟩ := List.find?_eq_some_iff_append.1 hfind
      have he : e ∈ t.entries := List.mem_of_find?_eq_some hfind
      have hmin : (t.keys.filter p).min? = some e.1 := by
        refine List.min?_eq_some_iff.2 ⟨?_, fun k hk => ?_⟩
        · exact List.mem_filter.2 ⟨List.mem_map_of_mem he, hp⟩
        · obtain ⟨hmem, hpk⟩ := List.mem_filter.1 hk
          obtain ⟨d, hd, rfl⟩ := List.mem_map.1 hmem
          have hsorted := t.sorted
          rw [hentries] at hd hsorted
          -- The keys before fail the test, and those after are larger.
          rcases List.mem_append.1 hd with hd | hd
          · exact absurd hpk (by simpa using hfront d hd)
          · rcases List.mem_cons.1 hd with rfl | hd
            · exact le_refl d.1
            · exact le_of_lt ((List.pairwise_cons.1 (List.pairwise_append.1 hsorted).2.1).1 d hd)
      rw [hmin, Option.bind_some, Option.map_some]
      exact (find?_eq_some_iff.2 he).symm

theorem insert_comm (t : Table β) {k l : String} (h : k ≠ l) (v w : β) :
    (t.insert k v).insert l w = (t.insert l w).insert k v := by
  apply Table.ext_find?
  intro x
  simp only [Table.find?_insert]
  by_cases hk : k = x
  · have hl : l ≠ x := fun hl => h (hk.trans hl.symm)
    simp [hk, hl]
  · simp [hk]

theorem ofList_concat (pairs : List (String × β)) (e : String × β) :
    ofList (pairs ++ [e]) = (ofList pairs).insert e.1 e.2 := by
  simp only [ofList, List.foldl_append, List.foldl_cons, List.foldl_nil]

theorem ofList_perm {pairs others : List (String × β)} (hkeys : (pairs.map (·.1)).Nodup)
    (h : pairs.Perm others) : ofList pairs = ofList others := by
  refine h.foldl_eq' (fun d hd e he t => ?_) _
  by_cases heq : d = e
  · rw [heq]
  · exact t.insert_comm (fun hkey => heq (List.inj_on_of_nodup_map hkeys hd he hkey)) d.2 e.2

/-- The tables have the same keys, and the values of each key are related. -/
def Agree (R : β → γ → Prop) (s : Table β) (t : Table γ) : Prop :=
  ∀ k, Option.Rel R (s.find? k) (t.find? k)

variable {R : β → γ → Prop}

@[simp] theorem keys_map (f : β → γ) (t : Table β) : (t.map f).keys = t.keys :=
  List.map_map

@[simp] theorem find?_map (f : β → γ) (t : Table β) (k : String) :
    (t.map f).find? k = (t.find? k).map f := by
  simp only [find?, map, List.find?_map, Option.map_map]
  rfl

/-- What relates the values says nothing of the keys, which are the same. -/
theorem Agree.keys_eq {s : Table β} {t : Table γ} (h : Agree R s t) : s.keys = t.keys := by
  have hsame : s.map (fun _ => ()) = t.map (fun _ => ()) := by
    refine ext_find? fun k => ?_
    have hk := h k
    rw [find?_map, find?_map]
    generalize s.find? k = v at hk ⊢
    generalize t.find? k = w at hk ⊢
    cases hk <;> rfl
  rw [← keys_map (fun _ => ()) s, hsame, keys_map]

theorem agree_empty : Agree R empty empty :=
  fun _ => .none

theorem Agree.insert {s : Table β} {t : Table γ} (h : Agree R s t) {d : String × β}
    {e : String × γ} (hkey : d.1 = e.1) (hvalue : R d.2 e.2) :
    Agree R (s.insert d.1 d.2) (t.insert e.1 e.2) := by
  intro k
  rw [find?_insert, find?_insert, ← hkey]
  split
  · exact .some hvalue
  · exact h k

theorem agree_ofList {pairs : List (String × β)} {others : List (String × γ)}
    (h : List.Forall₂ (fun d e => d.1 = e.1 ∧ R d.2 e.2) pairs others) :
    Agree R (ofList pairs) (ofList others) :=
  List.rel_foldl (fun _ _ hst _ _ hde => hst.insert hde.1 hde.2) agree_empty h

end Requirements.Table
