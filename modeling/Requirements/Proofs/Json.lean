import Mathlib
import Requirements.Json

/-!
# What is read of a JSON value

Of a record only the fields are read. The members of an object that are no fields may
be left out, at any depth, and a field may be changed in any way that its reader does
not see.
-/

namespace Requirements

variable {α β : Type}

/-- Items that are written so that they read back do so together. -/
theorem mapM_map_some {write : α → β} {read : β → Option α} (h : ∀ a, read (write a) = some a)
    (xs : List α) : (xs.map write).mapM read = some xs := by
  induction xs with
  | nil => rfl
  | cons x xs ih => simp [h, ih]

namespace Json

/-- The value with every item changed, if it is an array. -/
def mapItems (f : Json → Json) : Json → Json
  | .array items => .array (items.map f)
  | j => j

/-- The record without the members that are no fields, and with its fields changed. -/
def onlyFields (fields : List (String × (Json → Json))) : Json → Json
  | .object members =>
      .object (members.filterMap fun m => (fields.lookup m.1).map fun f => (m.1, f m.2))
  | .array items =>
      if items.length ≤ fields.length then
        .array (List.zipWith (fun field item => field.2 item) fields items)
      else .array items
  | j => j

theorem list?_array_map {write : α → Json} {read : Json → Option α}
    (h : ∀ a, read (write a) = some a) (xs : List α) :
    (Json.array (xs.map write)).list? read = some xs :=
  mapM_map_some h xs

/-- Changes of the items that their reader does not see are not seen in the array. -/
theorem list?_mapItems {f : Json → Json} {read : Json → Option α} (h : ∀ j, read (f j) = read j)
    (j : Json) : (mapItems f j).list? read = j.list? read := by
  have hread : read ∘ f = read := funext h
  cases j with
  | array items =>
      show (items.map f).mapM read = items.mapM read
      rw [List.mapM_map, hread]
  | _ => rfl

theorem mapItems_array_map {f : Json → Json} {write : α → Json} (h : ∀ a, f (write a) = write a)
    (xs : List α) : mapItems f (.array (xs.map write)) = .array (xs.map write) := by
  simp [mapItems, Function.comp_def, h]

section

variable {fields : List (String × (Json → Json))} {name : String} {f : Json → Json}

theorem lookup_filterMap_fields (h : fields.lookup name = some f) (members : List (String × Json)) :
    (members.filterMap fun m => (fields.lookup m.1).map fun f => (m.1, f m.2)).lookup name =
      (members.lookup name).map f := by
  induction members with
  | nil => rfl
  | cons m members ih =>
      obtain ⟨key, value⟩ := m
      by_cases hkey : key = name
      · subst hkey
        simp [h]
      · have hname : (name == key) = false := beq_eq_false_iff_ne.2 (Ne.symm hkey)
        cases hfield : fields.lookup key <;> simp [hfield, List.lookup_cons, hname, ih]

theorem countP_filterMap_fields (h : fields.lookup name = some f) (members : List (String × Json)) :
    ((members.filterMap fun m => (fields.lookup m.1).map fun f => (m.1, f m.2)).countP
      fun m => m.1 == name) = members.countP fun m => m.1 == name := by
  induction members with
  | nil => rfl
  | cons m members ih =>
      by_cases hm : m.1 = name
      · subst hm
        simp [h, ih]
      · cases hfield : fields.lookup m.1 <;> simp [hfield, hm, ih]

/-- Fields given by position are changed one by one; the ones left out stay so. -/
theorem zipWith_positional {items : List Json} (h : items.length ≤ fields.length) :
    (List.zipWith (fun field item => field.2 item) fields items).map some ++
        List.replicate (fields.length - items.length) none =
      List.zipWith (fun field value => value.map field.2) fields
        (items.map some ++ List.replicate (fields.length - items.length) none) := by
  induction fields generalizing items with
  | nil =>
      obtain rfl : items = [] := List.length_eq_zero_iff.1 (Nat.le_zero.1 h)
      rfl
  | cons field fields ih =>
      cases items with
      | nil =>
          have hrest := @ih [] (Nat.zero_le _)
          simpa [List.replicate_succ] using hrest
      | cons item items =>
          have hrest := ih (Nat.le_of_succ_le_succ h)
          simpa using hrest

end

/-- The fields of a record whose other members are left out are its fields, each of them
changed. -/
theorem fields?_onlyFields {fields : List (String × (Json → Json))}
    (h : ∀ field ∈ fields, fields.lookup field.1 = some field.2) (j : Json) :
    (onlyFields fields j).fields? (fields.map (·.1)) =
      (j.fields? (fields.map (·.1))).map
        (List.zipWith (fun field value => value.map field.2) fields) := by
  cases j with
  | object members =>
      have hrepeated : (fields.map (·.1)).any (fun name =>
          1 < (members.filterMap fun m => (fields.lookup m.1).map fun f => (m.1, f m.2)).countP
            fun m => m.1 == name) =
          (fields.map (·.1)).any fun name => 1 < members.countP fun m => m.1 == name := by
        rw [Bool.eq_iff_iff, List.any_eq_true, List.any_eq_true]
        refine exists_congr fun name => and_congr_right fun hname => ?_
        obtain ⟨field, hfield, rfl⟩ := List.mem_map.1 hname
        rw [countP_filterMap_fields (h field hfield)]
      have hvalues : (fields.map (·.1)).map (fun name =>
          (members.filterMap fun m => (fields.lookup m.1).map fun f => (m.1, f m.2)).lookup name) =
          List.zipWith (fun field value => value.map field.2) fields
            ((fields.map (·.1)).map fun name => members.lookup name) := by
        rw [List.map_map, List.map_map, List.zipWith_map_right, List.zipWith_self]
        exact List.map_congr_left fun field hfield =>
          lookup_filterMap_fields (h field hfield) members
      simp only [onlyFields, fields?, hrepeated, hvalues]
      split <;> rfl
  | array items =>
      by_cases hlength : items.length ≤ fields.length
      · have hsame : (List.zipWith (fun field item => field.2 item) fields items).length =
            items.length := by simpa using hlength
        simp only [onlyFields, fields?, List.length_map, hsame, hlength, if_true,
          zipWith_positional hlength, Option.map_some]
      · simp [onlyFields, fields?, hlength]
  | _ => rfl

theorem length_of_fields? {names : List String} {j : Json} {values : List (Option Json)}
    (h : j.fields? names = some values) : values.length = names.length := by
  cases j with
  | object members =>
      simp only [fields?] at h
      split at h
      · cases h
      · obtain rfl := Option.some.inj h
        exact List.length_map _
  | array items =>
      simp only [fields?] at h
      split at h
      · obtain rfl := Option.some.inj h
        simp
        omega
      · cases h
  | _ => cases h

/-- A record of two fields without its other members: either neither can be read, or
their fields are the same up to the changes. -/
theorem fields?_pair {a b : String} (hne : a ≠ b) (f g : Json → Json) (j : Json) :
    (j.fields? [a, b] = none ∧ (onlyFields [(a, f), (b, g)] j).fields? [a, b] = none) ∨
      ∃ x y, j.fields? [a, b] = some [x, y] ∧
        (onlyFields [(a, f), (b, g)] j).fields? [a, b] = some [x.map f, y.map g] := by
  have hlookup : ∀ field ∈ [(a, f), (b, g)], [(a, f), (b, g)].lookup field.1 = some field.2 := by
    simp [List.lookup, beq_eq_false_iff_ne.2 hne.symm]
  have hfields := fields?_onlyFields hlookup j
  simp only [List.map_cons, List.map_nil] at hfields
  rw [hfields]
  cases hvalues : j.fields? [a, b] with
  | none => exact .inl ⟨rfl, rfl⟩
  | some values =>
      obtain ⟨x, y, rfl⟩ := List.length_eq_two.1 (length_of_fields? hvalues)
      exact .inr ⟨x, y, rfl, rfl⟩

end Json

end Requirements
