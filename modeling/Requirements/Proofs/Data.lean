import Mathlib
import Requirements.Proofs.Json
import Requirements.Proofs.Table
import Requirements.Requirement.Data
import Requirements.Resolution.Data

/-!
# Resolutions and requirements survive as data

What is written as data reads back as it was. Members of an object that are no fields of
the record do not count when it is read, and none is written.
-/

namespace Requirements

/-! ## What a value of each kind is read from -/

def Term.known : Json → Json :=
  Json.onlyFields [("op", id), ("version", id)]

def Branch.known : Json → Json
  | .object [(key, value)] =>
      .object [(key, if key = "single" then Term.known value else value.mapItems Term.known)]
  | j => j

def Requirement.known : Json → Json :=
  Json.onlyFields [("name", id), ("groups", Json.mapItems Branch.known)]

def Skipped.known : Json → Json :=
  Json.onlyFields [("name", id), ("reason", id)]

def Resolution.known : Json → Json :=
  Json.onlyFields [("entries", id), ("skipped", Json.mapItems Skipped.known)]

/-- Values of a kind survive as data. Of a JSON value `known` leaves out the members that
are no fields, at any depth. -/
structure Survives {α : Type} (write : α → Json) (read : Json → Option α) (known : Json → Json) :
    Prop where
  read_write : ∀ a, read (write a) = some a
  read_known : ∀ j, read (known j) = read j
  known_write : ∀ a, known (write a) = write a

theorem Survives.rewritten {α : Type} {write : α → Json} {read : Json → Option α}
    {known : Json → Json} (h : Survives write read known) {j : Json} {a : α}
    (ha : read j = some a) :
    read (write a) = some a ∧ read (known j) = some a ∧ known (write a) = write a :=
  ⟨h.read_write a, (h.read_known j).trans ha, h.known_write a⟩

/-! ## Requirements -/

theorem Operator.ofJson?_toJson (op : Operator) : ofJson? op.toJson = some op :=
  ofName?_name op

theorem Term.survives : Survives toJson ofJson? known where
  read_write t := by
    simp [toJson, ofJson?, Json.fields?, Operator.ofJson?_toJson, Json.string?, List.lookup]
  read_known j := by
    unfold known ofJson?
    obtain ⟨h, hknown⟩ | ⟨x, y, h, hknown⟩ :=
      Json.fields?_pair (a := "op") (b := "version") (by decide) id id j
    · rw [h, hknown]
    · rw [h, hknown, Option.map_id, id, id]
  known_write t := rfl

theorem Branch.survives : Survives toJson ofJson? known where
  read_write b := by
    cases b with
    | single t => simp [toJson, ofJson?, Term.survives.read_write]
    | all ts => simp [toJson, ofJson?, Json.list?_array_map Term.survives.read_write]
  read_known j := by
    unfold known
    split
    · rename_i key value
      by_cases hkey : key = "single"
      · simp [ofJson?, hkey, Term.survives.read_known]
      · simp [ofJson?, hkey, Json.list?_mapItems Term.survives.read_known]
    · rfl
  known_write b := by
    cases b with
    | single t => rfl
    | all ts => simp [toJson, known, Json.mapItems_array_map Term.survives.known_write]

theorem Requirement.survives : Survives toJson ofJson? known where
  read_write r := by
    simp [toJson, ofJson?, Json.fields?, Json.string?, List.lookup,
      Json.list?_array_map Branch.survives.read_write]
  read_known j := by
    unfold known ofJson?
    obtain ⟨h, hknown⟩ | ⟨x, y, h, hknown⟩ := Json.fields?_pair (a := "name") (b := "groups")
      (by decide) id (Json.mapItems Branch.known) j
    · rw [h, hknown]
    · rw [h, hknown]
      cases x <;> cases y <;> simp [Json.list?_mapItems Branch.survives.read_known]
  known_write r := by
    have hbranches := Json.mapItems_array_map Branch.survives.known_write r.branches
    simp [toJson, known, Json.onlyFields, List.lookup, hbranches]

/-! ## Resolutions -/

theorem Picked.ofJson?_toJson (p : Picked) : ofJson? p.toJson = some p := by
  cases p with
  | latest v => rfl
  | every vs =>
      have hstring : ∀ v, Json.string? (.string v) = some v := fun _ => rfl
      simp [toJson, ofJson?, mapM_map_some hstring vs]
  | unmatched => rfl

theorem Skipped.survives : Survives toJson ofJson? known where
  read_write s := rfl
  read_known j := by
    unfold known ofJson?
    obtain ⟨h, hknown⟩ | ⟨x, y, h, hknown⟩ := Json.fields?_pair (a := "name") (b := "reason")
      (by decide) id id j
    · rw [h, hknown]
    · rw [h, hknown, Option.map_id, id, id]
  known_write s := rfl

/-- A dictionary is the one made of its entries. -/
theorem Table.ofList_entries {β : Type} (t : Table β) : ofList t.entries = t := by
  refine ext_find? fun k => Option.ext fun v => ?_
  rw [@find?_eq_some_iff _ t]
  exact ⟨mem_of_find?_ofList, find?_ofList_of_mem t.keys_nodup⟩

theorem Table.ofJson?_toJson {β : Type} {write : β → Json} {read : Json → Option β}
    (h : ∀ b, read (write b) = some b) (t : Table β) :
    Table.ofJson? read (t.toJson write) = some t := by
  have hmembers : (t.toJson write).members? read = some t.entries :=
    mapM_map_some (fun e => by simp [h]) t.entries
  rw [Table.ofJson?, hmembers, Option.map_some, ofList_entries]

theorem Resolution.survives : Survives toJson ofJson? known where
  read_write r := by
    have hentries := Table.ofJson?_toJson Picked.ofJson?_toJson r.entries
    have hskipped := Json.list?_array_map Skipped.survives.read_write r.skipped
    by_cases hempty : r.skipped = []
    · have hr : r = ⟨r.entries, []⟩ := by rw [← hempty]
      simpa [toJson, ofJson?, Json.fields?, List.lookup, hempty, hentries] using hr.symm
    · simp [toJson, ofJson?, Json.fields?, List.lookup, hempty, hentries, hskipped]
  read_known j := by
    unfold known ofJson?
    obtain ⟨h, hknown⟩ | ⟨x, y, h, hknown⟩ := Json.fields?_pair (a := "entries") (b := "skipped")
      (by decide) id (Json.mapItems Skipped.known) j
    · rw [h, hknown]
    · rw [h, hknown]
      cases x <;> cases y <;> simp [Json.list?_mapItems Skipped.survives.read_known]
  known_write r := by
    have hskipped := Json.mapItems_array_map Skipped.survives.known_write r.skipped
    by_cases hempty : r.skipped = []
    · simp [toJson, known, Json.onlyFields, List.lookup, hempty]
    · simp [toJson, known, Json.onlyFields, List.lookup, hempty, hskipped]

/-! ## Both -/

/-- Resolutions and requirements read back from what they are written as. What reads as
one of them, whatever members it has besides, is written as a value that reads the same
and has no such members. -/
theorem data_survives :
    (∀ r : Resolution, Resolution.ofJson? r.toJson = some r) ∧
    (∀ r : Requirement, Requirement.ofJson? r.toJson = some r) ∧
    (∀ j r, Resolution.ofJson? j = some r → Resolution.ofJson? r.toJson = some r ∧
      Resolution.ofJson? (Resolution.known j) = some r ∧ Resolution.known r.toJson = r.toJson) ∧
    ∀ j r, Requirement.ofJson? j = some r → Requirement.ofJson? r.toJson = some r ∧
      Requirement.ofJson? (Requirement.known j) = some r ∧
        Requirement.known r.toJson = r.toJson :=
  ⟨Resolution.survives.read_write, Requirement.survives.read_write,
    fun _ _ => Resolution.survives.rewritten, fun _ _ => Requirement.survives.rewritten⟩

/-- An empty list and null are told apart, and members that are no fields go missing, of
the requirement and of a term in it. -/
theorem data_survives_extra :
    let resolution : Json := .object [("note", .bool true), ("entries",
      .object [("b", .null), ("a", .array [])])]
    let requirement : Json := .object [("groups", .array [.object [("single", .object
      [("op", .object [("equal", .null)]), ("note", .null), ("version", .string "1.0")])]]),
      ("name", .string "foo"), ("note", .integer 1)]
    let r : Resolution := ⟨.ofList [("a", .every []), ("b", .unmatched)], []⟩
    let q : Requirement := ⟨"foo", [.single ⟨.equal, "1.0"⟩]⟩
    Resolution.ofJson? resolution = some r ∧ Resolution.ofJson? r.toJson = some r ∧
      Requirement.ofJson? requirement = some q ∧ Requirement.ofJson? q.toJson = some q ∧
      Requirement.known requirement = .object [("groups", .array [.object [("single", .object
        [("op", .object [("equal", .null)]), ("version", .string "1.0")])]]),
        ("name", .string "foo")] := by
  intro resolution requirement r q
  have hresolution : Resolution.ofJson? resolution = some r := by decide
  have hrequirement : Requirement.ofJson? requirement = some q := by decide
  exact ⟨hresolution, (data_survives.2.2.1 resolution r hresolution).1, hrequirement,
    (data_survives.2.2.2 requirement q hrequirement).1, rfl⟩

end Requirements
