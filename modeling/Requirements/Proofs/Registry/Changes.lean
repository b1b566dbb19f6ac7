import Mathlib
import Requirements.Proofs.Table
import Requirements.Registry.Index

/-!
# An index after any changes

Releases found and failures are recorded one after the other, each under the
name that was asked for. Of the answers recorded under one name the last one
counts, and what an index says of a name hangs on these alone: it replays the
answer recorded under the name itself or else the one under the first of its
spellings, whichever of the changes came first.
-/

namespace Requirements.ReleaseIndex

/-- A change of an index. -/
inductive Change where
  /-- Releases are found for the name. -/
  | insert (name : String) (set : ReleaseSet)
  /-- A package that goes by the name is added. -/
  | withReleases (name : String) (releases : List String)
  /-- Asking for the name fails. -/
  | recordFailure (name : String) (failure : RegistryError)

namespace Change

/-- The name under which an answer is recorded. -/
def key : Change → String
  | .insert name _ => name
  | .withReleases name _ => name
  | .recordFailure name _ => name

def answer : Change → Answer
  | .insert _ set => .ok set
  | .withReleases name releases => .ok ⟨name, releases⟩
  | .recordFailure _ failure => .error failure

def apply (i : ReleaseIndex) : Change → ReleaseIndex
  | .insert name set => i.record name (.ok set)
  | .withReleases name releases => i.withReleases name releases
  | .recordFailure name failure => i.record name (.error failure)

theorem apply_eq (i : ReleaseIndex) (c : Change) : apply i c = i.record c.key c.answer := by
  cases c <;> rfl

end Change

/-- An index that is made by some changes, in order. -/
def after (registry : String) (cs : List Change) : ReleaseIndex :=
  cs.foldl Change.apply (.empty registry)

/-! ## What the changes say -/

/-- The answer recorded last under a name. -/
def lastWritten? (cs : List Change) (name : String) : Option Answer :=
  (cs.filter (·.key = name)).getLast?.map Change.answer

/-- The first name in code point order under which an answer was recorded and
that agrees with `name` after normalization. -/
def firstSpelling? (cs : List Change) (name : String) : Option String :=
  ((cs.map Change.key).filter (normalizeName · = normalizeName name)).min?

/-- The answer to replay for a name: the last one under the name itself, or else
the last one under the first of its spellings. -/
def replayed? (cs : List Change) (name : String) : Option Answer :=
  (lastWritten? cs name).or ((firstSpelling? cs name).bind (lastWritten? cs))

/-! ## What the index holds -/

variable {registry : String} {cs : List Change}

/-- The answers are those of the changes; one under the same name is replaced. -/
theorem after_eq (registry : String) (cs : List Change) :
    after registry cs = ⟨registry, Table.ofList (cs.map fun c => (c.key, c.answer))⟩ := by
  induction cs using List.reverseRecOn with
  | nil => rfl
  | append_singleton cs c ih =>
      have hstep : after registry (cs ++ [c]) = (after registry cs).record c.key c.answer := by
        rw [after, List.foldl_append, List.foldl_cons, List.foldl_nil, Change.apply_eq]
        rfl
      rw [hstep, ih, List.map_append, List.map_singleton, Table.ofList_concat]
      rfl

theorem find?_after (name : String) :
    (after registry cs).answers.find? name = lastWritten? cs name := by
  rw [after_eq, Table.find?_ofList, ← List.map_reverse, List.find?_map, lastWritten?,
    List.getLast?_filter, Option.map_map]
  rfl

theorem mem_keys_after {name : String} :
    name ∈ (after registry cs).answers.keys ↔ name ∈ cs.map Change.key := by
  rw [after_eq, Table.mem_keys_ofList, List.map_map]
  rfl

theorem size_after : (after registry cs).size = (cs.map Change.key).toFinset.card := by
  rw [after_eq, size, Table.size_ofList, List.map_map]
  rfl

/-- The first entry with the normalized name is stored under its first spelling. -/
theorem min?_keys_after (name : String) :
    ((after registry cs).answers.keys.filter (normalizeName · == normalizeName name)).min? =
      firstSpelling? cs name := by
  have hmem : ∀ key, key ∈ (after registry cs).answers.keys.filter
        (normalizeName · == normalizeName name) ↔
      key ∈ (cs.map Change.key).filter (normalizeName · = normalizeName name) := by
    intro key
    simp only [List.mem_filter, mem_keys_after, beq_iff_eq, decide_eq_true_eq]
  refine Option.ext fun key => ?_
  rw [firstSpelling?, List.min?_eq_some_iff, List.min?_eq_some_iff]
  simp only [hmem]

theorem lookup?_after (name : String) : (after registry cs).lookup? name = replayed? cs name := by
  have hfallback : ((after registry cs).answers.entries.find? fun e =>
      normalizeName e.1 == normalizeName name).map (·.2) =
        (firstSpelling? cs name).bind (lastWritten? cs) := by
    rw [Table.find?_entries_eq _ fun key => normalizeName key == normalizeName name,
      min?_keys_after, funext find?_after]
  rw [lookup?, replayed?, find?_after]
  cases lastWritten? cs name with
  | none => exact hfallback
  | some a => rfl

/-- Whatever was recorded, a name of white space only is refused as blank, and any
other name never is, save that this very refusal may have been recorded and be
replayed like any answer. For such a name the answer is the last one recorded
under it, even where other names agree with it after normalization, or else the
last one under the first of those names, and if there is none the package is not
found. The index counts every name once. -/
theorem fetch_after (registry : String) (cs : List Change) :
    (∀ name, (after registry cs).fetch name =
      if Text.isBlankText name then .error (.blankName name registry)
      else (replayed? cs name).getD (.error (.notFound name registry))) ∧
    (∀ name, (after registry cs).fetch name = .error (.blankName name registry) ↔
      Text.isBlankText name = true ∨
        replayed? cs name = some (.error (.blankName name registry))) ∧
    (after registry cs).size = (cs.map Change.key).toFinset.card := by
  have hfetch (name : String) : (after registry cs).fetch name =
      if Text.isBlankText name then .error (.blankName name registry)
      else (replayed? cs name).getD (.error (.notFound name registry)) := by
    rw [fetch, lookup?_after, after_eq]
  refine ⟨hfetch, fun name => ?_, size_after⟩
  rw [hfetch]
  cases Text.isBlankText name with
  | true => simp
  | false => cases replayed? cs name <;> simp [RegistryError.blankName]

/-- Two spellings of a package: the one asked for, and for a third the first of
both in code point order, though it was recorded last. -/
example :
    let i := after "PyPI" [.withReleases "flask-x" ["1.0"], .withReleases "Flask_X" ["2.0"]]
    i.fetch "flask-x" = .ok ⟨"flask-x", ["1.0"]⟩ ∧ i.fetch "FLASK.X" = .ok ⟨"Flask_X", ["2.0"]⟩ := by
  decide +kernel

end Requirements.ReleaseIndex
