import Mathlib
import Requirements.Proofs.Text.Words
import Requirements.Range.Partial

/-!
# Partial versions read back

Exactly the texts with an outline are read: a `v` or none, components, a tag and
build metadata. A partial version written with its components reads as itself,
provided that every component fits a word and the tag is one that can be read.
Reading gives only such versions, so nothing is lost between reading and writing.
-/

namespace Requirements

open Text (decimal wordMax numeral?)

/-! ## Numbers with points between them -/

theorem isDigit_of_mem_decimal {n : Nat} {c : Char} (h : c ∈ decimal n) : c.isDigit = true :=
  Nat.isDigit_of_mem_toDigits (by decide) (by decide) h

theorem decimal_ne_nil (n : Nat) : decimal n ≠ [] :=
  Nat.toDigits_ne_nil

/-- One or more ASCII digits. -/
def IsDigits (ds : List Char) : Prop :=
  ds ≠ [] ∧ ∀ c ∈ ds, c.isDigit = true

theorem isDigits_decimal (n : Nat) : IsDigits (decimal n) :=
  ⟨decimal_ne_nil n, fun _ => isDigit_of_mem_decimal⟩

theorem isDecimalDigit_of_isDigit {c : Char} (h : c.isDigit = true) :
    Text.isDecimalDigit c = true := by
  have hc : 48 ≤ c.toNat ∧ c.toNat ≤ 57 := by
    simp only [Char.isDigit, Bool.and_eq_true, decide_eq_true_eq] at h
    exact h
  refine List.any_eq_true.2 ⟨0x30, by decide, ?_⟩
  simp only [Bool.and_eq_true, decide_eq_true_eq]
  omega

theorem numeral?_decimal {n : Nat} (h : n ≤ wordMax) : numeral? (decimal n) = some n := by
  have hdigits : (decimal n).all Char.isDigit = true :=
    List.all_eq_true.2 fun _ => isDigit_of_mem_decimal
  have hne : (decimal n).isEmpty = false := List.isEmpty_eq_false_iff.2 (decimal_ne_nil n)
  simp [numeral?, hdigits, hne, Text.decimalValue_decimal, h]

theorem le_wordMax_of_numeral? {ds : List Char} {n : Nat} (h : numeral? ds = some n) :
    n ≤ wordMax := by
  unfold numeral? at h
  split at h
  · rename_i hd
    simp only [Bool.and_eq_true, decide_eq_true_eq] at hd
    obtain rfl := Option.some.inj h
    exact hd.2
  · cases h

theorem bump_eq_ok {m n : Nat} (h : bump m = .ok n) : n = m + 1 ∧ n ≤ wordMax := by
  unfold bump at h
  split at h
  · obtain rfl := Except.ok.inj h
    omega
  · cases h

@[simp] theorem toList_dotted (ns : List Nat) :
    (dotted ns).toList = ['.'].intercalate (ns.map decimal) :=
  String.toList_ofList

namespace PartialVersion

/-- A tag as it can be read: one or more tag characters. -/
def IsTag (cs : List Char) : Prop :=
  cs ≠ [] ∧ ∀ c ∈ cs, isTagChar c = true

/-- The components fit a word, and the tag can be read. -/
def Fits : PartialVersion → Prop
  | .any => True
  | .major a => a ≤ wordMax
  | .minor a b => a ≤ wordMax ∧ b ≤ wordMax
  | .patch a b c tag => a ≤ wordMax ∧ b ≤ wordMax ∧ c ≤ wordMax ∧ ∀ t ∈ tag, IsTag t.toList

/-- The version with the components it has; a star stands for none. -/
def written : PartialVersion → Version
  | .any => "*"
  | .major a => dotted [a]
  | .minor a b => dotted [a, b]
  | .patch a b c tag => (PartialVersion.patch a b c tag).floor

/-! ## What can be read -/

theorem isTag_of_tag? {cs tag : List Char} (h : tag? cs = some (some tag)) : IsTag tag := by
  unfold tag? at h
  split at h
  · rename_i rest
    dsimp only at h
    split at h
    · rename_i hc
      simp only [Bool.and_eq_true, Bool.not_eq_true', List.isEmpty_eq_false_iff] at hc
      obtain rfl := Option.some.inj (Option.some.inj h)
      exact ⟨hc.1, fun c hc => List.mem_takeWhile_imp hc⟩
    · cases h
  · split at h <;> cases h

theorem fits_ofComponents {cs : List (List Char)} {tag : Option (List Char)}
    (htag : ∀ t ∈ tag, IsTag t) : (ofComponents cs tag).Fits := by
  have hnumeral : ∀ n, some n ∈ cs.map numeral? → n ≤ wordMax := by
    intro n hn
    obtain ⟨ds, _, hds⟩ := List.mem_map.1 hn
    exact le_wordMax_of_numeral? hds
  unfold ofComponents
  split
  · rename_i a b c rest hcs
    rw [hcs] at hnumeral
    refine ⟨hnumeral a (by simp), hnumeral b (by simp), hnumeral c (by simp), ?_⟩
    intro t ht
    obtain ⟨t, htt, rfl⟩ := Option.map_eq_some_iff.1 ht
    rw [String.toList_ofList]
    exact htag t htt
  · rename_i a b rest _ hcs
    rw [hcs] at hnumeral
    exact ⟨hnumeral a (by simp), hnumeral b (by simp)⟩
  · rename_i a rest _ _ hcs
    rw [hcs] at hnumeral
    exact hnumeral a (by simp)
  · trivial

/-- A text that reads as a partial version has components at its start, perhaps
after a `v`, and a tag that can be read after them. -/
theorem exists_of_read? {cs : List Char} {p : PartialVersion} (h : read? cs = some p) :
    ∃ core first rest tag,
      (Text.trim cs = core ∨ Text.trim cs = 'v' :: core ∨ Text.trim cs = 'V' :: core) ∧
      component? core = some (first, rest) ∧ tag? (furtherComponents 2 rest).2 = some tag ∧
      p = ofComponents (first :: (furtherComponents 2 rest).1) tag := by
  simp only [read?, Option.bind_eq_bind, Option.bind_eq_some_iff] at h
  obtain ⟨⟨first, rest⟩, hfirst, tag, htag, hp⟩ := h
  refine ⟨_, first, rest, tag, ?_, hfirst, htag, (Option.some.inj hp).symm⟩
  split
  · rename_i core hcore
    exact .inr (.inl hcore)
  · rename_i core hcore
    exact .inr (.inr hcore)
  · exact .inl rfl

theorem fits_of_read? {cs : List Char} {p : PartialVersion} (h : read? cs = some p) : p.Fits := by
  obtain ⟨core, first, rest, tag, _, _, htag, rfl⟩ := exists_of_read? h
  refine fits_ofComponents fun t ht => ?_
  obtain rfl : tag = some t := ht
  exact isTag_of_tag? htag

/-- A component is what stands in front of the rest. -/
theorem eq_append_of_component? {cs c rest : List Char} (h : component? cs = some (c, rest)) :
    cs = c ++ rest := by
  unfold component? at h
  split at h
  · cases h
  · rename_i d cs
    split at h
    · obtain ⟨rfl, rfl⟩ := Prod.mk.inj (Option.some.inj h)
      exact List.takeWhile_append_dropWhile.symm
    · split at h
      · obtain ⟨rfl, rfl⟩ := Prod.mk.inj (Option.some.inj h)
        rfl
      · cases h

/-! ## Reading what is spelled out -/

theorem isTagChar_of_isDigit {c : Char} (h : c.isDigit = true) : isTagChar c = true := by
  simp [isTagChar, Char.isAlphanum, h]

theorem isTagChar_of_mem_decimal {n : Nat} {c : Char} (h : c ∈ decimal n) :
    isTagChar c = true :=
  isTagChar_of_isDigit (isDigit_of_mem_decimal h)

theorem isBlank_of_isTagChar {c : Char} (h : isTagChar c = true) : Text.isBlank c = false := by
  simp only [isTagChar, Bool.or_eq_true, beq_iff_eq] at h
  rcases h with (h | rfl) | rfl
  · exact Text.isBlank_of_isAlphanum h
  · decide
  · decide

/-- A component as it may be written: decimal digits of any script, or one wildcard. -/
def IsComponent (c : List Char) : Prop :=
  (c ≠ [] ∧ ∀ x ∈ c, Text.isDecimalDigit x = true) ∨ ∃ x, c = [x] ∧ isWildcard x = true

theorem isComponent_of_isDigits {ds : List Char} (h : IsDigits ds) : IsComponent ds :=
  .inl ⟨h.1, fun c hc => isDecimalDigit_of_isDigit (h.2 c hc)⟩

theorem isDecimalDigit_of_isWildcard {x : Char} (h : isWildcard x = true) :
    Text.isDecimalDigit x = false := by
  simp only [isWildcard, Bool.or_eq_true, beq_iff_eq] at h
  rcases h with (rfl | rfl) | rfl <;> decide

theorem isDecimalDigit_of_isBlank {c : Char} (h : Text.isBlank c = true) :
    Text.isDecimalDigit c = false := by
  let blanks := [0x09, 0x0A, 0x0B, 0x0C, 0x0D, 0x20, 0x85, 0xA0, 0x1680, 0x2000, 0x2001, 0x2002,
    0x2003, 0x2004, 0x2005, 0x2006, 0x2007, 0x2008, 0x2009, 0x200A, 0x2028, 0x2029, 0x202F, 0x205F,
    0x3000]
  have hmem : c.toNat ∈ blanks := by
    simp only [Text.isBlank, Bool.or_eq_true, Bool.and_eq_true, decide_eq_true_eq, beq_iff_eq] at h
    simp only [blanks, List.mem_cons, List.not_mem_nil, or_false]
    omega
  have hdigits : ∀ n ∈ blanks,
      Text.digitZeros.any (fun start => start ≤ n && n < start + 10) = false := by
    decide +kernel
  exact hdigits _ hmem

theorem isBlank_of_isWildcard {c : Char} (h : isWildcard c = true) : Text.isBlank c = false := by
  simp only [isWildcard, Bool.or_eq_true, beq_iff_eq] at h
  rcases h with (rfl | rfl) | rfl <;> decide

theorem isComponent_of_component? {cs c rest : List Char} (h : component? cs = some (c, rest)) :
    IsComponent c := by
  unfold component? at h
  split at h
  · cases h
  · rename_i d cs
    split at h
    · rename_i hd
      obtain ⟨rfl, _⟩ := Prod.mk.inj (Option.some.inj h)
      refine .inl ⟨?_, fun x hx => List.mem_takeWhile_imp hx⟩
      rw [List.takeWhile_cons_of_pos hd]
      simp
    · split at h
      · rename_i hd
        obtain ⟨rfl, _⟩ := Prod.mk.inj (Option.some.inj h)
        exact .inr ⟨d, rfl, hd⟩
      · cases h

theorem component?_append {c rest : List Char} (hc : IsComponent c)
    (h : ∀ x ∈ rest.head?, Text.isDecimalDigit x = false) :
    component? (c ++ rest) = some (c, rest) := by
  rcases hc with ⟨hne, hdigit⟩ | ⟨x, rfl, hx⟩
  · obtain ⟨htake, hdrop⟩ := Text.takeWhile_dropWhile_append _ _ hdigit h
    obtain ⟨x, c, rfl⟩ := List.exists_cons_of_ne_nil hne
    rw [List.cons_append] at htake hdrop ⊢
    have hx : Text.isDecimalDigit x = true := hdigit x List.mem_cons_self
    simp only [component?, hx, if_true, htake, hdrop]
  · simp [component?, isDecimalDigit_of_isWildcard hx, hx]

theorem furtherComponents_zero (rest : List Char) : furtherComponents 0 rest = ([], rest) := by
  cases rest <;> rfl

theorem furtherComponents_end (k : Nat) {rest : List Char} (h : ∀ c ∈ rest.head?, c ≠ '.') :
    furtherComponents k rest = ([], rest) := by
  cases k with
  | zero => exact furtherComponents_zero rest
  | succ k =>
      cases rest with
      | nil => rfl
      | cons c rest =>
          have hc : c ≠ '.' := h c rfl
          unfold furtherComponents
          split
          · rename_i heq
            exact absurd (List.cons.inj heq).1 hc
          · rfl

/-- No digit follows a component: the next character is a point or ends the components. -/
theorem isDecimalDigit_of_mem_head? (components : List (List Char)) {rest : List Char}
    (hrest : ∀ c ∈ rest.head?, c = '-' ∨ c = '+') :
    ∀ c ∈ (components.flatMap ('.' :: ·) ++ rest).head?, Text.isDecimalDigit c = false := by
  intro c hc
  cases components with
  | nil => rcases hrest c hc with rfl | rfl <;> decide
  | cons ds components =>
      obtain rfl := Option.some.inj hc
      decide

theorem furtherComponents_append {n : Nat} {components : List (List Char)} {rest : List Char}
    (hlength : components.length ≤ n) (hcomponents : ∀ c ∈ components, IsComponent c)
    (hrest : ∀ c ∈ rest.head?, c = '-' ∨ c = '+') :
    furtherComponents n (components.flatMap ('.' :: ·) ++ rest) = (components, rest) := by
  induction components generalizing n with
  | nil =>
      refine furtherComponents_end n fun c hc => ?_
      rcases hrest c hc with rfl | rfl <;> decide
  | cons c components ih =>
      obtain ⟨m, rfl⟩ : ∃ m, n = m + 1 := ⟨n - 1, by simp at hlength; omega⟩
      have hfirst := component?_append (hcomponents c List.mem_cons_self)
        (isDecimalDigit_of_mem_head? components hrest)
      have hmore := ih (Nat.le_of_succ_le_succ hlength) fun d hd =>
        hcomponents d (List.mem_cons_of_mem c hd)
      rw [List.flatMap_cons, List.append_assoc, List.cons_append]
      simp only [furtherComponents, hfirst, hmore]

/-- Further components stand in front of the rest, each after a point. -/
theorem eq_append_of_furtherComponents (n : Nat) (cs : List Char) :
    cs = (furtherComponents n cs).1.flatMap ('.' :: ·) ++ (furtherComponents n cs).2 ∧
      (furtherComponents n cs).1.length ≤ n ∧
      ∀ c ∈ (furtherComponents n cs).1, IsComponent c := by
  fun_induction furtherComponents n cs with
  | case1 n cs c rest hc more last hmore ih =>
      rw [hmore] at ih
      obtain ⟨hrest, hlength, hcomponents⟩ := ih
      refine ⟨?_, Nat.succ_le_succ hlength, List.forall_mem_cons.2
        ⟨isComponent_of_component? hc, hcomponents⟩⟩
      rw [List.flatMap_cons, List.append_assoc, ← hrest, eq_append_of_component? hc]
      rfl
  | case2 n cs hc => exact ⟨rfl, Nat.zero_le _, by simp⟩
  | case3 n cs _ => exact ⟨rfl, Nat.zero_le _, by simp⟩

theorem eq_plus_of_isBuild {build : List Char} (h : isBuild build = true) :
    ∀ c ∈ build.head?, c = '+' := by
  intro c hc
  cases build with
  | nil => cases hc
  | cons d build =>
      obtain rfl := Option.some.inj hc
      by_contra hplus
      simp [isBuild, hplus] at h

/-- A tag as it stands after the components. -/
def tagText : Option String → List Char
  | none => []
  | some t => '-' :: t.toList

theorem eq_hyphen_of_mem_head?_tagText {tag : Option String} {c : Char}
    (h : c ∈ (tagText tag).head?) : c = '-' := by
  cases tag with
  | none => cases h
  | some t => exact (Option.some.inj h).symm

theorem mem_head?_tagText_append (tag : Option String) {build : List Char}
    (h : isBuild build = true) : ∀ c ∈ (tagText tag ++ build).head?, c = '-' ∨ c = '+' := by
  intro c hc
  cases tag with
  | none => exact .inr (eq_plus_of_isBuild h c hc)
  | some t => exact .inl (Option.some.inj hc).symm

theorem isTagChar_of_mem_tagText {tag : Option String} (h : ∀ t ∈ tag, IsTag t.toList) {c : Char}
    (hc : c ∈ tagText tag) : isTagChar c = true := by
  cases tag with
  | none => cases hc
  | some t =>
      rcases List.mem_cons.1 hc with rfl | hc
      · rfl
      · exact (h t rfl).2 c hc

theorem tag?_tagText_append {tag : Option String} {build : List Char}
    (htag : ∀ t ∈ tag, IsTag t.toList) (hbuild : isBuild build = true) :
    tag? (tagText tag ++ build) = some (tag.map String.toList) := by
  have hplus := eq_plus_of_isBuild hbuild
  cases tag with
  | none =>
      rw [tagText, List.nil_append, tag?]
      · rw [if_pos hbuild]
        rfl
      · rintro cs rfl
        exact absurd (hplus '-' rfl) (by decide)
  | some t =>
      obtain ⟨htake, hdrop⟩ := Text.takeWhile_dropWhile_append t.toList build (htag t rfl).2
        fun c hc => by rw [hplus c hc]; rfl
      have hne : t.toList.isEmpty = false := List.isEmpty_eq_false_iff.2 (htag t rfl).1
      simp only [tagText, List.cons_append, tag?, htake, hdrop, hne, hbuild]
      rfl

theorem exists_of_tag? {cs : List Char} {tag : Option (List Char)} (h : tag? cs = some tag) :
    ∃ build, cs = tagText (tag.map String.ofList) ++ build ∧ isBuild build = true := by
  unfold tag? at h
  split at h
  · rename_i cs
    dsimp only at h
    split at h
    · rename_i hc
      obtain rfl := Option.some.inj h
      refine ⟨cs.dropWhile isTagChar, ?_, (Bool.and_eq_true_iff.1 hc).2⟩
      simp [tagText]
    · cases h
  · split at h
    · rename_i hbuild
      obtain rfl := Option.some.inj h
      exact ⟨_, rfl, hbuild⟩
    · cases h

theorem intercalate_cons (first : List Char) (more : List (List Char)) :
    ['.'].intercalate (first :: more) = first ++ more.flatMap ('.' :: ·) := by
  induction more generalizing first with
  | nil => simp
  | cons next more ih => rw [List.intercalate_cons_cons, ih]; simp

/-- What a partial version is written with: perhaps a `v`, one to three
components, and perhaps a tag and build metadata. -/
structure Outline where
  mark : List Char
  components : List (List Char)
  tag : Option String
  build : List Char
  isMark : mark = [] ∨ mark = ['v'] ∨ mark = ['V']
  ne_nil : components ≠ []
  length_le : components.length ≤ 3
  isComponent : ∀ c ∈ components, IsComponent c
  isTag : ∀ t ∈ tag, IsTag t.toList
  isBuild : isBuild build = true

namespace Outline

def text (x : Outline) : List Char :=
  x.mark ++ (['.'].intercalate x.components ++ (tagText x.tag ++ x.build))

/-- What is read of a partial version. -/
def version (x : Outline) : PartialVersion :=
  ofComponents x.components (x.tag.map String.toList)

/-- The characters are those of the components and of tags, and the sign of build
metadata. -/
theorem of_mem_text (x : Outline) {c : Char} (h : c ∈ x.text) :
    (∃ component ∈ x.components, c ∈ component) ∨ isTagChar c = true ∨ c = '+' := by
  simp only [text, List.mem_append] at h
  rcases h with h | h | h | h
  · rcases x.isMark with hmark | hmark | hmark
    · rw [hmark] at h
      cases h
    · rw [hmark] at h
      exact .inr (.inl (by rw [List.mem_singleton.1 h]; rfl))
    · rw [hmark] at h
      exact .inr (.inl (by rw [List.mem_singleton.1 h]; rfl))
  · rcases Text.mem_intercalate h with h | hcomponent
    · exact .inr (.inl (by rw [List.mem_singleton.1 h]; rfl))
    · exact .inl hcomponent
  · exact .inr (.inl (isTagChar_of_mem_tagText x.isTag h))
  · have hbuild := x.isBuild
    unfold PartialVersion.isBuild at hbuild
    split at hbuild
    · rename_i heq
      rw [heq] at h
      cases h
    · rename_i cs heq
      rw [heq] at h
      rcases List.mem_cons.1 h with rfl | h
      · exact .inr (.inr rfl)
      · exact .inr (.inl (List.all_eq_true.1 (Bool.and_eq_true_iff.1 hbuild).2 c h))
    · cases hbuild

theorem class_of_mem_text (x : Outline) {c : Char} (h : c ∈ x.text) :
    Text.isDecimalDigit c = true ∨ isWildcard c = true ∨ isTagChar c = true ∨ c = '+' := by
  rcases x.of_mem_text h with ⟨component, hcomponent, hc⟩ | hc | hc
  · rcases x.isComponent component hcomponent with ⟨_, hdigit⟩ | ⟨d, rfl, hd⟩
    · exact .inl (hdigit c hc)
    · exact .inr (.inl (List.mem_singleton.1 hc ▸ hd))
  · exact .inr (.inr (.inl hc))
  · exact .inr (.inr (.inr hc))

theorem isBlank_of_mem_text (x : Outline) : ∀ c ∈ x.text, Text.isBlank c = false := by
  intro c hc
  rcases x.class_of_mem_text hc with hc | hc | hc | rfl
  · exact Text.class_symm Text.isBlank (fun _ => isDecimalDigit_of_isBlank) hc
  · exact isBlank_of_isWildcard hc
  · exact isBlank_of_isTagChar hc
  · decide

theorem text_ne_nil (x : Outline) : x.text ≠ [] := by
  obtain ⟨first, more, hcomponents⟩ := List.exists_cons_of_ne_nil x.ne_nil
  have hfirst : first ≠ [] := by
    rcases x.isComponent first (by simp [hcomponents]) with ⟨hne, _⟩ | ⟨c, rfl, _⟩
    · exact hne
    · simp
  simp [text, hcomponents, intercalate_cons, hfirst]

/-- No component starts with a `v`. -/
theorem ne_mark_of_mem_head? {x : Outline} {first : List Char} {more : List (List Char)}
    (h : x.components = first :: more) (rest : List Char) :
    ∀ c ∈ (first ++ rest).head?, c ≠ 'v' ∧ c ≠ 'V' := by
  rcases x.isComponent first (by simp [h]) with ⟨hne, hdigit⟩ | ⟨c, rfl, hwildcard⟩
  · intro c hc
    rw [List.head?_append_of_ne_nil _ hne] at hc
    have hc := hdigit c (List.mem_of_mem_head? hc)
    exact ⟨Text.ne_of_class hc (by decide), Text.ne_of_class hc (by decide)⟩
  · intro d hd
    obtain rfl := Option.some.inj hd
    exact ⟨Text.ne_of_class hwildcard (by decide), Text.ne_of_class hwildcard (by decide)⟩

/-- A text is read component by component. -/
theorem read?_eq_some (x : Outline) {cs : List Char} (hcs : Text.trim cs = x.text) :
    read? cs = some x.version := by
  obtain ⟨first, more, hcomponents⟩ := List.exists_cons_of_ne_nil x.ne_nil
  let rest := more.flatMap ('.' :: ·) ++ (tagText x.tag ++ x.build)
  have hcore : ['.'].intercalate x.components ++ (tagText x.tag ++ x.build) = first ++ rest := by
    rw [hcomponents, intercalate_cons, List.append_assoc]
  have hend := mem_head?_tagText_append x.tag x.isBuild
  have hfirst : component? (first ++ rest) = some (first, rest) :=
    component?_append (x.isComponent first (by simp [hcomponents]))
      (isDecimalDigit_of_mem_head? more hend)
  have hmore : furtherComponents 2 rest = (more, tagText x.tag ++ x.build) := by
    have hlength := x.length_le
    rw [hcomponents] at hlength
    exact furtherComponents_append (Nat.le_of_succ_le_succ hlength)
      (fun c hc => x.isComponent c (by simp [hcomponents, hc])) hend
  have htag := tag?_tagText_append x.isTag x.isBuild
  have hread (core : List Char) (heq : core = first ++ rest) :
      ((component? core).bind fun y => (tag? (furtherComponents 2 y.2).2).bind fun tag =>
        some (ofComponents (y.1 :: (furtherComponents 2 y.2).1) tag)) = some x.version := by
    rw [heq, hfirst, Option.bind_some, hmore, htag, version, hcomponents]
    rfl
  simp only [read?, hcs]
  refine hread _ ?_
  rw [text, hcore]
  rcases x.isMark with hmark | hmark | hmark
  · have hstart := x.ne_mark_of_mem_head? hcomponents rest
    rw [hmark, List.nil_append]
    split
    · rename_i heq
      exact absurd rfl (hstart 'v' (by rw [heq]; rfl)).1
    · rename_i heq
      exact absurd rfl (hstart 'V' (by rw [heq]; rfl)).2
    · rfl
  · rw [hmark]
    rfl
  · rw [hmark]
    rfl

end Outline

/-- Exactly the texts with an outline are read, up to white space around them. -/
theorem read?_eq_some_iff {cs : List Char} {p : PartialVersion} :
    read? cs = some p ↔ ∃ x : Outline, Text.trim cs = x.text ∧ x.version = p := by
  constructor
  · intro h
    obtain ⟨core, first, rest, tag, hcore, hfirst, htag, rfl⟩ := exists_of_read? h
    obtain ⟨hrest, hlength, hmore⟩ := eq_append_of_furtherComponents 2 rest
    obtain ⟨build, hback, hbuild⟩ := exists_of_tag? htag
    have hmark : ∃ mark, (mark = [] ∨ mark = ['v'] ∨ mark = ['V']) ∧
        Text.trim cs = mark ++ core := by
      rcases hcore with hcore | hcore | hcore
      · exact ⟨[], .inl rfl, hcore⟩
      · exact ⟨['v'], .inr (.inl rfl), hcore⟩
      · exact ⟨['V'], .inr (.inr rfl), hcore⟩
    obtain ⟨mark, hisMark, hmark⟩ := hmark
    have hisTag : ∀ t ∈ tag.map String.ofList, IsTag t.toList := by
      intro t ht
      obtain ⟨t, rfl, rfl⟩ := Option.map_eq_some_iff.1 ht
      rw [String.toList_ofList]
      exact isTag_of_tag? htag
    refine ⟨⟨mark, first :: (furtherComponents 2 rest).1, tag.map String.ofList, build, hisMark,
      by simp, Nat.succ_le_succ hlength, List.forall_mem_cons.2
        ⟨isComponent_of_component? hfirst, hmore⟩, hisTag, hbuild⟩, ?_, ?_⟩
    · show Text.trim cs = mark ++ (['.'].intercalate (first :: (furtherComponents 2 rest).1) ++
        (tagText (tag.map String.ofList) ++ build))
      rw [← hback, intercalate_cons, List.append_assoc, ← hrest, hmark,
        eq_append_of_component? hfirst]
    · show ofComponents _ ((tag.map String.ofList).map String.toList) = _
      rw [Option.map_map]
      simp [Function.comp_def]
  · rintro ⟨x, hcs, rfl⟩
    exact x.read?_eq_some hcs

/-- A version spelled out: one to three numerals, a tag that stands after three
only, and perhaps a `v` in front and build metadata at the end. -/
structure Spelling where
  mark : List Char
  components : List (List Char)
  tag : Option String
  build : List Char
  isMark : mark = [] ∨ mark = ['v'] ∨ mark = ['V']
  ne_nil : components ≠ []
  length_le : components.length ≤ 3
  digits : ∀ ds ∈ components, IsDigits ds
  isTag : ∀ t ∈ tag, components.length = 3 ∧ IsTag t.toList
  isBuild : isBuild build = true

namespace Spelling

/-- The components and the tag. -/
def core (x : Spelling) : List Char :=
  ['.'].intercalate x.components ++ tagText x.tag

/-- All of the version as it is spelled out. -/
def text (x : Spelling) : List Char :=
  x.mark ++ (x.core ++ x.build)

/-- Numbers with points between them, with or without a tag. -/
def ofNumbers (ns : List Nat) (tag : Option String) (hne : ns ≠ []) (hlength : ns.length ≤ 3)
    (htag : ∀ t ∈ tag, ns.length = 3 ∧ IsTag t.toList) : Spelling where
  mark := []
  components := ns.map decimal
  tag := tag
  build := []
  isMark := .inl rfl
  ne_nil := by simpa using hne
  length_le := by simpa using hlength
  digits := fun ds hds => by
    obtain ⟨n, _, rfl⟩ := List.mem_map.1 hds
    exact isDigits_decimal n
  isTag := by simpa using htag
  isBuild := rfl

theorem exists_cons (x : Spelling) :
    ∃ d ds more, x.components = (d :: ds) :: more ∧ d.isDigit = true ∧
      x.core ++ x.build = (d :: ds) ++ (more.flatMap ('.' :: ·) ++ (tagText x.tag ++ x.build)) := by
  obtain ⟨first, more, hcomponents⟩ := List.exists_cons_of_ne_nil x.ne_nil
  have hdigits := x.digits first (by simp [hcomponents])
  obtain ⟨d, ds, rfl⟩ := List.exists_cons_of_ne_nil hdigits.1
  refine ⟨d, ds, more, hcomponents, hdigits.2 d List.mem_cons_self, ?_⟩
  rw [core, hcomponents, intercalate_cons, List.append_assoc, List.append_assoc]

/-- Numerals are components. -/
def outline (x : Spelling) : Outline where
  mark := x.mark
  components := x.components
  tag := x.tag
  build := x.build
  isMark := x.isMark
  ne_nil := x.ne_nil
  length_le := x.length_le
  isComponent := fun c hc => isComponent_of_isDigits (x.digits c hc)
  isTag := fun t ht => (x.isTag t ht).2
  isBuild := x.isBuild

theorem text_outline (x : Spelling) : x.outline.text = x.text := by
  rw [text, core, List.append_assoc]
  rfl

/-- All characters are those of tags, except for the sign of build metadata. -/
theorem isTagChar_of_mem_text (x : Spelling) {c : Char} (h : c ∈ x.text) :
    isTagChar c = true ∨ c = '+' := by
  rw [← x.text_outline] at h
  rcases x.outline.of_mem_text h with ⟨ds, hds, hc⟩ | hc
  · exact .inl (isTagChar_of_isDigit ((x.digits ds hds).2 c hc))
  · exact hc

theorem isBlank_of_mem_text (x : Spelling) : ∀ c ∈ x.text, Text.isBlank c = false := by
  rw [← x.text_outline]
  exact x.outline.isBlank_of_mem_text

/-- A version is read component by component. A `v` in front and build metadata
are skipped. -/
theorem read?_text (x : Spelling) :
    read? x.text = some (ofComponents x.components (x.tag.map String.toList)) := by
  have htrim : Text.trim x.text = x.text := Text.trim_of_forall x.isBlank_of_mem_text
  exact x.outline.read?_eq_some (htrim.trans x.text_outline.symm)

end Spelling

theorem isTagChar_of_mem_components (b c : Nat) {tag : Option String}
    (h : ∀ t ∈ tag, IsTag t.toList) :
    ∀ x ∈ '.' :: (decimal b ++ '.' :: (decimal c ++ tagText tag)), isTagChar x = true := by
  intro x hx
  simp only [List.mem_cons, List.mem_append] at hx
  rcases hx with rfl | hx | rfl | hx | hx
  · rfl
  · exact isTagChar_of_mem_decimal hx
  · rfl
  · exact isTagChar_of_mem_decimal hx
  · exact isTagChar_of_mem_tagText h hx

theorem toList_written_patch (a b c : Nat) (tag : Option String) :
    (PartialVersion.patch a b c tag).written.toList =
      decimal a ++ '.' :: (decimal b ++ '.' :: (decimal c ++ tagText tag)) := by
  cases tag with
  | none => simp [written, floor, render, List.intercalate_cons_cons, tagText]
  | some t => simp [written, floor, render, List.intercalate_cons_cons, tagText]

/-- Every version that fits reads back from how it is written. -/
theorem read?_written {p : PartialVersion} (h : p.Fits) : read? p.written.toList = some p := by
  cases p with
  | any => rfl
  | major a =>
      have hread := (Spelling.ofNumbers [a] none (by simp) (by simp) (by simp)).read?_text
      simpa [Spelling.text, Spelling.core, Spelling.ofNumbers, tagText, written, ofComponents,
        numeral?_decimal h] using hread
  | minor a b =>
      have hread := (Spelling.ofNumbers [a, b] none (by simp) (by simp) (by simp)).read?_text
      simpa [Spelling.text, Spelling.core, Spelling.ofNumbers, tagText, written, ofComponents,
        numeral?_decimal h.1, numeral?_decimal h.2] using hread
  | patch a b c tag =>
      obtain ⟨ha, hb, hc, htag⟩ := h
      have hread := (Spelling.ofNumbers [a, b, c] tag (by simp) (by simp)
        fun t ht => ⟨rfl, htag t ht⟩).read?_text
      rw [toList_written_patch]
      simpa [Spelling.text, Spelling.core, Spelling.ofNumbers, List.intercalate_cons_cons,
        ofComponents, numeral?_decimal ha, numeral?_decimal hb, numeral?_decimal hc] using hread

end PartialVersion

end Requirements
