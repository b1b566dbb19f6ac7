import Mathlib
import Requirements.Registry.Address

/-!
# Addresses of modules

In the address of a module an upper-case letter is an exclamation mark with the
lower-case letter after it. A path of ASCII characters without such a mark can be read
back from its escaped form, because a mark in there always stands for the case of the
letter that follows. So different modules have different addresses.
-/

namespace Requirements.Address

/-- A path of ASCII characters without the mark of the escape. -/
def IsPlain (path : List Char) : Prop :=
  ∀ c ∈ path, c.toNat < 0x80 ∧ c ≠ '!'

instance (path : List Char) : Decidable (IsPlain path) :=
  decidable_of_iff (path.all fun c => c.toNat < 0x80 && c != '!') (by simp [IsPlain])

/-- The path that an escaped path stands for. -/
def readCase : List Char → List Char
  | '!' :: c :: cs => c.toUpper :: readCase cs
  | c :: cs => c :: readCase cs
  | [] => []

theorem readCase_cons {c : Char} (h : c ≠ '!') (cs : List Char) :
    readCase (c :: cs) = c :: readCase cs := by
  rw [readCase]
  rintro c cs rfl
  exact absurd rfl h

theorem isUppercase_of_ascii {c : Char} (h : c.toNat < 0x80) :
    Text.isUppercase c = c.isUpper := by
  simp [Text.isUppercase, h]

theorem lowercase_of_ascii {c : Char} (h : c.toNat < 0x80) : Text.lowercase c = [c.toLower] :=
  if_pos h

theorem escapeCase_cons {c : Char} (h : c.toNat < 0x80) (cs : List Char) :
    escapeCase (c :: cs) =
      (if c.isUpper then ['!', c.toLower] else [c]) ++ escapeCase cs := by
  rw [escapeCase, List.flatMap_cons, isUppercase_of_ascii h, lowercase_of_ascii h]
  rfl

/-- A path can be read back from its escaped form. -/
theorem readCase_escapeCase {path : List Char} (h : IsPlain path) :
    readCase (escapeCase path) = path := by
  induction path with
  | nil => rfl
  | cons c cs ih =>
      obtain ⟨⟨hascii, hmark⟩, hcs⟩ := List.forall_mem_cons.1 h
      rw [escapeCase_cons hascii]
      by_cases hupper : c.isUpper = true
      · rw [if_pos hupper]
        show c.toLower.toUpper :: readCase (escapeCase cs) = c :: cs
        rw [ih hcs, Char.toUpper_toLower_eq_toUpper,
          Char.toUpper_eq_of_not_isLower (Char.not_isLower_of_isUpper hupper)]
      · rw [if_neg hupper, List.singleton_append, readCase_cons hmark, ih hcs]

theorem toLower_of_isUpper {c : Char} (h : c.isUpper = true) : c.toLower.toNat < 0x80 := by
  have hlower : c.toLower.isLower = true := by
    rw [Char.isLower_toLower_eq_isAlpha, Char.isAlpha, h, Bool.true_or]
  have hle : c.toLower.toNat ≤ 'z'.toNat := by
    rw [Char.isLower, Bool.and_eq_true, decide_eq_true_eq, decide_eq_true_eq] at hlower
    exact hlower.2
  exact Nat.lt_of_le_of_lt hle (by decide)

theorem not_isUppercase_escapeCase {path : List Char} (h : IsPlain path) :
    ∀ c ∈ escapeCase path, Text.isUppercase c = false := by
  intro d hd
  obtain ⟨c, hc, hd⟩ := List.mem_flatMap.1 hd
  obtain ⟨hascii, _⟩ := h c hc
  rw [isUppercase_of_ascii hascii, lowercase_of_ascii hascii] at hd
  by_cases hupper : c.isUpper = true
  · rw [if_pos hupper, List.mem_cons, List.mem_singleton] at hd
    obtain rfl | rfl := hd
    · decide
    · rw [isUppercase_of_ascii (toLower_of_isUpper hupper), Char.isUpper_toLower_eq_false]
  · rw [if_neg hupper, List.mem_singleton] at hd
    rw [hd, isUppercase_of_ascii hascii, Bool.eq_false_iff.2 hupper]

theorem url_go (base path : String) :
    url .go base path =
      .ok (base ++ "/" ++ String.ofList (escapeCase path.toList) ++ "/@v/list") :=
  rfl

/-- Different modules have different escaped paths, without upper-case letters, and so
at every registry different addresses. -/
theorem module_addresses_differ {m n : String} (hm : IsPlain m.toList) (hn : IsPlain n.toList) :
    (∀ c ∈ escapeCase m.toList, Text.isUppercase c = false) ∧
    (escapeCase m.toList = escapeCase n.toList ↔ m = n) ∧
    ∀ base, url .go base m = url .go base n ↔ m = n := by
  have hpath : escapeCase m.toList = escapeCase n.toList ↔ m = n := by
    refine ⟨fun h => String.toList_inj.1 ?_, fun h => h ▸ rfl⟩
    rw [← readCase_escapeCase hm, h, readCase_escapeCase hn]
  refine ⟨not_isUppercase_escapeCase hm, hpath, fun base => ?_⟩
  rw [← hpath, url_go, url_go, Except.ok.injEq]
  simp [← String.toList_inj]

/-- Two paths that differ in case only. -/
theorem module_addresses_differ_azure :
    let m := "github.com/Azure/azure-sdk-for-go"
    let n := "github.com/azure/azure-sdk-for-go"
    IsPlain m.toList ∧ IsPlain n.toList ∧
    String.ofList (escapeCase m.toList) = "github.com/!azure/azure-sdk-for-go" ∧
    url .go "https://proxy.golang.org" m ≠ url .go "https://proxy.golang.org" n := by
  intro m n
  have hm : IsPlain m.toList := by decide +kernel
  have hn : IsPlain n.toList := by decide +kernel
  refine ⟨hm, hn, by decide +kernel, fun h => ?_⟩
  exact absurd (((module_addresses_differ hm hn).2.2 _).1 h) (by decide)

/-- A mark in a path of its own would be taken for an upper-case letter. -/
example : escapeCase ['!', 'a'] = escapeCase ['A'] := by decide

end Requirements.Address
