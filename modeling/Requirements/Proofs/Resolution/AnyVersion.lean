import Mathlib
import Requirements.Proofs.Resolution.Pin

/-!
# What a requirement without a constraint admits

Without a constraint a requirement asks for `0.0.0` at least. Words rank below
zero, so this is not the lowest version: `0.0.0-rc1` and `v1.0.0` are below it.
A version is admitted unless the first of its segments that is not zero is a
word, and a package all of whose releases are of that kind has no match.
-/

namespace Requirements

namespace Version

/-- The first segment that is not zero is a word. -/
def IsBelowZero (v : Version) : Prop :=
  ∃ zeros rest, v.segments = zeros ++ .word :: rest ∧ ∀ s ∈ zeros, s = .zero

theorem compareToZeros_cons (s : Segment) (ss : List Segment) :
    (s = .word ∧ compareToZeros (s :: ss) = .lt) ∨
      (s = .zero ∧ compareToZeros (s :: ss) = compareToZeros ss) ∨
      (s ≠ .word ∧ s ≠ .zero ∧ compareToZeros (s :: ss) = .gt) := by
  cases s with
  | word => exact .inl ⟨rfl, rfl⟩
  | number ds =>
      cases ds with
      | nil => exact .inr (.inl ⟨rfl, rfl⟩)
      | cons d ds =>
          have hlength : Ord.compare (ds.length + 1) 0 = .gt := Nat.compare_eq_gt.2 (Nat.succ_pos _)
          refine .inr (.inr ⟨by simp, by simp [Segment.zero], ?_⟩)
          simp [compareToZeros, Segment.compare, Segment.zero, hlength]

theorem compareToZeros_eq_lt {ss : List Segment} :
    compareToZeros ss = .lt ↔
      ∃ zeros rest, ss = zeros ++ .word :: rest ∧ ∀ s ∈ zeros, s = .zero := by
  induction ss with
  | nil => simp [compareToZeros]
  | cons s ss ih =>
      rcases compareToZeros_cons s ss with ⟨rfl, h⟩ | ⟨rfl, h⟩ | ⟨hword, hzero, h⟩
      · exact ⟨fun _ => ⟨[], ss, rfl, by simp⟩, fun _ => h⟩
      · rw [h, ih]
        constructor
        · rintro ⟨zeros, rest, rfl, hzeros⟩
          exact ⟨.zero :: zeros, rest, rfl, by simpa using hzeros⟩
        · rintro ⟨zeros, rest, hss, hzeros⟩
          cases zeros with
          | nil => cases (List.cons.inj hss).1
          | cons z zeros =>
              exact ⟨zeros, rest, (List.cons.inj hss).2, fun t ht =>
                hzeros t (List.mem_cons_of_mem z ht)⟩
      · rw [h]
        refine ⟨fun hlt => absurd hlt (by decide), ?_⟩
        rintro ⟨zeros, rest, hss, hzeros⟩
        cases zeros with
        | nil => exact absurd (List.cons.inj hss).1 hword
        | cons z zeros =>
            obtain rfl := (List.cons.inj hss).1
            exact absurd (hzeros s List.mem_cons_self) hzero

/-- Zeros may be written out or left to be filled in. -/
theorem compareSegments_zeros (ss : List Segment) (k : Nat) :
    compareSegments ss (List.replicate k .zero) = compareToZeros ss := by
  induction ss generalizing k with
  | nil =>
      have hzeros : compareToZeros (List.replicate k .zero) = .eq := by
        induction k with
        | zero => rfl
        | succ k ih => rw [List.replicate_succ, compareToZeros, ih]; rfl
      rw [compareSegments, hzeros]
      rfl
  | cons s ss ih =>
      cases k with
      | zero => rfl
      | succ k => rw [List.replicate_succ, compareSegments, ih, compareToZeros]

theorem compare_lowestVersion_eq_lt {v : Version} :
    compare v Term.lowestVersion = .lt ↔ v.IsBelowZero := by
  have hzeros : segments Term.lowestVersion = List.replicate 3 .zero := by decide
  rw [compare, hzeros, compareSegments_zeros, compareToZeros_eq_lt, IsBelowZero]

end Version

theorem Requirement.accepts_anyVersion (name : String) (v : Version) :
    (anyVersion name).accepts v = true ↔ ¬ v.IsBelowZero := by
  rw [anyVersion, accepts_ofTerm, Term.accepts, ← Version.compare_lowestVersion_eq_lt]
  exact bne_iff_ne

/-! ## Specifiers without a constraint -/

namespace ClauseDialect

theorem trim_takeWhile_name {name : List Char} (h : IsName name) :
    Text.trim (name.takeWhile (· != ';')) = name := by
  obtain ⟨c, rest, rfl, _, hchars⟩ := h
  have htake : (c :: rest).takeWhile (· != ';') = c :: rest :=
    List.takeWhile_eq_self_iff.2 fun x hx =>
      bne_iff_ne.2 (Text.ne_of_class (hchars x hx) (by decide))
  rw [htake]
  exact Text.trim_of_forall fun x hx => isBlank_of_isNameChar (hchars x hx)

theorem nameAndClauses?_name {name : List Char} (h : IsName name) :
    nameAndClauses? name = some (name, []) := by
  obtain ⟨c, rest, rfl, hc, hchars⟩ := h
  have htake : (c :: rest).takeWhile isNameChar = c :: rest := List.takeWhile_eq_self_iff.2 hchars
  have hdrop : (c :: rest).dropWhile isNameChar = [] := List.dropWhile_eq_nil_iff.2 hchars
  rw [nameAndClauses?, htake, hdrop]
  simp [Text.trimStart, skipExtras, hc]

theorem read_name {d : ClauseDialect} {name : List Char} (h : IsName name) :
    d.read name = .ok (.anyVersion (String.ofList name)) := by
  simp only [read, trim_takeWhile_name h, nameAndClauses?_name h]
  rfl

theorem read_star {d : ClauseDialect} {name : List Char} (h : IsName name) :
    d.read (name ++ [' ', '*']) = .ok (.anyVersion (String.ofList name)) := by
  have hstar : IsClauses ['*'] := .of_forall (by simp) (List.forall_mem_singleton.2 (by decide))
    (by simp) (by simp)
  simp only [read, trim_takeWhile_join h hstar, nameAndClauses?_join h hstar]
  rfl

end ClauseDialect

namespace AlternativesDialect

theorem normalize_nil (d : AlternativesDialect) : d.normalize [] = .ok [[.any]] := by
  cases d <;> rfl

theorem normalize_star (d : AlternativesDialect) : d.normalize ['*'] = .ok [[.any]] := by
  cases d <;> decide

theorem nameAndRange_name {name : List Char} (h : IsWord name) :
    nameAndRange (Text.trim name) = (name, []) := by
  have htake : name.takeWhile (fun c => !Text.isBlank c) = name :=
    List.takeWhile_eq_self_iff.2 fun c hc => by simp [h.2 c hc]
  have hdrop : name.dropWhile (fun c => !Text.isBlank c) = [] :=
    List.dropWhile_eq_nil_iff.2 fun c hc => by simp [h.2 c hc]
  rw [Text.trim_of_forall h.2, nameAndRange, htake, hdrop]
  rfl

theorem read_name {d : AlternativesDialect} {name : List Char} (h : IsWord name) :
    d.read name = .ok (.anyVersion (String.ofList name)) :=
  read_eq_ok (nameAndRange_name h) h.1 d.normalize_nil

theorem read_star {d : AlternativesDialect} {name : List Char} (h : IsWord name) :
    d.read (name ++ [' ', '*']) = .ok (.anyVersion (String.ofList name)) := by
  rw [read_range h, normalize_star]
  rfl

end AlternativesDialect

namespace Grammar

/-- A name alone, or with a star after it, puts no constraint on the version. -/
theorem read_anyVersion {g : Grammar} (hg : g ≠ .pin) {name : List Char} (h : g.IsName name) :
    g.read name = .ok (.anyVersion (String.ofList name)) ∧
      g.read (name ++ [' ', '*']) = .ok (.anyVersion (String.ofList name)) := by
  cases g with
  | clauses d => exact ⟨ClauseDialect.read_name h, ClauseDialect.read_star h⟩
  | alternatives d => exact ⟨AlternativesDialect.read_name h, AlternativesDialect.read_star h⟩
  | pin => exact absurd rfl hg

end Grammar

namespace Solve

/-- A specifier of any version, on a package with releases, has no match exactly
if all of them are below zero. -/
theorem anyVersion_unmatched_iff {e : Ecosystem} (he : e.grammar ≠ .pin) (name : String)
    (hname : e.grammar.IsName name.toList) (fetch : String → Answer) (set : ReleaseSet)
    (hfetch : fetch name = .ok set) (hne : set.releases ≠ []) (options : SolveOptions) :
    e.parse name = .ok (.anyVersion name) ∧ e.parse (name ++ " *") = .ok (.anyVersion name) ∧
      (∀ v, (Requirement.anyVersion name).accepts v = true ↔ ¬ v.IsBelowZero) ∧
      ∀ s, e.parse s = .ok (.anyVersion name) →
        ∃ res p, (specifiers e fetch options [s]).result = .ok res ∧
          res.entries.find? set.name = some p ∧
          (p = .unmatched ↔ ∀ v ∈ set.releases, Version.IsBelowZero v) := by
  obtain ⟨hbare, hstar⟩ := Grammar.read_anyVersion he hname
  rw [String.ofList_toList] at hbare hstar
  have htext : (name ++ " *").toList = name.toList ++ [' ', '*'] := String.toList_append
  refine ⟨Ecosystem.parse_eq_ok.2 hbare, Ecosystem.parse_eq_ok.2 (htext ▸ hstar),
    Requirement.accepts_anyVersion name, fun s hs => ?_⟩
  obtain ⟨res, hres⟩ := exists_requirements_singleton options (r := .anyVersion name) hfetch hne
  obtain ⟨state, hstate, rfl⟩ := exists_accounted hres
  obtain ⟨p, hfind, hp⟩ := hstate.picked _ List.mem_cons_self set
    (listed?_eq_some (r := .anyVersion name) hfetch hne)
  refine ⟨_, p, by rwa [specifiers_singleton hs], hfind, ?_⟩
  have hrefused : ∀ v, (Requirement.anyVersion name).accepts v = false ↔ v.IsBelowZero := by
    intro v
    rw [← Bool.not_eq_true, Requirement.accepts_anyVersion, not_not]
  simpa only [hrefused] using hp.unmatched

/-- A package of which only a pre-release of zero and a tag with a letter in
front are listed. -/
theorem anyVersion_unmatched_npm :
    let releases := ["0.0.0-rc1", "v1.0.0"]
    let fetch := ((ReleaseIndex.empty "npm").withReleases "foo" releases).fetch
    Ecosystem.npm.grammar ≠ .pin ∧ Ecosystem.npm.grammar.IsName "foo".toList ∧
    fetch "foo" = .ok ⟨"foo", releases⟩ ∧ releases ≠ [] ∧
    Ecosystem.npm.parse "foo *" = .ok (.anyVersion "foo") ∧
    ∃ res, (specifiers .npm fetch ⟨false, false⟩ ["foo *"]).result = .ok res ∧
      res.entries.find? "foo" = some .unmatched := by
  intro releases fetch
  have hgrammar : Ecosystem.npm.grammar ≠ .pin := by decide
  have hname : Ecosystem.npm.grammar.IsName "foo".toList :=
    AlternativesDialect.isWord_of_all (by decide) (by decide)
  have hfetch : fetch "foo" = .ok ⟨"foo", releases⟩ := by cbv
  have hne : releases ≠ [] := by decide
  have hbelow : ∀ v ∈ releases, Version.IsBelowZero v := by
    simp only [releases, List.forall_mem_cons]
    exact ⟨⟨[.zero, .zero, .zero], [], by decide, by simp⟩,
      ⟨[], [.zero, .zero], by decide, by simp⟩, by simp⟩
  obtain ⟨_, hstar, _, hall⟩ := anyVersion_unmatched_iff hgrammar "foo" hname fetch _ hfetch hne
    ⟨false, false⟩
  obtain ⟨res, p, hres, hfind, hp⟩ := hall "foo *" hstar
  obtain rfl := hp.2 hbelow
  exact ⟨hgrammar, hname, hfetch, hne, hstar, res, hres, hfind⟩

/-- So not every version is admitted. -/
theorem not_anyVersion_accepts :
    ¬ ∀ (name : String) (v : Version), (Requirement.anyVersion name).accepts v = true := by
  intro h
  have hprerelease := h "foo" "0.0.0-rc1"
  exact absurd hprerelease (by decide)

end Solve

end Requirements
