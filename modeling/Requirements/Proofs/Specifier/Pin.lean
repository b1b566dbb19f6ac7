import Mathlib
import Requirements.Proofs.Specifier.Exact

/-!
# The first pin of a package is the one written

Pins on one package are joined like any requirements, but a specifier has room
for one version, and the first one is written. It reads back as the requirement
that was read first. Nothing is lost if the other pins on the package rank equal
to it. If one of them does not, a pin is lost, and then no other specifier could
keep them all, since every specifier admits the version it names.
-/

namespace Requirements

open AlternativesDialect (IsWord)

/-- The requirement admits only what all requirements on a package admit. -/
def Requirement.EntailsAll (q : Requirement) (n : String) (rs : List Requirement) : Prop :=
  ∀ v, q.accepts v = true → ∀ r ∈ rs, r.name = n → r.accepts v = true

namespace Pin

/-- A requirement as a pin on a version gives it. -/
structure IsPin (r : Requirement) (v : Version) : Prop where
  eq : r = .ofTerm r.name (.exact v)
  name : IsWord r.name.toList
  version : isVersionToken v.toList = true

theorem exists_of_read {cs : List Char} {r : Requirement} (h : read cs = .ok r) :
    ∃ v, IsPin r v := by
  unfold read at h
  split at h
  · rename_i name version hwords
    obtain ⟨v, hv, h⟩ := bind_eq_ok.1 h
    obtain rfl := pure_eq_ok.1 h
    have hmem : name ∈ Text.words cs := by simp [hwords]
    have hname : IsWord name := Text.of_mem_words hmem
    refine ⟨v, rfl, ?_, (isVersionToken_of_versionToken hv).1⟩
    rwa [Requirement.ofTerm, String.toList_ofList]
  · cases h

variable {r q : Requirement} {u v w : Version}

/-- A pin that is written with its own version reads back. -/
theorem IsPin.read_eq_ok (h : IsPin r v) :
    read (r.name ++ " " ++ v).toList = .ok r := by
  have hword : IsWord v.toList := (ClauseDialect.isBare_of_isVersionToken h.version).word
  have hwords : Text.words ([' '].intercalate [r.name.toList, v.toList]) =
      [r.name.toList, v.toList] :=
    Text.words_intercalate (List.forall_mem_cons.2 ⟨h.name, List.forall_mem_singleton.2 hword⟩)
  have htext : (r.name ++ " " ++ v).toList = [' '].intercalate [r.name.toList, v.toList] := by
    simp [List.intercalate_cons_cons]
  rw [htext, read, hwords]
  simp only [versionToken_eq_ok h.version, String.ofList_toList]
  rw [h.eq]
  rfl

/-! ## What pins admit -/

theorem IsPin.accepts_iff (h : IsPin r v) : r.accepts w = true ↔ Version.compare w v = .eq := by
  rw [h.eq]
  exact Requirement.accepts_exact r.name

theorem IsPin.accepts_self (h : IsPin r v) : r.accepts v = true :=
  h.accepts_iff.2 (Version.equivalence_equal.refl v)

/-- A pin that admits the version of another one admits the same versions. -/
theorem IsPin.accepts_eq (hr : IsPin r v) (hq : IsPin q w) (h : r.accepts w = true) (x : Version) :
    r.accepts x = q.accepts x := by
  have hrank : Version.compare w v = .eq := hr.accepts_iff.1 h
  rw [Bool.eq_iff_iff, hr.accepts_iff, hq.accepts_iff]
  exact ⟨fun hx => Version.equivalence_equal.trans hx (Version.equivalence_equal.symm hrank),
    fun hx => Version.equivalence_equal.trans hx hrank⟩

/-- A pin keeps all pins on a package if these admit the same versions as it does. -/
theorem IsPin.entailsAll_iff (hq : IsPin q w) {n : String} {rs : List Requirement}
    (hrs : ∀ r ∈ rs, ∃ v, IsPin r v) :
    q.EntailsAll n rs ↔ ∀ r ∈ rs, r.name = n → ∀ x, r.accepts x = q.accepts x := by
  constructor
  · intro h r hr hn
    obtain ⟨v, hv⟩ := hrs r hr
    exact hv.accepts_eq hq (h w hq.accepts_self r hr hn)
  · intro h x hx r hr hn
    rw [h r hr hn, hx]

/-! ## What is written of joined pins -/

/-- The requirement has one branch, which starts with an exact term. -/
def OpensWith (v : Version) (m : Requirement) : Prop :=
  ∃ b ts, m.branches = [b] ∧ b.terms = .exact v :: ts

theorem IsPin.opensWith (h : IsPin r v) : OpensWith v r := by
  rw [h.eq]
  exact ⟨.single (.exact v), [], rfl, rfl⟩

theorem render_of_opensWith {m : Requirement} (h : OpensWith v m) : render m = v := by
  obtain ⟨b, ts, hb, hts⟩ := h
  have hterms : m.terms = .exact v :: ts := by
    rw [Requirement.terms, hb, List.flatMap_singleton, hts]
  rw [render, hterms]
  rfl

/-- The terms of a further pin come after those that are there. -/
theorem OpensWith.join {m : Requirement} (hm : OpensWith v m) (hr : IsPin r w) :
    OpensWith v (m.join r) := by
  obtain ⟨b, ts, hb, hts⟩ := hm
  refine ⟨.ofTerms (b.terms ++ [.exact w]), ts ++ [.exact w], ?_, ?_⟩
  · rw [Requirement.join, hb, hr.eq]
    rfl
  · rw [Branch.terms_ofTerms, hts, List.cons_append]

theorem OpensWith.foldl_join {m : Requirement} (hm : OpensWith v m) {rest : List Requirement}
    (hrest : ∀ r ∈ rest, ∃ w, IsPin r w) : OpensWith v (rest.foldl Requirement.join m) := by
  induction rest generalizing m with
  | nil => exact hm
  | cons r rest ih =>
      obtain ⟨w, hr⟩ := hrest r List.mem_cons_self
      exact ih (hm.join hr) fun q hq => hrest q (List.mem_cons_of_mem r hq)

/-- The merged requirement on a package is written as its first pin. -/
theorem exists_mem_merge {rs : List Requirement} (hrs : ∀ r ∈ rs, ∃ v, IsPin r v) {n : String}
    (hn : n ∈ rs.map (·.name)) :
    ∃ first v m, rs.find? (·.name = n) = some first ∧ IsPin first v ∧
      m ∈ Requirement.merge rs ∧ m.name = n ∧ render m = v := by
  have hmerge := Requirement.find?_merge rs n
  cases hfilter : rs.filter (·.name = n) with
  | nil =>
      obtain ⟨r, hr, hname⟩ := List.mem_map.1 hn
      exact absurd hname (by simpa using List.filter_eq_nil_iff.1 hfilter r hr)
  | cons first rest =>
      rw [hfilter] at hmerge
      have hpins : ∀ r ∈ first :: rest, ∃ v, IsPin r v := fun r hr =>
        hrs r (List.mem_filter.1 (hfilter ▸ hr)).1
      obtain ⟨v, hv⟩ := hpins first List.mem_cons_self
      have hopens := hv.opensWith.foldl_join fun r hr => hpins r (List.mem_cons_of_mem first hr)
      refine ⟨first, v, _, ?_, hv, List.mem_of_find?_eq_some hmerge, ?_, render_of_opensWith hopens⟩
      · rw [← List.head?_filter, hfilter, List.head?_cons]
      · simpa using List.find?_some hmerge

end Pin

namespace Ecosystem

/-- What is composed for a package from pins parses back as the first requirement
on the package. It keeps all pins on the package if they admit the same versions,
and only then; and if any specifier keeps them all, this one does. -/
theorem compose_keeps_first_pin (e : Ecosystem) (he : e.grammar = .pin) (specifiers : List String)
    (rs : List Requirement) (hrs : e.parseAll specifiers = .ok rs) (n : String)
    (hn : n ∈ rs.map (·.name)) :
    ∃ constraint r, (e.compose rs).find? n = some constraint ∧
      e.parse (n ++ " " ++ constraint) = .ok r ∧ rs.find? (·.name = n) = some r ∧
      (r.EntailsAll n rs ↔ ∀ m ∈ rs, m.name = n → ∀ v, m.accepts v = r.accepts v) ∧
      ∀ s q, e.parse s = .ok q → q.EntailsAll n rs → r.EntailsAll n rs := by
  have hpin : ∀ {s r}, e.parse s = .ok r → ∃ v, Pin.IsPin r v := by
    intro s r hs
    have hread := parse_eq_ok.1 hs
    rw [he] at hread
    exact Pin.exists_of_read hread
  have hpins : ∀ r ∈ rs, ∃ v, Pin.IsPin r v := by
    intro r hr
    obtain ⟨s, _, hs⟩ := exists_of_mem_mapM hrs hr
    exact hpin hs
  obtain ⟨r, v, m, hfirst, hr, hm, rfl, rfl⟩ := Pin.exists_mem_merge hpins hn
  have hname : r.name = m.name := by simpa using List.find?_some hfirst
  refine ⟨Pin.render m, r, ?_, ?_, hfirst, hr.entailsAll_iff hpins, fun s q hq hall => ?_⟩
  · rw [find?_compose e hm, he]
    rfl
  · rw [parse_eq_ok, he, ← hname]
    exact hr.read_eq_ok
  · obtain ⟨w, hw⟩ := hpin hq
    have hsame := (hw.entailsAll_iff hpins).1 hall
    have hrq := hsame r (List.mem_of_find?_eq_some hfirst) hname
    exact (hr.entailsAll_iff hpins).2 fun k hk hkn x => (hsame k hk hkn x).trans (hrq x).symm

/-- Two spellings of one version around another package. -/
theorem compose_keeps_first_pin_maven :
    let specifiers := ["junit:junit 4.13", "com.google.guava:guava 32.1.3-jre",
      "junit:junit 4.13.0"]
    let rs : List Requirement := [.ofTerm "junit:junit" (.exact "4.13"),
      .ofTerm "com.google.guava:guava" (.exact "32.1.3-jre"),
      .ofTerm "junit:junit" (.exact "4.13.0")]
    maven.grammar = .pin ∧ maven.parseAll specifiers = .ok rs ∧
    "junit:junit" ∈ rs.map (·.name) ∧
    ∃ constraint r, (maven.compose rs).find? "junit:junit" = some constraint ∧
      maven.parse ("junit:junit" ++ " " ++ constraint) = .ok r ∧
      rs.find? (·.name = "junit:junit") = some r ∧
      (r.EntailsAll "junit:junit" rs ↔
        ∀ m ∈ rs, m.name = "junit:junit" → ∀ v, m.accepts v = r.accepts v) := by
  intro specifiers rs
  have hparse : maven.parseAll specifiers = .ok rs := by decide +kernel
  have hmem : "junit:junit" ∈ rs.map (·.name) := by decide
  obtain ⟨constraint, r, hfind, hread, hfirst, hall, -⟩ :=
    compose_keeps_first_pin maven rfl specifiers rs hparse "junit:junit" hmem
  exact ⟨rfl, hparse, hmem, constraint, r, hfind, hread, hfirst, hall⟩

/-- Of two pins of different rank the second one is lost. -/
theorem not_compose_entails_all :
    ¬ ∀ (e : Ecosystem) (specifiers : List String) (rs : List Requirement) (n constraint : String)
        (r : Requirement), e.grammar = .pin → e.parseAll specifiers = .ok rs →
      n ∈ rs.map (·.name) → (e.compose rs).find? n = some constraint →
      e.parse (n ++ " " ++ constraint) = .ok r → r.EntailsAll n rs := by
  intro hall
  have hparse : maven.parseAll ["junit:junit 4.12", "junit:junit 4.13"] =
      .ok [.ofTerm "junit:junit" (.exact "4.12"), .ofTerm "junit:junit" (.exact "4.13")] := by
    decide +kernel
  have hread : maven.parse ("junit:junit" ++ " " ++ "4.12") =
      .ok (.ofTerm "junit:junit" (.exact "4.12")) := by decide +kernel
  have hentails := hall maven _ _ "junit:junit" "4.12" _ rfl hparse (by decide) (by decide) hread
  have haccepts := hentails "4.12" (by decide) (.ofTerm "junit:junit" (.exact "4.13"))
    (by decide) rfl
  exact absurd haccepts (by decide)

end Ecosystem

end Requirements
