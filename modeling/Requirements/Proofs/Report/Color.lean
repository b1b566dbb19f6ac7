import Mathlib
import Requirements.Proofs.Text.Words
import Requirements.Report.Text

/-!
# Colour is presentation only

A report in colour says what it says without. Each of its pieces gives the plain piece
when the control sequences are removed, whatever follows it, so the whole report does.
-/

namespace Requirements

/-! ## Removing colours -/

/-- The text after the control sequence that it starts with: an escape, a bracket,
digits and semicolons, and an `m`. -/
def afterSequence? : List Char → Option (List Char)
  | '\x1b' :: '[' :: cs =>
      match cs.dropWhile fun c => c.isDigit || c == ';' with
      | 'm' :: rest => some rest
      | _ => none
  | _ => none

theorem length_of_afterSequence? {cs rest : List Char} (h : afterSequence? cs = some rest) :
    rest.length < cs.length := by
  unfold afterSequence? at h
  split at h
  · rename_i cs
    split at h
    · rename_i more hdrop
      obtain rfl := Option.some.inj h
      have hsuffix := (List.dropWhile_suffix (l := cs) fun c => c.isDigit || c == ';').length_le
      rw [hdrop] at hsuffix
      simp only [List.length_cons] at hsuffix ⊢
      omega
    · cases h
  · cases h

/-- The text without its control sequences. -/
def uncolored (cs : List Char) : List Char :=
  match _ : afterSequence? cs with
  | some rest => uncolored rest
  | none =>
      match cs with
      | [] => []
      | c :: cs => c :: uncolored cs
termination_by cs.length
decreasing_by
  · exact length_of_afterSequence? ‹_›
  · exact Nat.lt_succ_self _

theorem uncolored_nil : uncolored [] = [] := by
  rw [uncolored]
  rfl

theorem uncolored_cons {c : Char} (h : c ≠ '\x1b') (cs : List Char) :
    uncolored (c :: cs) = c :: uncolored cs := by
  have hnone : afterSequence? (c :: cs) = none := by
    unfold afterSequence?
    split
    · rename_i heq
      exact absurd (List.cons.inj heq).1 h
    · rfl
  rw [uncolored]
  split
  · rename_i hsome
    rw [hnone] at hsome
    cases hsome
  · rfl

theorem uncolored_of_afterSequence? {cs rest : List Char} (h : afterSequence? cs = some rest) :
    uncolored cs = uncolored rest := by
  rw [uncolored]
  split
  · rename_i hsome
    obtain rfl := Option.some.inj (h.symm.trans hsome)
    rfl
  · rename_i hnone
    rw [h] at hnone
    cases hnone

/-- Nothing is removed from a text without escapes. -/
theorem uncolored_append {cs : List Char} (h : ∀ c ∈ cs, c ≠ '\x1b') (rest : List Char) :
    uncolored (cs ++ rest) = cs ++ uncolored rest := by
  induction cs with
  | nil => rfl
  | cons c cs ih =>
      obtain ⟨hc, hcs⟩ := List.forall_mem_cons.1 h
      rw [List.cons_append, uncolored_cons hc, ih hcs, List.cons_append]

/-- The text turns no colour on or off. -/
def IsPlain (s : String) : Prop :=
  ∀ c ∈ s.toList, c ≠ '\x1b'

/-- Without its control sequences the first text is the second one, whatever follows. -/
def Sheds (colored plain : String) : Prop :=
  ∀ rest, uncolored (colored.toList ++ rest) = plain.toList ++ uncolored rest

instance (s : String) : Decidable (IsPlain s) :=
  decidable_of_iff (s.toList.all (· != '\x1b') = true) (by simp [IsPlain])

namespace IsPlain

theorem append {s t : String} (hs : IsPlain s) (ht : IsPlain t) : IsPlain (s ++ t) := by
  intro c hc
  rw [String.toList_append] at hc
  exact (List.mem_append.1 hc).elim (hs c) (ht c)

theorem sheds {s : String} (h : IsPlain s) : Sheds s s :=
  uncolored_append h

end IsPlain

namespace Sheds

theorem append {a b a' b' : String} (h : Sheds a b) (h' : Sheds a' b') :
    Sheds (a ++ a') (b ++ b') := by
  intro rest
  rw [String.toList_append, String.toList_append, List.append_assoc, h, h', List.append_assoc]

theorem uncolored_eq {a b : String} (h : Sheds a b) : uncolored a.toList = b.toList := by
  simpa [uncolored_nil] using h []

/-- Lines that shed their colours one by one do so together. -/
theorem join_map {α : Type} {xs : List α} {f g : α → String} (h : ∀ x ∈ xs, Sheds (f x) (g x)) :
    Sheds (String.join (xs.map f)) (String.join (xs.map g)) := by
  induction xs with
  | nil => exact fun _ => rfl
  | cons x xs ih =>
      obtain ⟨hx, hxs⟩ := List.forall_mem_cons.1 h
      rw [List.map_cons, List.map_cons, String.join_cons, String.join_cons]
      exact hx.append (ih hxs)

end Sheds

namespace Style

theorem afterSequence?_sequence (s : Style) (cs : List Char) :
    afterSequence? (s.sequence ++ cs) = some cs := by
  cases s <;> simp [sequence, code, afterSequence?]

theorem afterResets_eq_self {sequence cs : List Char} (h : ∀ c ∈ cs, c ≠ '\x1b') :
    afterResets sequence cs = cs := by
  induction cs with
  | nil => rfl
  | cons c cs ih =>
      obtain ⟨hc, hcs⟩ := List.forall_mem_cons.1 h
      rw [afterResets, ih hcs]
      rintro rest rfl
      exact absurd rfl hc

/-- A piece of a line, in a colour if colours are on. -/
def piece (s : Style) (color : Bool) (text : String) : String :=
  if color then s.paint text else text

/-- A painted piece sheds its colour. -/
theorem piece_sheds (s : Style) {text : String} (h : IsPlain text) :
    Sheds (s.piece true text) (s.piece false text) := by
  intro rest
  have hself : afterResets s.sequence text.toList = text.toList := afterResets_eq_self h
  have hreset : afterSequence? ('\x1b' :: '[' :: '0' :: 'm' :: rest) = some rest := by
    simp [afterSequence?]
  simp [piece, paint, hself, uncolored_of_afterSequence? (afterSequence?_sequence s _),
    uncolored_append h, uncolored_of_afterSequence? hreset]

end Style

/-! ## Texts of a report -/

theorem isPlain_space : IsPlain " " := by
  decide

theorem isPlain_indent : IsPlain "  " := by
  decide

theorem isPlain_break : IsPlain "\n" := by
  decide

theorem isPlain_toString (n : Nat) : IsPlain (toString n) := by
  intro c hc
  have hdigit : c.isDigit = true := by
    refine Nat.isDigit_of_mem_toDigits (n := n) (b := 10) (by decide) (by decide) ?_
    simpa [toString, Nat.repr] using hc
  rintro rfl
  exact absurd hdigit (by decide)

theorem isPlain_intercalate {sep : String} {ts : List String} (hsep : IsPlain sep)
    (h : ∀ t ∈ ts, IsPlain t) : IsPlain (sep.intercalate ts) := by
  intro c hc
  rw [String.toList_intercalate] at hc
  rcases Text.mem_intercalate hc with hc | ⟨part, hpart, hc⟩
  · exact hsep c hc
  · obtain ⟨t, ht, rfl⟩ := List.mem_map.1 hpart
    exact h t ht c hc

theorem isPlain_trimEnd {s : String} (h : IsPlain s) :
    IsPlain (String.ofList (Text.trimEnd s.toList)) := by
  intro c hc
  rw [String.toList_ofList, Text.trimEnd, List.mem_reverse] at hc
  exact h c (List.mem_reverse.1 ((List.dropWhile_suffix _).subset hc))

namespace Report

theorem isPlain_padded {width : Nat} {name : String} (h : IsPlain name) :
    IsPlain (padded width name) := by
  refine h.append fun c hc => ?_
  rw [String.toList_ofList] at hc
  obtain rfl := List.eq_of_mem_replicate hc
  decide

theorem isPlain_resolvedCounts (r : Resolution) : IsPlain (resolvedCounts r) := by
  have hresolved : IsPlain " resolved, " := by decide
  have hunmatched : IsPlain " unmatched" := by decide
  have hcomma : IsPlain ", " := by decide
  have hskipped : IsPlain " skipped" := by decide
  refine ((((isPlain_toString _).append hresolved).append (isPlain_toString _)).append
    hunmatched).append ?_
  split
  · decide
  · exact (hcomma.append (isPlain_toString _)).append hskipped

theorem isPlain_constraintCounts (t : Table String) : IsPlain (constraintCounts t) := by
  refine ((isPlain_toString _).append isPlain_space).append ?_
  split <;> decide

theorem isPlain_pickedText {p : Picked} (h : ∀ v ∈ p.versions, IsPlain v) :
    ∀ text ∈ pickedText? p, IsPlain text := by
  have hcomma : IsPlain ", " := by decide
  cases p with
  | unmatched => nofun
  | _ =>
      rintro text ⟨⟩
      exact isPlain_intercalate hcomma h

/-! ## Lines

The two layouts of a line differ in the pieces that are in colour only. -/

theorem heading_eq (r : Report) (color : Bool) (counts : String) :
    r.heading color counts = Style.bold.piece color r.ecosystem.displayName ++ " " ++
      Style.dimmed.piece color ("(" ++ r.source ++ ")") ++ ": " ++ counts ++ "\n" := by
  cases color
  · apply String.toList_inj.1
    simp [heading, Style.piece]
  · rfl

theorem pickedLine_eq (color : Bool) (width : Nat) (name : String) (p : Picked) :
    pickedLine color width name p = "  " ++ padded width name ++ " " ++
      ((pickedText? p).elim (Style.yellow.piece color "no matching release")
        (Style.brightWhiteBold.piece color)) ++ "\n" := by
  unfold pickedLine
  cases pickedText? p with
  | some text => cases color <;> rfl
  | none =>
      cases color
      · apply String.toList_inj.1
        simp [Style.piece]
      · rfl

theorem skippedLine_eq (verbosity : Verbosity) (color : Bool) (width : Nat) (s : Skipped) :
    skippedLine verbosity color width s = "  " ++ Style.dimmed.piece color
      (String.ofList (Text.trimEnd (padded width s.name ++ " " ++
        if verbosity = .verbose then "(" ++ s.reason ++ ")" else "").toList)) ++ "\n" := by
  cases color <;> rfl

theorem restrictedLine_eq (color : Bool) (width : Nat) (name specifier : String) :
    restrictedLine color width name specifier =
      "  " ++ padded width name ++ " " ++ Style.cyan.piece color specifier ++ "\n" := by
  cases color <;> rfl

theorem quietLine_sheds {name text : String} (hname : IsPlain name) (htext : IsPlain text) :
    Sheds (quietLine name text) (quietLine name text) :=
  (((hname.append isPlain_space).append htext).append isPlain_break).sheds

/-- A line that starts with a padded name and goes on with a piece that sheds its colour. -/
theorem nameLine_sheds {width : Nat} {name : String} (hname : IsPlain name) {a b : String}
    (h : Sheds a b) :
    Sheds ("  " ++ padded width name ++ " " ++ a ++ "\n")
      ("  " ++ padded width name ++ " " ++ b ++ "\n") :=
  (((isPlain_indent.append (isPlain_padded hname)).append isPlain_space).sheds.append h).append
    isPlain_break.sheds

theorem pickedLine_sheds {width : Nat} {name : String} (hname : IsPlain name) {p : Picked}
    (hversions : ∀ v ∈ p.versions, IsPlain v) :
    Sheds (pickedLine true width name p) (pickedLine false width name p) := by
  rw [pickedLine_eq, pickedLine_eq]
  refine nameLine_sheds hname ?_
  cases htext : pickedText? p with
  | none => exact Style.piece_sheds .yellow (by decide)
  | some text => exact Style.piece_sheds .brightWhiteBold (isPlain_pickedText hversions text htext)

theorem skippedLine_sheds {verbosity : Verbosity} {width : Nat} {s : Skipped}
    (hname : IsPlain s.name) (hreason : IsPlain s.reason) :
    Sheds (skippedLine verbosity true width s) (skippedLine verbosity false width s) := by
  have hopen : IsPlain "(" := by decide
  have hclose : IsPlain ")" := by decide
  have htold : IsPlain (if verbosity = .verbose then "(" ++ s.reason ++ ")" else "") := by
    split
    · exact (hopen.append hreason).append hclose
    · decide
  have hrow : IsPlain (padded width s.name) := isPlain_padded hname
  have hline := isPlain_trimEnd ((hrow.append isPlain_space).append htold)
  rw [skippedLine_eq, skippedLine_eq]
  exact (isPlain_indent.sheds.append (Style.piece_sheds .dimmed hline)).append isPlain_break.sheds

theorem skippedPart_sheds {verbosity : Verbosity} {width : Nat} {skipped : List Skipped}
    (h : ∀ s ∈ skipped, IsPlain s.name ∧ IsPlain s.reason) :
    Sheds (skippedPart verbosity true width skipped)
      (skippedPart verbosity false width skipped) := by
  have hlabel : Sheds ("  " ++ Style.dimmed.paint "Skipped:" ++ "\n") "  Skipped:\n" :=
    (isPlain_indent.sheds.append (Style.piece_sheds .dimmed (by decide))).append
      isPlain_break.sheds
  have hlines : Sheds (String.join (skipped.map (skippedLine verbosity true width)))
      (String.join (skipped.map (skippedLine verbosity false width))) :=
    .join_map fun s hs => skippedLine_sheds (h s hs).1 (h s hs).2
  unfold skippedPart
  split
  · exact fun _ => rfl
  · exact (isPlain_break.sheds.append hlabel).append hlines

variable {r : Report}

theorem heading_sheds (hsource : IsPlain r.source) {counts : String} (hcounts : IsPlain counts) :
    Sheds (r.heading true counts) (r.heading false counts) := by
  have hname : IsPlain r.ecosystem.displayName := by cases r.ecosystem <;> decide
  have hopen : IsPlain "(" := by decide
  have hclose : IsPlain ")" := by decide
  have hcolon : IsPlain ": " := by decide
  have hwhere := (hopen.append hsource).append hclose
  rw [heading_eq, heading_eq]
  exact (((((Style.piece_sheds .bold hname).append isPlain_space.sheds).append
    (Style.piece_sheds .dimmed hwhere)).append hcolon.sheds).append hcounts.sheds).append
      isPlain_break.sheds

/-! ## Reports -/

/-- The names, versions, reasons and constraints that a finding is told with. -/
def findingTexts : Finding → List String
  | .resolved r =>
      (r.entries.entries.flatMap fun e => e.1 :: e.2.versions) ++
        r.skipped.flatMap fun s => [s.name, s.reason]
  | .restricted t => t.entries.flatMap fun e => [e.1, e.2]

/-- The texts that a report is made of. -/
def texts (r : Report) : List String :=
  r.source :: findingTexts r.finding

theorem resolvedText_sheds (hsource : IsPlain r.source) {resolution : Resolution}
    (h : ∀ t ∈ findingTexts (.resolved resolution), IsPlain t) (verbosity : Verbosity) :
    Sheds (r.resolvedText verbosity true resolution)
      (r.resolvedText verbosity false resolution) := by
  have hentry : ∀ e ∈ resolution.entries.entries, IsPlain e.1 ∧ ∀ v ∈ e.2.versions, IsPlain v := by
    intro e he
    have hmem : ∀ t ∈ e.1 :: e.2.versions, IsPlain t := fun t ht =>
      h t (List.mem_append_left _ (List.mem_flatMap.2 ⟨e, he, ht⟩))
    exact List.forall_mem_cons.1 hmem
  have hskipped : ∀ s ∈ resolution.skipped, IsPlain s.name ∧ IsPlain s.reason := by
    intro s hs
    have hmem : ∀ t ∈ [s.name, s.reason], IsPlain t := fun t ht =>
      h t (List.mem_append_right _ (List.mem_flatMap.2 ⟨s, hs, ht⟩))
    exact ⟨hmem _ (by simp), hmem _ (by simp)⟩
  unfold resolvedText
  split
  · refine .join_map fun e he => quietLine_sheds (hentry e he).1 ?_
    cases htext : pickedText? e.2 with
    | none => decide
    | some text => exact isPlain_pickedText (hentry e he).2 text htext
  · refine ((heading_sheds hsource (isPlain_resolvedCounts resolution)).append ?_).append
      (skippedPart_sheds hskipped)
    exact .join_map fun e he => pickedLine_sheds (hentry e he).1 (hentry e he).2

theorem restrictedText_sheds (hsource : IsPlain r.source) {t : Table String}
    (h : ∀ text ∈ findingTexts (.restricted t), IsPlain text) (verbosity : Verbosity) :
    Sheds (r.restrictedText verbosity true t) (r.restrictedText verbosity false t) := by
  have hentry : ∀ e ∈ t.entries, IsPlain e.1 ∧ IsPlain e.2 := by
    intro e he
    have hmem : ∀ text ∈ [e.1, e.2], IsPlain text := fun text ht =>
      h text (List.mem_flatMap.2 ⟨e, he, ht⟩)
    exact ⟨hmem _ (by simp), hmem _ (by simp)⟩
  unfold restrictedText
  split
  · exact .join_map fun e he => quietLine_sheds (hentry e he).1 (hentry e he).2
  · refine (heading_sheds hsource (isPlain_constraintCounts t)).append ?_
    refine .join_map fun e he => ?_
    rw [restrictedLine_eq, restrictedLine_eq]
    exact nameLine_sheds (hentry e he).1 (Style.piece_sheds .cyan (hentry e he).2)

theorem text_sheds (h : ∀ t ∈ r.texts, IsPlain t) (verbosity : Verbosity) :
    Sheds (r.text verbosity true) (r.text verbosity false) := by
  obtain ⟨hsource, hfinding⟩ := List.forall_mem_cons.1 h
  unfold text
  split
  · rename_i resolution hresolved
    exact resolvedText_sheds hsource (hresolved ▸ hfinding) verbosity
  · rename_i constraints hrestricted
    exact restrictedText_sheds hsource (hrestricted ▸ hfinding) verbosity

/-- In colour a heading starts with an escape, and otherwise with the name of an ecosystem. -/
theorem head?_heading (color : Bool) (counts rest : String) :
    (r.heading color counts ++ rest).toList.head? = some '\x1b' ↔ color = true := by
  have hname : ∃ c cs, r.ecosystem.displayName.toList = c :: cs ∧ c ≠ '\x1b' := by
    cases r.ecosystem <;> exact ⟨_, _, rfl, by decide⟩
  obtain ⟨c, cs, hname, hc⟩ := hname
  cases color <;> simp [heading, Style.paint, Style.sequence, hname, hc]

/-- Colours show in every report but a quiet one. -/
theorem text_color_eq_iff (r : Report) (verbosity : Verbosity) :
    r.text verbosity true = r.text verbosity false ↔ verbosity = .quiet := by
  constructor
  · intro heq
    by_contra hverbosity
    have hhead : ∀ color, (r.text verbosity color).toList.head? = some '\x1b' ↔ color = true := by
      intro color
      unfold text
      split
      · rw [resolvedText, if_neg hverbosity, String.append_assoc]
        exact head?_heading color _ _
      · rw [restrictedText, if_neg hverbosity]
        exact head?_heading color _ _
    have hplain := (hhead false).1 (heq ▸ (hhead true).2 rfl)
    cases hplain
  · rintro rfl
    unfold text
    split
    · rw [resolvedText, resolvedText, if_pos rfl, if_pos rfl]
    · rw [restrictedText, restrictedText, if_pos rfl, if_pos rfl]

/-- A report whose texts have no escapes is in colour what it is without, but for the
control sequences, and it has some unless it is quiet. -/
theorem text_uncolored (r : Report) (verbosity : Verbosity)
    (h : ∀ t ∈ r.texts, '\x1b' ∉ t.toList) :
    uncolored (r.text verbosity true).toList = (r.text verbosity false).toList ∧
      (r.text verbosity true = r.text verbosity false ↔ verbosity = .quiet) := by
  have hplain : ∀ t ∈ r.texts, IsPlain t := by
    rintro t ht c hc rfl
    exact h t ht hc
  exact ⟨(text_sheds hplain verbosity).uncolored_eq, text_color_eq_iff r verbosity⟩

/-- A match, an empty list, a package without a match and a skipped one, with a name
outside ASCII and a reason in brackets. -/
theorem text_uncolored_skipped :
    let r : Report := ⟨.npm, "npm", .resolved ⟨.ofList [("é", .latest "1.0.0"), ("a", .every []),
      ("b", .unmatched)], [⟨"c", "[0m"⟩]⟩⟩
    (∀ t ∈ r.texts, '\x1b' ∉ t.toList) ∧
      uncolored (r.text .verbose true).toList = (r.text .verbose false).toList ∧
      r.text .verbose true ≠ r.text .verbose false := by
  intro r
  have hplain : ∀ t ∈ r.texts, '\x1b' ∉ t.toList := by decide
  obtain ⟨heq, hquiet⟩ := text_uncolored r .verbose hplain
  exact ⟨hplain, heq, fun h => nomatch hquiet.1 h⟩

end Report

end Requirements
