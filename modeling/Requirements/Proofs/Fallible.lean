import Mathlib

/-!
# Steps that may fail

A computation of several steps succeeds if every step does. Over a list, the
results stand in the places of the elements they come from. Where steps share a
log instead, each goes on with the log of the one before.
-/

namespace Requirements

variable {α β ε δ : Type}

theorem run_bind {σ : Type} (x : StateM σ α) (f : α → StateM σ β) (log : σ) :
    (x >>= f).run log = (f (x.run log).1).run (x.run log).2 :=
  rfl

theorem bind_eq_ok {x : Except ε α} {f : α → Except ε β} {b : β} :
    (x >>= f) = .ok b ↔ ∃ a, x = .ok a ∧ f a = .ok b := by
  cases x <;> simp [bind, Except.bind]

theorem pure_eq_ok {a b : α} : (pure a : Except ε α) = .ok b ↔ a = b := by
  simp [pure, Except.pure]

theorem map_eq_ok {x : Except ε α} {f : α → β} {b : β} :
    x.map f = .ok b ↔ ∃ a, x = .ok a ∧ f a = b := by
  cases x <;> simp [Except.map]

theorem mapError_eq_ok {x : Except ε α} {f : ε → δ} {a : α} :
    x.mapError f = .ok a ↔ x = .ok a := by
  cases x <;> simp [Except.mapError]

theorem map_mapError (x : Except ε α) (f : ε → δ) (g : α → β) :
    (x.mapError f).map g = (x.map g).mapError f := by
  cases x <;> rfl

theorem toOption_eq_some {x : Except ε α} {a : α} : x.toOption = some a ↔ x = .ok a := by
  cases x <;> simp [Except.toOption]

theorem toBool_eq_isSome (x : Except ε α) : x.toBool = x.toOption.isSome := by
  cases x <;> rfl

/-- All steps succeed, each with the result in its place. -/
theorem mapM_eq_ok {f : α → Except ε β} {xs : List α} {ys : List β} :
    xs.mapM f = .ok ys ↔ List.Forall₂ (fun x y => f x = .ok y) xs ys := by
  induction xs generalizing ys with
  | nil =>
      rw [List.mapM_nil, pure_eq_ok, List.forall₂_nil_left_iff]
      exact eq_comm
  | cons x xs ih =>
      simp only [List.mapM_cons, bind_eq_ok, pure_eq_ok, ih, List.forall₂_cons_left_iff]
      constructor
      · rintro ⟨y, hy, rest, hrest, rfl⟩
        exact ⟨y, rest, hy, hrest, rfl⟩
      · rintro ⟨y, rest, hy, hrest, rfl⟩
        exact ⟨y, hy, rest, hrest, rfl⟩

/-- The first step that fails decides, whatever comes after it. -/
theorem mapM_eq_error {f : α → Except ε β} {front back : List α} {x : α} {e : ε}
    (hfront : ∀ y ∈ front, ∃ z, f y = .ok z) (hx : f x = .error e) :
    (front ++ x :: back).mapM f = .error e := by
  induction front with
  | nil =>
      rw [List.nil_append, List.mapM_cons, hx]
      rfl
  | cons y front ih =>
      obtain ⟨z, hz⟩ := hfront y List.mem_cons_self
      have hrest := ih fun w hw => hfront w (List.mem_cons_of_mem y hw)
      rw [List.cons_append, List.mapM_cons, hz, hrest]
      rfl

/-- Where steps fail together, one of them fails with that error, and those before
it succeed. -/
theorem exists_of_mapM_eq_error {f : α → Except ε β} {xs : List α} {e : ε}
    (h : xs.mapM f = .error e) : ∃ front x back, xs = front ++ x :: back ∧
      (∀ y ∈ front, ∃ z, f y = .ok z) ∧ f x = .error e := by
  induction xs with
  | nil => cases h
  | cons x xs ih =>
      rw [List.mapM_cons] at h
      cases hx : f x with
      | error e' =>
          rw [hx] at h
          exact ⟨[], x, xs, rfl, List.forall_mem_nil _, Except.error.inj h ▸ hx⟩
      | ok z =>
          rw [hx] at h
          cases hrest : xs.mapM f with
          | ok zs =>
              rw [hrest] at h
              cases h
          | error e' =>
              rw [hrest] at h
              obtain rfl := Except.error.inj h
              obtain ⟨front, y, back, rfl, hfront, hy⟩ := ih hrest
              exact ⟨x :: front, y, back, rfl, List.forall_mem_cons.2 ⟨⟨z, hx⟩, hfront⟩, hy⟩

theorem mapM_singleton (f : α → Except ε β) (x : α) : [x].mapM f = (f x).map fun y => [y] := by
  rw [List.mapM_cons, List.mapM_nil]
  cases f x <;> rfl

theorem mapM_pair_eq_ok {f : α → Except ε β} {x y : α} {zs : List β} :
    [x, y].mapM f = .ok zs ↔ ∃ a b, f x = .ok a ∧ f y = .ok b ∧ zs = [a, b] := by
  simp only [mapM_eq_ok, List.forall₂_cons_left_iff, List.forall₂_nil_left_iff]
  constructor
  · rintro ⟨a, _, ha, ⟨b, _, hb, rfl, rfl⟩, rfl⟩
    exact ⟨a, b, ha, hb, rfl⟩
  · rintro ⟨a, b, ha, hb, rfl⟩
    exact ⟨a, _, ha, ⟨b, [], hb, rfl, rfl⟩, rfl⟩

/-- If every step succeeds with a result of some kind, all of them do together. -/
theorem exists_mapM_ok {γ : Type} {f : α → Except ε β} {g : γ → β} {R : α → γ → Prop}
    {xs : List α} (h : ∀ x ∈ xs, ∃ z, f x = .ok (g z) ∧ R x z) :
    ∃ zs, xs.mapM f = .ok (zs.map g) ∧ List.Forall₂ R xs zs := by
  induction xs with
  | nil => exact ⟨[], rfl, .nil⟩
  | cons x xs ih =>
      obtain ⟨z, hz, hxz⟩ := h x List.mem_cons_self
      obtain ⟨zs, hzs, hall⟩ := ih fun y hy => h y (List.mem_cons_of_mem x hy)
      refine ⟨z :: zs, ?_, .cons hxz hall⟩
      rw [mapM_eq_ok] at hzs ⊢
      exact .cons hz hzs

/-- Elements with the same results may stand for each other. -/
theorem mapM_eq_of_map_eq {γ : Type} {f : α → Except ε β} {g : γ → Except ε β} {xs : List α}
    {ys : List γ} (h : xs.map f = ys.map g) : xs.mapM f = ys.mapM g := by
  have hxs : (xs.map f).mapM id = xs.mapM f := List.mapM_map
  have hys : (ys.map g).mapM id = ys.mapM g := List.mapM_map
  rw [← hxs, ← hys, h]

/-- Steps that succeed alike on every element do so on all together. -/
theorem mapM_congr_ok {f g : α → Except ε β} {xs : List α} {ys : List β}
    (h : ∀ x ∈ xs, ∀ y, f x = .ok y ↔ g x = .ok y) : xs.mapM f = .ok ys ↔ xs.mapM g = .ok ys := by
  induction xs generalizing ys with
  | nil => rfl
  | cons x xs ih =>
      obtain ⟨hx, hxs⟩ := List.forall_mem_cons.1 h
      simp only [List.mapM_cons, bind_eq_ok, pure_eq_ok, hx, ih hxs]

/-- Every result is the result of some element. -/
theorem exists_of_mem_mapM {f : α → Except ε β} {xs : List α} {ys : List β}
    (h : xs.mapM f = .ok ys) {y : β} (hy : y ∈ ys) : ∃ x ∈ xs, f x = .ok y := by
  have hall := mapM_eq_ok.1 h
  clear h
  induction hall with
  | nil => cases hy
  | @cons x z xs zs hx _ ih =>
      rcases List.mem_cons.1 hy with rfl | hy
      · exact ⟨x, List.mem_cons_self, hx⟩
      · obtain ⟨w, hw, hwy⟩ := ih hy
        exact ⟨w, List.mem_cons_of_mem x hw, hwy⟩

/-- Every element has its result among the results. -/
theorem exists_mem_of_mapM {f : α → Except ε β} {xs : List α} {ys : List β}
    (h : xs.mapM f = .ok ys) {x : α} (hx : x ∈ xs) : ∃ y ∈ ys, f x = .ok y := by
  have hall := mapM_eq_ok.1 h
  clear h
  induction hall with
  | nil => cases hx
  | @cons z y zs ys hz _ ih =>
      rcases List.mem_cons.1 hx with rfl | hx
      · exact ⟨y, List.mem_cons_self, hz⟩
      · obtain ⟨w, hw, hwx⟩ := ih hx
        exact ⟨w, List.mem_cons_of_mem y hw, hwx⟩

/-- What every step keeps holds after all of them. -/
theorem foldlM_preserves {σ : Type} {P : σ → Prop} {f : σ → α → Except ε σ}
    (hstep : ∀ {s x s'}, P s → f s x = .ok s' → P s') {xs : List α} {s s' : σ} (hs : P s)
    (h : xs.foldlM f s = .ok s') : P s' := by
  induction xs generalizing s with
  | nil =>
      obtain rfl := pure_eq_ok.1 h
      exact hs
  | cons x xs ih =>
      rw [List.foldlM_cons, bind_eq_ok] at h
      obtain ⟨t, hx, hrest⟩ := h
      exact ih (hstep hs hx) hrest

/-! ## Both outcomes at once -/

/-- A result satisfies the one condition, an error the other one. -/
def EndsIn (Q : α → Prop) (E : ε → Prop) : Except ε α → Prop
  | .ok a => Q a
  | .error e => E e

namespace EndsIn

variable {Q : α → Prop} {E : ε → Prop} {x : Except ε α}

theorem mono (h : EndsIn Q E x) {Q' : α → Prop} {E' : ε → Prop} (hQ : ∀ a, Q a → Q' a)
    (hE : ∀ e, E e → E' e) : EndsIn Q' E' x := by
  cases x with
  | ok a => exact hQ a h
  | error e => exact hE e h

theorem bind {R : β → Prop} {f : α → Except ε β} (h : EndsIn Q E x)
    (hf : ∀ a, Q a → EndsIn R E (f a)) : EndsIn R E (x >>= f) := by
  cases x with
  | ok a => exact hf a h
  | error e => exact h

theorem map {R : β → Prop} {f : α → β} (h : EndsIn Q E x) (hf : ∀ a, Q a → R (f a)) :
    EndsIn R E (x.map f) := by
  cases x with
  | ok a => exact hf a h
  | error e => exact h

theorem mapError {D : δ → Prop} {f : ε → δ} (h : EndsIn Q E x) (hf : ∀ e, E e → D (f e)) :
    EndsIn Q D (x.mapError f) := by
  cases x with
  | ok a => exact h
  | error e => exact hf e h

theorem mapM {R : β → Prop} {f : α → Except ε β} {xs : List α}
    (h : ∀ x ∈ xs, EndsIn R E (f x)) : EndsIn (fun ys => ∀ y ∈ ys, R y) E (xs.mapM f) := by
  induction xs with
  | nil => exact List.forall_mem_nil _
  | cons x xs ih =>
      obtain ⟨hx, hxs⟩ := List.forall_mem_cons.1 h
      rw [List.mapM_cons]
      exact hx.bind fun y hy => (ih hxs).bind fun ys hys => List.forall_mem_cons.2 ⟨hy, hys⟩

end EndsIn

end Requirements
