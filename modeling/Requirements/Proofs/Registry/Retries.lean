import Mathlib
import Requirements.Proofs.Registry.Requests

/-!
# The first decisive outcome

A request is sent again as long as what comes of it is transient and the budget
lasts. So the outcomes are gone through in order, up to the first decisive one or up
to the last one that the budget allows, and the outcome that was reached is the one
reported. The outcomes before it have no part in the result, and none is asked for
after it.
-/

namespace Requirements

namespace Exchange

variable {package registry url : String}

/-- A transient outcome, and the error that it is reported as if the budget ends with it. -/
inductive Fails (package registry url : String) : Exchange → RegistryError → Prop
  | limited (body : String) :
      Fails package registry url (.reply 429 body) (.rateLimited registry)
  | faulty {status : Nat} (body : String) (h : 500 ≤ status ∧ status < 600) :
      Fails package registry url (.reply status body)
        (.network package registry (statusText status))
  | late : Fails package registry url .timedOut (.timedOut package registry)
  | dropped : Fails package registry url .dropped
      (.network package registry s!"error sending request for url ({url})")
  | unreachable : Fails package registry url .unreachable
      (.network package registry s!"error sending request for url ({url})")

/-- A decisive outcome, and the result that it is. -/
inductive Decides (package registry : String) : Exchange → Except RegistryError String → Prop
  | success {status : Nat} (body : String) (h : 200 ≤ status ∧ status < 300) :
      Decides package registry (.reply status body) (.ok body)
  | unknown (body : String) :
      Decides package registry (.reply 404 body) (.error (.notFound package registry))
  | refused {status : Nat} (body : String) (hsuccess : ¬(200 ≤ status ∧ status < 300))
      (hunknown : status ≠ 404) (hlimited : status ≠ 429)
      (hfaulty : ¬(500 ≤ status ∧ status < 600)) :
      Decides package registry (.reply status body)
        (.error (.network package registry (statusText status)))

theorem Fails.isTransient {x : Exchange} {e : RegistryError} (h : Fails package registry url x e) :
    x.isTransient = true := by
  cases h with
  | faulty body h => simp [Exchange.isTransient, h]
  | _ => rfl

theorem Fails.verdict_eq {x : Exchange} {e : RegistryError}
    (h : Fails package registry url x e) : x.verdict package registry url = .error e := by
  cases h with
  | @faulty status body h =>
      have hlimited : status ≠ 429 := by omega
      have hunknown : status ≠ 404 := by omega
      have hsuccess : ¬(200 ≤ status ∧ status < 300) := by omega
      simp [verdict, hlimited, hunknown, hsuccess]
  | _ => rfl

theorem Decides.verdict_eq {x : Exchange} {answer : Except RegistryError String}
    (h : Decides package registry x answer) (url : String) :
    x.verdict package registry url = answer := by
  cases h with
  | success body h => exact verdict_success h body package registry url
  | unknown body => rfl
  | refused body hsuccess hunknown hlimited _ => simp [verdict, hlimited, hunknown, hsuccess]

/-- Whatever is not transient is decisive. -/
theorem fails_or_decides (package registry url : String) (x : Exchange) :
    (∃ e, Fails package registry url x e) ∨
      x.isTransient = false ∧ ∃ answer, Decides package registry x answer := by
  cases x with
  | reply status body =>
      by_cases hlimited : status = 429
      · subst hlimited
        exact .inl ⟨_, .limited body⟩
      by_cases hfaulty : 500 ≤ status ∧ status < 600
      · exact .inl ⟨_, .faulty body hfaulty⟩
      have htransient : (reply status body).isTransient = false := by
        simpa [Exchange.isTransient, hlimited] using hfaulty
      refine .inr ⟨htransient, ?_⟩
      by_cases hunknown : status = 404
      · subst hunknown
        exact ⟨_, .unknown body⟩
      by_cases hsuccess : 200 ≤ status ∧ status < 300
      · exact ⟨_, .success body hsuccess⟩
      · exact ⟨_, .refused body hsuccess hunknown hlimited hfaulty⟩
  | timedOut => exact .inl ⟨_, .late⟩
  | dropped => exact .inl ⟨_, .dropped⟩
  | unreachable => exact .inl ⟨_, .unreachable⟩

end Exchange

/-! ## Attempts -/

/-- The first requests for a URL, as many as are asked for, with what comes of each. -/
def attempts (url : String) (outcome : Nat → Exchange) (n : Nat) : List Request :=
  (List.range n).map fun i => ⟨url, outcome i⟩

@[simp] theorem attempts_zero (url : String) (outcome : Nat → Exchange) :
    attempts url outcome 0 = [] :=
  rfl

theorem attempts_succ (url : String) (outcome : Nat → Exchange) (n : Nat) :
    attempts url outcome (n + 1) =
      ⟨url, outcome 0⟩ :: attempts url (fun i => outcome (i + 1)) n := by
  simp [attempts, List.range_succ_eq_map, Function.comp_def]

/-- After the given requests, the ones for a URL have the given outcomes, in order. -/
def Remote.Plays (remote : Remote) (url : String) (log : List Request)
    (outcome : Nat → Exchange) : Prop :=
  ∀ i, remote (log ++ attempts url outcome i) url = outcome i

theorem Remote.Plays.head {remote : Remote} {url : String} {log : List Request}
    {outcome : Nat → Exchange} (h : remote.Plays url log outcome) : remote log url = outcome 0 := by
  rw [← h 0, attempts_zero, List.append_nil]

/-- What comes after the first of the outcomes is what comes after a request more. -/
theorem Remote.Plays.tail {remote : Remote} {url : String} {log : List Request}
    {outcome : Nat → Exchange} (h : remote.Plays url log outcome) :
    remote.Plays url (log ++ [⟨url, outcome 0⟩]) fun i => outcome (i + 1) := by
  intro i
  have hi := h (i + 1)
  rwa [attempts_succ, ← List.singleton_append, ← List.append_assoc] at hi

/-- A registry that goes through the given outcomes, whatever it is asked for. -/
def Remote.replaying (outcome : Nat → Exchange) : Remote :=
  fun past _ => outcome past.length

/-- So any outcomes may come. -/
theorem Remote.plays_replaying (url : String) (outcome : Nat → Exchange) :
    (replaying outcome).Plays url [] outcome := by
  intro i
  simp [replaying, attempts]

namespace Client

/-- The outcomes are gone through up to one before which all are transient, and which is
decisive itself or the last that the budget allows. -/
theorem run_settle_of_plays {remote : Remote} {url : String} (retries : Nat)
    {log : List Request} {outcome : Nat → Exchange} (h : remote.Plays url log outcome) :
    ∃ k ≤ retries, (∀ i < k, (outcome i).isTransient = true) ∧
      (k = retries ∨ (outcome k).isTransient = false) ∧
      (settle remote url retries).run log =
        (outcome k, log ++ attempts url outcome (k + 1)) := by
  induction retries generalizing log outcome with
  | zero =>
      refine ⟨0, le_refl 0, by simp, .inl rfl, ?_⟩
      rw [settle, run_send, h.head, attempts_succ, attempts_zero]
  | succ retries ih =>
      rw [settle, run_bind, run_send, h.head]
      by_cases hagain : (outcome 0).isTransient = true
      · obtain ⟨k, hk, hbefore, hlast, hrun⟩ := ih h.tail
        refine ⟨k + 1, Nat.succ_le_succ hk, ?_, hlast.imp (congrArg Nat.succ) id, ?_⟩
        · rintro (_ | i) hi
          · exact hagain
          · exact hbefore i (Nat.lt_of_succ_lt_succ hi)
        · rw [if_pos hagain, hrun, attempts_succ url outcome, List.append_assoc,
            List.singleton_append]
      · rw [if_neg hagain]
        refine ⟨0, Nat.zero_le _, by simp, .inr (by simpa using hagain), ?_⟩
        rw [attempts_succ, attempts_zero]
        rfl

/-- If one of the outcomes that the budget allows is decisive, the first such one is the
result and the last request. If none is, the budget is used up, and the last of the
outcomes is reported. -/
theorem get_first_decisive (c : Client) (package registry url : String) (log : List Request)
    (outcome : Nat → Exchange) (h : c.remote.Plays url log outcome) :
    (∀ k ≤ c.retries, (∀ i < k, ∃ e, (outcome i).Fails package registry url e) →
      (¬∃ e, (outcome k).Fails package registry url e) →
      ∃ answer, (outcome k).Decides package registry answer ∧
        (c.get package registry url).run log =
          (answer, log ++ attempts url outcome (k + 1))) ∧
    ((∀ i ≤ c.retries, ∃ e, (outcome i).Fails package registry url e) →
      ∃ e, (outcome c.retries).Fails package registry url e ∧
        (c.get package registry url).run log =
          (.error e, log ++ attempts url outcome (c.retries + 1))) := by
  obtain ⟨reached, hreached, hbefore, hlast, hrun⟩ := run_settle_of_plays c.retries h
  have hget : (c.get package registry url).run log =
      ((outcome reached).verdict package registry url,
        log ++ attempts url outcome (reached + 1)) := by
    rw [run_get, hrun]
  constructor
  · intro k hk htransient hdecisive
    obtain ⟨hsteady, answer, hanswer⟩ :=
      (Exchange.fails_or_decides package registry url (outcome k)).resolve_left hdecisive
    -- The outcome reached is neither before the decisive one nor after it.
    have heq : reached = k := by
      rcases Nat.lt_trichotomy reached k with hlt | heq | hgt
      · obtain ⟨e, he⟩ := htransient reached hlt
        rcases hlast with hend | hstop
        · omega
        · rw [he.isTransient] at hstop
          cases hstop
      · exact heq
      · rw [hbefore k hgt] at hsteady
        cases hsteady
    subst heq
    exact ⟨answer, hanswer, by rw [hget, hanswer.verdict_eq]⟩
  · intro htransient
    obtain ⟨e, he⟩ := htransient reached hreached
    have heq : reached = c.retries := by
      rcases hlast with hend | hstop
      · exact hend
      · rw [he.isTransient] at hstop
        cases hstop
    subst heq
    exact ⟨e, he, by rw [hget, he.verdict_eq]⟩

/-- A server that fails, then answers too late, then does not know the package: with two
repetitions it comes to the third answer, and with one to the second. -/
theorem get_first_decisive_unknown :
    let outcome : Nat → Exchange
      | 0 => .reply 503 ""
      | 1 => .timedOut
      | 2 => .reply 404 ""
      | _ => .reply 200 "{}"
    let remote := Remote.replaying outcome
    remote.Plays "http://registry/p" [] outcome ∧
    (Client.get ⟨remote, 2⟩ "p" "npm" "http://registry/p").run [] =
      (.error (.notFound "p" "npm"), attempts "http://registry/p" outcome 3) ∧
    (Client.get ⟨remote, 1⟩ "p" "npm" "http://registry/p").run [] =
      (.error (.timedOut "p" "npm"), attempts "http://registry/p" outcome 2) := by
  intro outcome remote
  have hplays := Remote.plays_replaying "http://registry/p" outcome
  have hfaulty : (outcome 0).Fails "p" "npm" "http://registry/p"
      (.network "p" "npm" (statusText 503)) := .faulty "" (by decide)
  have hlate : (outcome 1).Fails "p" "npm" "http://registry/p" (.timedOut "p" "npm") := .late
  have htwo : ∀ i < 2, ∃ e, (outcome i).Fails "p" "npm" "http://registry/p" e := by
    intro i hi
    interval_cases i
    · exact ⟨_, hfaulty⟩
    · exact ⟨_, hlate⟩
  have hunknown : ¬∃ e, (outcome 2).Fails "p" "npm" "http://registry/p" e := by
    rintro ⟨e, he⟩
    exact absurd he.isTransient (by decide)
  obtain ⟨answer, hanswer, hfound⟩ := (get_first_decisive ⟨remote, 2⟩ "p" "npm"
    "http://registry/p" [] outcome hplays).1 2 (le_refl 2) htwo hunknown
  obtain ⟨e, he, hspent⟩ := (get_first_decisive ⟨remote, 1⟩ "p" "npm" "http://registry/p" []
    outcome hplays).2 fun i hi => htwo i (Nat.lt_succ_of_le hi)
  have hnotFound : Except.error (.notFound "p" "npm") = answer :=
    hanswer.verdict_eq "http://registry/p"
  have htimedOut : (Except.error (.timedOut "p" "npm") : Except RegistryError String) =
      .error e := he.verdict_eq
  rw [hnotFound, htimedOut]
  exact ⟨hplays, hfound, hspent⟩

end Client

end Requirements
